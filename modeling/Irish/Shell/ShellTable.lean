import Irish.Shell.BuiltinOutput

/-!
# The descriptors of the shell after a group

A pipeline leaves the table of the shell as it was, whatever fails on the way
(`pipesExecute_table`).

A builtin that runs in the shell replaces its stdin and stdout by the redirections and puts back the
copies that `dup` has made. If `dup` fails there is no copy: the builtin runs all the same, and the
shell keeps the redirection (`executeBuiltin_table_iff`). All other descriptors are as they were.
-/

set_option autoImplicit false

namespace Irish.Shell

open Library

/-! ### A pipeline -/

/-- A set-up either fails and leaves the table as it was, or adds at most the descriptor that it
returns. -/
def SetupClean (t : Table) (r : SetupResult) : Prop :=
  (r.error ≠ none ∧ r.table.get = t.get) ∨
    (r.error = none ∧ t.Opened r.fd.toList (fun _ ↦ True) r.table)

variable {io : Redirection} {i count std j : ℕ} {shellPgid : ℕ+} {o : SetupOutcome}
  {t u u' t₁ : Table} {r : SetupResult} {saved : Option ℕ} {now : Option Description} {dupOk : Bool}
  {files : List Description}

theorem SetupSpec.clean (h : SetupSpec io i count shellPgid o t r) : SetupClean t r := by
  by_cases hok : SetupOk count o
  · obtain ⟨herror, hopened⟩ := h.ok hok
    exact .inr ⟨herror, hopened.mono fun _ _ ↦ trivial⟩
  · exact .inl (h.failed hok)

/-- `pipes_execute` gives the shell its descriptors back, whatever the calls of `pipe`, `open`,
`fork` and the search for the commands return. -/
theorem pipesExecute_table (shellPgid : ℕ+) (cmds : List SingleCommand) (isBg : Bool)
    (cmdLine : Option (List Byte)) (o : PipelineOutcome) (t : Table) (jobs : JobTable) :
    (pipesExecute shellPgid cmds isBg cmdLine o t jobs).table.get = t.get ∧
      ∀ (i : ℕ) (cmd : SingleCommand) (o : SetupOutcome) (t : Table),
        SetupClean t (redirectSetupInput i cmd shellPgid o t) ∧
          SetupClean t (redirectSetupOutput i cmd shellPgid o t) := by
  refine ⟨?_, fun i cmd o t ↦ ⟨(setupSpec_input ..).clean, (setupSpec_output ..).clean⟩⟩
  rcases pipesExecute_spawn shellPgid cmds isBg cmdLine o t jobs with
    ⟨-, -, hget⟩ | ⟨pipeFds, t', s, hpipes, rfl, -, htable, -⟩
  · exact hget
  · have hloop := spawnLoop_spec ⟨shellPgid, isBg, cmds.length, pipeFds⟩ o.command cmds t'
      le_rfl
    rw [htable, DescriptorTable.get_closeAll_congr hloop.table]
    exact hpipes.opened.closeAll _ fun _ ↦ Iff.rfl

/-! ### A builtin in the shell -/

/-- A standard descriptor is replaced: it refers to `now`, the descriptor `saved`, if there is one,
to what it was, and all others are as in `t`. -/
structure Replaced (std : ℕ) (saved : Option ℕ) (now : Option Description) (t u : Table) :
    Prop where
  free : ∀ s, saved = some s → t.get s = none
  get : ∀ j, u.get j = if j = std then now else if saved = some j then t.get std else t.get j

section Replaced

variable {std fd std' : ℕ} {t₁ u : Table} {P : Description → Prop} {saved saved' : Option ℕ}
  {now : Option Description}

/-- `redirectStd` with a descriptor that has just been opened. -/
theorem replaced_redirectStd (hstd : t.get std ≠ none) (hopened : t.Opened [fd] P t₁)
    (dupOk : Bool) :
    let r := redirectStd std (some fd) dupOk t₁
    Replaced std r.1 (t₁.get fd) t r.2 ∧ (r.1 = none ↔ dupOk = false) := by
  obtain ⟨d, hd⟩ := Option.ne_none_iff_exists'.mp hstd
  obtain ⟨e, he, -⟩ := hopened.refers fd List.mem_cons_self
  have hfree : t.get fd = none := hopened.free fd List.mem_cons_self
  have hne : std ≠ fd := fun h ↦ hstd (h ▸ hfree)
  have hd₁ : t₁.get std = some d := hopened.get_some hd
  have hsame (j : ℕ) (hj : j ≠ fd) : t₁.get j = t.get j := hopened.same j (by simpa using hj)
  cases dupOk with
  | false =>
    have hr : redirectStd std (some fd) false t₁ = (none, (t₁.install std e).close fd) := by
      simp [redirectStd, DescriptorTable.dup2, he]
    rw [hr]
    refine ⟨⟨by simp, fun j ↦ ?_⟩, by simp⟩
    simp only [DescriptorTable.get_close, DescriptorTable.get_install, he]
    grind
  | true =>
    have hlowest := t₁.get_lowestFree
    have hr : redirectStd std (some fd) true t₁ =
        (some t₁.lowestFree, (((t₁.openFirst d).2).install std e).close fd) := by
      have he' := (DescriptorTable.opened_openFirst t₁ d).get_some he
      simp only [redirectStd, DescriptorTable.dup, hd₁, DescriptorTable.dup2, if_true,
        Option.map_some, Option.getD_some, he']
      rfl
    have hlowestFd : t₁.lowestFree ≠ fd := by
      intro h
      rw [h, he] at hlowest
      cases hlowest
    have hget (j : ℕ) : (t₁.openFirst d).2.get j = if j = t₁.lowestFree then some d else t₁.get j :=
      DescriptorTable.get_install ..
    rw [hr]
    refine ⟨⟨?_, fun j ↦ ?_⟩, by simp⟩
    · rintro s hs
      cases hs
      rwa [← hsame _ hlowestFd]
    · simp only [DescriptorTable.get_close, DescriptorTable.get_install, hget, he]
      grind

/-- `redirectStd` behind a set-up, which may have had nothing to open. -/
theorem replaced_of_setup {fd : Option ℕ} (hstd : t.get std ≠ none)
    (hopened : t.Opened fd.toList P t₁) (dupOk : Bool) :
    let r := redirectStd std fd dupOk t₁
    Replaced std r.1 ((fd.bind t₁.get).or (t.get std)) t r.2 ∧
      (r.1 = none ↔ fd = none ∨ dupOk = false) := by
  cases fd with
  | none =>
    have hget : t₁.get = t.get := hopened.get_eq
    refine ⟨⟨by simp [redirectStd], fun j ↦ ?_⟩, by simp [redirectStd]⟩
    rw [Option.bind_none, Option.none_or]
    by_cases hj : j = std
    · rw [if_pos hj, ← hj]
      exact congrFun hget j
    · rw [if_neg hj, if_neg (by simp [redirectStd])]
      exact congrFun hget j
  | some fd =>
    obtain ⟨hreplaced, hsaved⟩ := replaced_redirectStd hstd hopened dupOk
    obtain ⟨e, he, -⟩ := hopened.refers fd List.mem_cons_self
    rw [Option.bind_some, he, Option.some_or, ← he]
    exact ⟨hreplaced, by simpa using hsaved⟩

theorem get_restoreStd_eq (u : Table) (std : ℕ) (saved : Option ℕ)
    (hsaved : ∀ s, saved = some s → s ≠ std ∧ u.get s ≠ none) (j : ℕ) :
    (restoreStd std saved u).get j =
      if saved = some j then none else if j = std then u.get (saved.getD std) else u.get j := by
  cases saved with
  | none =>
    by_cases hj : j = std
    · simp [restoreStd, hj]
    · simp [restoreStd, hj]
  | some s =>
    obtain ⟨hne, hopen⟩ := hsaved s rfl
    obtain ⟨d, hd⟩ := Option.ne_none_iff_exists'.mp hopen
    have heq : restoreStd std (some s) u = (u.install std d).close s := by
      simp [restoreStd, DescriptorTable.dup2, hd]
    simp only [heq, DescriptorTable.get_close, DescriptorTable.get_install, Option.some.injEq,
      Option.getD_some, hd, eq_comm]

/-- A saved descriptor is put back; without a saved one the replacement stays. -/
theorem Replaced.get_restoreStd (h : Replaced std saved now t u) (hstd : t.get std ≠ none) (j : ℕ) :
    (restoreStd std saved u).get j = if j = std ∧ saved = none then now else t.get j := by
  have hfree := h.free
  have hsaved (s : ℕ) (hs : saved = some s) : s ≠ std ∧ u.get s ≠ none := by
    have hne : s ≠ std := fun heq ↦ hstd (heq ▸ hfree s hs)
    rw [h.get, if_neg hne, if_pos hs]
    exact ⟨hne, hstd⟩
  rw [get_restoreStd_eq u std saved hsaved]
  cases saved with
  | none =>
    by_cases hj : j = std
    · simp [h.get, hj]
    · simp [h.get, hj]
  | some s =>
    obtain ⟨hne, -⟩ := hsaved s rfl
    have hs := hfree s rfl
    simp only [h.get, Option.getD_some]
    grind

/-- Putting back one standard descriptor does not disturb the other. -/
theorem Replaced.restore_other (h : Replaced std saved now t u) (hne : std' ≠ std)
    (hstd' : t.get std' ≠ none)
    (hsaved' : ∀ s, saved' = some s → s ≠ std ∧ s ≠ std' ∧ t.get s ≠ none) :
    Replaced std saved now (restoreStd std' saved' t) (restoreStd std' saved' u) := by
  have hfree := h.free
  have ht := get_restoreStd_eq t std' saved' fun s hs ↦ (hsaved' s hs).2
  have hu := get_restoreStd_eq u std' saved' fun s hs ↦ by
    obtain ⟨hs₁, hs₂, hopen⟩ := hsaved' s hs
    refine ⟨hs₂, ?_⟩
    rwa [h.get, if_neg hs₁, if_neg fun heq ↦ hopen (hfree s heq)]
  refine ⟨fun s hs ↦ ?_, fun j ↦ ?_⟩
  · have hs' := hfree s hs
    have hsne : s ≠ std' := fun heq ↦ hstd' (heq ▸ hs')
    rw [ht, if_neg hsne, hs', ite_self]
  · rw [hu, ht, ht]
    cases saved' with
    | none =>
      simp only [h.get, Option.getD_none]
      grind
    | some s' =>
      obtain ⟨hs₁, hs₂, hopen⟩ := hsaved' s' rfl
      simp only [h.get, Option.getD_some]
      grind

end Replaced

theorem Replaced.congr (h : Replaced std saved now t u) (heq : u'.get = u.get) :
    Replaced std saved now t u' :=
  ⟨h.free, fun j ↦ by rw [heq, h.get]⟩

/-- Whether there is a saved descriptor matters only if something was replaced. -/
theorem ite_saved_eq {fd : Option ℕ} (hsaved : saved = none ↔ fd = none ∨ dupOk = false) :
    (if j = std ∧ saved = none then (fd.bind t₁.get).or (t.get std) else t.get j) =
      if j = std ∧ dupOk = false then (fd.bind t₁.get).or (t.get std) else t.get j := by
  cases fd with
  | none =>
    rw [Option.bind_none, Option.none_or]
    split_ifs <;> grind
  | some => simp [hsaved]

/-- The table after a builtin in the shell. A standard descriptor is what it was, unless it was
redirected without a copy. -/
theorem executeBuiltin_table (shellPgid : ℕ+) (cmd : SingleCommand) (o : BuiltinOutcome)
    (printed : List Byte) (ret : ℤ) (stdout : OutStream OutByte) (hzero : t.get 0 ≠ none)
    (hone : t.get 1 ≠ none) (j : ℕ) :
    (executeBuiltin shellPgid cmd o printed ret t stdout).table.get j =
      if j = 0 ∧ SetupOk cmd.numInputs o.input ∧ o.dupStdin = false then
        (redirectedStdin 0 cmd).or (t.get 0)
      else if j = 1 ∧ SetupOk cmd.numInputs o.input ∧ SetupOk cmd.numOutputs o.output ∧
          o.dupStdout = false then
        (redirectedStdout 0 cmd).or (t.get 1)
      else t.get j := by
  have hinput := setupSpec_input 0 cmd shellPgid o.input t
  have hinTarget (hin : SetupOk cmd.numInputs o.input) :=
    bind_redirectSetupInput 0 shellPgid t hin
  unfold executeBuiltin
  generalize redirectSetupInput 0 cmd shellPgid o.input t = input at hinput hinTarget ⊢
  by_cases hin : SetupOk cmd.numInputs o.input
  · obtain ⟨herror, hopened⟩ := hinput.ok hin
    obtain ⟨hstdin, hsaved⟩ := replaced_of_setup hzero hopened o.dupStdin
    simp only [herror]
    generalize redirectStd 0 input.fd o.dupStdin input.table = stdin at hstdin hsaved ⊢
    have hback := hstdin.get_restoreStd hzero
    simp only [ite_saved_eq hsaved] at hback
    have hsavedOpen (s : ℕ) (hs : stdin.1 = some s) : s ≠ 1 ∧ s ≠ 0 ∧ stdin.2.get s ≠ none := by
      have hfree := hstdin.free s hs
      have hs₀ : s ≠ 0 := fun h ↦ hzero (h ▸ hfree)
      refine ⟨fun h ↦ hone (h ▸ hfree), hs₀, ?_⟩
      rwa [hstdin.get, if_neg hs₀, if_pos hs]
    have hone' : stdin.2.get 1 = t.get 1 := by
      rw [hstdin.get, if_neg Nat.one_ne_zero, if_neg fun h ↦ (hsavedOpen 1 h).1 rfl]
    have houtput := setupSpec_output 0 cmd shellPgid o.output stdin.2
    have houtTarget (hout : SetupOk cmd.numOutputs o.output) :=
      bind_redirectSetupOutput 0 shellPgid stdin.2 hout
    generalize redirectSetupOutput 0 cmd shellPgid o.output stdin.2 = output at houtput houtTarget ⊢
    by_cases hout : SetupOk cmd.numOutputs o.output
    · obtain ⟨herror', hopened'⟩ := houtput.ok hout
      have honeOpen : stdin.2.get 1 ≠ none := hone' ▸ hone
      obtain ⟨hstdout, hsaved'⟩ := replaced_of_setup honeOpen hopened' o.dupStdout
      simp only [herror']
      generalize redirectStd 1 output.fd o.dupStdout output.table = out at hstdout hsaved' ⊢
      have hzero' : stdin.2.get 0 ≠ none := by
        rw [hstdin.get, if_pos rfl]
        exact fun h ↦ hzero (Option.or_eq_none_iff.mp h).2
      have hother := hstdout.restore_other Nat.zero_ne_one hzero' hsavedOpen
      have hone'' : (restoreStd 0 stdin.1 stdin.2).get 1 = t.get 1 := by simp [hback]
      have hfinal := hother.get_restoreStd (hone'' ▸ hone) j
      rw [hone', ← hone'', ite_saved_eq hsaved', hone'', hback, houtTarget hout, hinTarget hin]
        at hfinal
      rw [hfinal]
      grind
    · obtain ⟨herror', hget⟩ := houtput.failed hout
      obtain ⟨message, hmessage⟩ := Option.ne_none_iff_exists'.mp herror'
      have hback' := (hstdin.congr hget).get_restoreStd hzero
      simp only [ite_saved_eq hsaved] at hback'
      simp [hmessage, hback', hin, hout, ← hinTarget hin]
  · obtain ⟨herror, hget⟩ := hinput.failed hin
    obtain ⟨message, hmessage⟩ := Option.ne_none_iff_exists'.mp herror
    simp [hmessage, hget, hin]

/-- A redirection never leads to what the shell has open already. -/
theorem redirectTarget_or_shell (io : Redirection) (i : ℕ)
    (hfiles : ∀ file ∈ files, ∀ id, file ≠ .shell id) (id : ℕ) :
    (redirectTarget io i files).or (some (.shell id)) = some (.shell id) ↔ files.length = 0 := by
  rcases files with _ | ⟨file, _ | ⟨file', files⟩⟩
  · simp [redirectTarget]
  · simp [redirectTarget, hfiles file List.mem_cons_self id]
  · simp [redirectTarget]

theorem redirectedStdin_or_shell (i : ℕ) (cmd : SingleCommand) (id : ℕ) :
    (redirectedStdin i cmd).or (some (.shell id)) = some (.shell id) ↔ cmd.numInputs = 0 := by
  rw [redirectedStdin, redirectTarget_or_shell, List.length_mapIdx, SingleCommand.numInputs]
  intro file hfile
  obtain ⟨k, hk, rfl⟩ := List.mem_mapIdx.mp hfile
  simp

theorem redirectedStdout_or_shell (i : ℕ) (cmd : SingleCommand) (id : ℕ) :
    (redirectedStdout i cmd).or (some (.shell id)) = some (.shell id) ↔ cmd.numOutputs = 0 := by
  rw [redirectedStdout, redirectTarget_or_shell, List.length_mapIdx, SingleCommand.numOutputs]
  intro file hfile
  obtain ⟨k, hk, rfl⟩ := List.mem_mapIdx.mp hfile
  simp

/-- A builtin in the shell leaves all descriptors as they were exactly if `dup` succeeds wherever
something is redirected. -/
theorem executeBuiltin_table_iff (shellPgid : ℕ+) (cmd : SingleCommand) (o : BuiltinOutcome)
    (printed : List Byte) (ret : ℤ) {t : Table} (stdout : OutStream OutByte) {stdinId stdoutId : ℕ}
    (hzero : t.get 0 = some (.shell stdinId)) (hone : t.get 1 = some (.shell stdoutId)) :
    (executeBuiltin shellPgid cmd o printed ret t stdout).table.get = t.get ↔
      (SetupOk cmd.numInputs o.input → 0 < cmd.numInputs → o.dupStdin = true) ∧
        (SetupOk cmd.numInputs o.input → SetupOk cmd.numOutputs o.output → 0 < cmd.numOutputs →
          o.dupStdout = true) := by
  have htable := executeBuiltin_table shellPgid cmd o printed ret (t := t) stdout (by simp [hzero])
    (by simp [hone])
  have hstdin := redirectedStdin_or_shell 0 cmd stdinId
  have hstdout := redirectedStdout_or_shell 0 cmd stdoutId
  rw [← hzero] at hstdin
  rw [← hone] at hstdout
  constructor
  · intro heq
    refine ⟨fun hin hpos ↦ ?_, fun hin hout hpos ↦ ?_⟩
    · by_contra hdup
      have h := htable 0
      rw [if_pos ⟨rfl, hin, Bool.eq_false_iff.mpr hdup⟩, heq] at h
      have hnone := hstdin.mp h.symm
      omega
    · by_contra hdup
      have h := htable 1
      rw [if_neg (by simp), if_pos ⟨rfl, hin, hout, Bool.eq_false_iff.mpr hdup⟩, heq] at h
      have hnone := hstdout.mp h.symm
      omega
  · rintro ⟨hin, hout⟩
    funext j
    rw [htable]
    split_ifs with h₀ h₁
    · obtain ⟨rfl, hok, hdup⟩ := h₀
      refine hstdin.mpr (Nat.eq_zero_of_not_pos fun hpos ↦ ?_)
      rw [hin hok hpos] at hdup
      cases hdup
    · obtain ⟨rfl, hok, hok', hdup⟩ := h₁
      refine hstdout.mpr (Nat.eq_zero_of_not_pos fun hpos ↦ ?_)
      rw [hout hok hok' hpos] at hdup
      cases hdup
    · rfl

/-! ### A failed `dup` -/

/-- Every call succeeds but the `dup` of stdin. -/
def stdinNotSaved : BuiltinOutcome where
  input := ⟨fun _ ↦ true, true, some (Nat.succPNat 1)⟩
  output := ⟨fun _ ↦ true, true, some (Nat.succPNat 2)⟩
  dupStdin := false
  dupStdout := true

/-- `reveal < a`. -/
def revealFrom : SingleCommand := ⟨[some [114, 101, 118, 101, 97, 108]], [some [97]], []⟩

/-- An empty `stdout`. -/
def emptyStdout : OutStream OutByte := (emptyBuffer .full (Nat.succPNat 4095)).stream

/-- After `reveal < a` with a failed `dup` the shell reads its commands from `a`. -/
theorem stdin_not_given_back :
    (executeBuiltin 1 revealFrom stdinNotSaved [] 0 standardTable emptyStdout).table.get 0 =
        some (.input 0 0 (some [97])) ∧
      standardTable.get 0 = some (.shell 0) :=
  ⟨rfl, rfl⟩

/-- With the copies made, `reveal < a` leaves the table as it was. -/
theorem given_back_revealFrom :
    (executeBuiltin 1 revealFrom { stdinNotSaved with dupStdin := true } [] 0 standardTable
      emptyStdout).table.get = standardTable.get := by
  have hstdin : standardTable.get 0 = some (.shell 0) := rfl
  have hstdout : standardTable.get 1 = some (.shell 1) := rfl
  exact (executeBuiltin_table_iff 1 revealFrom _ [] 0 emptyStdout hstdin hstdout).mpr
    ⟨fun _ _ ↦ rfl, fun _ _ _ ↦ rfl⟩

end Irish.Shell
