import Irish.Shell.Launches
import Irish.Shell.PipeEnds

/-!
# The names in the entry of a job

`pipes_execute` records the processes of a job in the order in which it has forked them, and takes
their names from the commands by position. A feeder or a distributor takes up a position of its own,
and a command that is not started takes up none. `job_add_proc` also drops a leading `%` once more.
So the names are right if no helper is forked, no command is started behind one that is not, and no
started command has a `%` left in front of its name; as long as the names can be told apart this is
the only way (`jobNames_right`).
-/

set_option autoImplicit false

namespace Irish.Shell

open Library

/-! ### The processes in their order -/

/-- What a turn forks, in order. -/
def forkedRoles (i : ℕ) (cmd : SingleCommand) (o : CommandOutcome) : List Role :=
  if cmd.argc ≠ 0 ∧ SetupOk cmd.numInputs o.input then
    (if 2 ≤ cmd.numInputs then [.helper .input i] else []) ++
      if SetupOk cmd.numOutputs o.output then
        (if 2 ≤ cmd.numOutputs then [.helper .output i] else []) ++
          if (isBuiltin cmd.cmdName = true ∨ o.resolves = true) ∧ o.fork ≠ none then [.command i]
          else []
      else []
  else []

/-- The same for the command at a position. -/
def rolesAt (cmds : List SingleCommand) (o : ℕ → CommandOutcome) (i : ℕ) : List Role :=
  (cmds[i]?.map fun cmd ↦ forkedRoles i cmd (o i)).getD []

theorem map_role_redirectSetup (io : Redirection) (message : Message) (i : ℕ)
    (files : List Description) (shellPgid : ℕ+) {o : SetupOutcome} (t : Table)
    (h : SetupOk files.length o) :
    (redirectSetup io message i files shellPgid o t).child.toList.map Child.role =
      if 2 ≤ files.length then [.helper io i] else [] := by
  obtain ⟨hnone, hsome⟩ := child_redirectSetup io message i shellPgid t h
  by_cases hcount : 2 ≤ files.length
  · obtain ⟨pid, u, -, hchild, -⟩ := hsome hcount
    rw [hchild, if_pos hcount]
    rfl
  · rw [hnone (Nat.lt_of_not_le hcount), if_neg hcount]
    rfl

theorem map_role_forkedBy (p : Pipeline) (o : CommandOutcome) (i : ℕ) (cmd : SingleCommand)
    (pgid : ℕ) (t : Table) : (forkedBy p o i cmd pgid t).map Child.role = forkedRoles i cmd o := by
  simp only [forkedBy, forkedRoles]
  by_cases hin : cmd.argc ≠ 0 ∧ SetupOk cmd.numInputs o.input
  · have hinput := map_role_redirectSetup .input .noSuchFile i
      (cmd.inputFiles.mapIdx fun j name ↦ .input i j name) p.shellPgid t (o := o.input)
      (by simpa [SingleCommand.numInputs] using hin.2)
    rw [if_pos hin, if_pos hin, List.map_append, redirectSetupInput, hinput, List.length_mapIdx]
    congr 1
    by_cases hout : SetupOk cmd.numOutputs o.output
    · have houtput := map_role_redirectSetup .output .unableToCreate i
        (cmd.outputFiles.mapIdx fun j file ↦ .output i j file) p.shellPgid
        (redirectSetup .input .noSuchFile i (cmd.inputFiles.mapIdx fun j name ↦ .input i j name)
          p.shellPgid o.input t).table (o := o.output)
        (by simpa [SingleCommand.numOutputs] using hout)
      rw [if_pos hout, if_pos hout, List.map_append, redirectSetupOutput, houtput,
        List.length_mapIdx]
      congr 1
      by_cases hfound : isBuiltin cmd.cmdName = true ∨ o.resolves = true
      · cases hfork : o.fork with
        | none | some => simp [hfound]
      · simp [hfound]
    · rw [if_neg hout, if_neg hout, List.map_nil]
  · rw [if_neg hin, if_neg hin, List.map_nil]

variable {k j : ℕ} {cmd : SingleCommand} {pid : ℕ+}

/-- The loop forks the processes of the commands one command after the other. -/
theorem map_role_spawnLoop (p : Pipeline) (o : ℕ → CommandOutcome) (cmds : List SingleCommand)
    (t : Table) (hk : k ≤ cmds.length) :
    (spawnLoop p o ⟨t, cmds, [], [], false, 0, []⟩ k).children.map Child.role =
      (List.range k).flatMap (rolesAt cmds o) := by
  induction k with
  | zero => rfl
  | succ k ih =>
    have hcmd : cmds[k]? = some cmds[k] := List.getElem?_eq_getElem hk
    have hturn := spawnCommand_forked (p := p) (o := o k) (pending_spawnLoop p o cmds t hk)
    rw [spawnLoop, hturn.1, List.map_append, ih (Nat.le_of_succ_le hk), map_role_forkedBy,
      List.range_succ, List.flatMap_append, List.flatMap_singleton, rolesAt, hcmd]
    rfl

/-- The commands whose names have been replaced by `cmd_name`. -/
theorem cmds_spawnLoop (p : Pipeline) (o : ℕ → CommandOutcome) (cmds : List SingleCommand)
    (t : Table) (hk : k ≤ cmds.length) (j : ℕ) :
    (spawnLoop p o ⟨t, cmds, [], [], false, 0, []⟩ k).cmds[j]? =
      cmds[j]?.map fun cmd ↦ if j < k ∧ Found cmd (o j) then cmd.rename else cmd := by
  induction k with
  | zero => simp [spawnLoop]
  | succ k ih =>
    have hpending := pending_spawnLoop p o cmds t hk
    rw [spawnLoop, (spawnCommand_forked hpending).2]
    rcases eq_or_ne j k with rfl | hj
    · rw [List.getElem?_eq_getElem hk]
      by_cases hfound : Found cmds[j] (o j)
      · rw [if_pos hfound, List.getElem?_modify_eq, hpending]
        simp [hfound]
      · rw [if_neg hfound, hpending]
        simp [hfound]
    · have hlt : j < k + 1 ↔ j < k := by omega
      simp only [hlt]
      rw [← ih (Nat.le_of_succ_le hk)]
      split_ifs
      · simp [Ne.symm hj]
      · rfl

/-! ### The names -/

/-- The name under which `job_add_proc` records a process that is given the name of a command. -/
def recordedName (cmd : SingleCommand) : List Byte :=
  ((cmd.argv.head?.join.map stripPercent).getD [Byte.questionMark]).take 127

/-- The name of a command, as far as it fits the field of an entry. -/
def entryName (cmd : SingleCommand) : List Byte := cmd.cmdName.take 127

/-- `argv[0]` is a string. -/
def HasName (cmd : SingleCommand) : Prop := ∃ name, cmd.argv.head? = some (some name)

/-- The name of a command with a `%` in front dropped once more. -/
def strippedName (cmd : SingleCommand) : List Byte := (stripPercent cmd.cmdName).take 127

/-- The name has no `%` left behind the one that `pipes_execute` drops, as far as the field of an
entry shows. -/
def PlainName (cmd : SingleCommand) : Prop := strippedName cmd = entryName cmd

instance (cmd : SingleCommand) : Decidable (PlainName cmd) :=
  inferInstanceAs (Decidable (_ = _))

theorem recordedName_of_hasName (h : HasName cmd) : recordedName cmd = entryName cmd := by
  obtain ⟨name, hname⟩ := h
  simp [recordedName, entryName, SingleCommand.cmdName, SingleCommand.rawName, hname]

theorem recordedName_rename (hargc : cmd.argc ≠ 0) :
    recordedName cmd.rename = strippedName cmd := by
  obtain ⟨argv, inputs, outputs⟩ := cmd
  rcases argv with _ | ⟨arg, argv⟩
  · exact absurd rfl hargc
  · rfl

/-- A name that is not plain begins with a `%`. -/
theorem head_of_not_plainName (h : ¬ PlainName cmd) :
    (entryName cmd).head? = some Byte.percent := by
  unfold PlainName strippedName entryName at h
  rcases hname : cmd.cmdName with _ | ⟨c, name⟩
  · simp [hname, stripPercent] at h
  · by_cases hc : c = Byte.percent
    · simp [entryName, hname, hc]
    · simp [hname, stripPercent, hc] at h

/-! ### Positions -/

section Positions

variable {β : Type*} {f : ℕ → List β} {n : ℕ} {b : β} {rest : List β} {g : ℕ → β}

/-- Where the elements of one position start. -/
theorem getElem?_flatMap_range (hj : j < n) (hf : f j = b :: rest) :
    ((List.range n).flatMap f)[((List.range j).flatMap f).length]? = some b := by
  induction n with
  | zero => exact absurd hj (Nat.not_lt_zero j)
  | succ _ ih =>
    rw [List.range_succ, List.flatMap_append, List.flatMap_singleton]
    rcases Nat.lt_succ_iff_lt_or_eq.mp hj with hlt | rfl
    · have hat := ih hlt
      rw [List.getElem?_append_left (lt_of_getElem? hat), hat]
    · rw [List.getElem?_append_right le_rfl, Nat.sub_self, hf]
      rfl

theorem length_flatMap_range_le (hf : ∀ i < n, (f i).length ≤ 1) :
    ((List.range n).flatMap f).length ≤ n ∧
      (((List.range n).flatMap f).length = n ↔ ∀ i < n, f i ≠ []) := by
  induction n with
  | zero => simp
  | succ n ih =>
    obtain ⟨hle, hiff⟩ := ih fun i hi ↦ hf i (Nat.lt_succ_of_lt hi)
    have hn := hf n (Nat.lt_succ_self n)
    rw [List.range_succ, List.flatMap_append, List.flatMap_singleton, List.length_append]
    refine ⟨by omega, fun h i hi ↦ ?_, fun h ↦ ?_⟩
    · have hne : (f n).length = 1 ∧ ((List.range n).flatMap f).length = n := by omega
      rcases Nat.lt_succ_iff_lt_or_eq.mp hi with hlt | rfl
      · exact hiff.mp hne.2 i hlt
      · exact List.ne_nil_of_length_pos (by omega)
    · have hpos := List.length_pos_of_ne_nil (h n (Nat.lt_succ_self n))
      rw [hiff.mpr fun i hi ↦ h i (Nat.lt_succ_of_lt hi)]
      omega

/-- If only an initial segment of the positions has an element, each is at its own position. -/
theorem eq_of_getElem?_flatMap_range (hf : ∀ i < n, f i = [] ∨ f i = [g i])
    (hinit : ∀ i j, i < j → j < n → f j ≠ [] → f i ≠ [])
    (hb : ((List.range n).flatMap f)[k]? = some b) : b = g k := by
  induction n with
  | zero => cases hb
  | succ n ih =>
    rw [List.range_succ, List.flatMap_append, List.flatMap_singleton] at hb
    by_cases hk : k < ((List.range n).flatMap f).length
    · rw [List.getElem?_append_left hk] at hb
      exact ih (fun i hi ↦ hf i (Nat.lt_succ_of_lt hi))
        (fun i j hij hj ↦ hinit i j hij (Nat.lt_succ_of_lt hj)) hb
    · rw [List.getElem?_append_right (Nat.le_of_not_lt hk)] at hb
      rcases hf n (Nat.lt_succ_self n) with hnil | hone
      · rw [hnil] at hb
        cases hb
      · have hlength := (length_flatMap_range_le (f := f) (n := n) fun i hi ↦ by
          rcases hf i (Nat.lt_succ_of_lt hi) with h | h <;> simp [h]).2.mpr fun i hi ↦
            hinit i n hi (Nat.lt_succ_self n) (by simp [hone])
        rw [hone, List.getElem?_singleton] at hb
        split_ifs at hb with hzero
        have hkn : k = n := by omega
        rw [hkn]
        exact (Option.some.inj hb).symm

end Positions

/-! ### The entry -/

/-- A name is right for a process: for a command its own, for a helper none of the names of the
commands. -/
def NameFor (cmds : List SingleCommand) (name : List Byte) : Role → Prop
  | .command i => ∃ cmd, cmds[i]? = some cmd ∧ name = entryName cmd
  | .helper _ _ => ∀ cmd ∈ cmds, name ≠ entryName cmd

/-- The entry has the processes that were forked, and under the right names. -/
def NamesRight (cmds : List SingleCommand) (children : List Child) (job : Job) : Prop :=
  job.procs.map JobProc.pid = children.map Child.pid ∧
    ∀ (k : ℕ) (c : Child) (e : JobProc), children[k]? = some c → job.procs[k]? = some e →
      NameFor cmds e.cmdName c.role

/-- The command at a position is forked. -/
def Started (cmds : List SingleCommand) (o : PipelineOutcome) (i : ℕ) : Prop :=
  ∃ cmd pid, cmds[i]? = some cmd ∧ Forks i cmd (o.command i) (.command i) pid

section Roles

variable {i : ℕ} {o : CommandOutcome} {role : Role} {io : Redirection}

theorem mem_forkedRoles : role ∈ forkedRoles i cmd o ↔ ∃ pid, Forks i cmd o role pid := by
  have hhelper {count : ℕ} {o : SetupOutcome} (hok : SetupOk count o) (htwo : 2 ≤ count) :
      ∃ pid, o.fork = some pid := Option.isSome_iff_exists.mp (hok.2 htwo).2
  constructor
  · intro hmem
    simp only [forkedRoles, List.mem_append, List.mem_ite_nil_right, List.mem_singleton] at hmem
    obtain ⟨⟨hargc, hin⟩, ⟨htwo, rfl⟩ | ⟨hout, ⟨htwo, rfl⟩ | ⟨⟨hfound, hfork⟩, rfl⟩⟩⟩ := hmem
    · obtain ⟨pid, hpid⟩ := hhelper hin htwo
      exact ⟨pid, rfl, hargc, htwo, hin, hpid⟩
    · obtain ⟨pid, hpid⟩ := hhelper hout htwo
      exact ⟨pid, rfl, hargc, hin, htwo, hout, hpid⟩
    · obtain ⟨pid, hpid⟩ := Option.ne_none_iff_exists'.mp hfork
      exact ⟨pid, rfl, hargc, hin, hout, hfound, hpid⟩
  · rintro ⟨pid, hforks⟩
    rcases role with j | ⟨_ | _, j⟩
    · obtain ⟨rfl, hargc, hin, hout, hfound, hpid⟩ := hforks
      simp [forkedRoles, hargc, hin, hout, hfound, hpid]
    · obtain ⟨rfl, hargc, htwo, hin, hpid⟩ := hforks
      simp [forkedRoles, hargc, hin, htwo]
    · obtain ⟨rfl, hargc, hin, htwo, hout, hpid⟩ := hforks
      simp [forkedRoles, hargc, hin, hout, htwo]

/-- Without helpers a turn forks the command or nothing. -/
theorem forkedRoles_of_no_helper (h : ∀ io pid, ¬ Forks i cmd o (.helper io i) pid) :
    forkedRoles i cmd o = [] ∨ forkedRoles i cmd o = [.command i] := by
  have hin : Role.helper .input i ∉ forkedRoles i cmd o := fun hmem ↦ by
    obtain ⟨pid, hforks⟩ := mem_forkedRoles.mp hmem
    exact h _ pid hforks
  have hout : Role.helper .output i ∉ forkedRoles i cmd o := fun hmem ↦ by
    obtain ⟨pid, hforks⟩ := mem_forkedRoles.mp hmem
    exact h _ pid hforks
  revert hin hout
  unfold forkedRoles
  split_ifs <;> simp

/-- A helper is forked before the command. -/
theorem exists_forkedRoles_cons (h : Forks i cmd o (.helper io i) pid) :
    ∃ io' rest, forkedRoles i cmd o = .helper io' i :: rest := by
  have hmem := mem_forkedRoles.mpr ⟨pid, h⟩
  revert hmem
  unfold forkedRoles
  split_ifs <;> simp

end Roles

/-- What an entry says about the processes, in terms of the commands. -/
structure EntryOf (cmds : List SingleCommand) (o : PipelineOutcome) (children : List Child)
    (job : Job) : Prop where
  roles : children.map Child.role = (List.range cmds.length).flatMap (rolesAt cmds o.command)
  pids : job.procs.map JobProc.pid = children.map Child.pid
  names : ∀ k e cmd, job.procs[k]? = some e → cmds[k]? = some cmd →
    e.cmdName = recordedName (if Found cmd (o.command k) then cmd.rename else cmd)
  rest : ∀ k e, job.procs[k]? = some e → cmds.length ≤ k → e.cmdName.head? ≠ some Byte.percent

section Entry

variable {shellPgid : ℕ+} {cmds : List SingleCommand} {isBg : Bool} {cmdLine : Option (List Byte)}
  {o : PipelineOutcome} {t : Table} {jobs jobs' : JobTable} {s : Spawn} {state : JobState}
  {fallback : List Byte} {slot : ℕ} {job : Job} {e : JobProc}

/-- The processes in the entry that `addJob` takes. -/
theorem procs_addJob (h : addJob s cmdLine state fallback jobs = (some slot, jobs'))
    (hjob : jobs'.slots[slot]? = some job) :
    job.procs = ((procNames fallback s).map newProc).take maxProcsPerJob := by
  unfold addJob at h
  rcases jobAdd_cases jobs s.pgid cmdLine state with
    ⟨heq, -⟩ | ⟨slot', old, jobs₁, hold, -, heq, hslots, -⟩
  · rw [heq] at h
    cases h
  · rw [heq] at h
    obtain ⟨hslot, rfl⟩ := Prod.ext_iff.mp h
    obtain rfl : slot' = slot := Option.some.inj hslot
    simp only [JobTable.addProcs, hslots, List.getElem?_modify, getElem?_set_eq hold] at hjob
    simp only [if_true, Option.map_eq_map, Option.map_some, Option.some.injEq] at hjob
    rw [← hjob, foldl_jobAddProc _ (Nat.zero_le _), List.nil_append]

/-- The name that an entry has at a position. -/
theorem cmdName_procNames (he : ((procNames fallback s).map newProc)[k]? = some e)
    (hcmd : s.cmds[k]? = some cmd) : e.cmdName = recordedName cmd := by
  simp only [procNames, List.getElem?_map, List.getElem?_mapIdx, hcmd] at he
  obtain ⟨pid, -, rfl⟩ := Option.map_eq_some_iff.mp ((Option.map_map ..).symm.trans he)
  rfl

/-- Behind the commands an entry has the name `feeder` or `proc`. -/
theorem head_procNames (he : ((procNames (fallbackName isBg) s).map newProc)[k]? = some e)
    (hk : s.cmds[k]? = none) : e.cmdName.head? ≠ some Byte.percent := by
  simp only [procNames, List.getElem?_map, List.getElem?_mapIdx, hk] at he
  obtain ⟨pid, -, rfl⟩ := Option.map_eq_some_iff.mp ((Option.map_map ..).symm.trans he)
  have hfallback : ∀ isBg, ((stripPercent (fallbackName isBg)).take 127).head? ≠
      some Byte.percent := by decide
  exact hfallback isBg

/-- The entry of a job with room for all its processes. -/
theorem entry_of_added :
    let run := pipesExecute shellPgid cmds isBg cmdLine o t jobs
    run.added = some slot → run.jobs.slots[slot]? = some job →
    run.children.length ≤ maxProcsPerJob → EntryOf cmds o run.children job := by
  intro run hadded hjob hroom
  rcases pipesExecute_spawn shellPgid cmds isBg cmdLine o t jobs with
    ⟨-, hnone, -⟩ | ⟨pipeFds, t', s, -, hs, hchildren, -, hadd⟩
  · cases hnone.symm.trans hadded
  obtain ⟨state, hadd⟩ := hadd slot hadded
  have hloop := spawnLoop_spec ⟨shellPgid, isBg, cmds.length, pipeFds⟩ o.command cmds t'
    le_rfl
  have hroles := map_role_spawnLoop ⟨shellPgid, isBg, cmds.length, pipeFds⟩ o.command cmds t'
    le_rfl
  have hcmds := cmds_spawnLoop ⟨shellPgid, isBg, cmds.length, pipeFds⟩ o.command cmds t'
    le_rfl
  rw [← hs] at hloop hroles hcmds
  have hprocs := procs_addJob hadd hjob
  have hlength : ((procNames (fallbackName isBg) s).map newProc).length = run.children.length := by
    rw [List.length_map, ← List.length_map Prod.fst, map_fst_procNames, hloop.pids,
      List.length_map, ← hchildren]
  rw [List.take_of_length_le (hlength.symm ▸ hroom)] at hprocs
  refine ⟨by rw [show run.children = _ from hchildren, hroles], ?_, fun k e cmd he hcmd ↦ ?_,
    fun k e he hk ↦ ?_⟩
  · rw [hprocs, show run.children = _ from hchildren, ← hloop.pids,
      ← map_fst_procNames (fallbackName isBg), List.map_map]
    rfl
  · rw [hprocs] at he
    have hlt : k < cmds.length := lt_of_getElem? hcmd
    have hat := hcmds k
    rw [hcmd, Option.map_some] at hat
    simp only [hlt, true_and] at hat
    exact cmdName_procNames he hat
  · rw [hprocs] at he
    have hat := hcmds k
    rw [List.getElem?_eq_none hk] at hat
    exact head_procNames he hat

end Entry

/-! ### When the names are right -/

/-- No feeder and no distributor is forked. -/
def NoHelperForked (cmds : List SingleCommand) (o : PipelineOutcome) : Prop :=
  ∀ i cmd, cmds[i]? = some cmd → ∀ io pid, ¬ Forks i cmd (o.command i) (.helper io i) pid

/-- No command is started behind one that is not. -/
def InitialStart (cmds : List SingleCommand) (o : PipelineOutcome) : Prop :=
  ∀ i j, i < j → Started cmds o j → Started cmds o i

/-- The names of the started commands are recorded as they are. -/
def StartedPlain (cmds : List SingleCommand) (o : PipelineOutcome) : Prop :=
  ∀ i cmd, cmds[i]? = some cmd → Started cmds o i → PlainName cmd

/-- The commands have names, and no two of them could be taken for each other, also if a `%` in
front of one of the names is dropped. -/
structure ToldApart (cmds : List SingleCommand) : Prop where
  named : ∀ cmd ∈ cmds, HasName cmd
  nodup : (cmds.map entryName).Nodup
  stripped : ∀ (i j : ℕ) (cmd cmd' : SingleCommand), cmds[i]? = some cmd → cmds[j]? = some cmd' →
    strippedName cmd = entryName cmd' → i = j

section Right

variable {cmds : List SingleCommand} {o : PipelineOutcome} {children : List Child} {job : Job}
  {i : ℕ}

theorem rolesAt_of_no_helper
    (h : ∀ cmd, cmds[i]? = some cmd → ∀ io pid, ¬ Forks i cmd (o.command i) (.helper io i) pid) :
    rolesAt cmds o.command i = [] ∨ rolesAt cmds o.command i = [.command i] := by
  unfold rolesAt
  cases hcmd : cmds[i]? with
  | none => exact .inl rfl
  | some cmd => exact forkedRoles_of_no_helper (h cmd hcmd)

theorem command_mem_rolesAt : Role.command j ∈ rolesAt cmds o.command i ↔
    j = i ∧ Started cmds o i := by
  unfold rolesAt Started
  cases hcmd : cmds[i]? with
  | none => simp
  | some =>
    simp only [Option.map_some, Option.getD_some, mem_forkedRoles, Option.some.injEq,
      exists_eq_left', exists_and_left]
    constructor
    · rintro ⟨pid, hforks⟩
      obtain rfl : j = i := hforks.1
      exact ⟨rfl, pid, hforks⟩
    · rintro ⟨rfl, hpid⟩
      exact hpid

/-- The first process of a command stands behind those of the commands before it. -/
theorem EntryOf.first (h : EntryOf cmds o children job) {j : ℕ} (hj : j < cmds.length) {role : Role}
    {rest : List Role} (hroles : rolesAt cmds o.command j = role :: rest) :
    ∃ c e, children[((List.range j).flatMap (rolesAt cmds o.command)).length]? = some c ∧
      c.role = role ∧
      job.procs[((List.range j).flatMap (rolesAt cmds o.command)).length]? = some e := by
  have hat := getElem?_flatMap_range hj hroles
  rw [← h.roles, List.getElem?_map] at hat
  obtain ⟨c, hc, hrole⟩ := Option.map_eq_some_iff.mp hat
  have hlength : job.procs.length = children.length := by
    simpa using congrArg List.length h.pids
  have hlt := lt_of_getElem? hc
  exact ⟨c, _, hc, hrole, List.getElem?_eq_getElem (hlength ▸ hlt)⟩

/-- The name at the position of a command that is given a plain name, or keeps its own. -/
theorem EntryOf.name (h : EntryOf cmds o children job) {k : ℕ} {e : JobProc} {cmd : SingleCommand}
    (hplain : Found cmd (o.command k) → PlainName cmd) (he : job.procs[k]? = some e)
    (hcmd : cmds[k]? = some cmd) (hname : HasName cmd ∨ Found cmd (o.command k)) :
    e.cmdName = entryName cmd := by
  rw [h.names k e cmd he hcmd]
  split_ifs with hfound
  · rw [recordedName_rename hfound.1]
    exact hplain hfound
  · exact recordedName_of_hasName (hname.resolve_right hfound)

theorem found_of_forks {o : CommandOutcome} (h : Forks i cmd o (.command j) pid) : Found cmd o :=
  ⟨h.2.1, h.2.2.1, h.2.2.2.1, h.2.2.2.2.1⟩

theorem EntryOf.namesRight (h : EntryOf cmds o children job) (hnone : NoHelperForked cmds o)
    (hinit : InitialStart cmds o) (hplain : StartedPlain cmds o) :
    NamesRight cmds children job := by
  have hshape (i : ℕ) := rolesAt_of_no_helper (hnone i)
  have hstarted (i : ℕ) : rolesAt cmds o.command i ≠ [] ↔ Started cmds o i := by
    have hmem : Role.command i ∈ rolesAt cmds o.command i ↔ i = i ∧ Started cmds o i :=
      command_mem_rolesAt
    rcases hshape i with hnil | hone
    · rw [hnil] at hmem ⊢
      simpa using hmem
    · rw [hone] at hmem ⊢
      simpa using hmem
  refine ⟨h.pids, fun k c e hc he ↦ ?_⟩
  have hat : ((List.range cmds.length).flatMap (rolesAt cmds o.command))[k]? = some c.role := by
    rw [← h.roles, List.getElem?_map, hc, Option.map_some]
  have hrole : c.role = .command k := eq_of_getElem?_flatMap_range (fun i _ ↦ hshape i)
    (fun i j hij _ hj ↦ (hstarted i).mpr (hinit i j hij ((hstarted j).mp hj))) hat
  obtain ⟨i, -, hmem⟩ := List.mem_flatMap.mp (List.mem_of_getElem? hat)
  rw [hrole] at hmem ⊢
  obtain ⟨rfl, cmd, pid, hcmd, hforks⟩ := command_mem_rolesAt.mp hmem
  exact ⟨cmd, hcmd, h.name (fun _ ↦ hplain _ cmd hcmd ⟨cmd, pid, hcmd, hforks⟩) he hcmd
    (.inr (found_of_forks hforks))⟩

/-- The process of a started command is in the entry. -/
theorem EntryOf.of_started (h : EntryOf cmds o children job) (hstarted : Started cmds o i) :
    ∃ (k : ℕ) (c : Child) (e : JobProc), children[k]? = some c ∧ job.procs[k]? = some e ∧
      c.role = .command i := by
  obtain ⟨cmd, pid, hcmd, hforks⟩ := hstarted
  have hmem : Role.command i ∈ children.map Child.role := by
    rw [h.roles]
    refine List.mem_flatMap.mpr ⟨i, List.mem_range.mpr (lt_of_getElem? hcmd), ?_⟩
    exact command_mem_rolesAt.mpr ⟨rfl, cmd, pid, hcmd, hforks⟩
  obtain ⟨c, hc, hrole⟩ := List.mem_map.mp hmem
  obtain ⟨k, hk⟩ := List.mem_iff_getElem?.mp hc
  have hlength : job.procs.length = children.length := by
    simpa using congrArg List.length h.pids
  have hlt := lt_of_getElem? hk
  exact ⟨k, c, _, hk, List.getElem?_eq_getElem (hlength ▸ hlt), hrole⟩

/-- A started command whose name is not plain is not recorded under its name: not at its own
position, and at no other one. -/
theorem EntryOf.startedPlain (h : EntryOf cmds o children job) (happart : ToldApart cmds)
    (hright : NamesRight cmds children job) : StartedPlain cmds o := by
  intro i cmd hcmd hstarted
  by_contra hplain
  obtain ⟨k, c, e, hc, he, hrole⟩ := h.of_started hstarted
  have hname := hright.2 k c e hc he
  rw [hrole] at hname
  obtain ⟨cmd', hcmd', hname⟩ := hname
  cases hcmd.symm.trans hcmd'
  cases hk : cmds[k]? with
  | none =>
    refine h.rest k e he (List.getElem?_eq_none_iff.mp hk) ?_
    rw [hname]
    exact head_of_not_plainName hplain
  | some other =>
    have hrecorded := h.names k e other he hk
    rw [hname] at hrecorded
    split_ifs at hrecorded with hfound
    · rw [recordedName_rename hfound.1] at hrecorded
      obtain rfl := happart.stripped k i other cmd hk hcmd hrecorded.symm
      cases hcmd.symm.trans hk
      exact hplain hrecorded.symm
    · rw [recordedName_of_hasName (happart.named other (List.mem_of_getElem? hk))] at hrecorded
      have hik : i = k := by
        refine (List.getElem?_inj ?_ happart.nodup).mp ?_
        · simpa using (lt_of_getElem? hcmd)
        · rw [List.getElem?_map, List.getElem?_map, hcmd, hk, Option.map_some, Option.map_some,
            hrecorded]
      subst hik
      cases hcmd.symm.trans hk
      obtain ⟨cmd', pid, hcmd', hforks⟩ := hstarted
      cases hcmd.symm.trans hcmd'
      exact hfound (found_of_forks hforks)

/-- With names that can be told apart, any helper and any gap in the started commands shows. -/
theorem EntryOf.of_namesRight (h : EntryOf cmds o children job) (happart : ToldApart cmds)
    (hplain : ∀ i cmd, cmds[i]? = some cmd → Found cmd (o.command i) → PlainName cmd)
    (hright : NamesRight cmds children job) : NoHelperForked cmds o ∧ InitialStart cmds o := by
  have hentry {k : ℕ} {e : JobProc} {cmd : SingleCommand} (he : job.procs[k]? = some e)
      (hcmd : cmds[k]? = some cmd) : e.cmdName = entryName cmd :=
    h.name (hplain k cmd hcmd) he hcmd (.inl (happart.named cmd (List.mem_of_getElem? hcmd)))
  have hbefore {j : ℕ} (hj : ∀ i < j, ∀ cmd, cmds[i]? = some cmd → ∀ io pid,
      ¬ Forks i cmd (o.command i) (.helper io i) pid) :=
    length_flatMap_range_le (f := rolesAt cmds o.command) (n := j) fun i hi ↦ by
      rcases rolesAt_of_no_helper (hj i hi) with hnil | hone
      · simp [hnil]
      · simp [hone]
  have hnone : NoHelperForked cmds o := by
    intro j
    induction j using Nat.strongRecOn with
    | ind j ih =>
      intro cmd hcmd io pid hforks
      -- The first helper is recorded under the name of the command at its position.
      have hj : j < cmds.length := lt_of_getElem? hcmd
      obtain ⟨io', rest, hcons⟩ := exists_forkedRoles_cons hforks
      obtain ⟨c, e, hc, hrole, he⟩ := h.first hj (by simpa [rolesAt, hcmd] using hcons)
      have hlt := (hbefore ih).1.trans_lt hj
      have hname := hright.2 _ c e hc he
      rw [hrole] at hname
      exact hname _ (List.getElem_mem hlt) (hentry he (List.getElem?_eq_getElem hlt))
  refine ⟨hnone, fun i j hij hstarted ↦ ?_⟩
  by_contra hnot
  -- The command is recorded under the name of an earlier one.
  obtain ⟨cmd, pid, hcmd, hforks⟩ := hstarted
  have hj : j < cmds.length := lt_of_getElem? hcmd
  have hmem : Role.command j ∈ rolesAt cmds o.command j :=
    command_mem_rolesAt.mpr ⟨rfl, cmd, pid, hcmd, hforks⟩
  have hone : rolesAt cmds o.command j = [.command j] :=
    (rolesAt_of_no_helper (hnone j)).resolve_left (List.ne_nil_of_mem hmem)
  have hnil : rolesAt cmds o.command i = [] :=
    (rolesAt_of_no_helper (hnone i)).resolve_right fun hone ↦
      hnot (command_mem_rolesAt.mp (hone ▸ List.mem_cons_self)).2
  obtain ⟨hle, hiff⟩ := hbefore fun i _ ↦ hnone i
  have hlt : ((List.range j).flatMap (rolesAt cmds o.command)).length < j :=
    Nat.lt_of_le_of_ne hle fun heq ↦ hiff.mp heq i hij hnil
  obtain ⟨c, e, hc, hrole, he⟩ := h.first hj hone
  have hname := hright.2 _ c e hc he
  rw [hrole] at hname
  obtain ⟨cmd', hcmd', hname⟩ := hname
  have hother := hentry he (List.getElem?_eq_getElem (hlt.trans hj))
  refine Nat.ne_of_lt hlt ((List.getElem?_inj ?_ happart.nodup).mp ?_)
  · simpa using hlt.trans hj
  · rw [List.getElem?_map, List.getElem?_map, hcmd', List.getElem?_eq_getElem (hlt.trans hj),
      Option.map_some, Option.map_some, ← hname, ← hother]

end Right

/-- The processes of a job are recorded under the right names if no helper is forked, no command is
started behind one that is not, and the started commands have plain names. If the names of the
commands can be told apart and are plain where only `fork` fails, only then. -/
theorem jobNames_right (shellPgid : ℕ+) {cmds : List SingleCommand} (isBg : Bool)
    (cmdLine : Option (List Byte)) (o : PipelineOutcome) (t : Table) (jobs : JobTable) {slot : ℕ}
    {job : Job} (hadded : (pipesExecute shellPgid cmds isBg cmdLine o t jobs).added = some slot)
    (hjob : (pipesExecute shellPgid cmds isBg cmdLine o t jobs).jobs.slots[slot]? = some job)
    (hroom : (pipesExecute shellPgid cmds isBg cmdLine o t jobs).children.length ≤
      maxProcsPerJob) :
    (NoHelperForked cmds o ∧ InitialStart cmds o ∧ StartedPlain cmds o →
        NamesRight cmds (pipesExecute shellPgid cmds isBg cmdLine o t jobs).children job) ∧
      (ToldApart cmds → (∀ i cmd, cmds[i]? = some cmd → Found cmd (o.command i) →
          (o.command i).fork = none → PlainName cmd) →
        NamesRight cmds (pipesExecute shellPgid cmds isBg cmdLine o t jobs).children job →
          NoHelperForked cmds o ∧ InitialStart cmds o ∧ StartedPlain cmds o) := by
  have hentry := entry_of_added hadded hjob hroom
  refine ⟨fun ⟨hnone, hinit, hplain⟩ ↦ hentry.namesRight hnone hinit hplain,
    fun happart hunforked hright ↦ ?_⟩
  have hplain := hentry.startedPlain happart hright
  have hfound (i : ℕ) (cmd : SingleCommand) (hcmd : cmds[i]? = some cmd)
      (hfound : Found cmd (o.command i)) : PlainName cmd := by
    cases hfork : (o.command i).fork with
    | none => exact hunforked i cmd hcmd hfound hfork
    | some pid =>
      obtain ⟨hargc, hin, hout, hname⟩ := hfound
      exact hplain i cmd hcmd ⟨cmd, pid, hcmd, rfl, hargc, hin, hout, hname, hfork⟩
  obtain ⟨hnone, hinit⟩ := hentry.of_namesRight happart hfound hright
  exact ⟨hnone, hinit, hplain⟩

/-! ### Two jobs -/

/-- `cat < a < b | wc &`: the feeder is recorded as `cat`, `cat` as `wc`, and `wc` as `feeder`. -/
theorem feeder_named_cat : ∃ slot job,
    let run := pipesExecute 1 twoInputs true none allSucceed standardTable .empty
    run.added = some slot ∧ run.jobs.slots[slot]? = some job ∧
    run.children.map Child.role = [.helper .input 0, .command 0, .command 1] ∧
    job.procs.map JobProc.cmdName = [[99, 97, 116], [119, 99], feederName] ∧
    ¬ NamesRight twoInputs run.children job := by
  refine ⟨0, _, rfl, rfl, rfl, rfl, fun h ↦ ?_⟩
  exact h.2 0 _ _ rfl rfl _ List.mem_cons_self rfl

/-- `cat < a | wc > c &` is recorded under the right names. -/
theorem namesRight_oneInput : ∃ slot job,
    let run := pipesExecute 1 oneInput true none allSucceed standardTable .empty
    run.added = some slot ∧ run.jobs.slots[slot]? = some job ∧
    NamesRight oneInput run.children job := by
  refine ⟨0, _, rfl, rfl, (jobNames_right 1 true none allSucceed standardTable .empty
    rfl rfl (by decide)).1 ⟨fun i cmd hcmd io pid ↦ not_forks_oneInput hcmd, ?_, ?_⟩⟩
  · rintro i j hij ⟨cmd, pid, hcmd, -⟩
    have hj : j < 2 := lt_of_getElem? hcmd
    obtain rfl : i = 0 := by omega
    exact ⟨_, _, rfl, rfl, by decide, by decide, by decide, .inr rfl, rfl⟩
  · intro i cmd hcmd _
    have hplain : ∀ cmd ∈ oneInput, PlainName cmd := by decide
    exact hplain cmd (List.mem_of_getElem? hcmd)

end Irish.Shell
