import Irish.Library.Tables
import Mathlib.Data.List.Nodup
import Irish.Shell.Pipes

/-!
# Who holds the ends of the pipes to feeders and distributors

A feeder writes to a pipe that its command reads, a distributor reads a pipe that its command
writes to. When the processes of a pipeline have set themselves up, the ends of these pipes are open
where they are used, with one exception: the distributor of a command is forked while the shell
keeps the reading end of the feeder's pipe, and does not close it (`MayHold`).

Every process forked for a command is one of the three in `rolesOf`, each at most once.
-/

set_option autoImplicit false

namespace Irish.Shell

open Library

/-- The end that `Redirection.kept` picks. -/
def Redirection.keptSide : Redirection → PipeEnd
  | .input => .read
  | .output => .write

/-- The end that `Redirection.given` picks. -/
def Redirection.givenSide : Redirection → PipeEnd
  | .input => .write
  | .output => .read

/-- The processes that may have an end of the pipe to a helper open. -/
def MayHold (role : Role) (i : ℕ) : Redirection → PipeEnd → Prop
  | .input, .write => role = .helper .input i
  | .input, .read => role = .helper .output i ∨ role = .command i
  | .output, .read => role = .helper .output i
  | .output, .write => role = .command i

/-- The file is not an end of a pipe to a helper. -/
def NotHelper (d : Description) : Prop := ∀ io i side, d ≠ .helper io i side

def NoHelper (t : Table) : Prop := ∀ io i side, ¬ t.Holds (.helper io i side)

/-! ### One set-up -/

section Setup

variable (io : Redirection) (message : Message) (i : ℕ) {files : List Description} (shellPgid : ℕ+)
  (o : SetupOutcome) (t : Table) {count : ℕ} {r : SetupResult}

/-- The pipe of a helper, in a table that has no other descriptor on it. -/
theorem get_helperPipe (t : Table) :
    let p := t.pipe (.helper io i .read) (.helper io i .write)
    t.get (io.kept p.1) = none ∧ p.2.get (io.kept p.1) = some (.helper io i io.keptSide) ∧
      p.2.get (io.given p.1) = some (.helper io i io.givenSide) ∧ io.kept p.1 ≠ io.given p.1 ∧
      ∀ fd, fd ≠ io.kept p.1 → fd ≠ io.given p.1 → p.2.get fd = t.get fd := by
  intro p
  have hread : p.2.get p.1.1 = _ := DescriptorTable.get_pipe_read t _ _
  have hwrite : p.2.get p.1.2 = _ := DescriptorTable.get_pipe_write t _ _
  have hne : p.1.1 ≠ p.1.2 := DescriptorTable.pipe_read_ne_write t _ _
  have hopened : t.Opened [p.1.1, p.1.2] _ p.2 := DescriptorTable.opened_pipe t _ _
  cases io with
  | input =>
    refine ⟨hopened.free _ (by simp [Redirection.kept]), hread, hwrite, hne,
      fun fd hkept hgiven ↦ hopened.same fd ?_⟩
    simpa using ⟨hkept, hgiven⟩
  | output =>
    refine ⟨hopened.free _ (by simp [Redirection.kept]), hwrite, hread, hne.symm,
      fun fd hkept hgiven ↦ hopened.same fd ?_⟩
    simpa using ⟨hgiven, hkept⟩

/-- What a call of `redirect_setup_input` or `redirect_setup_output` leaves open of pipes to
helpers, in the helper and in the shell. -/
structure SetupEnds (io : Redirection) (i count : ℕ) (t : Table) (r : SetupResult) : Prop where
  child : ∀ c ∈ r.child.toList, c.role = .helper io i ∧ ∃ u, c.fds = some u ∧
    ∀ io' j side, u.Holds (.helper io' j side) →
      t.Holds (.helper io' j side) ∨ (io' = io ∧ j = i ∧ side = io.givenSide)
  shell : ∀ io' j side, r.table.Holds (.helper io' j side) →
    t.Holds (.helper io' j side) ∨ (io' = io ∧ j = i ∧ side = io.keptSide)
  kept : r.error = none → 2 ≤ count →
    ∃ fd, r.fd = some fd ∧ r.table.get fd = some (.helper io i io.keptSide)

theorem SetupEnds.of_unchanged (hchild : r.child = none) (htable : r.table.get = t.get)
    (hkept : r.error = none → count < 2) : SetupEnds io i count t r := by
  refine ⟨fun c hc ↦ ?_, fun io' j side h ↦ .inl ?_, fun hok hcount ↦ ?_⟩
  · rw [hchild] at hc
    cases hc
  · obtain ⟨fd, hfd⟩ := h
    exact ⟨fd, htable ▸ hfd⟩
  · have hlt := hkept hok
    omega

theorem setupEnds_redirectSetup (hfiles : ∀ d ∈ files, NotHelper d) :
    SetupEnds io i files.length t (redirectSetup io message i files shellPgid o t) := by
  by_cases h : SetupOk files.length o
  · rcases redirectSetup_cases io message i shellPgid t h hfiles with
      ⟨hnil, hr⟩ | ⟨hone, fd, t₁, hopened, hr⟩ | ⟨-, pid, fds, t₁, -, hopened, hr⟩
    · rw [hr]
      exact SetupEnds.of_unchanged io i t rfl rfl fun _ ↦ by simp [hnil]
    · rw [hr]
      refine ⟨nofun, fun io' j side hholds ↦ ?_, fun _ hcount ↦ ?_⟩
      · exact .inl ((hholds.of_opened hopened).resolve_right fun hnot ↦ hnot io' j side rfl)
      · omega
    · rw [hr]
      obtain ⟨hfree, hkept, hgiven, hne, hsame⟩ := get_helperPipe io i t₁
      generalize t₁.pipe (.helper io i .read) (.helper io i .write) = p
        at hfree hkept hgiven hne hsame ⊢
      have hold (io' : Redirection) (j : ℕ) (side : PipeEnd)
          (hholds : t₁.Holds (.helper io' j side)) : t.Holds (.helper io' j side) :=
        (hholds.of_opened hopened).resolve_right fun hnot ↦ hnot io' j side rfl
      refine ⟨fun c hc ↦ ?_, ?_, fun _ _ ↦ ⟨_, rfl, ?_⟩⟩
      · obtain rfl : c = _ := List.mem_singleton.mp hc
        refine ⟨rfl, _, rfl, fun io' j side hholds ↦ ?_⟩
        obtain ⟨fd, hfd⟩ := hholds
        rw [DescriptorTable.get_close] at hfd
        split_ifs at hfd with hk
        by_cases hg : fd = io.given p.1
        · rw [hg, hgiven] at hfd
          cases hfd
          exact .inr ⟨rfl, rfl, rfl⟩
        · rw [hsame fd hk hg] at hfd
          exact .inl (hold io' j side ⟨fd, hfd⟩)
      · intro io' j side hholds
        obtain ⟨fd, hfd⟩ := hholds
        rw [DescriptorTable.get_closeAll] at hfd
        split_ifs at hfd with hmem
        have hg : fd ≠ io.given p.1 := by
          rintro rfl
          exact hmem (List.mem_append_right _ List.mem_cons_self)
        by_cases hk : fd = io.kept p.1
        · rw [hk, hkept] at hfd
          cases hfd
          exact .inr ⟨rfl, rfl, rfl⟩
        · rw [hsame fd hk hg] at hfd
          exact .inl (hold io' j side ⟨fd, hfd⟩)
      · rw [DescriptorTable.get_closeAll, if_neg, hkept]
        intro hmem
        rcases List.mem_append.mp hmem with hmem | hmem
        · exact hopened.ne_none hmem hfree
        · exact hne (List.mem_singleton.mp hmem)
  · obtain ⟨herror, hchild, htable⟩ := redirectSetup_failed io message i shellPgid t h
    exact SetupEnds.of_unchanged io i t hchild htable fun hnone ↦ absurd hnone herror

end Setup

theorem setupEnds_input (i : ℕ) (cmd : SingleCommand) (shellPgid : ℕ+) (o : SetupOutcome)
    (t : Table) : SetupEnds .input i cmd.numInputs t (redirectSetupInput i cmd shellPgid o t) := by
  have hfiles : ∀ d ∈ cmd.inputFiles.mapIdx fun j name ↦ Description.input i j name,
      NotHelper d := by
    intro d hd io j side
    obtain ⟨k, hk, rfl⟩ := List.mem_mapIdx.mp hd
    simp
  simpa [SingleCommand.numInputs, redirectSetupInput] using
    setupEnds_redirectSetup .input .noSuchFile i shellPgid o t hfiles

theorem setupEnds_output (i : ℕ) (cmd : SingleCommand) (shellPgid : ℕ+) (o : SetupOutcome)
    (t : Table) :
    SetupEnds .output i cmd.numOutputs t (redirectSetupOutput i cmd shellPgid o t) := by
  have hfiles : ∀ d ∈ cmd.outputFiles.mapIdx fun j file ↦ Description.output i j file,
      NotHelper d := by
    intro d hd io j side
    obtain ⟨k, hk, rfl⟩ := List.mem_mapIdx.mp hd
    simp
  simpa [SingleCommand.numOutputs, redirectSetupOutput] using
    setupEnds_redirectSetup .output .unableToCreate i shellPgid o t hfiles

/-! ### A command before it runs -/

variable {isBg devNull : Bool} {i n fd j k : ℕ} {inFd outFd : Option ℕ} {t u t' : Table}
  {d : Description} {pipeFds : List (ℕ × ℕ)} {role : Role} {cmds : List SingleCommand}

theorem holds_of_setupDevNull (h : (setupDevNull isBg i inFd devNull t).Holds d) :
    t.Holds d ∨ d = .devNull := by
  unfold setupDevNull at h
  split_ifs at h
  · have hopened := DescriptorTable.opened_openFirst t Description.devNull
    refine DescriptorTable.Holds.of_opened ?_ hopened
    have hclosed := h.of_close
    cases hdup : (t.openFirst .devNull).2.dup2 (t.openFirst Description.devNull).1 0 with
    | none => simpa [hdup] using hclosed
    | some =>
      rw [hdup] at hclosed
      exact hclosed.of_dup2 hdup
  · exact .inl h

/-- A command opens nothing but `/dev/null` before it runs. -/
theorem holds_of_commandSetup (hu : commandSetup isBg n pipeFds i inFd outFd devNull t = some u)
    (h : u.Holds d) : t.Holds d ∨ d = .devNull := by
  obtain ⟨v, hv, hrest⟩ := Option.bind_eq_some_iff.mp hu
  obtain ⟨w, hw, rfl⟩ := Option.map_eq_some_iff.mp hrest
  suffices hdev : (setupDevNull isBg i inFd devNull t).Holds d from holds_of_setupDevNull hdev
  have hstdout : v.Holds d := by
    have hall := h.of_closeAll
    unfold setupStdout at hw
    split at hw
    · obtain ⟨x, hdup, rfl⟩ := Option.map_eq_some_iff.mp hw
      exact hall.of_close.of_dup2 hdup
    · split_ifs at hw
      · obtain ⟨fds, -, hdup⟩ := Option.bind_eq_some_iff.mp hw
        exact hall.of_dup2 hdup
      · cases hw
        exact hall
  unfold setupStdin at hv
  split at hv
  · obtain ⟨x, hdup, rfl⟩ := Option.map_eq_some_iff.mp hv
    exact hstdout.of_close.of_dup2 hdup
  · split_ifs at hv
    · obtain ⟨fds, -, hdup⟩ := Option.bind_eq_some_iff.mp hv
      exact hstdout.of_dup2 hdup
    · cases hv
      exact hstdout

/-- The table of the shell while it forks the commands, if its stdin and stdout are open. -/
structure StdOpen (p : Pipeline) (t : Table) : Prop where
  zero : t.get 0 ≠ none
  one : t.get 1 ≠ none
  apart : 0 ∉ pipeEnds p.pipeFds ∧ 1 ∉ pipeEnds p.pipeFds
  length : p.pipeFds.length = p.numCmds - 1
  ends : ∀ (j : ℕ) (fds : ℕ × ℕ), p.pipeFds[j]? = some fds → t.get fds.1 ≠ none ∧ t.get fds.2 ≠ none

theorem exists_dup2 (h : t.get fd ≠ none) (new : ℕ) :
    ∃ u, t.dup2 fd new = some u ∧ u.get new = t.get fd ∧ ∀ j, j ≠ new → u.get j = t.get j := by
  obtain ⟨d, hd⟩ := Option.ne_none_iff_exists'.mp h
  refine ⟨t.install new d, by rw [DescriptorTable.dup2, hd]; rfl, ?_, fun j hj ↦ ?_⟩
  · rw [DescriptorTable.get_install, if_pos rfl, hd]
  · rw [DescriptorTable.get_install, if_neg hj]

section Std

variable {p : Pipeline} {t₁ t₂ : Table} {P Q : Description → Prop}

/-- Only the stdin of the first command of a background job is affected. -/
theorem get_setupDevNull (isBg : Bool) (i : ℕ) (inFd : Option ℕ) (devNull : Bool)
    (hzero : t.get 0 ≠ none) (j : ℕ) : (setupDevNull isBg i inFd devNull t).get j =
      if j = 0 ∧ isBg ∧ inFd = none ∧ i = 0 ∧ devNull then some .devNull else t.get j := by
  unfold setupDevNull
  by_cases hcond : isBg ∧ inFd = none ∧ i = 0 ∧ devNull
  · have hopened := DescriptorTable.opened_openFirst t Description.devNull
    have hget := DescriptorTable.get_openFirst t Description.devNull
    generalize t.openFirst Description.devNull = opened at hopened hget
    have hdup : opened.2.dup2 opened.1 0 = some (opened.2.install 0 .devNull) := by
      rw [DescriptorTable.dup2, hget]
      rfl
    have hfree : t.get opened.1 = none := hopened.free _ List.mem_cons_self
    rw [if_pos hcond]
    simp only [hdup, Option.getD_some, DescriptorTable.get_close, DescriptorTable.get_install]
    by_cases hj : j = opened.1
    · have hne : opened.1 ≠ 0 := fun h ↦ hzero (h ▸ hfree)
      rw [if_pos hj, hj, if_neg fun h ↦ hne h.1, hfree]
    · rw [if_neg hj]
      by_cases hj0 : j = 0
      · rw [if_pos hj0, if_pos ⟨hj0, hcond⟩]
      · rw [if_neg hj0, if_neg fun h ↦ hj0 h.1]
        exact hopened.same j (by simpa using hj)
  · rw [if_neg hcond, if_neg fun h ↦ hcond h.2]

/-- What a command is given as its stdin. -/
def stdinFrom (pipeFds : List (ℕ × ℕ)) (i : ℕ) (inFd : Option ℕ) (t : Table) : Option Description :=
  match inFd with
  | some fd => t.get fd
  | none => if i > 0 then pipeFds[i - 1]?.bind fun fds ↦ t.get fds.1 else t.get 0

/-- What a command is given as its stdout. -/
def stdoutFrom (numCmds : ℕ) (pipeFds : List (ℕ × ℕ)) (i : ℕ) (outFd : Option ℕ) (t : Table) :
    Option Description :=
  match outFd with
  | some fd => t.get fd
  | none => if i < numCmds - 1 then pipeFds[i]?.bind fun fds ↦ t.get fds.2 else t.get 1

theorem exists_setupStdin (inFd : Option ℕ) (hi : i < p.numCmds)
    (hlength : p.pipeFds.length = p.numCmds - 1)
    (hends : ∀ (j : ℕ) (fds : ℕ × ℕ), p.pipeFds[j]? = some fds → t.get fds.1 ≠ none)
    (hin : ∀ fd ∈ inFd, t.get fd ≠ none ∧ fd ≠ 0) :
    ∃ u, setupStdin p.pipeFds i inFd t = some u ∧ u.get 0 = stdinFrom p.pipeFds i inFd t ∧
      ∀ j, j ≠ 0 → inFd ≠ some j → u.get j = t.get j := by
  cases inFd with
  | some fd =>
    obtain ⟨hopen, hfd⟩ := hin fd rfl
    obtain ⟨u, hdup, hzero, hsame⟩ := exists_dup2 hopen 0
    refine ⟨u.close fd, by simp only [setupStdin, hdup, Option.map_some], ?_, ?_⟩
    · rw [DescriptorTable.get_close, if_neg (Ne.symm hfd), hzero, stdinFrom]
    · intro j hj hne
      have hjfd : j ≠ fd := fun h ↦ hne (h ▸ rfl)
      rw [DescriptorTable.get_close, if_neg hjfd, hsame j hj]
  | none =>
    simp only [setupStdin, stdinFrom]
    split_ifs with hpos
    · obtain ⟨fds, hfds⟩ : ∃ fds, p.pipeFds[i - 1]? = some fds :=
        ⟨_, List.getElem?_eq_getElem (by omega)⟩
      obtain ⟨u, hdup, hzero, hsame⟩ := exists_dup2 (hends _ fds hfds) 0
      exact ⟨u, by simp [hfds, hdup], by simp [hfds, hzero], fun j hj _ ↦ hsame j hj⟩
    · exact ⟨t, rfl, rfl, fun _ _ _ ↦ rfl⟩

theorem exists_setupStdout (outFd : Option ℕ) (hlength : p.pipeFds.length = p.numCmds - 1)
    (hends : ∀ (j : ℕ) (fds : ℕ × ℕ), p.pipeFds[j]? = some fds → t.get fds.2 ≠ none)
    (hout : ∀ fd ∈ outFd, t.get fd ≠ none ∧ fd ≠ 0 ∧ fd ≠ 1) :
    ∃ u, setupStdout p.numCmds p.pipeFds i outFd t = some u ∧ u.get 0 = t.get 0 ∧
      u.get 1 = stdoutFrom p.numCmds p.pipeFds i outFd t := by
  cases outFd with
  | some fd =>
    obtain ⟨hopen, hzero, hone⟩ := hout fd rfl
    obtain ⟨u, hdup, hget, hsame⟩ := exists_dup2 hopen 1
    refine ⟨u.close fd, by simp only [setupStdout, hdup, Option.map_some], ?_, ?_⟩
    · rw [DescriptorTable.get_close, if_neg (Ne.symm hzero), hsame 0 (by simp)]
    · rw [DescriptorTable.get_close, if_neg (Ne.symm hone), hget, stdoutFrom]
  | none =>
    simp only [setupStdout, stdoutFrom]
    split_ifs with hlt
    · obtain ⟨fds, hfds⟩ : ∃ fds, p.pipeFds[i]? = some fds :=
        ⟨_, List.getElem?_eq_getElem (by omega)⟩
      obtain ⟨u, hdup, hone, hsame⟩ := exists_dup2 (hends _ fds hfds) 1
      exact ⟨u, by simp [hfds, hdup], hsame 0 (by simp), by simp [hfds, hone]⟩
    · exact ⟨t, rfl, rfl, rfl⟩

/-- A command of a pipeline comes to run, with its redirections or its pipes as its stdin and
stdout. -/
theorem exists_commandSetup (h : StdOpen p t) (hi : i < p.numCmds) (hin : t.Opened inFd.toList P t₁)
    (hout : t₁.Opened outFd.toList Q t₂) (devNull : Bool) :
    ∃ u, commandSetup p.isBg p.numCmds p.pipeFds i inFd outFd devNull t₂ = some u ∧
      u.get 0 = stdinFrom p.pipeFds i inFd (setupDevNull p.isBg i inFd devNull t₂) ∧
      u.get 1 = stdoutFrom p.numCmds p.pipeFds i outFd t₂ := by
  -- The descriptors that are open in the shell stay open, and the new ones are others.
  have hkeeps (fd : ℕ) (hfd : t.get fd ≠ none) : t₂.get fd ≠ none := by
    have h₁ : t₁.get fd ≠ none := by rwa [hin.keeps hfd]
    rwa [hout.keeps h₁]
  have hinFree (fd : ℕ) (hfd : inFd = some fd) : t.get fd = none := hin.free fd (by simp [hfd])
  have hinOpen (fd : ℕ) (hfd : inFd = some fd) : t₁.get fd ≠ none := hin.ne_none (by simp [hfd])
  have houtFree (fd : ℕ) (hfd : outFd = some fd) : t₁.get fd = none :=
    hout.free fd (by simp [hfd])
  have hstd (fd std : ℕ) (hfd : outFd = some fd) (hopen : t.get std ≠ none) : fd ≠ std := by
    rintro rfl
    have hfree := houtFree fd hfd
    rw [hin.keeps hopen] at hfree
    exact hopen hfree
  have hmem (j : ℕ) (fds : ℕ × ℕ) (hfds : p.pipeFds[j]? = some fds) :
      fds.1 ≠ 0 ∧ fds.2 ≠ 0 := by
    have hends : fds.1 ∈ pipeEnds p.pipeFds ∧ fds.2 ∈ pipeEnds p.pipeFds := by
      constructor <;> exact List.mem_flatMap.mpr ⟨fds, List.mem_of_getElem? hfds, by simp⟩
    exact ⟨fun heq ↦ h.apart.1 (heq ▸ hends.1), fun heq ↦ h.apart.1 (heq ▸ hends.2)⟩
  -- Opening `/dev/null` changes nothing but the stdin.
  have hdev (j : ℕ) (hj : j ≠ 0) : (setupDevNull p.isBg i inFd devNull t₂).get j = t₂.get j := by
    rw [get_setupDevNull _ _ _ _ (hkeeps 0 h.zero), if_neg fun hcond ↦ hj hcond.1]
  obtain ⟨v, hv, hstdin, hsame⟩ := exists_setupStdin inFd
    (t := setupDevNull p.isBg i inFd devNull t₂) hi h.length
    (fun j fds hfds ↦ by
      rw [hdev _ (hmem j fds hfds).1]
      exact hkeeps _ (h.ends j fds hfds).1) fun fd hfd ↦ by
      have hne : fd ≠ 0 := by
        rintro rfl
        exact h.zero (hinFree 0 hfd)
      rw [hdev fd hne, hout.keeps (hinOpen fd hfd)]
      exact ⟨hinOpen fd hfd, hne⟩
  have hback (j : ℕ) (hj : j ≠ 0) (hne : inFd ≠ some j) : v.get j = t₂.get j :=
    (hsame j hj hne).trans (hdev j hj)
  have houtSame (fd : ℕ) (hfd : outFd = some fd) : v.get fd = t₂.get fd :=
    hback fd (hstd fd 0 hfd h.zero) fun heq ↦ hinOpen fd heq (houtFree fd hfd)
  have hwrite (j : ℕ) (fds : ℕ × ℕ) (hfds : p.pipeFds[j]? = some fds) :
      v.get fds.2 = t₂.get fds.2 :=
    hback _ (hmem j fds hfds).2 fun heq ↦ (h.ends j fds hfds).2 (hinFree _ heq)
  have hone : v.get 1 = t₂.get 1 := hback 1 (by simp) fun heq ↦ h.one (hinFree 1 heq)
  obtain ⟨w, hw, hzero, hstdout⟩ := exists_setupStdout outFd (t := v) (i := i) h.length
    (fun j fds hfds ↦ by
      rw [hwrite j fds hfds]
      exact hkeeps _ (h.ends j fds hfds).2)
    fun fd hfd ↦ by
      refine ⟨?_, hstd fd 0 hfd h.zero, hstd fd 1 hfd h.one⟩
      rw [houtSame fd hfd]
      exact hout.ne_none (by simp [Option.mem_def.mp hfd])
  refine ⟨w.closeAll (pipeEnds p.pipeFds), ?_, ?_, ?_⟩
  · simp only [commandSetup, hv, Option.bind_some, hw, Option.map_some]
  · rw [DescriptorTable.get_closeAll, if_neg h.apart.1, hzero, hstdin]
  · rw [DescriptorTable.get_closeAll, if_neg h.apart.2, hstdout]
    unfold stdoutFrom
    split
    · rename_i fd
      exact houtSame fd rfl
    · split_ifs
      · cases hfds : p.pipeFds[i]? with
        | none => rfl
        | some fds => exact hwrite i fds hfds
      · exact hone

end Std

/-! ### The loop over the commands -/

/-- The processes that may be forked for a command, in the order in which they are. -/
def rolesOf (i : ℕ) : List Role := [.helper .input i, .helper .output i, .command i]

/-- The ends of the pipes to helpers in a process forked for a command, when `t` is the table of the
shell between two turns. -/
structure HelperEnds (p : Pipeline) (t : Table) (cmd : SingleCommand) (c : Child) : Prop where
  only : ∀ u, c.fds = some u → ∀ io j side, u.Holds (.helper io j side) → MayHold c.role j io side
  helper : ∀ io j, c.role = .helper io j → c.fds ≠ none
  command : ∀ j, c.role = .command j → p.isBg = false → StdOpen p t → ∃ u, c.fds = some u ∧
    (2 ≤ cmd.numInputs → u.Holds (.helper .input j .read)) ∧
    (2 ≤ cmd.numOutputs → u.Holds (.helper .output j .write))

section Turn

variable {p : Pipeline} {o : CommandOutcome} {cmd : SingleCommand} {s : Spawn} {c : Child}
  {io : Redirection} {side : PipeEnd}

theorem helperEnds_feeder (cmd : SingleCommand) (ht : NoHelper s.table)
    (hc : c ∈ (redirectSetupInput i cmd p.shellPgid o.input s.table).child.toList) :
    c.role = .helper .input i ∧ HelperEnds p s.table cmd c := by
  obtain ⟨hrole, u, hu, hends⟩ := (setupEnds_input i cmd p.shellPgid o.input s.table).child c hc
  refine ⟨hrole, fun v hv io j side hholds ↦ ?_, fun io j _ ↦ by simp [hu], fun j hj ↦ ?_⟩
  · cases hu.symm.trans hv
    obtain ⟨rfl, rfl, rfl⟩ := (hends io j side hholds).resolve_left (ht io j side)
    exact hrole
  · cases hrole.symm.trans hj

/-- The table of the shell after the input of a command is set up has at most the reading end of the
feeder's pipe. -/
theorem holds_after_input (ht : NoHelper s.table)
    (h : (redirectSetupInput i cmd p.shellPgid o.input s.table).table.Holds (.helper io j side)) :
    io = .input ∧ j = i ∧ side = .read :=
  ((setupEnds_input i cmd p.shellPgid o.input s.table).shell io j side h).resolve_left
    (ht io j side)

theorem helperEnds_distributor (cmd : SingleCommand) (ht : NoHelper s.table)
    (hc : c ∈ (redirectSetupOutput i cmd p.shellPgid o.output
      (redirectSetupInput i cmd p.shellPgid o.input s.table).table).child.toList) :
    c.role = .helper .output i ∧ HelperEnds p s.table cmd c := by
  obtain ⟨hrole, u, hu, hends⟩ := (setupEnds_output i cmd p.shellPgid o.output _).child c hc
  refine ⟨hrole, fun v hv io j side hholds ↦ ?_, fun io j _ ↦ by simp [hu], fun j hj ↦ ?_⟩
  · cases hu.symm.trans hv
    rcases hends io j side hholds with hold | ⟨rfl, rfl, rfl⟩
    · obtain ⟨rfl, rfl, rfl⟩ := holds_after_input ht hold
      exact .inl hrole
    · exact hrole
  · cases hrole.symm.trans hj

theorem helperEnds_command (cmd : SingleCommand) (ht : NoHelper s.table) (hi : i < p.numCmds)
    (hin : SetupOk cmd.numInputs o.input) (hout : SetupOk cmd.numOutputs o.output) (pid : ℕ+)
    (pgid : ℕ) :
    let input := redirectSetupInput i cmd p.shellPgid o.input s.table
    let output := redirectSetupOutput i cmd p.shellPgid o.output input.table
    HelperEnds p s.table cmd ⟨.command i, pid, pgid,
      commandSetup p.isBg p.numCmds p.pipeFds i input.fd output.fd o.devNull output.table⟩ := by
  intro input output
  have hinput := setupEnds_input i cmd p.shellPgid o.input s.table
  have houtput := setupEnds_output i cmd p.shellPgid o.output input.table
  obtain ⟨hinError, hinOpened⟩ := (setupSpec_input i cmd p.shellPgid o.input s.table).ok hin
  obtain ⟨houtError, houtOpened⟩ :=
    (setupSpec_output i cmd p.shellPgid o.output input.table).ok hout
  refine ⟨fun u hu io j side hholds ↦ ?_, fun io j hrole ↦ ?_, fun j hj hbg hstd ↦ ?_⟩
  · have hshell := (holds_of_commandSetup hu hholds).resolve_right (by simp)
    rcases houtput.shell io j side hshell with hold | ⟨rfl, rfl, rfl⟩
    · obtain ⟨rfl, rfl, rfl⟩ := holds_after_input ht hold
      exact .inr rfl
    · rfl
  · cases hrole
  · cases hj
    obtain ⟨u, hu, hstdin, hstdout⟩ := exists_commandSetup hstd hi hinOpened houtOpened o.devNull
    refine ⟨u, hu, fun hcount ↦ ?_, fun hcount ↦ ?_⟩
    · obtain ⟨fd, hfd, hget⟩ := hinput.kept hinError hcount
      have hdev : setupDevNull p.isBg i input.fd o.devNull output.table = output.table := by
        simp [setupDevNull, hbg]
      refine ⟨0, ?_⟩
      rw [hstdin, hdev, hfd, stdinFrom]
      exact houtOpened.get_some hget
    · obtain ⟨fd, hfd, hget⟩ := houtput.kept houtError hcount
      refine ⟨1, ?_⟩
      rwa [hstdout, hfd, stdoutFrom]

/-- Processes forked for a command: those in `roles`, each at most once, with the ends that they
should have. -/
def ForkedAs (p : Pipeline) (t : Table) (cmd : SingleCommand) (roles : List Role)
    (new : List Child) : Prop :=
  (new.map Child.role).Sublist roles ∧ ∀ c ∈ new, HelperEnds p t cmd c

section ForkedAs

variable {roles roles' : List Role} {new new' : List Child} {q : Prop} {child : Option Child}

theorem ForkedAs.append (h : ForkedAs p t cmd roles new) (h' : ForkedAs p t cmd roles' new') :
    ForkedAs p t cmd (roles ++ roles') (new ++ new') := by
  refine ⟨?_, fun c hc ↦ (List.mem_append.mp hc).elim (h.2 c) (h'.2 c)⟩
  rw [List.map_append]
  exact h.1.append h'.1

/-- Nothing is forked once the turn has failed. -/
theorem ForkedAs.ite [Decidable q] (h : q → ForkedAs p t cmd roles new) :
    ForkedAs p t cmd roles (if q then new else []) := by
  split_ifs with hq
  · exact h hq
  · exact ⟨List.nil_sublist _, nofun⟩

theorem forkedAs_toList (h : ∀ c ∈ child.toList, c.role = role ∧ HelperEnds p t cmd c) :
    ForkedAs p t cmd [role] child.toList := by
  refine ⟨?_, fun c hc ↦ (h c hc).2⟩
  cases child with
  | none => exact List.nil_sublist _
  | some c =>
    have hc : c.role = role := (h c List.mem_cons_self).1
    simp [hc]

end ForkedAs

/-- What a turn of the loop forks: at most a feeder, a distributor and a command. -/
theorem spawnCommand_ends (hcmd : s.cmds[i]? = some cmd) (ht : NoHelper s.table)
    (hi : i < p.numCmds) :
    ∃ new, (spawnCommand p o i s).children = s.children ++ new ∧
      (new.map Child.role).Sublist (rolesOf i) ∧ ∀ c ∈ new, HelperEnds p s.table cmd c := by
  refine ⟨_, (spawnCommand_forked hcmd).1, ?_⟩
  have hfeeder := forkedAs_toList fun c hc ↦
    helperEnds_feeder (p := p) (o := o) (i := i) (c := c) cmd ht hc
  have hdistributor := forkedAs_toList fun c hc ↦
    helperEnds_distributor (p := p) (o := o) (i := i) (c := c) cmd ht hc
  refine ForkedAs.ite fun hin ↦ hfeeder.append (.ite fun hout ↦ hdistributor.append
    (.ite fun _ ↦ ?_))
  rw [← Option.toList_map]
  refine forkedAs_toList fun c hc ↦ ?_
  obtain ⟨pid, -, rfl⟩ := Option.map_eq_some_iff.mp (Option.mem_toList.mp hc)
  exact ⟨rfl, helperEnds_command cmd ht hi hin.2 hout pid _⟩

end Turn

/-- What the loop has forked after some turns. -/
theorem spawnLoop_ends (p : Pipeline) (o : ℕ → CommandOutcome) (hlength : p.numCmds = cmds.length)
    (ht : NoHelper t) (hk : k ≤ cmds.length) :
    let s := spawnLoop p o ⟨t, cmds, [], [], false, 0, []⟩ k
    (s.children.map Child.role).Sublist ((List.range k).flatMap rolesOf) ∧
      ∀ c ∈ s.children, ∃ i cmd, cmds[i]? = some cmd ∧ c.role ∈ rolesOf i ∧
        HelperEnds p t cmd c := by
  induction k with
  | zero => exact ⟨List.nil_sublist _, nofun⟩
  | succ k ih =>
    obtain ⟨hroles, hends⟩ := ih (Nat.le_of_succ_le hk)
    have hloop := spawnLoop_spec p o cmds t (Nat.le_of_succ_le hk)
    simp only [spawnLoop]
    generalize spawnLoop p o ⟨t, cmds, [], [], false, 0, []⟩ k = s at hroles hends hloop ⊢
    obtain ⟨cmd, hcmd⟩ : ∃ cmd, cmds[k]? = some cmd := ⟨cmds[k], List.getElem?_eq_getElem hk⟩
    have hno : NoHelper s.table := by
      intro io i side hholds
      refine ht io i side ?_
      unfold DescriptorTable.Holds at hholds ⊢
      rwa [hloop.table] at hholds
    obtain ⟨new, hchildren, hsub, hnew⟩ := spawnCommand_ends (p := p) (o := o k)
      ((hloop.pending k (Nat.le_refl k)).trans hcmd) hno (hlength ▸ hk)
    rw [hchildren]
    constructor
    · rw [List.map_append, List.range_succ, List.flatMap_append]
      simpa using hroles.append hsub
    · intro c hc
      rcases List.mem_append.mp hc with hc | hc
      · exact hends c hc
      · have hok := hnew c hc
        have hrole : c.role ∈ rolesOf k := hsub.subset (List.mem_map_of_mem hc)
        refine ⟨k, cmd, hcmd, hrole, hok.only, hok.helper, fun j hj hbg hstd ↦ ?_⟩
        refine hok.command j hj hbg ⟨?_, ?_, hstd.apart, hstd.length, ?_⟩ <;> rw [hloop.table]
        · exact hstd.zero
        · exact hstd.one
        · exact hstd.ends

theorem nodup_rolesOf (k : ℕ) : ((List.range k).flatMap rolesOf).Nodup := by
  refine List.nodup_flatMap.mpr ⟨fun i _ ↦ by simp [rolesOf], ?_⟩
  refine List.nodup_range.imp fun {i j} hij ↦ ?_
  simp [Function.onFun, rolesOf, Ne.symm hij]

/-! ### The whole pipeline -/

/-- The processes of a foreground pipeline. -/
structure Staffed (cmds : List SingleCommand) (o : PipelineOutcome) (stdOpen : Prop) (s : Spawn) :
    Prop where
  roles : (s.children.map Child.role).Nodup
  forked : ∀ c ∈ s.children, ∃ i cmd, cmds[i]? = some cmd ∧ c.role ∈ rolesOf i ∧
    Forks i cmd (o.command i) c.role c.pid
  all : ∀ i cmd, cmds[i]? = some cmd → ∀ role pid, Forks i cmd (o.command i) role pid →
    ∃ c ∈ s.children, c.role = role ∧ c.pid = pid
  only : ∀ c ∈ s.children, ∀ u, c.fds = some u → ∀ io j side, u.Holds (.helper io j side) →
    MayHold c.role j io side
  helper : ∀ c ∈ s.children, ∀ io j, c.role = .helper io j → c.fds ≠ none
  command : stdOpen → ∀ c ∈ s.children, ∀ i cmd, cmds[i]? = some cmd → c.role = .command i →
    ∃ u, c.fds = some u ∧ (2 ≤ cmd.numInputs → u.Holds (.helper .input i .read)) ∧
      (2 ≤ cmd.numOutputs → u.Holds (.helper .output i .write))

theorem index_of_mem_rolesOf (hi : role ∈ rolesOf i) (hj : role ∈ rolesOf j) : i = j := by
  simp only [rolesOf, List.mem_cons, List.not_mem_nil, or_false] at hi hj
  rcases hi with rfl | rfl | rfl <;> simpa using hj

theorem PipesOpen.noHelper (h : PipesOpen t k pipeFds t') (ht : NoHelper t) : NoHelper t' := by
  rintro io i side ⟨fd, hfd⟩
  by_cases hmem : fd ∈ pipeEnds pipeFds
  · obtain ⟨fds, hfds, hend⟩ := List.mem_flatMap.mp hmem
    obtain ⟨j, hj⟩ := List.getElem?_of_mem hfds
    obtain ⟨hread, hwrite, -⟩ := h.ends j fds hj
    rcases List.mem_pair.mp hend with rfl | rfl
    · cases hread.symm.trans hfd
    · cases hwrite.symm.trans hfd
  · rw [h.opened.same fd hmem] at hfd
    exact ht io i side ⟨fd, hfd⟩

theorem PipesOpen.stdOpen (h : PipesOpen t (n - 1) pipeFds t') (hzero : t.get 0 ≠ none)
    (hone : t.get 1 ≠ none) (shellPgid : ℕ+) (isBg : Bool) :
    StdOpen ⟨shellPgid, isBg, n, pipeFds⟩ t' where
  zero := by rwa [h.opened.keeps hzero]
  one := by rwa [h.opened.keeps hone]
  apart := ⟨h.opened.not_mem hzero, h.opened.not_mem hone⟩
  length := h.length
  ends := by
    intro j fds hfds
    obtain ⟨hread, hwrite, -⟩ := h.ends j fds hfds
    simp [hread, hwrite]

/-- The processes that `pipes_execute` waits for in the foreground. -/
theorem pipesSpawn_staffed (shellPgid : ℕ+) (cmds : List SingleCommand) (o : PipelineOutcome)
    (ht : NoHelper t) :
    ((∃ k < cmds.length - 1, o.pipes k = false) ∧
      ∃ t', pipesSpawn shellPgid cmds false o t = .inl t') ∨
    ((∀ k < cmds.length - 1, o.pipes k = true) ∧
      ∃ s, pipesSpawn shellPgid cmds false o t = .inr s ∧
        Staffed cmds o (t.get 0 ≠ none ∧ t.get 1 ≠ none) s) := by
  unfold pipesSpawn
  rcases openPipes_cases o.pipes t (cmds.length - 1) with
    ⟨hall, pipeFds, t', hopen, hpipes⟩ | ⟨hfail, t', hopen, -⟩
  · rw [hopen]
    have hloop := spawnLoop_spec ⟨shellPgid, false, cmds.length, pipeFds⟩ o.command cmds t'
      le_rfl
    obtain ⟨hroles, hends⟩ := spawnLoop_ends ⟨shellPgid, false, cmds.length, pipeFds⟩ o.command
      rfl (hpipes.noHelper ht) le_rfl
    refine .inr ⟨hall, _, rfl, hroles.nodup (nodup_rolesOf _), ?_, ?_, ?_, ?_, ?_⟩
    · intro c hc
      obtain ⟨i, cmd, hcmd, hrole, -⟩ := hends c hc
      obtain ⟨j, cmd', -, hcmd', hforks, -⟩ := hloop.forked c hc
      obtain rfl : i = j := by
        refine index_of_mem_rolesOf hrole ?_
        revert hforks
        rcases c.role with j | ⟨_ | _, j⟩ <;> rintro ⟨rfl, -⟩ <;> simp [rolesOf]
      cases hcmd.symm.trans hcmd'
      exact ⟨i, cmd, hcmd, hrole, hforks⟩
    · intro i cmd hcmd
      exact hloop.all i cmd (lt_of_getElem? hcmd) hcmd
    · intro c hc
      obtain ⟨i, cmd, -, -, hok⟩ := hends c hc
      exact hok.only
    · intro c hc
      obtain ⟨i, cmd, -, -, hok⟩ := hends c hc
      exact hok.helper
    · rintro ⟨hzero, hone⟩ c hc i cmd hcmd hcommand
      obtain ⟨j, cmd', hcmd', hrole, hok⟩ := hends c hc
      have hmem : c.role ∈ rolesOf i := by simp [hcommand, rolesOf]
      obtain rfl : i = j := index_of_mem_rolesOf hmem hrole
      cases hcmd.symm.trans hcmd'
      exact hok.command i hcommand rfl (hpipes.stdOpen hzero hone shellPgid false)
  · rw [hopen]
    exact .inl ⟨hfail, t', rfl⟩

end Irish.Shell
