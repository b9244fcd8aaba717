import Irish.Library.Tables
import Irish.Shell.Pipes

/-!
# Who holds the ends of the pipes

Once every process of a pipeline has set itself up, the ends of the pipe between two commands should
be the stdout of the first and the stdin of the second and nothing else: otherwise the second does
not see the end of its input when the first is gone, or the first no broken pipe.

The commands close all other ends, whatever is redirected (`onlyAt_commandSetup`). A feeder and a
distributor close none: they are forked while the shell has every pipe open. So the ends are owned
exactly if no helper is forked.
-/

set_option autoImplicit false

namespace Irish.Shell

open Library

/-! ### Where a table has ends of pipes -/

/-- Every descriptor of the table on an end of a pipe between commands is an allowed one. -/
def OnlyAt (allowed : ℕ → ℕ → PipeEnd → Prop) (t : Table) : Prop :=
  ∀ fd k side, t.get fd = some (.pipe k side) → allowed fd k side

section OnlyAt

variable {allowed allowed' : ℕ → ℕ → PipeEnd → Prop} {t u : Table} {fds : List ℕ}

theorem OnlyAt.mono (h : OnlyAt allowed t)
    (himp : ∀ fd k side, allowed fd k side → allowed' fd k side) : OnlyAt allowed' t :=
  fun fd k side hfd ↦ himp fd k side (h fd k side hfd)

theorem OnlyAt.close (h : OnlyAt allowed t) (fd : ℕ) : OnlyAt allowed (t.close fd) := by
  intro j k side hj
  rw [DescriptorTable.get_close] at hj
  split_ifs at hj
  exact h j k side hj

theorem OnlyAt.closeAll (h : OnlyAt (fun fd k side ↦ fd ∈ fds ∨ allowed fd k side) t) :
    OnlyAt allowed (t.closeAll fds) := by
  intro j k side hj
  rw [DescriptorTable.get_closeAll] at hj
  split_ifs at hj with hmem
  exact (h j k side hj).resolve_left hmem

theorem OnlyAt.opened (h : OnlyAt allowed t) {fds : List ℕ} (hu : t.Opened fds NotPipe u) :
    OnlyAt allowed u := by
  intro j k side hj
  by_cases hmem : j ∈ fds
  · obtain ⟨d, hd, hnot⟩ := hu.refers j hmem
    exact absurd (Option.some.inj (hd.symm.trans hj)) (hnot k side)
  · rw [hu.same j hmem] at hj
    exact h j k side hj

/-- What `dup2` does when it succeeds. -/
theorem OnlyAt.dup2 (h : OnlyAt allowed t) {old new : ℕ} (hu : t.dup2 old new = some u)
    {d : Description} (hold : t.get old = some d)
    (hnew : ∀ k side, d = .pipe k side → allowed new k side) :
    OnlyAt allowed u ∧ ∀ fd, fd ≠ new → u.get fd = t.get fd := by
  obtain ⟨d', hd, rfl⟩ := Option.map_eq_some_iff.mp hu
  cases hold.symm.trans hd
  constructor
  · intro j k side hj
    rw [DescriptorTable.get_install] at hj
    split_ifs at hj with hjn
    · rw [hjn]
      exact hnew k side (Option.some.inj hj)
    · exact h j k side hj
  · intro fd hfd
    rw [DescriptorTable.get_install, if_neg hfd]

end OnlyAt

/-! ### A command before it runs -/

/-- The descriptors that own an end of a pipe: the stdout of the command before it, the stdin of the
command behind it. -/
def Owns (role : Role) (fd k : ℕ) : PipeEnd → Prop
  | .write => role = .command k ∧ fd = 1
  | .read => role = .command (k + 1) ∧ fd = 0

theorem onlyAt_setupDevNull {allowed : ℕ → ℕ → PipeEnd → Prop} {t : Table} (h : OnlyAt allowed t)
    (isBg : Bool) (i : ℕ) (inFd : Option ℕ) (devNull : Bool) :
    OnlyAt allowed (setupDevNull isBg i inFd devNull t) ∧ ∀ fd d, fd ≠ 0 → t.get fd = some d →
      (setupDevNull isBg i inFd devNull t).get fd = some d := by
  unfold setupDevNull
  split_ifs
  · have hopened := DescriptorTable.opened_openFirst t Description.devNull
    have hget := DescriptorTable.get_openFirst t Description.devNull
    generalize t.openFirst Description.devNull = opened at hopened hget
    have honly : OnlyAt allowed opened.2 := h.opened (hopened.mono fun d hd ↦ by
      rintro k side rfl
      cases hd)
    have hdup : opened.2.dup2 opened.1 0 = some (opened.2.install 0 .devNull) := by
      rw [DescriptorTable.dup2, hget]
      rfl
    obtain ⟨honly', hsame⟩ := honly.dup2 hdup hget nofun
    simp only [hdup, Option.getD_some]
    refine ⟨honly'.close _, fun fd d hfd hd ↦ ?_⟩
    have hne : fd ≠ opened.1 := by
      rintro rfl
      cases hd.symm.trans (hopened.free _ List.mem_cons_self)
    rw [DescriptorTable.get_close, if_neg hne, hsame fd hfd, hopened.get_some hd]
  · exact ⟨h, fun _ _ _ hd ↦ hd⟩

section Command

variable {isBg devNull : Bool} {pipeFds : List (ℕ × ℕ)} {i n : ℕ} {inFd outFd : Option ℕ}
  {t₀ t₁ t₂ u : Table}

/-- The table of the shell while it forks the commands. -/
structure PipesHeld (pipeFds : List (ℕ × ℕ)) (t : Table) : Prop where
  only : OnlyAt (fun fd _ _ ↦ fd ∈ pipeEnds pipeFds) t
  ends : ∀ j (fds : ℕ × ℕ), pipeFds[j]? = some fds → t.get fds.1 = some (.pipe j .read) ∧
    t.get fds.2 = some (.pipe j .write) ∧ fds.2 ≠ 0
  zero : t.get 0 ≠ none

theorem onlyAt_setupStdin (h : PipesHeld pipeFds t₀) (hin : t₀.Opened inFd.toList NotPipe t₁)
    (hout : t₁.Opened outFd.toList NotPipe t₂)
    (hu : setupStdin pipeFds i inFd (setupDevNull isBg i inFd devNull t₂) = some u) :
    OnlyAt (fun fd k side ↦ fd ∈ pipeEnds pipeFds ∨ Owns (.command i) fd k side) u ∧
      ∀ fd d, fd ≠ 0 → t₂.get fd = some d → inFd ≠ some fd → u.get fd = some d := by
  have honly : OnlyAt (fun fd k side ↦ fd ∈ pipeEnds pipeFds ∨ Owns (.command i) fd k side) t₂ :=
    ((h.only.opened hin).opened hout).mono fun _ _ _ ↦ .inl
  obtain ⟨hdev, hdevSame⟩ := onlyAt_setupDevNull honly isBg i inFd devNull
  cases inFd with
  | some fd =>
    obtain ⟨v, hdup, rfl⟩ := Option.map_eq_some_iff.mp hu
    obtain ⟨d, hd, hnot⟩ := hin.refers fd List.mem_cons_self
    have hne : fd ≠ 0 := by
      rintro rfl
      exact h.zero (hin.free 0 List.mem_cons_self)
    obtain ⟨hstdin, hsame⟩ := hdev.dup2 hdup (hdevSame fd d hne (hout.get_some hd))
      fun k side heq ↦ absurd heq (hnot k side)
    refine ⟨hstdin.close fd, fun j d' hj hd' hjfd ↦ ?_⟩
    have hjne : j ≠ fd := fun heq ↦ hjfd (heq ▸ rfl)
    rw [DescriptorTable.get_close, if_neg hjne, hsame j hj, hdevSame j d' hj hd']
  | none =>
    simp only [setupStdin] at hu
    split_ifs at hu with hi
    · obtain ⟨fds, hfds, hdup⟩ := Option.bind_eq_some_iff.mp hu
      have hdevEq : setupDevNull isBg i none devNull t₂ = t₂ := by
        rw [setupDevNull, if_neg]
        omega
      rw [hdevEq] at hdup
      obtain ⟨hread, -⟩ := h.ends _ fds hfds
      obtain ⟨hstdin, hsame⟩ := honly.dup2 hdup (hout.get_some (hin.get_some hread)) (by
        rintro k side ⟨⟩
        exact .inr ⟨by rw [Nat.sub_add_cancel hi], rfl⟩)
      exact ⟨hstdin, fun j d hj hd _ ↦ (hsame j hj).trans hd⟩
    · cases hu
      exact ⟨hdev, fun j d hj hd _ ↦ hdevSame j d hj hd⟩

/-- Whatever a command is redirected to, the only ends of pipes it is left with are its own. -/
theorem onlyAt_commandSetup (h : PipesHeld pipeFds t₀) (hin : t₀.Opened inFd.toList NotPipe t₁)
    (hout : t₁.Opened outFd.toList NotPipe t₂)
    (hu : commandSetup isBg n pipeFds i inFd outFd devNull t₂ = some u) :
    OnlyAt (Owns (.command i)) u := by
  obtain ⟨v, hv, hrest⟩ := Option.bind_eq_some_iff.mp hu
  obtain ⟨w, hw, rfl⟩ := Option.map_eq_some_iff.mp hrest
  obtain ⟨hstdin, hsame⟩ := onlyAt_setupStdin h hin hout hv
  apply OnlyAt.closeAll
  cases outFd with
  | some fd =>
    obtain ⟨x, hdup, rfl⟩ := Option.map_eq_some_iff.mp hw
    obtain ⟨d, hd, hnot⟩ := hout.refers fd List.mem_cons_self
    have hfree : t₁.get fd = none := hout.free fd List.mem_cons_self
    have hne : fd ≠ 0 := by
      rintro rfl
      rw [hin.keeps h.zero] at hfree
      exact h.zero hfree
    have hnotIn : inFd ≠ some fd := by
      rintro rfl
      exact hin.ne_none List.mem_cons_self hfree
    exact (hstdin.dup2 hdup (hsame fd d hne hd hnotIn)
      fun k side heq ↦ absurd heq (hnot k side)).1.close fd
  | none =>
    simp only [setupStdout] at hw
    split_ifs at hw with hi
    · obtain ⟨fds, hfds, hdup⟩ := Option.bind_eq_some_iff.mp hw
      obtain ⟨-, hwrite, hne⟩ := h.ends _ fds hfds
      have hnotIn : inFd ≠ some fds.2 := by
        rintro rfl
        cases hwrite.symm.trans (hin.free _ List.mem_cons_self)
      have hget := hsame fds.2 _ hne (hout.get_some (hin.get_some hwrite)) hnotIn
      refine (hstdin.dup2 hdup hget ?_).1
      rintro k side ⟨⟩
      exact .inr ⟨rfl, rfl⟩
    · cases hw
      exact hstdin

end Command

/-! ### The whole pipeline -/

/-- When the loop is over: the shell holds no end of a pipe, and every process only its own. -/
structure PipeEndsOwned (s : Spawn) : Prop where
  shell : OnlyAt (fun _ _ _ ↦ False) s.table
  children : ∀ c ∈ s.children, ∀ u, c.fds = some u → OnlyAt (Owns c.role) u

theorem PipesOpen.held {t t' : Table} {k : ℕ} {pipeFds : List (ℕ × ℕ)}
    (h : PipesOpen t k pipeFds t') (hzero : t'.get 0 ≠ none) (ht : OnlyAt (fun _ _ _ ↦ False) t) :
    PipesHeld pipeFds t' where
  only := by
    intro fd j side hfd
    by_contra hmem
    rw [h.opened.same fd hmem] at hfd
    exact ht fd j side hfd
  ends := h.ends
  zero := hzero

/-- The ends of the pipes are owned exactly if a pipe could not be opened, so that there are none,
or no feeder and no distributor is forked. -/
theorem pipeEndsOwned_iff (shellPgid : ℕ+) {cmds : List SingleCommand} (hn : 2 ≤ cmds.length)
    (isBg : Bool) (o : PipelineOutcome) {t : Table}
    (ht : ∀ fd k side, t.get fd ≠ some (.pipe k side)) :
    (∀ s, pipesSpawn shellPgid cmds isBg o t = .inr s → PipeEndsOwned s) ↔
      (∃ k < cmds.length - 1, o.pipes k = false) ∨
        ∀ i cmd, cmds[i]? = some cmd →
          ∀ io pid, ¬ Forks i cmd (o.command i) (.helper io i) pid := by
  rcases pipesSpawn_cases shellPgid cmds isBg o t with
    ⟨hfail, t', hspawn, -⟩ | ⟨hall, pipeFds, t', s, hspawn, hpipes, hloop⟩
  · refine ⟨fun _ ↦ .inl hfail, fun _ s hs ↦ ?_⟩
    cases hspawn.symm.trans hs
  have hheld := hpipes.held (hpipes.zero (by omega)) ht
  rw [hspawn]
  constructor
  · -- A helper has all that the shell has, the first pipe for one.
    intro howned
    refine .inr fun i cmd hcmd io pid hforks ↦ ?_
    have hlt := lt_of_getElem? hcmd
    obtain ⟨c, hc, hrole, -⟩ := hloop.all i cmd hlt hcmd _ pid hforks
    obtain ⟨-, -, -, -, -, hok⟩ := hloop.forked c hc
    rw [ChildOk, hrole] at hok
    obtain ⟨-, u, hu, hinherits⟩ := hok
    obtain ⟨fds, hfds⟩ : ∃ fds, pipeFds[0]? = some fds :=
      ⟨_, List.getElem?_eq_getElem (by rw [hpipes.length]; omega)⟩
    obtain ⟨-, hwrite, -⟩ := hpipes.ends 0 fds hfds
    have hget : u.get fds.2 = some (.pipe 0 .write) := by
      rw [hinherits fds.2 (by rw [hwrite]; exact Option.some_ne_none _), hwrite]
    have howns := (howned _ rfl).children c hc u hu fds.2 0 .write hget
    rw [hrole] at howns
    cases howns.1
  · intro hcond s' hs'
    cases hs'
    have hnone := hcond.resolve_left (by
      rintro ⟨k, hk, hfail⟩
      rw [hall k hk] at hfail
      cases hfail)
    refine ⟨OnlyAt.closeAll ?_, fun c hc u hu ↦ ?_⟩
    · intro fd k side hfd
      rw [hloop.table] at hfd
      exact .inl (hheld.only fd k side hfd)
    · obtain ⟨i, cmd, -, hcmd, hforks, hok⟩ := hloop.forked c hc
      cases hrole : c.role with
      | helper io j =>
        rw [hrole] at hforks
        obtain rfl : j = i := by
          cases io <;> exact hforks.1
        exact absurd hforks (hnone j cmd hcmd io c.pid)
      | command =>
        rw [ChildOk, hrole] at hok
        obtain ⟨-, inFd, outFd, devNull, t₁, t₂, hin, hout, hfds⟩ := hok
        exact onlyAt_commandSetup hheld hin hout (hfds.symm.trans hu)

/-! ### Two pipelines -/

/-- Every call succeeds, and the processes of command `i` get the pids `10 * i + 2` and up. -/
def allSucceed : PipelineOutcome where
  pipes := fun _ ↦ true
  command := fun i ↦
    { input := ⟨fun _ ↦ true, true, some ⟨10 * i + 2, Nat.succ_pos _⟩⟩
      output := ⟨fun _ ↦ true, true, some ⟨10 * i + 3, Nat.succ_pos _⟩⟩
      resolves := true
      fork := some ⟨10 * i + 4, Nat.succ_pos _⟩
      devNull := true }
  waits := fun _ ↦ .exited 0

/-- A shell with its three standard descriptors. -/
def standardTable : Table := ⟨[some (.shell 0), some (.shell 1), some (.shell 2)]⟩

/-- `cat < a < b | wc`. -/
def twoInputs : List SingleCommand :=
  [⟨[some [99, 97, 116]], [some [97], some [98]], []⟩, ⟨[some [119, 99]], [], []⟩]

/-- The feeder of `cat < a < b | wc` holds the writing end of the pipe, so that `wc` reads on after
`cat` is gone. -/
theorem feeder_holds_pipe : ∃ s c u,
    pipesSpawn 1 twoInputs false allSucceed standardTable = .inr s ∧
    c ∈ s.children ∧ c.role = .helper .input 0 ∧ c.fds = some u ∧
    u.get 4 = some (.pipe 0 .write) ∧ ¬ PipeEndsOwned s := by
  refine ⟨_, _, _, rfl, List.mem_cons_self, rfl, rfl, rfl, fun h ↦ ?_⟩
  have howns := h.children _ List.mem_cons_self _ rfl 4 0 .write rfl
  cases howns.1

theorem standardTable_get (fd k : ℕ) (side : PipeEnd) :
    standardTable.get fd ≠ some (.pipe k side) := by
  match fd with
  | 0 | 1 | 2 => nofun
  | _ + 3 => nofun

/-- `cat < a | wc > c`. -/
def oneInput : List SingleCommand :=
  [⟨[some [99, 97, 116]], [some [97]], []⟩, ⟨[some [119, 99]], [], [⟨some [99], false⟩]⟩]

theorem not_forks_oneInput {i : ℕ} {cmd : SingleCommand} (hcmd : oneInput[i]? = some cmd)
    {io : Redirection} {pid : ℕ+} : ¬ Forks i cmd (allSucceed.command i) (.helper io i) pid := by
  intro hforks
  have hfiles : ∀ cmd ∈ oneInput, cmd.numInputs < 2 ∧ cmd.numOutputs < 2 := by decide
  obtain ⟨hin, hout⟩ := hfiles cmd (List.mem_of_getElem? hcmd)
  cases io with
  | input => exact absurd hforks.2.2.1 (Nat.not_le_of_lt hin)
  | output => exact absurd hforks.2.2.2.1 (Nat.not_le_of_lt hout)

theorem pipeEndsOwned_oneInput : 2 ≤ oneInput.length ∧
    ∃ s, pipesSpawn 1 oneInput false allSucceed standardTable = .inr s ∧ PipeEndsOwned s := by
  have hlength : 2 ≤ oneInput.length := by decide
  refine ⟨hlength, _, rfl, ?_⟩
  exact (pipeEndsOwned_iff 1 hlength false allSucceed standardTable_get).mpr
    (.inr fun i cmd hcmd io pid ↦ not_forks_oneInput hcmd) _ rfl

end Irish.Shell
