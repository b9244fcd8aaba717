import Irish.Shell.PipeEnds

/-!
# The process group of a job

`resume`, `ping` and the shell's exit signal a job with `kill(-pgid, sig)`. The group of a pipeline
is made by its first command, and the others join it; if the first command is not started the `pgid`
stays 0, every other command leads a group of its own, and `kill(-0, sig)` goes to the shell's
group. So the entry of a job has the group of its commands exactly if the first command was
started.
-/

set_option autoImplicit false

namespace Irish.Shell

open Library

section Jobs

variable (shellPgid : ℕ+) (cmds : List SingleCommand) (isBg : Bool)
  (cmdLine : Option (List Byte)) (o : PipelineOutcome) (t : Table) (jobs : JobTable)

/-- The first command is started: a condition on it and on the calls made for it. -/
def LeaderStarts : Prop :=
  ∃ cmd pid, cmds[0]? = some cmd ∧ Forks 0 cmd (o.command 0) (.command 0) pid

/-- A job is added: the pipes could be opened, the table has a free entry, and the pipeline runs in
the background or one of the processes forked for it is reported as stopped. -/
def AddsJob : Prop :=
  cmds ≠ [] ∧ (∀ k < cmds.length - 1, o.pipes k = true) ∧
    (∃ job ∈ jobs.slots, job.active = false) ∧
    (isBg = true ∨ ∃ i cmd role pid, cmds[i]? = some cmd ∧
      Forks i cmd (o.command i) role pid ∧ o.waits pid = .stopped)

/-- The commands of a pipeline are in the group of its job, and a signal to that group reaches just
them. -/
structure JobGroupOk (children : List Child) (job : Job) : Prop where
  pgid_pos : 0 < job.pgid
  started : ∃ c ∈ children, ∃ i, c.role = .command i
  group : ∀ c ∈ children, ∀ i, c.role = .command i → c.pgid = job.pgid
  signalled : ∀ c ∈ children, c.pgid = killGroup shellPgid job.pgid ↔ ∃ i, c.role = .command i
  not_shell : killGroup shellPgid job.pgid ≠ shellPgid

/-- The job that `pipes_execute` adds, if it adds one, has the group of its commands. -/
def PipelineRun.JobOk (run : PipelineRun) : Prop :=
  ∀ slot job, run.added = some slot → run.jobs.slots[slot]? = some job →
    JobGroupOk shellPgid run.children job

variable {shellPgid cmds isBg cmdLine o t jobs} {s : Spawn}

theorem addJob_isSome (s : Spawn) (cmdLine : Option (List Byte)) (state : JobState)
    (fallback : List Byte) (jobs : JobTable) :
    (addJob s cmdLine state fallback jobs).1.isSome = true ↔
      ∃ job ∈ jobs.slots, job.active = false := by
  rw [← jobs.jobAdd_isSome s.pgid cmdLine state]
  unfold addJob
  split <;> simp_all

/-- The entry of a pipeline has the group its loop has ended with. -/
theorem exists_job_of_addJob {state : JobState} {fallback : List Byte} {slot : ℕ}
    (h : (addJob s cmdLine state fallback jobs).1 = some slot) :
    ∃ job, (addJob s cmdLine state fallback jobs).2.slots[slot]? = some job ∧
      job.pgid = s.pgid := by
  unfold addJob at h ⊢
  cases hadd : jobs.jobAdd s.pgid cmdLine state with
  | mk found =>
    rw [hadd] at h
    cases found with
    | none => cases h
    | some found =>
      cases h
      obtain ⟨job, hjob, hpgid⟩ := JobTable.exists_job_of_jobAdd (congrArg Prod.fst hadd)
      rw [hadd] at hjob
      obtain ⟨job', hjob', hpgid'⟩ := JobTable.exists_job_of_addProcs hjob (procNames fallback s)
      exact ⟨job', hjob', hpgid'.trans hpgid⟩

variable (shellPgid cmds isBg cmdLine o t jobs) in
/-- What `pipes_execute` does about the job: it adds one exactly under `AddsJob`, with the group and
the processes of its loop. -/
theorem pipesExecute_added :
    let run := pipesExecute shellPgid cmds isBg cmdLine o t jobs
    (run.added.isSome = true ↔ AddsJob cmds isBg o jobs) ∧
      ∀ slot, run.added = some slot → ∃ p t' s job, run.children = s.children ∧
        run.jobs.slots[slot]? = some job ∧ job.pgid = s.pgid ∧ p.shellPgid = shellPgid ∧
        LoopOk p o.command cmds t' cmds.length s := by
  unfold pipesExecute AddsJob
  by_cases hnil : cmds = []
  · simp [hnil]
  rw [if_neg hnil]
  rcases pipesSpawn_cases shellPgid cmds isBg o t with
    ⟨⟨k, hk, hfail⟩, t', hspawn, -⟩ | ⟨hall, pipeFds, t', s, hspawn, -, hloop⟩
  · rw [hspawn]
    refine ⟨⟨nofun, fun h ↦ ?_⟩, nofun⟩
    rw [h.2.1 k hk] at hfail
    cases hfail
  rw [hspawn]
  have hstopped : (s.childPids.any fun pid ↦ o.waits pid = .stopped) = true ↔
      ∃ i cmd role pid, cmds[i]? = some cmd ∧ Forks i cmd (o.command i) role pid ∧
        o.waits pid = .stopped := by
    rw [List.any_eq_true, hloop.pids]
    constructor
    · rintro ⟨pid, hpid, hwait⟩
      obtain ⟨c, hc, rfl⟩ := List.mem_map.mp hpid
      obtain ⟨i, cmd, -, hcmd, hforks, -⟩ := hloop.forked c hc
      exact ⟨i, cmd, c.role, c.pid, hcmd, hforks, of_decide_eq_true hwait⟩
    · rintro ⟨i, cmd, role, pid, hcmd, hforks, hwait⟩
      have hlt := lt_of_getElem? hcmd
      obtain ⟨c, hc, -, rfl⟩ := hloop.all i cmd hlt hcmd role pid hforks
      exact ⟨c.pid, List.mem_map_of_mem hc, decide_eq_true hwait⟩
  cases isBg with
  | true =>
    refine ⟨(addJob_isSome _ _ _ _ _).trans ⟨fun h ↦ ⟨hnil, hall, h, .inl rfl⟩, fun h ↦ h.2.2.1⟩,
      fun slot hslot ↦ ?_⟩
    obtain ⟨job, hjob, hpgid⟩ := exists_job_of_addJob hslot
    exact ⟨_, t', s, job, rfl, hjob, hpgid, rfl, hloop⟩
  | false =>
    by_cases hany : (s.childPids.any fun pid ↦ o.waits pid = .stopped) = true
    · simp only [Bool.false_eq_true, if_false, hany, if_true, false_or]
      refine ⟨(addJob_isSome _ _ _ _ _).trans
        ⟨fun h ↦ ⟨hnil, hall, h, hstopped.mp hany⟩, fun h ↦ h.2.2.1⟩, fun slot hslot ↦ ?_⟩
      obtain ⟨job, hjob, hpgid⟩ := exists_job_of_addJob hslot
      exact ⟨_, t', s, job, rfl, hjob, hpgid, rfl, hloop⟩
    · simp only [Bool.false_eq_true, if_false, hany, false_or]
      exact ⟨⟨nofun, fun h ↦ absurd (hstopped.mpr h.2.2.2) hany⟩, nofun⟩

/-- The loop of a pipeline whose first command is started leaves its commands in one group. -/
theorem LoopOk.jobGroupOk {p : Pipeline} {o : ℕ → CommandOutcome} {cmd : SingleCommand} {pid : ℕ+}
    {t' : Table} (hloop : LoopOk p o cmds t' cmds.length s) (hcmd : cmds[0]? = some cmd)
    (hforks : Forks 0 cmd (o 0) (.command 0) pid) (hfresh : pid ≠ p.shellPgid) {job : Job}
    (hjob : job.pgid = s.pgid) : JobGroupOk p.shellPgid s.children job := by
  have hlt := lt_of_getElem? hcmd
  have hpgid : job.pgid = pid := hjob.trans (hloop.leader cmd pid hlt hcmd hforks)
  have hpos : 0 < job.pgid := by
    rw [hpgid]
    exact pid.pos
  have hkill : killGroup p.shellPgid job.pgid = job.pgid := if_neg (Nat.ne_of_gt hpos)
  have hshell : job.pgid ≠ p.shellPgid := by
    rw [hpgid]
    exact fun h ↦ hfresh (PNat.eq h)
  have hgroup : ∀ c ∈ s.children, ∀ i, c.role = .command i → c.pgid = job.pgid := by
    intro c hc i hrole
    obtain ⟨-, -, -, -, -, hok⟩ := hloop.forked c hc
    rw [ChildOk, hrole, ← hjob] at hok
    exact hok.1.trans (if_neg (Nat.ne_of_gt hpos))
  obtain ⟨leader, hleader, hrole, -⟩ := hloop.all 0 cmd hlt hcmd _ pid hforks
  refine ⟨hpos, ⟨leader, hleader, 0, hrole⟩, hgroup, fun c hc ↦ ⟨fun heq ↦ ?_, ?_⟩, ?_⟩
  · cases hrole : c.role with
    | command i => exact ⟨i, rfl⟩
    | helper =>
      -- A helper has never left the group of the shell.
      obtain ⟨-, -, -, -, -, hok⟩ := hloop.forked c hc
      rw [ChildOk, hrole] at hok
      rw [hok.1, hkill] at heq
      exact absurd heq.symm hshell
  · rintro ⟨i, hrole⟩
    rw [hkill]
    exact hgroup c hc i hrole
  · rwa [hkill]

/-- The entry of a job has the group of its commands exactly if the first command is started or no
job is added.

Assumes: the pid that `fork` returns is not the id of the shell's process group. -/
theorem jobGroupOk_iff (hfresh : ∀ i pid, (o.command i).fork = some pid → pid ≠ shellPgid) :
    (pipesExecute shellPgid cmds isBg cmdLine o t jobs).JobOk shellPgid ↔
      LeaderStarts cmds o ∨ ¬ AddsJob cmds isBg o jobs := by
  obtain ⟨hiff, hadded⟩ := pipesExecute_added shellPgid cmds isBg cmdLine o t jobs
  constructor
  · intro hjobs
    by_contra hcond
    rw [not_or, not_not, ← hiff] at hcond
    obtain ⟨hnone, hadds⟩ := hcond
    obtain ⟨slot, hslot⟩ := Option.isSome_iff_exists.mp hadds
    obtain ⟨p, t', s, job, -, hjob, hpgid, -, hloop⟩ := hadded slot hslot
    have hzero := hloop.no_leader fun cmd pid hcmd hforks ↦ hnone ⟨cmd, pid, hcmd, hforks⟩
    have hpos := (hjobs slot job hslot hjob).pgid_pos
    rw [hpgid, hzero] at hpos
    exact absurd hpos (Nat.lt_irrefl 0)
  · intro hcond slot job hslot hjob
    have hadds : AddsJob cmds isBg o jobs := hiff.mp (Option.isSome_iff_exists.mpr ⟨slot, hslot⟩)
    obtain ⟨cmd, pid, hcmd, hforks⟩ := hcond.resolve_right (not_not.mpr hadds)
    obtain ⟨p, t', s, job', hchildren, hjob', hpgid, rfl, hloop⟩ := hadded slot hslot
    cases hjob.symm.trans hjob'
    rw [hchildren]
    exact hloop.jobGroupOk hcmd hforks (hfresh 0 pid hforks.2.2.2.2.2) hpgid

end Jobs

/-! ### Two pipelines -/

/-- As `allSucceed`, but the first command is not found. -/
def firstNotFound : PipelineOutcome :=
  { allSucceed with
    command := fun i ↦ { allSucceed.command i with resolves := decide (i ≠ 0) } }

/-- `nosuch | wc &`: the entry has the group 0, so that a signal to the job goes to the group of the
shell, and not to that of `wc`. -/
theorem jobGroup_zero :
    let cmds : List SingleCommand := [⟨[some [110]], [], []⟩, ⟨[some [119, 99]], [], []⟩]
    let run := pipesExecute 1 cmds true none firstNotFound standardTable .empty
    ∃ job c, run.added = some 0 ∧ run.jobs.slots[0]? = some job ∧ c ∈ run.children ∧
      c.role = .command 1 ∧ job.pgid = 0 ∧ c.pgid = 14 ∧ killGroup 1 job.pgid = 1 ∧
      ¬ JobGroupOk 1 run.children job := by
  refine ⟨_, _, rfl, rfl, List.mem_cons_self, rfl, rfl, rfl, rfl, fun h ↦ ?_⟩
  exact absurd h.pgid_pos (by decide)

theorem jobGroupOk_background :
    let run := pipesExecute 1 oneInput true none allSucceed standardTable .empty
    (∀ i pid, (allSucceed.command i).fork = some pid → pid ≠ 1) ∧ ∃ job, run.added = some 0 ∧
      run.jobs.slots[0]? = some job ∧ JobGroupOk 1 run.children job := by
  have hfresh : ∀ i pid, (allSucceed.command i).fork = some pid → pid ≠ 1 := by
    rintro i pid h rfl
    cases h
  refine ⟨hfresh, _, rfl, rfl, ?_⟩
  refine (jobGroupOk_iff hfresh).mpr (.inl ⟨_, 4, rfl, ?_⟩) 0 _ rfl rfl
  exact ⟨rfl, by decide, by decide, by decide, by decide, rfl⟩

end Irish.Shell
