import Irish.Shell.Session

/-!
# The start of a pipeline

What a call of `pipes_execute` adds to a session (`Launched`): children, and a job if the pipeline
is to become one and `job_add` finds an entry. The entry has the first `MAX_PROCS_PER_JOB` of the
processes, in the order in which they were forked. `forkedPids` says which those are, from the
commands and from what the system calls have returned.
-/

set_option autoImplicit false

namespace Irish.Shell

open Library

/-! ### The forked processes -/

/-- The pids that `fork` returns for a command: its feeder, its distributor, and itself. -/
def commandForks (cmd : SingleCommand) (o : CommandOutcome) : List ℕ+ :=
  if cmd.argc ≠ 0 ∧ SetupOk cmd.numInputs o.input then
    (if 2 ≤ cmd.numInputs then o.input.fork.toList else []) ++
      if SetupOk cmd.numOutputs o.output then
        (if 2 ≤ cmd.numOutputs then o.output.fork.toList else []) ++
          if isBuiltin cmd.cmdName = true ∨ o.resolves = true then o.fork.toList else []
      else []
  else []

def forkedPids (cmds : List SingleCommand) (o : PipelineOutcome) : List ℕ+ :=
  (cmds.mapIdx fun i cmd ↦ commandForks cmd (o.command i)).flatten

variable {i : ℕ} {cmd : SingleCommand} {o : CommandOutcome} {role : Role} {pid : ℕ+}
  {cmds : List SingleCommand} {job : Job}

theorem mem_commandForks (h : Forks i cmd o role pid) : pid ∈ commandForks cmd o := by
  unfold commandForks
  rcases role with j | ⟨_ | _, j⟩
  · obtain ⟨-, hargc, hin, hout, hfound, hpid⟩ := h
    simp [hargc, hin, hout, hfound, hpid]
  · obtain ⟨-, hargc, hcount, hin, hpid⟩ := h
    simp [hargc, hcount, hin, hpid]
  · obtain ⟨-, hargc, hin, hcount, hout, hpid⟩ := h
    simp [hargc, hin, hcount, hout, hpid]

theorem mem_forkedPids {o : PipelineOutcome} (hcmd : cmds[i]? = some cmd)
    (h : Forks i cmd (o.command i) role pid) : pid ∈ forkedPids cmds o := by
  refine List.mem_flatten.mpr ⟨commandForks cmd (o.command i), ?_, mem_commandForks h⟩
  exact List.mem_of_getElem? (i := i) (by rw [List.getElem?_mapIdx, hcmd, Option.map_some])

/-! ### The entry of a job -/

/-- The process that `job_add_proc` records. -/
def newProc (proc : ℕ+ × Option (List Byte)) : JobProc :=
  ⟨proc.1, ((proc.2.map stripPercent).getD [Byte.questionMark]).take 127, false⟩

theorem foldl_jobAddProc (procs : List (ℕ+ × Option (List Byte)))
    (h : job.procs.length ≤ maxProcsPerJob) :
    procs.foldl (fun job proc ↦ JobTable.jobAddProc job proc.1 proc.2) job =
      { job with procs := (job.procs ++ procs.map newProc).take maxProcsPerJob } := by
  induction procs generalizing job with
  | nil => simp [List.take_of_length_le h]
  | cons _ procs ih =>
    rw [List.foldl_cons]
    by_cases hfull : maxProcsPerJob ≤ job.procs.length
    · have hlength : job.procs.length = maxProcsPerJob := Nat.le_antisymm h hfull
      rw [JobTable.jobAddProc, if_pos hfull, ih h]
      simp [hlength]
    · have hroom : job.procs.length + 1 ≤ maxProcsPerJob := Nat.lt_of_not_le hfull
      rw [JobTable.jobAddProc, if_neg hfull, ih (by simpa using hroom)]
      simp [newProc]

/-- An entry has been taken for a job. -/
structure Added (jobs jobs' : JobTable) (pids : List ℕ+) (slot : ℕ) (job : Job) : Prop where
  free : ∃ old, jobs.slots[slot]? = some old ∧ old.active = false
  slots : jobs'.slots = jobs.slots.set slot job
  next : jobs'.nextJobNum = jobs.nextJobNum + 1
  number : job.jobNumber = jobs.nextJobNum
  active : job.active = true
  pids : job.procs.map (·.pid) = pids.take maxProcsPerJob
  unmarked : ∀ e ∈ job.procs, e.exited = false

section Added

variable {jobs jobs' : JobTable} {pids : List ℕ+} {slot p : ℕ} {job' : Job} {e : JobProc}

theorem Added.getElem?_self (h : Added jobs jobs' pids slot job) :
    jobs'.slots[slot]? = some job := by
  obtain ⟨old, hold, -⟩ := h.free
  rw [h.slots, getElem?_set_eq hold]

/-- The other entries are those there were. -/
theorem Added.cases (h : Added jobs jobs' pids slot job) (hjob' : jobs'.slots[i]? = some job') :
    (i = slot ∧ job' = job) ∨ (i ≠ slot ∧ jobs.slots[i]? = some job') := by
  rw [h.slots] at hjob'
  exact getElem?_set_cases hjob'

/-- The active entries are still there. -/
theorem Added.getElem?_active (h : Added jobs jobs' pids slot job)
    (hjob' : jobs.slots[i]? = some job') (hactive : job'.active = true) :
    jobs'.slots[i]? = some job' := by
  obtain ⟨old, hold, hfree⟩ := h.free
  have hi : slot ≠ i := by
    rintro rfl
    cases hold.symm.trans hjob'
    simp [hfree] at hactive
  rw [h.slots, List.getElem?_set_ne hi, hjob']

theorem Added.length_procs (h : Added jobs jobs' pids slot job) :
    job.procs.length = min maxProcsPerJob pids.length := by
  rw [← List.length_take, ← h.pids, List.length_map]

theorem Added.getElem?_pids (h : Added jobs jobs' pids slot job) (he : job.procs[p]? = some e) :
    pids[p]? = some e.pid := by
  have hpid : (job.procs.map (·.pid))[p]? = some e.pid := by
    rw [List.getElem?_map, he, Option.map_some]
  rw [h.pids, List.getElem?_take] at hpid
  split at hpid
  · exact hpid
  · cases hpid

end Added

theorem map_fst_procNames (fallback : List Byte) (s : Spawn) :
    (procNames fallback s).map Prod.fst = s.childPids := by
  refine List.ext_getElem? fun k ↦ ?_
  simp [procNames, Function.comp_def]

/-- `job_add` finds no entry, or it takes one. -/
theorem addJob_cases (s : Spawn) (cmdLine : Option (List Byte)) (state : JobState)
    (fallback : List Byte) (jobs : JobTable) :
    let r := addJob s cmdLine state fallback jobs
    (r.1 = none ∧ r.2 = jobs ∧ ∀ job ∈ jobs.slots, job.active = true) ∨
      ∃ slot job, r.1 = some slot ∧ Added jobs r.2 s.childPids slot job := by
  unfold addJob
  rcases jobAdd_cases jobs s.pgid cmdLine state with
    ⟨heq, hfull⟩ | ⟨slot, old, jobs', hold, hfree, heq, hslots, hnext⟩
  · rw [heq]
    exact .inl ⟨rfl, rfl, hfull⟩
  · rw [heq]
    have hlt : slot < jobs.slots.length := lt_of_getElem? hold
    let procs := ((procNames fallback s).map newProc).take maxProcsPerJob
    refine .inr ⟨slot, ⟨jobs.nextJobNum, s.pgid, (cmdLine.getD []).take 511, state, true, procs⟩,
      rfl, ⟨old, hold, hfree⟩, ?_, hnext, rfl, rfl, ?_, fun e he ↦ ?_⟩
    · refine List.ext_getElem? fun i ↦ ?_
      simp only [JobTable.addProcs, hslots, List.getElem?_modify, List.getElem?_set]
      rcases eq_or_ne slot i with rfl | hi
      · simp [hlt, foldl_jobAddProc, procs]
      · simp [hi]
    · rw [← map_fst_procNames fallback s]
      simp [procs, newProc, Function.comp_def]
    · obtain ⟨proc, -, rfl⟩ := List.mem_map.mp (List.mem_of_mem_take he)
      rfl

/-! ### `pipes_execute` -/

section Launched

variable (shellPgid : ℕ+) (cmds : List SingleCommand) (isBg : Bool)
  (cmdLine : Option (List Byte)) (o : PipelineOutcome) (t : Table) (jobs : JobTable)

/-- The job of a pipeline, and where its processes come from. -/
theorem pipesExecute_cases :
    let run := pipesExecute shellPgid cmds isBg cmdLine o t jobs
    (∀ c ∈ run.children, c.pid ∈ forkedPids cmds o) ∧
      ((run.added = none ∧ run.jobs = jobs ∧
        ((isBg = true ∨ ∃ c ∈ run.children, o.waits c.pid = .stopped) → run.children ≠ [] →
          ∀ job ∈ jobs.slots, job.active = true)) ∨
      ∃ slot job, run.added = some slot ∧
        Added jobs run.jobs (run.children.map (·.pid)) slot job) := by
  unfold pipesExecute
  by_cases hnil : cmds = []
  · simp [hnil]
  rw [if_neg hnil]
  rcases pipesSpawn_cases shellPgid cmds isBg o t with
    ⟨-, t', hspawn, -⟩ | ⟨-, pipeFds, t', s, hspawn, -, hloop⟩
  · rw [hspawn]
    simp
  rw [hspawn]
  have hforked : ∀ c ∈ s.children, c.pid ∈ forkedPids cmds o := by
    intro c hc
    obtain ⟨i, cmd, -, hcmd, hforks, -⟩ := hloop.forked c hc
    exact mem_forkedPids hcmd hforks
  have hadd (state : JobState) (fallback : List Byte) :=
    addJob_cases { s with table := s.table.closeAll (pipeEnds pipeFds) } cmdLine state fallback jobs
  cases isBg with
  | true =>
    refine ⟨hforked, ?_⟩
    rcases hadd .running feederName with ⟨hnone, hjobs, hfull⟩ | ⟨slot, job, hslot, hadded⟩
    · exact .inl ⟨hnone, hjobs, fun _ _ ↦ hfull⟩
    · exact .inr ⟨slot, job, hslot, hloop.pids ▸ hadded⟩
  | false =>
    refine ⟨hforked, ?_⟩
    by_cases hany : (s.childPids.any fun pid ↦ o.waits pid = .stopped) = true
    · simp only [Bool.false_eq_true, if_false, hany, if_true]
      rcases hadd .stopped procName with ⟨hnone, hjobs, hfull⟩ | ⟨slot, job, hslot, hadded⟩
      · exact .inl ⟨hnone, hjobs, fun _ _ ↦ hfull⟩
      · exact .inr ⟨slot, job, hslot, hloop.pids ▸ hadded⟩
    · simp only [Bool.false_eq_true, if_false, hany, false_or]
      refine .inl ⟨trivial, trivial, fun ⟨c, hc, hstopped⟩ ↦ absurd ?_ hany⟩
      rw [hloop.pids]
      exact List.any_eq_true.mpr ⟨c.pid, List.mem_map_of_mem hc, decide_eq_true hstopped⟩

/-- A pipeline has been started: what there is of it afterwards. -/
structure Launched (s s' : Session) (new : List ChildProcess) (L : Launch) : Prop where
  children : s'.children = s.children ++ new
  launches : s'.launches = s.launches ++ [L]
  control : s'.control = .prompt
  log : s'.log = s.log
  procs : L.procs = (List.range new.length).map (s.children.length + ·)
  background : L.background = isBg
  unreaped : isBg = true → ∀ c ∈ new, c.life.isReaped = false
  wants : L.wantsJob = true → isBg = true ∨ ∃ c ∈ new, o.waits c.pid = .stopped
  forked : ∀ c ∈ new, c.pid ∈ forkedPids cmds o
  fresh : FreshPids s.children (new.map (·.pid))
  job : (L.job = none ∧ s'.jobs = s.jobs ∧
      (L.wantsJob = true → new ≠ [] → ∀ job ∈ s.jobs.slots, job.active = true)) ∨
    ∃ slot job, L.job = some s.jobs.nextJobNum ∧
      Added s.jobs s'.jobs (new.map (·.pid)) slot job

variable {shellPgid cmds isBg cmdLine o} {s : Session}
theorem launched_launch (hcontrol : s.control = .prompt) (hfresh : FreshPids s.children
      ((pipesExecute shellPgid cmds isBg cmdLine o s.table s.jobs).children.map (·.pid))) :
    ∃ new L, Launched cmds isBg o s (launch shellPgid cmds isBg cmdLine o s) new L := by
  obtain ⟨hforked, hjob⟩ := pipesExecute_cases shellPgid cmds isBg cmdLine o s.table s.jobs
  unfold launch
  generalize pipesExecute shellPgid cmds isBg cmdLine o s.table s.jobs = run at *
  have hpids :
      (run.children.map (launchedChild isBg o)).map (·.pid) = run.children.map (·.pid) := by
    simp [launchedChild, Function.comp_def]
  have hwants : (isBg || run.children.any fun c ↦ o.waits c.pid = .stopped) = true ↔
      isBg = true ∨ ∃ c ∈ run.children, o.waits c.pid = .stopped := by
    simp
  refine ⟨run.children.map (launchedChild isBg o), _, rfl, rfl, hcontrol, rfl, by simp, rfl, ?_, ?_,
    ?_, hpids ▸ hfresh, ?_⟩
  · rintro rfl c hc
    obtain ⟨child, -, rfl⟩ := List.mem_map.mp hc
    rfl
  · intro h
    refine (hwants.mp h).imp_right fun ⟨c, hc, hstopped⟩ ↦ ?_
    exact ⟨_, List.mem_map_of_mem hc, hstopped⟩
  · intro c hc
    obtain ⟨child, hchild, rfl⟩ := List.mem_map.mp hc
    exact hforked child hchild
  · rw [hpids]
    rcases hjob with ⟨hnone, hjobs, hfull⟩ | ⟨slot, job, hslot, hadded⟩
    · refine .inl ⟨by rw [hnone]; rfl, hjobs, fun h hne ↦ hfull (hwants.mp h) ?_⟩
      rintro hnil
      exact hne (by rw [hnil, List.map_nil])
    · refine .inr ⟨slot, job, ?_, hadded⟩
      rw [hslot, Option.bind_some, hadded.getElem?_self, Option.map_some, hadded.number]

end Launched

end Irish.Shell
