import Irish.Library.Run
import Irish.Library.Children
import Irish.Library.Sweep
import Irish.Shell.Jobs

/-!
# Job control

What `src/term_control.c`, `src/resume.c`, `src/ping.c` and `src/activities.c` do to the job table:
the lookups, a turn of `sigchld_handler`, `job_sweep`, the outcomes of `resume`, and the listing of
`activities`. What `waitpid` reports is an argument.

Only `job_add` gives a number or makes an entry active; every other operation keeps the numbers and
lets entries become inactive (`KeepsNumbers`). So active jobs have different numbers below
`g_next_job_num` after any sequence of operations, but `activities` looks for the numbers 1 to
`MAX_JOBS` only, and a session may have given larger ones (`jobNumbering`).
-/

set_option autoImplicit false

namespace Irish.Shell

open Library

/-! ### One entry -/

namespace Job

def markExited (job : Job) (p : ℕ) : Job :=
  { job with procs := job.procs.modify p fun e ↦ { e with exited := true } }

def allExited (job : Job) : Bool := job.procs.all (·.exited)

def clear (job : Job) : Job := { job with active := false }

def setState (job : Job) (state : JobState) : Job := { job with state := state }

end Job

/-- What `waitpid` with `WNOHANG` returns: 0, -1, or a child with its status. -/
inductive WaitResult
  | nothing
  | failed
  | reported (r : Report)
deriving DecidableEq, Repr

/-- `job_sweep` after `waitpid` for the process `p` of an entry, with the variable `all_exited`. -/
def sweepMark (result : WaitResult) (p : ℕ) (job : Job) (allExited : Bool) : Job × Bool :=
  match result with
  | .reported (.noticed .stopped) => (job.setState .stopped, false)
  | .reported (.noticed .continued) => (job.setState .running, false)
  | .reported (.ended _) => (job.markExited p, allExited)
  | .nothing => (job, false)
  | .failed => (job.markExited p, allExited)

/-- The turn of `job_sweep` for the process `p`. -/
def sweepProc (waits : ℕ → WaitResult) (r : Job × Bool) (p : ℕ) : Job × Bool :=
  if r.1.procs[p]?.any (·.exited) then r else sweepMark (waits p) p r.1 r.2

/-- The turn of `job_sweep` for an entry. -/
def sweepJob (waits : ℕ → WaitResult) (job : Job) : Job :=
  if job.active then
    let r := (List.range job.procs.length).foldl (sweepProc waits) (job, true)
    if r.2 then r.1.clear else r.1
  else job

/-- `resume` after its `waitpid` has reported the end of a process. -/
def resumeMark (pid : ℕ+) (job : Job) : Job :=
  match job.procs.findIdx? (·.pid = pid) with
  | none => job
  | some p => job.markExited p

/-- The loop of `resume ... fg` and what follows it, on the reports of `waitpid` up to its failure;
`timedOut` is `g_alarm_fired` at the end of the reports. -/
def resumeWait (timedOut : Bool) : List (ℕ+ × Report) → Job → Job
  | [], job => if timedOut || job.allExited then job.clear else job
  | (pid, r) :: reports, job =>
    if job.allExited then job.clear
    else
      match r with
      | .noticed .stopped => job.setState .stopped
      | .noticed .continued => resumeWait timedOut reports job
      | .ended _ => resumeWait timedOut reports (resumeMark pid job)

/-! ### The table -/

/-- A line that `sigchld_handler` prints. -/
structure Announcement where
  name : List Byte
  pid : ℕ+
  normally : Bool
deriving DecidableEq, Repr

/-- The argument of `ping`. -/
inductive PingTarget
  | job (number : ℕ)
  | process (pid : ℕ+)
deriving DecidableEq

/-- The state that `ping` writes for a signal, if any: `SIGCONT`, `SIGSTOP` and `SIGTSTP`. -/
def signalState (sig : ℕ) : Option JobState :=
  if sig = 18 then some .running
  else if sig = 19 ∨ sig = 20 then some .stopped
  else none

namespace JobTable

def modify (jobs : JobTable) (slot : ℕ) (f : Job → Job) : JobTable where
  slots := jobs.slots.modify slot f
  nextJobNum := jobs.nextJobNum
  length_slots := by rw [List.length_modify, jobs.length_slots]

/-- `job_get_by_number`, as the index of the entry. -/
def jobGetByNumber (jobs : JobTable) (number : ℕ) : Option ℕ :=
  jobs.slots.findIdx? fun job ↦ job.active ∧ job.jobNumber = number

/-- `job_get_by_pid`: the index of the entry and `proc_idx`. -/
def jobGetByPid (jobs : JobTable) (pid : ℕ+) : Option (ℕ × ℕ) :=
  (jobs.slots.findIdx? fun job ↦ job.active ∧ job.procs.any (·.pid = pid)).bind fun slot ↦
    jobs.slots[slot]?.bind fun job ↦ (job.procs.findIdx? (·.pid = pid)).map fun p ↦ (slot, p)

def jobRemove (jobs : JobTable) (number : ℕ) : JobTable :=
  match jobs.jobGetByNumber number with
  | none => jobs
  | some slot => jobs.modify slot Job.clear

/-- A turn of the loop of `sigchld_handler`. -/
def sigchldTurn (jobs : JobTable) (pid : ℕ+) (r : Report) : JobTable × Option Announcement :=
  match jobs.jobGetByPid pid with
  | none => (jobs, none)
  | some (slot, p) =>
    match r with
    | .noticed .stopped => (jobs.modify slot (·.setState .stopped), none)
    | .noticed .continued => (jobs.modify slot (·.setState .running), none)
    | .ended how =>
      (jobs.modify slot fun job ↦
        if (job.markExited p).allExited then (job.markExited p).clear else job.markExited p,
      ((jobs.slots[slot]?.bind (·.procs[p]?)).map fun e ↦
        ⟨e.cmdName, pid, how = .exited 0⟩))

def jobSweep (jobs : JobTable) (waits : ℕ → ℕ → WaitResult) : JobTable where
  slots := jobs.slots.mapIdx fun slot job ↦ sweepJob (waits slot) job
  nextJobNum := jobs.nextJobNum
  length_slots := by rw [List.length_mapIdx, jobs.length_slots]

/-- `resume` after its `job_sweep`, with `bg` or with what happens in the foreground. -/
def resume (jobs : JobTable) (number : ℕ) (foreground : Option (Bool × List (ℕ+ × Report))) :
    JobTable :=
  match jobs.jobGetByNumber number with
  | none => jobs
  | some slot =>
    match foreground with
    | none => jobs.modify slot (·.setState .running)
    | some (timedOut, reports) =>
      jobs.modify slot fun job ↦ resumeWait timedOut reports (job.setState .running)

/-- The process that `ping` with a pid finds. -/
def pingProcess (jobs : JobTable) (pid : ℕ+) : Option (ℕ × ℕ) :=
  (jobs.jobGetByPid pid).filter fun (slot, p) ↦
    (jobs.slots[slot]?.bind (·.procs[p]?)).any (!·.exited)

/-- `ping` after its `job_sweep`; `sent` says that `kill` has found the process. -/
def ping (jobs : JobTable) (target : PingTarget) (sig : ℕ) (sent : Bool) : JobTable :=
  let found :=
    match target with
    | .job number => jobs.jobGetByNumber number
    | .process pid => if sent then (jobs.pingProcess pid).map Prod.fst else none
  match found, signalState sig with
  | some slot, some state => jobs.modify slot (·.setState state)
  | _, _ => jobs

/-- The jobs that `activities` prints after its `job_sweep`. -/
def activities (jobs : JobTable) : List Job :=
  (List.range maxJobs).filterMap fun i ↦
    (jobs.jobGetByNumber (i + 1)).bind fun slot ↦ jobs.slots[slot]?

end JobTable

/-! ### What the operations keep -/

/-- An entry after an operation other than `job_add`: it has its number, and is not made active. -/
def SameNumber (job job' : Job) : Prop :=
  job'.jobNumber = job.jobNumber ∧ (job'.active = true → job.active = true)

structure KeepsNumbers (jobs jobs' : JobTable) : Prop where
  next : jobs'.nextJobNum = jobs.nextJobNum
  slots : List.Forall₂ SameNumber jobs.slots jobs'.slots

section Keeps

variable {job a b c : Job} {jobs : JobTable} {f : Job → Job}

theorem SameNumber.refl (job : Job) : SameNumber job job := ⟨rfl, id⟩

instance : Std.Refl SameNumber := ⟨.refl⟩

theorem SameNumber.trans (h : SameNumber a b) (h' : SameNumber b c) : SameNumber a c :=
  ⟨h'.1.trans h.1, fun hc ↦ h.2 (h'.2 hc)⟩

theorem sameNumber_clear (job : Job) : SameNumber job job.clear := ⟨rfl, nofun⟩

theorem sameNumber_setState (job : Job) (state : JobState) : SameNumber job (job.setState state) :=
  ⟨rfl, id⟩

theorem sameNumber_markExited (job : Job) (p : ℕ) : SameNumber job (job.markExited p) := ⟨rfl, id⟩

theorem sameNumber_sweepMark (result : WaitResult) (p : ℕ) (job : Job) (allExited : Bool) :
    SameNumber job (sweepMark result p job allExited).1 := by
  unfold sweepMark
  split
  · exact sameNumber_setState _ _
  · exact sameNumber_setState _ _
  · exact sameNumber_markExited _ _
  · exact .refl _
  · exact sameNumber_markExited _ _

theorem sameNumber_foldl_sweepProc (waits : ℕ → WaitResult) (procs : List ℕ) (r : Job × Bool) :
    SameNumber r.1 (procs.foldl (sweepProc waits) r).1 := by
  induction procs generalizing r with
  | nil => exact .refl _
  | cons p _ ih =>
    refine SameNumber.trans ?_ (ih (sweepProc waits r p))
    unfold sweepProc
    split
    · exact .refl _
    · exact sameNumber_sweepMark _ _ _ _

theorem sameNumber_sweepJob (waits : ℕ → WaitResult) (job : Job) :
    SameNumber job (sweepJob waits job) := by
  unfold sweepJob
  split
  · have hloop := sameNumber_foldl_sweepProc waits (List.range job.procs.length) (job, true)
    dsimp only
    split
    · exact hloop.trans (sameNumber_clear _)
    · exact hloop
  · exact .refl _

theorem sameNumber_resumeMark (pid : ℕ+) (job : Job) : SameNumber job (resumeMark pid job) := by
  unfold resumeMark
  split
  · exact .refl _
  · exact sameNumber_markExited _ _

theorem sameNumber_resumeWait (timedOut : Bool) (reports : List (ℕ+ × Report)) (job : Job) :
    SameNumber job (resumeWait timedOut reports job) := by
  induction reports generalizing job with
  | nil =>
    unfold resumeWait
    split
    · exact sameNumber_clear _
    · exact .refl _
  | cons report _ ih =>
    obtain ⟨pid, r⟩ := report
    unfold resumeWait
    split
    · exact sameNumber_clear _
    · split
      · exact sameNumber_setState _ _
      · exact ih job
      · exact (sameNumber_resumeMark pid job).trans (ih _)

theorem KeepsNumbers.refl (jobs : JobTable) : KeepsNumbers jobs jobs :=
  ⟨rfl, List.forall₂_refl _⟩

theorem keepsNumbers_modify (jobs : JobTable) (slot : ℕ) (hf : ∀ job, SameNumber job (f job)) :
    KeepsNumbers jobs (jobs.modify slot f) :=
  ⟨rfl, forall₂_modify fun job _ ↦ hf job⟩

theorem keepsNumbers_sigchldTurn (jobs : JobTable) (pid : ℕ+) (r : Report) :
    KeepsNumbers jobs (jobs.sigchldTurn pid r).1 := by
  unfold JobTable.sigchldTurn
  split
  · exact .refl jobs
  · split
    · exact keepsNumbers_modify _ _ fun _ ↦ sameNumber_setState _ _
    · exact keepsNumbers_modify _ _ fun _ ↦ sameNumber_setState _ _
    · refine keepsNumbers_modify _ _ fun job ↦ ?_
      split
      · exact (sameNumber_markExited _ _).trans (sameNumber_clear _)
      · exact sameNumber_markExited _ _

theorem keepsNumbers_jobSweep (jobs : JobTable) (waits : ℕ → ℕ → WaitResult) :
    KeepsNumbers jobs (jobs.jobSweep waits) := by
  refine ⟨rfl, List.forall₂_iff_get.mpr ⟨by simp [JobTable.jobSweep], fun i hi hi' ↦ ?_⟩⟩
  simpa [JobTable.jobSweep] using sameNumber_sweepJob (waits i) jobs.slots[i]

theorem keepsNumbers_jobRemove (jobs : JobTable) (number : ℕ) :
    KeepsNumbers jobs (jobs.jobRemove number) := by
  unfold JobTable.jobRemove
  split
  · exact .refl jobs
  · exact keepsNumbers_modify _ _ sameNumber_clear

theorem keepsNumbers_resume (jobs : JobTable) (number : ℕ)
    (foreground : Option (Bool × List (ℕ+ × Report))) :
    KeepsNumbers jobs (jobs.resume number foreground) := by
  unfold JobTable.resume
  split
  · exact .refl jobs
  · split
    · exact keepsNumbers_modify _ _ fun _ ↦ sameNumber_setState _ _
    · exact keepsNumbers_modify _ _ fun job ↦
        (sameNumber_setState job .running).trans (sameNumber_resumeWait _ _ _)

theorem keepsNumbers_ping (jobs : JobTable) (target : PingTarget) (sig : ℕ) (sent : Bool) :
    KeepsNumbers jobs (jobs.ping target sig sent) := by
  unfold JobTable.ping
  dsimp only
  split
  · exact keepsNumbers_modify _ _ fun _ ↦ sameNumber_setState _ _
  · exact .refl jobs

end Keeps

/-! ### Numbers -/

/-- Every number is below `g_next_job_num`, and active entries have different ones. -/
structure Numbered (jobs : JobTable) : Prop where
  below : ∀ job ∈ jobs.slots, job.jobNumber < jobs.nextJobNum
  pos : ∀ job ∈ jobs.slots, job.active = true → 1 ≤ job.jobNumber
  distinct : ∀ (i j : ℕ) (job job' : Job), jobs.slots[i]? = some job → jobs.slots[j]? = some job' →
    job.active = true → job'.active = true → job.jobNumber = job'.jobNumber → i = j

section Numbers

variable {jobs jobs' : JobTable}

theorem numbered_empty : Numbered JobTable.empty where
  below := by simp [JobTable.empty, JobTable.emptyJob]
  pos := by simp [JobTable.empty, JobTable.emptyJob]
  distinct := by
    intro i j job job' hjob _ hactive
    have hempty := List.eq_of_mem_replicate (List.mem_of_getElem? hjob)
    rw [hempty] at hactive
    cases hactive

theorem Numbered.keeps (h : Numbered jobs) (hkeeps : KeepsNumbers jobs jobs') : Numbered jobs' where
  below := by
    intro job' hjob'
    obtain ⟨i, hi⟩ := List.getElem?_of_mem hjob'
    obtain ⟨job, hjob, hnumber, -⟩ := exists_of_forall₂ hkeeps.slots hi
    rw [hkeeps.next, hnumber]
    exact h.below job (List.mem_of_getElem? hjob)
  pos := by
    intro job' hjob' hactive
    obtain ⟨i, hi⟩ := List.getElem?_of_mem hjob'
    obtain ⟨job, hjob, hnumber, hback⟩ := exists_of_forall₂ hkeeps.slots hi
    rw [hnumber]
    exact h.pos job (List.mem_of_getElem? hjob) (hback hactive)
  distinct := by
    intro i j job₁ job₂ h₁ h₂ hactive₁ hactive₂ hsame
    obtain ⟨job, hjob, hnumber, hback⟩ := exists_of_forall₂ hkeeps.slots h₁
    obtain ⟨job', hjob', hnumber', hback'⟩ := exists_of_forall₂ hkeeps.slots h₂
    exact h.distinct i j job job' hjob hjob' (hback hactive₁) (hback' hactive₂)
      (hnumber.symm.trans (hsame.trans hnumber'))

/-- `job_add`: there is no inactive entry, or one of them is taken. -/
theorem jobAdd_cases (jobs : JobTable) (pgid : ℕ) (cmdLine : Option (List Byte))
    (state : JobState) :
    (jobs.jobAdd pgid cmdLine state = (none, jobs) ∧ ∀ job ∈ jobs.slots, job.active = true) ∨
    ∃ slot old jobs', jobs.slots[slot]? = some old ∧ old.active = false ∧
      jobs.jobAdd pgid cmdLine state = (some slot, jobs') ∧
      jobs'.slots = jobs.slots.set slot
        ⟨jobs.nextJobNum, pgid, (cmdLine.getD []).take 511, state, true, []⟩ ∧
      jobs'.nextJobNum = jobs.nextJobNum + 1 := by
  unfold JobTable.jobAdd
  cases hfound : jobs.slots.findIdx? (!·.active) with
  | none =>
    refine .inl ⟨rfl, fun job hjob ↦ ?_⟩
    simpa using List.findIdx?_eq_none_iff.mp hfound job hjob
  | some slot =>
    obtain ⟨hlt, hfree, -⟩ := List.findIdx?_eq_some_iff_getElem.mp hfound
    exact .inr ⟨slot, jobs.slots[slot], _, List.getElem?_eq_getElem hlt, by simpa using hfree,
      rfl, rfl, rfl⟩

theorem Numbered.jobAdd (h : Numbered jobs) (pgid : ℕ) (cmdLine : Option (List Byte))
    (state : JobState) : Numbered (jobs.jobAdd pgid cmdLine state).2 := by
  rcases jobAdd_cases jobs pgid cmdLine state with
    ⟨heq, -⟩ | ⟨slot, old, jobs', hold, -, heq, hs, hn⟩
  · rwa [heq]
  rw [heq]
  change Numbered jobs'
  have hlt : slot < jobs.slots.length := lt_of_getElem? hold
  -- The entries other than the new one are old, with smaller numbers.
  have hcases (i : ℕ) (job : Job) (hjob : jobs'.slots[i]? = some job) :
      (i = slot ∧ job.jobNumber = jobs.nextJobNum) ∨ (i ≠ slot ∧ jobs.slots[i]? = some job) := by
    rw [hs] at hjob
    exact (getElem?_set_cases hjob).imp_left fun ⟨hi, hnew⟩ ↦ ⟨hi, by rw [hnew]⟩
  refine ⟨fun job hjob ↦ ?_, fun job hjob hactive ↦ ?_, fun i j job job' hi hj hai haj hsame ↦ ?_⟩
  · obtain ⟨i, hi⟩ := List.getElem?_of_mem hjob
    rcases hcases i job hi with ⟨-, hnumber⟩ | ⟨-, hi⟩
    · omega
    · have hbelow := h.below job (List.mem_of_getElem? hi)
      omega
  · obtain ⟨i, hi⟩ := List.getElem?_of_mem hjob
    rcases hcases i job hi with ⟨-, hnumber⟩ | ⟨-, hi⟩
    · have hbelow := h.below old (List.mem_of_getElem? hold)
      omega
    · exact h.pos job (List.mem_of_getElem? hi) hactive
  · rcases hcases i job hi with ⟨hi', hnumber⟩ | ⟨-, hi'⟩ <;>
      rcases hcases j job' hj with ⟨hj', hnumber'⟩ | ⟨-, hj'⟩
    · exact hi'.trans hj'.symm
    · have hbelow := h.below job' (List.mem_of_getElem? hj')
      omega
    · have hbelow := h.below job (List.mem_of_getElem? hi')
      omega
    · exact h.distinct i j job job' hi' hj' hai haj hsame

theorem sameNumber_jobAddProc (job : Job) (pid : ℕ+) (cmdName : Option (List Byte)) :
    SameNumber job (JobTable.jobAddProc job pid cmdName) := by
  unfold JobTable.jobAddProc
  split
  · exact .refl job
  · exact ⟨rfl, id⟩

end Numbers

/-! ### The listing -/

section Listing

variable {jobs : JobTable} {job : Job} {number slot p : ℕ} {pid : ℕ+}

theorem jobGetByNumber_eq_some (h : jobs.jobGetByNumber number = some slot) :
    ∃ job, jobs.slots[slot]? = some job ∧ job.active = true ∧ job.jobNumber = number := by
  obtain ⟨hlt, hfound, -⟩ := List.findIdx?_eq_some_iff_getElem.mp h
  simp only [decide_eq_true_eq] at hfound
  exact ⟨jobs.slots[slot], List.getElem?_eq_getElem hlt, hfound⟩

theorem jobGetByPid_eq_some (h : jobs.jobGetByPid pid = some (slot, p)) :
    ∃ job e, jobs.slots[slot]? = some job ∧ job.active = true ∧ job.procs[p]? = some e ∧
      e.pid = pid := by
  obtain ⟨i, hi, h⟩ := Option.bind_eq_some_iff.mp h
  obtain ⟨job, hjob, h⟩ := Option.bind_eq_some_iff.mp h
  obtain ⟨q, hq, ⟨⟩⟩ := Option.map_eq_some_iff.mp h
  obtain ⟨hlt, hactive, -⟩ := List.findIdx?_eq_some_iff_getElem.mp hi
  obtain ⟨hp, hpid, -⟩ := List.findIdx?_eq_some_iff_getElem.mp hq
  obtain rfl : jobs.slots[slot] = job := by
    rw [List.getElem?_eq_getElem hlt] at hjob
    exact Option.some.inj hjob
  simp only [decide_eq_true_eq] at hactive hpid
  exact ⟨_, _, hjob, hactive.1, List.getElem?_eq_getElem hp, hpid⟩

/-- The lookup finds the one active job with the number. -/
theorem Numbered.jobGetByNumber (h : Numbered jobs) (hjob : job ∈ jobs.slots)
    (hactive : job.active = true) :
    ∃ slot, jobs.jobGetByNumber job.jobNumber = some slot ∧ jobs.slots[slot]? = some job := by
  obtain ⟨i, hi⟩ := List.getElem?_of_mem hjob
  cases hfound : jobs.jobGetByNumber job.jobNumber with
  | none =>
    have hnone := List.findIdx?_eq_none_iff.mp hfound job hjob
    simp [hactive] at hnone
  | some slot =>
    obtain ⟨job', hjob', hactive', hsame⟩ := jobGetByNumber_eq_some hfound
    obtain rfl : slot = i := h.distinct slot i job' job hjob' hi hactive' hactive hsame
    exact ⟨slot, rfl, hi⟩

theorem mem_activities (h : Numbered jobs) :
    job ∈ jobs.activities ↔
      job ∈ jobs.slots ∧ job.active = true ∧ job.jobNumber ≤ maxJobs := by
  simp only [JobTable.activities, List.mem_filterMap, List.mem_range, Option.bind_eq_some_iff]
  constructor
  · rintro ⟨i, hi, slot, hslot, hjob⟩
    obtain ⟨job', hjob', hactive, hnumber⟩ := jobGetByNumber_eq_some hslot
    cases hjob.symm.trans hjob'
    exact ⟨List.mem_of_getElem? hjob, hactive, by omega⟩
  · rintro ⟨hjob, hactive, hle⟩
    have hpos := h.pos job hjob hactive
    obtain ⟨slot, hslot, hget⟩ := h.jobGetByNumber hjob hactive
    exact ⟨job.jobNumber - 1, by omega, slot, by rwa [Nat.sub_add_cancel hpos], hget⟩

/-- The listing is in the order of the numbers, without repetitions. -/
theorem activities_sorted (jobs : JobTable) :
    jobs.activities.Pairwise fun job job' ↦ job.jobNumber < job'.jobNumber := by
  refine List.Pairwise.filterMap _ (fun i j hij job hjob job' hjob' ↦ ?_) List.pairwise_lt_range
  obtain ⟨slot, hslot, hget⟩ := Option.bind_eq_some_iff.mp hjob
  obtain ⟨slot', hslot', hget'⟩ := Option.bind_eq_some_iff.mp hjob'
  obtain ⟨found, hfound, -, hnumber⟩ := jobGetByNumber_eq_some hslot
  obtain ⟨found', hfound', -, hnumber'⟩ := jobGetByNumber_eq_some hslot'
  cases hget.symm.trans hfound
  cases hget'.symm.trans hfound'
  omega

end Listing

/-! ### Sequences of operations -/

inductive JobOp
  | add (pgid : ℕ) (cmdLine : Option (List Byte)) (state : JobState)
  | addProc (slot : ℕ) (pid : ℕ+) (cmdName : Option (List Byte))
  | remove (number : ℕ)
  | sigchld (pid : ℕ+) (r : Report)
  | sweep (waits : ℕ → ℕ → WaitResult)
  | resume (number : ℕ) (foreground : Option (Bool × List (ℕ+ × Report)))
  | ping (target : PingTarget) (sig : ℕ) (sent : Bool)

def jobStep (jobs : JobTable) : JobOp → Option JobTable
  | .add pgid cmdLine state => some (jobs.jobAdd pgid cmdLine state).2
  | .addProc slot pid cmdName => some (jobs.modify slot (JobTable.jobAddProc · pid cmdName))
  | .remove number => some (jobs.jobRemove number)
  | .sigchld pid r => some (jobs.sigchldTurn pid r).1
  | .sweep waits => some (jobs.jobSweep waits)
  | .resume number foreground => some (jobs.resume number foreground)
  | .ping target sig sent => some (jobs.ping target sig sent)

/-- The number of the job that a transition adds. -/
def addedNumber (tr : Transition JobTable JobOp) : Option ℕ :=
  match tr.event with
  | .add pgid cmdLine state =>
    (tr.source.jobAdd pgid cmdLine state).1.bind fun slot ↦ tr.target.slots[slot]?.map (·.jobNumber)
  | _ => none

/-- `activities` prints every active job once, in the order of the numbers. -/
def ListsActive (jobs : JobTable) : Prop :=
  (jobs.activities.Pairwise fun job job' ↦ job.jobNumber < job'.jobNumber) ∧
    ∀ job, job ∈ jobs.activities ↔ job ∈ jobs.slots ∧ job.active = true

section Sequences

variable {jobs jobs' : JobTable} {op : JobOp} {l : List (Transition JobTable JobOp)}

/-- An operation keeps the numbers, or it is a `job_add`. -/
theorem jobStep_cases (hstep : jobStep jobs op = some jobs') :
    KeepsNumbers jobs jobs' ∧ addedNumber ⟨jobs, op, jobs'⟩ = none ∨
    ∃ pgid cmdLine state, jobs' = (jobs.jobAdd pgid cmdLine state).2 ∧
      addedNumber ⟨jobs, op, jobs'⟩ = some jobs.nextJobNum ∧
      jobs'.nextJobNum = jobs.nextJobNum + 1 := by
  cases op with
  | add pgid cmdLine state =>
    cases hstep
    rcases jobAdd_cases jobs pgid cmdLine state with
      ⟨heq, -⟩ | ⟨slot, old, jobs', hold, -, heq, hslots, hnext⟩
    · refine .inl ⟨?_, by simp [addedNumber, heq]⟩
      rw [heq]
      exact .refl jobs
    · have hlt : slot < jobs.slots.length := lt_of_getElem? hold
      refine .inr ⟨pgid, cmdLine, state, rfl, ?_, by rw [heq, hnext]⟩
      simp [addedNumber, heq, hslots, hlt]
  | addProc =>
    cases hstep
    exact .inl ⟨keepsNumbers_modify _ _ fun job ↦ sameNumber_jobAddProc job _ _, rfl⟩
  | remove =>
    cases hstep
    exact .inl ⟨keepsNumbers_jobRemove _ _, rfl⟩
  | sigchld =>
    cases hstep
    exact .inl ⟨keepsNumbers_sigchldTurn _ _ _, rfl⟩
  | sweep =>
    cases hstep
    exact .inl ⟨keepsNumbers_jobSweep _ _, rfl⟩
  | resume =>
    cases hstep
    exact .inl ⟨keepsNumbers_resume _ _ _, rfl⟩
  | ping =>
    cases hstep
    exact .inl ⟨keepsNumbers_ping _ _ _ _, rfl⟩

theorem numbered_of_path (hpath : Path jobStep JobTable.empty l jobs) : Numbered jobs := by
  refine hpath.preserves (I := Numbered) (fun jobs op jobs' hstep h ↦ ?_) numbered_empty
  rcases jobStep_cases hstep with ⟨hkeeps, -⟩ | ⟨pgid, cmdLine, state, rfl, -⟩
  · exact h.keeps hkeeps
  · exact h.jobAdd pgid cmdLine state

/-- The numbers are given out in increasing order. -/
theorem addedNumbers_of_path (hpath : Path jobStep JobTable.empty l jobs) :
    (l.filterMap addedNumber).Pairwise (· < ·) ∧
      ∀ number ∈ l.filterMap addedNumber, number < jobs.nextJobNum := by
  refine hpath.history_rule (J := fun l jobs ↦ (l.filterMap addedNumber).Pairwise (· < ·) ∧
    ∀ number ∈ l.filterMap addedNumber, number < jobs.nextJobNum) (by simp) ?_
  rintro l jobs op jobs' - hstep ⟨hsorted, hbelow⟩
  rw [List.filterMap_append]
  rcases jobStep_cases hstep with ⟨hkeeps, hnone⟩ | ⟨_, _, _, -, hadded, hnext⟩
  · simp only [List.filterMap_cons, hnone, List.filterMap_nil, List.append_nil, hkeeps.next]
    exact ⟨hsorted, hbelow⟩
  · simp only [List.filterMap_cons, hadded, List.filterMap_nil, hnext]
    refine ⟨List.pairwise_append.mpr ⟨hsorted, by simp, fun a ha b hb ↦ ?_⟩, fun a ha ↦ ?_⟩
    · obtain rfl := List.mem_singleton.mp hb
      exact hbelow a ha
    · rcases List.mem_append.mp ha with ha | ha
      · exact Nat.lt_succ_of_lt (hbelow a ha)
      · obtain rfl := List.mem_singleton.mp ha
        exact Nat.lt_succ_self _

/-- After any sequence of operations, active jobs have different numbers below `g_next_job_num`, and
no number has been given twice; `activities` prints every active job exactly if none of them has a
number above `MAX_JOBS`. -/
theorem jobNumbering (hpath : Path jobStep JobTable.empty l jobs) :
    (∀ (i j : ℕ) (job job' : Job), jobs.slots[i]? = some job → jobs.slots[j]? = some job' →
      job.active = true → job'.active = true → job.jobNumber = job'.jobNumber → i = j) ∧
    (∀ job ∈ jobs.slots, job.jobNumber < jobs.nextJobNum) ∧
    (l.filterMap addedNumber).Pairwise (· < ·) ∧
    (∀ number ∈ l.filterMap addedNumber, number < jobs.nextJobNum) ∧
    (ListsActive jobs ↔ ∀ job ∈ jobs.slots, job.active = true → job.jobNumber ≤ maxJobs) := by
  have hnumbered := numbered_of_path hpath
  obtain ⟨hsorted, hbelow⟩ := addedNumbers_of_path hpath
  refine ⟨hnumbered.distinct, hnumbered.below, hsorted, hbelow, fun hlists job hjob hactive ↦ ?_,
    fun hsmall ↦ ⟨activities_sorted jobs, fun job ↦ ?_⟩⟩
  · exact ((mem_activities hnumbered).mp ((hlists.2 job).mpr ⟨hjob, hactive⟩)).2.2
  · rw [mem_activities hnumbered]
    exact ⟨fun h ↦ ⟨h.1, h.2.1⟩, fun h ↦ ⟨h.1, h.2, hsmall job h.1 h.2⟩⟩

end Sequences

/-- `count` jobs are added and end one after the other, and one more is added. -/
def shortJobs (count : ℕ) : List JobOp :=
  ((List.range count).flatMap fun i ↦ [.add 7 none .running, .remove (i + 1)]) ++
    [.add 7 none .running]

def shortJobsRun (count : ℕ) : List (Transition JobTable JobOp) × JobTable :=
  replay jobStep JobTable.empty (shortJobs count)

theorem jobNumbering_shortJobs : ListsActive (shortJobsRun 2).2 ∧
    (shortJobsRun 2).2.activities.map (·.jobNumber) = [3] := by
  have hpath : Path jobStep JobTable.empty (shortJobsRun 2).1 (shortJobsRun 2).2 := path_replay _ _
  have hlists := (jobNumbering hpath).2.2.2.2
  exact ⟨hlists.mpr (by decide +kernel), by decide +kernel⟩

/-- After 256 jobs that have ended, the only active job is not printed. -/
theorem activities_misses_job :
    Path jobStep JobTable.empty (shortJobsRun 256).1 (shortJobsRun 256).2 ∧
    ((shortJobsRun 256).2.slots.filter (·.active)).map (·.jobNumber) = [257] ∧
    (shortJobsRun 256).2.activities = [] := by
  have hpath : Path jobStep JobTable.empty (shortJobsRun 256).1 (shortJobsRun 256).2 :=
    path_replay _ _
  have hactive : ((shortJobsRun 256).2.slots.filter (·.active)).map (·.jobNumber) = [257] := by
    decide +kernel
  refine ⟨hpath, hactive, List.eq_nil_iff_forall_not_mem.mpr fun job hjob ↦ ?_⟩
  obtain ⟨hmem, hjobActive, hsmall⟩ := (mem_activities (numbered_of_path hpath)).mp hjob
  have hnumber : job.jobNumber ∈ ((shortJobsRun 256).2.slots.filter (·.active)).map (·.jobNumber) :=
    List.mem_map_of_mem (List.mem_filter.mpr ⟨hmem, hjobActive⟩)
  rw [hactive, List.mem_singleton] at hnumber
  rw [hnumber] at hsmall
  exact absurd hsmall (by decide)

end Irish.Shell
