import Mathlib.Data.PNat.Defs
import Irish.Shell.Lexer

/-!
# The job table

`job_add` and `job_add_proc` of `src/term_control.c`, and the group that `kill` reaches through the
`pgid` of an entry.
-/

set_option autoImplicit false

namespace Irish.Shell

def Byte.percent : Byte := 37

def Byte.questionMark : Byte := 63

/-- `MAX_JOBS`. -/
def maxJobs : ℕ := 256

/-- `MAX_PROCS_PER_JOB`. -/
def maxProcsPerJob : ℕ := 32

inductive JobState
  | running
  | stopped
deriving DecidableEq, Repr

structure JobProc where
  pid : ℕ+
  cmdName : List Byte
  exited : Bool
deriving DecidableEq

/-- `Job`; `num_procs` is the length of `procs`. -/
structure Job where
  jobNumber : ℕ
  pgid : ℕ
  cmdLine : List Byte
  state : JobState
  active : Bool
  procs : List JobProc
deriving DecidableEq

/-- `g_jobs` and `g_next_job_num`. -/
structure JobTable where
  slots : List Job
  nextJobNum : ℕ
  length_slots : slots.length = maxJobs

/-- A leading `%` of a name is dropped. -/
def stripPercent : List Byte → List Byte
  | [] => []
  | c :: name => if c = Byte.percent then name else c :: name

namespace JobTable

/-- An entry as `memset` leaves it. -/
def emptyJob : Job := ⟨0, 0, [], .running, false, []⟩

def empty : JobTable := ⟨List.replicate maxJobs emptyJob, 1, List.length_replicate⟩

/-- `job_add`: the index of the entry that is taken. `strncpy` copies at most 511 bytes. -/
def jobAdd (jobs : JobTable) (pgid : ℕ) (cmdLine : Option (List Byte)) (state : JobState) :
    Option ℕ × JobTable :=
  match jobs.slots.findIdx? (!·.active) with
  | none => (none, jobs)
  | some slot =>
    (some slot,
      { slots := jobs.slots.set slot
          ⟨jobs.nextJobNum, pgid, (cmdLine.getD []).take 511, state, true, []⟩
        nextJobNum := jobs.nextJobNum + 1
        length_slots := by rw [List.length_set, jobs.length_slots] })

/-- `job_add_proc`: a full entry stays as it is; `strncpy` copies at most 127 bytes. -/
def jobAddProc (job : Job) (pid : ℕ+) (cmdName : Option (List Byte)) : Job :=
  if maxProcsPerJob ≤ job.procs.length then job
  else
    let name := (cmdName.map stripPercent).getD [Byte.questionMark]
    { job with procs := job.procs ++ [⟨pid, name.take 127, false⟩] }

/-- The calls of `job_add_proc` on one entry. -/
def addProcs (jobs : JobTable) (slot : ℕ) (procs : List (ℕ+ × Option (List Byte))) : JobTable where
  slots := jobs.slots.modify slot fun job ↦
    procs.foldl (fun job proc ↦ jobAddProc job proc.1 proc.2) job
  nextJobNum := jobs.nextJobNum
  length_slots := by rw [List.length_modify, jobs.length_slots]

@[simp] theorem pgid_jobAddProc (job : Job) (pid : ℕ+) (cmdName : Option (List Byte)) :
    (jobAddProc job pid cmdName).pgid = job.pgid := by
  unfold jobAddProc
  split <;> rfl

theorem pgid_foldl_jobAddProc (procs : List (ℕ+ × Option (List Byte))) (job : Job) :
    (procs.foldl (fun job proc ↦ jobAddProc job proc.1 proc.2) job).pgid = job.pgid := by
  induction procs generalizing job with
  | nil => rfl
  | cons _ _ ih => rw [List.foldl_cons, ih, pgid_jobAddProc]

variable {jobs : JobTable} {pgid slot : ℕ} {cmdLine : Option (List Byte)} {state : JobState}
  {job : Job}

/-- The entry that `job_add` takes has the group it is given. -/
theorem exists_job_of_jobAdd (h : (jobs.jobAdd pgid cmdLine state).1 = some slot) :
    ∃ job, (jobs.jobAdd pgid cmdLine state).2.slots[slot]? = some job ∧ job.pgid = pgid := by
  unfold jobAdd at h ⊢
  cases hfound : jobs.slots.findIdx? (!·.active) with
  | none =>
    rw [hfound] at h
    cases h
  | some =>
    rw [hfound] at h
    cases h
    have hlt : slot < jobs.slots.length := (List.findIdx?_eq_some_iff_getElem.mp hfound).1
    exact ⟨_, List.getElem?_set_self hlt, rfl⟩

theorem exists_job_of_addProcs (h : jobs.slots[slot]? = some job)
    (procs : List (ℕ+ × Option (List Byte))) :
    ∃ job', (jobs.addProcs slot procs).slots[slot]? = some job' ∧ job'.pgid = job.pgid :=
  ⟨_, by simp [addProcs, h], pgid_foldl_jobAddProc procs job⟩

theorem jobAdd_isSome (jobs : JobTable) (pgid : ℕ) (cmdLine : Option (List Byte))
    (state : JobState) : (jobs.jobAdd pgid cmdLine state).1.isSome = true ↔
      ∃ job ∈ jobs.slots, job.active = false := by
  unfold jobAdd
  cases hfound : jobs.slots.findIdx? (!·.active) with
  | none => simpa using List.findIdx?_eq_none_iff.mp hfound
  | some =>
    obtain ⟨hlt, hfree, -⟩ := List.findIdx?_eq_some_iff_getElem.mp hfound
    simpa using ⟨_, List.getElem_mem hlt, by simpa using hfree⟩

end JobTable

/-- The process group that `kill(-pgid, sig)` signals: `kill(0, sig)` goes to the group of the
caller. -/
def killGroup (shellPgid : ℕ+) (pgid : ℕ) : ℕ := if pgid = 0 then shellPgid else pgid

end Irish.Shell
