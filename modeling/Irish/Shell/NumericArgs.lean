import Irish.Library.FormattedIO
import Irish.Shell.JobControl

/-!
# The numeric arguments of `ping` and `resume`

`ping_builtin` of `src/ping.c` and `resume_builtin` of `src/resume.c`. Both read their numbers with
`strtol`, look at the sign and at the bytes behind the number, and then cast the `long` to `int`,
`pid_t` or `unsigned int`. What `waitpid` and `kill` return and what happens while `resume` waits
are arguments.

`ping`'s signal is always the typed number modulo 64. A job number or pid below `2 ^ 31` and a
timeout below `2 ^ 32` are taken for what they are; a larger one that is accepted never is
(`numericArgs_exact_iff`), and there are larger ones that are accepted (`numericArgs_narrowed`).
-/

set_option autoImplicit false

namespace Irish.Shell

open Library

/-! ### Numbers -/

/-- The test `*endptr != '\0' || value <= 0` after a call of `strtol`: the value, if it passes. -/
def positiveLong (s : List Byte) : Option Int64 :=
  if (strtol s).2 ≠ [] ∨ (strtol s).1 ≤ 0 then none else some (strtol s).1

/-- `is_valid_signal_number`: what it stores, if it returns 1. -/
def isValidSignalNumber : List Byte → Option Int64
  | [] => none
  | c :: rest =>
    if c = 45 then none
    else if c = 43 ∧ rest = [] then none
    else if (if c = 43 then rest else c :: rest).all isDigit then
      if strtolRange (c :: rest) ∨ (strtol (c :: rest)).2 ≠ [] ∨ (strtol (c :: rest)).1 < 0 then
        none
      else some (strtol (c :: rest)).1
    else none

variable {s target : List Byte} {v : Int64}

/-- The test passes for the strings that spell a positive integer. -/
theorem positiveLong_iff : positiveLong s = some v ↔
    ∃ n : ℕ, integerValue s = some (n : ℤ) ∧ 0 < n ∧ v = closestLong n := by
  constructor
  · intro h
    unfold positiveLong at h
    obtain ⟨hpass, ⟨⟩⟩ := Option.ite_none_left_eq_some.mp h
    rw [not_or, not_not, Int64.le_iff_toInt_le, Int64.toInt_zero, not_le] at hpass
    obtain ⟨hend, hpos⟩ := hpass
    have hne : s ≠ [] := by
      rintro rfl
      exact absurd hpos (by decide)
    obtain ⟨n, hn, hvalue, -⟩ := toInt_strtol hne hend
    have hcast : ((n.toNat : ℕ) : ℤ) = n := by omega
    exact ⟨n.toNat, by rw [hn, hcast], by omega, by rw [hcast, strtol_of_integerValue hn]⟩
  · rintro ⟨n, hn, hpos, rfl⟩
    have hvalue := toInt_closestLong n
    rw [positiveLong, strtol_of_integerValue hn, if_neg]
    rw [not_or, not_not, Int64.le_iff_toInt_le, Int64.toInt_zero, not_le]
    exact ⟨rfl, by dsimp only; omega⟩

/-- What is asked of the `long` is asked of the closest one to a positive number. -/
theorem exists_positiveLong (s : List Byte) (P : Int64 → Prop) :
    (∃ v, positiveLong s = some v ∧ P v) ↔
      ∃ n, integerValue s = some n ∧ 0 < n ∧ P (closestLong n) := by
  constructor
  · rintro ⟨v, hv, hP⟩
    obtain ⟨n, hn, hpos, rfl⟩ := positiveLong_iff.mp hv
    exact ⟨n, hn, by omega, hP⟩
  · rintro ⟨n, hn, hpos, hP⟩
    obtain ⟨m, rfl⟩ := Int.eq_ofNat_of_zero_le (Int.le_of_lt hpos)
    exact ⟨_, positiveLong_iff.mpr ⟨m, hn, by omega, rfl⟩, hP⟩

theorem isValidSignalNumber_eq_some (h : isValidSignalNumber s = some v) :
    ∃ n : ℕ, integerValue s = some (n : ℤ) ∧ v.toInt = n := by
  unfold isValidSignalNumber at h
  split at h
  · cases h
  simp only [Option.ite_none_left_eq_some, Option.ite_none_right_eq_some, Option.some.injEq] at h
  obtain ⟨-, -, -, hpass, rfl⟩ := h
  rw [not_or, not_or, not_not, Int64.lt_iff_toInt_lt, Int64.toInt_zero, Bool.not_eq_true] at hpass
  obtain ⟨hrange, hend, hnonneg⟩ := hpass
  obtain ⟨n, hn, -, hvalue⟩ := toInt_strtol (List.cons_ne_nil _ _) hend
  have hv := hvalue hrange
  exact ⟨n.toNat, by rw [hn]; congr 1; omega, by omega⟩

/-! ### `ping` -/

/-- What `kill` returns: 0, or -1 with `errno` `ESRCH` or another one. -/
inductive KillResult
  | ok
  | noProcess
  | failed
deriving DecidableEq, Repr

/-- The line that `ping` prints. -/
inductive PingLine
  /-- `ping: invalid syntax` -/
  | invalidSyntax
  /-- `ping: no such process found` -/
  | noSuchProcess
  /-- `Sent signal %s to %s` -/
  | sent (signal target : List Byte)
deriving DecidableEq, Repr

/-- A call of `ping_builtin`: what it returns and prints, the entry it has found, the arguments of
its calls of `kill`, and the job table afterwards. -/
structure PingRun where
  status : ℤ
  line : PingLine
  slot : Option ℕ
  kills : List (ℤ × ℕ)
  jobs : JobTable

/-- `job_get_by_number` on an `int`, as the index of the entry and the entry; numbers of jobs are
not negative. -/
def JobTable.jobGetByInt (jobs : JobTable) (number : Int32) : Option (ℕ × Job) :=
  if number.toInt < 0 then none
  else (jobs.jobGetByNumber number.toInt.toNat).bind fun slot ↦
    jobs.slots[slot]?.map fun job ↦ (slot, job)

/-- The first argument of the calls of `kill` with which `ping` signals a job: the group, and the
processes that have not exited where that fails. -/
def pingTargets (kill : ℤ → KillResult) (job : Job) : List ℤ :=
  let group := if 0 < job.pgid then [-(job.pgid : ℤ)] else []
  if group.any (kill · = .ok) then group
  else group ++ (job.procs.filter (!·.exited)).map fun e ↦ ((e.pid : ℕ) : ℤ)

/-- `ping` with `%number`, after `job_sweep`. -/
def pingJob (number target signal : List Byte) (sig : ℕ) (kill : ℤ → KillResult)
    (jobs : JobTable) : PingRun :=
  if number = [] ∨ number.head? = some 45 then ⟨-1, .noSuchProcess, none, [], jobs⟩
  else
    match positiveLong number with
    | none => ⟨-1, .noSuchProcess, none, [], jobs⟩
    | some jobNum =>
      match jobs.jobGetByInt jobNum.toInt32 with
      | none => ⟨-1, .noSuchProcess, none, [], jobs⟩
      | some (slot, job) =>
        ⟨0, .sent signal target, some slot, (pingTargets kill job).map fun pid ↦ (pid, sig),
          jobs.ping (.job jobNum.toInt32.toInt.toNat) sig true⟩

/-- The process that `ping` finds for a `pid_t`, and its entry; pids of processes are positive. -/
def JobTable.pingProcessInt (jobs : JobTable) (pid : Int32) : Option (ℕ+ × ℕ) :=
  if h : 0 < pid.toInt.toNat then
    (jobs.pingProcess ⟨pid.toInt.toNat, h⟩).map fun found ↦ (⟨pid.toInt.toNat, h⟩, found.1)
  else none

/-- `ping` with a pid, after `job_sweep`. -/
def pingPid (target signal : List Byte) (sig : ℕ) (kill : ℤ → KillResult) (jobs : JobTable) :
    PingRun :=
  match positiveLong target with
  | none => ⟨-1, .noSuchProcess, none, [], jobs⟩
  | some pidVal =>
    match jobs.pingProcessInt pidVal.toInt32 with
    | none => ⟨-1, .noSuchProcess, none, [], jobs⟩
    | some (pid, slot) =>
      if kill (pid : ℕ) = .noProcess then
        ⟨-1, .noSuchProcess, some slot, [((pid : ℕ), sig)], jobs⟩
      else
        ⟨0, .sent signal target, some slot, [((pid : ℕ), sig)], jobs.ping (.process pid) sig true⟩

/-- `ping_builtin`. -/
def pingBuiltin (argv : List (List Byte)) (waits : ℕ → ℕ → WaitResult) (kill : ℤ → KillResult)
    (jobs : JobTable) : PingRun :=
  match argv with
  | [_, target, signal] =>
    match isValidSignalNumber signal with
    | none => ⟨-1, .invalidSyntax, none, [], jobs⟩
    | some sigNum =>
      let sig := (sigNum % 64).toInt32.toInt.toNat
      match target with
      | [] => pingPid target signal sig kill (jobs.jobSweep waits)
      | c :: number =>
        if c = Byte.percent then pingJob number target signal sig kill (jobs.jobSweep waits)
        else pingPid target signal sig kill (jobs.jobSweep waits)
  | _ => ⟨-1, .invalidSyntax, none, [], jobs⟩

/-- The calls of `kill` for a job with a signal: one for its group, and one for each of its
processes that have not exited if there is no group or the first call fails. -/
def JobSignalled (kill : ℤ → KillResult) (job : Job) (sig : ℕ) (kills : List (ℤ × ℕ)) : Prop :=
  let processes := (job.procs.filter (!·.exited)).map fun e ↦ (((e.pid : ℕ) : ℤ), sig)
  (job.pgid = 0 ∧ kills = processes) ∨
  (0 < job.pgid ∧ kill (-(job.pgid : ℤ)) = .ok ∧ kills = [(-(job.pgid : ℤ), sig)]) ∨
  (0 < job.pgid ∧ kill (-(job.pgid : ℤ)) ≠ .ok ∧ kills = (-(job.pgid : ℤ), sig) :: processes)

/-- `ping` acts on nothing, or it sends the typed signal modulo 64 to the job or process that its
first argument is read as. -/
def PingReads (reads : List Byte → ℤ → Prop) (argv : List (List Byte))
    (waits : ℕ → ℕ → WaitResult) (kill : ℤ → KillResult) (jobs : JobTable) (r : PingRun) : Prop :=
  (r.status = -1 ∧ r.slot = none ∧ r.kills = [] ∧ (r.jobs = jobs ∨ r.jobs = jobs.jobSweep waits)) ∨
  ∃ (name target signal : List Byte) (n slot : ℕ) (job : Job),
    argv = [name, target, signal] ∧ integerValue signal = some (n : ℤ) ∧ r.slot = some slot ∧
    (jobs.jobSweep waits).slots[slot]? = some job ∧ job.active = true ∧
    (r.jobs = jobs.jobSweep waits ∨ ∃ state, signalState (n % 64) = some state ∧
      r.jobs = (jobs.jobSweep waits).modify slot (·.setState state)) ∧
    ((∃ number, target = Byte.percent :: number ∧ reads number job.jobNumber ∧
        JobSignalled kill job (n % 64) r.kills) ∨
      (target.head? ≠ some Byte.percent ∧ ∃ e ∈ job.procs, e.exited = false ∧
        reads target (e.pid : ℕ) ∧ r.kills = [(((e.pid : ℕ) : ℤ), n % 64)]))

/-- The number of a job or process is the one that is typed. -/
def PingExact : List (List Byte) → (ℕ → ℕ → WaitResult) → (ℤ → KillResult) → JobTable → PingRun →
    Prop :=
  PingReads fun s k ↦ integerValue s = some k

/-! ### `resume` -/

/-- A line that `resume` prints. -/
inductive ResumeLine
  /-- `resume: invalid syntax` -/
  | invalidSyntax
  /-- `resume: no such job` -/
  | noSuchJob
  /-- `[%d] + Running    %s` -/
  | running (number : ℕ) (cmdLine : List Byte)
  /-- `%s` -/
  | foreground (cmdLine : List Byte)
  /-- `resume: job timed out` -/
  | timedOut
  /-- `[%d] + Stopped    %s` -/
  | stopped (number : ℕ) (cmdLine : List Byte)
deriving DecidableEq, Repr

/-- How the loop of `resume ... fg` ends, on the arguments of `resumeWait`. -/
inductive ResumeEnd
  | timedOut
  | stopped
  | other
deriving DecidableEq, Repr

def resumeEnd (timedOut : Bool) : List (ℕ+ × Report) → Job → ResumeEnd
  | [], _ => if timedOut then .timedOut else .other
  | (pid, r) :: reports, job =>
    if job.allExited then .other
    else
      match r with
      | .noticed .stopped => .stopped
      | .noticed .continued => resumeEnd timedOut reports job
      | .ended _ => resumeEnd timedOut reports (resumeMark pid job)

/-- `fg` -/
def fgMode : List Byte := [102, 103]

/-- `bg` -/
def bgMode : List Byte := [98, 103]

/-- `--timeout` -/
def timeoutOption : List Byte := [45, 45, 116, 105, 109, 101, 111, 117, 116]

/-- `job_num`, `is_fg` and `timeout_sec`. -/
structure ResumeArgs where
  jobNum : Int64
  isFg : Bool
  timeoutSec : Int64

/-- `resume` up to `job_sweep`. -/
def resumeArgs : List (List Byte) → Option ResumeArgs
  | _ :: (c :: number) :: mode :: rest =>
    if c ≠ Byte.percent then none
    else (positiveLong number).bind fun jobNum ↦
      if mode = fgMode then
        match rest with
        | [] => some ⟨jobNum, true, 0⟩
        | [option, timeout] =>
          if option = timeoutOption then (positiveLong timeout).map fun t ↦ ⟨jobNum, true, t⟩
          else none
        | _ => none
      else if mode = bgMode ∧ rest = [] then some ⟨jobNum, false, 0⟩
      else none
  | _ => none

/-- A call of `resume_builtin`: what it returns and prints, the entry it has found, the arguments of
its calls of `kill` and of the call of `alarm` before its loop, and the job table afterwards. -/
structure ResumeRun where
  status : ℤ
  lines : List ResumeLine
  slot : Option ℕ
  kills : List (ℤ × ℕ)
  alarm : Option UInt32
  jobs : JobTable

/-- `resume_builtin`; `foreground` tells from the alarm what happens while it waits. -/
def resumeBuiltin (argv : List (List Byte)) (waits : ℕ → ℕ → WaitResult)
    (foreground : Option UInt32 → Bool × List (ℕ+ × Report)) (jobs : JobTable) : ResumeRun :=
  match resumeArgs argv with
  | none => ⟨-1, [.invalidSyntax], none, [], none, jobs⟩
  | some args =>
    match (jobs.jobSweep waits).jobGetByInt args.jobNum.toInt32 with
    | none => ⟨-1, [.noSuchJob], none, [], none, jobs.jobSweep waits⟩
    | some (slot, job) =>
      let number := args.jobNum.toInt32.toInt.toNat
      if args.isFg then
        let alarm := if 0 < args.timeoutSec then some args.timeoutSec.toUInt64.toUInt32 else none
        let (fired, reports) := foreground alarm
        let ending := resumeEnd fired reports (job.setState .running)
        ⟨0, .foreground job.cmdLine ::
            match ending with
            | .timedOut => [.timedOut]
            | .stopped => [.stopped job.jobNumber job.cmdLine]
            | .other => [],
          some slot,
          (-(job.pgid : ℤ), 18) :: if ending = .timedOut then [(-(job.pgid : ℤ), 15)] else [],
          alarm, (jobs.jobSweep waits).resume number (some (fired, reports))⟩
      else
        ⟨0, [.running job.jobNumber job.cmdLine], some slot, [(-(job.pgid : ℤ), 18)], none,
          (jobs.jobSweep waits).resume number none⟩

/-- `resume` acts on nothing, or it continues the job that its first argument is read as, with an
alarm for what the timeout is read as. The group of the job is sent `SIGCONT`, and `SIGTERM` when
the time is over. -/
def ResumeReads (reads readsTimeout : List Byte → ℤ → Prop) (argv : List (List Byte))
    (waits : ℕ → ℕ → WaitResult) (jobs : JobTable) (r : ResumeRun) : Prop :=
  (r.status = -1 ∧ r.slot = none ∧ r.kills = [] ∧ r.alarm = none ∧
    (r.jobs = jobs ∨ r.jobs = jobs.jobSweep waits)) ∨
  ∃ (name number mode : List Byte) (rest : List (List Byte)) (slot : ℕ) (job : Job),
    argv = name :: (Byte.percent :: number) :: mode :: rest ∧ r.slot = some slot ∧
    (jobs.jobSweep waits).slots[slot]? = some job ∧ job.active = true ∧
    reads number job.jobNumber ∧
    (r.kills = [(-(job.pgid : ℤ), 18)] ∨
      r.kills = [(-(job.pgid : ℤ), 18), (-(job.pgid : ℤ), 15)]) ∧
    (∀ i, i ≠ slot → r.jobs.slots[i]? = (jobs.jobSweep waits).slots[i]?) ∧
    (rest = [] ∧ r.alarm = none ∨ ∃ timeout seconds, rest = [timeoutOption, timeout] ∧
      r.alarm = some seconds ∧ readsTimeout timeout (seconds.toNat : ℤ))

/-- The number of the job is the one that is typed, and so is the timeout. -/
def ResumeExact : List (List Byte) → (ℕ → ℕ → WaitResult) → JobTable → ResumeRun → Prop :=
  ResumeReads (fun s k ↦ integerValue s = some k) fun s k ↦ integerValue s = some k

/-! ### How they read their arguments -/

/-- The `long` that `strtol` gives for a number, as an `int`. -/
def ReadsInt (s : List Byte) (k : ℤ) : Prop :=
  ∃ n : ℕ, integerValue s = some (n : ℤ) ∧ (closestLong n).toInt32.toInt = k

/-- The `long` that `strtol` gives for a number, as an `unsigned int`. -/
def ReadsUnsigned (s : List Byte) (k : ℤ) : Prop :=
  ∃ n : ℕ, integerValue s = some (n : ℤ) ∧ ((closestLong n).toUInt64.toUInt32.toNat : ℤ) = k

section Reading

variable {jobs : JobTable} {argv : List (List Byte)} {waits : ℕ → ℕ → WaitResult}
  {number pid : Int32} {slot i n : ℕ} {job : Job} {found : ℕ+} {signal : List Byte}
  {args : ResumeArgs}

theorem jobGetByInt_eq_some (h : jobs.jobGetByInt number = some (slot, job)) :
    jobs.jobGetByNumber number.toInt.toNat = some slot ∧ jobs.slots[slot]? = some job ∧
      job.active = true ∧ number.toInt = job.jobNumber := by
  unfold JobTable.jobGetByInt at h
  split_ifs at h with hneg
  obtain ⟨slot', hslot, h⟩ := Option.bind_eq_some_iff.mp h
  obtain ⟨job', hjob, ⟨⟩⟩ := Option.map_eq_some_iff.mp h
  obtain ⟨found, hfound, hactive, hnumber⟩ := jobGetByNumber_eq_some hslot
  cases hjob.symm.trans hfound
  exact ⟨hslot, hjob, hactive, by omega⟩

theorem pingProcessInt_eq_some (h : jobs.pingProcessInt pid = some (found, slot)) :
    (jobs.pingProcess found).map Prod.fst = some slot ∧ pid.toInt = (found : ℕ) ∧
      ∃ job e, jobs.slots[slot]? = some job ∧ job.active = true ∧ e ∈ job.procs ∧
        e.exited = false ∧ e.pid = found := by
  unfold JobTable.pingProcessInt at h
  split_ifs at h with hpos
  obtain ⟨⟨slot', p⟩, hping, ⟨⟩⟩ := Option.map_eq_some_iff.mp h
  obtain ⟨hpid, hexited⟩ := Option.filter_eq_some_iff.mp hping
  obtain ⟨job, e, hjob, hactive, he, hepid⟩ := jobGetByPid_eq_some hpid
  refine ⟨by rw [hping]; rfl, ?_, job, e, hjob, hactive, List.mem_of_getElem? he, ?_, hepid⟩
  · rw [PNat.mk_coe]
    omega
  · simpa [hjob, he] using hexited

theorem jobSignalled_pingTargets (kill : ℤ → KillResult) (job : Job) (sig : ℕ) :
    JobSignalled kill job sig ((pingTargets kill job).map fun pid ↦ (pid, sig)) := by
  unfold JobSignalled pingTargets
  rcases Nat.eq_zero_or_pos job.pgid with hzero | hpos
  · exact .inl ⟨hzero, by simp [hzero]⟩
  · by_cases hok : kill (-(job.pgid : ℤ)) = .ok
    · exact .inr (.inl ⟨hpos, hok, by simp [hpos, hok]⟩)
    · exact .inr (.inr ⟨hpos, hok, by simp [hpos, hok]⟩)

/-- `ping` writes the state of the entry that it has found, or nothing. -/
theorem ping_cases (target : PingTarget) (sig : ℕ)
    (hjob : ∀ number, target = .job number → jobs.jobGetByNumber number = some slot)
    (hprocess : ∀ pid, target = .process pid → (jobs.pingProcess pid).map Prod.fst = some slot) :
    jobs.ping target sig true = jobs ∨ ∃ state, signalState sig = some state ∧
      jobs.ping target sig true = jobs.modify slot (·.setState state) := by
  have heq : jobs.ping target sig true =
      ((signalState sig).elim jobs fun state ↦ jobs.modify slot (·.setState state)) := by
    cases target with
    | job number =>
      simp only [JobTable.ping, hjob number rfl]
      cases signalState sig <;> rfl
    | process pid =>
      simp only [JobTable.ping, if_true, hprocess pid rfl]
      cases signalState sig <;> rfl
  rw [heq]
  cases signalState sig with
  | none => exact .inl rfl
  | some state => exact .inr ⟨state, rfl, rfl⟩

theorem getElem?_resume_of_ne {number : ℕ} (hslot : jobs.jobGetByNumber number = some slot)
    (hi : i ≠ slot) (foreground : Option (Bool × List (ℕ+ × Report))) :
    (jobs.resume number foreground).slots[i]? = jobs.slots[i]? := by
  unfold JobTable.resume
  rw [hslot]
  cases foreground <;> simp [JobTable.modify, Ne.symm hi]

theorem readsInt_of_positiveLong (h : positiveLong s = some v) : ReadsInt s v.toInt32.toInt := by
  obtain ⟨n, hn, -, rfl⟩ := positiveLong_iff.mp h
  exact ⟨n, hn, rfl⟩

/-- `(int)(sig_num % 64)`. -/
theorem signal_eq (hv : v.toInt = n) : (v % 64).toInt32.toInt.toNat = n % 64 := by
  have hmod : (v % 64).toInt = (n : ℤ) % 64 := by
    rw [Int64.toInt_mod, hv]
    exact Int.tmod_eq_emod_of_nonneg (by omega)
  rw [Int64.toInt_toInt32, hmod, Int.bmod_eq_of_le (by omega) (by omega)]
  omega

theorem pingReads_pingJob (name number : List Byte) (hsignal : integerValue signal = some (n : ℤ))
    (waits : ℕ → ℕ → WaitResult) (kill : ℤ → KillResult) (jobs : JobTable) :
    PingReads ReadsInt [name, Byte.percent :: number, signal] waits kill jobs
      (pingJob number (Byte.percent :: number) signal (n % 64) kill (jobs.jobSweep waits)) := by
  unfold pingJob
  split
  · exact .inl ⟨rfl, rfl, rfl, .inr rfl⟩
  split
  · exact .inl ⟨rfl, rfl, rfl, .inr rfl⟩
  rename_i jobNum hlong
  split
  · exact .inl ⟨rfl, rfl, rfl, .inr rfl⟩
  rename_i slot job hfound
  obtain ⟨hslot, hjob, hactive, hnumber⟩ := jobGetByInt_eq_some hfound
  have hstate := ping_cases (.job jobNum.toInt32.toInt.toNat) (n % 64)
    (fun number heq ↦ by cases heq; exact hslot) nofun
  refine .inr ⟨name, _, signal, n, slot, job, rfl, hsignal, rfl, hjob, hactive, hstate,
    .inl ⟨number, rfl, ?_, jobSignalled_pingTargets kill job (n % 64)⟩⟩
  rw [← hnumber]
  exact readsInt_of_positiveLong hlong

theorem pingReads_pingPid (name : List Byte) (htarget : target.head? ≠ some Byte.percent)
    (hsignal : integerValue signal = some (n : ℤ)) (waits : ℕ → ℕ → WaitResult)
    (kill : ℤ → KillResult) (jobs : JobTable) :
    PingReads ReadsInt [name, target, signal] waits kill jobs
      (pingPid target signal (n % 64) kill (jobs.jobSweep waits)) := by
  unfold pingPid
  split
  · exact .inl ⟨rfl, rfl, rfl, .inr rfl⟩
  rename_i pidVal hlong
  split
  · exact .inl ⟨rfl, rfl, rfl, .inr rfl⟩
  rename_i pid slot hfound
  obtain ⟨hslot, hpid, job, e, hjob, hactive, he, hexited, rfl⟩ := pingProcessInt_eq_some hfound
  have hreads : ReadsInt target ((e.pid : ℕ) : ℤ) := by
    rw [← hpid]
    exact readsInt_of_positiveLong hlong
  have hstate := ping_cases (.process e.pid) (n % 64) nofun
    fun pid heq ↦ by cases heq; exact hslot
  split
  · exact .inr ⟨name, target, signal, n, slot, job, rfl, hsignal, rfl, hjob, hactive, .inl rfl,
      .inr ⟨htarget, e, he, hexited, hreads, rfl⟩⟩
  · exact .inr ⟨name, target, signal, n, slot, job, rfl, hsignal, rfl, hjob, hactive, hstate,
      .inr ⟨htarget, e, he, hexited, hreads, rfl⟩⟩

theorem pingReads_pingBuiltin (argv : List (List Byte)) (waits : ℕ → ℕ → WaitResult)
    (kill : ℤ → KillResult) (jobs : JobTable) :
    PingReads ReadsInt argv waits kill jobs (pingBuiltin argv waits kill jobs) := by
  unfold pingBuiltin
  split
  · rename_i name target signal
    split
    · exact .inl ⟨rfl, rfl, rfl, .inl rfl⟩
    rename_i sigNum hvalid
    obtain ⟨n, hsignal, hv⟩ := isValidSignalNumber_eq_some hvalid
    dsimp only
    rw [signal_eq hv]
    split
    · exact pingReads_pingPid name (by simp) hsignal waits kill jobs
    · split
      · rename_i hpercent
        rw [hpercent]
        exact pingReads_pingJob name _ hsignal waits kill jobs
      · rename_i hpercent
        exact pingReads_pingPid name (by simpa using hpercent) hsignal waits kill jobs
  · exact .inl ⟨rfl, rfl, rfl, .inl rfl⟩

/-- The arguments that `resume` accepts. -/
theorem resumeArgs_eq_some : resumeArgs argv = some args ↔
    ∃ (name number mode : List Byte) (rest : List (List Byte)),
      argv = name :: (Byte.percent :: number) :: mode :: rest ∧
      positiveLong number = some args.jobNum ∧
      (rest = [] ∧ args.timeoutSec = 0 ∧
          (mode = fgMode ∧ args.isFg = true ∨ mode = bgMode ∧ args.isFg = false) ∨
        mode = fgMode ∧ args.isFg = true ∧ ∃ timeout,
          rest = [timeoutOption, timeout] ∧ positiveLong timeout = some args.timeoutSec) := by
  constructor
  · intro h
    unfold resumeArgs at h
    split at h
    · rename_i name c number mode rest
      obtain ⟨hpercent, hbind⟩ := Option.ite_none_left_eq_some.mp h
      obtain ⟨jobNum, hlong, hmode⟩ := Option.bind_eq_some_iff.mp hbind
      refine ⟨name, number, mode, rest, by rw [not_not.mp hpercent], ?_⟩
      split_ifs at hmode with hfg hbg
      · split at hmode
        · cases hmode
          exact ⟨hlong, .inl ⟨rfl, rfl, .inl ⟨hfg, rfl⟩⟩⟩
        · rename_i option timeout
          obtain ⟨hoption, hmap⟩ := Option.ite_none_right_eq_some.mp hmode
          obtain ⟨t, ht, rfl⟩ := Option.map_eq_some_iff.mp hmap
          exact ⟨hlong, .inr ⟨hfg, rfl, timeout, by rw [hoption], ht⟩⟩
        · cases hmode
      · cases hmode
        exact ⟨hlong, .inl ⟨hbg.2, rfl, .inr ⟨hbg.1, rfl⟩⟩⟩
    · cases h
  · obtain ⟨jobNum, isFg, timeoutSec⟩ := args
    rintro ⟨name, number, mode, rest, rfl, hlong, ⟨rfl, rfl, ⟨rfl, rfl⟩ | ⟨rfl, rfl⟩⟩ |
      ⟨rfl, rfl, timeout, rfl, ht⟩⟩
    · simp [resumeArgs, hlong]
    · simp [resumeArgs, hlong, fgMode, bgMode]
    · simp [resumeArgs, hlong, ht]

theorem resumeReads_resumeBuiltin (argv : List (List Byte)) (waits : ℕ → ℕ → WaitResult)
    (foreground : Option UInt32 → Bool × List (ℕ+ × Report)) (jobs : JobTable) :
    ResumeReads ReadsInt ReadsUnsigned argv waits jobs
      (resumeBuiltin argv waits foreground jobs) := by
  unfold resumeBuiltin
  split
  · exact .inl ⟨rfl, rfl, rfl, rfl, .inl rfl⟩
  rename_i args hargs
  split
  · exact .inl ⟨rfl, rfl, rfl, rfl, .inr rfl⟩
  rename_i slot job hfound
  obtain ⟨hslot, hjob, hactive, hnumber⟩ := jobGetByInt_eq_some hfound
  obtain ⟨name, number, mode, rest, rfl, hlong, hrest⟩ := resumeArgs_eq_some.mp hargs
  have hreads : ReadsInt number job.jobNumber := by
    rw [← hnumber]
    exact readsInt_of_positiveLong hlong
  dsimp only
  split
  · refine .inr ⟨name, number, mode, rest, slot, job, rfl, rfl, hjob, hactive, hreads,
      ?_, fun i hi ↦ getElem?_resume_of_ne hslot hi _, ?_⟩
    · cases resumeEnd _ _ (job.setState .running) with
      | timedOut => exact .inr rfl
      | stopped | other => exact .inl rfl
    · rcases hrest with ⟨hnil, hzero, -⟩ | ⟨-, -, timeout, hrest, hseconds⟩
      · exact .inl ⟨hnil, by rw [hzero]; rfl⟩
      · obtain ⟨n, hn, hpos, hv⟩ := positiveLong_iff.mp hseconds
        have hvalue := toInt_closestLong n
        have hlt : 0 < args.timeoutSec :=
          Int64.lt_iff_toInt_lt.mpr (by rw [Int64.toInt_zero, hv]; omega)
        exact .inr ⟨timeout, _, hrest, by rw [if_pos hlt], n, hn, by rw [hv]⟩
  · rename_i hfg
    refine .inr ⟨name, number, mode, rest, slot, job, rfl, rfl, hjob, hactive, hreads,
      .inl rfl, fun i hi ↦ getElem?_resume_of_ne hslot hi _, ?_⟩
    rcases hrest with ⟨hnil, -⟩ | ⟨-, hisFg, -⟩
    · exact .inl ⟨hnil, rfl⟩
    · exact absurd hisFg hfg

end Reading

/-! ### Which numbers are read exactly -/

/-- The number that is typed for the job or the process. -/
def typedTarget : List (List Byte) → Option ℤ
  | _ :: (c :: number) :: _ =>
    if c = Byte.percent then integerValue number else integerValue (c :: number)
  | _ => none

/-- The number that is typed for the timeout. -/
def typedTimeout : List (List Byte) → Option ℤ
  | [_, _, _, _, timeout] => integerValue timeout
  | _ => none

def TargetFits (argv : List (List Byte)) : Prop := ∀ n, typedTarget argv = some n → n < 2 ^ 31

def TimeoutFits (argv : List (List Byte)) : Prop := ∀ n, typedTimeout argv = some n → n < 2 ^ 32

/-- The table has a job with the number, or a process with the pid, that `n` is as an `int`. -/
def PingFinds (jobs : JobTable) (target : List Byte) (n : ℤ) : Prop :=
  if target.head? = some Byte.percent then jobs.jobGetByInt (closestLong n).toInt32 ≠ none
  else jobs.pingProcessInt (closestLong n).toInt32 ≠ none

/-- `ping` finds something for the number `n` that is typed. -/
def PingTakes (argv : List (List Byte)) (jobs : JobTable) (n : ℤ) : Prop :=
  ∃ name target signal, argv = [name, target, signal] ∧ isValidSignalNumber signal ≠ none ∧
    typedTarget argv = some n ∧ 0 < n ∧ PingFinds jobs target n

/-- `resume` finds a job for the number `n` that is typed, with this timeout. -/
def ResumeTakes (argv : List (List Byte)) (jobs : JobTable) (n : ℤ) (timeout : Option ℤ) : Prop :=
  ∃ name number mode rest, argv = name :: (Byte.percent :: number) :: mode :: rest ∧
    integerValue number = some n ∧ 0 < n ∧ jobs.jobGetByInt (closestLong n).toInt32 ≠ none ∧
    ((mode = fgMode ∨ mode = bgMode) ∧ rest = [] ∧ timeout = none ∨
      mode = fgMode ∧ ∃ text t, rest = [timeoutOption, text] ∧ integerValue text = some t ∧
        0 < t ∧ timeout = some t)

section Exact

variable {jobs : JobTable} {argv : List (List Byte)} {waits : ℕ → ℕ → WaitResult} {k : ℤ}
  {kill : ℤ → KillResult} {r : PingRun}

theorem ReadsInt.lt (h : ReadsInt s k) : k < 2 ^ 31 := by
  obtain ⟨n, -, rfl⟩ := h
  exact (closestLong n).toInt32.toInt_lt

theorem ReadsInt.exact {s : List Byte} {k : ℤ} (h : ReadsInt s k)
    (hfits : ∀ n, integerValue s = some n → n < 2 ^ 31) : integerValue s = some k := by
  obtain ⟨n, hn, rfl⟩ := h
  have hsmall := hfits n hn
  rw [hn, (toInt_toInt32_eq_iff (toInt_closestLong n)).mpr (by omega)]

theorem ReadsUnsigned.exact {s : List Byte} {k : ℤ} (h : ReadsUnsigned s k)
    (hfits : ∀ n, integerValue s = some n → n < 2 ^ 32) : integerValue s = some k := by
  obtain ⟨n, hn, rfl⟩ := h
  have hsmall := hfits n hn
  rw [hn, (toNat_toUInt32_eq_iff (toInt_closestLong n)).mpr (by omega)]

theorem typedTarget_percent (name number : List Byte) (rest : List (List Byte)) :
    typedTarget (name :: (Byte.percent :: number) :: rest) = integerValue number := by
  simp [typedTarget]

theorem typedTarget_of_ne (name : List Byte) (htarget : target.head? ≠ some Byte.percent)
    (rest : List (List Byte)) : typedTarget (name :: target :: rest) = integerValue target := by
  cases target with
  | nil => rfl
  | cons => exact if_neg (by simpa using htarget)

theorem pingExact_iff (hr : PingReads ReadsInt argv waits kill jobs r) :
    PingExact argv waits kill jobs r ↔ (r.slot ≠ none → TargetFits argv) := by
  rcases hr with hreject | ⟨name, target, signal, n, slot, job, rfl, hsignal, hslot, hjob, hactive,
    hstate, hacts⟩
  · exact iff_of_true (.inl hreject) fun hne ↦ absurd hreject.2.1 hne
  have hne : r.slot ≠ none := by simp [hslot]
  refine ⟨fun hexact _ m hm ↦ ?_, fun hfits ↦ .inr ⟨name, target, signal, n, slot, job, rfl,
    hsignal, hslot, hjob, hactive, hstate, ?_⟩⟩
  · -- The entry and, for a pid, the call of `kill` are the same in both readings.
    rcases hexact with hreject | ⟨_, _, _, n', slot', job', heq, -, hslot', hjob', -, -, hacts'⟩
    · exact absurd hreject.2.1 hne
    obtain ⟨rfl, rfl, rfl, -⟩ := by simpa using heq
    cases hslot.symm.trans hslot'
    cases hjob.symm.trans hjob'
    rcases hacts with ⟨number, rfl, hreads, -⟩ | ⟨htarget, e, -, -, hreads, hkills⟩
    · rcases hacts' with ⟨number', hnumber, hexact, -⟩ | ⟨htarget, -⟩
      · cases hnumber
        rw [typedTarget_percent, hexact] at hm
        cases hm
        exact hreads.lt
      · exact absurd rfl htarget
    · rcases hacts' with ⟨number', rfl, -⟩ | ⟨-, e', -, -, hexact, hkills'⟩
      · exact absurd rfl htarget
      · rw [typedTarget_of_ne name htarget, hexact] at hm
        cases hm
        rw [hkills] at hkills'
        have hpid : ((e.pid : ℕ) : ℤ) = (e'.pid : ℕ) := (Prod.mk.inj (List.cons.inj hkills').1).1
        rw [← hpid]
        exact hreads.lt
  · have hfits := hfits hne
    rcases hacts with ⟨number, rfl, hreads, hkills⟩ | ⟨htarget, e, he, hexited, hreads, hkills⟩
    · refine .inl ⟨number, rfl, hreads.exact fun m hm ↦ hfits m ?_, hkills⟩
      rw [typedTarget_percent, hm]
    · refine .inr ⟨htarget, e, he, hexited, hreads.exact fun m hm ↦ hfits m ?_, hkills⟩
      rw [typedTarget_of_ne name htarget, hm]

theorem resumeExact_iff {r : ResumeRun}
    (hr : ResumeReads ReadsInt ReadsUnsigned argv waits jobs r) :
    ResumeExact argv waits jobs r ↔ (r.slot ≠ none → TargetFits argv ∧ TimeoutFits argv) := by
  rcases hr with hreject | ⟨name, number, mode, rest, slot, job, rfl, hslot, hjob, hactive, hreads,
    hkills, hothers, hrest⟩
  · exact iff_of_true (.inl hreject) fun hne ↦ absurd hreject.2.1 hne
  have hne : r.slot ≠ none := by simp [hslot]
  refine ⟨fun hexact _ ↦ ?_, fun hfits ↦ .inr ⟨name, number, mode, rest, slot, job, rfl, hslot,
    hjob, hactive, hreads.exact fun m hm ↦ (hfits hne).1 m ?_, hkills, hothers, ?_⟩⟩
  · rcases hexact with hreject |
      ⟨_, number', _, _, slot', job', heq, hslot', hjob', -, hexact, -, -, hrest'⟩
    · exact absurd hreject.2.1 hne
    obtain ⟨rfl, rfl, rfl, rfl⟩ := by simpa using heq
    cases hslot.symm.trans hslot'
    cases hjob.symm.trans hjob'
    refine ⟨fun m hm ↦ ?_, fun m hm ↦ ?_⟩
    · rw [typedTarget_percent, hexact] at hm
      cases hm
      exact hreads.lt
    · rcases hrest' with ⟨rfl, -⟩ | ⟨timeout, seconds, rfl, -, htimeout⟩
      · cases hm
      · have hlt := seconds.toNat_lt
        rw [typedTimeout, htimeout] at hm
        cases hm
        omega
  · rw [typedTarget_percent, hm]
  · rcases hrest with hnil | ⟨timeout, seconds, rfl, halarm, htimeout⟩
    · exact .inl hnil
    · exact .inr ⟨timeout, seconds, rfl, halarm, htimeout.exact fun m hm ↦ (hfits hne).2 m hm⟩

theorem ResumeTakes.typed {n : ℤ} {timeout : Option ℤ} (h : ResumeTakes argv jobs n timeout) :
    typedTarget argv = some n ∧ typedTimeout argv = timeout := by
  obtain ⟨name, number, mode, rest, rfl, hn, -, -, hrest⟩ := h
  refine ⟨(typedTarget_percent name number _).trans hn, ?_⟩
  rcases hrest with ⟨-, rfl, rfl⟩ | ⟨-, text, t, rfl, ht, -, rfl⟩
  · rfl
  · exact ht

theorem JobSignalled.signal {kill : ℤ → KillResult} {job : Job} {sig : ℕ} {kills : List (ℤ × ℕ)}
    (h : JobSignalled kill job sig kills) {call : ℤ × ℕ} (hcall : call ∈ kills) : call.2 = sig := by
  have hprocesses {call : ℤ × ℕ} (hcall : call ∈
      (job.procs.filter (!·.exited)).map fun e ↦ (((e.pid : ℕ) : ℤ), sig)) : call.2 = sig := by
    obtain ⟨e, -, rfl⟩ := List.mem_map.mp hcall
    rfl
  rcases h with ⟨-, rfl⟩ | ⟨-, -, rfl⟩ | ⟨-, -, rfl⟩
  · exact hprocesses hcall
  · rw [List.mem_singleton.mp hcall]
  · rcases List.mem_cons.mp hcall with rfl | hcall
    · rfl
    · exact hprocesses hcall

theorem slot_pingJob (name number signal : List Byte) (sig : ℕ) (kill : ℤ → KillResult) :
    (pingJob number (Byte.percent :: number) signal sig kill jobs).slot ≠ none ↔
      ∃ n, typedTarget [name, Byte.percent :: number, signal] = some n ∧ 0 < n ∧
        PingFinds jobs (Byte.percent :: number) n := by
  simp only [typedTarget_percent, PingFinds, List.head?_cons, if_true]
  unfold pingJob
  split_ifs with hhead
  · -- Neither the empty string nor one with a `-` in front spells a positive number.
    refine iff_of_false (by simp) ?_
    rintro ⟨n, hn, hpos, -⟩
    rcases hhead with rfl | hhead
    · cases hn
    · exact absurd (integerValue_of_minus hhead hn) (by omega)
  · rw [← exists_positiveLong number fun v ↦ jobs.jobGetByInt v.toInt32 ≠ none]
    cases positiveLong number with
    | none => simp
    | some v => cases hjob : jobs.jobGetByInt v.toInt32 <;> simp [hjob]

theorem slot_pingPid (name : List Byte) (signal : List Byte)
    (htarget : target.head? ≠ some Byte.percent) (sig : ℕ) (kill : ℤ → KillResult) :
    (pingPid target signal sig kill jobs).slot ≠ none ↔
      ∃ n, typedTarget [name, target, signal] = some n ∧ 0 < n ∧ PingFinds jobs target n := by
  simp only [typedTarget_of_ne name htarget, PingFinds, if_neg htarget]
  rw [← exists_positiveLong target fun v ↦ jobs.pingProcessInt v.toInt32 ≠ none]
  unfold pingPid
  cases positiveLong target with
  | none => simp
  | some v =>
    cases hprocess : jobs.pingProcessInt v.toInt32 with
    | none => simp [hprocess]
    | some found =>
      simp only [Option.some.injEq, exists_eq_left', hprocess]
      split_ifs <;> simp

/-- `ping` finds an entry exactly if it takes the typed number for one. -/
theorem slot_pingBuiltin (kill : ℤ → KillResult) : (pingBuiltin argv waits kill jobs).slot ≠ none ↔
    ∃ n, PingTakes argv (jobs.jobSweep waits) n := by
  unfold pingBuiltin
  split
  · rename_i name target signal
    cases hvalid : isValidSignalNumber signal with
    | none => simp [PingTakes, hvalid]
    | some =>
      have htakes (n : ℤ) : PingTakes [name, target, signal] (jobs.jobSweep waits) n ↔
          typedTarget [name, target, signal] = some n ∧ 0 < n ∧
            PingFinds (jobs.jobSweep waits) target n := by
        refine ⟨?_, fun h ↦ ⟨name, target, signal, rfl, by simp [hvalid], h⟩⟩
        rintro ⟨name', target', signal', heq, -, h⟩
        cases heq
        exact h
      simp only [htakes]
      rcases target with _ | ⟨c, number⟩
      · exact slot_pingPid name signal (by simp) _ kill
      · by_cases hpercent : c = Byte.percent
        · dsimp only
          rw [hpercent, if_pos rfl]
          exact slot_pingJob name number signal _ kill
        · dsimp only
          rw [if_neg hpercent]
          exact slot_pingPid name signal (by simpa using hpercent) _ kill
  · rename_i hargv
    refine iff_of_false (by simp) ?_
    rintro ⟨n, name, target, signal, rfl, -⟩
    exact hargv name target signal rfl

/-- `resume` finds an entry exactly if it takes the typed number for one. -/
theorem slot_resumeBuiltin (foreground : Option UInt32 → Bool × List (ℕ+ × Report)) :
    (resumeBuiltin argv waits foreground jobs).slot ≠ none ↔
      ∃ n timeout, ResumeTakes argv (jobs.jobSweep waits) n timeout := by
  have hslot : (resumeBuiltin argv waits foreground jobs).slot ≠ none ↔
      ∃ args, resumeArgs argv = some args ∧
        (jobs.jobSweep waits).jobGetByInt args.jobNum.toInt32 ≠ none := by
    unfold resumeBuiltin
    cases resumeArgs argv with
    | none => simp
    | some args =>
      cases hjob : (jobs.jobSweep waits).jobGetByInt args.jobNum.toInt32 with
      | none => simp [hjob]
      | some found =>
        simp only [Option.some.injEq, exists_eq_left', hjob]
        split_ifs <;> simp
  rw [hslot]
  constructor
  · rintro ⟨args, hargs, hjob⟩
    obtain ⟨name, number, mode, rest, rfl, hlong, hrest⟩ := resumeArgs_eq_some.mp hargs
    obtain ⟨n, hn, hpos, hv⟩ := positiveLong_iff.mp hlong
    rw [hv] at hjob
    rcases hrest with ⟨hnil, -, hmode⟩ | ⟨hfg, -, timeout, hrest, hseconds⟩
    · exact ⟨n, none, name, number, mode, rest, rfl, hn, by omega, hjob,
        .inl ⟨hmode.imp And.left And.left, hnil, rfl⟩⟩
    · obtain ⟨t, ht, htpos, -⟩ := positiveLong_iff.mp hseconds
      exact ⟨n, some t, name, number, mode, rest, rfl, hn, by omega, hjob,
        .inr ⟨hfg, timeout, t, hrest, ht, by omega, rfl⟩⟩
  · rintro ⟨n, timeout, name, number, mode, rest, rfl, hn, hpos, hjob, hrest⟩
    obtain ⟨v, hlong, hjob⟩ := (exists_positiveLong number fun v ↦
      (jobs.jobSweep waits).jobGetByInt v.toInt32 ≠ none).mpr ⟨n, hn, hpos, hjob⟩
    rcases hrest with ⟨hmode, rfl, -⟩ | ⟨rfl, text, t, rfl, ht, htpos, -⟩
    · rcases hmode with rfl | rfl
      · exact ⟨⟨v, true, 0⟩, resumeArgs_eq_some.mpr
          ⟨name, number, fgMode, [], rfl, hlong, .inl ⟨rfl, rfl, .inl ⟨rfl, rfl⟩⟩⟩, hjob⟩
      · exact ⟨⟨v, false, 0⟩, resumeArgs_eq_some.mpr
          ⟨name, number, bgMode, [], rfl, hlong, .inl ⟨rfl, rfl, .inr ⟨rfl, rfl⟩⟩⟩, hjob⟩
    · obtain ⟨w, hseconds, -⟩ := (exists_positiveLong text fun _ ↦ True).mpr
        ⟨t, ht, htpos, trivial⟩
      exact ⟨⟨v, true, w⟩, resumeArgs_eq_some.mpr ⟨name, number, fgMode, _, rfl, hlong,
        .inr ⟨rfl, rfl, text, rfl, hseconds⟩⟩, hjob⟩

/-- `ping` sends the typed number modulo 64 in any case. It acts on nothing but the job or process
whose number is typed, unless a number from `2 ^ 31` on is, as an `int`, the number of another one;
`resume` does so too, and it arms the alarm for the typed number of seconds, unless that is from
`2 ^ 32` on. -/
theorem numericArgs_exact_iff (argv : List (List Byte)) (waits : ℕ → ℕ → WaitResult)
    (kill : ℤ → KillResult) (foreground : Option UInt32 → Bool × List (ℕ+ × Report))
    (jobs : JobTable) :
    (∀ call ∈ (pingBuiltin argv waits kill jobs).kills, ∃ (name target signal : List Byte) (n : ℕ),
      argv = [name, target, signal] ∧ integerValue signal = some (n : ℤ) ∧ call.2 = n % 64) ∧
    (PingExact argv waits kill jobs (pingBuiltin argv waits kill jobs) ↔
      ∀ n, PingTakes argv (jobs.jobSweep waits) n → n < 2 ^ 31) ∧
    (ResumeExact argv waits jobs (resumeBuiltin argv waits foreground jobs) ↔
      ∀ n timeout, ResumeTakes argv (jobs.jobSweep waits) n timeout →
        n < 2 ^ 31 ∧ ∀ t, timeout = some t → t < 2 ^ 32) := by
  have hping := pingReads_pingBuiltin argv waits kill jobs
  refine ⟨fun call hcall ↦ ?_, ?_, ?_⟩
  · rcases hping with ⟨-, -, hnone, -⟩ | ⟨name, target, signal, n, slot, job, hargv, hsignal, -, -,
      -, -, hacts⟩
    · rw [hnone] at hcall
      cases hcall
    refine ⟨name, target, signal, n, hargv, hsignal, ?_⟩
    rcases hacts with ⟨number, -, -, hkills⟩ | ⟨-, e, -, -, -, hkills⟩
    · exact hkills.signal hcall
    · rw [hkills, List.mem_singleton] at hcall
      rw [hcall]
  · rw [pingExact_iff hping, slot_pingBuiltin]
    constructor
    · rintro hfits n hn
      obtain ⟨-, -, -, -, -, htyped, -⟩ := id hn
      exact hfits ⟨n, hn⟩ n htyped
    · rintro hfits ⟨n, hn⟩ m hm
      obtain ⟨-, -, -, -, -, htyped, -⟩ := id hn
      cases htyped.symm.trans hm
      exact hfits n hn
  · rw [resumeExact_iff (resumeReads_resumeBuiltin argv waits foreground jobs), slot_resumeBuiltin]
    constructor
    · intro hfits n timeout htakes
      obtain ⟨htarget, htimeout⟩ := hfits ⟨n, timeout, htakes⟩
      obtain ⟨htyped, htyped'⟩ := htakes.typed
      exact ⟨htarget n htyped, fun t ht ↦ htimeout t (htyped'.trans ht)⟩
    · rintro hfits ⟨n, timeout, htakes⟩
      obtain ⟨htarget, htimeout⟩ := hfits n timeout htakes
      obtain ⟨htyped, htyped'⟩ := htakes.typed
      refine ⟨fun m hm ↦ ?_, fun t ht ↦ htimeout t (htyped'.symm.trans ht)⟩
      cases htyped.symm.trans hm
      exact htarget

end Exact

/-- A table with one job, of number 1 and group 7, and its process. -/
def oneJob : JobTable := (JobTable.empty.jobAdd 7 none .stopped).2.addProcs 0 [(7, none)]

/-- `ping %4294967297 9` -/
def pingFarJob : List (List Byte) := [[112, 105, 110, 103], Byte.percent :: printNat 4294967297,
  printNat 9]

/-- `resume %1 fg --timeout 4294967296` -/
def resumeLong : List (List Byte) := [[114, 101, 115, 117, 109, 101], Byte.percent :: printNat 1,
  fgMode, timeoutOption, printNat 4294967296]

/-- `ping %4294967297 9` kills job 1, and `resume %1 fg --timeout 4294967296` makes the call
`alarm(0)`, which arms nothing. -/
theorem numericArgs_narrowed :
    let ping := pingBuiltin pingFarJob (fun _ _ ↦ .nothing) (fun _ ↦ .ok) oneJob
    let resume := resumeBuiltin resumeLong (fun _ _ ↦ .nothing) (fun _ ↦ (false, [])) oneJob
    (ping.kills = [(-7, 9)] ∧
      ¬ PingExact pingFarJob (fun _ _ ↦ .nothing) (fun _ ↦ .ok) oneJob ping) ∧
    (resume.alarm = some 0 ∧ ¬ ResumeExact resumeLong (fun _ _ ↦ .nothing) oneJob resume) := by
  intro ping resume
  have hping := pingExact_iff (pingReads_pingBuiltin pingFarJob (fun _ _ ↦ .nothing) (fun _ ↦ .ok)
    oneJob)
  have hresume := resumeExact_iff (resumeReads_resumeBuiltin resumeLong (fun _ _ ↦ .nothing)
    (fun _ ↦ (false, [])) oneJob)
  refine ⟨⟨by decide +kernel, fun hexact ↦ ?_⟩, by decide +kernel, fun hexact ↦ ?_⟩
  · have hlt := hping.mp hexact (by decide +kernel) 4294967297 (by decide +kernel)
    exact absurd hlt (by decide)
  · have hlt := (hresume.mp hexact (by decide +kernel)).2 4294967296 (by decide +kernel)
    exact absurd hlt (by decide)

end Irish.Shell
