import Irish.Shell.Pipes
import Irish.Shell.JobControl

/-!
# A session of the shell

The shell with its children and its job table, over a whole session. `pipes_execute` runs with
`SIGCHLD` blocked and is one step; the handler may interrupt everything else, between any two
operations on the job table. `job_sweep` is cut into the check of an entry, the `waitpid`, the write
that follows it, and the decision about the job at the end of its entries. Children stop, continue
and terminate at any moment; what a signal does to them is one of these events.

A child is known by its position in the list of all children. `Launch` remembers for each pipeline
which children it has and the number of its job, and the log of announcements remembers which child
each was about; the shell itself knows neither.

Left out are `resume ... --timeout`, the child that `snoop` traces, and the text of the builtins'
output.
-/

set_option autoImplicit false

namespace Irish.Shell

open Library

/-- The callers of `job_sweep`. -/
inductive Caller
  | activities
  | ctrlD
  | ping (target : PingTarget) (sig : ℕ) (sent : Bool)
  | resume (number : ℕ) (foreground : Bool)
deriving DecidableEq

/-- Where `job_sweep` is in its two loops. -/
inductive SweepPhase
  | enter
  | check
  | wait
  | mark (result : WaitResult)
deriving DecidableEq

structure SweepPc where
  slot : ℕ
  proc : ℕ
  allExited : Bool
  phase : SweepPhase
deriving DecidableEq

def SweepPc.start (slot : ℕ) : SweepPc := ⟨slot, 0, true, .enter⟩

/-- Where the main program is: at the prompt, in `job_sweep`, in the rest of a builtin, or in
`resume ... fg` before and after it blocks `SIGCHLD`. -/
inductive Control
  | prompt
  | sweeping (caller : Caller) (pc : SweepPc)
  | acting (caller : Caller)
  | foreground (slot : ℕ)
  | waiting (slot : ℕ)
deriving DecidableEq

def Control.blocksSigchld : Control → Bool
  | .waiting _ => true
  | _ => false

/-- A pipeline that has been started, with the number of its job and its children in the order in
which they were forked. -/
structure Launch where
  background : Bool
  wantsJob : Bool
  job : Option ℕ
  procs : List ℕ

structure Session where
  children : List ChildProcess
  launches : List Launch
  jobs : JobTable
  table : Table
  control : Control
  inHandler : Bool
  log : List (ℕ × Announcement)

def Session.start (table : Table) : Session := ⟨[], [], .empty, table, .prompt, false, []⟩

/-! ### Pipelines -/

/-- A child when `pipes_execute` returns: a foreground pipeline has been waited for. -/
def launchedLife (isBg : Bool) (status : WaitStatus) : Life :=
  if isBg then .live none
  else
    match status with
    | .exited code => .reaped (.exited code)
    | .signaled => .reaped .signaled
    | .stopped => .live none

def launchedChild (isBg : Bool) (o : PipelineOutcome) (c : Child) : ChildProcess :=
  ⟨c.pid, c.pgid, launchedLife isBg (o.waits c.pid)⟩

/-- The children that `pipes_execute` forks, the job it adds, and the table. -/
def launch (shellPgid : ℕ+) (cmds : List SingleCommand) (isBg : Bool)
    (cmdLine : Option (List Byte)) (o : PipelineOutcome) (s : Session) : Session :=
  let run := pipesExecute shellPgid cmds isBg cmdLine o s.table s.jobs
  { s with
    children := s.children ++ run.children.map (launchedChild isBg o)
    launches := s.launches ++ [{
      background := isBg
      wantsJob := isBg || run.children.any fun c ↦ o.waits c.pid = .stopped
      job := run.added.bind fun slot ↦ run.jobs.slots[slot]?.map (·.jobNumber)
      procs := (List.range run.children.length).map (s.children.length + ·) }]
    jobs := run.jobs
    table := run.table }

/-! ### `job_sweep` and its callers -/

/-- `job_sweep` goes on at `pc`. -/
def Session.sweepAt (s : Session) (caller : Caller) (pc : SweepPc) : Session :=
  { s with control := .sweeping caller pc }

/-- The next operation of `job_sweep`. -/
def sweepStep (caller : Caller) (pc : SweepPc) (s : Session) : Session :=
  match s.jobs.slots[pc.slot]? with
  | none => { s with control := .acting caller }
  | some job =>
    match pc.phase with
    | .enter =>
      s.sweepAt caller (if job.active then { pc with phase := .check } else .start (pc.slot + 1))
    | .check =>
      match job.procs[pc.proc]? with
      | none =>
        let jobs := if pc.allExited then s.jobs.modify pc.slot Job.clear else s.jobs
        { s with jobs := jobs }.sweepAt caller (.start (pc.slot + 1))
      | some e =>
        s.sweepAt caller
          (if e.exited then { pc with proc := pc.proc + 1 } else { pc with phase := .wait })
    | .wait =>
      match job.procs[pc.proc]? with
      | none => s
      | some e =>
        match findUnreaped s.children e.pid with
        | none => s.sweepAt caller { pc with phase := .mark .failed }
        | some u =>
          match s.children[u]?.bind (·.life.report) with
          | none => s.sweepAt caller { pc with phase := .mark .nothing }
          | some r =>
            { s with children := collectChild s.children u }.sweepAt caller
              { pc with phase := .mark (.reported r) }
    | .mark result =>
      let jobs := s.jobs.modify pc.slot fun job ↦ (sweepMark result pc.proc job pc.allExited).1
      let allExited := (sweepMark result pc.proc job pc.allExited).2
      { s with jobs := jobs }.sweepAt caller ⟨pc.slot, pc.proc + 1, allExited, .check⟩

/-- What a caller of `job_sweep` does next. -/
def actStep (caller : Caller) (s : Session) : Session :=
  match caller with
  | .activities => { s with control := .prompt }
  | .ctrlD => { s with control := .prompt }
  | .ping target sig sent => { s with jobs := s.jobs.ping target sig sent, control := .prompt }
  | .resume number false => { s with jobs := s.jobs.resume number none, control := .prompt }
  | .resume number true =>
    match s.jobs.jobGetByNumber number with
    | none => { s with control := .prompt }
    | some slot =>
      { s with jobs := s.jobs.modify slot (·.setState .running), control := .foreground slot }

/-! ### Waiting -/

/-- A turn of `sigchld_handler`, whose `waitpid` has returned child `u`. -/
def handleStep (u : ℕ) (c : ChildProcess) (r : Report) (s : Session) : Session :=
  { s with
    children := collectChild s.children u
    jobs := (s.jobs.sigchldTurn c.pid r).1
    log := s.log ++ (s.jobs.sigchldTurn c.pid r).2.toList.map fun a ↦ (u, a) }

/-- A turn of the loop of `resume ... fg`, whose `waitpid` has returned child `u`. -/
def resumeStep (slot u : ℕ) (c : ChildProcess) (r : Report) (s : Session) : Session :=
  match r with
  | .noticed _ =>
    { s with
      children := collectChild s.children u
      jobs := s.jobs.modify slot (·.setState .stopped)
      control := .prompt }
  | .ended _ =>
    { s with
      children := collectChild s.children u
      jobs := s.jobs.modify slot (resumeMark c.pid) }

/-- `resume ... fg` waits for the group of the job, and not for continuations. -/
def waitsFor (shellPgid : ℕ+) (job : Job) (c : ChildProcess) (r : Report) : Prop :=
  c.pgid = killGroup shellPgid job.pgid ∧ r ≠ .noticed .continued

instance (shellPgid : ℕ+) (job : Job) (c : ChildProcess) (r : Report) :
    Decidable (waitsFor shellPgid job c r) :=
  inferInstanceAs (Decidable (_ ∧ _))

/-! ### The steps -/

inductive SessionEvent
  | launch (cmds : List SingleCommand) (isBg : Bool) (cmdLine : Option (List Byte))
      (o : PipelineOutcome)
  /-- a feeder or distributor for a builtin, which is in no job -/
  | helper (pid : ℕ+)
  | reapHelper (u : ℕ)
  /-- a child terminates -/
  | ends (u : ℕ) (how : Ending)
  /-- a child stops or continues -/
  | notice (u : ℕ) (notice : Notice)
  /-- `sigchld_handler` begins -/
  | deliver
  | handle (u : ℕ)
  /-- the `waitpid` of the handler finds nothing -/
  | handlerReturn
  | call (caller : Caller)
  | sweep
  | act
  /-- `resume ... fg` blocks `SIGCHLD` -/
  | block
  | resumeTurn (u : ℕ)
  /-- `resume ... fg` has no process to wait for -/
  | resumeEnd

section Steps

variable (shellPgid : ℕ+) (s : Session)

/-- One step of the shell or of one of its children. -/
def sessionStep : SessionEvent → Option Session
  | .launch cmds isBg cmdLine o =>
    let run := pipesExecute shellPgid cmds isBg cmdLine o s.table s.jobs
    if s.inHandler = false ∧ s.control = .prompt ∧
        FreshPids s.children (run.children.map (·.pid)) then
      some (launch shellPgid cmds isBg cmdLine o s)
    else none
  | .helper pid =>
    if s.inHandler = false ∧ s.control = .prompt ∧ FreshPids s.children [pid] then
      some { s with children := s.children ++ [⟨pid, shellPgid, .live none⟩] }
    else none
  | .reapHelper u =>
    match s.children[u]? with
    | some ⟨_, _, .zombie how⟩ =>
      if s.inHandler = false ∧ s.control = .prompt ∧ ∀ L ∈ s.launches, u ∉ L.procs then
        some { s with children := setLife s.children u (.reaped how) }
      else none
    | _ => none
  | .ends u how =>
    match s.children[u]? with
    | some ⟨_, _, .live _⟩ => some { s with children := setLife s.children u (.zombie how) }
    | _ => none
  | .notice u notice =>
    match s.children[u]? with
    | some ⟨_, _, .live _⟩ =>
      some { s with children := setLife s.children u (.live (some notice)) }
    | _ => none
  | .deliver =>
    if s.inHandler = false ∧ s.control.blocksSigchld = false then some { s with inHandler := true }
    else none
  | .handle u =>
    match s.children[u]? with
    | some c =>
      match c.life.report with
      | some r => if s.inHandler = true then some (handleStep u c r s) else none
      | none => none
    | none => none
  | .handlerReturn =>
    if s.inHandler = true ∧ ∀ c ∈ s.children, c.life.report = none then
      some { s with inHandler := false }
    else none
  | .call caller =>
    if s.inHandler = false ∧ s.control = .prompt then
      some { s with control := .sweeping caller (.start 0) }
    else none
  | .sweep =>
    match s.control with
    | .sweeping caller pc => if s.inHandler = false then some (sweepStep caller pc s) else none
    | _ => none
  | .act =>
    match s.control with
    | .acting caller => if s.inHandler = false then some (actStep caller s) else none
    | _ => none
  | .block =>
    match s.control with
    | .foreground slot =>
      if s.inHandler = false then some { s with control := .waiting slot } else none
    | _ => none
  | .resumeTurn u =>
    match s.control with
    | .waiting slot =>
      match s.jobs.slots[slot]?, s.children[u]? with
      | some job, some c =>
        match c.life.report with
        | some r =>
          if job.allExited = false ∧ waitsFor shellPgid job c r then some (resumeStep slot u c r s)
          else none
        | none => none
      | _, _ => none
    | _ => none
  | .resumeEnd =>
    match s.control with
    | .waiting slot =>
      match s.jobs.slots[slot]? with
      | some job =>
        if job.allExited then
          some { s with jobs := s.jobs.modify slot Job.clear, control := .prompt }
        else if ∀ c ∈ s.children,
            c.pgid = killGroup shellPgid job.pgid → c.life.isReaped = true then
          some { s with control := .prompt }
        else none
      | none => none
    | _ => none

end Steps

/-! ### What a step does -/

/-- The cases of a step, with what is known of the state in each. -/
inductive SessionMove (shellPgid : ℕ+) (s : Session) : SessionEvent → Session → Prop
  | launch {cmds : List SingleCommand} {isBg : Bool} {cmdLine : Option (List Byte)}
      {o : PipelineOutcome} (hcontrol : s.control = .prompt)
      (hfresh : FreshPids s.children
        ((pipesExecute shellPgid cmds isBg cmdLine o s.table s.jobs).children.map (·.pid))) :
      SessionMove shellPgid s (.launch cmds isBg cmdLine o) (launch shellPgid cmds isBg cmdLine o s)
  | helper {pid : ℕ+} (hcontrol : s.control = .prompt) (hfresh : FreshPids s.children [pid]) :
      SessionMove shellPgid s (.helper pid)
        { s with children := s.children ++ [⟨pid, shellPgid, .live none⟩] }
  | reapHelper {u : ℕ} {c : ChildProcess} {how : Ending} (hc : s.children[u]? = some c)
      (hlife : c.life = .zombie how) (hhelper : ∀ L ∈ s.launches, u ∉ L.procs) :
      SessionMove shellPgid s (.reapHelper u)
        { s with children := setLife s.children u (.reaped how) }
  | live {e : SessionEvent} {u : ℕ} {c : ChildProcess} {unreported : Option Notice} {life : Life}
      (hc : s.children[u]? = some c) (hlife : c.life = .live unreported)
      (hnext : life.isReaped = false) :
      SessionMove shellPgid s e { s with children := setLife s.children u life }
  | handler {e : SessionEvent} (inHandler : Bool) :
      SessionMove shellPgid s e { s with inHandler := inHandler }
  | handle {u : ℕ} {c : ChildProcess} {r : Report} (hc : s.children[u]? = some c)
      (hreport : c.life.report = some r) :
      SessionMove shellPgid s (.handle u) (handleStep u c r s)
  | call (caller : Caller) : SessionMove shellPgid s (.call caller) (s.sweepAt caller (.start 0))
  | sweep {caller : Caller} {pc : SweepPc} (hcontrol : s.control = .sweeping caller pc) :
      SessionMove shellPgid s .sweep (sweepStep caller pc s)
  | act {caller : Caller} (hcontrol : s.control = .acting caller) :
      SessionMove shellPgid s .act (actStep caller s)
  | block {slot : ℕ} (hcontrol : s.control = .foreground slot) :
      SessionMove shellPgid s .block { s with control := .waiting slot }
  | resumeTurn {slot u : ℕ} {c : ChildProcess} {r : Report} (hcontrol : s.control = .waiting slot)
      (hc : s.children[u]? = some c) (hreport : c.life.report = some r) :
      SessionMove shellPgid s (.resumeTurn u) (resumeStep slot u c r s)
  | resumeDone {slot : ℕ} {job : Job} (hjob : s.jobs.slots[slot]? = some job)
      (hall : job.allExited = true) :
      SessionMove shellPgid s .resumeEnd
        { s with jobs := s.jobs.modify slot Job.clear, control := .prompt }
  | resumeFailed : SessionMove shellPgid s .resumeEnd { s with control := .prompt }

theorem sessionMove_of_step {shellPgid : ℕ+} {s s' : Session} {e : SessionEvent}
    (h : sessionStep shellPgid s e = some s') : SessionMove shellPgid s e s' := by
  cases e with
  | launch =>
    obtain ⟨⟨-, hcontrol, hfresh⟩, ⟨⟩⟩ := Option.ite_none_right_eq_some.mp h
    exact .launch hcontrol hfresh
  | helper =>
    obtain ⟨⟨-, hcontrol, hfresh⟩, ⟨⟩⟩ := Option.ite_none_right_eq_some.mp h
    exact .helper hcontrol hfresh
  | reapHelper u =>
    simp only [sessionStep] at h
    split at h
    · rename_i pid pgid how hc
      obtain ⟨⟨-, -, hhelper⟩, ⟨⟩⟩ := Option.ite_none_right_eq_some.mp h
      exact .reapHelper hc rfl hhelper
    · cases h
  | ends u how =>
    simp only [sessionStep] at h
    split at h <;> cases h
    rename_i hc
    exact .live hc rfl rfl
  | notice u notice =>
    simp only [sessionStep] at h
    split at h <;> cases h
    rename_i hc
    exact .live hc rfl rfl
  | deliver =>
    obtain ⟨-, ⟨⟩⟩ := Option.ite_none_right_eq_some.mp h
    exact .handler true
  | handle u =>
    simp only [sessionStep] at h
    split at h
    · rename_i c hc
      split at h
      · rename_i r hreport
        obtain ⟨-, ⟨⟩⟩ := Option.ite_none_right_eq_some.mp h
        exact .handle hc hreport
      · cases h
    · cases h
  | handlerReturn =>
    obtain ⟨-, ⟨⟩⟩ := Option.ite_none_right_eq_some.mp h
    exact .handler false
  | call caller =>
    obtain ⟨-, ⟨⟩⟩ := Option.ite_none_right_eq_some.mp h
    exact .call caller
  | sweep =>
    simp only [sessionStep] at h
    split at h
    · rename_i caller pc hcontrol
      obtain ⟨-, ⟨⟩⟩ := Option.ite_none_right_eq_some.mp h
      exact .sweep hcontrol
    · cases h
  | act =>
    simp only [sessionStep] at h
    split at h
    · rename_i caller hcontrol
      obtain ⟨-, ⟨⟩⟩ := Option.ite_none_right_eq_some.mp h
      exact .act hcontrol
    · cases h
  | block =>
    simp only [sessionStep] at h
    split at h
    · rename_i slot hcontrol
      obtain ⟨-, ⟨⟩⟩ := Option.ite_none_right_eq_some.mp h
      exact .block hcontrol
    · cases h
  | resumeTurn u =>
    simp only [sessionStep] at h
    split at h
    · rename_i slot hcontrol
      split at h
      · rename_i job c hjob hc
        split at h
        · rename_i r hreport
          obtain ⟨-, ⟨⟩⟩ := Option.ite_none_right_eq_some.mp h
          exact .resumeTurn hcontrol hc hreport
        · cases h
      · cases h
    · cases h
  | resumeEnd =>
    simp only [sessionStep] at h
    split at h
    · rename_i slot hcontrol
      split at h
      · rename_i job hjob
        split at h
        · rename_i hall
          cases h
          exact .resumeDone hjob hall
        · obtain ⟨-, ⟨⟩⟩ := Option.ite_none_right_eq_some.mp h
          exact .resumeFailed
      · cases h
    · cases h

end Irish.Shell
