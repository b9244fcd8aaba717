import Irish.Shell.Redirect
import Irish.Shell.Jobs

/-!
# Pipelines

`pipes_execute` of `src/pipes.c`: the pipes between the commands, the loop that forks the commands
with their feeders and distributors, what each forked command does to its descriptors before it
runs, and the entry in the job table. What the system calls return is an argument.

The results here say once what a turn of the loop does (`spawnCommand_spec`), and by induction what
the loop has done after any number of turns (`spawnLoop_spec`).
-/

set_option autoImplicit false

namespace Irish.Shell

open Library

/-- The builtins of the shell. -/
inductive Builtin
  | hop | reveal | peek | locate | exit | activities | resume | ping | spy | snoop
deriving DecidableEq, Repr

namespace Builtin

def name : Builtin → List Byte
  | hop => [104, 111, 112]
  | reveal => [114, 101, 118, 101, 97, 108]
  | peek => [112, 101, 101, 107]
  | locate => [108, 111, 99, 97, 116, 101]
  | exit => [101, 120, 105, 116]
  | activities => [97, 99, 116, 105, 118, 105, 116, 105, 101, 115]
  | resume => [114, 101, 115, 117, 109, 101]
  | ping => [112, 105, 110, 103]
  | spy => [115, 112, 121]
  | snoop => [115, 110, 111, 111, 112]

def all : List Builtin :=
  [hop, reveal, peek, locate, exit, activities, resume, ping, spy, snoop]

end Builtin

def isBuiltin (cmdName : List Byte) : Bool := Builtin.all.any (·.name = cmdName)

/-- `raw_name`. -/
def SingleCommand.rawName (cmd : SingleCommand) : List Byte := cmd.argv.head?.join.getD []

/-- `cmd_name`. -/
def SingleCommand.cmdName (cmd : SingleCommand) : List Byte := stripPercent cmd.rawName

/-- `cmds[i].argv[0] = cmd_name`. -/
def SingleCommand.rename (cmd : SingleCommand) : SingleCommand :=
  { cmd with argv := cmd.argv.set 0 (some cmd.cmdName) }

/-- The results of the calls made for one command; `fork` is the pid of the command, `devNull`
whether its `open("/dev/null")` succeeds. -/
structure CommandOutcome where
  input : SetupOutcome
  output : SetupOutcome
  resolves : Bool
  fork : Option ℕ+
  devNull : Bool

inductive WaitStatus
  | exited (code : ℕ)
  | signaled
  | stopped
deriving DecidableEq, Repr

/-- The results of the calls made for a pipeline. -/
structure PipelineOutcome where
  pipes : ℕ → Bool
  command : ℕ → CommandOutcome
  waits : ℕ+ → WaitStatus

/-! ### What a forked command does before it runs -/

/-- Both ends of every pipe, in the order in which they are closed. -/
def pipeEnds (pipeFds : List (ℕ × ℕ)) : List ℕ := pipeFds.flatMap fun p ↦ [p.1, p.2]

/-- The first command of a background job without a redirected input reads `/dev/null`. -/
def setupDevNull (isBg : Bool) (i : ℕ) (inFd : Option ℕ) (devNull : Bool) (t : Table) : Table :=
  if isBg ∧ inFd = none ∧ i = 0 ∧ devNull then
    let opened := t.openFirst .devNull
    ((opened.2.dup2 opened.1 0).getD opened.2).close opened.1
  else t

/-- `none` is `_exit(1)` after a failed `dup2`. -/
def setupStdin (pipeFds : List (ℕ × ℕ)) (i : ℕ) (inFd : Option ℕ) (t : Table) : Option Table :=
  match inFd with
  | some fd => (t.dup2 fd 0).map (·.close fd)
  | none => if i > 0 then pipeFds[i - 1]?.bind fun p ↦ t.dup2 p.1 0 else some t

def setupStdout (numCmds : ℕ) (pipeFds : List (ℕ × ℕ)) (i : ℕ) (outFd : Option ℕ) (t : Table) :
    Option Table :=
  match outFd with
  | some fd => (t.dup2 fd 1).map (·.close fd)
  | none => if i < numCmds - 1 then pipeFds[i]?.bind fun p ↦ t.dup2 p.2 1 else some t

def commandSetup (isBg : Bool) (numCmds : ℕ) (pipeFds : List (ℕ × ℕ)) (i : ℕ)
    (inFd outFd : Option ℕ) (devNull : Bool) (t : Table) : Option Table :=
  (setupStdin pipeFds i inFd (setupDevNull isBg i inFd devNull t)).bind fun t ↦
    (setupStdout numCmds pipeFds i outFd t).map fun t ↦ t.closeAll (pipeEnds pipeFds)

/-- The group of process `pid` after `setpgid(pid, pgid)`. -/
def setpgid (pid : ℕ+) (pgid : ℕ) : ℕ := if pgid = 0 then pid else pgid

/-! ### The loop over the commands -/

/-- The variables of `pipes_execute` that the loop changes, with the processes it has forked. -/
structure Spawn where
  table : Table
  cmds : List SingleCommand
  children : List Child
  childPids : List ℕ+
  hasError : Bool
  pgid : ℕ
  messages : List Message

namespace Spawn

/-- A command is given up: the message, the table that is left, and `has_error = 1`. -/
def fail (s : Spawn) (message : Message) (t : Table) : Spawn :=
  { s with table := t, hasError := true, messages := s.messages ++ [message] }

/-- A process has been forked, or none was needed. -/
def adopt (s : Spawn) (child : Option Child) (t : Table) : Spawn :=
  { s with
    table := t
    children := s.children ++ child.toList
    childPids := s.childPids ++ child.toList.map Child.pid }

end Spawn

/-- What stays the same over the loop. -/
structure Pipeline where
  shellPgid : ℕ+
  isBg : Bool
  numCmds : ℕ
  pipeFds : List (ℕ × ℕ)

/-- One turn of the loop. The group of the child is the one after the parent's `setpgid`; the
child's own call, with 0 for the first command, asks for the same group. -/
def spawnCommand (p : Pipeline) (o : CommandOutcome) (i : ℕ) (s : Spawn) : Spawn :=
  match s.cmds[i]? with
  | none => s
  | some cmd =>
    if cmd.argc = 0 then s
    else
      let input := redirectSetupInput i cmd p.shellPgid o.input s.table
      match input.error with
      | some message => s.fail message input.table
      | none =>
        let s := s.adopt input.child input.table
        let output := redirectSetupOutput i cmd p.shellPgid o.output s.table
        match output.error with
        | some message => s.fail message (output.table.closeOpt input.fd)
        | none =>
          let s := s.adopt output.child output.table
          let t := (s.table.closeOpt input.fd).closeOpt output.fd
          if isBuiltin cmd.cmdName ∨ o.resolves then
            let s := { s with cmds := s.cmds.modify i SingleCommand.rename }
            match o.fork with
            | none => s.fail .fork t
            | some pid =>
              let pgid : ℕ := if i = 0 then pid else s.pgid
              let fds := commandSetup p.isBg p.numCmds p.pipeFds i input.fd output.fd o.devNull
                s.table
              { s.adopt (some ⟨.command i, pid, setpgid pid pgid, fds⟩) t with pgid := pgid }
          else s.fail (.commandNotFound cmd.cmdName) t

/-- The first turns of the loop. -/
def spawnLoop (p : Pipeline) (o : ℕ → CommandOutcome) (s : Spawn) : ℕ → Spawn
  | 0 => s
  | i + 1 => spawnCommand p (o i) i (spawnLoop p o s i)

/-- The loop that opens the pipes between the commands. -/
def openPipes (oks : ℕ → Bool) (t : Table) : ℕ → Option (List (ℕ × ℕ)) × Table
  | 0 => (some [], t)
  | k + 1 =>
    match openPipes oks t k with
    | (none, t) => (none, t)
    | (some pipeFds, t) =>
      if oks k then
        let ends := t.pipe (.pipe k .read) (.pipe k .write)
        (some (pipeFds ++ [ends.1]), ends.2)
      else (none, t.closeAll (pipeEnds pipeFds))

/-- `pipes_execute` up to the point where the shell has closed its `pipe_fds`; the table alone if a
pipe could not be opened. -/
def pipesSpawn (shellPgid : ℕ+) (cmds : List SingleCommand) (isBg : Bool) (o : PipelineOutcome)
    (t : Table) : Table ⊕ Spawn :=
  match openPipes o.pipes t (cmds.length - 1) with
  | (none, t) => .inl t
  | (some pipeFds, t) =>
    let s := spawnLoop ⟨shellPgid, isBg, cmds.length, pipeFds⟩ o.command
      ⟨t, cmds, [], [], false, 0, []⟩ cmds.length
    .inr { s with table := s.table.closeAll (pipeEnds pipeFds) }

/-! ### The job -/

/-- What `pipes_execute` leaves; `added` is the entry of the job table it has taken. -/
structure PipelineRun where
  status : ℤ
  table : Table
  children : List Child
  jobs : JobTable
  added : Option ℕ
  messages : List Message

/-- `feeder`. -/
def feederName : List Byte := [102, 101, 101, 100, 101, 114]

/-- `proc`. -/
def procName : List Byte := [112, 114, 111, 99]

/-- The names under which the processes are recorded: those of the commands by position. -/
def procNames (fallback : List Byte) (s : Spawn) : List (ℕ+ × Option (List Byte)) :=
  s.childPids.mapIdx fun k pid ↦
    (pid, match s.cmds[k]? with
      | some cmd => cmd.argv.head?.join
      | none => some fallback)

/-- `job_add` and the loop of `job_add_proc` behind it. -/
def addJob (s : Spawn) (cmdLine : Option (List Byte)) (state : JobState) (fallback : List Byte)
    (jobs : JobTable) : Option ℕ × JobTable :=
  match jobs.jobAdd s.pgid cmdLine state with
  | (none, jobs) => (none, jobs)
  | (some slot, jobs) => (some slot, jobs.addProcs slot (procNames fallback s))

def pipesExecute (shellPgid : ℕ+) (cmds : List SingleCommand) (isBg : Bool)
    (cmdLine : Option (List Byte)) (o : PipelineOutcome) (t : Table) (jobs : JobTable) :
    PipelineRun :=
  if cmds = [] then ⟨0, t, [], jobs, none, []⟩
  else
    match pipesSpawn shellPgid cmds isBg o t with
    | .inl t => ⟨-1, t, [], jobs, none, [.pipe]⟩
    | .inr s =>
      if isBg then
        let job := addJob s cmdLine .running feederName jobs
        ⟨0, s.table, s.children, job.2, job.1, s.messages⟩
      else
        -- The shell waits for every process in turn.
        let jobStopped := s.childPids.any fun pid ↦ o.waits pid = .stopped
        let failed := s.childPids.any fun pid ↦ o.waits pid ≠ .stopped ∧ o.waits pid ≠ .exited 0
        let job := if jobStopped then addJob s cmdLine .stopped procName jobs else (none, jobs)
        ⟨if s.hasError || failed then -1 else 0, s.table, s.children, job.2, job.1, s.messages⟩

/-! ### Which processes are forked -/

/-- Whether the loop forks a process for a command, and under which pid: a condition on the command
and on the results of the calls made for it. -/
def Forks (i : ℕ) (cmd : SingleCommand) (o : CommandOutcome) : Role → ℕ+ → Prop
  | .helper .input j, pid => j = i ∧ cmd.argc ≠ 0 ∧ 2 ≤ cmd.numInputs ∧
      SetupOk cmd.numInputs o.input ∧ o.input.fork = some pid
  | .helper .output j, pid => j = i ∧ cmd.argc ≠ 0 ∧ SetupOk cmd.numInputs o.input ∧
      2 ≤ cmd.numOutputs ∧ SetupOk cmd.numOutputs o.output ∧ o.output.fork = some pid
  | .command j, pid => j = i ∧ cmd.argc ≠ 0 ∧ SetupOk cmd.numInputs o.input ∧
      SetupOk cmd.numOutputs o.output ∧ (isBuiltin cmd.cmdName = true ∨ o.resolves = true) ∧
      o.fork = some pid

/-- The state of a forked process, when the shell's table is `t` between two turns and `pgid` is the
group of the pipeline: a helper has all that the shell has, a command has set itself up. -/
def ChildOk (p : Pipeline) (pgid : ℕ) (t : Table) (c : Child) : Prop :=
  match c.role with
  | .helper _ _ => c.pgid = p.shellPgid ∧
      ∃ u, c.fds = some u ∧ ∀ fd, t.get fd ≠ none → u.get fd = t.get fd
  | .command i => c.pgid = setpgid c.pid pgid ∧ ∃ inFd outFd devNull t₁ t₂,
      t.Opened (Option.toList inFd) NotPipe t₁ ∧ t₁.Opened (Option.toList outFd) NotPipe t₂ ∧
      c.fds = commandSetup p.isBg p.numCmds p.pipeFds i inFd outFd devNull t₂

/-- What one turn does. -/
structure Turn (p : Pipeline) (o : CommandOutcome) (i : ℕ) (cmd : SingleCommand) (s s' : Spawn) :
    Prop where
  table : s'.table.get = s.table.get
  cmds : ∀ j, j ≠ i → s'.cmds[j]? = s.cmds[j]?
  pgid : s'.pgid = s.pgid ∨ i = 0
  leader : ∀ pid, i = 0 → Forks i cmd o (.command i) pid → s'.pgid = pid
  no_leader : (∀ pid, ¬ Forks i cmd o (.command i) pid) → s'.pgid = s.pgid
  forked : ∃ new, s'.children = s.children ++ new ∧
    s'.childPids = s.childPids ++ new.map Child.pid ∧
    (∀ c ∈ new, Forks i cmd o c.role c.pid ∧ ChildOk p s'.pgid s.table c) ∧
    ∀ role pid, Forks i cmd o role pid → ∃ c ∈ new, c.role = role ∧ c.pid = pid

variable {t : Table} {p : Pipeline} {k pgid : ℕ}

section Turn

variable {p : Pipeline} {o : CommandOutcome} {i : ℕ} {cmd : SingleCommand} {s s' : Spawn}
  {r : SetupResult}

/-- A turn that does not fork the command. -/
theorem Turn.of_given_up (new : List Child) (htable : s'.table.get = s.table.get)
    (hcmds : ∀ j, j ≠ i → s'.cmds[j]? = s.cmds[j]?) (hpgid : s'.pgid = s.pgid)
    (hcommand : ∀ pid, ¬ Forks i cmd o (.command i) pid)
    (hchildren : s'.children = s.children ++ new)
    (hpids : s'.childPids = s.childPids ++ new.map Child.pid)
    (hnew : ∀ c ∈ new, Forks i cmd o c.role c.pid ∧ ∀ pgid, ChildOk p pgid s.table c)
    (hall : ∀ io pid, Forks i cmd o (.helper io i) pid →
      ∃ c ∈ new, c.role = .helper io i ∧ c.pid = pid) : Turn p o i cmd s s' where
  table := htable
  cmds := hcmds
  pgid := .inl hpgid
  leader := fun pid _ h ↦ absurd h (hcommand pid)
  no_leader := fun _ ↦ hpgid
  forked := by
    refine ⟨new, hchildren, hpids, fun c hc ↦ ⟨(hnew c hc).1, (hnew c hc).2 _⟩, ?_⟩
    rintro (j | ⟨_ | _, j⟩) pid h
    · obtain rfl := h.1
      exact absurd h (hcommand pid)
    · obtain rfl := h.1
      exact hall .input pid h
    · obtain rfl := h.1
      exact hall .output pid h

theorem forks_feeder (hargc : cmd.argc ≠ 0)
    (hspec : SetupSpec .input i cmd.numInputs p.shellPgid o.input s.table r) {c : Child}
    (hc : c ∈ r.child.toList) : Forks i cmd o c.role c.pid ∧ ∀ pgid, ChildOk p pgid s.table c := by
  obtain ⟨hcount, hok, hpid, hrole, hpgid, hu⟩ := hspec.mem_child c hc
  constructor
  · rw [hrole]
    exact ⟨rfl, hargc, hcount, hok, hpid⟩
  · intro pgid
    rw [ChildOk, hrole]
    exact ⟨hpgid, hu⟩

theorem forks_distributor (hargc : cmd.argc ≠ 0) (hin : SetupOk cmd.numInputs o.input)
    {fds : List ℕ} (ht : s.table.Opened fds NotPipe t)
    (hspec : SetupSpec .output i cmd.numOutputs p.shellPgid o.output t r) {c : Child}
    (hc : c ∈ r.child.toList) : Forks i cmd o c.role c.pid ∧ ∀ pgid, ChildOk p pgid s.table c := by
  obtain ⟨hcount, hok, hpid, hrole, hpgid, u, hu, hinherits⟩ := hspec.mem_child c hc
  constructor
  · rw [hrole]
    exact ⟨rfl, hargc, hin, hcount, hok, hpid⟩
  · intro pgid
    rw [ChildOk, hrole]
    refine ⟨hpgid, u, hu, fun fd hfd ↦ ?_⟩
    have hkeeps := ht.keeps hfd
    rw [hinherits fd (hkeeps ▸ hfd), hkeeps]

/-- A turn that forks no process. -/
theorem Turn.of_nothing_forked (htable : s'.table.get = s.table.get)
    (hcmds : ∀ j, j ≠ i → s'.cmds[j]? = s.cmds[j]?) (hpgid : s'.pgid = s.pgid)
    (hchildren : s'.children = s.children) (hpids : s'.childPids = s.childPids)
    (hnone : ∀ role pid, ¬ Forks i cmd o role pid) : Turn p o i cmd s s' :=
  Turn.of_given_up [] htable hcmds hpgid (hnone _) (by simp [hchildren]) (by simp [hpids])
    nofun (fun _ pid h ↦ absurd h (hnone _ pid))

theorem turn_of_argc_zero (hcmd : s.cmds[i]? = some cmd) (hargc : cmd.argc = 0) :
    Turn p o i cmd s (spawnCommand p o i s) := by
  have heq : spawnCommand p o i s = s := by simp [spawnCommand, hcmd, hargc]
  rw [heq]
  refine Turn.of_nothing_forked rfl (fun _ _ ↦ rfl) rfl rfl rfl ?_
  rintro (j | ⟨_ | _, j⟩) pid h
  · exact h.2.1 hargc
  · exact h.2.1 hargc
  · exact h.2.1 hargc

theorem turn_of_input_failed (hcmd : s.cmds[i]? = some cmd) (hargc : cmd.argc ≠ 0)
    (hin : ¬ SetupOk cmd.numInputs o.input) : Turn p o i cmd s (spawnCommand p o i s) := by
  obtain ⟨herror, htable⟩ := (setupSpec_input i cmd p.shellPgid o.input s.table).failed hin
  obtain ⟨message, hmessage⟩ := Option.ne_none_iff_exists'.mp herror
  have heq : spawnCommand p o i s = s.fail message
      (redirectSetupInput i cmd p.shellPgid o.input s.table).table := by
    simp [spawnCommand, hcmd, hargc, hmessage]
  rw [heq]
  refine Turn.of_nothing_forked htable (fun _ _ ↦ rfl) rfl rfl rfl ?_
  rintro (j | ⟨_ | _, j⟩) pid h
  · exact hin h.2.2.1
  · exact hin h.2.2.2.1
  · exact hin h.2.2.1

theorem turn_of_output_failed (hcmd : s.cmds[i]? = some cmd) (hargc : cmd.argc ≠ 0)
    (hin : SetupOk cmd.numInputs o.input) (hout : ¬ SetupOk cmd.numOutputs o.output) :
    Turn p o i cmd s (spawnCommand p o i s) := by
  have hinput := setupSpec_input i cmd p.shellPgid o.input s.table
  generalize hinputEq : redirectSetupInput i cmd p.shellPgid o.input s.table = input at hinput
  obtain ⟨hinError, hinOpened⟩ := hinput.ok hin
  obtain ⟨herror, htable⟩ := (setupSpec_output i cmd p.shellPgid o.output input.table).failed hout
  obtain ⟨message, hmessage⟩ := Option.ne_none_iff_exists'.mp herror
  have heq : spawnCommand p o i s = (s.adopt input.child input.table).fail message
      ((redirectSetupOutput i cmd p.shellPgid o.output input.table).table.closeOpt input.fd) := by
    simp [spawnCommand, hcmd, hargc, hinputEq, hinError, Spawn.adopt, hmessage]
  rw [heq]
  refine Turn.of_given_up input.child.toList ?_ (fun _ _ ↦ rfl) rfl (fun pid h ↦ hout h.2.2.2.1)
    rfl rfl (fun c hc ↦ forks_feeder hargc hinput hc) ?_
  · exact (DescriptorTable.get_closeAll_congr htable _).trans
      (hinOpened.closeAll _ fun _ ↦ Iff.rfl)
  · rintro (_ | _) pid h
    · exact hinput.exists_child h.2.2.1 hin pid h.2.2.2.2
    · exact absurd h.2.2.2.2.1 hout

/-- Both redirections of a command are set up, with the helpers they need. -/
structure BothSet (p : Pipeline) (o : CommandOutcome) (i : ℕ) (cmd : SingleCommand) (s : Spawn)
    (input output : SetupResult) : Prop where
  input_eq : redirectSetupInput i cmd p.shellPgid o.input s.table = input
  output_eq : redirectSetupOutput i cmd p.shellPgid o.output input.table = output
  input_ok : input.error = none
  output_ok : output.error = none
  input_opened : s.table.Opened input.fd.toList NotPipe input.table
  output_opened : input.table.Opened output.fd.toList NotPipe output.table
  helpers : ∀ c ∈ input.child.toList ++ output.child.toList,
    Forks i cmd o c.role c.pid ∧ ∀ pgid, ChildOk p pgid s.table c
  all_helpers : ∀ io pid, Forks i cmd o (.helper io i) pid →
    ∃ c ∈ input.child.toList ++ output.child.toList, c.role = .helper io i ∧ c.pid = pid

theorem exists_bothSet (hargc : cmd.argc ≠ 0) (hin : SetupOk cmd.numInputs o.input)
    (hout : SetupOk cmd.numOutputs o.output) :
    ∃ input output, BothSet p o i cmd s input output := by
  have hinput := setupSpec_input i cmd p.shellPgid o.input s.table
  generalize hinputEq : redirectSetupInput i cmd p.shellPgid o.input s.table = input at hinput
  obtain ⟨hinError, hinOpened⟩ := hinput.ok hin
  have houtput := setupSpec_output i cmd p.shellPgid o.output input.table
  generalize houtputEq : redirectSetupOutput i cmd p.shellPgid o.output input.table = output
    at houtput
  obtain ⟨houtError, houtOpened⟩ := houtput.ok hout
  refine ⟨input, output, hinputEq, houtputEq, hinError, houtError, hinOpened, houtOpened, ?_, ?_⟩
  · intro c hc
    rcases List.mem_append.mp hc with hc | hc
    · exact forks_feeder hargc hinput hc
    · exact forks_distributor hargc hin hinOpened houtput hc
  · rintro (_ | _) pid h
    · obtain ⟨c, hc, hrole⟩ := hinput.exists_child h.2.2.1 hin pid h.2.2.2.2
      exact ⟨c, List.mem_append_left _ hc, hrole⟩
    · obtain ⟨c, hc, hrole⟩ := houtput.exists_child h.2.2.2.1 hout pid h.2.2.2.2.2
      exact ⟨c, List.mem_append_right _ hc, hrole⟩

section BothSet

variable {input output : SetupResult}

/-- The shell closes what the two redirections have opened. -/
theorem BothSet.table (h : BothSet p o i cmd s input output) :
    ((output.table.closeOpt input.fd).closeOpt output.fd).get = s.table.get := by
  rw [DescriptorTable.closeOpt, DescriptorTable.closeOpt, DescriptorTable.closeAll_append]
  exact (h.input_opened.trans h.output_opened).closeAll _ fun _ ↦ Iff.rfl

theorem BothSet.turn_not_found (h : BothSet p o i cmd s input output) (hcmd : s.cmds[i]? = some cmd)
    (hargc : cmd.argc ≠ 0) (hfound : ¬ (isBuiltin cmd.cmdName = true ∨ o.resolves = true)) :
    Turn p o i cmd s (spawnCommand p o i s) := by
  have heq : spawnCommand p o i s = Spawn.fail
      ((s.adopt input.child input.table).adopt output.child output.table)
      (.commandNotFound cmd.cmdName) ((output.table.closeOpt input.fd).closeOpt output.fd) := by
    simp [spawnCommand, hcmd, hargc, h.input_eq, h.input_ok, Spawn.adopt, h.output_eq,
      h.output_ok, hfound]
  rw [heq]
  exact Turn.of_given_up _ h.table (fun _ _ ↦ rfl) rfl (fun pid hforks ↦ hfound hforks.2.2.2.2.1)
    (List.append_assoc ..) (by simp [Spawn.fail, Spawn.adopt]) h.helpers h.all_helpers

theorem BothSet.turn_fork_failed (h : BothSet p o i cmd s input output)
    (hcmd : s.cmds[i]? = some cmd) (hargc : cmd.argc ≠ 0)
    (hfound : isBuiltin cmd.cmdName = true ∨ o.resolves = true) (hfork : o.fork = none) :
    Turn p o i cmd s (spawnCommand p o i s) := by
  have heq : spawnCommand p o i s = Spawn.fail
      { (s.adopt input.child input.table).adopt output.child output.table with
        cmds := s.cmds.modify i SingleCommand.rename } .fork
      ((output.table.closeOpt input.fd).closeOpt output.fd) := by
    simp [spawnCommand, hcmd, hargc, h.input_eq, h.input_ok, Spawn.adopt, h.output_eq,
      h.output_ok, hfound, hfork]
  rw [heq]
  refine Turn.of_given_up _ h.table (fun j hj ↦ ?_) rfl (fun pid hforks ↦ ?_)
    (List.append_assoc ..) (by simp [Spawn.fail, Spawn.adopt]) h.helpers h.all_helpers
  · simp [Spawn.fail, Ne.symm hj]
  · cases hfork.symm.trans hforks.2.2.2.2.2

theorem BothSet.turn_forked (h : BothSet p o i cmd s input output) (hcmd : s.cmds[i]? = some cmd)
    {pid : ℕ+} (hforks : Forks i cmd o (.command i) pid) :
    Turn p o i cmd s (spawnCommand p o i s) := by
  have hargc : cmd.argc ≠ 0 := hforks.2.1
  have hfound : isBuiltin cmd.cmdName = true ∨ o.resolves = true := hforks.2.2.2.2.1
  have hfork : o.fork = some pid := hforks.2.2.2.2.2
  have hpid : ∀ pid', Forks i cmd o (.command i) pid' → pid' = pid := fun pid' h' ↦
    Option.some.inj (h'.2.2.2.2.2.symm.trans hfork)
  let pgid : ℕ := if i = 0 then pid else s.pgid
  let child : Child := ⟨.command i, pid, setpgid pid pgid,
    commandSetup p.isBg p.numCmds p.pipeFds i input.fd output.fd o.devNull output.table⟩
  have heq : spawnCommand p o i s =
      { table := (output.table.closeOpt input.fd).closeOpt output.fd
        cmds := s.cmds.modify i SingleCommand.rename
        children := s.children ++ (input.child.toList ++ output.child.toList ++ [child])
        childPids := s.childPids ++
          (input.child.toList ++ output.child.toList ++ [child]).map Child.pid
        hasError := s.hasError
        pgid := pgid
        messages := s.messages } := by
    simp [spawnCommand, hcmd, hargc, h.input_eq, h.input_ok, Spawn.adopt, h.output_eq,
      h.output_ok, hfound, hfork, child, pgid]
  rw [heq]
  refine ⟨h.table, fun j hj ↦ by simp [Ne.symm hj], ?_, ?_, ?_, _, rfl, rfl, ?_, ?_⟩
  · by_cases hi : i = 0
    · exact .inr hi
    · exact .inl (if_neg hi)
  · intro pid' hi h'
    rw [hpid pid' h']
    exact if_pos hi
  · exact fun hnone ↦ absurd hforks (hnone pid)
  · intro c hc
    rcases List.mem_append.mp hc with hc | hc
    · exact ⟨(h.helpers c hc).1, (h.helpers c hc).2 _⟩
    · obtain rfl := List.mem_singleton.mp hc
      exact ⟨hforks, rfl, input.fd, output.fd, o.devNull, input.table, output.table,
        h.input_opened, h.output_opened, rfl⟩
  · rintro (j | ⟨io, j⟩) pid' h'
    · obtain rfl := h'.1
      exact ⟨child, by simp, rfl, (hpid pid' h').symm⟩
    · obtain rfl : j = i := by
        cases io <;> exact h'.1
      obtain ⟨c, hc, hrole⟩ := h.all_helpers io pid' h'
      exact ⟨c, List.mem_append_left _ hc, hrole⟩

end BothSet

/-- The turn of a command whose redirections are set up: it is forked unless it is not found or the
`fork` fails. -/
theorem turn_of_setup_ok (hcmd : s.cmds[i]? = some cmd) (hargc : cmd.argc ≠ 0)
    (hin : SetupOk cmd.numInputs o.input) (hout : SetupOk cmd.numOutputs o.output) :
    Turn p o i cmd s (spawnCommand p o i s) := by
  obtain ⟨input, output, hset⟩ := exists_bothSet (p := p) (i := i) (s := s) hargc hin hout
  by_cases hfound : isBuiltin cmd.cmdName = true ∨ o.resolves = true
  · cases hfork : o.fork with
    | none => exact hset.turn_fork_failed hcmd hargc hfound hfork
    | some => exact hset.turn_forked hcmd ⟨rfl, hargc, hin, hout, hfound, hfork⟩
  · exact hset.turn_not_found hcmd hargc hfound

theorem spawnCommand_spec (hcmd : s.cmds[i]? = some cmd) :
    Turn p o i cmd s (spawnCommand p o i s) := by
  by_cases hargc : cmd.argc = 0
  · exact turn_of_argc_zero hcmd hargc
  by_cases hin : SetupOk cmd.numInputs o.input
  · by_cases hout : SetupOk cmd.numOutputs o.output
    · exact turn_of_setup_ok hcmd hargc hin hout
    · exact turn_of_output_failed hcmd hargc hin hout
  · exact turn_of_input_failed hcmd hargc hin

/-- The processes that a turn forks, from the table of the shell before it and the group so far. -/
def forkedBy (p : Pipeline) (o : CommandOutcome) (i : ℕ) (cmd : SingleCommand) (pgid : ℕ)
    (t : Table) : List Child :=
  let input := redirectSetupInput i cmd p.shellPgid o.input t
  let output := redirectSetupOutput i cmd p.shellPgid o.output input.table
  if cmd.argc ≠ 0 ∧ SetupOk cmd.numInputs o.input then
    input.child.toList ++
      if SetupOk cmd.numOutputs o.output then
        output.child.toList ++
          if isBuiltin cmd.cmdName = true ∨ o.resolves = true then
            o.fork.toList.map fun pid ↦ ⟨.command i, pid, setpgid pid (if i = 0 then pid else pgid),
              commandSetup p.isBg p.numCmds p.pipeFds i input.fd output.fd o.devNull output.table⟩
          else []
      else []
  else []

/-- The loop gets as far as `cmds[i].argv[0] = cmd_name`. -/
def Found (cmd : SingleCommand) (o : CommandOutcome) : Prop :=
  cmd.argc ≠ 0 ∧ SetupOk cmd.numInputs o.input ∧ SetupOk cmd.numOutputs o.output ∧
    (isBuiltin cmd.cmdName = true ∨ o.resolves = true)

instance (cmd : SingleCommand) (o : CommandOutcome) : Decidable (Found cmd o) :=
  inferInstanceAs (Decidable (_ ∧ _ ∧ _ ∧ _))

theorem spawnCommand_forked (hcmd : s.cmds[i]? = some cmd) :
    (spawnCommand p o i s).children = s.children ++ forkedBy p o i cmd s.pgid s.table ∧
      (spawnCommand p o i s).cmds =
        if Found cmd o then s.cmds.modify i SingleCommand.rename else s.cmds := by
  have hinput := setupSpec_input i cmd p.shellPgid o.input s.table
  have houtput := setupSpec_output i cmd p.shellPgid o.output
    (redirectSetupInput i cmd p.shellPgid o.input s.table).table
  simp only [spawnCommand, hcmd, forkedBy, Found]
  generalize redirectSetupInput i cmd p.shellPgid o.input s.table = input at hinput houtput ⊢
  by_cases hargc : cmd.argc = 0
  · simp [hargc]
  by_cases hin : SetupOk cmd.numInputs o.input
  · simp only [Spawn.adopt, (hinput.ok hin).1]
    generalize redirectSetupOutput i cmd p.shellPgid o.output input.table = output at houtput ⊢
    by_cases hout : SetupOk cmd.numOutputs o.output
    · by_cases hfound : isBuiltin cmd.cmdName = true ∨ o.resolves = true
      · cases hfork : o.fork with
        | none => simp [hargc, hin, hout, (houtput.ok hout).1, hfound, Spawn.fail]
        | some => simp [hargc, hin, hout, (houtput.ok hout).1, hfound]
      · simp [hargc, hin, hout, (houtput.ok hout).1, hfound, Spawn.fail]
    · obtain ⟨message, hmessage⟩ := Option.ne_none_iff_exists'.mp (houtput.failed hout).1
      simp [hargc, hin, hout, hmessage, Spawn.fail]
  · obtain ⟨message, hmessage⟩ := Option.ne_none_iff_exists'.mp (hinput.failed hin).1
    simp [hargc, hin, hmessage, Spawn.fail]

end Turn

/-! ### The whole loop -/

theorem ChildOk.congr {t' : Table} (ht : t'.get = t.get) {c : Child} (h : ChildOk p pgid t' c) :
    ChildOk p pgid t c := by
  unfold ChildOk at h ⊢
  split at h
  · obtain ⟨hpgid, u, hu, hinherits⟩ := h
    exact ⟨hpgid, u, hu, fun fd hfd ↦ by rw [← ht] at hfd ⊢; exact hinherits fd hfd⟩
  · obtain ⟨hpgid, inFd, outFd, devNull, t₁, t₂, h₁, h₂, hfds⟩ := h
    refine ⟨hpgid, inFd, outFd, devNull, t₁, t₂, ⟨?_, h₁.refers, ?_⟩, h₂, hfds⟩
    · rw [← ht]
      exact h₁.free
    · rw [← ht]
      exact h₁.same

/-- What the loop has done after its first `k` turns, from a table `t`. -/
structure LoopOk (p : Pipeline) (o : ℕ → CommandOutcome) (cmds : List SingleCommand) (t : Table)
    (k : ℕ) (s : Spawn) : Prop where
  table : s.table.get = t.get
  pending : ∀ j, k ≤ j → s.cmds[j]? = cmds[j]?
  pids : s.childPids = s.children.map Child.pid
  forked : ∀ c ∈ s.children, ∃ i cmd, i < k ∧ cmds[i]? = some cmd ∧
    Forks i cmd (o i) c.role c.pid ∧ ChildOk p s.pgid t c
  all : ∀ i cmd, i < k → cmds[i]? = some cmd → ∀ role pid, Forks i cmd (o i) role pid →
    ∃ c ∈ s.children, c.role = role ∧ c.pid = pid
  leader : ∀ cmd pid, 0 < k → cmds[0]? = some cmd → Forks 0 cmd (o 0) (.command 0) pid →
    s.pgid = pid
  no_leader : (∀ cmd pid, cmds[0]? = some cmd → ¬ Forks 0 cmd (o 0) (.command 0) pid) → s.pgid = 0

theorem loopOk_start (p : Pipeline) (o : ℕ → CommandOutcome) (cmds : List SingleCommand)
    (t : Table) : LoopOk p o cmds t 0 ⟨t, cmds, [], [], false, 0, []⟩ where
  table := rfl
  pending := fun _ _ ↦ rfl
  pids := rfl
  forked := nofun
  all := fun _ _ h ↦ absurd h (Nat.not_lt_zero _)
  leader := fun _ _ h ↦ absurd h (Nat.lt_irrefl 0)
  no_leader := fun _ ↦ rfl

theorem LoopOk.turn {p : Pipeline} {o : ℕ → CommandOutcome} {cmds : List SingleCommand} {t : Table}
    {k : ℕ} {s : Spawn} (h : LoopOk p o cmds t k s) (hk : k < cmds.length) :
    LoopOk p o cmds t (k + 1) (spawnCommand p (o k) k s) := by
  obtain ⟨cmd, hcmd⟩ : ∃ cmd, cmds[k]? = some cmd := ⟨cmds[k], List.getElem?_eq_getElem hk⟩
  have hturn : Turn p (o k) k cmd s (spawnCommand p (o k) k s) :=
    spawnCommand_spec ((h.pending k (Nat.le_refl k)).trans hcmd)
  generalize spawnCommand p (o k) k s = s' at hturn
  obtain ⟨new, hchildren, hpids, hnew, hall⟩ := hturn.forked
  -- The group is settled by the first turn, before which nothing has been forked.
  have hpgid : ∀ c ∈ s.children, s'.pgid = s.pgid := by
    intro c hc
    obtain ⟨i, -, hi, -⟩ := h.forked c hc
    exact hturn.pgid.resolve_right (by omega)
  refine ⟨hturn.table.trans h.table, fun j hj ↦ ?_, ?_, fun c hc ↦ ?_, fun i cmd' hi hcmd' role pid
    hforks ↦ ?_, fun cmd' pid _ hcmd' hforks ↦ ?_, fun hnone ↦ ?_⟩
  · rw [hturn.cmds j (by omega), h.pending j (by omega)]
  · rw [hpids, hchildren, h.pids, List.map_append]
  · rw [hchildren] at hc
    rcases List.mem_append.mp hc with hc | hc
    · obtain ⟨i, cmd', hi, hcmd', hforks, hok⟩ := h.forked c hc
      rw [hpgid c hc]
      exact ⟨i, cmd', by omega, hcmd', hforks, hok⟩
    · obtain ⟨hforks, hok⟩ := hnew c hc
      exact ⟨k, cmd, by omega, hcmd, hforks, hok.congr h.table⟩
  · rw [hchildren]
    rcases eq_or_ne i k with rfl | hik
    · cases hcmd.symm.trans hcmd'
      obtain ⟨c, hc, hrole⟩ := hall role pid hforks
      exact ⟨c, List.mem_append_right _ hc, hrole⟩
    · obtain ⟨c, hc, hrole⟩ := h.all i cmd' (by omega) hcmd' role pid hforks
      exact ⟨c, List.mem_append_left _ hc, hrole⟩
  · rcases eq_or_ne k 0 with rfl | hk0
    · cases hcmd.symm.trans hcmd'
      exact hturn.leader pid rfl hforks
    · rw [hturn.pgid.resolve_right hk0]
      exact h.leader cmd' pid (by omega) hcmd' hforks
  · rcases eq_or_ne k 0 with rfl | hk0
    · rw [hturn.no_leader fun pid ↦ hnone cmd pid hcmd]
      exact h.no_leader hnone
    · rw [hturn.pgid.resolve_right hk0]
      exact h.no_leader hnone

theorem spawnLoop_spec (p : Pipeline) (o : ℕ → CommandOutcome) (cmds : List SingleCommand)
    (t : Table) (hk : k ≤ cmds.length) :
    LoopOk p o cmds t k (spawnLoop p o ⟨t, cmds, [], [], false, 0, []⟩ k) := by
  induction k with
  | zero => exact loopOk_start p o cmds t
  | succ _ ih => exact (ih (Nat.le_of_succ_le hk)).turn hk

/-- A turn of the loop finds its command as the parser left it. -/
theorem pending_spawnLoop (p : Pipeline) (o : ℕ → CommandOutcome) (cmds : List SingleCommand)
    (t : Table) (hk : k < cmds.length) :
    (spawnLoop p o ⟨t, cmds, [], [], false, 0, []⟩ k).cmds[k]? = some cmds[k] :=
  ((spawnLoop_spec p o cmds t hk.le).pending k le_rfl).trans (List.getElem?_eq_getElem hk)

theorem mem_children_spawnLoop {o : ℕ → CommandOutcome} {cmds : List SingleCommand}
    (hk : k ≤ cmds.length) {c : Child}
    (hc : c ∈ (spawnLoop p o ⟨t, cmds, [], [], false, 0, []⟩ k).children) :
    ∃ i cmd pgid t', cmds[i]? = some cmd ∧ t'.get = t.get ∧
      c ∈ forkedBy p (o i) i cmd pgid t' := by
  induction k with
  | zero => cases hc
  | succ k ih =>
    rw [spawnLoop, (spawnCommand_forked (pending_spawnLoop p o cmds t hk)).1] at hc
    rcases List.mem_append.mp hc with hc | hc
    · exact ih (Nat.le_of_succ_le hk) hc
    · exact ⟨k, cmds[k], _, _, List.getElem?_eq_getElem hk,
        (spawnLoop_spec p o cmds t (Nat.le_of_succ_le hk)).table, hc⟩

/-! ### The pipes between the commands -/

/-- `t'` is `t` with the ends of the first `k` pipes opened. -/
structure PipesOpen (t : Table) (k : ℕ) (pipeFds : List (ℕ × ℕ)) (t' : Table) : Prop where
  length : pipeFds.length = k
  opened : t.Opened (pipeEnds pipeFds) (fun _ ↦ True) t'
  ends : ∀ j (fds : ℕ × ℕ), pipeFds[j]? = some fds → t'.get fds.1 = some (.pipe j .read) ∧
    t'.get fds.2 = some (.pipe j .write) ∧ fds.2 ≠ 0
  zero : 0 < k → t'.get 0 ≠ none

theorem PipesOpen.pipe {t t' : Table} {k : ℕ} {pipeFds : List (ℕ × ℕ)}
    (h : PipesOpen t k pipeFds t') :
    PipesOpen t (k + 1) (pipeFds ++ [(t'.pipe (.pipe k .read) (.pipe k .write)).1])
      (t'.pipe (.pipe k .read) (.pipe k .write)).2 where
  length := by simp [h.length]
  opened := by
    have hpipe := (DescriptorTable.opened_pipe t' (.pipe k .read) (.pipe k .write)).mono
      (Q := fun _ ↦ True) (fun _ _ ↦ trivial)
    simpa [pipeEnds] using h.opened.trans hpipe
  ends := by
    intro j fds hfds
    by_cases hj : j < pipeFds.length
    · rw [List.getElem?_append_left hj] at hfds
      obtain ⟨hread, hwrite, hne⟩ := h.ends j fds hfds
      have hpipe := DescriptorTable.opened_pipe t' (.pipe k .read) (.pipe k .write)
      exact ⟨hpipe.get_some hread, hpipe.get_some hwrite, hne⟩
    · rw [List.getElem?_append_right (by omega)] at hfds
      obtain ⟨hlt, rfl⟩ := List.getElem?_eq_some_iff.mp hfds
      obtain rfl : j = k := by
        simp only [List.length_singleton] at hlt
        have hlength := h.length
        omega
      simp only [List.getElem_singleton]
      exact ⟨DescriptorTable.get_pipe_read .., DescriptorTable.get_pipe_write ..,
        DescriptorTable.pipe_write_ne_zero _ _ _⟩
  zero := fun _ ↦ DescriptorTable.get_zero_pipe _ _ _

/-- Either every pipe could be opened, or the table is as it was. -/
theorem openPipes_cases (oks : ℕ → Bool) (t : Table) (k : ℕ) :
    ((∀ j < k, oks j = true) ∧ ∃ pipeFds t', openPipes oks t k = (some pipeFds, t') ∧
      PipesOpen t k pipeFds t') ∨
    ((∃ j < k, oks j = false) ∧ ∃ t', openPipes oks t k = (none, t') ∧ t'.get = t.get) := by
  induction k with
  | zero =>
    refine .inl ⟨fun j hj ↦ absurd hj (Nat.not_lt_zero j), [], t, rfl, rfl,
      DescriptorTable.Opened.refl t _, fun j fds h ↦ ?_, fun h ↦ absurd h (Nat.lt_irrefl 0)⟩
    cases h
  | succ k ih =>
    rcases ih with ⟨hall, pipeFds, t', hopen, hpipes⟩ | ⟨⟨j, hj, hfail⟩, t', hopen, hget⟩
    · by_cases hk : oks k = true
      · refine .inl ⟨fun j hj ↦ ?_, _, _, by rw [openPipes, hopen]; simp only [hk, if_true],
          hpipes.pipe⟩
        rcases Nat.lt_succ_iff_lt_or_eq.mp hj with hj | rfl
        · exact hall j hj
        · exact hk
      · refine .inr ⟨⟨k, Nat.lt_succ_self k, by simpa using hk⟩, _,
          by rw [openPipes, hopen]; simp only [hk]; rfl, ?_⟩
        exact hpipes.opened.closeAll _ fun _ ↦ Iff.rfl
    · exact .inr ⟨⟨j, Nat.lt_succ_of_lt hj, hfail⟩, t', by rw [openPipes, hopen], hget⟩

/-- `pipes_execute` up to the job: a pipe could not be opened, or the loop has run. -/
theorem pipesSpawn_cases (shellPgid : ℕ+) (cmds : List SingleCommand) (isBg : Bool)
    (o : PipelineOutcome) (t : Table) :
    ((∃ k < cmds.length - 1, o.pipes k = false) ∧
      ∃ t', pipesSpawn shellPgid cmds isBg o t = .inl t' ∧ t'.get = t.get) ∨
    ((∀ k < cmds.length - 1, o.pipes k = true) ∧ ∃ pipeFds t' s,
      pipesSpawn shellPgid cmds isBg o t =
        .inr { (s : Spawn) with table := s.table.closeAll (pipeEnds pipeFds) } ∧
      PipesOpen t (cmds.length - 1) pipeFds t' ∧
      LoopOk ⟨shellPgid, isBg, cmds.length, pipeFds⟩ o.command cmds t' cmds.length s) := by
  unfold pipesSpawn
  rcases openPipes_cases o.pipes t (cmds.length - 1) with
    ⟨hall, pipeFds, t', hopen, hpipes⟩ | ⟨hfail, t', hopen, hget⟩
  · rw [hopen]
    exact .inr ⟨hall, pipeFds, t', _, rfl, hpipes, spawnLoop_spec _ _ _ _ le_rfl⟩
  · rw [hopen]
    exact .inl ⟨hfail, t', rfl, hget⟩

/-- The name that `pipes_execute` gives a process beyond the number of the commands. -/
def fallbackName (isBg : Bool) : List Byte := if isBg then feederName else procName

/-- What `pipes_execute` leaves: nothing is started, or it is what the loop has left. -/
theorem pipesExecute_spawn (shellPgid : ℕ+) (cmds : List SingleCommand) (isBg : Bool)
    (cmdLine : Option (List Byte)) (o : PipelineOutcome) (t : Table) (jobs : JobTable) :
    let run := pipesExecute shellPgid cmds isBg cmdLine o t jobs
    (run.children = [] ∧ run.added = none ∧ run.table.get = t.get) ∨
    ∃ pipeFds t' s, PipesOpen t (cmds.length - 1) pipeFds t' ∧
      s = spawnLoop ⟨shellPgid, isBg, cmds.length, pipeFds⟩ o.command
        ⟨t', cmds, [], [], false, 0, []⟩ cmds.length ∧
      run.children = s.children ∧ run.table = s.table.closeAll (pipeEnds pipeFds) ∧
      ∀ slot, run.added = some slot → ∃ state,
        addJob s cmdLine state (fallbackName isBg) jobs = (some slot, run.jobs) := by
  unfold pipesExecute pipesSpawn
  by_cases hnil : cmds = []
  · rw [if_pos hnil]
    exact .inl ⟨rfl, rfl, rfl⟩
  rw [if_neg hnil]
  rcases openPipes_cases o.pipes t (cmds.length - 1) with
    ⟨-, pipeFds, t', hopen, hpipes⟩ | ⟨-, t', hopen, hget⟩
  · rw [hopen]
    refine .inr ⟨pipeFds, t', _, hpipes, rfl, ?_⟩
    dsimp only
    generalize spawnLoop ⟨shellPgid, isBg, cmds.length, pipeFds⟩ o.command
      ⟨t', cmds, [], [], false, 0, []⟩ cmds.length = s
    cases isBg with
    | true =>
      refine ⟨rfl, rfl, fun slot hslot ↦ ⟨.running, ?_⟩⟩
      exact Prod.ext hslot rfl
    | false =>
      refine ⟨rfl, rfl, fun slot hslot ↦ ⟨.stopped, ?_⟩⟩
      by_cases hany : (s.childPids.any fun pid ↦ o.waits pid = .stopped) = true
      · simp only [Bool.false_eq_true, if_false, hany, if_true] at hslot ⊢
        exact Prod.ext hslot rfl
      · simp only [Bool.false_eq_true, if_false, hany] at hslot
        cases hslot
  · rw [hopen]
    exact .inl ⟨rfl, rfl, hget⟩

end Irish.Shell
