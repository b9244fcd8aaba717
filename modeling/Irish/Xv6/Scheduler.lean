import Irish.Library.Run
import Irish.Xv6.Process

/-!
# Scheduling on one CPU

The scheduler loops of the two one-CPU builds, the timer interrupt, and the kernel as a transition
system. An `Event` is a section that the kernel runs with interrupts off, or the choice of when an
interrupt arrives; `step` refuses an event that the code cannot take in a state. The idle loop of
`scheduler` is the event `dispatch` in a state where nothing is `RUNNABLE`: it leaves the state as
it is.
-/

set_option autoImplicit false

namespace Irish.Xv6

open Library

/-! ### The multi-level feedback queue -/

/-- The ticks between two boosts. -/
def boostPeriod : ℕ := 48

/-- `mlfq_timeslice`. -/
def mlfqTimeslice (q : ℕ) : ℕ := [1, 4, 8, 16].getD q 0

/-- The body of the loop of `mlfq_boost`. -/
def boostBody (p : Proc) (seq : ℕ) : Proc × ℕ :=
  if p.state ≠ .unused ∧ p.state ≠ .zombie then
    stampProc { p with mlfqQueue := 0, mlfqTicksUsed := 0 } seq
  else (p, seq)

def mlfqBoost (k : Kernel) : Kernel := k.sweepProcs boostBody

def mlfqHasHigherPriority (curQ : ℕ) (k : Kernel) : Bool :=
  k.procs.any fun p ↦ p.state = .runnable ∧ p.mlfqQueue < curQ

/-- The counters that `mlfq_tick_handler` advances for a tick. -/
def chargeFields (p : Proc) : Proc :=
  { p with mlfqTicksUsed := p.mlfqTicksUsed + 1, mlfqTotalTicks := p.mlfqTotalTicks + 1,
           rtime := (p.rtime + 1) % uintSize }

/-- The demotion of a process that has used its slice up. -/
def expireFields (p : Proc) : Proc :=
  { p with mlfqTicksUsed := 0,
           mlfqQueue := if p.mlfqQueue < 3 then p.mlfqQueue + 1 else p.mlfqQueue }

/-- `mlfq_tick_handler` for the process `p` in a slot: charge the tick, and say whether the process
should yield. The trace output is not modelled. -/
def mlfqTickHandler (i : ℕ) (p : Proc) (k : Kernel) : Bool × Kernel :=
  let charged := k.modify i chargeFields
  let boosted := 0 < k.ticks ∧ k.ticks % boostPeriod = 0
  if mlfqTimeslice p.mlfqQueue ≤ p.mlfqTicksUsed + 1 then
    (true, (charged.modify i expireFields).stamp i)
  else (decide boosted || mlfqHasHigherPriority p.mlfqQueue charged, charged)

/-- The scan for the process that entered queue `q` first: the best slot so far and its sequence
number. -/
def scanQueue (q : ℕ) : List Proc → ℕ → Option (ℕ × ℕ) → Option (ℕ × ℕ)
  | [], _, best => best
  | p :: rest, slot, best =>
    scanQueue q rest (slot + 1)
      (if p.state = .runnable ∧ p.mlfqQueue = q then
        match best with
        | none => some (slot, p.mlfqEnterSeq)
        | some (best, bestSeq) =>
          if p.mlfqEnterSeq < bestSeq then some (slot, p.mlfqEnterSeq) else some (best, bestSeq)
      else best)

/-- The loop over the queues in `scheduler`, from queue `q` on. The check of the chosen process
after its lock is taken again is kept; when it fails the next queue is scanned. -/
def scanQueues (procs : List Proc) : List ℕ → Option ℕ
  | [] => none
  | q :: queues =>
    match scanQueue q procs 0 none with
    | none => scanQueues procs queues
    | some (best, _) =>
      match procs[best]? with
      | none => scanQueues procs queues
      | some p =>
        if p.state = .runnable ∧ p.mlfqQueue = q then some best else scanQueues procs queues

/-- The scan of the first-come first-served scheduler for the smallest pid. -/
def scanPids : List Proc → ℕ → Option ℕ → ℤ → Option ℕ
  | [], _, best, _ => best
  | p :: rest, slot, best, minPid =>
    if p.state = .runnable ∧ p.pid < minPid then scanPids rest (slot + 1) (some slot) p.pid
    else scanPids rest (slot + 1) best minPid

/-- The process that one iteration of `scheduler` switches to. -/
def pick (b : Build) (k : Kernel) : Option ℕ :=
  match b with
  | .mlfq => scanQueues k.procs [0, 1, 2, 3]
  | .fifo =>
    match scanPids k.procs 0 none 0x7fffffff with
    | none => none
    | some best =>
      match k.procs[best]? with
      | none => none
      | some p => if p.state = .runnable then some best else none

/-- The value of the tick counter as an `int`, the type of `stime`. -/
def ticksAsInt (k : Kernel) : ℤ := Int.bmod k.ticks uintSize

/-- The switch of `scheduler` to a chosen process. -/
def switchTo (i : ℕ) (k : Kernel) : Kernel :=
  { k.modify i (fun p ↦
      { p with stime := if p.stime = -1 then ticksAsInt k else p.stime, state := .running }) with
    cur := some i }

/-! ### The timer interrupt -/

/-- `clockintr` on CPU 0. -/
def clockintr (b : Build) (k : Kernel) : Kernel :=
  let k := { k with ticks := (k.ticks + 1) % uintSize }
  let k := wakeup b (some .ticks) k
  match b with
  | .mlfq => if 0 < k.ticks ∧ k.ticks % boostPeriod = 0 then mlfqBoost k else k
  | .fifo => k

def yield (i : ℕ) (k : Kernel) : Kernel :=
  { k.modify i (fun p ↦ { p with state := .runnable }) with cur := none }

/-- What a timer interrupt interrupted. The scheduler is interrupted in kernel mode. -/
inductive Mode
  | user
  | kernel
deriving DecidableEq, Repr

/-- The part of `usertrap` and `kerneltrap` after `clockintr`. Only `usertrap` looks at `killed`
before it charges the tick; a killed process goes on to `kexit`. -/
def chargeTick (b : Build) (mode : Mode) (k : Kernel) : Kernel :=
  match k.cur with
  | none => k
  | some i =>
    match k.procs[i]? with
    | none => k
    | some p =>
      if mode = .user ∧ p.killed then k
      else
        match b with
        | .mlfq =>
          let (shouldYield, k) := mlfqTickHandler i p k
          if shouldYield then yield i k else k
        | .fifo => k.modify i fun p ↦ { p with rtime := (p.rtime + 1) % uintSize }

/-- A timer interrupt: `usertrap` or `kerneltrap` with `which_dev == 2`. -/
def timerTrap (b : Build) (mode : Mode) (k : Kernel) : Kernel := chargeTick b mode (clockintr b k)

/-! ### The transition system -/

inductive Event
  | dispatch
  | timer (mode : Mode)
  | forkAlloc (mem : Memory)
  | forkLink
  | forkRunnable
  | sleepPrepare (chan : Chan)
  | sleep
  | wakeup (chan : Chan)
  | kill (pid : ℤ)
  | setkilled
  | exit (status : ℤ)
  | wait (copyout : Bool)
deriving DecidableEq, Repr

/-- What the running process does. A process inside `kfork` can only go on with it. -/
def procStep (b : Build) (i : ℕ) (p : Proc) (k : Kernel) : Event → Option Kernel
  | .forkAlloc mem => if p.forkStage = .idle then some (kforkAlloc b mem i k) else none
  | .forkLink =>
    match p.forkStage with
    | .allocated np => some (kforkLink i np k)
    | _ => none
  | .forkRunnable =>
    match p.forkStage with
    | .linked np => some (kforkRunnable i np k)
    | _ => none
  | .sleepPrepare chan => if p.forkStage = .idle then some (sleepPrepare chan i k) else none
  | .sleep => if p.forkStage = .idle then some (sleep b i p k) else none
  | .kill pid => if p.forkStage = .idle then some (kkill b pid k) else none
  | .setkilled => if p.forkStage = .idle then some (setkilled i k) else none
  | .exit status =>
    if p.forkStage = .idle ∧ i ≠ k.initproc then some (kexit b status i k) else none
  | .wait copyout => if p.forkStage = .idle then some (kwait b copyout i p k) else none
  | _ => none

/-- One event of the kernel. Wakeups also come from the handlers of device interrupts, so they are
possible whether or not a process is running. -/
def step (b : Build) (k : Kernel) (e : Event) : Option Kernel :=
  match e with
  | .timer mode => if mode = .user ∧ k.cur = none then none else some (timerTrap b mode k)
  | .wakeup chan => some (wakeup b (some chan) k)
  | .dispatch =>
    match k.cur with
    | some _ => none
    | none =>
      match pick b k with
      | none => some k
      | some i => some (switchTo i k)
  | e =>
    match k.cur with
    | none => none
    | some i =>
      match k.procs[i]? with
      | none => none
      | some p => procStep b i p k e

end Irish.Xv6
