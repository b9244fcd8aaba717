import Irish.Library.Exclusive
import Irish.Xv6.Locks
import Irish.Xv6.Metrics

/-!
# The kernel on several CPUs

`kernel/proc.c` and `kernel/trap.c` on any number of CPUs and for the three schedulers, at the
granularity of `p->lock`. A critical section under the lock of a process is cut into the
acquisition, its body and the release, and a switch between the scheduler and a process into the
write of `p->state`, the write of `c->proc` and the release on the other side, so that every CPU may
run between any two of these.

The scheduler loops are followed instruction by instruction, with the cursor and the best process so
far as local variables of the CPU. The loops over the table in `wakeup`, `kkill`, `mlfq_boost`,
`allocproc` and `kwait` visit one process after another; here a visit may begin whenever the CPU may
execute the routine, so every interleaving of these loops is a run, in any order of the slots. What
the other locks order (`wait_lock`, `tickslock`) is left free in the same way. Whether the scan of
`mlfq_has_higher_priority` finds a process is an argument, and so is whether a timer interrupt came
from user or kernel code.
-/

set_option autoImplicit false

namespace Irish.Xv6

open Library

/-- The fields of `struct proc` that a build compiles in. -/
def Scheduler.build : Scheduler → Build
  | .mlfq => .mlfq
  | .roundRobin => .fifo
  | .fifo => .fifo

/-! ### One visit of a process -/

/-- The body of the loop of `kkill`. -/
def killBody (b : Build) (pid : ℤ) (p : Proc) (seq : ℕ) : Proc × ℕ :=
  if p.pid = pid then
    if p.state = .sleeping then
      match b with
      | .mlfq => stampProc { p with killed := true, state := .runnable } seq
      | .fifo => ({ p with killed := true, state := .runnable }, seq)
    else ({ p with killed := true }, seq)
  else (p, seq)

/-- `allocproc` from its `UNUSED` slot on, and `kfork` up to the release of the child's lock: the
process, the next sequence number, and whether the child is there. -/
def allocBody (b : Build) (mem : Memory) (ticks : ℕ) (pid : ℤ) (p : Proc) (seq : ℕ) :
    Proc × ℕ × Bool :=
  let p := { p with pid := pid, state := .used }
  if mem.trapframe = false then (freeFields b p, seq, false)
  else if mem.pagetable = false then (freeFields b p, seq, false)
  else
    let p := { p with ctime := ticks, stime := -1, etime := 0, rtime := 0 }
    let (p, seq) :=
      match b with
      | .mlfq => stampProc { p with mlfqQueue := 0, mlfqTicksUsed := 0, mlfqTotalTicks := 0 } seq
      | .fifo => (p, seq)
    if mem.uvmcopy = false then (freeFields b p, seq, false) else (p, seq, true)

/-- The body of the loop of `kwaitx` for the waiting process `i`; `kwait` copies out the status
only. -/
def reapBody (b : Build) (copy : CopyOut) (i : Option ℕ) (pp : Proc) : Option Metrics × Proc :=
  if pp.parent = i ∧ pp.state = .zombie ∧ copy.all then
    (some (metricsOf pp), freeFields b { pp with parent := none })
  else (none, pp)

/-- A process is switched to. -/
def dispatchFields (ticks : ℕ) (p : Proc) : Proc :=
  { p with stime := if p.stime = -1 then Int.bmod ticks uintSize else p.stime, state := .running }

/-- Why a process calls `sched`. -/
inductive Leave
  | yield
  | sleep
  | exit (status : ℤ)
deriving DecidableEq, Repr

/-- The process that calls `sched`, or nothing if `sleep` finds that it has been woken. -/
def leaveBody (b : Build) (ticks : ℕ) (why : Leave) (p : Proc) : Option Proc :=
  match why with
  | .yield => some { p with state := .runnable }
  | .sleep =>
    if p.chan ≠ none then
      match b with
      | .mlfq => some { p with state := .sleeping, mlfqTicksUsed := 0 }
      | .fifo => some { p with state := .sleeping }
    else none
  | .exit status => some { p with etime := ticks, xstate := status, state := .zombie }

/-- The charge of a tick after `devintr`: the process, the next sequence number, and whether it
yields. -/
def chargeBody (b : Scheduler) (ticks : ℕ) (preempted : Bool) (p : Proc) (seq : ℕ) :
    Proc × ℕ × Bool :=
  match b with
  | .roundRobin => ({ p with rtime := (p.rtime + 1) % uintSize }, seq, true)
  | .fifo => ({ p with rtime := (p.rtime + 1) % uintSize }, seq, false)
  | .mlfq =>
    if mlfqTimeslice p.mlfqQueue ≤ p.mlfqTicksUsed + 1 then
      ((stampProc (expireFields (chargeFields p)) seq).1, seq + 1, true)
    else (chargeFields p, seq, decide (0 < ticks ∧ ticks % boostPeriod = 0) || preempted)

/-! ### The machine -/

/-- The critical sections under `p->lock`. -/
inductive Section
  | wakeup (chan : Chan)
  | kill (pid : ℤ)
  | setkilled
  | sleepPrepare (chan : Chan)
  | alloc (mem : Memory)
  | publish
  | reap (copy : CopyOut)
  | boost
  | look
  | choose
  | leave (why : Leave)
deriving DecidableEq, Repr

/-- Where a CPU is under the lock it holds. -/
inductive Phase
  /-- acquired -/
  | body (sec : Section)
  /-- the scheduler has written `RUNNING`, and next writes `c->proc` -/
  | marked
  /-- `sched` has switched to the scheduler, which next clears `c->proc` -/
  | stopped
  /-- to be released -/
  | release
deriving DecidableEq, Repr

/-- Where the code of `scheduler` is: between two rounds, with interrupts on; in the loop over the
table, for queue `q`, with the best process and its pid or sequence number; or about to look at the
best one again. -/
inductive Scan
  | top
  | look (q slot : ℕ) (best : Option (ℕ × ℤ))
  | choose (q best : ℕ)
deriving DecidableEq, Repr

/-- Where a CPU is in a timer interrupt. -/
inductive Trap
  | idle
  | handling
  | yielding
deriving DecidableEq, Repr

/-- `struct cpu`, with what the CPU executes. While a process runs, `scan` is where the scheduler
goes on afterwards. -/
structure CpuState where
  proc : Option ℕ := none
  scan : Scan := .top
  trap : Trap := .idle
  held : Option (ℕ × Phase) := none
deriving DecidableEq, Repr

structure Machine (n : ℕ) where
  procs : List Proc
  cpus : Fin n → CpuState
  ticks : ℕ
  nextpid : ℤ
  initproc : ℕ
  seq : ℕ
deriving DecidableEq

namespace Machine

variable {n : ℕ}

def setCpu (m : Machine n) (c : Fin n) (cpu : CpuState) : Machine n :=
  { m with cpus := Function.update m.cpus c cpu }

def setProc (m : Machine n) (i : ℕ) (p : Proc) : Machine n := { m with procs := m.procs.set i p }

/-- The kernel stack of the process on a CPU, as far as `kfork` has used it. -/
def setStage (m : Machine n) (c : Fin n) (stage : ForkStage) : Machine n :=
  match (m.cpus c).proc with
  | none => m
  | some i => { m with procs := m.procs.modify i fun p ↦ { p with forkStage := stage } }

def stage (m : Machine n) (c : Fin n) : Option ForkStage :=
  ((m.cpus c).proc.bind fun i ↦ m.procs[i]?).map (·.forkStage)

/-- The CPU executes the kernel code of a process, outside `kfork` and outside an interrupt. -/
def inKernel (m : Machine n) (c : Fin n) : Prop :=
  m.stage c = some .idle ∧ (m.cpus c).trap = .idle

/-- An interrupt handler may run: in a process, or between two rounds of the scheduler. -/
def interruptible (m : Machine n) (c : Fin n) : Prop :=
  (m.cpus c).proc ≠ none ∨ (m.cpus c).scan = .top

instance (m : Machine n) (c : Fin n) : Decidable (m.inKernel c) :=
  inferInstanceAs (Decidable (_ ∧ _))

instance (m : Machine n) (c : Fin n) : Decidable (m.interruptible c) :=
  inferInstanceAs (Decidable (_ ∨ _))

/-- Nobody holds the lock of a process. -/
def unlocked (m : Machine n) (slot : ℕ) : Prop :=
  ∀ d, (m.cpus d).held.map Prod.fst ≠ some slot

instance (m : Machine n) (slot : ℕ) : Decidable (m.unlocked slot) :=
  inferInstanceAs (Decidable (∀ _, _))

end Machine

def Scan.looksAt (slot : ℕ) : Scan → Prop
  | .look _ cursor _ => cursor = slot
  | _ => False

def Scan.chooses (slot : ℕ) : Scan → Prop
  | .choose _ best => best = slot
  | _ => False

instance (slot : ℕ) : (scan : Scan) → Decidable (scan.looksAt slot)
  | .look _ cursor _ => inferInstanceAs (Decidable (cursor = slot))
  | .top => inferInstanceAs (Decidable False)
  | .choose _ _ => inferInstanceAs (Decidable False)

instance (slot : ℕ) : (scan : Scan) → Decidable (scan.chooses slot)
  | .choose _ best => inferInstanceAs (Decidable (best = slot))
  | .top => inferInstanceAs (Decidable False)
  | .look _ _ _ => inferInstanceAs (Decidable False)

/-- A CPU that holds no lock may go on to the acquisition for a section. -/
def mayBegin (b : Scheduler) {n : ℕ} (m : Machine n) (c : Fin n) (slot : ℕ) : Section → Prop
  | .wakeup _ => m.interruptible c ∧ (m.cpus c).trap ≠ .yielding
  | .kill _ => m.inKernel c
  | .setkilled => m.inKernel c ∧ (m.cpus c).proc = some slot
  | .sleepPrepare _ => m.inKernel c ∧ (m.cpus c).proc = some slot
  | .alloc _ => m.inKernel c
  | .publish => m.stage c = some (.linked slot) ∧ (m.cpus c).trap = .idle
  | .reap _ => m.inKernel c
  | .boost => b = .mlfq ∧ c.val = 0 ∧ (m.cpus c).trap = .handling
  | .look => (m.cpus c).proc = none ∧ (m.cpus c).trap = .idle ∧ (m.cpus c).scan.looksAt slot
  | .choose => (m.cpus c).proc = none ∧ (m.cpus c).trap = .idle ∧ (m.cpus c).scan.chooses slot
  | .leave .yield => (m.cpus c).proc = some slot ∧ (m.cpus c).trap = .yielding
  | .leave .sleep => m.inKernel c ∧ (m.cpus c).proc = some slot
  | .leave (.exit _) => m.inKernel c ∧ (m.cpus c).proc = some slot ∧ slot ≠ m.initproc

instance (b : Scheduler) {n : ℕ} (m : Machine n) (c : Fin n) (slot : ℕ) :
    (sec : Section) → Decidable (mayBegin b m c slot sec)
  | .kill _ | .alloc _ | .reap _ => inferInstanceAs (Decidable (m.inKernel c))
  | .wakeup _ | .setkilled | .sleepPrepare _ | .publish | .boost | .look | .choose
  | .leave .yield | .leave .sleep | .leave (.exit _) => inferInstanceAs (Decidable (_ ∧ _))

/-! ### The scheduler loops -/

/-- The best process after a look at the one in `slot`. The round-robin loop keeps none. -/
def lookAt (b : Scheduler) (q slot : ℕ) (p : Proc) (best : Option (ℕ × ℤ)) : Option (ℕ × ℤ) :=
  match b with
  | .roundRobin => best
  | .fifo =>
    if p.state = .runnable ∧ p.pid < (best.map Prod.snd).getD 0x7fffffff then some (slot, p.pid)
    else best
  | .mlfq =>
    if p.state = .runnable ∧ p.mlfqQueue = q then
      match best with
      | none => some (slot, p.mlfqEnterSeq)
      | some (_, bestSeq) =>
        if (p.mlfqEnterSeq : ℤ) < bestSeq then some (slot, p.mlfqEnterSeq) else best
    else best

/-- Where a round goes on when queue `q` has given no process. -/
def nextQueue (b : Scheduler) (q : ℕ) : Scan :=
  if b = .mlfq ∧ q < 3 then .look (q + 1) 0 none else .top

/-- Where a round goes on after the loop over the table. -/
def afterLoop (b : Scheduler) (q : ℕ) (best : Option (ℕ × ℤ)) : Scan :=
  match best with
  | some (slot, _) => .choose q slot
  | none => nextQueue b q

/-- Where a round goes on when the process in `slot` has given the CPU back. -/
def afterRun (b : Scheduler) (slot : ℕ) : Scan :=
  if b = .roundRobin then .look 0 (slot + 1) none else .top

/-! ### The bodies of the sections -/

section Bodies

variable {n : ℕ} (b : Scheduler) (c : Fin n) (slot : ℕ) (p : Proc)

/-- The body of a section is done; its lock is still held. -/
def Machine.finish (m : Machine n) : Machine n :=
  m.setCpu c { m.cpus c with held := some (slot, .release) }

/-- The scheduler switches to the process. -/
def mark (m : Machine n) : Machine n :=
  (m.setProc slot (dispatchFields m.ticks p)).setCpu c
    { m.cpus c with scan := afterRun b slot, held := some (slot, .marked) }

def lookBody (m : Machine n) : Machine n :=
  match (m.cpus c).scan with
  | .look q _ best =>
    if b = .roundRobin ∧ p.state = .runnable then mark b c slot p m
    else m.setCpu c { m.cpus c with
      scan := .look q (slot + 1) (lookAt b q slot p best), held := some (slot, .release) }
  | _ => m.finish c slot

def chooseBody (m : Machine n) : Machine n :=
  match (m.cpus c).scan with
  | .choose q _ =>
    if p.state = .runnable ∧ (b = .mlfq → p.mlfqQueue = q) then mark b c slot p m
    else m.setCpu c { m.cpus c with scan := nextQueue b q, held := some (slot, .release) }
  | _ => m.finish c slot

/-- The body of a section on the process `p` in `slot`. -/
def runBody (m : Machine n) : Section → Machine n
  | .wakeup chan =>
    ({ m.setProc slot (wakeupBody b.build (some chan) p m.seq).1 with
      seq := (wakeupBody b.build (some chan) p m.seq).2 }).finish c slot
  | .kill pid =>
    ({ m.setProc slot (killBody b.build pid p m.seq).1 with
      seq := (killBody b.build pid p m.seq).2 }).finish c slot
  | .setkilled => (m.setProc slot { p with killed := true }).finish c slot
  | .sleepPrepare chan => (m.setProc slot { p with chan := some chan }).finish c slot
  | .alloc mem =>
    if p.state = .unused then
      let r := allocBody b.build mem m.ticks m.nextpid p m.seq
      let m := { m.setProc slot r.1 with seq := r.2.1, nextpid := m.nextpid + 1 }
      (if r.2.2 then m.setStage c (.allocated slot) else m).finish c slot
    else m.finish c slot
  | .publish =>
    ((m.setProc slot { p with state := .runnable }).setStage c .idle).finish c slot
  | .reap copy =>
    (m.setProc slot (reapBody b.build copy (m.cpus c).proc p).2).finish c slot
  | .boost =>
    ({ m.setProc slot (boostBody p m.seq).1 with seq := (boostBody p m.seq).2 }).finish c slot
  | .look => lookBody b c slot p m
  | .choose => chooseBody b c slot p m
  | .leave why =>
    match leaveBody b.build m.ticks why p with
    | none => m.finish c slot
    | some p' =>
      (m.setProc slot p').setCpu c { m.cpus c with held := some (slot, .stopped) }

end Bodies

/-! ### The steps -/

inductive SmpEvent (n : ℕ)
  /-- a round of the scheduler begins -/
  | start (c : Fin n)
  /-- the loop over the table is done -/
  | next (c : Fin n)
  | acquire (c : Fin n) (sec : Section) (slot : ℕ)
  /-- the next operation under the lock that is held -/
  | advance (c : Fin n)
  /-- a timer interrupt arrives; CPU 0 counts it in `clockintr` -/
  | timer (c : Fin n)
  /-- `usertrap` or `kerneltrap` after `devintr` -/
  | charge (c : Fin n) (mode : Mode) (preempted : Bool)
  /-- `kfork` under `wait_lock` -/
  | forkLink (c : Fin n)
  /-- one turn of `reparent` -/
  | reparent (c : Fin n) (slot : ℕ)
deriving DecidableEq

section Steps

variable {n : ℕ} (b : Scheduler) (m : Machine n) (c : Fin n)

/-- The next operation under the lock that the CPU holds. -/
def advanceLock : Option (Machine n) :=
  match (m.cpus c).held with
  | none => none
  | some (slot, .body sec) => m.procs[slot]?.map fun p ↦ runBody b c slot p m sec
  | some (slot, .marked) =>
    some (m.setCpu c { m.cpus c with proc := some slot, held := some (slot, .release) })
  | some (slot, .stopped) =>
    some (m.setCpu c { m.cpus c with proc := none, trap := .idle, held := some (slot, .release) })
  | some (_, .release) => some (m.setCpu c { m.cpus c with held := none })

/-- The part of a timer interrupt after `devintr`. Only `usertrap` looks at `killed` first. -/
def chargeTrap (mode : Mode) (preempted : Bool) : Machine n :=
  match (m.cpus c).proc with
  | none => m.setCpu c { m.cpus c with trap := .idle }
  | some i =>
    match m.procs[i]? with
    | none => m
    | some p =>
      if mode = .user ∧ p.killed then m.setCpu c { m.cpus c with trap := .idle }
      else
        let r := chargeBody b m.ticks preempted p m.seq
        ({ m.setProc i r.1 with seq := r.2.1 }).setCpu c
          { m.cpus c with trap := if r.2.2 then .yielding else .idle }

/-- One step of one CPU. -/
def smpStep : SmpEvent n → Option (Machine n)
  | .advance c => advanceLock b m c
  | .acquire c sec slot =>
    if (m.cpus c).held = none ∧ m.unlocked slot ∧ slot < m.procs.length ∧
        mayBegin b m c slot sec then
      some (m.setCpu c { m.cpus c with held := some (slot, .body sec) })
    else none
  | .start c =>
    if (m.cpus c).held = none ∧ (m.cpus c).proc = none ∧ (m.cpus c).trap = .idle ∧
        (m.cpus c).scan = .top then
      some (m.setCpu c { m.cpus c with scan := .look 0 0 none })
    else none
  | .next c =>
    match (m.cpus c).scan with
    | .look q slot best =>
      if (m.cpus c).held = none ∧ (m.cpus c).proc = none ∧ (m.cpus c).trap = .idle ∧
          slot = m.procs.length then
        some (m.setCpu c { m.cpus c with scan := afterLoop b q best })
      else none
    | _ => none
  | .timer c =>
    if (m.cpus c).held = none ∧ (m.cpus c).trap = .idle ∧ m.interruptible c then
      some ({ m with ticks := if c.val = 0 then (m.ticks + 1) % uintSize else m.ticks }.setCpu c
        { m.cpus c with trap := .handling })
    else none
  | .charge c mode preempted =>
    if (m.cpus c).held = none ∧ (m.cpus c).trap = .handling then
      some (chargeTrap b m c mode preempted)
    else none
  | .forkLink c =>
    if (m.cpus c).held = none ∧ (m.cpus c).trap = .idle then
      match m.stage c with
      | some (.allocated np) =>
        some ({ m with procs := m.procs.modify np fun q ↦
          { q with parent := (m.cpus c).proc } }.setStage c (.linked np))
      | _ => none
    else none
  | .reparent c slot =>
    if (m.cpus c).held = none ∧ m.inKernel c ∧
        (m.procs[slot]?.bind (·.parent)) = (m.cpus c).proc then
      some { m with procs := m.procs.modify slot fun q ↦ { q with parent := some m.initproc } }
    else none

end Steps

/-- The machine after `main` has set it up: every CPU enters `scheduler`. -/
def smpBoot (b : Scheduler) (n : ℕ) : Machine n :=
  let k := boot b.build
  ⟨k.procs, fun _ ↦ {}, k.ticks, k.nextpid, k.initproc, k.mlfqGlobalSeq⟩

end Irish.Xv6
