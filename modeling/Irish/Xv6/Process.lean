import Irish.Library.Sweep

/-!
# The process table of the one-CPU kernels

`kernel/proc.h`, `kernel/proc.c` and `kernel/trap.c`, for the two builds whose default is a single
CPU: the multi-level feedback queue (`SCHEDULER_MLFQ`) and the first-come first-served scheduler
(`SCHEDULER_FIFO`). On one CPU a section that runs with interrupts off is atomic, and every section
that holds a lock runs with interrupts off, so each function below that holds a lock from its first
write to its last is one function on the kernel state. A function that gives its lock up in between
(`kfork`) is cut there into one function for each section.

The fields of `struct proc` kept here are the ones these functions read. The page table, the
trapframe, the saved context, the files and the name are not modelled; whether allocating the first
two succeeds is an argument of `allocproc`. The sequence counter `mlfq_global_seq` is a `uint64` in
the source and a natural number here, which is the same as long as fewer than `2 ^ 64` sequence
numbers are drawn. The tick counter wraps at `2 ^ 32` as the source's `uint` does.
-/

set_option autoImplicit false

namespace Irish.Xv6

open Library

/-- The size of the process table, `NPROC` of `kernel/param.h`. -/
def nproc : ℕ := 64

/-- The value set of the source's 32-bit `uint`. -/
def uintSize : ℕ := 0x100000000

inductive ProcState
  | unused
  | used
  | sleeping
  | runnable
  | running
  | zombie
deriving DecidableEq, Repr

/-- What a process can sleep on: the tick counter, a process (the parent in `kwait`), or any other
kernel object. -/
inductive Chan
  | ticks
  | proc (slot : ℕ)
  | other (addr : ℕ)
deriving DecidableEq, Repr

/-- How far a process is inside `kfork`: its kernel stack holds the child `np` in a local variable
from `allocproc` to the assignment of `RUNNABLE`. -/
inductive ForkStage
  | idle
  | allocated (np : ℕ)
  | linked (np : ℕ)
deriving DecidableEq, Repr

/-- `struct proc`. Pointers to processes are slots of the table. -/
structure Proc where
  state : ProcState := .unused
  chan : Option Chan := none
  killed : Bool := false
  xstate : ℤ := 0
  pid : ℤ := 0
  parent : Option ℕ := none
  ctime : ℕ := 0
  stime : ℤ := 0
  etime : ℕ := 0
  rtime : ℕ := 0
  mlfqQueue : ℕ := 0
  mlfqTicksUsed : ℕ := 0
  mlfqTotalTicks : ℕ := 0
  mlfqEnterSeq : ℕ := 0
  forkStage : ForkStage := .idle
deriving DecidableEq, Repr

/-- The compile-time choice `SCHEDULER` of the builds that run on one CPU. -/
inductive Build
  | mlfq
  | fifo
deriving DecidableEq, Repr

/-- The kernel's globals: the table `proc`, `mycpu()->proc`, `ticks`, `nextpid`, `initproc` and
`mlfq_global_seq`. -/
structure Kernel where
  procs : List Proc
  cur : Option ℕ
  ticks : ℕ
  nextpid : ℤ
  initproc : ℕ
  mlfqGlobalSeq : ℕ
deriving DecidableEq, Repr

/-- Write one slot of the table. -/
def Kernel.modify (k : Kernel) (i : ℕ) (f : Proc → Proc) : Kernel :=
  { k with procs := k.procs.modify i f }

/-- `p->mlfq_enter_seq = mlfq_next_seq()`, in the body of a loop over the table. -/
def stampProc (p : Proc) (seq : ℕ) : Proc × ℕ := ({ p with mlfqEnterSeq := seq + 1 }, seq + 1)

/-- `p->mlfq_enter_seq = mlfq_next_seq()` for the process in a slot. -/
def Kernel.stamp (k : Kernel) (i : ℕ) : Kernel :=
  { k.modify i (fun p ↦ { p with mlfqEnterSeq := k.mlfqGlobalSeq + 1 }) with
    mlfqGlobalSeq := k.mlfqGlobalSeq + 1 }

/-! ### Creating and freeing processes -/

/-- The fields that `freeproc` writes. The parent link is not one of them. -/
def freeFields (b : Build) (p : Proc) : Proc :=
  let p := { p with
    pid := 0, chan := none, killed := false, xstate := 0, ctime := 0, stime := -1, etime := 0,
    rtime := 0, forkStage := .idle }
  match b with
  | .mlfq =>
    { p with mlfqQueue := 0, mlfqTicksUsed := 0, mlfqTotalTicks := 0, mlfqEnterSeq := 0,
             state := .unused }
  | .fifo => { p with state := .unused }

def freeproc (b : Build) (i : ℕ) (k : Kernel) : Kernel := k.modify i (freeFields b)

/-- Whether the allocations of a process creation succeed: the trapframe page and the page table of
`allocproc`, and `kfork`'s copy of the user memory. -/
structure Memory where
  trapframe : Bool
  pagetable : Bool
  uvmcopy : Bool
deriving DecidableEq, Repr

/-- `allocproc`: take the first `UNUSED` slot, or nothing when there is none or an allocation
fails. -/
def allocproc (b : Build) (mem : Memory) (k : Kernel) : Option ℕ × Kernel :=
  match k.procs.findIdx? (fun p ↦ p.state = .unused) with
  | none => (none, k)
  | some i =>
    let k := { k.modify i (fun p ↦ { p with pid := k.nextpid, state := .used }) with
      nextpid := k.nextpid + 1 }
    if mem.trapframe = false then (none, freeproc b i k)
    else if mem.pagetable = false then (none, freeproc b i k)
    else
      let k := k.modify i fun p ↦ { p with ctime := k.ticks, stime := -1, etime := 0, rtime := 0 }
      match b with
      | .mlfq =>
        (some i, (k.modify i fun p ↦
          { p with mlfqQueue := 0, mlfqTicksUsed := 0, mlfqTotalTicks := 0 }).stamp i)
      | .fifo => (some i, k)

/-- `kfork` up to the release of the child's lock. The child stays in the caller's local `np`. -/
def kforkAlloc (b : Build) (mem : Memory) (p : ℕ) (k : Kernel) : Kernel :=
  match allocproc b mem k with
  | (none, k) => k
  | (some np, k) =>
    if mem.uvmcopy = false then freeproc b np k
    else k.modify p fun q ↦ { q with forkStage := .allocated np }

/-- `kfork` under `wait_lock`: link the child to its parent. -/
def kforkLink (p np : ℕ) (k : Kernel) : Kernel :=
  (k.modify np fun q ↦ { q with parent := some p }).modify p
    fun q ↦ { q with forkStage := .linked np }

/-- The last section of `kfork`: the child may be scheduled. -/
def kforkRunnable (p np : ℕ) (k : Kernel) : Kernel :=
  (k.modify np fun q ↦ { q with state := .runnable }).modify p
    fun q ↦ { q with forkStage := .idle }

/-- `procinit` and `userinit`: an empty table, then the first process in slot 0, ready to run. -/
def boot (b : Build) : Kernel :=
  let k : Kernel :=
    { procs := List.replicate nproc {}, cur := none, ticks := 0, nextpid := 1, initproc := 0,
      mlfqGlobalSeq := 0 }
  match allocproc b ⟨true, true, true⟩ k with
  | (none, k) => k
  | (some p, k) => { k.modify p fun q ↦ { q with state := .runnable } with initproc := p }

/-! ### Sleeping and waking -/

/-- The body of the loop of `wakeup`. -/
def wakeupBody (b : Build) (chan : Option Chan) (p : Proc) (seq : ℕ) : Proc × ℕ :=
  if p.chan = chan then
    if p.state = .sleeping then
      match b with
      | .mlfq => stampProc { p with chan := none, state := .runnable } seq
      | .fifo => ({ p with chan := none, state := .runnable }, seq)
    else ({ p with chan := none }, seq)
  else (p, seq)

/-- A loop over the table whose body writes the process under the cursor and may draw sequence
numbers. -/
def Kernel.sweepProcs (k : Kernel) (body : Proc → ℕ → Proc × ℕ) : Kernel :=
  { k with procs := (sweep body k.procs k.mlfqGlobalSeq).1,
           mlfqGlobalSeq := (sweep body k.procs k.mlfqGlobalSeq).2 }

def wakeup (b : Build) (chan : Option Chan) (k : Kernel) : Kernel :=
  k.sweepProcs (wakeupBody b chan)

/-- `sleep_prepare` for the process in a slot. -/
def sleepPrepare (chan : Chan) (i : ℕ) (k : Kernel) : Kernel :=
  k.modify i fun p ↦ { p with chan := some chan }

/-- `sleep` for the running process: it blocks unless its channel has been woken in the
meantime. -/
def sleep (b : Build) (i : ℕ) (p : Proc) (k : Kernel) : Kernel :=
  if p.chan ≠ none then
    match b with
    | .mlfq =>
      { k.modify i (fun p ↦ { p with state := .sleeping, mlfqTicksUsed := 0 }) with cur := none }
    | .fifo => { k.modify i (fun p ↦ { p with state := .sleeping }) with cur := none }
  else k

/-- `kkill`: mark the first process with the pid, and wake it if it sleeps. -/
def kkill (b : Build) (pid : ℤ) (k : Kernel) : Kernel :=
  match k.procs.findIdx? (fun p ↦ p.pid = pid) with
  | none => k
  | some i =>
    match k.procs[i]? with
    | none => k
    | some p =>
      if p.state = .sleeping then
        match b with
        | .mlfq => (k.modify i fun p ↦ { p with killed := true, state := .runnable }).stamp i
        | .fifo => k.modify i fun p ↦ { p with killed := true, state := .runnable }
      else k.modify i fun p ↦ { p with killed := true }

def setkilled (i : ℕ) (k : Kernel) : Kernel := k.modify i fun p ↦ { p with killed := true }

/-! ### Exiting and waiting -/

/-- One turn of the loop of `reparent`. -/
def reparentBody (b : Build) (p : ℕ) (k : Kernel) (pp : ℕ) : Kernel :=
  match k.procs[pp]? with
  | none => k
  | some q =>
    if q.parent = some p then
      wakeup b (some (.proc k.initproc)) (k.modify pp fun q ↦ { q with parent := some k.initproc })
    else k

def reparent (b : Build) (p : ℕ) (k : Kernel) : Kernel :=
  (List.range k.procs.length).foldl (reparentBody b p) k

/-- The first half of `kexit` under `wait_lock`: give the children away and wake the parent. -/
def kexitNotify (b : Build) (i : ℕ) (k : Kernel) : Kernel :=
  let k := reparent b i k
  wakeup b ((k.procs[i]?.bind (·.parent)).map .proc) k

/-- `kexit` from the acquisition of `wait_lock` to the switch to the scheduler. -/
def kexit (b : Build) (status : ℤ) (i : ℕ) (k : Kernel) : Kernel :=
  let k := kexitNotify b i k
  let k := k.modify i fun p ↦ { p with etime := k.ticks, xstate := status, state := .zombie }
  { k with cur := none }

/-- One scan of `kwait` (and of `kwaitx`) under `wait_lock`: reap the first child that has exited
unless `copyout` fails, return when there is nothing to wait for, and register for a wakeup
otherwise. -/
def kwait (b : Build) (copyout : Bool) (i : ℕ) (p : Proc) (k : Kernel) : Kernel :=
  match k.procs.findIdx? (fun pp ↦ pp.parent = some i ∧ pp.state = .zombie) with
  | some z =>
    if copyout then freeproc b z (k.modify z fun pp ↦ { pp with parent := none }) else k
  | none =>
    if (k.procs.any fun pp ↦ pp.parent = some i) = false ∨ p.killed then k
    else sleepPrepare (.proc i) i k

end Irish.Xv6
