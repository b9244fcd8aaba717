import Irish.Library.Run
import Irish.Library.SpinLock
import Irish.Xv6.Process

/-!
# The spin locks of the kernel

What the process and timer code of `kernel/proc.c`, `kernel/trap.c` and `kernel/sysproc.c` does with
its spin locks, on any number of CPUs and for the three schedulers. A routine is the list of its
critical sections, each of them a program of acquisitions and releases that starts and ends with no
lock held; what a routine finds in memory is an argument. A CPU that holds no lock may begin any
section of any routine: between two sections a routine can be interrupted, or preempted and resumed
on another CPU. `sched` switches to the scheduler with `p->lock` held and the scheduler releases it
(and the other way round at a dispatch), on the same CPU, so such a section ends with that release.

The nesting of the locks has one flaw. `clockintr` and `sys_pause` take `p->lock` while they hold
`tickslock`; `allocproc`, `kexit` and the first dispatch of a process take `tickslock` while they
hold `p->lock`. Two CPUs that cross on these locks spin for ever. They are the only pair nested both
ways, so a run in which no CPU takes one of them across another one has no deadlock.
-/

set_option autoImplicit false

namespace Irish.Xv6

open Library Library.SpinLock

/-- The locks under which no other lock is taken. -/
inductive LeafLock
  | pidLock
  | mlfqSeqLock
  | kmem
  | ftable
  | itable
  | pr
deriving DecidableEq, Repr

inductive Lock
  | waitLock
  | tickslock
  | proc (slot : ℕ)
  | leaf (lock : LeafLock)
deriving DecidableEq, Repr

abbrev LockOp : Type := Op Lock

/-- The compile-time choice `SCHEDULER`. -/
inductive Scheduler
  | roundRobin
  | mlfq
  | fifo
deriving DecidableEq, Repr

/-! ### The routines -/

/-- `mlfq_next_seq`, which only the MLFQ build calls. -/
def nextSeqLocks (b : Scheduler) : List LockOp :=
  if b = .mlfq then locked (.leaf .mlfqSeqLock) [] else []

/-- Some calls of `kalloc` or `kfree`. -/
def pageLocks (pages : ℕ) : List LockOp :=
  (List.range pages).flatMap fun _ ↦ locked (.leaf .kmem) []

/-- A look at one process under its lock, in a loop over the table or by itself (`killed`,
`setkilled`, `sleep_prepare`, and `sleep` and `yield` up to the release by the scheduler). -/
def procLocks (i : ℕ) : List LockOp := locked (.proc i) []

/-- The loop of `wakeup`. -/
def wakeupLocks (b : Scheduler) (woken : ℕ → Bool) : List LockOp :=
  (List.range nproc).flatMap fun i ↦ locked (.proc i) (if woken i then nextSeqLocks b else [])

/-- How one turn of the loop of `sys_pause` ends. -/
inductive PauseTurn
  | done
  | killed
  | sleeps
deriving DecidableEq, Repr

/-- One turn of `sys_pause` for the process `p`; the call of `sleep` comes after it. -/
def sysPauseLocks (p : ℕ) : PauseTurn → List LockOp
  | .done => locked .tickslock []
  | .killed => locked .tickslock (procLocks p)
  | .sleeps => locked .tickslock (procLocks p ++ procLocks p)

/-- How `allocproc` and the rest of `kfork` under the child's lock end, with the numbers of pages
and files on the way. -/
inductive AllocEnd
  | noMemory (pages : ℕ)
  | noCopy (pages copied : ℕ)
  | allocated (pages copied files : ℕ)
deriving DecidableEq, Repr

/-- `allocproc` from the `UNUSED` slot `np` on, and `kfork` until it releases the child's lock. -/
def allocprocLocks (b : Scheduler) (np : ℕ) : AllocEnd → List LockOp
  | .noMemory pages =>
    locked (.proc np) (locked (.leaf .pidLock) [] ++ pageLocks pages)
  | .noCopy pages copied =>
    locked (.proc np) (locked (.leaf .pidLock) [] ++ pageLocks pages ++ locked .tickslock [] ++
      nextSeqLocks b ++ pageLocks copied)
  | .allocated pages copied files =>
    locked (.proc np) (locked (.leaf .pidLock) [] ++ pageLocks pages ++ locked .tickslock [] ++
      nextSeqLocks b ++ pageLocks copied ++
      ((List.range files).flatMap fun _ ↦ locked (.leaf .ftable) []) ++ locked (.leaf .itable) [])

/-- `kexit` from `wait_lock` to the release of `p->lock` by the scheduler: one wakeup for each
adopted child and one for the parent. -/
def kexitLocks (b : Scheduler) (p adopted : ℕ) (woken : ℕ → ℕ → Bool) : List LockOp :=
  .acquire .waitLock :: (((List.range (adopted + 1)).flatMap fun j ↦ wakeupLocks b (woken j)) ++
    .acquire (.proc p) :: (locked .tickslock [] ++ [.release .waitLock, .release (.proc p)]))

/-- How one scan of `kwait` or `kwaitx` ends. -/
inductive WaitEnd
  | reaped (child pages : ℕ)
  | noChildren
  | killed
  | sleeps
deriving DecidableEq, Repr

/-- One scan of `kwait` or `kwaitx` for the process `p`, past some children that have not exited. -/
def kwaitLocks (p : ℕ) (children : List ℕ) (ending : WaitEnd) : List LockOp :=
  locked .waitLock (children.flatMap procLocks ++
    match ending with
    | .reaped child pages => locked (.proc child) (pageLocks pages)
    | .noChildren => []
    | .killed => procLocks p
    | .sleeps => procLocks p ++ procLocks p)

/-- The switch of `scheduler` to a process. Only the MLFQ build traces the processes with a pid of
at least 3. -/
def dispatchLocks (b : Scheduler) (i : ℕ) (first traced : Bool) : List LockOp :=
  locked (.proc i) ((if first then locked .tickslock [] else []) ++
    if b = .mlfq ∧ traced then locked .tickslock [] ++ locked (.leaf .pr) [] else [])

/-- A routine with what it finds in memory. -/
inductive Routine
  | clockintr (woken : ℕ → Bool) (boost : Option (ℕ → Bool))
  | mlfqTickHandler (traced expired : Bool) (scanned : ℕ)
  | sysPause (p : ℕ) (turn : PauseTurn)
  | kfork (np : ℕ) (ending : Option AllocEnd)
  | kexit (p adopted : ℕ) (woken : ℕ → ℕ → Bool)
  | kwait (p : ℕ) (children : List ℕ) (ending : WaitEnd)
  | wakeup (woken : ℕ → Bool)
  | kkill (scanned : ℕ) (woken : Bool)
  | proc (i : ℕ)
  | scheduler (scanned : List ℕ) (chosen : Option (ℕ × Bool × Bool))

/-- The critical sections of a routine, in order. -/
def Routine.sections (b : Scheduler) : Routine → List (List LockOp)
  | .clockintr woken boost =>
    locked .tickslock (wakeupLocks b woken) ::
      match boost with
      | none => []
      | some live =>
        if b = .mlfq then
          (List.range nproc).map fun i ↦ locked (.proc i) (if live i then nextSeqLocks b else [])
        else []
  | .mlfqTickHandler traced expired scanned =>
    locked .tickslock [] :: (if traced then [locked (.leaf .pr) []] else []) ++
      if expired then [nextSeqLocks b] else (List.range scanned).map procLocks
  | .sysPause p turn => [sysPauseLocks p turn]
  | .kfork np ending =>
    match ending with
    | none => (List.range nproc).map procLocks
    | some ending =>
      (List.range np).map procLocks ++
        [allocprocLocks b np ending, locked .waitLock [], procLocks np]
  | .kexit p adopted woken => [kexitLocks b p adopted woken]
  | .kwait p children ending => [kwaitLocks p children ending]
  | .wakeup woken =>
    (List.range nproc).map fun i ↦ locked (.proc i) (if woken i then nextSeqLocks b else [])
  | .kkill scanned woken =>
    (List.range scanned).map procLocks ++
      [locked (.proc scanned) (if woken then nextSeqLocks b else [])]
  | .proc i => [procLocks i]
  | .scheduler scanned chosen =>
    scanned.map procLocks ++
      match chosen with
      | none => []
      | some (i, first, traced) => [dispatchLocks b i first traced]

/-! ### The machine -/

/-- A CPU begins a section of a routine, or executes the next operation of the one it is in. -/
inductive LockEvent (n : ℕ)
  | begin (c : Fin n) (routine : Routine) (number : ℕ)
  | advance (c : Fin n)

/-- Only CPU 0 counts the ticks. -/
def Routine.runsOn {n : ℕ} (c : Fin n) : Routine → Bool
  | .clockintr _ _ => c.val = 0
  | _ => true

def lockStep (b : Scheduler) {n : ℕ} (s : Fin n → Cpu Lock) :
    LockEvent n → Option (Fin n → Cpu Lock)
  | .begin c routine number =>
    if (s c).rest = [] ∧ routine.runsOn c = true then
      match (routine.sections b)[number]? with
      | none => none
      | some program => enter s c program
    else none
  | .advance c => SpinLock.advance s c

/-- No CPU is in a critical section. -/
def idleCpus (n : ℕ) : Fin n → Cpu Lock := fun _ ↦ ⟨[], []⟩

/-! ### The order of the locks -/

/-- The locks that are taken while another one is held. -/
def nestable : Lock → Lock → Bool
  | .waitLock, .waitLock => false
  | .waitLock, _ => true
  | .tickslock, .proc _ => true
  | .tickslock, .leaf _ => true
  | .proc _, .tickslock => true
  | .proc _, .leaf _ => true
  | _, _ => false

def Lock.rank : Lock → ℕ
  | .waitLock => 0
  | .tickslock => 1
  | .proc _ => 1
  | .leaf _ => 2

abbrev Nestable (x y : Lock) : Prop := nestable x y = true

theorem rank_le_of_nestable (x y : Lock) (h : Nestable x y) : x.rank ≤ y.rank := by
  cases x <;> cases y <;> simp_all [Nestable, nestable, Lock.rank]

variable {x y : Lock} {held : List Lock} {i n : ℕ} {body program : List LockOp} {b : Scheduler}
  {routine : Routine} {s t : Fin n → Cpu Lock} {e : LockEvent n} {d : Fin n}

/-- The locks of equal rank that are nested: `tickslock` and the lock of a process, both ways. -/
theorem nestable_of_rank_eq (h : Nestable x y) (hrank : x.rank = y.rank) :
    (x = .tickslock ∧ ∃ p, y = .proc p) ∨ (y = .tickslock ∧ ∃ p, x = .proc p) := by
  cases x <;> cases y <;> simp_all [Nestable, nestable, Lock.rank]

theorem balanced_leaf (h : ∀ x ∈ held, ∀ l, x ≠ .leaf l) (l : LeafLock) :
    Balanced Nestable held (locked (.leaf l) []) := by
  refine Balanced.locked (fun x hx ↦ ⟨?_, h x hx l⟩) (.nil _)
  cases x with
  | leaf l' => exact absurd rfl (h _ hx l')
  | _ => rfl

theorem balanced_nextSeqLocks (h : ∀ x ∈ held, ∀ l, x ≠ .leaf l)
    (b : Scheduler) : Balanced Nestable held (nextSeqLocks b) :=
  .ite _ (balanced_leaf h _) (.nil _)

theorem balanced_pageLocks (h : ∀ x ∈ held, ∀ l, x ≠ .leaf l) (pages : ℕ) :
    Balanced Nestable held (pageLocks pages) :=
  .flatMap (fun _ ↦ balanced_leaf h _) _

/-- The lock of a process may be taken under `wait_lock` and under `tickslock`. -/
theorem balanced_proc (h : ∀ x ∈ held, x = .waitLock ∨ x = .tickslock)
    (hbody : Balanced Nestable (.proc i :: held) body) :
    Balanced Nestable held (locked (.proc i) body) := by
  refine Balanced.locked (fun x hx ↦ ?_) hbody
  rcases h x hx with rfl | rfl <;> simp [Nestable, nestable]

theorem leafless_of_outer (h : ∀ x ∈ held, x = .waitLock ∨ x = .tickslock)
    (i : ℕ) : ∀ x ∈ Lock.proc i :: held, ∀ l, x ≠ .leaf l := by
  intro x hx l
  rcases List.mem_cons.mp hx with rfl | hx
  · simp
  · rcases h x hx with rfl | rfl <;> simp

theorem balanced_procLocks (h : ∀ x ∈ held, x = .waitLock ∨ x = .tickslock)
    (i : ℕ) : Balanced Nestable held (procLocks i) :=
  balanced_proc h (.nil _)

theorem balanced_wakeupLocks (h : ∀ x ∈ held, x = .waitLock ∨ x = .tickslock) (b : Scheduler)
    (woken : ℕ → Bool) : Balanced Nestable held (wakeupLocks b woken) :=
  .flatMap (fun i ↦ balanced_proc h
    (.ite _ (balanced_nextSeqLocks (leafless_of_outer h i) b) (.nil _))) _

/-- `tickslock` may be taken under `wait_lock` and under the lock of a process. -/
theorem balanced_tickslock (h : ∀ x ∈ held, x = .waitLock ∨ ∃ p, x = .proc p)
    (hbody : Balanced Nestable (.tickslock :: held) body) :
    Balanced Nestable held (locked .tickslock body) := by
  refine Balanced.locked (fun x hx ↦ ?_) hbody
  rcases h x hx with rfl | ⟨p, rfl⟩ <;> simp [Nestable, nestable]

theorem balanced_sysPauseLocks (p : ℕ) (turn : PauseTurn) :
    Balanced Nestable [] (sysPauseLocks p turn) := by
  have hproc : Balanced Nestable [.tickslock] (procLocks p) := balanced_procLocks (by simp) p
  cases turn with
  | done => exact balanced_tickslock (by simp) (.nil _)
  | killed => exact balanced_tickslock (by simp) hproc
  | sleeps => exact balanced_tickslock (by simp) (hproc.append hproc)

theorem balanced_allocprocLocks (b : Scheduler) (np : ℕ) (ending : AllocEnd) :
    Balanced Nestable [] (allocprocLocks b np ending) := by
  have hleaf : ∀ x ∈ [Lock.proc np], ∀ l, x ≠ .leaf l := leafless_of_outer (by simp) np
  have htaken (pages : ℕ) : Balanced Nestable [.proc np]
      (locked (.leaf .pidLock) [] ++ pageLocks pages) :=
    (balanced_leaf hleaf _).append (balanced_pageLocks hleaf _)
  have hstamped (pages copied : ℕ) : Balanced Nestable [.proc np]
      (locked (.leaf .pidLock) [] ++ pageLocks pages ++ locked .tickslock [] ++ nextSeqLocks b ++
        pageLocks copied) :=
    (((htaken pages).append (balanced_tickslock (by simp) (.nil _))).append
      (balanced_nextSeqLocks hleaf b)).append (balanced_pageLocks hleaf _)
  cases ending with
  | noMemory pages => exact balanced_proc (by simp) (htaken pages)
  | noCopy pages copied => exact balanced_proc (by simp) (hstamped pages copied)
  | allocated pages copied =>
    exact balanced_proc (by simp) (((hstamped pages copied).append
      (.flatMap (fun _ ↦ balanced_leaf hleaf _) _)).append (balanced_leaf hleaf _))

/-- `kexit` gives `wait_lock` back before `p->lock`, so its section is not a nest of brackets. -/
theorem balanced_kexitLocks (b : Scheduler) (p adopted : ℕ) (woken : ℕ → ℕ → Bool) :
    Balanced Nestable [] (kexitLocks b p adopted woken) := by
  have hwake : Balanced Nestable [.waitLock]
      ((List.range (adopted + 1)).flatMap fun j ↦ wakeupLocks b (woken j)) :=
    .flatMap (fun j ↦ balanced_wakeupLocks (by simp) b (woken j)) _
  have htick : Balanced Nestable [.proc p, .waitLock] (locked .tickslock []) :=
    balanced_tickslock (by simp) (.nil _)
  constructor
  · refine ⟨by simp, ordered_append.mpr ⟨hwake.1, ?_⟩⟩
    rw [hwake.2]
    exact ⟨by simp [Nestable, nestable], ordered_append.mpr ⟨htick.1, trivial⟩⟩
  · have htail : heldAfter [Lock.proc p, .waitLock]
        (locked Lock.tickslock [] ++ [.release .waitLock, .release (.proc p)]) = [] := by
      rw [heldAfter_append, htick.2]
      simp [heldAfter]
    rwa [kexitLocks, heldAfter, heldAfter_append, hwake.2]

theorem balanced_kwaitLocks (p : ℕ) (children : List ℕ) (ending : WaitEnd) :
    Balanced Nestable [] (kwaitLocks p children ending) := by
  have hproc (i : ℕ) : Balanced Nestable [.waitLock] (procLocks i) :=
    balanced_procLocks (by simp) i
  refine Balanced.locked (by simp) ((Balanced.flatMap hproc children).append ?_)
  cases ending with
  | reaped child pages =>
    exact balanced_proc (by simp) (balanced_pageLocks (leafless_of_outer (by simp) child) pages)
  | noChildren => exact .nil _
  | killed => exact hproc p
  | sleeps => exact (hproc p).append (hproc p)

theorem balanced_dispatchLocks (b : Scheduler) (i : ℕ) (first traced : Bool) :
    Balanced Nestable [] (dispatchLocks b i first traced) := by
  have htick : Balanced Nestable [.proc i] (locked .tickslock []) :=
    balanced_tickslock (by simp) (.nil _)
  exact balanced_proc (by simp) ((Balanced.ite _ htick (.nil _)).append
    (.ite _ (htick.append (balanced_leaf (leafless_of_outer (by simp) i) _)) (.nil _)))

/-- Every critical section of every routine nests its locks as `nestable` says and gives them
back. -/
theorem balanced_sections (h : program ∈ routine.sections b) : Balanced Nestable [] program := by
  have hproc (i : ℕ) : Balanced Nestable [] (procLocks i) := balanced_procLocks (by simp) i
  have hstamp (i : ℕ) (woken : Bool) :
      Balanced Nestable [] (locked (.proc i) (if woken then nextSeqLocks b else [])) :=
    balanced_proc (by simp)
      (.ite _ (balanced_nextSeqLocks (leafless_of_outer (by simp) i) b) (.nil _))
  cases routine with
  | clockintr woken boost =>
    rcases List.mem_cons.mp h with rfl | h
    · exact balanced_tickslock (by simp) (balanced_wakeupLocks (by simp) b woken)
    · cases boost with
      | none => simp at h
      | some live =>
        dsimp only at h
        split_ifs at h
        · obtain ⟨i, -, rfl⟩ := List.mem_map.mp h
          exact hstamp i (live i)
        · simp at h
  | mlfqTickHandler =>
    simp only [Routine.sections, List.mem_append, List.mem_cons, List.cons_append] at h
    rcases h with rfl | h | h
    · exact balanced_tickslock (by simp) (.nil _)
    · split_ifs at h
      · obtain rfl := List.mem_singleton.mp h
        exact balanced_leaf (by simp) _
      · simp at h
    · split_ifs at h
      · obtain rfl := List.mem_singleton.mp h
        exact balanced_nextSeqLocks (by simp) b
      · obtain ⟨i, -, rfl⟩ := List.mem_map.mp h
        exact hproc i
  | sysPause p turn =>
    obtain rfl := List.mem_singleton.mp h
    exact balanced_sysPauseLocks p turn
  | kfork np ending =>
    cases ending with
    | none =>
      obtain ⟨i, -, rfl⟩ := List.mem_map.mp h
      exact hproc i
    | some ending =>
      simp only [Routine.sections, List.mem_append, List.mem_map, List.mem_cons,
        List.not_mem_nil, or_false] at h
      rcases h with ⟨i, -, rfl⟩ | rfl | rfl | rfl
      · exact hproc i
      · exact balanced_allocprocLocks b np ending
      · exact Balanced.locked (by simp) (.nil _)
      · exact hproc np
  | kexit p adopted woken =>
    obtain rfl := List.mem_singleton.mp h
    exact balanced_kexitLocks b p adopted woken
  | kwait p children ending =>
    obtain rfl := List.mem_singleton.mp h
    exact balanced_kwaitLocks p children ending
  | wakeup woken =>
    obtain ⟨i, -, rfl⟩ := List.mem_map.mp h
    exact hstamp i (woken i)
  | kkill scanned woken =>
    simp only [Routine.sections, List.mem_append, List.mem_map, List.mem_singleton] at h
    rcases h with ⟨i, -, rfl⟩ | rfl
    · exact hproc i
    · exact hstamp scanned woken
  | proc i =>
    obtain rfl := List.mem_singleton.mp h
    exact hproc i
  | scheduler _ chosen =>
    simp only [Routine.sections, List.mem_append, List.mem_map] at h
    rcases h with ⟨i, -, rfl⟩ | h
    · exact hproc i
    · cases chosen with
      | none => simp at h
      | some chosen =>
        obtain rfl := List.mem_singleton.mp h
        exact balanced_dispatchLocks b _ _ _

/-! ### Deadlock -/

/-- The condition on a step: the CPU does not take `tickslock` on its way to a `p->lock` that
another CPU holds on its way to `tickslock`, and not the other way round. No other two locks are
nested both ways. -/
def apart {n : ℕ} (s : Fin n → Cpu Lock) : LockEvent n → Bool
  | .begin _ _ _ => true
  | .advance c => takesApart s c

/-- In order, and nobody crossed: what every step that keeps apart preserves. -/
structure Disciplined {n : ℕ} (s : Fin n → Cpu Lock) : Prop where
  ordered : AllOrdered Nestable s
  uncrossed : ∀ c d, c ≠ d → ¬ Crossed s c d

theorem disciplined_step (h : Disciplined s) (hapart : apart s e = true)
    (hstep : lockStep b s e = some t) : Disciplined t := by
  cases e with
  | begin c routine number =>
    simp only [lockStep] at hstep
    split_ifs at hstep
    split at hstep
    · cases hstep
    · rename_i program hprogram
      exact ⟨allOrdered_enter h.ordered (balanced_sections (List.mem_of_getElem? hprogram)) hstep,
        not_crossed_enter h.uncrossed hstep⟩
  | advance =>
    exact ⟨allOrdered_advance h.ordered hstep, not_crossed_advance h.uncrossed hapart hstep⟩

/-- A CPU on a cycle does not hold `tickslock` while it spins on the lock of a process: the next one
on the cycle holds that lock, and would have to spin on `tickslock`. -/
theorem not_spins_proc_of_cycle (h : Disciplined s) (hcycle : Relation.TransGen (WaitsFor s) d d)
    (hheld : Lock.tickslock ∈ (s d).held) (p : ℕ) : ¬ Spins s d (.proc p) := by
  intro hspins
  obtain ⟨e, y, z, hy, hye, hz, hyz, hrank, -⟩ :=
    exists_edge_of_cycle rank_le_of_nestable h.ordered hcycle
  obtain rfl : Lock.proc p = y := spins_unique hspins hy
  have hztick : z = .tickslock := by
    rcases nestable_of_rank_eq hyz hrank with ⟨hno, -⟩ | ⟨hz, -⟩
    · cases hno
    · exact hz
  subst hztick
  have hne : d ≠ e := by
    rintro rfl
    have hself := allowed_of_spins h.ordered hye hspins
    simp [Nestable, nestable] at hself
  exact h.uncrossed d e hne ⟨.tickslock, .proc p, hheld, nests_of_spins hspins, hye,
    nests_of_spins hz⟩

/-- In order and nobody crossed, there is no deadlock: the locks of a cycle would alternate between
`tickslock` and the locks of processes. -/
theorem not_deadlocked_of_disciplined (h : Disciplined s) : ¬ Deadlocked s := by
  rintro ⟨c, hcycle⟩
  obtain ⟨d, x, y, -, hxd, hy, hxy, hrank, hdd⟩ :=
    exists_edge_of_cycle rank_le_of_nestable h.ordered hcycle
  rcases nestable_of_rank_eq hxy hrank with ⟨rfl, p, rfl⟩ | ⟨rfl, p, rfl⟩
  · exact not_spins_proc_of_cycle h hdd hxd p hy
  · -- The next CPU on the cycle holds `tickslock`.
    obtain ⟨e, y', z, hy', hye, hz, hyz, hrank', hee⟩ :=
      exists_edge_of_cycle rank_le_of_nestable h.ordered hdd
    obtain rfl : Lock.tickslock = y' := spins_unique hy hy'
    rcases nestable_of_rank_eq hyz hrank' with ⟨-, q, rfl⟩ | ⟨-, q, hno⟩
    · exact not_spins_proc_of_cycle h hee hye q hz
    · cases hno

/-- A run in which the CPUs keep apart never reaches a deadlock, on any number of CPUs and in any
interleaving. -/
theorem not_deadlocked_of_apart {b : Scheduler} {n : ℕ} {s : Fin n → Cpu Lock}
    {l : List (Transition (Fin n → Cpu Lock) (LockEvent n))}
    (hpath : Path (lockStep b) (idleCpus n) l s)
    (hapart : ∀ tr ∈ l, apart tr.source tr.event = true) : ¬ Deadlocked s := by
  have hidle : Disciplined (idleCpus n) := by
    refine ⟨fun _ ↦ trivial, fun c d _ hcrossed ↦ ?_⟩
    obtain ⟨a, _, ha, -⟩ := hcrossed
    simp [idleCpus] at ha
  exact not_deadlocked_of_disciplined (hpath.preserves_of (Q := fun s e ↦ apart s e = true)
    (fun _ _ _ hstep hQ h ↦ disciplined_step h hQ hstep) hapart hidle)

/-- `init` forks on CPU 1; `allocproc` finds slot 1 free. It takes a page for the trapframe and
three for the page table, the copy of four pages of memory takes two more for the page table, and
three files are open. -/
def forkRoutine : Routine := .kfork 1 (some (.allocated 4 6 3))

/-- The sections of the fork up to the child's lock, then a number of operations under it. -/
def forkLockEvents (operations : ℕ) : List (LockEvent 3) :=
  [.begin 1 forkRoutine 0, .advance 1, .advance 1, .begin 1 forkRoutine 1] ++
    List.replicate operations (.advance 1)

/-- A clock tick on CPU 0, as far as the lock of slot 1. -/
def clockLockEvents : List (LockEvent 3) :=
  .begin 0 (.clockintr (fun _ ↦ false) none) 0 :: List.replicate 3 (.advance 0)

/-- The tick comes when `allocproc` has given back all its locks. -/
theorem not_deadlocked_forkLockEvents :
    (replay (lockStep .roundRobin) (idleCpus 3) (forkLockEvents 34 ++ clockLockEvents)).1.length =
        42 ∧
      ¬ Deadlocked (replay (lockStep .roundRobin) (idleCpus 3)
        (forkLockEvents 34 ++ clockLockEvents)).2 :=
  ⟨by decide +kernel, not_deadlocked_of_apart (path_replay _ _) (by decide +kernel)⟩

/-- The tick comes when `allocproc` has taken the child's lock and wants `tickslock`. -/
def crossedCpus : Fin 3 → Cpu Lock :=
  (replay (lockStep .roundRobin) (idleCpus 3) (forkLockEvents 11 ++ clockLockEvents)).2

/-- Two of the three CPUs of the round-robin build spin for ever. -/
theorem deadlock_clockintr_allocproc :
    Reachable (lockStep .roundRobin) (idleCpus 3) crossedCpus ∧ Deadlocked crossedCpus := by
  have hrest : (crossedCpus 0).rest.head? = some (.acquire (.proc 1)) ∧
      (crossedCpus 1).rest.head? = some (.acquire .tickslock) := by decide +kernel
  have hheld : Lock.proc 1 ∈ (crossedCpus 1).held ∧ Lock.tickslock ∈ (crossedCpus 0).held := by
    decide +kernel
  have hspins {c : Fin 3} {l : Lock} (h : (crossedCpus c).rest.head? = some (.acquire l)) :
      Spins crossedCpus c l :=
    ⟨_, List.eq_cons_of_mem_head? h⟩
  have hclock : WaitsFor crossedCpus 0 1 := ⟨.proc 1, hspins hrest.1, hheld.1⟩
  have hfork : WaitsFor crossedCpus 1 0 := ⟨.tickslock, hspins hrest.2, hheld.2⟩
  exact ⟨⟨_, path_replay _ _⟩, 0, .tail (.single hclock) hfork⟩

end Irish.Xv6
