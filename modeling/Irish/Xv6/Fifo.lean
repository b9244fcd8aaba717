import Irish.Xv6.Births

/-!
# First come, first served

The FIFO build on one CPU. `allocproc` draws increasing pids and stamps the clock, the scan of
`scheduler` takes the smallest pid among the `RUNNABLE` processes, and neither trap handler yields.
Over whole runs: processes have different pids, a dispatch goes to the smallest one, the idle branch
is taken only if nothing is `RUNNABLE`, and a process leaves the CPU by `sleep` or `kexit` alone.

Two numbers of the source are bounded. The scan starts from `0x7fffffff`, so the pids that are drawn
have to stay below it; failed allocations draw pids too. And a smaller pid comes with a creation
time that is not larger only as long as the 32-bit clock has not gone round
(`fifo_firstComeFirstServed`); after that it may be larger (`ctime_wraps`).
-/

set_option autoImplicit false

namespace Irish.Xv6

open Library

/-! ### The scan -/

/-- The scan keeps what it has, with nothing smaller in the rest of the table, or it ends with the
smallest pid of the rest. -/
theorem scanPids_spec (procs : List Proc) (slot : ℕ) (best : Option ℕ) (minPid : ℤ) :
    (scanPids procs slot best minPid = best ∧
      ∀ q ∈ procs, q.state = .runnable → minPid ≤ q.pid) ∨
    ∃ (j : ℕ) (p : Proc), scanPids procs slot best minPid = some (slot + j) ∧
      procs[j]? = some p ∧ p.state = .runnable ∧ p.pid < minPid ∧
      ∀ q ∈ procs, q.state = .runnable → p.pid ≤ q.pid := by
  induction procs generalizing slot best minPid with
  | nil => exact .inl ⟨rfl, by simp⟩
  | cons p _ ih =>
    simp only [scanPids, List.forall_mem_cons]
    split_ifs with hbetter
    · right
      rcases ih (slot + 1) (some slot) p.pid with ⟨heq, hall⟩ | ⟨j, q, heq, hq, hrun, hlt, hall⟩
      · exact ⟨0, p, heq, rfl, hbetter.1, hbetter.2, fun _ ↦ le_refl _, hall⟩
      · refine ⟨j + 1, q, by rw [heq]; congr 1; omega, hq, hrun, hlt.trans hbetter.2,
          fun _ ↦ hlt.le, hall⟩
    · have hp : p.state = .runnable → minPid ≤ p.pid := fun hrun ↦
        not_lt.mp fun hlt ↦ hbetter ⟨hrun, hlt⟩
      rcases ih (slot + 1) best minPid with ⟨heq, hall⟩ | ⟨j, q, heq, hq, hrun, hlt, hall⟩
      · exact .inl ⟨heq, hp, hall⟩
      · exact .inr ⟨j + 1, q, by rw [heq]; congr 1; omega, hq, hrun, hlt,
          fun hrunnable ↦ hlt.le.trans (hp hrunnable), hall⟩

variable {k k' : Kernel} {i : ℕ} {q : Proc} {b : Build} {l : List (Transition Kernel Event)}
  {e : Event}

theorem smallest_of_pick (h : pick .fifo k = some i) :
    ∃ p, k.procs[i]? = some p ∧ p.state = .runnable ∧
      ∀ q ∈ k.procs, q.state = .runnable → p.pid ≤ q.pid := by
  simp only [pick] at h
  rcases scanPids_spec k.procs 0 none 0x7fffffff with ⟨heq, -⟩ | ⟨j, p, heq, hp, hrun, -, hall⟩
  · rw [heq] at h
    cases h
  · rw [heq, Nat.zero_add] at h
    simp only [hp, hrun, if_true, Option.some.injEq] at h
    exact ⟨p, h ▸ hp, hrun, hall⟩

/-- The second look at the process that the scan has found never fails. -/
theorem le_pid_of_pick (h : pick .fifo k = none) (hq : q ∈ k.procs) (hrun : q.state = .runnable) :
    0x7fffffff ≤ q.pid := by
  simp only [pick] at h
  rcases scanPids_spec k.procs 0 none 0x7fffffff with ⟨-, hall⟩ | ⟨j, p, heq, hp, hrun, -⟩
  · exact hall q hq hrun
  · rw [heq, Nat.zero_add] at h
    simp [hp, hrun] at h

/-! ### Who has the CPU -/

/-- A process has given the CPU up: it sleeps or has exited. -/
def GivesUp (tr : Transition Kernel Event) (i : ℕ) : Prop :=
  ∃ p', tr.target.procs[i]? = some p' ∧ (tr.event = .sleep ∧ p'.state = .sleeping ∨
    ∃ status, tr.event = .exit status ∧ p'.state = .zombie)

section Steps

variable {k' : Kernel} {e : Event} {p : Proc}

theorem cur_timerTrap_fifo (mode : Mode) (k : Kernel) : (timerTrap .fifo mode k).cur = k.cur := by
  unfold timerTrap chargeTick
  split
  · rfl
  · split
    · rfl
    · split_ifs <;> rfl

theorem givesUp_sleep (hp : k.procs[i]? = some p) (hcur : k.cur = some i) :
    (sleep .fifo i p k).cur = some i ∨ GivesUp ⟨k, .sleep, sleep .fifo i p k⟩ i := by
  unfold sleep
  split_ifs
  · exact .inr ⟨{ p with state := .sleeping }, by simp [hp], .inl ⟨rfl, rfl⟩⟩
  · exact .inl hcur

theorem givesUp_kexit (status : ℤ) (h : Control k.procs k.cur) (hcur : k.cur = some i) :
    GivesUp ⟨k, .exit status, kexit .fifo status i k⟩ i := by
  have hnotify := control_kexitNotify (b := .fifo) (i := i) h
  rw [hcur] at hnotify
  obtain ⟨q, hq⟩ := hnotify.current i rfl
  exact ⟨{ q with etime := (kexitNotify .fifo i k).ticks, xstate := status, state := .zombie },
    by simp [kexit, hq], .inr ⟨status, rfl, rfl⟩⟩

/-- In the FIFO build nothing but `sleep` and `kexit` takes the CPU from a process. -/
theorem fifo_keeps_cpu (hstep : step .fifo k e = some k') (h : Control k.procs k.cur)
    (hcur : k.cur = some i) : k'.cur = some i ∨ GivesUp ⟨k, e, k'⟩ i := by
  rcases step_cases hstep with ⟨mode, -, -, rfl⟩ | ⟨chan, -, rfl⟩ | ⟨-, hidle, -⟩ |
    ⟨j, p, hj, hp, hproc⟩
  · exact .inl ((cur_timerTrap_fifo mode k).trans hcur)
  · exact .inl hcur
  · cases hcur.symm.trans hidle
  · obtain rfl : j = i := Option.some.inj (hj.symm.trans hcur)
    cases procStep_cases hproc with
    | forkAlloc mem => exact .inl ((kforkAlloc_cases .fifo mem j k).frame.1.trans hcur)
    | sleep => exact givesUp_sleep hp hcur
    | kill pid => exact .inl ((nudges_kkill .fifo pid k).cur.trans hcur)
    | exit status => exact .inr (givesUp_kexit status h hcur)
    | wait copyout => exact .inl ((kwait_frame .fifo copyout j p k).1.trans hcur)
    | _ => exact .inl hcur

end Steps

/-! ### Creation times -/

structure CtimesOrdered (k : Kernel) : Prop where
  past : ∀ (z : ℕ) (p : Proc), k.procs[z]? = some p → p.state ≠ .unused → p.ctime ≤ k.ticks
  ordered : ∀ (y z : ℕ) (p q : Proc), k.procs[y]? = some p → k.procs[z]? = some q →
    p.state ≠ .unused → q.state ≠ .unused → p.pid < q.pid → p.ctime ≤ q.ctime

theorem CtimesOrdered.step {k k' : Kernel} (hctimes : CtimesOrdered k) (hpids : Pids k)
    (h : Births k k') (hticks : k.ticks ≤ k'.ticks) : CtimesOrdered k' where
  past := by
    intro z p' hz hused
    rcases h.cases hz hused with ⟨p, hp, hpused, -, hctime⟩ | ⟨-, hctime, -⟩
    · have hpast := hctimes.past z p hp hpused
      omega
    · omega
  ordered := by
    intro y z p' q' hy hz hpused' hqused' hlt
    rcases h.cases hy hpused' with ⟨p, hp, hpused, hpid, hpctime⟩ | ⟨hpid, -⟩
    · rcases h.cases hz hqused' with ⟨q, hq, hqused, hqid, hqctime⟩ | ⟨-, hqctime, -⟩
      · have hle := hctimes.ordered y z p q hp hq hpused hqused (by omega)
        omega
      · have hpast := hctimes.past y p hp hpused
        omega
    · -- A new process has the largest pid.
      rcases h.cases hz hqused' with ⟨q, hq, hqused, hqid, -⟩ | ⟨hqid, -⟩
      · have hbelow := hpids.below z q hq hqused
        omega
      · omega

theorem ctimesOrdered_boot (b : Build) : CtimesOrdered (boot b) := by
  have hzero : ∀ p ∈ (boot b).procs, p.ctime = 0 := by cases b <;> decide +kernel
  refine ⟨fun z p hp _ ↦ ?_, fun y z p q hp hq _ _ _ ↦ ?_⟩
  · have hctime := hzero p (List.mem_of_getElem? hp)
    omega
  · have hctime := hzero p (List.mem_of_getElem? hp)
    omega

/-- The clock counts the timer interrupts, and creation times are in the order of the pids, until
the clock goes round. -/
theorem ctimesOrdered_of_path (hpath : Path (step b) (boot b) l k)
    (hticks : l.countP (·.event.isTimer) < uintSize) : CtimesOrdered k := by
  have hzero : (boot b).ticks = 0 := by cases b <;> rfl
  have hrun := hpath.countP_rule (P := (·.event.isTimer))
    (J := fun n k ↦ Control k.procs k.cur ∧ Pids k ∧ (n < uintSize →
      k.ticks = n ∧ CtimesOrdered k)) (c := 0) ?_
    ⟨control_boot b, pids_boot b, fun _ ↦ ⟨hzero, ctimesOrdered_boot b⟩⟩
  · rw [Nat.zero_add] at hrun
    exact (hrun.2.2 hticks).2
  · rintro ⟨s, e, t⟩ - hstep n ⟨hcontrol, hpids, hctimes⟩
    have hbirths := births_step hstep hcontrol
    refine ⟨control_step hstep hcontrol, hpids.step hbirths, fun hn ↦ ?_⟩
    dsimp only at hstep hn hctimes ⊢
    obtain ⟨hs, hctimes⟩ := hctimes (by omega)
    have ht : t.ticks = n + if e.isTimer then 1 else 0 := by
      rw [ticks_step hstep]
      split_ifs at hn ⊢
      · rw [hs]
        exact Nat.mod_eq_of_lt hn
      · exact hs
    exact ⟨ht, hctimes.step hpids hbirths (by omega)⟩

/-! ### Whole runs -/

/-- A transition draws a pid, for a process that is created or whose creation fails. -/
def drawsPid (tr : Transition Kernel Event) : Bool := tr.target.nextpid ≠ tr.source.nextpid

theorem nextpid_of_path (hpath : Path (step b) (boot b) l k) :
    k.nextpid = 2 + l.countP drawsPid := by
  have hrun := hpath.countP_rule (P := drawsPid)
    (J := fun n k ↦ Control k.procs k.cur ∧ k.nextpid = 2 + n) (c := 0) ?_
    ⟨control_boot b, by cases b <;> rfl⟩
  · rw [Nat.zero_add] at hrun
    exact hrun.2
  · rintro ⟨s, e, t⟩ - hstep n ⟨hcontrol, hs⟩
    refine ⟨control_step hstep hcontrol, ?_⟩
    dsimp only at hstep hs ⊢
    rcases (births_step hstep hcontrol).next with hnext | hnext
    · have hkeeps : drawsPid ⟨s, e, t⟩ = false := by simp [drawsPid, hnext]
      rw [hnext, hs, hkeeps]
      simp
    · have hdraws : drawsPid ⟨s, e, t⟩ = true := by
        simp only [drawsPid, decide_eq_true_eq]
        omega
      rw [hnext, hs, hdraws]
      push_cast
      simp only [if_true]
      omega

/-- First come, first served, without preemption, at one transition. -/
structure FirstServed (tr : Transition Kernel Event) : Prop where
  smallest : ∀ i, tr.event = .dispatch → tr.target.cur = some i →
    ∃ p, tr.source.procs[i]? = some p ∧ p.state = .runnable ∧
      ∀ (j : ℕ) (q : Proc), tr.source.procs[j]? = some q → q.state = .runnable → j ≠ i →
        p.pid < q.pid
  idle : tr.event = .dispatch → tr.target.cur = none → ∀ p ∈ tr.source.procs, p.state ≠ .runnable
  notPreempted : ∀ (i : ℕ) (p p' : Proc), tr.source.procs[i]? = some p →
    tr.target.procs[i]? = some p' → p.state = .running → p'.state ≠ .runnable
  keeps : ∀ i, tr.source.cur = some i → tr.target.cur = some i ∨ GivesUp tr i

theorem firstServed_step (hstep : step .fifo k e = some k') (hcontrol : Control k.procs k.cur)
    (hpids : Pids k) (hnext : k.nextpid ≤ 0x7fffffff) :
    FirstServed ⟨k, e, k'⟩ where
  smallest := by
    rintro i rfl hcur
    rcases step_cases hstep with ⟨mode, he, -⟩ | ⟨chan, he, -⟩ |
      ⟨-, hidle, ⟨-, rfl⟩ | ⟨j, hpick, rfl⟩⟩ | ⟨j, p, -, -, hproc⟩
    · cases he
    · cases he
    · cases hidle.symm.trans hcur
    · obtain rfl : j = i := Option.some.inj hcur
      obtain ⟨p, hp, hrun, hall⟩ := smallest_of_pick hpick
      refine ⟨p, hp, hrun, fun z q hq hready hne ↦ ?_⟩
      have hle := hall q (List.mem_of_getElem? hq) hready
      have hdiffer : p.pid ≠ q.pid := fun hsame ↦
        hne (hpids.distinct j z p q hp hq (by simp [hrun]) (by simp [hready]) hsame).symm
      omega
    · cases hproc
  idle := by
    rintro rfl hcur q hq hready
    rcases step_cases hstep with ⟨mode, he, -⟩ | ⟨chan, he, -⟩ |
      ⟨-, -, ⟨hpick, -⟩ | ⟨j, -, rfl⟩⟩ | ⟨j, p, -, -, hproc⟩
    · cases he
    · cases he
    · obtain ⟨z, hz⟩ := List.getElem?_of_mem hq
      have hle := le_pid_of_pick hpick hq hready
      have hlt := hpids.below z q hz (by simp [hready])
      omega
    · cases hcur
    · cases hproc
  notPreempted := by
    intro i p p' hp hp' hrun hready
    have hcur : k.cur = some i := (hcontrol.running i p hp).mp hrun
    rcases fifo_keeps_cpu hstep hcontrol hcur with hstill | ⟨q, hq, hgone⟩
    · have hrunning := ((control_step hstep hcontrol).running i p' hp').mpr hstill
      simp [hready] at hrunning
    · cases hp'.symm.trans hq
      rcases hgone with ⟨-, hstate⟩ | ⟨-, -, hstate⟩ <;> simp [hready] at hstate
  keeps := fun i hcur ↦ fifo_keeps_cpu hstep hcontrol hcur

/-- The FIFO build on one CPU, as long as fewer than `2 ^ 31 - 1` pids are drawn. Processes have
different pids, which are in the order of the creation times if there have been fewer than `2 ^ 32`
timer interrupts; the `RUNNABLE` process with the smallest pid is dispatched, the CPU is idle only
if there is none, and a process keeps the CPU until it sleeps or exits. -/
theorem fifo_firstComeFirstServed {k : Kernel} {l : List (Transition Kernel Event)}
    (hpath : Path (step .fifo) (boot .fifo) l k) (hdrawn : 1 + l.countP drawsPid < 0x7fffffff) :
    (∀ (i j : ℕ) (p q : Proc), k.procs[i]? = some p → k.procs[j]? = some q → p.state ≠ .unused →
      q.state ≠ .unused → p.pid = q.pid → i = j) ∧
    (l.countP (·.event.isTimer) < uintSize → ∀ (i j : ℕ) (p q : Proc), k.procs[i]? = some p →
      k.procs[j]? = some q → p.state ≠ .unused → q.state ≠ .unused → p.pid < q.pid →
      p.ctime ≤ q.ctime) ∧
    ∀ tr ∈ l, FirstServed tr := by
  refine ⟨(pids_of_path hpath).distinct, fun hticks ↦ (ctimesOrdered_of_path hpath hticks).ordered,
    fun tr htr ↦ ?_⟩
  obtain ⟨before, after, rfl⟩ := List.append_of_mem htr
  obtain ⟨hbefore, hstep, -⟩ := hpath.split_cons
  refine firstServed_step hstep (control_reachable ⟨before, hbefore⟩) (pids_of_path hbefore) ?_
  rw [List.countP_append] at hdrawn
  rw [nextpid_of_path hbefore]
  omega

/-- `init` forks a child and sleeps, after a timer interrupt that does not preempt it. -/
def forkThenSleep : List (Transition Kernel Event) × Kernel :=
  replay (step .fifo) (boot .fifo) [.dispatch, .forkAlloc ⟨true, true, true⟩, .forkLink,
    .forkRunnable, .timer .user, .sleepPrepare (.other 0), .sleep, .dispatch]

theorem firstServed_forkThenSleep :
    forkThenSleep.1.map (·.target.cur) =
      [some 0, some 0, some 0, some 0, some 0, some 0, none, some 1] ∧
    ∀ tr ∈ forkThenSleep.1, FirstServed tr := by
  have hpath : Path (step .fifo) (boot .fifo) forkThenSleep.1 forkThenSleep.2 := path_replay _ _
  exact ⟨by decide +kernel, (fifo_firstComeFirstServed hpath (by decide +kernel)).2.2⟩

/-! ### The clock goes round -/

/-- The kernel after `n` timer interrupts with nothing dispatched. -/
def idleKernel (n : ℕ) : Kernel := { boot .fifo with ticks := n % uintSize }

/-- The events that follow: `init` is dispatched and forks, the clock ticks, and `init` forks
again. -/
def forksAcrossTick : List Event :=
  [.dispatch, .forkAlloc ⟨true, true, true⟩, .forkLink, .forkRunnable, .timer .user,
    .forkAlloc ⟨true, true, true⟩]

def acrossTick : List (Transition Kernel Event) × Kernel :=
  replay (step .fifo) (idleKernel (uintSize - 1)) forksAcrossTick

theorem timerTrap_idleKernel (n : ℕ) :
    timerTrap .fifo .kernel (idleKernel n) = idleKernel (n + 1) := by
  have hasleep : sweep (wakeupBody .fifo (some .ticks)) (boot .fifo).procs
      (boot .fifo).mlfqGlobalSeq = ((boot .fifo).procs, (boot .fifo).mlfqGlobalSeq) := by
    decide +kernel
  have hclock : clockintr .fifo (idleKernel n) = idleKernel (n + 1) := by
    simp only [clockintr, wakeup, Kernel.sweepProcs, idleKernel, hasleep, Nat.mod_add_mod]
  rw [timerTrap, hclock]
  rfl

theorem path_idleKernel (n : ℕ) : ∃ l, Path (step .fifo) (boot .fifo) l (idleKernel n) ∧
    l.countP drawsPid = 0 := by
  induction n with
  | zero => exact ⟨[], .nil _, rfl⟩
  | succ n ih =>
    obtain ⟨l, hpath, hdrawn⟩ := ih
    have hstep : step .fifo (idleKernel n) (.timer .kernel) = some (idleKernel (n + 1)) := by
      simp [step, timerTrap_idleKernel]
    exact ⟨_, hpath.append (.single hstep), by simp [hdrawn, drawsPid, idleKernel]⟩

/-- After `2 ^ 32 - 1` timer interrupts `init` forks, and it forks again after one more: the
processes 2 and 3 have the creation times `2 ^ 32 - 1` and 0. -/
theorem ctime_wraps : ∃ l k, Path (step .fifo) (boot .fifo) l k ∧
    1 + l.countP drawsPid < 0x7fffffff ∧
    ∃ p q, k.procs[1]? = some p ∧ k.procs[2]? = some q ∧ p.state ≠ .unused ∧ q.state ≠ .unused ∧
      p.pid = 2 ∧ q.pid = 3 ∧ p.ctime = 0xffffffff ∧ q.ctime = 0 := by
  obtain ⟨l, hpath, hdrawn⟩ := path_idleKernel (uintSize - 1)
  have hrest : Path (step .fifo) (idleKernel (uintSize - 1)) acrossTick.1 acrossTick.2 :=
    path_replay _ _
  refine ⟨l ++ acrossTick.1, acrossTick.2, hpath.append hrest, ?_, ?_⟩
  · have hcount : acrossTick.1.countP drawsPid = 2 := by decide +kernel
    rw [List.countP_append, hdrawn, hcount]
    decide
  · have hfirst : acrossTick.2.procs[1]?.map (fun p ↦ (p.state, p.pid, p.ctime)) =
        some (.runnable, 2, 0xffffffff) := by
      decide +kernel
    have hsecond : acrossTick.2.procs[2]?.map (fun p ↦ (p.state, p.pid, p.ctime)) =
        some (.used, 3, 0) := by
      decide +kernel
    obtain ⟨p, hp, hpfields⟩ := Option.map_eq_some_iff.mp hfirst
    obtain ⟨q, hq, hqfields⟩ := Option.map_eq_some_iff.mp hsecond
    simp only [Prod.mk.injEq] at hpfields hqfields
    refine ⟨p, q, hp, hq, by simp [hpfields.1], by simp [hqfields.1], hpfields.2.1, hqfields.2.1,
      hpfields.2.2, hqfields.2.2⟩

end Irish.Xv6
