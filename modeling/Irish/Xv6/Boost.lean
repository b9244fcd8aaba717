import Irish.Xv6.Fairness

/-!
# The priority boost

Two properties that the boost is meant to have, and the exact extent to which it has them.

A boost is not the last thing its interrupt does: the tick is then charged to the interrupted
process, which uses up the one-tick slice of queue 0 and goes on to queue 1. The processes are all
at the start of queue 0 afterwards exactly when the tick is charged to nobody.

A boost queues the processes in the order of the table, and there are more slots than ticks in a
boost period, so a process at the end of the table can wait from one boost to the next. It does not
when, over the period, the processes in front of it and the ticks charged to nobody are together
fewer than the ticks of the period.
-/

set_option autoImplicit false

namespace Irish.Xv6

open Library Library.FeedbackQueue

/-! ### After the interrupt of a boost -/

/-- Every process that can still run is at the start of a slice of queue 0. -/
def Boosted (k : Kernel) : Prop :=
  ∀ p ∈ k.procs, p.state ≠ .unused → p.state ≠ .zombie → p.mlfqQueue = 0 ∧ p.mlfqTicksUsed = 0

instance (k : Kernel) : Decidable (Boosted k) := inferInstanceAs (Decidable (∀ p ∈ k.procs, _))

variable {mode : Mode} {k k' k₁ u : Kernel} {i size t n : ℕ} {p r : Proc} {b : Build}
  {l : List (Transition Kernel Event)} {e e' : Event}

theorem boosted_clockintr (h : boosts k (.timer mode)) : Boosted (clockintr .mlfq k) := by
  intro p' hp' hunused hzombie
  obtain ⟨i, hi⟩ := List.getElem?_of_mem hp'
  have hlength : (clockintr .mlfq k).procs.length = k.procs.length := by
    unfold clockintr mlfqBoost wakeup Kernel.sweepProcs
    dsimp only
    split_ifs <;> simp
  have hlt : i < k.procs.length := hlength ▸ (lt_of_getElem? hi)
  obtain ⟨q, hq, -, -, hfields⟩ := getElem?_clockintr mode (List.getElem?_eq_getElem hlt)
  cases hi.symm.trans hq
  exact hfields h hunused hzombie

/-- The tick of a boost is charged in queue 0, and the process goes on to queue 1. -/
theorem mlfqTickHandler_boosted (hp : k.procs[i]? = some p) (hqueue : p.mlfqQueue = 0)
    (hticks : p.mlfqTicksUsed = 0) :
    ∃ q, (yield i (mlfqTickHandler i p k).2).procs[i]? = some q ∧ q.state = .runnable ∧
      q.mlfqQueue = 1 := by
  refine ⟨{ expireFields (chargeFields p) with
    mlfqEnterSeq := k.mlfqGlobalSeq + 1, state := .runnable }, ?_, rfl, ?_⟩
  · simp [mlfqTickHandler, hqueue, hticks, mlfqTimeslice, yield, Kernel.stamp, hp]
  · simp [expireFields, chargeFields, hqueue]

theorem charged_eq_none_iff (h : Control k.procs k.cur) :
    charged k (.timer mode) = none ↔ k.cur = none ∨
      (mode = .user ∧ ∃ (i : ℕ) (p : Proc), k.cur = some i ∧ k.procs[i]? = some p ∧ p.killed) := by
  unfold charged
  cases hcur : k.cur with
  | none => simp
  | some i =>
    obtain ⟨p, hp⟩ := h.current i hcur
    simp [hp]

/-- After the interrupt of a boost, every process that can still run is at the start of queue 0
exactly when the interrupt did not charge its tick: it came while the scheduler was idle, or in user
mode to a process that is killed. -/
theorem boosted_iff {mode : Mode} {k : Kernel} (hreach : Reachable (step .mlfq) (boot .mlfq) k)
    (hboost : boosts k (.timer mode)) :
    Boosted (timerTrap .mlfq mode k) ↔ k.cur = none ∨
      (mode = .user ∧ ∃ (i : ℕ) (p : Proc), k.cur = some i ∧ k.procs[i]? = some p ∧ p.killed) := by
  have hcontrol := control_reachable hreach
  rw [← charged_eq_none_iff hcontrol]
  rw [← charged_clockintr hcontrol]
  have hclock := boosted_clockintr hboost
  constructor
  · intro hafter
    cases hcharged : charged (clockintr .mlfq k) (.timer mode) with
    | none => rfl
    | some i =>
      have hcur := cur_of_charged hcharged
      obtain ⟨p, hp⟩ := (control_clockintr hcontrol).current i hcur
      have hrun := ((control_clockintr hcontrol).running i p hp).mpr hcur
      obtain ⟨hqueue, hticks⟩ :=
        hclock p (List.mem_of_getElem? hp) (by simp [hrun]) (by simp [hrun])
      obtain ⟨q, hq, hstate, hdemoted⟩ := mlfqTickHandler_boosted hp hqueue hticks
      have hyield : (mlfqTickHandler i p (clockintr .mlfq k)).1 = true := by
        simp [mlfqTickHandler, hqueue, hticks, mlfqTimeslice]
      have htrap : timerTrap .mlfq mode k =
          yield i (mlfqTickHandler i p (clockintr .mlfq k)).2 :=
        (chargeTick_of_charged hcharged hp).trans (if_pos hyield)
      rw [htrap] at hafter
      have hzero := (hafter q (List.mem_of_getElem? hq) (by simp [hstate]) (by simp [hstate])).1
      omega
  · intro hcharged
    rwa [timerTrap, chargeTick_of_not_charged hcharged]

/-- `init` runs alone: it goes down the queues, a slice in each, and is in queue 3 at tick 47. -/
def aloneEvents : List Event :=
  .dispatch :: ([1, 4, 8, 16, 16].flatMap fun ticks ↦
    List.replicate ticks (.timer .user) ++ [.dispatch]) ++ List.replicate 2 (.timer .user)

def aloneKernel : Kernel := (replay (step .mlfq) (boot .mlfq) aloneEvents).2

def killedKernel : Kernel := (replay (step .mlfq) aloneKernel [.setkilled]).2

theorem reachable_aloneKernel : Reachable (step .mlfq) (boot .mlfq) aloneKernel :=
  ⟨_, path_replay _ _⟩

theorem reachable_killedKernel : Reachable (step .mlfq) (boot .mlfq) killedKernel :=
  reachable_aloneKernel.trans_path (path_replay _ _)

theorem aloneKernel_spec :
    (boosts aloneKernel (.timer .user) ∧ ¬ Boosted (timerTrap .mlfq .user aloneKernel)) ∧
      boosts killedKernel (.timer .user) ∧ killedKernel.cur = some 0 ∧
        killedKernel.procs[0]?.map (·.killed) = some true := by
  decide +kernel

/-- The boost at tick 48 leaves `init` in queue 1. -/
theorem not_boosted_aloneKernel : Reachable (step .mlfq) (boot .mlfq) aloneKernel ∧
    boosts aloneKernel (.timer .user) ∧ ¬ Boosted (timerTrap .mlfq .user aloneKernel) :=
  ⟨reachable_aloneKernel, aloneKernel_spec.1⟩

/-- If `init` is killed just before, the tick is not charged and the boost is complete. -/
theorem boosted_killedKernel :
    boosts killedKernel (.timer .user) ∧ Boosted (timerTrap .mlfq .user killedKernel) := by
  obtain ⟨-, hboost, hcur, hkilled⟩ := aloneKernel_spec
  obtain ⟨p, hp, hk⟩ := Option.map_eq_some_iff.mp hkilled
  exact ⟨hboost, (boosted_iff reachable_killedKernel hboost).mpr
    (.inr ⟨rfl, 0, p, hcur, hp, hk⟩)⟩

/-! ### From one boost to the next -/

def isTick (tr : Transition Kernel Event) : Bool := tr.event.isTimer

/-- The tick comes while no process can be charged: the scheduler is idle, or the process that is
interrupted in user mode is killed. -/
def isIdleTick (tr : Transition Kernel Event) : Bool :=
  tr.event.isTimer ∧ charged tr.source tr.event = none

theorem ticks_path (hpath : Path (step b) k l k') (hticks : k.ticks < uintSize) :
    k'.ticks = (k.ticks + l.countP isTick) % uintSize := by
  have hrule := hpath.countP_rule (P := isTick)
    (J := fun c s ↦ s.ticks = (k.ticks + c) % uintSize) (c := 0) ?_ ?_
  · simpa using hrule
  · intro tr _ hstep c hc
    rw [ticks_step hstep]
    unfold isTick
    split_ifs
    · rw [hc, Nat.mod_add_mod, Nat.add_assoc]
    · simpa using hc
  · rw [Nat.add_zero, Nat.mod_eq_of_lt hticks]

/-- A multiple of the period and a later one, on a counter that wraps around to zero and does not
boost there, are at least a period apart. -/
theorem period_le_of_multiples (hsize : boostPeriod ≤ size) (ht : t < size)
    (hmod : t % boostPeriod = 0) (hpos : 0 < ((t + n) % size + 1) % size)
    (hmod' : ((t + n) % size + 1) % size % boostPeriod = 0) : boostPeriod ≤ n + 1 := by
  unfold boostPeriod at *
  by_contra hlt
  by_cases hwrap : t + n < size
  · rw [Nat.mod_eq_of_lt hwrap] at hpos hmod'
    by_cases hnext : t + n + 1 < size
    · rw [Nat.mod_eq_of_lt hnext] at hmod'
      omega
    · rw [show t + n + 1 = size by omega, Nat.mod_self] at hpos
      omega
  · have hsmall : (t + n) % size = t + n - size := by
      rw [Nat.mod_eq_sub_mod (by omega), Nat.mod_eq_of_lt (by omega)]
    have hnext : t + n - size + 1 < boostPeriod := by unfold boostPeriod; omega
    rw [hsmall, Nat.mod_eq_of_lt (hnext.trans_le hsize)] at hpos hmod'
    unfold boostPeriod at hnext
    omega

/-- Two boosts are at least a period apart, also when the tick counter wraps around. -/
theorem period_le_ticks (hboost : boosts k e) (hstep : step .mlfq k e = some k₁)
    (hpath : Path (step .mlfq) k₁ l u) (hboost' : boosts u e') :
    boostPeriod ≤ l.countP isTick + 1 := by
  obtain ⟨htimer, hpos, hmod⟩ := hboost
  obtain ⟨-, hpos', hmod'⟩ := hboost'
  have hfirst : k₁.ticks = (k.ticks + 1) % uintSize := by
    rw [ticks_step hstep, if_pos htimer]
  have hlt : k₁.ticks < uintSize := by
    rw [hfirst]
    exact Nat.mod_lt _ (by decide)
  rw [ticks_path hpath hlt] at hpos' hmod'
  exact period_le_of_multiples (by decide) hlt (hfirst ▸ hmod) hpos' hmod'

/-- Every tick is charged to a process or to nobody. -/
theorem countP_isTick (l : List (Transition Kernel Event)) :
    l.countP isTick = l.countP isCharged + l.countP isIdleTick := by
  induction l with
  | nil => rfl
  | cons tr _ ih =>
    have htr : (if isTick tr then 1 else 0) =
        (if isCharged tr then 1 else 0) + if isIdleTick tr then 1 else 0 := by
      obtain ⟨k, e, k'⟩ := tr
      cases e with
      | timer mode =>
        cases h : charged k (.timer mode) <;>
          simp [isTick, isCharged, isIdleTick, Event.isTimer, h]
      | _ => simp [isTick, isCharged, isIdleTick, Event.isTimer, charged]
    simp only [List.countP_cons, ih]
    omega

/-- The processes that can have the CPU before the process in slot `p`, which waits in queue 0: the
one that has it, and those that are queued there, or being created, in front of `p`. -/
def inFront (p : ℕ) (k : Kernel) : Finset ℕ :=
  (Finset.range k.procs.length).filter fun i ↦
    ∃ q ∈ k.procs[i]?, q.state = .running ∨ ((q.state = .used ∨ q.state = .runnable) ∧
      q.mlfqQueue = 0 ∧ ∃ r ∈ k.procs[p]?, q.mlfqEnterSeq < r.mlfqEnterSeq)

theorem mem_inFront_of_rival {p : ℕ} (hr : k.procs[p]? = some r) (hrun : r.state = .runnable)
    (h : Rival p (view k) i) : i ∈ inFront p k := by
  have hphase : ((view k).entry i).phase ≠ .absent := by
    rcases h with h | ⟨h | h, -⟩ <;> simp [h]
  obtain ⟨q, hq⟩ := exists_of_phase rfl hphase
  unfold Rival view at h
  rw [view, entry_viewOf hq, phase_entryOf, ne_eq, phaseOf_eq_absent] at hphase
  rw [entry_viewOf hq, entry_viewOf hr, entryOf_of_used hphase,
    entryOf_of_used (by simp [hrun])] at h
  dsimp only at h
  have hlt : i < k.procs.length := lt_of_getElem? hq
  simp only [inFront, Finset.mem_filter, Finset.mem_range, hlt, true_and]
  refine ⟨q, hq, ?_⟩
  rcases h with h | ⟨h, hqueue, hseq⟩
  · exact .inl (phaseOf_eq_running.mp h)
  · refine .inr ⟨?_, hqueue, r, hr, hseq⟩
    cases hs : q.state <;> simp_all [phaseOf]

/-- After the interrupt of a boost, whoever still has the CPU is in queue 0. -/
theorem running_timerTrap_boost (hcontrol : Control k.procs k.cur) (hboost : boosts k (.timer mode))
    (hp : (timerTrap .mlfq mode k).procs[i]? = some p) (hrun : p.state = .running) :
    p.mlfqQueue = 0 := by
  have hclock := control_clockintr (b := .mlfq) hcontrol
  have hboosted := boosted_clockintr hboost
  cases hcharged : charged (clockintr .mlfq k) (.timer mode) with
  | none =>
    rw [timerTrap, chargeTick_of_not_charged hcharged] at hp
    exact (hboosted p (List.mem_of_getElem? hp) (by simp [hrun]) (by simp [hrun])).1
  | some j =>
    -- The interrupted process has used its slice up, so nobody has the CPU.
    obtain ⟨q, hq⟩ := hclock.current j (cur_of_charged hcharged)
    have hqrun := (hclock.running j q hq).mpr (cur_of_charged hcharged)
    have hfields := hboosted q (List.mem_of_getElem? hq) (by simp [hqrun]) (by simp [hqrun])
    have hidle : (timerTrap .mlfq mode k).cur = none := by
      rw [timerTrap, chargeTick_of_charged hcharged hq, if_pos]
      · rfl
      · simp [mlfqTickHandler, hfields, mlfqTimeslice]
    have hafter := (chargeTick_cases .mlfq mode _).control hclock
    have hcur := (hafter.running i p hp).mp hrun
    rw [show (chargeTick .mlfq mode (clockintr .mlfq k)).cur = none from hidle] at hcur
    cases hcur

/-- A process that is `RUNNABLE` right after a boost is dispatched before the next one, provided
that the processes in front of it and the ticks of the interval that are charged to nobody are
together fewer than the ticks of the interval. -/
theorem dispatched_before_boost {k k₁ u : Kernel} {e e' : Event}
    {l : List (Transition Kernel Event)} {p : ℕ}
    (hreach : Reachable (step .mlfq) (boot .mlfq) k) (hboost : boosts k e)
    (hstep : step .mlfq k e = some k₁)
    (hrunnable : ∃ r, (clockintr .mlfq k).procs[p]? = some r ∧ r.state = .runnable)
    (hpath : Path (step .mlfq) k₁ l u) (hquiet : ∀ tr ∈ l, ¬ boosts tr.source tr.event)
    (hboost' : boosts u e')
    (hload : (inFront p k₁).card + l.countP isIdleTick + (if charged u e' = none then 1 else 0) <
      boostPeriod) : ∃ tr ∈ l, dispatches p tr := by
  by_contra hnever
  have hcontrol := control_reachable hreach
  have hreach₁ : Reachable (step .mlfq) (boot .mlfq) k₁ := hreach.trans_path (Path.single hstep)
  have hcontrol₁ := control_reachable hreach₁
  obtain ⟨mode, rfl⟩ : ∃ mode, e = .timer mode := by
    cases e <;> simp_all [boosts, Event.isTimer]
  obtain rfl : timerTrap .mlfq mode k = k₁ := by
    simp only [step] at hstep
    split_ifs at hstep
    exact Option.some.inj hstep
  -- The process waits in queue 0 when the interrupt of the boost is over.
  obtain ⟨r, hr, hstate⟩ := hrunnable
  have hqueue := (boosted_clockintr hboost r (List.mem_of_getElem? hr) (by simp [hstate])
    (by simp [hstate])).1
  obtain ⟨w, hw, hwquiet, -⟩ := path_chargeTick mode (control_clockintr (b := .mlfq) hcontrol)
  have hstart : Waiting p 0 (view (timerTrap .mlfq mode k)) :=
    (waiting_path hw
      (waiting_of_runnableIn (k := clockintr .mlfq k) ⟨r, hr, hstate, hqueue⟩)
      fun tr htr ↦ hwquiet tr htr p).2
  obtain ⟨r₁, hr₁⟩ := exists_of_phase hstart.1 (by simp)
  have hstate₁ : r₁.state = .runnable := by
    have hphase := hstart.1
    rwa [view, entry_viewOf hr₁, phase_entryOf, phaseOf_eq_ready] at hphase
  -- It waits all along the interval, so its rivals pay for the ticks.
  obtain ⟨m, hm, hlift, hrun, -, hcount⟩ := refines_path hpath hcontrol₁ hquiet
  have hwaiting := waiting_path hm hstart fun tr htr ↦
    ⟨fun hp ↦ hnever (hrun tr htr p hp), hlift tr htr p⟩
  have hcharges := charges_le_card (fun _ ↦ mlfqTimeslice_pos) rfl (by decide)
    (valid_reachable hreach₁) hm hwaiting.1 hlift
    (fun i hi ↦ by
      obtain ⟨q, hq⟩ := exists_of_phase hi (by simp)
      rw [view, entry_viewOf hq, phase_entryOf, phaseOf_eq_running] at hi
      rw [view, entry_viewOf hq, entryOf_of_used (by simp [hi])]
      exact running_timerTrap_boost hcontrol hboost hq hi)
    (fun i hi ↦ mem_inFront_of_rival hr₁ hstate₁ hi)
  have hperiod := period_le_ticks hboost hstep hpath hboost'
  have hsplit := countP_isTick l
  cases hlast : charged u e' with
  | none =>
    rw [if_pos hlast] at hload
    omega
  | some i =>
    have hcontrol' := control_reachable (hreach₁.trans_path hpath)
    obtain ⟨q, hq⟩ := hcontrol'.current i (cur_of_charged hlast)
    have hrunning : ((view u).entry i).phase = .running := by
      rw [view, entry_viewOf hq, phase_entryOf, phaseOf_eq_running]
      exact (hcontrol'.running i q hq).mpr (cur_of_charged hlast)
    have hlt := hcharges.2 i hrunning
    omega

/-- `init` fills the table with processes that never sleep, and the first boost comes when each of
the first 47 has had a tick. -/
def crowdEvents : List Event :=
  .dispatch ::
    (List.replicate 63 [.forkAlloc ⟨true, true, true⟩, .forkLink, .forkRunnable]).flatten ++
    (List.replicate 47 [.timer .user, .dispatch]).flatten

def crowdedKernel : Kernel := (replay (step .mlfq) (boot .mlfq) crowdEvents).2

/-- The interval that follows, up to the next boost. -/
def crowdedRun : List (Transition Kernel Event) × Kernel :=
  replay (step .mlfq) (timerTrap .mlfq .user crowdedKernel)
    (.dispatch :: (List.replicate 47 [.timer .user, .dispatch]).flatten)

theorem reachable_crowdedKernel : Reachable (step .mlfq) (boot .mlfq) crowdedKernel :=
  ⟨_, path_replay _ _⟩

theorem path_crowdedRun :
    Path (step .mlfq) (timerTrap .mlfq .user crowdedKernel) crowdedRun.1 crowdedRun.2 :=
  path_replay _ _

theorem step_timer_user (h : k.cur ≠ none) : step b k (.timer .user) = some (timerTrap b .user k) :=
  if_neg fun hno ↦ h hno.2

theorem crowdedKernel_spec : boosts crowdedKernel (.timer .user) ∧
    step .mlfq crowdedKernel (.timer .user) = some (timerTrap .mlfq .user crowdedKernel) ∧
    (∃ r, (clockintr .mlfq crowdedKernel).procs[63]? = some r ∧ r.state = .runnable) ∧
    (∃ r, (clockintr .mlfq crowdedKernel).procs[1]? = some r ∧ r.state = .runnable) ∧
    inFront 1 (timerTrap .mlfq .user crowdedKernel) = {0} := by
  have hspec : boosts crowdedKernel (.timer .user) ∧ crowdedKernel.cur ≠ none ∧
      (clockintr .mlfq crowdedKernel).procs[63]?.map (·.state) = some .runnable ∧
      (clockintr .mlfq crowdedKernel).procs[1]?.map (·.state) = some .runnable ∧
      inFront 1 (timerTrap .mlfq .user crowdedKernel) = {0} := by decide +kernel
  obtain ⟨hboost, hcur, hlast, hsecond, hfront⟩ := hspec
  exact ⟨hboost, step_timer_user hcur, Option.map_eq_some_iff.mp hlast,
    Option.map_eq_some_iff.mp hsecond, hfront⟩

theorem crowdedRun_spec : (∀ tr ∈ crowdedRun.1, ¬ boosts tr.source tr.event) ∧
    boosts crowdedRun.2 (.timer .user) ∧ charged crowdedRun.2 (.timer .user) ≠ none ∧
    (∀ tr ∈ crowdedRun.1, RunnableIn 63 0 tr.source ∧ RunnableIn 63 0 tr.target ∧
      ¬ dispatches 63 tr) ∧ crowdedRun.1.countP isIdleTick = 0 := by
  decide +kernel

/-- The last process of a full table is `RUNNABLE` from one boost to the next and never has the
CPU. -/
theorem starvation_run : Reachable (step .mlfq) (boot .mlfq) crowdedKernel ∧
    boosts crowdedKernel (.timer .user) ∧
    step .mlfq crowdedKernel (.timer .user) = some (timerTrap .mlfq .user crowdedKernel) ∧
    (∃ r, (clockintr .mlfq crowdedKernel).procs[63]? = some r ∧ r.state = .runnable) ∧
    Path (step .mlfq) (timerTrap .mlfq .user crowdedKernel) crowdedRun.1 crowdedRun.2 ∧
    (∀ tr ∈ crowdedRun.1, ¬ boosts tr.source tr.event) ∧ boosts crowdedRun.2 (.timer .user) ∧
    ∀ tr ∈ crowdedRun.1, RunnableIn 63 0 tr.source ∧ RunnableIn 63 0 tr.target ∧
      ¬ dispatches 63 tr := by
  obtain ⟨hboost, hstep, hlast, -, -⟩ := crowdedKernel_spec
  obtain ⟨hquiet, hboost', -, hnever, -⟩ := crowdedRun_spec
  exact ⟨reachable_crowdedKernel, hboost, hstep, hlast, path_crowdedRun, hquiet, hboost', hnever⟩

/-- The second process of the same table has only `init` in front of it, and is dispatched. -/
theorem dispatched_crowdedRun : ∃ tr ∈ crowdedRun.1, dispatches 1 tr := by
  obtain ⟨hboost, hstep, -, hsecond, hfront⟩ := crowdedKernel_spec
  obtain ⟨hquiet, hboost', hcharged, -, hidle⟩ := crowdedRun_spec
  refine dispatched_before_boost reachable_crowdedKernel hboost hstep hsecond path_crowdedRun
    hquiet hboost' ?_
  rw [hfront, hidle, if_neg hcharged]
  decide

end Irish.Xv6
