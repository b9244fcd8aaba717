import Irish.Xv6.SlotSteps

/-!
# The reported times on several CPUs

On several CPUs `ticks` counts the timer interrupts of CPU 0, and `rtime` those of whichever CPU
the process is on. A process that moves to another CPU within one tick may be charged there, or
charged again, before `ticks` has moved: `kwaitx` then reports a running time larger than the whole
life of the child (`rtime_exceeds_lifetime`), although every CPU takes one timer interrupt per tick.

The reported times add up in every run in which a process is charged only after CPU 0 has counted a
tick since it was created and since it was last charged (`metrics_of_chargesSettled`). `Account` is
the invariant: a live process has been charged at most once for each tick of its life, and at most
once less than that as long as a tick is waiting to be charged.
-/

set_option autoImplicit false

namespace Irish.Xv6

open Library

variable {n z : ℕ} {b : Scheduler} {m m' : Machine n} {e : SmpEvent n} {p p' pp : Proc}
  {l : List (Transition (Machine n) (SmpEvent n))} {why : Leave} {waiting : Bool} {c : Fin n}
  {metrics : Metrics}

/-! ### The clock -/

/-- The timer interrupts that `clockintr` counts. -/
def SmpEvent.isClock : SmpEvent n → Bool
  | .timer c => c.val = 0
  | _ => false

theorem ticks_runBody (b : Scheduler) (c : Fin n) (slot : ℕ) (p : Proc) (m : Machine n)
    (sec : Section) : (runBody b c slot p m sec).ticks = m.ticks := by
  have hstage (m₁ : Machine n) (stage : ForkStage) : (m₁.setStage c stage).ticks = m₁.ticks := by
    unfold Machine.setStage
    split <;> rfl
  cases sec with
  | alloc =>
    simp only [runBody]
    split_ifs
    · exact hstage _ _
    · rfl
    · rfl
  | publish => exact hstage _ _
  | look =>
    simp only [runBody, lookBody]
    split
    · split_ifs <;> rfl
    · rfl
  | choose =>
    simp only [runBody, chooseBody]
    split
    · split_ifs <;> rfl
    · rfl
  | leave =>
    simp only [runBody]
    split <;> rfl
  | _ => rfl

theorem ticks_smpStep (hstep : smpStep b m e = some m') :
    m'.ticks = if e.isClock then (m.ticks + 1) % uintSize else m.ticks := by
  cases moves_of_smpStep hstep with
  | body c slot sec p => exact ticks_runBody b c slot p m sec
  | timer => simp [SmpEvent.isClock, Machine.setCpu]
  | _ => rfl

/-! ### The stamps of a process -/

/-- The writes that leave the lifetime and the charges of a process alone. -/
structure KeepsTimes (p p' : Proc) : Prop where
  ctime : p'.ctime = p.ctime
  etime : p'.etime = p.etime
  rtime : p'.rtime = p.rtime
  unused : p'.state = .unused ↔ p.state = .unused
  zombie : p'.state = .zombie ↔ p.state = .zombie

/-- What a write is to the lifetime and the charges of a process. -/
inductive TimeWrite (m : Machine n) (e : SmpEvent n) (z : ℕ) (p p' : Proc) : Prop
  | keeps (h : KeepsTimes p p')
  | created (hunused : p.state = .unused) (hused : p'.state = .used) (hctime : p'.ctime = m.ticks)
      (hrtime : p'.rtime = 0)
  | freed (hfree : p'.state = .unused)
  | exited (hrunning : p.state = .running) (hzombie : p'.state = .zombie)
      (hctime : p'.ctime = p.ctime) (hetime : p'.etime = m.ticks) (hrtime : p'.rtime = p.rtime)
  | charged (hcharged : chargedSlot m e = some z) (hrunning : p.state = .running)
      (hstate : p'.state = .running) (hctime : p'.ctime = p.ctime)
      (hrtime : p'.rtime = (p.rtime + 1) % uintSize)

theorem Woken.keepsTimes (h : Woken p p') : KeepsTimes p p' := by
  refine ⟨h.ctime, h.etime, h.rtime, ?_, ?_⟩ <;>
    rcases h.state with hs | ⟨hs, hs'⟩ <;> simp_all

theorem timeWrite_chargeBody (preempted : Bool) (hcharged : chargedSlot m e = some z)
    (hrunning : p.state = .running) :
    TimeWrite m e z p (chargeBody b m.ticks preempted p m.seq).1 := by
  unfold chargeBody
  split
  · exact .charged hcharged hrunning hrunning rfl rfl
  · exact .charged hcharged hrunning hrunning rfl rfl
  · split_ifs <;> exact .charged hcharged hrunning hrunning rfl rfl

theorem timeWrite_leaveBody {b : Build} (hrunning : p.state = .running)
    (h : leaveBody b m.ticks why p = some p') : TimeWrite m e z p p' := by
  unfold leaveBody at h
  split at h
  · cases h
    exact .keeps (by constructor <;> simp [hrunning])
  · split_ifs at h
    cases b <;> cases h <;> exact .keeps (by constructor <;> simp [hrunning])
  · cases h
    exact .exited hrunning rfl rfl rfl rfl

theorem SlotWrite.times (h : SlotWrite b m e m' z p p') : TimeWrite m e z p p' := by
  cases h with
  | same | linked | flagged | prepared => exact .keeps ⟨rfl, rfl, rfl, Iff.rfl, Iff.rfl⟩
  | woken => exact .keeps (nudged_wakeupBody _ _ p _).keepsTimes
  | killed => exact .keeps (nudged_killBody _ _ p _).keepsTimes
  | created _ hunused hused hctime hrtime => exact .created hunused hused hctime hrtime
  | freed q => exact .freed (freeFields_spec _ q).1
  | published hused => exact .keeps (by constructor <;> simp [hused])
  | boosted => exact .keeps (nudged_boostBody p _).keepsTimes
  | dispatched hrunnable => exact .keeps (by constructor <;> simp [dispatchFields, hrunnable])
  | left _ _ hrunning hleave => exact timeWrite_leaveBody hrunning hleave
  | charged preempted hcharged hrunning => exact timeWrite_chargeBody preempted hcharged hrunning

/-! ### Ticks and charges -/

/-- Whether CPU 0 has counted a tick since the process in slot `z` was created and since it was last
charged, after one more transition. -/
def settledStep (z : ℕ) (settled : Bool) (tr : Transition (Machine n) (SmpEvent n)) : Bool :=
  if tr.target.stateOf z = some .unused then false
  else if tr.event.isClock then true
  else if chargedSlot tr.source tr.event = some z then false
  else settled

def settled (z : ℕ) (l : List (Transition (Machine n) (SmpEvent n))) : Bool :=
  l.foldl (settledStep z) false

theorem settled_append_singleton (z : ℕ) (l : List (Transition (Machine n) (SmpEvent n)))
    (tr : Transition (Machine n) (SmpEvent n)) :
    settled z (l ++ [tr]) = settledStep z (settled z l) tr := by
  simp [settled]

/-- No process is charged before CPU 0 has counted a tick since it was created and since it was last
charged. -/
def ChargesSettled (l : List (Transition (Machine n) (SmpEvent n))) : Prop :=
  ∀ i < l.length, ∀ tr ∈ l[i]?, ∀ z ∈ chargedSlot tr.source tr.event,
    settled z (l.take i) = true

instance (l : List (Transition (Machine n) (SmpEvent n))) : Decidable (ChargesSettled l) :=
  inferInstanceAs (Decidable (∀ i < l.length, ∀ tr ∈ l[i]?, ∀ z ∈ _, _ = true))

theorem ChargesSettled.left {l' : List (Transition (Machine n) (SmpEvent n))}
    (h : ChargesSettled (l ++ l')) : ChargesSettled l := by
  intro i hi tr htr z hz
  have hsettled := h i (by rw [List.length_append]; omega) tr
    (by rwa [List.getElem?_append_left hi]) z hz
  rwa [List.take_append_of_le_length hi.le] at hsettled

theorem ChargesSettled.last {tr : Transition (Machine n) (SmpEvent n)}
    (h : ChargesSettled (l ++ [tr]))
    (hcharged : chargedSlot tr.source tr.event = some z) : settled z l = true := by
  have hsettled := h l.length (by simp) tr (by simp) z hcharged
  rwa [List.take_left] at hsettled

/-- The charges of a process against the ticks of its life; `waiting` says that a tick of a live
process may still be charged. -/
structure Account (waiting : Bool) (now : ℕ) (p : Proc) : Prop where
  empty : p.state = .unused → waiting = false
  live : p.state ≠ .unused → p.state ≠ .zombie → p.ctime + p.rtime + waiting.toNat ≤ now
  exited : p.state = .zombie → p.ctime + p.rtime ≤ p.etime

theorem isClock_of_chargedSlot (h : chargedSlot m e = some z) : e.isClock = false := by
  cases e <;> first | rfl | cases h

/-- A tick comes to wait only when the clock moves. -/
theorem settledStep_le (z : ℕ) (waiting : Bool)
    (hnow : m'.ticks = if e.isClock then m.ticks + 1 else m.ticks) :
    m.ticks + (settledStep z waiting ⟨m, e, m'⟩).toNat ≤ m'.ticks + waiting.toNat := by
  rw [hnow]
  unfold settledStep
  dsimp only
  split_ifs <;> cases waiting <;> simp only [Bool.toNat_false, Bool.toNat_true] <;> omega

/-- One step of the account. `hnow` says that `ticks` does not wrap around. -/
theorem account_step (hwrite : TimeWrite m e z p p') (hp' : m'.procs[z]? = some p')
    (hnow : m'.ticks = if e.isClock then m.ticks + 1 else m.ticks)
    (hsettled : chargedSlot m e = some z → waiting = true) (h : Account waiting m.ticks p) :
    Account (settledStep z waiting ⟨m, e, m'⟩) m'.ticks p' := by
  have hmoves := settledStep_le z waiting hnow
  have hempty : p'.state = .unused → settledStep z waiting ⟨m, e, m'⟩ = false := by
    intro hunused
    simp [settledStep, Machine.stateOf, hp', hunused]
  cases hwrite with
  | keeps hkeeps =>
    refine ⟨hempty, fun hunused hzombie ↦ ?_, fun hzombie ↦ ?_⟩
    · have hlive := h.live (mt hkeeps.unused.mpr hunused) (mt hkeeps.zombie.mpr hzombie)
      rw [hkeeps.ctime, hkeeps.rtime]
      omega
    · rw [hkeeps.ctime, hkeeps.rtime, hkeeps.etime]
      exact h.exited (hkeeps.zombie.mp hzombie)
  | created hunused hused hctime hrtime =>
    refine ⟨hempty, fun _ _ ↦ ?_, by simp [hused]⟩
    rw [hctime, hrtime]
    rw [h.empty hunused] at hmoves ⊢
    exact hmoves
  | freed hfree => exact ⟨hempty, by simp [hfree], by simp [hfree]⟩
  | exited hrunning hzombie hctime hetime hrtime =>
    refine ⟨hempty, by simp [hzombie], fun _ ↦ ?_⟩
    have hlive := h.live (by simp [hrunning]) (by simp [hrunning])
    rw [hctime, hrtime, hetime]
    omega
  | charged hcharged hrunning hstate hctime hrtime =>
    refine ⟨hempty, fun _ _ ↦ ?_, by simp [hstate]⟩
    have hlive := h.live (by simp [hrunning]) (by simp [hrunning])
    have hclock := isClock_of_chargedSlot hcharged
    have hmod := Nat.mod_le (p.rtime + 1) uintSize
    -- The tick that was waiting is the one that is charged.
    have hnone : settledStep z waiting ⟨m, e, m'⟩ = false := by
      simp [settledStep, hclock, hcharged]
    rw [hsettled hcharged, Bool.toNat_true] at hlive
    rw [hnone, hnow, hclock, hctime, hrtime, Bool.toNat_false]
    simp only [Bool.false_eq_true, ↓reduceIte]
    omega

/-- The clock counts the timer interrupts of CPU 0, and the charges of every process fit into its
life. -/
theorem accounts_of_path (hpath : Path (smpStep b) (smpBoot b n) l m) :
    l.countP (·.event.isClock) < 0x100000000 → ChargesSettled l →
      m.ticks = l.countP (·.event.isClock) ∧
      ∀ z p, m.procs[z]? = some p → Account (settled z l) m.ticks p := by
  refine hpath.history_rule (J := fun l m ↦ l.countP (·.event.isClock) < 0x100000000 →
    ChargesSettled l → m.ticks = l.countP (·.event.isClock) ∧
      ∀ z p, m.procs[z]? = some p → Account (settled z l) m.ticks p) ?_ ?_
  · have hboot : ∀ q ∈ (boot b.build).procs, q.state = .unused ∨
        q.state = .runnable ∧ q.ctime = 0 ∧ q.rtime = 0 := by
      cases b <;> decide +kernel
    have hzero : (smpBoot b n).ticks = 0 := by cases b <;> rfl
    refine fun _ _ ↦ ⟨hzero, fun z p hp ↦ ?_⟩
    rcases hboot p (List.mem_of_getElem? hp) with hunused | ⟨hstate, hctime, hrtime⟩
    · exact ⟨fun _ ↦ rfl, by simp [hunused], by simp [hunused]⟩
    · exact ⟨fun _ ↦ rfl, by simp [hctime, hrtime, settled], by simp [hstate]⟩
  · intro l m e m' hl hstep ih hcount hsettled
    rw [List.countP_append, List.countP_singleton] at hcount ⊢
    obtain ⟨hticks, haccounts⟩ := ih (by omega) hsettled.left
    have hnow : m'.ticks = if e.isClock then m.ticks + 1 else m.ticks := by
      rw [ticks_smpStep hstep]
      split_ifs with hclock
      · refine Nat.mod_eq_of_lt ?_
        simp only [hclock, if_true] at hcount
        unfold uintSize
        omega
      · rfl
    refine ⟨?_, fun z p' hp' ↦ ?_⟩
    · rw [hnow, hticks]
      split_ifs <;> rfl
    · obtain ⟨p, hp, hwrite⟩ := slotWrite_step (dispatched_reachable ⟨l, hl⟩) hstep hp'
      rw [settled_append_singleton]
      exact account_step hwrite.times hp' hnow (fun hcharged ↦ hsettled.last hcharged)
        (haccounts z p hp)

/-! ### What `kwaitx` reports -/

/-- The child that a CPU reaps with its next operation, and what it reports. -/
def Machine.reaps (b : Scheduler) (m : Machine n) (c : Fin n) : Option (Proc × Metrics) :=
  match (m.cpus c).held with
  | some (z, .body (.reap copy)) => m.procs[z]?.bind fun pp ↦
      (reapBody b.build copy (m.cpus c).proc pp).1.map fun metrics ↦ (pp, metrics)
  | _ => none

theorem reaps_eq_some (h : m.reaps b c = some (pp, metrics)) :
    ∃ z : ℕ, m.procs[z]? = some pp ∧ pp.state = .zombie ∧ metrics = metricsOf pp := by
  unfold Machine.reaps at h
  split at h
  · rename_i z copy _
    obtain ⟨q, hq, hmap⟩ := Option.bind_eq_some_iff.mp h
    obtain ⟨r, hr, ⟨⟩⟩ := Option.map_eq_some_iff.mp hmap
    unfold reapBody at hr
    split_ifs at hr with hzombie
    cases hr
    exact ⟨z, hq, hzombie.2.1, rfl⟩
  · cases h

/-- Running and waiting add up to the time from creation to exit if the running time fits. -/
theorem metricsOf_of_le (h : pp.ctime + pp.rtime ≤ pp.etime) :
    (metricsOf pp).rtime ≤ pp.etime - pp.ctime ∧
      (metricsOf pp).wtime + (metricsOf pp).rtime = pp.etime - pp.ctime := by
  have hlife : pp.ctime ≤ pp.etime := by omega
  simp only [metricsOf, ge_iff_le, hlife, if_true]
  refine ⟨by omega, ?_⟩
  split_ifs <;> omega

/-- A child that is reaped has been charged no more than its lifetime, in every run in which
processes are charged only for a tick that CPU 0 has counted in the meantime. -/
theorem metrics_of_chargesSettled {m : Machine n} {l : List (Transition (Machine n) (SmpEvent n))}
    (hpath : Path (smpStep .roundRobin) (smpBoot .roundRobin n) l m)
    (hticks : l.countP (·.event.isClock) < 0x100000000) (hsettled : ChargesSettled l)
    {c : Fin n} {pp : Proc} {metrics : Metrics}
    (hreaps : m.reaps .roundRobin c = some (pp, metrics)) :
    pp.ctime ≤ pp.etime ∧ metrics.rtime = pp.rtime ∧ metrics.rtime ≤ pp.etime - pp.ctime ∧
      metrics.wtime + metrics.rtime = pp.etime - pp.ctime := by
  obtain ⟨z, hpp, hzombie, rfl⟩ := reaps_eq_some hreaps
  have hexited := ((accounts_of_path hpath hticks hsettled).2 z pp hpp).exited hzombie
  obtain ⟨hrtime, hsum⟩ := metricsOf_of_le hexited
  exact ⟨by omega, rfl, hrtime, hsum⟩

/-- A CPU looks at a process under its lock and releases it. -/
def lookPast (c : Fin n) (slot : ℕ) : List (SmpEvent n) :=
  [.acquire c .look slot, .advance c, .advance c]

/-- A CPU looks at a process and switches to it. -/
def lookRun (c : Fin n) (slot : ℕ) : List (SmpEvent n) :=
  [.acquire c .look slot, .advance c, .advance c, .advance c]

/-- The process on a CPU goes back to the scheduler. -/
def leaveFor (c : Fin n) (slot : ℕ) (why : Leave) : List (SmpEvent n) :=
  [.acquire c (.leave why) slot, .advance c, .advance c, .advance c]

/-- The CPU of the clock takes its timer interrupt while it is idle. -/
def idleTick (clock : Fin n) : List (SmpEvent n) := [.timer clock, .charge clock .kernel false]

/-- The CPU of the clock is idle and CPU `c` runs the first process. After a tick the first process
forks and CPU `d` takes the child. -/
def forkAndMigrate (clock c d : Fin n) : List (SmpEvent n) :=
  [.start c] ++ lookRun c 0 ++ idleTick clock ++
  [.acquire c (.alloc ⟨true, true, true⟩) 1, .advance c, .advance c, .forkLink c,
    .acquire c .publish 1, .advance c, .advance c] ++ [.start d] ++ lookPast d 0 ++ lookRun d 1

/-- CPU `d` charges the child at its timer interrupt and yields; CPU `c` takes its timer interrupt
and then the child, which exits. Then the CPU of the clock counts a tick, and the first process
reaps the child on it. -/
def exitAndReap (clock c d : Fin n) : List (SmpEvent n) :=
  [.timer d, .charge d .user false] ++ leaveFor d 1 .yield ++
  [.timer c, .charge c .user false] ++ leaveFor c 0 .yield ++ lookRun c 1 ++
  leaveFor c 1 (.exit 0) ++ idleTick clock ++ [.start clock] ++ lookRun clock 0 ++
  [.acquire clock (.reap ⟨true, true, true, true⟩) 1]

/-- A tick passes before CPU `d` charges the child. -/
def settledRun (clock c d : Fin 3) : List (Transition (Machine 3) (SmpEvent 3)) × Machine 3 :=
  replay (smpStep .roundRobin) (smpBoot .roundRobin 3)
    (forkAndMigrate clock c d ++ idleTick clock ++ exitAndReap clock c d)

theorem metrics_of_chargesSettled_settledRun :
    ChargesSettled (settledRun 0 1 2).1 ∧ ∃ pp metrics,
      (settledRun 0 1 2).2.reaps .roundRobin 0 = some (pp, metrics) ∧ metrics.rtime = 1 ∧
      metrics.rtime ≤ pp.etime - pp.ctime ∧
      metrics.wtime + metrics.rtime = pp.etime - pp.ctime := by
  have hpath : Path (smpStep .roundRobin) (smpBoot .roundRobin 3) (settledRun 0 1 2).1
      (settledRun 0 1 2).2 := path_replay _ _
  have hsettled : ChargesSettled (settledRun 0 1 2).1 := by decide +kernel
  have hticks : (settledRun 0 1 2).1.countP (·.event.isClock) < 0x100000000 := by decide +kernel
  have hone : ((settledRun 0 1 2).2.reaps .roundRobin 0).map (·.2.rtime) = some 1 := by
    decide +kernel
  obtain ⟨⟨pp, metrics⟩, hreaps, hrtime_one⟩ := Option.map_eq_some_iff.mp hone
  obtain ⟨-, -, hrtime, hsum⟩ := metrics_of_chargesSettled hpath hticks hsettled hreaps
  exact ⟨hsettled, pp, metrics, hreaps, hrtime_one, hrtime, hsum⟩

/-- Every other CPU takes exactly one timer interrupt between two consecutive ones of the CPU of the
clock. -/
def EvenTimers (clock : Fin n) (events : List (SmpEvent n)) : Prop :=
  ∀ between ∈ (events.splitOnP (· = .timer clock)).tail.dropLast, ∀ c, c ≠ clock →
    between.count (.timer c) = 1

instance (clock : Fin n) (events : List (SmpEvent n)) : Decidable (EvenTimers clock events) :=
  inferInstanceAs (Decidable (∀ _ ∈ _, _))

def migratingRun (clock c d : Fin 3) : List (Transition (Machine 3) (SmpEvent 3)) × Machine 3 :=
  replay (smpStep .roundRobin) (smpBoot .roundRobin 3)
    (forkAndMigrate clock c d ++ exitAndReap clock c d)

/-- The child is created and exits within one tick, and is charged by CPU 2 in between. -/
theorem rtime_exceeds_lifetime :
    Path (smpStep .roundRobin) (smpBoot .roundRobin 3) (migratingRun 0 1 2).1
      (migratingRun 0 1 2).2 ∧
    EvenTimers 0 ((migratingRun 0 1 2).1.map (·.event)) ∧
    ((migratingRun 0 1 2).1.map (·.event)).count (.timer 0) = 2 ∧
    ∃ pp metrics, (migratingRun 0 1 2).2.reaps .roundRobin 0 = some (pp, metrics) ∧
      pp.ctime = 1 ∧ pp.etime = 1 ∧ metrics.rtime = 1 ∧
      pp.etime - pp.ctime < metrics.rtime ∧
      metrics.wtime + metrics.rtime ≠ pp.etime - pp.ctime := by
  have hreaps : ((migratingRun 0 1 2).2.reaps .roundRobin 0).map
      (fun r ↦ (r.1.ctime, r.1.etime, r.2.rtime)) = some (1, 1, 1) := by
    decide +kernel
  obtain ⟨⟨pp, metrics⟩, hr, hfields⟩ := Option.map_eq_some_iff.mp hreaps
  simp only [Prod.mk.injEq] at hfields
  obtain ⟨hctime, hetime, hrtime⟩ := hfields
  exact ⟨path_replay _ _, by decide +kernel, by decide +kernel, pp, metrics, hr, hctime, hetime,
    hrtime, by omega, by omega⟩

end Irish.Xv6
