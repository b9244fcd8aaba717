import Irish.Xv6.Selection

/-!
# How a process moves between the queues

Which events of the MLFQ build write `mlfq_queue` and `mlfq_enter_seq` of a live process, and what
they write. Most sections neither charge a tick nor boost; `Keeps` is what they all do to the live
processes of the table, and it composes. The timer interrupt is the exception, and `queueAfter` says
what comes out of it.

A process that is preempted before its slice is used up keeps its sequence number. That this puts
it ahead of its queue is a fact about the past: it was the head when it was dispatched, and whoever
entered the queue since has drawn a later number. `RunsFirst` of the abstract queue is the invariant
that says so.
-/

set_option autoImplicit false

namespace Irish.Xv6

open Library Library.FeedbackQueue

/-! ### Sections that do not move processes -/

/-- The processes that `mlfq_boost` takes. -/
def Proc.Live (p : Proc) : Prop := p.state ≠ .unused ∧ p.state ≠ .zombie

/-- The process stays live and in its queue, with its old sequence number or one drawn later than
`seq`. -/
structure Stays (seq : ℕ) (p p' : Proc) : Prop where
  live : p'.Live
  queue : p'.mlfqQueue = p.mlfqQueue
  number : p'.mlfqEnterSeq = p.mlfqEnterSeq ∨ seq < p'.mlfqEnterSeq

structure Keeps (procs : List Proc) (seq : ℕ) (procs' : List Proc) (seq' : ℕ) : Prop where
  counter : seq ≤ seq'
  stays : ∀ (i : ℕ) (p : Proc), procs[i]? = some p → p.Live →
    ∃ p', procs'[i]? = some p' ∧ Stays seq p p'

/-- The two kernels differ by a section that moves no live process. -/
abbrev KeepsQueues (k k' : Kernel) : Prop :=
  Keeps k.procs k.mlfqGlobalSeq k'.procs k'.mlfqGlobalSeq

theorem Keeps.refl (procs : List Proc) (seq : ℕ) : Keeps procs seq procs seq :=
  ⟨Nat.le_refl seq, fun _ p hp hlive ↦ ⟨p, hp, hlive, rfl, .inl rfl⟩⟩

variable {procs₁ procs₂ procs₃ procs : List Proc} {seq₁ seq₂ seq₃ i seq z j : ℕ} {p p' q : Proc}
  {k k' : Kernel} {f : Proc → Proc} {e : Event} {mode : Mode} {copyout : Bool} {s t : State ℕ}
  {l : List (Transition (State ℕ) (Action ℕ))}

theorem Keeps.trans (h : Keeps procs₁ seq₁ procs₂ seq₂) (h' : Keeps procs₂ seq₂ procs₃ seq₃) :
    Keeps procs₁ seq₁ procs₃ seq₃ := by
  refine ⟨h.counter.trans h'.counter, fun i p hp hlive ↦ ?_⟩
  obtain ⟨q, hq, hstays⟩ := h.stays i p hp hlive
  obtain ⟨r, hr, hstays'⟩ := h'.stays i q hq hstays.live
  refine ⟨r, hr, hstays'.live, hstays'.queue.trans hstays.queue, ?_⟩
  rcases hstays'.number with hsame | hlater
  · rw [hsame]
    exact hstays.number
  · exact .inr (Nat.lt_of_le_of_lt h.counter hlater)

theorem Keeps.set {procs : List Proc} {seq' : ℕ} (hp : procs[i]? = some p) (hle : seq ≤ seq')
    (hstays : p.Live → Stays seq p p') : Keeps procs seq (procs.set i p') seq' := by
  refine ⟨hle, fun j q hq hlive ↦ ?_⟩
  rcases eq_or_ne j i with rfl | hji
  · cases hp.symm.trans hq
    exact ⟨p', getElem?_set_eq hp, hstays hlive⟩
  · exact ⟨q, by rw [List.getElem?_set_ne (Ne.symm hji), hq], hlive, rfl, .inl rfl⟩

theorem Keeps.modify (hstays : ∀ p, p.Live → Stays seq p (f p)) (procs : List Proc)
    (i : ℕ) : Keeps procs seq (procs.modify i f) seq := by
  cases hp : procs[i]? with
  | none =>
    rw [List.modify_eq_self (List.getElem?_eq_none_iff.mp hp)]
    exact Keeps.refl _ _
  | some p =>
    rw [modify_eq_set hp]
    exact Keeps.set hp le_rfl (hstays p)

/-- A write to fields that scheduling does not look at. -/
theorem stays_of_same (hlive : p.Live) (hstate : p'.state = p.state)
    (hqueue : p'.mlfqQueue = p.mlfqQueue) (hseq : p'.mlfqEnterSeq = p.mlfqEnterSeq) :
    Stays seq p p' :=
  ⟨by rwa [Proc.Live, hstate], hqueue, .inl hseq⟩

theorem keeps_modify_same (hsame : ∀ p, (f p).state = p.state ∧ (f p).mlfqQueue = p.mlfqQueue ∧
      (f p).mlfqEnterSeq = p.mlfqEnterSeq) (k : Kernel) (i : ℕ) : KeepsQueues k (k.modify i f) :=
  Keeps.modify (fun p hlive ↦ stays_of_same hlive (hsame p).1 (hsame p).2.1 (hsame p).2.2) _ _

/-- A write of a state in which the process is live. -/
theorem keeps_modify_live (hlive : ∀ p, (f p).Live)
    (hsame : ∀ p, (f p).mlfqQueue = p.mlfqQueue ∧ (f p).mlfqEnterSeq = p.mlfqEnterSeq) (k : Kernel)
    (i : ℕ) : KeepsQueues k (k.modify i f) :=
  Keeps.modify (fun p _ ↦ ⟨hlive p, (hsame p).1, .inl (hsame p).2⟩) _ _

theorem keeps_wakeup (chan : Option Chan) (k : Kernel) : KeepsQueues k (wakeup .mlfq chan k) := by
  refine sweep_rule (P := Keeps k.procs k.mlfqGlobalSeq) ?_ (Keeps.refl _ _)
  intro procs i p seq hp hkeeps
  refine hkeeps.trans (Keeps.set hp ?_ fun hlive ↦ ?_)
  · unfold wakeupBody stampProc
    split_ifs <;> simp
  · unfold wakeupBody
    split_ifs
    · exact ⟨⟨by simp [stampProc], by simp [stampProc]⟩, rfl, .inr (Nat.lt_succ_self seq)⟩
    · exact stays_of_same hlive rfl rfl rfl
    · exact stays_of_same hlive rfl rfl rfl

theorem keeps_kkill (pid : ℤ) (k : Kernel) : KeepsQueues k (kkill .mlfq pid k) := by
  unfold kkill
  split
  · exact Keeps.refl _ _
  · split
    · exact Keeps.refl _ _
    · rename_i i _ _ p hp
      split_ifs
      · simp only [KeepsQueues, Kernel.stamp, procs_modify, seq_modify, modify_eq_set hp,
          modify_set_self]
        refine Keeps.set hp (Nat.le_succ _) fun _ ↦ ?_
        exact ⟨⟨by simp, by simp⟩, rfl, .inr (Nat.lt_succ_self _)⟩
      · exact keeps_modify_same (by simp) _ _

theorem keeps_sleep : KeepsQueues k (sleep .mlfq i p k) := by
  unfold sleep
  split_ifs
  · exact keeps_modify_live (by simp [Proc.Live]) (by simp) _ _
  · exact Keeps.refl _ _

theorem keeps_kexitNotify (i : ℕ) (k : Kernel) : KeepsQueues k (kexitNotify .mlfq i k) := by
  have hreparent : KeepsQueues k (reparent .mlfq i k) := by
    unfold reparent
    generalize List.range k.procs.length = slots
    induction slots generalizing k with
    | nil => exact Keeps.refl _ _
    | cons pp _ ih =>
      refine Keeps.trans ?_ (ih (reparentBody .mlfq i k pp))
      unfold reparentBody
      split
      · exact Keeps.refl _ _
      · split_ifs
        · have hlink : KeepsQueues k (k.modify pp fun q ↦ { q with parent := some k.initproc }) :=
            keeps_modify_same (by simp) _ _
          exact hlink.trans (keeps_wakeup _ _)
        · exact Keeps.refl _ _
  exact hreparent.trans (keeps_wakeup _ _)

theorem keeps_kwait : KeepsQueues k (kwait .mlfq copyout i p k) := by
  unfold kwait
  split
  · -- Only a process that has exited is freed.
    rename_i z hz
    obtain ⟨q, hq, hzombie⟩ := getElem?_of_findIdx? hz
    simp only [decide_eq_true_eq] at hzombie
    split_ifs
    · simp only [KeepsQueues, freeproc, procs_modify, seq_modify, modify_eq_set hq,
        modify_set_self]
      exact Keeps.set hq le_rfl fun hlive ↦ absurd hzombie.2 hlive.2
    · exact Keeps.refl _ _
  · split_ifs
    · exact Keeps.refl _ _
    · exact keeps_modify_same (by simp) _ _

/-- The slot that a `kfork` takes, and gives back if the copy of the memory fails, was not in
use. -/
theorem ForkAlloc.keeps {k' : Kernel} (halloc : ForkAlloc .mlfq i k k') : KeepsQueues k k' := by
  have htake {np seq : ℕ} {q q' : Proc} (hq : k.procs[np]? = some q) (hfree : q.state = .unused)
      (hle : k.mlfqGlobalSeq ≤ seq) : KeepsQueues k (k.take np q' seq) :=
    Keeps.set hq hle fun hlive ↦ absurd hfree hlive.1
  cases halloc with
  | full => exact Keeps.refl _ _
  | failed np q hq hfree => exact htake hq hfree le_rfl
  | copyFailed np seq q q' hq hfree hfresh =>
    obtain ⟨rfl, -⟩ := hfresh.mlfq rfl
    simp only [KeepsQueues, freeproc, Kernel.take, procs_modify, seq_modify, modify_set_self]
    exact htake hq hfree (Nat.le_succ _)
  | forked np seq q q' _ hq hfree hfresh =>
    obtain ⟨rfl, -⟩ := hfresh.mlfq rfl
    exact (htake hq hfree (Nat.le_succ _)).trans (keeps_modify_same (by simp) _ _)

theorem keeps_kforkLink (i np : ℕ) (k : Kernel) : KeepsQueues k (kforkLink i np k) := by
  have hlink : KeepsQueues k (k.modify np fun q ↦ { q with parent := some i }) :=
    keeps_modify_same (by simp) _ _
  exact hlink.trans (keeps_modify_same (by simp) _ _)

theorem keeps_kforkRunnable (i np : ℕ) (k : Kernel) : KeepsQueues k (kforkRunnable i np k) := by
  have hpublish : KeepsQueues k (k.modify np fun q ↦ { q with state := .runnable }) :=
    keeps_modify_live (by simp [Proc.Live]) (by simp) _ _
  exact hpublish.trans (keeps_modify_same (by simp) _ _)

theorem keeps_switchTo (i : ℕ) (k : Kernel) : KeepsQueues k (switchTo i k) :=
  keeps_modify_live (by simp [Proc.Live]) (by simp) _ _

/-- What an event that is no timer interrupt does to a live process: it stays in its queue. An exit
ends its life. -/
theorem stays_of_not_timer (hstep : step .mlfq k e = some k') (he : ∀ mode, e ≠ .timer mode)
    (hp : k.procs[z]? = some p) (hlive : p.Live) :
    ∃ p', k'.procs[z]? = some p' ∧ p'.mlfqQueue = p.mlfqQueue ∧
      (p'.mlfqEnterSeq = p.mlfqEnterSeq ∨ k.mlfqGlobalSeq < p'.mlfqEnterSeq) := by
  have hkeeps (h : KeepsQueues k k') : ∃ p', k'.procs[z]? = some p' ∧
      p'.mlfqQueue = p.mlfqQueue ∧
      (p'.mlfqEnterSeq = p.mlfqEnterSeq ∨ k.mlfqGlobalSeq < p'.mlfqEnterSeq) := by
    obtain ⟨p', hp', hstays⟩ := h.stays z p hp hlive
    exact ⟨p', hp', hstays.queue, hstays.number⟩
  rcases step_cases hstep with ⟨mode, rfl, -, rfl⟩ | ⟨chan, rfl, rfl⟩ |
    ⟨rfl, hcur, ⟨-, rfl⟩ | ⟨i, hpick, rfl⟩⟩ | ⟨i, r, hcur, hr, hproc⟩
  · exact absurd rfl (he mode)
  · exact hkeeps (keeps_wakeup _ k)
  · exact hkeeps (Keeps.refl _ _)
  · exact hkeeps (keeps_switchTo i k)
  · cases procStep_cases hproc with
    | forkAlloc mem => exact hkeeps (kforkAlloc_cases .mlfq mem i k).keeps
    | forkLink np => exact hkeeps (keeps_kforkLink i np k)
    | forkRunnable np => exact hkeeps (keeps_kforkRunnable i np k)
    | sleepPrepare | setkilled => exact hkeeps (keeps_modify_same (by simp) _ _)
    | sleep => exact hkeeps keeps_sleep
    | kill pid => exact hkeeps (keeps_kkill pid k)
    | wait => exact hkeeps keeps_kwait
    | exit =>
      obtain ⟨q, hq, hstays⟩ := (keeps_kexitNotify i k).stays z p hp hlive
      simp only [kexit, procs_modify, List.getElem?_modify, hq]
      refine ⟨_, rfl, ?_, ?_⟩
      · split_ifs <;> exact hstays.queue
      · split_ifs <;> exact hstays.number

/-! ### The timer interrupt -/

/-- The queue of a process when the tick of an event is charged. A boost comes first. -/
def queueAtCharge (k : Kernel) (e : Event) (p : Proc) : ℕ :=
  if boosts k e then 0 else p.mlfqQueue

def ticksAtCharge (k : Kernel) (e : Event) (p : Proc) : ℕ :=
  if boosts k e then 0 else p.mlfqTicksUsed

/-- The event charges a tick to the process in slot `i`, which reaches the slice of its queue. -/
def Expires (k : Kernel) (e : Event) (i : ℕ) (p : Proc) : Prop :=
  charged k e = some i ∧ mlfqTimeslice (queueAtCharge k e p) ≤ ticksAtCharge k e p + 1

instance (k : Kernel) (e : Event) (i : ℕ) (p : Proc) : Decidable (Expires k e i p) :=
  inferInstanceAs (Decidable (_ ∧ _))

/-- The queue of the process in slot `i` after an event. -/
def queueAfter (k : Kernel) (e : Event) (i : ℕ) (p : Proc) : ℕ :=
  if Expires k e i p then min (queueAtCharge k e p + 1) 3 else queueAtCharge k e p

theorem queueAfter_of_not_timer (he : ∀ mode, e ≠ .timer mode) (i : ℕ)
    (p : Proc) : queueAfter k e i p = p.mlfqQueue := by
  have hboost : ¬ boosts k e := fun h ↦ by
    cases e with
    | timer mode => exact he mode rfl
    | _ => cases h.1
  have hcharged : charged k e = none := by
    cases e with
    | timer mode => exact absurd rfl (he mode)
    | _ => rfl
  simp [queueAfter, Expires, queueAtCharge, hboost, hcharged]

/-- What `clockintr` makes of a live process, before the tick is charged. -/
theorem live_clockintr (mode : Mode) (hp : k.procs[i]? = some p)
    (hlive : p.Live) : ∃ p', (clockintr .mlfq k).procs[i]? = some p' ∧ p'.Live ∧
      p'.mlfqQueue = queueAtCharge k (.timer mode) p ∧
      p'.mlfqTicksUsed = ticksAtCharge k (.timer mode) p ∧
      (¬ boosts k (.timer mode) → k.mlfqGlobalSeq ≤ (clockintr .mlfq k).mlfqGlobalSeq ∧
        (p'.mlfqEnterSeq = p.mlfqEnterSeq ∨ k.mlfqGlobalSeq < p'.mlfqEnterSeq) ∧
        (p.state = .running → p'.mlfqEnterSeq = p.mlfqEnterSeq)) := by
  have hkeeps := keeps_wakeup (some .ticks) { k with ticks := (k.ticks + 1) % uintSize }
  obtain ⟨q, hq, hstays⟩ := hkeeps.stays i p hp hlive
  obtain ⟨q', hq', -, -, hticks, hawake⟩ := getElem?_wakeup (some .ticks)
    (k := { k with ticks := (k.ticks + 1) % uintSize }) hp
  cases hq.symm.trans hq'
  by_cases hboost : boosts k (.timer mode)
  · have heq : clockintr .mlfq k =
        mlfqBoost (wakeup .mlfq (some .ticks) { k with ticks := (k.ticks + 1) % uintSize }) :=
      if_pos hboost.2
    obtain ⟨r, hr, -, hstate, hfields⟩ := getElem?_mlfqBoost hq
    obtain ⟨hzero, hused⟩ := hfields hstays.live.1 hstays.live.2
    refine ⟨r, heq ▸ hr, ?_, ?_, ?_, fun hno ↦ absurd hboost hno⟩
    · rw [Proc.Live, hstate]
      exact hstays.live
    · rw [queueAtCharge, if_pos hboost, hzero]
    · rw [ticksAtCharge, if_pos hboost, hused]
  · have heq : clockintr .mlfq k =
        wakeup .mlfq (some .ticks) { k with ticks := (k.ticks + 1) % uintSize } :=
      if_neg fun hperiod ↦ hboost ⟨rfl, hperiod⟩
    rw [heq, queueAtCharge, if_neg hboost, ticksAtCharge, if_neg hboost]
    refine ⟨q, hq, hstays.live, hstays.queue, hticks, fun _ ↦ ⟨hkeeps.counter, hstays.number, ?_⟩⟩
    exact fun hrun ↦ (hawake (by simp [hrun])).2

/-- What the handler makes of the process that the tick is charged to. -/
theorem set_chargeTick (hcharged : charged k (.timer mode) = some i) (hp : k.procs[i]? = some p)
    (hqueue : p.mlfqQueue ≤ 3) :
    ∃ p', (chargeTick .mlfq mode k).procs = k.procs.set i p' ∧
      (mlfqTimeslice p.mlfqQueue ≤ p.mlfqTicksUsed + 1 →
        p'.mlfqQueue = min (p.mlfqQueue + 1) 3 ∧ p'.mlfqEnterSeq = k.mlfqGlobalSeq + 1) ∧
      (¬ mlfqTimeslice p.mlfqQueue ≤ p.mlfqTicksUsed + 1 →
        p'.mlfqQueue = p.mlfqQueue ∧ p'.mlfqEnterSeq = p.mlfqEnterSeq ∧
        p'.mlfqTicksUsed = p.mlfqTicksUsed + 1 ∧
        ((chargeTick .mlfq mode k).cur = none → p'.state = .runnable)) := by
  rw [chargeTick_of_charged hcharged hp]
  by_cases hexpire : mlfqTimeslice p.mlfqQueue ≤ p.mlfqTicksUsed + 1
  · refine ⟨{ expireFields (chargeFields p) with
      mlfqEnterSeq := k.mlfqGlobalSeq + 1, state := .runnable }, ?_, fun _ ↦ ⟨?_, rfl⟩,
      fun hno ↦ absurd hexpire hno⟩
    · simp [mlfqTickHandler, hexpire, yield, Kernel.stamp, modify_eq_set hp]
    · show (if p.mlfqQueue < 3 then p.mlfqQueue + 1 else p.mlfqQueue) = min (p.mlfqQueue + 1) 3
      split_ifs <;> omega
  · have htick : (mlfqTickHandler i p k).2 = k.modify i chargeFields := by
      simp [mlfqTickHandler, hexpire]
    rw [htick]
    split_ifs
    · refine ⟨{ chargeFields p with state := .runnable }, ?_, fun hyes ↦ absurd hyes hexpire,
        fun _ ↦ ⟨rfl, rfl, rfl, fun _ ↦ rfl⟩⟩
      simp [yield, modify_eq_set hp]
    · refine ⟨chargeFields p, ?_, fun hyes ↦ absurd hyes hexpire,
        fun _ ↦ ⟨rfl, rfl, rfl, fun hcur ↦ ?_⟩⟩
      · simp [modify_eq_set hp]
      · rw [show (k.modify i chargeFields).cur = k.cur from rfl, cur_of_charged hcharged] at hcur
        cases hcur

/-! ### Ahead of the queue -/

theorem runsFirst_boot : RunsFirst (view (boot .mlfq)) := by
  -- The first process is the only one, and it does not run yet.
  have hready : ∀ p ∈ (boot .mlfq).procs, p.state ≠ .used ∧ p.state ≠ .running := by
    decide +kernel
  constructor
  · intro i hi
    obtain ⟨p, hp⟩ := exists_of_phase hi (by simp)
    rw [view, entry_viewOf hp, phase_entryOf] at hi
    have hused : p.state = .used := by
      cases hs : p.state <;> simp_all [phaseOf]
    exact absurd hused (hready p (List.mem_of_getElem? hp)).1
  · intro i j hi
    obtain ⟨p, hp⟩ := exists_of_phase hi (by simp)
    rw [view, entry_viewOf hp, phase_entryOf, phaseOf_eq_running] at hi
    exact absurd hi (hready p (List.mem_of_getElem? hp)).2

/-- The two invariants of the abstract queue, along one of its runs. -/
theorem valid_runsFirst_path (hpath : Path mlfqAct s l t)
    (hs : Valid mlfqTimeslice 3 s ∧ RunsFirst s) : Valid mlfqTimeslice 3 t ∧ RunsFirst t :=
  hpath.preserves (I := fun s ↦ Valid mlfqTimeslice 3 s ∧ RunsFirst s)
    (fun _ _ _ hact hs ↦ ⟨hs.1.act (fun _ ↦ mlfqTimeslice_pos) hact, hs.2.act hs.1 hact⟩) hs

theorem runsFirst_reachable (h : Reachable (step .mlfq) (boot .mlfq) k) : RunsFirst (view k) := by
  have hall := h.invariant
    (I := fun k ↦ Control k.procs k.cur ∧ Valid mlfqTimeslice 3 (view k) ∧ RunsFirst (view k))
    ⟨control_boot .mlfq, valid_boot, runsFirst_boot⟩
    fun _ _ _ hstep hk ↦ by
      obtain ⟨l, hrefines⟩ := refines_step hstep hk.1
      exact ⟨control_step hstep hk.1, valid_runsFirst_path hrefines.path hk.2⟩
  exact hall.2.2

/-- A process that a tick neither expires nor leaves on the CPU was preempted. It goes back to the
head of its queue. -/
theorem ahead_of_preempted (hcontrol : Control k.procs k.cur) (hfirst : RunsFirst (view k))
    (hcharged : charged k (.timer mode) = some i) (hp : k.procs[i]? = some p)
    (hqueue : p.mlfqQueue ≠ 0) (hprocs : procs = k.procs.set i p') (hq : procs[j]? = some q)
    (hji : j ≠ i) (hready : q.state = .runnable) (hsame : q.mlfqQueue = p.mlfqQueue) :
    p.mlfqEnterSeq < q.mlfqEnterSeq := by
  have hrun : p.state = .running := (hcontrol.running i p hp).mpr (cur_of_charged hcharged)
  rw [hprocs, List.getElem?_set_ne (Ne.symm hji)] at hq
  have hpi := entry_view hp (by simp [hrun])
  have hqj := entry_view hq (by simp [hready])
  have hlt := hfirst.first i j
  rw [hpi, hqj, hrun, hready] at hlt
  exact hlt rfl hqueue rfl hsame

/-- How an event moves the live process in a slot. `queueAfter` is its queue afterwards. A sequence
number drawn outside a boost is greater than every one that was drawn before the event, and a
process that is preempted with some of its slice left goes back to the head of its queue. -/
def QueueMoved (k : Kernel) (e : Event) (k' : Kernel) (i : ℕ) (p p' : Proc) : Prop :=
  p'.mlfqQueue = queueAfter k e i p ∧
  (¬ boosts k e → p'.mlfqEnterSeq = p.mlfqEnterSeq ∨ k.mlfqGlobalSeq < p'.mlfqEnterSeq) ∧
  (charged k e = some i → ¬ Expires k e i p → k'.cur = none →
    p'.state = .runnable ∧ p'.mlfqTicksUsed = p.mlfqTicksUsed + 1 ∧
    p'.mlfqQueue = p.mlfqQueue ∧ p'.mlfqEnterSeq = p.mlfqEnterSeq ∧
    ∀ (j : ℕ) (q : Proc), k'.procs[j]? = some q → j ≠ i → q.state = .runnable →
      q.mlfqQueue = p'.mlfqQueue → p'.mlfqEnterSeq < q.mlfqEnterSeq)

/-- What a timer interrupt makes of a live process. -/
theorem moves_timer (hcontrol : Control k.procs k.cur) (hvalid : Valid mlfqTimeslice 3 (view k))
    (hfirst : RunsFirst (view k)) (hp : k.procs[i]? = some p) (hlive : p.Live) :
    ∃ p', (timerTrap .mlfq mode k).procs[i]? = some p' ∧
      QueueMoved k (.timer mode) (timerTrap .mlfq mode k) i p p' := by
  obtain ⟨c, hc, hclive, hcqueue, hcticks, hcseq⟩ := live_clockintr mode hp hlive
  have hclock := control_clockintr (b := .mlfq) hcontrol
  obtain ⟨l, hl, -⟩ := path_clockintr mode k
  obtain ⟨hcvalid, hcfirst⟩ := valid_runsFirst_path hl ⟨hvalid, hfirst⟩
  have hcfields := fields_of_valid hcvalid hc hclive.1
  have hcharge : charged (clockintr .mlfq k) (.timer mode) = charged k (.timer mode) :=
    charged_clockintr hcontrol
  by_cases hcharged : charged k (.timer mode) = some i
  · rw [hcharged] at hcharge
    obtain ⟨p', hprocs, hexpire, hgoes⟩ := set_chargeTick hcharge hc hcfields.1
    have hp' : (timerTrap .mlfq mode k).procs[i]? = some p' := by
      rw [timerTrap, hprocs, getElem?_set_eq hc]
    rw [hcqueue, hcticks] at hexpire hgoes
    refine ⟨p', hp', ?_⟩
    by_cases hexp : Expires k (.timer mode) i p
    · obtain ⟨hqueue, hseq⟩ := hexpire hexp.2
      refine ⟨by rw [queueAfter, if_pos hexp, hqueue], fun hboost ↦ .inr ?_,
        fun _ hno ↦ absurd hexp hno⟩
      rw [hseq]
      exact Nat.lt_succ_of_le (hcseq hboost).1
    · have hleft := fun hle ↦ hexp ⟨hcharged, hle⟩
      obtain ⟨hqueue, hseq, hticks, hpreempt⟩ := hgoes hleft
      -- The slice of queue 0 is a single tick, so a process that has some left is not there.
      have hne : queueAtCharge k (.timer mode) p ≠ 0 := by
        intro hzero
        rw [hzero] at hleft
        exact hleft (Nat.le_add_left 1 _)
      have hboost : ¬ boosts k (.timer mode) := fun hboost ↦ hne (if_pos hboost)
      have hrun : p.state = .running := (hcontrol.running i p hp).mpr (cur_of_charged hcharged)
      have hkept : p'.mlfqEnterSeq = p.mlfqEnterSeq := hseq.trans ((hcseq hboost).2.2 hrun)
      refine ⟨by rw [queueAfter, if_neg hexp, hqueue], fun _ ↦ .inl hkept, fun _ _ hcur ↦ ?_⟩
      refine ⟨hpreempt hcur, ?_, ?_, hkept, fun j q hq hji hready hsame ↦ ?_⟩
      · rw [hticks, ticksAtCharge, if_neg hboost]
      · rw [hqueue, queueAtCharge, if_neg hboost]
      · rw [hseq]
        exact ahead_of_preempted hclock hcfirst hcharge hc (hcqueue ▸ hne) hprocs hq hji hready
          (hsame.trans (hqueue.trans hcqueue.symm))
  · -- The tick is charged to another process or to none.
    have hsame : (timerTrap .mlfq mode k).procs[i]? = (clockintr .mlfq k).procs[i]? := by
      cases hother : charged (clockintr .mlfq k) (.timer mode) with
      | none => rw [timerTrap, chargeTick_of_not_charged hother]
      | some r =>
        obtain ⟨x, hx⟩ := hclock.current r (cur_of_charged hother)
        have hxrun := (hclock.running r x hx).mpr (cur_of_charged hother)
        obtain ⟨x', hprocs, -⟩ := set_chargeTick hother hx
          (fields_of_valid hcvalid hx (by simp [hxrun])).1
        have hri : r ≠ i := fun h ↦ hcharged (hcharge ▸ h ▸ hother)
        rw [timerTrap, hprocs, List.getElem?_set_ne hri]
    have hexp : ¬ Expires k (.timer mode) i p := fun h ↦ hcharged h.1
    refine ⟨c, hsame.trans hc, ?_, fun hboost ↦ (hcseq hboost).2.1, fun h ↦ absurd h hcharged⟩
    rw [queueAfter, if_neg hexp, hcqueue]

/-! ### The moves -/

/-- If the transition changes the stamp of an entry in use, the new one is behind those of all
others. -/
def StampsLast (tr : Transition (State ℕ) (Action ℕ)) : Prop :=
  ∀ i, (tr.source.entry i).phase ≠ .absent → (tr.target.entry i).phase ≠ .absent →
    (tr.target.entry i).stamp ≠ (tr.source.entry i).stamp →
    ∀ j, j ≠ i → (tr.target.entry j).phase ≠ .absent →
      (tr.target.entry j).stamp < (tr.target.entry i).stamp

theorem stampsLast_path (hpath : Path mlfqAct s l t) (hvalid : Valid mlfqTimeslice 3 s) :
    ∀ tr ∈ l, StampsLast tr := by
  induction hpath with
  | nil => exact nofun
  | cons hact _ ih =>
    intro tr htr
    rcases List.mem_cons.mp htr with rfl | htr
    · exact fun i hs ht hne j hji hj ↦ stamp_lt_of_act hvalid hact hs ht hne hji hj
    · exact ih (hvalid.act (fun _ ↦ mlfqTimeslice_pos) hact) tr htr

theorem moves_step (hcontrol : Control k.procs k.cur) (hvalid : Valid mlfqTimeslice 3 (view k))
    (hfirst : RunsFirst (view k)) (hstep : step .mlfq k e = some k') (hp : k.procs[i]? = some p)
    (hlive : p.Live) : ∃ p', k'.procs[i]? = some p' ∧ QueueMoved k e k' i p p' := by
  by_cases he : ∃ mode, e = .timer mode
  · obtain ⟨mode, rfl⟩ := he
    obtain rfl : timerTrap .mlfq mode k = k' := by
      rcases step_cases hstep with ⟨mode', heq, -, rfl⟩ | ⟨chan, heq, -⟩ | ⟨heq, -⟩ |
        ⟨j, r, -, -, hproc⟩
      · cases heq
        rfl
      · cases heq
      · cases heq
      · cases hproc
    exact moves_timer hcontrol hvalid hfirst hp hlive
  · have hne : ∀ mode, e ≠ .timer mode := fun mode heq ↦ he ⟨mode, heq⟩
    obtain ⟨p', hp', hqueue, hseq⟩ := stays_of_not_timer hstep hne hp hlive
    refine ⟨p', hp', by rw [hqueue, queueAfter_of_not_timer hne], fun _ ↦ hseq, fun hcharged ↦ ?_⟩
    cases e with
    | timer mode => exact absurd rfl (hne mode)
    | _ => cases hcharged

/-- How a live process moves between the queues, at any event in any reachable state of the MLFQ
build. Its queue changes only by a boost and by a charged tick that reaches the slice. A sequence
number exceeds those of all others at the instant it is drawn, so outside a boost it exceeds all
that were there before the event and, after it, all that were not drawn in the same event. When the
process is preempted with some of its slice left, the tick is charged, it keeps its place, and it is
ahead of every other `RUNNABLE` process of its queue. -/
theorem mlfq_queue_moves {k k' : Kernel} {e : Event}
    (hreach : Reachable (step .mlfq) (boot .mlfq) k) (hstep : step .mlfq k e = some k') :
    (∀ (i : ℕ) (p : Proc), k.procs[i]? = some p → p.Live →
      ∃ p', k'.procs[i]? = some p' ∧ p'.mlfqQueue = queueAfter k e i p ∧
        (¬ boosts k e → p'.mlfqEnterSeq ≠ p.mlfqEnterSeq →
          (∀ (j : ℕ) (q : Proc), k.procs[j]? = some q → q.state ≠ .unused →
            q.mlfqEnterSeq < p'.mlfqEnterSeq) ∧
          ∀ (j : ℕ) (q' : Proc), k'.procs[j]? = some q' → j ≠ i →
            q'.mlfqEnterSeq < p'.mlfqEnterSeq ∨ k.mlfqGlobalSeq < q'.mlfqEnterSeq) ∧
        (charged k e = some i → ¬ Expires k e i p → k'.cur = none →
          p'.state = .runnable ∧ p'.mlfqTicksUsed = p.mlfqTicksUsed + 1 ∧
          p'.mlfqQueue = p.mlfqQueue ∧ p'.mlfqEnterSeq = p.mlfqEnterSeq ∧
          ∀ (j : ℕ) (q : Proc), k'.procs[j]? = some q → j ≠ i → q.state = .runnable →
            q.mlfqQueue = p'.mlfqQueue → p'.mlfqEnterSeq < q.mlfqEnterSeq)) ∧
    ∃ l, Refines k e k' l ∧ ∀ tr ∈ l, StampsLast tr := by
  have hcontrol := control_reachable hreach
  have hvalid := valid_reachable hreach
  constructor
  · intro i p hp hlive
    obtain ⟨p', hp', hqueue, hseq, hpreempt⟩ :=
      moves_step hcontrol hvalid (runsFirst_reachable hreach) hstep hp hlive
    refine ⟨p', hp', hqueue, fun hboost hne ↦ ?_, hpreempt⟩
    have hlater := (hseq hboost).resolve_left hne
    constructor
    · intro j q hq hused
      exact Nat.lt_of_le_of_lt (fields_of_valid hvalid hq hused).2.2.2 hlater
    · intro j q' _ _
      omega
  · obtain ⟨l, hrefines⟩ := refines_step hstep hcontrol
    exact ⟨l, hrefines, stampsLast_path hrefines.path hvalid⟩

/-- `init` has forked twice. It and the first child have used the slice of queue 0 up, the second
child has slept, and `init` runs in queue 1 again when the second child is woken. -/
def busyEvents : List Event :=
  [.forkAlloc ⟨true, true, true⟩, .forkLink, .forkRunnable, .timer .user, .dispatch, .timer .user,
   .dispatch, .sleepPrepare (.other 0), .sleep, .dispatch, .wakeup (.other 0)]

def busyKernel : Kernel := (replay (step .mlfq) forkedKernel busyEvents).2

theorem reachable_busyKernel : Reachable (step .mlfq) (boot .mlfq) busyKernel :=
  reachable_forkedKernel.trans_path (path_replay _ _)

theorem busyKernel_spec :
    ∃ p, busyKernel.procs[0]? = some p ∧ p.Live ∧ p.mlfqQueue = 1 ∧
      charged busyKernel (.timer .user) = some 0 ∧ ¬ Expires busyKernel (.timer .user) 0 p ∧
      (timerTrap .mlfq .user busyKernel).cur = none ∧
      step .mlfq busyKernel (.timer .user) = some (timerTrap .mlfq .user busyKernel) := by
  refine ⟨(busyKernel.procs[0]?).get (by decide +kernel), by simp, ?_, ?_⟩
  · unfold Proc.Live
    decide +kernel
  · decide +kernel

/-- The tick preempts `init` for the second child. `init` stays ahead of the first child. -/
theorem mlfq_queue_moves_busyKernel :
    ∃ p p', busyKernel.procs[0]? = some p ∧
      (timerTrap .mlfq .user busyKernel).procs[0]? = some p' ∧ p'.state = .runnable ∧
      p'.mlfqTicksUsed = p.mlfqTicksUsed + 1 ∧ p'.mlfqQueue = p.mlfqQueue ∧
      p'.mlfqEnterSeq = p.mlfqEnterSeq := by
  obtain ⟨p, hp, hlive, -, hcharged, hexpires, hcur, hstep⟩ := busyKernel_spec
  obtain ⟨p', hp', -, -, hpreempt⟩ := (mlfq_queue_moves reachable_busyKernel hstep).1 0 p hp hlive
  obtain ⟨hstate, hticks, hqueue, hseq, -⟩ := hpreempt hcharged hexpires hcur
  exact ⟨p, p', hp, hp', hstate, hticks, hqueue, hseq⟩

end Irish.Xv6
