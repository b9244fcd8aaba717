import Irish.Library.FeedbackQueue
import Irish.Xv6.Control

/-!
# The MLFQ kernel is a feedback queue

The process table of the MLFQ build, seen through `view`, is a state of the abstract feedback queue
of `Irish.Library.FeedbackQueue` with the slices `mlfq_timeslice` and four levels. Every step of the
kernel is a run of that machine (`refines_step`): a wakeup wakes entries one by one, a boost lifts
them one by one, the handler of a tick charges it, and the two scans of `scheduler` find the entry
that the queue's order puts first (`run_switchTo`). A run of the kernel is then one run of the
machine (`refines_path`), on which its invariant and its fairness bounds hold.
-/

set_option autoImplicit false

namespace Irish.Xv6

open Library Library.FeedbackQueue

/-! ### The abstraction -/

def phaseOf : ProcState → Phase
  | .unused => .absent
  | .used => .starting
  | .sleeping => .blocked
  | .runnable => .ready
  | .running => .running
  | .zombie => .finished

/-- The queue entry of a process. The fields of an `UNUSED` slot mean nothing. -/
def entryOf (p : Proc) : Entry :=
  if p.state = .unused then .empty
  else ⟨phaseOf p.state, p.mlfqQueue, p.mlfqTicksUsed, p.mlfqEnterSeq⟩

def viewOf (procs : List Proc) (seq : ℕ) : State ℕ where
  entry i := (procs[i]?.map entryOf).getD .empty
  counter := seq

def view (k : Kernel) : State ℕ := viewOf k.procs k.mlfqGlobalSeq

@[simp] theorem counter_viewOf (procs : List Proc) (seq : ℕ) : (viewOf procs seq).counter = seq :=
  rfl

variable {s : ProcState} {p p' q : Proc} {procs : List Proc} {i seq seq' np : ℕ} {k k' : Kernel}
  {e : Event} {mode : Mode} {f : Proc → Proc} {b : Build}

theorem phaseOf_eq_absent : phaseOf s = .absent ↔ s = .unused := by
  cases s <;> simp [phaseOf]

theorem phaseOf_eq_running : phaseOf s = .running ↔ s = .running := by
  cases s <;> simp [phaseOf]

theorem phaseOf_eq_ready : phaseOf s = .ready ↔ s = .runnable := by
  cases s <;> simp [phaseOf]

@[simp] theorem phase_entryOf (p : Proc) : (entryOf p).phase = phaseOf p.state := by
  unfold entryOf
  split_ifs with h
  · simp [h, phaseOf, Entry.empty]
  · rfl

theorem entryOf_of_used (h : p.state ≠ .unused) :
    entryOf p = ⟨phaseOf p.state, p.mlfqQueue, p.mlfqTicksUsed, p.mlfqEnterSeq⟩ :=
  if_neg h

theorem entry_viewOf (h : procs[i]? = some p) (seq : ℕ) :
    (viewOf procs seq).entry i = entryOf p := by
  simp [viewOf, h]

/-- An entry that is in use belongs to a process of the table. -/
theorem exists_of_phase {phase : Phase} (h : ((viewOf procs seq).entry i).phase = phase)
    (hphase : phase ≠ .absent) : ∃ p, procs[i]? = some p := by
  cases hp : procs[i]? with
  | none => exact absurd (by simpa [viewOf, hp, Entry.empty] using h.symm) hphase
  | some p => exact ⟨p, rfl⟩

theorem viewOf_set (h : procs[i]? = some p) (p' : Proc)
    (seq seq' : ℕ) : viewOf (procs.set i p') seq' =
      ⟨Function.update (viewOf procs seq).entry i (entryOf p'), seq'⟩ := by
  have hlt : i < procs.length := lt_of_getElem? h
  unfold viewOf
  congr 1
  funext j
  rcases eq_or_ne j i with rfl | hj
  · simp [hlt]
  · simp [Function.update_of_ne hj, List.getElem?_set_ne (Ne.symm hj)]

theorem viewOf_set_same (h : procs[i]? = some p) (he : entryOf p' = entryOf p) (seq : ℕ) :
    viewOf (procs.set i p') seq = viewOf procs seq := by
  rw [viewOf_set h p' seq seq, he, ← entry_viewOf h seq, Function.update_eq_self]
  rfl

theorem viewOf_modify_same (he : ∀ p, entryOf (f p) = entryOf p) (procs : List Proc) (i seq : ℕ) :
    viewOf (procs.modify i f) seq = viewOf procs seq := by
  cases h : procs[i]? with
  | none => rw [List.modify_eq_self (List.getElem?_eq_none_iff.mp h)]
  | some p =>
    rw [modify_eq_set h]
    exact viewOf_set_same h (he p) seq

/-- The machine whose levels are the four queues. -/
noncomputable abbrev mlfqAct : State ℕ → Action ℕ → Option (State ℕ) := act mlfqTimeslice 3

/-- A write to one slot is an action of the machine when it has the effect of one. -/
theorem mlfqAct_of_set {a : Action ℕ} (hp : procs[i]? = some p)
    (hguard : Guard mlfqTimeslice (viewOf procs seq) a) (heffect : effect 3 (viewOf procs seq) a =
      ⟨Function.update (viewOf procs seq).entry i (entryOf p'), seq'⟩) :
    mlfqAct (viewOf procs seq) a = some (viewOf (procs.set i p') seq') :=
  act_eq_some_iff.mpr ⟨hguard, heffect.trans (viewOf_set hp p' seq seq').symm⟩

/-! ### Sections that do not schedule -/

/-- The run of the machine that a section is when it neither dispatches, nor charges, nor boosts. -/
abbrev QuietRun (s t : State ℕ) : Prop := RunOf mlfqAct Action.Quiet s t

theorem quiet_of_eq {s t : State ℕ} (h : t = s) : QuietRun s t := by
  rw [h]
  exact RunOf.refl s

/-- A write to the fields that the queue does not look at. -/
theorem quiet_modify (he : ∀ p, entryOf (f p) = entryOf p) (k : Kernel) (i : ℕ) :
    QuietRun (view k) (view (k.modify i f)) :=
  quiet_of_eq (viewOf_modify_same he _ _ _)

theorem wake_set (hp : procs[i]? = some p) (hstate : p.state = .sleeping)
    (hstate' : p'.state = .runnable) (hqueue : p'.mlfqQueue = p.mlfqQueue)
    (hused : p'.mlfqTicksUsed = p.mlfqTicksUsed) (hseq : p'.mlfqEnterSeq = seq + 1) :
    QuietRun (viewOf procs seq) (viewOf (procs.set i p') (seq + 1)) := by
  refine RunOf.single (mlfqAct_of_set (a := .wake i) hp ?_ ?_) (by simp [Action.Quiet])
  · simp [Guard, entry_viewOf hp, hstate, phaseOf]
  · simp [effect, State.restamp, entry_viewOf hp, entryOf, hstate, hstate', hqueue, hused, hseq,
      phaseOf]

theorem quiet_wakeup (chan : Option Chan) (k : Kernel) :
    QuietRun (view k) (view (wakeup .mlfq chan k)) := by
  refine sweep_rule (P := fun procs seq ↦ QuietRun (view k) (viewOf procs seq)) ?_ (RunOf.refl _)
  intro procs i p seq hp hrun
  refine hrun.trans ?_
  unfold wakeupBody
  split_ifs with hchan hstate
  · exact wake_set hp hstate rfl rfl rfl rfl
  · exact quiet_of_eq (viewOf_set_same hp (by rfl) seq)
  · exact quiet_of_eq (viewOf_set_same hp rfl seq)

theorem quiet_kkill (pid : ℤ) (k : Kernel) : QuietRun (view k) (view (kkill .mlfq pid k)) := by
  unfold kkill
  split
  · exact RunOf.refl _
  · split
    · exact RunOf.refl _
    · rename_i i _ _ p hp
      split_ifs with hstate
      · have hset :
            view ((k.modify i fun p ↦ { p with killed := true, state := .runnable }).stamp i)
            = viewOf (k.procs.set i { p with
                killed := true, state := .runnable, mlfqEnterSeq := k.mlfqGlobalSeq + 1 })
              (k.mlfqGlobalSeq + 1) := by
          simp [view, Kernel.stamp, modify_eq_set hp]
        rw [hset]
        exact wake_set hp hstate rfl rfl rfl rfl
      · exact quiet_modify (by intro p; rfl) _ _

theorem quiet_sleep (hp : k.procs[i]? = some p)
    (hstate : p.state = .running) : QuietRun (view k) (view (sleep .mlfq i p k)) := by
  unfold sleep
  split_ifs
  · simp only [view, procs_modify, modify_eq_set hp, seq_modify]
    refine RunOf.single (mlfqAct_of_set (a := .block i) hp ?_ ?_) (by simp [Action.Quiet])
    · simp [Guard, entry_viewOf hp, hstate, phaseOf]
    · simp [effect, State.put, entry_viewOf hp, entryOf, hstate, phaseOf]
  · exact RunOf.refl _

theorem quiet_reparent (i : ℕ) (k : Kernel) : QuietRun (view k) (view (reparent .mlfq i k)) := by
  unfold reparent
  generalize List.range k.procs.length = slots
  induction slots generalizing k with
  | nil => exact RunOf.refl _
  | cons pp _ ih =>
    refine RunOf.trans ?_ (ih _)
    unfold reparentBody
    split
    · exact RunOf.refl _
    · split_ifs
      · have hlink : view (k.modify pp fun q ↦ { q with parent := some k.initproc }) = view k :=
          viewOf_modify_same (by intro p; rfl) _ _ _
        have hwake := quiet_wakeup (some (.proc k.initproc))
          (k.modify pp fun q ↦ { q with parent := some k.initproc })
        rwa [hlink] at hwake
      · exact RunOf.refl _

theorem quiet_kexit {status : ℤ} (h : Control k.procs k.cur)
    (hcur : k.cur = some i) : QuietRun (view k) (view (kexit .mlfq status i k)) := by
  have hnotify := control_kexitNotify (b := .mlfq) (i := i) h
  rw [hcur] at hnotify
  obtain ⟨p, hp⟩ := hnotify.current i rfl
  have hstate := (hnotify.running i p hp).mpr rfl
  have hquiet : QuietRun (view k) (view (kexitNotify .mlfq i k)) :=
    (quiet_reparent i k).trans (quiet_wakeup _ _)
  refine hquiet.trans ?_
  simp only [kexit, view, procs_modify, modify_eq_set hp, seq_modify]
  refine RunOf.single (mlfqAct_of_set (a := .finish i) hp ?_ ?_) (by simp [Action.Quiet])
  · simp [Guard, entry_viewOf hp, hstate, phaseOf]
  · simp [effect, State.put, entry_viewOf hp, entryOf, hstate, phaseOf]

/-- `freeproc` of a process that has exited, or that `kfork` gives up. -/
theorem quiet_freeproc (hp : k.procs[i]? = some p) (hstate : p.state = .zombie ∨ p.state = .used) :
    QuietRun (view k) (view (freeproc .mlfq i k)) := by
  simp only [view, freeproc, procs_modify, seq_modify, modify_eq_set hp]
  refine RunOf.single (mlfqAct_of_set (a := .forget i) hp ?_ ?_) (by simp [Action.Quiet])
  · rcases hstate with h | h <;> simp [Guard, entry_viewOf hp, h, phaseOf]
  · simp [effect, State.put, entryOf, freeFields]

theorem quiet_kwait {copyout : Bool} : QuietRun (view k) (view (kwait .mlfq copyout i p k)) := by
  unfold kwait
  split
  · rename_i z hz
    obtain ⟨q, hq, hzombie⟩ := getElem?_of_findIdx? hz
    simp only [decide_eq_true_eq] at hzombie
    split_ifs
    · have hunlink : view (k.modify z fun pp ↦ { pp with parent := none }) = view k :=
        viewOf_modify_same (by intro p; rfl) _ _ _
      rw [← hunlink]
      exact quiet_freeproc (p := { q with parent := none }) (by simp [hq]) (.inl hzombie.2)
    · exact RunOf.refl _
  · split_ifs
    · exact RunOf.refl _
    · exact quiet_modify (by intro p; rfl) _ _

theorem ForkAlloc.quiet (halloc : ForkAlloc .mlfq i k k') : QuietRun (view k) (view k') := by
  have henter {np seq : ℕ} {q q' : Proc} (hq : k.procs[np]? = some q) (hfree : q.state = .unused)
      (hfresh : Fresh .mlfq k seq q q') : QuietRun (view k) (view (k.take np q' seq)) := by
    obtain ⟨rfl, hseq, hqueue, hticks⟩ := hfresh.mlfq rfl
    refine RunOf.single (mlfqAct_of_set (a := .enter np) hq ?_ ?_) (by simp [Action.Quiet])
    · simp [Guard, entry_viewOf hq, hfree, phaseOf]
    · simp [effect, State.restamp, entryOf, hfresh.state, hseq, hqueue, hticks, phaseOf,
        Kernel.take]
  cases halloc with
  | full => exact RunOf.refl _
  | failed np q hq hfree =>
    exact quiet_of_eq (viewOf_set_same hq (by simp [entryOf, freeFields, hfree]) _)
  | copyFailed np seq q q' hq hfree hfresh =>
    have hlt : np < k.procs.length := lt_of_getElem? hq
    exact (henter hq hfree hfresh).trans (quiet_freeproc (k := k.take np q' seq)
      (List.getElem?_set_self hlt) (.inr hfresh.state))
  | forked np seq q q' _ hq hfree hfresh =>
    exact (henter hq hfree hfresh).trans (quiet_modify (by intro p; rfl) _ _)

theorem quiet_kforkLink (i np : ℕ) (k : Kernel) : QuietRun (view k) (view (kforkLink i np k)) := by
  refine quiet_of_eq ?_
  simp only [kforkLink, view, procs_modify, seq_modify]
  rw [viewOf_modify_same (by intro p; rfl), viewOf_modify_same (by intro p; rfl)]

theorem quiet_kforkRunnable (hq : k.procs[np]? = some q) (hused : q.state = .used) :
    QuietRun (view k) (view (kforkRunnable i np k)) := by
  simp only [kforkRunnable, view, procs_modify, seq_modify]
  rw [viewOf_modify_same (by intro p; rfl), modify_eq_set hq]
  refine RunOf.single (mlfqAct_of_set (a := .publish np) hq ?_ ?_) (by simp [Action.Quiet])
  · simp [Guard, entry_viewOf hq, hused, phaseOf]
  · simp [effect, State.put, entry_viewOf hq, entryOf, hused, phaseOf]

theorem quiet_procStep (hstep : procStep .mlfq i p k e = some k') (h : Control k.procs k.cur)
    (hcur : k.cur = some i) (hp : k.procs[i]? = some p) : QuietRun (view k) (view k') := by
  have hrun : p.state = .running := (h.running i p hp).mpr hcur
  cases procStep_cases hstep with
  | forkAlloc mem => exact (kforkAlloc_cases .mlfq mem i k).quiet
  | forkLink => exact quiet_kforkLink _ _ k
  | forkRunnable np hstage =>
    obtain ⟨q, hq, hused⟩ := h.child i p np hp (by simp [Proc.forkChild, hstage])
    exact quiet_kforkRunnable hq hused
  | sleepPrepare | setkilled => exact quiet_modify (by intro p; rfl) _ _
  | sleep => exact quiet_sleep hp hrun
  | kill pid => exact quiet_kkill pid k
  | exit => exact quiet_kexit h hcur
  | wait => exact quiet_kwait

/-! ### Dispatching -/

/-- One turn of the scan: the best process so far stays or is replaced by the one under the cursor,
and the new one entered the queue no later than either. -/
theorem scanQueue_cons (q : ℕ) (p : Proc) (rest : List Proc) (slot : ℕ) (best : Option (ℕ × ℕ)) :
    ∃ best', scanQueue q (p :: rest) slot best = scanQueue q rest (slot + 1) best' ∧
      (best' = best ∨
        (best' = some (slot, p.mlfqEnterSeq) ∧ p.state = .runnable ∧ p.mlfqQueue = q)) ∧
      (∀ old ∈ best, ∃ new ∈ best', new.2 ≤ old.2) ∧
      (p.state = .runnable ∧ p.mlfqQueue = q → ∃ new ∈ best', new.2 ≤ p.mlfqEnterSeq) := by
  refine ⟨_, rfl, ?_, ?_, fun hp ↦ ?_⟩
  · split_ifs with hp
    · split
      · exact .inr ⟨rfl, hp⟩
      · split_ifs
        · exact .inr ⟨rfl, hp⟩
        · exact .inl rfl
    · exact .inl rfl
  · intro old hold
    rw [Option.mem_def] at hold
    subst hold
    split_ifs
    · dsimp only
      split_ifs with hlt
      · exact ⟨_, rfl, hlt.le⟩
      · exact ⟨_, rfl, le_refl _⟩
    · exact ⟨_, rfl, le_refl _⟩
  · rw [if_pos hp]
    split
    · exact ⟨_, rfl, le_refl _⟩
    · split_ifs with hlt
      · exact ⟨_, rfl, le_refl _⟩
      · exact ⟨_, rfl, Nat.le_of_not_lt hlt⟩

/-- The scan of one queue keeps the smallest sequence number it has seen. -/
theorem scanQueue_spec (q : ℕ) (procs : List Proc) (slot : ℕ) (best : Option (ℕ × ℕ)) :
    match scanQueue q procs slot best with
    | none => best = none ∧ ∀ p ∈ procs, ¬ (p.state = .runnable ∧ p.mlfqQueue = q)
    | some (winner, seq) =>
      (best = some (winner, seq) ∨ ∃ (i : ℕ) (p : Proc), winner = slot + i ∧ procs[i]? = some p ∧
        (p.state = .runnable ∧ p.mlfqQueue = q) ∧ p.mlfqEnterSeq = seq) ∧
      (∀ old ∈ best, seq ≤ old.2) ∧
      ∀ p ∈ procs, p.state = .runnable ∧ p.mlfqQueue = q → seq ≤ p.mlfqEnterSeq := by
  induction procs generalizing slot best with
  | nil =>
    cases best with
    | none => simp [scanQueue]
    | some old => simp [scanQueue]
  | cons p rest ih =>
    obtain ⟨best', hstep, hfrom, hle, hself⟩ := scanQueue_cons q p rest slot best
    have hrest := ih (slot + 1) best'
    rw [hstep]
    split at hrest
    · obtain ⟨hnone, hall⟩ := hrest
      have hbest : best = none := by
        rcases hfrom with h | ⟨h, -⟩
        · exact h ▸ hnone
        · simp [h] at hnone
      refine ⟨hbest, fun r hr ↦ ?_⟩
      rcases List.mem_cons.mp hr with rfl | hmem
      · intro hrun
        obtain ⟨new, hnew, -⟩ := hself hrun
        simp [hnone] at hnew
      · exact hall r hmem
    · rename_i winner seq _
      obtain ⟨hwinner, hold, hall⟩ := hrest
      refine ⟨?_, fun old hold' ↦ ?_, fun r hr hrun ↦ ?_⟩
      · rcases hwinner with hw | ⟨i, r, hi, hr, hrun, hrseq⟩
        · rcases hfrom with h | ⟨h, hp⟩
          · exact .inl (h ▸ hw)
          · rw [h, Option.some.injEq, Prod.mk.injEq] at hw
            exact .inr ⟨0, p, by omega, rfl, hp, hw.2⟩
        · exact .inr ⟨i + 1, r, by omega, by simpa using hr, hrun, hrseq⟩
      · obtain ⟨new, hnew, hnewle⟩ := hle old hold'
        exact (hold new hnew).trans hnewle
      · rcases List.mem_cons.mp hr with rfl | hmem
        · obtain ⟨new, hnew, hnewle⟩ := hself hrun
          exact (hold new hnew).trans hnewle
        · exact hall r hmem hrun

/-- The loop over the queues finds a process of the first nonempty queue that entered it first. -/
theorem scanQueues_first {queues : List ℕ} (hsorted : queues.Pairwise (· < ·))
    (h : scanQueues procs queues = some i) :
    ∃ p, procs[i]? = some p ∧ p.state = .runnable ∧ p.mlfqQueue ∈ queues ∧
      ∀ r ∈ procs, r.state = .runnable → r.mlfqQueue ∈ queues →
        p.mlfqQueue < r.mlfqQueue ∨
          (p.mlfqQueue = r.mlfqQueue ∧ p.mlfqEnterSeq ≤ r.mlfqEnterSeq) := by
  induction queues with
  | nil => simp [scanQueues] at h
  | cons q queues ih =>
    obtain ⟨hq, hrest⟩ := List.pairwise_cons.mp hsorted
    have hspec := scanQueue_spec q procs 0 none
    simp only [scanQueues] at h
    split at h
    · -- Nothing is queued here.
      rename_i hscan
      rw [hscan] at hspec
      obtain ⟨p, hp, hstate, hmem, hall⟩ := ih hrest h
      refine ⟨p, hp, hstate, List.mem_cons_of_mem _ hmem, fun r hr hrun hrq ↦ ?_⟩
      rcases List.mem_cons.mp hrq with heq | hrq
      · exact absurd ⟨hrun, heq⟩ (hspec.2 r hr)
      · exact hall r hr hrun hrq
    · rename_i best seq hscan
      rw [hscan] at hspec
      obtain ⟨hwinner, -, hall⟩ := hspec
      obtain ⟨j, p, hj, hp, hcheck, hseq⟩ := hwinner.resolve_left (by simp)
      rw [Nat.zero_add] at hj
      subst hj
      rw [hp] at h
      simp only [hcheck, and_self, if_true] at h
      cases h
      refine ⟨p, hp, hcheck.1, by simp [hcheck.2], fun r hr hrun hrq ↦ ?_⟩
      rcases List.mem_cons.mp hrq with heq | hrq
      · exact .inr ⟨hcheck.2.trans heq.symm, hseq ▸ hall r hr ⟨hrun, heq⟩⟩
      · exact .inl (hcheck.2 ▸ hq _ hrq)

/-- The process that the scheduler switches to is the first of the feedback queue. -/
theorem run_switchTo (h : Control k.procs k.cur) (hcur : k.cur = none)
    (hpick : pick .mlfq k = some i) : mlfqAct (view k) (.run i) = some (view (switchTo i k)) := by
  obtain ⟨p, hp, hstate, hqueue, hfirst⟩ := scanQueues_first (by decide) hpick
  have hset : view (switchTo i k) = viewOf (k.procs.set i { p with
      stime := if p.stime = -1 then ticksAsInt k else p.stime, state := .running })
      k.mlfqGlobalSeq := by
    simp [view, switchTo, modify_eq_set hp]
  rw [hset]
  refine mlfqAct_of_set hp ⟨?_, fun j hj ↦ ?_, fun j hj hbefore ↦ ?_⟩ ?_
  · simp [entry_viewOf hp, hstate, phaseOf]
  · obtain ⟨q, hq⟩ := exists_of_phase hj (by simp)
    rw [entry_viewOf hq, phase_entryOf, phaseOf_eq_running, h.running j q hq, hcur] at hj
    exact absurd hj (by simp)
  · obtain ⟨q, hq⟩ := exists_of_phase hj (by simp)
    rw [entry_viewOf hq, phase_entryOf, phaseOf_eq_ready] at hj
    rw [entry_viewOf hq, entry_viewOf hp, entryOf_of_used (by simp [hj]),
      entryOf_of_used (by simp [hstate])] at hbefore
    unfold Before at hbefore
    dsimp only at hbefore
    have hle : q.mlfqQueue ∈ [0, 1, 2, 3] := by
      simp only [List.mem_cons, List.not_mem_nil, or_false] at hqueue ⊢
      omega
    have hmin := hfirst q (List.mem_of_getElem? hq) hj hle
    omega
  · simp [effect, State.put, entry_viewOf hp, entryOf, hstate, phaseOf]

/-! ### The clock -/

def Event.isTimer : Event → Bool
  | .timer _ => true
  | _ => false

theorem ForkAlloc.frame (h : ForkAlloc b i k k') : k'.cur = k.cur ∧
    k'.ticks = k.ticks ∧ (k'.nextpid = k.nextpid ∨ k'.nextpid = k.nextpid + 1) := by
  cases h with
  | full => exact ⟨rfl, rfl, .inl rfl⟩
  | failed | copyFailed | forked => exact ⟨rfl, rfl, .inr rfl⟩

theorem sleep_frame (b : Build) (i : ℕ) (p : Proc) (k : Kernel) :
    (sleep b i p k).ticks = k.ticks ∧ (sleep b i p k).nextpid = k.nextpid := by
  unfold sleep
  split_ifs
  · cases b <;> exact ⟨rfl, rfl⟩
  · exact ⟨rfl, rfl⟩

theorem frame_timerTrap (b : Build) (mode : Mode) (k : Kernel) :
    (timerTrap b mode k).ticks = (k.ticks + 1) % uintSize ∧
      (timerTrap b mode k).nextpid = k.nextpid := by
  have hclock := nudges_clockintr b k
  have hcharge {k k' : Kernel} (h : Charge k k') : k'.ticks = k.ticks ∧ k'.nextpid = k.nextpid := by
    cases h <;> exact ⟨rfl, rfl⟩
  have hframe := hcharge (chargeTick_cases b mode (clockintr b k))
  exact ⟨hframe.1.trans hclock.ticks, hframe.2.trans hclock.nextpid⟩

/-- The clock advances at timer interrupts and at nothing else, and a step draws at most one pid. -/
theorem frame_step (hstep : step b k e = some k') :
    k'.ticks = (if e.isTimer then (k.ticks + 1) % uintSize else k.ticks) ∧
      (k'.nextpid = k.nextpid ∨ k'.nextpid = k.nextpid + 1) := by
  rcases step_cases hstep with ⟨mode, rfl, -, rfl⟩ | ⟨chan, rfl, rfl⟩ |
    ⟨rfl, hcur, ⟨-, rfl⟩ | ⟨i, hpick, rfl⟩⟩ | ⟨i, p, hcur, hp, hproc⟩
  · exact (frame_timerTrap b mode k).imp_right .inl
  · exact ⟨rfl, .inl rfl⟩
  · exact ⟨rfl, .inl rfl⟩
  · exact ⟨rfl, .inl rfl⟩
  · cases procStep_cases hproc with
    | forkAlloc mem => exact (kforkAlloc_cases b mem i k).frame.2
    | sleep => exact (sleep_frame b i p k).imp_right .inl
    | kill pid => exact ⟨(nudges_kkill b pid k).ticks, .inl (nudges_kkill b pid k).nextpid⟩
    | exit => exact ⟨(wakes_kexitNotify b i k).ticks, .inl (wakes_kexitNotify b i k).nextpid⟩
    | wait copyout => exact (kwait_frame b copyout i p k).2.imp_right .inl
    | _ => exact ⟨rfl, .inl rfl⟩

theorem ticks_step (hstep : step b k e = some k') :
    k'.ticks = if e.isTimer then (k.ticks + 1) % uintSize else k.ticks :=
  (frame_step hstep).1

/-! ### The timer interrupt -/

/-- The event is a timer interrupt at which `clockintr` boosts. -/
def boosts (k : Kernel) (e : Event) : Prop :=
  e.isTimer = true ∧ 0 < (k.ticks + 1) % uintSize ∧ (k.ticks + 1) % uintSize % boostPeriod = 0

instance (k : Kernel) (e : Event) : Decidable (boosts k e) := inferInstanceAs (Decidable (_ ∧ _))

/-- The process that a timer interrupt charges the tick to: the one it interrupted, unless that
process was in user mode and is killed. -/
def charged (k : Kernel) : Event → Option ℕ
  | .timer mode =>
    match k.cur with
    | none => none
    | some i =>
      match k.procs[i]? with
      | none => none
      | some p => if mode = .user ∧ p.killed then none else some i
  | _ => none

/-- A tick is charged to the process that has the CPU. -/
theorem cur_of_charged (h : charged k e = some i) : k.cur = some i := by
  cases e with
  | timer mode =>
    simp only [charged] at h
    split at h
    · cases h
    · rename_i j hj
      split at h
      · cases h
      · split_ifs at h
        cases h
        exact hj
  | _ => cases h

theorem chargeTick_of_charged (h : charged k (.timer mode) = some i) (hp : k.procs[i]? = some p) :
    chargeTick .mlfq mode k = if (mlfqTickHandler i p k).1 then yield i (mlfqTickHandler i p k).2
      else (mlfqTickHandler i p k).2 := by
  have hcur := cur_of_charged h
  simp only [charged, hcur, hp] at h
  simp only [chargeTick, hcur, hp]
  split_ifs at h with hkilled
  rw [if_neg hkilled]

theorem chargeTick_of_not_charged
    (h : charged k (.timer mode) = none) : chargeTick .mlfq mode k = k := by
  unfold charged at h
  unfold chargeTick
  split
  · rfl
  · rename_i i hcur
    simp only [hcur] at h
    split
    · rfl
    · rename_i p hp
      simp only [hp] at h
      split_ifs at h with hkilled
      rw [if_pos hkilled]

/-- The actions of a boost. -/
def liftOnly (a : Action ℕ) : Prop := ∃ i, a = .lift i

theorem lift_mlfqBoost (k : Kernel) : RunOf mlfqAct liftOnly (view k) (view (mlfqBoost k)) := by
  refine sweep_rule (P := fun procs seq ↦ RunOf mlfqAct liftOnly (view k) (viewOf procs seq)) ?_
    (RunOf.refl _)
  intro procs i p seq hp hrun
  refine hrun.trans ?_
  unfold boostBody
  split_ifs with hlive
  · refine RunOf.single (mlfqAct_of_set (a := .lift i) hp ?_ ?_) ⟨i, rfl⟩
    · have hphase : phaseOf p.state ≠ .finished := by
        intro hfin
        cases hs : p.state <;> simp_all [phaseOf]
      simp [Guard, entry_viewOf hp, phaseOf_eq_absent, hlive.1, hphase]
    · simp [effect, State.restamp, entry_viewOf hp, entryOf, hlive.1, stampProc]
  · have hset : procs.set i p = procs := by
      obtain ⟨hlt, rfl⟩ := List.getElem?_eq_some_iff.mp hp
      simp
    rw [hset]
    exact RunOf.refl _

/-- A tick that uses the slice up: the charge, the demotion and the yield are one action. -/
theorem expire_tick (hp : k.procs[i]? = some p) (hrun : p.state = .running)
    (hexpire : mlfqTimeslice p.mlfqQueue ≤ p.mlfqTicksUsed + 1) :
    mlfqAct (view k) (.expire i) = some (view (yield i (mlfqTickHandler i p k).2)) := by
  have hset : view (yield i (mlfqTickHandler i p k).2) =
      viewOf (k.procs.set i { expireFields (chargeFields p) with
        mlfqEnterSeq := k.mlfqGlobalSeq + 1, state := .runnable }) (k.mlfqGlobalSeq + 1) := by
    simp [mlfqTickHandler, hexpire, view, yield, Kernel.stamp, modify_eq_set hp]
  rw [hset]
  refine mlfqAct_of_set hp ?_ ?_
  · simp [Guard, entry_viewOf hp, entryOf, hrun, phaseOf, hexpire]
  · simp [effect, State.restamp, entry_viewOf hp, entryOf, hrun, phaseOf, demoted, expireFields,
      chargeFields]

/-- A tick that leaves some of the slice. -/
theorem charge_tick (hp : k.procs[i]? = some p) (hrun : p.state = .running)
    (hexpire : ¬ mlfqTimeslice p.mlfqQueue ≤ p.mlfqTicksUsed + 1) :
    mlfqAct (view k) (.charge i) = some (view (mlfqTickHandler i p k).2) := by
  have hset : view (mlfqTickHandler i p k).2 =
      viewOf (k.procs.set i (chargeFields p)) k.mlfqGlobalSeq := by
    simp [mlfqTickHandler, hexpire, view, modify_eq_set hp]
  rw [hset]
  refine mlfqAct_of_set hp ?_ ?_
  · simp only [Guard, entry_viewOf hp, entryOf, hrun, phaseOf]
    simpa using hexpire
  · simp [effect, State.put, entry_viewOf hp, entryOf, hrun, phaseOf, chargeFields]

theorem preempt_yield (hp : k.procs[i]? = some p)
    (hrun : p.state = .running) : mlfqAct (view k) (.preempt i) = some (view (yield i k)) := by
  simp only [view, yield, procs_modify, seq_modify, modify_eq_set hp]
  refine mlfqAct_of_set hp ?_ ?_
  · simp [Guard, entry_viewOf hp, entryOf, hrun, phaseOf]
  · simp [effect, State.put, entry_viewOf hp, entryOf, hrun, phaseOf]

/-- The handler of a tick: the tick is charged to the running process, and the process gives the
CPU up or keeps it. -/
theorem path_chargeTick (mode : Mode) (h : Control k.procs k.cur) :
    ∃ l, Path mlfqAct (view k) l (view (chargeTick .mlfq mode k)) ∧
      (∀ tr ∈ l, ∀ i, tr.event ≠ .run i ∧ tr.event ≠ .lift i) ∧
      ∀ (i : ℕ) (p : Proc), charged k (.timer mode) = some i → k.procs[i]? = some p →
        ∃ tr ∈ l, chargedAt i p.mlfqQueue tr = true := by
  cases hcharged : charged k (.timer mode) with
  | none =>
    rw [chargeTick_of_not_charged hcharged]
    exact ⟨[], .nil _, by simp, by simp⟩
  | some i =>
    have hcur := cur_of_charged hcharged
    obtain ⟨p, hp⟩ := h.current i hcur
    have hrun : p.state = .running := (h.running i p hp).mpr hcur
    have hlevel : ((view k).entry i).level = p.mlfqQueue := by
      rw [view, entry_viewOf hp, entryOf_of_used (by simp [hrun])]
    rw [chargeTick_of_charged hcharged hp]
    by_cases hexpire : mlfqTimeslice p.mlfqQueue ≤ p.mlfqTicksUsed + 1
    · have hyield : (mlfqTickHandler i p k).1 = true := by simp [mlfqTickHandler, hexpire]
      rw [if_pos hyield]
      refine ⟨_, Path.single (expire_tick hp hrun hexpire), by simp, fun j q hj hq ↦ ?_⟩
      simp_all [chargedAt]
    · have hcharge := charge_tick hp hrun hexpire
      have hafter : (mlfqTickHandler i p k).2.procs[i]? = some (chargeFields p) := by
        simp [mlfqTickHandler, hexpire, hp]
      split_ifs
      · refine ⟨_, Path.cons hcharge (Path.single (preempt_yield hafter hrun)), by simp,
          fun j q hj hq ↦ ⟨_, List.mem_cons_self, ?_⟩⟩
        simp_all [chargedAt]
      · refine ⟨_, Path.single hcharge, by simp, fun j q hj hq ↦ ⟨_, List.mem_cons_self, ?_⟩⟩
        simp_all [chargedAt]

/-- `clockintr` wakes the sleepers and, at the end of a period, boosts. -/
theorem path_clockintr (mode : Mode) (k : Kernel) :
    ∃ l, Path mlfqAct (view k) l (view (clockintr .mlfq k)) ∧
      (∀ tr ∈ l, ∀ i, tr.event ≠ .run i) ∧
      ∀ tr ∈ l, ∀ i, tr.event = .lift i → boosts k (.timer mode) := by
  obtain ⟨l, hl, hquiet⟩ := quiet_wakeup (some .ticks)
    { k with ticks := (k.ticks + 1) % uintSize }
  unfold clockintr
  dsimp only
  split_ifs with hboost
  · obtain ⟨m, hm, hlift⟩ := lift_mlfqBoost
      (wakeup .mlfq (some .ticks) { k with ticks := (k.ticks + 1) % uintSize })
    refine ⟨l ++ m, hl.append hm, fun tr htr i hrun ↦ ?_, fun _ _ _ _ ↦ ⟨rfl, hboost⟩⟩
    rcases List.mem_append.mp htr with hmem | hmem
    · exact (hquiet tr hmem i).1 hrun
    · obtain ⟨j, hj⟩ := hlift tr hmem
      cases hj.symm.trans hrun
  · exact ⟨l, hl, fun tr htr i ↦ (hquiet tr htr i).1,
      fun tr htr i hlift ↦ absurd hlift (hquiet tr htr i).2.2.2⟩

/-- What `wakeup` does to one process: if it sleeps, it may become runnable and get a new sequence
number. -/
theorem getElem?_wakeup (chan : Option Chan)
    (hp : k.procs[i]? = some p) : ∃ p', (wakeup .mlfq chan k).procs[i]? = some p' ∧
      p'.killed = p.killed ∧ p'.mlfqQueue = p.mlfqQueue ∧ p'.mlfqTicksUsed = p.mlfqTicksUsed ∧
      (p.state ≠ .sleeping → p'.state = p.state ∧ p'.mlfqEnterSeq = p.mlfqEnterSeq) := by
  have hmono (p : Proc) (seq : ℕ) : seq ≤ (wakeupBody .mlfq chan p seq).2 := by
    unfold wakeupBody stampProc
    split_ifs <;> simp
  obtain ⟨c, -, -, hget⟩ := getElem?_sweep hmono hp k.mlfqGlobalSeq
  refine ⟨_, hget, ?_⟩
  unfold wakeupBody stampProc
  split_ifs with hchan hsleep <;> simp_all

/-- What `mlfq_boost` does to one process. -/
theorem getElem?_mlfqBoost (hp : k.procs[i]? = some p) :
    ∃ p', (mlfqBoost k).procs[i]? = some p' ∧ p'.killed = p.killed ∧ p'.state = p.state ∧
      (p.state ≠ .unused → p.state ≠ .zombie → p'.mlfqQueue = 0 ∧ p'.mlfqTicksUsed = 0) := by
  have hmono (p : Proc) (seq : ℕ) : seq ≤ (boostBody p seq).2 := by
    unfold boostBody stampProc
    split_ifs <;> simp
  obtain ⟨c, -, -, hget⟩ := getElem?_sweep hmono hp k.mlfqGlobalSeq
  refine ⟨_, hget, ?_⟩
  unfold boostBody stampProc
  split_ifs with hlive <;> simp_all

/-- What `clockintr` does to one process: nothing but a wakeup outside a boost. -/
theorem getElem?_clockintr (mode : Mode)
    (hp : k.procs[i]? = some p) : ∃ p', (clockintr .mlfq k).procs[i]? = some p' ∧
      p'.killed = p.killed ∧
      (¬ boosts k (.timer mode) → p'.mlfqQueue = p.mlfqQueue) ∧
      (boosts k (.timer mode) → p'.state ≠ .unused → p'.state ≠ .zombie →
        p'.mlfqQueue = 0 ∧ p'.mlfqTicksUsed = 0) := by
  obtain ⟨q, hq, hkilled, hqueue, -⟩ := getElem?_wakeup (some .ticks)
    (k := { k with ticks := (k.ticks + 1) % uintSize }) hp
  by_cases hboost : boosts k (.timer mode)
  · have heq : clockintr .mlfq k =
        mlfqBoost (wakeup .mlfq (some .ticks) { k with ticks := (k.ticks + 1) % uintSize }) :=
      if_pos hboost.2
    obtain ⟨r, hr, hrk, hrs, hrq⟩ := getElem?_mlfqBoost hq
    exact ⟨r, heq ▸ hr, hrk.trans hkilled, fun hno ↦ absurd hboost hno,
      fun _ hunused hzombie ↦ hrq (hrs ▸ hunused) (hrs ▸ hzombie)⟩
  · have heq : clockintr .mlfq k =
        wakeup .mlfq (some .ticks) { k with ticks := (k.ticks + 1) % uintSize } :=
      if_neg fun hticks ↦ hboost ⟨rfl, hticks⟩
    exact ⟨q, heq ▸ hq, hkilled, fun _ ↦ hqueue, fun hyes ↦ absurd hyes hboost⟩

/-- `clockintr` leaves alone what decides whom the tick is charged to. -/
theorem charged_clockintr (h : Control k.procs k.cur) :
    charged (clockintr .mlfq k) (.timer mode) = charged k (.timer mode) := by
  have hsame : (clockintr .mlfq k).cur = k.cur := (nudges_clockintr .mlfq k).cur
  unfold charged
  rw [hsame]
  cases hcur : k.cur with
  | none => rfl
  | some i =>
    obtain ⟨p, hp⟩ := h.current i hcur
    obtain ⟨p', hp', hkilled, -⟩ := getElem?_clockintr mode hp
    simp only [hp, hp', hkilled]

/-! ### The refinement -/

/-- What one step of the kernel is in the abstract machine: a run that lifts entries only at a
boost, gives the processor only to the process that has it afterwards, and charges the tick of the
step to the process and the queue that the step charges it to. -/
structure Refines (k : Kernel) (e : Event) (k' : Kernel)
    (l : List (Transition (State ℕ) (Action ℕ))) : Prop where
  path : Path mlfqAct (view k) l (view k')
  run : ∀ tr ∈ l, ∀ i, tr.event = .run i → e = .dispatch ∧ k'.cur = some i
  lift : ∀ tr ∈ l, ∀ i, tr.event = .lift i → boosts k e
  charge : ¬ boosts k e → ∀ (i : ℕ) (p : Proc), charged k e = some i → k.procs[i]? = some p →
    ∃ tr ∈ l, chargedAt i p.mlfqQueue tr = true

theorem refines_of_quiet (h : QuietRun (view k) (view k'))
    (he : ∀ mode, e ≠ .timer mode) : ∃ l, Refines k e k' l := by
  obtain ⟨l, hl, hquiet⟩ := h
  refine ⟨l, hl, fun tr htr i hi ↦ absurd hi (hquiet tr htr i).1,
    fun tr htr i hi ↦ absurd hi (hquiet tr htr i).2.2.2, fun _ i p hi ↦ ?_⟩
  cases e <;> simp_all [charged]

theorem refines_timer (h : Control k.procs k.cur) :
    ∃ l, Refines k (.timer mode) (timerTrap .mlfq mode k) l := by
  obtain ⟨l, hl, hrun, hlift⟩ := path_clockintr mode k
  obtain ⟨m, hm, hquiet, hcharge⟩ := path_chargeTick mode (control_clockintr h)
  refine ⟨l ++ m, hl.append hm, fun tr htr i hi ↦ ?_, fun tr htr i hi ↦ ?_,
    fun hboost i p hi hp ↦ ?_⟩
  · rcases List.mem_append.mp htr with hmem | hmem
    · exact absurd hi (hrun tr hmem i)
    · exact absurd hi (hquiet tr hmem i).1
  · rcases List.mem_append.mp htr with hmem | hmem
    · exact hlift tr hmem i hi
    · exact absurd hi (hquiet tr hmem i).2
  · obtain ⟨p', hp', -, hqueue, -⟩ := getElem?_clockintr mode hp
    obtain ⟨tr, htr, hat⟩ := hcharge i p' ((charged_clockintr h).trans hi) hp'
    exact ⟨tr, List.mem_append_right _ htr, hqueue hboost ▸ hat⟩

/-- Every step of the kernel is a run of the feedback queue. -/
theorem refines_step (hstep : step .mlfq k e = some k')
    (h : Control k.procs k.cur) : ∃ l, Refines k e k' l := by
  rcases step_cases hstep with ⟨mode, rfl, -, rfl⟩ | ⟨chan, rfl, rfl⟩ |
    ⟨rfl, hcur, ⟨-, rfl⟩ | ⟨i, hpick, rfl⟩⟩ | ⟨i, p, hcur, hp, hproc⟩
  · exact refines_timer h
  · exact refines_of_quiet (quiet_wakeup _ k) (by simp)
  · exact refines_of_quiet (RunOf.refl _) (by simp)
  · refine ⟨_, Path.single (run_switchTo h hcur hpick), fun tr htr j hj ↦ ?_, by simp, ?_⟩
    · simp only [List.mem_singleton] at htr
      subst htr
      simp only [Action.run.injEq] at hj
      subst hj
      exact ⟨rfl, rfl⟩
    · simp [charged]
  · refine refines_of_quiet (quiet_procStep hproc h hcur hp) ?_
    rintro mode rfl
    cases hproc

end Irish.Xv6
