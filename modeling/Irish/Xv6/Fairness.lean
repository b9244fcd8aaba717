import Irish.Xv6.Mlfq

/-!
# Invariant and fairness of the MLFQ build

The results of the abstract feedback queue, read back on the process table. In every state that the
kernel reaches from boot, the scheduling fields of every process are in range and their order is
total. On any stretch of a run without a boost, a process that waits in a queue sees every other
process charged at most one slice of that queue.
-/

set_option autoImplicit false

namespace Irish.Xv6

open Library Library.FeedbackQueue

/-! ### The representation invariant -/

variable {q i j r : ℕ} {k k' : Kernel} {p : Proc} {e : Event} {tr : Transition (State ℕ) (Action ℕ)}
  {l : List (Transition Kernel Event)}

theorem mlfqTimeslice_pos (hq : q ≤ 3) : 0 < mlfqTimeslice q := by
  have hcases : q = 0 ∨ q = 1 ∨ q = 2 ∨ q = 3 := by omega
  rcases hcases with rfl | rfl | rfl | rfl <;> decide

theorem valid_boot : Valid mlfqTimeslice 3 (view (boot .mlfq)) := by
  -- The first process is the only one.
  have hprocs : ∀ x ∈ (boot .mlfq).procs.zipIdx, x.1.state ≠ .unused →
      x.2 = 0 ∧ x.1.state = .runnable ∧ x.1.mlfqQueue = 0 ∧ x.1.mlfqTicksUsed = 0 ∧
        x.1.mlfqEnterSeq = 1 := by decide +kernel
  have hfirst (i : ℕ) (hi : ((view (boot .mlfq)).entry i).phase ≠ .absent) :
      i = 0 ∧ (view (boot .mlfq)).entry i = ⟨.ready, 0, 0, 1⟩ := by
    obtain ⟨p, hp⟩ := exists_of_phase rfl hi
    rw [view, entry_viewOf hp] at hi ⊢
    have hused : p.state ≠ .unused := by
      rwa [phase_entryOf, ne_eq, phaseOf_eq_absent] at hi
    obtain ⟨hi0, hstate, hqueue, hticks, hseq⟩ :=
      hprocs (p, i) (List.mk_mem_zipIdx_iff_getElem?.mpr hp) hused
    refine ⟨hi0, ?_⟩
    rw [entryOf_of_used hused, hstate, hqueue, hticks, hseq]
    rfl
  have hcounter : (view (boot .mlfq)).counter = 1 := rfl
  constructor
  · intro i hi
    rw [(hfirst i hi).2, hcounter]
    decide
  · intro i j hi hj _
    rw [(hfirst i hi).1, (hfirst j hj).1]
  · intro i j hi _
    have hrun := (hfirst i (by rw [hi]; simp)).2
    rw [hrun] at hi
    cases hi

theorem valid_step (hstep : step .mlfq k e = some k') (hcontrol : Control k.procs k.cur)
    (h : Valid mlfqTimeslice 3 (view k)) : Valid mlfqTimeslice 3 (view k') := by
  obtain ⟨l, hrefines⟩ := refines_step hstep hcontrol
  exact hrefines.path.preserves (fun _ _ _ hact hs ↦ hs.act (fun _ ↦ mlfqTimeslice_pos) hact) h

theorem valid_reachable (h : Reachable (step .mlfq) (boot .mlfq) k) :
    Valid mlfqTimeslice 3 (view k) := by
  have hboth := h.invariant
    (I := fun k ↦ Control k.procs k.cur ∧ Valid mlfqTimeslice 3 (view k))
    ⟨control_boot .mlfq, valid_boot⟩
    fun _ _ _ hstep hk ↦ ⟨control_step hstep hk.1, valid_step hstep hk.1 hk.2⟩
  exact hboth.2

theorem entry_view (hp : k.procs[i]? = some p) (hused : p.state ≠ .unused) :
    (view k).entry i = ⟨phaseOf p.state, p.mlfqQueue, p.mlfqTicksUsed, p.mlfqEnterSeq⟩ :=
  (entry_viewOf hp _).trans (entryOf_of_used hused)

theorem phase_view_ne_absent (hp : k.procs[i]? = some p)
    (hused : p.state ≠ .unused) : ((view k).entry i).phase ≠ .absent := by
  rw [entry_view hp hused]
  exact fun habsent ↦ hused (phaseOf_eq_absent.mp habsent)

theorem fields_of_valid (h : Valid mlfqTimeslice 3 (view k)) (hp : k.procs[i]? = some p)
    (hused : p.state ≠ .unused) :
    p.mlfqQueue ≤ 3 ∧ p.mlfqTicksUsed < mlfqTimeslice p.mlfqQueue ∧
      0 < p.mlfqEnterSeq ∧ p.mlfqEnterSeq ≤ k.mlfqGlobalSeq := by
  have hok := h.entry_ok i (phase_view_ne_absent hp hused)
  rwa [entry_view hp hused] at hok

theorem eq_of_enterSeq (h : Valid mlfqTimeslice 3 (view k)) {q : Proc} (hp : k.procs[i]? = some p)
    (hq : k.procs[j]? = some q) (hpused : p.state ≠ .unused) (hqused : q.state ≠ .unused)
    (hseq : p.mlfqEnterSeq = q.mlfqEnterSeq) : i = j := by
  refine h.distinct i j (phase_view_ne_absent hp hpused) (phase_view_ne_absent hq hqused) ?_
  rwa [entry_view hp hpused, entry_view hq hqused]

/-- The representation invariant of the MLFQ build: in every reachable state every process in use
has a queue, has used less than the slice of that queue, and has a sequence number that has been
drawn and that no other process in use has. -/
theorem mlfq_fields_ok {k : Kernel} (h : Reachable (step .mlfq) (boot .mlfq) k) :
    (∀ (i : ℕ) (p : Proc), k.procs[i]? = some p → p.state ≠ .unused →
      p.mlfqQueue ≤ 3 ∧ p.mlfqTicksUsed < mlfqTimeslice p.mlfqQueue ∧
        0 < p.mlfqEnterSeq ∧ p.mlfqEnterSeq ≤ k.mlfqGlobalSeq) ∧
    ∀ (i j : ℕ) (p q : Proc), k.procs[i]? = some p → k.procs[j]? = some q →
      p.state ≠ .unused → q.state ≠ .unused → p.mlfqEnterSeq = q.mlfqEnterSeq → i = j := by
  have hvalid := valid_reachable h
  refine ⟨fun i p hp hused ↦ fields_of_valid hvalid hp hused, ?_⟩
  intro i j p q hp hq hpused hqused hseq
  exact eq_of_enterSeq hvalid hp hq hpused hqused hseq

/-- `init` is dispatched and forks. -/
def forkEvents : List Event :=
  [.dispatch, .forkAlloc ⟨true, true, true⟩, .forkLink, .forkRunnable]

def forkedKernel : Kernel := (replay (step .mlfq) (boot .mlfq) forkEvents).2

theorem reachable_forkedKernel : Reachable (step .mlfq) (boot .mlfq) forkedKernel :=
  ⟨_, path_replay _ _⟩

theorem mlfq_fields_ok_forkedKernel :
    (forkedKernel.procs[1]?.map (·.state) = some .runnable) ∧
      ∀ (i j : ℕ) (p q : Proc), forkedKernel.procs[i]? = some p → forkedKernel.procs[j]? = some q →
        p.state ≠ .unused → q.state ≠ .unused → p.mlfqEnterSeq = q.mlfqEnterSeq → i = j :=
  ⟨by decide +kernel, (mlfq_fields_ok reachable_forkedKernel).2⟩

/-! ### Runs without a boost -/

/-- The transition charges a tick to a process that is in a queue. -/
def chargedIn (r q : ℕ) (tr : Transition Kernel Event) : Bool :=
  charged tr.source tr.event = some r ∧ (tr.source.procs[r]?.map (·.mlfqQueue)) = some q

/-- The transition is the scheduler's switch to a process. -/
def dispatches (p : ℕ) (tr : Transition Kernel Event) : Prop :=
  tr.event = .dispatch ∧ tr.target.cur = some p

instance (p : ℕ) (tr : Transition Kernel Event) : Decidable (dispatches p tr) :=
  inferInstanceAs (Decidable (_ ∧ _))

/-- The transition charges a tick to some process. -/
def isCharged (tr : Transition Kernel Event) : Bool := (charged tr.source tr.event).isSome

theorem isCharge_of_chargedAt (h : chargedAt r q tr = true) : isCharge tr = true := by
  simp only [chargedAt, decide_eq_true_eq] at h
  rcases h.1 with he | he <;> simp [isCharge, he]

/-- A run of the kernel without a boost is a run of the feedback queue without a lift. It gives the
processor only to processes that the scheduler dispatches and charges at least the same ticks. -/
theorem refines_path (hpath : Path (step .mlfq) k l k') (hcontrol : Control k.procs k.cur)
    (hboost : ∀ tr ∈ l, ¬ boosts tr.source tr.event) :
    ∃ m, Path mlfqAct (view k) m (view k') ∧ (∀ tr ∈ m, ∀ i, tr.event ≠ .lift i) ∧
      (∀ tr ∈ m, ∀ i, tr.event = .run i → ∃ t ∈ l, dispatches i t) ∧
      (∀ r q, l.countP (chargedIn r q) ≤ m.countP (chargedAt r q)) ∧
      l.countP isCharged ≤ m.countP isCharge := by
  induction hpath with
  | nil => exact ⟨[], .nil _, by simp, by simp, by simp, by simp⟩
  | @cons k t _ e _ hstep _ ih =>
    obtain ⟨m, hm, hlift, hrun, hcharge, hcount⟩ := ih (control_step hstep hcontrol)
      fun tr htr ↦ hboost tr (List.mem_cons_of_mem _ htr)
    have hhead : ¬ boosts k e := hboost _ List.mem_cons_self
    obtain ⟨w, hw⟩ := refines_step hstep hcontrol
    -- A charge of this step is one of the actions of its run.
    have hone (r q : ℕ) (h : chargedIn r q ⟨k, e, t⟩ = true) :
        ∃ tr ∈ w, chargedAt r q tr = true := by
      simp only [chargedIn, decide_eq_true_eq, Option.map_eq_some_iff] at h
      obtain ⟨hr, p, hp, rfl⟩ := h
      exact hw.charge hhead r p hr hp
    have hany (h : isCharged ⟨k, e, t⟩ = true) : ∃ tr ∈ w, isCharge tr = true := by
      obtain ⟨r, hr⟩ := Option.isSome_iff_exists.mp h
      obtain ⟨p, hp⟩ := hcontrol.current r (cur_of_charged hr)
      obtain ⟨tr, htr, hat⟩ := hw.charge hhead r p hr hp
      exact ⟨tr, htr, isCharge_of_chargedAt hat⟩
    refine ⟨w ++ m, hw.path.append hm, fun tr htr i ↦ ?_, fun tr htr i hi ↦ ?_, fun r q ↦ ?_, ?_⟩
    · rcases List.mem_append.mp htr with hmem | hmem
      · exact fun hi ↦ hhead (hw.lift tr hmem i hi)
      · exact hlift tr hmem i
    · rcases List.mem_append.mp htr with hmem | hmem
      · exact ⟨_, List.mem_cons_self, hw.run tr hmem i hi⟩
      · obtain ⟨s, hs, hdispatch⟩ := hrun tr hmem i hi
        exact ⟨s, List.mem_cons_of_mem _ hs, hdispatch⟩
    · rw [List.countP_append, List.countP_cons]
      have hrest := hcharge r q
      split_ifs with hr
      · have hpos : 0 < w.countP (chargedAt r q) := List.countP_pos_iff.mpr (hone r q hr)
        omega
      · omega
    · rw [List.countP_append, List.countP_cons]
      split_ifs with hr
      · have hpos : 0 < w.countP isCharge := List.countP_pos_iff.mpr (hany hr)
        omega
      · omega

/-- The process in a slot is `RUNNABLE` in a queue. -/
def RunnableIn (p q : ℕ) (k : Kernel) : Prop :=
  ∃ r, k.procs[p]? = some r ∧ r.state = .runnable ∧ r.mlfqQueue = q

instance (p q : ℕ) (k : Kernel) : Decidable (RunnableIn p q k) :=
  decidable_of_iff ((k.procs[p]?.any fun r ↦ r.state = .runnable ∧ r.mlfqQueue = q) = true) (by
    unfold RunnableIn
    cases k.procs[p]? <;> simp)

theorem waiting_of_runnableIn {p : ℕ} (h : RunnableIn p q k) : Waiting p q (view k) := by
  obtain ⟨r, hr, hstate, hqueue⟩ := h
  unfold Waiting view
  rw [entry_viewOf hr, entryOf_of_used (by simp [hstate]), hstate]
  exact ⟨rfl, hqueue⟩

/-- Fairness inside a queue: on any stretch of a run without a boost on which a process stays
`RUNNABLE` in a queue, any other process is charged at most one slice there. -/
theorem charges_le_timeslice {k k' : Kernel} {l : List (Transition Kernel Event)} {p q r : ℕ}
    (hreach : Reachable (step .mlfq) (boot .mlfq) k) (hpath : Path (step .mlfq) k l k')
    (hboost : ∀ tr ∈ l, ¬ boosts tr.source tr.event)
    (hwait : ∀ tr ∈ l, RunnableIn p q tr.source ∧ RunnableIn p q tr.target) (hne : r ≠ p) :
    l.countP (chargedIn r q) ≤ mlfqTimeslice q := by
  cases hpath with
  | nil => simp
  | @cons _ t _ e l hstep hrest =>
    have hcontrol := control_reachable hreach
    have hpath : Path (step .mlfq) k (⟨k, e, t⟩ :: l) k' := .cons hstep hrest
    obtain ⟨m, hm, hlift, hrun, hcharge, -⟩ := refines_path hpath hcontrol hboost
    have hstart : Waiting p q (view k) :=
      waiting_of_runnableIn (hwait _ List.mem_cons_self).1
    -- The waiting process is never the one that gets the processor.
    have hnever (tr) (htr : tr ∈ m) : tr.event ≠ .run p := by
      intro hp
      obtain ⟨s, hs, -, hcur⟩ := hrun tr htr p hp
      obtain ⟨x, hx, hstate, -⟩ := (hwait s hs).2
      obtain ⟨before, after, hsplit⟩ := List.append_of_mem hs
      rw [hsplit] at hpath
      obtain ⟨u, hbefore, hafter⟩ := hpath.split
      cases hafter with
      | cons hst _ =>
        have hc := control_step hst (control_reachable (hreach.trans_path hbefore))
        rw [(hc.running p x hx).mpr hcur] at hstate
        cases hstate
    have hwaiting := (waiting_path hm hstart fun tr htr ↦ ⟨hnever tr htr, hlift tr htr p⟩).1
    exact (hcharge r q).trans (charges_le_slice (fun _ ↦ mlfqTimeslice_pos)
      (valid_reachable hreach) hm hstart hwaiting hlift hne)

/-- While the forked child waits in queue 0, its parent is charged one tick there. -/
theorem charges_le_timeslice_forkedKernel :
    (replay (step .mlfq) forkedKernel [.timer .user]).1.countP (chargedIn 0 0) = 1 ∧
      (replay (step .mlfq) forkedKernel [.timer .user]).1.countP (chargedIn 0 0) ≤
        mlfqTimeslice 0 :=
  ⟨by decide +kernel, charges_le_timeslice (p := 1) reachable_forkedKernel (path_replay _ _)
    (by decide +kernel) (by decide +kernel) (by decide)⟩

end Irish.Xv6
