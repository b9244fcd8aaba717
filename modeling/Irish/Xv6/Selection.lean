import Irish.Xv6.Fairness

/-!
# Strict priority of the MLFQ build

What the two scans of the source decide: the nested scan of `scheduler`, which process runs next,
and the scan of `mlfq_tick_handler`, whether the process that a timer interrupt interrupted goes on.
Both look at the queues alone or at queues and sequence numbers; that they decide by a total order
comes from the representation invariant (`fields_of_valid`, `eq_of_enterSeq`), which bounds the
queues that `scheduler` has to look at and makes the sequence numbers distinct.
-/

set_option autoImplicit false

namespace Irish.Xv6

open Library Library.FeedbackQueue

/-- The order of the scheduler: first the queue, then the sequence number. -/
def Proc.Precedes (p q : Proc) : Prop :=
  p.mlfqQueue < q.mlfqQueue ∨ (p.mlfqQueue = q.mlfqQueue ∧ p.mlfqEnterSeq < q.mlfqEnterSeq)

variable {procs : List Proc} {queues : List ℕ} {p : Proc} {q i : ℕ} {k : Kernel} {mode : Mode}

/-- The loop over the queues comes back empty-handed only if nothing is queued in them. -/
theorem scanQueues_none (h : scanQueues procs queues = none) (hp : p ∈ procs)
    (hstate : p.state = .runnable) : p.mlfqQueue ∉ queues := by
  induction queues with
  | nil => exact List.not_mem_nil
  | cons q queues ih =>
    have hspec := scanQueue_spec q procs 0 none
    simp only [scanQueues] at h
    split at h
    · rename_i hscan
      rw [hscan] at hspec
      intro hmem
      rcases List.mem_cons.mp hmem with heq | hmem
      · exact hspec.2 p hp ⟨hstate, heq⟩
      · exact ih h hmem
    · -- The process that the scan finds passes the second check.
      rename_i best seq hscan
      rw [hscan] at hspec
      obtain ⟨j, r, hj, hr, hcheck, -⟩ := hspec.1.resolve_left (by simp)
      rw [Nat.zero_add] at hj
      subst hj
      rw [hr] at h
      simp [hcheck] at h

theorem mem_queues (h : q ≤ 3) : q ∈ [0, 1, 2, 3] := by
  simp only [List.mem_cons, List.not_mem_nil, or_false]
  omega

/-- The process that `scheduler` switches to precedes every other `RUNNABLE` one. -/
theorem precedes_of_pick (hvalid : Valid mlfqTimeslice 3 (view k)) (hpick : pick .mlfq k = some i) :
    ∃ p, k.procs[i]? = some p ∧ p.state = .runnable ∧ ∀ (j : ℕ) (q : Proc),
      k.procs[j]? = some q → q.state = .runnable → j ≠ i → p.Precedes q := by
  obtain ⟨p, hp, hstate, -, hfirst⟩ := scanQueues_first (by decide) hpick
  refine ⟨p, hp, hstate, fun j q hq hready hji ↦ ?_⟩
  have hpused : p.state ≠ .unused := by simp [hstate]
  have hqused : q.state ≠ .unused := by simp [hready]
  have hmin := hfirst q (List.mem_of_getElem? hq) hready
    (mem_queues (fields_of_valid hvalid hq hqused).1)
  have hne : p.mlfqEnterSeq ≠ q.mlfqEnterSeq := fun heq ↦
    hji (eq_of_enterSeq hvalid hp hq hpused hqused heq).symm
  unfold Proc.Precedes
  omega

theorem not_runnable_of_pick (hvalid : Valid mlfqTimeslice 3 (view k)) (hpick : pick .mlfq k = none)
    (hp : k.procs[i]? = some p) : p.state ≠ .runnable := by
  intro hstate
  refine scanQueues_none hpick (List.mem_of_getElem? hp) hstate (mem_queues ?_)
  exact (fields_of_valid hvalid hp (by simp [hstate])).1

/-- No `RUNNABLE` process is in a higher-priority queue than the process in a slot. -/
def Highest (k : Kernel) (i : ℕ) : Prop :=
  ∀ (p : Proc), k.procs[i]? = some p → ∀ (j : ℕ) (q : Proc), k.procs[j]? = some q →
    q.state = .runnable → p.mlfqQueue ≤ q.mlfqQueue

/-- A timer interrupt that charges a process and returns to it. -/
theorem highest_timerTrap (hcontrol : Control k.procs k.cur)
    (hcharged : charged k (.timer mode) = some i) (hcur : (timerTrap .mlfq mode k).cur = some i) :
    Highest (timerTrap .mlfq mode k) i := by
  have hclock := control_clockintr (b := .mlfq) hcontrol
  rw [← charged_clockintr hcontrol] at hcharged
  obtain ⟨p, hp⟩ := hclock.current i (cur_of_charged hcharged)
  unfold timerTrap at hcur ⊢
  generalize clockintr .mlfq k = c at hcharged hp hcur ⊢
  rw [chargeTick_of_charged hcharged hp] at hcur ⊢
  split_ifs at hcur ⊢ with hyield
  · cases hcur
  · -- The handler has scanned the table and found nothing.
    simp only [mlfqTickHandler] at hyield ⊢
    split_ifs at hyield ⊢ with hexpire
    · simp at hyield
    · simp only [Bool.not_eq_true, Bool.or_eq_false_iff] at hyield
      obtain ⟨-, hscan⟩ := hyield
      intro p' hp' j q hq hready
      have hqueue : p'.mlfqQueue = p.mlfqQueue := by
        rw [procs_modify, List.getElem?_modify_eq, hp] at hp'
        obtain rfl : chargeFields p = p' := by simpa using hp'
        rfl
      have hnot := List.any_eq_false.mp hscan q (List.mem_of_getElem? hq)
      have hlt : ¬ q.mlfqQueue < p.mlfqQueue := by simpa [hready] using hnot
      omega

theorem highest_switchTo (hvalid : Valid mlfqTimeslice 3 (view k)) (hpick : pick .mlfq k = some i) :
    Highest (switchTo i k) i := by
  obtain ⟨p, hp, -, hfirst⟩ := precedes_of_pick hvalid hpick
  intro p' hp' j q hq hready
  simp only [switchTo, procs_modify, modify_eq_set hp] at hp' hq
  cases (getElem?_set_eq hp).symm.trans hp'
  rcases getElem?_set_cases hq with ⟨-, rfl⟩ | ⟨hji, hq⟩
  · cases hready
  · have hprecedes := hfirst j q hq hready hji
    unfold Proc.Precedes at hprecedes
    show p.mlfqQueue ≤ q.mlfqQueue
    omega

/-- Strict priority, in every reachable state of the MLFQ build. An iteration of `scheduler` picks
the one `RUNNABLE` process that precedes all others, and idles only if there is none. When a timer
interrupt goes back to the process it interrupted, and when a process is dispatched, nobody waits in
a higher-priority queue. -/
theorem mlfq_strict_priority {k : Kernel} (h : Reachable (step .mlfq) (boot .mlfq) k) :
    (∀ i, pick .mlfq k = some i → ∃ p, k.procs[i]? = some p ∧ p.state = .runnable ∧
      ∀ (j : ℕ) (q : Proc), k.procs[j]? = some q → q.state = .runnable → j ≠ i → p.Precedes q) ∧
    (pick .mlfq k = none → ∀ (i : ℕ) (p : Proc), k.procs[i]? = some p → p.state ≠ .runnable) ∧
    ∀ (e : Event) (k' : Kernel) (i : ℕ), step .mlfq k e = some k' → k'.cur = some i →
      e = .dispatch ∨ charged k e = some i → Highest k' i := by
  have hvalid := valid_reachable h
  have hcontrol := control_reachable h
  refine ⟨fun i hpick ↦ precedes_of_pick hvalid hpick,
    fun hpick i p hp ↦ not_runnable_of_pick hvalid hpick hp, fun e k' i hstep hcur hwhen ↦ ?_⟩
  rcases step_cases hstep with ⟨mode, rfl, -, rfl⟩ | ⟨chan, rfl, rfl⟩ |
    ⟨rfl, hidle, ⟨-, rfl⟩ | ⟨j, hpick, rfl⟩⟩ | ⟨j, p, -, -, hproc⟩
  · refine highest_timerTrap hcontrol (hwhen.resolve_left (by simp)) hcur
  · rcases hwhen with h | h <;> cases h
  · cases hidle.symm.trans hcur
  · cases hcur
    exact highest_switchTo hvalid hpick
  · rcases hwhen with rfl | h
    · cases hproc
    · cases e with
      | timer => cases hproc
      | _ => cases h

/-- A tick ends the slice of `init`, while its child waits in queue 0. -/
def expiredKernel : Kernel := (replay (step .mlfq) forkedKernel [.timer .user]).2

theorem reachable_expiredKernel : Reachable (step .mlfq) (boot .mlfq) expiredKernel :=
  reachable_forkedKernel.trans_path (path_replay _ _)

theorem mlfq_strict_priority_expiredKernel :
    pick .mlfq expiredKernel = some 1 ∧
      (∃ p, expiredKernel.procs[1]? = some p ∧ p.state = .runnable ∧
        ∀ (j : ℕ) (q : Proc), expiredKernel.procs[j]? = some q → q.state = .runnable → j ≠ 1 →
          p.Precedes q) ∧
      ∀ k', step .mlfq expiredKernel .dispatch = some k' → k'.cur = some 1 → Highest k' 1 := by
  have hpick : pick .mlfq expiredKernel = some 1 := by decide +kernel
  obtain ⟨hfirst, -, hhighest⟩ := mlfq_strict_priority reachable_expiredKernel
  exact ⟨hpick, hfirst 1 hpick, fun k' hstep hcur ↦ hhighest .dispatch k' 1 hstep hcur (.inl rfl)⟩

end Irish.Xv6
