import Irish.Library.Run
import Mathlib.Data.Finset.Card

/-!
# The multi-level feedback queue

An abstract scheduler with one processor. An entry is in one of finitely many levels, the lowest
first, and carries the ticks it has used of its slice and a stamp drawn from a counter; the entries
of a level are queued by stamp. A tick is charged to the running entry (`charge`), and when it uses
up the slice of its level the entry goes to the tail of the next level (`expire`). An entry that
blocks keeps its level and comes back at the tail of it (`block`, `wake`). `lift` puts an entry back
at the tail of level zero. Which entry runs is not chosen by a scan but stated: no ready entry comes
before it (`Before`).

`Valid` is the representation invariant and `Valid.act` says that every action keeps it.
`charges_le_slice` is the fairness of one level: while an entry waits in a level, any other entry is
charged at most one slice there. `charges_le_card` bounds the wait of an entry in level zero when
that level has slices of one tick: the ticks charged while it waits are at most the entries that are
ahead of it at the start.
-/

set_option autoImplicit false

namespace Irish.Library.FeedbackQueue

open Function (update update_of_ne update_self)

/-- Where an entry is in its life. A `starting` entry is in a level but may not run yet, and a
`finished` one may not run any more. -/
inductive Phase
  | absent
  | starting
  | ready
  | running
  | blocked
  | finished
deriving DecidableEq

structure Entry where
  phase : Phase
  level : ℕ
  used : ℕ
  stamp : ℕ

/-- The entry of a slot that nobody uses. -/
def Entry.empty : Entry := ⟨.absent, 0, 0, 0⟩

structure State (ι : Type*) where
  entry : ι → Entry
  counter : ℕ

inductive Action (ι : Type*)
  | enter (i : ι)
  | publish (i : ι)
  | run (i : ι)
  | charge (i : ι)
  | preempt (i : ι)
  | expire (i : ι)
  | block (i : ι)
  | wake (i : ι)
  | lift (i : ι)
  | finish (i : ι)
  | forget (i : ι)
deriving DecidableEq

section Machine

variable {ι : Type*} [DecidableEq ι] (slice : ℕ → ℕ) (top : ℕ)

/-- Overwrite an entry. -/
def State.put (s : State ι) (i : ι) (e : Entry) : State ι :=
  { s with entry := update s.entry i e }

/-- Overwrite an entry and give it the next stamp. -/
def State.restamp (s : State ι) (i : ι) (e : Entry) : State ι where
  entry := update s.entry i { e with stamp := s.counter + 1 }
  counter := s.counter + 1

/-- The order in which ready entries get the processor. -/
def Before (a b : Entry) : Prop := a.level < b.level ∨ (a.level = b.level ∧ a.stamp < b.stamp)

/-- When an action is possible. -/
def Guard (s : State ι) : Action ι → Prop
  | .enter i => (s.entry i).phase = .absent
  | .publish i => (s.entry i).phase = .starting
  | .run i => (s.entry i).phase = .ready ∧ (∀ j, (s.entry j).phase ≠ .running) ∧
      ∀ j, (s.entry j).phase = .ready → ¬ Before (s.entry j) (s.entry i)
  | .charge i => (s.entry i).phase = .running ∧
      (s.entry i).used + 1 < slice (s.entry i).level
  | .preempt i => (s.entry i).phase = .running
  | .expire i => (s.entry i).phase = .running ∧
      slice (s.entry i).level ≤ (s.entry i).used + 1
  | .block i => (s.entry i).phase = .running
  | .wake i => (s.entry i).phase = .blocked
  | .lift i => (s.entry i).phase ≠ .absent ∧ (s.entry i).phase ≠ .finished
  | .finish i => (s.entry i).phase = .running
  | .forget i => (s.entry i).phase = .finished ∨ (s.entry i).phase = .starting

/-- The level after a slice is used up. -/
def demoted (level : ℕ) : ℕ := if level < top then level + 1 else level

/-- The effect of an action. -/
def effect (s : State ι) : Action ι → State ι
  | .enter i => s.restamp i ⟨.starting, 0, 0, 0⟩
  | .publish i => s.put i { s.entry i with phase := .ready }
  | .run i => s.put i { s.entry i with phase := .running }
  | .charge i => s.put i { s.entry i with used := (s.entry i).used + 1 }
  | .preempt i => s.put i { s.entry i with phase := .ready }
  | .expire i => s.restamp i ⟨.ready, demoted top (s.entry i).level, 0, 0⟩
  | .block i => s.put i { s.entry i with phase := .blocked, used := 0 }
  | .wake i => s.restamp i { s.entry i with phase := .ready }
  | .lift i => s.restamp i { s.entry i with level := 0, used := 0 }
  | .finish i => s.put i { s.entry i with phase := .finished }
  | .forget i => s.put i .empty

open scoped Classical in
/-- The machine as a partial step function. -/
noncomputable def act (s : State ι) (a : Action ι) : Option (State ι) :=
  if Guard slice s a then some (effect top s a) else none

variable {slice top} {s t u : State ι} {a : Action ι} {i j p r : ι} {e : Entry}
  {c q counter level bound : ℕ} {β : Type*} {f : ι → β} {b : β}
  {l : List (Transition (State ι) (Action ι))} {rivals : Finset ι}

theorem act_eq_some_iff : act slice top s a = some t ↔ Guard slice s a ∧ effect top s a = t := by
  unfold act
  split_ifs with h
  · simp [h]
  · simp [h]

@[simp] theorem entry_put_self (s : State ι) (i : ι) (e : Entry) : (s.put i e).entry i = e := by
  simp [State.put]

@[simp] theorem entry_put_of_ne (s : State ι) (e : Entry) (h : j ≠ i) :
    (s.put i e).entry j = s.entry j := by
  simp [State.put, h]

@[simp] theorem counter_put (s : State ι) (i : ι) (e : Entry) : (s.put i e).counter = s.counter :=
  rfl

@[simp] theorem entry_restamp_self (s : State ι) (i : ι) (e : Entry) :
    (s.restamp i e).entry i = { e with stamp := s.counter + 1 } := by
  simp [State.restamp]

@[simp] theorem entry_restamp_of_ne (s : State ι) (e : Entry) (h : j ≠ i) :
    (s.restamp i e).entry j = s.entry j := by
  simp [State.restamp, h]

@[simp] theorem counter_restamp (s : State ι) (i : ι) (e : Entry) :
    (s.restamp i e).counter = s.counter + 1 := rfl

/-- The actions that neither give the processor away, nor charge a tick, nor lift an entry. -/
def Action.Quiet (a : Action ι) : Prop :=
  ∀ i, a ≠ .run i ∧ a ≠ .charge i ∧ a ≠ .expire i ∧ a ≠ .lift i

/-- The entry an action is about. -/
def Action.slot : Action ι → ι
  | .enter i | .publish i | .run i | .charge i | .preempt i | .expire i | .block i | .wake i
  | .lift i | .finish i | .forget i => i

theorem entry_effect_of_ne (h : j ≠ a.slot) : (effect top s a).entry j = s.entry j := by
  cases a <;> simp only [Action.slot] at h <;> simp [effect, h]

/-! ### The representation invariant -/

/-- The bounds on one entry that is in use: a level of the queue, less than its slice used, and a
stamp that has been drawn. -/
def EntryOk (slice : ℕ → ℕ) (top counter : ℕ) (e : Entry) : Prop :=
  e.phase ≠ .absent →
    e.level ≤ top ∧ e.used < slice e.level ∧ 0 < e.stamp ∧ e.stamp ≤ counter

structure Valid (slice : ℕ → ℕ) (top : ℕ) (s : State ι) : Prop where
  entry_ok : ∀ i, EntryOk slice top s.counter (s.entry i)
  distinct : ∀ i j, (s.entry i).phase ≠ .absent → (s.entry j).phase ≠ .absent →
    (s.entry i).stamp = (s.entry j).stamp → i = j
  one_running : ∀ i j, (s.entry i).phase = .running → (s.entry j).phase = .running → i = j

/-- If no two elements of a family are related, the family with one of them replaced has the same
property as soon as the new element is unrelated to the others. -/
theorem eq_of_update {r : β → β → Prop} (hsymm : ∀ a b, r a b → r b a)
    (hf : ∀ j l, r (f j) (f l) → j = l) (hb : ∀ j, j ≠ i → ¬ r b (f j)) {l : ι}
    (h : r (update f i b j) (update f i b l)) : j = l := by
  by_cases hji : j = i
  · by_cases hli : l = i
    · rw [hji, hli]
    · rw [hji, update_self, update_of_ne hli] at h
      exact absurd h (hb l hli)
  · rw [update_of_ne hji] at h
    by_cases hli : l = i
    · rw [hli, update_self] at h
      exact absurd (hsymm _ _ h) (hb j hji)
    · rw [update_of_ne hli] at h
      exact hf j l h

/-- Overwriting one entry keeps the table valid when the new entry is within its bounds, keeps its
stamp or has a fresh one, and is not a second running entry. -/
theorem Valid.update (h : Valid slice top s) (hcounter : s.counter ≤ counter)
    (hok : EntryOk slice top counter e) (hstamp : e.phase ≠ .absent →
      ((s.entry i).phase ≠ .absent ∧ e.stamp = (s.entry i).stamp) ∨ s.counter < e.stamp)
    (hrun : e.phase = .running → ∀ j, j ≠ i → (s.entry j).phase ≠ .running) :
    Valid slice top ⟨update s.entry i e, counter⟩ := by
  constructor
  · intro j
    rcases eq_or_ne j i with rfl | hji
    · simpa using hok
    · simp only [update_of_ne hji]
      intro hactive
      obtain ⟨hlevel, hused, hpos, hle⟩ := h.entry_ok j hactive
      exact ⟨hlevel, hused, hpos, hle.trans hcounter⟩
  · intro j l hj hl heq
    refine eq_of_update (f := s.entry)
      (r := fun a b : Entry ↦ a.phase ≠ .absent ∧ b.phase ≠ .absent ∧ a.stamp = b.stamp)
      (fun _ _ hab ↦ ⟨hab.2.1, hab.1, hab.2.2.symm⟩)
      (fun j l hjl ↦ h.distinct j l hjl.1 hjl.2.1 hjl.2.2) ?_ ⟨hj, hl, heq⟩
    rintro j hj ⟨he, hactive, heq⟩
    rcases hstamp he with ⟨hold, hkeep⟩ | hfresh
    · exact hj (h.distinct j i hactive hold (heq.symm.trans hkeep))
    · have hle := (h.entry_ok j hactive).2.2.2
      omega
  · intro j l hj hl
    exact eq_of_update (f := s.entry)
      (r := fun a b : Entry ↦ a.phase = .running ∧ b.phase = .running)
      (fun _ _ hab ↦ hab.symm) (fun j l hjl ↦ h.one_running j l hjl.1 hjl.2)
      (fun j hj hej ↦ hrun hej.1 j hj hej.2) ⟨hj, hl⟩

theorem Valid.put (h : Valid slice top s) (hold : (s.entry i).phase ≠ .absent)
    (hlevel : e.level ≤ top) (hused : e.used < slice e.level) (hstamp : e.stamp = (s.entry i).stamp)
    (hrun : e.phase = .running → ∀ j, j ≠ i → (s.entry j).phase ≠ .running) :
    Valid slice top (s.put i e) := by
  obtain ⟨-, -, hpos, hle⟩ := h.entry_ok i hold
  exact h.update (le_refl _) (fun _ ↦ ⟨hlevel, hused, hstamp ▸ hpos, hstamp ▸ hle⟩)
    (fun _ ↦ .inl ⟨hold, hstamp⟩) hrun

theorem Valid.restamp (h : Valid slice top s) (hlevel : e.level ≤ top)
    (hused : e.used < slice e.level) (hrun : e.phase = .running → (s.entry i).phase = .running) :
    Valid slice top (s.restamp i e) :=
  h.update (Nat.le_succ _) (fun _ ↦ ⟨hlevel, hused, Nat.succ_pos _, le_refl _⟩)
    (fun _ ↦ .inr (Nat.lt_succ_self _))
    fun he j hj hrunning ↦ hj (h.one_running j i hrunning (hrun he))

theorem demoted_le (h : level ≤ top) : demoted top level ≤ top := by
  unfold demoted
  split_ifs with hlt
  · exact hlt
  · exact h

/-- Every action keeps the representation invariant. Assumes: no level has an empty slice. -/
theorem Valid.act (hslice : ∀ q ≤ top, 0 < slice q) (h : Valid slice top s)
    (hact : act slice top s a = some t) : Valid slice top t := by
  obtain ⟨hguard, rfl⟩ := act_eq_some_iff.mp hact
  -- The bounds of an entry that is in use before the action.
  have hok (i : ι) (hi : (s.entry i).phase ≠ .absent) := h.entry_ok i hi
  cases a with
  | enter => exact h.restamp (Nat.zero_le _) (hslice 0 (Nat.zero_le _)) (by simp)
  | publish i | preempt i | finish i =>
    have hi : (s.entry i).phase ≠ .absent := by rw [hguard]; simp
    exact h.put hi (hok i hi).1 (hok i hi).2.1 rfl (by simp)
  | run i =>
    have hi : (s.entry i).phase ≠ .absent := by rw [hguard.1]; simp
    exact h.put hi (hok i hi).1 (hok i hi).2.1 rfl fun _ j _ ↦ hguard.2.1 j
  | charge i =>
    have hi : (s.entry i).phase ≠ .absent := by rw [hguard.1]; simp
    exact h.put hi (hok i hi).1 hguard.2 rfl
      fun _ j hj hrunning ↦ hj (h.one_running j i hrunning hguard.1)
  | expire i =>
    have hi : (s.entry i).phase ≠ .absent := by rw [hguard.1]; simp
    have hlevel := demoted_le (hok i hi).1
    exact h.restamp hlevel (hslice _ hlevel) (by simp)
  | block i =>
    have hi : (s.entry i).phase ≠ .absent := by rw [hguard]; simp
    exact h.put hi (hok i hi).1 (hslice _ (hok i hi).1) rfl (by simp)
  | wake i =>
    have hi : (s.entry i).phase ≠ .absent := by rw [hguard]; simp
    exact h.restamp (hok i hi).1 (hok i hi).2.1 (by simp)
  | lift => exact h.restamp (Nat.zero_le _) (hslice 0 (Nat.zero_le _)) id
  | forget =>
    exact h.update (le_refl _) (fun he ↦ absurd rfl he) (fun he ↦ absurd rfl he)
      (by simp [Entry.empty])

/-! ### The head of a level -/

/-- An entry gets a stamp that is behind every other one of the table. -/
theorem stamp_lt_of_act (hvalid : Valid slice top s) (hact : act slice top s a = some t)
    (hs : (s.entry i).phase ≠ .absent) (ht : (t.entry i).phase ≠ .absent)
    (hne : (t.entry i).stamp ≠ (s.entry i).stamp) (hji : j ≠ i) (hj : (t.entry j).phase ≠ .absent) :
    (t.entry j).stamp < (t.entry i).stamp := by
  obtain ⟨hguard, rfl⟩ := act_eq_some_iff.mp hact
  have hslot : a.slot = i := by
    by_contra hslot
    rw [entry_effect_of_ne (Ne.symm hslot)] at hne
    exact hne rfl
  subst hslot
  have hother : (effect top s a).entry j = s.entry j := entry_effect_of_ne hji
  rw [hother] at hj ⊢
  have hle := (hvalid.entry_ok j hj).2.2.2
  cases a with
  | enter | expire | wake | lift => simpa [effect, Action.slot] using Nat.lt_succ_of_le hle
  | forget => exact absurd (by simp [effect, Action.slot, Entry.empty]) ht
  | _ => exact absurd (by simp [effect, Action.slot]) hne

/-- An entry that is being started is in level zero, and one that runs below level zero is ahead of
the ready entries of its level. -/
structure RunsFirst (s : State ι) : Prop where
  starting : ∀ i, (s.entry i).phase = .starting → (s.entry i).level = 0
  first : ∀ i j, (s.entry i).phase = .running → (s.entry i).level ≠ 0 →
    (s.entry j).phase = .ready → (s.entry j).level = (s.entry i).level →
    (s.entry i).stamp < (s.entry j).stamp

theorem RunsFirst.update (h : RunsFirst s) (counter : ℕ)
    (hstarting : e.phase = .starting → e.level = 0)
    (hrunning : e.phase = .running → e.level ≠ 0 → ∀ j, j ≠ i → (s.entry j).phase = .ready →
      (s.entry j).level = e.level → e.stamp < (s.entry j).stamp)
    (hready : e.phase = .ready → e.level ≠ 0 → ∀ j, j ≠ i → (s.entry j).phase = .running →
      (s.entry j).stamp < e.stamp) : RunsFirst ⟨update s.entry i e, counter⟩ := by
  constructor
  · intro j hj
    rcases eq_or_ne j i with rfl | hji
    · simp only [update_self] at hj ⊢
      exact hstarting hj
    · simp only [update_of_ne hji] at hj ⊢
      exact h.starting j hj
  · intro j l hj hlevel hl hsame
    rcases eq_or_ne j i with rfl | hji
    · rcases eq_or_ne l j with rfl | hlj
      · cases hj.symm.trans hl
      · simp only [update_self, update_of_ne hlj] at *
        exact hrunning hj hlevel l hlj hl hsame
    · rcases eq_or_ne l i with rfl | hli
      · simp only [update_self, update_of_ne hji] at *
        exact hready hl (hsame ▸ hlevel) j hji hj
      · simp only [update_of_ne hji, update_of_ne hli] at *
        exact h.first j l hj hlevel hl hsame

/-- An entry that leaves the processor, or never had it, asks nothing. -/
theorem RunsFirst.put_idle (h : RunsFirst s) (i : ι)
    (he : e.phase = .absent ∨ e.phase = .blocked ∨ e.phase = .finished) :
    RunsFirst (s.put i e) := by
  refine h.update _ ?_ ?_ ?_ <;> intro hphase <;> rw [hphase] at he <;> simp at he

/-- Every action keeps the running entry first. -/
theorem RunsFirst.act (h : RunsFirst s) (hvalid : Valid slice top s)
    (hact : act slice top s a = some t) : RunsFirst t := by
  obtain ⟨hguard, rfl⟩ := act_eq_some_iff.mp hact
  cases a with
  | enter => exact h.update _ (fun _ ↦ rfl) (by simp) (by simp)
  | publish i =>
    exact h.update _ (by simp) (by simp) fun _ hlevel ↦ absurd (h.starting i hguard) hlevel
  | run i =>
    obtain ⟨hready, -, hfirst⟩ := hguard
    refine h.update _ (by simp) (fun _ _ j hji hj hsame ↦ ?_) (by simp)
    -- No ready entry comes before it, and no two entries have the same stamp.
    have hnot := hfirst j hj
    have hdist : (s.entry j).stamp ≠ (s.entry i).stamp := fun heq ↦
      hji (hvalid.distinct j i (by simp [hj]) (by simp [hready]) heq)
    have hle : ¬ (s.entry j).stamp < (s.entry i).stamp := fun hlt ↦ hnot (.inr ⟨hsame, hlt⟩)
    dsimp only
    omega
  | charge i =>
    refine h.update _ ?_ ?_ ?_
    · simp [hguard.1]
    · exact fun _ hlevel j _ hj hsame ↦ h.first i j hguard.1 hlevel hj hsame
    · simp [hguard.1]
  | preempt i =>
    refine h.update _ (by simp) (by simp) fun _ _ j hji hj ↦ ?_
    exact absurd (hvalid.one_running j i hj hguard) hji
  | expire i =>
    refine h.update _ (by simp) (by simp) fun _ _ j hji hj ↦ ?_
    exact absurd (hvalid.one_running j i hj hguard.1) hji
  | block i | finish i => exact h.put_idle i (by simp)
  | wake =>
    refine h.update _ (by simp) (by simp) fun _ _ j _ hj ↦ ?_
    exact Nat.lt_succ_of_le (hvalid.entry_ok j (by simp [hj])).2.2.2
  | lift =>
    exact h.update _ (fun _ ↦ rfl) (fun _ hlevel ↦ absurd rfl hlevel)
      fun _ hlevel ↦ absurd rfl hlevel
  | forget i => exact h.put_idle i (by simp [Entry.empty])

/-! ### Fairness inside a level -/

/-- The entry is queued in a level and waits for the processor. -/
def Waiting (p : ι) (q : ℕ) (s : State ι) : Prop :=
  (s.entry p).phase = .ready ∧ (s.entry p).level = q

/-- The transition charges a tick to an entry that is in a level. -/
def chargedAt (r : ι) (q : ℕ) (tr : Transition (State ι) (Action ι)) : Bool :=
  (tr.event = .charge r ∨ tr.event = .expire r) ∧ (tr.source.entry r).level = q

/-- `r` has the processor, or will have it before `p`, and the `c` ticks charged to it so far are
all in its current slice. -/
def Ahead (p r : ι) (q c : ℕ) (s : State ι) : Prop :=
  (s.entry r).level = q ∧ c ≤ (s.entry r).used ∧
    ((s.entry r).phase = .running ∨
      (((s.entry r).phase = .starting ∨ (s.entry r).phase = .ready) ∧
        (s.entry r).stamp < (s.entry p).stamp))

/-- `r` cannot be charged in the level before `p` has had the processor. -/
def Behind (slice : ℕ → ℕ) (p r : ι) (q c : ℕ) (s : State ι) : Prop :=
  c ≤ slice q ∧ ((s.entry r).level = q → (s.entry r).phase ≠ .running ∧
    (((s.entry r).phase = .starting ∨ (s.entry r).phase = .ready) →
      (s.entry p).stamp < (s.entry r).stamp))

omit [DecidableEq ι] in
theorem Waiting.phase_ne_absent (h : Waiting p q s) : (s.entry p).phase ≠ .absent := by
  rw [h.1]
  simp

omit [DecidableEq ι] in
/-- The next stamp is behind the one of an entry that waits. -/
theorem Waiting.stamp_lt (h : Waiting p q s)
    (hvalid : Valid slice top s) : (s.entry p).stamp < s.counter + 1 :=
  Nat.lt_succ_of_le (hvalid.entry_ok p h.phase_ne_absent).2.2.2

omit [DecidableEq ι] in
theorem Waiting.stamp_ne (h : Waiting p q s) (hvalid : Valid slice top s)
    (hr : (s.entry r).phase ≠ .absent) (hne : r ≠ p) : (s.entry p).stamp ≠ (s.entry r).stamp :=
  fun heq ↦ hne (hvalid.distinct p r h.phase_ne_absent hr heq).symm

omit [DecidableEq ι] in
/-- No other action than a run or a lift touches an entry that waits. -/
theorem Waiting.slot_ne (h : Waiting p q s) (hguard : Guard slice s a) (hrun : a ≠ .run p)
    (hlift : a ≠ .lift p) : a.slot ≠ p := by
  rintro rfl
  have hready := h.1
  cases a <;> simp_all [Guard, Action.slot]

/-- An entry that waits stays as it is while nobody is lifted: the processor is what ends the
wait. -/
theorem entry_eq_of_waiting (hact : act slice top s a = some t) (hs : Waiting p q s)
    (ht : Waiting p q t) (hlift : ∀ i, a ≠ .lift i) : t.entry p = s.entry p ∧ a.slot ≠ p := by
  obtain ⟨hguard, rfl⟩ := act_eq_some_iff.mp hact
  have hrun : a ≠ .run p := by
    rintro rfl
    have hafter := ht.1
    simp [effect] at hafter
  have hslot := hs.slot_ne hguard hrun (hlift p)
  exact ⟨entry_effect_of_ne (Ne.symm hslot), hslot⟩

/-- Only the processor or a lift ends the wait of an entry. -/
theorem waiting_act (hact : act slice top s a = some t) (hs : Waiting p q s) (hrun : a ≠ .run p)
    (hlift : a ≠ .lift p) : Waiting p q t := by
  obtain ⟨hguard, rfl⟩ := act_eq_some_iff.mp hact
  unfold Waiting
  rwa [entry_effect_of_ne (Ne.symm (hs.slot_ne hguard hrun hlift))]

theorem waiting_path (hpath : Path (act slice top) s l u) (hs : Waiting p q s)
    (hquiet : ∀ tr ∈ l, tr.event ≠ .run p ∧ tr.event ≠ .lift p) :
    (∀ tr ∈ l, Waiting p q tr.source ∧ Waiting p q tr.target) ∧ Waiting p q u := by
  induction hpath with
  | nil => exact ⟨by simp, hs⟩
  | @cons _ _ _ _ _ hact _ ih =>
    have hhead := hquiet _ List.mem_cons_self
    have ht := waiting_act hact hs hhead.1 hhead.2
    obtain ⟨hrest, hu⟩ := ih ht fun tr htr ↦ hquiet tr (List.mem_cons_of_mem _ htr)
    refine ⟨fun tr htr ↦ ?_, hu⟩
    rcases List.mem_cons.mp htr with rfl | hmem
    · exact ⟨hs, ht⟩
    · exact hrest tr hmem

omit [DecidableEq ι] in
theorem behind_of_tail (hc : c ≤ slice q) (hrun : (t.entry r).phase ≠ .running)
    (htail : (t.entry p).stamp < (t.entry r).stamp) : Behind slice p r q c t :=
  ⟨hc, fun _ ↦ ⟨hrun, fun _ ↦ htail⟩⟩

omit [DecidableEq ι] in
theorem behind_of_level (hc : c ≤ slice q)
    (hlevel : (t.entry r).level ≠ q) : Behind slice p r q c t :=
  ⟨hc, fun hq ↦ absurd hq hlevel⟩

omit [DecidableEq ι] in
theorem behind_of_phase (hc : c ≤ slice q)
    (hphase : (t.entry r).phase = .blocked ∨ (t.entry r).phase = .finished ∨
      (t.entry r).phase = .absent) : Behind slice p r q c t := by
  refine ⟨hc, fun _ ↦ ⟨?_, ?_⟩⟩ <;> rcases hphase with h | h | h <;> simp [h]

omit [DecidableEq ι] in
theorem Ahead.phase_ne_absent (h : Ahead p r q c s) : (s.entry r).phase ≠ .absent := by
  rcases h.2.2 with hphase | ⟨hphase | hphase, -⟩ <;> simp [hphase]

omit [DecidableEq ι] in
/-- An entry that is ahead has used less than the slice. -/
theorem Ahead.lt_slice (h : Ahead p r q c s) (hvalid : Valid slice top s) : c < slice q := by
  have hused := (hvalid.entry_ok r h.phase_ne_absent).2.1
  rw [h.1] at hused
  exact lt_of_le_of_lt h.2.1 hused

/-- The step of the fairness argument: an entry that is ahead stays ahead, its charges within its
slice, until it falls behind, and then it stays behind. -/
theorem ahead_or_behind_act (hvalid : Valid slice top s) (hact : act slice top s a = some t)
    (hs : Waiting p q s) (ht : Waiting p q t) (hlift : ∀ i, a ≠ .lift i) (hne : r ≠ p)
    (h : Ahead p r q c s ∨ Behind slice p r q c s) :
    Ahead p r q (c + if chargedAt r q ⟨s, a, t⟩ then 1 else 0) t ∨
      Behind slice p r q (c + if chargedAt r q ⟨s, a, t⟩ then 1 else 0) t := by
  have hp := (entry_eq_of_waiting hact hs ht hlift).1
  have hpstamp := hs.stamp_lt hvalid
  have hle : c ≤ slice q := h.elim (fun hr ↦ (hr.lt_slice hvalid).le) fun hr ↦ hr.1
  -- An entry that runs in another level than `q` is behind whatever it does there.
  have hlevel (hr : Behind slice p r q c s) (hrun : (s.entry r).phase = .running) :
      (s.entry r).level ≠ q := fun hq ↦ (hr.2 hq).1 hrun
  obtain ⟨hguard, rfl⟩ := act_eq_some_iff.mp hact
  by_cases hslot : a.slot = r
  · cases a with
    | enter i | wake i =>
      obtain rfl : i = r := hslot
      exact .inr (behind_of_tail (by simpa [chargedAt] using hle) (by simp [effect])
        (by rw [hp]; simpa [effect] using hpstamp))
    | publish i =>
      obtain rfl : i = r := hslot
      have hphase : (s.entry i).phase = .starting := hguard
      unfold Ahead Behind at h ⊢
      rw [hp]
      simpa [effect, chargedAt, hphase] using h
    | run i =>
      obtain rfl : i = r := hslot
      obtain ⟨hready, -, hfirst⟩ := hguard
      rcases h with hr | hr
      · exact .inl ⟨by simpa [effect] using hr.1, by simpa [effect, chargedAt] using hr.2.1,
          .inl (by simp [effect])⟩
      · -- An entry behind `p` in the level is not the one to run.
        have hother : (s.entry i).level ≠ q := fun hq ↦
          hfirst p hs.1 (.inr ⟨hs.2.trans hq.symm, (hr.2 hq).2 (.inr hready)⟩)
        exact .inr (behind_of_level (by simpa [chargedAt] using hle)
          (by simpa [effect] using hother))
    | charge i =>
      obtain rfl : i = r := hslot
      rcases h with hr | hr
      · refine .inl ⟨by simpa [effect] using hr.1, ?_, .inl (by simpa [effect] using hguard.1)⟩
        simpa [effect, chargedAt, hr.1] using hr.2.1
      · have hother := hlevel hr hguard.1
        exact .inr (behind_of_level (by simpa [chargedAt, hother] using hle)
          (by simpa [effect] using hother))
    | preempt i =>
      obtain rfl : i = r := hslot
      have hrun : (s.entry i).phase = .running := hguard
      rcases h with hr | hr
      · have hdist := hs.stamp_ne hvalid hr.phase_ne_absent hne
        by_cases hstamp : (s.entry i).stamp < (s.entry p).stamp
        · refine .inl ⟨by simpa [effect] using hr.1, by simpa [effect, chargedAt] using hr.2.1,
            .inr ⟨.inr (by simp [effect]), ?_⟩⟩
          rw [hp]
          simpa [effect] using hstamp
        · refine .inr (behind_of_tail (by simpa [chargedAt] using hle) (by simp [effect]) ?_)
          rw [hp]
          simp only [effect, entry_put_self]
          omega
      · exact .inr (behind_of_level (by simpa [chargedAt] using hle)
          (by simpa [effect] using hlevel hr hrun))
    | expire i =>
      obtain rfl : i = r := hslot
      have hcount : c + (if chargedAt i q ⟨s, .expire i, effect top s (.expire i)⟩ then 1 else 0) ≤
          slice q := by
        rcases h with hr | hr
        · have hlt := hr.lt_slice hvalid
          split_ifs <;> omega
        · simpa [chargedAt, hlevel hr hguard.1] using hle
      exact .inr (behind_of_tail hcount (by simp [effect])
        (by rw [hp]; simpa [effect] using hpstamp))
    | block i | finish i =>
      obtain rfl : i = r := hslot
      exact .inr (behind_of_phase (by simpa [chargedAt] using hle) (by simp [effect]))
    | lift i => exact absurd rfl (hlift i)
    | forget i =>
      obtain rfl : i = r := hslot
      exact .inr (behind_of_phase (by simpa [chargedAt] using hle)
        (by simp [effect, Entry.empty]))
  · -- The entry of `r` is untouched and no tick is charged to it.
    have hr : (effect top s a).entry r = s.entry r := entry_effect_of_ne (Ne.symm hslot)
    have hno : chargedAt r q ⟨s, a, effect top s a⟩ = false := by
      cases a <;> simp_all [chargedAt, Action.slot]
    simpa [Ahead, Behind, hr, hp, hno] using h

/-- Fairness inside a level: while an entry waits there, and nobody is lifted, any other entry is
charged at most one slice of that level. Assumes: no level has an empty slice. -/
theorem charges_le_slice (hslice : ∀ q ≤ top, 0 < slice q) (hvalid : Valid slice top s)
    (hpath : Path (act slice top) s l u) (hs : Waiting p q s)
    (hwait : ∀ tr ∈ l, Waiting p q tr.source ∧ Waiting p q tr.target)
    (hlift : ∀ tr ∈ l, ∀ i, tr.event ≠ .lift i) (hne : r ≠ p) :
    l.countP (chargedAt r q) ≤ slice q := by
  have hstart : Ahead p r q 0 s ∨ Behind slice p r q 0 s := by
    by_cases hahead : Ahead p r q 0 s
    · exact .inl hahead
    · refine .inr ⟨Nat.zero_le _, fun hq ↦ ⟨fun hrun ↦ hahead ⟨hq, Nat.zero_le _, .inl hrun⟩,
        fun hphase ↦ ?_⟩⟩
      have hactive : (s.entry r).phase ≠ .absent := by
        rcases hphase with hstart | hready
        · rw [hstart]; simp
        · rw [hready]; simp
      have hdist := hs.stamp_ne hvalid hactive hne
      have hnot : ¬ (s.entry r).stamp < (s.entry p).stamp := fun hlt ↦
        hahead ⟨hq, Nat.zero_le _, .inr ⟨hphase, hlt⟩⟩
      omega
  have hend := hpath.countP_rule (P := chargedAt r q)
    (J := fun c s ↦ Valid slice top s ∧ (Ahead p r q c s ∨ Behind slice p r q c s))
    (fun tr htr hact c hJ ↦ ⟨hJ.1.act hslice hact, ahead_or_behind_act hJ.1 hact (hwait tr htr).1
      (hwait tr htr).2 (hlift tr htr) hne hJ.2⟩) ⟨hvalid, hstart⟩
  rw [Nat.zero_add] at hend
  rcases hend.2 with hahead | hbehind
  · exact (hahead.lt_slice hend.1).le
  · exact hbehind.1

/-! ### The wait in level zero -/

/-- The transition charges a tick to somebody. -/
def isCharge (tr : Transition (State ι) (Action ι)) : Bool :=
  match tr.event with
  | .charge _ => true
  | .expire _ => true
  | _ => false

/-- The entries that may have the processor before `p`, which waits in level zero: the one that has
it, and the ones queued there, or about to be, with a smaller stamp. -/
def Rival (p : ι) (s : State ι) (i : ι) : Prop :=
  (s.entry i).phase = .running ∨
    (((s.entry i).phase = .starting ∨ (s.entry i).phase = .ready) ∧ (s.entry i).level = 0 ∧
      (s.entry i).stamp < (s.entry p).stamp)

/-- While `p` waits in level zero nobody becomes a rival of it, and whoever has the processor is in
level zero. -/
theorem rival_of_act (hvalid : Valid slice top s) (hact : act slice top s a = some t)
    (hs : Waiting p 0 s) (ht : Waiting p 0 t) (hlift : ∀ i, a ≠ .lift i) (hi : Rival p t i) :
    Rival p s i ∧ ((s.entry i).phase ≠ .running → (s.entry i).level = 0) := by
  obtain ⟨hp, hslotp⟩ := entry_eq_of_waiting hact hs ht hlift
  have hpstamp := hs.stamp_lt hvalid
  obtain ⟨hguard, rfl⟩ := act_eq_some_iff.mp hact
  unfold Rival at hi ⊢
  rw [hp] at hi
  by_cases hslot : a.slot = i
  · cases a with
    | run j =>
      obtain rfl : j = i := hslot
      obtain ⟨hready, -, hfirst⟩ := hguard
      have hactive : (s.entry j).phase ≠ .absent := by rw [hready]; simp
      have hdist := hs.stamp_ne hvalid hactive hslotp
      have hnot := hfirst p hs.1
      unfold Before at hnot
      rw [hs.2] at hnot
      have hzero : (s.entry j).level = 0 := by omega
      exact ⟨.inr ⟨.inr hready, hzero, by omega⟩, fun _ ↦ hzero⟩
    | publish j =>
      obtain rfl : j = i := hslot
      have hphase : (s.entry j).phase = .starting := hguard
      simp only [effect, entry_put_self] at hi
      simp_all
    | lift j => exact absurd rfl (hlift j)
    | charge j | expire j =>
      obtain rfl : j = i := hslot
      exact ⟨.inl hguard.1, fun hrun ↦ absurd hguard.1 hrun⟩
    | preempt j =>
      obtain rfl : j = i := hslot
      exact ⟨.inl hguard, fun hrun ↦ absurd hguard hrun⟩
    | enter j | wake j =>
      obtain rfl : j = i := hslot
      simp only [effect, entry_restamp_self] at hi
      simp at hi
      omega
    | _ =>
      obtain rfl := hslot
      simp [effect, Action.slot, Entry.empty] at hi
  · rw [entry_effect_of_ne (Ne.symm hslot)] at hi
    exact ⟨hi, fun hrun ↦ (hi.resolve_left hrun).2.1⟩

/-- After `c` charges, at most `bound - c` rivals are left, and whoever has the processor is in
level zero. -/
def RivalsLeft (bound : ℕ) (p : ι) (c : ℕ) (s : State ι) : Prop :=
  (∀ i, (s.entry i).phase = .running → (s.entry i).level = 0) ∧
    ∃ left : Finset ι, c + left.card ≤ bound ∧ ∀ i, Rival p s i → i ∈ left

/-- The step of the wait: a charge in level zero uses the slice up, and the entry leaves the
level. -/
theorem rivalsLeft_act (hone : slice 0 = 1) (htop : 0 < top) (hvalid : Valid slice top s)
    (hact : act slice top s a = some t) (hs : Waiting p 0 s) (ht : Waiting p 0 t)
    (hlift : ∀ i, a ≠ .lift i) (h : RivalsLeft bound p c s) :
    RivalsLeft bound p (c + if isCharge ⟨s, a, t⟩ then 1 else 0) t := by
  obtain ⟨hrun, left, hcard, hleft⟩ := h
  have hback {i : ι} (hi : Rival p t i) := rival_of_act hvalid hact hs ht hlift hi
  obtain ⟨hguard, rfl⟩ := act_eq_some_iff.mp hact
  constructor
  · intro i hi
    have hold := (hback (.inl hi)).2
    by_cases hslot : a.slot = i
    · cases a <;> obtain rfl := hslot <;> simp_all [effect, Action.slot, Guard, Entry.empty]
    · rw [entry_effect_of_ne (Ne.symm hslot)] at hi ⊢
      exact hrun i hi
  · by_cases hcharge : isCharge ⟨s, a, effect top s a⟩ = true
    · cases a with
      | charge i =>
        have hused := hguard.2
        rw [hrun i hguard.1, hone] at hused
        omega
      | expire i =>
        have hmem : i ∈ left := hleft i (.inl hguard.1)
        have hpos : 0 < left.card := Finset.card_pos.mpr ⟨i, hmem⟩
        refine ⟨left.erase i, ?_, fun j hj ↦ Finset.mem_erase.mpr ⟨?_, hleft j (hback hj).1⟩⟩
        · rw [Finset.card_erase_of_mem hmem, if_pos hcharge]
          omega
        · rintro rfl
          simp [Rival, effect, demoted, hrun j hguard.1, htop] at hj
      | _ => simp [isCharge] at hcharge
    · exact ⟨left, by simpa [hcharge] using hcard, fun j hj ↦ hleft j (hback hj).1⟩

/-- The wait in level zero, when its slice is one tick: the ticks charged while `p` waits there, and
nobody is lifted, are at most the rivals of `p` at the start, and fewer if one of them has the
processor at the end. Assumes: no level has an empty slice,
there is a level below level zero, and whoever has the processor at the start is in level zero. -/
theorem charges_le_card (hslice : ∀ q ≤ top, 0 < slice q) (hone : slice 0 = 1) (htop : 0 < top)
    (hvalid : Valid slice top s) (hpath : Path (act slice top) s l u)
    (hwait : ∀ tr ∈ l, Waiting p 0 tr.source ∧ Waiting p 0 tr.target)
    (hlift : ∀ tr ∈ l, ∀ i, tr.event ≠ .lift i)
    (hrun : ∀ i, (s.entry i).phase = .running → (s.entry i).level = 0)
    (hrivals : ∀ i, Rival p s i → i ∈ rivals) :
    l.countP isCharge ≤ rivals.card ∧
      ∀ i, (u.entry i).phase = .running → l.countP isCharge < rivals.card := by
  have hend := hpath.countP_rule (P := isCharge)
    (J := fun c s ↦ Valid slice top s ∧ RivalsLeft rivals.card p c s)
    (fun tr htr hact c hJ ↦ ⟨hJ.1.act hslice hact, rivalsLeft_act hone htop hJ.1 hact
      (hwait tr htr).1 (hwait tr htr).2 (hlift tr htr) hJ.2⟩)
    (c := 0) ⟨hvalid, hrun, rivals, by simp, hrivals⟩
  obtain ⟨-, -, left, hcard, hleft⟩ := hend
  refine ⟨by omega, fun i hi ↦ ?_⟩
  have hpos : 0 < left.card := Finset.card_pos.mpr ⟨i, hleft i (.inl hi)⟩
  omega

end Machine

end Irish.Library.FeedbackQueue
