import Mathlib.Data.Fintype.Basic

/-!
# Processors that take spin locks

Each processor runs a straight-line program of acquisitions and releases and spins while another one
holds the lock it wants. `Ordered` says which locks a program takes while it holds which others, and
`Balanced` composes it: a program is put together from brackets, sequences and loops by lemmas, not
by unfolding.

A deadlock is a cycle of processors each of which spins on a lock that the next one holds. When
every nesting goes from a lock to one of at least the same rank, the locks of a cycle have all the
same rank (`exists_edge_of_cycle`), so only the nestings inside a rank need another argument. The
one given here is for pairs of locks that are nested both ways: no two processors cross on such a
pair as long as no processor takes one of the locks, on its way to the other, while another
processor holds that one on its way back (`not_crossed_advance`).
-/

set_option autoImplicit false

namespace Irish.Library.SpinLock

open Function (update update_of_ne update_self)

inductive Op (L : Type*)
  | acquire (l : L)
  | release (l : L)
deriving DecidableEq

/-- A processor: the locks it holds and the rest of its program. -/
structure Cpu (L : Type*) where
  held : List L
  rest : List (Op L)

/-! ### Waiting -/

section Waiting

variable {κ L : Type*}

/-- The processor's next operation is to take the lock. -/
def Spins (s : κ → Cpu L) (c : κ) (l : L) : Prop := ∃ rest, (s c).rest = .acquire l :: rest

/-- The lock that a processor spins on is determined by its program. -/
theorem spins_unique {s : κ → Cpu L} {c : κ} {x y : L} (hx : Spins s c x) (hy : Spins s c y) :
    x = y := by
  obtain ⟨r, hr⟩ := hx
  obtain ⟨r', hr'⟩ := hy
  cases hr.symm.trans hr'
  rfl

def WaitsFor (s : κ → Cpu L) (c d : κ) : Prop := ∃ l, Spins s c l ∧ l ∈ (s d).held

/-- A cycle of processors each of which spins on a lock that the next one holds. -/
def Deadlocked (s : κ → Cpu L) : Prop := ∃ c, Relation.TransGen (WaitsFor s) c c

end Waiting

/-! ### The machine -/

section Machine

variable {κ L : Type*} [DecidableEq κ] [Fintype κ] [DecidableEq L]

/-- One operation of a processor. An acquisition waits until nobody holds the lock. -/
def advance (s : κ → Cpu L) (c : κ) : Option (κ → Cpu L) :=
  match (s c).rest with
  | [] => none
  | .acquire l :: rest =>
    if ∀ d, l ∉ (s d).held then some (update s c ⟨l :: (s c).held, rest⟩) else none
  | .release l :: rest => some (update s c ⟨(s c).held.filter (· ≠ l), rest⟩)

/-- A processor that holds nothing turns to another program and goes on with its own afterwards. -/
def enter (s : κ → Cpu L) (c : κ) (program : List (Op L)) : Option (κ → Cpu L) :=
  if (s c).held = [] then some (update s c ⟨[], program ++ (s c).rest⟩) else none

/-- What an operation does to the processor that executes it. -/
theorem advance_cases {s t : κ → Cpu L} {c : κ} (h : advance s c = some t) :
    (∃ l rest, (s c).rest = .acquire l :: rest ∧ (∀ d, l ∉ (s d).held) ∧
      t = update s c ⟨l :: (s c).held, rest⟩) ∨
    ∃ l rest, (s c).rest = .release l :: rest ∧
      t = update s c ⟨(s c).held.filter (· ≠ l), rest⟩ := by
  unfold advance at h
  split at h
  · cases h
  · rename_i l rest hrest
    split_ifs at h with hfree
    exact .inl ⟨l, rest, hrest, hfree, (Option.some.inj h).symm⟩
  · rename_i l rest hrest
    exact .inr ⟨l, rest, hrest, (Option.some.inj h).symm⟩

omit [Fintype κ] [DecidableEq L] in
theorem enter_eq_some {s t : κ → Cpu L} {c : κ} {program : List (Op L)}
    (h : enter s c program = some t) :
    (s c).held = [] ∧ t = update s c ⟨[], program ++ (s c).rest⟩ := by
  unfold enter at h
  split_ifs at h with hheld
  exact ⟨hheld, (Option.some.inj h).symm⟩

end Machine

/-! ### The order in which a program nests its locks -/

section Programs

variable {L : Type*} [DecidableEq L] (allowed : L → L → Prop)

/-- Every lock is taken only while the locks held allow it. -/
def Ordered : List L → List (Op L) → Prop
  | _, [] => True
  | held, .acquire l :: rest => (∀ x ∈ held, allowed x l) ∧ Ordered (l :: held) rest
  | held, .release l :: rest => Ordered (held.filter (· ≠ l)) rest

/-- The locks held at the end of a program. -/
def heldAfter : List L → List (Op L) → List L
  | held, [] => held
  | held, .acquire l :: rest => heldAfter (l :: held) rest
  | held, .release l :: rest => heldAfter (held.filter (· ≠ l)) rest

/-- The program nests its locks in order and gives back exactly the locks it takes. -/
def Balanced (held : List L) (program : List (Op L)) : Prop :=
  Ordered allowed held program ∧ heldAfter held program = held

/-- A program that runs with a lock held. -/
def locked (l : L) (body : List (Op L)) : List (Op L) := .acquire l :: (body ++ [.release l])

variable {allowed} {held : List L} {p q body : List (Op L)} {α : Type*}

theorem ordered_append :
    Ordered allowed held (p ++ q) ↔
      Ordered allowed held p ∧ Ordered allowed (heldAfter held p) q := by
  induction p generalizing held with
  | nil => simp [Ordered, heldAfter]
  | cons op _ ih =>
    cases op with
    | acquire l => simp [Ordered, heldAfter, ih, and_assoc]
    | release l => simp [Ordered, heldAfter, ih]

theorem heldAfter_append (held : List L) (p q : List (Op L)) :
    heldAfter held (p ++ q) = heldAfter (heldAfter held p) q := by
  induction p generalizing held with
  | nil => rfl
  | cons op _ ih => cases op <;> simp [heldAfter, ih]

theorem Balanced.nil (held : List L) : Balanced allowed held [] := ⟨trivial, rfl⟩

theorem Balanced.append (hp : Balanced allowed held p)
    (hq : Balanced allowed held q) : Balanced allowed held (p ++ q) := by
  refine ⟨ordered_append.mpr ⟨hp.1, ?_⟩, ?_⟩
  · rw [hp.2]
    exact hq.1
  · rw [heldAfter_append, hp.2, hq.2]

theorem Balanced.flatMap {f : α → List (Op L)} (h : ∀ a, Balanced allowed held (f a)) (l : List α) :
    Balanced allowed held (l.flatMap f) := by
  induction l with
  | nil => exact .nil held
  | cons a _ ih =>
    rw [List.flatMap_cons]
    exact (h a).append ih

theorem Balanced.ite (P : Prop) [Decidable P] (hp : Balanced allowed held p)
    (hq : Balanced allowed held q) : Balanced allowed held (if P then p else q) := by
  split_ifs
  · exact hp
  · exact hq

theorem Balanced.locked {l : L} (hnew : ∀ x ∈ held, allowed x l ∧ x ≠ l)
    (hbody : Balanced allowed (l :: held) body) : Balanced allowed held (locked l body) := by
  have hrelease : (l :: held).filter (· ≠ l) = held := by
    rw [List.filter_cons_of_neg (by simp)]
    exact List.filter_eq_self.mpr fun x hx ↦ by simpa using (hnew x hx).2
  refine ⟨⟨fun x hx ↦ (hnew x hx).1, ordered_append.mpr ⟨hbody.1, trivial⟩⟩, ?_⟩
  show heldAfter (l :: held) (body ++ [.release l]) = held
  rwa [heldAfter_append, hbody.2]

end Programs

/-! ### Cycles stay within a rank -/

section Ranks

variable {κ L : Type*} [DecidableEq L] {allowed : L → L → Prop} {rank : L → ℕ}

/-- Every processor nests its locks in order from where it is. -/
def AllOrdered (allowed : L → L → Prop) (s : κ → Cpu L) : Prop :=
  ∀ c, Ordered allowed (s c).held (s c).rest

theorem allOrdered_advance [DecidableEq κ] [Fintype κ] {s t : κ → Cpu L} {c : κ}
    (h : AllOrdered allowed s) (hstep : advance s c = some t) : AllOrdered allowed t := by
  intro d
  have hc := h c
  rcases eq_or_ne d c with rfl | hd
  · rcases advance_cases hstep with ⟨l, rest, hrest, -, rfl⟩ | ⟨l, rest, hrest, rfl⟩
    · rw [hrest] at hc
      simpa using hc.2
    · rw [hrest] at hc
      simpa [Ordered] using hc
  · rcases advance_cases hstep with ⟨l, rest, -, -, rfl⟩ | ⟨l, rest, -, rfl⟩ <;>
      simpa [hd] using h d

theorem allOrdered_enter [DecidableEq κ] {s t : κ → Cpu L} {c : κ} {program : List (Op L)}
    (h : AllOrdered allowed s) (hprogram : Balanced allowed [] program)
    (hstep : enter s c program = some t) : AllOrdered allowed t := by
  obtain ⟨hheld, rfl⟩ := enter_eq_some hstep
  intro d
  rcases eq_or_ne d c with rfl | hd
  · have hc := h d
    rw [hheld] at hc
    simp only [update_self]
    refine ordered_append.mpr ⟨hprogram.1, ?_⟩
    rwa [hprogram.2]
  · simpa [hd] using h d

/-- A processor that spins while it holds a lock nests the two. -/
theorem allowed_of_spins {s : κ → Cpu L} (h : AllOrdered allowed s) {c : κ} {x y : L}
    (hx : x ∈ (s c).held) (hy : Spins s c y) : allowed x y := by
  obtain ⟨rest, hrest⟩ := hy
  have hc := h c
  rw [hrest] at hc
  exact hc.1 x hx

/-- Along a chain of waiting processors the ranks of the wanted locks never go down. -/
theorem rank_le_of_transGen (hrank : ∀ x y, allowed x y → rank x ≤ rank y) {s : κ → Cpu L}
    (h : AllOrdered allowed s) {c d : κ} (hcd : Relation.TransGen (WaitsFor s) c d) {x y : L}
    (hx : Spins s c x) (hy : Spins s d y) : rank x ≤ rank y := by
  induction hcd generalizing y with
  | single hwait =>
    obtain ⟨l, hl, hheld⟩ := hwait
    rw [spins_unique hx hl]
    exact hrank _ _ (allowed_of_spins h hheld hy)
  | tail _ hwait ih =>
    obtain ⟨l, hl, hheld⟩ := hwait
    exact (ih hl).trans (hrank _ _ (allowed_of_spins h hheld hy))

/-- Every edge of a cycle: the processor waits for a lock that the next one holds, the next one
waits too, and the two locks have the same rank. -/
theorem exists_edge_of_cycle (hrank : ∀ x y, allowed x y → rank x ≤ rank y) {s : κ → Cpu L}
    (h : AllOrdered allowed s) {c : κ} (hcycle : Relation.TransGen (WaitsFor s) c c) :
    ∃ d x y, Spins s c x ∧ x ∈ (s d).held ∧ Spins s d y ∧ allowed x y ∧ rank x = rank y ∧
      Relation.TransGen (WaitsFor s) d d := by
  obtain ⟨d, hcd, hdc⟩ := Relation.TransGen.head'_iff.mp hcycle
  obtain ⟨x, hx, hheld⟩ := hcd
  have hcd : WaitsFor s c d := ⟨x, hx, hheld⟩
  have hdd : Relation.TransGen (WaitsFor s) d d := Relation.TransGen.tail' hdc hcd
  obtain ⟨e, ⟨y, hy, hye⟩, -⟩ := Relation.TransGen.head'_iff.mp hdd
  have hallowed := allowed_of_spins h hheld hy
  have hback : rank y ≤ rank x := by
    rcases Relation.reflTransGen_iff_eq_or_transGen.mp hdc with heq | hdc
    · subst heq
      exact rank_le_of_transGen hrank h hdd hy hx
    · exact rank_le_of_transGen hrank h hdc hy hx
  exact ⟨d, x, y, hx, hheld, hy, hallowed, le_antisymm (hrank _ _ hallowed) hback, hdd⟩

end Ranks

/-! ### Two locks nested both ways -/

section Crossing

variable {κ L : Type*} [DecidableEq L] {s t : κ → Cpu L} {c : κ}

/-- The program takes the inner lock before it gives the outer one back. -/
def nests (outer inner : L) : List (Op L) → Bool
  | [] => false
  | .acquire l :: rest => l = inner || nests outer inner rest
  | .release l :: rest => l ≠ outer && nests outer inner rest

/-- One processor holds a lock on its way to another one, which the other processor holds on its way
to the first. -/
def Crossed (s : κ → Cpu L) (c d : κ) : Prop :=
  ∃ a b, a ∈ (s c).held ∧ nests a b (s c).rest = true ∧ b ∈ (s d).held ∧
    nests b a (s d).rest = true

theorem Crossed.symm {d : κ} (h : Crossed s c d) : Crossed s d c := by
  obtain ⟨a, b, ha, hab, hb, hba⟩ := h
  exact ⟨b, a, hb, hba, ha, hab⟩

variable [DecidableEq κ] [Fintype κ]

/-- The processor does not take a lock on its way to a second one while another processor holds the
second on its way to the first. -/
def takesApart (s : κ → Cpu L) (c : κ) : Bool :=
  match (s c).rest with
  | .acquire l :: rest => ∀ d, d ≠ c → ∀ x ∈ (s d).held, nests l x rest = true →
      nests x l (s d).rest = false
  | _ => true

/-- A lock that a processor holds after an operation, on its way to another one, it held before on
the same way, or it has just taken it. -/
theorem nests_advance {a b : L} (hstep : advance s c = some t) (ha : a ∈ (t c).held)
    (hnests : nests a b (t c).rest = true) :
    (a ∈ (s c).held ∧ nests a b (s c).rest = true) ∨
      ∃ rest, (s c).rest = .acquire a :: rest ∧ nests a b rest = true := by
  rcases advance_cases hstep with ⟨l, rest, hrest, -, rfl⟩ | ⟨l, rest, hrest, rfl⟩
  · simp only [update_self, List.mem_cons] at ha hnests
    rcases ha with rfl | ha
    · exact .inr ⟨rest, hrest, hnests⟩
    · exact .inl ⟨ha, by simp [hrest, nests, hnests]⟩
  · simp only [update_self, List.mem_filter, decide_eq_true_eq] at ha hnests
    exact .inl ⟨ha.1, by simp [hrest, nests, hnests, Ne.symm ha.2]⟩

omit [DecidableEq κ] [Fintype κ] in
/-- A processor that spins on a lock is on its way to it. -/
theorem nests_of_spins {x y : L} (h : Spins s c y) : nests x y (s c).rest = true := by
  obtain ⟨rest, hrest⟩ := h
  simp [hrest, nests]

theorem advance_of_ne {d : κ} (hstep : advance s c = some t) (hd : d ≠ c) : t d = s d := by
  rcases advance_cases hstep with ⟨l, rest, -, -, rfl⟩ | ⟨l, rest, -, rfl⟩ <;> simp [hd]

/-- The processor that moves crosses with nobody afterwards. -/
theorem not_crossed_of_advance {d : κ} (h : ¬ Crossed s c d) (hapart : takesApart s c = true)
    (hstep : advance s c = some t) (hd : d ≠ c) : ¬ Crossed t c d := by
  rintro ⟨a, b, ha, hab, hb, hba⟩
  rw [advance_of_ne hstep hd] at hb hba
  rcases nests_advance hstep ha hab with ⟨ha', hab'⟩ | ⟨rest, hrest, hab'⟩
  · exact h ⟨a, b, ha', hab', hb, hba⟩
  · simp only [takesApart, hrest, decide_eq_true_eq] at hapart
    have hfalse := hapart d hd b hb hab'
    cases hba.symm.trans hfalse

theorem not_crossed_advance (h : ∀ d e, d ≠ e → ¬ Crossed s d e) (hapart : takesApart s c = true)
    (hstep : advance s c = some t) : ∀ d e, d ≠ e → ¬ Crossed t d e := by
  intro d e hne hcrossed
  rcases eq_or_ne d c with rfl | hd
  · exact not_crossed_of_advance (h d e hne) hapart hstep (Ne.symm hne) hcrossed
  · rcases eq_or_ne e c with rfl | he
    · exact not_crossed_of_advance (h e d (Ne.symm hne)) hapart hstep hne hcrossed.symm
    · obtain ⟨a, b, ha, hab, hb, hba⟩ := hcrossed
      rw [advance_of_ne hstep hd] at ha hab
      rw [advance_of_ne hstep he] at hb hba
      exact h d e hne ⟨a, b, ha, hab, hb, hba⟩

omit [Fintype κ] in
/-- A processor that turns to another program holds nothing, so it crosses with nobody. -/
theorem not_crossed_enter {program : List (Op L)} (h : ∀ d e, d ≠ e → ¬ Crossed s d e)
    (hstep : enter s c program = some t) : ∀ d e, d ≠ e → ¬ Crossed t d e := by
  obtain ⟨-, rfl⟩ := enter_eq_some hstep
  rintro d e hne ⟨a, b, ha, hab, hb, hba⟩
  rcases eq_or_ne d c with rfl | hd
  · simp at ha
  · rcases eq_or_ne e c with rfl | he
    · simp at hb
    · simp only [update_of_ne hd, update_of_ne he] at ha hab hb hba
      exact h d e hne ⟨a, b, ha, hab, hb, hba⟩

end Crossing

end Irish.Library.SpinLock
