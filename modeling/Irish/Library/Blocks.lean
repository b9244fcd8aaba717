import Mathlib.Data.List.Basic

/-!
# Blocks between separators

The maximal blocks of a sequence that hold no separator, as pairs of positions. `IsBlock` says what
a block is; `blocks` finds them in one pass, with the start of the current block as its only state.
-/

set_option autoImplicit false

namespace Irish.Library

variable {α : Type*} (sep : α → Bool)

/-- The positions from `i` up to `j` are a maximal block without separators. -/
structure IsBlock (l : List α) (i j : ℕ) : Prop where
  lt : i < j
  le : j ≤ l.length
  inside : ∀ k a, i ≤ k → k < j → l[k]? = some a → sep a = false
  left : i = 0 ∨ ∃ a, l[i - 1]? = some a ∧ sep a = true
  right : j = l.length ∨ ∃ a, l[j]? = some a ∧ sep a = true

/-- The blocks of what is left from position `k` on, when the current one began at `start`. -/
def blocksFrom : ℕ → ℕ → List α → List (ℕ × ℕ)
  | start, k, [] => if start < k then [(start, k)] else []
  | start, k, a :: rest =>
    if sep a then (if start < k then [(start, k)] else []) ++ blocksFrom (k + 1) (k + 1) rest
    else blocksFrom start (k + 1) rest

def blocks (l : List α) : List (ℕ × ℕ) := blocksFrom sep 0 0 l

variable {sep} {l rest : List α} {i j k start : ℕ} {x : ℕ × ℕ}

/-- Where the pass stands: nothing from `start` up to `k` is a separator, and `start` is where a
block may begin. -/
structure Scanning (sep : α → Bool) (l : List α) (start k : ℕ) : Prop where
  le : start ≤ k
  inside : ∀ m a, start ≤ m → m < k → l[m]? = some a → sep a = false
  left : start = 0 ∨ ∃ a, l[start - 1]? = some a ∧ sep a = true

theorem Scanning.start_eq (h : Scanning sep l start k)
    (hi : i = 0 ∨ ∃ a, l[i - 1]? = some a ∧ sep a = true) (hle : start ≤ i) (hik : i ≤ k) :
    i = start := by
  rcases hi with rfl | ⟨a, ha, hsep⟩
  · omega
  · by_contra hne
    rw [h.inside (i - 1) a (by omega) (by omega) ha] at hsep
    cases hsep

/-- A block that begins at `start` does not end before `k`. -/
theorem Scanning.le_right (h : Scanning sep l start k) (hk : k ≤ l.length)
    (hj : j = l.length ∨ ∃ a, l[j]? = some a ∧ sep a = true) (hlt : start < j) : k ≤ j := by
  rcases hj with rfl | ⟨a, ha, hsep⟩
  · exact hk
  · by_contra hne
    rw [h.inside j a (by omega) (by omega) ha] at hsep
    cases hsep

theorem Scanning.isBlock (h : Scanning sep l start k) (hk : k ≤ l.length)
    (hright : k = l.length ∨ ∃ a, l[k]? = some a ∧ sep a = true)
    (hlt : start < k) : IsBlock sep l start k :=
  ⟨hlt, hk, h.inside, h.left, hright⟩

/-- The current block, when the pass has reached its end. -/
theorem Scanning.mem_current (h : Scanning sep l start k) (hk : k ≤ l.length)
    (hright : k = l.length ∨ ∃ a, l[k]? = some a ∧ sep a = true) :
    (i, j) ∈ (if start < k then [(start, k)] else []) ↔
      IsBlock sep l i j ∧ start ≤ i ∧ i ≤ k ∧ j ≤ k := by
  constructor
  · intro hmem
    split_ifs at hmem with hlt
    · obtain ⟨rfl, rfl⟩ := Prod.mk.inj (List.mem_singleton.mp hmem)
      exact ⟨h.isBlock hk hright hlt, Nat.le_refl _, Nat.le_of_lt hlt, Nat.le_refl _⟩
    · cases hmem
  · rintro ⟨hblock, hle, hik, hjk⟩
    obtain rfl := h.start_eq hblock.left hle hik
    have hkj := h.le_right hk hblock.right hblock.lt
    obtain rfl : j = k := Nat.le_antisymm hjk hkj
    rw [if_pos hblock.lt]
    exact List.mem_singleton_self _

theorem mem_blocksFrom (h : Scanning sep l start k) (hk : k ≤ l.length) (hrest : rest = l.drop k) :
    (i, j) ∈ blocksFrom sep start k rest ↔ IsBlock sep l i j ∧ start ≤ i := by
  induction rest generalizing start k with
  | nil =>
    have hlength : l.length ≤ k := List.drop_eq_nil_iff.mp hrest.symm
    have hend : k = l.length := Nat.le_antisymm hk hlength
    rw [blocksFrom, h.mem_current hk (.inl hend)]
    constructor
    · exact fun ⟨hblock, hle, _⟩ ↦ ⟨hblock, hle⟩
    · rintro ⟨hblock, hle⟩
      have hlt := hblock.lt
      have hj := hblock.le
      exact ⟨hblock, hle, by omega, by omega⟩
  | cons a _ ih =>
    have hlt : k < l.length := by
      by_contra hge
      rw [List.drop_eq_nil_iff.mpr (by omega)] at hrest
      cases hrest
    rw [List.drop_eq_getElem_cons hlt, List.cons.injEq] at hrest
    obtain ⟨ha, hrest⟩ := hrest
    have hget : l[k]? = some a := by rw [ha, List.getElem?_eq_getElem hlt]
    by_cases hsep : sep a = true
    · have hnext : Scanning sep l (k + 1) (k + 1) :=
        ⟨Nat.le_refl _, fun m b hm hm' ↦ by omega, .inr ⟨a, by simpa using hget, hsep⟩⟩
      rw [blocksFrom, if_pos hsep, List.mem_append, ih hnext hlt hrest,
        h.mem_current hk (.inr ⟨a, hget, hsep⟩)]
      constructor
      · rintro (⟨hblock, hle, -⟩ | ⟨hblock, hle⟩)
        · exact ⟨hblock, hle⟩
        · exact ⟨hblock, by have := h.le; omega⟩
      · rintro ⟨hblock, hle⟩
        -- The separator at `k` is not inside the block.
        have hside : j ≤ k ∨ k + 1 ≤ i := by
          by_contra hboth
          have hinside := hblock.inside k a (by omega) (by omega) hget
          cases hsep.symm.trans hinside
        have hij := hblock.lt
        rcases hside with hj | hi
        · exact .inl ⟨hblock, hle, by omega, hj⟩
        · exact .inr ⟨hblock, hi⟩
    · have hnext : Scanning sep l start (k + 1) := by
        refine ⟨Nat.le_succ_of_le h.le, fun m b hm hm' hb ↦ ?_, h.left⟩
        rcases Nat.lt_succ_iff_lt_or_eq.mp hm' with hm' | rfl
        · exact h.inside m b hm hm' hb
        · cases hget.symm.trans hb
          simpa using hsep
      rw [blocksFrom, if_neg hsep]
      exact ih hnext hlt hrest

theorem mem_blocks : (i, j) ∈ blocks sep l ↔ IsBlock sep l i j := by
  have hstart : Scanning sep l 0 0 := ⟨Nat.le_refl 0, fun _ _ _ h ↦ by omega, .inl rfl⟩
  rw [blocks, mem_blocksFrom hstart (Nat.zero_le _) (List.drop_zero).symm]
  simp

theorem start_le_of_mem_blocksFrom (hle : start ≤ k) (h : x ∈ blocksFrom sep start k rest) :
    start ≤ x.1 := by
  induction rest generalizing start k with
  | nil =>
    rw [blocksFrom] at h
    split_ifs at h
    · obtain rfl := List.mem_singleton.mp h
      exact Nat.le_refl _
    · cases h
  | cons _ _ ih =>
    rw [blocksFrom] at h
    split_ifs at h
    · rcases List.mem_append.mp h with h | h
      · obtain rfl := List.mem_singleton.mp h
        exact Nat.le_refl _
      · exact Nat.le_trans (by omega) (ih (Nat.le_refl _) h)
    · rw [List.nil_append] at h
      exact Nat.le_trans (by omega) (ih (Nat.le_refl _) h)
    · exact ih (by omega) h

theorem pairwise_blocksFrom : (blocksFrom sep start k rest).Pairwise fun x y ↦ x.2 < y.1 := by
  induction rest generalizing start k with
  | nil =>
    rw [blocksFrom]
    split_ifs <;> simp
  | cons _ _ ih =>
    rw [blocksFrom]
    split_ifs
    · refine List.pairwise_cons.mpr ⟨fun y hy ↦ ?_, ih⟩
      exact start_le_of_mem_blocksFrom (Nat.le_refl _) hy
    · exact ih
    · exact ih

/-- The blocks come in order, with a separator between any two. -/
theorem pairwise_blocks (l : List α) : (blocks sep l).Pairwise fun x y ↦ x.2 < y.1 :=
  pairwise_blocksFrom

end Irish.Library
