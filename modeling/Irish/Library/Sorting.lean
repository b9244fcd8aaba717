import Mathlib.Data.List.Sort

/-!
# Sorting by a comparison function

`qsort` of the C library, as far as its callers may rely on it: the result has the same elements,
and no element compares greater than a later one. `sortBy` is one such function, for a comparison
that is total and transitive.
-/

set_option autoImplicit false

namespace Irish.Library

variable {α : Type*} {cmp : α → α → ℤ}

/-- What `qsort(l, ...)` with a comparison function may leave in the array. -/
structure Sorts (cmp : α → α → ℤ) (l sorted : List α) : Prop where
  perm : sorted.Perm l
  pairwise : sorted.Pairwise fun a b ↦ cmp a b ≤ 0

def sortBy (cmp : α → α → ℤ) (l : List α) : List α := l.insertionSort fun a b ↦ cmp a b ≤ 0

theorem sorts_sortBy (htrans : ∀ a b c, cmp a b ≤ 0 → cmp b c ≤ 0 → cmp a c ≤ 0)
    (htotal : ∀ a b, cmp a b ≤ 0 ∨ cmp b a ≤ 0) (l : List α) : Sorts cmp l (sortBy cmp l) where
  perm := List.perm_insertionSort _ l
  pairwise :=
    have : Std.Total fun a b ↦ cmp a b ≤ 0 := ⟨htotal⟩
    have : IsTrans α fun a b ↦ cmp a b ≤ 0 := ⟨htrans⟩
    List.pairwise_insertionSort _ l

end Irish.Library
