import Mathlib.Algebra.Order.BigOperators.Group.Finset

/-!
# Counting over processes

A counter that is kept by hand, one up here and one down there, is a sum over the processes (or over
whatever holds what is counted). When one of them changes, the sum changes by the difference of its
two terms.
-/

set_option autoImplicit false

namespace Irish.Library

variable {ι α : Type*} [Fintype ι] [DecidableEq ι] {f : ι → ℕ} {i j : ι} {p : α → Bool} {l : List α}
  {a : α}

/-- The sum after a change of one term, without a subtraction. -/
theorem sum_update_add (f : α → ℕ) (p : ι → α) (i : ι) (a : α) :
    ∑ j, f (Function.update p i a j) + f (p i) = ∑ j, f (p j) + f a := by
  have hafter : ∑ j, f (Function.update p i a j) = f a + ∑ j ∈ Finset.univ.erase i, f (p j) := by
    rw [← Finset.add_sum_erase _ _ (Finset.mem_univ i), Function.update_self]
    congr 1
    refine Finset.sum_congr rfl fun j hj ↦ ?_
    rw [Function.update_of_ne (Finset.ne_of_mem_erase hj)]
  have hbefore : ∑ j, f (p j) = f (p i) + ∑ j ∈ Finset.univ.erase i, f (p j) :=
    (Finset.add_sum_erase _ _ (Finset.mem_univ i)).symm
  omega

omit [DecidableEq ι] in
theorem le_sum (f : ι → ℕ) (i : ι) : f i ≤ ∑ j, f j :=
  Finset.single_le_sum (fun _ _ ↦ Nat.zero_le _) (Finset.mem_univ i)

omit [DecidableEq ι] in
theorem exists_pos_of_sum_pos (h : 0 < ∑ i, f i) : ∃ i, 0 < f i := by
  by_contra hnone
  push Not at hnone
  have hzero : ∑ i, f i = 0 := Finset.sum_eq_zero fun i _ ↦ Nat.le_zero.mp (hnone i)
  omega

omit [DecidableEq ι] in
theorem add_le_sum (f : ι → ℕ) (h : i ≠ j) : f i + f j ≤ ∑ k, f k := by
  classical
  have hj : f j ≤ ∑ k ∈ Finset.univ.erase i, f k :=
    Finset.single_le_sum (fun _ _ ↦ Nat.zero_le _)
      (Finset.mem_erase.mpr ⟨Ne.symm h, Finset.mem_univ j⟩)
  rw [← Finset.add_sum_erase _ _ (Finset.mem_univ i)]
  omega

/-! ### Reference counts -/

section Counted

variable {β : Type*} {ref ref' : β → ℕ} {held : ι → β → ℕ} {b : β}

/-- Every count is the number of references that are held. -/
def Counted (ref : β → ℕ) (held : ι → β → ℕ) : Prop := ∀ b, ref b = ∑ i, held i b

/-- What one holder gains, the counts gain. -/
theorem Counted.change (h : Counted ref held) {mine : β → ℕ}
    (hbalance : ∀ b, ref' b + held i b = ref b + mine b) :
    Counted ref' (Function.update held i mine) := by
  intro b
  have hsum := sum_update_add (fun a : β → ℕ ↦ a b) held i mine
  have hb := hbalance b
  rw [h b] at hb
  omega

omit [DecidableEq ι] in
theorem Counted.le (h : Counted ref held) (i : ι) (b : β) : held i b ≤ ref b := by
  rw [h b]
  exact le_sum (fun i ↦ held i b) i

omit [DecidableEq ι] in
theorem Counted.add_le (h : Counted ref held) (hij : i ≠ j) (b : β) :
    held i b + held j b ≤ ref b := by
  rw [h b]
  exact add_le_sum (fun i ↦ held i b) hij

omit [DecidableEq ι] in
theorem Counted.exists_holder (h : Counted ref held) (hb : 0 < ref b) : ∃ i, 0 < held i b :=
  exists_pos_of_sum_pos (h b ▸ hb)

end Counted

/-- One fewer in a list without repetitions. -/
theorem countP_update [DecidableEq α] (hl : l.Nodup) (ha : a ∈ l) (hp : p a = true) :
    l.countP (Function.update p a false) + 1 = l.countP p := by
  induction l with
  | nil => cases ha
  | cons b l ih =>
    obtain ⟨hb, hl⟩ := List.nodup_cons.mp hl
    rcases eq_or_ne b a with rfl | hba
    · have hrest : l.countP (Function.update p b false) = l.countP p := by
        refine List.countP_congr fun x hx ↦ ?_
        rw [Function.update_of_ne]
        rintro rfl
        exact hb hx
      rw [List.countP_cons_of_neg (by simp), List.countP_cons_of_pos (by simpa using hp), hrest]
    · have ih := ih hl ((List.mem_cons.mp ha).resolve_left (Ne.symm hba))
      rw [List.countP_cons, List.countP_cons, Function.update_of_ne hba]
      omega

end Irish.Library
