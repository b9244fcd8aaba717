import Mathlib.Data.List.Forall2

/-!
# Tables of records

A table is a list whose entries are read and written by their index. A write is known by what is
found afterwards (`getElem?_set_cases`, and `update_cases` for a table that is a function), and
`List.Forall₂` is for programs whose writes keep every entry in a relation to what it was.
-/

set_option autoImplicit false

namespace Irish.Library

variable {α ι β : Type*} {R : α → α → Prop} {l l' l'' : List α} {i j : ℕ} {a b : α} {f : ι → β}
  {x y : β}

theorem lt_of_getElem? (h : l[i]? = some a) : i < l.length :=
  (List.getElem?_eq_some_iff.mp h).1

theorem getElem?_set_eq (h : l[i]? = some a) : (l.set i b)[i]? = some b :=
  List.getElem?_set_self (lt_of_getElem? h)

theorem getElem?_set_cases (h : (l.set i b)[j]? = some a) :
    j = i ∧ a = b ∨ j ≠ i ∧ l[j]? = some a := by
  rw [List.getElem?_set] at h
  split_ifs at h with hij hlt
  · exact .inl ⟨hij.symm, (Option.some.inj h).symm⟩
  · exact .inr ⟨Ne.symm hij, h⟩

theorem update_cases [DecidableEq ι] {i j : ι} (h : Function.update f i x j = y) :
    j = i ∧ x = y ∨ j ≠ i ∧ f j = y := by
  by_cases hj : j = i
  · rw [hj, Function.update_self] at h
    exact .inl ⟨hj, h⟩
  · rw [Function.update_of_ne hj] at h
    exact .inr ⟨hj, h⟩

theorem exists_of_forall₂_left (h : List.Forall₂ R l l') (ha : l[i]? = some a) :
    ∃ b, l'[i]? = some b ∧ R a b := by
  induction h generalizing i with
  | nil => simp at ha
  | cons hR _ ih =>
    cases i with
    | zero => exact ⟨_, rfl, by simpa using Option.some.inj ha ▸ hR⟩
    | succ i => exact ih ha

theorem exists_of_forall₂ (h : List.Forall₂ R l l') (hb : l'[i]? = some b) :
    ∃ a, l[i]? = some a ∧ R a b :=
  exists_of_forall₂_left (R := flip R) h.flip hb

theorem forall₂_trans [IsTrans α R] (h : List.Forall₂ R l l') (h' : List.Forall₂ R l' l'') :
    List.Forall₂ R l l'' := by
  induction h generalizing l'' with
  | nil => exact h'
  | cons hR _ ih =>
    cases h' with
    | cons hR' h' => exact .cons (IsTrans.trans _ _ _ hR hR') (ih h')

theorem forall₂_modify [Std.Refl R] {f : α → α} (hf : ∀ a, l[i]? = some a → R a (f a)) :
    List.Forall₂ R l (l.modify i f) := by
  induction l generalizing i with
  | nil => simp
  | cons b l ih =>
    cases i with
    | zero => exact .cons (hf b rfl) (List.forall₂_refl l)
    | succ i => exact .cons (Std.Refl.refl b) (ih hf)

theorem forall₂_set [Std.Refl R] (ha : l[i]? = some a) (hR : R a b) :
    List.Forall₂ R l (l.set i b) := by
  rw [List.set_eq_modify]
  refine forall₂_modify fun c hc ↦ ?_
  cases ha.symm.trans hc
  exact hR

end Irish.Library
