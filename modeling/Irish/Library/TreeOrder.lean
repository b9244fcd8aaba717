import Mathlib.Data.List.Basic

/-!
# The order of a tree

The entries of a tree as the lists of names on the way to them, in lexicographic order. In this
order siblings are in the order of their names (`of_lex_append_singleton`), and an entry is followed
at once by all entries below it and by nothing else before the last of them
(`exists_block_of_pairwise`).
-/

set_option autoImplicit false

namespace Irish.Library

variable {α : Type*} {r : α → α → Prop} {p s q : List α} {before after : List (List α)}

section Irreflexive

variable [Std.Irrefl r] {s' : List α} {a b : α}

theorem lex_append_append (h : List.Lex r (p ++ s) (p ++ s')) : List.Lex r s s' := by
  induction p with
  | nil => exact h
  | cons a _ ih =>
    cases h with
    | rel hr => exact absurd hr (Std.Irrefl.irrefl a)
    | cons h => exact ih h

/-- Siblings are in the order of their names. -/
theorem of_lex_append_singleton (h : List.Lex r (p ++ [a]) (p ++ [b])) : r a b := by
  have hlast := lex_append_append h
  cases hlast with
  | rel hr => exact hr
  | cons h => cases h

/-- Nothing below an entry comes before it. -/
theorem not_prefix_of_lex (h : List.Lex r p q) : ¬ q <+: p := by
  rintro ⟨s, rfl⟩
  have hself : List.Lex r (q ++ s) (q ++ []) := by rwa [List.append_nil]
  have hlast := lex_append_append hself
  cases hlast

end Irreflexive

/-- What stands between an entry and one below it is below it too. -/
theorem prefix_of_lex_of_lex [Std.Asymm r] (hpq : List.Lex r p q) (hqs : List.Lex r q s)
    (hps : p <+: s) : p <+: q := by
  induction hpq generalizing s with
  | nil => exact List.nil_prefix
  | rel hr =>
    obtain ⟨t, rfl⟩ := hps
    cases hqs with
    | rel hr' => exact absurd hr' (Std.Asymm.asymm _ _ hr)
    | cons h => exact absurd hr (Std.Asymm.asymm _ _ hr)
  | cons _ ih =>
    obtain ⟨t, rfl⟩ := hps
    rw [List.cons_append] at hqs
    cases hqs with
    | rel hr => exact absurd hr (Std.Asymm.asymm _ _ hr)
    | cons h => exact (List.prefix_cons_inj _).mpr (ih h (List.prefix_append _ _))

/-- The entries below an entry are a block behind it. -/
theorem exists_block_of_pairwise [Std.Asymm r] (h : (before ++ p :: after).Pairwise (List.Lex r)) :
    (∀ q ∈ before, ¬ p <+: q) ∧
      ∃ block rest, after = block ++ rest ∧ (∀ q ∈ block, p <+: q) ∧ ∀ q ∈ rest, ¬ p <+: q := by
  obtain ⟨-, hafter, hbefore⟩ := List.pairwise_append.mp h
  refine ⟨fun q hq ↦ not_prefix_of_lex (hbefore q hq p List.mem_cons_self), ?_⟩
  clear h hbefore
  induction after with
  | nil => exact ⟨[], [], rfl, by simp, by simp⟩
  | cons q after ih =>
    obtain ⟨hp, hq, hrest⟩ : (∀ s ∈ q :: after, List.Lex r p s) ∧
        (∀ s ∈ after, List.Lex r q s) ∧ after.Pairwise (List.Lex r) := by
      rwa [List.pairwise_cons, List.pairwise_cons] at hafter
    by_cases hbelow : p <+: q
    · obtain ⟨block, rest, rfl, hblock, hnot⟩ := ih
        (List.pairwise_cons.mpr ⟨fun s hs ↦ hp s (List.mem_cons_of_mem _ hs), hrest⟩)
      exact ⟨q :: block, rest, rfl, List.forall_mem_cons.mpr ⟨hbelow, hblock⟩, hnot⟩
    · -- The block ends here: an entry below `p` further on would have `q` below `p` too.
      refine ⟨[], q :: after, rfl, by simp, List.forall_mem_cons.mpr ⟨hbelow, fun s hs hps ↦ ?_⟩⟩
      exact hbelow (prefix_of_lex_of_lex (hp q List.mem_cons_self) (hq s hs) hps)

end Irish.Library
