import Mathlib.Data.List.Nodup

/-!
# Doubly linked rings

A ring of nodes with a head that carries no element: the head is `none`, the node of an element is
`some` of it. `Ring` says which list the links spell, from the head around to the head. Taking an
element out (`Links.unlink`) and putting one behind the head (`Links.pushFront`) are the usual
assignments to the links, and walking along the links is searching the list, in its order along
`next` (`Ring.scan_next`) and from its end along `prev` (`Ring.scan_prev`).
-/

set_option autoImplicit false

namespace Irish.Library

open Function (update update_of_ne update_self)

variable {α : Type*} {b : α} {l : List α}

/-- The two links of every node. -/
structure Links (α : Type*) where
  next : Option α → Option α
  prev : Option α → Option α

/-- The links lead from one node through the elements of a list to another node, and back. -/
def Linked (next prev : Option α → Option α) : Option α → List α → Option α → Prop
  | a, [], z => next a = z ∧ prev z = a
  | a, b :: l, z => next a = some b ∧ prev (some b) = a ∧ Linked next prev (some b) l z

theorem some_mem_map : some b ∈ l.map some ↔ b ∈ l := by simp

section Linked

variable {next prev next' prev' : Option α → Option α} {a z w : Option α} {m : List α}

theorem linked_append : Linked next prev a (l ++ b :: m) z ↔
    Linked next prev a l (some b) ∧ Linked next prev (some b) m z := by
  induction l generalizing a with
  | nil => simp only [List.nil_append, Linked, and_assoc]
  | cons _ _ ih => simp only [List.cons_append, Linked, ih, and_assoc]

/-- The links of other nodes do not matter. -/
theorem Linked.congr (h : Linked next prev a l z)
    (hnext : ∀ x, x = a ∨ x ∈ l.map some → next' x = next x)
    (hprev : ∀ x, x = z ∨ x ∈ l.map some → prev' x = prev x) : Linked next' prev' a l z := by
  induction l generalizing a with
  | nil => exact ⟨(hnext a (.inl rfl)).trans h.1, (hprev z (.inl rfl)).trans h.2⟩
  | cons b _ ih =>
    obtain ⟨hab, hba, hrest⟩ := h
    refine ⟨(hnext a (.inl rfl)).trans hab, (hprev (some b) (.inr (by simp))).trans hba, ?_⟩
    refine ih hrest (fun x hx ↦ hnext x (.inr ?_)) fun x hx ↦ hprev x (hx.imp_right ?_)
    · rwa [List.map_cons, List.mem_cons]
    · intro hx
      exact List.mem_cons_of_mem _ hx

/-- The same links are walked backwards along `prev`. -/
theorem Linked.reverse (h : Linked next prev a l z) : Linked prev next z l.reverse a := by
  induction l generalizing a with
  | nil => exact ⟨h.2, h.1⟩
  | cons _ _ ih =>
    obtain ⟨hab, hba, hrest⟩ := h
    rw [List.reverse_cons, linked_append]
    exact ⟨ih hrest, hba, hab⟩

theorem Linked.next_mem (h : Linked next prev a l z) : next a = z ∨ next a ∈ l.map some := by
  cases l with
  | nil => exact .inl h.1
  | cons =>
    refine .inr ?_
    rw [h.1]
    exact List.mem_map_of_mem List.mem_cons_self

theorem Linked.prev_mem (h : Linked next prev a l z) : prev z = a ∨ prev z ∈ l.map some := by
  have hmem := h.reverse.next_mem
  rwa [List.map_reverse, List.mem_reverse] at hmem

variable [DecidableEq α]

/-- The last node before the end is led to another end. -/
theorem Linked.redirect (h : Linked next prev a l z) (hnodup : l.Nodup) (ha : a ∉ l.map some)
    (hw : w ∉ l.map some) : Linked (update next (prev z) w) (update prev w (prev z)) a l w := by
  induction l generalizing a with
  | nil =>
    rw [h.2]
    exact ⟨update_self .., update_self ..⟩
  | cons b l ih =>
    obtain ⟨hab, hba, hrest⟩ := h
    obtain ⟨hb, hl⟩ := List.nodup_cons.mp hnodup
    have hlast : prev z ∈ (b :: l).map some := by
      rw [List.map_cons, List.mem_cons]
      exact hrest.prev_mem
    have hneLast : a ≠ prev z := fun heq ↦ ha (heq ▸ hlast)
    have hneEnd : some b ≠ w := fun heq ↦ hw (heq ▸ List.mem_map_of_mem List.mem_cons_self)
    refine ⟨?_, ?_, ih hrest hl ?_ ?_⟩
    · rw [update_of_ne hneLast, hab]
    · rw [update_of_ne hneEnd, hba]
    · rwa [some_mem_map]
    · exact fun hmem ↦ hw (List.mem_cons_of_mem _ hmem)

end Linked

/-! ### Rings -/

/-- The links spell a list without repetition, from the head back to the head. -/
structure Ring (links : Links α) (order : List α) : Prop where
  nodup : order.Nodup
  linked : Linked links.next links.prev none order none

/-- The head alone. -/
def Links.empty : Links α := ⟨fun _ ↦ none, fun _ ↦ none⟩

theorem ring_empty : Ring (Links.empty : Links α) [] := ⟨List.nodup_nil, rfl, rfl⟩

/-- Follow one of the links from a node until an element passes the test or the head comes again.
The number bounds the walk. -/
def scan (link : Option α → Option α) (test : α → Bool) : ℕ → Option α → Option α
  | 0, _ => none
  | _ + 1, none => none
  | n + 1, some b => if test b then some b else scan link test n (link (some b))

section Ring

variable {links : Links α} {order : List α} {next prev : Option α → Option α} {a : Option α} {n : ℕ}

theorem scan_of_linked (test : α → Bool) (h : Linked next prev a l none) (hn : l.length < n) :
    scan next test n (next a) = l.find? test := by
  induction l generalizing a n with
  | nil =>
    obtain ⟨k, rfl⟩ := Nat.exists_eq_add_of_lt hn
    rw [h.1]
    rfl
  | cons b l ih =>
    obtain ⟨k, rfl⟩ := Nat.exists_eq_add_of_lt hn
    obtain ⟨hab, -, hrest⟩ := h
    rw [hab, scan, List.find?_cons]
    have hwalk : scan next test ((b :: l).length + k) (next (some b)) = l.find? test :=
      ih hrest (by simp only [List.length_cons]; omega)
    cases htest : test b with
    | true => rfl
    | false => simpa using hwalk

theorem Ring.scan_next (h : Ring links order) (test : α → Bool) (hn : order.length < n) :
    scan links.next test n (links.next none) = order.find? test :=
  scan_of_linked test h.linked hn

theorem Ring.scan_prev (h : Ring links order) (test : α → Bool) (hn : order.length < n) :
    scan links.prev test n (links.prev none) = order.reverse.find? test :=
  scan_of_linked test h.linked.reverse (by rwa [List.length_reverse])

variable [DecidableEq α]

/-- Lead the two neighbours of a node to each other. -/
def Links.unlink (b : α) (links : Links α) : Links α :=
  let prev := update links.prev (links.next (some b)) (links.prev (some b))
  { next := update links.next (prev (some b)) (links.next (some b)), prev := prev }

/-- Put a node between the head and its successor. -/
def Links.pushFront (b : α) (links : Links α) : Links α :=
  let next := update links.next (some b) (links.next none)
  let prev := update links.prev (some b) none
  { next := update next none (some b), prev := update prev (next none) (some b) }

theorem Ring.unlink (h : Ring links order) (hb : b ∈ order) :
    Ring (links.unlink b) (order.erase b) := by
  refine ⟨h.nodup.erase b, ?_⟩
  obtain ⟨l, m, rfl⟩ := List.append_of_mem hb
  obtain ⟨hl, hbm, hdisjoint⟩ := List.nodup_append.mp h.nodup
  obtain ⟨hnotMem, hm⟩ := List.nodup_cons.mp hbm
  have hbl : b ∉ l := fun hmem ↦ hdisjoint b hmem b List.mem_cons_self rfl
  obtain ⟨hbefore, hbehind⟩ := linked_append.mp h.linked
  have hother : some b ≠ links.next (some b) := by
    intro heq
    rcases hbehind.next_mem with hnext | hnext
    · exact Option.some_ne_none b (heq.trans hnext)
    · rw [← heq, some_mem_map] at hnext
      exact hnotMem hnext
  have hw : links.next (some b) ∉ l.map some := by
    intro hmem
    obtain ⟨c, hc, hcb⟩ := List.mem_map.mp hmem
    rcases hbehind.next_mem with hnext | hnext
    · exact Option.some_ne_none c (hcb.trans hnext)
    · rw [← hcb, some_mem_map] at hnext
      exact hdisjoint c hc c (List.mem_cons_of_mem _ hnext) rfl
  have hfirst := hbefore.redirect hl (by simp) hw
  rw [List.erase_append_right _ hbl, List.erase_cons_head, Links.unlink]
  simp only [update_of_ne hother]
  cases m with
  | nil =>
    rw [hbehind.1] at hfirst ⊢
    rwa [List.append_nil]
  | cons c m =>
    obtain ⟨hbc, hcb, hrest⟩ := hbehind
    obtain ⟨hcm, -⟩ := List.nodup_cons.mp hm
    rw [hbc] at hfirst ⊢
    refine linked_append.mpr ⟨hfirst, hrest.congr (fun x hx ↦ ?_) fun x hx ↦ ?_⟩
    · -- The node before `b` is the head or stands in the first part.
      refine update_of_ne (fun heq ↦ ?_) _ _
      have hx' : x ∈ (c :: m).map some := by
        rwa [List.map_cons, List.mem_cons]
      obtain ⟨d, hd, rfl⟩ := List.mem_map.mp hx'
      rcases hbefore.prev_mem with hprev | hprev
      · exact Option.some_ne_none d (heq.trans hprev)
      · rw [← heq, some_mem_map] at hprev
        exact hdisjoint d hprev d (List.mem_cons_of_mem _ hd) rfl
    · refine update_of_ne (fun heq ↦ ?_) _ _
      rw [heq, some_mem_map] at hx
      rcases hx with hx | hx
      · exact Option.some_ne_none c hx
      · exact hcm hx

theorem Ring.pushFront (h : Ring links order) (hb : b ∉ order) :
    Ring (links.pushFront b) (b :: order) := by
  refine ⟨List.nodup_cons.mpr ⟨hb, h.nodup⟩, ?_⟩
  obtain ⟨hnodup, hlinked⟩ := h
  have hnone : (none : Option α) ≠ some b := (Option.some_ne_none b).symm
  simp only [Links.pushFront, update_of_ne hnone]
  cases order with
  | nil =>
    refine ⟨update_self .., ?_, ?_, ?_⟩
    · rw [hlinked.1, update_of_ne hnone.symm, update_self]
    · rw [update_of_ne hnone.symm, update_self, hlinked.1]
    · rw [hlinked.1, update_self]
  | cons c m =>
    obtain ⟨hc, -, hrest⟩ := hlinked
    obtain ⟨hcm, -⟩ := List.nodup_cons.mp hnodup
    have hbc : some b ≠ some c := fun heq ↦ hb (Option.some.inj heq ▸ List.mem_cons_self)
    rw [hc]
    refine ⟨update_self .., ?_, ?_, ?_, hrest.congr (fun x hx ↦ ?_) fun x hx ↦ ?_⟩
    · rw [update_of_ne hbc, update_self]
    · rw [update_of_ne hnone.symm, update_self]
    · rw [update_self]
    · have hx' : x ∈ (c :: m).map some := by
        rwa [List.map_cons, List.mem_cons]
      obtain ⟨d, hd, rfl⟩ := List.mem_map.mp hx'
      have hdb : some d ≠ some b := fun heq ↦ hb (Option.some.inj heq ▸ hd)
      rw [update_of_ne (Option.some_ne_none d), update_of_ne hdb]
    · have hxc : x ≠ some c := by
        rintro rfl
        rw [some_mem_map] at hx
        exact hx.elim (Option.some_ne_none c) hcm
      have hxb : x ≠ some b := by
        rintro rfl
        rw [some_mem_map] at hx
        exact hx.elim (Option.some_ne_none b) fun hmem ↦ hb (List.mem_cons_of_mem _ hmem)
      rw [update_of_ne hxc, update_of_ne hxb]

end Ring

end Irish.Library
