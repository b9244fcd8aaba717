import Mathlib.Data.List.ReduceOption
import Mathlib.Data.List.TakeWhile

/-!
# Heap arrays that double when they are full

A block of heap cells and the number of cells in use. A cell that has been allocated but not
written holds nothing. `reserve` is the usual `realloc` to twice the capacity, done when the next
writes might not fit. `Holds` relates an array to the sequence it stores; it says that the cells in
use are exactly that sequence, so it is the specification of every operation that appends.
-/

set_option autoImplicit false

namespace Irish.Library

structure GrowArray (α : Type*) where
  cells : List (Option α)
  used : ℕ
deriving DecidableEq, Repr

namespace GrowArray

variable {α : Type*}

def capacity (a : GrowArray α) : ℕ := a.cells.length

/-- A fresh block, as `malloc` returns it. -/
def allocate (capacity : ℕ) : GrowArray α := ⟨List.replicate capacity none, 0⟩

/-- Double the capacity if fewer than `slack` cells are free. -/
def reserve (a : GrowArray α) (slack : ℕ) : GrowArray α :=
  if a.used + slack > a.capacity then
    { a with cells := a.cells ++ List.replicate a.capacity none }
  else a

def write (a : GrowArray α) (i : ℕ) (x : α) : GrowArray α :=
  { a with cells := a.cells.set i (some x) }

/-- Append one element, having made sure that `slack` cells are free. -/
def push (a : GrowArray α) (slack : ℕ) (x : α) : GrowArray α :=
  { (a.reserve slack).write a.used x with used := a.used + 1 }

/-- A write that goes through only if the block has the cell. -/
def store (a : GrowArray α) (i : ℕ) (x : α) : Option (GrowArray α) :=
  if i < a.capacity then some (a.write i x) else none

/-- Write the first free cell, if there is one, and count it. -/
def storeNext (a : GrowArray α) (x : α) : Option (GrowArray α) :=
  (a.store a.used x).map fun a' ↦ { a' with used := a.used + 1 }

/-- The elements in the cells in use. -/
def contents (a : GrowArray α) : List α := (a.cells.take a.used).reduceOption

/-- The array stores a sequence. -/
structure Holds (a : GrowArray α) (xs : List α) : Prop where
  used_eq : a.used = xs.length
  cells_eq : a.cells.take a.used = xs.map some

theorem reduceOption_map_some (xs : List α) : (xs.map some).reduceOption = xs := by
  show (xs.map some).filterMap id = xs
  rw [List.filterMap_map, Function.id_comp, List.filterMap_some]

variable {a : GrowArray α} {xs : List α} {capacity m slack i m' : ℕ} {x nul : α}

theorem Holds.contents_eq (h : a.Holds xs) : a.contents = xs := by
  rw [contents, h.cells_eq, reduceOption_map_some]

theorem holds_allocate (capacity : ℕ) : (allocate capacity : GrowArray α).Holds [] :=
  ⟨rfl, rfl⟩

@[simp] theorem used_reserve (a : GrowArray α) (slack : ℕ) : (a.reserve slack).used = a.used := by
  unfold reserve
  split_ifs <;> rfl

theorem Holds.used_le (h : a.Holds xs) : a.used ≤ a.capacity := by
  have hlength := congrArg List.length h.cells_eq
  rw [List.length_take, List.length_map, ← h.used_eq] at hlength
  unfold capacity
  omega

theorem Holds.reserve (h : a.Holds xs) (slack : ℕ) : (a.reserve slack).Holds xs := by
  have hused := h.used_le
  unfold capacity at hused
  refine ⟨by rw [used_reserve, h.used_eq], ?_⟩
  rw [used_reserve]
  unfold GrowArray.reserve
  split_ifs
  · rw [List.take_append_of_le_length hused, h.cells_eq]
  · exact h.cells_eq

theorem capacity_reserve (a : GrowArray α) (slack : ℕ) : (a.reserve slack).capacity =
    if a.used + slack > a.capacity then 2 * a.capacity else a.capacity := by
  unfold GrowArray.reserve
  split_ifs
  · simp only [capacity, List.length_append, List.length_replicate]
    omega
  · rfl

/-- After `reserve` there is room. Assumes: the array is not empty and the slack is at most its
capacity. -/
theorem slack_le_capacity_reserve (hused : a.used ≤ a.capacity)
    (hslack : slack ≤ a.capacity) : a.used + slack ≤ (a.reserve slack).capacity := by
  rw [capacity_reserve]
  split_ifs with hfull
  · omega
  · omega

theorem capacity_le_reserve (a : GrowArray α) (slack : ℕ) :
    a.capacity ≤ (a.reserve slack).capacity := by
  rw [capacity_reserve]
  split_ifs
  · omega
  · exact le_rfl

@[simp] theorem capacity_write (a : GrowArray α) (i : ℕ) (x : α) :
    (a.write i x).capacity = a.capacity := by
  simp [write, capacity]

/-- A write behind the cells in use is not seen. -/
theorem Holds.write_of_le (h : a.Holds xs) (hi : a.used ≤ i) : (a.write i x).Holds xs := by
  refine ⟨h.used_eq, ?_⟩
  show (a.cells.set i (some x)).take a.used = xs.map some
  rw [List.take_set_of_le hi]
  exact h.cells_eq

/-- A write to the first free cell, which is then in use. -/
theorem Holds.append (h : a.Holds xs) (hroom : a.used < a.capacity) :
    ({ a.write a.used x with used := a.used + 1 } : GrowArray α).Holds (xs ++ [x]) := by
  refine ⟨by simp [h.used_eq], ?_⟩
  show (a.cells.set a.used (some x)).take (a.used + 1) = (xs ++ [x]).map some
  rw [List.take_add_one, List.take_set_of_le le_rfl, h.cells_eq]
  have hget : (a.cells.set a.used (some x))[a.used]? = some (some x) :=
    List.getElem?_set_self hroom
  rw [hget]
  simp

theorem Holds.push (h : a.Holds xs) (x : α) (hpos : 0 < slack)
    (hslack : slack ≤ a.capacity) : (a.push slack x).Holds (xs ++ [x]) := by
  have hroom := slack_le_capacity_reserve h.used_le hslack
  have hlt : (a.reserve slack).used < (a.reserve slack).capacity := by
    rw [used_reserve]
    omega
  simpa [GrowArray.push] using (h.reserve slack).append (x := x) hlt

@[simp] theorem capacity_push (a : GrowArray α) (slack : ℕ) (x : α) :
    (a.push slack x).capacity = (a.reserve slack).capacity :=
  capacity_write (a.reserve slack) a.used x

/-- The cell that is written is there. -/
theorem slack_le_capacity_push (hused : a.used ≤ a.capacity) (hslack : slack ≤ a.capacity) :
    a.used + slack ≤ (a.push slack x).capacity := by
  rw [capacity_push]
  exact slack_le_capacity_reserve hused hslack

/-- Appending with a check of the write. -/
theorem storeNext_reserve (h : a.used < (a.reserve slack).capacity)
    (x : α) : (a.reserve slack).storeNext x = some (a.push slack x) := by
  rw [storeNext, store, used_reserve, if_pos h]
  rfl

theorem capacity_le_push (a : GrowArray α) (slack : ℕ) (x : α) :
    a.capacity ≤ (a.push slack x).capacity := by
  rw [capacity_push]
  exact capacity_le_reserve a slack

/-! ### Terminated strings -/

/-- The string at the start of the block, up to the first terminator. -/
def text [DecidableEq α] (nul : α) (a : GrowArray α) : List α :=
  (a.cells.takeWhile fun cell ↦ cell ≠ some nul).reduceOption

/-- A terminator behind the cells in use ends the string there. -/
theorem Holds.text_eq [DecidableEq α] (h : a.Holds xs) (hend : a.cells[a.used]? = some (some nul))
    (hnul : nul ∉ xs) : a.text nul = xs := by
  obtain ⟨hlt, hget⟩ := List.getElem?_eq_some_iff.mp hend
  have hsplit : a.cells = xs.map some ++ some nul :: a.cells.drop (a.used + 1) := by
    rw [← h.cells_eq, ← hget, ← List.drop_eq_getElem_cons hlt, List.take_append_drop]
  have htake : a.cells.takeWhile (fun cell ↦ cell ≠ some nul) = xs.map some := by
    rw [hsplit, List.takeWhile_append_of_pos]
    · simp
    · intro cell hcell
      obtain ⟨x, hx, rfl⟩ := List.mem_map.mp hcell
      simpa using fun heq : x = nul ↦ hnul (heq ▸ hx)
  rw [text, htake, reduceOption_map_some]

theorem notMem_text [DecidableEq α] (nul : α) (a : GrowArray α) : nul ∉ a.text nul := by
  intro hmem
  simpa using List.mem_takeWhile_imp (List.reduceOption_mem_iff.mp hmem)

/-! ### Blocks of a fixed size

A block that is never enlarged: a checked write goes through as long as there is a bound on the
number of cells in use that is below the size of the block. -/

/-- The array stores a sequence of at most `m` elements in a block of `capacity` cells. -/
structure Fits (capacity m : ℕ) (a : GrowArray α) (xs : List α) : Prop where
  holds : a.Holds xs
  capacity_eq : a.capacity = capacity
  length_le : xs.length ≤ m

theorem fits_allocate (capacity : ℕ) : Fits capacity 0 (allocate capacity : GrowArray α) [] :=
  ⟨holds_allocate capacity, List.length_replicate, le_rfl⟩

theorem Fits.mono (h : Fits capacity m a xs) (hm : m ≤ m') : Fits capacity m' a xs :=
  ⟨h.holds, h.capacity_eq, Nat.le_trans h.length_le hm⟩

theorem Fits.used_lt (h : Fits capacity m a xs) (hm : m < capacity) : a.used < a.capacity := by
  rw [h.holds.used_eq, h.capacity_eq]
  exact Nat.lt_of_le_of_lt h.length_le hm

/-- A mark behind the last element. -/
theorem Fits.store (h : Fits capacity m a xs) (hm : m < capacity) (x : α) :
    ∃ a', a.store a.used x = some a' ∧ Fits capacity m a' xs := by
  refine ⟨a.write a.used x, if_pos (h.used_lt hm), ?_⟩
  exact ⟨h.holds.write_of_le le_rfl, (capacity_write a _ x).trans h.capacity_eq,
    h.length_le⟩

theorem Fits.storeNext (h : Fits capacity m a xs) (hm : m < capacity) (x : α) :
    ∃ a', a.storeNext x = some a' ∧ Fits capacity (m + 1) a' (xs ++ [x]) := by
  have hroom := h.used_lt hm
  refine ⟨{ a.write a.used x with used := a.used + 1 }, ?_, ?_⟩
  · rw [GrowArray.storeNext, GrowArray.store, if_pos hroom, Option.map_some]
  · refine ⟨h.holds.append hroom, (capacity_write a _ x).trans h.capacity_eq, ?_⟩
    rw [List.length_append, List.length_singleton]
    exact Nat.add_le_add_right h.length_le 1

end GrowArray

end Irish.Library
