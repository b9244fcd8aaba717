import Irish.Library.Tables
import Mathlib.Data.List.Nodup

/-!
# Tables with a key

A table of bounded size whose entries carry a key, kept by linear search: an event for a key
rewrites the first entry that has the key, and if there is none it appends an entry, or is dropped
when the table is full. As long as the keys are distinct, one event is a map over the table and at
most one entry behind it (`upsert_eq`), so an entry keeps its place and sees exactly the events for
its key (`getElem?_foldl_upsert`).
-/

set_option autoImplicit false

namespace Irish.Library

variable {α κ ε : Type*} [DecidableEq κ] (key : α → κ)

/-- Rewrite the first entry with a key. -/
def updateFirst (k : κ) (f : α → α) : List α → List α
  | [] => []
  | a :: rest => if key a = k then f a :: rest else a :: updateFirst k f rest

/-- Rewrite the first entry with a key; without one append a new entry unless the table is full. -/
def upsert (limit : ℕ) (k : κ) (f : α → α) (new : α) (table : List α) : List α :=
  if k ∈ table.map key then updateFirst key k f table
  else if table.length < limit then table ++ [new]
  else table

/-- What an event for a key does to an entry. -/
def touch (k : κ) (f : α → α) (a : α) : α := if key a = k then f a else a

variable {key} {limit i : ℕ} {k : κ} {f : α → α} {new a : α} {table : List α} {β : Type*}
  {g : α → β} {keyOf : ε → κ} {events : List ε}

theorem touch_of_eq (h : key a = k) : touch key k f a = f a := if_pos h

theorem touch_of_ne (h : key a ≠ k) : touch key k f a = a := if_neg h

/-- An event leaves alone what its function leaves alone. -/
theorem apply_touch (hg : ∀ a, g (f a) = g a) (a : α) : g (touch key k f a) = g a := by
  by_cases ha : key a = k
  · rw [touch_of_eq ha, hg]
  · rw [touch_of_ne ha]

theorem map_touch_of_notMem (h : k ∉ table.map key) : table.map (touch key k f) = table := by
  conv_rhs => rw [← List.map_id table]
  refine List.map_congr_left fun a ha ↦ touch_of_ne fun hkey ↦ h ?_
  exact hkey ▸ List.mem_map_of_mem ha

theorem updateFirst_eq_map (hnodup : (table.map key).Nodup) :
    updateFirst key k f table = table.map (touch key k f) := by
  induction table with
  | nil => rfl
  | cons _ _ ih =>
    rw [List.map_cons, List.nodup_cons] at hnodup
    rw [updateFirst, List.map_cons]
    split_ifs with ha
    · rw [touch_of_eq ha, map_touch_of_notMem (ha ▸ hnodup.1)]
    · rw [touch_of_ne ha, ih hnodup.2]

@[simp]
theorem length_updateFirst : (updateFirst key k f table).length = table.length := by
  induction table with
  | nil => rfl
  | cons _ _ ih =>
    rw [updateFirst]
    split_ifs
    · rfl
    · simp [ih]

theorem length_upsert_le (hlength : table.length ≤ limit) :
    (upsert key limit k f new table).length ≤ limit := by
  unfold upsert
  split_ifs with hk hroom
  · rwa [length_updateFirst]
  · rwa [List.length_append, List.length_singleton, Nat.add_one_le_iff]
  · exact hlength

/-- One event, for a table with distinct keys. -/
theorem upsert_eq (hnodup : (table.map key).Nodup) :
    upsert key limit k f new table = table.map (touch key k f) ++
      if k ∈ table.map key ∨ limit ≤ table.length then [] else [new] := by
  unfold upsert
  by_cases hk : k ∈ table.map key
  · simp only [hk, if_true, true_or, List.append_nil, updateFirst_eq_map hnodup]
  · rw [map_touch_of_notMem hk]
    by_cases hfull : table.length < limit
    · simp [hk, hfull]
    · simp [hk, hfull, Nat.le_of_not_lt hfull]

section Keys

variable (hf : ∀ a, key (f a) = key a) (hnew : key new = k)
include hf

theorem map_key_touch (table : List α) : (table.map (touch key k f)).map key = table.map key := by
  rw [List.map_map]
  exact List.map_congr_left fun a _ ↦ apply_touch hf a

include hnew

theorem map_key_upsert (hnodup : (table.map key).Nodup) :
    (upsert key limit k f new table).map key = table.map key ++
      if k ∈ table.map key ∨ limit ≤ table.length then [] else [k] := by
  rw [upsert_eq hnodup, List.map_append, map_key_touch hf]
  split_ifs
  · rfl
  · rw [List.map_singleton, hnew]

theorem nodup_upsert (hnodup : (table.map key).Nodup) :
    ((upsert key limit k f new table).map key).Nodup := by
  rw [map_key_upsert hf hnew hnodup]
  split_ifs with hk
  · rwa [List.append_nil]
  · rw [← List.concat_eq_append]
    exact hnodup.concat fun h ↦ hk (.inl h)

end Keys

/-- An entry keeps its place. -/
theorem getElem?_upsert (hnodup : (table.map key).Nodup) (h : table[i]? = some a) :
    (upsert key limit k f new table)[i]? = some (touch key k f a) := by
  have hlt : i < (table.map (touch key k f)).length := by
    rw [List.length_map]
    exact lt_of_getElem? h
  rw [upsert_eq hnodup, List.getElem?_append_left hlt, List.getElem?_map, h, Option.map_some]

/-- Over a run, an entry sees exactly the events for its key. -/
theorem getElem?_foldl_upsert {f : ε → α → α} {new : ε → α} (hf : ∀ e a, key (f e a) = key a)
    (hnew : ∀ e, key (new e) = keyOf e) (hnodup : (table.map key).Nodup) (h : table[i]? = some a) :
    (events.foldl (fun t e ↦ upsert key limit (keyOf e) (f e) (new e) t) table)[i]? =
      some ((events.filter (keyOf · = key a)).foldl (fun a e ↦ f e a) a) := by
  induction events generalizing table a with
  | nil => exact h
  | cons e _ ih =>
    rw [List.foldl_cons, ih (nodup_upsert (hf e) (hnew e) hnodup) (getElem?_upsert hnodup h)]
    by_cases he : keyOf e = key a
    · rw [touch_of_eq he.symm, hf, List.filter_cons_of_pos (by simpa using he), List.foldl_cons]
    · rw [touch_of_ne (Ne.symm he), List.filter_cons_of_neg (by simpa using he)]

end Irish.Library
