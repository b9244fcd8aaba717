import Irish.Library.Tables
import Mathlib.Algebra.GroupWithZero.Nat
import Mathlib.Order.Basic

/-!
# Sweeping a table with an accumulator

`sweep body table acc` visits the entries of a table in order. The body rewrites the entry it
visits and threads an accumulator, which is how a loop over an array of records behaves when its
body touches only the record under the cursor and a shared counter. `sweep_rule` reduces an
invariant of the loop to one visit, stated on the whole table with one entry replaced, and
`getElem?_sweep` says what the sweep did to one entry. `sum_map_set_lt` is about a single write: a
sum over the table gets smaller when the entry that is written does and the others stay.
-/

set_option autoImplicit false

namespace Irish.Library

variable {α γ : Type*} {body : α → γ → α × γ} {table : List α} {P : List α → γ → Prop} {acc : γ}
  {i : ℕ} {a b : α} {f g : α → ℕ} {R : α → α → Prop}

/-- Rewrite every entry of a table in order, threading an accumulator. -/
def sweep (body : α → γ → α × γ) : List α → γ → List α × γ
  | [], acc => ([], acc)
  | a :: rest, acc =>
    ((body a acc).1 :: (sweep body rest (body a acc).2).1, (sweep body rest (body a acc).2).2)

@[simp] theorem length_sweep (body : α → γ → α × γ) (table : List α) (acc : γ) :
    (sweep body table acc).1.length = table.length := by
  induction table generalizing acc with
  | nil => rfl
  | cons _ _ ih => simp [sweep, ih]

/-- The loop rule: a relation between table and accumulator that survives one visit, to any entry
of the table, survives the sweep. -/
theorem sweep_rule
    (hvisit : ∀ (table : List α) (i : ℕ) (a : α) (acc : γ), table[i]? = some a → P table acc →
      P (table.set i (body a acc).1) (body a acc).2) (h : P table acc) :
    P (sweep body table acc).1 (sweep body table acc).2 := by
  -- The entries already visited are carried as a prefix of the table.
  have hvisited : ∀ (rest done : List α) (acc : γ), P (done ++ rest) acc →
      P (done ++ (sweep body rest acc).1) (sweep body rest acc).2 := by
    intro rest
    induction rest with
    | nil => intro done acc hP; simpa [sweep] using hP
    | cons a rest ih =>
      intro done acc hP
      have hget : (done ++ a :: rest)[done.length]? = some a := by simp
      have hnext := hvisit _ _ _ acc hget hP
      rw [List.set_append_right _ _ (Nat.le_refl _), Nat.sub_self, List.set_cons_zero] at hnext
      have hrest := ih (done ++ [(body a acc).1]) (body a acc).2 (by simpa using hnext)
      simpa [sweep] using hrest
  exact hvisited table [] acc h

/-- What a sweep does to one entry: the body is applied to it once, with an accumulator between the
initial and the final one. Assumes: the body never lowers the accumulator. -/
theorem getElem?_sweep [Preorder γ] (hmono : ∀ a acc, acc ≤ (body a acc).2) (h : table[i]? = some a)
    (acc : γ) :
    ∃ c, acc ≤ c ∧ (body a c).2 ≤ (sweep body table acc).2 ∧
      (sweep body table acc).1[i]? = some (body a c).1 := by
  have htail : ∀ (table : List α) (acc : γ), acc ≤ (sweep body table acc).2 := by
    intro table
    induction table with
    | nil => intro acc; exact le_refl acc
    | cons b _ ih => intro acc; exact (hmono b acc).trans (ih _)
  induction table generalizing i acc with
  | nil => simp at h
  | cons b _ ih =>
    cases i with
    | zero =>
      simp only [List.getElem?_cons_zero] at h
      cases h
      exact ⟨acc, le_refl acc, htail _ _, by simp [sweep]⟩
    | succ i =>
      simp only [List.getElem?_cons_succ] at h
      obtain ⟨c, hle, hend, hget⟩ := ih h (body b acc).2
      exact ⟨c, (hmono b acc).trans hle, hend, by simpa [sweep] using hget⟩

/-- An entry after a sweep comes from the entry before it. -/
theorem exists_of_sweep (h : (sweep body table acc).1[i]? = some a) :
    ∃ a₀ c, table[i]? = some a₀ ∧ a = (body a₀ c).1 := by
  induction table generalizing i acc with
  | nil => simp [sweep] at h
  | cons b _ ih =>
    cases i with
    | zero =>
      simp only [sweep, List.getElem?_cons_zero, Option.some.injEq] at h
      exact ⟨b, acc, rfl, h.symm⟩
    | succ i =>
      simp only [sweep, List.getElem?_cons_succ] at h ⊢
      exact ih h

theorem sum_map_set_lt (h : table[i]? = some a)
    (hrest : ∀ j c, j ≠ i → table[j]? = some c → g c = f c) (hlt : g b < f a) :
    ((table.set i b).map g).sum < (table.map f).sum := by
  induction table generalizing i with
  | nil => simp at h
  | cons c rest ih =>
    cases i with
    | zero =>
      simp only [List.getElem?_cons_zero] at h
      cases h
      have hsame : rest.map g = rest.map f := by
        refine List.map_congr_left fun x hx ↦ ?_
        obtain ⟨j, hj⟩ := List.getElem?_of_mem hx
        exact hrest (j + 1) x (Nat.succ_ne_zero j) (by simpa using hj)
      simp only [List.set_cons_zero, List.map_cons, List.sum_cons, hsame]
      omega
    | succ i =>
      have hhead : g c = f c := hrest 0 c (Nat.succ_ne_zero i).symm (by simp)
      have htail := ih (i := i) (by simpa using h) fun j x hj hx ↦
        hrest (j + 1) x (by omega) (by simpa using hx)
      simp only [List.set_cons_succ, List.map_cons, List.sum_cons, hhead]
      omega

theorem forall₂_sweep (h : ∀ a acc, R a (body a acc).1) (table : List α) (acc : γ) :
    List.Forall₂ R table (sweep body table acc).1 := by
  induction table generalizing acc with
  | nil => exact .nil
  | cons a _ ih => exact .cons (h a acc) (ih _)

end Irish.Library
