import Mathlib.Data.Nat.Notation
import Mathlib.Tactic.SplitIfs

/-!
# Lines

A sequence split at its newlines, where a newline at the end does not start a further line
(`lines`). Read from the left this is a recursion of its own; read from the right, chunk by chunk,
it is `List.splitOn` of the sequence without its last newline, and `splitOn_append` says how a
partial line is carried from one chunk to the chunk before it.
-/

set_option autoImplicit false

namespace Irish.Library

variable {α : Type} [DecidableEq α] (nl : α) {c : α} {b l line first : List α}
  {others : List (List α)}

def lines : List α → List (List α)
  | [] => []
  | c :: rest =>
    if c = nl then [] :: lines rest
    else
      match lines rest with
      | [] => [[c]]
      | l :: ls => (c :: l) :: ls

/-- Drop one newline at the end. -/
def chop (l : List α) : List α := if l.getLast? = some nl then l.dropLast else l

theorem lines_cons_of_ne (hc : c ≠ nl) (rest : List α) :
    lines nl (c :: rest) = match lines nl rest with
      | [] => [[c]]
      | l :: ls => (c :: l) :: ls := by
  rw [lines, if_neg hc]

@[simp] theorem lines_cons_newline (rest : List α) :
    lines nl (nl :: rest) = [] :: lines nl rest := by
  rw [lines, if_pos rfl]

theorem chop_append (a : List α) (hb : b ≠ []) : chop nl (a ++ b) = a ++ chop nl b := by
  have hlast : (a ++ b).getLast? = b.getLast? := by
    rw [List.getLast?_append, List.getLast?_eq_some_getLast hb]
    rfl
  unfold chop
  rw [hlast, List.dropLast_append_of_ne_nil hb]
  split_ifs <;> rfl

/-! ### Reading from the right -/

theorem splitOn_cons_of_ne (hc : c ≠ nl) (l : List α) :
    (c :: l).splitOn nl = (l.splitOn nl).modifyHead (List.cons c) := by
  rw [List.splitOn, List.splitOnP_cons_eq_if_modifyHead, if_neg (by simpa using hc)]
  rfl

@[simp] theorem splitOn_cons_newline (l : List α) : (nl :: l).splitOn nl = [] :: l.splitOn nl := by
  rw [List.splitOn, List.splitOnP_cons_eq_if_modifyHead, if_pos (by simp)]
  rfl

theorem exists_splitOn (l : List α) : ∃ h ts, l.splitOn nl = h :: ts :=
  List.exists_cons_of_ne_nil (List.splitOnP_ne_nil _ l)

theorem splitOn_eq_singleton (h : nl ∉ l) : l.splitOn nl = [l] := by
  refine List.splitOnP_eq_singleton fun x hx ↦ ?_
  have hne : x ≠ nl := fun heq ↦ h (heq ▸ hx)
  simpa using hne

theorem splitOn_append_newline (a b : List α) :
    (a ++ nl :: b).splitOn nl = a.splitOn nl ++ b.splitOn nl :=
  List.splitOnP_append_cons a b (by simp)

theorem not_mem_of_mem_splitOn (h : line ∈ l.splitOn nl) : nl ∉ line := by
  induction l generalizing line with
  | nil =>
    obtain rfl : line = [] := by simpa using h
    exact List.not_mem_nil
  | cons c rest ih =>
    by_cases hc : c = nl
    · subst hc
      rw [splitOn_cons_newline] at h
      rcases List.mem_cons.mp h with rfl | h
      · exact List.not_mem_nil
      · exact ih h
    · obtain ⟨first, others, hrest⟩ := exists_splitOn nl rest
      rw [splitOn_cons_of_ne nl hc, hrest] at h
      rw [hrest] at ih
      rcases List.mem_cons.mp h with rfl | h
      · exact List.not_mem_cons_of_ne_of_not_mem (Ne.symm hc) (ih List.mem_cons_self)
      · exact ih (List.mem_cons_of_mem _ h)

/-- The first part of a sequence is a prefix of it. -/
theorem take_length_of_splitOn (h : l.splitOn nl = first :: others) :
    l.take first.length = first := by
  induction l generalizing first with
  | nil =>
    obtain ⟨rfl, -⟩ : first = [] ∧ others = [] := by simpa [eq_comm] using h
    rfl
  | cons c rest ih =>
    by_cases hc : c = nl
    · subst hc
      rw [splitOn_cons_newline] at h
      cases h
      rfl
    · obtain ⟨head, tail, hrest⟩ := exists_splitOn nl rest
      rw [splitOn_cons_of_ne nl hc, hrest] at h
      cases h
      simp [ih hrest]

/-- What comes before a sequence only lengthens its first part. -/
theorem splitOn_append (h : b.splitOn nl = first :: others) (a : List α) :
    (a ++ b).splitOn nl = (a ++ first).splitOn nl ++ others := by
  induction a with
  | nil =>
    have hfirst : nl ∉ first := not_mem_of_mem_splitOn nl (h ▸ List.mem_cons_self)
    simp [h, splitOn_eq_singleton nl hfirst]
  | cons c a ih =>
    by_cases hc : c = nl
    · subst hc
      simp [ih]
    · obtain ⟨head, tail, hsplit⟩ := exists_splitOn nl (a ++ first)
      simp [splitOn_cons_of_ne nl hc, ih, hsplit]

/-- The lines of a sequence are its parts between newlines, but for a newline at its end. -/
theorem lines_eq_splitOn (h : l ≠ []) : lines nl l = (chop nl l).splitOn nl := by
  induction l with
  | nil => exact absurd rfl h
  | cons c rest ih =>
    by_cases hrest : rest = []
    · subst hrest
      by_cases hc : c = nl
      · subst hc
        simp [lines, chop]
      · simp [lines, chop, hc, splitOn_eq_singleton nl (l := [c]) (by simpa using Ne.symm hc)]
    · rw [show c :: rest = [c] ++ rest from rfl, chop_append nl [c] hrest, List.singleton_append,
        List.singleton_append]
      by_cases hc : c = nl
      · subst hc
        simp [ih hrest]
      · obtain ⟨first, others, hsplit⟩ := exists_splitOn nl (chop nl rest)
        rw [lines_cons_of_ne nl hc, ih hrest, splitOn_cons_of_ne nl hc, hsplit]
        rfl

theorem length_le_of_mem_lines (h : line ∈ lines nl l) : line.length ≤ l.length := by
  induction l generalizing line with
  | nil => cases h
  | cons c rest ih =>
    by_cases hc : c = nl
    · subst hc
      rw [lines_cons_newline] at h
      rcases List.mem_cons.mp h with rfl | h
      · exact Nat.zero_le _
      · exact Nat.le_succ_of_le (ih h)
    · rw [lines_cons_of_ne nl hc] at h
      cases hrest : lines nl rest with
      | nil =>
        rw [hrest] at h
        obtain rfl := List.mem_singleton.mp h
        exact Nat.succ_le_succ (Nat.zero_le _)
      | cons first others =>
        rw [hrest] at h ih
        rcases List.mem_cons.mp h with rfl | h
        · exact Nat.succ_le_succ (ih List.mem_cons_self)
        · exact Nat.le_succ_of_le (ih (List.mem_cons_of_mem _ h))

theorem not_mem_of_mem_lines (h : line ∈ lines nl l) : nl ∉ line := by
  by_cases hnil : l = []
  · subst hnil
    cases h
  · rw [lines_eq_splitOn nl hnil] at h
    exact not_mem_of_mem_splitOn nl h

end Irish.Library
