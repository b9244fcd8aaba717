import Mathlib.Data.List.DropRight

/-!
# Buffered output streams

An output stream keeps bytes back in a buffer. A full buffer is written, at the latest when the next
byte comes, and a line-buffered stream is written at each newline; `flush` writes what is left. When
a buffer has just become full a library may write it at once or keep it. Which it does can depend on
how the bytes are put (one by one, or many in one call), so it is a choice for each byte here
(`atOnce`).

`written_append_pending` says that nothing is lost or reordered, `length_pending_print` how much is
still in the buffer after any output, up to whole buffers, and `filter_written_eq_iff` when all of
an output has left the buffer.
-/

set_option autoImplicit false

namespace Irish.Library

inductive Buffering
  | line
  | full
deriving DecidableEq, Repr

/-- If the byte that is put `k` bytes from now fills the buffer, `atOnce k` says whether the buffer
is written with it or kept until the next byte. -/
structure OutStream (α : Type) where
  buffering : Buffering
  capacity : ℕ
  atOnce : ℕ → Bool
  pending : List α
  pos : 0 < capacity
  room : pending.length ≤ capacity

namespace OutStream

variable {α : Type} (newline : α → Bool)

/-- A byte that is written as soon as it is put: a newline on a line-buffered stream. -/
def forced (buffering : Buffering) (a : α) : Bool := buffering = .line && newline a

/-- What is written to make room for one more byte, and what stays in the buffer. -/
def makeRoom (s : OutStream α) : List α × List α :=
  if s.pending.length = s.capacity then (s.pending, []) else ([], s.pending)

theorem makeRoom_append (s : OutStream α) : s.makeRoom.1 ++ s.makeRoom.2 = s.pending := by
  unfold makeRoom
  split_ifs
  · exact List.append_nil _
  · exact List.nil_append _

theorem length_makeRoom (s : OutStream α) :
    s.makeRoom.2.length = s.pending.length % s.capacity := by
  have hroom := s.room
  unfold makeRoom
  split_ifs with hfull
  · rw [hfull, Nat.mod_self]
    rfl
  · rw [Nat.mod_eq_of_lt (by omega)]

theorem length_makeRoom_lt (s : OutStream α) : s.makeRoom.2.length < s.capacity := by
  rw [length_makeRoom]
  exact Nat.mod_lt _ s.pos

/-- The next byte leaves nothing in the buffer. -/
def sends (s : OutStream α) (a : α) : Prop :=
  forced newline s.buffering a = true ∨ s.makeRoom.2.length + 1 = s.capacity ∧ s.atOnce 0 = true

instance (s : OutStream α) (a : α) : Decidable (s.sends newline a) :=
  inferInstanceAs (Decidable (_ ∨ _))

/-- What is handed to the system, and the stream that is left. -/
def putc (s : OutStream α) (a : α) : List α × OutStream α :=
  if s.sends newline a then
    (s.makeRoom.1 ++ (s.makeRoom.2 ++ [a]),
      { s with atOnce := fun k ↦ s.atOnce (k + 1), pending := [], room := Nat.zero_le _ })
  else
    (s.makeRoom.1,
      { s with
        atOnce := fun k ↦ s.atOnce (k + 1)
        pending := s.makeRoom.2 ++ [a]
        room := by
          rw [List.length_append, List.length_singleton]
          exact s.length_makeRoom_lt })

def print (s : OutStream α) : List α → List α × OutStream α
  | [] => ([], s)
  | a :: l => ((s.putc newline a).1 ++ ((s.putc newline a).2.print l).1,
      ((s.putc newline a).2.print l).2)

/-- What has been put since a write was last forced, the output `l` included. -/
def unforced (s : OutStream α) (l : List α) : List α :=
  if l.any (forced newline s.buffering) then l.rtakeWhile fun a ↦ !forced newline s.buffering a
  else s.pending ++ l

/-! ### Putting one byte -/

@[simp] theorem buffering_putc (s : OutStream α) (a : α) :
    (s.putc newline a).2.buffering = s.buffering := by
  unfold putc
  split_ifs <;> rfl

@[simp] theorem capacity_putc (s : OutStream α) (a : α) :
    (s.putc newline a).2.capacity = s.capacity := by
  unfold putc
  split_ifs <;> rfl

@[simp] theorem atOnce_putc (s : OutStream α) (a : α) (k : ℕ) :
    (s.putc newline a).2.atOnce k = s.atOnce (k + 1) := by
  unfold putc
  split_ifs <;> rfl

theorem putc_append (s : OutStream α) (a : α) :
    (s.putc newline a).1 ++ (s.putc newline a).2.pending = s.pending ++ [a] := by
  rw [← s.makeRoom_append]
  unfold putc
  split_ifs <;> simp

theorem length_pending_putc (s : OutStream α) (a : α) :
    (s.putc newline a).2.pending.length =
      if s.sends newline a then 0 else s.pending.length % s.capacity + 1 := by
  rw [← length_makeRoom]
  unfold putc
  split_ifs <;> simp

/-! ### Printing -/

@[simp] theorem print_nil (s : OutStream α) : s.print newline [] = ([], s) := rfl

@[simp] theorem buffering_print (s : OutStream α) (l : List α) :
    (s.print newline l).2.buffering = s.buffering := by
  induction l generalizing s with
  | nil => rfl
  | cons _ _ ih => rw [print, ih, buffering_putc]

@[simp] theorem capacity_print (s : OutStream α) (l : List α) :
    (s.print newline l).2.capacity = s.capacity := by
  induction l generalizing s with
  | nil => rfl
  | cons _ _ ih => rw [print, ih, capacity_putc]

@[simp] theorem atOnce_print (s : OutStream α) (l : List α) (k : ℕ) :
    (s.print newline l).2.atOnce k = s.atOnce (k + l.length) := by
  induction l generalizing s k with
  | nil => rfl
  | cons _ _ ih => rw [print, ih, atOnce_putc, List.length_cons, Nat.add_assoc]

/-- The last byte is put on the stream that the others have left. -/
theorem print_concat (s : OutStream α) (l : List α) (a : α) :
    (s.print newline (l ++ [a])).2 = ((s.print newline l).2.putc newline a).2 := by
  induction l generalizing s with
  | nil => rfl
  | cons _ _ ih => exact ih _

/-- Everything put on a stream is written in order or still pending. -/
theorem written_append_pending (s : OutStream α) (l : List α) :
    (s.print newline l).1 ++ (s.print newline l).2.pending = s.pending ++ l := by
  induction l generalizing s with
  | nil => simp
  | cons a l ih =>
    calc (s.print newline (a :: l)).1 ++ (s.print newline (a :: l)).2.pending
        = (s.putc newline a).1 ++ ((s.putc newline a).2.pending ++ l) := by
          rw [print, List.append_assoc, ih]
      _ = s.pending ++ a :: l := by
          rw [← List.append_assoc, putc_append, List.append_assoc, List.singleton_append]

theorem unforced_concat (s : OutStream α) (l : List α) (a : α) :
    s.unforced newline (l ++ [a]) =
      if forced newline s.buffering a = true then [] else s.unforced newline l ++ [a] := by
  unfold unforced
  by_cases hforced : forced newline s.buffering a = true
  · simp [hforced]
  · by_cases hany : l.any (forced newline s.buffering) = true
    · simp [hforced, hany]
    · simp [hforced, hany]

/-- Up to a whole buffer, what is kept back is what has been put since a write was last forced. -/
theorem length_pending_print (s : OutStream α) (l : List α) :
    (s.print newline l).2.pending.length % s.capacity =
      (s.unforced newline l).length % s.capacity := by
  induction l using List.reverseRecOn with
  | nil => simp [unforced]
  | append_singleton _ a ih =>
    simp only [print_concat, length_pending_putc, unforced_concat, sends, length_makeRoom,
      buffering_print, capacity_print, ih]
    by_cases hforced : forced newline s.buffering a = true
    · simp [hforced]
    · rw [if_neg hforced, List.length_append, List.length_singleton, ← Nat.mod_add_mod]
      split_ifs with hsends
      · rw [(hsends.resolve_left hforced).1, Nat.mod_self, Nat.zero_mod]
      · rfl

/-- The output `l` leaves nothing in the buffer: its last byte forces a write, or fills the buffer
and is one at which a full buffer is written. -/
def Drains (s : OutStream α) (l : List α) : Prop :=
  s.unforced newline l = [] ∨
    s.capacity ∣ (s.unforced newline l).length ∧ s.atOnce (l.length - 1) = true

theorem pending_print_eq_nil_iff (s : OutStream α) {l : List α} (hl : l ≠ []) :
    (s.print newline l).2.pending = [] ↔ s.Drains newline l := by
  obtain ⟨l, a, rfl⟩ := List.eq_nil_or_concat' l |>.resolve_left hl
  have hcount := length_pending_print newline s l
  simp only [← List.length_eq_zero_iff, print_concat, length_pending_putc, Drains, unforced_concat,
    sends, length_makeRoom, buffering_print, capacity_print, atOnce_print, hcount]
  by_cases hforced : forced newline s.buffering a = true
  · simp [hforced]
  · have hdvd : s.capacity ∣ (s.unforced newline l).length + 1 ↔
        (s.unforced newline l).length % s.capacity + 1 = s.capacity := by
      have hlt := Nat.mod_lt (s.unforced newline l).length s.pos
      rw [Nat.dvd_iff_mod_eq_zero, ← Nat.mod_add_mod]
      constructor
      · intro hzero
        by_contra hne
        rw [Nat.mod_eq_of_lt (by omega)] at hzero
        omega
      · intro heq
        rw [heq, Nat.mod_self]
    simp [hforced, hdvd]

/-! ### Following one output through the buffer -/

section Marked

variable {s : OutStream α} {l : List α} {mark : α → Bool}
  (hpending : ∀ a ∈ s.pending, mark a = false)
  (hl : ∀ a ∈ l, mark a = true)
include hpending hl

/-- The marked bytes are those of the output, written or pending. -/
theorem filter_written_append : (s.print newline l).1.filter mark ++
    (s.print newline l).2.pending.filter mark = l := by
  rw [← List.filter_append, written_append_pending, List.filter_append,
    List.filter_eq_nil_iff.mpr fun a ha ↦ by simp [hpending a ha],
    List.filter_eq_self.mpr hl, List.nil_append]

/-- None of an output is kept back exactly if there was none, or nothing is kept back at all: its
last byte is the last one of the buffer. -/
theorem filter_pending_eq_nil_iff : (s.print newline l).2.pending.filter mark = [] ↔
    l = [] ∨ s.Drains newline l := by
  rcases eq_or_ne l [] with rfl | hne
  · have hnone : s.pending.filter mark = [] :=
      List.filter_eq_nil_iff.mpr fun a ha ↦ by simp [hpending a ha]
    simp [hnone]
  · rw [← pending_print_eq_nil_iff newline s hne]
    constructor
    · intro hnone
      by_contra hboth
      obtain ⟨-, hkept⟩ := not_or.mp hboth
      have hlast := congrArg List.getLast? (written_append_pending newline s l)
      rw [List.getLast?_append_of_ne_nil _ hkept, List.getLast?_append_of_ne_nil _ hne,
        List.getLast?_eq_some_getLast hkept, List.getLast?_eq_some_getLast hne,
        Option.some.injEq] at hlast
      have hmark : mark ((s.print newline l).2.pending.getLast hkept) = true := by
        rw [hlast]
        exact hl _ (List.getLast_mem hne)
      exact List.filter_eq_nil_iff.mp hnone _ (List.getLast_mem hkept) hmark
    · rintro (hnil | hnil)
      · exact absurd hnil hne
      · rw [hnil, List.filter_nil]

theorem filter_written_eq_iff : (s.print newline l).1.filter mark = l ↔
    l = [] ∨ s.Drains newline l := by
  rw [← filter_pending_eq_nil_iff newline hpending hl]
  have hsplit := filter_written_append newline hpending hl
  constructor
  · intro hall
    rw [hall] at hsplit
    exact List.append_right_eq_self.mp hsplit
  · intro hnone
    rwa [hnone, List.append_nil] at hsplit

end Marked

end OutStream

end Irish.Library
