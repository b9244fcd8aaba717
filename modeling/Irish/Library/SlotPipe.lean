import Mathlib.Algebra.Order.BigOperators.Group.List
import Mathlib.Algebra.Order.Ring.Nat

/-!
# Pipes made of pages

A pipe as a kernel stores it: a queue of buffers of one page each, of which there are only so many.
A write of at most a page goes into the page of the last buffer if it fits there behind what was
written before, and into a buffer of its own otherwise; it waits if there is none. A read takes
bytes from the front and gives back the buffers that it empties, but makes no room in the page of a
buffer that it does not.

What a pipe takes depends on its `Mark`: the number of its buffers and where the last one ends.
Writes move the mark forward (`mark_put`) in a way that is monotone (`Mark.place_mono`), and reads
move it back (`mark_take_le`). So a pipe that is read takes all that it would take unread
(`Mark.Takes.mono`).
-/

set_option autoImplicit false

namespace Irish.Library

/-- How many buffers a pipe has, and how many bytes go into one. -/
structure PipeSize where
  slots : ℕ
  page : ℕ
deriving DecidableEq, Repr

/-! ### Where the next write goes -/

/-- The number of buffers in use, and where the last one ends in its page. -/
structure Mark where
  count : ℕ
  stop : ℕ
deriving DecidableEq, Repr

namespace Mark

/-- The mark of an empty pipe: there is no page to write to. -/
def start (size : PipeSize) : Mark := ⟨0, size.page⟩

/-- A write of `n` bytes. -/
def place (size : PipeSize) (m : Mark) (n : ℕ) : Mark :=
  if m.stop + n ≤ size.page then ⟨m.count, m.stop + n⟩ else ⟨m.count + 1, n⟩

/-- The order in which marks are passed. -/
def Le (a b : Mark) : Prop := a.count < b.count ∨ a.count = b.count ∧ a.stop ≤ b.stop

/-- A pipe with this mark takes the writes without waiting. -/
def Takes (size : PipeSize) (m : Mark) (writes : List ℕ) : Prop :=
  (writes.foldl (place size) m).count ≤ size.slots

instance (size : PipeSize) (m : Mark) (writes : List ℕ) : Decidable (m.Takes size writes) :=
  inferInstanceAs (Decidable (_ ≤ _))

variable {size : PipeSize} {a b m : Mark} {n : ℕ} {writes : List ℕ}

theorem place_mono (h : a.Le b) (n : ℕ) : (a.place size n).Le (b.place size n) := by
  unfold Le at h ⊢
  unfold place
  split_ifs <;> dsimp only <;> omega

theorem count_le_place (m : Mark) (n : ℕ) : m.count ≤ (m.place size n).count := by
  unfold place
  split_ifs
  · exact le_rfl
  · exact Nat.le_succ _

theorem count_le_foldl (m : Mark) (writes : List ℕ) :
    m.count ≤ (writes.foldl (place size) m).count := by
  induction writes generalizing m with
  | nil => exact le_rfl
  | cons n _ ih => exact (count_le_place m n).trans (ih _)

theorem takes_cons : m.Takes size (n :: writes) ↔ (m.place size n).Takes size writes := Iff.rfl

theorem takes_nil : m.Takes size [] ↔ m.count ≤ size.slots := Iff.rfl

/-- What a mark takes, an earlier one takes. -/
theorem Takes.mono (h : b.Takes size writes) (hle : a.Le b) : a.Takes size writes := by
  induction writes generalizing a b with
  | nil =>
    rw [takes_nil] at h ⊢
    unfold Le at hle
    omega
  | cons n _ ih => exact takes_cons.mpr (ih (takes_cons.mp h) (place_mono hle n))

theorem Takes.head (h : m.Takes size (n :: writes)) : (m.place size n).count ≤ size.slots :=
  (count_le_foldl _ writes).trans h

end Mark

/-! ### The buffers -/

/-- The bytes that are left of what was written to a page, and where they end in it. -/
structure PageBuffer where
  length : ℕ
  stop : ℕ
deriving DecidableEq, Repr

/-- A buffer that is empty is given back, and a page is not written past its end. -/
structure PageBuffer.Ok (page : ℕ) (b : PageBuffer) : Prop where
  pos : 0 < b.length
  le_stop : b.length ≤ b.stop
  stop_le : b.stop ≤ page

/-- The buffers of a pipe, the oldest first. -/
structure SlotPipe (size : PipeSize) where
  buffers : List PageBuffer
  length_le : buffers.length ≤ size.slots
  ok : ∀ b ∈ buffers, b.Ok size.page

namespace SlotPipe

variable {size : PipeSize} {n : ℕ} {buffers : List PageBuffer} {p q : SlotPipe size}

def empty : SlotPipe size := ⟨[], Nat.zero_le _, by simp⟩

/-- The number of bytes in a pipe. -/
def bytes (p : SlotPipe size) : ℕ := (p.buffers.map PageBuffer.length).sum

def mark (p : SlotPipe size) : Mark :=
  match p.buffers.getLast? with
  | none => Mark.start size
  | some b => ⟨p.buffers.length, b.stop⟩

/-- The buffers after a write, if it does not wait. -/
def putBuffers (size : PipeSize) (buffers : List PageBuffer) (n : ℕ) : Option (List PageBuffer) :=
  match buffers.getLast? with
  | some b =>
    if b.stop + n ≤ size.page then some (buffers.dropLast ++ [⟨b.length + n, b.stop + n⟩])
    else if buffers.length < size.slots then some (buffers ++ [⟨n, n⟩])
    else none
  | none => if 0 < size.slots then some [⟨n, n⟩] else none

/-- The buffers after a read. -/
def takeBuffers : List PageBuffer → ℕ → List PageBuffer
  | [], _ => []
  | b :: rest, n =>
    if n < b.length then ⟨b.length - n, b.stop⟩ :: rest else takeBuffers rest (n - b.length)

/-- The write of `n` bytes to buffers that are in order. -/
structure PutOk (size : PipeSize) (buffers : List PageBuffer) (n : ℕ)
    (buffers' : List PageBuffer) : Prop where
  length_le : buffers'.length ≤ size.slots
  ok : ∀ b ∈ buffers', b.Ok size.page
  sum : (buffers'.map PageBuffer.length).sum = (buffers.map PageBuffer.length).sum + n

theorem ok_single (hpos : 0 < n) (hn : n ≤ size.page) : (⟨n, n⟩ : PageBuffer).Ok size.page :=
  ⟨hpos, Nat.le_refl n, hn⟩

theorem putBuffers_ok (p : SlotPipe size) (hpos : 0 < n) (hn : n ≤ size.page)
    (h : putBuffers size p.buffers n = some buffers) : PutOk size p.buffers n buffers := by
  have hsingle := ok_single hpos hn
  unfold putBuffers at h
  cases hlast : p.buffers.getLast? with
  | none =>
    obtain hnil : p.buffers = [] := List.getLast?_eq_none_iff.mp hlast
    simp only [hlast, Option.ite_none_right_eq_some, Option.some.injEq] at h
    obtain ⟨hslots, rfl⟩ := h
    exact ⟨hslots, by simpa using hsingle, by simp [hnil]⟩
  | some b =>
    obtain ⟨init, hinit⟩ := List.getLast?_eq_some_iff.mp hlast
    have hlength := p.length_le
    have hok := p.ok
    rw [hinit, List.forall_mem_append, List.forall_mem_singleton] at hok
    simp only [hlast] at h
    split_ifs at h with hfits hroom
    · cases h
      rw [hinit, List.length_append, List.length_singleton] at hlength
      rw [hinit, List.dropLast_concat]
      have hmerged : (⟨b.length + n, b.stop + n⟩ : PageBuffer).Ok size.page :=
        ⟨Nat.add_pos_right _ hpos, Nat.add_le_add_right hok.2.le_stop n, hfits⟩
      refine ⟨by simpa using hlength, ?_, ?_⟩
      · rw [List.forall_mem_append, List.forall_mem_singleton]
        exact ⟨hok.1, hmerged⟩
      · simp only [List.map_append, List.sum_append, List.map_cons, List.map_nil, List.sum_cons,
          List.sum_nil]
        omega
    · cases h
      refine ⟨?_, ?_, by simp⟩
      · rwa [List.length_append]
      · rw [List.forall_mem_append, List.forall_mem_singleton]
        exact ⟨p.ok, hsingle⟩

theorem takeBuffers_ok (hok : ∀ b ∈ buffers, b.Ok size.page) (n : ℕ) :
    (takeBuffers buffers n).length ≤ buffers.length ∧
      ∀ b ∈ takeBuffers buffers n, b.Ok size.page := by
  induction buffers generalizing n with
  | nil => exact ⟨le_rfl, hok⟩
  | cons b _ ih =>
    obtain ⟨hb, hrest⟩ := List.forall_mem_cons.mp hok
    unfold takeBuffers
    split_ifs with hn
    · refine ⟨le_rfl, List.forall_mem_cons.mpr ⟨⟨?_, ?_, hb.stop_le⟩, hrest⟩⟩
      · exact Nat.sub_pos_of_lt hn
      · exact (Nat.sub_le _ _).trans hb.le_stop
    · obtain ⟨hlength, hall⟩ := ih hrest (n - b.length)
      exact ⟨hlength.trans (Nat.le_succ _), hall⟩

/-! ### Writing and reading -/

/-- A write of `n` bytes, which are at least one and at most a page; nothing if it has to wait. -/
def put (p : SlotPipe size) (n : ℕ) : Option (SlotPipe size) :=
  if h : 0 < n ∧ n ≤ size.page then
    match heq : putBuffers size p.buffers n with
    | none => none
    | some buffers =>
      have hok := putBuffers_ok p h.1 h.2 heq
      some ⟨buffers, hok.length_le, hok.ok⟩
  else none

/-- A read of `n` bytes, or of all there are. -/
def take (p : SlotPipe size) (n : ℕ) : SlotPipe size :=
  ⟨takeBuffers p.buffers n, (takeBuffers_ok p.ok n).1.trans p.length_le, (takeBuffers_ok p.ok n).2⟩

theorem put_eq_some (h : p.put n = some q) :
    0 < n ∧ n ≤ size.page ∧ putBuffers size p.buffers n = some q.buffers := by
  unfold put at h
  split_ifs at h with hn
  split at h
  · cases h
  · rename_i buffers heq
    cases h
    exact ⟨hn.1, hn.2, heq⟩

theorem exists_put (hpos : 0 < n) (hn : n ≤ size.page)
    (h : putBuffers size p.buffers n = some buffers) : ∃ q, p.put n = some q := by
  unfold put
  rw [dif_pos ⟨hpos, hn⟩]
  split
  · rename_i heq
    cases heq.symm.trans h
  · exact ⟨_, rfl⟩

@[simp] theorem mark_empty : (empty : SlotPipe size).mark = Mark.start size := rfl

theorem bytes_put (h : p.put n = some q) : q.bytes = p.bytes + n := by
  obtain ⟨hpos, hn, hbuffers⟩ := put_eq_some h
  exact (putBuffers_ok p hpos hn hbuffers).sum

theorem count_mark (p : SlotPipe size) : p.mark.count = p.buffers.length := by
  unfold mark
  split
  · rename_i hlast
    rw [List.getLast?_eq_none_iff.mp hlast]
    rfl
  · rfl

theorem mark_put (h : p.put n = some q) : q.mark = p.mark.place size n := by
  obtain ⟨hpos, -, hbuffers⟩ := put_eq_some h
  unfold putBuffers at hbuffers
  cases hlast : p.buffers.getLast? with
  | none =>
    have hnil : p.buffers = [] := List.getLast?_eq_none_iff.mp hlast
    simp only [hlast, Option.ite_none_right_eq_some, Option.some.injEq] at hbuffers
    have hfull : ¬ size.page + n ≤ size.page := by omega
    simp [mark, ← hbuffers.2, hnil, Mark.place, Mark.start, hfull]
  | some =>
    obtain ⟨init, hinit⟩ := List.getLast?_eq_some_iff.mp hlast
    simp only [hlast] at hbuffers
    split_ifs at hbuffers with hfits hroom
    · simp [mark, ← Option.some.inj hbuffers, hinit, Mark.place, hfits]
    · simp [mark, ← Option.some.inj hbuffers, hinit, Mark.place, hfits]

/-- A write waits only if it needs a buffer and there is none. -/
theorem exists_put_of_count (hpos : 0 < n) (hn : n ≤ size.page)
    (h : (p.mark.place size n).count ≤ size.slots) : ∃ q, p.put n = some q := by
  have hbuffers : ∃ buffers, putBuffers size p.buffers n = some buffers := by
    unfold putBuffers
    cases hlast : p.buffers.getLast? with
    | none =>
      have hfull : ¬ size.page + n ≤ size.page := by omega
      simp only [mark, hlast, Mark.place, Mark.start, if_neg hfull] at h
      exact ⟨_, if_pos h⟩
    | some b =>
      simp only [mark, hlast, Mark.place] at h
      dsimp only
      by_cases hfits : b.stop + n ≤ size.page
      · exact ⟨_, if_pos hfits⟩
      · rw [if_neg hfits] at h ⊢
        exact ⟨_, if_pos h⟩
  obtain ⟨buffers, hbuffers⟩ := hbuffers
  exact exists_put hpos hn hbuffers

/-- A read that leaves something leaves the end of the last buffer. -/
theorem getLast?_takeBuffers (buffers : List PageBuffer) (n : ℕ) :
    takeBuffers buffers n = [] ∨
      (takeBuffers buffers n).getLast?.map PageBuffer.stop =
        buffers.getLast?.map PageBuffer.stop := by
  induction buffers generalizing n with
  | nil => exact .inl rfl
  | cons b rest ih =>
    unfold takeBuffers
    split_ifs with hn
    · cases rest with
      | nil => exact .inr rfl
      | cons c rest => exact .inr rfl
    · cases rest with
      | nil => exact .inl rfl
      | cons c rest => simpa using ih (n - b.length)

theorem mark_take_le (p : SlotPipe size) (n : ℕ) : (p.take n).mark.Le p.mark := by
  have hlength := (takeBuffers_ok p.ok n).1
  rcases getLast?_takeBuffers p.buffers n with hnil | hstop
  · have hmark : (p.take n).mark = Mark.start size := by
      rw [mark, take]
      simp [hnil]
    rw [hmark]
    cases hlast : p.buffers.getLast? with
    | none =>
      rw [mark, hlast]
      exact .inr ⟨rfl, le_rfl⟩
    | some =>
      obtain ⟨init, hinit⟩ := List.getLast?_eq_some_iff.mp hlast
      refine .inl ?_
      rw [count_mark, hinit, List.length_append]
      exact Nat.succ_pos _
  · have hle : (p.take n).mark.count ≤ p.mark.count := by
      rwa [count_mark, count_mark]
    have hsame : (p.take n).mark.stop = p.mark.stop := by
      unfold mark take
      dsimp only
      cases hlast : p.buffers.getLast? with
      | none =>
        rw [hlast, Option.map_none, Option.map_eq_none_iff] at hstop
        rw [hstop]
      | some =>
        rw [hlast, Option.map_some, Option.map_eq_some_iff] at hstop
        obtain ⟨c, hc, hstop⟩ := hstop
        rwa [hc]
    rcases Nat.lt_or_eq_of_le hle with hlt | heq
    · exact .inl hlt
    · exact .inr ⟨heq, hsame.le⟩

theorem bytes_take (p : SlotPipe size) (n : ℕ) : (p.take n).bytes = p.bytes - n := by
  have hbuffers (buffers : List PageBuffer) (n : ℕ) :
      ((takeBuffers buffers n).map PageBuffer.length).sum =
        (buffers.map PageBuffer.length).sum - n := by
    induction buffers generalizing n with
    | nil => simp [takeBuffers]
    | cons _ _ ih =>
      unfold takeBuffers
      split_ifs with hn
      · simp only [List.map_cons, List.sum_cons]
        omega
      · rw [ih, List.map_cons, List.sum_cons]
        omega
  exact hbuffers p.buffers n

/-- A pipe holds at most all of its pages. -/
theorem bytes_le (p : SlotPipe size) : p.bytes ≤ size.slots * size.page := by
  have hsum : p.bytes ≤ p.buffers.length * size.page := by
    have hle := List.sum_le_card_nsmul (p.buffers.map PageBuffer.length) size.page
      (List.forall_mem_map.mpr fun b hb ↦ (p.ok b hb).le_stop.trans (p.ok b hb).stop_le)
    simpa [bytes] using hle
  exact hsum.trans (Nat.mul_le_mul_right _ p.length_le)

end SlotPipe

end Irish.Library
