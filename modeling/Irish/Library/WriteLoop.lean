import Mathlib.Data.List.Flatten
import Mathlib.Data.List.Infix

/-!
# Writing out a buffer by partial writes

A stream arrives in chunks (`Reads`), and a call of `write` takes a part of what it is offered or
fails (`Answers`). `writeLoop` offers what is left of a buffer until all of it is taken or a call
fails, and tells the calls it has made; `delivered` is what those calls have taken.

`writeChunks` writes the chunks of a stream one after the other and goes on with the next chunk
behind a failed call. What it delivers is the whole stream if no call fails
(`delivered_writeChunks`), and a prefix of it if no call succeeds behind a failed one
(`prefix_delivered_writeChunks`); in a stream without repetition only then
(`stopsForGood_of_nodup`). In terms of the descriptor: it delivers prefixes of all streams exactly
if the descriptor does not answer again after it has failed (`Answers.FailsForGood`, `exists_gap`).
`untilFailed` gives up with the first failed call.
-/

set_option autoImplicit false

namespace Irish.Library

variable {α : Type*} {i size : ℕ}

/-- A stream as successive calls of `read` with a buffer of `size` return it: at least one element
at a time, until its end. -/
structure Reads (α : Type*) (size : ℕ) where
  chunks : List (List α)
  ne_nil : ∀ chunk ∈ chunks, chunk ≠ []
  length_le : ∀ chunk ∈ chunks, chunk.length ≤ size

/-- The stream itself, however it is cut into reads. -/
def Reads.content {size : ℕ} (r : Reads α size) : List α := r.chunks.flatten

/-- The answers of a descriptor to the calls of `write`, by the number of the call and the number of
elements offered: how many are taken, or `none` if the call fails. -/
structure Answers where
  answer : ℕ → ℕ → Option ℕ
  pos : ∀ {k count n : ℕ}, answer k count = some n → 0 < n
  le : ∀ {k count n : ℕ}, answer k count = some n → n ≤ count

/-- After a call has failed every later one does, whatever up to `size` elements it is offered. -/
def Answers.FailsForGood (w : Answers) (size : ℕ) : Prop :=
  ∀ k k' count count', k < k' → 0 < count → count ≤ size → 0 < count' → count' ≤ size →
    w.answer k count = none → w.answer k' count' = none

/-- A call of `write`. -/
structure Call (α : Type*) where
  offered : List α
  answer : Option ℕ
  deriving DecidableEq

namespace Call

def failed (c : Call α) : Bool := c.answer.isNone

def taken (c : Call α) : List α := c.offered.take (c.answer.getD 0)

theorem taken_of_failed {c : Call α} (h : c.failed = true) : c.taken = [] := by
  have hanswer : c.answer = none := Option.isNone_iff_eq_none.mp h
  rw [taken, hanswer, Option.getD_none, List.take_zero]

end Call

/-- What the calls have put into the descriptor. -/
def delivered (calls : List (Call α)) : List α := calls.flatMap Call.taken

@[simp] theorem delivered_nil : delivered ([] : List (Call α)) = [] := rfl

@[simp] theorem delivered_cons (c : Call α) (calls : List (Call α)) :
    delivered (c :: calls) = c.taken ++ delivered calls := List.flatMap_cons

@[simp] theorem delivered_append (calls calls' : List (Call α)) :
    delivered (calls ++ calls') = delivered calls ++ delivered calls' := List.flatMap_append

theorem delivered_of_failed {calls : List (Call α)} (h : ∀ c ∈ calls, c.failed = true) :
    delivered calls = [] := by
  refine List.flatMap_eq_nil_iff.mpr fun c hc ↦ Call.taken_of_failed (h c hc)

/-! ### One buffer -/

/-- Offers what is left of a buffer until it is empty or a call fails. -/
def writeLoop (w : Answers) (k : ℕ) : List α → List (Call α)
  | [] => []
  | a :: rest =>
    match h : w.answer k (a :: rest).length with
    | none => [⟨a :: rest, none⟩]
    | some n => ⟨a :: rest, some n⟩ :: writeLoop w (k + 1) ((a :: rest).drop n)
termination_by rest => rest.length
decreasing_by
  have hpos := w.pos h
  simp only [List.length_drop, List.length_cons]
  omega

section WriteLoop

variable {w : Answers} {k n : ℕ} {rest : List α}

@[simp] theorem writeLoop_nil : writeLoop w k ([] : List α) = [] := by rw [writeLoop]

theorem writeLoop_none (hrest : rest ≠ []) (h : w.answer k rest.length = none) :
    writeLoop w k rest = [⟨rest, none⟩] := by
  obtain ⟨a, rest, rfl⟩ := List.exists_cons_of_ne_nil hrest
  rw [writeLoop]
  split
  · rfl
  · rename_i hn
    cases h.symm.trans hn

theorem writeLoop_some (hrest : rest ≠ []) (h : w.answer k rest.length = some n) :
    writeLoop w k rest = ⟨rest, some n⟩ :: writeLoop w (k + 1) (rest.drop n) := by
  obtain ⟨a, rest, rfl⟩ := List.exists_cons_of_ne_nil hrest
  rw [writeLoop]
  split
  · rename_i hn
    cases h.symm.trans hn
  · rename_i hn
    cases h.symm.trans hn
    rfl

/-- The rule of the loop: it ends at once, with a failed call, or goes on behind a call that takes
some of the buffer. -/
theorem writeLoop_rule (w : Answers) {P : ℕ → List α → List (Call α) → Prop} (nil : ∀ k, P k [] [])
    (fail : ∀ k rest, rest ≠ [] → w.answer k rest.length = none → P k rest [⟨rest, none⟩])
    (take : ∀ k rest n, rest ≠ [] → w.answer k rest.length = some n → 0 < n → n ≤ rest.length →
      P (k + 1) (rest.drop n) (writeLoop w (k + 1) (rest.drop n)) →
        P k rest (⟨rest, some n⟩ :: writeLoop w (k + 1) (rest.drop n))) (k : ℕ) (rest : List α) :
    P k rest (writeLoop w k rest) := by
  induction hlength : rest.length using Nat.strongRecOn generalizing k rest with
  | ind length ih =>
    by_cases hrest : rest = []
    · rw [hrest, writeLoop_nil]
      exact nil k
    · cases hanswer : w.answer k rest.length with
      | none =>
        rw [writeLoop_none hrest hanswer]
        exact fail k rest hrest hanswer
      | some n =>
        have hpos := w.pos hanswer
        have hle := w.le hanswer
        have hlt : (rest.drop n).length < length := by
          rw [List.length_drop]
          omega
        rw [writeLoop_some hrest hanswer]
        exact take k rest n hrest hanswer hpos hle (ih _ hlt (k + 1) (rest.drop n) rfl)

/-- What is delivered is a prefix of the buffer. -/
theorem prefix_delivered_writeLoop (w : Answers) (k : ℕ) (rest : List α) :
    delivered (writeLoop w k rest) <+: rest := by
  refine writeLoop_rule w (P := fun _ rest calls ↦ delivered calls <+: rest) ?_ ?_ ?_ k rest
  · exact fun _ ↦ List.prefix_rfl
  · intro _ rest _ _
    exact List.nil_prefix
  · intro _ rest n _ _ _ _ ih
    rw [delivered_cons]
    conv_rhs => rw [← List.take_append_drop n rest]
    exact (List.prefix_append_right_inj _).mpr ih

/-- The buffer is delivered as a whole if no call fails. -/
theorem delivered_writeLoop (h : ∀ c ∈ writeLoop w k rest, c.failed = false) :
    delivered (writeLoop w k rest) = rest := by
  refine writeLoop_rule w
    (P := fun _ rest calls ↦ (∀ c ∈ calls, c.failed = false) → delivered calls = rest)
    ?_ ?_ ?_ k rest h
  · exact fun _ _ ↦ rfl
  · intro _ rest _ _ h
    cases h _ List.mem_cons_self
  · intro _ rest n _ _ _ _ ih h
    rw [delivered_cons, ih fun c hc ↦ h c (List.mem_cons_of_mem _ hc)]
    exact List.take_append_drop n rest

/-- Only the last call may have failed. -/
theorem pairwise_writeLoop (w : Answers) (k : ℕ) (rest : List α) :
    (writeLoop w k rest).Pairwise fun c _ ↦ c.failed = false := by
  refine writeLoop_rule w (P := fun _ _ calls ↦ calls.Pairwise fun c _ ↦ c.failed = false)
    ?_ ?_ ?_ k rest
  · exact fun _ ↦ List.Pairwise.nil
  · exact fun _ _ _ _ ↦ List.pairwise_singleton _ _
  · exact fun _ _ _ _ _ _ _ ih ↦ List.pairwise_cons.mpr ⟨fun _ _ ↦ rfl, ih⟩

/-- Behind a failed call something of the buffer is left. -/
theorem length_delivered_writeLoop_lt {c : Call α} (hc : c ∈ writeLoop w k rest)
    (hfailed : c.failed = true) : (delivered (writeLoop w k rest)).length < rest.length := by
  refine writeLoop_rule w (P := fun _ rest calls ↦ c ∈ calls →
    (delivered calls).length < rest.length) ?_ ?_ ?_ k rest hc
  · exact nofun
  · intro _ rest hrest _ _
    exact List.length_pos_of_ne_nil hrest
  · intro _ rest n _ _ _ hle ih hmem
    rcases List.mem_cons.mp hmem with rfl | hmem
    · cases hfailed
    · have hlt := ih hmem
      have htaken : (⟨rest, some n⟩ : Call α).taken.length = n := by
        rw [Call.taken, Option.getD_some, List.length_take, Nat.min_eq_left hle]
      rw [List.length_drop] at hlt
      rw [delivered_cons, List.length_append, htaken]
      omega

/-- A call that does not fail takes something. -/
theorem taken_ne_nil {c : Call α} (hc : c ∈ writeLoop w k rest) (hfailed : c.failed = false) :
    c.taken ≠ [] := by
  refine writeLoop_rule w (P := fun _ _ calls ↦ c ∈ calls → c.taken ≠ []) ?_ ?_ ?_ k rest hc
  · exact nofun
  · intro _ rest _ _ hmem
    obtain rfl := List.mem_singleton.mp hmem
    cases hfailed
  · intro _ rest n hrest _ hpos hle ih hmem
    rcases List.mem_cons.mp hmem with rfl | hmem
    · have hn : n ≠ 0 := Nat.ne_of_gt hpos
      simp [Call.taken, List.take_eq_nil_iff, hn, hrest]
    · exact ih hmem

/-- What a call of the loop offers, and what it is answered. -/
theorem answer_writeLoop {c : Call α} (hc : (writeLoop w k rest)[i]? = some c) :
    c.answer = w.answer (k + i) c.offered.length ∧ c.offered ≠ [] ∧
      c.offered.length ≤ rest.length := by
  refine writeLoop_rule w (P := fun k rest calls ↦ ∀ i, calls[i]? = some c →
    c.answer = w.answer (k + i) c.offered.length ∧ c.offered ≠ [] ∧
      c.offered.length ≤ rest.length) ?_ ?_ ?_ k rest i hc
  · exact nofun
  · intro k rest hrest hanswer i h
    cases i with
    | zero =>
      cases h
      exact ⟨hanswer.symm, hrest, le_rfl⟩
    | succ => cases h
  · intro k rest n hrest hanswer _ _ ih i h
    cases i with
    | zero =>
      cases h
      exact ⟨hanswer.symm, hrest, le_rfl⟩
    | succ i =>
      obtain ⟨hc, hne, hle⟩ := ih i h
      rw [List.length_drop] at hle
      exact ⟨by rw [hc, Nat.add_assoc, Nat.add_comm 1 i], hne, by omega⟩

/-- A single element takes one call. -/
theorem length_writeLoop_singleton (w : Answers) (k : ℕ) (a : α) :
    (writeLoop w k [a]).length = 1 := by
  cases hanswer : w.answer k [a].length with
  | none => rw [writeLoop_none (List.cons_ne_nil _ _) hanswer, List.length_singleton]
  | some =>
    have hpos := w.pos hanswer
    rw [writeLoop_some (List.cons_ne_nil _ _) hanswer, List.drop_of_length_le hpos, writeLoop_nil,
      List.length_singleton]

end WriteLoop

/-! ### A stream -/

/-- Writes the chunks of a stream. A failed call ends the writing of its chunk only. -/
def writeChunks (w : Answers) (k : ℕ) : List (List α) → List (Call α)
  | [] => []
  | chunk :: chunks =>
    let calls := writeLoop w k chunk
    calls ++ writeChunks w (k + calls.length) chunks

/-- No call succeeds behind a failed one. -/
def StopsForGood (calls : List (Call α)) : Prop :=
  calls.Pairwise fun c c' ↦ c.failed = true → c'.failed = true

section Stream

variable {w : Answers} {k : ℕ} {chunks : List (List α)}

theorem exists_failed_or (calls : List (Call α)) :
    (∃ c ∈ calls, c.failed = true) ∨ ∀ c ∈ calls, c.failed = false := by
  by_cases h : ∃ c ∈ calls, c.failed = true
  · exact .inl h
  · exact .inr fun c hc ↦ Bool.eq_false_iff.mpr fun hfailed ↦ h ⟨c, hc, hfailed⟩

theorem delivered_writeChunks (h : ∀ c ∈ writeChunks w k chunks, c.failed = false) :
    delivered (writeChunks w k chunks) = chunks.flatten := by
  induction chunks generalizing k with
  | nil => rfl
  | cons _ _ ih =>
    simp only [writeChunks, List.mem_append] at h
    simp only [writeChunks, delivered_append, List.flatten_cons]
    rw [delivered_writeLoop fun c hc ↦ h c (.inl hc), ih fun c hc ↦ h c (.inr hc)]

/-- Nothing is delivered that is not in the stream. -/
theorem mem_of_mem_delivered_writeChunks {a : α} (h : a ∈ delivered (writeChunks w k chunks)) :
    a ∈ chunks.flatten := by
  induction chunks generalizing k with
  | nil => exact h
  | cons chunk _ ih =>
    simp only [writeChunks, delivered_append, List.mem_append] at h
    rw [List.flatten_cons, List.mem_append]
    exact h.imp (fun h ↦ (prefix_delivered_writeLoop w k chunk).subset h) ih

theorem delivered_writeChunks_ne_nil {c : Call α} (hc : c ∈ writeChunks w k chunks)
    (hfailed : c.failed = false) : delivered (writeChunks w k chunks) ≠ [] := by
  have htaken : c.taken ≠ [] := by
    induction chunks generalizing k with
    | nil => cases hc
    | cons _ _ ih =>
      rcases List.mem_append.mp hc with hc | hc
      · exact taken_ne_nil hc hfailed
      · exact ih hc
  intro hnil
  exact htaken (List.flatMap_eq_nil_iff.mp hnil c hc)

/-- A prefix of the stream is delivered if no call succeeds behind a failed one. -/
theorem prefix_delivered_writeChunks (h : StopsForGood (writeChunks w k chunks)) :
    delivered (writeChunks w k chunks) <+: chunks.flatten := by
  induction chunks generalizing k with
  | nil => exact List.prefix_rfl
  | cons chunk _ ih =>
    simp only [writeChunks] at h
    obtain ⟨-, hmore, hcross⟩ := List.pairwise_append.mp h
    simp only [writeChunks, delivered_append, List.flatten_cons]
    rcases exists_failed_or (writeLoop w k chunk) with ⟨c, hc, hfailed⟩ | hall
    · -- Nothing is delivered behind the chunk of the failed call.
      rw [delivered_of_failed fun c' hc' ↦ hcross c hc c' hc' hfailed, List.append_nil]
      exact (prefix_delivered_writeLoop w k chunk).trans (List.prefix_append _ _)
    · rw [delivered_writeLoop hall]
      exact (List.prefix_append_right_inj _).mpr (ih hmore)

/-- What stands at a position behind a chunk is not what the chunk is short of. -/
theorem eq_nil_of_prefix_append {chunk rest start more : List α} (hnodup : (chunk ++ rest).Nodup)
    (hshort : start.length < chunk.length) (hmore : ∀ a ∈ more, a ∈ rest)
    (h : start ++ more <+: chunk ++ rest) : more = [] := by
  cases more with
  | nil => rfl
  | cons a =>
    obtain ⟨-, -, hdisjoint⟩ := List.nodup_append.mp hnodup
    obtain ⟨tail, htail⟩ := h
    have hat : (chunk ++ rest)[start.length]? = some a := by
      rw [← htail, List.append_assoc, List.getElem?_append_right le_rfl, Nat.sub_self]
      rfl
    rw [List.getElem?_append_left hshort] at hat
    exact absurd rfl (hdisjoint a (List.mem_of_getElem? hat) a (hmore a List.mem_cons_self))

/-- The converse, where the positions of the stream can be told apart. -/
theorem stopsForGood_of_nodup (hnodup : chunks.flatten.Nodup)
    (h : delivered (writeChunks w k chunks) <+: chunks.flatten) :
    StopsForGood (writeChunks w k chunks) := by
  induction chunks generalizing k with
  | nil => exact List.Pairwise.nil
  | cons chunk chunks ih =>
    rw [List.flatten_cons] at hnodup h
    simp only [writeChunks, delivered_append] at h
    have hcalls : StopsForGood (writeLoop w k chunk) := by
      refine (pairwise_writeLoop w k chunk).imp fun hc hfailed ↦ ?_
      cases hc.symm.trans hfailed
    rcases exists_failed_or (writeLoop w k chunk) with ⟨c, hc, hfailed⟩ | hall
    · have hnil := eq_nil_of_prefix_append hnodup (length_delivered_writeLoop_lt hc hfailed)
        (fun _ ha ↦ mem_of_mem_delivered_writeChunks ha) h
      have hmore : ∀ c' ∈ writeChunks w (k + (writeLoop w k chunk).length) chunks,
          c'.failed = true := by
        intro c' hc'
        by_contra hnot
        exact delivered_writeChunks_ne_nil hc' (Bool.eq_false_iff.mpr hnot) hnil
      refine List.pairwise_append.mpr ⟨hcalls, ?_, fun _ _ c' hc' _ ↦ hmore c' hc'⟩
      exact List.pairwise_of_forall_mem_list fun _ _ c' hc' _ ↦ hmore c' hc'
    · rw [delivered_writeLoop hall] at h
      have hrest := (List.nodup_append.mp hnodup).2.1
      refine List.pairwise_append.mpr
        ⟨hcalls, ih hrest ((List.prefix_append_right_inj _).mp h), fun c hc _ _ hfailed ↦ ?_⟩
      rw [hall c hc] at hfailed
      cases hfailed

theorem answer_writeChunks {c : Call α} (hchunks : ∀ chunk ∈ chunks, chunk.length ≤ size)
    (hc : (writeChunks w k chunks)[i]? = some c) :
    c.answer = w.answer (k + i) c.offered.length ∧ 0 < c.offered.length ∧
      c.offered.length ≤ size := by
  induction chunks generalizing k i with
  | nil => cases hc
  | cons chunk _ ih =>
    simp only [writeChunks] at hc
    by_cases hi : i < (writeLoop w k chunk).length
    · rw [List.getElem?_append_left hi] at hc
      obtain ⟨hanswer, hne, hle⟩ := answer_writeLoop hc
      exact ⟨hanswer, List.length_pos_of_ne_nil hne,
        hle.trans (hchunks chunk List.mem_cons_self)⟩
    · rw [List.getElem?_append_right (Nat.le_of_not_lt hi)] at hc
      obtain ⟨hanswer, hpos, hle⟩ := ih (fun c hc ↦ hchunks c (List.mem_cons_of_mem _ hc)) hc
      have hindex : k + (writeLoop w k chunk).length + (i - (writeLoop w k chunk).length) =
          k + i := by omega
      exact ⟨by rw [hanswer, hindex], hpos, hle⟩

theorem Answers.FailsForGood.stops {size : ℕ} (h : w.FailsForGood size)
    (hchunks : ∀ chunk ∈ chunks, chunk.length ≤ size) : StopsForGood (writeChunks w k chunks) := by
  refine List.pairwise_iff_getElem.mpr fun i j hi hj hij hfailed ↦ ?_
  obtain ⟨hanswer, hpos, hle⟩ := answer_writeChunks hchunks (List.getElem?_eq_getElem hi)
  obtain ⟨hanswer', hpos', hle'⟩ := answer_writeChunks hchunks (List.getElem?_eq_getElem hj)
  rw [Call.failed, hanswer, Option.isNone_iff_eq_none] at hfailed
  rw [Call.failed, hanswer', h (k + i) (k + j) _ _ (by omega) hpos hle hpos' hle' hfailed]
  rfl

theorem writeChunks_append (w : Answers) (k : ℕ) (l l' : List (List α)) :
    writeChunks w k (l ++ l') =
      writeChunks w k l ++ writeChunks w (k + (writeChunks w k l).length) l' := by
  induction l generalizing k with
  | nil => rfl
  | cons _ _ ih =>
    simp only [List.cons_append, writeChunks, ih, List.append_assoc, List.length_append,
      Nat.add_assoc]

theorem delivered_writeChunks_sublist (w : Answers) (k : ℕ) (chunks : List (List α)) :
    (delivered (writeChunks w k chunks)).Sublist chunks.flatten := by
  induction chunks generalizing k with
  | nil => exact List.Sublist.refl _
  | cons chunk _ ih =>
    simp only [writeChunks, delivered_append, List.flatten_cons]
    exact (prefix_delivered_writeLoop w k chunk).sublist.append (ih _)

/-- A stream that is read one element at a time takes one call for each. -/
theorem length_writeChunks_replicate (w : Answers) (k n : ℕ) (a : α) :
    (writeChunks w k (List.replicate n [a])).length = n := by
  induction n generalizing k with
  | zero => rfl
  | succ _ ih =>
    rw [List.replicate_succ, writeChunks, List.length_append, ih, length_writeLoop_singleton,
      Nat.add_comm]

/-- `n` elements `a`, read one by one. -/
theorem delivered_writeChunks_replicate (w : Answers) (k n : ℕ) (a : α) :
    ∃ m ≤ n, delivered (writeChunks w k (List.replicate n [a])) = List.replicate m a := by
  have hsub := delivered_writeChunks_sublist w k (List.replicate n [a])
  have hflatten : (List.replicate n [a]).flatten = List.replicate n a := by
    rw [List.flatten_replicate_singleton]
  rw [hflatten] at hsub
  exact List.sublist_replicate_iff.mp hsub

end Stream

variable {w : Answers}

/-- Elements `a` that are read one by one up to call `k`, where all of a chunk is refused, and from
there one by one up to call `k'`, which takes some of the elements `b`. -/
theorem delivered_gap {k k' count count' n : ℕ} (hlt : k < k') (hpos : 0 < count)
    (hpos' : 0 < count') (hfails : w.answer k count = none) (hanswers : w.answer k' count' = some n)
    (a b : α) : ∃ m ≤ k, ∃ m' ≤ k' - (k + 1), ∃ tail,
      delivered (writeChunks w 0 (List.replicate k [a] ++ (List.replicate count a ::
        (List.replicate (k' - (k + 1)) [a] ++ [List.replicate count' b])))) =
      List.replicate m a ++ (List.replicate m' a ++ b :: tail) := by
  obtain ⟨m, hm, hfirst⟩ := delivered_writeChunks_replicate w 0 k a
  obtain ⟨m', hm', hsecond⟩ := delivered_writeChunks_replicate w (k + 1) (k' - (k + 1)) a
  have hrefused : writeLoop w k (List.replicate count a) = [⟨List.replicate count a, none⟩] :=
    writeLoop_none (by simp; omega) (by rwa [List.length_replicate])
  have hsome : writeLoop w k' (List.replicate count' b) = ⟨List.replicate count' b, some n⟩ ::
      writeLoop w (k' + 1) ((List.replicate count' b).drop n) :=
    writeLoop_some (by simp; omega) (by rwa [List.length_replicate])
  have htaken : ∃ tail, (⟨List.replicate count' b, some n⟩ : Call α).taken = b :: tail := by
    have hn := w.pos hanswers
    refine ⟨List.replicate (min n count' - 1) b, ?_⟩
    rw [Call.taken, Option.getD_some, List.take_replicate, ← List.replicate_succ]
    congr 1
    omega
  obtain ⟨tail, htail⟩ := htaken
  have hnext : k + 1 + (k' - (k + 1)) = k' := by omega
  refine ⟨m, hm, m', hm', tail ++ delivered (writeLoop w (k' + 1)
    ((List.replicate count' b).drop n)), ?_⟩
  rw [writeChunks_append, length_writeChunks_replicate, Nat.zero_add, delivered_append, hfirst,
    writeChunks, hrefused, delivered_append, List.length_singleton, writeChunks_append,
    length_writeChunks_replicate, hnext, delivered_append, hsecond]
  have hnone : (⟨List.replicate count a, none⟩ : Call α).taken = [] := Call.taken_of_failed rfl
  simp only [writeChunks, hsome, List.append_nil, delivered_cons, delivered_nil, htail, hnone,
    List.nil_append, List.cons_append]

/-- A descriptor that answers again after it has failed leaves a gap in some stream. -/
theorem exists_gap [Nontrivial α] (h : ¬ w.FailsForGood size) :
    ∃ r : Reads α size, ¬ delivered (writeChunks w 0 r.chunks) <+: r.content := by
  obtain ⟨a, b, hab⟩ := exists_pair_ne α
  simp only [Answers.FailsForGood, not_forall] at h
  obtain ⟨k, k', count, count', hlt, hpos, hle, hpos', hle', hfails, hanswers⟩ := h
  obtain ⟨n, hn⟩ := Option.ne_none_iff_exists'.mp hanswers
  have hchunks : ∀ chunk ∈ List.replicate k [a] ++ (List.replicate count a ::
      (List.replicate (k' - (k + 1)) [a] ++ [List.replicate count' b])),
      0 < chunk.length ∧ chunk.length ≤ size := by
    intro chunk hchunk
    simp only [List.mem_append, List.mem_cons, List.mem_replicate, List.not_mem_nil, or_false]
      at hchunk
    rcases hchunk with ⟨-, rfl⟩ | rfl | ⟨-, rfl⟩ | rfl
    · exact ⟨Nat.zero_lt_one, by simp; omega⟩
    · exact ⟨by simpa using hpos, by simpa using hle⟩
    · exact ⟨Nat.zero_lt_one, by simp; omega⟩
    · exact ⟨by simpa using hpos', by simpa using hle'⟩
  refine ⟨⟨_, fun c hc ↦ List.ne_nil_of_length_pos (hchunks c hc).1, fun c hc ↦ (hchunks c hc).2⟩,
    fun hprefix ↦ ?_⟩
  obtain ⟨m, hm, m', hm', tail, heq⟩ := delivered_gap hlt hpos hpos' hfails hn a b
  rw [Reads.content, heq] at hprefix
  obtain ⟨rest, hrest⟩ := hprefix
  -- At the place of the first `b` that is delivered the stream still has an `a`.
  have hflatten (j : ℕ) : (List.replicate j [a]).flatten = List.replicate j a :=
    List.flatten_replicate_singleton
  have hcontent : (List.replicate k [a] ++ (List.replicate count a ::
      (List.replicate (k' - (k + 1)) [a] ++ [List.replicate count' b]))).flatten =
      List.replicate (k + (count + (k' - (k + 1)))) a ++ List.replicate count' b := by
    simp only [List.flatten_append, List.flatten_cons, List.flatten_nil, hflatten, List.append_nil,
      ← List.append_assoc, List.replicate_append_replicate]
  have hdelivered : (List.replicate m a ++ (List.replicate m' a ++ b :: tail) ++ rest)[m + m']? =
      some b := by
    rw [← List.append_assoc, List.replicate_append_replicate, List.append_assoc,
      List.getElem?_append_right (by simp), List.length_replicate, Nat.sub_self]
    rfl
  rw [hrest, hcontent, List.getElem?_append_left (by simp; omega),
    List.getElem?_replicate_of_lt (by omega)] at hdelivered
  exact hab (Option.some.inj hdelivered)

/-! ### Loops that end with the first failed call -/

section UntilFailed

variable {β : Type*} {run : ℕ → β → List (Call α)} {content : β → List α}

/-- Copies a list of sources one after the other, until a call fails. `run k b` is the copying of
one of them, with `k` calls made before. -/
def untilFailed (run : ℕ → β → List (Call α)) (k : ℕ) : List β → List (Call α)
  | [] => []
  | b :: sources =>
    let calls := run k b
    if calls.any Call.failed then calls else calls ++ untilFailed run (k + calls.length) sources

/-- A source is copied from its start, and as a whole if no call fails. -/
structure Copies (run : ℕ → β → List (Call α)) (content : β → List α) : Prop where
  start : ∀ k b, delivered (run k b) <+: content b
  whole : ∀ k b, (∀ c ∈ run k b, c.failed = false) → delivered (run k b) = content b

theorem copies_writeLoop (w : Answers) : Copies (writeLoop w) (id : List α → List α) :=
  ⟨prefix_delivered_writeLoop w, fun _ _ ↦ delivered_writeLoop⟩

theorem untilFailed_cons (run : ℕ → β → List (Call α)) (k : ℕ) (b : β) (sources : List β) :
    ((∃ c ∈ run k b, c.failed = true) ∧ untilFailed run k (b :: sources) = run k b) ∨
      ((∀ c ∈ run k b, c.failed = false) ∧ untilFailed run k (b :: sources) =
        run k b ++ untilFailed run (k + (run k b).length) sources) := by
  rcases exists_failed_or (run k b) with hfailed | hall
  · exact .inl ⟨hfailed, if_pos (List.any_eq_true.mpr hfailed)⟩
  · refine .inr ⟨hall, if_neg ?_⟩
    rintro hany
    obtain ⟨c, hc, hfailed⟩ := List.any_eq_true.mp hany
    rw [hall c hc] at hfailed
    cases hfailed

theorem Copies.untilFailed (h : Copies run content) :
    Copies (untilFailed run) fun sources ↦ sources.flatMap content := by
  refine ⟨fun k sources ↦ ?_, fun k sources ↦ ?_⟩
  · induction sources generalizing k with
    | nil => exact List.prefix_rfl
    | cons b sources ih =>
      rw [List.flatMap_cons]
      rcases untilFailed_cons run k b sources with ⟨-, heq⟩ | ⟨hall, heq⟩
      · rw [heq]
        exact (h.start k b).trans (List.prefix_append _ _)
      · rw [heq, delivered_append, h.whole k b hall]
        exact (List.prefix_append_right_inj _).mpr (ih _)
  · induction sources generalizing k with
    | nil => exact fun _ ↦ rfl
    | cons b sources ih =>
      intro hnone
      rw [List.flatMap_cons]
      rcases untilFailed_cons run k b sources with ⟨⟨c, hc, hfailed⟩, heq⟩ | ⟨hall, heq⟩
      · rw [heq] at hnone
        rw [hnone c hc] at hfailed
        cases hfailed
      · rw [heq] at hnone
        rw [heq, delivered_append, h.whole k b hall,
          ih _ fun c hc ↦ hnone c (List.mem_append_right _ hc)]

end UntilFailed

end Irish.Library
