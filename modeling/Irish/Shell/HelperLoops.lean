import Mathlib.Data.List.FinRange
import Irish.Library.WriteLoop
import Irish.Shell.WaitLoop

/-!
# The loops of the helper processes

`run_feeder_child` and `run_distributor_child` of `src/redirect.c`, with the results of `read` and
`write` as arguments: the files and the pipe are read in any chunks of 1 to `bufSize` bytes, and a
call of `write` takes some of the bytes it is given or fails. The bytes are never looked at, so that
they may be of any type.

A feeder gives up with its first failed `write`; what it has put into its pipe is a prefix of the
concatenated files (`feeder_concatenates`). A distributor goes on with its next `read`. Its log
restricted to one sink is a run for that sink alone (`callsTo_runDistributorChild`), so that the
sinks do not disturb each other (`sinks_independent`). But a sink that takes bytes again after a
failed `write` gets a stream with a gap (`sink_gap`), and such sinks are the only ones
(`sink_cutShort`).
-/

set_option autoImplicit false

namespace Irish.Shell

open Library

variable {α : Type*} {m : ℕ}

/-! ### The feeder -/

/-- What `write` returns on a descriptor, by the number of the call and the count requested: up to
the count, and 0 or less if nothing is written. -/
structure WriteResults where
  result : ℕ → ℕ → ℤ
  le : ∀ k count, result k count ≤ count

/-- The feeder takes 0 for a failure: `if (w <= 0) goto feeder_cleanup`. -/
def feederAnswers (w : WriteResults) : Answers where
  answer k count := if w.result k count ≤ 0 then none else some (w.result k count).toNat
  pos h := by
    split_ifs at h with hle
    cases h
    omega
  le {k count n} h := by
    have hcount := w.le k count
    split_ifs at h with hle
    cases h
    omega

/-- The calls of `write` that `run_feeder_child` makes for its input files. -/
def runFeederChild (w : WriteResults) (files : List (Reads α bufSize)) : List (Call α) :=
  untilFailed (fun k file ↦ untilFailed (writeLoop (feederAnswers w)) k file.chunks) 0 files

/-- The loop over one file. -/
theorem copies_file (w : WriteResults) :
    Copies (fun k (file : Reads α bufSize) ↦
      untilFailed (writeLoop (feederAnswers w)) k file.chunks) Reads.content := by
  have h := (copies_writeLoop (α := α) (feederAnswers w)).untilFailed
  have hcontent (file : Reads α bufSize) : file.chunks.flatMap id = file.content := List.flatMap_id
  refine ⟨fun k file ↦ ?_, fun k file hnone ↦ ?_⟩
  · rw [← hcontent]
    exact h.start k file.chunks
  · rw [← hcontent]
    exact h.whole k file.chunks hnone

/-- Whatever the chunks and whatever `write` returns, the pipe gets a prefix of the concatenated
files; it gets all of them if no call of `write` fails. -/
theorem feeder_concatenates (w : WriteResults) (files : List (Reads α bufSize)) :
    delivered (runFeederChild w files) <+: (files.map Reads.content).flatten ∧
      ((∀ c ∈ runFeederChild w files, c.failed = false) →
        delivered (runFeederChild w files) = (files.map Reads.content).flatten) := by
  have h := (copies_file (α := α) w).untilFailed
  rw [← List.flatMap_def]
  exact ⟨h.start 0 files, h.whole 0 files⟩

/-! ### The distributor -/

/-- What `write` returns on a sink: between 1 and the count requested, or less than 0. The loop of
the distributor does not end on a descriptor that returns 0 again and again. -/
structure SinkResults extends WriteResults where
  ne_zero : ∀ k count, result k count ≠ 0

/-- `if (w < 0) break`. -/
def sinkAnswers (w : SinkResults) : Answers where
  answer k count := if w.result k count < 0 then none else some (w.result k count).toNat
  pos {k count n} h := by
    have hne := w.ne_zero k count
    split_ifs at h with hlt
    cases h
    omega
  le {k count n} h := by
    have hcount := w.le k count
    split_ifs at h with hlt
    cases h
    omega

/-- After a call of `write` on the sink has failed every later one does, whatever it is asked to
write. -/
def SinkResults.FailsForGood (w : SinkResults) : Prop :=
  ∀ k k' count count', k < k' → 0 < count → count ≤ bufSize → 0 < count' → count' ≤ bufSize →
    w.result k count < 0 → w.result k' count' < 0

theorem failsForGood_sinkAnswers {w : SinkResults} :
    (sinkAnswers w).FailsForGood bufSize ↔ w.FailsForGood := by
  have hanswer (k count : ℕ) : (sinkAnswers w).answer k count = none ↔ w.result k count < 0 := by
    simp [sinkAnswers]
  simp only [Answers.FailsForGood, SinkResults.FailsForGood, hanswer]

/-- The calls on one sink. -/
def callsTo (j : Fin m) (log : List (Fin m × Call α)) : List (Call α) :=
  (log.filter (·.1 = j)).map Prod.snd

/-- The inner loop: the chunk in the buffer is written to one sink. -/
def writeSink (w : Fin m → SinkResults) (chunk : List α) (log : List (Fin m × Call α))
    (j : Fin m) : List (Fin m × Call α) :=
  log ++ (writeLoop (sinkAnswers (w j)) (callsTo j log).length chunk).map (Prod.mk j)

def distributeChunk (w : Fin m → SinkResults) (log : List (Fin m × Call α)) (chunk : List α) :
    List (Fin m × Call α) :=
  (List.finRange m).foldl (writeSink w chunk) log

/-- The calls of `write` that `run_distributor_child` makes for its `m` sinks, in their order. -/
def runDistributorChild (w : Fin m → SinkResults) (stream : Reads α bufSize) :
    List (Fin m × Call α) :=
  stream.chunks.foldl (distributeChunk w) []

@[simp] theorem callsTo_append (j : Fin m) (log log' : List (Fin m × Call α)) :
    callsTo j (log ++ log') = callsTo j log ++ callsTo j log' := by
  rw [callsTo, List.filter_append, List.map_append]
  rfl

theorem callsTo_map (i j : Fin m) (calls : List (Call α)) :
    callsTo j (calls.map (Prod.mk i)) = if i = j then calls else [] := by
  split_ifs with hij
  · simp [callsTo, List.filter_map, Function.comp_def, hij]
  · simp [callsTo, List.filter_map, Function.comp_def, hij]

section Distributor

variable {w : Fin m → SinkResults} {log : List (Fin m × Call α)} {j : Fin m}

/-- A chunk is written once to every sink. -/
theorem callsTo_foldl_writeSink (chunk : List α) {js : List (Fin m)} (hjs : js.Nodup) :
    callsTo j (js.foldl (writeSink w chunk) log) = callsTo j log ++
      if j ∈ js then writeLoop (sinkAnswers (w j)) (callsTo j log).length chunk else [] := by
  induction js generalizing log with
  | nil => simp
  | cons i _ ih =>
    obtain ⟨hi, hjs⟩ := List.nodup_cons.mp hjs
    rw [List.foldl_cons, ih hjs, writeSink, callsTo_append, callsTo_map]
    rcases eq_or_ne i j with rfl | hij
    · simp [hi]
    · simp [hij, Ne.symm hij]

theorem callsTo_distributeChunk (chunk : List α) :
    callsTo j (distributeChunk w log chunk) =
      callsTo j log ++ writeLoop (sinkAnswers (w j)) (callsTo j log).length chunk := by
  rw [distributeChunk, callsTo_foldl_writeSink chunk (List.nodup_finRange m),
    if_pos (List.mem_finRange j)]

theorem callsTo_foldl_distributeChunk (chunks : List (List α)) :
    callsTo j (chunks.foldl (distributeChunk w) log) =
      callsTo j log ++ writeChunks (sinkAnswers (w j)) (callsTo j log).length chunks := by
  induction chunks generalizing log with
  | nil => simp [writeChunks]
  | cons _ _ ih =>
    rw [List.foldl_cons, ih, callsTo_distributeChunk, List.append_assoc, List.length_append]
    rfl

end Distributor

/-- For one sink the others might as well not be there. -/
theorem callsTo_runDistributorChild (w : Fin m → SinkResults) (stream : Reads α bufSize)
    (j : Fin m) :
    callsTo j (runDistributorChild w stream) = writeChunks (sinkAnswers (w j)) 0 stream.chunks :=
  callsTo_foldl_distributeChunk stream.chunks

/-- A sink none of whose writes fails gets the whole stream, whatever happens to the others; what
they return makes no difference to what it gets. -/
theorem sinks_independent (w : Fin m → SinkResults) (stream : Reads α bufSize) (j : Fin m) :
    ((∀ c ∈ callsTo j (runDistributorChild w stream), c.failed = false) →
        delivered (callsTo j (runDistributorChild w stream)) = stream.content) ∧
      ∀ w' : Fin m → SinkResults, w' j = w j →
        delivered (callsTo j (runDistributorChild w' stream)) =
          delivered (callsTo j (runDistributorChild w stream)) := by
  simp only [callsTo_runDistributorChild]
  refine ⟨fun h ↦ delivered_writeChunks h, fun w' hw ↦ ?_⟩
  rw [hw]

/-- At every moment a sink has got what all the calls will have delivered, cut short. -/
theorem delivered_take_iff (w : Fin m → SinkResults) (stream : Reads α bufSize) (j : Fin m) :
    (∀ n, delivered (callsTo j ((runDistributorChild w stream).take n)) <+: stream.content) ↔
      delivered (writeChunks (sinkAnswers (w j)) 0 stream.chunks) <+: stream.content := by
  rw [← callsTo_runDistributorChild w stream j]
  constructor
  · intro h
    have hall := h (runDistributorChild w stream).length
    rwa [List.take_length] at hall
  · intro h n
    have htake : callsTo j ((runDistributorChild w stream).take n) <+:
        callsTo j (runDistributorChild w stream) := ((List.take_prefix _ _).filter _).map _
    exact (htake.flatMap Call.taken).trans h

/-- The bytes a sink has got form a prefix of the stream at every moment, on every stream, exactly
if its writes fail for good. On a given stream it is enough that none of the writes that are made
succeeds behind a failed one; in a stream without repetition, where a gap shows, this is also
necessary. -/
theorem sink_cutShort [Nontrivial α] (w : Fin m → SinkResults) (j : Fin m) :
    ((∀ (stream : Reads α bufSize) (n : ℕ),
        delivered (callsTo j ((runDistributorChild w stream).take n)) <+: stream.content) ↔
      (w j).FailsForGood) ∧
    ∀ stream : Reads α bufSize,
      (StopsForGood (callsTo j (runDistributorChild w stream)) →
        ∀ n, delivered (callsTo j ((runDistributorChild w stream).take n)) <+: stream.content) ∧
      (stream.content.Nodup →
        (∀ n, delivered (callsTo j ((runDistributorChild w stream).take n)) <+: stream.content) →
          StopsForGood (callsTo j (runDistributorChild w stream))) := by
  simp only [delivered_take_iff, callsTo_runDistributorChild, ← failsForGood_sinkAnswers]
  refine ⟨⟨fun h ↦ ?_, fun h stream ↦ ?_⟩,
    fun stream ↦ ⟨prefix_delivered_writeChunks, stopsForGood_of_nodup⟩⟩
  · by_contra hnot
    obtain ⟨stream, hgap⟩ := exists_gap (α := α) hnot
    exact hgap (h stream)
  · exact prefix_delivered_writeChunks (h.stops stream.length_le)

/-! ### A gap -/

/-- A descriptor that takes the first byte it is offered, fails in the next call, and then takes all
it is given. -/
def failsOnce : SinkResults where
  result k count := if k = 1 ∨ count = 0 then -1 else if k = 0 then 1 else count
  le k count := by split_ifs <;> omega
  ne_zero k count := by split_ifs <;> omega

def takesAll : SinkResults where
  result _ count := if count = 0 then -1 else count
  le k count := by split_ifs <;> omega
  ne_zero k count := by split_ifs <;> omega

def failsOnceFirst (j : Fin 2) : SinkResults := if j.val = 0 then failsOnce else takesAll

/-- The bytes `ab` and `cd`, read one after the other. -/
def abcd : Reads Byte bufSize where
  chunks := [[97, 98], [99, 100]]
  ne_nil := by decide
  length_le := by decide

/-- A descriptor that takes the first byte it is offered, and no more. -/
def takesOne : SinkResults where
  result k count := if k = 0 ∧ count ≠ 0 then 1 else -1
  le k count := by split_ifs <;> omega
  ne_zero k count := by split_ifs <;> omega

/-- A sink that takes one byte has it for good. -/
theorem sink_cutShort_takesOne :
    delivered (callsTo 0 (runDistributorChild (fun _ : Fin 2 ↦ takesOne) abcd)) = [97] ∧
      delivered (callsTo 0 ((runDistributorChild (fun _ : Fin 2 ↦ takesOne) abcd).take 3)) <+:
        abcd.content := by
  have : Nontrivial Byte := ⟨0, 1, by decide⟩
  refine ⟨by decide +kernel, (sink_cutShort (fun _ : Fin 2 ↦ takesOne) 0).1.mpr ?_ abcd 3⟩
  intro k k' count count' hlt _ _ _ _ _
  have hk : ¬ (k' = 0 ∧ count' ≠ 0) := by omega
  simp only [takesOne, if_neg hk]
  decide

/-- The first of two sinks ends up with `acd`, which is no prefix of `abcd`. -/
theorem sink_gap :
    delivered (callsTo 0 (runDistributorChild failsOnceFirst abcd)) = [97, 99, 100] ∧
      ¬ delivered (callsTo 0 (runDistributorChild failsOnceFirst abcd)) <+: abcd.content ∧
      delivered (callsTo 1 (runDistributorChild failsOnceFirst abcd)) = abcd.content := by
  decide +kernel

end Irish.Shell
