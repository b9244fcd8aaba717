import Irish.Library.Tables
import Irish.Shell.Lexer
import Mathlib.Algebra.Group.Nat.Defs

/-!
# What the lexer reads and writes

The scanners of `src/lexer.c` once more, this time with the index `*i` into memory that goes on
behind the line: to read past the terminator is to read some byte there. Each scanner returns a log
of what it did, in order: the characters it read, the turns of the two outer loops with the index
at both ends, and the writes to the token array. A character that a turn reads several times is
logged once. The loops take fuel, one unit for each turn.

`Follows` is the specification of every scanner: the log is in order, the index has not gone back
and has not passed the terminator, and the result is the one of the scanner on lists in
`Irish.Shell.Lexer`. The index is at most the terminator's at the head of every loop, and a loop
moves on only from a character that is not the terminator; where a scanner advances by two, it has
looked at the character in between. `Stored` is the specification of the whole log: each write to
the token array starts from the array that the write before it left.
-/

set_option autoImplicit false

namespace Irish.Shell

open Library

/-! ### The scanners -/

inductive ScanLoop
  | tokens
  | word
deriving DecidableEq, Repr

inductive Access
  | read (index : ℕ)
  | turn (loop : ScanLoop) (start stop : ℕ)
  | store (before after : GrowArray Token)
deriving DecidableEq, Repr

/-- How a scanner returns: its result, the index, and what it did. -/
structure Traced (α : Type) where
  value : Except ScanError α
  index : ℕ
  log : List Access

/-- What was done before goes to the front of the log. -/
def Traced.after {α : Type} (log : List Access) (r : Traced α) : Traced α :=
  { r with log := log ++ r.log }

section Scanners

variable (line : ℕ → Byte)

/-- The loop of `consume_single_quoted`. -/
def singleQuotedLoopAt : ℕ → ℕ → DynString → Traced DynString
  | 0, i, _ => ⟨.error .stuck, i, []⟩
  | fuel + 1, i, out =>
    if line i = Byte.singleQuote then ⟨.ok out, i + 1, [.read i]⟩
    else if line i = Byte.nul then ⟨.error .unterminated, i, [.read i]⟩
    else (singleQuotedLoopAt fuel (i + 1) (dsAppendChar out (line i))).after [.read i]

def consumeSingleQuotedAt (fuel i : ℕ) (out : DynString) : Traced DynString :=
  singleQuotedLoopAt line fuel (i + 1) out

/-- The loop of `consume_double_quoted`. -/
def doubleQuotedLoopAt : ℕ → ℕ → DynString → Traced DynString
  | 0, i, _ => ⟨.error .stuck, i, []⟩
  | fuel + 1, i, out =>
    if line i = Byte.doubleQuote then ⟨.ok out, i + 1, [.read i]⟩
    else if line i = Byte.nul then ⟨.error .unterminated, i, [.read i]⟩
    else if line i = Byte.backslash then
      if line (i + 1) = Byte.nul then ⟨.error .unterminated, i, [.read i, .read (i + 1)]⟩
      else if line (i + 1) = Byte.doubleQuote ∨ line (i + 1) = Byte.backslash then
        (doubleQuotedLoopAt fuel (i + 2) (dsAppendChar out (line (i + 1)))).after
          [.read i, .read (i + 1)]
      else
        (doubleQuotedLoopAt fuel (i + 2)
          (dsAppendChar (dsAppendChar out Byte.backslash) (line (i + 1)))).after
          [.read i, .read (i + 1)]
    else (doubleQuotedLoopAt fuel (i + 1) (dsAppendChar out (line i))).after [.read i]

def consumeDoubleQuotedAt (fuel i : ℕ) (out : DynString) : Traced DynString :=
  doubleQuotedLoopAt line fuel (i + 1) out

def consumeEscapeAt (i : ℕ) (out : DynString) : Traced DynString :=
  let c := line (i + 1)
  if c = Byte.nul ∨ c = Byte.newline ∨ c = Byte.carriageReturn then
    ⟨.error .unterminated, i + 1, [.read (i + 1)]⟩
  else ⟨.ok (dsAppendChar out c), i + 2, [.read (i + 1)]⟩

/-- The body of the loop of `consume_word`. -/
def wordTurnAt (fuel i : ℕ) (ds : DynString) : Traced DynString :=
  if line i = Byte.singleQuote then consumeSingleQuotedAt line fuel i ds
  else if line i = Byte.doubleQuote then consumeDoubleQuotedAt line fuel i ds
  else if line i = Byte.backslash then consumeEscapeAt line i ds
  else ⟨.ok (dsAppendChar ds (line i)), i + 1, []⟩

/-- The loop of `consume_word`. -/
def consumeWordLoopAt : ℕ → ℕ → DynString → Traced DynString
  | 0, i, _ => ⟨.error .stuck, i, []⟩
  | fuel + 1, i, ds =>
    if line i = Byte.nul ∨ isBlank (line i) ∨ isOperator (line i) then ⟨.ok ds, i, [.read i]⟩
    else
      let r := wordTurnAt line fuel i ds
      let log := .read i :: r.log ++ [.turn .word i r.index]
      match r.value with
      | .error e => ⟨.error e, r.index, log⟩
      | .ok ds => (consumeWordLoopAt fuel r.index ds).after log

def consumeWordAt (fuel i : ℕ) : Traced (List Byte) :=
  let r := consumeWordLoopAt line fuel i dsInit
  ⟨r.value.map DynString.data, r.index, r.log⟩

def consumeOperatorAt (i : ℕ) : Traced TokenType :=
  let c := line i
  if c = Byte.greater then
    if line (i + 1) = Byte.greater then ⟨.ok .gtgt, i + 2, [.read i, .read (i + 1)]⟩
    else ⟨.ok .gt, i + 1, [.read i, .read (i + 1)]⟩
  else if c = Byte.bar then ⟨.ok .pipe, i + 1, [.read i]⟩
  else if c = Byte.ampersand then ⟨.ok .amp, i + 1, [.read i]⟩
  else if c = Byte.semicolon then ⟨.ok .semi, i + 1, [.read i]⟩
  else if c = Byte.less then ⟨.ok .lt, i + 1, [.read i]⟩
  else ⟨.ok .word, i + 1, [.read i]⟩

/-- The token that the body of the loop of `lexer_tokenize` makes at a character that is not
blank. -/
def nextTokenAt (fuel i : ℕ) : Traced Token :=
  if isOperator (line i) then
    let r := consumeOperatorAt line i
    ⟨r.value.map fun type ↦ ⟨type, none⟩, r.index, r.log⟩
  else
    let r := consumeWordAt line fuel i
    ⟨r.value.map fun word ↦ ⟨.word, some word⟩, r.index, r.log⟩

/-- The loop of `lexer_tokenize`. -/
def tokenizeLoopAt : ℕ → ℕ → GrowArray Token → Traced (GrowArray Token)
  | 0, i, _ => ⟨.error .stuck, i, []⟩
  | fuel + 1, i, tokens =>
    if line i = Byte.nul then ⟨.ok tokens, i, [.read i]⟩
    else if isBlank (line i) then
      (tokenizeLoopAt fuel (i + 1) tokens).after [.read i, .turn .tokens i (i + 1)]
    else
      let r := nextTokenAt line (fuel + 1) i
      let log := .read i :: r.log
      match r.value with
      | .error e => ⟨.error e, r.index, log ++ [.turn .tokens i r.index]⟩
      | .ok token =>
        let tokens' := tokens.push 1 token
        (tokenizeLoopAt fuel r.index tokens').after
          (log ++ [.store tokens tokens', .turn .tokens i r.index])

/-- `lexer_tokenize`. -/
def lexerTokenizeAt (fuel : ℕ) : Traced (GrowArray Token) :=
  tokenizeLoopAt line fuel 0 (GrowArray.allocate 8)

end Scanners

/-! ### Lines in memory -/

/-- The string that starts at index 0 has its terminator at `n`. -/
structure Terminated (line : ℕ → Byte) (n : ℕ) : Prop where
  nul : line n = Byte.nul
  before : ∀ i, i < n → line i ≠ Byte.nul

/-- What is left of a line behind an index, with the terminator. -/
def restOf (line : ℕ → Byte) (n i : ℕ) : List Byte := (List.range' i (n + 1 - i)).map line

variable {n i fuel fuel' : ℕ} {ds : DynString} {bytes : List Byte}

theorem restOf_eq (line : ℕ → Byte) (hi : i ≤ n) :
    restOf line n i = line i :: restOf line n (i + 1) := by
  have hlength : n + 1 - i = n + 1 - (i + 1) + 1 := by omega
  rw [restOf, hlength, List.range'_succ, List.map_cons, restOf]

theorem length_restOf (line : ℕ → Byte) (n i : ℕ) : (restOf line n i).length = n + 1 - i := by
  simp [restOf]

/-- What the log of a scanner may hold, for a line with its terminator at `n`. Only the loop of
`lexer_tokenize` writes to the token array. -/
def Access.Ok (n : ℕ) : Access → Prop
  | .read index => index ≤ n
  | .turn _ start stop => start < stop
  | .store _ _ => False

/-- The specification of a scanner that starts at index `i`. -/
structure Follows {α : Type} (line : ℕ → Byte) (n i : ℕ) (r : Traced α) (s : Scan α) : Prop where
  log : ∀ access ∈ r.log, access.Ok n
  le_index : i ≤ r.index
  index_le : r.index ≤ n
  value : (∃ x, r.value = .ok x ∧ s = .ok (restOf line n r.index, x)) ∨
    r.value = .error .unterminated ∧ s = .error .unterminated

section Follows

variable {line : ℕ → Byte} {j : ℕ} {α β : Type} {r : Traced α} {s : Scan α} {c : Byte}

theorem Terminated.lt_of_ne (h : Terminated line n) (hi : i ≤ n) (hne : line i ≠ Byte.nul) :
    i < n := by
  refine Nat.lt_of_le_of_ne hi ?_
  rintro rfl
  exact hne h.nul

theorem Follows.after {α : Type} {j : ℕ} {r : Traced α} {s : Scan α} (h : Follows line n j r s)
    (hij : i ≤ j) {log : List Access} (hlog : ∀ access ∈ log, access.Ok n) :
    Follows line n i (r.after log) s :=
  ⟨fun access haccess ↦ (List.mem_append.mp haccess).elim (hlog access) (h.log access),
    hij.trans h.le_index, h.index_le, h.value⟩

theorem Follows.mono (h : Follows line n j r s) (hij : i ≤ j) : Follows line n i r s :=
  ⟨h.log, hij.trans h.le_index, h.index_le, h.value⟩

/-- A scanner that converts the result of another one. -/
theorem Follows.map (h : Follows line n i r s) (f : α → β) :
    Follows line n i ⟨r.value.map f, r.index, r.log⟩
      (s.map fun x ↦ (x.1, f x.2)) := by
  refine ⟨h.log, h.le_index, h.index_le, ?_⟩
  rcases h.value with ⟨x, hr, hs⟩ | ⟨hr, hs⟩
  · exact .inl ⟨f x, by rw [hr]; rfl, by rw [hs]; rfl⟩
  · exact .inr ⟨by rw [hr]; rfl, by rw [hs]; rfl⟩

theorem follows_singleQuotedLoopAt (hline : Terminated line n) (hi : i ≤ n) (hfuel : n < fuel + i)
    (out : DynString) :
    Follows line n i (singleQuotedLoopAt line fuel i out)
      (singleQuotedLoop (restOf line n i) out) := by
  induction fuel generalizing i out with
  | zero => omega
  | succ _ ih =>
    rw [restOf_eq line hi, singleQuotedLoopAt, singleQuotedLoop]
    split_ifs with hquote hnul
    · have hlt := hline.lt_of_ne hi (by rw [hquote]; decide)
      exact ⟨by simpa [Access.Ok] using hi, Nat.le_succ i, hlt, .inl ⟨out, rfl, rfl⟩⟩
    · exact ⟨by simpa [Access.Ok] using hi, Nat.le_refl i, hi, .inr ⟨rfl, rfl⟩⟩
    · have hlt := hline.lt_of_ne hi hnul
      exact (ih hlt (by omega) _).after (Nat.le_succ i) (by simpa [Access.Ok] using hi)

theorem follows_doubleQuotedLoopAt (hline : Terminated line n) (hi : i ≤ n) (hfuel : n < fuel + i)
    (out : DynString) :
    Follows line n i (doubleQuotedLoopAt line fuel i out)
      (doubleQuotedLoop (restOf line n i) out) := by
  induction fuel generalizing i out with
  | zero => omega
  | succ _ ih =>
    have hread : (Access.read i).Ok n := hi
    rw [restOf_eq line hi, doubleQuotedLoopAt, doubleQuotedLoop.eq_def]
    dsimp only
    split_ifs with hquote hnul hback hnext hspecial
    · have hlt := hline.lt_of_ne hi (by rw [hquote]; decide)
      exact ⟨by simpa using hread, Nat.le_succ i, hlt, .inl ⟨out, rfl, rfl⟩⟩
    · exact ⟨by simpa using hread, Nat.le_refl i, hi, .inr ⟨rfl, rfl⟩⟩
    all_goals have hlt := hline.lt_of_ne hi hnul
    -- Behind a backslash there is at least the terminator.
    · rw [restOf_eq line hlt]
      refine ⟨by simpa using ⟨hread, hlt⟩, Nat.le_refl i, hi, .inr ⟨rfl, ?_⟩⟩
      simp [hnext]
    · have hlt' := hline.lt_of_ne hlt hnext
      rw [restOf_eq line hlt]
      simp only [hnext, hspecial, if_false, if_true]
      exact (ih hlt' (by omega) _).after (Nat.le_add_right i 2) (by simpa using ⟨hread, hlt⟩)
    · have hlt' := hline.lt_of_ne hlt hnext
      rw [restOf_eq line hlt]
      simp only [hnext, hspecial, if_false]
      exact (ih hlt' (by omega) _).after (Nat.le_add_right i 2) (by simpa using ⟨hread, hlt⟩)
    · exact (ih hlt (by omega) _).after (Nat.le_succ i) (by simpa using hread)

theorem follows_consumeEscapeAt (hline : Terminated line n) (hi : i < n) (out : DynString) :
    Follows line n (i + 1) (consumeEscapeAt line i out) (consumeEscape (restOf line n i) out) := by
  rw [restOf_eq line hi.le, consumeEscapeAt, consumeEscape, List.tail_cons, restOf_eq line hi]
  have hread : (Access.read (i + 1)).Ok n := hi
  dsimp only
  split_ifs with hend
  · exact ⟨by simpa using hread, le_rfl, hi, .inr ⟨rfl, rfl⟩⟩
  · have hlt := hline.lt_of_ne hi fun h ↦ hend (.inl h)
    exact ⟨by simpa using hread, Nat.le_succ _, hlt, .inl ⟨_, rfl, rfl⟩⟩

/-- The body of the loop of `consume_word` on lists. -/
def wordTurn (c : Byte) (rest : List Byte) (ds : DynString) : Scan DynString :=
  if c = Byte.singleQuote then consumeSingleQuoted (c :: rest) ds
  else if c = Byte.doubleQuote then consumeDoubleQuoted (c :: rest) ds
  else if c = Byte.backslash then consumeEscape (c :: rest) ds
  else .ok (rest, dsAppendChar ds c)

theorem consumeWordLoop_turn (hc : ¬ (c = Byte.nul ∨ isBlank c ∨ isOperator c)) (fuel : ℕ)
    (rest : List Byte) (ds : DynString) :
    consumeWordLoop (fuel + 1) (c :: rest) ds =
      (wordTurn c rest ds).bind fun x ↦ consumeWordLoop fuel x.1 x.2 := by
  rw [consumeWordLoop, if_neg hc, wordTurn]
  split_ifs
  · cases consumeSingleQuoted (c :: rest) ds <;> rfl
  · cases consumeDoubleQuoted (c :: rest) ds <;> rfl
  · cases consumeEscape (c :: rest) ds <;> rfl
  · rfl

theorem follows_wordTurnAt (hline : Terminated line n) (hi : i < n) (hfuel : n < fuel + (i + 1))
    (ds : DynString) :
    Follows line n (i + 1) (wordTurnAt line fuel i ds)
      (wordTurn (line i) (restOf line n (i + 1)) ds) := by
  unfold wordTurnAt wordTurn
  split_ifs
  · exact follows_singleQuotedLoopAt hline hi hfuel ds
  · exact follows_doubleQuotedLoopAt hline hi hfuel ds
  · rw [← restOf_eq line hi.le]
    exact follows_consumeEscapeAt hline hi ds
  · exact ⟨by simp, le_rfl, hi, .inl ⟨_, rfl, rfl⟩⟩

/-- A turn of the loop of `consume_word`, when the later turns are in order. -/
theorem follows_turn (hline : Terminated line n) (hi : i ≤ n) (hfuel : n < fuel + 1 + i)
    (hstop : ¬ (line i = Byte.nul ∨ isBlank (line i) ∨ isOperator (line i)))
    (hlater : ∀ j ds, i < j → j ≤ n → Follows line n j (consumeWordLoopAt line fuel j ds)
      (consumeWordLoop fuel' (restOf line n j) ds)) (ds : DynString) :
    Follows line n (i + 1) (consumeWordLoopAt line (fuel + 1) i ds)
      (consumeWordLoop (fuel' + 1) (restOf line n i) ds) := by
  have hlt := hline.lt_of_ne hi fun h ↦ hstop (.inl h)
  have hturn := follows_wordTurnAt hline hlt (show n < fuel + (i + 1) by omega) ds
  rw [restOf_eq line hi, consumeWordLoopAt, if_neg hstop, consumeWordLoop_turn hstop]
  generalize wordTurnAt line fuel i ds = r at hturn ⊢
  have hindex := hturn.le_index
  have hlog : ∀ access ∈ Access.read i :: r.log ++ [.turn .word i r.index], access.Ok n := by
    simp only [List.cons_append, List.forall_mem_cons, List.forall_mem_append]
    exact ⟨hi, hturn.log, hindex, by simp⟩
  rcases hturn.value with ⟨ds', hvalue, hscan⟩ | ⟨hvalue, hscan⟩
  · rw [hscan]
    simp only [hvalue]
    exact (hlater r.index ds' hindex hturn.index_le).after hindex hlog
  · rw [hscan]
    simp only [hvalue]
    exact ⟨hlog, hindex, hturn.index_le, .inr ⟨rfl, rfl⟩⟩

theorem follows_consumeWordLoopAt (hline : Terminated line n) (hi : i ≤ n) (hfuel : n < fuel + i)
    (hfuel' : n < fuel' + i) (ds : DynString) :
    Follows line n i (consumeWordLoopAt line fuel i ds)
      (consumeWordLoop fuel' (restOf line n i) ds) := by
  induction fuel generalizing i fuel' ds with
  | zero => omega
  | succ _ ih =>
    obtain ⟨fuel', rfl⟩ : ∃ k, fuel' = k + 1 := Nat.exists_eq_add_one.mpr (by omega)
    by_cases hstop : line i = Byte.nul ∨ isBlank (line i) ∨ isOperator (line i)
    · have hread : (Access.read i).Ok n := hi
      rw [restOf_eq line hi, consumeWordLoopAt, if_pos hstop, consumeWordLoop, if_pos hstop,
        ← restOf_eq line hi]
      exact ⟨by simpa using hread, Nat.le_refl i, hi, .inl ⟨ds, rfl, rfl⟩⟩
    · exact (follows_turn hline hi hfuel hstop
        (fun j ds' hij hj ↦ ih hj (by omega) (by omega) ds') ds).mono (Nat.le_succ i)

theorem consumeWord_eq (line : List Byte) : consumeWord line =
    (consumeWordLoop line.length line dsInit).map fun x ↦ (x.1, x.2.data) := by
  unfold consumeWord
  cases consumeWordLoop line.length line dsInit <;> rfl

/-- `consume_word` at a character of a word makes at least one turn. -/
theorem follows_consumeWordAt (hline : Terminated line n) (hi : i ≤ n) (hfuel : n < fuel + i)
    (hstart : ¬ (line i = Byte.nul ∨ isBlank (line i) ∨ isOperator (line i))) :
    Follows line n (i + 1) (consumeWordAt line fuel i) (consumeWord (restOf line n i)) := by
  obtain ⟨fuel, rfl⟩ : ∃ k, fuel = k + 1 := Nat.exists_eq_add_one.mpr (by omega)
  have hlength : (restOf line n i).length = (n - i) + 1 := by
    rw [length_restOf]
    omega
  rw [consumeWord_eq, hlength]
  refine (follows_turn hline hi hfuel hstart (fun j ds hij hj ↦ ?_) dsInit).map DynString.data
  exact follows_consumeWordLoopAt hline hj (by omega) (by omega) ds

theorem follows_consumeOperatorAt (hline : Terminated line n) (hi : i < n) :
    Follows line n (i + 1) (consumeOperatorAt line i) (consumeOperator (restOf line n i)) := by
  have hread : (Access.read i).Ok n := hi.le
  have hnext : (Access.read (i + 1)).Ok n := hi
  rw [restOf_eq line hi.le, consumeOperatorAt, consumeOperator.eq_def]
  dsimp only
  split_ifs with hgreater hboth
  · have hlt := hline.lt_of_ne hi (by rw [hboth]; decide)
    rw [restOf_eq line hi]
    refine ⟨by simpa using ⟨hread, hnext⟩, Nat.le_succ _, hlt, .inl ⟨.gtgt, rfl, ?_⟩⟩
    simp [hboth]
  · rw [restOf_eq line hi]
    refine ⟨by simpa using ⟨hread, hnext⟩, le_rfl, hi, .inl ⟨.gt, rfl, ?_⟩⟩
    simp [hboth, restOf_eq line hi]
  all_goals exact ⟨by simpa using hread, le_rfl, hi, .inl ⟨_, rfl, rfl⟩⟩

/-- The token that starts at a character, on lists. -/
def nextToken (c : Byte) (rest : List Byte) : Scan Token :=
  if isOperator c then (consumeOperator (c :: rest)).map fun x ↦ (x.1, ⟨x.2, none⟩)
  else (consumeWord (c :: rest)).map fun x ↦ (x.1, ⟨.word, some x.2⟩)

theorem tokenizeLoop_turn (hnul : c ≠ Byte.nul) (hblank : ¬ isBlank c) (fuel : ℕ) (rest : List Byte)
    (tokens : GrowArray Token) :
    tokenizeLoop (fuel + 1) (c :: rest) tokens =
      (nextToken c rest).bind fun x ↦ tokenizeLoop fuel x.1 (tokens.push 1 x.2) := by
  rw [tokenizeLoop, if_neg hnul, if_neg hblank, nextToken]
  split_ifs
  · cases consumeOperator (c :: rest) <;> rfl
  · cases consumeWord (c :: rest) <;> rfl

theorem follows_nextTokenAt (hline : Terminated line n) (hi : i < n) (hblank : ¬ isBlank (line i))
    (hfuel : n < fuel + i) :
    Follows line n (i + 1) (nextTokenAt line fuel i)
      (nextToken (line i) (restOf line n (i + 1))) := by
  unfold nextTokenAt nextToken
  rw [← restOf_eq line hi.le]
  split_ifs with hop
  · exact (follows_consumeOperatorAt hline hi).map _
  · refine (follows_consumeWordAt hline hi.le hfuel ?_).map _
    simp [hline.before i hi, hblank, hop]

end Follows

/-! ### The token array -/

/-- The writes of a log lead from one token array to another. A write starts from the array that
the write before it left; it is inside of the block, which may have been enlarged for it, and puts
one token behind those in the array. -/
inductive Stored (n : ℕ) : GrowArray Token → List Access → GrowArray Token → Prop
  | nil (tokens : GrowArray Token) : Stored n tokens [] tokens
  | scan {tokens last : GrowArray Token} {access : Access} {log : List Access}
      (haccess : access.Ok n) (hlog : Stored n tokens log last) :
      Stored n tokens (access :: log) last
  | store {before after last : GrowArray Token} {read : List Token} {token : Token}
      {log : List Access} (hbefore : before.Holds read) (hroom : before.used < after.capacity)
      (hafter : after.Holds (read ++ [token])) (hlog : Stored n after log last) :
      Stored n before (.store before after :: log) last

section Stored

variable {line : ℕ → Byte} {tokens last : GrowArray Token} {log scanned : List Access}
  {access : Access} {read : List Token}

theorem Stored.scans (h : Stored n tokens log last) (hscanned : ∀ access ∈ scanned, access.Ok n) :
    Stored n tokens (scanned ++ log) last := by
  induction scanned with
  | nil => exact h
  | cons _ _ ih =>
    rw [List.forall_mem_cons] at hscanned
    exact .scan hscanned.1 (ih hscanned.2)

theorem Stored.ok_of_mem (h : Stored n tokens log last) (hmem : access ∈ log)
    (hstore : ∀ before after, access ≠ .store before after) : access.Ok n := by
  induction h with
  | nil => cases hmem
  | scan haccess _ ih =>
    rcases List.mem_cons.mp hmem with rfl | hmem
    · exact haccess
    · exact ih hmem
  | store _ _ _ _ ih =>
    rcases List.mem_cons.mp hmem with rfl | hmem
    · exact absurd rfl (hstore _ _)
    · exact ih hmem

/-- The specification of the loop of `lexer_tokenize`, which starts with an array: its result is
the one on lists, and the array that it returns is the one that the last write left. -/
structure TokenizesAt (n : ℕ) (tokens : GrowArray Token) (r : Traced (GrowArray Token))
    (s : Except ScanError (GrowArray Token)) : Prop where
  value : r.value = s
  stored : ∃ last read, Stored n tokens r.log last ∧ last.Holds read ∧
    (r.value = .ok last ∨ r.value = .error .unterminated)

theorem TokenizesAt.after {tokens : GrowArray Token} {r : Traced (GrowArray Token)}
    {s : Except ScanError (GrowArray Token)} (h : TokenizesAt n tokens r s) {log : List Access}
    (hlog : ∀ access ∈ log, access.Ok n) : TokenizesAt n tokens (r.after log) s := by
  obtain ⟨last, read, hstored, hread, hvalue⟩ := h.stored
  exact ⟨h.value, last, read, hstored.scans hlog, hread, hvalue⟩

theorem tokenizes_tokenizeLoopAt (hline : Terminated line n) (hi : i ≤ n) (hfuel : n < fuel + i)
    (hfuel' : n < fuel' + i) (hread : tokens.Holds read) (hcapacity : 0 < tokens.capacity) :
    TokenizesAt n tokens (tokenizeLoopAt line fuel i tokens)
      (tokenizeLoop fuel' (restOf line n i) tokens) := by
  induction fuel generalizing i fuel' tokens read with
  | zero => omega
  | succ fuel ih =>
    obtain ⟨fuel', rfl⟩ : ∃ k, fuel' = k + 1 := Nat.exists_eq_add_one.mpr (by omega)
    have hchar : (Access.read i).Ok n := hi
    rw [restOf_eq line hi, tokenizeLoopAt]
    by_cases hnul : line i = Byte.nul
    · rw [if_pos hnul, tokenizeLoop, if_pos hnul]
      exact ⟨rfl, tokens, read, .scan hchar (.nil tokens), hread, .inl rfl⟩
    have hlt := hline.lt_of_ne hi hnul
    rw [if_neg hnul]
    by_cases hblank : isBlank (line i)
    · rw [if_pos hblank, tokenizeLoop, if_neg hnul, if_pos hblank]
      refine (ih hlt (by omega) (by omega) hread hcapacity).after ?_
      simpa [Access.Ok] using hi
    · have htoken := follows_nextTokenAt hline hlt hblank hfuel
      rw [if_neg hblank, tokenizeLoop_turn hnul hblank]
      generalize nextTokenAt line (fuel + 1) i = r at htoken ⊢
      have hturn : (Access.turn .tokens i r.index).Ok n := htoken.le_index
      have hlog : ∀ access ∈ Access.read i :: r.log, access.Ok n :=
        List.forall_mem_cons.mpr ⟨hchar, htoken.log⟩
      rcases htoken.value with ⟨token, hvalue, hscan⟩ | ⟨hvalue, hscan⟩
      · have hpush := hread.push token (Nat.succ_pos 0) hcapacity
        have hroom : tokens.used < (tokens.push 1 token).capacity :=
          GrowArray.slack_le_capacity_push hread.used_le hcapacity
        have hindex := htoken.le_index
        have hrest : TokenizesAt n (tokens.push 1 token)
            (tokenizeLoopAt line fuel r.index (tokens.push 1 token))
            (tokenizeLoop fuel' (restOf line n r.index) (tokens.push 1 token)) :=
          ih htoken.index_le (by omega) (by omega) hpush (Nat.zero_lt_of_lt hroom)
        obtain ⟨last, all, hstored, hall, hlast⟩ := hrest.stored
        rw [hscan]
        simp only [hvalue]
        refine ⟨hrest.value, last, all, ?_, hall, hlast⟩
        have hstore := Stored.store hread hroom hpush (.scan hturn hstored)
        simpa [Traced.after] using hstore.scans hlog
      · rw [hscan]
        simp only [hvalue]
        exact ⟨rfl, tokens, read, (Stored.scan hturn (.nil tokens)).scans hlog, hread, .inr rfl⟩

end Stored

/-! ### Whole lines -/

section Lines

variable {line : ℕ → Byte}

theorem tokenizes_lexerTokenizeAt (hline : Terminated line n) (hfuel : n < fuel) :
    TokenizesAt n (GrowArray.allocate 8) (lexerTokenizeAt line fuel)
      (tokenizeLoop (n + 1) (restOf line n 0) (GrowArray.allocate 8)) :=
  tokenizes_tokenizeLoopAt hline (Nat.zero_le n) (by omega) (by omega)
    (GrowArray.holds_allocate 8) (by decide)

/-- With the index into memory the lexer computes what it does on lists. -/
theorem value_lexerTokenizeAt (hline : Terminated line n) (hfuel : n < fuel) :
    (lexerTokenizeAt line fuel).value.map GrowArray.contents =
      lexerTokenize ((List.range n).map line) := by
  have hmemory : (List.range n).map line ++ [Byte.nul] = restOf line n 0 := by
    rw [restOf, Nat.sub_zero, ← List.range_eq_range', List.range_succ, List.map_append,
      List.map_singleton, hline.nul]
  have hloop := (tokenizes_lexerTokenizeAt hline hfuel).value
  unfold lexerTokenize
  simp only [hmemory, length_restOf, Nat.sub_zero, hloop]
  cases tokenizeLoop (n + 1) (restOf line n 0) (GrowArray.allocate 8) <;> rfl

/-- For every line, whatever it ends with and whatever is in memory behind it: no character behind
the terminator is read, every turn of the loops of `lexer_tokenize` and `consume_word` moves the
index on, and the scan ends, with the tokens or with `NULL`. -/
theorem lexerTokenizeAt_inBounds (hline : Terminated line n) (hfuel : n < fuel) :
    let r := lexerTokenizeAt line fuel
    (∀ index, .read index ∈ r.log → index ≤ n) ∧
      (∀ loop start stop, .turn loop start stop ∈ r.log → start < stop) ∧
      ((∃ tokens, r.value = .ok tokens) ∨ r.value = .error .unterminated) := by
  intro r
  obtain ⟨last, -, hstored, -, hvalue⟩ := (tokenizes_lexerTokenizeAt hline hfuel).stored
  refine ⟨fun index hmem ↦ hstored.ok_of_mem hmem (by simp),
    fun loop start stop hmem ↦ hstored.ok_of_mem hmem (by simp), ?_⟩
  exact hvalue.imp (fun hok ↦ ⟨last, hok⟩) id

/-- `"\` with a `>` behind the terminator. -/
def danglingQuote : ℕ → Byte
  | 0 => Byte.doubleQuote
  | 1 => Byte.backslash
  | 2 => Byte.nul
  | _ => Byte.greater

theorem inBounds_danglingQuote : Terminated danglingQuote 2 ∧
    (∀ index, .read index ∈ (lexerTokenizeAt danglingQuote 3).log → index ≤ 2) ∧
    (lexerTokenizeAt danglingQuote 3).value = .error .unterminated := by
  have hline : Terminated danglingQuote 2 := ⟨rfl, by decide⟩
  exact ⟨hline, (lexerTokenizeAt_inBounds hline (by decide : 2 < 3)).1, by rfl⟩

end Lines

/-! ### Growing buffers -/

/-- `ds_init`, with a check of every write. -/
def dsInitChecked : Option DynString :=
  ((GrowArray.allocate dynstringDefaultCapacity).store 0 Byte.nul).map DynString.mk

/-- `ds_append_char`, with a check of every write. -/
def dsAppendCharChecked (ds : DynString) (c : Byte) : Option DynString :=
  ((ds.buffer.reserve 2).storeNext c).bind fun buffer ↦
    (buffer.store buffer.used Byte.nul).map DynString.mk

theorem dsAppendCharChecked_eq (h : ds.Holds bytes) (c : Byte) :
    dsAppendCharChecked ds c = some (dsAppendChar ds c) := by
  have hroom := GrowArray.slack_le_capacity_push (x := c) h.buffer.used_le h.room
  have hstore : (ds.buffer.reserve 2).storeNext c = some (ds.buffer.push 2 c) :=
    GrowArray.storeNext_reserve (by rw [GrowArray.capacity_push] at hroom; omega) c
  have hend : (ds.buffer.push 2 c).used < (ds.buffer.push 2 c).capacity := hroom
  rw [dsAppendCharChecked, hstore, Option.bind_some, GrowArray.store, if_pos hend]
  rfl

theorem foldlM_dsAppendCharChecked (h : ds.Holds bytes) (more : List Byte) :
    more.foldlM dsAppendCharChecked ds = some (more.foldl dsAppendChar ds) := by
  induction more generalizing ds bytes with
  | nil => rfl
  | cons c _ ih =>
    rw [List.foldlM_cons, dsAppendCharChecked_eq h c, List.foldl_cons]
    exact ih (h.append c)

/-- The block is enlarged only when it is full. -/
theorem capacity_dsAppendChar_le (c : Byte) (h : ds.buffer.capacity ≤ max 16 (2 * ds.buffer.used)) :
    (dsAppendChar ds c).buffer.capacity ≤ max 16 (2 * (ds.buffer.used + 1)) := by
  have hcapacity : (dsAppendChar ds c).buffer.capacity = (ds.buffer.reserve 2).capacity := by
    rw [dsAppendChar, GrowArray.capacity_write, GrowArray.capacity_push]
  rw [hcapacity, GrowArray.capacity_reserve]
  split_ifs with hfull
  · omega
  · omega

theorem capacity_foldl_dsAppendChar_le (more : List Byte)
    (h : ds.buffer.capacity ≤ max 16 (2 * ds.buffer.used)) :
    (more.foldl dsAppendChar ds).buffer.capacity ≤
      max 16 (2 * (ds.buffer.used + more.length)) := by
  induction more generalizing ds with
  | nil => exact h
  | cons c more ih =>
    have hrest := ih (capacity_dsAppendChar_le c h)
    rwa [List.foldl_cons, List.length_cons, Nat.add_comm more.length, ← Nat.add_assoc]

/-- After any sequence of characters appended to a fresh string every write was inside the block,
there is room for the terminator, and the block has the characters and the terminator; no `size_t`
wraps for fewer than `2 ^ 63` characters. From the fresh token array of `lexer_tokenize` on, each
write is inside of the block and keeps the tokens that the writes before it put there, up to the
array that is returned, which has all the tokens of the line. -/
theorem growing_buffers_hold :
    (∀ bytes : List Byte, ∃ ds, (dsInitChecked.bind fun ds ↦ bytes.foldlM dsAppendCharChecked ds) =
        some ds ∧ ds.buffer.used = bytes.length ∧ ds.buffer.used + 1 ≤ ds.buffer.capacity ∧
      ds.buffer.cells.take ds.buffer.used = bytes.map some ∧
      ds.buffer.cells[ds.buffer.used]? = some (some Byte.nul) ∧
      (bytes.length < 2 ^ 63 → ds.buffer.capacity < 2 ^ 64)) ∧
    ∀ (line : ℕ → Byte) (n fuel : ℕ), Terminated line n → n < fuel →
      ∃ last tokens, Stored n (GrowArray.allocate 8) (lexerTokenizeAt line fuel).log last ∧
        last.Holds tokens ∧
        ((lexerTokenizeAt line fuel).value = .ok last ∧
            lexerTokenize ((List.range n).map line) = .ok tokens ∨
          (lexerTokenizeAt line fuel).value = .error .unterminated) := by
  refine ⟨fun bytes ↦ ?_, fun line n fuel hline hfuel ↦ ?_⟩
  · have hholds := holds_dsInit.foldl bytes
    rw [List.nil_append] at hholds
    have hinit : dsInitChecked = some dsInit := rfl
    refine ⟨bytes.foldl dsAppendChar dsInit, ?_, hholds.buffer.used_eq, ?_, hholds.buffer.cells_eq,
      hholds.terminated, fun hlength ↦ ?_⟩
    · rw [hinit]
      exact foldlM_dsAppendCharChecked holds_dsInit bytes
    · exact lt_of_getElem? hholds.terminated
    · have hcapacity := @capacity_foldl_dsAppendChar_le dsInit bytes (by decide)
      have hused : dsInit.buffer.used = 0 := rfl
      omega
  · obtain ⟨last, tokens, hstored, hread, hvalue⟩ := (tokenizes_lexerTokenizeAt hline hfuel).stored
    refine ⟨last, tokens, hstored, hread, hvalue.imp_left fun hok ↦ ⟨hok, ?_⟩⟩
    rw [← value_lexerTokenizeAt hline hfuel, hok]
    exact congrArg Except.ok hread.contents_eq

end Irish.Shell
