import Irish.Library.GrowArray

/-!
# The lexer of the shell

`src/dynstring.c` and `src/lexer.c`. A line is scanned in memory, with its terminator, so a
scanning position is the rest of that memory; to read where nothing is left is to read past the
terminator, which the functions report as `overrun`. The two loops that call other scanners take
fuel, one unit for each turn, and report `stuck` when it runs out; the length of the memory is
always enough. Allocation is assumed to succeed.
-/

set_option autoImplicit false

namespace Irish.Shell

open Library

/-! ### Bytes -/

abbrev Byte : Type := UInt8

namespace Byte

abbrev nul : Byte := 0
abbrev tab : Byte := 9
abbrev newline : Byte := 10
abbrev carriageReturn : Byte := 13
abbrev space : Byte := 32
abbrev doubleQuote : Byte := 34
abbrev ampersand : Byte := 38
abbrev singleQuote : Byte := 39
abbrev semicolon : Byte := 59
abbrev less : Byte := 60
abbrev greater : Byte := 62
abbrev backslash : Byte := 92
abbrev bar : Byte := 124

end Byte

/-! ### Growing strings -/

/-- `DynString`: `len` is the number of cells in use. -/
structure DynString where
  buffer : GrowArray Byte
deriving DecidableEq, Repr

def dynstringDefaultCapacity : ℕ := 16

/-- `ds_init`. -/
def dsInit : DynString :=
  ⟨(GrowArray.allocate dynstringDefaultCapacity).write 0 Byte.nul⟩

/-- `ds_append_char`: room for the character and for the terminator behind it. -/
def dsAppendChar (ds : DynString) (c : Byte) : DynString :=
  let buffer := ds.buffer.push 2 c
  ⟨buffer.write buffer.used Byte.nul⟩

/-- The C string that starts at `ds->data`. -/
def DynString.data (ds : DynString) : List Byte := ds.buffer.text Byte.nul

/-- The string stores a sequence of bytes: they are in the buffer, with a terminator behind them. -/
structure DynString.Holds (ds : DynString) (bytes : List Byte) : Prop where
  buffer : ds.buffer.Holds bytes
  room : 2 ≤ ds.buffer.capacity
  terminated : ds.buffer.cells[ds.buffer.used]? = some (some Byte.nul)

theorem holds_dsInit : dsInit.Holds [] := by
  refine ⟨(GrowArray.holds_allocate _).write_of_le le_rfl, ?_, ?_⟩
  · decide
  · decide

variable {ds : DynString} {bytes line rest word : List Byte}

theorem DynString.Holds.append (h : ds.Holds bytes)
    (c : Byte) : (dsAppendChar ds c).Holds (bytes ++ [c]) := by
  have hpush := h.buffer.push c (Nat.succ_pos 1) h.room
  refine ⟨hpush.write_of_le le_rfl, ?_, ?_⟩
  · have hroom := h.room
    have hgrow := ds.buffer.capacity_le_push 2 c
    rw [dsAppendChar, GrowArray.capacity_write]
    omega
  · -- The terminator is behind the new character, in the cell that `reserve` made sure of.
    have hroom := GrowArray.slack_le_capacity_reserve h.buffer.used_le h.room
    have hlt : (ds.buffer.push 2 c).used < (ds.buffer.push 2 c).cells.length := by
      have hcap : (ds.buffer.push 2 c).cells.length = (ds.buffer.reserve 2).capacity :=
        GrowArray.capacity_write (ds.buffer.reserve 2) ds.buffer.used c
      have hused : (ds.buffer.push 2 c).used = ds.buffer.used + 1 := rfl
      omega
    exact List.getElem?_set_self hlt

theorem DynString.Holds.foldl (h : ds.Holds bytes)
    (more : List Byte) : (more.foldl dsAppendChar ds).Holds (bytes ++ more) := by
  induction more generalizing ds bytes with
  | nil => simpa using h
  | cons c _ ih => simpa using ih (h.append c)

/-- The C string in the buffer is the stored sequence. Assumes: no byte of it is `NUL`. -/
theorem DynString.Holds.data_eq (h : ds.Holds bytes) (hnul : Byte.nul ∉ bytes) : ds.data = bytes :=
  h.buffer.text_eq h.terminated hnul

/-! ### Tokens -/

inductive TokenType
  | word
  | pipe
  | amp
  | semi
  | lt
  | gt
  | gtgt
deriving DecidableEq, Repr

/-- `Token`. The value of an operator is `NULL`. -/
structure Token where
  type : TokenType
  value : Option (List Byte)
deriving DecidableEq, Repr

/-! ### Scanning -/

/-- Why a scan fails: the code returns `NULL`, it reads past the terminator, or a loop has not
ended. -/
inductive ScanError
  | unterminated
  | overrun
  | stuck
deriving DecidableEq, Repr

/-- A scan returns its result and the position behind what it has consumed. -/
abbrev Scan (α : Type) : Type := Except ScanError (List Byte × α)

/-- The loop of `consume_single_quoted`. -/
def singleQuotedLoop : List Byte → DynString → Scan DynString
  | [], _ => .error .overrun
  | c :: rest, out =>
    if c = Byte.singleQuote then .ok (rest, out)
    else if c = Byte.nul then .error .unterminated
    else singleQuotedLoop rest (dsAppendChar out c)

def consumeSingleQuoted (line : List Byte) (out : DynString) : Scan DynString :=
  singleQuotedLoop line.tail out

/-- The loop of `consume_double_quoted`. -/
def doubleQuotedLoop : List Byte → DynString → Scan DynString
  | [], _ => .error .overrun
  | c :: rest, out =>
    if c = Byte.doubleQuote then .ok (rest, out)
    else if c = Byte.nul then .error .unterminated
    else if c = Byte.backslash then
      match rest with
      | [] => .error .overrun
      | next :: rest =>
        if next = Byte.nul then .error .unterminated
        else if next = Byte.doubleQuote ∨ next = Byte.backslash then
          doubleQuotedLoop rest (dsAppendChar out next)
        else doubleQuotedLoop rest (dsAppendChar (dsAppendChar out Byte.backslash) next)
    else doubleQuotedLoop rest (dsAppendChar out c)

def consumeDoubleQuoted (line : List Byte) (out : DynString) : Scan DynString :=
  doubleQuotedLoop line.tail out

def consumeEscape (line : List Byte) (out : DynString) : Scan DynString :=
  match line.tail with
  | [] => .error .overrun
  | c :: rest =>
    if c = Byte.nul ∨ c = Byte.newline ∨ c = Byte.carriageReturn then .error .unterminated
    else .ok (rest, dsAppendChar out c)

def isBlank (c : Byte) : Bool :=
  c = Byte.space ∨ c = Byte.tab ∨ c = Byte.newline ∨ c = Byte.carriageReturn

def isOperator (c : Byte) : Bool :=
  c = Byte.bar ∨ c = Byte.ampersand ∨ c = Byte.semicolon ∨ c = Byte.less ∨ c = Byte.greater

/-- The loop of `consume_word`. -/
def consumeWordLoop : ℕ → List Byte → DynString → Scan DynString
  | 0, _, _ => .error .stuck
  | _ + 1, [], _ => .error .overrun
  | fuel + 1, c :: rest, ds =>
    if c = Byte.nul ∨ isBlank c ∨ isOperator c then .ok (c :: rest, ds)
    else if c = Byte.singleQuote then
      match consumeSingleQuoted (c :: rest) ds with
      | .error e => .error e
      | .ok (rest, ds) => consumeWordLoop fuel rest ds
    else if c = Byte.doubleQuote then
      match consumeDoubleQuoted (c :: rest) ds with
      | .error e => .error e
      | .ok (rest, ds) => consumeWordLoop fuel rest ds
    else if c = Byte.backslash then
      match consumeEscape (c :: rest) ds with
      | .error e => .error e
      | .ok (rest, ds) => consumeWordLoop fuel rest ds
    else consumeWordLoop fuel rest (dsAppendChar ds c)

def consumeWord (line : List Byte) : Scan (List Byte) :=
  match consumeWordLoop line.length line dsInit with
  | .error e => .error e
  | .ok (rest, ds) => .ok (rest, ds.data)

def consumeOperator (line : List Byte) : Scan TokenType :=
  match line with
  | [] => .error .overrun
  | c :: rest =>
    if c = Byte.greater then
      match rest with
      | [] => .error .overrun
      | next :: rest' =>
        if next = Byte.greater then .ok (rest', .gtgt) else .ok (rest, .gt)
    else if c = Byte.bar then .ok (rest, .pipe)
    else if c = Byte.ampersand then .ok (rest, .amp)
    else if c = Byte.semicolon then .ok (rest, .semi)
    else if c = Byte.less then .ok (rest, .lt)
    else .ok (rest, .word)

/-- The loop of `lexer_tokenize`. -/
def tokenizeLoop : ℕ → List Byte → GrowArray Token → Except ScanError (GrowArray Token)
  | 0, _, _ => .error .stuck
  | _ + 1, [], _ => .error .overrun
  | fuel + 1, c :: rest, tokens =>
    if c = Byte.nul then .ok tokens
    else if isBlank c then tokenizeLoop fuel rest tokens
    else if isOperator c then
      match consumeOperator (c :: rest) with
      | .error e => .error e
      | .ok (rest, type) => tokenizeLoop fuel rest (tokens.push 1 ⟨type, none⟩)
    else
      match consumeWord (c :: rest) with
      | .error e => .error e
      | .ok (rest, word) => tokenizeLoop fuel rest (tokens.push 1 ⟨.word, some word⟩)

/-- `lexer_tokenize`: the tokens of a line, or the failure of the scan. -/
def lexerTokenize (line : List Byte) : Except ScanError (List Token) :=
  let memory := line ++ [Byte.nul]
  match tokenizeLoop memory.length memory (GrowArray.allocate 8) with
  | .error e => .error e
  | .ok tokens => .ok tokens.contents

/-! ### Words carry a value, operators do not -/

theorem ne_word_of_consumeOperator {c : Byte} {type : TokenType} (hc : isOperator c = true)
    (h : consumeOperator (c :: line) = .ok (rest, type)) : type ≠ .word := by
  have hop : c = Byte.bar ∨ c = Byte.ampersand ∨ c = Byte.semicolon ∨ c = Byte.less ∨
      c = Byte.greater := by
    simpa [isOperator] using hc
  rintro rfl
  cases line <;> simp only [consumeOperator] at h <;> grind

theorem notMem_of_consumeWord (h : consumeWord line = .ok (rest, word)) : Byte.nul ∉ word := by
  unfold consumeWord at h
  split at h
  · cases h
  · cases h
    exact GrowArray.notMem_text Byte.nul _

/-- The loop only appends, and every token that it appends is an operator without a value or a word
with one. -/
theorem tokenizeLoop_forall {P : Token → Prop}
    (hoperator : ∀ type : TokenType, type ≠ .word → P ⟨type, none⟩)
    (hword : ∀ word : List Byte, Byte.nul ∉ word → P ⟨.word, some word⟩) {fuel : ℕ}
    {tokens result : GrowArray Token} {read : List Token} (hread : tokens.Holds read)
    (hcapacity : 0 < tokens.capacity) (hloop : tokenizeLoop fuel line tokens = .ok result)
    (hvalue : ∀ t ∈ read, P t) : ∃ all, result.Holds all ∧ ∀ t ∈ all, P t := by
  induction fuel generalizing line tokens read with
  | zero => cases hloop
  | succ fuel ih =>
    -- Each token is one `push`.
    have hpush : ∀ {line : List Byte} (token : Token), P token →
        tokenizeLoop fuel line (tokens.push 1 token) = .ok result →
        ∃ all, result.Holds all ∧ ∀ t ∈ all, P t := by
      intro line token htoken hrest
      refine ih (hread.push token (Nat.succ_pos 0) hcapacity)
        (Nat.lt_of_lt_of_le hcapacity (tokens.capacity_le_push 1 _)) hrest ?_
      intro t ht
      rcases List.mem_append.mp ht with ht | ht
      · exact hvalue t ht
      · rwa [List.mem_singleton.mp ht]
    cases line with
    | nil => cases hloop
    | cons c rest =>
      rw [tokenizeLoop] at hloop
      split_ifs at hloop with hnul hblank hop
      · cases hloop
        exact ⟨read, hread, hvalue⟩
      · exact ih hread hcapacity hloop hvalue
      · split at hloop
        · cases hloop
        · rename_i type hconsume
          exact hpush ⟨type, none⟩ (hoperator type (ne_word_of_consumeOperator hop hconsume)) hloop
      · split at hloop
        · cases hloop
        · rename_i word hconsume
          exact hpush ⟨.word, some word⟩ (hword word (notMem_of_consumeWord hconsume)) hloop

/-- A token as the lexer makes it: words and nothing else carry a value, which is a C string. -/
structure Token.Lexed (t : Token) : Prop where
  word_iff : t.type = .word ↔ t.value ≠ none
  nulFree : ∀ value ∈ t.value, Byte.nul ∉ value

instance (t : Token) : Decidable t.Lexed :=
  decidable_of_iff ((t.type = .word ↔ t.value ≠ none) ∧ ∀ value ∈ t.value, Byte.nul ∉ value)
    ⟨fun h ↦ ⟨h.1, h.2⟩, fun h ↦ ⟨h.word_iff, h.nulFree⟩⟩

variable {tokens : List Token} {t : Token}

theorem lexed_of_lexerTokenize (h : lexerTokenize line = .ok tokens) (ht : t ∈ tokens) :
    t.Lexed := by
  unfold lexerTokenize at h
  dsimp only at h
  split at h
  · cases h
  · rename_i result hloop
    cases h
    obtain ⟨all, hholds, hlexed⟩ := tokenizeLoop_forall (P := Token.Lexed)
      (fun type htype ↦ ⟨by simp [htype], by simp⟩) (fun word hnul ↦ ⟨by simp, by simpa using hnul⟩)
      (GrowArray.holds_allocate 8) (by decide) hloop (nofun)
    rw [hholds.contents_eq] at ht
    exact hlexed t ht

theorem lexerTokenize_words (h : lexerTokenize line = .ok tokens) (ht : t ∈ tokens)
    (htype : t.type = .word) : t.value ≠ none :=
  (lexed_of_lexerTokenize h ht).word_iff.mp htype

end Irish.Shell
