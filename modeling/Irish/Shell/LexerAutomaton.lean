import Irish.Library.Transducer
import Irish.Shell.Lexer

/-!
# The lexer is a one-pass automaton

`lexer_tokenize` spreads its scanning over four functions with a loop each. `lexAutomaton` is the
same scanner as a transducer that looks at one character at a time: plain mode is three states (no
token begun, one `>` read, inside a word), the others are the two kinds of quotes and a backslash
that waits for its character, inside or outside of double quotes. The word that is being read is
part of the state.

Every scanner that appends to a word has the same specification, `Scans`: either it stops in front
of a rest on which the automaton, back in plain mode, does what it does on the whole line, or the
automaton rejects the line.
-/

set_option autoImplicit false

namespace Irish.Shell

open Library

/-! ### The automaton -/

inductive LexState
  | blank
  | greater
  | word (bytes : List Byte)
  | singleQuoted (bytes : List Byte)
  | doubleQuoted (bytes : List Byte)
  | afterBackslash (inDoubleQuotes : Bool) (bytes : List Byte)
deriving DecidableEq, Repr

/-- The operators that are complete with their first character. -/
def singleOperator (c : Byte) : Option TokenType :=
  if c = Byte.bar then some .pipe
  else if c = Byte.ampersand then some .amp
  else if c = Byte.semicolon then some .semi
  else if c = Byte.less then some .lt
  else none

/-- A character that belongs to a word. -/
def wordStep (bytes : List Byte) (c : Byte) : LexState :=
  if c = Byte.singleQuote then .singleQuoted bytes
  else if c = Byte.doubleQuote then .doubleQuoted bytes
  else if c = Byte.backslash then .afterBackslash false bytes
  else .word (bytes ++ [c])

/-- A character behind the complete tokens `done`. -/
def beginStep (done : List Token) (c : Byte) : LexState × List Token :=
  if isBlank c then (.blank, done)
  else if c = Byte.greater then (.greater, done)
  else
    match singleOperator c with
    | some type => (.blank, done ++ [⟨type, none⟩])
    | none => (wordStep [] c, done)

def lexStep : LexState → Byte → Option (LexState × List Token)
  | .blank, c => some (beginStep [] c)
  | .greater, c =>
    if c = Byte.greater then some (.blank, [⟨.gtgt, none⟩]) else some (beginStep [⟨.gt, none⟩] c)
  | .word bytes, c =>
    if isBlank c ∨ isOperator c then some (beginStep [⟨.word, some bytes⟩] c)
    else some (wordStep bytes c, [])
  | .singleQuoted bytes, c =>
    if c = Byte.singleQuote then some (.word bytes, [])
    else some (.singleQuoted (bytes ++ [c]), [])
  | .doubleQuoted bytes, c =>
    if c = Byte.doubleQuote then some (.word bytes, [])
    else if c = Byte.backslash then some (.afterBackslash true bytes, [])
    else some (.doubleQuoted (bytes ++ [c]), [])
  | .afterBackslash true bytes, c =>
    if c = Byte.doubleQuote ∨ c = Byte.backslash then some (.doubleQuoted (bytes ++ [c]), [])
    else some (.doubleQuoted (bytes ++ [Byte.backslash, c]), [])
  | .afterBackslash false bytes, c =>
    if c = Byte.newline ∨ c = Byte.carriageReturn then none
    else some (.word (bytes ++ [c]), [])

/-- The end of the line: it has to be reached in plain mode. -/
def lexFinish : LexState → Option (List Token)
  | .blank => some []
  | .greater => some [⟨.gt, none⟩]
  | .word bytes => some [⟨.word, some bytes⟩]
  | _ => none

def lexAutomaton : Transducer LexState Byte Token := ⟨lexStep, lexFinish⟩

/-- The tokens the automaton emits for a line. -/
def lexLine (line : List Byte) : Option (List Token) := lexAutomaton.output .blank line

variable {state state' : LexState} {c : Byte} {line rest word s t bytes u w : List Byte}
  {ds ds' : DynString} {tokens out read : List Token} {result : Scan DynString} {type : TokenType}
  {scan : List Byte → DynString → Scan DynString} {fuel : ℕ} {token : Token}
  {emitted : Option (List Token)}

theorem output_of_lexStep (h : lexStep state c = some (state', out)) (line : List Byte) :
    lexAutomaton.output state (c :: line) = (lexAutomaton.output state' line).map (out ++ ·) :=
  Transducer.output_of_step h line

theorem output_of_lexStep_nil (h : lexStep state c = some (state', [])) (line : List Byte) :
    lexAutomaton.output state (c :: line) = lexAutomaton.output state' line :=
  Transducer.output_of_silent h line

/-! ### Scanners inside a word -/

/-- The result of a scanner agrees with the automaton on the line it was given. -/
inductive Scans (line : List Byte) (state : LexState) : Scan DynString → Prop
  | ok {rest : List Byte} {ds : DynString} {word : List Byte} :
      rest <:+ line → ds.Holds word → Byte.nul ∉ word →
      lexAutomaton.output state line = lexAutomaton.output (.word word) rest →
      Scans line state (.ok (rest ++ [Byte.nul], ds))
  | error : lexAutomaton.output state line = none → Scans line state (.error .unterminated)

/-- The automaton has come, without putting anything out, to another state and a rest. -/
theorem Scans.of_output (hsuffix : rest <:+ line)
    (houtput : lexAutomaton.output state line = lexAutomaton.output state' rest)
    (h : Scans rest state' result) : Scans line state result := by
  cases h with
  | ok hrest hholds hword heq =>
    exact .ok (hrest.trans hsuffix) hholds hword (houtput.trans heq)
  | error heq => exact .error (houtput.trans heq)

theorem Scans.of_step (state' : LexState) (hstep : lexStep state c = some (state', []))
    (h : Scans line state' result) : Scans (c :: line) state result :=
  h.of_output (List.suffix_cons c line) (output_of_lexStep_nil hstep line)

/-- One scanner behind another. -/
theorem Scans.bind
    (hscan : ∀ {rest : List Byte} {ds : DynString} {word : List Byte}, rest <:+ line →
      ds.Holds word → Byte.nul ∉ word →
      Scans rest (.word word) (scan (rest ++ [Byte.nul]) ds)) :
    Scans line state result → Scans line state (match result with
      | .error e => .error e
      | .ok (rest, ds) => scan rest ds) := by
  intro h
  cases h with
  | error heq => exact .error heq
  | ok hrest hholds hword heq => exact (hscan hrest hholds hword).of_output hrest heq

theorem nul_not_mem_append (h : Byte.nul ∉ bytes) (hc : c ≠ Byte.nul) :
    Byte.nul ∉ bytes ++ [c] := by
  simpa [h] using hc.symm

theorem singleQuotedLoop_scans (hnul : Byte.nul ∉ line) (hds : ds.Holds word)
    (hword : Byte.nul ∉ word) :
    Scans line (.singleQuoted word) (singleQuotedLoop (line ++ [Byte.nul]) ds) := by
  induction line generalizing ds word with
  | nil => exact .error rfl
  | cons c _ ih =>
    obtain ⟨hc, hline⟩ := List.ne_and_not_mem_of_not_mem_cons hnul
    rw [List.cons_append, singleQuotedLoop]
    by_cases hquote : c = Byte.singleQuote
    · rw [if_pos hquote]
      refine .of_step (.word word) (by simp [lexStep, hquote]) ?_
      exact .ok (List.suffix_refl _) hds hword rfl
    · rw [if_neg hquote, if_neg hc.symm]
      refine .of_step (.singleQuoted (word ++ [c])) (by simp [lexStep, hquote]) ?_
      exact ih hline (hds.append c) (nul_not_mem_append hword hc.symm)

theorem doubleQuotedLoop_scans (hnul : Byte.nul ∉ line) (hds : ds.Holds word)
    (hword : Byte.nul ∉ word) :
    Scans line (.doubleQuoted word) (doubleQuotedLoop (line ++ [Byte.nul]) ds) := by
  induction hsize : line.length using Nat.strongRecOn generalizing line ds word with
  | ind _ ih =>
    subst hsize
    cases line with
    | nil =>
      have hend : doubleQuotedLoop ([] ++ [Byte.nul]) ds = .error .unterminated := by
        rw [doubleQuotedLoop.eq_def]
        rfl
      rw [hend]
      exact .error rfl
    | cons c line =>
      obtain ⟨hc, hline⟩ := List.ne_and_not_mem_of_not_mem_cons hnul
      rw [List.cons_append, doubleQuotedLoop.eq_def]
      simp only [if_neg hc.symm]
      split_ifs with hquote hbackslash
      · refine .of_step (.word word) (by simp [lexStep, hquote]) ?_
        exact .ok (List.suffix_refl _) hds hword rfl
      · -- The backslash and its character are read together.
        refine .of_step (.afterBackslash true word)
          (by simp only [lexStep, if_neg hquote, if_pos hbackslash]) ?_
        cases line with
        | nil => exact .error rfl
        | cons next line =>
          obtain ⟨hnext, hline⟩ := List.ne_and_not_mem_of_not_mem_cons hline
          have hshorter : line.length < (c :: next :: line).length :=
            Nat.lt_succ_of_lt (Nat.lt_succ_self _)
          simp only [List.cons_append, if_neg hnext.symm]
          split_ifs with hspecial
          · refine .of_step (.doubleQuoted (word ++ [next])) (by simp [lexStep, hspecial]) ?_
            exact ih _ hshorter hline (hds.append next) (nul_not_mem_append hword hnext.symm) rfl
          · refine .of_step (.doubleQuoted (word ++ [Byte.backslash, next]))
              (by simp [lexStep, hspecial]) ?_
            have hboth := (hds.append Byte.backslash).append next
            rw [List.append_assoc] at hboth
            refine ih _ hshorter hline hboth ?_ rfl
            simp only [List.mem_append, List.mem_cons, not_or]
            exact ⟨hword, by decide, hnext, List.not_mem_nil⟩
      · refine .of_step (.doubleQuoted (word ++ [c])) (by simp [lexStep, hquote, hbackslash]) ?_
        exact ih _ (Nat.lt_succ_self _) hline (hds.append c) (nul_not_mem_append hword hc.symm) rfl

theorem consumeEscape_scans (hnul : Byte.nul ∉ line) (hds : ds.Holds word)
    (hword : Byte.nul ∉ word) :
    Scans line (.afterBackslash false word)
      (consumeEscape (Byte.backslash :: (line ++ [Byte.nul])) ds) := by
  rw [consumeEscape, List.tail_cons]
  cases line with
  | nil => exact .error rfl
  | cons c =>
    obtain ⟨hc, hline⟩ := List.ne_and_not_mem_of_not_mem_cons hnul
    simp only [List.cons_append, hc.symm, false_or]
    split_ifs with hend
    · exact .error (Transducer.output_of_reject (by simp [lexAutomaton, lexStep, hend]) _)
    · refine .of_step (.word (word ++ [c])) (by simp [lexStep, hend]) ?_
      exact .ok (List.suffix_refl _) (hds.append c) (nul_not_mem_append hword hc.symm) rfl

/-- A byte that ends a word. -/
def endsWord (c : Byte) : Prop := c = Byte.nul ∨ isBlank c = true ∨ isOperator c = true

theorem consumeWordLoop_stop (hc : endsWord c) :
    consumeWordLoop (fuel + 1) (c :: rest) ds = .ok (c :: rest, ds) := by
  rw [consumeWordLoop, if_pos]
  simpa [endsWord] using hc

theorem not_endsWord_iff :
    ¬ endsWord c ↔ c ≠ Byte.nul ∧ isBlank c = false ∧ isOperator c = false := by
  simp [endsWord]

/-- A character of a word, inside the word. -/
theorem lexStep_word (hc : ¬ endsWord c) (bytes : List Byte) :
    lexStep (.word bytes) c = some (wordStep bytes c, []) := by
  obtain ⟨-, hblank, hoperator⟩ := not_endsWord_iff.mp hc
  simp [lexStep, hblank, hoperator]

theorem consumeWordLoop_scans (fuel : ℕ) (hnul : Byte.nul ∉ line) (hfuel : line.length < fuel)
    (hds : ds.Holds word) (hword : Byte.nul ∉ word) :
    Scans line (.word word) (consumeWordLoop fuel (line ++ [Byte.nul]) ds) := by
  induction fuel generalizing line ds word with
  | zero => exact absurd hfuel (Nat.not_lt_zero _)
  | succ fuel ih =>
    cases line with
    | nil =>
      rw [List.nil_append, consumeWordLoop_stop (.inl rfl)]
      exact .ok (List.suffix_refl _) hds hword rfl
    | cons c line =>
      obtain ⟨hc, hline⟩ := List.ne_and_not_mem_of_not_mem_cons hnul
      by_cases hends : endsWord c
      · rw [List.cons_append, consumeWordLoop_stop hends]
        exact .ok (List.suffix_refl _) hds hword rfl
      · have hshorter : line.length < fuel := Nat.lt_of_succ_lt_succ hfuel
        have hnext : ∀ {rest : List Byte} {ds : DynString} {word : List Byte},
            rest <:+ line → ds.Holds word → Byte.nul ∉ word →
            Scans rest (.word word) (consumeWordLoop fuel (rest ++ [Byte.nul]) ds) :=
          fun hrest ↦ ih (fun h ↦ hline (hrest.subset h))
            (Nat.lt_of_le_of_lt hrest.length_le hshorter)
        have hinside : ¬ (c = Byte.nul ∨ isBlank c = true ∨ isOperator c = true) := hends
        refine .of_step (wordStep word c) (lexStep_word hends word) ?_
        rw [List.cons_append, consumeWordLoop, if_neg hinside, wordStep]
        split_ifs with hsingle hdouble hbackslash
        · exact .bind hnext (singleQuotedLoop_scans hline hds hword)
        · exact .bind hnext (doubleQuotedLoop_scans hline hds hword)
        · rw [hbackslash]
          exact .bind hnext (consumeEscape_scans hline hds hword)
        · exact hnext (List.suffix_refl _) (hds.append c) (nul_not_mem_append hword hc.symm)

theorem endsWord_of_consumeWordLoop (h : consumeWordLoop fuel line ds = .ok (rest, ds')) :
    ∃ c more, rest = c :: more ∧ endsWord c := by
  induction fuel generalizing line ds with
  | zero => cases h
  | succ _ ih =>
    cases line with
    | nil => cases h
    | cons c line =>
      rw [consumeWordLoop] at h
      split_ifs at h with hends
      · cases h
        exact ⟨c, line, rfl, hends⟩
      · split at h
        · cases h
        · exact ih h
      · split at h
        · cases h
        · exact ih h
      · split at h
        · cases h
        · exact ih h
      · exact ih h

/-! ### The loop over the tokens -/

/-- Behind complete tokens the automaton does what it does at the start, with the tokens put out
first. -/
theorem beginStep_eq (done : List Token) (c : Byte) :
    beginStep done c = ((beginStep [] c).1, done ++ (beginStep [] c).2) := by
  unfold beginStep
  split_ifs
  · simp
  · simp
  · cases singleOperator c <;> simp

theorem output_word_of_ends (h : ∀ c ∈ rest.head?, isBlank c = true ∨ isOperator c = true) :
    lexAutomaton.output (.word bytes) rest =
      (lexAutomaton.output .blank rest).map ([⟨.word, some bytes⟩] ++ ·) := by
  cases rest with
  | nil => rfl
  | cons c rest =>
    refine Transducer.output_of_ahead ?_ rest
    simp only [lexAutomaton, lexStep, if_pos (h c rfl), Option.map_some]
    rw [beginStep_eq]

theorem output_greater_of_ne (h : rest.head? ≠ some Byte.greater) :
    lexAutomaton.output .greater rest =
      (lexAutomaton.output .blank rest).map ([⟨.gt, none⟩] ++ ·) := by
  cases rest with
  | nil => rfl
  | cons c rest =>
    have hc : c ≠ Byte.greater := by simpa using h
    refine Transducer.output_of_ahead ?_ rest
    simp only [lexAutomaton, lexStep, if_neg hc, Option.map_some]
    rw [beginStep_eq]

/-- The result of the loop over the tokens agrees with the automaton: the tokens it emits stand
behind those read before. -/
inductive Tokenizes (read : List Token) : Option (List Token) →
    Except ScanError (GrowArray Token) → Prop
  | ok {emitted : List Token} {tokens : GrowArray Token} :
      tokens.Holds (read ++ emitted) → Tokenizes read (some emitted) (.ok tokens)
  | error : Tokenizes read none (.error .unterminated)

theorem Tokenizes.of_token {result : Except ScanError (GrowArray Token)}
    (h : Tokenizes (read ++ [token]) emitted result) :
    Tokenizes read (emitted.map ([token] ++ ·)) result := by
  cases h with
  | ok hholds =>
    rw [List.append_assoc] at hholds
    exact .ok hholds
  | error => exact .error

theorem singleOperator_eq_none (h : isOperator c = false) : singleOperator c = none := by
  simp [isOperator] at h
  simp [singleOperator, h]

theorem beginStep_word (hc : ¬ endsWord c) : beginStep [] c = (wordStep [] c, []) := by
  obtain ⟨-, hblank, hoperator⟩ := not_endsWord_iff.mp hc
  have hgreater : c ≠ Byte.greater := by
    rintro rfl
    revert hoperator
    decide
  simp [beginStep, hblank, hgreater, singleOperator_eq_none hoperator]

/-- A word from its first character on: it is scanned and put out, or the line is rejected. -/
theorem consumeWord_scans (hc : ¬ endsWord c) (hnul : Byte.nul ∉ c :: line) :
    (consumeWord (c :: line ++ [Byte.nul]) = .error .unterminated ∧
      lexAutomaton.output .blank (c :: line) = none) ∨
    ∃ rest word, rest <:+ line ∧
      consumeWord (c :: line ++ [Byte.nul]) = .ok (rest ++ [Byte.nul], word) ∧
      lexAutomaton.output .blank (c :: line) =
        (lexAutomaton.output .blank rest).map ([⟨.word, some word⟩] ++ ·) := by
  -- On its first character a word is begun as an empty word is continued.
  have hfirst : lexAutomaton.output .blank (c :: line) =
      lexAutomaton.output (.word []) (c :: line) := by
    have hbegin : lexStep .blank c = some (wordStep [] c, []) := congrArg some (beginStep_word hc)
    rw [output_of_lexStep_nil hbegin, output_of_lexStep_nil (lexStep_word hc [])]
  have hscans := consumeWordLoop_scans (c :: line ++ [Byte.nul]).length hnul
    (by simp) holds_dsInit List.not_mem_nil
  rw [consumeWord]
  generalize hresult : consumeWordLoop (c :: line ++ [Byte.nul]).length (c :: line ++ [Byte.nul])
    dsInit = result at hscans ⊢
  cases hscans with
  | error heq => exact .inl ⟨rfl, hfirst.trans heq⟩
  | @ok rest _ word hsuffix hholds hword heq =>
    obtain ⟨d, more, hmore, hd⟩ := endsWord_of_consumeWordLoop hresult
    have hhead : ∀ e ∈ rest.head?, e = d := by
      cases rest with
      | nil => simp
      | cons e rest => simp_all
    refine .inr ⟨rest, word, ?_, by simp only [hholds.data_eq hword], ?_⟩
    · rcases List.suffix_cons_iff.mp hsuffix with rfl | hsuffix
      · exact absurd (hhead c rfl ▸ hd) hc
      · exact hsuffix
    · rw [hfirst, heq]
      refine output_word_of_ends fun e he ↦ ?_
      obtain rfl := hhead e he
      rcases hd with rfl | hd
      · exact absurd (hsuffix.subset (List.mem_of_mem_head? he)) hnul
      · exact hd

/-- An operator: its token is put out and the rest is read from plain mode. -/
theorem consumeOperator_scans (hc : isOperator c = true) (line : List Byte) :
    ∃ rest type, rest <:+ line ∧
      consumeOperator (c :: line ++ [Byte.nul]) = .ok (rest ++ [Byte.nul], type) ∧
      lexAutomaton.output .blank (c :: line) =
        (lexAutomaton.output .blank rest).map ([⟨type, none⟩] ++ ·) := by
  have hop : c = Byte.greater ∨ c = Byte.bar ∨ c = Byte.ampersand ∨ c = Byte.semicolon ∨
      c = Byte.less := by
    simp only [isOperator, decide_eq_true_eq] at hc
    tauto
  rcases hop with rfl | rfl | rfl | rfl | rfl
  · have hgreater : lexAutomaton.output .blank (Byte.greater :: line) =
        lexAutomaton.output .greater line := output_of_lexStep_nil rfl line
    by_cases hnext : line.head? = some Byte.greater
    · obtain ⟨line, rfl⟩ : ∃ more, line = Byte.greater :: more := by
        cases line with
        | nil => cases hnext
        | cons _ line => exact ⟨line, by simpa using hnext⟩
      refine ⟨line, .gtgt, List.suffix_cons _ _, rfl, ?_⟩
      rw [hgreater]
      exact output_of_lexStep rfl line
    · refine ⟨line, .gt, List.suffix_refl _, ?_, hgreater.trans (output_greater_of_ne hnext)⟩
      cases line with
      | nil => rfl
      | cons d =>
        have hd : d ≠ Byte.greater := by simpa using hnext
        simp [consumeOperator, hd]
  · exact ⟨line, .pipe, List.suffix_refl _, rfl, output_of_lexStep rfl line⟩
  · exact ⟨line, .amp, List.suffix_refl _, rfl, output_of_lexStep rfl line⟩
  · exact ⟨line, .semi, List.suffix_refl _, rfl, output_of_lexStep rfl line⟩
  · exact ⟨line, .lt, List.suffix_refl _, rfl, output_of_lexStep rfl line⟩

theorem tokenizeLoop_tokenizes (fuel : ℕ) (hnul : Byte.nul ∉ line) (hfuel : line.length < fuel)
    {tokens : GrowArray Token} (hread : tokens.Holds read) (hcapacity : 0 < tokens.capacity) :
    Tokenizes read (lexAutomaton.output .blank line)
      (tokenizeLoop fuel (line ++ [Byte.nul]) tokens) := by
  induction fuel generalizing line tokens read with
  | zero => exact absurd hfuel (Nat.not_lt_zero _)
  | succ fuel ih =>
    cases line with
    | nil =>
      rw [List.nil_append, tokenizeLoop, if_pos rfl]
      exact .ok (by simpa using hread)
    | cons c line =>
      obtain ⟨hc, hline⟩ := List.ne_and_not_mem_of_not_mem_cons hnul
      -- A token has been read: it is pushed and the loop goes on.
      have htoken : ∀ {rest : List Byte} (token : Token), rest <:+ line →
          Tokenizes read ((lexAutomaton.output .blank rest).map ([token] ++ ·))
            (tokenizeLoop fuel (rest ++ [Byte.nul]) (tokens.push 1 token)) := by
        intro rest token hsuffix
        refine .of_token (ih (fun h ↦ hline (hsuffix.subset h)) ?_
          (hread.push token (Nat.succ_pos 0) hcapacity) ?_)
        · exact Nat.lt_of_le_of_lt hsuffix.length_le (Nat.lt_of_succ_lt_succ hfuel)
        · exact Nat.lt_of_lt_of_le hcapacity (tokens.capacity_le_push 1 token)
      rw [List.cons_append, tokenizeLoop, if_neg hc.symm]
      by_cases hblank : isBlank c = true
      · have hbegin : lexStep .blank c = some (.blank, []) := by
          simp [lexStep, beginStep, hblank]
        rw [if_pos hblank, output_of_lexStep_nil hbegin]
        exact ih hline (Nat.lt_of_succ_lt_succ hfuel) hread hcapacity
      · rw [if_neg hblank]
        by_cases hoperator : isOperator c = true
        · obtain ⟨rest, type, hsuffix, hscan, houtput⟩ := consumeOperator_scans hoperator line
          rw [if_pos hoperator, houtput, ← List.cons_append, hscan]
          exact htoken ⟨type, none⟩ hsuffix
        · have hword : ¬ endsWord c := by
            rw [not_endsWord_iff]
            exact ⟨hc.symm, by simpa using hblank, by simpa using hoperator⟩
          rw [if_neg hoperator, ← List.cons_append]
          rcases consumeWord_scans hword hnul with ⟨hscan, houtput⟩ | ⟨rest, word, hsuffix, hscan,
            houtput⟩
          · rw [hscan, houtput]
            exact .error
          · rw [hscan, houtput]
            exact htoken ⟨.word, some word⟩ hsuffix

theorem lexerTokenize_tokenizes (hnul : Byte.nul ∉ line) :
    (lexLine line = none → lexerTokenize line = .error .unterminated) ∧
    ∀ tokens, lexLine line = some tokens → lexerTokenize line = .ok tokens := by
  have htokens := tokenizeLoop_tokenizes (line ++ [Byte.nul]).length hnul (by simp)
    (GrowArray.holds_allocate 8) (by decide)
  rw [lexLine, lexerTokenize]
  generalize tokenizeLoop _ _ _ = result at htokens ⊢
  generalize lexAutomaton.output .blank line = emitted at htokens ⊢
  cases htokens with
  | error => exact ⟨fun _ ↦ rfl, by simp⟩
  | ok hholds =>
    refine ⟨by simp, fun tokens h ↦ ?_⟩
    cases h
    exact congrArg Except.ok hholds.contents_eq

/-- The lexer accepts the lines the automaton accepts, with the tokens the automaton emits; on every
other line it returns `NULL`. -/
theorem lexerTokenize_eq_lexLine {line : List Byte} (hnul : Byte.nul ∉ line) :
    lexerTokenize line = match lexLine line with
      | none => .error .unterminated
      | some tokens => .ok tokens := by
  cases h : lexLine line with
  | none => exact (lexerTokenize_tokenizes hnul).1 h
  | some => exact (lexerTokenize_tokenizes hnul).2 _ h

/-- `a'b c'>>"\x"`: quotes and an operator inside one run of characters. -/
def gluedLine : List Byte := [97, 39, 98, 32, 99, 39, 62, 62, 34, 92, 120, 34]

theorem lexerTokenize_gluedLine :
    lexerTokenize gluedLine =
      .ok [⟨.word, some [97, 98, 32, 99]⟩, ⟨.gtgt, none⟩, ⟨.word, some [92, 120]⟩] ∧
    lexerTokenize (gluedLine ++ [Byte.backslash]) = .error .unterminated := by
  have hglued : Byte.nul ∉ gluedLine := by decide
  have hopen : Byte.nul ∉ gluedLine ++ [Byte.backslash] := by decide
  exact ⟨(lexerTokenize_eq_lexLine hglued).trans (by decide),
    (lexerTokenize_eq_lexLine hopen).trans (by decide)⟩

/-! ### Concatenation

Behind an accepted line the automaton is in plain mode, and what it has not put out yet is what it
would put out at the end. A blank or an operator brings it there just as the end does, except that a
`>` completes a `>` before it. -/

theorem lexStep_greater (h : lexStep state c = some (.greater, out)) : c = Byte.greater := by
  have hword : ∀ bytes, wordStep bytes c ≠ .greater := by
    intro bytes
    unfold wordStep
    split_ifs <;> simp
  have hbegin : ∀ done, beginStep done c = (.greater, out) → c = Byte.greater := by
    intro done hdone
    unfold beginStep at hdone
    split_ifs at hdone with hblank hgreater
    · cases hdone
    · exact hgreater
    · split at hdone
      · cases hdone
      · exact absurd (congrArg Prod.fst hdone) (hword [])
  cases state with
  | blank => exact hbegin [] (Option.some.inj h)
  | greater =>
    simp only [lexStep] at h
    split_ifs at h with hgreater
    · exact hgreater
    · exact hbegin _ (Option.some.inj h)
  | word bytes =>
    simp only [lexStep] at h
    split_ifs at h
    · exact hbegin _ (Option.some.inj h)
    · exact absurd (congrArg Prod.fst (Option.some.inj h)) (hword bytes)
  | singleQuoted | doubleQuoted =>
    simp only [lexStep] at h
    split_ifs at h <;> cases h
  | afterBackslash inDoubleQuotes =>
    cases inDoubleQuotes <;> simp only [lexStep] at h <;> split_ifs at h <;> cases h

/-- A half-read `>>` is at the end of the line. -/
theorem getLast?_of_run_greater (h : lexAutomaton.run state line = some (.greater, out))
    (hne : line ≠ []) : line.getLast? = some Byte.greater := by
  induction line generalizing state out with
  | nil => exact absurd rfl hne
  | cons _ line ih =>
    rw [Transducer.run] at h
    obtain ⟨next, hstep, hrest⟩ := Option.bind_eq_some_iff.mp h
    obtain ⟨last, hlast, heq⟩ := Option.map_eq_some_iff.mp hrest
    obtain ⟨hstate, -⟩ := Prod.mk.inj heq
    cases line with
    | nil =>
      cases hlast
      rw [lexStep_greater (hstep.trans (congrArg some (Prod.ext hstate rfl)))]
      rfl
    | cons d line =>
      rw [List.getLast?_cons_cons]
      exact ih (hlast.trans (congrArg some (Prod.ext hstate rfl))) (List.cons_ne_nil _ _)

theorem lexLine_append_of_ends (hs : lexLine s = some tokens)
    (hu : ∀ c ∈ u.head?, isBlank c = true ∨ isOperator c = true)
    (hgreater : u.head? = some Byte.greater → s.getLast? ≠ some Byte.greater) :
    lexLine (s ++ u) = (lexLine u).map (tokens ++ ·) := by
  obtain ⟨last, front, back, hrun, hfinish, rfl⟩ := Transducer.exists_run_of_output hs
  have hlast : lexAutomaton.output last u = (lexAutomaton.output .blank u).map (back ++ ·) := by
    cases last with
    | blank =>
      cases hfinish
      simp
    | greater =>
      cases hfinish
      refine output_greater_of_ne fun hhead ↦ hgreater hhead ?_
      refine getLast?_of_run_greater hrun ?_
      rintro rfl
      cases hrun
    | word bytes =>
      cases hfinish
      exact output_word_of_ends hu
    | _ => cases hfinish
  rw [lexLine, Transducer.output_append, hrun, Option.bind_some, hlast, lexLine, Option.map_map]
  simp [Function.comp_def]

/-- The text of an operator. -/
def Item.operatorText : TokenType → List Byte
  | .word => []
  | .pipe => [Byte.bar]
  | .amp => [Byte.ampersand]
  | .semi => [Byte.semicolon]
  | .lt => [Byte.less]
  | .gt => [Byte.greater]
  | .gtgt => [Byte.greater, Byte.greater]

theorem exists_operator_head (htype : type ≠ .word) :
    ∃ c more, Item.operatorText type = c :: more ∧ isOperator c = true := by
  cases type with
  | word => exact absurd rfl htype
  | _ => exact ⟨_, _, rfl, by decide⟩

theorem isBlank_ne_nul (h : isBlank c = true) : c ≠ Byte.nul := by
  rintro rfl
  revert h
  decide

theorem lexLine_blanks (hw : ∀ c ∈ w, isBlank c = true) (t : List Byte) :
    lexLine (w ++ t) = lexLine t := by
  induction w with
  | nil => rfl
  | cons c w ih =>
    have hc := hw c List.mem_cons_self
    have hbegin : lexStep .blank c = some (.blank, []) := by simp [lexStep, beginStep, hc]
    rw [← ih fun d hd ↦ hw d (List.mem_cons_of_mem _ hd)]
    exact output_of_lexStep_nil hbegin (w ++ t)

theorem lexLine_operator (htype : type ≠ .word) (ht : type = .gt → t.head? ≠ some Byte.greater) :
    lexLine (Item.operatorText type ++ t) = (lexLine t).map ([⟨type, none⟩] ++ ·) := by
  cases type with
  | word => exact absurd rfl htype
  | gt => exact (output_of_lexStep_nil rfl t).trans (output_greater_of_ne (ht rfl))
  | gtgt => exact (output_of_lexStep_nil rfl (Byte.greater :: t)).trans (output_of_lexStep rfl t)
  | _ => exact output_of_lexStep rfl t

theorem lexLine_of_lexerTokenize (hnul : Byte.nul ∉ line)
    (h : lexerTokenize line = .ok tokens) : lexLine line = some tokens := by
  cases hline : lexLine line with
  | none =>
    rw [(lexerTokenize_tokenizes hnul).1 hline] at h
    cases h
  | some =>
    rw [(lexerTokenize_tokenizes hnul).2 _ hline] at h
    rw [Except.ok.inj h]

theorem nul_not_mem_operatorText (type : TokenType) : Byte.nul ∉ Item.operatorText type := by
  cases type <;> decide

theorem head?_operatorText
    (h : (Item.operatorText type).head? = some Byte.greater) : type = .gt ∨ type = .gtgt := by
  cases type <;> revert h <;> decide

theorem lexLine_join_blanks (hs : lexLine s = some tokens) (hne : w ≠ [])
    (hw : ∀ c ∈ w, isBlank c = true) : lexLine (s ++ w ++ t) = (lexLine t).map (tokens ++ ·) := by
  obtain ⟨c, more, rfl⟩ := List.exists_cons_of_ne_nil hne
  have hc := hw c List.mem_cons_self
  have hends : ∀ d ∈ (c :: more ++ t).head?, isBlank d = true ∨ isOperator d = true := by
    simpa using .inl hc
  have hcut : (c :: more ++ t).head? = some Byte.greater → s.getLast? ≠ some Byte.greater := by
    intro h
    obtain rfl : c = Byte.greater := by simpa using h
    exact absurd hc (by decide)
  rw [List.append_assoc, lexLine_append_of_ends hs hends hcut, lexLine_blanks hw]

theorem lexLine_join_operator (hs : lexLine s = some tokens) (htype : type ≠ .word)
    (hlast : type = .gt ∨ type = .gtgt → s.getLast? ≠ some Byte.greater)
    (hhead : type = .gt → t.head? ≠ some Byte.greater) :
    lexLine (s ++ Item.operatorText type ++ t) =
      (lexLine t).map (tokens ++ [⟨type, none⟩] ++ ·) := by
  obtain ⟨c, more, htext, hc⟩ := exists_operator_head htype
  have hends : ∀ d ∈ (Item.operatorText type ++ t).head?,
      isBlank d = true ∨ isOperator d = true := by
    rw [htext]
    simpa using .inr hc
  have hcut : (Item.operatorText type ++ t).head? = some Byte.greater →
      s.getLast? ≠ some Byte.greater := by
    intro h
    refine hlast (head?_operatorText ?_)
    rw [htext] at h ⊢
    exact h
  rw [List.append_assoc, lexLine_append_of_ends hs hends hcut, lexLine_operator htype hhead,
    Option.map_map]
  simp [Function.comp_def]

/-- Lexing is compositional: accepted lines can be joined by blanks or by an operator, and the
tokens are those of the parts. -/
theorem lexerTokenize_append {s t : List Byte} (hs : Byte.nul ∉ s) (ht : Byte.nul ∉ t)
    {tokens tokens' : List Token} (htokens : lexerTokenize s = .ok tokens)
    (htokens' : lexerTokenize t = .ok tokens') :
    (∀ w : List Byte, w ≠ [] → (∀ c ∈ w, isBlank c = true) →
      lexerTokenize (s ++ w ++ t) = .ok (tokens ++ tokens')) ∧
    ∀ type : TokenType, type ≠ .word →
      (type = .gt ∨ type = .gtgt → s.getLast? ≠ some Byte.greater) →
      (type = .gt → t.head? ≠ some Byte.greater) →
      lexerTokenize (s ++ Item.operatorText type ++ t) =
        .ok (tokens ++ [⟨type, none⟩] ++ tokens') := by
  have hline := lexLine_of_lexerTokenize hs htokens
  have hline' := lexLine_of_lexerTokenize ht htokens'
  refine ⟨fun w hne hw ↦ ?_, fun type htype hlast hhead ↦ ?_⟩
  · have hnul : Byte.nul ∉ s ++ w ++ t := by
      simp only [List.mem_append, not_or]
      exact ⟨⟨hs, fun h ↦ isBlank_ne_nul (hw _ h) rfl⟩, ht⟩
    refine (lexerTokenize_tokenizes hnul).2 _ ?_
    rw [lexLine_join_blanks hline hne hw, hline', Option.map_some]
  · have hnul : Byte.nul ∉ s ++ Item.operatorText type ++ t := by
      simp only [List.mem_append, not_or]
      exact ⟨⟨hs, nul_not_mem_operatorText type⟩, ht⟩
    refine (lexerTokenize_tokenizes hnul).2 _ ?_
    rw [lexLine_join_operator hline htype hlast hhead, hline', Option.map_some]

/-- `a>` and `>b` joined by a blank, and `a` and `b` joined by `>>`. -/
theorem lexerTokenize_joined :
    lexerTokenize [97, 62, 32, 62, 98] =
      .ok [⟨.word, some [97]⟩, ⟨.gt, none⟩, ⟨.gt, none⟩, ⟨.word, some [98]⟩] ∧
    lexerTokenize [97, 62, 62, 98] =
      .ok [⟨.word, some [97]⟩, ⟨.gtgt, none⟩, ⟨.word, some [98]⟩] := by
  have hopen : lexerTokenize [97, 62] = .ok [⟨.word, some [97]⟩, ⟨.gt, none⟩] := by decide +kernel
  have hopen' : lexerTokenize [62, 98] = .ok [⟨.gt, none⟩, ⟨.word, some [98]⟩] := by decide +kernel
  have hword : lexerTokenize [97] = .ok [⟨.word, some [97]⟩] := by decide +kernel
  have hword' : lexerTokenize [98] = .ok [⟨.word, some [98]⟩] := by decide +kernel
  have hblank := (lexerTokenize_append (by decide) (by decide) hopen hopen').1
  have hoperator := (lexerTokenize_append (by decide) (by decide) hword hword').2
  exact ⟨hblank [32] (by decide) (List.forall_mem_singleton.mpr rfl),
    hoperator .gtgt (by decide) (by decide) (by decide)⟩

end Irish.Shell
