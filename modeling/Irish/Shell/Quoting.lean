import Irish.Shell.LexerAutomaton

/-!
# The lexer inverts quoting

A word can be written in many ways: as any concatenation of pieces, each of them in single quotes,
in double quotes or with a backslash before every character. `renderLine` writes a list of tokens in
any of these ways, with any blanks between them, and the lexer gives the tokens back. The lexer is
`lexAutomaton`, so each kind of piece has one lemma here, about the way of the automaton through
its text.
-/

set_option autoImplicit false

namespace Irish.Shell

open Library

/-! ### Writing tokens -/

/-- A part of a word in one of the three quoting modes. -/
inductive Piece
  | single (bytes : List Byte)
  | double (bytes : List Byte)
  | escaped (bytes : List Byte)
deriving DecidableEq, Repr

namespace Piece

def value : Piece → List Byte
  | .single bytes => bytes
  | .double bytes => bytes
  | .escaped bytes => bytes

def isQuoted : Piece → Bool
  | .escaped _ => false
  | _ => true

/-- Inside double quotes a backslash stands before every backslash and every double quote. -/
def protect (c : Byte) : List Byte :=
  if c = Byte.backslash ∨ c = Byte.doubleQuote then [Byte.backslash, c] else [c]

def render : Piece → List Byte
  | .single bytes => Byte.singleQuote :: (bytes ++ [Byte.singleQuote])
  | .double bytes => Byte.doubleQuote :: (bytes.flatMap protect ++ [Byte.doubleQuote])
  | .escaped bytes => bytes.flatMap fun c ↦ [Byte.backslash, c]

/-- The bytes that a mode can write. -/
def Allowed : Piece → Prop
  | .single bytes => Byte.nul ∉ bytes ∧ Byte.singleQuote ∉ bytes
  | .double bytes => Byte.nul ∉ bytes
  | .escaped bytes => Byte.nul ∉ bytes ∧ Byte.newline ∉ bytes ∧ Byte.carriageReturn ∉ bytes

instance : (p : Piece) → Decidable p.Allowed
  | .single bytes => inferInstanceAs (Decidable (Byte.nul ∉ bytes ∧ Byte.singleQuote ∉ bytes))
  | .double bytes => inferInstanceAs (Decidable (Byte.nul ∉ bytes))
  | .escaped bytes => inferInstanceAs (Decidable
      (Byte.nul ∉ bytes ∧ Byte.newline ∉ bytes ∧ Byte.carriageReturn ∉ bytes))

end Piece

/-- A token as it is written. -/
inductive Item
  | operator (type : TokenType)
  | word (pieces : List Piece)
deriving DecidableEq, Repr

namespace Item

def render : Item → List Byte
  | .operator type => operatorText type
  | .word pieces => pieces.flatMap Piece.render

def token : Item → Token
  | .operator type => ⟨type, none⟩
  | .word pieces => ⟨.word, some (pieces.flatMap Piece.value)⟩

/-- Every piece is in a mode that can write it, and an empty word has a quoted piece. -/
def Allowed : Item → Prop
  | .operator type => type ≠ .word
  | .word pieces => (∀ p ∈ pieces, p.Allowed) ∧
      (pieces.flatMap Piece.value = [] → ∃ p ∈ pieces, p.isQuoted = true)

instance : (item : Item) → Decidable item.Allowed
  | .operator type => inferInstanceAs (Decidable (type ≠ .word))
  | .word pieces => inferInstanceAs (Decidable ((∀ p ∈ pieces, p.Allowed) ∧
      (pieces.flatMap Piece.value = [] → ∃ p ∈ pieces, p.isQuoted = true)))

end Item

/-- A line: the blanks before each token and the token, and blanks at the end. -/
def renderLine (items : List (List Byte × Item)) (trailing : List Byte) : List Byte :=
  (items.flatMap fun x ↦ x.1 ++ x.2.render) ++ trailing

/-- Only blanks between the tokens, and at least one of them between any two. -/
def Separated (items : List (List Byte × Item)) : Prop :=
  (∀ x ∈ items, ∀ c ∈ x.1, isBlank c = true) ∧ ∀ x ∈ items.tail, x.1 ≠ []

instance (items : List (List Byte × Item)) : Decidable (Separated items) :=
  inferInstanceAs (Decidable (_ ∧ _))

/-! ### The automaton on a word -/

variable {bytes rest word trailing : List Byte} {c : Byte} {p : Piece} {pieces : List Piece}
  {item : Item} {items : List (List Byte × Item)}

theorem output_singleQuoted (hquote : Byte.singleQuote ∉ bytes) :
    lexAutomaton.output (.singleQuoted word) (bytes ++ Byte.singleQuote :: rest) =
      lexAutomaton.output (.word (word ++ bytes)) rest := by
  induction bytes generalizing word with
  | nil =>
    rw [List.append_nil]
    exact output_of_lexStep_nil (by simp [lexStep]) rest
  | cons c bytes ih =>
    obtain ⟨hc, hquote⟩ := List.ne_and_not_mem_of_not_mem_cons hquote
    have hstep : lexStep (.singleQuoted word) c = some (.singleQuoted (word ++ [c]), []) := by
      simp [lexStep, hc.symm]
    rw [List.cons_append, output_of_lexStep_nil hstep, ih hquote, List.append_assoc,
      List.singleton_append]

theorem output_doubleQuoted :
    lexAutomaton.output (.doubleQuoted word)
        (bytes.flatMap Piece.protect ++ Byte.doubleQuote :: rest) =
      lexAutomaton.output (.word (word ++ bytes)) rest := by
  induction bytes generalizing word with
  | nil =>
    rw [List.append_nil]
    exact output_of_lexStep_nil (by simp [lexStep]) rest
  | cons c bytes ih =>
    rw [List.flatMap_cons, ← List.singleton_append (l := bytes), ← List.append_assoc word, ← ih,
      List.append_assoc, Piece.protect]
    split_ifs with hspecial
    · -- A protected character: the backslash is dropped.
      have hprotect : lexStep (.doubleQuoted word) Byte.backslash =
          some (.afterBackslash true word, []) := rfl
      exact (output_of_lexStep_nil hprotect _).trans
        (output_of_lexStep_nil (by simp [lexStep, hspecial.symm]) _)
    · rw [not_or] at hspecial
      exact output_of_lexStep_nil (by simp [lexStep, hspecial]) _

theorem output_escaped (hnewline : Byte.newline ∉ bytes) (hreturn : Byte.carriageReturn ∉ bytes) :
    lexAutomaton.output (.word word) (bytes.flatMap (fun c ↦ [Byte.backslash, c]) ++ rest) =
      lexAutomaton.output (.word (word ++ bytes)) rest := by
  induction bytes generalizing word with
  | nil => simp
  | cons c bytes ih =>
    obtain ⟨hn, hnewline⟩ := List.ne_and_not_mem_of_not_mem_cons hnewline
    obtain ⟨hr, hreturn⟩ := List.ne_and_not_mem_of_not_mem_cons hreturn
    rw [List.flatMap_cons, ← List.singleton_append (l := bytes), ← List.append_assoc word,
      ← ih hnewline hreturn]
    have hstep : lexStep (.word word) Byte.backslash = some (.afterBackslash false word, []) := rfl
    exact (output_of_lexStep_nil hstep _).trans
      (output_of_lexStep_nil (by simp [lexStep, hn.symm, hr.symm]) _)

/-- The text of a piece adds its value to the word. -/
theorem output_piece (hp : p.Allowed) :
    lexAutomaton.output (.word word) (p.render ++ rest) =
      lexAutomaton.output (.word (word ++ p.value)) rest := by
  cases p with
  | single bytes =>
    rw [Piece.render, List.cons_append, List.append_assoc]
    exact (output_of_lexStep_nil rfl _).trans (output_singleQuoted hp.2)
  | double bytes =>
    rw [Piece.render, List.cons_append, List.append_assoc]
    exact (output_of_lexStep_nil rfl _).trans output_doubleQuoted
  | escaped bytes => exact output_escaped hp.2.1 hp.2.2

theorem output_pieces (hpieces : ∀ p ∈ pieces, p.Allowed) :
    lexAutomaton.output (.word word) (pieces.flatMap Piece.render ++ rest) =
      lexAutomaton.output (.word (word ++ pieces.flatMap Piece.value)) rest := by
  induction pieces generalizing word with
  | nil => simp
  | cons p pieces ih =>
    obtain ⟨hp, hpieces⟩ := List.forall_mem_cons.mp hpieces
    rw [List.flatMap_cons, List.append_assoc, output_piece hp, ih hpieces, List.flatMap_cons,
      List.append_assoc]

/-! ### The line -/

/-- The text of an allowed word is not empty, and it does not start like a blank, an operator or the
end of the line. -/
theorem exists_head_of_allowed (h : (Item.word pieces).Allowed) :
    ∃ c more, pieces.flatMap Piece.render = c :: more ∧ ¬ endsWord c := by
  obtain ⟨-, hempty⟩ := h
  induction pieces with
  | nil =>
    obtain ⟨p, hp, -⟩ := hempty rfl
    simp at hp
  | cons p _ ih =>
    have hdecide : ¬ endsWord Byte.singleQuote ∧ ¬ endsWord Byte.doubleQuote ∧
        ¬ endsWord Byte.backslash := by
      unfold endsWord
      decide
    cases p with
    | single bytes => exact ⟨Byte.singleQuote, _, rfl, hdecide.1⟩
    | double bytes => exact ⟨Byte.doubleQuote, _, rfl, hdecide.2.1⟩
    | escaped bytes =>
      cases bytes with
      | nil =>
        -- A piece without text does not count.
        refine ih fun hvalue ↦ ?_
        obtain ⟨q, hq, hquoted⟩ := hempty hvalue
        rcases List.mem_cons.mp hq with rfl | hq
        · cases hquoted
        · exact ⟨q, hq, hquoted⟩
      | cons c bytes => exact ⟨Byte.backslash, _, rfl, hdecide.2.2⟩

/-- One token, followed by a blank or the end of the line. -/
theorem lexLine_item (hitem : item.Allowed) (hrest : ∀ c ∈ rest.head?, isBlank c = true) :
    lexLine (item.render ++ rest) = (lexLine rest).map ([item.token] ++ ·) := by
  cases item with
  | operator =>
    refine lexLine_operator hitem fun _ hgreater ↦ ?_
    exact absurd (hrest _ hgreater) (by decide)
  | word pieces =>
    obtain ⟨c, more, htext, hc⟩ := exists_head_of_allowed hitem
    have hblank : lexStep .blank c = some (wordStep [] c, []) := congrArg some (beginStep_word hc)
    have hbegin : lexLine (pieces.flatMap Piece.render ++ rest) =
        lexAutomaton.output (.word []) (pieces.flatMap Piece.render ++ rest) := by
      rw [htext, List.cons_append, output_of_lexStep_nil (lexStep_word hc [])]
      exact output_of_lexStep_nil hblank _
    rw [Item.render, hbegin, output_pieces hitem.1, List.nil_append]
    exact output_word_of_ends fun c hmem ↦ .inl (hrest c hmem)

theorem lexLine_renderLine (hitems : ∀ x ∈ items, x.2.Allowed) (hsep : Separated items)
    (htrailing : ∀ c ∈ trailing, isBlank c = true) :
    lexLine (renderLine items trailing) = some (items.map fun x ↦ x.2.token) := by
  induction items with
  | nil =>
    rw [renderLine, List.flatMap_nil, List.nil_append, ← List.append_nil trailing,
      lexLine_blanks htrailing]
    rfl
  | cons x items ih =>
    obtain ⟨hblanks, hgaps⟩ := hsep
    obtain ⟨hx, hitems⟩ := List.forall_mem_cons.mp hitems
    obtain ⟨hgap, hblanks⟩ := List.forall_mem_cons.mp hblanks
    -- What follows the token starts with a blank of the next gap or is the end of the line.
    have hhead : ∀ c ∈ (renderLine items trailing).head?, isBlank c = true := by
      cases items with
      | nil => exact fun c hc ↦ htrailing c (List.mem_of_mem_head? hc)
      | cons y items =>
        obtain ⟨c, gap, hy⟩ := List.exists_cons_of_ne_nil (hgaps y List.mem_cons_self)
        have hc := hblanks y List.mem_cons_self c (hy ▸ List.mem_cons_self)
        simpa [renderLine, hy] using hc
    have hline : renderLine (x :: items) trailing =
        x.1 ++ (x.2.render ++ renderLine items trailing) := by
      simp [renderLine]
    rw [hline, lexLine_blanks hgap, lexLine_item hx hhead,
      ih hitems ⟨hblanks, fun y hy ↦ hgaps y (List.mem_of_mem_tail hy)⟩]
    rfl

theorem nul_not_mem_piece (hp : p.Allowed) : Byte.nul ∉ p.render := by
  cases p with
  | single bytes => simpa [Piece.render, hp.1] using (by decide : Byte.nul ≠ Byte.singleQuote)
  | double bytes =>
    have hne : Byte.nul ≠ Byte.doubleQuote ∧ Byte.nul ≠ Byte.backslash := by decide
    simp only [Piece.render, Piece.protect, List.mem_cons, List.mem_append, List.mem_flatMap,
      List.not_mem_nil, hne, or_false, false_or]
    rintro ⟨c, hc, hmem⟩
    split_ifs at hmem <;> simp [hne] at hmem <;> exact hp (hmem ▸ hc)
  | escaped bytes =>
    have hne : Byte.nul ≠ Byte.backslash := by decide
    simp only [Piece.render, List.mem_flatMap, List.mem_cons, List.not_mem_nil, hne, or_false,
      false_or]
    rintro ⟨c, hc, rfl⟩
    exact hp.1 hc

theorem nul_not_mem_renderLine (hitems : ∀ x ∈ items, x.2.Allowed) (hsep : Separated items)
    (htrailing : ∀ c ∈ trailing, isBlank c = true) : Byte.nul ∉ renderLine items trailing := by
  rw [renderLine, List.mem_append, List.mem_flatMap]
  rintro (⟨⟨gap, item⟩, hx, hmem⟩ | hmem)
  · rcases List.mem_append.mp hmem with hmem | hmem
    · exact isBlank_ne_nul (hsep.1 _ hx _ hmem) rfl
    · have hitem := hitems _ hx
      cases item with
      | operator type => exact nul_not_mem_operatorText type hmem
      | word pieces =>
        obtain ⟨p, hp, hmem⟩ := List.mem_flatMap.mp hmem
        exact nul_not_mem_piece (hitem.1 p hp) hmem
  · exact isBlank_ne_nul (htrailing _ hmem) rfl

/-- The lexer inverts quoting: however the words of a list of tokens are written, the lexer gives
the tokens back. -/
theorem lexerTokenize_renderLine {items : List (List Byte × Item)} {trailing : List Byte}
    (hitems : ∀ x ∈ items, x.2.Allowed) (hsep : Separated items)
    (htrailing : ∀ c ∈ trailing, isBlank c = true) :
    lexerTokenize (renderLine items trailing) = .ok (items.map fun x ↦ x.2.token) := by
  exact (lexerTokenize_tokenizes (nul_not_mem_renderLine hitems hsep htrailing)).2 _
    (lexLine_renderLine hitems hsep htrailing)

/-- Three modes in one word, an operator that is two bytes long, and an empty word. -/
theorem lexerTokenize_three_modes :
    lexerTokenize (renderLine
      [([], .word [.single [97, 32, 34], .double [39, 92], .escaped [124, 98]]),
        ([Byte.tab], .operator .gtgt), ([Byte.space], .word [.escaped [], .single []])]
      [Byte.newline]) =
    .ok [⟨.word, some [97, 32, 34, 39, 92, 124, 98]⟩, ⟨.gtgt, none⟩, ⟨.word, some []⟩] :=
  lexerTokenize_renderLine (by decide +kernel) (by decide +kernel) (by decide +kernel)

end Irish.Shell
