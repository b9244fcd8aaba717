import Irish.Shell.Lexer

/-!
# The parser of the shell

`src/parser.c`: an automaton over the types of the tokens. Besides the automaton, this module says
how a run of it splits: at a separator it is in `ARG`, and behind a separator it behaves as at the
start of a line as long as there is a token left (`parserRun_start`). So every part of an accepted
line between two separators is itself a run from the start of a line to `ARG`.
-/

set_option autoImplicit false

namespace Irish.Shell

/-- `ParserState`. -/
inductive ParserState
  | line
  | arg
  | needWord
  | bg
deriving DecidableEq, Repr

/-- One turn of the loop of `parser_validate`; `none` is its `return 0`. -/
def parserStep : ParserState → TokenType → Option ParserState
  | .line, .word => some .arg
  | .line, _ => none
  | .arg, .word => some .arg
  | .arg, .lt => some .needWord
  | .arg, .gt => some .needWord
  | .arg, .gtgt => some .needWord
  | .arg, .pipe => some .needWord
  | .arg, .semi => some .needWord
  | .arg, .amp => some .bg
  | .needWord, .word => some .arg
  | .needWord, _ => none
  | .bg, .word => some .arg
  | .bg, _ => none

def parserRun : ParserState → List Token → Option ParserState
  | state, [] => some state
  | state, t :: tokens =>
    match parserStep state t.type with
    | none => none
    | some state => parserRun state tokens

/-- `parser_validate`. -/
def parserValidate (tokens : List Token) : Bool :=
  match parserRun .line tokens with
  | some .line => true
  | some .arg => true
  | some .bg => true
  | _ => false

/-! ### Runs of the automaton -/

theorem parserRun_append (state : ParserState) (a b : List Token) :
    parserRun state (a ++ b) = (parserRun state a).bind fun s ↦ parserRun s b := by
  induction a generalizing state with
  | nil => rfl
  | cons t _ ih =>
    simp only [List.cons_append, parserRun]
    cases parserStep state t.type with
    | none => rfl
    | some s => exact ih s

variable {state final next : ParserState} {tokens a b group : List Token} {t : TokenType} {i : ℕ}

/-- Whatever the automaton has read, it needs a word before anything else if it is not in `ARG`. -/
theorem parserStep_of_ne_arg (h : state ≠ .arg) (t : TokenType) :
    parserStep state t = parserStep .line t := by
  cases state <;> cases t <;> first | rfl | exact absurd rfl h

theorem parserStep_separator (ht : t ≠ .word) (h : parserStep state t = some next) :
    state = .arg ∧ next ≠ .arg := by
  cases state <;> cases t <;> cases h <;> first | exact absurd rfl ht | exact ⟨rfl, nofun⟩

theorem parserStep_ne_line : parserStep state t ≠ some .line := by
  cases state <;> cases t <;> nofun

theorem eq_amp_of_parserStep (h : parserStep state t = some .bg) : t = .amp := by
  cases state <;> cases t <;> cases h
  rfl

/-- Behind a separator the automaton behaves as at the start of a line. -/
theorem parserRun_start (h : state ≠ .arg)
    (hne : tokens ≠ []) : parserRun state tokens = parserRun .line tokens := by
  cases tokens with
  | nil => exact absurd rfl hne
  | cons => simp only [parserRun, parserStep_of_ne_arg h]

/-- Only a word can follow where the automaton is not in `ARG`. -/
theorem exists_word_of_parserRun (h : state ≠ .arg) (hne : tokens ≠ [])
    (hrun : parserRun state tokens = some final) :
    ∃ w rest, tokens = w :: rest ∧ w.type = .word ∧ parserRun .arg rest = some final := by
  rw [parserRun_start h hne] at hrun
  cases tokens with
  | nil => exact absurd rfl hne
  | cons w rest =>
    refine ⟨w, rest, rfl, ?_⟩
    cases hw : w.type with
    | word => simpa [parserRun, hw, parserStep] using hrun
    | _ => simp [parserRun, hw, parserStep] at hrun

/-- A token that is not a word is read in `ARG` and leads out of it. -/
theorem parserRun_split {t : Token} (ht : t.type ≠ .word)
    (hrun : parserRun state (a ++ t :: b) = some final) :
    parserRun state a = some .arg ∧
      ∃ next, parserStep .arg t.type = some next ∧ next ≠ .arg ∧ parserRun next b = some final := by
  rw [parserRun_append] at hrun
  obtain ⟨s, hs, hrest⟩ := Option.bind_eq_some_iff.mp hrun
  simp only [parserRun] at hrest
  split at hrest
  · cases hrest
  · rename_i next hnext
    obtain ⟨rfl, hne⟩ := parserStep_separator ht hnext
    exact ⟨hs, next, hnext, hne, hrest⟩

/-- Only `&` leads to `BG`, and nothing leads back to `LINE`. -/
theorem eq_nil_of_parserRun (hfinal : final = .line ∨ final = .bg)
    (hamp : ∀ t ∈ tokens, t.type ≠ .amp)
    (hrun : parserRun state tokens = some final) : tokens = [] ∧ state = final := by
  induction tokens generalizing state with
  | nil => exact ⟨rfl, Option.some.inj hrun⟩
  | cons t tokens ih =>
    simp only [parserRun] at hrun
    split at hrun
    · cases hrun
    · rename_i next hnext
      obtain ⟨-, rfl⟩ := ih (fun u hu ↦ hamp u (List.mem_cons_of_mem _ hu)) hrun
      rcases hfinal with rfl | rfl
      · exact absurd hnext parserStep_ne_line
      · exact absurd (eq_amp_of_parserStep hnext) (hamp t List.mem_cons_self)

/-! ### Accepted lines and their groups -/

/-- `parser_validate` as a predicate: the automaton does not end in `NEED_WORD`. -/
def Accepted (tokens : List Token) : Prop :=
  ∃ final, parserRun .line tokens = some final ∧ final ≠ .needWord

theorem accepted_of_parserValidate (h : parserValidate tokens = true) : Accepted tokens := by
  unfold parserValidate at h
  split at h
  · exact ⟨.line, ‹_›, by decide⟩
  · exact ⟨.arg, ‹_›, by decide⟩
  · exact ⟨.bg, ‹_›, by decide⟩
  · cases h

/-- Before a separator the automaton is in `ARG`, and what follows the separator is accepted as a
line of its own. -/
theorem Accepted.split {a b : List Token} {t : Token} (h : Accepted (a ++ t :: b))
    (ht : t.type ≠ .word) : parserRun .line a = some .arg ∧ Accepted b := by
  obtain ⟨final, hrun, hfinal⟩ := h
  obtain ⟨ha, next, -, hnext, hb⟩ := parserRun_split ht hrun
  refine ⟨ha, ?_⟩
  rcases eq_or_ne b [] with rfl | hnil
  · exact ⟨.line, rfl, by decide⟩
  · exact ⟨final, by rw [← parserRun_start hnext hnil, hb], hfinal⟩

/-- The tokens between two separators: a run from the start of a line to `ARG`, without a separator
in it. -/
structure GroupOk (group : List Token) : Prop where
  run : parserRun .line group = some .arg
  plain : ∀ t ∈ group, t.type ≠ .semi ∧ t.type ≠ .amp

theorem GroupOk.ne_nil (h : GroupOk group) : group ≠ [] := by
  rintro rfl
  have hrun := h.run
  cases hrun

/-- An accepted line without separators is one group. -/
theorem Accepted.groupOk (h : Accepted tokens) (hne : tokens ≠ [])
    (hplain : ∀ t ∈ tokens, t.type ≠ .semi ∧ t.type ≠ .amp) : GroupOk tokens := by
  obtain ⟨final, hrun, hfinal⟩ := h
  have hamp : ∀ t ∈ tokens, t.type ≠ .amp := fun t ht ↦ (hplain t ht).2
  cases final with
  | arg => exact ⟨hrun, hplain⟩
  | line => exact absurd (eq_nil_of_parserRun (.inl rfl) hamp hrun).1 hne
  | bg => exact absurd (eq_nil_of_parserRun (.inr rfl) hamp hrun).1 hne
  | needWord => exact absurd rfl hfinal

/-- The redirection operators. -/
def isRedirection : TokenType → Bool
  | .lt => true
  | .gt => true
  | .gtgt => true
  | _ => false

/-- Every redirection of a group has its target inside the group. -/
theorem GroupOk.redirection_target (h : GroupOk group) {t : Token} (ht : group[i]? = some t)
    (hredir : isRedirection t.type = true) : ∃ w, group[i + 1]? = some w ∧ w.type = .word := by
  obtain ⟨hlt, hget⟩ := List.getElem?_eq_some_iff.mp ht
  have hword : t.type ≠ .word := by
    intro heq
    simp [heq, isRedirection] at hredir
  have hsplit : group = group.take i ++ t :: group.drop (i + 1) := by
    rw [← hget, ← List.drop_eq_getElem_cons hlt, List.take_append_drop]
  have hrun := h.run
  rw [hsplit] at hrun
  obtain ⟨-, next, -, hnext, hrest⟩ := parserRun_split hword hrun
  have hne : group.drop (i + 1) ≠ [] := by
    intro hnil
    rw [hnil] at hrest
    exact hnext (Option.some.inj hrest)
  obtain ⟨w, rest, hw, htype, -⟩ := exists_word_of_parserRun hnext hne hrest
  refine ⟨w, ?_, htype⟩
  have hhead : (group.drop (i + 1))[0]? = some w := by
    rw [hw]
    rfl
  rwa [List.getElem?_drop, Nat.add_zero] at hhead

end Irish.Shell
