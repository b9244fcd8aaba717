import Irish.Shell.Parser

/-!
# The grammar of the shell

The language of `parser_validate`, as a grammar with one predicate for each of its four levels:

* `line = ε | list ['&']`
* `list = pipeline ((';' | '&') pipeline)*`
* `pipeline = command ('|' command)*`
* `command = WORD (WORD | ('<' | '>' | '>>') WORD)*`

Lists and pipelines are the same construction, one item and then any number of separators with an
item behind each (`SepBy`). The automaton is flat: it keeps no level. That it accepts nothing else
goes by induction on the tokens behind the first word of a line: whatever comes next, either it
belongs to the first command or it ends it, and in both cases the derivation of the rest is extended
at its left end.
-/

set_option autoImplicit false

namespace Irish.Shell

variable {tokens : List Token}

namespace Grammar

/-- The part of a command behind its first word. -/
inductive Arguments : List Token → Prop
  | nil : Arguments []
  | word {w : Token} {rest : List Token} :
      w.type = .word → Arguments rest → Arguments (w :: rest)
  | redirection {op w : Token} {rest : List Token} :
      isRedirection op.type = true → w.type = .word → Arguments rest → Arguments (op :: w :: rest)

inductive Command : List Token → Prop
  | intro {w : Token} {args : List Token} :
      w.type = .word → Arguments args → Command (w :: args)

/-- An item, and any number of further ones behind separators. -/
inductive SepBy (item : List Token → Prop) (sep : TokenType → Prop) : List Token → Prop
  | single {l : List Token} : item l → SepBy item sep l
  | cons {l rest : List Token} {t : Token} :
      item l → sep t.type → SepBy item sep rest → SepBy item sep (l ++ t :: rest)

def Pipeline : List Token → Prop := SepBy Command (· = .pipe)

def Pipelines : List Token → Prop := SepBy Pipeline fun type ↦ type = .semi ∨ type = .amp

inductive Line : List Token → Prop
  | empty : Line []
  | pipelines {l : List Token} : Pipelines l → Line l
  | background {l : List Token} {t : Token} : Pipelines l → t.type = .amp → Line (l ++ [t])

/-! ### The automaton accepts what the grammar derives -/

variable {args l rest new : List Token} {w v t : Token} {item : List Token → Prop}
  {sep : TokenType → Prop} {final : ParserState}

theorem parserRun_arguments (h : Arguments args) : parserRun .arg args = some .arg := by
  induction h with
  | nil => rfl
  | word hw _ ih => simpa [parserRun, hw, parserStep] using ih
  | @redirection op w _ hop hw _ ih =>
    have hstep : parserStep .arg op.type = some .needWord := by
      cases hop' : op.type <;> simp [hop', isRedirection] at hop <;> rfl
    have hword : parserStep .needWord w.type = some .arg := by rw [hw]; rfl
    simp only [parserRun, hstep, hword, ih]

theorem parserRun_command (h : Command l) : parserRun .line l = some .arg := by
  obtain ⟨hw, hargs⟩ := h
  simpa [parserRun, hw, parserStep] using parserRun_arguments hargs

/-- Behind a separator the automaton is again at the start of an item. -/
theorem SepBy.parserRun (hitem : ∀ l, item l → parserRun .line l = some .arg)
    (hsep : ∀ type, sep type → ∃ next, parserStep .arg type = some next ∧ next ≠ .arg)
    (h : SepBy item sep l) : parserRun .line l = some .arg := by
  induction h with
  | single hl => exact hitem _ hl
  | @cons l rest _ hl ht _ ih =>
    obtain ⟨next, hnext, hne⟩ := hsep _ ht
    have hrest : rest ≠ [] := by
      rintro rfl
      cases ih
    rw [parserRun_append, hitem l hl, Option.bind_some]
    simp only [Shell.parserRun, hnext]
    rw [parserRun_start hne hrest, ih]

theorem parserRun_pipeline (h : Pipeline l) : parserRun .line l = some .arg := by
  refine SepBy.parserRun (fun _ ↦ parserRun_command) (fun type htype ↦ ?_) h
  obtain rfl := htype
  exact ⟨.needWord, rfl, by decide⟩

theorem parserRun_pipelines (h : Pipelines l) : parserRun .line l = some .arg := by
  refine SepBy.parserRun (fun _ ↦ parserRun_pipeline) (fun type htype ↦ ?_) h
  rcases htype with rfl | rfl
  · exact ⟨.needWord, rfl, by decide⟩
  · exact ⟨.bg, rfl, by decide⟩

theorem Line.accepted (h : Line tokens) : Accepted tokens := by
  cases h with
  | empty => exact ⟨.line, rfl, by decide⟩
  | pipelines hl => exact ⟨.arg, parserRun_pipelines hl, by decide⟩
  | background hl ht =>
    refine ⟨.bg, ?_, by decide⟩
    rw [parserRun_append, parserRun_pipelines hl, Option.bind_some]
    simp [parserRun, ht, parserStep]

/-! ### Extending a derivation at its left end -/

/-- Whatever follows a word, `new` may stand between the two. -/
def Inserts (w : Token) (new : List Token) (P : List Token → Prop) : Prop :=
  ∀ rest, P (w :: rest) → P (w :: (new ++ rest))

theorem inserts_command (hnew : ∀ args, Arguments args → Arguments (new ++ args)) :
    Inserts w new Command := by
  rintro rest ⟨hw, hargs⟩
  exact .intro hw (hnew _ hargs)

theorem Inserts.sepBy (h : Inserts w new item) (hne : ∀ l, item l → l ≠ []) :
    Inserts w new (SepBy item sep) := by
  intro rest hsepBy
  generalize hl : w :: rest = l at hsepBy
  cases hsepBy with
  | single hitem => exact .single (h rest (hl ▸ hitem))
  | @cons first _ _ hitem ht hothers =>
    obtain ⟨c, tail, rfl⟩ := List.exists_cons_of_ne_nil (hne first hitem)
    rw [List.cons_append, List.cons.injEq] at hl
    obtain ⟨rfl, rfl⟩ := hl
    have hfirst := SepBy.cons (h tail hitem) ht hothers
    simpa using hfirst

theorem SepBy.ne_nil (hne : ∀ l, item l → l ≠ []) (h : SepBy item sep l) : l ≠ [] := by
  cases h with
  | single hl => exact hne _ hl
  | cons => simp

theorem Command.ne_nil (h : Command l) : l ≠ [] := by
  cases h
  simp

theorem Pipeline.ne_nil (h : Pipeline l) : l ≠ [] :=
  SepBy.ne_nil (fun _ ↦ Command.ne_nil) h

theorem Pipelines.ne_nil (h : Pipelines l) : l ≠ [] :=
  SepBy.ne_nil (fun _ ↦ Pipeline.ne_nil) h

/-- A line that is not empty has pipelines, and perhaps an `&` at its end. -/
theorem Line.cases_cons (h : Line (w :: rest)) :
    Pipelines (w :: rest) ∨
      ∃ init t, rest = init ++ [t] ∧ Pipelines (w :: init) ∧ t.type = .amp := by
  generalize hl : w :: rest = l at h
  cases h with
  | empty => cases hl
  | pipelines hlist => exact .inl hlist
  | @background _ t hlist ht =>
    obtain ⟨c, init, rfl⟩ := List.exists_cons_of_ne_nil (Pipelines.ne_nil hlist)
    rw [List.cons_append, List.cons.injEq] at hl
    obtain ⟨rfl, rfl⟩ := hl
    exact .inr ⟨init, t, rfl, hlist, ht⟩

/-- What extends every list of pipelines on the left extends every line. -/
theorem Line.extend (front : List Token) (hfront : ∀ l, Pipelines (w :: l) → Pipelines (front ++ l))
    (h : Line (w :: rest)) : Line (front ++ rest) := by
  rcases h.cases_cons with hlist | ⟨init, t, rfl, hlist, ht⟩
  · exact .pipelines (hfront rest hlist)
  · have hline := Line.background (hfront init hlist) ht
    rwa [List.append_assoc] at hline

theorem Line.insert (new : List Token) (hnew : ∀ args, Arguments args → Arguments (new ++ args))
    (h : Line (w :: rest)) : Line (w :: (new ++ rest)) := by
  have hinserts : Inserts w new Pipelines :=
    ((inserts_command hnew).sepBy fun _ ↦ Command.ne_nil).sepBy fun _ ↦ Pipeline.ne_nil
  exact h.extend (w :: new) hinserts

theorem command_word (hw : w.type = .word) : Command [w] := .intro hw .nil

/-- A command before the first pipeline of a line. -/
theorem Line.pipe {v t : Token} (hw : w.type = .word) (ht : t.type = .pipe)
    (h : Line (v :: rest)) : Line (w :: t :: v :: rest) := by
  refine h.extend [w, t, v] fun l hlist ↦ ?_
  have hpipe (p : List Token) (hp : Pipeline p) : Pipeline ([w] ++ t :: p) :=
    .cons (command_word hw) ht hp
  generalize hl : v :: l = l' at hlist
  cases hlist with
  | single hp =>
    rw [← hl] at hp
    exact .single (hpipe _ hp)
  | @cons p others u hp hu hothers =>
    have hlist := SepBy.cons (hpipe p hp) hu hothers
    have heq : [w, t, v] ++ l = ([w] ++ t :: p) ++ u :: others := by simp [hl]
    rwa [heq]

/-- A pipeline before a line. -/
theorem Line.separate (hw : w.type = .word) (ht : t.type = .semi ∨ t.type = .amp)
    (h : Line (v :: rest)) : Line (w :: t :: v :: rest) := by
  refine h.extend [w, t, v] fun l hlist ↦ ?_
  exact SepBy.cons (l := [w]) (.single (command_word hw)) ht hlist

/-- Behind the first word of a line: what the automaton accepts from `ARG` continues a line. -/
theorem line_of_parserRun (hw : w.type = .word) (hrun : parserRun .arg tokens = some final)
    (hfinal : final ≠ .needWord) : Line (w :: tokens) := by
  induction hsize : tokens.length using Nat.strongRecOn generalizing w tokens with
  | ind _ ih =>
    subst hsize
    cases tokens with
    | nil => exact .pipelines (.single (.single (command_word hw)))
    | cons t tokens =>
      -- Behind a token that leads to `NEED_WORD` there is a word.
      have hword (hneed : parserStep .arg t.type = some .needWord) : ∃ v rest,
          tokens = v :: rest ∧ v.type = .word ∧ parserRun .arg rest = some final := by
        simp only [parserRun, hneed] at hrun
        refine exists_word_of_parserRun (by decide) ?_ hrun
        rintro rfl
        exact hfinal (Option.some.inj hrun).symm
      have hshorter (v : Token) (rest : List Token) : rest.length < (v :: rest).length + 1 :=
        Nat.lt_succ_of_lt (Nat.lt_succ_self _)
      cases htype : t.type with
      | word =>
        simp only [parserRun, htype, parserStep] at hrun
        exact (ih _ (Nat.lt_succ_self _) hw hrun rfl).insert [t] fun _ ↦ .word htype
      | pipe =>
        obtain ⟨v, rest, rfl, hv, hrest⟩ := hword (by rw [htype]; rfl)
        exact (ih _ (hshorter v rest) hv hrest rfl).pipe hw htype
      | semi =>
        obtain ⟨v, rest, rfl, hv, hrest⟩ := hword (by rw [htype]; rfl)
        exact (ih _ (hshorter v rest) hv hrest rfl).separate hw (.inl htype)
      | amp =>
        simp only [parserRun, htype, parserStep] at hrun
        rcases eq_or_ne tokens [] with rfl | hnil
        · exact .background (l := [w]) (.single (.single (command_word hw))) htype
        · obtain ⟨v, rest, rfl, hv, hrest⟩ := exists_word_of_parserRun (by decide) hnil hrun
          exact (ih _ (hshorter v rest) hv hrest rfl).separate hw (.inr htype)
      | _ =>
        obtain ⟨v, rest, rfl, hv, hrest⟩ := hword (by rw [htype]; rfl)
        exact (ih _ (hshorter v rest) hw hrest rfl).insert [t, v]
          fun _ ↦ .redirection (by rw [htype]; rfl) hv

end Grammar

theorem parserValidate_of_accepted (h : Accepted tokens) : parserValidate tokens = true := by
  obtain ⟨final, hrun, hfinal⟩ := h
  unfold parserValidate
  cases final with
  | needWord => exact absurd rfl hfinal
  | _ => simp [hrun]

/-- The parser accepts exactly its grammar. -/
theorem parserValidate_iff_line (tokens : List Token) :
    parserValidate tokens = true ↔ Grammar.Line tokens := by
  refine ⟨fun h ↦ ?_, fun h ↦ parserValidate_of_accepted h.accepted⟩
  obtain ⟨final, hrun, hfinal⟩ := accepted_of_parserValidate h
  rcases eq_or_ne tokens [] with rfl | hnil
  · exact .empty
  · obtain ⟨w, rest, rfl, hw, hrest⟩ := exists_word_of_parserRun (by decide) hnil hrun
    exact Grammar.line_of_parserRun hw hrest hfinal

end Irish.Shell
