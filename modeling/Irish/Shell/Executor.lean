import Irish.Shell.Parser

/-!
# The executor of the shell

`executor_run` of `src/executor.c` with `src/sequence.c` and `src/bg_exec.c`: a line is split at
`;`, each part at `&`, and each group of tokens is handed to `executor_execute_group`, which splits
it at `|` into commands. What a group returns is an argument here (`results`), so that a statement
about the calls is one about every behaviour of the commands.

The main result is that the parser and the executor agree: no group that an accepted line hands out
takes one of the executor's fallback branches.
-/

set_option autoImplicit false

namespace Irish.Shell

/-! ### The commands of a group -/

/-- `OutputRedir`. -/
structure OutputRedir where
  filename : Option (List Byte)
  isAppend : Bool
deriving DecidableEq, Repr

/-- `SingleCommand`; the lengths of the three lists are `argc`, `num_inputs` and `num_outputs`. -/
structure SingleCommand where
  argv : List (Option (List Byte))
  inputFiles : List (Option (List Byte))
  outputFiles : List OutputRedir
deriving DecidableEq, Repr

namespace SingleCommand

def empty : SingleCommand := ⟨[], [], []⟩

def argc (cmd : SingleCommand) : ℕ := cmd.argv.length

def numInputs (cmd : SingleCommand) : ℕ := cmd.inputFiles.length

def numOutputs (cmd : SingleCommand) : ℕ := cmd.outputFiles.length

def addArg (value : Option (List Byte)) (cmd : SingleCommand) : SingleCommand :=
  { cmd with argv := cmd.argv ++ [value] }

def addInput (value : Option (List Byte)) (cmd : SingleCommand) : SingleCommand :=
  { cmd with inputFiles := cmd.inputFiles ++ [value] }

def addOutput (isAppend : Bool) (value : Option (List Byte)) (cmd : SingleCommand) :
    SingleCommand :=
  { cmd with outputFiles := cmd.outputFiles ++ [⟨value, isAppend⟩] }

@[simp] theorem argc_addArg (value : Option (List Byte)) (cmd : SingleCommand) :
    (cmd.addArg value).argc = cmd.argc + 1 := by
  simp [argc, addArg]

@[simp] theorem argc_addInput (value : Option (List Byte)) (cmd : SingleCommand) :
    (cmd.addInput value).argc = cmd.argc := rfl

@[simp] theorem argc_addOutput (isAppend : Bool) (value : Option (List Byte))
    (cmd : SingleCommand) : (cmd.addOutput isAppend value).argc = cmd.argc := rfl

end SingleCommand

/-- What a redirection operator does with its target. -/
def addRedirection : TokenType → Option (List Byte) → SingleCommand → SingleCommand
  | .lt, value => SingleCommand.addInput value
  | .gt, value => SingleCommand.addOutput false value
  | .gtgt, value => SingleCommand.addOutput true value
  | _, _ => id

/-- The first loop of `executor_execute_group`. -/
def numCmds (group : List Token) : ℕ := 1 + group.countP (·.type = .pipe)

@[simp] theorem numCmds_cons (t : Token) (group : List Token) :
    numCmds (t :: group) = numCmds group + if t.type = .pipe then 1 else 0 := by
  simp [numCmds, List.countP_cons, Nat.add_assoc]

/-- The loop of `executor_execute_group` that fills `cmds`; `cmdIdx` is the command it fills. -/
def buildLoop : List Token → List SingleCommand → ℕ → List SingleCommand
  | [], cmds, _ => cmds
  | t :: tokens, cmds, cmdIdx =>
    if t.type = .pipe then buildLoop tokens cmds (cmdIdx + 1)
    else if isRedirection t.type then
      match tokens with
      | [] => cmds
      | w :: rest =>
        if w.type = .word then
          buildLoop rest (cmds.modify cmdIdx (addRedirection t.type w.value)) cmdIdx
        else buildLoop (w :: rest) cmds cmdIdx
    else if t.type = .word then
      buildLoop tokens (cmds.modify cmdIdx (SingleCommand.addArg t.value)) cmdIdx
    else buildLoop tokens cmds cmdIdx

/-- The commands `executor_execute_group` builds from a group. -/
def buildCommands (group : List Token) : List SingleCommand :=
  buildLoop group (List.replicate (numCmds group) .empty) 0

/-! ### The groups of a line -/

/-- One call of `executor_execute_group`. -/
structure GroupCall where
  tokens : List Token
  isBg : Bool
deriving DecidableEq, Repr

/-- How `executor_execute_group` ends: it returns, or the builtin `exit` ends the shell. -/
inductive Outcome
  | returned (status : ℤ)
  | exited
deriving DecidableEq, Repr

/-- `executor_execute_group` as its callers see it: the call is recorded, and the `n`-th call of a
line ends as `results n` says. -/
def executorExecuteGroup (results : ℕ → Outcome) (call : GroupCall) (calls : List GroupCall) :
    Outcome × List GroupCall :=
  (results calls.length, calls ++ [call])

variable {α : Type} {l : List α} {sep : TokenType} {tokens group : List Token} {t w : Token}
  {calls : List GroupCall} {n cmdIdx : ℕ} {cmds : List SingleCommand}
  {f : SingleCommand → SingleCommand} {cmd : SingleCommand}

theorem length_tail_dropWhile_lt (p : α → Bool) (h : l ≠ []) :
    (l.dropWhile p).tail.length < l.length := by
  have hpos : 0 < l.length := List.length_pos_iff.mpr h
  have hle : (l.dropWhile p).length ≤ l.length := (List.dropWhile_suffix p).length_le
  rw [List.length_tail]
  omega

/-- `bg_run`. -/
def bgRun (results : ℕ → Outcome) (tokens : List Token) (calls : List GroupCall) :
    Outcome × List GroupCall :=
  if tokens = [] then (.returned 0, calls)
  else
    let group := tokens.takeWhile (·.type ≠ .amp)
    let rest := tokens.dropWhile (·.type ≠ .amp)
    if group = [] then bgRun results rest.tail calls
    else
      match executorExecuteGroup results ⟨group, rest ≠ []⟩ calls with
      | (.exited, calls) => (.exited, calls)
      | (.returned _, calls) => bgRun results rest.tail calls
termination_by tokens.length
decreasing_by all_goals exact length_tail_dropWhile_lt _ (by assumption)

theorem type_ne_of_mem_takeWhile (h : t ∈ tokens.takeWhile (·.type ≠ sep)) : t.type ≠ sep := by
  have hall := List.all_eq_true.mp (List.all_takeWhile (p := (·.type ≠ sep)) (l := tokens)) t h
  simpa using hall

theorem any_semi_takeWhile (tokens : List Token) :
    (tokens.takeWhile (·.type ≠ .semi)).any (·.type = .semi) = false := by
  rw [List.any_eq_false]
  intro t ht
  simpa using type_ne_of_mem_takeWhile ht

mutual

/-- `executor_run`. -/
def executorRun (results : ℕ → Outcome) (tokens : List Token) (calls : List GroupCall) :
    Outcome × List GroupCall :=
  if tokens = [] then (.returned 0, calls)
  else if tokens.any (·.type = .semi) then sequenceRun results tokens calls
  else if tokens.any (·.type = .amp) then bgRun results tokens calls
  else executorExecuteGroup results ⟨tokens, false⟩ calls
termination_by if tokens.any (·.type = .semi) then tokens.length + 1 else 0
decreasing_by simp_all

/-- `sequence_run`. -/
def sequenceRun (results : ℕ → Outcome) (tokens : List Token) (calls : List GroupCall) :
    Outcome × List GroupCall :=
  if tokens = [] then (.returned 0, calls)
  else
    let group := tokens.takeWhile (·.type ≠ .semi)
    let rest := tokens.dropWhile (·.type ≠ .semi)
    if group = [] then sequenceRun results rest.tail calls
    else
      match executorRun results group calls with
      | (.returned 0, calls) => sequenceRun results rest.tail calls
      | (outcome, calls) => (outcome, calls)
termination_by tokens.length
decreasing_by
  · exact length_tail_dropWhile_lt _ (by assumption)
  · rw [any_semi_takeWhile]
    exact List.length_pos_iff.mpr (by assumption)
  · exact length_tail_dropWhile_lt _ (by assumption)

end

/-! ### The groups of an accepted line -/

/-- A line is either free of a separator or is cut by the first one. -/
theorem takeWhile_cases (sep : TokenType) (tokens : List Token) :
    (tokens.takeWhile (·.type ≠ sep) = tokens ∧ (tokens.dropWhile (·.type ≠ sep)).tail = []) ∨
      ∃ t, t.type = sep ∧ tokens = tokens.takeWhile (·.type ≠ sep) ++
        t :: (tokens.dropWhile (·.type ≠ sep)).tail := by
  have happend := tokens.takeWhile_append_dropWhile (p := (·.type ≠ sep))
  cases hrest : tokens.dropWhile (·.type ≠ sep) with
  | nil =>
    rw [hrest, List.append_nil] at happend
    exact .inl ⟨happend, rfl⟩
  | cons t =>
    have ht : ¬ (t.type ≠ sep) := by
      have hhead := List.head?_dropWhile_not (·.type ≠ sep) tokens
      rw [hrest] at hhead
      simpa using hhead
    rw [hrest] at happend
    exact .inr ⟨t, not_not.mp ht, happend.symm⟩

/-- Cutting an accepted line at a separator: the part before it and the rest are accepted, and the
part before it is free of the separator. -/
theorem Accepted.cut (h : Accepted tokens) (sep : TokenType) (hsep : sep ≠ .word) :
    Accepted (tokens.takeWhile (·.type ≠ sep)) ∧
      Accepted (tokens.dropWhile (·.type ≠ sep)).tail := by
  rcases takeWhile_cases sep tokens with ⟨hall, hrest⟩ | ⟨t, ht, hcut⟩
  · rw [hall, hrest]
    exact ⟨h, .line, rfl, by decide⟩
  · rw [hcut] at h
    obtain ⟨hrun, hrest⟩ := h.split (ht ▸ hsep)
    exact ⟨⟨.arg, hrun, by decide⟩, hrest⟩

def CallsOk (calls : List GroupCall) : Prop := ∀ call ∈ calls, GroupOk call.tokens

theorem CallsOk.executorExecuteGroup (h : CallsOk calls) (call : GroupCall)
    (hcall : GroupOk call.tokens) (results : ℕ → Outcome) :
    CallsOk (executorExecuteGroup results call calls).2 := by
  intro c hc
  rcases List.mem_append.mp hc with hc | hc
  · exact h c hc
  · rwa [List.mem_singleton.mp hc]

theorem CallsOk.bgRun (haccepted : Accepted tokens) (hsemi : ∀ t ∈ tokens, t.type ≠ .semi)
    (h : CallsOk calls) (results : ℕ → Outcome) : CallsOk (bgRun results tokens calls).2 := by
  induction hlength : tokens.length using Nat.strongRecOn generalizing tokens calls with
  | ind n ih =>
    subst hlength
    rw [Shell.bgRun]
    dsimp only
    split_ifs with hnil hgroup
    · exact h
    all_goals
      obtain ⟨hfirst, hrest⟩ := haccepted.cut .amp (by decide)
      have hrestSemi : ∀ t ∈ (tokens.dropWhile (·.type ≠ .amp)).tail, t.type ≠ .semi :=
        fun t ht ↦ hsemi t ((List.dropWhile_suffix _).subset (List.mem_of_mem_tail ht))
      have hlt := length_tail_dropWhile_lt (·.type ≠ .amp) hnil
    · exact ih _ hlt hrest hrestSemi h rfl
    · have hok : GroupOk (tokens.takeWhile (·.type ≠ .amp)) := by
        refine hfirst.groupOk hgroup fun t ht ↦ ?_
        exact ⟨hsemi t ((List.takeWhile_prefix _).subset ht), type_ne_of_mem_takeWhile ht⟩
      have hcalls := h.executorExecuteGroup ⟨_, (tokens.dropWhile (·.type ≠ .amp)) ≠ []⟩ hok results
      split
      · rename_i hcall
        rwa [hcall] at hcalls
      · rename_i hcall
        rw [hcall] at hcalls
        exact ih _ hlt hrest hrestSemi hcalls rfl

theorem CallsOk.executorRun_of_no_semi (haccepted : Accepted tokens)
    (hsemi : ∀ t ∈ tokens, t.type ≠ .semi) (h : CallsOk calls)
    (results : ℕ → Outcome) : CallsOk (executorRun results tokens calls).2 := by
  rw [executorRun]
  split_ifs with hnil hany hamp
  · exact h
  · obtain ⟨t, ht, htype⟩ := List.any_eq_true.mp hany
    exact absurd (of_decide_eq_true htype) (hsemi t ht)
  · exact h.bgRun haccepted hsemi results
  · refine h.executorExecuteGroup _ (haccepted.groupOk hnil fun t ht ↦ ⟨hsemi t ht, ?_⟩) results
    intro htype
    exact hamp (List.any_eq_true.mpr ⟨t, ht, decide_eq_true htype⟩)

theorem CallsOk.sequenceRun (haccepted : Accepted tokens) (h : CallsOk calls)
    (results : ℕ → Outcome) : CallsOk (sequenceRun results tokens calls).2 := by
  induction hlength : tokens.length using Nat.strongRecOn generalizing tokens calls with
  | ind n ih =>
    subst hlength
    rw [Shell.sequenceRun]
    dsimp only
    split_ifs with hnil hgroup
    · exact h
    all_goals
      obtain ⟨hfirst, hrest⟩ := haccepted.cut .semi (by decide)
      have hlt := length_tail_dropWhile_lt (·.type ≠ .semi) hnil
    · exact ih _ hlt hrest h rfl
    · have hcalls := h.executorRun_of_no_semi hfirst
        (fun t ht ↦ type_ne_of_mem_takeWhile ht) results
      split
      · rename_i hrun
        rw [hrun] at hcalls
        exact ih _ hlt hrest hcalls rfl
      · rename_i hrun
        rwa [hrun] at hcalls

/-- Every group that an accepted line hands out is a run of the automaton from `LINE` to `ARG`. -/
theorem CallsOk.executorRun (haccepted : Accepted tokens) (h : CallsOk calls)
    (results : ℕ → Outcome) : CallsOk (executorRun results tokens calls).2 := by
  by_cases hsemi : tokens.any (·.type = .semi) = true
  · rw [Shell.executorRun, if_pos hsemi]
    split_ifs
    · exact h
    · exact h.sequenceRun haccepted results
  · refine h.executorRun_of_no_semi haccepted (fun t ht htype ↦ hsemi ?_) results
    exact List.any_eq_true.mpr ⟨t, ht, decide_eq_true htype⟩

/-! ### The commands of such a group -/

theorem buildLoop_word (ht : t.type = .word) (tokens : List Token) (cmds : List SingleCommand)
    (cmdIdx : ℕ) : buildLoop (t :: tokens) cmds cmdIdx =
      buildLoop tokens (cmds.modify cmdIdx (SingleCommand.addArg t.value)) cmdIdx := by
  rw [buildLoop.eq_def]
  simp [ht, isRedirection]

theorem buildLoop_pipe (ht : t.type = .pipe) (tokens : List Token) (cmds : List SingleCommand)
    (cmdIdx : ℕ) : buildLoop (t :: tokens) cmds cmdIdx = buildLoop tokens cmds (cmdIdx + 1) := by
  rw [buildLoop.eq_def]
  simp [ht]

theorem buildLoop_redirection (ht : isRedirection t.type = true) (hw : w.type = .word)
    (tokens : List Token) (cmds : List SingleCommand) (cmdIdx : ℕ) :
    buildLoop (t :: w :: tokens) cmds cmdIdx =
      buildLoop tokens (cmds.modify cmdIdx (addRedirection t.type w.value)) cmdIdx := by
  have hpipe : t.type ≠ .pipe := by
    intro heq
    simp [heq, isRedirection] at ht
  rw [buildLoop.eq_def]
  simp [ht, hw, hpipe]

theorem length_buildLoop (tokens : List Token) (cmds : List SingleCommand) (cmdIdx : ℕ) :
    (buildLoop tokens cmds cmdIdx).length = cmds.length := by
  fun_induction buildLoop tokens cmds cmdIdx <;> simp_all

theorem length_buildCommands (group : List Token) :
    (buildCommands group).length = numCmds group := by
  rw [buildCommands, length_buildLoop, List.length_replicate]

/-- The first `n` commands have a name. -/
def Named (n : ℕ) (cmds : List SingleCommand) : Prop :=
  ∀ i cmd, i < n → cmds[i]? = some cmd → 1 ≤ cmd.argc

theorem Named.modify (h : Named n cmds) (i : ℕ) (hf : ∀ cmd, cmd.argc ≤ (f cmd).argc) :
    Named n (cmds.modify i f) := by
  intro j cmd hj hget
  rw [List.getElem?_modify] at hget
  obtain ⟨old, hold, rfl⟩ := Option.map_eq_some_iff.mp hget
  have hargc := h j old hj hold
  split
  · exact Nat.le_trans hargc (hf old)
  · exact hargc

theorem Named.addArg (h : Named n cmds) (value : Option (List Byte)) :
    Named (n + 1) (cmds.modify n (SingleCommand.addArg value)) := by
  intro j cmd hj hget
  by_cases hlt : j < n
  · exact h.modify n (fun cmd ↦ by simp) j cmd hlt hget
  · obtain rfl : j = n := by omega
    rw [List.getElem?_modify] at hget
    obtain ⟨old, -, rfl⟩ := Option.map_eq_some_iff.mp hget
    simp

theorem argc_le_addRedirection (type : TokenType) (value : Option (List Byte))
    (cmd : SingleCommand) : cmd.argc ≤ (addRedirection type value cmd).argc := by
  cases type <;> simp [addRedirection]

/-- The loop in step with the automaton. In `ARG` the command that is being filled has a name; a
pipe and a redirection are read together with the word the automaton demands behind them. -/
theorem named_buildLoop (hrun : parserRun .arg tokens = some .arg)
    (hplain : ∀ t ∈ tokens, t.type ≠ .semi ∧ t.type ≠ .amp) (hnamed : Named (cmdIdx + 1) cmds)
    (hlength : cmds.length = cmdIdx + numCmds tokens) :
    Named cmds.length (buildLoop tokens cmds cmdIdx) := by
  induction hsize : tokens.length using Nat.strongRecOn generalizing tokens cmds cmdIdx with
  | ind _ ih =>
    subst hsize
    cases tokens with
    | nil =>
      rwa [hlength]
    | cons t tokens =>
      have hrest : ∀ u ∈ tokens, u.type ≠ .semi ∧ u.type ≠ .amp :=
        fun u hu ↦ hplain u (List.mem_cons_of_mem _ hu)
      -- Behind a pipe or a redirection the automaton demands a word.
      have hword : ∀ {next}, next ≠ .arg → parserRun next tokens = some .arg →
          ∃ w rest, tokens = w :: rest ∧ w.type = .word ∧ parserRun .arg rest = some .arg := by
        intro next hnext hnextRun
        refine exists_word_of_parserRun hnext ?_ hnextRun
        rintro rfl
        exact hnext (Option.some.inj hnextRun)
      cases htype : t.type with
      | word =>
        simp only [parserRun, htype, parserStep] at hrun
        have hbuild := ih _ (Nat.lt_succ_self _) hrun hrest
          (hnamed.modify cmdIdx (f := SingleCommand.addArg t.value) (fun cmd ↦ by simp))
          (by simpa [htype] using hlength) rfl
        simpa [buildLoop_word htype] using hbuild
      | pipe =>
        simp only [parserRun, htype, parserStep] at hrun
        obtain ⟨w, rest, rfl, hw, hwrun⟩ := hword (by decide) hrun
        have hpipes : cmds.length = cmdIdx + 1 + numCmds rest := by
          simp [htype, hw] at hlength
          omega
        have hbuild := ih rest.length (Nat.lt_succ_of_lt (Nat.lt_succ_self _)) hwrun
          (fun u hu ↦ hrest u (List.mem_cons_of_mem _ hu)) (hnamed.addArg w.value)
          (by simpa using hpipes) rfl
        simpa [buildLoop_pipe htype, buildLoop_word hw] using hbuild
      | semi => exact absurd htype (hplain t List.mem_cons_self).1
      | amp => exact absurd htype (hplain t List.mem_cons_self).2
      | _ =>
        simp only [parserRun, htype, parserStep] at hrun
        obtain ⟨w, rest, rfl, hw, hwrun⟩ := hword (by decide) hrun
        have hbuild := ih rest.length (Nat.lt_succ_of_lt (Nat.lt_succ_self _)) hwrun
          (fun u hu ↦ hrest u (List.mem_cons_of_mem _ hu))
          (hnamed.modify cmdIdx (argc_le_addRedirection t.type w.value))
          (by simpa [htype, hw] using hlength) rfl
        simpa [buildLoop_redirection (t := t) (w := w) (by rw [htype]; rfl) hw] using hbuild

/-- Every command of a group has a name. -/
theorem GroupOk.argc_pos (h : GroupOk group) (hcmd : cmd ∈ buildCommands group) : 1 ≤ cmd.argc := by
  obtain ⟨w, rest, rfl, hw, hrun⟩ := exists_word_of_parserRun (by decide) h.ne_nil h.run
  have hnamed : Named 0 (List.replicate (numCmds (w :: rest)) SingleCommand.empty) :=
    fun i _ hi ↦ absurd hi (Nat.not_lt_zero i)
  have hbuild := named_buildLoop hrun (fun t ht ↦ h.plain t (List.mem_cons_of_mem _ ht))
    (hnamed.addArg w.value) (by simp [hw])
  have heq : buildCommands (w :: rest) = buildLoop rest
      ((List.replicate (numCmds (w :: rest)) SingleCommand.empty).modify 0
        (SingleCommand.addArg w.value)) 0 := by
    rw [buildCommands, buildLoop_word hw]
  rw [← heq] at hbuild
  obtain ⟨i, hi, rfl⟩ := List.mem_iff_getElem.mp hcmd
  refine hbuild i _ ?_ (List.getElem?_eq_getElem hi)
  simpa [length_buildCommands] using hi

/-! ### Agreement of parser and executor -/

/-- The group takes none of the fallback branches of `executor_execute_group` and of
`pipes_execute`. -/
structure WellFormedGroup (group : List Token) : Prop where
  ne_nil : group ≠ []
  no_separator : ∀ t ∈ group, t.type ≠ .semi ∧ t.type ≠ .amp
  redirection_target : ∀ i t, group[i]? = some t → isRedirection t.type = true →
    ∃ w, group[i + 1]? = some w ∧ w.type = .word
  num_commands : (buildCommands group).length = numCmds group
  argc_pos : ∀ cmd ∈ buildCommands group, 1 ≤ cmd.argc

theorem GroupOk.wellFormed (h : GroupOk group) : WellFormedGroup group where
  ne_nil := h.ne_nil
  no_separator := h.plain
  redirection_target := fun _ _ ht hredir ↦ h.redirection_target ht hredir
  num_commands := length_buildCommands group
  argc_pos := fun _ hcmd ↦ h.argc_pos hcmd

/-- Whatever the groups of an accepted line return, each group that the executor hands out is well
formed, and a line of one token has a value for `main` to compare with `exit`. -/
theorem executorRun_wellFormed {line : List Byte} {tokens : List Token}
    (hlex : lexerTokenize line = .ok tokens) (hparse : parserValidate tokens = true)
    (results : ℕ → Outcome) :
    (∀ call ∈ (executorRun results tokens []).2, WellFormedGroup call.tokens) ∧
      ∀ t, tokens = [t] → t.value ≠ none := by
  have haccepted := accepted_of_parserValidate hparse
  constructor
  · have hnil : CallsOk [] := nofun
    exact fun call hcall ↦ (hnil.executorRun haccepted results call hcall).wellFormed
  · rintro t rfl
    obtain ⟨final, hrun, -⟩ := haccepted
    obtain ⟨w, rest, heq, hw, -⟩ := exists_word_of_parserRun (by decide) (by simp) hrun
    obtain ⟨rfl, -⟩ := List.cons.inj heq
    exact lexerTokenize_words hlex List.mem_cons_self hw

/-- `a<b|c&d;e`: three groups, one of them in the background. -/
theorem executorRun_wellFormed_mixed :
    let line : List Byte := [97, 60, 98, 124, 99, 38, 100, 59, 101]
    let tokens : List Token := [⟨.word, some [97]⟩, ⟨.lt, none⟩, ⟨.word, some [98]⟩, ⟨.pipe, none⟩,
      ⟨.word, some [99]⟩, ⟨.amp, none⟩, ⟨.word, some [100]⟩, ⟨.semi, none⟩, ⟨.word, some [101]⟩]
    let calls := (executorRun (fun _ ↦ .returned 0) tokens []).2
    lexerTokenize line = .ok tokens ∧ parserValidate tokens = true ∧
      calls.map GroupCall.isBg = [true, false, false] ∧
      ∀ call ∈ calls, WellFormedGroup call.tokens := by
  intro line tokens calls
  have hlex : lexerTokenize line = .ok tokens := by decide +kernel
  exact ⟨hlex, rfl, by decide +kernel, (executorRun_wellFormed hlex rfl _).1⟩

end Irish.Shell
