import Irish.Shell.Executor
import Irish.Shell.Grammar

/-!
# The commands of a pipeline

What the loop of `executor_execute_group` does with the words of a group. Where a word goes depends
on the token in front of it only, and this is how `commandOf` says it: `collect` reads a part of the
group with the type of the previous token at hand. For a pipeline of the grammar the loop builds
`commandOf` of every part, and no word is lost or used twice.

The second half is the loop on the memory it has: `num_cmds` records, each with three blocks of
`group_len + 1` cells, where a write outside of a block does not go through. It does not depend on
the grammar: for every list of tokens all writes go through and the blocks hold what the first
model computes.
-/

set_option autoImplicit false

namespace Irish.Shell

open Library

/-! ### The intended commands -/

/-- The tokens for which `f` has a value, given the type of the token before. -/
def collect {β : Type*} (f : Option TokenType → Token → Option β) :
    Option TokenType → List Token → List β
  | _, [] => []
  | prev, t :: tokens => (f prev t).toList ++ collect f (some t.type) tokens

/-- A word that does not directly follow a redirection operator. -/
def argumentAt (prev : Option TokenType) (t : Token) : Option (Option (List Byte)) :=
  if t.type = .word ∧ prev.any isRedirection = false then some t.value else none

/-- A word that follows `<`. -/
def inputAt (prev : Option TokenType) (t : Token) : Option (Option (List Byte)) :=
  if t.type = .word ∧ prev = some .lt then some t.value else none

/-- A word that follows `>` or `>>`, with its append flag. -/
def outputAt (prev : Option TokenType) (t : Token) : Option OutputRedir :=
  if t.type = .word ∧ prev = some .gt then some ⟨t.value, false⟩
  else if t.type = .word ∧ prev = some .gtgt then some ⟨t.value, true⟩
  else none

def commandFrom (prev : Option TokenType) (part : List Token) : SingleCommand :=
  ⟨collect argumentAt prev part, collect inputAt prev part, collect outputAt prev part⟩

/-- The command that a part of a pipeline stands for. -/
def commandOf (part : List Token) : SingleCommand := commandFrom none part

namespace SingleCommand

/-- All words of a command. -/
def words (cmd : SingleCommand) : List (Option (List Byte)) :=
  cmd.argv ++ cmd.inputFiles ++ cmd.outputFiles.map (·.filename)

def append (cmd cmd' : SingleCommand) : SingleCommand :=
  ⟨cmd.argv ++ cmd'.argv, cmd.inputFiles ++ cmd'.inputFiles, cmd.outputFiles ++ cmd'.outputFiles⟩

theorem append_empty (cmd : SingleCommand) : cmd.append .empty = cmd := by
  simp [append, empty]

theorem empty_append (cmd : SingleCommand) : empty.append cmd = cmd := by
  simp [append, empty]

end SingleCommand

/-- The words of a list of tokens, in order. -/
def wordsOf (tokens : List Token) : List (Option (List Byte)) :=
  (tokens.filter (·.type = .word)).map (·.value)

theorem wordsOf_append (tokens tokens' : List Token) :
    wordsOf (tokens ++ tokens') = wordsOf tokens ++ wordsOf tokens' := by
  simp [wordsOf]

variable {t w op : Token} {prev : Option TokenType} {args l group : List Token} {α : Type*} {m' : ℕ}

theorem wordsOf_cons_of_ne (ht : t.type ≠ .word) (tokens : List Token) :
    wordsOf (t :: tokens) = wordsOf tokens := by
  simp [wordsOf, ht]

/-- Exactly one of the three lists takes a word, and none takes another token. -/
theorem words_commandFrom_cons (prev : Option TokenType) (t : Token) (tokens : List Token) :
    (commandFrom prev (t :: tokens)).words.Perm
      (wordsOf [t] ++ (commandFrom (some t.type) tokens).words) := by
  simp only [commandFrom, SingleCommand.words, collect, List.map_append]
  generalize collect argumentAt (some t.type) tokens = args
  generalize collect inputAt (some t.type) tokens = inputs
  generalize (collect outputAt (some t.type) tokens).map (·.filename) = outputs
  by_cases hword : t.type = .word
  · have hone : wordsOf [t] = [t.value] := by simp [wordsOf, hword]
    rw [hone]
    -- The three lists stand one behind the other: an input or an output moves to the front.
    have hinput : (args ++ t.value :: (inputs ++ outputs)).Perm
        (t.value :: (args ++ (inputs ++ outputs))) := List.perm_middle
    have houtput : (args ++ (inputs ++ t.value :: outputs)).Perm
        (t.value :: (args ++ (inputs ++ outputs))) := by
      have hmiddle : (args ++ inputs ++ t.value :: outputs).Perm
          (t.value :: (args ++ inputs ++ outputs)) := List.perm_middle
      simpa using hmiddle
    rcases prev with - | op
    · simp [argumentAt, inputAt, outputAt, hword]
    · cases op <;> simp [argumentAt, inputAt, outputAt, hword, isRedirection, hinput, houtput]
  · simp [argumentAt, inputAt, outputAt, hword, wordsOf]

theorem words_commandFrom (prev : Option TokenType) (tokens : List Token) :
    (commandFrom prev tokens).words.Perm (wordsOf tokens) := by
  induction tokens generalizing prev with
  | nil => simp [commandFrom, collect, SingleCommand.words, wordsOf]
  | cons t tokens ih =>
    have hstep := words_commandFrom_cons prev t tokens
    refine hstep.trans ?_
    have hcons : wordsOf (t :: tokens) = wordsOf [t] ++ wordsOf tokens :=
      wordsOf_append [t] tokens
    rw [hcons]
    exact (ih (some t.type)).append_left _

/-! ### The loop over one command -/

theorem addArg_append (hprev : prev.any isRedirection = false) (hw : w.type = .word)
    (tokens : List Token) (cmd : SingleCommand) :
    (cmd.addArg w.value).append (commandFrom (some .word) tokens) =
      cmd.append (commandFrom prev (w :: tokens)) := by
  have hlt : prev ≠ some .lt := by rintro rfl; cases hprev
  have hgt : prev ≠ some .gt := by rintro rfl; cases hprev
  have hgtgt : prev ≠ some .gtgt := by rintro rfl; cases hprev
  simp [SingleCommand.append, SingleCommand.addArg, commandFrom, collect, argumentAt, inputAt,
    outputAt, hw, hprev, hlt, hgt, hgtgt]

theorem addRedirection_append (hop : isRedirection op.type = true) (hw : w.type = .word)
    (prev : Option TokenType) (tokens : List Token) (cmd : SingleCommand) :
    (addRedirection op.type w.value cmd).append (commandFrom (some .word) tokens) =
      cmd.append (commandFrom prev (op :: w :: tokens)) := by
  cases htype : op.type <;> simp [htype, isRedirection] at hop <;>
    simp [SingleCommand.append, SingleCommand.addInput, SingleCommand.addOutput, addRedirection,
      commandFrom, collect, argumentAt, inputAt, outputAt, hw, htype, isRedirection]

/-- The loop adds to the command it fills what the arguments stand for. -/
theorem buildLoop_arguments (h : Grammar.Arguments args) (prev : Option TokenType)
    (hprev : prev.any isRedirection = false) (rest : List Token) (cmds : List SingleCommand)
    (cmdIdx : ℕ) :
    buildLoop (args ++ rest) cmds cmdIdx =
      buildLoop rest (cmds.modify cmdIdx (·.append (commandFrom prev args))) cmdIdx := by
  induction h generalizing prev cmds with
  | nil =>
    have hid : (fun cmd : SingleCommand ↦ cmd.append (commandFrom prev [])) = id :=
      funext SingleCommand.append_empty
    rw [hid, List.modify_id, List.nil_append]
  | @word _ args hw _ ih =>
    rw [List.cons_append, buildLoop_word hw, ih (some .word) rfl, List.modify_modify_eq]
    congr 2
    exact funext fun cmd ↦ addArg_append hprev hw args cmd
  | @redirection _ _ args hop hw _ ih =>
    rw [List.cons_append, List.cons_append, buildLoop_redirection hop hw,
      ih (some .word) rfl, List.modify_modify_eq]
    congr 2
    exact funext fun cmd ↦ addRedirection_append hop hw prev args cmd

/-- The first word of a command is an argument like the others. -/
theorem Grammar.Command.arguments {l : List Token} (h : Grammar.Command l) :
    Grammar.Arguments l := by
  obtain ⟨hw, hargs⟩ := h
  exact .word hw hargs

theorem Grammar.Arguments.not_pipe (h : Grammar.Arguments l) :
    ∀ t ∈ l, decide (t.type = .pipe) = false := by
  induction h with
  | nil => simp
  | word hw _ ih => simpa [hw] using ih
  | @redirection op _ _ hop hw _ ih =>
    have hpipe : op.type ≠ .pipe := by
      intro heq
      simp [heq, isRedirection] at hop
    simpa [hw, hpipe] using ih

theorem modify_append_cons (done : List α) (x : α) (later : List α) (f : α → α) :
    (done ++ x :: later).modify done.length f = done ++ f x :: later := by
  induction done with
  | nil => rfl
  | cons _ _ ih => simpa using ih

theorem buildLoop_command (h : Grammar.Command l) (rest : List Token)
    (done later : List SingleCommand) :
    buildLoop (l ++ rest) (done ++ .empty :: later) done.length =
      buildLoop rest (done ++ commandOf l :: later) done.length := by
  rw [buildLoop_arguments h.arguments none rfl, modify_append_cons, SingleCommand.empty_append]
  rfl

/-! ### The loop over a pipeline -/

theorem Grammar.Command.countP_pipe (h : Grammar.Command l) : l.countP (·.type = .pipe) = 0 := by
  rw [List.countP_eq_zero]
  intro t ht
  rw [h.arguments.not_pipe t ht]
  decide

theorem numCmds_append_pipe (h : Grammar.Command l) (ht : t.type = .pipe) (rest : List Token) :
    numCmds (l ++ t :: rest) = numCmds rest + 1 := by
  rw [numCmds, List.countP_append, h.countP_pipe, List.countP_cons_of_pos (by simpa using ht),
    numCmds]
  omega

theorem buildLoop_pipeline (h : Grammar.Pipeline group) (done : List SingleCommand) :
    buildLoop group (done ++ List.replicate (numCmds group) .empty) done.length =
      done ++ (group.splitOnP (·.type = .pipe)).map commandOf := by
  induction h generalizing done with
  | @single l hl =>
    have hone : numCmds l = 1 := by rw [numCmds, hl.countP_pipe]
    have hbuild := buildLoop_command hl [] done []
    rw [List.append_nil] at hbuild
    rw [hone, List.replicate_one, hbuild, List.splitOnP_eq_singleton hl.arguments.not_pipe]
    rfl
  | @cons l _ t hl ht _ ih =>
    rw [numCmds_append_pipe hl ht, List.replicate_succ, buildLoop_command hl, buildLoop_pipe ht,
      List.splitOnP_append_cons_of_forall_mem hl.arguments.not_pipe t (by simpa using ht)]
    have hrest := ih (done ++ [commandOf l])
    simpa using hrest

theorem words_pipeline (h : Grammar.Pipeline group) :
    (((group.splitOnP (·.type = .pipe)).map commandOf).flatMap SingleCommand.words).Perm
      (wordsOf group) := by
  induction h with
  | @single l hl =>
    rw [List.splitOnP_eq_singleton hl.arguments.not_pipe]
    simpa [commandOf] using words_commandFrom none l
  | @cons l _ t hl ht _ ih =>
    have hword : t.type ≠ .word := by rw [ht]; decide
    rw [List.splitOnP_append_cons_of_forall_mem hl.arguments.not_pipe t (by simpa using ht),
      wordsOf_append, wordsOf_cons_of_ne hword]
    exact (words_commandFrom none l).append ih

/-! ### The loop on its memory -/

/-- The arrays of a `SingleCommand`; the numbers of cells in use are `argc`, `num_inputs` and
`num_outputs`. -/
structure CommandArrays where
  argv : GrowArray (Option (List Byte))
  inputFiles : GrowArray (Option (List Byte))
  outputFiles : GrowArray OutputRedir
deriving DecidableEq, Repr

namespace CommandArrays

def allocate (groupLen : ℕ) : CommandArrays :=
  ⟨.allocate (groupLen + 1), .allocate (groupLen + 1), .allocate (groupLen + 1)⟩

/-- `argv[argc] = NULL`. -/
def terminate (cmd : CommandArrays) : Option CommandArrays :=
  (cmd.argv.store cmd.argv.used none).map fun argv ↦ { cmd with argv }

def storeArg (value : Option (List Byte)) (cmd : CommandArrays) : Option CommandArrays :=
  (cmd.argv.storeNext value).map fun argv ↦ { cmd with argv }

def storeInput (value : Option (List Byte)) (cmd : CommandArrays) : Option CommandArrays :=
  (cmd.inputFiles.storeNext value).map fun inputFiles ↦ { cmd with inputFiles }

def storeOutput (isAppend : Bool) (value : Option (List Byte)) (cmd : CommandArrays) :
    Option CommandArrays :=
  (cmd.outputFiles.storeNext ⟨value, isAppend⟩).map fun outputFiles ↦ { cmd with outputFiles }

def storeRedirection : TokenType → Option (List Byte) → CommandArrays → Option CommandArrays
  | .lt, value => storeInput value
  | .gt, value => storeOutput false value
  | .gtgt, value => storeOutput true value
  | _, _ => some

/-- What the arrays hold. -/
def contents (cmd : CommandArrays) : SingleCommand :=
  ⟨cmd.argv.contents, cmd.inputFiles.contents, cmd.outputFiles.contents⟩

end CommandArrays

/-- An operation on `cmds[cmdIdx]`, which has to be one of the records. -/
def atCommand (cmds : List CommandArrays) (cmdIdx : ℕ)
    (f : CommandArrays → Option CommandArrays) : Option (List CommandArrays) :=
  cmds[cmdIdx]?.bind fun cmd ↦ (f cmd).map (cmds.set cmdIdx)

/-- The loop that fills `cmds`, with its last `cmd_idx`. -/
def fillLoop : List Token → List CommandArrays → ℕ → Option (List CommandArrays × ℕ)
  | [], cmds, cmdIdx => some (cmds, cmdIdx)
  | t :: tokens, cmds, cmdIdx =>
    if t.type = .pipe then
      (atCommand cmds cmdIdx CommandArrays.terminate).bind
        fun cmds ↦ fillLoop tokens cmds (cmdIdx + 1)
    else if isRedirection t.type then
      match tokens with
      | [] => some (cmds, cmdIdx)
      | w :: rest =>
        if w.type = .word then
          (atCommand cmds cmdIdx (CommandArrays.storeRedirection t.type w.value)).bind
            fun cmds ↦ fillLoop rest cmds cmdIdx
        else fillLoop (w :: rest) cmds cmdIdx
    else if t.type = .word then
      (atCommand cmds cmdIdx (CommandArrays.storeArg t.value)).bind
        fun cmds ↦ fillLoop tokens cmds cmdIdx
    else fillLoop tokens cmds cmdIdx

/-- From the allocation of the arrays to the last `NULL`. -/
def fillCommands (group : List Token) : Option (List CommandArrays) :=
  (fillLoop group (List.replicate (numCmds group) (.allocate group.length)) 0).bind
    fun r ↦ atCommand r.1 r.2 CommandArrays.terminate

/-- The arrays of one command store a command, with at most `m` elements each. -/
structure CommandArrays.Stores (n m : ℕ) (cells : CommandArrays) (cmd : SingleCommand) : Prop where
  argv : GrowArray.Fits (n + 1) m cells.argv cmd.argv
  inputFiles : GrowArray.Fits (n + 1) m cells.inputFiles cmd.inputFiles
  outputFiles : GrowArray.Fits (n + 1) m cells.outputFiles cmd.outputFiles

namespace CommandArrays.Stores

variable {n m : ℕ} {cells : CommandArrays} {cmd : SingleCommand}

theorem mono (h : cells.Stores n m cmd) (hm : m ≤ m') : cells.Stores n m' cmd :=
  ⟨h.argv.mono hm, h.inputFiles.mono hm, h.outputFiles.mono hm⟩

theorem allocate (n : ℕ) : (CommandArrays.allocate n).Stores n 0 .empty :=
  ⟨GrowArray.fits_allocate _, GrowArray.fits_allocate _, GrowArray.fits_allocate _⟩

theorem contents_eq (h : cells.Stores n m cmd) : cells.contents = cmd := by
  rw [contents, h.argv.holds.contents_eq, h.inputFiles.holds.contents_eq,
    h.outputFiles.holds.contents_eq]

theorem terminate (h : cells.Stores n m cmd) (hm : m ≤ n) :
    ∃ cells', cells.terminate = some cells' ∧ cells'.Stores n m cmd := by
  obtain ⟨argv, hstore, hargv⟩ := h.argv.store (Nat.lt_succ_of_le hm) none
  exact ⟨{ cells with argv }, by rw [CommandArrays.terminate, hstore, Option.map_some],
    { h with argv := hargv }⟩

theorem storeArg (h : cells.Stores n m cmd) (hm : m ≤ n) (value : Option (List Byte)) :
    ∃ cells', cells.storeArg value = some cells' ∧ cells'.Stores n (m + 1) (cmd.addArg value) := by
  obtain ⟨argv, hstore, hargv⟩ := h.argv.storeNext (Nat.lt_succ_of_le hm) value
  exact ⟨{ cells with argv }, by rw [CommandArrays.storeArg, hstore, Option.map_some],
    { h.mono (Nat.le_succ m) with argv := hargv }⟩

theorem storeInput (h : cells.Stores n m cmd) (hm : m ≤ n) (value : Option (List Byte)) :
    ∃ cells', cells.storeInput value = some cells' ∧
      cells'.Stores n (m + 1) (cmd.addInput value) := by
  obtain ⟨inputFiles, hstore, hinput⟩ := h.inputFiles.storeNext (Nat.lt_succ_of_le hm) value
  exact ⟨{ cells with inputFiles }, by rw [CommandArrays.storeInput, hstore, Option.map_some],
    { h.mono (Nat.le_succ m) with inputFiles := hinput }⟩

theorem storeOutput (h : cells.Stores n m cmd) (hm : m ≤ n) (isAppend : Bool)
    (value : Option (List Byte)) :
    ∃ cells', cells.storeOutput isAppend value = some cells' ∧
      cells'.Stores n (m + 1) (cmd.addOutput isAppend value) := by
  obtain ⟨outputFiles, hstore, houtput⟩ :=
    h.outputFiles.storeNext (Nat.lt_succ_of_le hm) ⟨value, isAppend⟩
  exact ⟨{ cells with outputFiles }, by rw [CommandArrays.storeOutput, hstore, Option.map_some],
    { h.mono (Nat.le_succ m) with outputFiles := houtput }⟩

theorem storeRedirection (h : cells.Stores n m cmd) (hm : m ≤ n) (type : TokenType)
    (value : Option (List Byte)) :
    ∃ cells', cells.storeRedirection type value = some cells' ∧
      cells'.Stores n (m + 1) (addRedirection type value cmd) := by
  cases type with
  | lt => exact h.storeInput hm value
  | gt => exact h.storeOutput hm false value
  | gtgt => exact h.storeOutput hm true value
  | _ => exact ⟨cells, rfl, h.mono (Nat.le_succ m)⟩

end CommandArrays.Stores

/-- The arrays of all commands. -/
structure AllStore (n m : ℕ) (arrays : List CommandArrays) (cmds : List SingleCommand) : Prop where
  length_eq : arrays.length = cmds.length
  stores : ∀ (i : ℕ) (cells : CommandArrays) (cmd : SingleCommand), arrays[i]? = some cells →
    cmds[i]? = some cmd → cells.Stores n m cmd

variable {arrays : List CommandArrays} {cmds : List SingleCommand} {n m i : ℕ}
  {f : CommandArrays → Option CommandArrays} {g : SingleCommand → SingleCommand}

theorem AllStore.map_contents (h : AllStore n m arrays cmds) : arrays.map (·.contents) = cmds := by
  refine List.ext_getElem (by rw [List.length_map, h.length_eq]) fun i hi hi' ↦ ?_
  rw [List.length_map] at hi
  rw [List.getElem_map]
  exact (h.stores i _ _ (List.getElem?_eq_getElem hi) (List.getElem?_eq_getElem hi')).contents_eq

theorem AllStore.mono (h : AllStore n m arrays cmds) (hm : m ≤ m') : AllStore n m' arrays cmds :=
  ⟨h.length_eq, fun i cells cmd hcells hcmd ↦ (h.stores i cells cmd hcells hcmd).mono hm⟩

/-- An operation that goes through on one command and has its intended effect there. -/
theorem AllStore.atCommand (h : AllStore n m arrays cmds) (hm : m ≤ m') (hi : i < arrays.length)
    (hf : ∀ cells cmd, cells.Stores n m cmd →
      ∃ cells', f cells = some cells' ∧ cells'.Stores n m' (g cmd)) :
    ∃ arrays', atCommand arrays i f = some arrays' ∧ arrays'.length = arrays.length ∧
      AllStore n m' arrays' (cmds.modify i g) := by
  have hi' : i < cmds.length := h.length_eq ▸ hi
  have hget := List.getElem?_eq_getElem hi
  have hget' := List.getElem?_eq_getElem hi'
  obtain ⟨cells', hcells', hstores⟩ := hf _ _ (h.stores i _ _ hget hget')
  refine ⟨arrays.set i cells', by simp [Shell.atCommand, hget, hcells'],
    List.length_set, ?_⟩
  refine ⟨by simpa using h.length_eq, fun j cells cmd hcells hcmd ↦ ?_⟩
  rw [List.getElem?_modify] at hcmd
  rcases eq_or_ne i j with rfl | hij
  · rw [List.getElem?_set_self hi] at hcells
    rw [hget'] at hcmd
    cases hcells
    obtain rfl : g cmds[i] = cmd := by simpa using hcmd
    exact hstores
  · rw [List.getElem?_set_ne hij] at hcells
    have hsame : cmds[j]? = some cmd := by simpa [hij] using hcmd
    exact (h.stores j cells cmd hcells hsame).mono hm

/-- Every write of the loop goes through. One token takes at most one cell of an array, so that
the number `m` of cells in use and the number of tokens left stay within the length of the group;
and there are as many records left as there are pipes. -/
theorem fillLoop_stores (tokens : List Token) (cmdIdx : ℕ) (h : AllStore n m arrays cmds)
    (hm : m + tokens.length ≤ n) (hlength : arrays.length = cmdIdx + numCmds tokens) :
    ∃ arrays' last, fillLoop tokens arrays cmdIdx = some (arrays', last) ∧
      last < arrays'.length ∧ AllStore n n arrays' (buildLoop tokens cmds cmdIdx) := by
  fun_induction buildLoop tokens cmds cmdIdx generalizing m arrays with
  | case1 _ cmdIdx =>
    refine ⟨arrays, cmdIdx, rfl, ?_, h.mono hm⟩
    simp only [hlength, numCmds]
    omega
  | case2 _ _ _ cmdIdx hpipe ih =>
    rw [numCmds_cons, if_pos hpipe] at hlength
    rw [List.length_cons] at hm
    obtain ⟨arrays₁, hat, hlength₁, h₁⟩ := h.atCommand (g := id) (Nat.le_refl m) (i := cmdIdx)
      (by omega) (fun _ _ hstores ↦ hstores.terminate (by omega))
    rw [List.modify_id] at h₁
    obtain ⟨arrays', last, hfill, hlast⟩ := ih h₁ (by omega) (by omega)
    refine ⟨arrays', last, ?_, hlast⟩
    rw [fillLoop.eq_def]
    simp [hpipe, hat, hfill]
  | case3 _ _ cmdIdx hpipe hredir =>
    rw [numCmds_cons, if_neg hpipe] at hlength
    refine ⟨arrays, cmdIdx, by simp [fillLoop, hpipe, hredir], ?_, h.mono (by omega)⟩
    simp only [hlength, numCmds]
    omega
  | case4 t _ cmdIdx hpipe hredir w rest hword ih =>
    rw [numCmds_cons, numCmds_cons, if_neg hpipe, if_neg (by rw [hword]; decide)] at hlength
    rw [List.length_cons, List.length_cons] at hm
    have hpos : 1 ≤ numCmds rest := Nat.le_add_right 1 _
    obtain ⟨arrays₁, hat, hlength₁, h₁⟩ := h.atCommand (Nat.le_succ m) (i := cmdIdx) (by omega)
      (fun _ _ hstores ↦ hstores.storeRedirection (by omega) t.type w.value)
    obtain ⟨arrays', last, hfill, hlast⟩ := ih h₁ (by omega) (by omega)
    refine ⟨arrays', last, ?_, hlast⟩
    simp [fillLoop, hpipe, hredir, hword, hat, hfill]
  | case5 _ _ _ hpipe hredir _ _ hword ih | case7 _ _ _ _ hpipe hredir hword ih =>
    rw [numCmds_cons, if_neg hpipe] at hlength
    rw [List.length_cons] at hm
    obtain ⟨arrays', last, hfill, hlast⟩ := ih h (by omega) (by omega)
    refine ⟨arrays', last, ?_, hlast⟩
    rw [fillLoop.eq_def]
    simp [hpipe, hredir, hword, hfill]
  | case6 t tokens _ cmdIdx hpipe _ hword ih =>
    rw [numCmds_cons, if_neg hpipe] at hlength
    rw [List.length_cons] at hm
    have hpos : 1 ≤ numCmds tokens := Nat.le_add_right 1 _
    obtain ⟨arrays₁, hat, hlength₁, h₁⟩ := h.atCommand (Nat.le_succ m) (i := cmdIdx) (by omega)
      (fun _ _ hstores ↦ hstores.storeArg (by omega) t.value)
    obtain ⟨arrays', last, hfill, hlast⟩ := ih h₁ (by omega) (by omega)
    refine ⟨arrays', last, ?_, hlast⟩
    rw [fillLoop.eq_def]
    simp [hword, isRedirection, hat, hfill]

theorem fillCommands_stores (group : List Token) :
    ∃ arrays, fillCommands group = some arrays ∧
      arrays.map (·.contents) = buildCommands group := by
  have hstart : AllStore group.length 0
      (List.replicate (numCmds group) (.allocate group.length))
      (List.replicate (numCmds group) .empty) := by
    refine ⟨by simp, fun i cells cmd hcells hcmd ↦ ?_⟩
    rw [List.getElem?_replicate] at hcells hcmd
    obtain ⟨-, hcells⟩ := Option.ite_none_right_eq_some.mp hcells
    obtain ⟨-, hcmd⟩ := Option.ite_none_right_eq_some.mp hcmd
    cases hcells
    cases hcmd
    exact CommandArrays.Stores.allocate _
  obtain ⟨arrays, last, hfill, hlast, hstores⟩ := fillLoop_stores group 0 hstart
    (by omega) (by simp)
  obtain ⟨arrays', hat, -, hstores'⟩ := hstores.atCommand (g := id) le_rfl hlast
    (fun _ _ h ↦ h.terminate le_rfl)
  rw [List.modify_id] at hstores'
  exact ⟨arrays', by simp [fillCommands, hfill, hat], hstores'.map_contents⟩

/-- What `executor_execute_group` makes of a group. For every list of tokens the arrays are big
enough and hold the commands of the model; for a pipeline these are the commands its parts stand
for, and the words of the group are distributed over them. -/
theorem executorExecuteGroup_decomposition (group : List Token) :
    (∃ arrays, fillCommands group = some arrays ∧
      arrays.map (·.contents) = buildCommands group) ∧
    (Grammar.Pipeline group →
      buildCommands group = (group.splitOnP (·.type = .pipe)).map commandOf ∧
      ((buildCommands group).flatMap SingleCommand.words).Perm (wordsOf group)) := by
  refine ⟨fillCommands_stores group, fun h ↦ ?_⟩
  have hbuild : buildCommands group = (group.splitOnP (·.type = .pipe)).map commandOf :=
    buildLoop_pipeline h []
  refine ⟨hbuild, ?_⟩
  rw [hbuild]
  exact words_pipeline h

/-- `sort < i > o | wc x >> p`. -/
def sortPipeline : List Token :=
  [⟨.word, some [115]⟩, ⟨.lt, none⟩, ⟨.word, some [105]⟩, ⟨.gt, none⟩, ⟨.word, some [111]⟩,
    ⟨.pipe, none⟩, ⟨.word, some [119]⟩, ⟨.word, some [120]⟩, ⟨.gtgt, none⟩, ⟨.word, some [112]⟩]

theorem executorExecuteGroup_sortPipeline :
    buildCommands sortPipeline =
      [⟨[some [115]], [some [105]], [⟨some [111], false⟩]⟩,
        ⟨[some [119], some [120]], [], [⟨some [112], true⟩]⟩] ∧
    ((buildCommands sortPipeline).flatMap SingleCommand.words).Perm (wordsOf sortPipeline) := by
  have hfirst : Grammar.Command (sortPipeline.take 5) :=
    .intro rfl (.redirection rfl rfl (.redirection rfl rfl .nil))
  have hsecond : Grammar.Command (sortPipeline.drop 6) :=
    .intro rfl (.word rfl (.redirection rfl rfl .nil))
  have hpipeline : Grammar.Pipeline sortPipeline :=
    .cons (t := ⟨.pipe, none⟩) hfirst rfl (.single hsecond)
  obtain ⟨-, hcommands⟩ := executorExecuteGroup_decomposition sortPipeline
  obtain ⟨hbuild, hwords⟩ := hcommands hpipeline
  exact ⟨hbuild.trans rfl, hwords⟩

end Irish.Shell
