import Irish.Library.Stdio
import Irish.Shell.Wiring

/-!
# Where the output of a builtin goes

A builtin prints through the buffered `stdout` of the process it runs in. In the foreground and
alone it runs in the shell: `executor_execute_group` saves the standard descriptors with `dup`,
redirects them with `dup2`, and restores them when the builtin has returned. In a pipeline or in the
background it runs in a child of `pipes_execute`, which ends by `_exit`. `hop`, `reveal`, `peek` and
`locate` do not flush `stdout` before they return, so what is still in the buffer then follows the
restored descriptor, or is lost with the child.

A byte keeps where it came from. What the builtin prints and returns is an argument. Writes to an
open descriptor succeed, and the file a distributor copies to is represented by its pipe.
-/

set_option autoImplicit false

namespace Irish.Shell

open Library

inductive Origin
  | earlier
  | builtin
deriving DecidableEq, Repr

structure OutByte where
  origin : Origin
  byte : Byte
deriving DecidableEq, Repr

namespace OutByte

def isNewline (b : OutByte) : Bool := b.byte = 10

def ofBuiltin (b : OutByte) : Bool := b.origin = .builtin

end OutByte

/-- The size of a buffer and what earlier output has left in it. -/
structure StdoutBuffer where
  buffering : Buffering
  capacity : ℕ
  atOnce : ℕ → Bool
  earlier : List Byte
  pos : 0 < capacity
  room : earlier.length ≤ capacity

/-- `stdout`, with the bytes of earlier output that are not yet written. -/
def StdoutBuffer.stream (b : StdoutBuffer) : OutStream OutByte :=
  ⟨b.buffering, b.capacity, b.atOnce, b.earlier.map (⟨.earlier, ·⟩), b.pos,
    by rw [List.length_map]; exact b.room⟩

/-- What a `write` to standard output reaches: `none` if the descriptor is closed. -/
structure Write where
  target : Option Description
  bytes : List OutByte
deriving DecidableEq

/-- The builtin's bytes among some bytes. -/
def builtinBytes (l : List OutByte) : List Byte := (l.filter OutByte.ofBuiltin).map OutByte.byte

/-- The builtin's bytes that have reached the file `d`. -/
def reached (d : Description) (writes : List Write) : List Byte :=
  writes.flatMap fun w ↦ if w.target = some d then builtinBytes w.bytes else []

/-- What the builtin prints, on its way to `stdout`. -/
def printBuiltin (stdout : OutStream OutByte) (printed : List Byte) :
    List OutByte × OutStream OutByte :=
  stdout.print OutByte.isNewline (printed.map (⟨.builtin, ·⟩))

/-! ### In the shell -/

/-- The results of the calls made for a builtin in the shell. -/
structure BuiltinOutcome where
  input : SetupOutcome
  output : SetupOutcome
  dupStdin : Bool
  dupStdout : Bool

structure BuiltinRun where
  status : ℤ
  table : Table
  stdout : OutStream OutByte
  writes : List Write
  message : Option Message

/-- `saved = dup(std); dup2(fd, std); close(fd)`, for a descriptor that was set up; `none` is -1. -/
def redirectStd (std : ℕ) (fd : Option ℕ) (dupOk : Bool) (t : Table) : Option ℕ × Table :=
  match fd with
  | none => (none, t)
  | some fd =>
    let saved := if dupOk then t.dup std else none
    let t := (saved.map Prod.snd).getD t
    (saved.map Prod.fst, ((t.dup2 fd std).getD t).close fd)

/-- `dup2(saved, std); close(saved)`, if there is one. -/
def restoreStd (std : ℕ) (saved : Option ℕ) (t : Table) : Table :=
  match saved with
  | none => t
  | some saved => ((t.dup2 saved std).getD t).close saved

/-- The branch of `executor_execute_group` for a builtin that prints `printed` and returns `ret`.
A set-up of no files does nothing, so the tests of `num_inputs` and `num_outputs` are left to it. -/
def executeBuiltin (shellPgid : ℕ+) (cmd : SingleCommand) (o : BuiltinOutcome) (printed : List Byte)
    (ret : ℤ) (t : Table) (stdout : OutStream OutByte) : BuiltinRun :=
  let input := redirectSetupInput 0 cmd shellPgid o.input t
  match input.error with
  | some message => ⟨-1, input.table, stdout, [], some message⟩
  | none =>
    let stdin := redirectStd 0 input.fd o.dupStdin input.table
    let output := redirectSetupOutput 0 cmd shellPgid o.output stdin.2
    match output.error with
    | some message => ⟨-1, restoreStd 0 stdin.1 output.table, stdout, [], some message⟩
    | none =>
      let out := redirectStd 1 output.fd o.dupStdout output.table
      let printing := printBuiltin stdout printed
      ⟨ret, restoreStd 1 out.1 (restoreStd 0 stdin.1 out.2), printing.2,
        [⟨out.2.get 1, printing.1⟩], none⟩

/-- The writes of the call and the one of the next `fflush(stdout)`, which `print_prompt` makes. -/
def BuiltinRun.throughPrompt (r : BuiltinRun) : List Write :=
  r.writes ++ [⟨r.table.get 1, r.stdout.pending⟩]

/-- All the bytes reach the target of the redirection, and none the file that standard output was
before. -/
def OutputRedirected (cmd : SingleCommand) (original : Description) (printed : List Byte)
    (r : BuiltinRun) : Prop :=
  (∃ target, redirectedStdout 0 cmd = some target ∧ reached target r.throughPrompt = printed) ∧
    reached original r.throughPrompt = []

/-! ### In a child of a pipeline -/

/-- A child with the descriptors `fds` runs the builtin and ends by `_exit`, which drops what is
still in the buffer. -/
def childWrites (fds : Table) (stdout : OutStream OutByte) (printed : List Byte) : List Write :=
  [⟨fds.get 1, (printBuiltin stdout printed).1⟩]

/-! ### The descriptors -/

variable {std j s fd : ℕ} {saved : Option ℕ} {d e original : Description} {t : Table}
  {cmd : SingleCommand} {o : SetupOutcome}

theorem get_restoreStd (hj : j ≠ std) (hsaved : saved ≠ some j) (t : Table) :
    (restoreStd std saved t).get j = t.get j := by
  cases saved with
  | none => rfl
  | some s =>
    have hs : j ≠ s := fun h ↦ hsaved (by rw [h])
    cases hget : t.get s with
    | none => simp [restoreStd, DescriptorTable.dup2, hget, hs]
    | some d => simp [restoreStd, DescriptorTable.dup2, hget, hj, hs]

theorem get_restoreStd_self (hget : t.get s = some d) (hne : s ≠ std) :
    (restoreStd std (some s) t).get std = some d := by
  simp [restoreStd, DescriptorTable.dup2, hget, hne.symm]

/-- What `redirectStd` does with a descriptor that was set up. -/
structure Redirected (std fd : ℕ) (dupOk : Bool) (d e : Description) (t : Table)
    (r : Option ℕ × Table) : Prop where
  redirected : r.2.get std = some e
  unsaved : dupOk = false → r.1 = none
  saved : dupOk = true → ∃ s, r.1 = some s
  saved_free : ∀ s, r.1 = some s → t.get s = none ∧ r.2.get s = some d
  same : ∀ j, j ≠ std → j ≠ fd → t.get j ≠ none → r.2.get j = t.get j

theorem redirected_redirectStd (dupOk : Bool) (hstd : t.get std = some d) (hfd : t.get fd = some e)
    (hne : fd ≠ std) : Redirected std fd dupOk d e t (redirectStd std (some fd) dupOk t) := by
  cases dupOk with
  | false =>
    have hr : redirectStd std (some fd) false t = (none, (t.install std e).close fd) := by
      simp [redirectStd, DescriptorTable.dup2, hfd]
    rw [hr]
    constructor
    · simp [hne.symm]
    · exact fun _ ↦ rfl
    · simp
    · simp
    · intro j hj hj' _
      simp [hj, hj']
  | true =>
    have hfree := t.get_lowestFree
    have hopened := DescriptorTable.opened_openFirst t d
    have hfd' := hopened.get_some hfd
    have hr : redirectStd std (some fd) true t =
        (some t.lowestFree, (((t.openFirst d).2).install std e).close fd) := by
      simp only [redirectStd, DescriptorTable.dup, hstd, DescriptorTable.dup2, if_true,
        Option.map_some, Option.getD_some, hfd']
      rfl
    have hstd' : t.lowestFree ≠ std := by
      rintro rfl
      cases hstd.symm.trans hfree
    have hfd'' : t.lowestFree ≠ fd := by
      rintro rfl
      cases hfd.symm.trans hfree
    rw [hr]
    constructor
    · simp [hne.symm]
    · simp
    · exact fun _ ↦ ⟨_, rfl⟩
    · rintro s hs
      cases hs
      refine ⟨hfree, ?_⟩
      have hget : (t.openFirst d).2.get t.lowestFree = some d := DescriptorTable.get_openFirst t d
      simp [hstd', hfd'', hget]
    · intro j hj hj' hopen
      simp [hj, hj', hopened.keeps hopen]

theorem exists_redirectedStdout (hpos : 0 < cmd.numOutputs) :
    ∃ target, redirectedStdout 0 cmd = some target ∧ ∀ id, target ≠ .shell id := by
  unfold SingleCommand.numOutputs at hpos
  rcases hfiles : cmd.outputFiles with _ | ⟨file, _ | ⟨file', files⟩⟩
  · simp [hfiles] at hpos
  · exact ⟨.output 0 0 file, by simp [redirectedStdout, hfiles, redirectTarget], by simp⟩
  · exact ⟨.helper .output 0 .write, by simp [redirectedStdout, hfiles, redirectTarget,
      Redirection.keptSide], by simp⟩

/-- A set-up of output files returns a descriptor of the target. -/
theorem redirectSetupOutput_target (shellPgid : ℕ+) (t : Table) (h : SetupOk cmd.numOutputs o)
    (hpos : 0 < cmd.numOutputs) :
    let r := redirectSetupOutput 0 cmd shellPgid o t
    ∃ fd target, r.fd = some fd ∧ redirectedStdout 0 cmd = some target ∧
      (∀ id, target ≠ .shell id) ∧ r.table.get fd = some target := by
  intro r
  obtain ⟨target, htarget, hshell⟩ := exists_redirectedStdout hpos
  have hbind : r.fd.bind r.table.get = some target := by
    rw [← htarget]
    exact bind_redirectSetupOutput 0 shellPgid t h
  obtain ⟨fd, hfd, hget⟩ := Option.bind_eq_some_iff.mp hbind
  exact ⟨fd, target, hfd, htarget, hshell, hget⟩

/-! ### The bytes -/

theorem builtinBytes_append (l l' : List OutByte) :
    builtinBytes (l ++ l') = builtinBytes l ++ builtinBytes l' := by
  simp [builtinBytes]

theorem map_builtinBytes (l : List OutByte) :
    (builtinBytes l).map (⟨.builtin, ·⟩) = l.filter OutByte.ofBuiltin := by
  rw [builtinBytes, List.map_map]
  conv_rhs => rw [← List.map_id (l.filter OutByte.ofBuiltin)]
  refine List.map_congr_left fun b hb ↦ ?_
  have horigin : b.origin = .builtin := by
    simpa [OutByte.ofBuiltin] using (List.mem_filter.mp hb).2
  rw [Function.comp_apply, ← horigin]
  rfl

theorem builtinBytes_eq_iff (l : List OutByte) (printed : List Byte) :
    builtinBytes l = printed ↔ l.filter OutByte.ofBuiltin = printed.map (⟨.builtin, ·⟩) := by
  rw [← map_builtinBytes]
  exact (List.map_injective_iff.mpr fun a b hab ↦ (OutByte.mk.inj hab).2).eq_iff.symm

section Printing

variable (b : StdoutBuffer) (printed : List Byte)

/-- The output leaves nothing in the buffer: there is none, or its last byte is a newline on a
line-buffered stream, or the bytes since the last such newline (or since the last write) fill whole
buffers and the last one is not kept back. -/
def Drained : Prop :=
  printed = [] ∨ b.stream.Drains OutByte.isNewline (printed.map (⟨.builtin, ·⟩))

theorem not_ofBuiltin_pending : ∀ x ∈ b.stream.pending, x.ofBuiltin = false := by
  intro x hx
  obtain ⟨byte, -, rfl⟩ := List.mem_map.mp hx
  rfl

theorem ofBuiltin_printed (printed : List Byte) :
    ∀ x ∈ printed.map (OutByte.mk .builtin), x.ofBuiltin = true := by
  intro x hx
  obtain ⟨byte, -, rfl⟩ := List.mem_map.mp hx
  rfl

theorem builtinBytes_written_iff :
    builtinBytes (printBuiltin b.stream printed).1 = printed ↔ Drained b printed := by
  rw [builtinBytes_eq_iff]
  refine (OutStream.filter_written_eq_iff _ (not_ofBuiltin_pending b)
    (ofBuiltin_printed printed)).trans ?_
  rw [Drained, List.map_eq_nil_iff]

/-- What the builtin prints is written or still pending. -/
theorem builtinBytes_written_append :
    builtinBytes (printBuiltin b.stream printed).1 ++
      builtinBytes (printBuiltin b.stream printed).2.pending = printed := by
  rw [← builtinBytes_append, builtinBytes_eq_iff, List.filter_append]
  exact OutStream.filter_written_append _ (not_ofBuiltin_pending b) (ofBuiltin_printed printed)

end Printing

/-! ### Both ways -/

/-- After a builtin with redirected output, its writes have gone to the target, and standard output
is the original again unless it could not be saved. -/
theorem executeBuiltin_redirected {o : BuiltinOutcome} (shellPgid : ℕ+) (printed : List Byte)
    (ret : ℤ) (stdout : OutStream OutByte) (hstdin : t.get 0 ≠ none)
    (hstdout : t.get 1 = some original) (hinput : SetupOk cmd.numInputs o.input)
    (houtput : SetupOk cmd.numOutputs o.output) (hpos : 0 < cmd.numOutputs) :
    let r := executeBuiltin shellPgid cmd o printed ret t stdout
    ∃ target, redirectedStdout 0 cmd = some target ∧ (∀ id, target ≠ .shell id) ∧
      r.writes = [⟨some target, (printBuiltin stdout printed).1⟩] ∧
      r.stdout = (printBuiltin stdout printed).2 ∧
      r.table.get 1 = some (if o.dupStdout then original else target) := by
  obtain ⟨herror, hopened⟩ := (setupSpec_input 0 cmd shellPgid o.input t).ok hinput
  simp only [executeBuiltin, herror]
  generalize redirectSetupInput 0 cmd shellPgid o.input t = input at hopened ⊢
  -- The input is set up beside the standard descriptors, so standard output is not touched by it.
  obtain ⟨hzero, hone, hsaved⟩ : (redirectStd 0 input.fd o.dupStdin input.table).2.get 0 ≠ none ∧
      (redirectStd 0 input.fd o.dupStdin input.table).2.get 1 = some original ∧
      ∀ s, (redirectStd 0 input.fd o.dupStdin input.table).1 = some s →
        (redirectStd 0 input.fd o.dupStdin input.table).2.get s ≠ none ∧ s ≠ 1 := by
    have hzero' : input.table.get 0 ≠ none := hopened.keeps hstdin ▸ hstdin
    have hone' := hopened.get_some hstdout
    cases hfd : input.fd with
    | none => exact ⟨hzero', hone', nofun⟩
    | some fd =>
      rw [hfd] at hopened
      obtain ⟨e, hget, -⟩ := hopened.refers fd (List.mem_singleton_self fd)
      obtain ⟨d, hd⟩ := Option.ne_none_iff_exists'.mp hzero'
      have hne (j : ℕ) (hj : t.get j ≠ none) : fd ≠ j := by
        rintro rfl
        exact hj (hopened.free fd (List.mem_singleton_self fd))
      have hr := redirected_redirectStd o.dupStdin hd hget (hne 0 hstdin)
      refine ⟨by simp [hr.redirected], ?_, fun s hs ↦ ?_⟩
      · rw [hr.same 1 Nat.one_ne_zero (hne 1 (by simp [hstdout])).symm (by simp [hone']), hone']
      · obtain ⟨hfree, hgets⟩ := hr.saved_free s hs
        refine ⟨by simp [hgets], ?_⟩
        rintro rfl
        cases hone'.symm.trans hfree
  generalize redirectStd 0 input.fd o.dupStdin input.table = stdin at hzero hone hsaved ⊢
  obtain ⟨herror', hopened'⟩ := (setupSpec_output 0 cmd shellPgid o.output stdin.2).ok houtput
  obtain ⟨fd, target, hfd, htarget, hshell, hget⟩ :=
    redirectSetupOutput_target shellPgid stdin.2 houtput hpos
  simp only [herror']
  generalize redirectSetupOutput 0 cmd shellPgid o.output stdin.2 = output at *
  rw [hfd] at hopened' ⊢
  have hne (j : ℕ) (hj : stdin.2.get j ≠ none) : fd ≠ j := by
    rintro rfl
    exact hj (hopened'.free fd (List.mem_singleton_self fd))
  have hr := redirected_redirectStd o.dupStdout (hopened'.get_some hone) hget
    (hne 1 (by simp [hone]))
  generalize redirectStd 1 (some fd) o.dupStdout output.table = out at hr ⊢
  refine ⟨target, htarget, hshell, by rw [hr.redirected], trivial, ?_⟩
  have hkeep (j : ℕ) (hj : j ≠ 0) (hopen : out.1 = some j ∨ j = 1) :
      (restoreStd 0 stdin.1 out.2).get j = out.2.get j := by
    refine get_restoreStd hj (fun hs ↦ ?_) _
    obtain ⟨hsome, hone⟩ := hsaved j hs
    rcases hopen with hout | rfl
    · exact hopened'.keeps hsome ▸ hsome <| (hr.saved_free j hout).1
    · exact hone rfl
  cases hdup : o.dupStdout with
  | false =>
    rw [hr.unsaved hdup]
    exact (hkeep 1 Nat.one_ne_zero (.inr rfl)).trans hr.redirected
  | true =>
    obtain ⟨s, hs⟩ := hr.saved hdup
    obtain ⟨hfree, hgets⟩ := hr.saved_free s hs
    have hne_of (j : ℕ) (hj : stdin.2.get j ≠ none) : s ≠ j := by
      rintro rfl
      exact hopened'.keeps hj ▸ hj <| hfree
    rw [hs, if_pos rfl]
    refine get_restoreStd_self ?_ (hne_of 1 (by simp [hone]))
    rw [hkeep s (hne_of 0 hzero) (.inl hs), hgets]

/-- The output of `hop`, `reveal`, `peek` and `locate` goes where it was redirected exactly if it
leaves nothing in the buffer; in the shell also if standard output could not be saved and therefore
stays redirected. -/
theorem builtinOutput_iff {cmd : SingleCommand} {o : BuiltinOutcome} {t : Table} {id : ℕ}
    (shellPgid : ℕ+) (ret : ℤ) (b : StdoutBuffer) (printed : List Byte) (hstdin : t.get 0 ≠ none)
    (hstdout : t.get 1 = some (.shell id)) (hinput : SetupOk cmd.numInputs o.input)
    (houtput : SetupOk cmd.numOutputs o.output) (hpos : 0 < cmd.numOutputs) :
    (OutputRedirected cmd (.shell id) printed
        (executeBuiltin shellPgid cmd o printed ret t b.stream) ↔
      o.dupStdout = false ∨ Drained b printed) ∧
    ∀ (fds : Table) (d : Description), fds.get 1 = some d →
      (reached d (childWrites fds b.stream printed) = printed ↔ Drained b printed) := by
  constructor
  · obtain ⟨target, htarget, hshell, hwrites, hstream, hget⟩ := executeBuiltin_redirected shellPgid
      printed ret b.stream hstdin hstdout hinput houtput hpos
    have hsplit := builtinBytes_written_append b printed
    unfold OutputRedirected BuiltinRun.throughPrompt
    rw [hwrites, hstream, hget, ← builtinBytes_written_iff]
    generalize printBuiltin b.stream printed = printing at *
    have hne : target ≠ .shell id := hshell id
    cases hdup : o.dupStdout with
    | false => simp [reached, htarget, hne, hsplit]
    | true =>
      -- What is pending goes to the original, so the target has what was written before.
      simp only [reached, htarget, hne.symm, List.flatMap_append, List.flatMap_cons,
        List.flatMap_nil, Option.some.injEq, exists_eq_left', if_true, if_false, hne,
        List.append_nil, List.nil_append, Bool.true_eq_false, false_or]
      constructor
      · exact fun hboth ↦ hboth.1
      · intro hall
        rw [hall] at hsplit
        exact ⟨hall, List.append_right_eq_self.mp hsplit⟩
  · intro fds d hd
    rw [← builtinBytes_written_iff]
    simp [reached, childWrites, hd]

/-- An empty buffer that is kept until a byte comes for which there is no room. -/
def emptyBuffer (buffering : Buffering) (capacity : ℕ+) : StdoutBuffer :=
  ⟨buffering, capacity, fun _ ↦ false, [], capacity.pos, Nat.zero_le _⟩

/-- `locate x > f` in a shell with a terminal as standard output. -/
theorem builtinOutput_line_buffered :
    let cmd : SingleCommand := ⟨[some Builtin.locate.name, some [120]], [], [⟨some [102], false⟩]⟩
    let o : SetupOutcome := ⟨fun _ ↦ true, true, none⟩
    let t : Table := ⟨[some (.shell 0), some (.shell 1), some (.shell 2)]⟩
    let stdout := (emptyBuffer .line 1024).stream
    OutputRedirected cmd (.shell 1) [47, 120, 10]
        (executeBuiltin 1 cmd ⟨o, o, true, true⟩ [47, 120, 10] 0 t stdout) ∧
      reached (.shell 1) (childWrites t stdout [47, 120, 10]) = [47, 120, 10] := by
  intro cmd o t stdout
  have hdrained : Drained (emptyBuffer .line 1024) [47, 120, 10] := .inr (.inl (by decide))
  have hiff := @builtinOutput_iff cmd ⟨o, o, true, true⟩ t 1 1 0 (emptyBuffer .line 1024)
    [47, 120, 10] (by decide) rfl (by decide) (by decide) (by decide)
  exact ⟨hiff.1.mpr (.inr hdrained), (hiff.2 t _ rfl).mpr hdrained⟩

/-- `locate x > f` in a shell whose standard output is a file: the line is still in the buffer when
standard output is restored, and goes to the original one. In a child it is lost. -/
theorem builtinOutput_full_buffered :
    let cmd : SingleCommand := ⟨[some Builtin.locate.name, some [120]], [], [⟨some [102], false⟩]⟩
    let o : SetupOutcome := ⟨fun _ ↦ true, true, none⟩
    let t : Table := ⟨[some (.shell 0), some (.shell 1), some (.shell 2)]⟩
    let stdout := (emptyBuffer .full 4096).stream
    let r := executeBuiltin 1 cmd ⟨o, o, true, true⟩ [47, 120, 10] 0 t stdout
    reached (.output 0 0 ⟨some [102], false⟩) r.throughPrompt = [] ∧
      reached (.shell 1) r.throughPrompt = [47, 120, 10] ∧
      ¬ OutputRedirected cmd (.shell 1) [47, 120, 10] r ∧
      reached (.shell 1) (childWrites t stdout [47, 120, 10]) = [] := by
  intro cmd o t stdout r
  have horiginal : reached (.shell 1) r.throughPrompt = [47, 120, 10] := by decide +kernel
  refine ⟨by decide +kernel, horiginal, fun hredirected ↦ ?_, by decide +kernel⟩
  rw [OutputRedirected, horiginal] at hredirected
  exact absurd hredirected.2 (by decide)

-- An output that just fills the buffer is kept back too, unless the library writes it at once.
example : (printBuiltin (emptyBuffer .full 3).stream [47, 120, 10]).2.pending.length = 3 ∧
    (printBuiltin { emptyBuffer .full 3 with atOnce := fun _ ↦ true }.stream
      [47, 120, 10]).2.pending.length = 0 := by decide

end Irish.Shell
