import Mathlib.Data.Stream.Init
import Irish.Library.Run
import Irish.Library.SlotPipe
import Irish.Shell.HelperEnds

/-!
# The processes of a foreground pipeline while the shell waits

`run_feeder_child` and `run_distributor_child` of `src/redirect.c`, and the loop of `pipes_execute`
in which the shell waits for its children one after the other, with `WUNTRACED`. Commands are
arbitrary programs: they read and write the pipes they have open, close descriptors, exit, and are
stopped and continued at any moment. Feeders and distributors are in the process group of the shell
and inherit that it ignores the stop signals, so that they are never stopped.

A pipe is a queue of pages (`SlotPipe`). A feeder writes at most 4096 bytes at a time, which is no
more than a page, so that they go into the pipe together or the `write` waits; it fails if no
process has the reading end open. A longer `write` of a command goes page by page. A `read` from a
pipe waits while the pipe is empty and some process has the writing end open.

An input file is what the calls of `read` return for it, one after the other (`ReadResult`); it may
be endless. A call for a named pipe can wait for a command of the pipeline that has it open: it
returns once the command has supplied something, or is gone. What a distributor writes to its files
never waits.

A process runs as soon as it is forked, but it needs nothing from processes that are forked later,
so its steps before the shell comes to wait are counted here among those after.
-/

set_option autoImplicit false

namespace Irish.Shell

open Library

/-! ### The state -/

inductive ProcessState
  | running
  | stopped
  | exited
deriving DecidableEq, Repr

/-- The pipes of a pipeline. -/
inductive PipeId
  | helper (io : Redirection) (i : ℕ)
  | between (k : ℕ)
deriving DecidableEq, Repr

def PipeId.atEnd : PipeId → PipeEnd → Description
  | .helper io i, side => .helper io i side
  | .between k, side => .pipe k side

/-- The size of `buf`. -/
def bufSize : ℕ := 4096

/-- The number of bytes that a call of `read` can return. -/
abbrev ReadSize := { r : ℕ // 0 < r ∧ r ≤ bufSize }

/-- What a call of `read` for an input file does: it returns a number of bytes, or nothing at the
end of the file or if it fails; or it waits for a command to supply some. -/
inductive ReadResult
  | returns (r : Option ReadSize)
  | waits (command : ℕ)
deriving DecidableEq

/-- The calls of `read` for an input file. -/
abbrev Source := Stream' ReadResult

/-- A child of the shell. Of a helper, `pending` is the number of bytes in `buf` that are not yet
written; of a feeder, `left` is what is left of the input files that it has not closed. -/
structure Process where
  role : Role
  table : Table
  state : ProcessState
  pending : ℕ
  left : List Source

/-- `_exit`. -/
def Process.exit (p : Process) : Process := { p with table := ⟨[]⟩, state := .exited }

/-- After a call of `read` for the first of the files that are left: the bytes are in `buf`, or the
file is closed. -/
def Process.got (p : Process) (rest : Source) (files : List Source) : Option ReadSize → Process
  | some r => { p with pending := r, left := rest :: files }
  | none => { p with left := files }

/-- What is in each pipe. -/
abbrev Fill (size : PipeSize) := PipeId → SlotPipe size

/-- The children in the order of `child_pids`, what is in each pipe, and the turn of the loop that
waits for the children. -/
structure Waiting (size : PipeSize) where
  procs : List Process
  fill : Fill size
  next : ℕ

namespace Waiting

variable {size : PipeSize}

/-- Some process has the file open. -/
def Held (w : Waiting size) (d : Description) : Prop := ∃ p ∈ w.procs, p.table.Holds d

instance (w : Waiting size) (d : Description) : Decidable (w.Held d) :=
  inferInstanceAs (Decidable (∃ p ∈ w.procs, _))

/-- A command that has not exited. -/
def Alive (w : Waiting size) (i : ℕ) : Prop :=
  ∃ p ∈ w.procs, p.role = .command i ∧ p.state ≠ .exited

instance (w : Waiting size) (i : ℕ) : Decidable (w.Alive i) :=
  inferInstanceAs (Decidable (∃ p ∈ w.procs, _))

/-- The state after a step of the process in a slot. -/
def put (w : Waiting size) (k : ℕ) (p : Process) (fill : Fill size) : Waiting size :=
  { w with procs := w.procs.set k p, fill := fill }

/-- Change what is in a pipe. -/
def refill (w : Waiting size) (q : PipeId) (content : SlotPipe size) : Fill size :=
  Function.update w.fill q content

end Waiting

/-- A forked process at its start; `content` is each input file of each command. -/
def Process.start (content : ℕ → ℕ → Source) (cmds : List SingleCommand) (c : Child) : Process :=
  match c.fds with
  | none => ⟨c.role, ⟨[]⟩, .exited, 0, []⟩
  | some u =>
    { role := c.role
      table := u
      state := .running
      pending := 0
      left :=
        match c.role with
        | .helper .input i =>
          match cmds[i]? with
          | some cmd => (List.range cmd.numInputs).map (content i)
          | none => []
        | _ => [] }

def Waiting.start (size : PipeSize) (content : ℕ → ℕ → Source) (cmds : List SingleCommand)
    (s : Spawn) : Waiting size :=
  ⟨s.children.map (Process.start content cmds), fun _ ↦ .empty, 0⟩

/-! ### The steps -/

/-- What a helper can do next. The arguments are results of `read`. -/
inductive HelperAct
  | read
  | resume (r : Option ReadSize)
  | write
  | brokenPipe
  | receive (r : ℕ)
  | copy
  | finish
deriving DecidableEq

section Steps

variable {size : PipeSize}

/-- `run_feeder_child` of command `i`. -/
def feederStep (w : Waiting size) (i : ℕ) (p : Process) : HelperAct → Option (Process × Fill size)
  | .read =>
    match p.left with
    | [] => none
    | s :: files =>
      match s.head with
      | .returns r => if p.pending = 0 then some (p.got s.tail files r, w.fill) else none
      | .waits _ => none
  | .resume r =>
    -- The command is gone, and the call that has waited for it returns.
    match p.left with
    | [] => none
    | s :: files =>
      match s.head with
      | .returns _ => none
      | .waits c =>
        if p.pending = 0 ∧ ¬ w.Alive c then some (p.got s.tail files r, w.fill) else none
  | .write =>
    if w.Held (.helper .input i .read) then
      ((w.fill (.helper .input i)).put p.pending).map fun q ↦
        ({ p with pending := 0 }, w.refill (.helper .input i) q)
    else none
  | .brokenPipe =>
    if 0 < p.pending ∧ ¬ w.Held (.helper .input i .read) then some (p.exit, w.fill) else none
  | .finish => if p.pending = 0 ∧ p.left = [] then some (p.exit, w.fill) else none
  | _ => none

/-- `run_distributor_child` of command `i`. -/
def distributorStep (w : Waiting size) (i : ℕ) (p : Process) :
    HelperAct → Option (Process × Fill size)
  | .receive r =>
    if p.pending = 0 ∧ 0 < r ∧ r ≤ bufSize ∧ r ≤ (w.fill (.helper .output i)).bytes then
      some ({ p with pending := r },
        w.refill (.helper .output i) ((w.fill (.helper .output i)).take r))
    else none
  | .copy => if 0 < p.pending then some ({ p with pending := 0 }, w.fill) else none
  | .finish =>
    if p.pending = 0 ∧ (w.fill (.helper .output i)).bytes = 0 ∧
        ¬ w.Held (.helper .output i .write) then
      some (p.exit, w.fill)
    else none
  | _ => none

def helperStep (w : Waiting size) (p : Process) (a : HelperAct) : Option (Process × Fill size) :=
  if p.state = .running then
    match p.role with
    | .helper .input i => feederStep w i p a
    | .helper .output i => distributorStep w i p a
    | .command _ => none
  else none

/-- What a command can do, and what can be done to it. -/
inductive CommandAct
  | read (q : PipeId) (n : ℕ)
  | write (q : PipeId) (n : ℕ)
  | close (fd : ℕ)
  | exit
  | stop
  | continue
deriving DecidableEq, Repr

def commandStep (w : Waiting size) (p : Process) : CommandAct → Option (Process × Fill size)
  | .read q n =>
    if p.state = .running ∧ p.table.Holds (q.atEnd .read) then
      some (p, w.refill q ((w.fill q).take n))
    else none
  | .write q n =>
    if p.state = .running ∧ p.table.Holds (q.atEnd .write) ∧ w.Held (q.atEnd .read) then
      ((w.fill q).put n).map fun content ↦ (p, w.refill q content)
    else none
  | .close fd =>
    if p.state = .running then some ({ p with table := p.table.close fd }, w.fill) else none
  | .exit => if p.state ≠ .exited then some (p.exit, w.fill) else none
  | .stop => if p.state = .running then some ({ p with state := .stopped }, w.fill) else none
  | .continue => if p.state = .stopped then some ({ p with state := .running }, w.fill) else none

/-- A command supplies what a feeder waits for, and the call of `read` returns. -/
def supplyStep (c p : Process) (r : Option ReadSize) : Option Process :=
  match c.role, p.role, p.left with
  | .command m, .helper .input _, s :: files =>
    if c.state = .running ∧ p.state = .running ∧ p.pending = 0 ∧ s.head = .waits m then
      some (p.got s.tail files r)
    else none
  | _, _, _ => none

inductive WaitEvent
  | helper (k : ℕ) (a : HelperAct)
  | command (k : ℕ) (a : CommandAct)
  | supply (j k : ℕ) (r : Option ReadSize)
  /-- `waitpid(child_pids[k], &status, WUNTRACED)` returns -/
  | wait
deriving DecidableEq

def WaitEvent.byCommand : WaitEvent → Bool
  | .command _ _ | .supply _ _ _ => true
  | _ => false

/-- The children of the shell and the loop that waits for them. -/
def waitStep (w : Waiting size) : WaitEvent → Option (Waiting size)
  | .helper k a =>
    match w.procs[k]? with
    | none => none
    | some p => (helperStep w p a).map fun r ↦ w.put k r.1 r.2
  | .command k a =>
    match w.procs[k]? with
    | none => none
    | some p =>
      match p.role with
      | .helper _ _ => none
      | .command _ => (commandStep w p a).map fun r ↦ w.put k r.1 r.2
  | .supply j k r =>
    match w.procs[j]?, w.procs[k]? with
    | some c, some p => (supplyStep c p r).map fun p' ↦ w.put k p' w.fill
    | _, _ => none
  | .wait =>
    match w.procs[w.next]? with
    | none => none
    | some p => if p.state = .running then none else some { w with next := w.next + 1 }

end Steps

/-! ### What a step does -/

variable {e : WaitEvent}

section Moves

variable {size : PipeSize} {w w' : Waiting size} {i : ℕ} {p p' : Process} {fill : Fill size}
  {a : HelperAct} {r : Process × Fill size}

/-- The steps of a helper, with the state that they leave. -/
inductive HelperMove (w : Waiting size) (p : Process) : Process → Fill size → Prop
  | read {i : ℕ} {s : Source} {files : List Source} {r : Option ReadSize}
      (hrole : p.role = .helper .input i) (hpending : p.pending = 0) (hleft : p.left = s :: files)
      (hhead : s.head = .returns r) : HelperMove w p (p.got s.tail files r) w.fill
  | resume {i c : ℕ} {s : Source} {files : List Source} {r : Option ReadSize}
      (hrole : p.role = .helper .input i) (hpending : p.pending = 0) (hleft : p.left = s :: files)
      (hhead : s.head = .waits c) (hgone : ¬ w.Alive c) :
      HelperMove w p (p.got s.tail files r) w.fill
  | write {i : ℕ} {q : SlotPipe size} (hrole : p.role = .helper .input i)
      (hheld : w.Held (.helper .input i .read))
      (hput : (w.fill (.helper .input i)).put p.pending = some q) :
      HelperMove w p { p with pending := 0 } (w.refill (.helper .input i) q)
  | brokenPipe {i : ℕ} (hrole : p.role = .helper .input i) (hpending : 0 < p.pending)
      (hheld : ¬ w.Held (.helper .input i .read)) : HelperMove w p p.exit w.fill
  | finish {i : ℕ} (hrole : p.role = .helper .input i) (hpending : p.pending = 0)
      (hleft : p.left = []) : HelperMove w p p.exit w.fill
  | receive {i r : ℕ} (hrole : p.role = .helper .output i) (hpending : p.pending = 0)
      (hpos : 0 < r) (hbuf : r ≤ bufSize) (hle : r ≤ (w.fill (.helper .output i)).bytes) :
      HelperMove w p { p with pending := r }
        (w.refill (.helper .output i) ((w.fill (.helper .output i)).take r))
  | copy {i : ℕ} (hrole : p.role = .helper .output i) (hpending : 0 < p.pending) :
      HelperMove w p { p with pending := 0 } w.fill
  | endOfFile {i : ℕ} (hrole : p.role = .helper .output i) (hpending : p.pending = 0)
      (hempty : (w.fill (.helper .output i)).bytes = 0)
      (hheld : ¬ w.Held (.helper .output i .write)) : HelperMove w p p.exit w.fill

theorem feederStep_cases (hrole : p.role = .helper .input i) (h : feederStep w i p a = some r) :
    HelperMove w p r.1 r.2 := by
  cases a with
  | read =>
    simp only [feederStep] at h
    split at h
    · cases h
    · rename_i s files hleft
      split at h
      · rename_i r hhead
        split_ifs at h with hpending
        cases h
        exact .read hrole hpending hleft hhead
      · cases h
  | resume r =>
    simp only [feederStep] at h
    split at h
    · cases h
    · rename_i s files hleft
      split at h
      · cases h
      · rename_i c hhead
        split_ifs at h with hguard
        cases h
        exact .resume hrole hguard.1 hleft hhead hguard.2
  | write =>
    simp only [feederStep] at h
    split_ifs at h with hheld
    obtain ⟨q, hput, rfl⟩ := Option.map_eq_some_iff.mp h
    exact .write hrole hheld hput
  | brokenPipe =>
    simp only [feederStep] at h
    split_ifs at h with hguard
    cases h
    exact .brokenPipe hrole hguard.1 hguard.2
  | finish =>
    simp only [feederStep] at h
    split_ifs at h with hguard
    cases h
    exact .finish hrole hguard.1 hguard.2
  | _ => cases h

theorem distributorStep_cases (hrole : p.role = .helper .output i)
    (h : distributorStep w i p a = some r) : HelperMove w p r.1 r.2 := by
  cases a with
  | receive =>
    simp only [distributorStep] at h
    split_ifs at h with hguard
    cases h
    exact .receive hrole hguard.1 hguard.2.1 hguard.2.2.1 hguard.2.2.2
  | copy =>
    simp only [distributorStep] at h
    split_ifs at h with hguard
    cases h
    exact .copy hrole hguard
  | finish =>
    simp only [distributorStep] at h
    split_ifs at h with hguard
    cases h
    exact .endOfFile hrole hguard.1 hguard.2.1 hguard.2.2
  | _ => cases h

theorem helperStep_cases (h : helperStep w p a = some r) :
    p.state = .running ∧ (∃ io i, p.role = .helper io i) ∧ HelperMove w p r.1 r.2 := by
  unfold helperStep at h
  split_ifs at h with hstate
  refine ⟨hstate, ?_⟩
  split at h
  · rename_i i hrole
    exact ⟨⟨_, i, hrole⟩, feederStep_cases hrole h⟩
  · rename_i i hrole
    exact ⟨⟨_, i, hrole⟩, distributorStep_cases hrole h⟩
  · cases h

/-- A feeder whose call of `read` returns because a command has supplied something. -/
structure Supplied (p p' : Process) : Prop where
  feeder : ∃ i, p.role = .helper .input i
  running : p.state = .running
  result : ∃ s files c r, p.left = s :: files ∧ s.head = .waits c ∧ p' = p.got s.tail files r

theorem supplyStep_cases {c : Process} {r : Option ReadSize} (h : supplyStep c p r = some p') :
    Supplied p p' := by
  unfold supplyStep at h
  split at h
  · rename_i m i s files hcrole hprole hleft
    split_ifs at h with hguard
    cases h
    exact ⟨⟨i, hprole⟩, hguard.2.1, s, files, m, r, hleft, hguard.2.2.2, rfl⟩
  · cases h

/-- What any step does: a helper moves, a command does something, a command supplies a feeder, or
the shell goes on to the next child. -/
theorem waitStep_cases (h : waitStep w e = some w') :
    (∃ k a p p' fill, e = .helper k a ∧ w.procs[k]? = some p ∧ p.state = .running ∧
      (∃ io i, p.role = .helper io i) ∧ HelperMove w p p' fill ∧ w' = w.put k p' fill) ∨
    (∃ k a p i r, e = .command k a ∧ w.procs[k]? = some p ∧ p.role = .command i ∧
      commandStep w p a = some r ∧ w' = w.put k r.1 r.2) ∨
    (∃ j k r p p', e = .supply j k r ∧ w.procs[k]? = some p ∧ Supplied p p' ∧
      w' = w.put k p' w.fill) ∨
    (∃ p, e = .wait ∧ w.procs[w.next]? = some p ∧ p.state ≠ .running ∧
      w' = { w with next := w.next + 1 }) := by
  cases e with
  | helper k a =>
    simp only [waitStep] at h
    split at h
    · cases h
    · rename_i p hp
      obtain ⟨r, hr, rfl⟩ := Option.map_eq_some_iff.mp h
      obtain ⟨hstate, hrole, hmove⟩ := helperStep_cases hr
      exact .inl ⟨k, a, p, r.1, r.2, rfl, hp, hstate, hrole, hmove, rfl⟩
  | command k a =>
    simp only [waitStep] at h
    split at h
    · cases h
    · rename_i p hp
      split at h
      · cases h
      · rename_i i hrole
        obtain ⟨r, hr, rfl⟩ := Option.map_eq_some_iff.mp h
        exact .inr (.inl ⟨k, a, p, i, r, rfl, hp, hrole, hr, rfl⟩)
  | supply j k r =>
    simp only [waitStep] at h
    split at h
    · rename_i c p hc hp
      obtain ⟨p', hp', rfl⟩ := Option.map_eq_some_iff.mp h
      exact .inr (.inr (.inl ⟨j, k, r, p, p', rfl, hp, supplyStep_cases hp', rfl⟩))
    · cases h
  | wait =>
    simp only [waitStep] at h
    split at h
    · cases h
    · rename_i p hp
      split_ifs at h with hstate
      cases h
      exact .inr (.inr (.inr ⟨p, rfl, hp, hstate, rfl⟩))

/-- Every move is the effect of some act. -/
theorem HelperMove.exists_act (h : HelperMove w p p' fill) (hstate : p.state = .running) :
    ∃ a, helperStep w p a = some (p', fill) := by
  cases h with
  | read hrole hpending hleft hhead =>
    exact ⟨.read, by simp [helperStep, hstate, hrole, feederStep, hleft, hpending, hhead]⟩
  | @resume _ _ _ _ r hrole hpending hleft hhead hgone =>
    exact ⟨.resume r,
      by simp [helperStep, hstate, hrole, feederStep, hleft, hpending, hhead, hgone]⟩
  | write hrole hheld hput =>
    exact ⟨.write, by simp [helperStep, hstate, hrole, feederStep, hheld, hput]⟩
  | brokenPipe hrole hpending hheld =>
    exact ⟨.brokenPipe, by simp [helperStep, hstate, hrole, feederStep, hpending, hheld]⟩
  | finish hrole hpending hleft =>
    exact ⟨.finish, by simp [helperStep, hstate, hrole, feederStep, hpending, hleft]⟩
  | @receive _ r hrole hpending hpos hbuf hle =>
    exact ⟨.receive r,
      by simp [helperStep, hstate, hrole, distributorStep, hpending, hpos, hbuf, hle]⟩
  | copy hrole hpending =>
    exact ⟨.copy, by simp [helperStep, hstate, hrole, distributorStep, hpending]⟩
  | endOfFile hrole hpending hempty hheld =>
    exact ⟨.finish, by simp [helperStep, hstate, hrole, distributorStep, hpending, hempty, hheld]⟩

theorem HelperMove.step {k : ℕ} (h : HelperMove w p p' fill) (hp : w.procs[k]? = some p)
    (hstate : p.state = .running) : ∃ a, waitStep w (.helper k a) = some (w.put k p' fill) := by
  obtain ⟨a, ha⟩ := h.exists_act hstate
  exact ⟨a, by simp [waitStep, hp, ha]⟩

end Moves

/-! ### What all steps keep -/

section Kept

variable {size : PipeSize} {w w' : Waiting size} {i j k : ℕ} {p p' q : Process} {fill : Fill size}

/-- A step opens no file: roles stay, tables shrink. -/
structure Shrinks (p p' : Process) : Prop where
  role : p'.role = p.role
  table : ∀ d, p'.table.Holds d → p.table.Holds d
  awake : ∀ io i, p.role = .helper io i → p'.state ≠ .stopped
  gone : p'.state = .exited → ∀ d, ¬ p'.table.Holds d

theorem not_holds_nil (d : Description) : ¬ (⟨[]⟩ : Table).Holds d := by
  rw [DescriptorTable.holds_iff_mem]
  exact List.not_mem_nil

theorem shrinks_got (hstate : p.state = .running) (rest : Source) (files : List Source)
    (r : Option ReadSize) : Shrinks p (p.got rest files r) := by
  cases r <;> exact ⟨rfl, fun _ hd ↦ hd, by simp [Process.got, hstate],
    by simp [Process.got, hstate]⟩

theorem HelperMove.shrinks (h : HelperMove w p p' fill) (hstate : p.state = .running) :
    Shrinks p p' := by
  have hexit : Shrinks p p.exit :=
    ⟨rfl, fun d hd ↦ absurd hd (not_holds_nil d), by simp [Process.exit], fun _ ↦ not_holds_nil⟩
  cases h with
  | read | resume => exact shrinks_got hstate _ _ _
  | brokenPipe | finish | endOfFile => exact hexit
  | _ => exact ⟨rfl, fun _ hd ↦ hd, by simp [hstate], by simp [hstate]⟩

theorem Supplied.shrinks (h : Supplied p p') : Shrinks p p' := by
  obtain ⟨s, files, c, r, -, -, rfl⟩ := h.result
  exact shrinks_got h.running _ _ _

theorem shrinks_commandStep {a : CommandAct} {r : Process × Fill size} (hrole : p.role = .command i)
    (h : commandStep w p a = some r) : Shrinks p r.1 := by
  have hawake : ∀ io j, p.role = .helper io j → r.1.state ≠ .stopped := by
    intro io j hhelper
    cases hrole.symm.trans hhelper
  cases a with
  | write =>
    simp only [commandStep] at h
    split_ifs at h with hguard
    obtain ⟨content, -, rfl⟩ := Option.map_eq_some_iff.mp h
    exact ⟨rfl, fun _ hd ↦ hd, hawake, by simp [hguard]⟩
  | close =>
    simp only [commandStep] at h
    split_ifs at h with hstate
    cases h
    exact ⟨rfl, fun d hd ↦ hd.of_close, hawake, by simp [hstate]⟩
  | exit =>
    simp only [commandStep] at h
    split_ifs at h
    cases h
    exact ⟨rfl, fun d hd ↦ absurd hd (not_holds_nil d), hawake, fun _ ↦ not_holds_nil⟩
  | _ =>
    simp only [commandStep] at h
    split_ifs at h with hguard
    cases h
    exact ⟨rfl, fun _ hd ↦ hd, hawake, by simp [hguard]⟩

theorem slot_ne (hp : w.procs[j]? = some p) (hq : w.procs[k]? = some q)
    (hne : p.role ≠ q.role) : j ≠ k := by
  rintro rfl
  exact hne (congrArg Process.role (Option.some.inj (hp.symm.trans hq)))

theorem commandStep_stop {r : Process × Fill size} (h : commandStep w p .stop = some r) :
    p.state = .running ∧ r = ({ p with state := .stopped }, w.fill) := by
  simp only [commandStep] at h
  split_ifs at h with hstate
  exact ⟨hstate, (Option.some.inj h).symm⟩

/-- The processes after a step of one of them. -/
theorem getElem?_put (hq : (w.put k p' fill).procs[j]? = some q) :
    (j = k ∧ q = p') ∨ (j ≠ k ∧ w.procs[j]? = some q) :=
  getElem?_set_cases hq

theorem getElem?_put_self (hp : w.procs[k]? = some p) (p' : Process) (fill : Fill size) :
    (w.put k p' fill).procs[k]? = some p' :=
  getElem?_set_eq hp

theorem getElem?_put_ne (hjk : j ≠ k) (p' : Process) (fill : Fill size) :
    (w.put k p' fill).procs[j]? = w.procs[j]? :=
  List.getElem?_set_ne (Ne.symm hjk)

theorem held_of_put {d : Description} (hp : w.procs[k]? = some p)
    (htable : ∀ d, p'.table.Holds d → p.table.Holds d) (h : (w.put k p' fill).Held d) :
    w.Held d := by
  obtain ⟨q, hq, hholds⟩ := h
  obtain ⟨j, hj⟩ := List.getElem?_of_mem hq
  rcases getElem?_put hj with ⟨rfl, rfl⟩ | ⟨-, hj⟩
  · exact ⟨p, List.mem_of_getElem? hp, htable d hholds⟩
  · exact ⟨q, List.mem_of_getElem? hj, hholds⟩

/-- The shape of a pipeline: every process has a role of its own, holds no end of a pipe to a helper
that is not for it, is not stopped if it is a helper, and holds nothing once it has exited. -/
structure Wired (w : Waiting size) : Prop where
  roles : ∀ (j k : ℕ) (p q : Process), w.procs[j]? = some p → w.procs[k]? = some q →
    p.role = q.role → j = k
  only : ∀ p ∈ w.procs, ∀ io i side, p.table.Holds (.helper io i side) → MayHold p.role i io side
  awake : ∀ p ∈ w.procs, ∀ io i, p.role = .helper io i → p.state ≠ .stopped
  gone : ∀ p ∈ w.procs, p.state = .exited → ∀ d, ¬ p.table.Holds d

theorem Wired.put (h : Wired w) (hp : w.procs[k]? = some p) (hshrinks : Shrinks p p')
    (fill : Fill size) : Wired (w.put k p' fill) := by
  -- The process that is now in a slot, against the one that was there.
  have hslot (j : ℕ) (q : Process) (hq : (w.put k p' fill).procs[j]? = some q) :
      ∃ q₀, w.procs[j]? = some q₀ ∧ Shrinks q₀ q := by
    rcases getElem?_put hq with ⟨rfl, rfl⟩ | ⟨-, hq⟩
    · exact ⟨p, hp, hshrinks⟩
    · have hmem := List.mem_of_getElem? hq
      exact ⟨q, hq, rfl, fun _ hd ↦ hd, h.awake q hmem, h.gone q hmem⟩
  refine ⟨fun j l p q hj hl heq ↦ ?_, fun q hq io i side hholds ↦ ?_, fun q hq io i hrole ↦ ?_,
    fun q hq ↦ ?_⟩
  · obtain ⟨p₀, hp₀, hp⟩ := hslot j p hj
    obtain ⟨q₀, hq₀, hq⟩ := hslot l q hl
    exact h.roles j l p₀ q₀ hp₀ hq₀ (hp.role.symm.trans (heq.trans hq.role))
  · obtain ⟨j, hj⟩ := List.getElem?_of_mem hq
    obtain ⟨q₀, hq₀, hs⟩ := hslot j q hj
    rw [hs.role]
    exact h.only q₀ (List.mem_of_getElem? hq₀) io i side (hs.table _ hholds)
  · obtain ⟨j, hj⟩ := List.getElem?_of_mem hq
    obtain ⟨q₀, hq₀, hs⟩ := hslot j q hj
    exact hs.awake io i (hs.role ▸ hrole)
  · obtain ⟨j, hj⟩ := List.getElem?_of_mem hq
    obtain ⟨q₀, -, hs⟩ := hslot j q hj
    exact hs.gone

theorem Wired.step {e : WaitEvent} (h : Wired w) (hstep : waitStep w e = some w') : Wired w' := by
  rcases waitStep_cases hstep with ⟨k, a, p, p', fill, -, hp, hstate, -, hmove, rfl⟩ |
    ⟨k, a, p, i, r, -, hp, hrole, hr, rfl⟩ | ⟨j, k, r, p, p', -, hp, hsupplied, rfl⟩ |
    ⟨p, -, -, -, rfl⟩
  · exact h.put hp (hmove.shrinks hstate) fill
  · exact h.put hp (shrinks_commandStep hrole hr) r.2
  · exact h.put hp hsupplied.shrinks w.fill
  · exact ⟨h.roles, h.only, h.awake, h.gone⟩

/-- The processes keep their roles. -/
theorem roles_step (hstep : waitStep w e = some w') :
    w'.procs.map Process.role = w.procs.map Process.role := by
  have hput {k : ℕ} {p p' : Process} (fill : Fill size) (hp : w.procs[k]? = some p)
      (hrole : p'.role = p.role) :
      (w.put k p' fill).procs.map Process.role = w.procs.map Process.role := by
    refine List.ext_getElem? fun j ↦ ?_
    rw [List.getElem?_map, List.getElem?_map]
    by_cases hjk : j = k
    · rw [hjk, getElem?_put_self hp, hp, Option.map_some, Option.map_some, hrole]
    · rw [getElem?_put_ne hjk]
  rcases waitStep_cases hstep with ⟨k, a, p, p', fill, -, hp, hstate, -, hmove, rfl⟩ |
    ⟨k, a, p, i, r, -, hp, hrole, hr, rfl⟩ | ⟨j, k, r, p, p', -, hp, hsupplied, rfl⟩ |
    ⟨p, -, -, -, rfl⟩
  · exact hput fill hp (hmove.shrinks hstate).role
  · exact hput r.2 hp (shrinks_commandStep hrole hr).role
  · exact hput w.fill hp hsupplied.shrinks.role
  · rfl

end Kept

/-! ### What a feeder still has to write -/

/-- Without waiting for a command, the calls of `read` return these numbers of bytes until all files
have come to an end. -/
inductive Delivers : List Source → List ℕ → Prop
  | nil : Delivers [] []
  | bytes {s : Source} {files : List Source} {r : ReadSize} {writes : List ℕ}
      (hhead : s.head = .returns (some r)) (hrest : Delivers (s.tail :: files) writes) :
      Delivers (s :: files) (r :: writes)
  | fileEnd {s : Source} {files : List Source} {writes : List ℕ} (hhead : s.head = .returns none)
      (hrest : Delivers files writes) : Delivers (s :: files) writes

/-- No call of `read` waits before the end of the file. -/
def NeverWaits (s : Source) : Prop :=
  ∀ k c, s.get k = .waits c → ∃ l < k, s.get l = .returns none

/-- What a feeder writes, if its files deliver the given numbers of bytes. -/
def Process.due (p : Process) (writes : List ℕ) : List ℕ :=
  if p.pending = 0 then writes else p.pending :: writes

section Feeders

variable {size : PipeSize} {w w' : Waiting size} {i j k : ℕ} {p p' q : Process} {fill : Fill size}
  {s : Source} {files : List Source} {content content' : SlotPipe size} {io : Redirection}
  {writes : List ℕ} {started : Prop}

/-- A feeder comes to its end, and the pipe takes all that it writes. -/
def FitsBehind (content : SlotPipe size) (p : Process) : Prop :=
  ∃ writes, Delivers p.left writes ∧ content.mark.Takes size (p.due writes)

theorem NeverWaits.head_ne (h : NeverWaits s) (c : ℕ) : s.head ≠ .waits c := by
  intro hhead
  obtain ⟨l, hl, -⟩ := h 0 c hhead
  exact Nat.not_lt_zero l hl

theorem NeverWaits.tail (h : NeverWaits s) {r : ReadSize}
    (hhead : s.head = .returns (some r)) : NeverWaits s.tail := by
  intro k c hk
  obtain ⟨l, hl, hend⟩ := h (k + 1) c hk
  cases l with
  | zero =>
    rw [show s.get 0 = s.head from rfl, hhead] at hend
    cases hend
  | succ l => exact ⟨l, Nat.lt_of_succ_lt_succ hl, hend⟩

theorem Delivers.head_ne (h : Delivers (s :: files) writes) (c : ℕ) : s.head ≠ .waits c := by
  intro hwaits
  cases h with
  | bytes hhead | fileEnd hhead => cases hhead.symm.trans hwaits

/-- A call of `read` puts into `buf` what comes next. -/
theorem fits_got_iff {r : Option ReadSize} (hpending : p.pending = 0) (hleft : p.left = s :: files)
    (hhead : s.head = .returns r) :
    FitsBehind content (p.got s.tail files r) ↔ FitsBehind content p := by
  cases r with
  | none =>
    simp only [FitsBehind, Process.got, Process.due, hpending, hleft, if_true]
    refine exists_congr fun writes ↦ and_congr_left fun _ ↦ ⟨.fileEnd hhead, fun h ↦ ?_⟩
    cases h with
    | bytes hbytes => cases hhead.symm.trans hbytes
    | fileEnd _ hrest => exact hrest
  | some r =>
    have hne : (r : ℕ) ≠ 0 := Nat.ne_of_gt r.2.1
    simp only [FitsBehind, Process.got, Process.due, hpending, hleft, if_true, hne, if_false]
    constructor
    · rintro ⟨writes, hrest, htakes⟩
      exact ⟨r :: writes, .bytes hhead hrest, htakes⟩
    · rintro ⟨writes, hdelivers, htakes⟩
      cases hdelivers with
      | @bytes _ _ r' writes hbytes hrest =>
        obtain rfl : r = r' := by simpa using hhead.symm.trans hbytes
        exact ⟨writes, hrest, htakes⟩
      | fileEnd hend => cases hhead.symm.trans hend

theorem fits_write_iff (hput : content.put p.pending = some content') :
    FitsBehind content' { p with pending := 0 } ↔ FitsBehind content p := by
  have hne : p.pending ≠ 0 := Nat.ne_of_gt (SlotPipe.put_eq_some hput).1
  simp only [FitsBehind, Process.due, if_true, hne, if_false, Mark.takes_cons,
    SlotPipe.mark_put hput]

/-- A move of a feeder that does not wait for a command changes nothing about it. -/
theorem HelperMove.fits_iff (h : HelperMove w p p' fill) (hrole : p.role = .helper .input i)
    (hwaits : ∀ s files c, p.left = s :: files → s.head = .waits c → w.Alive c) :
    FitsBehind (fill (.helper .input i)) p' ↔ FitsBehind (w.fill (.helper .input i)) p := by
  cases h with
  | read _ hpending hleft hhead => exact fits_got_iff hpending hleft hhead
  | resume _ _ hleft hhead hgone => exact absurd (hwaits _ _ _ hleft hhead) hgone
  | @write j _ hrole' _ hput =>
    obtain rfl : j = i := by simpa using hrole'.symm.trans hrole
    rw [Waiting.refill, Function.update_self]
    exact fits_write_iff hput
  | brokenPipe | finish => exact Iff.rfl
  | receive hrole' | copy hrole' | endOfFile hrole' => cases hrole'.symm.trans hrole

/-- A move of a helper does not touch the pipes of the others. -/
theorem HelperMove.fill_eq (h : HelperMove w p p' fill) (hrole : p.role ≠ .helper io i) :
    fill (.helper io i) = w.fill (.helper io i) := by
  -- A pipe that is refilled is that of the helper itself.
  have hrefill (io' : Redirection) (j : ℕ) (content : SlotPipe size)
      (hrole' : p.role = .helper io' j) :
      w.refill (.helper io' j) content (.helper io i) = w.fill (.helper io i) := by
    have hne : PipeId.helper io i ≠ .helper io' j := by
      rintro ⟨⟩
      exact hrole hrole'
    exact Function.update_of_ne hne _ _
  cases h with
  | write hrole' | receive hrole' => exact hrefill _ _ _ hrole'
  | _ => rfl

/-- Helpers have different pipes: a move of one process leaves the pipe of the helper in another
slot as it is. -/
theorem HelperMove.fill_other (h : HelperMove w p p' fill) (hwired : Wired w)
    (hp : w.procs[k]? = some p) (hq : w.procs[j]? = some q) (hjk : j ≠ k)
    (hrole : q.role = .helper io i) : fill (.helper io i) = w.fill (.helper io i) :=
  h.fill_eq fun hprole ↦ hjk (hwired.roles j k q p hq hp (hrole.trans hprole.symm))

/-- A command can only take from the pipe of a feeder. -/
theorem fill_commandStep_le (h : Wired w) {a : CommandAct} {r : Process × Fill size}
    (hp : p ∈ w.procs) (hrole : p.role = .command j) (hr : commandStep w p a = some r) (i : ℕ) :
    (r.2 (.helper .input i)).mark.Le (w.fill (.helper .input i)).mark := by
  have hself : (w.fill (.helper .input i)).mark.Le (w.fill (.helper .input i)).mark :=
    .inr ⟨rfl, le_rfl⟩
  have hrefill (q : PipeId) (content : SlotPipe size)
      (hle : q = .helper .input i → content.mark.Le (w.fill q).mark) :
      (w.refill q content (.helper .input i)).mark.Le (w.fill (.helper .input i)).mark := by
    unfold Waiting.refill
    by_cases hq : PipeId.helper .input i = q
    · subst hq
      rw [Function.update_self]
      exact hle rfl
    · rwa [Function.update_of_ne hq]
  cases a with
  | read q n =>
    simp only [commandStep] at hr
    split_ifs at hr
    cases hr
    exact hrefill q _ fun _ ↦ SlotPipe.mark_take_le _ n
  | write q =>
    simp only [commandStep] at hr
    split_ifs at hr with hguard
    obtain ⟨content, -, rfl⟩ := Option.map_eq_some_iff.mp hr
    refine hrefill q _ ?_
    rintro rfl
    have hfeeder : p.role = .helper .input i := h.only p hp .input i .write hguard.2.1
    cases hrole.symm.trans hfeeder
  | _ =>
    simp only [commandStep] at hr
    split_ifs at hr
    cases hr
    exact hself

/-- What holds of a feeder while its command has been started or not: it needs no reader to come to
its end, or no call of `read` waits. -/
structure FeederOk (started : Prop) (content : SlotPipe size) (p : Process) : Prop where
  pending_le : p.pending ≤ bufSize
  fits : started → FitsBehind content p
  free : ¬ started → ∀ s ∈ p.left, NeverWaits s

theorem FeederOk.head_ne (h : FeederOk started content p) (hleft : p.left = s :: files)
    (c : ℕ) : s.head ≠ .waits c := by
  by_cases hstarted : started
  · obtain ⟨writes, hdelivers, -⟩ := h.fits hstarted
    rw [hleft] at hdelivers
    exact hdelivers.head_ne c
  · exact (h.free hstarted s (by simp [hleft])).head_ne c

theorem FeederOk.mono (h : FeederOk started content p) (hle : content'.mark.Le content.mark) :
    FeederOk started content' p := by
  refine ⟨h.pending_le, fun hstarted ↦ ?_, h.free⟩
  obtain ⟨writes, hdelivers, htakes⟩ := h.fits hstarted
  exact ⟨writes, hdelivers, htakes.mono hle⟩

theorem FeederOk.move (h : FeederOk started (w.fill (.helper .input i)) p)
    (hmove : HelperMove w p p' fill) (hrole : p.role = .helper .input i) :
    FeederOk started (fill (.helper .input i)) p' := by
  have hfits := hmove.fits_iff hrole fun s files c hleft hhead ↦
    absurd hhead (h.head_ne hleft c)
  refine ⟨?_, fun hstarted ↦ hfits.mpr (h.fits hstarted), fun hstarted ↦ ?_⟩
  · cases hmove with
    | @read _ _ _ r => cases r with
      | none => exact h.pending_le
      | some r => exact r.2.2
    | resume _ _ hleft hhead => exact absurd hhead (h.head_ne hleft _)
    | write | copy => exact Nat.zero_le _
    | receive _ _ _ hbuf => exact hbuf
    | _ => exact h.pending_le
  · have hfree := h.free hstarted
    cases hmove with
    | @read _ _ _ r _ _ hleft hhead =>
      rw [hleft, List.forall_mem_cons] at hfree
      cases r with
      | none => exact hfree.2
      | some r => exact List.forall_mem_cons.mpr ⟨hfree.1.tail hhead, hfree.2⟩
    | resume _ _ hleft hhead => exact absurd hhead (h.head_ne hleft _)
    | _ => exact hfree

/-- All feeders are in order. -/
def Fed (started : ℕ → Prop) (w : Waiting size) : Prop :=
  ∀ p ∈ w.procs, ∀ i, p.role = .helper .input i →
    FeederOk (started i) (w.fill (.helper .input i)) p

theorem Fed.step {started : ℕ → Prop} {e : WaitEvent} (hwired : Wired w) (h : Fed started w)
    (hstep : waitStep w e = some w') : Fed started w' := by
  rcases waitStep_cases hstep with ⟨k, a, p, p', fill, -, hp, hstate, -, hmove, rfl⟩ |
    ⟨k, a, p, j, r, -, hp, hrole, hr, rfl⟩ | ⟨j, k, r, p, p', -, hp, hsupplied, rfl⟩ |
    ⟨p, -, -, -, rfl⟩
  · intro q hq i hqrole
    obtain ⟨j, hj⟩ := List.getElem?_of_mem hq
    rcases getElem?_put hj with ⟨rfl, rfl⟩ | ⟨hjk, hj⟩
    · have hprole : p.role = .helper .input i := (hmove.shrinks hstate).role ▸ hqrole
      exact (h p (List.mem_of_getElem? hp) i hprole).move hmove hprole
    · have hsame := hmove.fill_other hwired hp hj hjk hqrole
      show FeederOk _ (fill (.helper .input i)) q
      rw [hsame]
      exact h q (List.mem_of_getElem? hj) i hqrole
  · intro q hq i hqrole
    obtain ⟨l, hl⟩ := List.getElem?_of_mem hq
    rcases getElem?_put hl with ⟨rfl, rfl⟩ | ⟨-, hl⟩
    · rw [(shrinks_commandStep hrole hr).role, hrole] at hqrole
      cases hqrole
    · exact (h q (List.mem_of_getElem? hl) i hqrole).mono
        (fill_commandStep_le hwired (List.mem_of_getElem? hp) hrole hr i)
  · -- No feeder waits for a command.
    obtain ⟨i, hrole⟩ := hsupplied.feeder
    obtain ⟨s, files, c, -, hleft, hhead, -⟩ := hsupplied.result
    exact absurd hhead ((h p (List.mem_of_getElem? hp) i hrole).head_ne hleft c)
  · exact h

end Feeders

end Irish.Shell
