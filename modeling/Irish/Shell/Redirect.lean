import Mathlib.Data.PNat.Defs
import Irish.Library.Descriptors
import Irish.Shell.Executor

/-!
# Redirections

`src/redirect.c`: `redirect_setup_input` and `redirect_setup_output` open the files a command is
redirected to. More than one file needs a helper process with a pipe to the command: a feeder that
concatenates the inputs, or a distributor that copies the output to every file.

What the system calls return is an argument (`SetupOutcome`); a table of descriptors is passed
through. A forked process starts with a copy of the shell's table. Memory allocation succeeds.
-/

set_option autoImplicit false

namespace Irish.Shell

open Library

inductive PipeEnd
  | read
  | write
deriving DecidableEq, Repr

inductive Redirection
  | input
  | output
deriving DecidableEq, Repr

/-- The end of the pipe to a helper that the shell keeps for the command. -/
def Redirection.kept : Redirection → ℕ × ℕ → ℕ
  | .input, ends => ends.1
  | .output, ends => ends.2

/-- The end of that pipe that is left to the helper. -/
def Redirection.given : Redirection → ℕ × ℕ → ℕ
  | .input, ends => ends.2
  | .output, ends => ends.1

/-- What a descriptor can refer to. -/
inductive Description
  /-- open in the shell before the pipeline is started -/
  | shell (id : ℕ)
  | devNull
  /-- the `j`-th input file of a command -/
  | input (cmd j : ℕ) (filename : Option (List Byte))
  /-- the `j`-th output file of a command, truncated or appended to -/
  | output (cmd j : ℕ) (file : OutputRedir)
  /-- the pipe between a command and its feeder or distributor -/
  | helper (io : Redirection) (cmd : ℕ) (side : PipeEnd)
  /-- the pipe between command `k` and command `k + 1` -/
  | pipe (k : ℕ) (side : PipeEnd)
deriving DecidableEq, Repr

abbrev Table := DescriptorTable Description

/-- The processes of a pipeline; the helper of an input is its feeder, that of an output its
distributor. -/
inductive Role
  | command (i : ℕ)
  | helper (io : Redirection) (i : ℕ)
deriving DecidableEq, Repr

/-- A forked process that has set itself up; `fds` is `none` if it has exited in doing so. -/
structure Child where
  role : Role
  pid : ℕ+
  pgid : ℕ
  fds : Option Table
deriving DecidableEq

/-- What the shell prints about a command that it does not start. -/
inductive Message
  /-- `cshell: no such file or directory` -/
  | noSuchFile
  /-- `cshell: unable to create file for writing` -/
  | unableToCreate
  /-- `cshell: command not found (name)` -/
  | commandNotFound (name : List Byte)
  /-- `perror("pipe")` -/
  | pipe
  /-- `perror("fork")` -/
  | fork
deriving DecidableEq, Repr

/-- The results of the system calls of one call of `redirect_setup_input` or
`redirect_setup_output`; `fork` is the pid of the helper. -/
structure SetupOutcome where
  opens : ℕ → Bool
  pipe : Bool
  fork : Option ℕ+

/-- The result of such a call: the message of a failed one, `*in_fd` or `*out_fd`, the helper, and
the table of the shell. -/
structure SetupResult where
  error : Option Message
  fd : Option ℕ
  child : Option Child
  table : Table

/-- The loop that opens the files; on a failure it closes those it has opened. -/
def openFiles (opens : ℕ → Bool) : List Description → ℕ → List ℕ → Table → Option (List ℕ) × Table
  | [], _, fds, t => (some fds, t)
  | d :: files, j, fds, t =>
    if opens j then openFiles opens files (j + 1) (fds ++ [(t.openFirst d).1]) (t.openFirst d).2
    else (none, t.closeAll fds)

/-- The text the two functions share. They differ in the message and in the end of the pipe that
they keep: the one for an input keeps the reading end, the one for an output the writing end. -/
def redirectSetup (io : Redirection) (message : Message) (i : ℕ) (files : List Description)
    (shellPgid : ℕ+) (o : SetupOutcome) (t : Table) : SetupResult :=
  if files = [] then ⟨none, none, none, t⟩
  else
    match openFiles o.opens files 0 [] t with
    | (none, t) => ⟨some message, none, none, t⟩
    | (some fds, t) =>
      if files.length = 1 then ⟨none, fds.head?, none, t⟩
      else if o.pipe then
        let ends := (t.pipe (.helper io i .read) (.helper io i .write)).1
        let t := (t.pipe (.helper io i .read) (.helper io i .write)).2
        match o.fork with
        | none => ⟨some .fork, none, none, t.closeAll (ends.1 :: ends.2 :: fds)⟩
        | some pid =>
          ⟨none, some (io.kept ends),
            some ⟨.helper io i, pid, shellPgid, some (t.close (io.kept ends))⟩,
            t.closeAll (fds ++ [io.given ends])⟩
      else ⟨some .pipe, none, none, t.closeAll fds⟩

def redirectSetupInput (i : ℕ) (cmd : SingleCommand) (shellPgid : ℕ+) (o : SetupOutcome)
    (t : Table) : SetupResult :=
  redirectSetup .input .noSuchFile i (cmd.inputFiles.mapIdx fun j name ↦ .input i j name)
    shellPgid o t

def redirectSetupOutput (i : ℕ) (cmd : SingleCommand) (shellPgid : ℕ+) (o : SetupOutcome)
    (t : Table) : SetupResult :=
  redirectSetup .output .unableToCreate i (cmd.outputFiles.mapIdx fun j file ↦ .output i j file)
    shellPgid o t

/-- The calls of a set-up of `count` files all succeed. -/
def SetupOk (count : ℕ) (o : SetupOutcome) : Prop :=
  (∀ j < count, o.opens j = true) ∧ (2 ≤ count → o.pipe = true ∧ o.fork.isSome = true)

instance (count : ℕ) (o : SetupOutcome) : Decidable (SetupOk count o) :=
  inferInstanceAs (Decidable (_ ∧ _))

/-! ### The loop -/

variable {P : Description → Prop} {files : List Description} {fds : List ℕ} {t₀ t : Table}

/-- The loop from any table `t₀` to which it has added `fds` so far. -/
theorem openFiles_cases (opens : ℕ → Bool) (hfiles : ∀ d ∈ files, P d) (j : ℕ)
    (hopened : t₀.Opened fds P t) :
    ((∀ k < files.length, opens (j + k) = true) ∧ ∃ fds' t', fds'.length = files.length ∧
      openFiles opens files j fds t = (some (fds ++ fds'), t') ∧ t₀.Opened (fds ++ fds') P t') ∨
    ((∃ k < files.length, opens (j + k) = false) ∧
      ∃ t', openFiles opens files j fds t = (none, t') ∧ t'.get = t₀.get) := by
  induction files generalizing j fds t with
  | nil => exact .inl ⟨by simp, [], t, rfl, by simp [openFiles], by simpa using hopened⟩
  | cons d _ ih =>
    by_cases hj : opens j = true
    · have hd := (DescriptorTable.opened_openFirst t d).mono
        (fun _ heq ↦ heq ▸ hfiles d List.mem_cons_self)
      rw [openFiles, if_pos hj]
      rcases ih (fun d hd ↦ hfiles d (List.mem_cons_of_mem _ hd)) (j + 1) (hopened.trans hd)
        with ⟨hall, fds', t', hlength, hloop, hopened'⟩ | ⟨⟨k, hk, hfail⟩, hloop⟩
      · refine .inl ⟨fun k hk ↦ ?_, (t.openFirst d).1 :: fds', t', ?_, ?_, ?_⟩
        · cases k with
          | zero => exact hj
          | succ k =>
            rw [Nat.add_comm k 1, ← Nat.add_assoc]
            exact hall k (Nat.lt_of_succ_lt_succ hk)
        · simp [hlength]
        · simpa using hloop
        · simpa using hopened'
      · refine .inr ⟨⟨k + 1, Nat.succ_lt_succ hk, ?_⟩, hloop⟩
        rwa [Nat.add_comm k 1, ← Nat.add_assoc]
    · rw [openFiles, if_neg hj]
      exact .inr ⟨⟨0, Nat.succ_pos _, by simpa using hj⟩, _, rfl,
        hopened.closeAll fds fun _ ↦ Iff.rfl⟩

/-! ### One set-up -/

section Setup

variable (io : Redirection) (message : Message) (i : ℕ) (shellPgid : ℕ+) {o : SetupOutcome}
  (t : Table)

theorem Redirection.kept_given (io : Redirection) (ends : ℕ × ℕ) :
    (io.kept ends = ends.1 ∧ io.given ends = ends.2) ∨
      (io.kept ends = ends.2 ∧ io.given ends = ends.1) := by
  cases io
  · exact .inl ⟨rfl, rfl⟩
  · exact .inr ⟨rfl, rfl⟩

/-- A failed set-up leaves the table of the shell as it was, and no helper. -/
theorem redirectSetup_failed (h : ¬ SetupOk files.length o) :
    let r := redirectSetup io message i files shellPgid o t
    r.error ≠ none ∧ r.child = none ∧ r.table.get = t.get := by
  have hne : files ≠ [] := by
    rintro rfl
    exact h ⟨by simp, by simp⟩
  rcases openFiles_cases o.opens (P := fun _ ↦ True) (fun _ (_ : _ ∈ files) ↦ trivial) 0
    (DescriptorTable.Opened.refl t _)
    with ⟨hall, fds, t₁, -, hloop, hopened⟩ | ⟨-, t₁, hloop, hget⟩
  · rw [List.nil_append] at hloop hopened
    simp only [Nat.zero_add] at hall
    have hcount : 2 ≤ files.length := by
      by_contra hlt
      exact h ⟨hall, fun h ↦ absurd h hlt⟩
    simp only [redirectSetup, if_neg hne, hloop, if_neg (by omega : ¬ files.length = 1)]
    by_cases hpipe : o.pipe = true
    · cases hfork : o.fork with
      | none =>
        have hends := DescriptorTable.opened_pipe t₁ (.helper io i .read) (.helper io i .write)
        have hclosed := (hopened.trans (hends.mono fun _ _ ↦ trivial)).closeAll
          ((t₁.pipe (.helper io i .read) (.helper io i .write)).1.1 ::
            (t₁.pipe (.helper io i .read) (.helper io i .write)).1.2 :: fds)
          (fun fd ↦ by simp only [List.mem_append, List.mem_cons, List.not_mem_nil]; tauto)
        simpa [hpipe] using hclosed
      | some => exact absurd ⟨hall, fun _ ↦ ⟨hpipe, by simp [hfork]⟩⟩ h
    · simpa [hpipe] using hopened.closeAll fds fun _ ↦ Iff.rfl
  · simp [redirectSetup, hne, hloop, hget]

/-- The three ways a set-up succeeds. -/
theorem redirectSetup_cases (h : SetupOk files.length o) (hfiles : ∀ d ∈ files, P d) :
    let r := redirectSetup io message i files shellPgid o t
    (files = [] ∧ r = ⟨none, none, none, t⟩) ∨
    (files.length = 1 ∧ ∃ fd t₁, t.Opened [fd] P t₁ ∧ r = ⟨none, some fd, none, t₁⟩) ∨
    (2 ≤ files.length ∧ ∃ pid fds t₁, o.fork = some pid ∧ t.Opened fds P t₁ ∧
      let p := t₁.pipe (.helper io i .read) (.helper io i .write)
      r = ⟨none, some (io.kept p.1),
        some ⟨.helper io i, pid, shellPgid, some (p.2.close (io.kept p.1))⟩,
        p.2.closeAll (fds ++ [io.given p.1])⟩) := by
  by_cases hne : files = []
  · exact .inl ⟨hne, by simp [redirectSetup, hne]⟩
  rcases openFiles_cases o.opens hfiles 0 (DescriptorTable.Opened.refl t P)
    with ⟨-, fds, t₁, hlength, hloop, hopened⟩ | ⟨⟨k, hk, hfail⟩, -⟩
  · rw [List.nil_append] at hloop hopened
    by_cases hone : files.length = 1
    · obtain ⟨fd, rfl⟩ := List.length_eq_one_iff.mp (hlength.trans hone)
      exact .inr (.inl ⟨hone, fd, t₁, hopened, by simp [redirectSetup, hne, hloop, hone]⟩)
    · have hcount : 2 ≤ files.length := by
        have hpos := List.length_pos_iff.mpr hne
        omega
      obtain ⟨hpipe, hfork⟩ := h.2 hcount
      obtain ⟨pid, hpid⟩ := Option.isSome_iff_exists.mp hfork
      refine .inr (.inr ⟨hcount, pid, fds, t₁, hpid, hopened, ?_⟩)
      simp [redirectSetup, hne, hloop, hone, hpipe, hpid]
  · rw [Nat.zero_add] at hfail
    exact absurd (h.1 k hk) (by simp [hfail])

/-- A set-up that succeeds adds at most the one descriptor that it returns. -/
theorem redirectSetup_ok (h : SetupOk files.length o) (hfiles : ∀ d ∈ files, P d)
    (hhelper : ∀ side, P (.helper io i side)) :
    let r := redirectSetup io message i files shellPgid o t
    r.error = none ∧ t.Opened r.fd.toList P r.table := by
  intro r
  rcases redirectSetup_cases io message i shellPgid t h hfiles with
    ⟨-, hr⟩ | ⟨-, fd, t₁, hopened, hr⟩ | ⟨-, pid, fds, t₁, -, hopened, hr⟩
  · rw [show r = _ from hr]
    exact ⟨rfl, DescriptorTable.Opened.refl t P⟩
  · rw [show r = _ from hr]
    exact ⟨rfl, hopened⟩
  · rw [show r = _ from hr]
    have hends := DescriptorTable.opened_pipe t₁ (.helper io i .read) (.helper io i .write)
    have hdistinct :=
      DescriptorTable.pipe_read_ne_write t₁ (.helper io i .read) (.helper io i .write)
    generalize t₁.pipe (.helper io i .read) (.helper io i .write) = p at hends hdistinct ⊢
    have hall := hopened.trans (hends.mono fun d hd ↦ by
      rcases hd with rfl | rfl
      · exact hhelper .read
      · exact hhelper .write)
    have hfree : ∀ fd ∈ [p.1.1, p.1.2], fd ∉ fds := fun fd hfd hmem ↦
      hopened.ne_none hmem (hends.free fd hfd)
    refine ⟨rfl, hall.closeSome _ _ ?_ ?_⟩
    · intro fd hfd
      rcases io.kept_given p.1 with ⟨-, hgiven⟩ | ⟨-, hgiven⟩ <;> rw [hgiven] at hfd <;>
        simp only [List.mem_append, List.mem_cons, List.not_mem_nil] at hfd ⊢ <;> tauto
    · intro fd
      rcases io.kept_given p.1 with ⟨hkept, hgiven⟩ | ⟨hkept, hgiven⟩ <;>
        rw [hkept, hgiven] <;> grind

/-- The helper is forked exactly for more than one file, and it has open whatever the shell had open
before. -/
theorem child_redirectSetup (h : SetupOk files.length o) :
    let r := redirectSetup io message i files shellPgid o t
    (files.length < 2 → r.child = none) ∧
      (2 ≤ files.length → ∃ pid u, o.fork = some pid ∧
        r.child = some ⟨.helper io i, pid, shellPgid, some u⟩ ∧
        ∀ fd, t.get fd ≠ none → u.get fd = t.get fd) := by
  intro r
  rcases redirectSetup_cases io message i shellPgid t (P := fun _ ↦ True) h (fun _ _ ↦ trivial)
    with ⟨hnil, hr⟩ | ⟨hone, fd, t₁, -, hr⟩ | ⟨hcount, pid, fds, t₁, hpid, hopened, hr⟩
  · rw [show r = _ from hr]
    exact ⟨fun _ ↦ rfl, fun htwo ↦ by simp [hnil] at htwo⟩
  · rw [show r = _ from hr]
    exact ⟨fun _ ↦ rfl, fun htwo ↦ by omega⟩
  · refine ⟨fun hlt ↦ absurd hlt (by omega), fun _ ↦ ?_⟩
    refine ⟨pid, _, hpid, congrArg SetupResult.child hr, fun fd hfd ↦ ?_⟩
    have hends := DescriptorTable.opened_pipe t₁ (.helper io i .read) (.helper io i .write)
    generalize t₁.pipe (.helper io i .read) (.helper io i .write) = p at hends ⊢
    have hkeeps := hopened.keeps hfd
    have hkeeps' := hends.keeps (hkeeps ▸ hfd)
    have hne : fd ≠ io.kept p.1 := by
      rintro rfl
      refine hends.not_mem (hkeeps ▸ hfd) ?_
      rcases io.kept_given p.1 with ⟨hkept, -⟩ | ⟨hkept, -⟩ <;> simp [hkept]
    rw [DescriptorTable.get_close, if_neg hne, hkeeps', hkeeps]

end Setup

/-- The file is not a pipe between two commands. -/
def NotPipe (d : Description) : Prop := ∀ k side, d ≠ .pipe k side

/-- What a call of `redirect_setup_input` or `redirect_setup_output` with `count` files does. -/
structure SetupSpec (io : Redirection) (i count : ℕ) (shellPgid : ℕ+) (o : SetupOutcome) (t : Table)
    (r : SetupResult) : Prop where
  failed : ¬ SetupOk count o → r.error ≠ none ∧ r.table.get = t.get
  ok : SetupOk count o → r.error = none ∧ t.Opened r.fd.toList NotPipe r.table
  mem_child : ∀ c ∈ r.child.toList, 2 ≤ count ∧ SetupOk count o ∧ o.fork = some c.pid ∧
    c.role = .helper io i ∧ c.pgid = shellPgid ∧
    ∃ u, c.fds = some u ∧ ∀ fd, t.get fd ≠ none → u.get fd = t.get fd
  exists_child : 2 ≤ count → SetupOk count o → ∀ pid, o.fork = some pid →
    ∃ c ∈ r.child.toList, c.role = .helper io i ∧ c.pid = pid

theorem setupSpec_redirectSetup (io : Redirection) (message : Message) (i : ℕ)
    (hfiles : ∀ d ∈ files, NotPipe d) (shellPgid : ℕ+) (o : SetupOutcome) (t : Table) :
    SetupSpec io i files.length shellPgid o t
      (redirectSetup io message i files shellPgid o t) where
  failed := fun h ↦
    have hfailed := redirectSetup_failed io message i shellPgid t h
    ⟨hfailed.1, hfailed.2.2⟩
  ok := fun h ↦ redirectSetup_ok io message i shellPgid t h hfiles fun _ _ _ ↦ nofun
  mem_child := by
    intro c hc
    by_cases h : SetupOk files.length o
    · obtain ⟨hnone, hsome⟩ := child_redirectSetup io message i shellPgid t h
      by_cases hcount : 2 ≤ files.length
      · obtain ⟨pid, u, hpid, hchild, hu⟩ := hsome hcount
        rw [hchild] at hc
        obtain rfl := List.mem_singleton.mp hc
        exact ⟨hcount, h, hpid, rfl, rfl, u, rfl, hu⟩
      · rw [hnone (Nat.lt_of_not_le hcount)] at hc
        cases hc
    · rw [(redirectSetup_failed io message i shellPgid t h).2.1] at hc
      cases hc
  exists_child := by
    intro hcount h pid hpid
    obtain ⟨pid', u, hpid', hchild, -⟩ :=
      (child_redirectSetup io message i shellPgid t h).2 hcount
    cases hpid'.symm.trans hpid
    rw [hchild]
    exact ⟨_, List.mem_singleton_self _, rfl, rfl⟩

theorem setupSpec_input (i : ℕ) (cmd : SingleCommand) (shellPgid : ℕ+) (o : SetupOutcome)
    (t : Table) : SetupSpec .input i cmd.numInputs shellPgid o t
      (redirectSetupInput i cmd shellPgid o t) := by
  have hfiles : ∀ d ∈ cmd.inputFiles.mapIdx fun j name ↦ Description.input i j name,
      NotPipe d := by
    intro d hd k side
    obtain ⟨j, hj, rfl⟩ := List.mem_mapIdx.mp hd
    exact nofun
  simpa [SingleCommand.numInputs, redirectSetupInput] using
    setupSpec_redirectSetup .input .noSuchFile i hfiles shellPgid o t

theorem setupSpec_output (i : ℕ) (cmd : SingleCommand) (shellPgid : ℕ+) (o : SetupOutcome)
    (t : Table) : SetupSpec .output i cmd.numOutputs shellPgid o t
      (redirectSetupOutput i cmd shellPgid o t) := by
  have hfiles : ∀ d ∈ cmd.outputFiles.mapIdx fun j file ↦ Description.output i j file,
      NotPipe d := by
    intro d hd k side
    obtain ⟨j, hj, rfl⟩ := List.mem_mapIdx.mp hd
    exact nofun
  simpa [SingleCommand.numOutputs, redirectSetupOutput] using
    setupSpec_redirectSetup .output .unableToCreate i hfiles shellPgid o t

end Irish.Shell
