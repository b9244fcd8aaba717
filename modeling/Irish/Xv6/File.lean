import Irish.Library.Counts
import Irish.Library.Run

/-!
# Open files

`kernel/file.c` with its callers: the descriptors of the system calls in `kernel/sysfile.c`, the two
files of `pipealloc`, the copies of `kfork` and the closing of everything in `kexit`. A process is
an element of `ι`. Every section under `ftable.lock` is one event, and so is what `fileclose` does
after it with the copy `ff` of a file that nobody refers to any more. The table `ofile` of a process
is written by nobody else while the process runs, so its writes belong to the section next to them.

Of a pipe only the two flags that `pipeclose` tests are kept. Its page is any number that is not in
use when `kalloc` returns it. What `iput` does with the inode of a file is left out, and the offset
of a file, which no function here reads.
-/

set_option autoImplicit false

namespace Irish.Xv6

open Library
open Function (update)

/-- `NFILE`. -/
def nfile : ℕ := 100

/-- `NOFILE`. -/
def nofile : ℕ := 16

abbrev FileId : Type := Fin nfile

abbrev Fd : Type := Fin nofile

/-- The type of a file, with the fields that belong to it. -/
inductive FileType
  | none
  | pipe (page : ℕ)
  | inode (ip : ℕ)
  | device (ip major : ℕ)
deriving DecidableEq, Repr

structure File where
  ref : ℕ
  type : FileType
  readable : Bool
  writable : Bool
deriving DecidableEq, Repr

structure PipeFlags where
  readopen : Bool
  writeopen : Bool
deriving DecidableEq, Repr

def PipeFlags.isOpen (e : PipeFlags) (writable : Bool) : Bool :=
  if writable then e.writeopen else e.readopen

/-- What follows a call of `fileclose`. -/
inductive AfterClose
  /-- the return to the user -/
  | user
  /-- the second `fileclose` of a failed `sys_pipe` or `pipealloc` -/
  | closes (f : FileId)
  /-- the loop of `kexit`, after this descriptor -/
  | exits (fd : ℕ)
deriving DecidableEq, Repr

/-- Where a process is, as far as files are concerned. -/
inductive FileCall (ι : Type*)
  /-- no process, or one that has left the loop of `kexit` -/
  | absent
  /-- allocated by the `kfork` of another process -/
  | born
  | user
  /-- in `sys_open`, after `filealloc` -/
  | opening (f : FileId)
  /-- in `pipealloc`, after the first `filealloc` -/
  | first (rf : FileId)
  /-- in `pipealloc`, after the second `filealloc` -/
  | second (rf wf : FileId)
  /-- in `sys_pipe`, after `pipealloc` -/
  | piped (rf wf : FileId)
  /-- before a call of `fileclose` with a local variable -/
  | dropping (f : FileId) (next : AfterClose)
  /-- in `fileclose`, after `ftable.lock`, with the copy of the file -/
  | releasing (ff : File) (next : AfterClose)
  /-- in the loop of `kfork` -/
  | forking (np : ι) (i : ℕ)
  /-- in the loop of `kexit` -/
  | exiting (fd : ℕ)
deriving DecidableEq, Repr

def AfterClose.call {ι : Type*} : AfterClose → FileCall ι
  | .user => .user
  | .closes f => .dropping f .user
  | .exits fd => .exiting (fd + 1)

inductive FilePanic
  | filedup
  | fileclose
deriving DecidableEq, Repr

/-- The table `ftable`, the descriptors of every process, and the pipes by their pages. -/
structure Files (ι : Type*) where
  files : FileId → File
  ofile : ι → Fd → Option FileId
  call : ι → FileCall ι
  pipes : ℕ → Option PipeFlags
  panic : Option FilePanic

inductive FileEvent (ι : Type*)
  | dup (p : ι) (fd : Fd)
  | close (p : ι) (fd : Fd)
  | openAlloc (p : ι)
  | openInstall (p : ι) (type : FileType) (readable writable : Bool)
  | pipeFirst (p : ι)
  | pipeSecond (p : ι)
  | pipeMake (p : ι) (page : Option ℕ)
  | pipeInstall (p : ι) (copyout : Bool)
  | drop (p : ι)
  | release (p : ι)
  | fork (p np : ι)
  | forkTurn (p : ι)
  | exit (p : ι)
  | exitTurn (p : ι)
deriving DecidableEq, Repr

variable {ι : Type*} [DecidableEq ι]

def fdalloc (ofile : Fd → Option FileId) : Option Fd :=
  (List.finRange nofile).find? fun fd ↦ ofile fd = none

/-- The slot that `filealloc` takes. -/
def Files.unused (s : Files ι) : Option FileId :=
  (List.finRange nfile).find? fun f ↦ (s.files f).ref = 0

def Files.setFile (s : Files ι) (f : FileId) (file : File) : Files ι :=
  { s with files := update s.files f file }

def Files.setCall (s : Files ι) (p : ι) (c : FileCall ι) : Files ι :=
  { s with call := update s.call p c }

def Files.setOfile (s : Files ι) (p : ι) (ofile : Fd → Option FileId) : Files ι :=
  { s with ofile := update s.ofile p ofile }

/-- `filealloc` by a process, which goes on with the file, or otherwise without. -/
def filealloc (p : ι) (found : FileId → FileCall ι) (full : FileCall ι) (s : Files ι) : Files ι :=
  match s.unused with
  | some f => (s.setFile f { s.files f with ref := 1 }).setCall p (found f)
  | none => s.setCall p full

def filedup (f : FileId) (s : Files ι) : Files ι :=
  if (s.files f).ref < 1 then { s with panic := some .filedup }
  else s.setFile f { s.files f with ref := (s.files f).ref + 1 }

/-- The section of `fileclose` under `ftable.lock`. -/
def fileclose (p : ι) (f : FileId) (next : AfterClose) (s : Files ι) : Files ι :=
  if (s.files f).ref < 1 then { s with panic := some .fileclose }
  else if 0 < (s.files f).ref - 1 then
    (s.setFile f { s.files f with ref := (s.files f).ref - 1 }).setCall p next.call
  else
    (s.setFile f { s.files f with ref := 0, type := .none }).setCall p
      (.releasing (s.files f) next)

/-- `pipeclose`, without the wakeups. -/
def Files.pipeclose (page : ℕ) (writable : Bool) (s : Files ι) : Files ι :=
  match s.pipes page with
  | none => s
  | some e =>
    let e := if writable then { e with writeopen := false } else { e with readopen := false }
    { s with pipes := update s.pipes page
              (if e.readopen = false ∧ e.writeopen = false then none else some e) }

/-- The rest of `fileclose`. -/
def filecloseRest (p : ι) (ff : File) (next : AfterClose) (s : Files ι) : Files ι :=
  match ff.type with
  | .pipe page => (Files.pipeclose page ff.writable s).setCall p next.call
  | _ => s.setCall p next.call

def sysDup (p : ι) (fd : Fd) (s : Files ι) : Files ι :=
  match s.ofile p fd with
  | none => s
  | some f =>
    match fdalloc (s.ofile p) with
    | none => s
    | some fd' => filedup f (s.setOfile p (update (s.ofile p) fd' (some f)))

def sysClose (p : ι) (fd : Fd) (s : Files ι) : Files ι :=
  match s.ofile p fd with
  | none => s
  | some f => fileclose p f .user (s.setOfile p (update (s.ofile p) fd none))

/-- `sys_open` from `fdalloc` on. -/
def sysOpenInstall (p : ι) (f : FileId) (type : FileType) (readable writable : Bool)
    (s : Files ι) : Files ι :=
  match fdalloc (s.ofile p) with
  | none => s.setCall p (.dropping f .user)
  | some fd =>
    ((s.setOfile p (update (s.ofile p) fd (some f))).setFile f
      { s.files f with type := type, readable := readable, writable := writable }).setCall p .user

/-- `pipealloc` from `kalloc` on. -/
def pipeallocMake (p : ι) (rf wf : FileId) (page : Option ℕ) (s : Files ι) : Files ι :=
  match page with
  | none => s.setCall p (.dropping rf (.closes wf))
  | some page =>
    let s := { s with pipes := update s.pipes page (some ⟨true, true⟩) }
    let s := s.setFile rf
      { s.files rf with type := .pipe page, readable := true, writable := false }
    let s := s.setFile wf
      { s.files wf with type := .pipe page, readable := false, writable := true }
    s.setCall p (.piped rf wf)

/-- `sys_pipe` after `pipealloc`. -/
def sysPipeInstall (p : ι) (rf wf : FileId) (copyout : Bool) (s : Files ι) : Files ι :=
  match fdalloc (s.ofile p) with
  | none => s.setCall p (.dropping rf (.closes wf))
  | some fd0 =>
    match fdalloc (update (s.ofile p) fd0 (some rf)) with
    | none => s.setCall p (.dropping rf (.closes wf))
    | some fd1 =>
      if copyout then
        (s.setOfile p (update (update (s.ofile p) fd0 (some rf)) fd1
          (some wf))).setCall p .user
      else s.setCall p (.dropping rf (.closes wf))

/-- One turn of the loop over the descriptors in `kfork`, or what follows it. -/
def kforkTurn (p np : ι) (i : ℕ) (s : Files ι) : Files ι :=
  if h : i < nofile then
    match s.ofile p ⟨i, h⟩ with
    | none => s.setCall p (.forking np (i + 1))
    | some f =>
      (filedup f (s.setOfile np (update (s.ofile np) ⟨i, h⟩ (some f)))).setCall p
        (.forking np (i + 1))
  else (s.setCall p .user).setCall np .user

/-- One turn of the loop over the descriptors in `kexit`, or what follows it. -/
def kexitTurn (p : ι) (fd : ℕ) (s : Files ι) : Files ι :=
  if h : fd < nofile then
    match s.ofile p ⟨fd, h⟩ with
    | none => s.setCall p (.exiting (fd + 1))
    | some f =>
      fileclose p f (.exits fd) (s.setOfile p (update (s.ofile p) ⟨fd, h⟩ none))
  else s.setCall p .absent

/-- What a process can do next. -/
def fileStep (s : Files ι) (e : FileEvent ι) : Option (Files ι) :=
  if s.panic ≠ none then none
  else
    match e with
    | .dup p fd => if s.call p = .user then some (sysDup p fd s) else none
    | .close p fd => if s.call p = .user then some (sysClose p fd s) else none
    | .openAlloc p => if s.call p = .user then some (filealloc p .opening .user s) else none
    | .openInstall p type readable writable =>
      match s.call p, type with
      | .opening f, .inode ip => some (sysOpenInstall p f (.inode ip) readable writable s)
      | .opening f, .device ip major =>
        some (sysOpenInstall p f (.device ip major) readable writable s)
      | _, _ => none
    | .pipeFirst p => if s.call p = .user then some (filealloc p .first .user s) else none
    | .pipeSecond p =>
      match s.call p with
      | .first rf => some (filealloc p (.second rf) (.dropping rf .user) s)
      | _ => none
    | .pipeMake p page =>
      match s.call p with
      | .second rf wf =>
        -- `kalloc` returns no page that is in use.
        if page.all fun page ↦ s.pipes page = none then some (pipeallocMake p rf wf page s)
        else none
      | _ => none
    | .pipeInstall p copyout =>
      match s.call p with
      | .piped rf wf => some (sysPipeInstall p rf wf copyout s)
      | _ => none
    | .drop p =>
      match s.call p with
      | .dropping f next => some (fileclose p f next s)
      | _ => none
    | .release p =>
      match s.call p with
      | .releasing ff next => some (filecloseRest p ff next s)
      | _ => none
    | .fork p np =>
      if s.call p = .user ∧ s.call np = .absent then
        some ((s.setCall p (.forking np 0)).setCall np .born)
      else none
    | .forkTurn p =>
      match s.call p with
      | .forking np i => some (kforkTurn p np i s)
      | _ => none
    | .exit p => if s.call p = .user then some (s.setCall p (.exiting 0)) else none
    | .exitTurn p =>
      match s.call p with
      | .exiting fd => some (kexitTurn p fd s)
      | _ => none

/-- The first process, with no files open, and nobody else. -/
def firstProcess (init : ι) : Files ι where
  files := fun _ ↦ ⟨0, .none, false, false⟩
  ofile := fun _ _ ↦ none
  call := update (fun _ ↦ .absent) init .user
  pipes := fun _ ↦ none
  panic := none

end Irish.Xv6
