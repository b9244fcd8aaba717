import Irish.Library.RingBuffer
import Irish.Library.Run
import Irish.Library.Waiters
import Mathlib.Order.Basic

/-!
# Pipes

`kernel/pipe.c` with any number of readers and writers of one pipe. A call goes from one `sleep` to
the next under the lock of the pipe, so each such section is one event: `writeTurn` runs the loop of
`pipewrite` until it sleeps or returns, and `readTurn` does the same for `piperead`. Whether a
process has been killed and whether a byte can be copied from or to its memory comes with the event;
`killed` may change between two bytes of one section.

The bytes that went in and came out of a pipe are kept in `sent` and `received`, which the source
does not have. `readopen` and `writeopen` are only changed by `pipeclose`, and the memory of the
pipe is given back when both are gone. The counts `n` are not negative, as `fileread` and
`filewrite` ensure.
-/

set_option autoImplicit false

namespace Irish.Xv6

open Library
open Function (update update_self)

/-- `PIPESIZE`. -/
def pipeSize : ℕ := 512

instance : NeZero pipeSize := ⟨by decide⟩

structure Pipe where
  buf : RingBuffer 32 UInt8 pipeSize
  readopen : Bool
  writeopen : Bool
  sent : List UInt8
  received : List UInt8

/-- The two addresses that processes sleep on. -/
inductive PipeChan
  | nread
  | nwrite
deriving DecidableEq, Repr

/-- What a process is doing with the pipe. -/
inductive PipeUse
  | idle
  /-- in the loop of `pipewrite`, with `i` and `n` -/
  | writing (i n : ℕ)
  /-- in the first loop of `piperead` -/
  | reading (n : ℕ)
  | returned (r : ℤ)
deriving DecidableEq, Repr

structure PipeSystem (ι : Type*) where
  pipe : Pipe
  users : ι → PipeUse
  chan : ι → Option PipeChan
  frees : ℕ

inductive PipeEvent (ι : Type*)
  | write (p : ι) (n : ℕ)
  | writeTurn (p : ι) (killed : ℕ → Bool) (copyin : ℕ → Option UInt8)
  | read (p : ι) (n : ℕ)
  | readTurn (p : ι) (killed : Bool) (copyout : ℕ → Bool)
  | close (writable : Bool)

/-- The pipe of `pipealloc`, in memory with any contents. -/
def pipealloc (data : Fin pipeSize → UInt8) : Pipe :=
  { buf := ⟨data, 0#32, 0#32⟩, readopen := true, writeopen := true, sent := [], received := [] }

/-- `pi->nread == pi->nwrite`. -/
def Pipe.isEmpty (pi : Pipe) : Bool := pi.buf.nread == pi.buf.nwrite

/-- `pi->nwrite == pi->nread + PIPESIZE`. -/
def Pipe.isFull (pi : Pipe) : Bool := pi.buf.nwrite == pi.buf.nread + BitVec.ofNat 32 pipeSize

def Pipe.put (ch : UInt8) (pi : Pipe) : Pipe :=
  { pi with buf := pi.buf.push ch, sent := pi.sent ++ [ch] }

def Pipe.take (pi : Pipe) : Pipe :=
  { pi with buf := pi.buf.pop, received := pi.received ++ [pi.buf.front] }

/-- How a section of `pipewrite` ends: by a return without a wakeup, by sleeping, or behind the
loop. -/
inductive WriteEnd
  | fails
  | sleeps (i : ℕ)
  | returns (r : ℤ)
deriving DecidableEq, Repr

/-- The loop of `pipewrite` from `i` on, with the number of bytes left. -/
def pipewriteLoop (killed : ℕ → Bool) (copyin : ℕ → Option UInt8) : ℕ → ℕ → Pipe → Pipe × WriteEnd
  | 0, i, pi => (pi, .returns i)
  | left + 1, i, pi =>
    if pi.readopen = false ∨ killed i then (pi, .fails)
    else if pi.isFull then (pi, .sleeps i)
    else
      match copyin i with
      | none => (pi, .returns (if i = 0 then -1 else i))
      | some ch => pipewriteLoop killed copyin left (i + 1) (pi.put ch)

/-- The second loop of `piperead`. -/
def pipereadLoop (copyout : ℕ → Bool) : ℕ → ℕ → Pipe → Pipe × ℤ
  | 0, i, pi => (pi, i)
  | left + 1, i, pi =>
    if pi.isEmpty then (pi, i)
    else if copyout i then pipereadLoop copyout left (i + 1) pi.take
    else (pi, if i = 0 then -1 else i)

variable {ι : Type*} [DecidableEq ι] {s t : PipeSystem ι} {e : PipeEvent ι} {k : ℕ} {pi pi' : Pipe}

/-- A section of `pipewrite`. -/
def pipewrite (p : ι) (i n : ℕ) (killed : ℕ → Bool) (copyin : ℕ → Option UInt8)
    (s : PipeSystem ι) : PipeSystem ι :=
  match pipewriteLoop killed copyin (n - i) i s.pipe with
  | (pi, .fails) =>
    { s with pipe := pi, users := update s.users p (.returned (-1)),
             chan := unregister p s.chan }
  | (pi, .sleeps j) =>
    { s with pipe := pi, users := update s.users p (.writing j n),
             chan := register p .nwrite (wake .nread s.chan) }
  | (pi, .returns r) =>
    { s with pipe := pi, users := update s.users p (.returned r),
             chan := unregister p (wake .nread s.chan) }

/-- A section of `piperead`. -/
def piperead (p : ι) (n : ℕ) (killed : Bool) (copyout : ℕ → Bool) (s : PipeSystem ι) :
    PipeSystem ι :=
  if s.pipe.isEmpty ∧ s.pipe.writeopen then
    if killed then
      { s with users := update s.users p (.returned (-1)), chan := unregister p s.chan }
    else { s with chan := register p .nread s.chan }
  else
    let (pi, r) := pipereadLoop copyout n 0 s.pipe
    { s with pipe := pi, users := update s.users p (.returned r),
             chan := unregister p (wake .nwrite s.chan) }

def pipeclose (writable : Bool) (s : PipeSystem ι) : PipeSystem ι :=
  let s :=
    if writable then
      { s with pipe := { s.pipe with writeopen := false }, chan := wake .nread s.chan }
    else { s with pipe := { s.pipe with readopen := false }, chan := wake .nwrite s.chan }
  if s.pipe.readopen = false ∧ s.pipe.writeopen = false then { s with frees := s.frees + 1 } else s

def pipeStep (s : PipeSystem ι) : PipeEvent ι → Option (PipeSystem ι)
  | .write p n =>
    match s.users p with
    | .idle => some { s with users := update s.users p (.writing 0 n) }
    | .returned _ => some { s with users := update s.users p (.writing 0 n) }
    | _ => none
  | .writeTurn p killed copyin =>
    match s.users p with
    | .writing i n => some (pipewrite p i n killed copyin s)
    | _ => none
  | .read p n =>
    match s.users p with
    | .idle => some { s with users := update s.users p (.reading n) }
    | .returned _ => some { s with users := update s.users p (.reading n) }
    | _ => none
  | .readTurn p killed copyout =>
    match s.users p with
    | .reading n => some (piperead p n killed copyout s)
    | _ => none
  | .close writable => some (pipeclose writable s)

omit [DecidableEq ι] in
/-- A new pipe that nobody has used. -/
def newPipe (data : Fin pipeSize → UInt8) : PipeSystem ι :=
  { pipe := pipealloc data, users := fun _ ↦ .idle, chan := fun _ ↦ none, frees := 0 }

/-! ### What a step can do -/

/-- The steps of the readers and writers, with the states they need. -/
inductive PipeMove (s : PipeSystem ι) : PipeEvent ι → PipeSystem ι → Prop
  | callsWrite (p : ι) (n : ℕ) (huser : s.users p = .idle ∨ ∃ r, s.users p = .returned r) :
    PipeMove s (.write p n) { s with users := update s.users p (.writing 0 n) }
  | writeFails (p : ι) (killed : ℕ → Bool) (copyin : ℕ → Option UInt8) (i n : ℕ) (pi : Pipe)
      (huser : s.users p = .writing i n)
      (hloop : pipewriteLoop killed copyin (n - i) i s.pipe = (pi, .fails)) :
    PipeMove s (.writeTurn p killed copyin)
      { s with pipe := pi, users := update s.users p (.returned (-1)),
               chan := unregister p s.chan }
  | writeSleeps (p : ι) (killed : ℕ → Bool) (copyin : ℕ → Option UInt8) (i n j : ℕ) (pi : Pipe)
      (huser : s.users p = .writing i n)
      (hloop : pipewriteLoop killed copyin (n - i) i s.pipe = (pi, .sleeps j)) :
    PipeMove s (.writeTurn p killed copyin)
      { s with pipe := pi, users := update s.users p (.writing j n),
               chan := register p .nwrite (wake .nread s.chan) }
  | writeReturns (p : ι) (killed : ℕ → Bool) (copyin : ℕ → Option UInt8) (i n : ℕ) (pi : Pipe)
      (r : ℤ) (huser : s.users p = .writing i n)
      (hloop : pipewriteLoop killed copyin (n - i) i s.pipe = (pi, .returns r)) :
    PipeMove s (.writeTurn p killed copyin)
      { s with pipe := pi, users := update s.users p (.returned r),
               chan := unregister p (wake .nread s.chan) }
  | callsRead (p : ι) (n : ℕ) (huser : s.users p = .idle ∨ ∃ r, s.users p = .returned r) :
    PipeMove s (.read p n) { s with users := update s.users p (.reading n) }
  | readKilled (p : ι) (copyout : ℕ → Bool) (n : ℕ) (huser : s.users p = .reading n)
      (hempty : s.pipe.isEmpty = true) (hopen : s.pipe.writeopen = true) :
    PipeMove s (.readTurn p true copyout)
      { s with users := update s.users p (.returned (-1)), chan := unregister p s.chan }
  | readSleeps (p : ι) (copyout : ℕ → Bool) (n : ℕ) (huser : s.users p = .reading n)
      (hempty : s.pipe.isEmpty = true) (hopen : s.pipe.writeopen = true) :
    PipeMove s (.readTurn p false copyout) { s with chan := register p .nread s.chan }
  | readReturns (p : ι) (killed : Bool) (copyout : ℕ → Bool) (n : ℕ) (pi : Pipe) (r : ℤ)
      (huser : s.users p = .reading n)
      (hready : ¬ (s.pipe.isEmpty = true ∧ s.pipe.writeopen = true))
      (hloop : pipereadLoop copyout n 0 s.pipe = (pi, r)) :
    PipeMove s (.readTurn p killed copyout)
      { s with pipe := pi, users := update s.users p (.returned r),
               chan := unregister p (wake .nwrite s.chan) }
  | closesWrite (frees : ℕ) :
    PipeMove s (.close true)
      { s with pipe := { s.pipe with writeopen := false }, chan := wake .nread s.chan,
               frees := frees }
  | closesRead (frees : ℕ) :
    PipeMove s (.close false)
      { s with pipe := { s.pipe with readopen := false }, chan := wake .nwrite s.chan,
               frees := frees }

theorem pipeMove_of_pipeStep {s t : PipeSystem ι} {e : PipeEvent ι} (h : pipeStep s e = some t) :
    PipeMove s e t := by
  unfold pipeStep at h
  split at h
  · rename_i p n
    split at h <;> cases h
    · rename_i huser
      exact .callsWrite p n (.inl huser)
    · rename_i r huser
      exact .callsWrite p n (.inr ⟨r, huser⟩)
  · rename_i p killed copyin
    split at h <;> cases h
    rename_i i n huser
    unfold pipewrite
    rcases hloop : pipewriteLoop killed copyin (n - i) i s.pipe with ⟨pi, stop⟩
    cases stop with
    | fails => exact .writeFails p killed copyin i n pi huser hloop
    | sleeps j => exact .writeSleeps p killed copyin i n j pi huser hloop
    | returns r => exact .writeReturns p killed copyin i n pi r huser hloop
  · rename_i p n
    split at h <;> cases h
    · rename_i huser
      exact .callsRead p n (.inl huser)
    · rename_i r huser
      exact .callsRead p n (.inr ⟨r, huser⟩)
  · rename_i p killed copyout
    split at h <;> cases h
    rename_i n huser
    unfold piperead
    split_ifs with hwait hkilled
    · exact hkilled ▸ .readKilled p copyout n huser hwait.1 hwait.2
    · exact Bool.eq_false_iff.mpr hkilled ▸ .readSleeps p copyout n huser hwait.1 hwait.2
    · exact .readReturns p killed copyout n _ _ huser hwait rfl
  · rename_i writable
    cases h
    cases writable with
    | true =>
      rw [pipeclose, if_pos rfl]
      split_ifs <;> exact .closesWrite _
    | false =>
      rw [pipeclose, if_neg Bool.false_ne_true]
      split_ifs <;> exact .closesRead _

/-! ### The bytes -/

/-- What came out and what is inside is what went in. -/
structure PipeBytes (pi : Pipe) : Prop where
  bytes : pi.received ++ pi.buf.contents = pi.sent
  room : pi.buf.count ≤ pipeSize

section Bytes

variable {copyin : ℕ → Option UInt8} {left i : ℕ} {copyout : ℕ → Bool}

theorem isEmpty_iff : pi.isEmpty = true ↔ pi.buf.count = 0 := by
  rw [Pipe.isEmpty, beq_iff_eq, RingBuffer.count_eq_zero]

theorem isFull_iff : pi.isFull = true ↔ pi.buf.count = pipeSize := by
  rw [Pipe.isFull, beq_iff_eq, RingBuffer.count_eq_iff (by decide)]

theorem pipeBytes_pipealloc (data : Fin pipeSize → UInt8) : PipeBytes (pipealloc data) := by
  have hcount : (pipealloc data).buf.count = 0 := RingBuffer.count_eq_zero.mp rfl
  refine ⟨?_, hcount ▸ Nat.zero_le _⟩
  rw [List.eq_nil_of_length_eq_zero (RingBuffer.length_contents.trans hcount)]
  rfl

theorem PipeBytes.put (h : PipeBytes pi) (hfull : pi.isFull = false) (ch : UInt8) :
    PipeBytes (pi.put ch) := by
  have hlt : pi.buf.count < pipeSize := by
    refine Nat.lt_of_le_of_ne h.room fun heq ↦ ?_
    rw [isFull_iff.mpr heq] at hfull
    cases hfull
  refine ⟨?_, ?_⟩
  · rw [Pipe.put, RingBuffer.contents_push (by decide) (by decide) hlt, ← List.append_assoc,
      h.bytes]
  · have hroom : pi.buf.count + 1 < 2 ^ 32 := Nat.lt_of_le_of_lt hlt (by decide)
    rwa [Pipe.put, RingBuffer.count_push hroom]

theorem PipeBytes.take (h : PipeBytes pi) (hempty : pi.isEmpty = false) : PipeBytes pi.take := by
  have hpos : 0 < pi.buf.count := by
    refine Nat.pos_of_ne_zero fun heq ↦ ?_
    rw [isEmpty_iff.mpr heq] at hempty
    cases hempty
  refine ⟨?_, ?_⟩
  · have hbytes := h.bytes
    rw [RingBuffer.contents_pop (by decide) hpos] at hbytes
    rwa [Pipe.take, List.append_assoc]
  · have hroom := h.room
    rw [Pipe.take, RingBuffer.count_pop hpos]
    omega

theorem PipeBytes.writeLoop {killed : ℕ → Bool} (h : PipeBytes pi) :
    PipeBytes (pipewriteLoop killed copyin left i pi).1 := by
  induction left generalizing i pi with
  | zero => exact h
  | succ _ ih =>
    rw [pipewriteLoop]
    by_cases hfail : pi.readopen = false ∨ killed i = true
    · rwa [if_pos hfail]
    rw [if_neg hfail]
    cases hfull : pi.isFull with
    | true => exact h
    | false =>
      rw [if_neg Bool.false_ne_true]
      cases copyin i with
      | none => exact h
      | some ch => exact ih (h.put hfull ch)

theorem PipeBytes.readLoop (h : PipeBytes pi) : PipeBytes (pipereadLoop copyout left i pi).1 := by
  induction left generalizing i pi with
  | zero => exact h
  | succ _ ih =>
    rw [pipereadLoop]
    cases hempty : pi.isEmpty with
    | true => exact h
    | false =>
      rw [if_neg Bool.false_ne_true]
      cases copyout i with
      | true => exact ih (h.take hempty)
      | false => exact h

end Bytes

section Stream

variable {u : PipeSystem ι} {p : ι} {data : Fin pipeSize → UInt8}
  {l : List (Transition (PipeSystem ι) (PipeEvent ι))}

theorem pipeBytes_step (h : pipeStep s e = some t) (hs : PipeBytes s.pipe) : PipeBytes t.pipe := by
  cases pipeMove_of_pipeStep h with
  | callsWrite | callsRead | readKilled | readSleeps => exact hs
  | writeFails _ _ _ _ _ _ _ hloop | writeSleeps _ _ _ _ _ _ _ _ hloop
  | writeReturns _ _ _ _ _ _ _ _ hloop => exact (congrArg (PipeBytes ·.1) hloop).mp hs.writeLoop
  | readReturns _ _ _ _ _ _ _ _ hloop =>
    exact (congrArg (PipeBytes ·.1) hloop).mp hs.readLoop
  | closesWrite | closesRead => exact ⟨hs.bytes, hs.room⟩

theorem pipeBytes_path (h : Path pipeStep (newPipe data) l u) : PipeBytes u.pipe :=
  h.preserves (I := fun s ↦ PipeBytes s.pipe) (fun _ _ _ ↦ pipeBytes_step)
    (pipeBytes_pipealloc data)

/-- The bytes come out of a pipe in the order in which they went in, whoever reads and writes, and
at most `PIPESIZE` of them are on their way. -/
theorem pipe_fifo (h : Path pipeStep (newPipe data) l u) :
    u.pipe.received ++ u.pipe.buf.contents = u.pipe.sent ∧
      u.pipe.buf.contents.length ≤ pipeSize := by
  have hbytes := pipeBytes_path h
  refine ⟨hbytes.bytes, ?_⟩
  rw [RingBuffer.length_contents]
  exact hbytes.room

/-- A writer sends two bytes and the write end is closed; a reader takes them and reads again. -/
def drained : List (Transition (PipeSystem Bool) (PipeEvent Bool)) × PipeSystem Bool :=
  replay pipeStep (newPipe fun _ ↦ 0)
    [.write false 2, .writeTurn false (fun _ ↦ false) (fun i ↦ some (if i = 0 then 104 else 105)),
      .close true, .read true 8, .readTurn true false (fun _ ↦ true), .read true 8]

theorem pipe_fifo_drained : drained.2.pipe.received = [104, 105] ∧
    drained.2.pipe.received ++ drained.2.pipe.buf.contents = drained.2.pipe.sent ∧
      drained.2.pipe.buf.contents.length ≤ pipeSize :=
  ⟨by decide, pipe_fifo (path_replay _ _)⟩

end Stream

/-! ### What `piperead` returns -/

section Read

/-- Between two states of a pipe its oldest `k` bytes were read. -/
structure Took (k : ℕ) (pi pi' : Pipe) : Prop where
  received : pi'.received = pi.received ++ pi.buf.contents.take k
  contents : pi'.buf.contents = pi.buf.contents.drop k
  sent : pi'.sent = pi.sent
  writeopen : pi'.writeopen = pi.writeopen

theorem Took.refl (pi : Pipe) : Took 0 pi pi := ⟨by simp, rfl, rfl, rfl⟩

theorem Took.of_take (hempty : pi.isEmpty = false) (h : Took k pi.take pi') :
    Took (k + 1) pi pi' := by
  have hpos : 0 < pi.buf.count := by
    refine Nat.pos_of_ne_zero fun heq ↦ ?_
    rw [isEmpty_iff.mpr heq] at hempty
    cases hempty
  have hfront := RingBuffer.contents_pop (b := pi.buf) (by decide) hpos
  refine ⟨?_, ?_, h.sent, h.writeopen⟩
  · rw [h.received, hfront, List.take_succ_cons]
    simp [Pipe.take]
  · rw [h.contents, hfront, List.drop_succ_cons]
    rfl

/-- The loop of `piperead` behind `i` bytes: it returns how many bytes there are with those it takes
out, except that a first byte that cannot be copied is an error. -/
theorem pipereadLoop_took (copyout : ℕ → Bool) (left i : ℕ) (pi : Pipe) :
    (∃ k ≤ left, (pipereadLoop copyout left i pi).2 = ((i + k : ℕ) : ℤ) ∧
      Took k pi (pipereadLoop copyout left i pi).1 ∧
      (k = 0 → 0 < left → 0 < i ∨ pi.isEmpty = true)) ∨
    i = 0 ∧ pipereadLoop copyout left i pi = (pi, -1) := by
  induction left generalizing i pi with
  | zero => exact .inl ⟨0, Nat.le_refl _, rfl, .refl pi, fun _ h ↦ absurd h (Nat.lt_irrefl 0)⟩
  | succ _ ih =>
    rw [pipereadLoop]
    cases hempty : pi.isEmpty with
    | true => exact .inl ⟨0, Nat.zero_le _, rfl, .refl pi, fun _ _ ↦ .inr rfl⟩
    | false =>
      rw [if_neg Bool.false_ne_true]
      cases copyout i with
      | true =>
        rw [if_pos rfl]
        rcases ih (i + 1) pi.take with ⟨k, hk, hr, htook, -⟩ | ⟨hi, -⟩
        · refine .inl ⟨k + 1, Nat.succ_le_succ hk, hr.trans ?_, htook.of_take hempty, ?_⟩
          · congr 1
            omega
          · exact nofun
        · cases hi
      | false =>
        rw [if_neg Bool.false_ne_true]
        by_cases hi : i = 0
        · exact .inr ⟨hi, by rw [if_pos hi]⟩
        · rw [if_neg hi]
          exact .inl ⟨0, Nat.zero_le _, rfl, .refl pi, fun _ _ ↦ .inl (Nat.pos_of_ne_zero hi)⟩

variable {u : PipeSystem ι} {p : ι} {data : Fin pipeSize → UInt8}
  {l : List (Transition (PipeSystem ι) (PipeEvent ι))} {killed : Bool} {copyout : ℕ → Bool} {n : ℕ}
  {r : ℤ}

/-- `piperead` fails and leaves the pipe alone, or it returns the number of the bytes that it took,
which are the oldest ones. It returns 0 for a request of some bytes only when all writers are gone
and everything they sent has been read. -/
theorem piperead_returns (h : Path pipeStep (newPipe data) l u) (huser : u.users p = .reading n)
    (hstep : pipeStep u (.readTurn p killed copyout) = some t) (hr : t.users p = .returned r) :
    (r = -1 ∧ t.pipe = u.pipe ∨ ∃ k ≤ n, r = (k : ℤ) ∧ Took k u.pipe t.pipe) ∧
      (r = 0 → 0 < n → t.pipe.writeopen = false ∧ t.pipe.received = t.pipe.sent) := by
  have hbytes := pipeBytes_step hstep (pipeBytes_path h)
  cases pipeMove_of_pipeStep hstep with
  | readKilled =>
    simp only [update_self, PipeUse.returned.injEq] at hr
    exact ⟨.inl ⟨hr.symm, rfl⟩, fun hzero ↦ by omega⟩
  | readSleeps =>
    cases huser.symm.trans hr
  | readReturns _ _ _ m pi _ hm hready hloop =>
    obtain rfl : m = n := by
      cases huser.symm.trans hm
      rfl
    simp only [update_self, PipeUse.returned.injEq] at hr
    subst hr
    have hspec := pipereadLoop_took copyout m 0 u.pipe
    rw [hloop] at hspec
    rcases hspec with ⟨k, hk, rfl, htook, hzero⟩ | ⟨-, hfail⟩
    · refine ⟨.inr ⟨k, hk, by rw [Nat.zero_add], htook⟩, fun hk0 hpos ↦ ?_⟩
      -- Nothing was taken, so the pipe was empty, and then only a closed pipe is not waited for.
      have hk' : k = 0 := by omega
      have hempty : u.pipe.isEmpty = true := (hzero hk' hpos).resolve_left (Nat.lt_irrefl 0)
      have hclosed : u.pipe.writeopen = false := by
        by_contra hopen
        exact hready ⟨hempty, Bool.not_eq_false _ ▸ hopen⟩
      refine ⟨htook.writeopen.trans hclosed, ?_⟩
      have hnil : pi.buf.contents = [] := by
        rw [htook.contents, List.eq_nil_of_length_eq_zero
          (RingBuffer.length_contents.trans (isEmpty_iff.mp hempty)), List.drop_nil]
      have hall := hbytes.bytes
      simp only [hnil, List.append_nil] at hall
      exact hall
    · cases hfail
      exact ⟨.inl ⟨rfl, rfl⟩, fun hzero ↦ by omega⟩

theorem piperead_returns_drained :
    (piperead true 8 false (fun _ ↦ true) drained.2).users true = .returned 0 ∧
      (piperead true 8 false (fun _ ↦ true) drained.2).pipe.writeopen = false ∧
      (piperead true 8 false (fun _ ↦ true) drained.2).pipe.received =
        (piperead true 8 false (fun _ ↦ true) drained.2).pipe.sent := by
  have hpath : Path pipeStep (newPipe fun _ ↦ 0) drained.1 drained.2 := path_replay _ _
  have hstep : pipeStep drained.2 (.readTurn true false fun _ ↦ true) =
      some (piperead true 8 false (fun _ ↦ true) drained.2) := rfl
  have hzero : (piperead true 8 false (fun _ ↦ true) drained.2).users true = .returned 0 := by
    decide
  exact ⟨hzero, (piperead_returns (n := 8) hpath (by decide) hstep hzero).2 rfl (by decide)⟩

end Read

end Irish.Xv6
