import Irish.Library.RedoLog
import Irish.Library.Run
import Irish.Library.Waiters
import Mathlib.Algebra.BigOperators.Group.Finset.Basic
import Mathlib.Data.Fintype.Basic

/-!
# The log of the file system

`kernel/log.c` on a disk that may lose power between any two writes. A file system call brackets its
writes by `begin_op` and `end_op`; `log_write` only records the block and keeps it in the cache, and
the last `end_op` writes the recorded blocks to the log, then the header, then the blocks to their
places. Each section under `log.lock` is one event, and so is each write to the disk of `commit` and
of `recover_from_log`. A crash may come at any moment, also during a recovery.

The buffer cache is the partial function `cache` from block numbers to data: a block may be read in
at any moment, and given up at any moment unless the log has pinned it. A caller holds the lock of
its buffer from its first change of the data to `log_write`, so the change and the call are one
event, which carries the new contents. `log.ncommit` and `log.outstanding` are natural numbers here
and an `int` in the source.

The loops of `begin_op` and `sys_sync` wait on the address of the log. `chan` is `p->chan` of a
process in such a loop; a process that goes on after a kill with its channel still set does not
sleep again before it registers again, so `chan` forgets it.
-/

set_option autoImplicit false

namespace Irish.Xv6

open Library
open Function (update)

/-- `MAXOPBLOCKS`. -/
def maxOpBlocks : ℕ := 10

/-- `LOGBLOCKS`. -/
def logBlocks : ℕ := maxOpBlocks * 3

/-- The 32-bit words of a block of `BSIZE` bytes. -/
def blockWords : ℕ := 256

abbrev Block : Type := Fin blockWords → BitVec 32

/-! ### The header -/

def Block.word (b : Block) (i : ℕ) : BitVec 32 := if h : i < blockWords then b ⟨i, h⟩ else 0

/-- `write_head`: the count and the block numbers, over what the header block holds. -/
def encodeHead (lh : List ℕ) (b : Block) : Block := fun j ↦
  if j.val = 0 then BitVec.ofNat 32 lh.length
  else
    match lh[j.val - 1]? with
    | some blockno => BitVec.ofNat 32 blockno
    | none => b j

/-- `read_head`. -/
def decodeHead (b : Block) : List ℕ :=
  (List.range (b.word 0).toInt.toNat).map fun i ↦ (b.word (i + 1)).toNat

/-! ### The system -/

/-- What a process is doing with the log. -/
inductive LogUse
  | idle
  /-- in the loop of `begin_op` -/
  | beginWait
  /-- between `begin_op` and `end_op`, with the number of blocks that it has added to the log -/
  | inOp (added : ℕ)
  /-- in the loop of `sys_sync`, with its variable `n` -/
  | syncWait (n : ℕ)
  /-- in `commit` -/
  | committer
deriving DecidableEq, Repr

/-- Where `commit` or `recover_from_log` is. -/
inductive LogPhase
  | running
  | writeLog (tail : ℕ)
  | writeHead
  | install (tail : ℕ)
  | clearHead
  | finish
  | readHead
  | recover (tail : ℕ)
  | clearRecovered
deriving DecidableEq, Repr

def LogPhase.recovering : LogPhase → Bool
  | .readHead => true
  | .recover _ => true
  | .clearRecovered => true
  | _ => false

inductive LogPanic
  | tooBigTransaction
  | outsideTransaction
  | committing
deriving DecidableEq, Repr

/-- The disk, the cache and `struct log`, with the processes that use it. The list `lh` is
`log.lh.block` up to `log.lh.n`. -/
structure LogSystem (ι : Type*) where
  disk : ℕ → Block
  cache : ℕ → Option Block
  lh : List ℕ
  outstanding : ℕ
  committing : Bool
  ncommit : ℕ
  procs : ι → LogUse
  chan : ι → Option Unit
  phase : LogPhase
  panic : Option LogPanic

inductive LogEvent (ι : Type*)
  | beginOp (i : ι)
  | logWrite (i : ι) (blockno : ℕ) (data : Block)
  | endOp (i : ι)
  | commit (i : ι)
  | sync (i : ι)
  | fill (blockno : ℕ)
  | evict (blockno : ℕ)
  | crash
  | recover

variable {ι : Type*}

/-- The data that `bread` returns. -/
def LogSystem.view (s : LogSystem ι) (blockno : ℕ) : Block :=
  (s.cache blockno).getD (s.disk blockno)

/-- Fill a buffer and `bwrite` it. -/
def LogSystem.bwrite (s : LogSystem ι) (blockno : ℕ) (data : Block) : LogSystem ι :=
  { s with disk := update s.disk blockno data,
           cache := update s.cache blockno (some data) }

/-- The blocks that the log has pinned. `install_trans` gives up one after the other. -/
def LogSystem.pinned (s : LogSystem ι) : List ℕ :=
  match s.phase with
  | .running => s.lh
  | .writeLog _ => s.lh
  | .writeHead => s.lh
  | .install tail => s.lh.drop tail
  | _ => []

section Functions

variable [DecidableEq ι]

/-- One turn of the loop of `begin_op`. -/
def beginOp (i : ι) (s : LogSystem ι) : LogSystem ι :=
  if s.committing ∨ logBlocks < s.lh.length + (s.outstanding + 1) * maxOpBlocks then
    { s with procs := update s.procs i .beginWait, chan := register i () s.chan }
  else
    { s with outstanding := s.outstanding + 1, procs := update s.procs i (.inOp 0),
             chan := unregister i s.chan }

/-- The search of `log_write` for the block, and its write to `log.lh.block`. -/
def logInsert (lh : List ℕ) (blockno : ℕ) : List ℕ :=
  if lh.idxOf blockno = lh.length then lh ++ [blockno] else lh.set (lh.idxOf blockno) blockno

/-- `log_write` of new data for a block, in an operation that has added some blocks. -/
def logWrite (i : ι) (added blockno : ℕ) (data : Block) (s : LogSystem ι) : LogSystem ι :=
  if logBlocks ≤ s.lh.length then { s with panic := some .tooBigTransaction }
  else if s.outstanding < 1 then { s with panic := some .outsideTransaction }
  else
    { s with cache := update s.cache blockno (some data), lh := logInsert s.lh blockno,
             procs := update s.procs i
               (.inOp (added + if blockno ∈ s.lh then 0 else 1)) }

/-- `end_op` up to the call of `commit`. -/
def endOp (i : ι) (s : LogSystem ι) : LogSystem ι :=
  let s := { s with outstanding := s.outstanding - 1 }
  if s.committing then { s with panic := some .committing }
  else if s.outstanding = 0 then
    { s with committing := true, procs := update s.procs i .committer,
             phase := if s.lh.length > 0 then .writeLog 0 else .finish }
  else { s with procs := update s.procs i .idle, chan := wake () s.chan }

/-- The next write of `commit` to the disk, or the end of `end_op` after it. -/
def commitStep (start : ℕ) (i : ι) (s : LogSystem ι) : Option (LogSystem ι) :=
  match s.phase with
  | .writeLog tail =>
    match s.lh[tail]? with
    | some blockno =>
      some { s.bwrite (start + tail + 1) (s.view blockno) with phase := .writeLog (tail + 1) }
    | none => some { s with phase := .writeHead }
  | .writeHead =>
    some { s.bwrite start (encodeHead s.lh (s.view start)) with phase := .install 0 }
  | .install tail =>
    match s.lh[tail]? with
    | some blockno =>
      some { s.bwrite blockno (s.view (start + tail + 1)) with phase := .install (tail + 1) }
    | none => some { s with lh := [], phase := .clearHead }
  | .clearHead => some { s.bwrite start (encodeHead s.lh (s.view start)) with phase := .finish }
  | .finish =>
    some { s with committing := false, ncommit := s.ncommit + 1,
                  procs := update s.procs i .idle, chan := wake () s.chan,
                  phase := .running }
  | _ => none

/-- `sys_sync` up to its loop. -/
def sysSync (i : ι) (s : LogSystem ι) : LogSystem ι :=
  if s.committing ∨ 0 < s.outstanding then
    { s with procs := update s.procs i (.syncWait (s.ncommit + 1)),
             chan := register i () s.chan }
  else s

/-- One turn of the loop of `sys_sync`. -/
def sysSyncTurn (i : ι) (n : ℕ) (s : LogSystem ι) : LogSystem ι :=
  if s.ncommit < n then { s with chan := register i () s.chan }
  else { s with procs := update s.procs i .idle, chan := unregister i s.chan }

end Functions

/-- The machine after its power has come back. -/
def powerOn (disk : ℕ → Block) : LogSystem ι :=
  { disk := disk, cache := fun _ ↦ none, lh := [], outstanding := 0, committing := false,
    ncommit := 0, procs := fun _ ↦ .idle, chan := fun _ ↦ none, phase := .readHead, panic := none }

/-- The next step of `recover_from_log`. -/
def recoverStep (start : ℕ) (s : LogSystem ι) : Option (LogSystem ι) :=
  match s.phase with
  | .readHead => some { s with lh := decodeHead (s.view start), phase := .recover 0 }
  | .recover tail =>
    match s.lh[tail]? with
    | some blockno =>
      some { s.bwrite blockno (s.view (start + tail + 1)) with phase := .recover (tail + 1) }
    | none => some { s with lh := [], phase := .clearRecovered }
  | .clearRecovered =>
    some { s.bwrite start (encodeHead s.lh (s.view start)) with phase := .running }
  | _ => none

variable [DecidableEq ι]

/-- What a process does with the log. No process runs before the recovery is complete. -/
def logCall (start : ℕ) (s : LogSystem ι) : LogEvent ι → Option (LogSystem ι)
  | .beginOp i =>
    match s.procs i with
    | .idle => some (beginOp i s)
    | .beginWait => some (beginOp i s)
    | _ => none
  | .logWrite i blockno data =>
    match s.procs i with
    | .inOp added => some (logWrite i added blockno data s)
    | _ => none
  | .endOp i =>
    match s.procs i with
    | .inOp _ => some (endOp i s)
    | _ => none
  | .commit i =>
    match s.procs i with
    | .committer => commitStep start i s
    | _ => none
  | .sync i =>
    match s.procs i with
    | .idle => some (sysSync i s)
    | .syncWait n => some (sysSyncTurn i n s)
    | _ => none
  | _ => none

def logStep (start : ℕ) (s : LogSystem ι) (e : LogEvent ι) : Option (LogSystem ι) :=
  match e with
  | .crash => some (powerOn s.disk)
  | e =>
    if s.panic ≠ none then none
    else
      match e with
      | .fill blockno =>
        some { s with cache := update s.cache blockno (some (s.view blockno)) }
      | .evict blockno =>
        if blockno ∈ s.pinned then none
        else some { s with cache := update s.cache blockno none }
      | .recover => recoverStep start s
      | e => if s.phase.recovering then none else logCall start s e

/-! ### What a step can do -/

/-- The steps of the system, with the states they need. -/
inductive LogMove (start : ℕ) (s : LogSystem ι) : LogEvent ι → LogSystem ι → Prop
  | beginWaits (i : ι) (hready : s.phase.recovering = false)
      (hproc : s.procs i = .idle ∨ s.procs i = .beginWait)
      (hwait : s.committing ∨ logBlocks < s.lh.length + (s.outstanding + 1) * maxOpBlocks) :
    LogMove start s (.beginOp i)
      { s with procs := update s.procs i .beginWait, chan := register i () s.chan }
  | begins (i : ι) (hready : s.phase.recovering = false)
      (hproc : s.procs i = .idle ∨ s.procs i = .beginWait) (hcommitting : s.committing = false)
      (hroom : s.lh.length + (s.outstanding + 1) * maxOpBlocks ≤ logBlocks) :
    LogMove start s (.beginOp i)
      { s with outstanding := s.outstanding + 1, procs := update s.procs i (.inOp 0),
               chan := unregister i s.chan }
  | writes (i : ι) (added blockno : ℕ) (data : Block) (hproc : s.procs i = .inOp added)
      (hroom : s.lh.length < logBlocks) (hout : 1 ≤ s.outstanding) :
    LogMove start s (.logWrite i blockno data)
      { s with cache := update s.cache blockno (some data), lh := logInsert s.lh blockno,
               procs := update s.procs i
                 (.inOp (added + if blockno ∈ s.lh then 0 else 1)) }
  | writePanics (i : ι) (added blockno : ℕ) (data : Block) (why : LogPanic)
      (hproc : s.procs i = .inOp added) (hwhy : logBlocks ≤ s.lh.length ∨ s.outstanding < 1) :
    LogMove start s (.logWrite i blockno data) { s with panic := some why }
  | endPanics (i : ι) (added : ℕ) (hproc : s.procs i = .inOp added)
      (hcommitting : s.committing = true) :
    LogMove start s (.endOp i)
      { s with outstanding := s.outstanding - 1, panic := some .committing }
  | endsLast (i : ι) (added : ℕ) (hproc : s.procs i = .inOp added)
      (hcommitting : s.committing = false) (hout : s.outstanding - 1 = 0) :
    LogMove start s (.endOp i)
      { s with outstanding := s.outstanding - 1, committing := true,
               procs := update s.procs i .committer,
               phase := if s.lh.length > 0 then .writeLog 0 else .finish }
  | ends (i : ι) (added : ℕ) (hproc : s.procs i = .inOp added)
      (hcommitting : s.committing = false) (hout : s.outstanding - 1 ≠ 0) :
    LogMove start s (.endOp i)
      { s with outstanding := s.outstanding - 1, procs := update s.procs i .idle,
               chan := wake () s.chan }
  | logsBlock (i : ι) (tail blockno : ℕ) (hproc : s.procs i = .committer)
      (hphase : s.phase = .writeLog tail) (hblock : s.lh[tail]? = some blockno) :
    LogMove start s (.commit i)
      { s.bwrite (start + tail + 1) (s.view blockno) with phase := .writeLog (tail + 1) }
  | logged (i : ι) (tail : ℕ) (hproc : s.procs i = .committer) (hphase : s.phase = .writeLog tail)
      (hblock : s.lh[tail]? = none) :
    LogMove start s (.commit i) { s with phase := .writeHead }
  | writesHead (i : ι) (hproc : s.procs i = .committer) (hphase : s.phase = .writeHead) :
    LogMove start s (.commit i)
      { s.bwrite start (encodeHead s.lh (s.view start)) with phase := .install 0 }
  | installsBlock (i : ι) (tail blockno : ℕ) (hproc : s.procs i = .committer)
      (hphase : s.phase = .install tail) (hblock : s.lh[tail]? = some blockno) :
    LogMove start s (.commit i)
      { s.bwrite blockno (s.view (start + tail + 1)) with phase := .install (tail + 1) }
  | installed (i : ι) (tail : ℕ) (hproc : s.procs i = .committer)
      (hphase : s.phase = .install tail) (hblock : s.lh[tail]? = none) :
    LogMove start s (.commit i) { s with lh := [], phase := .clearHead }
  | clearsHead (i : ι) (hproc : s.procs i = .committer) (hphase : s.phase = .clearHead) :
    LogMove start s (.commit i)
      { s.bwrite start (encodeHead s.lh (s.view start)) with phase := .finish }
  | finishes (i : ι) (hproc : s.procs i = .committer) (hphase : s.phase = .finish) :
    LogMove start s (.commit i)
      { s with committing := false, ncommit := s.ncommit + 1,
               procs := update s.procs i .idle, chan := wake () s.chan,
               phase := .running }
  | syncReturns (i : ι) (hready : s.phase.recovering = false) (hproc : s.procs i = .idle)
      (hcommitting : s.committing = false) (hout : s.outstanding = 0) :
    LogMove start s (.sync i) s
  | syncWaits (i : ι) (hready : s.phase.recovering = false) (hproc : s.procs i = .idle)
      (hbusy : s.committing ∨ 0 < s.outstanding) :
    LogMove start s (.sync i)
      { s with procs := update s.procs i (.syncWait (s.ncommit + 1)),
               chan := register i () s.chan }
  | syncWaitsOn (i : ι) (n : ℕ) (hproc : s.procs i = .syncWait n) (hn : s.ncommit < n) :
    LogMove start s (.sync i) { s with chan := register i () s.chan }
  | syncEnds (i : ι) (n : ℕ) (hproc : s.procs i = .syncWait n) (hn : n ≤ s.ncommit) :
    LogMove start s (.sync i)
      { s with procs := update s.procs i .idle, chan := unregister i s.chan }
  | fills (blockno : ℕ) :
    LogMove start s (.fill blockno)
      { s with cache := update s.cache blockno (some (s.view blockno)) }
  | evicts (blockno : ℕ) (hpinned : blockno ∉ s.pinned) :
    LogMove start s (.evict blockno) { s with cache := update s.cache blockno none }
  | crashes : LogMove start s .crash (powerOn s.disk)
  | readsHead (hphase : s.phase = .readHead) :
    LogMove start s .recover { s with lh := decodeHead (s.view start), phase := .recover 0 }
  | recoversBlock (tail blockno : ℕ) (hphase : s.phase = .recover tail)
      (hblock : s.lh[tail]? = some blockno) :
    LogMove start s .recover
      { s.bwrite blockno (s.view (start + tail + 1)) with phase := .recover (tail + 1) }
  | recovered (tail : ℕ) (hphase : s.phase = .recover tail) (hblock : s.lh[tail]? = none) :
    LogMove start s .recover { s with lh := [], phase := .clearRecovered }
  | clearsRecovered (hphase : s.phase = .clearRecovered) :
    LogMove start s .recover
      { s.bwrite start (encodeHead s.lh (s.view start)) with phase := .running }

section Moves

variable {start added n : ℕ} {s t : LogSystem ι} {e : LogEvent ι} {i : ι}

theorem logMove_beginOp (hready : s.phase.recovering = false)
    (hproc : s.procs i = .idle ∨ s.procs i = .beginWait) :
    LogMove start s (.beginOp i) (beginOp i s) := by
  unfold beginOp
  split_ifs with hwait
  · exact .beginWaits i hready hproc hwait
  · rw [not_or, not_lt] at hwait
    exact .begins i hready hproc (Bool.eq_false_iff.mpr hwait.1) hwait.2

theorem logMove_logWrite (hproc : s.procs i = .inOp added) (blockno : ℕ) (data : Block) :
    LogMove start s (.logWrite i blockno data)
      (logWrite i added blockno data s) := by
  by_cases hfull : logBlocks ≤ s.lh.length
  · rw [logWrite, if_pos hfull]
    exact .writePanics i added blockno data _ hproc (.inl hfull)
  · by_cases hout : s.outstanding < 1
    · rw [logWrite, if_neg hfull, if_pos hout]
      exact .writePanics i added blockno data _ hproc (.inr hout)
    · rw [logWrite, if_neg hfull, if_neg hout]
      exact .writes i added blockno data hproc (not_le.mp hfull) (not_lt.mp hout)

theorem logMove_endOp (hproc : s.procs i = .inOp added) :
    LogMove start s (.endOp i) (endOp i s) := by
  by_cases hcommitting : s.committing = true
  · simp only [endOp, if_pos hcommitting]
    exact .endPanics i added hproc hcommitting
  · by_cases hout : s.outstanding - 1 = 0
    · simp only [endOp, if_neg hcommitting, if_pos hout]
      exact .endsLast i added hproc (Bool.eq_false_iff.mpr hcommitting) hout
    · simp only [endOp, if_neg hcommitting, if_neg hout]
      exact .ends i added hproc (Bool.eq_false_iff.mpr hcommitting) hout

theorem logMove_commitStep (hproc : s.procs i = .committer) (h : commitStep start i s = some t) :
    LogMove start s (.commit i) t := by
  unfold commitStep at h
  split at h
  · rename_i tail hphase
    split at h <;> cases h
    · exact .logsBlock i tail _ hproc hphase ‹_›
    · exact .logged i tail hproc hphase ‹_›
  · cases h
    exact .writesHead i hproc ‹_›
  · rename_i tail hphase
    split at h <;> cases h
    · exact .installsBlock i tail _ hproc hphase ‹_›
    · exact .installed i tail hproc hphase ‹_›
  · cases h
    exact .clearsHead i hproc ‹_›
  · cases h
    exact .finishes i hproc ‹_›
  · cases h

theorem logMove_sysSync (hready : s.phase.recovering = false) (hproc : s.procs i = .idle) :
    LogMove start s (.sync i) (sysSync i s) := by
  unfold sysSync
  split_ifs with hbusy
  · exact .syncWaits i hready hproc hbusy
  · rw [not_or, not_lt] at hbusy
    exact .syncReturns i hready hproc (Bool.eq_false_iff.mpr hbusy.1) (Nat.le_zero.mp hbusy.2)

theorem logMove_sysSyncTurn (hproc : s.procs i = .syncWait n) :
    LogMove start s (.sync i) (sysSyncTurn i n s) := by
  unfold sysSyncTurn
  split_ifs with hn
  · exact .syncWaitsOn i n hproc hn
  · exact .syncEnds i n hproc (not_lt.mp hn)

theorem logMove_recoverStep (h : recoverStep start s = some t) : LogMove start s .recover t := by
  unfold recoverStep at h
  split at h
  · cases h
    exact .readsHead ‹_›
  · rename_i tail hphase
    split at h <;> cases h
    · exact .recoversBlock tail _ hphase ‹_›
    · exact .recovered tail hphase ‹_›
  · cases h
    exact .clearsRecovered ‹_›
  · cases h

theorem logMove_logCall (hready : s.phase.recovering = false) (h : logCall start s e = some t) :
    LogMove start s e t := by
  unfold logCall at h
  split at h
  · split at h <;> cases h
    · exact logMove_beginOp hready (.inl ‹_›)
    · exact logMove_beginOp hready (.inr ‹_›)
  · split at h <;> cases h
    exact logMove_logWrite ‹_› _ _
  · split at h <;> cases h
    exact logMove_endOp ‹_›
  · split at h
    · exact logMove_commitStep ‹_› h
    · cases h
  · split at h <;> cases h
    · exact logMove_sysSync hready ‹_›
    · exact logMove_sysSyncTurn ‹_›
  · cases h

theorem logMove_of_logStep (h : logStep start s e = some t) : LogMove start s e t := by
  unfold logStep at h
  split at h
  · cases h
    exact .crashes
  · rename_i hcrash
    by_cases hpanic : s.panic ≠ none
    · rw [if_pos hpanic] at h
      cases h
    rw [if_neg hpanic] at h
    cases e with
    | fill blockno =>
      cases h
      exact .fills blockno
    | evict blockno =>
      simp only at h
      split_ifs at h with hpinned
      cases h
      exact .evicts blockno hpinned
    | recover => exact logMove_recoverStep h
    | crash => exact absurd rfl hcrash
    | _ =>
      simp only at h
      split_ifs at h with hrecovering
      exact logMove_logCall (Bool.eq_false_iff.mpr hrecovering) h

end Moves

end Irish.Xv6
