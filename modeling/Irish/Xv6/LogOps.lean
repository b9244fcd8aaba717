import Irish.Library.Counts
import Irish.Xv6.Log
import Mathlib.Algebra.BigOperators.Ring.Finset
import Mathlib.Data.Fintype.Prod

/-!
# Operations and commits

What the counters of the log mean. `log.outstanding` is the number of operations in progress, a
commit runs only while there are none, and between two transactions the log is empty (`LogCounts`).

`begin_op` lets an operation in only when there would be room if each operation in progress, and the
new one, still added `MAXOPBLOCKS` blocks. This double counts what they have added already, so the
room left covers what they may still add (`logWrite_room`). `log_write` panics when the log is full,
also for a block that is in the log already, so what an operation may not do is call it after it has
added `MAXOPBLOCKS` blocks.

Nobody sleeps on the log without a reason, and whoever sleeps there will be woken: some process is
in `commit` or between `begin_op` and `end_op` (`log_waiters`).
-/

set_option autoImplicit false

namespace Irish.Xv6

open Library
open Function (update update_of_ne update_self)

variable {ι : Type*} {lh : List ℕ} {b c : ℕ}

def LogPhase.inCommit : LogPhase → Bool
  | .writeLog _ => true
  | .writeHead => true
  | .install _ => true
  | .clearHead => true
  | .finish => true
  | _ => false

/-- The phases in which the log holds only what the operations in progress have added. -/
def LogPhase.emptied : LogPhase → Bool
  | .running => true
  | .clearHead => true
  | .finish => true
  | .clearRecovered => true
  | _ => false

def LogUse.ops : LogUse → ℕ
  | .inOp _ => 1
  | _ => 0

/-- The blocks that an operation in progress may still add. -/
def LogUse.reserve : LogUse → ℕ
  | .inOp added => maxOpBlocks - added
  | _ => 0

@[simp] theorem ops_inOp (a : ℕ) : (LogUse.inOp a).ops = 1 := rfl
@[simp] theorem ops_idle : LogUse.idle.ops = 0 := rfl
@[simp] theorem ops_beginWait : LogUse.beginWait.ops = 0 := rfl
@[simp] theorem ops_syncWait (n : ℕ) : (LogUse.syncWait n).ops = 0 := rfl
@[simp] theorem ops_committer : LogUse.committer.ops = 0 := rfl

@[simp] theorem reserve_inOp (a : ℕ) : (LogUse.inOp a).reserve = maxOpBlocks - a := rfl
@[simp] theorem reserve_idle : LogUse.idle.reserve = 0 := rfl
@[simp] theorem reserve_beginWait : LogUse.beginWait.reserve = 0 := rfl
@[simp] theorem reserve_syncWait (n : ℕ) : (LogUse.syncWait n).reserve = 0 := rfl
@[simp] theorem reserve_committer : LogUse.committer.reserve = 0 := rfl

section Insert

theorem logInsert_of_mem (h : b ∈ lh) : logInsert lh b = lh := by
  have hlt : lh.idxOf b < lh.length := List.idxOf_lt_length_iff.mpr h
  rw [logInsert, if_neg hlt.ne]
  conv_rhs => rw [← List.set_getElem_self hlt]
  rw [List.getElem_idxOf hlt]

theorem logInsert_of_notMem (h : b ∉ lh) : logInsert lh b = lh ++ [b] := by
  rw [logInsert, if_pos (List.idxOf_eq_length h)]

theorem length_logInsert (lh : List ℕ) (b : ℕ) :
    (logInsert lh b).length = lh.length + if b ∈ lh then 0 else 1 := by
  by_cases h : b ∈ lh
  · simp [logInsert_of_mem h, h]
  · simp [logInsert_of_notMem h, h]

theorem nodup_logInsert (h : lh.Nodup) (b : ℕ) : (logInsert lh b).Nodup := by
  by_cases hb : b ∈ lh
  · rwa [logInsert_of_mem hb]
  · rw [logInsert_of_notMem hb]
    exact h.append (List.nodup_singleton b) (by simpa using hb)

theorem mem_logInsert : c ∈ logInsert lh b ↔ c ∈ lh ∨ c = b := by
  by_cases h : b ∈ lh
  · rw [logInsert_of_mem h]
    exact ⟨.inl, fun hc ↦ hc.elim id fun hcb ↦ hcb ▸ h⟩
  · rw [logInsert_of_notMem h, List.mem_append, List.mem_singleton]

end Insert

/-! ### The counters -/

variable [Fintype ι] {j : ι} {use : LogUse}

structure LogCounts (s : LogSystem ι) : Prop where
  ops : s.outstanding = ∑ i, (s.procs i).ops
  alone : s.committing = true → s.outstanding = 0
  phase : s.phase.inCommit = s.committing
  committer : ∀ i, s.procs i = .committer → s.committing = true
  unique : ∀ i j, s.procs i = .committer → s.procs j = .committer → i = j
  running : s.committing = true → ∃ i, s.procs i = .committer
  recovering : s.phase.recovering = true → ∀ i, s.procs i = .idle
  empty : s.outstanding = 0 → s.phase.emptied = true → s.lh = []

section Counts

variable {s : LogSystem ι} {i : ι} {a : ℕ}

theorem LogCounts.outstanding_pos (h : LogCounts s) (hproc : s.procs i = .inOp a) :
    1 ≤ s.outstanding := by
  have hle := le_sum (fun j ↦ (s.procs j).ops) i
  rw [hproc, ops_inOp] at hle
  rwa [h.ops]

/-- An operation in progress keeps everybody from committing. -/
theorem LogCounts.not_committing (h : LogCounts s) (hproc : s.procs i = .inOp a) :
    s.committing = false := by
  have hpos := h.outstanding_pos hproc
  cases hcommitting : s.committing with
  | false => rfl
  | true =>
    have hzero := h.alone hcommitting
    omega

/-- While a commit runs no operation is in progress. -/
theorem LogCounts.not_inOp (h : LogCounts s) (hcommitting : s.committing = true) :
    s.procs i ≠ .inOp a := by
  intro hproc
  rw [h.not_committing hproc] at hcommitting
  cases hcommitting

theorem LogCounts.not_recovering (h : LogCounts s) (hproc : s.procs i ≠ .idle) :
    s.phase.recovering = false :=
  Bool.eq_false_iff.mpr fun hrec ↦ hproc (h.recovering hrec i)

variable [DecidableEq ι] {start : ℕ} {t : LogSystem ι} {e : LogEvent ι} {procs : ι → LogUse}
  {disk : ℕ → Block} {l : List (Transition (LogSystem ι) (LogEvent ι))}

omit [Fintype ι] in
theorem committer_of_update (huse : use ≠ .committer) (hj : update procs i use j = .committer) :
    procs j = .committer := by
  rcases update_cases hj with ⟨-, hj⟩ | ⟨-, hj⟩
  · exact absurd hj huse
  · exact hj

/-- A process that is not committing changes what it does, outside a recovery. -/
theorem LogCounts.setProc (h : LogCounts s) (hready : s.phase.recovering = false)
    (hi : s.procs i ≠ .committer) (huse : use ≠ .committer)
    (hprocs : t.procs = update s.procs i use) (hphase : t.phase = s.phase)
    (hcommitting : t.committing = s.committing)
    (hout : t.outstanding + (s.procs i).ops = s.outstanding + use.ops)
    (halone : s.committing = true → t.outstanding = 0)
    (hempty : t.outstanding = 0 → s.outstanding = 0 ∧ t.lh = s.lh) : LogCounts t := by
  have hold {j : ι} (hj : t.procs j = .committer) : s.procs j = .committer :=
    committer_of_update huse (hprocs ▸ hj)
  refine ⟨?_, hcommitting ▸ halone, by rw [hphase, hcommitting, h.phase],
    fun j hj ↦ hcommitting ▸ h.committer j (hold hj),
    fun j k hj hk ↦ h.unique j k (hold hj) (hold hk), fun hc ↦ ?_, fun hrec ↦ ?_, fun hzero hp ↦ ?_⟩
  · have hsum := sum_update_add LogUse.ops s.procs i use
    have hops := h.ops
    rw [hprocs]
    omega
  · obtain ⟨j, hj⟩ := h.running (hcommitting ▸ hc)
    have hji : j ≠ i := fun hji ↦ hi (hji ▸ hj)
    exact ⟨j, by rw [hprocs, update_of_ne hji, hj]⟩
  · rw [hphase, hready] at hrec
    cases hrec
  · obtain ⟨hs, hlh⟩ := hempty hzero
    exact hlh.trans (h.empty hs (hphase ▸ hp))

omit [DecidableEq ι] in
/-- A step in which every process goes on with what it does. -/
theorem LogCounts.congr (h : LogCounts s) (hprocs : t.procs = s.procs)
    (hcommitting : t.committing = s.committing) (hout : t.outstanding = s.outstanding)
    (hphase : t.phase.inCommit = s.phase.inCommit)
    (hrec : t.phase.recovering = true → s.phase.recovering = true)
    (hempty : t.outstanding = 0 → t.phase.emptied = true → t.lh = []) : LogCounts t := by
  cases t
  cases hprocs
  cases hcommitting
  cases hout
  exact ⟨h.ops, h.alone, hphase.trans h.phase, h.committer, h.unique, h.running,
    fun ht ↦ h.recovering (hrec ht), hempty⟩

omit [DecidableEq ι] in
theorem logCounts_powerOn (disk : ℕ → Block) : LogCounts (powerOn disk : LogSystem ι) where
  ops := by simp [powerOn]
  alone := fun _ ↦ rfl
  phase := rfl
  committer := nofun
  unique := nofun
  running := nofun
  recovering := fun _ _ ↦ rfl
  empty := fun _ _ ↦ rfl

/-- The last operation of a transaction becomes the committer. -/
theorem LogCounts.endsLast (h : LogCounts s) (hproc : s.procs i = .inOp a)
    (hout : s.outstanding - 1 = 0) :
    LogCounts { s with
      outstanding := s.outstanding - 1, committing := true,
      procs := update s.procs i .committer,
      phase := if s.lh.length > 0 then .writeLog 0 else .finish } where
  ops := by
    have hsum := sum_update_add LogUse.ops s.procs i .committer
    have hops := h.ops
    rw [hproc, ops_inOp, ops_committer] at hsum
    dsimp only
    omega
  alone := fun _ ↦ hout
  phase := by
    dsimp only
    split_ifs <;> rfl
  committer := fun _ _ ↦ rfl
  unique := by
    have hnone (j : ι) : s.procs j ≠ .committer := fun hj ↦ by
      have hc := h.committer j hj
      rw [h.not_committing hproc] at hc
      cases hc
    have honly (j : ι) (hj : update s.procs i .committer j = .committer) : j = i := by
      rcases update_cases hj with ⟨hji, -⟩ | ⟨-, hj⟩
      · exact hji
      · exact absurd hj (hnone j)
    exact fun j k hj hk ↦ (honly j hj).trans (honly k hk).symm
  running := fun _ ↦ ⟨i, update_self _ _ _⟩
  recovering := by
    intro hrec
    dsimp only at hrec
    split_ifs at hrec <;> cases hrec
  empty := by
    intro _ hp
    dsimp only at hp ⊢
    split_ifs at hp with hlen
    · cases hp
    · exact List.eq_nil_of_length_eq_zero (by omega)

/-- The committer is done. -/
theorem LogCounts.finishes (h : LogCounts s) (hproc : s.procs i = .committer)
    (hphase : s.phase = .finish) :
    LogCounts { s with
      committing := false, ncommit := s.ncommit + 1, procs := update s.procs i .idle,
      chan := wake () s.chan, phase := .running } where
  ops := by
    have hsum := sum_update_add LogUse.ops s.procs i .idle
    have hops := h.ops
    rw [hproc, ops_committer, ops_idle] at hsum
    dsimp only
    omega
  alone := nofun
  phase := rfl
  committer := by
    intro j hj
    obtain ⟨-, ⟨⟩⟩ | ⟨hji, hj⟩ := update_cases hj
    exact absurd (h.unique j i hj hproc) hji
  unique := fun j k hj hk ↦
    h.unique j k (committer_of_update (by simp) hj) (committer_of_update (by simp) hk)
  running := nofun
  recovering := nofun
  empty := fun hzero _ ↦ h.empty hzero (by rw [hphase]; rfl)

theorem logCounts_step (hstep : logStep start s e = some t) (h : LogCounts s) : LogCounts t := by
  cases logMove_of_logStep hstep with
  | beginWaits _ hready hproc =>
    refine h.setProc hready ?_ (by simp) rfl rfl rfl ?_ h.alone (fun hzero ↦ ⟨hzero, rfl⟩)
    · rcases hproc with hp | hp <;> simp [hp]
    · rcases hproc with hp | hp <;> simp [hp]
  | begins _ hready hproc hcommitting =>
    refine h.setProc hready ?_ (by simp) rfl rfl rfl ?_ ?_ ?_
    · rcases hproc with hp | hp <;> simp [hp]
    · rcases hproc with hp | hp <;> simp [hp]
    · simp [hcommitting]
    · simp
  | writes i _ _ _ hproc =>
    refine h.setProc (h.not_recovering (i := i) (by simp [hproc])) (by simp [hproc]) (by simp) rfl
      rfl rfl (by simp [hproc]) h.alone ?_
    intro hzero
    dsimp only at hzero
    omega
  | writePanics | syncWaitsOn | fills | evicts => exact h.congr rfl rfl rfl rfl id h.empty
  | endPanics _ _ hproc hcommitting =>
    exact absurd hproc (h.not_inOp hcommitting)
  | endsLast _ _ hproc _ hout => exact h.endsLast hproc hout
  | ends i _ hproc hcommitting hout =>
    refine h.setProc (h.not_recovering (i := i) (by simp [hproc])) (by simp [hproc]) (by simp) rfl
      rfl rfl ?_ (by simp [hcommitting]) (fun hzero ↦ absurd hzero hout)
    rw [hproc, ops_inOp, ops_idle]
    dsimp only
    omega
  | logsBlock _ _ _ _ hphase | logged _ _ _ hphase | writesHead _ _ hphase
  | installsBlock _ _ _ _ hphase =>
    exact h.congr rfl rfl rfl (by simp [hphase, LogPhase.inCommit]) (by simp [LogPhase.recovering])
      (by simp [LogPhase.emptied])
  | installed _ _ _ hphase =>
    exact h.congr rfl rfl rfl (by simp [hphase, LogPhase.inCommit]) (by simp [LogPhase.recovering])
      (by simp)
  | clearsHead _ _ hphase | clearsRecovered hphase =>
    exact h.congr rfl rfl rfl (by simp [hphase, LogPhase.inCommit]) (by simp [LogPhase.recovering])
      (fun hzero _ ↦ h.empty hzero (by rw [hphase]; rfl))
  | finishes _ hproc hphase => exact h.finishes hproc hphase
  | syncReturns => exact h
  | syncWaits _ hready hproc =>
    exact h.setProc hready (by simp [hproc]) (by simp) rfl rfl rfl (by simp [hproc])
      h.alone (fun hzero ↦ ⟨hzero, rfl⟩)
  | syncEnds i _ hproc =>
    exact h.setProc (h.not_recovering (i := i) (by simp [hproc])) (by simp [hproc]) (by simp) rfl
      rfl rfl (by simp [hproc]) h.alone (fun hzero ↦ ⟨hzero, rfl⟩)
  | crashes => exact logCounts_powerOn s.disk
  | readsHead hphase | recoversBlock _ _ hphase =>
    exact h.congr rfl rfl rfl (by simp [hphase, LogPhase.inCommit])
      (by simp [hphase, LogPhase.recovering]) (by simp [LogPhase.emptied])
  | recovered _ hphase =>
    exact h.congr rfl rfl rfl (by simp [hphase, LogPhase.inCommit])
      (by simp [hphase, LogPhase.recovering]) (by simp)

theorem logCounts_path (hpath : Path (logStep start) (powerOn disk) l s) : LogCounts s :=
  hpath.preserves (fun _ _ _ hstep ↦ logCounts_step hstep) (logCounts_powerOn disk)

end Counts

/-! ### Room in the log -/

section Room

variable [DecidableEq ι] {start blockno added : ℕ} {s t : LogSystem ι} {e : LogEvent ι} {i : ι}
  {data : Block}

/-- An operation calls `log_write` only while it has added fewer than `MAXOPBLOCKS` blocks. -/
def withinReserve (tr : Transition (LogSystem ι) (LogEvent ι)) : Bool :=
  match tr.event with
  | .logWrite i _ _ => 0 < (tr.source.procs i).reserve
  | _ => true

omit [Fintype ι] [DecidableEq ι] in
theorem added_lt_of_withinReserve (h : withinReserve ⟨s, .logWrite i blockno data, t⟩)
    (hproc : s.procs i = .inOp added) : added < maxOpBlocks := by
  simp only [withinReserve, hproc, reserve_inOp, decide_eq_true_eq] at h
  omega

/-- The log has room for what the operations in progress may still add, and nobody has panicked. -/
structure LogRoom (s : LogSystem ι) : Prop where
  room : s.phase.recovering = false → s.lh.length + ∑ i, (s.procs i).reserve ≤ logBlocks
  panic : s.panic = none

/-- A process changes what it does; the log grows by at most what its reserve shrinks. -/
theorem LogRoom.setProc (h : LogRoom s) (hprocs : t.procs = update s.procs i use)
    (hphase : t.phase = s.phase)
    (hlh : t.lh.length + use.reserve ≤ s.lh.length + (s.procs i).reserve)
    (hpanic : t.panic = s.panic) : LogRoom t where
  room := by
    intro hready
    have hroom := h.room (hphase ▸ hready)
    have hsum := sum_update_add LogUse.reserve s.procs i use
    rw [hprocs]
    omega
  panic := hpanic.trans h.panic

omit [DecidableEq ι] in
theorem LogRoom.congr (h : LogRoom s) (hprocs : t.procs = s.procs)
    (hphase : t.phase.recovering = false → s.phase.recovering = false)
    (hlh : t.lh.length ≤ s.lh.length) (hpanic : t.panic = s.panic) : LogRoom t where
  room := by
    intro hready
    have hroom := h.room (hphase hready)
    rw [hprocs]
    omega
  panic := hpanic.trans h.panic

omit [DecidableEq ι] in
/-- What is reserved is at most `MAXOPBLOCKS` for each operation in progress. -/
theorem LogCounts.reserve_le (h : LogCounts s) :
    ∑ i, (s.procs i).reserve ≤ s.outstanding * maxOpBlocks := by
  rw [h.ops, Finset.sum_mul]
  refine Finset.sum_le_sum fun i _ ↦ ?_
  cases s.procs i <;> simp [LogUse.reserve]

theorem logRoom_step (hstep : logStep start s e = some t) (hcounts : LogCounts s)
    (hreserve : withinReserve ⟨s, e, t⟩) (h : LogRoom s) : LogRoom t := by
  cases logMove_of_logStep hstep with
  | beginWaits | ends | syncWaits | syncEnds => exact h.setProc rfl rfl (by simp) rfl
  | begins i =>
    refine ⟨fun _ ↦ ?_, h.panic⟩
    have hsum := sum_update_add LogUse.reserve s.procs i (.inOp 0)
    have hle := hcounts.reserve_le
    rw [reserve_inOp] at hsum
    dsimp only
    have hexpand : (s.outstanding + 1) * maxOpBlocks = s.outstanding * maxOpBlocks + maxOpBlocks :=
      Nat.succ_mul _ _
    omega
  | writes _ _ _ _ hproc =>
    have hadded := added_lt_of_withinReserve hreserve hproc
    refine h.setProc rfl rfl ?_ rfl
    rw [hproc, reserve_inOp, reserve_inOp, length_logInsert]
    split_ifs <;> omega
  | writePanics i _ _ _ _ hproc =>
    -- The reserve of the caller is positive, so the log is not full.
    have hadded := added_lt_of_withinReserve hreserve hproc
    have hroom := h.room (hcounts.not_recovering (i := i) (by simp [hproc]))
    have hle := le_sum (fun j ↦ (s.procs j).reserve) i
    have hpos := hcounts.outstanding_pos hproc
    rw [hproc, reserve_inOp] at hle
    omega
  | endPanics _ _ hproc hcommitting => exact absurd hproc (hcounts.not_inOp hcommitting)
  | endsLast i _ hproc =>
    refine ⟨fun _ ↦ ?_, h.panic⟩
    have hroom := h.room (hcounts.not_recovering (i := i) (by simp [hproc]))
    have hsum := sum_update_add LogUse.reserve s.procs i .committer
    rw [reserve_committer] at hsum
    dsimp only
    omega
  | logsBlock _ _ _ _ hphase | logged _ _ _ hphase | writesHead _ _ hphase
  | installsBlock _ _ _ _ hphase | clearsHead _ _ hphase =>
    exact h.congr rfl (by simp [hphase, LogPhase.recovering]) le_rfl rfl
  | installed _ _ _ hphase =>
    exact h.congr rfl (by simp [hphase, LogPhase.recovering]) (by simp) rfl
  | finishes i _ hphase =>
    refine ⟨fun _ ↦ ?_, h.panic⟩
    have hroom := h.room (by simp [hphase, LogPhase.recovering])
    have hsum := sum_update_add LogUse.reserve s.procs i .idle
    rw [reserve_idle] at hsum
    dsimp only
    omega
  | syncReturns => exact h
  | syncWaitsOn | fills | evicts => exact h.congr rfl id le_rfl rfl
  | crashes => exact ⟨nofun, rfl⟩
  | readsHead | recoversBlock | recovered => exact ⟨nofun, h.panic⟩
  | clearsRecovered hphase =>
    have hidle := hcounts.recovering (by simp [hphase, LogPhase.recovering])
    have hzero : s.outstanding = 0 := by simp [hcounts.ops, hidle]
    have hlh := hcounts.empty hzero (by rw [hphase]; rfl)
    refine ⟨fun _ ↦ ?_, h.panic⟩
    simp [LogSystem.bwrite, hlh, hidle]

/-- The log has room for everything the operations in progress may still add, and `log_write` does
not panic, as long as no operation calls it after it has added `MAXOPBLOCKS` blocks. -/
theorem logWrite_room {disk : ℕ → Block} {l : List (Transition (LogSystem ι) (LogEvent ι))}
    {u : LogSystem ι} (hpath : Path (logStep start) (powerOn disk) l u)
    (hreserve : ∀ tr ∈ l, withinReserve tr) :
    u.panic = none ∧
      (u.phase.recovering = false → u.lh.length + ∑ i, (u.procs i).reserve ≤ logBlocks) := by
  have hinit : LogCounts (powerOn disk : LogSystem ι) ∧ LogRoom (powerOn disk : LogSystem ι) :=
    ⟨logCounts_powerOn disk, nofun, rfl⟩
  have hroom : LogCounts u ∧ LogRoom u :=
    hpath.preserves_of (I := fun s ↦ LogCounts s ∧ LogRoom s)
      (Q := fun s e ↦ ∀ t, withinReserve ⟨s, e, t⟩)
      (fun s e t hstep hQ hs ↦ ⟨logCounts_step hstep hs.1, logRoom_step hstep hs.1 (hQ t) hs.2⟩)
      (fun tr htr t ↦ hreserve tr htr) hinit
  exact ⟨hroom.2.panic, hroom.2.room⟩

/-- An empty disk, and a run on it in which an operation writes a block and ends while another one
is still in progress. -/
def blankDisk : ℕ → Block := fun _ _ ↦ 0#32

abbrev Worker : Type := Bool × Bool

def twoOps : List (Transition (LogSystem Worker) (LogEvent Worker)) × LogSystem Worker :=
  replay (logStep 2) (powerOn blankDisk) [.recover, .recover, .recover, .beginOp (false, false),
    .beginOp (false, true), .logWrite (false, false) 100 (fun _ ↦ 7#32),
    .logWrite (false, true) 100 (fun _ ↦ 8#32), .endOp (false, false)]

theorem logWrite_room_twoOps : twoOps.2.panic = none ∧
    (twoOps.2.phase.recovering = false →
      twoOps.2.lh.length + ∑ i, (twoOps.2.procs i).reserve ≤ logBlocks) :=
  logWrite_room (path_replay _ _) (List.all_eq_true.mp (by decide))

end Room

/-! ### Waiting for the log -/

section Waiting

variable [DecidableEq ι] {start : ℕ} {s t : LogSystem ι} {e : LogEvent ι} {i : ι}

/-- Why a process goes on waiting. -/
def LogReason (s : LogSystem ι) : LogUse → Prop
  | .beginWait =>
    s.committing = true ∨ logBlocks < s.lh.length + (s.outstanding + 1) * maxOpBlocks
  | .syncWait n => s.ncommit < n
  | _ => False

/-- The commit that a `sys_sync` waits for has ended, or it is the next one and will come. -/
def SyncDue (s : LogSystem ι) (n : ℕ) : Prop :=
  n ≤ s.ncommit ∨ n = s.ncommit + 1 ∧ (s.committing = true ∨ 0 < s.outstanding)

structure LogWaiters (s : LogSystem ι) : Prop where
  justified : Justified (fun i _ ↦ LogReason s (s.procs i)) s.chan
  sync : ∀ i n, s.procs i = .syncWait n → SyncDue s n

omit [Fintype ι] [DecidableEq ι] in
theorem LogReason.mono (h : LogReason s use)
    (hcommitting : s.committing = true → t.committing = true)
    (hroom : t.committing = true ∨ s.lh.length + (s.outstanding + 1) * maxOpBlocks ≤
      t.lh.length + (t.outstanding + 1) * maxOpBlocks) (hn : t.ncommit = s.ncommit) :
    LogReason t use := by
  cases use with
  | beginWait =>
    rcases h with hc | hfull
    · exact .inl (hcommitting hc)
    · rcases hroom with hc | hle
      · exact .inl hc
      · exact .inr (hfull.trans_le hle)
  | syncWait n =>
    have hlt : s.ncommit < n := h
    show t.ncommit < n
    omega
  | _ => exact h.elim

omit [Fintype ι] [DecidableEq ι] in
/-- A step that leaves the processes and the channels alone, and wakes nobody. -/
theorem LogWaiters.congr (h : LogWaiters s) (hprocs : t.procs = s.procs) (hchan : t.chan = s.chan)
    (hcommitting : s.committing = t.committing) (hout : s.outstanding = t.outstanding)
    (hroom : t.committing = true ∨ s.lh.length ≤ t.lh.length) (hn : t.ncommit = s.ncommit) :
    LogWaiters t where
  justified := by
    rw [hchan]
    refine h.justified.mono fun j _ hj ↦ ?_
    rw [hprocs]
    refine hj.mono (fun hc ↦ hcommitting ▸ hc) (hroom.imp_right fun hle ↦ ?_) hn
    rw [hout]
    omega
  sync := by
    rw [hprocs]
    unfold SyncDue
    rw [hn, ← hcommitting, ← hout]
    exact h.sync

omit [Fintype ι] in
theorem reason_update (hji : j ≠ i) (h : LogReason t (s.procs j)) :
    LogReason t (update s.procs i use j) := by
  rwa [update_of_ne hji]

omit [Fintype ι] in
/-- A process that does not wait for a commit goes on to something else. -/
theorem LogWaiters.justified_update (h : LogWaiters s) (hidle : ¬ LogReason s (s.procs i))
    (hreason : ∀ j, LogReason s (s.procs j) → LogReason t (s.procs j)) :
    Justified (fun j _ ↦ LogReason t (update s.procs i use j)) s.chan := by
  intro j c hj
  have hj := h.justified j c hj
  exact reason_update (fun hji ↦ hidle (hji ▸ hj)) (hreason j hj)

omit [Fintype ι] in
theorem LogWaiters.sync_update (h : LogWaiters s) (huse : ∀ n, use = .syncWait n → SyncDue t n)
    (hold : ∀ n, SyncDue s n → SyncDue t n) (j : ι) (n : ℕ)
    (hj : update s.procs i use j = .syncWait n) : SyncDue t n := by
  rcases update_cases hj with ⟨-, hj⟩ | ⟨-, hj⟩
  · exact huse n hj
  · exact hold n (h.sync j n hj)

omit [Fintype ι] [DecidableEq ι] in
theorem logWaiters_powerOn (disk : ℕ → Block) : LogWaiters (powerOn disk : LogSystem ι) where
  justified := nofun
  sync := nofun

theorem logWaiters_step (hstep : logStep start s e = some t) (hcounts : LogCounts s)
    (h : LogWaiters s) : LogWaiters t := by
  cases logMove_of_logStep hstep with
  | beginWaits _ _ _ hwait =>
    refine ⟨h.justified.register ?_ fun j _ hji hj ↦ reason_update hji hj,
      h.sync_update nofun fun _ hn ↦ hn⟩
    dsimp only
    rwa [update_self]
  | begins =>
    refine ⟨h.justified.unregister fun j _ hji hj ↦ reason_update hji (hj.mono id (.inr ?_) rfl),
      h.sync_update nofun fun n hn ↦ hn.imp_right fun hn ↦ ⟨hn.1, .inr (Nat.succ_pos _)⟩⟩
    have hexpand : (s.outstanding + 1 + 1) * maxOpBlocks =
        (s.outstanding + 1) * maxOpBlocks + maxOpBlocks := Nat.succ_mul _ _
    dsimp only
    omega
  | writes _ _ _ _ hproc =>
    refine ⟨h.justified_update (by simp [hproc, LogReason]) fun j hj ↦ hj.mono id (.inr ?_) rfl,
      h.sync_update nofun fun _ hn ↦ hn⟩
    rw [length_logInsert]
    dsimp only
    omega
  | writePanics | logsBlock | logged | writesHead | installsBlock | clearsHead | fills | evicts
  | recoversBlock | clearsRecovered => exact h.congr rfl rfl rfl rfl (.inr le_rfl) rfl
  | endPanics _ _ hproc hcommitting => exact absurd hproc (hcounts.not_inOp hcommitting)
  | endsLast _ _ hproc =>
    exact ⟨h.justified_update (by simp [hproc, LogReason])
        fun j hj ↦ hj.mono (fun _ ↦ rfl) (.inl rfl) rfl,
      h.sync_update nofun fun n hn ↦ hn.imp_right fun hn ↦ ⟨hn.1, .inl rfl⟩⟩
  | ends _ _ _ _ hout =>
    -- Everybody who waits is woken, on the one channel there is.
    exact ⟨h.justified.wake fun j d hd _ ↦ absurd rfl hd, h.sync_update nofun
      fun n hn ↦ hn.imp_right fun hn ↦ ⟨hn.1, .inr (Nat.pos_of_ne_zero hout)⟩⟩
  | installed i _ hproc =>
    exact h.congr rfl rfl rfl rfl (.inl (hcounts.committer i hproc)) rfl
  | finishes =>
    refine ⟨h.justified.wake fun j d hd _ ↦ absurd rfl hd, h.sync_update nofun fun n hn ↦ .inl ?_⟩
    unfold SyncDue at hn
    dsimp only
    omega
  | syncReturns => exact h
  | syncWaits _ _ _ hbusy =>
    refine ⟨h.justified.register ?_ fun j _ hji hj ↦ reason_update hji hj,
      h.sync_update (fun n hn ↦ ?_) fun _ hn ↦ hn⟩
    · dsimp only
      rw [update_self]
      exact Nat.lt_succ_self _
    · cases hn
      exact .inr ⟨rfl, hbusy⟩
  | syncWaitsOn _ _ hproc hn =>
    refine ⟨h.justified.register ?_ fun _ _ _ hj ↦ hj, h.sync⟩
    rwa [hproc]
  | syncEnds =>
    exact ⟨h.justified.unregister fun j _ hji hj ↦ reason_update hji hj,
      h.sync_update nofun fun _ hn ↦ hn⟩
  | crashes => exact logWaiters_powerOn s.disk
  | readsHead hphase | recovered _ hphase =>
    have hidle := hcounts.recovering (by simp [hphase, LogPhase.recovering])
    exact ⟨h.justified.mono fun j _ hj ↦ by simp [hidle, LogReason] at hj, h.sync⟩

/-- In every state of every run, a process that sleeps in `begin_op` finds a commit running or no
room, and one that sleeps in `sys_sync` has not seen its commit; and some process is in `commit` or
in an operation, so the wakeup at its end is still to come. -/
theorem log_waiters {disk : ℕ → Block} {l : List (Transition (LogSystem ι) (LogEvent ι))}
    {u : LogSystem ι} (hpath : Path (logStep start) (powerOn disk) l u)
    (hchan : u.chan i = some ()) :
    LogReason u (u.procs i) ∧ ∃ j, u.procs j = .committer ∨ ∃ a, u.procs j = .inOp a := by
  have hinit : LogCounts (powerOn disk : LogSystem ι) ∧ LogWaiters (powerOn disk : LogSystem ι) :=
    ⟨logCounts_powerOn disk, logWaiters_powerOn disk⟩
  obtain ⟨hcounts, hwaiters⟩ : LogCounts u ∧ LogWaiters u :=
    hpath.preserves (I := fun s ↦ LogCounts s ∧ LogWaiters s)
      (fun s e t hstep hs ↦ ⟨logCounts_step hstep hs.1, logWaiters_step hstep hs.1 hs.2⟩) hinit
  have hreason : LogReason u (u.procs i) := hwaiters.justified i () hchan
  refine ⟨hreason, ?_⟩
  have hbusy : u.committing = true ∨ 0 < u.outstanding := by
    by_contra hquiet
    rw [not_or, Bool.not_eq_true, Nat.not_lt, Nat.le_zero] at hquiet
    obtain ⟨hcommitting, hout⟩ := hquiet
    cases hproc : u.procs i with
    | beginWait =>
      -- With nothing in progress the log is empty, so there is room.
      have hphase : u.phase.emptied = true := by
        have hready := hcounts.not_recovering (i := i) (by simp [hproc])
        have hidle := hcounts.phase.trans hcommitting
        cases hp : u.phase <;> simp_all [LogPhase.inCommit, LogPhase.recovering, LogPhase.emptied]
      have hlh := hcounts.empty hout hphase
      rw [hproc] at hreason
      rcases hreason with hc | hfull
      · cases hcommitting.symm.trans hc
      · simp [hlh, hout, logBlocks, maxOpBlocks] at hfull
    | syncWait n =>
      rw [hproc] at hreason
      have hn : u.ncommit < n := hreason
      rcases hwaiters.sync i n hproc with hle | ⟨-, hc | hpos⟩
      · omega
      · cases hcommitting.symm.trans hc
      · omega
    | idle | inOp | committer => simp [hproc, LogReason] at hreason
  rcases hbusy with hcommitting | hpos
  · obtain ⟨j, hj⟩ := hcounts.running hcommitting
    exact ⟨j, .inl hj⟩
  · rw [hcounts.ops] at hpos
    obtain ⟨j, hj⟩ := exists_pos_of_sum_pos hpos
    refine ⟨j, .inr ?_⟩
    cases hproc : u.procs j with
    | inOp a => exact ⟨a, rfl⟩
    | _ => simp [hproc] at hj

/-- Three operations in progress, and a fourth that has to wait. -/
def fourOps : List (Transition (LogSystem Worker) (LogEvent Worker)) × LogSystem Worker :=
  replay (logStep 2) (powerOn blankDisk)
    [.recover, .recover, .recover, .beginOp (false, false), .beginOp (false, true),
      .beginOp (true, false), .beginOp (true, true)]

theorem log_waiters_fourOps : fourOps.2.chan (true, true) = some () ∧
    LogReason fourOps.2 (fourOps.2.procs (true, true)) ∧
      ∃ j, fourOps.2.procs j = .committer ∨ ∃ a, fourOps.2.procs j = .inOp a :=
  ⟨by decide, log_waiters (path_replay _ _) (by decide)⟩

end Waiting

end Irish.Xv6
