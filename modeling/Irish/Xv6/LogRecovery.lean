import Irish.Xv6.LogOps

/-!
# Crashes and recovery

The log makes the disk of the file system a disk with transactions. `recoveredDisk` is what
`recover_from_log` would make of a disk, and it always agrees, outside the log, with the durable
contents of the abstract `TxDisk`: the contents at the last header that `commit` has written. The
abstract commit is that one write. While it happens no operation is in progress, so the durable
contents have every operation as a whole or not at all, whenever the power fails and however often
it fails again during the recovery.

The invariant `LogDisk` has one clause for each thing that can be out of step: a cached block that
differs from the disk is pinned, a block whose place on disk is out of date is still to be
installed, and what the log holds for it is durable.
-/

set_option autoImplicit false

namespace Irish.Xv6

open Library
open Function (update update_apply update_of_ne update_self)

/-! ### The header round trip -/

section Header

/-- The block numbers that an `int` can hold, outside the log. -/
def IsHome (start b : ℕ) : Prop := b < 0x80000000 ∧ (b < start ∨ start + logBlocks < b)

theorem word_encodeHead_zero (lh : List ℕ) (b : Block) :
    (encodeHead lh b).word 0 = BitVec.ofNat 32 lh.length := by
  simp [Block.word, encodeHead, blockWords]

theorem word_encodeHead_succ {lh : List ℕ} (hlen : lh.length ≤ logBlocks) (b : Block) {i : ℕ}
    (hi : i < lh.length) : (encodeHead lh b).word (i + 1) = BitVec.ofNat 32 (lh[i]) := by
  have hlt : i + 1 < blockWords := by
    simp only [logBlocks, maxOpBlocks, blockWords] at hlen ⊢
    omega
  simp [Block.word, encodeHead, hlt, hi]

theorem decodeHead_encodeHead {lh : List ℕ} (hlen : lh.length ≤ logBlocks)
    (hsmall : ∀ b ∈ lh, b < 0x80000000) (b : Block) : decodeHead (encodeHead lh b) = lh := by
  have hcount : ((encodeHead lh b).word 0).toInt.toNat = lh.length := by
    have hle : lh.length ≤ 30 := hlen
    have hnat : (BitVec.ofNat 32 lh.length).toNat = lh.length := by
      rw [BitVec.toNat_ofNat]
      exact Nat.mod_eq_of_lt (by omega)
    rw [word_encodeHead_zero, BitVec.toInt_eq_toNat_of_lt (by omega), hnat, Int.toNat_natCast]
  unfold decodeHead
  rw [hcount]
  refine List.ext_getElem (by simp) fun i hi hi' ↦ ?_
  have hb := hsmall lh[i] (List.getElem_mem hi')
  rw [List.getElem_map, List.getElem_range, word_encodeHead_succ hlen b hi', BitVec.toNat_ofNat]
  exact Nat.mod_eq_of_lt (by omega)

end Header

/-! ### What a recovery makes of a disk -/

/-- The writes that the header of a disk asks for. -/
def headWrites (start : ℕ) (disk : ℕ → Block) : List (ℕ × Block) :=
  (decodeHead (disk start)).zipIdx.map fun p ↦ (p.1, disk (start + p.2 + 1))

/-- The disk after a complete recovery, up to the header. -/
def recoveredDisk (start : ℕ) (disk : ℕ → Block) : ℕ → Block :=
  applyWrites disk (headWrites start disk)

/-- A list of blocks that the log can hold: outside the log itself, no more than it has room for,
and each of them once. -/
structure Loggable (start : ℕ) (lh : List ℕ) : Prop where
  length : lh.length ≤ logBlocks
  home : ∀ b ∈ lh, IsHome start b
  nodup : lh.Nodup

theorem Loggable.nil (start : ℕ) : Loggable start [] :=
  ⟨Nat.zero_le _, by simp, List.nodup_nil⟩

theorem mem_headWrites {start : ℕ} {disk : ℕ → Block} {w : ℕ × Block} :
    w ∈ headWrites start disk ↔
      ∃ tail, (decodeHead (disk start))[tail]? = some w.1 ∧ disk (start + tail + 1) = w.2 := by
  unfold headWrites
  constructor
  · intro hw
    obtain ⟨⟨b, tail⟩, hmem, rfl⟩ := List.mem_map.mp hw
    exact ⟨tail, List.mem_zipIdx_iff_getElem?.mp hmem, rfl⟩
  · rintro ⟨tail, hb, hw⟩
    refine List.mem_map.mpr ⟨(w.1, tail), List.mem_zipIdx_iff_getElem?.mpr hb, ?_⟩
    simp [hw]

theorem fst_headWrites (start : ℕ) (disk : ℕ → Block) :
    (headWrites start disk).map Prod.fst = decodeHead (disk start) := by
  unfold headWrites
  rw [List.map_map]
  exact List.zipIdx_map_fst 0 _

section Disk

variable {ι : Type*}

/-- The blocks that are still to be installed. -/
def LogSystem.pending (start : ℕ) (s : LogSystem ι) : List ℕ :=
  match s.phase with
  | .install tail => s.lh.drop tail
  | .readHead => decodeHead (s.disk start)
  | .recover tail => s.lh.drop tail
  | _ => []

/-- How many blocks `write_log` has written. -/
def LogSystem.loggedCount (s : LogSystem ι) : ℕ :=
  match s.phase with
  | .writeLog tail => tail
  | .writeHead => s.lh.length
  | _ => 0

/-- The phases in which the contents that the program sees are durable. -/
def LogPhase.settled : LogPhase → Bool
  | .running => false
  | .writeLog _ => false
  | .writeHead => false
  | _ => true

/-- The phases in which the header on disk is empty. -/
def LogPhase.headEmpty : LogPhase → Bool
  | .running => true
  | .writeLog _ => true
  | .writeHead => true
  | .finish => true
  | _ => false

/-- The phases in which the header on disk is the one in memory. -/
def LogPhase.headWritten : LogPhase → Bool
  | .install _ => true
  | .recover _ => true
  | _ => false

/-- The log between the disk with transactions and the disk there is. -/
structure LogDisk (start : ℕ) (s : LogSystem ι) (d : TxDisk ℕ Block) : Prop where
  lh : Loggable start s.lh
  head : Loggable start (decodeHead (s.disk start))
  coherent : ∀ b v, s.cache b = some v → b ∉ s.pinned → s.disk b = v
  place : ∀ b, IsHome start b → b ∉ s.pending start → s.disk b = d.durable b
  log : ∀ tail b, (decodeHead (s.disk start))[tail]? = some b →
    s.disk (start + tail + 1) = d.durable b
  live : ∀ b, IsHome start b → (s.phase.recovering = true → b ∉ s.pending start) →
    s.view b = d.live b
  settled : s.phase.settled = true → ∀ b, IsHome start b → d.live b = d.durable b
  headEmpty : s.phase.headEmpty = true → decodeHead (s.disk start) = []
  headWritten : s.phase.headWritten = true → decodeHead (s.disk start) = s.lh
  logged : ∀ tail b, tail < s.loggedCount → s.lh[tail]? = some b →
    s.disk (start + tail + 1) = d.live b

variable {start b c tail : ℕ} {s t : LogSystem ι} {d : TxDisk ℕ Block} {phase : LogPhase}
  {procs : ι → LogUse}

/-- Blocks of the log are not blocks of the file system. -/
theorem IsHome.ne_log (h : IsHome start b) (htail : tail ≤ logBlocks) : b ≠ start + tail := by
  rcases h.2 with hlt | hgt <;> omega

theorem IsHome.ne_start (h : IsHome start b) : b ≠ start := h.ne_log (Nat.zero_le _)

theorem LogDisk.pinned_home (h : LogDisk start s d) (hb : b ∈ s.pinned) : IsHome start b := by
  unfold LogSystem.pinned at hb
  split at hb
  · exact h.lh.home b hb
  · exact h.lh.home b hb
  · exact h.lh.home b hb
  · exact h.lh.home b (List.mem_of_mem_drop hb)
  · cases hb

/-- Where a cached block is not pinned, `bread` gives what is on disk. -/
theorem LogDisk.view_eq (h : LogDisk start s d) (hb : b ∉ s.pinned) : s.view b = s.disk b := by
  unfold LogSystem.view
  cases hcache : s.cache b with
  | none => rfl
  | some v => exact (h.coherent b v hcache hb).symm

theorem LogDisk.view_log (h : LogDisk start s d) (htail : tail ≤ logBlocks) :
    s.view (start + tail) = s.disk (start + tail) :=
  h.view_eq fun hmem ↦ (h.pinned_home hmem).ne_log htail rfl

theorem LogDisk.view_start (h : LogDisk start s d) : s.view start = s.disk start :=
  h.view_log (Nat.zero_le _)

/-- What is still to be installed is in the header. -/
theorem LogDisk.pending_subset (h : LogDisk start s d) (hb : b ∈ s.pending start) :
    b ∈ decodeHead (s.disk start) := by
  unfold LogSystem.pending at hb
  split at hb
  · rename_i tail hphase
    rw [h.headWritten (by rw [hphase]; rfl)]
    exact List.mem_of_mem_drop hb
  · exact hb
  · rename_i tail hphase
    rw [h.headWritten (by rw [hphase]; rfl)]
    exact List.mem_of_mem_drop hb
  · cases hb

/-- A recovery from here would restore the durable contents. -/
theorem LogDisk.recovers (h : LogDisk start s d) (hb : IsHome start b) :
    recoveredDisk start s.disk b = d.durable b := by
  unfold recoveredDisk
  refine applyWrites_eq (fun w hw hwb ↦ ?_) fun hnot ↦ ?_
  · obtain ⟨tail, hhead, hdata⟩ := mem_headWrites.mp hw
    rw [← hdata, ← hwb]
    exact h.log tail w.1 hhead
  · rw [fst_headWrites] at hnot
    exact h.place b hb fun hpending ↦ hnot (h.pending_subset hpending)

/-- A step that writes nothing: it may pin more blocks and leave more to install. -/
theorem LogDisk.rephase (h : LogDisk start s d) (hdisk : t.disk = s.disk)
    (hcache : t.cache = s.cache) (hlh : Loggable start t.lh) (hpinned : s.pinned ⊆ t.pinned)
    (hpending : s.pending start ⊆ t.pending start)
    (hready : s.phase.recovering = true → t.phase.recovering = true)
    (hsettled : t.phase.settled = true → ∀ b, IsHome start b → d.live b = d.durable b)
    (hempty : t.phase.headEmpty = true → s.phase.headEmpty = true)
    (hwritten : t.phase.headWritten = true → decodeHead (s.disk start) = t.lh)
    (hlogged : ∀ tail b, tail < t.loggedCount → t.lh[tail]? = some b →
      tail < s.loggedCount ∧ s.lh[tail]? = some b) : LogDisk start t d := by
  cases t
  cases hdisk
  cases hcache
  refine ⟨hlh, h.head, fun c w hc hc' ↦ ?_, fun c hc hc' ↦ ?_, h.log, fun c hc hc' ↦ ?_, hsettled,
    fun he ↦ h.headEmpty (hempty he), hwritten, fun tail b hlt hb ↦ ?_⟩
  · exact h.coherent c w hc (mt (@hpinned c) hc')
  · exact h.place c hc (mt (@hpending c) hc')
  · exact h.live c hc fun hrec ↦ mt (@hpending c) (hc' (hready hrec))
  · obtain ⟨hlt', hb'⟩ := hlogged tail b hlt hb
    exact h.logged tail b hlt' hb'

/-- The invariant looks only at the disk, the cache and what is being committed. -/
theorem LogDisk.congr (h : LogDisk start s d) (hdisk : t.disk = s.disk) (hcache : t.cache = s.cache)
    (hlh : t.lh = s.lh) (hphase : t.phase = s.phase) : LogDisk start t d := by
  refine h.rephase hdisk hcache (hlh ▸ h.lh) ?_ ?_ (by simp [hphase]) (hphase ▸ h.settled)
    (by simp [hphase]) (hphase ▸ hlh ▸ h.headWritten) ?_
  · simp [LogSystem.pinned, hphase, hlh]
  · simp [LogSystem.pending, hphase, hlh, hdisk]
  · simp +contextual [LogSystem.loggedCount, hphase, hlh]

/-! ### Writes to the disk -/

theorem disk_bwrite (s : LogSystem ι) (b c : ℕ) (v : Block) :
    (s.bwrite b v).disk c = if c = b then v else s.disk c :=
  update_apply _ _ _ _

theorem cache_bwrite (s : LogSystem ι) (b c : ℕ) (v : Block) :
    (s.bwrite b v).cache c = if c = b then some v else s.cache c :=
  update_apply _ _ _ _

theorem view_bwrite (s : LogSystem ι) (b c : ℕ) (v : Block) :
    (s.bwrite b v).view c = if c = b then v else s.view c := by
  unfold LogSystem.view
  rw [disk_bwrite, cache_bwrite]
  split_ifs <;> rfl

theorem disk_bwrite_of_ne (s : LogSystem ι) {b : ℕ} (v : Block) (h : c ≠ b) :
    (s.bwrite b v).disk c = s.disk c := by
  rw [disk_bwrite, if_neg h]

theorem view_bwrite_of_ne (s : LogSystem ι) {b : ℕ} (v : Block) (h : c ≠ b) :
    (s.bwrite b v).view c = s.view c := by
  rw [view_bwrite, if_neg h]

/-- After a `bwrite` the buffer is what is on disk. -/
theorem LogDisk.coherent_bwrite (h : LogDisk start s d) {v : Block} {w : Block}
    (hc : (s.bwrite b v).cache c = some w) (hpinned : c ∉ s.pinned ∨ c = b) :
    (s.bwrite b v).disk c = w := by
  rw [cache_bwrite] at hc
  rw [disk_bwrite]
  split_ifs at hc ⊢ with hcb
  · exact Option.some.inj hc
  · exact h.coherent c w hc (hpinned.resolve_right hcb)

/-- `write_log` writes one block. -/
theorem LogDisk.logsBlock (h : LogDisk start s d) (hphase : s.phase = .writeLog tail)
    (hblock : s.lh[tail]? = some b) :
    LogDisk start
      { s.bwrite (start + tail + 1) (s.view b) with phase := .writeLog (tail + 1) } d := by
  have htail : tail + 1 ≤ logBlocks :=
    (lt_of_getElem? hblock).trans_le h.lh.length
  have hhome {c : ℕ} (hc : IsHome start c) : c ≠ start + tail + 1 := hc.ne_log htail
  have hstart : (s.bwrite (start + tail + 1) (s.view b)).disk start = s.disk start :=
    disk_bwrite_of_ne s _ (by omega)
  have hhead : decodeHead (s.disk start) = [] := h.headEmpty (by rw [hphase]; rfl)
  cases s
  cases hphase
  constructor
  case lh => exact h.lh
  case head =>
    dsimp only
    rw [hstart]
    exact h.head
  case coherent => exact fun c w hc hpinned ↦ h.coherent_bwrite hc (.inl hpinned)
  case place =>
    exact fun c hc _ ↦ (disk_bwrite_of_ne _ _ (hhome hc)).trans (h.place c hc nofun)
  case log =>
    intro u c hu
    simp only [hstart, hhead] at hu
    cases hu
  case live => exact fun c hc _ ↦ (view_bwrite_of_ne _ _ (hhome hc)).trans (h.live c hc nofun)
  case settled => exact nofun
  case headEmpty => exact fun _ ↦ (congrArg decodeHead hstart).trans hhead
  case headWritten => exact nofun
  case logged =>
    intro u c hu hc
    rcases Nat.lt_succ_iff_lt_or_eq.mp hu with hlt | rfl
    · exact (disk_bwrite_of_ne _ _ (by omega)).trans (h.logged u c hlt hc)
    · cases hblock.symm.trans hc
      rw [← h.live b (h.lh.home b (List.mem_of_getElem? hblock)) nofun]
      exact update_self _ _ _

/-- The whole transaction is in the log. -/
theorem LogDisk.logs (h : LogDisk start s d) (hphase : s.phase = .writeLog tail)
    (hblock : s.lh[tail]? = none) : LogDisk start { s with phase := .writeHead } d := by
  have htail : s.lh.length ≤ tail := List.getElem?_eq_none_iff.mp hblock
  cases s
  cases hphase
  exact h.rephase rfl rfl h.lh (List.Subset.refl _) (List.Subset.refl _) nofun nofun (fun _ ↦ rfl)
    nofun fun u c hu hc ↦ ⟨hu.trans_le htail, hc⟩

/-- `write_head`: the one write that commits. -/
theorem LogDisk.writesHead (h : LogDisk start s d) (hphase : s.phase = .writeHead) :
    LogDisk start
      { s.bwrite start (encodeHead s.lh (s.view start)) with phase := .install 0 }
      (d.apply .commit) := by
  have hhead : decodeHead ((s.bwrite start (encodeHead s.lh (s.view start))).disk start) =
      s.lh := by
    rw [disk_bwrite, if_pos rfl]
    exact decodeHead_encodeHead h.lh.length (fun c hc ↦ (h.lh.home c hc).1) _
  cases s
  cases hphase
  constructor
  case lh => exact h.lh
  case head =>
    dsimp only
    rw [hhead]
    exact h.lh
  case coherent => exact fun c w hc hc' ↦ h.coherent_bwrite hc (.inl hc')
  case place =>
    -- A block outside the transaction is on disk as the program sees it.
    intro c hc hc'
    refine (disk_bwrite_of_ne _ _ hc.ne_start).trans ?_
    rw [← h.view_eq hc']
    exact h.live c hc nofun
  case log =>
    intro u c hu
    dsimp only at hu
    rw [hhead] at hu
    have hlt := lt_of_getElem? hu
    exact (disk_bwrite_of_ne _ _ (by omega)).trans (h.logged u c hlt hu)
  case live => exact fun c hc _ ↦ (view_bwrite_of_ne _ _ hc.ne_start).trans (h.live c hc nofun)
  case settled => exact fun _ _ _ ↦ rfl
  case headEmpty => exact nofun
  case headWritten => exact fun _ ↦ hhead
  case logged => exact nofun

/-- One block of a settled transaction goes to its place, in `commit` or in a recovery. -/
theorem LogDisk.moves (h : LogDisk start s d)
    (hphase : s.phase = .install tail ∧ phase = .install (tail + 1) ∨
      s.phase = .recover tail ∧ phase = .recover (tail + 1))
    (hblock : s.lh[tail]? = some b) :
    LogDisk start { s.bwrite b (s.view (start + tail + 1)) with phase := phase } d := by
  have hlt : tail < s.lh.length := lt_of_getElem? hblock
  have hdrop : s.lh.drop tail = b :: s.lh.drop (tail + 1) := by
    rw [List.drop_eq_getElem_cons hlt, (List.getElem?_eq_some_iff.mp hblock).2]
  have hnotMem {c : ℕ} (hcb : c ≠ b) (hc : c ∉ s.lh.drop (tail + 1)) : c ∉ s.lh.drop tail := by
    rw [hdrop, List.mem_cons, not_or]
    exact ⟨hcb, hc⟩
  have hb : IsHome start b := h.lh.home b (List.mem_of_getElem? hblock)
  have hheadLh : decodeHead (s.disk start) = s.lh :=
    h.headWritten (by rcases hphase with ⟨hp, -⟩ | ⟨hp, -⟩ <;> rw [hp] <;> rfl)
  have hdata : s.view (start + tail + 1) = d.durable b :=
    (h.view_log (hlt.trans_le h.lh.length)).trans (h.log tail b (by rw [hheadLh, hblock]))
  have hstart : (s.bwrite b (s.view (start + tail + 1))).disk start = s.disk start :=
    disk_bwrite_of_ne s _ hb.ne_start.symm
  have hpinned {c : ℕ} (hcb : c ≠ b) :
      c ∉ ({ s.bwrite b (s.view (start + tail + 1)) with phase := phase } : LogSystem ι).pinned →
      c ∉ s.pinned := by
    rcases hphase with ⟨hp, rfl⟩ | ⟨hp, rfl⟩ <;> simp only [LogSystem.pinned, hp]
    · exact hnotMem hcb
    · exact id
  cases s
  rcases hphase with ⟨hp, rfl⟩ | ⟨hp, rfl⟩ <;> cases hp
  all_goals
    constructor
    case lh => exact h.lh
    case head => exact (congrArg (Loggable start ∘ decodeHead) hstart).mpr h.head
    case coherent =>
      intro c w hc hc'
      by_cases hcb : c = b
      · exact h.coherent_bwrite hc (.inr hcb)
      · exact h.coherent_bwrite hc (.inl (hpinned hcb hc'))
    case place =>
      intro c hc hc'
      dsimp only
      rw [disk_bwrite]
      split_ifs with hcb
      · rw [hcb, hdata]
      · exact h.place c hc (hnotMem hcb hc')
    case log =>
      intro u c hu
      dsimp only at hu
      rw [hstart] at hu
      have hle : u + 1 ≤ logBlocks := (lt_of_getElem? hu).trans_le h.head.length
      exact (disk_bwrite_of_ne _ _ (hb.ne_log hle).symm).trans (h.log u c hu)
    case live =>
      intro c hc hc'
      refine (view_bwrite _ b c _).trans ?_
      split_ifs with hcb
      · rw [hcb, hdata, h.settled rfl b hb]
      · exact h.live c hc fun hr ↦ hnotMem hcb (hc' hr)
    case settled => exact fun _ ↦ h.settled rfl
    case headEmpty => exact nofun
    case headWritten => exact fun _ ↦ (congrArg decodeHead hstart).trans hheadLh
    case logged => exact nofun

/-- Every block is in its place, in `commit` or in a recovery. -/
theorem LogDisk.moved (h : LogDisk start s d)
    (hphase : s.phase = .install tail ∧ phase = .clearHead ∨
      s.phase = .recover tail ∧ phase = .clearRecovered)
    (hblock : s.lh[tail]? = none) : LogDisk start { s with lh := [], phase := phase } d := by
  have hdrop : s.lh.drop tail = [] :=
    List.drop_eq_nil_of_le (List.getElem?_eq_none_iff.mp hblock)
  have hset : s.phase.settled = true := by
    rcases hphase with ⟨hp, -⟩ | ⟨hp, -⟩ <;> rw [hp] <;> rfl
  have hpending : s.pending start = [] := by
    rcases hphase with ⟨hp, -⟩ | ⟨hp, -⟩ <;> simp only [LogSystem.pending, hp, hdrop]
  have hpinned : s.pinned = [] := by
    rcases hphase with ⟨hp, -⟩ | ⟨hp, -⟩ <;> simp only [LogSystem.pinned, hp, hdrop]
  rcases hphase with ⟨hp, rfl⟩ | ⟨hp, rfl⟩ <;>
    exact h.rephase rfl rfl (.nil start) (by simp [hpinned]) (by simp [hpending])
      (by simp [hp, LogPhase.recovering]) (fun _ ↦ h.settled hset) (by rintro ⟨⟩) (by rintro ⟨⟩)
      (by simp)

/-- The header is cleared, at the end of `commit` or of a recovery. -/
theorem LogDisk.clears (h : LogDisk start s d) (hphase : s.phase = .clearHead ∧ phase = .finish ∨
      s.phase = .clearRecovered ∧ phase = .running) (hlh : s.lh = []) :
    LogDisk start { s.bwrite start (encodeHead s.lh (s.view start)) with phase := phase } d := by
  have hhead : decodeHead ((s.bwrite start (encodeHead s.lh (s.view start))).disk start) = [] := by
    rw [disk_bwrite, if_pos rfl, hlh]
    exact decodeHead_encodeHead (Nat.zero_le _) (by simp) _
  cases s
  rcases hphase with ⟨hp, rfl⟩ | ⟨hp, rfl⟩ <;> cases hp
  all_goals
    constructor
    case lh => exact h.lh
    case head => exact (congrArg (Loggable start) hhead).mpr (.nil start)
    case coherent => exact fun c w hc _ ↦ h.coherent_bwrite hc (.inl nofun)
    case place =>
      exact fun c hc _ ↦ (disk_bwrite_of_ne _ _ hc.ne_start).trans (h.place c hc nofun)
    case log =>
      intro u c hu
      dsimp only at hu
      rw [hhead] at hu
      cases hu
    case live =>
      exact fun c hc _ ↦ (view_bwrite_of_ne _ _ hc.ne_start).trans (h.live c hc nofun)
    case settled => exact fun _ ↦ h.settled rfl
    case headEmpty => exact fun _ ↦ hhead
    case headWritten => exact nofun
    case logged => exact nofun

/-! ### The other steps -/

theorem LogDisk.writes [DecidableEq ι] (h : LogDisk start s d) {v : Block}
    (hphase : s.phase = .running) (hroom : s.lh.length < logBlocks) (hb : IsHome start b) :
    LogDisk start
      { s with cache := update s.cache b (some v), lh := logInsert s.lh b, procs := procs }
      (d.apply (.write b v)) := by
  cases s
  cases hphase
  constructor
  case lh =>
    refine ⟨?_, fun c hc ↦ ?_, nodup_logInsert h.lh.nodup b⟩
    · rw [length_logInsert]
      split_ifs <;> omega
    · rcases mem_logInsert.mp hc with hc | rfl
      · exact h.lh.home c hc
      · exact hb
  case head => exact h.head
  case coherent =>
    intro c w hc hc'
    simp only [LogSystem.pinned, mem_logInsert, not_or] at hc'
    dsimp only at hc
    rw [update_of_ne hc'.2] at hc
    exact h.coherent c w hc hc'.1
  case place => exact fun c hc _ ↦ h.place c hc nofun
  case log => exact h.log
  case live =>
    intro c hc _
    have hlive := h.live c hc nofun
    simp only [LogSystem.view, TxDisk.apply] at hlive ⊢
    by_cases hcb : c = b
    · rw [hcb, update_self, update_self, Option.getD_some]
    · rw [update_of_ne hcb, update_of_ne hcb, hlive]
  case settled => exact nofun
  case headEmpty => exact h.headEmpty
  case headWritten => exact nofun
  case logged => exact nofun

/-- The last operation has ended. -/
theorem LogDisk.endsLast (h : LogDisk start s d) (hphase : s.phase = .running) {outstanding : ℕ} :
    LogDisk start
      { s with outstanding := outstanding, committing := true, procs := procs,
               phase := if s.lh.length > 0 then .writeLog 0 else .finish } d := by
  cases s
  cases hphase
  split_ifs with hlen
  · exact h.rephase rfl rfl h.lh (List.Subset.refl _) (List.Subset.refl _) nofun nofun
      (fun _ ↦ rfl) nofun nofun
  · -- Nothing was written, so everything is durable already.
    obtain rfl := List.eq_nil_of_length_eq_zero (Nat.eq_zero_of_not_pos hlen)
    refine h.rephase rfl rfl h.lh (List.Subset.refl _) (List.Subset.refl _) nofun
      (fun _ c hc ↦ ?_) (fun _ ↦ rfl) nofun nofun
    rw [← h.live c hc nofun, h.view_eq nofun]
    exact h.place c hc nofun

theorem LogDisk.finishes (h : LogDisk start s d) (hphase : s.phase = .finish)
    {chan : ι → Option Unit} {ncommit : ℕ} :
    LogDisk start
      { s with committing := false, ncommit := ncommit, procs := procs, chan := chan,
               phase := .running } d := by
  cases s
  cases hphase
  exact h.rephase rfl rfl h.lh (List.nil_subset _) (List.Subset.refl _) nofun nofun (fun _ ↦ rfl)
    nofun nofun

/-- A buffer is read in or given up: what `bread` returns does not change. -/
theorem LogDisk.recaches (h : LogDisk start s d) {cached : Option Block}
    (hcached : ∀ v, cached = some v → v = s.view b) (hnone : cached = none → b ∉ s.pinned) :
    LogDisk start { s with cache := update s.cache b cached } d := by
  have hview (c : ℕ) : ({ s with cache := update s.cache b cached } :
      LogSystem ι).view c = s.view c := by
    rcases eq_or_ne c b with rfl | hcb
    · cases hc : cached with
      | none =>
        have hdisk := h.view_eq (hnone hc)
        simp only [LogSystem.view, update_self, Option.getD_none] at hdisk ⊢
        exact hdisk.symm
      | some v =>
        have hv := hcached v hc
        simp only [LogSystem.view, update_self, Option.getD_some] at hv ⊢
        exact hv
    · simp only [LogSystem.view, update_of_ne hcb]
  refine ⟨h.lh, h.head, ?_, h.place, h.log, ?_, h.settled, h.headEmpty,
    h.headWritten, h.logged⟩
  · intro c w hc hc'
    rcases eq_or_ne c b with rfl | hcb
    · dsimp only at hc
      rw [update_self] at hc
      rw [hcached w hc]
      exact (h.view_eq hc').symm
    · dsimp only at hc
      rw [update_of_ne hcb] at hc
      exact h.coherent c w hc hc'
  · intro c hc hc'
    rw [hview c]
    exact h.live c hc hc'

/-- The power fails. -/
theorem LogDisk.crashes (h : LogDisk start s d) :
    LogDisk start (powerOn s.disk : LogSystem ι) (d.apply .crash) where
  lh := .nil start
  head := h.head
  coherent := nofun
  place := fun c hc hc' ↦ h.place c hc fun hpending ↦ hc' (h.pending_subset hpending)
  log := h.log
  live := fun c hc hc' ↦ h.place c hc fun hpending ↦ hc' rfl (h.pending_subset hpending)
  settled := fun _ _ _ ↦ rfl
  headEmpty := nofun
  headWritten := nofun
  logged := nofun

theorem LogDisk.readsHead (h : LogDisk start s d) (hphase : s.phase = .readHead) :
    LogDisk start { s with lh := decodeHead (s.view start), phase := .recover 0 } d := by
  rw [h.view_start]
  cases s
  cases hphase
  exact h.rephase rfl rfl h.head (List.Subset.refl _) (List.Subset.refl _) id
    (fun _ ↦ h.settled rfl) nofun (fun _ ↦ rfl) nofun

end Disk

/-! ### The log refines a disk with transactions -/

section Refinement

variable {ι : Type*} [Fintype ι] [DecidableEq ι] {start : ℕ} {s t u : LogSystem ι}
  {d : TxDisk ℕ Block} {e : LogEvent ι}

/-- What a transition does to the disk with transactions: a write of an operation, the write of the
header that commits, or a crash. -/
def txEvent (tr : Transition (LogSystem ι) (LogEvent ι)) : Option (TxEvent ℕ Block) :=
  match tr.event with
  | .logWrite _ blockno data => if tr.target.panic = none then some (.write blockno data) else none
  | .commit _ => if tr.source.phase = .writeHead then some .commit else none
  | .crash => some .crash
  | _ => none

def txStep (d : TxDisk ℕ Block) (tr : Transition (LogSystem ι) (LogEvent ι)) : TxDisk ℕ Block :=
  match txEvent tr with
  | some e => d.apply e
  | none => d

/-- The disk with transactions after a run on a disk. -/
def txRun (start : ℕ) (disk : ℕ → Block) (l : List (Transition (LogSystem ι) (LogEvent ι))) :
    TxDisk ℕ Block :=
  l.foldl txStep ⟨recoveredDisk start disk, recoveredDisk start disk⟩

/-- The operations write only blocks outside the log. -/
def WritesHome (start : ℕ) (tr : Transition (LogSystem ι) (LogEvent ι)) : Prop :=
  ∀ i blockno data, tr.event = .logWrite i blockno data → IsHome start blockno

/-- The block at a place of the header is restored from the same place of the log. -/
theorem recoveredDisk_of_head {disk : ℕ → Block} {tail b : ℕ}
    (h : Loggable start (decodeHead (disk start)))
    (hb : (decodeHead (disk start))[tail]? = some b) :
    recoveredDisk start disk b = disk (start + tail + 1) := by
  let target : ℕ → Block := fun _ ↦ disk (start + tail + 1)
  refine @applyWrites_eq _ _ _ _ _ disk target (fun w hw hwb ↦ ?_) fun hnot ↦ ?_
  · obtain ⟨tail', hhead, hdata⟩ := mem_headWrites.mp hw
    rw [hwb] at hhead
    obtain ⟨hlt, hget⟩ := List.getElem?_eq_some_iff.mp hb
    obtain ⟨hlt', hget'⟩ := List.getElem?_eq_some_iff.mp hhead
    have hsame : tail' = tail := (h.nodup.getElem_inj_iff).mp (hget'.trans hget.symm)
    rw [← hdata, hsame]
  · rw [fst_headWrites] at hnot
    exact absurd (List.mem_of_getElem? hb) hnot

omit [Fintype ι] [DecidableEq ι] in
theorem logDisk_powerOn {disk : ℕ → Block} (h : Loggable start (decodeHead (disk start))) :
    LogDisk start (powerOn disk : LogSystem ι) ⟨recoveredDisk start disk, recoveredDisk start disk⟩
    where
  lh := .nil start
  head := h
  coherent := nofun
  place := by
    intro c _ hc
    refine (applyWrites_of_notMem ?_ disk).symm
    rwa [fst_headWrites]
  log := fun tail c hc ↦ (recoveredDisk_of_head h hc).symm
  live := by
    intro c _ hc
    refine (applyWrites_of_notMem ?_ disk).symm
    rw [fst_headWrites]
    exact hc rfl
  settled := fun _ _ _ ↦ rfl
  headEmpty := nofun
  headWritten := nofun
  logged := nofun

omit [DecidableEq ι] in
/-- An operation in progress finds neither a commit nor a recovery. -/
theorem LogCounts.phase_running (h : LogCounts s) {i : ι} {a : ℕ} (hproc : s.procs i = .inOp a) :
    s.phase = .running := by
  have hcommit := h.phase.trans (h.not_committing hproc)
  have hready := h.not_recovering (i := i) (by simp [hproc])
  cases hphase : s.phase with
  | running => rfl
  | _ =>
    simp [hphase, LogPhase.inCommit, LogPhase.recovering] at hcommit hready

omit [Fintype ι] in
/-- A kernel that has panicked does nothing until the power fails. -/
theorem panic_of_logStep (hstep : logStep start s e = some t) (he : e ≠ .crash) :
    s.panic = none := by
  by_contra hpanic
  cases e with
  | crash => exact he rfl
  | _ => simp [logStep, hpanic] at hstep

theorem logDisk_step (hstep : logStep start s e = some t) (hcounts : LogCounts s)
    (hhome : WritesHome start ⟨s, e, t⟩) (h : LogDisk start s d) :
    LogDisk start t (txStep d ⟨s, e, t⟩) := by
  cases logMove_of_logStep hstep with
  | writes i _ blockno data hproc hroom =>
    have hpanic := panic_of_logStep hstep (by simp)
    simp only [txStep, txEvent, if_pos hpanic]
    exact h.writes (hcounts.phase_running hproc) hroom (hhome i blockno data rfl)
  | writePanics =>
    simp only [txStep, txEvent, reduceCtorEq, if_false]
    exact h.congr rfl rfl rfl rfl
  | endPanics _ _ hproc hcommitting => exact absurd hproc (hcounts.not_inOp hcommitting)
  | endsLast _ _ hproc => exact h.endsLast (hcounts.phase_running hproc)
  | logsBlock _ _ _ _ hphase hblock =>
    simpa [txStep, txEvent, hphase] using h.logsBlock hphase hblock
  | logged _ _ _ hphase hblock =>
    simpa [txStep, txEvent, hphase] using h.logs hphase hblock
  | writesHead _ _ hphase => simpa [txStep, txEvent, hphase] using h.writesHead hphase
  | installsBlock _ _ _ _ hphase hblock =>
    simpa [txStep, txEvent, hphase] using h.moves (.inl ⟨hphase, rfl⟩) hblock
  | installed _ _ _ hphase hblock =>
    simpa [txStep, txEvent, hphase] using h.moved (.inl ⟨hphase, rfl⟩) hblock
  | clearsHead i hproc hphase =>
    have hzero := hcounts.alone (hcounts.committer i hproc)
    have hlh := hcounts.empty hzero (by rw [hphase]; rfl)
    simpa [txStep, txEvent, hphase] using h.clears (.inl ⟨hphase, rfl⟩) hlh
  | finishes _ _ hphase =>
    simp only [txStep, txEvent, hphase, reduceCtorEq, if_false]
    exact h.finishes hphase
  | fills =>
    exact h.recaches (fun v hv ↦ (Option.some.inj hv).symm) nofun
  | evicts _ hpinned => exact h.recaches nofun (fun _ ↦ hpinned)
  | crashes => exact h.crashes
  | readsHead hphase => exact h.readsHead hphase
  | recoversBlock _ _ hphase hblock => exact h.moves (.inr ⟨hphase, rfl⟩) hblock
  | recovered _ hphase hblock => exact h.moved (.inr ⟨hphase, rfl⟩) hblock
  | clearsRecovered hphase =>
    have hidle := hcounts.recovering (by rw [hphase]; rfl)
    have hzero : s.outstanding = 0 := by simp [hcounts.ops, hidle]
    exact h.clears (.inr ⟨hphase, rfl⟩) (hcounts.empty hzero (by rw [hphase]; rfl))
  | syncReturns => exact h
  | _ => exact h.congr rfl rfl rfl rfl

section Runs

variable {disk : ℕ → Block} {l : List (Transition (LogSystem ι) (LogEvent ι))}

theorem logDisk_path (hhead : Loggable start (decodeHead (disk start)))
    (hpath : Path (logStep start) (powerOn disk) l u) (hhome : ∀ tr ∈ l, WritesHome start tr) :
    LogDisk start u (txRun start disk l) := by
  revert hhome
  refine hpath.history_rule
    (J := fun l t ↦ (∀ tr ∈ l, WritesHome start tr) → LogDisk start t (txRun start disk l))
    (fun _ ↦ logDisk_powerOn hhead) fun l t e t' hl hstep ih hhome ↦ ?_
  have hdisk := ih fun tr htr ↦ hhome tr (List.mem_append_left _ htr)
  have hnew := hhome ⟨t, e, t'⟩ (List.mem_append_right _ (List.mem_singleton_self _))
  rw [txRun, List.foldl_append]
  exact logDisk_step hstep (logCounts_path hl) hnew hdisk

/-- The log refines a disk with transactions, over every run with any number of crashes: a recovery
would restore the durable contents, what the program sees are the live ones, and a commit of the
abstract disk happens only while no operation is in progress. -/
theorem log_refines_txDisk (hhead : Loggable start (decodeHead (disk start)))
    (hpath : Path (logStep start) (powerOn disk) l u) (hhome : ∀ tr ∈ l, WritesHome start tr) :
    (∀ b, IsHome start b → recoveredDisk start u.disk b = (txRun start disk l).durable b ∧
      (u.phase.recovering = false → u.view b = (txRun start disk l).live b)) ∧
    ∀ tr ∈ l, txEvent tr = some .commit → ∀ i a, tr.source.procs i ≠ .inOp a := by
  have hdisk := logDisk_path hhead hpath hhome
  constructor
  · intro b hb
    refine ⟨hdisk.recovers hb, fun hready ↦ hdisk.live b hb fun hrec ↦ ?_⟩
    cases hready.symm.trans hrec
  · intro tr htr hcommit i a
    obtain ⟨l₁, l₂, rfl⟩ := List.append_of_mem htr
    obtain ⟨hbefore, hstep, -⟩ := hpath.split_cons
    have hcounts := logCounts_path hbefore
    have hphase : tr.source.phase = .writeHead := by
      unfold txEvent at hcommit
      split at hcommit
      · split_ifs at hcommit
        cases hcommit
      · exact (Option.ite_none_right_eq_some.mp hcommit).1
      · cases hcommit
      · cases hcommit
    refine hcounts.not_inOp ?_
    rw [← hcounts.phase, hphase]
    rfl

/-- A run that loses power right after the header of a transaction has been written. -/
def cutShort : List (Transition (LogSystem Worker) (LogEvent Worker)) × LogSystem Worker :=
  replay (logStep 2) (powerOn blankDisk) [.recover, .recover, .recover, .beginOp (false, false),
    .logWrite (false, false) 100 (fun _ ↦ 7#32), .endOp (false, false), .commit (false, false),
    .commit (false, false), .commit (false, false), .crash]

theorem loggable_blankDisk : Loggable 2 (decodeHead (blankDisk 2)) := by
  have hnil : decodeHead (blankDisk 2) = [] := by decide
  rw [hnil]
  exact .nil 2

theorem writesHome_cutShort : ∀ tr ∈ cutShort.1, WritesHome 2 tr := by
  intro tr htr i blockno data he
  have hmem := event_mem_of_replay htr
  rw [he] at hmem
  simp only [List.mem_cons, reduceCtorEq, LogEvent.logWrite.injEq, List.not_mem_nil, or_false,
    false_or] at hmem
  rw [hmem.2.1]
  exact ⟨by decide, by decide⟩

theorem log_refines_txDisk_cutShort :
    cutShort.2.disk 100 = blankDisk 100 ∧
      recoveredDisk 2 cutShort.2.disk 100 = (txRun 2 blankDisk cutShort.1).durable 100 ∧
      (txRun 2 blankDisk cutShort.1).durable 100 = fun _ ↦ 7#32 :=
  ⟨rfl, ((log_refines_txDisk loggable_blankDisk (path_replay _ _) writesHome_cutShort).1 100
    ⟨by decide, by decide⟩).1, rfl⟩

end Runs

/-! ### `sys_sync` -/

section Sync

variable {disk : ℕ → Block} {l l₀ : List (Transition (LogSystem ι) (LogEvent ι))} {i : ι} {n : ℕ}

omit [Fintype ι] in
/-- Only the end of a commit counts as a commit. -/
theorem ncommit_cases (hstep : logStep start s e = some t) :
    t.ncommit = s.ncommit ∨ s.phase = .finish ∨ e = .crash := by
  cases logMove_of_logStep hstep with
  | finishes _ _ hphase => exact .inr (.inl hphase)
  | crashes => exact .inr (.inr rfl)
  | _ => exact .inl rfl

omit [Fintype ι] [DecidableEq ι] in
/-- The durable contents change only when the header is written. -/
theorem durable_cases (d : TxDisk ℕ Block) (tr : Transition (LogSystem ι) (LogEvent ι)) :
    (txStep d tr).durable = d.durable ∨
      tr.source.phase = .writeHead ∧ (txStep d tr).durable = d.live := by
  unfold txStep txEvent
  split
  · rename_i e he
    split at he
    · split_ifs at he
      cases he
      exact .inl rfl
    · split_ifs at he with hphase
      cases he
      exact .inr ⟨hphase, rfl⟩
    · cases he
      exact .inl rfl
    · cases he
  · exact .inl rfl

/-- What is durable was the contents of the file system in one of some states. -/
def Caught (start : ℕ) (states : List (LogSystem ι)) (d : TxDisk ℕ Block) : Prop :=
  ∃ v ∈ states, ∀ b, IsHome start b → d.durable b = v.view b

omit [Fintype ι] [DecidableEq ι] in
theorem Caught.mono {states states' : List (LogSystem ι)} {d' : TxDisk ℕ Block}
    (h : Caught start states d) (hsub : states ⊆ states') (hdurable : d'.durable = d.durable) :
    Caught start states' d' := by
  obtain ⟨v, hv, hb⟩ := h
  exact ⟨v, hsub hv, hdurable ▸ hb⟩

omit [Fintype ι] [DecidableEq ι] in
theorem LogDisk.view_live (h : LogDisk start s d) (hready : s.phase.recovering = false) {b : ℕ}
    (hb : IsHome start b) : s.view b = d.live b :=
  h.live b hb fun hrec ↦ by
    cases hready.symm.trans hrec

/-- From a state on, once a commit has ended, what is durable was seen in one of the states
since. -/
theorem caught_of_run (hbase : LogDisk start s d) (hcounts : LogCounts s)
    (hrun : Path (logStep start) s l u) (hhome : ∀ tr ∈ l, WritesHome start tr)
    (hnocrash : ∀ tr ∈ l, tr.event ≠ .crash) :
    LogCounts u ∧ LogDisk start u (l.foldl txStep d) ∧
      (u.ncommit = s.ncommit ∨ Caught start (s :: l.map (·.target)) (l.foldl txStep d)) := by
  revert hhome hnocrash
  refine hrun.history_rule
    (J := fun l t ↦ (∀ tr ∈ l, WritesHome start tr) → (∀ tr ∈ l, tr.event ≠ .crash) →
      LogCounts t ∧ LogDisk start t (l.foldl txStep d) ∧
        (t.ncommit = s.ncommit ∨ Caught start (s :: l.map (·.target)) (l.foldl txStep d)))
    (fun _ _ ↦ ⟨hcounts, hbase, .inl rfl⟩) fun l t e t' hl hstep ih hhome hnocrash ↦ ?_
  obtain ⟨hct, hdt, hcaught⟩ := ih (fun tr htr ↦ hhome tr (List.mem_append_left _ htr))
    (fun tr htr ↦ hnocrash tr (List.mem_append_left _ htr))
  have hlast : (⟨t, e, t'⟩ : Transition _ _) ∈ l ++ [⟨t, e, t'⟩] :=
    List.mem_append_right _ (List.mem_singleton_self _)
  have hct' := logCounts_step hstep hct
  have hdt' := logDisk_step hstep hct (hhome _ hlast) hdt
  have ht : t ∈ s :: l.map (·.target) := hl.target_mem
  have hgrow : s :: l.map (·.target) ⊆
      s :: (l ++ [(⟨t, e, t'⟩ : Transition (LogSystem ι) (LogEvent ι))]).map (·.target) := by
    rw [List.map_append, ← List.cons_append]
    exact List.subset_append_left _ _
  rw [List.foldl_append]
  refine ⟨hct', hdt', ?_⟩
  -- The step may write the header; then the contents of `t` have become durable.
  rcases durable_cases (l.foldl txStep d) ⟨t, e, t'⟩ with hsame | ⟨hphase, hnew⟩
  · rcases hcaught with hn | hc
    · rcases ncommit_cases hstep with hn' | hfinish | hcrash
      · exact .inl (hn'.trans hn)
      · have hc : Caught start (s :: l.map (·.target)) (l.foldl txStep d) := by
          refine ⟨t, ht, fun b hb ↦ ?_⟩
          rw [hdt.view_live (by rw [hfinish]; rfl) hb]
          exact (hdt.settled (by rw [hfinish]; rfl) b hb).symm
        exact .inr (hc.mono hgrow hsame)
      · exact absurd hcrash (hnocrash _ hlast)
    · exact .inr (hc.mono hgrow hsame)
  · refine .inr ⟨t, hgrow ht, fun b hb ↦ ?_⟩
    have hready : t.phase.recovering = false := by rw [show t.phase = .writeHead from hphase]; rfl
    rw [hdt.view_live hready hb]
    exact congrFun hnew b

/-- When `sys_sync` returns, what a crash would leave behind is what the file system held in some
state since the call. Either it returns at once, or `log.ncommit` has reached its `n`. -/
theorem sysSync_durable (hhead : Loggable start (decodeHead (disk start)))
    (hreach : Path (logStep start) (powerOn disk) l₀ s) (hidle : s.procs i = .idle)
    (hcall : logStep start s (.sync i) = some t) (hrun : Path (logStep start) t l u)
    (hhome : ∀ tr ∈ l₀ ++ l, WritesHome start tr) (hnocrash : ∀ tr ∈ l, tr.event ≠ .crash)
    (hreturn : t.procs i = .idle ∧ l = [] ∨ t.procs i = .syncWait n ∧ n ≤ u.ncommit) :
    ∃ v ∈ t :: l.map (·.target), ∀ b, IsHome start b → recoveredDisk start u.disk b = v.view b := by
  have hcounts := logCounts_path hreach
  have hbase := logDisk_path hhead hreach fun tr htr ↦ hhome tr (List.mem_append_left _ htr)
  have hcounts' := logCounts_step hcall hcounts
  have hbase' := logDisk_step hcall hcounts nofun hbase
  obtain ⟨-, hdisk, hcaught⟩ := caught_of_run hbase' hcounts' hrun
    (fun tr htr ↦ hhome tr (List.mem_append_right _ htr)) hnocrash
  cases logMove_of_logStep hcall with
  | syncReturns _ _ _ hcommitting hout =>
    -- With nothing in progress the log is empty, and every block is on disk as it is seen.
    have hphase : s.phase = .running ∧ s.phase.emptied = true := by
      have hcommit := hcounts.phase.trans hcommitting
      cases hp : s.phase <;> simp_all [LogPhase.inCommit, LogPhase.recovering, LogPhase.emptied]
    have hlh := hcounts.empty hout hphase.2
    rcases hreturn with ⟨-, rfl⟩ | ⟨hwait, -⟩
    · cases hrun
      refine ⟨s, List.mem_cons_self, fun b hb ↦ ?_⟩
      rw [hbase.recovers hb, hbase.view_eq (by simp [LogSystem.pinned, hphase.1, hlh])]
      exact (hbase.place b hb (by simp [LogSystem.pending, hphase.1])).symm
    · cases hidle.symm.trans hwait
  | syncWaits =>
    rcases hreturn with ⟨hnot, -⟩ | ⟨hwait, hn⟩
    · dsimp only at hnot
      rw [update_self] at hnot
      cases hnot
    · dsimp only at hwait
      rw [update_self, LogUse.syncWait.injEq] at hwait
      rcases hcaught with hsame | ⟨v, hv, hdur⟩
      · dsimp only at hsame
        omega
      · exact ⟨v, hv, fun b hb ↦ (hdisk.recovers hb).trans (hdur b hb)⟩
  | syncWaitsOn _ _ hproc | syncEnds _ _ hproc =>
    cases hidle.symm.trans hproc

/-- A process writes a block, and before its operation ends another one calls `sys_sync`. -/
def beforeSync : List (Transition (LogSystem Worker) (LogEvent Worker)) × LogSystem Worker :=
  replay (logStep 2) (powerOn blankDisk) [.recover, .recover, .recover, .beginOp (false, false),
    .logWrite (false, false) 100 (fun _ ↦ 7#32)]

/-- The end of the operation and the commit after it. -/
def afterSync : List (Transition (LogSystem Worker) (LogEvent Worker)) × LogSystem Worker :=
  replay (logStep 2) (sysSync (false, true) beforeSync.2) (.endOp (false, false) ::
    List.replicate 7 (.commit (false, false)))

theorem writesHome_sync : ∀ tr ∈ beforeSync.1 ++ afterSync.1, WritesHome 2 tr := by
  intro tr htr i blockno data he
  have hmem : tr.event ∈ [.recover, .recover, .recover, .beginOp (false, false),
      .logWrite (false, false) 100 (fun _ ↦ 7#32)] ++
      .endOp (false, false) :: List.replicate 7 (.commit (false, false)) := by
    rcases List.mem_append.mp htr with htr | htr
    · exact List.mem_append_left _ (event_mem_of_replay htr)
    · exact List.mem_append_right _ (event_mem_of_replay htr)
  rw [he] at hmem
  simp at hmem
  rw [hmem.2.1]
  exact ⟨by decide, by decide⟩

theorem not_crash_afterSync : ∀ tr ∈ afterSync.1, tr.event ≠ .crash := by
  intro tr htr he
  have hmem := event_mem_of_replay htr
  rw [he] at hmem
  simp at hmem

theorem sysSync_durable_afterSync : afterSync.2.ncommit = 1 ∧
    ∃ v ∈ sysSync (false, true) beforeSync.2 :: afterSync.1.map (·.target),
      ∀ b, IsHome 2 b → recoveredDisk 2 afterSync.2.disk b = v.view b :=
  ⟨by decide, sysSync_durable (i := (false, true)) (n := 1) loggable_blankDisk (path_replay _ _)
    (by decide) rfl (path_replay _ _) writesHome_sync not_crash_afterSync
    (.inr ⟨by decide, by decide⟩)⟩

end Sync

end Refinement

end Irish.Xv6
