import Irish.Xv6.Bio
import Irish.Xv6.LogOps

/-!
# Users of the buffer cache

Three things hold in every run of the callers. The ring lists all buffers, and it is the list in
which each buffer went to the front when its last reference was given up (`bcache_lru`). A reference
count is the number of callers that have the buffer plus the number of its pins, a buffer with
references keeps its block, and no block has two buffers (`BioRefs`). The lock of a buffer is held
by one caller, nobody sleeps on a free lock, and `bwrite` and `brelse` do not panic (`BioLocks`).

The counts, and with them the order of the ring, need that `bunpin` is only called on a pinned
buffer: no count is then decremented at 0, where the `uint` of the source would wrap. Device 0 is
the one the buffers have at the start, before they hold any block, so the statements about blocks
leave it out.
-/

set_option autoImplicit false

namespace Irish.Xv6

open Library
open Function (update update_eq_self update_of_ne update_self)

variable {ι : Type*} {order : List BufId} {b c : BufId} {links : Links BufId} {k : BlockId}
  {use : BufUse}

/-! ### The ring -/

/-- The buffers in the order of the ring after one more step. -/
def recencyStep (order : List BufId) (tr : Transition (Bcache ι) (BioEvent ι)) : List BufId :=
  match tr.event with
  | .drop i =>
    match tr.source.users i with
    | .released b _ => if (tr.source.bufs b).refcnt = 1 then b :: order.erase b else order
    | _ => order
  | _ => order

/-- The buffers by how recently their last reference was given up, most recent first. -/
def recency (l : List (Transition (Bcache ι) (BioEvent ι))) : List BufId :=
  l.foldl recencyStep (List.finRange nbuf).reverse

/-- The ring spells a list of all buffers. -/
structure BioRing (links : Links BufId) (order : List BufId) : Prop where
  ring : Ring links order
  perm : order.Perm (List.finRange nbuf)

theorem BioRing.mem (h : BioRing links order) (b : BufId) : b ∈ order :=
  h.perm.mem_iff.mpr (List.mem_finRange b)

theorem BioRing.length_lt (h : BioRing links order) : order.length < nbuf + 1 := by
  rw [h.perm.length_eq, List.length_finRange]
  exact Nat.lt_succ_self nbuf

theorem ring_foldl_pushFront {l : List BufId} (h : Ring links order) (hl : l.Nodup)
    (hdisjoint : ∀ b ∈ l, b ∉ order) :
    Ring (l.foldl (fun links b ↦ links.pushFront b) links) (l.reverse ++ order) := by
  induction l generalizing links order with
  | nil => exact h
  | cons b _ ih =>
    obtain ⟨hb, hl⟩ := List.nodup_cons.mp hl
    rw [List.foldl_cons, List.reverse_cons, List.append_assoc]
    refine ih (h.pushFront (hdisjoint b List.mem_cons_self)) hl fun c hc hmem ↦ ?_
    rcases List.mem_cons.mp hmem with hcb | hmem
    · exact hb (hcb ▸ hc)
    · exact hdisjoint c (List.mem_cons_of_mem _ hc) hmem

theorem bioRing_binit (disk : BlockId → Block) :
    BioRing (binit disk : Bcache ι).links (List.finRange nbuf).reverse := by
  refine ⟨?_, List.reverse_perm _⟩
  have hring := ring_foldl_pushFront ring_empty (List.nodup_finRange nbuf) (by simp)
  rwa [List.append_nil] at hring

theorem BioRing.moveFront (h : BioRing links order) (b : BufId) :
    BioRing ((links.unlink b).pushFront b) (b :: order.erase b) := by
  refine ⟨(h.ring.unlink (h.mem b)).pushFront ?_, ?_⟩
  · exact h.ring.nodup.not_mem_erase
  · exact (List.perm_cons_erase (h.mem b)).symm.trans h.perm

section Searches

variable {s : Bcache ι}

theorem BioRing.cached_eq (h : BioRing s.links order) (key : BlockId) :
    s.cached key =
      order.find? (fun b ↦ (s.bufs b).dev == key.1 && (s.bufs b).blockno == key.2) :=
  h.ring.scan_next _ h.length_lt

theorem BioRing.unused_eq (h : BioRing s.links order) :
    s.unused = order.reverse.find? (fun b ↦ (s.bufs b).refcnt == 0) :=
  h.ring.scan_prev _ h.length_lt

theorem BioRing.cached_some (h : BioRing s.links order) {key : BlockId}
    (hcached : s.cached key = some b) : (s.bufs b).key = key := by
  rw [h.cached_eq] at hcached
  have htest := List.find?_some hcached
  rw [Bool.and_eq_true, beq_iff_eq, beq_iff_eq] at htest
  exact Prod.ext htest.1 htest.2

theorem BioRing.cached_none (h : BioRing s.links order) {key : BlockId}
    (hcached : s.cached key = none) (b : BufId) : (s.bufs b).key ≠ key := by
  rw [h.cached_eq, List.find?_eq_none] at hcached
  have htest := hcached b (h.mem b)
  rintro rfl
  simp [Buf.key] at htest

theorem BioRing.unused_some (h : BioRing s.links order) (hunused : s.unused = some b) :
    (s.bufs b).refcnt = 0 := by
  rw [h.unused_eq] at hunused
  have htest := List.find?_some hunused
  simpa using htest

theorem BioRing.unused_none (h : BioRing s.links order) (hunused : s.unused = none)
    (b : BufId) : (s.bufs b).refcnt ≠ 0 := by
  rw [h.unused_eq, List.find?_eq_none] at hunused
  have htest := hunused b (List.mem_reverse.mpr (h.mem b))
  simpa using htest

end Searches

section Ring

variable [DecidableEq ι] {pid : ι → ℕ} {s t u : Bcache ι} {e : BioEvent ι} {disk : BlockId → Block}
  {l : List (Transition (Bcache ι) (BioEvent ι))}

theorem bioRing_step (h : bioStep pid s e = some t) (hring : BioRing s.links order)
    (hpos : ∀ i b key, s.users i = .released b key → 0 < (s.bufs b).refcnt) :
    BioRing t.links (recencyStep order ⟨s, e, t⟩) := by
  cases bioMove_of_bioStep h with
  | dropsLast i b key huser hlast =>
    have hone : (s.bufs b).refcnt = 1 :=
      le_antisymm (Nat.sub_eq_zero_iff_le.mp hlast) (hpos i b key huser)
    simp only [recencyStep, huser, if_pos hone]
    exact hring.moveFront b
  | drops _ b _ huser hlast =>
    have hone : (s.bufs b).refcnt ≠ 1 := fun hone ↦ hlast (Nat.sub_eq_zero_iff_le.mpr hone.le)
    simp only [recencyStep, huser, if_neg hone]
    exact hring
  | _ => exact hring

end Ring

/-! ### References -/

/-- The buffer that a caller has a reference to, and the block that it asked for. -/
def BufUse.ref : BufUse → Option (BufId × BlockId)
  | .idle => none
  | .waiting b key => some (b, key)
  | .locked b key => some (b, key)
  | .held b key => some (b, key)
  | .released b key => some (b, key)

/-- The references of a caller to a buffer. -/
def BufUse.refs (b : BufId) (use : BufUse) : ℕ := if use.ref.map Prod.fst = some b then 1 else 0

theorem refs_idle (b : BufId) : BufUse.idle.refs b = 0 := rfl

theorem refs_of_ref (h : use.ref = some (b, k)) : use.refs b = 1 := by
  rw [BufUse.refs, h]
  exact if_pos rfl

theorem refs_of_ref_of_ne (h : use.ref = some (b, k)) (hc : c ≠ b) : use.refs c = 0 := by
  rw [BufUse.refs, h]
  exact if_neg fun hbc ↦ hc (Option.some.inj hbc).symm

/-- `bunpin` is for buffers that are pinned. -/
def UnpinsPinned (s : Bcache ι) : BioEvent ι → Prop
  | .bunpin i => ∀ b key, s.users i = .held b key → 0 < s.pins b
  | _ => True

variable [Fintype ι] {i : ι}

structure BioRefs (s : Bcache ι) : Prop where
  refcnt : ∀ b, (s.bufs b).refcnt = ∑ i, (s.users i).refs b + s.pins b
  key : ∀ i b key, (s.users i).ref = some (b, key) → (s.bufs b).key = key
  unique : ∀ b c, (s.bufs b).dev ≠ 0 → (s.bufs b).key = (s.bufs c).key → b = c

/-- A change of one buffer that leaves something of it as it is leaves that of all buffers. -/
theorem update_field {α : Type*} (f : Buf → α) {bufs : BufId → Buf} {buf : Buf}
    (h : f buf = f (bufs b)) (c : BufId) : f (update bufs b buf c) = f (bufs c) := by
  by_cases hc : c = b
  · rw [hc, update_self, h]
  · rw [update_of_ne hc]

section Refs

variable {pid : ι → ℕ} {s t u : Bcache ι} {e : BioEvent ι} {key : BlockId}

theorem bioRefs_binit (disk : BlockId → Block) : BioRefs (binit disk : Bcache ι) := by
  refine ⟨fun b ↦ ?_, fun i b key h ↦ ?_, fun b c hdev ↦ ?_⟩
  · simp [binit, refs_idle]
  · cases h
  · exact absurd rfl hdev

theorem BioRefs.refcnt_pos (h : BioRefs s) (href : (s.users i).ref = some (b, key)) :
    0 < (s.bufs b).refcnt := by
  have hle := le_sum (fun j ↦ (s.users j).refs b) i
  have hone := refs_of_ref href
  have hcount := h.refcnt b
  omega

/-- A buffer without references is nobody's. -/
theorem BioRefs.ref_ne (h : BioRefs s) (hb : (s.bufs b).refcnt = 0) (i : ι)
    (key : BlockId) : (s.users i).ref ≠ some (b, key) :=
  fun href ↦ (h.refcnt_pos href).ne' hb

/-- Two references to one block are references to one buffer. -/
theorem BioRefs.same_buffer (h : BioRefs s) {j : ι} (hi : (s.users i).ref = some (b, key))
    (hj : (s.users j).ref = some (c, key)) (hdev : key.1 ≠ 0) : b = c := by
  have hb := h.key i b key hi
  have hc := h.key j c key hj
  refine h.unique b c ?_ (hb.trans hc.symm)
  rw [← hb] at hdev
  exact hdev

/-- A buffer is pinned or unpinned. -/
theorem BioRefs.repin (h : BioRefs s) {n m : ℕ} (hcount : n + s.pins b = (s.bufs b).refcnt + m)
    (hbufs : t.bufs = update s.bufs b { s.bufs b with refcnt := n })
    (hpins : t.pins = update s.pins b m) (husers : t.users = s.users) : BioRefs t := by
  have hkeys : ∀ c, (t.bufs c).key = (s.bufs c).key := by
    rw [hbufs]
    exact update_field Buf.key rfl
  refine ⟨fun c ↦ ?_, fun j c k hj ↦ ?_, fun c d hdev hsame ↦ ?_⟩
  · have hold := h.refcnt c
    rw [hbufs, hpins, husers]
    by_cases hc : c = b
    · rw [hc, update_self, update_self]
      rw [hc] at hold
      dsimp only
      omega
    · rwa [update_of_ne hc, update_of_ne hc]
  · rw [hkeys]
    exact h.key j c k (husers ▸ hj)
  · rw [hkeys, hkeys] at hsame
    refine h.unique c d ?_ hsame
    rwa [← show (t.bufs c).dev = (s.bufs c).dev from congrArg Prod.fst (hkeys c)]

variable [DecidableEq ι]

/-- One caller changes, with the counts; the buffers keep their blocks. -/
theorem BioRefs.change (h : BioRefs s) {i : ι} {use : BufUse}
    (husers : t.users = update s.users i use) (hpins : t.pins = s.pins)
    (hkeys : ∀ b, (t.bufs b).key = (s.bufs b).key)
    (hcount : ∀ b, (t.bufs b).refcnt + (s.users i).refs b = (s.bufs b).refcnt + use.refs b)
    (href : ∀ b key, use.ref = some (b, key) → (s.bufs b).key = key) : BioRefs t := by
  refine ⟨fun b ↦ ?_, fun j b key hj ↦ ?_, fun b c hdev hkey ↦ ?_⟩
  · have hsum := sum_update_add (BufUse.refs b) s.users i use
    have hold := h.refcnt b
    have hnew := hcount b
    rw [husers, hpins]
    omega
  · rw [hkeys]
    rw [husers] at hj
    by_cases hji : j = i
    · rw [hji, update_self] at hj
      exact href b key hj
    · rw [update_of_ne hji] at hj
      exact h.key j b key hj
  · rw [hkeys, hkeys] at hkey
    refine h.unique b c ?_ hkey
    rwa [← show (t.bufs b).dev = (s.bufs b).dev from congrArg Prod.fst (hkeys b)]

/-- The references and their counts stay. -/
theorem BioRefs.same (h : BioRefs s) {i : ι} {use : BufUse} (href : use.ref = (s.users i).ref)
    (husers : t.users = update s.users i use) (hpins : t.pins = s.pins)
    (hkeys : ∀ b, (t.bufs b).key = (s.bufs b).key)
    (hrefcnt : ∀ b, (t.bufs b).refcnt = (s.bufs b).refcnt) : BioRefs t := by
  refine h.change husers hpins hkeys (fun b ↦ ?_) fun b key hb ↦ h.key i b key (href ▸ hb)
  rw [hrefcnt, BufUse.refs, BufUse.refs, href]

/-- No caller changes. -/
theorem BioRefs.of_eq (h : BioRefs s) (i : ι) (husers : t.users = s.users) (hpins : t.pins = s.pins)
    (hkeys : ∀ b, (t.bufs b).key = (s.bufs b).key)
    (hrefcnt : ∀ b, (t.bufs b).refcnt = (s.bufs b).refcnt) : BioRefs t :=
  h.same rfl (husers.trans (update_eq_self i s.users).symm) hpins hkeys hrefcnt

/-- A buffer without references takes a block that no buffer has. -/
theorem BioRefs.recycle (h : BioRefs s) (huser : s.users i = .idle)
    (hcached : ∀ c, (s.bufs c).key ≠ key) (hb : (s.bufs b).refcnt = 0)
    (hbuf : ∀ c, c ≠ b → t.bufs c = s.bufs c) (hkey : (t.bufs b).key = key)
    (hrefcnt : (t.bufs b).refcnt = 1) (husers : t.users = update s.users i (.waiting b key))
    (hpins : t.pins = s.pins) : BioRefs t := by
  refine ⟨fun c ↦ ?_, fun j c k hj ↦ ?_, fun c d hdev hsame ↦ ?_⟩
  · have hsum := sum_update_add (BufUse.refs c) s.users i (.waiting b key)
    have hold := h.refcnt c
    rw [huser, refs_idle] at hsum
    rw [husers, hpins]
    by_cases hc : c = b
    · rw [hc, refs_of_ref (k := key) rfl] at hsum
      rw [hc] at hold ⊢
      omega
    · rw [refs_of_ref_of_ne (k := key) rfl hc] at hsum
      rw [hbuf c hc]
      omega
  · rw [husers] at hj
    by_cases hji : j = i
    · rw [hji, update_self] at hj
      cases hj
      exact hkey
    · rw [update_of_ne hji] at hj
      have hc : c ≠ b := fun hcb ↦ h.ref_ne hb j k (hcb ▸ hj)
      rw [hbuf c hc]
      exact h.key j c k hj
  · by_cases hc : c = b
    · by_cases hd : d = b
      · rw [hc, hd]
      · rw [hc, hkey, hbuf d hd] at hsame
        exact absurd hsame.symm (hcached d)
    · by_cases hd : d = b
      · rw [hd, hkey, hbuf c hc] at hsame
        exact absurd hsame (hcached c)
      · rw [hbuf c hc] at hdev hsame
        rw [hbuf d hd] at hsame
        exact h.unique c d hdev hsame

/-- The end of `brelse`. -/
theorem BioRefs.giveUp (h : BioRefs s) (huser : s.users i = .released b key) (hbufs : t.bufs =
      update s.bufs b { s.bufs b with refcnt := (s.bufs b).refcnt - 1 })
    (husers : t.users = update s.users i .idle) (hpins : t.pins = s.pins) :
    BioRefs t := by
  have href : (s.users i).ref = some (b, key) := congrArg BufUse.ref huser
  refine h.change husers hpins (fun c ↦ ?_) (fun c ↦ ?_) fun c k hc ↦ ?_
  · rw [hbufs]
    exact update_field Buf.key (by rfl) c
  · rw [refs_idle, hbufs]
    by_cases hc : c = b
    · have hpos := h.refcnt_pos href
      rw [hc, refs_of_ref href, update_self]
      dsimp only
      omega
    · rw [refs_of_ref_of_ne href hc, update_of_ne hc]
  · cases hc

theorem bioRefs_step (h : bioStep pid s e = some t) (hring : BioRing s.links order)
    (hpinned : UnpinsPinned s e) (hs : BioRefs s) : BioRefs t := by
  cases bioMove_of_bioStep h with
  | hits _ key b huser hcached =>
    refine hs.change rfl rfl (update_field Buf.key rfl) (fun c ↦ ?_) fun c k hc ↦ ?_
    · rw [huser, refs_idle]
      by_cases hc : c = b
      · rw [hc, refs_of_ref (b := b) (k := key) rfl]
        simp only [Bcache.setBuf, update_self, Nat.add_zero]
      · rw [refs_of_ref_of_ne (b := b) (k := key) rfl hc]
        simp only [Bcache.setBuf, update_of_ne hc]
    · cases hc
      exact hring.cached_some hcached
  | recycles _ key _ huser hcached hunused =>
    refine hs.recycle huser (hring.cached_none hcached) (hring.unused_some hunused)
      (fun c hc ↦ update_of_ne hc _ _) ?_ ?_ rfl rfl
    · simp only [Bcache.setBuf, update_self, Buf.key]
    · simp only [Bcache.setBuf, update_self]
  | runsOut i | waits i | writes i | writePanics i | releasePanics i =>
    exact hs.of_eq i rfl rfl (fun _ ↦ rfl) fun _ ↦ rfl
  | acquires _ _ key huser | loads _ _ key huser | releases _ _ key huser =>
    refine hs.same ?_ rfl rfl (update_field Buf.key rfl) (update_field Buf.refcnt rfl)
    rw [huser]
    rfl
  | hasData _ _ _ huser =>
    refine hs.same ?_ rfl rfl (fun _ ↦ rfl) fun _ ↦ rfl
    rw [huser]
    rfl
  | modifies i _ key =>
    exact hs.of_eq i rfl rfl (update_field Buf.key rfl) (update_field Buf.refcnt rfl)
  | dropsLast _ _ _ huser | drops _ _ _ huser => exact hs.giveUp huser rfl rfl rfl
  | pins _ b =>
    exact hs.repin (b := b) (n := (s.bufs b).refcnt + 1) (m := s.pins b + 1) (by omega) rfl rfl rfl
  | unpins _ b key huser =>
    have hpos := hpinned b key huser
    have hcount := hs.refcnt b
    exact hs.repin (b := b) (n := (s.bufs b).refcnt - 1) (m := s.pins b - 1) (by omega) rfl rfl rfl

end Refs

/-! ### Locks -/

/-- The buffer whose lock a caller has. -/
def BufUse.lockOf : BufUse → Option BufId
  | .locked b _ => some b
  | .held b _ => some b
  | _ => none

def BufUse.locks (b : BufId) (use : BufUse) : ℕ := if use.lockOf = some b then 1 else 0

structure BioLocks (pid : ι → ℕ) (s : Bcache ι) : Prop where
  locked : ∀ b, ∑ i, (s.users i).locks b = (s.bufs b).lock.locked.toNat
  pid : ∀ i b, (s.users i).lockOf = some b → (s.bufs b).lock.pid = pid i
  waiters : Justified
    (fun i b ↦ (∃ key, s.users i = .waiting b key) ∧ (s.bufs b).lock.locked = true) s.chan
  panic : s.panic = none ∨ s.panic = some .noBuffers

section Locks

variable {pid : ι → ℕ} {s t u : Bcache ι} {e : BioEvent ι}

theorem bioLocks_binit (disk : BlockId → Block) : BioLocks pid (binit disk : Bcache ι) := by
  refine ⟨fun b ↦ ?_, fun i b h ↦ ?_, fun i b h ↦ ?_, .inl rfl⟩
  · simp [binit, BufUse.locks, BufUse.lockOf]
  · cases h
  · cases h

theorem BioLocks.locked_of_lockOf (h : BioLocks pid s) (hi : (s.users i).lockOf = some b) :
    (s.bufs b).lock.locked = true := by
  have hle := le_sum (fun j ↦ (s.users j).locks b) i
  have hone : (s.users i).locks b = 1 := if_pos hi
  have hcount := h.locked b
  cases hlocked : (s.bufs b).lock.locked with
  | true => rfl
  | false =>
    rw [hlocked, Bool.toNat_false] at hcount
    omega

theorem BioLocks.holdingsleep (h : BioLocks pid s) {i : ι} {b : BufId}
    (hi : (s.users i).lockOf = some b) : holdingsleep (s.bufs b).lock (pid i) = true := by
  rw [Xv6.holdingsleep, h.locked_of_lockOf hi, h.pid i b hi]
  simp

/-- No caller and no lock changes. -/
theorem BioLocks.of_eq (h : BioLocks pid s) (husers : t.users = s.users)
    (hlocks : ∀ b, (t.bufs b).lock = (s.bufs b).lock) (hchan : t.chan = s.chan)
    (hpanic : t.panic = none ∨ t.panic = some .noBuffers) : BioLocks pid t := by
  refine ⟨fun b ↦ ?_, fun j b hj ↦ ?_, ?_, hpanic⟩
  · rw [husers, hlocks]
    exact h.locked b
  · rw [hlocks]
    exact h.pid j b (husers ▸ hj)
  · rw [hchan, husers]
    exact h.waiters.mono fun j b ⟨hkey, hlocked⟩ ↦ ⟨hkey, (hlocks b).symm ▸ hlocked⟩

variable [DecidableEq ι] {lock : SleepLock}

/-- One caller has the lock. -/
theorem BioLocks.alone (h : BioLocks pid s) {i j : ι} {b : BufId} (hi : (s.users i).lockOf = some b)
    (hj : (s.users j).lockOf = some b) : i = j := by
  by_contra hij
  have hcount := h.locked b
  have hsum := sum_update_add (BufUse.locks b) s.users i .idle
  have hle := le_sum (fun k ↦ (update s.users i .idle k).locks b) j
  have hfirst : (s.users i).locks b = 1 := if_pos hi
  have hsecond : (s.users j).locks b = 1 := if_pos hj
  have hidle : BufUse.idle.locks b = 0 := rfl
  have hbit := Bool.toNat_le (s.bufs b).lock.locked
  rw [update_of_ne (Ne.symm hij)] at hle
  omega

/-- A caller goes on with the lock it has or without one. -/
theorem BioLocks.same (h : BioLocks pid s) {i : ι} {use : BufUse}
    (husers : t.users = update s.users i use) (hsame : use.lockOf = (s.users i).lockOf)
    (hlocks : ∀ b, (t.bufs b).lock = (s.bufs b).lock) (hchan : t.chan = s.chan)
    (hwaiting : ∀ b key, s.users i ≠ .waiting b key)
    (hpanic : t.panic = s.panic) : BioLocks pid t := by
  refine ⟨fun b ↦ ?_, fun j b hj ↦ ?_, ?_, ?_⟩
  · have hsum := sum_update_add (BufUse.locks b) s.users i use
    have hold := h.locked b
    have huse : use.locks b = (s.users i).locks b := by rw [BufUse.locks, BufUse.locks, hsame]
    rw [husers, hlocks]
    omega
  · rw [hlocks]
    rw [husers] at hj
    by_cases hji : j = i
    · rw [hji, update_self, hsame] at hj
      rw [hji]
      exact h.pid i b hj
    · rw [update_of_ne hji] at hj
      exact h.pid j b hj
  · rw [hchan]
    refine h.waiters.mono fun j b ⟨⟨key, hkey⟩, hlocked⟩ ↦ ⟨⟨key, ?_⟩, ?_⟩
    · have hji : j ≠ i := fun hji ↦ hwaiting b key (hji ▸ hkey)
      rw [husers, update_of_ne hji, hkey]
    · rw [hlocks, hlocked]
  · rw [hpanic]
    exact h.panic

/-- A caller takes a lock or gives it up. -/
theorem BioLocks.relock (h : BioLocks pid s) (husers : t.users = update s.users i use)
    (hbufs : t.bufs = update s.bufs b { s.bufs b with lock := lock })
    (hcount : ∀ c, c ≠ b → use.locks c = (s.users i).locks c)
    (hlock : lock.locked.toNat + (s.users i).locks b =
      (s.bufs b).lock.locked.toNat + use.locks b)
    (huse : ∀ c, use.lockOf = some c → c = b ∧ lock.pid = pid i)
    (hothers : ∀ j, j ≠ i → (s.users j).lockOf ≠ some b) (hwaiters : Justified
      (fun i b ↦ (∃ key, t.users i = .waiting b key) ∧ (t.bufs b).lock.locked = true) t.chan)
    (hpanic : t.panic = s.panic) : BioLocks pid t := by
  refine ⟨fun c ↦ ?_, fun j c hj ↦ ?_, hwaiters, hpanic ▸ h.panic⟩
  · have hsum := sum_update_add (BufUse.locks c) s.users i use
    have hold := h.locked c
    rw [husers, hbufs]
    by_cases hc : c = b
    · rw [hc] at hsum hold ⊢
      rw [update_self]
      dsimp only
      omega
    · have hsame := hcount c hc
      rw [update_of_ne hc]
      omega
  · rw [husers] at hj
    rw [hbufs]
    by_cases hji : j = i
    · rw [hji, update_self] at hj
      obtain ⟨hc, hpid⟩ := huse c hj
      rwa [hc, update_self, hji]
    · rw [update_of_ne hji] at hj
      have hc : c ≠ b := fun hc ↦ hothers j hji (hc ▸ hj)
      rw [update_of_ne hc]
      exact h.pid j c hj

theorem BioLocks.acquire (h : BioLocks pid s) {key : BlockId} (huser : s.users i = .waiting b key)
    (hlocked : (s.bufs b).lock.locked = false) (husers : t.users = update s.users i (.locked b key))
    (hbufs : t.bufs = update s.bufs b { s.bufs b with lock := ⟨true, pid i⟩ })
    (hchan : t.chan = unregister i s.chan) (hpanic : t.panic = s.panic) : BioLocks pid t := by
  have hbefore : ∀ c, (s.users i).locks c = 0 := fun c ↦ by rw [huser]; rfl
  refine h.relock husers hbufs (fun c hc ↦ ?_) ?_ (fun c hc ↦ ?_) (fun j _ hj ↦ ?_) ?_ hpanic
  · rw [hbefore]
    exact if_neg fun heq ↦ hc (Option.some.inj heq).symm
  · have hafter : (BufUse.locked b key).locks b = 1 := if_pos rfl
    rw [hbefore, hlocked, hafter]
    rfl
  · exact ⟨(Option.some.inj hc).symm, rfl⟩
  · rw [h.locked_of_lockOf hj] at hlocked
    cases hlocked
  · rw [hchan]
    refine h.waiters.unregister fun j c hji ⟨⟨k, hk⟩, hc⟩ ↦ ⟨⟨k, ?_⟩, ?_⟩
    · rw [husers, update_of_ne hji, hk]
    · have hcb : c ≠ b := by
        rintro rfl
        cases hc.symm.trans hlocked
      rw [hbufs, update_of_ne hcb, hc]

theorem BioLocks.release (h : BioLocks pid s) {key : BlockId} (huser : s.users i = .held b key)
    (husers : t.users = update s.users i (.released b key))
    (hbufs : t.bufs = update s.bufs b { s.bufs b with lock := ⟨false, 0⟩ })
    (hchan : t.chan = wake b s.chan) (hpanic : t.panic = s.panic) : BioLocks pid t := by
  have hlock : (s.users i).lockOf = some b := congrArg BufUse.lockOf huser
  refine h.relock husers hbufs (fun c hc ↦ ?_) ?_ (fun c hc ↦ ?_) (fun j hji hj ↦ ?_) ?_ hpanic
  · rw [BufUse.locks, BufUse.locks, hlock]
    exact (if_neg (by simp [BufUse.lockOf])).trans
      (if_neg fun heq ↦ hc (Option.some.inj heq).symm).symm
  · have hbefore : (s.users i).locks b = 1 := if_pos hlock
    rw [hbefore, h.locked_of_lockOf hlock]
    rfl
  · cases hc
  · exact hji (h.alone hj hlock)
  · rw [hchan]
    refine h.waiters.wake fun j c hc ⟨⟨k, hk⟩, hlocked⟩ ↦ ⟨⟨k, ?_⟩, ?_⟩
    · have hji : j ≠ i := by
        rintro rfl
        cases huser.symm.trans hk
      rw [husers, update_of_ne hji, hk]
    · rw [hbufs, update_of_ne hc, hlocked]

theorem bioLocks_step (h : bioStep pid s e = some t) (hs : BioLocks pid s) : BioLocks pid t := by
  cases bioMove_of_bioStep h with
  | hits _ _ _ huser | recycles _ _ _ huser | loads _ _ _ huser | dropsLast _ _ _ huser
  | drops _ _ _ huser =>
    refine hs.same rfl ?_ (update_field Buf.lock rfl) rfl ?_ rfl
    · rw [huser]
      rfl
    · simp [huser]
  | runsOut => exact hs.of_eq rfl (fun _ ↦ rfl) rfl (.inr rfl)
  | waits _ _ key huser hlocked =>
    exact ⟨hs.locked, hs.pid, hs.waiters.register ⟨⟨key, huser⟩, hlocked⟩ fun _ _ _ hd ↦ hd,
      hs.panic⟩
  | acquires _ _ _ huser hlocked => exact hs.acquire huser hlocked rfl rfl rfl rfl
  | hasData _ _ _ huser =>
    refine hs.same rfl ?_ (fun _ ↦ rfl) rfl ?_ rfl
    · rw [huser]
      rfl
    · simp [huser]
  | modifies | pins | unpins => exact hs.of_eq rfl (update_field Buf.lock rfl) rfl hs.panic
  | writes => exact hs.of_eq rfl (fun _ ↦ rfl) rfl hs.panic
  | releases _ _ _ huser => exact hs.release huser rfl rfl rfl rfl
  | writePanics i b _ huser hholding | releasePanics i b _ huser hholding =>
    have hlock : (s.users i).lockOf = some b := congrArg BufUse.lockOf huser
    rw [hs.holdingsleep hlock] at hholding
    cases hholding

end Locks

/-! ### Whole runs -/

section Runs

variable [DecidableEq ι] {pid : ι → ℕ} {s t u : Bcache ι} {disk : BlockId → Block}
  {l : List (Transition (Bcache ι) (BioEvent ι))}

theorem bioLocks_path (h : Path (bioStep pid) (binit disk) l u) : BioLocks pid u :=
  h.preserves (fun _ _ _ ↦ bioLocks_step) (bioLocks_binit disk)

theorem bioRefs_path (h : Path (bioStep pid) (binit disk) l u)
    (hpinned : ∀ tr ∈ l, UnpinsPinned tr.source tr.event) : BioRefs u := by
  refine (h.preserves_of (I := fun s ↦ (∃ order, BioRing s.links order) ∧ BioRefs s)
    (Q := UnpinsPinned) (fun s e t hstep hQ ⟨⟨order, hring⟩, hrefs⟩ ↦ ?_) hpinned
    ⟨⟨_, bioRing_binit disk⟩, bioRefs_binit disk⟩).2
  exact ⟨⟨_, bioRing_step hstep hring fun i b key huser ↦
    hrefs.refcnt_pos (congrArg BufUse.ref huser)⟩, bioRefs_step hstep hring hQ hrefs⟩

theorem bioRing_path (h : Path (bioStep pid) (binit disk) l u)
    (hpinned : ∀ tr ∈ l, UnpinsPinned tr.source tr.event) : BioRing u.links (recency l) := by
  refine h.history_rule (J := fun l u ↦ (∀ tr ∈ l, UnpinsPinned tr.source tr.event) →
    BioRing u.links (recency l)) (fun _ ↦ bioRing_binit disk) ?_ hpinned
  intro l t e t' hpath hstep hring hpinned
  have hbefore : ∀ tr ∈ l, UnpinsPinned tr.source tr.event :=
    fun tr htr ↦ hpinned tr (List.mem_append_left _ htr)
  rw [recency, List.foldl_append]
  exact bioRing_step hstep (hring hbefore) fun i b key huser ↦
    (bioRefs_path hpath hbefore).refcnt_pos (congrArg BufUse.ref huser)

/-- The ring is the list of all buffers, most recently given up first, and `bget` takes the first
buffer of the list that has the block, or else the last one that nobody uses. -/
theorem bcache_lru (h : Path (bioStep pid) (binit disk) l u)
    (hpinned : ∀ tr ∈ l, UnpinsPinned tr.source tr.event) :
    (recency l).Perm (List.finRange nbuf) ∧
      (∀ key, u.cached key = (recency l).find?
        (fun b ↦ (u.bufs b).dev == key.1 && (u.bufs b).blockno == key.2)) ∧
      u.unused = (recency l).reverse.find? (fun b ↦ (u.bufs b).refcnt == 0) := by
  have hring := bioRing_path h hpinned
  exact ⟨hring.perm, hring.cached_eq, hring.unused_eq⟩

/-- One caller at a time has the lock of a block's buffer, no block has two buffers, and the only
panic is that of `bget`. -/
theorem bread_exclusive (h : Path (bioStep pid) (binit disk) l u)
    (hpinned : ∀ tr ∈ l, UnpinsPinned tr.source tr.event) :
    (∀ i j b c key, key.1 ≠ 0 → u.users i = .held b key → u.users j = .held c key → i = j) ∧
      (∀ i b key, u.users i = .held b key → (u.bufs b).key = key) ∧
      (∀ b c, (u.bufs b).dev ≠ 0 → (u.bufs b).key = (u.bufs c).key → b = c) ∧
      (u.panic = none ∨ u.panic = some .noBuffers) := by
  have hrefs := bioRefs_path h hpinned
  have hlocks := bioLocks_path h
  refine ⟨fun i j b c key hdev hi hj ↦ ?_, fun i b key hi ↦ ?_, hrefs.unique, hlocks.panic⟩
  · have hbc : b = c :=
      hrefs.same_buffer (congrArg BufUse.ref hi) (congrArg BufUse.ref hj) hdev
    have hjb : (u.users j).lockOf = some b := (congrArg BufUse.lockOf hj).trans (hbc ▸ rfl)
    exact hlocks.alone (congrArg BufUse.lockOf hi) hjb
  · exact hrefs.key i b key (congrArg BufUse.ref hi)

/-- Whoever sleeps on the lock of a buffer waits for another caller that has it. -/
theorem acquiresleep_waiters {b : BufId} (h : Path (bioStep pid) (binit disk) l u)
    (hchan : u.chan i = some b) :
    (∃ key, u.users i = .waiting b key) ∧ ∃ j, j ≠ i ∧ (u.users j).lockOf = some b := by
  have hlocks := bioLocks_path h
  obtain ⟨⟨key, hi⟩, hlocked⟩ := hlocks.waiters i b hchan
  refine ⟨⟨key, hi⟩, ?_⟩
  have hcount := hlocks.locked b
  rw [hlocked, Bool.toNat_true] at hcount
  obtain ⟨j, hj⟩ := exists_pos_of_sum_pos (hcount ▸ Nat.one_pos)
  have hlock : (u.users j).lockOf = some b := by
    by_contra hne
    rw [BufUse.locks, if_neg hne] at hj
    exact absurd hj (lt_irrefl 0)
  refine ⟨j, ?_, hlock⟩
  rintro rfl
  rw [hi] at hlock
  cases hlock

theorem sum_refs (use : BufUse) : ∑ b, use.refs b = if use = .idle then 0 else 1 := by
  cases use with
  | idle => simp [refs_idle]
  | _ => simp [BufUse.refs, BufUse.ref]

/-- `bget` finds a buffer as long as fewer than `NBUF` references are out. -/
theorem bget_runsOut {key : BlockId} (h : Path (bioStep pid) (binit disk) l u)
    (hpinned : ∀ tr ∈ l, UnpinsPinned tr.source tr.event)
    (hstep : bioStep pid u (.bget i key) = some t) (hpanic : t.panic ≠ none) :
    nbuf ≤ ∑ i, (if u.users i = .idle then 0 else 1) + ∑ b, u.pins b := by
  have hrefs := bioRefs_path h hpinned
  have hring := bioRing_path h hpinned
  have hquiet : u.panic = none := by
    by_contra hne
    rw [bioStep, if_pos hne] at hstep
    cases hstep
  have hused : ∀ b, 1 ≤ (u.bufs b).refcnt := by
    cases bioMove_of_bioStep hstep with
    | hits | recycles => exact absurd hquiet hpanic
    | runsOut _ _ _ _ hunused =>
      exact fun b ↦ Nat.pos_of_ne_zero (hring.unused_none hunused b)
  calc nbuf = ∑ _b : BufId, 1 := by simp
    _ ≤ ∑ b, (u.bufs b).refcnt := Finset.sum_le_sum fun b _ ↦ hused b
    _ = ∑ b, (∑ i, (u.users i).refs b + u.pins b) :=
        Finset.sum_congr rfl fun b _ ↦ hrefs.refcnt b
    _ = ∑ i, ∑ b, (u.users i).refs b + ∑ b, u.pins b := by
        rw [Finset.sum_add_distrib, Finset.sum_comm]
    _ = ∑ i, (if u.users i = .idle then 0 else 1) + ∑ b, u.pins b := by
        simp only [sum_refs]

omit [Fintype ι] in
theorem bioStep_bget (hpanic : s.panic = none) (huser : s.users i = .idle) :
    bioStep pid s (.bget i k) = some (bget i k s) := by
  simp [bioStep, hpanic, huser]

omit [Fintype ι] in
theorem unpinsPinned_replay {events : List (BioEvent ι)} (h : ∀ e ∈ events, ∀ i, e ≠ .bunpin i) :
    ∀ tr ∈ (replay (bioStep pid) s events).1, UnpinsPinned tr.source tr.event := by
  intro tr htr
  have hmem := event_mem_of_replay htr
  cases he : tr.event with
  | bunpin i => exact absurd he (h _ hmem i)
  | _ => trivial

/-- A caller reads a block and gives it up again. -/
def usedBlock : List (Transition (Bcache Worker) (BioEvent Worker)) × Bcache Worker :=
  replay (bioStep fun _ ↦ 1) (binit fun _ ↦ blankDisk 0)
    [.bget (false, false) (1, 5), .acquire (false, false), .bread (false, false),
      .brelse (false, false), .drop (false, false)]

theorem bcache_lru_usedBlock :
    (recency usedBlock.1).Perm (List.finRange nbuf) ∧
      (∀ key, usedBlock.2.cached key = (recency usedBlock.1).find?
        (fun b ↦ (usedBlock.2.bufs b).dev == key.1 && (usedBlock.2.bufs b).blockno == key.2)) ∧
      usedBlock.2.unused =
        (recency usedBlock.1).reverse.find? (fun b ↦ (usedBlock.2.bufs b).refcnt == 0) :=
  bcache_lru (path_replay _ _) (unpinsPinned_replay (by simp))

/-- Two callers want one block; the second sleeps until the first gives it up. -/
def sharedBlock : List (Transition (Bcache Worker) (BioEvent Worker)) × Bcache Worker :=
  replay (bioStep fun i ↦ if i.2 then 2 else 1) (binit fun _ ↦ blankDisk 0)
    [.bget (false, false) (1, 5), .acquire (false, false), .bread (false, false),
      .bget (false, true) (1, 5), .acquire (false, true)]

theorem acquiresleep_waiters_sharedBlock : ∃ b, sharedBlock.2.chan (false, true) = some b ∧
    (∃ key, sharedBlock.2.users (false, true) = .waiting b key) ∧
      ∃ j, j ≠ (false, true) ∧ (sharedBlock.2.users j).lockOf = some b := by
  have hchan : (sharedBlock.2.chan (false, true)).isSome = true := by decide
  obtain ⟨b, hb⟩ := Option.isSome_iff_exists.mp hchan
  exact ⟨b, hb, acquiresleep_waiters (path_replay _ _) hb⟩

theorem bread_exclusive_sharedBlock :
    (∀ i j b c key, key.1 ≠ 0 → sharedBlock.2.users i = .held b key →
        sharedBlock.2.users j = .held c key → i = j) ∧
      (∀ i b key, sharedBlock.2.users i = .held b key → (sharedBlock.2.bufs b).key = key) ∧
      (∀ b c, (sharedBlock.2.bufs b).dev ≠ 0 →
        (sharedBlock.2.bufs b).key = (sharedBlock.2.bufs c).key → b = c) ∧
      (sharedBlock.2.panic = none ∨ sharedBlock.2.panic = some .noBuffers) :=
  bread_exclusive (path_replay _ _) (unpinsPinned_replay (by simp))

/-- Every buffer is wanted for another block. -/
def fullCache : List (Transition (Bcache (Fin (nbuf + 1))) (BioEvent (Fin (nbuf + 1)))) ×
    Bcache (Fin (nbuf + 1)) :=
  replay (bioStep Fin.val) (binit fun _ ↦ blankDisk 0)
    ((List.finRange nbuf).map fun i ↦ .bget i.castSucc (1, i.val))

theorem bget_runsOut_fullCache :
    (bget (Fin.last nbuf) (1, nbuf) fullCache.2).panic = some .noBuffers ∧
      nbuf ≤ ∑ i, (if fullCache.2.users i = .idle then 0 else 1) + ∑ b, fullCache.2.pins b :=
  ⟨by decide +kernel, bget_runsOut (path_replay _ _) (unpinsPinned_replay (by simp))
    (bioStep_bget (i := Fin.last nbuf) (k := (1, nbuf)) (by decide +kernel) (by decide +kernel))
    (by decide +kernel)⟩

end Runs

end Irish.Xv6
