import Irish.Library.Counts
import Irish.Library.LinkedRing
import Irish.Xv6.Log

/-!
# The buffer cache

`kernel/bio.c` and the sleep-locks of its buffers. The buffers hang in a ring in the order of their
last use; `bget` searches it twice, and `brelse` moves a buffer whose last reference is gone behind
the head. What a caller does with one buffer, from `bread` to the end of `brelse`, is one element of
`ι`, so a process that has two buffers at a time counts twice; `pid` gives its process. Each section
under `bcache.lock` or under the spinlock of a sleep-lock is one event, and so is each transfer
between a buffer and the disk, for which the buffer is locked.

`pins` and `dirty` are not in the source. They say how often a buffer has been pinned and not yet
unpinned, and whether its data was changed since it was last read or written. The field `disk` of a
buffer, which only the driver uses, is left out. A reference count is a natural number: it is taken
to stay below `2 ^ 32`.
-/

set_option autoImplicit false

namespace Irish.Xv6

open Library
open Function (update update_self)

/-- `NBUF`. -/
def nbuf : ℕ := maxOpBlocks * 3

abbrev BufId : Type := Fin nbuf

/-- A device and a number of a block on it. -/
abbrev BlockId : Type := ℕ × ℕ

structure SleepLock where
  locked : Bool
  pid : ℕ
deriving DecidableEq, Repr

structure Buf where
  valid : Bool
  dev : ℕ
  blockno : ℕ
  lock : SleepLock
  refcnt : ℕ
  data : Block

def Buf.key (b : Buf) : BlockId := (b.dev, b.blockno)

/-- What a caller is doing with a buffer, and for which block. -/
inductive BufUse
  | idle
  /-- in `acquiresleep`, called by `bget` -/
  | waiting (b : BufId) (key : BlockId)
  /-- in `bread`, with the lock -/
  | locked (b : BufId) (key : BlockId)
  /-- after `bread` -/
  | held (b : BufId) (key : BlockId)
  /-- in `brelse`, after `releasesleep` -/
  | released (b : BufId) (key : BlockId)
deriving DecidableEq, Repr

inductive BioPanic
  | noBuffers
  | bwrite
  | brelse
deriving DecidableEq, Repr

/-- `struct bcache` and the disk, with the callers. -/
structure Bcache (ι : Type*) where
  bufs : BufId → Buf
  links : Links BufId
  disk : BlockId → Block
  users : ι → BufUse
  chan : ι → Option BufId
  pins : BufId → ℕ
  dirty : BufId → Bool
  panic : Option BioPanic

inductive BioEvent (ι : Type*)
  | bget (i : ι) (key : BlockId)
  | acquire (i : ι)
  | bread (i : ι)
  | modify (i : ι) (data : Block)
  | bwrite (i : ι)
  | brelse (i : ι)
  | drop (i : ι)
  | bpin (i : ι)
  | bunpin (i : ι)

variable {ι : Type*}

/-- `binit`, over memory that is zero. -/
def binit (disk : BlockId → Block) : Bcache ι :=
  { bufs := fun _ ↦
      { valid := false, dev := 0, blockno := 0, lock := ⟨false, 0⟩, refcnt := 0, data := fun _ ↦ 0 }
    links := (List.finRange nbuf).foldl (fun links b ↦ links.pushFront b) Links.empty
    disk := disk, users := fun _ ↦ .idle, chan := fun _ ↦ none, pins := fun _ ↦ 0,
    dirty := fun _ ↦ false, panic := none }

/-- A change of one buffer. -/
def Bcache.setBuf (s : Bcache ι) (b : BufId) (buf : Buf) : Bcache ι :=
  { s with bufs := update s.bufs b buf }

/-- The first search of `bget`, for a buffer that has the block. -/
def Bcache.cached (s : Bcache ι) (key : BlockId) : Option BufId :=
  scan s.links.next (fun b ↦ (s.bufs b).dev == key.1 && (s.bufs b).blockno == key.2) (nbuf + 1)
    (s.links.next none)

/-- Its second search, for a buffer that nobody uses. -/
def Bcache.unused (s : Bcache ι) : Option BufId :=
  scan s.links.prev (fun b ↦ (s.bufs b).refcnt == 0) (nbuf + 1) (s.links.prev none)

/-- `holdingsleep`. -/
def holdingsleep (lock : SleepLock) (pid : ℕ) : Bool := lock.locked && lock.pid == pid

section Functions

variable [DecidableEq ι] {pid : ι → ℕ} {s t : Bcache ι} {e : BioEvent ι}

/-- `bget` up to `acquiresleep`. -/
def bget (i : ι) (key : BlockId) (s : Bcache ι) : Bcache ι :=
  match s.cached key with
  | some b =>
    { s.setBuf b { s.bufs b with refcnt := (s.bufs b).refcnt + 1 } with
      users := update s.users i (.waiting b key) }
  | none =>
    match s.unused with
    | some b =>
      { s.setBuf b
          { s.bufs b with dev := key.1, blockno := key.2, valid := false, refcnt := 1 } with
        users := update s.users i (.waiting b key) }
    | none => { s with panic := some .noBuffers }

/-- One turn of the loop of `acquiresleep`, or its end. -/
def acquiresleep (pid : ι → ℕ) (i : ι) (b : BufId) (key : BlockId) (s : Bcache ι) : Bcache ι :=
  if (s.bufs b).lock.locked then { s with chan := register i b s.chan }
  else
    { s.setBuf b { s.bufs b with lock := ⟨true, pid i⟩ } with
      users := update s.users i (.locked b key), chan := unregister i s.chan }

/-- `bread` after `bget`. -/
def bread (i : ι) (b : BufId) (key : BlockId) (s : Bcache ι) : Bcache ι :=
  let s := { s with users := update s.users i (.held b key) }
  if (s.bufs b).valid then s
  else s.setBuf b { s.bufs b with data := s.disk (s.bufs b).key, valid := true }

/-- The caller writes to the data of its buffer. -/
def modifyData (b : BufId) (data : Block) (s : Bcache ι) : Bcache ι :=
  { s.setBuf b { s.bufs b with data := data } with dirty := update s.dirty b true }

def bwrite (pid : ι → ℕ) (i : ι) (b : BufId) (s : Bcache ι) : Bcache ι :=
  if holdingsleep (s.bufs b).lock (pid i) then
    { s with disk := update s.disk (s.bufs b).key (s.bufs b).data,
             dirty := update s.dirty b false }
  else { s with panic := some .bwrite }

/-- `brelse` up to the end of `releasesleep`. -/
def brelse (pid : ι → ℕ) (i : ι) (b : BufId) (key : BlockId) (s : Bcache ι) : Bcache ι :=
  if holdingsleep (s.bufs b).lock (pid i) then
    { s.setBuf b { s.bufs b with lock := ⟨false, 0⟩ } with
      users := update s.users i (.released b key), chan := wake b s.chan }
  else { s with panic := some .brelse }

/-- The rest of `brelse`, under `bcache.lock`. -/
def brelseDrop (i : ι) (b : BufId) (s : Bcache ι) : Bcache ι :=
  let s := { s.setBuf b { s.bufs b with refcnt := (s.bufs b).refcnt - 1 } with
             users := update s.users i .idle }
  if (s.bufs b).refcnt = 0 then { s with links := (s.links.unlink b).pushFront b } else s

def bpin (b : BufId) (s : Bcache ι) : Bcache ι :=
  { s.setBuf b { s.bufs b with refcnt := (s.bufs b).refcnt + 1 } with
    pins := update s.pins b (s.pins b + 1) }

def bunpin (b : BufId) (s : Bcache ι) : Bcache ι :=
  { s.setBuf b { s.bufs b with refcnt := (s.bufs b).refcnt - 1 } with
    pins := update s.pins b (s.pins b - 1) }

/-- What a caller can do next. -/
def bioStep (pid : ι → ℕ) (s : Bcache ι) (e : BioEvent ι) : Option (Bcache ι) :=
  if s.panic ≠ none then none
  else
    match e with
    | .bget i key =>
      match s.users i with
      | .idle => some (bget i key s)
      | _ => none
    | .acquire i =>
      match s.users i with
      | .waiting b key => some (acquiresleep pid i b key s)
      | _ => none
    | .bread i =>
      match s.users i with
      | .locked b key => some (bread i b key s)
      | _ => none
    | .modify i data =>
      match s.users i with
      | .held b _ => some (modifyData b data s)
      | _ => none
    | .bwrite i =>
      match s.users i with
      | .held b _ => some (bwrite pid i b s)
      | _ => none
    | .brelse i =>
      match s.users i with
      | .held b key => some (brelse pid i b key s)
      | _ => none
    | .drop i =>
      match s.users i with
      | .released b _ => some (brelseDrop i b s)
      | _ => none
    | .bpin i =>
      match s.users i with
      | .held b _ => some (bpin b s)
      | _ => none
    | .bunpin i =>
      match s.users i with
      | .held b _ => some (bunpin b s)
      | _ => none

/-! ### What a step can do -/

/-- The steps of the callers, with the states they need. -/
inductive BioMove (pid : ι → ℕ) (s : Bcache ι) : BioEvent ι → Bcache ι → Prop
  | hits (i : ι) (key : BlockId) (b : BufId) (huser : s.users i = .idle)
      (hcached : s.cached key = some b) :
    BioMove pid s (.bget i key)
      { s.setBuf b { s.bufs b with refcnt := (s.bufs b).refcnt + 1 } with
        users := update s.users i (.waiting b key) }
  | recycles (i : ι) (key : BlockId) (b : BufId) (huser : s.users i = .idle)
      (hcached : s.cached key = none) (hunused : s.unused = some b) :
    BioMove pid s (.bget i key)
      { s.setBuf b
          { s.bufs b with dev := key.1, blockno := key.2, valid := false, refcnt := 1 } with
        users := update s.users i (.waiting b key) }
  | runsOut (i : ι) (key : BlockId) (huser : s.users i = .idle) (hcached : s.cached key = none)
      (hunused : s.unused = none) :
    BioMove pid s (.bget i key) { s with panic := some .noBuffers }
  | waits (i : ι) (b : BufId) (key : BlockId) (huser : s.users i = .waiting b key)
      (hlocked : (s.bufs b).lock.locked = true) :
    BioMove pid s (.acquire i) { s with chan := register i b s.chan }
  | acquires (i : ι) (b : BufId) (key : BlockId) (huser : s.users i = .waiting b key)
      (hlocked : (s.bufs b).lock.locked = false) :
    BioMove pid s (.acquire i)
      { s.setBuf b { s.bufs b with lock := ⟨true, pid i⟩ } with
        users := update s.users i (.locked b key), chan := unregister i s.chan }
  | hasData (i : ι) (b : BufId) (key : BlockId) (huser : s.users i = .locked b key)
      (hvalid : (s.bufs b).valid = true) :
    BioMove pid s (.bread i) { s with users := update s.users i (.held b key) }
  | loads (i : ι) (b : BufId) (key : BlockId) (huser : s.users i = .locked b key)
      (hvalid : (s.bufs b).valid = false) :
    BioMove pid s (.bread i)
      { s.setBuf b { s.bufs b with data := s.disk (s.bufs b).key, valid := true } with
        users := update s.users i (.held b key) }
  | modifies (i : ι) (b : BufId) (key : BlockId) (data : Block)
      (huser : s.users i = .held b key) :
    BioMove pid s (.modify i data)
      { s.setBuf b { s.bufs b with data := data } with dirty := update s.dirty b true }
  | writes (i : ι) (b : BufId) (key : BlockId) (huser : s.users i = .held b key)
      (hholding : holdingsleep (s.bufs b).lock (pid i) = true) :
    BioMove pid s (.bwrite i)
      { s with disk := update s.disk (s.bufs b).key (s.bufs b).data,
               dirty := update s.dirty b false }
  | releases (i : ι) (b : BufId) (key : BlockId) (huser : s.users i = .held b key)
      (hholding : holdingsleep (s.bufs b).lock (pid i) = true) :
    BioMove pid s (.brelse i)
      { s.setBuf b { s.bufs b with lock := ⟨false, 0⟩ } with
        users := update s.users i (.released b key), chan := wake b s.chan }
  | writePanics (i : ι) (b : BufId) (key : BlockId) (huser : s.users i = .held b key)
      (hholding : holdingsleep (s.bufs b).lock (pid i) = false) :
    BioMove pid s (.bwrite i) { s with panic := some .bwrite }
  | releasePanics (i : ι) (b : BufId) (key : BlockId) (huser : s.users i = .held b key)
      (hholding : holdingsleep (s.bufs b).lock (pid i) = false) :
    BioMove pid s (.brelse i) { s with panic := some .brelse }
  | dropsLast (i : ι) (b : BufId) (key : BlockId) (huser : s.users i = .released b key)
      (hlast : (s.bufs b).refcnt - 1 = 0) :
    BioMove pid s (.drop i)
      { s.setBuf b { s.bufs b with refcnt := (s.bufs b).refcnt - 1 } with
        users := update s.users i .idle, links := (s.links.unlink b).pushFront b }
  | drops (i : ι) (b : BufId) (key : BlockId) (huser : s.users i = .released b key)
      (hlast : (s.bufs b).refcnt - 1 ≠ 0) :
    BioMove pid s (.drop i)
      { s.setBuf b { s.bufs b with refcnt := (s.bufs b).refcnt - 1 } with
        users := update s.users i .idle }
  | pins (i : ι) (b : BufId) (key : BlockId) (huser : s.users i = .held b key) :
    BioMove pid s (.bpin i) (bpin b s)
  | unpins (i : ι) (b : BufId) (key : BlockId) (huser : s.users i = .held b key) :
    BioMove pid s (.bunpin i) (bunpin b s)

theorem bioMove_of_bioStep (h : bioStep pid s e = some t) : BioMove pid s e t := by
  unfold bioStep at h
  split at h
  · cases h
  -- One goal for each event, with the state of its caller.
  split at h <;> split at h <;> cases h
  · rename_i i key _ huser
    unfold bget
    cases hcached : s.cached key with
    | some b => exact .hits i key b huser hcached
    | none =>
      cases hunused : s.unused with
      | some b => exact .recycles i key b huser hcached hunused
      | none => exact .runsOut i key huser hcached hunused
  · rename_i i _ b key huser
    unfold acquiresleep
    split_ifs with hlocked
    · exact .waits i b key huser hlocked
    · exact .acquires i b key huser (Bool.eq_false_iff.mpr hlocked)
  · rename_i i _ b key huser
    unfold bread
    dsimp only
    split_ifs with hvalid
    · exact .hasData i b key huser hvalid
    · exact .loads i b key huser (Bool.eq_false_iff.mpr hvalid)
  · rename_i i data _ b key huser
    exact .modifies i b key data huser
  · rename_i i _ b key huser
    unfold bwrite
    split_ifs with hholding
    · exact .writes i b key huser hholding
    · exact .writePanics i b key huser (Bool.eq_false_iff.mpr hholding)
  · rename_i i _ b key huser
    unfold brelse
    split_ifs with hholding
    · exact .releases i b key huser hholding
    · exact .releasePanics i b key huser (Bool.eq_false_iff.mpr hholding)
  · rename_i i _ b key huser
    simp only [brelseDrop, Bcache.setBuf, update_self]
    split_ifs with hlast
    · exact .dropsLast i b key huser hlast
    · exact .drops i b key huser hlast
  · rename_i i _ b key huser
    exact .pins i b key huser
  · rename_i i _ b key huser
    exact .unpins i b key huser

end Functions

end Irish.Xv6
