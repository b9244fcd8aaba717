import Irish.Library.RingBuffer
import Irish.Library.Run
import Irish.Library.Waiters

/-!
# The disk driver

`kernel/virtio_disk.c` and the device behind it. A request is a chain of three descriptors. The
driver puts the first of them into the ring `avail`; the device fetches it from there, follows the
chain, transfers the block, writes the status, and puts the same number into the ring `used`, from
which the interrupt handler takes it. The device works at its own pace and in any order.

A buffer is an element of `ι`, and stands for the caller that has it locked: `virtio_disk_rw` is
never called twice at a time for one buffer. Every section under `vdisk_lock` is one event, except
that the loop of the interrupt handler is cut into its turns, between which the device may work on.
The index that the device keeps for `avail` is the counter `nread` of that ring, and `disk.used_idx`
the one of `used`. The fences are left out: memory is sequentially consistent here. The device may
report an error, with anything left in the block that it was to transfer. What it does with a
malformed chain is unknown, and the model says `fault` instead.
-/

set_option autoImplicit false

namespace Irish.Xv6

open Library
open Function (update)

/-- `NUM`. -/
def numDesc : ℕ := 8

instance : NeZero numDesc := ⟨by decide⟩

/-- What a descriptor points to. -/
inductive DescAddr (ι : Type*)
  | null
  /-- `&disk.ops[i]` -/
  | request (i : ℕ)
  /-- `b->data` -/
  | data (b : ι)
  /-- `&disk.info[i].status` -/
  | status (i : ℕ)
deriving DecidableEq, Repr

/-- `struct virtq_desc`, with the two flags that are used. -/
structure VirtqDesc (ι : Type*) where
  addr : DescAddr ι
  len : ℕ
  hasNext : Bool
  write : Bool
  next : ℕ
deriving DecidableEq, Repr

def VirtqDesc.zero {ι : Type*} : VirtqDesc ι := ⟨.null, 0, false, false, 0⟩

/-- `struct virtio_blk_req`: whether the type is `VIRTIO_BLK_T_OUT`, and the sector. -/
structure BlkReq where
  out : Bool
  sector : ℕ
deriving DecidableEq, Repr

/-- `disk.info[i]`. -/
structure BlkInfo (ι : Type*) where
  b : Option ι
  status : ℕ
deriving DecidableEq, Repr

/-- Where the caller with a buffer is in `virtio_disk_rw`. -/
inductive DiskCall
  | idle
  /-- in the loop around `alloc3_desc` -/
  | allocating (write : Bool) (blockno : ℕ)
  /-- in the loop around `b->disk`, with `idx` -/
  | waiting (write : Bool) (blockno d0 d1 d2 : ℕ)
deriving DecidableEq, Repr

/-- The addresses slept on: `&disk.free[0]`, and the buffers. -/
inductive DiskChan (ι : Type*)
  | free
  | buf (b : ι)
deriving DecidableEq, Repr

inductive VirtioPanic
  | freeDesc1
  | freeDesc2
  | intrStatus
deriving DecidableEq, Repr

/-- `disk`, the fields `disk` and `data` of the buffers, and the device: the heads it has fetched
and not yet put into `used`, and its contents by sector. -/
structure VirtioDisk (ι β : Type*) where
  free : ℕ → Bool
  desc : ℕ → VirtqDesc ι
  ops : ℕ → BlkReq
  info : ℕ → BlkInfo ι
  avail : RingBuffer 16 ℕ numDesc
  used : RingBuffer 16 ℕ numDesc
  disk : ι → Bool
  data : ι → β
  fetched : List ℕ
  sectors : ℕ → β
  call : ι → DiskCall
  chan : ι → Option (DiskChan ι)
  panic : Option VirtioPanic
  fault : Bool

inductive VirtioEvent (ι β : Type*)
  /-- the caller changes the data of its buffer -/
  | fill (b : ι) (x : β)
  | rw (b : ι) (write : Bool) (blockno : ℕ)
  | allocTurn (b : ι)
  | waitTurn (b : ι)
  | intrTurn
  | fetch
  /-- the device serves a request with a status, and with `x` for the block if this is an error -/
  | perform (head status : ℕ) (x : β)
deriving DecidableEq, Repr

/-- The device says that it could not serve a request. -/
def VirtioEvent.ReportsError {ι β : Type*} : VirtioEvent ι β → Prop
  | .perform _ status _ => status ≠ 0
  | _ => False

variable {ι β : Type*} [DecidableEq ι]

/-- `BSIZE`. -/
def bsize : ℕ := 1024

/-- `b->blockno * (BSIZE / 512)`, a product of 32 bits. -/
def sectorOf (blockno : ℕ) : ℕ := blockno * (bsize / 512) % 2 ^ 32

def allocDesc (s : VirtioDisk ι β) : Option (ℕ × VirtioDisk ι β) :=
  ((List.range numDesc).find? s.free).map fun i ↦
    (i, { s with free := update s.free i false })

def freeDesc (i : ℕ) (s : VirtioDisk ι β) : VirtioDisk ι β :=
  if numDesc ≤ i then { s with panic := some .freeDesc1 }
  else if s.free i then { s with panic := some .freeDesc2 }
  else
    { s with desc := update s.desc i .zero, free := update s.free i true,
             chan := wake .free s.chan }

/-- The loop of `free_chain`. Each turn frees a descriptor or panics, so it is over after at most
`NUM + 1` of them. -/
def freeChainLoop : ℕ → ℕ → VirtioDisk ι β → VirtioDisk ι β
  | 0, _, s => s
  | turns + 1, i, s =>
    let t := freeDesc i s
    if t.panic ≠ none then t
    else if (s.desc i).hasNext then freeChainLoop turns (s.desc i).next t
    else t

def freeChain (i : ℕ) (s : VirtioDisk ι β) : VirtioDisk ι β := freeChainLoop (numDesc + 1) i s

/-- `alloc3_desc`: the three descriptors, or the state after those already taken have been given
back. -/
def alloc3Desc (s : VirtioDisk ι β) : Option (ℕ × ℕ × ℕ) × VirtioDisk ι β :=
  match allocDesc s with
  | none => (none, s)
  | some (d0, s) =>
    match allocDesc s with
    | none => (none, freeDesc d0 s)
    | some (d1, s) =>
      match allocDesc s with
      | none => (none, freeDesc d1 (freeDesc d0 s))
      | some (d2, s) => (some (d0, d1, d2), s)

/-- Format the three descriptors, and tell the device. -/
def submit (b : ι) (write : Bool) (blockno d0 d1 d2 : ℕ) (s : VirtioDisk ι β) : VirtioDisk ι β :=
  let desc0 : VirtqDesc ι := ⟨.request d0, 16, true, false, d1⟩
  let desc1 : VirtqDesc ι := ⟨.data b, bsize, true, !write, d2⟩
  let desc2 : VirtqDesc ι := ⟨.status d0, 1, false, true, 0⟩
  { s with
    ops := update s.ops d0 ⟨write, sectorOf blockno⟩
    desc := update (update (update s.desc d0 desc0) d1 desc1) d2 desc2
    info := update s.info d0 ⟨some b, 0xff⟩
    disk := update s.disk b true
    avail := s.avail.push d0
    call := update s.call b (.waiting write blockno d0 d1 d2) }

/-- One turn of the first loop of `virtio_disk_rw`, and what follows it when it ends. -/
def allocTurn (b : ι) (write : Bool) (blockno : ℕ) (s : VirtioDisk ι β) : VirtioDisk ι β :=
  match alloc3Desc s with
  | (some (d0, d1, d2), s) =>
    { submit b write blockno d0 d1 d2 s with chan := unregister b s.chan }
  | (none, s) => { s with chan := register b .free s.chan }

/-- One turn of the second loop of `virtio_disk_rw`, and what follows it when it ends. -/
def waitTurn (b : ι) (d0 : ℕ) (s : VirtioDisk ι β) : VirtioDisk ι β :=
  if s.disk b then { s with chan := register b (.buf b) s.chan }
  else
    freeChain d0
      { s with info := update s.info d0 { s.info d0 with b := none },
               call := update s.call b .idle, chan := unregister b s.chan }

/-- One turn of the loop of `virtio_disk_intr`. -/
def intrTurn (s : VirtioDisk ι β) : VirtioDisk ι β :=
  if (s.info s.used.front).status ≠ 0 then { s with panic := some .intrStatus }
  else
    match (s.info s.used.front).b with
    | none => { s with fault := true }
    | some b =>
      { s with disk := update s.disk b false, chan := wake (.buf b) s.chan,
               used := s.used.pop }

/-- The device transfers a block, as the chain says, and writes the status. -/
def perform (head status : ℕ) (x : β) (s : VirtioDisk ι β) : VirtioDisk ι β :=
  let d1 := (s.desc head).next
  let d2 := (s.desc d1).next
  match s.desc head, s.desc d1, s.desc d2 with
  | ⟨.request r, _, true, false, _⟩, ⟨.data b, _, true, write, _⟩, ⟨.status i, _, false, true, _⟩ =>
    let ⟨out, sector⟩ := s.ops r
    -- The flag of the data says who writes it, and has to agree with the request.
    if write = !out then
      let block := if status ≠ 0 then x else if out then s.data b else s.sectors sector
      { s with
        sectors := if out then update s.sectors sector block else s.sectors
        data := if out then s.data else update s.data b block
        info := update s.info i { s.info i with status := status }
        fetched := s.fetched.erase head
        used := s.used.push head }
    else { s with fault := true }
  | _, _, _ => { s with fault := true }

def virtioStep (s : VirtioDisk ι β) (e : VirtioEvent ι β) : Option (VirtioDisk ι β) :=
  if s.panic ≠ none ∨ s.fault = true then none
  else
    match e with
    | .fill b x =>
      if s.call b = .idle then some { s with data := update s.data b x } else none
    | .rw b write blockno =>
      if s.call b = .idle then
        some { s with call := update s.call b (.allocating write blockno) }
      else none
    | .allocTurn b =>
      match s.call b with
      | .allocating write blockno => some (allocTurn b write blockno s)
      | _ => none
    | .waitTurn b =>
      match s.call b with
      | .waiting _ _ d0 _ _ => some (waitTurn b d0 s)
      | _ => none
    | .intrTurn => if s.used.nread = s.used.nwrite then none else some (intrTurn s)
    | .fetch =>
      if s.avail.nread = s.avail.nwrite then none
      else some { s with avail := s.avail.pop, fetched := s.avail.front :: s.fetched }
    | .perform head status x =>
      if head ∈ s.fetched then some (perform head status x s) else none

/-- After `virtio_disk_init`, with a disk of any contents and buffers of any data. -/
def virtioInit (sectors : ℕ → β) (data : ι → β) : VirtioDisk ι β where
  free := fun i ↦ decide (i < numDesc)
  desc := fun _ ↦ .zero
  ops := fun _ ↦ ⟨false, 0⟩
  info := fun _ ↦ ⟨none, 0⟩
  avail := ⟨fun _ ↦ 0, 0#16, 0#16⟩
  used := ⟨fun _ ↦ 0, 0#16, 0#16⟩
  disk := fun _ ↦ false
  data := data
  fetched := []
  sectors := sectors
  call := fun _ ↦ .idle
  chan := fun _ ↦ none
  panic := none
  fault := false

end Irish.Xv6
