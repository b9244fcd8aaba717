import Irish.Library.AtomicTransfers
import Irish.Library.Counts
import Irish.Xv6.Virtio

/-!
# The disk driver transfers each block once

A descriptor is free or in the chain of one request, and a request is in exactly one place on its
way: in `avail`, fetched by the device, or in `used` (`VirtioInv`). So the device and `free_chain`
find the chains as they were formatted. Since a request has three of the `NUM` descriptors, the
rings have room, and their 16-bit counters may wrap.

The driver and the device together are then a store with atomic transfers
(`virtio_refines_atomicStore`). The transfer is the moment when the device serves the request;
everything else but the call and the return goes unnoticed. A request that the device cannot serve
stays without a transfer, and its call does not return: the interrupt handler panics. And nobody
sleeps for longer than there is something to wait for (`virtio_waiters`): a failed `alloc3_desc`
gives back what it has taken, so its wakeup is for nothing, but each `free_chain` wakes everybody
who waits for descriptors.
-/

set_option autoImplicit false

namespace Irish.Xv6

open Library
open Function (update update_comm update_eq_self update_eq_self_iff update_idem update_of_ne
  update_self)

variable {ι β α : Type*}

/-! ### Taking and giving back descriptors -/

section Descriptors

variable {s t : VirtioDisk ι β} {d d0 d1 d2 : ℕ}

/-- How many descriptors are free. -/
def VirtioDisk.freeCount (s : VirtioDisk ι β) : ℕ := (List.range numDesc).countP s.free

theorem allocDesc_eq_none : allocDesc s = none ↔ s.freeCount = 0 := by
  rw [allocDesc, Option.map_eq_none_iff, List.find?_eq_none, VirtioDisk.freeCount,
    List.countP_eq_zero]

theorem allocDesc_eq_some (h : allocDesc s = some (d, t)) :
    s.free d = true ∧ d < numDesc ∧ t = { s with free := update s.free d false } := by
  obtain ⟨i, hi, ⟨⟩⟩ := Option.map_eq_some_iff.mp h
  exact ⟨List.find?_some hi, List.mem_range.mp (List.mem_of_find?_eq_some hi), rfl⟩

theorem freeCount_allocDesc (h : allocDesc s = some (d, t)) : t.freeCount + 1 = s.freeCount := by
  obtain ⟨hfree, hlt, rfl⟩ := allocDesc_eq_some h
  exact countP_update List.nodup_range (List.mem_range.mpr hlt) hfree

variable [DecidableEq ι] {p : ℕ → Bool} {x turns : ℕ}

theorem freeDesc_eq (hlt : d < numDesc) (hfree : s.free d = false) :
    freeDesc d s = { s with
      desc := update s.desc d .zero, free := update s.free d true,
      chan := wake .free s.chan } := by
  rw [freeDesc, if_neg (by omega), if_neg (by simp [hfree])]

omit [DecidableEq ι] in
theorem wake_wake [DecidableEq (DiskChan ι)] (c : DiskChan ι) (chan : ι → Option (DiskChan ι)) :
    wake c (wake c chan) = wake c chan := by
  funext i
  unfold wake
  split_ifs with hc
  · rfl
  · rfl
  · rfl

omit [DecidableEq ι] in
/-- What is free after a descriptor has been taken is another one, and was free before. -/
theorem update_false_eq_true (h : update p d false x = true) : x ≠ d ∧ p x = true := by
  obtain ⟨-, ⟨⟩⟩ | h := update_cases h
  exact h

/-- Overwrite a function at the descriptors of a chain. -/
abbrev updateChain {α : Type*} (f : ℕ → α) (d0 d1 d2 : ℕ) (x y z : α) : ℕ → α :=
  update (update (update f d0 x) d1 y) d2 z

/-- `alloc3_desc` succeeds with three different free descriptors. -/
theorem alloc3Desc_some (h : alloc3Desc s = (some (d0, d1, d2), t)) :
    [d0, d1, d2].Nodup ∧ (∀ d ∈ [d0, d1, d2], s.free d = true ∧ d < numDesc) ∧
      t = { s with free := updateChain s.free d0 d1 d2 false false false } := by
  unfold alloc3Desc at h
  rcases h0 : allocDesc s with _ | ⟨e0, s0⟩
  · simp [h0] at h
  rcases h1 : allocDesc s0 with _ | ⟨e1, s1⟩
  · simp [h0, h1] at h
  rcases h2 : allocDesc s1 with _ | ⟨e2, s2⟩
  · simp [h0, h1, h2] at h
  simp only [h0, h1, h2] at h
  cases h
  obtain ⟨hf0, hl0, rfl⟩ := allocDesc_eq_some h0
  obtain ⟨hf1, hl1, rfl⟩ := allocDesc_eq_some h1
  obtain ⟨hf2, hl2, rfl⟩ := allocDesc_eq_some h2
  obtain ⟨h10, hf1⟩ := update_false_eq_true hf1
  obtain ⟨h21, hf2⟩ := update_false_eq_true hf2
  obtain ⟨h20, hf2⟩ := update_false_eq_true hf2
  refine ⟨?_, ?_, rfl⟩
  · simp [Ne.symm h10, Ne.symm h20, Ne.symm h21]
  · simp [hf0, hf1, hf2, hl0, hl1, hl2]

/-- Taking a descriptor and giving it back clears it and wakes those who wait for one. -/
theorem freeDesc_allocDesc (h : allocDesc s = some (d, t)) :
    freeDesc d t =
      { s with desc := update s.desc d .zero, chan := wake .free s.chan } := by
  obtain ⟨hfree, hlt, rfl⟩ := allocDesc_eq_some h
  rw [freeDesc_eq hlt (update_self ..)]
  dsimp only
  rw [update_idem, update_eq_self_iff.mpr hfree.symm]

/-- The state after a failed `alloc3_desc`: of the descriptors only free ones are changed. -/
structure AllocFailed (s t : VirtioDisk ι β) : Prop where
  eq : t = { s with desc := t.desc, chan := t.chan }
  desc : ∀ d, s.free d = false → t.desc d = s.desc d
  chan : t.chan = s.chan ∨ t.chan = wake .free s.chan
  few : s.freeCount < 3

theorem alloc3Desc_none (h : alloc3Desc s = (none, t)) : AllocFailed s t := by
  have hkeeps {e d : ℕ} (he : s.free e = true) (hd : s.free d = false) : d ≠ e := by
    rintro rfl
    cases he.symm.trans hd
  unfold alloc3Desc at h
  rcases h0 : allocDesc s with _ | ⟨e0, s0⟩
  · rw [h0] at h
    cases h
    exact ⟨rfl, fun _ _ ↦ rfl, .inl rfl, by rw [allocDesc_eq_none.mp h0]; omega⟩
  have hcount0 := freeCount_allocDesc h0
  rcases h1 : allocDesc s0 with _ | ⟨e1, s1⟩
  · have hnone := allocDesc_eq_none.mp h1
    simp only [h0, h1, freeDesc_allocDesc h0] at h
    cases h
    refine ⟨rfl, fun d hd ↦ ?_, .inr rfl, by omega⟩
    exact update_of_ne (hkeeps (allocDesc_eq_some h0).1 hd) _ _
  have hcount1 := freeCount_allocDesc h1
  rcases h2 : allocDesc s1 with _ | ⟨e2, s2⟩
  swap
  · simp [h0, h1, h2] at h
  have hnone := allocDesc_eq_none.mp h2
  simp only [h0, h1, h2] at h
  cases h
  obtain ⟨hf0, hl0, rfl⟩ := allocDesc_eq_some h0
  obtain ⟨hf1, hl1, rfl⟩ := allocDesc_eq_some h1
  obtain ⟨hne, hf1⟩ := update_false_eq_true hf1
  have hfirst : update (update s.free e0 false) e1 false e0 = false := by
    rw [update_of_ne (Ne.symm hne), update_self]
  have hsecond : update (update (update s.free e0 false) e1 false) e0 true e1 = false := by
    rw [update_of_ne hne, update_self]
  have hfree : update (update (update (update s.free e0 false) e1 false) e0 true) e1 true =
      s.free := by
    rw [update_comm hne, update_idem, update_idem, show update s.free e0 true = s.free from
      update_eq_self_iff.mpr hf0.symm, update_eq_self_iff.mpr hf1.symm]
  rw [freeDesc_eq hl0 hfirst, freeDesc_eq hl1 hsecond]
  dsimp only
  rw [hfree, wake_wake]
  refine ⟨rfl, fun d hd ↦ ?_, .inr rfl, by omega⟩
  dsimp only
  rw [update_of_ne (hkeeps hf1 hd), update_of_ne (hkeeps hf0 hd)]

/-- One turn of `free_chain`. -/
def VirtioDisk.freed (s : VirtioDisk ι β) (d : ℕ) : VirtioDisk ι β :=
  { s with desc := update s.desc d .zero, free := update s.free d true,
           chan := wake .free s.chan }

theorem freeChainLoop_next (hpanic : s.panic = none) (hlt : d < numDesc) (hfree : s.free d = false)
    (hnext : (s.desc d).hasNext = true) :
    freeChainLoop (turns + 1) d s = freeChainLoop turns (s.desc d).next (s.freed d) := by
  rw [freeChainLoop, freeDesc_eq hlt hfree, if_neg (by simp [hpanic]), if_pos hnext]
  rfl

theorem freeChainLoop_last (hpanic : s.panic = none) (hlt : d < numDesc) (hfree : s.free d = false)
    (hnext : (s.desc d).hasNext = false) : freeChainLoop (turns + 1) d s = s.freed d := by
  rw [freeChainLoop, freeDesc_eq hlt hfree, if_neg (by simp [hpanic]), if_neg (by simp [hnext])]
  rfl

/-- `free_chain` on a chain of three. -/
theorem freeChain_eq (hpanic : s.panic = none) (hnodup : [d0, d1, d2].Nodup)
    (htaken : ∀ d ∈ [d0, d1, d2], s.free d = false ∧ d < numDesc)
    (h0 : (s.desc d0).hasNext = true ∧ (s.desc d0).next = d1)
    (h1 : (s.desc d1).hasNext = true ∧ (s.desc d1).next = d2) (h2 : (s.desc d2).hasNext = false) :
    freeChain d0 s = { s with
      desc := updateChain s.desc d0 d1 d2 .zero .zero .zero
      free := updateChain s.free d0 d1 d2 true true true
      chan := wake .free s.chan } := by
  simp only [List.nodup_cons, List.mem_cons, List.not_mem_nil, or_false, not_or, not_false_eq_true,
    List.nodup_nil, and_true] at hnodup
  obtain ⟨⟨h01, h02⟩, h12⟩ := hnodup
  obtain ⟨hf0, hl0⟩ := htaken d0 (by simp)
  obtain ⟨hf1, hl1⟩ := htaken d1 (by simp)
  obtain ⟨hf2, hl2⟩ := htaken d2 (by simp)
  have hfirst : (s.freed d0).free d1 = false ∧ (s.freed d0).desc d1 = s.desc d1 :=
    ⟨(update_of_ne (Ne.symm h01) _ _).trans hf1, update_of_ne (Ne.symm h01) _ _⟩
  have hsecond : ((s.freed d0).freed d1).free d2 = false ∧
      ((s.freed d0).freed d1).desc d2 = s.desc d2 :=
    ⟨((update_of_ne (Ne.symm h12) _ _).trans
      (update_of_ne (Ne.symm h02) _ _)).trans hf2,
      (update_of_ne (Ne.symm h12) _ _).trans (update_of_ne (Ne.symm h02) _ _)⟩
  have hpanic1 : (s.freed d0).panic = none := hpanic
  have hpanic2 : ((s.freed d0).freed d1).panic = none := hpanic
  have hthree : freeChain d0 s = ((s.freed d0).freed d1).freed d2 := by
    rw [freeChain, numDesc, freeChainLoop_next hpanic hl0 hf0 h0.1, h0.2,
      freeChainLoop_next hpanic1 hl1 hfirst.1 (hfirst.2 ▸ h1.1), hfirst.2, h1.2,
      freeChainLoop_last hpanic2 hl2 hsecond.1 (hsecond.2 ▸ h2)]
  rw [hthree]
  simp only [VirtioDisk.freed, wake_wake]

end Descriptors

/-! ### Requests on their way -/

section Requests

/-- A request of `virtio_disk_rw`, with the descriptors of its chain. -/
structure DiskRequest where
  write : Bool
  blockno : ℕ
  d0 : ℕ
  d1 : ℕ
  d2 : ℕ

def DiskRequest.descs (r : DiskRequest) : List ℕ := [r.d0, r.d1, r.d2]

def DiskCall.request : DiskCall → Option DiskRequest
  | .waiting write blockno d0 d1 d2 => some ⟨write, blockno, d0, d1, d2⟩
  | _ => none

def VirtioDisk.requests (s : VirtioDisk ι β) (b : ι) : Option DiskRequest := (s.call b).request

/-- The requests that the device has not yet served. -/
def VirtioDisk.unserved (s : VirtioDisk ι β) : List ℕ := s.avail.contents ++ s.fetched

/-- The requests between `virtio_disk_rw` and the interrupt handler. -/
def VirtioDisk.queued (s : VirtioDisk ι β) : List ℕ := s.unserved ++ s.used.contents

/-- A request as `virtio_disk_rw` has formatted it. -/
structure Formatted (s : VirtioDisk ι β) (b : ι) (r : DiskRequest) : Prop where
  nodup : r.descs.Nodup
  lt : ∀ d ∈ r.descs, d < numDesc
  desc0 : s.desc r.d0 = ⟨.request r.d0, 16, true, false, r.d1⟩
  desc1 : s.desc r.d1 = ⟨.data b, bsize, true, !r.write, r.d2⟩
  desc2 : s.desc r.d2 = ⟨.status r.d0, 1, false, true, 0⟩
  op : s.ops r.d0 = ⟨r.write, sectorOf r.blockno⟩
  info : (s.info r.d0).b = some b

/-- Every descriptor is free or part of one request. -/
structure DescInv (s : VirtioDisk ι β) : Prop where
  formatted : ∀ b r, s.requests b = some r → Formatted s b r
  disjoint : ∀ b c r r', s.requests b = some r → s.requests c = some r' →
    ∀ d ∈ r.descs, d ∈ r'.descs → b = c
  free : ∀ d, s.free d = true ↔ d < numDesc ∧ ∀ b r, s.requests b = some r → d ∉ r.descs

/-- Every request is on its way exactly as long as `b->disk` is set. An error is in a status only if
one has been reported (`failed`), and its request is not taken out of `used`. -/
structure QueueInv (failed : Prop) (s : VirtioDisk ι β) : Prop where
  nodup : s.queued.Nodup
  owner : ∀ d ∈ s.queued, ∃ b r, s.requests b = some r ∧ r.d0 = d ∧ s.disk b = true
  pending : ∀ b r, s.requests b = some r → s.disk b = true → r.d0 ∈ s.queued
  served : ∀ d ∈ s.used.contents, (s.info d).status = 0 ∨ failed
  returned : ∀ b r, s.requests b = some r → s.disk b = false → (s.info r.d0).status = 0

structure VirtioInv (failed : Prop) (s : VirtioDisk ι β) : Prop where
  descs : DescInv s
  queues : QueueInv failed s
  panic : s.panic = none ∨ s.panic = some .intrStatus ∧ failed
  fault : s.fault = false

variable {failed : Prop} {s t : VirtioDisk ι β} {b c : ι} {r r' : DiskRequest} {d : ℕ}

theorem DiskRequest.head_mem (r : DiskRequest) : r.d0 ∈ r.descs := List.mem_cons_self

theorem requests_eq_some :
    s.requests b = some r ↔ s.call b = .waiting r.write r.blockno r.d0 r.d1 r.d2 := by
  unfold VirtioDisk.requests
  cases s.call b with
  | waiting => cases r; simp [DiskCall.request]
  | _ => simp [DiskCall.request]

theorem DescInv.not_free (h : DescInv s) (hr : s.requests b = some r) (hd : d ∈ r.descs) :
    s.free d = false := by
  by_contra hfree
  exact ((h.free d).mp (Bool.not_eq_false _ ▸ hfree)).2 b r hr hd

theorem Formatted.congr (h : Formatted s b r) (hdesc : ∀ d ∈ r.descs, t.desc d = s.desc d)
    (hop : t.ops r.d0 = s.ops r.d0) (hinfo : (t.info r.d0).b = (s.info r.d0).b) :
    Formatted t b r := by
  refine ⟨h.nodup, h.lt, ?_, ?_, ?_, hop.trans h.op, hinfo.trans h.info⟩
  · rw [hdesc _ r.head_mem, h.desc0]
  · rw [hdesc _ (by simp [DiskRequest.descs]), h.desc1]
  · rw [hdesc _ (by simp [DiskRequest.descs]), h.desc2]

theorem DescInv.same (h : DescInv s) (hreqs : t.requests = s.requests) (hfree : t.free = s.free)
    (hdesc : ∀ d, s.free d = false → t.desc d = s.desc d) (hops : t.ops = s.ops)
    (hinfo : ∀ d, (t.info d).b = (s.info d).b) : DescInv t := by
  refine ⟨fun b r hr ↦ ?_, hreqs ▸ h.disjoint, hreqs ▸ hfree ▸ h.free⟩
  rw [hreqs] at hr
  exact (h.formatted b r hr).congr (fun d hd ↦ hdesc d (h.not_free hr hd)) (by rw [hops])
    (hinfo r.d0)

theorem QueueInv.perm (h : QueueInv failed s) (hreqs : t.requests = s.requests)
    (hdisk : t.disk = s.disk) (hqueued : t.queued.Perm s.queued)
    (hserved : ∀ d ∈ t.used.contents, (t.info d).status = 0 ∨ failed)
    (hstatus : ∀ b r, s.requests b = some r → s.disk b = false →
      (t.info r.d0).status = (s.info r.d0).status) : QueueInv failed t := by
  refine ⟨hqueued.nodup_iff.mpr h.nodup, fun d hd ↦ ?_, fun b r hr hb ↦ ?_, hserved,
    fun b r hr hb ↦ ?_⟩
  · rw [hreqs, hdisk]
    exact h.owner d (hqueued.mem_iff.mp hd)
  · rw [hreqs] at hr
    exact hqueued.mem_iff.mpr (h.pending b r hr (hdisk ▸ hb))
  · rw [hreqs] at hr
    exact (hstatus b r hr (hdisk ▸ hb)).trans (h.returned b r hr (hdisk ▸ hb))

theorem VirtioInv.lt (h : VirtioInv failed s) (hd : d ∈ s.queued) : d < numDesc := by
  obtain ⟨b, r, hr, rfl, -⟩ := h.queues.owner d hd
  exact (h.descs.formatted b r hr).lt _ r.head_mem

/-- Different requests that are all descriptors fit into a ring. -/
theorem length_le_numDesc {l : List ℕ} (hl : l.Nodup) (hlt : ∀ d ∈ l, d < numDesc) :
    l.length ≤ numDesc := by
  have hsub : l ⊆ List.range numDesc := fun d hd ↦ List.mem_range.mpr (hlt d hd)
  have hle := (List.subperm_of_subset hl hsub).length_le
  rwa [List.length_range] at hle

/-- Requests with one head are one. -/
theorem VirtioInv.eq_of_head (h : VirtioInv failed s) (hb : s.requests b = some r)
    (hc : s.requests c = some r') (heq : r'.d0 = r.d0) : c = b :=
  h.descs.disjoint c b r' r hc hb _ r'.head_mem (heq ▸ r.head_mem)

/-- The flag of the caller whose request is on its way is set. -/
theorem VirtioInv.disk_of_mem (h : VirtioInv failed s) (hr : s.requests b = some r)
    (hd : r.d0 ∈ s.queued) : s.disk b = true := by
  obtain ⟨c, r', hc, heq, hdisk⟩ := h.queues.owner r.d0 hd
  exact h.eq_of_head hr hc heq ▸ hdisk

variable [DecidableEq ι] {f : ι → Option α} {y : α}

theorem requests_of_update (call : DiskCall) (hcall : t.call = update s.call b call) :
    t.requests = update s.requests b call.request := by
  funext c
  rw [VirtioDisk.requests, hcall]
  by_cases hc : c = b
  · rw [hc, update_self, update_self]
  · rw [update_of_ne hc, update_of_ne hc, VirtioDisk.requests]

theorem update_some_iff {x : α} :
    update f b (some x) c = some y ↔ c = b ∧ x = y ∨ c ≠ b ∧ f c = some y := by
  by_cases hc : c = b <;> simp [hc]

theorem update_none_iff : update f b none c = some y ↔ c ≠ b ∧ f c = some y := by
  by_cases hc : c = b <;> simp [hc]

/-- A new request takes three free descriptors. -/
theorem DescInv.add (h : DescInv s) (hnone : s.requests b = none)
    (hreqs : t.requests = update s.requests b (some r)) (hformatted : Formatted t b r)
    (htaken : ∀ d ∈ r.descs, s.free d = true)
    (hfree : ∀ d, t.free d = true ↔ s.free d = true ∧ d ∉ r.descs)
    (hdesc : ∀ d, s.free d = false → t.desc d = s.desc d ∧ t.ops d = s.ops d ∧
      (t.info d).b = (s.info d).b) : DescInv t := by
  have hfresh {c r'} (hc : s.requests c = some r') {d : ℕ} (hd : d ∈ r.descs) : d ∉ r'.descs :=
    ((h.free d).mp (htaken d hd)).2 c r' hc
  have hcases {c r'} (hc : t.requests c = some r') :
      c = b ∧ r = r' ∨ c ≠ b ∧ s.requests c = some r' := by
    rwa [hreqs, update_some_iff] at hc
  refine ⟨fun c r' hc ↦ ?_, fun c c' r' r'' hc hc' d hd hd' ↦ ?_, fun d ↦ ?_⟩
  · rcases hcases hc with ⟨rfl, rfl⟩ | ⟨-, hc⟩
    · exact hformatted
    · have hkeep (d : ℕ) (hd : d ∈ r'.descs) := hdesc d (h.not_free hc hd)
      exact (h.formatted c r' hc).congr (fun d hd ↦ (hkeep d hd).1) (hkeep _ r'.head_mem).2.1
        (hkeep _ r'.head_mem).2.2
  · rcases hcases hc with ⟨rfl, rfl⟩ | ⟨-, hc⟩
    · rcases hcases hc' with ⟨rfl, -⟩ | ⟨-, hc'⟩
      · rfl
      · exact absurd hd' (hfresh hc' hd)
    · rcases hcases hc' with ⟨rfl, rfl⟩ | ⟨-, hc'⟩
      · exact absurd hd (hfresh hc hd')
      · exact h.disjoint c c' r' r'' hc hc' d hd hd'
  · rw [hfree, h.free, and_assoc]
    refine and_congr_right fun _ ↦ ⟨?_, fun hnot ↦ ⟨fun c r' hc ↦ hnot c r' ?_, hnot b r ?_⟩⟩
    · rintro ⟨hnot, hd⟩ c r' hc
      rcases hcases hc with ⟨-, rfl⟩ | ⟨-, hc⟩
      · exact hd
      · exact hnot c r' hc
    · have hcb : c ≠ b := by
        rintro rfl
        cases hnone.symm.trans hc
      rw [hreqs, update_of_ne hcb, hc]
    · rw [hreqs, update_self]

/-- A request gives its three descriptors back. -/
theorem DescInv.remove (h : DescInv s) (hb : s.requests b = some r)
    (hreqs : t.requests = update s.requests b none)
    (hfree : ∀ d, t.free d = true ↔ s.free d = true ∨ d ∈ r.descs)
    (hkeep : ∀ d ∉ r.descs, t.desc d = s.desc d ∧ t.ops d = s.ops d ∧
      (t.info d).b = (s.info d).b) : DescInv t := by
  have hother {c r'} : t.requests c = some r' ↔ c ≠ b ∧ s.requests c = some r' := by
    rw [hreqs, update_none_iff]
  have hapart {c r'} (hc : t.requests c = some r') {d : ℕ} (hd : d ∈ r'.descs) : d ∉ r.descs :=
    fun hd' ↦ (hother.mp hc).1 (h.disjoint c b r' r (hother.mp hc).2 hb d hd hd')
  refine ⟨fun c r' hc ↦ ?_, fun c c' r' r'' hc hc' ↦ ?_, fun d ↦ ?_⟩
  · have hhead := hkeep _ (hapart hc r'.head_mem)
    exact (h.formatted c r' (hother.mp hc).2).congr (fun d hd ↦ (hkeep d (hapart hc hd)).1)
      hhead.2.1 hhead.2.2
  · exact h.disjoint c c' r' r'' (hother.mp hc).2 (hother.mp hc').2
  · rw [hfree]
    constructor
    · rintro (hd | hd)
      · obtain ⟨hlt, hnot⟩ := (h.free d).mp hd
        exact ⟨hlt, fun c r' hc ↦ hnot c r' (hother.mp hc).2⟩
      · exact ⟨(h.formatted b r hb).lt d hd, fun c r' hc hd' ↦ hapart hc hd' hd⟩
    · rintro ⟨hlt, hnot⟩
      by_cases hd : d ∈ r.descs
      · exact .inr hd
      · refine .inl ((h.free d).mpr ⟨hlt, fun c r' hc ↦ ?_⟩)
        by_cases hcb : c = b
        · rw [hcb, hb] at hc
          cases hc
          exact hd
        · exact hnot c r' (hother.mpr ⟨hcb, hc⟩)

/-- A new request is put into the queues. -/
theorem QueueInv.add (h : QueueInv failed s) (hnone : s.requests b = none)
    (hreqs : t.requests = update s.requests b (some r)) (hdisk : t.disk = update s.disk b true)
    (hqueued : t.queued.Perm (r.d0 :: s.queued)) (hnew : r.d0 ∉ s.queued) (hused : t.used = s.used)
    (hstatus : ∀ d ≠ r.d0, (t.info d).status = (s.info d).status)
    (hfresh : ∀ c r', s.requests c = some r' → r'.d0 ≠ r.d0) : QueueInv failed t := by
  have hcases {c r'} (hc : t.requests c = some r') :
      c = b ∧ r = r' ∨ c ≠ b ∧ s.requests c = some r' := by
    rwa [hreqs, update_some_iff] at hc
  refine ⟨hqueued.nodup_iff.mpr (List.nodup_cons.mpr ⟨hnew, h.nodup⟩), fun d hd ↦ ?_,
    fun c r' hc hset ↦ hqueued.mem_iff.mpr ?_, fun d hd ↦ ?_, fun c r' hc hset ↦ ?_⟩
  · rw [hreqs, hdisk]
    rcases List.mem_cons.mp (hqueued.mem_iff.mp hd) with rfl | hd
    · exact ⟨b, r, update_self .., rfl, update_self ..⟩
    · obtain ⟨c, r', hc, hhead, hset⟩ := h.owner d hd
      have hcb : c ≠ b := by
        rintro rfl
        cases hnone.symm.trans hc
      exact ⟨c, r', (update_of_ne hcb ..).trans hc, hhead, (update_of_ne hcb ..).trans hset⟩
  · rcases hcases hc with ⟨-, rfl⟩ | ⟨hcb, hc⟩
    · exact List.mem_cons_self
    · rw [hdisk, update_of_ne hcb] at hset
      exact List.mem_cons_of_mem _ (h.pending c r' hc hset)
  · rw [hused] at hd
    rw [hstatus d fun heq ↦ hnew (heq ▸ List.mem_append_right _ hd)]
    exact h.served d hd
  · rcases hcases hc with ⟨rfl, -⟩ | ⟨hcb, hc⟩
    · rw [hdisk, update_self] at hset
      cases hset
    · rw [hdisk, update_of_ne hcb] at hset
      rw [hstatus _ (hfresh c r' hc)]
      exact h.returned c r' hc hset

/-- A request that is no longer queued goes. -/
theorem QueueInv.remove (h : QueueInv failed s) (hb : s.requests b = some r)
    (hgone : r.d0 ∉ s.queued) (hreqs : t.requests = update s.requests b none)
    (hdisk : t.disk = s.disk) (hqueued : t.queued = s.queued) (hused : t.used = s.used)
    (hstatus : ∀ d, (t.info d).status = (s.info d).status) : QueueInv failed t := by
  have hother {c r'} : t.requests c = some r' ↔ c ≠ b ∧ s.requests c = some r' := by
    rw [hreqs, update_none_iff]
  refine ⟨hqueued ▸ h.nodup, fun d hd ↦ ?_, fun c r' hc hset ↦ ?_, fun d hd ↦ ?_,
    fun c r' hc hset ↦ ?_⟩
  · rw [hqueued] at hd
    obtain ⟨c, r', hc, rfl, hset⟩ := h.owner d hd
    refine ⟨c, r', hother.mpr ⟨?_, hc⟩, rfl, hdisk ▸ hset⟩
    rintro rfl
    cases hb.symm.trans hc
    exact hgone hd
  · exact hqueued ▸ h.pending c r' (hother.mp hc).2 (hdisk ▸ hset)
  · rw [hstatus]
    exact h.served d (hused ▸ hd)
  · rw [hstatus]
    exact h.returned c r' (hother.mp hc).2 (hdisk ▸ hset)

end Requests

/-! ### What the driver is for -/

section Atomic

/-- The device has served a request, and without an error. -/
def VirtioDisk.Transferred (s : VirtioDisk ι β) (d : ℕ) : Prop :=
  d ∉ s.unserved ∧ (s.info d).status = 0

instance (s : VirtioDisk ι β) (d : ℕ) : Decidable (s.Transferred d) :=
  inferInstanceAs (Decidable (_ ∧ _))

/-- A call waits for its transfer until the device has served the request without an error. -/
def DiskCall.phase (s : VirtioDisk ι β) : DiskCall → TransferPhase ℕ
  | .idle => .idle
  | .allocating write blockno => .pending write (sectorOf blockno)
  | .waiting write blockno d0 _ _ =>
    if s.Transferred d0 then .done else .pending write (sectorOf blockno)

def VirtioDisk.abs (s : VirtioDisk ι β) : AtomicStore ι ℕ β where
  store := s.sectors
  data := s.data
  phase := fun b ↦ (s.call b).phase s

variable {failed : Prop} {s t : VirtioDisk ι β} {e : VirtioEvent ι β} {b : ι} {r : DiskRequest}
  {write : Bool} {blockno d d0 d1 d2 : ℕ} {ring : RingBuffer 16 ℕ numDesc}

theorem DiskCall.phase_congr {c : DiskCall}
    (h : ∀ r, c.request = some r → (t.Transferred r.d0 ↔ s.Transferred r.d0)) :
    c.phase t = c.phase s := by
  cases c with
  | waiting => simp only [DiskCall.phase, h _ rfl]
  | _ => rfl

theorem VirtioDisk.phase_done (hr : s.requests b = some r) (h : s.Transferred r.d0) :
    s.abs.phase b = .done := by
  simp only [VirtioDisk.abs, requests_eq_some.mp hr, DiskCall.phase, if_pos h]

theorem VirtioDisk.phase_pending (hr : s.requests b = some r) (h : ¬ s.Transferred r.d0) :
    s.abs.phase b = .pending r.write (sectorOf r.blockno) := by
  simp only [VirtioDisk.abs, requests_eq_some.mp hr, DiskCall.phase, if_neg h]

theorem VirtioDisk.abs_eq (hsectors : t.sectors = s.sectors) (hdata : t.data = s.data)
    (hphase : ∀ b, (t.call b).phase t = (s.call b).phase s) : t.abs = s.abs := by
  simp only [VirtioDisk.abs, hsectors, hdata, hphase]

/-- A ring of different requests, one more not among them, has room for it. -/
theorem contents_push_of_nodup (hnodup : (d :: ring.contents).Nodup)
    (hlt : ∀ x ∈ d :: ring.contents, x < numDesc) :
    (ring.push d).contents = ring.contents ++ [d] := by
  have hle := length_le_numDesc hnodup hlt
  rw [List.length_cons, RingBuffer.length_contents] at hle
  exact RingBuffer.contents_push (by decide) (by decide) hle

theorem contents_pos (hne : ring.nread ≠ ring.nwrite) :
    ring.contents = ring.front :: ring.pop.contents :=
  RingBuffer.contents_pop (by decide)
    (Nat.pos_of_ne_zero fun hzero ↦ hne (RingBuffer.count_eq_zero.mpr hzero))

/-- A head that the device has fetched is in the queues once. -/
theorem VirtioInv.fetched_nodup (h : VirtioInv failed s) (hd : d ∈ s.fetched) :
    d ∉ s.avail.contents ++ s.fetched.erase d ∧ d ∉ s.used.contents := by
  have hperm : s.queued.Perm (d :: (s.avail.contents ++ s.fetched.erase d ++ s.used.contents)) :=
    ((List.perm_cons_erase hd).append_left _ |>.trans List.perm_middle).append_right _
  have hnot := (List.nodup_cons.mp (hperm.nodup_iff.mp h.queues.nodup)).1
  rw [List.mem_append, not_or] at hnot
  exact hnot

variable [DecidableEq ι] {status : ℕ} {free : ℕ → Bool}

/-- One step keeps the invariant, and is a step of the store with atomic transfers, or none, or a
failed transfer when the device reports an error. -/
structure Serves (failed : Prop) (e : VirtioEvent ι β) (s t : VirtioDisk ι β) : Prop where
  inv : VirtioInv failed t
  atomic : t.abs = s.abs ∨ s.abs.Step t.abs ∨ e.ReportsError ∧ s.abs.Failure t.abs

theorem VirtioInv.fill (h : VirtioInv failed s) (x : β) (hidle : s.call b = .idle) :
    Serves failed e s { s with data := update s.data b x } := by
  refine ⟨⟨h.descs.same rfl rfl (fun _ _ ↦ rfl) rfl fun _ ↦ rfl,
    h.queues.perm rfl rfl (.refl _) h.queues.served fun _ _ _ _ ↦ rfl, h.panic, h.fault⟩,
    .inr (.inl ?_)⟩
  exact .fill b x (by simp only [VirtioDisk.abs, hidle, DiskCall.phase])

theorem phase_update (call : DiskCall) (hcall : t.call = update s.call b call)
    (hothers : ∀ c ≠ b, ∀ r, s.requests c = some r → (t.Transferred r.d0 ↔ s.Transferred r.d0)) :
    (fun c ↦ (t.call c).phase t) = update s.abs.phase b (call.phase t) := by
  funext c
  rw [VirtioDisk.abs, hcall]
  dsimp only
  by_cases hc : c = b
  · rw [hc, update_self, update_self]
  · rw [update_of_ne hc, update_of_ne hc]
    exact DiskCall.phase_congr (hothers c hc)

theorem VirtioInv.rw (h : VirtioInv failed s) (hidle : s.call b = .idle) (write : Bool)
    (blockno : ℕ) :
    Serves failed e s { s with call := update s.call b (.allocating write blockno) } := by
  have hnone : s.requests b = none := by rw [VirtioDisk.requests, hidle, DiskCall.request]; simp
  have hreqs : VirtioDisk.requests { s with call := update s.call b (.allocating write blockno) } =
      s.requests := by
    rw [requests_of_update (s := s) _ rfl, update_eq_self_iff, hnone, DiskCall.request]
    simp
  refine ⟨⟨h.descs.same hreqs rfl (fun _ _ ↦ rfl) rfl fun _ ↦ rfl,
    h.queues.perm hreqs rfl (.refl _) h.queues.served fun _ _ _ _ ↦ rfl, h.panic, h.fault⟩,
    .inr (.inl ?_)⟩
  have hphase : s.abs.phase b = .idle := by simp only [VirtioDisk.abs, hidle, DiskCall.phase]
  have hstep := AtomicStore.Step.call b write (sectorOf blockno) hphase
  convert hstep using 1
  exact congrArg (AtomicStore.mk s.sectors s.data)
    (phase_update (.allocating write blockno) rfl fun _ _ _ _ ↦ Iff.rfl)

/-- A step that neither a request nor a transfer notices. -/
theorem VirtioInv.quiet (h : VirtioInv failed s) (hcall : t.call = s.call) (hfree : t.free = s.free)
    (hdesc : ∀ d, s.free d = false → t.desc d = s.desc d) (hops : t.ops = s.ops)
    (hinfo : t.info = s.info) (havail : t.avail = s.avail) (hfetched : t.fetched = s.fetched)
    (hused : t.used = s.used) (hdisk : t.disk = s.disk) (hdata : t.data = s.data)
    (hsectors : t.sectors = s.sectors)
    (hpanic : t.panic = s.panic ∨ t.panic = some .intrStatus ∧ failed)
    (hfault : t.fault = s.fault) : Serves failed e s t := by
  have hreqs : t.requests = s.requests := by
    funext b
    rw [VirtioDisk.requests, hcall, VirtioDisk.requests]
  have hunserved : t.unserved = s.unserved := by
    rw [VirtioDisk.unserved, havail, hfetched, VirtioDisk.unserved]
  have hqueued : t.queued = s.queued := by
    rw [VirtioDisk.queued, hunserved, hused, VirtioDisk.queued]
  have hserved : ∀ d ∈ t.used.contents, (t.info d).status = 0 ∨ failed := by
    rw [hused, hinfo]
    exact h.queues.served
  have hphase (c : ι) : (t.call c).phase t = (s.call c).phase s := by
    rw [hcall]
    refine DiskCall.phase_congr fun _ _ ↦ ?_
    rw [VirtioDisk.Transferred, VirtioDisk.Transferred, hunserved, hinfo]
  refine ⟨⟨h.descs.same hreqs hfree hdesc hops fun d ↦ by rw [hinfo],
    h.queues.perm hreqs hdisk (.of_eq hqueued) hserved fun _ _ _ _ ↦ by rw [hinfo], ?_,
    hfault.trans h.fault⟩, .inl (VirtioDisk.abs_eq hsectors hdata hphase)⟩
  rcases hpanic with hsame | hpanic
  · rw [hsame]
    exact h.panic
  · exact .inr hpanic

/-- The device fetches a request. -/
theorem VirtioInv.fetch (h : VirtioInv failed s) (hne : s.avail.nread ≠ s.avail.nwrite) :
    Serves failed e s { s with avail := s.avail.pop, fetched := s.avail.front :: s.fetched } := by
  have hunserved : (VirtioDisk.unserved { s with
      avail := s.avail.pop, fetched := s.avail.front :: s.fetched }).Perm s.unserved := by
    rw [VirtioDisk.unserved, VirtioDisk.unserved, contents_pos hne]
    exact List.perm_middle
  refine ⟨⟨h.descs.same rfl rfl (fun _ _ ↦ rfl) rfl fun _ ↦ rfl,
    h.queues.perm rfl rfl (hunserved.append_right _) h.queues.served fun _ _ _ _ ↦ rfl, h.panic,
    h.fault⟩, .inl (VirtioDisk.abs_eq rfl rfl fun c ↦ DiskCall.phase_congr fun r _ ↦ ?_)⟩
  rw [VirtioDisk.Transferred, VirtioDisk.Transferred, hunserved.mem_iff]

theorem perform_eq (hf : Formatted s b r) (status : ℕ) (x : β) :
    perform r.d0 status x s =
      let block :=
        if status ≠ 0 then x else if r.write then s.data b else s.sectors (sectorOf r.blockno)
      { s with
        sectors := if r.write then update s.sectors (sectorOf r.blockno) block else s.sectors
        data := if r.write then s.data else update s.data b block
        info := update s.info r.d0 { s.info r.d0 with status := status }
        fetched := s.fetched.erase r.d0
        used := s.used.push r.d0 } := by
  simp only [Xv6.perform, hf.desc0, hf.desc1, hf.desc2, hf.op, if_true]

omit [DecidableEq ι] in
theorem mem_queued_of_fetched (hd : d ∈ s.fetched) : d ∈ s.queued :=
  List.mem_append_left _ (List.mem_append_right _ hd)

theorem VirtioInv.inv_perform (h : VirtioInv failed s) (hr : s.requests b = some r)
    (hdisk : s.disk b = true) (hd : r.d0 ∈ s.fetched) (status : ℕ) (x : β)
    (hfailed : status ≠ 0 → failed) : VirtioInv failed (perform r.d0 status x s) := by
  have hcontents : (s.used.push r.d0).contents = s.used.contents ++ [r.d0] := by
    refine contents_push_of_nodup (List.nodup_cons.mpr
      ⟨(h.fetched_nodup hd).2, (List.nodup_append.mp h.queues.nodup).2.1⟩) fun y hy ↦ ?_
    rcases List.mem_cons.mp hy with rfl | hy
    · exact h.lt (mem_queued_of_fetched hd)
    · exact h.lt (List.mem_append_right _ hy)
  rw [perform_eq (h.descs.formatted b r hr)]
  refine ⟨h.descs.same rfl rfl (fun _ _ ↦ rfl) rfl fun y ↦ ?_,
    h.queues.perm rfl rfl ?_ (fun y hy ↦ ?_) fun c r' hc hset ↦ ?_, h.panic, h.fault⟩
  · dsimp only
    by_cases hy : y = r.d0
    · rw [hy, update_self]
    · rw [update_of_ne hy]
  · rw [VirtioDisk.queued, VirtioDisk.unserved, VirtioDisk.queued, VirtioDisk.unserved]
    dsimp only
    rw [hcontents, ← List.append_assoc]
    refine (List.perm_append_singleton r.d0 _).trans ?_
    exact (((List.perm_cons_erase hd).append_left _ |>.trans List.perm_middle).append_right _).symm
  · dsimp only at hy ⊢
    by_cases hyd : y = r.d0
    · rw [hyd, update_self]
      exact (em (status = 0)).imp id hfailed
    · rw [update_of_ne hyd]
      rw [hcontents, List.mem_append, List.mem_singleton] at hy
      exact h.queues.served y (hy.resolve_right hyd)
  · have hne : r'.d0 ≠ r.d0 := by
      intro heq
      rw [h.eq_of_head hr hc heq, hdisk] at hset
      cases hset
    dsimp only
    rw [update_of_ne hne]

/-- A served request is done. After an error the caller goes on waiting. -/
theorem VirtioInv.phase_served (h : VirtioInv failed s) (hd : r.d0 ∈ s.fetched)
    (hr : s.requests b = some r) (hcall : t.call = s.call) (havail : t.avail = s.avail)
    (hfetched : t.fetched = s.fetched.erase r.d0)
    (hinfo : t.info = update s.info r.d0 { s.info r.d0 with status := status }) :
    t.abs.phase = if status = 0 then update s.abs.phase b .done else s.abs.phase := by
  have hbefore : ¬ s.Transferred r.d0 := fun htr ↦ htr.1 (List.mem_append_right _ hd)
  have hafter : t.Transferred r.d0 ↔ status = 0 := by
    rw [VirtioDisk.Transferred, VirtioDisk.unserved, havail, hfetched, hinfo, update_self]
    exact and_iff_right (h.fetched_nodup hd).1
  have hreqs : t.requests = s.requests := by
    funext c
    rw [VirtioDisk.requests, hcall, VirtioDisk.requests]
  -- The other requests are where they were.
  have hall : t.abs.phase = update s.abs.phase b ((s.call b).phase t) := by
    refine phase_update _ (by rw [hcall, update_eq_self]) fun c hc r' hr' ↦ ?_
    have hne : r'.d0 ≠ r.d0 := fun heq ↦ hc (h.eq_of_head hr hr' heq)
    rw [VirtioDisk.Transferred, VirtioDisk.Transferred, VirtioDisk.unserved, VirtioDisk.unserved,
      havail, hfetched, hinfo, update_of_ne hne, List.mem_append, List.mem_append,
      List.mem_erase_of_ne hne]
  have hself : (s.call b).phase t = t.abs.phase b := by rw [VirtioDisk.abs, hcall]
  rw [hall, hself]
  split_ifs with hzero
  · rw [VirtioDisk.phase_done (hreqs ▸ hr) (hafter.mpr hzero)]
  · rw [VirtioDisk.phase_pending (hreqs ▸ hr) (mt hafter.mp hzero), update_eq_self_iff,
      VirtioDisk.phase_pending hr hbefore]

theorem VirtioInv.abs_perform (h : VirtioInv failed s) (hd : r.d0 ∈ s.fetched)
    (hr : s.requests b = some r) (status : ℕ) (x : β) :
    (Xv6.perform r.d0 status x s).abs =
      let block :=
        if status ≠ 0 then x else if r.write then s.abs.data b else s.abs.store (sectorOf r.blockno)
      { store := if r.write then update s.abs.store (sectorOf r.blockno) block else s.abs.store
        data := if r.write then s.abs.data else update s.abs.data b block
        phase := if status = 0 then update s.abs.phase b .done else s.abs.phase } := by
  rw [perform_eq (h.descs.formatted b r hr)]
  exact congrArg (AtomicStore.mk _ _) (h.phase_served hd hr rfl rfl rfl rfl)

/-- The device serves a request, and this is the transfer, unless it reports an error. -/
theorem VirtioInv.perform (h : VirtioInv failed s) (hd : d ∈ s.fetched) (status : ℕ) (x : β)
    (hfailed : status ≠ 0 → failed) :
    Serves failed (.perform d status x) s (perform d status x s) := by
  obtain ⟨b, r, hr, rfl, hdisk⟩ := h.queues.owner d (mem_queued_of_fetched hd)
  refine ⟨h.inv_perform hr hdisk hd status x hfailed, .inr ?_⟩
  have hpending : s.abs.phase b = .pending r.write (sectorOf r.blockno) :=
    VirtioDisk.phase_pending hr fun htr ↦ htr.1 (List.mem_append_right _ hd)
  rw [h.abs_perform hd hr]
  by_cases hzero : status = 0
  · left
    cases hw : r.write with
    | true => simpa [hzero] using AtomicStore.Step.writes b (sectorOf r.blockno) (hw ▸ hpending)
    | false => simpa [hzero] using AtomicStore.Step.reads b (sectorOf r.blockno) (hw ▸ hpending)
  · refine .inr ⟨hzero, ?_⟩
    cases hw : r.write with
    | true => simpa [hzero] using AtomicStore.Failure.writes b _ x (hw ▸ hpending)
    | false => simpa [hzero] using AtomicStore.Failure.reads b _ x (hw ▸ hpending)

/-- What the device has put into `used` is a request, and its caller waits. -/
theorem VirtioInv.intrTurn_eq (h : VirtioInv failed s) (hne : s.used.nread ≠ s.used.nwrite)
    (hstatus : (s.info s.used.front).status = 0) :
    ∃ b r, s.requests b = some r ∧ r.d0 = s.used.front ∧
      Xv6.intrTurn s = { s with disk := update s.disk b false,
                                chan := wake (.buf b) s.chan, used := s.used.pop } := by
  have hfront : s.used.front ∈ s.used.contents := contents_pos hne ▸ List.mem_cons_self
  obtain ⟨b, r, hr, hhead, -⟩ := h.queues.owner _ (List.mem_append_right s.unserved hfront)
  refine ⟨b, r, hr, hhead, ?_⟩
  rw [Xv6.intrTurn, if_neg (by simp [hstatus]), ← hhead, (h.descs.formatted b r hr).info]

/-- The interrupt handler tells a caller that its request has been served, or panics. -/
theorem VirtioInv.intrTurn (h : VirtioInv failed s) (hne : s.used.nread ≠ s.used.nwrite) :
    Serves failed e s (intrTurn s) := by
  have hcontents := contents_pos hne
  by_cases hstatus : (s.info s.used.front).status = 0
  swap
  · have hfailed : failed :=
      (h.queues.served _ (hcontents ▸ List.mem_cons_self)).resolve_left hstatus
    rw [Xv6.intrTurn, if_pos hstatus]
    exact h.quiet rfl rfl (fun _ _ ↦ rfl) rfl rfl rfl rfl rfl rfl rfl rfl (.inr ⟨rfl, hfailed⟩) rfl
  obtain ⟨b, r, hr, hhead, hintr⟩ := h.intrTurn_eq hne hstatus
  have hperm : s.queued.Perm (r.d0 :: (s.unserved ++ s.used.pop.contents)) := by
    rw [VirtioDisk.queued, hcontents, hhead]
    exact List.perm_middle
  obtain ⟨hnot, hnodup⟩ := List.nodup_cons.mp (hperm.nodup_iff.mp h.queues.nodup)
  rw [hintr]
  refine ⟨⟨h.descs.same rfl rfl (fun _ _ ↦ rfl) rfl fun _ ↦ rfl,
    ⟨hnodup, fun d hd ↦ ?_, fun c r' hc hset ↦ ?_, fun d hd ↦ ?_, fun c r' hc hset ↦ ?_⟩, h.panic,
    h.fault⟩, .inl (VirtioDisk.abs_eq rfl rfl fun c ↦ DiskCall.phase_congr fun _ _ ↦ Iff.rfl)⟩
  · have hd' : d ∈ s.unserved ++ s.used.pop.contents := hd
    obtain ⟨c, r', hc, rfl, hset⟩ :=
      h.queues.owner d (hperm.mem_iff.mpr (List.mem_cons_of_mem _ hd'))
    refine ⟨c, r', hc, rfl, (update_of_ne ?_ _ _).trans hset⟩
    rintro rfl
    cases hr.symm.trans hc
    exact hnot hd'
  · obtain ⟨-, ⟨⟩⟩ | ⟨hcb, hset⟩ := update_cases hset
    exact (List.mem_cons.mp (hperm.mem_iff.mp (h.queues.pending c r' hc hset))).resolve_left
      fun heq ↦ hcb (h.eq_of_head hr hc heq)
  · exact h.queues.served d (hcontents ▸ List.mem_cons_of_mem _ hd)
  · obtain ⟨rfl, -⟩ | ⟨-, hset⟩ := update_cases hset
    · cases hr.symm.trans hc
      exact hhead ▸ hstatus
    · exact h.queues.returned c r' hc hset

omit [DecidableEq ι] in
theorem updateChain_spec (f : ℕ → α) (x y z : α) (hnodup : [d0, d1, d2].Nodup) :
    updateChain f d0 d1 d2 x y z d0 = x ∧ updateChain f d0 d1 d2 x y z d1 = y ∧
      updateChain f d0 d1 d2 x y z d2 = z ∧
      ∀ d ∉ [d0, d1, d2], updateChain f d0 d1 d2 x y z d = f d := by
  simp only [List.nodup_cons, List.mem_cons, List.not_mem_nil, or_false, not_or, not_false_eq_true,
    List.nodup_nil, and_true] at hnodup
  obtain ⟨⟨h01, h02⟩, h12⟩ := hnodup
  unfold updateChain
  refine ⟨?_, ?_, update_self .., fun d hd ↦ ?_⟩
  · rw [update_of_ne h02, update_of_ne h01, update_self]
  · rw [update_of_ne h12, update_self]
  · simp only [List.mem_cons, List.not_mem_nil, or_false, not_or] at hd
    rw [update_of_ne hd.2.2, update_of_ne hd.2.1, update_of_ne hd.1]

/-- A new request gets descriptors of its own, and room in the ring. -/
theorem VirtioInv.submit (h : VirtioInv failed s) (hcall : s.call b = .allocating r.write r.blockno)
    (hnodup : r.descs.Nodup) (hdescs : ∀ d ∈ r.descs, s.free d = true ∧ d < numDesc)
    (hfree : free = updateChain s.free r.d0 r.d1 r.d2 false false false)
    (chan : ι → Option (DiskChan ι)) :
    Serves failed e s
      { submit b r.write r.blockno r.d0 r.d1 r.d2 { s with free := free } with chan := chan } := by
  have hnone : s.requests b = none := by rw [VirtioDisk.requests, hcall, DiskCall.request]; simp
  have hkept {d : ℕ} (hd : s.free d = false) : d ∉ r.descs := by
    intro hmem
    rw [(hdescs d hmem).1] at hd
    cases hd
  have hfresh (c : ι) (r' : DiskRequest) (hc : s.requests c = some r') : r'.d0 ≠ r.d0 :=
    fun heq ↦ hkept (h.descs.not_free hc r'.head_mem) (heq ▸ r.head_mem)
  have hnew : r.d0 ∉ s.queued := by
    intro hmem
    obtain ⟨c, r', hc, heq, -⟩ := h.queues.owner r.d0 hmem
    exact hfresh c r' hc heq
  have hcontents : (s.avail.push r.d0).contents = s.avail.contents ++ [r.d0] := by
    have hsub : s.avail.contents ⊆ s.queued :=
      fun x hx ↦ List.mem_append_left _ (List.mem_append_left _ hx)
    have hnodup' : s.avail.contents.Nodup :=
      (List.nodup_append.mp (List.nodup_append.mp h.queues.nodup).1).1
    refine contents_push_of_nodup (List.nodup_cons.mpr ⟨fun hx ↦ hnew (hsub hx), hnodup'⟩)
      fun x hx ↦ ?_
    rcases List.mem_cons.mp hx with rfl | hx
    · exact (hdescs _ r.head_mem).2
    · exact h.lt (hsub hx)
  have hunserved : ((s.avail.push r.d0).contents ++ s.fetched).Perm (r.d0 :: s.unserved) := by
    rw [hcontents, List.append_assoc]
    exact List.perm_middle
  have hinfo {d : ℕ} (hd : d ≠ r.d0) : update s.info r.d0 ⟨some b, 0xff⟩ d = s.info d :=
    update_of_ne hd ..
  have hreqs := requests_of_update (s := s) (.waiting r.write r.blockno r.d0 r.d1 r.d2)
    (t := { Xv6.submit b r.write r.blockno r.d0 r.d1 r.d2 { s with free := free } with
      chan := chan }) rfl
  refine ⟨⟨h.descs.add hnone hreqs ?_ (fun d hd ↦ (hdescs d hd).1) (fun d ↦ ?_) fun d hd ↦ ?_,
    h.queues.add hnone hreqs rfl (hunserved.append_right _) hnew rfl
      (fun d hd ↦ congrArg BlkInfo.status (hinfo hd)) hfresh, h.panic, h.fault⟩,
    .inl (congrArg (AtomicStore.mk s.sectors s.data) ?_)⟩
  · obtain ⟨hdesc0, hdesc1, hdesc2, -⟩ := updateChain_spec s.desc
      ⟨.request r.d0, 16, true, false, r.d1⟩ ⟨.data b, bsize, true, !r.write, r.d2⟩
      ⟨.status r.d0, 1, false, true, 0⟩ hnodup
    exact ⟨hnodup, fun d hd ↦ (hdescs d hd).2, hdesc0, hdesc1, hdesc2, update_self ..,
      congrArg BlkInfo.b (update_self r.d0 _ s.info)⟩
  · show free d = true ↔ _
    rw [hfree]
    constructor
    · intro hd
      obtain ⟨hd2, hd⟩ := update_false_eq_true hd
      obtain ⟨hd1, hd⟩ := update_false_eq_true hd
      obtain ⟨hd0, hd⟩ := update_false_eq_true hd
      exact ⟨hd, by simp [DiskRequest.descs, hd0, hd1, hd2]⟩
    · rintro ⟨hd, hnot⟩
      rw [(updateChain_spec _ _ _ _ hnodup).2.2.2 d hnot, hd]
  · have hd0 : d ≠ r.d0 := fun heq ↦ hkept hd (heq ▸ r.head_mem)
    exact ⟨(updateChain_spec _ _ _ _ hnodup).2.2.2 d (hkept hd), update_of_ne hd0 ..,
      congrArg BlkInfo.b (hinfo hd0)⟩
  · refine (phase_update (s := s) _ rfl fun c _ r' hc ↦ ?_).trans (update_eq_self_iff.mpr ?_)
    · have hmem : r'.d0 ∈ (s.avail.push r.d0).contents ++ s.fetched ↔ r'.d0 ∈ s.unserved := by
        rw [hunserved.mem_iff, List.mem_cons, or_iff_right (hfresh c r' hc)]
      exact and_congr (not_congr hmem) (by rw [← hinfo (hfresh c r' hc)]; rfl)
    · show _ = (s.call b).phase s
      rw [hcall]
      exact if_neg fun htr ↦ htr.1 (hunserved.mem_iff.mpr List.mem_cons_self)

/-- A caller gives back its three descriptors. -/
theorem VirtioInv.freeChain_eq (h : VirtioInv failed s) (hpanic : s.panic = none)
    (hr : s.requests b = some r) (chan : ι → Option (DiskChan ι)) :
    freeChain r.d0
      { s with info := update s.info r.d0 { s.info r.d0 with b := none },
               call := update s.call b .idle, chan := chan } =
    { s with
      info := update s.info r.d0 { s.info r.d0 with b := none }
      call := update s.call b .idle
      desc := updateChain s.desc r.d0 r.d1 r.d2 .zero .zero .zero
      free := updateChain s.free r.d0 r.d1 r.d2 true true true
      chan := wake .free chan } := by
  have hf := h.descs.formatted b r hr
  refine Xv6.freeChain_eq hpanic hf.nodup (fun d hd ↦ ⟨h.descs.not_free hr hd, hf.lt d hd⟩) ?_ ?_ ?_
  · simp only [hf.desc0, and_self]
  · simp only [hf.desc1, and_self]
  · simp only [hf.desc2]

/-- A call returns after its transfer, and gives its descriptors back. -/
theorem VirtioInv.returns (h : VirtioInv failed s) (hpanic : s.panic = none)
    (hr : s.requests b = some r) (hdisk : s.disk b = false) (chan : ι → Option (DiskChan ι)) :
    Serves failed e s (freeChain r.d0
      { s with info := update s.info r.d0 { s.info r.d0 with b := none },
               call := update s.call b .idle, chan := chan }) := by
  have hf := h.descs.formatted b r hr
  have hgone : r.d0 ∉ s.queued := by
    intro hmem
    cases hdisk.symm.trans (h.disk_of_mem hr hmem)
  have hstatus (d : ℕ) : (update s.info r.d0 { s.info r.d0 with b := none } d).status =
      (s.info d).status := by
    by_cases hd : d = r.d0
    · rw [hd, update_self]
    · rw [update_of_ne hd]
  rw [h.freeChain_eq hpanic hr chan]
  refine ⟨⟨h.descs.remove hr (requests_of_update .idle rfl) (fun d ↦ ?_) fun d hd ↦ ?_,
    h.queues.remove hr hgone (requests_of_update .idle rfl) rfl rfl rfl hstatus, h.panic, h.fault⟩,
    .inr (.inl ?_)⟩
  · show updateChain s.free r.d0 r.d1 r.d2 true true true d = true ↔ _
    obtain ⟨hfree0, hfree1, hfree2, hkeep⟩ := updateChain_spec s.free true true true hf.nodup
    by_cases hd : d ∈ r.descs
    · refine ⟨fun _ ↦ .inr hd, fun _ ↦ ?_⟩
      simp only [DiskRequest.descs, List.mem_cons, List.not_mem_nil, or_false] at hd
      rcases hd with rfl | rfl | rfl
      · exact hfree0
      · exact hfree1
      · exact hfree2
    · rw [hkeep d hd]
      exact ⟨.inl, fun hfree ↦ hfree.resolve_right hd⟩
  · have hd0 : d ≠ r.d0 := fun heq ↦ hd (heq ▸ r.head_mem)
    exact ⟨(updateChain_spec _ _ _ _ hf.nodup).2.2.2 d hd, rfl,
      congrArg BlkInfo.b (update_of_ne hd0 ..)⟩
  · have htransferred : s.Transferred r.d0 :=
      ⟨fun hmem ↦ hgone (List.mem_append_left _ hmem), h.queues.returned b r hr hdisk⟩
    have hstep := AtomicStore.Step.returns b (VirtioDisk.phase_done hr htransferred)
    convert hstep using 1
    refine congrArg (AtomicStore.mk s.sectors s.data) (phase_update .idle rfl fun c _ r' _ ↦ ?_)
    exact and_congr Iff.rfl (by rw [← hstatus r'.d0])

end Atomic

/-! ### Whole runs -/

section Runs

variable [DecidableEq ι] {failed : Prop} {s t u : VirtioDisk ι β} {e : VirtioEvent ι β} {b : ι}
  {c : DiskChan ι} {sectors : ℕ → β} {data : ι → β}
  {l : List (Transition (VirtioDisk ι β) (VirtioEvent ι β))}

/-- What an event does, by the outcomes of the two loops of `virtio_disk_rw`. -/
inductive VirtioMove (s : VirtioDisk ι β) : VirtioEvent ι β → VirtioDisk ι β → Prop
  | fills (b : ι) (x : β) (hcall : s.call b = .idle) :
    VirtioMove s (.fill b x) { s with data := update s.data b x }
  | calls (b : ι) (write : Bool) (blockno : ℕ) (hcall : s.call b = .idle) :
    VirtioMove s (.rw b write blockno)
      { s with call := update s.call b (.allocating write blockno) }
  | submits (b : ι) (r : DiskRequest) (t : VirtioDisk ι β)
    (hcall : s.call b = .allocating r.write r.blockno)
    (halloc : alloc3Desc s = (some (r.d0, r.d1, r.d2), t)) :
    VirtioMove s (.allocTurn b)
      { submit b r.write r.blockno r.d0 r.d1 r.d2 t with chan := unregister b t.chan }
  | waitsFree (b : ι) (write : Bool) (blockno : ℕ) (t : VirtioDisk ι β)
    (hcall : s.call b = .allocating write blockno) (halloc : alloc3Desc s = (none, t)) :
    VirtioMove s (.allocTurn b) { t with chan := register b .free t.chan }
  | waitsBuf (b : ι) (r : DiskRequest) (hr : s.requests b = some r) (hdisk : s.disk b = true) :
    VirtioMove s (.waitTurn b) { s with chan := register b (.buf b) s.chan }
  | returns (b : ι) (r : DiskRequest) (hpanic : s.panic = none) (hr : s.requests b = some r)
    (hdisk : s.disk b = false) :
    VirtioMove s (.waitTurn b) (freeChain r.d0
      { s with info := update s.info r.d0 { s.info r.d0 with b := none },
               call := update s.call b .idle, chan := unregister b s.chan })
  | intr (hne : s.used.nread ≠ s.used.nwrite) : VirtioMove s .intrTurn (intrTurn s)
  | fetches (hne : s.avail.nread ≠ s.avail.nwrite) :
    VirtioMove s .fetch { s with avail := s.avail.pop, fetched := s.avail.front :: s.fetched }
  | performs (head status : ℕ) (x : β) (hmem : head ∈ s.fetched) :
    VirtioMove s (.perform head status x) (perform head status x s)

theorem virtioMove_of_virtioStep (h : virtioStep s e = some t) : VirtioMove s e t := by
  unfold virtioStep at h
  obtain ⟨halive, h⟩ := Option.ite_none_left_eq_some.mp h
  have hpanic : s.panic = none := not_not.mp (not_or.mp halive).1
  cases e with
  | fill b x =>
    obtain ⟨hcall, ⟨⟩⟩ := Option.ite_none_right_eq_some.mp h
    exact .fills b x hcall
  | rw b write blockno =>
    obtain ⟨hcall, ⟨⟩⟩ := Option.ite_none_right_eq_some.mp h
    exact .calls b write blockno hcall
  | allocTurn b =>
    dsimp only at h
    cases hcall : s.call b with
    | allocating write blockno =>
      rw [hcall] at h
      cases h
      cases halloc : alloc3Desc s with
      | mk idx r =>
        rw [allocTurn, halloc]
        cases idx with
        | none => exact .waitsFree b write blockno r hcall halloc
        | some d => exact .submits b ⟨write, blockno, d.1, d.2.1, d.2.2⟩ r hcall halloc
    | idle => simp [hcall] at h
    | waiting => simp [hcall] at h
  | waitTurn b =>
    dsimp only at h
    cases hcall : s.call b with
    | waiting write blockno d0 d1 d2 =>
      rw [hcall] at h
      cases h
      have hr : s.requests b = some ⟨write, blockno, d0, d1, d2⟩ := requests_eq_some.mpr hcall
      rw [waitTurn]
      split_ifs with hdisk
      · exact .waitsBuf b _ hr hdisk
      · exact .returns b _ hpanic hr (Bool.not_eq_true _ ▸ hdisk)
    | idle => simp [hcall] at h
    | allocating => simp [hcall] at h
  | intrTurn =>
    obtain ⟨hne, ⟨⟩⟩ := Option.ite_none_left_eq_some.mp h
    exact .intr hne
  | fetch =>
    obtain ⟨hne, ⟨⟩⟩ := Option.ite_none_left_eq_some.mp h
    exact .fetches hne
  | perform head status x =>
    obtain ⟨hmem, ⟨⟩⟩ := Option.ite_none_right_eq_some.mp h
    exact .performs head status x hmem

theorem VirtioInv.move (h : VirtioInv failed s) (hmove : VirtioMove s e t)
    (hfailed : e.ReportsError → failed) : Serves failed e s t := by
  cases hmove with
  | fills _ x hcall => exact h.fill x hcall
  | calls _ write blockno hcall => exact h.rw hcall write blockno
  | submits _ _ _ hcall halloc =>
    obtain ⟨hnodup, hdescs, rfl⟩ := alloc3Desc_some halloc
    exact h.submit hcall hnodup hdescs rfl _
  | waitsFree _ _ _ _ _ halloc =>
    have hallocFailed := alloc3Desc_none halloc
    have hdesc := hallocFailed.desc
    rw [hallocFailed.eq] at hdesc ⊢
    exact h.quiet rfl rfl hdesc rfl rfl rfl rfl rfl rfl rfl rfl (.inl rfl) rfl
  | waitsBuf =>
    exact h.quiet rfl rfl (fun _ _ ↦ rfl) rfl rfl rfl rfl rfl rfl rfl rfl (.inl rfl) rfl
  | returns _ _ hpanic hr hdisk => exact h.returns hpanic hr hdisk _
  | intr hne => exact h.intrTurn hne
  | fetches hne => exact h.fetch hne
  | performs _ status x hmem => exact h.perform hmem status x hfailed

omit [DecidableEq ι] in
theorem virtioInv_init : VirtioInv failed (virtioInit sectors data) := by
  have hempty : (⟨fun _ ↦ 0, 0#16, 0#16⟩ : RingBuffer 16 ℕ numDesc).contents = [] := rfl
  have hqueued : (virtioInit sectors data).queued = [] := by
    simp only [VirtioDisk.queued, VirtioDisk.unserved, virtioInit, hempty, List.append_nil]
  refine ⟨⟨fun b r hr ↦ ?_, fun b c r r' hr ↦ ?_, fun d ↦ ?_⟩,
    ⟨hqueued ▸ List.nodup_nil, fun d hd ↦ ?_, fun b r hr ↦ ?_, fun d hd ↦ ?_, fun b r hr ↦ ?_⟩,
    .inl rfl, rfl⟩
  · cases hr
  · cases hr
  · simp [virtioInit, VirtioDisk.requests, DiskCall.request]
  · rw [hqueued] at hd
    cases hd
  · cases hr
  · rw [virtioInit, hempty] at hd
    cases hd
  · cases hr

theorem virtioInv_path (h : Path virtioStep (virtioInit sectors data) l u)
    (hfailed : ∀ tr ∈ l, tr.event.ReportsError → failed) : VirtioInv failed u :=
  h.preserves_of (Q := fun _ e ↦ e.ReportsError → failed)
    (fun _ _ _ hstep he hs ↦ (hs.move (virtioMove_of_virtioStep hstep) he).inv) hfailed
    virtioInv_init

/-- Block 3 is written by one caller and read by another at the same time. -/
def writeAndRead : List (Transition (VirtioDisk ℕ ℕ) (VirtioEvent ℕ ℕ)) × VirtioDisk ℕ ℕ :=
  replay virtioStep (virtioInit (fun _ ↦ 0) fun _ ↦ 0)
    [.fill 0 7, .rw 0 true 3, .rw 1 false 3, .allocTurn 0, .allocTurn 1, .waitTurn 1, .fetch,
      .fetch, .perform 0 0 0, .perform 3 0 0, .intrTurn, .intrTurn, .waitTurn 1, .waitTurn 0]

-- A request that the device cannot serve.
example : (replay virtioStep (virtioInit (fun _ ↦ 0) fun _ ↦ 0 : VirtioDisk ℕ ℕ)
    [.rw 0 false 3, .allocTurn 0, .fetch, .perform 0 1 9, .intrTurn]).2.panic =
      some .intrStatus := by
  decide +kernel

/-- Why a caller goes on sleeping. -/
def DiskReason (s : VirtioDisk ι β) (b : ι) : DiskChan ι → Prop
  | .free => (∃ write blockno, s.call b = .allocating write blockno) ∧ s.freeCount < 3
  | .buf c => c = b ∧ (∃ write blockno d0 d1 d2, s.call b = .waiting write blockno d0 d1 d2) ∧
      s.disk b = true

omit [DecidableEq ι] in
theorem DiskReason.mono (h : DiskReason s b c) (hcall : t.call b = s.call b)
    (hcount : c = .free → t.freeCount ≤ s.freeCount) (hdisk : t.disk b = s.disk b) :
    DiskReason t b c := by
  cases c with
  | free =>
    obtain ⟨hin, hfew⟩ := h
    exact ⟨hcall ▸ hin, Nat.lt_of_le_of_lt (hcount rfl) hfew⟩
  | buf =>
    obtain ⟨rfl, hin, hset⟩ := h
    exact ⟨rfl, hcall ▸ hin, hdisk.trans hset⟩

omit [DecidableEq ι] in
theorem DiskReason.inside (h : DiskReason s b c) : s.call b ≠ .idle := by
  cases c with
  | free =>
    obtain ⟨⟨write, blockno, hcall⟩, -⟩ := h
    simp [hcall]
  | buf =>
    obtain ⟨-, ⟨write, blockno, d0, d1, d2, hcall⟩, -⟩ := h
    simp [hcall]

theorem diskReason_move (h : VirtioInv failed s) (hmove : VirtioMove s e t)
    (hs : Justified (DiskReason s) s.chan) : Justified (DiskReason t) t.chan := by
  cases hmove with
  | fills | fetches => exact hs.mono fun j c hj ↦ hj.mono rfl (fun _ ↦ le_rfl) rfl
  | calls _ _ _ hcall =>
    refine hs.mono fun j c hj ↦ hj.mono (update_of_ne ?_ _ _) (fun _ ↦ le_rfl) rfl
    rintro rfl
    exact hj.inside hcall
  | submits _ _ _ _ halloc =>
    obtain ⟨-, -, rfl⟩ := alloc3Desc_some halloc
    refine hs.unregister fun j c hjb hj ↦ hj.mono (update_of_ne hjb _ _) (fun _ ↦ ?_)
      (update_of_ne hjb _ _)
    refine List.countP_mono_left fun d _ hd ↦ ?_
    exact (update_false_eq_true (update_false_eq_true (update_false_eq_true hd).2).2).2
  | waitsFree _ write blockno r hcall halloc =>
    have hfailed := alloc3Desc_none halloc
    have hchan : Justified (DiskReason s) r.chan := by
      rcases hfailed.chan with hr | hr
      · rwa [hr]
      · rw [hr]
        exact hs.wake fun j c _ hj ↦ hj
    rw [hfailed.eq]
    exact hchan.register ⟨⟨write, blockno, hcall⟩, hfailed.few⟩
      fun j c _ hj ↦ hj.mono rfl (fun _ ↦ le_rfl) rfl
  | waitsBuf _ _ hr hdisk =>
    exact hs.register ⟨rfl, ⟨_, _, _, _, _, requests_eq_some.mp hr⟩, hdisk⟩
      fun j c _ hj ↦ hj.mono rfl (fun _ ↦ le_rfl) rfl
  | returns b _ hpanic hr =>
    rw [h.freeChain_eq hpanic hr]
    have hothers : Justified (fun j c ↦ j ≠ b ∧ DiskReason s j c) (unregister b s.chan) :=
      hs.unregister fun j c hjb hj ↦ ⟨hjb, hj⟩
    exact hothers.wake fun j c hc hj ↦
      hj.2.mono (update_of_ne hj.1 _ _) (fun heq ↦ absurd heq hc) rfl
  | intr hne =>
    by_cases hstatus : (s.info s.used.front).status = 0
    swap
    · rw [intrTurn, if_pos hstatus]
      exact hs.mono fun j c hj ↦ hj.mono rfl (fun _ ↦ le_rfl) rfl
    obtain ⟨b, -, -, -, hintr⟩ := h.intrTurn_eq hne hstatus
    rw [hintr]
    refine hs.wake fun j c hc hj ↦ ?_
    cases c with
    | free => exact hj
    | buf c =>
      obtain ⟨rfl, hin, hset⟩ := hj
      have hcb : c ≠ b := fun heq ↦ hc (congrArg DiskChan.buf heq)
      exact ⟨rfl, hin, (update_of_ne hcb _ _).trans hset⟩
  | performs head _ _ hmem =>
    obtain ⟨b, r, hr, rfl, -⟩ := h.queues.owner head (mem_queued_of_fetched hmem)
    rw [perform_eq (h.descs.formatted b r hr)]
    exact hs.mono fun j c hj ↦ hj.mono rfl (fun _ ↦ le_rfl) rfl

/-- Whoever sleeps in the driver waits for a descriptor while there are too few, or for its own
request while it is on its way. -/
theorem virtio_waiters (h : Path virtioStep (virtioInit sectors data) l u)
    (hchan : u.chan b = some c) : DiskReason u b c := by
  have hboth : VirtioInv True u ∧ Justified (DiskReason u) u.chan := by
    refine h.preserves (I := fun s ↦ VirtioInv True s ∧ Justified (DiskReason s) s.chan)
      (fun s e t hstep hs ↦ ?_) ⟨virtioInv_init, fun j c hj ↦ ?_⟩
    · have hmove := virtioMove_of_virtioStep hstep
      exact ⟨(hs.1.move hmove fun _ ↦ trivial).inv, diskReason_move hs.1 hmove hs.2⟩
    · cases hj
  exact hboth.2 b c hchan

/-- Two requests take six descriptors, and a third caller does not get its three. -/
def thirdCaller : List (Transition (VirtioDisk ℕ ℕ) (VirtioEvent ℕ ℕ)) × VirtioDisk ℕ ℕ :=
  replay virtioStep (virtioInit (fun _ ↦ 0) fun _ ↦ 0)
    [.rw 0 true 3, .rw 1 false 5, .rw 2 false 3, .allocTurn 0, .allocTurn 1, .waitTurn 0,
      .allocTurn 2]

theorem virtio_waiters_thirdCaller : thirdCaller.2.chan 2 = some .free ∧
    DiskReason thirdCaller.2 2 .free := by
  have hchan : thirdCaller.2.chan 2 = some .free := by decide +kernel
  exact ⟨hchan, virtio_waiters (path_replay _ _) hchan⟩

end Runs

end Irish.Xv6
