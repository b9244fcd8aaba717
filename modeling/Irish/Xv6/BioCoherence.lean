import Irish.Library.CachedStore
import Irish.Xv6.BioUse

/-!
# What a buffer holds

For one device the buffers are a cache of its blocks in the sense of `CachedStore`: `bread` reads a
block in, `bget` gives up a clean one when it recycles its buffer, `bwrite` writes back, and the
only visible change is a caller's own write to the data (`cacheMove_bioStep`). So whoever holds a
block sees what was written to it last, by whomever and through however many evictions
(`bread_coherent`).

This needs of the callers what the log does for them: a changed buffer that is released without
being written is pinned.
-/

set_option autoImplicit false

namespace Irish.Xv6

open Library
open Function (update update_eq_self update_eq_self_iff update_of_ne update_self)

variable {ι : Type*} {s : Bcache ι} {i : ι} {b : BufId} {key : BlockId} {e : BioEvent ι} {buf : Buf}
  {d : Block} {order : List BufId}

/-- A changed buffer is written or pinned before it is released, and only pinned buffers are
unpinned. -/
def keepsChanges (s : Bcache ι) : BioEvent ι → Bool
  | .brelse i =>
    match s.users i with
    | .held b _ => !s.dirty b || 0 < s.pins b
    | _ => true
  | .bunpin i =>
    match s.users i with
    | .held b _ => 0 < s.pins b
    | _ => true
  | _ => true

theorem pins_of_brelse (h : keepsChanges s (.brelse i) = true) (hi : s.users i = .held b key)
    (hdirty : s.dirty b = true) : 0 < s.pins b := by
  simpa [keepsChanges, hi, hdirty] using h

theorem unpinsPinned_of_keepsChanges (h : keepsChanges s e = true) : UnpinsPinned s e := by
  cases e with
  | bunpin =>
    intro b key hi
    simpa [keepsChanges, hi] using h
  | _ => trivial

/-! ### Changed buffers -/

/-- The block of a buffer and its data, if they are valid. -/
def Buf.content (b : Buf) : BlockId × Option Block := (b.key, if b.valid then some b.data else none)

structure BioData (s : Bcache ι) : Prop where
  clean : ∀ b k d, (s.bufs b).content = (k, some d) → k.1 ≠ 0 → s.dirty b = false → d = s.disk k
  valid : ∀ b, s.dirty b = true → (s.bufs b).valid = true
  kept : ∀ b, s.dirty b = true → 0 < s.pins b ∨ ∃ i key, s.users i = .held b key
  held : ∀ i b key, s.users i = .held b key → (s.bufs b).valid = true

theorem bioData_binit (disk : BlockId → Block) : BioData (binit disk : Bcache ι) :=
  ⟨fun b k d h ↦ (by cases h), fun b h ↦ (by cases h), fun b h ↦ (by cases h),
    fun i b key h ↦ (by cases h)⟩

section Data

variable {pid : ι → ℕ} {t u : Bcache ι} {k : BlockId}

theorem content_eq : buf.content = (k, some d) ↔ buf.key = k ∧ buf.valid = true ∧ buf.data = d := by
  rw [Buf.content, Prod.mk.injEq]
  cases buf.valid with
  | true | false => simp

/-- A buffer without references has nothing that is not on the disk. -/
theorem BioData.not_dirty [Fintype ι] (h : BioData s) (hrefs : BioRefs s)
    (hb : (s.bufs b).refcnt = 0) : s.dirty b = false := by
  by_contra hne
  rw [Bool.not_eq_false] at hne
  have hcount := hrefs.refcnt b
  rcases h.kept b hne with hpins | ⟨i, key, hi⟩
  · omega
  · exact hrefs.ref_ne hb i key (congrArg BufUse.ref hi)

/-- The caller that has a buffer pins or unpins it. -/
theorem BioData.repin (h : BioData s) (huser : s.users i = .held b key) (husers : t.users = s.users)
    (hcontent : ∀ c, (t.bufs c).content = (s.bufs c).content)
    (hvalid : ∀ c, (t.bufs c).valid = (s.bufs c).valid) (hdisk : t.disk = s.disk)
    (hpins : ∀ c, c ≠ b → t.pins c = s.pins c) (hdirty : t.dirty = s.dirty) : BioData t := by
  refine ⟨fun c k d hc hk hclean ↦ ?_, fun c hc ↦ ?_, fun c hc ↦ ?_, fun j c k hj ↦ ?_⟩
  · rw [hdisk]
    exact h.clean c k d (hcontent c ▸ hc) hk (hdirty ▸ hclean)
  · rw [hvalid]
    exact h.valid c (hdirty ▸ hc)
  · rw [husers]
    by_cases hcb : c = b
    · rw [hcb]
      exact .inr ⟨i, key, huser⟩
    · rw [hpins c hcb]
      exact h.kept c (hdirty ▸ hc)
  · rw [hvalid]
    exact h.held j c k (husers ▸ hj)

variable [DecidableEq ι] {use : BufUse}

/-- A caller without a buffer in its hands goes on, and the data stays. -/
theorem BioData.same (h : BioData s) {use : BufUse} (husers : t.users = update s.users i use)
    (hbefore : ∀ b key, s.users i ≠ .held b key)
    (hafter : ∀ b key, use = .held b key → (s.bufs b).valid = true)
    (hcontent : ∀ b, (t.bufs b).content = (s.bufs b).content)
    (hvalid : ∀ b, (t.bufs b).valid = (s.bufs b).valid) (hdisk : t.disk = s.disk)
    (hpins : t.pins = s.pins) (hdirty : t.dirty = s.dirty) : BioData t := by
  refine ⟨fun b k d hb hk hclean ↦ ?_, fun b hb ↦ ?_, fun b hb ↦ ?_, fun j b key hj ↦ ?_⟩
  · rw [hdisk]
    exact h.clean b k d (hcontent b ▸ hb) hk (hdirty ▸ hclean)
  · rw [hvalid]
    exact h.valid b (hdirty ▸ hb)
  · rw [hpins, husers]
    refine (h.kept b (hdirty ▸ hb)).imp_right fun ⟨j, key, hj⟩ ↦ ⟨j, key, ?_⟩
    have hji : j ≠ i := fun hji ↦ hbefore b key (hji ▸ hj)
    rw [update_of_ne hji, hj]
  · rw [hvalid]
    rw [husers] at hj
    rcases update_cases hj with ⟨-, huse⟩ | ⟨-, hj⟩
    · exact hafter b key huse
    · exact h.held j b key hj

/-- One buffer changes what it holds. -/
theorem BioData.refill (h : BioData s) {n : Bool} (husers : t.users = update s.users i use)
    (hbufs : ∀ c, c ≠ b → t.bufs c = s.bufs c) (hpins : ∀ c, c ≠ b → t.pins c = s.pins c)
    (hdirty : t.dirty = update s.dirty b n)
    (hdisk : ∀ c k, c ≠ b → (s.bufs c).key = k → k.1 ≠ 0 → t.disk k = s.disk k)
    (hothers : ∀ c key, c ≠ b → (s.users i = .held c key ↔ use = .held c key))
    (hclean : n = false → ∀ k d, (t.bufs b).content = (k, some d) → k.1 ≠ 0 → d = t.disk k)
    (hvalid : n = true → (t.bufs b).valid = true)
    (hkept : n = true → 0 < t.pins b ∨ ∃ i key, t.users i = .held b key)
    (hheld : ∀ j key, t.users j = .held b key → (t.bufs b).valid = true) : BioData t := by
  refine ⟨fun c k d hc hk hclean' ↦ ?_, fun c hc ↦ ?_, fun c hc ↦ ?_, fun j c key hj ↦ ?_⟩
  · rw [hdirty] at hclean'
    rcases update_cases hclean' with ⟨rfl, hn⟩ | ⟨hcb, hclean'⟩
    · exact hclean hn k d hc hk
    · rw [hbufs c hcb] at hc
      rw [hdisk c k hcb (content_eq.mp hc).1 hk]
      exact h.clean c k d hc hk hclean'
  · rw [hdirty] at hc
    rcases update_cases hc with ⟨rfl, hn⟩ | ⟨hcb, hc⟩
    · exact hvalid hn
    · rw [hbufs c hcb]
      exact h.valid c hc
  · rw [hdirty] at hc
    rcases update_cases hc with ⟨rfl, hn⟩ | ⟨hcb, hc⟩
    · exact hkept hn
    · rw [hpins c hcb, husers]
      refine (h.kept c hc).imp_right fun ⟨j, key, hj⟩ ↦ ⟨j, key, ?_⟩
      by_cases hji : j = i
      · rw [hji, update_self]
        exact (hothers c key hcb).mp (hji ▸ hj)
      · rw [update_of_ne hji, hj]
  · by_cases hcb : c = b
    · rw [hcb] at hj ⊢
      exact hheld j key hj
    · rw [hbufs c hcb]
      rw [husers] at hj
      rcases update_cases hj with ⟨-, huse⟩ | ⟨-, hj⟩
      · exact h.held i c key ((hothers c key hcb).mpr huse)
      · exact h.held j c key hj

theorem bioData_step [Fintype ι] (h : bioStep pid s e = some t) (hring : BioRing s.links order)
    (hrefs : BioRefs s) (hkeeps : keepsChanges s e = true) (hs : BioData s) : BioData t := by
  cases bioMove_of_bioStep h with
  | hits _ _ _ huser | acquires _ _ _ huser | dropsLast _ _ _ huser | drops _ _ _ huser =>
    refine hs.same rfl ?_ ?_ (update_field Buf.content rfl) (update_field Buf.valid rfl) rfl rfl rfl
    · simp [huser]
    · simp
  | recycles i _ b huser _ hunused =>
    have hfree := hring.unused_some hunused
    have hclean := hs.not_dirty hrefs hfree
    refine hs.refill (b := b) (n := false) rfl (fun c hc ↦ update_of_ne hc _ _)
      (fun _ _ ↦ rfl) ?_ (fun _ _ _ _ _ ↦ rfl) ?_ ?_ ?_ ?_ ?_
    · exact (update_eq_self_iff.mpr hclean.symm).symm
    · simp [huser]
    · intro _ k d hcontent
      simp [Bcache.setBuf, Buf.content] at hcontent
    · simp
    · simp
    · intro j k hj
      have hji : j ≠ i := by
        rintro rfl
        simp at hj
      simp only [update_of_ne hji] at hj
      exact absurd (congrArg BufUse.ref hj) (hrefs.ref_ne hfree j k)
  | runsOut | waits | writePanics | releasePanics => exact ⟨hs.clean, hs.valid, hs.kept, hs.held⟩
  | hasData _ _ _ huser hvalid =>
    refine hs.same rfl ?_ ?_ (fun _ ↦ rfl) (fun _ ↦ rfl) rfl rfl rfl
    · simp [huser]
    · intro c k hc
      cases hc
      exact hvalid
  | loads _ b key huser hvalid =>
    have hclean : s.dirty b = false := by
      by_contra hne
      rw [hs.valid b (Bool.not_eq_false _ ▸ hne)] at hvalid
      cases hvalid
    refine hs.refill (b := b) (n := false) rfl (fun c hc ↦ update_of_ne hc _ _)
      (fun _ _ ↦ rfl) ?_ (fun _ _ _ _ _ ↦ rfl) ?_ ?_ ?_ ?_ ?_
    · exact (update_eq_self_iff.mpr hclean.symm).symm
    · intro c k hc
      simp [huser, Ne.symm hc]
    · intro _ k d hcontent _
      obtain ⟨rfl, -, rfl⟩ := content_eq.mp hcontent
      simp [Bcache.setBuf, Buf.key]
    · simp
    · simp
    · intro j k hj
      simp [Bcache.setBuf]
  | modifies i b key _ huser =>
    refine hs.refill (i := i) (b := b) (n := true) (update_eq_self i s.users).symm
      (fun c hc ↦ update_of_ne hc _ _) (fun _ _ ↦ rfl) rfl (fun _ _ _ _ _ ↦ rfl)
      (fun _ _ _ ↦ Iff.rfl) ?_ ?_ ?_ ?_
    · simp
    · intro _
      simpa [Bcache.setBuf] using hs.held i b key huser
    · intro _
      exact .inr ⟨i, key, huser⟩
    · intro j k hj
      simpa [Bcache.setBuf] using hs.held i b key huser
  | writes i b =>
    refine hs.refill (i := i) (b := b) (n := false) (update_eq_self i s.users).symm
      (fun _ _ ↦ rfl) (fun _ _ ↦ rfl) rfl ?_ (fun _ _ _ ↦ Iff.rfl) ?_ ?_ ?_ ?_
    · intro c k hc hk hdev
      refine update_of_ne (fun hsame ↦ hc ?_) _ _
      rw [← hk] at hdev
      exact hrefs.unique c b hdev (hk.trans hsame)
    · intro _ k d hcontent _
      obtain ⟨rfl, -, rfl⟩ := content_eq.mp hcontent
      simp only [update_self]
    · simp
    · simp
    · exact fun j k hj ↦ hs.held j b k hj
  | releases i b key huser =>
    refine hs.refill (b := b) (n := s.dirty b) rfl (fun c hc ↦ update_of_ne hc _ _)
      (fun _ _ ↦ rfl) (update_eq_self b s.dirty).symm (fun _ _ _ _ _ ↦ rfl) ?_ ?_ ?_ ?_ ?_
    · intro c k hc
      simp [huser, Ne.symm hc]
    · intro hn k d hcontent hk
      exact hs.clean b k d (by simpa [Bcache.setBuf, Buf.content, Buf.key] using hcontent) hk hn
    · intro hn
      simpa [Bcache.setBuf] using hs.held i b key huser
    · intro hn
      have hpins : 0 < s.pins b := pins_of_brelse hkeeps huser hn
      exact .inl hpins
    · intro j k hj
      simpa [Bcache.setBuf] using hs.held i b key huser
  | pins _ _ _ huser | unpins _ _ _ huser =>
    exact hs.repin huser rfl (update_field Buf.content rfl) (update_field Buf.valid rfl) rfl
      (fun c hc ↦ update_of_ne hc _ _) rfl

end Data

/-! ### The blocks of a device -/

/-- The data that the buffers have of a block. -/
def Bcache.cacheOf (s : Bcache ι) (dev blockno : ℕ) : Option Block :=
  (List.finRange nbuf).findSome? fun b ↦
    if (s.bufs b).key = (dev, blockno) then (s.bufs b).content.2 else none

/-- The disk and the buffers as far as they concern one device. -/
def Bcache.device (s : Bcache ι) (dev : ℕ) : CachedStore ℕ Block :=
  { disk := fun n ↦ s.disk (dev, n), cache := s.cacheOf dev }

/-- What a step writes to the blocks of a device. -/
def bioWrite (dev : ℕ) (tr : Transition (Bcache ι) (BioEvent ι)) : Option (ℕ × Block) :=
  match tr.event with
  | .modify i data =>
    match tr.source.users i with
    | .held _ key => if key.1 = dev then some (key.2, data) else none
    | _ => none
  | _ => none

section Device

variable {pid : ι → ℕ} {t u : Bcache ι} {dev n : ℕ} {cache : ℕ → Option Block} {c : Option Block}

theorem cacheOf_eq_some [Fintype ι] (hrefs : BioRefs s) (hdev : dev ≠ 0) :
    s.cacheOf dev n = some d ↔ ∃ b, (s.bufs b).content = ((dev, n), some d) := by
  have hfound : ∀ {d'}, s.cacheOf dev n = some d' →
      ∃ b, (s.bufs b).content = ((dev, n), some d') := by
    intro d' h
    obtain ⟨b, -, hb⟩ := List.exists_of_findSome?_eq_some h
    by_cases hkey : (s.bufs b).key = (dev, n)
    · rw [if_pos hkey] at hb
      exact ⟨b, Prod.ext hkey hb⟩
    · rw [if_neg hkey] at hb
      cases hb
  refine ⟨hfound, fun ⟨b, hb⟩ ↦ ?_⟩
  cases hcache : s.cacheOf dev n with
  | none =>
    have hnone := List.findSome?_eq_none_iff.mp hcache b (List.mem_finRange b)
    rw [if_pos (content_eq.mp hb).1, hb] at hnone
    cases hnone
  | some =>
    obtain ⟨c, hc⟩ := hfound hcache
    have hbc : b = c := by
      refine hrefs.unique b c ?_ ((content_eq.mp hb).1.trans (content_eq.mp hc).1.symm)
      rwa [show (s.bufs b).dev = dev from congrArg Prod.fst (content_eq.mp hb).1]
    rw [hbc, hc] at hb
    exact (Prod.mk.inj hb).2

/-- The cache of a device by what its buffers hold. -/
theorem cacheOf_ext [Fintype ι] (hrefs : BioRefs t) (hdev : dev ≠ 0)
    (h : ∀ n d, (∃ b, (t.bufs b).content = ((dev, n), some d)) ↔ cache n = some d) :
    t.cacheOf dev = cache := by
  funext n
  ext d
  exact (cacheOf_eq_some hrefs hdev).trans (h n d)

theorem device_congr (hdisk : t.disk = s.disk)
    (hcontent : ∀ b, (t.bufs b).content = (s.bufs b).content) : t.device dev = s.device dev := by
  have hkeys : ∀ b, (t.bufs b).key = (s.bufs b).key := fun b ↦ congrArg Prod.fst (hcontent b)
  have hcache : t.cacheOf dev = s.cacheOf dev := by
    funext n
    simp only [Bcache.cacheOf, hkeys, hcontent]
  rw [Bcache.device, Bcache.device, hdisk, hcache]

/-- The buffer of a block gets other contents. -/
theorem cacheOf_update [Fintype ι] (hrefs : BioRefs s) (hrefs' : BioRefs t) (hdev : dev ≠ 0)
    (hbufs : ∀ a, a ≠ b → t.bufs a = s.bufs a) (hbefore : (s.bufs b).key = (dev, n))
    (hafter : ∀ m d, (t.bufs b).content = ((dev, m), some d) ↔ m = n ∧ c = some d) :
    t.cacheOf dev = update (s.cacheOf dev) n c := by
  refine cacheOf_ext hrefs' hdev fun m d ↦ ?_
  by_cases hm : m = n
  · rw [hm, update_self]
    refine ⟨fun ⟨a, ha⟩ ↦ ?_, fun hnew ↦ ⟨b, (hafter n d).mpr ⟨rfl, hnew⟩⟩⟩
    by_cases hab : a = b
    · exact ((hafter n d).mp (hab ▸ ha)).2
    · rw [hbufs a hab] at ha
      have hkey := (content_eq.mp ha).1
      refine absurd (hrefs.unique a b ?_ (hkey.trans hbefore.symm)) hab
      rwa [show (s.bufs a).dev = dev from congrArg Prod.fst hkey]
  · rw [update_of_ne hm, cacheOf_eq_some hrefs hdev]
    refine exists_congr fun a ↦ ?_
    by_cases hab : a = b
    · rw [hab, hafter m d, content_eq, hbefore]
      simp [hm, Ne.symm hm]
    · rw [hbufs a hab]

/-- A buffer that has nothing of the device before and after does not matter to it. -/
theorem device_of_other [Fintype ι] (hrefs : BioRefs s) (hrefs' : BioRefs t) (hdev : dev ≠ 0)
    (hdisk : ∀ n, t.disk (dev, n) = s.disk (dev, n)) (hbufs : ∀ c, c ≠ b → t.bufs c = s.bufs c)
    (hbefore : ∀ n d, (s.bufs b).content ≠ ((dev, n), some d))
    (hafter : ∀ n d, (t.bufs b).content ≠ ((dev, n), some d)) : t.device dev = s.device dev := by
  have hcache : t.cacheOf dev = s.cacheOf dev := by
    refine cacheOf_ext hrefs' hdev fun n d ↦ ?_
    rw [cacheOf_eq_some hrefs hdev]
    refine exists_congr fun c ↦ ?_
    by_cases hcb : c = b
    · rw [hcb]
      exact iff_of_false (hafter n d) (hbefore n d)
    · rw [hbufs c hcb]
  rw [Bcache.device, Bcache.device, hcache]
  simp only [hdisk]

variable [Fintype ι]

/-- A buffer is recycled. -/
theorem cacheMove_recycle (hrefs : BioRefs s) (hrefs' : BioRefs t) (hs : BioData s) (hdev : dev ≠ 0)
    (hdisk : t.disk = s.disk) (hbufs : ∀ c, c ≠ b → t.bufs c = s.bufs c)
    (hclean : s.dirty b = false) (hinvalid : (t.bufs b).valid = false) :
    CacheMove (s.device dev) none (t.device dev) := by
  have hnothing : ∀ n d, (t.bufs b).content ≠ ((dev, n), some d) := by
    intro n d hcontent
    rw [(content_eq.mp hcontent).2.1] at hinvalid
    cases hinvalid
  by_cases hcontent : ∃ n d, (s.bufs b).content = ((dev, n), some d)
  · obtain ⟨n, d, hb⟩ := hcontent
    have hcache : s.cacheOf dev n = some (s.disk (dev, n)) := by
      rw [← hs.clean b _ d hb hdev hclean]
      exact (cacheOf_eq_some hrefs hdev).mpr ⟨b, hb⟩
    have hgone : t.cacheOf dev = update (s.cacheOf dev) n none :=
      cacheOf_update hrefs hrefs' hdev hbufs (content_eq.mp hb).1 (by simp [hnothing])
    rw [Bcache.device, Bcache.device, hgone, hdisk]
    exact .evict n hcache
  · push Not at hcontent
    exact .of_eq (device_of_other hrefs hrefs' hdev (fun n ↦ by rw [hdisk]) hbufs hcontent hnothing)

/-- A buffer gets data for the block it has. -/
theorem cacheOf_new (hrefs : BioRefs s) (hrefs' : BioRefs t) (hdev : key.1 ≠ 0)
    (hbufs : ∀ c, c ≠ b → t.bufs c = s.bufs c) (hkey : (s.bufs b).key = key)
    (hcontent : (t.bufs b).content = (key, some d)) :
    t.cacheOf key.1 = update (s.cacheOf key.1) key.2 (some d) := by
  refine cacheOf_update hrefs hrefs' hdev hbufs hkey fun m d' ↦ ?_
  rw [hcontent, Prod.mk.injEq, Prod.ext_iff]
  simp [eq_comm]

theorem content_ne_of_key (hkey : buf.key = key) (hne : key.1 ≠ dev) (n : ℕ) (d : Block) :
    buf.content ≠ ((dev, n), some d) := by
  intro hcontent
  have hsame := hkey.symm.trans (content_eq.mp hcontent).1
  exact hne (congrArg Prod.fst hsame)

theorem cacheMove_load (hrefs : BioRefs s) (hrefs' : BioRefs t) (hdev : dev ≠ 0)
    (hdisk : t.disk = s.disk) (hbufs : ∀ c, c ≠ b → t.bufs c = s.bufs c)
    (hkey : (s.bufs b).key = key) (hinvalid : (s.bufs b).valid = false)
    (hcontent : (t.bufs b).content = (key, some (s.disk key))) :
    CacheMove (s.device dev) none (t.device dev) := by
  rcases eq_or_ne key.1 dev with rfl | hsame
  · have hcache : s.cacheOf key.1 key.2 = none := by
      rw [Option.eq_none_iff_forall_not_mem]
      intro d hd
      obtain ⟨c, hc⟩ := (cacheOf_eq_some hrefs hdev).mp hd
      obtain ⟨hckey, hvalid, -⟩ := content_eq.mp hc
      have hbc : b = c := by
        refine hrefs.unique b c ?_ (hkey.trans hckey.symm)
        rwa [show (s.bufs b).dev = key.1 from congrArg Prod.fst hkey]
      rw [← hbc, hinvalid] at hvalid
      cases hvalid
    rw [Bcache.device, Bcache.device, cacheOf_new hrefs hrefs' hdev hbufs hkey hcontent, hdisk]
    exact .fill key.2 hcache
  · refine .of_eq (device_of_other hrefs hrefs' hdev (fun n ↦ by rw [hdisk]) hbufs
      (content_ne_of_key hkey hsame) ?_)
    exact content_ne_of_key (content_eq.mp hcontent).1 hsame

theorem cacheMove_modify (hrefs : BioRefs s) (hrefs' : BioRefs t) (hdev : dev ≠ 0)
    (hdisk : t.disk = s.disk) (hbufs : ∀ c, c ≠ b → t.bufs c = s.bufs c)
    (hkey : (s.bufs b).key = key) (hcontent : (t.bufs b).content = (key, some d)) :
    CacheMove (s.device dev) (if key.1 = dev then some (key.2, d) else none) (t.device dev) := by
  rcases eq_or_ne key.1 dev with rfl | hsame
  · rw [if_pos rfl, Bcache.device, Bcache.device,
      cacheOf_new hrefs hrefs' hdev hbufs hkey hcontent, hdisk]
    exact .store key.2 d
  · rw [if_neg hsame]
    refine .of_eq (device_of_other hrefs hrefs' hdev (fun n ↦ by rw [hdisk]) hbufs
      (content_ne_of_key hkey hsame) ?_)
    exact content_ne_of_key (content_eq.mp hcontent).1 hsame

theorem cacheMove_write (hrefs : BioRefs s) (hdev : dev ≠ 0)
    (hcontent : (s.bufs b).content = (key, some d)) (hdisk : t.disk = update s.disk key d)
    (hbufs : t.bufs = s.bufs) : CacheMove (s.device dev) none (t.device dev) := by
  have hcache : t.cacheOf dev = s.cacheOf dev := by
    funext n
    rw [Bcache.cacheOf, Bcache.cacheOf, hbufs]
  rcases eq_or_ne key.1 dev with rfl | hsame
  · have hnew : (fun n ↦ t.disk (key.1, n)) =
        update (fun n ↦ s.disk (key.1, n)) key.2 d := by
      funext n
      rw [hdisk]
      by_cases hn : n = key.2
      · rw [hn, update_self, update_self]
      · rw [update_of_ne hn, update_of_ne fun h ↦ hn (congrArg Prod.snd h)]
    rw [Bcache.device, Bcache.device, hcache, hnew]
    exact .writeBack key.2 d ((cacheOf_eq_some hrefs hdev).mpr ⟨b, hcontent⟩)
  · have hold : (fun n ↦ t.disk (dev, n)) = fun n ↦ s.disk (dev, n) := by
      funext n
      rw [hdisk, update_of_ne fun h ↦ hsame (congrArg Prod.fst h).symm]
    rw [Bcache.device, Bcache.device, hcache, hold]
    exact .keep

variable [DecidableEq ι] {disk : BlockId → Block} {l : List (Transition (Bcache ι) (BioEvent ι))}

/-- The buffers are a cache: each step is a step of the device's cached store. -/
theorem cacheMove_bioStep (h : bioStep pid s e = some t) (hring : BioRing s.links order)
    (hrefs : BioRefs s) (hrefs' : BioRefs t) (hs : BioData s) (hdev : dev ≠ 0) :
    CacheMove (s.device dev) (bioWrite dev ⟨s, e, t⟩) (t.device dev) := by
  cases bioMove_of_bioStep h with
  | recycles _ _ _ _ _ hunused =>
    refine cacheMove_recycle hrefs hrefs' hs hdev rfl (fun c hc ↦ update_of_ne hc _ _)
      (hs.not_dirty hrefs (hring.unused_some hunused)) ?_
    simp only [Bcache.setBuf, update_self]
  | loads i b key huser hvalid =>
    have hkey := hrefs.key i b key (congrArg BufUse.ref huser)
    refine cacheMove_load hrefs hrefs' hdev rfl (fun c hc ↦ update_of_ne hc _ _) hkey
      hvalid (content_eq.mpr ?_)
    simp only [Bcache.setBuf, update_self, Buf.key] at hkey ⊢
    exact ⟨hkey, trivial, by rw [hkey]⟩
  | modifies i b key data huser =>
    have hkey := hrefs.key i b key (congrArg BufUse.ref huser)
    have hmove := cacheMove_modify hrefs hrefs' hdev rfl
      (fun c hc ↦ update_of_ne hc _ _) hkey (d := data) (content_eq.mpr ?_)
    · simpa only [bioWrite, huser] using hmove
    · simp only [Bcache.setBuf, update_self]
      exact ⟨hkey, hs.held i b key huser, trivial⟩
  | writes i b key huser =>
    have hvalid := hs.held i b key huser
    exact cacheMove_write hrefs hdev (content_eq.mpr ⟨rfl, hvalid, rfl⟩) rfl rfl
  | hits | acquires | releases | dropsLast | drops | pins | unpins =>
    exact .of_eq (device_congr rfl (update_field Buf.content rfl))
  | runsOut | waits | hasData | writePanics | releasePanics => exact .keep

/-! ### Whole runs -/

/-- The writes of a run to the blocks of a device are what is seen of it afterwards. -/
theorem view_of_path (h : Path (bioStep pid) (binit disk) l u)
    (hkeeps : ∀ tr ∈ l, keepsChanges tr.source tr.event = true) (hdev : dev ≠ 0) :
    BioData u ∧ (u.device dev).view =
      applyWrites (fun n ↦ disk (dev, n)) (l.filterMap (bioWrite dev)) := by
  refine h.history_rule
    (J := fun l u ↦ (∀ tr ∈ l, keepsChanges tr.source tr.event = true) → BioData u ∧
      (u.device dev).view = applyWrites (fun n ↦ disk (dev, n)) (l.filterMap (bioWrite dev)))
    (fun _ ↦ ⟨bioData_binit disk, ?_⟩) (fun l s e t hpath hstep ih hkeeps ↦ ?_) hkeeps
  · funext n
    have hcache : (binit disk : Bcache ι).cacheOf dev n = none :=
      List.findSome?_eq_none_iff.mpr fun b _ ↦ by simp [binit, Buf.content]
    simp only [CachedStore.view, Bcache.device, hcache, Option.getD_none]
    rfl
  · obtain ⟨hdata, hview⟩ := ih fun tr htr ↦ hkeeps tr (List.mem_append_left _ htr)
    have hlast : keepsChanges s e = true := hkeeps ⟨s, e, t⟩ (by simp)
    have hpinned : ∀ tr ∈ l, UnpinsPinned tr.source tr.event := fun tr htr ↦
      unpinsPinned_of_keepsChanges (hkeeps tr (List.mem_append_left _ htr))
    have hring := bioRing_path hpath hpinned
    have hrefs := bioRefs_path hpath hpinned
    have hrefs' := bioRefs_step hstep hring (unpinsPinned_of_keepsChanges hlast) hrefs
    refine ⟨bioData_step hstep hring hrefs hlast hdata, ?_⟩
    rw [(cacheMove_bioStep hstep hring hrefs hrefs' hdata hdev).view_eq, hview,
      List.filterMap_append, applyWrites_append]
    cases hwrite : bioWrite dev ⟨s, e, t⟩ with
    | none | some => simp [hwrite]

/-- A caller that has a block sees what was written to it last. -/
theorem bread_coherent (h : Path (bioStep pid) (binit disk) l u)
    (hkeeps : ∀ tr ∈ l, keepsChanges tr.source tr.event = true) (hdev : key.1 ≠ 0)
    (hheld : u.users i = .held b key) :
    (u.bufs b).data =
      applyWrites (fun n ↦ disk (key.1, n)) (l.filterMap (bioWrite key.1)) key.2 := by
  obtain ⟨hdata, hview⟩ := view_of_path h hkeeps hdev
  have hrefs := bioRefs_path h fun tr htr ↦ unpinsPinned_of_keepsChanges (hkeeps tr htr)
  have hkey := hrefs.key i b key (congrArg BufUse.ref hheld)
  have hcache : u.cacheOf key.1 key.2 = some (u.bufs b).data :=
    (cacheOf_eq_some hrefs hdev).mpr
      ⟨b, content_eq.mpr ⟨hkey, hdata.held i b key hheld, rfl⟩⟩
  have hseen : (u.device key.1).view key.2 = (u.bufs b).data := by
    simp [CachedStore.view, Bcache.device, hcache]
  rw [← hview, hseen]

/-- A caller changes a block and pins it, so that it is still there for the next one. -/
def changedBlock : List (Transition (Bcache Worker) (BioEvent Worker)) × Bcache Worker :=
  replay (bioStep fun i ↦ if i.2 then 2 else 1) (binit fun _ ↦ blankDisk 0)
    [.bget (false, false) (1, 5), .acquire (false, false), .bread (false, false),
      .modify (false, false) (fun _ ↦ 7#32), .bpin (false, false), .brelse (false, false),
      .drop (false, false), .bget (false, true) (1, 5), .acquire (false, true),
      .bread (false, true)]

theorem bread_coherent_changedBlock :
    ∃ b, changedBlock.2.users (false, true) = .held b (1, 5) ∧
      (changedBlock.2.bufs b).data = applyWrites (fun _ ↦ blankDisk 0)
        (changedBlock.1.filterMap (bioWrite 1)) 5 := by
  have hheld : ∃ b, changedBlock.2.users (false, true) = .held b (1, 5) := by decide
  obtain ⟨b, hb⟩ := hheld
  exact ⟨b, hb, bread_coherent (path_replay _ _) (List.all_eq_true.mp (by decide)) (by decide) hb⟩

end Device

end Irish.Xv6
