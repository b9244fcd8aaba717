import Mathlib.Data.Nat.Notation
import Mathlib.Tactic.SplitIfs

/-!
# Tables of descriptors

A descriptor is a number, and a table says to which open file each number refers. A new descriptor
is the lowest one that is free, as POSIX has it; `dup2` and `close` name theirs.

Two tables are compared by what they say of each descriptor (`get`), since two lists may differ in
closed descriptors at their ends.
-/

set_option autoImplicit false

namespace Irish.Library

structure DescriptorTable (δ : Type) where
  entries : List (Option δ)
deriving DecidableEq, Repr

namespace DescriptorTable

variable {δ : Type} {t u t₁ t₂ : DescriptorTable δ} {fd old new : ℕ} {d : δ} {fds fds' : List ℕ}
  {P Q : δ → Prop}

/-- What a descriptor refers to; `none` is a closed one. -/
def get (t : DescriptorTable δ) (fd : ℕ) : Option δ := t.entries.getD fd none

def lowestFree (t : DescriptorTable δ) : ℕ := t.entries.findIdx Option.isNone

def install (t : DescriptorTable δ) (fd : ℕ) (d : δ) : DescriptorTable δ :=
  ⟨(t.entries ++ List.replicate (fd + 1 - t.entries.length) none).set fd (some d)⟩

def close (t : DescriptorTable δ) (fd : ℕ) : DescriptorTable δ := ⟨t.entries.set fd none⟩

def closeAll (t : DescriptorTable δ) (fds : List ℕ) : DescriptorTable δ := fds.foldl close t

/-- Close a descriptor that may be missing. -/
def closeOpt (t : DescriptorTable δ) (fd : Option ℕ) : DescriptorTable δ := t.closeAll fd.toList

/-- A successful `open`. -/
def openFirst (t : DescriptorTable δ) (d : δ) : ℕ × DescriptorTable δ :=
  (t.lowestFree, t.install t.lowestFree d)

/-- A successful `pipe`: the reading end first. -/
def pipe (t : DescriptorTable δ) (r w : δ) : (ℕ × ℕ) × DescriptorTable δ :=
  let reading := t.openFirst r
  let writing := reading.2.openFirst w
  ((reading.1, writing.1), writing.2)

/-- A `dup` that finds a free descriptor: it fails exactly on a closed one. -/
def dup (t : DescriptorTable δ) (old : ℕ) : Option (ℕ × DescriptorTable δ) :=
  (t.get old).map t.openFirst

/-- `dup2 old new`: it fails exactly on a closed descriptor. -/
def dup2 (t : DescriptorTable δ) (old new : ℕ) : Option (DescriptorTable δ) :=
  (t.get old).map (t.install new)

/-! ### What the operations do to each descriptor -/

@[simp] theorem get_install (t : DescriptorTable δ) (fd : ℕ) (d : δ) (j : ℕ) :
    (t.install fd d).get j = if j = fd then some d else t.get j := by
  simp only [get, install, List.getD_eq_getElem?_getD, List.getElem?_set, List.length_append,
    List.length_replicate]
  by_cases hj : j = fd
  · subst hj
    have hlt : j < t.entries.length + (j + 1 - t.entries.length) := by omega
    simp [hlt]
  · simp only [if_neg (Ne.symm hj), if_neg hj]
    by_cases hlt : j < t.entries.length
    · rw [List.getElem?_append_left hlt]
    · rw [List.getElem?_append_right (by omega), List.getElem?_eq_none (by omega : _ ≤ j),
        List.getElem?_replicate]
      split_ifs <;> rfl

@[simp] theorem get_close (t : DescriptorTable δ) (fd j : ℕ) :
    (t.close fd).get j = if j = fd then none else t.get j := by
  simp only [get, close, List.getD_eq_getElem?_getD, List.getElem?_set]
  by_cases hj : j = fd
  · subst hj
    simp only [if_true]
    split_ifs <;> rfl
  · simp [hj, Ne.symm hj]

@[simp] theorem get_closeAll (t : DescriptorTable δ) (fds : List ℕ) (j : ℕ) :
    (t.closeAll fds).get j = if j ∈ fds then none else t.get j := by
  induction fds generalizing t with
  | nil => simp [closeAll]
  | cons fd fds ih =>
    have hstep : t.closeAll (fd :: fds) = (t.close fd).closeAll fds := rfl
    rw [hstep, ih, get_close]
    by_cases hj : j = fd <;> by_cases hmem : j ∈ fds <;> simp [hj, hmem]

theorem closeAll_append (t : DescriptorTable δ) (fds fds' : List ℕ) :
    (t.closeAll fds).closeAll fds' = t.closeAll (fds ++ fds') :=
  List.foldl_append.symm

/-- Closing depends only on what the table says. -/
theorem get_closeAll_congr (h : t.get = u.get) (fds : List ℕ) :
    (t.closeAll fds).get = (u.closeAll fds).get := by
  funext fd
  rw [get_closeAll, get_closeAll, h]

theorem get_lowestFree (t : DescriptorTable δ) : t.get t.lowestFree = none := by
  unfold get lowestFree
  rw [List.getD_eq_getElem?_getD]
  by_cases hlt : t.entries.findIdx Option.isNone < t.entries.length
  · rw [List.getElem?_eq_getElem hlt]
    simpa using List.findIdx_getElem (w := hlt)
  · rw [List.getElem?_eq_none (by omega)]
    rfl

theorem get_of_lt_lowestFree (h : fd < t.lowestFree) : t.get fd ≠ none := by
  have hlt : fd < t.entries.length := Nat.lt_of_lt_of_le h List.findIdx_le_length
  have hsome := List.not_of_lt_findIdx h
  unfold get
  rw [List.getD_eq_getElem?_getD, List.getElem?_eq_getElem hlt]
  simpa [Option.isSome_iff_ne_none] using hsome

/-- `open` closes the lowest gap: descriptor 0 is in use afterwards. -/
theorem get_zero_openFirst (t : DescriptorTable δ) (d : δ) : (t.openFirst d).2.get 0 ≠ none := by
  simp only [openFirst, get_install]
  split_ifs with h
  · exact Option.some_ne_none d
  · exact get_of_lt_lowestFree (by omega)

/-! ### Opening and closing again -/

/-- `t'` is `t` with the descriptors `fds` opened, on files with the property `P`. -/
structure Opened (t : DescriptorTable δ) (fds : List ℕ) (P : δ → Prop) (t' : DescriptorTable δ) :
    Prop where
  free : ∀ fd ∈ fds, t.get fd = none
  refers : ∀ fd ∈ fds, ∃ d, t'.get fd = some d ∧ P d
  same : ∀ fd, fd ∉ fds → t'.get fd = t.get fd

theorem Opened.refl (t : DescriptorTable δ) (P : δ → Prop) : Opened t [] P t where
  free := nofun
  refers := nofun
  same := fun _ _ ↦ rfl

theorem get_openFirst (t : DescriptorTable δ) (d : δ) :
    (t.openFirst d).2.get (t.openFirst d).1 = some d := by
  simp [openFirst]

theorem opened_openFirst (t : DescriptorTable δ) (d : δ) :
    Opened t [(t.openFirst d).1] (· = d) (t.openFirst d).2 where
  free := by
    intro fd hfd
    rw [List.mem_singleton.mp hfd]
    exact t.get_lowestFree
  refers := by
    intro fd hfd
    rw [List.mem_singleton.mp hfd]
    exact ⟨d, get_openFirst t d, rfl⟩
  same := by
    intro fd hfd
    have hne : fd ≠ t.lowestFree := fun h ↦ hfd (List.mem_singleton.mpr h)
    simp [openFirst, hne]

theorem Opened.mono (h : Opened t fds P t₁) (hPQ : ∀ d, P d → Q d) : Opened t fds Q t₁ where
  free := h.free
  refers := by
    intro fd hfd
    obtain ⟨d, hget, hd⟩ := h.refers fd hfd
    exact ⟨d, hget, hPQ d hd⟩
  same := h.same

theorem Opened.not_mem (h : Opened t fds P t₁) (hfd : t.get fd ≠ none) : fd ∉ fds :=
  fun hmem ↦ hfd (h.free fd hmem)

/-- A descriptor in use is left alone. -/
theorem Opened.keeps (h : Opened t fds P t₁) (hfd : t.get fd ≠ none) : t₁.get fd = t.get fd :=
  h.same fd (h.not_mem hfd)

theorem Opened.get_some (h : Opened t fds P t₁) (hfd : t.get fd = some d) : t₁.get fd = some d := by
  rw [h.keeps (by simp [hfd]), hfd]

theorem Opened.ne_none (h : Opened t fds P t₁) (hfd : fd ∈ fds) : t₁.get fd ≠ none := by
  obtain ⟨d, hget, -⟩ := h.refers fd hfd
  rw [hget]
  exact Option.some_ne_none d

theorem Opened.trans (h : Opened t fds P t₁) (h' : Opened t₁ fds' P t₂) :
    Opened t (fds ++ fds') P t₂ where
  free := by
    intro fd hfd
    rcases List.mem_append.mp hfd with hfd | hfd
    · exact h.free fd hfd
    · rw [← h.same fd fun hmem ↦ h.ne_none hmem (h'.free fd hfd)]
      exact h'.free fd hfd
  refers := by
    intro fd hfd
    by_cases hmem : fd ∈ fds'
    · exact h'.refers fd hmem
    · rw [h'.same fd hmem]
      exact h.refers fd ((List.mem_append.mp hfd).resolve_right hmem)
  same := by
    intro fd hfd
    simp only [List.mem_append, not_or] at hfd
    rw [h'.same fd hfd.2, h.same fd hfd.1]

/-- Closing some of what was opened leaves the others. -/
theorem Opened.closeSome (h : Opened t fds P t₁) (gone kept : List ℕ)
    (hgone : ∀ fd ∈ gone, fd ∈ fds) (hkept : ∀ fd, fd ∈ kept ↔ fd ∈ fds ∧ fd ∉ gone) :
    Opened t kept P (t₁.closeAll gone) where
  free := fun fd hfd ↦ h.free fd ((hkept fd).mp hfd).1
  refers := by
    intro fd hfd
    obtain ⟨hmem, hnot⟩ := (hkept fd).mp hfd
    rw [get_closeAll, if_neg hnot]
    exact h.refers fd hmem
  same := by
    intro fd hfd
    rw [get_closeAll]
    split_ifs with hclosed
    · exact (h.free fd (hgone fd hclosed)).symm
    · exact h.same fd fun hmem ↦ hfd ((hkept fd).mpr ⟨hmem, hclosed⟩)

theorem Opened.get_eq (h : Opened t [] P t₁) : t₁.get = t.get :=
  funext fun fd ↦ h.same fd List.not_mem_nil

/-- Closing everything that was opened restores the table. -/
theorem Opened.closeAll (h : Opened t fds P t₁) (gone : List ℕ)
    (hgone : ∀ fd, fd ∈ gone ↔ fd ∈ fds) : (t₁.closeAll gone).get = t.get := by
  refine (h.closeSome gone [] (fun fd ↦ (hgone fd).mp) fun fd ↦ ?_).get_eq
  simp [hgone]

theorem opened_pipe (t : DescriptorTable δ) (r w : δ) :
    Opened t [(t.pipe r w).1.1, (t.pipe r w).1.2] (fun d ↦ d = r ∨ d = w) (t.pipe r w).2 :=
  ((opened_openFirst t r).mono fun _ ↦ .inl).trans
    ((opened_openFirst (t.openFirst r).2 w).mono fun _ ↦ .inr)

theorem get_pipe_read (t : DescriptorTable δ) (r w : δ) :
    (t.pipe r w).2.get (t.pipe r w).1.1 = some r :=
  (opened_openFirst (t.openFirst r).2 w).get_some (get_openFirst t r)

theorem get_pipe_write (t : DescriptorTable δ) (r w : δ) :
    (t.pipe r w).2.get (t.pipe r w).1.2 = some w :=
  get_openFirst (t.openFirst r).2 w

theorem get_zero_pipe (t : DescriptorTable δ) (r w : δ) : (t.pipe r w).2.get 0 ≠ none :=
  get_zero_openFirst _ w

theorem pipe_write_ne_zero (t : DescriptorTable δ) (r w : δ) : (t.pipe r w).1.2 ≠ 0 := by
  intro hzero
  have hfree := get_lowestFree (t.openFirst r).2
  have hwrite : (t.openFirst r).2.lowestFree = 0 := hzero
  rw [hwrite] at hfree
  exact get_zero_openFirst t r hfree

theorem pipe_read_ne_write (t : DescriptorTable δ) (r w : δ) :
    (t.pipe r w).1.1 ≠ (t.pipe r w).1.2 := by
  intro heq
  have hfree := get_lowestFree (t.openFirst r).2
  have hwrite : (t.openFirst r).1 = (t.openFirst r).2.lowestFree := heq
  rw [← hwrite, get_openFirst] at hfree
  exact Option.some_ne_none r hfree

/-! ### Files that a table has open -/

/-- Some descriptor of the table refers to the file. -/
def Holds (t : DescriptorTable δ) (d : δ) : Prop := ∃ fd, t.get fd = some d

theorem holds_iff_mem : t.Holds d ↔ some d ∈ t.entries := by
  unfold Holds get
  rw [List.mem_iff_getElem?]
  refine exists_congr fun fd ↦ ?_
  rw [List.getD_eq_getElem?_getD]
  cases t.entries[fd]? <;> simp

instance [DecidableEq δ] (t : DescriptorTable δ) (d : δ) : Decidable (t.Holds d) :=
  decidable_of_iff _ holds_iff_mem.symm

theorem Holds.of_closeAll (h : (t.closeAll fds).Holds d) : t.Holds d := by
  obtain ⟨fd, hfd⟩ := h
  rw [get_closeAll] at hfd
  split_ifs at hfd
  exact ⟨fd, hfd⟩

theorem Holds.of_close (h : (t.close fd).Holds d) : t.Holds d := by
  have hall : (t.closeAll [fd]).Holds d := h
  exact hall.of_closeAll

theorem Holds.of_opened (h : t₁.Holds d) (hopened : Opened t fds P t₁) : t.Holds d ∨ P d := by
  obtain ⟨fd, hfd⟩ := h
  by_cases hmem : fd ∈ fds
  · obtain ⟨d', hd', hP⟩ := hopened.refers fd hmem
    cases hd'.symm.trans hfd
    exact .inr hP
  · rw [hopened.same fd hmem] at hfd
    exact .inl ⟨fd, hfd⟩

/-- `dup2` opens no new file. -/
theorem Holds.of_dup2 (h : t₁.Holds d) (hdup : t.dup2 old new = some t₁) : t.Holds d := by
  obtain ⟨d', hd', rfl⟩ := Option.map_eq_some_iff.mp hdup
  obtain ⟨fd, hfd⟩ := h
  rw [get_install] at hfd
  split_ifs at hfd
  · cases hfd
    exact ⟨old, hd'⟩
  · exact ⟨fd, hfd⟩

end DescriptorTable

end Irish.Library
