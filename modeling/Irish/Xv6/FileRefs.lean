import Irish.Library.Tables
import Irish.Xv6.File

/-!
# Reference counts of open files

The count of a file is the number of its references, which are the descriptors of all processes and
the local variables of the system calls in progress (`ftable_refs`). From this follows when a pipe
is closed: each of its ends is open exactly as long as some process can reach it
(`pipeEnd_open_iff`), so a reader sees the end of the file when the last descriptor for writing is
gone, wherever it was inherited, and not earlier.

`kfork` relies on more than the counts. It writes only the descriptors that the parent has, so the
slot of the child has to be empty before, which `kexit` sees to (`FileInv.cleared`). That a file is
set up after it has been allocated is no problem because nobody else refers to it yet
(`FileInv.fresh`).
-/

set_option autoImplicit false

namespace Irish.Xv6

open Library
open Function (update update_eq_self update_of_ne update_self)

variable {ι : Type*} {file : File} {pipes : ℕ → Option PipeFlags} {q : ι} {g f : FileId}
  {files : FileId → File} {d : FileCall ι}

/-! ### Who refers to a file -/

def AfterClose.refs : AfterClose → List FileId
  | .closes f => [f]
  | _ => []

/-- The references in the local variables of a system call. -/
def FileCall.refs : FileCall ι → List FileId
  | .opening f => [f]
  | .first rf => [rf]
  | .second rf wf => [rf, wf]
  | .piped rf wf => [rf, wf]
  | .dropping f next => f :: next.refs
  | .releasing _ next => next.refs
  | _ => []

/-- How many descriptors refer to a file. -/
def fdCount (ofile : Fd → Option FileId) (f : FileId) : ℕ :=
  ∑ fd, if ofile fd = some f then 1 else 0

def Files.held (s : Files ι) (p : ι) (f : FileId) : ℕ :=
  fdCount (s.ofile p) f + (s.call p).refs.count f

/-- The files that have been allocated and not yet set up. -/
def FileCall.fresh : FileCall ι → List FileId
  | .opening f => [f]
  | .first rf => [rf]
  | .second rf wf => [rf, wf]
  | _ => []

def AfterClose.cleared : AfterClose → ℕ
  | .exits fd => fd + 1
  | _ => 0

/-- How many descriptors, from the first, have been closed by `kexit`. -/
def FileCall.cleared : FileCall ι → ℕ
  | .absent => nofile
  | .exiting fd => fd
  | .dropping _ next => next.cleared
  | .releasing _ next => next.cleared
  | _ => 0

/-- A file that is one end of a pipe counts for that end. -/
def File.carries (file : File) (page : ℕ) (writable : Bool) : ℕ :=
  if file.type = .pipe page ∧ file.writable = writable then 1 else 0

/-- A process that is about to close one end of a pipe counts for it too. -/
def FileCall.carries : FileCall ι → ℕ → Bool → ℕ
  | .releasing ff _, page, writable => ff.carries page writable
  | _, _, _ => 0

/-- Whether one end of a pipe is open, as a number. -/
def openEnds (pipes : ℕ → Option PipeFlags) (page : ℕ) (writable : Bool) : ℕ :=
  if (pipes page).any (·.isOpen writable) then 1 else 0

structure FileInv [Fintype ι] (s : Files ι) : Prop where
  counted : Counted (fun f ↦ (s.files f).ref) s.held
  free : ∀ f, (s.files f).ref = 0 → (s.files f).type = .none
  fresh : ∀ p, ∀ f ∈ (s.call p).fresh, (s.files f).ref = 1 ∧ (s.files f).type = .none
  cleared : ∀ p (fd : Fd), fd.val < (s.call p).cleared → s.ofile p fd = none
  forking : ∀ p np i, s.call p = .forking np i →
    s.call np = .born ∧ ∀ fd : Fd, i ≤ fd.val → s.ofile np fd = none
  parent : ∀ p q np i j, s.call p = .forking np i → s.call q = .forking np j → p = q
  carriers : ∀ page writable, ∑ f, (s.files f).carries page writable +
    ∑ p, (s.call p).carries page writable = openEnds s.pipes page writable
  panic : s.panic = none

section Lemmas

variable {ofile : Fd → Option FileId} {fd : Fd} {page : ℕ} {writable : Bool}

theorem fdCount_update (ofile : Fd → Option FileId) (fd : Fd) (o : Option FileId) (g : FileId) :
    fdCount (update ofile fd o) g + (if ofile fd = some g then 1 else 0) =
      fdCount ofile g + if o = some g then 1 else 0 :=
  sum_update_add (fun o ↦ if o = some g then 1 else 0) ofile fd o

theorem fdCount_install (h : ofile fd = none) (g : FileId) :
    fdCount (update ofile fd (some f)) g = fdCount ofile g + if g = f then 1 else 0 := by
  have hcount := fdCount_update ofile fd (some f) g
  simpa [h, eq_comm] using hcount

theorem fdCount_clear (h : ofile fd = some f) (g : FileId) :
    fdCount ofile g = fdCount (update ofile fd none) g + if g = f then 1 else 0 := by
  have hcount := fdCount_update ofile fd none g
  simpa [h, eq_comm] using hcount.symm

/-- A descriptor that refers to a file counts. -/
theorem fdCount_pos (h : ofile fd = some f) : 0 < fdCount ofile f := by
  have hle := le_sum (fun fd ↦ if ofile fd = some f then 1 else 0) fd
  simp only [h, if_pos] at hle
  exact hle

theorem fdalloc_eq_some (h : fdalloc ofile = some fd) : ofile fd = none := by
  unfold fdalloc at h
  have hfree := List.find?_some h
  exact of_decide_eq_true hfree

theorem carries_of_none (h : file.type = .none) (page : ℕ) (writable : Bool) :
    file.carries page writable = 0 := by
  rw [File.carries, h, if_neg (by simp)]

theorem carries_pos (h : 0 < file.carries page writable) :
    file.type = .pipe page ∧ file.writable = writable := by
  by_contra hnot
  rw [File.carries, if_neg hnot] at h
  cases h

theorem openEnds_pos (h : 0 < openEnds pipes page writable) :
    (pipes page).any (·.isOpen writable) = true := by
  by_contra hnot
  rw [openEnds, if_neg hnot] at h
  cases h

variable [DecidableEq ι] {s t : Files ι} {p : ι} {c : FileCall ι}

omit [DecidableEq ι] in
/-- A reference is a descriptor or in a local variable. -/
theorem held_cases (h : 0 < s.held p f) : (∃ fd, s.ofile p fd = some f) ∨ f ∈ (s.call p).refs := by
  rcases Nat.eq_zero_or_pos ((s.call p).refs.count f) with hzero | hpos
  · rw [Files.held, hzero, Nat.add_zero, fdCount] at h
    obtain ⟨fd, hfd⟩ := exists_pos_of_sum_pos h
    refine .inl ⟨fd, ?_⟩
    by_contra hnot
    rw [if_neg hnot] at hfd
    cases hfd
  · exact .inr (List.count_pos_iff.mp hpos)

omit [DecidableEq ι] in
theorem Files.unused_eq_some (h : s.unused = some f) : (s.files f).ref = 0 := by
  unfold Files.unused at h
  have hfree := List.find?_some h
  exact of_decide_eq_true hfree

theorem held_eq_update (hcall : t.call = update s.call p c)
    (hofile : t.ofile = update s.ofile p ofile) :
    t.held = update s.held p fun g ↦ fdCount ofile g + c.refs.count g := by
  funext q g
  by_cases hq : q = p
  · rw [hq, update_self, Files.held, hcall, hofile, update_self,
      update_self]
  · rw [update_of_ne hq, Files.held, hcall, hofile, update_of_ne hq,
      update_of_ne hq]
    rfl

end Lemmas

/-- What follows a `fileclose` has the references and the closed descriptors that it had before. -/
theorem AfterClose.call_spec (next : AfterClose) :
    (next.call : FileCall ι).refs = next.refs ∧ (next.call : FileCall ι).cleared = next.cleared ∧
      (next.call : FileCall ι).fresh = [] := by
  cases next <;> exact ⟨rfl, rfl, rfl⟩

theorem AfterClose.call_ne_forking (next : AfterClose) (np : ι) (i : ℕ) :
    next.call ≠ FileCall.forking np i := by
  cases next <;> simp [AfterClose.call]

theorem AfterClose.call_carries (next : AfterClose) (page : ℕ) (writable : Bool) :
    (next.call : FileCall ι).carries page writable = 0 := by
  cases next <;> rfl

/-- Who has a fresh file refers to it. -/
theorem Files.fresh_held (s : Files ι) (hg : g ∈ (s.call q).fresh) : 0 < s.held q g := by
  have hcount : 0 < (s.call q).refs.count g := by
    refine List.count_pos_iff.mpr ?_
    cases hc : s.call q <;> simp only [hc, FileCall.fresh, FileCall.refs] at hg ⊢ <;>
      first | exact hg | cases hg
  exact Nat.lt_of_lt_of_le hcount (Nat.le_add_left _ _)

/-- The references of one file grow. -/
theorem ref_update {d : ℕ} (hfile : file.ref = (files f).ref + d) (g : FileId) :
    (update files f file g).ref = (files g).ref + if g = f then d else 0 := by
  by_cases hg : g = f
  · rw [hg, update_self, if_pos rfl, hfile]
  · rw [update_of_ne hg, if_neg hg, Nat.add_zero]

/-! ### What a process may change -/

section Change

variable [Fintype ι] [DecidableEq ι] {s t : Files ι} {p : ι} {c : FileCall ι}
  {o : Fd → Option FileId}

/-- A process changes its own descriptors and its own place, and of the files only those to which it
refers and the free ones. -/
theorem FileInv.change (h : FileInv s) (hcall : t.call = update s.call p c)
    (hofile : t.ofile = update s.ofile p o)
    (hfiles : ∀ g, s.held p g = 0 → (s.files g).ref ≠ 0 → t.files g = s.files g)
    (hbalance : ∀ g, (t.files g).ref + s.held p g =
      (s.files g).ref + (fdCount o g + c.refs.count g))
    (hfree : ∀ g, (t.files g).ref = 0 → (t.files g).type = .none)
    (hfresh : ∀ g ∈ c.fresh, (t.files g).ref = 1 ∧ (t.files g).type = .none)
    (hcleared : ∀ fd : Fd, fd.val < c.cleared → o fd = none) (hborn : s.call p ≠ .born)
    (hnew : ∀ np i, c ≠ .forking np i)
    (hcarriers : ∀ page writable, ∑ g, (t.files g).carries page writable +
        c.carries page writable + openEnds s.pipes page writable =
      ∑ g, (s.files g).carries page writable + (s.call p).carries page writable +
        openEnds t.pipes page writable)
    (hpanic : t.panic = none) : FileInv t := by
  have hother {q : ι} (hq : q ≠ p) : t.call q = s.call q ∧ t.ofile q = s.ofile q := by
    rw [hcall, hofile]
    exact ⟨update_of_ne hq _ _, update_of_ne hq _ _⟩
  have hforking {q np : ι} {i : ℕ} (hq : t.call q = .forking np i) :
      q ≠ p ∧ s.call q = .forking np i := by
    have hqp : q ≠ p := by
      rintro rfl
      rw [hcall, update_self] at hq
      exact hnew np i hq
    exact ⟨hqp, (hother hqp).1 ▸ hq⟩
  refine ⟨?_, hfree, fun q g hg ↦ ?_, fun q fd hfd ↦ ?_, fun q np i hq ↦ ?_,
    fun q r np i j hq hr ↦ ?_, fun page writable ↦ ?_, hpanic⟩
  · rw [held_eq_update hcall hofile]
    exact h.counted.change hbalance
  · by_cases hq : q = p
    · rw [hq, hcall, update_self] at hg
      exact hfresh g hg
    · -- Nobody else refers to the fresh files of another process.
      rw [(hother hq).1] at hg
      obtain ⟨hone, htype⟩ := h.fresh q g hg
      have hmine := s.fresh_held hg
      have htwo := h.counted.add_le hq g
      have hsame := hfiles g (by omega) (by omega)
      rw [hsame]
      exact ⟨hone, htype⟩
  · by_cases hq : q = p
    · rw [hq, hcall, update_self] at hfd
      rw [hq, hofile, update_self]
      exact hcleared fd hfd
    · rw [(hother hq).1] at hfd
      rw [(hother hq).2]
      exact h.cleared q fd hfd
  · obtain ⟨-, hq⟩ := hforking hq
    obtain ⟨hnp, hnone⟩ := h.forking q np i hq
    have hne : np ≠ p := by
      rintro rfl
      exact hborn hnp
    rw [(hother hne).1, (hother hne).2]
    exact ⟨hnp, hnone⟩
  · exact h.parent q r np i j (hforking hq).2 (hforking hr).2
  · have hsum := sum_update_add (fun c : FileCall ι ↦ c.carries page writable) s.call p c
    have hold := h.carriers page writable
    have hbal := hcarriers page writable
    rw [hcall]
    omega

/-- The same for a change of one file, with the pipes left alone. -/
theorem FileInv.changeFile (h : FileInv s) (hcall : t.call = update s.call p c)
    (hofile : t.ofile = update s.ofile p o) (hfiles : t.files = update s.files f file)
    (hmine : s.held p f ≠ 0 ∨ (s.files f).ref = 0)
    (hbalance : ∀ g, (update s.files f file g).ref + s.held p g =
      (s.files g).ref + (fdCount o g + c.refs.count g))
    (hfree : file.ref = 0 → file.type = .none)
    (hfresh : ∀ g ∈ c.fresh, (t.files g).ref = 1 ∧ (t.files g).type = .none)
    (hcleared : ∀ fd : Fd, fd.val < c.cleared → o fd = none) (hborn : s.call p ≠ .born)
    (hnew : ∀ np i, c ≠ .forking np i)
    (hcarriers : ∀ page writable, file.carries page writable + c.carries page writable =
      (s.files f).carries page writable + (s.call p).carries page writable)
    (hpipes : t.pipes = s.pipes) (hpanic : t.panic = none) : FileInv t := by
  refine h.change hcall hofile (fun g hg href ↦ ?_) (hfiles ▸ hbalance) (fun g hg ↦ ?_) hfresh
    hcleared hborn hnew (fun page writable ↦ ?_) hpanic
  · rw [hfiles, update_of_ne]
    rintro rfl
    rcases hmine with hmine | hmine
    · exact hmine hg
    · exact href hmine
  · rw [hfiles] at hg ⊢
    by_cases hgf : g = f
    · rw [hgf, update_self] at hg ⊢
      exact hfree hg
    · rw [update_of_ne hgf] at hg ⊢
      exact h.free g hg
  · have hsum := sum_update_add (fun file : File ↦ file.carries page writable) s.files f file
    have hbal := hcarriers page writable
    rw [hfiles, hpipes]
    omega

/-- The same for a change of no file. -/
theorem FileInv.changeCall (h : FileInv s) (hcall : t.call = update s.call p c)
    (hofile : t.ofile = update s.ofile p o) (hfiles : t.files = s.files)
    (hbalance : ∀ g, s.held p g = fdCount o g + c.refs.count g)
    (hfresh : ∀ g ∈ c.fresh, (s.files g).ref = 1 ∧ (s.files g).type = .none)
    (hcleared : ∀ fd : Fd, fd.val < c.cleared → o fd = none) (hborn : s.call p ≠ .born)
    (hnew : ∀ np i, c ≠ .forking np i)
    (hcarriers : ∀ page writable, c.carries page writable + openEnds s.pipes page writable =
      (s.call p).carries page writable + openEnds t.pipes page writable)
    (hpanic : t.panic = none) : FileInv t := by
  refine h.change hcall hofile (fun _ _ _ ↦ by rw [hfiles]) (fun g ↦ by rw [hfiles, hbalance])
    (hfiles ▸ h.free) (hfiles ▸ hfresh) hcleared hborn hnew (fun page writable ↦ ?_) hpanic
  have hbal := hcarriers page writable
  rw [hfiles]
  omega

/-- The process goes on to another place with the references it has. -/
theorem FileInv.setCall (h : FileInv s) (hcall : s.call p = d) (hrefs : c.refs = d.refs)
    (hcarries : c.carries = d.carries) (hfresh : c.fresh = [])
    (hcleared : ∀ fd : Fd, fd.val < c.cleared → s.ofile p fd = none) (hborn : d ≠ .born)
    (hnew : ∀ np i, c ≠ .forking np i) : FileInv (s.setCall p c) := by
  refine h.changeCall (o := s.ofile p) rfl (update_eq_self p s.ofile).symm rfl (fun g ↦ ?_) ?_
    hcleared (hcall ▸ hborn) hnew (fun _ _ ↦ by rw [hcall, hcarries]; rfl) h.panic
  · rw [Files.held, hcall, hrefs]
  · rw [hfresh]
    exact nofun

end Change

/-! ### The operations -/

section Operations

variable [Fintype ι] [DecidableEq ι] {s t : Files ι} {p np : ι} {next : AfterClose} {i page : ℕ}
  {rf wf : FileId} {type : FileType} {w : Bool} {ff : File} {call : ι → FileCall ι} {c : FileCall ι}
  {fd : Fd}

omit [DecidableEq ι] in
theorem FileInv.held_pos (h : FileInv s) (hpos : 0 < s.held p f) : 0 < (s.files f).ref :=
  Nat.lt_of_lt_of_le hpos (h.counted.le p f)

/-- A process gives one reference up; nothing it still has is lost. -/
theorem FileInv.fileclose (h : FileInv s) {o : Fd → Option FileId}
    (hheld : ∀ g, s.held p g = fdCount o g + next.refs.count g + if g = f then 1 else 0)
    (hcleared : ∀ fd : Fd, fd.val < next.cleared → o fd = none) (hborn : s.call p ≠ .born)
    (hcarries : ∀ page writable, (s.call p).carries page writable = 0) :
    FileInv (fileclose p f next (s.setOfile p o)) := by
  have hpos : 0 < (s.files f).ref := h.held_pos (p := p) (by rw [hheld, if_pos rfl]; omega)
  have hmine : s.held p f ≠ 0 := by
    rw [hheld, if_pos rfl]
    omega
  obtain ⟨hrefs, hclearedCall, hfresh⟩ := AfterClose.call_spec (ι := ι) next
  -- Both sections take one reference off the count.
  have hbalance (file : File) (hfile : file.ref + 1 = (s.files f).ref) (g : FileId) :
      (update s.files f file g).ref + s.held p g =
        (s.files g).ref + (fdCount o g + next.refs.count g) := by
    rw [hheld]
    by_cases hg : g = f
    · rw [hg, update_self, if_pos rfl]
      omega
    · rw [update_of_ne hg, if_neg hg]
      omega
  unfold Xv6.fileclose
  rw [if_neg (show ¬((s.setOfile p o).files f).ref < 1 by
    rw [show (s.setOfile p o).files = s.files from rfl]; omega)]
  split_ifs with hlast
  · have hmore : 0 < (s.files f).ref - 1 := hlast
    refine h.changeFile (c := next.call) (o := o) (f := f) rfl rfl rfl (.inl hmine) ?_ ?_ ?_
      ?_ hborn next.call_ne_forking ?_ rfl h.panic
    · rw [hrefs]
      refine hbalance _ ?_
      show (s.files f).ref - 1 + 1 = (s.files f).ref
      omega
    · intro hzero
      dsimp only at hzero
      omega
    · rw [hfresh]
      intro g hg
      cases hg
    · rwa [hclearedCall]
    · intro page writable
      rw [next.call_carries, hcarries]
      rfl
  · have hone : (s.files f).ref = 1 := by
      have hle : ¬0 < (s.files f).ref - 1 := hlast
      omega
    refine h.changeFile (c := .releasing (s.files f) next) (o := o) (f := f) rfl rfl rfl
      (.inl hmine) (hbalance _ (by dsimp only; omega)) (fun _ ↦ rfl) nofun
      hcleared hborn (fun _ _ ↦ by simp) ?_ rfl h.panic
    intro page writable
    rw [carries_of_none rfl, hcarries, FileCall.carries]
    omega

/-- A process gets a free file, and has it in a local variable. -/
theorem FileInv.filealloc (h : FileInv s) {found : FileId → FileCall ι} {full : FileCall ι}
    (hrefs : ∀ g, (found g).refs = (s.call p).refs ++ [g])
    (hfresh : ∀ g, (found g).fresh = (s.call p).fresh ++ [g]) (hfull : full.refs = (s.call p).refs)
    (hcleared : full.cleared = 0 ∧ ∀ g, (found g).cleared = 0) (hfullFresh : full.fresh = [])
    (hborn : s.call p ≠ .born)
    (hnew : (∀ np i, full ≠ .forking np i) ∧ ∀ g np i, found g ≠ .forking np i)
    (hcarries : ∀ page writable, (s.call p).carries page writable = 0 ∧
      full.carries page writable = 0 ∧ ∀ g, (found g).carries page writable = 0) :
    FileInv (filealloc p found full s) := by
  unfold Xv6.filealloc
  cases hunused : s.unused with
  | some f =>
    have hzero := Files.unused_eq_some hunused
    refine h.changeFile (c := found f) (o := s.ofile p) (f := f) rfl
      (update_eq_self p s.ofile).symm rfl (.inr hzero) (fun g ↦ ?_)
      nofun (fun g hg ↦ ?_) (fun fd hfd ↦ ?_) hborn (hnew.2 f)
      (fun page writable ↦ ?_) rfl h.panic
    · rw [hrefs, List.count_append, Files.held, ref_update (d := 1) (by simp [hzero]),
        List.count_singleton]
      simp only [beq_iff_eq, eq_comm (a := f)]
      omega
    · rw [hfresh, List.mem_append, List.mem_singleton] at hg
      rcases hg with hg | hg
      · obtain ⟨hone, htype⟩ := h.fresh p g hg
        have hgf : g ≠ f := by
          rintro rfl
          omega
        rw [show ((s.setFile f _).setCall p _).files g = s.files g from
          update_of_ne hgf _ _]
        exact ⟨hone, htype⟩
      · rw [hg, show ((s.setFile f _).setCall p _).files f = _ from update_self ..]
        exact ⟨rfl, h.free f hzero⟩
    · rw [hcleared.2] at hfd
      omega
    · rw [(hcarries page writable).1, (hcarries page writable).2.2]
      rfl
  | none =>
    refine h.setCall rfl hfull ?_ hfullFresh (by simp [hcleared.1]) hborn hnew.1
    funext page writable
    rw [(hcarries page writable).1, (hcarries page writable).2.1]

omit [Fintype ι] [DecidableEq ι] in
theorem held_user (hcall : s.call p = .user) (g : FileId) : s.held p g = fdCount (s.ofile p) g := by
  simp only [Files.held, hcall, FileCall.refs, List.count_nil, Nat.add_zero]

omit [Fintype ι] [DecidableEq ι] in
theorem filedup_eq (h : 0 < (s.files f).ref) :
    filedup f s = s.setFile f { s.files f with ref := (s.files f).ref + 1 } := by
  rw [filedup, if_neg (Nat.not_lt.mpr h)]

omit [Fintype ι] in
theorem setOfile_self (s : Files ι) (p : ι) : s.setOfile p (s.ofile p) = s := by
  rw [Files.setOfile, update_eq_self]

theorem FileInv.sysDup (h : FileInv s) (hcall : s.call p = .user) (fd : Fd) :
    FileInv (sysDup p fd s) := by
  unfold Xv6.sysDup
  cases hfd : s.ofile p fd with
  | none => exact h
  | some f =>
    dsimp only
    cases hfree : fdalloc (s.ofile p) with
    | none => exact h
    | some fd' =>
      dsimp only
      have hmine : 0 < s.held p f := held_user hcall f ▸ fdCount_pos hfd
      have hpos : 0 < (s.files f).ref := h.held_pos hmine
      rw [filedup_eq (show 0 < ((s.setOfile p _).files f).ref from hpos)]
      refine h.changeFile (c := .user) (o := update (s.ofile p) fd' (some f)) (f := f)
        (hcall ▸ (update_eq_self p s.call).symm) rfl rfl (.inl (by omega)) (fun g ↦ ?_)
        nofun nofun nofun
        (by simp [hcall]) (by simp) (fun page writable ↦ ?_) rfl h.panic
      · rw [held_user hcall, fdCount_install (fdalloc_eq_some hfree), ref_update rfl]
        simp only [FileCall.refs, List.count_nil]
        omega
      · rw [hcall]
        rfl

theorem FileInv.sysClose (h : FileInv s) (hcall : s.call p = .user) (fd : Fd) :
    FileInv (sysClose p fd s) := by
  unfold Xv6.sysClose
  cases hfd : s.ofile p fd with
  | none => exact h
  | some =>
    refine h.fileclose (fun g ↦ ?_) nofun (by simp [hcall]) fun _ _ ↦ ?_
    · rw [held_user hcall, fdCount_clear hfd]
      simp only [AfterClose.refs, List.count_nil, Nat.add_zero]
    · rw [hcall]
      rfl

/-- A file that has been allocated is installed under a descriptor and set up. -/
theorem FileInv.sysOpenInstall (h : FileInv s) (hcall : s.call p = .opening f)
    (htype : ∀ page, type ≠ .pipe page) (readable writable : Bool) :
    FileInv (sysOpenInstall p f type readable writable s) := by
  obtain ⟨hone, hnone⟩ := h.fresh p f (by simp [hcall, FileCall.fresh])
  have hheld (g : FileId) : s.held p g = fdCount (s.ofile p) g + [f].count g := by
    simp only [Files.held, hcall, FileCall.refs]
  unfold Xv6.sysOpenInstall
  cases hfree : fdalloc (s.ofile p) with
  | none =>
    exact h.setCall hcall rfl rfl rfl nofun nofun nofun
  | some fd =>
    refine h.changeFile (c := .user) (o := update (s.ofile p) fd (some f)) (f := f) rfl rfl
      rfl (.inl ?_) (fun g ↦ ?_) (fun hzero ↦ ?_) nofun
      nofun (by simp [hcall]) (by simp) (fun page w ↦ ?_) rfl h.panic
    · rw [hheld, List.count_singleton_self]
      omega
    · rw [hheld, fdCount_install (fdalloc_eq_some hfree)]
      simp only [FileCall.refs, List.count_nil, List.count_singleton, beq_iff_eq]
      by_cases hg : g = f
      · rw [hg, update_self, if_pos rfl]
      · rw [update_of_ne hg, if_neg hg, if_neg (Ne.symm hg)]
    · have hzero' : (s.files f).ref = 0 := hzero
      omega
    · rw [carries_of_none hnone, hcall, File.carries, if_neg fun hpipe ↦ htype page hpipe.1]
      rfl

theorem openEnds_make (h : pipes page = none) (n : ℕ) (w : Bool) :
    openEnds (update pipes page (some ⟨true, true⟩)) n w =
      openEnds pipes n w + if n = page then 1 else 0 := by
  by_cases hn : n = page
  · rw [hn, openEnds, openEnds, update_self, h, if_pos rfl]
    cases w <;> rfl
  · rw [openEnds, openEnds, update_of_ne hn, if_neg hn, Nat.add_zero]

/-- `pipealloc` sets up the two files of a new pipe. -/
theorem FileInv.pipeMade (h : FileInv s) (hcall : s.call p = .second rf wf)
    (hclosed : s.pipes page = none) (hne : rf ≠ wf) :
    FileInv (pipeallocMake p rf wf (some page) s) := by
  obtain ⟨hrf, hrfType⟩ := h.fresh p rf (by simp [hcall, FileCall.fresh])
  obtain ⟨hwf, hwfType⟩ := h.fresh p wf (by simp [hcall, FileCall.fresh])
  have hheld (g : FileId) : s.held p g = fdCount (s.ofile p) g + [rf, wf].count g := by
    simp only [Files.held, hcall, FileCall.refs]
  let rfile : File := { s.files rf with type := .pipe page, readable := true, writable := false }
  let wfile : File := { s.files wf with type := .pipe page, readable := false, writable := true }
  have hfiles : (Xv6.pipeallocMake p rf wf (some page) s).files =
      update (update s.files rf rfile) wf wfile := by
    have hwf' : update s.files rf rfile wf = s.files wf :=
      update_of_ne (Ne.symm hne) _ _
    simp only [wfile, ← hwf']
    rfl
  have hsame {g : FileId} (hr : g ≠ rf) (hw : g ≠ wf) :
      (Xv6.pipeallocMake p rf wf (some page) s).files g = s.files g := by
    rw [hfiles, update_of_ne hw, update_of_ne hr]
  have href (g : FileId) :
      ((Xv6.pipeallocMake p rf wf (some page) s).files g).ref = (s.files g).ref := by
    by_cases hw : g = wf
    · rw [hfiles, hw, update_self]
    · by_cases hr : g = rf
      · rw [hfiles, update_of_ne hw, hr, update_self]
      · rw [hsame hr hw]
  refine h.change (c := .piped rf wf) (o := s.ofile p) rfl (update_eq_self p s.ofile).symm
    (fun g hg _ ↦ ?_) (fun g ↦ ?_) (fun g hg ↦ ?_) nofun
    nofun (by simp [hcall]) (by simp) (fun n w ↦ ?_) h.panic
  · rw [hheld] at hg
    have hnot : g ∉ [rf, wf] := List.count_eq_zero.mp (by omega)
    rw [List.mem_cons, List.mem_singleton, not_or] at hnot
    exact hsame hnot.1 hnot.2
  · rw [href, hheld]
    rfl
  · rw [href] at hg
    have hr : g ≠ rf := by
      rintro rfl
      omega
    have hw : g ≠ wf := by
      rintro rfl
      omega
    rw [hsame hr hw]
    exact h.free g hg
  · have hfirst := sum_update_add (fun file : File ↦ file.carries n w) s.files rf rfile
    have hsecond := sum_update_add (fun file : File ↦ file.carries n w)
      (update s.files rf rfile) wf wfile
    simp only [update_of_ne (Ne.symm hne)] at hsecond
    rw [carries_of_none hrfType] at hfirst
    rw [carries_of_none hwfType] at hsecond
    have hboth : rfile.carries n w + wfile.carries n w = if n = page then 1 else 0 := by
      simp only [rfile, wfile, File.carries, FileType.pipe.injEq]
      by_cases hn : n = page
      · rw [hn]
        cases w <;> simp
      · simp [hn, Ne.symm hn]
    have hpipes : (Xv6.pipeallocMake p rf wf (some page) s).pipes =
        update s.pipes page (some ⟨true, true⟩) := rfl
    rw [hfiles, hpipes, openEnds_make hclosed, hcall]
    simp only [FileCall.carries]
    omega

/-- A pipe gets a page, and each of its ends one file. -/
theorem FileInv.pipeallocMake (h : FileInv s) (hcall : s.call p = .second rf wf) {page : Option ℕ}
    (hpage : ∀ n, page = some n → s.pipes n = none) : FileInv (pipeallocMake p rf wf page s) := by
  have hrf := (h.fresh p rf (by simp [hcall, FileCall.fresh])).1
  have hheld (g : FileId) : s.held p g = fdCount (s.ofile p) g + [rf, wf].count g := by
    simp only [Files.held, hcall, FileCall.refs]
  have hne : rf ≠ wf := by
    rintro rfl
    have hle := h.counted.le p rf
    rw [hheld, List.count_cons_self, List.count_singleton_self, hrf] at hle
    omega
  unfold Xv6.pipeallocMake
  cases page with
  | none =>
    exact h.setCall hcall rfl rfl rfl nofun nofun nofun
  | some page => exact h.pipeMade hcall (hpage page rfl) hne

/-- The references of `sys_pipe` stay in its local variables, or move to two descriptors. -/
theorem FileInv.sysPipeInstall (h : FileInv s) (hcall : s.call p = .piped rf wf)
    (copyout : Bool) : FileInv (sysPipeInstall p rf wf copyout s) := by
  have hheld (g : FileId) : s.held p g = fdCount (s.ofile p) g + [rf, wf].count g := by
    simp only [Files.held, hcall, FileCall.refs]
  have hfail : FileInv (s.setCall p (.dropping rf (.closes wf))) :=
    h.setCall hcall rfl rfl rfl nofun nofun nofun
  unfold Xv6.sysPipeInstall
  cases hfirst : fdalloc (s.ofile p) with
  | none => exact hfail
  | some fd0 =>
    dsimp only
    cases hsecond : fdalloc (update (s.ofile p) fd0 (some rf)) with
    | none => exact hfail
    | some fd1 =>
      dsimp only
      split_ifs
      · refine h.changeCall (c := .user)
          (o := update (update (s.ofile p) fd0 (some rf)) fd1 (some wf)) rfl rfl
          rfl (fun g ↦ ?_) nofun nofun (by simp [hcall])
          (by simp) (fun _ _ ↦ by rw [hcall]; rfl) h.panic
        rw [hheld, fdCount_install (fdalloc_eq_some hsecond),
          fdCount_install (fdalloc_eq_some hfirst)]
        simp only [FileCall.refs, List.count_nil, List.count_cons, beq_iff_eq, eq_comm (b := g)]
        omega
      · exact hfail

theorem FileInv.drop (h : FileInv s) (hcall : s.call p = .dropping f next) :
    FileInv (Xv6.fileclose p f next s) := by
  have hclose : FileInv (Xv6.fileclose p f next (s.setOfile p (s.ofile p))) := by
    refine h.fileclose (fun g ↦ ?_) (fun fd hfd ↦ h.cleared p fd (by rw [hcall]; exact hfd))
      (by simp [hcall]) fun _ _ ↦ ?_
    · simp only [Files.held, hcall, FileCall.refs, List.count_cons, beq_iff_eq, eq_comm (b := g)]
      omega
    · rw [hcall]
      rfl
  rwa [setOfile_self] at hclose

omit [Fintype ι] [DecidableEq ι] in
theorem pipeclose_frame (page : ℕ) (w : Bool) (s : Files ι) :
    (Files.pipeclose page w s).files = s.files ∧ (Files.pipeclose page w s).ofile = s.ofile ∧
      (Files.pipeclose page w s).call = s.call ∧ (Files.pipeclose page w s).panic = s.panic := by
  unfold Files.pipeclose
  split <;> exact ⟨rfl, rfl, rfl, rfl⟩

omit [Fintype ι] [DecidableEq ι] in
/-- `pipeclose` closes an end that is open, and no other. -/
theorem openEnds_pipeclose (hopen : openEnds s.pipes page w = 1) (n : ℕ) (v : Bool) :
    openEnds s.pipes n v =
      (if n = page ∧ v = w then 1 else 0) + openEnds (Files.pipeclose page w s).pipes n v := by
  unfold Files.pipeclose
  cases he : s.pipes page with
  | none =>
    rw [openEnds, he] at hopen
    cases hopen
  | some e =>
    dsimp only
    by_cases hn : n = page
    · rw [hn, openEnds, openEnds, update_self, he]
      rw [openEnds, he] at hopen
      obtain ⟨r, x⟩ := e
      cases w <;> cases v <;> cases r <;> cases x <;> simp [PipeFlags.isOpen] at hopen ⊢
    · have hother : ¬(n = page ∧ v = w) := fun h ↦ hn h.1
      rw [openEnds, openEnds, update_of_ne hn, if_neg hother, Nat.zero_add]

/-- The last reference of an end of a pipe closes this end, and no other. -/
theorem FileInv.filecloseRest (h : FileInv s) (hcall : s.call p = .releasing ff next) :
    FileInv (filecloseRest p ff next s) := by
  obtain ⟨hrefs, hclearedCall, hfresh⟩ := AfterClose.call_spec (ι := ι) next
  -- In both cases the process goes on with the references it has.
  have hrest {t : Files ι} (hfiles : t.files = s.files) (hofile : t.ofile = s.ofile)
      (ht : t.call = update s.call p next.call) (hpanic : t.panic = s.panic)
      (hpipes : ∀ page w, openEnds s.pipes page w = ff.carries page w + openEnds t.pipes page w) :
      FileInv t := by
    refine h.changeCall (c := next.call) (o := s.ofile p) ht
      (hofile.trans (update_eq_self p s.ofile).symm) hfiles (fun g ↦ ?_) (fun g hg ↦ ?_)
      (fun fd hfd ↦ ?_) (by simp [hcall]) next.call_ne_forking (fun page w ↦ ?_)
      (hpanic.trans h.panic)
    · rw [hrefs, Files.held, hcall]
      rfl
    · rw [hfresh] at hg
      cases hg
    · rw [hclearedCall] at hfd
      exact h.cleared p fd (by rw [hcall]; exact hfd)
    · rw [next.call_carries, hcall, Nat.zero_add]
      exact hpipes page w
  unfold Xv6.filecloseRest
  split
  · rename_i page htype
    have hcarries (n : ℕ) (v : Bool) :
        ff.carries n v = if n = page ∧ v = ff.writable then 1 else 0 := by
      rw [File.carries, htype]
      simp only [FileType.pipe.injEq, eq_comm]
    have hopen : openEnds s.pipes page ff.writable = 1 := by
      have hle : (s.call p).carries page ff.writable ≤
          ∑ q, (s.call q).carries page ff.writable :=
        le_sum (fun q ↦ (s.call q).carries page ff.writable) p
      have hmine : (s.call p).carries page ff.writable = 1 := by
        rw [hcall, FileCall.carries, hcarries, if_pos ⟨rfl, rfl⟩]
      have hcarriers := h.carriers page ff.writable
      have hmax : openEnds s.pipes page ff.writable ≤ 1 := by
        rw [openEnds]
        split_ifs <;> omega
      omega
    obtain ⟨hfiles, hofile, hcalls, hpanic⟩ := pipeclose_frame page ff.writable s
    refine hrest hfiles hofile ?_ hpanic fun n v ↦ ?_
    · rw [Files.setCall, hcalls]
    · rw [hcarries]
      exact openEnds_pipeclose hopen n v
  · rename_i hnone
    refine hrest rfl rfl rfl rfl fun page w ↦ ?_
    rw [File.carries, if_neg fun hpipe ↦ hnone page hpipe.1, Nat.zero_add]
    rfl

theorem FileInv.kexitTurn (h : FileInv s) {fd : ℕ} (hcall : s.call p = .exiting fd) :
    FileInv (kexitTurn p fd s) := by
  have hheld (g : FileId) : s.held p g = fdCount (s.ofile p) g := by
    simp only [Files.held, hcall, FileCall.refs, List.count_nil, Nat.add_zero]
  have hcleared (fd' : Fd) (hlt : fd'.val < fd) : s.ofile p fd' = none :=
    h.cleared p fd' (by rw [hcall]; exact hlt)
  unfold Xv6.kexitTurn
  split_ifs with hfd
  · cases hfile : s.ofile p ⟨fd, hfd⟩ with
    | none =>
      refine h.setCall hcall rfl rfl rfl (fun fd' hlt ↦ ?_) nofun nofun
      by_cases heq : fd'.val = fd
      · rwa [show fd' = ⟨fd, hfd⟩ from Fin.ext heq]
      · exact hcleared fd' (by have hle : fd'.val < fd + 1 := hlt; omega)
    | some =>
      refine h.fileclose (fun g ↦ ?_) (fun fd' hlt ↦ ?_) (by simp [hcall]) fun _ _ ↦ ?_
      · rw [hheld, fdCount_clear hfile]
        simp only [AfterClose.refs, List.count_nil, Nat.add_zero]
      · by_cases heq : fd'.val = fd
        · rw [show fd' = ⟨fd, hfd⟩ from Fin.ext heq, update_self]
        · rw [update_of_ne (fun hfd' ↦ heq (congrArg Fin.val hfd'))]
          exact hcleared fd' (by have hle : fd'.val < fd + 1 := hlt; omega)
      · rw [hcall]
        rfl
  · exact h.setCall hcall rfl rfl rfl (fun fd' _ ↦ hcleared fd' (by omega)) nofun nofun

/-- The places that two calls stand for hold the same. -/
structure SamePlace (c d : FileCall ι) : Prop where
  refs : d.refs = c.refs
  carries : d.carries = c.carries
  fresh : d.fresh = c.fresh
  cleared : d.cleared ≤ c.cleared

omit [Fintype ι] [DecidableEq ι] in
theorem SamePlace.refl (c : FileCall ι) : SamePlace c c := ⟨rfl, rfl, rfl, le_rfl⟩

omit [DecidableEq ι] in
/-- A step of `kfork` between the copies of the descriptors. -/
theorem FileInv.samePlaces (h : FileInv s) (hfiles : t.files = s.files) (hofile : t.ofile = s.ofile)
    (hpipes : t.pipes = s.pipes) (hpanic : t.panic = s.panic)
    (hplace : ∀ q, SamePlace (s.call q) (t.call q)) (hforking : ∀ q m i, t.call q = .forking m i →
      t.call m = .born ∧ ∀ fd : Fd, i ≤ fd.val → s.ofile m fd = none)
    (hparent : ∀ q r m i j, t.call q = .forking m i → t.call r = .forking m j → q = r) :
    FileInv t := by
  refine ⟨fun g ↦ ?_, hfiles ▸ h.free, fun q g hg ↦ ?_, fun q fd hfd ↦ ?_, hofile ▸ hforking,
    hparent, fun page w ↦ ?_, hpanic.trans h.panic⟩
  · have hsum : ∑ q, t.held q g = ∑ q, s.held q g :=
      Finset.sum_congr rfl fun q _ ↦ by rw [Files.held, Files.held, (hplace q).refs, hofile]
    rw [hsum, hfiles]
    exact h.counted g
  · rw [hfiles]
    exact h.fresh q g ((hplace q).fresh ▸ hg)
  · rw [hofile]
    exact h.cleared q fd (Nat.lt_of_lt_of_le hfd (hplace q).cleared)
  · have hsum : ∑ q, (t.call q).carries page w = ∑ q, (s.call q).carries page w :=
      Finset.sum_congr rfl fun q _ ↦ by rw [(hplace q).carries]
    rw [hsum, hfiles, hpipes]
    exact h.carriers page w

omit [Fintype ι] in
theorem samePlace_update (h : SamePlace (call p) c) (q : ι) :
    SamePlace (call q) (update call p c q) := by
  by_cases hq : q = p
  · rwa [hq, update_self]
  · rw [update_of_ne hq]
    exact .refl _

omit [Fintype ι] in
theorem samePlace_update_update (h : SamePlace (call p) c) (h' : SamePlace (call np) d) (q : ι) :
    SamePlace (call q) (update (update call p c) np d q) := by
  by_cases hq : q = np
  · rwa [hq, update_self]
  · rw [update_of_ne hq]
    exact samePlace_update h q

/-- A process starts to copy its descriptors to one that has none. -/
theorem FileInv.fork (h : FileInv s) (hcall : s.call p = .user)
    (hnp : s.call np = .absent) : FileInv ((s.setCall p (.forking np 0)).setCall np .born) := by
  have hne : p ≠ np := by
    rintro rfl
    cases hcall.symm.trans hnp
  have hforks {q m : ι} {i : ℕ}
      (hq : update (update s.call p (.forking np 0)) np .born q = .forking m i) :
      q = p ∧ m = np ∨ s.call q = .forking m i := by
    rcases update_cases hq with ⟨-, hborn⟩ | ⟨-, hq⟩
    · cases hborn
    · rcases update_cases hq with ⟨hqp, heq⟩ | ⟨-, hq⟩
      · cases heq
        exact .inl ⟨hqp, rfl⟩
      · exact .inr hq
  refine h.samePlaces rfl rfl rfl rfl (samePlace_update_update (hcall ▸ ⟨rfl, rfl, rfl, le_rfl⟩)
    (hnp ▸ ⟨rfl, rfl, rfl, Nat.zero_le _⟩)) (fun q m i hq ↦ ?_) fun q r m i j hq hr ↦ ?_
  · rcases hforks hq with ⟨-, rfl⟩ | hq
    · exact ⟨update_self .., fun fd _ ↦ h.cleared m fd (by rw [hnp]; exact fd.isLt)⟩
    · obtain ⟨hborn, hnone⟩ := h.forking q m i hq
      have hmp : m ≠ p := by
        rintro rfl
        cases hcall.symm.trans hborn
      have hmn : m ≠ np := by
        rintro rfl
        cases hnp.symm.trans hborn
      exact ⟨((update_of_ne hmn _ _).trans (update_of_ne hmp _ _)).trans hborn,
        hnone⟩
  · rcases hforks hq with ⟨hqp, hm⟩ | hq
    · rcases hforks hr with ⟨hrp, -⟩ | hr
      · rw [hqp, hrp]
      · rw [hm] at hr
        cases hnp.symm.trans (h.forking r np j hr).1
    · rcases hforks hr with ⟨-, hm⟩ | hr
      · rw [hm] at hq
        cases hnp.symm.trans (h.forking q np i hq).1
      · exact h.parent q r m i j hq hr

/-- The loop of `kfork` goes on to the next descriptor. -/
theorem FileInv.forkNext (h : FileInv s) (hcall : s.call p = .forking np i) :
    FileInv (s.setCall p (.forking np (i + 1))) := by
  obtain ⟨hborn, hnone⟩ := h.forking p np i hcall
  have hforks {q m : ι} {j : ℕ}
      (hq : update s.call p (.forking np (i + 1)) q = .forking m j) :
      q = p ∧ m = np ∧ j = i + 1 ∨ s.call q = .forking m j := by
    rcases update_cases hq with ⟨hqp, heq⟩ | ⟨-, hq⟩
    · cases heq
      exact .inl ⟨hqp, rfl, rfl⟩
    · exact .inr hq
  have hstill {m : ι} (hm : s.call m = .born) :
      update s.call p (.forking np (i + 1)) m = .born := by
    rw [update_of_ne, hm]
    rintro rfl
    cases hcall.symm.trans hm
  refine h.samePlaces rfl rfl rfl rfl (samePlace_update (hcall ▸ ⟨rfl, rfl, rfl, le_rfl⟩))
    (fun q m j hq ↦ ?_) fun q r m j l hq hr ↦ ?_
  · rcases hforks hq with ⟨-, rfl, rfl⟩ | hq
    · exact ⟨hstill hborn, fun fd hfd ↦ hnone fd (by omega)⟩
    · obtain ⟨hm, hnone'⟩ := h.forking q m j hq
      exact ⟨hstill hm, hnone'⟩
  · rcases hforks hq with ⟨hqp, hm, -⟩ | hq
    · rcases hforks hr with ⟨hrp, -, -⟩ | hr
      · rw [hqp, hrp]
      · rw [hqp]
        exact h.parent p r np i l hcall (hm ▸ hr)
    · rcases hforks hr with ⟨hrp, hm, -⟩ | hr
      · rw [hrp]
        exact h.parent q p np j i (hm ▸ hq) hcall
      · exact h.parent q r m j l hq hr

/-- One descriptor is copied to the child, which had none there. -/
theorem FileInv.forkCopy (h : FileInv s) (hcall : s.call p = .forking np (i + 1)) (hfd : fd.val = i)
    (hf : s.ofile p fd = some f) (hfree : s.ofile np fd = none)
    (hfiles : t.files = update s.files f { s.files f with ref := (s.files f).ref + 1 })
    (hofile : t.ofile = update s.ofile np (update (s.ofile np) fd (some f)))
    (hcalls : t.call = s.call) (hpipes : t.pipes = s.pipes) (hpanic : t.panic = s.panic) :
    FileInv t := by
  obtain ⟨hborn, -⟩ := h.forking p np (i + 1) hcall
  have hmine : 0 < s.held p f := Nat.lt_of_lt_of_le (fdCount_pos hf) (Nat.le_add_right _ _)
  have hkeeps (g : FileId) (hg : g ≠ f) : t.files g = s.files g := by
    rw [hfiles, update_of_ne hg]
  refine ⟨?_, fun g hg ↦ ?_, fun q g hg ↦ ?_, fun q fd' hlt ↦ ?_, fun q m j hq ↦ ?_,
    hcalls ▸ h.parent, fun page w ↦ ?_, hpanic.trans h.panic⟩
  · have hheld : t.held = update s.held np fun g ↦
        fdCount (update (s.ofile np) fd (some f)) g + (s.call np).refs.count g :=
      held_eq_update (hcalls.trans (update_eq_self np s.call).symm) hofile
    rw [hheld]
    refine h.counted.change fun g ↦ ?_
    rw [fdCount_install hfree, hfiles, Files.held, ref_update rfl]
    omega
  · have hgf : g ≠ f := by
      rintro rfl
      rw [hfiles, update_self] at hg
      cases hg
    rw [hkeeps g hgf] at hg ⊢
    exact h.free g hg
  · -- A file with a descriptor in the parent is fresh for nobody.
    rw [hcalls] at hg
    have hgf : g ≠ f := by
      rintro rfl
      have hqp : q ≠ p := by
        rintro rfl
        rw [hcall] at hg
        cases hg
      have htwo := h.counted.add_le hqp g
      have hone := (h.fresh q g hg).1
      have hq := s.fresh_held hg
      omega
    rw [hkeeps g hgf]
    exact h.fresh q g hg
  · rw [hcalls] at hlt
    have hq : q ≠ np := by
      rintro rfl
      rw [hborn] at hlt
      exact absurd hlt (Nat.not_lt_zero _)
    rw [hofile, update_of_ne hq]
    exact h.cleared q fd' hlt
  · rw [hcalls] at hq ⊢
    obtain ⟨hm, hnone⟩ := h.forking q m j hq
    refine ⟨hm, fun fd' hfd' ↦ ?_⟩
    by_cases hmn : m = np
    · rw [hmn] at hq ⊢
      have hqp := h.parent q p np j (i + 1) hq hcall
      rw [hqp, hcall] at hq
      cases hq
      have hne : fd' ≠ fd := by
        rintro rfl
        omega
      rw [hofile, update_self, update_of_ne hne]
      exact hmn ▸ hnone fd' hfd'
    · rw [hofile, update_of_ne hmn]
      exact hnone fd' hfd'
  · have hsum := sum_update_add (fun file : File ↦ file.carries page w) s.files f
      { s.files f with ref := (s.files f).ref + 1 }
    have hsame : ({ s.files f with ref := (s.files f).ref + 1 } : File).carries page w =
        (s.files f).carries page w := rfl
    have hcarriers := h.carriers page w
    rw [hfiles, hcalls, hpipes]
    omega

theorem FileInv.kforkTurn (h : FileInv s) (hcall : s.call p = .forking np i) :
    FileInv (kforkTurn p np i s) := by
  obtain ⟨hborn, hnone⟩ := h.forking p np i hcall
  have hne : p ≠ np := by
    rintro rfl
    cases hcall.symm.trans hborn
  unfold Xv6.kforkTurn
  split_ifs with hi
  · cases hfile : s.ofile p ⟨i, hi⟩ with
    | none => exact h.forkNext hcall
    | some f =>
      have hpos : 0 < (s.files f).ref :=
        h.held_pos (Nat.lt_of_lt_of_le (fdCount_pos hfile) (Nat.le_add_right _ _))
      dsimp only
      rw [filedup_eq (show 0 < ((s.setOfile np _).files f).ref from hpos)]
      have hnext : (s.setCall p (.forking np (i + 1))).call p = .forking np (i + 1) :=
        update_self ..
      exact (h.forkNext hcall).forkCopy hnext rfl hfile (hnone ⟨i, hi⟩ le_rfl) rfl rfl rfl
        rfl rfl
  · -- The parent and the child go on, each for itself.
    have hforks {q m : ι} {j : ℕ}
        (hq : update (update s.call p .user) np .user q = .forking m j) :
        q ≠ p ∧ s.call q = .forking m j := by
      rcases update_cases hq with ⟨-, heq⟩ | ⟨-, hq⟩
      · cases heq
      · rcases update_cases hq with ⟨-, heq⟩ | ⟨hqp, hq⟩
        · cases heq
        · exact ⟨hqp, hq⟩
    refine h.samePlaces rfl rfl rfl rfl (samePlace_update_update
      (hcall ▸ ⟨rfl, rfl, rfl, le_rfl⟩) (hborn ▸ ⟨rfl, rfl, rfl, le_rfl⟩)) (fun q m j hq ↦ ?_)
      fun q r m j l hq hr ↦ ?_
    · obtain ⟨hqp, hq'⟩ := hforks hq
      obtain ⟨hm, hnone'⟩ := h.forking q m j hq'
      have hmp : m ≠ p := by
        rintro rfl
        cases hcall.symm.trans hm
      have hmn : m ≠ np := by
        rintro rfl
        exact hqp (h.parent q p m j i hq' hcall)
      exact ⟨((update_of_ne hmn _ _).trans (update_of_ne hmp _ _)).trans hm,
        hnone'⟩
    · exact h.parent q r m j l (hforks hq).2 (hforks hr).2

end Operations

/-! ### Whole runs -/

section Runs

variable [Fintype ι] [DecidableEq ι] {s t : Files ι} {e : FileEvent ι} {init : ι}

theorem fileInv_step (hstep : fileStep s e = some t) (h : FileInv s) : FileInv t := by
  unfold fileStep at hstep
  rw [if_neg (by simp [h.panic])] at hstep
  cases e with
  | dup _ fd =>
    simp only [Option.ite_none_right_eq_some, Option.some.injEq] at hstep
    exact hstep.2 ▸ h.sysDup hstep.1 fd
  | close _ fd =>
    simp only [Option.ite_none_right_eq_some, Option.some.injEq] at hstep
    exact hstep.2 ▸ h.sysClose hstep.1 fd
  | openAlloc | pipeFirst =>
    obtain ⟨hcall, ⟨⟩⟩ := Option.ite_none_right_eq_some.mp hstep
    exact h.filealloc (by simp [hcall, FileCall.refs]) (by simp [hcall, FileCall.fresh])
      (by simp [hcall]) ⟨rfl, fun _ ↦ rfl⟩ rfl (by simp [hcall]) ⟨by simp, by simp⟩
      fun _ _ ↦ ⟨by rw [hcall]; rfl, rfl, fun _ ↦ rfl⟩
  | openInstall p type readable writable =>
    dsimp only at hstep
    split at hstep
    · rename_i f ip hcall
      cases hstep
      exact h.sysOpenInstall hcall (by simp) readable writable
    · rename_i f ip major hcall
      cases hstep
      exact h.sysOpenInstall hcall (by simp) readable writable
    · cases hstep
  | pipeSecond p =>
    dsimp only at hstep
    split at hstep <;> cases hstep
    rename_i rf hcall
    exact h.filealloc (by simp [hcall, FileCall.refs]) (by simp [hcall, FileCall.fresh])
      (by simp [hcall, FileCall.refs, AfterClose.refs]) ⟨rfl, fun _ ↦ rfl⟩ rfl (by simp [hcall])
      ⟨by simp, by simp⟩ fun _ _ ↦ ⟨by rw [hcall]; rfl, rfl, fun _ ↦ rfl⟩
  | pipeMake p page =>
    dsimp only at hstep
    split at hstep
    · rename_i rf wf hcall
      split_ifs at hstep with hpage
      cases hstep
      refine h.pipeallocMake hcall fun n hn ↦ ?_
      rw [hn] at hpage
      exact of_decide_eq_true hpage
    · cases hstep
  | pipeInstall _ copyout =>
    dsimp only at hstep
    split at hstep <;> cases hstep
    exact h.sysPipeInstall ‹_› copyout
  | drop =>
    dsimp only at hstep
    split at hstep <;> cases hstep
    exact h.drop ‹_›
  | release =>
    dsimp only at hstep
    split at hstep <;> cases hstep
    exact h.filecloseRest ‹_›
  | fork =>
    simp only [Option.ite_none_right_eq_some, Option.some.injEq] at hstep
    exact hstep.2 ▸ h.fork hstep.1.1 hstep.1.2
  | forkTurn =>
    dsimp only at hstep
    split at hstep <;> cases hstep
    exact h.kforkTurn ‹_›
  | exit p =>
    obtain ⟨hcall, ⟨⟩⟩ := Option.ite_none_right_eq_some.mp hstep
    exact h.setCall hcall rfl rfl rfl nofun nofun nofun
  | exitTurn =>
    dsimp only at hstep
    split at hstep <;> cases hstep
    exact h.kexitTurn ‹_›

theorem fileInv_firstProcess (init : ι) : FileInv (firstProcess init) := by
  have hcall (p : ι) :
      (firstProcess init).call p = .user ∨ (firstProcess init).call p = .absent := by
    unfold firstProcess
    dsimp only
    by_cases hp : p = init
    · rw [hp, update_self]
      exact .inl rfl
    · rw [update_of_ne hp]
      exact .inr rfl
  refine ⟨fun g ↦ ?_, fun _ _ ↦ rfl, fun p g hg ↦ ?_, fun _ _ _ ↦ rfl, fun p np i hp ↦ ?_,
    fun p q np i j hp ↦ ?_, fun page w ↦ ?_, rfl⟩
  · refine (Finset.sum_eq_zero fun p _ ↦ ?_).symm
    have hfds : fdCount ((firstProcess init).ofile p) g = 0 :=
      Finset.sum_eq_zero fun fd _ ↦ if_neg (by simp [firstProcess])
    rw [Files.held, hfds]
    rcases hcall p with hp | hp <;> rw [hp] <;> rfl
  · rcases hcall p with hp' | hp' <;> rw [hp'] at hg <;> cases hg
  · rcases hcall p with hp' | hp' <;> rw [hp'] at hp <;> cases hp
  · rcases hcall p with hp' | hp' <;> rw [hp'] at hp <;> cases hp
  · have hfiles : ∑ f, ((firstProcess init).files f).carries page w = 0 :=
      Finset.sum_eq_zero fun f _ ↦ carries_of_none rfl page w
    have hcalls : ∑ p, ((firstProcess init).call p).carries page w = 0 := by
      refine Finset.sum_eq_zero fun p _ ↦ ?_
      rcases hcall p with hp | hp <;> rw [hp] <;> rfl
    rw [hfiles, hcalls]
    rfl

theorem fileInv_reachable (h : Reachable fileStep (firstProcess init) s) : FileInv s :=
  h.invariant (I := FileInv) (fileInv_firstProcess init) fun _ _ _ ↦ fileInv_step

/-- In every run of any processes the count of a file is the number of descriptors and local
variables that refer to it, so neither `filedup` nor `fileclose` panics. -/
theorem ftable_refs (h : Reachable fileStep (firstProcess init) s) :
    s.panic = none ∧ ∀ f, (s.files f).ref =
      ∑ p, (∑ fd, (if s.ofile p fd = some f then 1 else 0) + (s.call p).refs.count f) :=
  ⟨(fileInv_reachable h).panic, (fileInv_reachable h).counted⟩

/-- A process opens a pipe on page 7, forks, and closes its own descriptor for writing. -/
def sharedPipe : List (Transition (Files Bool) (FileEvent Bool)) × Files Bool :=
  replay fileStep (firstProcess false)
    ([.pipeFirst false, .pipeSecond false, .pipeMake false (some 7), .pipeInstall false true,
        .fork false true] ++
      List.replicate (nofile + 1) (.forkTurn false) ++
      ((List.finRange nofile).filter (·.val = 1)).map (.close false))

theorem ftable_refs_sharedPipe :
    ((List.finRange nfile).take 2).map (fun f ↦ (sharedPipe.2.files f).ref) = [2, 1] ∧
      sharedPipe.2.panic = none ∧ ∀ f, (sharedPipe.2.files f).ref =
        ∑ p, (∑ fd, (if sharedPipe.2.ofile p fd = some f then 1 else 0) +
          (sharedPipe.2.call p).refs.count f) :=
  ⟨by decide +kernel, ftable_refs ⟨sharedPipe.1, path_replay _ _⟩⟩

/-- A process can still reach one end of a pipe: by a descriptor, by a local variable of a system
call, or because it is just closing this end. -/
def Files.reaches (s : Files ι) (p : ι) (page : ℕ) (writable : Bool) : Prop :=
  (∃ f, ((∃ fd, s.ofile p fd = some f) ∨ f ∈ (s.call p).refs) ∧
    (s.files f).type = .pipe page ∧ (s.files f).writable = writable) ∨
  ∃ ff next, s.call p = .releasing ff next ∧ ff.type = .pipe page ∧ ff.writable = writable

/-- One end of a pipe is open exactly as long as some process can reach it, and there is only one
file, or one process that is closing the end, for it. -/
theorem pipeEnd_open_iff (h : Reachable fileStep (firstProcess init) s) (page : ℕ) (w : Bool) :
    ((s.pipes page).any (·.isOpen w) = true ↔ ∃ p, s.reaches p page w) ∧
      ∑ f, (s.files f).carries page w + ∑ p, (s.call p).carries page w ≤ 1 := by
  have hinv := fileInv_reachable h
  have hcarriers := hinv.carriers page w
  refine ⟨⟨fun hopen ↦ ?_, fun hreach ↦ ?_⟩, ?_⟩
  · have hone : 0 < ∑ f, (s.files f).carries page w + ∑ p, (s.call p).carries page w := by
      rw [hcarriers, openEnds, if_pos hopen]
      omega
    rcases Nat.eq_zero_or_pos (∑ f, (s.files f).carries page w) with hzero | hpos
    · -- Nobody has a descriptor any more: somebody is closing the end.
      obtain ⟨p, hp⟩ := exists_pos_of_sum_pos (show 0 < ∑ p, (s.call p).carries page w by omega)
      cases hc : s.call p with
      | releasing ff next =>
        rw [hc] at hp
        exact ⟨p, .inr ⟨ff, next, hc, carries_pos hp⟩⟩
      | _ =>
        rw [hc] at hp
        cases hp
    · obtain ⟨f, hf⟩ := exists_pos_of_sum_pos hpos
      obtain ⟨htype, hw⟩ := carries_pos hf
      have href : 0 < (s.files f).ref := by
        refine Nat.pos_of_ne_zero fun hzero ↦ ?_
        rw [hinv.free f hzero] at htype
        cases htype
      obtain ⟨p, hp⟩ := hinv.counted.exists_holder href
      exact ⟨p, .inl ⟨f, held_cases hp, htype, hw⟩⟩
  · obtain ⟨p, ⟨f, -, htype, hw⟩ | ⟨ff, next, hc, htype, hw⟩⟩ := hreach
    · have hle : (s.files f).carries page w ≤ ∑ f, (s.files f).carries page w :=
        le_sum (fun f ↦ (s.files f).carries page w) f
      rw [File.carries, if_pos ⟨htype, hw⟩] at hle
      exact openEnds_pos (by omega)
    · have hle : (s.call p).carries page w ≤ ∑ p, (s.call p).carries page w :=
        le_sum (fun p ↦ (s.call p).carries page w) p
      rw [hc, FileCall.carries, File.carries, if_pos ⟨htype, hw⟩] at hle
      exact openEnds_pos (by omega)
  · rw [hcarriers, openEnds]
    split_ifs <;> omega

theorem pipeEnd_open_iff_sharedPipe :
    (sharedPipe.2.pipes 7).any (·.isOpen true) = true ∧ ∃ p, sharedPipe.2.reaches p 7 true := by
  have hopen : (sharedPipe.2.pipes 7).any (·.isOpen true) = true := by decide +kernel
  exact ⟨hopen, (pipeEnd_open_iff ⟨sharedPipe.1, path_replay _ _⟩ 7 true).1.mp hopen⟩

end Runs

end Irish.Xv6
