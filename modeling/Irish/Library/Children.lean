import Irish.Library.Tables
import Mathlib.Data.PNat.Defs

/-!
# Child processes

The children that a process has forked, as `waitpid` shows them. A child is known by its position in
the list of all children ever forked; its pid is free for another child once it has been reaped.
What a child has gone through is a `Life`, in which it only goes forward (`Life.Before`).
-/

set_option autoImplicit false

namespace Irish.Library

inductive Ending
  | exited (code : ℕ)
  | signaled
deriving DecidableEq, Repr

inductive Notice
  | stopped
  | continued
deriving DecidableEq, Repr

/-- What `waitpid` may report of a child. -/
inductive Report
  | ended (how : Ending)
  | noticed (notice : Notice)
deriving DecidableEq, Repr

/-- A child is live, with a stop or a continuation that has not been reported, or it has terminated,
and then it may have been reaped. -/
inductive Life
  | live (unreported : Option Notice)
  | zombie (how : Ending)
  | reaped (how : Ending)
deriving DecidableEq, Repr

variable {r : Report} {how : Ending}

namespace Life

def terminated : Life → Bool
  | live _ => false
  | zombie _ => true
  | reaped _ => true

def isReaped : Life → Bool
  | reaped _ => true
  | _ => false

def report : Life → Option Report
  | live unreported => unreported.map .noticed
  | zombie how => some (.ended how)
  | reaped _ => none

/-- The child after `waitpid` has reported what there was. -/
def collect : Life → Life
  | live _ => live none
  | zombie how => reaped how
  | reaped how => reaped how

/-- The later lives of a child. -/
def Before : Life → Life → Prop
  | live _, _ => True
  | zombie how, l => l = zombie how ∨ l = reaped how
  | reaped how, l => l = reaped how

theorem Before.refl (l : Life) : Before l l := by
  cases l <;> simp [Before]

theorem before_collect (l : Life) : Before l l.collect := by
  cases l <;> simp [Before, collect]

variable {a b l : Life}

theorem Before.isReaped (h : Before a b) (ha : a.isReaped = true) : b.isReaped = true := by
  cases a with
  | reaped how =>
    obtain rfl : b = reaped how := h
    rfl
  | _ => cases ha

theorem terminated_of_isReaped (h : l.isReaped = true) : l.terminated = true := by
  cases l with
  | reaped => rfl
  | _ => cases h

theorem isReaped_of_report (h : l.report = some r) : l.isReaped = false := by
  cases l with
  | reaped => cases h
  | _ => rfl

theorem report_eq_ended (h : l.report = some (.ended how)) : l = zombie how := by
  cases l with
  | live unreported => cases unreported <;> cases h
  | zombie =>
    cases h
    rfl
  | reaped => cases h

end Life

structure ChildProcess where
  pid : ℕ+
  pgid : ℕ
  life : Life
deriving DecidableEq

/-- Unreaped children have different pids. -/
def PidsDistinct (children : List ChildProcess) : Prop :=
  ∀ (u v : ℕ) (c d : ChildProcess), children[u]? = some c → children[v]? = some d →
    c.life.isReaped = false → d.life.isReaped = false → c.pid = d.pid → u = v

/-- No unreaped child has the pid. -/
def Gone (children : List ChildProcess) (pid : ℕ+) : Prop :=
  ∀ c ∈ children, c.pid = pid → c.life.isReaped = true

/-- The children at a later moment, at which more of them may have been forked. -/
def Later (children children' : List ChildProcess) : Prop :=
  ∀ (u : ℕ) (c : ChildProcess), children[u]? = some c →
    ∃ c', children'[u]? = some c' ∧ c'.pid = c.pid ∧ c'.pgid = c.pgid ∧ c.life.Before c'.life

section Children

variable {children children' children'' new : List ChildProcess} {u v : ℕ} {c c' d : ChildProcess}
  {pid : ℕ+} {life : Life}

theorem Later.refl (children : List ChildProcess) : Later children children :=
  fun _ c hc ↦ ⟨c, hc, rfl, rfl, .refl _⟩

/-- A child at a later moment at which no other has been forked. -/
theorem Later.exists_before (h : Later children children')
    (hlength : children'.length = children.length) (hc' : children'[u]? = some c') :
    ∃ c, children[u]? = some c ∧ c'.pid = c.pid ∧ c.life.Before c'.life := by
  have hu : u < children.length := hlength ▸ (lt_of_getElem? hc')
  obtain ⟨d, hd, hpid, -, hlife⟩ := h u children[u] (List.getElem?_eq_getElem hu)
  cases hc'.symm.trans hd
  exact ⟨children[u], List.getElem?_eq_getElem hu, hpid, hlife⟩

theorem Later.append (children new : List ChildProcess) : Later children (children ++ new) := by
  intro u c hc
  have hu : u < children.length := lt_of_getElem? hc
  exact ⟨c, by rw [List.getElem?_append_left hu, hc], rfl, rfl, .refl _⟩

theorem Later.length_le (h : Later children children') : children.length ≤ children'.length := by
  by_contra hlt
  obtain ⟨c', hc', -⟩ := h _ _ (List.getElem?_eq_getElem (Nat.lt_of_not_le hlt))
  exact absurd (lt_of_getElem? hc') (Nat.lt_irrefl _)

/-- The life of one child goes on. -/
def setLife (children : List ChildProcess) (u : ℕ) (life : Life) : List ChildProcess :=
  children.modify u fun c ↦ { c with life := life }

theorem getElem?_setLife_self (hc : children[u]? = some c) (life : Life) :
    (setLife children u life)[u]? = some { c with life := life } := by
  simp [setLife, hc]

theorem getElem?_setLife_ne (h : u ≠ v) (life : Life) :
    (setLife children u life)[v]? = children[v]? := by
  simp [setLife, h]

theorem later_setLife (hc : children[u]? = some c) (h : c.life.Before life) :
    Later children (setLife children u life) := by
  intro v d hd
  rcases eq_or_ne u v with rfl | huv
  · cases hc.symm.trans hd
    exact ⟨_, getElem?_setLife_self hc life, rfl, rfl, h⟩
  · exact ⟨d, by rw [getElem?_setLife_ne huv, hd], rfl, rfl, .refl _⟩

/-- `waitpid` has reported what there was to report of a child. -/
def collectChild (children : List ChildProcess) (u : ℕ) : List ChildProcess :=
  children.modify u fun c ↦ { c with life := c.life.collect }

theorem collectChild_eq (hc : children[u]? = some c) :
    collectChild children u = setLife children u c.life.collect := by
  refine List.ext_getElem? fun v ↦ ?_
  rcases eq_or_ne u v with rfl | huv
  · simp [collectChild, setLife, hc]
  · simp [collectChild, setLife, huv]

theorem later_collectChild (hc : children[u]? = some c) :
    Later children (collectChild children u) := by
  rw [collectChild_eq hc]
  exact later_setLife hc (Life.before_collect _)

@[simp] theorem length_setLife (children : List ChildProcess) (u : ℕ) (life : Life) :
    (setLife children u life).length = children.length := by
  simp [setLife]

@[simp] theorem length_collectChild (children : List ChildProcess) (u : ℕ) :
    (collectChild children u).length = children.length := by
  simp [collectChild]

theorem PidsDistinct.later (h : PidsDistinct children) (hlater : Later children children')
    (hlength : children'.length = children.length) : PidsDistinct children' := by
  intro u v c' d' hc' hd' hcl hdl hpids
  obtain ⟨c, hc, hcpid, hcb⟩ := hlater.exists_before hlength hc'
  obtain ⟨d, hd, hdpid, hdb⟩ := hlater.exists_before hlength hd'
  refine h u v c d hc hd ?_ ?_ (hcpid.symm.trans (hpids.trans hdpid))
  · exact Bool.eq_false_iff.mpr fun hreaped ↦ by simp [hcb.isReaped hreaped] at hcl
  · exact Bool.eq_false_iff.mpr fun hreaped ↦ by simp [hdb.isReaped hreaped] at hdl

theorem Gone.later (h : Gone children pid) (hlater : Later children children')
    (hlength : children'.length = children.length) : Gone children' pid := by
  intro c' hc' hpid
  obtain ⟨u, hu⟩ := List.getElem?_of_mem hc'
  obtain ⟨c, hc, hcpid, hb⟩ := hlater.exists_before hlength hu
  exact hb.isReaped (h c (List.mem_of_getElem? hc) (hcpid.symm.trans hpid))

/-- The pid of a child that is reaped is free. -/
theorem gone_setLife_reaped (h : PidsDistinct children) (hc : children[u]? = some c)
    (hunreaped : c.life.isReaped = false) (hlife : life.isReaped = true) :
    Gone (setLife children u life) c.pid := by
  intro d hd hpid
  obtain ⟨v, hv⟩ := List.getElem?_of_mem hd
  rcases eq_or_ne u v with rfl | huv
  · rw [getElem?_setLife_self hc, Option.some.injEq] at hv
    rwa [← hv]
  · rw [getElem?_setLife_ne huv] at hv
    by_contra hlive
    exact huv (h u v c d hc hv hunreaped (Bool.eq_false_iff.mpr hlive) hpid.symm)

/-- A child whose end has been reported is reaped, and its pid is free. -/
theorem gone_collectChild (h : PidsDistinct children) (hc : children[u]? = some c)
    (hreport : c.life.report = some (.ended how)) : Gone (collectChild children u) c.pid := by
  rw [collectChild_eq hc]
  have hzombie := Life.report_eq_ended hreport
  refine gone_setLife_reaped h hc (Life.isReaped_of_report hreport) ?_
  rw [hzombie]
  rfl

/-- What becomes of a child when `waitpid` reports on one. -/
theorem collectChild_cases (hd : children[v]? = some d) (hreport : d.life.report = some r)
    (hc : children[u]? = some c) :
    (u = v ∧ ∃ how, r = .ended how ∧ c.life = .zombie how ∧
      (collectChild children v)[u]? = some { c with life := .reaped how }) ∨
    ((u = v → ∃ notice, r = .noticed notice) ∧
      ∃ c', (collectChild children v)[u]? = some c' ∧ c'.pid = c.pid ∧
        c'.life.isReaped = c.life.isReaped ∧ (c.life.isReaped = true → c'.life = c.life)) := by
  rw [collectChild_eq hd]
  rcases eq_or_ne v u with rfl | huv
  · obtain rfl : d = c := Option.some.inj (hd.symm.trans hc)
    rw [getElem?_setLife_self hc]
    cases r with
    | ended how =>
      have hzombie := Life.report_eq_ended hreport
      exact Or.inl ⟨rfl, how, rfl, hzombie, by rw [hzombie]; rfl⟩
    | noticed notice =>
      refine Or.inr ⟨fun _ ↦ ⟨notice, rfl⟩, _, rfl, rfl, ?_⟩
      cases hlife : d.life with
      | live => exact ⟨rfl, nofun⟩
      | zombie => simp [hlife, Life.report] at hreport
      | reaped => simp [hlife, Life.report] at hreport
  · rw [getElem?_setLife_ne huv]
    exact .inr ⟨fun heq ↦ absurd heq.symm huv, c, hc, rfl, rfl, fun _ ↦ rfl⟩

/-- The pids that `fork` may return, one after another. -/
def FreshPids (children : List ChildProcess) (pids : List ℕ+) : Prop :=
  pids.Nodup ∧ ∀ pid ∈ pids, Gone children pid

instance (children : List ChildProcess) (pids : List ℕ+) : Decidable (FreshPids children pids) :=
  inferInstanceAs (Decidable (_ ∧ ∀ pid ∈ pids, ∀ c ∈ children, _ → _))

theorem PidsDistinct.append (h : PidsDistinct children)
    (hfresh : FreshPids children (new.map (·.pid))) : PidsDistinct (children ++ new) := by
  -- An unreaped child before the fork has none of the new pids.
  have hold {u v : ℕ} {c d : ChildProcess} (hc : children[u]? = some c) (hd : new[v]? = some d)
      (hcl : c.life.isReaped = false) : c.pid ≠ d.pid := by
    intro hpid
    have hgone := hfresh.2 d.pid (List.mem_map_of_mem (List.mem_of_getElem? hd))
    simp [hgone c (List.mem_of_getElem? hc) hpid] at hcl
  intro u v c d hc hd hcl hdl hpid
  rw [List.getElem?_append] at hc hd
  split_ifs at hc hd with hu hv hv
  · exact h u v c d hc hd hcl hdl hpid
  · exact absurd hpid (hold hc hd hcl)
  · exact absurd hpid.symm (hold hd hc hdl)
  · have hlt : u - children.length < (new.map (·.pid)).length := by
      rw [List.length_map]
      exact lt_of_getElem? hc
    have hpids : (new.map (·.pid))[u - children.length]? =
        (new.map (·.pid))[v - children.length]? := by
      simp only [List.getElem?_map, hc, hd, Option.map_some, hpid]
    have hsame := (List.getElem?_inj hlt hfresh.1).mp hpids
    omega

/-- The unreaped child with a pid. -/
def findUnreaped (children : List ChildProcess) (pid : ℕ+) : Option ℕ :=
  children.findIdx? fun c ↦ c.pid = pid ∧ c.life.isReaped = false

theorem findUnreaped_eq_some (h : findUnreaped children pid = some u) :
    ∃ c, children[u]? = some c ∧ c.pid = pid ∧ c.life.isReaped = false := by
  obtain ⟨hu, hfound, -⟩ := List.findIdx?_eq_some_iff_getElem.mp h
  simp only [decide_eq_true_eq] at hfound
  exact ⟨children[u], List.getElem?_eq_getElem hu, hfound⟩

theorem findUnreaped_of_unreaped (h : PidsDistinct children) (hc : children[u]? = some c)
    (hunreaped : c.life.isReaped = false) : findUnreaped children c.pid = some u := by
  cases hfound : findUnreaped children c.pid with
  | none =>
    have hnone := List.findIdx?_eq_none_iff.mp hfound c (List.mem_of_getElem? hc)
    simp [hunreaped] at hnone
  | some v =>
    obtain ⟨d, hd, hpid, hd'⟩ := findUnreaped_eq_some hfound
    rw [h u v c d hc hd hunreaped hd' hpid.symm]

theorem findUnreaped_eq_none (h : findUnreaped children pid = none) : Gone children pid := by
  intro c hc hpid
  have hnone := List.findIdx?_eq_none_iff.mp h c hc
  simpa [hpid] using hnone

end Children

end Irish.Library
