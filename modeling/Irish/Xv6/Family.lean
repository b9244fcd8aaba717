import Irish.Xv6.Control

/-!
# The tree of processes

Every process but the first has a parent that has not exited, and a parent has a smaller pid than
its children, so from each process the parents lead to `initproc` (`parents_lead_to_init`). A zombie
therefore always has somebody who can reap it, and a parent that sleeps in `kwait` has something to
wait for (`kwait_sleeps`). Pids are integers here, so both are about runs that create fewer than
`2 ^ 31` processes.

`Family` is about a table of which only the parents, the pids, the stages of `kfork` and whether
each process is being created, alive or dead are known (`Kin`). Most sections of the kernel leave
these alone (`SameTree`). The others are writes to one slot each: creating a child, linking it,
publishing it, adopting it in `reparent`, exiting and reaping, and `Family.write` and `Waits.write`
say what such a write has to respect.
-/

set_option autoImplicit false

namespace Irish.Xv6

open Library
open Function (update update_eq_self update_eq_self_iff update_of_ne update_self)

inductive LifeStage
  | free
  | embryo
  | live
  | dead
deriving DecidableEq, Repr

def ProcState.life : ProcState → LifeStage
  | .unused => .free
  | .used => .embryo
  | .zombie => .dead
  | .sleeping => .live
  | .runnable => .live
  | .running => .live

structure Kin where
  parent : Option ℕ
  pid : ℤ
  stage : ForkStage
  life : LifeStage
deriving DecidableEq, Repr

def Proc.kin (p : Proc) : Kin := ⟨p.parent, p.pid, p.forkStage, p.state.life⟩

/-- The table, as far as the tree is concerned. -/
def kinOf (procs : List Proc) (j : ℕ) : Option Kin := procs[j]?.map Proc.kin

structure Family (fam : ℕ → Option Kin) (root : ℕ) (next : ℤ) : Prop where
  init : ∃ r, fam root = some r ∧ r.life = .live
  first : ∀ j k r, fam root = some r → fam j = some k → k.life ≠ .free → j ≠ root → r.pid < k.pid
  below : ∀ j k, fam j = some k → k.life ≠ .free → k.pid < next
  parent : ∀ j k q, fam j = some k → k.parent = some q →
    k.life ≠ .free ∧ ∃ r, fam q = some r ∧ r.life = .live ∧ r.pid < k.pid
  orphan : ∀ j k, fam j = some k → j ≠ root → k.parent = none → k.life = .free ∨ k.life = .embryo
  idle : ∀ j k, fam j = some k → k.life ≠ .live → k.stage = .idle
  allocated : ∀ i k np, fam i = some k → k.stage = .allocated np →
    ∃ q, fam np = some q ∧ k.pid < q.pid ∧ (q.parent = none ∨ q.parent = some i)
  linked : ∀ i k np, fam i = some k → k.stage = .linked np →
    ∃ q, fam np = some q ∧ q.parent = some i

variable {a : Kin}

section Writes

variable {fam : ℕ → Option Kin} {root i j : ℕ} {next next' : ℤ} {k k' r : Kin}

theorem update_eq_some (h : update fam i (some k') j = some a) :
    j = i ∧ a = k' ∨ j ≠ i ∧ fam j = some a :=
  (update_cases h).imp_left fun ⟨hj, hk⟩ ↦ ⟨hj, (Option.some.inj hk).symm⟩

/-- Only live processes have children. -/
theorem Family.childless (h : Family fam root next) (hk : fam i = some k) (hlife : k.life ≠ .live) :
    ∀ j a, fam j = some a → a.parent ≠ some i := by
  intro j a ha hparent
  obtain ⟨-, r, hr, hlive, -⟩ := h.parent j a i ha hparent
  cases hk.symm.trans hr
  exact hlife hlive

theorem Family.ne_root (h : Family fam root next) (hk : fam i = some k) (hlife : k.life ≠ .live) :
    i ≠ root := by
  rintro rfl
  obtain ⟨r, hr, hlive⟩ := h.init
  cases hk.symm.trans hr
  exact hlife hlive

/-- The first process is nobody's child. -/
theorem Family.root_parent (h : Family fam root next) (hr : fam root = some r) :
    r.parent = none := by
  rw [Option.eq_none_iff_forall_not_mem]
  intro q hq
  obtain ⟨-, p, hp, hlive, hlt⟩ := h.parent root r q hr hq
  by_cases hroot : q = root
  · cases hr.symm.trans (hroot ▸ hp)
    omega
  · have hgt := h.first q p r hr hp (by simp [hlive]) hroot
    omega

theorem Family.parent_ne (h : Family fam root next) (hk : fam i = some k) {q : ℕ}
    (hq : k.parent = some q) :
    k.life ≠ .free ∧ q ≠ i ∧ ∃ r, fam q = some r ∧ r.life = .live ∧ r.pid < k.pid := by
  obtain ⟨hfree, r, hr, hlive, hlt⟩ := h.parent i k q hk hq
  refine ⟨hfree, ?_, r, hr, hlive, hlt⟩
  rintro rfl
  cases hk.symm.trans hr
  exact absurd hlt (Int.lt_irrefl _)

/-- What a write to one slot may do to the tree. -/
theorem Family.write (h : Family fam root next) (hk : fam i = some k) (hnext : next ≤ next')
    (hroot : i = root → k'.life = .live ∧ k'.pid = k.pid) (hpid : k'.life ≠ .free →
      k.life ≠ .free ∧ k'.pid = k.pid ∨ k'.pid = next ∧ next < next')
    (hparent : ∀ q, k'.parent = some q →
      k'.life ≠ .free ∧ q ≠ i ∧ ∃ r, fam q = some r ∧ r.life = .live ∧ r.pid < k'.pid)
    (horphan : i ≠ root → k'.parent = none → k'.life = .free ∨ k'.life = .embryo)
    (hchildren : k'.life = .live ∧ k'.pid = k.pid ∨ ∀ j a, fam j = some a → a.parent ≠ some i)
    (hidle : k'.life ≠ .live → k'.stage = .idle)
    (hallocated : ∀ np, k'.stage = .allocated np → np ≠ i ∧
      ∃ q, fam np = some q ∧ k'.pid < q.pid ∧ (q.parent = none ∨ q.parent = some i))
    (hlinked : ∀ np, k'.stage = .linked np → np ≠ i ∧ ∃ q, fam np = some q ∧ q.parent = some i)
    (hembryo : ∀ j a, fam j = some a → a.stage = .allocated i →
      k'.pid = k.pid ∧ (k'.parent = k.parent ∨ k'.parent = some j))
    (hchild : k'.parent = k.parent ∨ ∀ j a, fam j = some a → a.stage ≠ .linked i) :
    Family (update fam i (some k')) root next' := by
  obtain ⟨r, hr, hrlive⟩ := h.init
  have hrfree : r.life ≠ .free := by simp [hrlive]
  refine ⟨?_, ?_, ?_, ?_, ?_, ?_, ?_, ?_⟩
  · by_cases hi : root = i
    · exact ⟨k', by rw [hi, update_self], (hroot hi.symm).1⟩
    · exact ⟨r, by rw [update_of_ne hi, hr], hrlive⟩
  · intro j a r' hr' ha hfree hj
    -- The pid of the first process has not changed.
    have hrpid : r'.pid = r.pid := by
      rcases update_eq_some hr' with ⟨hi, rfl⟩ | ⟨-, hr'⟩
      · cases hr.symm.trans (hi ▸ hk)
        exact (hroot hi.symm).2
      · cases hr.symm.trans hr'
        rfl
    rw [hrpid]
    rcases update_eq_some ha with ⟨hi, rfl⟩ | ⟨-, ha⟩
    · rcases hpid hfree with ⟨hkfree, hsame⟩ | ⟨hnew, -⟩
      · rw [hsame]
        exact h.first i k r hr hk hkfree (hi ▸ hj)
      · rw [hnew]
        exact h.below root r hr hrfree
    · exact h.first j a r hr ha hfree hj
  · intro j a ha hfree
    rcases update_eq_some ha with ⟨-, rfl⟩ | ⟨-, ha⟩
    · rcases hpid hfree with ⟨hkfree, hsame⟩ | ⟨hnew, hlt⟩
      · have hbelow := h.below i k hk hkfree
        omega
      · omega
    · have hbelow := h.below j a ha hfree
      omega
  · intro j a q ha hq
    rcases update_eq_some ha with ⟨-, rfl⟩ | ⟨hj, ha⟩
    · obtain ⟨hfree, hqi, p, hp, hlive, hlt⟩ := hparent q hq
      exact ⟨hfree, p, by rw [update_of_ne hqi, hp], hlive, hlt⟩
    · obtain ⟨hfree, p, hp, hlive, hlt⟩ := h.parent j a q ha hq
      by_cases hqi : q = i
      · rcases hchildren with ⟨hlive', hsame⟩ | hnone
        · cases hk.symm.trans (hqi ▸ hp)
          exact ⟨hfree, k', by rw [hqi, update_self], hlive', hsame ▸ hlt⟩
        · exact absurd (hqi ▸ hq) (hnone j a ha)
      · exact ⟨hfree, p, by rw [update_of_ne hqi, hp], hlive, hlt⟩
  · intro j a ha hj hnone
    rcases update_eq_some ha with ⟨hi, rfl⟩ | ⟨-, ha⟩
    · exact horphan (hi ▸ hj) hnone
    · exact h.orphan j a ha hj hnone
  · intro j a ha hlife
    rcases update_eq_some ha with ⟨-, rfl⟩ | ⟨-, ha⟩
    · exact hidle hlife
    · exact h.idle j a ha hlife
  · intro j a np ha hstage
    rcases update_eq_some ha with ⟨hi, rfl⟩ | ⟨hj, ha⟩
    · obtain ⟨hnp, q, hq, hlt, hqp⟩ := hallocated np hstage
      exact ⟨q, by rw [update_of_ne hnp, hq], hlt, hi ▸ hqp⟩
    · obtain ⟨q, hq, hlt, hqp⟩ := h.allocated j a np ha hstage
      by_cases hnp : np = i
      · obtain ⟨hpid', hparent'⟩ := hembryo j a ha (hnp ▸ hstage)
        cases hk.symm.trans (hnp ▸ hq)
        refine ⟨k', by rw [hnp, update_self], hpid' ▸ hlt, ?_⟩
        rcases hparent' with hsame | hj'
        · exact hsame ▸ hqp
        · exact .inr hj'
      · exact ⟨q, by rw [update_of_ne hnp, hq], hlt, hqp⟩
  · intro j a np ha hstage
    rcases update_eq_some ha with ⟨hi, rfl⟩ | ⟨hj, ha⟩
    · obtain ⟨hnp, q, hq, hqp⟩ := hlinked np hstage
      exact ⟨q, by rw [update_of_ne hnp, hq], hi ▸ hqp⟩
    · obtain ⟨q, hq, hqp⟩ := h.linked j a np ha hstage
      by_cases hnp : np = i
      · rcases hchild with hsame | hnone
        · cases hk.symm.trans (hnp ▸ hq)
          exact ⟨k', by rw [hnp, update_self], hsame.trans hqp⟩
        · exact absurd (hnp ▸ hstage) (hnone j a ha)
      · exact ⟨q, by rw [update_of_ne hnp, hq], hqp⟩

end Writes

/-! ### Waiting for children -/

/-- There is a child to wait for, and none has exited yet. -/
def Expecting (fam : ℕ → Option Kin) (i : ℕ) : Prop :=
  (∃ j a, fam j = some a ∧ a.parent = some i) ∧
    ∀ j a, fam j = some a → a.parent = some i → a.life ≠ .dead

/-- Who is registered on the address of a process does so in its own `kwait`, and waits in vain for
nobody. -/
def Waits (fam : ℕ → Option Kin) (reg : ℕ → Option ℕ) : Prop :=
  ∀ i c k, reg i = some c → fam i = some k → k.life ≠ .dead → c = i ∧ Expecting fam i

section Waits

variable {fam : ℕ → Option Kin} {reg reg' : ℕ → Option ℕ} {i j : ℕ} {k k' : Kin}

theorem Waits.mono (h : Waits fam reg) (hreg : ∀ i c, reg' i = some c → reg i = some c) :
    Waits fam reg' :=
  fun i c k hi hk hlife ↦ h i c k (hreg i c hi) hk hlife

/-- A write to one slot takes no child from somebody who waits, and a child that exits has nobody
waiting for it. -/
theorem Waits.write (h : Waits fam reg) (hk : fam j = some k)
    (hreg : ∀ i c, reg' i = some c → reg i = some c)
    (hself : ∀ c, reg' j = some c → k'.life ≠ .dead → k.life ≠ .dead)
    (hkeep : ∀ i c, reg' i = some c → k.parent = some i → k'.parent = some i)
    (hdead : ∀ i c, reg' i = some c → k'.parent = some i → k'.life ≠ .dead) :
    Waits (update fam j (some k')) reg' := by
  intro i c a hi ha hlife
  have hwait : c = i ∧ Expecting fam i := by
    rcases update_eq_some ha with ⟨hij, rfl⟩ | ⟨-, ha⟩
    · exact h i c k (hreg i c hi) (hij ▸ hk) (hself c (hij ▸ hi) hlife)
    · exact h i c a (hreg i c hi) ha hlife
  obtain ⟨hc, ⟨m, a, ha, hparent⟩, hall⟩ := hwait
  refine ⟨hc, ?_, fun l b hb hbp ↦ ?_⟩
  · by_cases hm : m = j
    · cases hk.symm.trans (hm ▸ ha)
      exact ⟨j, k', update_self .., hkeep i c hi hparent⟩
    · exact ⟨m, a, by rw [update_of_ne hm, ha], hparent⟩
  · rcases update_eq_some hb with ⟨-, rfl⟩ | ⟨-, hb⟩
    · exact hdead i c hi hbp
    · exact hall l b hb hbp

/-- Somebody who has exited may be registered anywhere. -/
theorem Waits.dead (h : Waits fam (update reg i none)) (hk : fam i = some k)
    (hdead : k.life = .dead) : Waits fam reg := by
  intro j c a hj ha hlife
  by_cases hji : j = i
  · cases hk.symm.trans (hji ▸ ha)
    exact absurd hdead hlife
  · exact h j c a (by rw [update_of_ne hji, hj]) ha hlife

end Waits

/-! ### The sections that leave the tree alone -/

/-- On whose address a process is registered. -/
def Proc.waitsOn (p : Proc) : Option ℕ :=
  match p.chan with
  | some (.proc c) => some c
  | _ => none

def regOf (procs : List Proc) (j : ℕ) : Option ℕ := procs[j]?.bind Proc.waitsOn

/-- A process stays where it is in the tree, and does not register. -/
structure SameKin (p p' : Proc) : Prop where
  kin : p'.kin = p.kin
  reg : p'.waitsOn = p.waitsOn ∨ p'.waitsOn = none

instance : Std.Refl SameKin := ⟨fun _ ↦ ⟨rfl, .inl rfl⟩⟩

instance : IsTrans Proc SameKin where
  trans _ _ _ h h' := by
    refine ⟨h'.kin.trans h.kin, ?_⟩
    rcases h'.reg with hreg | hreg
    · rw [hreg]
      exact h.reg
    · exact .inr hreg

/-- The tree stays, and nobody registers. -/
structure SameTree (k k' : Kernel) : Prop where
  slots : List.Forall₂ SameKin k.procs k'.procs
  init : k'.initproc = k.initproc
  next : k'.nextpid = k.nextpid

theorem SameTree.kin {k k' : Kernel} (h : SameTree k k') : kinOf k'.procs = kinOf k.procs := by
  funext j
  unfold kinOf
  cases hp : k'.procs[j]? with
  | none =>
    rw [List.getElem?_eq_none_iff, ← h.slots.length_eq] at hp
    rw [List.getElem?_eq_none_iff.mpr hp]
  | some p' =>
    obtain ⟨p, hp, hsame⟩ := exists_of_forall₂ h.slots hp
    rw [hp]
    exact congrArg some hsame.kin

theorem SameTree.reg {k k' : Kernel} (h : SameTree k k') (i c : ℕ)
    (hi : regOf k'.procs i = some c) : regOf k.procs i = some c := by
  obtain ⟨p', hp', hc⟩ := Option.bind_eq_some_iff.mp hi
  obtain ⟨p, hp, hsame⟩ := exists_of_forall₂ h.slots hp'
  refine Option.bind_eq_some_iff.mpr ⟨p, hp, ?_⟩
  rcases hsame.reg with hreg | hreg
  · exact hreg.symm.trans hc
  · cases hreg.symm.trans hc

/-- The tree, and, where only `kwait` registers on the address of a process, the waiting
parents. -/
structure Tree (onlyWait : Prop) (k : Kernel) : Prop where
  family : Family (kinOf k.procs) k.initproc k.nextpid
  waits : onlyWait → Waits (kinOf k.procs) (regOf k.procs)

variable {w : Prop} {reg : ℕ → Option ℕ} {j c : ℕ}

theorem Tree.same {k k' : Kernel} (h : Tree w k) (hsame : SameTree k k') : Tree w k' := by
  refine ⟨?_, ?_⟩
  · rw [hsame.kin, hsame.init, hsame.next]
    exact h.family
  · intro hw
    rw [hsame.kin]
    exact (h.waits hw).mono hsame.reg

section Sections

variable {b : Build} {k : Kernel} {i : ℕ} {p p' : Proc} {f : Proc → Proc} {procs : List Proc}

theorem kinOf_modify (hp : procs[i]? = some p) :
    kinOf (procs.modify i f) = update (kinOf procs) i (some (f p).kin) := by
  funext j
  by_cases hj : j = i
  · rw [hj, update_self, kinOf, List.getElem?_modify_eq, hp]
    rfl
  · rw [update_of_ne hj, kinOf, List.getElem?_modify_ne _ _ (Ne.symm hj)]
    rfl

theorem regOf_modify (hp : procs[i]? = some p) :
    regOf (procs.modify i f) = update (regOf procs) i (f p).waitsOn := by
  funext j
  by_cases hj : j = i
  · rw [hj, update_self, regOf, List.getElem?_modify_eq, hp]
    rfl
  · rw [update_of_ne hj, regOf, List.getElem?_modify_ne _ _ (Ne.symm hj)]
    rfl

theorem regOf_modify_same (hp : procs[i]? = some p) (hf : (f p).waitsOn = p.waitsOn) :
    regOf (procs.modify i f) = regOf procs := by
  rw [regOf_modify hp, update_eq_self_iff, hf, regOf, hp]
  rfl

/-- A write that leaves the process where it is in the tree. -/
theorem sameTree_modify (hf : ∀ p, k.procs[i]? = some p → SameKin p (f p)) :
    SameTree k (k.modify i f) :=
  ⟨forall₂_modify hf, rfl, rfl⟩

theorem Nudged.sameKin (h : Nudged p p') : SameKin p p' := by
  have hlife : p'.state.life = p.state.life := by
    rcases h.state with hs | ⟨hs, hs'⟩
    · rw [hs]
    · rw [hs, hs']
      rfl
  refine ⟨?_, ?_⟩
  · rw [Proc.kin, h.parent, h.pid, h.forkStage, hlife]
    rfl
  · rcases h.chan with hc | hc
    · exact .inl (by rw [Proc.waitsOn, hc, Proc.waitsOn])
    · exact .inr (by rw [Proc.waitsOn, hc])

theorem Rewrites.sameTree {k' : Kernel} (h : Rewrites Nudged k k') : SameTree k k' :=
  ⟨h.procs.imp fun _ _ hp ↦ hp.sameKin, h.initproc, h.nextpid⟩

/-- After a wakeup on the address of a process nobody is registered there. -/
theorem regOf_wakeup {chan : Option Chan} (h : regOf (wakeup b chan k).procs j = some c) :
    chan ≠ some (.proc c) := by
  obtain ⟨p', hp', hc⟩ := Option.bind_eq_some_iff.mp h
  obtain ⟨p, seq, -, rfl⟩ := exists_of_sweep hp'
  unfold wakeupBody at hc
  split_ifs at hc with hchan hsleeping
  · cases b <;> simp [stampProc, Proc.waitsOn] at hc
  · simp [Proc.waitsOn] at hc
  · rintro rfl
    unfold Proc.waitsOn at hc
    split at hc
    · rename_i d hd
      exact hchan (hd.trans (congrArg (some ∘ Chan.proc) (Option.some.inj hc)))
    · cases hc

/-- A live process stays alive when it gets the CPU or gives it up. -/
theorem sameKin_of_live (hlive : p.state.life = .live)
    (hkin : p'.kin = { p.kin with life := .live }) (hchan : p'.chan = p.chan) : SameKin p p' := by
  refine ⟨?_, .inl (by rw [Proc.waitsOn, hchan, Proc.waitsOn])⟩
  rw [hkin, ← hlive]
  rfl

theorem sameTree_leave {cur : Option ℕ} (hp : k.procs[i]? = some p) (hlive : p.state.life = .live)
    (hf : (f p).kin = { p.kin with life := .live }) (hchan : (f p).chan = p.chan) :
    SameTree k { k.modify i f with cur := cur } := by
  refine ⟨forall₂_modify fun q hq ↦ ?_, rfl, rfl⟩
  cases hp.symm.trans hq
  exact sameKin_of_live hlive hf hchan

theorem Charge.sameTree {k' : Kernel} (h : Charge k k') (hcontrol : Control k.procs k.cur) :
    SameTree k k' := by
  cases h with
  | none => exact ⟨List.forall₂_refl _, rfl, rfl⟩
  | keeps i _ p p' hcur hp hcharges hstate | yields i _ p p' hcur hp hcharges hstate =>
    have hlive : p.state.life = .live := by
      rw [(hcontrol.running i p hp).mpr hcur]
      rfl
    refine ⟨forall₂_set hp (sameKin_of_live hlive ?_ hcharges.chan), rfl, rfl⟩
    have hlive' : p'.state.life = .live := by
      rw [hstate]
      first | exact hlive | rfl
    rw [Proc.kin, hcharges.parent, hcharges.pid, hcharges.forkStage, hlive']
    rfl

theorem sameTree_sleep (hp : k.procs[i]? = some p) (hrun : p.state = .running) :
    SameTree k (sleep b i p k) := by
  unfold sleep
  split_ifs
  · cases b with
    | mlfq | fifo => exact sameTree_leave hp (by rw [hrun]; rfl) rfl rfl
  · exact ⟨List.forall₂_refl _, rfl, rfl⟩

theorem tree_sleepPrepare {chan : Chan} (h : Tree w k) (hp : k.procs[i]? = some p)
    (hchan : w → ∀ c, chan ≠ .proc c) : Tree w (sleepPrepare chan i k) := by
  have hkin : kinOf (sleepPrepare chan i k).procs = kinOf k.procs := by
    rw [sleepPrepare, procs_modify, kinOf_modify hp, update_eq_self_iff, kinOf, hp]
    rfl
  refine ⟨?_, fun hw ↦ ?_⟩
  · rw [hkin]
    exact h.family
  · have hsame : SameTree k (sleepPrepare chan i k) := by
      refine sameTree_modify fun _ _ ↦ ⟨rfl, .inr ?_⟩
      cases chan with
      | proc c => exact absurd rfl (hchan hw c)
      | ticks | other => rfl
    exact (h.same hsame).waits hw

end Sections

/-! ### Creating a process -/

section Fork

variable {b : Build} {mem : Memory} {k k' : Kernel} {i np : ℕ} {p : Proc} {procs : List Proc}
  {s : ForkStage}

theorem kinOf_eq_some : kinOf procs i = some a ↔ ∃ p, procs[i]? = some p ∧ p.kin = a :=
  Option.map_eq_some_iff

theorem kinOf_get (hp : procs[i]? = some p) : kinOf procs i = some p.kin :=
  kinOf_eq_some.mpr ⟨p, hp, rfl⟩

/-- A slot that no `kfork` in progress is creating is in nobody's local variable. -/
theorem NotChild.stage (h : NotChild procs i) (ha : kinOf procs j = some a) :
    a.stage ≠ .allocated i ∧ a.stage ≠ .linked i := by
  obtain ⟨p, hp, rfl⟩ := kinOf_eq_some.mp ha
  have hchild := h j p hp
  constructor
  · intro hstage
    exact hchild (by rw [Proc.forkChild, show p.forkStage = _ from hstage])
  · intro hstage
    exact hchild (by rw [Proc.forkChild, show p.forkStage = _ from hstage])

theorem freeFields_kin (b : Build) (p : Proc) :
    (freeFields b p).kin = ⟨p.parent, 0, .idle, .free⟩ ∧ (freeFields b p).chan = none := by
  cases b <;> exact ⟨rfl, rfl⟩

theorem kinOf_set (hp : procs[i]? = some p) (p' : Proc) :
    kinOf (procs.set i p') = update (kinOf procs) i (some p'.kin) := by
  rw [← modify_eq_set hp fun _ ↦ p', kinOf_modify hp]

theorem regOf_set (hp : procs[i]? = some p) (p' : Proc) :
    regOf (procs.set i p') = update (regOf procs) i p'.waitsOn := by
  rw [← modify_eq_set hp fun _ ↦ p', regOf_modify hp]

/-- A write that gives a slot at most the registration it had. -/
theorem regOf_update_le {w : Option ℕ} (hw : w = reg i ∨ w = none) (h : update reg i w j = some c) :
    reg j = some c := by
  rcases update_cases h with ⟨rfl, rfl⟩ | ⟨-, h⟩
  · exact (hw.resolve_right nofun).symm
  · exact h

/-- A free slot has no parent, and no `kfork` is in progress there. -/
theorem Tree.free (h : Tree w k) (hp : k.procs[i]? = some p) (hfree : p.state = .unused) :
    p.parent = none ∧ p.forkStage = .idle := by
  have hk := kinOf_get hp
  have hlife : p.kin.life = .free := congrArg ProcState.life hfree
  refine ⟨?_, h.family.idle i _ hk (by simp [hlife])⟩
  rw [Option.eq_none_iff_forall_not_mem]
  intro q hq
  exact (h.family.parent i _ q hk hq).1 hlife

/-- Clear a slot that has no children and that no `kfork` in progress is creating. -/
theorem Tree.clear (h : Tree w k) (hp : k.procs[i]? = some p) (p' : Proc)
    (hlife : p.state.life ≠ .live) (hnot : NotChild k.procs i)
    (hkin : p'.kin = ⟨none, 0, .idle, .free⟩) (hchan : p'.chan = none)
    (hwait : w → ∀ q c, p.parent = some q → regOf k.procs q ≠ some c)
    (hprocs : k'.procs = k.procs.set i p') (hinit : k'.initproc = k.initproc)
    (hnext : k.nextpid ≤ k'.nextpid) : Tree w k' := by
  have hk := kinOf_get hp
  have hnone : p'.waitsOn = none := by rw [Proc.waitsOn, hchan]
  refine ⟨?_, ?_⟩
  · rw [hprocs, hinit, kinOf_set hp, hkin]
    exact h.family.write hk hnext (fun hroot ↦ absurd hroot (h.family.ne_root hk hlife))
      (fun hfree ↦ absurd rfl hfree) nofun (fun _ _ ↦ .inl rfl)
      (.inr (h.family.childless hk hlife)) (fun _ ↦ rfl)
      nofun nofun
      (fun j a ha hstage ↦ absurd hstage (hnot.stage ha).1) (.inr fun j a ha ↦ (hnot.stage ha).2)
  · intro hw
    rw [hprocs, kinOf_set hp, regOf_set hp, hkin, hnone]
    refine (h.waits hw).write hk (fun j c hj ↦ regOf_update_le (.inr rfl) hj) ?_ ?_ ?_
    · intro c hc
      rw [update_self] at hc
      cases hc
    · intro j c hj hparent
      exact absurd (regOf_update_le (.inr rfl) hj) (hwait hw j c hparent)
    · exact nofun

/-- Take a free slot for the next pid. -/
theorem Tree.take {seq : ℕ} {p' : Proc} (h : Tree w k) (hp : k.procs[i]? = some p)
    (hfree : p.state = .unused) (hnot : NotChild k.procs i) (hfresh : Fresh b k seq p p') :
    Tree w (k.take i p' seq) := by
  have hk := kinOf_get hp
  have hlife : p.kin.life ≠ .live := by simp [Proc.kin, hfree, ProcState.life]
  obtain ⟨hparent, hidle⟩ := h.free hp hfree
  have hkin : p'.kin = ⟨none, k.nextpid, .idle, .embryo⟩ := by
    rw [Proc.kin, hfresh.parent, hparent, hfresh.pid, hfresh.forkStage, hidle, hfresh.state]
    rfl
  refine ⟨?_, ?_⟩
  · rw [Kernel.take, kinOf_set hp, hkin]
    dsimp only
    exact h.family.write hk (by omega) (fun hroot ↦ absurd hroot (h.family.ne_root hk hlife))
      (fun _ ↦ .inr ⟨rfl, by omega⟩) (by simp) (fun _ _ ↦ .inr rfl)
      (.inr (h.family.childless hk hlife)) (fun _ ↦ rfl) (by simp)
      (by simp) (fun j a ha hstage ↦ absurd hstage (hnot.stage ha).1)
      (.inr fun j a ha ↦ (hnot.stage ha).2)
  · intro hw
    have hreg : p'.waitsOn = regOf k.procs i := by
      rw [Proc.waitsOn, hfresh.chan, regOf, hp]
      rfl
    rw [Kernel.take, kinOf_set hp, regOf_set hp, hkin, hreg, update_eq_self]
    refine (h.waits hw).write hk (fun _ _ hj ↦ hj)
      (fun _ _ _ ↦ by simp [Proc.kin, hfree, ProcState.life])
      (fun j c _ hj ↦ ?_) (by simp)
    rw [Proc.kin, hparent] at hj
    cases hj

/-- Write the stage of `kfork` of a live process. -/
theorem Tree.stage (h : Tree w k) (hp : k.procs[i]? = some p) (hlive : p.state.life = .live)
    (hallocated : ∀ np, s = .allocated np → np ≠ i ∧ ∃ q, k.procs[np]? = some q ∧ p.pid < q.pid ∧
      (q.parent = none ∨ q.parent = some i))
    (hlinked : ∀ np, s = .linked np → np ≠ i ∧ ∃ q, k.procs[np]? = some q ∧ q.parent = some i) :
    Tree w (k.modify i fun p ↦ { p with forkStage := s }) := by
  have hk := kinOf_get hp
  refine ⟨?_, ?_⟩
  · rw [procs_modify, kinOf_modify hp]
    refine h.family.write hk (Int.le_refl _) (fun _ ↦ ⟨hlive, rfl⟩)
      (fun hfree ↦ .inl ⟨hfree, rfl⟩) (fun q hq ↦ h.family.parent_ne hk hq)
      (fun hroot hnone ↦ h.family.orphan i p.kin hk hroot hnone) (.inl ⟨hlive, rfl⟩)
      (fun hlife ↦ absurd hlive hlife) ?_ ?_ (fun _ _ _ _ ↦ ⟨rfl, .inl rfl⟩) (.inl rfl)
    · intro np hnp
      obtain ⟨hne, q, hq, hlt, hqp⟩ := hallocated np hnp
      exact ⟨hne, q.kin, kinOf_get hq, hlt, hqp⟩
    · intro np hnp
      obtain ⟨hne, q, hq, hqp⟩ := hlinked np hnp
      exact ⟨hne, q.kin, kinOf_get hq, hqp⟩
  · intro hw
    rw [procs_modify, kinOf_modify hp, regOf_modify_same hp rfl]
    refine (h.waits hw).write hk (fun _ _ hj ↦ hj) (fun _ _ hlife ↦ hlife) (fun _ _ _ hj ↦ hj) ?_
    intro j c _ _
    simp [Proc.kin, hlive]

theorem ForkAlloc.tree (halloc : ForkAlloc b i k k') (h : Tree w k)
    (hcontrol : Control k.procs k.cur) (hcur : k.cur = some i) (hp : k.procs[i]? = some p)
    (hrun : p.state = .running) : Tree w k' := by
  cases halloc with
  | full => exact h
  | failed np q hq hfree =>
    have hnot := hcontrol.notChild hq (by simp [hfree])
    have hparent := (h.free hq hfree).1
    refine h.clear hq _ (by simp [hfree, ProcState.life]) hnot ?_ (freeFields_kin b _).2
      (fun _ r c hr ↦ by rw [hparent] at hr; cases hr) rfl rfl (by dsimp only [Kernel.take]; omega)
    rw [(freeFields_kin b _).1]
    simp [hparent]
  | copyFailed np seq q q' hq hfree hfresh =>
    have hnot := hcontrol.notChild hq (by simp [hfree])
    have hparent : q'.parent = none := hfresh.parent.trans (h.free hq hfree).1
    have hq' : (k.take np q' seq).procs[np]? = some q' := getElem?_set_eq hq
    refine (h.take hq hfree hnot hfresh).clear hq' (freeFields b q') ?_ ?_ ?_
      (freeFields_kin b q').2 (fun _ r c hr ↦ by rw [hparent] at hr; cases hr) ?_ rfl
      (Int.le_refl _)
    · rw [hfresh.state]
      simp [ProcState.life]
    · exact hnot.set hq (.inl (forkChild_congr hfresh.forkStage))
    · rw [(freeFields_kin b q').1, hparent]
    · rw [freeproc, procs_modify, modify_eq_set hq']
  | forked np seq q q' _ hq hfree hfresh =>
    have hnot := hcontrol.notChild hq (by simp [hfree])
    have hne : np ≠ i := by
      rintro rfl
      exact hcontrol.cur_ne hq (by simp [hfree]) hcur
    have hp' : (k.take np q' seq).procs[i]? = some p := by
      rwa [Kernel.take, List.getElem?_set_ne hne]
    refine (h.take hq hfree hnot hfresh).stage hp' (by rw [hrun]; rfl) (fun m hm ↦ ?_)
      (by simp)
    cases hm
    refine ⟨hne, q', getElem?_set_eq hq, ?_, .inl (hfresh.parent.trans (h.free hq hfree).1)⟩
    rw [hfresh.pid]
    exact h.family.below i p.kin (kinOf_get hp)
      (by simp [Proc.kin, hrun, ProcState.life])

/-- The child of a `kfork` in progress, and its parent. -/
theorem Tree.forkParent (h : Tree w k) (hcontrol : Control k.procs k.cur)
    (hp : k.procs[i]? = some p) (hchild : p.forkChild = some np) :
    np ≠ i ∧ ∃ q, k.procs[np]? = some q ∧ q.state = .used ∧ p.state.life = .live := by
  obtain ⟨q, hq, hused⟩ := hcontrol.child i p np hp hchild
  have hk := kinOf_get hp
  have hlive : p.state.life = .live := by
    by_contra hlife
    have hidle : p.forkStage = .idle := h.family.idle i p.kin hk hlife
    rw [Proc.forkChild, hidle] at hchild
    cases hchild
  refine ⟨?_, q, hq, hused, hlive⟩
  rintro rfl
  cases hp.symm.trans hq
  rw [hused] at hlive
  cases hlive

/-- Write the parent of the child of a `kfork` in progress. -/
theorem Tree.link (h : Tree w k) (hcontrol : Control k.procs k.cur) (hp : k.procs[i]? = some p)
    (hstage : p.forkStage = .allocated np) :
    Tree w (k.modify np fun q ↦ { q with parent := some i }) := by
  have hchild : p.forkChild = some np := by rw [Proc.forkChild, hstage]
  obtain ⟨hne, q, hq, hused, hlive⟩ := h.forkParent hcontrol hp hchild
  have hpk := kinOf_get hp
  have hqk := kinOf_get hq
  have hembryo : q.kin.life = .embryo := congrArg ProcState.life hused
  have hidle : q.forkStage = .idle := h.family.idle np q.kin hqk (by simp [hembryo])
  obtain ⟨q₁, hq₁, hlt, hparent⟩ := h.family.allocated i p.kin np hpk hstage
  cases hqk.symm.trans hq₁
  -- The caller is the only process that has the child in its local variable.
  have honly (j : ℕ) (a : Kin) (ha : kinOf k.procs j = some a)
      (hj : a.stage = .allocated np ∨ a.stage = .linked np) : j = i := by
    obtain ⟨r, hr, rfl⟩ := kinOf_eq_some.mp ha
    refine hcontrol.parent j i r p np hr hp ?_ hchild
    rcases hj with hj | hj
    · rw [Proc.forkChild, show r.forkStage = _ from hj]
    · rw [Proc.forkChild, show r.forkStage = _ from hj]
  refine ⟨?_, ?_⟩
  · rw [procs_modify, kinOf_modify hq]
    refine h.family.write hqk (Int.le_refl _)
      (fun hroot ↦ absurd hroot (h.family.ne_root hqk (by simp [hembryo])))
      (fun hfree ↦ .inl ⟨hfree, rfl⟩) ?_ (by rintro _ ⟨⟩)
      (.inr (h.family.childless hqk (by simp [hembryo]))) (fun _ ↦ hidle)
      (fun m hm ↦ ?_) (fun m hm ↦ ?_) (fun j a ha hj ↦ ?_) (.inr fun j a ha hj ↦ ?_)
    · intro r hr
      cases hr
      exact ⟨by simp [Proc.kin, hused, ProcState.life], Ne.symm hne, p.kin, hpk, hlive, hlt⟩
    · cases hidle.symm.trans hm
    · cases hidle.symm.trans hm
    · rw [honly j a ha (.inl hj)]
      exact ⟨rfl, .inr rfl⟩
    · rw [honly j a ha (.inr hj)] at ha
      cases hpk.symm.trans ha
      cases hstage.symm.trans hj
  · intro hw
    rw [procs_modify, kinOf_modify hq, regOf_modify_same hq rfl]
    refine (h.waits hw).write hqk (fun _ _ hj ↦ hj) (fun _ _ hlife ↦ hlife) ?_ ?_
    · intro j c _ hj
      rcases hparent with hnone | hsome
      · cases hnone.symm.trans hj
      · rw [hsome] at hj
        exact hj
    · intro j c _ _
      simp [Proc.kin, hused, ProcState.life]

theorem tree_kforkLink (h : Tree w k) (hcontrol : Control k.procs k.cur) (hp : k.procs[i]? = some p)
    (hstage : p.forkStage = .allocated np) : Tree w (kforkLink i np k) := by
  obtain ⟨hne, q, hq, hused, hlive⟩ :=
    h.forkParent hcontrol hp (show p.forkChild = some np by rw [Proc.forkChild, hstage])
  have hp' : (k.modify np fun q ↦ { q with parent := some i }).procs[i]? = some p := by
    rwa [procs_modify, List.getElem?_modify_ne _ _ hne]
  refine (h.link hcontrol hp hstage).stage hp' hlive (by simp) fun m hm ↦ ?_
  cases hm
  refine ⟨hne, { q with parent := some i }, ?_, rfl⟩
  rw [procs_modify, List.getElem?_modify_eq, hq]
  rfl

theorem tree_kforkRunnable (h : Tree w k) (hcontrol : Control k.procs k.cur)
    (hp : k.procs[i]? = some p) (hstage : p.forkStage = .linked np) :
    Tree w (kforkRunnable i np k) := by
  obtain ⟨hne, q, hq, hused, hlive⟩ :=
    h.forkParent hcontrol hp (show p.forkChild = some np by rw [Proc.forkChild, hstage])
  have hpk := kinOf_get hp
  have hqk := kinOf_get hq
  have hembryo : q.kin.life = .embryo := congrArg ProcState.life hused
  have hidle : q.forkStage = .idle := h.family.idle np q.kin hqk (by simp [hembryo])
  obtain ⟨q₁, hq₁, hparent⟩ := h.family.linked i p.kin np hpk hstage
  cases hqk.symm.trans hq₁
  have hpublished : Tree w (k.modify np fun q ↦ { q with state := .runnable }) := by
    refine ⟨?_, ?_⟩
    · rw [procs_modify, kinOf_modify hq]
      refine h.family.write hqk (Int.le_refl _)
        (fun hroot ↦ absurd hroot (h.family.ne_root hqk (by simp [hembryo])))
        (fun _ ↦ .inl ⟨by simp [hembryo], rfl⟩) ?_ ?_ (.inl ⟨rfl, rfl⟩)
        (fun hlife ↦ absurd rfl hlife) (fun m hm ↦ ?_) (fun m hm ↦ ?_)
        (fun _ _ _ _ ↦ ⟨rfl, .inl rfl⟩) (.inl rfl)
      · intro r hr
        obtain ⟨-, hrest⟩ := h.family.parent_ne hqk hr
        exact ⟨by simp [Proc.kin, ProcState.life], hrest⟩
      · intro _ hnone
        cases hparent.symm.trans hnone
      · cases hidle.symm.trans hm
      · cases hidle.symm.trans hm
    · intro hw
      rw [procs_modify, kinOf_modify hq, regOf_modify_same hq rfl]
      exact (h.waits hw).write hqk (fun _ _ hj ↦ hj) (fun _ _ _ ↦ by simp [hembryo])
        (fun _ _ _ hj ↦ hj) fun _ _ _ _ ↦ by simp [Proc.kin, ProcState.life]
  have hp' : (k.modify np fun q ↦ { q with state := .runnable }).procs[i]? = some p := by
    rwa [procs_modify, List.getElem?_modify_ne _ _ hne]
  exact hpublished.stage hp' hlive (by simp) (by simp)

end Fork

/-! ### Exiting and waiting -/

section Exit

variable {b : Build} {k k' : Kernel} {i x pp : ℕ} {p : Proc} {procs : List Proc}

/-- A child that has exited is reaped, or, when all live, the parent registers. -/
theorem tree_kwait {copyout : Bool} (h : Tree w k) (hcontrol : Control k.procs k.cur)
    (hp : k.procs[i]? = some p) (hrun : p.state = .running) : Tree w (kwait b copyout i p k) := by
  have hpk := kinOf_get hp
  have halive : p.kin.life ≠ .dead := by simp [Proc.kin, hrun, ProcState.life]
  unfold kwait
  split
  · rename_i z hz
    obtain ⟨q, hq, hzombie⟩ := getElem?_of_findIdx? hz
    simp only [decide_eq_true_eq] at hzombie
    have hqk := kinOf_get hq
    have hdead : q.kin.life = .dead := congrArg ProcState.life hzombie.2
    split_ifs
    · refine h.clear hq (freeFields b { q with parent := none }) ?_
        (hcontrol.notChild hq (by simp [hzombie.2])) (freeFields_kin b _).1 (freeFields_kin b _).2
        (fun hw r c hr hreg ↦ ?_) ?_ rfl (Int.le_refl _)
      · rw [show q.state.life = .dead from hdead]
        simp
      · -- A parent that is registered has no child that has exited.
        cases hzombie.1.symm.trans hr
        exact ((h.waits hw) i c p.kin hreg hpk halive).2.2 z q.kin hqk hzombie.1 hdead
      · simp [freeproc, Kernel.modify, modify_eq_set hq]
    · exact h
  · rename_i hnone
    have hnone' := List.findIdx?_eq_none_iff.mp hnone
    split_ifs with hguard
    · exact h
    · have hkin : kinOf (sleepPrepare (.proc i) i k).procs = kinOf k.procs := by
        rw [sleepPrepare, procs_modify, kinOf_modify hp, update_eq_self_iff, hpk]
        rfl
      refine ⟨?_, fun hw j c a hj ha hlife ↦ ?_⟩
      · rw [hkin]
        exact h.family
      · rw [hkin] at ha ⊢
        rw [sleepPrepare, procs_modify, regOf_modify hp] at hj
        rcases update_cases hj with ⟨rfl, ⟨⟩⟩ | ⟨-, hj⟩
        · refine ⟨rfl, ?_, fun m a hm hparent hdead ↦ ?_⟩
          · have hany : (k.procs.any fun pp ↦ pp.parent = some j) = true := by
              by_contra hfalse
              exact hguard (.inl (Bool.eq_false_iff.mpr hfalse))
            obtain ⟨q, hq, hparent⟩ := List.any_eq_true.mp hany
            obtain ⟨m, hm⟩ := List.mem_iff_getElem?.mp hq
            exact ⟨m, q.kin, kinOf_get hm, of_decide_eq_true hparent⟩
          · obtain ⟨q, hq, rfl⟩ := kinOf_eq_some.mp hm
            have hzombie : q.state = .zombie := by
              cases hstate : q.state <;> simp [Proc.kin, hstate, ProcState.life] at hdead ⊢
            simpa [show q.parent = some j from hparent, hzombie] using
              hnone' q (List.mem_of_getElem? hq)
        · exact h.waits hw j c a hj ha hlife

/-- While a process exits it gives its children away, and its own registration no longer counts. -/
structure Leaving (w : Prop) (x : ℕ) (k : Kernel) : Prop where
  family : Family (kinOf k.procs) k.initproc k.nextpid
  waits : w → Waits (kinOf k.procs) (update (regOf k.procs) x none)
  self : ∃ a, kinOf k.procs x = some a ∧ a.life = .live ∧ a.stage = .idle
  other : x ≠ k.initproc

/-- The slots whose parent is a given process. -/
def childOf (procs : List Proc) (x j : ℕ) : Prop := ∃ a, kinOf procs j = some a ∧ a.parent = some x

theorem update_none_le {reg' : ℕ → Option ℕ} (h : ∀ i c, reg' i = some c → reg i = some c)
    (hj : update reg' x none j = some c) : update reg x none j = some c := by
  obtain ⟨-, ⟨⟩⟩ | ⟨hjx, hj⟩ := update_cases hj
  rw [update_of_ne hjx]
  exact h j c hj

theorem Leaving.same (h : Leaving w x k) (hsame : SameTree k k') : Leaving w x k' := by
  refine ⟨?_, fun hw ↦ ?_, ?_, ?_⟩
  · rw [hsame.kin, hsame.init, hsame.next]
    exact h.family
  · rw [hsame.kin]
    exact (h.waits hw).mono fun j c ↦ update_none_le hsame.reg
  · rw [hsame.kin]
    exact h.self
  · rw [hsame.init]
    exact h.other

/-- `initproc` takes over a child of the exiting process, and is woken for it. -/
theorem Leaving.adopt {q : Proc} (h : Leaving w x k) (hq : k.procs[pp]? = some q)
    (hparent : q.parent = some x) :
    Leaving w x (wakeup b (some (.proc k.initproc))
      (k.modify pp fun q ↦ { q with parent := some k.initproc })) := by
  have hqk := kinOf_get hq
  obtain ⟨hfree, hxpp, -⟩ := h.family.parent_ne hqk hparent
  obtain ⟨r, hr, hrlive⟩ := h.family.init
  obtain ⟨a, ha, halive, haidle⟩ := h.self
  have hroot : pp ≠ k.initproc := by
    rintro rfl
    cases hparent.symm.trans (h.family.root_parent hqk)
  have hfamily : Family (kinOf (k.modify pp fun q ↦ { q with parent := some k.initproc }).procs)
      k.initproc k.nextpid := by
    rw [procs_modify, kinOf_modify hq]
    refine h.family.write hqk (Int.le_refl _) (fun heq ↦ absurd heq hroot)
      (fun hfree ↦ .inl ⟨hfree, rfl⟩) ?_ nofun ?_
      (fun hlife ↦ h.family.idle pp q.kin hqk hlife) (fun np hnp ↦ ?_) (fun np hnp ↦ ?_)
      (fun j c hc hstage ↦ ?_) (.inr fun j c hc hstage ↦ ?_)
    · intro s hs
      cases hs
      exact ⟨hfree, Ne.symm hroot, r, hr, hrlive, h.family.first pp q.kin r hr hqk hfree hroot⟩
    · by_cases hlive : q.kin.life = .live
      · exact .inl ⟨hlive, rfl⟩
      · exact .inr (h.family.childless hqk hlive)
    · obtain ⟨c, hc, hlt, hcp⟩ := h.family.allocated pp q.kin np hqk hnp
      refine ⟨?_, c, hc, hlt, hcp⟩
      rintro rfl
      cases hqk.symm.trans hc
      exact absurd hlt (Int.lt_irrefl _)
    · obtain ⟨c, hc, hcp⟩ := h.family.linked pp q.kin np hqk hnp
      exact ⟨Ne.symm (h.family.parent_ne hc hcp).2.1, c, hc, hcp⟩
    -- The exiting process is not inside `kfork`, so its children are in no local variable.
    · obtain ⟨d, hd, -, hdp⟩ := h.family.allocated j c pp hc hstage
      cases hqk.symm.trans hd
      rcases hdp with hdp | hdp <;> cases hparent.symm.trans hdp
      cases ha.symm.trans hc
      cases haidle.symm.trans hstage
    · obtain ⟨d, hd, hdp⟩ := h.family.linked j c pp hc hstage
      cases hqk.symm.trans hd
      cases hparent.symm.trans hdp
      cases ha.symm.trans hc
      cases haidle.symm.trans hstage
  have hsame := (nudges_wakeup b (some (.proc k.initproc))
    (k.modify pp fun q ↦ { q with parent := some k.initproc })).sameTree
  have hreg : regOf (k.modify pp fun q ↦ { q with parent := some k.initproc }).procs =
      regOf k.procs := by
    rw [procs_modify, regOf_modify_same hq rfl]
  refine ⟨?_, fun hw ↦ ?_, ⟨a, ?_, halive, haidle⟩, h.other⟩
  · rwa [hsame.kin]
  · rw [hsame.kin, procs_modify, kinOf_modify hq]
    have hle (j c : ℕ) (hj : update (regOf (wakeup b (some (.proc k.initproc))
        (k.modify pp fun q ↦ { q with parent := some k.initproc })).procs) x none j = some c) :
        update (regOf k.procs) x none j = some c :=
      update_none_le (fun j c hj ↦ hreg ▸ hsame.reg j c hj) hj
    refine (h.waits hw).write hqk hle (fun _ _ hlife ↦ hlife) (fun j c hj hjp ↦ ?_)
      fun j c hj hjp ↦ ?_
    · cases hparent.symm.trans hjp
      rw [update_self] at hj
      cases hj
    · cases hjp
      have hc := ((h.waits hw) _ c r (hle _ c hj) hr (by simp [hrlive])).1
      rw [update_of_ne (Ne.symm h.other), hc] at hj
      exact absurd rfl (regOf_wakeup hj)
  · rwa [hsame.kin, procs_modify, kinOf_modify hq, update_of_ne hxpp]

theorem childOf_adopt {q : Proc} (h : x ≠ k.initproc) (hq : k.procs[pp]? = some q)
    (hchild : childOf (wakeup b (some (.proc k.initproc))
      (k.modify pp fun q ↦ { q with parent := some k.initproc })).procs x j) :
    childOf k.procs x j ∧ j ≠ pp := by
  obtain ⟨a, ha, hparent⟩ := hchild
  rw [(nudges_wakeup b _ _).sameTree.kin, procs_modify, kinOf_modify hq] at ha
  rcases update_eq_some ha with ⟨-, rfl⟩ | ⟨hj, ha⟩
  · exact absurd (Option.some.inj hparent).symm h
  · exact ⟨⟨a, ha, hparent⟩, hj⟩

/-- The loop of `reparent`: in the slots it has passed no child of the exiting process is left. -/
theorem Leaving.foldl (h : Leaving w x k) (slots : List ℕ) :
    Leaving w x (slots.foldl (reparentBody b x) k) ∧
      ∀ j, childOf (slots.foldl (reparentBody b x) k).procs x j →
        childOf k.procs x j ∧ j ∉ slots := by
  induction slots generalizing k with
  | nil => exact ⟨h, fun j hj ↦ ⟨hj, List.not_mem_nil⟩⟩
  | cons pp slots ih =>
    have hbody : Leaving w x (reparentBody b x k pp) ∧
        ∀ j, childOf (reparentBody b x k pp).procs x j → childOf k.procs x j ∧ j ≠ pp := by
      unfold reparentBody
      split
      · rename_i hpp
        refine ⟨h, fun j hj ↦ ⟨hj, ?_⟩⟩
        rintro rfl
        obtain ⟨a, ha, -⟩ := hj
        rw [kinOf, hpp] at ha
        cases ha
      · rename_i q hq
        split_ifs with hparent
        · exact ⟨h.adopt hq hparent, fun j ↦ childOf_adopt h.other hq⟩
        · refine ⟨h, fun j hj ↦ ⟨hj, ?_⟩⟩
          rintro rfl
          obtain ⟨a, ha, hax⟩ := hj
          rw [kinOf, hq] at ha
          cases ha
          exact hparent hax
    obtain ⟨hrest, hgone⟩ := ih hbody.1
    refine ⟨hrest, fun j hj ↦ ?_⟩
    obtain ⟨hchild, hnot⟩ := hgone j hj
    obtain ⟨hchild', hne⟩ := hbody.2 j hchild
    exact ⟨hchild', by simp [hne, hnot]⟩

/-- After `reparent` the exiting process has no children. -/
theorem Leaving.childless (h : Leaving w x k) (j : ℕ) : ¬childOf (reparent b x k).procs x j := by
  intro hj
  obtain ⟨⟨a, ha, -⟩, hnot⟩ := (h.foldl (List.range k.procs.length)).2 j hj
  obtain ⟨p, hp, -⟩ := kinOf_eq_some.mp ha
  exact hnot (List.mem_range.mpr (lt_of_getElem? hp))

theorem tree_kexit {status : ℤ} (h : Tree w k) (hp : k.procs[i]? = some p)
    (hrun : p.state = .running) (hidle : p.forkStage = .idle) (hinit : i ≠ k.initproc) :
    Tree w (kexit b status i k) := by
  have hleaving : Leaving w i k :=
    ⟨h.family, fun hw ↦ (h.waits hw).mono fun _ _ ↦ regOf_update_le (.inr rfl),
      ⟨p.kin, kinOf_get hp, by simp [Proc.kin, hrun, ProcState.life], hidle⟩,
      hinit⟩
  have hgiven : Leaving w i (reparent b i k) := (hleaving.foldl _).1
  have hsame := (nudges_wakeup b (((reparent b i k).procs[i]?.bind (·.parent)).map .proc)
    (reparent b i k)).sameTree
  have hnotified : Leaving w i (kexitNotify b i k) := hgiven.same hsame
  have hchildless (j : ℕ) : ¬childOf (kexitNotify b i k).procs i j := by
    rw [childOf, show kinOf (kexitNotify b i k).procs = _ from hsame.kin]
    exact hleaving.childless j
  obtain ⟨a, ha, halive, haidle⟩ := hnotified.self
  obtain ⟨q, hq, rfl⟩ := kinOf_eq_some.mp ha
  have hfree : q.kin.life ≠ .free := by simp [halive]
  have hparentOf : (reparent b i k).procs[i]?.bind (·.parent) = q.parent := by
    have hkin : kinOf (reparent b i k).procs i = some q.kin := hsame.kin ▸ ha
    obtain ⟨r, hr, hrq⟩ := kinOf_eq_some.mp hkin
    rw [hr]
    exact congrArg Kin.parent hrq
  have hprocs : (kexit b status i k).procs = (kexitNotify b i k).procs.modify i fun p ↦
      { p with etime := (kexitNotify b i k).ticks, xstate := status, state := .zombie } := rfl
  refine ⟨?_, fun hw ↦ ?_⟩
  · rw [hprocs, kinOf_modify hq]
    refine hnotified.family.write ha (Int.le_refl _) (fun heq ↦ absurd heq hnotified.other)
      (fun _ ↦ .inl ⟨hfree, rfl⟩) (fun r hr ↦ ?_) (fun hroot hnone ↦ ?_)
      (.inr fun j a ha hj ↦ hchildless j ⟨a, ha, hj⟩) (fun _ ↦ haidle) (fun m hm ↦ ?_)
      (fun m hm ↦ ?_) (fun _ _ _ _ ↦ ⟨rfl, .inl rfl⟩) (.inl rfl)
    · obtain ⟨-, hrest⟩ := hnotified.family.parent_ne ha hr
      exact ⟨by simp [Proc.kin, ProcState.life], hrest⟩
    · rcases hnotified.family.orphan i q.kin ha hroot hnone with hlife | hlife
      · exact absurd hlife hfree
      · cases halive.symm.trans hlife
    · cases haidle.symm.trans hm
    · cases haidle.symm.trans hm
  · rw [hprocs, kinOf_modify hq, regOf_modify_same hq rfl]
    -- The registration of the process itself does not matter any more.
    refine Waits.dead (i := i) ?_ (update_self ..) rfl
    refine (hnotified.waits hw).write ha (fun _ _ hj ↦ hj) (fun c hc ↦ ?_) (fun _ _ _ hj ↦ hj)
      fun j c hj hjp ↦ ?_
    · rw [update_self] at hc
      cases hc
    · obtain ⟨-, hji, r, hr, hrlive, -⟩ := hnotified.family.parent_ne ha hjp
      have hc := ((hnotified.waits hw) j c r hj hr (by simp [hrlive])).1
      rw [update_of_ne hji, hc] at hj
      refine absurd ?_ (regOf_wakeup hj)
      rw [hparentOf, show q.parent = some j from hjp]
      rfl

end Exit

/-! ### Whole runs -/

section Runs

variable {b : Build} {k k' : Kernel} {e : Event}

theorem tree_procStep {i : ℕ} {p : Proc} (hstep : procStep b i p k e = some k') (h : Tree w k)
    (hcontrol : Control k.procs k.cur) (hcur : k.cur = some i) (hp : k.procs[i]? = some p)
    (he : w → ∀ c, e ≠ .sleepPrepare (.proc c)) : Tree w k' := by
  have hrun : p.state = .running := (hcontrol.running i p hp).mpr hcur
  cases procStep_cases hstep with
  | forkAlloc mem => exact (kforkAlloc_cases b mem i k).tree h hcontrol hcur hp hrun
  | forkLink _ hstage => exact tree_kforkLink h hcontrol hp hstage
  | forkRunnable _ hstage => exact tree_kforkRunnable h hcontrol hp hstage
  | sleepPrepare => exact tree_sleepPrepare h hp fun hw c hc ↦ he hw c (hc ▸ rfl)
  | sleep => exact h.same (sameTree_sleep hp hrun)
  | kill pid => exact h.same (nudges_kkill b pid k).sameTree
  | setkilled => exact h.same (sameTree_modify fun _ _ ↦ ⟨rfl, .inl rfl⟩)
  | exit _ hidle hinit => exact tree_kexit h hp hrun hidle hinit
  | wait => exact tree_kwait h hcontrol hp hrun

theorem tree_step (hstep : step b k e = some k') (h : Tree w k) (hcontrol : Control k.procs k.cur)
    (he : w → ∀ c, e ≠ .sleepPrepare (.proc c)) : Tree w k' := by
  rcases step_cases hstep with ⟨mode, -, -, rfl⟩ | ⟨chan, -, rfl⟩ |
    ⟨-, hcur, ⟨-, rfl⟩ | ⟨i, hpick, rfl⟩⟩ | ⟨i, p, hcur, hp, hproc⟩
  · have hclock : SameTree k (clockintr b k) :=
      let hnudged := (nudges_clockintr b k).sameTree
      ⟨hnudged.slots, hnudged.init, hnudged.next⟩
    exact (h.same hclock).same ((chargeTick_cases b mode _).sameTree (control_clockintr hcontrol))
  · exact h.same (nudges_wakeup b _ k).sameTree
  · exact h
  · obtain ⟨p, hp, hstate⟩ := pick_runnable hpick
    exact h.same (sameTree_leave hp (by rw [hstate]; rfl) rfl rfl)
  · exact tree_procStep hproc h hcontrol hcur hp he

theorem tree_boot (b : Build) (w : Prop) : Tree w (boot b) := by
  have hslots : ∀ s ∈ (boot b).procs.zipIdx, s.1.parent = none ∧ s.1.forkStage = .idle ∧
      s.1.chan = none ∧ (s.2 = 0 ∨ s.1.state = .unused) := by
    cases b <;> decide +kernel
  have hfirst : kinOf (boot b).procs 0 = some ⟨none, 1, .idle, .live⟩ := by
    cases b <;> decide +kernel
  have hinit : (boot b).initproc = 0 := by cases b <;> decide +kernel
  have hnext : (boot b).nextpid = 2 := by cases b <;> decide +kernel
  have hslot (j : ℕ) (a : Kin) (ha : kinOf (boot b).procs j = some a) :
      a.parent = none ∧ a.stage = .idle ∧ (j = 0 ∨ a.life = .free) := by
    obtain ⟨p, hp, rfl⟩ := kinOf_eq_some.mp ha
    obtain ⟨hparent, hidle, -, hfree⟩ := hslots (p, j) (List.mk_mem_zipIdx_iff_getElem?.mpr hp)
    refine ⟨hparent, hidle, hfree.imp_right fun hunused ↦ ?_⟩
    exact congrArg ProcState.life hunused
  have hfree (j : ℕ) (a : Kin) (ha : kinOf (boot b).procs j = some a) (hlife : a.life ≠ .free) :
      j = 0 := (hslot j a ha).2.2.resolve_right hlife
  refine ⟨⟨?_, ?_, ?_, ?_, ?_, ?_, ?_, ?_⟩, fun _ i c a hi ha _ ↦ ?_⟩
  · exact ⟨_, hinit ▸ hfirst, rfl⟩
  · intro j a r _ ha hlife hj
    exact absurd ((hfree j a ha hlife).trans hinit.symm) hj
  · intro j a ha hlife
    cases hfirst.symm.trans (hfree j a ha hlife ▸ ha)
    rw [hnext]
    decide
  · intro j a q ha hq
    cases (hslot j a ha).1.symm.trans hq
  · intro j a ha hj _
    exact .inl ((hslot j a ha).2.2.resolve_left (hinit ▸ hj))
  · intro j a ha _
    exact (hslot j a ha).2.1
  · intro i a np ha hstage
    cases (hslot i a ha).2.1.symm.trans hstage
  · intro i a np ha hstage
    cases (hslot i a ha).2.1.symm.trans hstage
  · obtain ⟨p, hp, hc⟩ := Option.bind_eq_some_iff.mp hi
    rw [Proc.waitsOn, (hslots (p, i) (List.mk_mem_zipIdx_iff_getElem?.mpr hp)).2.2.1] at hc
    cases hc

theorem tree_reachable (h : Reachable (step b) (boot b) k) : Tree False k := by
  have hboth := h.invariant (I := fun k ↦ Control k.procs k.cur ∧ Tree False k)
    ⟨control_boot b, tree_boot b False⟩ fun s e t hstep hs ↦
      ⟨control_step hstep hs.1, tree_step hstep hs.2 hs.1 False.elim⟩
  exact hboth.2

/-- The parent of a process, which has not exited and is older. -/
def parentOf (procs : List Proc) (j q : ℕ) : Prop :=
  ∃ p r, procs[j]? = some p ∧ p.parent = some q ∧ procs[q]? = some r ∧ r.state.life = .live ∧
    r.pid < p.pid

/-- In every state of every run the parents of a process that has been published, zombies included,
lead to `initproc`, and neither it nor any of them has exited. -/
theorem parents_lead_to_init (h : Reachable (step b) (boot b) k) {j : ℕ} {p : Proc}
    (hp : k.procs[j]? = some p) (hlife : p.state.life = .live ∨ p.state.life = .dead) :
    (∃ r, k.procs[k.initproc]? = some r ∧ r.state.life = .live) ∧
      Relation.ReflTransGen (parentOf k.procs) j k.initproc := by
  have hfamily := (tree_reachable h).family
  obtain ⟨r, hr, hinit⟩ := hfamily.init
  refine ⟨?_, ?_⟩
  · obtain ⟨q, hq, rfl⟩ := kinOf_eq_some.mp hr
    exact ⟨q, hq, hinit⟩
  -- The pids fall along the parents and stay above the pid of the first process.
  induction hn : (p.pid - r.pid).toNat using Nat.strongRecOn generalizing j p with
  | ind _ ih =>
    have hk := kinOf_get hp
    have hpublished : p.kin.life ≠ .free ∧ p.kin.life ≠ .embryo := by
      rcases hlife with hlife | hlife <;> simp [Proc.kin, hlife]
    by_cases hj : j = k.initproc
    · rw [hj]
    cases hparent : p.parent with
    | none =>
      rcases hfamily.orphan j p.kin hk hj hparent with hnot | hnot
      · exact absurd hnot hpublished.1
      · exact absurd hnot hpublished.2
    | some q =>
      obtain ⟨-, a, ha, hlive, hlt⟩ := hfamily.parent j p.kin q hk hparent
      obtain ⟨s, hs, rfl⟩ := kinOf_eq_some.mp ha
      have hfirst := hfamily.first j p.kin r hr hk hpublished.1 hj
      have hlt' : s.pid < p.pid := hlt
      have hfirst' : r.pid < p.pid := hfirst
      refine .head ⟨p, s, hp, hparent, hs, hlive, hlt'⟩ (ih _ ?_ hs (.inl hlive) rfl)
      omega

/-- The first process waits for its child, which has a child of its own. -/
def grandchildRun : List (Transition Kernel Event) × Kernel :=
  replay (step .mlfq) (boot .mlfq)
    [.dispatch, .forkAlloc ⟨true, true, true⟩, .forkLink, .forkRunnable, .wait true, .sleep,
      .dispatch, .forkAlloc ⟨true, true, true⟩, .forkLink, .forkRunnable]

theorem parents_lead_to_init_grandchild :
    grandchildRun.2.procs[2]?.map (fun p ↦ (p.state, p.parent)) = some (.runnable, some 1) ∧
      (∃ r, grandchildRun.2.procs[grandchildRun.2.initproc]? = some r ∧ r.state.life = .live) ∧
      Relation.ReflTransGen (parentOf grandchildRun.2.procs) 2 grandchildRun.2.initproc := by
  have hslot : grandchildRun.2.procs[2]?.map (fun p ↦ (p.state, p.parent)) =
      some (.runnable, some 1) := by decide +kernel
  obtain ⟨p, hp, hstate⟩ := Option.map_eq_some_iff.mp hslot
  refine ⟨hslot, parents_lead_to_init (b := .mlfq) ⟨grandchildRun.1, path_replay _ _⟩ hp (.inl ?_)⟩
  rw [show p.state = .runnable from congrArg Prod.fst hstate]
  rfl

/-- The events of a run in which `sleep_prepare` is called on the address of a process by `kwait`
only. -/
def onlyWaitRegisters : Event → Bool
  | .sleepPrepare (.proc _) => false
  | _ => true

/-- A parent that sleeps in `kwait` sleeps on its own address, it has a child, and none of its
children has exited: the wakeup of an exiting child, or of the children that `initproc` takes over,
is never lost. -/
theorem kwait_sleeps {l : List (Transition Kernel Event)} (hl : Path (step b) (boot b) l k)
    (honly : (l.all fun t ↦ onlyWaitRegisters t.event) = true) {i c : ℕ} {p : Proc}
    (hp : k.procs[i]? = some p) (hsleeping : p.state = .sleeping)
    (hchan : p.chan = some (.proc c)) :
    c = i ∧ (∃ q ∈ k.procs, q.parent = some i) ∧
      ∀ q ∈ k.procs, q.parent = some i → q.state ≠ .zombie := by
  have hboth : Control k.procs k.cur ∧ Tree True k := by
    refine hl.preserves_of (I := fun k ↦ Control k.procs k.cur ∧ Tree True k)
      (Q := fun _ e ↦ onlyWaitRegisters e = true) ?_ (fun t ht ↦ List.all_eq_true.mp honly t ht)
      ⟨control_boot b, tree_boot b True⟩
    rintro s e t hstep he ⟨hcontrol, htree⟩
    refine ⟨control_step hstep hcontrol, tree_step hstep htree hcontrol fun _ d hd ↦ ?_⟩
    rw [hd] at he
    cases he
  have hreg : regOf k.procs i = some c := by
    rw [regOf, hp]
    show p.waitsOn = some c
    rw [Proc.waitsOn, hchan]
  obtain ⟨hc, ⟨m, a, ha, hparent⟩, hall⟩ := hboth.2.waits trivial i c p.kin hreg
    (kinOf_get hp) (by simp [Proc.kin, hsleeping, ProcState.life])
  obtain ⟨q, hq, rfl⟩ := kinOf_eq_some.mp ha
  refine ⟨hc, ⟨q, List.mem_of_getElem? hq, hparent⟩, fun q hq hqp hzombie ↦ ?_⟩
  obtain ⟨m, hm⟩ := List.mem_iff_getElem?.mp hq
  exact hall m q.kin (kinOf_get hm) hqp (congrArg ProcState.life hzombie)

theorem kwait_sleeps_grandchild :
    grandchildRun.2.procs[0]?.map (fun p ↦ (p.state, p.chan)) =
        some (.sleeping, some (.proc 0)) ∧
      (∃ q ∈ grandchildRun.2.procs, q.parent = some 0) ∧
      ∀ q ∈ grandchildRun.2.procs, q.parent = some 0 → q.state ≠ .zombie := by
  have hslot : grandchildRun.2.procs[0]?.map (fun p ↦ (p.state, p.chan)) =
      some (.sleeping, some (.proc 0)) := by decide +kernel
  obtain ⟨p, hp, hstate⟩ := Option.map_eq_some_iff.mp hslot
  exact ⟨hslot, (kwait_sleeps (b := .mlfq) (path_replay _ _) (by decide +kernel) hp
    (congrArg Prod.fst hstate) (congrArg Prod.snd hstate)).2⟩

end Runs

end Irish.Xv6
