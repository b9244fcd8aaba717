import Irish.Xv6.Scheduler

/-!
# Who runs, and who is being created

Two facts about the process table that every section of the kernel keeps, in both one-CPU builds.
A process is `RUNNING` exactly when it is `mycpu()->proc`. The child that a process holds in the
local variable `np` of a `kfork` in progress is a `USED` slot, and it is nobody else's child, so the
last section of `kfork` makes runnable the slot that its first section allocated.

Every section is a sequence of writes to single slots. `Control.set` is the one place where a write
is examined; the sections are compositions of it, and a loop over the table rewrites every slot
by one relation (`Rewrites`).
-/

set_option autoImplicit false

namespace Irish.Xv6

open Library

/-- The child in the local variable of a `kfork` in progress. -/
def Proc.forkChild (p : Proc) : Option ℕ :=
  match p.forkStage with
  | .idle => none
  | .allocated np => some np
  | .linked np => some np

/-- The children of the `kfork`s in progress are `USED` slots, and nobody else's. -/
structure Forks (procs : List Proc) : Prop where
  child : ∀ (i : ℕ) (p : Proc) (np : ℕ), procs[i]? = some p → p.forkChild = some np →
    ∃ q : Proc, procs[np]? = some q ∧ q.state = .used
  parent : ∀ (i j : ℕ) (p q : Proc) (np : ℕ), procs[i]? = some p → procs[j]? = some q →
    p.forkChild = some np → q.forkChild = some np → i = j

structure Control (procs : List Proc) (cur : Option ℕ) : Prop extends forks : Forks procs where
  running : ∀ (i : ℕ) (p : Proc), procs[i]? = some p → (p.state = .running ↔ cur = some i)
  current : ∀ i : ℕ, cur = some i → ∃ p, procs[i]? = some p

/-- No `kfork` in progress is creating the process in a slot. -/
def NotChild (procs : List Proc) (i : ℕ) : Prop :=
  ∀ (j : ℕ) (p : Proc), procs[j]? = some p → p.forkChild ≠ some i

variable {i np : ℕ} {p p' q : Proc} {procs : List Proc} {cur : Option ℕ} {k k' : Kernel} {b : Build}
  {e : Event} {α : Type*} {l : List α} {a : α} {f : Proc → Proc} {status : ℤ} {copyout : Bool}

theorem modify_eq_set (h : l[i]? = some a) (f : α → α) : l.modify i f = l.set i (f a) := by
  apply List.ext_getElem?
  intro j
  rw [List.getElem?_modify, List.getElem?_set]
  rcases eq_or_ne i j with rfl | hij
  · have hlt := lt_of_getElem? h
    rw [h]
    simp [hlt]
  · simp [hij]

@[simp] theorem modify_set_self (l : List α) (i : ℕ) (a : α) (f : α → α) :
    (l.set i a).modify i f = l.set i (f a) := by
  apply List.ext_getElem?
  intro j
  rw [List.getElem?_modify, List.getElem?_set, List.getElem?_set]
  by_cases hij : i = j
  · by_cases hlt : i < l.length <;> simp [hij, hij ▸ hlt]
  · simp [hij]

@[simp] theorem procs_modify (k : Kernel) (i : ℕ) (f : Proc → Proc) :
    (k.modify i f).procs = k.procs.modify i f := rfl

@[simp] theorem cur_modify (k : Kernel) (i : ℕ) (f : Proc → Proc) :
    (k.modify i f).cur = k.cur := rfl

@[simp] theorem seq_modify (k : Kernel) (i : ℕ) (f : Proc → Proc) :
    (k.modify i f).mlfqGlobalSeq = k.mlfqGlobalSeq := rfl

theorem forkChild_congr (h : p.forkStage = q.forkStage) : p.forkChild = q.forkChild := by
  unfold Proc.forkChild
  rw [h]

/-- A write to one slot keeps, drops or newly fills the local variable of a `kfork`. -/
def ForkWrite (procs : List Proc) (i : ℕ) (p p' : Proc) : Prop :=
  p'.forkChild = p.forkChild ∨ p'.forkChild = none ∨
    ∃ (np : ℕ) (q : Proc), p'.forkChild = some np ∧ np ≠ i ∧ procs[np]? = some q ∧
      q.state = .used ∧ NotChild procs np

/-- A write to one slot may do this to the `kfork`s in progress, as long as it leaves a child alone
that is being created. -/
theorem Forks.set (h : Forks procs) (hp : procs[i]? = some p)
    (hused : (p.state = .used → p'.state = .used) ∨ NotChild procs i)
    (hfork : ForkWrite procs i p p') : Forks (procs.set i p') := by
  -- The child of another slot is still there after the write.
  have hchild {j np : ℕ} {q : Proc} (hq : procs[j]? = some q) (hqc : q.forkChild = some np) :
      ∃ q : Proc, (procs.set i p')[np]? = some q ∧ q.state = .used := by
    obtain ⟨r, hr, hrs⟩ := h.child j q np hq hqc
    rcases eq_or_ne np i with rfl | hnpi
    · cases hp.symm.trans hr
      rcases hused with hkeep | hnone
      · exact ⟨p', getElem?_set_eq hp, hkeep hrs⟩
      · exact absurd hqc (hnone j q hq)
    · exact ⟨r, (List.getElem?_set_ne hnpi.symm).trans hr, hrs⟩
  -- Two slots with one child: the written slot keeps its child, or the child is new.
  have hclash {j np : ℕ} {q : Proc} (hj : j ≠ i) (hq : procs[j]? = some q)
      (hpc : p'.forkChild = some np) (hqc : q.forkChild = some np) : False := by
    rcases hfork with hkeep | hnone | ⟨np', q', hc, -, -, -, hnew⟩
    · exact hj (h.parent j i q p np hq hp hqc (hkeep ▸ hpc))
    · cases hnone.symm.trans hpc
    · cases hc.symm.trans hpc
      exact hnew j q hq hqc
  refine ⟨fun j q np hq hqc ↦ ?_, fun j l q r np hq hr hqc hrc ↦ ?_⟩
  · rcases getElem?_set_cases hq with ⟨rfl, rfl⟩ | ⟨-, hq⟩
    · rcases hfork with hkeep | hnone | ⟨np', q', hc, hne, hq', hused', -⟩
      · exact hchild hp (hkeep ▸ hqc)
      · cases hnone.symm.trans hqc
      · cases hc.symm.trans hqc
        exact ⟨q', (List.getElem?_set_ne hne.symm).trans hq', hused'⟩
    · exact hchild hq hqc
  · rcases getElem?_set_cases hq with ⟨hj, rfl⟩ | ⟨hj, hq'⟩ <;>
      rcases getElem?_set_cases hr with ⟨hl, rfl⟩ | ⟨hl, hr'⟩
    · exact hj.trans hl.symm
    · exact (hclash hl hr' hqc hrc).elim
    · exact (hclash hj hq' hrc hqc).elim
    · exact h.parent j l q r np hq' hr' hqc hrc

/-- What a write to one slot may do without disturbing the table: start or stop running together
with `mycpu()->proc`, and to a `kfork` in progress what `Forks.set` allows. -/
theorem Control.set {cur' : Option ℕ} (h : Control procs cur) (hp : procs[i]? = some p)
    (hrun : p'.state = .running ↔ cur' = some i)
    (hcur : ∀ j, j ≠ i → (cur' = some j ↔ cur = some j))
    (hused : (p.state = .used → p'.state = .used) ∨ NotChild procs i)
    (hfork : ForkWrite procs i p p') : Control (procs.set i p') cur' := by
  refine ⟨h.forks.set hp hused hfork, fun j q hq ↦ ?_, fun j hj ↦ ?_⟩
  · rcases getElem?_set_cases hq with ⟨rfl, rfl⟩ | ⟨hj, hq⟩
    · exact hrun
    · rw [hcur j hj]
      exact h.running j q hq
  · rcases eq_or_ne j i with rfl | hji
    · exact ⟨p', getElem?_set_eq hp⟩
    · rw [List.getElem?_set_ne hji.symm]
      exact h.current j ((hcur j hji).mp hj)

/-- The child of a `kfork` in progress is `USED`. -/
theorem Forks.notChild (h : Forks procs) (hp : procs[i]? = some p)
    (hs : p.state ≠ .used) : NotChild procs i := by
  intro j q hq hqc
  obtain ⟨r, hr, hrs⟩ := h.child j q i hq hqc
  cases hp.symm.trans hr
  exact hs hrs

theorem Control.notChild (h : Control procs cur) (hp : procs[i]? = some p)
    (hs : p.state ≠ .used) : NotChild procs i :=
  h.forks.notChild hp hs

/-- The process in a slot that is not `RUNNING` does not have the CPU. -/
theorem Control.cur_ne (h : Control procs cur) (hp : procs[i]? = some p)
    (hs : p.state ≠ .running) : cur ≠ some i :=
  fun hcur ↦ hs ((h.running i p hp).mpr hcur)

/-- The writes that leave scheduling and `kfork` alone. -/
def SameControl (p p' : Proc) : Prop :=
  (p'.state = .running ↔ p.state = .running) ∧ (p.state = .used → p'.state = .used) ∧
    p'.forkStage = p.forkStage

theorem Control.set_same (h : Control procs cur) (hp : procs[i]? = some p)
    (hsame : SameControl p p') : Control (procs.set i p') cur :=
  h.set hp (hsame.1.trans (h.running i p hp)) (fun _ _ ↦ Iff.rfl) (.inl hsame.2.1)
    (.inl (forkChild_congr hsame.2.2))

theorem Control.modify_same (h : Control procs cur) (i : ℕ) (hsame : ∀ p, SameControl p (f p)) :
    Control (procs.modify i f) cur := by
  cases hp : procs[i]? with
  | none =>
    rwa [List.modify_eq_self (List.getElem?_eq_none_iff.mp hp)]
  | some p =>
    rw [modify_eq_set hp]
    exact h.set_same hp (hsame p)

/-! ### Writes to every slot -/

/-- What a process keeps that is at most woken up. -/
structure Woken (p p' : Proc) : Prop where
  state : p'.state = p.state ∨ p.state = .sleeping ∧ p'.state = .runnable
  chan : p'.chan = p.chan ∨ p'.chan = none
  forkStage : p'.forkStage = p.forkStage
  pid : p'.pid = p.pid
  ctime : p'.ctime = p.ctime
  stime : p'.stime = p.stime
  etime : p'.etime = p.etime
  rtime : p'.rtime = p.rtime

/-- It keeps its parent as well. -/
structure Nudged (p p' : Proc) : Prop extends Woken p p' where
  parent : p'.parent = p.parent

instance : Std.Refl Woken := ⟨fun _ ↦ ⟨.inl rfl, .inl rfl, rfl, rfl, rfl, rfl, rfl, rfl⟩⟩

instance : IsTrans Proc Woken where
  trans p q r h h' := by
    refine ⟨?_, ?_, h'.forkStage.trans h.forkStage, h'.pid.trans h.pid, h'.ctime.trans h.ctime,
      h'.stime.trans h.stime, h'.etime.trans h.etime, h'.rtime.trans h.rtime⟩
    · rcases h'.state with hs' | ⟨hs, hs'⟩
      · rw [hs']
        exact h.state
      · rcases h.state with hsame | ⟨hp, -⟩
        · exact .inr ⟨hsame.symm.trans hs, hs'⟩
        · exact .inr ⟨hp, hs'⟩
    · rcases h'.chan with hc | hc
      · rw [hc]
        exact h.chan
      · exact .inr hc

instance : Std.Refl Nudged := ⟨fun p ↦ ⟨Std.Refl.refl p, rfl⟩⟩

instance : IsTrans Proc Nudged where
  trans _ _ _ h h' :=
    ⟨IsTrans.trans _ _ _ h.toWoken h'.toWoken, h'.parent.trans h.parent⟩

theorem Woken.sameControl (h : Woken p p') : SameControl p p' := by
  refine ⟨?_, fun hused ↦ ?_, h.forkStage⟩ <;> rcases h.state with hs | ⟨hs, hs'⟩
  · rw [hs]
  · simp [hs, hs']
  · rw [hs, hused]
  · cases hs.symm.trans hused

/-- A section that writes the table slot by slot and draws sequence numbers, and nothing else. -/
structure Rewrites (R : Proc → Proc → Prop) (k k' : Kernel) : Prop where
  procs : List.Forall₂ R k.procs k'.procs
  cur : k'.cur = k.cur
  ticks : k'.ticks = k.ticks
  nextpid : k'.nextpid = k.nextpid
  initproc : k'.initproc = k.initproc

section Rewrites

variable {R S : Proc → Proc → Prop} {k'' : Kernel} {body : Proc → ℕ → Proc × ℕ}

theorem Rewrites.refl [Std.Refl R] (k : Kernel) : Rewrites R k k :=
  ⟨List.forall₂_refl _, rfl, rfl, rfl, rfl⟩

theorem Rewrites.trans [IsTrans Proc R] (h : Rewrites R k k') (h' : Rewrites R k' k'') :
    Rewrites R k k'' :=
  ⟨forall₂_trans h.procs h'.procs, h'.cur.trans h.cur, h'.ticks.trans h.ticks,
    h'.nextpid.trans h.nextpid, h'.initproc.trans h.initproc⟩

theorem Rewrites.mono (h : Rewrites R k k') (hRS : ∀ p p', R p p' → S p p') : Rewrites S k k' :=
  ⟨h.procs.imp hRS, h.cur, h.ticks, h.nextpid, h.initproc⟩

theorem rewrites_modify [Std.Refl R] (hf : ∀ p, k.procs[i]? = some p → R p (f p)) :
    Rewrites R k (k.modify i f) :=
  ⟨forall₂_modify hf, rfl, rfl, rfl, rfl⟩

theorem rewrites_sweepProcs (h : ∀ p seq, R p (body p seq).1) : Rewrites R k (k.sweepProcs body) :=
  ⟨forall₂_sweep h _ _, rfl, rfl, rfl, rfl⟩

end Rewrites

theorem Control.woken (h : Control k.procs k.cur) (hk : Rewrites Woken k k') :
    Control k'.procs k'.cur := by
  have hback (i : ℕ) (p' : Proc) (hp' : k'.procs[i]? = some p') :
      ∃ p, k.procs[i]? = some p ∧ SameControl p p' := by
    obtain ⟨p, hp, hwoken⟩ := exists_of_forall₂ hk.procs hp'
    exact ⟨p, hp, hwoken.sameControl⟩
  rw [hk.cur]
  refine ⟨⟨fun i p' np hp' hc ↦ ?_, fun i j p' q' np hp' hq' hc hd ↦ ?_⟩, fun i p' hp' ↦ ?_,
    fun i hi ↦ ?_⟩
  · obtain ⟨p, hp, hsame⟩ := hback i p' hp'
    obtain ⟨q, hq, hused⟩ := h.child i p np hp (forkChild_congr hsame.2.2 ▸ hc)
    obtain ⟨q', hq', hwoken⟩ := exists_of_forall₂_left hk.procs hq
    exact ⟨q', hq', hwoken.sameControl.2.1 hused⟩
  · obtain ⟨p, hp, hsame⟩ := hback i p' hp'
    obtain ⟨q, hq, hsame'⟩ := hback j q' hq'
    exact h.parent i j p q np hp hq (forkChild_congr hsame.2.2 ▸ hc)
      (forkChild_congr hsame'.2.2 ▸ hd)
  · obtain ⟨p, hp, hsame⟩ := hback i p' hp'
    exact hsame.1.trans (h.running i p hp)
  · obtain ⟨p, hp⟩ := h.current i hi
    obtain ⟨p', hp', -⟩ := exists_of_forall₂_left hk.procs hp
    exact ⟨p', hp'⟩

/-! ### The sections of the kernel -/

theorem getElem?_of_findIdx? {f : α → Bool} (h : l.findIdx? f = some i) :
    ∃ a, l[i]? = some a ∧ f a = true := by
  obtain ⟨hlt, hf, -⟩ := List.findIdx?_eq_some_iff_getElem.mp h
  exact ⟨l[i], List.getElem?_eq_getElem hlt, hf⟩

theorem nudged_wakeupBody (b : Build) (chan : Option Chan) (p : Proc) (seq : ℕ) :
    Nudged p (wakeupBody b chan p seq).1 := by
  unfold wakeupBody
  split_ifs with hchan hstate
  · cases b <;> exact ⟨⟨.inr ⟨hstate, rfl⟩, .inr rfl, rfl, rfl, rfl, rfl, rfl, rfl⟩, rfl⟩
  · exact ⟨⟨.inl rfl, .inr rfl, rfl, rfl, rfl, rfl, rfl, rfl⟩, rfl⟩
  · exact Std.Refl.refl p

theorem nudged_boostBody (p : Proc) (seq : ℕ) : Nudged p (boostBody p seq).1 := by
  unfold boostBody
  split_ifs <;> exact ⟨⟨.inl rfl, .inl rfl, rfl, rfl, rfl, rfl, rfl, rfl⟩, rfl⟩

theorem nudges_wakeup (b : Build) (chan : Option Chan) (k : Kernel) :
    Rewrites Nudged k (wakeup b chan k) :=
  rewrites_sweepProcs (nudged_wakeupBody b chan)

theorem nudges_clockintr (b : Build) (k : Kernel) :
    Rewrites Nudged { k with ticks := (k.ticks + 1) % uintSize } (clockintr b k) := by
  have hwake := nudges_wakeup b (some .ticks) { k with ticks := (k.ticks + 1) % uintSize }
  unfold clockintr
  cases b with
  | mlfq =>
    dsimp only
    split_ifs
    · exact hwake.trans (rewrites_sweepProcs nudged_boostBody)
    · exact hwake
  | fifo => exact hwake

theorem nudges_kkill (b : Build) (pid : ℤ) (k : Kernel) : Rewrites Nudged k (kkill b pid k) := by
  unfold kkill
  split
  · exact .refl k
  · split
    · exact .refl k
    · rename_i i _ _ p hp
      split_ifs with hsleep
      · have hwoken : Rewrites Nudged k
            (k.modify i fun p ↦ { p with killed := true, state := .runnable }) := by
          refine rewrites_modify fun q hq ↦ ?_
          cases hp.symm.trans hq
          exact ⟨⟨.inr ⟨hsleep, rfl⟩, .inl rfl, rfl, rfl, rfl, rfl, rfl, rfl⟩, rfl⟩
        cases b with
        | mlfq =>
          have hstamp := hwoken.trans (rewrites_modify (i := i)
            (f := fun p ↦ { p with mlfqEnterSeq := k.mlfqGlobalSeq + 1 }) fun _ _ ↦
              ⟨⟨.inl rfl, .inl rfl, rfl, rfl, rfl, rfl, rfl, rfl⟩, rfl⟩)
          exact ⟨hstamp.procs, rfl, rfl, rfl, rfl⟩
        | fifo => exact hwoken
      · exact rewrites_modify fun _ _ ↦
          ⟨⟨.inl rfl, .inl rfl, rfl, rfl, rfl, rfl, rfl, rfl⟩, rfl⟩

theorem wakes_kexitNotify (b : Build) (i : ℕ) (k : Kernel) :
    Rewrites Woken k (kexitNotify b i k) := by
  have hwakeup (chan : Option Chan) (k : Kernel) : Rewrites Woken k (wakeup b chan k) :=
    (nudges_wakeup b chan k).mono fun _ _ h ↦ h.toWoken
  refine Rewrites.trans ?_ (hwakeup _ _)
  unfold reparent
  generalize List.range k.procs.length = slots
  induction slots generalizing k with
  | nil => exact .refl _
  | cons pp _ ih =>
    refine Rewrites.trans ?_ (ih _)
    unfold reparentBody
    split
    · exact .refl _
    · split_ifs
      · exact (rewrites_modify fun _ _ ↦
          ⟨.inl rfl, .inl rfl, rfl, rfl, rfl, rfl, rfl, rfl⟩).trans (hwakeup _ _)
      · exact .refl _

theorem Control.nudged (h : Control k.procs k.cur) (hk : Rewrites Nudged k k') :
    Control k'.procs k'.cur :=
  h.woken (hk.mono fun _ _ hp ↦ hp.toWoken)

theorem control_clockintr (h : Control k.procs k.cur) :
    Control (clockintr b k).procs (clockintr b k).cur :=
  Control.nudged (k := { k with ticks := (k.ticks + 1) % uintSize }) h (nudges_clockintr b k)

theorem control_kexitNotify (h : Control k.procs k.cur) :
    Control (kexitNotify b i k).procs k.cur := by
  rw [← (wakes_kexitNotify b i k).cur]
  exact h.woken (wakes_kexitNotify b i k)

/-- The running process gives the CPU up. -/
theorem Control.leave (h : Control procs (some i)) (hp : procs[i]? = some p)
    (hstate : p'.state ≠ .running)
    (hfork : p'.forkStage = p.forkStage) : Control (procs.set i p') none := by
  have hrun : p.state = .running := (h.running i p hp).mpr rfl
  refine h.set hp (by simp [hstate]) (fun j hj ↦ ?_) (.inl fun hused ↦ ?_)
    (.inl (forkChild_congr hfork))
  · simp [Ne.symm hj]
  · rw [hrun] at hused
    exact absurd hused (by simp)

theorem control_sleep (h : Control k.procs k.cur) (hcur : k.cur = some i)
    (hp : k.procs[i]? = some p) : Control (sleep b i p k).procs (sleep b i p k).cur := by
  unfold sleep
  split_ifs with hchan
  · rw [hcur] at h
    cases b <;>
    · simp only [procs_modify, modify_eq_set hp]
      exact h.leave hp (by simp) rfl
  · exact h

theorem pick_runnable (h : pick b k = some i) :
    ∃ p, k.procs[i]? = some p ∧ p.state = .runnable := by
  have hscan : ∀ queues, scanQueues k.procs queues = some i →
      ∃ p, k.procs[i]? = some p ∧ p.state = .runnable := by
    intro queues
    induction queues with
    | nil => intro h; simp [scanQueues] at h
    | cons q queues ih =>
      intro h
      simp only [scanQueues] at h
      split at h
      · exact ih h
      · split at h
        · exact ih h
        · rename_i p hp
          split_ifs at h with hcheck
          · simp only [Option.some.injEq] at h
            subst h
            exact ⟨p, hp, hcheck.1⟩
          · exact ih h
  cases b with
  | mlfq => exact hscan _ h
  | fifo =>
    simp only [pick] at h
    split at h
    · simp at h
    · split at h
      · simp at h
      · rename_i p hp
        split_ifs at h with hcheck
        simp only [Option.some.injEq] at h
        subst h
        exact ⟨p, hp, hcheck⟩

theorem control_switchTo (h : Control k.procs k.cur) (hcur : k.cur = none)
    (hp : k.procs[i]? = some p) (hstate : p.state = .runnable) :
    Control (switchTo i k).procs (switchTo i k).cur := by
  rw [hcur] at h
  simp only [switchTo, procs_modify, modify_eq_set hp]
  refine h.set hp (by simp) (fun j hj ↦ ?_) (.inl fun hused ↦ ?_) (.inl rfl)
  · simp [Ne.symm hj]
  · rw [hstate] at hused
    exact absurd hused (by simp)

theorem kwait_frame (b : Build) (copyout : Bool) (i : ℕ) (p : Proc) (k : Kernel) :
    (kwait b copyout i p k).cur = k.cur ∧ (kwait b copyout i p k).ticks = k.ticks ∧
      (kwait b copyout i p k).nextpid = k.nextpid := by
  unfold kwait
  split <;> split_ifs <;> exact ⟨rfl, rfl, rfl⟩

theorem control_kexit (h : Control k.procs k.cur) (hcur : k.cur = some i) :
    Control (kexit b status i k).procs (kexit b status i k).cur := by
  have hnotify := control_kexitNotify (b := b) (i := i) h
  rw [hcur] at hnotify
  obtain ⟨p, hp⟩ := hnotify.current i rfl
  simp only [kexit, procs_modify, modify_eq_set hp]
  exact hnotify.leave hp (by simp) rfl

theorem freeFields_spec (b : Build) (p : Proc) :
    (freeFields b p).state = .unused ∧ (freeFields b p).forkStage = .idle ∧
      (freeFields b p).chan = none ∧ (freeFields b p).parent = p.parent := by
  cases b <;> exact ⟨rfl, rfl, rfl, rfl⟩

/-- A slot that `freeproc` clears is not running, and no `kfork` in progress is creating it. -/
theorem control_freeproc (h : Control k.procs k.cur) (hp : k.procs[i]? = some p)
    (hrun : p.state ≠ .running) (hchild : NotChild k.procs i) :
    Control (freeproc b i k).procs (freeproc b i k).cur := by
  have hidle := h.cur_ne hp hrun
  simp only [freeproc, procs_modify, cur_modify, modify_eq_set hp]
  obtain ⟨hstate, hstage, -⟩ := freeFields_spec b p
  exact h.set hp (by simp [hstate, hidle]) (fun _ _ ↦ Iff.rfl) (.inr hchild)
    (.inr (.inl (by simp [Proc.forkChild, hstage])))

theorem control_kwait (h : Control k.procs k.cur) :
    Control (kwait b copyout i p k).procs (kwait b copyout i p k).cur := by
  unfold kwait
  split
  · rename_i z hz
    obtain ⟨q, hq, hzombie⟩ := getElem?_of_findIdx? hz
    simp only [decide_eq_true_eq] at hzombie
    split_ifs
    · have hunlink := h.modify_same z (f := fun pp ↦ { pp with parent := none })
        fun p ↦ by simp [SameControl]
      have hget : (k.procs.modify z fun pp ↦ { pp with parent := none })[z]? =
          some { q with parent := none } := by
        simp [hq]
      exact control_freeproc (k := k.modify z fun pp ↦ { pp with parent := none }) hunlink hget
        (by simp [hzombie.2]) (hunlink.notChild hget (by simp [hzombie.2]))
    · exact h
  · split_ifs
    · exact h
    · exact h.modify_same i fun p ↦ by simp [SameControl]

/-- A process that `allocproc` has put into a free slot. -/
structure Fresh (b : Build) (k : Kernel) (seq : ℕ) (q q' : Proc) : Prop where
  state : q'.state = .used
  pid : q'.pid = k.nextpid
  parent : q'.parent = q.parent
  chan : q'.chan = q.chan
  forkStage : q'.forkStage = q.forkStage
  ctime : q'.ctime = k.ticks
  stime : q'.stime = -1
  rtime : q'.rtime = 0
  mlfq : b = .mlfq → seq = k.mlfqGlobalSeq + 1 ∧ q'.mlfqEnterSeq = seq ∧ q'.mlfqQueue = 0 ∧
    q'.mlfqTicksUsed = 0

/-- The first free slot holds another process, with the next pid. -/
def Kernel.take (k : Kernel) (np : ℕ) (q' : Proc) (seq : ℕ) : Kernel :=
  { k with procs := k.procs.set np q', nextpid := k.nextpid + 1, mlfqGlobalSeq := seq }

/-- What the first section of `kfork` does: nothing, or a free slot is taken, and given back if an
allocation fails. -/
inductive ForkAlloc (b : Build) (i : ℕ) (k : Kernel) : Kernel → Prop
  | full : ForkAlloc b i k k
  | failed (np : ℕ) (q : Proc) (hq : k.procs[np]? = some q) (hfree : q.state = .unused) :
    ForkAlloc b i k (k.take np (freeFields b { q with pid := k.nextpid, state := .used })
      k.mlfqGlobalSeq)
  | copyFailed (np seq : ℕ) (q q' : Proc) (hq : k.procs[np]? = some q) (hfree : q.state = .unused)
      (hfresh : Fresh b k seq q q') : ForkAlloc b i k (freeproc b np (k.take np q' seq))
  | forked (np seq : ℕ) (q q' : Proc)
      (hslot : k.procs.findIdx? (fun p ↦ p.state = .unused) = some np)
      (hq : k.procs[np]? = some q) (hfree : q.state = .unused) (hfresh : Fresh b k seq q q') :
    ForkAlloc b i k ((k.take np q' seq).modify i fun p ↦ { p with forkStage := .allocated np })

theorem kforkAlloc_cases (b : Build) (mem : Memory) (i : ℕ) (k : Kernel) :
    ForkAlloc b i k (kforkAlloc b mem i k) := by
  cases hslot : k.procs.findIdx? (fun p ↦ p.state = .unused) with
  | none =>
    have heq : kforkAlloc b mem i k = k := by simp [kforkAlloc, allocproc, hslot]
    rw [heq]
    exact .full
  | some np =>
    obtain ⟨q, hq, hunused⟩ := getElem?_of_findIdx? hslot
    have hfree := of_decide_eq_true hunused
    -- Every branch writes the slot several times; the writes are merged into one.
    by_cases hfail : mem.trapframe = false ∨ mem.pagetable = false
    · have heq : kforkAlloc b mem i k =
          k.take np (freeFields b { q with pid := k.nextpid, state := .used }) k.mlfqGlobalSeq := by
        rcases hfail with h | h <;> simp [kforkAlloc, allocproc, hslot, h, freeproc, Kernel.modify,
          Kernel.take, modify_eq_set hq]
      rw [heq]
      exact .failed np q hq hfree
    · obtain ⟨htrapframe, hpagetable⟩ := not_or.mp hfail
      obtain ⟨seq, q', heq, hfresh⟩ : ∃ seq q',
          allocproc b mem k = (some np, k.take np q' seq) ∧ Fresh b k seq q q' := by
        simp only [allocproc, hslot, htrapframe, hpagetable, Kernel.stamp, Kernel.modify,
          Kernel.take, modify_eq_set hq, modify_set_self]
        cases b <;> exact ⟨_, _, rfl, rfl, rfl, rfl, rfl, rfl, rfl, rfl, rfl, by simp⟩
      unfold kforkAlloc
      rw [heq]
      dsimp only
      split_ifs
      · exact .copyFailed np seq q q' hq hfree hfresh
      · exact .forked np seq q q' hslot hq hfree hfresh

theorem NotChild.set {j : ℕ} (h : NotChild procs i) (hp : procs[j]? = some p)
    (hfork : p'.forkChild = p.forkChild ∨ p'.forkChild = none) : NotChild (procs.set j p') i := by
  intro l q hq
  rcases getElem?_set_cases hq with ⟨rfl, rfl⟩ | ⟨-, hq⟩
  · rcases hfork with hkeep | hnone
    · rw [hkeep]
      exact h l p hp
    · simp [hnone]
  · exact h l q hq

theorem ForkAlloc.control (halloc : ForkAlloc b i k k') (h : Control k.procs k.cur)
    (hcur : k.cur = some i) : Control k'.procs k'.cur := by
  have htaken {np seq : ℕ} {q q' : Proc} (hq : k.procs[np]? = some q) (hfree : q.state = .unused)
      (hfresh : Fresh b k seq q q') : Control (k.procs.set np q') k.cur ∧
        (k.procs.set np q')[np]? = some q' ∧ NotChild (k.procs.set np q') np :=
    ⟨h.set_same hq ⟨by simp [hfresh.state, hfree], by simp [hfree], hfresh.forkStage⟩,
      getElem?_set_eq hq,
      (h.notChild hq (by simp [hfree])).set hq (.inl (forkChild_congr hfresh.forkStage))⟩
  cases halloc with
  | full => exact h
  | failed np q hq hfree =>
    have hother := h.cur_ne hq (by simp [hfree])
    obtain ⟨hstate, hidle, -⟩ := freeFields_spec b { q with pid := k.nextpid, state := .used }
    exact h.set hq (by simp [Kernel.take, hstate, hother]) (fun _ _ ↦ Iff.rfl)
      (.inr (h.notChild hq (by simp [hfree])))
      (.inr (.inl (by simp [Proc.forkChild, hidle])))
  | copyFailed np seq q q' hq hfree hfresh =>
    obtain ⟨htaken, hself, hchild⟩ := htaken hq hfree hfresh
    exact control_freeproc (k := k.take np q' seq) htaken hself (by simp [hfresh.state]) hchild
  | forked np seq q q' _ hq hfree hfresh =>
    obtain ⟨htaken, hself, hchild⟩ := htaken hq hfree hfresh
    obtain ⟨p, hp⟩ := htaken.current i hcur
    have hne : np ≠ i := by
      rintro rfl
      exact htaken.cur_ne hself (by simp [hfresh.state]) hcur
    simp only [Kernel.take, procs_modify, cur_modify, modify_eq_set hp]
    exact htaken.set hp (htaken.running i p hp) (fun _ _ ↦ Iff.rfl) (.inl id)
      (.inr (.inr ⟨np, q', by simp [Proc.forkChild], hne, hself, hfresh.state, hchild⟩))

theorem control_kforkLink (h : Control k.procs k.cur) (hp : k.procs[i]? = some p)
    (hstage : p.forkStage = .allocated np) :
    Control (kforkLink i np k).procs (kforkLink i np k).cur := by
  have hlinked := h.modify_same np (f := fun q ↦ { q with parent := some i })
    fun q ↦ by simp [SameControl]
  have hget : ∃ q, (k.procs.modify np fun q ↦ { q with parent := some i })[i]? = some q ∧
      q.state = p.state ∧ q.forkStage = p.forkStage := by
    by_cases hnp : np = i
    · exact ⟨{ p with parent := some i }, by simp [hnp, hp], rfl, rfl⟩
    · exact ⟨p, by simp [hnp, hp], rfl, rfl⟩
  obtain ⟨q, hq, -, hfork⟩ := hget
  simp only [kforkLink, procs_modify, cur_modify, modify_eq_set hq]
  refine hlinked.set hq (hlinked.running i q hq) (fun _ _ ↦ Iff.rfl) (.inl id) (.inl ?_)
  simp [Proc.forkChild, hfork, hstage]

/-- Once a `kfork` has dropped its local variable nobody has its child. -/
theorem Forks.notChild_of_drop (h : Forks procs) (hp : procs[i]? = some p)
    (hpc : p.forkChild = some np) (hdrop : p'.forkChild = none) : NotChild (procs.set i p') np := by
  intro j r hr hrc
  rcases getElem?_set_cases hr with ⟨rfl, rfl⟩ | ⟨hji, hr⟩
  · exact absurd hrc (by simp [hdrop])
  · exact hji (h.parent j i r p np hr hp hrc hpc)

theorem control_kforkRunnable (h : Control k.procs k.cur) (hcur : k.cur = some i)
    (hp : k.procs[i]? = some p) (hstage : p.forkStage = .linked np) :
    Control (kforkRunnable i np k).procs (kforkRunnable i np k).cur := by
  have hpc : p.forkChild = some np := by simp [Proc.forkChild, hstage]
  obtain ⟨q, hq, hused⟩ := h.child i p np hp hpc
  have hidle := h.cur_ne hq (by simp [hused])
  have hne : np ≠ i := by
    rintro rfl
    exact hidle hcur
  -- The two writes commute; with the parent's first, nobody's child becomes runnable.
  have hdone : Control (k.procs.set i { p with forkStage := .idle }) k.cur :=
    h.set hp (h.running i p hp) (fun _ _ ↦ Iff.rfl) (.inl id) (.inr (.inl rfl))
  have hfree : NotChild (k.procs.set i { p with forkStage := .idle }) np :=
    h.forks.notChild_of_drop hp hpc rfl
  have hget : (k.procs.set i { p with forkStage := .idle })[np]? = some q := by
    rwa [List.getElem?_set_ne (Ne.symm hne)]
  have hget' : (k.procs.set np { q with state := .runnable })[i]? = some p := by
    rwa [List.getElem?_set_ne hne]
  simp only [kforkRunnable, procs_modify, cur_modify, modify_eq_set hq, modify_eq_set hget']
  rw [List.set_comm _ _ hne]
  exact hdone.set hget (by simp [hidle]) (fun _ _ ↦ Iff.rfl) (.inr hfree) (.inl rfl)

/-- What a process keeps when it is charged for a tick. -/
structure Charges (p p' : Proc) : Prop where
  state : p'.state = p.state ∨ p'.state = .runnable
  parent : p'.parent = p.parent
  chan : p'.chan = p.chan
  forkStage : p'.forkStage = p.forkStage
  pid : p'.pid = p.pid
  ctime : p'.ctime = p.ctime
  stime : p'.stime = p.stime
  rtime : p'.rtime = (p.rtime + 1) % uintSize

/-- The running process is charged for a tick, and keeps the CPU or gives it up. -/
inductive Charge (k : Kernel) : Kernel → Prop
  | none : Charge k k
  | keeps (i seq : ℕ) (p p' : Proc) (hcur : k.cur = some i) (hp : k.procs[i]? = some p)
      (hcharges : Charges p p') (hstate : p'.state = p.state) :
    Charge k { k with procs := k.procs.set i p', mlfqGlobalSeq := seq }
  | yields (i seq : ℕ) (p p' : Proc) (hcur : k.cur = some i) (hp : k.procs[i]? = some p)
      (hcharges : Charges p p') (hstate : p'.state = .runnable) :
    Charge k { k with procs := k.procs.set i p', mlfqGlobalSeq := seq, cur := .none }

theorem chargeTick_cases (b : Build) (mode : Mode) (k : Kernel) :
    Charge k (chargeTick b mode k) := by
  unfold chargeTick
  split
  · exact .none
  · rename_i i hcur
    split
    · exact .none
    · rename_i p hp
      split_ifs
      · exact .none
      · cases b with
        | mlfq =>
          obtain ⟨seq, p', hprocs, hstate, hcharges⟩ : ∃ seq p', (mlfqTickHandler i p k).2 =
              { k with procs := k.procs.set i p', mlfqGlobalSeq := seq } ∧ p'.state = p.state ∧
                Charges p p' := by
            unfold mlfqTickHandler
            dsimp only
            split_ifs
            · simp only [Kernel.stamp, Kernel.modify, modify_eq_set hp, modify_set_self]
              exact ⟨_, _, rfl, rfl, .inl rfl, rfl, rfl, rfl, rfl, rfl, rfl, rfl⟩
            · simp only [Kernel.modify, modify_eq_set hp]
              exact ⟨_, _, rfl, rfl, .inl rfl, rfl, rfl, rfl, rfl, rfl, rfl, rfl⟩
          dsimp only
          rw [hprocs]
          split_ifs
          · simp only [yield, Kernel.modify, modify_set_self]
            exact .yields i seq p _ hcur hp ⟨.inr rfl, hcharges.parent, hcharges.chan,
              hcharges.forkStage, hcharges.pid, hcharges.ctime, hcharges.stime, hcharges.rtime⟩ rfl
          · exact .keeps i seq p p' hcur hp hcharges hstate
        | fifo =>
          simp only [Kernel.modify, modify_eq_set hp]
          exact .keeps i _ p _ hcur hp ⟨.inl rfl, rfl, rfl, rfl, rfl, rfl, rfl, rfl⟩ rfl

theorem Charge.control (hcharge : Charge k k') (h : Control k.procs k.cur) :
    Control k'.procs k'.cur := by
  cases hcharge with
  | none => exact h
  | keeps i seq p p' _ hp hcharges hstate =>
    exact h.set_same hp ⟨by rw [hstate], by simp [hstate], hcharges.forkStage⟩
  | yields i seq p p' hcur hp hcharges hstate =>
    rw [hcur] at h
    exact h.leave hp (by simp [hstate]) hcharges.forkStage

/-- The sections that the running process executes, each with the stage of `kfork` it needs. -/
inductive ProcSection (b : Build) (i : ℕ) (p : Proc) (k : Kernel) : Event → Kernel → Prop
  | forkAlloc (mem : Memory) (hidle : p.forkStage = .idle) :
    ProcSection b i p k (.forkAlloc mem) (kforkAlloc b mem i k)
  | forkLink (np : ℕ) (hstage : p.forkStage = .allocated np) :
    ProcSection b i p k .forkLink (kforkLink i np k)
  | forkRunnable (np : ℕ) (hstage : p.forkStage = .linked np) :
    ProcSection b i p k .forkRunnable (kforkRunnable i np k)
  | sleepPrepare (chan : Chan) (hidle : p.forkStage = .idle) :
    ProcSection b i p k (.sleepPrepare chan) (sleepPrepare chan i k)
  | sleep (hidle : p.forkStage = .idle) : ProcSection b i p k .sleep (sleep b i p k)
  | kill (pid : ℤ) (hidle : p.forkStage = .idle) :
    ProcSection b i p k (.kill pid) (kkill b pid k)
  | setkilled (hidle : p.forkStage = .idle) : ProcSection b i p k .setkilled (setkilled i k)
  | exit (status : ℤ) (hidle : p.forkStage = .idle) (hinit : i ≠ k.initproc) :
    ProcSection b i p k (.exit status) (kexit b status i k)
  | wait (copyout : Bool) (hidle : p.forkStage = .idle) :
    ProcSection b i p k (.wait copyout) (kwait b copyout i p k)

theorem procStep_cases (h : procStep b i p k e = some k') : ProcSection b i p k e k' := by
  cases e with
  | forkLink =>
    simp only [procStep] at h
    split at h <;> cases h
    exact .forkLink _ ‹_›
  | forkRunnable =>
    simp only [procStep] at h
    split at h <;> cases h
    exact .forkRunnable _ ‹_›
  | dispatch | timer | wakeup => cases h
  | _ =>
    -- The other sections have a guard only.
    obtain ⟨hguard, ⟨⟩⟩ := Option.ite_none_right_eq_some.mp h
    constructor <;> simp [hguard]

theorem control_procStep (hstep : procStep b i p k e = some k') (h : Control k.procs k.cur)
    (hcur : k.cur = some i) (hp : k.procs[i]? = some p) : Control k'.procs k'.cur := by
  cases procStep_cases hstep with
  | forkAlloc mem => exact (kforkAlloc_cases b mem i k).control h hcur
  | forkLink _ hstage => exact control_kforkLink h hp hstage
  | forkRunnable _ hstage => exact control_kforkRunnable h hcur hp hstage
  | sleepPrepare | setkilled => exact h.modify_same i fun p ↦ by simp [SameControl]
  | sleep => exact control_sleep h hcur hp
  | kill pid => exact h.nudged (nudges_kkill b pid k)
  | exit => exact control_kexit h hcur
  | wait => exact control_kwait h

/-- The events of a step: a timer interrupt, a wakeup, one turn of the scheduler, or a section that
the running process executes. -/
theorem step_cases (h : step b k e = some k') :
    (∃ mode, e = .timer mode ∧ (mode = .user → k.cur ≠ none) ∧ k' = timerTrap b mode k) ∨
    (∃ chan, e = .wakeup chan ∧ k' = wakeup b (some chan) k) ∨
    (e = .dispatch ∧ k.cur = none ∧
      ((pick b k = none ∧ k' = k) ∨ ∃ i, pick b k = some i ∧ k' = switchTo i k)) ∨
    (∃ (i : ℕ) (p : Proc), k.cur = some i ∧ k.procs[i]? = some p ∧
      procStep b i p k e = some k') := by
  unfold step at h
  split at h
  · rename_i mode
    split_ifs at h with hmode
    cases h
    exact .inl ⟨mode, rfl, fun huser hcur ↦ hmode ⟨huser, hcur⟩, rfl⟩
  · rename_i chan
    cases h
    exact .inr (.inl ⟨chan, rfl, rfl⟩)
  · split at h
    · cases h
    · rename_i hcur
      split at h
      · rename_i hpick
        cases h
        exact .inr (.inr (.inl ⟨rfl, hcur, .inl ⟨hpick, rfl⟩⟩))
      · rename_i i hpick
        cases h
        exact .inr (.inr (.inl ⟨rfl, hcur, .inr ⟨i, hpick, rfl⟩⟩))
  · split at h
    · cases h
    · rename_i i hcur
      split at h
      · cases h
      · rename_i p hp
        exact .inr (.inr (.inr ⟨i, p, hcur, hp, h⟩))

theorem control_step (hstep : step b k e = some k')
    (h : Control k.procs k.cur) : Control k'.procs k'.cur := by
  rcases step_cases hstep with ⟨mode, -, -, rfl⟩ | ⟨chan, -, rfl⟩ |
    ⟨-, hcur, ⟨-, rfl⟩ | ⟨i, hpick, rfl⟩⟩ | ⟨i, p, hcur, hp, hproc⟩
  · exact (chargeTick_cases b mode _).control (control_clockintr h)
  · exact h.nudged (nudges_wakeup b _ k)
  · exact h
  · obtain ⟨p, hp, hstate⟩ := pick_runnable hpick
    exact control_switchTo h hcur hp hstate
  · exact control_procStep hproc h hcur hp

theorem control_boot (b : Build) : Control (boot b).procs (boot b).cur := by
  have hprocs : ∀ p ∈ (boot b).procs, p.state ≠ .running ∧ p.forkStage = .idle := by
    cases b <;> decide +kernel
  have hcur : (boot b).cur = none := by cases b <;> rfl
  have hchild (i : ℕ) (p : Proc) (hp : (boot b).procs[i]? = some p) : p.forkChild = none := by
    simp [Proc.forkChild, (hprocs p (List.mem_of_getElem? hp)).2]
  refine ⟨⟨fun i p np hp hpc ↦ ?_, fun i j p q np hp _ hpc _ ↦ ?_⟩, fun i p hp ↦ ?_, ?_⟩
  · cases (hchild i p hp).symm.trans hpc
  · cases (hchild i p hp).symm.trans hpc
  · simp [hcur, (hprocs p (List.mem_of_getElem? hp)).1]
  · simp [hcur]

/-- In every state of every run a process is `RUNNING` exactly when it has the CPU, and a `kfork` in
progress holds a `USED` slot of its own. -/
theorem control_reachable (h : Reachable (step b) (boot b) k) : Control k.procs k.cur :=
  h.invariant (I := fun k ↦ Control k.procs k.cur) (control_boot b)
    fun _ _ _ hstep hk ↦ control_step hstep hk

end Irish.Xv6
