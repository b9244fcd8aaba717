import Irish.Xv6.Dispatch

/-!
# What a step writes to one process

The inversion of a step of the machine for one slot of the process table. `SlotWrite` lists the
writes, with the states they need; which of these states a CPU finds is where the invariant
`Dispatched` enters. A history of a process over a run is an induction over these writes.
-/

set_option autoImplicit false

namespace Irish.Xv6

open Library

variable {n : ℕ}

/-- The slot that the timer interrupt on a CPU charges. Only `usertrap` looks at `killed` first. -/
def chargedSlot (m : Machine n) : SmpEvent n → Option ℕ
  | .charge c mode _ =>
    (m.cpus c).proc.bind fun i ↦ m.procs[i]?.bind fun p ↦
      if mode = .user ∧ p.killed then none else some i
  | _ => none

/-- The writes of a step to the process `p` in slot `z`. -/
inductive SlotWrite (b : Scheduler) (m : Machine n) (e : SmpEvent n) (m' : Machine n) (z : ℕ)
    (p : Proc) : Proc → Prop
  | same : SlotWrite b m e m' z p p
  /-- `kfork` and `reparent` -/
  | linked (parent : Option ℕ) (stage : ForkStage) :
    SlotWrite b m e m' z p { p with parent := parent, forkStage := stage }
  | woken (c : Fin n) (chan : Chan) (he : e = .advance c)
      (hheld : (m.cpus c).held = some (z, .body (.wakeup chan)))
      (hprocs : m'.procs = m.procs.set z (wakeupBody b.build (some chan) p m.seq).1) :
    SlotWrite b m e m' z p (wakeupBody b.build (some chan) p m.seq).1
  | killed (pid : ℤ) (hprocs : m'.procs = m.procs.set z (killBody b.build pid p m.seq).1) :
    SlotWrite b m e m' z p (killBody b.build pid p m.seq).1
  | flagged : SlotWrite b m e m' z p { p with killed := true }
  | prepared (c : Fin n) (chan : Chan) (he : e = .advance c)
      (hheld : (m.cpus c).held = some (z, .body (.sleepPrepare chan)))
      (hrunning : p.state = .running) :
    SlotWrite b m e m' z p { p with chan := some chan }
  | created (p' : Proc) (hunused : p.state = .unused) (hused : p'.state = .used)
      (hctime : p'.ctime = m.ticks) (hrtime : p'.rtime = 0) (hchan : p'.chan = p.chan) :
    SlotWrite b m e m' z p p'
  | freed (q : Proc) (hstate : p.state = .unused ∨ p.state = .zombie) :
    SlotWrite b m e m' z p (freeFields b.build q)
  | published (hused : p.state = .used) : SlotWrite b m e m' z p { p with state := .runnable }
  | boosted : SlotWrite b m e m' z p (boostBody p m.seq).1
  | dispatched (hrunnable : p.state = .runnable) : SlotWrite b m e m' z p (dispatchFields m.ticks p)
  | left (why : Leave) (p' : Proc) (hrunning : p.state = .running)
      (hleave : leaveBody b.build m.ticks why p = some p') : SlotWrite b m e m' z p p'
  | charged (preempted : Bool) (hcharged : chargedSlot m e = some z)
      (hrunning : p.state = .running) :
    SlotWrite b m e m' z p (chargeBody b m.ticks preempted p m.seq).1

section Writes

variable {b : Scheduler} {m m' m₁ : Machine n} {e : SmpEvent n} {c : Fin n} {slot z i j : ℕ}
  {sec : Section} {p p' p₁ : Proc} {α : Type*} {l : List α} {f : α → α} {a : α} {stage : ForkStage}
  {mem : Memory} {why : Leave}

theorem exists_of_modify (h : (l.modify i f)[j]? = some a) :
    ∃ a₀, l[j]? = some a₀ ∧ (a = a₀ ∨ a = f a₀) := by
  rw [List.getElem?_modify] at h
  obtain ⟨a₀, ha₀, rfl⟩ := Option.map_eq_some_iff.mp h
  refine ⟨a₀, ha₀, ?_⟩
  split_ifs
  · exact .inr rfl
  · exact .inl rfl

/-- Where the written slot is the only one. -/
theorem slotWrite_set (hp : m.procs[slot]? = some p) (hwrite : SlotWrite b m e m' slot p p₁)
    (hz : (m.procs.set slot p₁)[z]? = some p') :
    ∃ q, m.procs[z]? = some q ∧ SlotWrite b m e m' z q p' := by
  rcases getElem?_set_cases hz with ⟨rfl, rfl⟩ | ⟨-, hz⟩
  · exact ⟨p, hp, hwrite⟩
  · exact ⟨p', hz, .same⟩

/-- Where the process on the CPU goes on in `kfork` as well. -/
theorem slotWrite_setStage (hz : (m₁.setStage c stage).procs[z]? = some p')
    (hp : m.procs[slot]? = some p) (hprocs : m₁.procs = m.procs.set slot p₁)
    (hcpus : m₁.cpus = m.cpus) (hother : (m.cpus c).proc ≠ some slot)
    (hwrite : SlotWrite b m e m' slot p p₁) :
    ∃ q, m.procs[z]? = some q ∧ SlotWrite b m e m' z q p' := by
  unfold Machine.setStage at hz
  rw [hcpus] at hz
  cases hproc : (m.cpus c).proc with
  | none =>
    simp only [hproc, hprocs] at hz
    exact slotWrite_set hp hwrite hz
  | some i =>
    have hne : slot ≠ i := fun h ↦ hother (h ▸ hproc)
    simp only [hproc, hprocs] at hz
    rcases eq_or_ne i z with rfl | hi
    · rw [List.getElem?_modify_eq, List.getElem?_set_ne hne] at hz
      obtain ⟨q, hq, rfl⟩ := Option.map_eq_some_iff.mp hz
      exact ⟨q, hq, .linked q.parent stage⟩
    · rw [List.getElem?_modify_ne _ _ hi] at hz
      exact slotWrite_set hp hwrite hz

/-- The `c->proc` of a CPU in a section is `RUNNING`. -/
theorem Dispatched.running_of_proc (hm : Dispatched m)
    (hheld : (m.cpus c).held = some (slot, .body sec)) (hproc : (m.cpus c).proc = some i)
    (hp : m.procs[i]? = some p) : p.state = .running := by
  obtain ⟨q, hq, hrunning⟩ := hm.isRunning_of_stage hheld hproc
  cases hp.symm.trans hq
  exact hrunning

theorem slotWrite_alloc (hm : Dispatched m)
    (hheld : (m.cpus c).held = some (slot, .body (.alloc mem))) (hp : m.procs[slot]? = some p)
    (hz : (runBody b c slot p m (.alloc mem)).procs[z]? = some p') :
    ∃ q, m.procs[z]? = some q ∧ SlotWrite b m e m' z q p' := by
  simp only [runBody] at hz
  split_ifs at hz with hunused htaken
  · obtain ⟨hfalse, -⟩ | ⟨-, hused, -, hctime, hrtime, hchan⟩ :=
      allocBody_cases b.build mem m.ticks m.nextpid p m.seq
    · cases hfalse.symm.trans htaken
    · have hother : (m.cpus c).proc ≠ some slot := fun hproc ↦ by
        simp [hm.running_of_proc hheld hproc hp] at hunused
      exact slotWrite_setStage hz hp rfl rfl hother (.created _ hunused hused hctime hrtime hchan)
  · obtain ⟨-, q, hfreed⟩ | ⟨htrue, -⟩ :=
      allocBody_cases b.build mem m.ticks m.nextpid p m.seq
    · have hwrite : SlotWrite b m e m' slot p
          (allocBody b.build mem m.ticks m.nextpid p m.seq).1 := by
        rw [hfreed]
        exact .freed q (.inl hunused)
      exact slotWrite_set hp hwrite hz
    · exact absurd htrue htaken
  · exact ⟨p', hz, .same⟩

theorem slotWrite_publish (hm : Dispatched m)
    (hheld : (m.cpus c).held = some (slot, .body .publish)) (hp : m.procs[slot]? = some p)
    (hz : (runBody b c slot p m .publish).procs[z]? = some p') :
    ∃ q, m.procs[z]? = some q ∧ SlotWrite b m e m' z q p' := by
  obtain ⟨i, r, hproc, hr, hstage⟩ := exists_of_stage ((hm.cpus c).publishing slot hheld)
  obtain ⟨p₁, hp₁, hused⟩ := hm.forks.child i r slot hr (by simp [Proc.forkChild, hstage])
  cases hp.symm.trans hp₁
  have hother : (m.cpus c).proc ≠ some slot := fun hproc ↦ by
    simp [hm.running_of_proc hheld hproc hp] at hused
  exact slotWrite_setStage hz hp rfl rfl hother (.published hused)

theorem slotWrite_mark (hp : m.procs[slot]? = some p) (hrunnable : p.state = .runnable)
    (hz : (mark b c slot p m).procs[z]? = some p') :
    ∃ q, m.procs[z]? = some q ∧ SlotWrite b m e m' z q p' :=
  slotWrite_set hp (.dispatched hrunnable) hz

theorem slotWrite_leave (hm : Dispatched m)
    (hheld : (m.cpus c).held = some (slot, .body (.leave why))) (hp : m.procs[slot]? = some p)
    (hz : (runBody b c slot p m (.leave why)).procs[z]? = some p') :
    ∃ q, m.procs[z]? = some q ∧ SlotWrite b m e m' z q p' := by
  have hrunning := hm.running_of_proc hheld ((hm.cpus c).leaving slot why hheld) hp
  simp only [runBody] at hz
  split at hz
  · exact ⟨p', hz, .same⟩
  · rename_i p₁ hleave
    exact slotWrite_set hp (.left why p₁ hrunning hleave) hz

theorem slotWrite_body (hm : Dispatched m) (hheld : (m.cpus c).held = some (slot, .body sec))
    (hp : m.procs[slot]? = some p) (hz : (runBody b c slot p m sec).procs[z]? = some p') :
    ∃ q, m.procs[z]? = some q ∧
      SlotWrite b m (.advance c) (runBody b c slot p m sec) z q p' := by
  cases sec with
  | wakeup chan => exact slotWrite_set hp (.woken c chan rfl hheld rfl) hz
  | kill pid => exact slotWrite_set hp (.killed pid rfl) hz
  | setkilled => exact slotWrite_set hp .flagged hz
  | sleepPrepare chan =>
    have hrunning := hm.running_of_proc hheld ((hm.cpus c).preparing slot chan hheld) hp
    exact slotWrite_set hp (.prepared c chan rfl hheld hrunning) hz
  | alloc => exact slotWrite_alloc hm hheld hp hz
  | publish => exact slotWrite_publish hm hheld hp hz
  | reap =>
    refine slotWrite_set hp ?_ hz
    unfold reapBody
    split_ifs with hzombie
    · exact .freed _ (.inr hzombie.2.1)
    · exact .same
  | boost => exact slotWrite_set hp .boosted hz
  | look =>
    simp only [runBody, lookBody] at hz ⊢
    split at hz
    · split_ifs at hz with hrunnable
      · exact slotWrite_mark hp hrunnable.2 hz
      · exact ⟨p', hz, .same⟩
    · exact ⟨p', hz, .same⟩
  | choose =>
    simp only [runBody, chooseBody] at hz ⊢
    split at hz
    · split_ifs at hz with hrunnable
      · exact slotWrite_mark hp hrunnable.1 hz
      · exact ⟨p', hz, .same⟩
    · exact ⟨p', hz, .same⟩
  | leave => exact slotWrite_leave hm hheld hp hz

/-- Each slot after a step is a write of the step to the slot before it. -/
theorem slotWrite_step (hm : Dispatched m) (hstep : smpStep b m e = some m')
    (hz : m'.procs[z]? = some p') : ∃ q, m.procs[z]? = some q ∧ SlotWrite b m e m' z q p' := by
  cases moves_of_smpStep hstep with
  | body _ _ _ _ hheld hp => exact slotWrite_body hm hheld hp hz
  | charge c _ preempted i p _ hheld hproc hp hlive =>
    obtain ⟨q, hq, hrunning⟩ := (hm.running i).mpr ⟨c, (owner_of_unheld hheld).trans hproc⟩
    cases hp.symm.trans hq
    refine slotWrite_set hp (.charged preempted ?_ hrunning) hz
    simp [chargedSlot, hproc, hp, hlive]
  | forkLink _ i np =>
    obtain ⟨q₁, hq₁, hstages⟩ := exists_of_modify hz
    obtain ⟨q, hq, hparent⟩ := exists_of_modify hq₁
    refine ⟨q, hq, ?_⟩
    rcases hparent with rfl | rfl <;> rcases hstages with rfl | rfl
    · exact .same
    · exact .linked q₁.parent (.linked np)
    · exact .linked (some i) q.forkStage
    · exact .linked (some i) (.linked np)
  | reparent =>
    obtain ⟨q, hq, hparent⟩ := exists_of_modify hz
    refine ⟨q, hq, ?_⟩
    rcases hparent with rfl | rfl
    · exact .same
    · exact .linked (some m.initproc) q.forkStage
  | _ => exact ⟨p', hz, .same⟩

end Writes

end Irish.Xv6
