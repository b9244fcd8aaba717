import Irish.Xv6.Multicore

/-!
# No double dispatch

On any number of CPUs and for each of the three scheduler loops, a process is `RUNNING` exactly when
one CPU has it, and it becomes `RUNNING` only from `RUNNABLE`.

While a CPU switches, `p->state` and `c->proc` disagree. `CpuState.owned` is the process a CPU has
in either case: from the write of `RUNNING` on, and up to the write of another state. The invariant
`Dispatched` says that no lock is held twice, that no process is owned twice and that the owned
processes are the `RUNNING` ones; a scheduler that has found a process `RUNNABLE` under its lock
therefore knows that nobody has it, however long ago it was chosen.
-/

set_option autoImplicit false

namespace Irish.Xv6

open Library
open Function (update update_eq_self update_of_ne update_self)

variable {n i slot j np : ℕ} {m m' : Machine n} {c : Fin n} {stage : ForkStage} {p p' q q' : Proc}
  {b : Scheduler} {e : SmpEvent n} {sec : Section} {procs : List Proc} {cpu' : CpuState}

/-! ### What a step is -/

/-- The steps of the machine, with what each of them needs and does. -/
inductive Moves (b : Scheduler) (m : Machine n) : SmpEvent n → Machine n → Prop
  | start (c : Fin n) (hheld : (m.cpus c).held = none) :
    Moves b m (.start c) (m.setCpu c { m.cpus c with scan := .look 0 0 none })
  | next (c : Fin n) (q : ℕ) (best : Option (ℕ × ℤ)) (hheld : (m.cpus c).held = none) :
    Moves b m (.next c) (m.setCpu c { m.cpus c with scan := afterLoop b q best })
  | acquire (c : Fin n) (sec : Section) (slot : ℕ) (hheld : (m.cpus c).held = none)
      (hfree : m.unlocked slot) (hslot : slot < m.procs.length)
      (hbegin : mayBegin b m c slot sec) :
    Moves b m (.acquire c sec slot)
      (m.setCpu c { m.cpus c with held := some (slot, .body sec) })
  | body (c : Fin n) (slot : ℕ) (sec : Section) (p : Proc)
      (hheld : (m.cpus c).held = some (slot, .body sec)) (hp : m.procs[slot]? = some p) :
    Moves b m (.advance c) (runBody b c slot p m sec)
  | enter (c : Fin n) (slot : ℕ) (hheld : (m.cpus c).held = some (slot, .marked)) :
    Moves b m (.advance c)
      (m.setCpu c { m.cpus c with proc := some slot, held := some (slot, .release) })
  | stop (c : Fin n) (slot : ℕ) (hheld : (m.cpus c).held = some (slot, .stopped)) :
    Moves b m (.advance c)
      (m.setCpu c { m.cpus c with proc := none, trap := .idle, held := some (slot, .release) })
  | release (c : Fin n) (slot : ℕ) (hheld : (m.cpus c).held = some (slot, .release)) :
    Moves b m (.advance c) (m.setCpu c { m.cpus c with held := none })
  | timer (c : Fin n) (hheld : (m.cpus c).held = none) :
    Moves b m (.timer c)
      ({ m with ticks := if c.val = 0 then (m.ticks + 1) % uintSize else m.ticks }.setCpu c
        { m.cpus c with trap := .handling })
  | noCharge (c : Fin n) (mode : Mode) (preempted : Bool) (trap : Trap)
      (hheld : (m.cpus c).held = none) :
    Moves b m (.charge c mode preempted) (m.setCpu c { m.cpus c with trap := trap })
  | charge (c : Fin n) (mode : Mode) (preempted : Bool) (i : ℕ) (p : Proc) (trap : Trap)
      (hheld : (m.cpus c).held = none) (hproc : (m.cpus c).proc = some i)
      (hp : m.procs[i]? = some p) (hlive : ¬ (mode = .user ∧ p.killed)) :
    Moves b m (.charge c mode preempted)
      ({ m.setProc i (chargeBody b m.ticks preempted p m.seq).1 with
        seq := (chargeBody b m.ticks preempted p m.seq).2.1 }.setCpu c
          { m.cpus c with trap := trap })
  | forkLink (c : Fin n) (i np : ℕ) (p : Proc) (hheld : (m.cpus c).held = none)
      (hproc : (m.cpus c).proc = some i) (hp : m.procs[i]? = some p)
      (hstage : p.forkStage = .allocated np) :
    Moves b m (.forkLink c) { m with
      procs := (m.procs.modify np fun q ↦ { q with parent := some i }).modify i
        fun q ↦ { q with forkStage := .linked np } }
  | reparent (c : Fin n) (slot : ℕ) (hheld : (m.cpus c).held = none) :
    Moves b m (.reparent c slot)
      { m with procs := m.procs.modify slot fun q ↦ { q with parent := some m.initproc } }

theorem setCpu_self (m : Machine n) (c : Fin n) : m.setCpu c (m.cpus c) = m := by
  simp [Machine.setCpu]

theorem exists_of_stage (h : m.stage c = some stage) :
    ∃ i p, (m.cpus c).proc = some i ∧ m.procs[i]? = some p ∧ p.forkStage = stage := by
  unfold Machine.stage at h
  obtain ⟨p, hp, hstage⟩ := Option.map_eq_some_iff.mp h
  obtain ⟨i, hi, hip⟩ := Option.bind_eq_some_iff.mp hp
  exact ⟨i, p, hi, hip, hstage⟩

theorem stage_of_exists (hproc : (m.cpus c).proc = some i) (hp : m.procs[i]? = some p) :
    m.stage c = some p.forkStage := by
  simp [Machine.stage, hproc, hp]

theorem moves_of_advanceLock (h : advanceLock b m c = some m') : Moves b m (.advance c) m' := by
  unfold advanceLock at h
  split at h
  · cases h
  · rename_i slot sec hheld
    obtain ⟨p, hp, rfl⟩ := Option.map_eq_some_iff.mp h
    exact .body c slot sec p hheld hp
  · cases h
    exact .enter c _ ‹_›
  · cases h
    exact .stop c _ ‹_›
  · cases h
    exact .release c _ ‹_›

theorem moves_of_chargeTrap (mode : Mode) (preempted : Bool) (hheld : (m.cpus c).held = none) :
    Moves b m (.charge c mode preempted) (chargeTrap b m c mode preempted) := by
  unfold chargeTrap
  split
  · exact .noCharge c mode preempted .idle hheld
  · rename_i i hproc
    split
    · have hsame := Moves.noCharge (b := b) c mode preempted (m.cpus c).trap hheld
      rwa [setCpu_self] at hsame
    · rename_i p hp
      split_ifs with hkilled
      · exact .noCharge c mode preempted .idle hheld
      · exact .charge c mode preempted i p _ hheld hproc hp hkilled

theorem moves_of_smpStep (h : smpStep b m e = some m') : Moves b m e m' := by
  cases e with
  | advance => exact moves_of_advanceLock h
  | acquire c sec slot =>
    obtain ⟨⟨hheld, hfree, hslot, hbegin⟩, ⟨⟩⟩ := Option.ite_none_right_eq_some.mp h
    exact .acquire c sec slot hheld hfree hslot hbegin
  | start c =>
    obtain ⟨⟨hheld, -⟩, ⟨⟩⟩ := Option.ite_none_right_eq_some.mp h
    exact .start c hheld
  | next c =>
    simp only [smpStep] at h
    split at h
    · rename_i q slot best _
      obtain ⟨⟨hheld, -⟩, ⟨⟩⟩ := Option.ite_none_right_eq_some.mp h
      exact .next c q best hheld
    · cases h
  | timer c =>
    obtain ⟨⟨hheld, -⟩, ⟨⟩⟩ := Option.ite_none_right_eq_some.mp h
    exact .timer c hheld
  | charge _ mode preempted =>
    obtain ⟨⟨hheld, -⟩, ⟨⟩⟩ := Option.ite_none_right_eq_some.mp h
    exact moves_of_chargeTrap mode preempted hheld
  | forkLink c =>
    simp only [smpStep, Option.ite_none_right_eq_some] at h
    obtain ⟨⟨hheld, -⟩, h⟩ := h
    split at h <;> cases h
    rename_i np hstage
    obtain ⟨i, p, hproc, hp, hp'⟩ := exists_of_stage hstage
    have hmoves := Moves.forkLink (b := b) c i np p hheld hproc hp hp'
    simpa [Machine.setStage, hproc] using hmoves
  | reparent c slot =>
    obtain ⟨⟨hheld, -⟩, ⟨⟩⟩ := Option.ite_none_right_eq_some.mp h
    exact .reparent c slot hheld

/-! ### Owning a process -/

/-- The process that a CPU has: from the write of `RUNNING` to the write of another state. -/
def CpuState.owned (cpu : CpuState) : Option ℕ :=
  match cpu.held with
  | some (slot, .marked) => some slot
  | some (_, .stopped) => none
  | _ => cpu.proc

def Machine.owner (m : Machine n) (c : Fin n) : Option ℕ := (m.cpus c).owned

def Machine.lockOf (m : Machine n) (c : Fin n) : Option ℕ := (m.cpus c).held.map Prod.fst

def IsRunning (procs : List Proc) (i : ℕ) : Prop := ∃ p, procs[i]? = some p ∧ p.state = .running

/-- What a CPU knows in the middle of a section. -/
structure CpuOk (m : Machine n) (c : Fin n) : Prop where
  marked : ∀ i, (m.cpus c).held = some (i, .marked) → (m.cpus c).proc = none
  stopped : ∀ i, (m.cpus c).held = some (i, .stopped) →
    (m.cpus c).proc = some i ∧ ¬ IsRunning m.procs i
  leaving : ∀ i why, (m.cpus c).held = some (i, .body (.leave why)) → (m.cpus c).proc = some i
  preparing : ∀ i chan, (m.cpus c).held = some (i, .body (.sleepPrepare chan)) →
    (m.cpus c).proc = some i
  looking : ∀ i, (m.cpus c).held = some (i, .body .look) → (m.cpus c).proc = none
  choosing : ∀ i, (m.cpus c).held = some (i, .body .choose) → (m.cpus c).proc = none
  publishing : ∀ np, (m.cpus c).held = some (np, .body .publish) → m.stage c = some (.linked np)

structure Dispatched (m : Machine n) : Prop where
  locks : Exclusive m.lockOf
  owners : Exclusive m.owner
  running : Tracks m.owner (IsRunning m.procs)
  cpus : ∀ c, CpuOk m c
  forks : Forks m.procs

/-- A write to a slot by a CPU: it starts a process only under its lock, and it leaves the kernel
stack of a process that another CPU runs alone. -/
def SlotKept (m : Machine n) (c : Fin n) (z : ℕ) (p p' : Proc) : Prop :=
  (p'.state = .running → p.state = .running ∨ m.lockOf c = some z) ∧
    (p'.forkStage = p.forkStage ∨ p.state ≠ .running ∨ m.owner c = some z)

def SlotsKept (m m' : Machine n) (c : Fin n) : Prop :=
  ∀ (z : ℕ) (p' : Proc), m'.procs[z]? = some p' →
    ∃ p, m.procs[z]? = some p ∧ SlotKept m c z p p'

theorem owner_of_body (h : (m.cpus c).held = some (slot, .body sec)) :
    m.owner c = (m.cpus c).proc := by
  simp [Machine.owner, CpuState.owned, h]

theorem owner_of_unheld (h : (m.cpus c).held = none) : m.owner c = (m.cpus c).proc := by
  simp [Machine.owner, CpuState.owned, h]

/-- What another CPU knows stays true. -/
theorem CpuOk.other {m m' : Machine n} {c d : Fin n} (hm : Dispatched m) (hdc : d ≠ c)
    (hcpu : m'.cpus d = m.cpus d) (hlength : m'.procs.length = m.procs.length)
    (hslots : SlotsKept m m' c) : CpuOk m' d := by
  have h := hm.cpus d
  refine ⟨?_, ?_, ?_, ?_, ?_, ?_, ?_⟩ <;> rw [hcpu]
  · exact h.marked
  · intro i hi
    obtain ⟨hproc, hstop⟩ := h.stopped i hi
    refine ⟨hproc, ?_⟩
    rintro ⟨p', hp', hrun⟩
    obtain ⟨p, hp, hkept⟩ := hslots i p' hp'
    rcases hkept.1 hrun with hold | hlock
    · exact hstop ⟨p, hp, hold⟩
    · exact hdc (hm.locks d c i (by simp [Machine.lockOf, hi]) hlock)
  · exact h.leaving
  · exact h.preparing
  · exact h.looking
  · exact h.choosing
  · intro np hnp
    obtain ⟨i, p, hproc, hp, hstage⟩ := exists_of_stage (h.publishing np hnp)
    have howner : m.owner d = some i := (owner_of_body hnp).trans hproc
    obtain ⟨p', hp'⟩ : ∃ p', m'.procs[i]? = some p' :=
      ⟨_, List.getElem?_eq_getElem (hlength ▸ (lt_of_getElem? hp))⟩
    obtain ⟨q, hq, hkept⟩ := hslots i p' hp'
    cases hp.symm.trans hq
    obtain ⟨r, hr, hrun⟩ := (hm.running i).mpr ⟨d, howner⟩
    cases hp.symm.trans hr
    rcases hkept.2 with hsame | hnot | hown
    · rw [stage_of_exists (hcpu.symm ▸ hproc) hp', hsame, hstage]
    · exact absurd hrun hnot
    · exact absurd (hm.owners d c i howner hown) hdc

section Updates

variable {phase : Phase}

theorem owner_update (h : m'.cpus = update m.cpus c cpu') :
    m'.owner = update m.owner c cpu'.owned := by
  funext d
  rcases eq_or_ne d c with rfl | hd
  · simp [Machine.owner, h]
  · simp [Machine.owner, h, update_of_ne hd]

theorem lockOf_update (h : m'.cpus = update m.cpus c cpu') :
    m'.lockOf = update m.lockOf c (cpu'.held.map Prod.fst) := by
  funext d
  rcases eq_or_ne d c with rfl | hd
  · simp [Machine.lockOf, h]
  · simp [Machine.lockOf, h, update_of_ne hd]

/-- A step of one CPU, as far as it concerns the others. -/
theorem Dispatched.change (hm : Dispatched m) (hcpus : m'.cpus = update m.cpus c cpu')
    (hlength : m'.procs.length = m.procs.length) (hslots : SlotsKept m m' c)
    (hlocks : Exclusive m'.lockOf) (howners : Exclusive m'.owner)
    (hrunning : Tracks m'.owner (IsRunning m'.procs)) (hforks : Forks m'.procs)
    (hself : CpuOk m' c) : Dispatched m' := by
  refine ⟨hlocks, howners, hrunning, fun d ↦ ?_, hforks⟩
  by_cases hd : d = c
  · exact hd ▸ hself
  · exact .other hm hd (by rw [hcpus, update_of_ne hd]) hlength hslots

/-- A step of a CPU that goes on to own what it owned. -/
theorem Dispatched.keep (hm : Dispatched m) (hcpus : m'.cpus = update m.cpus c cpu')
    (howned : cpu'.owned = m.owner c) (hlocks : Exclusive m'.lockOf)
    (hlength : m'.procs.length = m.procs.length) (hslots : SlotsKept m m' c)
    (hrunning : ∀ i, IsRunning m'.procs i ↔ IsRunning m.procs i) (hforks : Forks m'.procs)
    (hself : CpuOk m' c) : Dispatched m' := by
  have howner : m'.owner = m.owner := by
    rw [owner_update hcpus, howned, update_eq_self]
  refine hm.change hcpus hlength hslots hlocks (howner ▸ hm.owners) ?_ hforks hself
  intro i
  rw [hrunning i, howner]
  exact hm.running i

theorem slotsKept_of_eq (h : m'.procs = m.procs) : SlotsKept m m' c := by
  intro z p hp
  exact ⟨p, h ▸ hp, .inl, .inl rfl⟩

/-- A step that leaves the table alone. -/
theorem Dispatched.keep_procs (hm : Dispatched m) (hcpus : m'.cpus = update m.cpus c cpu')
    (hprocs : m'.procs = m.procs) (howned : cpu'.owned = m.owner c) (hlocks : Exclusive m'.lockOf)
    (hself : CpuOk m' c) : Dispatched m' :=
  hm.keep hcpus howned hlocks (by rw [hprocs]) (slotsKept_of_eq hprocs)
    (fun i ↦ by rw [hprocs]) (hprocs ▸ hm.forks) hself

theorem locks_same (hm : Dispatched m) (hcpus : m'.cpus = update m.cpus c cpu')
    (hlock : cpu'.held.map Prod.fst = m.lockOf c) : Exclusive m'.lockOf := by
  rw [lockOf_update hcpus, hlock, update_eq_self]
  exact hm.locks

/-- Outside the sections that say something about their CPU, there is nothing to know. -/
theorem cpuOk_of_release (slot : ℕ) (h : (m'.cpus c).held = some (slot, .release)) :
    CpuOk m' c := by
  constructor <;> intros <;> simp_all

theorem cpuOk_of_unheld (h : (m'.cpus c).held = none) : CpuOk m' c := by
  constructor <;> intros <;> simp_all

/-- The CPU goes on to release the lock it holds. -/
theorem Dispatched.toRelease (hm : Dispatched m) (hheld : (m.cpus c).held = some (slot, phase))
    (hheld' : cpu'.held = some (slot, .release)) (howned : cpu'.owned = m.owner c) :
    Dispatched (m.setCpu c cpu') := by
  refine hm.keep_procs rfl rfl howned (locks_same hm rfl ?_) (cpuOk_of_release slot ?_)
  · simp [Machine.lockOf, hheld, hheld']
  · simp [Machine.setCpu, hheld']

end Updates

/-! ### Writing the table -/

theorem isRunning_set (hp : procs[i]? = some p) (hrun : p'.state = .running ↔ p.state = .running)
    (j : ℕ) : IsRunning (procs.set i p') j ↔ IsRunning procs j := by
  unfold IsRunning
  rcases eq_or_ne i j with rfl | hj
  · simp only [getElem?_set_eq hp, hp, Option.some.injEq, exists_eq_left', hrun]
  · simp only [List.getElem?_set_ne hj]

theorem slotsKept_set (hp : m.procs[i]? = some p) (hprocs : m'.procs = m.procs.set i p')
    (hkept : SlotKept m c i p p') : SlotsKept m m' c := by
  intro z q hq
  rw [hprocs] at hq
  rcases getElem?_set_cases hq with ⟨rfl, rfl⟩ | ⟨-, hq⟩
  · exact ⟨p, hp, hkept⟩
  · exact ⟨q, hq, .inl, .inl rfl⟩

/-- A second write, to the process that the CPU itself runs. -/
theorem slotsKept_set_set (hp : m.procs[i]? = some p) (hq : m.procs[j]? = some q)
    (hprocs : m'.procs = (m.procs.set i p').set j q') (hkept : SlotKept m c i p p')
    (hkept' : SlotKept m c j q q') : SlotsKept m m' c := by
  have hfirst : SlotsKept m { m with procs := m.procs.set i p' } c := slotsKept_set hp rfl hkept
  intro z r hr
  rw [hprocs] at hr
  rcases getElem?_set_cases hr with ⟨rfl, rfl⟩ | ⟨-, hr⟩
  · exact ⟨q, hq, hkept'⟩
  · exact hfirst z r hr

/-- The child that a `kfork` has allocated goes into its local variable. -/
theorem Forks.allocate (h : Forks procs) (hq : procs[np]? = some q) (hunused : q.state = .unused)
    (hused : q'.state = .used) (hfork : q'.forkStage = q.forkStage) (hp : procs[i]? = some p)
    (hne : np ≠ i) : Forks ((procs.set np q').set i { p with forkStage := .allocated np }) := by
  have hlt : np < procs.length := lt_of_getElem? hq
  have hfree := h.notChild hq (by simp [hunused])
  have htaken : Forks (procs.set np q') :=
    h.set hq (.inr hfree) (.inl (forkChild_congr hfork))
  have hget : (procs.set np q')[i]? = some p := by rw [List.getElem?_set_ne hne, hp]
  refine htaken.set hget (.inl id) (.inr (.inr ⟨np, q', rfl, hne,
    List.getElem?_set_self hlt, hused, hfree.set hq (.inl (forkChild_congr hfork))⟩))

/-- The last section of `kfork` lets the child go. -/
theorem Forks.publish (h : Forks procs) (hq : procs[np]? = some q) (hp : procs[i]? = some p)
    (hstage : p.forkStage = .linked np) (hne : np ≠ i) :
    Forks ((procs.set np { q with state := .runnable }).set i
      { p with forkStage := .idle }) := by
  have hpc : p.forkChild = some np := by simp [Proc.forkChild, hstage]
  have hdone : Forks (procs.set i { p with forkStage := .idle }) :=
    h.set hp (.inl id) (.inr (.inl rfl))
  have hfree : NotChild (procs.set i { p with forkStage := .idle }) np :=
    h.notChild_of_drop hp hpc rfl
  have hget : (procs.set i { p with forkStage := .idle })[np]? = some q := by
    rw [List.getElem?_set_ne (Ne.symm hne), hq]
  rw [List.set_comm _ _ hne]
  exact hdone.set hget (.inr hfree) (.inl rfl)

/-! ### The bodies of the sections -/

section Bodies

variable {m₁ : Machine n} {ticks : ℕ} {mem : Memory} {copy : CopyOut} {why : Leave}

theorem SameControl.slotKept (h : SameControl p p') (m : Machine n) (c : Fin n) (z : ℕ) :
    SlotKept m c z p p' :=
  ⟨fun hrun ↦ .inl (h.1.mp hrun), .inl h.2.2⟩

theorem Forks.set_same (h : Forks procs) (hp : procs[i]? = some p) (hsame : SameControl p p') :
    Forks (procs.set i p') :=
  h.set hp (.inl hsame.2.1) (.inl (forkChild_congr hsame.2.2))

/-- The end of a body that starts and stops nobody. -/
theorem Dispatched.finish (hm : Dispatched m) (hheld : (m.cpus c).held = some (slot, .body sec))
    (hcpus : m₁.cpus = m.cpus) (hlength : m₁.procs.length = m.procs.length)
    (hslots : SlotsKept m m₁ c) (hrunning : ∀ i, IsRunning m₁.procs i ↔ IsRunning m.procs i)
    (hforks : Forks m₁.procs) : Dispatched (m₁.finish c slot) := by
  have hcpus' : (m₁.finish c slot).cpus =
      update m.cpus c { m.cpus c with held := some (slot, .release) } := by
    simp [Machine.finish, Machine.setCpu, hcpus]
  refine hm.keep hcpus' ?_ (locks_same hm hcpus' ?_) hlength hslots hrunning hforks
    (cpuOk_of_release slot ?_)
  · rw [owner_of_body hheld]
    rfl
  · simp [Machine.lockOf, hheld]
  · rw [hcpus', update_self]

theorem Dispatched.finish_self (hm : Dispatched m)
    (hheld : (m.cpus c).held = some (slot, .body sec)) : Dispatched (m.finish c slot) :=
  hm.finish hheld rfl rfl (slotsKept_of_eq rfl) (fun _ ↦ Iff.rfl) hm.forks

theorem Dispatched.finish_same (hm : Dispatched m)
    (hheld : (m.cpus c).held = some (slot, .body sec)) (hp : m.procs[slot]? = some p)
    (hcpus : m₁.cpus = m.cpus) (hprocs : m₁.procs = m.procs.set slot p')
    (hsame : SameControl p p') : Dispatched (m₁.finish c slot) := by
  refine hm.finish hheld hcpus (by simp [hprocs]) (slotsKept_set hp hprocs (hsame.slotKept _ _ _))
    (fun i ↦ ?_) ?_ <;> rw [hprocs]
  · exact isRunning_set hp hsame.1 i
  · exact hm.forks.set_same hp hsame

theorem nudged_killBody (b : Build) (pid : ℤ) (p : Proc) (seq : ℕ) :
    Nudged p (killBody b pid p seq).1 := by
  unfold killBody
  split_ifs with hpid hstate
  · cases b <;> exact ⟨⟨.inr ⟨hstate, rfl⟩, .inl rfl, rfl, rfl, rfl, rfl, rfl, rfl⟩, rfl⟩
  · exact ⟨⟨.inl rfl, .inl rfl, rfl, rfl, rfl, rfl, rfl, rfl⟩, rfl⟩
  · exact Std.Refl.refl p

/-- A slot is cleared that nobody runs and nobody is creating. -/
theorem Dispatched.finish_freed (hm : Dispatched m)
    (hheld : (m.cpus c).held = some (slot, .body sec)) (hp : m.procs[slot]? = some p)
    (hstate : p.state = .unused ∨ p.state = .zombie) (hcpus : m₁.cpus = m.cpus)
    (hprocs : m₁.procs = m.procs.set slot p') (hfree : p'.state = .unused)
    (hfork : p'.forkStage = .idle) : Dispatched (m₁.finish c slot) := by
  have hrun : p.state ≠ .running := by rcases hstate with h | h <;> simp [h]
  have hused : p.state ≠ .used := by rcases hstate with h | h <;> simp [h]
  refine hm.finish hheld hcpus (by simp [hprocs])
    (slotsKept_set hp hprocs ⟨by simp [hfree], .inr (.inl hrun)⟩) (fun i ↦ ?_) ?_ <;>
    rw [hprocs]
  · exact isRunning_set hp (by simp [hfree, hrun]) i
  · exact hm.forks.set hp (.inr (hm.forks.notChild hp hused))
      (.inr (.inl (by simp [Proc.forkChild, hfork])))

/-- `allocproc` gives the slot back or has taken it. -/
theorem allocBody_cases (b : Build) (mem : Memory) (ticks : ℕ) (pid : ℤ) (p : Proc) (seq : ℕ) :
    ((allocBody b mem ticks pid p seq).2.2 = false ∧
      ∃ q, (allocBody b mem ticks pid p seq).1 = freeFields b q) ∨
    ((allocBody b mem ticks pid p seq).2.2 = true ∧
      (allocBody b mem ticks pid p seq).1.state = .used ∧
      (allocBody b mem ticks pid p seq).1.forkStage = p.forkStage ∧
      (allocBody b mem ticks pid p seq).1.ctime = ticks ∧
      (allocBody b mem ticks pid p seq).1.rtime = 0 ∧
      (allocBody b mem ticks pid p seq).1.chan = p.chan) := by
  unfold allocBody
  dsimp only
  split_ifs
  · exact .inl ⟨rfl, _, rfl⟩
  · exact .inl ⟨rfl, _, rfl⟩
  · exact .inl ⟨rfl, _, rfl⟩
  · cases b <;> exact .inr ⟨rfl, rfl, rfl, rfl, rfl, rfl⟩

/-- A CPU whose process is in a section of `kfork` has it. -/
theorem Dispatched.isRunning_of_stage (hm : Dispatched m)
    (hheld : (m.cpus c).held = some (slot, .body sec)) (hproc : (m.cpus c).proc = some i) :
    IsRunning m.procs i :=
  (hm.running i).mpr ⟨c, (owner_of_body hheld).trans hproc⟩

theorem procs_setStage (hproc : (m.cpus c).proc = some i) (hq : m.procs[i]? = some q)
    (stage : ForkStage) :
    (m.setStage c stage).procs = m.procs.set i { q with forkStage := stage } := by
  simp [Machine.setStage, hproc, modify_eq_set hq]

theorem cpus_setStage (m : Machine n) (c : Fin n) (stage : ForkStage) :
    (m.setStage c stage).cpus = m.cpus := by
  unfold Machine.setStage
  split <;> rfl

theorem dispatched_alloc (hm : Dispatched m)
    (hheld : (m.cpus c).held = some (slot, .body (.alloc mem))) (hp : m.procs[slot]? = some p) :
    Dispatched (runBody b c slot p m (.alloc mem)) := by
  simp only [runBody]
  split_ifs with hunused htaken
  · -- The child is there: it goes into the local variable of its parent.
    obtain ⟨hfalse, -⟩ | ⟨-, hused, hfork, -⟩ :=
      allocBody_cases b.build mem m.ticks m.nextpid p m.seq
    · cases hfalse.symm.trans htaken
    generalize allocBody b.build mem m.ticks m.nextpid p m.seq = r at hused hfork ⊢
    cases hproc : (m.cpus c).proc with
    | none =>
      have hstage : ({ m.setProc slot r.1 with seq := r.2.1, nextpid := m.nextpid + 1 }).setStage c
          (.allocated slot) =
          { m.setProc slot r.1 with seq := r.2.1, nextpid := m.nextpid + 1 } := by
        simp [Machine.setStage, Machine.setProc, hproc]
      rw [hstage]
      refine hm.finish_same hheld hp rfl rfl ⟨?_, ?_, hfork⟩ <;> simp [hused, hunused]
    | some i =>
      obtain ⟨q, hq, hrun⟩ := hm.isRunning_of_stage hheld hproc
      have hne : slot ≠ i := by
        rintro rfl
        cases hp.symm.trans hq
        cases hunused.symm.trans hrun
      have hq' : (m.procs.set slot r.1)[i]? = some q := by rw [List.getElem?_set_ne hne, hq]
      have hprocs : (({ m.setProc slot r.1 with
          seq := r.2.1, nextpid := m.nextpid + 1 }).setStage c (.allocated slot)).procs =
          (m.procs.set slot r.1).set i { q with forkStage := .allocated slot } :=
        procs_setStage (m := { m.setProc slot r.1 with
          seq := r.2.1, nextpid := m.nextpid + 1 }) hproc hq' _
      refine hm.finish hheld (cpus_setStage _ _ _) (by simp [hprocs])
        (slotsKept_set_set hp hq hprocs ⟨by simp [hused], .inl hfork⟩
          ⟨.inl, .inr (.inr ((owner_of_body hheld).trans hproc))⟩) (fun j ↦ ?_) ?_ <;>
        rw [hprocs]
      · refine Iff.trans (isRunning_set hq' ?_ j) (isRunning_set hp ?_ j)
        · exact Iff.rfl
        · simp [hused, hunused]
      · exact hm.forks.allocate hp hunused hused hfork hq hne
  · obtain ⟨-, q, hfreed⟩ | ⟨htrue, -⟩ :=
      allocBody_cases b.build mem m.ticks m.nextpid p m.seq
    · refine hm.finish_freed hheld hp (.inl hunused) rfl rfl ?_ ?_ <;> rw [hfreed]
      · exact (freeFields_spec b.build q).1
      · exact (freeFields_spec b.build q).2.1
    · exact absurd htrue htaken
  · exact hm.finish_self hheld

theorem dispatched_publish (hm : Dispatched m)
    (hheld : (m.cpus c).held = some (slot, .body .publish)) (hp : m.procs[slot]? = some p) :
    Dispatched (runBody b c slot p m .publish) := by
  obtain ⟨i, q, hproc, hq, hstage⟩ := exists_of_stage ((hm.cpus c).publishing slot hheld)
  obtain ⟨p₁, hp₁, hused⟩ := hm.forks.child i q slot hq (by simp [Proc.forkChild, hstage])
  cases hp.symm.trans hp₁
  obtain ⟨q₁, hq₁, hrun⟩ := hm.isRunning_of_stage hheld hproc
  cases hq.symm.trans hq₁
  have hne : slot ≠ i := by
    rintro rfl
    cases hp.symm.trans hq
    cases hused.symm.trans hrun
  have hq' : (m.procs.set slot { p with state := .runnable })[i]? = some q := by
    rw [List.getElem?_set_ne hne, hq]
  have hprocs : ((m.setProc slot { p with state := .runnable }).setStage c .idle).procs =
      (m.procs.set slot { p with state := .runnable }).set i { q with forkStage := .idle } :=
    procs_setStage (m := m.setProc slot { p with state := .runnable }) hproc hq' _
  refine hm.finish hheld (cpus_setStage _ _ _) (by simp [hprocs]) (slotsKept_set_set hp hq hprocs
    ⟨by simp, .inl rfl⟩ ⟨.inl, .inr (.inr ((owner_of_body hheld).trans hproc))⟩)
    (fun j ↦ ?_) ?_ <;> rw [hprocs]
  · refine Iff.trans (isRunning_set hq' ?_ j) (isRunning_set hp ?_ j)
    · exact Iff.rfl
    · simp [hused]
  · exact hm.forks.publish hp hq hstage hne

theorem dispatched_reap (hm : Dispatched m)
    (hheld : (m.cpus c).held = some (slot, .body (.reap copy))) (hp : m.procs[slot]? = some p) :
    Dispatched (runBody b c slot p m (.reap copy)) := by
  simp only [runBody, reapBody]
  split_ifs with hzombie
  · exact hm.finish_freed hheld hp (.inr hzombie.2.1) rfl rfl (freeFields_spec _ _).1
      (freeFields_spec _ _).2.1
  · exact hm.finish_same hheld hp rfl rfl ⟨Iff.rfl, id, rfl⟩

/-- A scheduler that holds the lock of a `RUNNABLE` process switches to it. -/
theorem dispatched_mark (hm : Dispatched m) (hheld : (m.cpus c).held = some (slot, .body sec))
    (hproc : (m.cpus c).proc = none) (hp : m.procs[slot]? = some p)
    (hstate : p.state = .runnable) : Dispatched (mark b c slot p m) := by
  have hlt : slot < m.procs.length := lt_of_getElem? hp
  have hcpus : (mark b c slot p m).cpus = update m.cpus c
      { m.cpus c with scan := afterRun b slot, held := some (slot, .marked) } := rfl
  have hprocs : (mark b c slot p m).procs = m.procs.set slot (dispatchFields m.ticks p) := rfl
  have hidle : ¬ IsRunning m.procs slot := by
    rintro ⟨q, hq, hrun⟩
    cases hp.symm.trans hq
    cases hstate.symm.trans hrun
  have hfree (d : Fin n) : m.owner d ≠ some slot := fun hd ↦ hidle ((hm.running slot).mpr ⟨d, hd⟩)
  have howner : (mark b c slot p m).owner = update m.owner c (some slot) :=
    owner_update hcpus
  refine hm.change hcpus (by simp [hprocs]) (slotsKept_set hp hprocs
    ⟨fun _ ↦ .inr (by simp [Machine.lockOf, hheld]), .inl rfl⟩)
    (locks_same hm hcpus (by simp [Machine.lockOf, hheld])) (howner ▸ hm.owners.take hfree) ?_ ?_ ?_
  · rw [howner]
    refine hm.running.take ((owner_of_body hheld).trans hproc) ?_ fun j hj ↦ ?_
    · exact ⟨_, by rw [hprocs, List.getElem?_set_self hlt], rfl⟩
    · unfold IsRunning
      rw [hprocs, List.getElem?_set_ne (Ne.symm hj)]
  · rw [hprocs]
    exact hm.forks.set hp (.inr (hm.forks.notChild hp (by simp [hstate]))) (.inl rfl)
  · constructor <;> rw [hcpus, update_self] <;> simp [hproc]

theorem dispatched_look (hm : Dispatched m) (hheld : (m.cpus c).held = some (slot, .body .look))
    (hp : m.procs[slot]? = some p) : Dispatched (lookBody b c slot p m) := by
  have hproc := (hm.cpus c).looking slot hheld
  unfold lookBody
  split
  · rename_i q _ best _
    split_ifs with hrunnable
    · exact dispatched_mark hm hheld hproc hp hrunnable.2
    · exact hm.toRelease hheld rfl (owner_of_body hheld).symm
  · exact hm.finish_self hheld

theorem dispatched_choose (hm : Dispatched m) (hheld : (m.cpus c).held = some (slot, .body .choose))
    (hp : m.procs[slot]? = some p) : Dispatched (chooseBody b c slot p m) := by
  have hproc := (hm.cpus c).choosing slot hheld
  unfold chooseBody
  split
  · split_ifs with hrunnable
    · exact dispatched_mark hm hheld hproc hp hrunnable.1
    · exact hm.toRelease hheld rfl (owner_of_body hheld).symm
  · exact hm.finish_self hheld

theorem leaveBody_some {b : Build} (h : leaveBody b ticks why p = some p') :
    p'.state ≠ .running ∧ p'.forkStage = p.forkStage := by
  unfold leaveBody at h
  split at h
  · cases h
    exact ⟨by simp, rfl⟩
  · split_ifs at h
    cases b <;> cases h <;> exact ⟨by simp, rfl⟩
  · cases h
    exact ⟨by simp, rfl⟩

theorem dispatched_leave (hm : Dispatched m)
    (hheld : (m.cpus c).held = some (slot, .body (.leave why))) (hp : m.procs[slot]? = some p) :
    Dispatched (runBody b c slot p m (.leave why)) := by
  have hproc := (hm.cpus c).leaving slot why hheld
  have hown : m.owner c = some slot := (owner_of_body hheld).trans hproc
  simp only [runBody]
  split
  · exact hm.finish_self hheld
  · rename_i p' hleave
    obtain ⟨hstop, hfork⟩ := leaveBody_some hleave
    obtain ⟨q, hq, hrun⟩ := (hm.running slot).mpr ⟨c, hown⟩
    cases hp.symm.trans hq
    have hlt : slot < m.procs.length := lt_of_getElem? hp
    have hget : (m.procs.set slot p')[slot]? = some p' := List.getElem?_set_self hlt
    have hidle : ¬ IsRunning (m.procs.set slot p') slot := by
      rintro ⟨r, hr, hrun'⟩
      cases hget.symm.trans hr
      exact hstop hrun'
    have hcpus : ((m.setProc slot p').setCpu c
        { m.cpus c with held := some (slot, .stopped) }).cpus =
        update m.cpus c { m.cpus c with held := some (slot, .stopped) } := rfl
    have howner : ((m.setProc slot p').setCpu c
        { m.cpus c with held := some (slot, .stopped) }).owner =
        update m.owner c none := owner_update hcpus
    refine hm.change hcpus (by simp [Machine.setProc, Machine.setCpu]) (slotsKept_set hp rfl
      ⟨fun h ↦ absurd h hstop, .inl hfork⟩)
      (locks_same hm hcpus (by simp [Machine.lockOf, hheld])) (howner ▸ hm.owners.drop c) ?_ ?_ ?_
    · rw [howner]
      refine hm.running.drop hm.owners hown hidle fun j hj ↦ ?_
      unfold IsRunning Machine.setCpu Machine.setProc
      rw [List.getElem?_set_ne (Ne.symm hj)]
    · exact hm.forks.set hp (.inr (hm.forks.notChild hp (by simp [hrun])))
        (.inl (forkChild_congr hfork))
    · constructor <;> rw [hcpus, update_self] <;>
        simp [hproc, Machine.setCpu, Machine.setProc, hidle]

theorem dispatched_body (hm : Dispatched m) (hheld : (m.cpus c).held = some (slot, .body sec))
    (hp : m.procs[slot]? = some p) : Dispatched (runBody b c slot p m sec) := by
  cases sec with
  | wakeup => exact hm.finish_same hheld hp rfl rfl (nudged_wakeupBody _ _ p _).sameControl
  | kill => exact hm.finish_same hheld hp rfl rfl (nudged_killBody _ _ p _).sameControl
  | setkilled | sleepPrepare => exact hm.finish_same hheld hp rfl rfl ⟨Iff.rfl, id, rfl⟩
  | alloc => exact dispatched_alloc hm hheld hp
  | publish => exact dispatched_publish hm hheld hp
  | reap => exact dispatched_reap hm hheld hp
  | boost => exact hm.finish_same hheld hp rfl rfl (nudged_boostBody p _).sameControl
  | look => exact dispatched_look hm hheld hp
  | choose => exact dispatched_choose hm hheld hp
  | leave => exact dispatched_leave hm hheld hp

end Bodies

/-! ### Every step -/

section Steps

/-- A CPU that holds no lock changes its record only. -/
theorem Dispatched.unheld (hm : Dispatched m) (hheld : (m.cpus c).held = none)
    (hcpus : m'.cpus = update m.cpus c cpu') (hprocs : m'.procs = m.procs)
    (hproc : cpu'.proc = (m.cpus c).proc) (hheld' : cpu'.held = none) : Dispatched m' := by
  refine hm.keep_procs hcpus hprocs ?_ (locks_same hm hcpus ?_) (cpuOk_of_unheld ?_)
  · rw [owner_of_unheld hheld, ← hproc]
    simp [CpuState.owned, hheld']
  · simp [Machine.lockOf, hheld, hheld']
  · rw [hcpus, update_self, hheld']

theorem dispatched_acquire (hm : Dispatched m) (hheld : (m.cpus c).held = none)
    (hfree : m.unlocked slot) (hbegin : mayBegin b m c slot sec) :
    Dispatched (m.setCpu c { m.cpus c with held := some (slot, .body sec) }) := by
  have hcpus : (m.setCpu c { m.cpus c with held := some (slot, .body sec) }).cpus =
      update m.cpus c { m.cpus c with held := some (slot, .body sec) } := rfl
  refine hm.keep_procs hcpus rfl ?_ ?_ ?_
  · rw [owner_of_unheld hheld]
    rfl
  · rw [lockOf_update hcpus]
    exact hm.locks.take hfree
  · have hstage : (m.setCpu c { m.cpus c with held := some (slot, .body sec) }).stage c =
        m.stage c := by
      simp [Machine.stage, Machine.setCpu]
    constructor <;> simp only [hcpus, update_self, hstage, Option.some.injEq,
      Prod.mk.injEq, Phase.body.injEq, reduceCtorEq, and_false, IsEmpty.forall_iff, implies_true]
    · rintro i why ⟨rfl, rfl⟩
      cases why with
      | yield => exact hbegin.1
      | sleep => exact hbegin.2
      | exit => exact hbegin.2.1
    · rintro i chan ⟨rfl, rfl⟩
      exact hbegin.2
    · rintro i ⟨rfl, rfl⟩
      exact hbegin.1
    · rintro i ⟨rfl, rfl⟩
      exact hbegin.1
    · rintro np ⟨rfl, rfl⟩
      exact hbegin.1

theorem dispatched_enter (hm : Dispatched m) (hheld : (m.cpus c).held = some (slot, .marked)) :
    Dispatched (m.setCpu c
      { m.cpus c with proc := some slot, held := some (slot, .release) }) :=
  hm.toRelease hheld rfl (by simp [Machine.owner, CpuState.owned, hheld])

theorem dispatched_stop (hm : Dispatched m) (hheld : (m.cpus c).held = some (slot, .stopped)) :
    Dispatched (m.setCpu c
      { m.cpus c with proc := none, trap := .idle, held := some (slot, .release) }) :=
  hm.toRelease hheld rfl (by simp [Machine.owner, CpuState.owned, hheld])

theorem dispatched_release (hm : Dispatched m) (hheld : (m.cpus c).held = some (slot, .release)) :
    Dispatched (m.setCpu c { m.cpus c with held := none }) := by
  have hcpus : (m.setCpu c { m.cpus c with held := none }).cpus =
      update m.cpus c { m.cpus c with held := none } := rfl
  refine hm.keep_procs hcpus rfl ?_ ?_ (cpuOk_of_unheld ?_)
  · simp [Machine.owner, CpuState.owned, hheld]
  · rw [lockOf_update hcpus]
    exact hm.locks.drop c
  · simp [Machine.setCpu]

theorem sameControl_chargeBody (b : Scheduler) (ticks : ℕ) (preempted : Bool) (p : Proc) (seq : ℕ) :
    SameControl p (chargeBody b ticks preempted p seq).1 := by
  unfold chargeBody
  split
  · simp [SameControl]
  · simp [SameControl]
  · split_ifs <;> simp [SameControl, stampProc, expireFields, chargeFields]

/-- A CPU that holds no lock writes a process. -/
theorem Dispatched.write {c : Fin n} {cpu' : CpuState} {i : ℕ} {p p' : Proc} (hm : Dispatched m)
    (hheld : (m.cpus c).held = none) (hcpus : m'.cpus = update m.cpus c cpu')
    (hproc : cpu'.proc = (m.cpus c).proc) (hheld' : cpu'.held = none) (hp : m.procs[i]? = some p)
    (hprocs : m'.procs = m.procs.set i p') (hsame : SameControl p p') : Dispatched m' := by
  refine hm.keep hcpus ?_ (locks_same hm hcpus ?_) (by simp [hprocs])
    (slotsKept_set hp hprocs (hsame.slotKept _ _ _)) (fun j ↦ ?_) ?_ (cpuOk_of_unheld ?_)
  · rw [owner_of_unheld hheld, ← hproc]
    simp [CpuState.owned, hheld']
  · simp [Machine.lockOf, hheld, hheld']
  · rw [hprocs]
    exact isRunning_set hp hsame.1 j
  · rw [hprocs]
    exact hm.forks.set_same hp hsame
  · rw [hcpus, update_self, hheld']

theorem dispatched_forkLink (hm : Dispatched m) (hheld : (m.cpus c).held = none)
    (hproc : (m.cpus c).proc = some i) (hp : m.procs[i]? = some p)
    (hstage : p.forkStage = .allocated np) :
    Dispatched { m with
      procs := (m.procs.modify np fun q ↦ { q with parent := some i }).modify i
        fun q ↦ { q with forkStage := .linked np } } := by
  have hpc : p.forkChild = some np := by simp [Proc.forkChild, hstage]
  obtain ⟨q, hq, hused⟩ := hm.forks.child i p np hp hpc
  have hown : m.owner c = some i := (owner_of_unheld hheld).trans hproc
  obtain ⟨p₁, hp₁, hrun⟩ := (hm.running i).mpr ⟨c, hown⟩
  cases hp.symm.trans hp₁
  have hne : np ≠ i := by
    rintro rfl
    cases hp.symm.trans hq
    cases hused.symm.trans hrun
  have hget : (m.procs.set np { q with parent := some i })[i]? = some p := by
    rw [List.getElem?_set_ne hne, hp]
  have hprocs : (m.procs.modify np fun q ↦ { q with parent := some i }).modify i
      (fun q ↦ { q with forkStage := .linked np }) =
      (m.procs.set np { q with parent := some i }).set i { p with forkStage := .linked np } := by
    rw [modify_eq_set hq, modify_eq_set hget]
  rw [hprocs]
  have hlinked : Forks (m.procs.set np { q with parent := some i }) :=
    hm.forks.set_same hq ⟨Iff.rfl, id, rfl⟩
  refine hm.keep (update_eq_self c m.cpus).symm rfl hm.locks (by simp)
    (slotsKept_set_set hq hp rfl ⟨.inl, .inl rfl⟩ ⟨.inl, .inr (.inr hown)⟩)
    (fun j ↦ ?_) ?_ (cpuOk_of_unheld hheld)
  · refine Iff.trans (isRunning_set hget ?_ j) (isRunning_set hq ?_ j)
    · exact Iff.rfl
    · exact Iff.rfl
  · exact hlinked.set hget (.inl id) (.inl (by simp [Proc.forkChild, hstage]))

theorem dispatched_step (hstep : smpStep b m e = some m') (hm : Dispatched m) : Dispatched m' := by
  cases moves_of_smpStep hstep with
  | start _ hheld | next _ _ _ hheld | timer _ hheld | noCharge _ _ _ _ hheld =>
    exact hm.unheld hheld rfl rfl rfl hheld
  | acquire _ _ _ hheld hfree _ hbegin => exact dispatched_acquire hm hheld hfree hbegin
  | body _ _ _ _ hheld hp => exact dispatched_body hm hheld hp
  | enter _ _ hheld => exact dispatched_enter hm hheld
  | stop _ _ hheld => exact dispatched_stop hm hheld
  | release _ _ hheld => exact dispatched_release hm hheld
  | charge _ _ _ _ p _ hheld _ hp =>
    exact hm.write hheld rfl rfl hheld hp rfl (sameControl_chargeBody b _ _ p _)
  | forkLink _ _ _ _ hheld hproc hp hstage => exact dispatched_forkLink hm hheld hproc hp hstage
  | reparent c slot hheld =>
    cases hp : m.procs[slot]? with
    | none =>
      rwa [List.modify_eq_self (List.getElem?_eq_none_iff.mp hp)]
    | some p =>
      exact hm.write hheld (update_eq_self c m.cpus).symm rfl hheld hp
        (modify_eq_set hp _) ⟨Iff.rfl, id, rfl⟩

theorem dispatched_boot (b : Scheduler) (n : ℕ) : Dispatched (smpBoot b n) := by
  have hcontrol := control_boot b.build
  have hcur : (boot b.build).cur = none := by cases b <;> rfl
  have hnone (c : Fin n) : (smpBoot b n).owner c = none := rfl
  refine ⟨fun _ _ _ h ↦ (by cases h), fun _ _ _ h ↦ (by cases h), fun i ↦ ?_, fun c ↦ ?_,
    hcontrol.forks⟩
  · constructor
    · rintro ⟨p, hp, hrun⟩
      have hcur' := (hcontrol.running i p hp).mp hrun
      cases hcur.symm.trans hcur'
    · rintro ⟨c, hc⟩
      rw [hnone] at hc
      cases hc
  · exact cpuOk_of_unheld rfl

theorem dispatched_reachable (h : Reachable (smpStep b) (smpBoot b n) m) : Dispatched m :=
  h.invariant (dispatched_boot b n) fun _ _ _ hstep hm ↦ dispatched_step hstep hm

end Steps

/-! ### Dispatches -/

/-- The CPU is between the two writes of a switch to or from the process in slot `i`. -/
def Switching (m : Machine n) (c : Fin n) (i : ℕ) : Prop :=
  (m.cpus c).held = some (i, .marked) ∨ (m.cpus c).held = some (i, .stopped)

/-- A step in which the scheduler of a CPU writes `RUNNING`. -/
def Dispatches (m m' : Machine n) (c : Fin n) (i : ℕ) : Prop :=
  (m'.cpus c).held = some (i, .marked) ∧ (m.cpus c).held ≠ some (i, .marked)

def Machine.stateOf (m : Machine n) (i : ℕ) : Option ProcState := m.procs[i]?.map (·.state)

theorem stateOf_eq_running : m.stateOf i = some .running ↔ IsRunning m.procs i := by
  unfold Machine.stateOf IsRunning
  exact Option.map_eq_some_iff

section Dispatches

/-- What the body of a section does to its CPU. -/
theorem cpus_runBody (b : Scheduler) (c : Fin n) (slot : ℕ) (p : Proc) (m : Machine n)
    (sec : Section) : ∃ cpu', (runBody b c slot p m sec).cpus = update m.cpus c cpu' ∧
      cpu'.proc = (m.cpus c).proc ∧ (cpu'.held = some (slot, .release) ∨
        cpu'.held = some (slot, .stopped) ∨ (cpu'.held = some (slot, .marked) ∧
          p.state = .runnable ∧ runBody b c slot p m sec = mark b c slot p m)) := by
  have hfinish (m₁ : Machine n) (hcpus : m₁.cpus = m.cpus) :
      ∃ cpu', (m₁.finish c slot).cpus = update m.cpus c cpu' ∧
        cpu'.proc = (m.cpus c).proc ∧ cpu'.held = some (slot, .release) :=
    ⟨{ m.cpus c with held := some (slot, .release) },
      by simp [Machine.finish, Machine.setCpu, hcpus], rfl, rfl⟩
  have hrelease {m₁ : Machine n} (h : ∃ cpu', m₁.cpus = update m.cpus c cpu' ∧
      cpu'.proc = (m.cpus c).proc ∧ cpu'.held = some (slot, .release)) :
      ∃ cpu', m₁.cpus = update m.cpus c cpu' ∧
        cpu'.proc = (m.cpus c).proc ∧ (cpu'.held = some (slot, .release) ∨
          cpu'.held = some (slot, .stopped) ∨ (cpu'.held = some (slot, .marked) ∧
            p.state = .runnable ∧ m₁ = mark b c slot p m)) := by
    obtain ⟨cpu', hcpus, hproc, hheld⟩ := h
    exact ⟨cpu', hcpus, hproc, .inl hheld⟩
  cases sec with
  | alloc =>
    refine hrelease ?_
    simp only [runBody]
    split_ifs
    · exact hfinish _ (cpus_setStage _ _ _)
    · exact hfinish _ rfl
    · exact hfinish _ rfl
  | publish => exact hrelease (hfinish _ (cpus_setStage _ _ _))
  | look =>
    simp only [runBody, lookBody]
    split
    · split_ifs with hrunnable
      · exact ⟨_, rfl, rfl, .inr (.inr ⟨rfl, hrunnable.2, rfl⟩)⟩
      · exact hrelease ⟨_, rfl, rfl, rfl⟩
    · exact hrelease (hfinish _ rfl)
  | choose =>
    simp only [runBody, chooseBody]
    split
    · split_ifs with hrunnable
      · exact ⟨_, rfl, rfl, .inr (.inr ⟨rfl, hrunnable.1, rfl⟩)⟩
      · exact hrelease ⟨_, rfl, rfl, rfl⟩
    · exact hrelease (hfinish _ rfl)
  | leave =>
    simp only [runBody]
    split
    · exact hrelease (hfinish _ rfl)
    · exact ⟨_, rfl, rfl, .inr (.inl rfl)⟩
  | _ => exact hrelease (hfinish _ rfl)

/-- The CPU comes to own nothing in the step: it writes no `RUNNING`, and it has the process it had
or none. -/
structure Quiet (m m' : Machine n) (c : Fin n) : Prop where
  owner : m'.owner c = m.owner c ∨ m'.owner c = none
  held : (m'.cpus c).held = (m.cpus c).held ∨ ∀ i, (m'.cpus c).held ≠ some (i, .marked)

theorem Quiet.of_cpus (h : m'.cpus c = m.cpus c) : Quiet m m' c where
  owner := .inl (by simp [Machine.owner, h])
  held := .inl (by rw [h])

/-- A CPU that steps to a record with a lock it need not switch under. -/
theorem Quiet.of_setCpu (h : m'.cpus c = cpu')
    (howned : cpu'.owned = (m.cpus c).owned ∨ cpu'.owned = none)
    (hheld : ∀ i, cpu'.held ≠ some (i, .marked)) : Quiet m m' c where
  owner := by simpa [Machine.owner, h] using howned
  held := .inr fun i ↦ by rw [h]; exact hheld i

/-- A step that writes `RUNNING` for a CPU finds `RUNNABLE`; every other step is quiet for it. -/
theorem dispatches_or_quiet (hstep : smpStep b m e = some m') (c : Fin n) :
    (∃ i, (m'.cpus c).held = some (i, .marked) ∧ m.stateOf i = some .runnable ∧
      m'.stateOf i = some .running) ∨ Quiet m m' c := by
  cases moves_of_smpStep hstep with
  | body d slot sec p hheld hp =>
    obtain ⟨cpu', hcpus, hproc, hcpu⟩ := cpus_runBody b d slot p m sec
    rcases eq_or_ne c d with rfl | hne
    · have hc : (runBody b c slot p m sec).cpus c = cpu' := by simp [hcpus]
      rcases hcpu with hrelease | hstopped | ⟨hmarked, hrunnable, hmark⟩
      · refine .inr (.of_setCpu hc (.inl ?_) (by simp [hrelease]))
        simp [CpuState.owned, hrelease, hheld, hproc]
      · refine .inr (.of_setCpu hc (.inr ?_) (by simp [hstopped]))
        simp [CpuState.owned, hstopped]
      · have hslot : slot < m.procs.length := lt_of_getElem? hp
        refine .inl ⟨slot, by rw [hc, hmarked], by simp [Machine.stateOf, hp, hrunnable], ?_⟩
        simp [hmark, mark, Machine.stateOf, Machine.setProc, Machine.setCpu, hslot, dispatchFields]
    · exact .inr (.of_cpus (by simp [hcpus, hne]))
  | enter d _ hheld | release d _ hheld | acquire d _ _ hheld =>
    rcases eq_or_ne c d with rfl | hne
    · refine .inr (.of_setCpu (update_self ..) (.inl ?_) (by simp))
      simp [CpuState.owned, hheld]
    · exact .inr (.of_cpus (update_of_ne hne ..))
  | stop d =>
    rcases eq_or_ne c d with rfl | hne
    · exact .inr (.of_setCpu (update_self ..) (.inr rfl) (by simp))
    · exact .inr (.of_cpus (update_of_ne hne ..))
  | forkLink | reparent => exact .inr (.of_cpus rfl)
  | start d hheld | next d _ _ hheld | timer d hheld | noCharge d _ _ _ hheld
  | charge d _ _ _ _ _ hheld =>
    rcases eq_or_ne c d with rfl | hne
    · refine .inr (.of_setCpu (update_self ..) (.inl ?_) (by simp [hheld]))
      simp [CpuState.owned, hheld]
    · exact .inr (.of_cpus (update_of_ne hne ..))

end Dispatches

section Main

variable {d : Fin n}

theorem owner_of_marked (h : (m.cpus c).held = some (i, .marked)) : m.owner c = some i := by
  simp [Machine.owner, CpuState.owned, h]

/-- Outside a switch, a process that a CPU owns is its `c->proc`. -/
theorem proc_of_owner (howner : m.owner c = some i) (h : ¬ Switching m c i) :
    (m.cpus c).proc = some i := by
  unfold Machine.owner CpuState.owned at howner
  split at howner
  · cases howner
    exact absurd (.inl ‹_›) h
  · cases howner
  · exact howner

/-- A CPU owns its `c->proc`, unless it has just stopped it. -/
theorem Dispatched.proc_cases (hm : Dispatched m) (h : (m.cpus c).proc = some i) :
    m.owner c = some i ∨ (m.cpus c).held = some (i, .stopped) := by
  unfold Machine.owner CpuState.owned
  split
  · rename_i slot hmarked
    rw [(hm.cpus c).marked slot hmarked] at h
    cases h
  · rename_i slot hstopped
    have hproc := ((hm.cpus c).stopped slot hstopped).1
    cases h.symm.trans hproc
    exact .inr hstopped
  · exact .inl h

/-- No process is the `c->proc` of two CPUs. -/
theorem Dispatched.proc_unique (hm : Dispatched m) (hc : (m.cpus c).proc = some i)
    (hd : (m.cpus d).proc = some i) : c = d := by
  -- A CPU that has stopped a process keeps its lock until it has cleared `c->proc`, and the
  -- process is not `RUNNING`, so that nobody owns it.
  have hstopped {c d : Fin n} (hc : m.owner c = some i)
      (hd : (m.cpus d).held = some (i, .stopped)) : False :=
    ((hm.cpus d).stopped i hd).2 ((hm.running i).mpr ⟨c, hc⟩)
  rcases hm.proc_cases hc with hc | hc <;> rcases hm.proc_cases hd with hd | hd
  · exact hm.owners c d i hc hd
  · exact (hstopped hc hd).elim
  · exact (hstopped hd hc).elim
  · exact hm.locks c d i (by simp [Machine.lockOf, hc]) (by simp [Machine.lockOf, hd])

/-- Outside a switch of the process, it is `RUNNING` exactly when one CPU has it. -/
theorem Dispatched.running_iff (hm : Dispatched m) (h : ∀ c, ¬ Switching m c i) :
    IsRunning m.procs i ↔ ∃! c, (m.cpus c).proc = some i := by
  refine (hm.running i).trans ⟨?_, ?_⟩
  · rintro ⟨c, hc⟩
    have hproc := proc_of_owner hc (h c)
    exact ⟨c, hproc, fun d hd ↦ hm.proc_unique hd hproc⟩
  · rintro ⟨c, hc, -⟩
    exact ⟨c, (hm.proc_cases hc).resolve_right fun hstopped ↦ h c (.inr hstopped)⟩

/-- The scheduler writes `RUNNING` over `RUNNABLE`. -/
theorem states_of_dispatches (hstep : smpStep b m e = some m') (h : Dispatches m m' c i) :
    m.stateOf i = some .runnable ∧ m'.stateOf i = some .running := by
  obtain ⟨hmarked, hbefore⟩ := h
  rcases dispatches_or_quiet hstep c with ⟨j, hj, hstates⟩ | hquiet
  · cases hmarked.symm.trans hj
    exact hstates
  · rcases hquiet.held with hsame | hnone
    · exact absurd (hsame ▸ hmarked) hbefore
    · exact absurd hmarked (hnone i)

/-- A process becomes `RUNNING` by a dispatch only. -/
theorem Dispatched.dispatches (hm : Dispatched m) (hstep : smpStep b m e = some m')
    (hbefore : ¬ IsRunning m.procs i) (hafter : IsRunning m'.procs i) :
    ∃ c, Dispatches m m' c i := by
  have hnever (c : Fin n) : m.owner c ≠ some i := fun h ↦ hbefore ((hm.running i).mpr ⟨c, h⟩)
  obtain ⟨c, hc⟩ := ((dispatched_step hstep hm).running i).mp hafter
  rcases dispatches_or_quiet hstep c with ⟨j, hj, -⟩ | hquiet
  · cases (owner_of_marked hj).symm.trans hc
    exact ⟨c, hj, fun h ↦ hnever c (owner_of_marked h)⟩
  · rcases hquiet.owner with hsame | hnone
    · exact absurd (hsame ▸ hc) (hnever c)
    · cases hnone.symm.trans hc

end Main

/-- Whatever the CPUs do: no process is on two CPUs; outside a switch of its own, a process is
`RUNNING` exactly when it is the `c->proc` of one CPU; and processes become `RUNNING` by dispatches,
which find them `RUNNABLE`. -/
theorem no_double_dispatch (b : Scheduler) (n : ℕ) {m : Machine n}
    (h : Reachable (smpStep b) (smpBoot b n) m) (i : ℕ) :
    (∀ c d, (m.cpus c).proc = some i → (m.cpus d).proc = some i → c = d) ∧
    ((∀ c, ¬ Switching m c i) →
      (m.stateOf i = some .running ↔ ∃! c, (m.cpus c).proc = some i)) ∧
    ∀ e m', smpStep b m e = some m' →
      (m.stateOf i ≠ some .running → m'.stateOf i = some .running → ∃ c, Dispatches m m' c i) ∧
      ∀ c, Dispatches m m' c i → m.stateOf i = some .runnable ∧ m'.stateOf i = some .running := by
  have hm := dispatched_reachable h
  refine ⟨fun c d hc hd ↦ hm.proc_unique hc hd, fun hswitch ↦ ?_, fun e m' hstep ↦ ⟨?_, ?_⟩⟩
  · rw [stateOf_eq_running]
    exact hm.running_iff hswitch
  · rw [ne_eq, stateOf_eq_running, stateOf_eq_running]
    exact hm.dispatches hstep
  · exact fun c hdispatch ↦ states_of_dispatches hstep hdispatch

/-- The loop of the MLFQ scheduler over the table. -/
def scanLoop (c : Fin n) : List (SmpEvent n) :=
  (List.range nproc).flatMap fun slot ↦ [.acquire c .look slot, .advance c, .advance c]

/-- Both CPUs find the first process best and release its lock; CPU 1 is the first to have the lock
again and switches to it, and then CPU 0 looks at it again. -/
def contended : List (SmpEvent 2) :=
  [.start 0, .start 1] ++ scanLoop 0 ++ scanLoop 1 ++ [.next 0, .next 1,
    .acquire 1 .choose 0, .advance 1, .advance 1, .advance 1, .acquire 0 .choose 0, .advance 0]

def contendedRun : List (Transition (Machine 2) (SmpEvent 2)) × Machine 2 :=
  replay (smpStep .mlfq) (smpBoot .mlfq 2) contended

theorem no_double_dispatch_contendedRun :
    Reachable (smpStep .mlfq) (smpBoot .mlfq 2) contendedRun.2 ∧
    (contendedRun.2.cpus 1).proc = some 0 ∧ (contendedRun.2.cpus 0).scan = .look 1 0 none ∧
    contendedRun.2.stateOf 0 = some .running ∧ ∃! c, (contendedRun.2.cpus c).proc = some 0 := by
  have hreachable : Reachable (smpStep .mlfq) (smpBoot .mlfq 2) contendedRun.2 :=
    ⟨contendedRun.1, path_replay _ _⟩
  have hrunning : contendedRun.2.stateOf 0 = some .running := by decide +kernel
  have hswitch : ∀ c, ¬ Switching contendedRun.2 c 0 := by
    unfold Switching
    decide +kernel
  have h := no_double_dispatch .mlfq 2 hreachable 0
  exact ⟨hreachable, by decide +kernel, by decide +kernel, hrunning, (h.2.1 hswitch).mp hrunning⟩

end Irish.Xv6
