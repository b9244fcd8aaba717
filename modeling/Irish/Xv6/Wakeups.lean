import Irish.Xv6.SlotSteps

/-!
# Sleeping and waking on one CPU

`sleep_prepare` and `sleep` are two critical sections, so that a wakeup, a kill, a preemption or a
boost may fall before, between or after them. `p->chan` remembers the registration: it is cleared by
the wakeup, whether the process has gone to sleep or not, and `sleep` looks at it under the lock. So
a process that has been woken does not sleep before it registers again, a sleeping process still has
the channel of its last registration, and every process that leaves `SLEEPING` has been given the
largest sequence number (`no_lost_wakeup`).
-/

set_option autoImplicit false

namespace Irish.Xv6

open Library

variable {n : ℕ}

/-! ### The sections of a run -/

/-- The section, and its process, whose body a step performs. -/
def performs (m : Machine n) : SmpEvent n → Option (ℕ × Section)
  | .advance c =>
    match (m.cpus c).held with
    | some (slot, .body sec) => some (slot, sec)
    | _ => none
  | _ => none

/-- The channel of the last `sleep_prepare` of the process in a slot, after one more transition. -/
def latestStep (i : ℕ) (latest : Option Chan) (tr : Transition (Machine n) (SmpEvent n)) :
    Option Chan :=
  if tr.target.stateOf i = some .unused then none
  else
    match performs tr.source tr.event with
    | some (slot, .sleepPrepare chan) => if slot = i then some chan else latest
    | _ => latest

def latestPrepare (i : ℕ) (l : List (Transition (Machine n) (SmpEvent n))) : Option Chan :=
  l.foldl (latestStep i) none

section Performs

variable {b : Scheduler} {m m' : Machine n} {e : SmpEvent n} {z : ℕ} {sec : Section} {p p' : Proc}
  {c : Fin n} {chan : Chan}

theorem performs_advance (hheld : (m.cpus c).held = some (z, .body sec)) :
    performs m (.advance c) = some (z, sec) := by
  simp [performs, hheld]

theorem runBody_of_performs (hstep : smpStep b m e = some m') (h : performs m e = some (z, sec)) :
    ∃ c p, m.procs[z]? = some p ∧ m' = runBody b c z p m sec := by
  cases e with
  | advance c =>
    simp only [performs] at h
    split at h
    · rename_i slot sec' hheld
      cases h
      simp only [smpStep, advanceLock, hheld] at hstep
      obtain ⟨p, hp, rfl⟩ := Option.map_eq_some_iff.mp hstep
      exact ⟨c, p, hp, rfl⟩
    · cases h
  | _ => cases h

theorem getElem?_sleepPrepare (hstep : smpStep b m e = some m')
    (h : performs m e = some (z, .sleepPrepare chan)) (hp' : m'.procs[z]? = some p') :
    p'.chan = some chan := by
  obtain ⟨c, p, hp, rfl⟩ := runBody_of_performs hstep h
  have hset : (m.procs.set z { p with chan := some chan })[z]? = some p' := hp'
  cases (getElem?_set_eq hp).symm.trans hset
  rfl

theorem getElem?_wakeup_section (hstep : smpStep b m e = some m')
    (h : performs m e = some (z, .wakeup chan)) (hp' : m'.procs[z]? = some p') :
    ∃ p, m.procs[z]? = some p ∧ p' = (wakeupBody b.build (some chan) p m.seq).1 := by
  obtain ⟨c, p, hp, rfl⟩ := runBody_of_performs hstep h
  have hset : (m.procs.set z (wakeupBody b.build (some chan) p m.seq).1)[z]? = some p' := hp'
  exact ⟨p, hp, Option.some.inj (hset.symm.trans (getElem?_set_eq hp))⟩

end Performs

/-! ### One process -/

/-- A sleeping process is registered, and its time slice starts anew. -/
def SleepOk (p : Proc) : Prop := p.state = .sleeping → p.chan ≠ none ∧ p.mlfqTicksUsed = 0

section Writes

variable {b : Scheduler} {m m' : Machine n} {e : SmpEvent n} {z : ℕ} {p p' : Proc}

/-- The channel of a process changes when the process registers, and is cleared otherwise. -/
theorem SlotWrite.chan_cases (h : SlotWrite b m e m' z p p') :
    p'.chan = p.chan ∨ p'.chan = none ∨
      ∃ chan, performs m e = some (z, .sleepPrepare chan) ∧ p'.chan = some chan := by
  cases h with
  | woken =>
    unfold wakeupBody
    split_ifs
    · refine .inr (.inl ?_)
      cases b <;> rfl
    · exact .inr (.inl rfl)
    · exact .inl rfl
  | killed =>
    refine .inl ?_
    unfold killBody
    split_ifs
    · cases b <;> rfl
    · rfl
    · rfl
  | prepared _ chan he hheld =>
    subst he
    exact .inr (.inr ⟨chan, performs_advance hheld, rfl⟩)
  | created _ _ _ _ _ hchan => exact .inl hchan
  | freed => exact .inr (.inl (by cases b <;> rfl))
  | boosted =>
    refine .inl ?_
    unfold boostBody
    split_ifs <;> rfl
  | left _ _ _ hleave =>
    refine .inl ?_
    unfold leaveBody at hleave
    split at hleave
    · cases hleave
      rfl
    · split_ifs at hleave
      cases b <;> cases hleave <;> rfl
    · cases hleave
      rfl
  | charged =>
    refine .inl ?_
    unfold chargeBody
    split
    · rfl
    · rfl
    · split_ifs <;> rfl
  | _ => exact .inl rfl

/-- The channel of a slot is cleared before the slot is `UNUSED`. -/
theorem SlotWrite.of_unused (h : SlotWrite b m e m' z p p') (hunused : p'.state = .unused) :
    p'.chan = none ∨ (p.state = .unused ∧ p'.chan = p.chan) := by
  cases h with
  | woken =>
    unfold wakeupBody at hunused ⊢
    split_ifs at hunused ⊢ with hchan hstate
    · cases b <;> cases hunused
    · exact .inl rfl
    · exact .inr ⟨hunused, rfl⟩
  | killed =>
    unfold killBody at hunused ⊢
    split_ifs at hunused ⊢ with hpid hstate
    · cases b <;> cases hunused
    · exact .inr ⟨hunused, rfl⟩
    · exact .inr ⟨hunused, rfl⟩
  | prepared _ _ _ _ hrunning => simp [hrunning] at hunused
  | created _ _ hused => simp [hused] at hunused
  | freed => exact .inl (by cases b <;> rfl)
  | published | dispatched => cases hunused
  | boosted =>
    unfold boostBody at hunused ⊢
    split_ifs at hunused ⊢ with hlive
    · exact absurd hunused hlive.1
    · exact .inr ⟨hunused, rfl⟩
  | left _ _ _ hleave =>
    unfold leaveBody at hleave
    split at hleave
    · cases hleave
      cases hunused
    · split_ifs at hleave
      cases b <;> cases hleave <;> cases hunused
    · cases hleave
      cases hunused
  | charged preempted _ hrunning =>
    have hsame := (sameControl_chargeBody b m.ticks preempted p m.seq).1.mpr hrunning
    cases hsame.symm.trans hunused
  | _ => exact .inr ⟨hunused, rfl⟩

theorem SlotWrite.sleepOk (h : SlotWrite .mlfq m e m' z p p') (hp : SleepOk p) : SleepOk p' := by
  intro hsleeping
  cases h with
  | woken =>
    unfold wakeupBody at hsleeping ⊢
    split_ifs at hsleeping ⊢ with hchan hstate
    · cases hsleeping
    · exact absurd hsleeping hstate
    · exact hp hsleeping
  | killed =>
    unfold killBody at hsleeping ⊢
    split_ifs at hsleeping ⊢ with hpid hstate
    · cases hsleeping
    · exact hp hsleeping
    · exact hp hsleeping
  | prepared => exact ⟨by simp, (hp hsleeping).2⟩
  | created _ _ hused => simp [hused] at hsleeping
  | freed | published | dispatched => cases hsleeping
  | boosted =>
    unfold boostBody at hsleeping ⊢
    split_ifs at hsleeping ⊢
    · exact ⟨(hp hsleeping).1, rfl⟩
    · exact hp hsleeping
  | left _ _ _ hleave =>
    unfold leaveBody at hleave
    split at hleave
    · cases hleave
      cases hsleeping
    · split_ifs at hleave with hchan
      cases hleave
      exact ⟨hchan, rfl⟩
    · cases hleave
      cases hsleeping
  | charged preempted _ hrunning =>
    have hsame := (sameControl_chargeBody .mlfq m.ticks preempted p m.seq).1.mpr hrunning
    cases hsame.symm.trans hsleeping
  | _ => exact hp hsleeping

/-- What a wakeup or a kill does to a process that sleeps. -/
theorem SlotWrite.of_sleeping (h : SlotWrite .mlfq m e m' z p p') (hsleeping : p.state = .sleeping)
    (hrunnable : p'.state = .runnable) :
    p'.mlfqQueue = p.mlfqQueue ∧ p'.mlfqTicksUsed = p.mlfqTicksUsed ∧
      p'.mlfqEnterSeq = m.seq + 1 ∧ m'.procs = m.procs.set z p' := by
  cases h with
  | woken _ _ _ _ hprocs =>
    refine and_assoc.mp (and_assoc.mp ⟨?_, hprocs⟩)
    unfold wakeupBody at hrunnable ⊢
    split_ifs at hrunnable ⊢
    · exact ⟨⟨rfl, rfl⟩, rfl⟩
    · simp [hsleeping] at hrunnable
  | killed _ hprocs =>
    refine and_assoc.mp (and_assoc.mp ⟨?_, hprocs⟩)
    unfold killBody at hrunnable ⊢
    split_ifs at hrunnable ⊢
    · exact ⟨⟨rfl, rfl⟩, rfl⟩
    · simp [hsleeping] at hrunnable
  | created _ hunused => simp [hsleeping] at hunused
  | freed | dispatched => cases hrunnable
  | published hused => simp [hsleeping] at hused
  | boosted =>
    unfold boostBody at hrunnable
    split_ifs at hrunnable <;> simp [stampProc, hsleeping] at hrunnable
  | left _ _ hrunning | charged _ _ hrunning => simp [hsleeping] at hrunning
  | _ => simp [hsleeping] at hrunnable

end Writes

/-! ### The sequence numbers -/

/-- No sequence number is larger than the last one drawn. -/
def SeqsBounded (procs : List Proc) (seq : ℕ) : Prop := ∀ p ∈ procs, p.mlfqEnterSeq ≤ seq

/-- The body of a loop over the table draws its number from the counter. -/
def Draws (p : Proc) (seq : ℕ) (r : Proc × ℕ) : Prop :=
  seq ≤ r.2 ∧ (r.1.mlfqEnterSeq ≤ p.mlfqEnterSeq ∨ r.1.mlfqEnterSeq ≤ r.2)

section Seqs

variable {procs : List Proc} {i seq ticks : ℕ} {p p' : Proc} {r : Proc × ℕ} {f : Proc → Proc}
  {why : Leave}

theorem SeqsBounded.set_draws (h : SeqsBounded procs seq) (hp : procs[i]? = some p)
    (hdraws : Draws p seq r) : SeqsBounded (procs.set i r.1) r.2 := by
  obtain ⟨hseq, hstamp⟩ := hdraws
  intro q hq
  rcases List.mem_or_eq_of_mem_set hq with hq | rfl
  · exact (h q hq).trans hseq
  · rcases hstamp with hold | hnew
    · exact hold.trans ((h p (List.mem_of_getElem? hp)).trans hseq)
    · exact hnew

theorem SeqsBounded.set {p' : Proc} (h : SeqsBounded procs seq) (hp : procs[i]? = some p)
    (hstamp : p'.mlfqEnterSeq ≤ p.mlfqEnterSeq) : SeqsBounded (procs.set i p') seq :=
  h.set_draws (r := (p', seq)) hp ⟨le_refl _, .inl hstamp⟩

theorem SeqsBounded.modify (h : SeqsBounded procs seq)
    (hf : ∀ p, (f p).mlfqEnterSeq = p.mlfqEnterSeq) : SeqsBounded (procs.modify i f) seq := by
  cases hp : procs[i]? with
  | none => rwa [List.modify_eq_self (List.getElem?_eq_none_iff.mp hp)]
  | some p =>
    rw [modify_eq_set hp]
    exact h.set hp (hf p).le

theorem draws_stampProc (p q : Proc) (seq : ℕ) : Draws p seq (stampProc q seq) :=
  ⟨Nat.le_succ seq, .inr (le_refl _)⟩

theorem draws_wakeupBody (chan : Option Chan) (p : Proc) (seq : ℕ) :
    Draws p seq (wakeupBody .mlfq chan p seq) := by
  unfold wakeupBody
  split_ifs
  · exact draws_stampProc _ _ _
  · exact ⟨le_refl _, .inl (le_refl _)⟩
  · exact ⟨le_refl _, .inl (le_refl _)⟩

theorem draws_killBody (pid : ℤ) (p : Proc) (seq : ℕ) : Draws p seq (killBody .mlfq pid p seq) := by
  unfold killBody
  split_ifs
  · exact draws_stampProc _ _ _
  · exact ⟨le_refl _, .inl (le_refl _)⟩
  · exact ⟨le_refl _, .inl (le_refl _)⟩

theorem draws_boostBody (p : Proc) (seq : ℕ) : Draws p seq (boostBody p seq) := by
  unfold boostBody
  split_ifs
  · exact draws_stampProc _ _ _
  · exact ⟨le_refl _, .inl (le_refl _)⟩

theorem draws_allocBody (mem : Memory) (ticks : ℕ) (pid : ℤ) (p : Proc) (seq : ℕ) :
    Draws p seq ((allocBody .mlfq mem ticks pid p seq).1,
      (allocBody .mlfq mem ticks pid p seq).2.1) := by
  unfold allocBody
  dsimp only
  split_ifs
  · exact ⟨le_refl _, .inl (Nat.zero_le _)⟩
  · exact ⟨le_refl _, .inl (Nat.zero_le _)⟩
  · exact ⟨Nat.le_succ seq, .inl (Nat.zero_le _)⟩
  · exact draws_stampProc _ _ _

theorem draws_chargeBody (ticks : ℕ) (preempted : Bool) (p : Proc) (seq : ℕ) :
    Draws p seq ((chargeBody .mlfq ticks preempted p seq).1,
      (chargeBody .mlfq ticks preempted p seq).2.1) := by
  unfold chargeBody
  dsimp only
  split_ifs
  · exact draws_stampProc _ _ _
  · exact ⟨le_refl _, .inl (le_refl _)⟩

theorem leaveBody_stamp (h : leaveBody .mlfq ticks why p = some p') :
    p'.mlfqEnterSeq = p.mlfqEnterSeq := by
  unfold leaveBody at h
  split at h
  · cases h
    rfl
  · split_ifs at h
    cases h
    rfl
  · cases h
    rfl

end Seqs

section SeqSteps

variable {m m' : Machine n} {c : Fin n} {slot : ℕ} {p : Proc} {e : SmpEvent n} {b : Scheduler}

theorem SeqsBounded.setStage (h : SeqsBounded m.procs m.seq) (c : Fin n) (stage : ForkStage) :
    SeqsBounded (m.setStage c stage).procs (m.setStage c stage).seq := by
  unfold Machine.setStage
  split
  · exact h
  · exact h.modify fun _ ↦ rfl

theorem SeqsBounded.mark (h : SeqsBounded m.procs m.seq) (hp : m.procs[slot]? = some p) :
    SeqsBounded (mark b c slot p m).procs (mark b c slot p m).seq :=
  h.set hp (le_refl _)

theorem seqsBounded_runBody (sec : Section) (h : SeqsBounded m.procs m.seq)
    (hp : m.procs[slot]? = some p) :
    SeqsBounded (runBody .mlfq c slot p m sec).procs (runBody .mlfq c slot p m sec).seq := by
  cases sec with
  | wakeup => exact h.set_draws hp (draws_wakeupBody _ p _)
  | kill pid => exact h.set_draws hp (draws_killBody pid p _)
  | setkilled | sleepPrepare => exact h.set hp (le_refl _)
  | alloc mem =>
    have hset := h.set_draws hp (draws_allocBody mem m.ticks m.nextpid p m.seq)
    simp only [runBody]
    split_ifs
    · exact SeqsBounded.setStage (m := { m.setProc slot _ with seq := _, nextpid := _ }) hset c _
    · exact hset
    · exact h
  | publish =>
    have hset : SeqsBounded (m.procs.set slot { p with state := .runnable }) m.seq :=
      h.set hp (le_refl _)
    exact SeqsBounded.setStage (m := m.setProc slot _) hset c _
  | reap =>
    refine h.set hp ?_
    unfold reapBody
    split_ifs
    · exact Nat.zero_le _
    · exact le_refl _
  | boost => exact h.set_draws hp (draws_boostBody p _)
  | look =>
    simp only [runBody, lookBody]
    split
    · split
      · exact h.mark hp
      · exact h
    · exact h
  | choose =>
    simp only [runBody, chooseBody]
    split
    · split_ifs
      · exact h.mark hp
      · exact h
    · exact h
  | leave =>
    simp only [runBody]
    split
    · exact h
    · exact h.set hp (leaveBody_stamp ‹_›).le

theorem seqsBounded_step (hstep : smpStep .mlfq m e = some m') (h : SeqsBounded m.procs m.seq) :
    SeqsBounded m'.procs m'.seq := by
  cases moves_of_smpStep hstep with
  | body _ _ sec _ _ hp => exact seqsBounded_runBody sec h hp
  | charge _ _ _ _ p _ _ _ hp => exact h.set_draws hp (draws_chargeBody _ _ p _)
  | forkLink =>
    refine SeqsBounded.modify (SeqsBounded.modify h ?_) ?_
    · exact fun _ ↦ rfl
    · exact fun _ ↦ rfl
  | reparent => exact h.modify fun _ ↦ rfl
  | _ => exact h

end SeqSteps

/-! ### Whole runs -/

/-- What holds of a process on a run: it sleeps only while it is registered, on the channel of its
last registration. -/
structure Registered (latest : Option Chan) (p : Proc) : Prop where
  sleepOk : SleepOk p
  chan : p.chan = none ∨ p.chan = latest
  unused : p.state = .unused → p.chan = none

section Runs

variable {m m' : Machine n} {l l₁ l₂ l₃ : List (Transition (Machine n) (SmpEvent n))}
  {e : SmpEvent n} {i : ℕ} {p p' : Proc} {latest : Option Chan} {chan : Chan}
  {tr₁ tr₂ : Transition (Machine n) (SmpEvent n)}

theorem latestStep_of_prepares (h : performs m e = some (i, .sleepPrepare chan))
    (hused : m'.stateOf i ≠ some .unused) : latestStep i latest ⟨m, e, m'⟩ = some chan := by
  simp [latestStep, hused, h]

theorem latestStep_of_not_prepares (h : ∀ chan, performs m e ≠ some (i, .sleepPrepare chan))
    (hused : m'.stateOf i ≠ some .unused) : latestStep i latest ⟨m, e, m'⟩ = latest := by
  unfold latestStep
  rw [if_neg hused]
  split
  · rename_i slot chan hperforms
    refine if_neg ?_
    rintro rfl
    exact h chan hperforms
  · rfl

theorem registered_step (hstep : smpStep .mlfq m e = some m')
    (hwrite : SlotWrite .mlfq m e m' i p p') (hp' : m'.procs[i]? = some p')
    (h : Registered latest p) : Registered (latestStep i latest ⟨m, e, m'⟩) p' := by
  have hunused : p'.state = .unused → p'.chan = none := by
    intro hstate
    rcases hwrite.of_unused hstate with hnone | ⟨hold, hsame⟩
    · exact hnone
    · exact hsame.trans (h.unused hold)
  refine ⟨hwrite.sleepOk h.sleepOk, ?_, hunused⟩
  by_cases hstate : p'.state = .unused
  · exact .inl (hunused hstate)
  have hused : m'.stateOf i ≠ some .unused := by simp [Machine.stateOf, hp', hstate]
  by_cases hprepares : ∃ chan, performs m e = some (i, .sleepPrepare chan)
  · obtain ⟨chan, hchan⟩ := hprepares
    rw [latestStep_of_prepares hchan hused]
    exact .inr (getElem?_sleepPrepare hstep hchan hp')
  · rw [latestStep_of_not_prepares (not_exists.mp hprepares) hused]
    rcases hwrite.chan_cases with hsame | hnone | ⟨chan, hchan, -⟩
    · rw [hsame]
      exact h.chan
    · exact .inl hnone
    · exact absurd ⟨chan, hchan⟩ hprepares

theorem registered_of_path (hpath : Path (smpStep .mlfq) (smpBoot .mlfq n) l m)
    (hp : m.procs[i]? = some p) : Registered (latestPrepare i l) p := by
  have hrun := hpath.history_rule (J := fun l m ↦ ∀ p, m.procs[i]? = some p →
    Registered (latestPrepare i l) p) ?_ ?_
  · exact hrun p hp
  · have hboot : ∀ q ∈ (boot .mlfq).procs, q.state ≠ .sleeping ∧ q.chan = none := by
      decide +kernel
    intro q hq
    obtain ⟨hstate, hchan⟩ := hboot q (List.mem_of_getElem? hq)
    exact ⟨fun hsleeping ↦ absurd hsleeping hstate, .inl hchan, fun _ ↦ hchan⟩
  · intro l m e m' hl hstep ih q hq
    obtain ⟨p, hp, hwrite⟩ := slotWrite_step (dispatched_reachable ⟨l, hl⟩) hstep hq
    have hlast : latestPrepare i (l ++ [⟨m, e, m'⟩]) =
        latestStep i (latestPrepare i l) ⟨m, e, m'⟩ := by
      simp [latestPrepare]
    rw [hlast]
    exact registered_step hstep hwrite hq (ih p hp)

theorem seqsBounded_of_path (hpath : Path (smpStep .mlfq) (smpBoot .mlfq n) l m) :
    SeqsBounded m.procs m.seq := by
  have hboot : SeqsBounded (boot .mlfq).procs (boot .mlfq).mlfqGlobalSeq := by
    unfold SeqsBounded
    decide +kernel
  exact hpath.preserves (I := fun m ↦ SeqsBounded m.procs m.seq)
    (fun _ _ _ hstep h ↦ seqsBounded_step hstep h) hboot

/-- Without a registration of the process, its channel is cleared or stays. -/
theorem chan_of_path {chan : Option Chan}
    (hreachable : Reachable (smpStep .mlfq) (smpBoot .mlfq n) m)
    (hpath : Path (smpStep .mlfq) m l m')
    (hquiet : ∀ tr ∈ l, ∀ c, performs tr.source tr.event ≠ some (i, .sleepPrepare c))
    (hchan : ∀ p, m.procs[i]? = some p → p.chan = none ∨ p.chan = chan)
    (hp' : m'.procs[i]? = some p') : p'.chan = none ∨ p'.chan = chan := by
  have hrun := hpath.preserves_of (Q := fun m e ↦ ∀ c, performs m e ≠ some (i, .sleepPrepare c))
    (I := fun m ↦ Dispatched m ∧ ∀ p, m.procs[i]? = some p → p.chan = none ∨ p.chan = chan)
    ?_ hquiet ⟨dispatched_reachable hreachable, hchan⟩
  · exact hrun.2 p' hp'
  · rintro s e t hstep hnot ⟨hs, hold⟩
    refine ⟨dispatched_step hstep hs, fun q hq ↦ ?_⟩
    obtain ⟨p, hp, hwrite⟩ := slotWrite_step hs hstep hq
    rcases hwrite.chan_cases with hsame | hnone | ⟨c, hprepares, -⟩
    · rw [hsame]
      exact hold p hp
    · exact .inl hnone
    · exact absurd hprepares (hnot c)

/-- The visit of `wakeup` clears the channel, whether the process sleeps already or not. -/
theorem chan_wakeup_section (hstep : smpStep .mlfq m e = some m')
    (hperforms : performs m e = some (i, .wakeup chan))
    (hchan : ∀ p, m.procs[i]? = some p → p.chan = none ∨ p.chan = some chan)
    (hp' : m'.procs[i]? = some p') : p'.chan = none := by
  obtain ⟨p, hp, rfl⟩ := getElem?_wakeup_section hstep hperforms hp'
  unfold wakeupBody
  split_ifs with hsame hsleeping
  · rfl
  · rfl
  · exact (hchan p hp).resolve_right hsame

/-- From a wakeup after a registration to the next registration, the process is awake. -/
theorem awake_of_path
    (hpath : Path (smpStep .mlfq) (smpBoot .mlfq n) (l₁ ++ tr₁ :: (l₂ ++ tr₂ :: l₃)) m)
    (hprepares : performs tr₁.source tr₁.event = some (i, .sleepPrepare chan))
    (hwakes : performs tr₂.source tr₂.event = some (i, .wakeup chan))
    (hquiet : ∀ tr ∈ l₂ ++ l₃, ∀ c, performs tr.source tr.event ≠ some (i, .sleepPrepare c))
    (hp : m.procs[i]? = some p) : p.state ≠ .sleeping := by
  obtain ⟨h₁, hstep₁, hrest⟩ := hpath.split_cons
  obtain ⟨h₂, hstep₂, h₃⟩ := hrest.split_cons
  have hreach₁ : Reachable (smpStep .mlfq) (smpBoot .mlfq n) tr₁.target :=
    ⟨_, h₁.append (.single hstep₁)⟩
  have hreach₂ := (hreach₁.trans_path h₂).trans_path (.single hstep₂)
  have hregistered (q : Proc) (hq : tr₂.source.procs[i]? = some q) :
      q.chan = none ∨ q.chan = some chan := by
    refine chan_of_path hreach₁ h₂ (fun tr htr ↦ hquiet tr (List.mem_append_left _ htr)) ?_ hq
    exact fun r hr ↦ .inr (getElem?_sleepPrepare hstep₁ hprepares hr)
  have hcleared : p.chan = none := by
    refine or_self_iff.mp (chan_of_path hreach₂ h₃
      (fun tr htr ↦ hquiet tr (List.mem_append_right _ htr)) ?_ hp)
    exact fun r hr ↦ .inl (chan_wakeup_section hstep₂ hwakes hregistered hr)
  intro hsleeping
  exact ((registered_of_path hpath hp).sleepOk hsleeping).1 hcleared

end Runs

/-- On one CPU, whatever interrupts, wakeups, kills and boosts come in between: a process whose
`wakeup` has come since it registered does not sleep before it registers again; a sleeping process
is registered, on the channel of its last `sleep_prepare`; and a process that leaves `SLEEPING` for
`RUNNABLE` joins the tail of its queue with a new time slice. -/
theorem no_lost_wakeup {m : Machine 1} {l : List (Transition (Machine 1) (SmpEvent 1))}
    (hpath : Path (smpStep .mlfq) (smpBoot .mlfq 1) l m) (i : ℕ) :
    (∀ chan l₁ tr₁ l₂ tr₂ l₃, l = l₁ ++ tr₁ :: (l₂ ++ tr₂ :: l₃) →
      performs tr₁.source tr₁.event = some (i, .sleepPrepare chan) →
      performs tr₂.source tr₂.event = some (i, .wakeup chan) →
      (∀ tr ∈ l₂ ++ l₃, ∀ c, performs tr.source tr.event ≠ some (i, .sleepPrepare c)) →
      m.stateOf i ≠ some .sleeping) ∧
    (∀ p, m.procs[i]? = some p → p.state = .sleeping →
      p.chan ≠ none ∧ p.chan = latestPrepare i l) ∧
    (∀ e m', smpStep .mlfq m e = some m' → ∀ p p', m.procs[i]? = some p →
      m'.procs[i]? = some p' → p.state = .sleeping → p'.state = .runnable →
      p'.mlfqQueue = p.mlfqQueue ∧ p'.mlfqTicksUsed = 0 ∧
      ∀ j q, j ≠ i → m'.procs[j]? = some q → q.mlfqEnterSeq < p'.mlfqEnterSeq) := by
  refine ⟨?_, fun p hp hsleeping ↦ ?_, fun e m' hstep p p' hp hp' hsleeping hrunnable ↦ ?_⟩
  · rintro chan l₁ tr₁ l₂ tr₂ l₃ rfl hprepares hwakes hquiet hsleeping
    obtain ⟨p, hp, hstate⟩ := Option.map_eq_some_iff.mp hsleeping
    exact awake_of_path hpath hprepares hwakes hquiet hp hstate
  · have hregistered := registered_of_path hpath hp
    have hchan := (hregistered.sleepOk hsleeping).1
    exact ⟨hchan, hregistered.chan.resolve_left hchan⟩
  · obtain ⟨p₀, hp₀, hwrite⟩ := slotWrite_step (dispatched_reachable ⟨l, hpath⟩) hstep hp'
    cases hp.symm.trans hp₀
    obtain ⟨hqueue, hticks, hseq, hprocs⟩ := hwrite.of_sleeping hsleeping hrunnable
    have hslice := ((registered_of_path hpath hp).sleepOk hsleeping).2
    refine ⟨hqueue, hticks.trans hslice, fun j q hj hq ↦ ?_⟩
    rw [hprocs, List.getElem?_set_ne (Ne.symm hj)] at hq
    have hbound := seqsBounded_of_path hpath q (List.mem_of_getElem? hq)
    omega

/-- The first process registers for the tick counter and goes to sleep. -/
def sleepEvents (c : Fin n) : List (SmpEvent n) :=
  [.start c] ++ scanLoop c ++ [.next c, .acquire c .choose 0, .advance c, .advance c, .advance c] ++
  [.acquire c (.sleepPrepare .ticks) 0, .advance c, .advance c] ++
  [.acquire c (.leave .sleep) 0, .advance c, .advance c, .advance c]

/-- The timer interrupt comes to wake it. -/
def sleepRun (c : Fin 1) : List (Transition (Machine 1) (SmpEvent 1)) × Machine 1 :=
  replay (smpStep .mlfq) (smpBoot .mlfq 1)
    (sleepEvents c ++ [.timer c, .acquire c (.wakeup .ticks) 0])

theorem no_lost_wakeup_sleepRun :
    (∀ p, (sleepRun 0).2.procs[0]? = some p → p.chan = latestPrepare 0 (sleepRun 0).1) ∧
    latestPrepare 0 (sleepRun 0).1 = some .ticks ∧
    ∃ m' p', smpStep .mlfq (sleepRun 0).2 (.advance 0) = some m' ∧ m'.procs[0]? = some p' ∧
      p'.state = .runnable ∧ p'.mlfqTicksUsed = 0 := by
  have hpath : Path (smpStep .mlfq) (smpBoot .mlfq 1) (sleepRun 0).1 (sleepRun 0).2 :=
    path_replay _ _
  obtain ⟨-, hchan, hwoken⟩ := no_lost_wakeup hpath 0
  have hstate : ((sleepRun 0).2.procs[0]?).map (·.state) = some .sleeping := by decide +kernel
  obtain ⟨p, hp, hsleeping⟩ := Option.map_eq_some_iff.mp hstate
  have hnext : ((smpStep .mlfq (sleepRun 0).2 (.advance 0)).bind fun m' ↦
      m'.procs[0]?.map (·.state)) = some .runnable := by decide +kernel
  obtain ⟨m', hstep, hmap⟩ := Option.bind_eq_some_iff.mp hnext
  obtain ⟨p', hp', hrunnable⟩ := Option.map_eq_some_iff.mp hmap
  refine ⟨fun q hq ↦ ?_, by decide +kernel, m', p', hstep, hp', hrunnable, ?_⟩
  · cases hp.symm.trans hq
    exact (hchan p hp hsleeping).2
  · exact (hwoken _ m' hstep p p' hp hp' hsleeping hrunnable).2.1

end Irish.Xv6
