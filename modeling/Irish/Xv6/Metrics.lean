import Irish.Xv6.Mlfq

/-!
# The times that `kwaitx` reports

`kwaitx` computes the waiting time, the running time and the response time of a child it reaps from
four stamps: `ctime` (`allocproc`), `stime` (the first dispatch), `rtime` (each charged tick) and
`etime` (`kexit`). The subtractions are of 32-bit unsigned numbers and saturate.

On one CPU a process is charged at most one tick for each tick that the clock advances while it
runs, and it first runs at `stime`. `Life` says so about one slot at any moment of a run, and
`life_step` keeps it; the tick of the first dispatch is computed from the transitions of the run
(`firstDispatch`), independently of the field `stime`.
-/

set_option autoImplicit false

namespace Irish.Xv6

open Library

/-! ### `kwaitx` -/

/-- The three values that `kwaitx` copies out. -/
structure Metrics where
  wtime : ℕ
  rtime : ℕ
  response : ℕ
deriving DecidableEq, Repr

/-- The metrics of an exited child, in the arithmetic of `uint` and `int`. -/
def metricsOf (pp : Proc) : Metrics :=
  let totalTime := if pp.etime ≥ pp.ctime then pp.etime - pp.ctime else 0
  let rtime := pp.rtime
  { wtime := if totalTime > rtime then totalTime - rtime else 0
    rtime := rtime
    response :=
      if pp.stime ≥ Int.bmod pp.ctime uintSize then ((pp.stime - pp.ctime) % uintSize).toNat
      else 0 }

/-- Whether the copies of `kwaitx` to user memory succeed, or are not asked for. -/
structure CopyOut where
  status : Bool
  wtime : Bool
  rtime : Bool
  response : Bool
deriving DecidableEq, Repr

def CopyOut.all (c : CopyOut) : Bool := c.status && c.wtime && c.rtime && c.response

/-- What `kwaitx` returns when it reaps a child. -/
structure Reaped where
  slot : ℕ
  pid : ℤ
  metrics : Metrics
deriving DecidableEq, Repr

/-- One scan of `kwaitx` under `wait_lock`. -/
def kwaitx (b : Build) (c : CopyOut) (i : ℕ) (p : Proc) (k : Kernel) : Option Reaped × Kernel :=
  match k.procs.findIdx? (fun pp ↦ pp.parent = some i ∧ pp.state = .zombie) with
  | some z =>
    match k.procs[z]? with
    | none => (none, k)
    | some pp =>
      if c.status = false then (none, k)
      else if c.wtime = false then (none, k)
      else if c.rtime = false then (none, k)
      else if c.response = false then (none, k)
      else (some ⟨z, pp.pid, metricsOf pp⟩,
        freeproc b z (k.modify z fun pp ↦ { pp with parent := none }))
  | none =>
    if (k.procs.any fun pp ↦ pp.parent = some i) = false ∨ p.killed then (none, k)
    else (none, sleepPrepare (.proc i) i k)

/-- On the kernel `kwaitx` acts as `kwait` does, so the event `wait` stands for both. -/
theorem kwaitx_snd (b : Build) (c : CopyOut) (i : ℕ) (p : Proc) (k : Kernel) :
    (kwaitx b c i p k).2 = kwait b c.all i p k := by
  unfold kwaitx kwait
  cases hz : k.procs.findIdx? (fun pp ↦ pp.parent = some i ∧ pp.state = .zombie) with
  | some =>
    obtain ⟨pp, hpp, -⟩ := getElem?_of_findIdx? hz
    obtain ⟨status, wtime, rtime, response⟩ := c
    dsimp only
    rw [hpp]
    cases status <;> cases wtime <;> cases rtime <;> cases response <;> rfl
  | none =>
    dsimp only
    split_ifs <;> rfl

variable {b : Build} {c : CopyOut} {i z now : ℕ} {p q p' p₁ : Proc} {k k' : Kernel} {r : Reaped}
  {f : Proc → Proc} {procs procs' : List Proc} {first : Option ℕ} {e : Event}
  {l : List (Transition Kernel Event)}

theorem kwaitx_reaped (h : (kwaitx b c i p k).1 = some r) :
    ∃ pp, k.procs[r.slot]? = some pp ∧ pp.parent = some i ∧ pp.state = .zombie ∧
      r.pid = pp.pid ∧ r.metrics = metricsOf pp := by
  unfold kwaitx at h
  split at h
  · rename_i z hz
    obtain ⟨pp, hpp, hchild⟩ := getElem?_of_findIdx? hz
    simp only [decide_eq_true_eq] at hchild
    rw [hpp] at h
    dsimp only at h
    split_ifs at h
    cases h
    exact ⟨pp, hpp, hchild.1, hchild.2, rfl, rfl⟩
  · split_ifs at h

/-! ### What a section does to the stamps of a slot -/

/-- The writes that neither touch the stamps of a process nor begin or end its life. -/
structure SameStamps (p p' : Proc) : Prop where
  pid : p'.pid = p.pid
  ctime : p'.ctime = p.ctime
  stime : p'.stime = p.stime
  etime : p'.etime = p.etime
  rtime : p'.rtime = p.rtime
  unused : p'.state = .unused ↔ p.state = .unused
  zombie : p'.state = .zombie ↔ p.state = .zombie
  running : p'.state = .running → p.state = .running

instance : Std.Refl SameStamps := ⟨fun _ ↦ ⟨rfl, rfl, rfl, rfl, rfl, Iff.rfl, Iff.rfl, id⟩⟩

theorem SameStamps.refl (p : Proc) : SameStamps p p := Std.Refl.refl p

instance : IsTrans Proc SameStamps where
  trans _ _ _ h h' :=
    ⟨h'.pid.trans h.pid, h'.ctime.trans h.ctime, h'.stime.trans h.stime, h'.etime.trans h.etime,
      h'.rtime.trans h.rtime, h'.unused.trans h.unused, h'.zombie.trans h.zombie,
      fun hr ↦ h.running (h'.running hr)⟩

theorem SameStamps.trans {r : Proc} (h : SameStamps p q) (h' : SameStamps q r) :
    SameStamps p r := IsTrans.trans p q r h h'

theorem Woken.sameStamps (h : Woken p p') : SameStamps p p' := by
  refine ⟨h.pid, h.ctime, h.stime, h.etime, h.rtime, ?_, ?_, ?_⟩ <;>
    rcases h.state with hs | ⟨hs, hs'⟩ <;> simp_all

/-- Every slot keeps its stamps. -/
abbrev KeepsStamps (procs procs' : List Proc) : Prop := List.Forall₂ SameStamps procs procs'

theorem Rewrites.stamps {k k' : Kernel} (h : Rewrites Woken k k') : KeepsStamps k.procs k'.procs :=
  h.procs.imp fun _ _ hp ↦ hp.sameStamps

theorem Rewrites.stamps_of_nudged (h : Rewrites Nudged k k') : KeepsStamps k.procs k'.procs :=
  h.procs.imp fun _ _ hp ↦ hp.toWoken.sameStamps

theorem keepsStamps_modify (hsame : ∀ p, SameStamps p (f p)) (procs : List Proc) (i : ℕ) :
    KeepsStamps procs (procs.modify i f) :=
  forall₂_modify fun p _ ↦ hsame p

/-- The tables after a write to one slot that is followed by writes that keep the stamps. -/
theorem stamps_of_set (h : KeepsStamps (procs.set i p₁) procs') (hz : procs'[z]? = some p') :
    (z = i ∧ SameStamps p₁ p') ∨ (z ≠ i ∧ ∃ q, procs[z]? = some q ∧ SameStamps q p') := by
  obtain ⟨q, hq, hsame⟩ := exists_of_forall₂ h hz
  rcases getElem?_set_cases hq with ⟨rfl, rfl⟩ | ⟨hzi, hq⟩
  · exact .inl ⟨rfl, hsame⟩
  · exact .inr ⟨hzi, q, hq, hsame⟩

/-- A running process is charged for a tick. -/
structure Charged (p p' : Proc) : Prop where
  running : p.state = .running
  unused : p'.state ≠ .unused
  zombie : p'.state ≠ .zombie
  pid : p'.pid = p.pid
  ctime : p'.ctime = p.ctime
  stime : p'.stime = p.stime
  rtime : p'.rtime = (p.rtime + 1) % uintSize

theorem Charges.charged {p p' : Proc} (h : Charges p p') (hrun : p.state = .running) :
    Charged p p' := by
  refine ⟨hrun, ?_, ?_, h.pid, h.ctime, h.stime, h.rtime⟩ <;>
    rcases h.state with hs | hs <;> simp [hs, hrun]

/-- The charge of a tick touches the stamps of the running process only, and of these `rtime`. -/
theorem Charge.stamps {k k' : Kernel} (hcharge : Charge k k') (h : Control k.procs k.cur) {z : ℕ}
    {p' : Proc} (hz : k'.procs[z]? = some p') :
    ∃ p, k.procs[z]? = some p ∧ (SameStamps p p' ∨ Charged p p') := by
  cases hcharge with
  | none => exact ⟨p', hz, .inl (.refl p')⟩
  | keeps i _ p p₁ hcur hp hcharges | yields i _ p p₁ hcur hp hcharges =>
    rcases getElem?_set_cases hz with ⟨rfl, rfl⟩ | ⟨-, hz⟩
    · exact ⟨p, hp, .inr (hcharges.charged ((h.running _ p hp).mpr hcur))⟩
    · exact ⟨p', hz, .inl (.refl p')⟩

/-- What a step can do to the stamps of the process in slot `z`. -/
inductive Stamped (k k' : Kernel) (e : Event) (z : ℕ) (p p' : Proc) : Prop
  | same (hsame : SameStamps p p') (hother : e = .dispatch → k'.cur ≠ some z)
  | freed (hstate : p'.state = .unused)
  | created (hevent : e ≠ .dispatch) (hold : p.state = .unused) (hunused : p'.state ≠ .unused)
      (hzombie : p'.state ≠ .zombie) (hrunning : p'.state ≠ .running)
      (hctime : p'.ctime = k.ticks) (hstime : p'.stime = -1) (hrtime : p'.rtime = 0)
      (hpid : p'.pid = k.nextpid) (hnext : k'.nextpid = k.nextpid + 1)
      (hslot : k.procs.findIdx? (fun p ↦ p.state = .unused) = some z)
  | dispatched (hevent : e = .dispatch) (hcur : k'.cur = some z) (hold : p.state = .runnable)
      (hp' : p' = { p with
        stime := if p.stime = -1 then ticksAsInt k else p.stime, state := .running })
  | exited (hevent : e ≠ .dispatch) (hold : p.state = .running) (hnew : p'.state = .zombie)
      (hctime : p'.ctime = p.ctime) (hstime : p'.stime = p.stime) (hetime : p'.etime = k.ticks)
      (hrtime : p'.rtime = p.rtime) (hpid : p'.pid = p.pid)
  | charged (hevent : e.isTimer = true) (hcharge : Charged p p')

section Steps

variable {m : Kernel} {e : Event} {np : ℕ} {mode : Mode} {status : ℤ} {copyout : Bool}

theorem stamped_of_keeps (h : KeepsStamps k.procs k'.procs) (he : e = .dispatch → k'.cur ≠ some z)
    (hz : k'.procs[z]? = some p') : ∃ p, k.procs[z]? = some p ∧ Stamped k k' e z p p' := by
  obtain ⟨p, hp, hsame⟩ := exists_of_forall₂ h hz
  exact ⟨p, hp, .same hsame he⟩

theorem stamped_timer (h : Control k.procs k.cur) (hz : (timerTrap b mode k).procs[z]? = some p') :
    ∃ p, k.procs[z]? = some p ∧ Stamped k (timerTrap b mode k) (.timer mode) z p p' := by
  obtain ⟨q, hq, hcases⟩ := (chargeTick_cases b mode _).stamps (control_clockintr h) hz
  obtain ⟨p, hp, hsame⟩ := exists_of_forall₂ (nudges_clockintr b k).stamps_of_nudged hq
  refine ⟨p, hp, ?_⟩
  rcases hcases with hsame' | hcharge
  · exact .same (hsame.trans hsame') nofun
  · exact .charged rfl ⟨hsame.running hcharge.running, hcharge.unused, hcharge.zombie,
      hcharge.pid.trans hsame.pid, hcharge.ctime.trans hsame.ctime,
      hcharge.stime.trans hsame.stime, by rw [hcharge.rtime, hsame.rtime]⟩

theorem stamped_switchTo (hpick : pick b k = some i) (hz : (switchTo i k).procs[z]? = some p') :
    ∃ p, k.procs[z]? = some p ∧ Stamped k (switchTo i k) .dispatch z p p' := by
  obtain ⟨p, hp, hstate⟩ := pick_runnable hpick
  rcases eq_or_ne z i with rfl | hzi
  · refine ⟨p, hp, .dispatched rfl rfl hstate ?_⟩
    simpa [switchTo, hp] using hz.symm
  · refine ⟨p', ?_, .same (.refl p') fun _ hcur ↦ hzi (Option.some.inj hcur).symm⟩
    simpa [switchTo, List.getElem?_modify, Ne.symm hzi] using hz

theorem stamped_kexit (he : e ≠ .dispatch) (h : Control k.procs k.cur) (hcur : k.cur = some i)
    (hz : (kexit b status i k).procs[z]? = some p') :
    ∃ p, k.procs[z]? = some p ∧ Stamped k (kexit b status i k) e z p p' := by
  have hkeeps := (wakes_kexitNotify b i k).stamps
  have hnotify := control_kexitNotify (b := b) (i := i) h
  rw [hcur] at hnotify
  obtain ⟨q, hq⟩ := hnotify.current i rfl
  simp only [kexit, procs_modify, modify_eq_set hq] at hz
  rcases stamps_of_set (List.forall₂_refl _) hz with ⟨rfl, hsame⟩ | ⟨-, r, hr, hsame⟩
  · obtain ⟨p, hp, hpq⟩ := exists_of_forall₂ hkeeps hq
    exact ⟨p, hp, .exited he (hpq.running ((hnotify.running z q hq).mpr rfl))
      (hsame.zombie.mpr rfl) (hsame.ctime.trans hpq.ctime) (hsame.stime.trans hpq.stime)
      (hsame.etime.trans (wakes_kexitNotify b z k).ticks) (hsame.rtime.trans hpq.rtime)
      (hsame.pid.trans hpq.pid)⟩
  · obtain ⟨p, hp, hpr⟩ := exists_of_forall₂ hkeeps hr
    exact ⟨p, hp, .same (hpr.trans hsame) fun hdispatch ↦ absurd hdispatch he⟩

/-- A slot that is cleared, after writes that keep the stamps of the others. -/
theorem stamped_freeproc (he : e ≠ .dispatch) (hq : m.procs[np]? = some q)
    (hothers : ∀ r, z ≠ np → m.procs[z]? = some r → ∃ p, k.procs[z]? = some p ∧ SameStamps p r)
    (hslot : z = np → ∃ p, k.procs[z]? = some p) (hz : (freeproc b np m).procs[z]? = some p') :
    ∃ p, k.procs[z]? = some p ∧ Stamped k k' e z p p' := by
  simp only [freeproc, procs_modify, modify_eq_set hq] at hz
  rcases stamps_of_set (List.forall₂_refl _) hz with ⟨hzn, hsame⟩ | ⟨hzn, r, hr, hsame⟩
  · obtain ⟨p, hp⟩ := hslot hzn
    exact ⟨p, hp, .freed (hsame.unused.mpr (freeFields_spec b q).1)⟩
  · obtain ⟨p, hp, hpr⟩ := hothers r hzn hr
    exact ⟨p, hp, .same (hpr.trans hsame) fun hdispatch ↦ absurd hdispatch he⟩

theorem stamped_kwait (he : e ≠ .dispatch) (hz : (kwait b copyout i p k).procs[z]? = some p') :
    ∃ q, k.procs[z]? = some q ∧ Stamped k (kwait b copyout i p k) e z q p' := by
  have hsame (hz : k.procs[z]? = some p') :
      ∃ q, k.procs[z]? = some q ∧ Stamped k (kwait b copyout i p k) e z q p' :=
    ⟨p', hz, .same (.refl p') fun hdispatch ↦ absurd hdispatch he⟩
  unfold kwait at hz
  split at hz
  · rename_i np hnp
    obtain ⟨q, hq, -⟩ := getElem?_of_findIdx? hnp
    split_ifs at hz
    · have hunlink := keepsStamps_modify (f := fun pp ↦ { pp with parent := none })
        (fun p ↦ by constructor <;> simp) k.procs np
      have hget : (k.modify np fun pp ↦ { pp with parent := none }).procs[np]? =
          some { q with parent := none } := by
        simp [hq]
      refine stamped_freeproc he hget (fun r _ hr ↦ exists_of_forall₂ hunlink hr) ?_ hz
      rintro rfl
      exact ⟨q, hq⟩
    · exact hsame hz
  · split_ifs at hz
    · exact hsame hz
    · obtain ⟨q, hq, hqp⟩ := exists_of_forall₂ (keepsStamps_modify
        (f := fun p ↦ { p with chan := some (.proc i) }) (fun p ↦ by constructor <;> simp) _ i) hz
      exact ⟨q, hq, .same hqp fun hdispatch ↦ absurd hdispatch he⟩

theorem ForkAlloc.stamped (halloc : ForkAlloc b i k k') (he : e ≠ .dispatch)
    (hz : k'.procs[z]? = some p') : ∃ q, k.procs[z]? = some q ∧ Stamped k k' e z q p' := by
  cases halloc with
  | full => exact ⟨p', hz, .same (.refl p') fun hdispatch ↦ absurd hdispatch he⟩
  | failed np q hq =>
    rcases stamps_of_set (List.forall₂_refl _) hz with ⟨rfl, hsame⟩ | ⟨-, r, hr, hsame⟩
    · exact ⟨q, hq, .freed (hsame.unused.mpr (freeFields_spec b _).1)⟩
    · exact ⟨r, hr, .same hsame fun hdispatch ↦ absurd hdispatch he⟩
  | copyFailed np seq q q' hq =>
    have hlt : np < k.procs.length := lt_of_getElem? hq
    refine stamped_freeproc (m := k.take np q' seq) he (List.getElem?_set_self hlt) ?_ ?_ hz
    · intro r hzn hr
      rw [Kernel.take, List.getElem?_set_ne (Ne.symm hzn)] at hr
      exact ⟨r, hr, .refl r⟩
    · rintro rfl
      exact ⟨q, hq⟩
  | forked np seq q q' hslot hq hfree hfresh =>
    -- The parent only takes the child into its local variable.
    rcases stamps_of_set (keepsStamps_modify (fun p ↦ by constructor <;> simp) _ i) hz with
      ⟨rfl, hsame⟩ | ⟨-, r, hr, hsame⟩
    · refine ⟨q, hq, .created he hfree ?_ ?_ ?_ (hsame.ctime.trans hfresh.ctime)
        (hsame.stime.trans hfresh.stime) (hsame.rtime.trans hfresh.rtime)
        (hsame.pid.trans hfresh.pid) rfl hslot⟩
      · rw [Ne, hsame.unused, hfresh.state]
        simp
      · rw [Ne, hsame.zombie, hfresh.state]
        simp
      · intro hrunning
        cases hfresh.state.symm.trans (hsame.running hrunning)
    · exact ⟨r, hr, .same hsame fun hdispatch ↦ absurd hdispatch he⟩

theorem stamped_procStep (hstep : procStep b i p k e = some k') (h : Control k.procs k.cur)
    (hcur : k.cur = some i) (hp : k.procs[i]? = some p) (hz : k'.procs[z]? = some p') :
    ∃ q, k.procs[z]? = some q ∧ Stamped k k' e z q p' := by
  have hrun : p.state = .running := (h.running i p hp).mpr hcur
  cases procStep_cases hstep with
  | forkAlloc mem => exact (kforkAlloc_cases b mem i k).stamped (by simp) hz
  | forkLink np =>
    exact stamped_of_keeps (forall₂_trans
      (keepsStamps_modify (fun p ↦ by constructor <;> simp) _ np)
      (keepsStamps_modify (fun p ↦ by constructor <;> simp) _ i)) (by simp) hz
  | forkRunnable np hstage =>
    obtain ⟨q, hq, hused⟩ := h.child i p np hp (by simp [Proc.forkChild, hstage])
    refine stamped_of_keeps (forall₂_trans (forall₂_modify fun r hr ↦ ?_)
      (keepsStamps_modify (fun p ↦ by constructor <;> simp) _ i)) (by simp) hz
    cases hq.symm.trans hr
    constructor <;> simp [hused]
  | sleepPrepare | setkilled =>
    exact stamped_of_keeps (keepsStamps_modify (fun p ↦ by constructor <;> simp) _ i) (by simp) hz
  | sleep =>
    refine stamped_of_keeps ?_ (by simp) hz
    unfold sleep
    split_ifs
    · cases b <;>
      · refine forall₂_modify fun q hq ↦ ?_
        cases hp.symm.trans hq
        constructor <;> simp [hrun]
    · exact List.forall₂_refl _
  | kill pid => exact stamped_of_keeps (nudges_kkill b pid k).stamps_of_nudged (by simp) hz
  | exit => exact stamped_kexit (by simp) h hcur hz
  | wait => exact stamped_kwait (by simp) hz

theorem stamped_step (hstep : step b k e = some k') (h : Control k.procs k.cur)
    (hz : k'.procs[z]? = some p') : ∃ q, k.procs[z]? = some q ∧ Stamped k k' e z q p' := by
  rcases step_cases hstep with ⟨mode, rfl, -, rfl⟩ | ⟨chan, rfl, rfl⟩ |
    ⟨rfl, hcur, ⟨-, rfl⟩ | ⟨i, hpick, rfl⟩⟩ | ⟨i, p, hcur, hp, hproc⟩
  · exact stamped_timer h hz
  · exact stamped_of_keeps (nudges_wakeup b _ k).stamps_of_nudged nofun hz
  · exact stamped_of_keeps (List.forall₂_refl _) (fun _ ↦ by simp [hcur]) hz
  · exact stamped_switchTo hpick hz
  · exact stamped_procStep hproc h hcur hp hz

end Steps

/-! ### The first dispatch -/

/-- The tick of the first dispatch of the process in slot `z`, after one more transition. A slot
that is `UNUSED` has no process. -/
def firstDispatchStep (z : ℕ) (first : Option ℕ) (tr : Transition Kernel Event) : Option ℕ :=
  match tr.target.procs[z]? with
  | none => none
  | some p =>
    if p.state = .unused then none
    else if first = none ∧ tr.event = .dispatch ∧ tr.target.cur = some z then some tr.source.ticks
    else first

def firstDispatch (z : ℕ) (l : List (Transition Kernel Event)) : Option ℕ :=
  l.foldl (firstDispatchStep z) none

theorem firstDispatchStep_eq (hz : k'.procs[z]? = some p') : firstDispatchStep z first ⟨k, e, k'⟩ =
      if p'.state = .unused then none
      else if first = none ∧ e = .dispatch ∧ k'.cur = some z then some k.ticks else first := by
  unfold firstDispatchStep
  simp only [hz]

/-! ### A life -/

/-- The moment up to which the life of a process counts: its exit, or now. -/
def Proc.until (now : ℕ) (p : Proc) : ℕ := if p.state = .zombie then p.etime else now

/-- The stamps of a process whose first dispatch was at tick `first`, at tick `now`. -/
structure Life (first : Option ℕ) (now : ℕ) (p : Proc) : Prop where
  fresh : p.state = .unused → first = none
  waiting : first = none → p.state ≠ .unused → p.state ≠ .running ∧ p.state ≠ .zombie ∧
    p.stime = -1 ∧ p.rtime = 0 ∧ p.ctime ≤ now
  started : ∀ t, first = some t → p.stime = t ∧ p.ctime ≤ t ∧ p.rtime + t ≤ p.until now ∧
    p.until now ≤ now

theorem life_unused (h : p.state = .unused) : Life none now p :=
  ⟨fun _ ↦ rfl, fun _ hne ↦ absurd h hne, nofun⟩

/-- Time may pass while the stamps stay. -/
theorem Life.same {first : Option ℕ} {now now' : ℕ} {p p' : Proc} (h : Life first now p)
    (hsame : SameStamps p p') (hnow : now ≤ now') : Life first now' p' := by
  refine ⟨fun hu ↦ h.fresh (hsame.unused.mp hu), fun hnone hu ↦ ?_, fun t ht ↦ ?_⟩
  · obtain ⟨hrun, hz, hstime, hrtime, hctime⟩ := h.waiting hnone (mt hsame.unused.mpr hu)
    exact ⟨mt hsame.running hrun, mt hsame.zombie.mp hz, hsame.stime.trans hstime,
      hsame.rtime.trans hrtime, hsame.ctime ▸ hctime.trans hnow⟩
  · obtain ⟨hstime, hctime, hrtime, huntil⟩ := h.started t ht
    have hlater : p.until now ≤ p'.until now' ∧ p'.until now' ≤ now' := by
      unfold Proc.until at *
      rw [hsame.etime]
      simp only [hsame.zombie]
      split_ifs at * <;> omega
    rw [hsame.stime, hsame.ctime, hsame.rtime]
    exact ⟨hstime, hctime, hrtime.trans hlater.1, hlater.2⟩

theorem life_step (h : Life first k.ticks p) (hstamped : Stamped k k' e z p p')
    (hz : k'.procs[z]? = some p') (hticks : k'.ticks = if e.isTimer then k.ticks + 1 else k.ticks)
    (hbound : k'.ticks < 0x80000000) : Life (firstDispatchStep z first ⟨k, e, k'⟩) k'.ticks p' := by
  have hnow : k.ticks ≤ k'.ticks := by
    rw [hticks]
    split_ifs <;> omega
  rw [firstDispatchStep_eq hz]
  cases hstamped with
  | same hsame hother =>
    have hfirst : ¬ (first = none ∧ e = .dispatch ∧ k'.cur = some z) :=
      fun hboth ↦ hother hboth.2.1 hboth.2.2
    rw [if_neg hfirst]
    split_ifs with hunused
    · exact life_unused hunused
    · exact h.same hsame hnow
  | freed hstate =>
    rw [if_pos hstate]
    exact life_unused hstate
  | created hevent hold hunused hzombie hrunning hctime hstime hrtime _ _ _ =>
    rw [if_neg hunused, if_neg fun hboth ↦ hevent hboth.2.1, h.fresh hold]
    exact ⟨fun _ ↦ rfl, fun _ _ ↦ ⟨hrunning, hzombie, hstime, hrtime, hctime ▸ hnow⟩, nofun⟩
  | dispatched hevent hcur hold hp' =>
    subst hp'
    rw [if_neg (by simp)]
    cases hfirst : first with
    | none =>
      -- The first dispatch: the stamp is the clock, which still fits an `int`.
      obtain ⟨-, -, hstime, hrtime, hctime⟩ := h.waiting hfirst (by simp [hold])
      have hint : ticksAsInt k = k.ticks := by
        unfold ticksAsInt uintSize
        rw [Int.bmod_eq_of_le] <;> omega
      rw [if_pos ⟨rfl, hevent, hcur⟩]
      refine ⟨by simp, by simp, fun t ht ↦ ?_⟩
      cases ht
      simp only [hstime, if_true, hint, hrtime, Proc.until]
      exact ⟨trivial, hctime, by simpa using hnow, le_refl _⟩
    | some t₀ =>
      rw [if_neg (by simp)]
      refine ⟨by simp, by simp, fun t ht ↦ ?_⟩
      obtain ⟨hstime, hctime, hrtime, huntil⟩ := h.started t (hfirst.trans ht)
      have hne : p.stime ≠ -1 := by omega
      simp only [hne, if_false, Proc.until]
      simp only [Proc.until, hold] at hrtime
      exact ⟨hstime, hctime, by simpa using hrtime.trans hnow, by simp⟩
  | exited hevent hold hnew hctime hstime hetime hrtime _ =>
    rw [if_neg (by simp [hnew]), if_neg fun hboth ↦ hevent hboth.2.1]
    refine ⟨by simp [hnew], fun hnone _ ↦ ?_, fun t ht ↦ ?_⟩
    · exact absurd hold (h.waiting hnone (by simp [hold])).1
    · obtain ⟨hstime', hctime', hrtime', huntil⟩ := h.started t ht
      simp only [Proc.until, hold] at hrtime'
      simp only [Proc.until, hnew, if_true, hetime, hrtime, hstime, hctime]
      exact ⟨hstime', hctime', by simpa using hrtime', hnow⟩
  | charged hevent hcharge =>
    have hdispatch : e ≠ .dispatch := by
      rintro rfl
      cases hevent
    rw [if_neg hcharge.unused, if_neg fun hboth ↦ hdispatch hboth.2.1]
    rw [hevent, if_pos rfl] at hticks
    refine ⟨fun hu ↦ absurd hu hcharge.unused, fun hnone _ ↦ ?_, fun t ht ↦ ?_⟩
    · exact absurd hcharge.running (h.waiting hnone (by simp [hcharge.running])).1
    · -- The clock has advanced by the tick that is charged.
      obtain ⟨hstime, hctime, hrtime, -⟩ := h.started t ht
      simp only [Proc.until, hcharge.running] at hrtime
      simp only [Proc.until, hcharge.zombie, if_false, hcharge.rtime, hcharge.stime, hcharge.ctime]
      have hrtime' : p.rtime + t ≤ k.ticks := by simpa using hrtime
      have hmod := Nat.mod_le (p.rtime + 1) uintSize
      exact ⟨hstime, hctime, by omega, le_refl _⟩

/-- The clock counts the timer interrupts, and every slot has a consistent life, as long as there
are fewer than `2 ^ 31` of them. -/
theorem life_of_path (hpath : Path (step b) (boot b) l k)
    (hticks : l.countP (·.event.isTimer) < 0x80000000) (z : ℕ) :
    k.ticks = l.countP (·.event.isTimer) ∧
      ∀ p, k.procs[z]? = some p → Life (firstDispatch z l) k.ticks p := by
  have hboot : ∀ q ∈ (boot b).procs, Life none 0 q := by
    have hfields : ∀ q ∈ (boot b).procs, q.state = .unused ∨
        q.state = .runnable ∧ q.stime = -1 ∧ q.rtime = 0 ∧ q.ctime = 0 := by
      cases b <;> decide +kernel
    intro q hq
    rcases hfields q hq with hu | ⟨hstate, hstime, hrtime, hctime⟩
    · exact life_unused hu
    · exact ⟨by simp, fun _ _ ↦ ⟨by simp [hstate], by simp [hstate], hstime, hrtime, by omega⟩,
        nofun⟩
  have hzero : (boot b).ticks = 0 := by cases b <;> rfl
  have hrun := hpath.foldl_rule (P := (·.event.isTimer)) (f := firstDispatchStep z)
    (J := fun n first k ↦ Control k.procs k.cur ∧ (n < 0x80000000 →
      k.ticks = n ∧ ∀ p, k.procs[z]? = some p → Life first k.ticks p))
    (c := 0) (a := none) ?_ ⟨control_boot b, fun _ ↦ ⟨hzero, fun q hq ↦ ?_⟩⟩
  · rw [Nat.zero_add] at hrun
    exact hrun.2 hticks
  · rintro n first s e t hstep ⟨hcontrol, hlife⟩
    refine ⟨control_step hstep hcontrol, fun hn ↦ ?_⟩
    dsimp only at hn
    obtain ⟨hs, hlife⟩ := hlife (by split_ifs at hn <;> omega)
    have htick := ticks_step hstep
    have hnext : t.ticks = if e.isTimer then s.ticks + 1 else s.ticks := by
      rw [htick]
      split_ifs at hn ⊢
      · exact Nat.mod_eq_of_lt (by unfold uintSize; omega)
      · rfl
    have ht : t.ticks = n + if e.isTimer then 1 else 0 := by
      rw [hnext]
      split_ifs <;> omega
    refine ⟨ht, fun q hq ↦ ?_⟩
    obtain ⟨r, hr, hstamped⟩ := stamped_step hstep hcontrol hq
    exact life_step (hlife r hr) hstamped hq hnext (ht ▸ hn)
  · rw [hzero]
    exact hboot q (List.mem_of_getElem? hq)

/-- What `kwaitx` reports of a child is exact: the running and the waiting time add up to the time
from creation to exit, and the response time is that of the first dispatch, spent waiting. -/
theorem metrics_kwaitx {b : Build} {k : Kernel} {l : List (Transition Kernel Event)}
    (hpath : Path (step b) (boot b) l k) (hticks : l.countP (·.event.isTimer) < 0x80000000)
    {c : CopyOut} {i : ℕ} {p : Proc} {r : Reaped} (hreaped : (kwaitx b c i p k).1 = some r) :
    ∃ (pp : Proc) (t : ℕ), k.procs[r.slot]? = some pp ∧ pp.parent = some i ∧ r.pid = pp.pid ∧
      firstDispatch r.slot l = some t ∧ pp.ctime ≤ t ∧ t ≤ pp.etime ∧
      r.metrics.rtime = pp.rtime ∧ r.metrics.rtime ≤ pp.etime - pp.ctime ∧
      r.metrics.wtime + r.metrics.rtime = pp.etime - pp.ctime ∧
      r.metrics.response = t - pp.ctime ∧ r.metrics.response ≤ r.metrics.wtime := by
  obtain ⟨pp, hpp, hparent, hzombie, hpid, hmetrics⟩ := kwaitx_reaped hreaped
  obtain ⟨hclock, hlife⟩ := life_of_path hpath hticks r.slot
  replace hlife := hlife pp hpp
  obtain ⟨t, ht⟩ : ∃ t, firstDispatch r.slot l = some t := by
    rw [← Option.ne_none_iff_exists']
    intro hnone
    exact (hlife.waiting hnone (by simp [hzombie])).2.1 hzombie
  obtain ⟨hstime, hctime, hrtime, huntil⟩ := hlife.started t ht
  simp only [Proc.until, hzombie, if_true] at hrtime huntil
  have hint : Int.bmod pp.ctime uintSize = pp.ctime := by
    unfold uintSize
    rw [Int.bmod_eq_of_le] <;> omega
  have hresponse : r.metrics.response = t - pp.ctime := by
    have hmod : (pp.stime - pp.ctime) % uintSize = pp.stime - pp.ctime := by
      unfold uintSize
      exact Int.emod_eq_of_lt (by omega) (by omega)
    rw [hmetrics]
    simp only [metricsOf, hint, hmod]
    rw [if_pos (by omega)]
    omega
  have hwtime : r.metrics.wtime = pp.etime - pp.ctime - pp.rtime := by
    rw [hmetrics]
    simp only [metricsOf]
    split_ifs <;> omega
  have hrtime' : r.metrics.rtime = pp.rtime := by
    rw [hmetrics]
    rfl
  refine ⟨pp, t, hpp, hparent, hpid, ht, hctime, ?_, hrtime', ?_, ?_, hresponse, ?_⟩ <;> omega

/-- `init` forks and waits; its child waits a tick, runs for one, waits for one, and exits. -/
def childEvents : List Event :=
  [.dispatch, .forkAlloc ⟨true, true, true⟩, .forkLink, .forkRunnable, .wait true, .sleep,
    .timer .kernel, .dispatch, .timer .user, .timer .kernel, .dispatch, .exit 0, .dispatch]

/-- The run of these events and the kernel it ends in. -/
def childRun : List (Transition Kernel Event) × Kernel :=
  replay (step .mlfq) (boot .mlfq) childEvents

theorem path_childRun : Path (step .mlfq) (boot .mlfq) childRun.1 childRun.2 := path_replay _ _

theorem metrics_kwaitx_childRun :
    (kwaitx .mlfq ⟨true, true, true, true⟩ 0 {} childRun.2).1 = some ⟨1, 2, ⟨2, 1, 1⟩⟩ ∧
      ∃ (pp : Proc) (t : ℕ), childRun.2.procs[1]? = some pp ∧ pp.parent = some 0 ∧ 2 = pp.pid ∧
        firstDispatch 1 childRun.1 = some t ∧ pp.ctime ≤ t ∧ t ≤ pp.etime ∧ 1 = pp.rtime ∧
        1 ≤ pp.etime - pp.ctime ∧ 2 + 1 = pp.etime - pp.ctime ∧ 1 = t - pp.ctime ∧ 1 ≤ 2 := by
  have hreaped : (kwaitx .mlfq ⟨true, true, true, true⟩ 0 {} childRun.2).1 =
      some ⟨1, 2, ⟨2, 1, 1⟩⟩ := by
    decide +kernel
  have hmetrics := metrics_kwaitx path_childRun (by decide +kernel) hreaped
  exact ⟨hreaped, hmetrics⟩

end Irish.Xv6
