import Irish.Shell.JobLookup

/-!
# Announcements

`sigchld_handler` announces a process when its `waitpid` reports that it has ended. `job_sweep` also
waits for the processes of the jobs, and says nothing. A status is reported once, so a process of a
background job is announced exactly once or, if `job_sweep` has come to it between its end and the
handler, never (`announcedOnce_iff`).

The pid in an announcement is that of the process, and whether it says "normally" is right; that the
name is right too takes the condition of `lookupOk_of_unrecorded`.
-/

set_option autoImplicit false

namespace Irish.Shell

open Library

/-- The announcements about a child. -/
def Session.about (s : Session) (u : ℕ) : List Announcement :=
  (s.log.filter (·.1 = u)).map Prod.snd

/-- A child that is in the entry of a background job, or was. -/
def BackgroundProcess (s : Session) (u : ℕ) : Prop :=
  ∃ L ∈ s.launches, L.background = true ∧ L.job.isSome = true ∧
    ∃ p < maxProcsPerJob, L.procs[p]? = some u

/-- Every process of a background job that has been reaped has been announced once. -/
def AnnouncedOnce (s : Session) : Prop :=
  ∀ (u : ℕ) (c : ChildProcess) (how : Ending), BackgroundProcess s u → s.children[u]? = some c →
    c.life = .reaped how →
    ∃ a, s.about u = [a] ∧ a.pid = c.pid ∧ a.normally = decide (how = .exited 0)

/-- `job_sweep` is about to wait for the pid `pid`. -/
def SweepWaits (s : Session) (pid : ℕ+) : Prop :=
  ∃ caller pc job e, s.control = .sweeping caller pc ∧ pc.phase = .wait ∧
    s.jobs.slots[pc.slot]? = some job ∧ job.procs[pc.proc]? = some e ∧ e.pid = pid

/-- `job_sweep` is about to wait for a process of a background job that has ended. -/
def SweepFindsEnded (s : Session) : Prop :=
  ∃ u c how, BackgroundProcess s u ∧ s.children[u]? = some c ∧ c.life = .zombie how ∧
    SweepWaits s c.pid

/-! ### What a step does to a child -/

/-- The reasons for which a child may be reaped and nothing be printed. -/
def Unseen (s : Session) (e : SessionEvent) (u : ℕ) (c : ChildProcess) : Prop :=
  (e = .sweep ∧ SweepWaits s c.pid) ∨ (∃ slot, s.control = .waiting slot) ∨
    ∀ L ∈ s.launches, u ∉ L.procs

/-- A step reaps a child with an announcement or without one, or it leaves it unreaped, or reaped as
it was. -/
inductive ChildStep (s : Session) (e : SessionEvent) (s' : Session) (u : ℕ) : Prop
  | stays (habout : s'.about u = s.about u)
      (hchild : ∀ c, s.children[u]? = some c → ∃ c', s'.children[u]? = some c' ∧ c'.pid = c.pid ∧
        c'.life.isReaped = c.life.isReaped ∧ (c.life.isReaped = true → c'.life = c.life))
  | announced (c : ChildProcess) (how : Ending) (hc : s.children[u]? = some c)
      (hlife : c.life = .zombie how)
      (hc' : s'.children[u]? = some { c with life := .reaped how })
      (habout : s'.about u = s.about u ++ (s.jobs.sigchldTurn c.pid (.ended how)).2.toList)
  | unseen (c : ChildProcess) (how : Ending) (hc : s.children[u]? = some c)
      (hlife : c.life = .zombie how)
      (hc' : s'.children[u]? = some { c with life := .reaped how })
      (habout : s'.about u = s.about u) (hwhy : Unseen s e u c)

variable {caller : Caller} {pc : SweepPc}

section Steps

variable {shellPgid : ℕ+} {s s' : Session} {e : SessionEvent} {u v : ℕ} {new : List ChildProcess}
  {d : ChildProcess} {life : Life} {r : Report}

theorem ChildStep.of_children_eq (hlog : s'.log = s.log) (hchildren : s'.children = s.children) :
    ChildStep s e s' u :=
  .stays (by rw [Session.about, hlog]; rfl)
    fun c hc ↦ ⟨c, by rw [hchildren, hc], rfl, rfl, fun _ ↦ rfl⟩

theorem ChildStep.of_append (hlog : s'.log = s.log) (hchildren : s'.children = s.children ++ new) :
    ChildStep s e s' u := by
  refine .stays (by rw [Session.about, hlog]; rfl) fun c hc ↦ ⟨c, ?_, rfl, rfl, fun _ ↦ rfl⟩
  rw [hchildren, List.getElem?_append_left (lt_of_getElem? hc), hc]

/-- A step that changes only the life of a child that has not been reaped. -/
theorem ChildStep.of_setLife (hlog : s'.log = s.log) (hd : s.children[v]? = some d)
    (hunreaped : d.life.isReaped = false) (hchildren : s'.children = setLife s.children v life)
    (hlife : life.isReaped = false) : ChildStep s e s' u := by
  refine .stays (by rw [Session.about, hlog]; rfl) fun c hc ↦ ?_
  rw [hchildren]
  rcases eq_or_ne v u with rfl | huv
  · cases hd.symm.trans hc
    exact ⟨_, getElem?_setLife_self hc life, rfl, hlife.trans hunreaped.symm,
      fun hreaped ↦ by simp [hunreaped] at hreaped⟩
  · exact ⟨c, by rw [getElem?_setLife_ne huv, hc], rfl, rfl, fun _ ↦ rfl⟩

/-- `waitpid` has reported on a child, and nothing is printed. -/
theorem ChildStep.of_collectChild (hlog : s'.log = s.log) (hd : s.children[v]? = some d)
    (hreport : d.life.report = some r) (hchildren : s'.children = collectChild s.children v)
    (hwhy : ∀ how, r = .ended how → Unseen s e v d) : ChildStep s e s' u := by
  have habout : s'.about u = s.about u := by
    rw [Session.about, hlog]
    rfl
  by_cases hu : ∃ c how, s.children[u]? = some c ∧ u = v ∧ r = .ended how
  · obtain ⟨c, how, hc, rfl, rfl⟩ := hu
    cases hd.symm.trans hc
    rcases collectChild_cases hd hreport hd with ⟨-, how', hr, hlife, hc'⟩ | ⟨hnotice, -⟩
    · cases hr
      exact .unseen d how hd hlife (by rw [hchildren, hc']) habout (hwhy how rfl)
    · obtain ⟨notice, ⟨⟩⟩ := hnotice rfl
  · refine .stays habout fun c hc ↦ ?_
    rw [hchildren]
    rcases collectChild_cases hd hreport hc with ⟨huv, how, hr, -⟩ | ⟨-, hstays⟩
    · exact absurd ⟨c, how, hc, huv, hr⟩ hu
    · exact hstays

theorem sigchldTurn_noticed (jobs : JobTable) (pid : ℕ+) (notice : Notice) :
    (jobs.sigchldTurn pid (.noticed notice)).2 = none := by
  unfold JobTable.sigchldTurn
  split
  · rfl
  · cases notice <;> rfl

theorem about_handleStep (s : Session) (v : ℕ) (c : ChildProcess) (r : Report) (u : ℕ) :
    (handleStep v c r s).about u =
      s.about u ++ if v = u then (s.jobs.sigchldTurn c.pid r).2.toList else [] := by
  simp only [Session.about, handleStep, List.filter_append, List.map_append, List.filter_map]
  congr 1
  by_cases hvu : v = u
  · simp [hvu, Function.comp_def]
  · simp [hvu, Function.comp_def]

/-- A turn of the handler. -/
theorem childStep_handle (hd : s.children[v]? = some d) (hreport : d.life.report = some r) :
    ChildStep s e (handleStep v d r s) u := by
  have habout := about_handleStep s v d r u
  rcases eq_or_ne v u with rfl | huv
  · rw [if_pos rfl] at habout
    rcases collectChild_cases hd hreport hd with ⟨-, how, rfl, hlife, hc'⟩ | ⟨hnotice, hstays⟩
    · exact .announced d how hd hlife hc' habout
    · obtain ⟨notice, rfl⟩ := hnotice rfl
      rw [sigchldTurn_noticed, Option.toList_none, List.append_nil] at habout
      refine .stays habout fun c hc ↦ ?_
      cases hd.symm.trans hc
      exact hstays
  · rw [if_neg huv, List.append_nil] at habout
    refine .stays habout fun c hc ↦ ?_
    rcases collectChild_cases hd hreport hc with ⟨heq, -⟩ | ⟨-, hstays⟩
    · exact absurd heq.symm huv
    · exact hstays

/-- One operation of `job_sweep`. -/
theorem childStep_sweep (hcontrol : s.control = .sweeping caller pc) :
    ChildStep s .sweep (sweepStep caller pc s) u := by
  unfold sweepStep
  split
  · exact .of_children_eq rfl rfl
  rename_i job hjob
  split
  · exact .of_children_eq rfl rfl
  · split <;> exact .of_children_eq rfl rfl
  · rename_i hphase
    split
    · exact .of_children_eq rfl rfl
    rename_i entry hentry
    split
    · exact .of_children_eq rfl rfl
    rename_i v hv
    obtain ⟨d, hd, hpid, -⟩ := findUnreaped_eq_some hv
    split
    · exact .of_children_eq rfl rfl
    rename_i r hreport
    rw [hd, Option.bind_some] at hreport
    refine .of_collectChild rfl hd hreport rfl fun _ _ ↦ .inl ⟨rfl, ?_⟩
    exact ⟨caller, pc, job, entry, hcontrol, hphase, hjob, hentry, hpid.symm⟩
  · exact .of_children_eq rfl rfl

theorem childStep_of_move (hmove : SessionMove shellPgid s e s') (u : ℕ) : ChildStep s e s' u := by
  cases hmove with
  | launch | helper => exact .of_append rfl rfl
  | @reapHelper _ d how hd hlife hhelper =>
    have hreport : d.life.report = some (.ended how) := by rw [hlife]; rfl
    refine .of_collectChild rfl hd hreport ?_ fun _ _ ↦ .inr (.inr hhelper)
    rw [collectChild_eq hd, hlife]
    rfl
  | live hd hlife hnext => exact .of_setLife rfl hd (by rw [hlife]; rfl) rfl hnext
  | handler | call | block | resumeDone | resumeFailed => exact .of_children_eq rfl rfl
  | handle hd hreport => exact childStep_handle hd hreport
  | sweep hcontrol => exact childStep_sweep hcontrol
  | @act caller =>
    obtain ⟨-, hchildren, hlog⟩ := actStep_control caller s
    exact .of_children_eq hlog hchildren
  | @resumeTurn slot _ _ r hcontrol hd hreport =>
    cases r with
    | ended =>
      exact .of_collectChild rfl hd hreport rfl fun _ _ ↦ .inr (.inl ⟨slot, hcontrol⟩)
    | noticed => exact .of_collectChild rfl hd hreport rfl nofun

end Steps

/-! ### Runs without a foreground resume -/

/-- The program is not in `resume ... fg`. -/
def NoForeground (s : Session) : Prop :=
  match s.control with
  | .prompt => True
  | .sweeping caller _ => ∀ number, caller ≠ .resume number true
  | .acting caller => ∀ number, caller ≠ .resume number true
  | .foreground _ => False
  | .waiting _ => False

/-- Nothing has been said about a child that has not been reaped. -/
def QuietLog (s : Session) : Prop :=
  ∀ u, (∀ c, s.children[u]? = some c → c.life.isReaped = false) → s.about u = []

/-- A process of a background job has been reaped and was not announced. -/
def Missed (s : Session) : Prop :=
  ∃ u c how, BackgroundProcess s u ∧ s.children[u]? = some c ∧ c.life = .reaped how ∧ s.about u = []

section Runs

variable {shellPgid : ℕ+} {table : Table} {s s' : Session} {e : SessionEvent} {u : ℕ}
  {l : List (Transition Session SessionEvent)} {c : ChildProcess} {how : Ending}

theorem sweepStep_control (hcontrol : s.control = .sweeping caller pc) :
    (sweepStep caller pc s).control = .acting caller ∨
      ∃ pc', (sweepStep caller pc s).control = .sweeping caller pc' := by
  unfold sweepStep
  split
  · exact .inl rfl
  right
  split
  · exact ⟨_, rfl⟩
  · split <;> exact ⟨_, rfl⟩
  · split
    · exact ⟨_, hcontrol⟩
    · split
      · exact ⟨_, rfl⟩
      · split <;> exact ⟨_, rfl⟩
  · exact ⟨_, rfl⟩

theorem NoForeground.step (h : NoForeground s) (hmove : SessionMove shellPgid s e s')
    (he : ∀ number, e ≠ .call (.resume number true)) : NoForeground s' := by
  cases hmove with
  | launch | helper | reapHelper | live | handler | handle => exact h
  | call => exact fun number hcaller ↦ he number (hcaller ▸ rfl)
  | sweep hcontrol =>
    have hcaller : NoForeground s := h
    rw [NoForeground, hcontrol] at hcaller
    rcases sweepStep_control hcontrol with hnext | ⟨pc', hnext⟩
    · rwa [NoForeground, hnext]
    · rwa [NoForeground, hnext]
  | @act caller hcontrol =>
    rw [NoForeground, hcontrol] at h
    obtain ⟨hnext | ⟨number, slot, hcaller, -⟩, -⟩ := actStep_control caller s
    · rw [NoForeground, hnext]
      trivial
    · exact absurd hcaller (h number)
  | block hcontrol | resumeTurn hcontrol =>
    rw [NoForeground, hcontrol] at h
    exact h.elim
  | resumeDone | resumeFailed => trivial

theorem QuietLog.step (h : QuietLog s) (hstep : ChildStep s e s' u)
    (hunreaped : ∀ c, s'.children[u]? = some c → c.life.isReaped = false) : s'.about u = [] := by
  cases hstep with
  | stays habout hchild =>
    rw [habout]
    refine h u fun c hc ↦ ?_
    obtain ⟨c', hc', -, hreaped, -⟩ := hchild c hc
    exact hreaped ▸ hunreaped c' hc'
  | announced _ _ _ _ hc' | unseen _ _ _ _ hc' => cases hunreaped _ hc'

/-- A process of a background job is one after a step, and was one before if it is reaped. -/
theorem backgroundProcess_step (hok : SessionOk s) (hstep : sessionStep shellPgid s e = some s') :
    (BackgroundProcess s u → BackgroundProcess s' u) ∧
      ∀ c, s'.children[u]? = some c → c.life.isReaped = true → BackgroundProcess s' u →
        BackgroundProcess s u := by
  obtain ⟨-, hquiet | ⟨cmds, isBg, cmdLine, o, new, L, rfl, hnew⟩⟩ :=
    hok.steady.step (sessionMove_of_step hstep)
  · unfold BackgroundProcess
    rw [hquiet.launches]
    exact ⟨id, fun _ _ _ h ↦ h⟩
  · constructor
    · rintro ⟨L', hL', hrest⟩
      exact ⟨L', hnew.mem_launches.mpr (.inl hL'), hrest⟩
    · rintro c hc hreaped ⟨L', hL', hbackground, hrest⟩
      rcases hnew.mem_launches.mp hL' with hL' | rfl
      · exact ⟨L', hL', hbackground, hrest⟩
      · -- A process of the new pipeline would not be reaped yet.
        obtain ⟨-, p, -, hu⟩ := hrest
        obtain ⟨-, c', hc', hchild⟩ := hnew.getElem?_procs hu
        cases hc.symm.trans hchild
        have hlive := hnew.unreaped (hnew.background ▸ hbackground) c (List.mem_of_getElem? hc')
        simp [hlive] at hreaped

/-- The handler announces a process of a job. -/
theorem BackgroundProcess.announced (h : BackgroundProcess s u) (hok : SessionOk s)
    (hc : s.children[u]? = some c) (hlife : c.life = .zombie how) :
    ∃ a, (s.jobs.sigchldTurn c.pid (.ended how)).2 = some a ∧ a.pid = c.pid ∧
      a.normally = decide (how = .exited 0) := by
  obtain ⟨L, hL, -, hjob, p, hp, hu⟩ := h
  obtain ⟨number, hnumber⟩ := Option.isSome_iff_exists.mp hjob
  obtain ⟨slot, job, e, hentry, he, hpid, -⟩ :=
    (hok.tracked L hL number hnumber).exists_entry hp hu hc (by rw [hlife]; rfl)
  obtain ⟨⟨slot', p'⟩, hfound⟩ :=
    Option.isSome_iff_exists.mp (jobGetByPid_isSome hentry.1 hentry.2.1 he)
  rw [hpid] at hfound
  obtain ⟨job', e', hjob', -, he', -⟩ := jobGetByPid_eq_some hfound
  exact ⟨⟨e'.cmdName, c.pid, how = .exited 0⟩, by simp [JobTable.sigchldTurn, hfound, hjob', he'],
    rfl, rfl⟩

theorem BackgroundProcess.mem_procs (h : BackgroundProcess s u) :
    ∃ L ∈ s.launches, u ∈ L.procs := by
  obtain ⟨L, hL, -, -, p, -, hu⟩ := h
  exact ⟨L, hL, List.mem_of_getElem? hu⟩

theorem AnnouncedOnce.step (h : AnnouncedOnce s) (hok : SessionOk s) (hlog : QuietLog s)
    (hforeground : NoForeground s) (hstep : sessionStep shellPgid s e = some s')
    (hsweep : e = .sweep → ¬ SweepFindsEnded s) : AnnouncedOnce s' := by
  intro u c' how hbackground' hc' hreaped
  have hbackground : BackgroundProcess s u :=
    (backgroundProcess_step hok hstep).2 c' hc' (by rw [hreaped]; rfl) hbackground'
  obtain ⟨L, hL, hu⟩ := hbackground.mem_procs
  obtain ⟨c, hc⟩ : ∃ c, s.children[u]? = some c :=
    ⟨_, List.getElem?_eq_getElem (hok.procs L hL u hu)⟩
  cases childStep_of_move (sessionMove_of_step hstep) u with
  | stays habout hchild =>
    obtain ⟨d, hd, hpid, hsame, hlife⟩ := hchild c hc
    cases hc'.symm.trans hd
    rw [hreaped] at hsame hlife
    rw [habout, hpid]
    exact h u c how hbackground hc (hlife hsame.symm).symm
  | announced d how' hd hlife hd' habout =>
    obtain rfl : c' = { d with life := .reaped how' } := Option.some.inj (hc'.symm.trans hd')
    cases hreaped
    obtain ⟨a, ha, hpid, hnormally⟩ := hbackground.announced hok hd hlife
    refine ⟨a, ?_, hpid, hnormally⟩
    rw [habout, ha, hlog u fun c hc ↦ by rw [Option.some.inj (hc.symm.trans hd), hlife]; rfl]
    rfl
  | unseen d how' hd hlife _ _ hwhy =>
    rcases hwhy with ⟨rfl, hwaits⟩ | ⟨slot, hcontrol⟩ | hhelper
    · exact absurd ⟨u, d, how', hbackground, hd, hlife, hwaits⟩ (hsweep rfl)
    · rw [NoForeground, hcontrol] at hforeground
      exact hforeground.elim
    · exact absurd hu (hhelper L hL)

/-- A process that was missed stays missed. -/
theorem Missed.step (h : Missed s) (hok : SessionOk s)
    (hstep : sessionStep shellPgid s e = some s') : Missed s' := by
  obtain ⟨u, c, how, hbackground, hc, hlife, habout⟩ := h
  have hbackground' := (backgroundProcess_step hok hstep).1 hbackground
  cases childStep_of_move (sessionMove_of_step hstep) u with
  | stays habout' hchild =>
    obtain ⟨c', hc', -, -, hsame⟩ := hchild c hc
    exact ⟨u, c', how, hbackground', hc', (hsame (by rw [hlife]; rfl)).trans hlife,
      habout'.trans habout⟩
  | announced d _ hd hzombie | unseen d _ hd hzombie =>
    cases hc.symm.trans hd
    cases hlife.symm.trans hzombie

theorem missed_of_sweepFindsEnded (h : SweepFindsEnded s) (hok : SessionOk s) (hlog : QuietLog s)
    (hstep : sessionStep shellPgid s .sweep = some s') : Missed s' := by
  have hbackground' {u : ℕ} := (backgroundProcess_step (u := u) hok hstep).1
  obtain ⟨u, c, how, hbackground, hc, hlife, hwaits⟩ := h
  obtain ⟨caller, pc, job, e, hcontrol, hphase, hjob, he, hpid⟩ := hwaits
  have hfound : findUnreaped s.children e.pid = some u :=
    hpid ▸ findUnreaped_of_unreaped hok.steady.distinct hc (by rw [hlife]; rfl)
  have hreport : s.children[u]?.bind (·.life.report) = some (.ended how) := by
    rw [hc, Option.bind_some, hlife]
    rfl
  simp only [sessionStep, hcontrol, Option.ite_none_right_eq_some] at hstep
  obtain ⟨-, hs'⟩ := hstep
  simp only [sweepStep, hjob, hphase, he, hfound, hreport, Option.some.injEq] at hs'
  have hc' : s'.children[u]? = some { c with life := .reaped how } := by
    rw [← hs']
    simp only [Session.sweepAt, collectChild_eq hc, hlife]
    exact getElem?_setLife_self hc _
  refine ⟨u, _, how, hbackground' hbackground, hc', rfl, ?_⟩
  have hquiet := hlog u fun d hd ↦ by rw [Option.some.inj (hd.symm.trans hc), hlife]; rfl
  rwa [← hs']

theorem quietLog_of_path (hpath : Path (sessionStep shellPgid) (.start table) l s) : QuietLog s :=
  hpath.preserves
    (fun _ _ _ hstep hlog u hu ↦ hlog.step (childStep_of_move (sessionMove_of_step hstep) u) hu)
    fun _ _ ↦ rfl

/-- In a session without `resume ... fg`, every process of a background job that has been reaped has
been announced once, exactly if `job_sweep` has never waited for such a process between its end and
the handler. -/
theorem announcedOnce_iff (hpath : Path (sessionStep shellPgid) (.start table) l s)
    (hforeground : ∀ tr ∈ l, ∀ number, tr.event ≠ .call (.resume number true)) :
    AnnouncedOnce s ↔ ∀ tr ∈ l, tr.event = .sweep → ¬ SweepFindsEnded tr.source := by
  constructor
  · intro hannounced tr htr hsweep hended
    obtain ⟨l₁, l₂, rfl⟩ := List.append_of_mem htr
    obtain ⟨hbefore, hstep, hafter⟩ := hpath.split_cons
    have hok := sessionOk_of_path hbefore
    have hmissed : Missed tr.target ∧ SessionOk tr.target :=
      ⟨missed_of_sweepFindsEnded hended hok (quietLog_of_path hbefore) (hsweep ▸ hstep),
        hok.step hstep⟩
    obtain ⟨⟨u, c, how, hbackground, hc, hlife, habout⟩, -⟩ :=
      hafter.preserves (I := fun s ↦ Missed s ∧ SessionOk s)
        (fun _ _ _ hst hI ↦ ⟨hI.1.step hI.2 hst, hI.2.step hst⟩) hmissed
    obtain ⟨a, ha, -⟩ := hannounced u c how hbackground hc hlife
    cases habout.symm.trans ha
  · intro hsweep
    have hinv : AnnouncedOnce s ∧ SessionOk s ∧ QuietLog s ∧ NoForeground s :=
      hpath.preserves_of (I := fun s ↦ AnnouncedOnce s ∧ SessionOk s ∧ QuietLog s ∧ NoForeground s)
        (Q := fun s e ↦ (∀ number, e ≠ .call (.resume number true)) ∧
          (e = .sweep → ¬ SweepFindsEnded s))
        (fun s e s' hstep hQ ⟨hannounced, hok, hlog, hno⟩ ↦
          have hmove := sessionMove_of_step hstep
          ⟨hannounced.step hok hlog hno hstep hQ.2, hok.step hstep,
            fun u hu ↦ hlog.step (childStep_of_move hmove u) hu, hno.step hmove hQ.1⟩)
        (fun tr htr ↦ ⟨hforeground tr htr, hsweep tr htr⟩)
        ⟨fun _ _ _ ⟨_, hL, _⟩ ↦ absurd hL List.not_mem_nil, sessionOk_start table, fun _ _ ↦ rfl,
          trivial⟩
    exact hinv.1

end Runs

/-- `a | b &`, in which `a` terminates, and then more events. -/
def endedRun (events : List SessionEvent) : List (Transition Session SessionEvent) × Session :=
  sessionRun (.launch [⟨[some [97]], [], []⟩, ⟨[some [98]], [], []⟩] true none allSucceed ::
    .ends 0 (.exited 0) :: events)

/-- The handler runs, and then `activities` waits for `b`. -/
def handledRun : List (Transition Session SessionEvent) × Session :=
  endedRun [.deliver, .handle 0, .handlerReturn, .call .activities, .sweep, .sweep, .sweep, .sweep]

theorem announcedOnce_handledRun : handledRun.1.length = 10 ∧ AnnouncedOnce handledRun.2 ∧
    handledRun.2.about 0 = [⟨[97], 4, true⟩] := by
  have hpath : Path (sessionStep 1) (.start standardTable) handledRun.1 handledRun.2 :=
    path_sessionRun _
  have hevents : (handledRun.1.all fun tr ↦ match tr.event with
      | .call (.resume _ true) => false
      | .sweep => tr.source.children.all fun c ↦ !c.life.terminated || c.life.isReaped
      | _ => true) = true := by
    decide +kernel
  have hiff := announcedOnce_iff hpath fun tr htr number he ↦ by
    have htr' := List.all_eq_true.mp hevents tr htr
    simp [he] at htr'
  refine ⟨by decide +kernel, hiff.mpr fun tr htr he ⟨u, c, how, _, hc, hlife, _⟩ ↦ ?_,
    by decide +kernel⟩
  have htr' := List.all_eq_true.mp hevents tr htr
  rw [he] at htr'
  have hc' := List.all_eq_true.mp htr' c (List.mem_of_getElem? hc)
  rw [hlife] at hc'
  cases hc'

/-- `activities` comes before the handler: `a` is reaped, and never announced. -/
def sweptRun : List (Transition Session SessionEvent) × Session :=
  endedRun [.call .activities, .sweep, .sweep, .sweep, .sweep, .deliver, .handlerReturn]

theorem swept_not_announced :
    Path (sessionStep 1) (.start standardTable) sweptRun.1 sweptRun.2 ∧
    (sweptRun.2.launches.map fun L ↦ (L.background, L.job, L.procs)) =
      [(true, some 1, [0, 1])] ∧
    sweptRun.2.children[0]? = some ⟨4, 4, .reaped (.exited 0)⟩ ∧ sweptRun.2.log = [] ∧
    ¬ AnnouncedOnce sweptRun.2 := by
  have hpath : Path (sessionStep 1) (.start standardTable) sweptRun.1 sweptRun.2 :=
    path_sessionRun _
  have hlaunches : (sweptRun.2.launches.map fun L ↦ (L.background, L.job, L.procs)) =
      [(true, some 1, [0, 1])] := by
    decide +kernel
  have hchild : sweptRun.2.children[0]? = some ⟨4, 4, .reaped (.exited 0)⟩ := by decide +kernel
  have hlog : sweptRun.2.log = [] := by decide +kernel
  refine ⟨hpath, hlaunches, hchild, hlog, fun h ↦ ?_⟩
  obtain ⟨L, hL, hfields⟩ : ∃ L ∈ sweptRun.2.launches,
      (L.background, L.job, L.procs) = (true, some 1, [0, 1]) :=
    List.mem_map.mp (hlaunches ▸ List.mem_singleton_self _)
  simp only [Prod.mk.injEq] at hfields
  obtain ⟨a, ha, -⟩ := h 0 _ _ ⟨L, hL, hfields.1, by rw [hfields.2.1]; rfl, 0, by decide,
    by rw [hfields.2.2]; rfl⟩ hchild rfl
  rw [Session.about, hlog] at ha
  cases ha

end Irish.Shell
