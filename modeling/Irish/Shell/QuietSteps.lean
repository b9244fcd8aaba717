import Irish.Shell.Launches

/-!
# What the steps of a session do to the job table

Three places mark the processes of a job as exited: the handler, `job_sweep` and `resume`. Each of
them has just seen that no child with the pid of the process is left (`Gone`), for unreaped children
have different pids. `job_sweep` may be interrupted by the handler between that and its write, and
between its last write and the moment at which it clears the active flag; `SweepAt` is what it may
rely on all the same. So every step that starts no pipeline is `Quiet`: a process is marked only if
its pid is free, and a job is cleared only if its processes are all marked (`Steady.step`).
-/

set_option autoImplicit false

namespace Irish.Shell

open Library

/-! ### What a step may do to an entry -/

/-- The process of an entry is marked only if its pid is free. -/
structure EntryMoves (children : List ChildProcess) (e e' : JobProc) : Prop where
  pid : e'.pid = e.pid
  cmdName : e'.cmdName = e.cmdName
  keeps : e.exited = true → e'.exited = true
  marked : e'.exited = true → e.exited = true ∨ Gone children e.pid

/-- The active flag is cleared only if all processes are marked. -/
structure JobMoves (children : List ChildProcess) (job job' : Job) : Prop where
  number : job'.jobNumber = job.jobNumber
  active : job'.active = true → job.active = true
  procs : List.Forall₂ (EntryMoves children) job.procs job'.procs
  cleared : job.active = true → job'.active = false → job'.allExited = true

structure TableMoves (children : List ChildProcess) (jobs jobs' : JobTable) : Prop where
  next : jobs'.nextJobNum = jobs.nextJobNum
  slots : List.Forall₂ (JobMoves children) jobs.slots jobs'.slots

variable {result : WaitResult} {job : Job}

section Moves

variable {children : List ChildProcess} {job' job'' : Job} {jobs : JobTable} {r : Report} {pid : ℕ+}
  {p slot : ℕ}

theorem EntryMoves.refl (e : JobProc) : EntryMoves children e e := ⟨rfl, rfl, id, .inl⟩

instance : Std.Refl (EntryMoves children) := ⟨.refl⟩

theorem EntryMoves.trans {e e' e'' : JobProc} (h : EntryMoves children e e')
    (h' : EntryMoves children e' e'') : EntryMoves children e e'' where
  pid := h'.pid.trans h.pid
  cmdName := h'.cmdName.trans h.cmdName
  keeps := fun he ↦ h'.keeps (h.keeps he)
  marked := fun he'' ↦ by
    rcases h'.marked he'' with he' | hgone
    · exact h.marked he'
    · exact .inr (h.pid ▸ hgone)

instance : IsTrans JobProc (EntryMoves children) := ⟨fun _ _ _ ↦ .trans⟩

theorem allExited_iff :
    job.allExited = true ↔ ∀ (p : ℕ) (e : JobProc), job.procs[p]? = some e → e.exited = true := by
  unfold Job.allExited
  rw [List.all_eq_true]
  constructor
  · exact fun h p e he ↦ h e (List.mem_of_getElem? he)
  · intro h e he
    obtain ⟨p, hp⟩ := List.getElem?_of_mem he
    exact h p e hp

theorem JobMoves.refl (job : Job) : JobMoves children job job where
  number := rfl
  active := id
  procs := List.forall₂_refl _
  cleared := fun h h' ↦ by simp [h] at h'

instance : Std.Refl (JobMoves children) := ⟨.refl⟩

theorem JobMoves.trans (h : JobMoves children job job') (h' : JobMoves children job' job'') :
    JobMoves children job job'' where
  number := h'.number.trans h.number
  active := fun ha ↦ h.active (h'.active ha)
  procs := forall₂_trans h.procs h'.procs
  cleared := fun hactive hinactive ↦ by
    cases hmid : job'.active with
    | true => exact h'.cleared hmid hinactive
    | false =>
      have hall := allExited_iff.mp (h.cleared hactive hmid)
      refine allExited_iff.mpr fun p e'' he'' ↦ ?_
      obtain ⟨e', he', hmoves'⟩ := exists_of_forall₂ h'.procs he''
      exact hmoves'.keeps (hall p e' he')

theorem jobMoves_setState (job : Job) (state : JobState) :
    JobMoves children job (job.setState state) where
  number := rfl
  active := id
  procs := List.forall₂_refl _
  cleared := fun h h' ↦ by simp [Job.setState, h] at h'

theorem jobMoves_clear (h : job.allExited = true) : JobMoves children job job.clear where
  number := rfl
  active := nofun
  procs := List.forall₂_refl _
  cleared := fun _ _ ↦ h

theorem jobMoves_markExited (h : ∀ e, job.procs[p]? = some e → Gone children e.pid) :
    JobMoves children job (job.markExited p) where
  number := rfl
  active := id
  procs := forall₂_modify fun e he ↦ ⟨rfl, rfl, fun _ ↦ rfl, fun _ ↦ .inr (h e he)⟩
  cleared := fun h h' ↦ by simp [Job.markExited, h] at h'

theorem TableMoves.refl (jobs : JobTable) : TableMoves children jobs jobs :=
  ⟨rfl, List.forall₂_refl _⟩

theorem tableMoves_modify {f : Job → Job}
    (h : ∀ job, jobs.slots[slot]? = some job → JobMoves children job (f job)) :
    TableMoves children jobs (jobs.modify slot f) :=
  ⟨rfl, forall₂_modify h⟩

/-! ### The operations -/

theorem jobMoves_markExited_clear (h : ∀ e, job.procs[p]? = some e → Gone children e.pid) :
    JobMoves children job
      (if (job.markExited p).allExited then (job.markExited p).clear else job.markExited p) := by
  split
  · exact (jobMoves_markExited h).trans (jobMoves_clear ‹_›)
  · exact jobMoves_markExited h

theorem tableMoves_sigchldTurn (h : ∀ how, r = .ended how → Gone children pid) :
    TableMoves children jobs (jobs.sigchldTurn pid r).1 := by
  unfold JobTable.sigchldTurn
  split
  · exact .refl jobs
  · rename_i slot p hfound
    obtain ⟨job, e, hjob, -, he, hpid⟩ := jobGetByPid_eq_some hfound
    split
    · exact tableMoves_modify fun _ _ ↦ jobMoves_setState _ _
    · exact tableMoves_modify fun _ _ ↦ jobMoves_setState _ _
    · rename_i how
      refine tableMoves_modify fun job' hjob' ↦ jobMoves_markExited_clear fun e' he' ↦ ?_
      cases hjob.symm.trans hjob'
      cases he.symm.trans he'
      exact hpid ▸ h how rfl

theorem jobMoves_resumeMark (h : Gone children pid) :
    JobMoves children job (resumeMark pid job) := by
  unfold resumeMark
  split
  · exact .refl job
  · rename_i p hp
    refine jobMoves_markExited fun e he ↦ ?_
    obtain ⟨hlt, hpid, -⟩ := List.findIdx?_eq_some_iff_getElem.mp hp
    simp only [decide_eq_true_eq] at hpid
    obtain rfl : job.procs[p] = e := by
      rw [List.getElem?_eq_getElem hlt] at he
      exact Option.some.inj he
    exact hpid ▸ h

theorem tableMoves_ping (target : PingTarget) (sig : ℕ) (sent : Bool) :
    TableMoves children jobs (jobs.ping target sig sent) := by
  unfold JobTable.ping
  dsimp only
  split
  · exact tableMoves_modify fun _ _ ↦ jobMoves_setState _ _
  · exact .refl jobs

theorem tableMoves_resume_bg (number : ℕ) : TableMoves children jobs (jobs.resume number none) := by
  unfold JobTable.resume
  split
  · exact .refl jobs
  · exact tableMoves_modify fun _ _ ↦ jobMoves_setState _ _

/-- The results of `waitpid` on which `job_sweep` marks the process. -/
def WaitResult.marks : WaitResult → Bool
  | .failed => true
  | .reported (.ended _) => true
  | _ => false

theorem jobMoves_sweepMark {allExited : Bool}
    (h : result.marks = true → ∀ e, job.procs[p]? = some e → Gone children e.pid) :
    JobMoves children job (sweepMark result p job allExited).1 := by
  unfold sweepMark
  split
  · exact jobMoves_setState _ _
  · exact jobMoves_setState _ _
  · exact jobMoves_markExited (h rfl)
  · exact .refl job
  · exact jobMoves_markExited (h rfl)

end Moves

/-! ### The sweep -/

/-- What `job_sweep` has found out by the time it is at `pc`. -/
structure SweepAt (children : List ChildProcess) (jobs : JobTable) (pc : SweepPc) : Prop where
  swept : ∀ job, jobs.slots[pc.slot]? = some job → pc.allExited = true →
    ∀ (p : ℕ) (e : JobProc), p < pc.proc → job.procs[p]? = some e → e.exited = true
  gone : ∀ job, jobs.slots[pc.slot]? = some job →
    ∀ result, pc.phase = .mark result → result.marks = true →
      ∀ e, job.procs[pc.proc]? = some e → Gone children e.pid

/-- Unreaped children have different pids, and `job_sweep` is right about the processes it has
passed. -/
structure Steady (s : Session) : Prop where
  distinct : PidsDistinct s.children
  sweep : ∀ caller pc, s.control = .sweeping caller pc → SweepAt s.children s.jobs pc

/-- A step that starts no pipeline. -/
structure Quiet (s s' : Session) : Prop where
  launches : s'.launches = s.launches
  table : TableMoves s'.children s.jobs s'.jobs
  children : Later s.children s'.children

section Sweep

variable {children children' : List ChildProcess} {jobs jobs' : JobTable} {pc : SweepPc}
  {s s' : Session} {caller : Caller}

theorem sweepAt_start (children : List ChildProcess) (jobs : JobTable) (slot : ℕ) :
    SweepAt children jobs (.start slot) :=
  ⟨fun _ _ _ p _ hp ↦ absurd hp (Nat.not_lt_zero p), nofun⟩

theorem SweepAt.moves (h : SweepAt children jobs pc) (hmoves : TableMoves children' jobs jobs')
    (hlater : Later children children') (hlength : children'.length = children.length) :
    SweepAt children' jobs' pc where
  swept := fun job' hjob' hall p e' hp he' ↦ by
    obtain ⟨job, hjob, hjobMoves⟩ := exists_of_forall₂ hmoves.slots hjob'
    obtain ⟨e, he, hentry⟩ := exists_of_forall₂ hjobMoves.procs he'
    exact hentry.keeps (h.swept job hjob hall p e hp he)
  gone := fun job' hjob' result hphase hmarks e' he' ↦ by
    obtain ⟨job, hjob, hjobMoves⟩ := exists_of_forall₂ hmoves.slots hjob'
    obtain ⟨e, he, hentry⟩ := exists_of_forall₂ hjobMoves.procs he'
    rw [hentry.pid]
    exact (h.gone job hjob result hphase hmarks e he).later hlater hlength

/-- `job_sweep` clears an entry when its processes are all marked. -/
theorem SweepAt.allExited (h : SweepAt children jobs pc) (hjob : jobs.slots[pc.slot]? = some job)
    (hend : job.procs[pc.proc]? = none) (hall : pc.allExited = true) : job.allExited = true := by
  refine allExited_iff.mpr fun p e he ↦ h.swept job hjob hall p e ?_ he
  have hlt := lt_of_getElem? he
  have hle := List.getElem?_eq_none_iff.mp hend
  omega

/-- The process that `job_sweep` is at is done, as it is marked or is marked now. -/
theorem SweepAt.mark (h : SweepAt children jobs pc) (hjob : jobs.slots[pc.slot]? = some job) :
    SweepAt children
      (jobs.modify pc.slot fun job ↦ (sweepMark result pc.proc job pc.allExited).1)
      ⟨pc.slot, pc.proc + 1, (sweepMark result pc.proc job pc.allExited).2, .check⟩ := by
  refine ⟨fun job' hjob' hall p e' hp he' ↦ ?_, nofun⟩
  obtain rfl : (sweepMark result pc.proc job pc.allExited).1 = job' := by
    simpa [JobTable.modify, hjob] using hjob'
  -- After a result that marks nothing the variable `all_exited` is 0.
  have hmarked (hexited : pc.allExited = true)
      (he' : (job.markExited pc.proc).procs[p]? = some e') : e'.exited = true := by
    simp only [Job.markExited, List.getElem?_modify] at he'
    obtain ⟨e, he, rfl⟩ := Option.map_eq_some_iff.mp he'
    split_ifs with hat
    · rfl
    · exact h.swept job hjob hexited p e (by change p < pc.proc + 1 at hp; omega) he
  unfold sweepMark at hall he'
  split at hall
  · cases hall
  · cases hall
  · exact hmarked hall he'
  · cases hall
  · exact hmarked hall he'

/-- A step after which the program is where it was, or not in `job_sweep`. -/
theorem Steady.moves (h : Steady s) (hmoves : TableMoves s'.children s.jobs s'.jobs)
    (hlater : Later s.children s'.children) (hlength : s'.children.length = s.children.length)
    (hcontrol : s'.control = s.control ∨ ∀ caller pc, s'.control ≠ .sweeping caller pc) :
    Steady s' := by
  refine ⟨h.distinct.later hlater hlength, fun caller pc hpc ↦ ?_⟩
  rcases hcontrol with hsame | hnone
  · exact (h.sweep caller pc (hsame ▸ hpc)).moves hmoves hlater hlength
  · exact absurd hpc (hnone caller pc)

/-- `job_sweep` has gone on to `pc`. -/
theorem Steady.sweepAt (h : Steady s) (hpc : SweepAt s.children s.jobs pc) :
    Steady (s.sweepAt caller pc) := by
  refine ⟨h.distinct, fun caller' pc' heq ↦ ?_⟩
  cases heq
  exact hpc

theorem Quiet.of_eq (hlaunches : s'.launches = s.launches) (hjobs : s'.jobs = s.jobs)
    (hchildren : Later s.children s'.children) : Quiet s s' :=
  ⟨hlaunches, by rw [hjobs]; exact .refl s.jobs, hchildren⟩

theorem Quiet.of_control (s : Session) (caller : Caller) (pc : SweepPc) :
    Quiet s (s.sweepAt caller pc) :=
  .of_eq rfl rfl (.refl _)

/-! One lemma for each operation of `job_sweep`. -/

theorem Steady.sweepEnter (h : Steady s) (hat : SweepAt s.children s.jobs pc)
    (hjob : s.jobs.slots[pc.slot]? = some job) (hphase : pc.phase = .enter) :
    Steady (sweepStep caller pc s) ∧ Quiet s (sweepStep caller pc s) := by
  unfold sweepStep
  simp only [hjob, hphase]
  refine ⟨h.sweepAt ?_, .of_control s caller _⟩
  split
  · exact ⟨hat.swept, nofun⟩
  · exact sweepAt_start _ _ _

theorem Steady.sweepCheck (h : Steady s) (hat : SweepAt s.children s.jobs pc)
    (hjob : s.jobs.slots[pc.slot]? = some job) (hphase : pc.phase = .check) :
    Steady (sweepStep caller pc s) ∧ Quiet s (sweepStep caller pc s) := by
  unfold sweepStep
  simp only [hjob, hphase]
  split
  · rename_i hend
    have hmoves : TableMoves s.children s.jobs
        (if pc.allExited then s.jobs.modify pc.slot Job.clear else s.jobs) := by
      split
      · rename_i hall
        refine tableMoves_modify fun job' hjob' ↦ jobMoves_clear ?_
        cases hjob.symm.trans hjob'
        exact hat.allExited hjob hend hall
      · exact .refl _
    refine ⟨⟨h.distinct, fun caller' pc' heq ↦ ?_⟩, rfl, hmoves, .refl _⟩
    cases heq
    exact sweepAt_start _ _ _
  · rename_i e he
    refine ⟨h.sweepAt ?_, .of_control s caller _⟩
    split
    · rename_i hexited
      refine ⟨fun job' hjob' hall p e' hp he' ↦ ?_, fun _ _ result hmark ↦ ?_⟩
      · cases hjob.symm.trans hjob'
        rcases eq_or_ne p pc.proc with rfl | hpp
        · cases he.symm.trans he'
          exact hexited
        · exact hat.swept job hjob hall p e' (Nat.lt_of_le_of_ne (Nat.le_of_lt_succ hp) hpp) he'
      · cases hmark
    · exact ⟨hat.swept, nofun⟩

theorem Steady.sweepWait (h : Steady s) (hat : SweepAt s.children s.jobs pc)
    (hjob : s.jobs.slots[pc.slot]? = some job) (hphase : pc.phase = .wait) :
    Steady (sweepStep caller pc s) ∧ Quiet s (sweepStep caller pc s) := by
  -- The write that follows is to the process whose pid has been waited for.
  have hmark {children : List ChildProcess} {e : JobProc} {result : WaitResult}
      (he : job.procs[pc.proc]? = some e) (hgone : result.marks = true → Gone children e.pid) :
      SweepAt children s.jobs { pc with phase := .mark result } := by
    refine ⟨hat.swept, fun job' hjob' result' hresult hmarks e' he' ↦ ?_⟩
    cases hjob.symm.trans hjob'
    cases he.symm.trans he'
    cases hresult
    exact hgone hmarks
  unfold sweepStep
  simp only [hjob, hphase]
  split
  · exact ⟨h, .of_eq rfl rfl (.refl _)⟩
  rename_i e he
  split
  · rename_i hnone
    exact ⟨h.sweepAt (hmark he fun _ ↦ findUnreaped_eq_none hnone), .of_control s caller _⟩
  rename_i u hu
  obtain ⟨c, hc, hpid, -⟩ := findUnreaped_eq_some hu
  split
  · exact ⟨h.sweepAt (hmark he nofun), .of_control s caller _⟩
  rename_i r hreport
  rw [hc, Option.bind_some] at hreport
  have hlater := later_collectChild hc
  refine ⟨⟨h.distinct.later hlater (length_collectChild _ _), fun caller' pc' heq ↦ ?_⟩,
    rfl, .refl _, hlater⟩
  cases heq
  refine hmark he fun hmarks ↦ ?_
  cases r with
  | ended => exact hpid ▸ gone_collectChild h.distinct hc hreport
  | noticed => cases hmarks

theorem Steady.sweepMark (h : Steady s) (hat : SweepAt s.children s.jobs pc)
    (hjob : s.jobs.slots[pc.slot]? = some job) (hphase : pc.phase = .mark result) :
    Steady (sweepStep caller pc s) ∧ Quiet s (sweepStep caller pc s) := by
  have hmoves : TableMoves s.children s.jobs
      (s.jobs.modify pc.slot fun job ↦ (Shell.sweepMark result pc.proc job pc.allExited).1) :=
    tableMoves_modify fun job' hjob' ↦ jobMoves_sweepMark fun hmarks e he ↦
      hat.gone job' hjob' result hphase hmarks e he
  unfold sweepStep
  simp only [hjob, hphase]
  refine ⟨⟨h.distinct, fun caller' pc' heq ↦ ?_⟩, rfl, hmoves, .refl _⟩
  cases heq
  exact hat.mark hjob

theorem Steady.sweepStep (h : Steady s) (hcontrol : s.control = .sweeping caller pc) :
    Steady (sweepStep caller pc s) ∧ Quiet s (sweepStep caller pc s) := by
  have hat := h.sweep caller pc hcontrol
  cases hjob : s.jobs.slots[pc.slot]? with
  | none =>
    unfold Shell.sweepStep
    simp only [hjob]
    exact ⟨h.moves (.refl _) (.refl _) rfl (.inr nofun), .of_eq rfl rfl (.refl _)⟩
  | some =>
    cases hphase : pc.phase with
    | enter => exact h.sweepEnter hat hjob hphase
    | check => exact h.sweepCheck hat hjob hphase
    | wait => exact h.sweepWait hat hjob hphase
    | mark result => exact h.sweepMark hat hjob hphase

end Sweep

/-! ### Steps -/

section Steps

variable {shellPgid : ℕ+} {s s' : Session} {e : SessionEvent}

theorem Quiet.actStep (caller : Caller) (s : Session) : Quiet s (actStep caller s) := by
  unfold Shell.actStep
  split
  · exact .of_eq rfl rfl (.refl _)
  · exact .of_eq rfl rfl (.refl _)
  · exact ⟨rfl, tableMoves_ping _ _ _, .refl _⟩
  · exact ⟨rfl, tableMoves_resume_bg _, .refl _⟩
  · split
    · exact .of_eq rfl rfl (.refl _)
    · exact ⟨rfl, tableMoves_modify fun _ _ ↦ jobMoves_setState _ _, .refl _⟩

theorem actStep_control (caller : Caller) (s : Session) :
    ((actStep caller s).control = .prompt ∨ ∃ number slot,
      caller = .resume number true ∧ (actStep caller s).control = .foreground slot) ∧
      (actStep caller s).children = s.children ∧ (actStep caller s).log = s.log := by
  unfold actStep
  split
  · exact ⟨.inl rfl, rfl, rfl⟩
  · exact ⟨.inl rfl, rfl, rfl⟩
  · exact ⟨.inl rfl, rfl, rfl⟩
  · exact ⟨.inl rfl, rfl, rfl⟩
  · split
    · exact ⟨.inl rfl, rfl, rfl⟩
    · exact ⟨.inr ⟨_, _, rfl, rfl⟩, rfl, rfl⟩

/-- Every step keeps the invariant, and is quiet unless it starts a pipeline. -/
theorem Steady.step (h : Steady s) (hmove : SessionMove shellPgid s e s') :
    Steady s' ∧ (Quiet s s' ∨ ∃ cmds isBg cmdLine o new L, e = .launch cmds isBg cmdLine o ∧
      Launched cmds isBg o s s' new L) := by
  cases hmove with
  | @launch cmds isBg cmdLine o hcontrol hfresh =>
    obtain ⟨new, L, hlaunched⟩ := launched_launch hcontrol hfresh
    refine ⟨⟨?_, fun caller pc hpc ↦ ?_⟩, .inr ⟨cmds, isBg, cmdLine, o, new, L, rfl, hlaunched⟩⟩
    · rw [hlaunched.children]
      exact h.distinct.append hlaunched.fresh
    · cases hlaunched.control.symm.trans hpc
  | helper hcontrol hfresh =>
    refine ⟨⟨h.distinct.append hfresh, fun caller pc hpc ↦ ?_⟩,
      .inl (.of_eq rfl rfl (.append _ _))⟩
    cases hcontrol.symm.trans hpc
  | reapHelper hc hlife =>
    have hlater := later_setLife hc (by rw [hlife]; exact .inr rfl)
    exact ⟨h.moves (.refl _) hlater (length_setLife _ _ _) (.inl rfl),
      .inl (.of_eq rfl rfl hlater)⟩
  | @live _ u _ _ life hc hlife =>
    have hlater : Later s.children (setLife s.children u life) :=
      later_setLife hc (by rw [hlife]; trivial)
    exact ⟨h.moves (.refl _) hlater (length_setLife _ _ _) (.inl rfl),
      .inl (.of_eq rfl rfl hlater)⟩
  | handler =>
    exact ⟨h.moves (.refl _) (.refl _) rfl (.inl rfl), .inl (.of_eq rfl rfl (.refl _))⟩
  | @handle u c r hc hreport =>
    have hlater := later_collectChild hc
    have hmoves : TableMoves (collectChild s.children u) s.jobs (s.jobs.sigchldTurn c.pid r).1 :=
      tableMoves_sigchldTurn fun how hr ↦ gone_collectChild h.distinct hc (hr ▸ hreport)
    exact ⟨h.moves hmoves hlater (length_collectChild _ _) (.inl rfl),
      .inl ⟨rfl, hmoves, hlater⟩⟩
  | call caller => exact ⟨h.sweepAt (sweepAt_start _ _ _), .inl (.of_control s caller _)⟩
  | sweep hcontrol =>
    obtain ⟨hsteady, hquiet⟩ := h.sweepStep hcontrol
    exact ⟨hsteady, .inl hquiet⟩
  | @act caller =>
    obtain ⟨hact, hchildren, -⟩ := actStep_control caller s
    have hquiet := Quiet.actStep caller s
    refine ⟨h.moves hquiet.table hquiet.children (by rw [hchildren]) (.inr fun _ _ hsweep ↦ ?_),
      .inl hquiet⟩
    rcases hact with hact | ⟨_, _, -, hact⟩
    · cases hact.symm.trans hsweep
    · cases hact.symm.trans hsweep
  | block | resumeFailed =>
    exact ⟨h.moves (.refl _) (.refl _) rfl (.inr nofun), .inl (.of_eq rfl rfl (.refl _))⟩
  | @resumeTurn slot u c r _ hc hreport =>
    have hlater := later_collectChild hc
    cases r with
    | ended how =>
      have hmoves : TableMoves (collectChild s.children u) s.jobs
          (s.jobs.modify slot (resumeMark c.pid)) :=
        tableMoves_modify fun _ _ ↦ jobMoves_resumeMark (gone_collectChild h.distinct hc hreport)
      exact ⟨h.moves hmoves hlater (length_collectChild _ _) (.inl rfl),
        .inl ⟨rfl, hmoves, hlater⟩⟩
    | noticed =>
      have hmoves : TableMoves (collectChild s.children u) s.jobs
          (s.jobs.modify slot (·.setState .stopped)) :=
        tableMoves_modify fun _ _ ↦ jobMoves_setState _ _
      exact ⟨h.moves hmoves hlater (length_collectChild _ _) (.inr nofun),
        .inl ⟨rfl, hmoves, hlater⟩⟩
  | @resumeDone slot job hjob hall =>
    have hmoves : TableMoves s.children s.jobs (s.jobs.modify slot Job.clear) := by
      refine tableMoves_modify fun job' hjob' ↦ jobMoves_clear ?_
      cases hjob.symm.trans hjob'
      exact hall
    exact ⟨h.moves hmoves (.refl _) rfl (.inr nofun), .inl ⟨rfl, hmoves, .refl _⟩⟩

theorem steady_start (table : Table) : Steady (.start table) :=
  ⟨fun _ _ _ _ hc ↦ by simp [Session.start] at hc, nofun⟩

end Steps

end Irish.Shell
