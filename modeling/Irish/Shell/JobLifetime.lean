import Mathlib.Data.List.Perm.Subperm
import Irish.Shell.PipeEnds
import Irish.Shell.QuietSteps

/-!
# How long a job is in the table

A job is followed by the number it was given. Its entry has the first `MAX_PROCS_PER_JOB` processes
of its pipeline, marks only those that have been reaped, and is active until they are all marked
(`Tracked`); this is so in every state of a session, whatever pids are given out again. What the
table does not see are the processes that `job_add_proc` could not record, and a pipeline for which
`job_add` found no entry: if every pipeline that is to become a job has room, its entry lasts as
long as its processes (`entryLasts_of_fits`).
-/

set_option autoImplicit false

namespace Irish.Shell

open Library

/-! ### Jobs and their processes -/

/-- The entry of a job has the first processes of its pipeline, and those it marks are reaped. -/
structure Recorded (children : List ChildProcess) (job : Job) (L : Launch) : Prop where
  length : job.procs.length = min maxProcsPerJob L.procs.length
  procs : ∀ (p : ℕ) (e : JobProc), job.procs[p]? = some e → ∃ u c, L.procs[p]? = some u ∧
    children[u]? = some c ∧ c.pid = e.pid ∧ (e.exited = true → c.life.isReaped = true)

/-- An active entry of a job. -/
def IsJob (jobs : JobTable) (number slot : ℕ) (job : Job) : Prop :=
  jobs.slots[slot]? = some job ∧ job.active = true ∧ job.jobNumber = number

/-- A job that has been given a number: its entry is right as long as it is active, and is active as
long as a process in it has not been reaped. -/
structure Tracked (s : Session) (L : Launch) (number : ℕ) : Prop where
  below : number < s.jobs.nextJobNum
  recorded : ∀ slot job, IsJob s.jobs number slot job → Recorded s.children job L
  active : (∃ slot job, IsJob s.jobs number slot job) ∨
    ∀ (p u : ℕ), p < maxProcsPerJob → L.procs[p]? = some u →
      ∃ c, s.children[u]? = some c ∧ c.life.isReaped = true

section Tracked

variable {children children' new : List ChildProcess} {job job' : Job} {L L' : Launch}
  {s s' : Session} {number p : ℕ} {cmds : List SingleCommand} {isBg : Bool} {o : PipelineOutcome}

theorem Recorded.moves (h : Recorded children job L) (hmoves : JobMoves children' job job')
    (hlater : Later children children') : Recorded children' job' L where
  length := hmoves.procs.length_eq.symm.trans h.length
  procs := fun p e' he' ↦ by
    obtain ⟨e, he, hentry⟩ := exists_of_forall₂ hmoves.procs he'
    obtain ⟨u, c, hu, hc, hpid, hexited⟩ := h.procs p e he
    obtain ⟨c', hc', hpid', -, hlife⟩ := hlater u c hc
    have hsame : c'.pid = e.pid := hpid'.trans hpid
    refine ⟨u, c', hu, hc', hsame.trans hentry.pid.symm, fun he'' ↦ ?_⟩
    rcases hentry.marked he'' with hold | hgone
    · exact hlife.isReaped (hexited hold)
    · exact hgone c' (List.mem_of_getElem? hc') hsame

theorem Recorded.exists_entry (h : Recorded children job L) {u : ℕ} (hp : p < maxProcsPerJob)
    (hu : L.procs[p]? = some u) : ∃ e c, job.procs[p]? = some e ∧ children[u]? = some c ∧
      c.pid = e.pid ∧ (e.exited = true → c.life.isReaped = true) := by
  have hlt : p < job.procs.length := by
    have hlength := lt_of_getElem? hu
    rw [h.length]
    omega
  have he := List.getElem?_eq_getElem hlt
  obtain ⟨u', c, hu', hc, hpid, hreaped⟩ := h.procs p _ he
  cases hu.symm.trans hu'
  exact ⟨_, c, he, hc, hpid, hreaped⟩

/-- All processes of an entry are reaped when they are all marked. -/
theorem Recorded.reaped (h : Recorded children job L) (hall : job.allExited = true) {p u : ℕ}
    (hp : p < maxProcsPerJob) (hu : L.procs[p]? = some u) :
    ∃ c, children[u]? = some c ∧ c.life.isReaped = true := by
  obtain ⟨e, c, he, hc, -, hreaped⟩ := h.exists_entry hp hu
  exact ⟨c, hc, hreaped (allExited_iff.mp hall p e he)⟩

/-- A process that has not been reaped is in an active entry, and is not marked there. -/
theorem Tracked.exists_entry (h : Tracked s L number) {u : ℕ} {c : ChildProcess}
    (hp : p < maxProcsPerJob) (hu : L.procs[p]? = some u) (hc : s.children[u]? = some c)
    (hunreaped : c.life.isReaped = false) :
    ∃ slot job e, IsJob s.jobs number slot job ∧ job.procs[p]? = some e ∧ e.pid = c.pid ∧
      e.exited = false := by
  rcases h.active with ⟨slot, job, hentry⟩ | hreaped
  · obtain ⟨e, c', he, hc', hpid, hexited⟩ := (h.recorded slot job hentry).exists_entry hp hu
    cases hc.symm.trans hc'
    refine ⟨slot, job, e, hentry, he, hpid.symm, Bool.eq_false_iff.mpr fun hmarked ↦ ?_⟩
    simp [hexited hmarked] at hunreaped
  · obtain ⟨c', hc', hlife⟩ := hreaped p u hp hu
    cases hc.symm.trans hc'
    simp [hlife] at hunreaped

theorem Tracked.quiet (h : Tracked s L number) (hquiet : Quiet s s') : Tracked s' L number where
  below := hquiet.table.next ▸ h.below
  recorded := by
    rintro slot job' ⟨hjob', hactive', hnumber'⟩
    obtain ⟨job, hjob, hmoves⟩ := exists_of_forall₂ hquiet.table.slots hjob'
    exact (h.recorded slot job ⟨hjob, hmoves.active hactive', hmoves.number ▸ hnumber'⟩).moves
      hmoves hquiet.children
  active := by
    rcases h.active with ⟨slot, job, hjob, hactive, hnumber⟩ | hreaped
    · obtain ⟨job', hjob', hmoves⟩ := exists_of_forall₂_left hquiet.table.slots hjob
      cases hactive' : job'.active with
      | true => exact .inl ⟨slot, job', hjob', hactive', hmoves.number.trans hnumber⟩
      | false =>
        right
        intro p u hp hu
        have hrecorded := (h.recorded slot job ⟨hjob, hactive, hnumber⟩).moves hmoves
          hquiet.children
        exact hrecorded.reaped (hmoves.cleared hactive hactive') hp hu
    · right
      intro p u hp hu
      obtain ⟨c, hc, hlife⟩ := hreaped p u hp hu
      obtain ⟨c', hc', -, -, hbefore⟩ := hquiet.children u c hc
      exact ⟨c', hc', hbefore.isReaped hlife⟩

theorem Launched.later (h : Launched cmds isBg o s s' new L) : Later s.children s'.children := by
  rw [h.children]
  exact .append _ _

/-- The children of a pipeline are the new ones. -/
theorem Launched.mem_launches (h : Launched cmds isBg o s s' new L) :
    L' ∈ s'.launches ↔ L' ∈ s.launches ∨ L' = L := by
  rw [h.launches, List.mem_append, List.mem_singleton]

theorem Launched.getElem?_procs (h : Launched cmds isBg o s s' new L) {u : ℕ}
    (hu : L.procs[p]? = some u) :
    u = s.children.length + p ∧ ∃ c, new[p]? = some c ∧ s'.children[u]? = some c := by
  rw [h.procs, List.getElem?_map] at hu
  obtain ⟨q, hq, rfl⟩ := Option.map_eq_some_iff.mp hu
  obtain ⟨hlt, hpq⟩ := List.getElem?_eq_some_iff.mp hq
  obtain rfl : p = q := by simpa using hpq
  have hp : p < new.length := by simpa using hlt
  refine ⟨rfl, new[p], List.getElem?_eq_getElem hp, ?_⟩
  rw [h.children, List.getElem?_append_right (Nat.le_add_right _ _), Nat.add_sub_cancel_left,
    List.getElem?_eq_getElem hp]

theorem Launched.length_procs (h : Launched cmds isBg o s s' new L) :
    L.procs.length = new.length := by
  rw [h.procs, List.length_map, List.length_range]

/-- A job is as it was when another is added. -/
theorem Tracked.launched (h : Tracked s L number) (hnew : Launched cmds isBg o s s' new L') :
    Tracked s' L number := by
  have hreaped {p u : ℕ} (hold : ∃ c, s.children[u]? = some c ∧ c.life.isReaped = true) :
      ∃ c, s'.children[u]? = some c ∧ c.life.isReaped = true := by
    obtain ⟨c, hc, hlife⟩ := hold
    obtain ⟨c', hc', -, -, hbefore⟩ := hnew.later u c hc
    exact ⟨c', hc', hbefore.isReaped hlife⟩
  rcases hnew.job with ⟨-, hjobs, -⟩ | ⟨slot, job, -, hadded⟩
  · refine ⟨hjobs ▸ h.below, fun slot job hjob ↦ ?_, ?_⟩
    · exact (h.recorded slot job (hjobs ▸ hjob)).moves (.refl job) hnew.later
    · rw [hjobs]
      exact h.active.imp_right fun hall p u hp hu ↦ hreaped (p := p) (hall p u hp hu)
  · refine ⟨by rw [hadded.next]; exact Nat.lt_succ_of_lt h.below, ?_, ?_⟩
    · rintro slot' job' ⟨hjob', hactive', hnumber'⟩
      rcases hadded.cases hjob' with ⟨-, rfl⟩ | ⟨-, hold⟩
      · have hbelow := h.below
        rw [← hnumber', hadded.number] at hbelow
        exact absurd hbelow (Nat.lt_irrefl _)
      · exact (h.recorded slot' job' ⟨hold, hactive', hnumber'⟩).moves (.refl job') hnew.later
    · rcases h.active with ⟨slot', job', hjob', hactive', hnumber'⟩ | hall
      · exact .inl ⟨slot', job', hadded.getElem?_active hjob' hactive', hactive', hnumber'⟩
      · exact .inr fun p u hp hu ↦ hreaped (p := p) (hall p u hp hu)

/-- A new job has an active entry with the first of its processes. -/
theorem Launched.tracked (h : Launched cmds isBg o s s' new L) (hjob : L.job = some number)
    (hbelow : ∀ job ∈ s.jobs.slots, job.jobNumber < s.jobs.nextJobNum) : Tracked s' L number := by
  rcases h.job with ⟨hnone, -⟩ | ⟨slot, job, hnumber, hadded⟩
  · cases hnone.symm.trans hjob
  cases hnumber.symm.trans hjob
  refine ⟨by rw [hadded.next]; exact Nat.lt_succ_self _, ?_,
    .inl ⟨slot, job, hadded.getElem?_self, hadded.active, hadded.number⟩⟩
  rintro slot' job' ⟨hjob', hactive', hnumber'⟩
  rcases hadded.cases hjob' with ⟨-, rfl⟩ | ⟨-, hold⟩
  · refine ⟨by rw [hadded.length_procs, h.length_procs, List.length_map], fun p e he ↦ ?_⟩
    have hpid := hadded.getElem?_pids he
    rw [List.getElem?_map] at hpid
    obtain ⟨c, hc, hcpid⟩ := Option.map_eq_some_iff.mp hpid
    have hu : L.procs[p]? = some (s.children.length + p) := by
      rw [h.procs, List.getElem?_map,
        List.getElem?_range (lt_of_getElem? hc), Option.map_some]
    obtain ⟨-, c', hc', hc''⟩ := h.getElem?_procs hu
    cases hc.symm.trans hc'
    refine ⟨_, c, hu, hc'', hcpid, fun hexited ↦ ?_⟩
    simp [hadded.unmarked e (List.mem_of_getElem? he)] at hexited
  · have hless := hbelow job' (List.mem_of_getElem? hold)
    rw [hnumber'] at hless
    exact absurd hless (Nat.lt_irrefl _)

end Tracked

/-! ### Runs -/

/-- What holds in every state of a session. -/
structure SessionOk (s : Session) : Prop where
  steady : Steady s
  numbers : ∀ job ∈ s.jobs.slots, job.jobNumber < s.jobs.nextJobNum
  procs : ∀ L ∈ s.launches, ∀ u ∈ L.procs, u < s.children.length
  tracked : ∀ L ∈ s.launches, ∀ number, L.job = some number → Tracked s L number

section Runs

variable {shellPgid : ℕ+} {table : Table} {s s' : Session} {e : SessionEvent}
  {l : List (Transition Session SessionEvent)} {L : Launch}

theorem SessionOk.quiet (h : SessionOk s) (hsteady : Steady s') (hquiet : Quiet s s') :
    SessionOk s' where
  steady := hsteady
  numbers := fun job' hjob' ↦ by
    obtain ⟨slot, hslot⟩ := List.getElem?_of_mem hjob'
    obtain ⟨job, hjob, hmoves⟩ := exists_of_forall₂ hquiet.table.slots hslot
    rw [hquiet.table.next, hmoves.number]
    exact h.numbers job (List.mem_of_getElem? hjob)
  procs := fun L hL u hu ↦
    Nat.lt_of_lt_of_le (h.procs L (hquiet.launches ▸ hL) u hu) hquiet.children.length_le
  tracked := fun L hL number hjob ↦ (h.tracked L (hquiet.launches ▸ hL) number hjob).quiet hquiet

theorem SessionOk.launched (h : SessionOk s) (hsteady : Steady s') {cmds : List SingleCommand}
    {isBg : Bool} {o : PipelineOutcome} {new : List ChildProcess}
    (hnew : Launched cmds isBg o s s' new L) : SessionOk s' where
  steady := hsteady
  numbers := fun job' hjob' ↦ by
    rcases hnew.job with ⟨-, hjobs, -⟩ | ⟨slot, job, -, hadded⟩
    · rw [hjobs] at hjob' ⊢
      exact h.numbers job' hjob'
    · rw [hadded.next]
      obtain ⟨i, hi⟩ := List.getElem?_of_mem hjob'
      rcases hadded.cases hi with ⟨-, rfl⟩ | ⟨-, hold⟩
      · rw [hadded.number]
        exact Nat.lt_succ_self _
      · exact Nat.lt_succ_of_lt (h.numbers job' (List.mem_of_getElem? hold))
  procs := fun L' hL' u hu ↦ by
    rcases hnew.mem_launches.mp hL' with hL' | rfl
    · exact Nat.lt_of_lt_of_le (h.procs L' hL' u hu) hnew.later.length_le
    · obtain ⟨p, hp⟩ := List.getElem?_of_mem hu
      obtain ⟨-, c, -, hc⟩ := hnew.getElem?_procs hp
      exact lt_of_getElem? hc
  tracked := fun L' hL' number hjob ↦ by
    rcases hnew.mem_launches.mp hL' with hL' | rfl
    · exact (h.tracked L' hL' number hjob).launched hnew
    · exact hnew.tracked hjob h.numbers

theorem SessionOk.step (h : SessionOk s) (hstep : sessionStep shellPgid s e = some s') :
    SessionOk s' := by
  obtain ⟨hsteady, hquiet | ⟨_, _, _, _, _, _, -, hnew⟩⟩ :=
    h.steady.step (sessionMove_of_step hstep)
  · exact h.quiet hsteady hquiet
  · exact h.launched hsteady hnew

theorem sessionOk_start (table : Table) : SessionOk (.start table) where
  steady := steady_start table
  numbers := numbered_empty.below
  procs := nofun
  tracked := nofun

theorem sessionOk_of_path (hpath : Path (sessionStep shellPgid) (.start table) l s) : SessionOk s :=
  hpath.preserves (fun _ _ _ hstep hok ↦ hok.step hstep) (sessionOk_start table)

/-! ### How long an entry lasts -/

/-- A pipeline that is to become a job has at most `MAX_PROCS_PER_JOB` processes, and the table has
an entry for it. -/
def Fits (jobs : JobTable) : SessionEvent → Prop
  | .launch cmds isBg _ o => forkedPids cmds o ≠ [] →
      (isBg = true ∨ ∃ pid ∈ forkedPids cmds o, o.waits pid = .stopped) →
      (forkedPids cmds o).length ≤ maxProcsPerJob ∧ ∃ job ∈ jobs.slots, job.active = false
  | _ => True

instance (jobs : JobTable) : (e : SessionEvent) → Decidable (Fits jobs e)
  | .launch _ _ _ _ => inferInstanceAs (Decidable (_ → _ → _ ∧ ∃ job ∈ jobs.slots, _))
  | .helper _ | .reapHelper _ | .ends _ _ | .notice _ _ | .deliver | .handle _ | .handlerReturn
  | .call _ | .sweep | .act | .block | .resumeTurn _ | .resumeEnd => isTrue trivial

/-- A pipeline in the background or stopped in the foreground has an active entry as long as one of
its processes has not terminated. -/
def EntryLasts (s : Session) : Prop :=
  ∀ L ∈ s.launches, L.wantsJob = true →
    (∃ u ∈ L.procs, ∃ c, s.children[u]? = some c ∧ c.life.terminated = false) →
    ∃ number slot job, L.job = some number ∧ IsJob s.jobs number slot job

/-- A step clears the active flag of a job only when all its processes have terminated. -/
def ClearsTerminated (tr : Transition Session SessionEvent) : Prop :=
  ∀ L ∈ tr.source.launches, L.wantsJob = true → ∀ number, L.job = some number →
    (∃ slot job, IsJob tr.source.jobs number slot job) →
    (¬ ∃ slot job, IsJob tr.target.jobs number slot job) →
    ∀ u ∈ L.procs, ∃ c, tr.target.children[u]? = some c ∧ c.life.terminated = true

/-- The entries of the jobs have all their processes. -/
def Whole (s : Session) : Prop :=
  ∀ L ∈ s.launches, L.wantsJob = true → L.procs ≠ [] →
    L.procs.length ≤ maxProcsPerJob ∧ ∃ number, L.job = some number

theorem Launched.whole {cmds : List SingleCommand} {isBg : Bool} {cmdLine : Option (List Byte)}
    {o : PipelineOutcome} {new : List ChildProcess} (hnew : Launched cmds isBg o s s' new L)
    (hfits : Fits s.jobs (.launch cmds isBg cmdLine o)) (hwants : L.wantsJob = true)
    (hne : L.procs ≠ []) : L.procs.length ≤ maxProcsPerJob ∧ ∃ number, L.job = some number := by
  have hlength := hnew.length_procs
  have hnew_ne : new ≠ [] := by
    rintro rfl
    exact hne (List.eq_nil_of_length_eq_zero hlength)
  have hsubset : new.map (·.pid) ⊆ forkedPids cmds o := by
    intro pid hpid
    obtain ⟨c, hc, rfl⟩ := List.mem_map.mp hpid
    exact hnew.forked c hc
  have hle := (List.Nodup.subperm hnew.fresh.1 hsubset).length_le
  rw [List.length_map, ← hlength] at hle
  obtain ⟨hcount, job, hjob, hfree⟩ := hfits
    (fun hnil ↦ hne (List.eq_nil_of_length_eq_zero (by simpa [hnil] using hle)))
    ((hnew.wants hwants).imp_right fun ⟨c, hc, hstopped⟩ ↦ ⟨c.pid, hnew.forked c hc, hstopped⟩)
  refine ⟨Nat.le_trans hle hcount, ?_⟩
  rcases hnew.job with ⟨-, -, hfull⟩ | ⟨-, -, hnumber, -⟩
  · simp [hfull hwants hnew_ne job hjob] at hfree
  · exact ⟨_, hnumber⟩

theorem Whole.step (h : Whole s) (hok : SessionOk s) (hstep : sessionStep shellPgid s e = some s')
    (hfits : Fits s.jobs e) : Whole s' := by
  obtain ⟨-, hquiet | ⟨cmds, isBg, cmdLine, o, new, L, rfl, hnew⟩⟩ :=
    hok.steady.step (sessionMove_of_step hstep)
  · exact fun L hL ↦ h L (hquiet.launches ▸ hL)
  · intro L' hL' hwants hne
    rcases hnew.mem_launches.mp hL' with hL' | rfl
    · exact h L' hL' hwants hne
    · exact hnew.whole hfits hwants hne

theorem Whole.entryLasts (h : Whole s) (hok : SessionOk s) : EntryLasts s := by
  rintro L hL hwants ⟨u, hu, c, hc, hlive⟩
  obtain ⟨hcount, number, hjob⟩ := h L hL hwants (List.ne_nil_of_mem hu)
  obtain ⟨p, hp⟩ := List.getElem?_of_mem hu
  have hlt : p < L.procs.length := lt_of_getElem? hp
  have hunreaped : c.life.isReaped = false := Bool.eq_false_iff.mpr fun hreaped ↦ by
    simp [Life.terminated_of_isReaped hreaped] at hlive
  obtain ⟨slot, job, -, hentry, -⟩ := (hok.tracked L hL number hjob).exists_entry
    (Nat.lt_of_lt_of_le hlt hcount) hp hc hunreaped
  exact ⟨number, slot, job, hjob, hentry⟩

theorem whole_of_path (hpath : Path (sessionStep shellPgid) (.start table) l s)
    (hfits : ∀ tr ∈ l, Fits tr.source.jobs tr.event) : Whole s ∧ SessionOk s :=
  hpath.preserves_of (I := fun s ↦ Whole s ∧ SessionOk s) (Q := fun s e ↦ Fits s.jobs e)
    (fun _ _ _ hstep hfits hI ↦ ⟨hI.1.step hI.2 hstep hfits, hI.2.step hstep⟩) hfits
    ⟨nofun, sessionOk_start table⟩

/-- In every state of a session in which each pipeline that is to become a job has at most
`MAX_PROCS_PER_JOB` processes and finds an entry, a job has an active entry as long as one of its
processes has not terminated, and no step has cleared the flag before. -/
theorem entryLasts_of_fits (hpath : Path (sessionStep shellPgid) (.start table) l s)
    (hfits : ∀ tr ∈ l, Fits tr.source.jobs tr.event) :
    EntryLasts s ∧ ∀ tr ∈ l, ClearsTerminated tr := by
  obtain ⟨hwhole, hok⟩ := whole_of_path hpath hfits
  refine ⟨hwhole.entryLasts hok, fun tr htr L hL hwants number hjob _ hcleared u hu ↦ ?_⟩
  obtain ⟨l₁, l₂, rfl⟩ := List.append_of_mem htr
  obtain ⟨hbefore, hstep, -⟩ := hpath.split_cons
  have hprefix := hbefore.append (.single hstep)
  obtain ⟨hwhole', hok'⟩ := whole_of_path hprefix fun tr' htr' ↦
    hfits tr' (by simp only [List.mem_append, List.mem_cons] at htr' ⊢; tauto)
  have hL' : L ∈ tr.target.launches := by
    obtain ⟨-, hquiet | ⟨_, _, _, _, _, _, -, hnew⟩⟩ :=
      (sessionOk_of_path hbefore).steady.step (sessionMove_of_step hstep)
    · exact hquiet.launches ▸ hL
    · exact hnew.mem_launches.mpr (.inl hL)
  have hc := List.getElem?_eq_getElem (hok'.procs L hL' u hu)
  refine ⟨_, hc, ?_⟩
  by_contra hlive
  obtain ⟨number', slot, job, hjob', hentry⟩ :=
    hwhole'.entryLasts hok' L hL' hwants ⟨u, hu, _, hc, Bool.eq_false_iff.mpr hlive⟩
  cases hjob.symm.trans hjob'
  exact hcleared ⟨slot, job, hentry⟩

end Runs

/-- The run of a shell in the process group 1 on a list of events. -/
def sessionRun (events : List SessionEvent) : List (Transition Session SessionEvent) × Session :=
  replay (sessionStep 1) (.start standardTable) events

theorem path_sessionRun (events : List SessionEvent) :
    Path (sessionStep 1) (.start standardTable) (sessionRun events).1 (sessionRun events).2 :=
  path_replay _ _

/-- `a | a | ... &`, whose processes terminate in their order up to the last, and are announced. -/
def endingEvents (count : ℕ) : List SessionEvent :=
  .launch (List.replicate (count + 1) ⟨[some [97]], [], []⟩) true none allSucceed ::
    (List.range count).map (.ends · (.exited 0)) ++
    .deliver :: (List.range count).map .handle ++ [.handlerReturn]

def endingRun (count : ℕ) : List (Transition Session SessionEvent) × Session :=
  sessionRun (endingEvents count)

theorem entryLasts_endingRun : (endingRun 2).1.length = 7 ∧
    (∀ tr ∈ (endingRun 2).1, Fits tr.source.jobs tr.event) ∧ EntryLasts (endingRun 2).2 := by
  have hpath : Path (sessionStep 1) (.start standardTable) (endingRun 2).1 (endingRun 2).2 :=
    path_sessionRun _
  have hfits : ∀ tr ∈ (endingRun 2).1, Fits tr.source.jobs tr.event := by decide +kernel
  have hlasts := (entryLasts_of_fits hpath hfits).1
  exact ⟨by decide +kernel, hfits, hlasts⟩

/-- Of 33 processes the last is in no entry, so that the job is gone while it runs. -/
theorem entry_ends_early :
    Path (sessionStep 1) (.start standardTable) (endingRun 32).1 (endingRun 32).2 ∧
    ((endingRun 32).2.children[32]?.map (·.life.terminated)) = some false ∧
    ¬ EntryLasts (endingRun 32).2 := by
  have hpath : Path (sessionStep 1) (.start standardTable) (endingRun 32).1 (endingRun 32).2 :=
    path_sessionRun _
  have hlive : ((endingRun 32).2.children[32]?.map (·.life.terminated)) = some false := by
    decide +kernel
  have hlaunch : (endingRun 32).2.launches.any
      (fun L ↦ L.wantsJob && L.procs.contains 32) = true := by
    decide +kernel
  have hinactive : ∀ job ∈ (endingRun 32).2.jobs.slots, job.active = false := by decide +kernel
  refine ⟨hpath, hlive, fun h ↦ ?_⟩
  obtain ⟨c, hc, hlife⟩ := Option.map_eq_some_iff.mp hlive
  obtain ⟨L, hL, hmem⟩ := List.any_eq_true.mp hlaunch
  rw [Bool.and_eq_true, List.contains_iff_mem] at hmem
  obtain ⟨-, slot, job, -, hjob, hactive, -⟩ := h L hL hmem.1 ⟨32, hmem.2, c, hc, hlife⟩
  simp [hinactive job (List.mem_of_getElem? hjob)] at hactive

end Irish.Shell
