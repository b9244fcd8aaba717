import Irish.Shell.JobLifetime

/-!
# Lookups by pid

`job_get_by_pid` takes the first process in an active entry that has the pid, whether it is marked
or not, and an entry keeps its processes until the last of them is gone. So the lookup is right
about every process that has not been reaped if no pid in the table is given out again
(`lookupOk_of_unrecorded`). If one is, the handler marks the process of the older job and names it,
and `ping` does not find the new process at all.
-/

set_option autoImplicit false

namespace Irish.Shell

open Library

/-- The processes in active entries have different pids. -/
def EntriesDistinct (jobs : JobTable) : Prop :=
  ∀ (i j p q : ℕ) (job job' : Job) (e e' : JobProc), jobs.slots[i]? = some job →
    jobs.slots[j]? = some job' → job.active = true → job'.active = true →
    job.procs[p]? = some e → job'.procs[q]? = some e' → e.pid = e'.pid → i = j ∧ p = q

/-- No pid that `fork` returns for a pipeline is in an active entry. -/
def Unrecorded (jobs : JobTable) : SessionEvent → Prop
  | .launch cmds _ _ o =>
      ∀ job ∈ jobs.slots, job.active = true → ∀ e ∈ job.procs, e.pid ∉ forkedPids cmds o
  | _ => True

instance (jobs : JobTable) : (e : SessionEvent) → Decidable (Unrecorded jobs e)
  | .launch _ _ _ _ => inferInstanceAs (Decidable (∀ job ∈ jobs.slots, _ → ∀ e ∈ job.procs, _))
  | .helper _ | .reapHelper _ | .ends _ _ | .notice _ _ | .deliver | .handle _ | .handlerReturn
  | .call _ | .sweep | .act | .block | .resumeTurn _ | .resumeEnd => isTrue trivial

/-- The process `p` of the entry `slot` is the one that is found by its pid: it is the only one that
the handler marks when the process has ended, the handler prints its name, and `ping` acts on it. -/
structure FindsEntry (jobs : JobTable) (pid : ℕ+) (slot p : ℕ) (e : JobProc) : Prop where
  lookup : jobs.jobGetByPid pid = some (slot, p)
  marked : ∀ (how : Ending) (i : ℕ),
    ((jobs.sigchldTurn pid (.ended how)).1.slots[i]?.map (·.procs)) =
      jobs.slots[i]?.map fun job ↦ if i = slot then (job.markExited p).procs else job.procs
  named : ∀ how : Ending, (jobs.sigchldTurn pid (.ended how)).2 =
    some ⟨e.cmdName, pid, how = .exited 0⟩
  pinged : jobs.pingProcess pid = some (slot, p)

/-- Every unreaped process in the table is found by its pid. -/
def LookupOk (s : Session) : Prop :=
  ∀ L ∈ s.launches, ∀ (number p u : ℕ) (c : ChildProcess), L.job = some number →
    p < maxProcsPerJob → L.procs[p]? = some u → s.children[u]? = some c →
    c.life.isReaped = false → ∃ slot job e, IsJob s.jobs number slot job ∧
      job.procs[p]? = some e ∧ e.pid = c.pid ∧ FindsEntry s.jobs c.pid slot p e

section Lookup

variable {jobs jobs' : JobTable} {pid : ℕ+} {slot p : ℕ} {job : Job} {e : JobProc}

theorem EntriesDistinct.moves {children : List ChildProcess} (h : EntriesDistinct jobs)
    (hmoves : TableMoves children jobs jobs') : EntriesDistinct jobs' := by
  intro i j p q job₁ job₂ e₁ e₂ h₁ h₂ hactive₁ hactive₂ he₁ he₂ hpids
  obtain ⟨job, hjob, hjobMoves⟩ := exists_of_forall₂ hmoves.slots h₁
  obtain ⟨job', hjob', hjobMoves'⟩ := exists_of_forall₂ hmoves.slots h₂
  obtain ⟨e, he, hentry⟩ := exists_of_forall₂ hjobMoves.procs he₁
  obtain ⟨e', he', hentry'⟩ := exists_of_forall₂ hjobMoves'.procs he₂
  exact h i j p q job job' e e' hjob hjob' (hjobMoves.active hactive₁)
    (hjobMoves'.active hactive₂) he he' (hentry.pid.symm.trans (hpids.trans hentry'.pid))

theorem EntriesDistinct.added {pids : List ℕ+} (h : EntriesDistinct jobs)
    (hadded : Added jobs jobs' pids slot job) (hnodup : pids.Nodup)
    (hunrecorded : ∀ job ∈ jobs.slots, job.active = true → ∀ e ∈ job.procs, e.pid ∉ pids) :
    EntriesDistinct jobs' := by
  have hold {i : ℕ} {job' : Job} {p q : ℕ} {e e' : JobProc} (hi : jobs.slots[i]? = some job')
      (hactive : job'.active = true) (he : job'.procs[p]? = some e)
      (he' : job.procs[q]? = some e') : e.pid ≠ e'.pid := by
    intro hpid
    refine hunrecorded job' (List.mem_of_getElem? hi) hactive e (List.mem_of_getElem? he) ?_
    rw [hpid]
    exact List.mem_of_getElem? (hadded.getElem?_pids he')
  intro i j p q job₁ job₂ e₁ e₂ h₁ h₂ hactive₁ hactive₂ he₁ he₂ hpids
  rcases hadded.cases h₁ with ⟨rfl, rfl⟩ | ⟨-, h₁'⟩ <;>
    rcases hadded.cases h₂ with ⟨rfl, rfl⟩ | ⟨-, h₂'⟩
  · have hp := hadded.getElem?_pids he₁
    have hq := hadded.getElem?_pids he₂
    refine ⟨rfl, (List.getElem?_inj (lt_of_getElem? hp) hnodup).mp ?_⟩
    rw [hp, hq, hpids]
  · exact absurd hpids.symm (hold h₂' hactive₂ he₂ he₁)
  · exact absurd hpids (hold h₁' hactive₁ he₁ he₂)
  · exact h i j p q job₁ job₂ e₁ e₂ h₁' h₂' hactive₁ hactive₂ he₁ he₂ hpids

/-- A pid in an active entry is found. -/
theorem jobGetByPid_isSome (hjob : jobs.slots[slot]? = some job) (hactive : job.active = true)
    (he : job.procs[p]? = some e) : (jobs.jobGetByPid e.pid).isSome = true := by
  have hany : (job.procs.any (·.pid = e.pid)) = true :=
    List.any_eq_true.mpr ⟨e, List.mem_of_getElem? he, by simp⟩
  cases hfound : jobs.slots.findIdx? fun job ↦ job.active ∧ job.procs.any (·.pid = e.pid) with
  | none =>
    have hnone := List.findIdx?_eq_none_iff.mp hfound job (List.mem_of_getElem? hjob)
    exact absurd ⟨hactive, hany⟩ (of_decide_eq_false hnone)
  | some i =>
    obtain ⟨hlt, hi, -⟩ := List.findIdx?_eq_some_iff_getElem.mp hfound
    simp only [decide_eq_true_eq] at hi
    have hproc : (jobs.slots[i].procs.findIdx? (·.pid = e.pid)).isSome = true := by
      rw [List.findIdx?_isSome]
      exact hi.2
    obtain ⟨q, hq⟩ := Option.isSome_iff_exists.mp hproc
    rw [JobTable.jobGetByPid, hfound, Option.bind_some, List.getElem?_eq_getElem hlt,
      Option.bind_some, hq]
    rfl

theorem EntriesDistinct.jobGetByPid (h : EntriesDistinct jobs) (hjob : jobs.slots[slot]? = some job)
    (hactive : job.active = true) (he : job.procs[p]? = some e) :
    jobs.jobGetByPid e.pid = some (slot, p) := by
  obtain ⟨⟨slot', p'⟩, hfound⟩ := Option.isSome_iff_exists.mp (jobGetByPid_isSome hjob hactive he)
  obtain ⟨job', e', hjob', hactive', he', hpid⟩ := jobGetByPid_eq_some hfound
  obtain ⟨rfl, rfl⟩ := h slot' slot p' p job' job e' e hjob' hjob hactive' hactive he' he hpid
  exact hfound

/-- What the handler and `ping` do with a process that the lookup finds. -/
theorem findsEntry_of_lookup (hlookup : jobs.jobGetByPid pid = some (slot, p))
    (hjob : jobs.slots[slot]? = some job) (he : job.procs[p]? = some e)
    (hexited : e.exited = false) : FindsEntry jobs pid slot p e where
  lookup := hlookup
  marked := fun how i ↦ by
    simp only [JobTable.sigchldTurn, hlookup, JobTable.modify, List.getElem?_modify]
    cases jobs.slots[i]? with
    | none => rfl
    | some =>
      simp only [Option.map_eq_map, Option.map_some]
      by_cases hi : slot = i
      · rw [if_pos hi, if_pos hi.symm]
        split <;> rfl
      · rw [if_neg hi, if_neg (Ne.symm hi)]
  named := fun how ↦ by simp [JobTable.sigchldTurn, hlookup, hjob, he]
  pinged := by simp [JobTable.pingProcess, hlookup, hjob, he, hexited]

end Lookup

section Runs

variable {shellPgid : ℕ+} {table : Table} {s s' : Session} {e : SessionEvent}
  {l : List (Transition Session SessionEvent)}

theorem entriesDistinct_empty : EntriesDistinct JobTable.empty := by
  intro i j p q job job' e e' hjob _ hactive
  rw [List.eq_of_mem_replicate (List.mem_of_getElem? hjob)] at hactive
  cases hactive

theorem EntriesDistinct.step (h : EntriesDistinct s.jobs) (hok : SessionOk s)
    (hstep : sessionStep shellPgid s e = some s') (hunrecorded : Unrecorded s.jobs e) :
    EntriesDistinct s'.jobs := by
  obtain ⟨-, hquiet | ⟨cmds, isBg, cmdLine, o, new, L, rfl, hnew⟩⟩ :=
    hok.steady.step (sessionMove_of_step hstep)
  · exact h.moves hquiet.table
  · rcases hnew.job with ⟨-, hjobs, -⟩ | ⟨slot, job, -, hadded⟩
    · exact hjobs ▸ h
    · refine h.added hadded hnew.fresh.1 fun job hjob hactive e he hmem ↦ ?_
      obtain ⟨c, hc, hpid⟩ := List.mem_map.mp hmem
      exact hunrecorded job hjob hactive e he (hpid ▸ hnew.forked c hc)

theorem SessionOk.lookupOk (hok : SessionOk s) (h : EntriesDistinct s.jobs) : LookupOk s := by
  intro L hL number p u c hnumber hp hu hc hunreaped
  obtain ⟨slot, job, e, hentry, he, hpid, hexited⟩ :=
    (hok.tracked L hL number hnumber).exists_entry hp hu hc hunreaped
  have hlookup := h.jobGetByPid hentry.1 hentry.2.1 he
  rw [hpid] at hlookup
  exact ⟨slot, job, e, hentry, he, hpid, findsEntry_of_lookup hlookup hentry.1 he hexited⟩

/-- In every state of a session in which `fork` returns no pid that is in an active entry, every
process in the table that has not been reaped is found by its pid. -/
theorem lookupOk_of_unrecorded (hpath : Path (sessionStep shellPgid) (.start table) l s)
    (hunrecorded : ∀ tr ∈ l, Unrecorded tr.source.jobs tr.event) : LookupOk s := by
  have hinv : EntriesDistinct s.jobs ∧ SessionOk s :=
    hpath.preserves_of (I := fun s ↦ EntriesDistinct s.jobs ∧ SessionOk s)
      (Q := fun s e ↦ Unrecorded s.jobs e)
      (fun _ _ _ hstep hunrecorded hI ↦ ⟨hI.1.step hI.2 hstep hunrecorded, hI.2.step hstep⟩)
      hunrecorded ⟨entriesDistinct_empty, sessionOk_start table⟩
  exact hinv.2.lookupOk hinv.1

end Runs

theorem lookupOk_endingRun : (∀ tr ∈ (endingRun 2).1, Unrecorded tr.source.jobs tr.event) ∧
    LookupOk (endingRun 2).2 ∧ (endingRun 2).2.jobs.jobGetByPid 24 = some (0, 2) := by
  have hpath : Path (sessionStep 1) (.start standardTable) (endingRun 2).1 (endingRun 2).2 :=
    path_sessionRun _
  have hunrecorded : ∀ tr ∈ (endingRun 2).1, Unrecorded tr.source.jobs tr.event := by
    decide +kernel
  have hlookup := lookupOk_of_unrecorded hpath hunrecorded
  exact ⟨hunrecorded, hlookup, by decide +kernel⟩

/-- `a | b &`, in which `b` terminates; then `c &`, which is given the pid of `b`. -/
def recycledRun : List (Transition Session SessionEvent) × Session :=
  let recycled : PipelineOutcome :=
    { allSucceed with command := fun i ↦ { allSucceed.command i with fork := some 14 } }
  sessionRun
    [.launch [⟨[some [97]], [], []⟩, ⟨[some [98]], [], []⟩] true none allSucceed,
      .ends 1 (.exited 0), .deliver, .handle 1, .handlerReturn,
      .launch [⟨[some [99]], [], []⟩] true none recycled]

/-- The process of `c` runs, but its pid leads to the process of `b`: when `c` terminates, the
handler names `b`, and `ping` does not find it. -/
theorem recycled_pid_misleads :
    Path (sessionStep 1) (.start standardTable) recycledRun.1 recycledRun.2 ∧
    recycledRun.2.children[2]? = some ⟨14, 14, .live none⟩ ∧
    recycledRun.2.launches[1]?.map (fun L ↦ (L.job, L.procs)) = some (some 2, [2]) ∧
    recycledRun.2.jobs.jobGetByPid 14 = some (0, 1) ∧
    (recycledRun.2.jobs.sigchldTurn 14 (.ended (.exited 0))).2 = some ⟨[98], 14, true⟩ ∧
    recycledRun.2.jobs.pingProcess 14 = none ∧ ¬ LookupOk recycledRun.2 := by
  have hpath : Path (sessionStep 1) (.start standardTable) recycledRun.1 recycledRun.2 :=
    path_sessionRun _
  have hchild : recycledRun.2.children[2]? = some ⟨14, 14, .live none⟩ := by decide +kernel
  have hlaunch :
      recycledRun.2.launches[1]?.map (fun L ↦ (L.job, L.procs)) = some (some 2, [2]) := by
    decide +kernel
  have hping : recycledRun.2.jobs.pingProcess 14 = none := by decide +kernel
  refine ⟨hpath, hchild, hlaunch, by decide +kernel, by decide +kernel, hping, fun h ↦ ?_⟩
  obtain ⟨L, hL, hpair⟩ := Option.map_eq_some_iff.mp hlaunch
  rw [Prod.mk.injEq] at hpair
  obtain ⟨slot, job, e, -, -, -, hfinds⟩ := h L (List.mem_of_getElem? hL) 2 0 2 _ hpair.1
    (by decide) (by rw [hpair.2]; rfl) hchild rfl
  cases hping.symm.trans hfinds.pinged

end Irish.Shell
