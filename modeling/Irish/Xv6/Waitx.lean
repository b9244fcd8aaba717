import Irish.Xv6.Births

/-!
# Calls of `wait` and `waitx`

`kwait` and `kwaitx` of `kernel/proc.c` as whole calls: the loop over the table, the copies to user
memory for the first child that has exited, and the sleep after a scan that finds none. The two
functions are one loop with different copies. User memory is any type, and `copyout` any function on
it, so it may fail at any call and write something all the same. Between two sections of a call the
rest of the machine may do what it likes (`others`); this includes other CPUs between two visits.

With the three addresses of the metrics zero, `kwaitx` takes the same steps as `kwait`. A call that
returns because a copy failed has left the table alone, and one that succeeds has freed one child
that has exited and nothing else (`kwaitx_extends_kwait`). One scan without interference is the
function `kwait` of the transition system (`scan_reaps`, `scan_waits`), in whose runs no child is
reaped twice.
-/

set_option autoImplicit false

namespace Irish.Xv6

open Library

/-! ### The calls -/

/-- Why a call returns. -/
inductive WaitOutcome
  /-- no children, or killed: -1 -/
  | noChild
  /-- a copy to user memory has failed: -1 -/
  | failed
  | reaped (pid : ℤ)
deriving DecidableEq, Repr

/-- Where a call is: before the visit of slot `pp`, with its variable `havekids`; between
`sleep_prepare` and `sleep`; or at its end. -/
inductive WaitPhase
  | scanning (pp : ℕ) (havekids : Bool)
  | preparing
  | returned (outcome : WaitOutcome)
deriving DecidableEq, Repr

/-- A call with the caller's memory and the kernel. -/
structure WaitCall (M : Type*) where
  phase : WaitPhase
  memory : M
  kernel : Kernel

/-- The next section of the call, or whatever others do in between. -/
inductive WaitEvent (M : Type*)
  | advance
  | others (memory : M) (kernel : Kernel)

section Calls

variable {M : Type*} (b : Build) (copyout : M → ℕ → ℤ → Bool × M)

/-- The copies to user memory, each an address and a value, up to the first that fails. A copy to
address 0 is not made. -/
def copyAll : List (ℕ × ℤ) → M → Bool × M
  | [], m => (true, m)
  | (addr, value) :: copies, m =>
    if addr = 0 then copyAll copies m
    else
      match copyout m addr value with
      | (false, m) => (false, m)
      | (true, m) => copyAll copies m

def kwaitCopies (addr : ℕ) (pp : Proc) : List (ℕ × ℤ) := [(addr, pp.xstate)]

def kwaitxCopies (addr addrWtime addrRtime addrStime : ℕ) (pp : Proc) : List (ℕ × ℤ) :=
  [(addr, pp.xstate), (addrWtime, (metricsOf pp).wtime), (addrRtime, (metricsOf pp).rtime),
    (addrStime, (metricsOf pp).response)]

/-- The body of the loop over the table, for the caller in slot `i`. -/
def waitVisit (copies : Proc → List (ℕ × ℤ)) (i pp : ℕ) (havekids : Bool) (s : WaitCall M) :
    WaitCall M :=
  match s.kernel.procs[pp]? with
  | none => { s with phase := .scanning (pp + 1) havekids }
  | some q =>
    if q.parent = some i then
      if q.state = .zombie then
        match copyAll copyout (copies q) s.memory with
        | (false, m) => ⟨.returned .failed, m, s.kernel⟩
        | (true, m) =>
          ⟨.returned (.reaped q.pid), m,
            freeproc b pp (s.kernel.modify pp fun q ↦ { q with parent := none })⟩
      else { s with phase := .scanning (pp + 1) true }
    else { s with phase := .scanning (pp + 1) havekids }

/-- One section of a call under `wait_lock`. -/
def waitAdvance (copies : Proc → List (ℕ × ℤ)) (i : ℕ) (s : WaitCall M) : Option (WaitCall M) :=
  match s.phase with
  | .scanning pp havekids =>
    if pp < nproc then some (waitVisit b copyout copies i pp havekids s)
    else if havekids = false ∨ s.kernel.procs[i]?.any (·.killed) then
      some { s with phase := .returned .noChild }
    else some { s with phase := .preparing, kernel := sleepPrepare (.proc i) i s.kernel }
  | .preparing =>
    s.kernel.procs[i]?.map fun p ↦
      { s with phase := .scanning 0 false, kernel := sleep b i p s.kernel }
  | .returned _ => none

def waitStep (copies : Proc → List (ℕ × ℤ)) (i : ℕ) (s : WaitCall M) :
    WaitEvent M → Option (WaitCall M)
  | .advance => waitAdvance b copyout copies i s
  | .others memory kernel => some { s with memory := memory, kernel := kernel }

def kwaitStep (addr i : ℕ) : WaitCall M → WaitEvent M → Option (WaitCall M) :=
  waitStep b copyout (kwaitCopies addr) i

def kwaitxStep (addr addrWtime addrRtime addrStime i : ℕ) :
    WaitCall M → WaitEvent M → Option (WaitCall M) :=
  waitStep b copyout (kwaitxCopies addr addrWtime addrRtime addrStime) i

end Calls

section Steps

variable {M : Type*} {b : Build} {copyout : M → ℕ → ℤ → Bool × M}
  {copies copies' : Proc → List (ℕ × ℤ)} {i z n : ℕ} {s s' : WaitCall M} {m : M} {k : Kernel}
  {p q : Proc} {l : List (Transition (WaitCall M) (WaitEvent M))}
  {tr : Transition (WaitCall M) (WaitEvent M)}

/-- Only the copies that are asked for matter. -/
theorem copyAll_filter (copyout : M → ℕ → ℤ → Bool × M) (copies : List (ℕ × ℤ)) (m : M) :
    copyAll copyout (copies.filter (·.1 ≠ 0)) m = copyAll copyout copies m := by
  induction copies generalizing m with
  | nil => rfl
  | cons copy _ ih =>
    obtain ⟨addr, value⟩ := copy
    by_cases haddr : addr = 0
    · rw [List.filter_cons_of_neg (by simp [haddr]), ih, copyAll, if_pos haddr]
    · rw [List.filter_cons_of_pos (by simp [haddr]), copyAll, copyAll, if_neg haddr, if_neg haddr]
      split
      · rfl
      · exact ih _

/-- Functions that make the same copies take the same steps. -/
theorem waitStep_congr (h : ∀ q m, copyAll copyout (copies q) m = copyAll copyout (copies' q) m) :
    waitStep b copyout copies i = waitStep b copyout copies' i := by
  funext s e
  cases e with
  | advance => simp only [waitStep, waitAdvance, waitVisit, h]
  | others => rfl

/-- What a call does to the table: nothing when it returns because a copy has failed, with the child
still there; the end of one child that has exited when it succeeds; and otherwise nothing to any
process but the caller. -/
structure WaitSafe (b : Build) (i : ℕ) (s s' : WaitCall M) : Prop where
  failed : s'.phase = .returned .failed → s'.kernel = s.kernel ∧
    ∃ (z : ℕ) (q : Proc), s'.kernel.procs[z]? = some q ∧ q.parent = some i ∧ q.state = .zombie
  reaped : ∀ pid, s'.phase = .returned (.reaped pid) → ∃ (z : ℕ) (q : Proc),
    s.kernel.procs[z]? = some q ∧ q.parent = some i ∧ q.state = .zombie ∧ q.pid = pid ∧
    s'.kernel = { s.kernel with
      procs := s.kernel.procs.set z (freeFields b { q with parent := none }) }
  waiting : (∀ pid, s'.phase ≠ .returned (.reaped pid)) → ∀ z, z ≠ i →
    s'.kernel.procs[z]? = s.kernel.procs[z]?

theorem waitSafe_of_eq (hkernel : s'.kernel = s.kernel) (hfailed : s'.phase ≠ .returned .failed)
    (hreaped : ∀ pid, s'.phase ≠ .returned (.reaped pid)) : WaitSafe b i s s' :=
  ⟨fun h ↦ absurd h hfailed, fun pid h ↦ absurd h (hreaped pid), fun _ _ _ ↦ by rw [hkernel]⟩

theorem waitSafe_waitVisit (pp : ℕ) (havekids : Bool) (s : WaitCall M) :
    WaitSafe b i s (waitVisit b copyout copies i pp havekids s) := by
  unfold waitVisit
  split
  · exact waitSafe_of_eq rfl (by simp) (by simp)
  rename_i q hq
  split_ifs with hparent hzombie
  · split
    · exact ⟨fun _ ↦ ⟨rfl, pp, q, hq, hparent, hzombie⟩, by simp, fun _ _ _ ↦ rfl⟩
    · refine ⟨by simp, fun pid hpid ↦ ⟨pp, q, hq, hparent, hzombie, ?_, ?_⟩,
        fun h ↦ absurd rfl (h _)⟩
      · cases hpid
        rfl
      · simp [freeproc, Kernel.modify, modify_eq_set hq]
  · exact waitSafe_of_eq rfl (by simp) (by simp)
  · exact waitSafe_of_eq rfl (by simp) (by simp)

theorem getElem?_sleep_of_ne (b : Build) (hz : z ≠ i) :
    (sleep b i p k).procs[z]? = k.procs[z]? := by
  unfold sleep
  split_ifs
  · cases b <;> simp [Ne.symm hz]
  · rfl

theorem waitSafe_waitAdvance
    (hstep : waitAdvance b copyout copies i s = some s') : WaitSafe b i s s' := by
  unfold waitAdvance at hstep
  split at hstep
  · split_ifs at hstep
    · cases hstep
      exact waitSafe_waitVisit _ _ s
    · cases hstep
      exact waitSafe_of_eq rfl nofun nofun
    · cases hstep
      refine ⟨nofun, nofun, fun _ z hz ↦ ?_⟩
      simp [sleepPrepare, Ne.symm hz]
  · obtain ⟨p, -, rfl⟩ := Option.map_eq_some_iff.mp hstep
    exact ⟨nofun, nofun, fun _ z hz ↦ getElem?_sleep_of_ne b hz⟩
  · cases hstep

/-! ### Whole calls -/

/-- A transition with which a call reaps a child. -/
def reapsChild (tr : Transition (WaitCall M) (WaitEvent M)) : Bool :=
  match tr.event, tr.target.phase with
  | .advance, .returned (.reaped _) => true
  | _, _ => false

theorem path_waitSafe (hpath : Path (waitStep b copyout copies i) s l s') (htr : tr ∈ l)
    (hadvance : tr.event = .advance) : WaitSafe b i tr.source tr.target := by
  obtain ⟨before, after, rfl⟩ := List.append_of_mem htr
  obtain ⟨-, hstep, -⟩ := hpath.split_cons
  rw [hadvance] at hstep
  exact waitSafe_waitAdvance hstep

/-- A call that has returned does nothing any more, so it reaps one child at most. -/
theorem path_reapsChild (hpath : Path (waitStep b copyout copies i) s l s') :
    l.countP reapsChild ≤ 1 := by
  have hrun := hpath.countP_rule (P := reapsChild) (c := 0)
    (J := fun n s ↦ n = 0 ∨ n = 1 ∧ ∃ outcome, s.phase = .returned outcome) ?_ (.inl rfl)
  · rw [Nat.zero_add] at hrun
    omega
  · rintro ⟨t, e, t'⟩ - hstep n hn
    dsimp only at hstep hn ⊢
    cases e with
    | others =>
      cases hstep
      simpa [reapsChild] using hn
    | advance =>
      rcases hn with rfl | ⟨-, outcome, hreturned⟩
      · rcases hphase : t'.phase with _ | _ | ⟨_ | _ | pid⟩ <;> simp [reapsChild, hphase]
      · simp [waitStep, waitAdvance, hreturned] at hstep

/-- The part of a scan that finds no child that has exited. -/
theorem scan_to (hn : n ≤ nproc)
    (hnone : ∀ z, z < n → ∀ q, k.procs[z]? = some q → q.parent = some i → q.state ≠ .zombie) :
    RunOf (waitStep b copyout copies i) (· = .advance) ⟨.scanning 0 false, m, k⟩
      ⟨.scanning n ((k.procs.take n).any fun pp ↦ pp.parent = some i), m, k⟩ := by
  induction n with
  | zero => simpa using RunOf.refl _
  | succ n ih =>
    refine (ih (by omega) fun z hz ↦ hnone z (by omega)).trans (RunOf.single ?_ rfl)
    simp only [waitStep, waitAdvance, if_pos (show n < nproc by omega), waitVisit,
      List.take_add_one, List.any_append]
    rcases hq : k.procs[n]? with _ | q
    · simp
    · by_cases hparent : q.parent = some i
      · simp [hparent, hnone n (by omega) q hq hparent]
      · simp [hparent]

/-- A call without interference on a table with a child that has exited. -/
theorem scan_reaps (p : Proc) (hz : z < nproc)
    (hfind : k.procs.findIdx? (fun pp ↦ pp.parent = some i ∧ pp.state = .zombie) = some z)
    (hq : k.procs[z]? = some q) :
    RunOf (waitStep b copyout copies i) (· = .advance) ⟨.scanning 0 false, m, k⟩
      ⟨.returned (if (copyAll copyout (copies q) m).1 then .reaped q.pid else .failed),
        (copyAll copyout (copies q) m).2, kwait b (copyAll copyout (copies q) m).1 i p k⟩ := by
  obtain ⟨q', hq', hchild⟩ := getElem?_of_findIdx? hfind
  cases hq.symm.trans hq'
  simp only [decide_eq_true_eq] at hchild
  have hbefore : ∀ y, y < z → ∀ r, k.procs[y]? = some r → r.parent = some i →
      r.state ≠ .zombie := by
    intro y hy r hr hparent hzombie
    have hnot := (List.findIdx?_eq_some_iff_getElem.mp hfind).2.2 y hy
    obtain ⟨hlt, rfl⟩ := List.getElem?_eq_some_iff.mp hr
    simp [hparent, hzombie] at hnot
  refine (scan_to hz.le hbefore).trans (RunOf.single ?_ rfl)
  simp only [waitStep, waitAdvance, if_pos hz, waitVisit, hq, hchild.1, hchild.2, if_true, kwait,
    hfind]
  rcases copyAll copyout (copies q) m with ⟨_ | _, m'⟩ <;> rfl

/-- A scan without interference on a table with no such child. -/
theorem scan_waits (copied : Bool) (hlen : k.procs.length = nproc)
    (hfind : k.procs.findIdx? (fun pp ↦ pp.parent = some i ∧ pp.state = .zombie) = none)
    (hp : k.procs[i]? = some p) :
    ∃ phase, (phase = .returned .noChild ∨ phase = .preparing) ∧
      RunOf (waitStep b copyout copies i) (· = .advance) ⟨.scanning 0 false, m, k⟩
        ⟨phase, m, kwait b copied i p k⟩ := by
  have hnone : ∀ z, z < nproc → ∀ q, k.procs[z]? = some q → q.parent = some i →
      q.state ≠ .zombie := by
    intro z _ q hq hparent hzombie
    have hnot := List.findIdx?_eq_none_iff.mp hfind q (List.mem_of_getElem? hq)
    simp [hparent, hzombie] at hnot
  have hscan : RunOf (waitStep b copyout copies i) (· = .advance) ⟨.scanning 0 false, m, k⟩
      ⟨.scanning nproc (k.procs.any fun pp ↦ pp.parent = some i), m, k⟩ := by
    rw [← List.take_of_length_le hlen.le]
    exact scan_to le_rfl hnone
  simp only [kwait, hfind]
  split_ifs with hreturn
  · refine ⟨_, .inl rfl, hscan.trans (RunOf.single ?_ rfl)⟩
    simp only [waitStep, waitAdvance, lt_irrefl, if_false, hp, Option.any_some]
    rw [if_pos hreturn]
  · refine ⟨_, .inr rfl, hscan.trans (RunOf.single ?_ rfl)⟩
    simp only [waitStep, waitAdvance, lt_irrefl, if_false, hp, Option.any_some]
    rw [if_neg hreturn]

end Steps

/-! ### No child is reaped twice -/

/-- The pid that `kwait` returns at a transition of the kernel. -/
def reapedPid (tr : Transition Kernel Event) : Option ℤ :=
  match tr.event, tr.source.cur with
  | .wait true, some i =>
    (tr.source.procs.findIdx? fun pp ↦ pp.parent = some i ∧ pp.state = .zombie).bind fun z ↦
      tr.source.procs[z]?.map (·.pid)
  | _, _ => none

section Runs

variable {b : Build} {k k' : Kernel} {e : Event} {x : ℤ}

theorem reapedPid_eq_some (hstep : step b k e = some k') (h : reapedPid ⟨k, e, k'⟩ = some x) :
    ∃ (z : ℕ) (q : Proc), k.procs[z]? = some q ∧ q.state ≠ .unused ∧ q.pid = x ∧
      ∀ p', k'.procs[z]? = some p' → p'.state = .unused := by
  unfold reapedPid at h
  split at h
  · rename_i i hevent hcur
    dsimp only at hevent hcur h
    subst hevent
    obtain ⟨z, hz, h⟩ := Option.bind_eq_some_iff.mp h
    obtain ⟨q, hq, rfl⟩ := Option.map_eq_some_iff.mp h
    obtain ⟨q', hq', hchild⟩ := getElem?_of_findIdx? hz
    cases hq.symm.trans hq'
    simp only [decide_eq_true_eq] at hchild
    refine ⟨z, q, hq, by simp [hchild.2], rfl, fun p' hp' ↦ ?_⟩
    rcases step_cases hstep with ⟨mode, he, -⟩ | ⟨chan, he, -⟩ | ⟨he, -⟩ | ⟨j, p, hj, -, hproc⟩
    · cases he
    · cases he
    · cases he
    · cases hj.symm.trans hcur
      cases procStep_cases hproc
      simp only [kwait, hz, if_true, freeproc, procs_modify, List.getElem?_modify_eq, hq] at hp'
      cases hp'
      exact (freeFields_spec b _).1
  · cases h

/-- The pids that have been returned: they are different, and no process has one of them. -/
structure ReapedOnce (k : Kernel) (pids : List ℤ) : Prop where
  nodup : pids.Nodup
  gone : ∀ x ∈ pids, x < k.nextpid ∧
    ∀ (z : ℕ) (p : Proc), k.procs[z]? = some p → p.state ≠ .unused → p.pid ≠ x

theorem ReapedOnce.step {pids : List ℤ} (h : ReapedOnce k pids) (hstep : step b k e = some k')
    (hcontrol : Control k.procs k.cur) (hpids : Pids k) :
    ReapedOnce k' (pids ++ (reapedPid ⟨k, e, k'⟩).toList) := by
  have hbirths := births_step hstep hcontrol
  have hnext := hbirths.next
  have hold : ∀ x ∈ pids, x < k'.nextpid ∧
      ∀ (z : ℕ) (p' : Proc), k'.procs[z]? = some p' → p'.state ≠ .unused → p'.pid ≠ x := by
    intro x hx
    obtain ⟨hlt, hgone⟩ := h.gone x hx
    refine ⟨by omega, fun z p' hz hused ↦ ?_⟩
    rcases hbirths.cases hz hused with ⟨p, hp, hpused, hpid, -⟩ | ⟨hpid, -⟩
    · rw [hpid]
      exact hgone z p hp hpused
    · omega
  rcases hreaped : reapedPid ⟨k, e, k'⟩ with _ | x
  · simpa using ⟨h.nodup, hold⟩
  · obtain ⟨z, q, hq, hqused, rfl, hfreed⟩ := reapedPid_eq_some hstep hreaped
    have hbelow := hpids.below z q hq hqused
    have hnew : q.pid ∉ pids := fun hmem ↦ (h.gone q.pid hmem).2 z q hq hqused rfl
    refine ⟨?_, fun x hx ↦ ?_⟩
    · rw [Option.toList_some, List.nodup_append_comm]
      exact List.nodup_cons.mpr ⟨hnew, h.nodup⟩
    · rcases List.mem_append.mp hx with hx | hx
      · exact hold x hx
      · obtain rfl := List.mem_singleton.mp hx
        refine ⟨by omega, fun y p' hy hused hsame ↦ ?_⟩
        rcases hbirths.cases hy hused with ⟨p, hp, hpused, hpid, -⟩ | ⟨hpid, -⟩
        · obtain rfl := hpids.distinct y z p q hp hq hpused hqused (hpid.symm.trans hsame)
          exact hused (hfreed p' hy)
        · omega

theorem reapedOnce_of_path {l : List (Transition Kernel Event)}
    (hpath : Path (step b) (boot b) l k) : ReapedOnce k (l.filterMap reapedPid) := by
  refine hpath.history_rule (J := fun l k ↦ ReapedOnce k (l.filterMap reapedPid))
    ⟨List.nodup_nil, by simp⟩ fun l k e k' hbefore hstep h ↦ ?_
  have hlater := h.step hstep (control_reachable ⟨l, hbefore⟩) (pids_of_path hbefore)
  rw [List.filterMap_append]
  rcases hreaped : reapedPid ⟨k, e, k'⟩ with _ | x <;> simpa [hreaped] using hlater

end Runs

/-! ### `waitx` and `wait` -/

/-- What every call with the given copies does, whatever others do in between: its sections are
safe, it reaps one child at most, and on a table with a child that has exited it returns the pid of
the first one if the copies succeed, and leaves the table alone if one fails. -/
structure WaitCorrect {M : Type*} (b : Build) (copyout : M → ℕ → ℤ → Bool × M)
    (copies : Proc → List (ℕ × ℤ)) (i : ℕ)
    (step : WaitCall M → WaitEvent M → Option (WaitCall M)) : Prop where
  safe : ∀ s l s', Path step s l s' → ∀ tr ∈ l, tr.event = .advance →
    WaitSafe b i tr.source tr.target
  once : ∀ s l s', Path step s l s' → l.countP reapsChild ≤ 1
  reaps : ∀ (m : M) (k : Kernel) (p : Proc) (z : ℕ), z < nproc →
    k.procs.findIdx? (fun pp ↦ pp.parent = some i ∧ pp.state = .zombie) = some z →
    ∃ q, k.procs[z]? = some q ∧
      ((copyAll copyout (copies q) m).1 = true →
        RunOf step (· = .advance) ⟨.scanning 0 false, m, k⟩
          ⟨.returned (.reaped q.pid), (copyAll copyout (copies q) m).2, kwait b true i p k⟩) ∧
      ((copyAll copyout (copies q) m).1 = false →
        RunOf step (· = .advance) ⟨.scanning 0 false, m, k⟩
          ⟨.returned .failed, (copyAll copyout (copies q) m).2, k⟩)

variable {M : Type*}

theorem waitCorrect_waitStep (b : Build) (copyout : M → ℕ → ℤ → Bool × M)
    (copies : Proc → List (ℕ × ℤ)) (i : ℕ) :
    WaitCorrect b copyout copies i (waitStep b copyout copies i) where
  safe := fun _ _ _ hpath _ htr hadvance ↦ path_waitSafe hpath htr hadvance
  once := fun _ _ _ hpath ↦ path_reapsChild hpath
  reaps := by
    intro m k p z hz hfind
    obtain ⟨q, hq, -⟩ := getElem?_of_findIdx? hfind
    have hrun : RunOf (waitStep b copyout copies i) (· = .advance) ⟨.scanning 0 false, m, k⟩ _ :=
      scan_reaps p hz hfind hq
    refine ⟨q, hq, fun hcopied ↦ ?_, fun hfailed ↦ ?_⟩
    · rwa [hcopied, if_pos rfl] at hrun
    · have hkept : kwait b false i p k = k := by
        rw [kwait, hfind]
        rfl
      rwa [hfailed, if_neg Bool.false_ne_true, hkept] at hrun

/-- `kwaitx` with zero for the addresses of the metrics is `kwait`. Both leave the table alone when
a copy fails, so that the child can be reaped later, and reap one child that has exited when they
succeed; no run of the kernel reaps a child twice. -/
theorem kwaitx_extends_kwait {M : Type*} (b : Build) (copyout : M → ℕ → ℤ → Bool × M)
    (addr addrWtime addrRtime addrStime i : ℕ) :
    kwaitxStep b copyout addr 0 0 0 i = kwaitStep b copyout addr i ∧
    WaitCorrect b copyout (kwaitCopies addr) i (kwaitStep b copyout addr i) ∧
    WaitCorrect b copyout (kwaitxCopies addr addrWtime addrRtime addrStime) i
      (kwaitxStep b copyout addr addrWtime addrRtime addrStime i) ∧
    ∀ l k, Path (step b) (boot b) l k → (l.filterMap reapedPid).Nodup := by
  refine ⟨waitStep_congr fun q m ↦ ?_, waitCorrect_waitStep _ _ _ _, waitCorrect_waitStep _ _ _ _,
    fun l k hpath ↦ (reapedOnce_of_path hpath).nodup⟩
  rw [← copyAll_filter, ← copyAll_filter _ (kwaitCopies addr q)]
  rfl

end Irish.Xv6
