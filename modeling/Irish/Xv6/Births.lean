import Irish.Xv6.Metrics

/-!
# Pids and creation times

What a step of the one-CPU kernels does to the pids and the creation times of the processes, read
off what it does to their stamps: a process that is there after a step was there before with its
pid and creation time, or is in the slot for which `allocproc` has drawn a pid. So the processes of
a run have different pids below `nextpid` (`Pids`).
-/

set_option autoImplicit false

namespace Irish.Xv6

open Library

structure Births (k k' : Kernel) : Prop where
  next : k'.nextpid = k.nextpid ∨ k'.nextpid = k.nextpid + 1
  slots : ∀ (z : ℕ) (p' : Proc), k'.procs[z]? = some p' → p'.state ≠ .unused →
    (∃ p, k.procs[z]? = some p ∧ p.state ≠ .unused ∧ p'.pid = p.pid ∧ p'.ctime = p.ctime) ∨
    (p'.pid = k.nextpid ∧ p'.ctime = k.ticks ∧ k'.nextpid = k.nextpid + 1 ∧
      k.procs.findIdx? (fun p ↦ p.state = .unused) = some z)

variable {b : Build} {k k' : Kernel} {e : Event} {z : ℕ} {p' : Proc}
  {l : List (Transition Kernel Event)}

theorem births_step (hstep : step b k e = some k') (h : Control k.procs k.cur) : Births k k' := by
  refine ⟨(frame_step hstep).2, fun z p' hz hused ↦ ?_⟩
  obtain ⟨p, hp, hstamped⟩ := stamped_step hstep h hz
  cases hstamped with
  | same hsame => exact .inl ⟨p, hp, mt hsame.unused.mpr hused, hsame.pid, hsame.ctime⟩
  | freed hfree => exact absurd hfree hused
  | created _ _ _ _ _ hctime _ _ hpid hnext hslot => exact .inr ⟨hpid, hctime, hnext, hslot⟩
  | dispatched _ _ hold hp' =>
    subst hp'
    exact .inl ⟨p, hp, by simp [hold], rfl, rfl⟩
  | exited _ hold _ hctime _ _ _ hpid => exact .inl ⟨p, hp, by simp [hold], hpid, hctime⟩
  | charged _ hcharge =>
    exact .inl ⟨p, hp, by simp [hcharge.running], hcharge.pid, hcharge.ctime⟩

/-- A process after a step was there before with its pid and creation time, or has the pid that the
step has drawn. At most one process is new. -/
theorem Births.cases (h : Births k k') (hz : k'.procs[z]? = some p') (hused : p'.state ≠ .unused) :
    (∃ p, k.procs[z]? = some p ∧ p.state ≠ .unused ∧ p'.pid = p.pid ∧ p'.ctime = p.ctime) ∨
    (p'.pid = k.nextpid ∧ p'.ctime = k.ticks ∧ k'.nextpid = k.nextpid + 1 ∧
      ∀ (y : ℕ) (q' : Proc), y ≠ z → k'.procs[y]? = some q' → q'.state ≠ .unused →
        ∃ q, k.procs[y]? = some q ∧ q.state ≠ .unused ∧ q'.pid = q.pid ∧ q'.ctime = q.ctime) := by
  refine (h.slots z p' hz hused).imp_right fun ⟨hpid, hctime, hnext, hslot⟩ ↦
    ⟨hpid, hctime, hnext, fun y q' hy hq' hused' ↦ ?_⟩
  rcases h.slots y q' hq' hused' with hold | ⟨-, -, -, hslot'⟩
  · exact hold
  · exact absurd (Option.some.inj (hslot'.symm.trans hslot)) hy

/-! ### The pids of a run -/

structure Pids (k : Kernel) : Prop where
  below : ∀ (z : ℕ) (p : Proc), k.procs[z]? = some p → p.state ≠ .unused → p.pid < k.nextpid
  distinct : ∀ (y z : ℕ) (p q : Proc), k.procs[y]? = some p → k.procs[z]? = some q →
    p.state ≠ .unused → q.state ≠ .unused → p.pid = q.pid → y = z

theorem Pids.step {k k' : Kernel} (hpids : Pids k) (h : Births k k') : Pids k' where
  below := by
    intro z p' hz hused
    have hnext := h.next
    rcases h.cases hz hused with ⟨p, hp, hpused, hpid, -⟩ | ⟨hpid, -, hdrawn, -⟩
    · have hlt := hpids.below z p hp hpused
      omega
    · omega
  distinct := by
    intro y z p' q' hy hz hpused' hqused' hsame
    by_contra hne
    rcases h.cases hy hpused' with ⟨p, hp, hpused, hpid, -⟩ | ⟨hpid, -, -, hothers⟩
    · rcases h.cases hz hqused' with ⟨q, hq, hqused, hqid, -⟩ | ⟨hqid, -⟩
      · exact hne (hpids.distinct y z p q hp hq hpused hqused (by omega))
      · have hlt := hpids.below y p hp hpused
        omega
    · obtain ⟨q, hq, hqused, hqid, -⟩ := hothers z q' (Ne.symm hne) hz hqused'
      have hlt := hpids.below z q hq hqused
      omega

theorem pids_boot (b : Build) : Pids (boot b) := by
  have hfirst : (boot b).procs[0]?.map (·.pid) = some 1 := by cases b <;> decide +kernel
  have hrest : ∀ p ∈ (boot b).procs.tail, p.state = .unused := by cases b <;> decide +kernel
  have hinit (z : ℕ) (p : Proc) (hz : (boot b).procs[z]? = some p) (hused : p.state ≠ .unused) :
      z = 0 ∧ p.pid = 1 := by
    cases z with
    | zero =>
      rw [hz] at hfirst
      exact ⟨rfl, Option.some.inj hfirst⟩
    | succ =>
      rw [← List.getElem?_tail] at hz
      exact absurd (hrest p (List.mem_of_getElem? hz)) hused
  have hnext : (boot b).nextpid = 2 := by cases b <;> rfl
  refine ⟨fun z p hz hused ↦ ?_, fun y z p q hy hz hpused hqused _ ↦ ?_⟩
  · have hpid := (hinit z p hz hused).2
    omega
  · exact (hinit y p hy hpused).1.trans (hinit z q hz hqused).1.symm

theorem pids_of_path (hpath : Path (step b) (boot b) l k) : Pids k := by
  refine (hpath.preserves (I := fun k ↦ Control k.procs k.cur ∧ Pids k) ?_
    ⟨control_boot b, pids_boot b⟩).2
  rintro k e k' hstep ⟨hcontrol, hpids⟩
  exact ⟨control_step hstep hcontrol, hpids.step (births_step hstep hcontrol)⟩

end Irish.Xv6
