import Irish.Xv6.Pipe

/-!
# Sleeping on a pipe

A reader sleeps only while the pipe is empty and still open for writing, a writer only while it is
full and still open for reading (`pipe_waiters`), so never both at a time, and whoever is to end the
wait wakes them.

There is one way around it. When a writer is killed, `pipewrite` returns from its loop without the
wakeup that follows the loop. If it has put bytes into the pipe in the same section, the readers
that slept on the empty pipe go on sleeping on a pipe with data. So the result is for runs in which
`killed` does not change while a writer has the lock (`SteadyKill`); the example at the end is a run
in which it does.
-/

set_option autoImplicit false

namespace Irish.Xv6

open Library

variable {ι : Type*}

/-- Why a process goes on sleeping. -/
def PipeReason (s : PipeSystem ι) (p : ι) : PipeChan → Prop
  | .nread => (∃ n, s.users p = .reading n) ∧ s.pipe.isEmpty = true ∧ s.pipe.writeopen = true
  | .nwrite => (∃ i n, s.users p = .writing i n) ∧ s.pipe.isFull = true ∧ s.pipe.readopen = true

/-- A writer is killed before or after it has the lock of the pipe. -/
def SteadyKill : PipeEvent ι → Prop
  | .writeTurn _ killed _ => ∀ i j, killed i = killed j
  | _ => True

section Loop

variable {killed : ℕ → Bool} {copyin : ℕ → Option UInt8} {left i j : ℕ} {pi pi' : Pipe}

theorem not_full_of_empty (h : pi.isEmpty = true) : pi.isFull = false := by
  by_contra hfull
  rw [Bool.not_eq_false, isFull_iff, isEmpty_iff.mp h] at hfull
  cases hfull

/-- Into a full pipe nothing goes. -/
theorem pipewriteLoop_full (h : pi.isFull = true) :
    (pipewriteLoop killed copyin left i pi).1 = pi := by
  cases left with
  | zero => rfl
  | succ =>
    rw [pipewriteLoop]
    split_ifs
    · rfl
    · rfl

/-- A writer sleeps on a full pipe that somebody may still read. -/
theorem pipewriteLoop_sleeps (h : pipewriteLoop killed copyin left i pi = (pi', .sleeps j)) :
    pi'.isFull = true ∧ pi'.readopen = true := by
  induction left generalizing i pi with
  | zero => cases h
  | succ _ ih =>
    rw [pipewriteLoop] at h
    by_cases hfail : pi.readopen = false ∨ killed i = true
    · rw [if_pos hfail] at h
      cases h
    rw [if_neg hfail] at h
    cases hfull : pi.isFull with
    | true =>
      rw [hfull, if_pos rfl] at h
      cases h
      exact ⟨hfull, Bool.not_eq_false _ ▸ fun hclosed ↦ hfail (.inl hclosed)⟩
    | false =>
      rw [hfull, if_neg Bool.false_ne_true] at h
      cases hcopy : copyin i with
      | none =>
        rw [hcopy] at h
        cases h
      | some ch =>
        rw [hcopy] at h
        exact ih h

theorem pipewriteLoop_alive (halive : ∀ j, killed j = false) (hopen : pi.readopen = true) :
    (pipewriteLoop killed copyin left i pi).2 ≠ .fails := by
  induction left generalizing i pi with
  | zero => exact WriteEnd.noConfusion
  | succ _ ih =>
    have hgo : ¬ (pi.readopen = false ∨ killed i = true) := by simp [hopen, halive]
    rw [pipewriteLoop, if_neg hgo]
    cases pi.isFull with
    | true => exact WriteEnd.noConfusion
    | false =>
      cases copyin i with
      | none => exact WriteEnd.noConfusion
      | some ch =>
        have hput : (pi.put ch).readopen = true := hopen
        exact ih hput

/-- A writer that is not killed on the way fails before its first byte. -/
theorem pipewriteLoop_fails (hsteady : ∀ i j, killed i = killed j)
    (h : pipewriteLoop killed copyin left i pi = (pi', .fails)) : pi' = pi := by
  by_cases hgo : pi.readopen = true ∧ killed i = false
  · have halive : (pipewriteLoop killed copyin left i pi).2 ≠ .fails :=
      pipewriteLoop_alive (fun j ↦ (hsteady j i).trans hgo.2) hgo.1
    rw [h] at halive
    exact absurd rfl halive
  · cases left with
    | zero => cases h
    | succ =>
      have hfail : pi.readopen = false ∨ killed i = true := by
        cases hopen : pi.readopen with
        | false => exact .inl rfl
        | true => exact .inr (Bool.not_eq_false _ ▸ fun hkilled ↦ hgo ⟨hopen, hkilled⟩)
      rw [pipewriteLoop, if_pos hfail] at h
      cases h
      rfl

end Loop

/-! ### Whole runs -/

section Runs

variable [DecidableEq ι] {s t u : PipeSystem ι} {e : PipeEvent ι} {p : ι}
  {data : Fin pipeSize → UInt8} {l : List (Transition (PipeSystem ι) (PipeEvent ι))}

/-- Another process goes on, and the pipe stays as it is. -/
theorem PipeReason.other {use : PipeUse} {j : ι} {c : PipeChan} (h : PipeReason s j c)
    (husers : t.users = Function.update s.users p use) (hpipe : t.pipe = s.pipe) (hjp : j ≠ p) :
    PipeReason t j c := by
  cases c with
  | nread | nwrite => rwa [PipeReason, husers, hpipe, Function.update_of_ne hjp]

omit [DecidableEq ι] in
theorem PipeReason.inside {c : PipeChan} (h : PipeReason s p c) :
    ¬ (s.users p = .idle ∨ ∃ r, s.users p = .returned r) := by
  cases c with
  | nread =>
    obtain ⟨⟨n, hn⟩, -⟩ := h
    simp [hn]
  | nwrite =>
    obtain ⟨⟨i, n, hn⟩, -⟩ := h
    simp [hn]

omit [DecidableEq ι] in
/-- After a wakeup of the readers only writers sleep. -/
theorem justified_wake_readers (h : Justified (PipeReason s) s.chan) :
    Justified (fun j c ↦ c = .nwrite ∧ PipeReason s j c) (wake .nread s.chan) := by
  refine h.wake fun j c hc hj ↦ ⟨?_, hj⟩
  cases c with
  | nread => exact absurd rfl hc
  | nwrite => rfl

theorem pipeWaiters_step (h : pipeStep s e = some t) (hsteady : SteadyKill e)
    (hs : Justified (PipeReason s) s.chan) : Justified (PipeReason t) t.chan := by
  cases pipeMove_of_pipeStep h with
  | callsWrite _ _ huser | callsRead _ _ huser =>
    refine hs.mono fun j c hj ↦ hj.other rfl rfl ?_
    rintro rfl
    exact hj.inside huser
  | writeFails _ _ _ _ _ _ _ hloop =>
    have hsame := pipewriteLoop_fails hsteady hloop
    exact hs.unregister fun j c hjp hj ↦ hj.other rfl hsame hjp
  | writeSleeps _ _ _ _ n m pi _ hloop =>
    obtain ⟨hfull, hopen⟩ := pipewriteLoop_sleeps hloop
    refine (justified_wake_readers hs).register ⟨⟨m, n, Function.update_self ..⟩, hfull, hopen⟩ ?_
    rintro j - hjp ⟨rfl, hj⟩
    -- A writer slept already, so the pipe was full before.
    have hsame : pi = s.pipe := by
      rw [← pipewriteLoop_full hj.2.1, hloop]
    exact hj.other rfl hsame hjp
  | writeReturns _ _ _ _ _ pi _ _ hloop =>
    refine (justified_wake_readers hs).unregister ?_
    rintro j - hjp ⟨rfl, hj⟩
    have hsame : pi = s.pipe := by
      rw [← pipewriteLoop_full hj.2.1, hloop]
    exact hj.other rfl hsame hjp
  | readKilled =>
    exact hs.unregister fun j c hjp hj ↦ hj.other rfl rfl hjp
  | readSleeps _ _ n huser hempty hopen =>
    exact hs.register ⟨⟨n, huser⟩, hempty, hopen⟩ fun j c _ hj ↦ by cases c <;> exact hj
  | readReturns _ _ _ _ _ _ _ hready =>
    have hnone : Justified (fun _ _ ↦ False) (wake .nwrite s.chan) := by
      refine hs.wake fun j c hc hj ↦ ?_
      cases c with
      | nread => exact hready hj.2
      | nwrite => exact hc rfl
    exact hnone.unregister fun j c _ hj ↦ hj.elim
  | closesWrite =>
    refine hs.wake fun j c hc hj ↦ ?_
    cases c with
    | nread => exact absurd rfl hc
    | nwrite => exact hj
  | closesRead =>
    refine hs.wake fun j c hc hj ↦ ?_
    cases c with
    | nread => exact hj
    | nwrite => exact absurd rfl hc

/-- Whoever sleeps on a pipe has a reason, and readers and writers do not sleep on it together. -/
theorem pipe_waiters {c : PipeChan} (h : Path pipeStep (newPipe data) l u)
    (hsteady : ∀ tr ∈ l, SteadyKill tr.event) (hchan : u.chan p = some c) :
    PipeReason u p c ∧ ∀ q d, u.chan q = some d → d = c := by
  have hall : Justified (PipeReason u) u.chan := by
    refine h.preserves_of (I := fun s ↦ Justified (PipeReason s) s.chan)
      (Q := fun _ e ↦ SteadyKill e) (fun s e t hstep hQ hs ↦ pipeWaiters_step hstep hQ hs)
      hsteady ?_
    intro q d hq
    cases hq
  refine ⟨hall p c hchan, fun q d hq ↦ ?_⟩
  have hp := hall p c hchan
  have hd := hall q d hq
  cases c with
  | nread =>
    cases d with
    | nread => rfl
    | nwrite => exact absurd hd.2.1 (by simp [not_full_of_empty hp.2.1])
  | nwrite =>
    cases d with
    | nread => exact absurd hp.2.1 (by simp [not_full_of_empty hd.2.1])
    | nwrite => rfl

/-- A reader comes to an empty pipe. -/
def asleep : List (Transition (PipeSystem Bool) (PipeEvent Bool)) × PipeSystem Bool :=
  replay pipeStep (newPipe fun _ ↦ 0) [.read true 8, .readTurn true false (fun _ ↦ true)]

theorem pipe_waiters_asleep : asleep.2.chan true = some .nread ∧
    PipeReason asleep.2 true .nread ∧ ∀ q d, asleep.2.chan q = some d → d = .nread := by
  have hpath : Path pipeStep (newPipe fun _ ↦ 0) asleep.1 asleep.2 := path_replay _ _
  have hsteady : ∀ tr ∈ asleep.1, SteadyKill tr.event := by
    intro tr htr
    have hmem := event_mem_of_replay htr
    simp only [List.mem_cons, List.not_mem_nil, or_false] at hmem
    rcases hmem with he | he
    · rw [he]
      trivial
    · rw [he]
      trivial
  exact ⟨by decide, pipe_waiters hpath hsteady (by decide)⟩

-- A writer is killed behind its first byte, and the reader sleeps on although there is a byte.
example :
    let s := (replay pipeStep asleep.2
      [.write false 2, .writeTurn false (fun i ↦ i == 1) (fun _ ↦ some 104)]).2
    s.users false = .returned (-1) ∧ s.pipe.buf.contents = [104] ∧ s.chan true = some .nread := by
  decide

end Runs

end Irish.Xv6
