import Mathlib.Data.List.Basic
import Mathlib.Logic.Relation
import Mathlib.Data.List.Induction

/-!
# Runs of a partial step function

A system is given by a partial step function `step : σ → ε → Option σ`: an event is refused in a
state where the system cannot take it. A `Path` records every transition of a run, so a property of
a run is a property of the members of a list, and an amount that accumulates along a run is a
`List.countP` over it. The rules here are the only inductions over runs that a development needs:
an invariant of every step is an invariant of every path (`Path.preserves`), and a bound that
follows a count step by step holds for the whole count (`Path.countP_rule`).
-/

set_option autoImplicit false

namespace Irish.Library

/-- One step of a run, with the states on both of its sides. -/
structure Transition (σ ε : Type*) where
  source : σ
  event : ε
  target : σ
deriving DecidableEq

section Paths

variable {σ ε : Type*} (step : σ → ε → Option σ)

/-- The finite runs of a partial step function, with their transitions in order. -/
inductive Path : σ → List (Transition σ ε) → σ → Prop
  | nil (s : σ) : Path s [] s
  | cons {s t u : σ} {e : ε} {l : List (Transition σ ε)} :
      step s e = some t → Path t l u → Path s (⟨s, e, t⟩ :: l) u

/-- A state is reachable when some run from the initial state ends in it. -/
def Reachable (init s : σ) : Prop := ∃ l, Path step init l s

/-- Some run between two states has only events of one kind. -/
def RunOf (P : ε → Prop) (s u : σ) : Prop := ∃ l, Path step s l u ∧ ∀ tr ∈ l, P tr.event

/-- The transitions taken on a list of events and the state they end in, or nothing when one of the
events is refused. -/
def trace : σ → List ε → Option (List (Transition σ ε) × σ)
  | s, [] => some ([], s)
  | s, e :: events =>
    match step s e with
    | none => none
    | some t =>
      match trace t events with
      | none => none
      | some (l, u) => some (⟨s, e, t⟩ :: l, u)

variable {step} {s t u init : σ} {l m : List (Transition σ ε)} {I : σ → Prop} {P : ε → Prop}
  {events : List ε} {tr : Transition σ ε} {Q : σ → ε → Prop} {c : ℕ} {α : Type*}
  {f : α → Transition σ ε → α} {a : α}

theorem Path.append (hl : Path step s l t) (hm : Path step t m u) : Path step s (l ++ m) u := by
  induction hl with
  | nil => exact hm
  | cons hstep _ ih => exact .cons hstep (ih hm)

theorem Path.single {e : ε} (h : step s e = some t) : Path step s [⟨s, e, t⟩] t :=
  .cons h (.nil t)

/-- A run through a concatenation passes through a state between the two parts. -/
theorem Path.split (h : Path step s (l ++ m) u) : ∃ t, Path step s l t ∧ Path step t m u := by
  induction l generalizing s with
  | nil => exact ⟨s, .nil s, h⟩
  | cons _ _ ih =>
    cases h with
    | cons hstep hrest =>
      obtain ⟨t, hl, hm⟩ := ih hrest
      exact ⟨t, .cons hstep hl, hm⟩

/-- A run at one of its transitions. -/
theorem Path.split_cons (h : Path step s (l ++ tr :: m) u) :
    Path step s l tr.source ∧ step tr.source tr.event = some tr.target ∧
      Path step tr.target m u := by
  obtain ⟨t, hl, hrest⟩ := h.split
  cases hrest with
  | cons hstep hm => exact ⟨hl, hstep, hm⟩

/-- A run ends in its first state or in the target of one of its transitions. -/
theorem Path.target_mem (h : Path step s l u) : u ∈ s :: l.map (·.target) := by
  induction h with
  | nil => exact List.mem_cons_self
  | cons _ _ ih => exact List.mem_cons_of_mem _ ih

/-- A property that every step of some kind keeps is kept by every run of such steps. -/
theorem Path.preserves_of (hstep : ∀ s e t, step s e = some t → Q s e → I s → I t)
    (h : Path step s l u) (hQ : ∀ tr ∈ l, Q tr.source tr.event) (hs : I s) : I u := by
  induction h with
  | nil => exact hs
  | cons hst _ ih =>
    exact ih (fun tr htr ↦ hQ tr (List.mem_cons_of_mem _ htr))
      (hstep _ _ _ hst (hQ _ List.mem_cons_self) hs)

theorem Path.preserves (hstep : ∀ s e t, step s e = some t → I s → I t) (h : Path step s l u)
    (hs : I s) : I u :=
  h.preserves_of (Q := fun _ _ ↦ True) (fun s e t hst _ ↦ hstep s e t hst) (by simp) hs

/-- A relation between a count and a state that every step along the run keeps, the count growing
by one at the transitions in `P`, holds of the whole count at the end of the run. -/
theorem Path.countP_rule {P : Transition σ ε → Bool} {J : ℕ → σ → Prop} (h : Path step s l u)
    (hstep : ∀ tr ∈ l, step tr.source tr.event = some tr.target → ∀ c, J c tr.source →
      J (c + if P tr then 1 else 0) tr.target) (hs : J c s) : J (c + l.countP P) u := by
  induction h generalizing c with
  | nil => simpa using hs
  | @cons s t _ e l hst _ ih =>
    have hnext := hstep ⟨s, e, t⟩ List.mem_cons_self hst c hs
    have hrest := ih (fun tr htr ↦ hstep tr (List.mem_cons_of_mem _ htr)) hnext
    rw [List.countP_cons]
    have hsum : c + (l.countP P + if P ⟨s, e, t⟩ then 1 else 0) =
        (c + if P ⟨s, e, t⟩ then 1 else 0) + l.countP P := by omega
    rwa [hsum]

/-- A relation between a count along the run, a value computed along it and the state that every
step keeps holds at the end of the run. -/
theorem Path.foldl_rule {P : Transition σ ε → Bool} {J : ℕ → α → σ → Prop} (h : Path step s l u)
    (hstep : ∀ c a s e t, step s e = some t → J c a s →
      J (c + if P ⟨s, e, t⟩ then 1 else 0) (f a ⟨s, e, t⟩) t) (hs : J c a s) :
    J (c + l.countP P) (l.foldl f a) u := by
  induction h generalizing c a with
  | nil => exact hs
  | @cons _ _ _ _ _ hst _ ih =>
    have hrest := ih (hstep _ _ _ _ _ hst hs)
    rwa [Nat.add_assoc, Nat.add_comm (if P _ then 1 else 0), ← List.countP_cons] at hrest

/-- A relation between the run so far and its last state that every further step keeps. -/
theorem Path.history_rule {J : List (Transition σ ε) → σ → Prop} (h : Path step s l u) (hs : J [] s)
    (hstep : ∀ l t e t', Path step s l t → step t e = some t' → J l t →
      J (l ++ [⟨t, e, t'⟩]) t') : J l u := by
  induction l using List.reverseRecOn generalizing u with
  | nil =>
    cases h
    exact hs
  | append_singleton l _ ih =>
    obtain ⟨t, hl, hlast⟩ := h.split
    cases hlast with
    | cons hst hnil =>
      cases hnil
      exact hstep l t _ _ hl hst (ih hl)

theorem RunOf.refl (s : σ) : RunOf step P s s := ⟨[], .nil s, by simp⟩

theorem RunOf.single {e : ε} (h : step s e = some t) (he : P e) : RunOf step P s t :=
  ⟨_, Path.single h, by simpa using he⟩

theorem RunOf.trans (h : RunOf step P s t) (h' : RunOf step P t u) : RunOf step P s u := by
  obtain ⟨l, hl, hP⟩ := h
  obtain ⟨m, hm, hP'⟩ := h'
  refine ⟨l ++ m, hl.append hm, fun tr htr ↦ ?_⟩
  rcases List.mem_append.mp htr with hmem | hmem
  · exact hP tr hmem
  · exact hP' tr hmem

theorem Reachable.trans_path (h : Reachable step init s) (hl : Path step s l u) :
    Reachable step init u := by
  obtain ⟨m, hm⟩ := h
  exact ⟨m ++ l, hm.append hl⟩

/-- An invariant that holds initially and that every step keeps holds in every reachable state. -/
theorem Reachable.invariant (h : Reachable step init s) (hinit : I init)
    (hstep : ∀ s e t, step s e = some t → I s → I t) : I s := by
  obtain ⟨l, hl⟩ := h
  exact hl.preserves hstep hinit

/-- Steps of one kind that make a measure smaller can be taken until none is possible. -/
theorem exists_stuck (measure : σ → ℕ)
    (hstep : ∀ s e t, P e → step s e = some t → I s → I t ∧ measure t < measure s)
    (hs : I s) : ∃ u, RunOf step P s u ∧ I u ∧ ∀ e, P e → step u e = none := by
  induction hn : measure s using Nat.strongRecOn generalizing s with
  | _ _ ih =>
    by_cases hstuck : ∀ e, P e → step s e = none
    · exact ⟨s, RunOf.refl s, hs, hstuck⟩
    · push Not at hstuck
      obtain ⟨e, he, hne⟩ := hstuck
      obtain ⟨t, ht⟩ := Option.ne_none_iff_exists'.mp hne
      obtain ⟨hI, hlt⟩ := hstep s e t he ht hs
      obtain ⟨u, hrun, hu⟩ := ih (measure t) (hn ▸ hlt) hI rfl
      exact ⟨u, (RunOf.single ht he).trans hrun, hu⟩

theorem path_of_trace (h : trace step s events = some (l, u)) : Path step s l u := by
  induction events generalizing s l with
  | nil =>
    simp only [trace, Option.some.injEq, Prod.mk.injEq] at h
    obtain ⟨rfl, rfl⟩ := h
    exact .nil s
  | cons e events ih =>
    simp only [trace] at h
    split at h
    · simp at h
    · rename_i t ht
      split at h
      · simp at h
      · rename_i m v hm
        simp only [Option.some.injEq, Prod.mk.injEq] at h
        obtain ⟨rfl, rfl⟩ := h
        exact .cons ht (ih hm)

/-- The run on a list of events, or the empty run when one of them is refused. -/
def replay (step : σ → ε → Option σ) (s : σ) (events : List ε) : List (Transition σ ε) × σ :=
  (trace step s events).getD ([], s)

theorem events_of_trace (h : trace step s events = some (l, u)) : l.map (·.event) = events := by
  induction events generalizing s l with
  | nil =>
    simp only [trace, Option.some.injEq, Prod.mk.injEq] at h
    obtain ⟨rfl, -⟩ := h
    rfl
  | cons e events ih =>
    simp only [trace] at h
    split at h
    · simp at h
    · split at h
      · simp at h
      · rename_i m v hm
        simp only [Option.some.injEq, Prod.mk.injEq] at h
        obtain ⟨rfl, rfl⟩ := h
        rw [List.map_cons, ih hm]

/-- The transitions of a replayed run are for the events that were given. -/
theorem event_mem_of_replay (h : tr ∈ (replay step s events).1) : tr.event ∈ events := by
  unfold replay at h
  cases htrace : trace step s events with
  | none => simp [htrace] at h
  | some =>
    rw [htrace] at h
    rw [← events_of_trace htrace]
    exact List.mem_map_of_mem h

theorem path_replay (s : σ) (events : List ε) :
    Path step s (replay step s events).1 (replay step s events).2 := by
  unfold replay
  cases h : trace step s events with
  | none => exact .nil s
  | some => exact path_of_trace h

end Paths

end Irish.Library
