import Mathlib.Data.List.Basic

/-!
# Transducers that may reject

A machine that reads its input one letter at a time and puts out letters as it goes, with a last
word when the input ends. It rejects by a missing transition or by having nothing to say at the
end. `output` is the behaviour from a state on; `run` stops behind a part of the input, so that the
behaviour on a concatenation is the behaviour on its parts (`output_append`).
-/

set_option autoImplicit false

namespace Irish.Library

structure Transducer (σ α β : Type*) where
  step : σ → α → Option (σ × List β)
  finish : σ → Option (List β)

namespace Transducer

variable {σ α β : Type*} (M : Transducer σ α β)

/-- What is put out from a state on, or nothing if the input is rejected. -/
def output : σ → List α → Option (List β)
  | s, [] => M.finish s
  | s, a :: as => (M.step s a).bind fun next ↦ (output next.1 as).map (next.2 ++ ·)

/-- The state behind a part of the input, and what has been put out so far. -/
def run : σ → List α → Option (σ × List β)
  | s, [] => some (s, [])
  | s, a :: as => (M.step s a).bind fun next ↦
      (run next.1 as).map fun last ↦ (last.1, next.2 ++ last.2)

theorem output_append (s : σ) (as bs : List α) :
    M.output s (as ++ bs) =
      (M.run s as).bind fun last ↦ (M.output last.1 bs).map (last.2 ++ ·) := by
  induction as generalizing s with
  | nil => simp [run]
  | cons a as ih =>
    rw [List.cons_append, output, run]
    cases M.step s a with
    | none => rfl
    | some next =>
      simp only [Option.bind_some, ih]
      cases M.run next.1 as with
      | none => rfl
      | some last => simp [Function.comp_def]

variable {M} {s s' : σ} {a : α} {out : List β} {as : List α}

theorem output_of_step (h : M.step s a = some (s', out)) (as : List α) :
    M.output s (a :: as) = (M.output s' as).map (out ++ ·) := by
  rw [output, h, Option.bind_some]

theorem output_of_silent (h : M.step s a = some (s', [])) (as : List α) :
    M.output s (a :: as) = M.output s' as := by
  rw [output_of_step h]
  simp

theorem output_of_reject (h : M.step s a = none) (as : List α) : M.output s (a :: as) = none := by
  rw [output, h, Option.bind_none]

/-- A state that, on the next letter, only has more to put out than another one. -/
theorem output_of_ahead (h : M.step s a = (M.step s' a).map fun next ↦ (next.1, out ++ next.2))
    (as : List α) : M.output s (a :: as) = (M.output s' (a :: as)).map (out ++ ·) := by
  rw [output, output, h]
  cases M.step s' a with
  | none => rfl
  | some => simp [Function.comp_def]

/-- An accepted input leads to a state that accepts the end. -/
theorem exists_run_of_output (h : M.output s as = some out) :
    ∃ last front back, M.run s as = some (last, front) ∧ M.finish last = some back ∧
      out = front ++ back := by
  have happend := M.output_append s as []
  rw [List.append_nil, h] at happend
  obtain ⟨⟨last, front⟩, hrun, hlast⟩ := Option.bind_eq_some_iff.mp happend.symm
  obtain ⟨back, hback, hout⟩ := Option.map_eq_some_iff.mp hlast
  exact ⟨last, front, back, hrun, hback, hout.symm⟩

end Transducer

end Irish.Library
