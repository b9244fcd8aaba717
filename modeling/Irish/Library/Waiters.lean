import Irish.Library.Tables

/-!
# Waiting under a lock

The usual loop around a condition: under the lock that guards the condition a process looks at it,
registers on a channel while it does not hold, gives up the lock and sleeps until a wakeup on the
channel clears the registration. What can go wrong is that the condition becomes true and a
registration stays. `Justified` says that it does not: whoever is registered on a channel still has
a reason to wait. The rules are one for each thing a critical section can do.
-/

set_option autoImplicit false

namespace Irish.Library

variable {ι κ : Type*} [DecidableEq ι] [DecidableEq κ] {reason reason' : ι → κ → Prop}
  {chan : ι → Option κ} {i j : ι} {c d : κ}

/-- Register a process on a channel. -/
def register (i : ι) (c : κ) (chan : ι → Option κ) : ι → Option κ :=
  Function.update chan i (some c)

/-- A process that runs again has no registration any more. -/
def unregister (i : ι) (chan : ι → Option κ) : ι → Option κ := Function.update chan i none

/-- A wakeup clears every registration on the channel. -/
def wake (c : κ) (chan : ι → Option κ) : ι → Option κ :=
  fun i ↦ if chan i = some c then none else chan i

/-- Everybody who is registered on a channel has a reason to wait. -/
def Justified (reason : ι → κ → Prop) (chan : ι → Option κ) : Prop :=
  ∀ i c, chan i = some c → reason i c

omit [DecidableEq ι] [DecidableEq κ] in
theorem Justified.mono (h : Justified reason chan) (hmono : ∀ i c, reason i c → reason' i c) :
    Justified reason' chan :=
  fun i c hi ↦ hmono i c (h i c hi)

omit [DecidableEq κ] in
/-- A process registers with a reason, and the section has not taken away anybody else's. -/
theorem Justified.register (h : Justified reason chan) (hself : reason' i c)
    (hothers : ∀ j d, j ≠ i → reason j d → reason' j d) :
    Justified reason' (register i c chan) := by
  intro j d hj
  rcases update_cases hj with ⟨rfl, ⟨⟩⟩ | ⟨hji, hj⟩
  · exact hself
  · exact hothers j d hji (h j d hj)

omit [DecidableEq κ] in
theorem Justified.unregister (h : Justified reason chan)
    (hothers : ∀ j d, j ≠ i → reason j d → reason' j d) :
    Justified reason' (unregister i chan) := by
  intro j d hj
  obtain ⟨-, ⟨⟩⟩ | ⟨hji, hj⟩ := update_cases hj
  exact hothers j d hji (h j d hj)

omit [DecidableEq ι] in
theorem wake_eq_some : wake c chan j = some d ↔ chan j = some d ∧ d ≠ c := by
  unfold wake
  split_ifs with hj
  · simp only [hj, Option.some.injEq, false_iff, not_and, not_not]
    exact Eq.symm
  · refine ⟨fun h ↦ ⟨h, fun hd ↦ hj (hd ▸ h)⟩, And.left⟩

omit [DecidableEq ι] in
/-- A wakeup answers for the reasons to wait on its channel. -/
theorem Justified.wake (h : Justified reason chan)
    (hothers : ∀ j d, d ≠ c → reason j d → reason' j d) : Justified reason' (wake c chan) := by
  intro j d hj
  obtain ⟨hchan, hd⟩ := wake_eq_some.mp hj
  exact hothers j d hd (h j d hchan)

end Irish.Library
