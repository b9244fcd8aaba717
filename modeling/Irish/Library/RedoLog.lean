import Mathlib.Data.List.Basic

/-!
# Redo logs

A disk is a function from addresses to contents, and a redo log is a list of writes that may be
applied to it again: where the writes hold what the disk should have, and the disk has it already
elsewhere, the result is the disk that should be there (`applyWrites_eq`). So a recovery that is
interrupted can start again.

`TxDisk` is what a log is for: a disk with the contents that the program sees and the contents that
a crash leaves behind. A commit makes the first durable as a whole, and a crash goes back to the
second as a whole.
-/

set_option autoImplicit false

namespace Irish.Library

section Writes

variable {β δ : Type*} [DecidableEq β] {ws : List (β × δ)} {b : β} {disk target : β → δ}

/-- The disk after a list of writes, in their order. -/
def applyWrites (disk : β → δ) (writes : List (β × δ)) : β → δ :=
  writes.foldl (fun disk w ↦ Function.update disk w.1 w.2) disk

theorem applyWrites_append (disk : β → δ) (ws vs : List (β × δ)) :
    applyWrites disk (ws ++ vs) = applyWrites (applyWrites disk ws) vs :=
  List.foldl_append

theorem applyWrites_of_notMem (h : b ∉ ws.map Prod.fst) (disk : β → δ) :
    applyWrites disk ws b = disk b := by
  induction ws generalizing disk with
  | nil => rfl
  | cons _ _ ih =>
    rw [List.map_cons, List.mem_cons, not_or] at h
    rw [applyWrites, List.foldl_cons]
    exact (ih h.2 _).trans (Function.update_of_ne h.1 _ _)

/-- Where all writes agree with a disk, so does the result. -/
theorem applyWrites_eq (hws : ∀ w ∈ ws, w.1 = b → w.2 = target b)
    (hdisk : b ∉ ws.map Prod.fst → disk b = target b) : applyWrites disk ws b = target b := by
  induction ws generalizing disk with
  | nil => exact hdisk (by simp)
  | cons w _ ih =>
    rw [applyWrites, List.foldl_cons]
    refine ih (fun v hv ↦ hws v (List.mem_cons_of_mem _ hv)) fun hrest ↦ ?_
    by_cases hb : b = w.1
    · rw [hb, Function.update_self, ← hb]
      exact hws w List.mem_cons_self hb.symm
    · rw [Function.update_of_ne hb]
      exact hdisk (by simp [hb, hrest])

end Writes

/-! ### A disk with transactions -/

/-- A disk that survives a crash with the contents of its last commit. -/
structure TxDisk (β δ : Type*) where
  live : β → δ
  durable : β → δ

inductive TxEvent (β δ : Type*)
  | write (addr : β) (data : δ)
  | commit
  | crash

section TxDisk

variable {β δ : Type*} [DecidableEq β]

def TxDisk.apply (d : TxDisk β δ) : TxEvent β δ → TxDisk β δ
  | .write addr data => { d with live := Function.update d.live addr data }
  | .commit => { d with durable := d.live }
  | .crash => { d with live := d.durable }

end TxDisk

end Irish.Library
