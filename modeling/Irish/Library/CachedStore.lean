import Irish.Library.RedoLog

/-!
# Stores with a cache

A store and a partial copy of it that is written first. What is seen of the two together is `view`.
Reading an address in, writing it back and giving up a clean copy are invisible; only a write to the
copy changes the view (`CacheMove.view_eq`).
-/

set_option autoImplicit false

namespace Irish.Library

variable {β δ : Type*}

structure CachedStore (β δ : Type*) where
  disk : β → δ
  cache : β → Option δ

def CachedStore.view (c : CachedStore β δ) (a : β) : δ := (c.cache a).getD (c.disk a)

variable [DecidableEq β] {c c' : CachedStore β δ} {w : Option (β × δ)}

/-- A step of a cache, with what it writes. -/
inductive CacheMove (c : CachedStore β δ) : Option (β × δ) → CachedStore β δ → Prop
  | keep : CacheMove c none c
  | fill (a : β) (hcache : c.cache a = none) :
    CacheMove c none { c with cache := Function.update c.cache a (some (c.disk a)) }
  | evict (a : β) (hclean : c.cache a = some (c.disk a)) :
    CacheMove c none { c with cache := Function.update c.cache a none }
  | store (a : β) (d : δ) :
    CacheMove c (some (a, d)) { c with cache := Function.update c.cache a (some d) }
  | writeBack (a : β) (d : δ) (hcache : c.cache a = some d) :
    CacheMove c none { c with disk := Function.update c.disk a d }

theorem CacheMove.of_eq (h : c' = c) : CacheMove c none c' := by
  rw [h]
  exact .keep

theorem CacheMove.view_eq (h : CacheMove c w c') : c'.view = applyWrites c.view w.toList := by
  funext x
  cases h with
  | keep => rfl
  | fill a hcache | writeBack a _ hcache =>
    by_cases hx : x = a
    · simp [CachedStore.view, applyWrites, hx, hcache]
    · simp [CachedStore.view, applyWrites, hx]
  | evict a hclean =>
    by_cases hx : x = a
    · simp [CachedStore.view, applyWrites, hx, hclean]
    · simp [CachedStore.view, applyWrites, hx]
  | store a =>
    by_cases hx : x = a
    · simp [CachedStore.view, applyWrites, hx]
    · simp [CachedStore.view, applyWrites, hx]

end Irish.Library
