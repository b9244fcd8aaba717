import Mathlib.Logic.Function.Basic

/-!
# A store with atomic transfers

What a driver offers to its callers: each caller has a buffer, asks for one transfer between its
buffer and a place of the store, and gets it, at one moment between the call and the return. While a
transfer is asked for, nobody else touches the buffer. A transfer may also fail, and then it may
have left anything where it was to go.
-/

set_option autoImplicit false

namespace Irish.Library

open Function (update)

inductive TransferPhase (κ : Type*)
  | idle
  | pending (write : Bool) (place : κ)
  | done

structure AtomicStore (ι κ β : Type*) where
  store : κ → β
  data : ι → β
  phase : ι → TransferPhase κ

variable {ι κ β : Type*} [DecidableEq ι] [DecidableEq κ]

inductive AtomicStore.Step (a : AtomicStore ι κ β) : AtomicStore ι κ β → Prop
  | fill (i : ι) (x : β) (h : a.phase i = .idle) :
    a.Step { a with data := update a.data i x }
  | call (i : ι) (write : Bool) (k : κ) (h : a.phase i = .idle) :
    a.Step { a with phase := update a.phase i (.pending write k) }
  | reads (i : ι) (k : κ) (h : a.phase i = .pending false k) :
    a.Step { a with data := update a.data i (a.store k),
                    phase := update a.phase i .done }
  | writes (i : ι) (k : κ) (h : a.phase i = .pending true k) :
    a.Step { a with store := update a.store k (a.data i),
                    phase := update a.phase i .done }
  | returns (i : ι) (h : a.phase i = .done) :
    a.Step { a with phase := update a.phase i .idle }

/-- A transfer fails, and is asked for as before. -/
inductive AtomicStore.Failure (a : AtomicStore ι κ β) : AtomicStore ι κ β → Prop
  | reads (i : ι) (k : κ) (x : β) (h : a.phase i = .pending false k) :
    a.Failure { a with data := update a.data i x }
  | writes (i : ι) (k : κ) (x : β) (h : a.phase i = .pending true k) :
    a.Failure { a with store := update a.store k x }

end Irish.Library
