import Irish.Library.Tables

/-!
# Agents that hold objects

Each agent holds at most one object (`hold : ι → Option κ`). A lock table is of this kind, with its
locks as the objects, and so is the table of what each agent has to itself. `Exclusive` says that no
object is held twice, `Tracks` that a property of the objects is that of being held. Both are kept
when an agent takes an object that is free and when it lets one go.
-/

set_option autoImplicit false

namespace Irish.Library

open Function (update update_of_ne update_self)

variable {ι κ : Type*} [DecidableEq ι] {hold : ι → Option κ} {P Q : κ → Prop} {a : ι} {k : κ}

/-- No object is held by two agents. -/
def Exclusive (hold : ι → Option κ) : Prop :=
  ∀ a b k, hold a = some k → hold b = some k → a = b

/-- The objects with the property `P` are those that are held. -/
def Tracks (hold : ι → Option κ) (P : κ → Prop) : Prop := ∀ k, P k ↔ ∃ a, hold a = some k

theorem Exclusive.take (h : Exclusive hold) (hfree : ∀ b, hold b ≠ some k) :
    Exclusive (update hold a (some k)) := by
  intro b d j hb hd
  rcases update_cases hb with ⟨rfl, ⟨⟩⟩ | ⟨-, hb'⟩ <;>
    rcases update_cases hd with ⟨rfl, ⟨⟩⟩ | ⟨-, hd'⟩
  · rfl
  · exact absurd hd' (hfree d)
  · exact absurd hb' (hfree b)
  · exact h b d j hb' hd'

theorem Exclusive.drop (h : Exclusive hold) (a : ι) : Exclusive (update hold a none) := by
  intro b d j hb hd
  obtain ⟨-, ⟨⟩⟩ | ⟨-, hb⟩ := update_cases hb
  obtain ⟨-, ⟨⟩⟩ | ⟨-, hd⟩ := update_cases hd
  exact h b d j hb hd

/-- An agent that held nothing takes `k`, and nothing else changes. -/
theorem Tracks.take (h : Tracks hold P) (hnone : hold a = none) (hk : Q k)
    (hothers : ∀ j, j ≠ k → (Q j ↔ P j)) : Tracks (update hold a (some k)) Q := by
  intro j
  rcases eq_or_ne j k with rfl | hj
  · exact ⟨fun _ ↦ ⟨a, update_self ..⟩, fun _ ↦ hk⟩
  · rw [hothers j hj, h j]
    constructor
    · rintro ⟨b, hb⟩
      have hba : b ≠ a := by
        rintro rfl
        cases hnone.symm.trans hb
      exact ⟨b, by rwa [update_of_ne hba]⟩
    · rintro ⟨b, hb⟩
      rcases update_cases hb with ⟨-, ⟨⟩⟩ | ⟨-, hb⟩
      · exact absurd rfl hj
      · exact ⟨b, hb⟩

/-- The one agent that holds `k` lets it go, and nothing else changes. -/
theorem Tracks.drop (h : Tracks hold P) (hexclusive : Exclusive hold) (ha : hold a = some k)
    (hk : ¬ Q k) (hothers : ∀ j, j ≠ k → (Q j ↔ P j)) : Tracks (update hold a none) Q := by
  intro j
  rcases eq_or_ne j k with rfl | hj
  · refine ⟨fun hq ↦ absurd hq hk, ?_⟩
    rintro ⟨b, hb⟩
    obtain ⟨-, ⟨⟩⟩ | ⟨hba, hb⟩ := update_cases hb
    exact absurd (hexclusive b a j hb ha) hba
  · rw [hothers j hj, h j]
    constructor
    · rintro ⟨b, hb⟩
      have hba : b ≠ a := by
        rintro rfl
        rw [ha, Option.some.injEq] at hb
        exact hj hb.symm
      exact ⟨b, by rwa [update_of_ne hba]⟩
    · rintro ⟨b, hb⟩
      obtain ⟨-, ⟨⟩⟩ | ⟨-, hb⟩ := update_cases hb
      exact ⟨b, hb⟩

end Irish.Library
