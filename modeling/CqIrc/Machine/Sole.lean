import Mathlib.Logic.Function.Basic

/-! A family of which at most one member is not at rest. Members change one at a time:
the sole one goes on, or a resting one takes its place when none is left. -/

namespace CqIrc.Machine
variable {ι β : Type*}

/-- All entries are the resting one `d`, but for at most one, which is `b`. -/
def Sole (f : ι → β) (d b : β) : Prop :=
  (b = d ∧ ∀ i, f i = d) ∨ ∃ k, f k = b ∧ ∀ i, i ≠ k → f i = d

variable {f : ι → β} {d b : β} {k : ι}

theorem Sole.rest (h : ∀ i, f i = d) : Sole f d d := .inl ⟨rfl, h⟩

theorem Sole.eq_of_ne (h : Sole f d b) (hk : f k ≠ d) : f k = b := by
  rcases h with ⟨-, rest⟩ | ⟨j, hj, rest⟩
  · exact absurd (rest k) hk
  · by_cases same : k = j
    · rw [same, hj]
    · exact absurd (rest k same) hk

/-- What holds of every entry holds of the sole one, when it holds at rest. -/
theorem Sole.of_forall (h : Sole f d b) {P : β → Prop} (hd : P d) (hf : ∀ i, P (f i)) : P b := by
  rcases h with ⟨rfl, -⟩ | ⟨j, rfl, -⟩
  · exact hd
  · exact hf j

section update
variable [DecidableEq ι] {α : Type*} {g : α → β} {w : ι → α} {a : α}

/-- A change that is not seen. -/
theorem Sole.keep (h : Sole (g ∘ w) d b) (hk : g (w k) = g a) :
    Sole (g ∘ Function.update w k a) d b := by
  have same : g ∘ Function.update w k a = g ∘ w := by
    rw [Function.comp_update, ← hk]
    exact Function.update_eq_self k (g ∘ w)
  rw [same]
  exact h

/-- A change of the sole entry, or of one at rest when no other entry is not. -/
theorem Sole.next (h : Sole (g ∘ w) d b) (hk : g (w k) = b) :
    Sole (g ∘ Function.update w k a) d (g a) := by
  rw [Function.comp_update]
  refine .inr ⟨k, Function.update_self .., fun i hi => ?_⟩
  rw [Function.update_of_ne hi]
  rcases h with ⟨-, rest⟩ | ⟨j, hj, rest⟩
  · exact rest i
  · by_cases same : i = j
    · -- the sole entry is not the changed one, which is then at rest as well
      have resting : g (w k) = d := rest k fun other => hi (same.trans other.symm)
      rw [same, hj, ← hk, resting]
    · exact rest i same

end update

end CqIrc.Machine
