import Mathlib.Algebra.Order.BigOperators.Group.Finset

/-! A family of parts and what each of them weighs. One part changes at a time, so the
total changes by what is taken from that part and what is put there. -/

namespace CqIrc.Machine
variable {ι α M : Type*} [Fintype ι]

/-- The weight of all parts. -/
def total [AddCommMonoid M] (g : α → M) (w : ι → α) : M := ∑ i, g (w i)

section monoid
variable [AddCommMonoid M] {g : α → M} {w : ι → α} {k : ι} {a : α}

theorem total_zero (h : ∀ i, g (w i) = 0) : total g w = 0 := Finset.sum_eq_zero fun i _ => h i

variable [DecidableEq ι]

theorem total_update (g : α → M) (w : ι → α) (k : ι) (a : α) :
    total g (Function.update w k a) + g (w k) = total g w + g a := by
  have rest : ∀ i ∈ Finset.univ.erase k, g (Function.update w k a i) = g (w i) := fun i hi => by
    rw [Function.update_of_ne (Finset.ne_of_mem_erase hi)]
  have new := Finset.add_sum_erase Finset.univ (fun i => g (Function.update w k a i))
    (Finset.mem_univ k)
  have old := Finset.add_sum_erase Finset.univ (fun i => g (w i)) (Finset.mem_univ k)
  rw [total, total, ← new, ← old, Function.update_self, Finset.sum_congr rfl rest]
  ac_rfl

/-- A change that is not weighed. -/
theorem total_keep (h : g a = g (w k)) : total g (Function.update w k a) = total g w := by
  have same : g ∘ Function.update w k a = g ∘ w := by
    rw [Function.comp_update, h]
    exact Function.update_eq_self k (g ∘ w)
  exact Finset.sum_congr rfl fun i _ => congrFun same i

end monoid

section changes
variable [DecidableEq ι] {w : ι → α} {k : ι} {a : α}

/-- What the rest of the state takes from a part leaves the sum as it is. -/
theorem total_transfer [AddCancelCommMonoid M] {g : α → M} {b b' : M}
    (h : b' + g a = b + g (w k)) :
    b' + total g (Function.update w k a) = b + total g w := by
  apply add_right_cancel (b := g (w k))
  calc b' + total g (Function.update w k a) + g (w k)
      = b' + (total g w + g a) := by rw [add_assoc, total_update]
    _ = b' + g a + total g w := by ac_rfl
    _ = b + g (w k) + total g w := by rw [h]
    _ = b + total g w + g (w k) := by ac_rfl

variable {g : α → Nat} {b b' : Nat}

theorem total_le (h : b' + g a ≤ b + g (w k)) :
    b' + total g (Function.update w k a) ≤ b + total g w := by
  have := total_update g w k a
  omega

theorem total_lt (h : b' + g a < b + g (w k)) :
    b' + total g (Function.update w k a) < b + total g w := by
  have := total_update g w k a
  omega

end changes

theorem le_total [AddCommMonoid M] [PartialOrder M] [IsOrderedAddMonoid M] [CanonicallyOrderedAdd M]
    (g : α → M) (w : ι → α) (k : ι) : g (w k) ≤ total g w :=
  Finset.single_le_sum (f := fun i => g (w i)) (fun _ _ => zero_le) (Finset.mem_univ k)

end CqIrc.Machine
