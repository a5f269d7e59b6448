/-
  Foundation/Sums.lean --- totals over the parts of a state.

  A state with a part for each index has a total; a step that changes one part changes the
  total by what that part changed.

  Nothing here mentions a particular component.
-/
import Mathlib.Algebra.BigOperators.Group.Finset.Piecewise
import Mathlib.Algebra.Order.BigOperators.Group.Finset
import Mathlib.Data.Fintype.Basic

namespace Lbug.Foundation

open Finset Function

/-- The total after the part of `i` is replaced. -/
theorem sum_update_add {ι α β : Type*} [DecidableEq ι] [AddCommMonoid β] {s : Finset ι} {i : ι}
    (hi : i ∈ s) (f : ι → α → β) (g : ι → α) (a : α) :
    ∑ j ∈ s, f j (update g i a j) + f i (g i) = ∑ j ∈ s, f j (g j) + f i a := by
  simp only [apply_update f, sum_update_of_mem hi]
  rw [sum_eq_sum_sdiff_singleton_add hi fun j => f j (g j)]
  ac_rfl

theorem sum_update {ι α : Type} [Fintype ι] [DecidableEq ι] (f : ι → α → ℤ) (g : ι → α) (i : ι)
    (a : α) :
    ∑ j, f j (update g i a j) = ∑ j, f j (g j) - f i (g i) + f i a := by
  have := sum_update_add (mem_univ i) f g a
  omega

end Lbug.Foundation
