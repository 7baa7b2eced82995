import Mathlib
/-!
# Systems of components

The state of such a system is a family of components, and a step changes one of them.
-/

namespace Components

open Finset

variable {ι α M : Type*} [Fintype ι] [DecidableEq ι] [AddCommMonoid M]

/-- What one component adds to a sum over all of them. -/
theorem sum_update (f : α → M) (g : ι → α) (i : ι) (a : α) :
    ∑ j, f (Function.update g i a j) + f (g i) = ∑ j, f (g j) + f a := by
  have hrest : ∑ j ∈ univ.erase i, f (Function.update g i a j) = ∑ j ∈ univ.erase i, f (g j) :=
    sum_congr rfl fun j hj => by rw [Function.update_of_ne (ne_of_mem_erase hj)]
  rw [← add_sum_erase univ (fun j => f (Function.update g i a j)) (mem_univ i),
    ← add_sum_erase univ (fun j => f (g j)) (mem_univ i), hrest, Function.update_self]
  abel

/-- A step that keeps what one component adds keeps the sum. -/
theorem sum_update_eq (f : α → M) (g : ι → α) {i : ι} {a : α} (h : f a = f (g i)) :
    ∑ j, f (Function.update g i a j) = ∑ j, f (g j) := by
  refine sum_congr rfl fun j _ => ?_
  by_cases hj : j = i
  · rw [hj, Function.update_self, h]
  · rw [Function.update_of_ne hj]

omit [Fintype ι] in
/-- What holds of all components still does, if it holds of the one that changed. -/
theorem forall_update {P : ι → α → Prop} {g : ι → α} {i : ι} {a : α} (h : ∀ j, P j (g j)) (ha : P i a) (j : ι) :
    P j (Function.update g i a j) := by
  by_cases hj : j = i
  · rw [hj, Function.update_self]
    exact ha
  · rw [Function.update_of_ne hj]
    exact h j

end Components
