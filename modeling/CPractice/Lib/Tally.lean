import Mathlib.Algebra.BigOperators.Group.Finset.Piecewise
import Mathlib.Tactic.Abel

/-! Totals over a finite set of places, and what a write to one of them does to the total. -/

namespace Tally

variable {ι α M : Type} [DecidableEq ι] [AddCommMonoid M] {s : Finset ι} {i : ι}

theorem sum_update_add (weight : α → M) (f : ι → α) (hi : i ∈ s) (x : α) :
    ∑ j ∈ s, weight (Function.update f i x j) + weight (f i) = ∑ j ∈ s, weight (f j) + weight x := by
  simp only [Function.apply_update (fun _ => weight)]
  rw [Finset.sum_update_of_mem hi, ← Finset.add_sum_erase s (fun j => weight (f j)) hi,
    Finset.sdiff_singleton_eq_erase]
  abel

end Tally
