import Mathlib.Logic.Function.Basic

/-! Mutexes as a partial map to the threads that have locked them. -/

namespace Mutex

variable {T M : Type} [DecidableEq M] {owner : M → Option T} {t u : T} {m : M}

theorem lock_other (hfree : owner m = none) (hu : u ≠ t) (k : M) :
    Function.update owner m (some t) k = some u ↔ owner k = some u := by
  by_cases hk : k = m
  · rw [hk, Function.update_self, hfree]
    simp [Ne.symm hu]
  · rw [Function.update_of_ne hk]

theorem lock_self (k : M) : Function.update owner m (some t) k = some t ↔ k = m ∨ owner k = some t := by
  by_cases hk : k = m
  · rw [hk, Function.update_self]
    simp
  · rw [Function.update_of_ne hk]
    simp [hk]

theorem unlock_other (howner : owner m = some t) (hu : u ≠ t) (k : M) :
    Function.update owner m none k = some u ↔ owner k = some u := by
  by_cases hk : k = m
  · rw [hk, Function.update_self, howner]
    simp [Ne.symm hu]
  · rw [Function.update_of_ne hk]

theorem unlock_self (k : M) : Function.update owner m none k = some t ↔ k ≠ m ∧ owner k = some t := by
  by_cases hk : k = m
  · rw [hk, Function.update_self]
    simp
  · rw [Function.update_of_ne hk]
    simp [hk]

end Mutex
