import Mathlib.Algebra.BigOperators.Ring.Finset
import Mathlib.Algebra.BigOperators.Ring.List
import Mathlib.Algebra.Order.BigOperators.Group.Finset
import Mathlib.Algebra.Order.BigOperators.Group.List
import Mathlib.Algebra.Order.Field.Basic
import Mathlib.Data.Fintype.EquivFin
import Mathlib.Data.Set.Finite.List
import Mathlib.Tactic.Linarith
import Mathlib.Tactic.Positivity
import Mathlib.Tactic.Ring

/-! Clusters of numbers, given by a label for each number. The mean of a cluster is the
point with the least sum of squared distances, and the only such point. -/

namespace Lloyd

variable {F : Type} [Field F] [LinearOrder F] [IsStrictOrderedRing F]

def sumAt (k : Nat) : List Nat → List F → F
  | l :: ls, x :: xs => (if l = k then x else 0) + sumAt k ls xs
  | _, _ => 0

/-- The sum of the squared distances to the points `c` of the labels. -/
def spread (c : Nat → F) : List Nat → List F → F
  | l :: ls, x :: xs => (x - c l) * (x - c l) + spread c ls xs
  | _, _ => 0

def squares : List F → F
  | [] => 0
  | x :: xs => x * x + squares xs

omit [LinearOrder F] [IsStrictOrderedRing F] in
theorem spread_eq {n : Nat} {ls : List Nat} {xs : List F} (hls : ∀ l ∈ ls, l < n) (hlen : ls.length = xs.length)
    (c : Nat → F) :
    spread c ls xs = squares xs + ∑ k ∈ Finset.range n, (ls.count k * (c k * c k) - 2 * (c k * sumAt k ls xs)) := by
  induction ls generalizing xs with
  | nil =>
    cases xs with
    | nil => simp [spread, squares, sumAt]
    | cons x xs => simp at hlen
  | cons l ls ih =>
    cases xs with
    | nil => simp at hlen
    | cons x xs =>
      have hrest := ih (fun l hl => hls l (List.mem_cons_of_mem _ hl)) (Nat.succ.inj hlen)
      have hsplit : ∀ k, (((l :: ls).count k : Nat) : F) * (c k * c k) - 2 * (c k * sumAt k (l :: ls) (x :: xs)) =
          (ls.count k * (c k * c k) - 2 * (c k * sumAt k ls xs)) +
            if l = k then c k * c k - 2 * (c k * x) else 0 := by
        intro k
        rw [List.count_cons, sumAt]
        by_cases h : l = k
        · simp only [h, beq_self_eq_true, if_true]
          push_cast
          ring
        · simp [h]
      have hone : ∑ k ∈ Finset.range n, (if l = k then c k * c k - 2 * (c k * x) else 0) =
          c l * c l - 2 * (c l * x) := by
        rw [Finset.sum_ite_eq, if_pos (Finset.mem_range.mpr (hls l List.mem_cons_self))]
      rw [spread, squares, hrest, Finset.sum_congr rfl fun k _ => hsplit k, Finset.sum_add_distrib, hone]
      ring

omit [LinearOrder F] [IsStrictOrderedRing F] in
/-- What a cluster loses when it is seen from `c` and not from its mean. -/
theorem spread_sub {n : Nat} {ls : List Nat} {xs : List F} (hls : ∀ l ∈ ls, l < n) (hlen : ls.length = xs.length)
    (c : Nat → F) {m : Nat → F} (hm : ∀ k < n, ls.count k * m k = sumAt k ls xs) :
    spread c ls xs = spread m ls xs + ∑ k ∈ Finset.range n, ls.count k * ((c k - m k) * (c k - m k)) := by
  rw [spread_eq hls hlen c, spread_eq hls hlen m, add_assoc, ← Finset.sum_add_distrib]
  congr 1
  apply Finset.sum_congr rfl
  intro k hk
  rw [← hm k (Finset.mem_range.mp hk)]
  ring

theorem spread_mean_le {n : Nat} {ls : List Nat} {xs : List F} (hls : ∀ l ∈ ls, l < n) (hlen : ls.length = xs.length)
    (c : Nat → F) {m : Nat → F} (hm : ∀ k < n, ls.count k * m k = sumAt k ls xs) :
    spread m ls xs ≤ spread c ls xs := by
  rw [spread_sub hls hlen c hm]
  have hnonneg : 0 ≤ ∑ k ∈ Finset.range n, (ls.count k : F) * ((c k - m k) * (c k - m k)) :=
    Finset.sum_nonneg fun k _ => mul_nonneg (Nat.cast_nonneg _) (mul_self_nonneg _)
  linarith

theorem spread_mean_lt {n : Nat} {ls : List Nat} {xs : List F} (hls : ∀ l ∈ ls, l < n) (hlen : ls.length = xs.length)
    {c m : Nat → F} (hm : ∀ k < n, ls.count k * m k = sumAt k ls xs) (hne : ∀ k < n, ls.count k ≠ 0) {k : Nat}
    (hk : k < n) (hc : c k ≠ m k) : spread m ls xs < spread c ls xs := by
  rw [spread_sub hls hlen c hm]
  have hpos : 0 < ∑ k ∈ Finset.range n, (ls.count k : F) * ((c k - m k) * (c k - m k)) := by
    refine Finset.sum_pos' (fun k _ => mul_nonneg (Nat.cast_nonneg _) (mul_self_nonneg _))
      ⟨k, Finset.mem_range.mpr hk, mul_pos ?_ ?_⟩
    · exact Nat.cast_pos.mpr (Nat.pos_of_ne_zero (hne k hk))
    · exact mul_self_pos.mpr (sub_ne_zero.mpr hc)
  linarith

theorem sumAt_bounds {b : F} (k : Nat) {ls : List Nat} {xs : List F} (hlen : ls.length = xs.length)
    (hxs : ∀ x ∈ xs, 0 ≤ x ∧ x ≤ b) : 0 ≤ sumAt k ls xs ∧ sumAt k ls xs ≤ ls.count k * b := by
  induction ls generalizing xs with
  | nil => simp [sumAt]
  | cons l ls ih =>
    cases xs with
    | nil => simp at hlen
    | cons x xs =>
      obtain ⟨hlow, hhigh⟩ := ih (Nat.succ.inj hlen) fun y hy => hxs y (List.mem_cons_of_mem _ hy)
      obtain ⟨hx, hx'⟩ := hxs x List.mem_cons_self
      rw [sumAt, List.count_cons]
      by_cases h : l = k
      · simp only [h, beq_self_eq_true, if_true]
        push_cast
        constructor <;> linarith
      · simpa [h] using ⟨hlow, hhigh⟩

section Members

variable {α : Type} (label : α → Nat) (k : Nat) (ps : List α)

omit [LinearOrder F] [IsStrictOrderedRing F] in
theorem sumAt_map (f : α → F) :
    sumAt k (ps.map label) (ps.map f) = ((ps.filter fun p => label p = k).map f).sum := by
  induction ps with
  | nil => rfl
  | cons p ps ih =>
    rw [List.map_cons, List.map_cons, sumAt, ih]
    by_cases h : label p = k
    · rw [if_pos h, List.filter_cons_of_pos (by simpa using h), List.map_cons, List.sum_cons]
    · rw [if_neg h, List.filter_cons_of_neg (by simpa using h), zero_add]

theorem count_map : (ps.map label).count k = (ps.filter fun p => label p = k).length := by
  rw [List.count, List.countP_map, List.countP_eq_length_filter]
  congr 1

end Members

/-- There are finitely many ways to label, so a value of them cannot fall forever. -/
theorem no_descent {β : Type} [Preorder β] {n len : Nat} (labels : Nat → List Nat) (value : List Nat → β)
    (hlen : ∀ t, (labels t).length = len) (hlt : ∀ t, ∀ l ∈ labels t, l < n)
    (hfall : ∀ t, value (labels (t + 1)) < value (labels t)) : False := by
  have hanti : StrictAnti fun t => value (labels t) := strictAnti_nat_of_succ_lt hfall
  have hinj : Function.Injective labels := fun s t he => hanti.injective (congrArg value he)
  have hfinite : {ls : List (Fin n) | ls.length = len}.Finite := List.finite_length_eq (Fin n) len
  refine Set.infinite_range_of_injective hinj ((hfinite.image (List.map Fin.val)).subset ?_)
  rintro _ ⟨t, rfl⟩
  refine ⟨(labels t).pmap Fin.mk (hlt t), ?_, ?_⟩
  · exact List.length_pmap.trans (hlen t)
  · rw [List.map_pmap, List.pmap_eq_map, List.map_id']

end Lloyd
