import Mathlib.Data.List.Basic

/-! Splitting a list at the leftmost occurrences of a separator that do not overlap. -/

namespace Split

variable {α : Type} {sep acc l : List α} {skip : Nat} {x : α}

/-- No occurrence begins in `acc`, also none that ends behind it. -/
def Clear (sep acc l : List α) : Prop := ∀ i < acc.length, ¬ sep <+: (acc ++ l).drop i

theorem Clear.sep_free (h : Clear sep acc l) (hsep : sep ≠ []) : ¬ sep <:+: acc := by
  rintro ⟨pre, post, rfl⟩
  have hpos := List.length_pos_iff.mpr hsep
  refine h pre.length (by simp only [List.length_append]; omega) ?_
  rw [List.append_assoc, List.append_assoc, List.drop_left]
  exact List.prefix_append _ _

theorem Clear.cons (h : Clear sep acc (x :: l)) (hnot : ¬ sep <+: x :: l) : Clear sep (acc ++ [x]) l := by
  intro i hi
  rw [List.append_assoc, List.singleton_append]
  rw [List.length_append, List.length_singleton] at hi
  rcases Nat.lt_or_ge i acc.length with hlt | hge
  · exact h i hlt
  · rwa [show i = acc.length by omega, List.drop_left]

theorem sublist_intercalate (sep : List α) {ps : List (List α)} {p : List α} (hp : p ∈ ps) :
    p.Sublist (sep.intercalate ps) := by
  induction ps with
  | nil => cases hp
  | cons q ps ih =>
    rcases List.mem_cons.mp hp with rfl | hp
    · cases ps with
      | nil => rw [List.intercalate_singleton]
      | cons q' ps =>
        rw [List.intercalate_cons_cons, List.append_assoc]
        exact List.sublist_append_left _ _
    · rw [List.intercalate_cons_of_ne_nil (List.ne_nil_of_mem hp)]
      exact (ih hp).trans (List.sublist_append_right _ _)

variable [DecidableEq α]

/-- The scan passes over `skip` elements of an occurrence that it has found. -/
@[grind =] def occurrencesFrom (sep : List α) : Nat → List α → Nat
  | _, [] => 0
  | skip + 1, _ :: l => occurrencesFrom sep skip l
  | 0, x :: l =>
    if sep <+: x :: l then occurrencesFrom sep (sep.length - 1) l + 1 else occurrencesFrom sep 0 l

def occurrences (sep l : List α) : Nat := occurrencesFrom sep 0 l

/-- The pieces between the occurrences; `acc` is what the scan has seen of the first one. -/
@[grind =] def splitFrom (sep : List α) : Nat → List α → List α → List (List α)
  | _, acc, [] => [acc]
  | skip + 1, acc, _ :: l => splitFrom sep skip acc l
  | 0, acc, x :: l =>
    if sep <+: x :: l then acc :: splitFrom sep (sep.length - 1) [] l else splitFrom sep 0 (acc ++ [x]) l

theorem splitFrom_length (sep : List α) (skip : Nat) (acc l : List α) :
    (splitFrom sep skip acc l).length = occurrencesFrom sep skip l + 1 := by
  induction skip, acc, l using splitFrom.induct sep with
  | case1 => rfl
  | case2 skip acc x l ih => rw [splitFrom, occurrencesFrom, ih]
  | case3 acc x l h ih => rw [splitFrom, occurrencesFrom, if_pos h, if_pos h, List.length_cons, ih]
  | case4 acc x l h ih => rw [splitFrom, occurrencesFrom, if_neg h, if_neg h, ih]

theorem splitFrom_ne_nil (sep : List α) (skip : Nat) (acc l : List α) : splitFrom sep skip acc l ≠ [] := by
  apply List.ne_nil_of_length_pos
  rw [splitFrom_length]
  omega

theorem splitFrom_skip (sep : List α) (skip : Nat) (acc l : List α) :
    splitFrom sep skip acc l = splitFrom sep 0 acc (l.drop skip) := by
  induction skip generalizing l with
  | zero => rfl
  | succ skip ih =>
    cases l with
    | nil => rfl
    | cons x l => rw [splitFrom, ih, List.drop_succ_cons]

theorem splitFrom_of_present (hsep : sep ≠ []) (h : sep <+: l) (acc : List α) :
    splitFrom sep 0 acc l = acc :: splitFrom sep 0 [] (l.drop sep.length) := by
  have hpos := List.length_pos_iff.mpr hsep
  cases l with
  | nil => exact absurd (List.prefix_nil.mp h) hsep
  | cons x l =>
    obtain ⟨n, hn⟩ := Nat.exists_eq_add_of_lt hpos
    rw [Nat.zero_add] at hn
    rw [splitFrom, if_pos h, splitFrom_skip, hn, Nat.add_sub_cancel, List.drop_succ_cons]

theorem splitFrom_of_absent (h : ¬ sep <+: x :: l) (acc : List α) :
    splitFrom sep 0 acc (x :: l) = splitFrom sep 0 (acc ++ [x]) l := by
  rw [splitFrom, if_neg h]

theorem splitFrom_of_short (h : l.length < sep.length) (acc : List α) : splitFrom sep 0 acc l = [acc ++ l] := by
  induction l generalizing acc with
  | nil => rw [List.append_nil, splitFrom]
  | cons x l ih =>
    have hnot : ¬ sep <+: x :: l := fun hp => absurd hp.length_le (Nat.not_le_of_gt h)
    rw [splitFrom_of_absent hnot, ih (Nat.lt_of_succ_lt h), List.append_assoc, List.singleton_append]

theorem intercalate_splitFrom (hsep : sep ≠ []) (skip : Nat) (acc l : List α) :
    sep.intercalate (splitFrom sep skip acc l) = acc ++ l.drop skip := by
  have hpos := List.length_pos_iff.mpr hsep
  induction skip, acc, l using splitFrom.induct sep with
  | case1 => rw [splitFrom, List.intercalate_singleton, List.drop_nil, List.append_nil]
  | case2 skip acc x l ih => rw [splitFrom, ih, List.drop_succ_cons]
  | case3 acc x l h ih =>
    obtain ⟨rest, hrest⟩ := h
    have hdrop : l.drop (sep.length - 1) = rest := by
      rw [← List.drop_succ_cons (a := x), Nat.sub_add_cancel hpos, ← hrest, List.drop_left]
    rw [splitFrom, if_pos ⟨rest, hrest⟩, List.intercalate_cons_of_ne_nil (splitFrom_ne_nil _ _ _ _), ih, hdrop,
      List.nil_append, List.append_assoc, hrest, List.drop_zero]
  | case4 acc x l h ih =>
    rw [splitFrom, if_neg h, ih, List.drop_zero, List.append_assoc, List.singleton_append, List.drop_zero]

theorem splitFrom_sep_free (hsep : sep ≠ []) (h : Clear sep acc (l.drop skip)) :
    ∀ p ∈ splitFrom sep skip acc l, ¬ sep <:+: p := by
  induction skip, acc, l using splitFrom.induct sep with
  | case1 skip acc =>
    intro p hp
    rw [splitFrom, List.mem_singleton] at hp
    rw [hp]
    exact h.sep_free hsep
  | case2 skip acc x l ih =>
    rw [splitFrom]
    exact ih h
  | case3 acc x l hp ih =>
    rw [splitFrom, if_pos hp]
    intro p hp
    rcases List.mem_cons.mp hp with rfl | hp
    · exact h.sep_free hsep
    · exact ih (fun i hi => absurd hi (Nat.not_lt_zero i)) p hp
  | case4 acc x l hp ih =>
    rw [splitFrom, if_neg hp]
    exact ih (h.cons hp)

theorem sublist_of_mem_splitFrom (hsep : sep ≠ []) {p : List α} (hp : p ∈ splitFrom sep 0 [] l) : p.Sublist l := by
  have hsub := sublist_intercalate sep hp
  rwa [intercalate_splitFrom hsep, List.nil_append, List.drop_zero] at hsub

end Split
