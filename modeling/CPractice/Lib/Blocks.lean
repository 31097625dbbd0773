import Mathlib.Algebra.Group.Defs
import Mathlib.Data.List.Basic

/-! A list cut into consecutive blocks, and a sum taken block by block. -/

namespace Blocks

variable {α : Type}

def slice (l : List α) (first last : Nat) : List α := (l.take last).drop first

/-- Each block starts where the one before it ends. -/
def Consecutive (first : Nat) : List (Nat × Nat) → Nat → Prop
  | [], last => first = last
  | b :: bs, last => b.1 = first ∧ first ≤ b.2 ∧ Consecutive b.2 bs last

theorem Consecutive.append {first mid last : Nat} {bs : List (Nat × Nat)} (h : Consecutive first bs mid)
    (hle : mid ≤ last) : Consecutive first (bs ++ [(mid, last)]) last := by
  induction bs generalizing first with
  | nil =>
    have hfirst : first = mid := h
    subst hfirst
    exact ⟨rfl, hle, rfl⟩
  | cons b bs ih =>
    obtain ⟨hb, hle', hbs⟩ := h
    exact ⟨hb, hle', ih hbs⟩

theorem Consecutive.le {first last : Nat} {bs : List (Nat × Nat)} (h : Consecutive first bs last) :
    first ≤ last := by
  induction bs generalizing first with
  | nil => exact Nat.le_of_eq h
  | cons b bs ih =>
    obtain ⟨-, hle, hbs⟩ := h
    exact Nat.le_trans hle (ih hbs)

theorem Consecutive.mem_le {first last : Nat} {bs : List (Nat × Nat)} (h : Consecutive first bs last)
    {b : Nat × Nat} (hb : b ∈ bs) : b.1 ≤ b.2 ∧ b.2 ≤ last := by
  induction bs generalizing first with
  | nil => cases hb
  | cons b' bs ih =>
    obtain ⟨rfl, hle, hbs⟩ := h
    rcases List.mem_cons.mp hb with rfl | hb
    · exact ⟨hle, hbs.le⟩
    · exact ih hbs hb

theorem slice_append (l : List α) {a b c : Nat} (hab : a ≤ b) (hbc : b ≤ c) :
    slice l a b ++ slice l b c = slice l a c := by
  simp only [slice, List.drop_take]
  obtain ⟨d, rfl⟩ := Nat.exists_eq_add_of_le hab
  obtain ⟨e, rfl⟩ := Nat.exists_eq_add_of_le hbc
  rw [Nat.add_sub_cancel_left, Nat.add_sub_cancel_left, Nat.add_assoc, Nat.add_sub_cancel_left, List.take_add,
    List.drop_drop]

theorem slice_all (l : List α) : slice l 0 l.length = l := by
  simp [slice]

theorem slice_range {n a b : Nat} (h : b ≤ n) : slice (List.range n) a b = List.range' a (b - a) := by
  rw [slice, List.take_range, Nat.min_eq_left h, List.range_eq_range', List.drop_range']
  simp

/-- Consecutive blocks leave nothing out and take nothing twice. -/
theorem flatten_slices (l : List α) {first last : Nat} {bs : List (Nat × Nat)} (h : Consecutive first bs last) :
    (bs.map fun b => slice l b.1 b.2).flatten = slice l first last := by
  induction bs generalizing first with
  | nil =>
    have hfirst : first = last := h
    subst hfirst
    simp [slice, List.drop_take]
  | cons b bs ih =>
    obtain ⟨rfl, hle, hbs⟩ := h
    rw [List.map_cons, List.flatten_cons, ih hbs, slice_append l hle hbs.le]

theorem flatten_range {n : Nat} {bs : List (Nat × Nat)} (h : Consecutive 0 bs n) :
    bs.flatMap (fun b => List.range' b.1 (b.2 - b.1)) = List.range n := by
  have hslices := flatten_slices (List.range n) h
  have hall := slice_all (List.range n)
  rw [List.length_range] at hall
  rw [hall] at hslices
  rw [← hslices, List.flatMap]
  congr 1
  apply List.map_congr_left
  intro b hb
  exact (slice_range (h.mem_le hb).2).symm

section Sum

variable {T : Type} [AddMonoid T]

def sum (l : List T) : T := l.foldl (· + ·) 0

theorem foldl_eq_add_sum (l : List T) (init : T) : l.foldl (· + ·) init = init + sum l := by
  unfold sum
  induction l generalizing init with
  | nil => exact (add_zero init).symm
  | cons a l ih => rw [List.foldl_cons, List.foldl_cons, zero_add, ih, ih a, add_assoc]

/-- The blocks may be summed on their own, each from zero. -/
theorem foldl_sums (blocks : List (List T)) (init : T) :
    (blocks.map sum).foldl (· + ·) init = blocks.flatten.foldl (· + ·) init := by
  induction blocks generalizing init with
  | nil => rfl
  | cons b blocks ih => rw [List.map_cons, List.foldl_cons, List.flatten_cons, List.foldl_append, foldl_eq_add_sum b, ih]

end Sum

end Blocks
