import Mathlib.Data.List.DropRight

/-! Removing the longest prefix and the longest suffix that consist of given elements. -/

namespace Trim

variable {α : Type} {p q : α → Bool} {l pre mid post : List α}

def trim (p : α → Bool) (l : List α) : List α := (l.dropWhile p).rdropWhile p

def Tight (p : α → Bool) (l : List α) : Prop := (∀ x ∈ l.head?, p x = false) ∧ ∀ x ∈ l.getLast?, p x = false

theorem head?_dropWhile (p : α → Bool) (l : List α) : ∀ x ∈ (l.dropWhile p).head?, p x = false := by
  intro x hx
  have h := List.head?_dropWhile_not p l
  rw [Option.mem_def.mp hx] at h
  exact h

theorem trim_tight (p : α → Bool) (l : List α) : Tight p (trim p l) := by
  constructor
  · intro x hx
    obtain ⟨post, hpost⟩ := List.rdropWhile_prefix p (l.dropWhile p)
    have hhead : x ∈ (l.dropWhile p).head? := by
      rw [← hpost, List.head?_append]
      rw [trim] at hx
      rw [Option.mem_def.mp hx]
      rfl
    exact head?_dropWhile p l x hhead
  · intro x hx
    have hne : trim p l ≠ [] := by
      intro hnil
      simp [hnil] at hx
    have hlast : x = (trim p l).getLast hne := by
      rw [List.getLast?_eq_some_getLast hne] at hx
      exact (Option.some.inj hx).symm
    rw [hlast]
    exact Bool.eq_false_iff.mpr (List.rdropWhile_last_not p (l.dropWhile p) hne)

theorem trim_split (p : α → Bool) (l : List α) :
    ∃ pre post, l = pre ++ (trim p l ++ post) ∧ (∀ x ∈ pre, p x = true) ∧ ∀ x ∈ post, p x = true := by
  refine ⟨l.takeWhile p, (l.dropWhile p).rtakeWhile p, ?_, ?_, ?_⟩
  · rw [trim, List.rdropWhile_append_rtakeWhile, List.takeWhile_append_dropWhile]
  · exact fun x hx => List.mem_takeWhile_imp hx
  · exact fun x hx => List.mem_rtakeWhile_imp hx

theorem rdropWhile_append_all (h : ∀ x ∈ post, p x = true) : (mid ++ post).rdropWhile p = mid.rdropWhile p := by
  rw [List.rdropWhile, List.reverse_append, List.dropWhile_append_of_pos (by simpa using h)]
  rfl

theorem trim_eq (hpre : ∀ x ∈ pre, p x = true) (hpost : ∀ x ∈ post, p x = true) (hmid : Tight p mid) :
    trim p (pre ++ (mid ++ post)) = mid := by
  rw [trim, List.dropWhile_append_of_pos hpre]
  cases mid with
  | nil =>
    rw [List.nil_append, List.dropWhile_eq_nil_iff.mpr hpost]
    rfl
  | cons x mid =>
    have hx : ¬ p x = true := by simp [hmid.1 x rfl]
    rw [List.cons_append, List.dropWhile_cons_of_neg hx, ← List.cons_append, rdropWhile_append_all hpost,
      List.rdropWhile_eq_self_iff]
    intro hne
    simp [hmid.2 _ (List.getLast?_eq_some_getLast hne)]

/-- A larger set trims the same when what the smaller one leaves is tight for it. -/
theorem trim_eq_trim_iff (hpq : ∀ x, p x = true → q x = true) : trim q l = trim p l ↔ Tight q (trim p l) := by
  constructor
  · intro h
    rw [← h]
    exact trim_tight q l
  · intro h
    obtain ⟨pre, post, hl, hpre, hpost⟩ := trim_split p l
    conv_lhs => rw [hl]
    exact trim_eq (fun x hx => hpq x (hpre x hx)) (fun x hx => hpq x (hpost x hx)) h

end Trim
