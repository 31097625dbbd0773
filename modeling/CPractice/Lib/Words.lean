import Mathlib.Data.List.Basic

/-! A text as words with a separator behind each of them. -/

namespace Words

variable {α : Type} {sep : α}

def ended (sep : α) (words : List (List α)) : List α := words.flatMap fun w => w ++ [sep]

theorem ended_append (words words' : List (List α)) : ended sep (words ++ words') = ended sep words ++ ended sep words' :=
  List.flatMap_append

theorem ended_cons (w : List α) (words : List (List α)) : ended sep (w :: words) = w ++ sep :: ended sep words := by
  rw [ended, List.flatMap_cons, List.append_assoc]
  rfl

variable [BEq α] [LawfulBEq α]

theorem ended_splitOn (text : List α) : ended sep (text.splitOn sep) = text ++ [sep] := by
  induction text with
  | nil => rfl
  | cons c text ih =>
    obtain ⟨w, ws, hws⟩ := List.exists_cons_of_ne_nil (List.splitOn_ne_nil sep text)
    rw [List.splitOn_cons_eq_if_modifyHead]
    rw [hws] at ih ⊢
    split
    case isTrue hc =>
      rw [eq_of_beq hc, List.cons_append, ← ih]
      rfl
    case isFalse =>
      rw [List.modifyHead_cons, List.cons_append, ← ih]
      rfl

omit [LawfulBEq α] in
theorem length_splitOn (text : List α) : (text.splitOn sep).length = text.count sep + 1 := by
  induction text with
  | nil => rfl
  | cons c text ih =>
    rw [List.splitOn_cons_eq_if_modifyHead, List.count_cons]
    split
    · rw [List.length_cons, ih]
    · rw [List.length_modifyHead, ih, Nat.add_zero]

theorem mem_splitOn {text w : List α} (hw : w ∈ text.splitOn sep) : sep ∉ w ∧ ∀ c ∈ w, c ∈ text := by
  induction text generalizing w with
  | nil =>
    rw [List.splitOn_nil, List.mem_singleton] at hw
    subst hw
    simp
  | cons c text ih =>
    obtain ⟨v, vs, hvs⟩ := List.exists_cons_of_ne_nil (List.splitOn_ne_nil sep text)
    rw [List.splitOn_cons_eq_if_modifyHead] at hw
    rw [hvs] at hw ih
    have hrest : ∀ u ∈ v :: vs, sep ∉ u ∧ ∀ b ∈ u, b ∈ c :: text := by
      intro u hu
      obtain ⟨hsep, hmem⟩ := ih hu
      exact ⟨hsep, fun b hb => List.mem_cons_of_mem _ (hmem b hb)⟩
    split at hw
    case isTrue hc =>
      rcases List.mem_cons.mp hw with rfl | hw
      · simp
      · exact hrest w hw
    case isFalse hc =>
      rw [List.modifyHead_cons] at hw
      rcases List.mem_cons.mp hw with rfl | hw
      · obtain ⟨hsep, hmem⟩ := hrest v List.mem_cons_self
        have hne : sep ≠ c := by
          rintro rfl
          exact hc (beq_self_eq_true sep)
        refine ⟨by simp [hne, hsep], ?_⟩
        intro b hb
        rcases List.mem_cons.mp hb with rfl | hb
        · exact List.mem_cons_self
        · exact hmem b hb
      · exact hrest w (List.mem_cons_of_mem _ hw)

end Words
