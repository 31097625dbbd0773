import Mathlib.Data.List.Basic

/-! Histories of a run, newest entry first. -/

namespace History

variable {α : Type}

/-- Every entry satisfies `P` together with the entries before it. -/
def Each (P : List α → α → Prop) : List α → Prop
  | [] => True
  | o :: older => P older o ∧ Each P older

theorem each_iff {P : List α → α → Prop} {τ : List α} :
    Each P τ ↔ ∀ newer o older, τ = newer ++ o :: older → P older o := by
  induction τ with
  | nil => simp [Each]
  | cons x τ ih =>
    constructor
    · rintro ⟨hx, hτ⟩ newer o older he
      cases newer with
      | nil =>
        cases he
        exact hx
      | cons y newer => exact ih.mp hτ newer o older (List.cons.inj he).2
    · intro hall
      refine ⟨hall [] x τ rfl, ih.mpr fun newer o older he => ?_⟩
      exact hall (x :: newer) o older (by rw [he]; rfl)

theorem filterMap_append_of_none {β : Type} {f : α → Option β} {τ τ' : List α}
    (h : ∀ o ∈ τ, f o = none) : (τ ++ τ').filterMap f = τ'.filterMap f := by
  rw [List.filterMap_append, List.filterMap_eq_nil_iff.mpr h, List.nil_append]

end History
