import Mathlib.Logic.Relation

/-! Runs of a transition function with labelled steps, some of which may be ruled out. -/

namespace Reach

variable {S A : Type}

def Step (step : S → A → Option S) (allowed : S → A → Prop) (s s' : S) : Prop :=
  ∃ a, allowed s a ∧ step s a = some s'

abbrev Runs (step : S → A → Option S) (allowed : S → A → Prop) : S → S → Prop :=
  Relation.ReflTransGen (Step step allowed)

def run (step : S → A → Option S) : List A → S → Option S
  | [], s => some s
  | a :: as, s => (step s a).bind (run step as)

def Allows (step : S → A → Option S) (allowed : S → A → Prop) : List A → S → Prop
  | [], _ => True
  | a :: as, s => allowed s a ∧ match step s a with
    | some s' => Allows step allowed as s'
    | none => True

instance Allows.decidable (step : S → A → Option S) (allowed : S → A → Prop)
    [∀ s a, Decidable (allowed s a)] : ∀ (as : List A) (s : S), Decidable (Allows step allowed as s)
  | [], _ => .isTrue trivial
  | a :: as, s => @instDecidableAnd _ _ _ <| match step s a with
    | some s' => Allows.decidable step allowed as s'
    | none => .isTrue trivial

variable {step : S → A → Option S} {allowed : S → A → Prop} {s s' : S}

/-- What holds at the start and is kept by every allowed step holds along every run. -/
theorem Runs.invariant (Inv : S → Prop) (h : Runs step allowed s s') (hs : Inv s)
    (hstep : ∀ s a s', Inv s → allowed s a → step s a = some s' → Inv s') : Inv s' := by
  induction h with
  | refl => exact hs
  | tail _ hlast ih =>
    obtain ⟨a, ha, he⟩ := hlast
    exact hstep _ a _ ih ha he

theorem runs_of_run {as : List A} (hall : Allows step allowed as s) (h : run step as s = some s') :
    Runs step allowed s s' := by
  induction as generalizing s with
  | nil =>
    cases h
    exact .refl
  | cons a as ih =>
    obtain ⟨s₁, he, hrest⟩ := Option.bind_eq_some_iff.mp h
    obtain ⟨ha, has⟩ := hall
    rw [he] at has
    exact .head ⟨a, ha, he⟩ (ih has hrest)

theorem run_append (as bs : List A) (s : S) : run step (as ++ bs) s = (run step as s).bind (run step bs) := by
  induction as generalizing s with
  | nil => rfl
  | cons a as ih =>
    rw [List.cons_append, run, run, Option.bind_assoc]
    exact congrArg _ (funext ih)

theorem runs_of_run_any {as : List A} (h : run step as s = some s') : Runs step (fun _ _ => True) s s' := by
  refine runs_of_run ?_ h
  clear h
  induction as generalizing s with
  | nil => trivial
  | cons a as ih =>
    refine ⟨trivial, ?_⟩
    cases step s a with
    | none => trivial
    | some s₁ => exact ih

/-- An invariant under which every step does one piece of work leaves no endless run. -/
theorem run_work (Inv : S → Prop) (work : S → Nat)
    (hstep : ∀ s a s', Inv s → step s a = some s' → Inv s' ∧ work s' + 1 = work s) {as : List A} (hs : Inv s)
    (h : run step as s = some s') : Inv s' ∧ work s' + as.length = work s := by
  induction as generalizing s with
  | nil =>
    cases h
    exact ⟨hs, rfl⟩
  | cons a as ih =>
    obtain ⟨s₁, he, hrest⟩ := Option.bind_eq_some_iff.mp h
    obtain ⟨hs₁, hwork⟩ := hstep s a s₁ hs he
    obtain ⟨hs', hwork'⟩ := ih hs₁ hrest
    refine ⟨hs', ?_⟩
    rw [List.length_cons]
    omega

/-- The same for some of the actions, if each of them does at least one piece. -/
theorem run_bounded (Inv : S → Prop) (acts : A → Prop) (work : S → Nat)
    (hstep : ∀ s a s', Inv s → acts a → step s a = some s' → Inv s' ∧ work s' < work s) {as : List A}
    (has : ∀ a ∈ as, acts a) (hs : Inv s) (h : run step as s = some s') : Inv s' ∧ as.length + work s' ≤ work s := by
  induction as generalizing s with
  | nil =>
    cases h
    exact ⟨hs, by simp⟩
  | cons a as ih =>
    obtain ⟨s₁, he, hrest⟩ := Option.bind_eq_some_iff.mp h
    obtain ⟨hs₁, hwork⟩ := hstep s a s₁ hs (has a List.mem_cons_self) he
    obtain ⟨hs', hwork'⟩ := ih (fun b hb => has b (List.mem_cons_of_mem _ hb)) hs₁ hrest
    refine ⟨hs', ?_⟩
    rw [List.length_cons]
    omega

section Cycle

variable {β : Type} {R : S → S → Prop} (lt : β → β → Prop) (f : S → β)

theorem lt_of_transGen (htrans : ∀ x y z, lt x y → lt y z → lt x z)
    (hlt : ∀ a b c, R a b → R b c → lt (f b) (f a)) {a b c : S} (h : Relation.TransGen R a b) (hbc : R b c) :
    lt (f b) (f a) := by
  induction h generalizing c with
  | single hab => exact hlt _ _ _ hab hbc
  | tail _ hlast ih => exact htrans _ _ _ (hlt _ _ _ hlast hbc) (ih hlast)

/-- A value that falls along every two steps in a row leaves no cycle. -/
theorem no_cycle (htrans : ∀ x y z, lt x y → lt y z → lt x z) (hirrefl : ∀ x, ¬ lt x x)
    (hlt : ∀ a b c, R a b → R b c → lt (f b) (f a)) (a : S) : ¬ Relation.TransGen R a a := by
  intro h
  obtain ⟨b, hab, -⟩ := Relation.TransGen.head'_iff.mp h
  exact hirrefl (f a) (lt_of_transGen lt f htrans hlt h hab)

end Cycle

end Reach
