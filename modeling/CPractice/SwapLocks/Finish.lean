import CPractice.SwapLocks.Exclusion
import Mathlib.Algebra.Order.BigOperators.Group.Finset
import Mathlib.Data.Fintype.Basic
import Mathlib.Data.Set.Finite.Basic

/-! Which programs of `mswap` can always finish. -/

namespace CPractice

namespace SwapLocks

variable {T M : Type}

/-- The call of a thread that locks its two mutexes one after the other. -/
def Call.Separate (c : Call M) : Prop := c.use_stdlock = false ∧ 0 < c.count ∧ c.lhs ≠ c.rhs

/-- Each of the threads locks second what one of them locks first. -/
def Conflict (calls : T → Call M) : Prop :=
  ∃ D : Finset T, D.Nonempty ∧ ∀ t ∈ D, (calls t).Separate ∧ ∃ u ∈ D, (calls t).rhs = (calls u).lhs

namespace Swaps

variable [DecidableEq T] [DecidableEq M] {calls : T → Call M} {s s' : Swaps T M} {t : T}

section Turn

/-- A thread has ended its turn, and no other one has moved. -/
def EndsTurn (calls : T → Call M) (s : Swaps T M) (t : T) : Prop :=
  ∃ s', SwapRuns calls s s' ∧ s'.point = Function.update s.point t .loop ∧
    s'.left = Function.update s.left t (s.left t - 1)

theorem endsTurn_of_step {s₁ : Swaps T M} {choice : Bool} {p : Point M} (he : step calls s (t, choice) = some s₁)
    (hpoint : s₁.point = Function.update s.point t p) (hleft : s₁.left = s.left) (h : EndsTurn calls s₁ t) :
    EndsTurn calls s t := by
  obtain ⟨s', hruns, hpoint', hleft'⟩ := h
  refine ⟨s', .head ⟨(t, choice), trivial, he⟩ hruns, ?_, ?_⟩
  · rw [hpoint', hpoint, Function.update_idem]
  · rw [hleft', hleft]

theorem endsTurn_unlock_a (hp : s.point t = .unlock_a) : EndsTurn calls s t :=
  ⟨((s.release (calls t).lhs).turn t).goto t .loop, .single ⟨(t, true), trivial, by simp [step, hp]⟩, rfl, rfl⟩

theorem endsTurn_unlock_b (hp : s.point t = .unlock_b) : EndsTurn calls s t := by
  have he : step calls s (t, true) = some ((s.release (calls t).rhs).goto t .unlock_a) := by simp [step, hp]
  exact endsTurn_of_step he rfl rfl (endsTurn_unlock_a (Function.update_self _ _ _))

theorem endsTurn_swapping (hp : s.point t = .swapping) : EndsTurn calls s t := by
  have he : step calls s (t, true) =
    some { s.goto t .unlock_b with printed := s.printed ++ [t] } := by simp [step, hp]
  exact endsTurn_of_step he rfl rfl (endsTurn_unlock_b (Function.update_self _ _ _))

theorem endsTurn_second (hp : s.point t = .second) (hfree : s.owner (calls t).rhs = none) : EndsTurn calls s t := by
  have he : step calls s (t, true) = some ((s.take t (calls t).rhs).goto t .swapping) := by simp [step, hp, hfree]
  exact endsTurn_of_step he rfl rfl (endsTurn_swapping (Function.update_self _ _ _))

theorem endsTurn_trying {first second : M} (hp : s.point t = .trying first second) (hfree : s.owner second = none) :
    EndsTurn calls s t := by
  have he : step calls s (t, true) = some ((s.take t second).goto t .swapping) := by simp [step, hp, hfree]
  exact endsTurn_of_step he rfl rfl (endsTurn_swapping (Function.update_self _ _ _))

theorem endsTurn_locking {first second : M} (hp : s.point t = .locking first second)
    (hbegins : Begins (calls t) (.locking first second)) (hne : (calls t).lhs ≠ (calls t).rhs)
    (hfree : ∀ m, s.owner m = none) : EndsTurn calls s t := by
  have he : step calls s (t, true) =
      some ((s.take t first).goto t (if (calls t).use_stdlock then .trying first second else .second)) := by
    simp [step, hp, hfree]
  refine endsTurn_of_step he rfl rfl ?_
  have hother : ∀ m, m ≠ first → (s.take t first).owner m = none := by
    intro m hm
    exact (Function.update_of_ne hm _ _).trans (hfree m)
  by_cases hstd : (calls t).use_stdlock = true
  · rw [if_pos hstd]
    have hsecond : second ≠ first := by
      rcases hbegins with hb | ⟨-, hb⟩
      · cases hb
        exact hne.symm
      · cases hb
        exact hne
    exact endsTurn_trying (Function.update_self _ _ _) (hother second hsecond)
  · rw [if_neg hstd]
    have hfirst : first = (calls t).lhs := by
      rcases hbegins with hb | ⟨hstd', -⟩
      · cases hb
        rfl
      · exact absurd hstd' hstd
    exact endsTurn_second (Function.update_self _ _ _) (hother _ (hfirst ▸ hne.symm))

theorem endsTurn_loop (hp : s.point t = .loop) (hleft : s.left t ≠ 0) (hfree : ∀ m, s.owner m = none) :
    EndsTurn calls s t := by
  by_cases heq : (calls t).lhs = (calls t).rhs
  · refine ⟨s.turn t, .single ⟨(t, true), trivial, by simp [step, hp, hleft, heq]⟩, ?_, rfl⟩
    rw [← hp, Function.update_eq_self]
    rfl
  · have he : step calls s (t, true) = some (s.goto t (.locking (calls t).lhs (calls t).rhs)) := by
      simp [step, hp, hleft, heq, attempt]
    exact endsTurn_of_step he rfl rfl (endsTurn_locking (Function.update_self _ _ _) (.inl rfl) heq hfree)

end Turn

section Progress

def Point.retries : Point M → Nat
  | .trying _ _ => 2
  | .backing _ => 1
  | _ => 0

def weight (s : Swaps T M) (t : T) : Nat := 3 * s.left t + Point.retries (s.point t)

variable [Fintype T]

omit [DecidableEq T] [DecidableEq M] in
theorem weight_lt (hother : ∀ u, u ≠ t → s'.point u = s.point u ∧ s'.left u = s.left u)
    (hlt : s'.weight t < s.weight t) :
    ∑ u, s'.weight u < ∑ u, s.weight u := by
  refine Finset.sum_lt_sum (fun u _ => ?_) ⟨t, Finset.mem_univ t, hlt⟩
  by_cases hu : u = t
  · rw [hu]
    exact Nat.le_of_lt hlt
  · rw [weight, weight, (hother u hu).1, (hother u hu).2]

theorem EndsTurn.weight_lt (h : EndsTurn calls s t) (hleft : s.left t ≠ 0) :
    ∃ s', SwapRuns calls s s' ∧ ∑ u, s'.weight u < ∑ u, s.weight u := by
  obtain ⟨s', hruns, hpoint, hleft'⟩ := h
  refine ⟨s', hruns, Swaps.weight_lt (t := t) (fun u hu => ?_) ?_⟩
  · rw [hpoint, hleft', Function.update_of_ne hu, Function.update_of_ne hu]
    exact ⟨rfl, rfl⟩
  · rw [weight, hpoint, hleft', Function.update_self, Function.update_self, Point.retries, weight]
    · omega
    all_goals simp

/-- A thread of `std::lock` that is no further can give back what it holds. -/
theorem back_off (h : 0 < Point.retries (s.point t)) :
    ∃ s', SwapRuns calls s s' ∧ ∑ u, s'.weight u < ∑ u, s.weight u := by
  cases hp : s.point t with
  | trying first second =>
    refine ⟨s.goto t (.backing first), .single ⟨(t, false), trivial, by simp [step, hp]⟩,
      Swaps.weight_lt (t := t) (fun u hu => ⟨Function.update_of_ne hu _ _, rfl⟩) ?_⟩
    have hpoint : (s.goto t (.backing first)).point t = .backing first := Function.update_self _ _ _
    rw [weight, weight, hpoint, hp]
    exact Nat.lt_succ_self _
  | backing first =>
    refine ⟨(s.release first).goto t (.locking (calls t).lhs (calls t).rhs),
      .single ⟨(t, true), trivial, by simp [step, hp, attempt]⟩,
      Swaps.weight_lt (t := t) (fun u hu => ⟨Function.update_of_ne hu _ _, rfl⟩) ?_⟩
    have hpoint : ((s.release first).goto t (.locking (calls t).lhs (calls t).rhs)).point t =
        .locking (calls t).lhs (calls t).rhs := Function.update_self _ _ _
    rw [weight, weight, hpoint, hp]
    exact Nat.lt_succ_self _
  | _ =>
    rw [hp] at h
    exact absurd h (Nat.lt_irrefl 0)

theorem progress (hinv : s.Inv calls) (hno : ¬ Conflict calls) (hs : ¬ s.Finished) :
    ∃ s', SwapRuns calls s s' ∧ ∑ u, s'.weight u < ∑ u, s.weight u := by
  have hbusy : ∀ t, s.point t ≠ .loop → s.left t ≠ 0 := fun t ht => ((hinv.place t).busy ht).1
  by_cases hboth : ∃ t, s.point t = .swapping ∨ s.point t = .unlock_b ∨ s.point t = .unlock_a
  · obtain ⟨t, hp⟩ := hboth
    have hleft : s.left t ≠ 0 := hbusy t (by rcases hp with hp | hp | hp <;> simp [hp])
    rcases hp with hp | hp | hp
    · exact (endsTurn_swapping hp).weight_lt hleft
    · exact (endsTurn_unlock_b hp).weight_lt hleft
    · exact (endsTurn_unlock_a hp).weight_lt hleft
  by_cases hretry : ∃ t, 0 < Point.retries (s.point t)
  · obtain ⟨t, ht⟩ := hretry
    exact back_off ht
  have hholds : ∀ m t, s.owner m = some t → s.point t = .second ∧ m = (calls t).lhs := by
    intro m t hm
    have hmem := (hinv.owner m t).mp hm
    cases hp : s.point t with
    | loop | locking =>
      rw [hp] at hmem
      exact absurd hmem List.not_mem_nil
    | trying | backing => exact absurd ⟨t, by rw [hp]; exact Nat.succ_pos _⟩ hretry
    | second =>
      rw [hp] at hmem
      exact ⟨rfl, List.mem_singleton.mp hmem⟩
    | swapping => exact absurd ⟨t, .inl hp⟩ hboth
    | unlock_b => exact absurd ⟨t, .inr (.inl hp)⟩ hboth
    | unlock_a => exact absurd ⟨t, .inr (.inr hp)⟩ hboth
  by_cases hsecond : ∃ t, s.point t = .second
  · by_cases hfree : ∃ t, s.point t = .second ∧ s.owner (calls t).rhs = none
    · obtain ⟨t, hp, hfree⟩ := hfree
      exact (endsTurn_second hp hfree).weight_lt (hbusy t (by simp [hp]))
    · refine absurd ⟨Finset.univ.filter fun t => s.point t = .second, ?_, fun t ht => ?_⟩ hno
      · obtain ⟨t, hp⟩ := hsecond
        exact ⟨t, Finset.mem_filter.mpr ⟨Finset.mem_univ t, hp⟩⟩
      · have hp := (Finset.mem_filter.mp ht).2
        obtain ⟨hleft, hne⟩ := (hinv.place t).busy (by simp [hp])
        have hshape := (hinv.place t).shape
        rw [hp] at hshape
        have hle := hinv.left_le t
        refine ⟨⟨hshape, by omega, hne⟩, ?_⟩
        obtain ⟨u, hu⟩ := Option.ne_none_iff_exists'.mp fun hnone => hfree ⟨t, hp, hnone⟩
        obtain ⟨hpu, hlhs⟩ := hholds _ u hu
        exact ⟨u, Finset.mem_filter.mpr ⟨Finset.mem_univ u, hpu⟩, hlhs⟩
  · have hfree : ∀ m, s.owner m = none := by
      intro m
      rw [Option.eq_none_iff_forall_ne_some]
      intro t hm
      exact hsecond ⟨t, (hholds m t hm).1⟩
    obtain ⟨t, ht⟩ := not_forall.mp hs
    cases hp : s.point t with
    | loop =>
      have hleft : s.left t ≠ 0 := fun hleft => ht ⟨hp, hleft⟩
      exact (endsTurn_loop hp hleft hfree).weight_lt hleft
    | locking first second =>
      obtain ⟨hleft, hne⟩ := (hinv.place t).busy (by simp [hp])
      have hshape := (hinv.place t).shape
      rw [hp] at hshape
      exact (endsTurn_locking hp hshape hne hfree).weight_lt hleft
    | trying | backing => exact absurd ⟨t, by rw [hp]; exact Nat.succ_pos _⟩ hretry
    | second => exact absurd ⟨t, hp⟩ hsecond
    | swapping => exact absurd ⟨t, .inl hp⟩ hboth
    | unlock_b => exact absurd ⟨t, .inr (.inl hp)⟩ hboth
    | unlock_a => exact absurd ⟨t, .inr (.inr hp)⟩ hboth

theorem can_finish (hinv : s.Inv calls) (hno : ¬ Conflict calls) : ∃ s', SwapRuns calls s s' ∧ s'.Finished := by
  induction hn : ∑ u, s.weight u using Nat.strongRecOn generalizing s with
  | ind n ih =>
    by_cases hs : s.Finished
    · exact ⟨s, .refl, hs⟩
    · obtain ⟨s₁, hruns, hlt⟩ := progress hinv hno hs
      have hinv₁ : s₁.Inv calls := hruns.invariant (Inv calls) hinv fun _ _ _ hi _ he => step_inv hi he
      obtain ⟨s', hruns', hs'⟩ := ih _ (hn ▸ hlt) hinv₁ rfl
      exact ⟨s', hruns.trans hruns', hs'⟩

end Progress

section Stuck

/-- The threads of `R` wait for each other. -/
def Stuck (calls : T → Call M) (R : Finset T) (s : Swaps T M) : Prop :=
  ∀ t ∈ R, s.point t = .second ∧ ∃ u ∈ R, s.owner (calls t).rhs = some u

variable {R : Finset T}

theorem step_point {choice : Bool} (he : step calls s (t, choice) = some s') {u : T} (hu : u ≠ t) :
    s'.point u = s.point u := by
  rcases step_cases he with ⟨-, -, -, rfl⟩ | ⟨p, -, -, -, -, rfl⟩ | ⟨first, second, -, -, rfl⟩ |
    ⟨first, second, -, -, rfl⟩ | ⟨first, second, -, rfl⟩ | ⟨first, p, -, -, rfl⟩ | ⟨-, -, rfl⟩ | ⟨-, rfl⟩ |
    ⟨-, rfl⟩ | ⟨-, rfl⟩
  · rfl
  all_goals exact Function.update_of_ne hu _ _

theorem step_stuck {choice : Bool} (hinv : s.Inv calls) (h : Stuck calls R s)
    (he : step calls s (t, choice) = some s') :
    Stuck calls R s' := by
  have ht : ∀ v ∈ R, v ≠ t := by
    rintro v hv rfl
    obtain ⟨hp, u, -, hu⟩ := h v hv
    simp [step, hp, hu] at he
  have hinv' := step_inv hinv he
  intro v hv
  obtain ⟨hp, u, hu, howner⟩ := h v hv
  refine ⟨(step_point he (ht v hv)).trans hp, u, hu, ?_⟩
  rw [hinv'.owner, step_point he (ht u hu), ← hinv.owner]
  exact howner

theorem stuck_never_finishes (hinv : s.Inv calls) (hR : R.Nonempty) (h : Stuck calls R s)
    (hruns : SwapRuns calls s s') : ¬ s'.Finished := by
  have hstuck := hruns.invariant (fun s => s.Inv calls ∧ Stuck calls R s) ⟨hinv, h⟩
    fun _ _ _ hi _ he => ⟨step_inv hi.1 he, step_stuck hi.1 hi.2 he⟩
  intro hfinished
  obtain ⟨t, ht⟩ := hR
  have hsecond := (hstuck.2 t ht).1
  rw [(hfinished t).1] at hsecond
  cases hsecond

/-- Threads that begin with different mutexes can all be stopped between their two `lock`s. -/
theorem reach_second (hR : ∀ t ∈ R, (calls t).Separate) (hinj : Set.InjOn (fun t => (calls t).lhs) R) :
    ∃ s, SwapRuns calls (start calls) s ∧ (∀ t ∈ R, s.point t = .second) ∧
      ∀ t, t ∉ R → s.point t = .loop ∧ s.left t = (calls t).count := by
  induction R using Finset.induction_on with
  | empty => exact ⟨start calls, .refl, by simp, fun t _ => ⟨rfl, rfl⟩⟩
  | insert r R hr ih =>
    obtain ⟨s, hruns, hsecond, hloop⟩ := ih (fun t ht => hR t (Finset.mem_insert_of_mem ht))
      (hinj.mono (by simp))
    have hinv := runs_inv hruns
    obtain ⟨hseparate, hcount, hne⟩ := hR r (Finset.mem_insert_self r R)
    obtain ⟨hp, hleft⟩ := hloop r hr
    have hfree : s.owner (calls r).lhs = none := by
      rw [Option.eq_none_iff_forall_ne_some]
      intro u hu
      have hmem := (hinv.owner _ u).mp hu
      by_cases huR : u ∈ R
      · rw [hsecond u huR] at hmem
        have heq : r = u := hinj (Finset.mem_insert_self r R) (Finset.mem_insert_of_mem huR)
          (List.mem_singleton.mp hmem)
        exact hr (heq ▸ huR)
      · rw [(hloop u huR).1] at hmem
        exact List.not_mem_nil hmem
    have he : step calls s (r, true) = some (s.goto r (.locking (calls r).lhs (calls r).rhs)) := by
      simp [step, hp, hleft, hne, attempt]
      omega
    have he' : step calls (s.goto r (.locking (calls r).lhs (calls r).rhs)) (r, true) =
        some (((s.goto r (.locking (calls r).lhs (calls r).rhs)).take r (calls r).lhs).goto r .second) := by
      have hpoint : (s.goto r (.locking (calls r).lhs (calls r).rhs)).point r =
        .locking (calls r).lhs (calls r).rhs :=
        Function.update_self _ _ _
      have howner : (s.goto r (.locking (calls r).lhs (calls r).rhs)).owner (calls r).lhs = none := hfree
      simp [step, hpoint, howner, hseparate]
    refine ⟨_, (hruns.tail ⟨(r, true), trivial, he⟩).tail ⟨(r, true), trivial, he'⟩, fun t ht => ?_, fun t ht => ?_⟩
    · by_cases htr : t = r
      · rw [htr]
        exact Function.update_self _ _ _
      · rw [step_point he' htr, step_point he htr]
        exact hsecond t ((Finset.mem_insert.mp ht).resolve_left htr)
    · have htr : t ≠ r := fun htr => ht (htr ▸ Finset.mem_insert_self r R)
      obtain ⟨hp', hleft'⟩ := hloop t fun htR => ht (Finset.mem_insert_of_mem htR)
      exact ⟨(step_point he' htr).trans ((step_point he htr).trans hp'), hleft'⟩

theorem reach_stuck (h : Conflict calls) : ∃ R : Finset T, R.Nonempty ∧
    ∃ s, SwapRuns calls (start calls) s ∧ Stuck calls R s := by
  obtain ⟨D, hD, hconflict⟩ := h
  obtain ⟨R, hRD, hinj, himage⟩ := Finset.exists_subset_injOn_image_eq_of_surjOn (f := fun t => (calls t).lhs) D
    (D.image fun t => (calls t).lhs) (by simp [Set.SurjOn])
  have hseparate : ∀ t ∈ R, (calls t).Separate := fun t ht => (hconflict t (hRD ht)).1
  obtain ⟨s, hruns, hsecond, -⟩ := reach_second hseparate hinj
  have hinv := runs_inv hruns
  have hrep : ∀ t ∈ D, ∃ u ∈ R, (calls u).lhs = (calls t).lhs := by
    intro t ht
    have hmem : (calls t).lhs ∈ R.image fun t => (calls t).lhs := by
      rw [himage]
      exact Finset.mem_image_of_mem _ ht
    exact Finset.mem_image.mp hmem
  refine ⟨R, ?_, s, hruns, fun t ht => ⟨hsecond t ht, ?_⟩⟩
  · obtain ⟨t, ht⟩ := hD
    obtain ⟨u, hu, -⟩ := hrep t ht
    exact ⟨u, hu⟩
  · obtain ⟨v, hv, hrhs⟩ := (hconflict t (hRD ht)).2
    obtain ⟨u, hu, hlhs⟩ := hrep v hv
    refine ⟨u, hu, (hinv.owner _ u).mpr ?_⟩
    rw [hsecond u hu, hrhs, ← hlhs]
    exact List.mem_singleton_self _

end Stuck

/-- With `std::lock` the threads can always finish. Without it they can unless each of some threads locks second what
another one locks first. -/
theorem swaps_can_always_finish_iff [Fintype T] (calls : T → Call M) :
    (∀ s, SwapRuns calls (start calls) s → ∃ s', SwapRuns calls s s' ∧ s'.Finished) ↔ ¬ Conflict calls := by
  constructor
  · intro h hconflict
    obtain ⟨R, hR, s, hruns, hstuck⟩ := reach_stuck hconflict
    obtain ⟨s', hruns', hfinished⟩ := h s hruns
    exact stuck_never_finishes (runs_inv hruns) hR hstuck hruns' hfinished
  · intro hno s hruns
    exact can_finish (runs_inv hruns) hno

example : Conflict (mainCalls 10 false) ∧ ¬ Conflict (mainCalls 10 true) := by
  constructor
  · refine ⟨Finset.univ, ⟨true, Finset.mem_univ _⟩, fun t _ => ?_⟩
    cases t with
    | false => exact ⟨⟨rfl, by decide, by decide⟩, true, Finset.mem_univ _, rfl⟩
    | true => exact ⟨⟨rfl, by decide, by decide⟩, false, Finset.mem_univ _, rfl⟩
  · rintro ⟨D, ⟨t, ht⟩, h⟩
    cases t <;> exact absurd (h _ ht).1.1 (by decide)

end Swaps

end SwapLocks

end CPractice
