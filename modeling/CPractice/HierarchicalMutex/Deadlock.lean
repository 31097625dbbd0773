import CPractice.HierarchicalMutex.Basic

/-! Threads that unlock in reverse order. What `update_hierarchy_value` saves in a mutex
is then the value of the mutex locked before it, and the mutexes a thread holds have
falling values. -/

namespace CPractice

namespace Mutexes

variable {T M : Type} (hierarchy_value : M → UInt64)

/-- As the scopes of `std::lock_guard` do. -/
def LastFirst (s : Mutexes T M) : Act T M → Prop
  | .unlock t m => (s.held t).head? = some m
  | _ => True

/-- Thread `t` is in `lock` on a mutex that `u` has. -/
def WaitsFor (s : Mutexes T M) (t u : T) : Prop :=
  ∃ m, s.thread t = .locking m ∧ s.internal_mutex m = some u

/-- The value a thread has while it holds the mutexes of the list. -/
def level : List M → UInt64
  | [] => ULONG_MAX
  | m :: _ => hierarchy_value m

/-- Each mutex has the level of those below it saved, and is below it. -/
def Saved (previous : M → UInt64) : List M → Prop
  | [] => True
  | m :: ms => previous m = level hierarchy_value ms ∧ hierarchy_value m < level hierarchy_value ms ∧
    Saved previous ms

def AtLevel (value : UInt64) (held : List M) : LockPoint M → Prop
  | .idle => value = level hierarchy_value held
  | .locking m => value = level hierarchy_value held ∧ hierarchy_value m < value
  | .trying m => value = level hierarchy_value held ∧ hierarchy_value m < value
  | .updating m => value = level hierarchy_value held ∧ hierarchy_value m < value
  | .unlocking m => ∃ ms, held = m :: ms ∧ value = level hierarchy_value ms

structure Nested (s : Mutexes T M) : Prop where
  owned : ∀ t m, s.internal_mutex m = some t ↔ m ∈ s.held t ∨ s.thread t = .updating m
  saved : ∀ t, Saved hierarchy_value s.previous_hierarchy_value (s.held t)
  atLevel : ∀ t, AtLevel hierarchy_value (s.this_thread_hierarchy_value t) (s.held t) (s.thread t)

section Saved

variable {hierarchy_value} {previous : M → UInt64} {held : List M} {m : M}

theorem Saved.level_le (h : Saved hierarchy_value previous held) (hm : m ∈ held) :
    level hierarchy_value held ≤ hierarchy_value m := by
  induction held with
  | nil => simp at hm
  | cons k ms ih =>
    rcases List.mem_cons.mp hm with rfl | hm
    · exact UInt64.le_refl _
    · have hle := ih h.2.2 hm
      exact UInt64.le_of_lt (UInt64.lt_of_lt_of_le h.2.1 hle)

theorem Saved.not_mem (h : Saved hierarchy_value previous held)
    (hlt : hierarchy_value m < level hierarchy_value held) : m ∉ held := by
  intro hm
  exact UInt64.lt_irrefl _ (UInt64.lt_of_lt_of_le hlt (h.level_le hm))

end Saved

theorem start_nested : (start T M).Nested hierarchy_value := by
  constructor
  case owned => simp [start]
  case saved => exact fun _ => trivial
  case atLevel => exact fun _ => rfl

def wanted (s : Mutexes T M) (t : T) : UInt64 :=
  match s.thread t with
  | .locking m => hierarchy_value m
  | _ => 0

theorem Nested.wanted_lt {s : Mutexes T M} (h : s.Nested hierarchy_value) (t u v : T) (htu : s.WaitsFor t u)
    (huv : s.WaitsFor u v) : s.wanted hierarchy_value u < s.wanted hierarchy_value t := by
  obtain ⟨m, hm, howner⟩ := htu
  obtain ⟨k, hk, -⟩ := huv
  have hheld : m ∈ s.held u := by
    rcases (h.owned u m).mp howner with hheld | hth
    · exact hheld
    · rw [hk] at hth
      cases hth
  have hlevel := h.atLevel u
  rw [hk] at hlevel
  obtain ⟨hvalue, hlt⟩ := hlevel
  have hle := (h.saved u).level_le hheld
  have hu : s.wanted hierarchy_value u = hierarchy_value k := by rw [wanted, hk]
  have ht : s.wanted hierarchy_value t = hierarchy_value m := by rw [wanted, hm]
  rw [hu, ht]
  exact UInt64.lt_of_lt_of_le (hvalue ▸ hlt) hle

section Steps

variable [DecidableEq T] {hierarchy_value} {s : Mutexes T M} {t : T} {m : M}

theorem Nested.goto (h : s.Nested hierarchy_value) {p : LockPoint M} (hp : ∀ k, p ≠ .updating k)
    (hth : ∀ k, s.thread t ≠ .updating k)
    (hlevel : AtLevel hierarchy_value (s.this_thread_hierarchy_value t) (s.held t) p) :
    (s.goto t p).Nested hierarchy_value := by
  constructor
  case owned =>
    intro u k
    rw [show (s.goto t p).internal_mutex = s.internal_mutex from rfl, h.owned u k]
    by_cases hut : u = t
    · subst hut
      simp [Mutexes.goto, hp k, hth k]
    · simp [Mutexes.goto, hut]
  case saved => exact h.saved
  case atLevel =>
    intro u
    by_cases hut : u = t
    · subst hut
      simpa [Mutexes.goto] using hlevel
    · simpa [Mutexes.goto, hut] using h.atLevel u

theorem Nested.restore (h : s.Nested hierarchy_value) (hth : s.thread t = .idle)
    (hlast : (s.held t).head? = some m) : (s.restore t m).Nested hierarchy_value := by
  obtain ⟨ms, hheld⟩ : ∃ ms, s.held t = m :: ms := List.head?_eq_some_iff.mp hlast
  have hsaved := h.saved t
  rw [hheld] at hsaved
  constructor
  case owned =>
    intro u k
    have howned := h.owned u k
    by_cases hut : u = t
    · subst hut
      rw [hth] at howned
      simpa [Mutexes.restore, Mutexes.goto] using howned
    · simpa [Mutexes.restore, Mutexes.goto, hut] using howned
  case saved => exact h.saved
  case atLevel =>
    intro u
    by_cases hut : u = t
    · subst hut
      have hlevel : AtLevel hierarchy_value (s.previous_hierarchy_value m) (s.held u) (.unlocking m) :=
        ⟨ms, hheld, hsaved.1⟩
      simpa [Mutexes.restore, Mutexes.goto] using hlevel
    · simpa [Mutexes.restore, Mutexes.goto, hut] using h.atLevel u

variable [DecidableEq M]

theorem Saved.update {previous : M → UInt64} {held : List M} (h : Saved hierarchy_value previous held)
    (hm : m ∉ held) (v : UInt64) :
    Saved hierarchy_value (Function.update previous m v) held := by
  induction held with
  | nil => trivial
  | cons k ms ih =>
    have hk : k ≠ m := fun he => hm (he ▸ List.mem_cons_self)
    refine ⟨?_, h.2.1, ih h.2.2 fun hms => hm (List.mem_cons_of_mem _ hms)⟩
    rw [Function.update_of_ne hk]
    exact h.1

theorem Nested.acquire (h : s.Nested hierarchy_value) (hth : s.thread t = .locking m ∨ s.thread t = .trying m)
    (hfree : s.internal_mutex m = none) : (s.acquire t m).Nested hierarchy_value := by
  have hnone : ∀ u, ¬ (m ∈ s.held u ∨ s.thread u = .updating m) := by
    intro u hu
    have howned := (h.owned u m).mpr hu
    rw [hfree] at howned
    cases howned
  have hnot : ∀ k, s.thread t ≠ .updating k := by
    intro k hk
    rcases hth with hth | hth <;> (rw [hth] at hk; cases hk)
  constructor
  case owned =>
    intro u k
    by_cases hk : k = m
    · subst hk
      by_cases hut : u = t
      · subst hut
        simp [Mutexes.acquire, Mutexes.goto]
      · have hu := hnone u
        have htu : t ≠ u := fun he => hut he.symm
        simpa [Mutexes.acquire, Mutexes.goto, hut, htu] using hu
    · have hmk : m ≠ k := fun he => hk he.symm
      have howned := h.owned u k
      by_cases hut : u = t
      · subst hut
        simpa [Mutexes.acquire, Mutexes.goto, hk, hmk, hnot k] using howned
      · simpa [Mutexes.acquire, Mutexes.goto, hk, hut] using howned
  case saved => exact h.saved
  case atLevel =>
    intro u
    by_cases hut : u = t
    · subst hut
      have hlevel := h.atLevel u
      rcases hth with hth | hth <;> (rw [hth] at hlevel; simpa [Mutexes.acquire, Mutexes.goto, AtLevel] using hlevel)
    · simpa [Mutexes.acquire, Mutexes.goto, hut] using h.atLevel u

theorem Nested.update (h : s.Nested hierarchy_value) (hth : s.thread t = .updating m) :
    (s.update_hierarchy_value hierarchy_value t m).Nested hierarchy_value := by
  have howner : s.internal_mutex m = some t := (h.owned t m).mpr (.inr hth)
  obtain ⟨hvalue, hlt⟩ : AtLevel hierarchy_value (s.this_thread_hierarchy_value t) (s.held t) (.updating m) :=
    hth ▸ h.atLevel t
  have hnot : m ∉ s.held t := (h.saved t).not_mem (hvalue ▸ hlt)
  constructor
  case owned =>
    intro u k
    have howned := h.owned u k
    by_cases hut : u = t
    · subst hut
      by_cases hk : k = m
      · subst hk
        simp [update_hierarchy_value, Mutexes.goto, howner]
      · have hmk : m ≠ k := fun he => hk he.symm
        rw [hth] at howned
        simpa [update_hierarchy_value, Mutexes.goto, hk, hmk] using howned
    · simpa [update_hierarchy_value, Mutexes.goto, hut] using howned
  case saved =>
    intro u
    by_cases hut : u = t
    · subst hut
      have hsaved : Saved hierarchy_value (Function.update s.previous_hierarchy_value m
          (s.this_thread_hierarchy_value u)) (m :: s.held u) :=
        ⟨by rw [Function.update_self, hvalue], hvalue ▸ hlt, (h.saved u).update hnot _⟩
      simpa [update_hierarchy_value] using hsaved
    · have hother : m ∉ s.held u := by
        intro hm
        have howned := (h.owned u m).mpr (.inl hm)
        rw [howner] at howned
        exact hut (Option.some.inj howned).symm
      simpa [update_hierarchy_value, hut] using (h.saved u).update hother (s.this_thread_hierarchy_value t)
  case atLevel =>
    intro u
    by_cases hut : u = t
    · subst hut
      simp [update_hierarchy_value, Mutexes.goto, AtLevel, level]
    · simpa [update_hierarchy_value, Mutexes.goto, hut] using h.atLevel u

theorem Nested.release (h : s.Nested hierarchy_value) (hth : s.thread t = .unlocking m) :
    (s.release t m).Nested hierarchy_value := by
  obtain ⟨ms, hheld, hvalue⟩ :
      AtLevel hierarchy_value (s.this_thread_hierarchy_value t) (s.held t) (.unlocking m) := hth ▸ h.atLevel t
  have hsaved := h.saved t
  rw [hheld] at hsaved
  have hnot : m ∉ ms := hsaved.2.2.not_mem hsaved.2.1
  have herase : (s.held t).erase m = ms := by rw [hheld, List.erase_cons_head]
  have howner : s.internal_mutex m = some t := (h.owned t m).mpr (.inl (hheld ▸ List.mem_cons_self))
  constructor
  case owned =>
    intro u k
    have howned := h.owned u k
    by_cases hk : k = m
    · subst hk
      by_cases hut : u = t
      · subst hut
        simp [Mutexes.release, Mutexes.goto, herase, hnot]
      · have hother : ¬ (k ∈ s.held u ∨ s.thread u = .updating k) := by
          intro hu
          have hsome := howned.mpr hu
          rw [howner] at hsome
          exact hut (Option.some.inj hsome).symm
        simpa [Mutexes.release, Mutexes.goto, hut] using hother
    · by_cases hut : u = t
      · subst hut
        rw [hth, hheld] at howned
        simpa [Mutexes.release, Mutexes.goto, herase, hk] using howned
      · simpa [Mutexes.release, Mutexes.goto, hut, hk] using howned
  case saved =>
    intro u
    by_cases hut : u = t
    · subst hut
      simpa [Mutexes.release, Mutexes.goto, herase] using hsaved.2.2
    · simpa [Mutexes.release, Mutexes.goto, hut] using h.saved u
  case atLevel =>
    intro u
    by_cases hut : u = t
    · subst hut
      simpa [Mutexes.release, Mutexes.goto, herase, AtLevel] using hvalue
    · simpa [Mutexes.release, Mutexes.goto, hut] using h.atLevel u

end Steps

variable [DecidableEq T] [DecidableEq M]

instance LastFirst.decidable (s : Mutexes T M) : ∀ a, Decidable (s.LastFirst a)
  | .lock _ _ => .isTrue trivial
  | .try_lock _ _ => .isTrue trivial
  | .unlock t m => inferInstanceAs (Decidable ((s.held t).head? = some m))
  | .go _ _ => .isTrue trivial

theorem step_nested {s s' : Mutexes T M} {a : Act T M} (h : s.Nested hierarchy_value) (hlast : s.LastFirst a)
    (he : s.step hierarchy_value a = some s') : s'.Nested hierarchy_value := by
  rcases step_cases hierarchy_value he with ⟨t, m, -, -, rfl⟩ | ⟨t, m, p, hth, hlt, hp, rfl⟩ |
    ⟨t, m, hth, hfree, rfl⟩ | ⟨t, m, hth, rfl⟩ | ⟨t, m, hth, rfl⟩ | ⟨t, m, rfl, hth, -, rfl⟩ | ⟨t, m, hth, rfl⟩
  · exact ⟨h.owned, h.saved, h.atLevel⟩
  · have hlevel : s.this_thread_hierarchy_value t = level hierarchy_value (s.held t) := by
      have hidle := h.atLevel t
      rwa [hth] at hidle
    rcases hp with rfl | rfl <;> exact h.goto (by simp) (by simp [hth]) ⟨hlevel, hlt⟩
  · exact h.acquire hth hfree
  · have hlevel := h.atLevel t
    rw [hth] at hlevel
    exact h.goto (by simp) (by simp [hth]) hlevel.1
  · exact h.update hth
  · exact h.restore hth hlast
  · exact h.release hth

theorem Runs.nested {s : Mutexes T M} (h : Reach.Runs (step hierarchy_value) LastFirst (start T M) s) :
    s.Nested hierarchy_value :=
  h.invariant (fun s => s.Nested hierarchy_value) (start_nested hierarchy_value)
    fun _ _ _ hs hlast he => step_nested hierarchy_value hs hlast he

theorem step_thrown {s s' : Mutexes T M} {a : Act T M} (he : s.step hierarchy_value a = some s') {t : T}
    (hthrown : s'.thrown t ≠ s.thrown t) :
    s'.this_thread_hierarchy_value = s.this_thread_hierarchy_value ∧
      s'.internal_mutex = s.internal_mutex ∧ s'.previous_hierarchy_value = s.previous_hierarchy_value := by
  rcases step_cases hierarchy_value he with ⟨t, m, -, -, rfl⟩ | ⟨t, m, p, -, -, -, rfl⟩ |
    ⟨t, m, -, -, rfl⟩ | ⟨t, m, -, rfl⟩ | ⟨t, m, -, rfl⟩ | ⟨t, m, -, -, -, rfl⟩ | ⟨t, m, -, rfl⟩
  · exact ⟨rfl, rfl, rfl⟩
  all_goals exact absurd rfl hthrown

/-- With last-in-first-out unlocking there is never a cycle of threads that wait for
each other, and an attempt that throws changes no value and no mutex. -/
theorem no_deadlock {s : Mutexes T M}
    (h : Reach.Runs (step hierarchy_value) LastFirst (start T M) s) :
    (∀ t, ¬ Relation.TransGen s.WaitsFor t t) ∧
    ∀ a s' t, s.step hierarchy_value a = some s' → s'.thrown t ≠ s.thrown t →
      s'.this_thread_hierarchy_value = s.this_thread_hierarchy_value ∧
      s'.internal_mutex = s.internal_mutex ∧ s'.previous_hierarchy_value = s.previous_hierarchy_value := by
  have hnested := Runs.nested hierarchy_value h
  constructor
  · intro t
    exact Reach.no_cycle (· < ·) (s.wanted hierarchy_value) (fun _ _ _ hxy hyz => UInt64.lt_trans hxy hyz)
      (fun x => UInt64.lt_irrefl x) (hnested.wanted_lt hierarchy_value) t
  · intro a s' t he hthrown
    exact step_thrown hierarchy_value he hthrown

def mainValues : Bool → UInt64
  | false => 42
  | true => 2000

/-- The first thread (`false`) has both mutexes and tries the upper one again, the second
one waits for the upper one. -/
def contended : List (Act Bool Bool) :=
  [.lock false true, .go false true, .go false true, .lock true true, .try_lock false false,
    .go false true, .go false true, .lock false true]

theorem contended_no_deadlock :
    ∃ s, Reach.Runs (step mainValues) LastFirst (start Bool Bool) s ∧ s.WaitsFor true false ∧
      s.thrown false = 1 ∧ ∀ t, ¬ Relation.TransGen s.WaitsFor t t := by
  have hlast : Reach.Allows (step mainValues) LastFirst contended (start Bool Bool) := by decide
  have hrun := Reach.runs_of_run hlast
    (show Reach.run (step mainValues) contended (start Bool Bool) = some _ from rfl)
  exact ⟨_, hrun, ⟨true, by decide, by decide⟩, by decide, (no_deadlock mainValues hrun).1⟩

end Mutexes

end CPractice
