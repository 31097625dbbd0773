import CPractice.HierarchicalMutex.Deadlock

/-! The order in which a thread locks. The check compares with one number, and an
`unlock` out of order sets it above a mutex that is still held. -/

namespace CPractice

namespace Mutexes

section Saved

variable {M : Type} {hierarchy_value previous : M → UInt64} {held : List M} {m : M}

theorem Saved.lt_previous (h : Saved hierarchy_value previous held) (hm : m ∈ held) :
    hierarchy_value m < previous m := by
  induction held with
  | nil => simp at hm
  | cons k ms ih =>
    obtain ⟨hprev, hlt, hms⟩ := h
    rcases List.mem_cons.mp hm with rfl | hm
    · exact hprev ▸ hlt
    · exact ih hms hm

end Saved

variable {T M : Type} [DecidableEq T] [DecidableEq M] (hierarchy_value : M → UInt64)

theorem step_locked {s s' : Mutexes T M} {a : Act T M} (he : s.step hierarchy_value a = some s') {t : T} {m : M}
    (hheld : s'.held t = m :: s.held t) : s.thread t = .updating m := by
  have hne : m :: s.held t ≠ s.held t := by simp
  rcases step_cases hierarchy_value he with ⟨u, k, -, -, rfl⟩ | ⟨u, k, p, -, -, -, rfl⟩ |
    ⟨u, k, -, -, rfl⟩ | ⟨u, k, -, rfl⟩ | ⟨u, k, hth, rfl⟩ | ⟨u, k, -, -, -, rfl⟩ | ⟨u, k, -, rfl⟩
  · exact absurd hheld.symm hne
  · exact absurd hheld.symm hne
  · exact absurd hheld.symm hne
  · exact absurd hheld.symm hne
  · by_cases hut : t = u
    · subst hut
      have hcons : k :: s.held t = m :: s.held t := by
        simpa [update_hierarchy_value] using hheld
      rw [hth, (List.cons.inj hcons).1]
    · exact absurd (by simpa [update_hierarchy_value, Mutexes.goto, hut] using hheld.symm) hne
  · exact absurd hheld.symm hne
  · by_cases hut : t = u
    · subst hut
      have herase : (s.held t).erase k = m :: s.held t := by simpa [release] using hheld
      have hle := List.length_erase_le (a := k) (l := s.held t)
      rw [herase, List.length_cons] at hle
      omega
    · exact absurd (by simpa [release, Mutexes.goto, hut] using hheld.symm) hne

/-- With last-in-first-out unlocking, a thread locks below everything it holds. -/
theorem locks_in_order {s s' : Mutexes T M} {a : Act T M} {t : T} {m : M}
    (h : Reach.Runs (step hierarchy_value) LastFirst (start T M) s)
    (he : s.step hierarchy_value a = some s') (hheld : s'.held t = m :: s.held t) :
    ∀ k ∈ s.held t, hierarchy_value m < hierarchy_value k := by
  have hnested := Runs.nested hierarchy_value h
  have hlevel := hnested.atLevel t
  rw [step_locked hierarchy_value he hheld] at hlevel
  obtain ⟨hvalue, hlt⟩ := hlevel
  intro k hk
  have hle := (hnested.saved t).level_le hk
  exact UInt64.lt_of_lt_of_le (hvalue ▸ hlt) hle

def downwards : List (Act Unit Bool) :=
  [.lock () true, .go () true, .go () true, .lock () false, .go () true]

theorem downwards_in_order :
    ∃ s s' : Mutexes Unit Bool, Reach.Runs (step mainValues) LastFirst (start Unit Bool) s ∧
      s.step mainValues (.go () true) = some s' ∧ s'.held () = false :: s.held () ∧
      s.held () = [true] ∧ ∀ k ∈ s.held (), mainValues false < mainValues k := by
  have hlast : Reach.Allows (step mainValues) LastFirst downwards (start Unit Bool) := by decide
  have hrun := Reach.runs_of_run hlast
    (show Reach.run (step mainValues) downwards (start Unit Bool) = some _ from rfl)
  refine ⟨_, _, hrun, rfl, by decide, by decide, ?_⟩
  exact locks_in_order mainValues (a := .go () true) hrun rfl (by decide)

/-- An `unlock` out of order leaves a mutex held that is below the value the thread
then has: the next check lets everything in between pass. -/
theorem unlock_out_of_order {s s' : Mutexes T M} {t : T} {m : M}
    (h : Reach.Runs (step hierarchy_value) LastFirst (start T M) s)
    (he : s.step hierarchy_value (.unlock t m) = some s') (hnot : ¬ s.LastFirst (.unlock t m)) :
    ∃ k ∈ s.held t, k ≠ m ∧ hierarchy_value k < s'.this_thread_hierarchy_value t := by
  have hsaved := (Runs.nested hierarchy_value h).saved t
  rw [step] at he
  by_cases hheld : s.thread t = .idle ∧ m ∈ s.held t
  · rw [if_pos hheld] at he
    cases he
    have hm := hheld.2
    have hnot' : (s.held t).head? ≠ some m := hnot
    cases hlist : s.held t with
    | nil =>
      rw [hlist] at hm
      cases hm
    | cons k ms =>
      rw [hlist] at hsaved hm hnot'
      have hkm : k ≠ m := fun hk => hnot' (by rw [hk]; rfl)
      have hms : m ∈ ms := (List.mem_cons.mp hm).resolve_left fun hk => hkm hk.symm
      have hlt : hierarchy_value k < hierarchy_value m :=
        UInt64.lt_of_lt_of_le hsaved.2.1 (hsaved.2.2.level_le hms)
      have hprev := hsaved.2.2.lt_previous hms
      refine ⟨k, List.mem_cons_self, hkm, ?_⟩
      have hvalue : (s.restore t m).this_thread_hierarchy_value t = s.previous_hierarchy_value m := by
        simp [restore]
      rw [hvalue]
      exact UInt64.lt_trans hlt hprev
  · rw [if_neg hheld] at he
    cases he

inductive Floor where
  | low
  | mid
  | high
  deriving DecidableEq, Repr

def floorValues : Floor → UInt64
  | .low => 1000
  | .mid => 1500
  | .high => 2000

def outOfOrder : List (Act Unit Floor) :=
  [.lock () .high, .go () true, .go () true, .lock () .low, .go () true, .go () true,
    .unlock () .high, .go () true, .lock () .mid, .go () true]

theorem locks_above_held :
    ¬ ∀ (hierarchy_value : Floor → UInt64) (s s' : Mutexes Unit Floor) (a : Act Unit Floor) (t : Unit) (m : Floor),
      Reach.Runs (step hierarchy_value) (fun _ _ => True) (start Unit Floor) s →
      s.step hierarchy_value a = some s' → s'.held t = m :: s.held t →
      ∀ k ∈ s.held t, hierarchy_value m < hierarchy_value k := by
  intro hall
  have hrun := Reach.runs_of_run_any
    (show Reach.run (step floorValues) outOfOrder (start Unit Floor) = some _ from rfl)
  exact absurd (hall floorValues _ _ (.go () true) () .mid hrun rfl (by decide) .low (by decide)) (by decide)

end Mutexes

end CPractice
