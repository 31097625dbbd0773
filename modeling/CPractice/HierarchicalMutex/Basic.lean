import CPractice.Lib.Reach
import Mathlib.Data.List.Basic
import Mathlib.Logic.Function.Basic

/-! The class `hierarchical_mutex`, used by any number of threads on any number of
objects. The check, the call of the internal mutex and the update after it are separate
steps, between which other threads may run. -/

namespace CPractice

def ULONG_MAX : UInt64 := 0xFFFFFFFFFFFFFFFF

/-- Where a thread is: outside the class, past the check of `lock` or `try_lock`, with
the internal mutex before `update_hierarchy_value`, or before `internal_mutex.unlock`. -/
inductive LockPoint (M : Type) where
  | idle
  | locking (m : M)
  | trying (m : M)
  | updating (m : M)
  | unlocking (m : M)
  deriving DecidableEq

/-- `held` are the mutexes a thread has locked, newest first, and `thrown` counts its
`logic_error`s. -/
structure Mutexes (T M : Type) where
  internal_mutex : M → Option T
  previous_hierarchy_value : M → UInt64
  this_thread_hierarchy_value : T → UInt64
  thread : T → LockPoint M
  held : T → List M
  thrown : T → Nat

namespace Mutexes

variable {T M : Type} [DecidableEq T] (hierarchy_value : M → UInt64)

def start (T M : Type) : Mutexes T M :=
  { internal_mutex := fun _ => none, previous_hierarchy_value := fun _ => 0
    this_thread_hierarchy_value := fun _ => ULONG_MAX, thread := fun _ => .idle
    held := fun _ => [], thrown := fun _ => 0 }

def goto (s : Mutexes T M) (t : T) (p : LockPoint M) : Mutexes T M :=
  { s with thread := Function.update s.thread t p }

/-- The first statement of `lock` and `try_lock`. -/
def check_for_hierarchy_violation (s : Mutexes T M) (t : T) (m : M) (next : LockPoint M) : Mutexes T M :=
  if s.this_thread_hierarchy_value t ≤ hierarchy_value m then
    { s with thrown := Function.update s.thrown t (s.thrown t + 1) }
  else s.goto t next

theorem check_cases (s : Mutexes T M) (t : T) (m : M) (next : LockPoint M) :
    (s.this_thread_hierarchy_value t ≤ hierarchy_value m ∧
      s.check_for_hierarchy_violation hierarchy_value t m next =
        { s with thrown := Function.update s.thrown t (s.thrown t + 1) }) ∨
    (hierarchy_value m < s.this_thread_hierarchy_value t ∧
      s.check_for_hierarchy_violation hierarchy_value t m next = s.goto t next) := by
  by_cases hle : s.this_thread_hierarchy_value t ≤ hierarchy_value m
  · exact .inl ⟨hle, if_pos hle⟩
  · exact .inr ⟨UInt64.not_le.mp hle, if_neg hle⟩

variable [DecidableEq M]

def acquire (s : Mutexes T M) (t : T) (m : M) : Mutexes T M :=
  { s.goto t (.updating m) with internal_mutex := Function.update s.internal_mutex m (some t) }

def update_hierarchy_value (s : Mutexes T M) (t : T) (m : M) : Mutexes T M :=
  { s.goto t .idle with
    previous_hierarchy_value :=
      Function.update s.previous_hierarchy_value m (s.this_thread_hierarchy_value t)
    this_thread_hierarchy_value := Function.update s.this_thread_hierarchy_value t (hierarchy_value m)
    held := Function.update s.held t (m :: s.held t) }

def restore (s : Mutexes T M) (t : T) (m : M) : Mutexes T M :=
  { s.goto t (.unlocking m) with
    this_thread_hierarchy_value :=
      Function.update s.this_thread_hierarchy_value t (s.previous_hierarchy_value m) }

def release (s : Mutexes T M) (t : T) (m : M) : Mutexes T M :=
  { s.goto t .idle with
    internal_mutex := Function.update s.internal_mutex m none
    held := Function.update s.held t ((s.held t).erase m) }

/-- `go` is the next step of a call that has passed its check. `success` is what the
internal `try_lock` returns; it may fail although the mutex is free. -/
inductive Act (T M : Type) where
  | lock (t : T) (m : M)
  | try_lock (t : T) (m : M)
  | unlock (t : T) (m : M)
  | go (t : T) (success : Bool)

def go (s : Mutexes T M) (t : T) (success : Bool) : Option (Mutexes T M) :=
  match s.thread t with
  | .idle => none
  | .locking m => if s.internal_mutex m = none then some (s.acquire t m) else none
  | .trying m =>
    if success then if s.internal_mutex m = none then some (s.acquire t m) else none
    else some (s.goto t .idle)
  | .updating m => some (s.update_hierarchy_value hierarchy_value t m)
  | .unlocking m => some (s.release t m)

def step (s : Mutexes T M) : Act T M → Option (Mutexes T M)
  | .lock t m =>
    if s.thread t = .idle then some (s.check_for_hierarchy_violation hierarchy_value t m (.locking m))
    else none
  | .try_lock t m =>
    if s.thread t = .idle then some (s.check_for_hierarchy_violation hierarchy_value t m (.trying m))
    else none
  | .unlock t m => if s.thread t = .idle ∧ m ∈ s.held t then some (s.restore t m) else none
  | .go t success => s.go hierarchy_value t success

theorem step_cases {s s' : Mutexes T M} {a : Act T M} (h : s.step hierarchy_value a = some s') :
    (∃ t m, s.thread t = .idle ∧ s.this_thread_hierarchy_value t ≤ hierarchy_value m ∧
      s' = { s with thrown := Function.update s.thrown t (s.thrown t + 1) }) ∨
    (∃ t m p, s.thread t = .idle ∧ hierarchy_value m < s.this_thread_hierarchy_value t ∧
      (p = .locking m ∨ p = .trying m) ∧ s' = s.goto t p) ∨
    (∃ t m, (s.thread t = .locking m ∨ s.thread t = .trying m) ∧ s.internal_mutex m = none ∧
      s' = s.acquire t m) ∨
    (∃ t m, s.thread t = .trying m ∧ s' = s.goto t .idle) ∨
    (∃ t m, s.thread t = .updating m ∧ s' = s.update_hierarchy_value hierarchy_value t m) ∨
    (∃ t m, a = .unlock t m ∧ s.thread t = .idle ∧ m ∈ s.held t ∧ s' = s.restore t m) ∨
    (∃ t m, s.thread t = .unlocking m ∧ s' = s.release t m) := by
  cases a with
  | lock t m =>
    rw [step] at h
    by_cases hidle : s.thread t = .idle
    · rw [if_pos hidle] at h
      cases h
      rcases check_cases hierarchy_value s t m (.locking m) with ⟨hle, he⟩ | ⟨hlt, he⟩
      · exact .inl ⟨t, m, hidle, hle, he⟩
      · exact .inr (.inl ⟨t, m, _, hidle, hlt, .inl rfl, he⟩)
    · rw [if_neg hidle] at h
      cases h
  | try_lock t m =>
    rw [step] at h
    by_cases hidle : s.thread t = .idle
    · rw [if_pos hidle] at h
      cases h
      rcases check_cases hierarchy_value s t m (.trying m) with ⟨hle, he⟩ | ⟨hlt, he⟩
      · exact .inl ⟨t, m, hidle, hle, he⟩
      · exact .inr (.inl ⟨t, m, _, hidle, hlt, .inr rfl, he⟩)
    · rw [if_neg hidle] at h
      cases h
  | unlock t m =>
    rw [step] at h
    by_cases hheld : s.thread t = .idle ∧ m ∈ s.held t
    · rw [if_pos hheld] at h
      cases h
      exact .inr (.inr (.inr (.inr (.inr (.inl ⟨t, m, rfl, hheld.1, hheld.2, rfl⟩)))))
    · rw [if_neg hheld] at h
      cases h
  | go t success =>
    rw [step, go] at h
    cases hth : s.thread t with
    | idle =>
      rw [hth] at h
      cases h
    | locking m =>
      rw [hth] at h
      by_cases hfree : s.internal_mutex m = none
      · dsimp only at h
        rw [if_pos hfree] at h
        cases h
        exact .inr (.inr (.inl ⟨t, m, .inl hth, hfree, rfl⟩))
      · dsimp only at h
        rw [if_neg hfree] at h
        cases h
    | trying m =>
      rw [hth] at h
      cases success with
      | false =>
        cases h
        exact .inr (.inr (.inr (.inl ⟨t, m, hth, rfl⟩)))
      | true =>
        by_cases hfree : s.internal_mutex m = none
        · dsimp only at h
          rw [if_pos rfl, if_pos hfree] at h
          cases h
          exact .inr (.inr (.inl ⟨t, m, .inr hth, hfree, rfl⟩))
        · dsimp only at h
          rw [if_pos rfl, if_neg hfree] at h
          cases h
    | updating m =>
      rw [hth] at h
      cases h
      exact .inr (.inr (.inr (.inr (.inl ⟨t, m, hth, rfl⟩))))
    | unlocking m =>
      rw [hth] at h
      cases h
      exact .inr (.inr (.inr (.inr (.inr (.inr ⟨t, m, hth, rfl⟩)))))

end Mutexes

end CPractice
