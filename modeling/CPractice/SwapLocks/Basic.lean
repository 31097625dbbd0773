import CPractice.Lib.Reach
import Mathlib.Data.List.Count
import Mathlib.Logic.Function.Basic

/-! Threads that run `mswap`, with `std::lock` or with one `lock` after the other. -/

namespace CPractice

namespace SwapLocks

structure Call (M : Type) where
  lhs : M
  rhs : M
  count : Nat
  use_stdlock : Bool
  deriving DecidableEq

/-- The two threads that `main` starts together. -/
def mainCalls (count : Nat) (use_stdlock : Bool) : Bool → Call Bool
  | false => ⟨false, true, count, use_stdlock⟩
  | true => ⟨true, false, count, use_stdlock⟩

/-- A thread is in `loop` before the next `swap` or after the last, and in `locking` for its first mutex. In
`std::lock` the `try_lock` for the second comes next in `trying` and has failed in `backing`; in `second` the
thread is in `rhs.m.lock()`. The last two are the destructors of `lock_b` and `lock_a`. -/
inductive Point (M : Type) where
  | loop
  | locking (first second : M)
  | trying (first second : M)
  | backing (first : M)
  | second
  | swapping
  | unlock_b
  | unlock_a
  deriving DecidableEq

variable {T M : Type}

def Point.holds (c : Call M) : Point M → List M
  | .loop => []
  | .locking _ _ => []
  | .trying first _ => [first]
  | .backing first => [first]
  | .second => [c.lhs]
  | .swapping => [c.lhs, c.rhs]
  | .unlock_b => [c.lhs, c.rhs]
  | .unlock_a => [c.lhs]

/-- `left` are the turns of the loop that are left to a thread, and `printed` has the thread of each line. -/
structure Swaps (T M : Type) where
  owner : M → Option T
  point : T → Point M
  left : T → Nat
  printed : List T

namespace Swaps

def start (calls : T → Call M) : Swaps T M :=
  { owner := fun _ => none, point := fun _ => .loop, left := fun t => (calls t).count, printed := [] }

def Finished (s : Swaps T M) : Prop := ∀ t, s.point t = .loop ∧ s.left t = 0

variable [DecidableEq T] [DecidableEq M]

def goto (s : Swaps T M) (t : T) (p : Point M) : Swaps T M := { s with point := Function.update s.point t p }

def take (s : Swaps T M) (t : T) (m : M) : Swaps T M := { s with owner := Function.update s.owner m (some t) }

def release (s : Swaps T M) (m : M) : Swaps T M := { s with owner := Function.update s.owner m none }

def turn (s : Swaps T M) (t : T) : Swaps T M := { s with left := Function.update s.left t (s.left t - 1) }

/-- Which of its two mutexes an attempt of `std::lock` begins with is not specified. -/
def attempt (c : Call M) (choice : Bool) : Point M :=
  if c.use_stdlock = true ∧ choice = false then .locking c.rhs c.lhs else .locking c.lhs c.rhs

/-- The next step of a thread. `choice` settles how an attempt of `std::lock` begins, and whether a `try_lock` of a
free mutex succeeds. -/
def step (calls : T → Call M) (s : Swaps T M) : T × Bool → Option (Swaps T M)
  | (t, choice) =>
    let c := calls t
    match s.point t with
    | .loop =>
      if s.left t = 0 then none
      else if c.lhs = c.rhs then some (s.turn t)
      else some (s.goto t (attempt c choice))
    | .locking first second =>
      if s.owner first = none then
        some ((s.take t first).goto t (if c.use_stdlock then .trying first second else .second))
      else none
    | .trying first second =>
      if choice = true ∧ s.owner second = none then some ((s.take t second).goto t .swapping)
      else some (s.goto t (.backing first))
    | .backing first => some ((s.release first).goto t (attempt c choice))
    | .second => if s.owner c.rhs = none then some ((s.take t c.rhs).goto t .swapping) else none
    | .swapping => some { s.goto t .unlock_b with printed := s.printed ++ [t] }
    | .unlock_b => some ((s.release c.rhs).goto t .unlock_a)
    | .unlock_a => some (((s.release c.lhs).turn t).goto t .loop)

abbrev SwapRuns (calls : T → Call M) : Swaps T M → Swaps T M → Prop := Reach.Runs (step calls) fun _ _ => True

variable {calls : T → Call M} {s s' : Swaps T M} {t : T} {choice : Bool}

def Begins (c : Call M) (p : Point M) : Prop :=
  p = .locking c.lhs c.rhs ∨ (c.use_stdlock = true ∧ p = .locking c.rhs c.lhs)

omit [DecidableEq M] in
theorem attempt_begins (c : Call M) (choice : Bool) : Begins c (attempt c choice) := by
  unfold attempt
  split
  next h => exact .inr ⟨h.1, rfl⟩
  next => exact .inl rfl

theorem step_cases (h : step calls s (t, choice) = some s') :
    (s.point t = .loop ∧ s.left t ≠ 0 ∧ (calls t).lhs = (calls t).rhs ∧ s' = s.turn t) ∨
    (∃ p, s.point t = .loop ∧ s.left t ≠ 0 ∧ (calls t).lhs ≠ (calls t).rhs ∧ Begins (calls t) p ∧ s' = s.goto t p) ∨
    (∃ first second, s.point t = .locking first second ∧ s.owner first = none ∧
      s' = (s.take t first).goto t (if (calls t).use_stdlock then .trying first second else .second)) ∨
    (∃ first second, s.point t = .trying first second ∧ s.owner second = none ∧
      s' = (s.take t second).goto t .swapping) ∨
    (∃ first second, s.point t = .trying first second ∧ s' = s.goto t (.backing first)) ∨
    (∃ first p, s.point t = .backing first ∧ Begins (calls t) p ∧ s' = (s.release first).goto t p) ∨
    (s.point t = .second ∧ s.owner (calls t).rhs = none ∧ s' = (s.take t (calls t).rhs).goto t .swapping) ∨
    (s.point t = .swapping ∧ s' = { s.goto t .unlock_b with printed := s.printed ++ [t] }) ∨
    (s.point t = .unlock_b ∧ s' = (s.release (calls t).rhs).goto t .unlock_a) ∨
    (s.point t = .unlock_a ∧ s' = ((s.release (calls t).lhs).turn t).goto t .loop) := by
  unfold step at h
  cases hp : s.point t with
  | loop =>
    simp only [hp] at h
    split at h
    · cases h
    next hleft =>
      split at h
      next heq =>
        cases h
        exact .inl ⟨rfl, hleft, heq, rfl⟩
      next hne =>
        cases h
        exact .inr (.inl ⟨_, rfl, hleft, hne, attempt_begins _ _, rfl⟩)
  | locking first second =>
    simp only [hp] at h
    split at h
    next hfree =>
      cases h
      exact .inr (.inr (.inl ⟨first, second, rfl, hfree, rfl⟩))
    · cases h
  | trying first second =>
    simp only [hp] at h
    split at h
    next hfree =>
      cases h
      exact .inr (.inr (.inr (.inl ⟨first, second, rfl, hfree.2, rfl⟩)))
    next =>
      cases h
      exact .inr (.inr (.inr (.inr (.inl ⟨first, second, rfl, rfl⟩))))
  | backing first =>
    simp only [hp] at h
    cases h
    exact .inr (.inr (.inr (.inr (.inr (.inl ⟨first, _, rfl, attempt_begins _ _, rfl⟩)))))
  | second =>
    simp only [hp] at h
    split at h
    next hfree =>
      cases h
      exact .inr (.inr (.inr (.inr (.inr (.inr (.inl ⟨rfl, hfree, rfl⟩))))))
    · cases h
  | swapping =>
    simp only [hp] at h
    cases h
    exact .inr (.inr (.inr (.inr (.inr (.inr (.inr (.inl ⟨rfl, rfl⟩)))))))
  | unlock_b =>
    simp only [hp] at h
    cases h
    exact .inr (.inr (.inr (.inr (.inr (.inr (.inr (.inr (.inl ⟨rfl, rfl⟩))))))))
  | unlock_a =>
    simp only [hp] at h
    cases h
    exact .inr (.inr (.inr (.inr (.inr (.inr (.inr (.inr (.inr ⟨rfl, rfl⟩))))))))

end Swaps

end SwapLocks

end CPractice
