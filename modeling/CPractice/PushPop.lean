import CPractice.Lib.Reach
import Mathlib.Data.List.Perm.Basic

/-! The programs that push into a container in one thread and pop in another until the main
thread sets `done`: `6_1` with the stack, whose `pop` throws, `6_2` and `6_3` with the queues,
whose `wait_and_pop` blocks. A critical section of the container is one step. -/

namespace CPractice

namespace PushPop

inductive Container where
  | stack
  | queue
  deriving DecidableEq, Repr

/-- Where a thread is: it tests `done`, is in a call of the container, or waits for a notification. -/
inductive Point where
  | testing
  | calling
  | waiting
  | finished
  deriving DecidableEq, Repr

inductive Main where
  | sleeping
  | joining_t1
  | joining_t2
  | returned
  deriving DecidableEq, Repr

/-- `pushed` and `popped` are the values in the order of the calls. -/
structure Driver (V : Type) where
  done : Bool
  data : List V
  t1 : Point
  t2 : Point
  main : Main
  pushed : List V
  popped : List V

/-- `wake` is a spurious wake-up. -/
inductive Act (V : Type) where
  | main
  | push (value : V)
  | pop
  | wake

variable {V : Type} {c : Container} {s s' : Driver V}

def start (V : Type) : Driver V := ⟨false, [], .testing, .testing, .sleeping, [], []⟩

def Container.take : Container → List V → Option (V × List V)
  | .stack, data => data.getLast?.map fun v => (v, data.dropLast)
  | .queue, data => data.head?.map fun v => (v, data.tail)

def Driver.push (s : Driver V) (value : V) : Driver V :=
  { s with
    data := s.data ++ [value]
    pushed := s.pushed ++ [value]
    t1 := .testing
    t2 := if s.t2 = .waiting then .calling else s.t2 }

/-- On an empty stack `pop` throws, and the exception is caught in the loop. -/
def Driver.pop (c : Container) (s : Driver V) : Driver V :=
  match c.take s.data with
  | some (value, data) => { s with data, popped := s.popped ++ [value], t2 := .testing }
  | none => { s with t2 := if c = .stack then .testing else .waiting }

def step (c : Container) (s : Driver V) : Act V → Option (Driver V)
  | .main =>
    match s.main with
    | .sleeping => some { s with done := true, main := .joining_t1 }
    | .joining_t1 => if s.t1 = .finished then some { s with main := .joining_t2 } else none
    | .joining_t2 => if s.t2 = .finished then some { s with main := .returned } else none
    | .returned => none
  | .push value =>
    match s.t1 with
    | .testing => some { s with t1 := if s.done then .finished else .calling }
    | .calling => some (s.push value)
    | _ => none
  | .pop =>
    match s.t2 with
    | .testing => some { s with t2 := if s.done then .finished else .calling }
    | .calling => some (s.pop c)
    | _ => none
  | .wake => if s.t2 = .waiting then some { s with t2 := .calling } else none

abbrev DriverRuns (c : Container) : Driver V → Driver V → Prop := Reach.Runs (step c) fun _ _ => True

/-- A queue hands out the values in the order in which they came. -/
def Flow : Container → List V → List V → List V → Prop
  | .stack, pushed, popped, data => pushed.Perm (popped ++ data)
  | .queue, pushed, popped, data => pushed = popped ++ data

/-- The thread that pops waits, or is about to wait, for a value that nobody will push. -/
def Driver.Doomed (c : Container) (s : Driver V) : Prop :=
  c = .queue ∧ (s.t2 = .calling ∨ s.t2 = .waiting) ∧ s.data = [] ∧ s.t1 ≠ .calling

section Steps

theorem take_eq_none {data : List V} : c.take data = none ↔ data = [] := by
  cases c <;> simp [Container.take]

theorem pop_cases (c : Container) (s : Driver V) :
    (∃ value data, c.take s.data = some (value, data) ∧
      s.pop c = { s with data, popped := s.popped ++ [value], t2 := .testing }) ∨
    (c = .stack ∧ s.data = [] ∧ s.pop c = { s with t2 := .testing }) ∨
    (c = .queue ∧ s.data = [] ∧ s.pop c = { s with t2 := .waiting }) := by
  cases htake : c.take s.data with
  | some r =>
    left
    exact ⟨r.1, r.2, rfl, by simp only [Driver.pop, htake]⟩
  | none =>
    have hnil := take_eq_none.mp htake
    cases c with
    | stack => exact .inr (.inl ⟨rfl, hnil, by simp [Driver.pop, htake]⟩)
    | queue => exact .inr (.inr ⟨rfl, hnil, by simp [Driver.pop, htake]⟩)

theorem step_cases {a : Act V} (h : step c s a = some s') :
    (a = .main ∧ s.main = .sleeping ∧ s' = { s with done := true, main := .joining_t1 }) ∨
    (a = .main ∧ s.main = .joining_t1 ∧ s.t1 = .finished ∧ s' = { s with main := .joining_t2 }) ∨
    (a = .main ∧ s.main = .joining_t2 ∧ s.t2 = .finished ∧ s' = { s with main := .returned }) ∨
    ((∃ value, a = .push value) ∧ s.t1 = .testing ∧
      s' = { s with t1 := if s.done then .finished else .calling }) ∨
    (∃ value, a = .push value ∧ s.t1 = .calling ∧ s' = s.push value) ∨
    (a = .pop ∧ s.t2 = .testing ∧ s' = { s with t2 := if s.done then .finished else .calling }) ∨
    (a = .pop ∧ s.t2 = .calling ∧ s' = s.pop c) ∨
    (a = .wake ∧ s.t2 = .waiting ∧ s' = { s with t2 := .calling }) := by
  cases a with
  | main => cases hmain : s.main <;> simp [step, hmain] at h ⊢ <;> tauto
  | push value => cases ht : s.t1 <;> simp [step, ht] at h ⊢ <;> tauto
  | pop => cases ht : s.t2 <;> simp [step, ht] at h ⊢ <;> tauto
  | wake =>
    simp [step] at h ⊢
    tauto

theorem Flow.push {pushed popped data : List V} (h : Flow c pushed popped data) (value : V) :
    Flow c (pushed ++ [value]) popped (data ++ [value]) := by
  cases c with
  | stack =>
    show (pushed ++ [value]).Perm (popped ++ (data ++ [value]))
    rw [← List.append_assoc]
    exact List.Perm.append_right [value] h
  | queue =>
    show pushed ++ [value] = popped ++ (data ++ [value])
    rw [show pushed = popped ++ data from h, List.append_assoc]

theorem Flow.take {pushed popped data data' : List V} {value : V} (h : Flow c pushed popped data)
    (htake : c.take data = some (value, data')) : Flow c pushed (popped ++ [value]) data' := by
  cases c with
  | stack =>
    obtain ⟨last, hlast, hr⟩ := Option.map_eq_some_iff.mp htake
    cases hr
    have hdata := List.dropLast_append_getLast? value hlast
    show pushed.Perm (popped ++ [value] ++ data.dropLast)
    rw [List.append_assoc]
    refine List.Perm.trans h ((List.Perm.append_left popped ?_))
    nth_rewrite 1 [← hdata]
    exact List.perm_append_comm
  | queue =>
    obtain ⟨first, hfirst, hr⟩ := Option.map_eq_some_iff.mp htake
    cases hr
    show pushed = popped ++ [value] ++ data.tail
    rw [show pushed = popped ++ data from h, List.append_assoc, List.singleton_append]
    congr 1
    exact (List.cons_head?_tail hfirst).symm

structure Inv (c : Container) (s : Driver V) : Prop where
  flow : Flow c s.pushed s.popped s.data
  done_iff : s.done = true ↔ s.main ≠ .sleeping
  waiting : s.t2 = .waiting → c = .queue ∧ s.data = []
  t1 : s.t1 ≠ .waiting
  returned : s.main = .returned → s.t2 = .finished

theorem start_inv (c : Container) : Inv c (start V) := by
  refine ⟨?_, by simp [start], by simp [start], by simp [start], by simp [start]⟩
  cases c with
  | stack => exact List.Perm.refl []
  | queue => rfl

theorem step_inv {a : Act V} (h : Inv c s) (he : step c s a = some s') : Inv c s' := by
  rcases step_cases he with ⟨-, hmain, rfl⟩ | ⟨-, hmain, -, rfl⟩ | ⟨-, hmain, ht, rfl⟩ | ⟨-, ht, rfl⟩ |
    ⟨value, -, ht, rfl⟩ | ⟨-, ht, rfl⟩ | ⟨-, ht, rfl⟩ | ⟨-, ht, rfl⟩
  · exact ⟨h.flow, by simp, h.waiting, h.t1, by simp⟩
  · exact ⟨h.flow, by simp [h.done_iff, hmain], h.waiting, h.t1, by simp⟩
  · exact ⟨h.flow, by simp [h.done_iff, hmain], h.waiting, h.t1, fun _ => ht⟩
  · exact ⟨h.flow, h.done_iff, h.waiting, by dsimp only; split <;> simp, h.returned⟩
  · refine ⟨h.flow.push value, h.done_iff, fun hw => ?_, by simp [Driver.push], fun hm => ?_⟩
    · -- the notification has woken it
      by_cases hwait : s.t2 = .waiting <;> simp [Driver.push, hwait] at hw
    · simp [Driver.push, h.returned hm]
  · have hmain : s.main ≠ .returned := fun hm => by simp [h.returned hm] at ht
    exact ⟨h.flow, h.done_iff, by dsimp only; split <;> simp, h.t1, fun hm => absurd hm hmain⟩
  · have hmain : s.main ≠ .returned := fun hm => by simp [h.returned hm] at ht
    rcases pop_cases c s with ⟨value, data, htake, hpop⟩ | ⟨-, -, hpop⟩ | ⟨hc, hnil, hpop⟩
    · rw [hpop]
      exact ⟨h.flow.take htake, h.done_iff, by simp, h.t1, fun hm => absurd hm hmain⟩
    · rw [hpop]
      exact ⟨h.flow, h.done_iff, by simp, h.t1, fun hm => absurd hm hmain⟩
    · rw [hpop]
      exact ⟨h.flow, h.done_iff, fun _ => ⟨hc, hnil⟩, h.t1, fun hm => absurd hm hmain⟩
  · have hmain : s.main ≠ .returned := fun hm => by simp [h.returned hm] at ht
    exact ⟨h.flow, h.done_iff, by simp, h.t1, fun hm => absurd hm hmain⟩

end Steps

section Ending

theorem doomed_step {a : Act V} (hdone : s.done = true) (hmain : s.main ≠ .returned) (hdoomed : s.Doomed c)
    (he : step c s a = some s') : s'.done = true ∧ s'.main ≠ .returned ∧ s'.Doomed c := by
  obtain ⟨hc, ht2, hnil, ht1⟩ := hdoomed
  rcases step_cases he with ⟨-, -, rfl⟩ | ⟨-, -, -, rfl⟩ | ⟨-, -, hfinished, rfl⟩ | ⟨-, -, rfl⟩ |
    ⟨value, -, ht, -⟩ | ⟨-, ht, -⟩ | ⟨-, -, rfl⟩ | ⟨-, -, rfl⟩
  · exact ⟨rfl, by simp, hc, ht2, hnil, ht1⟩
  · exact ⟨hdone, by simp, hc, ht2, hnil, ht1⟩
  · rcases ht2 with ht2 | ht2 <;> rw [hfinished] at ht2 <;> cases ht2
  · exact ⟨hdone, hmain, hc, ht2, hnil, by simp [hdone]⟩
  · exact absurd ht ht1
  · rcases ht2 with ht2 | ht2 <;> rw [ht] at ht2 <;> cases ht2
  · rcases pop_cases c s with ⟨value, data, htake, -⟩ | ⟨hstack, -, -⟩ | ⟨-, -, hpop⟩
    · rw [take_eq_none.mpr hnil] at htake
      cases htake
    · rw [hc] at hstack
      cases hstack
    · rw [hpop]
      exact ⟨hdone, hmain, hc, .inr rfl, hnil, ht1⟩
  · exact ⟨hdone, hmain, hc, .inl rfl, hnil, ht1⟩

def Point.work : Point → Nat
  | .testing => 1
  | .calling => 3
  | .waiting => 2
  | .finished => 0

def Main.work : Main → Nat
  | .sleeping => 3
  | .joining_t1 => 2
  | .joining_t2 => 1
  | .returned => 0

def Driver.work (s : Driver V) : Nat := s.t1.work + s.t2.work + s.main.work

structure Ending (c : Container) (s : Driver V) : Prop extends Inv c s where
  done : s.done = true
  not_doomed : ¬ s.Doomed c

theorem ending_step {a : Act V} (h : Ending c s) (ha : a ≠ .wake) (he : step c s a = some s') :
    Ending c s' ∧ s'.work < s.work := by
  have hinv := step_inv h.toInv he
  have hdone := h.done
  have hnot := h.not_doomed
  rcases step_cases he with ⟨-, hmain, -⟩ | ⟨-, hmain, -, rfl⟩ | ⟨-, hmain, -, rfl⟩ | ⟨-, ht, rfl⟩ |
    ⟨value, -, ht, rfl⟩ | ⟨-, ht, rfl⟩ | ⟨-, ht, rfl⟩ | ⟨hwake, -⟩
  · exact absurd hmain (h.done_iff.mp hdone)
  · refine ⟨⟨hinv, hdone, hnot⟩, ?_⟩
    simp [Driver.work, hmain, Main.work]
  · refine ⟨⟨hinv, hdone, hnot⟩, ?_⟩
    simp [Driver.work, hmain, Main.work]
  · refine ⟨⟨hinv, hdone, ?_⟩, ?_⟩
    · rintro ⟨hc, ht2, hnil, -⟩
      exact hnot ⟨hc, ht2, hnil, by simp [ht]⟩
    · simp [Driver.work, ht, hdone, Point.work]
  · refine ⟨⟨hinv, hdone, fun hdoomed => absurd hdoomed.2.2.1 (by simp [Driver.push])⟩, ?_⟩
    by_cases hw : s.t2 = .waiting <;> simp [Driver.work, Driver.push, ht, hw, Point.work]
  · refine ⟨⟨hinv, hdone, ?_⟩, ?_⟩
    · rintro ⟨-, ht2, -⟩
      simp [hdone] at ht2
    · simp [Driver.work, ht, hdone, Point.work]
  · rcases pop_cases c s with ⟨value, data, -, hpop⟩ | ⟨-, -, hpop⟩ | ⟨hc, hnil, hpop⟩
    · rw [hpop] at hinv ⊢
      exact ⟨⟨hinv, hdone, by simp [Driver.Doomed]⟩, by simp [Driver.work, ht, Point.work]⟩
    · rw [hpop] at hinv ⊢
      exact ⟨⟨hinv, hdone, by simp [Driver.Doomed]⟩, by simp [Driver.work, ht, Point.work]⟩
    · rw [hpop] at hinv ⊢
      refine ⟨⟨hinv, hdone, ?_⟩, by simp [Driver.work, ht, Point.work]⟩
      rintro ⟨-, -, -, ht1⟩
      exact hnot ⟨hc, .inl ht, hnil, ht1⟩
  · exact absurd hwake ha

theorem work_le_eight (h : Ending c s) : s.work ≤ 8 := by
  have hmain := h.done_iff.mp h.done
  have hpoint : ∀ p : Point, p.work ≤ 3 := fun p => by cases p <;> decide
  have ht1 := hpoint s.t1
  have ht2 := hpoint s.t2
  have hwork : s.main.work ≤ 2 := by
    cases hm : s.main <;> simp_all [Main.work]
  rw [Driver.work]
  omega

theorem ending_stuck [Inhabited V] (h : Ending c s) (hstuck : ∀ a : Act V, a ≠ .wake → step c s a = none) :
    s.main = .returned := by
  have ht1 : s.t1 = .finished := by
    have hpush := hstuck (.push default) (by simp)
    have hw := h.t1
    cases ht : s.t1 <;> simp_all [step]
  have ht2 : s.t2 = .finished := by
    have hpop := hstuck .pop (by simp)
    cases ht : s.t2 with
    | testing => simp [step, ht] at hpop
    | calling => simp [step, ht] at hpop
    | waiting =>
      obtain ⟨hc, hnil⟩ := h.waiting ht
      exact absurd ⟨hc, .inr ht, hnil, by simp [ht1]⟩ h.not_doomed
    | finished => rfl
  have hmain := hstuck .main (by simp)
  have hsleeping := h.done_iff.mp h.done
  cases hm : s.main <;> simp_all [step]

/-- No value is lost or popped twice. Once `done` is set, `main` never returns if the popping thread
is in `wait_and_pop` of an empty queue and the pushing thread is not in `push`. In all other cases at
most eight steps are left, and they lead to the end; so with the stack the program always ends. -/
theorem driver_returns_iff [Inhabited V] (h : DriverRuns c (start V) s) :
    Flow c s.pushed s.popped s.data ∧
      (s.done = true → s.Doomed c → ∀ s', DriverRuns c s s' → s'.main ≠ .returned) ∧
      (s.done = true → ¬ s.Doomed c → ∀ as s', (∀ a ∈ as, a ≠ .wake) → Reach.run (step c) as s = some s' →
        as.length ≤ 8 ∧ ((∀ a : Act V, a ≠ .wake → step c s' a = none) → s'.main = .returned)) := by
  have hinv : Inv c s := h.invariant (Inv c) (start_inv c) fun _ _ _ hi _ he => step_inv hi he
  refine ⟨hinv.flow, ?_, ?_⟩
  · intro hdone hdoomed s' hrun
    have hmain : s.main ≠ .returned := fun hm => by simp [Driver.Doomed, hinv.returned hm] at hdoomed
    have hstays := hrun.invariant (fun s => s.done = true ∧ s.main ≠ .returned ∧ s.Doomed c)
      ⟨hdone, hmain, hdoomed⟩ fun _ _ _ hi _ he => doomed_step hi.1 hi.2.1 hi.2.2 he
    exact hstays.2.1
  · intro hdone hnot as s' has hrun
    have hending : Ending c s := ⟨hinv, hdone, hnot⟩
    obtain ⟨hending', hlen⟩ := Reach.run_bounded (Ending c) (fun a => a ≠ .wake) Driver.work
      (fun s a s' hi ha he => ending_step hi ha he) has hending hrun
    have hle := work_le_eight hending
    exact ⟨by omega, ending_stuck hending'⟩

theorem driver_returns_iff_hangs : ∃ s : Driver Nat, DriverRuns .queue (start Nat) s ∧ s.popped = [7] ∧
    s.done = true ∧ ∀ s', DriverRuns .queue s s' → s'.main ≠ .returned := by
  have hrun : Reach.run (step .queue) [.push 0, .push 7, .pop, .pop, .pop, .pop, .main, .push 0] (start Nat) =
      some ⟨true, [], .finished, .waiting, .joining_t1, [7], [7]⟩ := rfl
  have hruns := Reach.runs_of_run_any hrun
  refine ⟨_, hruns, rfl, rfl, ?_⟩
  exact (driver_returns_iff hruns).2.1 rfl ⟨rfl, .inr rfl, rfl, by simp⟩

end Ending

end PushPop

end CPractice
