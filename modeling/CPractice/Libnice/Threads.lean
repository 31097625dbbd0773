import CPractice.Lib.Reach
import Mathlib.Logic.Basic

/-! The two threads of the threaded libnice example. The main thread runs the main loop, which calls back, and
waits for the other one in the end; that one waits twice for a callback, and may wake without one. A stretch
under a mutex is a step of the thread that calls back, and the test and the wait are steps of the thread that
waits. -/

namespace CPractice

namespace Libnice

open Reach

inductive Wait where
  | gather
  | negotiate
  deriving DecidableEq, Repr

/-- Where `example_thread` is. In `test` and `committed` it has the mutex, before the test of the loop and
before `g_cond_wait`; in `leave` it comes to `if (exit_thread)`, in `ending` to the label `end`. -/
inductive Pc where
  | lock (w : Wait)
  | test (w : Wait)
  | committed (w : Wait)
  | asleep (w : Wait)
  | leave (w : Wait)
  | reading
  | sending
  | ending
  | finished
  deriving DecidableEq, Repr

inductive Main where
  | running
  | leaving
  | joining
  | joined
  deriving DecidableEq, Repr

structure Threads where
  pc : Pc
  main : Main
  quit : Bool
  exit_thread : Bool
  candidate_gathering_done : Bool
  negotiation_done : Bool
  deriving DecidableEq, Repr

def Threads.init : Threads := ⟨.lock .gather, .running, false, false, false, false⟩

def Threads.done (s : Threads) : Wait → Bool
  | .gather => s.candidate_gathering_done
  | .negotiate => s.negotiation_done

def Threads.setDone (s : Threads) : Wait → Threads
  | .gather => { s with candidate_gathering_done := true }
  | .negotiate => { s with negotiation_done := true }

/-- What `g_io_channel_read_line` gives, and whether the line can be parsed. -/
inductive Line where
  | parsed
  | refused
  | again
  | closed
  deriving DecidableEq, Repr

/-- The main loop calls `cb_candidate_gathering_done`, or `cb_component_state_changed` with READY, in `signal`,
and is told to quit, by FAILED or by the byte of the other side, in `stop`. `wake` is a spurious wake-up. -/
inductive Act where
  | thread (line : Line)
  | signal (w : Wait)
  | stop
  | main
  | wake
  deriving DecidableEq, Repr

def example_thread (line : Line) (s : Threads) : Option Threads :=
  match s.pc with
  | .lock w => some { s with pc := .test w }
  | .test w => some { s with pc := if !s.exit_thread && !s.done w then .committed w else .leave w }
  | .committed w => some { s with pc := .asleep w }
  | .asleep _ => none
  | .leave .gather => some { s with pc := if s.exit_thread then .ending else .reading }
  | .leave .negotiate => some { s with pc := if s.exit_thread then .ending else .sending }
  | .reading => some { s with pc := if s.exit_thread || line = .parsed then .lock .negotiate else .reading }
  | .sending => some { s with pc := if s.exit_thread || line = .closed then .ending else .sending }
  | .ending => some { s with pc := .finished, quit := true }
  | .finished => none

/-- The callback needs the mutex, sets its flag and wakes the thread. -/
def callback (w : Wait) (s : Threads) : Option Threads :=
  if s.pc = .test w ∨ s.pc = .committed w then none
  else some { s.setDone w with pc := if s.pc = .asleep w then .test w else s.pc }

/-- `g_cond_wait` may return without a signal, and has locked the mutex again. -/
def wake (s : Threads) : Option Threads :=
  match s.pc with
  | .asleep w => some { s with pc := .test w }
  | _ => none

def main (s : Threads) : Option Threads :=
  match s.main with
  | .running => if s.quit then some { s with main := .leaving } else none
  | .leaving => some { s with main := .joining, exit_thread := true }
  | .joining => if s.pc = .finished then some { s with main := .joined } else none
  | .joined => none

def step (s : Threads) : Act → Option Threads
  | .thread line => example_thread line s
  | .signal w => if s.main = .running then callback w s else none
  | .stop => if s.main = .running then some { s with quit := true } else none
  | .main => main s
  | .wake => wake s

abbrev ThreadRuns : Threads → Threads → Prop := Runs step fun _ _ => True

/-- Only a callback or a spurious wake-up can wake the thread. -/
def Threads.Doomed (s : Threads) : Prop := ∃ w, s.pc = .committed w ∨ s.pc = .asleep w

structure Threads.Inv (s : Threads) : Prop where
  awake : ∀ w, s.done w = true → s.pc ≠ .committed w ∧ s.pc ≠ .asleep w
  exit_iff : s.exit_thread = true ↔ s.main = .joining ∨ s.main = .joined
  joined : s.main = .joined → s.pc = .finished

theorem init_inv : Threads.init.Inv where
  awake w h := by cases w <;> cases h
  exit_iff := by decide
  joined h := by cases h

variable {s s' : Threads}

theorem example_thread_frame {line : Line} (h : example_thread line s = some s') :
    s'.main = s.main ∧ s'.exit_thread = s.exit_thread ∧ (∀ w, s'.done w = s.done w) ∧ s.pc ≠ .finished := by
  rw [example_thread] at h
  split at h <;> cases h <;> exact ⟨rfl, rfl, fun w => by cases w <;> rfl, by simp [*]⟩

theorem waits_of_thread {line : Line} (h : example_thread line s = some s') {w : Wait} :
    (s'.pc = .committed w → s.pc = .test w ∧ s.exit_thread = false ∧ s.done w = false) ∧
      (s'.pc = .asleep w → s.pc = .committed w) := by
  rw [example_thread] at h
  split at h
  case h_2 v hpc =>
    cases h
    dsimp only
    split
    case isTrue hwait =>
      simp only [Bool.and_eq_true, Bool.not_eq_true'] at hwait
      refine ⟨fun he => ?_, fun he => Pc.noConfusion he⟩
      cases he
      exact ⟨hpc, hwait⟩
    case isFalse => exact ⟨fun he => Pc.noConfusion he, fun he => Pc.noConfusion he⟩
  case h_3 v hpc =>
    cases h
    refine ⟨fun he => Pc.noConfusion he, fun he => ?_⟩
    cases he
    exact hpc
  all_goals cases h
  all_goals
    dsimp only
    try split
  all_goals exact ⟨fun he => Pc.noConfusion he, fun he => Pc.noConfusion he⟩

theorem done_setDone (s : Threads) (w w' : Wait) : (s.setDone w).done w' = (decide (w' = w) || s.done w') := by
  cases w <;> cases w' <;> rfl

theorem callback_cases {w : Wait} (h : callback w s = some s') :
    s.pc ≠ .test w ∧ s.pc ≠ .committed w ∧ s'.main = s.main ∧ s'.exit_thread = s.exit_thread ∧
      (∀ w', s'.done w' = (decide (w' = w) || s.done w')) ∧
      (s.pc = .asleep w ∧ s'.pc = .test w ∨ s.pc ≠ .asleep w ∧ s'.pc = s.pc) := by
  rw [callback] at h
  split at h
  case isTrue => cases h
  case isFalse hnot =>
    rw [not_or] at hnot
    cases h
    refine ⟨hnot.1, hnot.2, by cases w <;> rfl, by cases w <;> rfl, fun w' => done_setDone s w w', ?_⟩
    by_cases hasleep : s.pc = .asleep w
    · exact .inl ⟨hasleep, if_pos hasleep⟩
    · exact .inr ⟨hasleep, if_neg hasleep⟩

theorem main_cases (h : main s = some s') : s'.pc = s.pc ∧ (∀ w, s'.done w = s.done w) ∧
    (s.main = .running ∧ s'.main = .leaving ∧ s'.exit_thread = s.exit_thread ∨
      s.main = .leaving ∧ s'.main = .joining ∧ s'.exit_thread = true ∨
      s.main = .joining ∧ s'.main = .joined ∧ s'.exit_thread = s.exit_thread ∧ s.pc = .finished) := by
  rw [main] at h
  split at h
  case h_1 hmain =>
    split at h
    · cases h
      exact ⟨rfl, fun w => by cases w <;> rfl, .inl ⟨hmain, rfl, rfl⟩⟩
    · cases h
  case h_2 hmain =>
    cases h
    exact ⟨rfl, fun w => by cases w <;> rfl, .inr (.inl ⟨hmain, rfl, rfl⟩)⟩
  case h_3 hmain =>
    split at h
    case isTrue hpc =>
      cases h
      exact ⟨rfl, fun w => by cases w <;> rfl, .inr (.inr ⟨hmain, rfl, rfl, hpc⟩)⟩
    case isFalse => cases h
  case h_4 => cases h

theorem wake_cases (h : wake s = some s') : ∃ w, s.pc = .asleep w ∧ s' = { s with pc := .test w } := by
  rw [wake] at h
  split at h
  case h_1 w hpc =>
    cases h
    exact ⟨w, hpc, rfl⟩
  case h_2 => cases h

theorem step_inv {a : Act} (hi : s.Inv) (h : step s a = some s') : s'.Inv := by
  cases a with
  | thread line =>
    obtain ⟨hmain, hexit, hdone, hpc⟩ := example_thread_frame h
    refine ⟨fun w hw => ?_, by rw [hexit, hmain]; exact hi.exit_iff, fun hj => ?_⟩
    · rw [hdone] at hw
      obtain ⟨hcommitted, hasleep⟩ := waits_of_thread h (w := w)
      refine ⟨fun hpc' => ?_, fun hpc' => (hi.awake w hw).1 (hasleep hpc')⟩
      rw [(hcommitted hpc').2.2] at hw
      cases hw
    · rw [hmain] at hj
      exact absurd (hi.joined hj) hpc
  | signal w =>
    rw [step] at h
    split at h
    case isTrue hrunning =>
      obtain ⟨htest, hcommitted, hmain, hexit, hdone, hpc⟩ := callback_cases h
      refine ⟨fun w' hw' => ?_, by rw [hexit, hmain]; exact hi.exit_iff, fun hj => ?_⟩
      · rcases hpc with ⟨-, hpc⟩ | ⟨hasleep, hpc⟩
        · simp [hpc]
        · rw [hpc]
          by_cases hw : w' = w
          · rw [hw]
            exact ⟨hcommitted, hasleep⟩
          · rw [hdone, decide_eq_false hw, Bool.false_or] at hw'
            exact hi.awake w' hw'
      · rw [hmain, hrunning] at hj
        cases hj
    case isFalse => cases h
  | stop =>
    rw [step] at h
    split at h
    case isTrue =>
      cases h
      exact ⟨fun w hw => hi.awake w (by cases w <;> exact hw), hi.exit_iff, hi.joined⟩
    case isFalse => cases h
  | main =>
    obtain ⟨hpc, hdone, hcases⟩ := main_cases h
    refine ⟨fun w hw => ?_, ?_, fun hj => ?_⟩
    · rw [hpc]
      rw [hdone] at hw
      exact hi.awake w hw
    · rcases hcases with ⟨hold, hnew, hexit⟩ | ⟨-, hnew, hexit⟩ | ⟨hold, hnew, hexit, -⟩
      · rw [hexit, hi.exit_iff, hold, hnew]
        simp
      · simp [hexit, hnew]
      · rw [hexit, hi.exit_iff, hold, hnew]
        simp
    · rcases hcases with ⟨-, hnew, -⟩ | ⟨-, hnew, -⟩ | ⟨-, -, -, hfinished⟩
      · rw [hnew] at hj
        cases hj
      · rw [hnew] at hj
        cases hj
      · rw [hpc, hfinished]
  | wake =>
    obtain ⟨w, hpc, rfl⟩ := wake_cases h
    refine ⟨fun w' _ => by simp, hi.exit_iff, fun hj => ?_⟩
    have hfinished := hi.joined hj
    rw [hpc] at hfinished
    cases hfinished

theorem runs_inv (h : ThreadRuns Threads.init s) : s.Inv :=
  h.invariant _ init_inv fun _ _ _ hi _ he => step_inv hi he

def Threads.work (s : Threads) : Nat :=
  match s.main with
  | .joined => 0
  | _ =>
    match s.pc with
    | .lock _ => 5
    | .test _ => 4
    | .committed _ => 6
    | .asleep _ => 5
    | .leave _ => 3
    | .reading => 6
    | .sending => 3
    | .ending => 2
    | .finished => 1

def Threads.Closing (s : Threads) : Prop :=
  s.exit_thread = true ∧ (s.main = .joining ∨ s.main = .joined ∧ s.pc = .finished)

theorem closing_thread {line : Line} (hexit : s.exit_thread = true) (hmain : s.main = .joining)
    (h : example_thread line s = some s') : s'.work + 1 = s.work ∧ (s'.Doomed ↔ s.Doomed) := by
  obtain ⟨hmain', -, -, -⟩ := example_thread_frame h
  simp only [Threads.work, Threads.Doomed, hmain'.trans hmain, hmain]
  rw [example_thread] at h
  cases hpc : s.pc with
  | leave w => cases w <;> simp [hpc, hexit] at h <;> simp [← h]
  | _ => simp [hpc, hexit] at h <;> simp [← h]

/-- Once the main thread waits, the test of the loop lets the thread pass, so no step dooms it, and only a
spurious wake-up saves it. -/
theorem closing_step {a : Act} (hc : s.Closing) (h : step s a = some s') :
    s'.Closing ∧ s'.work + 1 = s.work ∧ (s'.Doomed ↔ s.Doomed ∧ a ≠ .wake) := by
  obtain ⟨hexit, hmain | ⟨hmain, hpc⟩⟩ := hc
  · cases a with
    | thread line =>
      obtain ⟨hmain', hexit', -, -⟩ := example_thread_frame h
      obtain ⟨hwork, hdoomed⟩ := closing_thread hexit hmain h
      exact ⟨⟨hexit'.trans hexit, .inl (hmain'.trans hmain)⟩, hwork, by simpa using hdoomed⟩
    | signal w => simp [step, hmain] at h
    | stop => simp [step, hmain] at h
    | main =>
      simp only [step, main, hmain] at h
      split at h
      case isTrue hpc =>
        cases h
        refine ⟨⟨hexit, .inr ⟨rfl, hpc⟩⟩, ?_, by simp [Threads.Doomed]⟩
        simp [Threads.work, hmain, hpc]
      case isFalse => cases h
    | wake =>
      obtain ⟨w, hpc, rfl⟩ := wake_cases h
      exact ⟨⟨hexit, .inl hmain⟩, by simp [Threads.work, hmain, hpc], by simp [Threads.Doomed]⟩
  · cases a with
    | thread line => simp [step, example_thread, hpc] at h
    | signal w => simp [step, hmain] at h
    | stop => simp [step, hmain] at h
    | main => simp [step, main, hmain] at h
    | wake => simp [step, wake, hpc] at h

theorem closing_run {as : List Act} (hc : s.Closing) (h : run step as s = some s') :
    s'.Closing ∧ as.length + s'.work = s.work ∧ (s'.Doomed ↔ s.Doomed ∧ .wake ∉ as) := by
  induction as generalizing s with
  | nil =>
    cases h
    exact ⟨hc, by simp, by simp⟩
  | cons a as ih =>
    obtain ⟨s₁, he, hrest⟩ := Option.bind_eq_some_iff.mp h
    obtain ⟨hc₁, hwork₁, hdoomed₁⟩ := closing_step hc he
    obtain ⟨hc', hwork', hdoomed'⟩ := ih hc₁ hrest
    refine ⟨hc', ?_, ?_⟩
    · rw [List.length_cons]
      omega
    · rw [hdoomed', hdoomed₁, List.mem_cons, not_or, and_assoc, ne_comm]

theorem work_le_six (s : Threads) : s.work ≤ 6 := by
  rw [Threads.work]
  split
  · omega
  · split <;> omega

theorem closing_stuck (hc : s.Closing) (hstuck : ∀ a, a ≠ .wake → step s a = none) :
    s.main = .joined ↔ ¬ s.Doomed := by
  obtain ⟨hexit, hmain | ⟨hmain, hpc⟩⟩ := hc
  · have hthread := hstuck (.thread .again) (by decide)
    have hjoin := hstuck .main (by decide)
    rw [hmain]
    cases hpc : s.pc with
    | asleep w => simp [Threads.Doomed, hpc]
    | finished => simp [step, main, hmain, hpc] at hjoin
    | leave w => cases w <;> simp [step, example_thread, hpc] at hthread
    | _ => simp [step, example_thread, hpc] at hthread
  · simp [Threads.Doomed, hmain, hpc]

/-- No signal is lost. But when the main loop has ended nobody signals, so the program ends if and only if the
other thread was not about to wait, or waiting, when `exit_thread` was set, or wakes without a reason. -/
theorem threaded_example_ends_iff (h : ThreadRuns Threads.init s) :
    (∀ w, s.done w = true → s.pc ≠ .committed w ∧ s.pc ≠ .asleep w) ∧
      (s.exit_thread = true → ∀ as s', run step as s = some s' →
        as.length ≤ 6 ∧ (s'.main = .joined → ¬ s.Doomed ∨ .wake ∈ as) ∧
          ((∀ a, a ≠ .wake → step s' a = none) → (s'.main = .joined ↔ ¬ s.Doomed ∨ .wake ∈ as))) := by
  have hi := runs_inv h
  refine ⟨hi.awake, fun hexit as s' hrun => ?_⟩
  have hclosing : s.Closing := by
    rcases hi.exit_iff.mp hexit with hmain | hmain
    · exact ⟨hexit, .inl hmain⟩
    · exact ⟨hexit, .inr ⟨hmain, hi.joined hmain⟩⟩
  obtain ⟨hclosing', hwork, hdoomed⟩ := closing_run hclosing hrun
  have hle := work_le_six s
  have hdoomed' : ¬ s'.Doomed ↔ ¬ s.Doomed ∨ .wake ∈ as := by rw [hdoomed, not_and_or, not_not]
  refine ⟨by omega, fun hmain => hdoomed'.mp ?_, fun hstuck => (closing_stuck hclosing' hstuck).trans hdoomed'⟩
  rcases hclosing'.2 with hmain' | ⟨-, hpc⟩
  · rw [hmain] at hmain'
    cases hmain'
  · simp [Threads.Doomed, hpc]

def failing : List Act :=
  [.thread .again, .signal .negotiate, .thread .again, .thread .again, .stop, .main, .main]

theorem threaded_example_ends_iff_failing : ∃ s, ThreadRuns Threads.init s ∧ s.exit_thread = true ∧
    (∀ as s', run step as s = some s' → .wake ∉ as → s'.main ≠ .joined) ∧
      ∀ s', run step [.wake, .thread .again, .thread .again, .thread .again, .main] s = some s' →
        s'.main = .joined := by
  have hrun : run step failing Threads.init =
      some ⟨.asleep .gather, .joining, true, true, false, true⟩ := by decide
  have hruns := runs_of_run_any hrun
  have hends := (threaded_example_ends_iff hruns).2 rfl
  refine ⟨_, hruns, rfl, fun as s' h hwake hmain => ?_, fun s' h => ?_⟩
  · exact ((hends as s' h).2.1 hmain).elim (fun hdoomed => hdoomed ⟨.gather, .inr rfl⟩) hwake
  · cases h
    rfl

end Libnice

end CPractice
