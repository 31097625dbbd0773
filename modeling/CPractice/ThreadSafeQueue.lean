import CPractice.Lib.Reach
import Mathlib.Data.Finset.Card
import Mathlib.Data.List.Basic

/-! The class `thread_safe_queue`, used by any number of threads. Each stretch under
the mutex is one step, and `notify_one` picks any thread that waits. The overloads
of `try_pop` and `wait_and_pop` differ only in where the value goes. -/

namespace CPractice

/-- `waiting` are blocked in `m_cond.wait`, `notified` and `awake` (woken for no reason)
have yet to get the mutex. `pushed` has the arguments of `push`, and `popped` what the calls that pop returned. -/
structure ThreadSafeQueue (T V : Type) where
  m_queue : List V
  waiting : Finset T
  notified : Finset T
  awake : Finset T
  pushed : List V
  popped : List V

namespace ThreadSafeQueue

variable {T V : Type}

def start (T V : Type) : ThreadSafeQueue T V :=
  { m_queue := [], waiting := ∅, notified := ∅, awake := ∅, pushed := [], popped := [] }

def Outside (q : ThreadSafeQueue T V) (t : T) : Prop :=
  t ∉ q.waiting ∧ t ∉ q.notified ∧ t ∉ q.awake

def empty (q : ThreadSafeQueue T V) : Bool := q.m_queue.isEmpty

def try_pop (q : ThreadSafeQueue T V) : Option V × ThreadSafeQueue T V :=
  match q.m_queue with
  | [] => (none, q)
  | v :: vs => (some v, { q with m_queue := vs })

variable [DecidableEq T]

def notify_one (q : ThreadSafeQueue T V) : Option T → Option (ThreadSafeQueue T V)
  | none => if q.waiting = ∅ then some q else none
  | some w =>
    if w ∈ q.waiting then
      some { q with waiting := q.waiting.erase w, notified := insert w q.notified }
    else none

def push (q : ThreadSafeQueue T V) (new_value : V) (woken : Option T) : Option (ThreadSafeQueue T V) :=
  notify_one { q with m_queue := q.m_queue ++ [new_value], pushed := q.pushed ++ [new_value] } woken

/-- From the test of the predicate on: the thread blocks or pops. -/
def wait_and_pop (q : ThreadSafeQueue T V) (t : T) : Option V × ThreadSafeQueue T V :=
  if q.empty then (none, { q with waiting := insert t q.waiting }) else q.try_pop

def resume (q : ThreadSafeQueue T V) (t : T) : Option V × ThreadSafeQueue T V :=
  wait_and_pop { q with notified := q.notified.erase t, awake := q.awake.erase t } t

def returned (r : Option V × ThreadSafeQueue T V) : ThreadSafeQueue T V :=
  { r.2 with popped := r.2.popped ++ r.1.toList }

/-- `throws` is a `push` whose `make_shared` throws, `spurious` a wake-up without a
notification. -/
inductive Act (T V : Type) where
  | push (t : T) (new_value : V) (woken : Option T)
  | throws (t : T) (new_value : V)
  | try_pop (t : T)
  | wait_and_pop (t : T)
  | empty (t : T)
  | spurious (t : T)
  | resume (t : T)

instance Outside.decidable (q : ThreadSafeQueue T V) (t : T) : Decidable (q.Outside t) :=
  inferInstanceAs (Decidable (_ ∧ _ ∧ _))

def step (q : ThreadSafeQueue T V) : Act T V → Option (ThreadSafeQueue T V)
  | .push t new_value woken => if q.Outside t then q.push new_value woken else none
  | .throws t _ => if q.Outside t then some q else none
  | .try_pop t => if q.Outside t then some (returned q.try_pop) else none
  | .wait_and_pop t => if q.Outside t then some (returned (q.wait_and_pop t)) else none
  | .empty t => if q.Outside t then some q else none
  | .spurious t =>
    if t ∈ q.waiting then some { q with waiting := q.waiting.erase t, awake := insert t q.awake } else none
  | .resume t => if t ∈ q.notified ∨ t ∈ q.awake then some (returned (q.resume t)) else none

/-- While a thread waits, there is a notified one for every item. -/
structure Served (q : ThreadSafeQueue T V) : Prop where
  fifo : q.pushed = q.popped ++ q.m_queue
  apart : ∀ t ∈ q.waiting, t ∉ q.notified
  enough : q.waiting.Nonempty → q.m_queue.length ≤ q.notified.card

section Served

variable {q : ThreadSafeQueue T V} {t : T}

omit [DecidableEq T] in
theorem returned_none : returned (none, q) = q := by simp [returned]

omit [DecidableEq T] in
theorem start_served : (start T V).Served :=
  ⟨rfl, by simp [start], by simp [start]⟩

omit [DecidableEq T] in
theorem Served.try_pop (h : q.Served) : (returned q.try_pop).Served := by
  unfold ThreadSafeQueue.try_pop
  cases hq : q.m_queue with
  | nil => rwa [returned_none]
  | cons v vs =>
    constructor
    case fifo =>
      have hfifo := h.fifo
      rw [hq] at hfifo
      simpa [returned] using hfifo
    case apart => exact h.apart
    case enough =>
      intro hw
      have hle := h.enough hw
      rw [hq, List.length_cons] at hle
      show vs.length ≤ q.notified.card
      omega

theorem Served.push (h : q.Served) {new_value : V} {woken : Option T} {q' : ThreadSafeQueue T V}
    (he : q.push new_value woken = some q') : q'.Served := by
  have hfifo : q.pushed ++ [new_value] = q.popped ++ (q.m_queue ++ [new_value]) := by
    rw [h.fifo, List.append_assoc]
  unfold ThreadSafeQueue.push at he
  cases woken with
  | none =>
    rw [notify_one] at he
    by_cases hw : q.waiting = ∅
    · rw [if_pos hw] at he
      cases he
      constructor
      case fifo => exact hfifo
      case apart => exact h.apart
      case enough => exact fun hne => absurd hw hne.ne_empty
    · rw [if_neg hw] at he
      cases he
  | some w =>
    rw [notify_one] at he
    by_cases hw : w ∈ q.waiting
    · rw [if_pos hw] at he
      cases he
      have hle := h.enough ⟨w, hw⟩
      constructor
      case fifo => exact hfifo
      case apart =>
        intro u hu
        obtain ⟨huw, hu⟩ := Finset.mem_erase.mp hu
        simpa [Finset.mem_insert, huw] using h.apart u hu
      case enough =>
        intro _
        simpa [Finset.card_insert_of_notMem (h.apart w hw)] using hle
    · rw [if_neg hw] at he
      cases he

theorem Served.wait_and_pop (h : q.Served) (ht : t ∉ q.notified) : (returned (q.wait_and_pop t)).Served := by
  unfold ThreadSafeQueue.wait_and_pop
  by_cases hempty : q.empty = true
  · have hq : q.m_queue = [] := List.isEmpty_iff.mp hempty
    rw [if_pos hempty]
    constructor
    case fifo => simpa [returned] using h.fifo
    case apart =>
      intro u hu
      rcases Finset.mem_insert.mp hu with rfl | hu
      · exact ht
      · exact h.apart u hu
    case enough =>
      intro _
      show q.m_queue.length ≤ _
      simp [hq]
  · rw [if_neg hempty]
    exact h.try_pop

theorem Served.spurious (h : q.Served) :
    Served { q with waiting := q.waiting.erase t, awake := insert t q.awake } := by
  constructor
  case fifo => exact h.fifo
  case apart => exact fun u hu => h.apart u (Finset.mem_of_mem_erase hu)
  case enough => exact fun hw => h.enough (hw.mono (Finset.erase_subset t q.waiting))

/-- The notification that the thread used up is made good by the item it takes. -/
theorem Served.resume (h : q.Served) : (returned (q.resume t)).Served := by
  have hapart : ∀ u ∈ q.waiting, u ∉ q.notified.erase t :=
    fun u hu hn => h.apart u hu (Finset.mem_of_mem_erase hn)
  cases hq : q.m_queue with
  | nil =>
    have hserved : Served { q with notified := q.notified.erase t, awake := q.awake.erase t } := by
      constructor
      case fifo => exact h.fifo
      case apart => exact hapart
      case enough =>
        intro _
        show q.m_queue.length ≤ _
        simp [hq]
    exact hserved.wait_and_pop (Finset.notMem_erase t q.notified)
  | cons v vs =>
    have hpop : returned (q.resume t) = { q with
        m_queue := vs, popped := q.popped ++ [v],
        notified := q.notified.erase t, awake := q.awake.erase t } := by
      simp [returned, ThreadSafeQueue.resume, ThreadSafeQueue.wait_and_pop, ThreadSafeQueue.empty,
        ThreadSafeQueue.try_pop, hq]
    rw [hpop]
    constructor
    case fifo =>
      have hfifo := h.fifo
      rw [hq] at hfifo
      simpa using hfifo
    case apart => exact hapart
    case enough =>
      intro hw
      have hle := h.enough hw
      have hcard := Finset.pred_card_le_card_erase (a := t) (s := q.notified)
      rw [hq, List.length_cons] at hle
      show vs.length ≤ (q.notified.erase t).card
      omega

theorem step_served {q' : ThreadSafeQueue T V} {a : Act T V} (h : q.Served) (he : q.step a = some q') :
    q'.Served := by
  cases a with
  | push t new_value woken =>
    obtain ⟨-, he⟩ := Option.ite_none_right_eq_some.mp he
    exact h.push he
  | throws t new_value =>
    obtain ⟨-, he⟩ := Option.ite_none_right_eq_some.mp he
    cases he
    exact h
  | try_pop t =>
    obtain ⟨-, he⟩ := Option.ite_none_right_eq_some.mp he
    cases he
    exact h.try_pop
  | wait_and_pop t =>
    obtain ⟨hout, he⟩ := Option.ite_none_right_eq_some.mp he
    cases he
    exact h.wait_and_pop hout.2.1
  | empty t =>
    obtain ⟨-, he⟩ := Option.ite_none_right_eq_some.mp he
    cases he
    exact h
  | spurious t =>
    obtain ⟨-, he⟩ := Option.ite_none_right_eq_some.mp he
    cases he
    exact h.spurious
  | resume t =>
    obtain ⟨-, he⟩ := Option.ite_none_right_eq_some.mp he
    cases he
    exact h.resume

end Served

/-- No item is lost, and no wake-up: the values come out in the order they went in, and
no thread is left waiting for an item that no woken thread is about to take. -/
theorem no_lost_wakeup {q : ThreadSafeQueue T V}
    (h : Reach.Runs step (fun _ _ => True) (start T V) q) :
    q.popped <+: q.pushed ∧
      ¬ (q.m_queue ≠ [] ∧ q.waiting.Nonempty ∧ q.notified.card < q.m_queue.length) := by
  have hserved : q.Served := h.invariant Served start_served fun _ _ _ hs _ he => step_served hs he
  constructor
  · rw [hserved.fifo]
    exact List.prefix_append q.popped q.m_queue
  · intro ⟨_, hw, hlt⟩
    have hle := hserved.enough hw
    omega

inductive Party where
  | producer
  | early
  | late
  deriving DecidableEq, Repr

/-- Both consumers wait, two items come, and the producer takes one back before a woken
thread runs. -/
def stolen : List (Act Party Nat) :=
  [.wait_and_pop .early, .wait_and_pop .late, .spurious .late, .push .producer 7 (some .early),
    .push .producer 8 none, .try_pop .producer, .resume .late, .resume .early]

theorem stolen_no_lost_wakeup :
    ∃ q : ThreadSafeQueue Party Nat, Reach.Runs step (fun _ _ => True) (start Party Nat) q ∧
      q.popped = [7, 8] ∧ q.waiting = {.early} ∧ q.popped <+: q.pushed ∧
      ¬ (q.m_queue ≠ [] ∧ q.waiting.Nonempty ∧ q.notified.card < q.m_queue.length) := by
  have hrun := Reach.runs_of_run_any (show Reach.run step stolen (start Party Nat) = some _ from rfl)
  exact ⟨_, hrun, by decide, by decide, no_lost_wakeup hrun⟩

end ThreadSafeQueue

end CPractice
