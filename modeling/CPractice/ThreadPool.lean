import CPractice.ThreadSafeQueue
import CPractice.Lib.Tally
import Mathlib.Algebra.Order.Group.Multiset
import Mathlib.Data.Fintype.Basic

/-! The class `thread_pool`: workers that poll `work_queue` and `done` in separate steps.
What is in the queue when `~thread_pool` sets `done` runs only if a worker is already
past its test. -/

namespace CPractice

/-- At `while(!done)`, and behind it when `done` was read as false. -/
inductive Worker (V : Type) where
  | checking
  | trying
  | running (task : V)
  | exited

namespace Worker

variable {V : Type}

def isTrying : Worker V → Bool
  | .trying => true
  | _ => false

def isExited : Worker V → Bool
  | .exited => true
  | _ => false

theorem eq_exited {x : Worker V} (hx : x.isExited = true) : x = .exited := by
  cases x <;> first | rfl | cases hx

def task : Worker V → Multiset V
  | .running task => {task}
  | _ => 0

end Worker

structure ThreadPool (W V : Type) where
  done : Bool
  work_queue : ThreadSafeQueue W V
  threads : W → Worker V
  executed : List V
  returned : Bool

namespace ThreadPool

variable {W V : Type} [DecidableEq W]

/-- Once the constructor has returned; a worker that has not run yet is at its test. -/
def start (W V : Type) : ThreadPool W V :=
  { done := false, work_queue := .start W V, threads := fun _ => .checking, executed := [], returned := false }

def goto (p : ThreadPool W V) (w : W) (x : Worker V) : ThreadPool W V :=
  { p with threads := Function.update p.threads w x }

def submit (p : ThreadPool W V) (f : V) : Option (ThreadPool W V) :=
  (p.work_queue.push f none).map fun q => { p with work_queue := q }

def worker_thread (p : ThreadPool W V) (w : W) : Option (ThreadPool W V) :=
  match p.threads w with
  | .checking => some (p.goto w (if p.done then .exited else .trying))
  | .trying =>
    let popped := { p with work_queue := .returned p.work_queue.try_pop }
    match p.work_queue.try_pop.1 with
    | some task => some (popped.goto w (.running task))
    | none => some (popped.goto w .checking)
  | .running task => some (goto { p with executed := p.executed ++ [task] } w .checking)
  | .exited => none

theorem worker_thread_cases {p p' : ThreadPool W V} {w : W} (he : p.worker_thread w = some p') :
    (p.threads w = .checking ∧ p' = p.goto w (if p.done then .exited else .trying)) ∨
    (p.threads w = .trying ∧ p.work_queue.m_queue = [] ∧ p' = p.goto w .checking) ∨
    (p.threads w = .trying ∧ ∃ task vs, p.work_queue.m_queue = task :: vs ∧
      p' = goto { p with work_queue := .returned p.work_queue.try_pop } w (.running task)) ∨
    ∃ task, p.threads w = .running task ∧
      p' = goto { p with executed := p.executed ++ [task] } w .checking := by
  unfold worker_thread at he
  cases hw : p.threads w with
  | checking =>
    rw [hw] at he
    exact .inl ⟨rfl, (Option.some.inj he).symm⟩
  | trying =>
    rw [hw] at he
    cases hq : p.work_queue.m_queue with
    | nil =>
      have htry : p.work_queue.try_pop = (none, p.work_queue) := by simp [ThreadSafeQueue.try_pop, hq]
      simp only [htry, ThreadSafeQueue.returned_none] at he
      exact .inr (.inl ⟨rfl, rfl, (Option.some.inj he).symm⟩)
    | cons task vs =>
      have htask : p.work_queue.try_pop.1 = some task := by simp [ThreadSafeQueue.try_pop, hq]
      simp only [htask] at he
      exact .inr (.inr (.inl ⟨rfl, task, vs, rfl, (Option.some.inj he).symm⟩))
  | running task =>
    rw [hw] at he
    exact .inr (.inr (.inr ⟨task, rfl, (Option.some.inj he).symm⟩))
  | exited =>
    rw [hw] at he
    cases he

/-- `destroy` is the first line of `~thread_pool`, `join` its last `join`. -/
inductive Act (W V : Type) where
  | submit (f : V)
  | worker (w : W)
  | destroy
  | join

variable [Fintype W]

/-- No `submit` is called once the destructor has started. -/
def step (p : ThreadPool W V) : Act W V → Option (ThreadPool W V)
  | .submit f => if p.done = false then p.submit f else none
  | .worker w => p.worker_thread w
  | .destroy => if p.done = false then some { p with done := true } else none
  | .join =>
    if p.done = true ∧ ∀ w, (p.threads w).isExited = true then some { p with returned := true } else none

def trying (p : ThreadPool W V) : Finset W :=
  Finset.univ.filter fun w => (p.threads w).isTrying = true

def tasks (p : ThreadPool W V) : Multiset V :=
  ∑ w, (p.threads w).task

omit [DecidableEq W] in
@[simp] theorem mem_trying {p : ThreadPool W V} {w : W} : w ∈ p.trying ↔ (p.threads w).isTrying = true := by
  simp [trying]

section Goto

variable (p : ThreadPool W V) (w : W) (x : Worker V)

theorem goto_tasks : (p.goto w x).tasks + (p.threads w).task = p.tasks + x.task :=
  Tally.sum_update_add Worker.task p.threads (Finset.mem_univ w) x

theorem goto_tasks_same (hw : (p.threads w).task = 0) (hx : x.task = 0) : (p.goto w x).tasks = p.tasks := by
  have htasks := p.goto_tasks w x
  rwa [hw, hx, add_zero, add_zero] at htasks

theorem goto_trying (hx : x.isTrying = false) : (p.goto w x).trying = p.trying.erase w := by
  ext v
  by_cases hv : v = w
  · subst hv
    simp [goto, hx]
  · simp [goto, hv]

end Goto

/-- Every task that left the queue has run or is being run. -/
structure Tallied (p : ThreadPool W V) : Prop where
  served : p.work_queue.Served
  popped : (p.work_queue.popped : Multiset V) = p.executed + p.tasks
  joined : p.returned = true → p.done = true ∧ ∀ w, (p.threads w).isExited = true

omit [DecidableEq W] in
theorem start_tallied : (start W V).Tallied := by
  constructor
  case served => exact ThreadSafeQueue.start_served
  case popped => simp [start, tasks, ThreadSafeQueue.start, Worker.task]
  case joined => simp [start]

theorem Tallied.not_returned {p p' : ThreadPool W V} {w : W} (h : p.Tallied)
    (he : p.worker_thread w = some p') : p.returned ≠ true := by
  intro hret
  have hexited := Worker.eq_exited ((h.joined hret).2 w)
  rw [ThreadPool.worker_thread, hexited] at he
  cases he

theorem Tallied.worker_thread {p p' : ThreadPool W V} {w : W} (h : p.Tallied)
    (he : p.worker_thread w = some p') : p'.Tallied := by
  have hlive := h.not_returned he
  rcases worker_thread_cases he with ⟨hw, rfl⟩ | ⟨hw, -, rfl⟩ | ⟨hw, task, vs, hq, rfl⟩ | ⟨task, hw, rfl⟩
  · constructor
    case served => exact h.served
    case popped =>
      rw [p.goto_tasks_same w _ (by rw [hw]; rfl) (by split <;> rfl)]
      exact h.popped
    case joined => exact fun hret => absurd hret hlive
  · constructor
    case served => exact h.served
    case popped =>
      rw [p.goto_tasks_same w _ (by rw [hw]; rfl) rfl]
      exact h.popped
    case joined => exact fun hret => absurd hret hlive
  · have htake := goto_tasks { p with work_queue := .returned p.work_queue.try_pop } w (.running task)
    constructor
    case served => exact h.served.try_pop
    case popped =>
      have htake' : (goto { p with work_queue := .returned p.work_queue.try_pop } w (.running task)).tasks =
          p.tasks + {task} := by simpa [hw, Worker.task, tasks] using htake
      have hpop : (ThreadSafeQueue.returned p.work_queue.try_pop).popped = p.work_queue.popped ++ [task] := by
        simp [ThreadSafeQueue.returned, ThreadSafeQueue.try_pop, hq]
      rw [htake']
      show ((ThreadSafeQueue.returned p.work_queue.try_pop).popped : Multiset V) = _
      rw [hpop, ← Multiset.coe_add, h.popped, add_assoc]
      rfl
    case joined => exact fun hret => absurd hret hlive
  · have hran := goto_tasks { p with executed := p.executed ++ [task] } w .checking
    constructor
    case served => exact h.served
    case popped =>
      have hran' : (goto { p with executed := p.executed ++ [task] } w .checking).tasks + {task} = p.tasks := by
        simpa [hw, Worker.task, tasks] using hran
      show (p.work_queue.popped : Multiset V) = ((p.executed ++ [task] : List V) : Multiset V) + _
      rw [h.popped, ← hran', ← Multiset.coe_add, add_assoc, add_comm _ ({task} : Multiset V)]
      rfl
    case joined => exact fun hret => absurd hret hlive

theorem step_tallied {p p' : ThreadPool W V} {a : Act W V} (h : p.Tallied) (he : p.step a = some p') :
    p'.Tallied := by
  cases a with
  | submit f =>
    obtain ⟨hdone, he⟩ := Option.ite_none_right_eq_some.mp he
    obtain ⟨q, hpush, rfl⟩ := Option.map_eq_some_iff.mp he
    constructor
    case served => exact h.served.push hpush
    case popped =>
      have hpopped : q.popped = p.work_queue.popped := by
        rw [ThreadSafeQueue.push, ThreadSafeQueue.notify_one] at hpush
        obtain ⟨-, hpush⟩ := Option.ite_none_right_eq_some.mp hpush
        cases hpush
        rfl
      show (q.popped : Multiset V) = _
      rw [hpopped]
      exact h.popped
    case joined => exact h.joined
  | worker w => exact h.worker_thread he
  | destroy =>
    obtain ⟨hdone, he⟩ := Option.ite_none_right_eq_some.mp he
    cases he
    exact ⟨h.served, h.popped, fun hret => ⟨rfl, (h.joined hret).2⟩⟩
  | join =>
    obtain ⟨hjoin, he⟩ := Option.ite_none_right_eq_some.mp he
    cases he
    exact ⟨h.served, h.popped, fun _ => hjoin⟩

def left (p : ThreadPool W V) : Nat :=
  p.work_queue.m_queue.length - p.trying.card

/-- Once `done` is set the queue and the workers past their test fall together. -/
theorem worker_thread_left {p p' : ThreadPool W V} {w : W} (hdone : p.done = true)
    (he : p.worker_thread w = some p') : p'.done = true ∧ p'.left = p.left := by
  rcases worker_thread_cases he with ⟨hw, rfl⟩ | ⟨hw, hq, rfl⟩ | ⟨hw, task, vs, hq, rfl⟩ | ⟨task, hw, rfl⟩
  · have hnot : w ∉ p.trying := by simp [hw, Worker.isTrying]
    rw [if_pos hdone]
    refine ⟨hdone, ?_⟩
    rw [left, goto_trying _ _ _ rfl, Finset.erase_eq_of_notMem hnot]
    rfl
  · refine ⟨hdone, ?_⟩
    have hlen : (p.goto w .checking).work_queue.m_queue.length = 0 := by simp [goto, hq]
    rw [left, left, hlen, hq]
    simp
  · have hmem : w ∈ p.trying := by simp [hw, Worker.isTrying]
    have hpos := Finset.card_pos.mpr ⟨w, hmem⟩
    have hpop : p.work_queue.try_pop.2.m_queue = vs := by simp [ThreadSafeQueue.try_pop, hq]
    refine ⟨hdone, ?_⟩
    rw [left, goto_trying _ _ _ rfl]
    show p.work_queue.try_pop.2.m_queue.length - (p.trying.erase w).card = _
    rw [hpop, Finset.card_erase_of_mem hmem, left, hq, List.length_cons]
    omega
  · have hnot : w ∉ p.trying := by simp [hw, Worker.isTrying]
    refine ⟨hdone, ?_⟩
    rw [left, goto_trying _ _ _ rfl]
    show p.work_queue.m_queue.length - (p.trying.erase w).card = _
    rw [Finset.erase_eq_of_notMem hnot]
    rfl

theorem step_left {p p' : ThreadPool W V} {a : Act W V} (hdone : p.done = true) (he : p.step a = some p') :
    p'.done = true ∧ p'.left = p.left := by
  cases a with
  | submit f =>
    obtain ⟨hnot, -⟩ := Option.ite_none_right_eq_some.mp he
    rw [hdone] at hnot
    cases hnot
  | worker w => exact worker_thread_left hdone he
  | destroy =>
    obtain ⟨hnot, -⟩ := Option.ite_none_right_eq_some.mp he
    rw [hdone] at hnot
    cases hnot
  | join =>
    obtain ⟨-, he⟩ := Option.ite_none_right_eq_some.mp he
    cases he
    exact ⟨hdone, rfl⟩

omit [DecidableEq W] in
theorem Tallied.executed_iff {p : ThreadPool W V} (h : p.Tallied) (hret : p.returned = true) :
    p.executed.Perm p.work_queue.pushed ↔ p.work_queue.m_queue.length = 0 := by
  have hidle : p.tasks = 0 := by
    apply Finset.sum_eq_zero
    intro w _
    rw [Worker.eq_exited ((h.joined hret).2 w)]
    rfl
  have hpopped : p.work_queue.popped.Perm p.executed := by
    rw [← Multiset.coe_eq_coe, h.popped, hidle, add_zero]
  have hlen := congrArg List.length h.served.fifo
  rw [List.length_append, hpopped.length_eq] at hlen
  constructor
  · intro hperm
    have hsame := hperm.length_eq
    omega
  · intro hnil
    rw [h.served.fifo, List.eq_nil_of_length_eq_zero hnil, List.append_nil]
    exact hpopped.symm

/-- Every task has run once `~thread_pool` returns if and only if, when it sets `done`,
there are no more tasks in the queue than workers that have yet to look at it. -/
theorem all_executed_iff {p₀ p₁ p : ThreadPool W V}
    (h₀ : Reach.Runs step (fun _ _ => True) (start W V) p₀) (hdestroy : p₀.step .destroy = some p₁)
    (h : Reach.Runs step (fun _ _ => True) p₁ p) (hret : p.returned = true) :
    p.executed.Perm p.work_queue.pushed ↔ p₀.work_queue.m_queue.length ≤ p₀.trying.card := by
  have hrun : Reach.Runs step (fun _ _ => True) (start W V) p := h₀.trans (.head ⟨.destroy, trivial, hdestroy⟩ h)
  have htallied : p.Tallied := hrun.invariant Tallied start_tallied fun _ _ _ hs _ he => step_tallied hs he
  have hset : p₁.done = true ∧ p₁.left = p₀.left := by
    obtain ⟨-, he⟩ := Option.ite_none_right_eq_some.mp hdestroy
    cases he
    exact ⟨rfl, rfl⟩
  have hleft : p.done = true ∧ p.left = p₀.left := by
    apply Reach.Runs.invariant (fun p => p.done = true ∧ p.left = p₀.left) h hset
    intro s a s' hs _ he
    have hstep := step_left hs.1 he
    exact ⟨hstep.1, hstep.2.trans hs.2⟩
  have hnone : p.trying.card = 0 := by
    apply Finset.card_eq_zero.mpr
    ext w
    simp [Worker.eq_exited ((htallied.joined hret).2 w), Worker.isTrying]
  have hlen : p.work_queue.m_queue.length = p₀.work_queue.m_queue.length - p₀.trying.card := by
    have heq := hleft.2
    rw [left, left, hnone] at heq
    exact heq
  rw [htallied.executed_iff hret, hlen]
  omega

def caught : List (Act Bool Nat) :=
  [.worker false, .worker false, .submit 7, .worker true]

def finish : List (Act Bool Nat) :=
  [.worker false, .worker true, .worker true, .worker true, .join]

theorem caught_all_executed :
    ∃ p₀ p₁ p : ThreadPool Bool Nat, Reach.Runs step (fun _ _ => True) (start Bool Nat) p₀ ∧
      p₀.step .destroy = some p₁ ∧ Reach.Runs step (fun _ _ => True) p₁ p ∧ p.returned = true ∧
      p.work_queue.pushed = [7] ∧ p.executed.Perm p.work_queue.pushed := by
  let p₀ := (Reach.run step caught (start Bool Nat)).get rfl
  let p₁ := (p₀.step .destroy).get rfl
  let p := (Reach.run step finish p₁).get rfl
  have h₀ : Reach.Runs step _ (start Bool Nat) p₀ := Reach.runs_of_run_any (Option.some_get rfl).symm
  have hdestroy : p₀.step .destroy = some p₁ := (Option.some_get rfl).symm
  have h : Reach.Runs step _ p₁ p := Reach.runs_of_run_any (Option.some_get rfl).symm
  exact ⟨p₀, p₁, p, h₀, hdestroy, h, rfl, rfl, (all_executed_iff h₀ hdestroy h rfl).mpr (by decide)⟩

def dropped : List (Act Unit Unit) :=
  [.submit (), .destroy, .worker (), .join]

theorem dropped_not_executed :
    ¬ ∀ p : ThreadPool Unit Unit, Reach.Runs step (fun _ _ => True) (start Unit Unit) p →
      p.returned = true → p.executed.Perm p.work_queue.pushed := by
  intro hall
  have hrun := Reach.runs_of_run_any (show Reach.run step dropped (start Unit Unit) = some _ from rfl)
  exact absurd (hall _ hrun rfl) (by decide)

end ThreadPool

end CPractice
