import CPractice.Lib.Reach
import Mathlib.Data.Fintype.Card
import Mathlib.Data.Fin.Basic

/-! The class `Barrier` of `barrier_cpp11`, used by `num_threads_` threads. Each stretch
of `wait` under the mutex is one step; a waiter can be woken at any time. -/

namespace CPractice

/-- Where a thread is. A waiter is `notified` from `notify_all` until it has the mutex
again. -/
inductive WaitState where
  | outside
  | waiting (notified : Bool)
  deriving DecidableEq, Repr

/-- `begun` and `returned` count the calls of `wait` of each thread. -/
structure Barrier (num_threads_ : Nat) where
  count_ : Nat
  thread : Fin num_threads_ → WaitState
  begun : Fin num_threads_ → Nat
  returned : Fin num_threads_ → Nat

namespace Barrier

variable {n : Nat}

def start (n : Nat) : Barrier n :=
  { count_ := 0, thread := fun _ => .outside, begun := fun _ => 0, returned := fun _ => 0 }

def leave (b : Barrier n) (t : Fin n) : Barrier n :=
  { b with
    thread := Function.update b.thread t .outside
    returned := Function.update b.returned t (b.returned t + 1) }

def block (b : Barrier n) (t : Fin n) : Barrier n :=
  { b with thread := Function.update b.thread t (.waiting false) }

def notify_all (b : Barrier n) : Barrier n :=
  { b with thread := fun t => match b.thread t with
      | .waiting _ => .waiting true
      | .outside => .outside }

/-- `wait_for` tests its predicate before it blocks. -/
def enter (b : Barrier n) (t : Fin n) : Barrier n :=
  let b := { b with count_ := b.count_ + 1, begun := Function.update b.begun t (b.begun t + 1) }
  if b.count_ = n then leave (notify_all { b with count_ := 0 }) t
  else if b.count_ = 0 then leave b t
  else block b t

def awake (b : Barrier n) (t : Fin n) : Barrier n :=
  if b.count_ = 0 then leave b t else block b t

/-- The time is up: `wait_for` returns its predicate, and the counter is reset if that
is false. -/
def expire (b : Barrier n) (t : Fin n) : Barrier n :=
  if b.count_ = 0 then leave b t else leave { b with count_ := 0 } t

inductive Act (n : Nat) where
  | enter (t : Fin n)
  | awake (t : Fin n)
  | expire (t : Fin n)

def step (b : Barrier n) : Act n → Option (Barrier n)
  | .enter t => if b.thread t = .outside then some (b.enter t) else none
  | .awake t => if b.thread t ≠ .outside then some (b.awake t) else none
  | .expire t => if b.thread t ≠ .outside then some (b.expire t) else none

def InTime (b : Barrier n) : Act n → Prop
  | .expire _ => b.count_ = 0
  | _ => True

instance InTime.decidable (b : Barrier n) : ∀ a, Decidable (b.InTime a)
  | .enter _ => .isTrue trivial
  | .awake _ => .isTrue trivial
  | .expire _ => inferInstanceAs (Decidable (b.count_ = 0))

def arrive (b : Barrier n) (t : Fin n) : Barrier n :=
  { b with count_ := b.count_ + 1, begun := Function.update b.begun t (b.begun t + 1) }

theorem step_cases {b b' : Barrier n} {a : Act n} (h : b.step a = some b') (hin : b.InTime a) :
    (∃ t, a = .enter t ∧ b.thread t = .outside ∧ b.count_ + 1 = n ∧
      b' = leave (notify_all { b.arrive t with count_ := 0 }) t) ∨
    (∃ t, a = .enter t ∧ b.thread t = .outside ∧ b.count_ + 1 ≠ n ∧ b' = (b.arrive t).block t) ∨
    (∃ t, (∀ u, a ≠ .enter u) ∧ b.thread t ≠ .outside ∧ b.count_ = 0 ∧ b' = b.leave t) ∨
    (∃ t, (∀ u, a ≠ .enter u) ∧ b.thread t ≠ .outside ∧ b.count_ ≠ 0 ∧ b' = b.block t) := by
  cases a with
  | enter t =>
    rw [step] at h
    by_cases hout : b.thread t = .outside
    · rw [if_pos hout] at h
      cases h
      by_cases hfull : b.count_ + 1 = n
      · exact .inl ⟨t, rfl, hout, hfull, if_pos hfull⟩
      · refine .inr (.inl ⟨t, rfl, hout, hfull, ?_⟩)
        rw [enter, if_neg hfull]
        exact if_neg (Nat.succ_ne_zero _)
    · rw [if_neg hout] at h
      cases h
  | awake t =>
    rw [step] at h
    by_cases hin : b.thread t ≠ .outside
    · rw [if_pos hin] at h
      cases h
      by_cases hzero : b.count_ = 0
      · exact .inr (.inr (.inl ⟨t, by simp, hin, hzero, if_pos hzero⟩))
      · exact .inr (.inr (.inr ⟨t, by simp, hin, hzero, if_neg hzero⟩))
    · rw [if_neg hin] at h
      cases h
  | expire t =>
    have hzero : b.count_ = 0 := hin
    rw [step] at h
    by_cases hin : b.thread t ≠ .outside
    · rw [if_pos hin] at h
      cases h
      exact .inr (.inr (.inl ⟨t, by simp, hin, hzero, if_pos hzero⟩))
    · rw [if_neg hin] at h
      cases h

/-- What a thread has done when round `r` is the last one that was completed: it is out
of it, or has not left it yet, or has begun the next one. -/
def InRound (r : Nat) : WaitState → Nat → Nat → Prop
  | .outside, begun, returned => begun = r ∧ returned = r
  | .waiting notified, begun, returned =>
    returned + 1 = begun ∧ (begun = r ∨ begun = r + 1 ∧ notified = false)

/-- The counter says how many threads have begun the next round. -/
structure Round (b : Barrier n) (r : Nat) : Prop where
  inRound : ∀ t, InRound r (b.thread t) (b.begun t) (b.returned t)
  count : b.count_ = (Finset.univ.filter fun t => b.begun t = r + 1).card
  below : b.count_ = 0 ∨ b.count_ < n

section Round

variable {b : Barrier n} {r : Nat} {t : Fin n}

theorem start_round (n : Nat) : (start n).Round 0 := by
  constructor
  case inRound => exact fun t => ⟨rfl, rfl⟩
  case count => simp [start]
  case below => exact .inl rfl

theorem Round.outside (h : b.Round r) (hout : b.thread t = .outside) : b.begun t = r ∧ b.returned t = r := by
  have hin := h.inRound t
  rwa [hout] at hin

theorem Round.waiting (h : b.Round r) (hth : b.thread t ≠ .outside) :
    b.returned t + 1 = b.begun t ∧ (b.begun t = r ∨ b.begun t = r + 1 ∧ b.thread t = .waiting false) := by
  have hin := h.inRound t
  cases hs : b.thread t with
  | outside => exact absurd hs hth
  | waiting notified =>
    rw [hs] at hin
    exact ⟨hin.1, hin.2.imp_right fun hnext => ⟨hnext.1, by rw [hnext.2]⟩⟩

theorem Round.begun (h : b.Round r) (t : Fin n) : b.begun t = r ∨ b.begun t = r + 1 := by
  by_cases hout : b.thread t = .outside
  · exact .inl (h.outside hout).1
  · exact (h.waiting hout).2.imp_right fun hnext => hnext.1

theorem Round.notified (h : b.Round r) (hth : b.thread t = .waiting true) : b.begun t = r := by
  have hin := h.inRound t
  rw [hth] at hin
  exact hin.2.resolve_right fun hnext => Bool.noConfusion hnext.2

theorem Round.arrived_count (h : b.Round r) (hout : b.thread t = .outside) :
    (Finset.univ.filter fun u => (b.arrive t).begun u = r + 1).card = b.count_ + 1 := by
  obtain ⟨hbegun, -⟩ := h.outside hout
  have hnot : t ∉ Finset.univ.filter fun u => b.begun u = r + 1 := by
    simp [hbegun]
  have hset : (Finset.univ.filter fun u => (b.arrive t).begun u = r + 1) =
      insert t (Finset.univ.filter fun u => b.begun u = r + 1) := by
    ext u
    rw [Finset.mem_filter, Finset.mem_insert, Finset.mem_filter]
    by_cases hu : u = t
    · subst hu
      simp [Barrier.arrive, hbegun]
    · simp [Barrier.arrive, hu]
  rw [hset, Finset.card_insert_of_notMem hnot, h.count]

theorem Round.begun_of_zero (h : b.Round r) (hzero : b.count_ = 0) (t : Fin n) : b.begun t = r := by
  refine (h.begun t).resolve_right fun hnext => ?_
  have hnone := Finset.card_eq_zero.mp (h.count.symm.trans hzero)
  have hmem : t ∈ Finset.univ.filter fun u => b.begun u = r + 1 := by simp [hnext]
  rw [hnone] at hmem
  simp at hmem

theorem Round.leave (h : b.Round r) (hin : b.thread t ≠ .outside) (hzero : b.count_ = 0) :
    (b.leave t).Round r := by
  have hbegun := h.begun_of_zero hzero t
  have hret := (h.waiting hin).1
  constructor
  case inRound =>
    intro u
    by_cases hut : u = t
    · subst hut
      simp [Barrier.leave, InRound]
      omega
    · simpa [Barrier.leave, hut] using h.inRound u
  case count => exact h.count
  case below => exact h.below

theorem Round.block (h : b.Round r) (hin : b.thread t ≠ .outside) : (b.block t).Round r := by
  obtain ⟨hret, hbegun⟩ := h.waiting hin
  constructor
  case inRound =>
    intro u
    by_cases hut : u = t
    · subst hut
      simp [Barrier.block, InRound]
      omega
    · simpa [Barrier.block, hut] using h.inRound u
  case count => exact h.count
  case below => exact h.below

theorem Round.arrive (h : b.Round r) (hout : b.thread t = .outside) (hfull : b.count_ + 1 ≠ n) :
    ((b.arrive t).block t).Round r := by
  obtain ⟨hbegun, hret⟩ := h.outside hout
  constructor
  case inRound =>
    intro u
    by_cases hut : u = t
    · subst hut
      simp [Barrier.block, Barrier.arrive, InRound, hbegun, hret]
    · simpa [Barrier.block, Barrier.arrive, hut] using h.inRound u
  case count => exact (h.arrived_count hout).symm
  case below =>
    have hle := Finset.card_le_univ (Finset.univ.filter fun u => (b.arrive t).begun u = r + 1)
    rw [h.arrived_count hout, Fintype.card_fin] at hle
    exact .inr (lt_of_le_of_ne hle hfull)

theorem Round.all_begun (h : b.Round r) (hout : b.thread t = .outside) (hfull : b.count_ + 1 = n) (u : Fin n) :
    (b.arrive t).begun u = r + 1 := by
  have hcard := (h.arrived_count hout).trans hfull
  have huniv := (Finset.card_eq_iff_eq_univ _).mp (hcard.trans (Fintype.card_fin n).symm)
  have hmem := huniv ▸ Finset.mem_univ u
  exact (Finset.mem_filter.mp hmem).2

theorem Round.complete (h : b.Round r) (hout : b.thread t = .outside) (hfull : b.count_ + 1 = n) :
    (Barrier.leave (notify_all { b.arrive t with count_ := 0 }) t).Round (r + 1) := by
  have hall := h.all_begun hout hfull
  constructor
  case inRound =>
    intro u
    by_cases hut : u = t
    · subst hut
      simp [Barrier.leave, notify_all, InRound, Barrier.arrive, h.outside hout]
    · have hnext : b.begun u = r + 1 := by simpa [Barrier.arrive, hut] using hall u
      cases hs : b.thread u with
      | outside =>
        have hbegun := (h.outside hs).1
        omega
      | waiting notified =>
        have hret := (h.waiting (t := u) (by simp [hs])).1
        simp [Barrier.leave, notify_all, InRound, Barrier.arrive, hut, hs, hnext]
        omega
  case count =>
    have hnone : (Finset.univ.filter fun u => (b.arrive t).begun u = r + 1 + 1) = ∅ := by
      ext u
      simp [hall u]
    show 0 = (Finset.univ.filter fun u => (b.arrive t).begun u = r + 1 + 1).card
    rw [hnone, Finset.card_empty]
  case below => exact .inl rfl

end Round

theorem step_round {b b' : Barrier n} {a : Act n} (h : ∃ r, b.Round r) (hin : b.InTime a)
    (he : b.step a = some b') : ∃ r, b'.Round r := by
  obtain ⟨r, h⟩ := h
  rcases step_cases he hin with ⟨t, -, hout, hfull, rfl⟩ | ⟨t, -, hout, hfull, rfl⟩ | ⟨t, -, hth, hzero, rfl⟩ |
    ⟨t, -, hth, -, rfl⟩
  · exact ⟨r + 1, h.complete hout hfull⟩
  · exact ⟨r, h.arrive hout hfull⟩
  · exact ⟨r, h.leave hth hzero⟩
  · exact ⟨r, h.block hth⟩

theorem Round.returned_le {b : Barrier n} {r : Nat} (h : b.Round r) (t : Fin n) : b.returned t ≤ r := by
  by_cases ht : b.thread t = .outside
  · exact le_of_eq (h.outside ht).2
  · have hret := (h.waiting ht).1
    have hbegun := h.begun t
    omega

/-- A thread that has returned from its `k`-th call of `wait` shows that every thread
has begun its own. -/
theorem begun_of_returned {b : Barrier n} (h : Reach.Runs step InTime (start n) b) (k : Nat) (t : Fin n)
    (hk : k ≤ b.returned t) (u : Fin n) : k ≤ b.begun u := by
  obtain ⟨r, hr⟩ := h.invariant (fun b => ∃ r, b.Round r) ⟨0, start_round n⟩
    fun b a b' hb hin he => step_round hb hin he
  have hret := hr.returned_le t
  have hbegun := hr.begun u
  omega

def slow : Fin 2 := 0
def fast : Fin 2 := 1

def twoRounds : List (Act 2) := [.enter slow, .awake slow, .enter fast, .awake slow, .enter slow]

theorem twoRounds_begun :
    ∃ b, Reach.Runs step InTime (start 2) b ∧ 1 ≤ b.returned fast ∧ 1 ≤ b.begun slow := by
  have hin : Reach.Allows step InTime twoRounds (start 2) := by decide
  have hrun := Reach.runs_of_run hin (show Reach.run step twoRounds (start 2) = some _ from rfl)
  exact ⟨_, hrun, by decide, begun_of_returned hrun 1 fast (by decide) slow⟩

end Barrier

end CPractice
