import CPractice.Lib.Reach
import Mathlib.Data.Fintype.Basic
import Mathlib.Data.List.Basic
import Mathlib.Logic.Function.Basic

/-! The class `Timer`: any number of threads in `start` and `stop`, against the workers
that `start` detaches. Each access to an atomic is a step, and so is each stretch under
the mutex. -/

namespace CPractice

/-- A thread in `start` has read `_expired` as true in `starting` and stored false in `spawning`. In `stop` it has
read `_expired` as false in `stopping` and `_try_to_expire` as false in `requesting`, and stored true in `entering`. -/
inductive Caller where
  | idle
  | starting
  | spawning
  | stopping
  | requesting
  | entering
  | waiting
  deriving DecidableEq, Repr

/-- At `while (!_try_to_expire)`, and in the body before `task()`. -/
inductive Loop where
  | checking
  | sleeping
  | leaving
  | exited
  deriving DecidableEq, Repr

/-- `calls` counts the calls of `task()`. `stopped` holds from the return of a `stop` that
found the timer running to the next call of `start`. -/
structure Timer (T : Type) where
  expired : Bool
  try_to_expire : Bool
  callers : T → Caller
  workers : List Loop
  calls : Nat
  stopped : Bool

namespace Timer

variable {T : Type}

def init (T : Type) : Timer T :=
  { expired := true, try_to_expire := false, callers := fun _ => .idle, workers := [], calls := 0, stopped := false }

def Live (s : Timer T) (i : Nat) : Prop := ∃ w, s.workers[i]? = some w ∧ w ≠ .exited

def worker (s : Timer T) (i : Nat) : Option (Timer T) :=
  match s.workers[i]? with
  | none => none
  | some .checking =>
    some { s with workers := s.workers.set i (if s.try_to_expire then .leaving else .sleeping) }
  | some .sleeping => some { s with workers := s.workers.set i .checking, calls := s.calls + 1 }
  | some .leaving => some { s with workers := s.workers.set i .exited, expired := true }
  | some .exited => none

def Settled (s : Timer T) : Prop := ∀ u, s.callers u ≠ .starting

variable [DecidableEq T]

def goto (s : Timer T) (t : T) (x : Caller) : Timer T :=
  { s with callers := Function.update s.callers t x }

def start (s : Timer T) (t : T) : Timer T :=
  goto { s with stopped := false } t (if s.expired then .starting else .idle)

def stop (s : Timer T) (t : T) : Timer T :=
  s.goto t (if s.expired then .idle else .stopping)

def reset (s : Timer T) (t : T) : Timer T :=
  if s.expired then goto { s with try_to_expire := false, stopped := true } t .idle else s.goto t .waiting

def caller (s : Timer T) (t : T) : Option (Timer T) :=
  match s.callers t with
  | .idle => none
  | .starting => some (goto { s with expired := false } t .spawning)
  | .spawning => some (goto { s with workers := s.workers ++ [.checking] } t .idle)
  | .stopping =>
    some (if s.try_to_expire then goto { s with stopped := true } t .idle else s.goto t .requesting)
  | .requesting => some (goto { s with try_to_expire := true } t .entering)
  | .entering => some (s.reset t)
  | .waiting => some (s.reset t)

inductive Act (T : Type) where
  | start (t : T)
  | stop (t : T)
  | caller (t : T)
  | worker (i : Nat)

def step (s : Timer T) : Act T → Option (Timer T)
  | .start t => if s.callers t = .idle then some (s.start t) else none
  | .stop t => if s.callers t = .idle then some (s.stop t) else none
  | .caller t => s.caller t
  | .worker i => s.worker i

/-- The flag that a `start` has tested is still set when it clears it; and a `stop` that
found the timer running returns only while no `start` is in between and, if it leaves the
worker to another `stop`, while no worker is before its `task()`. -/
def Undisturbed (s : Timer T) : Act T → Prop
  | .caller t =>
    (s.callers t = .starting → s.expired = true) ∧
    (s.callers t = .stopping → s.try_to_expire = true → s.Settled ∧ ∀ w ∈ s.workers, w ≠ .sleeping) ∧
    (s.callers t = .entering ∨ s.callers t = .waiting → s.expired = true → s.Settled)
  | _ => True

instance Settled.decidable [Fintype T] (s : Timer T) : Decidable s.Settled := inferInstanceAs (Decidable (∀ _, _))

instance Undisturbed.decidable [Fintype T] (s : Timer T) : ∀ a, Decidable (s.Undisturbed a)
  | .caller _ => inferInstanceAs (Decidable (_ ∧ _ ∧ _))
  | .start _ | .stop _ | .worker _ => .isTrue trivial

structure Single (s : Timer T) : Prop where
  idle : s.expired = true → (∀ i, ¬ s.Live i) ∧ ∀ t, s.callers t ≠ .spawning
  spawning : ∀ t, s.callers t = .spawning → (∀ i, ¬ s.Live i) ∧ ∀ u, s.callers u = .spawning → u = t
  alone : ∀ i j, s.Live i → s.Live j → i = j
  quiet : s.stopped = true → s.Settled ∧ (∀ w ∈ s.workers, w ≠ .sleeping) ∧
    (s.expired = false → s.try_to_expire = true)

omit [DecidableEq T] in
theorem init_single : (init T).Single := by
  constructor <;> simp [init, Live]

section Single

variable {s : Timer T} {t : T} {i j : Nat}

theorem Single.goto (h : s.Single) {x : Caller} (hspawn : x ≠ .spawning)
    (hstart : x = .starting → s.stopped = false) : (s.goto t x).Single := by
  have hold : ∀ u, (s.goto t x).callers u = .spawning → s.callers u = .spawning := by
    intro u hu
    by_cases hut : u = t
    · subst hut
      exact absurd (by simpa [Timer.goto] using hu) hspawn
    · simpa [Timer.goto, hut] using hu
  constructor
  case idle => exact fun he => ⟨(h.idle he).1, fun u hu => (h.idle he).2 u (hold u hu)⟩
  case spawning =>
    intro u hu
    obtain ⟨hlive, hunique⟩ := h.spawning u (hold u hu)
    exact ⟨hlive, fun v hv => hunique v (hold v hv)⟩
  case alone => exact h.alone
  case quiet =>
    intro hstopped
    have hbefore : s.stopped = true := hstopped
    obtain ⟨hsettled, hquiet⟩ := h.quiet hbefore
    refine ⟨fun u hu => ?_, hquiet⟩
    by_cases hut : u = t
    · subst hut
      have hx : x = .starting := by simpa [Timer.goto] using hu
      rw [hstart hx] at hbefore
      cases hbefore
    · exact hsettled u (by simpa [Timer.goto, hut] using hu)

theorem Single.start (h : s.Single) : (s.start t).Single := by
  have hrestarted : Single { s with stopped := false } := ⟨h.idle, h.spawning, h.alone, by simp⟩
  apply hrestarted.goto
  · split <;> simp
  · simp

omit [DecidableEq T] in
theorem Single.stopped (h : s.Single) (hsettled : s.Settled) (hquiet : ∀ w ∈ s.workers, w ≠ .sleeping)
    (htry : s.expired = false → s.try_to_expire = true) : Single { s with stopped := true } :=
  ⟨h.idle, h.spawning, h.alone, fun _ => ⟨hsettled, hquiet, htry⟩⟩

omit [DecidableEq T] in
theorem not_sleeping (hdead : ∀ i, ¬ s.Live i) : ∀ w ∈ s.workers, w ≠ .sleeping := by
  rintro w hw rfl
  obtain ⟨i, hi⟩ := List.mem_iff_getElem?.mp hw
  exact hdead i ⟨_, hi, by simp⟩

theorem Single.reset (h : s.Single) (hsettled : s.expired = true → s.Settled) : (s.reset t).Single := by
  unfold Timer.reset
  by_cases he : s.expired = true
  · rw [if_pos he]
    have hdone : Single { s with try_to_expire := false, stopped := true } := by
      have hquiet := not_sleeping (h.idle he).1
      exact ⟨h.idle, h.spawning, h.alone, fun _ => ⟨hsettled he, hquiet, fun hf => absurd (he.symm.trans hf) (by simp)⟩⟩
    exact hdone.goto (by simp) (by simp)
  · rw [if_neg he]
    exact h.goto (by simp) (by simp)

theorem Single.starting (h : s.Single) (ht : s.callers t = .starting) (he : s.expired = true) :
    (Timer.goto { s with expired := false } t .spawning).Single := by
  obtain ⟨hdead, hnone⟩ := h.idle he
  have honly : ∀ u, (Timer.goto { s with expired := false } t .spawning).callers u = .spawning → u = t := by
    intro u hu
    by_contra hut
    exact hnone u (by simpa [Timer.goto, hut] using hu)
  constructor
  case idle => simp [Timer.goto]
  case spawning =>
    intro u hu
    have hu' := honly u hu
    subst hu'
    exact ⟨hdead, honly⟩
  case alone => exact fun i j hi _ => absurd hi (hdead i)
  case quiet => exact fun hstopped => absurd ht ((h.quiet hstopped).1 t)

theorem Single.spawn (h : s.Single) (ht : s.callers t = .spawning) :
    (Timer.goto { s with workers := s.workers ++ [.checking] } t .idle).Single := by
  obtain ⟨hdead, hunique⟩ := h.spawning t ht
  have hnew : ∀ i, (Timer.goto { s with workers := s.workers ++ [.checking] } t .idle).Live i → i = s.workers.length := by
    rintro i ⟨w, hw, hlive⟩
    have hw' : (s.workers ++ [.checking])[i]? = some w := hw
    by_contra hi
    by_cases hlt : i < s.workers.length
    · rw [List.getElem?_append_left hlt] at hw'
      exact hdead i ⟨w, hw', hlive⟩
    · rw [List.getElem?_eq_none (by simp; omega)] at hw'
      cases hw'
  have hnone : ∀ u, (Timer.goto { s with workers := s.workers ++ [.checking] } t .idle).callers u ≠ .spawning := by
    intro u hu
    by_cases hut : u = t
    · subst hut
      simp [Timer.goto] at hu
    · exact hut (hunique u (by simpa [Timer.goto, hut] using hu))
  constructor
  case idle => exact fun he => absurd ht ((h.idle he).2 t)
  case spawning => exact fun u hu => absurd hu (hnone u)
  case alone => exact fun i j hi hj => (hnew i hi).trans (hnew j hj).symm
  case quiet =>
    intro hstopped
    obtain ⟨hsettled, hquiet, htry⟩ := h.quiet hstopped
    refine ⟨fun u hu => ?_, ?_, htry⟩
    · by_cases hut : u = t
      · subst hut
        simp [Timer.goto] at hu
      · exact hsettled u (by simpa [Timer.goto, hut] using hu)
    · intro w hw
      rcases List.mem_append.mp hw with hw | hw
      · exact hquiet w hw
      · simp [List.mem_singleton.mp hw]

omit [DecidableEq T] in
theorem live_set {w : Loop} (hi : s.workers[i]? = some w) (w' : Loop) :
    (∃ x, (s.workers.set i w')[j]? = some x ∧ x ≠ .exited) ↔ (if j = i then w' ≠ .exited else s.Live j) := by
  have hlt : i < s.workers.length := (List.getElem?_eq_some_iff.mp hi).1
  by_cases hji : j = i
  · subst hji
    simp [hlt]
  · have hij : i ≠ j := fun h => hji h.symm
    simp [hji, hij, Live]

omit [DecidableEq T] in
theorem Single.move (h : s.Single) {w w' : Loop} (hi : s.workers[i]? = some w) (hw : w ≠ .exited)
    (hw' : w' ≠ .exited) (hquiet : s.stopped = true → w' ≠ .sleeping) (n : Nat) :
    Single { s with workers := s.workers.set i w', calls := n } := by
  have hsame : ∀ j, Live { s with workers := s.workers.set i w', calls := n } j → s.Live j := by
    intro j hj
    have hj' := (live_set hi w').mp hj
    by_cases hji : j = i
    · subst hji
      exact ⟨w, hi, hw⟩
    · rwa [if_neg hji] at hj'
  constructor
  case idle => exact fun he => ⟨fun j hj => (h.idle he).1 j (hsame j hj), (h.idle he).2⟩
  case spawning => exact fun t ht => ⟨fun j hj => (h.spawning t ht).1 j (hsame j hj), (h.spawning t ht).2⟩
  case alone => exact fun j k hj hk => h.alone j k (hsame j hj) (hsame k hk)
  case quiet =>
    intro hstopped
    obtain ⟨hsettled, hold, htry⟩ := h.quiet hstopped
    refine ⟨hsettled, ?_, htry⟩
    intro x hx
    rcases List.mem_or_eq_of_mem_set hx with hx | rfl
    · exact hold x hx
    · exact hquiet hstopped

omit [DecidableEq T] in
theorem Single.leave (h : s.Single) (hi : s.workers[i]? = some .leaving) :
    Single { s with workers := s.workers.set i .exited, expired := true } := by
  have hlive : s.Live i := ⟨_, hi, by simp⟩
  have hdead : ∀ j, ¬ Live { s with workers := s.workers.set i .exited, expired := true } j := by
    intro j hj
    have hj' := (live_set hi .exited).mp hj
    by_cases hji : j = i
    · simp [hji] at hj'
    · rw [if_neg hji] at hj'
      exact hji (h.alone j i hj' hlive)
  have hnone : ∀ t, s.callers t ≠ .spawning := fun t ht => (h.spawning t ht).1 i hlive
  constructor
  case idle => exact fun _ => ⟨hdead, hnone⟩
  case spawning => exact fun t ht => absurd ht (hnone t)
  case alone => exact fun j k hj _ => absurd hj (hdead j)
  case quiet => exact fun hstopped => ⟨(h.quiet hstopped).1, not_sleeping hdead, by simp⟩

omit [DecidableEq T] in
theorem Single.worker {s' : Timer T} (h : s.Single) (he : s.worker i = some s') : s'.Single := by
  unfold Timer.worker at he
  cases hi : s.workers[i]? with
  | none =>
    rw [hi] at he
    cases he
  | some w =>
    rw [hi] at he
    cases w with
    | checking =>
      cases he
      apply h.move hi (by simp)
      · split <;> simp
      · intro hstopped
        have hrunning : s.expired = false := by
          by_contra hexp
          exact (h.idle (by simpa using hexp)).1 i ⟨_, hi, by simp⟩
        rw [if_pos ((h.quiet hstopped).2.2 hrunning)]
        simp
    | sleeping =>
      cases he
      exact h.move hi (by simp) (by simp) (by simp) _
    | leaving =>
      cases he
      exact h.leave hi
    | exited => cases he

theorem Single.caller {s' : Timer T} (h : s.Single) (hu : s.Undisturbed (.caller t)) (he : s.caller t = some s') :
    s'.Single := by
  obtain ⟨hstarting, hstopping, hreset⟩ := hu
  unfold Timer.caller at he
  cases ht : s.callers t with
  | idle =>
    rw [ht] at he
    cases he
  | starting =>
    rw [ht] at he
    cases he
    exact h.starting ht (hstarting ht)
  | spawning =>
    rw [ht] at he
    cases he
    exact h.spawn ht
  | stopping =>
    rw [ht] at he
    cases he
    by_cases htry : s.try_to_expire = true
    · rw [if_pos htry]
      obtain ⟨hsettled, hquiet⟩ := hstopping ht htry
      exact (h.stopped hsettled hquiet fun _ => htry).goto (by simp) (by simp)
    · rw [if_neg htry]
      exact h.goto (by simp) (by simp)
  | requesting =>
    rw [ht] at he
    cases he
    have hasked : Single { s with try_to_expire := true } :=
      ⟨h.idle, h.spawning, h.alone, fun hs => ⟨(h.quiet hs).1, (h.quiet hs).2.1, fun _ => rfl⟩⟩
    exact hasked.goto (by simp) (by simp)
  | entering =>
    rw [ht] at he
    cases he
    exact h.reset (hreset (.inl ht))
  | waiting =>
    rw [ht] at he
    cases he
    exact h.reset (hreset (.inr ht))

theorem step_single {s' : Timer T} {a : Act T} (h : s.Single) (hu : s.Undisturbed a) (he : s.step a = some s') :
    s'.Single := by
  cases a with
  | start t =>
    obtain ⟨-, he⟩ := Option.ite_none_right_eq_some.mp he
    cases he
    exact h.start
  | stop t =>
    obtain ⟨-, he⟩ := Option.ite_none_right_eq_some.mp he
    cases he
    apply h.goto
    · split <;> simp
    · split <;> simp
  | caller t => exact h.caller hu he
  | worker i => exact h.worker he

end Single

theorem step_calls {s s' : Timer T} {a : Act T} (hquiet : ∀ w ∈ s.workers, w ≠ .sleeping) (he : s.step a = some s') :
    s'.calls = s.calls := by
  cases a with
  | start t =>
    obtain ⟨-, he⟩ := Option.ite_none_right_eq_some.mp he
    cases he
    rfl
  | stop t =>
    obtain ⟨-, he⟩ := Option.ite_none_right_eq_some.mp he
    cases he
    rfl
  | caller t =>
    simp only [step, caller, reset] at he
    cases ht : s.callers t <;> rw [ht] at he <;> cases he <;> first | rfl | (split <;> rfl)
  | worker i =>
    simp only [step, worker] at he
    cases hi : s.workers[i]? with
    | none =>
      rw [hi] at he
      cases he
    | some w =>
      rw [hi] at he
      cases w with
      | checking =>
        cases he
        rfl
      | sleeping => exact absurd rfl (hquiet _ (List.mem_of_getElem? hi))
      | leaving =>
        cases he
        rfl
      | exited => cases he

/-- There is at most one worker, and after a `stop` that found the timer running no step
calls `task()` before the next `start`. -/
theorem one_worker {s : Timer T} (h : Reach.Runs step Undisturbed (init T) s) :
    (∀ i j, s.Live i → s.Live j → i = j) ∧
      (s.stopped = true → ∀ a s', s.step a = some s' → s'.calls = s.calls) := by
  have hsingle : s.Single := h.invariant Single init_single fun _ _ _ hs hu he => step_single hs hu he
  exact ⟨hsingle.alone, fun hstopped a s' he => step_calls (hsingle.quiet hstopped).2.1 he⟩

/-- One thread starts the timer, another one stops it after a call of `task()`. -/
def startStop : List (Act Bool) :=
  [.start true, .caller true, .caller true, .worker 0, .worker 0, .stop false, .worker 0, .caller false,
    .caller false, .caller false, .worker 0, .worker 0, .worker 0, .caller false]

theorem startStop_one_worker :
    ∃ s : Timer Bool, Reach.Runs step Undisturbed (init Bool) s ∧ s.stopped = true ∧ s.calls = 2 ∧
      (∀ i j, s.Live i → s.Live j → i = j) ∧ ∀ a s', s.step a = some s' → s'.calls = s.calls := by
  have hall : Reach.Allows step Undisturbed startStop (init Bool) := by decide
  have hrun := Reach.runs_of_run hall (show Reach.run step startStop (init Bool) = some _ from rfl)
  have hone := one_worker hrun
  exact ⟨_, hrun, rfl, rfl, hone.1, hone.2 rfl⟩

/-- Both threads read `_expired` before either clears it. -/
def bothStart : List (Act Bool) :=
  [.start true, .start false, .caller true, .caller false, .caller true, .caller false]

theorem bothStart_two_workers :
    ¬ ∀ s : Timer Bool, Reach.Runs step (fun _ _ => True) (init Bool) s →
      (∀ i j, s.Live i → s.Live j → i = j) ∧
        (s.stopped = true → ∀ a s', s.step a = some s' → s'.calls = s.calls) := by
  intro hall
  have hrun := Reach.runs_of_run_any (show Reach.run step bothStart (init Bool) = some _ from rfl)
  exact absurd ((hall _ hrun).1 0 1 ⟨.checking, rfl, by simp⟩ ⟨.checking, rfl, by simp⟩) (by simp)

end Timer

end CPractice
