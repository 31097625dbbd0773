import CPractice.Lib.Reach

/-! The timer that calls back under its mutex. One thread sets and stops it, and between these calls the thread of the
timer waits on the condition variable, wakes up for whatever reason, and calls back. -/

namespace CPractice

namespace CallbackTimer

/-- Where the thread is that uses the timer: in `setTimer` behind the fields, or in `stop` at the lock guard, in its
block, before `notify_one`, in `join`. A `join` without a thread has thrown in `thrown`. In `undefined` the fields
were written although a thread had not been joined, which is a data race. -/
inductive Owner where
  | idle
  | spawning
  | locking
  | expiring
  | notifying
  | joining
  | thrown
  | undefined
  deriving DecidableEq, Repr

/-- Where `threadFunc` is: `checking` is the predicate of `wait_for`, which is tested for the last time in `late`, and
a thread in `waking` has yet to lock the mutex. `looping` and `leaving` are the ends of the block of the lock. Without a
joinable thread it is `absent`. -/
inductive Worker where
  | absent
  | locking
  | checking
  | asleep
  | waking (timeout : Bool)
  | late
  | calling
  | called
  | looping
  | leaving
  | exited
  deriving DecidableEq, Repr

inductive Holder where
  | nobody
  | owner
  | worker
  deriving DecidableEq, Repr

/-- `calls` counts the callbacks since `setTimer`. -/
structure Timer where
  owner : Owner
  worker : Worker
  mutex : Holder
  expired : Bool
  is_recurring : Bool
  calls : Nat
  deriving DecidableEq, Repr

def init : Timer := ⟨.idle, .absent, .nobody, true, false, 0⟩

/-- `owner` and `worker` are the next step of a call and of `threadFunc`. A wait ends in `wake`, after the interval
or before. -/
inductive Act where
  | setTimer (is_recurring : Bool)
  | stop
  | owner
  | worker
  | wake (timeout : Bool)
  deriving DecidableEq, Repr

def setTimer (s : Timer) (is_recurring : Bool) : Timer :=
  if s.worker = .absent then { s with expired := false, is_recurring, calls := 0, owner := .spawning }
  else { s with owner := .undefined }

def ownerStep (s : Timer) : Option Timer :=
  match s.owner with
  | .idle => none
  | .spawning => some { s with worker := .locking, owner := .idle }
  | .locking => if s.mutex = .nobody then some { s with mutex := .owner, owner := .expiring } else none
  | .expiring => some { s with expired := true, mutex := .nobody, owner := .notifying }
  | .notifying =>
    some { s with worker := if s.worker = .asleep then .waking false else s.worker, owner := .joining }
  | .joining =>
    match s.worker with
    | .absent => some { s with owner := .thrown }
    | .exited => some { s with worker := .absent, owner := .idle }
    | _ => none
  | .thrown => some { s with owner := .idle }
  | .undefined => none

def threadFunc (s : Timer) : Option Timer :=
  match s.worker with
  | .absent => none
  | .locking => if s.mutex = .nobody then some { s with mutex := .worker, worker := .checking } else none
  | .checking =>
    if s.expired then some { s with worker := .leaving } else some { s with mutex := .nobody, worker := .asleep }
  | .asleep => none
  | .waking timeout =>
    if s.mutex = .nobody then some { s with mutex := .worker, worker := if timeout then .late else .checking } else none
  | .late => if s.expired then some { s with worker := .leaving } else some { s with worker := .calling }
  | .calling => some { s with calls := s.calls + 1, worker := .called }
  | .called => some { s with worker := if s.is_recurring then .looping else .leaving }
  | .looping => some { s with mutex := .nobody, worker := .locking }
  | .leaving => some { s with mutex := .nobody, worker := .exited }
  | .exited => none

def step (s : Timer) : Act → Option Timer
  | .setTimer is_recurring => if s.owner = .idle then some (setTimer s is_recurring) else none
  | .stop => if s.owner = .idle then some { s with owner := .locking } else none
  | .owner => ownerStep s
  | .worker => if s.owner = .undefined then none else threadFunc s
  | .wake timeout =>
    if s.owner ≠ .undefined ∧ s.worker = .asleep then some { s with worker := .waking timeout } else none

abbrev TimerRuns : Timer → Timer → Prop := Reach.Runs step fun _ _ => True

def Worker.holds : Worker → Bool
  | .checking | .late | .calling | .called | .looping | .leaving => true
  | _ => false

/-- Past the block of `stop`. -/
def Owner.stopped : Owner → Bool
  | .notifying | .joining => true
  | _ => false

structure Inv (s : Timer) : Prop where
  worker : s.mutex = .worker ↔ s.worker.holds = true
  owner : s.mutex = .owner ↔ s.owner = .expiring
  live : s.worker = .calling ∨ s.worker = .called ∨ s.worker = .looping → s.expired = false
  stopped : s.owner.stopped = true → s.expired = true
  awake : s.owner = .joining → s.worker ≠ .asleep
  fresh : s.owner = .spawning → s.worker = .absent ∧ s.calls = 0
  once : s.is_recurring = false → s.calls = 0 ∨
    (s.calls = 1 ∧ (s.worker = .called ∨ s.worker = .leaving ∨ s.worker = .exited ∨ s.worker = .absent))

variable {s s' : Timer}

theorem init_inv : Inv init where
  worker := by decide
  owner := by decide
  live := by decide
  stopped := by decide
  awake := by decide
  fresh := by decide
  once := by decide

theorem ownerStep_cases (h : ownerStep s = some s') :
    (s.owner = .spawning ∧ s' = { s with worker := .locking, owner := .idle }) ∨
    (s.owner = .locking ∧ s.mutex = .nobody ∧ s' = { s with mutex := .owner, owner := .expiring }) ∨
    (s.owner = .expiring ∧ s' = { s with expired := true, mutex := .nobody, owner := .notifying }) ∨
    (s.owner = .notifying ∧ s.worker = .asleep ∧ s' = { s with worker := .waking false, owner := .joining }) ∨
    (s.owner = .notifying ∧ s.worker ≠ .asleep ∧ s' = { s with owner := .joining }) ∨
    (s.owner = .joining ∧ s.worker = .absent ∧ s' = { s with owner := .thrown }) ∨
    (s.owner = .joining ∧ s.worker = .exited ∧ s' = { s with worker := .absent, owner := .idle }) ∨
    (s.owner = .thrown ∧ s' = { s with owner := .idle }) := by
  unfold ownerStep at h
  cases ho : s.owner <;> rw [ho] at h <;> dsimp only at h
  case idle | undefined => cases h
  case spawning | thrown =>
    cases h
    simp
  case locking =>
    split at h
    next hm =>
      cases h
      simp [hm]
    next => cases h
  case expiring =>
    cases h
    simp
  case notifying =>
    cases h
    by_cases hw : s.worker = .asleep <;> simp [hw]
  case joining =>
    cases hw : s.worker <;> rw [hw] at h <;> cases h <;> simp

theorem threadFunc_cases (h : threadFunc s = some s') :
    (s.worker = .locking ∧ s.mutex = .nobody ∧ s' = { s with mutex := .worker, worker := .checking }) ∨
    (s.worker = .checking ∧ s.expired = true ∧ s' = { s with worker := .leaving }) ∨
    (s.worker = .checking ∧ s.expired = false ∧ s' = { s with mutex := .nobody, worker := .asleep }) ∨
    (∃ w, (∃ timeout, s.worker = .waking timeout) ∧ s.mutex = .nobody ∧ (w = .late ∨ w = .checking) ∧
      s' = { s with mutex := .worker, worker := w }) ∨
    (s.worker = .late ∧ s.expired = true ∧ s' = { s with worker := .leaving }) ∨
    (s.worker = .late ∧ s.expired = false ∧ s' = { s with worker := .calling }) ∨
    (s.worker = .calling ∧ s' = { s with calls := s.calls + 1, worker := .called }) ∨
    (s.worker = .called ∧ s.is_recurring = true ∧ s' = { s with worker := .looping }) ∨
    (s.worker = .called ∧ s.is_recurring = false ∧ s' = { s with worker := .leaving }) ∨
    (s.worker = .looping ∧ s' = { s with mutex := .nobody, worker := .locking }) ∨
    (s.worker = .leaving ∧ s' = { s with mutex := .nobody, worker := .exited }) := by
  unfold threadFunc at h
  cases hw : s.worker <;> rw [hw] at h <;> dsimp only at h
  case absent | asleep | exited => cases h
  case locking =>
    split at h
    next hm =>
      cases h
      simp [hm]
    next => cases h
  case checking =>
    cases he : s.expired <;> rw [he] at h <;> cases h <;> simp
  case waking timeout =>
    split at h
    next hm =>
      cases h
      cases timeout <;> simp [hm]
    next => cases h
  case late =>
    cases he : s.expired <;> rw [he] at h <;> cases h <;> simp
  case calling =>
    cases h
    simp
  case called =>
    cases h
    cases hr : s.is_recurring <;> simp
  case looping | leaving =>
    cases h
    simp

theorem ownerStep_inv (h : Inv s) (he : ownerStep s = some s') : Inv s' := by
  have hbusy : s.mutex = .owner → ¬ (s.worker = .calling ∨ s.worker = .called ∨ s.worker = .looping) := by
    intro hm hw
    have hheld := h.worker.mpr (by rcases hw with hw | hw | hw <;> rw [hw] <;> rfl)
    rw [hm] at hheld
    cases hheld
  obtain ⟨hworker, howner, hlive, hstopped, hawake, hfresh, honce⟩ := h
  rcases ownerStep_cases he with ⟨ho, rfl⟩ | ⟨ho, hm, rfl⟩ | ⟨ho, rfl⟩ | ⟨ho, hw, rfl⟩ | ⟨ho, hw, rfl⟩ |
    ⟨ho, hw, rfl⟩ | ⟨ho, hw, rfl⟩ | ⟨ho, rfl⟩
  case inr.inr.inl =>
    have hm := howner.mpr ho
    exact ⟨by simp_all, by simp, fun hw => absurd hw (hbusy hm), fun _ => rfl, by simp, by simp, honce⟩
  all_goals
    clear he
    constructor <;> simp_all [Worker.holds, Owner.stopped]

theorem threadFunc_inv (h : Inv s) (he : threadFunc s = some s') : Inv s' := by
  have hjoin : s.owner = .joining → s.expired = true := fun ho => h.stopped (by rw [ho]; rfl)
  obtain ⟨hworker, howner, hlive, hstopped, hawake, hfresh, honce⟩ := h
  rcases threadFunc_cases he with ⟨hw, hm, rfl⟩ | ⟨hw, hx, rfl⟩ | ⟨hw, hx, rfl⟩ |
    ⟨w, ⟨timeout, hw⟩, hm, rfl | rfl, rfl⟩ |
    ⟨hw, hx, rfl⟩ | ⟨hw, hx, rfl⟩ | ⟨hw, rfl⟩ | ⟨hw, hr, rfl⟩ | ⟨hw, hr, rfl⟩ | ⟨hw, rfl⟩ | ⟨hw, rfl⟩
  case inr.inr.inl =>
    have hawake : s.owner ≠ .joining := fun ho => by simp [hjoin ho] at hx
    have hidle : s.owner ≠ .expiring := fun ho => by simp [howner.mpr ho, hw, Worker.holds] at hworker
    exact ⟨by simp [Worker.holds], by simp [hidle], by simp, hstopped, fun ho => absurd ho hawake,
      fun ho => by simpa [hw] using (hfresh ho).1, fun hr => .inl (by simpa [hw] using honce hr)⟩
  all_goals
    clear he
    constructor <;> simp_all [Worker.holds, Owner.stopped]

theorem step_inv {a : Act} (h : Inv s) (he : step s a = some s') : Inv s' := by
  cases a with
  | setTimer is_recurring =>
    rw [step] at he
    split at he
    next ho =>
      cases he
      have hm : s.mutex ≠ .owner := fun hm => by simpa [ho] using h.owner.mp hm
      rw [setTimer]
      split
      next hw =>
        exact ⟨h.worker, by simp [hm], fun _ => rfl, by simp [Owner.stopped], by simp, fun _ => ⟨hw, rfl⟩,
          fun _ => .inl rfl⟩
      next => exact ⟨h.worker, by simp [hm], h.live, by simp [Owner.stopped], by simp, by simp, h.once⟩
    · cases he
  | stop =>
    rw [step] at he
    split at he
    next ho =>
      cases he
      have hm : s.mutex ≠ .owner := fun hm => by simpa [ho] using h.owner.mp hm
      exact ⟨h.worker, by simp [hm], h.live, by simp [Owner.stopped], by simp, by simp, h.once⟩
    · cases he
  | owner => exact ownerStep_inv h he
  | worker =>
    rw [step] at he
    split at he
    · cases he
    · exact threadFunc_inv h he
  | wake timeout =>
    rw [step] at he
    split at he
    next hw =>
      cases he
      have hm : s.mutex ≠ .worker := fun hm => by simpa [hw.2, Worker.holds] using h.worker.mp hm
      have honce : s.is_recurring = false → s.calls = 0 := fun hr => by simpa [hw.2] using h.once hr
      exact ⟨by simp [hm, Worker.holds], h.owner, by simp, h.stopped, by simp,
        fun ho => by simpa [hw.2] using (h.fresh ho).1, fun hr => .inl (honce hr)⟩
    · cases he

theorem runs_inv (h : TimerRuns init s) : Inv s :=
  h.invariant Inv init_inv fun _ _ _ hi _ he => step_inv hi he

/-- A callback is made with the mutex locked, never once `stop` has had it, and once at most if it does not recur. -/
theorem callbacks_before_stop (h : TimerRuns init s) :
    (s.worker = .calling ∨ s.worker = .called → s.mutex = .worker ∧ s.expired = false ∧ s.owner.stopped = false) ∧
    (s.is_recurring = false → s.calls ≤ 1) := by
  have hinv := runs_inv h
  constructor
  · intro hw
    have hlive : s.expired = false := hinv.live (by rcases hw with hw | hw <;> simp [hw])
    refine ⟨hinv.worker.mpr (by rcases hw with hw | hw <;> rw [hw] <;> rfl), hlive, ?_⟩
    refine Bool.eq_false_iff.mpr fun hstopped => ?_
    have hexpired := hinv.stopped hstopped
    rw [hlive] at hexpired
    cases hexpired
  · intro hr
    rcases hinv.once hr with hcalls | hcalls
    all_goals omega

theorem callbacks_before_stop_first : ∃ s, TimerRuns init s ∧ s.worker = .calling ∧ s.mutex = .worker ∧
    s.expired = false ∧ s.calls ≤ 1 := by
  obtain ⟨s, hrun, hw, hr⟩ :
    ∃ s, Reach.run step [.setTimer false, .owner, .worker, .worker, .wake true, .worker, .worker]
      init = some s ∧ s.worker = .calling ∧ s.is_recurring = false := ⟨_, rfl, rfl, rfl⟩
  have hruns := Reach.runs_of_run_any hrun
  obtain ⟨hcalling, honce⟩ := callbacks_before_stop hruns
  exact ⟨s, hruns, hw, (hcalling (.inl hw)).1, (hcalling (.inl hw)).2.1, honce hr⟩

def Act.isCall : Act → Bool
  | .setTimer _ => true
  | .stop => true
  | _ => false

def Owner.rank : Owner → Nat
  | .notifying => 2
  | .joining => 1
  | _ => 0

def Worker.rank : Worker → Nat
  | .asleep => 4
  | .locking => 3
  | .waking _ => 3
  | .checking => 2
  | .late => 2
  | .leaving => 1
  | _ => 0

/-- `stop` is past its block, or has returned. -/
def Closing (s : Timer) : Prop :=
  s.expired = true ∧ ((s.owner.stopped = true ∧ s.worker ≠ .absent) ∨ (s.owner = .idle ∧ s.worker = .absent))

theorem closing_step {a : Act} (h : Inv s) (hc : Closing s) (ha : a.isCall = false) (he : step s a = some s') :
    Closing s' ∧ s'.calls = s.calls ∧ s'.owner.rank + s'.worker.rank < s.owner.rank + s.worker.rank := by
  obtain ⟨hexpired, hplace⟩ := hc
  have hlive := h.live
  cases a with
  | setTimer | stop => cases ha
  | owner =>
    rcases ownerStep_cases he with ⟨ho, rfl⟩ | ⟨ho, hm, rfl⟩ | ⟨ho, rfl⟩ | ⟨ho, hw, rfl⟩ | ⟨ho, hw, rfl⟩ |
      ⟨ho, hw, rfl⟩ | ⟨ho, hw, rfl⟩ | ⟨ho, rfl⟩
    all_goals
      clear he
      simp_all [Closing, Owner.stopped, Owner.rank, Worker.rank]
  | worker =>
    rw [step] at he
    split at he
    · cases he
    · rcases threadFunc_cases he with ⟨hw, hm, rfl⟩ | ⟨hw, hx, rfl⟩ | ⟨hw, hx, rfl⟩ |
        ⟨w, ⟨timeout, hw⟩, hm, rfl | rfl, rfl⟩ |
        ⟨hw, hx, rfl⟩ | ⟨hw, hx, rfl⟩ | ⟨hw, rfl⟩ | ⟨hw, hr, rfl⟩ | ⟨hw, hr, rfl⟩ | ⟨hw, rfl⟩ | ⟨hw, rfl⟩
      all_goals
        clear he
        simp_all [Closing, Worker.rank]
  | wake timeout =>
    rw [step] at he
    split at he
    next hw =>
      cases he
      simp_all [Closing, Worker.rank]
    · cases he

theorem closing_stuck (h : Inv s) (hc : Closing s) (howner : step s .owner = none)
    (hworker : step s .worker = none) :
    s.owner = .idle ∧ s.worker = .absent := by
  obtain ⟨hexpired, ⟨hstopped, habsent⟩ | hidle⟩ := hc
  · exfalso
    have hplace : s.owner = .notifying ∨ s.owner = .joining := by
      cases ho : s.owner <;> simp_all [Owner.stopped]
    rcases hplace with ho | ho
    · simp [step, ownerStep, ho] at howner
    · have hawake := h.awake ho
      have hm : s.mutex ≠ .owner := fun hm => by simpa [ho] using h.owner.mp hm
      have hfree : s.worker.holds = false → s.mutex = .nobody := by
        intro hholds
        have hm' : s.mutex ≠ .worker := fun hm' => by simp [h.worker.mp hm'] at hholds
        cases hmutex : s.mutex <;> simp_all
      cases hw : s.worker <;> simp_all [step, ownerStep, threadFunc, Worker.holds]
  · exact hidle

/-- Once `stop` has had the mutex it returns within six steps, without another callback, and it does not have to wait
for the interval. -/
theorem stop_returns (h : TimerRuns init s) (ho : s.owner.stopped = true) (hw : s.worker ≠ .absent) {as : List Act}
    (has : ∀ a ∈ as, a.isCall = false) (hrun : Reach.run step as s = some s') :
    as.length ≤ 6 ∧ s'.calls = s.calls ∧
    (step s' .owner = none → step s' .worker = none → s'.owner = .idle ∧ s'.worker = .absent) := by
  have hinv := runs_inv h
  have hclosing : Closing s := ⟨hinv.stopped ho, .inl ⟨ho, hw⟩⟩
  obtain ⟨⟨hinv', hclosing', hcalls⟩, hlen⟩ :=
    Reach.run_bounded (fun s' => Inv s' ∧ Closing s' ∧ s'.calls = s.calls)
    (fun a => a.isCall = false) (fun s => s.owner.rank + s.worker.rank) (fun s₁ a s₂ hi ha he => by
      obtain ⟨hinv₁, hclosing₁, hcalls₁⟩ := hi
      obtain ⟨hclosing₂, hcalls₂, hless⟩ := closing_step hinv₁ hclosing₁ ha he
      exact ⟨⟨step_inv hinv₁ he, hclosing₂, hcalls₂.trans hcalls₁⟩, hless⟩)
    has ⟨hinv, hclosing, rfl⟩ hrun
  have hrank : s.owner.rank + s.worker.rank ≤ 6 := by
    cases s.owner <;> cases s.worker <;> simp [Owner.rank, Worker.rank]
  exact ⟨by omega, hcalls, fun howner hworker => closing_stuck hinv' hclosing' howner hworker⟩

theorem stop_returns_asleep : ∃ s s', TimerRuns init s ∧ s.worker = .asleep ∧
    Reach.run step [.owner, .worker, .worker, .worker, .owner] s = some s' ∧ s'.owner = .idle ∧
      s'.worker = .absent := by
  obtain ⟨s, s', hrun, hrun', ho, hw, howner, hworker⟩ :
    ∃ s s', Reach.run step [.setTimer true, .owner, .worker, .worker,
      .stop, .owner, .owner] init = some s ∧ Reach.run step [.owner, .worker, .worker, .worker, .owner] s =
        some s' ∧
      s.owner.stopped = true ∧ s.worker = .asleep ∧ step s' .owner = none ∧ step s' .worker = none :=
    ⟨_, _, rfl, rfl, rfl, rfl, rfl, rfl⟩
  have hruns := Reach.runs_of_run_any hrun
  obtain ⟨-, -, hreturned⟩ := stop_returns hruns ho (by simp [hw]) (by decide) hrun'
  exact ⟨s, s', hruns, hw, hrun', hreturned howner hworker⟩

end CallbackTimer

end CPractice
