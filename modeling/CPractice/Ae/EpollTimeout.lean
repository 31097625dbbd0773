import CPractice.Ae.Dispatch

/-! The `int` that `aeApiPoll` makes of the time to the nearest timer. The conversion
keeps the low 32 bits, and a negative timeout lets `epoll_wait` sleep forever. -/

namespace CPractice

open CMem

theorem timeMissing_usec_nonneg (when now : Time) : 0 ≤ (timeMissing when now).tv_usec := by
  simp only [timeMissing]
  split <;> omega

theorem epollTimeout_missing {when now : Time} (hw : when.Normal) (hn : now.Normal)
    (hle : now.toMs ≤ when.toMs) :
    epollTimeout (some (timeMissing when now)) = CInt.toInt (when.toMs - now.toMs) := by
  have husec := timeMissing_usec hw hn
  rw [if_pos hle, PollTimeval.usec] at husec
  have hnonneg := timeMissing_usec_nonneg when now
  have hms : (timeMissing when now).tv_sec * 1000 + (timeMissing when now).tv_usec.tdiv 1000 =
      when.toMs - now.toMs := by
    rw [Int.tdiv_eq_ediv_of_nonneg hnonneg]
    omega
  rw [epollTimeout, hms]

variable {κ : Type} {w : LoopWorld κ} {flags : BitVec 32} {l : AeEventLoop κ}

def PollsWithin (w : LoopWorld κ) (flags : BitVec 32) (l : AeEventLoop κ) (remaining : Int) : Prop :=
  ∃ fired l₀ tvp timeout, pollPart w flags l = .ok (fired, l₀) ∧ l₀.seen = [.polled tvp timeout fired] ∧
    0 ≤ timeout ∧ timeout ≤ remaining

theorem pollPart_missing {evs : List (Nat × AeTimeEvent)} {T : Int}
    (hc : Chain l.timers.heap l.timers.timeEventHead evs) (hl : ∀ x ∈ evs, x.2.when.Normal)
    (hT : IsEarliest evs T) (htime : flags &&& AE_TIME_EVENTS ≠ 0) (hwait : flags &&& AE_DONT_WAIT = 0)
    (hleft : (aeGetTime w.toWorld l.timers.clockReads).toMs ≤ T) :
    ∃ fired l₀ tvp, pollPart w flags l = .ok (fired, l₀) ∧
      l₀.seen = [.polled tvp (CInt.toInt (T - (aeGetTime w.toWorld l.timers.clockReads).toMs)) fired] := by
  obtain ⟨n, hn, hnorm, rfl⟩ := aeSearchNearestTimer_ok hc hl hT
  have htimeout := epollTimeout_missing hnorm (aeGetTime_normal w.toWorld l.timers.clockReads) hleft
  rw [pollPart, pollTimeout_ok htime hwait hn, ok_bind, ← htimeout]
  exact ⟨_, _, _, rfl, rfl⟩

/-- The bands in which the narrowed timeout is right alternate with bands in which it
is negative. -/
theorem pollsWithin_iff {evs : List (Nat × AeTimeEvent)} {T : Int}
    (hc : Chain l.timers.heap l.timers.timeEventHead evs) (hl : ∀ x ∈ evs, x.2.when.Normal)
    (hT : IsEarliest evs T) (htime : flags &&& AE_TIME_EVENTS ≠ 0) (hwait : flags &&& AE_DONT_WAIT = 0)
    (hleft : (aeGetTime w.toWorld l.timers.clockReads).toMs ≤ T) :
    PollsWithin w flags l (T - (aeGetTime w.toWorld l.timers.clockReads).toMs) ↔
      (T - (aeGetTime w.toWorld l.timers.clockReads).toMs) % 2 ^ 32 < 2 ^ 31 := by
  obtain ⟨fired, l₀, tvp, hpoll, hseen⟩ := pollPart_missing hc hl hT htime hwait hleft
  rw [← CInt.toInt_nonneg_iff]
  constructor
  · rintro ⟨fired', l₀', tvp', timeout, hpoll', hseen', hnonneg, -⟩
    rw [hpoll] at hpoll'
    cases hpoll'
    rw [hseen] at hseen'
    simp only [List.cons.injEq, FileObs.polled.injEq, and_true] at hseen'
    rw [hseen'.2]
    exact hnonneg
  · intro hnonneg
    exact ⟨fired, l₀, tvp, _, hpoll, hseen, hnonneg, CInt.toInt_le (by omega)⟩

def sleepWorld : LoopWorld Unit where
  toWorld := pollWorld 0 0
  epoll_ctl _ _ _ _ := (true, ())
  epoll_wait _ := []
  fileProc _ _ _ _ _ := []

def sleepLoop (milliseconds : Int) : AeEventLoop Unit where
  files := { maxfd := -1, setsize := 0, events := [], apidata := (), events_length := rfl }
  timers := (aeCreateTimeEvent (pollWorld 0 0) (initTimers (pollWorld 0 0)) milliseconds 1 0 0).2
  polls := 0
  calls := 0
  seen := []

def sleepEvent (sec ms : Int) : AeTimeEvent :=
  { id := 0, when_sec := sec, when_ms := ms, timeProc := 1, finalizerProc := 0, clientData := 0 }

theorem sleepEvent_earliest (sec ms : Int) : IsEarliest [(0, sleepEvent sec ms)] (sec * 1000 + ms) := by
  constructor
  · exact ⟨_, List.mem_singleton_self _, rfl⟩
  · rintro t ⟨x, hx, rfl⟩
    obtain rfl := List.mem_singleton.mp hx
    exact le_refl _

theorem sleepEvent_normal {sec ms : Int} (h : 0 ≤ ms) (h' : ms < 1000) :
    ∀ x ∈ [(0, sleepEvent sec ms)], x.2.when.Normal := by
  intro x hx
  obtain rfl := List.mem_singleton.mp hx
  exact ⟨h, h'⟩

theorem pollsWithin_of_short : PollsWithin sleepWorld AE_TIME_EVENTS (sleepLoop 1500) 1500 := by
  have hchain : Chain (sleepLoop 1500).timers.heap (sleepLoop 1500).timers.timeEventHead
      [(0, sleepEvent 1 500)] := ⟨rfl, none, rfl, rfl⟩
  exact (pollsWithin_iff (w := sleepWorld) hchain (sleepEvent_normal (by decide) (by decide))
    (sleepEvent_earliest 1 500) (by decide) (by decide) (by decide)).mpr (by decide)

/-- A timer that is due in 2^31 milliseconds. -/
theorem sleeps_forever :
    ¬ ∀ (w : LoopWorld Unit) (flags : BitVec 32) (l : AeEventLoop Unit) (evs : List (Nat × AeTimeEvent)) (T : Int),
      Chain l.timers.heap l.timers.timeEventHead evs → (∀ x ∈ evs, x.2.when.Normal) → IsEarliest evs T →
      flags &&& AE_TIME_EVENTS ≠ 0 → flags &&& AE_DONT_WAIT = 0 →
      0 ≤ T - (aeGetTime w.toWorld l.timers.clockReads).toMs →
      T - (aeGetTime w.toWorld l.timers.clockReads).toMs < 2 ^ 63 →
      PollsWithin w flags l (T - (aeGetTime w.toWorld l.timers.clockReads).toMs) := by
  intro hall
  obtain ⟨fired, l₀, tvp, timeout, hpoll, hseen, hnonneg, -⟩ :=
    hall sleepWorld AE_TIME_EVENTS (sleepLoop 2147483648) [(0, sleepEvent 2147483 648)] _
      ⟨rfl, none, rfl, rfl⟩ (sleepEvent_normal (by decide) (by decide)) (sleepEvent_earliest 2147483 648)
      (by decide) (by decide) (by decide) (by decide)
  have hcode : pollPart sleepWorld AE_TIME_EVENTS (sleepLoop 2147483648) = .ok (_, _) := rfl
  rw [hcode] at hpoll
  cases hpoll
  simp only [AeEventLoop.observe, List.cons.injEq, FileObs.polled.injEq] at hseen
  obtain ⟨⟨-, htimeout, -⟩, -⟩ := hseen
  rw [← htimeout] at hnonneg
  exact absurd hnonneg (by decide)

end CPractice
