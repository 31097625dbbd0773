import CPractice.Ae.FileEvents
import CPractice.Lib.Chain

/-! The time events of `ae.c`: a linked list of nodes in the heap, edited by the
callbacks while `processTimeEvents` walks it. The clocks and the callbacks are
outside the repository. `World` says what every reading returns and what every
handler does, so a property of all worlds holds for every behaviour of them.
The trace and the counters of readings and calls are not fields of the program:
they record what the run did. -/

namespace CPractice

open CMem

def AE_NOMORE : Int := -1

structure AeTimeEvent where
  id : Int
  when_sec : Int
  when_ms : Int
  timeProc : Ptr
  finalizerProc : Ptr
  clientData : Ptr
  deriving DecidableEq, Repr

structure Time where
  sec : Int
  ms : Int
  deriving DecidableEq, Repr

def Time.toMs (t : Time) : Int := t.sec * 1000 + t.ms

def Time.Normal (t : Time) : Prop := 0 ≤ t.ms ∧ t.ms < 1000

def AeTimeEvent.when (te : AeTimeEvent) : Time := { sec := te.when_sec, ms := te.when_ms }

structure Timeval where
  tv_sec : Int
  tv_usec : Int
  usec_nonneg : 0 ≤ tv_usec
  usec_lt : tv_usec < 1000000

def Timeval.ofMs (ms : Int) : Timeval where
  tv_sec := ms / 1000
  tv_usec := ms % 1000 * 1000
  usec_nonneg := by omega
  usec_lt := by omega

/-- What a callback does to the loop before it returns. A `delete` says what the
finalizer of the event does, should the call find the event and run one. -/
inductive Script where
  | done
  | create (milliseconds : Int) (proc clientData finalizerProc : Ptr) (rest : Script)
  | delete (id : Int) (finalizer rest : Script)

/-- One run of a time event handler, and what its finalizer does when
`processTimeEvents` removes the event for an `AE_NOMORE`. -/
structure Callback where
  script : Script
  retval : Int
  finalizer : Script

structure World where
  time : Nat → Int
  gettimeofday : Nat → Timeval
  timeProc : Nat → Ptr → Int → Ptr → Callback

/-- The observable events of a run. Deletions carry the list before and after. -/
inductive Obs where
  | created (te : AeTimeEvent) (now : Time) (milliseconds : Int) (list : List AeTimeEvent)
  | deleted (id rc : Int) (before after : List AeTimeEvent)
  | finalized (id : Int)
  | inspected (te : AeTimeEvent) (now : Time)
  | invoked (te : AeTimeEvent) (now : Time)
  | rescheduled (id retval : Int) (now : Time)

structure TimerState where
  timeEventNextId : Int
  lastTime : Int
  timeReads : Nat
  clockReads : Nat
  calls : Nat
  trace : List Obs

structure AeTimers extends TimerState where
  timeEventHead : Option Nat
  heap : NodeHeap AeTimeEvent

def AeTimers.events (σ : AeTimers) : List AeTimeEvent :=
  (σ.heap.toList σ.heap.brk σ.timeEventHead).map Prod.snd

def AeTimers.observe (σ : AeTimers) (o : Obs) : AeTimers := { σ with trace := o :: σ.trace }

def initTimers (w : World) : AeTimers :=
  { timeEventNextId := 0, lastTime := w.time 0, timeReads := 1, clockReads := 0, calls := 0
    trace := [], timeEventHead := none, heap := .empty }

def aeGetTime (w : World) (n : Nat) : Time :=
  { sec := (w.gettimeofday n).tv_sec, ms := (w.gettimeofday n).tv_usec.tdiv 1000 }

theorem aeGetTime_normal (w : World) (n : Nat) : (aeGetTime w n).Normal := by
  have h₀ := (w.gettimeofday n).usec_nonneg
  have h₁ := (w.gettimeofday n).usec_lt
  constructor
  · exact Int.tdiv_nonneg h₀ (by decide)
  · show (w.gettimeofday n).tv_usec.tdiv 1000 < 1000
    rw [Int.tdiv_eq_ediv_of_nonneg h₀]
    omega

def addMilliseconds (now : Time) (milliseconds : Int) : Time :=
  let when_sec := now.sec + milliseconds.tdiv 1000
  let when_ms := now.ms + milliseconds.tmod 1000
  if when_ms ≥ 1000 then { sec := when_sec + 1, ms := when_ms - 1000 }
  else { sec := when_sec, ms := when_ms }

theorem addMilliseconds_toMs (now : Time) (milliseconds : Int) :
    (addMilliseconds now milliseconds).toMs = now.toMs + milliseconds := by
  have hdiv := Int.mul_tdiv_add_tmod milliseconds 1000
  simp only [addMilliseconds, Time.toMs]
  split <;> simp only <;> omega

theorem addMilliseconds_normal {now : Time} (hn : now.Normal) {milliseconds : Int}
    (hm : 0 ≤ milliseconds) : (addMilliseconds now milliseconds).Normal := by
  obtain ⟨hn₀, hn₁⟩ := hn
  have h₀ := Int.tmod_nonneg 1000 hm
  have h₁ := Int.tmod_lt_of_pos milliseconds (show (0 : Int) < 1000 by decide)
  simp only [addMilliseconds, Time.Normal]
  split <;> simp only <;> omega

def aeCreateTimeEvent (w : World) (σ : AeTimers) (milliseconds : Int)
    (proc clientData finalizerProc : Ptr) : Int × AeTimers :=
  let id := σ.timeEventNextId
  let now := aeGetTime w σ.clockReads
  let when := addMilliseconds now milliseconds
  let te : AeTimeEvent :=
    { id, when_sec := when.sec, when_ms := when.ms, timeProc := proc, finalizerProc, clientData }
  let σ := { σ with
    timeEventNextId := id + 1
    clockReads := σ.clockReads + 1
    heap := σ.heap.alloc { val := te, next := σ.timeEventHead }
    timeEventHead := some σ.heap.brk }
  (id, σ.observe (.created te now milliseconds σ.events))

/-- The finalizer runs between the unlinking and the `zfree`. -/
def aeDeleteTimeEvent (finalizer : AeTimers → Except Fault AeTimers) (σ : AeTimers) (id : Int) :
    Except Fault (Int × AeTimers) := do
  match ← σ.heap.search (fun te => te.id == id) σ.heap.brk none σ.timeEventHead with
  | none => return (AE_ERR, σ.observe (.deleted id AE_ERR σ.events σ.events))
  | some (prev, te, n) =>
    let (head, heap) ← σ.heap.unlink σ.timeEventHead prev n
    let unlinked := { σ with timeEventHead := head, heap }
    let unlinked := unlinked.observe (.deleted id AE_OK σ.events unlinked.events)
    let σ ← (if n.val.finalizerProc ≠ 0 then finalizer (unlinked.observe (.finalized id))
      else .ok unlinked)
    let heap ← σ.heap.free te
    return (AE_OK, { σ with heap })

def runScript (w : World) : Script → AeTimers → Except Fault AeTimers
  | .done, σ => .ok σ
  | .create milliseconds proc clientData finalizerProc rest, σ =>
    runScript w rest (aeCreateTimeEvent w σ milliseconds proc clientData finalizerProc).2
  | .delete id finalizer rest, σ => do
    let r ← aeDeleteTimeEvent (runScript w finalizer) σ id
    runScript w rest r.2

structure Pass where
  loop : AeTimers
  te : Option Nat
  maxId : Int
  processed : Nat

def resetWhen (h : NodeHeap AeTimeEvent) : Nat → Option Nat → Except Fault (NodeHeap AeTimeEvent)
  | _, none => .ok h
  | 0, some _ => .error .diverges
  | fuel + 1, some te => do
    let n ← h.load te
    let h ← h.store te { n with val := { n.val with when_sec := 0 } }
    resetWhen h fuel n.next

def enterPass (w : World) (σ : AeTimers) : Except Fault Pass := do
  let now := w.time σ.timeReads
  let heap ← (if now < σ.lastTime then resetWhen σ.heap σ.heap.brk σ.timeEventHead
    else .ok σ.heap)
  let σ := { σ with timeReads := σ.timeReads + 1, lastTime := now, heap }
  return { loop := σ, te := σ.timeEventHead, maxId := σ.timeEventNextId - 1, processed := 0 }

def due (now when : Time) : Bool :=
  now.sec > when.sec || (now.sec == when.sec && now.ms ≥ when.ms)

theorem due_iff {now when : Time} (hn : now.Normal) (hw : when.Normal) :
    due now when = true ↔ when.toMs ≤ now.toMs := by
  obtain ⟨hn₀, hn₁⟩ := hn
  obtain ⟨hw₀, hw₁⟩ := hw
  simp only [due, Time.toMs, Bool.or_eq_true, Bool.and_eq_true, decide_eq_true_eq, beq_iff_eq]
  omega

def reschedule (w : World) (σ : AeTimers) (te : Nat) (id retval : Int) : Except Fault AeTimers := do
  let now := aeGetTime w σ.clockReads
  let when := addMilliseconds now retval
  let n ← σ.heap.load te
  let heap ← σ.heap.store te { n with val := { n.val with when_sec := when.sec, when_ms := when.ms } }
  return { σ with heap, clockReads := σ.clockReads + 1 }.observe (.rescheduled id retval now)

def fire (w : World) (σ : AeTimers) (te : Nat) (ev : AeTimeEvent) (now : Time) :
    Except Fault AeTimers := do
  let cb := w.timeProc σ.calls ev.timeProc ev.id ev.clientData
  let σ ← runScript w cb.script ({ σ with calls := σ.calls + 1 }.observe (.invoked ev now))
  if cb.retval ≠ AE_NOMORE then reschedule w σ te ev.id cb.retval
  else
    let r ← aeDeleteTimeEvent (runScript w cb.finalizer) σ ev.id
    return r.2

def passStep (w : World) (p : Pass) (te : Nat) : Except Fault Pass := do
  let n ← p.loop.heap.load te
  if n.val.id > p.maxId then return { p with te := n.next }
  else
    let now := aeGetTime w p.loop.clockReads
    let σ := { p.loop with clockReads := p.loop.clockReads + 1 }
    if due now n.val.when then
      let σ ← fire w σ te n.val now
      return { p with loop := σ, te := σ.timeEventHead, processed := p.processed + 1 }
    else return { p with loop := σ.observe (.inspected n.val now), te := n.next }

/-- The first `n` iterations. The call has returned when `te` is NULL. -/
def passLoop (w : World) : Nat → Pass → Except Fault Pass
  | 0, p => .ok p
  | n + 1, p =>
    match p.te with
    | none => .ok p
    | some te => do passLoop w n (← passStep w p te)

def processTimeEvents (w : World) (n : Nat) (σ : AeTimers) : Except Fault Pass := do
  passLoop w n (← enterPass w σ)

end CPractice
