import CPractice.Ae.FileEvents
import CPractice.Ae.PollTimeout
import CPractice.Lib.CInt

/-! One call of `aeProcessEvents`: the poll, the loop over the descriptors that
fired, and the time events. File handlers are outside the repository and may edit
both tables; the kernel answers every `epoll_wait` as it likes. -/

namespace CPractice

open CMem

def EPOLLERR : BitVec 32 := 8
def EPOLLHUP : BitVec 32 := 16

structure EpollEvent where
  events : BitVec 32
  fd : Nat
  deriving DecidableEq, Repr

structure AeFiredEvent where
  fd : Nat
  mask : BitVec 32
  deriving DecidableEq, Repr

inductive Side where
  | read
  | write
  deriving DecidableEq, Repr

def Side.bit : Side → BitVec 32
  | .read => AE_READABLE
  | .write => AE_WRITABLE

def AeFileEvent.proc (fe : AeFileEvent) : Side → Ptr
  | .read => fe.rfileProc
  | .write => fe.wfileProc

inductive FileAct where
  | create (fd : Nat) (mask : BitVec 32) (proc clientData : Ptr)
  | delete (fd : Nat) (mask : BitVec 32)
  | timers (script : Script)

structure LoopWorld (κ : Type) extends World where
  epoll_ctl : EpollCtl κ
  epoll_wait : Nat → List EpollEvent
  fileProc : Nat → Ptr → Nat → Ptr → BitVec 32 → List FileAct

/-- What happens to the file events in one call. `called` has the arguments of the
handler, `polled` those of `aeApiPoll` and `epoll_wait` and what fired. -/
inductive FileObs where
  | polled (tvp : Option PollTimeval) (timeout : Int) (fired : List AeFiredEvent)
  | created (fd : Nat) (mask : BitVec 32) (proc clientData : Ptr) (rc : Int)
  | deleted (fd : Nat) (mask : BitVec 32)
  | called (side : Side) (fd : Nat) (proc clientData : Ptr) (mask : BitVec 32)
  deriving DecidableEq, Repr

/-- `polls` and `calls` number the answers of the world, `seen` is what the current
call of `aeProcessEvents` has done so far, newest first. -/
structure AeEventLoop (κ : Type) where
  files : FileTable κ
  timers : AeTimers
  polls : Nat
  calls : Nat
  seen : List FileObs

variable {κ : Type}

def AeEventLoop.observe (l : AeEventLoop κ) (o : FileObs) : AeEventLoop κ :=
  { l with seen := o :: l.seen }

def firedMask (events : BitVec 32) : BitVec 32 :=
  (if events &&& EPOLLIN ≠ 0 then AE_READABLE else 0) |||
    (if events &&& EPOLLOUT ≠ 0 then AE_WRITABLE else 0) |||
    (if events &&& EPOLLERR ≠ 0 then AE_WRITABLE else 0) |||
    (if events &&& EPOLLHUP ≠ 0 then AE_WRITABLE else 0)

def epollTimeout : Option PollTimeval → Int
  | some tvp => CInt.toInt (tvp.tv_sec * 1000 + tvp.tv_usec.tdiv 1000)
  | none => -1

/-- The kernel fills in at most `setsize` events. An error counts as none. -/
def firedEvents (w : LoopWorld κ) (l : AeEventLoop κ) : List AeFiredEvent :=
  ((w.epoll_wait l.polls).take l.files.setsize).map fun e => { fd := e.fd, mask := firedMask e.events }

def aeApiPoll (w : LoopWorld κ) (l : AeEventLoop κ) (tvp : Option PollTimeval) :
    List AeFiredEvent × AeEventLoop κ :=
  let fired := firedEvents w l
  (fired, { l with polls := l.polls + 1 }.observe (.polled tvp (epollTimeout tvp) fired))

def runFileAct (w : LoopWorld κ) (l : AeEventLoop κ) : FileAct → Except Fault (AeEventLoop κ)
  | .create fd mask proc clientData =>
    let r := aeCreateFileEvent w.epoll_ctl l.files fd mask proc clientData
    .ok ({ l with files := r.2 }.observe (.created fd mask proc clientData r.1))
  | .delete fd mask =>
    .ok ({ l with files := aeDeleteFileEvent w.epoll_ctl l.files fd mask }.observe (.deleted fd mask))
  | .timers script => do
    let timers ← runScript w.toWorld script l.timers
    return { l with timers }

def runFileActs (w : LoopWorld κ) : List FileAct → AeEventLoop κ → Except Fault (AeEventLoop κ)
  | [], l => .ok l
  | act :: acts, l => do runFileActs w acts (← runFileAct w l act)

def callFileProc (w : LoopWorld κ) (l : AeEventLoop κ) (side : Side) (e : AeFiredEvent) :
    Except Fault (AeEventLoop κ) :=
  let fe := l.files.event e.fd
  runFileActs w (w.fileProc l.calls (fe.proc side) e.fd fe.clientData e.mask)
    ({ l with calls := l.calls + 1 }.observe (.called side e.fd (fe.proc side) fe.clientData e.mask))

def readPart (w : LoopWorld κ) (l : AeEventLoop κ) (e : AeFiredEvent) :
    Except Fault (Bool × AeEventLoop κ) :=
  if (l.files.event e.fd).mask &&& e.mask &&& AE_READABLE ≠ 0 then do
    return (true, ← callFileProc w l .read e)
  else .ok (false, l)

def writePart (w : LoopWorld κ) (rfired : Bool) (l : AeEventLoop κ) (e : AeFiredEvent) :
    Except Fault (AeEventLoop κ) :=
  let fe := l.files.event e.fd
  if fe.mask &&& e.mask &&& AE_WRITABLE ≠ 0 then
    if !rfired || fe.wfileProc != fe.rfileProc then callFileProc w l .write e else .ok l
  else .ok l

def dispatchOne (w : LoopWorld κ) (l : AeEventLoop κ) (e : AeFiredEvent) :
    Except Fault (AeEventLoop κ) :=
  if e.fd ≥ l.files.setsize then .error .outOfBounds
  else do
    let r ← readPart w l e
    writePart w r.1 r.2 e

def dispatch (w : LoopWorld κ) : List AeFiredEvent → AeEventLoop κ → Except Fault (AeEventLoop κ)
  | [], l => .ok l
  | e :: fired, l => do dispatch w fired (← dispatchOne w l e)

/-- The loop when `aeApiPoll` has returned and what it put into `fired`; nothing
fires in a call that does not poll. -/
def pollPart (w : LoopWorld κ) (flags : BitVec 32) (l : AeEventLoop κ) :
    Except Fault (List AeFiredEvent × AeEventLoop κ) := do
  let r ← pollTimeout w.toWorld l.files.maxfd flags l.timers
  let l := { l with timers := r.1, seen := [] }
  match r.2 with
  | none => return ([], l)
  | some tvp => return aeApiPoll w l tvp

def filePart (w : LoopWorld κ) (flags : BitVec 32) (l : AeEventLoop κ) :
    Except Fault (Nat × AeEventLoop κ) := do
  let r ← pollPart w flags l
  let l ← dispatch w r.1 r.2
  return (r.1.length, l)

structure Processed (κ : Type) where
  loop : AeEventLoop κ
  te : Option Nat
  processed : Nat

/-- `n` is the number of iterations of `processTimeEvents`; the call has returned
when `te` is NULL. -/
def aeProcessEvents (w : LoopWorld κ) (n : Nat) (flags : BitVec 32) (l : AeEventLoop κ) :
    Except Fault (Processed κ) := do
  let r ← filePart w flags l
  if flags &&& AE_TIME_EVENTS ≠ 0 then
    let p ← processTimeEvents w.toWorld n r.2.timers
    return { loop := { r.2 with timers := p.loop }, te := p.te, processed := r.1 + p.processed }
  else return { loop := r.2, te := none, processed := r.1 }

end CPractice
