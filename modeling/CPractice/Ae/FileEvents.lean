import Mathlib.Data.List.Basic

/-! The file events of `ae.c` over the calls of `ae_epoll.c`. The kernel is a
parameter: `epoll_ctl` may answer in any way and keep any state of its own.
Handlers and client data are addresses. -/

namespace CPractice

abbrev Ptr := Nat

def AE_OK : Int := 0
def AE_ERR : Int := -1

def AE_NONE : BitVec 32 := 0
def AE_READABLE : BitVec 32 := 1
def AE_WRITABLE : BitVec 32 := 2

def EPOLLIN : BitVec 32 := 1
def EPOLLOUT : BitVec 32 := 4

inductive EpollOp where
  | add
  | mod
  | del
  deriving DecidableEq, Repr

/-- `epoll_ctl` on the instance of the loop: whether the call succeeds, and the
kernel state after it. -/
abbrev EpollCtl (κ : Type) := κ → EpollOp → Nat → BitVec 32 → Bool × κ

structure AeFileEvent where
  mask : BitVec 32
  rfileProc : Ptr
  wfileProc : Ptr
  clientData : Ptr
  deriving DecidableEq, Repr

structure FileTable (κ : Type) where
  maxfd : Int
  setsize : Nat
  events : List AeFileEvent
  apidata : κ
  events_length : events.length = setsize

variable {κ : Type}

def noEvent : AeFileEvent := { mask := AE_NONE, rfileProc := 0, wfileProc := 0, clientData := 0 }

/-- `events[fd]`. Every caller has checked `fd` against `setsize`. -/
def FileTable.event (t : FileTable κ) (fd : Nat) : AeFileEvent := t.events.getD fd noEvent

def FileTable.setEvent (t : FileTable κ) (fd : Nat) (fe : AeFileEvent) : FileTable κ :=
  { t with events := t.events.set fd fe, events_length := by simp [t.events_length] }

def epollEvents (mask : BitVec 32) : BitVec 32 :=
  (if mask &&& AE_READABLE ≠ 0 then EPOLLIN else 0) |||
    (if mask &&& AE_WRITABLE ≠ 0 then EPOLLOUT else 0)

def aeCreateEventLoop (setsize : Nat) (fresh : Nat → AeFileEvent) (aeApiCreate : Option κ) :
    Option (FileTable κ) :=
  aeApiCreate.map fun apidata =>
    { maxfd := -1, setsize, apidata
      events := (List.range setsize).map fun i => { fresh i with mask := AE_NONE }
      events_length := by simp }

def resizedEvents (t : FileTable κ) (setsize : Nat) (fresh : Nat → AeFileEvent) : List AeFileEvent :=
  (List.range setsize).map fun i =>
    let fe := t.events.getD i (fresh i)
    if (i : Int) ≥ t.maxfd + 1 then { fe with mask := AE_NONE } else fe

/-- `aeApiResize` only reallocates the buffer of `epoll_wait` and never fails. -/
def aeResizeSetSize (t : FileTable κ) (setsize : Nat) (fresh : Nat → AeFileEvent) :
    Int × FileTable κ :=
  if setsize = t.setsize then (AE_OK, t)
  else if t.maxfd ≥ setsize then (AE_ERR, t)
  else (AE_OK, { t with
    setsize, events := resizedEvents t setsize fresh, events_length := by simp [resizedEvents] })

def aeApiAddEvent (epoll_ctl : EpollCtl κ) (t : FileTable κ) (fd : Nat) (mask : BitVec 32) :
    Bool × FileTable κ :=
  let op := if (t.event fd).mask = AE_NONE then EpollOp.add else EpollOp.mod
  let r := epoll_ctl t.apidata op fd (epollEvents (mask ||| (t.event fd).mask))
  (r.1, { t with apidata := r.2 })

def aeApiDelEvent (epoll_ctl : EpollCtl κ) (t : FileTable κ) (fd : Nat) (delmask : BitVec 32) :
    FileTable κ :=
  let mask := (t.event fd).mask &&& ~~~delmask
  let op := if mask ≠ AE_NONE then EpollOp.mod else EpollOp.del
  { t with apidata := (epoll_ctl t.apidata op fd (epollEvents mask)).2 }

def AeFileEvent.register (fe : AeFileEvent) (mask : BitVec 32) (proc clientData : Ptr) :
    AeFileEvent :=
  { mask := fe.mask ||| mask
    rfileProc := if mask &&& AE_READABLE ≠ 0 then proc else fe.rfileProc
    wfileProc := if mask &&& AE_WRITABLE ≠ 0 then proc else fe.wfileProc
    clientData }

def aeCreateFileEvent (epoll_ctl : EpollCtl κ) (t : FileTable κ) (fd : Nat) (mask : BitVec 32)
    (proc clientData : Ptr) : Int × FileTable κ :=
  if fd ≥ t.setsize then (AE_ERR, t)
  else
    let r := aeApiAddEvent epoll_ctl t fd mask
    let t := r.2
    if r.1 then
      let t := t.setEvent fd ((t.event fd).register mask proc clientData)
      (AE_OK, if (fd : Int) > t.maxfd then { t with maxfd := fd } else t)
    else (AE_ERR, t)

def lastRegistered (t : FileTable κ) : Nat → Int
  | 0 => -1
  | j + 1 => if (t.event j).mask ≠ AE_NONE then j else lastRegistered t j

def aeDeleteFileEvent (epoll_ctl : EpollCtl κ) (t : FileTable κ) (fd : Nat) (mask : BitVec 32) :
    FileTable κ :=
  if fd ≥ t.setsize then t
  else
    let fe := t.event fd
    if fe.mask = AE_NONE then t
    else
      let t := t.setEvent fd { fe with mask := fe.mask &&& ~~~mask }
      let t := if (fd : Int) = t.maxfd ∧ (t.event fd).mask = AE_NONE then
          { t with maxfd := lastRegistered t t.maxfd.toNat }
        else t
      aeApiDelEvent epoll_ctl t fd mask

end CPractice
