import Mathlib.Data.List.Basic

/-! The socket functions of `anet.c`. The kernel and the resolver are outside the
repository: every address comes with the answers that the system calls made for it
get, and a run records the calls it makes. -/

namespace CPractice

def ANET_OK : Int := 0
def ANET_ERR : Int := -1
def ANET_ERR_LEN : Nat := 256
def ANET_CONNECT_NONBLOCK : BitVec 32 := 1
def EINPROGRESS : Int := 115

def AF_LOCAL : Int := 1
def AF_INET : Int := 2
def AF_INET6 : Int := 10
def SOCK_STREAM : Int := 1

inductive SockAddr where
  | ai_addr (bytes : List UInt8)
  | sun_path (path : List Char)
  deriving DecidableEq, Repr

structure AddrInfo where
  ai_family : Int
  ai_socktype : Int
  ai_protocol : Int
  ai_addr : SockAddr
  deriving DecidableEq, Repr

inductive SockOpt where
  | reuseaddr
  | v6only
  deriving DecidableEq, Repr

inductive FcntlCmd where
  | getfl
  | setfl
  deriving DecidableEq, Repr

/-- The value a system call returns, and `errno` where that is -1. -/
structure Answer where
  ret : Int
  errno : Int
  deriving DecidableEq, Repr

inductive Sys where
  | socket (family type protocol fd : Int)
  | setsockopt (fd : Int) (opt : SockOpt) (ret : Int)
  | fcntl (fd : Int) (cmd : FcntlCmd) (ret : Int)
  | bind (fd : Int) (addr : SockAddr) (ret : Int)
  | connect (fd : Int) (addr : SockAddr) (answer : Answer)
  | listen (fd backlog ret : Int)
  | chmod (addr : SockAddr) (perm : Nat)
  | close (fd : Int)
  deriving DecidableEq, Repr

/-- The answers to the calls made for one address. `source` is the answer of the
second `getaddrinfo`, each address with the answer of its `bind`. -/
structure Attempt where
  socket : Answer
  reuseaddr : Answer
  v6only : Answer
  getfl : Answer
  setfl : Answer
  source : Int × List (AddrInfo × Answer)
  bind : Answer
  connect : Answer
  listen : Answer
  deriving DecidableEq, Repr

structure Libc where
  strerror : Int → String
  gai_strerror : Int → String

/-- `err` is the caller's buffer, if it gave one; `calls` are the system calls of
this run, newest first. -/
structure Anet where
  errno : Int
  err : Option String
  calls : List Sys

def Anet.call (σ : Anet) (answer : Answer) (o : Sys) : Anet :=
  { σ with errno := if answer.ret = -1 then answer.errno else σ.errno, calls := o :: σ.calls }

def Anet.close (σ : Anet) (fd : Int) : Anet := { σ with calls := .close fd :: σ.calls }

def anetSetError (σ : Anet) (text : String) : Anet :=
  { σ with err := σ.err.map fun _ => String.ofList (text.toList.take (ANET_ERR_LEN - 1)) }

section Calls

variable (c : Libc)

def anetNonBlock (a : Attempt) (σ : Anet) (fd : Int) : Int × Anet :=
  let σ := σ.call a.getfl (.fcntl fd .getfl a.getfl.ret)
  if a.getfl.ret = -1 then (ANET_ERR, anetSetError σ ("fcntl(F_GETFL): " ++ c.strerror σ.errno))
  else
    let σ := σ.call a.setfl (.fcntl fd .setfl a.setfl.ret)
    if a.setfl.ret = -1 then
      (ANET_ERR, anetSetError σ ("fcntl(F_SETFL,O_NONBLOCK): " ++ c.strerror σ.errno))
    else (ANET_OK, σ)

def anetSetReuseAddr (a : Attempt) (σ : Anet) (fd : Int) : Int × Anet :=
  let σ := σ.call a.reuseaddr (.setsockopt fd .reuseaddr a.reuseaddr.ret)
  if a.reuseaddr.ret = -1 then
    (ANET_ERR, anetSetError σ ("setsockopt SO_REUSEADDR: " ++ c.strerror σ.errno))
  else (ANET_OK, σ)

def anetCreateSocket (a : Attempt) (σ : Anet) (domain : Int) : Int × Anet :=
  let s := a.socket.ret
  let σ := σ.call a.socket (.socket domain SOCK_STREAM 0 s)
  if s = -1 then (ANET_ERR, anetSetError σ ("creating socket: " ++ c.strerror σ.errno))
  else
    let r := anetSetReuseAddr c a σ s
    if r.1 = ANET_ERR then (ANET_ERR, r.2.close s) else (s, r.2)

def anetListen (a : Attempt) (σ : Anet) (s : Int) (sa : SockAddr) (backlog : Int) : Int × Anet :=
  let σ := σ.call a.bind (.bind s sa a.bind.ret)
  if a.bind.ret = -1 then (ANET_ERR, (anetSetError σ ("bind: " ++ c.strerror σ.errno)).close s)
  else
    let σ := σ.call a.listen (.listen s backlog a.listen.ret)
    if a.listen.ret = -1 then (ANET_ERR, (anetSetError σ ("listen: " ++ c.strerror σ.errno)).close s)
    else (ANET_OK, σ)

def anetV6Only (a : Attempt) (σ : Anet) (s : Int) : Int × Anet :=
  let σ := σ.call a.v6only (.setsockopt s .v6only a.v6only.ret)
  if a.v6only.ret = -1 then (ANET_ERR, (anetSetError σ ("setsockopt: " ++ c.strerror σ.errno)).close s)
  else (ANET_OK, σ)

def bindLoop (s : Int) : List (AddrInfo × Answer) → Anet → Bool × Anet
  | [], σ => (false, σ)
  | (b, answer) :: bservinfo, σ =>
    let σ := σ.call answer (.bind s b.ai_addr answer.ret)
    if answer.ret ≠ -1 then (true, σ) else bindLoop s bservinfo σ

/-- How an iteration over the addresses ends: with the next address, or with a
`goto`, and what `s` is then. -/
inductive Exit where
  | next (s : Int)
  | error (s : Int)
  | done (s : Int)
  deriving DecidableEq, Repr

def bindSource (a : Attempt) (σ : Anet) (s : Int) : Bool × Anet :=
  if a.source.1 ≠ 0 then (false, anetSetError σ (c.gai_strerror a.source.1))
  else
    let r := bindLoop s a.source.2 σ
    if r.1 then r else (false, anetSetError r.2 ("bind: " ++ c.strerror r.2.errno))

def connectAddr (flags : BitVec 32) (p : AddrInfo) (a : Attempt) (σ : Anet) (s : Int) : Exit × Anet :=
  let σ := σ.call a.connect (.connect s p.ai_addr a.connect)
  if a.connect.ret = -1 then
    if σ.errno = EINPROGRESS ∧ flags &&& ANET_CONNECT_NONBLOCK ≠ 0 then (.done s, σ)
    else (.next ANET_ERR, σ.close s)
  else (.done s, σ)

def tryConnect (source_addr : Bool) (flags : BitVec 32) (p : AddrInfo) (a : Attempt) (σ : Anet) :
    Exit × Anet :=
  let s := a.socket.ret
  let σ := σ.call a.socket (.socket p.ai_family p.ai_socktype p.ai_protocol s)
  if s = -1 then (.next s, σ)
  else
    let r := anetSetReuseAddr c a σ s
    if r.1 = ANET_ERR then (.error s, r.2)
    else
      let r := if flags &&& ANET_CONNECT_NONBLOCK ≠ 0 then anetNonBlock c a r.2 s else (ANET_OK, r.2)
      if r.1 ≠ ANET_OK then (.error s, r.2)
      else if source_addr then
        let b := bindSource c a r.2 s
        if b.1 then connectAddr flags p a b.2 s else (.done s, b.2)
      else connectAddr flags p a r.2 s

def connectLoop (source_addr : Bool) (flags : BitVec 32) :
    List (AddrInfo × Attempt) → Int → Anet → Exit × Anet
  | [], s, σ => (.error s, anetSetError σ ("creating socket: " ++ c.strerror σ.errno))
  | (p, a) :: servinfo, _, σ =>
    match tryConnect c source_addr flags p a σ with
    | (.next s, σ) => connectLoop source_addr flags servinfo s σ
    | r => r

def Exit.leave : Exit × Anet → Int × Anet
  | (.done s, σ) => (s, σ)
  | (.error s, σ) => if s ≠ ANET_ERR then (ANET_ERR, σ.close s) else (s, σ)
  | (.next s, σ) => (s, σ)

def anetTcpGenericConnect (servinfo : Int × List (AddrInfo × Attempt)) (source_addr : Bool)
    (flags : BitVec 32) (σ : Anet) : Int × Anet :=
  if servinfo.1 ≠ 0 then (ANET_ERR, anetSetError σ (c.gai_strerror servinfo.1))
  else Exit.leave (connectLoop c source_addr flags servinfo.2 ANET_ERR σ)

/-- `sun_path` has room for 107 characters and the terminator. -/
def sunPath (path : List Char) : SockAddr := .sun_path (path.take 107)

def anetUnixGenericConnect (a : Attempt) (path : List Char) (flags : BitVec 32) (σ : Anet) :
    Int × Anet :=
  let r := anetCreateSocket c a σ AF_LOCAL
  let s := r.1
  if s = ANET_ERR then (ANET_ERR, r.2)
  else
    let r := if flags &&& ANET_CONNECT_NONBLOCK ≠ 0 then anetNonBlock c a r.2 s else (ANET_OK, r.2)
    if r.1 ≠ ANET_OK then (ANET_ERR, r.2)
    else
      let σ := r.2.call a.connect (.connect s (sunPath path) a.connect)
      if a.connect.ret = -1 then
        if σ.errno = EINPROGRESS ∧ flags &&& ANET_CONNECT_NONBLOCK ≠ 0 then (s, σ)
        else (ANET_ERR, (anetSetError σ ("connect: " ++ c.strerror σ.errno)).close s)
      else (s, σ)

def serverLoop (af backlog : Int) : List (AddrInfo × Attempt) → Anet → Int × Anet
  | [], σ => (ANET_ERR, anetSetError σ "unable to bind socket")
  | (p, a) :: servinfo, σ =>
    let s := a.socket.ret
    let σ := σ.call a.socket (.socket p.ai_family p.ai_socktype p.ai_protocol s)
    if s = -1 then serverLoop af backlog servinfo σ
    else
      let r := if af = AF_INET6 then anetV6Only c a σ s else (ANET_OK, σ)
      if r.1 = ANET_ERR then (ANET_ERR, r.2)
      else
        let r := anetSetReuseAddr c a r.2 s
        if r.1 = ANET_ERR then (ANET_ERR, r.2)
        else
          let r := anetListen c a r.2 s p.ai_addr backlog
          if r.1 = ANET_ERR then (ANET_ERR, r.2) else (s, r.2)

def _anetTcpServer (servinfo : Int × List (AddrInfo × Attempt)) (af backlog : Int) (σ : Anet) :
    Int × Anet :=
  if servinfo.1 ≠ 0 then (ANET_ERR, anetSetError σ (c.gai_strerror servinfo.1))
  else serverLoop c af backlog servinfo.2 σ

def anetUnixServer (a : Attempt) (path : List Char) (perm : Nat) (backlog : Int) (σ : Anet) :
    Int × Anet :=
  let r := anetCreateSocket c a σ AF_LOCAL
  let s := r.1
  if s = ANET_ERR then (ANET_ERR, r.2)
  else
    let r := anetListen c a r.2 s (sunPath path) backlog
    if r.1 = ANET_ERR then (ANET_ERR, r.2)
    else if perm ≠ 0 then (s, { r.2 with calls := .chmod (sunPath path) perm :: r.2.calls })
    else (s, r.2)

end Calls

end CPractice
