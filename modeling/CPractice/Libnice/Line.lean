import CPractice.Libnice.GLib
import CPractice.Zmalloc.Rss

/-! The line with credentials and candidates that the libnice examples print for the other side, and read
from it. -/

namespace CPractice

namespace Libnice

open CInt

/-- The functions of libnice on addresses. -/
structure Addressing where
  Address : Type
  to_string : Address → List UInt8
  set_from_string : List UInt8 → Option Address
  get_port : Address → Nat
  set_port : Address → Nat → Address

inductive CandidateType where
  | host
  | server_reflexive
  | peer_reflexive
  | relayed
  deriving DecidableEq, Repr

def candidate_types : List CandidateType := [.host, .server_reflexive, .peer_reflexive, .relayed]

def CandidateType.name : CandidateType → List UInt8
  | .host => "host".toList.map chr
  | .server_reflexive => "srflx".toList.map chr
  | .peer_reflexive => "prflx".toList.map chr
  | .relayed => "relay".toList.map chr

def MAX_FOUNDATION : Nat := 33

inductive Transport where
  | udp
  | tcp_active
  | tcp_passive
  | tcp_so
  deriving DecidableEq, Repr

structure Candidate (α : Type) where
  type : CandidateType
  component_id : Nat
  stream_id : Nat
  transport : Transport
  foundation : List UInt8
  priority : Nat
  addr : α
  deriving DecidableEq, Repr

variable (g : GLib) (a : Addressing)

def comma : UInt8 := chr ','

def printCandidate (c : Candidate a.Address) : List UInt8 :=
  c.foundation ++ comma :: (decimal c.priority ++ comma :: (a.to_string c.addr ++ comma ::
    (decimal (a.get_port c.addr) ++ comma :: c.type.name)))

/-- `cands` is what the agent has gathered. Nothing is printed without any. -/
def print_local_data (credentials : Option (List UInt8 × List UInt8)) (cands : List (Candidate a.Address)) :
    Option (List UInt8) :=
  match credentials, cands with
  | none, _ => none
  | some _, [] => none
  | some (local_ufrag, local_password), cands =>
    some (local_ufrag ++ chr ' ' :: local_password ++ cands.flatMap (fun c => chr ' ' :: printCandidate a c) ++
      [chr '\n'])

def atoi (text : List UInt8) : Int := toInt (strtoll text)

inductive Message where
  | addr (text : List UInt8)
  | candidate (text : List UInt8)
  | tooFew
  | credentials
  | candidates
  deriving DecidableEq, Repr

def parse_candidate (scand : List UInt8) (stream_id : Nat) : Except (List Message) (Candidate a.Address) :=
  match g.g_strsplit scand [comma] 5 with
  | [foundation, priority, addr, port, type] =>
    match candidate_types.find? (fun t => t.name == type) with
    | none => .error []
    | some ntype =>
      match a.set_from_string addr with
      | none => .error [.addr addr]
      | some address => .ok {
          type := ntype
          component_id := 1
          stream_id := stream_id
          transport := .udp
          foundation := foundation.take (MAX_FOUNDATION - 1)
          priority := toUnsigned (atoi priority)
          addr := a.set_port address (toUnsigned (atoi port)) }
  | _ => .error []

def delimiters : List UInt8 := [chr ' ', chr '\t', chr '\n']

structure Remote where
  ufrag : Option (List UInt8)
  passwd : Option (List UInt8)
  remote_candidates : List (Candidate a.Address)

def parseLoop (stream_id : Nat) : List (List UInt8) → Remote a → Except (List Message) (Remote a)
  | [], r => .ok r
  | arg :: line_argv, r =>
    if arg.length = 0 then parseLoop stream_id line_argv r
    else match r.ufrag, r.passwd with
      | none, _ => parseLoop stream_id line_argv { r with ufrag := some arg }
      | some _, none => parseLoop stream_id line_argv { r with passwd := some arg }
      | some _, some _ =>
        match parse_candidate g a arg stream_id with
        | .error messages => .error (messages ++ [.candidate arg])
        | .ok c => parseLoop stream_id line_argv { r with remote_candidates := c :: r.remote_candidates }

/-- What the agent answers to the credentials and to the candidates. -/
structure Agent where
  set_remote_credentials : List UInt8 → List UInt8 → Bool
  set_remote_candidates : List (Candidate a.Address) → Int

def offer (agent : Agent a) (r : Remote a) :
    Except (List Message) (List UInt8 × List UInt8 × List (Candidate a.Address)) :=
  match r with
  | ⟨some ufrag, some passwd, c :: cs⟩ =>
    if agent.set_remote_credentials ufrag passwd = false then .error [.credentials]
    else if agent.set_remote_candidates (c :: cs) < 1 then .error [.candidates]
    else .ok (ufrag, passwd, c :: cs)
  | _ => .error [.tooFew]

def parse_remote_data (agent : Agent a) (stream_id : Nat) (line : List UInt8) :
    Except (List Message) (List UInt8 × List UInt8 × List (Candidate a.Address)) := do
  let r ← parseLoop g a stream_id (g.g_strsplit_set line delimiters 0) ⟨none, none, []⟩
  offer a agent r

end Libnice

end CPractice
