import CPractice.Lib.Reach
import Mathlib.Data.Finset.Insert
import Mathlib.Data.Finset.Erase
import Mathlib.Logic.Function.Basic

/-! The client registry of the websocket server: `ClientManager.Start` against any number
of `handleEcho` calls and `Client.Read` goroutines, over unbuffered channels. -/

namespace CPractice

inductive Message (C : Type) where
  | register (conn : C)
  | unregister (conn : C)
  deriving DecidableEq, Repr

def Message.conn {C : Type} : Message C → C
  | .register conn => conn
  | .unregister conn => conn

/-- Where a client's `handleEcho` and then its `Read` stand. `leaving` and `deferred`
are the two sends on `Unregister`, `closing` and `closingAgain` the `Close` after each. -/
inductive Reader where
  | absent
  | registering
  | spawning
  | reading
  | leaving
  | closing
  | deferred
  | closingAgain
  | returned
  deriving DecidableEq, Repr

namespace Reader

/-- The message a blocked send offers, and where the goroutine goes on. -/
def send {C : Type} (c : C) : Reader → Option (Message C × Reader)
  | .registering => some (.register c, .spawning)
  | .leaving => some (.unregister c, .closing)
  | .deferred => some (.unregister c, .closingAgain)
  | _ => none

/-- A step of the goroutine on its own; `err` is what `ReadMessage` returns. -/
def next (err : Bool) : Reader → Option Reader
  | .absent => some .registering
  | .spawning => some .reading
  | .reading => some (if err then .leaving else .reading)
  | .closing => some .deferred
  | .closingAgain => some .returned
  | _ => none

def sent {C : Type} (c : C) : Reader → List (Message C)
  | .absent | .registering => []
  | .spawning | .reading | .leaving => [.register c]
  | .closing | .deferred => [.register c, .unregister c]
  | .closingAgain | .returned => [.register c, .unregister c, .unregister c]

theorem next_sent {C : Type} (c : C) {err : Bool} {r r' : Reader} (h : r.next err = some r') :
    r'.sent c = r.sent c := by
  cases r <;> cases err <;> cases h <;> rfl

theorem send_sent {C : Type} (c : C) {m : Message C} {r r' : Reader} (h : r.send c = some (m, r')) :
    r'.sent c = r.sent c ++ [m] ∧ m.conn = c := by
  cases r <;> cases h <;> exact ⟨rfl, rfl⟩

theorem sent_eq_append {C : Type} {c : C} {r : Reader} {ms : List (Message C)} {m : Message C}
    (h : r.sent c = ms ++ [m]) :
    (m = .register c ∧ ms = []) ∨ (m = .unregister c ∧ .register c ∈ ms) := by
  have hms : ms = (r.sent c).dropLast := by rw [h, List.dropLast_concat]
  have hm : (r.sent c).getLast? = some m := by rw [h, List.getLast?_concat]
  subst hms
  cases r <;> cases hm <;> simp [sent]

end Reader

/-- `received` is what `Start` has taken from a channel and not handled yet. `handled`
and `closed` record what it has handled and how often each `Send` was closed. -/
structure ClientManager (C : Type) where
  Clients : Finset C
  received : Option (Message C)
  readers : C → Reader
  handled : List (Message C)
  closed : C → Nat

namespace ClientManager

variable {C : Type}

def start (C : Type) : ClientManager C :=
  { Clients := ∅, received := none, readers := fun _ => .absent, handled := [], closed := fun _ => 0 }

def messages (s : ClientManager C) : List (Message C) := s.handled ++ s.received.toList

variable [DecidableEq C]

def handle (s : ClientManager C) : Message C → ClientManager C
  | .register conn => { s with Clients := insert conn s.Clients }
  | .unregister conn =>
    if conn ∈ s.Clients then
      { s with closed := Function.update s.closed conn (s.closed conn + 1), Clients := s.Clients.erase conn }
    else s

/-- `receive` is the rendezvous of `select` with a client's send, `handle` the body of
the `case` it chose. -/
inductive Act (C : Type) where
  | client (c : C) (err : Bool)
  | receive (c : C)
  | handle

def step (s : ClientManager C) : Act C → Option (ClientManager C)
  | .client c err => ((s.readers c).next err).map fun r => { s with readers := Function.update s.readers c r }
  | .receive c =>
    if s.received = none then
      ((s.readers c).send c).map fun x =>
        { s with received := some x.1, readers := Function.update s.readers c x.2 }
    else none
  | .handle => s.received.map fun m =>
    { s.handle m with received := none, handled := s.handled ++ [m] }

structure Orderly (s : ClientManager C) : Prop where
  sent : ∀ c, s.messages.filter (fun m => m.conn = c) = (s.readers c).sent c
  mem : ∀ c, c ∈ s.Clients ↔ .register c ∈ s.handled ∧ .unregister c ∉ s.handled
  closes : ∀ c, s.closed c = if .unregister c ∈ s.handled then 1 else 0

@[simp] theorem handle_readers (s : ClientManager C) (m : Message C) :
    (s.handle m).readers = s.readers := by
  cases m with
  | register conn => rfl
  | unregister conn =>
    rw [handle]
    split <;> rfl

theorem start_orderly : (start C).Orderly := by
  constructor <;> simp [start, messages, Reader.sent]

theorem Orderly.client {s : ClientManager C} (h : s.Orderly) {c : C} {err : Bool} {r : Reader}
    (hr : (s.readers c).next err = some r) :
    Orderly { s with readers := Function.update s.readers c r } := by
  constructor
  case sent =>
    intro k
    show s.messages.filter (fun m => m.conn = k) = (Function.update s.readers c r k).sent k
    by_cases hk : k = c
    · subst hk
      rw [Function.update_self, Reader.next_sent k hr]
      exact h.sent k
    · rw [Function.update_of_ne hk]
      exact h.sent k
  case mem => exact h.mem
  case closes => exact h.closes

theorem Orderly.receive {s : ClientManager C} (h : s.Orderly) {c : C} {m : Message C} {r : Reader}
    (hnone : s.received = none) (hr : (s.readers c).send c = some (m, r)) :
    Orderly { s with received := some m, readers := Function.update s.readers c r } := by
  obtain ⟨hsent, hconn⟩ := Reader.send_sent c hr
  constructor
  case sent =>
    intro k
    have hk := h.sent k
    rw [messages, hnone, Option.toList_none, List.append_nil] at hk
    show (s.handled ++ [m]).filter (fun m => m.conn = k) = (Function.update s.readers c r k).sent k
    rw [List.filter_append, hk]
    by_cases hkc : k = c
    · subst hkc
      rw [Function.update_self, hsent]
      simp [hconn]
    · rw [Function.update_of_ne hkc]
      have hne : c ≠ k := fun heq => hkc heq.symm
      simp [hconn, hne]
  case mem => exact h.mem
  case closes => exact h.closes

/-- The `Register` message is the first of its client, and has been handled before any
other of it is. -/
theorem Orderly.received {s : ClientManager C} (h : s.Orderly) {m : Message C} (hm : s.received = some m) :
    (m = .register m.conn ∧ ∀ x ∈ s.handled, x.conn ≠ m.conn) ∨
      (m = .unregister m.conn ∧ .register m.conn ∈ s.handled) := by
  have hsent := h.sent m.conn
  rw [messages, hm, Option.toList_some, List.filter_append] at hsent
  have hlast : [m].filter (fun x => x.conn = m.conn) = [m] := by simp
  rw [hlast] at hsent
  rcases Reader.sent_eq_append hsent.symm with ⟨hreg, hnil⟩ | ⟨hun, hmem⟩
  · refine .inl ⟨hreg, ?_⟩
    intro x hx hconn
    have hin : x ∈ s.handled.filter (fun x => x.conn = m.conn) := by simp [hx, hconn]
    rw [hnil] at hin
    cases hin
  · exact .inr ⟨hun, List.mem_of_mem_filter hmem⟩

theorem Orderly.handle {s : ClientManager C} (h : s.Orderly) {m : Message C} (hm : s.received = some m) :
    Orderly { s.handle m with received := none, handled := s.handled ++ [m] } := by
  have hsent : ∀ k, (s.handled ++ [m] ++ []).filter (fun m => m.conn = k) = ((s.handle m).readers k).sent k := by
    intro k
    have hk := h.sent k
    rw [messages, hm, Option.toList_some] at hk
    rw [List.append_nil, handle_readers, hk]
  rcases h.received hm with ⟨hreg, hfirst⟩ | ⟨hun, hbefore⟩
  · -- the first message of the client
    obtain ⟨c, rfl⟩ : ∃ c, m = .register c := ⟨_, hreg⟩
    have hnot : .unregister c ∉ s.handled := fun hin => hfirst _ hin rfl
    constructor
    case sent => exact hsent
    case mem =>
      intro k
      by_cases hk : k = c
      · subst hk
        simp [ClientManager.handle, hnot]
      · simp [ClientManager.handle, hk, h.mem k]
    case closes =>
      intro k
      simp [ClientManager.handle, h.closes k]
  · obtain ⟨c, rfl⟩ : ∃ c, m = .unregister c := ⟨_, hun⟩
    have hreg : .register c ∈ s.handled := hbefore
    by_cases hin : c ∈ s.Clients
    · have hnot : .unregister c ∉ s.handled := ((h.mem c).mp hin).2
      have hopen : s.closed c = 0 := by rw [h.closes c, if_neg hnot]
      constructor
      case sent => exact hsent
      case mem =>
        intro k
        by_cases hk : k = c
        · subst hk
          simp [ClientManager.handle, hin]
        · simp [ClientManager.handle, hin, hk, h.mem k]
      case closes =>
        intro k
        by_cases hk : k = c
        · subst hk
          simp [ClientManager.handle, hin, hopen]
        · simp [ClientManager.handle, hin, hk, h.closes k]
    · -- the second message: the client is gone
      have hgone : .unregister c ∈ s.handled := by
        by_contra hnot
        exact hin ((h.mem c).mpr ⟨hreg, hnot⟩)
      constructor
      case sent => exact hsent
      case mem =>
        intro k
        by_cases hk : k = c
        · subst hk
          simp [ClientManager.handle, hin]
        · simp [ClientManager.handle, hin, hk, h.mem k]
      case closes =>
        intro k
        by_cases hk : k = c
        · subst hk
          simp [ClientManager.handle, hin, h.closes k, hgone]
        · simp [ClientManager.handle, hin, hk, h.closes k]

theorem step_orderly {s s' : ClientManager C} {a : Act C} (h : s.Orderly) (he : s.step a = some s') :
    s'.Orderly := by
  cases a with
  | client c err =>
    obtain ⟨r, hr, rfl⟩ := Option.map_eq_some_iff.mp he
    exact h.client hr
  | receive c =>
    obtain ⟨hnone, he⟩ := Option.ite_none_right_eq_some.mp he
    obtain ⟨⟨m, r⟩, hr, rfl⟩ := Option.map_eq_some_iff.mp he
    exact h.receive hnone hr
  | handle =>
    obtain ⟨m, hm, rfl⟩ := Option.map_eq_some_iff.mp he
    exact h.handle hm

theorem Orderly.returned {s : ClientManager C} (h : s.Orderly) {c : C} (hc : s.readers c = .returned) :
    .unregister c ∈ s.handled := by
  have hsent := h.sent c
  rw [hc, Reader.sent, messages, List.filter_append] at hsent
  have hshort : (s.received.toList.filter (fun m => m.conn = c)).length ≤ 1 := by
    apply (List.length_filter_le _ _).trans
    cases s.received <;> simp
  have hin : .unregister c ∈ s.handled.filter (fun m => m.conn = c) := by
    cases hlist : s.handled.filter (fun m => m.conn = c) with
    | nil =>
      rw [hlist, List.nil_append] at hsent
      rw [hsent] at hshort
      simp at hshort
    | cons x xs =>
      rw [hlist, List.cons_append, List.cons.injEq] at hsent
      cases xs with
      | nil =>
        rw [List.nil_append] at hsent
        rw [hsent.2] at hshort
        simp at hshort
      | cons y ys =>
        rw [List.cons_append, List.cons.injEq] at hsent
        simp [hsent.2.1]
  exact List.mem_of_mem_filter hin

/-- Every `Send` is closed at most once, `Clients` has the clients whose `Register` and
none of whose `Unregister` messages were handled, and none whose `Read` has returned. -/
theorem registry_ok {s : ClientManager C} (h : Reach.Runs step (fun _ _ => True) (start C) s) :
    (∀ c, s.closed c ≤ 1) ∧
      (∀ c, c ∈ s.Clients ↔ .register c ∈ s.handled ∧ .unregister c ∉ s.handled) ∧
      ∀ c, s.readers c = .returned → c ∉ s.Clients := by
  have horderly : s.Orderly := h.invariant Orderly start_orderly fun _ _ _ hs _ he => step_orderly hs he
  refine ⟨?_, horderly.mem, ?_⟩
  · intro c
    rw [horderly.closes c]
    split <;> omega
  · intro c hc hin
    exact ((horderly.mem c).mp hin).2 (horderly.returned hc)

/-- Two clients; the first leaves while the second is still there, and its `Read` returns
before `Start` has handled its second message. -/
def oneLeaves : List (Act Bool) :=
  [.client true false, .client false false, .receive true, .handle, .receive false, .client true false,
    .handle, .client true true, .receive true, .client true false, .handle, .receive true,
    .client true false]

theorem oneLeaves_registry_ok :
    ∃ s : ClientManager Bool, Reach.Runs step (fun _ _ => True) (start Bool) s ∧
      s.readers true = .returned ∧ s.received = some (.unregister true) ∧ s.Clients = {false} ∧
      (∀ c, s.closed c ≤ 1) ∧
      (∀ c, c ∈ s.Clients ↔ .register c ∈ s.handled ∧ .unregister c ∉ s.handled) ∧
      ∀ c, s.readers c = .returned → c ∉ s.Clients := by
  have hrun := Reach.runs_of_run_any (show Reach.run step oneLeaves (start Bool) = some _ from rfl)
  exact ⟨_, hrun, rfl, rfl, by decide, registry_ok hrun⟩

end ClientManager

end CPractice
