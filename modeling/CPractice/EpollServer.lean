import CPractice.Lib.Reach
import Mathlib.Data.Finset.Basic
import Mathlib.Logic.Function.Basic

/-! The epoll server under `et()`: edge-triggered reports, one `accept` for each report of
the listening socket, and a `recv` loop for each report of a connection. -/

namespace CPractice

inductive Fd (C : Type) where
  | listenfd
  | connfd (c : C)
  deriving DecidableEq, Repr

inductive Status where
  | absent
  | queued
  | accepted
  | registered
  | closed
  deriving DecidableEq, Repr

inductive Hangup where
  | fin
  | reset
  deriving DecidableEq, Repr

/-- `buffer` is the number of bytes that wait for `recv`. -/
structure Conn where
  status : Status
  buffer : Nat
  hangup : Option Hangup
  deriving DecidableEq, Repr

def BUFFER_SIZE : Nat := 10

def MAX_EVENT_NUMBER : Nat := 1024

/-- The list has the events that are left of the batch. In `closing`, `recv` has returned 0. -/
inductive Server (C : Type) where
  | waiting
  | handling (events : List (Fd C))
  | adding (c : C) (events : List (Fd C))
  | receiving (c : C) (events : List (Fd C))
  | closing (c : C) (events : List (Fd C))

def Server.todo {C : Type} : Server C → List (Fd C)
  | .waiting => []
  | .handling events => events
  | .adding _ events => events
  | .receiving c events => .connfd c :: events
  | .closing c events => .connfd c :: events

def Server.atAccept {C : Type} : Server C → Bool
  | .handling (.listenfd :: _) => true
  | _ => false

/-- `ready` are the descriptors with an edge that was not reported yet. -/
structure EpollServer (C : Type) where
  queue : List C
  conns : C → Conn
  ready : Finset (Fd C)
  server : Server C

namespace EpollServer

variable {C : Type} [DecidableEq C]

def start (C : Type) : EpollServer C :=
  { queue := [], conns := fun _ => ⟨.absent, 0, none⟩, ready := ∅, server := .waiting }

def setConn (s : EpollServer C) (c : C) (x : Conn) : EpollServer C :=
  { s with conns := Function.update s.conns c x }

def arrive (s : EpollServer C) (c : C) (x : Conn) : EpollServer C :=
  { s.setConn c x with ready := if x.status = .registered then insert (.connfd c) s.ready else s.ready }

def accept (s : EpollServer C) (events : List (Fd C)) : EpollServer C :=
  match s.queue with
  | [] => { s with server := .handling events }
  | c :: cs =>
    { s.setConn c { s.conns c with status := .accepted } with queue := cs, server := .adding c events }

/-- A connection that is readable when it is added is reported once. -/
def addfd (s : EpollServer C) (c : C) (events : List (Fd C)) : EpollServer C :=
  { s.setConn c { s.conns c with status := .registered } with
    ready := if 0 < (s.conns c).buffer ∨ (s.conns c).hangup.isSome then insert (.connfd c) s.ready else s.ready
    server := .handling events }

def close (s : EpollServer C) (c : C) : EpollServer C :=
  { s.setConn c { s.conns c with status := .closed } with ready := s.ready.erase (.connfd c) }

/-- On a closed descriptor `recv` fails, and so does the `close` behind it. -/
def recv (s : EpollServer C) (c : C) (events : List (Fd C)) : EpollServer C :=
  if (s.conns c).status = .registered then
    if 0 < (s.conns c).buffer then
      s.setConn c { s.conns c with buffer := (s.conns c).buffer - (BUFFER_SIZE - 1) }
    else
      match (s.conns c).hangup with
      | none => { s with server := .handling events }
      | some .fin => { s with server := .closing c events }
      | some .reset => { s.close c with server := .handling events }
  else { s with server := .handling events }

def et (s : EpollServer C) : Option (EpollServer C) :=
  match s.server with
  | .waiting => none
  | .handling [] => some { s with server := .waiting }
  | .handling (.listenfd :: events) => some (s.accept events)
  | .handling (.connfd c :: events) => some { s with server := .receiving c events }
  | .adding c events => some (s.addfd c events)
  | .receiving c events => some (s.recv c events)
  | .closing c events => some { s.close c with server := .receiving c events }

inductive Act (C : Type) where
  | connect (c : C)
  | data (c : C) (n : Nat)
  | hangup (c : C) (h : Hangup)
  | epoll_wait (events : List (Fd C))
  | et

def Live (x : Conn) : Prop :=
  (x.status = .queued ∨ x.status = .accepted ∨ x.status = .registered) ∧ x.hangup = none

instance Live.decidable (x : Conn) : Decidable (Live x) := inferInstanceAs (Decidable (_ ∧ _))

def step (s : EpollServer C) : Act C → Option (EpollServer C)
  | .connect c =>
    if (s.conns c).status = .absent then
      some { s.setConn c ⟨.queued, 0, none⟩ with queue := s.queue ++ [c], ready := insert .listenfd s.ready }
    else none
  | .data c n =>
    if Live (s.conns c) ∧ 0 < n then
      some (s.arrive c { s.conns c with buffer := (s.conns c).buffer + n })
    else none
  | .hangup c h =>
    if Live (s.conns c) then some (s.arrive c { s.conns c with hangup := some h }) else none
  | .epoll_wait events =>
    match s.server with
    | .waiting =>
      if events ≠ [] ∧ events.Nodup ∧ events.length ≤ MAX_EVENT_NUMBER ∧ ∀ fd ∈ events, fd ∈ s.ready then
        some { s with ready := s.ready \ events.toFinset, server := .handling events }
      else none
    | _ => none
  | .et => s.et

/-- At `accept` there is at most one connection in the queue, or another report to come. -/
def OneAtATime (s : EpollServer C) : Act C → Prop
  | .et => s.server.atAccept = true → s.queue.length ≤ 1 ∨ .listenfd ∈ s.ready
  | _ => True

instance OneAtATime.decidable (s : EpollServer C) : ∀ a, Decidable (s.OneAtATime a)
  | .et => inferInstanceAs (Decidable (_ → _))
  | .connect _ | .data _ _ | .hangup _ _ | .epoll_wait _ => .isTrue trivial

/-- Whatever is pending has been reported and not been handled, or will be reported. -/
structure Covered (s : EpollServer C) : Prop where
  listening : s.queue ≠ [] → .listenfd ∈ s.ready ∨ .listenfd ∈ s.server.todo
  receiving : ∀ c, (s.conns c).status = .registered → 0 < (s.conns c).buffer →
    .connfd c ∈ s.ready ∨ .connfd c ∈ s.server.todo
  adding : ∀ c, (s.conns c).status = .accepted → ∃ events, s.server = .adding c events

section Covered

variable {s : EpollServer C} {c : C} {events : List (Fd C)}

omit [DecidableEq C] in
theorem start_covered : (start C).Covered := by
  constructor <;> simp [start]

theorem Covered.change {s' : EpollServer C} {x : Conn} (h : s.Covered)
    (hconns : s'.conns = Function.update s.conns c x)
    (hlisten : s'.queue ≠ [] → .listenfd ∈ s'.ready ∨ .listenfd ∈ s'.server.todo)
    (hkept : ∀ d, d ≠ c → .connfd d ∈ s.ready ∨ .connfd d ∈ s.server.todo →
      .connfd d ∈ s'.ready ∨ .connfd d ∈ s'.server.todo)
    (hadding : ∀ d es, d ≠ c → s.server = .adding d es → ∃ es', s'.server = .adding d es')
    (hreceiving : x.status = .registered → 0 < x.buffer → .connfd c ∈ s'.ready ∨ .connfd c ∈ s'.server.todo)
    (haccepted : x.status = .accepted → ∃ es, s'.server = .adding c es) : s'.Covered := by
  constructor
  case listening => exact hlisten
  case receiving =>
    intro d hd hbuffer
    rw [hconns] at hd hbuffer
    by_cases hdc : d = c
    · subst hdc
      rw [Function.update_self] at hd hbuffer
      exact hreceiving hd hbuffer
    · rw [Function.update_of_ne hdc] at hd hbuffer
      exact hkept d hdc (h.receiving d hd hbuffer)
  case adding =>
    intro d hd
    rw [hconns] at hd
    by_cases hdc : d = c
    · subst hdc
      rw [Function.update_self] at hd
      exact haccepted hd
    · rw [Function.update_of_ne hdc] at hd
      obtain ⟨es, hes⟩ := h.adding d hd
      exact hadding d es hdc hes

theorem Covered.connect (h : s.Covered) :
    Covered { s.setConn c ⟨.queued, 0, none⟩ with
      queue := s.queue ++ [c], ready := insert .listenfd s.ready } := by
  refine h.change (c := c) rfl ?_ ?_ ?_ ?_ ?_
  · exact fun _ => .inl (Finset.mem_insert_self _ _)
  · exact fun d _ hcover => hcover.imp_left Finset.mem_insert_of_mem
  · exact fun d es _ hes => ⟨es, hes⟩
  · intro hc
    cases hc
  · intro hc
    cases hc

theorem Covered.arrive (h : s.Covered) {x : Conn} (hx : x.status = (s.conns c).status) :
    Covered (s.arrive c x) := by
  have hgrow : ∀ fd ∈ s.ready, fd ∈ (s.arrive c x).ready := by
    intro fd hfd
    simp only [EpollServer.arrive]
    split
    · exact Finset.mem_insert_of_mem hfd
    · exact hfd
  refine h.change (c := c) rfl ?_ ?_ ?_ ?_ ?_
  · exact fun hq => (h.listening hq).imp_left (hgrow _)
  · exact fun d _ hcover => hcover.imp_left (hgrow _)
  · exact fun d es _ hes => ⟨es, hes⟩
  · intro hc _
    left
    simp [EpollServer.arrive, hc]
  · intro hc
    rw [hx] at hc
    exact h.adding c hc

theorem Covered.epoll_wait (h : s.Covered) (hs : s.server = .waiting) :
    Covered { s with ready := s.ready \ events.toFinset, server := .handling events } := by
  have hnone : s.server.todo = [] := by rw [hs]; rfl
  have hkept : ∀ fd ∈ s.ready, fd ∈ s.ready \ events.toFinset ∨ fd ∈ events := by
    intro fd hfd
    by_cases he : fd ∈ events
    · exact .inr he
    · exact .inl (by simp [hfd, he])
  constructor
  case listening =>
    intro hq
    have hready := h.listening hq
    rw [hnone] at hready
    exact hkept _ (hready.resolve_right List.not_mem_nil)
  case receiving =>
    intro d hd hbuffer
    have hready := h.receiving d hd hbuffer
    rw [hnone] at hready
    exact hkept _ (hready.resolve_right List.not_mem_nil)
  case adding =>
    intro d hd
    obtain ⟨es, hes⟩ := h.adding d hd
    rw [hs] at hes
    cases hes

omit [DecidableEq C] in
theorem Covered.goto (h : s.Covered) {x : Server C} (hidle : ∀ d es, s.server ≠ .adding d es)
    (hlisten : .listenfd ∈ s.server.todo → s.queue ≠ [] → .listenfd ∈ x.todo)
    (hconn : ∀ d, .connfd d ∈ s.server.todo → (s.conns d).status = .registered → 0 < (s.conns d).buffer →
      .connfd d ∈ x.todo) : Covered { s with server := x } := by
  constructor
  case listening => exact fun hq => (h.listening hq).imp_right fun hin => hlisten hin hq
  case receiving => exact fun d hd hbuffer => (h.receiving d hd hbuffer).imp_right fun hin => hconn d hin hd hbuffer
  case adding =>
    intro d hd
    obtain ⟨es, hes⟩ := h.adding d hd
    exact absurd hes (hidle d es)

theorem Covered.accept (h : s.Covered) (hs : s.server = .handling (.listenfd :: events))
    (hone : s.queue.length ≤ 1 ∨ .listenfd ∈ s.ready) : Covered (s.accept events) := by
  have hidle : ∀ d es, s.server ≠ .adding d es := by simp [hs]
  have hconn : ∀ d, .connfd d ∈ s.server.todo → .connfd d ∈ events := by
    intro d hd
    simpa [hs, Server.todo] using hd
  unfold EpollServer.accept
  split
  case h_1 hq =>
    exact h.goto (x := .handling events) hidle (fun _ hne => absurd hq hne) fun d hd _ _ => hconn d hd
  case h_2 c cs hq =>
    rw [hq, List.length_cons] at hone
    refine h.change (c := c) rfl ?_ ?_ ?_ ?_ ?_
    · intro hcs
      have hpos := List.length_pos_iff.mpr hcs
      exact .inl (hone.resolve_left (by simp only at hpos; omega))
    · exact fun d _ hcover => hcover.imp_right (hconn d)
    · exact fun d es _ hes => absurd hes (hidle d es)
    · intro hc
      cases hc
    · exact fun _ => ⟨events, rfl⟩

theorem Covered.addfd (h : s.Covered) (hs : s.server = .adding c events) : Covered (s.addfd c events) := by
  have htodo : s.server.todo = events := by rw [hs]; rfl
  have hgrow : ∀ fd ∈ s.ready, fd ∈ (s.addfd c events).ready := by
    intro fd hfd
    simp only [EpollServer.addfd]
    split
    · exact Finset.mem_insert_of_mem hfd
    · exact hfd
  refine h.change (c := c) rfl ?_ ?_ ?_ ?_ ?_
  · intro hq
    have hcover := h.listening hq
    rw [htodo] at hcover
    exact hcover.imp_left (hgrow _)
  · intro d _ hcover
    rw [htodo] at hcover
    exact hcover.imp_left (hgrow _)
  · intro d es hdc hes
    rw [hs] at hes
    cases hes
    exact absurd rfl hdc
  · intro _ hbuffer
    left
    simp [EpollServer.addfd, hbuffer]
  · intro hc
    cases hc

theorem Covered.close (h : s.Covered) (hidle : ∀ d es, s.server ≠ .adding d es) : Covered (s.close c) := by
  refine h.change (c := c) rfl ?_ ?_ ?_ ?_ ?_
  · intro hq
    exact (h.listening hq).imp_left fun hin => Finset.mem_erase.mpr ⟨by simp, hin⟩
  · intro d hdc hcover
    exact hcover.imp_left fun hin => Finset.mem_erase.mpr ⟨by simp [hdc], hin⟩
  · exact fun d es _ hes => absurd hes (hidle d es)
  · intro hc
    cases hc
  · intro hc
    cases hc

omit [DecidableEq C] in
theorem Covered.leave (h : s.Covered) (hs : s.server.todo = .connfd c :: events)
    (hidle : ∀ d es, s.server ≠ .adding d es) (hc : (s.conns c).status = .registered → (s.conns c).buffer = 0) :
    Covered { s with server := .handling events } := by
  apply h.goto hidle
  · intro hin _
    rw [hs] at hin
    exact List.mem_of_ne_of_mem (by simp) hin
  · intro d hin hd hbuffer
    have hdc : d ≠ c := by
      rintro rfl
      have hzero := hc hd
      omega
    rw [hs] at hin
    exact List.mem_of_ne_of_mem (by simp [hdc]) hin

theorem Covered.recv (h : s.Covered) (hs : s.server = .receiving c events) : Covered (s.recv c events) := by
  have htodo : s.server.todo = .connfd c :: events := by rw [hs]; rfl
  have hidle : ∀ d es, s.server ≠ .adding d es := by simp [hs]
  unfold EpollServer.recv
  by_cases hreg : (s.conns c).status = .registered
  · rw [if_pos hreg]
    by_cases hbuffer : 0 < (s.conns c).buffer
    · rw [if_pos hbuffer]
      refine h.change (c := c) rfl h.listening ?_ ?_ ?_ ?_
      · exact fun d _ hcover => hcover
      · exact fun d es _ hes => ⟨es, hes⟩
      · intro _ _
        right
        show .connfd c ∈ s.server.todo
        simp [htodo]
      · intro hc
        simp [hreg] at hc
    · rw [if_neg hbuffer]
      have hzero : (s.conns c).buffer = 0 := by omega
      cases (s.conns c).hangup with
      | none => exact h.leave htodo hidle fun _ => hzero
      | some hang =>
        cases hang with
        | fin =>
          apply h.goto hidle
          · intro hin _
            rwa [htodo] at hin
          · intro d hin _ _
            rwa [htodo] at hin
        | reset =>
          apply (h.close hidle).leave htodo hidle
          intro hclosed
          simp [EpollServer.close, setConn] at hclosed
  · rw [if_neg hreg]
    exact h.leave htodo hidle fun hr => absurd hr hreg

theorem et_covered {s' : EpollServer C} (h : s.Covered) (hone : s.OneAtATime .et) (he : s.et = some s') :
    s'.Covered := by
  unfold EpollServer.et at he
  cases hs : s.server with
  | waiting =>
    rw [hs] at he
    cases he
  | handling events =>
    rw [hs] at he
    have hidle : ∀ d es, s.server ≠ .adding d es := by simp [hs]
    cases events with
    | nil =>
      cases he
      apply h.goto hidle
      · intro hin _
        rwa [hs] at hin
      · intro d hin _ _
        rwa [hs] at hin
    | cons fd events =>
      cases fd with
      | listenfd =>
        cases he
        exact h.accept hs (hone (by rw [hs]; rfl))
      | connfd c =>
        cases he
        apply h.goto hidle
        · intro hin _
          rwa [hs] at hin
        · intro d hin _ _
          rwa [hs] at hin
  | adding c events =>
    rw [hs] at he
    cases he
    exact h.addfd hs
  | receiving c events =>
    rw [hs] at he
    cases he
    exact h.recv hs
  | closing c events =>
    rw [hs] at he
    cases he
    have hidle : ∀ d es, s.server ≠ .adding d es := by simp [hs]
    apply (h.close hidle).goto hidle
    · intro hin _
      have hin' : .listenfd ∈ s.server.todo := hin
      rwa [hs] at hin'
    · intro d hin _ _
      have hin' : .connfd d ∈ s.server.todo := hin
      rwa [hs] at hin'

theorem step_covered {s' : EpollServer C} {a : Act C} (h : s.Covered) (hone : s.OneAtATime a)
    (he : s.step a = some s') : s'.Covered := by
  cases a with
  | connect c =>
    obtain ⟨-, he⟩ := Option.ite_none_right_eq_some.mp he
    cases he
    exact h.connect
  | data c n =>
    obtain ⟨-, he⟩ := Option.ite_none_right_eq_some.mp he
    cases he
    exact h.arrive rfl
  | hangup c hang =>
    obtain ⟨-, he⟩ := Option.ite_none_right_eq_some.mp he
    cases he
    exact h.arrive rfl
  | epoll_wait events =>
    rw [step] at he
    cases hs : s.server with
    | waiting =>
      rw [hs] at he
      obtain ⟨-, he⟩ := Option.ite_none_right_eq_some.mp he
      cases he
      exact h.epoll_wait hs
    | _ =>
      rw [hs] at he
      cases he
  | et => exact et_covered h hone he

end Covered

def Open (x : Conn) : Prop := x.status = .accepted ∨ x.status = .registered

/-- If every `accept` empties the queue or is followed by another report, the server
never blocks with anything pending. -/
theorem nothing_pending {s : EpollServer C} (h : Reach.Runs step OneAtATime (start C) s)
    (hs : s.server = .waiting) (hready : s.ready = ∅) :
    s.queue = [] ∧ ∀ c, Open (s.conns c) → (s.conns c).buffer = 0 := by
  have hcovered : s.Covered := h.invariant Covered start_covered fun _ _ _ hc hone he => step_covered hc hone he
  have hnone : ∀ fd, ¬ (fd ∈ s.ready ∨ fd ∈ s.server.todo) := by simp [hready, hs, Server.todo]
  constructor
  · by_contra hq
    exact hnone _ (hcovered.listening hq)
  · intro c hopen
    by_contra hbuffer
    rcases hopen with hacc | hreg
    · obtain ⟨es, hes⟩ := hcovered.adding c hacc
      rw [hs] at hes
      cases hes
    · exact hnone _ (hcovered.receiving c hreg (by omega))

/-- The second connection comes between the report and the `accept`, data of the first
one before it is added. -/
def oneByOne : List (Act Bool) :=
  [.connect true, .epoll_wait [.listenfd], .connect false, .et, .data true 12, .et, .et,
    .epoll_wait [.listenfd, .connfd true], .et, .et, .et, .et, .data true 1, .et, .et, .et,
    .epoll_wait [.connfd true], .et, .et, .et]

theorem oneByOne_nothing_pending :
    ∃ s : EpollServer Bool, Reach.Runs step OneAtATime (start Bool) s ∧ s.server = .waiting ∧ s.ready = ∅ ∧
      Open (s.conns true) ∧ s.queue = [] ∧ ∀ c, Open (s.conns c) → (s.conns c).buffer = 0 := by
  have hone : Reach.Allows step OneAtATime oneByOne (start Bool) := by decide
  have hrun := Reach.runs_of_run hone (show Reach.run step oneByOne (start Bool) = some _ from rfl)
  exact ⟨_, hrun, rfl, by decide, .inr rfl, nothing_pending hrun rfl (by decide)⟩

def bothAtOnce : List (Act Bool) :=
  [.connect true, .connect false, .epoll_wait [.listenfd], .et, .et, .et]

theorem bothAtOnce_left_pending :
    ¬ ∀ s : EpollServer Bool, Reach.Runs step (fun _ _ => True) (start Bool) s → s.server = .waiting →
      s.ready = ∅ → s.queue = [] ∧ ∀ c, Open (s.conns c) → (s.conns c).buffer = 0 := by
  intro hall
  have hrun := Reach.runs_of_run_any (show Reach.run step bothAtOnce (start Bool) = some _ from rfl)
  exact absurd (hall _ hrun rfl (by decide)).1 (by decide)

end EpollServer

end CPractice
