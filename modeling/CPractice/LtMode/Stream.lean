import CPractice.EpollServer

/-! The epoll server under `lt()`: connections are reported as long as they are readable, and each report is one
`recv`. The listening socket is edge-triggered here too. -/

namespace CPractice

namespace LtMode

/-- `sent` is all that has arrived, `buffer` the part that waits for `recv`, and `got` has what each `recv` returned. -/
structure Conn where
  status : Status
  sent : List UInt8
  buffer : List UInt8
  got : List (List UInt8)
  hangup : Option Hangup
  deriving DecidableEq

def Conn.Readable (x : Conn) : Prop := x.status = .registered ∧ (x.buffer ≠ [] ∨ x.hangup.isSome = true)

def Conn.Live (x : Conn) : Prop :=
  (x.status = .queued ∨ x.status = .accepted ∨ x.status = .registered) ∧ x.hangup = none

instance Conn.decidableReadable (x : Conn) : Decidable x.Readable := inferInstanceAs (Decidable (_ ∧ _))

instance Conn.decidableLive (x : Conn) : Decidable x.Live := inferInstanceAs (Decidable (_ ∧ _))

/-- A `recv` that returns 0 or -1 closes the socket, whatever the reason. -/
def Conn.recv (x : Conn) : Conn :=
  if x.status ≠ .registered then x
  else if x.buffer = [] then { x with status := .closed }
  else { x with buffer := x.buffer.drop (BUFFER_SIZE - 1), got := x.got ++ [x.buffer.take (BUFFER_SIZE - 1)] }

structure Conn.Ok (x : Conn) : Prop where
  stream : x.sent = x.got.flatten ++ x.buffer
  pieces : ∀ piece ∈ x.got, piece ≠ [] ∧ piece.length ≤ BUFFER_SIZE - 1
  closed : x.status = .closed → x.hangup.isSome = true ∧ x.buffer = []

theorem Conn.Ok.recv {x : Conn} (hok : x.Ok) (hread : x.Readable) : x.recv.Ok := by
  obtain ⟨hreg, hsome⟩ := hread
  unfold Conn.recv
  rw [if_neg (by simp [hreg])]
  split
  next hnil =>
    have hhang : x.hangup.isSome = true := hsome.resolve_left fun hne => hne hnil
    exact ⟨hok.stream, hok.pieces, fun _ => ⟨hhang, hnil⟩⟩
  next hne =>
    refine ⟨?_, fun piece hp => ?_, fun hclosed => ?_⟩
    · rw [hok.stream]
      simp
    · rcases List.mem_append.mp hp with hp | hp
      · exact hok.pieces piece hp
      · rw [List.mem_singleton.mp hp, List.length_take]
        refine ⟨?_, by omega⟩
        have hpos := List.length_pos_iff.mpr hne
        refine List.ne_nil_of_length_pos ?_
        rw [List.length_take, BUFFER_SIZE]
        omega
    · simp [hreg] at hclosed

inductive Point (C : Type) where
  | waiting
  | handling (events : List (Fd C))
  | adding (c : C) (events : List (Fd C))

def Point.todo {C : Type} : Point C → List (Fd C)
  | .waiting => []
  | .handling events => events
  | .adding _ events => events

/-- `edge` says that the listening socket will be reported. -/
structure LtServer (C : Type) where
  queue : List C
  conns : C → Conn
  edge : Bool
  server : Point C

namespace LtServer

variable {C : Type} [DecidableEq C]

def start (C : Type) : LtServer C :=
  { queue := [], conns := fun _ => ⟨.absent, [], [], [], none⟩, edge := false, server := .waiting }

def setConn (s : LtServer C) (c : C) (x : Conn) : LtServer C := { s with conns := Function.update s.conns c x }

def accept (s : LtServer C) (events : List (Fd C)) : LtServer C :=
  match s.queue with
  | [] => { s with server := .handling events }
  | c :: cs => { s.setConn c { s.conns c with status := .accepted } with queue := cs, server := .adding c events }

def lt (s : LtServer C) : Option (LtServer C) :=
  match s.server with
  | .waiting => none
  | .handling [] => some { s with server := .waiting }
  | .handling (.listenfd :: events) => some (s.accept events)
  | .handling (.connfd c :: events) => some { s.setConn c (s.conns c).recv with server := .handling events }
  | .adding c events =>
    some { s.setConn c { s.conns c with status := .registered } with server := .handling events }

/-- The reports a connection is still good for. -/
def Conn.units (x : Conn) : Nat :=
  if x.status = .absent ∨ x.status = .closed then 0 else x.buffer.length + if x.hangup.isSome then 1 else 0

def connWork (s : LtServer C) (c : C) : Nat :=
  4 * Conn.units (s.conns c) - if .connfd c ∈ s.server.todo then 3 else 0

def listenWork (s : LtServer C) : Nat :=
  4 * s.edge.toNat + (if .listenfd ∈ s.server.todo then 1 else 0) + 4 * s.queue.length

inductive Act (C : Type) where
  | connect (c : C)
  | data (c : C) (bytes : List UInt8)
  | hangup (c : C) (h : Hangup)
  | epoll_wait (events : List (Fd C))
  | lt

def Act.isServer : Act C → Bool
  | .epoll_wait _ => true
  | .lt => true
  | _ => false

def Reported (s : LtServer C) : Fd C → Prop
  | .listenfd => s.edge = true
  | .connfd c => (s.conns c).Readable

instance Reported.decidable (s : LtServer C) : ∀ fd, Decidable (s.Reported fd)
  | .listenfd => inferInstanceAs (Decidable (_ = _))
  | .connfd _ => inferInstanceAs (Decidable (Conn.Readable _))

/-- The report of the listening socket is given once. -/
def report (s : LtServer C) (events : List (Fd C)) : LtServer C :=
  { s with edge := s.edge && !decide (.listenfd ∈ events), server := .handling events }

def step (s : LtServer C) : Act C → Option (LtServer C)
  | .connect c =>
    if (s.conns c).status = .absent then
      some { s.setConn c ⟨.queued, [], [], [], none⟩ with queue := s.queue ++ [c], edge := true }
    else none
  | .data c bytes =>
    if (s.conns c).Live ∧ bytes ≠ [] then
      some (s.setConn c { s.conns c with sent := (s.conns c).sent ++ bytes, buffer := (s.conns c).buffer ++ bytes })
    else none
  | .hangup c h => if (s.conns c).Live then some (s.setConn c { s.conns c with hangup := some h }) else none
  | .epoll_wait events =>
    match s.server with
    | .waiting =>
      if events ≠ [] ∧ events.Nodup ∧ events.length ≤ MAX_EVENT_NUMBER ∧ ∀ fd ∈ events, s.Reported fd then
        some (s.report events)
      else none
    | _ => none
  | .lt => s.lt

abbrev LtRuns : LtServer C → LtServer C → Prop := Reach.Runs step fun _ _ => True

structure Inv (s : LtServer C) : Prop where
  nodup : s.server.todo.Nodup
  todo : ∀ c, .connfd c ∈ s.server.todo → (s.conns c).Readable
  queue : s.queue.Nodup
  queued : ∀ c ∈ s.queue, (s.conns c).status = .queued
  adding : ∀ c events, s.server = .adding c events → (s.conns c).status = .accepted
  conns : ∀ c, (s.conns c).Ok

section Invariant

variable {s s' : LtServer C} {c : C} {events : List (Fd C)}

omit [DecidableEq C] in
theorem start_inv : (start C).Inv where
  nodup := List.nodup_nil
  todo := by simp [start, Point.todo]
  queue := List.nodup_nil
  queued := by simp [start]
  adding := by simp [start]
  conns := fun c => ⟨rfl, by simp [start], by simp [start]⟩

/-- Something happens to one connection. -/
theorem Inv.change (h : s.Inv) {x : Conn} (hok : x.Ok)
    (htodo : .connfd c ∈ s.server.todo → x.Readable) (hqueue : c ∈ s.queue → x.status = .queued)
    (hadding : ∀ events, s.server = .adding c events → x.status = .accepted) : (s.setConn c x).Inv := by
  have hconns := fun P => (Function.forall_update_iff s.conns (a := c) (b := x) P).mpr
  constructor
  case nodup => exact h.nodup
  case queue => exact h.queue
  case todo => exact hconns (fun d y => .connfd d ∈ s.server.todo → y.Readable) ⟨htodo, fun d _ => h.todo d⟩
  case queued => exact hconns (fun d y => d ∈ s.queue → y.status = .queued) ⟨hqueue, fun d _ => h.queued d⟩
  case adding =>
    exact hconns (fun d y => ∀ events, s.server = .adding d events → y.status = .accepted)
      ⟨hadding, fun d _ => h.adding d⟩
  case conns => exact hconns (fun _ y => y.Ok) ⟨hok, fun d _ => h.conns d⟩

omit [DecidableEq C] in
/-- The server turns to something else. -/
theorem Inv.goto (h : s.Inv) {x : Point C} (hnodup : x.todo.Nodup)
    (htodo : ∀ c, .connfd c ∈ x.todo → .connfd c ∈ s.server.todo)
    (hadding : ∀ c events, x ≠ .adding c events) : Inv { s with server := x } where
  nodup := hnodup
  todo := fun c hc => h.todo c (htodo c hc)
  queue := h.queue
  queued := h.queued
  adding := fun c events hx => absurd hx (hadding c events)
  conns := h.conns

theorem Inv.accept (h : s.Inv) (hs : s.server = .handling (.listenfd :: events)) : (s.accept events).Inv := by
  have hnodup := h.nodup
  rw [hs, Point.todo, List.nodup_cons] at hnodup
  have htodo : ∀ d, .connfd d ∈ events → (s.conns d).Readable := by
    intro d hd
    exact h.todo d (by rw [hs]; exact List.mem_cons_of_mem _ hd)
  have hgoto : Inv { s with server := .handling events } :=
    h.goto hnodup.2 (fun d hd => by rw [hs]; exact List.mem_cons_of_mem _ hd) (by simp)
  unfold LtServer.accept
  split
  case h_1 => exact hgoto
  case h_2 c cs hq =>
    have hqueue := h.queue
    rw [hq, List.nodup_cons] at hqueue
    have hqueued : (s.conns c).status = .queued := h.queued c (by rw [hq]; exact List.mem_cons_self)
    have hok := h.conns c
    have hconns := fun P =>
      (Function.forall_update_iff s.conns (a := c) (b := { s.conns c with status := .accepted }) P).mpr
    constructor
    case nodup => exact hnodup.2
    case queue => exact hqueue.2
    case todo =>
      refine hconns (fun d y => .connfd d ∈ events → y.Readable) ⟨fun hin => ?_, fun d _ => htodo d⟩
      have hreg := (htodo c hin).1
      rw [hqueued] at hreg
      cases hreg
    case queued =>
      refine hconns (fun d y => d ∈ cs → y.status = .queued) ⟨fun hin => absurd hin hqueue.1, fun d _ hin => ?_⟩
      exact h.queued d (by rw [hq]; exact List.mem_cons_of_mem _ hin)
    case adding =>
      intro d es hd
      cases hd
      show (Function.update s.conns c _ c).status = _
      rw [Function.update_self]
    case conns => exact hconns (fun _ y => y.Ok) ⟨⟨hok.stream, hok.pieces, by simp⟩, fun d _ => h.conns d⟩

theorem lt_inv (h : s.Inv) (he : s.lt = some s') : s'.Inv := by
  unfold LtServer.lt at he
  cases hs : s.server with
  | waiting =>
    rw [hs] at he
    cases he
  | handling events =>
    rw [hs] at he
    cases events with
    | nil =>
      cases he
      exact h.goto List.nodup_nil (by simp [Point.todo]) (by simp)
    | cons fd events =>
      have hnodup := h.nodup
      rw [hs, Point.todo, List.nodup_cons] at hnodup
      cases fd with
      | listenfd =>
        cases he
        exact h.accept hs
      | connfd c =>
        cases he
        have hread : (s.conns c).Readable := h.todo c (by rw [hs]; exact List.mem_cons_self)
        have hgoto : Inv { s with server := .handling events } :=
          h.goto hnodup.2 (fun d hd => by rw [hs]; exact List.mem_cons_of_mem _ hd) (by simp)
        refine hgoto.change ((h.conns c).recv hread) (fun hin => absurd hin hnodup.1) (fun hin => ?_) (by simp)
        have hqueued := h.queued c hin
        rw [hread.1] at hqueued
        cases hqueued
  | adding c events =>
    rw [hs] at he
    cases he
    have haccepted := h.adding c events hs
    have hgoto : Inv { s with server := .handling events } :=
      h.goto (by have := h.nodup; rwa [hs] at this) (fun d hd => by rw [hs]; exact hd) (by simp)
    have hok := h.conns c
    refine hgoto.change ⟨hok.stream, hok.pieces, by simp⟩ (fun hin => ?_) (fun hin => ?_) (by simp)
    · have hreg := (hgoto.todo c hin).1
      rw [haccepted] at hreg
      cases hreg
    · have hqueued := h.queued c hin
      rw [haccepted] at hqueued
      cases hqueued

theorem epoll_wait_cases (he : s.step (.epoll_wait events) = some s') :
    s.server = .waiting ∧ events ≠ [] ∧ events.Nodup ∧ (∀ fd ∈ events, s.Reported fd) ∧
      s' = s.report events := by
  unfold step at he
  cases hs : s.server with
  | waiting =>
    rw [hs] at he
    dsimp only at he
    split at he
    next hall =>
      cases he
      exact ⟨rfl, hall.1, hall.2.1, hall.2.2.2, rfl⟩
    · cases he
  | handling | adding =>
    rw [hs] at he
    cases he

theorem step_inv {a : Act C} (h : s.Inv) (he : s.step a = some s') : s'.Inv := by
  cases a with
  | connect c =>
    rw [step] at he
    split at he
    next habsent =>
      cases he
      have hc : c ∉ s.queue := by
        intro hin
        have hqueued := h.queued c hin
        rw [habsent] at hqueued
        cases hqueued
      have hconns := fun P => (Function.forall_update_iff s.conns (a := c) (b := ⟨.queued, [], [], [], none⟩) P).mpr
      constructor
      case nodup => exact h.nodup
      case queue =>
        refine List.nodup_append.mpr ⟨h.queue, List.nodup_singleton c, fun a ha b hb hab => ?_⟩
        rw [hab, List.mem_singleton.mp hb] at ha
        exact hc ha
      case todo =>
        refine hconns (fun d y => .connfd d ∈ s.server.todo → y.Readable) ⟨fun hin => ?_, fun d _ => h.todo d⟩
        have hreg := (h.todo c hin).1
        rw [habsent] at hreg
        cases hreg
      case queued =>
        refine hconns (fun d y => d ∈ s.queue ++ [c] → y.status = .queued) ⟨fun _ => rfl, fun d hdc hin => ?_⟩
        exact h.queued d (by simpa [hdc] using hin)
      case adding =>
        refine hconns (fun d y => ∀ events, s.server = .adding d events → y.status = .accepted)
          ⟨fun es hes => ?_, fun d _ => h.adding d⟩
        have haccepted := h.adding c es hes
        rw [habsent] at haccepted
        cases haccepted
      case conns => exact hconns (fun _ y => y.Ok) ⟨⟨rfl, by simp, by simp⟩, fun d _ => h.conns d⟩
    · cases he
  | data c bytes =>
    rw [step] at he
    split at he
    next hlive =>
      cases he
      have hok := h.conns c
      refine h.change ⟨?_, hok.pieces, fun hclosed => ?_⟩ (fun hin => ?_) (h.queued c) (h.adding c)
      · rw [hok.stream, List.append_assoc]
      · rcases hlive.1.1 with hst | hst | hst
        all_goals simp [hst] at hclosed
      · exact ⟨(h.todo c hin).1, .inl (by simp [hlive.2])⟩
    · cases he
  | hangup c hang =>
    rw [step] at he
    split at he
    next hlive =>
      cases he
      have hok := h.conns c
      refine h.change ⟨hok.stream, hok.pieces, fun hclosed => ?_⟩ (fun hin => ?_) (h.queued c) (h.adding c)
      · rcases hlive.1 with hst | hst | hst
        all_goals simp [hst] at hclosed
      · exact ⟨(h.todo c hin).1, .inr rfl⟩
    · cases he
  | epoll_wait events =>
    obtain ⟨-, -, hnodup, hreported, rfl⟩ := epoll_wait_cases he
    constructor
    case nodup => exact hnodup
    case todo => exact fun c hin => hreported (.connfd c) hin
    case queue => exact h.queue
    case queued => exact h.queued
    case adding =>
      intro c es hes
      cases hes
    case conns => exact h.conns
  | lt => exact lt_inv h he

theorem runs_inv (h : LtRuns (start C) s) : s.Inv :=
  h.invariant Inv start_inv fun _ _ _ hi _ he => step_inv hi he

/-- What was received and what waits is what was sent, and a connection is closed only after the peer has left and all
it sent has been read: `recv` never fails with `EAGAIN`, which would close it as well. -/
theorem lt_loses_nothing (h : LtRuns (start C) s) (c : C) :
    (s.conns c).sent = (s.conns c).got.flatten ++ (s.conns c).buffer ∧
    (∀ piece ∈ (s.conns c).got, piece ≠ [] ∧ piece.length < BUFFER_SIZE) ∧
    ((s.conns c).status = .closed → (s.conns c).hangup.isSome = true ∧
      (s.conns c).got.flatten = (s.conns c).sent) := by
  obtain ⟨hstream, hpieces, hclosed⟩ := (runs_inv h).conns c
  refine ⟨hstream, fun piece hp => ?_, fun hc => ?_⟩
  · obtain ⟨hne, hle⟩ := hpieces piece hp
    rw [BUFFER_SIZE] at hle ⊢
    exact ⟨hne, by omega⟩
  · obtain ⟨hhang, hnil⟩ := hclosed hc
    rw [hstream, hnil, List.append_nil]
    exact ⟨hhang, rfl⟩

theorem lt_loses_nothing_first : ∃ s, LtRuns (start Unit) s ∧ (s.conns ()).status = .closed ∧
    (s.conns ()).got = [List.replicate 9 65, List.replicate 3 65] ∧
      (s.conns ()).got.flatten = (s.conns ()).sent := by
  obtain ⟨s, hrun, hclosed, hgot⟩ : ∃ s, Reach.run step [.connect (), .epoll_wait [.listenfd], .lt, .lt, .lt,
      .data () (List.replicate 12 65), .hangup () .fin, .epoll_wait [.connfd ()], .lt, .lt,
        .epoll_wait [.connfd ()], .lt, .lt,
      .epoll_wait [.connfd ()], .lt] (start Unit) = some s ∧ (s.conns ()).status = .closed ∧
      (s.conns ()).got = [List.replicate 9 65, List.replicate 3 65] := ⟨_, rfl, rfl, rfl⟩
  have hruns := Reach.runs_of_run_any hrun
  exact ⟨s, hruns, hclosed, hgot, ((lt_loses_nothing hruns ()).2.2 hclosed).2⟩

end Invariant

end LtServer

end LtMode

end CPractice
