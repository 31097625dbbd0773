import CPractice.LtMode.Stream
import Mathlib.Algebra.Order.BigOperators.Group.Finset

/-! Under `lt()` the server comes to rest when the peers are silent, and has read everything then. -/

namespace CPractice

namespace LtMode

namespace LtServer

variable {C : Type} [DecidableEq C]

def Point.work : Point C → Nat
  | .waiting => 0
  | .handling _ => 2
  | .adding _ _ => 3

/-- `K` are the connections there have been. -/
def work (s : LtServer C) (K : Finset C) : Nat := ∑ c ∈ K, s.connWork c + s.listenWork + Point.work s.server

variable {s s' : LtServer C} {K : Finset C} {c : C} {events : List (Fd C)}

omit [DecidableEq C] in
theorem sum_change {f g : C → Nat} {k : Nat} (hc : c ∈ K) (hle : ∀ d ∈ K, g d ≤ f d) (hlt : g c + k ≤ f c) :
    ∑ d ∈ K, g d + k ≤ ∑ d ∈ K, f d := by
  classical
  rw [← Finset.add_sum_erase K g hc, ← Finset.add_sum_erase K f hc]
  have hrest : ∑ d ∈ K.erase c, g d ≤ ∑ d ∈ K.erase c, f d :=
    Finset.sum_le_sum fun d hd => hle d (Finset.mem_of_mem_erase hd)
  omega

theorem units_open {x : Conn} (h : x.status = .queued ∨ x.status = .accepted ∨ x.status = .registered) :
    Conn.units x = x.buffer.length + if x.hangup.isSome then 1 else 0 := by
  refine if_neg ?_
  rcases h with h | h | h
  all_goals simp [h]

theorem units_pos {x : Conn} (h : x.Readable) : 0 < Conn.units x := by
  obtain ⟨hreg, hsome⟩ := h
  rw [units_open (.inr (.inr hreg))]
  rcases hsome with hne | hhang
  · have hpos := List.length_pos_iff.mpr hne
    omega
  · rw [if_pos hhang]
    omega

theorem units_recv {x : Conn} (h : x.Readable) : Conn.units x.recv < Conn.units x := by
  have hpos := units_pos h
  obtain ⟨hreg, -⟩ := h
  rw [Conn.recv, if_neg (by simp [hreg])]
  split
  next => simpa [Conn.units] using hpos
  next hne =>
    have hlen := List.length_pos_iff.mpr hne
    have hrest : Conn.units { x with
        buffer := x.buffer.drop (BUFFER_SIZE - 1), got := x.got ++ [x.buffer.take (BUFFER_SIZE - 1)] } =
        (x.buffer.drop (BUFFER_SIZE - 1)).length + if x.hangup.isSome then 1 else 0 := units_open (.inr (.inr hreg))
    rw [hrest, units_open (.inr (.inr hreg)), List.length_drop, BUFFER_SIZE]
    exact Nat.add_lt_add_right (by omega) _

theorem connWork_le (hunits : Conn.units (s'.conns c) ≤ Conn.units (s.conns c))
    (htodo : .connfd c ∈ s.server.todo → .connfd c ∈ s'.server.todo) : s'.connWork c ≤ s.connWork c := by
  rw [connWork, connWork]
  by_cases hc : .connfd c ∈ s.server.todo
  · rw [if_pos hc, if_pos (htodo hc)]
    omega
  · rw [if_neg hc]
    omega

theorem listenWork_eq (htodo : .listenfd ∈ s'.server.todo ↔ .listenfd ∈ s.server.todo) (hedge : s'.edge = s.edge)
    (hqueue : s'.queue = s.queue) : s'.listenWork = s.listenWork := by
  rw [listenWork, listenWork, hedge, hqueue]
  by_cases hin : .listenfd ∈ s.server.todo
  · rw [if_pos hin, if_pos (htodo.mpr hin)]
  · rw [if_neg hin, if_neg fun hin' => hin (htodo.mp hin')]

theorem epoll_wait_work (hK : ∀ c, c ∉ K → (s.conns c).status = .absent)
    (he : s.step (.epoll_wait events) = some s') :
    s'.work K < s.work K := by
  obtain ⟨hs, hne, -, hreported, rfl⟩ := epoll_wait_cases he
  have hconn : ∀ d, (s.report events).connWork d ≤ s.connWork d :=
    fun d => connWork_le (Nat.le_refl _) (by simp [hs, Point.todo])
  have hlisten : (s.report events).listenWork + (if .listenfd ∈ events then 3 else 0) ≤ s.listenWork := by
    rw [listenWork, listenWork, report, hs]
    by_cases hin : .listenfd ∈ events
    · have hedge : s.edge = true := hreported .listenfd hin
      simp [hin, hedge, Point.todo]
      omega
    · simp [hin, Point.todo]
  have hwait : Point.work s.server = 0 := by rw [hs]; rfl
  obtain ⟨fd, rest, rfl⟩ := List.exists_cons_of_ne_nil hne
  unfold work
  rw [hwait]
  cases fd with
  | listenfd =>
    have hsum := Finset.sum_le_sum fun d (_ : d ∈ K) => hconn d
    rw [if_pos List.mem_cons_self] at hlisten
    have hpoint : Point.work (s.report (.listenfd :: rest)).server = 2 := rfl
    omega
  | connfd c =>
    have hread : (s.conns c).Readable := hreported (.connfd c) List.mem_cons_self
    have hc : c ∈ K := by
      by_contra hout
      have hreg := hread.1
      rw [hK c hout] at hreg
      cases hreg
    have hpos := units_pos hread
    have hless : (s.report (.connfd c :: rest)).connWork c + 3 ≤ s.connWork c := by
      rw [connWork, connWork, report, hs]
      simp only [Point.todo, List.mem_cons_self, if_true, List.not_mem_nil, if_false]
      omega
    have hsum := sum_change hc (fun d _ => hconn d) hless
    have hpoint : Point.work (s.report (.connfd c :: rest)).server = 2 := rfl
    omega

theorem accept_work (h : s.Inv) (hs : s.server = .handling (.listenfd :: events)) :
    (s.accept events).work K < s.work K := by
  have hnodup := h.nodup
  rw [hs, Point.todo, List.nodup_cons] at hnodup
  have hlisten : s.listenWork = 4 * s.edge.toNat + 1 + 4 * s.queue.length := by
    rw [listenWork, hs, Point.todo, if_pos List.mem_cons_self]
  have htodo : ∀ d, .connfd d ∈ s.server.todo → .connfd d ∈ events := by simp [hs, Point.todo]
  have hpoint : Point.work s.server = 2 := by rw [hs]; rfl
  unfold LtServer.accept
  split
  next =>
    have hsum : ∑ d ∈ K, connWork { s with server := .handling events } d ≤ ∑ d ∈ K, s.connWork d :=
      Finset.sum_le_sum fun d _ => connWork_le (Nat.le_refl _) (htodo d)
    rw [work, work, hlisten, hpoint, listenWork, Point.todo, if_neg hnodup.1, Point.work]
    dsimp only
    omega
  next c cs hq =>
    have hqueued : (s.conns c).status = .queued := h.queued c (by rw [hq]; exact List.mem_cons_self)
    have hunits : ∀ d, Conn.units (Function.update s.conns c { s.conns c with status := .accepted } d) ≤
        Conn.units (s.conns d) := by
      refine (Function.forall_update_iff s.conns fun d y => Conn.units y ≤ Conn.units (s.conns d)).mpr
        ⟨?_, fun d _ => Nat.le_refl _⟩
      rw [units_open (.inl hqueued), units_open (.inr (.inl rfl))]
    have hsum := Finset.sum_le_sum fun d (_ : d ∈ K) =>
      show connWork { s.setConn c { s.conns c with status := .accepted } with queue := cs, server := .adding c events } d ≤
        s.connWork d from connWork_le (hunits d) (htodo d)
    rw [work, work, hlisten, hpoint, listenWork, Point.todo, if_neg hnodup.1, hq, List.length_cons, Point.work]
    dsimp only [setConn] at hsum ⊢
    omega

theorem recv_work (h : s.Inv) (hK : ∀ c, c ∉ K → (s.conns c).status = .absent)
    (hs : s.server = .handling (.connfd c :: events)) :
    work { s.setConn c (s.conns c).recv with server := .handling events } K < s.work K := by
  have hnodup := h.nodup
  rw [hs, Point.todo, List.nodup_cons] at hnodup
  have hread : (s.conns c).Readable := h.todo c (by rw [hs]; exact List.mem_cons_self)
  have hpos := units_pos hread
  have hrecv := units_recv hread
  have hc : c ∈ K := by
    by_contra hout
    have hreg := hread.1
    rw [hK c hout] at hreg
    cases hreg
  have hat : connWork { s.setConn c (s.conns c).recv with server := .handling events } c + 1 ≤ s.connWork c := by
    rw [connWork, connWork, hs]
    simp only [Point.todo, List.mem_cons_self, if_true, hnodup.1, if_false, setConn, Function.update_self]
    omega
  have hle : ∀ d ∈ K, connWork { s.setConn c (s.conns c).recv with server := .handling events } d ≤
    s.connWork d := by
    intro d _
    by_cases hdc : d = c
    · rw [hdc]
      omega
    · refine connWork_le ?_ ?_
      · simp [setConn, Function.update_of_ne hdc]
      · simp [hs, Point.todo, hdc]
  have hsum := sum_change hc hle hat
  have hlisten : listenWork { s.setConn c (s.conns c).recv with server := .handling events } = s.listenWork :=
    listenWork_eq (by simp [hs, Point.todo]) rfl rfl
  rw [work, work, hlisten, hs, Point.work, Point.work]
  omega

theorem addfd_work (h : s.Inv) (hs : s.server = .adding c events) :
    work { s.setConn c { s.conns c with status := .registered } with server := .handling events } K < s.work K := by
  have haccepted := h.adding c events hs
  have hunits : ∀ d, Conn.units (Function.update s.conns c { s.conns c with status := .registered } d) ≤
      Conn.units (s.conns d) := by
    refine (Function.forall_update_iff s.conns fun d y => Conn.units y ≤ Conn.units (s.conns d)).mpr
      ⟨?_, fun d _ => Nat.le_refl _⟩
    rw [units_open (.inr (.inl haccepted)), units_open (.inr (.inr rfl))]
  have hsum := Finset.sum_le_sum fun d (_ : d ∈ K) =>
    show connWork { s.setConn c { s.conns c with status := .registered } with server := .handling events } d ≤
      s.connWork d from connWork_le (hunits d) (by rw [hs]; exact id)
  have hlisten : listenWork { s.setConn c { s.conns c with status := .registered } with server := .handling events } =
      s.listenWork := listenWork_eq (by rw [hs]; exact Iff.rfl) rfl rfl
  rw [work, work, hlisten, hs, Point.work, Point.work]
  omega

theorem lt_work (h : s.Inv) (hK : ∀ c, c ∉ K → (s.conns c).status = .absent) (he : s.lt = some s') :
    s'.work K < s.work K := by
  unfold LtServer.lt at he
  cases hs : s.server with
  | waiting =>
    rw [hs] at he
    cases he
  | handling events =>
    rw [hs] at he
    cases events with
    | nil =>
      cases he
      simp [work, connWork, listenWork, hs, Point.todo, Point.work]
    | cons fd events =>
      cases fd with
      | listenfd =>
        cases he
        exact accept_work h hs
      | connfd c =>
        cases he
        exact recv_work h hK hs
  | adding c events =>
    rw [hs] at he
    cases he
    exact addfd_work h hs

/-- The server creates no connection, and nothing that was sent. -/
theorem server_frame {a : Act C} (h : s.Inv) (ha : a.isServer = true) (he : s.step a = some s') :
    ∀ c, (s'.conns c).sent = (s.conns c).sent ∧ ((s.conns c).status = .absent → (s'.conns c).status = .absent) := by
  have hsame : ∀ c, (s.conns c).sent = (s.conns c).sent ∧
    ((s.conns c).status = .absent → (s.conns c).status = .absent) :=
    fun c => ⟨rfl, id⟩
  have hchange : ∀ c x, x.sent = (s.conns c).sent → (s.conns c).status ≠ .absent → ∀ d,
      (Function.update s.conns c x d).sent = (s.conns d).sent ∧
        ((s.conns d).status = .absent → (Function.update s.conns c x d).status = .absent) := by
    intro c x hsent hne
    exact (Function.forall_update_iff s.conns fun d y => y.sent = (s.conns d).sent ∧
      ((s.conns d).status = .absent → y.status = .absent)).mpr ⟨⟨hsent, fun habs => absurd habs hne⟩,
        fun d _ => hsame d⟩
  cases a with
  | connect | data | hangup => cases ha
  | epoll_wait events =>
    obtain ⟨-, -, -, -, rfl⟩ := epoll_wait_cases he
    exact hsame
  | lt =>
    rw [step, LtServer.lt] at he
    cases hs : s.server with
    | waiting =>
      rw [hs] at he
      cases he
    | handling events =>
      rw [hs] at he
      cases events with
      | nil =>
        cases he
        exact hsame
      | cons fd events =>
        cases fd with
        | listenfd =>
          cases he
          unfold LtServer.accept
          split
          next => exact hsame
          next c cs hq =>
            have hqueued := h.queued c (by rw [hq]; exact List.mem_cons_self)
            exact hchange c _ rfl (by simp [hqueued])
        | connfd c =>
          cases he
          have hread : (s.conns c).Readable := h.todo c (by rw [hs]; exact List.mem_cons_self)
          refine hchange c _ ?_ (by simp [hread.1])
          unfold Conn.recv
          split_ifs <;> rfl
    | adding c events =>
      rw [hs] at he
      cases he
      exact hchange c _ rfl (by simp [h.adding c events hs])

theorem server_step_work {a : Act C} (h : s.Inv) (hK : ∀ c, c ∉ K → (s.conns c).status = .absent)
    (ha : a.isServer = true) (he : s.step a = some s') : s'.work K < s.work K := by
  cases a with
  | connect | data | hangup => cases ha
  | epoll_wait events => exact epoll_wait_work hK he
  | lt => exact lt_work h hK he

theorem run_drain {as : List (Act C)} (h : s.Inv) (hK : ∀ c, c ∉ K → (s.conns c).status = .absent)
    (has : ∀ a ∈ as, a.isServer = true) (hrun : Reach.run step as s = some s') :
    (s'.Inv ∧ ∀ c, (s'.conns c).sent = (s.conns c).sent) ∧ as.length ≤ s.work K := by
  have hbounded := Reach.run_bounded
    (fun s' => (s'.Inv ∧ ∀ c, (s'.conns c).sent = (s.conns c).sent) ∧ ∀ c, c ∉ K → (s'.conns c).status = .absent)
    (fun a => a.isServer = true) (fun s => s.work K) (fun s₁ a s₂ hi ha he => by
      obtain ⟨⟨hinv, hsent⟩, hknown⟩ := hi
      have hframe := server_frame hinv ha he
      refine ⟨⟨⟨step_inv hinv he, fun c => (hframe c).1.trans (hsent c)⟩, fun c hc => (hframe c).2 (hknown c hc)⟩,
        ?_⟩
      exact server_step_work hinv hknown ha he)
    has ⟨⟨h, fun _ => rfl⟩, hK⟩ hrun
  exact ⟨hbounded.1.1, by have := hbounded.2; omega⟩

theorem blocked_waiting (h : ∀ a : Act C, a.isServer = true → s.step a = none) : s.server = .waiting := by
  have hlt : s.lt = none := h .lt rfl
  unfold LtServer.lt at hlt
  split at hlt
  next hs => exact hs
  all_goals cases hlt

theorem blocked_not_readable (h : ∀ a : Act C, a.isServer = true → s.step a = none) (c : C) :
    ¬ (s.conns c).Readable := by
  intro hread
  have hwait := h (.epoll_wait [.connfd c]) rfl
  have hall : [Fd.connfd c] ≠ [] ∧ [Fd.connfd c].Nodup ∧ [Fd.connfd c].length ≤ MAX_EVENT_NUMBER ∧
      ∀ fd ∈ [Fd.connfd c], s.Reported fd := by
    refine ⟨List.cons_ne_nil _ _, List.nodup_singleton _, by simp [MAX_EVENT_NUMBER], fun fd hfd => ?_⟩
    rw [List.mem_singleton.mp hfd]
    exact hread
  rw [step, blocked_waiting h] at hwait
  dsimp only at hwait
  rw [if_pos hall] at hwait
  cases hwait

theorem step_known {a : Act C} (h : s.Inv) (hK : ∀ c, c ∉ K → (s.conns c).status = .absent)
    (he : s.step a = some s') :
    ∃ K' : Finset C, ∀ c, c ∉ K' → (s'.conns c).status = .absent := by
  have hkeep : ∀ c x, x.status = (s.conns c).status → ∀ d, d ∉ K →
    (Function.update s.conns c x d).status = .absent := by
    intro c x hx
    refine (Function.forall_update_iff s.conns fun d y => d ∉ K → y.status = .absent).mpr ⟨fun hc => ?_,
      fun d _ => hK d⟩
    rw [hx]
    exact hK c hc
  cases a with
  | connect c =>
    rw [step] at he
    split at he
    next =>
      cases he
      refine ⟨insert c K, fun d hd => ?_⟩
      rw [Finset.mem_insert, not_or] at hd
      show (Function.update s.conns c _ d).status = _
      rw [Function.update_of_ne hd.1]
      exact hK d hd.2
    · cases he
  | data c bytes =>
    rw [step] at he
    split at he
    next =>
      cases he
      exact ⟨K, hkeep c _ rfl⟩
    · cases he
  | hangup c hang =>
    rw [step] at he
    split at he
    next =>
      cases he
      exact ⟨K, hkeep c _ rfl⟩
    · cases he
  | epoll_wait | lt => exact ⟨K, fun c hc => (server_frame h rfl he c).2 (hK c hc)⟩

theorem runs_known (h : LtRuns (start C) s) : ∃ K : Finset C, ∀ c, c ∉ K → (s.conns c).status = .absent := by
  have hboth := h.invariant (fun s => s.Inv ∧ ∃ K : Finset C, ∀ c, c ∉ K → (s.conns c).status = .absent)
    ⟨start_inv, ∅, fun _ _ => rfl⟩ fun s a s' hi _ he => by
      obtain ⟨hinv, K, hK⟩ := hi
      exact ⟨step_inv hinv he, step_known hinv hK he⟩
  exact hboth.2

/-- When the peers are silent the server blocks after a bounded number of steps. All that was sent on the connections it
has accepted is read then, and those whose peer has left are closed. -/
theorem lt_drains (h : LtRuns (start C) s) : ∃ n, ∀ as s', (∀ a ∈ as, a.isServer = true) →
    Reach.run step as s = some s' → as.length ≤ n ∧ ((∀ a : Act C, a.isServer = true → s'.step a = none) →
      ∀ c, (s'.conns c).status = .registered ∨ (s'.conns c).status = .closed →
        (s'.conns c).got.flatten = (s.conns c).sent ∧
          ((s'.conns c).status = .registered → (s'.conns c).hangup = none)) := by
  obtain ⟨K, hK⟩ := runs_known h
  refine ⟨s.work K, fun as s' has hrun => ?_⟩
  obtain ⟨⟨hinv, hsent⟩, hlen⟩ := run_drain (runs_inv h) hK has hrun
  refine ⟨hlen, fun hblocked c hopen => ?_⟩
  have hread := blocked_not_readable hblocked c
  have hok := hinv.conns c
  have hquiet : (s'.conns c).status = .registered → (s'.conns c).buffer = [] ∧ (s'.conns c).hangup = none := by
    intro hreg
    constructor
    · by_contra hne
      exact hread ⟨hreg, .inl hne⟩
    · rw [← Option.not_isSome_iff_eq_none]
      exact fun hhang => hread ⟨hreg, .inr hhang⟩
  have hbuffer : (s'.conns c).buffer = [] := by
    rcases hopen with hreg | hclosed
    · exact (hquiet hreg).1
    · exact (hok.closed hclosed).2
  refine ⟨?_, fun hreg => (hquiet hreg).2⟩
  rw [← hsent c, hok.stream, hbuffer, List.append_nil]

/-- Twelve bytes on the first connection, which needs two reports, and a second connection that leaves. -/
def twoPeers : List (Act Bool) :=
  [.connect false, .epoll_wait [.listenfd], .lt, .lt, .lt, .connect true, .data false (List.replicate 12 65),
    .epoll_wait [.connfd false, .listenfd], .data true [66], .hangup true .fin]

theorem lt_drains_twoPeers : ∃ s n, LtRuns (start Bool) s ∧ (s.conns false).sent = List.replicate 12 65 ∧
    ∀ as s', (∀ a ∈ as, a.isServer = true) → Reach.run step as s = some s' → as.length ≤ n ∧
      ((∀ a : Act Bool, a.isServer = true → s'.step a = none) → ∀ c,
        (s'.conns c).status = .registered ∨ (s'.conns c).status = .closed →
          (s'.conns c).got.flatten = (s.conns c).sent ∧
            ((s'.conns c).status = .registered → (s'.conns c).hangup = none)) := by
  obtain ⟨s, hrun, hsent⟩ : ∃ s, Reach.run step twoPeers (start Bool) = some s ∧
      (s.conns false).sent = List.replicate 12 65 := ⟨_, rfl, rfl⟩
  have hruns := Reach.runs_of_run_any hrun
  obtain ⟨n, hn⟩ := lt_drains hruns
  exact ⟨s, n, hruns, hsent, hn⟩

end LtServer

end LtMode

end CPractice
