import Mathlib.Data.List.Basic
import Mathlib.Logic.Function.Basic

/-! The calls that `et()` makes on descriptors, for one array of reported events. -/

namespace CPractice

namespace EtCalls

/-- What `recv` returns on an open descriptor: `n + 1` bytes, 0, or -1 with `EAGAIN`, `EWOULDBLOCK` or another
error. -/
inductive Recv where
  | received (n : Nat)
  | endOfStream
  | again
  | failed
  deriving DecidableEq, Repr

/-- A reported event with the answers that it gets: of `accept` if it is one of `listenfd`,
else of `recv`, as long as the descriptor is open. -/
structure Event where
  fd : Int
  epollin : Bool
  connfd : Option Int
  recvs : List Recv
  deriving DecidableEq, Repr

inductive Call where
  | accept (connfd : Option Int)
  | recv (fd : Int)
  | close (fd : Int)
  deriving DecidableEq, Repr

/-- The loop of one event: its calls, and whether the descriptor is closed then. The loop goes on when `recv` has
returned 0, and both calls fail on a closed descriptor. -/
def readLoop (fd : Int) : Bool → List Recv → List Call × Bool
  | true, _ => ([.recv fd, .close fd], true)
  | false, [] => ([.recv fd], false)
  | false, .received _ :: recvs =>
    let (calls, closed) := readLoop fd false recvs
    (.recv fd :: calls, closed)
  | false, .endOfStream :: recvs =>
    let (calls, closed) := readLoop fd true recvs
    (.recv fd :: .close fd :: calls, closed)
  | false, .again :: _ => ([.recv fd], false)
  | false, .failed :: _ => ([.recv fd, .close fd], true)

def reopen (closed : Int → Bool) : Option Int → Int → Bool
  | some connfd => Function.update closed connfd false
  | none => closed

def et (listenfd : Int) : (Int → Bool) → List Event → List Call
  | _, [] => []
  | closed, e :: events =>
    if e.fd = listenfd then .accept e.connfd :: et listenfd (reopen closed e.connfd) events
    else if e.epollin then
      let (calls, closed') := readLoop e.fd (closed e.fd) e.recvs
      calls ++ et listenfd (Function.update closed e.fd closed') events
    else et listenfd closed events

def after (closed : Int → Bool) : Call → Int → Bool
  | .accept connfd => reopen closed connfd
  | .recv _ => closed
  | .close fd => Function.update closed fd true

def Allowed (closed : Int → Bool) : Call → Prop
  | .accept _ => True
  | .recv fd => closed fd = false
  | .close fd => closed fd = false

def Careful : (Int → Bool) → List Call → Prop
  | _, [] => True
  | closed, c :: calls => Allowed closed c ∧ Careful (after closed c) calls

def ClosedOnce (calls : List Call) : Prop :=
  ∀ fd first mid last, calls = first ++ .close fd :: (mid ++ .close fd :: last) → .accept (some fd) ∈ mid

def stop (recvs : List Recv) : Option Recv := recvs.find? fun
  | .received _ => false
  | _ => true

/-- An event reads from `fd` before `accept` has returned it again. -/
def ReadAgain (listenfd fd : Int) : List Event → Prop
  | [] => False
  | e :: events =>
    if e.fd = listenfd then e.connfd ≠ some fd ∧ ReadAgain listenfd fd events
    else e.epollin = true ∧ e.fd = fd ∨ ReadAgain listenfd fd events

/-- No connection is at its end, and one that has failed is not read again. -/
def NeverAtEnd (listenfd : Int) : List Event → Prop
  | [] => True
  | e :: events =>
    (e.fd ≠ listenfd → e.epollin = true → stop e.recvs ≠ some .endOfStream ∧
      (stop e.recvs = some .failed → ¬ ReadAgain listenfd e.fd events)) ∧
    NeverAtEnd listenfd events

theorem careful_append {closed : Int → Bool} {calls calls' : List Call} :
    Careful closed (calls ++ calls') ↔ Careful closed calls ∧ Careful (calls.foldl after closed) calls' := by
  induction calls generalizing closed with
  | nil => exact (iff_of_eq (true_and _)).symm
  | cons c calls ih => rw [List.cons_append, Careful, Careful, ih, List.foldl_cons, and_assoc]

theorem readLoop_closed (fd : Int) (closed : Int → Bool) (recvs : List Recv) :
    (readLoop fd (closed fd) recvs).1.foldl after closed =
      Function.update closed fd (readLoop fd (closed fd) recvs).2 := by
  induction recvs generalizing closed with
  | nil =>
    cases hc : closed fd with
    | true => rfl
    | false => exact (Function.update_eq_self_iff.mpr hc.symm).symm
  | cons r recvs ih =>
    cases hc : closed fd with
    | true => rfl
    | false =>
      cases r with
      | received n =>
        have hloop := ih closed
        rw [hc] at hloop
        exact hloop
      | endOfStream =>
        have hloop := ih (Function.update closed fd true)
        rw [Function.update_self, Function.update_idem] at hloop
        exact hloop
      | again => exact (Function.update_eq_self_iff.mpr hc.symm).symm
      | failed => rfl

theorem readLoop_careful {fd : Int} {closed : Int → Bool} (recvs : List Recv) :
    Careful closed (readLoop fd (closed fd) recvs).1 ↔
      closed fd = false ∧ stop recvs ≠ some .endOfStream := by
  cases hc : closed fd with
  | true => simp [readLoop, Careful, Allowed, hc]
  | false =>
    induction recvs with
    | nil => simp [readLoop, Careful, Allowed, hc, stop]
    | cons r recvs ih =>
      cases r with
      | received n =>
        have hstop : stop (.received n :: recvs) = stop recvs := rfl
        rw [hstop, ← ih]
        simp [readLoop, Careful, Allowed, after, hc]
      | endOfStream => simp [readLoop, Careful, Allowed, after, stop]
      | again => simp [readLoop, Careful, Allowed, hc, stop]
      | failed => simp [readLoop, Careful, Allowed, after, hc, stop]

theorem readLoop_snd (fd : Int) (recvs : List Recv) :
    (readLoop fd false recvs).2 = true ↔ stop recvs = some .failed ∨ stop recvs = some .endOfStream := by
  induction recvs with
  | nil => simp [readLoop, stop]
  | cons r recvs ih =>
    cases r with
    | received n => exact ih
    | endOfStream => simp [readLoop, stop]
    | again => simp [readLoop, stop]
    | failed => simp [readLoop, stop]

theorem reopen_eq_true {closed : Int → Bool} {connfd : Option Int} {fd : Int} :
    reopen closed connfd fd = true ↔ closed fd = true ∧ connfd ≠ some fd := by
  cases connfd with
  | none => simp [reopen]
  | some connfd =>
    by_cases h : fd = connfd
    · simp [reopen, h]
    · simp [reopen, Function.update_of_ne h, Ne.symm h]

theorem update_closed_iff {closed : Int → Bool} {fd : Int} (hc : closed fd = false) (b : Bool) {P : Int → Prop} :
    (∀ fd', Function.update closed fd b fd' = true → P fd') ↔
      (b = true → P fd) ∧ ∀ fd', closed fd' = true → P fd' := by
  rw [Function.forall_update_iff closed fun fd' c => c = true → P fd']
  refine and_congr_right fun _ => forall_congr' fun fd' => ?_
  by_cases hfd : fd' = fd
  · subst hfd
    simp [hc]
  · simp [hfd]

theorem et_careful_iff (listenfd : Int) (closed : Int → Bool) (events : List Event) :
    Careful closed (et listenfd closed events) ↔
      NeverAtEnd listenfd events ∧ ∀ fd, closed fd = true → ¬ ReadAgain listenfd fd events := by
  induction events generalizing closed with
  | nil => simp [et, Careful, NeverAtEnd, ReadAgain]
  | cons e events ih =>
    by_cases hlisten : e.fd = listenfd
    · simp only [et, NeverAtEnd, ReadAgain, if_pos hlisten, Careful, Allowed, after, ih, reopen_eq_true]
      simp only [ne_eq, hlisten, not_true_eq_false, false_imp_iff, true_and]
      refine and_congr_right fun _ => forall_congr' fun fd => ?_
      rw [and_imp, not_and]
    · cases hin : e.epollin with
      | false =>
        simp only [et, NeverAtEnd, ReadAgain, if_neg hlisten, hin, ih, Bool.false_eq_true, if_false, false_imp_iff,
          imp_true_iff, false_and, false_or, true_and]
      | true =>
        simp only [et, NeverAtEnd, ReadAgain, if_neg hlisten, hin, if_true]
        rw [careful_append, readLoop_careful, readLoop_closed, ih]
        cases hc : closed e.fd with
        | true =>
          simp only [Bool.true_eq_false, false_and, false_iff, not_and]
          intro _ hall
          exact hall e.fd hc (.inl ⟨trivial, rfl⟩)
        | false =>
          have hself : ∀ fd, closed fd = true → e.fd ≠ fd := by
            rintro fd hfd rfl
            rw [hc] at hfd
            cases hfd
          rw [update_closed_iff hc, readLoop_snd]
          constructor
          · rintro ⟨⟨-, hstop⟩, hclean, hfailed, hopen⟩
            refine ⟨⟨fun _ _ => ⟨hstop, fun h => hfailed (.inl h)⟩, hclean⟩, ?_⟩
            rintro fd hfd (⟨-, he⟩ | hagain)
            · exact hself fd hfd he
            · exact hopen fd hfd hagain
          · rintro ⟨⟨hread, hclean⟩, hopen⟩
            obtain ⟨hstop, hfailed⟩ := hread hlisten trivial
            refine ⟨⟨rfl, hstop⟩, hclean, ?_, fun fd hfd hagain => hopen fd hfd (.inr hagain)⟩
            intro h
            exact hfailed (h.resolve_right hstop)

theorem accept_of_reopened {fd : Int} {calls : List Call} {closed : Int → Bool} (hfd : closed fd = true)
    (h : calls.foldl after closed fd = false) : .accept (some fd) ∈ calls := by
  induction calls generalizing closed with
  | nil =>
    rw [List.foldl_nil, hfd] at h
    cases h
  | cons c calls ih =>
    by_cases hc : c = .accept (some fd)
    · exact hc ▸ List.mem_cons_self
    · refine List.mem_cons_of_mem _ (ih ?_ h)
      cases c with
      | accept connfd => exact reopen_eq_true.mpr ⟨hfd, fun he => hc (by rw [he])⟩
      | recv fd' => exact hfd
      | close fd' =>
        by_cases hfd' : fd = fd'
        · rw [after, hfd', Function.update_self]
        · rw [after, Function.update_of_ne hfd', hfd]

theorem Careful.closedOnce {calls : List Call} {closed : Int → Bool} (h : Careful closed calls) : ClosedOnce calls := by
  rintro fd first mid last rfl
  obtain ⟨-, hclose⟩ := careful_append.mp h
  obtain ⟨-, hrest⟩ := careful_append.mp hclose.2
  exact accept_of_reopened (by rw [after, Function.update_self]) hrest.1

/-- `et()` leaves closed descriptors alone if no connection that it reads from is at its end of
stream, and none that has failed is reported again. -/
theorem et_careful (listenfd : Int) (events : List Event) :
    Careful (fun _ => false) (et listenfd (fun _ => false) events) ∧
        ClosedOnce (et listenfd (fun _ => false) events) ↔ NeverAtEnd listenfd events := by
  have hiff := et_careful_iff listenfd (fun _ => false) events
  constructor
  · rintro ⟨hcareful, -⟩
    exact (hiff.mp hcareful).1
  · intro hend
    have hcareful := hiff.mpr ⟨hend, fun fd hfd => absurd hfd Bool.false_ne_true⟩
    exact ⟨hcareful, hcareful.closedOnce⟩

def lastBytes : List Event := [⟨7, true, none, [.received 2, .endOfStream]⟩]

theorem lastBytes_closed_twice :
    ¬ ∀ listenfd events, Careful (fun _ => false) (et listenfd (fun _ => false) events) ∧
      ClosedOnce (et listenfd (fun _ => false) events) := by
  intro hall
  have honce := (hall 3 lastBytes).2 7 [.recv 7, .recv 7] [.recv 7] [] rfl
  exact absurd honce (by decide)

end EtCalls

end CPractice
