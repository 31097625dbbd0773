import CPractice.Lib.Mutex
import CPractice.Lib.Reach
import Mathlib.Data.List.Basic
import Mathlib.Logic.Function.Basic

/-! The two versions of `threadsafe_stack`, used by any number of threads. They differ in the mutex that the copy
constructor locks: the one of the copy, or the one of the stack that is copied. -/

namespace CPractice

namespace ThreadSafeStack

inductive Op (M V : Type) where
  | push (m : M) (new_value : V)
  | pop (m : M)
  | empty (m : M)
  | copy (m other : M)

inductive Res (V : Type) where
  | done
  | value (v : V)
  | empty_stack
  | flag (b : Bool)

variable {T M V : Type}

/-- The stacks whose `m_data` an operation uses, apart from a copy that it makes. -/
def Op.uses : Op M V → M
  | .push m _ => m
  | .pop m => m
  | .empty m => m
  | .copy _ other => other

/-- `own` is the version of 3_5.cpp. -/
def Op.mutex (own : Bool) : Op M V → M
  | .copy m other => if own then m else other
  | op => op.uses

/-- A thread is at the lock guard in `locking`, has read the top in `popping`, and has copied some elements from the
bottom in `copying`. -/
inductive Point (M V : Type) where
  | idle
  | locking (op : Op M V)
  | body (op : Op M V)
  | popping (m : M) (v : V)
  | copying (m other : M) (copied : List V)
  | unlocking (m : M)

def Point.holds (own : Bool) : Point M V → Option M
  | .idle => none
  | .locking _ => none
  | .body op => some (op.mutex own)
  | .popping m _ => some m
  | .copying m other _ => some (if own then m else other)
  | .unlocking m => some m

def Point.uses : Point M V → Option M
  | .locking op => some op.uses
  | .body op => some op.uses
  | .popping m _ => some m
  | .copying _ other _ => some other
  | _ => none

def Point.builds : Point M V → Option M
  | .locking (.copy m _) => some m
  | .body (.copy m _) => some m
  | .copying m _ _ => some m
  | _ => none

/-- The stack a thread has read from and will rely on. -/
def Point.reads : Point M V → Option M
  | .popping m _ => some m
  | .copying _ other _ => some other
  | _ => none

/-- The stack whose contents the next step changes. -/
def Point.writes : Point M V → Option M
  | .body (.push m _) => some m
  | .popping m _ => some m
  | _ => none

inductive Status where
  | absent
  | building
  | alive
  deriving DecidableEq

/-- The contents are listed from the bottom. `history` has the operations in the order in which they took effect, the
newest first. -/
structure Stacks (T M V : Type) where
  data : M → List V
  status : M → Status
  owner : M → Option T
  point : T → Point M V
  history : List (Op M V × Res V)

section Sequential

variable [DecidableEq M]

/-- One operation after the other. -/
def apply (data : M → List V) : Op M V → (M → List V) × Res V
  | .push m v => (Function.update data m (data m ++ [v]), .done)
  | .pop m =>
    match (data m).getLast? with
    | none => (data, .empty_stack)
    | some v => (Function.update data m (data m).dropLast, .value v)
  | .empty m => (data, .flag (data m).isEmpty)
  | .copy m other => (Function.update data m (data other), .done)

/-- The contents and the results are those of the sequential run. -/
def Replays : List (Op M V × Res V) → (M → List V) → Prop
  | [], data => data = fun _ => []
  | (op, res) :: history, data => ∃ before, Replays history before ∧ apply before op = (data, res)

end Sequential

namespace Stacks

variable [DecidableEq T] [DecidableEq M]

def start : Stacks T M V :=
  { data := fun _ => [], status := fun _ => .absent, owner := fun _ => none, point := fun _ => .idle, history := [] }

def goto (s : Stacks T M V) (t : T) (p : Point M V) : Stacks T M V :=
  { s with point := Function.update s.point t p }

def effect (s : Stacks T M V) (t : T) (m : M) (data : M → List V) (op : Op M V) (res : Res V) : Stacks T M V :=
  { s.goto t (.unlocking m) with data, history := (op, res) :: s.history }

def body (s : Stacks T M V) (t : T) : Op M V → Stacks T M V
  | .push m v => s.effect t m (Function.update s.data m (s.data m ++ [v])) (.push m v) .done
  | .pop m =>
    match (s.data m).getLast? with
    | none => s.effect t m s.data (.pop m) .empty_stack
    | some v => s.goto t (.popping m v)
  | .empty m => s.effect t m s.data (.empty m) (.flag (s.data m).isEmpty)
  | .copy m other => s.goto t (.copying m other [])

def go (own : Bool) (s : Stacks T M V) (t : T) : Option (Stacks T M V) :=
  match s.point t with
  | .idle => none
  | .locking op =>
    if s.owner (op.mutex own) = none then
      some { s.goto t (.body op) with owner := Function.update s.owner (op.mutex own) (some t) }
    else none
  | .body op => some (s.body t op)
  | .popping m v => some (s.effect t m (Function.update s.data m (s.data m).dropLast) (.pop m) (.value v))
  | .copying m other copied =>
    match (s.data other)[copied.length]? with
    | some v => some (s.goto t (.copying m other (copied ++ [v])))
    | none =>
      some { s.effect t (Op.mutex own (Op.copy m other : Op M V)) (Function.update s.data m copied)
          (.copy m other) .done with
        status := Function.update s.status m .alive }
  | .unlocking m => some { s.goto t .idle with owner := Function.update s.owner m none }

inductive Act (T M V : Type) where
  | create (m : M)
  | call (t : T) (op : Op M V)
  | go (t : T)

/-- A stack is used when its constructor has run, and a copy is made of a new object. -/
def step (own : Bool) (s : Stacks T M V) : Act T M V → Option (Stacks T M V)
  | .create m =>
    if s.status m = .absent then some { s with status := Function.update s.status m .alive } else none
  | .call t op =>
    match s.point t with
    | .idle =>
      if s.status op.uses ≠ .alive then none
      else
        match op with
        | .copy m _ =>
          if s.status m = .absent then
            some { s.goto t (.locking op) with status := Function.update s.status m .building }
          else none
        | _ => some (s.goto t (.locking op))
    | _ => none
  | .go t => s.go own t

/-- Where a copy locks its own mutex, nobody changes the stack that is copied. -/
def Quiet (own : Bool) (s : Stacks T M V) : Act T M V → Prop
  | .go t => own = true → ∀ u m other copied, s.point u = .copying m other copied → (s.point t).writes ≠ some other
  | _ => True

structure Inv (own : Bool) (s : Stacks T M V) : Prop where
  owner : ∀ m t, s.owner m = some t ↔ (s.point t).holds own = some m
  replays : Replays s.history s.data
  popping : ∀ t m v, s.point t = .popping m v → (s.data m).getLast? = some v
  copying : ∀ t m other copied, s.point t = .copying m other copied → copied <+: s.data other
  alive : ∀ t m, (s.point t).uses = some m → s.status m = .alive
  building : ∀ t m, (s.point t).builds = some m → s.status m = .building
  unique : ∀ t u m, (s.point t).builds = some m → (s.point u).builds = some m → t = u

section Invariant

variable {own : Bool} {s s' : Stacks T M V} {t : T}

omit [DecidableEq T] in
theorem start_inv : (start : Stacks T M V).Inv own where
  owner := by simp [start, Point.holds]
  replays := rfl
  popping := by simp [start]
  copying := by simp [start]
  alive := by simp [start, Point.uses]
  building := by simp [start, Point.builds]
  unique := by simp [start, Point.builds]

theorem Inv.goto {o : M → Option T} {p : Point M V} (h : s.Inv own)
    (hother : ∀ u, u ≠ t → ∀ m, o m = some u ↔ s.owner m = some u)
    (hself : ∀ m, o m = some t ↔ p.holds own = some m)
    (hpopping : ∀ m v, p = .popping m v → (s.data m).getLast? = some v)
    (hcopying : ∀ m other copied, p = .copying m other copied → copied <+: s.data other)
    (huses : ∀ m, p.uses = some m → (s.point t).uses = some m)
    (hbuilds : ∀ m, p.builds = some m → (s.point t).builds = some m) : Inv own { s.goto t p with owner := o } := by
  have hpoint := fun P => (Function.forall_update_iff s.point (a := t) (b := p) P).mpr
  have hbuilt : ∀ u m, (Function.update s.point t p u).builds = some m → (s.point u).builds = some m :=
    hpoint (fun u q => ∀ m, q.builds = some m → (s.point u).builds = some m) ⟨hbuilds, fun u _ m => id⟩
  constructor
  case owner =>
    intro m
    exact hpoint (fun u q => o m = some u ↔ q.holds own = some m)
      ⟨hself m, fun u hu => (hother u hu m).trans (h.owner m u)⟩
  case replays => exact h.replays
  case popping =>
    exact hpoint (fun _ q => ∀ m v, q = .popping m v → (s.data m).getLast? = some v)
      ⟨hpopping, fun u _ => h.popping u⟩
  case copying =>
    exact hpoint (fun _ q => ∀ m other copied, q = .copying m other copied → copied <+: s.data other)
      ⟨hcopying, fun u _ => h.copying u⟩
  case alive =>
    exact hpoint (fun _ q => ∀ m, q.uses = some m → s.status m = .alive)
      ⟨fun m hm => h.alive t m (huses m hm), fun u _ => h.alive u⟩
  case building => exact fun u m hm => h.building u m (hbuilt u m hm)
  case unique => exact fun u v m hu hv => h.unique u v m (hbuilt u m hu) (hbuilt v m hv)

/-- A thread changes the contents of a stack nobody else relies on. -/
theorem Inv.effect {m k : M} {xs : List V} {op : Op M V} {res : Res V} {status : M → Status} (h : s.Inv own)
    (hholds : (s.point t).holds own = some m) (hreads : ∀ u, u ≠ t → (s.point u).reads = some k → xs = s.data k)
    (happly : apply s.data op = (Function.update s.data k xs, res))
    (halive : ∀ j, s.status j = .alive → status j = .alive)
    (hbuilding : ∀ u j, u ≠ t → (s.point u).builds = some j → status j = .building) :
    Inv own { s.effect t m (Function.update s.data k xs) op res with status := status } := by
  have hpoint := fun P => (Function.forall_update_iff s.point (a := t) (b := .unlocking m) P).mpr
  have hdata : ∀ u j, u ≠ t → (s.point u).reads = some j → Function.update s.data k xs j = s.data j := by
    intro u j hu hj
    by_cases hjk : j = k
    · rw [hjk, Function.update_self]
      exact hreads u hu (hjk ▸ hj)
    · rw [Function.update_of_ne hjk]
  constructor
  case owner =>
    intro j
    refine hpoint (fun u q => s.owner j = some u ↔ q.holds own = some j) ⟨?_, fun u _ => h.owner j u⟩
    rw [h.owner j t, hholds]
    rfl
  case replays => exact ⟨s.data, h.replays, happly⟩
  case popping =>
    refine hpoint (fun _ q => ∀ j v, q = .popping j v → (Function.update s.data k xs j).getLast? = some v)
      ⟨by simp, fun u hu j v hq => ?_⟩
    rw [hdata u j hu (by rw [hq]; rfl)]
    exact h.popping u j v hq
  case copying =>
    refine hpoint (fun _ q => ∀ j other copied, q = .copying j other copied →
      copied <+: Function.update s.data k xs other)
      ⟨by simp, fun u hu j other copied hq => ?_⟩
    rw [hdata u other hu (by rw [hq]; rfl)]
    exact h.copying u j other copied hq
  case alive =>
    exact hpoint (fun _ q => ∀ j, q.uses = some j → status j = .alive)
      ⟨by simp [Point.uses], fun u _ j hj => halive j (h.alive u j hj)⟩
  case building =>
    exact hpoint (fun _ q => ∀ j, q.builds = some j → status j = .building)
      ⟨by simp [Point.builds], fun u hu j hj => hbuilding u j hu hj⟩
  case unique =>
    have hbuilt : ∀ u j, (Function.update s.point t (.unlocking m) u).builds = some j →
      (s.point u).builds = some j :=
      hpoint (fun u q => ∀ j, q.builds = some j → (s.point u).builds = some j) ⟨by simp [Point.builds],
        fun u _ j => id⟩
    exact fun u v j hu hv => h.unique u v j (hbuilt u j hu) (hbuilt v j hv)

theorem Inv.observe {m : M} {op : Op M V} {res : Res V} (h : s.Inv own) (hholds : (s.point t).holds own = some m)
    (happly : apply s.data op = (s.data, res)) : Inv own (s.effect t m s.data op res) := by
  have hsame : Function.update s.data m (s.data m) = s.data := Function.update_eq_self m s.data
  have heffect : Inv own { s.effect t m (Function.update s.data m (s.data m)) op res with status := s.status } :=
    h.effect hholds (fun _ _ _ => rfl) (by rw [happly, hsame]) (fun _ => id) fun u j _ => h.building u j
  rw [hsame] at heffect
  exact heffect

omit [DecidableEq T] [DecidableEq M] in
theorem holds_of_reads (own : Bool) {p : Point M V} {k : M} (h : p.reads = some k) :
    p.holds own = some k ∨ (own = true ∧ ∃ m copied, p = .copying m k copied) := by
  cases p with
  | popping m v => exact .inl h
  | copying m other copied =>
    cases h
    cases own with
    | false => exact .inl rfl
    | true => exact .inr ⟨rfl, m, copied, rfl⟩
  | _ => cases h

omit [DecidableEq T] in
theorem Inv.not_read {k : M} (h : s.Inv own) (hquiet : s.Quiet own (.go t))
    (hholds : (s.point t).holds own = some k)
    (hwrites : (s.point t).writes = some k) {u : T} (hu : u ≠ t) : (s.point u).reads ≠ some k := by
  intro hreads
  rcases holds_of_reads own hreads with hholds' | ⟨hown, m, copied, hq⟩
  · have ht := (h.owner k t).mpr hholds
    rw [(h.owner k u).mpr hholds'] at ht
    exact hu (Option.some.inj ht)
  · exact hquiet hown u m k copied hq hwrites

theorem body_inv {op : Op M V} (h : s.Inv own) (hquiet : s.Quiet own (.go t)) (hp : s.point t = .body op) :
    (s.body t op).Inv own := by
  have hown : ∀ m, s.owner m = some t ↔ some (op.mutex own) = some m := fun m => by rw [h.owner m t, hp]; rfl
  have hsame : ∀ u, u ≠ t → ∀ m, s.owner m = some u ↔ s.owner m = some u := fun _ _ _ => Iff.rfl
  have hholds : (s.point t).holds own = some (op.mutex own) := by rw [hp]; rfl
  cases op with
  | push m v =>
    have hfree : ∀ u, u ≠ t → (s.point u).reads ≠ some m :=
      fun u hu => h.not_read hquiet hholds (by rw [hp]; rfl) hu
    exact h.effect hholds (fun u hu hr => absurd hr (hfree u hu)) rfl (fun _ => id) fun u j _ => h.building u j
  | pop m =>
    rw [body]
    cases hlast : (s.data m).getLast? with
    | none => exact h.observe hholds (by rw [apply, hlast])
    | some v =>
      refine h.goto hsame hown (fun m' v' he => ?_) (by simp) (fun j hj => ?_) (by simp [Point.builds])
      · cases he
        exact hlast
      · rw [hp]
        exact hj
  | empty m => exact h.observe hholds rfl
  | copy m other =>
    refine h.goto hsame hown (by simp) (fun m' other' copied he => ?_) (fun j hj => ?_) (fun j hj => ?_)
    · cases he
      exact List.nil_prefix
    · rw [hp]
      exact hj
    · rw [hp]
      exact hj

theorem copying_inv {m other : M} {copied : List V} (h : s.Inv own) (hp : s.point t = .copying m other copied)
    (he : s.go own t = some s') : s'.Inv own := by
  have hprefix := h.copying t m other copied hp
  have hholds : (s.point t).holds own = some (Op.mutex own (Op.copy m other : Op M V)) := by rw [hp]; rfl
  rw [go, hp] at he
  dsimp only at he
  split at he
  next v hv =>
    cases he
    refine h.goto (fun _ _ _ => Iff.rfl) (fun k => by rw [h.owner k t, hp]; rfl) (by simp)
      (fun m' other' copied' hq => ?_)
      (fun k hk => by rw [hp]; exact hk) (fun k hk => by rw [hp]; exact hk)
    cases hq
    obtain ⟨rest, hrest⟩ := hprefix
    rw [← hrest] at hv ⊢
    rw [List.getElem?_append_right (Nat.le_refl _), Nat.sub_self] at hv
    cases rest with
    | nil => cases hv
    | cons x rest =>
      cases hv
      exact ⟨rest, by simp⟩
  next hnone =>
    cases he
    have hall : copied = s.data other := by
      obtain ⟨rest, hrest⟩ := hprefix
      rw [← hrest, List.getElem?_append_right (Nat.le_refl _), Nat.sub_self] at hnone
      cases rest with
      | nil => rw [← hrest, List.append_nil]
      | cons x rest => cases hnone
    have hbuilds : (s.point t).builds = some m := by rw [hp]; rfl
    have hm : s.status m = .building := h.building t m hbuilds
    refine h.effect hholds (fun u _ hr => ?_) (by rw [apply, hall]) (fun j hj => ?_) (fun u j hu hj => ?_)
    · have huses : (s.point u).uses = some m := by
        cases hq : s.point u <;> rw [hq] at hr <;> first | cases hr; rfl | cases hr
      rw [h.alive u m huses] at hm
      cases hm
    · by_cases hjm : j = m
      · rw [hjm, Function.update_self]
      · rw [Function.update_of_ne hjm]
        exact hj
    · have hjm : j ≠ m := by
        rintro rfl
        exact hu (h.unique u t j hj hbuilds)
      rw [Function.update_of_ne hjm]
      exact h.building u j hj

theorem go_inv (h : s.Inv own) (hquiet : s.Quiet own (.go t)) (he : s.go own t = some s') : s'.Inv own := by
  cases hp : s.point t with
  | idle =>
    rw [go, hp] at he
    cases he
  | locking op =>
    rw [go, hp] at he
    dsimp only at he
    split at he
    next hfree =>
      cases he
      refine h.goto (fun u hu m => Mutex.lock_other hfree hu m) (fun m => ?_) (by simp) (by simp)
        (fun k hk => by rw [hp]; exact hk) (fun k hk => ?_)
      · rw [Mutex.lock_self, h.owner m t, hp]
        simp [Point.holds, eq_comm]
      · rw [hp]
        cases op <;> exact hk
    · cases he
  | body op =>
    rw [go, hp] at he
    cases he
    exact body_inv h hquiet hp
  | popping m v =>
    rw [go, hp] at he
    cases he
    have hholds : (s.point t).holds own = some m := by rw [hp]; rfl
    have hfree : ∀ u, u ≠ t → (s.point u).reads ≠ some m :=
      fun u hu => h.not_read hquiet hholds (by rw [hp]; rfl) hu
    refine h.effect hholds (fun u hu hr => absurd hr (hfree u hu)) ?_ (fun _ => id) fun u j _ => h.building u j
    rw [apply, h.popping t m v hp]
  | copying m other copied => exact copying_inv h hp he
  | unlocking m =>
    rw [go, hp] at he
    cases he
    have howner : s.owner m = some t := (h.owner m t).mpr (by rw [hp]; rfl)
    refine h.goto (fun u hu k => Mutex.unlock_other howner hu k) (fun k => ?_) (by simp) (by simp)
      (by simp [Point.uses])
      (by simp [Point.builds])
    rw [Mutex.unlock_self, h.owner k t, hp]
    simp [Point.holds, eq_comm]

theorem call_inv {op : Op M V} (h : s.Inv own) (hidle : s.point t = .idle) (huses : s.status op.uses = .alive)
    {status : M → Status} (halive : ∀ j, s.status j = .alive → status j = .alive)
    (hbuilding : ∀ j, s.status j = .building → status j = .building)
    (hnew : ∀ j, (Point.locking op).builds = some j → s.status j = .absent ∧ status j = .building) :
    Inv own { s.goto t (.locking op) with status := status } := by
  have hpoint := fun P => (Function.forall_update_iff s.point (a := t) (b := .locking op) P).mpr
  have holder : ∀ u j, (s.point u).builds = some j → (Point.locking op).builds ≠ some j := by
    intro u j hu hj
    have hb := h.building u j hu
    rw [(hnew j hj).1] at hb
    cases hb
  constructor
  case owner =>
    intro m
    refine hpoint (fun u q => s.owner m = some u ↔ q.holds own = some m) ⟨?_, fun u _ => h.owner m u⟩
    rw [h.owner m t, hidle]
    rfl
  case replays => exact h.replays
  case popping =>
    exact hpoint (fun _ q => ∀ m v, q = .popping m v → (s.data m).getLast? = some v)
      ⟨by simp, fun u _ => h.popping u⟩
  case copying =>
    exact hpoint (fun _ q => ∀ m other copied, q = .copying m other copied → copied <+: s.data other)
      ⟨by simp, fun u _ => h.copying u⟩
  case alive =>
    refine hpoint (fun _ q => ∀ m, q.uses = some m → status m = .alive)
      ⟨fun m hm => ?_, fun u _ m hm => halive m (h.alive u m hm)⟩
    cases hm
    exact halive _ huses
  case building =>
    exact hpoint (fun _ q => ∀ m, q.builds = some m → status m = .building)
      ⟨fun m hm => (hnew m hm).2, fun u _ m hm => hbuilding m (h.building u m hm)⟩
  case unique =>
    intro u v m hu hv
    by_cases hut : u = t <;> by_cases hvt : v = t
    · rw [hut, hvt]
    · rw [hut] at hu
      replace hu : (Function.update s.point t (.locking op) t).builds = some m := hu
      replace hv : (Function.update s.point t (.locking op) v).builds = some m := hv
      rw [Function.update_self] at hu
      rw [Function.update_of_ne hvt] at hv
      exact absurd hu (holder v m hv)
    · rw [hvt] at hv
      replace hu : (Function.update s.point t (.locking op) u).builds = some m := hu
      replace hv : (Function.update s.point t (.locking op) t).builds = some m := hv
      rw [Function.update_self] at hv
      rw [Function.update_of_ne hut] at hu
      exact absurd hv (holder u m hu)
    · replace hu : (Function.update s.point t (.locking op) u).builds = some m := hu
      replace hv : (Function.update s.point t (.locking op) v).builds = some m := hv
      rw [Function.update_of_ne hut] at hu
      rw [Function.update_of_ne hvt] at hv
      exact h.unique u v m hu hv

omit [DecidableEq T] in
theorem status_kept {m j : M} {x : Status} (hm : s.status m = .absent) (hj : s.status j ≠ .absent) :
    Function.update s.status m x j = s.status j := by
  refine Function.update_of_ne ?_ _ _
  rintro rfl
  exact hj hm

theorem step_inv {a : Act T M V} (h : s.Inv own) (hquiet : s.Quiet own a) (he : s.step own a = some s') :
    s'.Inv own := by
  cases a with
  | create m =>
    rw [step] at he
    split at he
    next habsent =>
      cases he
      exact ⟨h.owner, h.replays, h.popping, h.copying,
        fun t j hj => (status_kept habsent (by simp [h.alive t j hj])).trans (h.alive t j hj),
        fun t j hj => (status_kept habsent (by simp [h.building t j hj])).trans (h.building t j hj), h.unique⟩
    · cases he
  | call t op =>
    unfold step at he
    dsimp only at he
    split at he
    next hidle =>
      split at he
      · cases he
      next huses =>
        have halive : s.status op.uses = .alive := not_not.mp huses
        split at he
        next m other =>
          split at he
          next habsent =>
            cases he
            refine call_inv h hidle halive (fun j hj => (status_kept habsent (by simp [hj])).trans hj)
              (fun j hj => (status_kept habsent (by simp [hj])).trans hj) fun j hj => ?_
            cases hj
            exact ⟨habsent, Function.update_self _ _ _⟩
          · cases he
        next hnot =>
          cases he
          refine call_inv h hidle halive (fun _ => id) (fun _ => id) fun j hj => ?_
          cases op with
          | copy m other => exact absurd rfl (hnot m other)
          | _ => cases hj
    · cases he
  | go t => exact go_inv h hquiet he

end Invariant

/-- However the steps of the threads are interleaved, contents and results are those of the operations one after the
other, in the order in which they took effect between their locks and unlocks. Copies need some help in 3_5.cpp. -/
theorem stacks_linearize {own : Bool} {s : Stacks T M V} (h : Reach.Runs (step own) (Quiet own) start s) :
    Replays s.history s.data :=
  (h.invariant (Inv own) start_inv fun _ _ _ hi hq he => step_inv hi hq he).replays

omit [DecidableEq T] [DecidableEq M] in
theorem quiet_false (s : Stacks T M V) (a : Act T M V) : s.Quiet false a := by
  cases a with
  | create => trivial
  | call => trivial
  | go t => exact fun hown => absurd hown Bool.false_ne_true

def filled : List (Act Bool Bool Nat) :=
  [.create false, .call true (.push false 1), .go true, .go true, .go true, .call true (.push false 2), .go true,
    .go true,
    .go true, .call false (.copy true false), .go false, .go false, .go false]

theorem stacks_linearize_copy : ∃ s : Stacks Bool Bool Nat, Reach.Runs (step false) (Quiet false) start s ∧
    s.data true = [1, 2] ∧ Replays s.history s.data := by
  obtain ⟨s, hrun, hdata⟩ :
    ∃ s, Reach.run (step false) (filled ++ [.call true (.pop false), .go false, .go false, .go false,
      .go true]) (start : Stacks Bool Bool Nat) = some s ∧ s.data true = [1, 2] := ⟨_, rfl, rfl⟩
  have hruns : Reach.Runs (step false) (Quiet false) start s := by
    refine Relation.ReflTransGen.mono (fun s s' hstep => ?_) _ _ (Reach.runs_of_run_any hrun)
    obtain ⟨a, -, he⟩ := hstep
    exact ⟨a, quiet_false s a, he⟩
  exact ⟨s, hruns, hdata, stacks_linearize hruns⟩

theorem replays_unique {history : List (Op M V × Res V)} {data data' : M → List V} (h : Replays history data)
    (h' : Replays history data') : data = data' := by
  induction history generalizing data data' with
  | nil => exact h.trans h'.symm
  | cons e history ih =>
    obtain ⟨op, res⟩ := e
    obtain ⟨before, hbefore, happly⟩ := h
    obtain ⟨before', hbefore', happly'⟩ := h'
    rw [ih hbefore hbefore', happly'] at happly
    exact (Prod.mk.inj happly).1.symm

/-- The copy of 3_5.cpp can have contents that the stack never had. -/
theorem torn_copy : ∃ s : Stacks Bool Bool Nat, Reach.Runs (step true) (fun _ _ => True) start s ∧
    ¬ Replays s.history s.data := by
  obtain ⟨s, hrun, hhistory, hcopy⟩ :
    ∃ s, Reach.run (step true) (filled ++ [.call true (.pop false), .go true, .go true,
      .go true, .go true, .call true (.pop false), .go true, .go true, .go true, .go true,
        .call true (.push false 3), .go true,
      .go true, .go true, .call true (.push false 4), .go true, .go true, .go true, .go false, .go false])
      (start : Stacks Bool Bool Nat) = some s ∧ s.history = [(.copy true false, .done), (.push false 4, .done),
        (.push false 3, .done), (.pop false, .value 1), (.pop false, .value 2), (.push false 2, .done),
          (.push false 1, .done)] ∧
      s.data true = [1, 4] := ⟨_, rfl, rfl, rfl⟩
  refine ⟨s, Reach.runs_of_run_any hrun, fun h => ?_⟩
  obtain ⟨before, hbefore, hfalse⟩ : ∃ before : Bool → List Nat,
    Replays [(.push false 4, .done), (.push false 3, .done),
      (.pop false, .value 1), (.pop false, .value 2), (.push false 2, .done), (.push false 1, .done)] before ∧
      before false = [3, 4] := ⟨_, ⟨_, ⟨_, ⟨_, ⟨_, ⟨_, ⟨_, rfl, rfl⟩, rfl⟩, rfl⟩, rfl⟩, rfl⟩, rfl⟩, rfl⟩
  rw [hhistory] at h
  obtain ⟨before', hbefore', happly⟩ := h
  have hdata : before false = s.data true := by
    rw [replays_unique hbefore hbefore', ← (Prod.mk.inj happly).1, Function.update_self]
  rw [hfalse, hcopy] at hdata
  cases hdata

end Stacks

end ThreadSafeStack

end CPractice
