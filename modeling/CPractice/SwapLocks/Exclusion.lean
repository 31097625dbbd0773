import CPractice.Lib.Mutex
import CPractice.SwapLocks.Basic

/-! No two threads are in `swap` with the same object, and no line is lost. -/

namespace CPractice

namespace SwapLocks

namespace Swaps

variable {T M : Type}

def Shape (c : Call M) : Point M → Prop
  | .locking first second => Begins c (.locking first second)
  | .trying first second => c.use_stdlock = true ∧
      ((first = c.lhs ∧ second = c.rhs) ∨ (first = c.rhs ∧ second = c.lhs))
  | .backing _ => c.use_stdlock = true
  | .second => c.use_stdlock = false
  | _ => True

structure Place (c : Call M) (left : Nat) (p : Point M) : Prop where
  busy : p ≠ .loop → left ≠ 0 ∧ c.lhs ≠ c.rhs
  shape : Shape c p

/-- The line of a turn is printed before the turn ends. -/
def owed : Point M → Nat
  | .unlock_b => 1
  | .unlock_a => 1
  | _ => 0

variable [DecidableEq T]

structure Inv (calls : T → Call M) (s : Swaps T M) : Prop where
  owner : ∀ m t, s.owner m = some t ↔ m ∈ (s.point t).holds (calls t)
  place : ∀ t, Place (calls t) (s.left t) (s.point t)
  left_le : ∀ t, s.left t ≤ (calls t).count
  lines : ∀ t, (calls t).lhs ≠ (calls t).rhs →
    s.printed.count t + s.left t = (calls t).count + owed (s.point t)

variable {calls : T → Call M} {s s' : Swaps T M} {t : T}

theorem start_inv (calls : T → Call M) : (start calls).Inv calls where
  owner := by simp [start, Point.holds]
  place := fun t => ⟨fun h => absurd rfl h, trivial⟩
  left_le := fun t => Nat.le_refl _
  lines := by simp [start, owed]

/-- A step of one thread leaves the other threads where they are. -/
theorem Inv.move (h : s.Inv calls) {p : Point M} (hpoint : s'.point = Function.update s.point t p)
    (hother : ∀ u, u ≠ t → s'.left u = s.left u ∧ s'.printed.count u = s.printed.count u ∧
      ∀ m, s'.owner m = some u ↔ s.owner m = some u)
    (hself : ∀ m, s'.owner m = some t ↔ m ∈ p.holds (calls t)) (hplace : Place (calls t) (s'.left t) p)
    (hleft : s'.left t ≤ s.left t) (hlines : (calls t).lhs ≠ (calls t).rhs →
      s'.printed.count t + s'.left t = (calls t).count + owed p) : s'.Inv calls := by
  have hp : s'.point t = p := by rw [hpoint, Function.update_self]
  have hpu : ∀ u, u ≠ t → s'.point u = s.point u := fun u hu => by rw [hpoint, Function.update_of_ne hu]
  constructor
  case owner =>
    intro m u
    by_cases hu : u = t
    · rw [hu, hp]
      exact hself m
    · rw [(hother u hu).2.2, hpu u hu]
      exact h.owner m u
  case place =>
    intro u
    by_cases hu : u = t
    · rw [hu, hp]
      exact hplace
    · rw [(hother u hu).1, hpu u hu]
      exact h.place u
  case left_le =>
    intro u
    by_cases hu : u = t
    · rw [hu]
      exact Nat.le_trans hleft (h.left_le t)
    · rw [(hother u hu).1]
      exact h.left_le u
  case lines =>
    intro u hne
    by_cases hu : u = t
    · rw [hu, hp]
      exact hlines (hu ▸ hne)
    · rw [(hother u hu).1, (hother u hu).2.1, hpu u hu]
      exact h.lines u hne

/-- The steps that touch no counter and no output. -/
theorem Inv.goto {o : M → Option T} {p : Point M} (h : s.Inv calls)
    (hother : ∀ u, u ≠ t → ∀ m, o m = some u ↔ s.owner m = some u)
    (hself : ∀ m, o m = some t ↔ m ∈ p.holds (calls t))
    (hplace : Place (calls t) (s.left t) p) (howed : owed p = owed (s.point t)) :
    Inv calls (Swaps.goto { s with owner := o } t p) :=
  h.move rfl (fun u hu => ⟨rfl, rfl, hother u hu⟩) hself hplace (Nat.le_refl _) fun hne => howed ▸ h.lines t hne

variable [DecidableEq M]

theorem step_inv {choice : Bool} (h : s.Inv calls) (he : step calls s (t, choice) = some s') : s'.Inv calls := by
  have hheld : ∀ m, s.owner m = some t ↔ m ∈ (s.point t).holds (calls t) := fun m => h.owner m t
  obtain ⟨hbusy, hshape⟩ := h.place t
  have hlines := h.lines t
  rcases step_cases he with ⟨hp, hleft, heq, rfl⟩ | ⟨p, hp, hleft, hne, hbegins, rfl⟩ |
    ⟨first, second, hp, hfree, rfl⟩ |
    ⟨first, second, hp, hfree, rfl⟩ | ⟨first, second, hp, rfl⟩ | ⟨first, p, hp, hbegins, rfl⟩ | ⟨hp, hfree, rfl⟩ |
    ⟨hp, rfl⟩ | ⟨hp, rfl⟩ | ⟨hp, rfl⟩
  all_goals rw [hp] at hheld hbusy hshape hlines
  · have hself : Function.update s.point t .loop = s.point := by rw [← hp, Function.update_eq_self]
    refine h.move hself.symm (fun u hu => ⟨?_, rfl, fun m => Iff.rfl⟩) hheld ⟨fun hloop => absurd rfl hloop,
      trivial⟩ ?_ ?_
    · exact Function.update_of_ne hu _ _
    · simp [turn]
    · exact fun hne => absurd heq hne
  · refine h.goto (fun u _ m => Iff.rfl) ?_ ⟨fun _ => ⟨hleft, hne⟩, ?_⟩ ?_
    · rcases hbegins with rfl | ⟨-, rfl⟩
      all_goals exact hheld
    · rcases hbegins with rfl | ⟨hstd, rfl⟩
      · exact .inl rfl
      · exact .inr ⟨hstd, rfl⟩
    · rw [hp]
      rcases hbegins with rfl | ⟨-, rfl⟩
      all_goals rfl
  · obtain ⟨hleft, hne⟩ := hbusy (by simp)
    by_cases hstd : (calls t).use_stdlock = true
    · rw [if_pos hstd]
      refine h.goto (fun u hu m => Mutex.lock_other hfree hu m)
        (fun m => ?_) ⟨fun _ => ⟨hleft, hne⟩, hstd, ?_⟩ (by rw [hp]; rfl)
      · rw [Mutex.lock_self, hheld]
        simp [Point.holds]
      · rcases hshape with hb | ⟨-, hb⟩
        · cases hb
          exact .inl ⟨rfl, rfl⟩
        · cases hb
          exact .inr ⟨rfl, rfl⟩
    · rw [if_neg hstd]
      obtain ⟨rfl, rfl⟩ : first = (calls t).lhs ∧ second = (calls t).rhs := by
        rcases hshape with hb | ⟨hstd', -⟩
        · cases hb
          exact ⟨rfl, rfl⟩
        · exact absurd hstd' hstd
      refine h.goto (fun u hu m => Mutex.lock_other hfree hu m)
        (fun m => ?_) ⟨fun _ => ⟨hleft, hne⟩, Bool.eq_false_iff.mpr hstd⟩
        (by rw [hp]; rfl)
      rw [Mutex.lock_self, hheld]
      simp [Point.holds]
  · obtain ⟨-, hpair⟩ := hshape
    refine h.goto (fun u hu m => Mutex.lock_other hfree hu m)
      (fun m => ?_) ⟨fun _ => hbusy (by simp), trivial⟩ (by rw [hp]; rfl)
    rw [Mutex.lock_self, hheld]
    rcases hpair with ⟨rfl, rfl⟩ | ⟨rfl, rfl⟩
    · simp [Point.holds, or_comm]
    · simp [Point.holds]
  · refine h.goto (fun u _ m => Iff.rfl) hheld ⟨fun _ => hbusy (by simp), hshape.1⟩ (by rw [hp]; rfl)
  · have howner : s.owner first = some t := (hheld first).mpr List.mem_cons_self
    refine h.goto (fun u hu m => Mutex.unlock_other howner hu m) (fun m => ?_) ⟨fun _ => hbusy (by simp), ?_⟩ ?_
    · rw [Mutex.unlock_self, hheld]
      rcases hbegins with rfl | ⟨-, rfl⟩
      all_goals simp [Point.holds]
    · rcases hbegins with rfl | ⟨hstd, rfl⟩
      · exact .inl rfl
      · exact .inr ⟨hstd, rfl⟩
    · rw [hp]
      rcases hbegins with rfl | ⟨-, rfl⟩
      all_goals rfl
  · refine h.goto (fun u hu m => Mutex.lock_other hfree hu m)
      (fun m => ?_) ⟨fun _ => hbusy (by simp), trivial⟩ (by rw [hp]; rfl)
    rw [Mutex.lock_self, hheld]
    simp [Point.holds, or_comm]
  · refine h.move rfl (fun u hu => ⟨rfl, ?_, fun m => Iff.rfl⟩) hheld ⟨fun _ => hbusy (by simp), trivial⟩
      (Nat.le_refl _)
      fun hne => ?_
    · rw [List.count_append, List.count_singleton]
      simp [Ne.symm hu]
    · have hcount : s.printed.count t + s.left t = (calls t).count := hlines hne
      rw [List.count_append, List.count_singleton_self]
      show s.printed.count t + 1 + s.left t = (calls t).count + 1
      omega
  · have howner : s.owner (calls t).rhs = some t := (hheld _).mpr (by simp [Point.holds])
    refine h.goto (fun u hu m => Mutex.unlock_other howner hu m)
      (fun m => ?_) ⟨fun _ => hbusy (by simp), trivial⟩ (by rw [hp]; rfl)
    rw [Mutex.unlock_self, hheld]
    have hne := (hbusy (by simp)).2
    simp only [Point.holds, List.mem_cons, List.not_mem_nil, or_false]
    constructor
    · rintro ⟨hm, rfl | rfl⟩
      · rfl
      · exact absurd rfl hm
    · rintro rfl
      exact ⟨hne, .inl rfl⟩
  · have howner : s.owner (calls t).lhs = some t := (hheld _).mpr (by simp [Point.holds])
    obtain ⟨hleft, -⟩ := hbusy (by simp)
    have hturn : (((s.release (calls t).lhs).turn t).goto t .loop).left t = s.left t - 1 :=
      Function.update_self _ _ _
    refine h.move rfl (fun u hu => ⟨Function.update_of_ne hu _ _, rfl, fun m => Mutex.unlock_other howner hu m⟩)
      (fun m => ?_)
      ⟨fun hloop => absurd rfl hloop, trivial⟩ (by rw [hturn]; omega) fun hne => ?_
    · refine (Mutex.unlock_self m).trans ?_
      rw [hheld]
      simp [Point.holds]
    · have hcount : s.printed.count t + s.left t = (calls t).count + 1 := hlines hne
      rw [hturn]
      show s.printed.count t + (s.left t - 1) = (calls t).count
      omega

theorem runs_inv (h : SwapRuns calls (start calls) s) : s.Inv calls :=
  h.invariant (Inv calls) (start_inv calls) fun _ _ _ hi _ he => step_inv hi he

theorem printed_of_step {choice : Bool} (he : step calls s (t, choice) = some s') :
    s'.printed = s.printed ∨ s.point t = .swapping ∧ s'.printed = s.printed ++ [t] := by
  rcases step_cases he with ⟨-, -, -, rfl⟩ | ⟨p, -, -, -, -, rfl⟩ | ⟨first, second, -, -, rfl⟩ |
    ⟨first, second, -, -, rfl⟩ | ⟨first, second, -, rfl⟩ | ⟨first, p, -, -, rfl⟩ | ⟨-, -, rfl⟩ | ⟨hp, rfl⟩ |
    ⟨-, rfl⟩ | ⟨-, rfl⟩
  case inr.inr.inr.inr.inr.inr.inr.inl => exact .inr ⟨hp, rfl⟩
  all_goals exact .inl rfl

/-- A thread whose two arguments are one object never comes to the output. -/
theorem runs_silent (h : SwapRuns calls (start calls) s) (heq : (calls t).lhs = (calls t).rhs) :
    s.printed.count t = 0 := by
  refine (h.invariant (fun s => s.Inv calls ∧ s.printed.count t = 0) ⟨start_inv calls, rfl⟩ ?_).2
  rintro s ⟨u, choice⟩ s' ⟨hinv, hcount⟩ - he
  refine ⟨step_inv hinv he, ?_⟩
  rcases printed_of_step he with hprinted | ⟨hp, hprinted⟩
  · rw [hprinted, hcount]
  · have hu : t ≠ u := by
      rintro rfl
      exact ((hinv.place t).busy (by simp [hp])).2 heq
    rw [hprinted, List.count_append, hcount, List.count_singleton]
    simp [hu.symm]

/-- Two threads in `swap` have no object in common, and a thread that has finished has printed its lines; with
one object for both arguments it prints none. -/
theorem swaps_are_exclusive (h : SwapRuns calls (start calls) s) :
    (∀ t u, t ≠ u → s.point t = .swapping → s.point u = .swapping →
      ∀ m ∈ [(calls t).lhs, (calls t).rhs], m ∉ [(calls u).lhs, (calls u).rhs]) ∧
    (∀ t, (calls t).lhs = (calls t).rhs → s.printed.count t = 0) ∧
    (s.Finished → ∀ t, (calls t).lhs ≠ (calls t).rhs → s.printed.count t = (calls t).count) ∧
    (s.Finished → ∀ m, s.owner m = none) := by
  have hinv := runs_inv h
  refine ⟨fun t u htu ht hu m hm hm' => ?_, fun t heq => runs_silent h heq, fun hfinished t hne => ?_,
    fun hfinished m => ?_⟩
  · have hmt : s.owner m = some t := (hinv.owner m t).mpr (by rw [ht]; exact hm)
    have hmu : s.owner m = some u := (hinv.owner m u).mpr (by rw [hu]; exact hm')
    exact htu (Option.some.inj (hmt.symm.trans hmu))
  · have hlines := hinv.lines t hne
    rw [(hfinished t).1, (hfinished t).2] at hlines
    exact hlines
  · rw [Option.eq_none_iff_forall_ne_some]
    intro t ht
    have hm := (hinv.owner m t).mp ht
    rw [(hfinished t).1] at hm
    exact List.not_mem_nil hm

/-- The third thread swaps an object with itself. -/
def threeCalls (t : Fin 3) : Call Bool := if t = 2 then ⟨true, true, 1, true⟩ else mainCalls 1 true (t = 1)

/-- Two threads lock a mutex, back off, and then one follows the other. -/
def backOffs : List (Fin 3 × Bool) :=
  [(2, true), (0, true), (1, true), (0, true), (1, true), (0, true), (1, true), (0, true), (1, true)] ++
    List.replicate 5 (0, true) ++ List.replicate 5 (1, true)

theorem swaps_are_exclusive_backOffs : ∃ s, SwapRuns threeCalls (start threeCalls) s ∧
    (∀ t, t ≠ 2 → s.printed.count t = 1) ∧ s.printed.count 2 = 0 ∧ ∀ m, s.owner m = none := by
  obtain ⟨s, hrun, hfinished⟩ : ∃ s, Reach.run (step threeCalls) backOffs (start threeCalls) = some s ∧
      s.Finished := by
    refine ⟨_, rfl, fun t => ?_⟩
    match t with
    | 0 => exact ⟨rfl, rfl⟩
    | 1 => exact ⟨rfl, rfl⟩
    | 2 => exact ⟨rfl, rfl⟩
  have hruns := Reach.runs_of_run_any hrun
  obtain ⟨-, hsilent, hlines, hfree⟩ := swaps_are_exclusive hruns
  refine ⟨s, hruns, fun t ht => ?_, hsilent 2 rfl, hfree hfinished⟩
  have hcall : (threeCalls t).lhs ≠ (threeCalls t).rhs ∧ (threeCalls t).count = 1 := by
    revert t
    decide
  rw [hlines hfinished t hcall.1, hcall.2]

end Swaps

end SwapLocks

end CPractice
