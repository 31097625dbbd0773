import CPractice.Ae.SelfDelete
import Mathlib.Data.Int.Order.Basic

/-! No handler runs before its time, as long as the clocks do not go back. -/

namespace CPractice

open CMem History

def Timeval.toUsec (tv : Timeval) : Int := tv.tv_sec * 1000000 + tv.tv_usec

structure World.Steady (w : World) : Prop where
  time : ∀ i j, i ≤ j → w.time i ≤ w.time j
  gettimeofday : ∀ i j, i ≤ j → (w.gettimeofday i).toUsec ≤ (w.gettimeofday j).toUsec

theorem World.Steady.reading_le {w : World} (h : w.Steady) {i j : Nat} (hij : i ≤ j) :
    (aeGetTime w i).toMs ≤ (aeGetTime w j).toMs := by
  have hms : ∀ n, (aeGetTime w n).toMs = (w.gettimeofday n).toUsec / 1000 := by
    intro n
    have h₀ := (w.gettimeofday n).usec_nonneg
    simp only [aeGetTime, Time.toMs, Timeval.toUsec, Int.tdiv_eq_ediv_of_nonneg h₀]
    omega
  have hle := h.gettimeofday i j hij
  rw [hms, hms]
  omega

/-- An invoked event has been created, the reading is not before the creation plus
the delay, and not before any return of its handler plus the value returned. -/
def Obs.OnTime (older : List Obs) : Obs → Prop
  | .invoked te now =>
    (∃ te₀ t ms list, .created te₀ t ms list ∈ older ∧ te₀.id = te.id) ∧
      (∀ te₀ t ms list, .created te₀ t ms list ∈ older → te₀.id = te.id → t.toMs + ms ≤ now.toMs) ∧
      ∀ r t, .rescheduled te.id r t ∈ older → t.toMs + r ≤ now.toMs
  | _ => True

structure Waits (τ : List Obs) (te : AeTimeEvent) : Prop where
  normal : te.when.Normal
  issued : ∃ te₀ t ms list, .created te₀ t ms list ∈ τ ∧ te₀.id = te.id
  created : ∀ te₀ t ms list, .created te₀ t ms list ∈ τ → te₀.id = te.id → t.toMs + ms ≤ te.when.toMs
  rescheduled : ∀ r t, .rescheduled te.id r t ∈ τ → t.toMs + r ≤ te.when.toMs

structure Timely (w : World) (q : TimerList) : Prop where
  ordered : Ordered q
  clock : ∀ n ≥ q.timeReads, q.lastTime ≤ w.time n
  created_lt : ∀ te t ms list, .created te t ms list ∈ q.trace → te.id < q.timeEventNextId
  rescheduled_lt : ∀ i r t, .rescheduled i r t ∈ q.trace → i < q.timeEventNextId
  waits : ∀ x ∈ q.nodes, Waits q.trace x.2
  onTime : Each Obs.OnTime q.trace

theorem Waits.append {τ : List Obs} {te : AeTimeEvent} (h : Waits τ te) (τ' : List Obs)
    (hc : ∀ te₀ t ms list, .created te₀ t ms list ∈ τ' → te₀.id ≠ te.id)
    (hr : ∀ r t, .rescheduled te.id r t ∉ τ') : Waits (τ' ++ τ) te := by
  obtain ⟨te₀, t, ms, list, hm, hid⟩ := h.issued
  refine ⟨h.normal, ⟨te₀, t, ms, list, List.mem_append_right _ hm, hid⟩, ?_, ?_⟩
  · intro te₀ t ms list hm hid
    rcases List.mem_append.mp hm with hm | hm
    · exact absurd hid (hc te₀ t ms list hm)
    · exact h.created te₀ t ms list hm hid
  · intro r t hm
    exact h.rescheduled r t ((List.mem_append.mp hm).resolve_left (hr r t))

theorem Timely.of_quiet {w : World} {q q' : TimerList} (h : Timely w q) (ho : Ordered q')
    (hn : ∀ x ∈ q'.nodes, x ∈ q.nodes) (hid : q'.timeEventNextId = q.timeEventNextId)
    (hclock : ∀ n ≥ q'.timeReads, q'.lastTime ≤ w.time n) {τ : List Obs}
    (ht : q'.trace = τ ++ q.trace) (hc : ∀ te t ms list, .created te t ms list ∉ τ)
    (hr : ∀ i r t, .rescheduled i r t ∉ τ) (hs : Each Obs.OnTime q'.trace) : Timely w q' := by
  refine ⟨ho, hclock, ?_, ?_, ?_, hs⟩
  · intro te t ms list hm
    rw [ht] at hm
    exact hid ▸ h.created_lt te t ms list ((List.mem_append.mp hm).resolve_left (hc te t ms list))
  · intro i r t hm
    rw [ht] at hm
    exact hid ▸ h.rescheduled_lt i r t ((List.mem_append.mp hm).resolve_left (hr i r t))
  · intro x hx
    rw [ht]
    exact (h.waits x (hn x hx)).append τ (fun te₀ t ms list hm => absurd hm (hc te₀ t ms list))
      fun r t => hr _ r t

theorem Timely.create {w : World} {q : TimerList} (h : Timely w q) {a : Nat} {ms : Int}
    (hms : 0 ≤ ms) {proc clientData finalizerProc : Ptr}
    (ho : Ordered (q.create w a ms proc clientData finalizerProc)) :
    Timely w (q.create w a ms proc clientData finalizerProc) := by
  let te := q.newEvent w ms proc clientData finalizerProc
  refine ⟨ho, h.clock, ?_, ?_, ?_, ⟨trivial, h.onTime⟩⟩
  · intro te₀ t ms' list hm
    rcases List.mem_cons.mp hm with he | hm
    · cases he
      exact Int.lt_succ _
    · exact Int.lt_trans (h.created_lt te₀ t ms' list hm) (Int.lt_succ _)
  · intro i r t hm
    have hold := (List.mem_cons.mp hm).resolve_left (by simp)
    exact Int.lt_trans (h.rescheduled_lt i r t hold) (Int.lt_succ _)
  · intro x hx
    rcases List.mem_cons.mp hx with rfl | hx
    · refine ⟨addMilliseconds_normal (aeGetTime_normal w _) hms, ⟨te, _, _, _, List.mem_cons_self, rfl⟩,
        ?_, ?_⟩
      · intro te₀ t ms' list hm hid
        rcases List.mem_cons.mp hm with he | hm
        · cases he
          exact le_of_eq (addMilliseconds_toMs _ _).symm
        · exact absurd hid (Int.ne_of_lt (h.created_lt te₀ t ms' list hm))
      · intro r t hm
        have hold := (List.mem_cons.mp hm).resolve_left (by simp)
        exact absurd (h.rescheduled_lt _ r t hold) (Int.lt_irrefl _)
    · refine (h.waits x hx).append [_] ?_ (by simp)
      intro te₀ t ms' list hm
      cases List.mem_singleton.mp hm
      exact Int.ne_of_gt (h.ordered.below x hx)

theorem Timely.reschedule {w : World} (hw : w.Steady) {q : TimerList} (h : Timely w q)
    {pre post : List (Nat × AeTimeEvent)} {x : Nat × AeTimeEvent} {r : Int}
    (hq : q.nodes = pre ++ x :: post) (hr : 0 ≤ r)
    (hdue : ∃ k < q.clockReads, due (aeGetTime w k) x.2.when = true)
    (ho : Ordered (q.reschedule w pre x post r)) : Timely w (q.reschedule w pre x post r) := by
  have hx : x ∈ q.nodes := (mem_of_remove hq).mpr (.inl rfl)
  have hwaits := h.waits x hx
  let now := aeGetTime w q.clockReads
  let when := addMilliseconds now r
  have hwhen : when.toMs = now.toMs + r := addMilliseconds_toMs now r
  have hpast : x.2.when.toMs ≤ now.toMs := by
    obtain ⟨k, hk, hdue⟩ := hdue
    have hle := (due_iff (aeGetTime_normal w k) hwaits.normal).mp hdue
    exact le_trans hle (hw.reading_le (Nat.le_of_lt hk))
  refine ⟨ho, h.clock, ?_, ?_, ?_, ⟨trivial, h.onTime⟩⟩
  · intro te t ms list hm
    exact h.created_lt te t ms list ((List.mem_cons.mp hm).resolve_left (by simp))
  · intro i r' t hm
    rcases List.mem_cons.mp hm with he | hm
    · cases he
      exact h.ordered.below x hx
    · exact h.rescheduled_lt i r' t hm
  · intro y hy
    rcases (mem_of_remove (show (q.reschedule w pre x post r).nodes = _ from rfl)).mp hy with rfl | hy
    · refine ⟨addMilliseconds_normal (aeGetTime_normal w _) hr, ?_, ?_, ?_⟩
      · obtain ⟨te₀, t, ms, list, hm, hid⟩ := hwaits.issued
        exact ⟨te₀, t, ms, list, List.mem_cons_of_mem _ hm, hid⟩
      · intro te₀ t ms list hm hid
        have hold := (List.mem_cons.mp hm).resolve_left (by simp)
        have hle := hwaits.created te₀ t ms list hold hid
        show t.toMs + ms ≤ when.toMs
        omega
      · intro r' t hm
        show t.toMs + r' ≤ when.toMs
        rcases List.mem_cons.mp hm with he | hm
        · cases he
          exact le_of_eq hwhen.symm
        · have hle := hwaits.rescheduled r' t hm
          omega
    · refine (h.waits y ((mem_of_remove hq).mpr (.inr hy))).append [_] (by simp) ?_
      intro r' t hm
      obtain ⟨hid, -⟩ := Obs.rescheduled.inj (List.mem_singleton.mp hm)
      exact h.ordered.ne_of_remove hq hy hid

theorem Timely.step {w : World} (hw : w.Steady) {q q' : TimerList}
    (hs : TimerStep w (0 ≤ ·) (0 ≤ ·) q q') (h : Timely w q) : Timely w q' := by
  have ho := h.ordered.step hs
  cases hs with
  | edit he =>
    cases he with
    | create a proc clientData finalizerProc hd => exact h.create hd ho
    | absent ht hn =>
      exact h.of_quiet ho (fun _ hx => hx) rfl h.clock (τ := [_]) rfl (by simp) (by simp)
        ⟨trivial, h.onTime⟩
    | remove ht hq hpre =>
      exact h.of_quiet ho (fun _ hx => (mem_of_remove hq).mpr (.inr hx)) rfl h.clock rfl
        (by simp [mem_removalTrace]) (by simp [mem_removalTrace])
        (each_removalTrace.mpr ⟨h.onTime, trivial, fun _ => trivial⟩)
  | enter =>
    have hnow : ¬ w.time q.timeReads < q.lastTime := not_lt.mpr (h.clock _ (Nat.le_refl _))
    have hn : (q.enter w).nodes = q.nodes := if_neg hnow
    refine h.of_quiet ho (fun x hx => hn ▸ hx) rfl (fun n hge => ?_) (τ := []) rfl (by simp) (by simp)
      h.onTime
    exact hw.time _ n (Nat.le_of_succ_le hge)
  | inspect hx hdue =>
    exact h.of_quiet ho (fun _ hx => hx) rfl h.clock (τ := [_]) rfl (by simp) (by simp)
      ⟨trivial, h.onTime⟩
  | @invoke x hx hdue =>
    refine h.of_quiet ho (fun _ hx => hx) rfl h.clock (τ := [_]) rfl (by simp) (by simp)
      ⟨?_, h.onTime⟩
    have hwaits := h.waits x hx
    have hle := (due_iff (aeGetTime_normal w _) hwaits.normal).mp hdue
    refine ⟨hwaits.issued, fun te₀ t ms list hm hid => ?_, fun r t hm => ?_⟩
    · exact le_trans (hwaits.created te₀ t ms list hm hid) hle
    · exact le_trans (hwaits.rescheduled r t hm) hle
  | reschedule hq hr hdue => exact h.reschedule hw hq hr hdue ho

theorem timely_init {w : World} (hw : w.Steady) : Timely w (emptyList w) where
  ordered := ordered_init w
  clock n _ := hw.time 0 n (Nat.zero_le n)
  created_lt := by simp [emptyList, initTimers]
  rescheduled_lt := by simp [emptyList, initTimers]
  waits := by simp [emptyList]
  onTime := trivial

/-- Never early: with clocks that do not go back, delays and return values that are
not negative, and handlers that do not delete themselves. -/
theorem runs_onTime {w : World} (hw : w.Steady) (hspares : w.Spares)
    (hwithin : w.Within (0 ≤ ·) (0 ≤ ·)) {ops : List TimerOp} (hops : ∀ op ∈ ops, op.Within (0 ≤ ·)) :
    ∃ p, runOps w ops (startRun w) = .ok p ∧
      ∀ newer o older, p.loop.trace = newer ++ o :: older → Obs.OnTime older o := by
  obtain ⟨p, hrun⟩ := hspares.runOps_ok ops
  obtain ⟨a, himp, hsteps⟩ := runOps_implements hwithin hops hrun
  have h := hsteps.invariant (Timely.step hw) (timely_init hw)
  refine ⟨p, hrun, ?_⟩
  rw [himp.loop.state]
  exact each_iff.mp h.onTime

def tickWorld : World where
  time n := n
  gettimeofday n := .ofMs n
  timeProc _ _ _ _ := { script := .create 2 1 0 0 .done, retval := 3, finalizer := .done }

theorem tickWorld_steady : tickWorld.Steady where
  time i j hij := Int.ofNat_le.mpr hij
  gettimeofday i j hij := by
    simp only [tickWorld, Timeval.ofMs, Timeval.toUsec]
    omega

theorem tickWorld_within : tickWorld.Within (0 ≤ ·) (0 ≤ ·) where
  script n proc id data i hi := by
    rcases hi with rfl | hi
    · decide
    · exact False.elim hi
  finalizer n proc id data i hi := False.elim hi
  retval n proc id data _ := show (0 : Int) ≤ 3 by decide

def tickOps : List TimerOp := [.create 1 1 0 0, .process, .iterate, .process, .iterate, .iterate]

theorem tickOps_onTime :
    ∃ p, runOps tickWorld tickOps (startRun tickWorld) = .ok p ∧
      ∀ newer o older, p.loop.trace = newer ++ o :: older → Obs.OnTime older o :=
  runs_onTime tickWorld_steady (fun _ _ _ _ h => h) tickWorld_within (by
    intro op hop
    simp only [tickOps, List.mem_cons, List.not_mem_nil, or_false] at hop
    rcases hop with rfl | rfl | rfl | rfl | rfl | rfl <;> simp [TimerOp.Within])

end CPractice
