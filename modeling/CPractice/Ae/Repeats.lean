import CPractice.Ae.PassComplete
import CPractice.Ae.TimerRuns
import CPractice.Lib.History
import Mathlib.Data.Finset.Card

/-! How often one call of `processTimeEvents` runs the handler of an event, and
whether the call ends. The walk starts again after every handler, and the handler
alone decides when its event is due again. -/

namespace CPractice

open CMem History Relation

def invokedIds (τ : List Obs) : List Int :=
  τ.filterMap fun
    | .invoked te _ => some te.id
    | _ => none

def Obs.returnOf (id : Int) : Obs → Option (Int × Time)
  | .rescheduled i r t => if i = id then some (r, t) else none
  | _ => none

def lastReturn (id : Int) (τ : List Obs) : Option (Int × Time) := τ.findSome? (Obs.returnOf id)

def callTrace (σ : AeTimers) (p : Pass) : List Obs :=
  p.loop.trace.take (p.loop.trace.length - σ.trace.length)

/-- The walk stands on an event whose handler ran in this call, and the time that
the handler asked to wait is over. -/
def DueAgain (w : World) (σ : AeTimers) (p : Pass) : Prop :=
  ∃ te n r t, p.te = some te ∧ p.loop.heap.load te = .ok n ∧ n.val.id ≤ p.maxId ∧
    lastReturn n.val.id (callTrace σ p) = some (r, t) ∧
    due (aeGetTime w p.loop.clockReads) (addMilliseconds t r) = true

theorem invokedIds_append {τ τ' : List Obs} (h : ∀ o ∈ τ, o.isInvoked = false) :
    invokedIds (τ ++ τ') = invokedIds τ' := by
  refine filterMap_append_of_none fun o ho => ?_
  cases o with
  | invoked te now => cases h _ ho
  | _ => rfl

theorem returnOf_eq_some {id : Int} {o : Obs} {r : Int} {t : Time} :
    o.returnOf id = some (r, t) ↔ o = .rescheduled id r t := by
  cases o with
  | rescheduled i r' t' =>
    by_cases hi : i = id
    · simp [Obs.returnOf, hi]
    · simp [Obs.returnOf, hi]
  | _ => simp [Obs.returnOf]

theorem mem_of_lastReturn {id : Int} {τ : List Obs} {r : Int} {t : Time}
    (h : lastReturn id τ = some (r, t)) : .rescheduled id r t ∈ τ := by
  obtain ⟨o, ho, he⟩ := List.exists_of_findSome?_eq_some h
  rw [returnOf_eq_some] at he
  exact he ▸ ho

theorem lastReturn_append {id : Int} {τ τ' : List Obs} (h : ∀ r t, .rescheduled id r t ∉ τ) :
    lastReturn id (τ ++ τ') = lastReturn id τ' := by
  have hnone : lastReturn id τ = none := by
    refine List.findSome?_eq_none_iff.mpr fun o ho => ?_
    cases hr : o.returnOf id with
    | none => rfl
    | some rt => exact absurd (returnOf_eq_some.mp hr ▸ ho) (h rt.1 rt.2)
  rw [lastReturn, List.findSome?_append]
  rw [lastReturn] at hnone
  rw [hnone, Option.none_or]
  rfl

theorem Fire.effect {w : World} {q q' : TimerList} {x : Nat × AeTimeEvent} (h : Fire w q x q')
    (ho : Ordered q) :
    ∃ τ, q'.trace = τ ++ .invoked x.2 (aeGetTime w q.clockReads) :: q.trace ∧
      (∀ o ∈ τ, o.isInvoked = false) ∧ (∀ i r t, .rescheduled i r t ∈ τ → i = x.2.id) ∧
      q.timeEventNextId ≤ q'.timeEventNextId ∧
      ∀ y ∈ q'.nodes, y.2.id < q.timeEventNextId →
        (y ∈ q.nodes ∧ y.2.id ≠ x.2.id) ∨
          ∃ r t τ', y.2.id = x.2.id ∧ τ = .rescheduled x.2.id r t :: τ' ∧
            y.2.when = addMilliseconds t r := by
  have hinvoke : Ordered (q.invoke w x.2) := ho.of_sublist (List.Sublist.refl _) rfl
  have hnotedit : ∀ {τ : List Obs}, (∀ o ∈ τ, o.isEdit = true) → ∀ i r t, .rescheduled i r t ∉ τ :=
    fun hτ i r t hm => absurd (hτ _ hm) (by simp [Obs.isEdit])
  cases h with
  | @again q₁ pre post hr hscript hq =>
    obtain ⟨τ, hτ, hedit⟩ := hscript.trace
    refine ⟨_ :: τ, congrArg (_ :: ·) hτ, List.forall_mem_cons.mpr
      ⟨rfl, fun o ho => Obs.not_invoked_of_isEdit (hedit o ho)⟩, ?_, hscript.nextId_le, ?_⟩
    · intro i r t hm
      rcases List.mem_cons.mp hm with he | hm
      · exact (Obs.rescheduled.inj he).1
      · exact absurd hm (hnotedit hedit i r t)
    · intro y hy hlt
      rcases (mem_of_remove (show (q₁.reschedule w pre x post _).nodes = _ from rfl)).mp hy with rfl | hy
      · exact .inr ⟨_, _, τ, rfl, rfl, rfl⟩
      · have hold := (hscript.mem_of_id hlt).2 y ((mem_of_remove hq).mpr (.inr hy)) rfl
        exact .inl ⟨hold, (hinvoke.edits hscript).ne_of_remove hq hy⟩
  | @stop q₁ q₂ _ hr hscript hdel hfin =>
    have hall := hscript.stop hdel hfin
    obtain ⟨τ, hτ, hedit⟩ := hall.trace
    refine ⟨τ, hτ, fun o ho => Obs.not_invoked_of_isEdit (hedit o ho),
      fun i r t hm => absurd hm (hnotedit hedit i r t), hall.nextId_le, fun y hy hlt => .inl ?_⟩
    have hlt₂ : y.2.id < q₂.timeEventNextId := by
      have h₁ : q.timeEventNextId ≤ q₁.timeEventNextId := hscript.nextId_le
      have h₂ := Edits.nextId_le (.single hdel)
      omega
    have hmid := (hfin.mem_of_id hlt₂).2 y hy rfl
    exact ⟨(hall.mem_of_id hlt).2 y hy rfl, (hinvoke.edits hscript).ne_of_delete hdel hmid⟩

structure Passed (base : List Obs) (a : TimerPass) (τ : List Obs) : Prop where
  trace : a.queue.trace = τ ++ base
  ordered : Ordered a.queue
  maxId_lt : a.maxId < a.queue.timeEventNextId
  returned : ∀ i r t, .rescheduled i r t ∈ τ → i ∈ invokedIds τ
  deadline : ∀ x ∈ a.queue.nodes, x.2.id ≤ a.maxId → ∀ r t,
    lastReturn x.2.id τ = some (r, t) → x.2.when = addMilliseconds t r
  fresh : ∀ x ∈ a.queue.nodes, x.2.id ≤ a.maxId → lastReturn x.2.id τ = none →
    x.2.id ∉ invokedIds τ

theorem Passed.fire {w : World} {base τ : List Obs} {a a' : TimerPass} (h : Passed base a τ)
    (ho : Ordered a'.queue) {x : Nat × AeTimeEvent} (hx : x ∈ a.queue.nodes)
    (hfire : Fire w a.queue x a'.queue) (hm : a'.maxId = a.maxId) :
    ∃ τ', Passed base a' τ' ∧ invokedIds τ' = x.2.id :: invokedIds τ ∧
      ∀ y ∈ a'.queue.nodes, y.2.id ≤ a.maxId → y.2.id ∈ a.queue.nodes.map fun x => x.2.id := by
  obtain ⟨τ₁, hτ₁, hinv, hres, hnext, hnodes⟩ := hfire.effect h.ordered
  let o : Obs := .invoked x.2 (aeGetTime w a.queue.clockReads)
  have hids : invokedIds (τ₁ ++ o :: τ) = x.2.id :: invokedIds τ := invokedIds_append hinv
  have hlt : ∀ {i}, i ≤ a.maxId → i < a.queue.timeEventNextId := by
    intro i hi
    have := h.maxId_lt
    omega
  have hlast : ∀ {i}, i ≠ x.2.id → lastReturn i (τ₁ ++ o :: τ) = lastReturn i τ := by
    intro i hi
    rw [lastReturn_append fun r t hm => hi (hres i r t hm)]
    rfl
  refine ⟨τ₁ ++ o :: τ, ⟨?_, ho, ?_, ?_, ?_, ?_⟩, hids, ?_⟩
  · rw [hτ₁, h.trace]
    simp [o]
  · rw [hm]
    have := h.maxId_lt
    omega
  · intro i r t hmem
    rw [hids]
    rcases List.mem_append.mp hmem with hmem | hmem
    · rw [hres i r t hmem]
      exact List.mem_cons_self
    · exact List.mem_cons_of_mem _ (h.returned i r t ((List.mem_cons.mp hmem).resolve_left (by simp [o])))
  · intro y hy hle r t hr
    rw [hm] at hle
    rcases hnodes y hy (hlt hle) with ⟨hold, hne⟩ | ⟨r', t', τ', hid, rfl, hwhen⟩
    · rw [hlast hne] at hr
      exact h.deadline y hold hle r t hr
    · rw [hid, List.cons_append, lastReturn, List.findSome?_cons] at hr
      simp only [Obs.returnOf, if_true, Option.some.injEq, Prod.mk.injEq] at hr
      rw [hwhen, hr.1, hr.2]
  · intro y hy hle hr
    rw [hm] at hle
    rw [hids]
    rcases hnodes y hy (hlt hle) with ⟨hold, hne⟩ | ⟨r', t', τ', hid, rfl, hwhen⟩
    · rw [hlast hne] at hr
      exact fun hm => (List.mem_cons.mp hm).elim hne (h.fresh y hold hle hr)
    · rw [hid, List.cons_append, lastReturn, List.findSome?_cons] at hr
      simp [Obs.returnOf] at hr
  · intro y hy hle
    rcases hnodes y hy (hlt hle) with ⟨hold, -⟩ | ⟨r', t', τ', hid, -⟩
    · exact List.mem_map_of_mem hold
    · exact hid ▸ List.mem_map_of_mem hx

theorem Passed.step {w : World} {base τ : List Obs} {a a' : TimerPass} (hs : PassStep w a a')
    (h : Passed base a τ) :
    ∃ τ', Passed base a' τ' ∧ a'.maxId = a.maxId ∧
      ((invokedIds τ' = invokedIds τ ∧ a'.queue.nodes = a.queue.nodes ∧ a'.rest.length < a.rest.length) ∨
        ∃ x rest, a.rest = x :: rest ∧ x.2.id ≤ a.maxId ∧
          due (aeGetTime w a.queue.clockReads) x.2.when = true ∧
          invokedIds τ' = x.2.id :: invokedIds τ ∧
          ∀ y ∈ a'.queue.nodes, y.2.id ≤ a.maxId → y.2.id ∈ a.queue.nodes.map fun x => x.2.id) := by
  have ho : Ordered a'.queue := (hs.timerSteps w.within_true).invariant Ordered.step h.ordered
  cases hs with
  | skip hx hid hseen hq hm hp =>
    refine ⟨τ, ⟨?_, ho, ?_, h.returned, ?_, ?_⟩, hm, .inl ⟨rfl, by rw [hq], by simp [hx]⟩⟩
    · rw [hq, h.trace]
    · rw [hq, hm]
      exact h.maxId_lt
    · rw [hq, hm]
      exact h.deadline
    · rw [hq, hm]
      exact h.fresh
  | @inspect x hx hid hdue hseen hq hm hp =>
    refine ⟨.inspected x.2 (aeGetTime w a.queue.clockReads) :: τ, ⟨?_, ho, ?_, ?_, ?_, ?_⟩, hm,
      .inl ⟨rfl, by rw [hq]; rfl, by simp [hx]⟩⟩
    · rw [hq]
      exact congrArg (_ :: ·) h.trace
    · rw [hq, hm]
      exact h.maxId_lt
    · intro i r t hmem
      exact h.returned i r t ((List.mem_cons.mp hmem).resolve_left (by simp))
    · rw [hq, hm]
      exact h.deadline
    · rw [hq, hm]
      exact h.fresh
  | @fire x rest hx hid hdue hfire hseen hm hp =>
    obtain ⟨τ', hpassed, hids, hnodes⟩ := h.fire ho (a.mem hx) hfire hm
    exact ⟨τ', hpassed, hm, .inr ⟨x, rest, hx, hid, hdue, hids, hnodes⟩⟩

theorem passed_start {w : World} {q : TimerList} (ho : Ordered q) :
    Passed q.trace (q.startPass w) [] where
  trace := rfl
  ordered := ho.step (show TimerStep w (fun _ => True) (fun _ => True) q (q.enter w) from .enter q)
  maxId_lt := by
    show q.timeEventNextId - 1 < q.timeEventNextId
    omega
  returned := by simp
  deadline := by simp [lastReturn]
  fresh := by simp [invokedIds]

theorem Passed.callTrace_eq {σ : AeTimers} {p : Pass} {a : TimerPass} {τ : List Obs}
    (h : Passed σ.trace a τ) (himp : PassImplements p a) : callTrace σ p = τ := by
  have htrace : p.loop.trace = τ ++ σ.trace := by
    rw [himp.loop.state]
    exact h.trace
  rw [callTrace, htrace, List.length_append, Nat.add_sub_cancel, List.take_left]

theorem passed_of_run {w : World} {n : Nat} {σ : AeTimers} {q : TimerList} {p : Pass}
    (h : Implements σ q) (ho : Ordered q) (hrun : processTimeEvents w n σ = .ok p) :
    ∃ a, PassImplements p a ∧ Passed σ.trace a (callTrace σ p) := by
  obtain ⟨a, himp, hsteps⟩ := processTimeEvents_implements h hrun
  obtain ⟨τ, hpassed⟩ : ∃ τ, Passed q.trace a τ := by
    clear himp
    induction hsteps with
    | refl => exact ⟨[], passed_start ho⟩
    | tail _ hs ih =>
      obtain ⟨τ, hpassed⟩ := ih
      obtain ⟨τ', hpassed', -⟩ := hpassed.step hs
      exact ⟨τ', hpassed'⟩
  rw [show q.trace = σ.trace by rw [h.state]] at hpassed
  exact ⟨a, himp, (hpassed.callTrace_eq himp).symm ▸ hpassed⟩

def freshIds (a : TimerPass) (τ : List Obs) : Finset Int :=
  (a.queue.nodes.map fun x => x.2.id).toFinset.filter fun i => i ≤ a.maxId ∧ i ∉ invokedIds τ

theorem dueAgain_iff {w : World} {σ : AeTimers} {p : Pass} {a : TimerPass} (h : PassImplements p a)
    (hpassed : Passed σ.trace a (callTrace σ p)) :
    DueAgain w σ p ↔ ∃ x rest, a.rest = x :: rest ∧ x.2.id ≤ a.maxId ∧
      due (aeGetTime w a.queue.clockReads) x.2.when = true ∧ x.2.id ∈ invokedIds (callTrace σ p) := by
  constructor
  · rintro ⟨te, n, r, t, hte, hload, hid, hlast, hdue⟩
    obtain ⟨x, rest, hx, rfl⟩ := h.exists_rest hte
    rw [(h.load hx).2] at hload
    cases hload
    rw [h.maxId] at hid
    refine ⟨x, rest, hx, hid, ?_, hpassed.returned _ _ _ (mem_of_lastReturn hlast)⟩
    rw [hpassed.deadline x (a.mem hx) hid r t hlast, ← h.reads]
    exact hdue
  · rintro ⟨x, rest, hx, hid, hdue, hinv⟩
    obtain ⟨hte, hload⟩ := h.load hx
    cases hlast : lastReturn x.2.id (callTrace σ p) with
    | none => exact absurd hinv (hpassed.fresh x (a.mem hx) hid hlast)
    | some rt =>
      refine ⟨x.1, _, rt.1, rt.2, hte, hload, h.maxId ▸ hid, hlast, ?_⟩
      rw [← hpassed.deadline x (a.mem hx) hid rt.1 rt.2 hlast, h.reads]
      exact hdue

theorem freshIds_fire {a a' : TimerPass} {τ τ' : List Obs} {x : Nat × AeTimeEvent}
    (hx : x ∈ a.queue.nodes) (hid : x.2.id ≤ a.maxId) (hm : a'.maxId = a.maxId)
    (hnew : x.2.id ∉ invokedIds τ) (hids : invokedIds τ' = x.2.id :: invokedIds τ)
    (hnodes : ∀ y ∈ a'.queue.nodes, y.2.id ≤ a.maxId → y.2.id ∈ a.queue.nodes.map fun x => x.2.id) :
    (freshIds a' τ').card < (freshIds a τ).card := by
  refine Finset.card_lt_card (Finset.ssubset_iff_of_subset ?_ |>.mpr ⟨x.2.id, ?_, ?_⟩)
  · intro i hi
    simp only [freshIds, Finset.mem_filter, List.mem_toFinset, hm, hids, List.mem_cons, not_or] at hi ⊢
    obtain ⟨hmem, hle, -, hnot⟩ := hi
    obtain ⟨y, hy, rfl⟩ := List.mem_map.mp hmem
    exact ⟨hnodes y hy hle, hle, hnot⟩
  · simp only [freshIds, Finset.mem_filter, List.mem_toFinset]
    exact ⟨List.mem_map_of_mem hx, hid, hnew⟩
  · simp [freshIds, hids]

section OneCall

variable {w : World} {σ : AeTimers}

theorem Passed.advance (hw : w.Spares) {n : Nat} {p : Pass} {a : TimerPass}
    (hrun : processTimeEvents w n σ = .ok p) (himp : PassImplements p a)
    (h : Passed σ.trace a (callTrace σ p)) (hnot : ¬ DueAgain w σ p) {x : Nat × AeTimeEvent}
    {rest : List (Nat × AeTimeEvent)} (hx : a.rest = x :: rest) :
    ∃ p' a', processTimeEvents w (n + 1) σ = .ok p' ∧ PassImplements p' a' ∧
      Passed σ.trace a' (callTrace σ p') ∧
      ((invokedIds (callTrace σ p)).Nodup → (invokedIds (callTrace σ p')).Nodup) ∧
      ((freshIds a' (callTrace σ p')).card < (freshIds a (callTrace σ p)).card ∨
        freshIds a' (callTrace σ p') = freshIds a (callTrace σ p) ∧ a'.rest.length < a.rest.length) := by
  obtain ⟨p', a', hok, himp', hs⟩ := hw.passStep_ok himp hx
  obtain ⟨τ', hpassed, hm, hcase⟩ := h.step hs
  obtain rfl := hpassed.callTrace_eq himp'
  refine ⟨p', a', ?_, himp', hpassed, ?_⟩
  · rw [processTimeEvents_succ hrun (himp.load hx).1, hok]
  · rcases hcase with ⟨hids, hnodes, hlen⟩ | ⟨y, rest', hy, hid, hdue, hids, hnodes⟩
    · refine ⟨fun hnd => hids ▸ hnd, .inr ⟨?_, hlen⟩⟩
      rw [freshIds, freshIds, hnodes, hids, hm]
    · have hnew : y.2.id ∉ invokedIds (callTrace σ p) :=
        fun hinv => hnot ((dueAgain_iff himp h).mpr ⟨y, rest', hy, hid, hdue, hinv⟩)
      refine ⟨fun hnd => ?_, .inl (freshIds_fire (a.mem hy) hid hm hnew hids hnodes)⟩
      rw [hids]
      exact List.nodup_cons.mpr ⟨hnew, hnd⟩

theorem processTimeEvents_returns (hw : w.Spares)
    (hcond : ∀ n p, processTimeEvents w n σ = .ok p → ¬ DueAgain w σ p) (c : Nat) {n : Nat} {p : Pass}
    {a : TimerPass} (hrun : processTimeEvents w n σ = .ok p) (himp : PassImplements p a)
    (h : Passed σ.trace a (callTrace σ p)) (hcard : (freshIds a (callTrace σ p)).card = c) :
    ∃ n p', processTimeEvents w n σ = .ok p' ∧ p'.te = none := by
  induction c using Nat.strong_induction_on generalizing n p a with
  | _ c ihc =>
    obtain ⟨k, hk⟩ : ∃ k, a.rest.length = k := ⟨_, rfl⟩
    induction k using Nat.strong_induction_on generalizing n p a with
    | _ k ihk =>
      cases hr : a.rest with
      | nil => exact ⟨n, p, hrun, by rw [himp.te, hr]; rfl⟩
      | cons x rest =>
        obtain ⟨p', a', hrun', himp', h', -, hless | ⟨hsame, hlen⟩⟩ :=
          h.advance hw hrun himp (hcond n p hrun) hr
        · exact ihc _ (hcard ▸ hless) hrun' himp' h' rfl
        · exact ihk _ (hk ▸ hlen) hrun' himp' h' (hsame ▸ hcard) rfl

theorem processTimeEvents_nodup (hw : w.Spares) {q : TimerList} (h : Implements σ q) (ho : Ordered q)
    (hcond : ∀ n p, processTimeEvents w n σ = .ok p → ¬ DueAgain w σ p) {n : Nat} {p : Pass}
    (hrun : processTimeEvents w n σ = .ok p) : (invokedIds (callTrace σ p)).Nodup := by
  induction n generalizing p with
  | zero =>
    obtain ⟨p₀, hp₀, himp⟩ := enterPass_ok w h
    rw [processTimeEvents, hp₀, ok_bind] at hrun
    cases hrun
    have hstart : Passed σ.trace (q.startPass w) [] := by
      rw [show σ.trace = q.trace by rw [h.state]]
      exact passed_start ho
    rw [hstart.callTrace_eq himp]
    exact List.nodup_nil
  | succ n ih =>
    obtain ⟨p₁, hrun₁, hstay⟩ := processTimeEvents_pred hrun
    obtain ⟨a, himp, hpassed⟩ := passed_of_run h ho hrun₁
    cases hr : a.rest with
    | nil =>
      rw [hstay (by rw [himp.te, hr]; rfl)]
      exact ih hrun₁
    | cons x rest =>
      obtain ⟨p', a', hrun', -, -, hnd, -⟩ := hpassed.advance hw hrun₁ himp (hcond n p₁ hrun₁) hr
      rw [hrun] at hrun'
      cases hrun'
      exact hnd (ih hrun₁)

/-- One call runs every handler at most once and returns, exactly when no event is
due again by the time the call comes back to it. -/
theorem processTimeEvents_once_iff (hw : w.Spares) {q : TimerList} (h : Implements σ q)
    (ho : Ordered q) :
    ((∀ n p, processTimeEvents w n σ = .ok p → (invokedIds (callTrace σ p)).Nodup) ∧
        ∃ n p, processTimeEvents w n σ = .ok p ∧ p.te = none) ↔
      ∀ n p, processTimeEvents w n σ = .ok p → ¬ DueAgain w σ p := by
  constructor
  · rintro ⟨honce, -⟩ n p hrun hagain
    obtain ⟨a, himp, hpassed⟩ := passed_of_run h ho hrun
    obtain ⟨x, rest, hx, hid, hdue, hinv⟩ := (dueAgain_iff himp hpassed).mp hagain
    obtain ⟨p', a', hok, himp', hs⟩ := hw.passStep_ok himp hx
    obtain ⟨hfire, hm⟩ := hs.fires hx hid hdue
    have ho' : Ordered a'.queue := (hs.timerSteps w.within_true).invariant Ordered.step hpassed.ordered
    obtain ⟨τ', hpassed', hids, -⟩ := hpassed.fire ho' (a.mem hx) hfire hm
    have hnd := honce (n + 1) p' (by rw [processTimeEvents_succ hrun (himp.load hx).1, hok])
    rw [hpassed'.callTrace_eq himp', hids] at hnd
    exact (List.nodup_cons.mp hnd).1 hinv
  · intro hcond
    refine ⟨fun n p hrun => processTimeEvents_nodup hw h ho hcond hrun, ?_⟩
    obtain ⟨p, hp, -⟩ := enterPass_ok w h
    have hrun : processTimeEvents w 0 σ = .ok p := by
      rw [processTimeEvents, hp]
      rfl
    obtain ⟨a, himp, hpassed⟩ := passed_of_run h ho hrun
    exact processTimeEvents_returns hw hcond _ hrun himp hpassed rfl

end OneCall

theorem passWorld_not_dueAgain {n : Nat} {p : Pass}
    (hrun : processTimeEvents passWorld n passLoopStart = .ok p) :
    ¬ DueAgain passWorld passLoopStart p := by
  rintro ⟨te, m, r, t, hte, hload, hid, hlast, hdue⟩
  match n with
  | 0 =>
    have hcode : processTimeEvents passWorld 0 passLoopStart = .ok _ := rfl
    rw [hcode] at hrun
    cases hrun
    cases hlast
  | 1 =>
    have hcode : processTimeEvents passWorld 1 passLoopStart = .ok _ := rfl
    rw [hcode] at hrun
    cases hrun
    cases hte
    cases hload
    exact absurd hid (by decide)
  | 2 =>
    have hcode : processTimeEvents passWorld 2 passLoopStart = .ok _ := rfl
    rw [hcode] at hrun
    cases hrun
    cases hte
    cases hload
    cases hlast
    exact absurd hdue (by decide)
  | k + 3 =>
    obtain ⟨p₃, hcode, hret⟩ : ∃ p₃, processTimeEvents passWorld 3 passLoopStart = .ok p₃ ∧
        p₃.te = none := ⟨_, rfl, rfl⟩
    rw [Nat.add_comm, processTimeEvents_returned hcode hret k] at hrun
    cases hrun
    rw [hret] at hte
    cases hte

theorem passWorld_once :
    (∀ n p, processTimeEvents passWorld n passLoopStart = .ok p →
        (invokedIds (callTrace passLoopStart p)).Nodup) ∧
      ∃ n p, processTimeEvents passWorld n passLoopStart = .ok p ∧ p.te = none := by
  have hspares : passWorld.Spares := fun _ _ _ _ h => h
  obtain ⟨q, hord, himp⟩ := oneTimer_implements passWorld 0 1 0 0
  exact (processTimeEvents_once_iff hspares himp hord).mpr
    fun n p hrun => passWorld_not_dueAgain hrun

def zeroWorld : World where
  time _ := 0
  gettimeofday _ := .ofMs 0
  timeProc _ _ _ _ := { script := .done, retval := 0, finalizer := .done }

def zeroLoop : AeTimers := (aeCreateTimeEvent zeroWorld (initTimers zeroWorld) 0 1 0 0).2

theorem runs_handler_twice :
    ¬ ∀ (w : World) (σ : AeTimers) (q : TimerList),
      (∀ n proc id data i, ¬ (w.timeProc n proc id data).script.Target i) → Implements σ q →
      Ordered q →
      (∀ n p, processTimeEvents w n σ = .ok p → (invokedIds (callTrace σ p)).Nodup) ∧
        ∃ n p, processTimeEvents w n σ = .ok p ∧ p.te = none := by
  intro hall
  obtain ⟨q, hord, himp⟩ := oneTimer_implements zeroWorld 0 1 0 0
  obtain ⟨honce, -⟩ := hall zeroWorld zeroLoop q (fun _ _ _ _ _ h => h) himp hord
  have hrun : processTimeEvents zeroWorld 2 zeroLoop = .ok _ := rfl
  exact absurd (honce 2 _ hrun) (by decide)

end CPractice
