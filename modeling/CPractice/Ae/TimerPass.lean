import CPractice.Ae.TimerList

/-! One iteration of `processTimeEvents` over the list of nodes: what the walk
has passed, what it has still to visit, and what a due event does to the list. -/

namespace CPractice

open CMem Relation

def AeTimeEvent.moveTo (te : AeTimeEvent) (when : Time) : AeTimeEvent :=
  { te with when_sec := when.sec, when_ms := when.ms }

def resetNode (x : Nat × AeTimeEvent) : Nat × AeTimeEvent := (x.1, { x.2 with when_sec := 0 })

def TimerList.enter (q : TimerList) (w : World) : TimerList :=
  { q with
    timeReads := q.timeReads + 1
    lastTime := w.time q.timeReads
    nodes := if w.time q.timeReads < q.lastTime then q.nodes.map resetNode else q.nodes }

theorem TimerList.enter_map (q : TimerList) (w : World) {β : Type} {f : Nat × AeTimeEvent → β}
    (hf : ∀ x, f (resetNode x) = f x) : (q.enter w).nodes.map f = q.nodes.map f := by
  by_cases hskew : w.time q.timeReads < q.lastTime
  · rw [show (q.enter w).nodes = q.nodes.map resetNode from if_pos hskew, List.map_map]
    exact List.map_congr_left fun x _ => hf x
  · rw [show (q.enter w).nodes = q.nodes from if_neg hskew]

def TimerList.inspect (q : TimerList) (w : World) (te : AeTimeEvent) : TimerList :=
  { q with
    clockReads := q.clockReads + 1
    trace := .inspected te (aeGetTime w q.clockReads) :: q.trace }

def TimerList.invoke (q : TimerList) (w : World) (te : AeTimeEvent) : TimerList :=
  { q with
    clockReads := q.clockReads + 1
    calls := q.calls + 1
    trace := .invoked te (aeGetTime w q.clockReads) :: q.trace }

def TimerList.callback (q : TimerList) (w : World) (te : AeTimeEvent) : Callback :=
  w.timeProc q.calls te.timeProc te.id te.clientData

def TimerList.reschedule (q : TimerList) (w : World) (pre : List (Nat × AeTimeEvent))
    (x : Nat × AeTimeEvent) (post : List (Nat × AeTimeEvent)) (retval : Int) : TimerList :=
  let now := aeGetTime w q.clockReads
  { q with
    nodes := pre ++ (x.1, x.2.moveTo (addMilliseconds now retval)) :: post
    clockReads := q.clockReads + 1
    trace := .rescheduled x.2.id retval now :: q.trace }

theorem TimerList.reschedule_map (q : TimerList) (w : World) {pre post : List (Nat × AeTimeEvent)}
    {x : Nat × AeTimeEvent} (hq : q.nodes = pre ++ x :: post) {r : Int} {β : Type}
    {f : Nat × AeTimeEvent → β} (hf : ∀ y when, f (y.1, AeTimeEvent.moveTo y.2 when) = f y) :
    (q.reschedule w pre x post r).nodes.map f = q.nodes.map f := by
  rw [hq]
  simp [TimerList.reschedule, hf]

inductive Fire (w : World) (q : TimerList) (x : Nat × AeTimeEvent) : TimerList → Prop
  | again {q₁ : TimerList} {pre post : List (Nat × AeTimeEvent)}
      (hr : (q.callback w x.2).retval ≠ AE_NOMORE)
      (hscript : Edits w (q.callback w x.2).script.Delay (q.callback w x.2).script.Target
        (q.invoke w x.2) q₁)
      (hq : q₁.nodes = pre ++ x :: post) :
      Fire w q x (q₁.reschedule w pre x post (q.callback w x.2).retval)
  | stop {q₁ q₂ q₃ : TimerList} (hr : (q.callback w x.2).retval = AE_NOMORE)
      (hscript : Edits w (q.callback w x.2).script.Delay (q.callback w x.2).script.Target
        (q.invoke w x.2) q₁)
      (hdel : Edit w (fun _ => False) (· = x.2.id) q₁ q₂)
      (hfin : Edits w (q.callback w x.2).finalizer.Delay (q.callback w x.2).finalizer.Target q₂ q₃) :
      Fire w q x q₃

theorem Edits.stop {w : World} {d d' t t' : Int → Prop} {q q₁ q₂ q₃ : TimerList} {id : Int}
    (hscript : Edits w d t q q₁) (hdel : Edit w (fun _ => False) (· = id) q₁ q₂)
    (hfin : Edits w d' t' q₂ q₃) : Edits w (fun _ => True) (fun _ => True) q q₃ := by
  have hany : ∀ {p : Int → Prop} (i : Int), p i → True := fun _ _ => trivial
  exact (hscript.mono hany hany).trans (.head (hdel.mono hany hany) (hfin.mono hany hany))

structure TimerPass where
  queue : TimerList
  seen : List (Nat × AeTimeEvent)
  rest : List (Nat × AeTimeEvent)
  maxId : Int
  processed : Nat
  nodes_eq : queue.nodes = seen ++ rest

theorem TimerPass.mem (a : TimerPass) {x : Nat × AeTimeEvent} {rest : List (Nat × AeTimeEvent)}
    (hx : a.rest = x :: rest) : x ∈ a.queue.nodes := by
  rw [a.nodes_eq, hx]
  simp

inductive PassStep (w : World) : TimerPass → TimerPass → Prop
  | skip {a a' : TimerPass} {x : Nat × AeTimeEvent} (hx : a.rest = x :: a'.rest)
      (hid : x.2.id > a.maxId) (hseen : a'.seen = a.seen ++ [x]) (hq : a'.queue = a.queue)
      (hm : a'.maxId = a.maxId) (hp : a'.processed = a.processed) : PassStep w a a'
  | inspect {a a' : TimerPass} {x : Nat × AeTimeEvent} (hx : a.rest = x :: a'.rest)
      (hid : x.2.id ≤ a.maxId) (hdue : due (aeGetTime w a.queue.clockReads) x.2.when = false)
      (hseen : a'.seen = a.seen ++ [x]) (hq : a'.queue = a.queue.inspect w x.2)
      (hm : a'.maxId = a.maxId) (hp : a'.processed = a.processed) : PassStep w a a'
  | fire {a a' : TimerPass} {x : Nat × AeTimeEvent} {rest : List (Nat × AeTimeEvent)}
      (hx : a.rest = x :: rest) (hid : x.2.id ≤ a.maxId)
      (hdue : due (aeGetTime w a.queue.clockReads) x.2.when = true)
      (hfire : Fire w a.queue x a'.queue) (hseen : a'.seen = [])
      (hm : a'.maxId = a.maxId) (hp : a'.processed = a.processed + 1) : PassStep w a a'

theorem PassStep.fires {w : World} {a a' : TimerPass} (h : PassStep w a a') {x : Nat × AeTimeEvent}
    {rest : List (Nat × AeTimeEvent)} (hx : a.rest = x :: rest) (hid : x.2.id ≤ a.maxId)
    (hdue : due (aeGetTime w a.queue.clockReads) x.2.when = true) :
    Fire w a.queue x a'.queue ∧ a'.maxId = a.maxId := by
  cases h with
  | skip hy hgt =>
    cases hx.symm.trans hy
    exact absurd hgt (Int.not_lt.mpr hid)
  | inspect hy _ hnot =>
    cases hx.symm.trans hy
    simp [hdue] at hnot
  | fire hy _ _ hfire _ hm =>
    cases hx.symm.trans hy
    exact ⟨hfire, hm⟩

structure PassImplements (p : Pass) (a : TimerPass) : Prop where
  loop : Implements p.loop a.queue
  te : p.te = a.rest.head?.map Prod.fst
  maxId : p.maxId = a.maxId
  processed : p.processed = a.processed

theorem resetWhen_ok {h : NodeHeap AeTimeEvent} {p : Option Nat} {l : List (Nat × AeTimeEvent)}
    (hc : Chain h p l) {fuel : Nat} (hf : l.length ≤ fuel) :
    ∃ h', resetWhen h fuel p = .ok h' ∧ Chain h' p (l.map resetNode) ∧
      ∀ a, a ∉ l.map Prod.fst → h'.cell a = h.cell a := by
  induction l generalizing p fuel h with
  | nil =>
    obtain rfl : p = none := hc
    refine ⟨h, ?_, rfl, fun _ _ => rfl⟩
    cases fuel <;> rfl
  | cons x l ih =>
    obtain ⟨a, v⟩ := x
    obtain ⟨-, hnl⟩ := Chain.notMem_of_append (show Chain h p ([] ++ (a, v) :: l) from hc)
    obtain ⟨rfl, next, ha, hl⟩ := hc
    obtain ⟨fuel, rfl⟩ : ∃ n, fuel = n + 1 := ⟨fuel - 1, by simp at hf; omega⟩
    let h₁ := h.set a (NodeHeap.lt_brk ha) (some ⟨{ v with when_sec := 0 }, next⟩)
    have hl₁ : Chain h₁ next l :=
      hl.congr fun b hb => NodeHeap.set_cell_of_ne _ _ fun he => hnl (he ▸ hb)
    have hf' : l.length ≤ fuel := by simpa using hf
    obtain ⟨h', hrun, hc', hout⟩ := ih hl₁ hf'
    refine ⟨h', ?_, ⟨rfl, next, ?_, hc'⟩, fun b hb => ?_⟩
    · rw [resetWhen, NodeHeap.load_ok ha, ok_bind, NodeHeap.store_ok ha, ok_bind]
      exact hrun
    · rw [hout a hnl]
      exact NodeHeap.set_cell_self _ _
    · have hb' := not_or.mp (fun hm => hb (List.mem_cons.mpr hm))
      rw [hout b hb'.2]
      exact NodeHeap.set_cell_of_ne _ _ hb'.1

def TimerList.startPass (q : TimerList) (w : World) : TimerPass :=
  { queue := q.enter w, seen := [], rest := (q.enter w).nodes
    maxId := q.timeEventNextId - 1, processed := 0, nodes_eq := rfl }

theorem enterPass_ok (w : World) {σ : AeTimers} {q : TimerList} (h : Implements σ q) :
    ∃ p, enterPass w σ = .ok p ∧ PassImplements p (q.startPass w) := by
  obtain ⟨s, l⟩ := q
  obtain ⟨rfl, hc⟩ := h
  let q : TimerList := ⟨σ.toTimerState, l⟩
  obtain ⟨h', hrun, hc'⟩ : ∃ h', (if w.time σ.timeReads < σ.lastTime then
      resetWhen σ.heap σ.heap.brk σ.timeEventHead else .ok σ.heap) = .ok h' ∧
      Chain h' σ.timeEventHead (q.enter w).nodes := by
    by_cases hskew : w.time σ.timeReads < σ.lastTime
    · obtain ⟨h', hrun, hc', -⟩ := resetWhen_ok hc (Chain.length_le_brk hc)
      refine ⟨h', by rw [if_pos hskew, hrun], ?_⟩
      rw [show (q.enter w).nodes = l.map resetNode from if_pos hskew]
      exact hc'
    · refine ⟨σ.heap, if_neg hskew, ?_⟩
      rw [show (q.enter w).nodes = l from if_neg hskew]
      exact hc
  let σ' : AeTimers := { σ with
    timeReads := σ.timeReads + 1, lastTime := w.time σ.timeReads, heap := h' }
  refine ⟨{ loop := σ', te := σ.timeEventHead, maxId := σ.timeEventNextId - 1, processed := 0 }, ?_,
    ⟨rfl, hc'⟩, Chain.head_eq hc', rfl, rfl⟩
  rw [enterPass, hrun, ok_bind]
  rfl

theorem reschedule_ok (w : World) {σ : AeTimers} {q : TimerList} {pre post : List (Nat × AeTimeEvent)}
    {x : Nat × AeTimeEvent} (h : Implements σ q) (hq : q.nodes = pre ++ x :: post) (retval : Int) :
    ∃ σ', reschedule w σ x.1 x.2.id retval = .ok σ' ∧
      Implements σ' (q.reschedule w pre x post retval) := by
  obtain ⟨s, l⟩ := q
  obtain ⟨a, v⟩ := x
  obtain ⟨rfl, hc⟩ := h
  rw [hq] at hc
  obtain ⟨next, hcell⟩ := hc.cell_of_mem (a := a) (v := v) (by simp)
  let when := addMilliseconds (aeGetTime w σ.clockReads) retval
  let σ' : AeTimers := { σ with
    heap := σ.heap.set a (NodeHeap.lt_brk hcell) (some ⟨v.moveTo when, next⟩)
    clockReads := σ.clockReads + 1
    trace := .rescheduled v.id retval (aeGetTime w σ.clockReads) :: σ.trace }
  refine ⟨σ', ?_, rfl, Chain.setVal hc hcell (v.moveTo when)⟩
  rw [reschedule, NodeHeap.load_ok hcell, ok_bind, NodeHeap.store_ok hcell, ok_bind]
  rfl

theorem reschedule_dead (w : World) {σ : AeTimers} {te : Nat} (hd : σ.heap.cell te = none)
    (id retval : Int) : reschedule w σ te id retval = .error .useAfterFree := by
  rw [reschedule, NodeHeap.load_dead hd]
  rfl

structure SelfRemoval (w : World) (σ : AeTimers) (q : TimerList) (x : Nat × AeTimeEvent)
    (σ₁ : AeTimers) (q₁ : TimerList) : Prop where
  again : (q.callback w x.2).retval ≠ AE_NOMORE
  run : runScript w (q.callback w x.2).script σ = .ok σ₁
  edits : EditsTo w (q.callback w x.2).script.Delay (q.callback w x.2).script.Target σ
    (q.invoke w x.2) σ₁ q₁
  gone : x.1 ∉ q₁.nodes.map Prod.fst

def AeTimers.invoking (σ : AeTimers) (w : World) (ev : AeTimeEvent) : AeTimers :=
  { σ with clockReads := σ.clockReads + 1, calls := σ.calls + 1 }.observe
    (.invoked ev (aeGetTime w σ.clockReads))

theorem Implements.invoking {σ : AeTimers} {q : TimerList} (h : Implements σ q) (w : World)
    (ev : AeTimeEvent) : Implements (σ.invoking w ev) (q.invoke w ev) := by
  obtain ⟨s, l⟩ := q
  obtain ⟨rfl, hc⟩ := h
  exact ⟨rfl, hc⟩

theorem fire_eq {w : World} {σ σ₁ : AeTimers} {q : TimerList} (h : Implements σ q)
    (x : Nat × AeTimeEvent)
    (hrun : runScript w (q.callback w x.2).script (σ.invoking w x.2) = .ok σ₁) :
    fire w { σ with clockReads := σ.clockReads + 1 } x.1 x.2 (aeGetTime w σ.clockReads) =
      (if (q.callback w x.2).retval ≠ AE_NOMORE then
        reschedule w σ₁ x.1 x.2.id (q.callback w x.2).retval
      else do
        let r ← aeDeleteTimeEvent (runScript w (q.callback w x.2).finalizer) σ₁ x.2.id
        return r.2) := by
  have hcb : w.timeProc σ.calls x.2.timeProc x.2.id x.2.clientData = q.callback w x.2 := by
    rw [TimerList.callback, ← h.state]
  rw [AeTimers.invoking] at hrun
  rw [fire]
  simp only [hcb]
  rw [hrun, ok_bind]

theorem fire_cases (w : World) {σ : AeTimers} {q : TimerList} {x : Nat × AeTimeEvent}
    (h : Implements σ q) (hx : x ∈ q.nodes) :
    (∃ σ' q', fire w { σ with clockReads := σ.clockReads + 1 } x.1 x.2 (aeGetTime w σ.clockReads) =
        .ok σ' ∧ Implements σ' q' ∧ Fire w q x q') ∨
      (fire w { σ with clockReads := σ.clockReads + 1 } x.1 x.2 (aeGetTime w σ.clockReads) =
        .error .useAfterFree ∧ ∃ σ₁ q₁, SelfRemoval w (σ.invoking w x.2) q x σ₁ q₁) := by
  have hinv := h.invoking w x.2
  obtain ⟨σ₁, q₁, hrun, hto⟩ := runScript_editsTo w (q.callback w x.2).script hinv
  have hfire := fire_eq h x hrun
  by_cases hr : (q.callback w x.2).retval ≠ AE_NOMORE
  · rw [hfire, if_pos hr]
    by_cases hm : x.1 ∈ q₁.nodes.map Prod.fst
    · obtain ⟨y, hy, hyx⟩ := List.mem_map.mp hm
      have hlt : x.1 < σ.heap.brk := by
        obtain ⟨next, hcell⟩ := h.chain.cell_of_mem hx
        exact NodeHeap.lt_brk hcell
      have hyold := hto.frame.kept y hy (hyx ▸ hlt)
      obtain rfl : y = x :=
        List.inj_on_of_nodup_map (Chain.nodup h.chain) hyold hx hyx
      obtain ⟨pre, post, hq⟩ := List.append_of_mem hy
      obtain ⟨σ', hok, himp⟩ := reschedule_ok w hto.implements hq (q.callback w y.2).retval
      exact .inl ⟨σ', _, hok, himp, .again hr hto.edits hq⟩
    · have hlt : x.1 < σ.heap.brk := by
        obtain ⟨next, hcell⟩ := h.chain.cell_of_mem hx
        exact NodeHeap.lt_brk hcell
      have hdead := hto.frame.removed x.1 hlt (List.mem_map_of_mem hx) hm
      exact .inr ⟨reschedule_dead w hdead _ _, σ₁, q₁, hr, hrun, hto, hm⟩
  · rw [hfire, if_neg hr]
    obtain ⟨rc, σ', q₂, q₃, hdel, -, hedit, hedits, himp, -⟩ := aeDeleteTimeEvent_editsTo
      (fun h => runScript_editsTo w (q.callback w x.2).finalizer h) hto.implements x.2.id
    refine .inl ⟨σ', q₃, ?_, himp, .stop (not_not.mp hr) hto.edits hedit hedits⟩
    rw [hdel]
    rfl

/-- Every iteration is a step over the list, or it writes to the node that its own
handler has removed. -/
theorem passStep_cases (w : World) {p : Pass} {a : TimerPass} (h : PassImplements p a)
    {x : Nat × AeTimeEvent} {rest : List (Nat × AeTimeEvent)} (hx : a.rest = x :: rest) :
    (∃ p' a', passStep w p x.1 = .ok p' ∧ PassImplements p' a' ∧ PassStep w a a') ∨
      (passStep w p x.1 = .error .useAfterFree ∧ x.2.id ≤ a.maxId ∧
        due (aeGetTime w a.queue.clockReads) x.2.when = true ∧
        ∃ σ₁ q₁, SelfRemoval w (p.loop.invoking w x.2) a.queue x σ₁ q₁) := by
  have hnodes : a.queue.nodes = a.seen ++ x :: rest := by rw [a.nodes_eq, hx]
  have hcell := Chain.cell_eq (hnodes ▸ h.loop.chain)
  have hreads : p.loop.clockReads = a.queue.clockReads := by rw [h.loop.state]
  rw [passStep, NodeHeap.load_ok hcell, ok_bind]
  by_cases hid : x.2.id > p.maxId
  · left
    refine ⟨{ p with te := rest.head?.map Prod.fst },
      { a with seen := a.seen ++ [x], rest, nodes_eq := by simpa using hnodes },
      if_pos hid, ⟨h.loop, rfl, h.maxId, h.processed⟩, ?_⟩
    exact .skip hx (h.maxId ▸ hid) rfl rfl rfl rfl
  · have hle : x.2.id ≤ a.maxId := by
      rw [← h.maxId]
      omega
    rw [if_neg hid]
    by_cases hdue : due (aeGetTime w p.loop.clockReads) x.2.when = true
    · have hdue' := hdue
      rw [hreads] at hdue'
      rw [if_pos hdue]
      rcases fire_cases w h.loop (x := x) (by simp [hnodes]) with
        ⟨σ', q', hfire, himp, hstep⟩ | ⟨hfire, hself⟩
      · left
        refine ⟨{ p with loop := σ', te := σ'.timeEventHead, processed := p.processed + 1 },
          { a with queue := q', seen := [], rest := q'.nodes, processed := a.processed + 1, nodes_eq := rfl },
          ?_, ⟨himp, Chain.head_eq himp.chain, h.maxId, by simp [h.processed]⟩, ?_⟩
        · rw [hfire]
          rfl
        · exact .fire hx hle hdue' hstep rfl rfl rfl
      · right
        refine ⟨?_, hle, hdue', hself⟩
        rw [hfire]
        rfl
    · left
      rw [if_neg hdue]
      rw [hreads, Bool.not_eq_true] at hdue
      have himp : Implements ({ p.loop with clockReads := p.loop.clockReads + 1 }.observe
          (.inspected x.2 (aeGetTime w p.loop.clockReads))) (a.queue.inspect w x.2) := by
        refine ⟨?_, h.loop.chain⟩
        rw [TimerList.inspect, ← hreads, ← h.loop.state]
        rfl
      have hnodes' : (a.queue.inspect w x.2).nodes = a.seen ++ [x] ++ rest := by
        rw [List.append_assoc]
        exact hnodes
      refine ⟨_, { a with queue := a.queue.inspect w x.2, seen := a.seen ++ [x], rest, nodes_eq := hnodes' },
        rfl, ⟨himp, rfl, h.maxId, h.processed⟩, ?_⟩
      exact .inspect hx hle hdue rfl rfl rfl rfl

theorem passLoop_succ (w : World) (n : Nat) (p : Pass) :
    passLoop w (n + 1) p = (do
      let p ← passLoop w n p
      match p.te with
      | none => .ok p
      | some te => passStep w p te) := by
  induction n generalizing p with
  | zero =>
    cases hte : p.te with
    | none => simp only [passLoop, hte, ok_bind]
    | some te =>
      simp only [passLoop, hte, ok_bind]
      cases passStep w p te <;> rfl
  | succ n ih =>
    rw [passLoop]
    cases hte : p.te with
    | none => simp only [passLoop, hte, ok_bind]
    | some te =>
      rw [passLoop]
      simp only [hte]
      cases passStep w p te with
      | error e => rfl
      | ok p' => exact ih p'

theorem processTimeEvents_succ {w : World} {n : Nat} {σ : AeTimers} {p : Pass} {te : Nat}
    (hrun : processTimeEvents w n σ = .ok p) (hte : p.te = some te) :
    processTimeEvents w (n + 1) σ = passStep w p te := by
  rw [processTimeEvents] at hrun ⊢
  obtain ⟨p₀, hp₀, hloop⟩ := bind_eq_ok.mp hrun
  rw [hp₀, ok_bind, passLoop_succ, hloop, ok_bind]
  simp only [hte]

theorem processTimeEvents_returned {w : World} {n : Nat} {σ : AeTimers} {p : Pass}
    (hrun : processTimeEvents w n σ = .ok p) (hte : p.te = none) (k : Nat) :
    processTimeEvents w (n + k) σ = .ok p := by
  rw [processTimeEvents] at hrun ⊢
  obtain ⟨p₀, hp₀, hloop⟩ := bind_eq_ok.mp hrun
  rw [hp₀, ok_bind]
  induction k with
  | zero => exact hloop
  | succ k ih =>
    rw [← Nat.add_assoc, passLoop_succ, ih, ok_bind]
    simp only [hte]

theorem processTimeEvents_pred {w : World} {n : Nat} {σ : AeTimers} {p : Pass}
    (hrun : processTimeEvents w (n + 1) σ = .ok p) :
    ∃ p₁, processTimeEvents w n σ = .ok p₁ ∧ (p₁.te = none → p = p₁) := by
  rw [processTimeEvents] at hrun
  obtain ⟨p₀, hp₀, hloop⟩ := bind_eq_ok.mp hrun
  rw [passLoop_succ] at hloop
  obtain ⟨p₁, hp₁, hlast⟩ := bind_eq_ok.mp hloop
  refine ⟨p₁, ?_, fun hte => ?_⟩
  · rw [processTimeEvents, hp₀, ok_bind, hp₁]
  · simp only [hte] at hlast
    cases hlast
    rfl

theorem passLoop_implements {w : World} {n : Nat} {p p' : Pass} {a : TimerPass}
    (h : PassImplements p a) (hrun : passLoop w n p = .ok p') :
    ∃ a', PassImplements p' a' ∧ ReflTransGen (PassStep w) a a' := by
  induction n generalizing p a with
  | zero =>
    cases hrun
    exact ⟨a, h, .refl⟩
  | succ n ih =>
    cases hr : a.rest with
    | nil =>
      have hte : p.te = none := by rw [h.te, hr]; rfl
      simp only [passLoop, hte] at hrun
      cases hrun
      exact ⟨a, h, .refl⟩
    | cons x rest =>
      have hte : p.te = some x.1 := by rw [h.te, hr]; rfl
      simp only [passLoop, hte] at hrun
      obtain ⟨p₁, hstep, hrun⟩ := bind_eq_ok.mp hrun
      rcases passStep_cases w h hr with ⟨p₂, a₂, hok, himp, hs⟩ | ⟨herr, -⟩
      · rw [hstep] at hok
        cases hok
        obtain ⟨a', himp', hsteps⟩ := ih himp hrun
        exact ⟨a', himp', hsteps.head hs⟩
      · rw [hstep] at herr
        cases herr

theorem processTimeEvents_implements {w : World} {n : Nat} {σ : AeTimers} {q : TimerList} {p : Pass}
    (h : Implements σ q) (hrun : processTimeEvents w n σ = .ok p) :
    ∃ a, PassImplements p a ∧ ReflTransGen (PassStep w) (q.startPass w) a := by
  obtain ⟨p₀, hp₀, himp⟩ := enterPass_ok w h
  rw [processTimeEvents, hp₀, ok_bind] at hrun
  exact passLoop_implements himp hrun

end CPractice
