import CPractice.Ae.TimerPass

/-! Runs of the loop: any sequence of creations, deletions and calls of
`processTimeEvents`, stopped after any iteration. The list changes only by the
steps of `TimerStep`, so what these preserve holds throughout every run. -/

namespace CPractice

open CMem Relation

/-- `process` starts a call of `processTimeEvents` and `iterate` runs one iteration
of the call in progress. The other operations wait for that call to return. -/
inductive TimerOp where
  | create (milliseconds : Int) (proc clientData finalizerProc : Ptr)
  | delete (id : Int) (finalizer : Script)
  | process
  | iterate

def timerOp (w : World) (p : Pass) (op : TimerOp) : Except Fault Pass :=
  match p.te, op with
  | none, .create milliseconds proc clientData finalizerProc =>
    .ok { p with loop := (aeCreateTimeEvent w p.loop milliseconds proc clientData finalizerProc).2 }
  | none, .delete id finalizer => do
    let r ← aeDeleteTimeEvent (runScript w finalizer) p.loop id
    return { p with loop := r.2 }
  | none, .process => enterPass w p.loop
  | some te, .iterate => passStep w p te
  | _, _ => .ok p

def runOps (w : World) : List TimerOp → Pass → Except Fault Pass
  | [], p => .ok p
  | op :: ops, p => do runOps w ops (← timerOp w p op)

def idle (σ : AeTimers) : Pass := { loop := σ, te := none, maxId := -1, processed := 0 }

def startRun (w : World) : Pass := idle (initTimers w)

theorem runOps_append (w : World) (ops ops' : List TimerOp) (p : Pass) :
    runOps w (ops ++ ops') p = (do runOps w ops' (← runOps w ops p)) := by
  induction ops generalizing p with
  | nil => rfl
  | cons op ops ih =>
    simp only [List.cons_append, runOps]
    cases timerOp w p op with
    | error e => rfl
    | ok p' => exact ih p'

theorem timerOp_iterate (w : World) {p : Pass} {te : Nat} (hp : p.te = some te) :
    timerOp w p .iterate = passStep w p te := by
  simp only [timerOp, hp]

theorem timerOp_process (w : World) {p : Pass} (hp : p.te = none) :
    timerOp w p .process = enterPass w p.loop := by
  simp only [timerOp, hp]

theorem passLoop_returned (w : World) (n : Nat) {p : Pass} (hp : p.te = none) :
    passLoop w n p = .ok p := by
  cases n with
  | zero => rfl
  | succ n => simp only [passLoop, hp]

theorem runOps_iterate (w : World) (n : Nat) (p : Pass) :
    runOps w (List.replicate n .iterate) p = passLoop w n p := by
  induction n generalizing p with
  | zero => rfl
  | succ n ih =>
    rw [List.replicate_succ, runOps]
    cases hte : p.te with
    | none =>
      have hstay : timerOp w p .iterate = .ok p := by simp only [timerOp, hte]
      rw [hstay, ok_bind, ih, passLoop_returned w n hte, passLoop_returned w (n + 1) hte]
    | some te =>
      simp only [timerOp_iterate w hte, passLoop, hte, ih]

theorem runOps_process (w : World) (n : Nat) {p : Pass} (hp : p.te = none) :
    runOps w (.process :: List.replicate n .iterate) p = processTimeEvents w n p.loop := by
  rw [runOps, timerOp_process w hp, processTimeEvents]
  simp only [runOps_iterate]

/-- One change of the list, with the delays of creations in `delay` and the return
values of the handlers that go on in `retval`. -/
inductive TimerStep (w : World) (delay retval : Int → Prop) : TimerList → TimerList → Prop
  | edit {q q' : TimerList} (h : Edit w delay (fun _ => True) q q') : TimerStep w delay retval q q'
  | enter (q : TimerList) : TimerStep w delay retval q (q.enter w)
  | inspect {q : TimerList} {x : Nat × AeTimeEvent} (hx : x ∈ q.nodes)
      (hdue : due (aeGetTime w q.clockReads) x.2.when = false) :
      TimerStep w delay retval q (q.inspect w x.2)
  | invoke {q : TimerList} {x : Nat × AeTimeEvent} (hx : x ∈ q.nodes)
      (hdue : due (aeGetTime w q.clockReads) x.2.when = true) :
      TimerStep w delay retval q (q.invoke w x.2)
  | reschedule {q : TimerList} {pre post : List (Nat × AeTimeEvent)} {x : Nat × AeTimeEvent} {r : Int}
      (hq : q.nodes = pre ++ x :: post) (hr : retval r)
      (hdue : ∃ k < q.clockReads, due (aeGetTime w k) x.2.when = true) :
      TimerStep w delay retval q (q.reschedule w pre x post r)

abbrev TimerSteps (w : World) (delay retval : Int → Prop) : TimerList → TimerList → Prop :=
  ReflTransGen (TimerStep w delay retval)

theorem TimerSteps.invariant {w : World} {d r : Int → Prop} {I : TimerList → Prop}
    (hstep : ∀ {q q'}, TimerStep w d r q q' → I q → I q') {q q' : TimerList}
    (h : TimerSteps w d r q q') (hq : I q) : I q' := by
  induction h with
  | refl => exact hq
  | tail _ hs ih => exact hstep hs ih

theorem Edits.clockReads_le {w : World} {d t : Int → Prop} {q q' : TimerList} (h : Edits w d t q q') :
    q.clockReads ≤ q'.clockReads := by
  induction h with
  | refl => exact Nat.le_refl _
  | tail _ he ih =>
    cases he with
    | create a proc clientData finalizerProc hd => exact Nat.le_succ_of_le ih
    | absent ht hn => exact ih
    | remove ht hq hpre => exact ih

theorem Edits.timerSteps {w : World} {d r t : Int → Prop} {q q' : TimerList} (h : Edits w d t q q') :
    TimerSteps w d r q q' := by
  induction h with
  | refl => exact .refl
  | tail _ he ih => exact ih.tail (.edit (he.mono (fun _ => id) fun _ _ => trivial))

structure World.Within (w : World) (delay retval : Int → Prop) : Prop where
  script : ∀ n proc id data i, (w.timeProc n proc id data).script.Delay i → delay i
  finalizer : ∀ n proc id data i, (w.timeProc n proc id data).finalizer.Delay i → delay i
  retval : ∀ n proc id data, (w.timeProc n proc id data).retval ≠ AE_NOMORE →
    retval (w.timeProc n proc id data).retval

theorem World.within_true (w : World) : w.Within (fun _ => True) fun _ => True :=
  ⟨fun _ _ _ _ _ _ => trivial, fun _ _ _ _ _ _ => trivial, fun _ _ _ _ _ => trivial⟩

theorem Fire.timerSteps {w : World} {d r : Int → Prop} (hw : w.Within d r) {q q' : TimerList}
    {x : Nat × AeTimeEvent} (hx : x ∈ q.nodes)
    (hdue : due (aeGetTime w q.clockReads) x.2.when = true) (h : Fire w q x q') :
    TimerSteps w d r q q' := by
  have hinvoke : TimerSteps w d r q (q.invoke w x.2) := .single (.invoke hx hdue)
  cases h with
  | again hr hscript hq =>
    have h₁ := (hscript.mono (hw.script _ _ _ _) fun _ => id).timerSteps (r := r)
    have hreads : q.clockReads + 1 ≤ _ := hscript.clockReads_le
    exact (hinvoke.trans h₁).tail (.reschedule hq (hw.retval _ _ _ _ hr) ⟨_, hreads, hdue⟩)
  | stop hr hscript hdel hfin =>
    have h₁ := (hscript.mono (hw.script _ _ _ _) fun _ => id).timerSteps (r := r)
    have h₂ := (hfin.mono (hw.finalizer _ _ _ _) fun _ => id).timerSteps (r := r)
    have hd : Edit w d (fun _ => True) _ _ := hdel.mono (fun _ => False.elim) fun _ _ => trivial
    exact ((hinvoke.trans h₁).tail (.edit hd)).trans h₂

theorem PassStep.timerSteps {w : World} {d r : Int → Prop} (hw : w.Within d r) {a a' : TimerPass}
    (h : PassStep w a a') : TimerSteps w d r a.queue a'.queue := by
  cases h with
  | skip hx hid hseen hq => exact hq ▸ .refl
  | inspect hx hid hdue hseen hq =>
    rw [hq]
    exact .single (.inspect (a.mem hx) hdue)
  | fire hx hid hdue hfire => exact hfire.timerSteps hw (a.mem hx) hdue

/-- The ids fall from the head on, and `timeEventNextId` is above all of them. -/
structure Ordered (q : TimerList) : Prop where
  decreasing : (q.nodes.map fun x => x.2.id).Pairwise (· > ·)
  below : ∀ x ∈ q.nodes, x.2.id < q.timeEventNextId

theorem Ordered.of_sublist {q q' : TimerList} (h : Ordered q) (hs : q'.nodes.Sublist q.nodes)
    (hid : q'.timeEventNextId = q.timeEventNextId) : Ordered q' where
  decreasing := h.decreasing.sublist (hs.map _)
  below x hx := hid ▸ h.below x (hs.subset hx)

theorem Ordered.of_ids {q q' : TimerList} (h : Ordered q)
    (hs : q'.nodes.map (fun x => x.2.id) = q.nodes.map fun x => x.2.id)
    (hid : q'.timeEventNextId = q.timeEventNextId) : Ordered q' where
  decreasing := hs ▸ h.decreasing
  below x hx := by
    have hm : x.2.id ∈ q'.nodes.map fun x => x.2.id := List.mem_map_of_mem hx
    rw [hs] at hm
    obtain ⟨y, hy, hyx⟩ := List.mem_map.mp hm
    rw [hid, ← hyx]
    exact h.below y hy

theorem Ordered.edit {w : World} {d t : Int → Prop} {q q' : TimerList} (h : Edit w d t q q')
    (ho : Ordered q) : Ordered q' := by
  cases h with
  | create a proc clientData finalizerProc hd =>
    refine ⟨List.pairwise_cons.mpr ⟨fun i hi => ?_, ho.decreasing⟩, fun x hx => ?_⟩
    · obtain ⟨x, hx, rfl⟩ := List.mem_map.mp hi
      exact ho.below x hx
    · rcases List.mem_cons.mp hx with rfl | hx
      · exact Int.lt_succ _
      · exact Int.lt_trans (ho.below x hx) (Int.lt_succ _)
  | absent ht hn => exact ho.of_sublist (List.Sublist.refl _) rfl
  | remove ht hq hpre =>
    refine ho.of_sublist ?_ rfl
    rw [hq]
    exact List.Sublist.append_left (List.sublist_cons_self _ _) _

theorem Ordered.step {w : World} {d r : Int → Prop} {q q' : TimerList} (h : TimerStep w d r q q')
    (ho : Ordered q) : Ordered q' := by
  cases h with
  | edit h => exact ho.edit h
  | enter =>
    exact ho.of_ids (q.enter_map w fun _ => rfl) rfl
  | inspect hx hdue => exact ho.of_sublist (List.Sublist.refl _) rfl
  | invoke hx hdue => exact ho.of_sublist (List.Sublist.refl _) rfl
  | reschedule hq hr hdue =>
    exact ho.of_ids (q.reschedule_map w hq fun _ _ => rfl) rfl

theorem Ordered.eq_of_id {q : TimerList} (h : Ordered q) {x y : Nat × AeTimeEvent} (hx : x ∈ q.nodes)
    (hy : y ∈ q.nodes) (hid : x.2.id = y.2.id) : x = y := by
  have hnd : (q.nodes.map fun x => x.2.id).Nodup := h.decreasing.imp fun h => (Int.ne_of_gt h)
  exact List.inj_on_of_nodup_map hnd hx hy hid

theorem Ordered.ne_of_remove {q : TimerList} (h : Ordered q) {pre post : List (Nat × AeTimeEvent)}
    {x : Nat × AeTimeEvent} (hq : q.nodes = pre ++ x :: post) {y : Nat × AeTimeEvent}
    (hy : y ∈ pre ++ post) : y.2.id ≠ x.2.id := by
  have hnd : (q.nodes.map fun x => x.2.id).Nodup := h.decreasing.imp fun h => Int.ne_of_gt h
  rw [hq, List.map_append, List.map_cons] at hnd
  have hnot := (List.nodup_cons.mp (List.nodup_middle.mp hnd)).1
  rw [← List.map_append] at hnot
  exact fun hid => hnot (hid ▸ List.mem_map_of_mem hy)

theorem mem_of_remove {l pre post : List (Nat × AeTimeEvent)} {x : Nat × AeTimeEvent}
    (hq : l = pre ++ x :: post) {y : Nat × AeTimeEvent} : y ∈ l ↔ y = x ∨ y ∈ pre ++ post := by
  rw [hq, List.mem_append, List.mem_cons, List.mem_append]
  tauto

theorem ordered_init (w : World) : Ordered ⟨(initTimers w).toTimerState, []⟩ :=
  ⟨List.Pairwise.nil, by simp⟩

theorem Edits.mem_of_id {w : World} {d t : Int → Prop} {q q' : TimerList} (h : Edits w d t q q')
    {i : Int} (hi : i < q.timeEventNextId) :
    i < q'.timeEventNextId ∧ ∀ x ∈ q'.nodes, x.2.id = i → x ∈ q.nodes := by
  induction h with
  | refl => exact ⟨hi, fun x hx _ => hx⟩
  | tail _ he ih =>
    obtain ⟨hlt, hall⟩ := ih
    cases he with
    | create a proc clientData finalizerProc hd =>
      refine ⟨Int.lt_trans hlt (Int.lt_succ _), fun x hx hxi => ?_⟩
      rcases List.mem_cons.mp hx with rfl | hx
      · exact absurd hxi (Int.ne_of_gt hlt)
      · exact hall x hx hxi
    | absent ht hn => exact ⟨hlt, hall⟩
    | remove ht hq hpre =>
      refine ⟨hlt, fun x hx hxi => hall x ?_ hxi⟩
      rw [hq]
      exact (List.Sublist.append_left (List.sublist_cons_self _ _) _).subset hx

theorem Edits.nextId_le {w : World} {d t : Int → Prop} {q q' : TimerList} (h : Edits w d t q q') :
    q.timeEventNextId ≤ q'.timeEventNextId := by
  by_contra hlt
  exact Int.lt_irrefl _ (h.mem_of_id (Int.not_le.mp hlt)).1

theorem Ordered.edits {w : World} {d t : Int → Prop} {q q' : TimerList} (h : Edits w d t q q')
    (ho : Ordered q) : Ordered q' := by
  induction h with
  | refl => exact ho
  | tail _ he ih => exact ih.edit he

theorem Ordered.ne_of_delete {w : World} {q q' : TimerList} (ho : Ordered q) {i : Int}
    (h : Edit w (fun _ => False) (· = i) q q') {y : Nat × AeTimeEvent} (hy : y ∈ q'.nodes) :
    y.2.id ≠ i := by
  cases h with
  | create a proc clientData finalizerProc hd => exact False.elim hd
  | absent ht hn => exact ht ▸ hn y hy
  | remove ht hq hpre => exact ht ▸ ho.ne_of_remove hq hy

theorem Edits.mem_of_not_target {w : World} {d t : Int → Prop} {q q' : TimerList}
    (h : Edits w d t q q') {x : Nat × AeTimeEvent} (ht : ¬ t x.2.id) (hx : x ∈ q.nodes) :
    x ∈ q'.nodes := by
  induction h with
  | refl => exact hx
  | tail _ he ih =>
    cases he with
    | create a proc clientData finalizerProc hd => exact List.mem_cons_of_mem _ ih
    | absent htar hn => exact ih
    | @remove pre post y htar hq hpre =>
      rw [hq] at ih
      have hne : x ≠ y := fun he => ht (he ▸ htar)
      rcases List.mem_append.mp ih with hm | hm
      · exact List.mem_append_left _ hm
      · exact List.mem_append_right _ ((List.mem_cons.mp hm).resolve_left hne)

/-- The next iteration runs a handler that takes its own event off the list and
asks to be called again. -/
def SelfDeletes (w : World) (p : Pass) : Prop :=
  ∃ te n σ, p.te = some te ∧ p.loop.heap.load te = .ok n ∧ n.val.id ≤ p.maxId ∧
    due (aeGetTime w p.loop.clockReads) n.val.when = true ∧
    (w.timeProc p.loop.calls n.val.timeProc n.val.id n.val.clientData).retval ≠ AE_NOMORE ∧
    runScript w (w.timeProc p.loop.calls n.val.timeProc n.val.id n.val.clientData).script
      (p.loop.invoking w n.val) = .ok σ ∧
    ∀ ev ∈ σ.events, ev.id ≠ n.val.id

theorem Implements.callback {σ : AeTimers} {q : TimerList} (h : Implements σ q) (w : World)
    (ev : AeTimeEvent) : w.timeProc σ.calls ev.timeProc ev.id ev.clientData = q.callback w ev := by
  rw [TimerList.callback, ← h.state]

theorem PassImplements.load {p : Pass} {a : TimerPass} (h : PassImplements p a)
    {x : Nat × AeTimeEvent} {rest : List (Nat × AeTimeEvent)} (hx : a.rest = x :: rest) :
    p.te = some x.1 ∧ p.loop.heap.load x.1 = .ok ⟨x.2, rest.head?.map Prod.fst⟩ := by
  have hnodes : a.queue.nodes = a.seen ++ x :: rest := by rw [a.nodes_eq, hx]
  refine ⟨by rw [h.te, hx]; rfl, NodeHeap.load_ok ?_⟩
  exact Chain.cell_eq (hnodes ▸ h.loop.chain)

theorem PassImplements.exists_rest {p : Pass} {a : TimerPass} (h : PassImplements p a) {te : Nat}
    (hte : p.te = some te) : ∃ x rest, a.rest = x :: rest ∧ x.1 = te := by
  rw [h.te] at hte
  cases hr : a.rest with
  | nil => simp [hr] at hte
  | cons x rest => exact ⟨x, rest, rfl, by simpa [hr] using hte⟩

theorem PassImplements.reads {p : Pass} {a : TimerPass} (h : PassImplements p a) :
    p.loop.clockReads = a.queue.clockReads := by
  rw [h.loop.state]

theorem SelfRemoval.selfDeletes {w : World} {p : Pass} {a : TimerPass} (h : PassImplements p a)
    (ho : Ordered a.queue) {x : Nat × AeTimeEvent} {rest : List (Nat × AeTimeEvent)}
    (hx : a.rest = x :: rest) (hid : x.2.id ≤ a.maxId)
    (hdue : due (aeGetTime w a.queue.clockReads) x.2.when = true) {σ₁ : AeTimers} {q₁ : TimerList}
    (hself : SelfRemoval w (p.loop.invoking w x.2) a.queue x σ₁ q₁) : SelfDeletes w p := by
  obtain ⟨hte, hload⟩ := h.load hx
  have hmem := a.mem hx
  refine ⟨x.1, _, σ₁, hte, hload, h.maxId ▸ hid, h.reads ▸ hdue, ?_, ?_, ?_⟩
  · rw [h.loop.callback w x.2]
    exact hself.again
  · rw [h.loop.callback w x.2]
    exact hself.run
  · intro ev hev hevid
    rw [hself.edits.implements.events] at hev
    obtain ⟨y, hy, rfl⟩ := List.mem_map.mp hev
    have hold := (Edits.mem_of_id hself.edits.edits (ho.below x hmem)).2 y hy hevid
    have hyx := ho.eq_of_id hold hmem hevid
    exact hself.gone (hyx ▸ List.mem_map_of_mem hy)

theorem SelfDeletes.run {w : World} {p : Pass} {a : TimerPass} (h : PassImplements p a)
    (hself : SelfDeletes w p) :
    ∃ x rest σ₁ q₁, a.rest = x :: rest ∧ x.2.id ≤ p.maxId ∧
      due (aeGetTime w p.loop.clockReads) x.2.when = true ∧
      (a.queue.callback w x.2).retval ≠ AE_NOMORE ∧
      runScript w (a.queue.callback w x.2).script (p.loop.invoking w x.2) = .ok σ₁ ∧
      EditsTo w (a.queue.callback w x.2).script.Delay (a.queue.callback w x.2).script.Target
        (p.loop.invoking w x.2) (a.queue.invoke w x.2) σ₁ q₁ ∧ x ∉ q₁.nodes := by
  obtain ⟨te, n, σ, hte, hload, hid, hdue, hagain, hrun, hgone⟩ := hself
  obtain ⟨x, rest, hx, rfl⟩ := h.exists_rest hte
  rw [(h.load hx).2] at hload
  cases hload
  rw [h.loop.callback w x.2] at hagain hrun
  obtain ⟨σ₁, q₁, hrun₁, hto⟩ :=
    runScript_editsTo w (a.queue.callback w x.2).script (h.loop.invoking w x.2)
  rw [hrun] at hrun₁
  cases hrun₁
  refine ⟨x, rest, σ, q₁, hx, hid, hdue, hagain, hrun, hto, fun hm => ?_⟩
  exact hgone x.2 (hto.implements.events ▸ List.mem_map_of_mem hm) rfl

theorem timerOp_selfDeletes {w : World} {p : Pass} {a : TimerPass} (h : PassImplements p a)
    (hself : SelfDeletes w p) : timerOp w p .iterate = .error .useAfterFree := by
  obtain ⟨x, rest, σ₁, q₁, hx, hid, hdue, hagain, hrun, hto, hgone⟩ := hself.run h
  obtain ⟨hte, hload⟩ := h.load hx
  have hlt : x.1 < p.loop.heap.brk := by
    obtain ⟨next, hcell⟩ := h.loop.chain.cell_of_mem (a.mem hx)
    exact NodeHeap.lt_brk hcell
  have hnot : x.1 ∉ q₁.nodes.map Prod.fst := by
    intro hm
    obtain ⟨y, hy, hyx⟩ := List.mem_map.mp hm
    have hyold := hto.frame.kept y hy (hyx ▸ hlt)
    obtain rfl : y = x := List.inj_on_of_nodup_map (Chain.nodup h.loop.chain) hyold (a.mem hx) hyx
    exact hgone hy
  have hdead := hto.frame.removed x.1 hlt (List.mem_map_of_mem (a.mem hx)) hnot
  rw [timerOp_iterate w hte, passStep, hload, ok_bind, if_neg (Int.not_lt.mpr hid), if_pos hdue,
    fire_eq h.loop x hrun, if_pos hagain, reschedule_dead w hdead]
  rfl

def TimerOp.Within (delay : Int → Prop) : TimerOp → Prop
  | .create milliseconds _ _ _ => delay milliseconds
  | .delete _ finalizer => ∀ i, finalizer.Delay i → delay i
  | .process => True
  | .iterate => True

theorem timerOp_cases {w : World} {d r : Int → Prop} (hw : w.Within d r) {p : Pass} {a : TimerPass}
    (h : PassImplements p a) (ho : Ordered a.queue) {op : TimerOp} (hop : op.Within d) :
    (∃ p' a', timerOp w p op = .ok p' ∧ PassImplements p' a' ∧ TimerSteps w d r a.queue a'.queue) ∨
      (timerOp w p op = .error .useAfterFree ∧ SelfDeletes w p) := by
  cases hr : a.rest with
  | nil =>
    have hte : p.te = none := by rw [h.te, hr]; rfl
    have hidle : ∀ {σ' q'}, Implements σ' q' → PassImplements { p with loop := σ' }
        { a with queue := q', seen := q'.nodes, rest := [], nodes_eq := (List.append_nil _).symm } :=
      fun h' => ⟨h', hte, h.maxId, h.processed⟩
    left
    cases op with
    | create milliseconds proc clientData finalizerProc =>
      have hto := aeCreateTimeEvent_editsTo (w := w) (t := fun _ => True) h.loop hop proc clientData
        finalizerProc
      exact ⟨_, _, by simp only [timerOp, hte], hidle hto.implements, hto.edits.timerSteps⟩
    | delete id finalizer =>
      obtain ⟨rc, σ', q₁, q', hdel, -, hedit, hedits, himp, -⟩ :=
        aeDeleteTimeEvent_editsTo (fun h => runScript_editsTo w finalizer h) h.loop id
      refine ⟨{ p with loop := σ' }, _, ?_, hidle himp, ?_⟩
      · simp only [timerOp, hte, hdel, ok_bind]
        rfl
      · have hd : Edit w d (fun _ => True) _ _ := hedit.mono (fun _ => False.elim) fun _ _ => trivial
        exact (ReflTransGen.single (.edit hd)).trans (hedits.mono hop fun _ h => h).timerSteps
    | process =>
      obtain ⟨p', hp', himp⟩ := enterPass_ok w h.loop
      exact ⟨p', _, by rw [timerOp_process w hte, hp'], himp, .single (.enter _)⟩
    | iterate => exact ⟨p, a, by simp only [timerOp, hte], h, .refl⟩
  | cons x rest =>
    obtain ⟨hte, -⟩ := h.load hr
    cases op with
    | iterate =>
      rw [timerOp_iterate w hte]
      rcases passStep_cases w h hr with ⟨p', a', hok, himp, hstep⟩ | ⟨herr, hid, hdue, σ₁, q₁, hself⟩
      · exact .inl ⟨p', a', hok, himp, hstep.timerSteps hw⟩
      · exact .inr ⟨herr, hself.selfDeletes h ho hr hid hdue⟩
    | create => exact .inl ⟨p, a, by simp only [timerOp, hte], h, .refl⟩
    | delete => exact .inl ⟨p, a, by simp only [timerOp, hte], h, .refl⟩
    | process => exact .inl ⟨p, a, by simp only [timerOp, hte], h, .refl⟩

def emptyList (w : World) : TimerList := ⟨(initTimers w).toTimerState, []⟩

theorem startRun_implements (w : World) : PassImplements (startRun w)
    { queue := emptyList w, seen := [], rest := [], maxId := -1, processed := 0, nodes_eq := rfl } :=
  ⟨⟨rfl, rfl⟩, rfl, rfl, rfl⟩

theorem oneTimer_implements (w : World) (milliseconds : Int) (proc clientData finalizerProc : Ptr) :
    ∃ q, Ordered q ∧
      Implements (aeCreateTimeEvent w (initTimers w) milliseconds proc clientData finalizerProc).2 q := by
  have hto : EditsTo w (fun _ => True) (fun _ => True) (initTimers w) (emptyList w)
      (aeCreateTimeEvent w (initTimers w) milliseconds proc clientData finalizerProc).2 _ :=
    aeCreateTimeEvent_editsTo (startRun_implements w).loop trivial proc clientData finalizerProc
  exact ⟨_, (ordered_init w).edits hto.edits, hto.implements⟩

theorem runOps_implements {w : World} {d r : Int → Prop} (hw : w.Within d r) {ops : List TimerOp}
    (hops : ∀ op ∈ ops, op.Within d) {p : Pass} (hrun : runOps w ops (startRun w) = .ok p) :
    ∃ a, PassImplements p a ∧ TimerSteps w d r (emptyList w) a.queue := by
  induction ops using List.reverseRecOn generalizing p with
  | nil =>
    cases hrun
    exact ⟨_, startRun_implements w, .refl⟩
  | append_singleton ops op ih =>
    rw [runOps_append] at hrun
    obtain ⟨p₁, hrun₁, hop⟩ := bind_eq_ok.mp hrun
    obtain ⟨p', hop, hp'⟩ := bind_eq_ok.mp hop
    cases hp'
    obtain ⟨a, himp, hsteps⟩ := ih (fun op hop => hops op (List.mem_append_left _ hop)) hrun₁
    have ho : Ordered a.queue := hsteps.invariant Ordered.step (ordered_init w)
    rcases timerOp_cases hw himp ho (hops op (by simp)) with
      ⟨p', a', hok, himp', hsteps'⟩ | ⟨herr, -⟩
    · rw [hop] at hok
      cases hok
      exact ⟨a', himp', hsteps.trans hsteps'⟩
    · rw [hop] at herr
      cases herr

theorem TimerOp.within_true (op : TimerOp) : op.Within fun _ => True := by
  cases op <;> simp [TimerOp.Within]

theorem runOps_ok {w : World}
    (hsafe : ∀ ops p, runOps w ops (startRun w) = .ok p → ¬ SelfDeletes w p) (ops : List TimerOp) :
    ∃ p, runOps w ops (startRun w) = .ok p := by
  induction ops using List.reverseRecOn with
  | nil => exact ⟨_, rfl⟩
  | append_singleton ops op ih =>
    obtain ⟨p, hrun⟩ := ih
    obtain ⟨a, himp, hsteps⟩ := runOps_implements w.within_true (fun op _ => op.within_true) hrun
    have ho : Ordered a.queue := hsteps.invariant Ordered.step (ordered_init w)
    rcases timerOp_cases w.within_true himp ho op.within_true with ⟨p', a', hok, -⟩ | ⟨-, hself⟩
    · refine ⟨p', ?_⟩
      rw [runOps_append, hrun, ok_bind, runOps, hok]
      rfl
    · exact absurd hself (hsafe ops p hrun)

def World.Spares (w : World) : Prop :=
  ∀ n proc id data, ¬ (w.timeProc n proc id data).script.Target id

theorem World.Spares.not_selfDeletes {w : World} (hw : w.Spares) {p : Pass} {a : TimerPass}
    (h : PassImplements p a) : ¬ SelfDeletes w p := by
  intro hself
  obtain ⟨x, rest, σ₁, q₁, hx, -, -, -, -, hto, hgone⟩ := hself.run h
  exact hgone (Edits.mem_of_not_target hto.edits (hw _ _ _ _) (a.mem hx))

theorem World.Spares.runOps_ok {w : World} (hw : w.Spares) (ops : List TimerOp) :
    ∃ p, runOps w ops (startRun w) = .ok p := by
  refine CPractice.runOps_ok (fun ops p hrun => ?_) ops
  obtain ⟨a, himp, -⟩ := runOps_implements w.within_true (fun op _ => op.within_true) hrun
  exact hw.not_selfDeletes himp

theorem World.Spares.passStep_ok {w : World} (hw : w.Spares) {p : Pass} {a : TimerPass}
    (h : PassImplements p a) {x : Nat × AeTimeEvent} {rest : List (Nat × AeTimeEvent)}
    (hx : a.rest = x :: rest) :
    ∃ p' a', passStep w p x.1 = .ok p' ∧ PassImplements p' a' ∧ PassStep w a a' := by
  rcases passStep_cases w h hx with hok | ⟨-, -, -, σ₁, q₁, hself⟩
  · exact hok
  · have hkeep : x ∈ q₁.nodes := Edits.mem_of_not_target hself.edits.edits (hw _ _ _ _) (a.mem hx)
    exact absurd (List.mem_map_of_mem hkeep) hself.gone

end CPractice
