import CPractice.Ae.TimerRuns
import CPractice.Lib.History

/-! `processTimeEvents` and the nodes that callbacks free while it walks. -/

namespace CPractice

open CMem History

def AeTimers.nodes (σ : AeTimers) : List (Nat × AeTimeEvent) :=
  σ.heap.toList σ.heap.brk σ.timeEventHead

def NeverAfterRemoval (τ : List Obs) : Prop :=
  ∀ newer te now older, τ = newer ++ .invoked te now :: older →
    ∀ before after, .deleted te.id AE_OK before after ∉ older

def Obs.NotRemoved (older : List Obs) : Obs → Prop
  | .invoked te _ => ∀ before after, .deleted te.id AE_OK before after ∉ older
  | _ => True

theorem each_removalTrace {P : List Obs → Obs → Prop} {te : AeTimeEvent}
    {before after : List AeTimeEvent} {τ : List Obs} :
    Each P (removalTrace te before after ++ τ) ↔ Each P τ ∧ P τ (.deleted te.id AE_OK before after) ∧
      (te.finalizerProc ≠ 0 → P (.deleted te.id AE_OK before after :: τ) (.finalized te.id)) := by
  by_cases h : te.finalizerProc = 0
  · simp [removalTrace, h, Each, and_comm]
  · simp only [removalTrace, h, ne_eq, not_false_eq_true, if_true, List.cons_append, List.nil_append,
      Each, forall_true_left]
    tauto

structure RemovedGone (q : TimerList) : Prop where
  ordered : Ordered q
  gone : ∀ id before after, .deleted id AE_OK before after ∈ q.trace →
    id < q.timeEventNextId ∧ ∀ x ∈ q.nodes, x.2.id ≠ id
  never : Each Obs.NotRemoved q.trace

theorem RemovedGone.of_quiet {q q' : TimerList} (h : RemovedGone q) (ho : Ordered q')
    (hn : q'.nodes.map (fun x => x.2.id) = q.nodes.map fun x => x.2.id)
    (hid : q'.timeEventNextId = q.timeEventNextId) {τ : List Obs} (ht : q'.trace = τ ++ q.trace)
    (hτ : ∀ id before after, .deleted id AE_OK before after ∉ τ) (hs : Each Obs.NotRemoved q'.trace) :
    RemovedGone q' := by
  refine ⟨ho, fun id before after hm => ?_, hs⟩
  rw [ht] at hm
  have hold := (List.mem_append.mp hm).resolve_left (hτ id before after)
  obtain ⟨hlt, hall⟩ := h.gone id before after hold
  refine ⟨hid ▸ hlt, fun x hx hxid => ?_⟩
  have hmem : x.2.id ∈ q'.nodes.map fun x => x.2.id := List.mem_map_of_mem hx
  rw [hn] at hmem
  obtain ⟨y, hy, hyx⟩ := List.mem_map.mp hmem
  exact hall y hy (hyx.trans hxid)

theorem RemovedGone.step {w : World} {d r : Int → Prop} {q q' : TimerList}
    (hs : TimerStep w d r q q') (h : RemovedGone q) : RemovedGone q' := by
  have ho := h.ordered.step hs
  cases hs with
  | edit he =>
    cases he with
    | create a proc clientData finalizerProc hd =>
      refine ⟨ho, fun id before after hm => ?_, ⟨trivial, h.never⟩⟩
      have hold := (List.mem_cons.mp hm).resolve_left (by simp)
      obtain ⟨hlt, hall⟩ := h.gone id before after hold
      refine ⟨Int.lt_trans hlt (Int.lt_succ _), fun x hx => ?_⟩
      rcases List.mem_cons.mp hx with rfl | hx
      · exact (Int.ne_of_lt hlt).symm
      · exact hall x hx
    | absent ht hn =>
      exact h.of_quiet ho rfl rfl (τ := [_]) rfl (by simp [AE_ERR, AE_OK]) ⟨trivial, h.never⟩
    | @remove pre post x ht hq hpre =>
      refine ⟨ho, fun id before after hm => ?_, ?_⟩
      · rcases List.mem_append.mp hm with hm | hm
        · rcases mem_removalTrace.mp hm with ⟨-, he⟩ | he
          · cases he
          · cases he
            exact ⟨h.ordered.below x (by simp [hq]), fun y hy => h.ordered.ne_of_remove hq hy⟩
        · obtain ⟨hlt, hall⟩ := h.gone id before after hm
          exact ⟨hlt, fun y hy => hall y ((mem_of_remove hq).mpr (.inr hy))⟩
      · exact each_removalTrace.mpr ⟨h.never, trivial, fun _ => trivial⟩
  | enter => exact h.of_quiet ho (q.enter_map w fun _ => rfl) rfl (τ := []) rfl (by simp) h.never
  | inspect hx hdue => exact h.of_quiet ho rfl rfl (τ := [_]) rfl (by simp) ⟨trivial, h.never⟩
  | @invoke x hx hdue =>
    refine h.of_quiet ho rfl rfl (τ := [_]) rfl (by simp) ⟨fun before after hm => ?_, h.never⟩
    exact (h.gone _ before after hm).2 x hx rfl
  | reschedule hq hr hdue =>
    exact h.of_quiet ho (q.reschedule_map w hq fun _ _ => rfl) rfl (τ := [_]) rfl (by simp)
      ⟨trivial, h.never⟩

theorem removedGone_init (w : World) : RemovedGone (emptyList w) :=
  ⟨ordered_init w, by simp [emptyList, initTimers], trivial⟩

def OnList (p : Pass) : Prop := ∀ te, p.te = some te → te ∈ p.loop.nodes.map Prod.fst

theorem PassImplements.onList {p : Pass} {a : TimerPass} (h : PassImplements p a) : OnList p := by
  intro te hte
  have hnodes : p.loop.nodes = a.queue.nodes :=
    Chain.toList_eq h.loop.chain (Chain.length_le_brk h.loop.chain)
  obtain ⟨x, rest, hx, rfl⟩ := h.exists_rest hte
  rw [hnodes]
  exact List.mem_map_of_mem (a.mem hx)

/-- `processTimeEvents` touches no freed event and runs no deleted one, in any run,
exactly when no handler that asks to be called again has deleted its own event. -/
theorem runs_safe_iff (w : World) :
    (∀ ops, ∃ p, runOps w ops (startRun w) = .ok p ∧ OnList p ∧ NeverAfterRemoval p.loop.trace) ↔
      ∀ ops p, runOps w ops (startRun w) = .ok p → ¬ SelfDeletes w p := by
  constructor
  · intro hall ops p hrun hself
    obtain ⟨a, himp, -⟩ := runOps_implements w.within_true (fun op _ => op.within_true) hrun
    obtain ⟨p', hrun', -⟩ := hall (ops ++ [.iterate])
    rw [runOps_append, hrun, ok_bind, runOps, timerOp_selfDeletes himp hself] at hrun'
    cases hrun'
  · intro hsafe ops
    obtain ⟨p, hrun⟩ := runOps_ok hsafe ops
    obtain ⟨a, himp, hsteps⟩ := runOps_implements w.within_true (fun op _ => op.within_true) hrun
    have hgone := hsteps.invariant RemovedGone.step (removedGone_init w)
    refine ⟨p, hrun, himp.onList, ?_⟩
    rw [himp.loop.state]
    exact fun newer te now older he => each_iff.mp hgone.never newer (.invoked te now) older he

def selfDeletingWorld : World where
  time _ := 0
  gettimeofday _ := .ofMs 0
  timeProc _ _ id _ := { script := .delete id .done .done, retval := 10, finalizer := .done }

theorem reschedules_freed_event :
    ¬ ∀ (w : World) (ops : List TimerOp), ∃ p, runOps w ops (startRun w) = .ok p ∧ OnList p ∧
      NeverAfterRemoval p.loop.trace := by
  intro hall
  obtain ⟨p, hrun, -⟩ := hall selfDeletingWorld [.create 0 1 0 0, .process, .iterate]
  have hcode : runOps selfDeletingWorld [.create 0 1 0 0, .process, .iterate]
      (startRun selfDeletingWorld) = .error .useAfterFree := rfl
  rw [hcode] at hrun
  cases hrun

end CPractice
