import CPractice.Ae.TimerPass

/-! What a call of `processTimeEvents` has done when it returns: it ran no event
younger than the call, it left no due event behind, it dropped none that was not
deleted, and it counted right. -/

namespace CPractice

open CMem Relation

def Obs.isInvoked : Obs → Bool
  | .invoked _ _ => true
  | _ => false

theorem countP_isInvoked {τ : List Obs} (h : ∀ o ∈ τ, o.isInvoked = false) :
    τ.countP Obs.isInvoked = 0 :=
  List.countP_eq_zero.mpr fun o ho => by simp [h o ho]

theorem Obs.not_invoked_of_isEdit {o : Obs} (h : o.isEdit = true) : o.isInvoked = false := by
  cases o with
  | invoked te now => cases h
  | _ => rfl

def Listed (l : List AeTimeEvent) (id : Int) : Prop := ∃ te ∈ l, te.id = id

def Created (τ : List Obs) (id : Int) : Prop :=
  ∃ te now milliseconds list, .created te now milliseconds list ∈ τ ∧ te.id = id

def Removed (τ : List Obs) (id : Int) : Prop :=
  ∃ before, .deleted id AE_OK before (before.eraseP fun te => te.id == id) ∈ τ

/-- What was in the list, and what was put into it since, is in the list or was deleted. -/
def NoneLost (l : List AeTimeEvent) (τ : List Obs) (l' : List AeTimeEvent) : Prop :=
  ∀ id, Listed l id ∨ Created τ id → Listed l' id ∨ Removed τ id

theorem created_append {τ τ' : List Obs} {id : Int} :
    Created (τ' ++ τ) id ↔ Created τ' id ∨ Created τ id := by
  simp only [Created, List.mem_append, or_and_right, exists_or]

theorem removed_append {τ τ' : List Obs} {id : Int} :
    Removed (τ' ++ τ) id ↔ Removed τ' id ∨ Removed τ id := by
  simp only [Removed, List.mem_append, exists_or]

theorem NoneLost.trans {l l₁ l' : List AeTimeEvent} {τ τ' : List Obs} (h : NoneLost l τ l₁)
    (h' : NoneLost l₁ τ' l') : NoneLost l (τ' ++ τ) l' := by
  intro id hid
  rw [created_append] at hid
  rw [removed_append]
  have hmid : Listed l₁ id ∨ Created τ' id → Listed l' id ∨ Removed τ' id := h' id
  have hfirst : Listed l id ∨ Created τ id → Listed l₁ id ∨ Removed τ id := h id
  tauto

theorem noneLost_of_ids {l l' : List AeTimeEvent} {τ : List Obs}
    (hids : l'.map AeTimeEvent.id = l.map AeTimeEvent.id) (hτ : ∀ id, ¬ Created τ id) : NoneLost l τ l' := by
  rintro id (⟨te, hte, rfl⟩ | hc)
  · left
    have hmem : te.id ∈ l'.map AeTimeEvent.id := hids ▸ List.mem_map_of_mem hte
    exact List.mem_map.mp hmem
  · exact absurd hc (hτ id)

theorem Edit.noneLost {w : World} {d t : Int → Prop} {q q' : TimerList} (h : Edit w d t q q') :
    ∃ τ, q'.trace = τ ++ q.trace ∧ (∀ o ∈ τ, o.isInvoked = false) ∧ NoneLost q.events τ q'.events := by
  cases h with
  | create a proc clientData finalizerProc hd =>
    refine ⟨[_], rfl, by simp [Obs.isInvoked], ?_⟩
    rintro id (⟨te, hte, rfl⟩ | ⟨te, now, ms, list, hc, rfl⟩)
    · exact .inl ⟨te, List.mem_cons_of_mem _ hte, rfl⟩
    · cases List.mem_singleton.mp hc
      exact .inl ⟨_, List.mem_cons_self, rfl⟩
  | absent ht hn => exact ⟨[_], rfl, by simp [Obs.isInvoked], noneLost_of_ids rfl (by simp [Created])⟩
  | @remove pre post x ht hq hpre =>
    have hevents : q.events = (pre ++ x :: post).map Prod.snd := congrArg (List.map Prod.snd) hq
    refine ⟨removalTrace x.2 q.events ((pre ++ post).map Prod.snd), rfl, fun o ho => ?_, ?_⟩
    · rcases mem_removalTrace.mp ho with ⟨-, rfl⟩ | rfl <;> rfl
    · rintro id (⟨te, hte, rfl⟩ | ⟨te, now, ms, list, hc, -⟩)
      · rw [hevents] at hte
        obtain ⟨y, hy, rfl⟩ := List.mem_map.mp hte
        have hsplit : y ∈ pre ++ post ∨ y = x := by
          simp only [List.mem_append, List.mem_cons] at hy ⊢
          tauto
        rcases hsplit with hy | rfl
        · exact .inl ⟨y.2, List.mem_map_of_mem hy, rfl⟩
        · refine .inr ⟨q.events, mem_removalTrace.mpr (.inr ?_)⟩
          rw [hevents, eraseP_events hpre]
      · rcases mem_removalTrace.mp hc with ⟨-, he⟩ | he <;> cases he

theorem Edits.noneLost {w : World} {d t : Int → Prop} {q q' : TimerList} (h : Edits w d t q q') :
    ∃ τ, q'.trace = τ ++ q.trace ∧ (∀ o ∈ τ, o.isInvoked = false) ∧ NoneLost q.events τ q'.events := by
  induction h with
  | refl => exact ⟨[], rfl, by simp, noneLost_of_ids rfl (by simp [Created])⟩
  | tail _ he ih =>
    obtain ⟨τ, hτ, hno, hlost⟩ := ih
    obtain ⟨τ', hτ', hno', hlost'⟩ := he.noneLost
    exact ⟨τ' ++ τ, by rw [hτ', hτ, List.append_assoc], List.forall_mem_append.mpr ⟨hno', hno⟩, hlost.trans hlost'⟩

theorem Fire.trace {w : World} {q q' : TimerList} {x : Nat × AeTimeEvent} (h : Fire w q x q') :
    ∃ τ, q'.trace = τ ++ .invoked x.2 (aeGetTime w q.clockReads) :: q.trace ∧
      (∀ o ∈ τ, o.isInvoked = false) ∧ NoneLost q.events τ q'.events := by
  cases h with
  | @again q₁ pre post hr hscript hq =>
    obtain ⟨τ, hτ, hno, hlost⟩ := hscript.noneLost
    refine ⟨_ :: τ, congrArg (_ :: ·) hτ, List.forall_mem_cons.mpr ⟨rfl, hno⟩, ?_⟩
    have hids : (q₁.reschedule w pre x post (q.callback w x.2).retval).events.map AeTimeEvent.id =
        q₁.events.map AeTimeEvent.id := by
      simp only [TimerList.events, List.map_map]
      exact q₁.reschedule_map w hq fun _ _ => rfl
    have hmoved : NoneLost q₁.events
        [.rescheduled x.2.id (q.callback w x.2).retval (aeGetTime w q₁.clockReads)]
        (q₁.reschedule w pre x post (q.callback w x.2).retval).events := noneLost_of_ids hids (by simp [Created])
    exact hlost.trans hmoved
  | stop hr hscript hdel hfin => exact (hscript.stop hdel hfin).noneLost

/-- `recent` are the readings since the last handler, `older` the rest of the call. -/
structure Walked (w : World) (q : TimerList) (a : TimerPass) (recent older : List Obs) : Prop where
  trace : a.queue.trace = recent ++ older ++ q.trace
  inspected : ∀ o ∈ recent, ∃ te now, o = .inspected te now
  seen : ∀ x ∈ a.seen, x.2.id ≤ a.maxId →
    ∃ k, .inspected x.2 (aeGetTime w k) ∈ recent ∧ due (aeGetTime w k) x.2.when = false
  invoked : ∀ te now, .invoked te now ∈ older → te.id ≤ a.maxId
  processed : a.processed = older.countP Obs.isInvoked
  noneLost : NoneLost q.events older a.queue.events

theorem Walked.not_invoked {w : World} {q : TimerList} {recent older : List Obs} {a : TimerPass}
    (h : Walked w q a recent older) : ∀ o ∈ recent, o.isInvoked = false := by
  intro o ho
  obtain ⟨te, now, rfl⟩ := h.inspected o ho
  rfl

theorem Walked.step {w : World} {q : TimerList} {recent older : List Obs} {a a' : TimerPass}
    (hs : PassStep w a a') (h : Walked w q a recent older) :
    ∃ recent' older', Walked w q a' recent' older' := by
  cases hs with
  | @skip x hx hid hseen hq hm hp =>
    refine ⟨recent, older, hq ▸ h.trace, h.inspected, fun y hy hle => ?_, hm ▸ h.invoked, hp ▸ h.processed,
      hq ▸ h.noneLost⟩
    rw [hm] at hle
    rw [hseen] at hy
    rcases List.mem_append.mp hy with hy | hy
    · exact h.seen y hy hle
    · obtain rfl := List.mem_singleton.mp hy
      exact absurd hid (Int.not_lt.mpr hle)
  | @inspect x hx hid hdue hseen hq hm hp =>
    refine ⟨.inspected x.2 (aeGetTime w a.queue.clockReads) :: recent, older, ?_,
      List.forall_mem_cons.mpr ⟨⟨_, _, rfl⟩, h.inspected⟩, fun y hy hle => ?_, hm ▸ h.invoked,
      hp ▸ h.processed, hq ▸ h.noneLost⟩
    · rw [hq]
      exact congrArg (_ :: ·) h.trace
    · rw [hm] at hle
      rw [hseen] at hy
      rcases List.mem_append.mp hy with hy | hy
      · obtain ⟨k, hk, hnd⟩ := h.seen y hy hle
        exact ⟨k, List.mem_cons_of_mem _ hk, hnd⟩
      · obtain rfl := List.mem_singleton.mp hy
        exact ⟨_, List.mem_cons_self, hdue⟩
  | @fire x rest hx hid hdue hfire hseen hm hp =>
    obtain ⟨τ, hτ, hno, hlost⟩ := hfire.trace
    have hrecent := h.not_invoked
    refine ⟨[], τ ++ .invoked x.2 (aeGetTime w a.queue.clockReads) :: (recent ++ older), ?_, by simp,
      by simp [hseen], fun te now hi => ?_, ?_, ?_⟩
    · rw [hτ, h.trace]
      simp
    · rw [hm]
      rcases List.mem_append.mp hi with hi | hi
      · exact absurd (hno _ hi) (by simp [Obs.isInvoked])
      · rcases List.mem_cons.mp hi with he | hi
        · cases he
          exact hid
        · rcases List.mem_append.mp hi with hi | hi
          · exact absurd (hrecent _ hi) (by simp [Obs.isInvoked])
          · exact h.invoked te now hi
    · rw [hp, h.processed, List.countP_append, countP_isInvoked hno, List.countP_cons_of_pos rfl,
        List.countP_append, countP_isInvoked hrecent]
      omega
    · have hquiet : NoneLost a.queue.events (.invoked x.2 (aeGetTime w a.queue.clockReads) :: recent)
          a.queue.events := by
        refine noneLost_of_ids rfl fun id hc => ?_
        obtain ⟨te, now, ms, list, hmem, -⟩ := hc
        rcases List.mem_cons.mp hmem with he | hmem
        · cases he
        · obtain ⟨te', now', he⟩ := h.inspected _ hmem
          cases he
      exact (h.noneLost.trans hquiet).trans hlost

theorem PassStep.maxId_eq {w : World} {a a' : TimerPass} (h : PassStep w a a') : a'.maxId = a.maxId := by
  cases h with
  | skip _ _ _ _ hm => exact hm
  | inspect _ _ _ _ _ hm => exact hm
  | fire _ _ _ _ _ hm => exact hm

theorem walked_of_steps {w : World} {q : TimerList} {a : TimerPass}
    (h : ReflTransGen (PassStep w) (q.startPass w) a) :
    (∃ recent older, Walked w q a recent older) ∧ a.maxId = q.timeEventNextId - 1 := by
  induction h with
  | refl =>
    have hids : (q.enter w).events.map AeTimeEvent.id = q.events.map AeTimeEvent.id := by
      simp only [TimerList.events, List.map_map]
      exact q.enter_map w fun _ => rfl
    exact ⟨⟨[], [], rfl, by simp, by simp [TimerList.startPass], by simp, rfl,
      noneLost_of_ids hids (by simp [Created])⟩, rfl⟩
  | tail _ hs ih =>
    obtain ⟨⟨recent, older, hwalk⟩, hmax⟩ := ih
    exact ⟨hwalk.step hs, hs.maxId_eq.trans hmax⟩

/-- When the call returns, every event that is as old as the call has been looked
at since the last handler ran, and was not due. An event that is no longer in the
list has been deleted. -/
theorem processTimeEvents_complete {w : World} {n : Nat} {σ : AeTimers} {p : Pass}
    {l : List (Nat × AeTimeEvent)} (hc : Chain σ.heap σ.timeEventHead l)
    (hrun : processTimeEvents w n σ = .ok p) (hret : p.te = none) :
    ∃ recent older, p.loop.trace = recent ++ older ++ σ.trace ∧
      (∀ te now, .invoked te now ∈ recent ++ older → te.id ≤ σ.timeEventNextId - 1) ∧
      (∀ o ∈ recent, ∃ te now, o = .inspected te now) ∧
      (∀ te ∈ p.loop.events, te.id ≤ σ.timeEventNextId - 1 →
        ∃ k, .inspected te (aeGetTime w k) ∈ recent ∧ due (aeGetTime w k) te.when = false) ∧
      p.processed = (recent ++ older).countP Obs.isInvoked ∧
      NoneLost σ.events (recent ++ older) p.loop.events := by
  have h : Implements σ ⟨σ.toTimerState, l⟩ := ⟨rfl, hc⟩
  obtain ⟨a, himp, hsteps⟩ := processTimeEvents_implements h hrun
  obtain ⟨⟨recent, older, hwalk⟩, hmax⟩ := walked_of_steps hsteps
  have hrest : a.rest = [] := by
    cases hr : a.rest with
    | nil => rfl
    | cons x rest => simp [himp.te, hr] at hret
  have hnot := hwalk.not_invoked
  refine ⟨recent, older, ?_, fun te now hi => ?_, hwalk.inspected, fun te hte hle => ?_, ?_, ?_⟩
  · rw [himp.loop.state]
    exact hwalk.trace
  · rcases List.mem_append.mp hi with hi | hi
    · exact absurd (hnot _ hi) (by simp [Obs.isInvoked])
    · exact hmax ▸ hwalk.invoked te now hi
  · rw [himp.loop.events, TimerList.events, a.nodes_eq, hrest, List.append_nil] at hte
    obtain ⟨x, hx, rfl⟩ := List.mem_map.mp hte
    exact hwalk.seen x hx (hmax ▸ hle)
  · rw [himp.processed, hwalk.processed, List.countP_append, countP_isInvoked hnot, Nat.zero_add]
  · have hquiet : NoneLost a.queue.events recent a.queue.events := by
      refine noneLost_of_ids rfl fun id hc => ?_
      obtain ⟨te, now, ms, list, hmem, -⟩ := hc
      obtain ⟨te', now', he⟩ := hwalk.inspected _ hmem
      cases he
    rw [h.events, himp.loop.events]
    exact hwalk.noneLost.trans hquiet

def passWorld : World where
  time _ := 0
  gettimeofday _ := .ofMs 0
  timeProc _ _ _ _ := { script := .create 0 1 0 0 .done, retval := 5, finalizer := .done }

def passLoopStart : AeTimers := (aeCreateTimeEvent passWorld (initTimers passWorld) 0 1 0 0).2

theorem passWorld_complete :
    ∃ p recent older, processTimeEvents passWorld 3 passLoopStart = .ok p ∧
      p.loop.trace = recent ++ older ++ passLoopStart.trace ∧
      (∀ te now, .invoked te now ∈ recent ++ older → te.id ≤ 0) ∧
      (∀ o ∈ recent, ∃ te now, o = .inspected te now) ∧
      (∀ te ∈ p.loop.events, te.id ≤ 0 →
        ∃ k, .inspected te (aeGetTime passWorld k) ∈ recent ∧
          due (aeGetTime passWorld k) te.when = false) ∧
      p.processed = (recent ++ older).countP Obs.isInvoked ∧
      NoneLost passLoopStart.events (recent ++ older) p.loop.events := by
  have hc : Chain passLoopStart.heap passLoopStart.timeEventHead
      [(0, (initTimers passWorld).newEvent passWorld 0 1 0 0)] := ⟨rfl, none, rfl, rfl⟩
  have hrun : processTimeEvents passWorld 3 passLoopStart = .ok _ := rfl
  obtain ⟨recent, older, h⟩ := processTimeEvents_complete hc hrun rfl
  exact ⟨_, recent, older, hrun, h⟩

end CPractice
