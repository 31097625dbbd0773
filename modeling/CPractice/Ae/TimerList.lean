import CPractice.Ae.TimeEvents
import Mathlib.Logic.Relation

/-! The time events as a list of nodes instead of a heap, and the two edits a
callback can make to it. Every callback in the heap is a sequence of such edits. -/

namespace CPractice

open CMem Relation

structure TimerList extends TimerState where
  nodes : List (Nat × AeTimeEvent)

def TimerList.events (q : TimerList) : List AeTimeEvent := q.nodes.map Prod.snd

/-- The heap holds the nodes of `q` as one chain from the head. -/
structure Implements (σ : AeTimers) (q : TimerList) : Prop where
  state : σ.toTimerState = q.toTimerState
  chain : Chain σ.heap σ.timeEventHead q.nodes

theorem Implements.events {σ : AeTimers} {q : TimerList} (h : Implements σ q) : σ.events = q.events := by
  rw [AeTimers.events, Chain.toList_eq h.chain (Chain.length_le_brk h.chain)]
  rfl

def TimerState.newEvent (s : TimerState) (w : World) (milliseconds : Int)
    (proc clientData finalizerProc : Ptr) : AeTimeEvent :=
  let when := addMilliseconds (aeGetTime w s.clockReads) milliseconds
  { id := s.timeEventNextId, when_sec := when.sec, when_ms := when.ms, timeProc := proc
    finalizerProc, clientData }

def TimerList.create (q : TimerList) (w : World) (a : Nat) (milliseconds : Int)
    (proc clientData finalizerProc : Ptr) : TimerList :=
  let te := q.newEvent w milliseconds proc clientData finalizerProc
  { q with
    timeEventNextId := q.timeEventNextId + 1
    clockReads := q.clockReads + 1
    nodes := (a, te) :: q.nodes
    trace := .created te (aeGetTime w q.clockReads) milliseconds (te :: q.events) :: q.trace }

def removalTrace (te : AeTimeEvent) (before after : List AeTimeEvent) : List Obs :=
  if te.finalizerProc ≠ 0 then [.finalized te.id, .deleted te.id AE_OK before after]
  else [.deleted te.id AE_OK before after]

/-- Creations with a delay in `delay` and deletions of an id in `target`. -/
inductive Edit (w : World) (delay target : Int → Prop) : TimerList → TimerList → Prop
  | create {q : TimerList} (a : Nat) {milliseconds : Int} (proc clientData finalizerProc : Ptr)
      (hd : delay milliseconds) :
      Edit w delay target q (q.create w a milliseconds proc clientData finalizerProc)
  | absent {q : TimerList} {id : Int} (ht : target id) (hn : ∀ x ∈ q.nodes, x.2.id ≠ id) :
      Edit w delay target q { q with trace := .deleted id AE_ERR q.events q.events :: q.trace }
  | remove {q : TimerList} {pre post : List (Nat × AeTimeEvent)} {x : Nat × AeTimeEvent}
      (ht : target x.2.id) (hq : q.nodes = pre ++ x :: post) (hpre : ∀ y ∈ pre, y.2.id ≠ x.2.id) :
      Edit w delay target q { q with
        nodes := pre ++ post
        trace := removalTrace x.2 q.events ((pre ++ post).map Prod.snd) ++ q.trace }

abbrev Edits (w : World) (delay target : Int → Prop) : TimerList → TimerList → Prop :=
  ReflTransGen (Edit w delay target)

theorem Edit.mono {w : World} {d d' t t' : Int → Prop} (hd : ∀ i, d i → d' i) (ht : ∀ i, t i → t' i)
    {q q' : TimerList} (h : Edit w d t q q') : Edit w d' t' q q' := by
  cases h with
  | create a proc clientData finalizerProc h => exact .create a proc clientData finalizerProc (hd _ h)
  | absent h hn => exact .absent (ht _ h) hn
  | remove h hq hpre => exact .remove (ht _ h) hq hpre

theorem Edits.mono {w : World} {d d' t t' : Int → Prop} (hd : ∀ i, d i → d' i) (ht : ∀ i, t i → t' i)
    {q q' : TimerList} (h : Edits w d t q q') : Edits w d' t' q q' :=
  ReflTransGen.mono (fun _ _ h => Edit.mono hd ht h) q q' h

def Obs.isEdit : Obs → Bool
  | .created _ _ _ _ => true
  | .deleted _ _ _ _ => true
  | .finalized _ => true
  | _ => false

theorem mem_removalTrace {te : AeTimeEvent} {before after : List AeTimeEvent} {o : Obs} :
    o ∈ removalTrace te before after ↔
      (te.finalizerProc ≠ 0 ∧ o = .finalized te.id) ∨ o = .deleted te.id AE_OK before after := by
  by_cases h : te.finalizerProc = 0 <;> simp [removalTrace, h]

theorem Edits.trace {w : World} {d t : Int → Prop} {q q' : TimerList} (h : Edits w d t q q') :
    ∃ τ, q'.trace = τ ++ q.trace ∧ ∀ o ∈ τ, o.isEdit = true := by
  induction h with
  | refl => exact ⟨[], rfl, by simp⟩
  | @tail b c _ he ih =>
    obtain ⟨τ, hτ, hedit⟩ := ih
    cases he with
    | create a proc clientData finalizerProc hd =>
      exact ⟨_ :: τ, congrArg (_ :: ·) hτ, List.forall_mem_cons.mpr ⟨rfl, hedit⟩⟩
    | absent ht hn => exact ⟨_ :: τ, congrArg (_ :: ·) hτ, List.forall_mem_cons.mpr ⟨rfl, hedit⟩⟩
    | @remove pre post x ht hq hpre =>
      refine ⟨removalTrace x.2 b.events ((pre ++ post).map Prod.snd) ++ τ, ?_,
        List.forall_mem_append.mpr ⟨fun o ho => ?_, hedit⟩⟩
      · rw [List.append_assoc, ← hτ]
      · rcases mem_removalTrace.mp ho with ⟨-, rfl⟩ | rfl <;> rfl

def Script.Delay : Script → Int → Prop
  | .done, _ => False
  | .create milliseconds _ _ _ rest, i => i = milliseconds ∨ rest.Delay i
  | .delete _ finalizer rest, i => finalizer.Delay i ∨ rest.Delay i

def Script.Target : Script → Int → Prop
  | .done, _ => False
  | .create _ _ _ _ rest, i => rest.Target i
  | .delete id finalizer rest, i => i = id ∨ finalizer.Target i ∨ rest.Target i

structure EditsTo (w : World) (delay target : Int → Prop) (σ : AeTimers) (q : TimerList)
    (σ' : AeTimers) (q' : TimerList) : Prop where
  implements : Implements σ' q'
  edits : Edits w delay target q q'
  frame : Frame σ.heap q.nodes σ'.heap q'.nodes

theorem EditsTo.trans {w : World} {d t : Int → Prop} {σ₁ σ₂ σ₃ : AeTimers} {q₁ q₂ q₃ : TimerList}
    (h : EditsTo w d t σ₁ q₁ σ₂ q₂) (h' : EditsTo w d t σ₂ q₂ σ₃ q₃) : EditsTo w d t σ₁ q₁ σ₃ q₃ :=
  ⟨h'.implements, h.edits.trans h'.edits, h.frame.trans h'.frame⟩

theorem EditsTo.mono {w : World} {d d' t t' : Int → Prop} (hd : ∀ i, d i → d' i)
    (ht : ∀ i, t i → t' i) {σ σ' : AeTimers} {q q' : TimerList} (h : EditsTo w d t σ q σ' q') :
    EditsTo w d' t' σ q σ' q' :=
  ⟨h.implements, h.edits.mono hd ht, h.frame⟩

theorem aeCreateTimeEvent_editsTo {w : World} {d t : Int → Prop} {σ : AeTimers} {q : TimerList}
    (h : Implements σ q) {milliseconds : Int} (hd : d milliseconds)
    (proc clientData finalizerProc : Ptr) :
    EditsTo w d t σ q (aeCreateTimeEvent w σ milliseconds proc clientData finalizerProc).2
      (q.create w σ.heap.brk milliseconds proc clientData finalizerProc) := by
  obtain ⟨s, l⟩ := q
  obtain ⟨rfl, hc⟩ := h
  let te := σ.newEvent w milliseconds proc clientData finalizerProc
  have hpush := Chain.push hc te
  refine ⟨⟨?_, hpush⟩, .single (.create _ _ _ _ hd), Frame.push _ _ _ _⟩
  let σ' : AeTimers := { σ with
    timeEventNextId := σ.timeEventNextId + 1
    clockReads := σ.clockReads + 1
    heap := σ.heap.alloc { val := te, next := σ.timeEventHead }
    timeEventHead := some σ.heap.brk }
  have hev : σ'.events = te :: l.map Prod.snd :=
    Implements.events (q := ⟨σ'.toTimerState, (σ.heap.brk, te) :: l⟩) ⟨rfl, hpush⟩
  exact congrArg (fun list => ({ σ'.toTimerState with
    trace := .created te (aeGetTime w σ.clockReads) milliseconds list :: σ.trace } : TimerState)) hev

theorem exists_first_or_absent (l : List (Nat × AeTimeEvent)) (id : Int) :
    (∀ x ∈ l, x.2.id ≠ id) ∨
      ∃ pre x post, l = pre ++ x :: post ∧ x.2.id = id ∧ ∀ y ∈ pre, y.2.id ≠ id := by
  induction l with
  | nil => simp
  | cons x l ih =>
    by_cases hx : x.2.id = id
    · exact .inr ⟨[], x, l, rfl, hx, by simp⟩
    · rcases ih with hn | ⟨pre, y, post, rfl, hy, hpre⟩
      · exact .inl fun y hy => by
          rcases List.mem_cons.mp hy with rfl | hy
          · exact hx
          · exact hn y hy
      · refine .inr ⟨x :: pre, y, post, rfl, hy, fun z hz => ?_⟩
        rcases List.mem_cons.mp hz with rfl | hz
        · exact hx
        · exact hpre z hz

/-- What a call of `aeDeleteTimeEvent` returns and leaves. The finalizer runs once, on
the list without the event, and what it leaves is what the call leaves. -/
structure Deletes (finalizer : AeTimers → Except Fault AeTimers) (σ : AeTimers) (id rc : Int) (σ' : AeTimers) :
    Prop where
  returned : rc = AE_OK ∨ rc = AE_ERR
  ok_iff : rc = AE_OK ↔ ∃ te ∈ σ.events, te.id = id
  absent : rc = AE_ERR → σ'.events = σ.events ∧ σ'.trace = .deleted id AE_ERR σ.events σ.events :: σ.trace
  removed : rc = AE_OK → ∃ te ∈ σ.events, te.id = id ∧ ∃ unlinked : AeTimers,
    unlinked.events = σ.events.eraseP (fun te => te.id == id) ∧
      unlinked.trace = removalTrace te σ.events unlinked.events ++ σ.trace ∧
      (te.finalizerProc = 0 ∧ σ'.events = unlinked.events ∧ σ'.toTimerState = unlinked.toTimerState ∨
        te.finalizerProc ≠ 0 ∧ ∃ finalized, finalizer unlinked = .ok finalized ∧
          σ'.events = finalized.events ∧ σ'.toTimerState = finalized.toTimerState)

theorem eraseP_events {pre post : List (Nat × AeTimeEvent)} {x : Nat × AeTimeEvent}
    (hpre : ∀ y ∈ pre, y.2.id ≠ x.2.id) :
    ((pre ++ x :: post).map Prod.snd).eraseP (fun te => te.id == x.2.id) = (pre ++ post).map Prod.snd := by
  rw [List.map_append, List.eraseP_append_right, List.map_cons, List.eraseP_cons_of_pos (by simp), List.map_append]
  intro te hte
  obtain ⟨y, hy, rfl⟩ := List.mem_map.mp hte
  simpa using hpre y hy

/-- `rc`, the list after the call and the edits that led to it. -/
theorem aeDeleteTimeEvent_editsTo {w : World} {d t : Int → Prop}
    {finalizer : AeTimers → Except Fault AeTimers}
    (hfin : ∀ {σ q}, Implements σ q → ∃ σ' q', finalizer σ = .ok σ' ∧ EditsTo w d t σ q σ' q')
    {σ : AeTimers} {q : TimerList} (h : Implements σ q) (id : Int) :
    ∃ rc σ' q₁ q', aeDeleteTimeEvent finalizer σ id = .ok (rc, σ') ∧ Deletes finalizer σ id rc σ' ∧
      Edit w (fun _ => False) (· = id) q q₁ ∧ Edits w d t q₁ q' ∧ Implements σ' q' ∧
      Frame σ.heap q.nodes σ'.heap q'.nodes := by
  have hev := h.events
  obtain ⟨s, l⟩ := q
  obtain ⟨rfl, hc⟩ := h
  have hlen := Chain.length_le_brk hc
  rcases exists_first_or_absent l id with hn | ⟨pre, ⟨a, v⟩, post, rfl, rfl, hpre⟩
  · have hs := NodeHeap.search_none (q := fun te => te.id == id) hc
      (fun x hx => by simpa using hn x hx) hlen none
    refine ⟨AE_ERR, σ.observe (.deleted id AE_ERR σ.events σ.events), _, _, ?_, ?_, .absent rfl hn, .refl,
      ⟨?_, hc⟩, Frame.refl _ _⟩
    · rw [aeDeleteTimeEvent, hs, ok_bind]
      rfl
    · refine ⟨.inr rfl, iff_of_false (by decide) ?_, fun _ => ⟨rfl, rfl⟩, fun h => absurd h (by decide)⟩
      rintro ⟨te, hte, hid⟩
      rw [hev] at hte
      obtain ⟨y, hy, rfl⟩ := List.mem_map.mp hte
      exact hn y hy hid
    · rw [hev]
      rfl
  · obtain ⟨next, hcell⟩ := hc.cell_of_mem (a := a) (v := v) (by simp)
    have hf : pre.length < σ.heap.brk := by
      simp only [List.length_append, List.length_cons] at hlen
      omega
    have hs := NodeHeap.search_some (q := fun te => te.id == v.id) hc hcell
      (fun x hx => by simpa using hpre x hx) (by simp) hf none
    rw [Option.or_none] at hs
    obtain ⟨head, h₁, hunlink, hc₁, hbrk, hcells⟩ := NodeHeap.unlink_ok hc hcell
    let unlinked : AeTimers := { σ with timeEventHead := head, heap := h₁ }
    let q₁ : TimerList := ⟨unlinked.toTimerState, pre ++ post⟩
    have hev₁ : unlinked.events = (pre ++ post).map Prod.snd :=
      Implements.events (q := q₁) ⟨rfl, hc₁⟩
    let τ := removalTrace v σ.events ((pre ++ post).map Prod.snd)
    let σ₁ : AeTimers := { unlinked with trace := τ ++ σ.trace }
    have himp : Implements σ₁ { q₁ with trace := τ ++ σ.trace } := ⟨rfl, hc₁⟩
    obtain ⟨σ₂, q₂, hrun, hto, hcall⟩ : ∃ σ₂ q₂,
        (if v.finalizerProc ≠ 0 then
          finalizer ((unlinked.observe (.deleted v.id AE_OK σ.events unlinked.events)).observe
            (.finalized v.id))
          else .ok (unlinked.observe (.deleted v.id AE_OK σ.events unlinked.events))) = .ok σ₂ ∧
        EditsTo w d t σ₁ { q₁ with trace := τ ++ σ.trace } σ₂ q₂ ∧
        (v.finalizerProc = 0 ∧ σ₂ = σ₁ ∨ v.finalizerProc ≠ 0 ∧ finalizer σ₁ = .ok σ₂) := by
      by_cases hz : v.finalizerProc ≠ 0
      · rw [if_pos hz, hev₁]
        have hτ : τ = [.finalized v.id, .deleted v.id AE_OK σ.events ((pre ++ post).map Prod.snd)] :=
          if_pos hz
        obtain ⟨σ₂, q₂, hrun, hto⟩ := hfin himp
        refine ⟨σ₂, q₂, ?_, hto, .inr ⟨hz, hrun⟩⟩
        rw [← hrun]
        simp only [σ₁, hτ]
        rfl
      · rw [if_neg hz, hev₁]
        have hτ : τ = [.deleted v.id AE_OK σ.events ((pre ++ post).map Prod.snd)] := if_neg hz
        refine ⟨σ₁, _, ?_, ⟨himp, .refl, Frame.refl _ _⟩, .inl ⟨not_not.mp hz, rfl⟩⟩
        simp only [σ₁, hτ]
        rfl
    obtain ⟨h₃, hfree, hc₃, hframe⟩ :=
      Frame.unlink_free hc hcell hbrk hcells hto.frame hto.implements.chain
    have hend : Implements { σ₂ with heap := h₃ } q₂ := ⟨hto.implements.state, hc₃⟩
    refine ⟨AE_OK, { σ₂ with heap := h₃ }, { q₁ with trace := τ ++ σ.trace }, q₂, ?_, ?_, ?_, hto.edits, hend, hframe⟩
    · rw [aeDeleteTimeEvent, hs, ok_bind]
      simp only [hunlink, ok_bind]
      rw [hrun, ok_bind, hfree]
      rfl
    · have hv : v ∈ σ.events := by
        rw [hev]
        exact List.mem_map.mpr ⟨(a, v), by simp, rfl⟩
      have hsame : AeTimers.events { σ₂ with heap := h₃ } = σ₂.events := hend.events.trans hto.implements.events.symm
      refine ⟨.inl rfl, iff_of_true rfl ⟨v, hv, rfl⟩, fun h => absurd h (by decide), fun _ => ⟨v, hv, rfl, σ₁, ?_, ?_, ?_⟩⟩
      · rw [himp.events, hev]
        exact (eraseP_events hpre).symm
      · rw [himp.events]
        rfl
      · rw [hsame]
        exact hcall.imp (fun h => ⟨h.1, by rw [h.2], by rw [h.2]⟩) fun h => ⟨h.1, σ₂, h.2, rfl, rfl⟩
    · have hedit : Edit w (fun _ => False) (· = v.id) ⟨σ.toTimerState, pre ++ (a, v) :: post⟩ _ :=
        .remove rfl rfl hpre
      rw [← hev] at hedit
      exact hedit

theorem runScript_editsTo (w : World) (s : Script) {σ : AeTimers} {q : TimerList}
    (h : Implements σ q) :
    ∃ σ' q', runScript w s σ = .ok σ' ∧ EditsTo w s.Delay s.Target σ q σ' q' := by
  induction s generalizing σ q with
  | done => exact ⟨σ, q, rfl, h, .refl, Frame.refl _ _⟩
  | create milliseconds proc clientData finalizerProc rest ih =>
    have hto := aeCreateTimeEvent_editsTo (w := w) (d := (Script.create milliseconds proc clientData
      finalizerProc rest).Delay) (t := rest.Target) h (.inl rfl) proc clientData finalizerProc
    obtain ⟨σ', q', hrun, hrest⟩ := ih hto.implements
    exact ⟨σ', q', hrun, hto.trans (hrest.mono (fun _ => .inr) fun _ => id)⟩
  | delete id finalizer rest ihf ihr =>
    obtain ⟨rc, σ₁, q₁, q₂, hdel, -, hedit, hedits, himp, hframe⟩ := aeDeleteTimeEvent_editsTo ihf h id
    obtain ⟨σ', q', hrun, hrest⟩ := ihr himp
    refine ⟨σ', q', ?_, hrest.implements, ?_, hframe.trans hrest.frame⟩
    · rw [runScript, hdel, ok_bind]
      exact hrun
    · have h₁ : Edits w (Script.delete id finalizer rest).Delay (Script.delete id finalizer rest).Target
          q q₁ := .single (hedit.mono (fun _ => False.elim) fun _ => .inl)
      exact h₁.trans ((hedits.mono (fun _ => .inl) fun _ hi => .inr (.inl hi)).trans
        (hrest.edits.mono (fun _ => .inr) fun _ hi => .inr (.inr hi)))

end CPractice
