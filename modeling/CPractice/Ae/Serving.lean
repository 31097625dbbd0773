import CPractice.Ae.Dispatch
import CPractice.Ae.FileTable
import CPractice.Ae.TimerPass

/-! The dispatch loop read as a history. Handlers rewrite the table while the loop
runs over the batch; `entry` computes `events[fd]` at every moment from what has
been seen, and `Serves` says what the loop adds for each descriptor that fired. -/

namespace CPractice

open CMem

variable {κ : Type}

def Side.index : Side → Nat
  | .read => 0
  | .write => 1

theorem side_iff (side : Side) (x : BitVec 32) :
    x &&& side.bit ≠ 0 ↔ x.getLsbD side.index = true := by
  have hbit : side.bit = BitVec.twoPow 32 side.index := by cases side <;> decide
  have hne : side.bit ≠ 0 := by cases side <;> decide
  rw [hbit, BitVec.and_twoPow, ← hbit]
  by_cases h : x.getLsbD side.index = true
  · simp only [h, if_true]
    exact ⟨fun _ => trivial, fun _ => hne⟩
  · simp [h]

theorem side_and (side : Side) (x y : BitVec 32) :
    x &&& y &&& side.bit ≠ 0 ↔ x &&& side.bit ≠ 0 ∧ y &&& side.bit ≠ 0 := by
  simp only [side_iff, BitVec.getLsbD_and, Bool.and_eq_true]

theorem side_or (side : Side) (x y : BitVec 32) :
    (x ||| y) &&& side.bit ≠ 0 ↔ x &&& side.bit ≠ 0 ∨ y &&& side.bit ≠ 0 := by
  simp only [side_iff, BitVec.getLsbD_or, Bool.or_eq_true]

theorem side_andNot (side : Side) (x y : BitVec 32) :
    x &&& ~~~y &&& side.bit ≠ 0 ↔ x &&& side.bit ≠ 0 ∧ y &&& side.bit = 0 := by
  have hlt : side.index < 32 := by cases side <;> decide
  have hy : y &&& side.bit = 0 ↔ y.getLsbD side.index = false := by
    rw [← not_iff_not, ← ne_eq, side_iff, Bool.not_eq_false]
  rw [side_and, side_iff side (~~~y), hy]
  simp [hlt]

/-- `events[fd]` after what has been seen, when it was `t` before. -/
def entry (t : FileTable κ) : List FileObs → Nat → AeFileEvent
  | [], fd => t.event fd
  | .created fd' mask proc clientData rc :: τ, fd =>
    if fd' = fd ∧ rc = AE_OK then (entry t τ fd).register mask proc clientData else entry t τ fd
  | .deleted fd' mask :: τ, fd =>
    if fd' = fd then { entry t τ fd with mask := (entry t τ fd).mask &&& ~~~mask } else entry t τ fd
  | .polled _ _ _ :: τ, fd => entry t τ fd
  | .called _ _ _ _ _ :: τ, fd => entry t τ fd

def FileObs.isEdit : FileObs → Bool
  | .created _ _ _ _ _ => true
  | .deleted _ _ => true
  | _ => false

structure Follows (l₀ l : AeEventLoop κ) : Prop where
  event : ∀ fd, l.files.event fd = entry l₀.files l.seen fd
  setsize : l.files.setsize = l₀.files.setsize
  timers : ∃ q, Implements l.timers q
  trace : ∃ τ, l.timers.trace = τ ++ l₀.timers.trace ∧ ∀ o ∈ τ, o.isEdit = true

theorem aeCreateFileEvent_event (epoll_ctl : EpollCtl κ) (t : FileTable κ) (fd : Nat)
    (mask : BitVec 32) (proc clientData : Ptr) :
    (aeCreateFileEvent epoll_ctl t fd mask proc clientData).2.setsize = t.setsize ∧
      ∀ j, (aeCreateFileEvent epoll_ctl t fd mask proc clientData).2.event j =
        if fd = j ∧ (aeCreateFileEvent epoll_ctl t fd mask proc clientData).1 = AE_OK then
          (t.event j).register mask proc clientData
        else t.event j := by
  rcases aeCreateFileEvent_cases epoll_ctl t fd mask proc clientData with
    ⟨-, he⟩ | ⟨-, -, he⟩ | ⟨-, -, t', he, -, hsize, -, hself, hother⟩ <;> rw [he]
  · exact ⟨rfl, fun j => by simp [AE_ERR, AE_OK]⟩
  · exact ⟨rfl, fun j => by simp [AE_ERR, AE_OK, aeApiAddEvent, FileTable.event]⟩
  · refine ⟨hsize, fun j => ?_⟩
    by_cases hj : fd = j
    · rw [if_pos ⟨hj, rfl⟩, ← hj, hself]
    · rw [if_neg fun h => hj h.1, hother j fun h => hj h.symm]

theorem aeDeleteFileEvent_setsize (epoll_ctl : EpollCtl κ) (t : FileTable κ) (fd : Nat)
    (mask : BitVec 32) : (aeDeleteFileEvent epoll_ctl t fd mask).setsize = t.setsize := by
  unfold aeDeleteFileEvent
  split
  · rfl
  · dsimp only
    split
    · rfl
    · split <;> rfl

theorem aeDeleteFileEvent_event (epoll_ctl : EpollCtl κ) (t : FileTable κ) (fd : Nat)
    (mask : BitVec 32) (j : Nat) :
    (aeDeleteFileEvent epoll_ctl t fd mask).event j =
      if fd = j then { t.event j with mask := (t.event j).mask &&& ~~~mask } else t.event j := by
  rcases aeDeleteFileEvent_cases epoll_ctl t fd mask with ⟨hr, he⟩ | ⟨-, t', he, hself, hother, -⟩ <;>
    rw [he]
  · have hnone : (t.event fd).mask = 0 := not_not.mp hr
    by_cases hj : fd = j
    · have hzero : (t.event fd).mask &&& ~~~mask = (t.event fd).mask := by
        rw [hnone]
        exact BitVec.zero_and
      rw [if_pos hj, ← hj, hzero]
    · rw [if_neg hj]
  · by_cases hj : fd = j
    · rw [if_pos hj, ← hj, hself]
    · rw [if_neg hj, hother j fun h => hj h.symm]

section Steps

variable {w : LoopWorld κ} {l₀ l : AeEventLoop κ}

theorem runFileAct_follows (h : Follows l₀ l) (act : FileAct) :
    ∃ l' acts, runFileAct w l act = .ok l' ∧ Follows l₀ l' ∧ l'.seen = acts ++ l.seen ∧
      ∀ o ∈ acts, o.isEdit = true := by
  cases act with
  | create fd mask proc clientData =>
    obtain ⟨hsize, hevent⟩ := aeCreateFileEvent_event w.epoll_ctl l.files fd mask proc clientData
    refine ⟨_, [.created fd mask proc clientData _], rfl, ⟨fun j => ?_, hsize.trans h.setsize, h.timers,
      h.trace⟩, rfl, by simp [FileObs.isEdit]⟩
    rw [AeEventLoop.observe, entry, ← h.event j]
    exact hevent j
  | delete fd mask =>
    refine ⟨_, [.deleted fd mask], rfl, ⟨fun j => ?_, ?_, h.timers, h.trace⟩, rfl,
      by simp [FileObs.isEdit]⟩
    · rw [AeEventLoop.observe, entry, ← h.event j]
      exact aeDeleteFileEvent_event w.epoll_ctl l.files fd mask j
    · exact (aeDeleteFileEvent_setsize w.epoll_ctl l.files fd mask).trans h.setsize
  | timers script =>
    obtain ⟨q, hq⟩ := h.timers
    obtain ⟨τ, hτ, hedit⟩ := h.trace
    obtain ⟨σ', q', hrun, hto⟩ := runScript_editsTo w.toWorld script hq
    obtain ⟨τ', hτ', hedit'⟩ := hto.edits.trace
    refine ⟨{ l with timers := σ' }, [], ?_, ⟨h.event, h.setsize, ⟨q', hto.implements⟩, τ' ++ τ, ?_,
      List.forall_mem_append.mpr ⟨hedit', hedit⟩⟩, rfl, by simp⟩
    · rw [runFileAct, hrun, ok_bind]
      rfl
    · rw [hto.implements.state, hτ', ← hq.state, hτ, List.append_assoc]

theorem runFileActs_follows (h : Follows l₀ l) (acts : List FileAct) :
    ∃ l' τ, runFileActs w acts l = .ok l' ∧ Follows l₀ l' ∧ l'.seen = τ ++ l.seen ∧
      ∀ o ∈ τ, o.isEdit = true := by
  induction acts generalizing l with
  | nil => exact ⟨l, [], rfl, h, rfl, by simp⟩
  | cons act acts ih =>
    obtain ⟨l₁, τ₁, hrun₁, h₁, hseen₁, hedit₁⟩ := runFileAct_follows (w := w) h act
    obtain ⟨l₂, τ₂, hrun₂, h₂, hseen₂, hedit₂⟩ := ih h₁
    refine ⟨l₂, τ₂ ++ τ₁, ?_, h₂, ?_, List.forall_mem_append.mpr ⟨hedit₂, hedit₁⟩⟩
    · rw [runFileActs, hrun₁, ok_bind, hrun₂]
    · rw [hseen₂, hseen₁, List.append_assoc]

end Steps

/-- One handler call, with the arguments from the table at that moment, and the
edits it makes before it returns. -/
def Calls (t : FileTable κ) (side : Side) (e : AeFiredEvent) (τ τ' : List FileObs) : Prop :=
  ∃ acts, (∀ o ∈ acts, o.isEdit = true) ∧ τ' = acts ++ .called side e.fd
    ((entry t τ e.fd).proc side) (entry t τ e.fd).clientData e.mask :: τ

inductive Reads (t : FileTable κ) (e : AeFiredEvent) (τ : List FileObs) : Bool → List FileObs → Prop
  | skip (h : (entry t τ e.fd).mask &&& e.mask &&& AE_READABLE = 0) : Reads t e τ false τ
  | call {τ' : List FileObs} (h : (entry t τ e.fd).mask &&& e.mask &&& AE_READABLE ≠ 0)
      (hc : Calls t .read e τ τ') : Reads t e τ true τ'

inductive Writes (t : FileTable κ) (e : AeFiredEvent) (rfired : Bool) (τ : List FileObs) :
    List FileObs → Prop
  | skip (h : (entry t τ e.fd).mask &&& e.mask &&& AE_WRITABLE = 0) : Writes t e rfired τ τ
  | shared (hr : rfired = true)
      (h : (entry t τ e.fd).wfileProc = (entry t τ e.fd).rfileProc) : Writes t e rfired τ τ
  | call {τ' : List FileObs} (h : (entry t τ e.fd).mask &&& e.mask &&& AE_WRITABLE ≠ 0)
      (hr : rfired = true → (entry t τ e.fd).wfileProc ≠ (entry t τ e.fd).rfileProc)
      (hc : Calls t .write e τ τ') : Writes t e rfired τ τ'

inductive Serves (t : FileTable κ) : List AeFiredEvent → List FileObs → List FileObs → Prop
  | nil {τ : List FileObs} : Serves t [] τ τ
  | cons {e : AeFiredEvent} {fired : List AeFiredEvent} {rfired : Bool} {τ τ₁ τ₂ τ₃ : List FileObs}
      (hr : Reads t e τ rfired τ₁) (hw : Writes t e rfired τ₁ τ₂) (hs : Serves t fired τ₂ τ₃) :
      Serves t (e :: fired) τ τ₃

section Loop

variable {w : LoopWorld κ} {l₀ l : AeEventLoop κ}

theorem callFileProc_follows (h : Follows l₀ l) (side : Side) (e : AeFiredEvent) :
    ∃ l', callFileProc w l side e = .ok l' ∧ Follows l₀ l' ∧
      Calls l₀.files side e l.seen l'.seen := by
  have hevent := h.event e.fd
  have hcalled : Follows l₀ ({ l with calls := l.calls + 1 }.observe
      (.called side e.fd ((l.files.event e.fd).proc side) (l.files.event e.fd).clientData e.mask)) :=
    ⟨h.event, h.setsize, h.timers, h.trace⟩
  obtain ⟨l', acts, hrun, h', hseen, hedit⟩ := runFileActs_follows (w := w) hcalled
    (w.fileProc l.calls ((l.files.event e.fd).proc side) e.fd (l.files.event e.fd).clientData e.mask)
  refine ⟨l', hrun, h', acts, hedit, ?_⟩
  rw [hseen, hevent]
  rfl

theorem readPart_follows (h : Follows l₀ l) (e : AeFiredEvent) :
    ∃ rfired l', readPart w l e = .ok (rfired, l') ∧ Follows l₀ l' ∧
      Reads l₀.files e l.seen rfired l'.seen := by
  have hevent := h.event e.fd
  by_cases hm : (l.files.event e.fd).mask &&& e.mask &&& AE_READABLE ≠ 0
  · obtain ⟨l', hrun, h', hc⟩ := callFileProc_follows (w := w) h .read e
    refine ⟨true, l', ?_, h', .call (hevent ▸ hm) hc⟩
    rw [readPart, if_pos hm, hrun, ok_bind]
    rfl
  · exact ⟨false, l, if_neg hm, h, .skip (hevent ▸ not_not.mp hm)⟩

theorem writePart_follows (h : Follows l₀ l) (rfired : Bool) (e : AeFiredEvent) :
    ∃ l', writePart w rfired l e = .ok l' ∧ Follows l₀ l' ∧
      Writes l₀.files e rfired l.seen l'.seen := by
  have hevent := h.event e.fd
  by_cases hm : (l.files.event e.fd).mask &&& e.mask &&& AE_WRITABLE ≠ 0
  · by_cases hp : (!rfired || (l.files.event e.fd).wfileProc != (l.files.event e.fd).rfileProc) = true
    · obtain ⟨l', hrun, h', hc⟩ := callFileProc_follows (w := w) h .write e
      refine ⟨l', by rw [writePart, if_pos hm, if_pos hp, hrun], h', .call (hevent ▸ hm) ?_ hc⟩
      intro hr
      rw [← hevent]
      simpa [hr] using hp
    · have hshared : rfired = true ∧
          (l.files.event e.fd).wfileProc = (l.files.event e.fd).rfileProc := by simpa using hp
      refine ⟨l, by rw [writePart, if_pos hm, if_neg hp], h, .shared hshared.1 ?_⟩
      rw [← hevent]
      exact hshared.2
  · exact ⟨l, if_neg hm, h, .skip (hevent ▸ not_not.mp hm)⟩

theorem dispatch_follows (h : Follows l₀ l) {fired : List AeFiredEvent}
    (hfd : ∀ e ∈ fired, e.fd < l₀.files.setsize) :
    ∃ l', dispatch w fired l = .ok l' ∧ Follows l₀ l' ∧ Serves l₀.files fired l.seen l'.seen := by
  induction fired generalizing l with
  | nil => exact ⟨l, rfl, h, .nil⟩
  | cons e fired ih =>
    have hin : ¬ e.fd ≥ l.files.setsize := by
      rw [h.setsize]
      exact Nat.not_le.mpr (hfd e (by simp))
    obtain ⟨rfired, l₁, hrun₁, h₁, hr⟩ := readPart_follows (w := w) h e
    obtain ⟨l₂, hrun₂, h₂, hw⟩ := writePart_follows (w := w) h₁ rfired e
    obtain ⟨l₃, hrun₃, h₃, hs⟩ := ih h₂ fun e he => hfd e (by simp [he])
    refine ⟨l₃, ?_, h₃, .cons hr hw hs⟩
    rw [dispatch, dispatchOne, if_neg hin, hrun₁, ok_bind, hrun₂, ok_bind, hrun₃]

end Loop

end CPractice
