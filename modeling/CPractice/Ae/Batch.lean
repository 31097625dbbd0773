import CPractice.Ae.FileRuns
import CPractice.Ae.Serving
import CPractice.Lib.History

/-! What one call of `aeProcessEvents` does with a batch of distinct descriptors,
whatever the handlers do to the table meanwhile. -/

namespace CPractice

open CMem History

variable {κ : Type}

def FileObs.sideOf (fd : Nat) : FileObs → Option Side
  | .called side fd' _ _ _ => if fd' = fd then some side else none
  | _ => none

def calledSides (fd : Nat) (τ : List FileObs) : List Side := (τ.filterMap (FileObs.sideOf fd)).reverse

/-- A handler is called only for a bit that fired and that the table holds at that
moment, with what the table holds at that moment. -/
def Valid (t : FileTable κ) (fired : List AeFiredEvent) (older : List FileObs) : FileObs → Prop
  | .called side fd proc clientData mask =>
    { fd, mask } ∈ fired ∧ mask &&& side.bit ≠ 0 ∧ (entry t older fd).mask &&& side.bit ≠ 0 ∧
      proc = (entry t older fd).proc side ∧ clientData = (entry t older fd).clientData
  | _ => True

section History

variable {t : FileTable κ} {e : AeFiredEvent} {τ τ' : List FileObs} {fired : List AeFiredEvent}

theorem sideOf_of_isEdit {o : FileObs} (h : o.isEdit = true) (fd : Nat) : o.sideOf fd = none := by
  cases o with
  | called side fd' proc clientData mask => cases h
  | _ => rfl

theorem Calls.suffix {side : Side} (h : Calls t side e τ τ') : τ <:+ τ' := by
  obtain ⟨acts, -, rfl⟩ := h
  exact (List.suffix_cons _ τ).trans (List.suffix_append acts _)

theorem Reads.suffix {r : Bool} (h : Reads t e τ r τ') : τ <:+ τ' := by
  cases h with
  | skip h => exact List.suffix_rfl
  | call h hc => exact hc.suffix

theorem Writes.suffix {r : Bool} (h : Writes t e r τ τ') : τ <:+ τ' := by
  cases h with
  | skip h => exact List.suffix_rfl
  | shared hr h => exact List.suffix_rfl
  | call h hr hc => exact hc.suffix

theorem Serves.suffix (h : Serves t fired τ τ') : τ <:+ τ' := by
  induction h with
  | nil => exact List.suffix_rfl
  | cons hr hw hs ih => exact hr.suffix.trans (hw.suffix.trans ih)

theorem Calls.sides {side : Side} (h : Calls t side e τ τ') (fd : Nat) :
    calledSides fd τ' = calledSides fd τ ++ if e.fd = fd then [side] else [] := by
  obtain ⟨acts, hedit, rfl⟩ := h
  rw [calledSides,
    filterMap_append_of_none fun o ho => sideOf_of_isEdit (hedit o ho) fd]
  by_cases hfd : e.fd = fd <;> simp [calledSides, FileObs.sideOf, hfd]

theorem Reads.sides {r : Bool} (h : Reads t e τ r τ') (fd : Nat) :
    calledSides fd τ' = calledSides fd τ ++ if e.fd = fd ∧ r = true then [.read] else [] := by
  cases h with
  | skip h => simp
  | call h hc => simpa using hc.sides fd

theorem Writes.sides {r : Bool} (h : Writes t e r τ τ') (fd : Nat) :
    ∃ s, calledSides fd τ' = calledSides fd τ ++ s ∧ s.Sublist (if e.fd = fd then [.write] else []) := by
  cases h with
  | skip h => exact ⟨[], by simp, List.nil_sublist _⟩
  | shared hr h => exact ⟨[], by simp, List.nil_sublist _⟩
  | call h hr hc => exact ⟨_, hc.sides fd, List.Sublist.refl _⟩

theorem serves_one_sides {r : Bool} {τ₁ : List FileObs} (hr : Reads t e τ r τ₁)
    (hw : Writes t e r τ₁ τ') (fd : Nat) :
    ∃ s, calledSides fd τ' = calledSides fd τ ++ s ∧
      s.Sublist (if e.fd = fd then [.read, .write] else []) := by
  obtain ⟨s, hs, hsub⟩ := hw.sides fd
  refine ⟨(if e.fd = fd ∧ r = true then [.read] else []) ++ s, ?_, ?_⟩
  · rw [hs, hr.sides fd, List.append_assoc]
  · by_cases hfd : e.fd = fd
    · simp only [hfd, if_true, true_and] at hsub ⊢
      have hread : (if r = true then [Side.read] else []).Sublist [.read] := by
        split
        · exact List.Sublist.refl _
        · exact List.nil_sublist _
      exact hread.append hsub
    · simp only [hfd, if_false, List.sublist_nil] at hsub
      simp [hfd, hsub]

theorem Serves.sides_of_notMem (h : Serves t fired τ τ') {fd : Nat}
    (hfd : fd ∉ fired.map AeFiredEvent.fd) : calledSides fd τ' = calledSides fd τ := by
  induction h with
  | nil => rfl
  | cons hr hw hs ih =>
    obtain ⟨hne, hnot⟩ := not_or.mp fun h => hfd (List.mem_cons.mpr h)
    obtain ⟨s, hs, hsub⟩ := serves_one_sides hr hw fd
    rw [if_neg (Ne.symm hne), List.sublist_nil] at hsub
    rw [ih hnot, hs, hsub, List.append_nil]

theorem Each.edits {P : List FileObs → FileObs → Prop} (hedit : ∀ older o, o.isEdit = true → P older o)
    {acts : List FileObs} (hacts : ∀ o ∈ acts, o.isEdit = true) (h : Each P τ) : Each P (acts ++ τ) := by
  induction acts with
  | nil => exact h
  | cons o acts ih =>
    exact ⟨hedit _ o (hacts o (by simp)), ih fun o ho => hacts o (by simp [ho])⟩

theorem Calls.each {P : List FileObs → FileObs → Prop} (hedit : ∀ older o, o.isEdit = true → P older o)
    {side : Side} (hc : Calls t side e τ τ')
    (hcall : P τ (.called side e.fd ((entry t τ e.fd).proc side) (entry t τ e.fd).clientData e.mask))
    (h : Each P τ) : Each P τ' := by
  obtain ⟨acts, hacts, rfl⟩ := hc
  exact Each.edits hedit hacts ⟨hcall, h⟩

theorem valid_of_isEdit (t : FileTable κ) (fired : List AeFiredEvent) (older : List FileObs)
    (o : FileObs) (h : o.isEdit = true) : Valid t fired older o := by
  cases o with
  | called side fd proc clientData mask => cases h
  | _ => trivial

theorem Calls.valid {side : Side} (hc : Calls t side e τ τ') (he : e ∈ fired)
    (hm : (entry t τ e.fd).mask &&& e.mask &&& side.bit ≠ 0) (h : Each (Valid t fired) τ) :
    Each (Valid t fired) τ' := by
  obtain ⟨htable, hmask⟩ := (side_and side _ _).mp hm
  exact hc.each (valid_of_isEdit t fired) ⟨he, hmask, htable, rfl, rfl⟩ h

theorem Serves.valid {all : List AeFiredEvent} (hs : Serves t fired τ τ') (hall : ∀ e ∈ fired, e ∈ all)
    (h : Each (Valid t all) τ) : Each (Valid t all) τ' := by
  induction hs with
  | nil => exact h
  | @cons e fired r τ τ₁ τ₂ τ₃ hr hw hs ih =>
    have he : e ∈ all := hall e (by simp)
    have h₁ : Each (Valid t all) τ₁ := by
      cases hr with
      | skip hm => exact h
      | call hm hc => exact hc.valid he hm h
    refine ih (fun e he => hall e (by simp [he])) ?_
    cases hw with
    | skip hm => exact h₁
    | shared hr hp => exact h₁
    | call hm hp hc => exact hc.valid he hm h₁

theorem Serves.fresh_tail {r : Bool} {τ₁ τ₂ : List FileObs} (hr : Reads t e τ r τ₁)
    (hw : Writes t e r τ₁ τ₂) (hd : ((e :: fired).map AeFiredEvent.fd).Nodup)
    (h : ∀ x ∈ e :: fired, calledSides x.fd τ = []) : ∀ x ∈ fired, calledSides x.fd τ₂ = [] := by
  intro x hx
  have hne : e.fd ≠ x.fd := fun he =>
    (List.nodup_cons.mp hd).1 (he ▸ List.mem_map_of_mem hx)
  obtain ⟨s, hs, hsub⟩ := serves_one_sides hr hw x.fd
  rw [if_neg hne, List.sublist_nil] at hsub
  rw [hs, hsub, h x (by simp [hx])]
  rfl

theorem Serves.order (hs : Serves t fired τ τ') (hd : (fired.map AeFiredEvent.fd).Nodup)
    (hnew : ∀ e ∈ fired, calledSides e.fd τ = []) {fd : Nat}
    (h : (calledSides fd τ).Sublist [.read, .write]) :
    (calledSides fd τ').Sublist [.read, .write] := by
  induction hs with
  | nil => exact h
  | @cons e fired r τ τ₁ τ₂ τ₃ hr hw hs ih =>
    have hd' := List.nodup_cons.mp hd
    obtain ⟨s, hs₂, hsub⟩ := serves_one_sides hr hw fd
    by_cases hfd : e.fd = fd
    · rw [hs.sides_of_notMem (hfd ▸ hd'.1), hs₂, ← hfd, hnew e (by simp)]
      simpa [hfd] using hsub
    · rw [if_neg hfd, List.sublist_nil] at hsub
      refine ih hd'.2 (Serves.fresh_tail hr hw hd hnew) ?_
      rw [hs₂, hsub, List.append_nil]
      exact h

theorem Calls.mem {side : Side} (h : Calls t side e τ τ') :
    .called side e.fd ((entry t τ e.fd).proc side) (entry t τ e.fd).clientData e.mask ∈ τ' := by
  obtain ⟨acts, -, rfl⟩ := h
  simp

theorem Reads.served {r : Bool} (hr : Reads t e τ r τ') (hsame : entry t τ e.fd = t.event e.fd)
    (hm : (t.event e.fd).mask &&& e.mask &&& AE_READABLE ≠ 0) :
    .called .read e.fd (t.event e.fd).rfileProc (t.event e.fd).clientData e.mask ∈ τ' := by
  rw [← hsame] at hm ⊢
  cases hr with
  | skip h => exact absurd h hm
  | call h hc => exact hc.mem

theorem Writes.served {r : Bool} {τ₁ : List FileObs} (hr : Reads t e τ r τ₁)
    (hw : Writes t e r τ₁ τ') (hsame : entry t τ e.fd = t.event e.fd)
    (hsame₁ : entry t τ₁ e.fd = t.event e.fd)
    (hm : (t.event e.fd).mask &&& e.mask &&& AE_WRITABLE ≠ 0) :
    .called .write e.fd (t.event e.fd).wfileProc (t.event e.fd).clientData e.mask ∈ τ' ∨
      ((t.event e.fd).wfileProc = (t.event e.fd).rfileProc ∧
        .called .read e.fd (t.event e.fd).rfileProc (t.event e.fd).clientData e.mask ∈ τ') := by
  cases hw with
  | skip h => exact absurd h (hsame₁ ▸ hm)
  | shared hrfired h =>
    cases hr with
    | skip h => cases hrfired
    | call h hc => exact .inr ⟨hsame₁ ▸ ‹_›, hsame ▸ hc.mem⟩
  | call h hr hc => exact .inl (hsame₁ ▸ hc.mem)

theorem Serves.served (hs : Serves t fired τ τ') (he : e ∈ fired)
    (hsame : ∀ older, older <:+ τ' → entry t older e.fd = t.event e.fd) (side : Side)
    (hm : (t.event e.fd).mask &&& e.mask &&& side.bit ≠ 0) :
    .called side e.fd ((t.event e.fd).proc side) (t.event e.fd).clientData e.mask ∈ τ' ∨
      (side = .write ∧ (t.event e.fd).wfileProc = (t.event e.fd).rfileProc ∧
        .called .read e.fd (t.event e.fd).rfileProc (t.event e.fd).clientData e.mask ∈ τ') := by
  induction hs with
  | nil => cases he
  | @cons e' fired r τ τ₁ τ₂ τ₃ hr hw hs ih =>
    rcases List.mem_cons.mp he with rfl | he
    · have hlast := hs.suffix
      have hwrite := hw.suffix
      have h := hsame τ (hr.suffix.trans (hwrite.trans hlast))
      have h₁ := hsame τ₁ (hwrite.trans hlast)
      cases side with
      | read => exact .inl (hlast.subset (hwrite.subset (hr.served h hm)))
      | write =>
        rcases Writes.served hr hw h h₁ hm with hcall | ⟨hp, hcall⟩
        · exact .inl (hlast.subset hcall)
        · exact .inr ⟨rfl, hp, hlast.subset hcall⟩
    · exact ih he hsame

theorem each_of_polled {P : List FileObs → FileObs → Prop}
    (hτ : ∀ o ∈ τ, ∃ tvp timeout evs, o = .polled tvp timeout evs)
    (hP : ∀ older tvp timeout evs, P older (.polled tvp timeout evs)) : Each P τ := by
  refine each_iff.mpr fun newer o older he => ?_
  obtain ⟨tvp, timeout, evs, rfl⟩ := hτ o (by simp [he])
  exact hP older tvp timeout evs

end History

section Performed

variable {w : LoopWorld κ} {n : Nat} {l l' : AeEventLoop κ}

end Performed

section Call

variable {w : LoopWorld κ} {flags : BitVec 32} {l : AeEventLoop κ}

theorem pollPart_follows (w : LoopWorld κ) (flags : BitVec 32) {q : TimerList} (hq : Implements l.timers q) :
    ∃ fired l₀, pollPart w flags l = .ok (fired, l₀) ∧ Follows l l₀ ∧
      (SkipsPoll l.files.maxfd flags ∧ fired = [] ∧ l₀.seen = [] ∨
        ¬ SkipsPoll l.files.maxfd flags ∧ fired = firedEvents w l ∧
        ∃ tvp, l₀.seen = [.polled tvp (epollTimeout tvp) fired] ∧
          (flags &&& AE_DONT_WAIT ≠ 0 → tvp = some { tv_sec := 0, tv_usec := 0 })) := by
  obtain ⟨n, tvp, hrun, hskip, hdont⟩ := pollTimeout_cases w.toWorld l.files.maxfd flags hq.chain
  have hq' : Implements { l.timers with clockReads := n } { q with clockReads := n } :=
    ⟨congrArg (fun s : TimerState => { s with clockReads := n }) hq.state, hq.chain⟩
  have htrace : ∃ τ, l.timers.trace = τ ++ l.timers.trace ∧ ∀ o ∈ τ, o.isEdit = true :=
    ⟨[], rfl, by simp⟩
  rw [pollPart, hrun, ok_bind]
  cases tvp with
  | none =>
    refine ⟨[], _, rfl, ⟨fun _ => rfl, rfl, ⟨_, hq'⟩, htrace⟩, .inl ⟨hskip.mp rfl, rfl, rfl⟩⟩
  | some tvp =>
    refine ⟨firedEvents w l, _, rfl, ⟨fun _ => rfl, rfl, ⟨_, hq'⟩, htrace⟩,
      .inr ⟨fun h => ?_, rfl, tvp, rfl, fun h => hdont h tvp rfl⟩⟩
    cases hskip.mpr h

theorem aeProcessEvents_seen {k : Nat} {l' : AeEventLoop κ} (h : filePart w flags l = .ok (k, l'))
    {n : Nat} {p : Processed κ} (hp : aeProcessEvents w n flags l = .ok p) :
    p.loop.seen = l'.seen := by
  rw [aeProcessEvents, h, ok_bind] at hp
  split at hp
  · obtain ⟨pass, -, hpass⟩ := bind_eq_ok.mp hp
    cases hpass
    rfl
  · cases hp
    rfl

theorem aeProcessEvents_starts {k : Nat} {l' : AeEventLoop κ} (h : filePart w flags l = .ok (k, l'))
    {q : TimerList} (hq : Implements l'.timers q) : ∃ p, aeProcessEvents w 0 flags l = .ok p := by
  rw [aeProcessEvents, h, ok_bind]
  split
  · obtain ⟨p, hp, -⟩ := enterPass_ok w.toWorld hq
    rw [processTimeEvents, hp, ok_bind]
    exact ⟨_, rfl⟩
  · exact ⟨_, rfl⟩

theorem filePart_serves (flags : BitVec 32) {q : TimerList} (hq : Implements l.timers q)
    (hfd : ∀ e ∈ firedEvents w l, e.fd < l.files.setsize) :
    ∃ fired l₀ l', pollPart w flags l = .ok (fired, l₀) ∧ Follows l l₀ ∧
      (∀ e ∈ fired, e.fd < l.files.setsize) ∧
      (SkipsPoll l.files.maxfd flags ∧ fired = [] ∧ l₀.seen = [] ∨
        ¬ SkipsPoll l.files.maxfd flags ∧ fired = firedEvents w l ∧
        ∃ tvp, l₀.seen = [.polled tvp (epollTimeout tvp) fired] ∧
          (flags &&& AE_DONT_WAIT ≠ 0 → tvp = some { tv_sec := 0, tv_usec := 0 })) ∧
      dispatch w fired l₀ = .ok l' ∧ filePart w flags l = .ok (fired.length, l') ∧ Follows l l' ∧
      Serves l.files fired l₀.seen l'.seen := by
  obtain ⟨fired, l₀, hpoll, hfollows, hcase⟩ := pollPart_follows w flags hq
  have hin : ∀ e ∈ fired, e.fd < l.files.setsize := by
    rcases hcase with ⟨-, rfl, -⟩ | ⟨-, rfl, -⟩
    · simp
    · exact hfd
  obtain ⟨l', hrun, h', hs⟩ := dispatch_follows (w := w) hfollows hin
  refine ⟨fired, l₀, l', hpoll, hfollows, hin, hcase, hrun, ?_, h', hs⟩
  rw [filePart, hpoll, ok_bind, hrun]
  rfl

end Call

/-- Everything fires, the kernel takes every change, and the handler at 1 deletes
the read event of descriptor 4. -/
def batchWorld : LoopWorld Unit where
  time _ := 0
  gettimeofday _ := .ofMs 0
  timeProc _ _ _ _ := { script := .done, retval := AE_NOMORE, finalizer := .done }
  epoll_ctl _ _ _ _ := (true, ())
  epoll_wait _ := [{ events := EPOLLIN ||| EPOLLOUT, fd := 3 }, { events := EPOLLIN, fd := 4 }]
  fileProc _ proc _ _ _ := if proc = 1 then [.delete 4 AE_READABLE] else []

def batchTable : FileTable Unit :=
  runFileOps batchWorld.epoll_ctl
    { maxfd := -1, setsize := 8, events := List.replicate 8 noEvent, apidata := (), events_length := rfl }
    [.create 3 (AE_READABLE ||| AE_WRITABLE) 1 9, .create 4 AE_READABLE 2 9]

def batchLoop : AeEventLoop Unit :=
  { files := batchTable, timers := initTimers batchWorld.toWorld, polls := 0, calls := 0, seen := [] }

end CPractice
