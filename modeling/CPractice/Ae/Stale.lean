import CPractice.Ae.Batch

/-! Which registration a handler of the dispatch loop belongs to. The loop looks at
mask bits only, so a descriptor that a handler registers anew while it waits for its
turn in the batch is served for the readiness of the old registration. -/

namespace CPractice

open CMem History

variable {κ : Type}

/-- The registration was in the table `t` when `aeApiPoll` returned and has been
neither replaced nor deleted since. -/
def OldRegistration (t : FileTable κ) (older : List FileObs) : FileObs → Prop
  | .called side fd proc _ _ =>
    (t.event fd).mask &&& side.bit ≠ 0 ∧ proc = (t.event fd).proc side ∧
      (∀ mask proc clientData, .created fd mask proc clientData AE_OK ∈ older → mask &&& side.bit = 0) ∧
      ∀ mask, .deleted fd mask ∈ older → mask &&& side.bit = 0
  | _ => True

/-- The last thing the handlers did to this bit of `fd` was to register it. -/
def renewed (side : Side) (fd : Nat) : List FileObs → Bool
  | [] => false
  | .created fd' mask _ _ rc :: τ =>
    if fd' = fd ∧ rc = AE_OK ∧ mask &&& side.bit ≠ 0 then true else renewed side fd τ
  | .deleted fd' mask :: τ => if fd' = fd ∧ mask &&& side.bit ≠ 0 then false else renewed side fd τ
  | _ :: τ => renewed side fd τ

/-- The loop where it is about to look at one bit of a descriptor that fired. -/
structure Check (κ : Type) where
  side : Side
  event : AeFiredEvent
  rfired : Bool
  loop : AeEventLoop κ

def checks (w : LoopWorld κ) : List AeFiredEvent → AeEventLoop κ → List (Check κ)
  | [], _ => []
  | e :: fired, l =>
    { side := .read, event := e, rfired := false, loop := l } ::
      match readPart w l e with
      | .error _ => []
      | .ok (rfired, l) =>
        { side := .write, event := e, rfired, loop := l } ::
          match writePart w rfired l e with
          | .error _ => []
          | .ok l => checks w fired l

/-- The bit fired and a handler of this call has registered it, and the call is not
saved by the rule for equal handlers. -/
def Check.Stale (c : Check κ) : Prop :=
  c.event.mask &&& c.side.bit ≠ 0 ∧ renewed c.side c.event.fd c.loop.seen = true ∧
    ¬ (c.rfired = true ∧ (c.loop.files.event c.event.fd).wfileProc =
      (c.loop.files.event c.event.fd).rfileProc)

section History

variable {t : FileTable κ} {e : AeFiredEvent} {τ τ' : List FileObs}

theorem register_bit (fe : AeFileEvent) (mask : BitVec 32) (proc clientData : Ptr) (side : Side) :
    (fe.register mask proc clientData).mask &&& side.bit ≠ 0 ↔
      fe.mask &&& side.bit ≠ 0 ∨ mask &&& side.bit ≠ 0 :=
  side_or side fe.mask mask

theorem register_proc_of_zero {fe : AeFileEvent} {mask : BitVec 32} {side : Side}
    (h : mask &&& side.bit = 0) (proc clientData : Ptr) :
    (fe.register mask proc clientData).proc side = fe.proc side := by
  cases side with
  | read => exact if_neg (not_not.mpr h)
  | write => exact if_neg (not_not.mpr h)

theorem entry_of_renewed {side : Side} {fd : Nat} (h : renewed side fd τ = true) :
    (entry t τ fd).mask &&& side.bit ≠ 0 := by
  induction τ with
  | nil => cases h
  | cons o τ ih =>
    cases o with
    | polled tvp timeout fired => exact ih h
    | called side' fd' proc clientData mask => exact ih h
    | created fd' mask proc clientData rc =>
      rw [entry]
      by_cases hfd : fd' = fd ∧ rc = AE_OK
      · rw [if_pos hfd, register_bit]
        by_cases hm : mask &&& side.bit ≠ 0
        · exact .inr hm
        · exact .inl (ih (by rwa [renewed, if_neg fun hh => hm hh.2.2] at h))
      · rw [if_neg hfd]
        exact ih (by rwa [renewed, if_neg fun hh => hfd ⟨hh.1, hh.2.1⟩] at h)
    | deleted fd' mask =>
      rw [renewed] at h
      by_cases hm : fd' = fd ∧ mask &&& side.bit ≠ 0
      · rw [if_pos hm] at h
        cases h
      · rw [if_neg hm] at h
        rw [entry]
        by_cases hfd : fd' = fd
        · rw [if_pos hfd]
          exact (side_andNot side _ mask).mpr ⟨ih h, not_not.mp fun hh => hm ⟨hfd, hh⟩⟩
        · rw [if_neg hfd]
          exact ih h

theorem created_of_renewed {side : Side} {fd : Nat} (h : renewed side fd τ = true) :
    ∃ mask proc clientData, .created fd mask proc clientData AE_OK ∈ τ ∧ mask &&& side.bit ≠ 0 := by
  induction τ with
  | nil => cases h
  | cons o τ ih =>
    have hlift (hτ : renewed side fd τ = true) : ∃ mask proc clientData,
        .created fd mask proc clientData AE_OK ∈ o :: τ ∧ mask &&& side.bit ≠ 0 := by
      obtain ⟨mask, proc, clientData, hm, hbit⟩ := ih hτ
      exact ⟨mask, proc, clientData, List.mem_cons_of_mem _ hm, hbit⟩
    cases o with
    | polled tvp timeout fired => exact hlift h
    | called side' fd' proc clientData mask => exact hlift h
    | created fd' mask proc clientData rc =>
      rw [renewed] at h
      split_ifs at h with hc
      · obtain ⟨rfl, rfl, hbit⟩ := hc
        exact ⟨mask, proc, clientData, List.mem_cons_self, hbit⟩
      · exact hlift h
    | deleted fd' mask =>
      rw [renewed] at h
      split_ifs at h with hc
      exact hlift h

theorem entry_of_not_renewed {side : Side} {fd : Nat}
    (hbit : (entry t τ fd).mask &&& side.bit ≠ 0) (h : renewed side fd τ = false) :
    (t.event fd).mask &&& side.bit ≠ 0 ∧ (entry t τ fd).proc side = (t.event fd).proc side ∧
      (∀ mask proc clientData, .created fd mask proc clientData AE_OK ∈ τ → mask &&& side.bit = 0) ∧
      ∀ mask, .deleted fd mask ∈ τ → mask &&& side.bit = 0 := by
  induction τ with
  | nil => exact ⟨hbit, rfl, by simp, by simp⟩
  | cons o τ ih =>
    cases o with
    | polled tvp timeout fired =>
      obtain ⟨h₁, h₂, h₃, h₄⟩ := ih hbit h
      exact ⟨h₁, h₂, by simpa using h₃, by simpa using h₄⟩
    | called side' fd' proc clientData mask =>
      obtain ⟨h₁, h₂, h₃, h₄⟩ := ih hbit h
      exact ⟨h₁, h₂, by simpa using h₃, by simpa using h₄⟩
    | created fd' mask proc clientData rc =>
      rw [renewed] at h
      rw [entry] at hbit ⊢
      split_ifs at h with hc
      by_cases hfd : fd' = fd ∧ rc = AE_OK
      · have hzero : mask &&& side.bit = 0 := not_not.mp fun hm => hc ⟨hfd.1, hfd.2, hm⟩
        rw [if_pos hfd] at hbit ⊢
        have hold := ((register_bit _ _ _ _ side).mp hbit).resolve_right (not_not.mpr hzero)
        obtain ⟨h₁, h₂, h₃, h₄⟩ := ih hold h
        refine ⟨h₁, (register_proc_of_zero hzero _ _).trans h₂, ?_, by simpa using h₄⟩
        intro mask' proc' clientData' hm
        rcases List.mem_cons.mp hm with he | hm
        · cases he
          exact hzero
        · exact h₃ mask' proc' clientData' hm
      · rw [if_neg hfd] at hbit ⊢
        obtain ⟨h₁, h₂, h₃, h₄⟩ := ih hbit h
        refine ⟨h₁, h₂, ?_, by simpa using h₄⟩
        intro mask' proc' clientData' hm
        rcases List.mem_cons.mp hm with he | hm
        · cases he
          exact absurd ⟨rfl, rfl⟩ hfd
        · exact h₃ mask' proc' clientData' hm
    | deleted fd' mask =>
      rw [entry] at hbit ⊢
      by_cases hfd : fd' = fd
      · rw [if_pos hfd] at hbit ⊢
        obtain ⟨hold, hzero⟩ := (side_andNot side _ mask).mp hbit
        rw [renewed, if_neg fun hh => hh.2 hzero] at h
        obtain ⟨h₁, h₂, h₃, h₄⟩ := ih hold h
        refine ⟨h₁, by cases side <;> exact h₂, by simpa using h₃, ?_⟩
        intro mask' hm
        rcases List.mem_cons.mp hm with he | hm
        · cases he
          exact hzero
        · exact h₄ mask' hm
      · rw [if_neg hfd] at hbit ⊢
        rw [renewed, if_neg fun hh => hfd hh.1] at h
        obtain ⟨h₁, h₂, h₃, h₄⟩ := ih hbit h
        refine ⟨h₁, h₂, by simpa using h₃, ?_⟩
        intro mask' hm
        rcases List.mem_cons.mp hm with he | hm
        · cases he
          exact absurd rfl hfd
        · exact h₄ mask' hm

def NotRenewed (older : List FileObs) : FileObs → Prop
  | .called side fd _ _ _ => renewed side fd older = false
  | _ => True

theorem oldRegistration_iff {fired : List AeFiredEvent} {o : FileObs} (h : Valid t fired τ o) :
    OldRegistration t τ o ↔ NotRenewed τ o := by
  cases o with
  | called side fd proc clientData mask =>
    obtain ⟨-, -, hbit, rfl, -⟩ := h
    constructor
    · rintro ⟨-, -, hcreated, -⟩
      by_contra hr
      obtain ⟨mask, proc, clientData, hm, hne⟩ := created_of_renewed (Bool.eq_true_of_not_eq_false hr)
      exact hne (hcreated mask proc clientData hm)
    · exact entry_of_not_renewed hbit
  | _ => exact Iff.rfl

theorem Calls.notRenewed_iff {side : Side} (h : Calls t side e τ τ') :
    Each NotRenewed τ' ↔ renewed side e.fd τ = false ∧ Each NotRenewed τ := by
  obtain ⟨acts, hacts, rfl⟩ := h
  induction acts with
  | nil => exact Iff.rfl
  | cons o acts ih =>
    have ho : ∀ older, NotRenewed older o := by
      cases o with
      | called side' fd proc clientData mask => exact absurd (hacts _ List.mem_cons_self) (by simp [FileObs.isEdit])
      | _ => exact fun _ => trivial
    rw [← ih fun o ho => hacts o (List.mem_cons_of_mem _ ho)]
    exact ⟨fun h => h.2, fun h => ⟨ho _, h⟩⟩

/-- A bit that a handler has registered is in the table, so the loop only skips it
when it did not fire. -/
theorem fired_of_renewed {side : Side} (hm : (entry t τ e.fd).mask &&& e.mask &&& side.bit = 0) :
    ¬ (e.mask &&& side.bit ≠ 0 ∧ renewed side e.fd τ = true) := by
  rintro ⟨hfired, hr⟩
  exact (side_and side _ _).mpr ⟨entry_of_renewed hr, hfired⟩ hm

theorem Reads.notRenewed_iff {r : Bool} (h : Reads t e τ r τ') :
    Each NotRenewed τ' ↔ ¬ (e.mask &&& Side.read.bit ≠ 0 ∧ renewed .read e.fd τ = true) ∧
      Each NotRenewed τ := by
  cases h with
  | skip hm => exact ⟨fun h => ⟨fired_of_renewed hm, h⟩, fun h => h.2⟩
  | call hm hc =>
    rw [hc.notRenewed_iff, ← Bool.not_eq_true]
    have hfired := ((side_and .read _ _).mp hm).2
    exact and_congr_left fun _ => ⟨fun hn h => hn h.2, fun hn hr => hn ⟨hfired, hr⟩⟩

theorem Writes.notRenewed_iff {r : Bool} (h : Writes t e r τ τ') :
    Each NotRenewed τ' ↔ ¬ (e.mask &&& Side.write.bit ≠ 0 ∧ renewed .write e.fd τ = true ∧
      ¬ (r = true ∧ (entry t τ e.fd).wfileProc = (entry t τ e.fd).rfileProc)) ∧
      Each NotRenewed τ := by
  cases h with
  | skip hm => exact ⟨fun h => ⟨fun hh => fired_of_renewed hm ⟨hh.1, hh.2.1⟩, h⟩, fun h => h.2⟩
  | shared hr hp => exact ⟨fun h => ⟨fun hh => hh.2.2 ⟨hr, hp⟩, h⟩, fun h => h.2⟩
  | call hm hp hc =>
    rw [hc.notRenewed_iff, ← Bool.not_eq_true]
    have hfired := ((side_and .write _ _).mp hm).2
    refine and_congr_left fun _ => ⟨fun hn h => hn h.2.1, fun hn hr => hn ⟨hfired, hr, ?_⟩⟩
    exact fun hh => hp hh.1 hh.2

end History

section Loop

variable {w : LoopWorld κ} {flags : BitVec 32} {l₀ l : AeEventLoop κ}

theorem dispatch_notRenewed_iff (h : Follows l₀ l) {fired : List AeFiredEvent}
    (hfd : ∀ e ∈ fired, e.fd < l₀.files.setsize) {l' : AeEventLoop κ}
    (hrun : dispatch w fired l = .ok l') :
    Each NotRenewed l'.seen ↔ (∀ c ∈ checks w fired l, ¬ c.Stale) ∧ Each NotRenewed l.seen := by
  induction fired generalizing l with
  | nil =>
    cases hrun
    simp [checks]
  | cons e fired ih =>
    have hin : ¬ e.fd ≥ l.files.setsize := by
      rw [h.setsize]
      exact Nat.not_le.mpr (hfd e (by simp))
    obtain ⟨rfired, l₁, hrun₁, h₁, hr⟩ := readPart_follows (w := w) h e
    obtain ⟨l₂, hrun₂, h₂, hw⟩ := writePart_follows (w := w) h₁ rfired e
    rw [dispatch, dispatchOne, if_neg hin, hrun₁, ok_bind, hrun₂, ok_bind] at hrun
    rw [ih h₂ (fun e he => hfd e (by simp [he])) hrun, hw.notRenewed_iff, hr.notRenewed_iff, checks]
    simp only [hrun₁, hrun₂, List.forall_mem_cons, Check.Stale, ← h₁.event e.fd]
    simp only [Bool.false_eq_true, false_and, not_false_eq_true, and_true]
    tauto

end Loop

def ServesOldOnly (w : LoopWorld κ) (flags : BitVec 32) (l : AeEventLoop κ) : Prop :=
  ∀ n p, aeProcessEvents w n flags l = .ok p →
    ∀ newer o older, p.loop.seen = newer ++ o :: older → OldRegistration l.files older o

/-- Readiness reaches a wrong registration exactly when some bit that fired has been
registered by a handler of the same call by the time the loop comes to it. -/
theorem servesOldOnly_iff {w : LoopWorld κ} {flags : BitVec 32} {l : AeEventLoop κ} {q : TimerList}
    (hq : Implements l.timers q) (hfd : ∀ e ∈ firedEvents w l, e.fd < l.files.setsize) :
    ServesOldOnly w flags l ↔ ∀ fired l₀, pollPart w flags l = .ok (fired, l₀) →
      ∀ c ∈ checks w fired l₀, ¬ c.Stale := by
  obtain ⟨fired, l₀, l', hpoll, hfollows, hin, hcase, hrun, hfile, hfollows', hs⟩ :=
    filePart_serves flags hq hfd
  have hpolled : ∀ o ∈ l₀.seen, ∃ tvp timeout evs, o = .polled tvp timeout evs := by
    rcases hcase with ⟨-, -, hseen⟩ | ⟨-, -, tvp, hseen, -⟩ <;> simp [hseen]
  have hvalid := each_iff.mp (hs.valid (fun e he => he)
    (each_of_polled hpolled fun _ _ _ _ => trivial))
  have hstart : Each NotRenewed l₀.seen := each_of_polled hpolled fun _ _ _ _ => trivial
  have hiff : (∀ newer o older, l'.seen = newer ++ o :: older → OldRegistration l.files older o) ↔
      ∀ c ∈ checks w fired l₀, ¬ c.Stale := by
    rw [← and_iff_left (a := ∀ c ∈ checks w fired l₀, ¬ c.Stale) hstart,
      ← dispatch_notRenewed_iff hfollows hin hrun, each_iff]
    exact forall_congr' fun newer => forall_congr' fun o => forall_congr' fun older =>
      forall_congr' fun he => oldRegistration_iff (hvalid newer o older he)
  constructor
  · intro hall fired' l₀' hpoll'
    rw [hpoll] at hpoll'
    cases hpoll'
    obtain ⟨q', hq'⟩ := hfollows'.timers
    obtain ⟨p, hp⟩ := aeProcessEvents_starts hfile hq'
    rw [← hiff, ← aeProcessEvents_seen hfile hp]
    exact hall 0 p hp
  · intro hcond n p hp
    rw [aeProcessEvents_seen hfile hp]
    exact hiff.mpr (hcond fired l₀ hpoll)

theorem batchLoop_servesOldOnly : ServesOldOnly batchWorld AE_FILE_EVENTS batchLoop := by
  have hq : Implements batchLoop.timers ⟨(initTimers batchWorld.toWorld).toTimerState, []⟩ := ⟨rfl, rfl⟩
  refine (servesOldOnly_iff hq (by decide)).mpr fun fired l₀ hpoll c hc => ?_
  have hcode : pollPart batchWorld AE_FILE_EVENTS batchLoop = .ok _ := rfl
  rw [hcode] at hpoll
  cases hpoll
  rintro ⟨-, hr, -⟩
  revert c
  decide

/-- The handler at 1 replaces the registration of descriptor 7, as a server does that
closes a connection and accepts a new one under the same number. -/
def reuseWorld : LoopWorld Unit := { batchWorld with
  epoll_wait := fun _ => [{ events := EPOLLIN, fd := 5 }, { events := EPOLLIN, fd := 7 }]
  fileProc := fun _ proc _ _ _ =>
    if proc = 1 then [.delete 7 AE_READABLE, .create 7 AE_READABLE 3 0] else [] }

def reuseLoop : AeEventLoop Unit := { batchLoop with
  files := runFileOps batchWorld.epoll_ctl batchTable [.create 5 AE_READABLE 1 9, .create 7 AE_READABLE 2 9] }

theorem serves_new_registration :
    ¬ ∀ (w : LoopWorld Unit) (flags : BitVec 32) (l : AeEventLoop Unit) (q : TimerList),
      Implements l.timers q → (∀ e ∈ firedEvents w l, e.fd < l.files.setsize) →
      ServesOldOnly w flags l := by
  intro hall
  have h := hall reuseWorld AE_FILE_EVENTS reuseLoop ⟨(initTimers batchWorld.toWorld).toTimerState, []⟩
    ⟨rfl, rfl⟩ (by decide)
  have hcode : aeProcessEvents reuseWorld 0 AE_FILE_EVENTS reuseLoop = .ok _ := rfl
  have hold := h 0 _ hcode [] (.called .read 7 3 0 AE_READABLE) _ rfl
  exact absurd (hold.2.2.1 AE_READABLE 3 0 (by decide)) (by decide)

end CPractice
