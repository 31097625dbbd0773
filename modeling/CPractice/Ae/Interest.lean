import CPractice.Ae.FileRuns

/-! The masks of the loop and the interest set of the kernel. The kernel here
does what `epoll_ctl` documents: an ADD fails for a descriptor that is present,
or for a reason of its own, and a MOD or a DEL fails for one that is absent. -/

namespace CPractice

structure Interest where
  /-- The event bits of every descriptor in the set. -/
  bits : Nat → Option (BitVec 32)
  /-- Whether the n-th call, if it is an ADD, fails for another reason. -/
  refuses : Nat → Bool
  /-- The calls so far, latest first, each with whether its descriptor was present. -/
  calls : List (EpollOp × Nat × Bool)

def Interest.ctl : EpollCtl Interest := fun k op fd ev =>
  let present := (k.bits fd).isSome
  let logged := { k with calls := (op, fd, present) :: k.calls }
  match op with
  | .add =>
    if present || k.refuses k.calls.length then (false, logged)
    else (true, { logged with bits := Function.update k.bits fd (some ev) })
  | .mod =>
    if present then (true, { logged with bits := Function.update k.bits fd (some ev) })
    else (false, logged)
  | .del =>
    if present then (true, { logged with bits := Function.update k.bits fd none })
    else (false, logged)

def GoodCall (c : EpollOp × Nat × Bool) : Prop := (c.1 = .add ↔ c.2.2 = false)

structure Mirrors (t : FileTable Interest) : Prop where
  bits_eq : ∀ fd, t.apidata.bits fd =
    if (t.event fd).mask = AE_NONE then none else some (epollEvents (t.event fd).mask)
  calls_good : ∀ c ∈ t.apidata.calls, GoodCall c

theorem Mirrors.bits_unregistered {t : FileTable Interest} (h : Mirrors t) {fd : Nat}
    (hr : (t.event fd).mask = AE_NONE) : t.apidata.bits fd = none := by
  rw [h.bits_eq, if_pos hr]

theorem Mirrors.bits_registered {t : FileTable Interest} (h : Mirrors t) {fd : Nat}
    (hr : (t.event fd).mask ≠ AE_NONE) :
    t.apidata.bits fd = some (epollEvents (t.event fd).mask) := by
  rw [h.bits_eq, if_neg hr]

theorem Mirrors.step {t t' : FileTable Interest} (h : Mirrors t) (fd : Nat)
    {c : EpollOp × Nat × Bool} (hc : GoodCall c)
    (hcalls : t'.apidata.calls = c :: t.apidata.calls)
    (hfd : t'.apidata.bits fd =
      if (t'.event fd).mask = AE_NONE then none else some (epollEvents (t'.event fd).mask))
    (hother : ∀ j, j ≠ fd → t'.apidata.bits j = t.apidata.bits j ∧ t'.event j = t.event j) :
    Mirrors t' := by
  constructor
  · intro j
    by_cases hj : j = fd
    · rw [hj, hfd]
    · rw [(hother j hj).1, (hother j hj).2, h.bits_eq]
  · intro d hd
    rw [hcalls] at hd
    rcases List.mem_cons.mp hd with rfl | hd
    · exact hc
    · exact h.calls_good d hd

theorem aeCreateFileEvent_mirrors {t : FileTable Interest} (h : Mirrors t) {mask : BitVec 32}
    (hm : mask ≠ 0) (fd : Nat) (proc clientData : Ptr) :
    Mirrors (aeCreateFileEvent Interest.ctl t fd mask proc clientData).2 := by
  rcases aeCreateFileEvent_cases Interest.ctl t fd mask proc clientData with
    ⟨-, he⟩ | ⟨-, hadd, he⟩ | ⟨-, hadd, t', he, -, -, hapi, hself, hother⟩ <;> rw [he]
  · exact h
  · by_cases hr : (t.event fd).mask = AE_NONE
    · have hb := h.bits_unregistered hr
      have hk : (aeApiAddEvent Interest.ctl t fd mask).2.apidata =
          { t.apidata with calls := (.add, fd, false) :: t.apidata.calls } := by
        by_cases href : t.apidata.refuses t.apidata.calls.length = true
        · simp [aeApiAddEvent, hr, Interest.ctl, hb, href]
        · simp [aeApiAddEvent, hr, Interest.ctl, hb, href] at hadd
      refine h.step fd (c := (.add, fd, false)) (by simp [GoodCall]) (by rw [hk]) ?_ ?_
      · rw [hk]
        exact h.bits_eq fd
      · intro j _
        rw [hk]
        exact ⟨rfl, rfl⟩
    · simp [aeApiAddEvent, hr, Interest.ctl, h.bits_registered hr] at hadd
  · obtain ⟨c, hc, hk⟩ : ∃ c, GoodCall c ∧ t'.apidata =
        { t.apidata with
          calls := c :: t.apidata.calls
          bits := Function.update t.apidata.bits fd
            (some (epollEvents (mask ||| (t.event fd).mask))) } := by
      rw [hapi]
      by_cases hr : (t.event fd).mask = AE_NONE
      · have hb := h.bits_unregistered hr
        refine ⟨(.add, fd, false), by simp [GoodCall], ?_⟩
        by_cases href : t.apidata.refuses t.apidata.calls.length = true
        · simp [aeApiAddEvent, hr, Interest.ctl, hb, href] at hadd
        · simp [aeApiAddEvent, hr, Interest.ctl, hb, href]
      · refine ⟨(.mod, fd, true), by simp [GoodCall], ?_⟩
        simp [aeApiAddEvent, hr, Interest.ctl, h.bits_registered hr]
    refine h.step fd hc (by rw [hk]) ?_ ?_
    · rw [hk, hself, if_neg (register_mask_ne hm _ _ _)]
      simp [AeFileEvent.register, BitVec.or_comm]
    · intro j hj
      rw [hk]
      exact ⟨Function.update_of_ne hj _ _, hother j hj⟩

theorem aeDeleteFileEvent_mirrors {t : FileTable Interest} (h : Mirrors t) (fd : Nat)
    (mask : BitVec 32) : Mirrors (aeDeleteFileEvent Interest.ctl t fd mask) := by
  rcases aeDeleteFileEvent_cases Interest.ctl t fd mask with
    ⟨-, he⟩ | ⟨hr, t', he, -, hother, -, hapi⟩ <;> rw [he]
  · exact h
  · have hb := h.bits_registered hr
    by_cases hm : (t'.event fd).mask = AE_NONE
    · have hk : t'.apidata = { t.apidata with
          calls := (.del, fd, true) :: t.apidata.calls
          bits := Function.update t.apidata.bits fd none } := by
        simp [hapi, hm, Interest.ctl, hb]
      refine h.step fd (c := (.del, fd, true)) (by simp [GoodCall]) (by rw [hk]) ?_ ?_
      · simp [hk, hm]
      · intro j hj
        rw [hk]
        exact ⟨Function.update_of_ne hj _ _, hother j hj⟩
    · have hk : t'.apidata = { t.apidata with
          calls := (.mod, fd, true) :: t.apidata.calls
          bits := Function.update t.apidata.bits fd (some (epollEvents (t'.event fd).mask)) } := by
        simp [hapi, hm, Interest.ctl, hb]
      refine h.step fd (c := (.mod, fd, true)) (by simp [GoodCall]) (by rw [hk]) ?_ ?_
      · simp [hk, hm]
      · intro j hj
        rw [hk]
        exact ⟨Function.update_of_ne hj _ _, hother j hj⟩

theorem aeResizeSetSize_mirrors {t : FileTable Interest} (h : Mirrors t)
    (hg : IsGreatest t.heights t.maxfd) (setsize : Nat) (fresh : Nat → AeFileEvent) :
    Mirrors (aeResizeSetSize t setsize fresh).2 := by
  rcases aeResizeSetSize_cases t setsize fresh with
    ⟨-, he⟩ | ⟨-, -, he⟩ | ⟨-, hlt, t', he, -, -, hapi, hev⟩ <;> rw [he]
  · exact h
  · exact h
  · refine ⟨fun fd => ?_, fun c hc => h.calls_good c (hapi ▸ hc)⟩
    have hfd := event_resizedEvents hg hlt hev fd
    rw [hapi, h.bits_eq]
    rcases le_or_gt (fd : Int) t.maxfd with hle | hgt
    · rw [hfd.1 hle]
    · rw [if_pos (hfd.2 hgt).2, if_pos (hfd.2 hgt).1]

theorem epollEvents_in_iff (mask : BitVec 32) :
    epollEvents mask &&& EPOLLIN ≠ 0 ↔ mask &&& AE_READABLE ≠ 0 := by
  unfold epollEvents
  split_ifs with h₁ h₂ h₂ <;> simp_all [EPOLLIN, EPOLLOUT]

theorem epollEvents_out_iff (mask : BitVec 32) :
    epollEvents mask &&& EPOLLOUT ≠ 0 ↔ mask &&& AE_WRITABLE ≠ 0 := by
  unfold epollEvents
  split_ifs with h₁ h₂ h₂ <;> simp_all [EPOLLIN, EPOLLOUT]

def emptyInterest (refuses : Nat → Bool) : Interest := { bits := fun _ => none, refuses, calls := [] }

theorem runFileOps_mirrors {setsize : Nat} {fresh : Nat → AeFileEvent} {refuses : Nat → Bool}
    {t₀ : FileTable Interest} {ops : List FileOp}
    (h₀ : aeCreateEventLoop setsize fresh (some (emptyInterest refuses)) = some t₀)
    (hops : ∀ op ∈ ops, op.Allowed) : Mirrors (runFileOps Interest.ctl t₀ ops) := by
  have hapi : t₀.apidata = emptyInterest refuses := by
    obtain ⟨k, hk, rfl⟩ := Option.map_eq_some_iff.mp h₀
    exact (Option.some.inj hk).symm
  have hinit : Mirrors t₀ := by
    refine ⟨fun fd => ?_, by simp [hapi, emptyInterest]⟩
    rw [hapi, if_pos (aeCreateEventLoop_event h₀ fd)]
    rfl
  refine (runFileOps_induction (P := fun t => IsGreatest t.heights t.maxfd ∧ Mirrors t)
    ⟨aeCreateEventLoop_isGreatest h₀, hinit⟩ ?_ hops).2
  rintro t op ⟨hg, hm⟩ hop
  cases op with
  | create fd mask proc clientData =>
    have hne := mask_ne_zero_of_allowed hop
    exact ⟨aeCreateFileEvent_isGreatest hg hne _ fd proc clientData,
      aeCreateFileEvent_mirrors hm hne fd proc clientData⟩
  | delete fd mask =>
    exact ⟨aeDeleteFileEvent_isGreatest hg _ fd mask, aeDeleteFileEvent_mirrors hm fd mask⟩
  | resize setsize fresh =>
    exact ⟨aeResizeSetSize_isGreatest hg setsize fresh, aeResizeSetSize_mirrors hm hg setsize fresh⟩

/-- The kernel set and the masks agree after every run, and no call of the run
was one that `epoll_ctl` rejects for the presence of its descriptor. -/
theorem runFileOps_interest {setsize : Nat} {fresh : Nat → AeFileEvent} {refuses : Nat → Bool}
    {t₀ t : FileTable Interest} {ops : List FileOp}
    (h₀ : aeCreateEventLoop setsize fresh (some (emptyInterest refuses)) = some t₀)
    (hops : ∀ op ∈ ops, op.Allowed) (ht : t = runFileOps Interest.ctl t₀ ops) :
    (∀ fd, (t.apidata.bits fd).isSome ↔ (t.event fd).mask ≠ AE_NONE) ∧
    (∀ fd ev, t.apidata.bits fd = some ev →
      (ev &&& EPOLLIN ≠ 0 ↔ (t.event fd).mask &&& AE_READABLE ≠ 0) ∧
      (ev &&& EPOLLOUT ≠ 0 ↔ (t.event fd).mask &&& AE_WRITABLE ≠ 0)) ∧
    (∀ op fd present, (op, fd, present) ∈ t.apidata.calls →
      (op = .add → present = false) ∧ (op = .mod ∨ op = .del → present = true)) := by
  have hm : Mirrors t := ht ▸ runFileOps_mirrors h₀ hops
  refine ⟨?_, ?_, ?_⟩
  · intro fd
    rw [hm.bits_eq]
    split_ifs with hr <;> simp [hr]
  · intro fd ev hev
    rw [hm.bits_eq] at hev
    split_ifs at hev with hr
    · cases hev
      exact ⟨epollEvents_in_iff _, epollEvents_out_iff _⟩
  · intro op fd present hc
    have hgood := hm.calls_good _ hc
    cases op <;> cases present <;> simp_all [GoodCall]

theorem sampleFileOps_interest : ∃ t₀ t : FileTable Interest,
    aeCreateEventLoop 4 (fun _ => noEvent) (some (emptyInterest fun n => n % 2 == 1)) = some t₀ ∧
    t = runFileOps Interest.ctl t₀ sampleFileOps ∧
    ∀ fd, (t.apidata.bits fd).isSome ↔ (t.event fd).mask ≠ AE_NONE := by
  have hops : ∀ op ∈ sampleFileOps, op.Allowed := by simp [sampleFileOps, FileOp.Allowed]
  obtain ⟨t₀, h₀⟩ : ∃ t₀, aeCreateEventLoop 4 (fun _ => noEvent)
      (some (emptyInterest fun n => n % 2 == 1)) = some t₀ := ⟨_, rfl⟩
  exact ⟨t₀, _, h₀, rfl, (runFileOps_interest h₀ hops rfl).1⟩

end CPractice
