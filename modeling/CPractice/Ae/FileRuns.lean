import CPractice.Ae.FileTable

/-! Runs of the file event calls, from the creation of the loop on. -/

namespace CPractice

variable {κ : Type}

inductive FileOp where
  | create (fd : Nat) (mask : BitVec 32) (proc clientData : Ptr)
  | delete (fd : Nat) (mask : BitVec 32)
  | resize (setsize : Nat) (fresh : Nat → AeFileEvent)

def FileOp.Allowed : FileOp → Prop
  | .create _ mask _ _ =>
    mask = AE_READABLE ∨ mask = AE_WRITABLE ∨ mask = AE_READABLE ||| AE_WRITABLE
  | .delete _ _ | .resize _ _ => True

def FileOp.exec (epoll_ctl : EpollCtl κ) (t : FileTable κ) : FileOp → FileTable κ
  | .create fd mask proc clientData => (aeCreateFileEvent epoll_ctl t fd mask proc clientData).2
  | .delete fd mask => aeDeleteFileEvent epoll_ctl t fd mask
  | .resize setsize fresh => (aeResizeSetSize t setsize fresh).2

def runFileOps (epoll_ctl : EpollCtl κ) (t : FileTable κ) (ops : List FileOp) : FileTable κ :=
  ops.foldl (FileOp.exec epoll_ctl) t

theorem mask_ne_zero_of_allowed {fd : Nat} {mask : BitVec 32} {proc clientData : Ptr}
    (h : (FileOp.create fd mask proc clientData).Allowed) : mask ≠ 0 := by
  rcases h with rfl | rfl | rfl <;> decide

theorem runFileOps_induction {P : FileTable κ → Prop} {epoll_ctl : EpollCtl κ} {t : FileTable κ}
    (h₀ : P t) (hstep : ∀ t op, P t → op.Allowed → P (FileOp.exec epoll_ctl t op))
    {ops : List FileOp} (hops : ∀ op ∈ ops, op.Allowed) : P (runFileOps epoll_ctl t ops) := by
  induction ops generalizing t with
  | nil => exact h₀
  | cons op ops ih =>
    exact ih (hstep t op h₀ (hops op (by simp))) (fun o ho => hops o (by simp [ho]))

theorem aeCreateEventLoop_event {setsize : Nat} {fresh : Nat → AeFileEvent} {api : Option κ}
    {t : FileTable κ} (h : aeCreateEventLoop setsize fresh api = some t) (fd : Nat) :
    (t.event fd).mask = AE_NONE := by
  obtain ⟨k, -, rfl⟩ := Option.map_eq_some_iff.mp h
  by_cases hfd : fd < setsize
  · simp [FileTable.event, List.getD, List.getElem?_range hfd]
  · rw [event_of_setsize_le (by simpa using hfd)]
    rfl

theorem aeCreateEventLoop_isGreatest {setsize : Nat} {fresh : Nat → AeFileEvent} {api : Option κ}
    {t : FileTable κ} (h : aeCreateEventLoop setsize fresh api = some t) :
    IsGreatest t.heights t.maxfd := by
  have hnone := aeCreateEventLoop_event h
  obtain ⟨k, -, rfl⟩ := Option.map_eq_some_iff.mp h
  refine ⟨.inl rfl, ?_⟩
  rintro x (rfl | ⟨fd, -, hr⟩)
  · exact le_refl _
  · exact absurd (hnone fd) hr

theorem runFileOps_isGreatest {epoll_ctl : EpollCtl κ} {t : FileTable κ}
    (h : IsGreatest t.heights t.maxfd) {ops : List FileOp} (hops : ∀ op ∈ ops, op.Allowed) :
    IsGreatest (runFileOps epoll_ctl t ops).heights (runFileOps epoll_ctl t ops).maxfd := by
  refine runFileOps_induction (P := fun t => IsGreatest t.heights t.maxfd) h ?_ hops
  intro t op ht hop
  cases op with
  | create fd mask proc clientData =>
    exact aeCreateFileEvent_isGreatest ht (mask_ne_zero_of_allowed hop) epoll_ctl fd proc clientData
  | delete fd mask => exact aeDeleteFileEvent_isGreatest ht epoll_ctl fd mask
  | resize setsize fresh => exact aeResizeSetSize_isGreatest ht setsize fresh

theorem aeResizeSetSize_err_iff {t : FileTable κ} (h : IsGreatest t.heights t.maxfd)
    (setsize : Nat) (fresh : Nat → AeFileEvent) :
    (aeResizeSetSize t setsize fresh).1 = AE_ERR ↔
      setsize ≠ t.setsize ∧ ∃ fd, setsize ≤ fd ∧ t.Registered fd := by
  rcases aeResizeSetSize_cases t setsize fresh with
    ⟨hs, he⟩ | ⟨hs, hmax, he⟩ | ⟨hs, hlt, t', he, -⟩ <;> rw [he]
  · simp [hs, AE_OK, AE_ERR]
  · simp only [true_iff]
    refine ⟨hs, ?_⟩
    rcases h.1 with h1 | ⟨fd, hfd, hr⟩
    · omega
    · exact ⟨fd, by omega, hr⟩
  · simp only [AE_OK, AE_ERR, false_iff, show ¬ (0 : Int) = -1 by decide]
    rintro ⟨-, fd, hle, hr⟩
    have := registered_of_isGreatest h hr
    omega

/-- After any run: `maxfd` is the greatest registered descriptor and lies inside
the table, a resize is refused exactly for a descriptor in use behind the new
size, a failed call changes no field and no slot, and a resize that succeeds
keeps every registration. -/
theorem runFileOps_consistent (epoll_ctl : EpollCtl κ) {setsize : Nat}
    {fresh : Nat → AeFileEvent} {api : Option κ} {t₀ t : FileTable κ} {ops : List FileOp}
    (h₀ : aeCreateEventLoop setsize fresh api = some t₀) (hops : ∀ op ∈ ops, op.Allowed)
    (ht : t = runFileOps epoll_ctl t₀ ops) :
    IsGreatest t.heights t.maxfd ∧ t.maxfd < t.setsize ∧
    (∀ fd : Nat, t.maxfd < fd → fd < t.setsize → (t.event fd).mask = AE_NONE) ∧
    (∀ n new, (aeResizeSetSize t n new).1 = AE_ERR ↔
      n ≠ t.setsize ∧ ∃ fd, n ≤ fd ∧ t.Registered fd) ∧
    (∀ n new, (aeResizeSetSize t n new).1 = AE_ERR → (aeResizeSetSize t n new).2 = t) ∧
    (∀ fd mask proc clientData t', aeCreateFileEvent epoll_ctl t fd mask proc clientData =
      (AE_ERR, t') → t'.maxfd = t.maxfd ∧ t'.setsize = t.setsize ∧ t'.events = t.events) ∧
    (∀ n new t', aeResizeSetSize t n new = (AE_OK, t') → t'.setsize = n ∧
      ∀ fd, (t.Registered fd → t'.event fd = t.event fd) ∧ (t'.Registered fd ↔ t.Registered fd)) := by
  have hg : IsGreatest t.heights t.maxfd :=
    ht ▸ runFileOps_isGreatest (aeCreateEventLoop_isGreatest h₀) hops
  refine ⟨hg, maxfd_lt_setsize hg, ?_, aeResizeSetSize_err_iff hg, ?_, ?_, ?_⟩
  · intro fd hfd _
    by_contra hr
    have := registered_of_isGreatest hg hr
    omega
  · intro n new herr
    rcases aeResizeSetSize_cases t n new with ⟨-, he⟩ | ⟨-, -, he⟩ | ⟨-, -, t', he, -⟩ <;>
      rw [he] at herr ⊢
    simp [AE_OK, AE_ERR] at herr
  · intro fd mask proc clientData t' herr
    rcases aeCreateFileEvent_cases epoll_ctl t fd mask proc clientData with
      ⟨-, he⟩ | ⟨-, -, he⟩ | ⟨-, -, t'', he, -⟩ <;> rw [he] at herr
    · cases herr
      exact ⟨rfl, rfl, rfl⟩
    · cases herr
      exact ⟨rfl, rfl, rfl⟩
    · simp [AE_OK, AE_ERR] at herr
  · intro n new t' hok
    rcases aeResizeSetSize_cases t n new with
      ⟨hn, he⟩ | ⟨-, -, he⟩ | ⟨-, hlt, t'', he, hmax, hsize, -, hev⟩ <;> rw [he] at hok
    · cases hok
      exact ⟨hn.symm, fun fd => ⟨fun _ => rfl, Iff.rfl⟩⟩
    · simp [AE_OK, AE_ERR] at hok
    · cases hok
      refine ⟨hsize, fun fd => ?_⟩
      have hfd := event_resizedEvents hg hlt hev fd
      rcases le_or_gt (fd : Int) t.maxfd with hle | hgt
      · exact ⟨fun _ => hfd.1 hle, by rw [FileTable.Registered, hfd.1 hle, FileTable.Registered]⟩
      · exact ⟨fun hr => absurd (hfd.2 hgt).2 hr, by simp [FileTable.Registered, hfd.2 hgt]⟩

def flakyCtl : EpollCtl Bool := fun k _ _ _ => (k, !k)

def sampleFileOps : List FileOp :=
  [.create 3 AE_READABLE 1 2, .create 2 AE_WRITABLE 1 2, .create 3 (AE_READABLE ||| AE_WRITABLE) 5 6,
    .delete 3 AE_WRITABLE, .delete 3 7, .resize 9 fun _ => noEvent]

theorem sampleFileOps_consistent : ∃ t₀ t : FileTable Bool,
    aeCreateEventLoop 4 (fun _ => noEvent) (some true) = some t₀ ∧
    t = runFileOps flakyCtl t₀ sampleFileOps ∧ IsGreatest t.heights t.maxfd := by
  have hops : ∀ op ∈ sampleFileOps, op.Allowed := by simp [sampleFileOps, FileOp.Allowed]
  obtain ⟨t₀, h₀⟩ : ∃ t₀, aeCreateEventLoop 4 (fun _ => noEvent) (some true) = some t₀ := ⟨_, rfl⟩
  exact ⟨t₀, _, h₀, rfl, (runFileOps_consistent flakyCtl h₀ hops rfl).1⟩

end CPractice
