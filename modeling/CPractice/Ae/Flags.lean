import CPractice.Ae.Batch
import CPractice.Ae.PassComplete

/-! What the flags of `aeProcessEvents` select. `AE_TIME_EVENTS` guards the time
events and `AE_DONT_WAIT` the timeout, but nothing guards the file events: a call
for time events alone polls, in order to sleep, and serves what has fired. -/

namespace CPractice

open CMem

variable {κ : Type}

def FlagsSelect (w : LoopWorld κ) (flags : BitVec 32) (l : AeEventLoop κ) : Prop :=
  ∀ n p, aeProcessEvents w n flags l = .ok p →
    (flags &&& AE_FILE_EVENTS = 0 → ∀ side fd proc clientData mask,
      .called side fd proc clientData mask ∉ p.loop.seen) ∧
    (flags &&& AE_TIME_EVENTS = 0 → ∃ τ, p.loop.timers.trace = τ ++ l.timers.trace ∧
      ∀ o ∈ τ, o.isInvoked = false) ∧
    (flags &&& AE_DONT_WAIT ≠ 0 → ∀ tvp timeout fired,
      .polled tvp timeout fired ∈ p.loop.seen → tvp = some { tv_sec := 0, tv_usec := 0 })

section History

variable {t : FileTable κ} {e : AeFiredEvent} {τ τ' : List FileObs} {fired : List AeFiredEvent}

theorem Calls.polled {side : Side} (h : Calls t side e τ τ') {tvp : Option PollTimeval} {timeout : Int}
    {evs : List AeFiredEvent} (hm : .polled tvp timeout evs ∈ τ') : .polled tvp timeout evs ∈ τ := by
  obtain ⟨acts, hacts, rfl⟩ := h
  rcases List.mem_append.mp hm with hm | hm
  · exact absurd (hacts _ hm) (by simp [FileObs.isEdit])
  · exact (List.mem_cons.mp hm).resolve_left (by simp)

theorem Serves.polled (h : Serves t fired τ τ') {tvp : Option PollTimeval} {timeout : Int}
    {evs : List AeFiredEvent} (hm : .polled tvp timeout evs ∈ τ') : .polled tvp timeout evs ∈ τ := by
  induction h with
  | nil => exact hm
  | @cons e fired r τ τ₁ τ₂ τ₃ hr hw hs ih =>
    have h₂ := ih hm
    have h₁ : .polled tvp timeout evs ∈ τ₁ := by
      cases hw with
      | skip h => exact h₂
      | shared hr h => exact h₂
      | call h hr hc => exact hc.polled h₂
    cases hr with
    | skip h => exact h₁
    | call h hc => exact hc.polled h₁

/-- The first descriptor with a bit that fired and is registered is served, since no
handler has run before it. -/
theorem Serves.quiet_iff (h : Serves t fired τ τ') (hentry : ∀ fd, entry t τ fd = t.event fd)
    (hτ : ∀ side fd proc clientData mask, .called side fd proc clientData mask ∉ τ) :
    (∀ side fd proc clientData mask, .called side fd proc clientData mask ∉ τ') ↔
      ∀ e ∈ fired, ∀ side : Side, (t.event e.fd).mask &&& e.mask &&& side.bit = 0 := by
  induction h with
  | nil => exact ⟨fun _ => by simp, fun _ => hτ⟩
  | @cons e fired r τ τ₁ τ₂ τ₃ hr hw hs ih =>
    cases hr with
    | call hm hc =>
      have hcall := hs.suffix.subset (hw.suffix.subset hc.mem)
      refine ⟨fun hquiet => absurd hcall (hquiet _ _ _ _ _), fun hall => ?_⟩
      exact absurd (hall e (by simp) .read) (hentry e.fd ▸ hm)
    | skip hread =>
      rw [hentry] at hread
      cases hw with
      | call hm hp hc =>
        have hcall := hs.suffix.subset hc.mem
        refine ⟨fun hquiet => absurd hcall (hquiet _ _ _ _ _), fun hall => ?_⟩
        exact absurd (hall e (by simp) .write) (hentry e.fd ▸ hm)
      | shared hr hp => cases hr
      | skip hwrite =>
        rw [hentry] at hwrite
        rw [ih hentry hτ, List.forall_mem_cons]
        refine ⟨fun h => ⟨fun side => ?_, h⟩, fun h => h.2⟩
        cases side with
        | read => exact hread
        | write => exact hwrite

end History

theorem aeProcessEvents_timers {w : LoopWorld κ} {flags : BitVec 32} {l l' : AeEventLoop κ} {k n : Nat}
    {p : Processed κ} (htime : flags &&& AE_TIME_EVENTS = 0) (h : filePart w flags l = .ok (k, l'))
    (hp : aeProcessEvents w n flags l = .ok p) : p.loop.timers = l'.timers := by
  rw [aeProcessEvents, h, ok_bind, if_neg (not_not.mpr htime)] at hp
  cases hp
  rfl

/-- The flags select what runs exactly when a call without `AE_FILE_EVENTS` does not
poll or finds no bit that fired registered. -/
theorem flagsSelect_iff {w : LoopWorld κ} {flags : BitVec 32} {l : AeEventLoop κ} {q : TimerList}
    (hq : Implements l.timers q) (hfd : ∀ e ∈ firedEvents w l, e.fd < l.files.setsize) :
    FlagsSelect w flags l ↔
      flags &&& AE_FILE_EVENTS ≠ 0 ∨ flags &&& AE_TIME_EVENTS = 0 ∨
        (l.files.maxfd = -1 ∧ flags &&& AE_DONT_WAIT ≠ 0) ∨
        ∀ e ∈ firedEvents w l, ∀ side : Side,
          (l.files.event e.fd).mask &&& e.mask &&& side.bit = 0 := by
  obtain ⟨fired, l₀, l', hpoll, hfollows, hin, hcase, hrun, hfile, hfollows', hs⟩ :=
    filePart_serves flags hq hfd
  have hentry (fd : Nat) : entry l.files l₀.seen fd = l.files.event fd := by
    rcases hcase with ⟨-, -, hseen⟩ | ⟨-, -, tvp, hseen, -⟩ <;> rw [hseen] <;> rfl
  have hnone (side : Side) (fd : Nat) (proc clientData : Ptr) (mask : BitVec 32) :
      .called side fd proc clientData mask ∉ l₀.seen := by
    rcases hcase with ⟨-, -, hseen⟩ | ⟨-, -, tvp, hseen, -⟩ <;> simp [hseen]
  have hquiet := hs.quiet_iff hentry hnone
  constructor
  · intro hall
    by_cases hfile₀ : flags &&& AE_FILE_EVENTS = 0
    · obtain ⟨q', hq'⟩ := hfollows'.timers
      obtain ⟨p, hp⟩ := aeProcessEvents_starts hfile hq'
      have hcalls := (hall 0 p hp).1 hfile₀
      rw [aeProcessEvents_seen hfile hp, hquiet] at hcalls
      rcases hcase with ⟨hskip, -, -⟩ | ⟨-, rfl, -⟩
      · rcases hskip with ⟨htime, -⟩ | ⟨hmax, htime | hdont⟩
        · exact .inr (.inl htime)
        · exact .inr (.inl htime)
        · exact .inr (.inr (.inl ⟨hmax, hdont⟩))
      · exact .inr (.inr (.inr hcalls))
    · exact .inl hfile₀
  · intro hcond n p hp
    refine ⟨fun hfile₀ => ?_, fun htime => ?_, fun hdont tvp timeout evs hm => ?_⟩
    · rw [aeProcessEvents_seen hfile hp, hquiet]
      rcases hcase with ⟨-, rfl, -⟩ | ⟨hpolls, rfl, -⟩
      · simp
      · rcases hcond with hcond | hcond | hcond | hcond
        · exact absurd hfile₀ hcond
        · exact absurd (.inl ⟨hcond, hfile₀⟩) hpolls
        · exact absurd (.inr ⟨hcond.1, .inr hcond.2⟩) hpolls
        · exact hcond
    · obtain ⟨τ, hτ, hedit⟩ := hfollows'.trace
      refine ⟨τ, ?_, fun o ho => Obs.not_invoked_of_isEdit (hedit o ho)⟩
      rw [aeProcessEvents_timers htime hfile hp, hτ]
    · rw [aeProcessEvents_seen hfile hp] at hm
      have hm₀ := hs.polled hm
      rcases hcase with ⟨-, -, hseen⟩ | ⟨-, -, tvp₀, hseen, hzero⟩
      · simp [hseen] at hm₀
      · rw [hseen, List.mem_singleton] at hm₀
        cases hm₀
        exact hzero hdont

theorem batchLoop_flagsSelect : FlagsSelect batchWorld (AE_FILE_EVENTS ||| AE_DONT_WAIT) batchLoop := by
  have hq : Implements batchLoop.timers ⟨(initTimers batchWorld.toWorld).toTimerState, []⟩ := ⟨rfl, rfl⟩
  exact (flagsSelect_iff hq (by decide)).mpr (.inl (by decide))

theorem serves_without_file_events :
    ¬ ∀ (w : LoopWorld Unit) (flags : BitVec 32) (l : AeEventLoop Unit) (q : TimerList),
      Implements l.timers q → (∀ e ∈ firedEvents w l, e.fd < l.files.setsize) →
      FlagsSelect w flags l := by
  intro hall
  have h := hall batchWorld AE_TIME_EVENTS batchLoop ⟨(initTimers batchWorld.toWorld).toTimerState, []⟩
    ⟨rfl, rfl⟩ (by decide)
  have hcode : aeProcessEvents batchWorld 0 AE_TIME_EVENTS batchLoop = .ok _ := rfl
  exact (h 0 _ hcode).1 (by decide) .read 3 1 9 (AE_READABLE ||| AE_WRITABLE) (by decide)

end CPractice
