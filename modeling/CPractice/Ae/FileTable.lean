import CPractice.Ae.FileEvents
import Mathlib.Order.Bounds.Basic

/-! The highest registered descriptor. `maxfd` is raised by a registration,
rescanned by a deletion and checked by a resize. It stays the greatest
registered descriptor through all of them, whatever the kernel answers. -/

namespace CPractice

variable {κ : Type}

def FileTable.Registered (t : FileTable κ) (fd : Nat) : Prop := (t.event fd).mask ≠ AE_NONE

instance (t : FileTable κ) (fd : Nat) : Decidable (t.Registered fd) :=
  inferInstanceAs (Decidable (_ ≠ _))

def FileTable.heights (t : FileTable κ) : Set Int :=
  {x | x = -1 ∨ ∃ fd : Nat, x = fd ∧ t.Registered fd}

theorem event_of_setsize_le {t : FileTable κ} {fd : Nat} (h : t.setsize ≤ fd) :
    t.event fd = noEvent := by
  simp [FileTable.event, List.getD, List.getElem?_eq_none (t.events_length ▸ h)]

theorem lt_setsize_of_registered {t : FileTable κ} {fd : Nat} (h : t.Registered fd) :
    fd < t.setsize := by
  by_contra hfd
  exact h (by rw [event_of_setsize_le (by omega)]; rfl)

theorem event_setEvent_self {t : FileTable κ} {fd : Nat} (h : fd < t.setsize) (fe : AeFileEvent) :
    (t.setEvent fd fe).event fd = fe := by
  have hl : fd < t.events.length := by rw [t.events_length]; exact h
  simp [FileTable.event, FileTable.setEvent, List.getD, List.getElem?_set_self hl]

theorem event_setEvent_of_ne {t : FileTable κ} {fd j : Nat} (h : j ≠ fd) (fe : AeFileEvent) :
    (t.setEvent fd fe).event j = t.event j := by
  simp [FileTable.event, FileTable.setEvent, List.getD, List.getElem?_set_ne h.symm]

theorem lastRegistered_congr {t t' : FileTable κ} (h : ∀ j, t.event j = t'.event j) (n : Nat) :
    lastRegistered t n = lastRegistered t' n := by
  induction n with
  | zero => rfl
  | succ n ih => rw [lastRegistered, lastRegistered, h, ih]

theorem isGreatest_lastRegistered (t : FileTable κ) (n : Nat) :
    IsGreatest {x : Int | x = -1 ∨ ∃ fd : Nat, x = fd ∧ fd < n ∧ t.Registered fd}
      (lastRegistered t n) := by
  induction n with
  | zero => exact ⟨.inl rfl, by rintro x (rfl | ⟨fd, -, h, -⟩) <;> simp_all [lastRegistered]⟩
  | succ n ih =>
    rw [lastRegistered]
    split_ifs with hn
    · refine ⟨.inr ⟨n, rfl, by omega, hn⟩, ?_⟩
      rintro x (rfl | ⟨fd, rfl, h, -⟩) <;> omega
    · constructor
      · rcases ih.1 with h | ⟨fd, he, hlt, hr⟩
        · exact .inl h
        · exact .inr ⟨fd, he, by omega, hr⟩
      · rintro x (rfl | ⟨fd, rfl, hlt, hr⟩)
        · exact ih.2 (.inl rfl)
        · have hne : fd ≠ n := fun he => hn (he ▸ hr)
          exact ih.2 (.inr ⟨fd, rfl, by omega, hr⟩)

theorem registered_of_isGreatest {t : FileTable κ} (h : IsGreatest t.heights t.maxfd) {fd : Nat}
    (hr : t.Registered fd) : (fd : Int) ≤ t.maxfd :=
  h.2 (.inr ⟨fd, rfl, hr⟩)

theorem aeCreateFileEvent_cases (epoll_ctl : EpollCtl κ) (t : FileTable κ) (fd : Nat)
    (mask : BitVec 32) (proc clientData : Ptr) :
    (t.setsize ≤ fd ∧ aeCreateFileEvent epoll_ctl t fd mask proc clientData = (AE_ERR, t)) ∨
    (fd < t.setsize ∧ (aeApiAddEvent epoll_ctl t fd mask).1 = false ∧
      aeCreateFileEvent epoll_ctl t fd mask proc clientData =
        (AE_ERR, (aeApiAddEvent epoll_ctl t fd mask).2)) ∨
    (fd < t.setsize ∧ (aeApiAddEvent epoll_ctl t fd mask).1 = true ∧ ∃ t',
      aeCreateFileEvent epoll_ctl t fd mask proc clientData = (AE_OK, t') ∧
      t'.maxfd = max t.maxfd fd ∧ t'.setsize = t.setsize ∧
      t'.apidata = (aeApiAddEvent epoll_ctl t fd mask).2.apidata ∧
      t'.event fd = (t.event fd).register mask proc clientData ∧
      ∀ j, j ≠ fd → t'.event j = t.event j) := by
  unfold aeCreateFileEvent
  by_cases hfd : fd ≥ t.setsize
  · exact .inl ⟨hfd, if_pos hfd⟩
  · rw [if_neg hfd]
    by_cases hadd : (aeApiAddEvent epoll_ctl t fd mask).1 = true
    · refine .inr (.inr ⟨by omega, hadd, ?_⟩)
      have hlt : fd < (aeApiAddEvent epoll_ctl t fd mask).2.setsize := by
        change fd < t.setsize
        omega
      have hself := event_setEvent_self hlt ((t.event fd).register mask proc clientData)
      have hother (j : Nat) (hj : j ≠ fd) :=
        event_setEvent_of_ne (t := (aeApiAddEvent epoll_ctl t fd mask).2) hj
          ((t.event fd).register mask proc clientData)
      dsimp only
      rw [if_pos hadd]
      split_ifs with hmax
      · refine ⟨_, rfl, ?_, rfl, rfl, hself, hother⟩
        change (fd : Int) > t.maxfd at hmax
        exact (max_eq_right hmax.le).symm
      · refine ⟨_, rfl, ?_, rfl, rfl, hself, hother⟩
        change ¬ (fd : Int) > t.maxfd at hmax
        exact (max_eq_left (not_lt.mp hmax)).symm
    · exact .inr (.inl ⟨by omega, by simpa using hadd, if_neg hadd⟩)

theorem register_mask_ne {mask : BitVec 32} (hm : mask ≠ 0) (fe : AeFileEvent)
    (proc clientData : Ptr) : (fe.register mask proc clientData).mask ≠ AE_NONE := by
  intro h
  exact hm (BitVec.or_eq_zero_iff.mp h).2

theorem aeCreateFileEvent_isGreatest {t : FileTable κ} (h : IsGreatest t.heights t.maxfd)
    {mask : BitVec 32} (hm : mask ≠ 0) (epoll_ctl : EpollCtl κ) (fd : Nat) (proc clientData : Ptr) :
    IsGreatest (aeCreateFileEvent epoll_ctl t fd mask proc clientData).2.heights
      (aeCreateFileEvent epoll_ctl t fd mask proc clientData).2.maxfd := by
  rcases aeCreateFileEvent_cases epoll_ctl t fd mask proc clientData with
    ⟨-, he⟩ | ⟨-, -, he⟩ | ⟨-, -, t', he, hmax, -, -, hself, hother⟩ <;> rw [he]
  · exact h
  · exact h
  · have hfd : t'.Registered fd := by
      rw [FileTable.Registered, hself]
      exact register_mask_ne hm (t.event fd) proc clientData
    have hkeep (j : Nat) (hj : t.Registered j) : t'.Registered j := by
      by_cases hjf : j = fd
      · rw [hjf]
        exact hfd
      · rw [FileTable.Registered, hother j hjf]
        exact hj
    change IsGreatest t'.heights t'.maxfd
    rw [hmax]
    constructor
    · rcases le_total t.maxfd fd with hle | hle
      · rw [max_eq_right hle]
        exact .inr ⟨fd, rfl, hfd⟩
      · rw [max_eq_left hle]
        rcases h.1 with h1 | ⟨j, hj, hr⟩
        · exact .inl h1
        · exact .inr ⟨j, hj, hkeep j hr⟩
    · rintro x (rfl | ⟨j, rfl, hr⟩)
      · exact (h.2 (.inl rfl)).trans (le_max_left _ _)
      · by_cases hjf : j = fd
        · rw [hjf]
          exact le_max_right _ _
        · rw [FileTable.Registered, hother j hjf] at hr
          exact (registered_of_isGreatest h hr).trans (le_max_left _ _)

theorem aeDeleteFileEvent_cases (epoll_ctl : EpollCtl κ) (t : FileTable κ) (fd : Nat)
    (mask : BitVec 32) :
    (¬ t.Registered fd ∧ aeDeleteFileEvent epoll_ctl t fd mask = t) ∨
    (t.Registered fd ∧ ∃ t', aeDeleteFileEvent epoll_ctl t fd mask = t' ∧
      t'.event fd = { t.event fd with mask := (t.event fd).mask &&& ~~~mask } ∧
      (∀ j, j ≠ fd → t'.event j = t.event j) ∧
      t'.maxfd = (if (fd : Int) = t.maxfd ∧ (t'.event fd).mask = AE_NONE then
        lastRegistered t' t.maxfd.toNat else t.maxfd) ∧
      t'.apidata = (epoll_ctl t.apidata
        (if (t'.event fd).mask ≠ AE_NONE then EpollOp.mod else EpollOp.del) fd
        (epollEvents (t'.event fd).mask)).2) := by
  unfold aeDeleteFileEvent
  by_cases hfd : fd ≥ t.setsize
  · exact .inl ⟨fun h => absurd (lt_setsize_of_registered h) (by omega), if_pos hfd⟩
  · by_cases hm : (t.event fd).mask = AE_NONE
    · exact .inl ⟨fun h => h hm, by rw [if_neg hfd]; exact if_pos hm⟩
    · rw [if_neg hfd]
      dsimp only
      rw [if_neg hm]
      have hself := event_setEvent_self (Nat.lt_of_not_ge hfd)
        { t.event fd with mask := (t.event fd).mask &&& ~~~mask }
      have hother (j : Nat) (hj : j ≠ fd) := event_setEvent_of_ne (t := t) hj
        { t.event fd with mask := (t.event fd).mask &&& ~~~mask }
      have hagain : (t.event fd).mask &&& ~~~mask &&& ~~~mask = (t.event fd).mask &&& ~~~mask := by
        rw [BitVec.and_assoc, BitVec.and_self]
      have hmax : (t.setEvent fd
          { t.event fd with mask := (t.event fd).mask &&& ~~~mask }).maxfd = t.maxfd := rfl
      have hapi : (t.setEvent fd
          { t.event fd with mask := (t.event fd).mask &&& ~~~mask }).apidata = t.apidata := rfl
      generalize t.setEvent fd { t.event fd with mask := (t.event fd).mask &&& ~~~mask } = u
        at hself hother hmax hapi ⊢
      refine .inr ⟨hm, _, rfl, ?_⟩
      have hapi' (v : FileTable κ) (hev : v.event fd = u.event fd) (hk : v.apidata = t.apidata) :
          (aeApiDelEvent epoll_ctl v fd mask).apidata = (epoll_ctl t.apidata
            (if (u.event fd).mask ≠ AE_NONE then EpollOp.mod else EpollOp.del) fd
            (epollEvents (u.event fd).mask)).2 := by
        simp only [aeApiDelEvent, hev, hk, hself, hagain]
      by_cases hc : (fd : Int) = u.maxfd ∧ (u.event fd).mask = AE_NONE
      · rw [if_pos hc]
        refine ⟨hself, hother, ?_, hapi' _ rfl hapi⟩
        change lastRegistered u u.maxfd.toNat =
          if (fd : Int) = t.maxfd ∧ (u.event fd).mask = AE_NONE then _ else _
        rw [← hmax, if_pos hc]
        apply lastRegistered_congr
        exact fun _ => rfl
      · rw [if_neg hc]
        refine ⟨hself, hother, ?_, hapi' _ rfl hapi⟩
        change u.maxfd = if (fd : Int) = t.maxfd ∧ (u.event fd).mask = AE_NONE then _ else _
        rw [← hmax, if_neg hc]

theorem aeDeleteFileEvent_isGreatest {t : FileTable κ} (h : IsGreatest t.heights t.maxfd)
    (epoll_ctl : EpollCtl κ) (fd : Nat) (mask : BitVec 32) :
    IsGreatest (aeDeleteFileEvent epoll_ctl t fd mask).heights
      (aeDeleteFileEvent epoll_ctl t fd mask).maxfd := by
  rcases aeDeleteFileEvent_cases epoll_ctl t fd mask with
    ⟨-, he⟩ | ⟨hr, t', he, -, hother, hmax, -⟩ <;> rw [he]
  · exact h
  · have hle (j : Nat) (hj : t'.Registered j) : (j : Int) ≤ t.maxfd := by
      by_cases hjf : j = fd
      · rw [hjf]
        exact registered_of_isGreatest h hr
      · rw [FileTable.Registered, hother j hjf] at hj
        exact registered_of_isGreatest h hj
    rw [hmax]
    split_ifs with hc
    · have hlast := isGreatest_lastRegistered t' t.maxfd.toNat
      constructor
      · rcases hlast.1 with h1 | ⟨j, hj, -, hrj⟩
        · exact .inl h1
        · exact .inr ⟨j, hj, hrj⟩
      · rintro x (rfl | ⟨j, rfl, hj⟩)
        · exact hlast.2 (.inl rfl)
        · have hne : j ≠ fd := by
            rintro rfl
            exact hj hc.2
          have := hle j hj
          exact hlast.2 (.inr ⟨j, rfl, by omega, hj⟩)
    · constructor
      · rcases h.1 with h1 | ⟨j, hj, hrj⟩
        · exact .inl h1
        · refine .inr ⟨j, hj, ?_⟩
          by_cases hjf : j = fd
          · rw [hjf]
            exact fun hm => hc ⟨by omega, hm⟩
          · rw [FileTable.Registered, hother j hjf]
            exact hrj
      · rintro x (rfl | ⟨j, rfl, hj⟩)
        · exact h.2 (.inl rfl)
        · exact hle j hj

theorem maxfd_lt_setsize {t : FileTable κ} (h : IsGreatest t.heights t.maxfd) :
    t.maxfd < t.setsize := by
  rcases h.1 with h1 | ⟨fd, hfd, hr⟩
  · omega
  · have := lt_setsize_of_registered hr
    omega

theorem aeResizeSetSize_cases (t : FileTable κ) (setsize : Nat) (fresh : Nat → AeFileEvent) :
    (setsize = t.setsize ∧ aeResizeSetSize t setsize fresh = (AE_OK, t)) ∨
    (setsize ≠ t.setsize ∧ t.maxfd ≥ setsize ∧ aeResizeSetSize t setsize fresh = (AE_ERR, t)) ∨
    (setsize ≠ t.setsize ∧ t.maxfd < setsize ∧ ∃ t' : FileTable κ,
      aeResizeSetSize t setsize fresh = (AE_OK, t') ∧ t'.maxfd = t.maxfd ∧
      t'.setsize = setsize ∧ t'.apidata = t.apidata ∧ t'.events = resizedEvents t setsize fresh) := by
  unfold aeResizeSetSize
  split_ifs with h₁ h₂
  · exact .inl ⟨h₁, rfl⟩
  · exact .inr (.inl ⟨h₁, h₂, rfl⟩)
  · exact .inr (.inr ⟨h₁, by omega, _, rfl, rfl, rfl, rfl, rfl⟩)

/-- Slots up to `maxfd` survive a resize and every other slot comes back unset,
also a slot that an earlier shrink had given up. -/
theorem event_resizedEvents {t t' : FileTable κ} (h : IsGreatest t.heights t.maxfd) {setsize : Nat}
    {fresh : Nat → AeFileEvent} (hlt : t.maxfd < setsize)
    (he : t'.events = resizedEvents t setsize fresh) (j : Nat) :
    ((j : Int) ≤ t.maxfd → t'.event j = t.event j) ∧
      (t.maxfd < j → (t'.event j).mask = AE_NONE ∧ (t.event j).mask = AE_NONE) := by
  have hset := maxfd_lt_setsize h
  have hev : t'.event j = ((List.range setsize).map fun i : Nat =>
      if (i : Int) ≥ t.maxfd + 1 then { t.events.getD i (fresh i) with mask := AE_NONE }
      else t.events.getD i (fresh i)).getD j noEvent := by
    rw [FileTable.event, he]
    rfl
  rw [hev, List.getD_eq_getElem?_getD, List.getElem?_map]
  constructor
  · intro hj
    have hjl : j < t.events.length := by rw [t.events_length]; omega
    rw [List.getElem?_range (by omega)]
    simp only [Option.map_some, Option.getD_some]
    rw [if_neg (by omega)]
    simp [FileTable.event, List.getElem?_eq_getElem hjl]
  · intro hj
    constructor
    · by_cases hn : j < setsize
      · rw [List.getElem?_range hn]
        simp only [Option.map_some, Option.getD_some]
        rw [if_pos (by omega)]
      · rw [List.getElem?_eq_none (by simpa using hn)]
        rfl
    · by_contra hr
      have := registered_of_isGreatest h hr
      omega

theorem aeResizeSetSize_isGreatest {t : FileTable κ} (h : IsGreatest t.heights t.maxfd)
    (setsize : Nat) (fresh : Nat → AeFileEvent) :
    IsGreatest (aeResizeSetSize t setsize fresh).2.heights
      (aeResizeSetSize t setsize fresh).2.maxfd := by
  rcases aeResizeSetSize_cases t setsize fresh with
    ⟨-, he⟩ | ⟨-, -, he⟩ | ⟨-, hlt, t', he, hmax, -, -, hev⟩ <;> rw [he]
  · exact h
  · exact h
  · have hheights : t'.heights = t.heights := by
      ext x
      have hiff (j : Nat) : t'.Registered j ↔ t.Registered j := by
        have hj := event_resizedEvents h hlt hev j
        rcases le_or_gt (j : Int) t.maxfd with hle | hgt
        · rw [FileTable.Registered, hj.1 hle, FileTable.Registered]
        · simp [FileTable.Registered, hj.2 hgt]
      simp only [FileTable.heights, Set.mem_ofPred_eq, hiff]
    change IsGreatest t'.heights t'.maxfd
    rw [hheights, hmax]
    exact h

end CPractice
