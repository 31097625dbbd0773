import CPractice.Anet.Sockets

/-! What `anetTcpGenericConnect` returns. The loop over the addresses is left through
`goto end` in four places, and two of them have nothing to do with a connection. -/

namespace CPractice

def Sys.opens (s : Int) : Sys → Bool
  | .socket _ _ _ fd => fd == s
  | _ => false

/-- The calls since the descriptor `s` was last handed out. -/
def since (s : Int) (calls : List Sys) : List Sys := calls.takeWhile fun o => !o.opens s

/-- The socket `s` is bound to an address of `source_addr`, if that is given, and
connected or connecting to one of the addresses. -/
def Established (servinfo : List (AddrInfo × Attempt)) (source_addr : Bool) (flags : BitVec 32)
    (s : Int) (calls : List Sys) : Prop :=
  (∃ o ∈ calls, o.opens s = true) ∧
  (source_addr = true → ∃ x ∈ servinfo, ∃ b ∈ x.2.source.2, b.2.ret ≠ -1 ∧
    .bind s b.1.ai_addr b.2.ret ∈ since s calls) ∧
  ∃ x ∈ servinfo, .connect s x.1.ai_addr x.2.connect ∈ since s calls ∧
    (x.2.connect.ret ≠ -1 ∨
      x.2.connect.errno = EINPROGRESS ∧ flags &&& ANET_CONNECT_NONBLOCK ≠ 0)

def Attempt.Ready (flags : BitVec 32) (a : Attempt) : Prop :=
  a.socket.ret ≠ -1 ∧ a.reuseaddr.ret ≠ -1 ∧
    (flags &&& ANET_CONNECT_NONBLOCK ≠ 0 → a.getfl.ret ≠ -1 ∧ a.setfl.ret ≠ -1)

def Attempt.Binds (a : Attempt) : Prop := a.source.1 = 0 ∧ ∃ b ∈ a.source.2, b.2.ret ≠ -1

def Attempt.Connects (flags : BitVec 32) (a : Attempt) : Prop :=
  a.connect.ret ≠ -1 ∨ a.connect.errno = EINPROGRESS ∧ flags &&& ANET_CONNECT_NONBLOCK ≠ 0

/-- At the first address where the loop does not go on to the next one, the socket is
set up but cannot be bound. -/
def LeavesUnbound (flags : BitVec 32) : List (AddrInfo × Attempt) → Prop
  | [] => False
  | (_, a) :: servinfo => (a.Ready flags ∧ ¬ a.Binds) ∨
    ((a.socket.ret = -1 ∨ a.Ready flags ∧ a.Binds ∧ ¬ a.Connects flags) ∧ LeavesUnbound flags servinfo)

def Sys.isSetup : Sys → Bool
  | .setsockopt _ _ _ => true
  | .fcntl _ _ _ => true
  | .bind _ _ _ => true
  | _ => false

theorem since_setup {s : Int} {τ calls : List Sys} (h : ∀ o ∈ τ, o.isSetup = true) :
    since s (τ ++ calls) = τ ++ since s calls := by
  refine List.takeWhile_append_of_pos fun o ho => ?_
  have hset := h o ho
  cases o <;> first | rfl | cases hset

theorem since_socket (family type protocol s : Int) (calls : List Sys) :
    since s (.socket family type protocol s :: calls) = [] := by
  simp [since, Sys.opens]

theorem since_connect (s : Int) (addr : SockAddr) (a : Answer) (calls : List Sys) :
    since s (.connect s addr a :: calls) = .connect s addr a :: since s calls := by
  simp [since, Sys.opens]

def SetUp (s : Int) (τ older calls : List Sys) : Prop :=
  (∀ o ∈ τ, o.isSetup = true) ∧ ∃ family type protocol, calls = τ ++ .socket family type protocol s :: older

theorem SetUp.since_eq {s : Int} {τ older calls : List Sys} (h : SetUp s τ older calls) :
    since s calls = τ := by
  obtain ⟨hset, family, type, protocol, rfl⟩ := h
  rw [since_setup hset, since_socket, List.append_nil]

theorem SetUp.more {s : Int} {τ τ' older calls calls' : List Sys} (h : SetUp s τ older calls)
    (hcalls : calls' = τ' ++ calls) (hset : ∀ o ∈ τ', o.isSetup = true) :
    SetUp s (τ' ++ τ) older calls' := by
  obtain ⟨hset₀, family, type, protocol, rfl⟩ := h
  exact ⟨List.forall_mem_append.mpr ⟨hset, hset₀⟩, family, type, protocol,
    by rw [hcalls, List.append_assoc]⟩

theorem SetUp.opened {s : Int} {τ older calls : List Sys} (h : SetUp s τ older calls) :
    ∃ o ∈ calls, o.opens s = true := by
  obtain ⟨-, family, type, protocol, rfl⟩ := h
  exact ⟨.socket family type protocol s, by simp, by simp [Sys.opens]⟩

section Helpers

variable {c : Libc} {a : Attempt} {σ : Anet} {s : Int} {flags : BitVec 32}

theorem anetSetReuseAddr_spec (c : Libc) (a : Attempt) (σ : Anet) (s : Int) :
    (∃ τ, (anetSetReuseAddr c a σ s).2.calls = τ ++ σ.calls ∧ ∀ o ∈ τ, o.isSetup = true) ∧
      ((anetSetReuseAddr c a σ s).1 = ANET_ERR ↔ a.reuseaddr.ret = -1) := by
  unfold anetSetReuseAddr
  by_cases h : a.reuseaddr.ret = -1
  · simp only [h, if_true]
    exact ⟨⟨[_], rfl, by simp [Sys.isSetup]⟩, by simp⟩
  · simp only [h, if_false]
    exact ⟨⟨[_], rfl, by simp [Sys.isSetup]⟩, by simp [ANET_OK, ANET_ERR]⟩

theorem anetNonBlock_spec (c : Libc) (a : Attempt) (σ : Anet) (s : Int) :
    (∃ τ, (anetNonBlock c a σ s).2.calls = τ ++ σ.calls ∧ ∀ o ∈ τ, o.isSetup = true) ∧
      ((anetNonBlock c a σ s).1 = ANET_OK ↔ a.getfl.ret ≠ -1 ∧ a.setfl.ret ≠ -1) := by
  unfold anetNonBlock
  by_cases hget : a.getfl.ret = -1
  · simp only [hget, if_true]
    exact ⟨⟨[_], rfl, by simp [Sys.isSetup]⟩, by simp [ANET_OK, ANET_ERR]⟩
  · by_cases hset : a.setfl.ret = -1
    · simp only [hget, hset, if_true, if_false]
      exact ⟨⟨[_, _], rfl, by simp [Sys.isSetup]⟩, by simp [ANET_OK, ANET_ERR]⟩
    · simp only [hget, hset, if_false]
      exact ⟨⟨[_, _], rfl, by simp [Sys.isSetup]⟩, iff_of_true trivial ⟨hget, hset⟩⟩

theorem bindLoop_spec (s : Int) (bservinfo : List (AddrInfo × Answer)) (σ : Anet) :
    ∃ τ, (bindLoop s bservinfo σ).2.calls = τ ++ σ.calls ∧ (∀ o ∈ τ, o.isSetup = true) ∧
      ((bindLoop s bservinfo σ).1 = true ↔ ∃ b ∈ bservinfo, b.2.ret ≠ -1) ∧
      ((bindLoop s bservinfo σ).1 = true →
        ∃ b ∈ bservinfo, b.2.ret ≠ -1 ∧ .bind s b.1.ai_addr b.2.ret ∈ τ) := by
  induction bservinfo generalizing σ with
  | nil => exact ⟨[], rfl, by simp, by simp [bindLoop], by simp [bindLoop]⟩
  | cons x bservinfo ih =>
    obtain ⟨b, answer⟩ := x
    rw [bindLoop]
    by_cases h : answer.ret ≠ -1
    · rw [if_pos h]
      refine ⟨[.bind s b.ai_addr answer.ret], rfl, by simp [Sys.isSetup], ?_, fun _ => ?_⟩
      · exact iff_of_true rfl ⟨_, List.mem_cons_self, h⟩
      · exact ⟨_, List.mem_cons_self, h, List.mem_singleton_self _⟩
    · rw [if_neg h]
      obtain ⟨τ, hcalls, hset, hiff, hbind⟩ := ih (σ.call answer (.bind s b.ai_addr answer.ret))
      refine ⟨τ ++ [.bind s b.ai_addr answer.ret], ?_, ?_, ?_, fun hb => ?_⟩
      · rw [hcalls, List.append_assoc]
        rfl
      · exact List.forall_mem_append.mpr ⟨hset, by simp [Sys.isSetup]⟩
      · rw [hiff]
        simp [not_not.mp h]
      · obtain ⟨x, hx, hne, hm⟩ := hbind hb
        exact ⟨x, List.mem_cons_of_mem _ hx, hne, List.mem_append_left _ hm⟩

theorem bindSource_spec (c : Libc) (a : Attempt) (σ : Anet) (s : Int) :
    ∃ τ, (bindSource c a σ s).2.calls = τ ++ σ.calls ∧ (∀ o ∈ τ, o.isSetup = true) ∧
      ((bindSource c a σ s).1 = true ↔ a.Binds) ∧
      ((bindSource c a σ s).1 = true →
        ∃ b ∈ a.source.2, b.2.ret ≠ -1 ∧ .bind s b.1.ai_addr b.2.ret ∈ τ) := by
  unfold bindSource
  by_cases h : a.source.1 ≠ 0
  · simp only [if_pos h]
    exact ⟨[], rfl, by simp, by simp [Attempt.Binds, h], by simp⟩
  · obtain ⟨τ, hcalls, hset, hiff, hbind⟩ := bindLoop_spec s a.source.2 σ
    have hbinds : a.Binds ↔ ∃ b ∈ a.source.2, b.2.ret ≠ -1 := and_iff_right (not_not.mp h)
    rw [if_neg h, hbinds]
    by_cases hb : (bindLoop s a.source.2 σ).1 = true
    · rw [if_pos hb]
      exact ⟨τ, hcalls, hset, hiff, hbind⟩
    · rw [if_neg hb]
      refine ⟨τ, hcalls, hset, ?_, by simp⟩
      rw [← hiff]
      simp [hb]

theorem nonBlock_if_spec (c : Libc) (flags : BitVec 32) (a : Attempt) (σ : Anet) (s : Int) :
    (∃ τ, (if flags &&& ANET_CONNECT_NONBLOCK ≠ 0 then anetNonBlock c a σ s
        else (ANET_OK, σ)).2.calls = τ ++ σ.calls ∧ ∀ o ∈ τ, o.isSetup = true) ∧
      ((if flags &&& ANET_CONNECT_NONBLOCK ≠ 0 then anetNonBlock c a σ s else (ANET_OK, σ)).1 = ANET_OK ↔
        (flags &&& ANET_CONNECT_NONBLOCK ≠ 0 → a.getfl.ret ≠ -1 ∧ a.setfl.ret ≠ -1)) := by
  by_cases h : flags &&& ANET_CONNECT_NONBLOCK ≠ 0
  · rw [if_pos h]
    obtain ⟨hcalls, hiff⟩ := anetNonBlock_spec c a σ s
    exact ⟨hcalls, hiff.trans ⟨fun hh _ => hh, fun hh => hh h⟩⟩
  · rw [if_neg h]
    exact ⟨⟨[], rfl, by simp⟩, iff_of_true rfl fun hh => absurd hh h⟩

theorem connectAddr_spec (flags : BitVec 32) (p : AddrInfo) (a : Attempt) (σ : Anet) (s : Int) :
    (a.Connects flags ∧ ∃ σ', connectAddr flags p a σ s = (.done s, σ') ∧
      σ'.calls = .connect s p.ai_addr a.connect :: σ.calls) ∨
    (¬ a.Connects flags ∧ ∃ σ', connectAddr flags p a σ s = (.next ANET_ERR, σ') ∧
      σ'.calls = .close s :: .connect s p.ai_addr a.connect :: σ.calls) := by
  unfold connectAddr
  by_cases hret : a.connect.ret = -1
  · have herrno : (σ.call a.connect (.connect s p.ai_addr a.connect)).errno = a.connect.errno :=
      if_pos hret
    dsimp only
    rw [if_pos hret, herrno]
    by_cases hprogress : a.connect.errno = EINPROGRESS ∧ flags &&& ANET_CONNECT_NONBLOCK ≠ 0
    · rw [if_pos hprogress]
      exact .inl ⟨.inr hprogress, _, rfl, rfl⟩
    · rw [if_neg hprogress]
      exact .inr ⟨fun h => h.elim (fun hne => hne hret) hprogress, _, rfl, rfl⟩
  · exact .inl ⟨.inl hret, _, if_neg hret, rfl⟩

end Helpers

/-- The five ways an iteration can end. -/
theorem tryConnect_cases (c : Libc) (source_addr : Bool) (flags : BitVec 32) (p : AddrInfo) (a : Attempt)
    (σ : Anet) :
    (a.socket.ret = -1 ∧ ∃ σ' family type protocol,
      tryConnect c source_addr flags p a σ = (.next ANET_ERR, σ') ∧
      σ'.calls = .socket family type protocol (-1) :: σ.calls) ∨
    (a.Ready flags ∧ (source_addr = true → a.Binds) ∧ ¬ a.Connects flags ∧ ∃ σ' τ calls,
      tryConnect c source_addr flags p a σ = (.next ANET_ERR, σ') ∧ SetUp a.socket.ret τ σ.calls calls ∧
      σ'.calls = .close a.socket.ret :: .connect a.socket.ret p.ai_addr a.connect :: calls) ∨
    (a.socket.ret ≠ -1 ∧ ¬ a.Ready flags ∧ ∃ σ' τ,
      tryConnect c source_addr flags p a σ = (.error a.socket.ret, σ') ∧
      SetUp a.socket.ret τ σ.calls σ'.calls) ∨
    (a.Ready flags ∧ source_addr = true ∧ ¬ a.Binds ∧ ∃ σ' τ,
      tryConnect c source_addr flags p a σ = (.done a.socket.ret, σ') ∧
      SetUp a.socket.ret τ σ.calls σ'.calls) ∨
    (a.Ready flags ∧ (source_addr = true → a.Binds) ∧ a.Connects flags ∧ ∃ σ' τ calls,
      tryConnect c source_addr flags p a σ = (.done a.socket.ret, σ') ∧ SetUp a.socket.ret τ σ.calls calls ∧
      σ'.calls = .connect a.socket.ret p.ai_addr a.connect :: calls ∧
      (source_addr = true → ∃ b ∈ a.source.2, b.2.ret ≠ -1 ∧
        .bind a.socket.ret b.1.ai_addr b.2.ret ∈ τ)) := by
  unfold tryConnect
  by_cases hs : a.socket.ret = -1
  · refine .inl ⟨hs, _, p.ai_family, p.ai_socktype, p.ai_protocol, by rw [if_pos hs, hs]; rfl, ?_⟩
    rfl
  · dsimp only
    rw [if_neg hs]
    let σ₁ := σ.call a.socket (.socket p.ai_family p.ai_socktype p.ai_protocol a.socket.ret)
    have hopen : SetUp a.socket.ret [] σ.calls σ₁.calls := ⟨by simp, _, _, _, rfl⟩
    obtain ⟨⟨τ₁, hcalls₁, hset₁⟩, hreuse⟩ := anetSetReuseAddr_spec c a σ₁ a.socket.ret
    have hup₁ := hopen.more hcalls₁ hset₁
    by_cases hr : a.reuseaddr.ret = -1
    · rw [if_pos (hreuse.mpr hr)]
      exact .inr (.inr (.inl ⟨hs, fun h => h.2.1 hr, _, _, rfl, hup₁⟩))
    · rw [if_neg fun h => hr (hreuse.mp h)]
      obtain ⟨⟨τ₂, hcalls₂, hset₂⟩, hblock⟩ :=
        nonBlock_if_spec c flags a (anetSetReuseAddr c a σ₁ a.socket.ret).2 a.socket.ret
      have hup₂ := hup₁.more hcalls₂ hset₂
      by_cases hn : flags &&& ANET_CONNECT_NONBLOCK ≠ 0 → a.getfl.ret ≠ -1 ∧ a.setfl.ret ≠ -1
      · have hready : a.Ready flags := ⟨hs, hr, hn⟩
        rw [if_neg (not_not.mpr (hblock.mpr hn))]
        generalize (if flags &&& ANET_CONNECT_NONBLOCK ≠ 0 then
          anetNonBlock c a (anetSetReuseAddr c a σ₁ a.socket.ret).2 a.socket.ret
          else (ANET_OK, (anetSetReuseAddr c a σ₁ a.socket.ret).2)).2 = σ₂ at hup₂ ⊢
        cases source_addr with
        | false =>
          rcases connectAddr_spec flags p a σ₂ a.socket.ret with ⟨hc, σ', he, hcalls⟩ | ⟨hc, σ', he, hcalls⟩
          · exact .inr (.inr (.inr (.inr ⟨hready, by simp, hc, σ', _, _, he, hup₂, hcalls, by simp⟩)))
          · exact .inr (.inl ⟨hready, by simp, hc, σ', _, _, he, hup₂, hcalls⟩)
        | true =>
          obtain ⟨τ₃, hcalls₃, hset₃, hiff, hbind⟩ := bindSource_spec c a σ₂ a.socket.ret
          have hup₃ := hup₂.more hcalls₃ hset₃
          rw [if_pos rfl]
          by_cases hb : (bindSource c a σ₂ a.socket.ret).1 = true
          · have hbinds := hiff.mp hb
            rw [if_pos hb]
            rcases connectAddr_spec flags p a (bindSource c a σ₂ a.socket.ret).2 a.socket.ret with
              ⟨hc, σ', he, hcalls⟩ | ⟨hc, σ', he, hcalls⟩
            · refine .inr (.inr (.inr (.inr
                ⟨hready, fun _ => hbinds, hc, σ', _, _, he, hup₃, hcalls, fun _ => ?_⟩)))
              obtain ⟨x, hx, hne, hm⟩ := hbind hb
              exact ⟨x, hx, hne, List.mem_append_left _ hm⟩
            · exact .inr (.inl ⟨hready, fun _ => hbinds, hc, σ', _, _, he, hup₃, hcalls⟩)
          · rw [if_neg hb]
            exact .inr (.inr (.inr (.inl
              ⟨hready, rfl, fun h => hb (hiff.mpr h), _, _, rfl, hup₃⟩)))
      · rw [if_pos fun h => hn (hblock.mp h)]
        exact .inr (.inr (.inl ⟨hs, fun h => hn h.2.2, _, _, rfl, hup₂⟩))

theorem connectLoop_established_iff (c : Libc) {all : List (AddrInfo × Attempt)} (source_addr : Bool)
    (flags : BitVec 32) {servinfo : List (AddrInfo × Attempt)} (hall : ∀ x ∈ servinfo, x ∈ all)
    (σ : Anet) :
    ((Exit.leave (connectLoop c source_addr flags servinfo ANET_ERR σ)).1 ≠ ANET_ERR →
      Established all source_addr flags (Exit.leave (connectLoop c source_addr flags servinfo ANET_ERR σ)).1
        (Exit.leave (connectLoop c source_addr flags servinfo ANET_ERR σ)).2.calls) ↔
      ¬ (source_addr = true ∧ LeavesUnbound flags servinfo) := by
  induction servinfo generalizing σ with
  | nil => simp [connectLoop, Exit.leave, LeavesUnbound]
  | cons x servinfo ih =>
    obtain ⟨p, a⟩ := x
    have hmem : (p, a) ∈ all := hall _ List.mem_cons_self
    rw [connectLoop, LeavesUnbound]
    rcases tryConnect_cases c source_addr flags p a σ with
      ⟨hs, σ', family, type, protocol, he, -⟩ | ⟨hready, hbinds, hc, σ', τ, calls, he, -, -⟩ |
      ⟨hs, hready, σ', τ, he, -⟩ | ⟨hready, hsource, hbinds, σ', τ, he, hup⟩ |
      ⟨hready, hbinds, hc, σ', τ, calls, he, hup, hcalls, hbound⟩ <;> rw [he]
    · rw [ih (fun x hx => hall x (List.mem_cons_of_mem _ hx)) σ']
      refine not_congr (and_congr_right fun hsource => ?_)
      exact ⟨fun h => .inr ⟨.inl hs, h⟩, fun h => h.elim (fun h => absurd hs h.1.1) fun h => h.2⟩
    · rw [ih (fun x hx => hall x (List.mem_cons_of_mem _ hx)) σ']
      refine not_congr (and_congr_right fun hsource => ?_)
      exact ⟨fun h => .inr ⟨.inr ⟨hready, hbinds hsource, hc⟩, h⟩,
        fun h => h.elim (fun h => absurd (hbinds hsource) h.2) fun h => h.2⟩
    · have hleave : (Exit.leave (.error a.socket.ret, σ')).1 = ANET_ERR := by
        have hne : a.socket.ret ≠ ANET_ERR := hs
        rw [Exit.leave, if_pos hne]
      refine iff_of_true (fun h => absurd hleave h) ?_
      rintro ⟨-, ⟨h, -⟩ | ⟨h | ⟨h, -⟩, -⟩⟩
      · exact hready h
      · exact hs h
      · exact hready h
    · -- the socket is returned although nothing was connected
      refine iff_of_false (fun h => ?_) fun h => h ⟨hsource, .inl ⟨hready, hbinds⟩⟩
      obtain ⟨-, -, x, -, hm, -⟩ := h hready.1
      have hm' : Sys.connect a.socket.ret x.1.ai_addr x.2.connect ∈ τ := hup.since_eq ▸ hm
      exact absurd (hup.1 _ hm') (by simp [Sys.isSetup])
    · have hsince : since a.socket.ret σ'.calls = .connect a.socket.ret p.ai_addr a.connect :: τ := by
        rw [hcalls, since_connect, hup.since_eq]
      have hopened : ∃ o ∈ σ'.calls, o.opens a.socket.ret = true := by
        obtain ⟨o, ho, hopens⟩ := hup.opened
        exact ⟨o, hcalls ▸ List.mem_cons_of_mem _ ho, hopens⟩
      refine iff_of_true (fun _ => ⟨hopened, fun hsource => ?_, ⟨(p, a), hmem, ?_, hc⟩⟩) ?_
      · obtain ⟨b, hb, hne, hm⟩ := hbound hsource
        refine ⟨(p, a), hmem, b, hb, hne, ?_⟩
        show _ ∈ since a.socket.ret σ'.calls
        rw [hsince]
        exact List.mem_cons_of_mem _ hm
      · show _ ∈ since a.socket.ret σ'.calls
        rw [hsince]
        exact List.mem_cons_self
      · rintro ⟨hsource, ⟨-, h⟩ | ⟨h | ⟨-, -, h⟩, -⟩⟩
        · exact h (hbinds hsource)
        · exact hready.1 h
        · exact h hc

/-- The descriptor that comes back is bound and connected, unless the socket of some
address that the loop gets to is set up but cannot be bound. -/
theorem anetTcpGenericConnect_established_iff (c : Libc) (servinfo : Int × List (AddrInfo × Attempt))
    (source_addr : Bool) (flags : BitVec 32) (σ : Anet) :
    ((anetTcpGenericConnect c servinfo source_addr flags σ).1 ≠ ANET_ERR →
      Established servinfo.2 source_addr flags (anetTcpGenericConnect c servinfo source_addr flags σ).1
        (anetTcpGenericConnect c servinfo source_addr flags σ).2.calls) ↔
      ¬ (servinfo.1 = 0 ∧ source_addr = true ∧ LeavesUnbound flags servinfo.2) := by
  unfold anetTcpGenericConnect
  by_cases h : servinfo.1 ≠ 0
  · rw [if_pos h]
    exact iff_of_true (fun hne => absurd rfl hne) fun hh => h hh.1
  · rw [if_neg h, connectLoop_established_iff c source_addr flags (fun x hx => hx) σ]
    exact not_congr (and_iff_right (not_not.mp h)).symm

def okAttempt : Attempt :=
  { socket := ⟨7, 0⟩, reuseaddr := ⟨0, 0⟩, v6only := ⟨0, 0⟩, getfl := ⟨0, 0⟩, setfl := ⟨0, 0⟩
    source := (0, []), bind := ⟨0, 0⟩, connect := ⟨0, 0⟩, listen := ⟨0, 0⟩ }

def localhost : AddrInfo :=
  { ai_family := AF_INET, ai_socktype := SOCK_STREAM, ai_protocol := 6, ai_addr := .ai_addr [127, 0, 0, 1] }

/-- `source_addr` does not resolve, as for a misspelt name. -/
def unresolved : Attempt := { okAttempt with source := (-2, []) }

theorem returns_unconnected_socket :
    ¬ ∀ (c : Libc) (servinfo : Int × List (AddrInfo × Attempt)) (source_addr : Bool) (flags : BitVec 32)
      (σ : Anet), (anetTcpGenericConnect c servinfo source_addr flags σ).1 ≠ ANET_ERR →
      Established servinfo.2 source_addr flags (anetTcpGenericConnect c servinfo source_addr flags σ).1
        (anetTcpGenericConnect c servinfo source_addr flags σ).2.calls := by
  intro hall
  obtain ⟨-, -, x, -, hm, -⟩ := hall { strerror := fun _ => "", gai_strerror := fun _ => "" }
    (0, [(localhost, unresolved)]) true ANET_CONNECT_NONBLOCK { errno := 0, err := none, calls := [] }
    (by decide)
  have hcalls : since 7 (anetTcpGenericConnect { strerror := fun _ => "", gai_strerror := fun _ => "" }
      (0, [(localhost, unresolved)]) true ANET_CONNECT_NONBLOCK
      { errno := 0, err := none, calls := [] }).2.calls =
      [.fcntl 7 .setfl 0, .fcntl 7 .getfl 0, .setsockopt 7 .reuseaddr 0] := by decide
  have hm' : Sys.connect 7 x.1.ai_addr x.2.connect ∈ since 7 _ := hm
  rw [hcalls] at hm'
  simp at hm'

end CPractice
