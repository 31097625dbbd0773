import CPractice.Anet.Connect

/-! Who closes the socket. `anetListen`, `anetV6Only` and `anetCreateSocket` close it
when they fail, `anetSetReuseAddr` and `anetNonBlock` leave that to the caller. -/

namespace CPractice

/-- The sockets that are open after the calls; no answer when a descriptor was closed
that was not open. -/
def openSockets : List Sys → Option (List Int)
  | [] => some []
  | .socket _ _ _ fd :: calls => (openSockets calls).map fun fds => if fd = -1 then fds else fd :: fds
  | .close fd :: calls => (openSockets calls).bind fun fds => if fd ∈ fds then some (fds.erase fd) else none
  | _ :: calls => openSockets calls

def NoLeak (r : Int × Anet) : Prop :=
  openSockets r.2.calls = some (if r.1 = ANET_ERR then [] else [r.1])

/-- At the first address that gets a socket, `IPV6_V6ONLY` is set if it is wanted and
`SO_REUSEADDR` fails. -/
def LeavesReuseOpen (af : Int) : List (AddrInfo × Attempt) → Prop
  | [] => False
  | (_, a) :: servinfo => (a.socket.ret ≠ -1 ∧ (af = AF_INET6 → a.v6only.ret ≠ -1) ∧ a.reuseaddr.ret = -1) ∨
    (a.socket.ret = -1 ∧ LeavesReuseOpen af servinfo)

theorem openSockets_setup {τ calls : List Sys} (h : ∀ o ∈ τ, o.isSetup = true) :
    openSockets (τ ++ calls) = openSockets calls := by
  induction τ with
  | nil => rfl
  | cons o τ ih =>
    have ho := h o List.mem_cons_self
    have hrest := ih fun o ho => h o (List.mem_cons_of_mem _ ho)
    cases o <;> first | exact hrest | cases ho

theorem openSockets_close {s : Int} {calls : List Sys} (h : openSockets calls = some [s]) :
    openSockets (.close s :: calls) = some [] := by
  simp [openSockets, h]

theorem openSockets_socket {s : Int} {calls : List Sys} (h : openSockets calls = some []) (hs : s ≠ -1)
    (family type protocol : Int) : openSockets (.socket family type protocol s :: calls) = some [s] := by
  simp [openSockets, h, hs]

theorem openSockets_no_socket {calls : List Sys} (h : openSockets calls = some [])
    (family type protocol : Int) : openSockets (.socket family type protocol (-1) :: calls) = some [] := by
  simp [openSockets, h]

theorem SetUp.open {s : Int} {τ older calls : List Sys} (h : SetUp s τ older calls)
    (holder : openSockets older = some []) (hs : s ≠ -1) : openSockets calls = some [s] := by
  obtain ⟨hset, family, type, protocol, rfl⟩ := h
  rw [openSockets_setup hset]
  exact openSockets_socket holder hs family type protocol

section Helpers

variable {c : Libc} {a : Attempt} {σ : Anet} {s : Int}

theorem anetSetReuseAddr_open (c : Libc) (a : Attempt) (σ : Anet) (s : Int) :
    openSockets (anetSetReuseAddr c a σ s).2.calls = openSockets σ.calls := by
  obtain ⟨⟨τ, hcalls, hset⟩, -⟩ := anetSetReuseAddr_spec c a σ s
  rw [hcalls, openSockets_setup hset]

theorem nonBlock_if_open (c : Libc) (flags : BitVec 32) (a : Attempt) (σ : Anet) (s : Int) :
    openSockets (if flags &&& ANET_CONNECT_NONBLOCK ≠ 0 then anetNonBlock c a σ s
      else (ANET_OK, σ)).2.calls = openSockets σ.calls := by
  obtain ⟨⟨τ, hcalls, hset⟩, -⟩ := nonBlock_if_spec c flags a σ s
  rw [hcalls, openSockets_setup hset]

theorem anetCreateSocket_open (c : Libc) (a : Attempt) {σ : Anet} (h : openSockets σ.calls = some [])
    (domain : Int) :
    NoLeak (anetCreateSocket c a σ domain) ∧
      ((anetCreateSocket c a σ domain).1 = ANET_ERR ↔ a.socket.ret = -1 ∨ a.reuseaddr.ret = -1) := by
  unfold anetCreateSocket
  by_cases hs : a.socket.ret = -1
  · dsimp only
    rw [if_pos hs]
    refine ⟨?_, iff_of_true rfl (.inl hs)⟩
    show openSockets (.socket domain SOCK_STREAM 0 a.socket.ret :: σ.calls) = some []
    rw [hs]
    exact openSockets_no_socket h _ _ _
  · dsimp only
    rw [if_neg hs]
    have hopen := (anetSetReuseAddr_open c a (σ.call a.socket (.socket domain SOCK_STREAM 0 a.socket.ret))
      a.socket.ret).trans (openSockets_socket h hs domain SOCK_STREAM 0)
    have hreuse := (anetSetReuseAddr_spec c a (σ.call a.socket (.socket domain SOCK_STREAM 0 a.socket.ret))
      a.socket.ret).2
    by_cases hr : a.reuseaddr.ret = -1
    · rw [if_pos (hreuse.mpr hr)]
      exact ⟨openSockets_close hopen, iff_of_true rfl (.inr hr)⟩
    · rw [if_neg fun h => hr (hreuse.mp h)]
      have hne : a.socket.ret ≠ ANET_ERR := hs
      refine ⟨?_, iff_of_false hne (by tauto)⟩
      rw [NoLeak, if_neg hne]
      exact hopen

theorem anetListen_open (c : Libc) (a : Attempt) {σ : Anet} {s : Int} (h : openSockets σ.calls = some [s])
    (sa : SockAddr) (backlog : Int) :
    (anetListen c a σ s sa backlog).1 = ANET_ERR ∧
      openSockets (anetListen c a σ s sa backlog).2.calls = some [] ∨
    (anetListen c a σ s sa backlog).1 ≠ ANET_ERR ∧
      openSockets (anetListen c a σ s sa backlog).2.calls = some [s] := by
  unfold anetListen
  dsimp only
  by_cases hbind : a.bind.ret = -1
  · rw [if_pos hbind]
    exact .inl ⟨rfl, openSockets_close h⟩
  · rw [if_neg hbind]
    by_cases hlisten : a.listen.ret = -1
    · rw [if_pos hlisten]
      exact .inl ⟨rfl, openSockets_close h⟩
    · rw [if_neg hlisten]
      exact .inr ⟨by simp [ANET_OK, ANET_ERR], h⟩

theorem anetV6Only_open (c : Libc) (a : Attempt) {σ : Anet} {s : Int} (h : openSockets σ.calls = some [s]) :
    a.v6only.ret = -1 ∧ (anetV6Only c a σ s).1 = ANET_ERR ∧
      openSockets (anetV6Only c a σ s).2.calls = some [] ∨
    a.v6only.ret ≠ -1 ∧ (anetV6Only c a σ s).1 ≠ ANET_ERR ∧
      openSockets (anetV6Only c a σ s).2.calls = some [s] := by
  unfold anetV6Only
  dsimp only
  by_cases hv : a.v6only.ret = -1
  · rw [if_pos hv]
    exact .inl ⟨hv, rfl, openSockets_close h⟩
  · rw [if_neg hv]
    exact .inr ⟨hv, by simp [ANET_OK, ANET_ERR], h⟩

end Helpers

section Connect

variable (c : Libc) (flags : BitVec 32)

/-- What an iteration leaves open for the two labels, or for the next address. -/
def Exit.Owns : Exit × Anet → Prop
  | (.next s, σ) => s = ANET_ERR ∧ openSockets σ.calls = some []
  | (.error s, σ) => s ≠ ANET_ERR ∧ openSockets σ.calls = some [s]
  | (.done s, σ) => s ≠ ANET_ERR ∧ openSockets σ.calls = some [s]

theorem tryConnect_owns (source_addr : Bool) (p : AddrInfo) (a : Attempt) {σ : Anet}
    (h : openSockets σ.calls = some []) : Exit.Owns (tryConnect c source_addr flags p a σ) := by
  rcases tryConnect_cases c source_addr flags p a σ with
    ⟨hs, σ', family, type, protocol, he, hcalls⟩ | ⟨hready, -, -, σ', τ, calls, he, hup, hcalls⟩ |
    ⟨hs, -, σ', τ, he, hup⟩ | ⟨hready, -, -, σ', τ, he, hup⟩ | ⟨hready, -, -, σ', τ, calls, he, hup, hcalls, -⟩ <;>
    rw [he]
  · refine ⟨rfl, ?_⟩
    rw [hcalls]
    exact openSockets_no_socket h family type protocol
  · refine ⟨rfl, ?_⟩
    rw [hcalls]
    exact openSockets_close (hup.open h hready.1)
  · exact ⟨hs, hup.open h hs⟩
  · exact ⟨hready.1, hup.open h hready.1⟩
  · refine ⟨hready.1, ?_⟩
    rw [hcalls]
    exact hup.open h hready.1

theorem connectLoop_noLeak (source_addr : Bool) (servinfo : List (AddrInfo × Attempt)) {σ : Anet}
    (h : openSockets σ.calls = some []) :
    NoLeak (Exit.leave (connectLoop c source_addr flags servinfo ANET_ERR σ)) := by
  induction servinfo generalizing σ with
  | nil => exact h
  | cons x servinfo ih =>
    obtain ⟨p, a⟩ := x
    have howns := tryConnect_owns c flags source_addr p a h
    rw [connectLoop]
    generalize tryConnect c source_addr flags p a σ = r at howns ⊢
    obtain ⟨e, σ'⟩ := r
    cases e with
    | next s =>
      obtain ⟨rfl, hopen⟩ := howns
      exact ih hopen
    | error s =>
      obtain ⟨hs, hopen⟩ := howns
      rw [Exit.leave, if_pos hs]
      exact openSockets_close hopen
    | done s =>
      obtain ⟨hs, hopen⟩ := howns
      rw [Exit.leave, NoLeak, if_neg hs]
      exact hopen

theorem anetTcpGenericConnect_noLeak (servinfo : Int × List (AddrInfo × Attempt)) (source_addr : Bool)
    {σ : Anet} (h : openSockets σ.calls = some []) :
    NoLeak (anetTcpGenericConnect c servinfo source_addr flags σ) := by
  unfold anetTcpGenericConnect
  split
  · exact h
  · exact connectLoop_noLeak c flags source_addr servinfo.2 h

theorem anetUnixGenericConnect_noLeak_iff (a : Attempt) (path : List Char) {σ : Anet}
    (h : openSockets σ.calls = some []) :
    NoLeak (anetUnixGenericConnect c a path flags σ) ↔
      ¬ (a.socket.ret ≠ -1 ∧ a.reuseaddr.ret ≠ -1 ∧ flags &&& ANET_CONNECT_NONBLOCK ≠ 0 ∧
        (a.getfl.ret = -1 ∨ a.setfl.ret = -1)) := by
  unfold anetUnixGenericConnect
  dsimp only
  obtain ⟨hopen, hiff⟩ := anetCreateSocket_open c a h AF_LOCAL
  generalize anetCreateSocket c a σ AF_LOCAL = r at hopen hiff ⊢
  by_cases hs : r.1 = ANET_ERR
  · rw [NoLeak, if_pos hs] at hopen
    rw [if_pos hs]
    exact iff_of_true hopen fun hh => (hiff.mp hs).elim hh.1 hh.2.1
  · rw [NoLeak, if_neg hs] at hopen
    rw [if_neg hs]
    have hcreated : a.socket.ret ≠ -1 ∧ a.reuseaddr.ret ≠ -1 := not_or.mp fun hh => hs (hiff.mpr hh)
    have hopen₂ := (nonBlock_if_open c flags a r.2 r.1).trans hopen
    obtain ⟨-, hblock⟩ := nonBlock_if_spec c flags a r.2 r.1
    generalize (if flags &&& ANET_CONNECT_NONBLOCK ≠ 0 then anetNonBlock c a r.2 r.1
      else (ANET_OK, r.2)) = r' at hopen₂ hblock ⊢
    by_cases hok : r'.1 = ANET_OK
    · have hnot : ¬ (a.socket.ret ≠ -1 ∧ a.reuseaddr.ret ≠ -1 ∧ flags &&& ANET_CONNECT_NONBLOCK ≠ 0 ∧
          (a.getfl.ret = -1 ∨ a.setfl.ret = -1)) := by
        rintro ⟨-, -, hflag, hfail⟩
        obtain ⟨hget, hset⟩ := hblock.mp hok hflag
        exact hfail.elim hget hset
      rw [if_neg (not_not.mpr hok)]
      refine iff_of_true ?_ hnot
      split
      · split
        · rw [NoLeak, if_neg hs]
          exact hopen₂
        · exact openSockets_close hopen₂
      · rw [NoLeak, if_neg hs]
        exact hopen₂
    · rw [if_pos hok]
      refine iff_of_false (fun hleak => ?_) (not_not.mpr ?_)
      · have hnone : openSockets r'.2.calls = some [] := hleak
        rw [hopen₂] at hnone
        cases hnone
      · obtain ⟨hflag, hfail⟩ := Classical.not_imp.mp fun hh => hok (hblock.mpr hh)
        exact ⟨hcreated.1, hcreated.2, hflag, by tauto⟩

end Connect

section Serve

variable (c : Libc)

theorem anetListen_noLeak (a : Attempt) {σ : Anet} {s : Int} (hs : s ≠ ANET_ERR)
    (h : openSockets σ.calls = some [s]) (sa : SockAddr) (backlog : Int) :
    NoLeak (if (anetListen c a σ s sa backlog).1 = ANET_ERR then (ANET_ERR, (anetListen c a σ s sa backlog).2)
      else (s, (anetListen c a σ s sa backlog).2)) := by
  rcases anetListen_open c a h sa backlog with ⟨herr, hopen⟩ | ⟨herr, hopen⟩
  · rw [if_pos herr]
    exact hopen
  · rw [if_neg herr, NoLeak, if_neg hs]
    exact hopen

theorem serverLoop_noLeak_iff (af backlog : Int) (servinfo : List (AddrInfo × Attempt)) {σ : Anet}
    (h : openSockets σ.calls = some []) :
    NoLeak (serverLoop c af backlog servinfo σ) ↔ ¬ LeavesReuseOpen af servinfo := by
  induction servinfo generalizing σ with
  | nil => exact iff_of_true h id
  | cons x servinfo ih =>
    obtain ⟨p, a⟩ := x
    rw [serverLoop, LeavesReuseOpen]
    dsimp only
    by_cases hs : a.socket.ret = -1
    · rw [if_pos hs, ih (by rw [hs]; exact openSockets_no_socket h _ _ _)]
      tauto
    · have hne : a.socket.ret ≠ ANET_ERR := hs
      rw [if_neg hs]
      have hopen : openSockets (σ.call a.socket
          (.socket p.ai_family p.ai_socktype p.ai_protocol a.socket.ret)).calls = some [a.socket.ret] :=
        openSockets_socket h hs _ _ _
      generalize σ.call a.socket (.socket p.ai_family p.ai_socktype p.ai_protocol a.socket.ret) = σ at hopen ⊢
      have hv6 : (af = AF_INET6 ∧ a.v6only.ret = -1 ∧
            (if af = AF_INET6 then anetV6Only c a σ a.socket.ret else (ANET_OK, σ)).1 = ANET_ERR ∧
            openSockets (if af = AF_INET6 then anetV6Only c a σ a.socket.ret
              else (ANET_OK, σ)).2.calls = some []) ∨
          ((af = AF_INET6 → a.v6only.ret ≠ -1) ∧
            (if af = AF_INET6 then anetV6Only c a σ a.socket.ret else (ANET_OK, σ)).1 ≠ ANET_ERR ∧
            openSockets (if af = AF_INET6 then anetV6Only c a σ a.socket.ret
              else (ANET_OK, σ)).2.calls = some [a.socket.ret]) := by
        by_cases haf : af = AF_INET6
        · simp only [if_pos haf]
          exact (anetV6Only_open c a hopen).imp (fun hh => ⟨haf, hh⟩) fun hh => ⟨fun _ => hh.1, hh.2⟩
        · simp only [if_neg haf]
          exact .inr ⟨fun hh => absurd hh haf, by simp [ANET_OK, ANET_ERR], hopen⟩
      generalize (if af = AF_INET6 then anetV6Only c a σ a.socket.ret else (ANET_OK, σ)) = r at hv6 ⊢
      rcases hv6 with ⟨haf, hv, herr, hclosed⟩ | ⟨hv, herr, hopen₁⟩
      · rw [if_pos herr]
        exact iff_of_true hclosed (by tauto)
      · rw [if_neg herr]
        have hopen₂ := (anetSetReuseAddr_open c a r.2 a.socket.ret).trans hopen₁
        have hreuse := (anetSetReuseAddr_spec c a r.2 a.socket.ret).2
        by_cases hr : a.reuseaddr.ret = -1
        · rw [if_pos (hreuse.mpr hr)]
          refine iff_of_false (fun hleak => ?_) fun hh => hh (.inl ⟨hs, hv, hr⟩)
          have hnone : openSockets (anetSetReuseAddr c a r.2 a.socket.ret).2.calls = some [] := hleak
          rw [hopen₂] at hnone
          cases hnone
        · rw [if_neg fun hh => hr (hreuse.mp hh)]
          exact iff_of_true (anetListen_noLeak c a hne hopen₂ p.ai_addr backlog) (by tauto)

theorem anetTcpServer_noLeak_iff (servinfo : Int × List (AddrInfo × Attempt)) (af backlog : Int) {σ : Anet}
    (h : openSockets σ.calls = some []) :
    NoLeak (_anetTcpServer c servinfo af backlog σ) ↔
      ¬ (servinfo.1 = 0 ∧ LeavesReuseOpen af servinfo.2) := by
  unfold _anetTcpServer
  by_cases hg : servinfo.1 ≠ 0
  · rw [if_pos hg]
    exact iff_of_true h fun hh => hg hh.1
  · rw [if_neg hg, serverLoop_noLeak_iff c af backlog servinfo.2 h, and_iff_right (not_not.mp hg)]

theorem anetUnixServer_noLeak (a : Attempt) (path : List Char) (perm : Nat) (backlog : Int) {σ : Anet}
    (h : openSockets σ.calls = some []) : NoLeak (anetUnixServer c a path perm backlog σ) := by
  unfold anetUnixServer
  dsimp only
  obtain ⟨hopen, -⟩ := anetCreateSocket_open c a h AF_LOCAL
  generalize anetCreateSocket c a σ AF_LOCAL = r at hopen ⊢
  by_cases hs : r.1 = ANET_ERR
  · rw [NoLeak, if_pos hs] at hopen
    rw [if_pos hs]
    exact hopen
  · rw [NoLeak, if_neg hs] at hopen
    rw [if_neg hs]
    rcases anetListen_open c a hopen (sunPath path) backlog with ⟨herr, hopen₁⟩ | ⟨herr, hopen₁⟩
    · rw [if_pos herr]
      exact hopen₁
    · rw [if_neg herr]
      split <;> (rw [NoLeak, if_neg hs]; exact hopen₁)

end Serve

def Anet.enter (errno : Int) (err : Option String) : Anet := { errno := errno, err := err, calls := [] }

/-- Two of the four functions never leak a socket, and the other two leak it exactly
where they return without closing it. -/
theorem anet_noLeak_iff (c : Libc) (servinfo : Int × List (AddrInfo × Attempt)) (a : Attempt)
    (source_addr : Bool) (path : List Char) (perm : Nat) (flags : BitVec 32) (af backlog errno : Int)
    (err : Option String) :
    NoLeak (anetTcpGenericConnect c servinfo source_addr flags (.enter errno err)) ∧
    (NoLeak (anetUnixGenericConnect c a path flags (.enter errno err)) ↔
      ¬ (a.socket.ret ≠ -1 ∧ a.reuseaddr.ret ≠ -1 ∧ flags &&& ANET_CONNECT_NONBLOCK ≠ 0 ∧
        (a.getfl.ret = -1 ∨ a.setfl.ret = -1))) ∧
    (NoLeak (_anetTcpServer c servinfo af backlog (.enter errno err)) ↔
      ¬ (servinfo.1 = 0 ∧ LeavesReuseOpen af servinfo.2)) ∧
    NoLeak (anetUnixServer c a path perm backlog (.enter errno err)) :=
  ⟨anetTcpGenericConnect_noLeak c flags servinfo source_addr rfl,
    anetUnixGenericConnect_noLeak_iff c flags a path rfl,
    anetTcpServer_noLeak_iff c servinfo af backlog rfl,
    anetUnixServer_noLeak c a path perm backlog rfl⟩

/-- `setsockopt(SO_REUSEADDR)` fails with `ENOMEM`. -/
def noReuse : Attempt := { okAttempt with reuseaddr := ⟨-1, 12⟩ }

theorem server_leaks_socket :
    ¬ ∀ (c : Libc) (servinfo : Int × List (AddrInfo × Attempt)) (af backlog errno : Int) (err : Option String),
      NoLeak (_anetTcpServer c servinfo af backlog (.enter errno err)) := by
  intro hall
  have hleak : openSockets _ = some [] := hall { strerror := fun _ => "", gai_strerror := fun _ => "" }
    (0, [(localhost, noReuse)]) AF_INET 511 0 none
  have hopen : openSockets (_anetTcpServer { strerror := fun _ => "", gai_strerror := fun _ => "" }
      (0, [(localhost, noReuse)]) AF_INET 511 (.enter 0 none)).2.calls = some [7] := by decide
  rw [hopen] at hleak
  cases hleak

end CPractice
