import CPractice.Sds.Sizes

/-! The calls that take a length in `size_t`, for every 64-bit length. The header keeps
lengths in `int` and nothing compares the two. -/

namespace CPractice

open CMem CInt

inductive SizedCall where
  | newlen (init : Option (List UInt8)) (initlen : Nat)
  | makeRoomFor (s : Sdshdr) (addlen : Nat)
  | catlen (s : Sdshdr) (t : List UInt8) (len : Nat)
  | growzero (s : Sdshdr) (len : Nat)
  | cpylen (s : Sdshdr) (t : List UInt8) (len : Nat)

namespace SizedCall

/-- `malloc` has granted what was requested of it. -/
def exec (fresh : Nat → UInt8) : SizedCall → Except Fault Sdshdr
  | .newlen init initlen => sdsnewlen (some fresh) init initlen
  | .makeRoomFor s addlen => sdsMakeRoomFor (some fresh) s addlen
  | .catlen s t len => sdscatlen (some fresh) s t len
  | .growzero s len => sdsgrowzero (some fresh) s len
  | .cpylen s t len => sdscpylen (some fresh) s t len

/-- What the caller owes: a well-formed string and a source that has `len` bytes. -/
def Valid : SizedCall → Prop
  | .newlen init initlen => initlen < 2 ^ 64 ∧ ∀ t ∈ init, initlen ≤ t.length
  | .makeRoomFor s addlen => Consistent s ∧ addlen < 2 ^ 64
  | .catlen s t len => Consistent s ∧ len < 2 ^ 64 ∧ len ≤ t.length
  | .growzero s len => Consistent s ∧ len < 2 ^ 64
  | .cpylen s t len => Consistent s ∧ len < 2 ^ 64 ∧ len ≤ t.length

def length : SizedCall → Nat
  | .newlen _ initlen => initlen
  | .makeRoomFor s _ => s.len.toNat
  | .catlen s _ len => s.len.toNat + len
  | .growzero s len => max s.len.toNat len
  | .cpylen _ _ len => len

def room : SizedCall → Nat
  | .makeRoomFor s addlen => s.len.toNat + addlen
  | call => call.length

def Untruncated (call : SizedCall) (fresh : Nat → UInt8) : Prop :=
  ∃ s, call.exec fresh = .ok s ∧ SDSHDR_SIZE + call.room + 1 ≤ SDSHDR_SIZE + s.buf.length ∧
    sdslen s = call.length ∧ Sized s

def InRange : SizedCall → Prop
  | .newlen _ initlen => initlen < 2 ^ 31
  | .makeRoomFor s addlen => addlen ≤ s.free ∨ addlen + SDS_MAX_PREALLOC < 2 ^ 31
  | .catlen s _ len => s.len + len < 2 ^ 31
  | .growzero _ len => len < 2 ^ 31
  | .cpylen s _ len => len < 2 ^ 31 ∧ s.len + s.free < len + 2 ^ 31

theorem Untruncated.length_lt {call : SizedCall} {fresh : Nat → UInt8} (h : call.Untruncated fresh) :
    call.length < 2 ^ 31 := by
  obtain ⟨s, -, -, hlen, hsized⟩ := h
  have hlt := hsized.len_lt
  rw [← hlen, hsized.sdslen_eq]
  omega

section Needed

variable {s : Sdshdr} {fresh : Nat → UInt8}

theorem makeRoomFor_inRange {addlen : Nat} (hs : Consistent s)
    (h : Untruncated (.makeRoomFor s addlen) fresh) : InRange (.makeRoomFor s addlen) := by
  have hmax : SDS_MAX_PREALLOC = 1024 * 1024 := rfl
  obtain ⟨s', hexec, hroom, hlen, hsized⟩ := h
  have hnonneg := hs.len_nonneg
  have hfree := hsized.free_lt
  have hsize := hsized.size_eq
  have hlen' : s'.len.toNat = s.len.toNat := by rw [← hsized.sdslen_eq, hlen, length]
  have hlen_nonneg := hsized.len_nonneg
  simp only [room] at hroom
  have hadd : addlen < 2 ^ 31 := by omega
  obtain ⟨buf, spare, hresult, -, hbuf, hspare⟩ := sdsMakeRoomFor_spare hs.toSized fresh hadd
  rw [exec, hresult] at hexec
  obtain rfl := Except.ok.inj hexec
  dsimp only at hsize hfree hlen'
  generalize toInt spare = free at hsize hfree
  simp only [InRange]
  rcases hspare with ⟨hle, -⟩ | ⟨-, hspare⟩
  · exact .inl hle
  · omega

theorem sdscpylen_result {t : List UInt8} {len : Nat} {s' : Sdshdr}
    (hin : ¬ toSize (toInt (s.free + s.len)) < len) (h : sdscpylen (some fresh) s t len = .ok s') :
    s'.len = toInt len ∧ s'.buf.length = s.buf.length := by
  rw [sdscpylen, if_neg hin, ok_bind] at h
  obtain ⟨buf, hcopy, h⟩ := bind_eq_ok.mp h
  obtain ⟨buf', hwrite, h⟩ := bind_eq_ok.mp h
  obtain rfl := Except.ok.inj h
  exact ⟨rfl, by rw [writeAt_length hwrite, memcpy_length hcopy]⟩

theorem cpylen_inRange {t : List UInt8} {len : Nat} (hs : Consistent s)
    (h : Untruncated (.cpylen s t len) fresh) : InRange (.cpylen s t len) := by
  have hlt : len < 2 ^ 31 := h.length_lt
  refine ⟨hlt, ?_⟩
  by_contra hrest
  obtain ⟨s', hexec, -, -, hsized⟩ := h
  have hlen := hs.len_lt
  have hfree := hs.free_lt
  have hsize := hs.size_eq
  have hin : ¬ toSize (toInt (s.free + s.len)) < len := by
    simp only [toInt, toSize]
    omega
  obtain ⟨hlen', hbuf⟩ := sdscpylen_result hin hexec
  rw [toInt_of_range (by omega) (by omega)] at hlen'
  have hfree' := hsized.free_lt
  have hsize' := hsized.size_eq
  omega

end Needed

section Enough

variable {c slack : List UInt8} {fresh : Nat → UInt8}

theorem untruncated_of_eq {call : SizedCall} (hexec : call.exec fresh = .ok (sdsOf c slack))
    (hc : c.length < 2 ^ 31) (hs : slack.length < 2 ^ 31) (hlen : c.length = call.length)
    (hroom : call.room ≤ c.length + slack.length) : call.Untruncated fresh := by
  refine ⟨_, hexec, ?_, by rw [sdslen_sdsOf hc, hlen], (sdsOf_consistent hc hs).toSized⟩
  simp only [sdsOf, List.length_append, List.length_cons]
  omega

theorem newlen_untruncated {init : Option (List UInt8)} {initlen : Nat} (h : initlen < 2 ^ 31)
    (hinit : ∀ t ∈ init, initlen ≤ t.length) : Untruncated (.newlen init initlen) fresh := by
  cases init with
  | none =>
    exact untruncated_of_eq (sdsnewlen_none initlen h fresh) (by simpa using h) (by simp) (by simp [length])
      (by simp [room, length])
  | some t =>
    have ht : initlen ≤ t.length := hinit t rfl
    have htl := List.length_take_of_le ht
    exact untruncated_of_eq (sdsnewlen_some t ht h fresh) (by rwa [htl]) (by simp) htl
      (by rw [htl]; simp [room, length])

theorem makeRoomFor_untruncated {s : Sdshdr} {addlen : Nat} (hs : Consistent s)
    (h : InRange (.makeRoomFor s addlen)) : Untruncated (.makeRoomFor s addlen) fresh := by
  have hmax : SDS_MAX_PREALLOC = 1024 * 1024 := rfl
  have hnonneg := hs.len_nonneg
  have hfree := hs.free_lt
  have hadd : addlen < 2 ^ 31 := by
    rcases h with h | h <;> omega
  obtain ⟨buf, spare, hexec, -, hbuf, hspare⟩ := sdsMakeRoomFor_spare hs.toSized fresh hadd
  have hlt : addlen ≤ spare ∧ spare < 2 ^ 31 := by
    rcases hspare with ⟨hle, heq⟩ | ⟨hgt, heq⟩
    · omega
    · rcases h with h | h <;> omega
  have hsized : Sized { s with free := toInt spare, buf } := by
    rw [toInt_of_range (by omega) (by omega)]
    exact ⟨hs.len_nonneg, hs.len_lt, by simp, by simp only; omega, by simp only; omega⟩
  refine ⟨_, hexec, ?_, hsized.sdslen_eq, hsized⟩
  simp only [room]
  omega

theorem catlen_untruncated {t : List UInt8} {len : Nat} (hs : slack.length < 2 ^ 31) (ht : len ≤ t.length)
    (h : c.length + len < 2 ^ 31) : Untruncated (.catlen (sdsOf c slack) t len) fresh := by
  obtain ⟨slack', hexec, hs', -⟩ := sdscatlen_spare fresh h hs ht
  have hlen : (c ++ t.take len).length = c.length + len := by
    rw [List.length_append, List.length_take_of_le ht]
  exact untruncated_of_eq hexec (by rwa [hlen]) hs' (by simp [hlen, length, sdsOf])
    (by simp only [room, length, sdsOf, Int.toNat_natCast]; omega)

theorem growzero_untruncated {len : Nat} (hc : c.length < 2 ^ 31) (hs : slack.length < 2 ^ 31)
    (h : len < 2 ^ 31) : Untruncated (.growzero (sdsOf c slack) len) fresh := by
  by_cases hle : len ≤ c.length
  · have hexec : exec fresh (.growzero (sdsOf c slack) len) = .ok (sdsOf c slack) := by
      rw [exec, sdsgrowzero, sdslen_sdsOf hc]
      exact if_pos hle
    exact untruncated_of_eq hexec hc hs (by simp only [length, sdsOf, Int.toNat_natCast]; omega)
      (by simp only [room, length, sdsOf, Int.toNat_natCast]; omega)
  · obtain ⟨slack', hexec, hs', -⟩ := sdsgrowzero_spare (c := c) fresh (by omega) h hs
    have hlen : (c ++ List.replicate (len - c.length) 0).length = len := by
      rw [List.length_append, List.length_replicate]
      omega
    exact untruncated_of_eq hexec (by rwa [hlen]) hs'
      (by simp only [hlen, length, sdsOf, Int.toNat_natCast]; omega)
      (by simp only [hlen, room, length, sdsOf, Int.toNat_natCast]; omega)

theorem cpylen_untruncated {t : List UInt8} {len : Nat} (hc : c.length < 2 ^ 31) (hs : slack.length < 2 ^ 31)
    (ht : len ≤ t.length) (h : len < 2 ^ 31) (hrest : c.length + slack.length < len + 2 ^ 31) :
    Untruncated (.cpylen (sdsOf c slack) t len) fresh := by
  obtain ⟨slack', hexec, hs', -⟩ := sdscpylen_spare fresh hc hs h ht hrest
  have htl := List.length_take_of_le ht
  exact untruncated_of_eq hexec (by rwa [htl]) hs' htl (by rw [htl]; simp [room, length])

end Enough

/-- A call keeps the mathematical length in the header and has room for it exactly when
the lengths it stores are in the range of `int`. -/
theorem untruncated_iff {call : SizedCall} (h : call.Valid) (fresh : Nat → UInt8) :
    call.Untruncated fresh ↔ call.InRange := by
  cases call with
  | newlen init initlen =>
    exact ⟨fun hu => hu.length_lt, fun hr => newlen_untruncated hr h.2⟩
  | makeRoomFor s addlen =>
    exact ⟨makeRoomFor_inRange h.1, makeRoomFor_untruncated h.1⟩
  | catlen s t len =>
    obtain ⟨slack, hs, hc, hslack⟩ := h.1.eq_sdsOf
    generalize content s = c at hs hc
    subst hs
    constructor
    · intro hu
      have hlt := hu.length_lt
      simp only [length, sdsOf, Int.toNat_natCast] at hlt
      simp only [InRange, sdsOf]
      omega
    · intro hr
      simp only [InRange, sdsOf] at hr
      exact catlen_untruncated hslack h.2.2 (by omega)
  | growzero s len =>
    obtain ⟨slack, hs, hc, hslack⟩ := h.1.eq_sdsOf
    constructor
    · intro hu
      have hlt := hu.length_lt
      simp only [length] at hlt
      simp only [InRange]
      omega
    · intro hr
      rw [hs]
      exact growzero_untruncated hc hslack hr
  | cpylen s t len =>
    constructor
    · exact cpylen_inRange h.1
    · intro hr
      obtain ⟨slack, hs, hc, hslack⟩ := h.1.eq_sdsOf
      generalize content s = c at hs hc
      subst hs
      obtain ⟨hlen, hrest⟩ := hr
      simp only [sdsOf] at hrest
      exact cpylen_untruncated hc hslack h.2.2 hlen (by omega)

theorem append_untruncated :
    Valid (.catlen (sdsOf [97] []) [98, 99] 2) ∧ Untruncated (.catlen (sdsOf [97] []) [98, 99] 2) fun _ => 7 := by
  have hvalid : Valid (.catlen (sdsOf [97] []) [98, 99] 2) :=
    ⟨sdsOf_consistent (by decide) (by decide), by decide, by decide⟩
  exact ⟨hvalid, (untruncated_iff hvalid _).mpr (by simp [InRange, sdsOf])⟩

/-- `sdsnewlen(NULL, 4294967296)` returns a string of length 0. -/
theorem newlen_truncated : ¬ ∀ (call : SizedCall) (fresh : Nat → UInt8), call.Valid → call.Untruncated fresh := by
  intro hall
  have hlt := (hall (.newlen none (2 ^ 32)) (fun _ => 0) ⟨by decide, by simp⟩).length_lt
  simp [length] at hlt

end SizedCall

end CPractice
