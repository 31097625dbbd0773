import CPractice.Sds.Sizes

/-! A string that is built byte by byte. `int` holds its length up to 2^31 - 1 bytes, one more
byte makes it negative, and the append after that writes outside the string. -/

namespace CPractice

open CMem CInt

/-- `s = sdscatlen(s,&c,1)` for each byte, the `k`th allocation first. -/
def catBytes (m : Nat → Malloc) : Nat → Sdshdr → List UInt8 → Except Fault Sdshdr
  | _, s, [] => .ok s
  | k, s, c :: v => do
    let s ← sdscatlen (m k) s [c] 1
    catBytes m (k + 1) s v

theorem catBytes_append (m : Nat → Malloc) (k : Nat) (s : Sdshdr) (v w : List UInt8) :
    catBytes m k s (v ++ w) = (do catBytes m (k + v.length) (← catBytes m k s v) w) := by
  induction v generalizing k s with
  | nil => rfl
  | cons c v ih =>
    rw [List.cons_append, catBytes, catBytes]
    cases sdscatlen (m k) s [c] 1 with
    | error e => rfl
    | ok s =>
      rw [ok_bind, ok_bind, ih, List.length_cons]
      congr 2
      funext s
      congr 1
      omega

theorem sdscatlen_cons (m : Malloc) (s : Sdshdr) (c : UInt8) (p : List UInt8) :
    sdscatlen m s (c :: p) 1 = sdscatlen m s [c] 1 := by
  simp only [sdscatlen, memcpy, List.length_cons, List.take_succ_cons, List.take_zero]
  simp

/-- `len+free` of a string that has grown from the empty one by single bytes: doubling below
`SDS_MAX_PREALLOC`, steps of it and one byte above. -/
def Grown (cap : Nat) : Prop :=
  (∃ k ≤ 21, cap + 2 = 2 ^ k) ∨ 2 ^ 21 - 2 ≤ cap ∧ cap % (2 ^ 20 + 1) = 2 ^ 20 - 3

theorem Grown.step {cap : Nat} (h : Grown cap) : Grown (cap + 1 + min (cap + 1) SDS_MAX_PREALLOC) := by
  have hmax : SDS_MAX_PREALLOC = 2 ^ 20 := rfl
  rw [hmax]
  rcases h with ⟨k, hk, hcap⟩ | ⟨hlow, hmod⟩
  · have hpos := Nat.one_le_two_pow (n := k)
    by_cases hlast : k = 21
    · subst hlast
      refine .inr ⟨?_, ?_⟩ <;> omega
    · have hle : 2 ^ k ≤ 2 ^ 20 := Nat.pow_le_pow_right (by decide) (by omega)
      refine .inl ⟨k + 1, by omega, ?_⟩
      rw [Nat.pow_succ]
      omega
  · refine .inr ⟨?_, ?_⟩ <;> omega

theorem Grown.ne {cap : Nat} (h : Grown cap) : cap ≠ 2 ^ 31 := by
  rintro rfl
  rcases h with ⟨k, hk, hcap⟩ | ⟨-, hmod⟩
  · have hle : 2 ^ k ≤ 2 ^ 21 := Nat.pow_le_pow_right (by decide) hk
    omega
  · omega

section Bytes

variable {c slack v : List UInt8} {fresh : Nat → Nat → UInt8}

theorem Spare.grown (h : Grown (c.length + slack.length)) {spare : Nat}
    (hspare : Spare (sdsOf c slack) 1 (1 + spare)) : Grown (c.length + 1 + spare) := by
  simp only [Spare, sdsOf, Int.toNat_natCast] at hspare
  rcases hspare with ⟨-, heq⟩ | ⟨hnone, heq⟩
  · rwa [show c.length + 1 + spare = c.length + slack.length by omega]
  · have hnil : slack.length = 0 := by omega
    rw [hnil, Nat.add_zero] at h
    rw [show c.length + 1 + spare = c.length + 1 + min (c.length + 1) SDS_MAX_PREALLOC by omega]
    exact h.step

theorem catBytes_ok (k : Nat) (hlen : c.length + v.length < 2 ^ 31) (hs : slack.length < 2 ^ 31)
    (hgrown : Grown (c.length + slack.length)) :
    ∃ slack', catBytes (fun k => some (fresh k)) k (sdsOf c slack) v = .ok (sdsOf (c ++ v) slack') ∧
      slack'.length < 2 ^ 31 ∧ Grown ((c ++ v).length + slack'.length) := by
  induction v generalizing k c slack with
  | nil => exact ⟨slack, by rw [List.append_nil]; rfl, hs, by rwa [List.append_nil]⟩
  | cons b v ih =>
    rw [List.length_cons] at hlen
    obtain ⟨slack₁, hcat, hs₁, hspare⟩ :=
      @sdscatlen_spare c slack [b] 1 (fresh k) (by omega) hs (by simp)
    rw [List.take_of_length_le (by simp)] at hcat
    have hgrown₁ := Spare.grown hgrown hspare
    obtain ⟨slack', hrun, hs', hgrown'⟩ := @ih (c ++ [b]) slack₁ (k + 1)
      (by rw [List.length_append, List.length_singleton]; omega) hs₁
      (by rwa [List.length_append, List.length_singleton])
    rw [List.append_assoc, List.singleton_append] at hrun hgrown'
    exact ⟨slack', by rw [catBytes, hcat, ok_bind, hrun], hs', hgrown'⟩

theorem sdscatlen_last (f : Nat → UInt8) (b : UInt8) (hc : c.length = 2 ^ 31 - 1) (hs : slack.length < 2 ^ 31)
    (hgrown : Grown (c.length + slack.length)) :
    ∃ s, sdscatlen (some f) (sdsOf c slack) [b] 1 = .ok s ∧ s.len = -2 ^ 31 ∧ 0 < s.free ∧ s.free < 2 ^ 31 ∧
      s.buf.length < 2 ^ 33 := by
  have hsized := (sdsOf_consistent (show c.length < 2 ^ 31 by omega) hs).toSized
  obtain ⟨buf, spare, hroom, -, hsize, hspare⟩ := sdsMakeRoomFor_spare hsized f (by omega : 1 < 2 ^ 31)
  obtain ⟨hle, -⟩ := hspare.lt hsized.free_lt
  have hne := (@Spare.grown c slack hgrown (spare - 1) (by rwa [Nat.add_sub_cancel' hle])).ne
  have hmin : min (c.length + 1) SDS_MAX_PREALLOC ≤ SDS_MAX_PREALLOC := Nat.min_le_right _ _
  have hmax : SDS_MAX_PREALLOC = 2 ^ 20 := rfl
  have hlt : spare < 2 ^ 31 := by
    simp only [Spare, sdsOf, Int.toNat_natCast] at hspare
    omega
  simp only [sdsOf, Int.toNat_natCast] at hsize
  rw [sdscatlen, sdslen_sdsOf (by omega), hroom, ok_bind]
  dsimp only
  rw [memcpy_ok (by simp) (by omega), ok_bind, writeAt_ok, ok_bind]
  · refine ⟨_, rfl, ?_, ?_, ?_, ?_⟩
    · simp only [toInt]
      omega
    · simp only [toInt]
      omega
    · exact toInt_lt _
    · simp only [List.length_set, List.length_append, List.length_take, List.length_drop, List.length_singleton]
      omega
  · simp only [List.length_append, List.length_take, List.length_drop, List.length_singleton]
    omega

/-- A negative length is an offset far behind the buffer. -/
theorem sdscatlen_negative (m : Malloc) {s : Sdshdr} (hlen : s.len = -2 ^ 31) (hpos : 0 < s.free)
    (hfree : s.free < 2 ^ 31) (hbuf : s.buf.length < 2 ^ 33) (b : UInt8) :
    sdscatlen m s [b] 1 = .error .outOfBounds := by
  have hcur : sdslen s = 2 ^ 64 - 2 ^ 31 := by
    rw [sdslen, hlen]
    rfl
  have havail : sdsavail s ≥ 1 := by
    rw [sdsavail, toSize_of_range (by omega) (by omega)]
    omega
  rw [sdscatlen, sdsMakeRoomFor, if_pos havail, ok_bind, hcur, memcpy, if_neg (by omega)]
  rfl

theorem catBytes_empty_le (k : Nat) {s : Sdshdr} (h : catBytes (fun k => some (fresh k)) k (sdsOf [] []) v = .ok s) :
    v.length ≤ 2 ^ 31 := by
  by_contra hlong
  obtain ⟨w, b, b', rest, rfl, hw⟩ : ∃ w b b' rest, v = w ++ b :: b' :: rest ∧ w.length = 2 ^ 31 - 1 := by
    have hb : 2 ^ 31 - 1 < v.length := by omega
    have hb' : 2 ^ 31 - 1 + 1 < v.length := by omega
    refine ⟨v.take (2 ^ 31 - 1), v[2 ^ 31 - 1], v[2 ^ 31 - 1 + 1], v.drop (2 ^ 31 - 1 + 1 + 1), ?_, ?_⟩
    · rw [List.getElem_cons_drop, List.getElem_cons_drop, List.take_append_drop]
    · rw [List.length_take]
      omega
  have hstart : Grown (([] : List UInt8).length + ([] : List UInt8).length) := .inl ⟨1, by decide, rfl⟩
  obtain ⟨slack, hrun, hs, hgrown⟩ := @catBytes_ok [] [] w fresh k
    (by rw [List.length_nil]; omega) (by decide) hstart
  rw [List.nil_append] at hrun hgrown
  obtain ⟨s₁, hlast, hlen, hpos, hfree, hbuf⟩ := sdscatlen_last (fresh (k + w.length)) b hw hs hgrown
  rw [catBytes_append, hrun, ok_bind, catBytes, hlast, ok_bind, catBytes,
    sdscatlen_negative _ hlen hpos hfree hbuf] at h
  cases h

theorem catBytes_empty_ok (fresh : Nat → Nat → UInt8) (k : Nat) (h : v.length ≤ 2 ^ 31) :
    ∃ s, catBytes (fun k => some (fresh k)) k (sdsOf [] []) v = .ok s ∧
      (v.length < 2 ^ 31 → Consistent s ∧ content s = v) := by
  have hstart : Grown (([] : List UInt8).length + ([] : List UInt8).length) := .inl ⟨1, by decide, rfl⟩
  by_cases hlt : v.length < 2 ^ 31
  · obtain ⟨slack, hrun, hs, -⟩ := @catBytes_ok [] [] v fresh k (by rwa [List.length_nil, Nat.zero_add])
      (by decide) hstart
    exact ⟨_, hrun, fun _ => ⟨sdsOf_consistent hlt hs, content_sdsOf _ _⟩⟩
  · obtain ⟨w, b, rfl⟩ : ∃ w b, v = w ++ [b] := by
      have hne : v ≠ [] := by
        rintro rfl
        exact hlt (by decide)
      exact ⟨v.dropLast, v.getLast hne, (List.dropLast_append_getLast hne).symm⟩
    rw [List.length_append, List.length_singleton] at h hlt
    obtain ⟨slack, hrun, hs, hgrown⟩ := @catBytes_ok [] [] w fresh k
      (by rw [List.length_nil]; omega) (by decide) hstart
    rw [List.nil_append] at hrun hgrown
    obtain ⟨s, hlast, -⟩ := sdscatlen_last (fresh (k + w.length)) b (by omega) hs hgrown
    refine ⟨s, ?_, fun hlen => absurd hlen (by rw [List.length_append, List.length_singleton]; omega)⟩
    rw [catBytes_append, hrun, ok_bind, catBytes, hlast]
    rfl

end Bytes

theorem reallocBuf_length_lt {m : Malloc} {buf buf' : List UInt8} {size : Nat} (h : reallocBuf m buf size = .ok buf') :
    buf'.length < 2 ^ 64 := by
  obtain ⟨block, hblock, hbuf⟩ := bind_eq_ok.mp h
  cases m with
  | none => cases hblock
  | some fresh =>
    obtain ⟨n, hn, hret⟩ := bind_eq_ok.mp hblock
    cases hret
    rw [usableSize] at hn
    rw [bufOf] at hbuf
    split at hn <;> cases hn
    split at hbuf <;> cases hbuf
    simp only [List.length_drop, List.length_append, List.length_take, freshBytes_length]
    omega

theorem sdsMakeRoomFor_buf_lt {m : Malloc} {s s' : Sdshdr} {addlen : Nat} (h : sdsMakeRoomFor m s addlen = .ok s')
    (hbuf : s.buf.length < 2 ^ 64) : s'.len = s.len ∧ s'.buf.length < 2 ^ 64 := by
  rw [sdsMakeRoomFor] at h
  split at h
  case isTrue =>
    cases h
    exact ⟨rfl, hbuf⟩
  case isFalse =>
    obtain ⟨buf, hrealloc, hret⟩ := bind_eq_ok.mp h
    cases hret
    exact ⟨rfl, reallocBuf_length_lt hrealloc⟩

/-- The string has `n` bytes, or they were too many and its length is negative. -/
structure Counts (s : Sdshdr) (n : Nat) : Prop where
  len_eq : s.len = n ∨ s.len < 0
  le_len : -2 ^ 31 ≤ s.len
  len_lt : s.len < 2 ^ 31
  buf_lt : s.buf.length < 2 ^ 64

/-- A length that is negative stays so: the bytes that would bring it back to 0 are outside
every buffer. -/
theorem Counts.sdscatlen {m : Malloc} {s s' : Sdshdr} {n len : Nat} (h : Counts s n) {t : List UInt8} (hlen : len < 2 ^ 31)
    (hcat : sdscatlen m s t len = .ok s') : Counts s' (n + len) := by
  obtain ⟨hn, hlow, hhigh, hbuf⟩ := h
  obtain ⟨s₁, hroom, hcat⟩ := bind_eq_ok.mp hcat
  obtain ⟨hlen₁, hbuf₁⟩ := sdsMakeRoomFor_buf_lt hroom hbuf
  obtain ⟨buf, hcpy, hcat⟩ := bind_eq_ok.mp hcat
  obtain ⟨buf', hwrite, hret⟩ := bind_eq_ok.mp hcat
  have heq := Except.ok.inj hret
  subst heq
  have hcount := memcpy_length hcpy
  have hcount' := writeAt_length hwrite
  have hinside : sdslen s + len ≤ s₁.buf.length := by
    rw [memcpy] at hcpy
    split at hcpy
    case isTrue hle => exact hle.2
    case isFalse => cases hcpy
  have hsum : (sdslen s : Int) = s.len % 2 ^ 64 := by
    rw [sdslen, toSize]
    omega
  refine ⟨?_, ?_, ?_, ?_⟩
  · simp only [toInt]
    omega
  · simp only [toInt]
    omega
  · exact toInt_lt _
  · show buf'.length < 2 ^ 64
    omega

end CPractice
