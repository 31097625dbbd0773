import CPractice.Sds.Basic

/-! What each operation of `sds.c` does to a well-formed string whose sizes stay
in the range of `int`. A well-formed string is its content, one terminator and
the free bytes behind it, so every operation is stated on these two lists. -/

namespace CPractice

open CMem CInt

/-- The header fields describe the buffer: the free bytes and the terminator
account for the rest of the allocation. -/
structure WellFormed (s : Sdshdr) : Prop where
  len_nonneg : 0 ≤ s.len
  free_nonneg : 0 ≤ s.free
  size_eq : (s.buf.length : Int) = s.len + s.free + 1
  size_le : s.len + s.free < 2 ^ 31
  terminated : s.buf[s.len.toNat]? = some 0

def content (s : Sdshdr) : List UInt8 := s.buf.take s.len.toNat

def sdsOf (c slack : List UInt8) : Sdshdr :=
  { len := c.length, free := slack.length, buf := c ++ 0 :: slack }

/-- A requested length whose preallocation stays in the range of `int`. -/
def Fits (n : Nat) : Prop := 2 * n + SDS_MAX_PREALLOC < 2 ^ 31

instance (n : Nat) : Decidable (Fits n) := inferInstanceAs (Decidable (_ < _))

theorem sdsOf_wellFormed {c slack : List UInt8} (h : c.length + slack.length < 2 ^ 31) :
    WellFormed (sdsOf c slack) where
  len_nonneg := by simp [sdsOf]
  free_nonneg := by simp [sdsOf]
  size_eq := by simp only [sdsOf, List.length_append, List.length_cons]; omega
  size_le := by simp only [sdsOf]; omega
  terminated := by simp [sdsOf]

theorem content_sdsOf (c slack : List UInt8) : content (sdsOf c slack) = c := by
  simp [content, sdsOf]

theorem WellFormed.eq_sdsOf {s : Sdshdr} (h : WellFormed s) :
    ∃ slack, s = sdsOf (content s) slack ∧ (content s).length + slack.length < 2 ^ 31 := by
  obtain ⟨len, free, buf⟩ := s
  obtain ⟨hl, hf, hs, hb, ht⟩ := h
  dsimp only at hl hf hs hb ht
  obtain ⟨hi, hget⟩ := List.getElem?_eq_some_iff.mp ht
  have hc : (buf.take len.toNat).length = len.toNat := by
    rw [List.length_take]
    omega
  have hsplit : buf = buf.take len.toNat ++ 0 :: buf.drop (len.toNat + 1) := by
    conv_lhs => rw [← List.take_append_drop len.toNat buf, List.drop_eq_getElem_cons hi, hget]
  refine ⟨buf.drop (len.toNat + 1), ?_, ?_⟩
  · simp only [sdsOf, content, hc, Sdshdr.mk.injEq]
    refine ⟨by omega, ?_, hsplit⟩
    rw [List.length_drop]
    omega
  · simp only [content, hc, List.length_drop]
    omega

theorem sdslen_sdsOf {c slack : List UInt8} (h : c.length < 2 ^ 31) :
    sdslen (sdsOf c slack) = c.length := by
  simp only [sdslen, sdsOf]
  rw [toSize_of_range (by omega) (by omega)]
  omega

theorem bufOf_append {hdr : List UInt8} (h : hdr.length = SDSHDR_SIZE) (buf : List UInt8) :
    bufOf (hdr ++ buf) = .ok buf := by
  simp [bufOf, ← h]

theorem reallocBuf_ok {n : Nat} (h : n < 2 ^ 63) (fresh : Nat → UInt8) (buf : List UInt8) :
    reallocBuf (some fresh) buf ((SDSHDR_SIZE + n + 1) % 2 ^ 64) =
      .ok (buf.take (n + 1) ++ freshBytes fresh (n + 1 - buf.length)) := by
  have hsize : (SDSHDR_SIZE + n + 1) % 2 ^ 64 = SDSHDR_SIZE + (n + 1) := by
    simp only [SDSHDR_SIZE]
    omega
  have hz := zrealloc_ok (SDSHDR_SIZE + (n + 1))
    (by simp only [SDSHDR_SIZE, PREFIX_SIZE]; omega) fresh (List.replicate SDSHDR_SIZE 0 ++ buf)
  rw [List.take_append, List.take_of_length_le (by simp), List.length_append,
    List.length_replicate, Nat.add_sub_cancel_left, Nat.add_sub_add_left,
    List.append_assoc] at hz
  simp only [reallocBuf, hsize, hz, ok_bind]
  exact bufOf_append List.length_replicate _

theorem append_drop_set (p : List UInt8) {buf : List UInt8} {k : Nat} (h : k < buf.length) (b : UInt8) :
    (p ++ buf.drop k).set p.length b = p ++ b :: buf.drop (k + 1) := by
  rw [List.drop_eq_getElem_cons h, List.set_append_right _ _ (Nat.le_refl _), Nat.sub_self]
  rfl

theorem sdsnewlen_some (t : List UInt8) {initlen : Nat} (ht : initlen ≤ t.length)
    (h : initlen < 2 ^ 31) (fresh : Nat → UInt8) :
    sdsnewlen (some fresh) (some t) initlen = .ok (sdsOf (t.take initlen) []) := by
  have hsize : (SDSHDR_SIZE + initlen + 1) % 2 ^ 64 = SDSHDR_SIZE + initlen + 1 := by
    simp only [SDSHDR_SIZE]
    omega
  have hz := zmalloc_ok (SDSHDR_SIZE + initlen + 1)
    (by simp only [SDSHDR_SIZE, PREFIX_SIZE]; omega) fresh
  have hl : ((freshBytes fresh (SDSHDR_SIZE + initlen + 1)).drop SDSHDR_SIZE).length =
      initlen + 1 := by
    rw [List.length_drop, freshBytes_length]
    omega
  have hb : bufOf (freshBytes fresh (SDSHDR_SIZE + initlen + 1)) =
      .ok ((freshBytes fresh (SDSHDR_SIZE + initlen + 1)).drop SDSHDR_SIZE) := by
    rw [bufOf, if_pos (by rw [freshBytes_length]; omega)]
  generalize (freshBytes fresh (SDSHDR_SIZE + initlen + 1)).drop SDSHDR_SIZE = buf at hl hb
  have htl : (t.take initlen).length = initlen := List.length_take_of_le ht
  have hcopy : (if initlen ≠ 0 then memcpy buf 0 t initlen else .ok buf) =
      .ok (t.take initlen ++ buf.drop initlen) := by
    by_cases hz : initlen = 0
    · simp [hz]
    · rw [if_pos hz, memcpy_ok ht (by omega)]
      simp
  have hw := append_drop_set (t.take initlen) (show initlen < buf.length by omega) 0
  rw [htl, List.drop_of_length_le (by omega : buf.length ≤ initlen + 1)] at hw
  simp only [sdsnewlen, hsize, Option.isSome_some, if_true, hz, ok_bind, hb, hcopy]
  rw [writeAt_ok (by simp only [List.length_append, List.length_drop, htl]; omega), hw]
  simp [sdsOf, pure, Except.pure, htl, toInt_of_range (x := (initlen : Int)) (by omega) (by omega)]

theorem sdsnewlen_none (initlen : Nat) (h : initlen < 2 ^ 31) (fresh : Nat → UInt8) :
    sdsnewlen (some fresh) none initlen = .ok (sdsOf (List.replicate initlen 0) []) := by
  have hsize : (SDSHDR_SIZE + initlen + 1) % 2 ^ 64 = SDSHDR_SIZE + (initlen + 1) := by
    simp only [SDSHDR_SIZE]
    omega
  have hz := zcalloc_ok (SDSHDR_SIZE + (initlen + 1))
    (by simp only [SDSHDR_SIZE, PREFIX_SIZE]; omega) fresh
  have hb : bufOf (List.replicate (SDSHDR_SIZE + (initlen + 1)) 0) =
      .ok (List.replicate (initlen + 1) 0) := by
    rw [List.replicate_add]
    exact bufOf_append List.length_replicate _
  simp only [sdsnewlen, hsize, Option.isSome_none, Bool.false_eq_true, if_false, hz, ok_bind, hb]
  simp [writeAt, sdsOf, pure, Except.pure, ← List.replicate_succ',
    toInt_of_range (x := (initlen : Int)) (by omega) (by omega)]

theorem sdsRemoveFreeSpace_ok {c slack : List UInt8} (fresh : Nat → UInt8)
    (hb : c.length + slack.length < 2 ^ 31) :
    sdsRemoveFreeSpace (some fresh) (sdsOf c slack) = .ok (sdsOf c []) := by
  have hkeep : (c ++ 0 :: slack).take (c.length + 1) = c ++ [0] := by
    rw [List.take_length_add_append]
    rfl
  rw [sdsRemoveFreeSpace, sdslen_sdsOf (by omega), sdsOf, reallocBuf_ok (by omega), ok_bind, hkeep]
  simp [sdsOf, freshBytes, pure, Except.pure]

theorem sdsclear_ok {c slack : List UInt8} (hb : c.length + slack.length < 2 ^ 31) :
    ∃ slack', sdsclear (sdsOf c slack) = .ok (sdsOf [] slack') ∧
      slack'.length = c.length + slack.length := by
  have hl : (c ++ 0 :: slack).length = c.length + slack.length + 1 := by simp [Nat.add_assoc]
  have hw := append_drop_set [] (show 0 < (c ++ 0 :: slack).length by omega) 0
  simp only [List.nil_append, List.drop_zero, List.length_nil] at hw
  refine ⟨(c ++ 0 :: slack).drop 1, ?_, by rw [List.length_drop]; omega⟩
  simp only [sdsclear, sdsOf]
  rw [writeAt_ok (by omega), ok_bind, hw, toInt_of_range (by omega) (by omega)]
  simp only [pure, Except.pure, Except.ok.injEq, Sdshdr.mk.injEq, List.length_drop, hl,
    List.length_nil, Nat.zero_add, List.nil_append, and_true]
  omega

end CPractice
