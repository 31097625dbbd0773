import CPractice.Sds.Growth

/-! Strings of any size. The two header fields are in the range of `int`, but their sum
need not be: `sdsMakeRoomFor` preallocates beyond it. -/

namespace CPractice

open CMem CInt

structure Sized (s : Sdshdr) : Prop where
  len_nonneg : 0 ≤ s.len
  len_lt : s.len < 2 ^ 31
  free_nonneg : 0 ≤ s.free
  free_lt : s.free < 2 ^ 31
  size_eq : (s.buf.length : Int) = s.len + s.free + 1

structure Consistent (s : Sdshdr) : Prop extends Sized s where
  terminated : s.buf[s.len.toNat]? = some 0

theorem sdsOf_consistent {c slack : List UInt8} (hc : c.length < 2 ^ 31) (hs : slack.length < 2 ^ 31) :
    Consistent (sdsOf c slack) where
  len_nonneg := by simp [sdsOf]
  len_lt := by simp only [sdsOf]; omega
  free_nonneg := by simp [sdsOf]
  free_lt := by simp only [sdsOf]; omega
  size_eq := by simp only [sdsOf, List.length_append, List.length_cons]; omega
  terminated := by simp [sdsOf]

theorem Consistent.eq_sdsOf {s : Sdshdr} (h : Consistent s) :
    ∃ slack, s = sdsOf (content s) slack ∧ (content s).length < 2 ^ 31 ∧ slack.length < 2 ^ 31 := by
  obtain ⟨len, free, buf⟩ := s
  obtain ⟨⟨hl, hlt, hf, hflt, hs⟩, ht⟩ := h
  dsimp only at hl hlt hf hflt hs ht
  obtain ⟨hi, hget⟩ := List.getElem?_eq_some_iff.mp ht
  have hc : (buf.take len.toNat).length = len.toNat := by
    rw [List.length_take]
    omega
  have hsplit : buf = buf.take len.toNat ++ 0 :: buf.drop (len.toNat + 1) := by
    conv_lhs => rw [← List.take_append_drop len.toNat buf, List.drop_eq_getElem_cons hi, hget]
  refine ⟨buf.drop (len.toNat + 1), ?_, ?_, ?_⟩
  · simp only [sdsOf, content, hc, Sdshdr.mk.injEq]
    refine ⟨by omega, ?_, hsplit⟩
    rw [List.length_drop]
    omega
  · simp only [content, hc]
    omega
  · rw [List.length_drop]
    omega

theorem Sized.content_length {s : Sdshdr} (h : Sized s) : (content s).length = s.len.toNat := by
  have hnonneg := h.len_nonneg
  have hfree := h.free_nonneg
  have hsize := h.size_eq
  rw [content, List.length_take]
  omega

theorem Sized.len_eq {s : Sdshdr} (h : Sized s) : s.len = (content s).length := by
  rw [h.content_length, Int.toNat_of_nonneg h.len_nonneg]

theorem Sized.sdslen_eq {s : Sdshdr} (h : Sized s) : sdslen s = s.len.toNat := by
  have hnonneg := h.len_nonneg
  have hlt := h.len_lt
  exact toSize_of_range hnonneg (by omega)

theorem Sized.sdsavail_eq {s : Sdshdr} (h : Sized s) : sdsavail s = s.free.toNat := by
  have hnonneg := h.free_nonneg
  have hlt := h.free_lt
  exact toSize_of_range hnonneg (by omega)

theorem preallocLen_eq {n : Nat} (h : n + SDS_MAX_PREALLOC < 2 ^ 64) :
    preallocLen n = n + min n SDS_MAX_PREALLOC := by
  rw [preallocLen]
  split_ifs
  · omega
  · rw [Nat.mod_eq_of_lt h]
    omega

/-- The spare bytes after a call: those from before, or as many as the preallocation leaves. -/
def Spare (s : Sdshdr) (addlen spare : Nat) : Prop :=
  addlen ≤ s.free ∧ (spare : Int) = s.free ∨
    s.free < addlen ∧ spare = addlen + min (s.len.toNat + addlen) SDS_MAX_PREALLOC

/-- `free` is exact up to the conversion to `int`. -/
theorem sdsMakeRoomFor_spare {s : Sdshdr} (h : Sized s) {addlen : Nat} (fresh : Nat → UInt8)
    (hadd : addlen < 2 ^ 31) :
    ∃ (buf : List UInt8) (spare : Nat), sdsMakeRoomFor (some fresh) s addlen = .ok { s with free := toInt spare, buf } ∧
      s.buf <+: buf ∧ buf.length = s.len.toNat + spare + 1 ∧ Spare s addlen spare := by
  have hmax : SDS_MAX_PREALLOC = 1024 * 1024 := rfl
  obtain ⟨hl, hlt, hf, hflt, hs⟩ := id h
  rw [sdsMakeRoomFor, h.sdsavail_eq, h.sdslen_eq]
  by_cases hroom : s.free.toNat ≥ addlen
  · refine ⟨s.buf, s.free.toNat, ?_, List.prefix_rfl, by omega, .inl ⟨by omega, by omega⟩⟩
    rw [if_pos hroom, toInt_of_range (by omega) (by omega), Int.toNat_of_nonneg hf]
  · have hn : preallocLen ((s.len.toNat + addlen) % 2 ^ 64) =
        s.len.toNat + (addlen + min (s.len.toNat + addlen) SDS_MAX_PREALLOC) := by
      rw [Nat.mod_eq_of_lt (by omega), preallocLen_eq (by omega)]
      omega
    have hmin : min (s.len.toNat + addlen) SDS_MAX_PREALLOC ≤ SDS_MAX_PREALLOC := Nat.min_le_right _ _
    rw [if_neg hroom]
    dsimp only
    rw [hn]
    generalize hspare : addlen + min (s.len.toNat + addlen) SDS_MAX_PREALLOC = spare
    have hbuf := reallocBuf_ok (n := s.len.toNat + spare) (by omega) fresh s.buf
    have hkeep : s.buf.take (s.len.toNat + spare + 1) = s.buf := List.take_of_length_le (by omega)
    rw [hkeep] at hbuf
    rw [hbuf, ok_bind]
    refine ⟨s.buf ++ freshBytes fresh (s.len.toNat + spare + 1 - s.buf.length), spare, ?_,
      List.prefix_append _ _, ?_, .inr ⟨by omega, hspare.symm⟩⟩
    · have hdiff : ((s.len.toNat + spare : Nat) : Int) - (s.len.toNat : Nat) = spare := by omega
      rw [hdiff]
      rfl
    · rw [List.length_append, freshBytes_length]
      omega

section Lists

variable {c slack t : List UInt8} {len : Nat} (fresh : Nat → UInt8)

theorem Spare.lt {s : Sdshdr} {addlen spare : Nat} (h : Spare s addlen spare) (hfree : s.free < 2 ^ 31) :
    addlen ≤ spare ∧ spare < addlen + 2 ^ 31 := by
  have hmax : SDS_MAX_PREALLOC = 1024 * 1024 := rfl
  have hmin : min (s.len.toNat + addlen) SDS_MAX_PREALLOC ≤ SDS_MAX_PREALLOC := Nat.min_le_right _ _
  rcases h with ⟨hle, heq⟩ | ⟨-, heq⟩ <;> omega

theorem sdscatlen_spare (hc : c.length + len < 2 ^ 31) (hs : slack.length < 2 ^ 31) (ht : len ≤ t.length) :
    ∃ slack', sdscatlen (some fresh) (sdsOf c slack) t len = .ok (sdsOf (c ++ t.take len) slack') ∧
      slack'.length < 2 ^ 31 ∧ Spare (sdsOf c slack) len (len + slack'.length) := by
  have hsized := (sdsOf_consistent (c := c) (by omega) hs).toSized
  obtain ⟨buf, spare, hroom, hprefix, hsize, hspare⟩ := sdsMakeRoomFor_spare hsized fresh (by omega : len < 2 ^ 31)
  obtain ⟨hle, hlt⟩ := hspare.lt hsized.free_lt
  have htl : (t.take len).length = len := List.length_take_of_le ht
  have hbl : buf.length = c.length + spare + 1 := by simpa [sdsOf] using hsize
  have hkeep : buf.take c.length = c := by
    obtain ⟨rest, rfl⟩ := hprefix
    simp [sdsOf, List.append_assoc]
  have hw := append_drop_set (c ++ t.take len) (show c.length + len < buf.length by omega) 0
  rw [List.length_append, htl] at hw
  have hdrop : (buf.drop (c.length + len + 1)).length = spare - len := by
    rw [List.length_drop]
    omega
  refine ⟨buf.drop (c.length + len + 1), ?_, by omega, ?_⟩
  · rw [sdscatlen, sdslen_sdsOf (by omega), hroom, ok_bind]
    simp only [sdsOf]
    rw [memcpy_ok ht (by omega), ok_bind, Nat.mod_eq_of_lt (by omega), hkeep,
      writeAt_ok (by rw [List.length_append, List.length_append, List.length_drop, htl]; omega),
      ok_bind, hw, toInt_toInt_sub, toInt_of_range (by omega) (by omega), toInt_of_range (by omega) (by omega)]
    simp only [pure, Except.pure, Except.ok.injEq, Sdshdr.mk.injEq, List.length_append, htl, hdrop, and_true]
    omega
  · rwa [hdrop, Nat.add_sub_cancel' hle]

theorem sdsgrowzero_spare (hc : c.length < len) (hlen : len < 2 ^ 31) (hs : slack.length < 2 ^ 31) :
    ∃ slack', sdsgrowzero (some fresh) (sdsOf c slack) len =
        .ok (sdsOf (c ++ List.replicate (len - c.length) 0) slack') ∧
      slack'.length < 2 ^ 31 ∧ Spare (sdsOf c slack) (len - c.length) (len - c.length + slack'.length) := by
  have hsized := (sdsOf_consistent (c := c) (by omega) hs).toSized
  obtain ⟨buf, spare, hroom, hprefix, hsize, hspare⟩ :=
    sdsMakeRoomFor_spare hsized fresh (by omega : len - c.length < 2 ^ 31)
  obtain ⟨hle, hlt⟩ := hspare.lt hsized.free_lt
  have hbl : buf.length = c.length + spare + 1 := by simpa [sdsOf] using hsize
  have hkeep : buf.take c.length = c := by
    obtain ⟨rest, rfl⟩ := hprefix
    simp [sdsOf, List.append_assoc]
  have hdrop : (buf.drop (c.length + (len - c.length + 1))).length = c.length + spare - len := by
    rw [List.length_drop]
    omega
  refine ⟨buf.drop (c.length + (len - c.length + 1)), ?_, by omega, ?_⟩
  · rw [sdsgrowzero, sdslen_sdsOf (by omega)]
    dsimp only
    rw [if_neg (by omega), hroom, ok_bind, Nat.mod_eq_of_lt (by omega)]
    simp only [sdsOf]
    rw [memset_ok (by omega), ok_bind, hkeep, toInt_add_toInt, toInt_of_range (x := (len : Int)) (by omega) (by omega),
      toInt_toSize_sub, toInt_toInt_sub, toInt_of_range (by omega) (by omega), List.replicate_succ',
      ← List.append_assoc, List.append_assoc _ [0] _]
    simp only [pure, Except.pure, Except.ok.injEq, Sdshdr.mk.injEq, List.length_append, List.length_replicate,
      hdrop, List.singleton_append, and_true]
    omega
  · rwa [hdrop, show len - c.length + (c.length + spare - len) = spare by omega]

theorem sdscpylen_room (hc : c.length < 2 ^ 31) (hs : slack.length < 2 ^ 31) (hlen : len < 2 ^ 31)
    (hrest : c.length + slack.length < len + 2 ^ 31) :
    ∃ (buf : List UInt8) (spare : Nat),
      (if toSize (toInt ((sdsOf c slack).free + (sdsOf c slack).len)) < len then
        sdsMakeRoomFor (some fresh) (sdsOf c slack) (toSize (len - (sdsOf c slack).len))
      else .ok (sdsOf c slack)) = .ok { sdsOf c slack with free := toInt spare, buf } ∧
      buf.length = c.length + spare + 1 ∧ len ≤ c.length + spare ∧ c.length + spare < len + 2 ^ 31 ∧
      (c.length + slack.length < len ∧ Spare (sdsOf c slack) (len - c.length) spare ∨
        len ≤ c.length + slack.length ∧ spare = slack.length) := by
  have hsized := (sdsOf_consistent hc hs).toSized
  by_cases hlt : c.length + slack.length < len
  · have htest : toSize (toInt ((sdsOf c slack).free + (sdsOf c slack).len)) < len := by
      simp only [sdsOf]
      rw [toInt_of_range (by omega) (by omega), toSize_of_range (by omega) (by omega)]
      omega
    have hadd : toSize (len - (sdsOf c slack).len) = len - c.length := by
      simp only [sdsOf]
      rw [toSize_of_range (by omega) (by omega)]
      omega
    obtain ⟨buf, spare, hroom, -, hsize, hspare⟩ :=
      sdsMakeRoomFor_spare hsized fresh (by omega : len - c.length < 2 ^ 31)
    obtain ⟨hle, hlt'⟩ := hspare.lt hsized.free_lt
    refine ⟨buf, spare, by rw [if_pos htest, hadd, hroom], by simpa [sdsOf] using hsize, by omega, by omega,
      .inl ⟨hlt, hspare⟩⟩
  · have htest : ¬ toSize (toInt ((sdsOf c slack).free + (sdsOf c slack).len)) < len := by
      simp only [sdsOf, toInt, toSize]
      omega
    refine ⟨(sdsOf c slack).buf, slack.length, ?_, ?_, by omega, hrest, .inr ⟨by omega, rfl⟩⟩
    · rw [if_neg htest, toInt_of_range (by omega) (by omega)]
      rfl
    · simp only [sdsOf, List.length_append, List.length_cons]
      omega

theorem sdscpylen_spare (hc : c.length < 2 ^ 31) (hs : slack.length < 2 ^ 31) (hlen : len < 2 ^ 31)
    (ht : len ≤ t.length) (hrest : c.length + slack.length < len + 2 ^ 31) :
    ∃ slack', sdscpylen (some fresh) (sdsOf c slack) t len = .ok (sdsOf (t.take len) slack') ∧
      slack'.length < 2 ^ 31 ∧
      (c.length + slack.length < len ∧ Spare (sdsOf c slack) (len - c.length) (len + slack'.length - c.length) ∨
        len + slack'.length = c.length + slack.length) := by
  obtain ⟨buf, spare, hroom, hbl, hle, hlt, hspare⟩ := sdscpylen_room fresh hc hs hlen hrest
  have htl : (t.take len).length = len := List.length_take_of_le ht
  have hw := append_drop_set (t.take len) (show len < buf.length by omega) 0
  rw [htl] at hw
  have hdrop : (buf.drop (len + 1)).length = c.length + spare - len := by
    rw [List.length_drop]
    omega
  refine ⟨buf.drop (len + 1), ?_, by omega, ?_⟩
  · rw [sdscpylen, hroom, ok_bind]
    simp only [sdsOf]
    rw [memcpy_ok ht (by omega), ok_bind, Nat.zero_add, List.take_zero, List.nil_append,
      writeAt_ok (by rw [List.length_append, List.length_drop, htl]; omega), ok_bind, hw,
      toInt_toSize_sub, toInt_toInt_sub, Int.add_comm, toInt_of_range (x := (len : Int)) (by omega) (by omega)]
    have hfree : toInt ((c.length : Int) + toInt spare - len) = (c.length + spare - len : Nat) := by
      have hsum : (c.length : Int) + toInt spare - len = c.length - len + toInt spare := by omega
      rw [hsum, toInt_add_toInt, toInt_of_range (by omega) (by omega)]
      omega
    rw [hfree]
    simp only [pure, Except.pure, htl, hdrop]
  · rw [hdrop]
    rcases hspare with ⟨hroom, hspare⟩ | ⟨hin, rfl⟩
    · rw [show len + (c.length + spare - len) - c.length = spare by omega]
      exact .inl ⟨hroom, hspare⟩
    · exact .inr (by omega)

end Lists

theorem sdscatlen_consistent {s : Sdshdr} {t : List UInt8} {len : Nat} (hs : Consistent s) (fresh : Nat → UInt8)
    (hlen : s.len + len < 2 ^ 31) (ht : len ≤ t.length) :
    ∃ s', sdscatlen (some fresh) s t len = .ok s' ∧ Consistent s' ∧ content s' = content s ++ t.take len := by
  obtain ⟨slack, hs, hc, hslack⟩ := hs.eq_sdsOf
  generalize content s = c at hs hc ⊢
  subst hs
  simp only [sdsOf] at hlen
  obtain ⟨slack', hcat, hslack', -⟩ := sdscatlen_spare fresh (show c.length + len < 2 ^ 31 by omega) hslack ht
  refine ⟨_, hcat, sdsOf_consistent ?_ hslack', content_sdsOf _ _⟩
  rw [List.length_append, List.length_take_of_le ht]
  omega

theorem sdscat_consistent {s : Sdshdr} {t : List UInt8} (hs : Consistent s) (ht : 0 ∈ t) (fresh : Nat → UInt8)
    (hlen : s.len + (cString t).length < 2 ^ 31) :
    ∃ s', sdscat (some fresh) s t = .ok s' ∧ Consistent s' ∧ content s' = content s ++ cString t := by
  have hcat := sdscatlen_consistent hs fresh hlen (length_cString_le t)
  rwa [take_cString, ← ok_bind (cString t).length (sdscatlen (some fresh) s t), ← strlen_ok ht] at hcat

end CPractice
