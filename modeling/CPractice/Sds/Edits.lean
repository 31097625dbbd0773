import CPractice.Sds.Sizes

/-! The operations of `sds.c` that change the content of a well-formed string. -/

namespace CPractice

open CMem CInt

theorem sdsupdatelen_ok {c slack : List UInt8} (hb : c.length + slack.length < 2 ^ 31) :
    ∃ slack', sdsupdatelen (sdsOf c slack) = .ok (sdsOf (c.takeWhile (· != 0)) slack') ∧
      (c.takeWhile (· != 0)).length + slack'.length = c.length + slack.length := by
  have hle : (c.takeWhile (· != 0)).length ≤ c.length := (List.takeWhile_prefix _).length_le
  have hlen : ((c ++ 0 :: slack).takeWhile (· != 0)).length = (c.takeWhile (· != 0)).length := by
    rw [List.takeWhile_append]
    split_ifs with h
    · simp [h]
    · rfl
  obtain ⟨slack', hs⟩ : ∃ slack', c ++ 0 :: slack = c.takeWhile (· != 0) ++ 0 :: slack' := by
    cases hd : c.dropWhile (· != 0) with
    | nil =>
      refine ⟨slack, ?_⟩
      conv_lhs => rw [← List.takeWhile_append_dropWhile (p := (· != 0)) (l := c), hd]
      simp
    | cons b rest =>
      have hz : b = 0 := by
        have := List.head?_dropWhile_not (· != 0) c
        simpa [hd] using this
      refine ⟨rest ++ 0 :: slack, ?_⟩
      conv_lhs => rw [← List.takeWhile_append_dropWhile (p := (· != 0)) (l := c), hd, hz]
      simp
  have hl := congrArg List.length hs
  simp only [List.length_append, List.length_cons] at hl
  refine ⟨slack', ?_, by omega⟩
  simp only [sdsupdatelen, sdsOf]
  rw [strlen_ok (by simp), cString, ok_bind, hlen, toInt_of_range (by omega) (by omega),
    toInt_of_range (by omega) (by omega)]
  simp only [pure, Except.pure, Except.ok.injEq, Sdshdr.mk.injEq, true_and]
  exact ⟨by omega, hs⟩

theorem sdsIncrLen_ok {c slack : List UInt8} {incr : Int}
    (hb : c.length + slack.length < 2 ^ 31) (hlo : -(c.length : Int) ≤ incr)
    (hhi : incr ≤ slack.length) :
    ∃ slack', sdsIncrLen (sdsOf c slack) incr =
        .ok (sdsOf ((c ++ 0 :: slack).take (c.length + incr).toNat) slack') ∧
      ((c ++ 0 :: slack).take (c.length + incr).toNat).length + slack'.length =
        c.length + slack.length := by
  have hl : (c ++ 0 :: slack).length = c.length + slack.length + 1 := by simp [Nat.add_assoc]
  obtain ⟨n, hn⟩ : ∃ n : Nat, (c.length : Int) + incr = n := ⟨_, (Int.toNat_of_nonneg (by omega)).symm⟩
  have ht : ((c ++ 0 :: slack).take n).length = n := List.length_take_of_le (by omega)
  have hw := append_drop_set ((c ++ 0 :: slack).take n) (show n < (c ++ 0 :: slack).length by omega) 0
  rw [ht, List.take_append_drop] at hw
  refine ⟨(c ++ 0 :: slack).drop (n + 1), ?_, ?_⟩
  · simp only [sdsIncrLen, sdsOf, hn, Int.toNat_natCast]
    rw [if_pos hhi, toInt_of_range (by omega) (by omega), toInt_of_range (by omega) (by omega),
      if_pos (by omega), writeNul, if_pos (by omega), Int.toNat_natCast,
      writeAt_ok (by omega), ok_bind, hw]
    simp only [pure, Except.pure, Except.ok.injEq, Sdshdr.mk.injEq, ht, List.length_drop, and_true,
      true_and]
    omega
  · rw [hn, Int.toNat_natCast, ht, List.length_drop]
    omega

section Fits

variable {c slack t : List UInt8} (fresh : Nat → UInt8)

theorem Fits.spare_lt {addlen spare : Nat} (hf : Fits (c.length + addlen))
    (hb : c.length + slack.length < 2 ^ 31) (h : Spare (sdsOf c slack) addlen spare) :
    c.length + spare < 2 ^ 31 := by
  simp only [Fits] at hf
  simp only [Spare, sdsOf, Int.toNat_natCast] at h
  omega

theorem sdsMakeRoomFor_ok {addlen : Nat} (hb : c.length + slack.length < 2 ^ 31)
    (hf : Fits (c.length + addlen)) :
    ∃ slack', sdsMakeRoomFor (some fresh) (sdsOf c slack) addlen = .ok (sdsOf c slack') ∧
      addlen ≤ slack'.length ∧ c.length + slack'.length < 2 ^ 31 := by
  have hfit : 2 * (c.length + addlen) + SDS_MAX_PREALLOC < 2 ^ 31 := hf
  have hsized := (sdsOf_consistent (c := c) (by omega) (show slack.length < 2 ^ 31 by omega)).toSized
  obtain ⟨buf, spare, hroom, ⟨rest, rfl⟩, hsize, hspare⟩ :=
    sdsMakeRoomFor_spare hsized fresh (by omega : addlen < 2 ^ 31)
  have hlt := hf.spare_lt hb hspare
  have hle := (hspare.lt hsized.free_lt).1
  simp only [sdsOf, List.length_append, List.length_cons, Int.toNat_natCast] at hsize
  refine ⟨slack ++ rest, ?_, by rw [List.length_append]; omega, by rw [List.length_append]; omega⟩
  rw [hroom, toInt_of_range (by omega) (by omega)]
  simp only [sdsOf, List.length_append, List.append_assoc, List.cons_append, Except.ok.injEq, Sdshdr.mk.injEq,
    true_and, and_true]
  omega

theorem sdsgrowzero_ok {len : Nat} (hb : c.length + slack.length < 2 ^ 31) (hf : Fits len) :
    ∃ slack', sdsgrowzero (some fresh) (sdsOf c slack) len =
        .ok (sdsOf (c ++ List.replicate (len - c.length) 0) slack') ∧
      (c ++ List.replicate (len - c.length) 0).length + slack'.length < 2 ^ 31 := by
  have hfit : 2 * len + SDS_MAX_PREALLOC < 2 ^ 31 := hf
  by_cases hle : len ≤ c.length
  · refine ⟨slack, ?_, ?_⟩
    · rw [sdsgrowzero, sdslen_sdsOf (by omega)]
      dsimp only
      rw [if_pos hle, Nat.sub_eq_zero_of_le hle, List.replicate_zero, List.append_nil]
    · rw [Nat.sub_eq_zero_of_le hle, List.replicate_zero, List.append_nil]
      exact hb
  · obtain ⟨slack', hgrow, -, hspare⟩ :=
      sdsgrowzero_spare (c := c) fresh (by omega) (by omega : len < 2 ^ 31) (show slack.length < 2 ^ 31 by omega)
    have hf' : Fits (c.length + (len - c.length)) := by rwa [Nat.add_sub_cancel' (by omega)]
    have hlt := hf'.spare_lt hb hspare
    refine ⟨slack', hgrow, ?_⟩
    rw [List.length_append, List.length_replicate]
    omega

theorem sdscatlen_ok {len : Nat} (hb : c.length + slack.length < 2 ^ 31) (ht : len ≤ t.length)
    (hf : Fits (c.length + len)) :
    ∃ slack', sdscatlen (some fresh) (sdsOf c slack) t len = .ok (sdsOf (c ++ t.take len) slack') ∧
      (c ++ t.take len).length + slack'.length < 2 ^ 31 := by
  have hfit : 2 * (c.length + len) + SDS_MAX_PREALLOC < 2 ^ 31 := hf
  obtain ⟨slack', hcat, -, hspare⟩ :=
    sdscatlen_spare (c := c) fresh (by omega) (show slack.length < 2 ^ 31 by omega) ht
  have hlt := hf.spare_lt hb hspare
  refine ⟨slack', hcat, ?_⟩
  rw [List.length_append, List.length_take_of_le ht]
  omega

theorem sdscpylen_ok {len : Nat} (hb : c.length + slack.length < 2 ^ 31) (ht : len ≤ t.length)
    (hf : Fits len) :
    ∃ slack', sdscpylen (some fresh) (sdsOf c slack) t len = .ok (sdsOf (t.take len) slack') ∧
      (t.take len).length + slack'.length < 2 ^ 31 := by
  have hfit : 2 * len + SDS_MAX_PREALLOC < 2 ^ 31 := hf
  obtain ⟨slack', hcpy, -, hspare⟩ := sdscpylen_spare (c := c) fresh (by omega)
    (show slack.length < 2 ^ 31 by omega) (by omega : len < 2 ^ 31) ht (by omega)
  refine ⟨slack', hcpy, ?_⟩
  rw [List.length_take_of_le ht]
  rcases hspare with ⟨hlt, hspare⟩ | htotal
  · have hf' : Fits (c.length + (len - c.length)) := by rwa [Nat.add_sub_cancel' (by omega)]
    have hlt' := hf'.spare_lt hb hspare
    omega
  · omega

end Fits

end CPractice
