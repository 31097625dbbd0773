import CPractice.Lib.Block
import CPractice.Sds.Chars
import Mathlib.Algebra.Order.Ring.Int

/-! The decimal text of an integer, as `sdsll2str` and `sdsull2str` leave it in a buffer:
the digits come out last one first and are reversed in place. -/

namespace CPractice

open CMem

def SDS_LLSTR_SIZE : Nat := 21

/-- `do { *p++ = '0'+(v%10); v /= 10; } while(v);` -/
def digitLoop : Nat → List UInt8 → Nat → UInt64 → Except Fault (List UInt8 × Nat)
  | 0, _, _, _ => .error .diverges
  | fuel + 1, s, p, v => do
    let s ← writeAt s p (chr '0' + (v % 10).toUInt8)
    let v := v / 10
    if v ≠ 0 then digitLoop fuel s (p + 1) v else return (s, p + 1)

def reverseLoop : Nat → List UInt8 → Nat → Nat → Except Fault (List UInt8)
  | 0, _, _, _ => .error .diverges
  | fuel + 1, buf, s, p =>
    if s < p then do
      let aux ← readAt buf s
      let buf ← writeAt buf s (← readAt buf p)
      let buf ← writeAt buf p aux
      reverseLoop fuel buf (s + 1) (p - 1)
    else .ok buf

/-- The end of both functions: the terminator and the reversal. -/
def endStr (s : List UInt8) (p : Nat) : Except Fault (List UInt8 × Nat) := do
  let s ← writeAt s p 0
  let s ← reverseLoop (p + 1) s 0 (p - 1)
  return (s, p)

def sdsll2str (s : List UInt8) (value : Int64) : Except Fault (List UInt8 × Nat) := do
  let v := (if value < 0 then -value else value).toUInt64
  let (s, p) ← digitLoop (s.length + 1) s 0 v
  if value < 0 then
    let s ← writeAt s p (chr '-')
    endStr s (p + 1)
  else endStr s p

def sdsull2str (s : List UInt8) (v : UInt64) : Except Fault (List UInt8 × Nat) := do
  let (s, p) ← digitLoop (s.length + 1) s 0 v
  endStr s p

def decimal (n : Nat) : List UInt8 := (Nat.toDigits 10 n).map chr

def decimalInt (x : Int) : List UInt8 := if x < 0 then chr '-' :: decimal x.natAbs else decimal x.natAbs

theorem decimal_of_lt {n : Nat} (h : n < 10) : decimal n = [chr '0' + UInt8.ofNat n] := by
  rw [decimal, Nat.toDigits_of_lt_base h]
  simp only [List.map_cons, List.map_nil, chr, Nat.toNat_digitChar_of_lt_ten h]
  rw [UInt8.ofNat_add]
  rfl

theorem decimal_of_le {n : Nat} (h : 10 ≤ n) :
    decimal n = decimal (n / 10) ++ [chr '0' + UInt8.ofNat (n % 10)] := by
  have hlast := decimal_of_lt (Nat.mod_lt n (show 10 > 0 by decide))
  rw [decimal, Nat.toDigits_of_lt_base (Nat.mod_lt n (by decide))] at hlast
  rw [decimal, Nat.toDigits_of_base_le (by decide) h, List.map_append, hlast, decimal]

theorem decimal_length_pos (n : Nat) : 0 < (decimal n).length := by
  rw [decimal, List.length_map]
  exact Nat.length_toDigits_pos

theorem decimal_length_le {n k : Nat} (hk : 0 < k) (h : n < 10 ^ k) : (decimal n).length ≤ k := by
  rw [decimal, List.length_map]
  exact (Nat.length_toDigits_le_iff (by decide) hk).mpr h

theorem digit_eq (v : UInt64) : (v % 10).toUInt8 = UInt8.ofNat (v.toNat % 10) := by
  apply UInt8.toNat_inj.mp
  simp

theorem digitLoop_ok {fuel : Nat} {pre rest : List UInt8} {v : UInt64}
    (hfuel : (decimal v.toNat).length ≤ fuel) (hroom : (decimal v.toNat).length ≤ rest.length) :
    digitLoop fuel (pre ++ rest) pre.length v =
      .ok (pre ++ ((decimal v.toNat).reverse ++ rest.drop (decimal v.toNat).length),
        pre.length + (decimal v.toNat).length) := by
  have hpos := decimal_length_pos v.toNat
  induction fuel generalizing pre rest v with
  | zero => omega
  | succ fuel ih =>
    cases rest with
    | nil => exact absurd hroom (Nat.not_le_of_gt hpos)
    | cons b rest =>
      rw [digitLoop, writeAt_append, ok_bind, digit_eq]
      dsimp only
      have hdiv : (v / 10).toNat = v.toNat / 10 := by simp
      by_cases hv : 10 ≤ v.toNat
      · have hne : v / 10 ≠ 0 := by
          intro hzero
          rw [hzero] at hdiv
          simp only [UInt64.toNat_zero] at hdiv
          omega
        have hdec := decimal_of_le hv
        rw [← hdiv] at hdec
        have hlen : (decimal v.toNat).length = (decimal (v / 10).toNat).length + 1 := by rw [hdec, List.length_append]; rfl
        rw [List.length_cons] at hroom
        have hloop := @ih (pre ++ [chr '0' + UInt8.ofNat (v.toNat % 10)]) rest (v / 10)
          (by omega) (by omega) (decimal_length_pos _)
        rw [List.length_append, List.length_singleton, List.append_assoc, List.singleton_append] at hloop
        rw [if_pos hne, hloop, hlen, hdec, List.reverse_append, List.drop_succ_cons]
        simp [Nat.add_assoc, Nat.add_comm 1]
      · have hzero : v / 10 = 0 := by
          apply UInt64.toNat_inj.mp
          rw [hdiv]
          simp only [UInt64.toNat_zero]
          omega
        rw [if_neg (not_not.mpr hzero), decimal_of_lt (by omega), Nat.mod_eq_of_lt (by omega)]
        simp [pure, Except.pure]

theorem exists_ends {l : List UInt8} (h : 2 ≤ l.length) : ∃ a inner b, l = a :: inner ++ [b] := by
  cases l with
  | nil => simp at h
  | cons a l =>
    rcases List.eq_nil_or_concat l with rfl | ⟨inner, b, rfl⟩
    · simp at h
    · exact ⟨a, inner, b, by simp⟩

theorem reverseLoop_ok {fuel : Nat} {pre mid post : List UInt8} {p : Nat} (hfuel : mid.length < fuel)
    (hp : p + 1 = pre.length + mid.length) :
    reverseLoop fuel (pre ++ mid ++ post) pre.length p = .ok (pre ++ mid.reverse ++ post) := by
  induction fuel generalizing pre mid post p with
  | zero => omega
  | succ fuel ih =>
    rw [reverseLoop]
    by_cases hlt : pre.length < p
    · obtain ⟨a, inner, b, rfl⟩ := exists_ends (show 2 ≤ mid.length by omega)
      simp only [List.length_append, List.length_cons, List.length_nil] at hfuel hp
      have hb : p = (pre ++ a :: inner).length := by
        simp only [List.length_append, List.length_cons]
        omega
      have hb' : p = (pre ++ b :: inner).length := hb.trans (by simp)
      have hswap : pre ++ (a :: inner ++ [b]) ++ post = pre ++ a :: (inner ++ b :: post) := by simp
      have hread : readAt (pre ++ a :: (inner ++ b :: post)) p = .ok b := by
        rw [hb]
        simpa using readAt_append (pre ++ a :: inner) post b
      have hwrite : writeAt (pre ++ b :: (inner ++ b :: post)) p a = .ok (pre ++ b :: (inner ++ a :: post)) := by
        rw [hb']
        simpa using writeAt_append (pre ++ b :: inner) post b a
      have hloop := @ih (pre ++ [b]) inner (a :: post) (p - 1) (by omega) (by simp; omega)
      rw [if_pos hlt, hswap, readAt_append, ok_bind, hread, ok_bind, writeAt_append, ok_bind, hwrite, ok_bind]
      simpa using hloop
    · have hshort : mid.length ≤ 1 := by omega
      rw [if_neg hlt]
      have hrev : mid.reverse = mid := by
        match mid, hshort with
        | [], _ => rfl
        | [b], _ => rfl
      rw [hrev]

theorem endStr_ok {text rest : List UInt8} (htext : text ≠ []) (b : UInt8) :
    endStr (text ++ b :: rest) text.length = .ok (text.reverse ++ 0 :: rest, text.length) := by
  have hpos := List.length_pos_iff.mpr htext
  have hloop := @reverseLoop_ok (text.length + 1) [] text (0 :: rest) (text.length - 1) (by omega) (by simp; omega)
  rw [endStr, writeAt_append, ok_bind]
  simp only [List.nil_append, List.length_nil] at hloop
  rw [hloop, ok_bind]
  rfl

theorem digitLoop_buf {s : List UInt8} {v : UInt64} (h : (decimal v.toNat).length < s.length) :
    ∃ b rest, digitLoop (s.length + 1) s 0 v = .ok ((decimal v.toNat).reverse ++ b :: rest, (decimal v.toNat).length) ∧
      s.length = (decimal v.toNat).length + 1 + rest.length := by
  have hloop := @digitLoop_ok (s.length + 1) [] s v (by omega) (by omega)
  simp only [List.nil_append, List.length_nil, Nat.zero_add] at hloop
  refine ⟨s[(decimal v.toNat).length], s.drop ((decimal v.toNat).length + 1), ?_, ?_⟩
  · rw [hloop, List.drop_eq_getElem_cons h]
  · rw [List.length_drop]
    omega

theorem sdsull2str_ok {s : List UInt8} (h : s.length = SDS_LLSTR_SIZE) (v : UInt64) :
    ∃ rest, sdsull2str s v = .ok (decimal v.toNat ++ 0 :: rest, (decimal v.toNat).length) ∧
      (decimal v.toNat ++ 0 :: rest).length = SDS_LLSTR_SIZE := by
  have hlt := v.toNat_lt
  have hlen := decimal_length_le (n := v.toNat) (k := 20) (by decide) (by omega)
  have hsize : SDS_LLSTR_SIZE = 21 := rfl
  obtain ⟨b, rest, hloop, hrest⟩ := @digitLoop_buf s v (by omega)
  have hend := @endStr_ok (decimal v.toNat).reverse rest (by simpa using List.length_pos_iff.mp (decimal_length_pos _)) b
  rw [List.length_reverse, List.reverse_reverse] at hend
  refine ⟨rest, ?_, ?_⟩
  · rw [sdsull2str, hloop, ok_bind]
    exact hend
  · rw [List.length_append, List.length_cons]
    omega

theorem toInt_eq_toNat (value : Int64) :
    value.toInt = if 2 * value.toUInt64.toNat < 2 ^ 64 then (value.toUInt64.toNat : Int)
      else value.toUInt64.toNat - 2 ^ 64 := by
  rw [← Int64.toInt_toBitVec, BitVec.toInt_eq_toNat_cond, Int64.toNat_toBitVec]
  rfl

/-- The negation wraps around at the least value, and its unsigned reading is right there too. -/
theorem magnitude_eq (value : Int64) :
    (if value < 0 then -value else value).toUInt64.toNat = value.toInt.natAbs := by
  have hneg : value < 0 ↔ value.toInt < 0 := Int64.lt_iff_toInt_lt
  have hsize : UInt64.size = 2 ^ 64 := rfl
  have hlt := value.toUInt64.toNat_lt
  have heq := toInt_eq_toNat value
  split
  case isTrue h =>
    rw [hneg] at h
    rw [Int64.toUInt64_neg, UInt64.toNat_neg, hsize]
    split at heq <;> omega
  case isFalse h =>
    rw [hneg] at h
    split at heq <;> omega

theorem sdsll2str_ok {s : List UInt8} (h : s.length = SDS_LLSTR_SIZE) (value : Int64) :
    ∃ rest, sdsll2str s value = .ok (decimalInt value.toInt ++ 0 :: rest, (decimalInt value.toInt).length) ∧
      (decimalInt value.toInt ++ 0 :: rest).length = SDS_LLSTR_SIZE := by
  have hneg : value < 0 ↔ value.toInt < 0 := Int64.lt_iff_toInt_lt
  have hge := value.le_toInt
  have hlt := value.toInt_lt
  have hv := magnitude_eq value
  have hlen := decimal_length_le (n := value.toInt.natAbs) (k := 19) (by decide) (by omega)
  have hsize : SDS_LLSTR_SIZE = 21 := rfl
  rw [sdsll2str]
  dsimp only
  generalize (if value < 0 then -value else value).toUInt64 = v at hv ⊢
  rw [← hv] at hlen
  obtain ⟨b, rest, hloop, hrest⟩ := @digitLoop_buf s v (by omega)
  have hne : (decimal v.toNat).reverse ≠ [] := by simpa using List.length_pos_iff.mp (decimal_length_pos v.toNat)
  rw [hloop, ok_bind, decimalInt, ← hv]
  dsimp only
  by_cases h0 : value < 0
  · rw [if_pos h0, if_pos (hneg.mp h0)]
    obtain ⟨b', rest, rfl⟩ : ∃ b' rest', rest = b' :: rest' := by
      cases rest with
      | nil => simp only [List.length_nil] at hrest; omega
      | cons b' rest => exact ⟨b', rest, rfl⟩
    have hsign := writeAt_append (decimal v.toNat).reverse (b' :: rest) b (chr '-')
    have hend := @endStr_ok ((decimal v.toNat).reverse ++ [chr '-']) rest (by simp) b'
    rw [List.length_reverse] at hsign
    rw [List.length_append, List.length_reverse, List.length_singleton, List.append_assoc] at hend
    refine ⟨rest, ?_, ?_⟩
    · rw [hsign, ok_bind]
      simpa using hend
    · simp only [List.length_append, List.length_cons] at hrest ⊢
      omega
  · rw [if_neg h0, if_neg (fun hn => h0 (hneg.mpr hn))]
    have hend := @endStr_ok (decimal v.toNat).reverse rest hne b
    rw [List.length_reverse, List.reverse_reverse] at hend
    refine ⟨rest, hend, ?_⟩
    rw [List.length_append, List.length_cons]
    omega

end CPractice
