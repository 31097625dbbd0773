import CPractice.Sds.Decimal
import CPractice.Sds.Growth

/-! Decimal text read back as a number. -/

namespace CPractice

open CMem

/-- The buffer is on the stack, so its bytes are arbitrary at first. -/
def sdsfromlonglong (m : Malloc) (buf : List UInt8) (value : Int64) : Except Fault Sdshdr := do
  let (buf, len) ← sdsll2str buf value
  sdsnewlen m (some buf) len

theorem sdsfromlonglong_ok {buf : List UInt8} (h : buf.length = SDS_LLSTR_SIZE) (value : Int64) (fresh : Nat → UInt8) :
    sdsfromlonglong (some fresh) buf value = .ok (sdsOf (decimalInt value.toInt) []) := by
  obtain ⟨rest, hstr, hlen⟩ := sdsll2str_ok h value
  have hsize : SDS_LLSTR_SIZE = 21 := rfl
  have hle : (decimalInt value.toInt).length ≤ (decimalInt value.toInt ++ 0 :: rest).length := by simp
  rw [sdsfromlonglong, hstr, ok_bind]
  dsimp only
  rw [sdsnewlen_some _ hle (by omega), List.take_left]

def isdigit (c : UInt8) : Bool := chr '0' ≤ c && c ≤ chr '9'

def numeral (digits : List UInt8) : Nat := digits.foldl (fun n c => 10 * n + (c - chr '0').toNat) 0

def parseNat (text : List UInt8) : Option Nat :=
  if text ≠ [] ∧ text.all isdigit then some (numeral text) else none

def parseInt : List UInt8 → Option Int
  | [] => none
  | c :: text =>
    if c = chr '-' then (parseNat text).map fun n => -Int.ofNat n else (parseNat (c :: text)).map Int.ofNat

theorem digit_sub {d : Nat} (h : d < 10) : (chr '0' + UInt8.ofNat d - chr '0').toNat = d := by
  rw [UInt8.add_comm, UInt8.add_sub_cancel, UInt8.toNat_ofNat_of_lt' (by show d < 256; omega)]

theorem isdigit_digit {d : Nat} (h : d < 10) : isdigit (chr '0' + UInt8.ofNat d) = true := by
  have hall : ∀ d : Fin 10, isdigit (chr '0' + UInt8.ofNat d) = true := by decide
  exact hall ⟨d, h⟩

theorem decimal_induction {P : Nat → Prop} (hdigit : ∀ n, n < 10 → P n) (htens : ∀ n, 10 ≤ n → P (n / 10) → P n)
    (n : Nat) : P n := by
  induction n using Nat.strongRecOn with
  | _ n ih =>
    by_cases h : n < 10
    · exact hdigit n h
    · exact htens n (by omega) (ih _ (by omega))

theorem numeral_append (text : List UInt8) {d : Nat} (h : d < 10) :
    numeral (text ++ [chr '0' + UInt8.ofNat d]) = 10 * numeral text + d := by
  rw [numeral, List.foldl_append, List.foldl_cons, List.foldl_nil, digit_sub h]
  rfl

theorem numeral_decimal (n : Nat) : numeral (decimal n) = n := by
  induction n using decimal_induction with
  | hdigit n h =>
    rw [decimal_of_lt h, ← List.nil_append [_], numeral_append [] h]
    exact Nat.zero_add n
  | htens n h ih =>
    rw [decimal_of_le h, numeral_append _ (Nat.mod_lt n (by decide)), ih]
    omega

theorem isdigit_of_mem_decimal {n : Nat} : ∀ c ∈ decimal n, isdigit c = true := by
  induction n using decimal_induction with
  | hdigit n h =>
    intro c hc
    rw [decimal_of_lt h, List.mem_singleton] at hc
    rw [hc]
    exact isdigit_digit h
  | htens n h ih =>
    intro c hc
    rw [decimal_of_le h, List.mem_append, List.mem_singleton] at hc
    rcases hc with hc | rfl
    · exact ih c hc
    · exact isdigit_digit (Nat.mod_lt n (by decide))

theorem decimal_ne_nil (n : Nat) : decimal n ≠ [] := List.length_pos_iff.mp (decimal_length_pos n)

theorem parseNat_decimal (n : Nat) : parseNat (decimal n) = some n := by
  rw [parseNat, if_pos ⟨decimal_ne_nil n, List.all_eq_true.mpr isdigit_of_mem_decimal⟩, numeral_decimal]

/-- A zero stands first only when it stands alone. -/
def NoLeadingZero (digits : List UInt8) : Prop := digits.head? = some (chr '0') → digits = [chr '0']

theorem decimal_noLeadingZero (n : Nat) : NoLeadingZero (decimal n) := by
  have hhead : 0 < n → (decimal n).head? ≠ some (chr '0') := by
    induction n using decimal_induction with
    | hdigit n h =>
      intro hpos heq
      rw [decimal_of_lt h, List.head?_cons, Option.some.injEq] at heq
      have hsub := digit_sub h
      rw [heq, UInt8.sub_self] at hsub
      exact absurd hsub (by simp; omega)
    | htens n h ih =>
      intro _
      rw [decimal_of_le h, List.head?_append_of_ne_nil _ (decimal_ne_nil _)]
      exact ih (by omega)
  intro hzero
  rcases Nat.eq_zero_or_pos n with rfl | hpos
  · rfl
  · exact absurd hzero (hhead hpos)

/-- `text` with its terminator at the front of a buffer, and the length that is returned. -/
def Stored (out : Except Fault (List UInt8 × Nat)) (text : List UInt8) : Prop :=
  0 ∉ text ∧ ∃ rest, out = .ok (text ++ 0 :: rest, text.length) ∧ (text ++ 0 :: rest).length = SDS_LLSTR_SIZE

/-- The canonical text of an integer: the sign of a negative one, and no leading zeros. -/
def Canonical (x : Int) (text : List UInt8) : Prop :=
  ∃ digits, NoLeadingZero digits ∧ digits ≠ [] ∧ digits.all isdigit ∧
    text = if x < 0 then chr '-' :: digits else digits

theorem not_mem_of_isdigit {c : UInt8} (hc : isdigit c = false) (n : Nat) : c ∉ decimal n := by
  intro hmem
  have hd := isdigit_of_mem_decimal c hmem
  rw [hc] at hd
  cases hd

theorem decimalInt_canonical (x : Int) : Canonical x (decimalInt x) :=
  ⟨decimal x.natAbs, decimal_noLeadingZero _, decimal_ne_nil _, List.all_eq_true.mpr isdigit_of_mem_decimal, rfl⟩

theorem not_mem_decimalInt {c : UInt8} (hc : isdigit c = false) (hsign : c ≠ chr '-') (x : Int) : c ∉ decimalInt x := by
  have hdigits := not_mem_of_isdigit hc x.natAbs
  rw [decimalInt]
  split
  · intro hmem
    rcases List.mem_cons.mp hmem with h | h
    · exact hsign h
    · exact hdigits h
  · exact hdigits

theorem zero_not_mem_decimalInt (x : Int) : 0 ∉ decimalInt x := not_mem_decimalInt (by decide) (by decide) x

theorem parseInt_decimalInt (x : Int) : parseInt (decimalInt x) = some x := by
  rw [decimalInt]
  split
  · rw [parseInt, if_pos rfl, parseNat_decimal, Option.map_some, Option.some.injEq, Int.ofNat_eq_natCast]
    omega
  · obtain ⟨c, text, htext⟩ := List.exists_cons_of_ne_nil (decimal_ne_nil x.natAbs)
    have hc : c ≠ chr '-' := by
      rintro rfl
      exact not_mem_of_isdigit (by decide) x.natAbs (htext ▸ List.mem_cons_self)
    rw [htext, parseInt, if_neg hc, ← htext, parseNat_decimal, Option.map_some, Option.some.injEq, Int.ofNat_eq_natCast]
    omega

theorem decimalInt_natCast (n : Nat) : decimalInt n = decimal n := by
  rw [decimalInt, if_neg (by omega), Int.natAbs_natCast]

/-- What both functions leave in a buffer of `SDS_LLSTR_SIZE` bytes, for every value of 64 bits. -/
theorem ll2str_canonical {s : List UInt8} (hs : s.length = SDS_LLSTR_SIZE) :
    (∀ value : Int64, ∃ text, Stored (sdsll2str s value) text ∧ Canonical value.toInt text ∧
      parseInt text = some value.toInt) ∧
    ∀ v : UInt64, ∃ text, Stored (sdsull2str s v) text ∧ Canonical v.toNat text ∧ parseInt text = some (v.toNat : Int) := by
  constructor
  · intro value
    exact ⟨decimalInt value.toInt, ⟨zero_not_mem_decimalInt _, sdsll2str_ok hs value⟩, decimalInt_canonical _,
      parseInt_decimalInt _⟩
  · intro v
    have hstored := sdsull2str_ok hs v
    rw [← decimalInt_natCast] at hstored
    exact ⟨decimalInt v.toNat, ⟨zero_not_mem_decimalInt _, hstored⟩, decimalInt_canonical _, parseInt_decimalInt _⟩

theorem ll2str_canonical_least :
    (List.replicate 21 (0 : UInt8)).length = SDS_LLSTR_SIZE ∧
      ∃ text, Stored (sdsll2str (List.replicate 21 0) Int64.minValue) text ∧
        parseInt text = some Int64.minValue.toInt := by
  have hlen : (List.replicate 21 (0 : UInt8)).length = SDS_LLSTR_SIZE := rfl
  obtain ⟨text, hstored, -, hparse⟩ := (ll2str_canonical hlen).1 Int64.minValue
  exact ⟨hlen, text, hstored, hparse⟩

end CPractice
