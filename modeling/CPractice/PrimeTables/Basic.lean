import CPractice.Lib.Block
import Mathlib.Data.Nat.Prime.Infinite
import Mathlib.Tactic.NormNum
import Mathlib.Tactic.Ring

/-! The prime tables of the googletest samples, and their sample function `IsPrime`. -/

namespace CPractice

namespace PrimeTables

open CMem

/-- `overflow` is signed arithmetic that leaves `int`, and `badArrayNewLength` a `new bool[n]` for a negative `n`. -/
inductive Fault where
  | overflow
  | badArrayNewLength
  | memory (fault : CMem.Fault)
  deriving DecidableEq, Repr

def int (x : Int) : Except Fault Int := if -2 ^ 31 ≤ x ∧ x < 2 ^ 31 then .ok x else .error .overflow

def access {α : Type} (x : Except CMem.Fault α) : Except Fault α := x.mapError .memory

namespace Sample1

def isPrimeLoop (n : Int) : Nat → Int → Except Fault Bool
  | 0, _ => .error (.memory .diverges)
  | fuel + 1, i =>
    if i > n.tdiv i then return true
    else if n.tmod i = 0 then return false
    else do isPrimeLoop n fuel (← int (i + 2))

def IsPrime (n : Int) : Except Fault Bool :=
  if n ≤ 1 then return false
  else if n.tmod 2 = 0 then return n == 2
  else isPrimeLoop n n.toNat 3

end Sample1

namespace OnTheFlyPrimeTable

def isPrimeLoop (n : Int) : Nat → Int → Except Fault Bool
  | 0, _ => .error (.memory .diverges)
  | fuel + 1, i => do
    if (← int (i * i)) ≤ n then
      if n.tmod i = 0 then return false else isPrimeLoop n fuel (← int (i + 1))
    else return true

def IsPrime (n : Int) : Except Fault Bool := if n ≤ 1 then return false else isPrimeLoop n n.toNat 2

def nextPrimeLoop : Nat → Int → Except Fault Int
  | 0, _ => .error (.memory .diverges)
  | fuel + 1, n =>
    if n > 0 then do
      if (← IsPrime n) then return n else nextPrimeLoop fuel (← int (n + 1))
    else return -1

def GetNextPrime (p : Int) : Except Fault Int := do
  let n ← int (p + 1)
  nextPrimeLoop (2 ^ 31 - n).toNat n

end OnTheFlyPrimeTable

structure PreCalculatedPrimeTable where
  is_prime_size_ : Int
  is_prime_ : List Bool
  deriving DecidableEq, Repr

namespace PreCalculatedPrimeTable

/-- Marks all multiples of `i` from `j` on as non-prime. -/
def markLoop (max i : Int) : Nat → Int → List Bool → Except Fault (List Bool)
  | 0, _, _ => .error (.memory .diverges)
  | fuel + 1, j, is_prime_ =>
    if j ≤ max then do
      let is_prime_ ← access (writeInt is_prime_ j false)
      markLoop max i fuel (← int (j + i)) is_prime_
    else return is_prime_

def sieveLoop (max : Int) : Nat → Int → List Bool → Except Fault (List Bool)
  | 0, _, _ => .error (.memory .diverges)
  | fuel + 1, i, is_prime_ =>
    if i ≤ max then do
      if (← access (readInt is_prime_ i)) then
        let is_prime_ ← markLoop max i (max.toNat + 1) (← int (2 * i)) is_prime_
        sieveLoop max fuel (← int (i + 1)) is_prime_
      else sieveLoop max fuel (← int (i + 1)) is_prime_
    else return is_prime_

def CalculatePrimesUpTo (max is_prime_size_ : Int) : Except Fault (List Bool) := do
  let is_prime_ := List.replicate is_prime_size_.toNat true
  let is_prime_ ← access (writeInt is_prime_ 1 false)
  let is_prime_ ← access (writeInt is_prime_ 0 false)
  sieveLoop max (max.toNat + 1) 2 is_prime_

def new (max : Int) : Except Fault PreCalculatedPrimeTable := do
  let is_prime_size_ ← int (max + 1)
  if is_prime_size_ < 0 then .error .badArrayNewLength
  else
    let is_prime_ ← CalculatePrimesUpTo max is_prime_size_
    return ⟨is_prime_size_, is_prime_⟩

def IsPrime (t : PreCalculatedPrimeTable) (n : Int) : Except Fault Bool :=
  if 0 ≤ n ∧ n < t.is_prime_size_ then access (readInt t.is_prime_ n) else return false

def nextPrimeLoop (t : PreCalculatedPrimeTable) : Nat → Int → Except Fault Int
  | 0, _ => .error (.memory .diverges)
  | fuel + 1, n =>
    if n < t.is_prime_size_ then do
      if (← access (readInt t.is_prime_ n)) then return n else nextPrimeLoop t fuel (← int (n + 1))
    else return -1

def GetNextPrime (t : PreCalculatedPrimeTable) (p : Int) : Except Fault Int := do
  let n ← int (p + 1)
  nextPrimeLoop t ((t.is_prime_size_ - n).toNat + 1) n

end PreCalculatedPrimeTable

structure HybridPrimeTable where
  precalc_impl_ : Option PreCalculatedPrimeTable
  max_precalculated_ : Int

namespace HybridPrimeTable

def new (force_on_the_fly : Bool) (max_precalculated : Int) : Except Fault HybridPrimeTable :=
  if force_on_the_fly then return ⟨none, max_precalculated⟩
  else do
    let t ← PreCalculatedPrimeTable.new max_precalculated
    return ⟨some t, max_precalculated⟩

def IsPrime (t : HybridPrimeTable) (n : Int) : Except Fault Bool :=
  match t.precalc_impl_ with
  | some precalc_impl_ =>
    if n < t.max_precalculated_ then precalc_impl_.IsPrime n else OnTheFlyPrimeTable.IsPrime n
  | none => OnTheFlyPrimeTable.IsPrime n

def GetNextPrime (t : HybridPrimeTable) (p : Int) : Except Fault Int := do
  let next_prime ← match t.precalc_impl_ with
    | some precalc_impl_ => if p < t.max_precalculated_ then precalc_impl_.GetNextPrime p else pure (-1)
    | none => pure (-1)
  if next_prime ≠ -1 then return next_prime else OnTheFlyPrimeTable.GetNextPrime p

end HybridPrimeTable

section Int

theorem int_ok {x : Int} (h : -2 ^ 31 ≤ x) (h' : x < 2 ^ 31) : int x = .ok x := if_pos ⟨h, h'⟩

theorem int_overflow {x : Int} (h : 2 ^ 31 ≤ x) : int x = .error .overflow :=
  if_neg fun hx => absurd hx.2 (by omega)

end Int

section TrialDivision

variable {n i fuel : Nat}

theorem prime_of_no_divisor (hn : 2 ≤ n) (hlt : n < i * i) (hfree : ∀ d, 2 ≤ d → d < i → ¬ d ∣ n) : n.Prime := by
  refine Nat.prime_def_le_sqrt.mpr ⟨hn, fun m hm hle => hfree m hm ?_⟩
  by_contra hge
  have hsq := Nat.mul_le_mul (Nat.le_of_not_lt hge) (Nat.le_of_not_lt hge)
  have hroot := Nat.mul_le_mul hle hle
  exact absurd (Nat.sqrt_le n) (by omega)

theorem not_prime_of_divisor (hi : 2 ≤ i) (hle : i * i ≤ n) (hdvd : i ∣ n) : ¬ n.Prime := by
  intro hp
  have hlt : i < n := Nat.lt_of_lt_of_le (Nat.lt_mul_self_iff.mpr hi) hle
  rcases (Nat.dvd_prime hp).mp hdvd with h | h
  · omega
  · omega

theorem free_succ (hfree : ∀ d, 2 ≤ d → d < i → ¬ d ∣ n) (hdvd : ¬ i ∣ n) : ∀ d, 2 ≤ d → d < i + 1 → ¬ d ∣ n := by
  intro d hd hlt
  rcases Nat.lt_succ_iff_lt_or_eq.mp hlt with h | rfl
  · exact hfree d hd h
  · exact hdvd

theorem tmod_eq_zero : ((n : Int).tmod i = 0) ↔ i ∣ n := by
  rw [← Int.natCast_dvd_natCast, Int.dvd_iff_tmod_eq_zero]

/-- The loop stops by itself below `46340 ^ 2`; a prime from there on takes `i * i` out of `int`. -/
theorem onTheFly_loop (hn : 2 ≤ n) (hmax : n < 2 ^ 31) (hi : 2 ≤ i) (hroot : i ≤ 46341)
    (hsq : (i - 1) * (i - 1) ≤ n)
    (hle : i ≤ n) (hfuel : n < fuel + i) (hfree : ∀ d, 2 ≤ d → d < i → ¬ d ∣ n) :
    OnTheFlyPrimeTable.isPrimeLoop n fuel i =
      if 46340 ^ 2 ≤ n ∧ n.Prime then .error .overflow else .ok (decide n.Prime) := by
  induction fuel generalizing i with
  | zero => omega
  | succ fuel ih =>
    rw [OnTheFlyPrimeTable.isPrimeLoop]
    rcases Nat.lt_or_ge i 46341 with hlt | hge
    · have hsquare : i * i ≤ 46340 * 46340 := Nat.mul_le_mul (by omega) (by omega)
      have hcast : ((i * i : Nat) : Int) = (i : Int) * i := Int.natCast_mul i i
      rw [int_ok (by omega) (by omega), ok_bind]
      by_cases hdiv : i * i ≤ n
      · rw [if_pos (by omega)]
        by_cases hdvd : i ∣ n
        · have hnot := not_prime_of_divisor hi hdiv hdvd
          rw [if_pos (tmod_eq_zero.mpr hdvd), if_neg (fun h => hnot h.2), decide_eq_false hnot]
          rfl
        · rw [if_neg (fun h => hdvd (tmod_eq_zero.mp h)), int_ok (by omega) (by omega), ok_bind]
          have hlt' : i < n := Nat.lt_of_lt_of_le (Nat.lt_mul_self_iff.mpr hi) hdiv
          exact ih (i := i + 1) (by omega) (by omega) hdiv hlt' (by omega) (free_succ hfree hdvd)
      · have hprime := prime_of_no_divisor hn (Nat.lt_of_not_le hdiv) hfree
        rw [if_neg (by omega), if_neg (fun h => by omega), decide_eq_true hprime]
        rfl
    · obtain rfl : i = 46341 := by omega
      have hprime := prime_of_no_divisor hn (by omega) hfree
      rw [int_overflow (by norm_num), error_bind, if_pos ⟨by omega, hprime⟩]

theorem sample1_loop (hn : 2 ≤ n) (hmax : n < 2 ^ 31) (hodd : ¬ 2 ∣ n) (hi : 2 ≤ i) (hiodd : ¬ 2 ∣ i) (hle : i ≤ n)
    (hfuel : n < fuel + i) (hfree : ∀ d, 2 ≤ d → d < i → ¬ d ∣ n) :
    Sample1.isPrimeLoop n fuel i = .ok (decide n.Prime) := by
  induction fuel generalizing i with
  | zero => omega
  | succ fuel ih =>
    rw [Sample1.isPrimeLoop]
    have hcond : ((i : Int) > (n : Int).tdiv i) ↔ n < i * i := by
      rw [← Int.ofNat_tdiv, gt_iff_lt, Int.ofNat_lt, Nat.div_lt_iff_lt_mul (by omega)]
    by_cases hstop : n < i * i
    · rw [if_pos (hcond.mpr hstop), decide_eq_true (prime_of_no_divisor hn hstop hfree)]
      rfl
    · rw [if_neg (fun h => hstop (hcond.mp h))]
      by_cases hdvd : i ∣ n
      · have hnot := not_prime_of_divisor hi (Nat.le_of_not_lt hstop) hdvd
        rw [if_pos (tmod_eq_zero.mpr hdvd), decide_eq_false hnot]
        rfl
      · have hroot : i < 46341 := by
          by_contra hge
          have hsquare : 46341 * 46341 ≤ i * i := Nat.mul_le_mul (Nat.le_of_not_lt hge) (Nat.le_of_not_lt hge)
          omega
        have htwice : i * 3 ≤ n := Nat.le_trans (Nat.mul_le_mul_left i (by omega)) (Nat.le_of_not_lt hstop)
        rw [if_neg (fun h => hdvd (tmod_eq_zero.mp h)), int_ok (by omega) (by omega), ok_bind]
        have heven : ¬ i + 1 ∣ n := fun h => hodd (Nat.dvd_trans (by omega) h)
        exact ih (i := i + 2) (by omega) (by omega) (by omega) (by omega) (free_succ (free_succ hfree hdvd) heven)

theorem onTheFly_isPrime (n : Int) (hmax : n < 2 ^ 31) :
    OnTheFlyPrimeTable.IsPrime n =
      if 46340 ^ 2 ≤ n ∧ n.toNat.Prime then .error .overflow else .ok (decide n.toNat.Prime) := by
  rw [OnTheFlyPrimeTable.IsPrime]
  split
  case isTrue h =>
    have hnot : ¬ n.toNat.Prime := fun hp => absurd hp.two_le (by omega)
    rw [if_neg (fun h => hnot h.2), decide_eq_false hnot]
    rfl
  case isFalse h =>
    lift n to Nat using (by omega)
    have hloop : OnTheFlyPrimeTable.isPrimeLoop n n (2 : Nat) = _ :=
      onTheFly_loop (by omega) (by omega) le_rfl (by omega) (by omega) (by omega) (by omega)
        (fun d hd hlt => by omega)
    rw [Int.toNat_natCast]
    exact_mod_cast hloop

theorem sample1_isPrime (n : Int) (hmax : n < 2 ^ 31) : Sample1.IsPrime n = .ok (decide n.toNat.Prime) := by
  rw [Sample1.IsPrime]
  split
  case isTrue h =>
    have hnot : ¬ n.toNat.Prime := fun hp => absurd hp.two_le (by omega)
    rw [decide_eq_false hnot]
    rfl
  case isFalse h =>
    lift n to Nat using (by omega)
    have heven : (n : Int).tmod 2 = 0 ↔ 2 ∣ n := tmod_eq_zero (i := 2)
    rw [Int.toNat_natCast]
    by_cases hdvd : 2 ∣ n
    · have hprime : n.Prime ↔ (n : Int) = 2 := by
        constructor
        · intro hp
          rcases (Nat.dvd_prime hp).mp hdvd with h | h
          · omega
          · omega
        · intro he
          rw [show n = 2 by omega]
          exact Nat.prime_two
      rw [if_pos (heven.mpr hdvd), decide_eq_decide.mpr hprime]
      rfl
    · rw [if_neg (fun h => hdvd (heven.mp h))]
      refine sample1_loop (i := 3) (by omega) (by omega) hdvd (by omega) (by omega) (by omega) (by omega) ?_
      intro d hd hlt
      rwa [show d = 2 by omega]

/-- Both functions tell primes from other numbers, but from `46340 ^ 2` on the first table computes a
square that is no `int` before it can say yes. -/
theorem prime_tests_exact (n : Int) (hmax : n < 2 ^ 31) :
    Sample1.IsPrime n = .ok (decide n.toNat.Prime) ∧
      OnTheFlyPrimeTable.IsPrime n =
        if 46340 ^ 2 ≤ n ∧ n.toNat.Prime then .error .overflow else .ok (decide n.toNat.Prime) :=
  ⟨sample1_isPrime n hmax, onTheFly_isPrime n hmax⟩

theorem prime_tests_exact_below_square :
    Sample1.IsPrime (46340 ^ 2) = .ok (decide (46340 ^ 2 : Int).toNat.Prime) ∧
      OnTheFlyPrimeTable.IsPrime (46340 ^ 2) =
        if 46340 ^ 2 ≤ (46340 ^ 2 : Int) ∧ (46340 ^ 2 : Int).toNat.Prime then .error .overflow
        else .ok (decide (46340 ^ 2 : Int).toNat.Prime) :=
  prime_tests_exact (46340 ^ 2) (by decide)

end TrialDivision

section NextPrime

/-- The smallest prime that is not below `n`. -/
def leastPrimeFrom (n : Nat) : Nat := Nat.find (Nat.exists_infinite_primes n)

theorem leastPrimeFrom_prime (n : Nat) : (leastPrimeFrom n).Prime :=
  (Nat.find_spec (Nat.exists_infinite_primes n)).2

theorem le_leastPrimeFrom (n : Nat) : n ≤ leastPrimeFrom n := (Nat.find_spec (Nat.exists_infinite_primes n)).1

theorem leastPrimeFrom_le {n p : Nat} (hle : n ≤ p) (hp : p.Prime) : leastPrimeFrom n ≤ p :=
  Nat.find_min' _ ⟨hle, hp⟩

theorem leastPrimeFrom_of_prime {n : Nat} (hn : n.Prime) : leastPrimeFrom n = n :=
  Nat.le_antisymm (leastPrimeFrom_le le_rfl hn) (le_leastPrimeFrom n)

theorem leastPrimeFrom_succ {n : Nat} (hn : ¬ n.Prime) : leastPrimeFrom (n + 1) = leastPrimeFrom n := by
  apply Nat.le_antisymm
  · refine leastPrimeFrom_le (Nat.lt_of_le_of_ne (le_leastPrimeFrom n) ?_) (leastPrimeFrom_prime n)
    intro he
    exact hn (he ▸ leastPrimeFrom_prime n)
  · exact leastPrimeFrom_le (Nat.le_of_succ_le (le_leastPrimeFrom (n + 1))) (leastPrimeFrom_prime (n + 1))

theorem onTheFly_nextPrimeLoop {n fuel : Nat} (hn : 0 < n) (hmax : n < 2 ^ 31) (hfuel : 2 ^ 31 ≤ fuel + n) :
    OnTheFlyPrimeTable.nextPrimeLoop fuel n =
      if leastPrimeFrom n < 46340 ^ 2 then .ok (leastPrimeFrom n : Int) else .error .overflow := by
  induction fuel generalizing n with
  | zero => omega
  | succ fuel ih =>
    have hprime := onTheFly_isPrime n (by omega)
    rw [Int.toNat_natCast] at hprime
    rw [OnTheFlyPrimeTable.nextPrimeLoop, if_pos (by omega), hprime]
    by_cases hp : n.Prime
    · rw [leastPrimeFrom_of_prime hp]
      by_cases hlarge : n < 46340 ^ 2
      · rw [if_neg (fun h => by omega), ok_bind, decide_eq_true hp, if_pos hlarge]
        rfl
      · rw [if_pos ⟨by omega, hp⟩, error_bind, if_neg hlarge]
    · rw [if_neg (fun h => hp h.2), ok_bind, decide_eq_false hp, ← leastPrimeFrom_succ hp,
        if_neg Bool.false_ne_true]
      rcases Nat.lt_or_ge (n + 1) (2 ^ 31) with hlt | hge
      · rw [int_ok (by omega) (by omega), ok_bind]
        exact ih (n := n + 1) (by omega) hlt (by omega)
      · have hle := le_leastPrimeFrom (n + 1)
        rw [int_overflow (by omega), error_bind, if_neg (by omega)]

theorem onTheFly_getNextPrime (p : Int) (hmin : -2 ^ 31 ≤ p) (hmax : p < 2 ^ 31) :
    OnTheFlyPrimeTable.GetNextPrime p =
      if p < 0 then .ok (-1)
      else if leastPrimeFrom (p + 1).toNat < 46340 ^ 2 then .ok (leastPrimeFrom (p + 1).toNat : Int)
      else .error .overflow := by
  rw [OnTheFlyPrimeTable.GetNextPrime]
  by_cases hneg : p < 0
  · have hfuel : (2 ^ 31 - (p + 1)).toNat = (2 ^ 31 - (p + 1)).toNat - 1 + 1 := by omega
    rw [int_ok (by omega) (by omega), ok_bind, hfuel, OnTheFlyPrimeTable.nextPrimeLoop, if_neg (by omega),
      if_pos hneg]
    rfl
  · lift p to Nat using (by omega)
    rw [if_neg hneg]
    rcases Nat.lt_or_ge (p + 1) (2 ^ 31) with hlt | hge
    · rw [int_ok (by omega) (by omega), ok_bind]
      exact onTheFly_nextPrimeLoop (n := p + 1) (by omega) hlt (by omega)
    · have hle := le_leastPrimeFrom ((p : Int) + 1).toNat
      rw [int_overflow (by omega), error_bind, if_neg (by omega)]

end NextPrime

end PrimeTables

end CPractice
