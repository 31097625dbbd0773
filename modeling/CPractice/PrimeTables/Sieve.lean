import CPractice.PrimeTables.Basic
import Mathlib.Data.List.GetD

/-! The sieve of the precalculated table, and the table that looks up what it can. -/

namespace CPractice

namespace PrimeTables

open CMem

section Table

variable {size : Nat} {f g : Nat → Bool}

def tableOf (size : Nat) (f : Nat → Bool) : List Bool := (List.range size).map f

theorem tableOf_congr (h : ∀ n < size, f n = g n) : tableOf size f = tableOf size g :=
  List.map_congr_left fun n hn => h n (List.mem_range.mp hn)

theorem access_readInt_tableOf {n : Nat} (hn : n < size) : access (readInt (tableOf size f) n) = .ok (f n) := by
  have hget : (tableOf size f)[n]? = some (f n) := by simp [tableOf, hn]
  rw [readInt, if_pos (Int.natCast_nonneg n), Int.toNat_natCast, readAt_ok hget]
  rfl

theorem access_writeInt_tableOf {n : Nat} (hn : n < size) (b : Bool) :
    access (writeInt (tableOf size f) n b) = .ok (tableOf size (Function.update f n b)) := by
  have hlen : n < (tableOf size f).length := by simp [tableOf, hn]
  have hset : (tableOf size f).set n b = tableOf size (Function.update f n b) := by
    apply List.ext_getElem
    · simp [tableOf]
    · intro k hk hk'
      simp only [tableOf, List.getElem_set, List.getElem_map, List.getElem_range, Function.update_apply]
      simp only [eq_comm]
  rw [writeInt, if_pos (Int.natCast_nonneg n), Int.toNat_natCast, writeAt_ok hlen, hset]
  rfl

theorem access_writeInt_outside {l : List Bool} {n : Nat} (h : l.length ≤ n) (b : Bool) :
    access (writeInt l n b) = .error (.memory .outOfBounds) := by
  rw [writeInt, if_pos (Int.natCast_nonneg n), Int.toNat_natCast, writeAt, if_neg (Nat.not_lt.mpr h)]
  rfl

end Table

open PreCalculatedPrimeTable

section Sieve

variable {max i fuel : Nat}

/-- The first multiple behind the table, of every prime from `k` on, is still an `int`. -/
def FitsFrom (k max : Nat) : Prop := ∀ p ≤ max, k ≤ p → p.Prime → p * (max / p + 1) < 2 ^ 31

instance FitsFrom.decidable (k max : Nat) : Decidable (FitsFrom k max) :=
  inferInstanceAs (Decidable (∀ p ≤ max, k ≤ p → p.Prime → p * (max / p + 1) < 2 ^ 31))

theorem markLoop_past {m : Nat} (hm : m ≤ max / i + 1) (hj : i * m < 2 ^ 31) (hlt : max < i * m) (f : Nat → Bool) :
    markLoop max i (fuel + 1) (i * m : Nat) (tableOf (max + 1) f) =
      if i * (max / i + 1) < 2 ^ 31 then .ok (tableOf (max + 1) fun n => f n && !decide (i ∣ n ∧ i * m ≤ n))
      else .error .overflow := by
  have hlast : m = max / i + 1 := Nat.le_antisymm hm (Nat.div_lt_of_lt_mul hlt)
  rw [markLoop, if_neg (by omega), ← hlast, if_pos hj]
  refine congrArg _ (tableOf_congr fun n hn => ?_)
  rw [decide_eq_false (by omega), Bool.not_false, Bool.and_true]

theorem markLoop_eq {m : Nat} (hi : 0 < i) (hm : m ≤ max / i + 1) (hj : i * m < 2 ^ 31) (hfuel : max < fuel + i * m)
    (f : Nat → Bool) : markLoop max i (fuel + 1) (i * m : Nat) (tableOf (max + 1) f) =
      if i * (max / i + 1) < 2 ^ 31 then .ok (tableOf (max + 1) fun n => f n && !decide (i ∣ n ∧ i * m ≤ n))
      else .error .overflow := by
  induction fuel generalizing m f with
  | zero => exact markLoop_past hm hj (by omega) f
  | succ fuel ih =>
    rcases Nat.lt_or_ge max (i * m) with hlt | hge
    · exact markLoop_past hm hj hlt f
    · have hnext : m + 1 ≤ max / i + 1 := Nat.succ_le_succ ((Nat.le_div_iff_mul_le hi).mpr (Nat.mul_comm m i ▸ hge))
      have hcast : ((i * m : Nat) : Int) + (i : Int) = ((i * (m + 1) : Nat) : Int) := by
        rw [Nat.mul_succ, Int.natCast_add]
      rw [markLoop, if_pos (by omega), access_writeInt_tableOf (by omega), ok_bind, hcast]
      rcases Nat.lt_or_ge (i * (m + 1)) (2 ^ 31) with hfits | hover
      · have hstep : i * (m + 1) = i * m + i := Nat.mul_succ i m
        rw [int_ok (by omega) (by omega), ok_bind, ih hnext hfits (by omega)]
        refine if_congr Iff.rfl (congrArg _ (tableOf_congr fun n hn => ?_)) rfl
        by_cases hn : n = i * m
        · subst hn
          simp
        · rw [Function.update_of_ne hn]
          congr 2
          refine decide_eq_decide.mpr (and_congr_right fun hdvd => ?_)
          constructor
          · omega
          · intro hle
            obtain ⟨k, rfl⟩ := hdvd
            exact Nat.mul_le_mul_left i (Nat.lt_of_mul_lt_mul_left (Nat.lt_of_le_of_ne hle (Ne.symm hn)))
      · have hle : i * (m + 1) ≤ i * (max / i + 1) := Nat.mul_le_mul_left i hnext
        rw [int_overflow (by omega), error_bind, if_neg (by omega)]

/-- What is left of the table when the multiples of all primes below `k` have gone. -/
def Sieved (k n : Nat) : Prop := 2 ≤ n ∧ ∀ p, p.Prime → p < k → p ∣ n → p = n

theorem sieved_self {k : Nat} (hk : 2 ≤ k) : Sieved k k ↔ k.Prime := by
  constructor
  · rintro ⟨-, hfree⟩
    by_contra hnot
    have hne : k ≠ 1 := by omega
    have hlt : k.minFac < k := (Nat.not_prime_iff_minFac_lt hk).mp hnot
    have heq := hfree _ (Nat.minFac_prime hne) hlt (Nat.minFac_dvd k)
    omega
  · intro hp
    refine ⟨hk, fun p hpp hlt hdvd => ?_⟩
    exact ((Nat.prime_dvd_prime_iff_eq hpp hp).mp hdvd)

theorem sieved_succ_of_prime {k n : Nat} (hp : k.Prime) : Sieved (k + 1) n ↔ Sieved k n ∧
    ¬ (k ∣ n ∧ k * 2 ≤ n) := by
  constructor
  · rintro ⟨hn, hfree⟩
    refine ⟨⟨hn, fun p hpp hlt => hfree p hpp (Nat.lt_succ_of_lt hlt)⟩, ?_⟩
    rintro ⟨hdvd, hle⟩
    have heq := hfree k hp (Nat.lt_succ_self k) hdvd
    omega
  · rintro ⟨⟨hn, hfree⟩, hnot⟩
    refine ⟨hn, fun p hpp hlt hdvd => ?_⟩
    rcases Nat.lt_succ_iff_lt_or_eq.mp hlt with h | rfl
    · exact hfree p hpp h hdvd
    · obtain ⟨m, rfl⟩ := hdvd
      have hm : m = 1 := by
        by_contra hne
        refine hnot ⟨Nat.dvd_mul_right p m, Nat.mul_le_mul_left p ?_⟩
        have hpos : 0 < m := Nat.pos_of_mul_pos_left (Nat.lt_of_lt_of_le Nat.zero_lt_two hn)
        omega
      rw [hm, Nat.mul_one]

theorem sieved_succ_of_not_prime {k n : Nat} (hp : ¬ k.Prime) : Sieved (k + 1) n ↔ Sieved k n := by
  refine and_congr_right fun _ => forall_congr' fun p => forall_congr' fun hpp => ?_
  have hne : p ≠ k := fun he => hp (he ▸ hpp)
  have hlt : p < k + 1 ↔ p < k := by omega
  rw [hlt]

theorem sieved_of_lt {k n : Nat} (h : n < k) : Sieved k n ↔ n.Prime := by
  constructor
  · rintro ⟨hn, hfree⟩
    have hmin := Nat.minFac_prime (show n ≠ 1 by omega)
    have heq := hfree _ hmin (Nat.lt_of_le_of_lt (Nat.minFac_le (by omega)) h) (Nat.minFac_dvd n)
    exact heq ▸ hmin
  · intro hp
    exact ⟨hp.two_le, fun p hpp _ hdvd => (Nat.prime_dvd_prime_iff_eq hpp hp).mp hdvd⟩

noncomputable def sieved (k n : Nat) : Bool := @decide (Sieved k n) (Classical.dec _)

theorem sieved_eq_true {k n : Nat} : sieved k n = true ↔ Sieved k n := @decide_eq_true_iff _ (Classical.dec _)

theorem fitsFrom_succ_of_not_prime {k : Nat} (hp : ¬ k.Prime) : FitsFrom (k + 1) max ↔ FitsFrom k max := by
  refine forall_congr' fun p => forall_congr' fun _ => ⟨fun h hk hpp => h ?_ hpp, fun h hk hpp => h (by omega) hpp⟩
  have hne : p ≠ k := fun he => hp (he ▸ hpp)
  omega

theorem fitsFrom_of_prime {k : Nat} (hp : k.Prime) (hle : k ≤ max) :
    FitsFrom k max ↔ k * (max / k + 1) < 2 ^ 31 ∧ FitsFrom (k + 1) max := by
  constructor
  · intro h
    exact ⟨h k hle le_rfl hp, fun p hpmax hk hpp => h p hpmax (by omega) hpp⟩
  · rintro ⟨hk, h⟩ p hpmax hkp hpp
    rcases Nat.eq_or_lt_of_le hkp with rfl | hlt
    · exact hk
    · exact h p hpmax hlt hpp

theorem sieveLoop_eq {k : Nat} (hk : 2 ≤ k) (hmax : max + 1 < 2 ^ 31) (hle : k ≤ max + 1)
    (hfuel : max + 1 < fuel + k) :
    sieveLoop max fuel k (tableOf (max + 1) (sieved k)) =
      if FitsFrom k max then .ok (tableOf (max + 1) fun n => decide n.Prime) else .error .overflow := by
  induction fuel generalizing k with
  | zero => omega
  | succ fuel ih =>
    rw [sieveLoop]
    rcases Nat.lt_or_ge max k with hlt | hge
    · have hfits : FitsFrom k max := fun p hp hkp => by omega
      rw [if_neg (by omega), if_pos hfits]
      refine congrArg _ (tableOf_congr fun n hn => ?_)
      rw [Bool.eq_iff_iff, sieved_eq_true, sieved_of_lt (by omega), decide_eq_true_iff]
    · have hstep : sieveLoop max fuel ((k : Int) + 1) (tableOf (max + 1) (sieved (k + 1))) =
          if FitsFrom (k + 1) max then .ok (tableOf (max + 1) fun n => decide n.Prime) else .error .overflow :=
        ih (k := k + 1) (by omega) (by omega) (by omega)
      have hsucc : int ((k : Int) + 1) = .ok ((k : Int) + 1) := int_ok (by omega) (by omega)
      rw [if_pos (by omega), access_readInt_tableOf (by omega), ok_bind]
      by_cases hp : k.Prime
      · rw [if_pos (sieved_eq_true.mpr ((sieved_self hk).mpr hp)), Int.toNat_natCast]
        have hdouble : 2 * (k : Int) = ((k * 2 : Nat) : Int) := by omega
        have hm : 2 ≤ max / k + 1 := Nat.succ_le_succ ((Nat.le_div_iff_mul_le (by omega)).mpr (by omega))
        rw [hdouble, if_congr (fitsFrom_of_prime hp hge) rfl rfl]
        rcases Nat.lt_or_ge (k * 2) (2 ^ 31) with hint | hover
        · rw [int_ok (by omega) (by omega), ok_bind, markLoop_eq (by omega) hm hint (by omega)]
          by_cases hfits : k * (max / k + 1) < 2 ^ 31
          · have hnext : tableOf (max + 1) (fun n => sieved k n && !decide (k ∣ n ∧ k * 2 ≤ n)) =
                tableOf (max + 1) (sieved (k + 1)) := by
              refine tableOf_congr fun n _ => ?_
              rw [Bool.eq_iff_iff, Bool.and_eq_true, Bool.not_eq_true', decide_eq_false_iff_not, sieved_eq_true,
                sieved_eq_true, sieved_succ_of_prime hp]
            rw [if_pos hfits, ok_bind, hsucc, ok_bind, hnext, hstep]
            exact if_congr (and_iff_right hfits).symm rfl rfl
          · rw [if_neg hfits, error_bind, if_neg (fun h => hfits h.1)]
        · have hlarge : k * 2 ≤ k * (max / k + 1) := Nat.mul_le_mul_left k hm
          rw [int_overflow (by omega), error_bind, if_neg (fun h => by omega)]
      · have hsame : sieved k = sieved (k + 1) := by
          funext n
          rw [Bool.eq_iff_iff, sieved_eq_true, sieved_eq_true, sieved_succ_of_not_prime hp]
        rw [if_neg (fun h => hp ((sieved_self hk).mp (sieved_eq_true.mp h))), hsucc, ok_bind, hsame, hstep]
        exact if_congr (fitsFrom_succ_of_not_prime hp) rfl rfl

end Sieve

section PreCalculated

variable {max : Nat}

def primeTable (max : Nat) : PreCalculatedPrimeTable := ⟨(max : Int) + 1, tableOf (max + 1) fun n => decide n.Prime⟩

theorem primeTable_size : (primeTable max).is_prime_size_ = (max : Int) + 1 := rfl

theorem calculatePrimesUpTo_eq (hpos : 1 ≤ max) (hmax : max + 1 < 2 ^ 31) : CalculatePrimesUpTo max (max + 1) =
    if FitsFrom 2 max then .ok (tableOf (max + 1) fun n => decide n.Prime) else .error .overflow := by
  have hfill : List.replicate ((max : Int) + 1).toNat true = tableOf (max + 1) fun _ => true := by
    rw [tableOf, List.map_const', List.length_range]
    rfl
  have hfirst : tableOf (max + 1) (Function.update (Function.update (fun _ => true) 1 false) 0 false) =
      tableOf (max + 1) (sieved 2) := by
    refine tableOf_congr fun n _ => ?_
    rw [Bool.eq_iff_iff, sieved_eq_true]
    have hsieved : Sieved 2 n ↔ 2 ≤ n := and_iff_left fun p hp hlt => absurd hp.two_le (by omega)
    rw [hsieved]
    by_cases h0 : n = 0
    · simp [h0]
    · by_cases h1 : n = 1
      · simp [h1]
      · simp only [Function.update_of_ne h0, Function.update_of_ne h1, true_iff]
        omega
  have hone := @access_writeInt_tableOf (max + 1) (fun _ => true) 1 (by omega) false
  have hzero := @access_writeInt_tableOf (max + 1) (Function.update (fun _ => true) 1 false) 0 (by omega) false
  have hsieve := @sieveLoop_eq max (max + 1) 2 le_rfl hmax (by omega) (by omega)
  rw [CalculatePrimesUpTo, hfill, Int.toNat_natCast]
  rw [Nat.cast_one] at hone
  rw [Nat.cast_zero, hfirst] at hzero
  rw [hone, ok_bind, hzero, ok_bind]
  exact hsieve

theorem preCalculated_new (max : Int) (hmin : -2 ^ 31 ≤ max) (hmax : max < 2 ^ 31) :
    PreCalculatedPrimeTable.new max =
      if max < -1 then .error .badArrayNewLength
      else if max < 1 then .error (.memory .outOfBounds)
      else if FitsFrom 2 max.toNat then .ok (primeTable max.toNat) else .error .overflow := by
  rw [PreCalculatedPrimeTable.new]
  by_cases hlast : max = 2 ^ 31 - 1
  · have hnot : ¬ FitsFrom 2 max.toNat := by
      intro h
      have hlt := h 2 (by omega) le_rfl Nat.prime_two
      omega
    rw [int_overflow (by omega), error_bind, if_neg (by omega), if_neg (by omega), if_neg hnot]
  · rw [int_ok (by omega) (by omega), ok_bind]
    by_cases hneg : max < -1
    · rw [if_pos (by omega), if_pos hneg]
    · rw [if_neg (by omega), if_neg hneg]
      by_cases hsmall : max < 1
      · have hlen : (List.replicate (max + 1).toNat true).length ≤ 1 := by
          rw [List.length_replicate]
          omega
        have hwrite := access_writeInt_outside hlen false
        rw [Nat.cast_one] at hwrite
        rw [if_pos hsmall, CalculatePrimesUpTo, hwrite]
        rfl
      · lift max to Nat using (by omega)
        rw [if_neg hsmall, calculatePrimesUpTo_eq (by omega) (by omega), Int.toNat_natCast]
        split
        · rfl
        · rfl

theorem fitsFrom_of_lt {max : Nat} (k : Nat) (h : max < 2 ^ 30) : FitsFrom k max := by
  intro p hp _ _
  have hmul : p * (max / p) ≤ max := Nat.mul_div_le max p
  rw [Nat.mul_succ]
  omega

theorem primeTable_isPrime (n : Int) :
    (primeTable max).IsPrime n = .ok (decide (n ≤ max ∧ n.toNat.Prime)) := by
  rw [PreCalculatedPrimeTable.IsPrime, primeTable_size]
  split
  case isTrue h =>
    obtain ⟨hn, hlt⟩ := h
    lift n to Nat using hn
    have hle : n < max + 1 := by exact_mod_cast hlt
    rw [primeTable, access_readInt_tableOf hle, Int.toNat_natCast]
    refine congrArg _ (decide_eq_decide.mpr (iff_and_self.mpr fun _ => ?_))
    omega
  case isFalse h =>
    have hnot : ¬ (n ≤ max ∧ n.toNat.Prime) := by
      rintro ⟨hle, hp⟩
      have htwo := hp.two_le
      exact h ⟨by omega, by omega⟩
    rw [decide_eq_false hnot]
    rfl

theorem primeTable_nextPrimeLoop {fuel n : Nat} (hmax : max + 1 < 2 ^ 31) (hfuel : max < fuel + n) :
    (primeTable max).nextPrimeLoop (fuel + 1) n =
      .ok (if leastPrimeFrom n ≤ max then (leastPrimeFrom n : Int) else -1) := by
  induction fuel generalizing n with
  | zero =>
    have hle := le_leastPrimeFrom n
    rw [PreCalculatedPrimeTable.nextPrimeLoop, primeTable_size, if_neg (by omega), if_neg (by omega)]
    rfl
  | succ fuel ih =>
    rw [PreCalculatedPrimeTable.nextPrimeLoop, primeTable_size]
    rcases Nat.lt_or_ge max n with hlt | hge
    · have hle := le_leastPrimeFrom n
      rw [if_neg (by omega), if_neg (by omega)]
      rfl
    · have hread : access (readInt (primeTable max).is_prime_ n) = .ok (decide n.Prime) :=
        access_readInt_tableOf (by omega)
      rw [if_pos (by omega), hread, ok_bind]
      by_cases hp : n.Prime
      · rw [decide_eq_true hp, leastPrimeFrom_of_prime hp, if_pos rfl, if_pos hge]
        rfl
      · rw [decide_eq_false hp, if_neg Bool.false_ne_true, int_ok (by omega) (by omega), ok_bind,
          ← leastPrimeFrom_succ hp]
        exact ih (n := n + 1) (by omega)

theorem primeTable_getNextPrime (hmax : max + 1 < 2 ^ 31) (p : Int) (hmin : -2 ^ 31 ≤ p) :
    (primeTable max).GetNextPrime p =
      if p < -1 then .error (.memory .outOfBounds)
      else if 2 ^ 31 - 1 ≤ p then .error .overflow
      else .ok (if leastPrimeFrom (p + 1).toNat ≤ max then (leastPrimeFrom (p + 1).toNat : Int) else -1) := by
  rw [PreCalculatedPrimeTable.GetNextPrime]
  by_cases hneg : p < -1
  · have hread : readInt (primeTable max).is_prime_ (p + 1) = .error .outOfBounds := if_neg (by omega)
    rw [int_ok (by omega) (by omega), ok_bind, PreCalculatedPrimeTable.nextPrimeLoop, primeTable_size,
      if_pos (by omega),
      hread, if_pos hneg]
    rfl
  · rw [if_neg hneg]
    by_cases hlast : 2 ^ 31 - 1 ≤ p
    · rw [int_overflow (by omega), error_bind, if_pos hlast]
    · rw [int_ok (by omega) (by omega), ok_bind, if_neg hlast]
      obtain ⟨n, hn⟩ := Int.eq_ofNat_of_zero_le (show 0 ≤ p + 1 by omega)
      rw [hn, Int.toNat_natCast, primeTable_size]
      exact primeTable_nextPrimeLoop hmax (by omega)

theorem eq_primeTable_of_new {max : Int} {t : PreCalculatedPrimeTable} (hmin : -2 ^ 31 ≤ max) (hmax : max < 2 ^ 31)
    (h : PreCalculatedPrimeTable.new max = .ok t) : 1 ≤ max ∧ max < 2 ^ 31 - 1 ∧ t = primeTable max.toNat := by
  rw [preCalculated_new max hmin hmax] at h
  split at h
  case isTrue => cases h
  case isFalse =>
    split at h
    case isTrue => cases h
    case isFalse hpos =>
      split at h
      case isTrue hfits =>
        have htwo := hfits 2
        cases h
        refine ⟨by omega, ?_, rfl⟩
        by_contra hlast
        have hlt := htwo (by omega) le_rfl Nat.prime_two
        omega
      case isFalse => cases h

/-- The table is built for every positive size whose sieve does not overflow, and then it knows the primes. -/
theorem sieve_exact (max : Int) (hmin : -2 ^ 31 ≤ max) (hmax : max < 2 ^ 31) :
    (PreCalculatedPrimeTable.new max =
      if max < -1 then .error .badArrayNewLength
      else if max < 1 then .error (.memory .outOfBounds)
      else if FitsFrom 2 max.toNat then .ok (primeTable max.toNat) else .error .overflow) ∧
      (1 ≤ max → max < 2 ^ 30 → FitsFrom 2 max.toNat) ∧
      ∀ t, PreCalculatedPrimeTable.new max = .ok t → ∀ n, t.IsPrime n = .ok (decide (n ≤ max ∧ n.toNat.Prime)) := by
  have hnew := preCalculated_new max hmin hmax
  refine ⟨hnew, fun _ hlt => fitsFrom_of_lt 2 (by omega), fun t ht n => ?_⟩
  obtain ⟨hpos, -, rfl⟩ := eq_primeTable_of_new hmin hmax ht
  rw [primeTable_isPrime, Int.toNat_of_nonneg (by omega)]

theorem sieve_exact_ten : (PreCalculatedPrimeTable.new 10 =
      if (10 : Int) < -1 then .error .badArrayNewLength
      else if (10 : Int) < 1 then .error (.memory .outOfBounds)
      else if FitsFrom 2 (10 : Int).toNat then .ok (primeTable (10 : Int).toNat) else .error .overflow) ∧
      (1 ≤ (10 : Int) → (10 : Int) < 2 ^ 30 → FitsFrom 2 (10 : Int).toNat) ∧
      ∀ t, PreCalculatedPrimeTable.new 10 = .ok t → ∀ n, t.IsPrime n = .ok (decide (n ≤ 10 ∧ n.toNat.Prime)) :=
  sieve_exact 10 (by decide) (by decide)

/-- The two tables give the next prime where they can. A negative argument is no number for the first and an
access before the array for the second, unless it is `-1`. -/
theorem next_prime_exact (max p : Int) (hmin : -2 ^ 31 ≤ max) (hmax : max < 2 ^ 31) (hp : -2 ^ 31 ≤ p)
    (hp' : p < 2 ^ 31) :
    (OnTheFlyPrimeTable.GetNextPrime p =
      if p < 0 then .ok (-1)
      else if leastPrimeFrom (p + 1).toNat < 46340 ^ 2 then .ok (leastPrimeFrom (p + 1).toNat : Int)
      else .error .overflow) ∧
      ∀ t, PreCalculatedPrimeTable.new max = .ok t → t.GetNextPrime p =
        if p < -1 then .error (.memory .outOfBounds)
        else if 2 ^ 31 - 1 ≤ p then .error .overflow
        else .ok (if leastPrimeFrom (p + 1).toNat ≤ max then (leastPrimeFrom (p + 1).toNat : Int) else -1) := by
  refine ⟨onTheFly_getNextPrime p hp hp', fun t ht => ?_⟩
  obtain ⟨hpos, hlt, rfl⟩ := eq_primeTable_of_new hmin hmax ht
  rw [primeTable_getNextPrime (by omega) p hp]
  lift max to Nat using (by omega)
  rw [Int.toNat_natCast]
  simp only [Int.ofNat_le]

theorem next_prime_exact_ten :
    (OnTheFlyPrimeTable.GetNextPrime 7 =
      if (7 : Int) < 0 then .ok (-1)
      else if leastPrimeFrom ((7 : Int) + 1).toNat < 46340 ^ 2 then .ok (leastPrimeFrom ((7 : Int) + 1).toNat : Int)
      else .error .overflow) ∧
      ∀ t, PreCalculatedPrimeTable.new 10 = .ok t → t.GetNextPrime 7 =
        if (7 : Int) < -1 then .error (.memory .outOfBounds)
        else if 2 ^ 31 - 1 ≤ (7 : Int) then .error .overflow
        else .ok (if leastPrimeFrom ((7 : Int) + 1).toNat ≤
          (10 : Int) then (leastPrimeFrom ((7 : Int) + 1).toNat : Int)
          else -1) :=
  next_prime_exact 10 7 (by decide) (by decide) (by decide) (by decide)

end PreCalculated

section Hybrid

variable {force_on_the_fly : Bool} {max : Int} {t : HybridPrimeTable}

theorem hybrid_new_eq_ok (hmin : -2 ^ 31 ≤ max) (hmax : max < 2 ^ 31)
    (h : HybridPrimeTable.new force_on_the_fly max = .ok t) :
    force_on_the_fly = true ∧ t = ⟨none, max⟩ ∨
      force_on_the_fly = false ∧ 1 ≤ max ∧ max < 2 ^ 31 - 1 ∧ t = ⟨some (primeTable max.toNat), max⟩ := by
  cases force_on_the_fly with
  | true =>
    cases h
    exact .inl ⟨rfl, rfl⟩
  | false =>
    obtain ⟨table, hnew, ht⟩ := bind_eq_ok.mp h
    cases ht
    obtain ⟨hpos, hlt, rfl⟩ := eq_primeTable_of_new hmin hmax hnew
    exact .inr ⟨rfl, hpos, hlt, rfl⟩

theorem hybrid_isPrime (hmin : -2 ^ 31 ≤ max) (hmax : max < 2 ^ 31)
    (h : HybridPrimeTable.new force_on_the_fly max = .ok t) (n : Int) (hn : n < 2 ^ 31) :
    t.IsPrime n =
      if (force_on_the_fly = true ∨ max ≤ n) ∧ 46340 ^ 2 ≤ n ∧ n.toNat.Prime then .error .overflow
      else .ok (decide n.toNat.Prime) := by
  obtain ⟨rfl, rfl⟩ | ⟨rfl, hpos, hlast, rfl⟩ := hybrid_new_eq_ok hmin hmax h
  · refine (onTheFly_isPrime n hn).trans (if_congr ?_ rfl rfl)
    simp
  · rw [HybridPrimeTable.IsPrime]
    dsimp only
    split
    case isTrue hlt =>
      rw [primeTable_isPrime, if_neg (by simp; omega)]
      refine congrArg _ (decide_eq_decide.mpr (and_iff_right ?_))
      omega
    case isFalse hge =>
      refine (onTheFly_isPrime n hn).trans (if_congr ?_ rfl rfl)
      simp [Int.not_lt.mp hge]

theorem hybrid_getNextPrime (hmin : -2 ^ 31 ≤ max) (hmax : max < 2 ^ 31)
    (h : HybridPrimeTable.new force_on_the_fly max = .ok t) (p : Int) (hp : -2 ^ 31 ≤ p) (hp' : p < 2 ^ 31) :
    t.GetNextPrime p =
      if force_on_the_fly = false ∧ p < -1 then .error (.memory .outOfBounds)
      else if p < 0 ∧ (force_on_the_fly = true ∨ max < 2) then .ok (-1)
      else if force_on_the_fly = false ∧ leastPrimeFrom (p + 1).toNat ≤ max ∨
          leastPrimeFrom (p + 1).toNat < 46340 ^ 2 then .ok (leastPrimeFrom (p + 1).toNat : Int)
      else .error .overflow := by
  have hfly := onTheFly_getNextPrime p hp hp'
  obtain ⟨rfl, rfl⟩ | ⟨rfl, hpos, hlast, rfl⟩ := hybrid_new_eq_ok hmin hmax h
  · have hside : ¬ (true = false ∧ p < -1) := fun h => Bool.noConfusion h.1
    rw [if_neg hside]
    refine hfly.trans (if_congr ?_ rfl (if_congr ?_ rfl rfl))
    · simp
    · simp
  · have htable := @primeTable_getNextPrime max.toNat (by omega) p hp
    rw [HybridPrimeTable.GetNextPrime]
    dsimp only
    by_cases hneg : p < -1
    · have hlt : p < max := by omega
      rw [if_pos hlt, htable, if_pos hneg, error_bind, if_pos ⟨rfl, hneg⟩]
    · have hside : ¬ (false = false ∧ p < -1) := fun h => hneg h.2
      have hleast := le_leastPrimeFrom (p + 1).toNat
      have htwo := (leastPrimeFrom_prime (p + 1).toNat).two_le
      rw [if_neg hneg] at htable
      rw [if_neg hside]
      by_cases hin : leastPrimeFrom (p + 1).toNat ≤ max
      · have hlt : p < max := by omega
        have hfound : (leastPrimeFrom (p + 1).toNat : Int) ≠ -1 := by omega
        have hnone : ¬ (p < 0 ∧ (false = true ∨ max < 2)) := by
          rintro ⟨-, h | h⟩
          · cases h
          · omega
        rw [if_neg (by omega), if_pos (by omega)] at htable
        rw [if_pos hlt, htable, ok_bind, if_pos hfound, if_neg hnone, if_pos (.inl ⟨rfl, hin⟩)]
        rfl
      · have hfirst : p < 0 → max < 2 := by
          intro h
          have hle : leastPrimeFrom (p + 1).toNat ≤ 2 := leastPrimeFrom_le (by omega) Nat.prime_two
          omega
        refine Eq.trans (b := OnTheFlyPrimeTable.GetNextPrime p) ?_ (hfly.trans ?_)
        · split
          · rw [htable, if_neg (by omega), if_neg (by omega), ok_bind, if_neg (not_not_intro rfl)]
          · rw [pure_bind, if_neg (not_not_intro rfl)]
        · refine if_congr ?_ rfl (if_congr ?_ rfl rfl)
          · simpa using hfirst
          · simp [hin]

/-- The table that looks up small numbers agrees with the one that calculates them all, except that it
overflows less often and that it can be asked for the prime behind `-1`, but not behind `-2`. -/
theorem hybrid_exact (hmin : -2 ^ 31 ≤ max) (hmax : max < 2 ^ 31)
    (h : HybridPrimeTable.new force_on_the_fly max = .ok t) (n : Int) (hn : -2 ^ 31 ≤ n) (hn' : n < 2 ^ 31) :
    (t.IsPrime n =
      if (force_on_the_fly = true ∨ max ≤ n) ∧ 46340 ^ 2 ≤ n ∧ n.toNat.Prime then .error .overflow
      else .ok (decide n.toNat.Prime)) ∧
      (t.GetNextPrime n =
        if force_on_the_fly = false ∧ n < -1 then .error (.memory .outOfBounds)
        else if n < 0 ∧ (force_on_the_fly = true ∨ max < 2) then .ok (-1)
        else if force_on_the_fly = false ∧ leastPrimeFrom (n + 1).toNat ≤ max ∨
            leastPrimeFrom (n + 1).toNat < 46340 ^ 2 then .ok (leastPrimeFrom (n + 1).toNat : Int)
        else .error .overflow) :=
  ⟨hybrid_isPrime hmin hmax h n hn', hybrid_getNextPrime hmin hmax h n hn hn'⟩

theorem hybrid_exact_on_the_fly :
    ((⟨none, 10⟩ : HybridPrimeTable).IsPrime (-1) =
      if (true = true ∨ 10 ≤ (-1 : Int)) ∧ 46340 ^ 2 ≤ (-1 : Int) ∧ (-1 : Int).toNat.Prime then .error .overflow
      else .ok (decide (-1 : Int).toNat.Prime)) ∧
      ((⟨none, 10⟩ : HybridPrimeTable).GetNextPrime (-1) =
        if true = false ∧ (-1 : Int) < -1 then .error (.memory .outOfBounds)
        else if (-1 : Int) < 0 ∧ (true = true ∨ (10 : Int) < 2) then .ok (-1)
        else if true = false ∧ leastPrimeFrom (-1 + 1 : Int).toNat ≤ (10 : Int) ∨
            leastPrimeFrom (-1 + 1 : Int).toNat < 46340 ^ 2 then .ok (leastPrimeFrom (-1 + 1 : Int).toNat : Int)
        else .error .overflow) :=
  hybrid_exact (by decide) (by decide) rfl (-1) (by decide) (by decide)

end Hybrid

end PrimeTables

end CPractice
