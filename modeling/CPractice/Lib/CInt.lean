import Mathlib.Algebra.Group.Int.Defs
import Mathlib.Algebra.Group.Nat.Defs
import Mathlib.Data.Int.Init

/-! The integer types that C code converts between when it keeps lengths in `int`
fields and computes with them in `size_t`, or in `unsigned`. -/

namespace CInt

def toInt (x : Int) : Int := (x + 2 ^ 31) % 2 ^ 32 - 2 ^ 31

def toSize (x : Int) : Nat := (x % 2 ^ 64).toNat

def toUnsigned (x : Int) : Nat := (x % 2 ^ 32).toNat

theorem toInt_of_range {x : Int} (h : -2 ^ 31 ≤ x) (h' : x < 2 ^ 31) : toInt x = x := by
  unfold toInt
  omega

theorem toInt_eq_natCast {x : Int} {n : Nat} (h : x = n) (hlt : n < 2 ^ 31) : toInt x = n := by
  rw [h, toInt_of_range (by omega) (by omega)]

theorem toInt_nonneg_iff (x : Int) : 0 ≤ toInt x ↔ x % 2 ^ 32 < 2 ^ 31 := by
  unfold toInt
  omega

theorem toInt_le {x : Int} (h : 0 ≤ x) : toInt x ≤ x := by
  unfold toInt
  omega

theorem toInt_lt (x : Int) : toInt x < 2 ^ 31 := by
  unfold toInt
  omega

theorem toInt_toInt_sub (x y : Int) : toInt (toInt x - y) = toInt (x - y) := by
  unfold toInt
  omega

theorem toInt_add_toInt (x y : Int) : toInt (x + toInt y) = toInt (x + y) := by
  unfold toInt
  omega

theorem toInt_toSize_sub (x y : Int) : toInt (toSize x - y) = toInt (x - y) := by
  unfold toInt toSize
  omega

theorem toSize_of_range {x : Int} (h : 0 ≤ x) (h' : x < 2 ^ 64) : toSize x = x.toNat := by
  unfold toSize
  omega

theorem toSize_eq_natCast {x : Int} {n : Nat} (h : x = n) (hlt : n < 2 ^ 64) : toSize x = n := by
  rw [h, toSize_of_range (by omega) (by omega), Int.toNat_natCast]

theorem toUnsigned_eq_natCast {x : Int} {n : Nat} (h : x = n) (hlt : n < 2 ^ 32) : toUnsigned x = n := by
  unfold toUnsigned
  omega

theorem toInt_emod (x : Int) : toInt x % 2 ^ 32 = x % 2 ^ 32 := by
  unfold toInt
  omega

theorem toInt_congr {x y : Int} (h : x % 2 ^ 32 = y % 2 ^ 32) : toInt x = toInt y := by
  unfold toInt
  omega

/-- A product that is taken in `int` wraps around once, at its end. -/
theorem toInt_toInt_mul (x y : Int) : toInt (toInt x * y) = toInt (x * y) := by
  apply toInt_congr
  rw [Int.mul_emod, toInt_emod, ← Int.mul_emod]

theorem toSize_toSize_mul (x y : Int) : toSize (toSize x * toSize y) = toSize (x * y) := by
  have hcast : ∀ z : Int, (toSize z : Int) = z % 2 ^ 64 := fun z => Int.toNat_of_nonneg (Int.emod_nonneg z (by decide))
  rw [hcast, hcast, toSize, toSize, ← Int.mul_emod]

/-- A negative `int` becomes a `size_t` above all others, and the rest stay as they are. -/
theorem toSize_toInt_lt {x : Int} (h : toSize (toInt x) < 2 ^ 63) : toSize (toInt x) < 2 ^ 31 := by
  have hlt := toInt_lt x
  have hge : -2 ^ 31 ≤ toInt x := by
    unfold toInt
    omega
  generalize toInt x = z at h hlt hge ⊢
  unfold toSize at h ⊢
  omega

end CInt
