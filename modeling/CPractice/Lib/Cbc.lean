import Mathlib.Data.List.Basic
import Mathlib.Logic.Equiv.Basic

/-! Cipher block chaining over any blocks with an operation that undoes itself. -/

namespace Cbc

variable {X : Type} (op : X → X → X)

def encrypt (E : X → X) : X → List X → List X × X
  | iv, [] => ([], iv)
  | iv, b :: bs => (E (op b iv) :: (encrypt E (E (op b iv)) bs).1, (encrypt E (E (op b iv)) bs).2)

def decrypt (D : X → X) : X → List X → List X × X
  | iv, [] => ([], iv)
  | iv, c :: cs => (op (D c) iv :: (decrypt D c cs).1, (decrypt D c cs).2)

theorem encrypt_length (E : X → X) (iv : X) (bs : List X) : (encrypt op E iv bs).1.length = bs.length := by
  induction bs generalizing iv with
  | nil => rfl
  | cons b bs ih => simp [encrypt, ih]

theorem encrypt_last (E : X → X) (iv : X) (bs : List X) :
    (encrypt op E iv bs).2 = (encrypt op E iv bs).1.getLastD iv := by
  induction bs generalizing iv with
  | nil => rfl
  | cons b bs ih => rw [encrypt, List.getLastD_cons, ← ih]

variable {op}

theorem decrypt_encrypt {E D : X → X} (hop : ∀ a b, op (op a b) b = a) (hD : ∀ a, D (E a) = a) (iv : X)
    (bs : List X) :
    decrypt op D iv (encrypt op E iv bs).1 = (bs, (encrypt op E iv bs).2) := by
  induction bs generalizing iv with
  | nil => rfl
  | cons b bs ih => rw [encrypt, decrypt, ih, hD, hop]

section Bytes

variable {n : Nat}

def toBlocks (n : Nat) : Nat → List UInt8 → List (Vector UInt8 n)
  | 0, _ => []
  | k + 1, bytes => Vector.ofFn (fun i => bytes.getD i 0) :: toBlocks n k (bytes.drop n)

def ofBlocks (blocks : List (Vector UInt8 n)) : List UInt8 := blocks.flatMap Vector.toList

theorem toBlocks_length (k : Nat) (bytes : List UInt8) : (toBlocks n k bytes).length = k := by
  induction k generalizing bytes with
  | zero => rfl
  | succ k ih => simp [toBlocks, ih]

theorem ofBlocks_length (blocks : List (Vector UInt8 n)) : (ofBlocks blocks).length = n * blocks.length := by
  induction blocks with
  | nil => rfl
  | cons b blocks ih =>
    have hcons : ofBlocks (b :: blocks) = b.toList ++ ofBlocks blocks := rfl
    rw [hcons, List.length_append, ih, Vector.length_toList, List.length_cons, Nat.mul_succ, Nat.add_comm]

theorem ofBlocks_toBlocks {k : Nat} {bytes : List UInt8} (h : bytes.length = n * k) :
    ofBlocks (toBlocks n k bytes) = bytes := by
  induction k generalizing bytes with
  | zero => exact (List.eq_nil_of_length_eq_zero h).symm
  | succ k ih =>
    have hle : n ≤ bytes.length := by
      rw [h]
      exact Nat.le_mul_of_pos_right n k.succ_pos
    have hfirst : (Vector.ofFn fun i : Fin n => bytes.getD i 0).toList = bytes.take n := by
      apply List.ext_getElem
      · simp [hle]
      · intro i hi hi'
        simp at hi
        simp [List.getElem_take]
        rw [List.getElem?_eq_getElem (by omega)]
        rfl
    have hrest : ofBlocks (toBlocks n k (bytes.drop n)) = bytes.drop n := by
      apply ih
      rw [List.length_drop, h, Nat.mul_succ, Nat.add_sub_cancel]
    calc ofBlocks (toBlocks n (k + 1) bytes)
        = (Vector.ofFn fun i : Fin n => bytes.getD i 0).toList ++ ofBlocks (toBlocks n k (bytes.drop n)) := rfl
      _ = bytes.take n ++ bytes.drop n := by rw [hfirst, hrest]
      _ = bytes := List.take_append_drop n bytes

theorem toBlocks_ofBlocks (blocks : List (Vector UInt8 n)) :
    toBlocks n blocks.length (ofBlocks blocks) = blocks := by
  induction blocks with
  | nil => rfl
  | cons b blocks ih =>
    have hcons : ofBlocks (b :: blocks) = b.toList ++ ofBlocks blocks := rfl
    have hfirst : (Vector.ofFn fun i : Fin n => (b.toList ++ ofBlocks blocks).getD i 0) = b := by
      apply Vector.ext
      intro i hi
      have hi' : i < b.toList.length := by rwa [Vector.length_toList]
      simp [List.getElem?_append_left hi', hi]
    have hrest : (b.toList ++ ofBlocks blocks).drop n = ofBlocks blocks :=
      List.drop_left' (Vector.length_toList)
    rw [hcons, List.length_cons, toBlocks, hfirst, hrest, ih]

theorem ofBlocks_drop_last {blocks : List (Vector UInt8 n)} (hne : blocks ≠ []) (iv : Vector UInt8 n) :
    (ofBlocks blocks).drop ((ofBlocks blocks).length - n) = (blocks.getLastD iv).toList := by
  have hsplit : blocks = blocks.dropLast ++ [blocks.getLast hne] := (List.dropLast_concat_getLast hne).symm
  have hbytes : ofBlocks blocks = ofBlocks blocks.dropLast ++ (blocks.getLast hne).toList := by
    have happ := congrArg ofBlocks hsplit
    rw [happ]
    simp [ofBlocks]
  have hlast : blocks.getLastD iv = blocks.getLast hne := by
    rw [List.getLastD_eq_getLast?, List.getLast?_eq_some_getLast hne]
    rfl
  rw [hbytes, hlast]
  apply List.drop_left'
  rw [List.length_append, Vector.length_toList, Nat.add_sub_cancel]

end Bytes

end Cbc
