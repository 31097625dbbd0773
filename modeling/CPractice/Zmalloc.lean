import CPractice.Lib.Block
import Mathlib.Algebra.Group.Nat.Defs

/-! The blocks handed out by the allocation wrappers of `zmalloc.c` in the libc
build. `malloc` is outside the repository: each call is given what it returned. -/

namespace CPractice

open CMem

def PREFIX_SIZE : Nat := 8

abbrev Malloc := Option (Nat → UInt8)

def freshBytes (fresh : Nat → UInt8) (n : Nat) : List UInt8 := (List.range n).map fresh

/-- The bytes a caller may use of a block requested with `size+PREFIX_SIZE` in
`size_t`. A sum that wraps below the prefix leaves no room for the prefix itself. -/
def usableSize (size : Nat) : Except Fault Nat :=
  if PREFIX_SIZE ≤ (size + PREFIX_SIZE) % 2 ^ 64 then
    .ok ((size + PREFIX_SIZE) % 2 ^ 64 - PREFIX_SIZE)
  else .error .outOfBounds

/-- NULL never reaches a caller: the out-of-memory handler aborts. -/
def zmalloc (m : Malloc) (size : Nat) : Except Fault (List UInt8) :=
  match m with
  | none => .error .outOfMemory
  | some fresh => do
    let n ← usableSize size
    return freshBytes fresh n

def zcalloc (m : Malloc) (size : Nat) : Except Fault (List UInt8) :=
  zmalloc (m.map fun _ _ => 0) size

/-- `realloc` keeps the old bytes up to the smaller of the two sizes. -/
def zrealloc (m : Malloc) (ptr : List UInt8) (size : Nat) : Except Fault (List UInt8) :=
  match m with
  | none => .error .outOfMemory
  | some fresh => do
    let n ← usableSize size
    return ptr.take n ++ freshBytes fresh (n - ptr.length)

@[simp] theorem freshBytes_length (fresh : Nat → UInt8) (n : Nat) :
    (freshBytes fresh n).length = n := by
  simp [freshBytes]

theorem usableSize_of_lt {size : Nat} (h : size + PREFIX_SIZE < 2 ^ 64) :
    usableSize size = .ok size := by
  rw [usableSize, Nat.mod_eq_of_lt h, if_pos (Nat.le_add_left _ _), Nat.add_sub_cancel]

theorem zmalloc_ok (size : Nat) (h : size + PREFIX_SIZE < 2 ^ 64) (fresh : Nat → UInt8) :
    zmalloc (some fresh) size = .ok (freshBytes fresh size) := by
  simp only [zmalloc, usableSize_of_lt h]
  rfl

theorem zcalloc_ok (size : Nat) (h : size + PREFIX_SIZE < 2 ^ 64) (fresh : Nat → UInt8) :
    zcalloc (some fresh) size = .ok (List.replicate size 0) := by
  simp [zcalloc, zmalloc_ok size h, freshBytes]

theorem zrealloc_ok (size : Nat) (h : size + PREFIX_SIZE < 2 ^ 64) (fresh : Nat → UInt8)
    (ptr : List UInt8) :
    zrealloc (some fresh) ptr size = .ok (ptr.take size ++ freshBytes fresh (size - ptr.length)) := by
  simp only [zrealloc, usableSize_of_lt h]
  rfl

end CPractice
