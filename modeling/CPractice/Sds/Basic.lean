import CPractice.Lib.CInt
import CPractice.Zmalloc

/-! The dynamic strings of `sds.c`: a header with two `int` fields in front of a
byte buffer. Lengths are computed in `size_t` and stored back into `int`. -/

namespace CPractice

open CMem CInt

def SDS_MAX_PREALLOC : Nat := 1024 * 1024

def SDSHDR_SIZE : Nat := 8

/-- The header fields and the bytes the allocation has left for `buf`. -/
structure Sdshdr where
  len : Int
  free : Int
  buf : List UInt8
  deriving DecidableEq, Repr

def sdslen (s : Sdshdr) : Nat := toSize s.len

def sdsavail (s : Sdshdr) : Nat := toSize s.free

def bufOf (block : List UInt8) : Except Fault (List UInt8) :=
  if SDSHDR_SIZE ≤ block.length then .ok (block.drop SDSHDR_SIZE) else .error .outOfBounds

def sdsnewlen (m : Malloc) (init : Option (List UInt8)) (initlen : Nat) : Except Fault Sdshdr := do
  let size := (SDSHDR_SIZE + initlen + 1) % 2 ^ 64
  let block ← (if init.isSome then zmalloc m size else zcalloc m size)
  let buf ← bufOf block
  let buf ← (match init with
    | some t => if initlen ≠ 0 then memcpy buf 0 t initlen else .ok buf
    | none => .ok buf)
  let buf ← writeAt buf initlen 0
  return { len := toInt initlen, free := 0, buf }

def sdsempty (m : Malloc) : Except Fault Sdshdr := sdsnewlen m (some [0]) 0

def sdsnew (m : Malloc) (init : Option (List UInt8)) : Except Fault Sdshdr := do
  let initlen ← (match init with
    | none => .ok 0
    | some t => strlen t)
  sdsnewlen m init initlen

def sdsdup (m : Malloc) (s : Sdshdr) : Except Fault Sdshdr :=
  sdsnewlen m (some s.buf) (sdslen s)

def sdsupdatelen (s : Sdshdr) : Except Fault Sdshdr := do
  let reallen := toInt (← strlen s.buf)
  return { s with free := toInt (s.free + (s.len - reallen)), len := reallen }

def sdsclear (s : Sdshdr) : Except Fault Sdshdr := do
  let buf ← writeAt s.buf 0 0
  return { len := 0, free := toInt (s.free + s.len), buf }

def reallocBuf (m : Malloc) (buf : List UInt8) (size : Nat) : Except Fault (List UInt8) := do
  let block ← zrealloc m (List.replicate SDSHDR_SIZE 0 ++ buf) size
  bufOf block

def preallocLen (newlen : Nat) : Nat :=
  if newlen < SDS_MAX_PREALLOC then newlen * 2 else (newlen + SDS_MAX_PREALLOC) % 2 ^ 64

def sdsMakeRoomFor (m : Malloc) (s : Sdshdr) (addlen : Nat) : Except Fault Sdshdr :=
  if sdsavail s ≥ addlen then .ok s
  else do
    let len := sdslen s
    let newlen := preallocLen ((len + addlen) % 2 ^ 64)
    let buf ← reallocBuf m s.buf ((SDSHDR_SIZE + newlen + 1) % 2 ^ 64)
    return { s with free := toInt (newlen - len : Int), buf }

def sdsRemoveFreeSpace (m : Malloc) (s : Sdshdr) : Except Fault Sdshdr := do
  let buf ← reallocBuf m s.buf ((SDSHDR_SIZE + sdslen s + 1) % 2 ^ 64)
  return { s with free := 0, buf }

/-- The terminator is stored through `s[sh->len]`, so a negative length is a
store in front of the buffer. -/
def writeNul (buf : List UInt8) (len : Int) : Except Fault (List UInt8) :=
  if 0 ≤ len then writeAt buf len.toNat 0 else .error .outOfBounds

def sdsIncrLen (s : Sdshdr) (incr : Int) : Except Fault Sdshdr :=
  if s.free ≥ incr then do
    let len := toInt (s.len + incr)
    let free := toInt (s.free - incr)
    if free ≥ 0 then
      let buf ← writeNul s.buf len
      return { len, free, buf }
    else .error .assertionFailed
  else .error .assertionFailed

def sdsgrowzero (m : Malloc) (s : Sdshdr) (len : Nat) : Except Fault Sdshdr :=
  let curlen := sdslen s
  if len ≤ curlen then .ok s
  else do
    let s ← sdsMakeRoomFor m s (len - curlen)
    let buf ← memset s.buf curlen 0 ((len - curlen + 1) % 2 ^ 64)
    let totlen := toSize (toInt (s.len + s.free))
    let newlen := toInt len
    return { len := newlen, free := toInt (totlen - newlen), buf }

def sdscatlen (m : Malloc) (s : Sdshdr) (t : List UInt8) (len : Nat) : Except Fault Sdshdr := do
  let curlen := sdslen s
  let s ← sdsMakeRoomFor m s len
  let buf ← memcpy s.buf curlen t len
  let buf ← writeAt buf ((curlen + len) % 2 ^ 64) 0
  return { len := toInt (curlen + len), free := toInt (s.free - len), buf }

def sdscat (m : Malloc) (s : Sdshdr) (t : List UInt8) : Except Fault Sdshdr := do
  sdscatlen m s t (← strlen t)

def sdscatsds (m : Malloc) (s t : Sdshdr) : Except Fault Sdshdr :=
  sdscatlen m s t.buf (sdslen t)

def sdscpylen (m : Malloc) (s : Sdshdr) (t : List UInt8) (len : Nat) : Except Fault Sdshdr := do
  let s ← (if toSize (toInt (s.free + s.len)) < len then
      sdsMakeRoomFor m s (toSize (len - s.len))
    else .ok s)
  let totlen := toSize (toInt (s.free + s.len))
  let buf ← memcpy s.buf 0 t len
  let buf ← writeAt buf len 0
  return { len := toInt len, free := toInt (totlen - len), buf }

end CPractice
