import CPractice.Sds.Chars
import CPractice.Sds.Split

/-! The argument splitter `sdssplitargs`. A cursor is the memory from `p` on, so
a read behind the terminator of the line is a read outside the block. -/

namespace CPractice

open CMem CInt

def is_hex_digit (c : UInt8) : Bool :=
  (chr '0' ≤ c && c ≤ chr '9') || (chr 'a' ≤ c && c ≤ chr 'f') || (chr 'A' ≤ c && c ≤ chr 'F')

def hex_digit_to_int (c : UInt8) : Nat :=
  if chr '0' ≤ c ∧ c ≤ chr '9' then (c - chr '0').toNat
  else if chr 'a' ≤ c ∧ c ≤ chr 'f' then (c - chr 'a').toNat + 10
  else if chr 'A' ≤ c ∧ c ≤ chr 'F' then (c - chr 'A').toNat + 10
  else 0

/-- `allocs` counts the calls of `zmalloc` and `zrealloc`. -/
structure Token where
  p : List UInt8
  current : Sdshdr
  allocs : Nat
  inq : Bool
  insq : Bool
  done : Bool
  deriving DecidableEq, Repr

def Token.start (p : List UInt8) (current : Sdshdr) (allocs : Nat) : Token :=
  { p, current, allocs, inq := false, insq := false, done := false }

def Token.cat (m : Nat → Malloc) (t : Token) (c : List UInt8) : Except Fault Token := do
  let current ← sdscatlen (m t.allocs) t.current c 1
  return { t with current, allocs := t.allocs + 1 }

/-- The test for `\xHH` reads as far as the digits it has already recognised. -/
def hexEscape (p : List UInt8) : Except Fault (Option UInt8) := do
  if (← readAt p 0) ≠ chr '\\' then return none
  if (← readAt p 1) ≠ chr 'x' then return none
  let hi ← readAt p 2
  if !is_hex_digit hi then return none
  let lo ← readAt p 3
  if !is_hex_digit lo then return none
  return some (UInt8.ofNat (hex_digit_to_int hi * 16 + hex_digit_to_int lo))

def startsEscape (p : List UInt8) : Except Fault Bool := do
  if (← readAt p 0) ≠ chr '\\' then return false
  return (← readAt p 1) ≠ 0

def startsQuoteEscape (p : List UInt8) : Except Fault Bool := do
  if (← readAt p 0) ≠ chr '\\' then return false
  return (← readAt p 1) = chr '\''

def unescape (c : UInt8) : UInt8 :=
  if c = chr 'n' then chr '\n'
  else if c = chr 'r' then chr '\r'
  else if c = chr 't' then chr '\t'
  else if c = chr 'b' then 8
  else if c = chr 'a' then 7
  else c

def closesArgument (p : List UInt8) : Except Fault Bool := do
  let c ← readAt p 1
  return c = 0 || isspace c

def doubleQuoted (m : Nat → Malloc) (t : Token) : Except Fault (Option Token) := do
  match ← hexEscape t.p with
  | some byte =>
    let t ← t.cat m [byte]
    return some { t with p := t.p.drop 3 }
  | none =>
    if ← startsEscape t.p then
      let t ← t.cat m [unescape (← readAt t.p 1)]
      return some { t with p := t.p.drop 1 }
    else
      let c ← readAt t.p 0
      if c = chr '"' then
        if ← closesArgument t.p then return some { t with done := true } else return none
      else if c = 0 then return none
      else return some (← t.cat m t.p)

def singleQuoted (m : Nat → Malloc) (t : Token) : Except Fault (Option Token) := do
  if ← startsQuoteEscape t.p then
    let t ← t.cat m [chr '\'', 0]
    return some { t with p := t.p.drop 1 }
  else
    let c ← readAt t.p 0
    if c = chr '\'' then
      if ← closesArgument t.p then return some { t with done := true } else return none
    else if c = 0 then return none
    else return some (← t.cat m t.p)

def unquoted (m : Nat → Malloc) (t : Token) : Except Fault (Option Token) := do
  let c ← readAt t.p 0
  if c = chr ' ' ∨ c = chr '\n' ∨ c = chr '\r' ∨ c = chr '\t' ∨ c = 0 then
    return some { t with done := true }
  else if c = chr '"' then return some { t with inq := true }
  else if c = chr '\'' then return some { t with insq := true }
  else return some (← t.cat m t.p)

def tokenStep (m : Nat → Malloc) (t : Token) : Except Fault (Option Token) := do
  match ← (if t.inq then doubleQuoted m t else if t.insq then singleQuoted m t else unquoted m t) with
  | none => return none
  | some t => if (← readAt t.p 0) ≠ 0 then return some { t with p := t.p.drop 1 } else return some t

def tokenLoop (m : Nat → Malloc) : Nat → Token → Except Fault (Option Token)
  | 0, _ => .error .diverges
  | fuel + 1, t =>
    if t.done then .ok (some t)
    else do
      match ← tokenStep m t with
      | none => return none
      | some t => tokenLoop m fuel t

def skipBlanks : List UInt8 → Except Fault (List UInt8)
  | [] => .error .outOfBounds
  | c :: p => if c ≠ 0 ∧ isspace c then skipBlanks p else .ok (c :: p)

structure ArgVector where
  vector : Option (List (Option Sdshdr))
  argc : Int
  allocs : Nat
  deriving DecidableEq, Repr

def ArgVector.add (m : Nat → Malloc) (a : ArgVector) (current : Sdshdr) (allocs : Nat) : Except Fault ArgVector := do
  let vector ← tokenArray (m allocs) (a.vector.getD []) (toInt (a.argc + 1))
  let vector ← writeInt vector a.argc (some current)
  return { vector := some vector, argc := toInt (a.argc + 1), allocs := allocs + 1 }

/-- "Even on empty input string return something not NULL." -/
def ArgVector.result (m : Nat → Malloc) (a : ArgVector) : Except Fault (Option (List (Option Sdshdr)) × Int) := do
  match a.vector with
  | some vector => return (some vector, a.argc)
  | none => return (some (← tokenArray (m a.allocs) [] 1), a.argc)

/-- The array and `*argc`; the array is `none` for NULL, after `goto err`. -/
def splitLoop (m : Nat → Malloc) : Nat → List UInt8 → ArgVector → Except Fault (Option (List (Option Sdshdr)) × Int)
  | 0, _, _ => .error .diverges
  | fuel + 1, p, a => do
    let p ← skipBlanks p
    if (← readAt p 0) = 0 then a.result m
    else
      let current ← sdsempty (m a.allocs)
      match ← tokenLoop m (p.length + 1) (Token.start p current (a.allocs + 1)) with
      | none => return (none, 0)
      | some t => splitLoop m fuel t.p (← a.add m t.current t.allocs)

/-- The line is the block that holds it. A non-terminating loop would take more
iterations than the block has bytes. -/
def sdssplitargs (m : Nat → Malloc) (line : List UInt8) : Except Fault (Option (List (Option Sdshdr)) × Int) :=
  splitLoop m (line.length + 1) line { vector := none, argc := 0, allocs := 0 }

end CPractice
