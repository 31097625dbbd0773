import Mathlib.Data.List.Basic
import Mathlib.Data.List.TakeWhile

/-! Memory blocks with partial accesses. An access outside the block is a fault
and never a longer block, so a computation that returns has stayed inside. -/

namespace CMem

inductive Fault where
  | outOfBounds
  | outOfMemory
  | assertionFailed
  | useAfterFree
  | diverges
  deriving DecidableEq, Repr

variable {ε α β : Type}

def readAt (buf : List α) (i : Nat) : Except Fault α :=
  if h : i < buf.length then .ok buf[i] else .error .outOfBounds

def writeAt (buf : List α) (i : Nat) (b : α) : Except Fault (List α) :=
  if i < buf.length then .ok (buf.set i b) else .error .outOfBounds

def memcpy (buf : List α) (off : Nat) (src : List α) (n : Nat) : Except Fault (List α) :=
  if n ≤ src.length ∧ off + n ≤ buf.length then
    .ok (buf.take off ++ src.take n ++ buf.drop (off + n))
  else .error .outOfBounds

def memset (buf : List α) (off : Nat) (b : α) (n : Nat) : Except Fault (List α) :=
  memcpy buf off (List.replicate n b) n

def memmove (buf : List α) (dst src n : Nat) : Except Fault (List α) := memcpy buf dst (buf.drop src) n

/-- An index that is computed in `int` can be negative. -/
def readInt (buf : List α) (i : Int) : Except Fault α :=
  if 0 ≤ i then readAt buf i.toNat else .error .outOfBounds

def memsetInt (buf : List α) (off : Int) (b : α) (n : Nat) : Except Fault (List α) :=
  if 0 ≤ off then memset buf off.toNat b n else .error .outOfBounds

def writeInt (buf : List α) (i : Int) (b : α) : Except Fault (List α) :=
  if 0 ≤ i then writeAt buf i.toNat b else .error .outOfBounds

def memcpyInt (buf : List α) (off : Int) (src : List α) (n : Nat) : Except Fault (List α) :=
  if 0 ≤ off then memcpy buf off.toNat src n else .error .outOfBounds

/-- `memcmp(buf+off, src, n) == 0`. -/
def memcmpInt [BEq α] (buf : List α) (off : Int) (src : List α) (n : Nat) : Except Fault Bool :=
  if 0 ≤ off ∧ off.toNat + n ≤ buf.length ∧ n ≤ src.length then .ok ((buf.drop off.toNat).take n == src.take n)
  else .error .outOfBounds

/-- The scan for the terminator leaves the block when the block holds none. -/
def strlen : List UInt8 → Except Fault Nat
  | [] => .error .outOfBounds
  | b :: buf => if b = 0 then .ok 0 else (strlen buf).map (· + 1)

def cString (mem : List UInt8) : List UInt8 := mem.takeWhile (· != 0)

/-- The terminator is part of the string that is searched. -/
def strchr : List UInt8 → UInt8 → Except Fault (Option Nat)
  | [], _ => .error .outOfBounds
  | b :: buf, c =>
    if b = c then .ok (some 0) else if b = 0 then .ok none else (strchr buf c).map (Option.map (· + 1))

@[simp] theorem ok_bind (a : α) (f : α → Except ε β) : (Except.ok a >>= f) = f a :=
  rfl

@[simp] theorem error_bind (e : ε) (f : α → Except ε β) :
    (Except.error e >>= f) = .error e := rfl

theorem bind_eq_ok {x : Except ε α} {f : α → Except ε β} {b : β} :
    (x >>= f) = .ok b ↔ ∃ a, x = .ok a ∧ f a = .ok b := by
  cases x <;> simp

theorem readAt_ok {buf : List α} {i : Nat} {b : α} (h : buf[i]? = some b) : readAt buf i = .ok b := by
  obtain ⟨hi, rfl⟩ := List.getElem?_eq_some_iff.mp h
  simp [readAt, hi]

theorem writeAt_ok {buf : List α} {i : Nat} (h : i < buf.length) (b : α) :
    writeAt buf i b = .ok (buf.set i b) := by
  simp [writeAt, h]

/-- Unless memory runs out, the computation returns something with `P`. -/
def Returns (x : Except Fault α) (P : α → Prop) : Prop := x = .error .outOfMemory ∨ ∃ a, x = .ok a ∧ P a

theorem returns_oom {P : α → Prop} : Returns (.error .outOfMemory) P := .inl rfl

theorem returns_ok {P : α → Prop} {a : α} (h : P a) : Returns (.ok a) P := .inr ⟨a, rfl, h⟩

theorem Returns.bind {x : Except Fault α} {f : α → Except Fault β} {P : α → Prop} {Q : β → Prop} (hx : Returns x P)
    (hf : ∀ a, P a → Returns (f a) Q) : Returns (x >>= f) Q := by
  rcases hx with rfl | ⟨a, rfl, ha⟩
  · exact returns_oom
  · exact hf a ha

theorem Returns.mono {x : Except Fault α} {P Q : α → Prop} (hx : Returns x P) (h : ∀ a, P a → Q a) : Returns x Q := by
  rcases hx with rfl | ⟨a, rfl, ha⟩
  · exact returns_oom
  · exact returns_ok (h a ha)

theorem getElem?_of_readAt {buf : List α} {i : Nat} {b : α} (h : readAt buf i = .ok b) : buf[i]? = some b := by
  rw [readAt] at h
  split at h
  case isTrue hi => rw [List.getElem?_eq_getElem hi, Except.ok.inj h]
  case isFalse => cases h

theorem readAt_append (pre rest : List α) (b : α) : readAt (pre ++ b :: rest) pre.length = .ok b := by
  apply readAt_ok
  simp

theorem writeAt_append (pre rest : List α) (b c : α) :
    writeAt (pre ++ b :: rest) pre.length c = .ok (pre ++ c :: rest) := by
  rw [writeAt_ok (by simp), List.set_append_right _ _ le_rfl, Nat.sub_self, List.set_cons_zero]

theorem memcpy_ok {buf src : List α} {off n : Nat} (hn : n ≤ src.length)
    (hb : off + n ≤ buf.length) :
    memcpy buf off src n = .ok (buf.take off ++ src.take n ++ buf.drop (off + n)) := by
  simp [memcpy, hn, hb]

theorem writeAt_length {buf buf' : List α} {i : Nat} {b : α} (h : writeAt buf i b = .ok buf') :
    buf'.length = buf.length := by
  rw [writeAt] at h
  split at h
  · cases h
    exact List.length_set
  · cases h

theorem memcpy_length {buf buf' src : List α} {off n : Nat} (h : memcpy buf off src n = .ok buf') :
    buf'.length = buf.length := by
  rw [memcpy] at h
  split at h
  case isTrue hn =>
    cases h
    simp only [List.length_append, List.length_take, List.length_drop]
    omega
  case isFalse => cases h

theorem memset_ok {buf : List α} {off n : Nat} (hb : off + n ≤ buf.length) (b : α) :
    memset buf off b n = .ok (buf.take off ++ List.replicate n b ++ buf.drop (off + n)) := by
  simp [memset, memcpy, hb]

theorem strlen_ok {buf : List UInt8} (h : (0 : UInt8) ∈ buf) :
    strlen buf = .ok (cString buf).length := by
  unfold cString
  induction buf with
  | nil => simp at h
  | cons b buf ih =>
    by_cases hb : b = 0
    · simp [strlen, hb]
    · have hm : (0 : UInt8) ∈ buf := by
        rcases List.mem_cons.mp h with he | hm
        · exact absurd he.symm hb
        · exact hm
      simp [strlen, hb, ih hm, Except.map]

theorem strchr_ok {buf : List UInt8} (h : (0 : UInt8) ∈ buf) (c : UInt8) :
    ∃ r, strchr buf c = .ok r ∧ (r.isSome = true ↔ c = 0 ∨ c ∈ cString buf) := by
  unfold cString
  induction buf with
  | nil => simp at h
  | cons b buf ih =>
    by_cases hbc : b = c
    · refine ⟨some 0, by rw [strchr, if_pos hbc], ?_⟩
      by_cases hb : b = 0
      · simp [← hbc, hb]
      · simp [← hbc, hb]
    · by_cases hb : b = 0
      · refine ⟨none, by rw [strchr, if_neg hbc, if_pos hb], ?_⟩
        have hc : c ≠ 0 := fun hc => hbc (hb.trans hc.symm)
        simp [hb, hc]
      · have hm : (0 : UInt8) ∈ buf := (List.mem_cons.mp h).resolve_left fun he => hb he.symm
        obtain ⟨r, hr, hiff⟩ := ih hm
        refine ⟨r.map (· + 1), by rw [strchr, if_neg hbc, if_neg hb, hr]; rfl, ?_⟩
        have hcb : c ≠ b := fun he => hbc he.symm
        simp [hiff, hb, hcb]

theorem take_cString (mem : List UInt8) : mem.take (cString mem).length = cString mem :=
  (List.prefix_iff_eq_take.mp (List.takeWhile_prefix _)).symm

theorem length_cString_le (mem : List UInt8) : (cString mem).length ≤ mem.length :=
  (List.takeWhile_prefix _).length_le

theorem length_cString_lt {mem : List UInt8} (h : (0 : UInt8) ∈ mem) : (cString mem).length < mem.length := by
  have hle := length_cString_le mem
  by_contra hge
  have heq : cString mem = mem := (List.takeWhile_prefix _).eq_of_length (Nat.le_antisymm hle (Nat.le_of_not_lt hge))
  have hnz := List.takeWhile_eq_self_iff.mp heq 0 h
  simp at hnz

theorem cString_append_of_mem {l : List UInt8} (h : (0 : UInt8) ∈ l) (r : List UInt8) :
    cString (l ++ r) = cString l := by
  induction l with
  | nil => simp at h
  | cons b l ih =>
    by_cases hb : b = 0
    · simp [cString, hb]
    · have hm : (0 : UInt8) ∈ l := (List.mem_cons.mp h).resolve_left fun he => hb he.symm
      have hl := ih hm
      simp only [cString] at hl ⊢
      simp [hb, hl]

theorem cString_append_zero (l r : List UInt8) : cString (l ++ 0 :: r) = cString l := by
  induction l with
  | nil => simp [cString]
  | cons b l ih =>
    simp only [cString] at ih ⊢
    by_cases hb : b = 0
    · simp [hb]
    · simp [hb, ih]

theorem cString_of_not_mem {l : List UInt8} (h : (0 : UInt8) ∉ l) : cString l = l := by
  rw [cString, List.takeWhile_eq_self_iff]
  intro x hx
  simpa using fun hz : x = 0 => h (hz ▸ hx)

end CMem
