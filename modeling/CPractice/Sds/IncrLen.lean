import CPractice.Sds.Sizes

/-! Appending in place: `sdsMakeRoomFor`, a write of the caller into the free space, and
`sdsIncrLen` for what was written. The two asserts of `sdsIncrLen` look at `free` only. -/

namespace CPractice

open CMem CInt

/-- In `write` the caller stores `bytes` at `s+sdslen(s)+off`. -/
inductive RoomOp where
  | makeRoomFor (addlen : Nat) (fresh : Nat → UInt8)
  | write (off : Nat) (bytes : List UInt8)
  | incrLen (incr : Int)

namespace RoomOp

def exec (s : Sdshdr) : RoomOp → Except Fault Sdshdr
  | .makeRoomFor addlen fresh => sdsMakeRoomFor (some fresh) s addlen
  | .write off bytes => do
    let buf ← memcpy s.buf (sdslen s + off) bytes bytes.length
    return { s with buf }
  | .incrLen incr => sdsIncrLen s incr

def Issued (s : Sdshdr) : RoomOp → Prop
  | .makeRoomFor addlen _ => addlen < 2 ^ 64
  | .write off bytes => off + bytes.length ≤ sdsavail s
  | .incrLen incr => -2 ^ 31 ≤ incr ∧ incr < 2 ^ 31

instance Issued.decidable (s : Sdshdr) : ∀ o : RoomOp, Decidable (o.Issued s)
  | .makeRoomFor addlen _ => inferInstanceAs (Decidable (addlen < 2 ^ 64))
  | .write off bytes => inferInstanceAs (Decidable (off + bytes.length ≤ sdsavail s))
  | .incrLen _ => inferInstanceAs (Decidable (_ ∧ _))

/-- An increment that the asserts let through leaves the length in the range of `int`. -/
def Safe (s : Sdshdr) : RoomOp → Prop
  | .makeRoomFor addlen _ => addlen ≤ s.free ∨ addlen + SDS_MAX_PREALLOC < 2 ^ 31
  | .write _ _ => True
  | .incrLen incr => s.free < incr ∨ 2 ^ 31 ≤ s.free - incr ∨ 0 ≤ s.len + incr ∧ s.len + incr < 2 ^ 31

instance Safe.decidable (s : Sdshdr) : ∀ o : RoomOp, Decidable (o.Safe s)
  | .makeRoomFor _ _ | .incrLen _ => inferInstanceAs (Decidable (_ ∨ _))
  | .write _ _ => inferInstanceAs (Decidable True)

/-- The string is well-formed after the call, and `sdsIncrLen` has kept the size and
stored the terminator at the new end. -/
structure Kept (o : RoomOp) (s s' : Sdshdr) : Prop where
  sized : Sized s'
  incr : ∀ incr, o = .incrLen incr → s'.len + s'.free = s.len + s.free ∧ s'.buf[s'.len.toNat]? = some 0

end RoomOp

def Along (P : Sdshdr → RoomOp → Prop) : List RoomOp → Sdshdr → Prop
  | [], _ => True
  | o :: os, s => P s o ∧ match o.exec s with
    | .ok s' => Along P os s'
    | .error _ => True

instance Along.decidable (P : Sdshdr → RoomOp → Prop) [∀ s o, Decidable (P s o)] :
    ∀ (os : List RoomOp) (s : Sdshdr), Decidable (Along P os s)
  | [], _ => .isTrue trivial
  | o :: os, s => @instDecidableAnd _ _ _ <| match o.exec s with
    | .ok s' => Along.decidable P os s'
    | .error _ => .isTrue trivial

def KeepsAlong : List RoomOp → Sdshdr → Prop
  | [], s => Sized s
  | o :: os, s => Sized s ∧ match o.exec s with
    | .ok s' => o.Kept s s' ∧ KeepsAlong os s'
    | .error e => e = .assertionFailed

section Step

variable {s : Sdshdr}

theorem makeRoomFor_kept (h : Sized s) {addlen : Nat} {fresh : Nat → UInt8}
    (hsafe : RoomOp.Safe s (.makeRoomFor addlen fresh)) :
    ∃ s', sdsMakeRoomFor (some fresh) s addlen = .ok s' ∧ Sized s' := by
  have hmax : SDS_MAX_PREALLOC = 1024 * 1024 := rfl
  have hnonneg := h.len_nonneg
  have hfree := h.free_lt
  simp only [RoomOp.Safe] at hsafe
  obtain ⟨buf, spare, hexec, -, hbuf, hspare⟩ := sdsMakeRoomFor_spare h fresh (by omega : addlen < 2 ^ 31)
  simp only [Spare] at hspare
  have hlt : spare < 2 ^ 31 := by omega
  refine ⟨_, hexec, ?_⟩
  rw [toInt_of_range (by omega) (by omega)]
  exact ⟨h.len_nonneg, h.len_lt, by simp, by simp only; omega, by simp only; omega⟩

theorem write_kept (h : Sized s) {off : Nat} {bytes : List UInt8} (hroom : off + bytes.length ≤ sdsavail s) :
    ∃ s', RoomOp.exec s (.write off bytes) = .ok s' ∧ Sized s' := by
  have hnonneg := h.len_nonneg
  have hfree := h.free_nonneg
  have hsize := h.size_eq
  rw [h.sdsavail_eq] at hroom
  have hin : sdslen s + off + bytes.length ≤ s.buf.length := by
    rw [h.sdslen_eq]
    omega
  have hcopy := memcpy_ok (Nat.le_refl bytes.length) hin
  have hlength := memcpy_length hcopy
  generalize s.buf.take (sdslen s + off) ++ _ ++ _ = buf at hcopy hlength
  refine ⟨{ s with buf }, by rw [RoomOp.exec, hcopy]; rfl, h.len_nonneg, h.len_lt, h.free_nonneg, h.free_lt, ?_⟩
  rw [← hsize, ← hlength]

theorem incrLen_kept (h : Sized s) {incr : Int} (hint : -2 ^ 31 ≤ incr ∧ incr < 2 ^ 31)
    (hsafe : RoomOp.Safe s (.incrLen incr)) :
    sdsIncrLen s incr = .error .assertionFailed ∨
      ∃ s', sdsIncrLen s incr = .ok s' ∧ RoomOp.Kept (.incrLen incr) s s' := by
  have hnonneg := h.len_nonneg
  have hfree := h.free_lt
  have hsize := h.size_eq
  simp only [RoomOp.Safe] at hsafe
  rw [sdsIncrLen]
  by_cases hassert : s.free ≥ incr
  · rw [if_pos hassert]
    by_cases hover : 2 ^ 31 ≤ s.free - incr
    · left
      have hneg : ¬ toInt (s.free - incr) ≥ 0 := by
        rw [ge_iff_le, toInt_nonneg_iff]
        omega
      rw [if_neg hneg]
    · right
      have hlen : 0 ≤ s.len + incr ∧ s.len + incr < 2 ^ 31 := by omega
      rw [toInt_of_range (by omega) (by omega), toInt_of_range (by omega) (by omega), if_pos (by omega),
        writeNul, if_pos hlen.1, writeAt_ok (by omega), ok_bind]
      refine ⟨_, rfl, ⟨hlen.1, hlen.2, by simp only; omega, by simp only; omega, ?_⟩, ?_⟩
      · simp only [List.length_set]
        omega
      · intro _ _
        exact ⟨by simp only; omega, by simp only; exact List.getElem?_set_self (by omega)⟩
  · exact .inl (if_neg hassert)

end Step

/-- If every increment that passes the asserts stays inside the buffer and inside the
range of `int`, and every request for room is in that range, every run keeps the string
well-formed or stops at an assert. -/
theorem keepsAlong_of_safe {s : Sdshdr} {ops : List RoomOp} (h : Sized s) (hissued : Along RoomOp.Issued ops s)
    (hsafe : Along RoomOp.Safe ops s) : KeepsAlong ops s := by
  induction ops generalizing s with
  | nil => exact h
  | cons o ops ih =>
    obtain ⟨ho, hissued⟩ := hissued
    obtain ⟨hs, hsafe⟩ := hsafe
    have hstep : o.exec s = .error .assertionFailed ∨ ∃ s', o.exec s = .ok s' ∧ o.Kept s s' := by
      cases o with
      | makeRoomFor addlen fresh =>
        obtain ⟨s', hexec, hsized⟩ := makeRoomFor_kept h hs
        exact .inr ⟨s', hexec, hsized, by simp⟩
      | write off bytes =>
        obtain ⟨s', hexec, hsized⟩ := write_kept h ho
        exact .inr ⟨s', hexec, hsized, by simp⟩
      | incrLen incr => exact incrLen_kept h ho hs
    rw [KeepsAlong]
    rcases hstep with hexec | ⟨s', hexec, hkept⟩
    · exact ⟨h, by rw [hexec]⟩
    · rw [hexec] at hissued hsafe ⊢
      exact ⟨h, hkept, ih hkept.sized hissued hsafe⟩

def readAndTrim : List RoomOp :=
  [.makeRoomFor 3 fun _ => 7, .write 0 [49, 50, 51], .incrLen 3, .incrLen (-2), .incrLen 100]

theorem readAndTrim_kept :
    Along RoomOp.Issued readAndTrim (sdsOf [48] []) ∧ Along RoomOp.Safe readAndTrim (sdsOf [48] []) ∧
      KeepsAlong readAndTrim (sdsOf [48] []) := by
  have hissued : Along RoomOp.Issued readAndTrim (sdsOf [48] []) := by decide
  have hsafe : Along RoomOp.Safe readAndTrim (sdsOf [48] []) := by decide
  exact ⟨hissued, hsafe, keepsAlong_of_safe (sdsOf_consistent (by decide) (by decide)).toSized hissued hsafe⟩

/-- `sdsIncrLen(s, -5)` on a string of three bytes passes both asserts and stores the
terminator in front of the buffer. -/
theorem incrLen_below_start :
    ¬ ∀ (s : Sdshdr) (ops : List RoomOp), Consistent s → Along RoomOp.Issued ops s → KeepsAlong ops s := by
  intro hall
  have hrun := hall (sdsOf [97, 98, 99] []) [.incrLen (-5)] (sdsOf_consistent (by decide) (by decide)) (by decide)
  exact absurd (show Fault.outOfBounds = .assertionFailed from hrun.2) (by decide)

end CPractice
