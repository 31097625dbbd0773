import CPractice.Sds.Sizes

/-! `sdscatvprintf`. `vsnprintf` is outside the repository: `out` is the output that the
format and the arguments stand for, and a call stores what fits of it. -/

namespace CPractice

open CMem CInt

def STATICBUF_SIZE : Nat := 1024

/-- At most `n-1` bytes and a terminator; the rest of the buffer stays as it is. -/
def vsnprintf (buf : List UInt8) (n : Nat) (out : List UInt8) : Except Fault (List UInt8) :=
  memcpy buf 0 (out.take (n - 1) ++ [0]) ((out.take (n - 1)).length + 1)

/-- `m` gives what the calls of `zmalloc` return; the loop has made `k` of them. -/
def printfLoop (m : Nat → Malloc) (out : List UInt8) :
    Nat → Nat → Nat → List UInt8 → Except Fault (List UInt8)
  | 0, _, _, _ => .error .diverges
  | fuel + 1, k, buflen, buf => do
    let buf ← writeAt buf (buflen - 2) 0
    let buf ← vsnprintf buf buflen out
    if (← readAt buf (buflen - 2)) ≠ 0 then
      let buflen := buflen * 2 % 2 ^ 64
      let buf ← zmalloc (m k) buflen
      printfLoop m out fuel (k + 1) buflen buf
    else return buf

/-- `staticbuf` are the bytes found on the stack, and `room` is what the `zrealloc` of
`sdscat` returns. -/
def sdscatvprintf (m : Nat → Malloc) (room : Malloc) (staticbuf : Nat → UInt8) (s : Sdshdr)
    (fmt out : List UInt8) : Except Fault Sdshdr := do
  let buflen := (← strlen fmt) * 2 % 2 ^ 64
  let buf ← (if buflen > STATICBUF_SIZE then do
      let buf ← zmalloc (m 0) buflen
      printfLoop m out (out.length + 1) 1 buflen buf
    else printfLoop m out (out.length + 1) 0 STATICBUF_SIZE (freshBytes staticbuf STATICBUF_SIZE))
  sdscat room s buf

section Loop

variable {m : Nat → Malloc} {out buf : List UInt8} {buflen : Nat}

theorem vsnprintf_ok (hbuf : buf.length = buflen) (hpos : 0 < buflen) :
    vsnprintf buf buflen out =
      .ok (out.take (buflen - 1) ++ 0 :: buf.drop ((out.take (buflen - 1)).length + 1)) := by
  have hle : (out.take (buflen - 1)).length ≤ buflen - 1 := List.length_take_le _ _
  rw [vsnprintf, memcpy_ok (by simp) (by omega), List.take_zero, List.nil_append, Nat.zero_add,
    List.take_of_length_le (by simp), List.append_assoc, List.singleton_append]

theorem pass_ok (out : List UInt8) (hbuf : buf.length = buflen) (hpos : 2 ≤ buflen) :
    ∃ buf' b, vsnprintf (buf.set (buflen - 2) 0) buflen out = .ok buf' ∧ buf'[buflen - 2]? = some b ∧ 0 ∈ buf' ∧
      (b = 0 → cString buf' = cString out) ∧ (b ≠ 0 → buflen ≤ out.length + 1) := by
  rw [vsnprintf_ok (by rw [List.length_set, hbuf]) (by omega)]
  by_cases hfits : out.length ≤ buflen - 2
  · rw [List.take_of_length_le (by omega)]
    refine ⟨_, 0, rfl, ?_, by simp, fun _ => cString_append_zero _ _, fun h => absurd rfl h⟩
    rw [List.getElem?_append_right hfits]
    by_cases hlast : out.length = buflen - 2
    · simp [hlast]
    · have hindex : buflen - 2 - out.length = buflen - 2 - out.length - 1 + 1 := by omega
      rw [hindex, List.getElem?_cons_succ, List.getElem?_drop,
        show out.length + 1 + (buflen - 2 - out.length - 1) = buflen - 2 by omega]
      exact List.getElem?_set_self (by omega)
  · have hlen : (out.take (buflen - 1)).length = buflen - 1 := List.length_take_of_le (by omega)
    have hout : buflen - 2 < out.length := by omega
    have hat : (out.take (buflen - 1))[buflen - 2]? = some out[buflen - 2] := by
      rw [List.getElem?_take_of_lt (by omega), List.getElem?_eq_getElem hout]
    refine ⟨_, out[buflen - 2], rfl, ?_, by simp, ?_, fun _ => by omega⟩
    · rw [List.getElem?_append_left (by omega), hat]
    · intro hzero
      have hmem : (0 : UInt8) ∈ out.take (buflen - 1) := by
        rw [← hzero]
        exact List.mem_of_getElem? hat
      conv_rhs => rw [← List.take_append_drop (buflen - 1) out]
      rw [cString_append_of_mem hmem, cString_append_of_mem hmem]

variable {fresh : Nat → Nat → UInt8} (hm : ∀ k, m k = some (fresh k))

include hm in
theorem printfLoop_ok (hout : 2 * (out.length + 1) + PREFIX_SIZE < 2 ^ 64) {fuel : Nat} (k : Nat)
    (hbuf : buf.length = buflen) (hpos : 2 ≤ buflen) (hfuel : out.length + 2 ≤ buflen + fuel) :
    ∃ buf', printfLoop m out (fuel + 1) k buflen buf = .ok buf' ∧ 0 ∈ buf' ∧ cString buf' = cString out := by
  induction fuel generalizing k buflen buf with
  | zero =>
    obtain ⟨buf', b, hpass, hb, hmem, hdone, hmore⟩ := pass_ok out hbuf hpos
    have hzero : b = 0 := by
      by_contra hne
      have hle := hmore hne
      omega
    refine ⟨buf', ?_, hmem, hdone hzero⟩
    rw [printfLoop, writeAt_ok (by omega), ok_bind, hpass, ok_bind, readAt_ok hb, ok_bind, if_neg (by simp [hzero])]
    rfl
  | succ fuel ih =>
    obtain ⟨buf', b, hpass, hb, hmem, hdone, hmore⟩ := pass_ok out hbuf hpos
    rw [printfLoop, writeAt_ok (by omega), ok_bind, hpass, ok_bind, readAt_ok hb, ok_bind]
    by_cases hzero : b = 0
    · refine ⟨buf', ?_, hmem, hdone hzero⟩
      rw [if_neg (by simp [hzero])]
      rfl
    · have hle := hmore hzero
      have hdouble : buflen * 2 % 2 ^ 64 = buflen * 2 := Nat.mod_eq_of_lt (by simp only [PREFIX_SIZE] at hout; omega)
      rw [if_pos hzero]
      dsimp only
      rw [hdouble, hm k, zmalloc_ok _ (by omega), ok_bind]
      exact ih (k + 1) (freshBytes_length _ _) (by omega) (by omega)

end Loop

theorem sdscatvprintf_eq {m : Nat → Malloc} {fresh : Nat → Nat → UInt8} (hm : ∀ k, m k = some (fresh k))
    (staticbuf : Nat → UInt8) {fmt : List UInt8} (hfmt : 0 ∈ fmt)
    (hsize : 2 * (cString fmt).length + PREFIX_SIZE < 2 ^ 64) {out : List UInt8}
    (hout : 2 * (out.length + 1) + PREFIX_SIZE < 2 ^ 64) :
    ∃ buf, 0 ∈ buf ∧ cString buf = cString out ∧
      ∀ room s, sdscatvprintf m room staticbuf s fmt out = sdscat room s buf := by
  have hloop : ∃ buf, (if (cString fmt).length * 2 > STATICBUF_SIZE then do
      let buf ← zmalloc (m 0) ((cString fmt).length * 2)
      printfLoop m out (out.length + 1) 1 ((cString fmt).length * 2) buf
    else printfLoop m out (out.length + 1) 0 STATICBUF_SIZE (freshBytes staticbuf STATICBUF_SIZE)) = .ok buf ∧
      0 ∈ buf ∧ cString buf = cString out := by
    have hstatic : STATICBUF_SIZE = 1024 := rfl
    by_cases hbig : (cString fmt).length * 2 > STATICBUF_SIZE
    · rw [if_pos hbig, hm 0, zmalloc_ok _ (by omega), ok_bind]
      exact printfLoop_ok hm hout 1 (freshBytes_length _ _) (by omega) (by omega)
    · rw [if_neg hbig]
      exact printfLoop_ok hm hout 0 (freshBytes_length _ _) (by omega) (by omega)
  obtain ⟨buf, hbuf, hmem, hstring⟩ := hloop
  have hwrap : (cString fmt).length * 2 % 2 ^ 64 = (cString fmt).length * 2 :=
    Nat.mod_eq_of_lt (by simp only [PREFIX_SIZE] at hsize; omega)
  refine ⟨buf, hmem, hstring, fun room s => ?_⟩
  rw [sdscatvprintf, strlen_ok hfmt, ok_bind]
  dsimp only
  rw [hwrap, hbuf, ok_bind]

/-- The output reaches the string up to its first NUL and never in part, however long it
is and whatever it holds. -/
theorem sdscatvprintf_appends {m : Nat → Malloc} {fresh : Nat → Nat → UInt8} (hm : ∀ k, m k = some (fresh k))
    (room staticbuf : Nat → UInt8) {s : Sdshdr} (hs : Consistent s) {fmt : List UInt8} (hfmt : 0 ∈ fmt)
    (hsize : 2 * (cString fmt).length + PREFIX_SIZE < 2 ^ 64) {out : List UInt8}
    (hout : 2 * (out.length + 1) + PREFIX_SIZE < 2 ^ 64) (hlen : s.len + (cString out).length < 2 ^ 31) :
    ∃ s', sdscatvprintf m (some room) staticbuf s fmt out = .ok s' ∧ Consistent s' ∧
      content s' = content s ++ cString out := by
  obtain ⟨buf, hmem, hstring, heq⟩ := sdscatvprintf_eq hm staticbuf hfmt hsize hout
  rw [heq, ← hstring]
  exact sdscat_consistent hs hmem room (by rwa [hstring])

theorem sdscatvprintf_greeting :
    Consistent (sdsOf [62] []) ∧
      ∃ s', sdscatvprintf (fun _ => some fun _ => 7) (some fun _ => 7) (fun _ => 7) (sdsOf [62] [])
          [37, 115, 0] [104, 105, 0, 33] = .ok s' ∧ Consistent s' ∧
        content s' = content (sdsOf [62] []) ++ cString [104, 105, 0, 33] := by
  have hs : Consistent (sdsOf [62] []) := sdsOf_consistent (by decide) (by decide)
  exact ⟨hs, sdscatvprintf_appends (fun _ => rfl) _ _ hs (by decide) (by decide) (by decide) (by decide)⟩

end CPractice
