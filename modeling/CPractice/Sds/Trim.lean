import CPractice.Lib.Trim
import CPractice.Sds.Sizes

/-! `sdsrange` and `sdstrim`: both keep a part of the content and move it to the front. -/

namespace CPractice

open CMem CInt

def keepPart (s : Sdshdr) (move : Bool) (start newlen : Nat) : Except Fault Sdshdr := do
  let buf ← (if move then memmove s.buf 0 start newlen else .ok s.buf)
  let buf ← writeAt buf newlen 0
  return { len := toInt newlen, free := toInt (s.free + (s.len - newlen)), buf }

def skipForward (cset buf : List UInt8) (last : Int) : Nat → Nat → Except Fault Nat
  | 0, _ => .error .diverges
  | fuel + 1, sp => do
    if (sp : Int) ≤ last then
      if (← strchr cset (← readAt buf sp)).isSome then skipForward cset buf last fuel (sp + 1) else return sp
    else return sp

/-- `start` is the first byte of the buffer, and `ep` may lie in front of it. -/
def skipBackward (cset buf : List UInt8) : Nat → Int → Except Fault Int
  | 0, _ => .error .diverges
  | fuel + 1, ep => do
    if ep > 0 then
      if (← strchr cset (← readAt buf ep.toNat)).isSome then skipBackward cset buf fuel (ep - 1) else return ep
    else return ep

def sdstrim (s : Sdshdr) (cset : List UInt8) : Except Fault Sdshdr := do
  let last := (sdslen s : Int) - 1
  let sp ← skipForward cset s.buf last (sdslen s + 1) 0
  let ep ← skipBackward cset s.buf (sdslen s + 1) last
  let len := if (sp : Int) > ep then 0 else (ep - sp + 1).toNat
  keepPart s (sp ≠ 0) sp len

section Part

variable {c : List UInt8} {a n : Nat} {move : Bool}

theorem keepPart_sdsOf (slack : List UInt8) (hc : c.length < 2 ^ 31) (hn : n = 0 ∨ a + n ≤ c.length)
    (hmove : move = false → a = 0 ∨ n = 0) :
    ∃ slack', keepPart (sdsOf c slack) move a n =
        .ok { sdsOf ((c.drop a).take n) slack' with free := toInt slack'.length } ∧
      ((c.drop a).take n).length + slack'.length = c.length + slack.length := by
  have hbl : (c ++ 0 :: slack).length = c.length + slack.length + 1 := by simp [Nat.add_assoc]
  have hpart : ((c.drop a).take n).length = n := by
    rw [List.length_take, List.length_drop]
    omega
  have hbuf : (if move then memmove (c ++ 0 :: slack) 0 a n else .ok (c ++ 0 :: slack)) =
      .ok ((c.drop a).take n ++ (c ++ 0 :: slack).drop n) := by
    by_cases hm : move = true
    · have hsrc : ((c ++ 0 :: slack).drop a).take n = (c.drop a).take n := by
        rcases hn with rfl | hn
        · rfl
        · rw [List.drop_append_of_le_length (by omega),
            List.take_append_of_le_length (by rw [List.length_drop]; omega)]
      rw [if_pos hm, memmove, memcpy_ok (by rw [List.length_drop]; omega) (by omega), hsrc, Nat.zero_add,
        List.take_zero, List.nil_append]
    · rw [if_neg hm]
      rcases hmove (by simpa using hm) with rfl | rfl
      · have htake : (c ++ 0 :: slack).take n = c.take n := List.take_append_of_le_length (by omega)
        rw [List.drop_zero, ← htake, List.take_append_drop]
      · simp
  have hw := append_drop_set ((c.drop a).take n) (show n < (c ++ 0 :: slack).length by omega) 0
  rw [hpart] at hw
  have hdrop : ((c ++ 0 :: slack).drop (n + 1)).length = c.length + slack.length - n := by
    rw [List.length_drop]
    omega
  refine ⟨(c ++ 0 :: slack).drop (n + 1), ?_, by omega⟩
  simp only [keepPart, sdsOf]
  rw [hbuf, ok_bind, writeAt_ok (by rw [List.length_append, List.length_drop, hpart]; omega), ok_bind, hw,
    toInt_of_range (x := (n : Int)) (by omega) (by omega), hpart, hdrop]
  have hfree : (slack.length : Int) + (c.length - n) = (c.length + slack.length - n : Nat) := by omega
  rw [hfree]
  rfl

/-- What is kept is as wanted, and the bytes that become free stay in the range of `int`. -/
theorem kept_iff {x : Except Fault Sdshdr} {kept slack wanted : List UInt8} {total : Int}
    (hx : x = .ok { sdsOf kept slack with free := toInt slack.length }) (hlen : kept.length < 2 ^ 31)
    (htotal : (kept.length + slack.length : Int) = total) :
    (∃ s', x = .ok s' ∧ Consistent s' ∧ content s' = wanted ∧ s'.len + s'.free = total) ↔
      kept = wanted ∧ total < wanted.length + 2 ^ 31 := by
  constructor
  · rintro ⟨s', hs', hconsistent, hcontent, hsum⟩
    rw [hx] at hs'
    obtain rfl := Except.ok.inj hs'
    have hfree := hconsistent.free_lt
    simp only [content, sdsOf, Int.toNat_natCast, List.take_left] at hcontent hsum hfree
    refine ⟨hcontent, ?_⟩
    rw [← hcontent]
    generalize toInt slack.length = free at hsum hfree
    omega
  · rintro ⟨rfl, hroom⟩
    rw [toInt_of_range (by omega) (by omega)] at hx
    exact ⟨_, hx, sdsOf_consistent hlen (by omega), content_sdsOf _ _, htotal⟩

end Part

section Range

def sliceIndex (len : Nat) (k : Int) : Nat := (if k < 0 then len + k else k).toNat

def slice (c : List UInt8) (start last : Int) : List UInt8 :=
  let a := sliceIndex c.length start
  let b := min (sliceIndex c.length last) (c.length - 1)
  if a > b ∨ a ≥ c.length then [] else (c.drop a).take (b + 1 - a)

variable {a b len : Nat}

end Range

section Trim

def listed (cset : List UInt8) (b : UInt8) : Bool := (cString cset).contains b

/-- What `strchr` answers: the terminator of the set counts as well. -/
def found (cset : List UInt8) (b : UInt8) : Bool := b == 0 || listed cset b

variable {cset buf : List UInt8} (hcset : 0 ∈ cset)

include hcset in
theorem strchr_found (b : UInt8) : ∃ r, strchr cset b = .ok r ∧ r.isSome = found cset b := by
  obtain ⟨r, hr, hiff⟩ := strchr_ok hcset b
  refine ⟨r, hr, ?_⟩
  rw [Bool.eq_iff_iff, hiff]
  simp [found, listed, cString]

include hcset in
theorem skipForward_skip {last : Int} {k sp : Nat} (fuel : Nat) (hlast : (sp + k : Int) ≤ last + 1)
    (hk : ∀ i < k, ∃ b, buf[sp + i]? = some b ∧ found cset b = true) :
    skipForward cset buf last (fuel + k) sp = skipForward cset buf last fuel (sp + k) := by
  induction k generalizing sp with
  | zero => rfl
  | succ k ih =>
    obtain ⟨b, hb, hfound⟩ := hk 0 (by omega)
    rw [Nat.add_zero] at hb
    obtain ⟨r, hr, hsome⟩ := strchr_found hcset b
    rw [← Nat.add_assoc, skipForward, if_pos (by omega), readAt_ok hb, ok_bind, hr, ok_bind, hsome, if_pos hfound,
      ih (by omega) fun i hi => by rw [Nat.add_assoc, Nat.add_comm 1]; exact hk (i + 1) (by omega)]
    rw [Nat.add_assoc, Nat.add_comm 1]

include hcset in
theorem skipForward_stop {last : Int} {sp fuel : Nat}
    (h : last < sp ∨ ∃ b, buf[sp]? = some b ∧ found cset b = false) :
    skipForward cset buf last (fuel + 1) sp = .ok sp := by
  rw [skipForward]
  by_cases hle : (sp : Int) ≤ last
  · obtain ⟨b, hb, hnot⟩ := h.resolve_left (by omega)
    obtain ⟨r, hr, hsome⟩ := strchr_found hcset b
    rw [if_pos hle, readAt_ok hb, ok_bind, hr, ok_bind, hsome, if_neg (by simp [hnot])]
    rfl
  · rw [if_neg hle]
    rfl

include hcset in
theorem skipBackward_skip {k e : Nat} (fuel : Nat)
    (hk : ∀ i < k, ∃ b, buf[e + 1 + i]? = some b ∧ found cset b = true) :
    skipBackward cset buf (fuel + k) (e + k : Nat) = skipBackward cset buf fuel e := by
  induction k with
  | zero => rfl
  | succ k ih =>
    obtain ⟨b, hb, hfound⟩ := hk k (by omega)
    rw [Nat.add_right_comm] at hb
    obtain ⟨r, hr, hsome⟩ := strchr_found hcset b
    have hpred : ((e + (k + 1) : Nat) : Int) - 1 = (e + k : Nat) := by omega
    rw [← Nat.add_assoc fuel, skipBackward, if_pos (by omega), Int.toNat_natCast, ← Nat.add_assoc e, readAt_ok hb,
      ok_bind, hr, ok_bind, hsome, if_pos hfound, Nat.add_assoc e, hpred]
    exact ih fun i hi => hk i (by omega)

include hcset in
theorem skipBackward_stop {ep : Int} {fuel : Nat}
    (h : ep ≤ 0 ∨ ∃ b, buf[ep.toNat]? = some b ∧ found cset b = false) :
    skipBackward cset buf (fuel + 1) ep = .ok ep := by
  rw [skipBackward]
  by_cases hpos : ep > 0
  · obtain ⟨b, hb, hnot⟩ := h.resolve_left (by omega)
    obtain ⟨r, hr, hsome⟩ := strchr_found hcset b
    rw [if_pos hpos, readAt_ok hb, ok_bind, hr, ok_bind, hsome, if_neg (by simp [hnot])]
    rfl
  · rw [if_neg hpos]
    rfl

variable {c pre mid post slack : List UInt8}

theorem part_found (pre rest : List UInt8) (hmid : ∀ x ∈ mid, found cset x = true) {i : Nat} (hi : i < mid.length) :
    ∃ b, (pre ++ (mid ++ rest))[pre.length + i]? = some b ∧ found cset b = true := by
  refine ⟨mid[i], ?_, hmid _ (List.getElem_mem hi)⟩
  rw [List.getElem?_append_right (Nat.le_add_right _ _), Nat.add_sub_cancel_left, List.getElem?_append_left hi,
    List.getElem?_eq_getElem hi]

include hcset in
theorem scans_all (hall : ∀ x ∈ c, found cset x = true) :
    skipForward cset (c ++ 0 :: slack) ((c.length : Int) - 1) (c.length + 1) 0 = .ok c.length ∧
      ∃ ep : Int, skipBackward cset (c ++ 0 :: slack) (c.length + 1) ((c.length : Int) - 1) = .ok ep ∧ ep < c.length := by
  constructor
  · have hk : ∀ i < c.length, ∃ b, (c ++ 0 :: slack)[0 + i]? = some b ∧ found cset b = true :=
      fun i hi => part_found [] _ hall hi
    rw [Nat.add_comm c.length, skipForward_skip hcset 1 (by omega) hk, Nat.zero_add]
    exact skipForward_stop hcset (.inl (by omega))
  · cases c with
    | nil => exact ⟨-1, skipBackward_stop hcset (.inl (by decide)), by decide⟩
    | cons x c =>
      have hlast : ((x :: c).length : Int) - 1 = (0 + c.length : Nat) := by simp
      refine ⟨0, ?_, by simp only [List.length_cons]; omega⟩
      rw [hlast, List.length_cons, Nat.add_assoc, Nat.add_comm c.length, skipBackward_skip hcset 2]
      · exact skipBackward_stop hcset (.inl (Int.le_refl 0))
      · intro i hi
        exact part_found [x] _ (fun y hy => hall y (List.mem_cons_of_mem x hy)) hi

include hcset in
theorem scans_mid (hpre : ∀ x ∈ pre, found cset x = true) (hpost : ∀ x ∈ post, found cset x = true)
    (hne : mid ≠ []) (htight : Trim.Tight (found cset) mid) (hc : c = pre ++ (mid ++ post)) :
    skipForward cset (c ++ 0 :: slack) ((c.length : Int) - 1) (c.length + 1) 0 = .ok pre.length ∧
      skipBackward cset (c ++ 0 :: slack) (c.length + 1) ((c.length : Int) - 1) =
        .ok ((pre.length + (mid.length - 1) : Nat) : Int) := by
  have hpos := List.length_pos_iff.mpr hne
  have hlen : c.length = pre.length + mid.length + post.length := by
    rw [hc, List.length_append, List.length_append, Nat.add_assoc]
  have hbuf : c ++ 0 :: slack = pre ++ (mid ++ (post ++ 0 :: slack)) := by simp [hc]
  have hat : ∀ i < mid.length, (c ++ 0 :: slack)[pre.length + i]? = mid[i]? := by
    intro i hi
    rw [hbuf, List.getElem?_append_right (Nat.le_add_right _ _), Nat.add_sub_cancel_left,
      List.getElem?_append_left hi]
  constructor
  · have hfuel : c.length + 1 = mid.length + post.length + 1 + pre.length := by omega
    have hk : ∀ i < pre.length, ∃ b, (c ++ 0 :: slack)[0 + i]? = some b ∧ found cset b = true := by
      rw [hbuf]
      exact fun i hi => part_found [] _ hpre hi
    rw [hfuel, skipForward_skip hcset _ (by omega) hk, Nat.zero_add]
    refine skipForward_stop hcset (.inr ⟨mid.head hne, ?_, htight.1 _ (List.head?_eq_some_head hne)⟩)
    have hhead := hat 0 hpos
    rwa [Nat.add_zero, ← List.head?_eq_getElem?, List.head?_eq_some_head hne] at hhead
  · have hfuel : c.length + 1 = pre.length + mid.length + 1 + post.length := by omega
    have hlast : (c.length : Int) - 1 = (pre.length + (mid.length - 1) + post.length : Nat) := by omega
    rw [hfuel, hlast, skipBackward_skip hcset]
    · refine skipBackward_stop hcset (.inr ⟨mid.getLast hne, ?_, htight.2 _ (List.getLast?_eq_some_getLast hne)⟩)
      rw [Int.toNat_natCast, hat _ (by omega), ← List.getLast?_eq_getElem?, List.getLast?_eq_some_getLast hne]
    · intro i hi
      have hindex : pre.length + (mid.length - 1) + 1 = (pre ++ mid).length := by
        rw [List.length_append]
        omega
      rw [hbuf, ← List.append_assoc, hindex]
      exact part_found _ _ hpost hi

theorem sdstrim_of_scans {sp : Nat} {ep : Int} (hc : c.length < 2 ^ 31)
    (hforward : skipForward cset (c ++ 0 :: slack) ((c.length : Int) - 1) (c.length + 1) 0 = .ok sp)
    (hbackward : skipBackward cset (c ++ 0 :: slack) (c.length + 1) ((c.length : Int) - 1) = .ok ep) :
    sdstrim (sdsOf c slack) cset =
      keepPart (sdsOf c slack) (sp ≠ 0) sp (if (sp : Int) > ep then 0 else (ep - sp + 1).toNat) := by
  rw [sdstrim, sdslen_sdsOf hc]
  show (skipForward cset (c ++ 0 :: slack) _ _ _ >>= _) = _
  rw [hforward, ok_bind]
  show (skipBackward cset (c ++ 0 :: slack) _ _ >>= _) = _
  rw [hbackward, ok_bind]

include hcset in
theorem sdstrim_found (slack : List UInt8) (hc : c.length < 2 ^ 31) :
    ∃ slack', sdstrim (sdsOf c slack) cset =
        .ok { sdsOf (Trim.trim (found cset) c) slack' with free := toInt slack'.length } ∧
      (Trim.trim (found cset) c).length + slack'.length = c.length + slack.length := by
  obtain ⟨pre, post, hsplit, hpre, hpost⟩ := Trim.trim_split (found cset) c
  have htight := Trim.trim_tight (found cset) c
  generalize Trim.trim (found cset) c = mid at hsplit htight ⊢
  by_cases hmid : mid = []
  · subst hmid
    have hall : ∀ x ∈ c, found cset x = true := by
      intro x hx
      rw [hsplit, List.nil_append] at hx
      exact (List.mem_append.mp hx).elim (hpre x) (hpost x)
    obtain ⟨hforward, ep, hbackward, hep⟩ := scans_all hcset hall
    rw [sdstrim_of_scans hc hforward hbackward, if_pos hep, ← List.take_zero (l := c.drop c.length)]
    exact keepPart_sdsOf slack hc (.inl rfl) fun _ => .inr rfl
  · have hpos := List.length_pos_iff.mpr hmid
    obtain ⟨hforward, hbackward⟩ := scans_mid hcset hpre hpost hmid htight hsplit
    have hlen : ((pre.length + (mid.length - 1) : Nat) - pre.length + 1 : Int).toNat = mid.length := by omega
    have hpart : (c.drop pre.length).take mid.length = mid := by
      rw [hsplit, List.drop_left, List.take_left]
    have hle : pre.length + mid.length ≤ c.length := by
      rw [hsplit, List.length_append, List.length_append]
      omega
    have hmove : decide (pre.length ≠ 0) = false → pre.length = 0 ∨ mid.length = 0 :=
      fun h => .inl (by simpa using h)
    have hkeep := keepPart_sdsOf slack hc (.inr hle) hmove
    rw [sdstrim_of_scans hc hforward hbackward, if_neg (by omega), hlen]
    rwa [hpart] at hkeep

theorem tight_found_iff (c : List UInt8) :
    Trim.Tight (found cset) (Trim.trim (listed cset) c) ↔
      (Trim.trim (listed cset) c).head? ≠ some 0 ∧ (Trim.trim (listed cset) c).getLast? ≠ some 0 := by
  have htight := Trim.trim_tight (listed cset) c
  generalize Trim.trim (listed cset) c = mid at htight ⊢
  constructor
  · intro h
    exact ⟨fun hz => by simpa [found] using h.1 0 hz, fun hz => by simpa [found] using h.2 0 hz⟩
  · intro h
    constructor
    · intro x hx
      have hne : x ≠ 0 := fun hz => h.1 (hz ▸ hx)
      simp [found, hne, htight.1 x hx]
    · intro x hx
      have hne : x ≠ 0 := fun hz => h.2 (hz ▸ hx)
      simp [found, hne, htight.2 x hx]

/-- What is left of the content must not begin or end with a NUL, which `strchr` finds in
every set, and the bytes that become free must stay in the range of `int`. -/
theorem sdstrim_binary_safe_iff {s : Sdshdr} (hs : Consistent s) (hcset : 0 ∈ cset) :
    (∃ s', sdstrim s cset = .ok s' ∧ Consistent s' ∧ content s' = Trim.trim (listed cset) (content s) ∧
      s'.len + s'.free = s.len + s.free) ↔
    (Trim.trim (listed cset) (content s)).head? ≠ some 0 ∧
      (Trim.trim (listed cset) (content s)).getLast? ≠ some 0 ∧
      s.len + s.free < (Trim.trim (listed cset) (content s)).length + 2 ^ 31 := by
  obtain ⟨slack, hs, hc, -⟩ := hs.eq_sdsOf
  generalize content s = c at hs hc ⊢
  subst hs
  have hsub : ∀ x, listed cset x = true → found cset x = true := by
    intro x hx
    simp [found, hx]
  obtain ⟨slack', hexec, htotal⟩ := sdstrim_found hcset slack hc
  have hsplit := Trim.trim_split (found cset) c
  have hshort : (Trim.trim (found cset) c).length ≤ c.length := by
    obtain ⟨pre, post, hl, -, -⟩ := hsplit
    have hlen := congrArg List.length hl
    simp only [List.length_append] at hlen
    omega
  rw [← and_assoc, ← tight_found_iff, ← Trim.trim_eq_trim_iff hsub]
  exact kept_iff hexec (by omega) (by simp only [sdsOf]; omega)

theorem trim_binary_safe :
    Consistent (sdsOf [120, 99, 0, 111, 121] []) ∧
      ∃ s', sdstrim (sdsOf [120, 99, 0, 111, 121] []) [120, 121, 0] = .ok s' ∧ Consistent s' ∧
        content s' = Trim.trim (listed [120, 121, 0]) (content (sdsOf [120, 99, 0, 111, 121] [])) ∧
        s'.len + s'.free = 5 := by
  have hs : Consistent (sdsOf [120, 99, 0, 111, 121] []) := sdsOf_consistent (by decide) (by decide)
  exact ⟨hs, (sdstrim_binary_safe_iff hs (by decide)).mpr (by decide)⟩

/-- A leading NUL is trimmed although it is not in the set. -/
theorem trim_drops_nul :
    ¬ ∀ (s : Sdshdr) (cset : List UInt8), Consistent s → 0 ∈ cset →
      ∃ s', sdstrim s cset = .ok s' ∧ Consistent s' ∧ content s' = Trim.trim (listed cset) (content s) ∧
        s'.len + s'.free = s.len + s.free := by
  intro hall
  obtain ⟨s', hs', -, hcontent, -⟩ :=
    hall (sdsOf [0, 97] []) [120, 0] (sdsOf_consistent (by decide) (by decide)) (by decide)
  have hexec : sdstrim (sdsOf [0, 97] []) [120, 0] = .ok (sdsOf [97] [0]) := by decide
  rw [hexec] at hs'
  obtain rfl := Except.ok.inj hs'
  exact absurd hcontent (by decide)

end Trim

end CPractice
