import CPractice.Sds.Growth
import Mathlib.Data.List.Nodup
import Mathlib.Order.Defs.LinearOrder

/-! `sdscmp` and `sdsmapchars`. -/

namespace CPractice

open CMem CInt

namespace SdsCompare

/-- The difference of the first bytes that are not the same. -/
def firstDiff : List UInt8 → List UInt8 → Int
  | x :: xs, y :: ys => if x = y then firstDiff xs ys else (x.toNat : Int) - y.toNat
  | _, _ => 0

def memcmp (s1 s2 : List UInt8) (n : Nat) : Except Fault Int :=
  if n ≤ s1.length ∧ n ≤ s2.length then .ok (firstDiff (s1.take n) (s2.take n)) else .error .outOfBounds

def sdscmp (s1 s2 : Sdshdr) : Except Fault Int := do
  let l1 := sdslen s1
  let l2 := sdslen s2
  let minlen := if l1 < l2 then l1 else l2
  let cmp ← memcmp s1.buf s2.buf minlen
  if cmp = 0 then return toInt (toSize (l1 - l2))
  return cmp

/-- The inner loop: the byte that replaces `c`. -/
def mapChar (from_ to_ : List UInt8) (c : UInt8) : Nat → Nat → Except Fault UInt8
  | 0, _ => .ok c
  | fuel + 1, i => do
    if c = (← readAt from_ i) then readAt to_ i
    else mapChar from_ to_ c fuel (i + 1)

def mapLoop (from_ to_ : List UInt8) (setlen : Nat) : Nat → Nat → List UInt8 → Except Fault (List UInt8)
  | 0, _, buf => .ok buf
  | fuel + 1, j, buf => do
    let c ← mapChar from_ to_ (← readAt buf j) setlen 0
    let buf ← writeAt buf j c
    mapLoop from_ to_ setlen fuel (j + 1) buf

def sdsmapchars (s : Sdshdr) (from_ to_ : List UInt8) (setlen : Nat) : Except Fault Sdshdr := do
  let buf ← mapLoop from_ to_ setlen (sdslen s) 0 s.buf
  return { s with buf }

section Order

theorem firstDiff_take (xs ys : List UInt8) :
    firstDiff (xs.take (min xs.length ys.length)) (ys.take (min xs.length ys.length)) = firstDiff xs ys := by
  induction xs generalizing ys with
  | nil => rw [List.take_nil, firstDiff, firstDiff] <;> simp
  | cons x xs ih =>
    cases ys with
    | nil => rfl
    | cons y ys =>
      rw [List.length_cons, List.length_cons, Nat.add_min_add_right, List.take_succ_cons, List.take_succ_cons,
        firstDiff,
        firstDiff, ih]

theorem lt_iff_firstDiff (xs ys : List UInt8) :
    xs < ys ↔ firstDiff xs ys < 0 ∨ (firstDiff xs ys = 0 ∧ xs.length < ys.length) := by
  induction xs generalizing ys with
  | nil => cases ys <;> simp [firstDiff]
  | cons x xs ih =>
    cases ys with
    | nil => simp [firstDiff]
    | cons y ys =>
      rw [List.cons_lt_cons_iff, firstDiff]
      by_cases hxy : x = y
      · rw [if_pos hxy, ih]
        simp [hxy]
      · rw [if_neg hxy]
        have hlt : x < y ↔ x.toNat < y.toNat := UInt8.lt_iff_toNat_lt
        have hne : x.toNat ≠ y.toNat := fun he => hxy (UInt8.toNat_inj.mp he)
        simp only [hxy, hlt, false_and, or_false]
        omega

theorem eq_iff_firstDiff (xs ys : List UInt8) : xs = ys ↔ firstDiff xs ys = 0 ∧ xs.length = ys.length := by
  induction xs generalizing ys with
  | nil => cases ys <;> simp [firstDiff]
  | cons x xs ih =>
    cases ys with
    | nil => simp [firstDiff]
    | cons y ys =>
      rw [List.cons.injEq, firstDiff, ih]
      by_cases hxy : x = y
      · rw [if_pos hxy]
        simp [hxy]
      · have hne : x.toNat ≠ y.toNat := fun he => hxy (UInt8.toNat_inj.mp he)
        rw [if_neg hxy]
        simp only [hxy, false_and, false_iff]
        omega

theorem firstDiff_comm (xs ys : List UInt8) : firstDiff ys xs = - firstDiff xs ys := by
  induction xs generalizing ys with
  | nil => cases ys <;> rfl
  | cons x xs ih =>
    cases ys with
    | nil => rfl
    | cons y ys =>
      rw [firstDiff, firstDiff]
      by_cases hxy : x = y
      · rw [if_pos hxy, if_pos hxy.symm, ih]
      · rw [if_neg hxy, if_neg (Ne.symm hxy)]
        omega

/-- The lengths are `int`s, so their difference is one. -/
theorem sdscmp_orders {s1 s2 : Sdshdr} (h1 : WellFormed s1) (h2 : WellFormed s2) :
    ∃ cmp, sdscmp s1 s2 = .ok cmp ∧ (cmp < 0 ↔ content s1 < content s2) ∧ (cmp = 0 ↔ content s1 = content s2) ∧
      (0 < cmp ↔ content s2 < content s1) := by
  obtain ⟨slack1, hs1, hlen1⟩ := h1.eq_sdsOf
  obtain ⟨slack2, hs2, hlen2⟩ := h2.eq_sdsOf
  generalize content s1 = c1 at *
  generalize content s2 = c2 at *
  subst hs1 hs2
  have hcmp : memcmp (sdsOf c1 slack1).buf (sdsOf c2 slack2).buf (min c1.length c2.length) =
    .ok (firstDiff c1 c2) := by
    have hbuf : ∀ c slack : List UInt8, ∀ n ≤ c.length, (sdsOf c slack).buf.take n = c.take n :=
      fun c slack n hn => List.take_append_of_le_length hn
    have hroom : ∀ c slack : List UInt8, c.length ≤ (sdsOf c slack).buf.length := by
      intro c slack
      simp [sdsOf]
    rw [memcmp, if_pos ⟨Nat.le_trans (Nat.min_le_left _ _) (hroom c1 slack1), Nat.le_trans (Nat.min_le_right _ _)
      (hroom c2 slack2)⟩,
      hbuf c1 slack1 _ (Nat.min_le_left _ _), hbuf c2 slack2 _ (Nat.min_le_right _ _), firstDiff_take]
  have hmin : (if c1.length < c2.length then c1.length else c2.length) = min c1.length c2.length := by
    split <;> omega
  have hint : toInt (toSize ((c1.length : Int) - c2.length)) = (c1.length : Int) - c2.length := by
    unfold toInt toSize
    omega
  have hsym := firstDiff_comm c1 c2
  rw [sdscmp, sdslen_sdsOf (by omega), sdslen_sdsOf (by omega), hmin, hcmp, ok_bind, lt_iff_firstDiff,
    lt_iff_firstDiff c2, eq_iff_firstDiff, hsym, hint]
  by_cases hzero : firstDiff c1 c2 = 0
  · rw [if_pos hzero]
    refine ⟨_, rfl, ?_⟩
    omega
  · rw [if_neg hzero]
    refine ⟨_, rfl, ?_⟩
    omega

theorem sdscmp_orders_prefix : ∃ cmp, sdscmp (sdsOf [102, 111] [7]) (sdsOf [102, 111, 0] []) = .ok cmp ∧
    (cmp < 0 ↔ ([102, 111] : List UInt8) < [102, 111, 0]) :=
  have ⟨cmp, hcmp, hlt, _, _⟩ := sdscmp_orders (@sdsOf_wellFormed [102, 111] [7] (by decide))
    (@sdsOf_wellFormed [102, 111, 0] [] (by decide))
  ⟨cmp, hcmp, hlt⟩

end Order

section Map

def translate : List UInt8 → List UInt8 → UInt8 → UInt8
  | f :: from_, t :: to_, c => if c = f then t else translate from_ to_ c
  | _, _, c => c

variable {from_ to_ : List UInt8}

theorem mapChar_eq (hlen : from_.length = to_.length) (c : UInt8) {fuel i : Nat} (hi : i + fuel = from_.length) :
    mapChar from_ to_ c fuel i = .ok (translate (from_.drop i) (to_.drop i) c) := by
  induction fuel generalizing i with
  | zero =>
    rw [mapChar, List.drop_of_length_le (by omega), translate]
    simp
  | succ fuel ih =>
    have hf : i < from_.length := by omega
    have ht : i < to_.length := by omega
    rw [mapChar, readAt, dif_pos hf, ok_bind, readAt, dif_pos ht, ih (by omega), List.drop_eq_getElem_cons hf,
      List.drop_eq_getElem_cons ht, translate]
    split <;> rfl

theorem mapLoop_eq (hlen : from_.length = to_.length) (pre mid rest : List UInt8) :
    mapLoop from_ to_ from_.length mid.length pre.length (pre ++ (mid ++ rest)) =
      .ok (pre ++ (mid.map (translate from_ to_) ++ rest)) := by
  induction mid generalizing pre with
  | nil => rfl
  | cons c mid ih =>
    have hread : readAt (pre ++ (c :: mid ++ rest)) pre.length = .ok c := readAt_ok (by simp)
    have hmap := @mapChar_eq from_ to_ hlen c from_.length 0 (by omega)
    rw [List.drop_zero, List.drop_zero] at hmap
    have hwrite : writeAt (pre ++ (c :: mid ++ rest)) pre.length (translate from_ to_ c) =
        .ok ((pre ++ [translate from_ to_ c]) ++ (mid ++ rest)) := by
      rw [writeAt, if_pos (by simp)]
      simp
    have hnext := ih (pre ++ [translate from_ to_ c])
    rw [List.length_append, List.length_singleton] at hnext
    rw [List.length_cons, mapLoop, hread, ok_bind, hmap, ok_bind, hwrite, ok_bind, hnext]
    simp

theorem sdsmapchars_eq (hlen : from_.length = to_.length) {c slack : List UInt8} (hc : c.length < 2 ^ 31) :
    sdsmapchars (sdsOf c slack) from_ to_ from_.length = .ok (sdsOf (c.map (translate from_ to_)) slack) := by
  have hloop := mapLoop_eq hlen [] c (0 :: slack)
  rw [sdsmapchars, sdslen_sdsOf hc, show (sdsOf c slack).buf = [] ++ (c ++ 0 :: slack) from rfl]
  rw [List.length_nil] at hloop
  rw [hloop, ok_bind, sdsOf, sdsOf, List.length_map]
  rfl

theorem translate_of_not_mem {c : UInt8} (h : c ∉ from_) : translate from_ to_ c = c := by
  induction from_ generalizing to_ with
  | nil => cases to_ <;> rfl
  | cons f from_ ih =>
    cases to_ with
    | nil => rfl
    | cons t to_ =>
      rw [List.mem_cons, not_or] at h
      rw [translate, if_neg h.1, ih h.2]

theorem translate_mem (hlen : from_.length = to_.length) {c : UInt8} (h : c ∈ from_) :
    translate from_ to_ c ∈ to_ := by
  induction from_ generalizing to_ with
  | nil => cases h
  | cons f from_ ih =>
    cases to_ with
    | nil => simp at hlen
    | cons t to_ =>
      rw [translate]
      by_cases hc : c = f
      · rw [if_pos hc]
        exact List.mem_cons_self
      · rw [if_neg hc]
        exact List.mem_cons_of_mem _ (ih (by simpa using hlen) (List.mem_of_ne_of_mem hc h))

theorem translate_back (hlen : from_.length = to_.length) (hto : to_.Nodup) {c : UInt8} (h : c ∈ from_) :
    translate to_ from_ (translate from_ to_ c) = c := by
  induction from_ generalizing to_ with
  | nil => cases h
  | cons f from_ ih =>
    cases to_ with
    | nil => simp at hlen
    | cons t to_ =>
      have hlen' : from_.length = to_.length := by simpa using hlen
      rw [List.nodup_cons] at hto
      by_cases hc : c = f
      · have hfirst : translate (f :: from_) (t :: to_) c = t := if_pos hc
        rw [hfirst, translate, if_pos rfl, hc]
      · have hmem : c ∈ from_ := List.mem_of_ne_of_mem hc h
        have hne : translate from_ to_ c ≠ t := fun he => hto.1 (he ▸ translate_mem hlen' hmem)
        have hrest : translate (f :: from_) (t :: to_) c = translate from_ to_ c := if_neg hc
        rw [hrest, translate, if_neg hne, ih hlen' hto.2 hmem]

theorem translate_back_iff (hlen : from_.length = to_.length) (hto : to_.Nodup) (c : UInt8) :
    translate to_ from_ (translate from_ to_ c) = c ↔ (c ∈ to_ → c ∈ from_) := by
  by_cases hfrom : c ∈ from_
  · simp [hfrom, translate_back hlen hto hfrom]
  · rw [translate_of_not_mem hfrom]
    constructor
    · intro he hc
      exact he ▸ translate_mem hlen.symm hc
    · intro himp
      exact translate_of_not_mem fun hc => hfrom (himp hc)

/-- Mapping back restores the string iff no byte of it looks mapped already. -/
theorem sdsmapchars_round_trip_iff (hlen : from_.length = to_.length) (hto : to_.Nodup) {s : Sdshdr}
    (h : WellFormed s) :
    (sdsmapchars s from_ to_ from_.length >>= fun s' => sdsmapchars s' to_ from_ from_.length) = .ok s ↔
      ∀ c ∈ content s, c ∈ to_ → c ∈ from_ := by
  obtain ⟨slack, hs, hroom⟩ := h.eq_sdsOf
  generalize content s = c at *
  subst hs
  have hback := @sdsmapchars_eq to_ from_ hlen.symm (c.map (translate from_ to_)) slack
    (by rw [List.length_map]; omega)
  rw [← hlen] at hback
  rw [sdsmapchars_eq hlen (by omega), ok_bind, hback, List.map_map, Except.ok.injEq]
  constructor
  · intro he b hb
    have hmap : c.map (translate to_ from_ ∘ translate from_ to_) = c.map id := by
      have hcontent := congrArg content he
      rw [content_sdsOf, content_sdsOf] at hcontent
      rw [hcontent, List.map_id]
    exact (translate_back_iff hlen hto b).mp (List.map_inj_left.mp hmap b hb)
  · intro hall
    have hmap : c.map (translate to_ from_ ∘ translate from_ to_) = c.map id :=
      List.map_inj_left.mpr fun b hb => (translate_back_iff hlen hto b).mpr (hall b hb)
    rw [hmap, List.map_id]

theorem sdsmapchars_round_trip_iff_hello :
    (sdsmapchars (sdsOf [104, 101, 108, 108, 111] []) [104, 111] [48, 49] 2 >>=
      fun s' => sdsmapchars s' [48, 49] [104, 111] 2) = .ok (sdsOf [104, 101, 108, 108, 111] []) :=
  (@sdsmapchars_round_trip_iff [104, 111] [48, 49] rfl (by decide) _ (@sdsOf_wellFormed _ [] (by decide))).mpr
    (by decide +kernel)

end Map

end SdsCompare

end CPractice
