import CPractice.Sds.CatFmt
import Mathlib.Algebra.Group.Nat.Even

/-! How far `sdscatfmt` reads in its format. The loop tests only the byte that it is at, and
a specifier takes it two bytes on. -/

namespace CPractice

open CMem CInt

/-- How many of the last bytes are `a`, without another one between them. -/
def trailing (a : UInt8) (l : List UInt8) : Nat := (l.reverse.takeWhile (· == a)).length

/-- At every head of the loop `f` is at most at the terminator of the format. -/
def StaysInFormat (m : Nat → Malloc) (stack : Nat → UInt8) (s : Sdshdr) (fmt rest : List UInt8) (ap : List Arg) :
    Prop :=
  ∀ n st, FmtRun m stack (fmt ++ 0 :: rest) n (FmtState.start s ap) st → st.f ≤ fmt.length ∧ n ≤ fmt.length

theorem trailing_le (a : UInt8) (l : List UInt8) : trailing a l ≤ l.length := by
  have hle := (List.takeWhile_prefix (l := l.reverse) (· == a)).length_le
  rwa [List.length_reverse] at hle

theorem trailing_cons (a b : UInt8) (l : List UInt8) :
    trailing a (b :: l) = if b = a ∧ trailing a l = l.length then l.length + 1 else trailing a l := by
  simp only [trailing, List.reverse_cons, List.takeWhile_append, List.length_reverse]
  by_cases hall : (l.reverse.takeWhile (· == a)).length = l.length
  · by_cases hb : b = a
    · simp [hall, hb]
    · simp [hall, hb, beq_eq_false_iff_ne.mpr hb]
  · simp [hall]

theorem trailing_pair (a b : UInt8) (l : List UInt8) :
    trailing a (a :: b :: l) = trailing a l ∨ trailing a (a :: b :: l) = trailing a l + 2 := by
  have hle := trailing_le a l
  have hfirst := trailing_cons a a (b :: l)
  have hsecond := trailing_cons a b l
  rw [List.length_cons] at hfirst
  split at hfirst
  case isTrue h => split at hsecond <;> omega
  case isFalse h =>
    rw [not_and] at h
    have hne := h rfl
    split at hsecond <;> omega

theorem cut_mem_iff (fmt : List UInt8) : .cut ∈ directives fmt ↔ ¬ Even (trailing (chr '%') fmt) := by
  induction fmt using directives.induct with
  | case1 => simp [directives, trailing]
  | case2 =>
    rw [directives, if_pos rfl, trailing_cons, if_pos ⟨rfl, rfl⟩]
    decide
  | case3 b hb =>
    rw [directives, if_neg hb, trailing_cons, if_neg fun h => hb h.1]
    simp [trailing]
  | case4 next fmt ih =>
    have hne := (directive_ne_cut next).symm
    rw [directives, if_pos rfl, List.mem_cons, or_iff_right hne, ih]
    rcases trailing_pair (chr '%') next fmt with heq | heq
    · rw [heq]
    · rw [heq, Nat.even_add, iff_true_right even_two]
  | case5 b next fmt hb ih =>
    rw [directives, if_neg hb, List.mem_cons, or_iff_right (by simp), ih, trailing_cons _ b, if_neg fun h => hb h.1]

section Position

variable {m : Nat → Malloc} {stack : Nat → UInt8} {st st' : FmtState}

theorem fmtRoom_f {l : Nat} (h : fmtRoom m st l = .ok st') : st'.f = st.f := by
  obtain ⟨s, -, h⟩ := bind_eq_ok.mp h
  obtain rfl := Except.ok.inj h
  rfl

theorem fmtChar_f {c : UInt8} (h : fmtChar st c = .ok st') : st'.f = st.f := by
  obtain ⟨buf, -, h⟩ := bind_eq_ok.mp h
  obtain rfl := Except.ok.inj h
  rfl

theorem fmtCopy_f {str : List UInt8} {l : Nat} (h : fmtCopy m st str l = .ok st') : st'.f = st.f := by
  obtain ⟨st₁, hroom, h⟩ := bind_eq_ok.mp h
  obtain ⟨buf, -, h⟩ := bind_eq_ok.mp h
  obtain rfl := Except.ok.inj h
  show st₁.f = st.f
  split at hroom
  · exact fmtRoom_f hroom
  · obtain rfl := Except.ok.inj hroom
    rfl

theorem fmtSpecifier_f {next : UInt8} (h : fmtSpecifier m stack next st = .ok st') : st'.f = st.f := by
  rw [fmtSpecifier] at h
  split at h
  · obtain ⟨⟨str, l, ap⟩, -, h⟩ := bind_eq_ok.mp h
    exact @fmtCopy_f m { st with ap } st' _ _ h
  split at h
  · obtain ⟨⟨num, ap⟩, -, h⟩ := bind_eq_ok.mp h
    obtain ⟨⟨buf, l⟩, -, h⟩ := bind_eq_ok.mp h
    exact @fmtCopy_f m { st with ap } st' _ _ h
  split at h
  · obtain ⟨⟨unum, ap⟩, -, h⟩ := bind_eq_ok.mp h
    obtain ⟨⟨buf, l⟩, -, h⟩ := bind_eq_ok.mp h
    exact @fmtCopy_f m { st with ap } st' _ _ h
  · exact fmtChar_f h

theorem fmtRound_f {block : List UInt8} (h : fmtRound m stack block st = .ok (some st')) :
    ∃ b, block[st.f]? = some b ∧ b ≠ 0 ∧
      (b ≠ chr '%' ∧ st'.f = st.f + 1 ∨ b = chr '%' ∧ st'.f = st.f + 2) := by
  obtain ⟨b, hb, h⟩ := bind_eq_ok.mp h
  refine ⟨b, getElem?_of_readAt hb, ?_⟩
  split at h
  case isTrue => cases h
  case isFalse hzero =>
    obtain ⟨st₁, hroom, h⟩ := bind_eq_ok.mp h
    obtain ⟨st₂, hbody, h⟩ := bind_eq_ok.mp h
    obtain rfl := Option.some.inj (Except.ok.inj h)
    have hf₁ : st₁.f = st.f := by
      split at hroom
      · exact fmtRoom_f hroom
      · obtain rfl := Except.ok.inj hroom
        rfl
    split at hbody
    case isTrue hpct =>
      obtain ⟨next, -, hbody⟩ := bind_eq_ok.mp hbody
      exact ⟨hzero, .inr ⟨hpct, by simp only [fmtSpecifier_f hbody, hf₁]⟩⟩
    case isFalse hpct => exact ⟨hzero, .inl ⟨hpct, by simp only [fmtChar_f hbody, hf₁]⟩⟩

def Within (fmt : List UInt8) (f : Nat) : Prop :=
  ∃ pre suf, fmt = pre ++ suf ∧ f = pre.length ∧ .cut ∉ directives suf

theorem Within.round {fmt rest : List UInt8} (hin : Within fmt st.f)
    (h : fmtRound m stack (fmt ++ 0 :: rest) st = .ok (some st')) : Within fmt st'.f ∧ st.f < st'.f := by
  obtain ⟨pre, suf, rfl, hf, hcut⟩ := hin
  obtain ⟨b, hb, hzero, hnext⟩ := fmtRound_f h
  rw [hf, List.append_assoc, List.getElem?_append_right le_rfl, Nat.sub_self] at hb
  cases suf with
  | nil => exact absurd (Option.some.inj hb).symm hzero
  | cons b' suf =>
    obtain rfl : b' = b := Option.some.inj hb
    rcases hnext with ⟨hne, hf'⟩ | ⟨hpct, hf'⟩
    · refine ⟨⟨pre ++ [b'], suf, by simp, by simp [hf', hf], ?_⟩, by omega⟩
      cases suf with
      | nil => simp [directives]
      | cons next suf =>
        rw [directives, if_neg hne] at hcut
        exact fun hm => hcut (List.mem_cons_of_mem _ hm)
    · cases suf with
      | nil =>
        rw [directives, if_pos hpct] at hcut
        exact absurd (List.mem_singleton_self _) hcut
      | cons next suf =>
        rw [directives, if_pos hpct] at hcut
        exact ⟨⟨pre ++ [b', next], suf, by simp, by simp [hf', hf], fun hm => hcut (List.mem_cons_of_mem _ hm)⟩,
          by omega⟩

theorem Within.run {fmt rest : List UInt8} {n : Nat} (hin : Within fmt st.f)
    (h : FmtRun m stack (fmt ++ 0 :: rest) n st st') : Within fmt st'.f ∧ st.f + n ≤ st'.f := by
  induction h with
  | refl st => exact ⟨hin, le_rfl⟩
  | head hround _ ih =>
    obtain ⟨hin₁, hlt⟩ := hin.round hround
    obtain ⟨hin', hle⟩ := ih hin₁
    exact ⟨hin', by omega⟩

end Position

theorem staysInFormat_of_even (m : Nat → Malloc) (stack : Nat → UInt8) (s : Sdshdr) {fmt : List UInt8}
    (h : Even (trailing (chr '%') fmt)) (rest : List UInt8) (ap : List Arg) :
    StaysInFormat m stack s fmt rest ap := by
  intro n st hrun
  have hcut : .cut ∉ directives fmt := fun hm => (cut_mem_iff fmt).mp hm h
  have hin : Within fmt (FmtState.start s ap).f := ⟨[], fmt, rfl, rfl, hcut⟩
  obtain ⟨⟨pre, suf, rfl, hf, -⟩, hn⟩ := hin.run hrun
  rw [List.length_append]
  omega

/-- With arguments for all its specifiers, a format that ends inside one is read past its end. -/
theorem not_staysInFormat_of_cut (fresh : Nat → Nat → UInt8) (stack : Nat → UInt8) {s : Sdshdr}
    {fmt out : List UInt8} {ap : List Arg} (hs : Consistent s) (hzero : 0 ∉ fmt) (hvalid : ∀ a ∈ ap, a.Valid)
    (hrender : render (directives fmt) ap = some out)
    (hfit : s.len.toNat + out.length + min (s.len.toNat + out.length) SDS_MAX_PREALLOC < 2 ^ 31)
    (rest : List UInt8) (hcut : .cut ∈ directives fmt) :
    ¬ StaysInFormat (fun k => some (fresh k)) stack s fmt rest ap := by
  rw [← hs.content_length] at hfit
  obtain ⟨n, st, hrun, -, -, hf⟩ := fmtRun_render fresh stack (Holds.start hs ap)
    (show (fmt ++ 0 :: rest).drop 0 = fmt ++ 0 :: rest from rfl) hzero hvalid hrender hfit
  intro hstays
  obtain ⟨hle, -⟩ := hstays n st hrun
  rw [if_pos hcut] at hf
  omega

theorem sdscatfmt_staysInFormat (stack : Nat → UInt8) (s : Sdshdr) {fmt : List UInt8} (hzero : 0 ∉ fmt)
    (rest : List UInt8) (ap : List Arg) :
    (Even (trailing (chr '%') fmt) → ∀ m, StaysInFormat m stack s fmt rest ap) ∧
    (∀ (fresh : Nat → Nat → UInt8) (out : List UInt8), Consistent s → (∀ a ∈ ap, a.Valid) → render (directives fmt) ap = some out →
      s.len.toNat + out.length + min (s.len.toNat + out.length) SDS_MAX_PREALLOC < 2 ^ 31 →
      (StaysInFormat (fun k => some (fresh k)) stack s fmt rest ap ↔ Even (trailing (chr '%') fmt))) := by
  refine ⟨fun h m => staysInFormat_of_even m stack s h rest ap, ?_⟩
  intro fresh out hs hvalid hrender hfit
  refine ⟨fun hstays => ?_, fun h => staysInFormat_of_even _ stack s h rest ap⟩
  by_contra hodd
  exact not_staysInFormat_of_cut fresh stack hs hzero hvalid hrender hfit rest ((cut_mem_iff fmt).mpr hodd) hstays

theorem hundred_percent_stays :
    StaysInFormat (fun _ => some fun _ => 0) (fun _ => 0) (sdsOf [] []) ("100%%".toList.map chr) [] [] :=
  (sdscatfmt_staysInFormat (fun _ => 0) (sdsOf [] []) (by decide) [] []).1 (by decide) _

/-- `sdscatfmt(x, "%")`: the terminator is appended, and the loop goes on behind it. -/
theorem percent_read_past_end :
    ¬ StaysInFormat (fun _ => some fun _ => 0) (fun _ => 0) (sdsOf [] []) [chr '%'] [] [] ∧
      sdscatfmt (fun _ => some fun _ => 0) (fun _ => 0) (sdsOf [] []) [chr '%', 0] [] = .error .outOfBounds ∧
      (sdscatfmt (fun _ => some fun _ => 0) (fun _ => 0) (sdsOf [] []) [chr '%', 0, chr 'x', 0] []).map content =
        .ok [0, chr 'x'] := by
  refine ⟨?_, by decide, by decide⟩
  have hrender : render (directives [chr '%']) [] = some [0] := by decide
  exact not_staysInFormat_of_cut (fun _ _ => 0) (fun _ => 0) (sdsOf_consistent (by decide) (by decide)) (by decide)
    (by simp) hrender (by decide) [] (by decide)

end CPractice
