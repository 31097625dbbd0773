import CPractice.Sds.Chars
import CPractice.Sds.Printf

/-! The quoted form of a string, as `sdscatrepr` appends it to a dynamic string. -/

namespace CPractice

open CMem CInt

def hexDigit (n : Nat) : UInt8 :=
  if n < 10 then chr '0' + UInt8.ofNat n else chr 'a' + UInt8.ofNat (n - 10)

def sdscatprintf (m : Nat → Malloc) (staticbuf : Nat → UInt8) (s : Sdshdr) (fmt out : List UInt8) :
    Except Fault Sdshdr :=
  sdscatvprintf (fun k => m (k + 1)) (m 0) staticbuf s fmt out

/-- The `switch` of `sdscatrepr`; the formats are `"\\%c"`, `"%c"` and `"\\x%02x"`. -/
def catReprByte (m : Nat → Malloc) (staticbuf : Nat → UInt8) (s : Sdshdr) (c : UInt8) : Except Fault Sdshdr :=
  if c = chr '\\' ∨ c = chr '"' then
    sdscatprintf m staticbuf s [chr '\\', chr '%', chr 'c', 0] [chr '\\', c]
  else if c = chr '\n' then sdscatlen (m 0) s [chr '\\', chr 'n', 0] 2
  else if c = chr '\r' then sdscatlen (m 0) s [chr '\\', chr 'r', 0] 2
  else if c = chr '\t' then sdscatlen (m 0) s [chr '\\', chr 't', 0] 2
  else if c = 7 then sdscatlen (m 0) s [chr '\\', chr 'a', 0] 2
  else if c = 8 then sdscatlen (m 0) s [chr '\\', chr 'b', 0] 2
  else if isprint c then sdscatprintf m staticbuf s [chr '%', chr 'c', 0] [c]
  else
    sdscatprintf m staticbuf s [chr '\\', chr 'x', chr '%', chr '0', chr '2', chr 'x', 0]
      [chr '\\', chr 'x', hexDigit (c.toNat / 16), hexDigit (c.toNat % 16)]

/-- `while(len--) { ...; p++; }` with `p` at index `i`. -/
def reprLoop (m : Nat → Nat → Malloc) (staticbuf : Nat → UInt8) (p : List UInt8) :
    Nat → Nat → Sdshdr → Except Fault Sdshdr
  | 0, _, s => .ok s
  | len + 1, i, s => do
    let s ← catReprByte (m i) staticbuf s (← readAt p i)
    reprLoop m staticbuf p len (i + 1) s

/-- `m i` are the allocations made for the byte `i`, and `mark` those for the two quotes. -/
def sdscatrepr (mark : Nat → Malloc) (m : Nat → Nat → Malloc) (staticbuf : Nat → UInt8) (s : Sdshdr)
    (p : List UInt8) (len : Nat) : Except Fault Sdshdr := do
  let s ← sdscatlen (mark 0) s [chr '"', 0] 1
  let s ← reprLoop m staticbuf p len 0 s
  sdscatlen (mark 1) s [chr '"', 0] 1

def reprByte (c : UInt8) : List UInt8 :=
  if c = chr '\\' ∨ c = chr '"' then [chr '\\', c]
  else if c = chr '\n' then [chr '\\', chr 'n']
  else if c = chr '\r' then [chr '\\', chr 'r']
  else if c = chr '\t' then [chr '\\', chr 't']
  else if c = 7 then [chr '\\', chr 'a']
  else if c = 8 then [chr '\\', chr 'b']
  else if isprint c then [c]
  else [chr '\\', chr 'x', hexDigit (c.toNat / 16), hexDigit (c.toNat % 16)]

def quoted (a : List UInt8) : List UInt8 := chr '"' :: a.flatMap reprByte ++ [chr '"']

theorem hexDigit_ne_zero : ∀ n : Fin 16, hexDigit n ≠ 0 := by
  decide

theorem isprint_ne_zero {c : UInt8} (h : isprint c = true) : c ≠ 0 := by
  rintro rfl
  exact absurd h (by decide)

/-- Every byte is one call, of `sdscatlen` with two bytes or of `sdscatprintf`. -/
theorem catReprByte_cases (m : Nat → Malloc) (staticbuf : Nat → UInt8) (s : Sdshdr) (c : UInt8) :
    (reprByte c).length = 2 ∧ 0 ∉ reprByte c ∧ catReprByte m staticbuf s c = sdscatlen (m 0) s (reprByte c ++ [0]) 2 ∨
    ∃ fmt, 0 ∈ fmt ∧ fmt.length ≤ 7 ∧ 1 ≤ (reprByte c).length ∧ (reprByte c).length ≤ 4 ∧ 0 ∉ reprByte c ∧
      catReprByte m staticbuf s c = sdscatprintf m staticbuf s fmt (reprByte c) := by
  rw [reprByte, catReprByte]
  by_cases hescape : c = chr '\\' ∨ c = chr '"'
  · rw [if_pos hescape, if_pos hescape]
    refine .inr ⟨_, ?_, ?_, ?_, ?_, ?_, rfl⟩
    · decide
    · decide
    · simp
    · simp
    · rcases hescape with rfl | rfl <;> decide
  rw [if_neg hescape, if_neg hescape]
  by_cases hn : c = chr '\n'
  · rw [if_pos hn, if_pos hn]
    exact .inl ⟨rfl, by decide, rfl⟩
  rw [if_neg hn, if_neg hn]
  by_cases hr : c = chr '\r'
  · rw [if_pos hr, if_pos hr]
    exact .inl ⟨rfl, by decide, rfl⟩
  rw [if_neg hr, if_neg hr]
  by_cases ht : c = chr '\t'
  · rw [if_pos ht, if_pos ht]
    exact .inl ⟨rfl, by decide, rfl⟩
  rw [if_neg ht, if_neg ht]
  by_cases ha : c = 7
  · rw [if_pos ha, if_pos ha]
    exact .inl ⟨rfl, by decide, rfl⟩
  rw [if_neg ha, if_neg ha]
  by_cases hb : c = 8
  · rw [if_pos hb, if_pos hb]
    exact .inl ⟨rfl, by decide, rfl⟩
  rw [if_neg hb, if_neg hb]
  by_cases hprint : isprint c = true
  · rw [if_pos hprint, if_pos hprint]
    refine .inr ⟨_, ?_, ?_, ?_, ?_, ?_, rfl⟩
    · decide
    · decide
    · simp
    · simp
    · rw [List.mem_singleton]
      exact Ne.symm (isprint_ne_zero hprint)
  · have hhigh := hexDigit_ne_zero ⟨c.toNat / 16, by have := c.toNat_lt; omega⟩
    have hlow := hexDigit_ne_zero ⟨c.toNat % 16, by omega⟩
    rw [if_neg hprint, if_neg hprint]
    refine .inr ⟨_, ?_, ?_, ?_, ?_, ?_, rfl⟩
    · decide
    · decide
    · simp
    · simp
    · simp only [List.mem_cons, List.not_mem_nil, or_false, not_or]
      exact ⟨by decide, by decide, Ne.symm hhigh, Ne.symm hlow⟩

theorem one_le_length_reprByte (c : UInt8) : 1 ≤ (reprByte c).length := by
  rcases catReprByte_cases (fun _ => none) (fun _ => 0) ⟨0, 0, []⟩ c with ⟨hlen, -⟩ | ⟨-, -, -, hlen, -⟩
  · omega
  · exact hlen

theorem reprByte_no_zero (c : UInt8) : (0 : UInt8) ∉ reprByte c := by
  rcases catReprByte_cases (fun _ => none) (fun _ => 0) ⟨0, 0, []⟩ c with ⟨-, hzero, -⟩ | ⟨-, -, -, -, -, hzero, -⟩
  · exact hzero
  · exact hzero

section Appends

variable {staticbuf : Nat → UInt8} {s : Sdshdr}

theorem Consistent.len_append {s' : Sdshdr} {t : List UInt8} (hs : Consistent s) (hs' : Consistent s')
    (hcontent : content s' = content s ++ t) : s'.len = s.len + t.length := by
  rw [hs'.len_eq, hcontent, hs.len_eq, List.length_append]
  rfl

theorem sdscatprintf_appends {fresh : Nat → Nat → UInt8} (hs : Consistent s) {fmt out : List UInt8} (hfmt : 0 ∈ fmt)
    (hsize : fmt.length ≤ 2 ^ 31) (hzero : 0 ∉ out) (hlen : s.len + out.length < 2 ^ 31) :
    ∃ s', sdscatprintf (fun k => some (fresh k)) staticbuf s fmt out = .ok s' ∧ Consistent s' ∧
      content s' = content s ++ out := by
  have hnonneg := hs.len_nonneg
  have hprefix : PREFIX_SIZE = 8 := rfl
  have hfmtlen := length_cString_le fmt
  have hstring := cString_of_not_mem hzero
  have hroom : s.len + (cString out).length < 2 ^ 31 := by rwa [hstring]
  have happends := @sdscatvprintf_appends (fun k => some (fresh (k + 1))) _ (fun _ => rfl) (fresh 0)
    staticbuf _ hs fmt hfmt (by omega) out (by omega) hroom
  rwa [hstring] at happends

theorem catReprByte_ok (fresh : Nat → Nat → UInt8) (staticbuf : Nat → UInt8) (hs : Consistent s) (c : UInt8)
    (hlen : s.len + (reprByte c).length < 2 ^ 31) :
    ∃ s', catReprByte (fun k => some (fresh k)) staticbuf s c = .ok s' ∧ Consistent s' ∧
      content s' = content s ++ reprByte c := by
  rcases catReprByte_cases (fun k => some (fresh k)) staticbuf s c with
    ⟨htwo, -, heq⟩ | ⟨fmt, hfmt, hsize, -, -, hzero, heq⟩
  · have hcat := sdscatlen_consistent hs (fresh 0) hlen (show _ ≤ (reprByte c ++ [0]).length by simp)
    rw [List.take_left, htwo] at hcat
    rwa [heq]
  · rw [heq]
    exact sdscatprintf_appends hs hfmt (by omega) hzero hlen

theorem reprLoop_ok (fresh : Nat → Nat → Nat → UInt8) (staticbuf : Nat → UInt8) (hs : Consistent s)
    (pre a rest : List UInt8) (hlen : s.len + (a.flatMap reprByte).length < 2 ^ 31) :
    ∃ s', reprLoop (fun i k => some (fresh i k)) staticbuf (pre ++ a ++ rest) a.length pre.length s = .ok s' ∧
      Consistent s' ∧ content s' = content s ++ a.flatMap reprByte := by
  induction a generalizing pre s with
  | nil => exact ⟨s, rfl, hs, by simp⟩
  | cons c a ih =>
    rw [List.flatMap_cons, List.length_append] at hlen
    obtain ⟨s₁, hcat, hs₁, hcontent₁⟩ := catReprByte_ok (fresh pre.length) staticbuf hs c (by omega)
    have hlen₁ := hs.len_append hs₁ hcontent₁
    obtain ⟨s', hloop, hs', hcontent⟩ := ih hs₁ (pre ++ [c]) (by omega)
    rw [List.length_append, List.length_singleton, List.append_assoc pre [c] a, List.singleton_append] at hloop
    refine ⟨s', ?_, hs', by rw [hcontent, hcontent₁, List.flatMap_cons, List.append_assoc]⟩
    have hread : readAt (pre ++ c :: a ++ rest) pre.length = .ok c := by
      rw [List.append_assoc]
      exact readAt_append pre (a ++ rest) c
    rw [List.length_cons, reprLoop, hread, ok_bind, hcat, ok_bind, hloop]

theorem sdscatrepr_quoted (mark : Nat → Nat → UInt8) (fresh : Nat → Nat → Nat → UInt8) (staticbuf : Nat → UInt8)
    (hs : Consistent s) (a rest : List UInt8) (hlen : s.len + (quoted a).length < 2 ^ 31) :
    ∃ s', sdscatrepr (fun k => some (mark k)) (fun i k => some (fresh i k)) staticbuf s (a ++ rest) a.length = .ok s' ∧
      Consistent s' ∧ content s' = content s ++ quoted a := by
  have hquoted : (quoted a).length = (a.flatMap reprByte).length + 2 := by simp [quoted]
  obtain ⟨s₁, hopen, hs₁, hcontent₁⟩ := @sdscatlen_consistent _ [chr '"', 0] 1 hs (mark 0) (by omega) (by simp)
  have hlen₁ : s₁.len = s.len + 1 := hs.len_append hs₁ hcontent₁
  obtain ⟨s₂, hloop, hs₂, hcontent₂⟩ := reprLoop_ok fresh staticbuf hs₁ [] a rest (by omega)
  have hlen₂ := hs₁.len_append hs₂ hcontent₂
  obtain ⟨s', hclose, hs', hcontent⟩ := @sdscatlen_consistent _ [chr '"', 0] 1 hs₂ (mark 1) (by omega) (by simp)
  refine ⟨s', ?_, hs', ?_⟩
  · rw [List.nil_append, List.length_nil] at hloop
    rw [sdscatrepr, hopen, ok_bind, hloop, ok_bind, hclose]
  · rw [hcontent, hcontent₂, hcontent₁]
    simp [quoted]

end Appends

end CPractice
