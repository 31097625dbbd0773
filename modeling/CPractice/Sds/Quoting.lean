import CPractice.Sds.Accepts
import CPractice.Sds.Repr

/-! `sdssplitargs` reads back what `sdscatrepr` has quoted. -/

namespace CPractice

open CMem CInt

theorem hexDigit_spec : ∀ n : Fin 16, is_hex_digit (hexDigit n) = true ∧
    hex_digit_to_int (hexDigit n) = n.val ∧ hexDigit n ≠ 0 := by
  decide

/-- The three shapes of a quoted byte: a two-character escape that the hex rule
does not take for its own, the byte itself, and a hex escape. -/
theorem reprByte_cases (c : UInt8) :
    (∃ e, reprByte c = [chr '\\', e] ∧ e ≠ chr 'x' ∧ e ≠ 0 ∧ unescape e = c) ∨
    (reprByte c = [c] ∧ c ≠ chr '\\' ∧ c ≠ chr '"' ∧ c ≠ 0) ∨
    (∃ hi lo, reprByte c = [chr '\\', chr 'x', hi, lo] ∧ is_hex_digit hi = true ∧
      is_hex_digit lo = true ∧ lo ≠ 0 ∧
      UInt8.ofNat (hex_digit_to_int hi * 16 + hex_digit_to_int lo) = c) := by
  by_cases h₁ : c = chr '\\' ∨ c = chr '"'
  · refine .inl ⟨c, if_pos h₁, ?_⟩
    rcases h₁ with rfl | rfl <;> decide
  rw [reprByte, if_neg h₁]
  by_cases h₂ : c = chr '\n'
  · exact .inl ⟨chr 'n', if_pos h₂, by decide, by decide, h₂ ▸ by decide⟩
  rw [if_neg h₂]
  by_cases h₃ : c = chr '\r'
  · exact .inl ⟨chr 'r', if_pos h₃, by decide, by decide, h₃ ▸ by decide⟩
  rw [if_neg h₃]
  by_cases h₄ : c = chr '\t'
  · exact .inl ⟨chr 't', if_pos h₄, by decide, by decide, h₄ ▸ by decide⟩
  rw [if_neg h₄]
  by_cases h₅ : c = 7
  · exact .inl ⟨chr 'a', if_pos h₅, by decide, by decide, h₅ ▸ by decide⟩
  rw [if_neg h₅]
  by_cases h₆ : c = 8
  · exact .inl ⟨chr 'b', if_pos h₆, by decide, by decide, h₆ ▸ by decide⟩
  rw [if_neg h₆]
  by_cases h₇ : isprint c = true
  · refine .inr (.inl ⟨if_pos h₇, fun h => h₁ (.inl h), fun h => h₁ (.inr h), ?_⟩)
    rintro rfl
    exact absurd h₇ (by decide)
  rw [if_neg h₇]
  have hi := hexDigit_spec ⟨c.toNat / 16, by have := c.toNat_lt; omega⟩
  have lo := hexDigit_spec ⟨c.toNat % 16, by omega⟩
  refine .inr (.inr ⟨_, _, rfl, hi.1, lo.1, lo.2.2, ?_⟩)
  rw [hi.2.1, lo.2.1, Nat.div_add_mod', UInt8.ofNat_toNat]

theorem quoted_no_zero (a : List UInt8) : (0 : UInt8) ∉ quoted a := by
  simp [quoted, reprByte_no_zero]

theorem length_le_quoted (a : List UInt8) : a.length + 2 ≤ (quoted a).length := by
  have hle : a.length ≤ (a.flatMap reprByte).length := by
    induction a with
    | nil => simp
    | cons c a ih =>
      have hone := one_le_length_reprByte c
      rw [List.flatMap_cons, List.length_append, List.length_cons]
      omega
  simp only [quoted, List.length_cons, List.length_append, List.length_nil]
  omega

theorem doubleBody_reprByte (a rest : List UInt8) : DoubleBody (a.flatMap reprByte) a rest := by
  induction a with
  | nil => exact .nil
  | cons c a ih =>
    rw [List.flatMap_cons]
    rcases reprByte_cases c with ⟨e, hr, hx, -, he⟩ | ⟨hr, hb, hq, -⟩ | ⟨hi, lo, hr, hhi, hlo, -, hv⟩
    · rw [hr, ← he]
      exact .escape (fun h => hx h.1) ih
    · rw [hr]
      exact .plain hb hq ih
    · rw [hr, ← hv]
      exact .hex hhi hlo ih

theorem argument_quoted (a : List UInt8) {rest : List UInt8} (h : ∀ c ∈ rest.head?, isspace c = true) :
    Argument (quoted a) a rest := by
  have htext : quoted a = [] ++ Quote.double.mark :: (a.flatMap reprByte ++ [Quote.double.mark]) := by
    simp [quoted, Quote.mark]
  rw [htext]
  exact .quoted .double (by simp [Word]) (doubleBody_reprByte a _) h

theorem head_quoted (a : List UInt8) : ∀ c ∈ (quoted a).head?, isspace c = false := by
  intro c hc
  obtain rfl : chr '"' = c := by simpa [quoted] using hc
  decide

theorem denotes_tail (args : List (List UInt8)) :
    Denotes (args.flatMap (fun a => chr ' ' :: quoted a)) args ∧
      ∀ c ∈ (args.flatMap (fun a => chr ' ' :: quoted a)).head?, isspace c = true := by
  induction args with
  | nil => exact ⟨.done (by simp [Blank]), by simp⟩
  | cons a args ih =>
    have hblank : Blank [chr ' '] := by
      intro c hc
      rw [List.mem_singleton.mp hc]
      decide
    refine ⟨?_, ?_⟩
    · exact .argument hblank (head_quoted a) (argument_quoted a ih.2) ih.1
    · intro c hc
      obtain rfl : chr ' ' = c := by simpa using hc
      decide

theorem intercalate_quoted (a : List UInt8) (args : List (List UInt8)) :
    [chr ' '].intercalate ((a :: args).map quoted) = quoted a ++ args.flatMap (fun a => chr ' ' :: quoted a) := by
  induction args generalizing a with
  | nil => simp
  | cons b args ih =>
    have hh := ih b
    simp only [List.map_cons] at hh
    rw [List.map_cons, List.map_cons, List.intercalate_cons_cons, List.append_assoc, hh]
    simp

/-- The line that quotes the arguments denotes them, whatever bytes they hold. -/
theorem denotes_quoted (args : List (List UInt8)) : Denotes ([chr ' '].intercalate (args.map quoted)) args := by
  cases args with
  | nil => exact .done (by simp [Blank])
  | cons a args =>
    obtain ⟨hargs, hhead⟩ := denotes_tail args
    rw [intercalate_quoted]
    exact .argument (b := []) (by simp [Blank]) (head_quoted a) (argument_quoted a hhead) hargs

theorem line_no_zero (args : List (List UInt8)) : (0 : UInt8) ∉ [chr ' '].intercalate (args.map quoted) := by
  cases args with
  | nil => simp
  | cons a args =>
    rw [intercalate_quoted]
    simp [quoted_no_zero]

section Sizes

variable {mark : Nat → Nat → UInt8} {fresh : Nat → Nat → Nat → UInt8} {staticbuf : Nat → UInt8} {s s' : Sdshdr} {n : Nat}

theorem Counts.sdscatprintf {fresh : Nat → Nat → UInt8} (h : Counts s n) {fmt out : List UInt8} (hfmt : 0 ∈ fmt)
    (hsize : fmt.length ≤ 2 ^ 31) (hzero : 0 ∉ out) (hlen : out.length < 2 ^ 31)
    (hrun : sdscatprintf (fun k => some (fresh k)) staticbuf s fmt out = .ok s') : Counts s' (n + out.length) := by
  have hprefix : PREFIX_SIZE = 8 := rfl
  have hfmtlen := length_cString_le fmt
  obtain ⟨buf, hmem, hstring, heq⟩ := @sdscatvprintf_eq (fun k => some (fresh (k + 1))) _ (fun _ => rfl) staticbuf fmt hfmt
    (by omega) out (by omega)
  rw [CPractice.sdscatprintf, heq, sdscat, strlen_ok hmem, ok_bind, hstring, cString_of_not_mem hzero] at hrun
  exact h.sdscatlen hlen hrun

theorem Counts.catReprByte {fresh : Nat → Nat → UInt8} (h : Counts s n) (c : UInt8)
    (hrun : catReprByte (fun k => some (fresh k)) staticbuf s c = .ok s') : Counts s' (n + (reprByte c).length) := by
  rcases catReprByte_cases (fun k => some (fresh k)) staticbuf s c with
    ⟨hlen, -, heq⟩ | ⟨fmt, hfmt, hsize, -, hle, hzero, heq⟩
  · rw [heq] at hrun
    rw [hlen]
    exact h.sdscatlen (by decide) hrun
  · rw [heq] at hrun
    exact h.sdscatprintf hfmt (by omega) hzero (by omega) hrun

theorem Counts.reprLoop (h : Counts s n) (pre a rest : List UInt8)
    (hrun : reprLoop (fun i k => some (fresh i k)) staticbuf (pre ++ a ++ rest) a.length pre.length s = .ok s') :
    Counts s' (n + (a.flatMap reprByte).length) := by
  induction a generalizing pre s n with
  | nil =>
    cases hrun
    simpa using h
  | cons c a ih =>
    have hread : readAt (pre ++ c :: a ++ rest) pre.length = .ok c := by
      rw [List.append_assoc]
      exact readAt_append pre (a ++ rest) c
    rw [List.length_cons, CPractice.reprLoop, hread, ok_bind] at hrun
    obtain ⟨s₁, hcat, hrest⟩ := bind_eq_ok.mp hrun
    rw [List.flatMap_cons, List.length_append, ← Nat.add_assoc]
    refine ih (h.catReprByte c hcat) (pre ++ [c]) ?_
    rwa [List.length_append, List.length_singleton, List.append_assoc pre [c] a, List.singleton_append]

theorem Counts.sdscatrepr (h : Counts s n) (a rest : List UInt8)
    (hrun : sdscatrepr (fun k => some (mark k)) (fun i k => some (fresh i k)) staticbuf s (a ++ rest) a.length = .ok s') :
    Counts s' (n + (quoted a).length) := by
  obtain ⟨s₁, hopen, hrest⟩ := bind_eq_ok.mp hrun
  obtain ⟨s₂, hloop, hclose⟩ := bind_eq_ok.mp hrest
  have hend := ((h.sdscatlen (by decide) hopen).reprLoop [] a rest hloop).sdscatlen (by decide) hclose
  have hquoted : (quoted a).length = (a.flatMap reprByte).length + 2 := by simp [quoted]
  rwa [hquoted, show n + ((a.flatMap reprByte).length + 2) = n + 1 + (a.flatMap reprByte).length + 1 by omega]

end Sizes

/-- `sdscatrepr(sdsempty(),a,len)`. -/
def quoteNew (empty : Malloc) (mark : Nat → Malloc) (m : Nat → Nat → Malloc) (staticbuf : Nat → UInt8)
    (a : List UInt8) : Except Fault Sdshdr := do
  sdscatrepr mark m staticbuf (← sdsempty empty) a a.length

section RoundTrip

variable {empty : Nat → UInt8} {mark : Nat → Nat → UInt8} {fresh : Nat → Nat → Nat → UInt8} {staticbuf : Nat → UInt8}
  {r : Sdshdr} {a : List UInt8} {args : List (List UInt8)} {rs : List Sdshdr}

/-- `sdscatrepr` makes a string of the bytes. -/
def Quotes (empty : Nat → UInt8) (mark : Nat → Nat → UInt8) (fresh : Nat → Nat → Nat → UInt8)
    (staticbuf : Nat → UInt8) (r : Sdshdr) (a : List UInt8) : Prop :=
  quoteNew (some empty) (fun k => some (mark k)) (fun i k => some (fresh i k)) staticbuf a = .ok r ∧ Consistent r

theorem sdsOf_nil_consistent : Consistent (sdsOf [] []) := sdsOf_consistent (by decide) (by decide)

theorem quotes_of_lt (empty : Nat → UInt8) (mark : Nat → Nat → UInt8) (fresh : Nat → Nat → Nat → UInt8)
    (staticbuf : Nat → UInt8) (h : (quoted a).length < 2 ^ 31) :
    ∃ r, Quotes empty mark fresh staticbuf r a ∧ content r = quoted a := by
  have hlen : (sdsOf [] []).len + (quoted a).length < 2 ^ 31 := by
    simp only [sdsOf, List.length_nil]
    omega
  obtain ⟨r, hrun, hr, hcontent⟩ := sdscatrepr_quoted mark fresh staticbuf sdsOf_nil_consistent a [] hlen
  rw [List.append_nil] at hrun
  rw [content_sdsOf, List.nil_append] at hcontent
  exact ⟨r, ⟨by rw [quoteNew, sdsempty_ok, ok_bind, hrun], hr⟩, hcontent⟩

theorem Quotes.length_lt (h : Quotes empty mark fresh staticbuf r a) : (quoted a).length < 2 ^ 31 := by
  obtain ⟨hrun, hr⟩ := h
  rw [quoteNew, sdsempty_ok, ok_bind, ← List.append_nil a] at hrun
  have hstart : Counts (sdsOf [] []) 0 := ⟨.inl rfl, by decide, by decide, by decide⟩
  have hcounts := hstart.sdscatrepr a [] (by simpa using hrun)
  have hnonneg := hr.len_nonneg
  have hlt := hr.len_lt
  have heq := hcounts.len_eq.resolve_right (by omega)
  omega

theorem Quotes.content_eq (h : Quotes empty mark fresh staticbuf r a) : content r = quoted a := by
  obtain ⟨r', hr', hcontent⟩ := quotes_of_lt empty mark fresh staticbuf h.length_lt
  rw [Except.ok.inj (h.1.symm.trans hr'.1), hcontent]

theorem map_content_quotes (h : List.Forall₂ (Quotes empty mark fresh staticbuf) rs args) :
    rs.map content = args.map quoted := by
  induction h with
  | nil => rfl
  | cons hhead _ ih => rw [List.map_cons, List.map_cons, hhead.content_eq, ih]

theorem quotes_all (empty : Nat → UInt8) (mark : Nat → Nat → UInt8) (fresh : Nat → Nat → Nat → UInt8)
    (staticbuf : Nat → UInt8) (h : ∀ a ∈ args, (quoted a).length < 2 ^ 31) :
    ∃ rs, List.Forall₂ (Quotes empty mark fresh staticbuf) rs args := by
  induction args with
  | nil => exact ⟨[], .nil⟩
  | cons a args ih =>
    obtain ⟨ha, hargs⟩ := List.forall_mem_cons.mp h
    obtain ⟨r, hr, -⟩ := quotes_of_lt empty mark fresh staticbuf ha
    obtain ⟨rs, hrs⟩ := ih hargs
    exact ⟨r :: rs, .cons hr hrs⟩

theorem quotes_length_lt (h : List.Forall₂ (Quotes empty mark fresh staticbuf) rs args) :
    ∀ a ∈ args, (quoted a).length < 2 ^ 31 := by
  induction h with
  | nil => simp
  | cons hhead _ ih => exact List.forall_mem_cons.mpr ⟨hhead.length_lt, ih⟩

end RoundTrip

/-- Every argument is quoted, and the line of the quoted arguments with blanks between them is
split into the arguments. -/
def QuotingInverts (empty : Nat → UInt8) (mark : Nat → Nat → UInt8) (fresh : Nat → Nat → Nat → UInt8)
    (staticbuf : Nat → UInt8) (alloc : Nat → Nat → UInt8) (args : List (List UInt8)) : Prop :=
  ∃ rs, List.Forall₂ (Quotes empty mark fresh staticbuf) rs args ∧
    ArgsReturned (fun k => some (alloc k)) ([chr ' '].intercalate (rs.map content)) args

/-- Quoting and splitting are inverse on the arguments whose number and quoted lengths `int`
can hold. -/
theorem sdssplitargs_sdscatrepr_iff (empty : Nat → UInt8) (mark : Nat → Nat → UInt8) (fresh : Nat → Nat → Nat → UInt8)
    (staticbuf : Nat → UInt8) (alloc : Nat → Nat → UInt8) (args : List (List UInt8)) :
    QuotingInverts empty mark fresh staticbuf alloc args ↔
      args.length < 2 ^ 31 ∧ ∀ a ∈ args, (quoted a).length < 2 ^ 31 := by
  have hdenotes := denotes_quoted args
  have hz := line_no_zero args
  constructor
  · rintro ⟨rs, hquotes, tokens, parts, hrun, -⟩
    rw [map_content_quotes hquotes] at hrun
    exact ⟨hdenotes.count_lt hz hrun, quotes_length_lt hquotes⟩
  · rintro ⟨hcount, hlen⟩
    obtain ⟨rs, hquotes⟩ := quotes_all empty mark fresh staticbuf hlen
    refine ⟨rs, hquotes, ?_⟩
    rw [map_content_quotes hquotes]
    refine hdenotes.returned hz hcount fun a ha => ?_
    have hle := length_le_quoted a
    have hlt := hlen a ha
    omega

theorem longWord_not_quoted :
    ¬ QuotingInverts (fun _ => 7) (fun _ _ => 7) (fun _ _ _ => 7) (fun _ => 7) (fun _ _ => 7) [longWord] := by
  rintro ⟨rs, hquotes, -⟩
  have hlt := quotes_length_lt hquotes longWord List.mem_cons_self
  have hle := length_le_quoted longWord
  have hlong : longWord.length = 2 ^ 31 := List.length_replicate
  omega

end CPractice
