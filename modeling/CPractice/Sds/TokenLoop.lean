import CPractice.Sds.Bytes
import CPractice.Sds.Grammar

/-! What the loops of `sdssplitargs` do on a line of the grammar: the bytes of each argument are
appended one by one, and each argument is stored in the array. -/

namespace CPractice

open CMem

@[simp] theorem readAt_cons_zero {α : Type} (c : α) (p : List α) : readAt (c :: p) 0 = .ok c := by
  simp [readAt]

@[simp] theorem readAt_cons_succ {α : Type} (c : α) (p : List α) (i : Nat) :
    readAt (c :: p) (i + 1) = readAt p i := by
  simp [readAt]

def Quote.token (k : Quote) (p : List UInt8) (current : Sdshdr) (allocs : Nat) : Token :=
  { p, current, allocs, inq := decide (k = .double), insq := decide (k = .single), done := false }

def EndsArgument (q : List UInt8) : Prop := ∃ c rest, q = c :: rest ∧ (c = 0 ∨ isspace c = true)

variable {m : Nat → Malloc}

theorem tokenLoop_step {t t' : Token} (hdone : t.done = false) (h : tokenStep m t = .ok (some t')) (fuel : Nat) :
    tokenLoop m (fuel + 1) t = tokenLoop m fuel t' := by
  rw [tokenLoop, if_neg (by simp [hdone]), h, ok_bind]

theorem tokenLoop_fails {t : Token} (hdone : t.done = false) (h : tokenStep m t = .ok none) (fuel : Nat) :
    tokenLoop m (fuel + 1) t = .ok none := by
  rw [tokenLoop, if_neg (by simp [hdone]), h, ok_bind]
  rfl

theorem tokenLoop_done {t : Token} (hdone : t.done = true) (fuel : Nat) : tokenLoop m (fuel + 1) t = .ok (some t) := by
  rw [tokenLoop, if_pos hdone]

section Branch

variable {t t' : Token} {b c : UInt8} {q : List UInt8}

def branch (m : Nat → Malloc) (t : Token) : Except Fault (Option Token) :=
  if t.inq then doubleQuoted m t else if t.insq then singleQuoted m t else unquoted m t

theorem tokenStep_of_branch (h : branch m t = .ok (some t')) (hp : t'.p = c :: q) (hc : c ≠ 0) :
    tokenStep m t = .ok (some { t' with p := q }) := by
  unfold branch at h
  simp only [tokenStep, h, ok_bind, hp, readAt_cons_zero, ne_eq, hc, not_false_eq_true, if_true,
    List.drop_one, List.tail_cons]
  rfl

theorem tokenStep_fails (h : branch m t = .ok none) : tokenStep m t = .ok none := by
  unfold branch at h
  simp only [tokenStep, h, ok_bind]
  rfl

theorem Token.cat_bind {α : Type} (t : Token) (x : List UInt8) (f : Token → Except Fault α) :
    (t.cat m x >>= f) = (do
      let current ← sdscatlen (m t.allocs) t.current x 1
      f { t with current, allocs := t.allocs + 1 }) := by
  rw [Token.cat]
  cases sdscatlen (m t.allocs) t.current x 1 <;> rfl

/-- A branch that appends the byte `b` and leaves the cursor in front of `c`. -/
theorem tokenStep_of_cat {x : List UInt8} (h : branch m t = (do
      let current ← sdscatlen (m t.allocs) t.current (b :: x) 1
      return some { t with p := c :: q, current, allocs := t.allocs + 1 }))
    (hc : c ≠ 0) :
    tokenStep m t = (do
      let current ← sdscatlen (m t.allocs) t.current [b] 1
      return some { t with p := q, current, allocs := t.allocs + 1 }) := by
  unfold branch at h
  rw [tokenStep, h, sdscatlen_cons]
  cases sdscatlen (m t.allocs) t.current [b] 1 with
  | error e => rfl
  | ok current =>
    simp only [ok_bind, pure, Except.pure, readAt_cons_zero, ne_eq, hc, not_false_eq_true, if_true, List.drop_one,
      List.tail_cons]

end Branch

/-- From `p` on, the loop appends the bytes `v` and comes to `q`. -/
def Takes (m : Nat → Malloc) (token : List UInt8 → Sdshdr → Nat → Token) (p v q : List UInt8) : Prop :=
  ∀ fuel current k, tokenLoop m (fuel + v.length) (token p current k) = (do
    tokenLoop m fuel (token q (← catBytes m k current v) (k + v.length)))

section Takes

variable {token : List UInt8 → Sdshdr → Nat → Token} {p q r v : List UInt8} {b : UInt8}

theorem Takes.nil : Takes m token p [] p := fun _ _ _ => rfl

theorem Takes.cons (hdone : ∀ current k, (token p current k).done = false)
    (hstep : ∀ current k, tokenStep m (token p current k) = (do
      return some (token q (← sdscatlen (m k) current [b] 1) (k + 1))))
    (h : Takes m token q v r) : Takes m token p (b :: v) r := by
  intro fuel current k
  rw [List.length_cons, ← Nat.add_assoc, tokenLoop, if_neg (by simp [hdone]), hstep, catBytes]
  cases sdscatlen (m k) current [b] 1 with
  | error e => rfl
  | ok current =>
    rw [ok_bind, ok_bind, show k + (v.length + 1) = k + 1 + v.length by omega]
    exact h fuel current (k + 1)

end Takes

theorem tokenStep_word {c : UInt8} (hc : endsWord c = false ∧ c ≠ chr '"' ∧ c ≠ chr '\'') (hz : c ≠ 0)
    (q : List UInt8) (current : Sdshdr) (k : Nat) :
    tokenStep m (Token.start (c :: q) current k) = (do
      return some (Token.start q (← sdscatlen (m k) current [c] 1) (k + 1))) := by
  obtain ⟨hends, hdouble, hsingle⟩ := hc
  have hnot : ¬ (c = chr ' ' ∨ c = chr '\n' ∨ c = chr '\r' ∨ c = chr '\t' ∨ c = 0) := by
    simp only [endsWord, Bool.or_eq_false_iff, beq_eq_false_iff_ne] at hends
    obtain ⟨⟨⟨hspace, hnl⟩, hcr⟩, htab⟩ := hends
    rintro (h | h | h | h | h) <;> contradiction
  refine tokenStep_of_cat (x := q) (c := c) ?_ hz
  simp only [branch, Token.start, Bool.false_eq_true, if_false, unquoted, readAt_cons_zero, ok_bind, hnot,
    hdouble, hsingle, Token.cat_bind]

theorem takes_word {w : List UInt8} (hw : Word w) (hz : 0 ∉ w) (q : List UInt8) :
    Takes m Token.start (w ++ q) w q := by
  induction w with
  | nil => exact .nil
  | cons c w ih =>
    have hc : c ≠ 0 := fun h => hz (h ▸ List.mem_cons_self)
    exact .cons (fun _ _ => rfl) (tokenStep_word (hw c List.mem_cons_self) hc (w ++ q))
      (ih (fun d hd => hw d (List.mem_cons_of_mem c hd)) (fun h => hz (List.mem_cons_of_mem c h)))

theorem tokenStep_open (k : Quote) (q : List UInt8) (current : Sdshdr) (allocs : Nat) :
    tokenStep m (Token.start (k.mark :: q) current allocs) = .ok (some (k.token q current allocs)) := by
  cases k <;> rfl

theorem hexEscape_of_ne {c : UInt8} (h : c ≠ chr '\\') (p : List UInt8) :
    hexEscape (c :: p) = .ok none := by
  simp only [hexEscape, readAt_cons_zero, ok_bind, ne_eq, h, not_false_eq_true, if_true]
  rfl

theorem hexEscape_of_not_x {c : UInt8} (h : c ≠ chr 'x') (p : List UInt8) :
    hexEscape (chr '\\' :: c :: p) = .ok none := by
  simp only [hexEscape, readAt_cons_zero, readAt_cons_succ, ok_bind, ne_eq, h, not_true_eq_false,
    not_false_eq_true, if_true, if_false]
  rfl

theorem hexEscape_digits {hi lo : UInt8} (hhi : is_hex_digit hi = true)
    (hlo : is_hex_digit lo = true) (p : List UInt8) :
    hexEscape (chr '\\' :: chr 'x' :: hi :: lo :: p) =
      .ok (some (UInt8.ofNat (hex_digit_to_int hi * 16 + hex_digit_to_int lo))) := by
  simp only [hexEscape, readAt_cons_zero, readAt_cons_succ, ok_bind, ne_eq, hhi, hlo,
    not_true_eq_false, Bool.not_true, Bool.false_eq_true, if_false]
  rfl

theorem startsEscape_cons {c d : UInt8} (p : List UInt8) :
    startsEscape (c :: d :: p) = .ok (decide (c = chr '\\' ∧ d ≠ 0)) := by
  by_cases h : c = chr '\\'
  · simp only [startsEscape, readAt_cons_zero, readAt_cons_succ, ok_bind, ne_eq, h,
      not_true_eq_false, if_false, true_and]
    rfl
  · simp only [startsEscape, readAt_cons_zero, ok_bind, ne_eq, h, not_false_eq_true, if_true,
      false_and, decide_false]
    rfl

theorem startsEscape_of_ne {c : UInt8} (h : c ≠ chr '\\') (p : List UInt8) :
    startsEscape (c :: p) = .ok false := by
  simp only [startsEscape, readAt_cons_zero, ok_bind, ne_eq, h, not_false_eq_true, if_true]
  rfl

theorem hexEscape_of_not_hi {hi : UInt8} (h : is_hex_digit hi = false) (p : List UInt8) :
    hexEscape (chr '\\' :: chr 'x' :: hi :: p) = .ok none := by
  simp only [hexEscape, readAt_cons_zero, readAt_cons_succ, ok_bind, ne_eq, not_true_eq_false, if_false, h,
    Bool.not_false, if_true]
  rfl

theorem hexEscape_of_not_lo {hi lo : UInt8} (h : is_hex_digit lo = false) (p : List UInt8) :
    hexEscape (chr '\\' :: chr 'x' :: hi :: lo :: p) = .ok none := by
  by_cases hhi : is_hex_digit hi = true
  · simp only [hexEscape, readAt_cons_zero, readAt_cons_succ, ok_bind, ne_eq, not_true_eq_false, if_false, hhi, h,
      Bool.not_true, Bool.not_false, Bool.false_eq_true, if_true]
    rfl
  · exact hexEscape_of_not_hi (by simpa using hhi) _

theorem hexEscape_of_not {c : UInt8} {u : List UInt8} (h : ¬ HexAhead c u) :
    hexEscape (chr '\\' :: c :: (u ++ [0])) = .ok none := by
  by_cases hc : c = chr 'x'
  · subst hc
    cases u with
    | nil => rfl
    | cons hi u =>
      cases u with
      | nil => exact hexEscape_of_not_lo (by decide) []
      | cons lo u =>
        by_cases hhi : is_hex_digit hi = true
        · by_cases hlo : is_hex_digit lo = true
          · exact absurd ⟨rfl, hi, lo, u, rfl, hhi, hlo⟩ h
          · exact hexEscape_of_not_lo (by simpa using hlo) _
        · exact hexEscape_of_not_hi (by simpa using hhi) _
  · exact hexEscape_of_not_x hc _

theorem tokenStep_hex {hi lo : UInt8} (hhi : is_hex_digit hi = true) (hlo : is_hex_digit lo = true) (hz : lo ≠ 0)
    (q : List UInt8) (current : Sdshdr) (k : Nat) :
    tokenStep m (Quote.double.token (chr '\\' :: chr 'x' :: hi :: lo :: q) current k) = (do
      return some (Quote.double.token q (← sdscatlen (m k) current [hexByte hi lo] 1) (k + 1))) := by
  refine tokenStep_of_cat (x := []) (c := lo) ?_ hz
  simp only [branch, Quote.token, decide_true, if_true, doubleQuoted, hexEscape_digits hhi hlo, ok_bind, Token.cat_bind]
  rfl

theorem tokenStep_escape {c : UInt8} {u : List UInt8} (h : ¬ HexAhead c u) (hz : c ≠ 0) (current : Sdshdr) (k : Nat) :
    tokenStep m (Quote.double.token (chr '\\' :: c :: (u ++ [0])) current k) = (do
      return some (Quote.double.token (u ++ [0]) (← sdscatlen (m k) current [unescape c] 1) (k + 1))) := by
  refine tokenStep_of_cat (x := []) (c := c) ?_ hz
  simp only [branch, Quote.token, decide_true, if_true, doubleQuoted, hexEscape_of_not h, startsEscape_cons,
    ok_bind, ne_eq, hz, not_false_eq_true, and_self, readAt_cons_succ, readAt_cons_zero, Token.cat_bind]
  rfl

theorem tokenStep_double_plain {c : UInt8} (hback : c ≠ chr '\\') (hquote : c ≠ chr '"') (hz : c ≠ 0)
    (q : List UInt8) (current : Sdshdr) (k : Nat) :
    tokenStep m (Quote.double.token (c :: q) current k) = (do
      return some (Quote.double.token q (← sdscatlen (m k) current [c] 1) (k + 1))) := by
  refine tokenStep_of_cat (x := q) (c := c) ?_ hz
  simp only [branch, Quote.token, decide_true, if_true, doubleQuoted, hexEscape_of_ne hback,
    startsEscape_of_ne hback, ok_bind, Bool.false_eq_true, if_false, readAt_cons_zero, hquote, hz, Token.cat_bind]

/-- The backslash in front of the terminator is appended as it is. -/
theorem tokenStep_backslash (current : Sdshdr) (k : Nat) :
    tokenStep m (Quote.double.token [chr '\\', 0] current k) = (do
      return some (Quote.double.token [0] (← sdscatlen (m k) current [chr '\\'] 1) (k + 1))) := by
  have hhex : hexEscape [chr '\\', 0] = .ok none := rfl
  have hescape : startsEscape [chr '\\', 0] = .ok false := rfl
  refine tokenStep_of_cat (x := [0]) (c := chr '\\') ?_ (by decide)
  simp only [branch, Quote.token, decide_true, if_true, doubleQuoted, hhex, hescape, ok_bind, Bool.false_eq_true,
    if_false, readAt_cons_zero, Token.cat_bind]
  rfl

theorem takes_double {t v rest : List UInt8} (h : DoubleBody t v rest) (hz : 0 ∉ t) :
    Takes m Quote.double.token (t ++ (rest ++ [0])) v (rest ++ [0]) := by
  induction h with
  | nil => exact .nil
  | @hex hi lo t v rest hhi hlo _ ih =>
    simp only [List.mem_cons, not_or] at hz
    exact .cons (fun _ _ => rfl) (tokenStep_hex hhi hlo (Ne.symm hz.2.2.2.1) _) (ih hz.2.2.2.2)
  | @escape c t v rest hnot _ ih =>
    simp only [List.mem_cons, not_or] at hz
    refine .cons (fun _ _ => rfl) ?_ (ih hz.2.2)
    have hstep := tokenStep_escape (m := m) hnot (Ne.symm hz.2.1)
    rwa [List.append_assoc] at hstep
  | backslash => exact .cons (fun _ _ => rfl) tokenStep_backslash .nil
  | @plain c t v rest hback hquote _ ih =>
    simp only [List.mem_cons, not_or] at hz
    exact .cons (fun _ _ => rfl) (tokenStep_double_plain hback hquote (Ne.symm hz.1) _) (ih hz.2)

theorem startsQuoteEscape_of_ne {c : UInt8} (h : c ≠ chr '\\') (p : List UInt8) :
    startsQuoteEscape (c :: p) = .ok false := by
  simp only [startsQuoteEscape, readAt_cons_zero, ok_bind, ne_eq, h, not_false_eq_true, if_true]
  rfl

theorem startsQuoteEscape_of_not {c d : UInt8} (h : d ≠ chr '\'') (p : List UInt8) :
    startsQuoteEscape (c :: d :: p) = .ok false := by
  by_cases hc : c = chr '\\'
  · simp only [startsQuoteEscape, readAt_cons_zero, readAt_cons_succ, ok_bind, ne_eq, hc, not_true_eq_false, if_false,
      h, decide_false]
    rfl
  · exact startsQuoteEscape_of_ne hc _

theorem tokenStep_quoteEscape (q : List UInt8) (current : Sdshdr) (k : Nat) :
    tokenStep m (Quote.single.token (chr '\\' :: chr '\'' :: q) current k) = (do
      return some (Quote.single.token q (← sdscatlen (m k) current [chr '\''] 1) (k + 1))) := by
  have hescape : startsQuoteEscape (chr '\\' :: chr '\'' :: q) = .ok true := rfl
  refine tokenStep_of_cat (x := [0]) (c := chr '\'') ?_ (by decide)
  simp only [branch, Quote.token, reduceCtorEq, decide_false, decide_true, Bool.false_eq_true, if_false, if_true,
    singleQuoted, hescape, ok_bind, Token.cat_bind]
  rfl

theorem tokenStep_single_plain {c : UInt8} {q : List UInt8} (hquote : c ≠ chr '\'') (hz : c ≠ 0)
    (hnot : startsQuoteEscape (c :: q) = .ok false) (current : Sdshdr) (k : Nat) :
    tokenStep m (Quote.single.token (c :: q) current k) = (do
      return some (Quote.single.token q (← sdscatlen (m k) current [c] 1) (k + 1))) := by
  refine tokenStep_of_cat (x := q) (c := c) ?_ hz
  simp only [branch, Quote.token, reduceCtorEq, decide_false, decide_true, Bool.false_eq_true, if_false, if_true,
    singleQuoted, hnot, ok_bind, readAt_cons_zero, hquote, hz, Token.cat_bind]

theorem startsQuoteEscape_of_head {c : UInt8} {u : List UInt8} (h : c = chr '\\' → u.head? ≠ some (chr '\'')) :
    startsQuoteEscape (c :: (u ++ [0])) = .ok false := by
  by_cases hc : c = chr '\\'
  · cases u with
    | nil => exact startsQuoteEscape_of_not (by decide) []
    | cons d u => exact startsQuoteEscape_of_not (by simpa using h hc) _
  · exact startsQuoteEscape_of_ne hc _

theorem takes_single {t v rest : List UInt8} (h : SingleBody t v rest) (hz : 0 ∉ t) :
    Takes m Quote.single.token (t ++ (rest ++ [0])) v (rest ++ [0]) := by
  induction h with
  | nil => exact .nil
  | @escape t v rest _ ih =>
    simp only [List.mem_cons, not_or] at hz
    exact .cons (fun _ _ => rfl) (tokenStep_quoteEscape _) (ih hz.2.2)
  | @plain c t v rest hquote hhead _ ih =>
    simp only [List.mem_cons, not_or] at hz
    have hnot := startsQuoteEscape_of_head hhead
    rw [List.append_assoc] at hnot
    exact .cons (fun _ _ => rfl) (tokenStep_single_plain hquote (Ne.symm hz.1) hnot) (ih hz.2)

section Quote

variable (k : Quote) {t v rest : List UInt8} (current : Sdshdr) (allocs : Nat)

theorem takes_body (h : k.Body t v rest) (hz : 0 ∉ t) : Takes m k.token (t ++ (rest ++ [0])) v (rest ++ [0]) := by
  cases k with
  | double => exact takes_double h hz
  | single => exact takes_single h hz

theorem branch_mark (c : UInt8) (q : List UInt8) :
    branch m (k.token (k.mark :: c :: q) current allocs) =
      .ok (if (decide (c = 0) || isspace c) = true then
        some { k.token (k.mark :: c :: q) current allocs with done := true } else none) := by
  cases k with
  | double =>
    show doubleQuoted m _ = _
    simp only [doubleQuoted, Quote.token, Quote.mark, hexEscape_of_ne (c := chr '"') (by decide),
      startsEscape_of_ne (c := chr '"') (by decide), ok_bind, Bool.false_eq_true, if_false, readAt_cons_zero,
      if_true, closesArgument, readAt_cons_succ]
    cases decide (c = 0) || isspace c <;> rfl
  | single =>
    show singleQuoted m _ = _
    simp only [singleQuoted, Quote.token, Quote.mark, startsQuoteEscape_of_ne (c := chr '\'') (by decide), ok_bind,
      Bool.false_eq_true, if_false, readAt_cons_zero, if_true, closesArgument, readAt_cons_succ]
    cases decide (c = 0) || isspace c <;> rfl

theorem tokenStep_closes {q : List UInt8} (h : EndsArgument q) :
    tokenStep m (k.token (k.mark :: q) current allocs) = .ok (some { k.token q current allocs with done := true }) := by
  obtain ⟨c, q, rfl, hc⟩ := h
  have hbranch := branch_mark (m := m) k current allocs c q
  rw [if_pos (by simpa using hc)] at hbranch
  exact tokenStep_of_branch hbranch rfl (by cases k <;> decide)

theorem tokenStep_followed {c : UInt8} (q : List UInt8) (hz : c ≠ 0) (hc : isspace c = false) :
    tokenStep m (k.token (k.mark :: c :: q) current allocs) = .ok none := by
  have hbranch := branch_mark (m := m) k current allocs c q
  rw [if_neg (by simp [hz, hc])] at hbranch
  exact tokenStep_fails hbranch

theorem tokenStep_unterminated : tokenStep m (k.token [0] current allocs) = .ok none := by
  cases k <;> rfl

theorem body_length (h : k.Body t v rest) : v.length ≤ t.length := by
  cases k with
  | double =>
    replace h : DoubleBody t v rest := h
    induction h with
    | nil => simp
    | hex _ _ _ ih => simp only [List.length_cons]; omega
    | escape _ _ ih => simp only [List.length_cons]; omega
    | backslash => simp
    | plain _ _ _ ih => simp only [List.length_cons]; omega
  | single =>
    replace h : SingleBody t v rest := h
    induction h with
    | nil => simp
    | escape _ ih => simp only [List.length_cons]; omega
    | plain _ _ _ ih => simp only [List.length_cons]; omega

end Quote

theorem isspace_ne_zero {c : UInt8} (h : isspace c = true) : c ≠ 0 := by
  rintro rfl
  exact absurd h (by decide)

theorem skipBlanks_blank {b : List UInt8} (hb : Blank b) (m : List UInt8) : skipBlanks (b ++ m) = skipBlanks m := by
  induction b with
  | nil => rfl
  | cons c b ih =>
    have hc := hb c List.mem_cons_self
    rw [List.cons_append, skipBlanks, if_pos ⟨isspace_ne_zero hc, hc⟩]
    exact ih fun d hd => hb d (List.mem_cons_of_mem c hd)

theorem skipBlanks_text {c : UInt8} (hc : isspace c = false) (m : List UInt8) :
    skipBlanks (c :: m) = .ok (c :: m) := by
  rw [skipBlanks, if_neg (by simp [hc])]

theorem tokenStep_endsWord {rest : List UInt8} (h : ∀ c ∈ rest.head?, endsWord c = true) :
    ∃ p, (∀ current k, tokenStep m (Token.start (rest ++ [0]) current k) =
        .ok (some { Token.start p current k with done := true })) ∧ skipBlanks p = skipBlanks (rest ++ [0]) := by
  cases rest with
  | nil => exact ⟨[0], fun _ _ => rfl, rfl⟩
  | cons c rest =>
    have hends := h c rfl
    have hspace := isspace_of_endsWord hends
    have hstop : c = chr ' ' ∨ c = chr '\n' ∨ c = chr '\r' ∨ c = chr '\t' ∨ c = 0 := by
      simp only [endsWord, Bool.or_eq_true, beq_iff_eq] at hends
      rcases hends with ((hc | hc) | hc) | hc <;> simp only [hc, true_or, or_true]
    have hbranch : ∀ current k, branch m (Token.start (c :: (rest ++ [0])) current k) =
        .ok (some { Token.start (c :: (rest ++ [0])) current k with done := true }) := by
      intro current k
      simp only [branch, Token.start, Bool.false_eq_true, if_false, unquoted, readAt_cons_zero, ok_bind, hstop, if_true]
      rfl
    have hblank : Blank [c] := by simpa [Blank] using hspace
    exact ⟨rest ++ [0], fun current k => tokenStep_of_branch (hbranch current k) rfl (isspace_ne_zero hspace),
      (skipBlanks_blank hblank (rest ++ [0])).symm⟩

/-- The word in front of a quote and the section after it. -/
theorem tokenLoop_section {w t v rest : List UInt8} (hw : Word w) (q : Quote) (hbody : q.Body t v rest)
    (hzw : 0 ∉ w) (hzt : 0 ∉ t) (fuel : Nat) (current : Sdshdr) (k : Nat) :
    tokenLoop m (fuel + v.length + 1 + w.length) (Token.start (w ++ (q.mark :: (t ++ (rest ++ [0])))) current k) = (do
      tokenLoop m fuel (q.token (rest ++ [0]) (← catBytes m k current (w ++ v)) (k + (w ++ v).length))) := by
  rw [takes_word hw hzw, catBytes_append]
  cases catBytes m k current w with
  | error e => rfl
  | ok current =>
    rw [ok_bind, ok_bind, tokenLoop_step rfl (tokenStep_open q _ current _), takes_body q hbody hzt,
      List.length_append, Nat.add_assoc]

theorem tokenLoop_argument {text v rest : List UInt8} (h : Argument text v rest) (hz : 0 ∉ text) {fuel : Nat}
    (hfuel : text.length + 2 ≤ fuel) :
    ∃ p inq insq, skipBlanks p = skipBlanks (rest ++ [0]) ∧
      ∀ current k, tokenLoop m fuel (Token.start (text ++ (rest ++ [0])) current k) = (do
        return some { p, current := ← catBytes m k current v, allocs := k + v.length, inq, insq, done := true }) := by
  cases h with
  | word _ hw hrest =>
    obtain ⟨p, hstep, hskip⟩ := tokenStep_endsWord (m := m) hrest
    obtain ⟨n, rfl⟩ : ∃ n, fuel = n + 1 + 1 + text.length := ⟨fuel - (text.length + 2), by omega⟩
    refine ⟨p, false, false, hskip, fun current k => ?_⟩
    rw [takes_word hw hz]
    cases catBytes m k current text with
    | error e => rfl
    | ok current =>
      rw [ok_bind, tokenLoop_step rfl (hstep current _), tokenLoop_done rfl]
      rfl
  | @quoted w t v rest q hw hbody hrest =>
    have hlen := body_length q hbody
    simp only [List.mem_append, List.mem_cons, not_or] at hz
    simp only [List.length_append, List.length_cons, List.length_nil] at hfuel
    obtain ⟨n, rfl⟩ : ∃ n, fuel = n + 1 + 1 + v.length + 1 + w.length :=
      ⟨fuel - (v.length + w.length + 3), by omega⟩
    have hclose : EndsArgument (rest ++ [0]) := by
      cases rest with
      | nil => exact ⟨0, [], rfl, .inl rfl⟩
      | cons c q => exact ⟨c, q ++ [0], rfl, .inr (hrest c rfl)⟩
    refine ⟨rest ++ [0], decide (q = .double), decide (q = .single), rfl, fun current k => ?_⟩
    have hsection := tokenLoop_section (m := m) hw q hbody hz.1 hz.2.2.1 (n + 1 + 1) current k
    simp only [List.append_assoc, List.cons_append, List.nil_append] at hsection ⊢
    rw [hsection]
    cases catBytes m k current (w ++ v) with
    | error e => rfl
    | ok current =>
      rw [ok_bind, tokenLoop_step rfl (tokenStep_closes q current _ hclose), tokenLoop_done rfl]
      rfl

theorem tokenLoop_bad {w rest v : List UInt8} (hw : Word w) (h : BadSection rest v) (hz : 0 ∉ w ++ rest) {fuel : Nat}
    (hfuel : (w ++ rest).length + 1 ≤ fuel) (current : Sdshdr) (k : Nat) :
    tokenLoop m fuel (Token.start (w ++ (rest ++ [0])) current k) = (do
      let _ ← catBytes m k current (w ++ v)
      return none) := by
  cases h with
  | @unterminated t v q hbody =>
    have hlen := body_length q hbody
    simp only [List.mem_append, List.mem_cons, not_or] at hz
    simp only [List.length_append, List.length_cons] at hfuel
    obtain ⟨n, rfl⟩ : ∃ n, fuel = n + 1 + v.length + 1 + w.length := ⟨fuel - (v.length + w.length + 2), by omega⟩
    have hsection := tokenLoop_section (m := m) hw q hbody hz.1 hz.2.2 (n + 1) current k
    simp only [List.cons_append, List.nil_append] at hsection ⊢
    rw [hsection]
    cases catBytes m k current (w ++ v) with
    | error e => rfl
    | ok current => exact tokenLoop_fails rfl (tokenStep_unterminated q current _) n
  | @followed t v c rest q hbody hc =>
    have hlen := body_length q hbody
    simp only [List.mem_append, List.mem_cons, not_or] at hz
    simp only [List.length_append, List.length_cons] at hfuel
    obtain ⟨n, rfl⟩ : ∃ n, fuel = n + 1 + v.length + 1 + w.length := ⟨fuel - (v.length + w.length + 2), by omega⟩
    have hsection := tokenLoop_section (m := m) hw q hbody hz.1 hz.2.2.1 (n + 1) current k
    simp only [List.append_assoc, List.cons_append] at hsection ⊢
    rw [hsection]
    cases catBytes m k current (w ++ v) with
    | error e => rfl
    | ok current =>
      exact tokenLoop_fails rfl (tokenStep_followed q current _ _ (Ne.symm hz.2.2.2.2.1) hc) n

theorem Argument.text_ne_nil {text v rest : List UInt8} (h : Argument text v rest) : text ≠ [] := by
  cases h with
  | word hw _ _ => exact hw
  | quoted k _ _ _ => simp

theorem BadSection.ne_nil {rest v : List UInt8} (h : BadSection rest v) : rest ≠ [] := by
  cases h <;> simp

/-- One argument that is read and stored. -/
def storeArg (m : Nat → Malloc) (a : ArgVector) (v : List UInt8) : Except Fault ArgVector := do
  let current ← sdsempty (m a.allocs)
  let current ← catBytes m (a.allocs + 1) current v
  a.add m current (a.allocs + 1 + v.length)

section Line

variable {p q text : List UInt8} {a : ArgVector} {fuel : Nat}

theorem splitLoop_skip (h : skipBlanks p = skipBlanks q) (fuel : Nat) (a : ArgVector) :
    splitLoop m fuel p a = splitLoop m fuel q a := by
  cases fuel with
  | zero => rfl
  | succ fuel => rw [splitLoop, splitLoop, h]

theorem splitLoop_text (htext : text ≠ []) (hz : 0 ∉ text) (hhead : ∀ c ∈ text.head?, isspace c = false) :
    splitLoop m (fuel + 1) (text ++ q) a = (do
      let current ← sdsempty (m a.allocs)
      match ← tokenLoop m ((text ++ q).length + 1) (Token.start (text ++ q) current (a.allocs + 1)) with
      | none => return (none, 0)
      | some t => splitLoop m fuel t.p (← a.add m t.current t.allocs)) := by
  cases text with
  | nil => exact absurd rfl htext
  | cons c text =>
    have hc : c ≠ 0 := fun hc => hz (hc ▸ List.mem_cons_self)
    rw [List.cons_append, splitLoop, skipBlanks_text (hhead c rfl), ok_bind, readAt_cons_zero, ok_bind]
    exact if_neg hc

theorem splitLoop_argument {b text v rest : List UInt8} (hb : Blank b) (hhead : ∀ c ∈ text.head?, isspace c = false)
    (harg : Argument text v rest) (hz : 0 ∉ text) :
    splitLoop m (fuel + 1) (b ++ (text ++ rest) ++ [0]) a = (do
      splitLoop m fuel (rest ++ [0]) (← storeArg m a v)) := by
  obtain ⟨p, inq, insq, hskip, hloop⟩ := tokenLoop_argument (m := m) harg hz
    (show text.length + 2 ≤ (text ++ (rest ++ [0])).length + 1 by simp)
  rw [List.append_assoc, splitLoop_skip (skipBlanks_blank hb _), List.append_assoc,
    splitLoop_text harg.text_ne_nil hz hhead, storeArg]
  cases sdsempty (m a.allocs) with
  | error e => rfl
  | ok current =>
    rw [ok_bind, ok_bind, hloop]
    cases catBytes m (a.allocs + 1) current v with
    | error e => rfl
    | ok current =>
      simp only [ok_bind, pure, Except.pure]
      congr 1
      funext a
      exact splitLoop_skip hskip fuel a

theorem Denotes.splitLoop {s : List UInt8} {args : List (List UInt8)} (h : Denotes s args) (hz : 0 ∉ s)
    (hfuel : s.length < fuel) :
    splitLoop m fuel (s ++ [0]) a = (do (← args.foldlM (storeArg m) a).result m) := by
  induction h generalizing fuel a with
  | @done b hb =>
    obtain ⟨n, rfl⟩ : ∃ n, fuel = n + 1 := ⟨fuel - 1, by omega⟩
    rw [splitLoop_skip (skipBlanks_blank hb [0])]
    rfl
  | @argument b text v rest args hb hhead harg _ ih =>
    have hpos := List.length_pos_iff.mpr harg.text_ne_nil
    simp only [List.mem_append, not_or] at hz
    simp only [List.length_append] at hfuel
    obtain ⟨n, rfl⟩ : ∃ n, fuel = n + 1 := ⟨fuel - 1, by omega⟩
    rw [splitLoop_argument hb hhead harg hz.2.1, List.foldlM_cons, bind_assoc]
    congr 1
    funext a
    exact ih hz.2.2 (by omega)

theorem BadQuote.splitLoop {s : List UInt8} {args : List (List UInt8)} {last : List UInt8} (h : BadQuote s args last)
    (hz : 0 ∉ s) (hfuel : s.length < fuel) :
    splitLoop m fuel (s ++ [0]) a = (do
      let a ← args.foldlM (storeArg m) a
      let _ ← catBytes m (a.allocs + 1) (← sdsempty (m a.allocs)) last
      return (none, 0)) := by
  induction h generalizing fuel a with
  | @here b w rest v hb hhead hw hbad =>
    obtain ⟨n, rfl⟩ : ∃ n, fuel = n + 1 := ⟨fuel - 1, by omega⟩
    have hne : w ++ rest ≠ [] := fun h => hbad.ne_nil (List.append_eq_nil_iff.mp h).2
    have hz' : 0 ∉ w ++ rest := fun h => hz (List.mem_append_right b h)
    have hloop := tokenLoop_bad (m := m) hw hbad hz' (show (w ++ rest).length + 1 ≤ (w ++ rest ++ [0]).length + 1 by simp)
    simp only [← List.append_assoc] at hloop
    rw [List.append_assoc, splitLoop_skip (skipBlanks_blank hb _), splitLoop_text hne hz' hhead]
    simp only [hloop, List.foldlM_nil, pure_bind]
    cases sdsempty (m a.allocs) with
    | error e => rfl
    | ok current =>
      rw [ok_bind, ok_bind]
      cases catBytes m (a.allocs + 1) current (w ++ v) <;> rfl
  | @later b text v rest args last hb hhead harg _ ih =>
    have hpos := List.length_pos_iff.mpr harg.text_ne_nil
    simp only [List.mem_append, not_or] at hz
    simp only [List.length_append] at hfuel
    obtain ⟨n, rfl⟩ : ∃ n, fuel = n + 1 := ⟨fuel - 1, by omega⟩
    rw [splitLoop_argument hb hhead harg hz.2.1, List.foldlM_cons, bind_assoc]
    congr 1
    funext a
    exact ih hz.2.2 (by omega)

theorem line_fuel (s : List UInt8) : s.length < (s ++ [0]).length + 1 := by
  rw [List.length_append, List.length_singleton]
  omega

end Line

end CPractice
