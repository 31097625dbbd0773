import CPractice.Sds.SplitArgs

/-! The grammar of a line of arguments, apart from the loops that read it. -/

namespace CPractice

inductive Quote where
  | double
  | single
  deriving DecidableEq, Repr

def Quote.mark : Quote → UInt8
  | .double => chr '"'
  | .single => chr '\''

def hexByte (hi lo : UInt8) : UInt8 :=
  UInt8.ofNat (hex_digit_to_int hi * 16 + hex_digit_to_int lo)

def HexAhead (c : UInt8) (u : List UInt8) : Prop :=
  c = chr 'x' ∧ ∃ hi lo u', u = hi :: lo :: u' ∧ is_hex_digit hi = true ∧ is_hex_digit lo = true

/-- The text between double quotes, the bytes it denotes and what comes after it. The
backslash that ends the line stands for itself: its section is not closed. -/
inductive DoubleBody : List UInt8 → List UInt8 → List UInt8 → Prop where
  | nil {rest} : DoubleBody [] [] rest
  | hex {hi lo t v rest} : is_hex_digit hi = true → is_hex_digit lo = true → DoubleBody t v rest →
      DoubleBody (chr '\\' :: chr 'x' :: hi :: lo :: t) (hexByte hi lo :: v) rest
  | escape {c t v rest} : ¬ HexAhead c (t ++ rest) → DoubleBody t v rest →
      DoubleBody (chr '\\' :: c :: t) (unescape c :: v) rest
  | backslash : DoubleBody [chr '\\'] [chr '\\'] []
  | plain {c t v rest} : c ≠ chr '\\' → c ≠ chr '"' → DoubleBody t v rest → DoubleBody (c :: t) (c :: v) rest

/-- Between single quotes a backslash is an escape before a single quote only. -/
inductive SingleBody : List UInt8 → List UInt8 → List UInt8 → Prop where
  | nil {rest} : SingleBody [] [] rest
  | escape {t v rest} : SingleBody t v rest → SingleBody (chr '\\' :: chr '\'' :: t) (chr '\'' :: v) rest
  | plain {c t v rest} : c ≠ chr '\'' → (c = chr '\\' → (t ++ rest).head? ≠ some (chr '\'')) →
      SingleBody t v rest → SingleBody (c :: t) (c :: v) rest

def Quote.Body : Quote → List UInt8 → List UInt8 → List UInt8 → Prop
  | .double => DoubleBody
  | .single => SingleBody

def Blank (b : List UInt8) : Prop := ∀ c ∈ b, isspace c = true

def endsWord (c : UInt8) : Bool :=
  c == chr ' ' || c == chr '\n' || c == chr '\r' || c == chr '\t'

def Word (w : List UInt8) : Prop := ∀ c ∈ w, endsWord c = false ∧ c ≠ chr '"' ∧ c ≠ chr '\''

/-- The text of an argument, its value and what comes after it. -/
inductive Argument : List UInt8 → List UInt8 → List UInt8 → Prop where
  | word {w rest} : w ≠ [] → Word w → (∀ c ∈ rest.head?, endsWord c = true) → Argument w w rest
  | quoted {w t v rest} (k : Quote) : Word w → k.Body t v (k.mark :: rest) →
      (∀ c ∈ rest.head?, isspace c = true) → Argument (w ++ k.mark :: (t ++ [k.mark])) (w ++ v) rest

/-- The line denotes the arguments. Blanks are skipped as far as they go. -/
inductive Denotes : List UInt8 → List (List UInt8) → Prop where
  | done {b} : Blank b → Denotes b []
  | argument {b text v rest args} : Blank b → (∀ c ∈ text.head?, isspace c = false) → Argument text v rest →
      Denotes rest args → Denotes (b ++ (text ++ rest)) (v :: args)

/-- From a quote that opens a section on, with the bytes of the section: the line ends before
the section does, or the quote that closes it is followed by something else than a blank. -/
inductive BadSection : List UInt8 → List UInt8 → Prop where
  | unterminated {t v} (k : Quote) : k.Body t v [] → BadSection (k.mark :: t) v
  | followed {t v c rest} (k : Quote) : k.Body t v (k.mark :: c :: rest) → isspace c = false →
      BadSection (k.mark :: (t ++ k.mark :: c :: rest)) v

/-- A quote of the line is bad: the arguments in front of the one it is in, and the bytes that
one has so far. -/
inductive BadQuote : List UInt8 → List (List UInt8) → List UInt8 → Prop where
  | here {b w rest v} : Blank b → (∀ c ∈ (w ++ rest).head?, isspace c = false) → Word w → BadSection rest v →
      BadQuote (b ++ (w ++ rest)) [] (w ++ v)
  | later {b text v rest args last} : Blank b → (∀ c ∈ text.head?, isspace c = false) → Argument text v rest →
      BadQuote rest args last → BadQuote (b ++ (text ++ rest)) (v :: args) last

theorem DoubleBody.exists (t : List UInt8) :
    (∃ body v rest, t = body ++ chr '"' :: rest ∧ DoubleBody body v (chr '"' :: rest)) ∨
      ∃ v, DoubleBody t v [] := by
  induction hn : t.length using Nat.strongRecOn generalizing t with
  | _ n ih =>
    cases t with
    | nil => exact .inr ⟨[], .nil⟩
    | cons c t =>
      by_cases hquote : c = chr '"'
      · exact .inl ⟨[], [], t, by rw [hquote]; rfl, .nil⟩
      by_cases hback : c = chr '\\'
      · subst hback
        cases t with
        | nil => exact .inr ⟨_, .backslash⟩
        | cons d t =>
          by_cases hhex : HexAhead d t
          · obtain ⟨rfl, hi, lo, u, rfl, hhi, hlo⟩ := hhex
            rcases ih u.length (by simp at hn; omega) u rfl with ⟨body, v, rest, rfl, hbody⟩ | ⟨v, hbody⟩
            · exact .inl ⟨_, _, rest, rfl, .hex hhi hlo hbody⟩
            · exact .inr ⟨_, .hex hhi hlo hbody⟩
          · rcases ih t.length (by simp at hn; omega) t rfl with ⟨body, v, rest, rfl, hbody⟩ | ⟨v, hbody⟩
            · exact .inl ⟨_, _, rest, rfl, .escape hhex hbody⟩
            · exact .inr ⟨_, .escape (by rwa [List.append_nil]) hbody⟩
      · rcases ih t.length (by simp at hn; omega) t rfl with ⟨body, v, rest, rfl, hbody⟩ | ⟨v, hbody⟩
        · exact .inl ⟨_, _, rest, rfl, .plain hback hquote hbody⟩
        · exact .inr ⟨_, .plain hback hquote hbody⟩

theorem SingleBody.exists (t : List UInt8) :
    (∃ body v rest, t = body ++ chr '\'' :: rest ∧ SingleBody body v (chr '\'' :: rest)) ∨
      ∃ v, SingleBody t v [] := by
  induction hn : t.length using Nat.strongRecOn generalizing t with
  | _ n ih =>
    cases t with
    | nil => exact .inr ⟨[], .nil⟩
    | cons c t =>
      by_cases hquote : c = chr '\''
      · exact .inl ⟨[], [], t, by rw [hquote]; rfl, .nil⟩
      by_cases hesc : c = chr '\\' ∧ t.head? = some (chr '\'')
      · obtain ⟨rfl, hhead⟩ := hesc
        obtain ⟨u, rfl⟩ := List.head?_eq_some_iff.mp hhead
        rcases ih u.length (by simp at hn; omega) u rfl with ⟨body, v, rest, rfl, hbody⟩ | ⟨v, hbody⟩
        · exact .inl ⟨_, _, rest, rfl, .escape hbody⟩
        · exact .inr ⟨_, .escape hbody⟩
      · have hplain : c = chr '\\' → t.head? ≠ some (chr '\'') := fun hc hhead => hesc ⟨hc, hhead⟩
        rcases ih t.length (by simp at hn; omega) t rfl with ⟨body, v, rest, rfl, hbody⟩ | ⟨v, hbody⟩
        · exact .inl ⟨_, _, rest, rfl, .plain hquote hplain hbody⟩
        · exact .inr ⟨_, .plain hquote (by rwa [List.append_nil]) hbody⟩

theorem Quote.body_exists (k : Quote) (t : List UInt8) :
    (∃ body v rest, t = body ++ k.mark :: rest ∧ k.Body body v (k.mark :: rest)) ∨ ∃ v, k.Body t v [] := by
  cases k with
  | double => exact DoubleBody.exists t
  | single => exact SingleBody.exists t

theorem isspace_of_endsWord {c : UInt8} (h : endsWord c = true) : isspace c = true := by
  simp only [endsWord, Bool.or_eq_true, beq_iff_eq] at h
  rcases h with ((rfl | rfl) | rfl) | rfl <;> decide

theorem argument_exists {u : List UInt8} (hu : u ≠ []) (hhead : ∀ c ∈ u.head?, isspace c = false) :
    (∃ text v rest, u = text ++ rest ∧ text ≠ [] ∧ Argument text v rest) ∨
      ∃ w rest v, u = w ++ rest ∧ Word w ∧ BadSection rest v := by
  let isWord : UInt8 → Bool := fun c => !endsWord c && c != chr '"' && c != chr '\''
  have hsplit : u = u.takeWhile isWord ++ u.dropWhile isWord := List.takeWhile_append_dropWhile.symm
  have hword : Word (u.takeWhile isWord) := by
    intro c hc
    have hc' := List.all_eq_true.mp List.all_takeWhile c hc
    simpa [isWord, and_assoc] using hc'
  generalize u.takeWhile isWord = w at hsplit hword
  cases hr : u.dropWhile isWord with
  | nil =>
    rw [hr, List.append_nil] at hsplit
    subst hsplit
    exact .inl ⟨u, u, [], by simp, hu, .word hu hword (by simp)⟩
  | cons c r =>
    have hc : isWord c = false := by
      have hnot := List.head?_dropWhile_not isWord u
      simpa [hr] using hnot
    rw [hr] at hsplit
    subst hsplit
    by_cases hends : endsWord c = true
    · have hne : w ≠ [] := by
        rintro rfl
        have hfirst := hhead c (by simp)
        rw [isspace_of_endsWord hends] at hfirst
        cases hfirst
      exact .inl ⟨w, w, c :: r, rfl, hne, .word hne hword (by simpa using hends)⟩
    · have hquote : ∃ k : Quote, c = k.mark := by
        simp only [isWord, Bool.and_eq_false_iff, Bool.not_eq_false', bne_eq_false_iff_eq] at hc
        rcases hc with (hc | hc) | hc
        · exact absurd hc hends
        · exact ⟨.double, hc⟩
        · exact ⟨.single, hc⟩
      obtain ⟨k, rfl⟩ := hquote
      rcases k.body_exists r with ⟨body, v, rest, rfl, hbody⟩ | ⟨v, hbody⟩
      · by_cases hnext : ∀ d ∈ rest.head?, isspace d = true
        · exact .inl ⟨w ++ k.mark :: (body ++ [k.mark]), w ++ v, rest, by simp, by simp, .quoted k hword hbody hnext⟩
        · obtain ⟨d, rest, rfl⟩ : ∃ d r, rest = d :: r := by
            cases rest with
            | nil => simp at hnext
            | cons d r => exact ⟨d, r, rfl⟩
          have hd : isspace d = false := by simpa using hnext
          exact .inr ⟨w, _, v, rfl, hword, .followed k hbody hd⟩
      · exact .inr ⟨w, _, v, rfl, hword, .unterminated k hbody⟩

theorem denotes_or_badQuote (s : List UInt8) : (∃ args, Denotes s args) ∨ ∃ args last, BadQuote s args last := by
  induction hn : s.length using Nat.strongRecOn generalizing s with
  | _ n ih =>
    have hsplit : s = s.takeWhile isspace ++ s.dropWhile isspace := List.takeWhile_append_dropWhile.symm
    have hblank : Blank (s.takeWhile isspace) := List.all_eq_true.mp List.all_takeWhile
    have hhead : ∀ c ∈ (s.dropWhile isspace).head?, isspace c = false := by
      intro c hc
      have hnot := List.head?_dropWhile_not isspace s
      rw [Option.mem_def.mp hc] at hnot
      simpa using hnot
    generalize s.takeWhile isspace = b at hsplit hblank
    generalize s.dropWhile isspace = u at hsplit hhead
    subst hsplit
    by_cases hu : u = []
    · subst hu
      rw [List.append_nil]
      exact .inl ⟨[], .done hblank⟩
    rcases argument_exists hu hhead with ⟨text, v, rest, rfl, htext, harg⟩ | ⟨w, rest, v, rfl, hword, hbad⟩
    · have hstart : ∀ c ∈ text.head?, isspace c = false := by
        intro c hc
        apply hhead
        rw [List.head?_append_of_ne_nil _ htext]
        exact hc
      have hlt : rest.length < n := by
        have hpos := List.length_pos_iff.mpr htext
        simp only [List.length_append] at hn
        omega
      rcases ih rest.length hlt rest rfl with ⟨args, hargs⟩ | ⟨args, last, hbad⟩
      · exact .inl ⟨v :: args, .argument hblank hstart harg hargs⟩
      · exact .inr ⟨v :: args, last, .later hblank hstart harg hbad⟩
    · exact .inr ⟨[], w ++ v, .here hblank hhead hword hbad⟩

end CPractice
