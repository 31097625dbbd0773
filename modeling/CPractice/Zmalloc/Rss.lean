import CPractice.Lib.CInt
import CPractice.Lib.Words
import CPractice.Sds.Numeral
import Mathlib.Data.List.GetD

/-! `zmalloc_get_rss`: the resident set size from the text of `/proc/<pid>/stat`. -/

namespace CPractice

open CMem CInt Words

inductive StatFile where
  | missing
  | unreadable
  | text (file : List UInt8)

/-- The text stops at the first byte that is no digit, and the value at the ends of its type. -/
def strtoll (text : List UInt8) : Int :=
  let value : List UInt8 → Int := fun digits => numeral (digits.takeWhile isdigit)
  let x := match text.dropWhile isspace with
    | [] => 0
    | c :: digits =>
      if c = chr '-' then -value digits else if c = chr '+' then value digits else value (c :: digits)
  max (-2 ^ 63) (min (2 ^ 63 - 1) x)

/-- `while(p && count--)`; `none` is the null pointer. -/
def skipFields : Nat → List UInt8 → Nat → Except Fault (Option Nat)
  | 0, _, p => .ok (some p)
  | count + 1, buf, p => do
    match ← strchr (buf.drop p) (chr ' ') with
    | some i => skipFields count buf (p + i + 1)
    | none => return none

/-- `buf` is the buffer on the stack, with arbitrary bytes behind those that are read. -/
def zmalloc_get_rss (page : Int) (stat : StatFile) (buf : List UInt8) : Except Fault Nat := do
  match stat with
  | .missing => return 0
  | .unreadable => return 0
  | .text file =>
    if file.isEmpty then return 0
    let buf := file.take buf.length ++ buf.drop file.length
    match ← skipFields 23 buf 0 with
    | none => return 0
    | some p =>
      match ← strchr (buf.drop p) (chr ' ') with
      | none => return 0
      | some x =>
        let buf ← writeAt buf (p + x) 0
        let rss := toSize (strtoll (cString (buf.drop p)))
        return toSize (rss * toSize page)

/-- A line of `/proc/<pid>/stat`: the fields up to the 24th, of which `between` are the 3rd to the 23rd, and the text
behind it. -/
structure ProcStat where
  pid : Nat
  name : List UInt8
  between : List (List UInt8)
  rss : Int
  tail : List UInt8
  name_ok : 0 ∉ name
  between_length : between.length = 21
  between_ok : ∀ field ∈ between, chr ' ' ∉ field ∧ 0 ∉ field
  rss_range : -2 ^ 63 ≤ rss ∧ rss < 2 ^ 63

namespace ProcStat

variable (s : ProcStat)

def comm : List UInt8 := chr '(' :: s.name ++ [chr ')']

def line : List UInt8 := ended (chr ' ') (decimal s.pid :: s.comm :: (s.between ++ [decimalInt s.rss])) ++ s.tail

/-- What the separators cut the line into: each space in the name begins another word. -/
def words : List (List UInt8) :=
  decimal s.pid :: (s.comm.splitOn (chr ' ') ++ (s.between ++ [decimalInt s.rss]))

def word24 : List UInt8 := s.words.getD 23 []

theorem line_eq : s.line = ended (chr ' ') s.words ++ s.tail := by
  simp only [line, words, ended_cons, ended_append, ended_splitOn, List.append_assoc, List.singleton_append]

theorem words_length : 24 ≤ s.words.length := by
  have hlen := s.between_length
  have hpos := List.length_pos_iff.mpr (List.splitOn_ne_nil (chr ' ') s.comm)
  simp only [words, List.length_cons, List.length_append, List.length_nil]
  omega

theorem mem_comm {c : UInt8} (hopen : c ≠ chr '(') (hclose : c ≠ chr ')') : c ∈ s.comm ↔ c ∈ s.name := by
  rw [comm, List.cons_append, List.mem_cons, List.mem_append, List.mem_singleton, or_iff_right hopen,
    or_iff_left hclose]

theorem words_ok : ∀ w ∈ s.words, chr ' ' ∉ w ∧ 0 ∉ w := by
  have hspace : isdigit (chr ' ') = false := by decide
  have hzero : isdigit 0 = false := by decide
  intro w hw
  simp only [words, List.mem_cons, List.mem_append, List.not_mem_nil, or_false] at hw
  rcases hw with rfl | hw | hw | rfl
  · exact ⟨not_mem_of_isdigit hspace _, not_mem_of_isdigit hzero _⟩
  · obtain ⟨hsep, hmem⟩ := mem_splitOn hw
    refine ⟨hsep, ?_⟩
    intro h0
    exact s.name_ok ((s.mem_comm (by decide) (by decide)).mp (hmem 0 h0))
  · exact s.between_ok w hw
  · refine ⟨?_, zero_not_mem_decimalInt _⟩
    exact not_mem_decimalInt hspace (by decide) _

theorem word24_eq (h : chr ' ' ∉ s.name) : s.word24 = decimalInt s.rss := by
  have hcomm : chr ' ' ∉ s.comm := by
    rwa [s.mem_comm (by decide) (by decide)]
  rw [word24, words, List.splitOn_eq_singleton hcomm]
  have hlen := s.between_length
  simp [List.getD, hlen]

theorem word24_of_spaces {k : Nat} (h : s.name.count (chr ' ') = k + 1) (hk : k < 21) :
    s.word24 = s.between.getD (20 - k) [] := by
  have hcount : s.comm.count (chr ' ') = k + 1 := by
    rw [comm, List.cons_append, List.count_cons, List.count_append, h]
    rfl
  have hlen : (s.comm.splitOn (chr ' ')).length = _ := length_splitOn s.comm
  have hbetween := s.between_length
  rw [hcount] at hlen
  rw [word24, words, List.getD_cons_succ, List.getD_append_right _ _ _ _ (by omega), hlen,
    List.getD_append _ _ _ _ (by omega)]
  congr 1
  omega

def withRss (rss : Int) (h : -2 ^ 63 ≤ rss ∧ rss < 2 ^ 63) : ProcStat := { s with rss, rss_range := h }

theorem withRss_length {rss : Int} {h : -2 ^ 63 ≤ rss ∧ rss < 2 ^ 63} (hone : (decimalInt rss).length = 1) :
    (s.withRss rss h).line.length ≤ s.line.length := by
  have hne : decimalInt s.rss ≠ [] := by
    rw [decimalInt]
    split
    · exact List.cons_ne_nil _ _
    · exact decimal_ne_nil _
  have hpos := List.length_pos_iff.mpr hne
  simp only [line, withRss, comm, ended_cons, ended_append, List.length_append, List.length_cons, hone]
  omega

theorem word24_withRss (hname : chr ' ' ∈ s.name) {rss : Int} (h : -2 ^ 63 ≤ rss ∧ rss < 2 ^ 63) :
    (s.withRss rss h).word24 = s.word24 := by
  have hpos : 0 < s.comm.count (chr ' ') :=
    List.count_pos_iff.mpr ((s.mem_comm (by decide) (by decide)).mpr hname)
  have hlen : (s.comm.splitOn (chr ' ')).length = _ := length_splitOn s.comm
  have hbetween := s.between_length
  have hplace : 22 < (s.comm.splitOn (chr ' ') ++ s.between).length := by
    rw [List.length_append]
    omega
  have hword : ∀ l, (s.comm.splitOn (chr ' ') ++ (s.between ++ l)).getD 22 [] =
      (s.comm.splitOn (chr ' ') ++ s.between).getD 22 [] := by
    intro l
    rw [← List.append_assoc, List.getD_append _ _ _ _ hplace]
  exact (hword [decimalInt rss]).trans (hword [decimalInt s.rss]).symm

end ProcStat

theorem strchr_word {w : List UInt8} {c : UInt8} (hc : c ∉ w) (h0 : 0 ∉ w) (rest : List UInt8) :
    strchr (w ++ c :: rest) c = .ok (some w.length) := by
  induction w with
  | nil => simp [strchr]
  | cons b w ih =>
    rw [List.mem_cons, not_or] at hc h0
    rw [List.cons_append, strchr, if_neg (Ne.symm hc.1), if_neg (Ne.symm h0.1), ih hc.2 h0.2]
    rfl

theorem skipFields_words {words : List (List UInt8)} (h : ∀ w ∈ words, chr ' ' ∉ w ∧ 0 ∉ w) (pre rest : List UInt8) :
    skipFields words.length (pre ++ (ended (chr ' ') words ++ rest)) pre.length =
      .ok (some (pre.length + (ended (chr ' ') words).length)) := by
  induction words generalizing pre with
  | nil => rfl
  | cons w words ih =>
    obtain ⟨hspace, hzero⟩ := h w List.mem_cons_self
    have hloop := ih (fun v hv => h v (List.mem_cons_of_mem _ hv)) (pre ++ (w ++ [chr ' ']))
    rw [List.length_cons, skipFields, List.drop_left, ended_cons, List.append_assoc, List.cons_append,
      strchr_word hspace hzero, ok_bind]
    simp only [List.append_assoc, List.length_append, List.singleton_append, List.length_cons, List.length_nil,
      Nat.zero_add] at hloop ⊢
    rw [← Nat.add_assoc] at hloop
    rw [hloop]
    congr 2
    omega

theorem zmalloc_get_rss_words {words : List (List UInt8)} {w tail buf : List UInt8} (hlen : words.length = 23)
    (hwords : ∀ v ∈ words, chr ' ' ∉ v ∧ 0 ∉ v) (hw : chr ' ' ∉ w ∧ 0 ∉ w)
    (hfit : (ended (chr ' ') words ++ (w ++ chr ' ' :: tail)).length ≤ buf.length) (page : Int) :
    zmalloc_get_rss page (.text (ended (chr ' ') words ++ (w ++ chr ' ' :: tail))) buf =
      .ok (toSize (toSize (strtoll w) * toSize page)) := by
  have hne : (ended (chr ' ') words ++ (w ++ chr ' ' :: tail)).isEmpty = false := by simp
  have hskip := skipFields_words hwords [] (w ++ chr ' ' :: (tail ++
    buf.drop (ended (chr ' ') words ++ (w ++ chr ' ' :: tail)).length))
  rw [hlen] at hskip
  simp only [List.nil_append, List.length_nil, Nat.zero_add] at hskip
  rw [zmalloc_get_rss]
  simp only [hne, List.take_of_length_le hfit, Bool.false_eq_true, if_false]
  generalize buf.drop _ = rest at hskip ⊢
  simp only [List.append_assoc, List.cons_append]
  rw [hskip, ok_bind]
  dsimp only
  rw [List.drop_left, strchr_word hw.1 hw.2, ok_bind]
  dsimp only
  have hwrite := writeAt_append (ended (chr ' ') words ++ w) (tail ++ rest) (chr ' ') 0
  rw [List.length_append, List.append_assoc, List.append_assoc] at hwrite
  rw [hwrite, ok_bind, List.drop_left, cString_append_zero, cString_of_not_mem hw.2]
  rfl

theorem isspace_of_isdigit {c : UInt8} (h : isdigit c = true) : isspace c = false := by
  rw [isdigit, Bool.and_eq_true, decide_eq_true_eq, decide_eq_true_eq, UInt8.le_iff_toNat_le, UInt8.le_iff_toNat_le] at h
  have hlow : 48 ≤ c.toNat := h.1
  have hspace : c ≠ chr ' ' := by
    rintro rfl
    exact absurd hlow (by decide)
  have hcontrol : ¬ c ≤ 13 := by
    rw [UInt8.le_iff_toNat_le]
    exact Nat.not_le_of_lt (Nat.lt_of_lt_of_le (by decide) hlow)
  rw [isspace, beq_false_of_ne hspace, Bool.false_or, decide_eq_false hcontrol, Bool.and_false]

theorem strtoll_decimal (n : Nat) (h : n < 2 ^ 63) : strtoll (decimal n) = n := by
  obtain ⟨c, digits, htext⟩ := List.exists_cons_of_ne_nil (decimal_ne_nil n)
  have hmem : c ∈ decimal n := htext ▸ List.mem_cons_self
  have hspace : isspace c = false := isspace_of_isdigit (isdigit_of_mem_decimal c hmem)
  have hminus : c ≠ chr '-' := fun he => not_mem_of_isdigit (by decide) n (he ▸ hmem)
  have hplus : c ≠ chr '+' := fun he => not_mem_of_isdigit (by decide) n (he ▸ hmem)
  have hall : (c :: digits).takeWhile isdigit = c :: digits := by
    rw [← htext]
    exact List.takeWhile_eq_self_iff.mpr isdigit_of_mem_decimal
  rw [strtoll, htext, List.dropWhile_cons_of_neg (by rw [hspace]; exact Bool.false_ne_true)]
  dsimp only
  rw [if_neg hminus, if_neg hplus, hall, ← htext, numeral_decimal]
  omega

theorem strtoll_decimalInt {x : Int} (h : -2 ^ 63 ≤ x ∧ x < 2 ^ 63) : strtoll (decimalInt x) = x := by
  rw [decimalInt]
  split
  · have hall : (decimal x.natAbs).takeWhile isdigit = decimal x.natAbs :=
      List.takeWhile_eq_self_iff.mpr isdigit_of_mem_decimal
    rw [strtoll, List.dropWhile_cons_of_neg (by decide)]
    dsimp only
    rw [if_pos rfl, hall, numeral_decimal]
    omega
  · rw [strtoll_decimal _ (by omega)]
    omega

theorem zmalloc_get_rss_word24 (s : ProcStat) (page : Int) {buf : List UInt8} (hfit : s.line.length ≤ buf.length) :
    zmalloc_get_rss page (.text s.line) buf = .ok (toSize (strtoll s.word24 * page)) := by
  have hlen := s.words_length
  have hok := s.words_ok
  have hget : s.words[23] = s.word24 := (List.getD_eq_getElem _ _ hlen).symm
  have hsplit : s.words.take 23 ++ s.word24 :: s.words.drop 24 = s.words := by
    rw [← hget, ← List.drop_eq_getElem_cons hlen, List.take_append_drop]
  have hline : s.line = ended (chr ' ') (s.words.take 23) ++
      (s.word24 ++ chr ' ' :: (ended (chr ' ') (s.words.drop 24) ++ s.tail)) := by
    have hended := congrArg (ended (chr ' ')) hsplit
    rw [ended_append, ended_cons] at hended
    rw [s.line_eq, ← hended]
    simp only [List.append_assoc, List.cons_append]
  rw [hline] at hfit ⊢
  have htake : (s.words.take 23).length = 23 := List.length_take_of_le (by omega)
  rw [zmalloc_get_rss_words htake (fun v hv => hok v (List.mem_of_mem_take hv)) (hok _ (hget ▸ List.getElem_mem _)) hfit,
    toSize_toSize_mul]

section Iff

variable {s : ProcStat} {page : Int} {buf : List UInt8}

theorem zmalloc_get_rss_plain (hname : chr ' ' ∉ s.name) (page : Int) (hfit : s.line.length ≤ buf.length) :
    zmalloc_get_rss page (.text s.line) buf = .ok (toSize (s.rss * page)) := by
  rw [zmalloc_get_rss_word24 s page hfit, s.word24_eq hname, strtoll_decimalInt s.rss_range]

/-- The result cannot depend on a field that the code never reaches. -/
theorem zmalloc_get_rss_withRss (page : Int) (hname : chr ' ' ∈ s.name) {x y : Int} (hx : -2 ^ 63 ≤ x ∧ x < 2 ^ 63)
    (hy : -2 ^ 63 ≤ y ∧ y < 2 ^ 63) (hfitx : (s.withRss x hx).line.length ≤ buf.length)
    (hfity : (s.withRss y hy).line.length ≤ buf.length) :
    zmalloc_get_rss page (.text (s.withRss x hx).line) buf =
      zmalloc_get_rss page (.text (s.withRss y hy).line) buf := by
  rw [zmalloc_get_rss_word24 _ page hfitx, zmalloc_get_rss_word24 _ page hfity, s.word24_withRss hname,
    s.word24_withRss hname]

/-- For a name and the fields around it, the 24th field is reported whatever it is exactly
when the name has no space. -/
theorem zmalloc_get_rss_iff (s : ProcStat) (hpage : 0 < page ∧ page < 2 ^ 31) (hbuf : buf.length = 4096)
    (hfit : s.line.length ≤ 4096) :
    (∀ (rss : Int) (h : -2 ^ 63 ≤ rss ∧ rss < 2 ^ 63), (s.withRss rss h).line.length ≤ 4096 →
        zmalloc_get_rss page (.text (s.withRss rss h).line) buf = .ok (toSize (rss * page))) ↔
      chr ' ' ∉ s.name := by
  constructor
  · intro hall hspace
    have h0 : (s.withRss 0 (by decide)).line.length ≤ 4096 := (s.withRss_length rfl).trans hfit
    have h1 : (s.withRss 1 (by decide)).line.length ≤ 4096 := (s.withRss_length rfl).trans hfit
    have hsame := zmalloc_get_rss_withRss page hspace _ _ (h0.trans_eq hbuf.symm) (h1.trans_eq hbuf.symm)
    rw [hall 0 _ h0, hall 1 _ h1, Except.ok.injEq] at hsame
    unfold toSize at hsame
    omega
  · intro hname rss h hrss
    exact zmalloc_get_rss_plain (s := s.withRss rss h) hname page (hrss.trans_eq hbuf.symm)

end Iff

def shell (name : List UInt8) (h : 0 ∉ name) : ProcStat :=
  { pid := 42
    name
    between := List.replicate 21 [chr '7']
    rss := 300
    tail := [chr '0', chr '\n']
    name_ok := h
    between_length := rfl
    between_ok := by decide
    rss_range := by decide }

theorem shell_get_rss :
    (shell [chr 's', chr 'h'] (by decide)).line.length ≤ 4096 ∧
      ((∀ (rss : Int) (h : -2 ^ 63 ≤ rss ∧ rss < 2 ^ 63),
          ((shell [chr 's', chr 'h'] (by decide)).withRss rss h).line.length ≤ 4096 →
          zmalloc_get_rss 4096 (.text ((shell [chr 's', chr 'h'] (by decide)).withRss rss h).line)
            (List.replicate 4096 0) = .ok (toSize (rss * 4096))) ↔ chr ' ' ∉ [chr 's', chr 'h']) := by
  have hfit : (shell [chr 's', chr 'h'] (by decide)).line.length ≤ 4096 := by decide
  exact ⟨hfit, zmalloc_get_rss_iff _ (by decide) List.length_replicate hfit⟩

/-- With the name `s h` the 23rd field is reported. -/
theorem shell_space_get_rss :
    ¬ ∀ (s : ProcStat) (page : Int) (buf : List UInt8), buf.length = 4096 → s.line.length ≤ 4096 →
      zmalloc_get_rss page (.text s.line) buf = .ok (toSize (s.rss * page)) := by
  intro hall
  let s := shell [chr 's', chr ' ', chr 'h'] (by decide)
  have hfit : s.line.length ≤ 4096 := by decide
  have hbuf : (List.replicate 4096 (0 : UInt8)).length = 4096 := List.length_replicate
  have hclaim := hall s 4096 (List.replicate 4096 0) hbuf hfit
  rw [zmalloc_get_rss_word24 s 4096 (by rw [hbuf]; exact hfit), s.word24_of_spaces (k := 0) rfl (by decide)] at hclaim
  exact absurd (Except.ok.inj hclaim) (by decide)

end CPractice
