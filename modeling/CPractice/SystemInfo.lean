import CPractice.Lib.CInt
import CPractice.Sds.Numeral
import CPractice.Zmalloc.Rss
import Mathlib.Algebra.BigOperators.Group.List.Basic
import Mathlib.Tactic.Positivity

/-! What `mem_status` and `cpu_percentage` read out of `/proc/meminfo` and `/proc/stat`. -/

namespace CPractice

namespace SystemInfo

open CMem CInt

/-- `uninitialized` is the read of a variable that has no value. -/
inductive Exn where
  | invalid_argument
  | out_of_range
  | uninitialized
  deriving DecidableEq, Repr

def npos : Nat := 2 ^ 64 - 1

def findFirst (p : UInt8 → Bool) (s : List UInt8) (pos : Nat) : Nat :=
  match (s.drop pos).findIdx? p with
  | some i => pos + i
  | none => npos

def substr (s : List UInt8) (pos len : Nat) : Except Exn (List UInt8) :=
  if pos ≤ s.length then .ok ((s.drop pos).take len) else .error .out_of_range

def leadingNumeral (text : List UInt8) : Except Exn Int :=
  let digits := text.takeWhile isdigit
  if digits.isEmpty then .error .invalid_argument else .ok (numeral digits)

/-- `stoi` and `stoll`, for the type whose values are below `2 ^ bits`. -/
def sto (bits : Nat) (text : List UInt8) : Except Exn Int := do
  let x ← match text.dropWhile isspace with
    | [] => .error .invalid_argument
    | c :: text =>
      if c = chr '-' then (leadingNumeral text).map (- ·)
      else if c = chr '+' then leadingNumeral text
      else leadingNumeral (c :: text)
  if -2 ^ bits ≤ x ∧ x < 2 ^ bits then .ok x else .error .out_of_range

def stoi (text : List UInt8) : Except Exn Int := sto 31 text

def stoll (text : List UInt8) : Except Exn Int := sto 63 text

section Memory

structure Memory where
  total_mem : Option Nat
  used_mem : Option Nat
  deriving DecidableEq, Repr

def value : Option Nat → Except Exn Nat
  | some n => .ok n
  | none => .error .uninitialized

def name (s : String) : List UInt8 := s.toList.map chr

/-- The branches of the loop, where `number` is what each of them reads out of the line. -/
def memBranch (key : List UInt8) (number : Except Exn Int) (m : Memory) : Except Exn Memory :=
  if key = name "MemTotal" then do
    let x ← number
    return { m with total_mem := some (toUnsigned x) }
  else if key = name "MemFree" then do
    let total_mem ← value m.total_mem
    let x ← number
    return { m with used_mem := some (toUnsigned (total_mem - x)) }
  else if key = name "Shmem" then do
    let x ← number
    let used_mem ← value m.used_mem
    return { m with used_mem := some (toUnsigned (used_mem + x)) }
  else if key = name "Buffers" ∨ key = name "Cached" ∨ key = name "SReclaimable" then do
    let x ← number
    let used_mem ← value m.used_mem
    return { m with used_mem := some (toUnsigned (used_mem - x)) }
  else return m

def memLine (line : List UInt8) (m : Memory) : Except Exn Memory := do
  let substr_len := findFirst (· == chr ':') line 0
  let key ← substr line 0 substr_len
  let substr_start := findFirst (· != chr ' ') line (toSize (substr_len + 1))
  let substr_len := toSize (findFirst (· == chr 'k') line 0 - substr_start)
  memBranch key (substr line substr_start substr_len >>= stoi) m

/-- The two numbers before they become `float`. -/
def mem_status (memory_info : List (List UInt8)) : Except Exn (Nat × Nat) := do
  let m ← memory_info.foldlM (fun m line => memLine line m) ⟨none, none⟩
  return (← value m.used_mem, ← value m.total_mem)

end Memory

section Cpu

/-- The second argument of `substr` is a position here, and longer than the number. -/
def cpuLoop (line : List UInt8) : Nat → Nat → Except Exn (List Int)
  | 0, _ => .ok []
  | n + 1, substr_len => do
    let substr_start := findFirst (· != chr ' ') line substr_len
    let substr_len := findFirst (· == chr ' ') line substr_start
    let x ← substr line substr_start substr_len >>= stoll
    let xs ← cpuLoop line n substr_len
    return x :: xs

def cpuStats (line : List UInt8) : Except Exn (List Int) := cpuLoop line 4 (findFirst (· == chr ' ') line 3)

/-- The differences whose quotient is the percentage. -/
def cpu_percentage (line line' : List UInt8) : Except Exn (List Nat) := do
  let stats ← cpuStats line
  let stats' ← cpuStats line'
  return List.zipWith (fun x' x => toSize (x' - toSize x)) stats' stats

end Cpu

theorem findFirst_append {p : UInt8 → Bool} {pre w rest : List UInt8} {c : UInt8} (hw : ∀ b ∈ w, p b = false)
    (hc : p c = true) : findFirst p (pre ++ (w ++ c :: rest)) pre.length = pre.length + w.length := by
  have hidx : (w ++ c :: rest).findIdx? p = some w.length := by
    rw [List.findIdx?_append, List.findIdx?_eq_none_iff.mpr hw]
    simp [List.findIdx?_cons, hc]
  rw [findFirst, List.drop_left, hidx]

theorem findFirst_none {p : UInt8 → Bool} {pre w : List UInt8} (hw : ∀ b ∈ w, p b = false) :
    findFirst p (pre ++ w) pre.length = npos := by
  rw [findFirst, List.drop_left, List.findIdx?_eq_none_iff.mpr hw]

theorem sto_decimal {bits n : Nat} (hn : n < 2 ^ bits) {rest : List UInt8}
    (hrest : ∀ c ∈ rest.head?, isdigit c = false) : sto bits (decimal n ++ rest) = .ok (n : Int) := by
  obtain ⟨c, digits, htext⟩ := List.exists_cons_of_ne_nil (decimal_ne_nil n)
  have hmem : c ∈ decimal n := htext ▸ List.mem_cons_self
  have hspace : ¬ isspace c = true := by simp [isspace_of_isdigit (isdigit_of_mem_decimal c hmem)]
  have hminus : c ≠ chr '-' := fun he => not_mem_of_isdigit (by decide) n (he ▸ hmem)
  have hplus : c ≠ chr '+' := fun he => not_mem_of_isdigit (by decide) n (he ▸ hmem)
  have hstop : rest.takeWhile isdigit = [] := by
    cases rest with
    | nil => rfl
    | cons b rest => exact List.takeWhile_cons_of_neg (by simp [hrest b rfl])
  have hall : (c :: (digits ++ rest)).takeWhile isdigit = decimal n := by
    rw [← List.cons_append, ← htext, List.takeWhile_append_of_pos isdigit_of_mem_decimal, hstop, List.append_nil]
  have hleading : leadingNumeral (c :: (digits ++ rest)) = .ok (n : Int) := by
    rw [leadingNumeral, hall, numeral_decimal]
    simp [decimal_ne_nil]
  rw [sto, htext, List.cons_append, List.dropWhile_cons_of_neg hspace]
  dsimp only
  rw [if_neg hminus, if_neg hplus, hleading, ok_bind, if_pos]
  constructor
  · exact Int.le_trans (Int.neg_nonpos_of_nonneg (by positivity)) (Int.natCast_nonneg n)
  · exact_mod_cast hn

section MemoryLines

inductive Key where
  | MemTotal
  | MemFree
  | Shmem
  | Buffers
  | Cached
  | SReclaimable
  deriving DecidableEq, Repr

def Key.name : Key → List UInt8
  | .MemTotal => SystemInfo.name "MemTotal"
  | .MemFree => SystemInfo.name "MemFree"
  | .Shmem => SystemInfo.name "Shmem"
  | .Buffers => SystemInfo.name "Buffers"
  | .Cached => SystemInfo.name "Cached"
  | .SReclaimable => SystemInfo.name "SReclaimable"

inductive Line where
  | kB (key : Key) (gap n : Nat)
  | other (text : List UInt8)

def Line.text : Line → List UInt8
  | .kB key gap n => key.name ++ chr ':' ::
      (List.replicate gap (chr ' ') ++ (decimal n ++ chr ' ' :: [chr 'k', chr 'B']))
  | .other text => text

def Line.Ok (l : Line) : Prop :=
  l.text.length < npos ∧
    match l with
    | .kB _ _ n => n < 2 ^ 31
    | .other text => ∀ key : Key, text.takeWhile (· != chr ':') ≠ key.name

def Line.key : Line → Option Key
  | .kB key _ _ => some key
  | .other _ => none

/-- What a line after the first two adds to the memory in use. -/
def Line.amount : Line → Int
  | .kB .Shmem _ n => n
  | .kB .Buffers _ n => - n
  | .kB .Cached _ n => - n
  | .kB .SReclaimable _ n => - n
  | _ => 0

theorem substr_takeWhile {c : UInt8} {s : List UInt8} (hlen : s.length < npos) :
    substr s 0 (findFirst (· == c) s 0) = .ok (s.takeWhile (· != c)) := by
  rw [substr, if_pos (Nat.zero_le _), List.drop_zero, findFirst, List.drop_zero]
  cases h : s.findIdx? (· == c) with
  | none =>
    have hc : ∀ b ∈ s, (b != c) = true := by
      intro b hb
      simpa using List.findIdx?_eq_none_iff.mp h b hb
    rw [List.takeWhile_eq_self_iff.mpr hc]
    exact congrArg _ (List.take_of_length_le (Nat.le_of_lt hlen))
  | some i =>
    obtain ⟨hi, hat, hbefore⟩ := List.findIdx?_eq_some_iff_getElem.mp h
    refine congrArg _ ?_
    dsimp only
    have hsplit : s = s.take i ++ s[i] :: s.drop (i + 1) := by simp
    have hpos : ∀ b ∈ s.take i, (b != c) = true := by
      intro b hb
      obtain ⟨j, hj, rfl⟩ := List.mem_iff_getElem.mp hb
      rw [List.length_take] at hj
      rw [List.getElem_take]
      simpa using hbefore j (by omega)
    have hneg : (s[i] :: s.drop (i + 1)).takeWhile (· != c) = [] := List.takeWhile_cons_of_neg (by simpa using hat)
    rw [Nat.zero_add]
    conv_rhs => rw [hsplit, List.takeWhile_append_of_pos hpos, hneg, List.append_nil]

theorem memBranch_other {key : List UInt8} (h : ∀ k : Key, key ≠ k.name) (number : Except Exn Int) (m : Memory) :
    memBranch key number m = .ok m := by
  have hlast : ¬ (key = name "Buffers" ∨ key = name "Cached" ∨ key = name "SReclaimable") := by
    rintro (he | he | he)
    · exact h .Buffers he
    · exact h .Cached he
    · exact h .SReclaimable he
  unfold memBranch
  rw [if_neg (show ¬ key = name "MemTotal" from h .MemTotal), if_neg (show ¬ key = name "MemFree" from h .MemFree),
    if_neg (show ¬ key = name "Shmem" from h .Shmem), if_neg hlast]
  rfl

theorem memLine_other {text : List UInt8} (h : (Line.other text).Ok) (m : Memory) : memLine text m = .ok m := by
  obtain ⟨hlen, hkey⟩ := h
  replace hlen : text.length < npos := hlen
  rw [memLine, substr_takeWhile hlen, ok_bind]
  exact memBranch_other hkey _ m

section Value

variable {key : Key} {gap n : Nat}

theorem Key.name_plain (key : Key) : ∀ c ∈ key.name, c ≠ chr ':' ∧ c ≠ chr 'k' := by
  cases key <;> decide +kernel

theorem takeWhile_kB : (Line.kB key gap n).text.takeWhile (· != chr ':') = key.name := by
  have hpos : ∀ c ∈ key.name, (c != chr ':') = true := fun c hc => bne_iff_ne.mpr (key.name_plain c hc).1
  rw [Line.text, List.takeWhile_append_of_pos hpos, List.takeWhile_cons_of_neg (by simp), List.append_nil]

theorem findFirst_colon : findFirst (· == chr ':') (Line.kB key gap n).text 0 = key.name.length := by
  have hw : ∀ c ∈ key.name, (c == chr ':') = false := fun c hc => beq_false_of_ne (key.name_plain c hc).1
  have hfirst := @findFirst_append (· == chr ':')
    [] _ (List.replicate gap (chr ' ') ++ (decimal n ++ chr ' ' :: [chr 'k', chr 'B']))
    (chr ':') hw (beq_self_eq_true _)
  exact hfirst.trans (Nat.zero_add _)

theorem findFirst_value : findFirst (· != chr ' ') (Line.kB key gap n).text (key.name.length + 1) =
    key.name.length + 1 + gap := by
  obtain ⟨c, digits, htext⟩ := List.exists_cons_of_ne_nil (decimal_ne_nil n)
  have hmem : c ∈ decimal n := htext ▸ List.mem_cons_self
  have hc : (c != chr ' ') = true := bne_iff_ne.mpr fun he => not_mem_of_isdigit (by decide) n (he ▸ hmem)
  have hspaces : ∀ b ∈ List.replicate gap (chr ' '), (b != chr ' ') = false := by
    intro b hb
    rw [List.eq_of_mem_replicate hb]
    decide
  have hline : (Line.kB key gap n).text = (key.name ++ [chr ':']) ++
      (List.replicate gap (chr ' ') ++ c :: (digits ++ chr ' ' :: [chr 'k', chr 'B'])) := by
    simp [Line.text, htext]
  have hfirst := @findFirst_append (· != chr ' ')
    (key.name ++ [chr ':']) _ (digits ++ chr ' ' :: [chr 'k', chr 'B']) c hspaces hc
  rw [← hline, List.length_append, List.length_singleton, List.length_replicate] at hfirst
  exact hfirst

theorem findFirst_unit : findFirst (· == chr 'k') (Line.kB key gap n).text 0 =
    key.name.length + 1 + gap + ((decimal n).length + 1) := by
  have hline : (Line.kB key gap n).text =
    [] ++ ((key.name ++ chr ':' :: (List.replicate gap (chr ' ') ++ (decimal n ++ [chr ' ']))) ++
      chr 'k' :: [chr 'B']) := by
    simp [Line.text]
  have hw : ∀ c ∈ key.name ++ chr ':' :: (List.replicate gap (chr ' ') ++ (decimal n ++ [chr ' '])),
    (c == chr 'k') = false := by
    intro c hc
    refine beq_false_of_ne ?_
    simp only [List.mem_append, List.mem_cons, List.not_mem_nil, or_false] at hc
    rcases hc with hc | rfl | hc | hc | rfl
    · exact (key.name_plain c hc).2
    · decide
    · rw [List.eq_of_mem_replicate hc]
      decide
    · exact fun he => not_mem_of_isdigit (by decide) n (he ▸ hc)
    · decide
  have hfirst := @findFirst_append (· == chr 'k') [] _ [chr 'B'] (chr 'k') hw (beq_self_eq_true _)
  rw [← hline, List.length_nil, Nat.zero_add] at hfirst
  rw [hfirst]
  simp
  omega

theorem stoi_value (h : (Line.kB key gap n).Ok) :
    (substr (Line.kB key gap n).text (key.name.length + 1 + gap) ((decimal n).length + 1) >>= stoi) =
      .ok (n : Int) := by
  obtain ⟨-, hn⟩ := h
  have hline : (Line.kB key gap n).text = (key.name ++ chr ':' :: List.replicate gap (chr ' ')) ++
      (decimal n ++ [chr ' '] ++ [chr 'k', chr 'B']) := by
    simp [Line.text]
  have hpre : (key.name ++ chr ':' :: List.replicate gap (chr ' ')).length = key.name.length + 1 + gap := by
    simp
    omega
  have hlen : (decimal n ++ [chr ' ']).length = (decimal n).length + 1 := by simp
  rw [substr, if_pos (by rw [hline, List.length_append, hpre]; omega), hline, ← hpre, List.drop_left, ← hlen,
    List.take_left, ok_bind,
    stoi, sto_decimal hn]
  intro c hc
  obtain rfl : chr ' ' = c := by simpa using hc
  decide

theorem memLine_kB (h : (Line.kB key gap n).Ok) (m : Memory) :
    memLine (Line.kB key gap n).text m = memBranch key.name (.ok n) m := by
  have hlen := h.1
  have hlong : key.name.length + 1 + gap + ((decimal n).length + 1) < npos := by
    have hle : key.name.length + 1 + gap + ((decimal n).length + 1) ≤ (Line.kB key gap n).text.length := by
      simp [Line.text]
      omega
    omega
  have hcolon : toSize ((key.name.length : Int) + 1) = key.name.length + 1 :=
    toSize_eq_natCast (by simp) (by unfold npos at hlong; omega)
  have hdiff : toSize (((key.name.length + 1 + gap + ((decimal n).length + 1) : Nat) : Int) -
      ((key.name.length + 1 + gap : Nat) : Int)) = (decimal n).length + 1 :=
    toSize_eq_natCast (by omega) (by unfold npos at hlong; omega)
  have hkey := @substr_takeWhile (chr ':') _ hlen
  rw [takeWhile_kB, findFirst_colon] at hkey
  rw [memLine, findFirst_colon]
  dsimp only
  rw [hcolon, findFirst_value, findFirst_unit, hdiff, hkey, ok_bind, stoi_value h]

theorem memLine_total (h : (Line.kB .MemTotal gap n).Ok) (m : Memory) :
    memLine (Line.kB .MemTotal gap n).text m = .ok { m with total_mem := some n } := by
  have hn : n < 2 ^ 31 := h.2
  have htotal : toUnsigned n = n := toUnsigned_eq_natCast rfl (by omega)
  rw [memLine_kB h, memBranch, if_pos (by decide), ok_bind, htotal]
  rfl

theorem memLine_free (h : (Line.kB .MemFree gap n).Ok) {t : Nat} {u : Option Nat} :
    memLine (Line.kB .MemFree gap n).text ⟨some t, u⟩ = .ok ⟨some t, some (toUnsigned (t - n))⟩ := by
  rw [memLine_kB h, memBranch, if_neg (by decide), if_pos (by decide)]
  rfl

theorem memLine_rest (h : (Line.kB key gap n).Ok) (htotal : key ≠ .MemTotal) (hfree : key ≠ .MemFree)
    {t : Option Nat} {u : Nat} :
    memLine (Line.kB key gap n).text ⟨t, some u⟩ = .ok ⟨t, some (toUnsigned (u + (Line.kB key gap n).amount))⟩ := by
  rw [memLine_kB h]
  cases key with
  | MemTotal => exact absurd rfl htotal
  | MemFree => exact absurd rfl hfree
  | Shmem => rfl
  | Buffers => rfl
  | Cached => rfl
  | SReclaimable => rfl

end Value

theorem mem_lines_other {lines : List Line} (h : ∀ l ∈ lines, l.Ok ∧ l.key = none) (m : Memory) :
    (lines.map Line.text).foldlM (fun m line => memLine line m) m = .ok m := by
  induction lines with
  | nil => rfl
  | cons l lines ih =>
    obtain ⟨hl, hkey⟩ := h l List.mem_cons_self
    cases l with
    | kB => simp [Line.key] at hkey
    | other text =>
      rw [List.map_cons, List.foldlM_cons, show (Line.other text).text = text from rfl, memLine_other hl, ok_bind]
      exact ih fun l hl => h l (List.mem_cons_of_mem _ hl)

theorem mem_lines_rest {lines : List Line} (h : ∀ l ∈ lines, l.Ok ∧ l.key ≠ some .MemTotal ∧ l.key ≠ some .MemFree)
    (t : Option Nat) {u : Nat} (hu : u < 2 ^ 32) :
      (lines.map Line.text).foldlM (fun m line => memLine line m) ⟨t, some u⟩ =
      .ok ⟨t, some (toUnsigned (u + (lines.map Line.amount).sum))⟩ := by
  induction lines generalizing u with
  | nil =>
    rw [List.map_nil, List.map_nil, List.sum_nil, Int.add_zero, toUnsigned_eq_natCast rfl hu]
    rfl
  | cons l lines ih =>
    obtain ⟨hl, htotal, hfree⟩ := h l List.mem_cons_self
    have hrest : ∀ l ∈ lines, l.Ok ∧ l.key ≠ some .MemTotal ∧ l.key ≠ some .MemFree :=
      fun l hl => h l (List.mem_cons_of_mem _ hl)
    have hstep : memLine l.text ⟨t, some u⟩ = .ok ⟨t, some (toUnsigned (u + l.amount))⟩ := by
      cases l with
      | kB key gap n => exact memLine_rest hl (fun he => htotal (he ▸ rfl)) (fun he => hfree (he ▸ rfl))
      | other text =>
        rw [show (Line.other text).text = text from rfl, memLine_other hl, show (Line.other text).amount = 0
          from rfl,
          Int.add_zero, toUnsigned_eq_natCast rfl hu]
    rw [List.map_cons, List.foldlM_cons, hstep, ok_bind, ih hrest (by unfold toUnsigned; omega), List.map_cons,
      List.sum_cons]
    have hmod : toUnsigned ((toUnsigned (u + l.amount) : Int) + (lines.map Line.amount).sum) =
        toUnsigned (u + (l.amount + (lines.map Line.amount).sum)) := by
      unfold toUnsigned
      omega
    rw [hmod]

/-- The result is the formula of the comment, modulo the width of `used_mem`. -/
theorem mem_status_formula {before between after : List Line} {gap gap' t f : Nat}
    (hbefore : ∀ l ∈ before, l.Ok ∧ l.key = none) (ht : (Line.kB .MemTotal gap t).Ok)
    (hbetween : ∀ l ∈ between, l.Ok ∧ l.key = none) (hf : (Line.kB .MemFree gap' f).Ok)
    (hafter : ∀ l ∈ after, l.Ok ∧ l.key ≠ some .MemTotal ∧ l.key ≠ some .MemFree) :
    mem_status ((before ++ .kB .MemTotal gap t :: (between ++ .kB .MemFree gap' f :: after)).map Line.text) =
      .ok (toUnsigned (t - f + (after.map Line.amount).sum), t) := by
  have hmod : toUnsigned ((toUnsigned (t - f) : Int) + (after.map Line.amount).sum) =
      toUnsigned (t - f + (after.map Line.amount).sum) := by
    unfold toUnsigned
    omega
  rw [mem_status, List.map_append, List.foldlM_append, mem_lines_other hbefore, ok_bind, List.map_cons,
    List.foldlM_cons,
    memLine_total ht, ok_bind, List.map_append, List.foldlM_append, mem_lines_other hbetween, ok_bind,
      List.map_cons,
    List.foldlM_cons, memLine_free hf, ok_bind, mem_lines_rest hafter _ (by unfold toUnsigned; omega), ok_bind,
      hmod]
  rfl

theorem mem_status_formula_four :
    mem_status (["MemTotal:   2000 kB", "MemFree: 500 kB", "MemAvailable: 900 kB", "Buffers: 10 kB",
    "Cached: 300 kB", "Mlocked: 7 kB", "Shmem: 20 kB", "HugePages_Total: 0"].map name) = .ok (1210, 2000) := by
  refine @mem_status_formula [] [] [.other (name "MemAvailable: 900 kB"), .kB .Buffers 1 10, .kB .Cached 1 300,
    .other (name "Mlocked: 7 kB"), .kB .Shmem 1 20, .other (name "HugePages_Total: 0")] 3 1 2000 500 (by simp)
      ⟨by decide, by decide⟩
    (by simp) ⟨by decide, by decide⟩ ?_
  simp only [List.forall_mem_cons]
  refine ⟨⟨⟨by decide, ?_⟩, by decide, by decide⟩, ⟨⟨by decide, by decide⟩, by decide, by decide⟩,
    ⟨⟨by decide, by decide⟩, by decide, by decide⟩, ⟨⟨by decide, ?_⟩, by decide, by decide⟩,
    ⟨⟨by decide, by decide⟩, by decide, by decide⟩, ⟨⟨by decide, ?_⟩, by decide, by decide⟩, by simp⟩
  all_goals
    intro key
    cases key <;> decide

end MemoryLines

section CpuLine

structure Field where
  gap : Nat
  n : Nat
  gap_pos : 0 < gap
  n_lt : n < 2 ^ 63

def Field.text (f : Field) : List UInt8 := List.replicate f.gap (chr ' ') ++ decimal f.n

def cpuLine (fields : List Field) : List UInt8 := name "cpu" ++ fields.flatMap Field.text

theorem Field.text_eq (f : Field) : ∃ text, f.text = chr ' ' :: text := by
  obtain ⟨gap, hgap⟩ := Nat.exists_eq_succ_of_ne_zero (Nat.ne_of_gt f.gap_pos)
  exact ⟨List.replicate gap (chr ' ') ++ decimal f.n, by rw [Field.text, hgap, List.replicate_succ,
    List.cons_append]⟩

theorem head_fields (fields : List Field) : ∀ c ∈ (fields.flatMap Field.text).head?, c = chr ' ' := by
  cases fields with
  | nil => simp
  | cons f fields =>
    obtain ⟨text, htext⟩ := f.text_eq
    rw [List.flatMap_cons, htext]
    simp [eq_comm]

theorem findFirst_number (pre : List UInt8) (f : Field) (rest : List UInt8) :
    findFirst (· != chr ' ') (pre ++ (f.text ++ rest)) pre.length = pre.length + f.gap := by
  obtain ⟨c, digits, htext⟩ := List.exists_cons_of_ne_nil (decimal_ne_nil f.n)
  have hmem : c ∈ decimal f.n := htext ▸ List.mem_cons_self
  have hc : (c != chr ' ') = true := bne_iff_ne.mpr fun he => not_mem_of_isdigit (by decide) f.n (he ▸ hmem)
  have hspaces : ∀ b ∈ List.replicate f.gap (chr ' '), (b != chr ' ') = false := by
    intro b hb
    rw [List.eq_of_mem_replicate hb]
    decide
  have hfirst := @findFirst_append (· != chr ' ') pre _ (digits ++ rest) c hspaces hc
  rw [List.length_replicate] at hfirst
  rw [← hfirst, Field.text, htext, List.append_assoc, List.cons_append]

theorem findFirst_blank (pre : List UInt8) (n : Nat) (fields : List Field) :
    (fields = [] ∧ findFirst (· == chr ' ') (pre ++ (decimal n ++ fields.flatMap Field.text)) pre.length = npos) ∨
      (fields ≠ [] ∧ findFirst (· == chr ' ') (pre ++ (decimal n ++ fields.flatMap Field.text)) pre.length =
        pre.length + (decimal n).length) := by
  have hdigits : ∀ b ∈ decimal n, (b == chr ' ') = false :=
    fun b hb => beq_false_of_ne fun he => not_mem_of_isdigit (by decide) n (he ▸ hb)
  cases fields with
  | nil => exact .inl ⟨rfl, by rw [List.flatMap_nil, List.append_nil, findFirst_none hdigits]⟩
  | cons f fields =>
    obtain ⟨text, htext⟩ := f.text_eq
    refine .inr ⟨List.cons_ne_nil _ _, ?_⟩
    rw [List.flatMap_cons, htext, List.cons_append]
    exact findFirst_append hdigits (beq_self_eq_true _)

theorem stoll_field (pre : List UInt8) (f : Field) (fields : List Field) {len : Nat}
    (hlen : (decimal f.n).length ≤ len) :
    (substr (pre ++ (decimal f.n ++ fields.flatMap Field.text)) pre.length len >>= stoll) = .ok (f.n : Int) := by
  rw [substr, if_pos (by rw [List.length_append]; omega), List.drop_left, List.take_append,
    List.take_of_length_le hlen, ok_bind,
    stoll, sto_decimal f.n_lt]
  intro c hc
  rw [List.head?_take] at hc
  split at hc
  · simp at hc
  · rw [head_fields fields c hc]
    decide

theorem cpuLoop_fields {fields : List Field} {k : Nat} (hk : k ≤ fields.length) (pre : List UInt8)
    (hlen : (pre ++ fields.flatMap Field.text).length < npos) :
    cpuLoop (pre ++ fields.flatMap Field.text) k pre.length = .ok ((fields.take k).map fun f => (f.n : Int)) := by
  induction k generalizing fields pre with
  | zero => rfl
  | succ k ih =>
    cases fields with
    | nil => simp at hk
    | cons f fields =>
      have hnumber : pre ++ (f :: fields).flatMap Field.text =
          (pre ++ List.replicate f.gap (chr ' ')) ++ (decimal f.n ++ fields.flatMap Field.text) := by
        simp [Field.text]
      have hafter : pre ++ (f :: fields).flatMap Field.text =
        (pre ++ f.text) ++ fields.flatMap Field.text := by simp
      have hstart : findFirst (· != chr ' ') (pre ++ (f :: fields).flatMap Field.text) pre.length =
          (pre ++ List.replicate f.gap (chr ' ')).length := by
        rw [List.flatMap_cons, findFirst_number, List.length_append, List.length_replicate]
      have hwidth : (pre ++ List.replicate f.gap (chr ' ')).length + (decimal f.n).length =
        (pre ++ f.text).length := by
        simp [Field.text, Nat.add_assoc]
      have hdecimal : (decimal f.n).length < npos := by
        rw [hnumber, List.length_append, List.length_append, List.length_append] at hlen
        omega
      obtain ⟨e, he, hle, hrest⟩ : ∃ e, findFirst (· == chr ' ') (pre ++ (f :: fields).flatMap Field.text)
          (pre ++ List.replicate f.gap (chr ' ')).length = e ∧ (decimal f.n).length ≤ e ∧
          cpuLoop (pre ++ (f :: fields).flatMap Field.text) k e =
            .ok ((fields.take k).map fun f => (f.n : Int)) := by
        rcases findFirst_blank (pre ++ List.replicate f.gap (chr ' ')) f.n fields with ⟨rfl, hend⟩ | ⟨-, hend⟩
        · obtain rfl : k = 0 := by simpa using hk
          exact ⟨npos, by rw [hnumber, hend], Nat.le_of_lt hdecimal, rfl⟩
        · refine ⟨(pre ++ f.text).length, by rw [hnumber, hend, hwidth], by omega, ?_⟩
          rw [hafter] at hlen ⊢
          exact ih (by simpa using hk) (pre ++ f.text) hlen
      have hnumeral := stoll_field (pre ++ List.replicate f.gap (chr ' ')) f fields hle
      rw [← hnumber] at hnumeral
      rw [cpuLoop, hstart, he, hnumeral, ok_bind, hrest]
      rfl

theorem cpuStats_line {fields : List Field} (h : 4 ≤ fields.length) (hlen : (cpuLine fields).length < npos) :
    cpuStats (cpuLine fields) = .ok ((fields.take 4).map fun f => (f.n : Int)) := by
  obtain ⟨f, rest, rfl⟩ := List.exists_cons_of_ne_nil (List.ne_nil_of_length_pos (show 0 < fields.length by omega))
  have hskip : findFirst (· == chr ' ') (cpuLine (f :: rest)) 3 = 3 := by
    obtain ⟨text, htext⟩ := f.text_eq
    rw [cpuLine, List.flatMap_cons, htext, List.cons_append]
    exact @findFirst_append (· == chr ' ') (name "cpu") [] _ _ (by simp) (beq_self_eq_true _)
  rw [cpuStats, hskip]
  exact cpuLoop_fields h (name "cpu") hlen

/-- Both lines may have further counters, and counters that run backwards give large numbers. -/
theorem cpu_percentage_differences {fields fields' : List Field} (h : 4 ≤ fields.length) (h' : 4 ≤ fields'.length)
    (hlen : (cpuLine fields).length < npos) (hlen' : (cpuLine fields').length < npos) :
    cpu_percentage (cpuLine fields) (cpuLine fields') =
      .ok (List.zipWith (fun f' f => toSize (f'.n - f.n)) (fields'.take 4) (fields.take 4)) := by
  rw [cpu_percentage, cpuStats_line h hlen, ok_bind, cpuStats_line h' hlen', ok_bind, List.zipWith_map]
  refine congrArg Except.ok (congrArg (List.zipWith · _ _) ?_)
  funext f' f
  rw [toSize_eq_natCast rfl (Nat.lt_trans f.n_lt (by decide))]

theorem cpu_percentage_differences_five :
    cpu_percentage (name "cpu  10 2 30 400 5") (name "cpu  25 2 31 430 9") = .ok [15, 0, 1, 30] := by
  have hbefore : name "cpu  10 2 30 400 5" = cpuLine [⟨2, 10, by decide, by decide⟩, ⟨1, 2, by decide, by decide⟩,
      ⟨1, 30, by decide, by decide⟩, ⟨1, 400, by decide, by decide⟩, ⟨1, 5, by decide, by decide⟩] := by decide
  have hafter : name "cpu  25 2 31 430 9" = cpuLine [⟨2, 25, by decide, by decide⟩, ⟨1, 2, by decide, by decide⟩,
      ⟨1, 31, by decide, by decide⟩, ⟨1, 430, by decide, by decide⟩, ⟨1, 9, by decide, by decide⟩] := by decide
  rw [hbefore, hafter, cpu_percentage_differences (by decide) (by decide) (by decide) (by decide)]
  decide

end CpuLine

end SystemInfo

end CPractice
