import CPractice.Lib.Chunks
import CPractice.Zmalloc.Rss
import Mathlib.Algebra.BigOperators.Group.List.Basic

/-! `zmalloc_get_private_dirty`: the sum of the lines `Private_Dirty` of `/proc/self/smaps`. -/

namespace CPractice

open CMem CInt Chunks

namespace PrivateDirty

def newline : UInt8 := 10

def key : List UInt8 := "Private_Dirty:".toList.map chr

/-- A line, or as much of it as fits into `size` bytes with the terminator. -/
def fgets (size : Nat) (file : List UInt8) : List UInt8 :=
  let line := (file.take (size - 1)).takeWhile (· != newline)
  file.take (min (size - 1) (line.length + 1))

def addLine (line : List UInt8) (pd : Nat) : Except Fault Nat :=
  if key <+: line then do
    let line := line ++ [0]
    match ← strchr line (chr 'k') with
    | none => return pd
    | some p =>
      let line ← writeAt line p 0
      return toSize (pd + strtoll (cString (line.drop 14)) * 1024)
  else return pd

def lineLoop : Nat → List UInt8 → Nat → Except Fault Nat
  | 0, _, _ => .error .diverges
  | fuel + 1, file, pd =>
    let line := fgets 1024 file
    if line.isEmpty then return pd
    else do
      let pd ← addLine line pd
      lineLoop fuel (file.drop line.length) pd

def zmalloc_get_private_dirty (smaps : Option (List UInt8)) : Except Fault Nat :=
  match smaps with
  | none => return 0
  | some file => lineLoop (file.length + 1) file 0

/-- A line of the kernel. A path can be longer than the buffer. -/
inductive Line where
  | dirty (spaces : Nat) (kB : Nat)
  | other (text : List UInt8)

def Line.text : Line → List UInt8
  | .dirty spaces kB => key ++ (List.replicate spaces (chr ' ') ++ decimal kB) ++ " kB".toList.map chr
  | .other text => text

/-- The buffer never holds the key for another reason. -/
def Line.Ok : Line → Prop
  | .dirty spaces kB => kB < 2 ^ 53 ∧ (Line.dirty spaces kB).text.length < 1023
  | .other text => newline ∉ text ∧ ∀ piece ∈ chunks 1023 (text ++ [newline]), ¬ key <+: piece

def Line.kB : Line → Nat
  | .dirty _ kB => kB
  | .other _ => 0

def file (lines : List Line) : List UInt8 := lines.flatMap fun l => l.text ++ [newline]

section Fgets

variable {text rest : List UInt8}

theorem fgets_short (h : newline ∉ text) (hlen : text.length < 1023) :
    fgets 1024 (text ++ newline :: rest) = text ++ [newline] := by
  have hpos : ∀ c ∈ text, (c != newline) = true := fun c hc => bne_iff_ne.mpr fun he => h (he ▸ hc)
  have htake : (text ++ newline :: rest).take 1023 = text ++ newline :: rest.take (1022 - text.length) := by
    rw [List.take_append, List.take_of_length_le (by omega),
      show 1023 - text.length = 1022 - text.length + 1 by omega,
      List.take_succ_cons]
  have hline : ((text ++ newline :: rest).take 1023).takeWhile (· != newline) = text := by
    rw [htake, List.takeWhile_append_of_pos hpos, List.takeWhile_cons_of_neg (by simp), List.append_nil]
  unfold fgets
  dsimp only
  rw [hline, show min (1024 - 1) (text.length + 1) = text.length + 1 by omega, List.take_append,
    List.take_of_length_le (by omega), Nat.add_sub_cancel_left]
  rfl

theorem fgets_long (h : newline ∉ text) (hlen : 1023 ≤ text.length) :
    fgets 1024 (text ++ newline :: rest) = text.take 1023 := by
  have htake : (text ++ newline :: rest).take 1023 = text.take 1023 := List.take_append_of_le_length hlen
  have hpos : ∀ c ∈ text.take 1023, (c != newline) = true :=
    fun c hc => bne_iff_ne.mpr fun he => h (he ▸ List.mem_of_mem_take hc)
  have hline : ((text ++ newline :: rest).take 1023).takeWhile (· != newline) = text.take 1023 := by
    rw [htake, List.takeWhile_eq_self_iff.mpr hpos]
  unfold fgets
  dsimp only
  rw [hline, List.length_take, show min (1024 - 1) (min 1023 text.length + 1) = 1023 by omega, htake]

end Fgets

theorem lineLoop_other {text rest : List UInt8} (h : newline ∉ text)
    (hkey : ∀ piece ∈ chunks 1023 (text ++ [newline]), ¬ key <+: piece) {fuel pd : Nat}
    (hfuel : (text ++ newline :: rest).length < fuel) :
    ∃ fuel', rest.length < fuel' ∧ lineLoop fuel (text ++ newline :: rest) pd = lineLoop fuel' rest pd := by
  induction hn : text.length using Nat.strongRecOn generalizing text fuel with
  | ind n ih =>
    obtain ⟨fuel, rfl⟩ := Nat.exists_eq_succ_of_ne_zero (Nat.ne_zero_of_lt hfuel)
    rw [List.length_append, List.length_cons] at hfuel
    rw [chunks_eq (by decide) (by simp)] at hkey
    have hfirst := hkey _ List.mem_cons_self
    rcases Nat.lt_or_ge text.length 1023 with hlt | hge
    · refine ⟨fuel, by omega, ?_⟩
      rw [List.take_of_length_le (by simp; omega)] at hfirst
      rw [lineLoop, fgets_short h hlt, addLine, if_neg hfirst, List.length_append]
      simp
    · have hdrop : newline ∉ text.drop 1023 := fun hm => h (List.mem_of_mem_drop hm)
      have hrest : (text ++ [newline]).drop 1023 = text.drop 1023 ++ [newline] := by
        rw [List.drop_append_of_le_length hge]
      rw [List.take_append_of_le_length hge] at hfirst
      rw [hrest] at hkey
      have hlen : (text.drop 1023).length = n - 1023 := by rw [List.length_drop, hn]
      obtain ⟨fuel', hfuel', hloop⟩ :=
        ih (n - 1023) (by omega) hdrop (fun piece hp => hkey piece (List.mem_cons_of_mem _ hp))
        (show (text.drop 1023 ++ newline :: rest).length < fuel by simp; omega) hlen
      refine ⟨fuel', hfuel', ?_⟩
      have hne : (text.take 1023).isEmpty = false := by
        rw [List.isEmpty_eq_false_iff]
        exact List.ne_nil_of_length_pos (by rw [List.length_take]; omega)
      have htake : (text.take 1023).length = 1023 := by rw [List.length_take]; omega
      rw [lineLoop, fgets_long h hge, hne, if_neg Bool.false_ne_true, addLine, if_neg hfirst, htake,
        List.drop_append_of_le_length hge]
      exact hloop

theorem strtoll_spaces (spaces n : Nat) (h : n < 2 ^ 63) :
    strtoll (List.replicate spaces (chr ' ') ++ decimal n ++ [chr ' ']) = n := by
  have hspaces : ∀ c ∈ List.replicate spaces (chr ' '), isspace c = true := by
    intro c hc
    rw [List.eq_of_mem_replicate hc]
    decide
  obtain ⟨c, digits, htext⟩ := List.exists_cons_of_ne_nil (decimal_ne_nil n)
  have hmem : c ∈ decimal n := htext ▸ List.mem_cons_self
  have hspace : ¬ isspace c = true := by simp [isspace_of_isdigit (isdigit_of_mem_decimal c hmem)]
  have hminus : c ≠ chr '-' := fun he => not_mem_of_isdigit (by decide) n (he ▸ hmem)
  have hplus : c ≠ chr '+' := fun he => not_mem_of_isdigit (by decide) n (he ▸ hmem)
  have hdigits : ∀ b ∈ c :: digits, isdigit b = true := htext ▸ isdigit_of_mem_decimal
  have hall : (c :: (digits ++ [chr ' '])).takeWhile isdigit = c :: digits := by
    rw [← List.cons_append, List.takeWhile_append_of_pos hdigits, List.takeWhile_cons_of_neg (by decide),
      List.append_nil]
  rw [List.append_assoc, strtoll, List.dropWhile_append_of_pos hspaces, htext, List.cons_append,
    List.dropWhile_cons_of_neg hspace]
  dsimp only
  rw [if_neg hminus, if_neg hplus, hall, ← htext, numeral_decimal]
  omega

theorem addLine_dirty {spaces n : Nat} (h : n < 2 ^ 63) (pd : Nat) :
    addLine ((Line.dirty spaces n).text ++ [newline]) pd = .ok (toSize (pd + n * 1024)) := by
  have hword : ∀ c ∈ key ++ (List.replicate spaces (chr ' ') ++ decimal n) ++ [chr ' '], c ≠ chr 'k' ∧ c ≠ 0 := by
    intro c hc
    simp only [List.mem_append, List.mem_singleton] at hc
    rcases hc with (hc | hc | hc) | rfl
    · revert c
      decide +kernel
    · rw [List.eq_of_mem_replicate hc]
      decide
    · exact ⟨fun he => not_mem_of_isdigit (by decide) n (he ▸ hc),
        fun he => not_mem_of_isdigit (by decide) n (he ▸ hc)⟩
    · decide
  have hk : chr 'k' ∉ key ++ (List.replicate spaces (chr ' ') ++ decimal n) ++ [chr ' '] :=
    fun hm => (hword _ hm).1 rfl
  have h0 : 0 ∉ key ++ (List.replicate spaces (chr ' ') ++ decimal n) ++ [chr ' '] := fun hm => (hword _ hm).2 rfl
  have htext : (Line.dirty spaces n).text ++ [newline] ++ [0] =
      key ++ (List.replicate spaces (chr ' ') ++ decimal n) ++ [chr ' '] ++ chr 'k' :: [chr 'B', newline, 0] := by
    simp [Line.text]
  have hprefix : key <+: (Line.dirty spaces n).text ++ [newline] := by
    rw [Line.text, List.append_assoc, List.append_assoc, List.append_assoc]
    exact List.prefix_append _ _
  have hdrop : (key ++ (List.replicate spaces (chr ' ') ++ decimal n) ++ [chr ' '] ++ 0 :: [chr 'B', newline,
    0]).drop 14 =
      List.replicate spaces (chr ' ') ++ decimal n ++ [chr ' '] ++ 0 :: [chr 'B', newline, 0] := by
    rw [List.append_assoc, List.append_assoc, List.drop_left' (by decide), ← List.append_assoc]
  have hplain : 0 ∉ List.replicate spaces (chr ' ') ++ decimal n ++ [chr ' '] := by
    intro hm
    rw [List.append_assoc] at h0
    exact h0 (List.mem_append_right _ hm)
  rw [addLine, if_pos hprefix]
  dsimp only
  rw [htext, strchr_word hk h0, ok_bind]
  dsimp only
  rw [writeAt_append, ok_bind, hdrop, cString_append_zero, cString_of_not_mem hplain, strtoll_spaces spaces n h]
  rfl

theorem newline_dirty (spaces n : Nat) : newline ∉ (Line.dirty spaces n).text := by
  intro hm
  simp only [Line.text, List.mem_append] at hm
  rcases hm with (hm | hm | hm) | hm
  · revert hm
    decide
  · exact absurd (List.eq_of_mem_replicate hm) (by decide)
  · exact not_mem_of_isdigit (by decide) n hm
  · revert hm
    decide

theorem lineLoop_file {lines : List Line} (h : ∀ l ∈ lines, l.Ok) {fuel pd : Nat}
    (hfuel : (file lines).length < fuel)
    (hpd : pd < 2 ^ 64) : lineLoop fuel (file lines) pd = .ok (toSize (pd + (lines.map Line.kB).sum * 1024)) := by
  induction lines generalizing fuel pd with
  | nil =>
    obtain ⟨fuel, rfl⟩ := Nat.exists_eq_succ_of_ne_zero (Nat.ne_zero_of_lt hfuel)
    have hsize : toSize (pd : Int) = pd := toSize_eq_natCast rfl hpd
    simp [lineLoop, file, fgets, hsize]
    rfl
  | cons l lines ih =>
    have hrest : ∀ l ∈ lines, l.Ok := fun l hl => h l (List.mem_cons_of_mem _ hl)
    have hfile : file (l :: lines) = l.text ++ newline :: file lines := by
      rw [file, List.flatMap_cons, List.append_assoc]
      rfl
    rw [hfile] at hfuel ⊢
    cases l with
    | dirty spaces n =>
      obtain ⟨hn, hlen⟩ := h _ List.mem_cons_self
      obtain ⟨fuel, rfl⟩ := Nat.exists_eq_succ_of_ne_zero (Nat.ne_zero_of_lt hfuel)
      rw [List.length_append, List.length_cons] at hfuel
      have hne : ((Line.dirty spaces n).text ++ [newline]).isEmpty = false := by simp
      have hdrop : ((Line.dirty spaces n).text ++ newline :: file lines).drop
          ((Line.dirty spaces n).text ++ [newline]).length = file lines := by
        rw [show newline :: file lines = [newline] ++ file lines from rfl, ← List.append_assoc, List.drop_left]
      rw [lineLoop, fgets_short (newline_dirty spaces n) hlen, hne, if_neg Bool.false_ne_true,
        addLine_dirty (by omega), ok_bind,
        hdrop, ih hrest (by omega) (by unfold toSize; omega)]
      refine congrArg _ ?_
      rw [List.map_cons, List.sum_cons, Line.kB]
      unfold toSize
      omega
    | other text =>
      obtain ⟨hnewline, hkey⟩ := h _ List.mem_cons_self
      obtain ⟨fuel', hfuel', hloop⟩ := @lineLoop_other text (file lines) hnewline hkey fuel pd hfuel
      refine hloop.trans ?_
      rw [ih hrest hfuel' hpd, List.map_cons, List.sum_cons, Line.kB, Nat.zero_add]

/-- The sum is right for every list of mappings, also if paths are longer than the buffer, as long as no piece
of them looks like the line that is searched for. -/
theorem private_dirty_sum {lines : List Line} (h : ∀ l ∈ lines, l.Ok) :
    zmalloc_get_private_dirty (some (file lines)) = .ok (toSize ((lines.map Line.kB).sum * 1024)) := by
  rw [zmalloc_get_private_dirty, lineLoop_file h (Nat.lt_succ_self _) (by decide)]
  simp

theorem private_dirty_sum_two :
    zmalloc_get_private_dirty (some (file [.other ("Size: 8 kB".toList.map chr), .dirty 9 12,
    .other ("VmFlags: rd".toList.map chr), .dirty 1 100])) = .ok (toSize (112 * 1024)) := by
  refine private_dirty_sum ?_
  simp only [List.forall_mem_cons]
  exact ⟨⟨by decide, by decide⟩, ⟨by decide, by decide⟩, ⟨by decide, by decide⟩, ⟨by decide, by decide⟩, by simp⟩

end PrivateDirty

end CPractice
