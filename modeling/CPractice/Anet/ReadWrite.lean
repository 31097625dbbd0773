import CPractice.Lib.Block
import CPractice.Lib.CInt

/-! `anetRead` and `anetWrite`: one loop around `read` and `write` that goes on after
short counts. -/

namespace CPractice

open CMem CInt

inductive IoResult where
  | moved (n : Nat)
  | zero
  | failed
  deriving DecidableEq, Repr

structure Kernel where
  answer : Nat → Nat → IoResult
  moved_range : ∀ i n k, answer i n = .moved k → 0 < k ∧ k ≤ n

/-- The caller's buffer, the bytes taken from the stream and given to it, and the answers
of the kernel in order. -/
structure Io where
  block : List UInt8
  taken : Nat
  sent : List UInt8
  answers : List IoResult
  deriving DecidableEq, Repr

def streamBytes (stream : Nat → UInt8) (start n : Nat) : List UInt8 :=
  (List.range n).map fun i => stream (start + i)

def readBytes (stream : Nat → UInt8) (buf n : Nat) (io : Io) : Except Fault Io := do
  let block ← memcpy io.block buf (streamBytes stream io.taken n) n
  return { io with block, taken := io.taken + n }

def writeBytes (buf n : Nat) (io : Io) : Except Fault Io :=
  if buf + n ≤ io.block.length then .ok { io with sent := io.sent ++ (io.block.drop buf).take n }
  else .error .outOfBounds

/-- `buf` is the offset of the pointer in the block. The kernel may use all of the region
that it is handed. -/
def shortCountLoop (kernel : Kernel) (move : Nat → Nat → Io → Except Fault Io) (count : Int) :
    Nat → Int → Nat → Io → Except Fault (Int × Io)
  | 0, _, _, _ => .error .diverges
  | fuel + 1, totlen, buf, io =>
    if totlen ≠ count then
      let requested := toSize (count - totlen)
      if buf + requested ≤ io.block.length then
        let answer := kernel.answer io.answers.length requested
        let io := { io with answers := io.answers ++ [answer] }
        match answer with
        | .zero => .ok (totlen, io)
        | .failed => .ok (-1, io)
        | .moved n => do
          let io ← move buf n io
          shortCountLoop kernel move count fuel (toInt (totlen + n)) (buf + n) io
      else .error .outOfBounds
    else .ok (totlen, io)

def Io.start (block : List UInt8) : Io := { block, taken := 0, sent := [], answers := [] }

def anetRead (kernel : Kernel) (stream : Nat → UInt8) (block : List UInt8) (count : Int) :
    Except Fault (Int × Io) :=
  shortCountLoop kernel (readBytes stream) count (count.toNat + 1) 0 0 (Io.start block)

def anetWrite (kernel : Kernel) (block : List UInt8) (count : Int) : Except Fault (Int × Io) :=
  shortCountLoop kernel writeBytes count (count.toNat + 1) 0 0 (Io.start block)

def IoResult.size : IoResult → Nat
  | .moved n => n
  | .zero | .failed => 0

def total : List IoResult → Nat
  | [] => 0
  | a :: answers => a.size + total answers

def AllMoved (answers : List IoResult) : Prop := ∀ a ∈ answers, ∃ n, a = .moved n

inductive Returned (count : Nat) : List IoResult → Int → Prop
  | full {answers : List IoResult} (h : AllMoved answers) (heq : total answers = count) :
    Returned count answers count
  | zero {answers : List IoResult} (h : AllMoved answers) (hlt : total answers < count) :
    Returned count (answers ++ [.zero]) (total answers)
  | failed {answers : List IoResult} (h : AllMoved answers) (hlt : total answers < count) :
    Returned count (answers ++ [.failed]) (-1)

/-- Each call asks for what the calls before it have left. -/
def AnswersOf (kernel : Kernel) (count : Nat) (answers : List IoResult) : Prop :=
  ∀ i a, answers[i]? = some a → a = kernel.answer i (count - total (answers.take i))

@[simp] theorem total_append (as : List IoResult) (a : IoResult) : total (as ++ [a]) = total as + a.size := by
  induction as with
  | nil => simp [total]
  | cons b as ih => rw [List.cons_append, total, total, ih, Nat.add_assoc]

theorem AllMoved.append {as : List IoResult} (h : AllMoved as) (n : Nat) : AllMoved (as ++ [.moved n]) := by
  intro a ha
  rcases List.mem_append.mp ha with ha | ha
  · exact h a ha
  · exact ⟨n, List.mem_singleton.mp ha⟩

theorem AnswersOf.append {kernel : Kernel} {count : Nat} {as : List IoResult} {a : IoResult}
    (h : AnswersOf kernel count as) (ha : a = kernel.answer as.length (count - total as)) :
    AnswersOf kernel count (as ++ [a]) := by
  intro i b hb
  have hi : i < (as ++ [a]).length := (List.getElem?_eq_some_iff.mp hb).1
  rw [List.length_append, List.length_singleton] at hi
  rw [List.take_append_of_le_length (by omega)]
  rcases Nat.lt_or_ge i as.length with hlt | hge
  · rw [List.getElem?_append_left hlt] at hb
    exact h i b hb
  · obtain rfl : i = as.length := by omega
    rw [List.getElem?_concat_length] at hb
    rw [List.take_length, ← Option.some.inj hb]
    exact ha

theorem AnswersOf.last {kernel : Kernel} {count : Nat} {as : List IoResult} {a : IoResult}
    (h : AnswersOf kernel count (as ++ [a])) : a = kernel.answer as.length (count - total as) := by
  have ha := h as.length a List.getElem?_concat_length
  rwa [List.take_left] at ha

theorem Returned.total_le {count : Nat} {answers : List IoResult} {ret : Int} (h : Returned count answers ret) :
    total answers ≤ count := by
  cases h with
  | full h heq => omega
  | zero h hlt => simpa [IoResult.size] using hlt.le
  | failed h hlt => simpa [IoResult.size] using hlt.le

theorem Returned.of_moves {kernel : Kernel} {count : Nat} {ret : Int} {answers : List IoResult}
    (h : Returned count answers ret) (hof : AnswersOf kernel count answers)
    (hmoves : ∀ i n, 0 < n → ∃ k, kernel.answer i n = .moved k) : ret = count ∧ total answers = count := by
  cases h with
  | full h heq => exact ⟨rfl, heq⟩
  | @zero as h hlt =>
    obtain ⟨k, hk⟩ := hmoves as.length (count - total as) (by omega)
    exact absurd (hof.last.trans hk) (by simp)
  | @failed as h hlt =>
    obtain ⟨k, hk⟩ := hmoves as.length (count - total as) (by omega)
    exact absurd (hof.last.trans hk) (by simp)

/-- `P t` holds of the buffer and the stream after `t` bytes. -/
structure Moves (move : Nat → Nat → Io → Except Fault Io) (count : Nat) (P : Nat → Io → Prop) : Prop where
  bound : ∀ {t io}, P t io → count ≤ io.block.length
  answered : ∀ {t io}, P t io → ∀ answers, P t { io with answers }
  step : ∀ {t n io}, P t io → t + n ≤ count → ∃ io', move t n io = .ok io' ∧ io'.answers = io.answers ∧ P (t + n) io'

theorem shortCountLoop_ok {kernel : Kernel} {move : Nat → Nat → Io → Except Fault Io} {count : Nat}
    {P : Nat → Io → Prop} (hm : Moves move count P) (hcount : count < 2 ^ 31) {fuel t : Nat} {io : Io}
    (hfuel : count - t < fuel) (ht : t ≤ count) (htotal : total io.answers = t) (hall : AllMoved io.answers)
    (hof : AnswersOf kernel count io.answers) (hP : P t io) :
    ∃ ret io', shortCountLoop kernel move count fuel t t io = .ok (ret, io') ∧
      Returned count io'.answers ret ∧ AnswersOf kernel count io'.answers ∧ P (total io'.answers) io' := by
  induction fuel generalizing t io with
  | zero => omega
  | succ fuel ih =>
    rw [shortCountLoop]
    by_cases hdone : t = count
    · rw [if_neg (by omega)]
      rw [hdone] at htotal hP ⊢
      refine ⟨count, io, rfl, .full hall htotal, hof, ?_⟩
      rwa [htotal]
    · have hreq : toSize ((count : Int) - t) = count - t := toSize_eq_natCast (by omega) (by omega)
      have hblock := hm.bound hP
      have hlast : kernel.answer io.answers.length (count - t) =
          kernel.answer io.answers.length (count - total io.answers) := by rw [htotal]
      have hof' := hof.append hlast
      rw [if_pos (by omega), hreq]
      dsimp only
      rw [if_pos (by omega)]
      cases ha : kernel.answer io.answers.length (count - t) with
      | zero =>
        rw [ha] at hof'
        refine ⟨t, _, rfl, ?_, hof', ?_⟩
        · rw [← htotal]
          exact .zero hall (by omega)
        · simpa [IoResult.size, htotal] using hm.answered hP _
      | failed =>
        rw [ha] at hof'
        refine ⟨-1, _, rfl, .failed hall (by omega), hof', ?_⟩
        simpa [IoResult.size, htotal] using hm.answered hP _
      | moved n =>
        rw [ha] at hof'
        obtain ⟨hpos, hle⟩ := kernel.moved_range _ _ _ ha
        obtain ⟨io', hio', hans, hP'⟩ := hm.step (hm.answered hP (io.answers ++ [.moved n])) (n := n) (by omega)
        have hnext : toInt ((t : Int) + n) = (t + n : Nat) := toInt_eq_natCast (by omega) (by omega)
        simp only [hio', ok_bind, hnext]
        refine ih (by omega) (by omega) ?_ ?_ ?_ hP'
        · simp [hans, IoResult.size, htotal]
        · rw [hans]
          exact hall.append n
        · rw [hans]
          exact hof'

theorem streamBytes_length (stream : Nat → UInt8) (start n : Nat) : (streamBytes stream start n).length = n := by
  simp [streamBytes]

theorem streamBytes_append (stream : Nat → UInt8) (start m n : Nat) :
    streamBytes stream start m ++ streamBytes stream (start + m) n = streamBytes stream start (m + n) := by
  simp [streamBytes, List.range_add, Function.comp_def, Nat.add_assoc]

def ReadTo (stream : Nat → UInt8) (block : List UInt8) (t : Nat) (io : Io) : Prop :=
  io.block = streamBytes stream 0 t ++ block.drop t ∧ io.taken = t ∧ t ≤ block.length

def WrittenTo (block : List UInt8) (t : Nat) (io : Io) : Prop := io.block = block ∧ io.sent = block.take t

theorem readBytes_moves (stream : Nat → UInt8) {block : List UInt8} {count : Nat} (h : count ≤ block.length) :
    Moves (readBytes stream) count (ReadTo stream block) where
  bound := by
    rintro t io ⟨hblock, -, hle⟩
    rw [hblock, List.length_append, streamBytes_length, List.length_drop]
    omega
  answered h _ := h
  step := by
    rintro t n io ⟨hblock, htaken, hle⟩ hn
    have hlen : (streamBytes stream 0 t).length = t := streamBytes_length ..
    have hcopy : memcpy io.block t (streamBytes stream t n) n =
        .ok (streamBytes stream 0 (t + n) ++ block.drop (t + n)) := by
      have hdrop : io.block.drop (t + n) = block.drop (t + n) := by
        rw [hblock, List.drop_append, List.drop_of_length_le (by omega), hlen, Nat.add_sub_cancel_left,
          List.nil_append, List.drop_drop]
      have hlength : t + n ≤ io.block.length := by
        rw [hblock, List.length_append, hlen, List.length_drop]
        omega
      rw [memcpy_ok (by rw [streamBytes_length]) hlength, hdrop, hblock, List.take_left' hlen,
        List.take_of_length_le (by rw [streamBytes_length])]
      rw [← streamBytes_append, Nat.zero_add]
    refine ⟨{ io with block := streamBytes stream 0 (t + n) ++ block.drop (t + n), taken := t + n }, ?_, rfl, ?_⟩
    · rw [readBytes, htaken, hcopy]
      rfl
    · exact ⟨rfl, rfl, by omega⟩

theorem writeBytes_moves {block : List UInt8} {count : Nat} (h : count ≤ block.length) :
    Moves writeBytes count (WrittenTo block) where
  bound := by
    rintro t io ⟨hblock, -⟩
    rwa [hblock]
  answered h _ := h
  step := by
    rintro t n io ⟨hblock, hsent⟩ hn
    refine ⟨{ io with sent := io.sent ++ (io.block.drop t).take n }, ?_, rfl, hblock, ?_⟩
    · rw [writeBytes, if_pos (by rw [hblock]; omega)]
    · dsimp only
      rw [hsent, hblock, List.take_add]

theorem Moves.start {move : Nat → Nat → Io → Except Fault Io} {count : Nat} {P : Nat → Io → Prop}
    (hm : Moves move count P) (hcount : count < 2 ^ 31) (kernel : Kernel) {block : List UInt8}
    (hP : P 0 (Io.start block)) :
    ∃ ret io, shortCountLoop kernel move count (count + 1) 0 0 (Io.start block) = .ok (ret, io) ∧
      Returned count io.answers ret ∧ AnswersOf kernel count io.answers ∧ P (total io.answers) io := by
  refine shortCountLoop_ok hm hcount (by omega) (Nat.zero_le _) rfl ?_ ?_ hP
  · intro a ha
    cases ha
  · intro i a ha
    cases ha

def Transferred (kernel : Kernel) (count : Int) (ret : Int) (io : Io) : Prop :=
  total io.answers ≤ count.toNat ∧ Returned count.toNat io.answers ret ∧
    AnswersOf kernel count.toNat io.answers

theorem anetRead_ok (kernel : Kernel) (stream : Nat → UInt8) {block : List UInt8} {count : Int} (h : 0 ≤ count)
    (hlt : count < 2 ^ 31) (hblock : count ≤ block.length) :
    ∃ ret io, anetRead kernel stream block count = .ok (ret, io) ∧ Transferred kernel count ret io ∧
      ReadTo stream block (total io.answers) io := by
  obtain ⟨n, rfl⟩ := Int.eq_ofNat_of_zero_le h
  have hm := readBytes_moves stream (show n ≤ block.length by omega)
  obtain ⟨ret, io, hrun, hret, hof, hP⟩ :=
    hm.start (by omega) kernel (show ReadTo stream block 0 _ from ⟨rfl, rfl, Nat.zero_le _⟩)
  exact ⟨ret, io, hrun, ⟨hret.total_le, hret, hof⟩, hP⟩

theorem anetWrite_ok (kernel : Kernel) {block : List UInt8} {count : Int} (h : 0 ≤ count)
    (hlt : count < 2 ^ 31) (hblock : count ≤ block.length) :
    ∃ ret io, anetWrite kernel block count = .ok (ret, io) ∧ Transferred kernel count ret io ∧
      WrittenTo block (total io.answers) io := by
  obtain ⟨n, rfl⟩ := Int.eq_ofNat_of_zero_le h
  have hm := writeBytes_moves (show n ≤ block.length by omega)
  obtain ⟨ret, io, hrun, hret, hof, hP⟩ := hm.start (by omega) kernel (show WrittenTo block 0 _ from ⟨rfl, rfl⟩)
  exact ⟨ret, io, hrun, ⟨hret.total_le, hret, hof⟩, hP⟩

theorem anetRead_anetWrite_short_counts (kernel : Kernel) (stream : Nat → UInt8) {block : List UInt8}
    {count : Int} (h : 0 ≤ count) (hlt : count < 2 ^ 31) (hblock : count ≤ block.length) :
    (∃ ret io, anetRead kernel stream block count = .ok (ret, io) ∧ Transferred kernel count ret io ∧
      io.block = streamBytes stream 0 (total io.answers) ++ block.drop (total io.answers) ∧
      io.taken = total io.answers) ∧
    (∃ ret io, anetWrite kernel block count = .ok (ret, io) ∧ Transferred kernel count ret io ∧
      io.block = block ∧ io.sent = block.take (total io.answers)) ∧
    ((∀ i n, 0 < n → ∃ k, kernel.answer i n = .moved k) →
      (∃ io, anetRead kernel stream block count = .ok (count, io) ∧
        io.block = streamBytes stream 0 count.toNat ++ block.drop count.toNat) ∧
      ∃ io, anetWrite kernel block count = .ok (count, io) ∧ io.sent = block.take count.toNat) := by
  obtain ⟨rret, rio, hread, hrt, hrblock, hrtaken, -⟩ := anetRead_ok kernel stream h hlt hblock
  obtain ⟨wret, wio, hwrite, hwt, hwblock, hwsent⟩ := anetWrite_ok kernel h hlt hblock
  refine ⟨⟨rret, rio, hread, hrt, hrblock, hrtaken⟩, ⟨wret, wio, hwrite, hwt, hwblock, hwsent⟩, ?_⟩
  intro hmoves
  obtain ⟨rfl, hrtotal⟩ := hrt.2.1.of_moves hrt.2.2 hmoves
  obtain ⟨rfl, hwtotal⟩ := hwt.2.1.of_moves hwt.2.2 hmoves
  rw [hrtotal] at hrblock
  rw [hwtotal] at hwsent
  rw [Int.toNat_of_nonneg h] at hread hwrite
  exact ⟨⟨rio, hread, hrblock⟩, wio, hwrite, hwsent⟩

def pairs : Kernel where
  answer _ n := if n = 0 then .zero else .moved (min 2 n)
  moved_range i n k h := by
    split at h
    · cases h
    · cases h
      omega

theorem three_bytes_in_pairs :
    (∃ io, anetRead pairs (fun i => i.toUInt8) [9, 9, 9, 9] 3 = .ok (3, io) ∧ io.block = [0, 1, 2, 9]) ∧
      ∃ io, anetWrite pairs [5, 6, 7, 8] 3 = .ok (3, io) ∧ io.sent = [5, 6, 7] := by
  have hmoves : ∀ i n, 0 < n → ∃ k, pairs.answer i n = .moved k := fun i n hn => ⟨min 2 n, if_neg (by omega)⟩
  obtain ⟨-, -, hr⟩ := @anetRead_anetWrite_short_counts pairs (fun i => i.toUInt8) [9, 9, 9, 9] 3
    (by decide) (by decide) (by decide)
  obtain ⟨-, -, hw⟩ := @anetRead_anetWrite_short_counts pairs (fun i => i.toUInt8) [5, 6, 7, 8] 3
    (by decide) (by decide) (by decide)
  exact ⟨(hr hmoves).1, (hw hmoves).2⟩

end CPractice
