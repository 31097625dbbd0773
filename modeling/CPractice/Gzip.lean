import CPractice.Lib.Block
import CPractice.Lib.CInt
import Mathlib.Logic.Relation

/-! `gzcompress` and `gzdecompress` against every sequence of answers that `deflate` and
`inflate` can give. -/

namespace CPractice

open CMem CInt

inductive ZResult where
  | Z_OK
  | Z_STREAM_END
  | Z_NEED_DICT
  | Z_STREAM_ERROR
  | Z_DATA_ERROR
  | Z_MEM_ERROR
  | Z_BUF_ERROR
  | Z_VERSION_ERROR
  deriving DecidableEq, Repr

structure ZAnswer where
  err : ZResult
  consumed : Nat
  produced : Nat
  deriving DecidableEq, Repr

/-- `inflate` answers by the number of the call, `avail_in` and `avail_out`. It reports
`Z_OK` only when there was some progress, and `Z_BUF_ERROR` otherwise. -/
structure Zlib where
  inflateInit2 : ZResult
  inflate : Nat → Nat → Nat → ZAnswer
  inflateEnd : ZResult
  consumed_le : ∀ i availIn availOut, (inflate i availIn availOut).consumed ≤ availIn
  produced_le : ∀ i availIn availOut, (inflate i availIn availOut).produced ≤ availOut
  progress : ∀ i availIn availOut, (inflate i availIn availOut).err = .Z_OK →
    0 < (inflate i availIn availOut).consumed + (inflate i availIn availOut).produced

inductive InBlock where
  | zdata
  | dummy_head
  deriving DecidableEq, Repr

/-- The pointers are a block and an offset in it, and `answers` what `inflate` has answered so far. -/
structure ZStream where
  next_in : InBlock × Nat
  avail_in : Nat
  total_in : Nat
  next_out : Nat
  avail_out : Nat
  total_out : Nat
  answers : List ZAnswer
  deriving DecidableEq, Repr

def Zlib.call (z : Zlib) (d : ZStream) : ZResult × ZStream :=
  let a := z.inflate d.answers.length d.avail_in d.avail_out
  (a.err,
    { next_in := (d.next_in.1, d.next_in.2 + a.consumed)
      avail_in := d.avail_in - a.consumed
      total_in := d.total_in + a.consumed
      next_out := d.next_out + a.produced
      avail_out := d.avail_out - a.produced
      total_out := d.total_out + a.produced
      answers := d.answers ++ [a] })

inductive Left where
  | loop
  | function (ret : Int)
  deriving DecidableEq, Repr

def decompressLoop (z : Zlib) (nzdata ndata : Nat) : Nat → ZStream → Except Fault (Left × ZStream)
  | 0, _ => .error .diverges
  | fuel + 1, d =>
    if d.total_out < ndata ∧ d.total_in < nzdata then
      let (err, d) := z.call { d with avail_in := 1, avail_out := 1 }
      if err = .Z_STREAM_END then .ok (.loop, d)
      else if err ≠ .Z_OK then
        if err = .Z_DATA_ERROR then
          let (err, d) := z.call { d with next_in := (.dummy_head, 0), avail_in := 2 }
          if err ≠ .Z_OK then .ok (.function (-1), d) else decompressLoop z nzdata ndata fuel d
        else .ok (.function (-1), d)
      else decompressLoop z nzdata ndata fuel d
    else .ok (.loop, d)

/-- `ended` says whether `inflateEnd` has been called. -/
structure Decompressed where
  ret : Int
  ndata : Nat
  answers : List ZAnswer
  ended : Bool
  deriving DecidableEq, Repr

def afterLoop (z : Zlib) (ndata : Nat) (d : ZStream) : Left → Decompressed
  | .function ret => { ret, ndata, answers := d.answers, ended := false }
  | .loop =>
    if z.inflateEnd ≠ .Z_OK then { ret := -1, ndata, answers := d.answers, ended := true }
    else { ret := 0, ndata := d.total_out, answers := d.answers, ended := true }

def gzdecompress (z : Zlib) (nzdata ndata : Nat) : Except Fault Decompressed :=
  let d : ZStream :=
    { next_in := (.zdata, 0), avail_in := 0, total_in := 0, next_out := 0, avail_out := 0, total_out := 0, answers := [] }
  if z.inflateInit2 ≠ .Z_OK then .ok { ret := -1, ndata, answers := [], ended := false }
  else do
    let (left, d) ← decompressLoop z nzdata ndata (nzdata + ndata + 1) d
    return afterLoop z ndata d left

structure Position where
  calls : Nat
  total_in : Nat
  total_out : Nat

def Position.Below (nzdata ndata : Nat) (p : Position) : Prop := p.total_out < ndata ∧ p.total_in < nzdata

def Position.left (nzdata ndata : Nat) (p : Position) : Nat := (nzdata - p.total_in) + (ndata - p.total_out)

def Zlib.at (z : Zlib) (p : Position) : ZAnswer := z.inflate p.calls 1 1

def Zlib.retryAt (z : Zlib) (p : Position) : ZAnswer := z.inflate (p.calls + 1) 2 (1 - (z.at p).produced)

def Position.after (p : Position) (a : ZAnswer) : Position :=
  ⟨p.calls + 1, p.total_in + a.consumed, p.total_out + a.produced⟩

/-- One round of calls after which the decompression goes on. -/
inductive Round (z : Zlib) (p : Position) : Position → Prop
  | plain (h : (z.at p).err = .Z_OK) : Round z p (p.after (z.at p))
  | retried (h : (z.at p).err = .Z_DATA_ERROR) (hretry : (z.retryAt p).err = .Z_OK) :
    Round z p ((p.after (z.at p)).after (z.retryAt p))

abbrev Rounds (z : Zlib) : Position → Prop := Relation.ReflTransGen (Round z) ⟨0, 0, 0⟩

/-- `inflate` reports the end of the stream while there are input and room left. -/
def StreamEnds (z : Zlib) (nzdata ndata : Nat) : Prop :=
  ∃ p, Rounds z p ∧ p.Below nzdata ndata ∧ (z.at p).err = .Z_STREAM_END

/-- The input or the room is used up before that. -/
def RunsOut (z : Zlib) (nzdata ndata : Nat) : Prop := ∃ p, Rounds z p ∧ ¬ p.Below nzdata ndata

/-- `inflate` reports an error that is not made up for. -/
def Breaks (z : Zlib) (nzdata ndata : Nat) : Prop :=
  ∃ p, Rounds z p ∧ p.Below nzdata ndata ∧ (z.at p).err ≠ .Z_STREAM_END ∧ ∀ q, ¬ Round z p q

theorem Round.rightUnique (z : Zlib) : Relator.RightUnique (Round z) := by
  intro p q q' h h'
  cases h with
  | plain h =>
    cases h' with
    | plain => rfl
    | retried h' => exact absurd (h.symm.trans h') (by decide)
  | retried h =>
    cases h' with
    | plain h' => exact absurd (h.symm.trans h') (by decide)
    | retried => rfl

theorem not_round_of_streamEnd {z : Zlib} {p : Position} (h : (z.at p).err = .Z_STREAM_END) (q : Position) :
    ¬ Round z p q := by
  intro hr
  cases hr with
  | plain h' => exact absurd (h.symm.trans h') (by decide)
  | retried h' => exact absurd (h.symm.trans h') (by decide)

theorem Round.below_of_below {z : Zlib} {nzdata ndata : Nat} {p q : Position} (h : Round z p q)
    (hq : q.Below nzdata ndata) : p.Below nzdata ndata := by
  cases h with
  | plain => simp only [Position.Below, Position.after] at hq ⊢; omega
  | retried => simp only [Position.Below, Position.after] at hq ⊢; omega

theorem Round.left_lt {z : Zlib} {nzdata ndata : Nat} {p q : Position} (h : Round z p q)
    (hp : p.Below nzdata ndata) : q.left nzdata ndata < p.left nzdata ndata := by
  cases h with
  | plain h =>
    have hprogress : 0 < (z.at p).consumed + (z.at p).produced := z.progress _ _ _ h
    simp only [Position.Below, Position.left, Position.after] at hp ⊢
    omega
  | retried _ h =>
    have hprogress : 0 < (z.retryAt p).consumed + (z.retryAt p).produced := z.progress _ _ _ h
    simp only [Position.Below, Position.left, Position.after] at hp ⊢
    omega

theorem eq_of_no_round {z : Zlib} {p q : Position} (h : ∀ q, ¬ Round z p q)
    (hpq : Relation.ReflTransGen (Round z) p q) : p = q := by
  rcases Relation.ReflTransGen.cases_head hpq with rfl | ⟨r, hr, -⟩
  · rfl
  · exact absurd hr (h r)

theorem below_of_rounds {z : Zlib} {nzdata ndata : Nat} {p q : Position}
    (h : Relation.ReflTransGen (Round z) p q) (hq : q.Below nzdata ndata) : p.Below nzdata ndata := by
  induction h using Relation.ReflTransGen.head_induction_on with
  | refl => exact hq
  | head hr _ ih => exact hr.below_of_below ih

theorem not_runsOut {z : Zlib} {nzdata ndata : Nat} {p : Position} (hp : Rounds z p)
    (hbelow : p.Below nzdata ndata) (hstuck : ∀ q, ¬ Round z p q) : ¬ RunsOut z nzdata ndata := by
  rintro ⟨q, hq, hout⟩
  rcases Relation.ReflTransGen.total_of_right_unique (Round.rightUnique z) hp hq with h | h
  · exact hout (eq_of_no_round hstuck h ▸ hbelow)
  · exact hout (below_of_rounds h hbelow)

theorem StreamEnds.not_runsOut {z : Zlib} {nzdata ndata : Nat} (h : StreamEnds z nzdata ndata) :
    ¬ RunsOut z nzdata ndata := by
  obtain ⟨p, hp, hbelow, hend⟩ := h
  exact CPractice.not_runsOut hp hbelow (not_round_of_streamEnd hend)

theorem Breaks.not_runsOut {z : Zlib} {nzdata ndata : Nat} (h : Breaks z nzdata ndata) :
    ¬ RunsOut z nzdata ndata := by
  obtain ⟨p, hp, hbelow, -, hstuck⟩ := h
  exact CPractice.not_runsOut hp hbelow hstuck

theorem Breaks.not_streamEnds {z : Zlib} {nzdata ndata : Nat} (h : Breaks z nzdata ndata) :
    ¬ StreamEnds z nzdata ndata := by
  obtain ⟨p, hp, hbelow, hne, hstuck⟩ := h
  rintro ⟨q, hq, -, hend⟩
  rcases Relation.ReflTransGen.total_of_right_unique (Round.rightUnique z) hp hq with h | h
  · obtain rfl := eq_of_no_round hstuck h
    exact hne hend
  · obtain rfl := eq_of_no_round (not_round_of_streamEnd hend) h
    exact hne hend

def ZStream.position (d : ZStream) : Position := ⟨d.answers.length, d.total_in, d.total_out⟩

theorem call_main (z : Zlib) (d : ZStream) :
    ∃ d', z.call { d with avail_in := 1, avail_out := 1 } = ((z.at d.position).err, d') ∧
      d'.position = d.position.after (z.at d.position) ∧ d'.answers = d.answers ++ [z.at d.position] ∧
      d'.avail_out = 1 - (z.at d.position).produced := by
  refine ⟨_, rfl, ?_, rfl, rfl⟩
  simp [ZStream.position, Position.after, Zlib.at]

theorem call_retry (z : Zlib) {d : ZStream} {p : Position} (hp : d.position = p.after (z.at p))
    (hout : d.avail_out = 1 - (z.at p).produced) :
    ∃ d', z.call { d with next_in := (.dummy_head, 0), avail_in := 2 } = ((z.retryAt p).err, d') ∧
      d'.position = (p.after (z.at p)).after (z.retryAt p) ∧ d'.answers = d.answers ++ [z.retryAt p] := by
  have hcalls : d.answers.length = p.calls + 1 := congrArg Position.calls hp
  have hretry : z.inflate d.answers.length 2 d.avail_out = z.retryAt p := by rw [hcalls, hout, Zlib.retryAt]
  refine ⟨_, Prod.ext (congrArg ZAnswer.err hretry) rfl, ?_, congrArg (d.answers ++ [·]) hretry⟩
  rw [← hp]
  simp [ZStream.position, Position.after, Zlib.call, hretry]

inductive LeftAs (z : Zlib) (nzdata ndata : Nat) (answers : List ZAnswer) : Left → Prop
  | ended (h : StreamEnds z nzdata ndata) (hmem : ∃ a ∈ answers, a.err = .Z_STREAM_END) :
    LeftAs z nzdata ndata answers .loop
  | ranOut (h : RunsOut z nzdata ndata) (hnone : ∀ a ∈ answers, a.err ≠ .Z_STREAM_END) :
    LeftAs z nzdata ndata answers .loop
  | broke (h : Breaks z nzdata ndata) : LeftAs z nzdata ndata answers (.function (-1))

theorem decompressLoop_ok {z : Zlib} {nzdata ndata fuel : Nat} {d : ZStream}
    (hfuel : d.position.left nzdata ndata < fuel) (h : Rounds z d.position)
    (hnone : ∀ a ∈ d.answers, a.err ≠ .Z_STREAM_END) :
    ∃ left d', decompressLoop z nzdata ndata fuel d = .ok (left, d') ∧ LeftAs z nzdata ndata d'.answers left := by
  induction fuel generalizing d with
  | zero => omega
  | succ fuel ih =>
    rw [decompressLoop]
    by_cases hbelow : d.total_out < ndata ∧ d.total_in < nzdata
    · obtain ⟨d₁, hcall, hpos, hans, hout⟩ := call_main z d
      rw [if_pos hbelow, hcall]
      dsimp only
      by_cases hend : (z.at d.position).err = .Z_STREAM_END
      · rw [if_pos hend]
        refine ⟨.loop, d₁, rfl, .ended ⟨d.position, h, hbelow, hend⟩ ⟨z.at d.position, ?_, hend⟩⟩
        rw [hans]
        exact List.mem_append_right _ (List.mem_singleton_self _)
      · rw [if_neg hend]
        have hnone₁ : ∀ a ∈ d₁.answers, a.err ≠ .Z_STREAM_END := by
          rw [hans]
          exact List.forall_mem_append.mpr ⟨hnone, List.forall_mem_singleton.mpr hend⟩
        by_cases hok : (z.at d.position).err = .Z_OK
        · rw [if_neg (not_not.mpr hok)]
          have hround : Round z d.position d₁.position := hpos ▸ .plain hok
          have hless := hround.left_lt hbelow
          exact ih (by omega) (h.tail hround) hnone₁
        · rw [if_pos hok]
          by_cases hdata : (z.at d.position).err = .Z_DATA_ERROR
          · obtain ⟨d₂, hcall₂, hpos₂, hans₂⟩ := call_retry z hpos hout
            rw [if_pos hdata, hcall₂]
            dsimp only
            by_cases hretry : (z.retryAt d.position).err = .Z_OK
            · rw [if_neg (not_not.mpr hretry)]
              have hround : Round z d.position d₂.position := hpos₂ ▸ .retried hdata hretry
              have hless := hround.left_lt hbelow
              refine ih (by omega) (h.tail hround) ?_
              rw [hans₂]
              refine List.forall_mem_append.mpr ⟨hnone₁, List.forall_mem_singleton.mpr ?_⟩
              rw [hretry]
              decide
            · rw [if_pos hretry]
              refine ⟨_, d₂, rfl, .broke ⟨d.position, h, hbelow, hend, fun q hq => ?_⟩⟩
              cases hq with
              | plain h => exact hok h
              | retried _ h => exact hretry h
          · rw [if_neg hdata]
            refine ⟨_, d₁, rfl, .broke ⟨d.position, h, hbelow, hend, fun q hq => ?_⟩⟩
            cases hq with
            | plain h => exact hok h
            | retried h _ => exact hdata h
    · rw [if_neg hbelow]
      exact ⟨.loop, d, rfl, .ranOut ⟨d.position, h, hbelow⟩ hnone⟩

/-- Success is reported only at the end of the stream, and the stream is released. -/
def Honest (z : Zlib) (r : Decompressed) : Prop :=
  (r.ret = 0 → ∃ a ∈ r.answers, a.err = .Z_STREAM_END) ∧ (z.inflateInit2 = .Z_OK → r.ended = true)

theorem honest_run_iff {z : Zlib} {r : Decompressed} :
    (∃ r', (.ok r : Except Fault Decompressed) = .ok r' ∧ Honest z r') ↔ Honest z r := by
  constructor
  · rintro ⟨r', hr, hh⟩
    rwa [Except.ok.inj hr]
  · exact fun hh => ⟨r, rfl, hh⟩

theorem afterLoop_honest_of_end (z : Zlib) (ndata : Nat) {d : ZStream}
    (h : ∃ a ∈ d.answers, a.err = .Z_STREAM_END) : Honest z (afterLoop z ndata d .loop) := by
  rw [afterLoop]
  split
  · exact ⟨fun _ => h, fun _ => rfl⟩
  · exact ⟨fun _ => h, fun _ => rfl⟩

theorem afterLoop_honest_iff (z : Zlib) (ndata : Nat) {d : ZStream}
    (h : ∀ a ∈ d.answers, a.err ≠ .Z_STREAM_END) :
    Honest z (afterLoop z ndata d .loop) ↔ z.inflateEnd ≠ .Z_OK := by
  rw [afterLoop]
  split
  case isTrue hend => exact iff_of_true ⟨fun hr => absurd hr (by simp), fun _ => rfl⟩ hend
  case isFalse hend =>
    refine iff_of_false (fun hh => ?_) hend
    obtain ⟨a, ha, haend⟩ := hh.1 rfl
    exact h a ha haend

theorem gzdecompress_honest_iff (z : Zlib) (nzdata ndata : Nat) :
    (∃ r, gzdecompress z nzdata ndata = .ok r ∧ Honest z r) ↔
      z.inflateInit2 ≠ .Z_OK ∨ StreamEnds z nzdata ndata ∨
        RunsOut z nzdata ndata ∧ z.inflateEnd ≠ .Z_OK := by
  by_cases hinit : z.inflateInit2 = .Z_OK
  · obtain ⟨left, d, hloop, hleft⟩ := @decompressLoop_ok z nzdata ndata (nzdata + ndata + 1)
      ⟨(.zdata, 0), 0, 0, 0, 0, 0, []⟩ (Nat.lt_succ_self _) .refl (by simp)
    have hrun : gzdecompress z nzdata ndata = .ok (afterLoop z ndata d left) := by
      rw [gzdecompress, if_neg (not_not.mpr hinit), hloop]
      rfl
    rw [hrun, honest_run_iff, or_iff_right (not_not.mpr hinit)]
    cases hleft with
    | ended h hmem => exact iff_of_true (afterLoop_honest_of_end z ndata hmem) (.inl h)
    | ranOut h hnone =>
      rw [afterLoop_honest_iff z ndata hnone]
      exact ⟨fun hend => .inr ⟨h, hend⟩, fun hc => (hc.resolve_left fun he => he.not_runsOut h).2⟩
    | broke h =>
      refine iff_of_false (fun hh => absurd (hh.2 hinit) Bool.false_ne_true) ?_
      rintro (hends | ⟨hout, -⟩)
      · exact h.not_streamEnds hends
      · exact h.not_runsOut hout
  · have hrun : gzdecompress z nzdata ndata = .ok ⟨-1, ndata, [], false⟩ := by rw [gzdecompress, if_pos hinit]
    rw [hrun, honest_run_iff]
    exact iff_of_true ⟨fun hr => absurd hr (by simp), fun h => absurd h hinit⟩ (.inl hinit)

def truncated : Zlib where
  inflateInit2 := .Z_OK
  inflate _ availIn _ := if availIn = 0 then ⟨.Z_BUF_ERROR, 0, 0⟩ else ⟨.Z_OK, 1, 0⟩
  inflateEnd := .Z_OK
  consumed_le i availIn availOut := by
    split
    · exact Nat.zero_le _
    · exact Nat.one_le_iff_ne_zero.mpr ‹_›
  produced_le i availIn availOut := by
    split
    · exact Nat.zero_le _
    · exact Nat.zero_le _
  progress i availIn availOut h := by
    split at h
    · cases h
    · rw [if_neg ‹_›]
      exact Nat.one_pos

theorem gzdecompress_truncated :
    ¬ (∀ (z : Zlib) (nzdata ndata : Nat), ∃ r, gzdecompress z nzdata ndata = .ok r ∧ Honest z r) ∧
      (gzdecompress truncated 2 8).map (fun r => (r.ret, r.ndata)) = .ok (0, 0) ∧
      (gzdecompress truncated 2 8).map (fun r => r.answers.any (·.err = .Z_STREAM_END)) = .ok false := by
  refine ⟨fun h => ?_, by decide, by decide⟩
  obtain ⟨r, hr, hzero, -⟩ := h truncated 2 8
  obtain rfl : r = ⟨0, 0, [⟨.Z_OK, 1, 0⟩, ⟨.Z_OK, 1, 0⟩], true⟩ := by
    exact Except.ok.inj (hr.symm.trans (by decide))
  obtain ⟨a, ha, haend⟩ := hzero rfl
  simp only [List.mem_cons, List.not_mem_nil, or_false, or_self] at ha
  rw [ha] at haend
  cases haend

/-- `deflate` answers by the number of the call, whether it is `Z_FINISH`, `avail_in` and
`avail_out`. -/
structure Deflater where
  deflateInit2 : ZResult
  deflate : Nat → Bool → Nat → Nat → ZAnswer
  deflateEnd : ZResult
  consumed_le : ∀ i finish availIn availOut, (deflate i finish availIn availOut).consumed ≤ availIn
  produced_le : ∀ i finish availIn availOut, (deflate i finish availIn availOut).produced ≤ availOut
  progress : ∀ i finish availIn availOut, (deflate i finish availIn availOut).err = .Z_OK →
    0 < (deflate i finish availIn availOut).consumed + (deflate i finish availIn availOut).produced

structure CStream where
  avail_in : Nat
  avail_out : Nat
  total_out : Nat
  answers : List ZAnswer
  deriving DecidableEq, Repr

def Deflater.call (z : Deflater) (finish : Bool) (c : CStream) : ZResult × CStream :=
  let a := z.deflate c.answers.length finish c.avail_in c.avail_out
  (a.err,
    { avail_in := c.avail_in - a.consumed
      avail_out := c.avail_out - a.produced
      total_out := c.total_out + a.produced
      answers := c.answers ++ [a] })

def compressLoop (z : Deflater) (nzdata : Nat) : Nat → CStream → Except Fault (Left × CStream)
  | 0, _ => .error .diverges
  | fuel + 1, c =>
    if c.avail_in ≠ 0 ∧ c.total_out < nzdata then
      let (err, c) := z.call false c
      if err ≠ .Z_OK then .ok (.function (-1), c) else compressLoop z nzdata fuel c
    else .ok (.loop, c)

def finishLoop (z : Deflater) : Nat → CStream → Except Fault (Left × CStream)
  | 0, _ => .error .diverges
  | fuel + 1, c =>
    let (err, c) := z.call true c
    if err = .Z_STREAM_END then .ok (.loop, c)
    else if err ≠ .Z_OK then .ok (.function (-1), c)
    else finishLoop z fuel c

/-- `avail_in` is what `deflate` has left of its input, and `ended` says whether `deflateEnd` has been called. -/
structure Compressed where
  ret : Int
  nzdata : Nat
  answers : List ZAnswer
  avail_in : Nat
  ended : Bool
  deriving DecidableEq, Repr

def afterFinish (z : Deflater) (nzdata : Nat) (c : CStream) : Left → Compressed
  | .function ret => { ret, nzdata, answers := c.answers, avail_in := c.avail_in, ended := false }
  | .loop =>
    if z.deflateEnd ≠ .Z_OK then { ret := -1, nzdata, answers := c.answers, avail_in := c.avail_in, ended := true }
    else { ret := 0, nzdata := c.total_out, answers := c.answers, avail_in := c.avail_in, ended := true }

def afterCompress (z : Deflater) (nzdata : Nat) (c : CStream) : Left → Except Fault Compressed
  | .function ret => .ok { ret, nzdata, answers := c.answers, avail_in := c.avail_in, ended := false }
  | .loop =>
    if c.avail_in ≠ 0 then
      .ok { ret := toInt c.avail_in, nzdata, answers := c.answers, avail_in := c.avail_in, ended := false }
    else do
      let (left, c) ← finishLoop z (c.avail_out + 1) c
      return afterFinish z nzdata c left

/-- `avail_in` and `avail_out` are 32 bits wide. -/
def gzcompress (z : Deflater) (data : Bool) (ndata nzdata : Nat) : Except Fault Compressed :=
  let c : CStream := { avail_in := ndata % 2 ^ 32, avail_out := nzdata % 2 ^ 32, total_out := 0, answers := [] }
  let failed : Compressed := { ret := -1, nzdata, answers := [], avail_in := c.avail_in, ended := false }
  if data = true ∧ ndata > 0 then
    if z.deflateInit2 ≠ .Z_OK then .ok failed
    else do
      let (left, c) ← compressLoop z nzdata (c.avail_in + c.avail_out + 1) c
      afterCompress z nzdata c left
  else .ok failed

section Compress

variable {z : Deflater} {nzdata fuel : Nat} {c : CStream}

theorem Deflater.call_left_lt {finish : Bool} (h : (z.call finish c).1 = .Z_OK) :
    (z.call finish c).2.avail_in + (z.call finish c).2.avail_out < c.avail_in + c.avail_out := by
  have hprogress := z.progress _ _ _ _ h
  have hin := z.consumed_le c.answers.length finish c.avail_in c.avail_out
  have hout := z.produced_le c.answers.length finish c.avail_in c.avail_out
  simp only [Deflater.call]
  omega

theorem Deflater.call_avail_in_le (z : Deflater) (finish : Bool) (c : CStream) :
    (z.call finish c).2.avail_in ≤ c.avail_in :=
  Nat.sub_le _ _

theorem compressLoop_ok (hfuel : c.avail_in + c.avail_out < fuel) :
    ∃ left c', compressLoop z nzdata fuel c = .ok (left, c') ∧ c'.avail_in ≤ c.avail_in ∧
      ∀ ret, left = .function ret → ret = -1 := by
  induction fuel generalizing c with
  | zero => omega
  | succ fuel ih =>
    rw [compressLoop]
    by_cases hgo : c.avail_in ≠ 0 ∧ c.total_out < nzdata
    · rw [if_pos hgo]
      by_cases hok : (z.call false c).1 = .Z_OK
      · have hless := Deflater.call_left_lt hok
        have hle := z.call_avail_in_le false c
        obtain ⟨left, c', hloop, havail, hret⟩ := ih (c := (z.call false c).2) (by omega)
        exact ⟨left, c', by rw [← hloop]; exact if_neg (not_not.mpr hok), havail.trans hle, hret⟩
      · exact ⟨_, _, if_pos hok, z.call_avail_in_le false c, fun ret hret => (Left.function.inj hret).symm⟩
    · exact ⟨_, c, if_neg hgo, le_rfl, fun ret hret => by cases hret⟩

theorem finishLoop_ok (hin : c.avail_in = 0) (hfuel : c.avail_out < fuel) :
    ∃ left c', finishLoop z fuel c = .ok (left, c') ∧ c'.avail_in = 0 ∧
      (left = .loop → ∃ a ∈ c'.answers, a.err = .Z_STREAM_END) ∧ ∀ ret, left = .function ret → ret = -1 := by
  induction fuel generalizing c with
  | zero => omega
  | succ fuel ih =>
    have hin' : (z.call true c).2.avail_in = 0 := by
      have hle := z.call_avail_in_le true c
      omega
    rw [finishLoop]
    by_cases hend : (z.call true c).1 = .Z_STREAM_END
    · refine ⟨_, _, if_pos hend, hin', fun _ => ?_, fun ret hret => by cases hret⟩
      exact ⟨_, List.mem_append_right _ (List.mem_singleton_self _), hend⟩
    · by_cases hok : (z.call true c).1 = .Z_OK
      · have hless := Deflater.call_left_lt hok
        obtain ⟨left, c', hloop, hc'⟩ := ih (c := (z.call true c).2) hin' (by omega)
        refine ⟨left, c', ?_, hc'⟩
        rw [← hloop]
        exact (if_neg hend).trans (if_neg (not_not.mpr hok))
      · refine ⟨_, _, (if_neg hend).trans (if_pos hok), hin', ?_, fun ret hret => (Left.function.inj hret).symm⟩
        intro h
        cases h

/-- Success stands for a stream that has ended, with all of its input. -/
def Compressed.Complete (r : Compressed) : Prop :=
  r.ret = 0 → r.avail_in = 0 ∧ (∃ a ∈ r.answers, a.err = .Z_STREAM_END) ∧ r.ended = true

theorem afterFinish_complete {left : Left} (hin : c.avail_in = 0)
    (hend : left = .loop → ∃ a ∈ c.answers, a.err = .Z_STREAM_END) (hret : ∀ ret, left = .function ret → ret = -1) :
    (afterFinish z nzdata c left).Complete := by
  cases left with
  | function ret =>
    intro hzero
    rw [afterFinish, hret ret rfl] at hzero
    cases hzero
  | loop =>
    rw [afterFinish]
    split
    · intro hzero
      cases hzero
    · exact fun _ => ⟨hin, hend rfl, rfl⟩

theorem afterCompress_complete {left : Left} (hin : c.avail_in < 2 ^ 32)
    (hret : ∀ ret, left = .function ret → ret = -1) :
    ∃ r, afterCompress z nzdata c left = .ok r ∧ r.Complete := by
  cases left with
  | function ret =>
    refine ⟨_, rfl, fun hzero => ?_⟩
    rw [hret ret rfl] at hzero
    cases hzero
  | loop =>
    rw [afterCompress]
    by_cases hzero : c.avail_in = 0
    · obtain ⟨left, c', hloop, hin', hend, hret⟩ := finishLoop_ok (z := z) hzero (Nat.lt_succ_self _)
      rw [if_neg (not_not.mpr hzero), hloop]
      exact ⟨_, rfl, afterFinish_complete hin' hend hret⟩
    · refine ⟨_, if_pos hzero, fun hret => ?_⟩
      simp only [toInt] at hret
      omega

/-- What `gzcompress` does and `gzdecompress` does not. -/
theorem gzcompress_complete (z : Deflater) (data : Bool) (ndata nzdata : Nat) :
    ∃ r, gzcompress z data ndata nzdata = .ok r ∧ r.Complete := by
  rw [gzcompress]
  dsimp only
  split
  · split
    · refine ⟨_, rfl, fun hzero => ?_⟩
      cases hzero
    · obtain ⟨left, c, hloop, hin, hret⟩ := @compressLoop_ok z nzdata _
        ⟨ndata % 2 ^ 32, nzdata % 2 ^ 32, 0, []⟩ (Nat.lt_succ_self _)
      rw [hloop]
      exact afterCompress_complete (Nat.lt_of_le_of_lt hin (Nat.mod_lt _ (by decide))) hret
  · refine ⟨_, rfl, fun hzero => ?_⟩
    cases hzero

end Compress

end CPractice
