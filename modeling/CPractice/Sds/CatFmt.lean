import CPractice.Sds.Decimal
import CPractice.Sds.Sizes

/-! `sdscatfmt`. The position of the next byte is kept three times: in `i`, in `len` and,
from the other end, in `free`. -/

namespace CPractice

open CMem CInt

inductive Arg where
  | cstr (mem : List UInt8)
  | sds (s : Sdshdr)
  | int (v : Int32)
  | longlong (v : Int64)
  | uint (v : UInt32)
  | ulonglong (v : UInt64)
  deriving DecidableEq, Repr

/-- `f` is the offset in the format, and `rooms` the number of calls of `sdsMakeRoomFor`. -/
structure FmtState where
  s : Sdshdr
  i : Int
  f : Nat
  ap : List Arg
  rooms : Nat
  deriving DecidableEq, Repr

/-- `va_arg` on an argument of another type, or on none, is an access out of bounds. A C string
has no header in front of it. -/
def vaStr (next : UInt8) : List Arg → Except Fault (List UInt8 × Nat × List Arg)
  | .cstr mem :: ap => if next = chr 's' then do return (mem, ← strlen mem, ap) else .error .outOfBounds
  | .sds t :: ap => do
    let l ← (if next = chr 's' then strlen t.buf else .ok (sdslen t))
    return (t.buf, l, ap)
  | _ => .error .outOfBounds

def vaSigned (next : UInt8) : List Arg → Except Fault (Int64 × List Arg)
  | .int v :: ap => if next = chr 'i' then .ok (v.toInt64, ap) else .error .outOfBounds
  | .longlong v :: ap => if next = chr 'i' then .error .outOfBounds else .ok (v, ap)
  | _ => .error .outOfBounds

def vaUnsigned (next : UInt8) : List Arg → Except Fault (UInt64 × List Arg)
  | .uint v :: ap => if next = chr 'u' then .ok (v.toUInt64, ap) else .error .outOfBounds
  | .ulonglong v :: ap => if next = chr 'u' then .error .outOfBounds else .ok (v, ap)
  | _ => .error .outOfBounds

/-- `m` gives what the calls of `zrealloc` return. -/
def fmtRoom (m : Nat → Malloc) (st : FmtState) (l : Nat) : Except Fault FmtState := do
  let s ← sdsMakeRoomFor (m st.rooms) st.s l
  return { st with s, rooms := st.rooms + 1 }

def fmtCopy (m : Nat → Malloc) (st : FmtState) (str : List UInt8) (l : Nat) : Except Fault FmtState := do
  let st ← (if sdsavail st.s < l then fmtRoom m st l else .ok st)
  let buf ← memcpyInt st.s.buf st.i str l
  return { st with
    s := { len := toInt (st.s.len + l), free := toInt (st.s.free - l), buf }
    i := toInt (st.i + l) }

def fmtChar (st : FmtState) (c : UInt8) : Except Fault FmtState := do
  let buf ← writeInt st.s.buf st.i c
  return { st with
    s := { len := toInt (st.s.len + 1), free := toInt (st.s.free - 1), buf }
    i := toInt (st.i + 1) }

/-- The inner `switch`. `stack` are the bytes found in `buf[SDS_LLSTR_SIZE]`. -/
def fmtSpecifier (m : Nat → Malloc) (stack : Nat → UInt8) (next : UInt8) (st : FmtState) :
    Except Fault FmtState :=
  if next = chr 's' ∨ next = chr 'S' then do
    let (str, l, ap) ← vaStr next st.ap
    fmtCopy m { st with ap } str l
  else if next = chr 'i' ∨ next = chr 'I' then do
    let (num, ap) ← vaSigned next st.ap
    let (buf, l) ← sdsll2str (freshBytes stack SDS_LLSTR_SIZE) num
    fmtCopy m { st with ap } buf l
  else if next = chr 'u' ∨ next = chr 'U' then do
    let (unum, ap) ← vaUnsigned next st.ap
    let (buf, l) ← sdsull2str (freshBytes stack SDS_LLSTR_SIZE) unum
    fmtCopy m { st with ap } buf l
  else fmtChar st next

/-- One pass of the loop, or `none` when `*f` is the terminator. -/
def fmtRound (m : Nat → Malloc) (stack : Nat → UInt8) (fmt : List UInt8) (st : FmtState) :
    Except Fault (Option FmtState) := do
  let c ← readAt fmt st.f
  if c = 0 then return none
  else
    let st ← (if st.s.free = 0 then fmtRoom m st 1 else .ok st)
    let st ← (if c = chr '%' then do
        let next ← readAt fmt (st.f + 1)
        fmtSpecifier m stack next { st with f := st.f + 1 }
      else fmtChar st c)
    return some { st with f := st.f + 1 }

def fmtLoop (m : Nat → Malloc) (stack : Nat → UInt8) (fmt : List UInt8) : Nat → FmtState → Except Fault FmtState
  | 0, _ => .error .diverges
  | fuel + 1, st => do
    match ← fmtRound m stack fmt st with
    | none => return st
    | some st => fmtLoop m stack fmt fuel st

def FmtState.start (s : Sdshdr) (ap : List Arg) : FmtState :=
  { s, i := toInt (sdslen s), f := 0, ap, rooms := 0 }

def sdscatfmt (m : Nat → Malloc) (stack : Nat → UInt8) (s : Sdshdr) (fmt : List UInt8) (ap : List Arg) :
    Except Fault Sdshdr := do
  let st ← fmtLoop m stack fmt (fmt.length + 1) (FmtState.start s ap)
  let buf ← writeInt st.s.buf st.i 0
  return { st.s with buf }

/-- `cut` is a `%` that nothing follows. -/
inductive Directive where
  | char (c : UInt8)
  | str
  | sds
  | int
  | longlong
  | uint
  | ulonglong
  | cut
  deriving DecidableEq, Repr

def directive (next : UInt8) : Directive :=
  if next = chr 's' then .str
  else if next = chr 'S' then .sds
  else if next = chr 'i' then .int
  else if next = chr 'I' then .longlong
  else if next = chr 'u' then .uint
  else if next = chr 'U' then .ulonglong
  else .char next

def directives : List UInt8 → List Directive
  | [] => []
  | [c] => if c = chr '%' then [.cut] else [.char c]
  | c :: next :: fmt => if c = chr '%' then directive next :: directives fmt else .char c :: directives (next :: fmt)

def renderOne : Directive → List Arg → Option (List UInt8 × List Arg)
  | .char c, ap => some ([c], ap)
  | .str, .cstr mem :: ap => some (cString mem, ap)
  | .str, .sds t :: ap => some (cString t.buf, ap)
  | .sds, .sds t :: ap => some (content t, ap)
  | .int, .int v :: ap => some (decimalInt v.toInt, ap)
  | .longlong, .longlong v :: ap => some (decimalInt v.toInt, ap)
  | .uint, .uint v :: ap => some (decimal v.toNat, ap)
  | .ulonglong, .ulonglong v :: ap => some (decimal v.toNat, ap)
  | .cut, ap => some ([0], ap)
  | _, _ => none

def render : List Directive → List Arg → Option (List UInt8)
  | [], _ => some []
  | d :: ds, ap => do
    let (text, ap) ← renderOne d ap
    return text ++ (← render ds ap)

def Arg.Valid : Arg → Prop
  | .cstr mem => 0 ∈ mem
  | .sds t => Consistent t
  | _ => True

/-- The string under construction: `c` is in the buffer, without a terminator. -/
structure Holds (st : FmtState) (c : List UInt8) : Prop extends Sized st.s where
  len_eq : st.s.len = c.length
  i_eq : st.i = c.length
  bytes : c <+: st.s.buf

theorem Holds.start {s : Sdshdr} (h : Consistent s) (ap : List Arg) : Holds (FmtState.start s ap) (content s) := by
  have hlen := h.content_length
  have hlt := h.len_lt
  have hnonneg := h.len_nonneg
  refine ⟨h.toSized, ?_, ?_, List.take_prefix _ _⟩
  · rw [hlen]
    exact (Int.toNat_of_nonneg hnonneg).symm
  · rw [hlen]
    show toInt (sdslen s) = _
    rw [h.sdslen_eq, toInt_of_range (by omega) (by omega)]

inductive FmtRun (m : Nat → Malloc) (stack : Nat → UInt8) (fmt : List UInt8) : Nat → FmtState → FmtState → Prop
  | refl (st : FmtState) : FmtRun m stack fmt 0 st st
  | head {n : Nat} {st st₁ st₂ : FmtState} (h : fmtRound m stack fmt st = .ok (some st₁))
    (hrun : FmtRun m stack fmt n st₁ st₂) : FmtRun m stack fmt (n + 1) st st₂

theorem FmtRun.loop_eq {m : Nat → Malloc} {stack : Nat → UInt8} {fmt : List UInt8} {n fuel : Nat}
    {st st' : FmtState} (h : FmtRun m stack fmt n st st') (hend : fmtRound m stack fmt st' = .ok none)
    (hfuel : n < fuel) : fmtLoop m stack fmt fuel st = .ok st' := by
  induction h generalizing fuel with
  | refl st =>
    obtain ⟨fuel, rfl⟩ := Nat.exists_eq_add_of_lt hfuel
    rw [Nat.zero_add, fmtLoop, hend, ok_bind]
    rfl
  | head hround _ ih =>
    obtain ⟨fuel, rfl⟩ := Nat.exists_eq_succ_of_ne_zero (Nat.ne_zero_of_lt hfuel)
    rw [fmtLoop, hround, ok_bind]
    exact ih hend (Nat.lt_of_succ_lt_succ hfuel)

theorem renderOne_suffix {d : Directive} {ap ap' : List Arg} {text : List UInt8}
    (h : renderOne d ap = some (text, ap')) : ap' <:+ ap := by
  cases d with
  | char c =>
    cases h
    exact List.suffix_rfl
  | cut =>
    cases h
    exact List.suffix_rfl
  | _ =>
    cases ap with
    | nil => cases h
    | cons a ap => cases a <;> first | (cases h; done) | (cases h; exact List.suffix_cons _ _)

theorem render_cons {d : Directive} {ds : List Directive} {ap : List Arg} {out : List UInt8}
    (h : render (d :: ds) ap = some out) :
    ∃ text ap' rest, renderOne d ap = some (text, ap') ∧ render ds ap' = some rest ∧ out = text ++ rest := by
  rw [render] at h
  obtain ⟨⟨text, ap'⟩, hone, h⟩ := Option.bind_eq_some_iff.mp h
  obtain ⟨rest, hrest, h⟩ := Option.bind_eq_some_iff.mp h
  exact ⟨text, ap', rest, hone, hrest, (Option.some.inj h).symm⟩

section Rounds

variable (fresh : Nat → Nat → UInt8) (stack : Nat → UInt8) {st : FmtState} {c : List UInt8}

theorem Holds.set {f rooms : Nat} {ap : List Arg} (h : Holds st c) : Holds { st with f, ap, rooms } c :=
  ⟨h.toSized, h.len_eq, h.i_eq, h.bytes⟩

theorem fmtRoom_ok (h : Holds st c) {l : Nat} (hl : l + min (c.length + l) SDS_MAX_PREALLOC < 2 ^ 31) :
    ∃ s, fmtRoom (fun k => some (fresh k)) st l = .ok { st with s, rooms := st.rooms + 1 } ∧
      Holds { st with s, rooms := st.rooms + 1 } c ∧ l ≤ s.free := by
  obtain ⟨buf, spare, hroom, hprefix, hsize, hspare⟩ := sdsMakeRoomFor_spare h.toSized (fresh st.rooms)
    (show l < 2 ^ 31 by omega)
  obtain ⟨hle, -⟩ := hspare.lt h.free_lt
  have hlen := h.len_eq
  have hfree := h.free_lt
  have hspare_lt : spare < 2 ^ 31 := by
    rcases hspare with ⟨-, heq⟩ | ⟨-, heq⟩
    · omega
    · rw [hlen, Int.toNat_natCast] at heq
      omega
  have htoInt : toInt (spare : Int) = spare := toInt_of_range (by omega) (by omega)
  rw [htoInt] at hroom
  refine ⟨{ st.s with free := spare, buf }, by rw [fmtRoom, hroom]; rfl, ?_, by simpa using hle⟩
  exact {
    len_nonneg := h.len_nonneg
    len_lt := h.len_lt
    free_nonneg := by simp
    free_lt := by simp only; omega
    size_eq := by simp only; omega
    len_eq := hlen
    i_eq := h.i_eq
    bytes := h.bytes.trans hprefix }

theorem Holds.store (h : Holds st c) (text : List UInt8) {buf : List UInt8} (htext : (text.length : Int) ≤ st.s.free)
    (hlt : c.length + text.length < 2 ^ 31) (hbuf : buf = c ++ text ++ st.s.buf.drop (c.length + text.length)) :
    Holds { st with
      s := { len := toInt (st.s.len + text.length), free := toInt (st.s.free - text.length), buf }
      i := toInt (st.i + text.length) } (c ++ text) := by
  have hlen := h.len_eq
  have hi := h.i_eq
  have hsize := h.size_eq
  have hfree := h.free_lt
  have hpos := toInt_of_range (x := st.s.len + text.length) (by omega) (by omega)
  have hrest := toInt_of_range (x := st.s.free - text.length) (by omega) (by omega)
  have hnext := toInt_of_range (x := st.i + text.length) (by omega) (by omega)
  rw [hpos, hrest, hnext]
  exact {
    len_nonneg := by simp only; omega
    len_lt := by simp only; omega
    free_nonneg := by simp only; omega
    free_lt := by simp only; omega
    size_eq := by
      simp only [hbuf, List.length_append, List.length_drop]
      omega
    len_eq := by simp only [List.length_append]; omega
    i_eq := by simp only [List.length_append]; omega
    bytes := ⟨_, hbuf.symm⟩ }

theorem fmtCopy_ok (h : Holds st c) {str : List UInt8} {l : Nat} (hl : l ≤ str.length) (hlt : c.length + l < 2 ^ 31)
    (hroom : l + min (c.length + l) SDS_MAX_PREALLOC < 2 ^ 31) :
    ∃ st', fmtCopy (fun k => some (fresh k)) st str l = .ok st' ∧ Holds st' (c ++ str.take l) ∧
      st'.f = st.f ∧ st'.ap = st.ap := by
  obtain ⟨s, rooms, hst, h₁, hfree⟩ : ∃ s rooms,
      (if sdsavail st.s < l then fmtRoom (fun k => some (fresh k)) st l else .ok st) = .ok { st with s, rooms } ∧
        Holds { st with s, rooms } c ∧ l ≤ s.free := by
    by_cases hlow : sdsavail st.s < l
    · obtain ⟨s, hroom, hs⟩ := fmtRoom_ok fresh h hroom
      exact ⟨s, st.rooms + 1, by rw [if_pos hlow, hroom], hs⟩
    · refine ⟨st.s, st.rooms, by rw [if_neg hlow], h, ?_⟩
      have hnonneg := h.free_nonneg
      rw [h.sdsavail_eq] at hlow
      omega
  have htl : (str.take l).length = l := List.length_take_of_le hl
  have hsize := h₁.size_eq
  have hlen := h₁.len_eq
  have hstore := h₁.store (str.take l) (by rwa [htl]) (by rwa [htl]) rfl
  have hcopy : memcpyInt s.buf st.i str l = .ok (c ++ str.take l ++ s.buf.drop (c.length + l)) := by
    rw [memcpyInt, h.i_eq, if_pos (by omega), Int.toNat_natCast, memcpy_ok hl (by simp only at hsize hlen; omega),
      ← List.prefix_iff_eq_take.mp h₁.bytes]
  refine ⟨_, ?_, hstore, rfl, rfl⟩
  rw [fmtCopy, hst, ok_bind]
  dsimp only
  rw [hcopy, ok_bind, htl]
  rfl

theorem fmtChar_ok (h : Holds st c) (hlt : c.length + 1 < 2 ^ 31) (hfree : st.s.free ≠ 0) (b : UInt8) :
    ∃ st', fmtChar st b = .ok st' ∧ Holds st' (c ++ [b]) ∧ st'.f = st.f ∧ st'.ap = st.ap := by
  have hnonneg := h.free_nonneg
  have hsize := h.size_eq
  have hlen := h.len_eq
  have hstore := h.store [b] (by simp; omega) (by simpa using hlt) rfl
  have hwrite : writeInt st.s.buf st.i b = .ok (c ++ [b] ++ st.s.buf.drop (c.length + 1)) := by
    rw [writeInt, h.i_eq, if_pos (by omega), Int.toNat_natCast, writeAt_ok (by omega),
      List.set_eq_take_append_cons_drop, if_pos (by omega), ← List.prefix_iff_eq_take.mp h.bytes]
    simp
  refine ⟨_, ?_, hstore, rfl, rfl⟩
  rw [fmtChar, hwrite, ok_bind]
  rfl

theorem vaStr_ok {next : UInt8} {ap : List Arg} {text : List UInt8} {ap' : List Arg}
    (hnext : next = chr 's' ∨ next = chr 'S') (hvalid : ∀ a ∈ ap, a.Valid)
    (h : renderOne (directive next) ap = some (text, ap')) :
    ∃ mem, vaStr next ap = .ok (mem, text.length, ap') ∧ text.length ≤ mem.length ∧ mem.take text.length = text := by
  cases ap with
  | nil => rcases hnext with rfl | rfl <;> cases h
  | cons a ap =>
    have ha := hvalid a List.mem_cons_self
    rcases hnext with rfl | rfl
    · cases a with
      | cstr mem =>
        cases h
        exact ⟨mem, by rw [vaStr, if_pos rfl, strlen_ok ha]; rfl, length_cString_le mem, take_cString mem⟩
      | sds t =>
        cases h
        have hzero : (0 : UInt8) ∈ t.buf := List.mem_of_getElem? (Consistent.terminated ha)
        exact ⟨t.buf, by rw [vaStr, if_pos rfl, strlen_ok hzero]; rfl, length_cString_le _, take_cString _⟩
      | _ => cases h
    · cases a with
      | sds t =>
        cases h
        have ht : Consistent t := ha
        have hlen := ht.content_length
        have hle : (content t).length ≤ t.buf.length := List.length_take_le' _ _
        refine ⟨t.buf, ?_, hle, by rw [hlen]; rfl⟩
        rw [vaStr, if_neg (by decide), ht.sdslen_eq, hlen]
        rfl
      | _ => cases h

theorem vaSigned_ok {next : UInt8} {ap : List Arg} {text : List UInt8} {ap' : List Arg}
    (hnext : next = chr 'i' ∨ next = chr 'I') (h : renderOne (directive next) ap = some (text, ap')) :
    ∃ num, vaSigned next ap = .ok (num, ap') ∧ text = decimalInt num.toInt := by
  rcases hnext with rfl | rfl
  · cases ap with
    | nil => cases h
    | cons a ap =>
      cases a with
      | int v =>
        cases h
        exact ⟨v.toInt64, rfl, by rw [Int32.toInt_toInt64]⟩
      | _ => cases h
  · cases ap with
    | nil => cases h
    | cons a ap =>
      cases a with
      | longlong v =>
        cases h
        exact ⟨v, rfl, rfl⟩
      | _ => cases h

theorem vaUnsigned_ok {next : UInt8} {ap : List Arg} {text : List UInt8} {ap' : List Arg}
    (hnext : next = chr 'u' ∨ next = chr 'U') (h : renderOne (directive next) ap = some (text, ap')) :
    ∃ unum, vaUnsigned next ap = .ok (unum, ap') ∧ text = decimal unum.toNat := by
  rcases hnext with rfl | rfl
  · cases ap with
    | nil => cases h
    | cons a ap =>
      cases a with
      | uint v =>
        cases h
        exact ⟨v.toUInt64, rfl, by rw [UInt32.toNat_toUInt64]⟩
      | _ => cases h
  · cases ap with
    | nil => cases h
    | cons a ap =>
      cases a with
      | ulonglong v =>
        cases h
        exact ⟨v, rfl, rfl⟩
      | _ => cases h

theorem directive_of_other {next : UInt8} (hs : ¬ (next = chr 's' ∨ next = chr 'S'))
    (hi : ¬ (next = chr 'i' ∨ next = chr 'I')) (hu : ¬ (next = chr 'u' ∨ next = chr 'U')) :
    directive next = .char next := by
  simp only [not_or] at hs hi hu
  rw [directive, if_neg hs.1, if_neg hs.2, if_neg hi.1, if_neg hi.2, if_neg hu.1, if_neg hu.2]

theorem fmtSpecifier_ok (h : Holds st c) {next : UInt8} {text : List UInt8} {ap : List Arg}
    (hvalid : ∀ a ∈ st.ap, a.Valid) (hrender : renderOne (directive next) st.ap = some (text, ap))
    (hfree : st.s.free ≠ 0) (hlt : c.length + text.length < 2 ^ 31)
    (hroom : text.length + min (c.length + text.length) SDS_MAX_PREALLOC < 2 ^ 31) :
    ∃ st', fmtSpecifier (fun k => some (fresh k)) stack next st = .ok st' ∧ Holds st' (c ++ text) ∧
      st'.f = st.f ∧ st'.ap = ap := by
  have h₁ : Holds { st with ap } c := h.set
  rw [fmtSpecifier]
  by_cases hs : next = chr 's' ∨ next = chr 'S'
  · obtain ⟨mem, hva, hle, htake⟩ := vaStr_ok hs hvalid hrender
    obtain ⟨st', hcopy, hst', hf, hap⟩ := fmtCopy_ok fresh h₁ hle hlt hroom
    rw [if_pos hs, hva, ok_bind]
    exact ⟨st', hcopy, htake ▸ hst', hf, hap⟩
  rw [if_neg hs]
  by_cases hi : next = chr 'i' ∨ next = chr 'I'
  · obtain ⟨num, hva, rfl⟩ := vaSigned_ok hi hrender
    obtain ⟨rest, hstr, -⟩ := sdsll2str_ok (freshBytes_length stack SDS_LLSTR_SIZE) num
    have hle : (decimalInt num.toInt).length ≤ (decimalInt num.toInt ++ 0 :: rest).length := by
      rw [List.length_append]
      omega
    obtain ⟨st', hcopy, hst', hf, hap⟩ := fmtCopy_ok fresh h₁ hle hlt hroom
    rw [List.take_left] at hst'
    rw [if_pos hi, hva, ok_bind]
    dsimp only
    rw [hstr, ok_bind]
    exact ⟨st', hcopy, hst', hf, hap⟩
  rw [if_neg hi]
  by_cases hu : next = chr 'u' ∨ next = chr 'U'
  · obtain ⟨unum, hva, rfl⟩ := vaUnsigned_ok hu hrender
    obtain ⟨rest, hstr, -⟩ := sdsull2str_ok (freshBytes_length stack SDS_LLSTR_SIZE) unum
    have hle : (decimal unum.toNat).length ≤ (decimal unum.toNat ++ 0 :: rest).length := by
      rw [List.length_append]
      omega
    obtain ⟨st', hcopy, hst', hf, hap⟩ := fmtCopy_ok fresh h₁ hle hlt hroom
    rw [List.take_left] at hst'
    rw [if_pos hu, hva, ok_bind]
    dsimp only
    rw [hstr, ok_bind]
    exact ⟨st', hcopy, hst', hf, hap⟩
  rw [directive_of_other hs hi hu] at hrender
  cases hrender
  rw [if_neg hu]
  exact fmtChar_ok h hlt hfree next

theorem fmtReserve_ok (h : Holds st c) :
    ∃ st', (if st.s.free = 0 then fmtRoom (fun k => some (fresh k)) st 1 else .ok st) = .ok st' ∧ Holds st' c ∧
      st'.f = st.f ∧ st'.ap = st.ap ∧ st'.s.free ≠ 0 := by
  by_cases hfree : st.s.free = 0
  · have hmax : SDS_MAX_PREALLOC = 1024 * 1024 := rfl
    obtain ⟨s, hroom, hs, hle⟩ := fmtRoom_ok fresh h (l := 1) (by omega)
    exact ⟨_, by rw [if_pos hfree, hroom], hs, rfl, rfl, by simp only; omega⟩
  · exact ⟨st, by rw [if_neg hfree], h, rfl, rfl, hfree⟩

theorem fmtRound_char {fmt : List UInt8} {b : UInt8} (h : Holds st c) (hb : fmt[st.f]? = some b) (hzero : b ≠ 0)
    (hne : b ≠ chr '%') (hlt : c.length + 1 < 2 ^ 31) :
    ∃ st', fmtRound (fun k => some (fresh k)) stack fmt st = .ok (some st') ∧ Holds st' (c ++ [b]) ∧
      st'.f = st.f + 1 ∧ st'.ap = st.ap := by
  obtain ⟨st₁, hreserve, h₁, hf₁, hap₁, hfree⟩ := fmtReserve_ok fresh h
  obtain ⟨st₂, hchar, h₂, hf₂, hap₂⟩ := fmtChar_ok h₁ hlt hfree b
  refine ⟨{ st₂ with f := st₂.f + 1 }, ?_, h₂.set, by simp only [hf₂, hf₁], hap₂.trans hap₁⟩
  rw [fmtRound, readAt_ok hb, ok_bind, if_neg hzero, hreserve, ok_bind, if_neg hne, hchar, ok_bind]
  rfl

theorem fmtRound_specifier {fmt : List UInt8} {next : UInt8} {text : List UInt8} {ap : List Arg} (h : Holds st c)
    (hb : fmt[st.f]? = some (chr '%')) (hnext : fmt[st.f + 1]? = some next) (hvalid : ∀ a ∈ st.ap, a.Valid)
    (hrender : renderOne (directive next) st.ap = some (text, ap)) (hlt : c.length + text.length < 2 ^ 31)
    (hroom : text.length + min (c.length + text.length) SDS_MAX_PREALLOC < 2 ^ 31) :
    ∃ st', fmtRound (fun k => some (fresh k)) stack fmt st = .ok (some st') ∧ Holds st' (c ++ text) ∧
      st'.f = st.f + 2 ∧ st'.ap = ap := by
  obtain ⟨st₁, hreserve, h₁, hf₁, hap₁, hfree⟩ := fmtReserve_ok fresh h
  rw [← hap₁] at hvalid hrender
  rw [← hf₁] at hnext
  have h₂ : Holds { st₁ with f := st₁.f + 1 } c := h₁.set
  obtain ⟨st₂, hspec, h₂, hf₂, hap₂⟩ := fmtSpecifier_ok fresh stack h₂ hvalid hrender hfree hlt hroom
  refine ⟨{ st₂ with f := st₂.f + 1 }, ?_, h₂.set, by simp only [hf₂, hf₁], hap₂⟩
  rw [fmtRound, readAt_ok hb, ok_bind, if_neg (by decide), hreserve, ok_bind, if_pos rfl, readAt_ok hnext, ok_bind,
    hspec, ok_bind]
  rfl

theorem getElem?_of_drop {block l : List UInt8} {f : Nat} (h : block.drop f = l) (k : Nat) :
    block[f + k]? = l[k]? := by
  rw [← h, List.getElem?_drop]

theorem drop_of_drop {block l : List UInt8} {f f' : Nat} (pre : List UInt8) (h : block.drop f = pre ++ l)
    (hf : f' = f + pre.length) : block.drop f' = l := by
  rw [hf, ← List.drop_drop, h, List.drop_left]

theorem directive_ne_cut (next : UInt8) : directive next ≠ .cut := by
  rw [directive]
  split_ifs <;> simp

theorem fmtRun_render {block fmt rest out : List UInt8} (h : Holds st c) (hblock : block.drop st.f = fmt ++ 0 :: rest)
    (hzero : 0 ∉ fmt) (hvalid : ∀ a ∈ st.ap, a.Valid) (hrender : render (directives fmt) st.ap = some out)
    (hfit : c.length + out.length + min (c.length + out.length) SDS_MAX_PREALLOC < 2 ^ 31) :
    ∃ n st', FmtRun (fun k => some (fresh k)) stack block n st st' ∧ Holds st' (c ++ out) ∧ n ≤ fmt.length ∧
      st'.f = st.f + fmt.length + (if .cut ∈ directives fmt then 1 else 0) := by
  have hget := getElem?_of_drop hblock
  induction fmt using directives.induct generalizing st c out with
  | case1 =>
    cases hrender
    refine ⟨0, st, .refl st, by rwa [List.append_nil], le_rfl, ?_⟩
    simp [directives]
  | case2 =>
    rw [directives, if_pos rfl] at hrender ⊢
    obtain ⟨text, ap, out, hone, hrest, rfl⟩ := render_cons hrender
    cases hone
    cases hrest
    obtain ⟨st₁, hround, h₁, hf₁, -⟩ := fmtRound_specifier fresh stack h (hget 0) (hget 1) hvalid rfl
      (by simp at hfit ⊢; omega) (by simp at hfit ⊢; omega)
    refine ⟨1, st₁, .head hround (.refl st₁), h₁, le_rfl, ?_⟩
    simpa using hf₁
  | case3 b hb =>
    rw [directives, if_neg hb] at hrender ⊢
    obtain ⟨text, ap, out, hone, hrest, rfl⟩ := render_cons hrender
    cases hone
    cases hrest
    obtain ⟨st₁, hround, h₁, hf₁, -⟩ := fmtRound_char fresh stack h (hget 0) (fun he => hzero (by simp [he])) hb
      (by simp at hfit; omega)
    refine ⟨1, st₁, .head hround (.refl st₁), h₁, le_rfl, ?_⟩
    simpa using hf₁
  | case4 next fmt ih =>
    rw [directives, if_pos rfl] at hrender ⊢
    obtain ⟨text, ap, out, hone, hrest, rfl⟩ := render_cons hrender
    rw [List.length_append] at hfit
    obtain ⟨st₁, hround, h₁, hf₁, hap₁⟩ := fmtRound_specifier fresh stack h (hget 0) (hget 1) hvalid hone
      (by omega) (by omega)
    have hblock₁ : block.drop st₁.f = fmt ++ 0 :: rest := drop_of_drop [chr '%', next] hblock hf₁
    have hvalid₁ : ∀ a ∈ st₁.ap, a.Valid := fun a ha => hvalid a ((renderOne_suffix hone).subset (hap₁ ▸ ha))
    obtain ⟨n, st', hrun, h', hn, hf'⟩ := ih h₁ hblock₁ (fun hm => hzero (by simp [hm])) hvalid₁ (hap₁ ▸ hrest)
      (by rw [List.length_append]; omega) (getElem?_of_drop hblock₁)
    refine ⟨n + 1, st', .head hround hrun, by rwa [← List.append_assoc], by simp; omega, ?_⟩
    have hcut : Directive.cut ∈ directive next :: directives fmt ↔ .cut ∈ directives fmt := by
      simp [(directive_ne_cut next).symm]
    rw [hf', hf₁, List.length_cons, List.length_cons]
    simp only [hcut]
    omega
  | case5 b next fmt hb ih =>
    rw [directives, if_neg hb] at hrender ⊢
    obtain ⟨text, ap, out, hone, hrest, rfl⟩ := render_cons hrender
    cases hone
    rw [List.length_append] at hfit
    obtain ⟨st₁, hround, h₁, hf₁, hap₁⟩ := fmtRound_char fresh stack h (hget 0) (fun he => hzero (by simp [he])) hb
      (by simp at hfit; omega)
    have hblock₁ : block.drop st₁.f = next :: fmt ++ 0 :: rest := drop_of_drop [b] hblock hf₁
    obtain ⟨n, st', hrun, h', hn, hf'⟩ := ih h₁ hblock₁ (fun hm => hzero (List.mem_cons_of_mem _ hm))
      (hap₁ ▸ hvalid) (hap₁ ▸ hrest) (by rw [List.length_append]; omega) (getElem?_of_drop hblock₁)
    refine ⟨n + 1, st', .head hround hrun, by rwa [← List.append_assoc], by simpa using hn, ?_⟩
    have hcut : Directive.cut ∈ .char b :: directives (next :: fmt) ↔ .cut ∈ directives (next :: fmt) := by simp
    rw [hf', hf₁, List.length_cons, List.length_cons, List.length_cons]
    simp only [hcut]
    omega

end Rounds

theorem Holds.terminate {st : FmtState} {c : List UInt8} (h : Holds st c) :
    ∃ buf, writeInt st.s.buf st.i 0 = .ok buf ∧ Consistent { st.s with buf } ∧ content { st.s with buf } = c := by
  have hlen := h.len_eq
  have hsize := h.size_eq
  have hfree := h.free_nonneg
  have hlt : c.length < st.s.buf.length := by omega
  refine ⟨st.s.buf.set c.length 0, ?_, ?_, ?_⟩
  · rw [writeInt, h.i_eq, if_pos (by omega), Int.toNat_natCast, writeAt_ok hlt]
  · refine ⟨⟨h.len_nonneg, h.len_lt, h.free_nonneg, h.free_lt, ?_⟩, ?_⟩
    · rw [List.length_set]
      exact hsize
    · simp only [hlen, Int.toNat_natCast]
      rw [List.getElem?_set_self hlt]
  · rw [content, hlen, Int.toNat_natCast, List.take_set_of_le le_rfl]
    exact (List.prefix_iff_eq_take.mp h.bytes).symm

/-- The format is followed by whatever comes after its terminator in memory. -/
theorem sdscatfmt_renders (fresh : Nat → Nat → UInt8) (stack : Nat → UInt8) {s : Sdshdr} {fmt out : List UInt8}
    {ap : List Arg} (hs : Consistent s) (hzero : 0 ∉ fmt) (hcut : .cut ∉ directives fmt)
    (hvalid : ∀ a ∈ ap, a.Valid) (hrender : render (directives fmt) ap = some out)
    (hfit : s.len.toNat + out.length + min (s.len.toNat + out.length) SDS_MAX_PREALLOC < 2 ^ 31)
    (rest : List UInt8) :
    ∃ s', sdscatfmt (fun k => some (fresh k)) stack s (fmt ++ 0 :: rest) ap = .ok s' ∧ Consistent s' ∧
      content s' = content s ++ out := by
  rw [← hs.content_length] at hfit
  obtain ⟨n, st, hrun, h, hn, hf⟩ := fmtRun_render fresh stack (Holds.start hs ap)
    (show (fmt ++ 0 :: rest).drop 0 = fmt ++ 0 :: rest from rfl) hzero hvalid hrender hfit
  rw [if_neg hcut, Nat.add_zero] at hf
  have hterm : (fmt ++ 0 :: rest)[st.f]? = some 0 := by
    rw [hf]
    simp [FmtState.start]
  have hend : fmtRound (fun k => some (fresh k)) stack (fmt ++ 0 :: rest) st = .ok none := by
    rw [fmtRound, readAt_ok hterm, ok_bind, if_pos rfl]
    rfl
  have hloop := hrun.loop_eq hend (show n < (fmt ++ 0 :: rest).length + 1 by simp; omega)
  obtain ⟨buf, hwrite, hcons, hcontent⟩ := h.terminate
  refine ⟨{ st.s with buf }, ?_, hcons, hcontent⟩
  rw [sdscatfmt, hloop, ok_bind, hwrite, ok_bind]
  rfl

/-- `sdscatfmt(x, "%s=%i%%", "a", -12)` on `"--"`. -/
theorem sdscatfmt_percentage :
    ∃ s', sdscatfmt (fun _ => some fun _ => 7) (fun _ => 7) (sdsOf ("--".toList.map chr) [])
        ("%s=%i%%".toList.map chr ++ [0]) [.cstr ("a".toList.map chr ++ [0]), .int (-12)] = .ok s' ∧
      Consistent s' ∧ content s' = "--a=-12%".toList.map chr := by
  have hvalid : ∀ a ∈ [Arg.cstr ("a".toList.map chr ++ [0]), .int (-12)], a.Valid := by
    intro a ha
    simp only [List.mem_cons, List.not_mem_nil, or_false] at ha
    rcases ha with rfl | rfl
    · exact List.mem_append_right _ (List.mem_singleton_self _)
    · trivial
  have hrender : render (directives ("%s=%i%%".toList.map chr)) [.cstr ("a".toList.map chr ++ [0]), .int (-12)] =
      some ("a=-12%".toList.map chr) := by decide
  exact sdscatfmt_renders (fun _ _ => 7) (fun _ => 7) (sdsOf_consistent (by decide) (by decide)) (by decide)
    (by decide) hvalid hrender (by decide) []

end CPractice
