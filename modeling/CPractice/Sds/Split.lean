import CPractice.Lib.Split
import CPractice.Sds.Sizes

/-! `sdssplitlen` and `sdsjoin`. -/

namespace CPractice

open CMem CInt Split

def SIZEOF_SDS : Nat := 8

/-- `malloc` refuses what is larger. -/
def PTRDIFF_MAX : Nat := 2 ^ 63 - 1

/-- The array of tokens from `zmalloc` or `zrealloc`. Neither of them returns NULL, so the
code under `cleanup` is never reached. -/
def tokenArray (m : Malloc) (tokens : List (Option Sdshdr)) (slots : Int) : Except Fault (List (Option Sdshdr)) := do
  let n ← usableSize (toSize (SIZEOF_SDS * slots))
  if m.isSome ∧ n + PREFIX_SIZE ≤ PTRDIFF_MAX then
    return tokens.take (n / SIZEOF_SDS) ++ List.replicate (n / SIZEOF_SDS - tokens.length) none
  else .error .outOfMemory

structure SplitState where
  tokens : List (Option Sdshdr)
  slots : Int
  elements : Int
  start : Int
  allocs : Nat
  deriving DecidableEq, Repr

def growTokens (m : Nat → Malloc) (st : SplitState) : Except Fault SplitState :=
  if st.slots < toInt (st.elements + 2) then do
    let slots := toInt (st.slots * 2)
    let tokens ← tokenArray (m st.allocs) st.tokens slots
    return { st with tokens, slots, allocs := st.allocs + 1 }
  else .ok st

def isSeparator (s : List UInt8) (j : Int) (sep : List UInt8) (seplen : Int) : Except Fault Bool := do
  let one ← (if seplen = 1 then do return (← readInt s j) == (← readAt sep 0) else .ok false)
  if one then return true else memcmpInt s j sep (toSize seplen)

/-- `tokens[elements] = sdsnewlen(s+start,j-start); elements++;` -/
def storeToken (m : Nat → Malloc) (s : List UInt8) (st : SplitState) (j : Int) : Except Fault SplitState :=
  if 0 ≤ st.start then do
    let t ← sdsnewlen (m st.allocs) (some (s.drop st.start.toNat)) (toSize (toInt (j - st.start)))
    let tokens ← writeInt st.tokens st.elements (some t)
    return { st with tokens, elements := toInt (st.elements + 1), allocs := st.allocs + 1 }
  else .error .outOfBounds

def sepLoop (m : Nat → Malloc) (s : List UInt8) (len : Int) (sep : List UInt8) (seplen : Int) :
    Nat → Int → SplitState → Except Fault SplitState
  | 0, _, _ => .error .diverges
  | fuel + 1, j, st =>
    if j < toInt (len - toInt (seplen - 1)) then do
      let st ← growTokens m st
      if ← isSeparator s j sep seplen then
        let st ← storeToken m s st j
        let st := { st with start := toInt (j + seplen) }
        sepLoop m s len sep seplen fuel (toInt (toInt (j + seplen - 1) + 1)) st
      else sepLoop m s len sep seplen fuel (toInt (j + 1)) st
    else .ok st

/-- The array and `*count`, or `none` for NULL. -/
def sdssplitlen (m : Nat → Malloc) (s : List UInt8) (len : Int) (sep : List UInt8) (seplen : Int) :
    Except Fault (Option (List (Option Sdshdr) × Int)) :=
  if seplen < 1 ∨ len < 0 then .ok none
  else do
    let tokens ← tokenArray (m 0) [] 5
    if len = 0 then return some (tokens, 0)
    else
      let st ← sepLoop m s len sep seplen (len.toNat + 1) 0
        { tokens, slots := 5, elements := 0, start := 0, allocs := 1 }
      let st ← storeToken m s st len
      return some (st.tokens, st.elements)

def joinLoop (m : Nat → Malloc) (argv : List (List UInt8)) (argc : Int) (sep : List UInt8) :
    Nat → Int → Nat → Sdshdr → Except Fault Sdshdr
  | 0, _, _, _ => .error .diverges
  | fuel + 1, j, k, join =>
    if j < argc then do
      let join ← sdscat (m k) join (← readInt argv j)
      if j ≠ toInt (argc - 1) then
        let join ← sdscat (m (k + 1)) join sep
        joinLoop m argv argc sep fuel (toInt (j + 1)) (k + 2) join
      else joinLoop m argv argc sep fuel (toInt (j + 1)) (k + 1) join
    else .ok join

def sdsjoin (m : Nat → Malloc) (argv : List (List UInt8)) (argc : Int) (sep : List UInt8) :
    Except Fault Sdshdr := do
  let join ← sdsempty (m 0)
  joinLoop m argv argc sep (argc.toNat + 1) 0 1 join

theorem sdsnewlen_oom (init : Option (List UInt8)) (initlen : Nat) :
    sdsnewlen none init initlen = .error .outOfMemory := by
  cases init <;> rfl

theorem tokenArray_oom {m : Malloc} {slots : Int} (hlow : -2 ^ 31 ≤ slots) (hhigh : slots < 2 ^ 31)
    (h : m = none ∧ 0 ≤ slots ∨ slots < -1) (tokens : List (Option Sdshdr)) :
    tokenArray m tokens slots = .error .outOfMemory := by
  have hsize : toSize (SIZEOF_SDS * slots) = if 0 ≤ slots then (8 * slots).toNat else (2 ^ 64 + 8 * slots).toNat := by
    have h8 : (SIZEOF_SDS : Int) = 8 := rfl
    rw [toSize, h8]
    split <;> omega
  have hprefix : PREFIX_SIZE = 8 := rfl
  have hmax : PTRDIFF_MAX = 2 ^ 63 - 1 := rfl
  rw [tokenArray, hsize]
  rcases h with ⟨rfl, hnonneg⟩ | hneg
  · rw [if_pos hnonneg, usableSize_of_lt (by omega), ok_bind, if_neg (by simp)]
  · rw [if_neg (by omega), usableSize_of_lt (by omega), ok_bind, if_neg (by omega)]

theorem tokenArray_ok (fresh : Nat → UInt8) (tokens : List (Option Sdshdr)) {slots : Nat} (h : slots < 2 ^ 31)
    (hle : tokens.length ≤ slots) :
    tokenArray (some fresh) tokens slots = .ok (tokens ++ List.replicate (slots - tokens.length) none) := by
  have hsize : toSize (SIZEOF_SDS * slots) = 8 * slots := by
    have h8 : (SIZEOF_SDS : Int) = 8 := rfl
    rw [toSize, h8]
    omega
  have hprefix : PREFIX_SIZE = 8 := rfl
  have hmax : PTRDIFF_MAX = 2 ^ 63 - 1 := rfl
  have hdiv : 8 * slots / SIZEOF_SDS = slots := by
    rw [SIZEOF_SDS]
    omega
  rw [tokenArray, hsize, usableSize_of_lt (by omega), ok_bind, if_pos ⟨rfl, by omega⟩, hdiv,
    List.take_of_length_le hle]
  rfl

/-- The tokens stored so far are the first pieces of the string, and the scan is at `j` in the next one. -/
structure Scan (s sep : List UInt8) (parts : List (List UInt8)) (start j : Nat) (st : SplitState) : Prop where
  start_eq : st.start = start
  start_le : start ≤ j
  j_le : j ≤ s.length
  elements_eq : st.elements = parts.length
  stored : parts.map (fun p => some (sdsOf p [])) <+: st.tokens
  slots_eq : st.slots = st.tokens.length
  slots_range : 5 ≤ st.tokens.length ∧ st.tokens.length ≤ 2 ^ 31 - 2
  room : parts.length < st.tokens.length
  split_eq : splitFrom sep 0 [] s = parts ++ splitFrom sep 0 ((s.take j).drop start) (s.drop j)

theorem concat_prefix_set {α : Type} {l t : List α} (h : l <+: t) (hlt : l.length < t.length) (x : α) :
    l ++ [x] <+: t.set l.length x := by
  obtain ⟨r, rfl⟩ := h
  cases r with
  | nil => simp at hlt
  | cons y r =>
    rw [List.set_append_right _ _ le_rfl, Nat.sub_self, List.set_cons_zero]
    exact ⟨r, by simp⟩

section Scanning

variable {m : Nat → Malloc} {s sep : List UInt8} {parts : List (List UInt8)} {start j : Nat} {st : SplitState}

/-- Beyond the range of `int` the doubled number of slots is negative, and so large an array is refused. -/
theorem Scan.grow (h : Scan s sep parts start j st) :
    Returns (growTokens m st) fun st' => Scan s sep parts start j st' ∧ parts.length + 2 ≤ st'.tokens.length := by
  obtain ⟨hlow, hhigh⟩ := h.slots_range
  have hroom := h.room
  have helements : toInt (st.elements + 2) = (parts.length + 2 : Nat) :=
    toInt_eq_natCast (by rw [h.elements_eq]; omega) (by omega)
  rw [growTokens, helements, h.slots_eq]
  by_cases hfull : (st.tokens.length : Int) < (parts.length + 2 : Nat)
  · rw [if_pos hfull]
    dsimp only
    by_cases hdouble : st.tokens.length < 2 ^ 30
    · have hslots : toInt ((st.tokens.length : Int) * 2) = (st.tokens.length * 2 : Nat) :=
        toInt_eq_natCast (by omega) (by omega)
      have hlen : (st.tokens ++ List.replicate (st.tokens.length * 2 - st.tokens.length) none).length =
          st.tokens.length * 2 := by
        rw [List.length_append, List.length_replicate]
        omega
      rw [hslots]
      cases hm : m st.allocs with
      | none =>
        rw [tokenArray_oom (by omega) (by omega) (.inl ⟨rfl, by omega⟩), error_bind]
        exact returns_oom
      | some fresh =>
        rw [tokenArray_ok fresh _ (by omega) (by omega), ok_bind]
        refine returns_ok ⟨?_, by rw [hlen]; omega⟩
        exact {
          h with
          stored := h.stored.trans (List.prefix_append _ _)
          slots_eq := by rw [hlen]
          slots_range := by rw [hlen]; omega
          room := by rw [hlen]; omega }
    · have hslots : toInt ((st.tokens.length : Int) * 2) = st.tokens.length * 2 - 2 ^ 32 := by
        rw [toInt]
        omega
      rw [hslots, tokenArray_oom (by omega) (by omega) (.inr (by omega)), error_bind]
      exact returns_oom
  · rw [if_neg hfull]
    exact returns_ok ⟨h, by omega⟩

theorem isSeparator_eq (hsep : 0 < sep.length) (hlt : sep.length < 2 ^ 31) (hj : j + sep.length ≤ s.length)
    (rest rest' : List UInt8) :
    isSeparator (s ++ rest) j (sep ++ rest') sep.length = .ok (decide (sep <+: s.drop j)) := by
  have hsize : toSize (sep.length : Int) = sep.length := toSize_eq_natCast rfl (by omega)
  have htake : ((s ++ rest).drop j).take sep.length = (s.drop j).take sep.length := by
    rw [List.drop_append_of_le_length (by omega), List.take_append_of_le_length (by rw [List.length_drop]; omega)]
  have hcmp : memcmpInt (s ++ rest) j (sep ++ rest') (toSize sep.length) = .ok (decide (sep <+: s.drop j)) := by
    rw [hsize, memcmpInt, if_pos (by simp only [List.length_append]; omega), Int.toNat_natCast, htake, List.take_left]
    congr 1
    rw [Bool.eq_iff_iff, beq_iff_eq, decide_eq_true_iff, List.prefix_iff_eq_take, eq_comm]
  rw [isSeparator, hcmp]
  by_cases hone : (sep.length : Int) = 1
  · obtain ⟨x, rfl⟩ := List.length_eq_one_iff.mp (by omega : sep.length = 1)
    have hlt' : j < s.length := Nat.lt_of_succ_le hj
    have hread : readInt (s ++ rest) (j : Int) = .ok s[j] := by
      rw [readInt, if_pos (by omega), Int.toNat_natCast]
      apply readAt_ok
      rw [List.getElem?_append_left hlt', List.getElem?_eq_getElem hlt']
    rw [if_pos hone, hread, ok_bind, readAt_ok (b := x) (by simp), ok_bind]
    by_cases heq : s[j] = x
    · have hpre : [x] <+: s.drop j := by
        rw [List.drop_eq_getElem_cons hlt', heq]
        exact ⟨_, rfl⟩
      simp [pure, Except.pure, heq, hpre]
    · simp [pure, Except.pure, heq]
  · rw [if_neg hone, ok_bind]
    rfl

theorem Scan.store (h : Scan s sep parts start j st) (hs : s.length < 2 ^ 31) {e : Nat} (hstart : start ≤ e)
    (he : e ≤ s.length) (rest : List UInt8) :
    Returns (storeToken m (s ++ rest) st e) fun st' => ∃ tokens allocs,
      st' = { st with tokens, elements := (parts.length + 1 : Nat), allocs } ∧
      (parts ++ [(s.take e).drop start]).map (fun p => some (sdsOf p [])) <+: tokens ∧
      tokens.length = st.tokens.length := by
  obtain ⟨hlow, hhigh⟩ := h.slots_range
  have hroom := h.room
  have hsize : toSize (toInt ((e : Int) - start)) = e - start := by
    rw [toInt_eq_natCast (show (e : Int) - start = (e - start : Nat) by omega) (by omega)]
    exact toSize_eq_natCast rfl (by omega)
  have hpiece : ((s ++ rest).drop start).take (e - start) = (s.take e).drop start := by
    rw [List.drop_append_of_le_length (by omega), List.take_append_of_le_length (by rw [List.length_drop]; omega),
      List.drop_take]
  have helements : toInt (st.elements + 1) = (parts.length + 1 : Nat) :=
    toInt_eq_natCast (by rw [h.elements_eq]; omega) (by omega)
  rw [storeToken, h.start_eq, if_pos (by omega), Int.toNat_natCast, hsize, helements]
  cases hm : m st.allocs with
  | none =>
    rw [sdsnewlen_oom, error_bind]
    exact returns_oom
  | some fresh =>
    rw [sdsnewlen_some _ (by rw [List.length_drop, List.length_append]; omega) (by omega), hpiece, ok_bind,
      h.elements_eq, writeInt, if_pos (by omega), Int.toNat_natCast, writeAt_ok hroom, ok_bind]
    refine returns_ok ⟨_, _, rfl, ?_, List.length_set⟩
    have hset := concat_prefix_set h.stored (by rwa [List.length_map]) (some (sdsOf ((s.take e).drop start) []))
    rw [List.length_map] at hset
    rwa [List.map_append]

theorem Scan.found (h : Scan s sep parts start j st) (hs : s.length < 2 ^ 31) (hsep : sep ≠ [])
    (hroom : parts.length + 2 ≤ st.tokens.length) (hp : sep <+: s.drop j) (rest : List UInt8) :
    Returns (storeToken m (s ++ rest) st j) fun st' =>
      Scan s sep (parts ++ [(s.take j).drop start]) (j + sep.length) (j + sep.length)
        { st' with start := (j + sep.length : Nat) } := by
  have hle := hp.length_le
  rw [List.length_drop] at hle
  have hj := h.j_le
  have hpos := List.length_pos_iff.mpr hsep
  have hnil : (s.take (j + sep.length)).drop (j + sep.length) = [] :=
    List.drop_of_length_le (List.length_take_le _ _)
  refine (h.store hs h.start_le hj rest).mono ?_
  rintro _ ⟨tokens, allocs, rfl, hstored, hlen⟩
  exact {
    start_eq := rfl
    start_le := le_rfl
    j_le := by omega
    elements_eq := by simp
    stored := hstored
    slots_eq := by rw [hlen]; exact h.slots_eq
    slots_range := by rw [hlen]; exact h.slots_range
    room := by
      rw [hlen, List.length_append, List.length_singleton]
      omega
    split_eq := by rw [h.split_eq, splitFrom_of_present hsep hp, List.drop_drop, hnil, List.append_assoc]; rfl }

theorem Scan.passed (h : Scan s sep parts start j st) (hj : j < s.length) (hp : ¬ sep <+: s.drop j) :
    Scan s sep parts start (j + 1) st := by
  have hstart := h.start_le
  refine { h with start_le := by omega, j_le := by omega, split_eq := ?_ }
  have hdrop := List.drop_eq_getElem_cons hj
  rw [hdrop] at hp
  have hacc : (s.take j).drop start ++ [s[j]] = (s.take (j + 1)).drop start := by
    rw [List.take_succ_eq_append_getElem hj, List.drop_append_of_le_length (by rw [List.length_take]; omega)]
  rw [h.split_eq, hdrop, splitFrom_of_absent hp, hacc]

theorem sepBound_eq {len seplen : Nat} (hlen : len < 2 ^ 31) (hpos : 0 < seplen) (hseplen : seplen < 2 ^ 31) :
    toInt ((len : Int) - toInt (seplen - 1)) = len - (seplen - 1) := by
  rw [toInt_of_range (x := (seplen : Int) - 1) (by omega) (by omega), toInt_of_range (by omega) (by omega)]

theorem skipSeparator_eq {j seplen : Nat} (hpos : 0 < seplen) (h : j + seplen < 2 ^ 31) :
    toInt (toInt ((j : Int) + seplen - 1) + 1) = (j + seplen : Nat) := by
  rw [toInt_eq_natCast (show (j : Int) + seplen - 1 = (j + seplen - 1 : Nat) by omega) (by omega)]
  exact toInt_eq_natCast (by omega) h

theorem sepLoop_ok {fuel : Nat} (h : Scan s sep parts start j st) (hs : s.length < 2 ^ 31) (hsep : sep ≠ [])
    (hseplen : sep.length < 2 ^ 31) (hfuel : s.length - j < fuel) (rest rest' : List UInt8) :
    Returns (sepLoop m (s ++ rest) s.length (sep ++ rest') sep.length fuel j st) fun st' =>
      ∃ parts' start' j', Scan s sep parts' start' j' st' ∧ s.length < j' + sep.length := by
  have hpos := List.length_pos_iff.mpr hsep
  induction fuel generalizing parts start j st with
  | zero => omega
  | succ fuel ih =>
    have hj := h.j_le
    rw [sepLoop, sepBound_eq hs hpos hseplen]
    by_cases hin : (j : Int) < s.length - (sep.length - 1)
    · rw [if_pos hin]
      refine h.grow.bind fun st₁ ⟨h₁, hroom⟩ => ?_
      rw [isSeparator_eq hpos hseplen (by omega), ok_bind]
      by_cases hp : sep <+: s.drop j
      · rw [if_pos (decide_eq_true hp)]
        refine (h₁.found hs hsep hroom hp rest).bind fun st₂ h₂ => ?_
        have hstart : (j : Int) + sep.length = (j + sep.length : Nat) := by omega
        rw [skipSeparator_eq hpos (by omega), toInt_eq_natCast hstart (by omega)]
        exact ih h₂ (by omega)
      · have hnext : (j : Int) + 1 = (j + 1 : Nat) := by omega
        rw [if_neg (by simpa using hp), toInt_eq_natCast hnext (by omega)]
        exact ih (h₁.passed (by omega) hp) (by omega)
    · rw [if_neg hin]
      exact returns_ok ⟨parts, start, j, h, by omega⟩

theorem Scan.begin (s sep : List UInt8) (allocs : Nat) :
    Scan s sep [] 0 0 { tokens := List.replicate 5 none, slots := 5, elements := 0, start := 0, allocs } where
  start_eq := rfl
  start_le := le_rfl
  j_le := Nat.zero_le _
  elements_eq := rfl
  stored := List.nil_prefix
  slots_eq := rfl
  slots_range := by simp
  room := by simp
  split_eq := by simp

theorem Scan.last (h : Scan s sep parts start j st) (hend : s.length < j + sep.length) :
    splitFrom sep 0 [] s = parts ++ [(s.take s.length).drop start] := by
  have hstart := h.start_le
  have hj := h.j_le
  have hpiece : (s.take j).drop start ++ s.drop j = (s.take s.length).drop start := by
    rw [← List.drop_append_of_le_length (by rw [List.length_take]; omega), List.take_append_drop, List.take_length]
  rw [h.split_eq, splitFrom_of_short (by rw [List.length_drop]; omega), hpiece]

theorem sdssplitlen_ok (hs : s.length < 2 ^ 31) (hne : s ≠ []) (hsep : sep ≠ []) (hseplen : sep.length < 2 ^ 31)
    (rest rest' : List UInt8) :
    Returns (sdssplitlen m (s ++ rest) s.length (sep ++ rest') sep.length) fun r => ∃ tokens,
      r = some (tokens, ((splitFrom sep 0 [] s).length : Int)) ∧
      (splitFrom sep 0 [] s).map (fun p => some (sdsOf p [])) <+: tokens ∧ tokens.length < 2 ^ 31 := by
  have hpos := List.length_pos_iff.mpr hne
  have hseppos := List.length_pos_iff.mpr hsep
  rw [sdssplitlen, if_neg (by omega)]
  cases hm : m 0 with
  | none =>
    rw [tokenArray_oom (by decide) (by decide) (.inl ⟨rfl, by decide⟩), error_bind]
    exact returns_oom
  | some fresh =>
    have harray := tokenArray_ok fresh [] (show 5 < 2 ^ 31 by decide) (by decide)
    rw [show ((5 : Nat) : Int) = 5 from rfl, List.nil_append, List.length_nil, Nat.sub_zero] at harray
    have hrun := sepLoop_ok (m := m) (Scan.begin s sep 1) hs hsep hseplen (show _ < s.length + 1 by omega) rest rest'
    rw [show ((0 : Nat) : Int) = 0 from rfl] at hrun
    rw [harray, ok_bind, if_neg (by omega), Int.toNat_natCast]
    refine hrun.bind fun st ⟨parts, start, j, hscan, hend⟩ => ?_
    have hslots := hscan.slots_range
    refine (hscan.store hs (hscan.start_le.trans hscan.j_le) le_rfl rest).bind fun _ hstore => ?_
    obtain ⟨tokens, allocs, rfl, hstored, hlen⟩ := hstore
    refine returns_ok ⟨tokens, ?_, ?_, by omega⟩
    · rw [hscan.last hend, List.length_append, List.length_singleton]
    · rwa [hscan.last hend]

end Scanning

theorem sdscat_content {s : Sdshdr} {t : List UInt8} (hs : Consistent s) (ht : 0 ∈ t) (fresh : Nat → UInt8)
    (hlen : (content s).length + (cString t).length < 2 ^ 31) :
    ∃ s', sdscat (some fresh) s t = .ok s' ∧ Consistent s' ∧ content s' = content s ++ cString t := by
  have hnonneg := hs.len_nonneg
  rw [hs.content_length] at hlen
  exact sdscat_consistent hs ht fresh (by omega)

theorem lt_length_of_drop {α : Type} {l as : List α} {a : α} {j : Nat} (h : l.drop j = a :: as) : j < l.length := by
  by_contra hge
  rw [List.drop_of_length_le (Nat.le_of_not_lt hge)] at h
  cases h

theorem joinLoop_ok (fresh : Nat → Nat → UInt8) {argv ps : List (List UInt8)} {sep : List UInt8} {fuel j k : Nat}
    {join : Sdshdr} (hjoin : Consistent join) (hdrop : argv.drop j = ps) (hargv : ∀ t ∈ argv, (0 : UInt8) ∈ t)
    (hargc : argv.length < 2 ^ 31) (hsep : 0 ∈ sep) (hfuel : ps.length < fuel)
    (hlen : (content join).length + ((cString sep).intercalate (ps.map cString)).length < 2 ^ 31) :
    ∃ join', joinLoop (fun k => some (fresh k)) argv argv.length sep fuel j k join = .ok join' ∧ Consistent join' ∧
      content join' = content join ++ (cString sep).intercalate (ps.map cString) := by
  induction ps generalizing fuel j k join with
  | nil =>
    obtain ⟨fuel, rfl⟩ := Nat.exists_eq_succ_of_ne_zero (Nat.ne_zero_of_lt hfuel)
    have hj := List.drop_eq_nil_iff.mp hdrop
    refine ⟨join, ?_, hjoin, by simp⟩
    rw [joinLoop, if_neg (by omega)]
  | cons p ps ih =>
    obtain ⟨fuel, rfl⟩ := Nat.exists_eq_succ_of_ne_zero (Nat.ne_zero_of_lt hfuel)
    rw [Nat.succ_eq_add_one, List.length_cons, Nat.add_lt_add_iff_right] at hfuel
    have hj := lt_length_of_drop hdrop
    rw [List.drop_eq_getElem_cons hj] at hdrop
    obtain ⟨hp, hrest⟩ := List.cons.inj hdrop
    have hread : readInt argv (j : Int) = .ok p := by
      rw [readInt, if_pos (by omega), Int.toNat_natCast]
      exact readAt_ok (by rw [List.getElem?_eq_getElem hj, hp])
    have hzero : (0 : UInt8) ∈ p := hargv p (hp ▸ List.getElem_mem hj)
    have hnext : toInt ((j : Int) + 1) = (j + 1 : Nat) := toInt_eq_natCast (by omega) (by omega)
    have hlast : toInt ((argv.length : Int) - 1) = argv.length - 1 := toInt_of_range (by omega) (by omega)
    rw [joinLoop, if_pos (by omega), hread, ok_bind, hlast, hnext]
    cases ps with
    | nil =>
      have hj' := List.drop_eq_nil_iff.mp hrest
      rw [List.map_cons, List.map_nil, List.intercalate_singleton] at hlen ⊢
      obtain ⟨join₁, hcat, h₁, hcontent⟩ := sdscat_content hjoin hzero (fresh k) hlen
      obtain ⟨join', hloop, h', hcontent'⟩ := @ih fuel (j + 1) (k + 1) join₁ h₁ hrest hfuel
        (by rw [hcontent]; simpa using hlen)
      refine ⟨join', ?_, h', by rw [hcontent', hcontent]; simp⟩
      rw [hcat, ok_bind, if_neg (by omega), hloop]
    | cons q ps =>
      have hj' := lt_length_of_drop hrest
      rw [List.map_cons, List.map_cons, List.intercalate_cons_cons, ← List.map_cons] at hlen ⊢
      simp only [List.length_append] at hlen
      obtain ⟨join₁, hcat, h₁, hcontent⟩ := sdscat_content hjoin hzero (fresh k) (by omega)
      obtain ⟨join₂, hcat₂, h₂, hcontent₂⟩ := sdscat_content h₁ hsep (fresh (k + 1))
        (by rw [hcontent, List.length_append]; omega)
      rw [hcontent] at hcontent₂
      obtain ⟨join', hloop, h', hcontent'⟩ := @ih fuel (j + 1) (k + 2) join₂ h₂ hrest hfuel
        (by rw [hcontent₂, List.length_append, List.length_append]; omega)
      refine ⟨join', ?_, h', by rw [hcontent', hcontent₂]; simp [List.append_assoc]⟩
      rw [hcat, ok_bind, if_pos (by omega), hcat₂, ok_bind, hloop]

theorem sdsjoin_ok (fresh : Nat → Nat → UInt8) {argv : List (List UInt8)} {sep : List UInt8}
    (hargv : ∀ t ∈ argv, (0 : UInt8) ∈ t) (hargc : argv.length < 2 ^ 31) (hsep : 0 ∈ sep)
    (hlen : ((cString sep).intercalate (argv.map cString)).length < 2 ^ 31) :
    ∃ join, sdsjoin (fun k => some (fresh k)) argv argv.length sep = .ok join ∧ Consistent join ∧
      content join = (cString sep).intercalate (argv.map cString) := by
  have hempty : sdsempty (some (fresh 0)) = .ok (sdsOf [] []) :=
    sdsnewlen_some [0] (Nat.zero_le _) (by decide) (fresh 0)
  have hcontent : content (sdsOf [] []) = [] := content_sdsOf [] []
  obtain ⟨join, hloop, hjoin, heq⟩ := @joinLoop_ok fresh argv argv sep (argv.length + 1) 0 1 (sdsOf [] [])
    (sdsOf_consistent (by decide) (by decide)) rfl hargv hargc hsep (Nat.lt_succ_self _)
    (by rw [hcontent, List.length_nil, Nat.zero_add]; exact hlen)
  rw [hcontent, List.nil_append] at heq
  refine ⟨join, ?_, hjoin, heq⟩
  rw [sdsjoin, hempty, ok_bind, Int.toNat_natCast]
  exact hloop

theorem map_cString_sdsOf {ps : List (List UInt8)} (h : ∀ p ∈ ps, (0 : UInt8) ∉ p) :
    (ps.map fun p => (sdsOf p []).buf).map cString = ps := by
  rw [List.map_map, List.map_congr_left, List.map_id]
  intro p hp
  simp only [Function.comp, sdsOf, id]
  rw [cString_append_zero, cString_of_not_mem (h p hp)]

theorem sdssplitlen_sdsjoin (m : Nat → Malloc) {s sep : List UInt8} (hzero : 0 ∉ s) (hsepzero : 0 ∉ sep)
    (hne : 1 ≤ s.length) (hs : s.length < 2 ^ 31) (hsepne : 1 ≤ sep.length) (hsep : sep.length < 2 ^ 31)
    (rest rest' : List UInt8)
    (hmem : sdssplitlen m (s ++ rest) s.length (sep ++ rest') sep.length ≠ .error .outOfMemory) :
    ∃ (tokens : List (Option Sdshdr)) (parts : List Sdshdr),
      sdssplitlen m (s ++ rest) s.length (sep ++ rest') sep.length = .ok (some (tokens, parts.length)) ∧
      parts.map some <+: tokens ∧ parts.length = 1 + occurrences sep s ∧
      (∀ t ∈ parts, Consistent t ∧ ¬ sep <:+: content t) ∧
      ∀ fresh : Nat → Nat → UInt8, ∃ join,
        sdsjoin (fun k => some (fresh k)) (parts.map (·.buf)) parts.length (sep ++ [0]) = .ok join ∧
        Consistent join ∧ content join = s := by
  have hne' : s ≠ [] := List.length_pos_iff.mp hne
  have hsepne' : sep ≠ [] := List.length_pos_iff.mp hsepne
  obtain ⟨_, hsplit, tokens, rfl, hstored, hlt⟩ :=
    (sdssplitlen_ok (m := m) hs hne' hsepne' hsep rest rest').resolve_left hmem
  have hjoin := intercalate_splitFrom hsepne' 0 [] s
  have hinfix := @splitFrom_sep_free _ sep [] s 0 _ hsepne' fun i hi => absurd hi (Nat.not_lt_zero i)
  have hsub := fun p hp => @sublist_of_mem_splitFrom _ sep s _ hsepne' p hp
  have hcount := splitFrom_length sep 0 [] s
  rw [List.nil_append, List.drop_zero] at hjoin
  generalize splitFrom sep 0 [] s = ps at *
  have hpieces := map_cString_sdsOf fun p hp h0 => hzero ((hsub p hp).subset h0)
  have hsepc : cString (sep ++ [0]) = sep := by rw [cString_append_zero, cString_of_not_mem hsepzero]
  refine ⟨tokens, ps.map fun p => sdsOf p [], ?_, ?_, ?_, ?_, ?_⟩
  · rw [hsplit, List.length_map]
  · rwa [List.map_map]
  · rw [List.length_map, hcount, Nat.add_comm, occurrences]
  · intro t ht
    obtain ⟨p, hp, rfl⟩ := List.mem_map.mp ht
    have hlen := (hsub p hp).length_le
    refine ⟨sdsOf_consistent (by omega) (by decide), ?_⟩
    rw [content_sdsOf]
    exact hinfix p hp
  · intro fresh
    have hargc : (ps.map fun p => (sdsOf p []).buf).length < 2 ^ 31 := by
      have hle := hstored.length_le
      rw [List.length_map] at hle ⊢
      omega
    have hargv : ∀ t ∈ ps.map fun p => (sdsOf p []).buf, (0 : UInt8) ∈ t := by
      intro t ht
      obtain ⟨p, hp, rfl⟩ := List.mem_map.mp ht
      simp [sdsOf]
    obtain ⟨join, hrun, hcons, hcontent⟩ := sdsjoin_ok fresh hargv hargc (show 0 ∈ sep ++ [0] by simp)
      (by rw [hsepc, hpieces, hjoin]; exact hs)
    rw [hsepc, hpieces, hjoin] at hcontent
    refine ⟨join, ?_, hcons, hcontent⟩
    rw [List.map_map, List.length_map]
    rwa [List.length_map] at hrun

/-- `sdssplitlen("a---b",5,"--",2,&count)` gives `"a"` and `"-b"`. -/
theorem split_dashes :
    ∃ (tokens : List (Option Sdshdr)) (parts : List Sdshdr),
      sdssplitlen (fun _ => some fun _ => 7) [97, 45, 45, 45, 98, 0] 5 [45, 45, 0] 2 =
          .ok (some (tokens, parts.length)) ∧
        parts.length = 2 ∧ ∃ join, sdsjoin (fun _ => some fun _ => 7) (parts.map (·.buf)) parts.length [45, 45, 0] =
          .ok join ∧ content join = [97, 45, 45, 45, 98] := by
  obtain ⟨tokens, parts, hsplit, -, hcount, -, hjoin⟩ := @sdssplitlen_sdsjoin (fun _ => some fun _ => 7)
    [97, 45, 45, 45, 98] [45, 45] (by decide) (by decide) (by decide) (by decide) (by decide) (by decide) [0] [0]
    (by decide)
  obtain ⟨join, hrun, -, hcontent⟩ := hjoin fun _ _ => 7
  exact ⟨tokens, parts, hsplit, hcount.trans (by decide), join, hrun, hcontent⟩

end CPractice
