import CPractice.Sds.TokenLoop

/-! `sdssplitargs` accepts the lines of the grammar, and no others, as long as `int` holds the
number of arguments and the length of each. -/

namespace CPractice

open CMem CInt

/-- The array holds the arguments that are complete. -/
structure ArgVector.Holds (a : ArgVector) (parts : List Sdshdr) : Prop where
  vector_eq : a.vector.getD [] = parts.map some
  argc_eq : a.argc = parts.length

section Store

variable {fresh : Nat → Nat → UInt8} {a a' : ArgVector} {parts : List Sdshdr} {current : Sdshdr}
  {v : List UInt8} {k : Nat}

theorem ArgVector.Holds.add (fresh : Nat → Nat → UInt8) (h : a.Holds parts) (hcount : parts.length + 1 < 2 ^ 31)
    (current : Sdshdr) (k : Nat) :
    ∃ a', a.add (fun k => some (fresh k)) current k = .ok a' ∧ a'.Holds (parts ++ [current]) := by
  have hargc : toInt ((parts.length : Int) + 1) = (parts.length + 1 : Nat) := toInt_eq_natCast (by omega) hcount
  have harray := tokenArray_ok (fresh k) (parts.map some) hcount (by rw [List.length_map]; omega)
  rw [List.length_map, Nat.add_sub_cancel_left, List.replicate_one] at harray
  have hwrite := writeAt_append (parts.map some) [] none (some current)
  rw [List.length_map] at hwrite
  refine ⟨{ vector := some (parts.map some ++ [some current]), argc := (parts.length + 1 : Nat), allocs := k + 1 },
    ?_, by simp, by simp⟩
  rw [ArgVector.add, h.vector_eq, h.argc_eq, hargc, harray, ok_bind, writeInt, if_pos (by omega), Int.toNat_natCast,
    hwrite, ok_bind]
  rfl

theorem ArgVector.Holds.lt_of_add (h : a.Holds parts) (hcount : parts.length < 2 ^ 31) {m : Nat → Malloc}
    (hrun : a.add m current k = .ok a') : parts.length + 1 < 2 ^ 31 := by
  by_contra hfull
  have hwrap : toInt ((parts.length : Int) + 1) = -2 ^ 31 := by
    rw [toInt]
    omega
  rw [ArgVector.add, h.argc_eq, hwrap, tokenArray_oom (by decide) (by decide) (.inr (by decide))] at hrun
  cases hrun

theorem sdsempty_ok (f : Nat → UInt8) : sdsempty (some f) = .ok (sdsOf [] []) :=
  sdsnewlen_some [0] (Nat.zero_le _) (by decide) f

theorem storeArg_ok (fresh : Nat → Nat → UInt8) (h : a.Holds parts) (hcount : parts.length + 1 < 2 ^ 31)
    (hv : v.length ≤ 2 ^ 31) :
    ∃ a' t, storeArg (fun k => some (fresh k)) a v = .ok a' ∧ a'.Holds (parts ++ [t]) ∧
      (v.length < 2 ^ 31 → Consistent t ∧ content t = v) := by
  obtain ⟨t, hrun, ht⟩ := catBytes_empty_ok fresh (a.allocs + 1) hv
  obtain ⟨a', hadd, ha'⟩ := h.add fresh hcount t (a.allocs + 1 + v.length)
  exact ⟨a', t, by rw [storeArg, sdsempty_ok, ok_bind, hrun, ok_bind, hadd], ha', ht⟩

theorem storeArg_le (h : a.Holds parts) (hcount : parts.length < 2 ^ 31)
    (hrun : storeArg (fun k => some (fresh k)) a v = .ok a') : v.length ≤ 2 ^ 31 ∧ parts.length + 1 < 2 ^ 31 := by
  rw [storeArg, sdsempty_ok, ok_bind] at hrun
  obtain ⟨current, hcat, hadd⟩ := bind_eq_ok.mp hrun
  exact ⟨catBytes_empty_le _ hcat, h.lt_of_add hcount hadd⟩

/-- The strings hold the arguments. -/
def Hold (parts : List Sdshdr) (args : List (List UInt8)) : Prop :=
  List.Forall₂ (fun t a => Consistent t ∧ content t = a) parts args

theorem Hold.length_lt {args : List (List UInt8)} (h : Hold parts args) : ∀ v ∈ args, v.length < 2 ^ 31 := by
  unfold Hold at h
  induction h with
  | nil => simp
  | cons hhead _ ih =>
    obtain ⟨hconsistent, rfl⟩ := hhead
    have hlen := hconsistent.toSized.len_eq
    have hlt := hconsistent.len_lt
    refine List.forall_mem_cons.mpr ⟨by omega, ih⟩

theorem Hold.eq {args args' : List (List UInt8)} (h : Hold parts args) (h' : Hold parts args') : args = args' := by
  unfold Hold at h h'
  induction h generalizing args' with
  | nil => exact (List.forall₂_nil_left_iff.mp h').symm
  | cons hhead _ ih =>
    cases h' with
    | cons hhead' htail' => rw [← hhead.2, ← hhead'.2, ih htail']

theorem storeArgs_ok (fresh : Nat → Nat → UInt8) {args : List (List UInt8)} (h : a.Holds parts)
    (hcount : parts.length + args.length < 2 ^ 31)
    (hlen : ∀ v ∈ args, v.length ≤ 2 ^ 31) :
    ∃ a' parts', args.foldlM (storeArg fun k => some (fresh k)) a = .ok a' ∧ a'.Holds (parts ++ parts') ∧
      ((∀ v ∈ args, v.length < 2 ^ 31) → Hold parts' args) := by
  induction args generalizing a parts with
  | nil => exact ⟨a, [], rfl, by rwa [List.append_nil], fun _ => .nil⟩
  | cons v args ih =>
    rw [List.length_cons] at hcount
    obtain ⟨hv, hargs⟩ := List.forall_mem_cons.mp hlen
    obtain ⟨a₁, t, hstore, h₁, ht⟩ := storeArg_ok fresh h (by omega) hv
    obtain ⟨a', parts', hrun, ha', hhold⟩ := ih h₁ (by rw [List.length_append, List.length_singleton]; omega) hargs
    rw [List.append_assoc, List.singleton_append] at ha'
    refine ⟨a', t :: parts', by rw [List.foldlM_cons, hstore, ok_bind, hrun], ha', fun hlt => ?_⟩
    obtain ⟨hv, hargs⟩ := List.forall_mem_cons.mp hlt
    exact .cons (ht hv) (hhold hargs)

theorem storeArgs_le {args : List (List UInt8)} (h : a.Holds parts) (hcount : parts.length < 2 ^ 31)
    (hrun : args.foldlM (storeArg fun k => some (fresh k)) a = .ok a') :
    parts.length + args.length < 2 ^ 31 ∧ ∀ v ∈ args, v.length ≤ 2 ^ 31 := by
  induction args generalizing a parts with
  | nil => exact ⟨hcount, by simp⟩
  | cons v args ih =>
    rw [List.foldlM_cons] at hrun
    obtain ⟨a₁, hstore, hrest⟩ := bind_eq_ok.mp hrun
    obtain ⟨hv, hlt⟩ := storeArg_le h hcount hstore
    obtain ⟨b, t, hstore', h₁, -⟩ := storeArg_ok fresh h hlt hv
    obtain rfl : a₁ = b := Except.ok.inj (hstore.symm.trans hstore')
    obtain ⟨htotal, hargs⟩ := ih h₁ (by rwa [List.length_append, List.length_singleton]) hrest
    rw [List.length_append, List.length_singleton] at htotal
    exact ⟨by rw [List.length_cons]; omega, List.forall_mem_cons.mpr ⟨hv, hargs⟩⟩

theorem ArgVector.Holds.result (fresh : Nat → Nat → UInt8) (h : a.Holds parts) :
    ∃ tokens, a.result (fun k => some (fresh k)) = .ok (some tokens, (parts.length : Int)) ∧
      parts.map some <+: tokens := by
  obtain ⟨hvector, hargc⟩ := h
  rw [ArgVector.result, hargc]
  cases hvec : a.vector with
  | some vector =>
    rw [hvec, Option.getD_some] at hvector
    exact ⟨vector, rfl, by rw [hvector]⟩
  | none =>
    rw [hvec, Option.getD_none] at hvector
    have harray : tokenArray (some (fresh a.allocs)) [] 1 = .ok [none] :=
      @tokenArray_ok _ [] 1 (by decide) (by decide)
    refine ⟨[none], by simp only [harray]; rfl, ?_⟩
    rw [← hvector]
    exact List.nil_prefix

end Store

/-- `sdssplitargs` returns the arguments, and sets `*argc` to their number. -/
def ArgsReturned (m : Nat → Malloc) (s : List UInt8) (args : List (List UInt8)) : Prop :=
  ∃ tokens parts, sdssplitargs m (s ++ [0]) = .ok (some tokens, (args.length : Int)) ∧ parts.map some <+: tokens ∧
    Hold parts args

/-- The line denotes its arguments or has a bad quote. `sdssplitargs` returns the arguments
the line denotes, and NULL because of a bad quote. -/
structure Accepts (m : Nat → Malloc) (s : List UInt8) : Prop where
  total : (∃ args, Denotes s args) ∨ ∃ args last, BadQuote s args last
  returned_iff : ∀ args, ArgsReturned m s args ↔ Denotes s args
  null_iff : ∀ argc, sdssplitargs m (s ++ [0]) = .ok (none, argc) ↔ (∃ args last, BadQuote s args last) ∧ argc = 0

/-- `int` holds the number of arguments and their lengths. In front of a bad quote, where
nothing is returned, a string of 2^31 bytes does no harm. -/
structure InRange (s : List UInt8) : Prop where
  denotes : ∀ args, Denotes s args → args.length < 2 ^ 31 ∧ ∀ v ∈ args, v.length < 2 ^ 31
  badQuote : ∀ args last, BadQuote s args last → args.length < 2 ^ 31 ∧ ∀ v ∈ last :: args, v.length ≤ 2 ^ 31

section Line

variable {fresh : Nat → Nat → UInt8} {m : Nat → Malloc} {s last : List UInt8} {args args' : List (List UInt8)}

theorem holds_start (allocs : Nat) : ArgVector.Holds { vector := none, argc := 0, allocs } [] := ⟨rfl, rfl⟩

theorem Denotes.returned (h : Denotes s args) (hz : 0 ∉ s) (hcount : args.length < 2 ^ 31)
    (hlen : ∀ v ∈ args, v.length < 2 ^ 31) : ArgsReturned (fun k => some (fresh k)) s args := by
  obtain ⟨a, parts, hrun, ha, hhold⟩ := storeArgs_ok fresh (holds_start 0)
    (by rwa [List.length_nil, Nat.zero_add]) fun v hv => Nat.le_of_lt (hlen v hv)
  rw [List.nil_append] at ha
  obtain ⟨tokens, hresult, hprefix⟩ := ha.result fresh
  refine ⟨tokens, parts, ?_, hprefix, hhold hlen⟩
  rw [sdssplitargs, h.splitLoop hz (line_fuel s), hrun, ok_bind, hresult, List.Forall₂.length_eq (hhold hlen)]

theorem BadQuote.sdssplitargs (h : BadQuote s args last) (hz : 0 ∉ s) (hcount : args.length < 2 ^ 31)
    (hlen : ∀ v ∈ last :: args, v.length ≤ 2 ^ 31) :
    sdssplitargs (fun k => some (fresh k)) (s ++ [0]) = .ok (none, 0) := by
  obtain ⟨hlast, hargs⟩ := List.forall_mem_cons.mp hlen
  obtain ⟨a, parts, hrun, -⟩ := storeArgs_ok fresh (holds_start 0)
    (by rwa [List.length_nil, Nat.zero_add]) hargs
  obtain ⟨t, hcat, -⟩ := catBytes_empty_ok fresh (a.allocs + 1) hlast
  rw [CPractice.sdssplitargs, h.splitLoop hz (line_fuel s), hrun, ok_bind, sdsempty_ok, ok_bind, hcat]
  rfl

theorem Denotes.count_lt (h : Denotes s args) (hz : 0 ∉ s) {out : Option (List (Option Sdshdr)) × Int}
    (hrun : sdssplitargs (fun k => some (fresh k)) (s ++ [0]) = .ok out) : args.length < 2 ^ 31 := by
  rw [sdssplitargs, h.splitLoop hz (line_fuel s)] at hrun
  obtain ⟨a, hstore, -⟩ := bind_eq_ok.mp hrun
  have hle := (storeArgs_le (holds_start 0) (by decide) hstore).1
  rwa [List.length_nil, Nat.zero_add] at hle

theorem BadQuote.le (h : BadQuote s args last) (hz : 0 ∉ s) {out : Option (List (Option Sdshdr)) × Int}
    (hrun : CPractice.sdssplitargs (fun k => some (fresh k)) (s ++ [0]) = .ok out) :
    args.length < 2 ^ 31 ∧ ∀ v ∈ last :: args, v.length ≤ 2 ^ 31 := by
  rw [CPractice.sdssplitargs, h.splitLoop hz (line_fuel s)] at hrun
  obtain ⟨a, hstore, hrest⟩ := bind_eq_ok.mp hrun
  rw [sdsempty_ok, ok_bind] at hrest
  obtain ⟨t, hcat, -⟩ := bind_eq_ok.mp hrest
  obtain ⟨hcount, hargs⟩ := storeArgs_le (holds_start 0) (by decide) hstore
  rw [List.length_nil, Nat.zero_add] at hcount
  exact ⟨hcount, List.forall_mem_cons.mpr ⟨catBytes_empty_le _ hcat, hargs⟩⟩

theorem ArgsReturned.eq (h : ArgsReturned m s args) (h' : ArgsReturned m s args') : args = args' := by
  obtain ⟨tokens, parts, hrun, hprefix, hhold⟩ := h
  obtain ⟨tokens', parts', hrun', hprefix', hhold'⟩ := h'
  rw [hrun] at hrun'
  simp only [Except.ok.injEq, Prod.mk.injEq, Option.some.injEq, Int.natCast_inj] at hrun'
  obtain ⟨rfl, hcount⟩ := hrun'
  have hlen := List.Forall₂.length_eq hhold
  have hlen' := List.Forall₂.length_eq hhold'
  have hparts := List.prefix_of_prefix_length_le hprefix hprefix' (by rw [List.length_map, List.length_map]; omega)
  have heq := hparts.eq_of_length (by rw [List.length_map, List.length_map]; omega)
  rw [List.map_injective_iff.mpr (Option.some_injective _) heq] at hhold
  exact hhold.eq hhold'

theorem InRange.accepts (h : InRange s) (hz : 0 ∉ s) : Accepts (fun k => some (fresh k)) s := by
  have hgood : ∀ args, Denotes s args → ArgsReturned (fun k => some (fresh k)) s args := by
    intro args hargs
    obtain ⟨hcount, hlen⟩ := h.denotes args hargs
    exact hargs.returned hz hcount hlen
  have hbad : ∀ args last, BadQuote s args last → sdssplitargs (fun k => some (fresh k)) (s ++ [0]) = .ok (none, 0) := by
    intro args last hquote
    obtain ⟨hcount, hlen⟩ := h.badQuote args last hquote
    exact hquote.sdssplitargs hz hcount hlen
  have htotal := denotes_or_badQuote s
  refine ⟨htotal, fun args => ⟨fun hret => ?_, hgood args⟩, fun argc => ⟨fun hnull => ?_, ?_⟩⟩
  · rcases htotal with ⟨args', hargs⟩ | ⟨args', last, hquote⟩
    · rwa [hret.eq (hgood args' hargs)]
    · obtain ⟨tokens, parts, hrun, -⟩ := hret
      rw [hbad args' last hquote] at hrun
      cases hrun
  · rcases htotal with ⟨args, hargs⟩ | ⟨args, last, hquote⟩
    · obtain ⟨tokens, parts, hrun, -⟩ := hgood args hargs
      rw [hnull] at hrun
      cases hrun
    · rw [hbad args last hquote] at hnull
      cases hnull
      exact ⟨⟨args, last, hquote⟩, rfl⟩
  · rintro ⟨⟨args, last, hquote⟩, rfl⟩
    exact hbad args last hquote

theorem Accepts.inRange (h : Accepts (fun k => some (fresh k)) s) (hz : 0 ∉ s) : InRange s := by
  refine ⟨fun args hargs => ?_, fun args last hquote => ?_⟩
  · obtain ⟨tokens, parts, hrun, -, hhold⟩ := (h.returned_iff args).mpr hargs
    exact ⟨hargs.count_lt hz hrun, hhold.length_lt⟩
  · exact hquote.le hz ((h.null_iff 0).mpr ⟨⟨args, last, hquote⟩, rfl⟩)

end Line

/-- `sdssplitargs` accepts exactly its grammar, as long as `int` holds what it counts. -/
theorem sdssplitargs_accepts_iff (fresh : Nat → Nat → UInt8) {s : List UInt8} (hz : 0 ∉ s) :
    Accepts (fun k => some (fresh k)) s ↔ InRange s :=
  ⟨fun h => h.inRange hz, fun h => h.accepts hz⟩

section Short

variable {s text v rest : List UInt8}

theorem Argument.length_le (h : Argument text v rest) : v.length ≤ text.length := by
  cases h with
  | word _ _ _ => exact Nat.le_refl _
  | quoted q _ hbody _ =>
    have hle := body_length q hbody
    simp only [List.length_append, List.length_cons, List.length_nil]
    omega

theorem BadSection.length_le (h : BadSection rest v) : v.length ≤ rest.length := by
  cases h with
  | unterminated q hbody =>
    have hle := body_length q hbody
    rw [List.length_cons]
    omega
  | followed q hbody _ =>
    have hle := body_length q hbody
    simp only [List.length_append, List.length_cons]
    omega

theorem Denotes.le_length {args : List (List UInt8)} (h : Denotes s args) :
    args.length ≤ s.length ∧ ∀ v ∈ args, v.length ≤ s.length := by
  induction h with
  | done _ => simp
  | @argument b text v rest args _ _ harg _ ih =>
    have hpos := List.length_pos_iff.mpr harg.text_ne_nil
    have hle := harg.length_le
    simp only [List.length_append, List.length_cons]
    refine ⟨by omega, List.forall_mem_cons.mpr ⟨by omega, fun w hw => ?_⟩⟩
    have hw' := ih.2 w hw
    omega

theorem BadQuote.le_length {args : List (List UInt8)} {last : List UInt8} (h : BadQuote s args last) :
    args.length ≤ s.length ∧ ∀ v ∈ last :: args, v.length ≤ s.length := by
  induction h with
  | here _ _ _ hbad =>
    have hle := hbad.length_le
    simp only [List.length_append, List.length_nil, List.mem_singleton, forall_eq]
    omega
  | @later b text v rest args last _ _ harg _ ih =>
    have hpos := List.length_pos_iff.mpr harg.text_ne_nil
    have hle := harg.length_le
    obtain ⟨hlast, hargs⟩ := List.forall_mem_cons.mp ih.2
    simp only [List.length_append, List.length_cons]
    refine ⟨by omega, List.forall_mem_cons.mpr ⟨by omega, List.forall_mem_cons.mpr ⟨by omega, fun w hw => ?_⟩⟩⟩
    have hw' := hargs w hw
    omega

/-- A line shorter than 2^31 bytes is in range. -/
theorem inRange_of_length_lt (h : s.length < 2 ^ 31) : InRange s := by
  refine ⟨fun args hargs => ?_, fun args last hquote => ?_⟩
  · obtain ⟨hcount, hlen⟩ := hargs.le_length
    exact ⟨by omega, fun v hv => Nat.lt_of_le_of_lt (hlen v hv) h⟩
  · obtain ⟨hcount, hlen⟩ := hquote.le_length
    exact ⟨by omega, fun v hv => Nat.le_trans (hlen v hv) (Nat.le_of_lt h)⟩

end Short

def twoArguments : List UInt8 :=
  [chr 'a', chr ' ', chr 'b', chr '"', chr '\\', chr 'x', chr '4', chr '1', chr '\\', chr 'n', chr '"']

theorem twoArguments_accepted :
    0 ∉ twoArguments ∧ InRange twoArguments ∧ Accepts (fun _ => some fun _ => 7) twoArguments := by
  have hz : 0 ∉ twoArguments := by decide
  have hrange : InRange twoArguments := inRange_of_length_lt (by decide)
  exact ⟨hz, hrange, (sdssplitargs_accepts_iff (fun _ _ => 7) hz).mpr hrange⟩

/-- A line that is one word of 2^31 bytes: the length of the argument is negative. -/
def longWord : List UInt8 := List.replicate (2 ^ 31) (chr 'a')

theorem longWord_denotes : Denotes longWord [longWord] := by
  have hmem : ∀ c ∈ longWord, c = chr 'a' := fun c hc => (List.mem_replicate.mp hc).2
  have hne : longWord ≠ [] := by
    rw [longWord, Ne, List.replicate_eq_nil_iff]
    decide
  have hword : Word longWord := fun c hc => hmem c hc ▸ by decide
  have hargs : Denotes ([] ++ (longWord ++ [])) [longWord] :=
    .argument (by simp [Blank]) (fun c hc => hmem c (List.mem_of_mem_head? hc) ▸ by decide)
      (.word hne hword (by simp)) (.done (by simp [Blank]))
  rwa [List.nil_append, List.append_nil] at hargs

theorem longWord_not_accepted : 0 ∉ longWord ∧ ¬ Accepts (fun _ => some fun _ => 7) longWord := by
  have hz : 0 ∉ longWord := by
    intro h
    exact absurd (List.mem_replicate.mp h).2 (by decide)
  refine ⟨hz, fun h => ?_⟩
  have hlen := ((@Accepts.inRange (fun _ _ => 7) _ h hz).denotes _ longWord_denotes).2 longWord List.mem_cons_self
  rw [longWord, List.length_replicate] at hlen
  exact absurd hlen (by decide)

end CPractice
