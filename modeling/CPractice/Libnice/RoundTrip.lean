import CPractice.Libnice.Line
import Mathlib.Data.List.Forall2

/-! Which lines the other side accepts, and that it accepts the line that was printed. -/

namespace CPractice

namespace Libnice

open CInt CMem

section Split

variable {g : GLib} {s : List UInt8}

theorem g_strsplit_five (gl : g.Lawful) {t₁ t₂ t₃ t₄ t₅ : List UInt8} :
    g.g_strsplit s [comma] 5 = [t₁, t₂, t₃, t₄, t₅] ↔
      s = t₁ ++ comma :: (t₂ ++ comma :: (t₃ ++ comma :: (t₄ ++ comma :: t₅))) ∧
        comma ∉ t₁ ∧ comma ∉ t₂ ∧ comma ∉ t₃ ∧ comma ∉ t₄ := by
  have hfive : Pieces comma 5 s [t₁, t₂, t₃, t₄, t₅] ↔
      s = t₁ ++ comma :: (t₂ ++ comma :: (t₃ ++ comma :: (t₄ ++ comma :: t₅))) ∧
        comma ∉ t₁ ∧ comma ∉ t₂ ∧ comma ∉ t₃ ∧ comma ∉ t₄ := by
    simp only [pieces_cons_cons, pieces_singleton]
    constructor
    · rintro ⟨r₁, rfl, h₁, r₂, rfl, h₂, r₃, rfl, h₃, r₄, rfl, h₄, rfl, -⟩
      exact ⟨rfl, h₁, h₂, h₃, h₄⟩
    · rintro ⟨rfl, h₁, h₂, h₃, h₄⟩
      exact ⟨_, rfl, h₁, _, rfl, h₂, _, rfl, h₃, _, rfl, h₄, rfl, by omega, by omega⟩
  rw [← hfive]
  by_cases hs : s = []
  · rw [hfive, hs, gl.g_strsplit_nil]
    simp
  · have hpieces := gl.g_strsplit_pieces s comma 5 hs (by omega)
    constructor
    · intro h
      rwa [h] at hpieces
    · exact fun h => hpieces.unique h (hpieces.ne_nil hs) (List.cons_ne_nil _ _)

end Split

section Accepts

variable {g : GLib} {a : Addressing} {stream_id : Nat}

/-- What a text must be to be read as the candidate `c`. -/
def IsCandidate (a : Addressing) (stream_id : Nat) (scand : List UInt8) (c : Candidate a.Address) : Prop :=
  ∃ foundation priority addr port type address,
    scand = foundation ++ comma :: (priority ++ comma :: (addr ++ comma :: (port ++ comma :: type.name))) ∧
      (comma ∉ foundation ∧ comma ∉ priority ∧ comma ∉ addr ∧ comma ∉ port) ∧
      a.set_from_string addr = some address ∧
      c = ⟨type, 1, stream_id, .udp, foundation.take 32, toUnsigned (atoi priority),
        a.set_port address (toUnsigned (atoi port))⟩

theorem find_name {type : List UInt8} {t : CandidateType} :
    candidate_types.find? (fun t => t.name == type) = some t ↔ type = t.name := by
  constructor
  · intro h
    have hname : (t.name == type) = true := List.find?_some (p := fun t : CandidateType => t.name == type) h
    exact (eq_of_beq hname).symm
  · rintro rfl
    cases t with
    | host => rfl
    | server_reflexive => rfl
    | peer_reflexive => rfl
    | relayed => rfl

theorem parse_candidate_iff (gl : g.Lawful) {scand : List UInt8} {c : Candidate a.Address} :
    parse_candidate g a scand stream_id = .ok c ↔ IsCandidate a stream_id scand c := by
  constructor
  · intro h
    rw [parse_candidate] at h
    split at h
    case h_1 foundation priority addr port type hsplit =>
      obtain ⟨hscand, hcommas⟩ := (g_strsplit_five gl).mp hsplit
      split at h
      case h_1 => cases h
      case h_2 ntype hfind =>
        split at h
        case h_1 => cases h
        case h_2 address haddress =>
          cases h
          exact ⟨foundation, priority, addr, port, ntype, address, find_name.mp hfind ▸ hscand, hcommas, haddress,
            rfl⟩
    case h_2 => cases h
  · rintro ⟨foundation, priority, addr, port, type, address, hscand, hcommas, haddress, rfl⟩
    rw [parse_candidate, (g_strsplit_five gl).mpr ⟨hscand, hcommas⟩]
    dsimp only
    rw [find_name.mpr rfl, haddress]
    rfl

theorem parseLoop_filter (ts : List (List UInt8)) (r : Remote a) :
    parseLoop g a stream_id ts r = parseLoop g a stream_id (ts.filter (·.length ≠ 0)) r := by
  induction ts generalizing r with
  | nil => rfl
  | cons t ts ih =>
    by_cases ht : t.length = 0
    · rw [parseLoop, if_pos ht, List.filter_cons_of_neg (by simpa using ht), ih]
    · rw [List.filter_cons_of_pos (by simpa using ht), parseLoop, parseLoop, if_neg ht, if_neg ht]
      simp only [ih]

theorem parseLoop_candidates (gl : g.Lawful) {ws : List (List UInt8)} (hws : ∀ w ∈ ws, w.length ≠ 0) {u p : List UInt8}
    {cs : List (Candidate a.Address)} {r : Remote a} :
    parseLoop g a stream_id ws ⟨some u, some p, cs⟩ = .ok r ↔
      ∃ ds, List.Forall₂ (IsCandidate a stream_id) ws ds ∧ r = ⟨some u, some p, ds.reverse ++ cs⟩ := by
  induction ws generalizing cs with
  | nil =>
    constructor
    · intro h
      cases h
      exact ⟨[], .nil, rfl⟩
    · rintro ⟨ds, hds, rfl⟩
      cases hds
      rfl
  | cons w ws ih =>
    have ih := @ih (fun v hv => hws v (List.mem_cons_of_mem _ hv))
    rw [parseLoop, if_neg (hws w List.mem_cons_self)]
    constructor
    · intro h
      dsimp only at h
      split at h
      case h_1 => cases h
      case h_2 c hc =>
        obtain ⟨ds, hds, rfl⟩ := ih.mp h
        exact ⟨c :: ds, .cons ((parse_candidate_iff gl).mp hc) hds, by simp⟩
    · rintro ⟨ds, hds, rfl⟩
      obtain ⟨c, ds, hc, htail, rfl⟩ := List.forall₂_cons_left_iff.mp hds
      dsimp only
      rw [(parse_candidate_iff gl).mpr hc]
      exact ih.mpr ⟨ds, htail, by simp⟩

def isDelimiter (c : UInt8) : Bool := delimiters.contains c

def words (line : List UInt8) : List (List UInt8) := (line.splitOnP isDelimiter).filter (·.length ≠ 0)

theorem length_of_mem_words {line w : List UInt8} (hw : w ∈ words line) : w.length ≠ 0 := by
  simpa using (List.mem_filter.mp hw).2

theorem words_eq (gl : g.Lawful) (line : List UInt8) :
    (g.g_strsplit_set line delimiters 0).filter (·.length ≠ 0) = words line := by
  by_cases hline : line = []
  · rw [hline, gl.g_strsplit_set_nil]
    rfl
  · rw [gl.g_strsplit_set_all line delimiters hline]
    rfl

theorem parse_remote_data_words (gl : g.Lawful) (agent : Agent a) (line : List UInt8) :
    parse_remote_data g a agent stream_id line =
      (parseLoop g a stream_id (words line) ⟨none, none, []⟩ >>= offer a agent) := by
  rw [parse_remote_data, parseLoop_filter, words_eq gl]

theorem parseLoop_credentials {u p : List UInt8} {ws : List (List UInt8)} (hu : u.length ≠ 0) (hp : p.length ≠ 0) :
    parseLoop g a stream_id (u :: p :: ws) ⟨none, none, []⟩ = parseLoop g a stream_id ws ⟨some u, some p, []⟩ := by
  rw [parseLoop, if_neg hu]
  dsimp only
  rw [parseLoop, if_neg hp]

theorem parse_remote_data_candidates (gl : g.Lawful) (agent : Agent a) {line u p : List UInt8} {ws : List (List UInt8)}
    {ds : List (Candidate a.Address)} (hline : words line = u :: p :: ws)
    (hds : List.Forall₂ (IsCandidate a stream_id) ws ds) (hne : ds ≠ []) :
    parse_remote_data g a agent stream_id line =
      if agent.set_remote_credentials u p = false then .error [.credentials]
      else if agent.set_remote_candidates ds.reverse < 1 then .error [.candidates]
      else .ok (u, p, ds.reverse) := by
  have hwords : ∀ w ∈ u :: p :: ws, w.length ≠ 0 := fun w hw => length_of_mem_words (hline ▸ hw)
  simp only [List.forall_mem_cons] at hwords
  obtain ⟨hu, hp, hws⟩ := hwords
  have hloop := (@parseLoop_candidates g a stream_id gl ws hws u p [] _).mpr ⟨ds, hds, rfl⟩
  rw [parse_remote_data_words gl, hline, parseLoop_credentials hu hp, hloop, ok_bind, List.append_nil]
  obtain ⟨c, cs, hcs⟩ := List.exists_cons_of_ne_nil (List.reverse_ne_nil_iff.mpr hne)
  rw [hcs]
  rfl

theorem parseLoop_bad (gl : g.Lawful) {ws ts : List (List UInt8)} (hws : ∀ w ∈ ws, w.length ≠ 0)
    {ds : List (Candidate a.Address)}
    (hds : List.Forall₂ (IsCandidate a stream_id) ws ds) {w u p : List UInt8} (hw : w.length ≠ 0)
    (hbad : ∀ c, ¬ IsCandidate a stream_id w c) {cs : List (Candidate a.Address)} :
    ∃ ms, parseLoop g a stream_id (ws ++ w :: ts) ⟨some u, some p, cs⟩ = .error (ms ++ [.candidate w]) := by
  induction hds generalizing cs with
  | nil =>
    rw [List.nil_append, parseLoop, if_neg hw]
    dsimp only
    cases hparse : parse_candidate g a w stream_id with
    | error ms => exact ⟨ms, rfl⟩
    | ok c => exact absurd ((parse_candidate_iff gl).mp hparse) (hbad c)
  | @cons v d ws ds hc _ ih =>
    have hrest : ∀ u ∈ ws, u.length ≠ 0 := fun u hu => hws u (List.mem_cons_of_mem _ hu)
    obtain ⟨ms, hms⟩ := @ih hrest (d :: cs)
    refine ⟨ms, ?_⟩
    rw [List.cons_append, parseLoop, if_neg (hws v List.mem_cons_self)]
    dsimp only
    rw [(parse_candidate_iff gl).mpr hc]
    exact hms

theorem candidates_or_bad (ws : List (List UInt8)) : (∃ ds, List.Forall₂ (IsCandidate a stream_id) ws ds) ∨
    ∃ pre w post ds, ws = pre ++ w :: post ∧ List.Forall₂ (IsCandidate a stream_id) pre ds ∧
      ∀ c, ¬ IsCandidate a stream_id w c := by
  induction ws with
  | nil => exact .inl ⟨[], .nil⟩
  | cons w ws ih =>
    by_cases hw : ∃ c, IsCandidate a stream_id w c
    · obtain ⟨c, hc⟩ := hw
      rcases ih with ⟨ds, hds⟩ | ⟨pre, v, post, ds, rfl, hds, hbad⟩
      · exact .inl ⟨c :: ds, .cons hc hds⟩
      · exact .inr ⟨w :: pre, v, post, c :: ds, rfl, .cons hc hds, hbad⟩
    · exact .inr ⟨[], w, ws, [], rfl, .nil, not_exists.mp hw⟩

/-- Every line: two words and behind them candidates, at least one, are offered to the agent, the candidates in
reverse order; the first word that is no candidate is complained about; so are fewer than three words. -/
theorem parse_remote_data_exact (gl : g.Lawful) (agent : Agent a) (line : List UInt8) :
    (∃ u p ws ds, words line = u :: p :: ws ∧ ds ≠ [] ∧ List.Forall₂ (IsCandidate a stream_id) ws ds ∧
      parse_remote_data g a agent stream_id line =
        if agent.set_remote_credentials u p = false then .error [.credentials]
        else if agent.set_remote_candidates ds.reverse < 1 then .error [.candidates]
        else .ok (u, p, ds.reverse)) ∨
      (∃ u p pre w post ds ms, words line = u :: p :: (pre ++ w :: post) ∧
        List.Forall₂ (IsCandidate a stream_id) pre ds ∧ (∀ c, ¬ IsCandidate a stream_id w c) ∧
        parse_remote_data g a agent stream_id line = .error (ms ++ [.candidate w])) ∨
      (words line).length < 3 ∧ parse_remote_data g a agent stream_id line = .error [.tooFew] := by
  cases hline : words line with
  | nil =>
    refine .inr (.inr ⟨by simp, ?_⟩)
    rw [parse_remote_data_words gl, hline]
    rfl
  | cons u ts =>
    have hu : u.length ≠ 0 := length_of_mem_words (hline ▸ List.mem_cons_self)
    cases ts with
    | nil =>
      refine .inr (.inr ⟨by simp, ?_⟩)
      rw [parse_remote_data_words gl, hline, parseLoop, if_neg hu]
      rfl
    | cons p ws =>
      rcases @candidates_or_bad a stream_id ws with ⟨ds, hds⟩ | ⟨pre, w, post, ds, rfl, hds, hbad⟩
      · by_cases hne : ds = []
        · subst hne
          cases hds
          have hp : p.length ≠ 0 := length_of_mem_words (hline ▸ List.mem_cons_of_mem _ List.mem_cons_self)
          refine .inr (.inr ⟨by simp, ?_⟩)
          rw [parse_remote_data_words gl, hline, parseLoop_credentials hu hp]
          rfl
        · exact .inl ⟨u, p, ws, ds, rfl, hne, hds, parse_remote_data_candidates gl agent hline hds hne⟩
      · have hwords : ∀ v ∈ u :: p :: (pre ++ w :: post), v.length ≠ 0 :=
          fun v hv => length_of_mem_words (hline ▸ hv)
        simp only [List.forall_mem_cons, List.forall_mem_append] at hwords
        obtain ⟨-, hp, hpre, hw, -⟩ := hwords
        obtain ⟨ms, hms⟩ := @parseLoop_bad g a stream_id gl pre post hpre ds hds w u p hw hbad []
        refine .inr (.inl ⟨u, p, pre, w, post, ds, ms, rfl, hds, hbad, ?_⟩)
        rw [parse_remote_data_words gl, hline, parseLoop_credentials hu hp, hms, error_bind]

/-- IPv4 addresses in dotted form. -/
def ipv4 : Addressing where
  Address := (UInt8 × UInt8 × UInt8 × UInt8) × UInt16
  to_string x := [chr '.'].intercalate
    [decimal x.1.1.toNat, decimal x.1.2.1.toNat, decimal x.1.2.2.1.toNat, decimal x.1.2.2.2.toNat]
  set_from_string s :=
    match (s.splitOn (chr '.')).map parseNat with
    | [some b₁, some b₂, some b₃, some b₄] =>
      if b₁ < 256 ∧ b₂ < 256 ∧ b₃ < 256 ∧ b₄ < 256 then
        some ((UInt8.ofNat b₁, UInt8.ofNat b₂, UInt8.ofNat b₃, UInt8.ofNat b₄), 0)
      else none
    | _ => none
  get_port x := x.2.toNat
  set_port x port := (x.1, UInt16.ofNat port)

def willing : Agent ipv4 := ⟨fun _ _ => true, fun cs => cs.length⟩

def refused : List UInt8 := [chr 'u', chr ' ', chr 'p', chr ' ', chr 'x', chr '\n']

theorem parse_remote_data_exact_refused :
    ∃ ms, parse_remote_data glib ipv4 willing 1 refused = .error (ms ++ [.candidate [chr 'x']]) := by
  have hwords : words refused = [[chr 'u'], [chr 'p'], [chr 'x']] := by decide +kernel
  rcases @parse_remote_data_exact _ _ 1 glib_lawful willing refused with
    ⟨u, p, ws, ds, hline, -, hds, -⟩ | ⟨u, p, pre, w, post, ds, ms, hline, -, -, h⟩ | ⟨hlt, -⟩
  · rw [hwords] at hline
    cases hline
    obtain ⟨c, ds, ⟨_, _, _, _, _, _, hx, -⟩, -, rfl⟩ := List.forall₂_cons_left_iff.mp hds
    have hcomma : comma ∈ [chr 'x'] := hx ▸ by simp
    exact absurd hcomma (by decide)
  · rw [hwords] at hline
    cases pre with
    | nil =>
      cases hline
      exact ⟨ms, h⟩
    | cons v pre => simp at hline
  · rw [hwords] at hlt
    exact absurd hlt (by decide)

end Accepts

section RoundTrip

variable {g : GLib} {a : Addressing}

/-- An address can be printed and read again, but for its port. -/
structure Addressing.Lawful (a : Addressing) : Prop where
  port_lt : ∀ x, a.get_port x < 2 ^ 16
  printable : ∀ x, comma ∉ a.to_string x ∧ ∀ c ∈ a.to_string x, isDelimiter c = false
  parse_print : ∀ x, ∃ y, a.set_from_string (a.to_string x) = some y ∧ a.set_port y (a.get_port x) = x

structure Candidate.Printable (c : Candidate a.Address) : Prop where
  foundation_ok : comma ∉ c.foundation ∧ ∀ b ∈ c.foundation, isDelimiter b = false
  foundation_length : c.foundation.length ≤ 32
  priority_lt : c.priority < 2 ^ 32

/-- What the other side makes of a candidate. -/
def Candidate.received (c : Candidate a.Address) (stream_id : Nat) : Candidate a.Address :=
  { c with component_id := 1, stream_id := stream_id, transport := .udp }

theorem atoi_decimal {n : Nat} (h : n < 2 ^ 32) : toUnsigned (atoi (decimal n)) = n := by
  rw [atoi, strtoll_decimal n (by omega), toUnsigned, toInt_emod]
  omega

theorem isDelimiter_decimal (n : Nat) : comma ∉ decimal n ∧ ∀ c ∈ decimal n, isDelimiter c = false := by
  refine ⟨not_mem_of_isdigit (by decide) n, fun c hc => ?_⟩
  have hne : ∀ b, isdigit b = false → c ≠ b := by
    rintro b hb rfl
    exact absurd (isdigit_of_mem_decimal c hc) (by rw [hb]; exact Bool.false_ne_true)
  simp only [isDelimiter, delimiters, List.contains_cons, List.contains_nil, Bool.or_eq_false_iff,
    beq_eq_false_iff_ne]
  exact ⟨hne _ (by decide), hne _ (by decide), hne _ (by decide), trivial⟩

theorem isCandidate_print (law : a.Lawful) {c : Candidate a.Address} (hc : c.Printable) (stream_id : Nat) :
    IsCandidate a stream_id (printCandidate a c) (c.received stream_id) := by
  obtain ⟨address, hparse, hport⟩ := law.parse_print c.addr
  have hlt := law.port_lt c.addr
  refine ⟨c.foundation, decimal c.priority, a.to_string c.addr, decimal (a.get_port c.addr), c.type, address, rfl,
    ⟨hc.foundation_ok.1, (isDelimiter_decimal _).1, (law.printable c.addr).1, (isDelimiter_decimal _).1⟩, hparse,
      ?_⟩
  rw [atoi_decimal hc.priority_lt, atoi_decimal (by omega), hport, List.take_of_length_le hc.foundation_length]
  rfl

theorem printCandidate_delimiter (law : a.Lawful) {c : Candidate a.Address} (hc : c.Printable) :
    ∀ b ∈ printCandidate a c, isDelimiter b = false := by
  have hcomma : isDelimiter comma = false := by decide
  have hname : ∀ b ∈ c.type.name, isDelimiter b = false := by
    cases c.type with
    | host => decide +kernel
    | server_reflexive => decide +kernel
    | peer_reflexive => decide +kernel
    | relayed => decide +kernel
  intro b hb
  simp only [printCandidate, List.mem_append, List.mem_cons] at hb
  rcases hb with hb | rfl | hb | rfl | hb | rfl | hb | rfl | hb
  · exact hc.foundation_ok.2 b hb
  · exact hcomma
  · exact (isDelimiter_decimal _).2 b hb
  · exact hcomma
  · exact (law.printable _).2 b hb
  · exact hcomma
  · exact (isDelimiter_decimal _).2 b hb
  · exact hcomma
  · exact hname b hb

theorem splitOnP_line {w : List UInt8} {vs : List (List UInt8)} (hw : ∀ c ∈ w, isDelimiter c = false)
    (hvs : ∀ v ∈ vs, ∀ c ∈ v, isDelimiter c = false) :
    (w ++ vs.flatMap (fun v => chr ' ' :: v) ++ [chr '\n']).splitOnP isDelimiter = w :: vs ++ [[]] := by
  induction vs generalizing w with
  | nil =>
    rw [List.flatMap_nil, List.append_nil, List.splitOnP_append_cons_of_forall_mem hw _ (by decide),
      List.splitOnP_nil]
    rfl
  | cons v vs ih =>
    have hrest := ih (hvs v List.mem_cons_self) fun u hu => hvs u (List.mem_cons_of_mem _ hu)
    rw [List.flatMap_cons, List.cons_append, List.append_assoc, List.cons_append,
      List.splitOnP_append_cons_of_forall_mem hw _ (by decide), hrest]
    rfl

def Word (w : List UInt8) : Prop := w ≠ [] ∧ ∀ c ∈ w, isDelimiter c = false

/-- The line that one side prints gives the other side its credentials and candidates, the candidates in
reverse order. -/
theorem remote_data_round_trip (gl : g.Lawful) (law : a.Lawful) {agent : Agent a} {ufrag password : List UInt8}
    (hufrag : Word ufrag) (hpassword : Word password) {cands : List (Candidate a.Address)} (hne : cands ≠ [])
    (hcands : ∀ c ∈ cands, c.Printable) (stream_id : Nat) :
    ∃ line, print_local_data a (some (ufrag, password)) cands = some line ∧
      (parse_remote_data g a agent stream_id line =
        .ok (ufrag, password, (cands.map (·.received stream_id)).reverse) ↔
        agent.set_remote_credentials ufrag password = true ∧
          1 ≤ agent.set_remote_candidates (cands.map (·.received stream_id)).reverse) := by
  obtain ⟨c, cs, rfl⟩ := List.exists_cons_of_ne_nil hne
  refine ⟨_, rfl, ?_⟩
  generalize c :: cs = cands at hne hcands
  have hline : words (ufrag ++ chr ' ' :: password ++ cands.flatMap (fun c => chr ' ' :: printCandidate a c) ++
      [chr '\n']) = ufrag :: password :: cands.map (printCandidate a) := by
    have hsplit := @splitOnP_line ufrag (password :: cands.map (printCandidate a)) hufrag.2 (by
      intro v hv
      rcases List.mem_cons.mp hv with rfl | hv
      · exact hpassword.2
      · obtain ⟨c, hc, rfl⟩ := List.mem_map.mp hv
        exact printCandidate_delimiter law (hcands c hc))
    rw [List.flatMap_cons, List.flatMap_map, ← List.append_assoc] at hsplit
    have hnonempty : ∀ v ∈ ufrag :: password :: cands.map (printCandidate a), v ≠ [] := by
      simp only [List.forall_mem_cons]
      refine ⟨hufrag.1, hpassword.1, fun v hv => ?_⟩
      obtain ⟨c, -, rfl⟩ := List.mem_map.mp hv
      simp [printCandidate]
    rw [words, hsplit, List.filter_append, List.filter_eq_self.mpr fun v hv => by simpa using hnonempty v hv]
    exact List.append_nil _
  have hds : List.Forall₂ (IsCandidate a stream_id) (cands.map (printCandidate a))
    (cands.map (·.received stream_id)) := by
    rw [List.forall₂_map_left_iff, List.forall₂_map_right_iff, List.forall₂_same]
    exact fun c hc => isCandidate_print law (hcands c hc) stream_id
  rw [parse_remote_data_candidates gl agent hline hds (by simpa using hne)]
  generalize (cands.map (·.received stream_id)).reverse = cs
  by_cases hcredentials : agent.set_remote_credentials ufrag password = false
  · simp [hcredentials]
  · by_cases hcandidates : agent.set_remote_candidates cs < 1
    · simp [hcredentials, hcandidates]
    · simp only [if_neg hcredentials, if_neg hcandidates, true_iff]
      exact ⟨by simpa using hcredentials, by omega⟩

theorem mem_ipv4_to_string {x : ipv4.Address} {c : UInt8} (hc : c ∈ ipv4.to_string x) :
    c = chr '.' ∨ ∃ n, c ∈ decimal n := by
  simp only [ipv4, List.intercalate_cons_cons, List.intercalate_singleton, List.mem_append,
    List.mem_singleton] at hc
  rcases hc with (hc | hc) | (hc | hc) | (hc | hc) | hc
  · exact .inr ⟨_, hc⟩
  · exact .inl hc
  · exact .inr ⟨_, hc⟩
  · exact .inl hc
  · exact .inr ⟨_, hc⟩
  · exact .inl hc
  · exact .inr ⟨_, hc⟩

theorem ipv4_lawful : ipv4.Lawful where
  port_lt x := x.2.toNat_lt
  printable x := by
    refine ⟨fun hc => ?_, fun c hc => ?_⟩
    · rcases mem_ipv4_to_string hc with h | ⟨n, h⟩
      · exact absurd h (by decide)
      · exact (isDelimiter_decimal n).1 h
    · rcases mem_ipv4_to_string hc with rfl | ⟨n, h⟩
      · decide
      · exact (isDelimiter_decimal n).2 c h
  parse_print x := by
    obtain ⟨⟨b₁, b₂, b₃, b₄⟩, port⟩ := x
    refine ⟨((b₁, b₂, b₃, b₄), 0), ?_, ?_⟩
    · have hdot : ∀ l ∈ [decimal b₁.toNat, decimal b₂.toNat, decimal b₃.toNat, decimal b₄.toNat], chr '.' ∉ l := by
        simp only [List.forall_mem_cons]
        exact ⟨not_mem_of_isdigit (by decide) _, not_mem_of_isdigit (by decide) _, not_mem_of_isdigit (by decide) _,
          not_mem_of_isdigit (by decide) _, by simp⟩
      simp only [ipv4]
      rw [List.splitOn_intercalate _ hdot (by simp)]
      simp only [List.map_cons, List.map_nil, parseNat_decimal]
      rw [if_pos ⟨b₁.toNat_lt, b₂.toNat_lt, b₃.toNat_lt, b₄.toNat_lt⟩]
      simp
    · simp [ipv4]

def hostCandidate : Candidate ipv4.Address :=
  ⟨.host, 2, 7, .tcp_passive, [chr '1'], 2 ^ 31 + 5, ((192, 168, 0, 1), 4000)⟩

theorem hostCandidate_printable : hostCandidate.Printable := ⟨by decide +kernel, by decide, by decide⟩

theorem remote_data_round_trip_host :
    ∃ line, print_local_data ipv4 (some ([chr 'u'], [chr 'p'])) [hostCandidate] = some line ∧
      parse_remote_data glib ipv4 willing 1 line = .ok ([chr 'u'], [chr 'p'], [hostCandidate.received 1]) := by
  obtain ⟨line, hline, hparse⟩ := @remote_data_round_trip glib ipv4 glib_lawful ipv4_lawful willing _ _
    (show Word [chr 'u'] from ⟨by decide, by decide +kernel⟩)
    (show Word [chr 'p'] from ⟨by decide, by decide +kernel⟩) _ (List.cons_ne_nil hostCandidate [])
    (List.forall_mem_singleton.mpr hostCandidate_printable) 1
  exact ⟨line, hline, hparse.mpr ⟨rfl, by decide⟩⟩

end RoundTrip

end Libnice

end CPractice
