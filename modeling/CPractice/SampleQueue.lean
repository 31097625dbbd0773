import CPractice.Lib.Chain

/-! The queue of the googletest samples, a linked list with a pointer to its last node. Any number of
queues share the heap, and nobody else uses it. -/

namespace CPractice

namespace SampleQueue

open CMem

variable {E : Type}

structure Queue where
  head_ : Option Nat
  last_ : Option Nat
  size_ : Nat
  deriving DecidableEq, Repr

def Queue.empty : Queue := ⟨none, none, 0⟩

def deref : Option Nat → Except Fault Nat
  | some a => .ok a
  | none => .error .outOfBounds

def clearLoop : Nat → NodeHeap E → Nat → Option Nat → Except Fault (NodeHeap E)
  | 0, _, _, _ => .error .diverges
  | fuel + 1, h, node, next => do
    let h ← h.free node
    match next with
    | none => return h
    | some node =>
      let n ← h.load node
      clearLoop fuel h node n.next

def Clear (h : NodeHeap E) (q : Queue) : Except Fault (NodeHeap E × Queue) :=
  if q.size_ > 0 then do
    let node ← deref q.head_
    let n ← h.load node
    let h ← clearLoop h.brk h node n.next
    return (h, Queue.empty)
  else return (h, q)

def Enqueue (h : NodeHeap E) (q : Queue) (element : E) : Except Fault (NodeHeap E × Queue) := do
  let new_node := h.brk
  let h := h.alloc ⟨element, none⟩
  if q.size_ = 0 then return (h, ⟨some new_node, some new_node, 1⟩)
  else
    let last ← deref q.last_
    let n ← h.load last
    let h ← h.store last { n with next := some new_node }
    return (h, { q with last_ := some new_node, size_ := q.size_ + 1 })

def Dequeue (h : NodeHeap E) (q : Queue) : Except Fault (Option E × NodeHeap E × Queue) :=
  if q.size_ = 0 then return (none, h, q)
  else do
    let old_head ← deref q.head_
    let n ← h.load old_head
    let size_ := q.size_ - 1
    let last_ := if size_ = 0 then none else q.last_
    let element := n.val
    let h ← h.free old_head
    return (some element, h, ⟨n.next, last_, size_⟩)

def mapLoop (function : E → E) : Nat → NodeHeap E → Option Nat → Queue → Except Fault (NodeHeap E × Queue)
  | _, h, none, new_queue => .ok (h, new_queue)
  | 0, _, some _, _ => .error .diverges
  | fuel + 1, h, some node, new_queue => do
    let n ← h.load node
    let (h, new_queue) ← Enqueue h new_queue (function n.val)
    let n ← h.load node
    mapLoop function fuel h n.next new_queue

def Map (h : NodeHeap E) (q : Queue) (function : E → E) : Except Fault (NodeHeap E × Queue) :=
  mapLoop function h.brk h q.head_ Queue.empty

section Operations

variable {h : NodeHeap E} {q : Queue} {l : List (Nat × E)}

/-- The queue holds the nodes `l`, in that order. -/
structure Holds (h : NodeHeap E) (q : Queue) (l : List (Nat × E)) : Prop where
  chain : Chain h q.head_ l
  last : q.last_ = l.getLast?.map Prod.fst
  size : q.size_ = l.length

/-- What an operation on the queue that holds `l` may do to the rest of the heap: it allocates nothing
that it does not keep. -/
structure Changes (h : NodeHeap E) (l : List (Nat × E)) (h' : NodeHeap E) (l' : List (Nat × E)) : Prop
    extends Frame h l h' l' where
  new : ∀ a, h.brk ≤ a → h'.cell a ≠ none → a ∈ l'.map Prod.fst

theorem Changes.refl (h : NodeHeap E) (l : List (Nat × E)) : Changes h l h l where
  toFrame := Frame.refl h l
  new a ha hlive := absurd (h.beyond a ha) hlive

theorem Changes.trans {h₁ h₂ h₃ : NodeHeap E} {l₁ l₂ l₃ : List (Nat × E)} (hf : Changes h₁ l₁ h₂ l₂)
    (hg : Changes h₂ l₂ h₃ l₃) : Changes h₁ l₁ h₃ l₃ where
  toFrame := hf.toFrame.trans hg.toFrame
  new a ha hlive := by
    rcases Nat.lt_or_ge a h₂.brk with hlt | hge
    · by_contra hnot
      by_cases hmid : a ∈ l₂.map Prod.fst
      · exact hlive (hg.removed a hlt hmid hnot)
      · rw [hg.outside a hlt hmid] at hlive
        exact hmid (hf.new a ha hlive)
    · exact hg.new a hge hlive

theorem lt_brk_of_chain {p : Option Nat} (hc : Chain h p l) {a : Nat} (ha : a ∈ l.map Prod.fst) : a < h.brk := by
  obtain ⟨⟨b, v⟩, hb, rfl⟩ := List.mem_map.mp ha
  obtain ⟨next, hcell⟩ := hc.cell_of_mem hb
  exact NodeHeap.lt_brk hcell

theorem Holds.congr {h' : NodeHeap E} (hq : Holds h q l) (he : ∀ a ∈ l.map Prod.fst, h'.cell a = h.cell a) :
    Holds h' q l :=
  ⟨hq.chain.congr he, hq.last, hq.size⟩

theorem holds_empty (h : NodeHeap E) : Holds h Queue.empty [] := ⟨rfl, rfl, rfl⟩

theorem Holds.eq_empty (hq : Holds h q []) : q = Queue.empty := by
  obtain ⟨head_, last_, size_⟩ := q
  obtain ⟨rfl, rfl, rfl⟩ := hq
  rfl

theorem eq_brk_of_alloc {n : Node E} {a : Nat} (ha : h.brk ≤ a) (hlive : (h.alloc n).cell a ≠ none) :
    a = h.brk := by
  by_contra hne
  rw [NodeHeap.alloc_cell_of_ne hne] at hlive
  exact hlive (h.beyond a ha)

theorem chain_snoc {p : Option Nat} {pre : List (Nat × E)} {a : Nat} {v : E} (hc : Chain h p (pre ++ [(a, v)]))
    (e : E)
    (hlt : a < (h.alloc ⟨e, none⟩).brk) :
    Chain ((h.alloc ⟨e, none⟩).set a hlt (some ⟨v, some h.brk⟩)) p (pre ++ [(a, v)] ++ [(h.brk, e)]) := by
  have hcell := Chain.cell_eq hc
  have hne : h.brk ≠ a := Nat.ne_of_gt (NodeHeap.lt_brk hcell)
  obtain ⟨hpre, -⟩ := Chain.notMem_of_append hc
  obtain ⟨r, h₁, hr, -⟩ := seg_append.mp hc
  rw [List.append_assoc]
  refine seg_append.mpr ⟨r, h₁.congr fun b hb => ?_, hr, some h.brk, NodeHeap.set_cell_self _ _, rfl, none, ?_, rfl⟩
  · have hba : b ≠ a := fun he => hpre (he ▸ hb)
    obtain ⟨⟨b, w⟩, hb', rfl⟩ := List.mem_map.mp hb
    obtain ⟨next, hcell'⟩ := h₁.cell_of_mem hb'
    rw [NodeHeap.set_cell_of_ne _ _ hba, NodeHeap.alloc_cell_of_ne (Nat.ne_of_lt (NodeHeap.lt_brk hcell'))]
  · rw [NodeHeap.set_cell_of_ne _ _ hne, NodeHeap.alloc_cell_brk]

theorem changes_snoc {pre : List (Nat × E)} {a : Nat} {v : E} (e : E) (ha : a < h.brk)
    (hlt : a < (h.alloc ⟨e, none⟩).brk) :
    Changes h (pre ++ [(a, v)]) ((h.alloc ⟨e, none⟩).set a hlt (some ⟨v, some h.brk⟩))
      (pre ++ [(a, v)] ++ [(h.brk, e)]) where
  brk_le := Nat.le_succ _
  outside b hb hn := by
    have hne : b ≠ a := fun he => hn (by simp [he])
    rw [NodeHeap.set_cell_of_ne _ _ hne, NodeHeap.alloc_cell_of_ne (Nat.ne_of_lt hb)]
  kept x hx hb := by
    rcases List.mem_append.mp hx with hx | hx
    · exact hx
    · rw [List.mem_singleton.mp hx] at hb
      exact absurd hb (Nat.lt_irrefl _)
  removed b _ hm hn := by
    rw [List.map_append, List.mem_append, not_or] at hn
    exact absurd hm hn.1
  new b hb hlive := by
    rw [NodeHeap.set_cell_of_ne _ _ (Nat.ne_of_gt (Nat.lt_of_lt_of_le ha hb))] at hlive
    simp [eq_brk_of_alloc hb hlive]

theorem enqueue_ok (hq : Holds h q l) (e : E) : ∃ h' q', Enqueue h q e = .ok (h', q') ∧
    Holds h' q' (l ++ [(h.brk, e)]) ∧ Changes h l h' (l ++ [(h.brk, e)]) := by
  rcases List.eq_nil_or_concat l with rfl | ⟨pre, ⟨a, v⟩, rfl⟩
  · obtain rfl := hq.eq_empty
    refine ⟨_, _, rfl, ⟨⟨rfl, none, h.alloc_cell_brk _, rfl⟩, rfl, rfl⟩, Frame.push h [] ⟨e, none⟩ e, ?_⟩
    intro b hb hlive
    simp [eq_brk_of_alloc hb hlive]
  · rw [List.concat_eq_append] at hq ⊢
    have hcell : h.cell a = some ⟨v, none⟩ := Chain.cell_eq hq.chain
    have ha := NodeHeap.lt_brk hcell
    have hcell' : (h.alloc ⟨e, none⟩).cell a = some ⟨v, none⟩ := by
      rw [NodeHeap.alloc_cell_of_ne (Nat.ne_of_lt ha), hcell]
    have hlast : q.last_ = some a := by simp [hq.last]
    have hsize : q.size_ ≠ 0 := by simp [hq.size]
    refine ⟨_, { q with last_ := some h.brk, size_ := q.size_ + 1 }, ?_,
      ⟨chain_snoc hq.chain e (NodeHeap.lt_brk hcell'), ?_, ?_⟩, changes_snoc e ha (NodeHeap.lt_brk hcell')⟩
    · rw [Enqueue, if_neg hsize, hlast, deref, ok_bind, NodeHeap.load_ok hcell', ok_bind, NodeHeap.store_ok hcell']
      rfl
    · simp
    · simp [hq.size]

theorem dequeue_ok (hq : Holds h q l) : ∃ h' q', Dequeue h q = .ok (l.head?.map Prod.snd, h', q') ∧
    Holds h' q' l.tail ∧ Changes h l h' l.tail := by
  cases l with
  | nil =>
    obtain rfl := hq.eq_empty
    exact ⟨h, Queue.empty, rfl, hq, Changes.refl h []⟩
  | cons x l =>
    obtain ⟨a, v⟩ := x
    obtain ⟨hhead, next, hcell, hl⟩ := hq.chain
    have hnot : a ∉ l.map Prod.fst := (List.nodup_cons.mp (Chain.nodup hq.chain)).1
    have hsize : q.size_ = l.length + 1 := hq.size
    have hother : ∀ b, b ≠ a → (h.set a (NodeHeap.lt_brk hcell) none).cell b = h.cell b :=
      fun b hb => NodeHeap.set_cell_of_ne _ _ hb
    refine ⟨h.set a (NodeHeap.lt_brk hcell) none, ⟨next, if q.size_ - 1 = 0 then none else q.last_, q.size_ - 1⟩,
      ?_,
      ⟨hl.congr fun b hb => hother b fun he => hnot (he ▸ hb), ?_, ?_⟩, ?_⟩
    · rw [Dequeue, if_neg (by omega), hhead, deref, ok_bind, NodeHeap.load_ok hcell, ok_bind]
      dsimp only
      rw [NodeHeap.free_ok hcell]
      rfl
    · cases l with
      | nil => simp [hsize]
      | cons y l => simp [hsize, hq.last]
    · exact Nat.sub_eq_of_eq_add hsize
    · refine ⟨⟨Nat.le_refl _, fun b _ hn => ?_, fun x hx _ => List.mem_cons_of_mem _ hx, fun b _ hm hn => ?_⟩, ?_⟩
      · exact hother b fun he => hn (by simp [he])
      · rcases List.mem_cons.mp hm with rfl | hm
        · exact NodeHeap.set_cell_self _ _
        · exact absurd hm hn
      · intro b hb hlive
        rw [hother b (Nat.ne_of_gt (Nat.lt_of_lt_of_le (NodeHeap.lt_brk hcell) hb))] at hlive
        exact absurd (h.beyond b hb) hlive

theorem clearLoop_ok {fuel a : Nat} {v : E} {next : Option Nat} (hfuel : l.length < fuel)
    (hcell : h.cell a = some ⟨v, next⟩) (hl : Chain h next l) (hnot : a ∉ l.map Prod.fst) :
    ∃ h', clearLoop fuel h a next = .ok h' ∧ h'.brk = h.brk ∧
      (∀ b, b ≠ a → b ∉ l.map Prod.fst → h'.cell b = h.cell b) ∧
      h'.cell a = none ∧ ∀ b ∈ l.map Prod.fst, h'.cell b = none := by
  induction l generalizing fuel h a v next with
  | nil =>
    obtain rfl : next = none := hl
    obtain ⟨fuel, rfl⟩ := Nat.exists_eq_succ_of_ne_zero (Nat.ne_zero_of_lt hfuel)
    refine ⟨h.set a (NodeHeap.lt_brk hcell) none, ?_, rfl, ?_, NodeHeap.set_cell_self _ _,
      fun b hb => by simp at hb⟩
    · rw [clearLoop, NodeHeap.free_ok hcell]
      rfl
    · exact fun b hb _ => NodeHeap.set_cell_of_ne _ _ hb
  | cons x l ih =>
    obtain ⟨a', v'⟩ := x
    have hnodup : a' ∉ l.map Prod.fst := (List.nodup_cons.mp (Chain.nodup hl)).1
    obtain ⟨rfl, next', hcell', hl'⟩ := hl
    obtain ⟨fuel, rfl⟩ := Nat.exists_eq_succ_of_ne_zero (Nat.ne_zero_of_lt hfuel)
    rw [List.map_cons, List.mem_cons, not_or] at hnot
    have hother : ∀ b, b ≠ a → (h.set a (NodeHeap.lt_brk hcell) none).cell b = h.cell b :=
      fun b hb => NodeHeap.set_cell_of_ne _ _ hb
    have hcell₁ := (hother a' (Ne.symm hnot.1)).trans hcell'
    obtain ⟨h', hloop, hbrk, hsame, hfirst, hdead⟩ := ih (Nat.lt_of_succ_lt_succ hfuel) hcell₁
      (hl'.congr fun b hb => hother b fun he => hnot.2 (he ▸ hb)) hnodup
    refine ⟨h', ?_, hbrk, fun b hb hn => ?_, ?_, fun b hb => ?_⟩
    · rw [clearLoop, NodeHeap.free_ok hcell, ok_bind]
      dsimp only
      rw [NodeHeap.load_ok hcell₁, ok_bind, hloop]
    · rw [List.map_cons, List.mem_cons, not_or] at hn
      rw [hsame b hn.1 hn.2, hother b hb]
    · rw [hsame a hnot.1 hnot.2, NodeHeap.set_cell_self]
    · rcases List.mem_cons.mp hb with rfl | hb
      · exact hfirst
      · exact hdead b hb

theorem clear_ok (hq : Holds h q l) : ∃ h', Clear h q = .ok (h', Queue.empty) ∧ Changes h l h' [] := by
  cases l with
  | nil =>
    obtain rfl := hq.eq_empty
    exact ⟨h, rfl, Changes.refl h []⟩
  | cons x l =>
    obtain ⟨a, v⟩ := x
    have hlen := Chain.length_le_brk hq.chain
    have hnot : a ∉ l.map Prod.fst := (List.nodup_cons.mp (Chain.nodup hq.chain)).1
    obtain ⟨hhead, next, hcell, hl⟩ := hq.chain
    obtain ⟨h', hloop, hbrk, hsame, hfirst, hdead⟩ := clearLoop_ok hlen hcell hl hnot
    have hsize : q.size_ = l.length + 1 := hq.size
    refine ⟨h', ?_, ⟨hbrk.ge, fun b _ hn => ?_, fun x hx => by simp at hx, fun b _ hm _ => ?_⟩,
      fun b hb hlive => ?_⟩
    · rw [Clear, if_pos (by omega), hhead, deref, ok_bind, NodeHeap.load_ok hcell, ok_bind, hloop]
      rfl
    · rw [List.map_cons, List.mem_cons, not_or] at hn
      exact hsame b hn.1 hn.2
    · rcases List.mem_cons.mp hm with rfl | hm
      · exact hfirst
      · exact hdead b hm
    · rw [← hbrk] at hb
      exact absurd (h'.beyond b hb) hlive

theorem mapLoop_ok (function : E → E) {fuel : Nat} {node : Option Nat} {source : List (Nat × E)}
    (hfuel : source.length ≤ fuel) (hsource : Chain h node source) (hq : Holds h q l)
    (hdisjoint : ∀ a ∈ source.map Prod.fst, a ∉ l.map Prod.fst) :
    ∃ h' q' l', mapLoop function fuel h node q = .ok (h', q') ∧ Holds h' q' l' ∧
      l'.map Prod.snd = l.map Prod.snd ++ source.map (function ∘ Prod.snd) ∧ Changes h l h' l' := by
  induction source generalizing fuel h node q l with
  | nil =>
    obtain rfl : node = none := hsource
    refine ⟨h, q, l, ?_, hq, (List.append_nil _).symm, Changes.refl h l⟩
    cases fuel with
    | zero => rfl
    | succ fuel => rfl
  | cons x source ih =>
    obtain ⟨a, v⟩ := x
    obtain ⟨rfl, next, hcell, hrest⟩ := hsource
    obtain ⟨fuel, rfl⟩ := Nat.exists_eq_succ_of_ne_zero (Nat.ne_zero_of_lt hfuel)
    obtain ⟨h₁, q₁, henqueue, hq₁, hchanges⟩ := enqueue_ok hq (function v)
    have hlt : ∀ b ∈ source.map Prod.fst, b < h.brk := fun b hb => lt_brk_of_chain hrest hb
    have hcell₁ : h₁.cell a = some ⟨v, next⟩ := by
      rw [hchanges.outside a (NodeHeap.lt_brk hcell) (hdisjoint a (by simp)), hcell]
    have hrest₁ : Chain h₁ next source := hrest.congr fun b hb =>
      hchanges.outside b (hlt b hb) (hdisjoint b (List.mem_cons_of_mem _ hb))
    have hdisjoint₁ : ∀ b ∈ source.map Prod.fst, b ∉ (l ++ [(h.brk, function v)]).map Prod.fst := fun b hb =>
      hchanges.toFrame.notMem (hlt b hb) (hdisjoint b (List.mem_cons_of_mem _ hb))
    obtain ⟨h', q', l', hloop, hq', hvalues, hchanges'⟩ := ih (Nat.le_of_succ_le_succ hfuel) hrest₁ hq₁ hdisjoint₁
    refine ⟨h', q', l', ?_, hq', ?_, hchanges.trans hchanges'⟩
    · rw [mapLoop, NodeHeap.load_ok hcell, ok_bind, henqueue, ok_bind]
      dsimp only
      rw [NodeHeap.load_ok hcell₁, ok_bind, hloop]
    · rw [hvalues]
      simp

theorem map_ok (function : E → E) (hq : Holds h q l) :
    ∃ h' q' l', Map h q function = .ok (h', q') ∧ Holds h' q' l' ∧
      l'.map Prod.snd = (l.map Prod.snd).map function ∧ Changes h [] h' l' := by
  obtain ⟨h', q', l', hloop, hq', hvalues, hchanges⟩ := mapLoop_ok function (Chain.length_le_brk hq.chain) hq.chain
    (holds_empty h) (fun a _ ha => by simp at ha)
  refine ⟨h', q', l', hloop, hq', ?_, hchanges⟩
  rw [hvalues]
  simp

end Operations

/-- A program that uses queues. -/
inductive Call (E : Type) where
  | create
  | enqueue (i : Nat) (element : E)
  | dequeue (i : Nat)
  | clear (i : Nat)
  | map (i : Nat) (function : E → E)
  | destroy (i : Nat)

structure State (E : Type) where
  heap : NodeHeap E
  queues : Nat → Option Queue
  next : Nat

def State.queue (s : State E) (i : Nat) : Except Fault Queue :=
  match s.queues i with
  | some q => .ok q
  | none => .error .useAfterFree

def State.put (s : State E) (h : NodeHeap E) (i : Nat) (q : Option Queue) : State E :=
  { s with heap := h, queues := Function.update s.queues i q }

def State.add (s : State E) (h : NodeHeap E) (q : Queue) : State E :=
  { s.put h s.next (some q) with next := s.next + 1 }

def exec (s : State E) : Call E → Except Fault (State E × Option E)
  | .create => return (s.add s.heap Queue.empty, none)
  | .enqueue i element => do
    let (h, q) ← Enqueue s.heap (← s.queue i) element
    return (s.put h i (some q), none)
  | .dequeue i => do
    let (element, h, q) ← Dequeue s.heap (← s.queue i)
    return (s.put h i (some q), element)
  | .clear i => do
    let (h, q) ← Clear s.heap (← s.queue i)
    return (s.put h i (some q), none)
  | .map i function => do
    let (h, q) ← Map s.heap (← s.queue i) function
    return (s.add h q, none)
  | .destroy i => do
    let (h, _) ← Clear s.heap (← s.queue i)
    return (s.put h i none, none)

def execAll : List (Call E) → State E → Except Fault (State E × List (Option E))
  | [], s => .ok (s, [])
  | call :: calls, s => do
    let (s, reply) ← exec s call
    let (s, replies) ← execAll calls s
    return (s, reply :: replies)

def initial : State E := ⟨NodeHeap.empty, fun _ => none, 0⟩

/-- What the queues are for: each is a list. A call of a queue that is not there has no meaning. -/
structure Lists (E : Type) where
  lists : Nat → Option (List E)
  next : Nat

def Lists.put (m : Lists E) (i : Nat) (v : Option (List E)) : Lists E :=
  { m with lists := Function.update m.lists i v }

def Lists.add (m : Lists E) (v : List E) : Lists E := { m.put m.next (some v) with next := m.next + 1 }

def Lists.exec (m : Lists E) : Call E → Option (Lists E × Option E)
  | .create => some (m.add [], none)
  | .enqueue i element => (m.lists i).map fun v => (m.put i (some (v ++ [element])), none)
  | .dequeue i => (m.lists i).map fun v => (m.put i (some v.tail), v.head?)
  | .clear i => (m.lists i).map fun _ => (m.put i (some []), none)
  | .map i function => (m.lists i).map fun v => (m.add (v.map function), none)
  | .destroy i => (m.lists i).map fun _ => (m.put i none, none)

def Lists.execAll : List (Call E) → Lists E → Option (Lists E × List (Option E))
  | [], m => some (m, [])
  | call :: calls, m => do
    let (m, reply) ← m.exec call
    let (m, replies) ← Lists.execAll calls m
    return (m, reply :: replies)

def Lists.initial : Lists E := ⟨fun _ => none, 0⟩

def HoldsList (h : NodeHeap E) (l : List (Nat × E)) : Option Queue → Option (List E) → Prop
  | some q, some v => Holds h q l ∧ v = l.map Prod.snd
  | none, none => l = []
  | _, _ => False

/-- The queues hold the lists in nodes that no two share, and there is no other node. -/
structure Represents (s : State E) (m : Lists E) (nodes : Nat → List (Nat × E)) : Prop where
  holds : ∀ i, HoldsList s.heap (nodes i) (s.queues i) (m.lists i)
  disjoint : ∀ i j a, a ∈ (nodes i).map Prod.fst → a ∈ (nodes j).map Prod.fst → i = j
  live : ∀ a, s.heap.cell a ≠ none → ∃ i, a ∈ (nodes i).map Prod.fst
  next : s.next = m.next
  fresh : ∀ i, s.next ≤ i → s.queues i = none

section Runs

variable {s : State E} {m : Lists E} {nodes : Nat → List (Nat × E)}

theorem HoldsList.lt_brk {h : NodeHeap E} {l : List (Nat × E)} {q : Option Queue} {v : Option (List E)}
    (hl : HoldsList h l q v) {a : Nat} (ha : a ∈ l.map Prod.fst) : a < h.brk := by
  cases q with
  | none =>
    cases v with
    | none => simp [show l = [] from hl] at ha
    | some v => exact hl.elim
  | some q =>
    cases v with
    | none => exact hl.elim
    | some v => exact lt_brk_of_chain hl.1.chain ha

theorem HoldsList.congr {h h' : NodeHeap E} {l : List (Nat × E)} {q : Option Queue} {v : Option (List E)}
    (hl : HoldsList h l q v) (he : ∀ a ∈ l.map Prod.fst, h'.cell a = h.cell a) : HoldsList h' l q v := by
  cases q with
  | none =>
    cases v with
    | none => exact hl
    | some v => exact hl.elim
  | some q =>
    cases v with
    | none => exact hl.elim
    | some v => exact ⟨hl.1.congr he, hl.2⟩

theorem Represents.update (hr : Represents s m nodes) {h : NodeHeap E} {i : Nat} {l : List (Nat × E)}
    {q : Option Queue} {v : Option (List E)} (hc : Changes s.heap (nodes i) h l) (hl : HoldsList h l q v)
    {next : Nat}
    (hnext : s.next ≤ next) (hi : i < next) :
    Represents ⟨h, Function.update s.queues i q, next⟩ ⟨Function.update m.lists i v, next⟩
      (Function.update nodes i l) where
  holds j := by
    by_cases hj : j = i
    · subst hj
      simpa using hl
    · simp only [Function.update_of_ne hj]
      refine (hr.holds j).congr fun a ha => ?_
      exact hc.outside a ((hr.holds j).lt_brk ha) fun hai => hj (hr.disjoint j i a ha hai)
  disjoint := by
    have hold : ∀ j a, j ≠ i → a ∈ l.map Prod.fst → a ∉ (nodes j).map Prod.fst := by
      intro j a hj ha haj
      obtain ⟨x, hx, rfl⟩ := List.mem_map.mp ha
      have hmem := hc.kept x hx ((hr.holds j).lt_brk haj)
      exact hj (hr.disjoint j i x.1 haj (List.mem_map_of_mem hmem))
    intro j k a hj hk
    by_cases hji : j = i
    · by_cases hki : k = i
      · rw [hji, hki]
      · rw [hji, Function.update_self] at hj
        rw [Function.update_of_ne hki] at hk
        exact absurd hk (hold k a hki hj)
    · rw [Function.update_of_ne hji] at hj
      by_cases hki : k = i
      · rw [hki, Function.update_self] at hk
        exact absurd hj (hold j a hji hk)
      · rw [Function.update_of_ne hki] at hk
        exact hr.disjoint j k a hj hk
  live a ha := by
    by_cases hal : a ∈ l.map Prod.fst
    · exact ⟨i, by simpa using hal⟩
    · rcases Nat.lt_or_ge a s.heap.brk with hlt | hge
      · by_cases hai : a ∈ (nodes i).map Prod.fst
        · exact absurd (hc.removed a hlt hai hal) ha
        · rw [show h.cell a = _ from hc.outside a hlt hai] at ha
          obtain ⟨j, hj⟩ := hr.live a ha
          have hji : j ≠ i := fun he => hai (he ▸ hj)
          exact ⟨j, by simpa [Function.update_of_ne hji] using hj⟩
      · exact absurd (hc.new a hge ha) hal
  next := rfl
  fresh j hj := by
    have hji : j ≠ i := Nat.ne_of_gt (Nat.lt_of_lt_of_le hi hj)
    simpa [Function.update_of_ne hji] using hr.fresh j (Nat.le_trans hnext hj)

theorem Represents.queue (hr : Represents s m nodes) {i : Nat} {v : List E} (hv : m.lists i = some v) :
    ∃ q, s.queue i = .ok q ∧ Holds s.heap q (nodes i) ∧ v = (nodes i).map Prod.snd ∧ i < s.next := by
  have hholds := hr.holds i
  rw [hv] at hholds
  cases hq : s.queues i with
  | none =>
    rw [hq] at hholds
    exact hholds.elim
  | some q =>
    rw [hq] at hholds
    refine ⟨q, by rw [State.queue, hq], hholds.1, hholds.2, ?_⟩
    by_contra hge
    rw [hr.fresh i (Nat.le_of_not_lt hge)] at hq
    cases hq

theorem Represents.nodes_eq_nil (hr : Represents s m nodes) {i : Nat} (hi : s.next ≤ i) : nodes i = [] := by
  have hholds := hr.holds i
  rw [hr.fresh i hi] at hholds
  cases hv : m.lists i with
  | none =>
    rw [hv] at hholds
    exact hholds
  | some v =>
    rw [hv] at hholds
    exact hholds.elim

theorem Represents.add (hr : Represents s m nodes) {h : NodeHeap E} {l : List (Nat × E)} {q : Queue}
    (hc : Changes s.heap [] h l) (hq : Holds h q l) :
    Represents (s.add h q) (m.add (l.map Prod.snd)) (Function.update nodes s.next l) := by
  rw [← hr.nodes_eq_nil (Nat.le_refl s.next)] at hc
  have hupdate := hr.update (v := some (l.map Prod.snd)) (q := some q) hc ⟨hq, rfl⟩ (Nat.le_succ _)
    (Nat.lt_succ_self _)
  simpa [State.add, State.put, Lists.add, Lists.put, ← hr.next] using hupdate

theorem Represents.put (hr : Represents s m nodes) {h : NodeHeap E} {i : Nat} {l : List (Nat × E)}
    {q : Option Queue}
    {v : Option (List E)} (hc : Changes s.heap (nodes i) h l) (hl : HoldsList h l q v) (hi : i < s.next) :
    Represents (s.put h i q) (m.put i v) (Function.update nodes i l) := by
  have hupdate := hr.update hc hl (Nat.le_refl _) hi
  simpa [State.put, Lists.put, ← hr.next] using hupdate

theorem exec_represents (hr : Represents s m nodes) {call : Call E} {m' : Lists E} {reply : Option E}
    (h : m.exec call = some (m', reply)) :
    ∃ s' nodes', exec s call = .ok (s', reply) ∧ Represents s' m' nodes' := by
  cases call with
  | create =>
    cases h
    exact ⟨_, _, rfl, hr.add (Changes.refl _ _) (holds_empty _)⟩
  | enqueue i element =>
    obtain ⟨v, hv, he⟩ := Option.map_eq_some_iff.mp h
    obtain ⟨q, hqueue, hq, rfl, hi⟩ := hr.queue hv
    obtain ⟨h', q', henqueue, hq', hc⟩ := enqueue_ok hq element
    cases he
    refine ⟨_, _, ?_, hr.put (q := some q') hc ⟨hq', by simp⟩ hi⟩
    rw [exec, hqueue, ok_bind, henqueue]
    rfl
  | dequeue i =>
    obtain ⟨v, hv, he⟩ := Option.map_eq_some_iff.mp h
    obtain ⟨q, hqueue, hq, rfl, hi⟩ := hr.queue hv
    obtain ⟨h', q', hdequeue, hq', hc⟩ := dequeue_ok hq
    cases he
    refine ⟨_, _, ?_, hr.put (q := some q') hc ⟨hq', List.map_tail.symm⟩ hi⟩
    rw [exec, hqueue, ok_bind, hdequeue, List.head?_map]
    rfl
  | clear i =>
    obtain ⟨v, hv, he⟩ := Option.map_eq_some_iff.mp h
    obtain ⟨q, hqueue, hq, rfl, hi⟩ := hr.queue hv
    obtain ⟨h', hclear, hc⟩ := clear_ok hq
    cases he
    refine ⟨_, _, ?_, hr.put (q := some Queue.empty) hc ⟨holds_empty h', rfl⟩ hi⟩
    rw [exec, hqueue, ok_bind, hclear]
    rfl
  | map i function =>
    obtain ⟨v, hv, he⟩ := Option.map_eq_some_iff.mp h
    obtain ⟨q, hqueue, hq, rfl, hi⟩ := hr.queue hv
    obtain ⟨h', q', l', hmap, hq', hvalues, hc⟩ := map_ok function hq
    cases he
    rw [← hvalues]
    refine ⟨_, _, ?_, hr.add hc hq'⟩
    rw [exec, hqueue, ok_bind, hmap]
    rfl
  | destroy i =>
    obtain ⟨v, hv, he⟩ := Option.map_eq_some_iff.mp h
    obtain ⟨q, hqueue, hq, rfl, hi⟩ := hr.queue hv
    obtain ⟨h', hclear, hc⟩ := clear_ok hq
    cases he
    refine ⟨_, _, ?_, hr.put (q := none) hc rfl hi⟩
    rw [exec, hqueue, ok_bind, hclear]
    rfl

theorem execAll_represents (hr : Represents s m nodes) {calls : List (Call E)} {m' : Lists E}
    {replies : List (Option E)} (h : Lists.execAll calls m = some (m', replies)) :
    ∃ s' nodes', execAll calls s = .ok (s', replies) ∧ Represents s' m' nodes' := by
  induction calls generalizing s m nodes replies with
  | nil =>
    cases h
    exact ⟨s, nodes, rfl, hr⟩
  | cons call calls ih =>
    obtain ⟨⟨m₁, reply⟩, hfirst, h⟩ := Option.bind_eq_some_iff.mp h
    obtain ⟨⟨m₂, rest⟩, hrest, he⟩ := Option.bind_eq_some_iff.mp h
    cases he
    obtain ⟨s₁, nodes₁, hexec, hr₁⟩ := exec_represents hr hfirst
    obtain ⟨s₂, nodes₂, hexecAll, hr₂⟩ := ih hr₁ hrest
    refine ⟨s₂, nodes₂, ?_, hr₂⟩
    rw [execAll, hexec, ok_bind]
    dsimp only
    rw [hexecAll]
    rfl

theorem represents_initial : Represents (initial : State E) Lists.initial fun _ => [] where
  holds _ := rfl
  disjoint _ _ _ ha := by simp at ha
  live a ha := absurd rfl ha
  next := rfl
  fresh _ _ := rfl

theorem Represents.contents (hr : Represents s m nodes) {i : Nat} {v : List E} (hv : m.lists i = some v) :
    ∃ q, s.queues i = some q ∧ q.size_ = v.length ∧ (s.heap.toList s.heap.brk q.head_).map Prod.snd = v := by
  obtain ⟨q, hqueue, hq, rfl, hi⟩ := hr.queue hv
  refine ⟨q, ?_, by rw [hq.size, List.length_map], ?_⟩
  · rw [State.queue] at hqueue
    split at hqueue
    · rename_i q' hq'
      cases hqueue
      exact hq'
    · cases hqueue
  · rw [Chain.toList_eq hq.chain (Chain.length_le_brk hq.chain)]

/-- Queues behave as lists do in every program, without an access to a node that is gone, and when all of
them are gone so are their nodes. -/
theorem sample_queues_are_lists {calls : List (Call E)} {m : Lists E} {replies : List (Option E)}
    (h : Lists.execAll calls Lists.initial = some (m, replies)) :
    ∃ s, execAll calls initial = .ok (s, replies) ∧
      (∀ i v, m.lists i = some v →
        ∃ q, s.queues i = some q ∧ q.size_ = v.length ∧ (s.heap.toList s.heap.brk q.head_).map Prod.snd = v) ∧
      ((∀ i, m.lists i = none) → ∀ a, s.heap.cell a = none) := by
  obtain ⟨s, nodes, hexec, hr⟩ := execAll_represents represents_initial h
  refine ⟨s, hexec, fun i v hv => hr.contents hv, fun hnone a => ?_⟩
  by_contra hlive
  obtain ⟨i, hi⟩ := hr.live a hlive
  have hholds := hr.holds i
  rw [hnone i] at hholds
  cases hq : s.queues i with
  | none =>
    rw [hq] at hholds
    simp [show nodes i = [] from hholds] at hi
  | some q =>
    rw [hq] at hholds
    exact hholds.elim

theorem sample_queues_are_lists_two : ∃ s,
    execAll [.create, .enqueue 0 1, .enqueue 0 2, .map 0 (2 * ·), .dequeue 1, .destroy 0, .dequeue 1, .dequeue 1,
      .destroy 1] (initial : State Nat) = .ok (s, [none, none, none, none, some 2, none, some 4, none, none]) ∧
      ∀ a, s.heap.cell a = none := by
  obtain ⟨s, hexec, -, hempty⟩ := @sample_queues_are_lists Nat
    [.create, .enqueue 0 1, .enqueue 0 2, .map 0 (2 * ·), .dequeue 1, .destroy 0, .dequeue 1, .dequeue 1,
      .destroy 1]
    _ _ rfl
  refine ⟨s, hexec, hempty fun i => ?_⟩
  match i with
  | 0 => rfl
  | 1 => rfl
  | n + 2 => rfl

end Runs

end SampleQueue

end CPractice
