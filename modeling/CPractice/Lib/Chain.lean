import CPractice.Lib.Block
import Mathlib.Data.List.Induction
import Mathlib.Data.List.Nodup
import Mathlib.Data.List.Perm.Subperm

/-! Singly linked lists in a heap of nodes. A node that has been freed is dead
for good: an access through a pointer to it is a fault, and allocation never
hands its address out again. -/

namespace CMem

variable {α : Type}

structure Node (α : Type) where
  val : α
  next : Option Nat

/-- The live nodes, all below the allocation frontier. -/
structure NodeHeap (α : Type) where
  cell : Nat → Option (Node α)
  brk : Nat
  beyond : ∀ a, brk ≤ a → cell a = none

def NodeHeap.empty : NodeHeap α := { cell := fun _ => none, brk := 0, beyond := fun _ _ => rfl }

theorem NodeHeap.lt_brk {h : NodeHeap α} {a : Nat} {n : Node α} (hc : h.cell a = some n) :
    a < h.brk := by
  by_contra hlt
  rw [h.beyond a (by omega)] at hc
  cases hc

def NodeHeap.load (h : NodeHeap α) (a : Nat) : Except Fault (Node α) :=
  match h.cell a with
  | some n => .ok n
  | none => .error .useAfterFree

def NodeHeap.alloc (h : NodeHeap α) (n : Node α) : NodeHeap α where
  cell a := if a = h.brk then some n else h.cell a
  brk := h.brk + 1
  beyond a ha := by rw [if_neg (by omega)]; exact h.beyond a (by omega)

def NodeHeap.set (h : NodeHeap α) (a : Nat) (hlt : a < h.brk) (n : Option (Node α)) : NodeHeap α where
  cell b := if b = a then n else h.cell b
  brk := h.brk
  beyond b hb := by rw [if_neg (by omega)]; exact h.beyond b hb

def NodeHeap.store (h : NodeHeap α) (a : Nat) (n : Node α) : Except Fault (NodeHeap α) :=
  if hc : (h.cell a).isSome then
    .ok (h.set a (lt_brk (Option.eq_some_of_isSome hc)) (some n))
  else .error .useAfterFree

def NodeHeap.free (h : NodeHeap α) (a : Nat) : Except Fault (NodeHeap α) :=
  if hc : (h.cell a).isSome then .ok (h.set a (lt_brk (Option.eq_some_of_isSome hc)) none)
  else .error .useAfterFree

/-- `l` lists the addresses and values found by following `next` from `p` to `q`. -/
def Seg (h : NodeHeap α) : Option Nat → List (Nat × α) → Option Nat → Prop
  | p, [], q => p = q
  | p, (a, v) :: l, q => p = some a ∧ ∃ next, h.cell a = some ⟨v, next⟩ ∧ Seg h next l q

abbrev Chain (h : NodeHeap α) (p : Option Nat) (l : List (Nat × α)) : Prop := Seg h p l none

def NodeHeap.search (h : NodeHeap α) (q : α → Bool) :
    Nat → Option Nat → Option Nat → Except Fault (Option (Option Nat × Nat × Node α))
  | _, _, none => .ok none
  | 0, _, some _ => .error .diverges
  | fuel + 1, prev, some te => do
    let n ← h.load te
    if q n.val then return some (prev, te, n) else h.search q fuel (some te) n.next

def NodeHeap.unlink (h : NodeHeap α) (head prev : Option Nat) (n : Node α) :
    Except Fault (Option Nat × NodeHeap α) :=
  match prev with
  | none => .ok (n.next, h)
  | some p => do
    let pn ← h.load p
    let h ← h.store p { pn with next := n.next }
    return (head, h)

def NodeHeap.toList (h : NodeHeap α) : Nat → Option Nat → List (Nat × α)
  | 0, _ => []
  | _, none => []
  | fuel + 1, some a =>
    match h.cell a with
    | none => []
    | some n => (a, n.val) :: h.toList fuel n.next

theorem NodeHeap.load_ok {h : NodeHeap α} {a : Nat} {n : Node α} (hc : h.cell a = some n) :
    h.load a = .ok n := by
  simp [load, hc]

theorem NodeHeap.store_ok {h : NodeHeap α} {a : Nat} {n : Node α} (hc : h.cell a = some n)
    (n' : Node α) : h.store a n' = .ok (h.set a (lt_brk hc) (some n')) := by
  simp [store, hc]

theorem NodeHeap.free_ok {h : NodeHeap α} {a : Nat} {n : Node α} (hc : h.cell a = some n) :
    h.free a = .ok (h.set a (lt_brk hc) none) := by
  simp [free, hc]

theorem NodeHeap.load_dead {h : NodeHeap α} {a : Nat} (hc : h.cell a = none) :
    h.load a = .error .useAfterFree := by
  simp [load, hc]

@[simp] theorem NodeHeap.set_cell_self {h : NodeHeap α} {a : Nat} (hlt : a < h.brk)
    (n : Option (Node α)) : (h.set a hlt n).cell a = n := if_pos rfl

theorem NodeHeap.set_cell_of_ne {h : NodeHeap α} {a b : Nat} (hlt : a < h.brk)
    (n : Option (Node α)) (hb : b ≠ a) : (h.set a hlt n).cell b = h.cell b := if_neg hb

theorem NodeHeap.alloc_cell_brk (h : NodeHeap α) (n : Node α) : (h.alloc n).cell h.brk = some n :=
  if_pos rfl

theorem NodeHeap.alloc_cell_of_ne {h : NodeHeap α} {b : Nat} (hb : b ≠ h.brk) (n : Node α) :
    (h.alloc n).cell b = h.cell b := if_neg hb

theorem Seg.cell_of_mem {h : NodeHeap α} {p q : Option Nat} {l : List (Nat × α)}
    (hs : Seg h p l q) {a : Nat} {v : α} (hm : (a, v) ∈ l) : ∃ next, h.cell a = some ⟨v, next⟩ := by
  induction l generalizing p with
  | nil => simp at hm
  | cons x l ih =>
    obtain ⟨-, next, hx, hl⟩ := hs
    rcases List.mem_cons.mp hm with rfl | hm
    · exact ⟨next, hx⟩
    · exact ih hl hm

theorem seg_append {h : NodeHeap α} {p q : Option Nat} {l₁ l₂ : List (Nat × α)} :
    Seg h p (l₁ ++ l₂) q ↔ ∃ r, Seg h p l₁ r ∧ Seg h r l₂ q := by
  induction l₁ generalizing p with
  | nil => simp [Seg]
  | cons x l₁ ih =>
    simp only [List.cons_append, Seg, ih]
    constructor
    · rintro ⟨hp, next, hx, r, h₁, h₂⟩
      exact ⟨r, ⟨hp, next, hx, h₁⟩, h₂⟩
    · rintro ⟨r, ⟨hp, next, hx, h₁⟩, h₂⟩
      exact ⟨hp, next, hx, r, h₁, h₂⟩

theorem Chain.unique {h : NodeHeap α} {p : Option Nat} {l l' : List (Nat × α)} (hc : Chain h p l)
    (hc' : Chain h p l') : l = l' := by
  induction l generalizing p l' with
  | nil =>
    obtain rfl : p = none := hc
    cases l' with
    | nil => rfl
    | cons x l' => exact absurd hc'.1 (by simp)
  | cons x l ih =>
    obtain ⟨a, v⟩ := x
    obtain ⟨rfl, next, ha, hl⟩ := hc
    cases l' with
    | nil => exact absurd (show some a = none from hc') (by simp)
    | cons y l' =>
      obtain ⟨b, w⟩ := y
      obtain ⟨hb, next', ha', hl'⟩ := hc'
      cases hb
      rw [ha] at ha'
      cases ha'
      rw [ih hl hl']

theorem Chain.nodup {h : NodeHeap α} {p : Option Nat} {l : List (Nat × α)} (hc : Chain h p l) :
    (l.map Prod.fst).Nodup := by
  induction l generalizing p with
  | nil => simp
  | cons x l ih =>
    have hall := hc
    obtain ⟨a, v⟩ := x
    obtain ⟨rfl, next, ha, hl⟩ := hc
    refine List.nodup_cons.mpr ⟨?_, ih hl⟩
    intro hm
    obtain ⟨⟨b, w⟩, hb, rfl⟩ := List.mem_map.mp hm
    obtain ⟨l₁, l₂, rfl⟩ := List.append_of_mem hb
    obtain ⟨q, -, hq⟩ := seg_append.mp hl
    have hq' : q = some b := hq.1
    subst hq'
    have he := congrArg List.length (Chain.unique hall hq)
    simp at he
    omega

theorem Chain.length_le_brk {h : NodeHeap α} {p : Option Nat} {l : List (Nat × α)}
    (hc : Chain h p l) : l.length ≤ h.brk := by
  have hsub : l.map Prod.fst ⊆ List.range h.brk := by
    intro a ha
    obtain ⟨⟨b, v⟩, hb, rfl⟩ := List.mem_map.mp ha
    obtain ⟨next, hcell⟩ := hc.cell_of_mem hb
    exact List.mem_range.mpr (NodeHeap.lt_brk hcell)
  simpa using (List.subperm_of_subset (Chain.nodup hc) hsub).length_le

theorem Chain.toList_eq {h : NodeHeap α} {p : Option Nat} {l : List (Nat × α)} (hc : Chain h p l)
    {fuel : Nat} (hf : l.length ≤ fuel) : h.toList fuel p = l := by
  induction l generalizing p fuel with
  | nil =>
    obtain rfl : p = none := hc
    cases fuel <;> rfl
  | cons x l ih =>
    obtain ⟨a, v⟩ := x
    obtain ⟨rfl, next, ha, hl⟩ := hc
    obtain ⟨fuel, rfl⟩ : ∃ n, fuel = n + 1 := ⟨fuel - 1, by simp at hf; omega⟩
    simp [NodeHeap.toList, ha, ih hl (by simpa using hf)]

theorem Seg.congr {h h' : NodeHeap α} {p q : Option Nat} {l : List (Nat × α)} (hs : Seg h p l q)
    (he : ∀ a ∈ l.map Prod.fst, h'.cell a = h.cell a) : Seg h' p l q := by
  induction l generalizing p with
  | nil => exact hs
  | cons x l ih =>
    obtain ⟨a, v⟩ := x
    obtain ⟨hp, next, ha, hl⟩ := hs
    refine ⟨hp, next, ?_, ih hl fun b hb => he b (List.mem_cons_of_mem _ hb)⟩
    rw [he a (by simp), ha]

theorem Chain.head_eq {h : NodeHeap α} {p : Option Nat} {l : List (Nat × α)} (hc : Chain h p l) :
    p = l.head?.map Prod.fst := by
  cases l with
  | nil => exact hc
  | cons x l => exact hc.1

theorem Chain.cell_eq {h : NodeHeap α} {p : Option Nat} {pre post : List (Nat × α)} {x : Nat × α}
    (hc : Chain h p (pre ++ x :: post)) :
    h.cell x.1 = some ⟨x.2, post.head?.map Prod.fst⟩ := by
  obtain ⟨r, -, -, next, hcell, hpost⟩ := seg_append.mp hc
  rw [hcell, Chain.head_eq hpost]

theorem Chain.push {h : NodeHeap α} {p : Option Nat} {l : List (Nat × α)} (hc : Chain h p l)
    (v : α) : Chain (h.alloc ⟨v, p⟩) (some h.brk) ((h.brk, v) :: l) := by
  refine ⟨rfl, p, h.alloc_cell_brk _, hc.congr fun a ha => ?_⟩
  obtain ⟨⟨b, w⟩, hb, rfl⟩ := List.mem_map.mp ha
  obtain ⟨next, hcell⟩ := hc.cell_of_mem hb
  exact NodeHeap.alloc_cell_of_ne (Nat.ne_of_lt (NodeHeap.lt_brk hcell)) _

theorem Chain.notMem_of_append {h : NodeHeap α} {p : Option Nat} {pre post : List (Nat × α)}
    {a : Nat} {v : α} (hc : Chain h p (pre ++ (a, v) :: post)) :
    a ∉ pre.map Prod.fst ∧ a ∉ post.map Prod.fst := by
  have hnd := Chain.nodup hc
  simp only [List.map_append, List.map_cons] at hnd
  have hmid := List.nodup_middle.mp hnd
  have hnot := (List.nodup_cons.mp hmid).1
  exact ⟨fun hm => hnot (List.mem_append_left _ hm), fun hm => hnot (List.mem_append_right _ hm)⟩

theorem Chain.setVal {h : NodeHeap α} {p : Option Nat} {pre post : List (Nat × α)} {a : Nat}
    {v : α} {next : Option Nat} (hc : Chain h p (pre ++ (a, v) :: post))
    (hcell : h.cell a = some ⟨v, next⟩) (v' : α) :
    Chain (h.set a (NodeHeap.lt_brk hcell) (some ⟨v', next⟩)) p (pre ++ (a, v') :: post) := by
  obtain ⟨hpre, hpost⟩ := Chain.notMem_of_append hc
  obtain ⟨r, h₁, hr, next', hcell', h₂⟩ := seg_append.mp hc
  rw [hcell] at hcell'
  cases hcell'
  refine seg_append.mpr ⟨r, h₁.congr fun b hb => ?_, hr, next, NodeHeap.set_cell_self _ _,
    h₂.congr fun b hb => ?_⟩
  · exact NodeHeap.set_cell_of_ne _ _ fun he => hpre (he ▸ hb)
  · exact NodeHeap.set_cell_of_ne _ _ fun he => hpost (he ▸ hb)

theorem NodeHeap.search_none {h : NodeHeap α} {q : α → Bool} {l : List (Nat × α)}
    {p : Option Nat} (hc : Chain h p l) (hq : ∀ x ∈ l, q x.2 = false) {fuel : Nat}
    (hf : l.length ≤ fuel) (prev : Option Nat) : h.search q fuel prev p = .ok none := by
  induction l generalizing p fuel prev with
  | nil =>
    obtain rfl : p = none := hc
    cases fuel <;> rfl
  | cons x l ih =>
    obtain ⟨a, v⟩ := x
    obtain ⟨rfl, next, ha, hl⟩ := hc
    obtain ⟨fuel, rfl⟩ : ∃ n, fuel = n + 1 := ⟨fuel - 1, by simp at hf; omega⟩
    have hv : q v = false := hq (a, v) (by simp)
    rw [search, load_ok ha, ok_bind, if_neg (by simp [hv])]
    exact ih hl (fun x hx => hq x (by simp [hx])) (by simpa using hf) _

theorem NodeHeap.search_some {h : NodeHeap α} {q : α → Bool} {pre post : List (Nat × α)} {a : Nat}
    {v : α} {p next : Option Nat} (hc : Chain h p (pre ++ (a, v) :: post))
    (hcell : h.cell a = some ⟨v, next⟩) (hpre : ∀ x ∈ pre, q x.2 = false) (hv : q v = true)
    {fuel : Nat} (hf : pre.length < fuel) (prev : Option Nat) :
    h.search q fuel prev p =
      .ok (some ((pre.getLast?.map Prod.fst).or prev, a, ⟨v, next⟩)) := by
  induction pre generalizing p fuel prev with
  | nil =>
    obtain ⟨rfl, -⟩ := hc
    obtain ⟨fuel, rfl⟩ : ∃ n, fuel = n + 1 := ⟨fuel - 1, by omega⟩
    rw [search, load_ok hcell, ok_bind, if_pos hv]
    rfl
  | cons x pre ih =>
    obtain ⟨b, w⟩ := x
    obtain ⟨rfl, next', hb, hl⟩ := hc
    obtain ⟨fuel, rfl⟩ : ∃ n, fuel = n + 1 := ⟨fuel - 1, by omega⟩
    have hw : q w = false := hpre (b, w) (by simp)
    rw [search, load_ok hb, ok_bind, if_neg (by simp [hw]),
      ih hl (fun x hx => hpre x (by simp [hx])) (by simpa using hf) _]
    cases pre using List.reverseRecOn with
    | nil => rfl
    | append_singleton pre y => simp [List.getLast?_cons]

theorem NodeHeap.unlink_ok {h : NodeHeap α} {pre post : List (Nat × α)} {a : Nat} {v : α}
    {p next : Option Nat} (hc : Chain h p (pre ++ (a, v) :: post))
    (hcell : h.cell a = some ⟨v, next⟩) :
    ∃ p' h', h.unlink p (pre.getLast?.map Prod.fst) ⟨v, next⟩ = .ok (p', h') ∧
      Chain h' p' (pre ++ post) ∧ h'.brk = h.brk ∧
      (∀ b, b ∉ pre.map Prod.fst → h'.cell b = h.cell b) := by
  obtain ⟨hnpre, hnpost⟩ := Chain.notMem_of_append hc
  obtain ⟨r, h₁, hr, next', hcell', h₂⟩ := seg_append.mp hc
  rw [hcell] at hcell'
  cases hcell'
  cases pre using List.reverseRecOn with
  | nil => exact ⟨next, h, rfl, h₂, rfl, fun _ _ => rfl⟩
  | append_singleton pre x =>
    obtain ⟨b, w⟩ := x
    obtain ⟨s, h₀, hs, next', hb, hr'⟩ := seg_append.mp h₁
    obtain rfl : next' = r := hr'
    obtain ⟨hbpre, hbpost⟩ : b ∉ pre.map Prod.fst ∧ b ∉ ((a, v) :: post).map Prod.fst := by
      refine Chain.notMem_of_append (v := w) (p := p) (h := h) ?_
      simpa [List.append_assoc] using hc
    refine ⟨p, h.set b (lt_brk hb) (some ⟨w, next⟩), ?_, ?_, rfl, ?_⟩
    · simp [unlink, load_ok hb, store_ok hb, pure, Except.pure]
    · rw [List.append_assoc]
      refine seg_append.mpr ⟨s, h₀.congr fun c hc => ?_, hs, next, set_cell_self _ _,
        h₂.congr fun c hc => ?_⟩
      · exact set_cell_of_ne _ _ fun he => hbpre (he ▸ hc)
      · exact set_cell_of_ne _ _ fun he => hbpost (by simp [← he, hc])
    · intro c hc
      exact set_cell_of_ne _ _ fun he => hc (by simp [he])

/-- What edits of the list `l` in `h` into `l'` in `h'` leave alone: nodes that
are on neither list, and the values of the nodes that stay. A node that leaves
the list is dead. -/
structure Frame (h : NodeHeap α) (l : List (Nat × α)) (h' : NodeHeap α) (l' : List (Nat × α)) :
    Prop where
  brk_le : h.brk ≤ h'.brk
  outside : ∀ a < h.brk, a ∉ l.map Prod.fst → h'.cell a = h.cell a
  kept : ∀ x ∈ l', x.1 < h.brk → x ∈ l
  removed : ∀ a < h.brk, a ∈ l.map Prod.fst → a ∉ l'.map Prod.fst → h'.cell a = none

theorem Frame.refl (h : NodeHeap α) (l : List (Nat × α)) : Frame h l h l :=
  ⟨Nat.le_refl _, fun _ _ _ => rfl, fun _ hx _ => hx, fun _ _ ha hn => absurd ha hn⟩

theorem Frame.notMem {h h' : NodeHeap α} {l l' : List (Nat × α)} (hf : Frame h l h' l') {a : Nat}
    (ha : a < h.brk) (hn : a ∉ l.map Prod.fst) : a ∉ l'.map Prod.fst := by
  intro hm
  obtain ⟨x, hx, rfl⟩ := List.mem_map.mp hm
  exact hn (List.mem_map_of_mem (hf.kept x hx ha))

theorem Frame.trans {h₁ h₂ h₃ : NodeHeap α} {l₁ l₂ l₃ : List (Nat × α)} (hf : Frame h₁ l₁ h₂ l₂)
    (hg : Frame h₂ l₂ h₃ l₃) : Frame h₁ l₁ h₃ l₃ where
  brk_le := Nat.le_trans hf.brk_le hg.brk_le
  outside a ha hn := by
    rw [hg.outside a (Nat.lt_of_lt_of_le ha hf.brk_le) (hf.notMem ha hn), hf.outside a ha hn]
  kept x hx ha := hf.kept x (hg.kept x hx (Nat.lt_of_lt_of_le ha hf.brk_le)) ha
  removed a ha hm hn := by
    by_cases hmid : a ∈ l₂.map Prod.fst
    · exact hg.removed a (Nat.lt_of_lt_of_le ha hf.brk_le) hmid hn
    · rw [hg.outside a (Nat.lt_of_lt_of_le ha hf.brk_le) hmid]
      exact hf.removed a ha hm hmid

theorem Frame.push (h : NodeHeap α) (l : List (Nat × α)) (n : Node α) (v : α) :
    Frame h l (h.alloc n) ((h.brk, v) :: l) where
  brk_le := Nat.le_succ _
  outside a ha _ := NodeHeap.alloc_cell_of_ne (Nat.ne_of_lt ha) _
  kept x hx ha := by
    rcases List.mem_cons.mp hx with rfl | hx
    · exact absurd ha (Nat.lt_irrefl _)
    · exact hx
  removed a _ hm hn := absurd (List.mem_cons_of_mem _ hm) hn

theorem Frame.unlink_free {h h₁ h₂ : NodeHeap α} {p p₂ next : Option Nat}
    {pre post l : List (Nat × α)} {a : Nat} {v : α} (hc : Chain h p (pre ++ (a, v) :: post))
    (hcell : h.cell a = some ⟨v, next⟩) (hbrk : h₁.brk = h.brk)
    (h₁cell : ∀ b, b ∉ pre.map Prod.fst → h₁.cell b = h.cell b)
    (hf : Frame h₁ (pre ++ post) h₂ l) (hc₂ : Chain h₂ p₂ l) :
    ∃ h₃, h₂.free a = .ok h₃ ∧ Chain h₃ p₂ l ∧ Frame h (pre ++ (a, v) :: post) h₃ l := by
  obtain ⟨hpre, hpost⟩ := Chain.notMem_of_append hc
  have ha : a < h₁.brk := by
    rw [hbrk]
    exact NodeHeap.lt_brk hcell
  have hnot : a ∉ (pre ++ post).map Prod.fst := by
    rw [List.map_append, List.mem_append]
    exact not_or.mpr ⟨hpre, hpost⟩
  have hlive : h₂.cell a = some ⟨v, next⟩ := by
    rw [hf.outside a ha hnot, h₁cell a hpre, hcell]
  have hnl : a ∉ l.map Prod.fst := hf.notMem ha hnot
  have hmem : ∀ b, b ∈ (pre ++ (a, v) :: post).map Prod.fst ↔ b = a ∨ b ∈ (pre ++ post).map Prod.fst := by
    intro b
    simp only [List.map_append, List.map_cons, List.mem_append, List.mem_cons]
    tauto
  refine ⟨_, NodeHeap.free_ok hlive, hc₂.congr fun b hb => ?_, ?_, ?_, ?_, ?_⟩
  · exact NodeHeap.set_cell_of_ne _ _ fun he => hnl (he ▸ hb)
  · exact hbrk ▸ hf.brk_le
  · intro b hb hn
    rw [hmem, not_or] at hn
    rw [NodeHeap.set_cell_of_ne _ _ hn.1, hf.outside b (hbrk ▸ hb) hn.2, h₁cell b fun hm => hn.2 ?_]
    exact List.map_append ▸ List.mem_append_left _ hm
  · intro x hx hb
    have hm := hf.kept x hx (hbrk ▸ hb)
    rcases List.mem_append.mp hm with hm | hm
    · exact List.mem_append_left _ hm
    · exact List.mem_append_right _ (List.mem_cons_of_mem _ hm)
  · intro b hb hm hn
    by_cases he : b = a
    · rw [he]
      exact NodeHeap.set_cell_self _ _
    · rw [NodeHeap.set_cell_of_ne _ _ he]
      exact hf.removed b (hbrk ▸ hb) (((hmem b).mp hm).resolve_left he) hn

end CMem
