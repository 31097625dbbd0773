import CPractice.Lib.CInt
import CPractice.Zmalloc
import Mathlib.Data.List.Nodup
import Mathlib.Algebra.Order.Ring.Nat

/-! The memory statistics of `zmalloc.c` in the libc build. Every entry point rounds
to a multiple of `sizeof(long)`, with the prefix in the sum or without it, and
`used_memory` is a `size_t` that wraps. -/

namespace CPractice

open CMem

def SIZEOF_LONG : Nat := 8

inductive Stat where
  | alloc (n before : Nat)
  | free (n before : Nat)
  deriving DecidableEq, Repr

structure ZBlock where
  size : Nat
  data : List UInt8
  deriving DecidableEq, Repr

/-- `blocks` are the live blocks under the addresses that the callers hold, and
`stats` records the updates of `used_memory`, newest first. -/
structure ZHeap where
  used_memory : Nat
  blocks : List (Nat × ZBlock)
  stats : List Stat
  deriving DecidableEq, Repr

def ZHeap.init : ZHeap := { used_memory := 0, blocks := [], stats := [] }

/-- What a call of `malloc` returned: NULL, or an address and the bytes found there. -/
abbrev MallocAt := Option (Nat × (Nat → UInt8))

def padded (n : Nat) : Nat :=
  if n &&& (SIZEOF_LONG - 1) ≠ 0 then (n + (SIZEOF_LONG - (n &&& (SIZEOF_LONG - 1)))) % 2 ^ 64 else n

def update_zmalloc_stat_alloc (σ : ZHeap) (n : Nat) : ZHeap := { σ with
  used_memory := CInt.toSize ((σ.used_memory : Int) + (padded n : Int))
  stats := .alloc (padded n) σ.used_memory :: σ.stats }

def update_zmalloc_stat_free (σ : ZHeap) (n : Nat) : ZHeap := { σ with
  used_memory := CInt.toSize ((σ.used_memory : Int) - (padded n : Int))
  stats := .free (padded n) σ.used_memory :: σ.stats }

def ZHeap.find (σ : ZHeap) (ptr : Nat) : Except Fault ZBlock :=
  match σ.blocks.find? fun x => x.1 == ptr with
  | some (_, b) => .ok b
  | none => .error .useAfterFree

def ZHeap.drop (σ : ZHeap) (ptr : Nat) : ZHeap :=
  { σ with blocks := σ.blocks.eraseP fun x => x.1 == ptr }

/-- `zmalloc` and `zcalloc` differ in the bytes of the block only. -/
def ZHeap.request (m : MallocAt) (alloc : Malloc → Nat → Except Fault (List UInt8)) (σ : ZHeap)
    (size : Nat) : Except Fault (Nat × ZHeap) := do
  let data ← alloc (m.map Prod.snd) size
  let ptr := (m.map Prod.fst).getD 0 + PREFIX_SIZE
  let σ := { σ with blocks := (ptr, { size, data }) :: σ.blocks }
  return (ptr, update_zmalloc_stat_alloc σ ((size + PREFIX_SIZE) % 2 ^ 64))

def ZHeap.zmalloc (m : MallocAt) (σ : ZHeap) (size : Nat) : Except Fault (Nat × ZHeap) :=
  σ.request m CPractice.zmalloc size

def ZHeap.zcalloc (m : MallocAt) (σ : ZHeap) (size : Nat) : Except Fault (Nat × ZHeap) :=
  σ.request m CPractice.zcalloc size

def ZHeap.zrealloc (m : MallocAt) (σ : ZHeap) (ptr : Option Nat) (size : Nat) :
    Except Fault (Nat × ZHeap) :=
  match ptr with
  | none => σ.zmalloc m size
  | some ptr => do
    let b ← σ.find ptr
    let oldsize := b.size
    let data ← CPractice.zrealloc (m.map Prod.snd) b.data size
    let newptr := (m.map Prod.fst).getD 0 + PREFIX_SIZE
    let σ := σ.drop ptr
    let σ := { σ with blocks := (newptr, { size, data }) :: σ.blocks }
    let σ := update_zmalloc_stat_free σ oldsize
    return (newptr, update_zmalloc_stat_alloc σ size)

def blockSize (size : Nat) : Nat := (padded size + PREFIX_SIZE) % 2 ^ 64

def ZHeap.zmalloc_size (σ : ZHeap) (ptr : Nat) : Except Fault Nat := do
  return blockSize (← σ.find ptr).size

def ZHeap.zfree (σ : ZHeap) (ptr : Option Nat) : Except Fault ZHeap :=
  match ptr with
  | none => .ok σ
  | some ptr => do
    let b ← σ.find ptr
    let oldsize := b.size
    let σ := update_zmalloc_stat_free σ ((oldsize + PREFIX_SIZE) % 2 ^ 64)
    return σ.drop ptr

inductive ZOp where
  | zmalloc (m : MallocAt) (size : Nat)
  | zcalloc (m : MallocAt) (size : Nat)
  | zrealloc (m : MallocAt) (ptr : Option Nat) (size : Nat)
  | zfree (ptr : Option Nat)

def ZOp.exec (σ : ZHeap) : ZOp → Except Fault (Option Nat × ZHeap)
  | .zmalloc m size => do
    let (ptr, σ) ← σ.zmalloc m size
    return (some ptr, σ)
  | .zcalloc m size => do
    let (ptr, σ) ← σ.zcalloc m size
    return (some ptr, σ)
  | .zrealloc m ptr size => do
    let (newptr, σ) ← σ.zrealloc m ptr size
    return (some newptr, σ)
  | .zfree ptr => do
    let σ ← σ.zfree ptr
    return (none, σ)

abbrev ZCall := ZOp × Option Nat

def runZOps : List ZOp → ZHeap → Except Fault (List ZCall × ZHeap)
  | [], σ => .ok ([], σ)
  | op :: ops, σ => do
    let (ret, σ) ← op.exec σ
    let (calls, σ) ← runZOps ops σ
    return ((op, ret) :: calls, σ)

/-- The blocks that the callers hold, with the sizes they have asked for. -/
abbrev Live := List (Nat × Nat)

namespace Live

def free (live : Live) : Option Nat → Live
  | none => live
  | some ptr => live.filter fun x => x.1 ≠ ptr

/-- What a call and its result mean to the callers, whatever the heap does. -/
def after (live : Live) : ZCall → Live
  | (.zmalloc _ size, some ptr) => (ptr, size) :: live
  | (.zcalloc _ size, some ptr) => (ptr, size) :: live
  | (.zrealloc _ ptr size, some newptr) => (newptr, size) :: live.free ptr
  | (.zfree ptr, _) => live.free ptr
  | (_, none) => live

def afterAll (calls : List ZCall) : Live := calls.foldl after []

def Has (live : Live) : Option Nat → Prop
  | none => True
  | some ptr => ptr ∈ live.map Prod.fst

/-- `malloc` hands out no block that is in use. -/
def New (live : Live) (m : MallocAt) : Prop := ∀ a ∈ m, a.1 + PREFIX_SIZE ∉ live.map Prod.fst

def total (live : Live) : Nat := (live.map fun x => blockSize x.2).sum

end Live

/-- Pointers are live or NULL and `size+15` does not wrap. -/
def ZOp.Allowed (live : Live) : ZOp → Prop
  | .zmalloc m size => live.New m ∧ size + 15 < 2 ^ 64
  | .zcalloc m size => live.New m ∧ size + 15 < 2 ^ 64
  | .zrealloc m ptr size => live.Has ptr ∧ (live.free ptr).New m ∧ size + 15 < 2 ^ 64
  | .zfree ptr => live.Has ptr

/-- Every call is allowed and leaves a total that fits a `size_t`. -/
def Legal : List ZOp → Live → ZHeap → Prop
  | [], _, _ => True
  | op :: ops, live, σ => op.Allowed live ∧
    match op.exec σ with
    | .ok (ret, σ) => (live.after (op, ret)).total < 2 ^ 64 ∧ Legal ops (live.after (op, ret)) σ
    | .error _ => True

instance Live.decidableHas (live : Live) (ptr : Option Nat) : Decidable (live.Has ptr) :=
  match ptr with
  | none => inferInstanceAs (Decidable True)
  | some ptr => inferInstanceAs (Decidable (ptr ∈ live.map Prod.fst))

instance Live.decidableNew (live : Live) (m : MallocAt) : Decidable (live.New m) :=
  match m with
  | none => .isTrue fun _ h => nomatch h
  | some a => decidable_of_iff (a.1 + PREFIX_SIZE ∉ live.map Prod.fst)
      ⟨fun h _ hb => Option.some.inj hb ▸ h, fun h => h a rfl⟩

instance ZOp.decidableAllowed (live : Live) (op : ZOp) : Decidable (op.Allowed live) :=
  match op with
  | .zmalloc _ _ => inferInstanceAs (Decidable (_ ∧ _))
  | .zcalloc _ _ => inferInstanceAs (Decidable (_ ∧ _))
  | .zrealloc _ _ _ => inferInstanceAs (Decidable (_ ∧ _ ∧ _))
  | .zfree ptr => inferInstanceAs (Decidable (live.Has ptr))

instance decidableLegal : (ops : List ZOp) → (live : Live) → (σ : ZHeap) → Decidable (Legal ops live σ)
  | [], _, _ => inferInstanceAs (Decidable True)
  | op :: ops, live, σ =>
    haveI : Decidable (match op.exec σ with
        | .ok (ret, σ) => (live.after (op, ret)).total < 2 ^ 64 ∧ Legal ops (live.after (op, ret)) σ
        | .error _ => True) :=
      match op.exec σ with
      | .ok (ret, σ) =>
        haveI := decidableLegal ops (live.after (op, ret)) σ
        inferInstanceAs (Decidable (_ ∧ Legal ops (live.after (op, ret)) σ))
      | .error _ => inferInstanceAs (Decidable True)
    inferInstanceAs (Decidable (op.Allowed live ∧ _))

def Stat.InRange : Stat → Prop
  | .alloc n before => before + n < 2 ^ 64
  | .free n before => n ≤ before

/-- The heap holds the live blocks and nothing else, and `used_memory` is their total. -/
structure Exact (live : Live) (σ : ZHeap) : Prop where
  blocks : σ.blocks.map (fun x => (x.1, x.2.size)) = live
  nodup : (live.map Prod.fst).Nodup
  used_memory : σ.used_memory = live.total
  bounded : live.total < 2 ^ 64
  sizes : ∀ x ∈ live, x.2 + 15 < 2 ^ 64
  stats : ∀ s ∈ σ.stats, s.InRange

theorem update_zmalloc_stat_alloc_used {σ : ZHeap} {n : Nat} (h : σ.used_memory + padded n < 2 ^ 64) :
    (update_zmalloc_stat_alloc σ n).used_memory = σ.used_memory + padded n := by
  have hsum := CInt.toSize_of_range (x := (σ.used_memory : Int) + (padded n : Int)) (by omega) (by omega)
  simp only [update_zmalloc_stat_alloc, hsum]
  omega

theorem update_zmalloc_stat_free_used {σ : ZHeap} {n : Nat} (h : padded n ≤ σ.used_memory)
    (hlt : σ.used_memory < 2 ^ 64) :
    (update_zmalloc_stat_free σ n).used_memory = σ.used_memory - padded n := by
  have hsub := CInt.toSize_of_range (x := (σ.used_memory : Int) - (padded n : Int)) (by omega) (by omega)
  simp only [update_zmalloc_stat_free, hsub]
  omega

theorem padded_eq {n : Nat} (h : n + 7 < 2 ^ 64) : padded n = (n + 7) / 8 * 8 := by
  have hand : n &&& (SIZEOF_LONG - 1) = n % 8 := Nat.and_two_pow_sub_one_eq_mod n 3
  unfold padded
  rw [hand]
  simp only [SIZEOF_LONG]
  split_ifs with hz
  · rw [Nat.mod_eq_of_lt (by omega)]
    omega
  · omega

theorem blockSize_eq {size : Nat} (h : size + 15 < 2 ^ 64) : blockSize size = padded size + PREFIX_SIZE := by
  rw [blockSize, padded_eq (by omega), Nat.mod_eq_of_lt]
  simp only [PREFIX_SIZE]
  omega

theorem padded_request {size : Nat} (h : size + 15 < 2 ^ 64) :
    padded ((size + PREFIX_SIZE) % 2 ^ 64) = blockSize size := by
  rw [blockSize_eq h]
  simp only [PREFIX_SIZE]
  rw [Nat.mod_eq_of_lt (by omega), padded_eq (by omega), padded_eq (by omega)]
  omega

namespace Live

variable {live : Live} {ptr : Nat}

@[simp] theorem total_cons (x : Nat × Nat) (live : Live) : total (x :: live) = blockSize x.2 + live.total := by
  simp [total]

theorem free_of_mem (h : (live.map Prod.fst).Nodup) {size : Nat} (hmem : (ptr, size) ∈ live) :
    live.total = blockSize size + (live.free (some ptr)).total := by
  induction live with
  | nil => cases hmem
  | cons x live ih =>
    rw [List.map_cons, List.nodup_cons] at h
    rcases List.mem_cons.mp hmem with rfl | hmem
    · have hrest : live.filter (fun x => x.1 ≠ ptr) = live := by
        rw [List.filter_eq_self]
        intro y hy
        have hne : y.1 ≠ ptr := fun he => h.1 (List.mem_map.mpr ⟨y, hy, he⟩)
        simpa using hne
      rw [free, List.filter_cons_of_neg (by simp), hrest, total_cons]
    · have hne : x.1 ≠ ptr := fun he => h.1 (List.mem_map.mpr ⟨_, hmem, he.symm⟩)
      have hsum := ih h.2 hmem
      rw [free] at hsum ⊢
      rw [List.filter_cons_of_pos (by simpa using hne), total_cons, total_cons, hsum]
      omega

theorem nodup_free (h : (live.map Prod.fst).Nodup) (ptr : Option Nat) : ((live.free ptr).map Prod.fst).Nodup := by
  cases ptr with
  | none => exact h
  | some ptr => exact h.sublist (List.filter_sublist.map Prod.fst)

theorem mem_of_mem_free {x : Nat × Nat} {ptr : Option Nat} (h : x ∈ live.free ptr) : x ∈ live := by
  cases ptr with
  | none => exact h
  | some ptr => exact List.mem_of_mem_filter h

end Live

theorem eraseP_eq_filter {blocks : List (Nat × ZBlock)} (h : (blocks.map Prod.fst).Nodup) (ptr : Nat) :
    blocks.eraseP (fun x => x.1 == ptr) = blocks.filter fun x => x.1 ≠ ptr := by
  induction blocks with
  | nil => rfl
  | cons x blocks ih =>
    rw [List.map_cons, List.nodup_cons] at h
    by_cases hx : x.1 = ptr
    · rw [List.eraseP_cons_of_pos (by simpa using hx), List.filter_cons_of_neg (by simpa using hx), eq_comm,
        List.filter_eq_self]
      intro y hy
      have hne : y.1 ≠ ptr := fun he => h.1 (List.mem_map.mpr ⟨y, hy, he.trans hx.symm⟩)
      simpa using hne
    · rw [List.eraseP_cons_of_neg (by simpa using hx), List.filter_cons_of_pos (by simpa using hx), ih h.2]

namespace Exact

variable {live : Live} {σ : ZHeap} (h : Exact live σ)

include h

theorem keys : σ.blocks.map Prod.fst = live.map Prod.fst := by
  rw [← h.blocks, List.map_map]
  rfl

theorem drop_blocks (ptr : Nat) : (σ.drop ptr).blocks.map (fun x => (x.1, x.2.size)) = live.free (some ptr) := by
  have hnodup : (σ.blocks.map Prod.fst).Nodup := h.keys ▸ h.nodup
  show (σ.blocks.eraseP _).map _ = _
  rw [eraseP_eq_filter hnodup, Live.free, ← h.blocks, List.filter_map]
  rfl

theorem find {ptr : Nat} (hlive : live.Has (some ptr)) :
    ∃ b, σ.find ptr = .ok b ∧ (ptr, b.size) ∈ live := by
  have hmem : ptr ∈ σ.blocks.map Prod.fst := by rwa [h.keys]
  obtain ⟨y, hy, hkey⟩ := List.mem_map.mp hmem
  cases hf : σ.blocks.find? fun x => x.1 == ptr with
  | none => exact absurd (by simpa using hkey) (by simpa using List.find?_eq_none.mp hf y hy)
  | some x =>
    have hx := List.mem_of_find?_eq_some hf
    have hptr : x.1 = ptr := by simpa using List.find?_some hf
    refine ⟨x.2, by rw [ZHeap.find, hf], ?_⟩
    rw [← h.blocks, ← hptr]
    exact List.mem_map_of_mem (f := fun x => (x.1, x.2.size)) hx

theorem zmalloc_size {x : Nat × Nat} (hx : x ∈ live) : σ.zmalloc_size x.1 = .ok (blockSize x.2) := by
  obtain ⟨b, hfind, hb⟩ := h.find (List.mem_map_of_mem hx)
  have hsame : (x.1, b.size) = x := List.inj_on_of_nodup_map h.nodup hb hx rfl
  rw [ZHeap.zmalloc_size, hfind, ok_bind, ← hsame]
  rfl

end Exact

theorem Exact.alloc {live : Live} {σ : ZHeap} {n : Nat} (hblocks : σ.blocks.map (fun x => (x.1, x.2.size)) = live)
    (hnodup : (live.map Prod.fst).Nodup) (hstep : σ.used_memory + padded n = live.total) (hlt : live.total < 2 ^ 64)
    (hsizes : ∀ x ∈ live, x.2 + 15 < 2 ^ 64) (hstats : ∀ s ∈ σ.stats, s.InRange) :
    Exact live (update_zmalloc_stat_alloc σ n) := by
  have hfit : σ.used_memory + padded n < 2 ^ 64 := by omega
  refine ⟨hblocks, hnodup, ?_, hlt, hsizes, ?_⟩
  · rw [update_zmalloc_stat_alloc_used hfit, hstep]
  · intro s hs
    rcases List.mem_cons.mp hs with rfl | hs
    · exact hfit
    · exact hstats s hs

section Calls

variable {live : Live} {σ : ZHeap} (h : Exact live σ)

include h

theorem ZHeap.request_exact (m : MallocAt) (hnew : live.New m) {alloc : Malloc → Nat → Except Fault (List UInt8)}
    {size : Nat} (hsize : size + 15 < 2 ^ 64) (hnull : alloc none size = .error .outOfMemory)
    (halloc : ∀ fresh, ∃ data, alloc (some fresh) size = .ok data) :
    σ.request m alloc size = .error .outOfMemory ∨ ∃ ptr σ', σ.request m alloc size = .ok (ptr, σ') ∧
      (Live.total ((ptr, size) :: live) < 2 ^ 64 → Exact ((ptr, size) :: live) σ') := by
  cases m with
  | none => exact .inl (by rw [ZHeap.request, Option.map_none, hnull]; rfl)
  | some a =>
    obtain ⟨data, hok⟩ := halloc a.2
    refine .inr ⟨_, _, by rw [ZHeap.request, Option.map_some, hok, ok_bind]; rfl, fun hlt => ?_⟩
    refine Exact.alloc ?_ ?_ ?_ hlt ?_ h.stats
    · rw [List.map_cons, h.blocks]
    · exact List.nodup_cons.mpr ⟨hnew a rfl, h.nodup⟩
    · rw [padded_request hsize, Live.total_cons, Nat.add_comm, ← h.used_memory]
    · intro x hx
      rcases List.mem_cons.mp hx with rfl | hx
      · exact hsize
      · exact h.sizes x hx

theorem ZHeap.zmalloc_exact (m : MallocAt) (hnew : live.New m) {size : Nat} (hsize : size + 15 < 2 ^ 64) :
    σ.zmalloc m size = .error .outOfMemory ∨ ∃ ptr σ', σ.zmalloc m size = .ok (ptr, σ') ∧
      (Live.total ((ptr, size) :: live) < 2 ^ 64 → Exact ((ptr, size) :: live) σ') :=
  ZHeap.request_exact h m hnew hsize rfl fun fresh => ⟨_, zmalloc_ok size (by simp only [PREFIX_SIZE]; omega) fresh⟩

theorem ZHeap.zcalloc_exact (m : MallocAt) (hnew : live.New m) {size : Nat} (hsize : size + 15 < 2 ^ 64) :
    σ.zcalloc m size = .error .outOfMemory ∨ ∃ ptr σ', σ.zcalloc m size = .ok (ptr, σ') ∧
      (Live.total ((ptr, size) :: live) < 2 ^ 64 → Exact ((ptr, size) :: live) σ') :=
  ZHeap.request_exact h m hnew hsize rfl fun fresh => ⟨_, zcalloc_ok size (by simp only [PREFIX_SIZE]; omega) fresh⟩

theorem ZHeap.zrealloc_exact (m : MallocAt) {ptr : Option Nat} (hlive : live.Has ptr) (hnew : (live.free ptr).New m)
    {size : Nat} (hsize : size + 15 < 2 ^ 64) :
    σ.zrealloc m ptr size = .error .outOfMemory ∨ ∃ newptr σ', σ.zrealloc m ptr size = .ok (newptr, σ') ∧
      (Live.total ((newptr, size) :: live.free ptr) < 2 ^ 64 → Exact ((newptr, size) :: live.free ptr) σ') := by
  cases ptr with
  | none => exact ZHeap.zmalloc_exact h m hnew hsize
  | some ptr =>
    obtain ⟨b, hfind, hmem⟩ := h.find hlive
    cases m with
    | none =>
      refine .inl ?_
      rw [ZHeap.zrealloc, hfind, ok_bind]
      rfl
    | some a =>
      have hold : b.size + 15 < 2 ^ 64 := h.sizes _ hmem
      have hdata := zrealloc_ok size (by simp only [PREFIX_SIZE]; omega) a.2 b.data
      refine .inr ⟨_, _, by rw [ZHeap.zrealloc, hfind, ok_bind]; simp only [Option.map_some, hdata]; rfl,
        fun hlt => ?_⟩
      have hsum := Live.free_of_mem h.nodup hmem
      have hused := h.used_memory
      have hbound := h.bounded
      have hb := blockSize_eq hold
      have hnewsize := blockSize_eq hsize
      have hfree : padded b.size ≤ σ.used_memory := by omega
      refine Exact.alloc ?_ ?_ ?_ hlt ?_ ?_
      · show (_, size) :: (σ.drop ptr).blocks.map _ = _
        rw [h.drop_blocks]
      · exact List.nodup_cons.mpr ⟨hnew a rfl, Live.nodup_free h.nodup _⟩
      · have hdrop := update_zmalloc_stat_free_used hfree (show σ.used_memory < 2 ^ 64 by omega)
        show (update_zmalloc_stat_free σ b.size).used_memory + padded size = _
        rw [hdrop, Live.total_cons]
        dsimp only
        omega
      · intro x hx
        rcases List.mem_cons.mp hx with rfl | hx
        · exact hsize
        · exact h.sizes x (Live.mem_of_mem_free hx)
      · intro s hs
        rcases List.mem_cons.mp hs with rfl | hs
        · exact hfree
        · exact h.stats s hs

theorem ZHeap.zfree_exact {ptr : Option Nat} (hlive : live.Has ptr) :
    ∃ σ', σ.zfree ptr = .ok σ' ∧ Exact (live.free ptr) σ' := by
  cases ptr with
  | none => exact ⟨σ, rfl, h⟩
  | some ptr =>
    obtain ⟨b, hfind, hmem⟩ := h.find hlive
    refine ⟨_, by rw [ZHeap.zfree, hfind, ok_bind]; rfl, ?_⟩
    have hpad : padded ((b.size + PREFIX_SIZE) % 2 ^ 64) = blockSize b.size := padded_request (h.sizes _ hmem)
    have hsum := Live.free_of_mem h.nodup hmem
    have hused := h.used_memory
    have hbound := h.bounded
    have hfree : padded ((b.size + PREFIX_SIZE) % 2 ^ 64) ≤ σ.used_memory := by omega
    refine ⟨h.drop_blocks ptr, Live.nodup_free h.nodup _, ?_, by omega, ?_, ?_⟩
    · show (update_zmalloc_stat_free σ _).used_memory = _
      rw [update_zmalloc_stat_free_used hfree (by omega)]
      omega
    · exact fun x hx => h.sizes x (Live.mem_of_mem_free hx)
    · intro s hs
      rcases List.mem_cons.mp hs with rfl | hs
      · exact hfree
      · exact h.stats s hs

theorem ZOp.exec_exact {op : ZOp} (hop : op.Allowed live) :
    op.exec σ = .error .outOfMemory ∨ ∃ ret σ', op.exec σ = .ok (ret, σ') ∧
      ((live.after (op, ret)).total < 2 ^ 64 → Exact (live.after (op, ret)) σ') := by
  cases op with
  | zmalloc m size =>
    rcases ZHeap.zmalloc_exact h m hop.1 hop.2 with he | ⟨ptr, σ', he, hexact⟩
    · exact .inl (by rw [ZOp.exec, he]; rfl)
    · exact .inr ⟨some ptr, σ', by rw [ZOp.exec, he]; rfl, hexact⟩
  | zcalloc m size =>
    rcases ZHeap.zcalloc_exact h m hop.1 hop.2 with he | ⟨ptr, σ', he, hexact⟩
    · exact .inl (by rw [ZOp.exec, he]; rfl)
    · exact .inr ⟨some ptr, σ', by rw [ZOp.exec, he]; rfl, hexact⟩
  | zrealloc m ptr size =>
    rcases ZHeap.zrealloc_exact h m hop.1 hop.2.1 hop.2.2 with he | ⟨newptr, σ', he, hexact⟩
    · exact .inl (by rw [ZOp.exec, he]; rfl)
    · exact .inr ⟨some newptr, σ', by rw [ZOp.exec, he]; rfl, hexact⟩
  | zfree ptr =>
    obtain ⟨σ', he, hexact⟩ := ZHeap.zfree_exact h hop
    exact .inr ⟨none, σ', by rw [ZOp.exec, he]; rfl, fun _ => hexact⟩

end Calls

theorem runZOps_invariant {ops : List ZOp} {live : Live} {σ : ZHeap} (h : Exact live σ) (hops : Legal ops live σ) :
    runZOps ops σ = .error .outOfMemory ∨ ∃ calls σ', runZOps ops σ = .ok (calls, σ') ∧
      calls.map Prod.fst = ops ∧ Exact (calls.foldl Live.after live) σ' := by
  induction ops generalizing live σ with
  | nil => exact .inr ⟨[], σ, rfl, rfl, h⟩
  | cons op ops ih =>
    obtain ⟨hop, hrest⟩ := hops
    rcases ZOp.exec_exact h hop with he | ⟨ret, σ', he, hexact⟩
    · exact .inl (by rw [runZOps, he]; rfl)
    · rw [he] at hrest
      obtain ⟨hlt, hlegal⟩ := hrest
      rw [runZOps, he, ok_bind]
      rcases ih (hexact hlt) hlegal with herr | ⟨calls, σ'', hrun, hcalls, hend⟩
      · exact .inl (by dsimp only; rw [herr]; rfl)
      · refine .inr ⟨(op, ret) :: calls, σ'', by dsimp only; rw [hrun]; rfl, ?_, hend⟩
        rw [List.map_cons, hcalls]

/-- After any legal run that was not aborted for lack of memory, `used_memory` is the sum
of `zmalloc_size` over the blocks that the calls have left live, no update has wrapped,
and once every block is freed it is back where it started. -/
theorem runZOps_exact {ops : List ZOp} (hops : Legal ops [] .init) :
    runZOps ops .init = .error .outOfMemory ∨ ∃ calls σ, runZOps ops .init = .ok (calls, σ) ∧
      calls.map Prod.fst = ops ∧
      (∃ sizes, List.Forall₂ (fun x n => σ.zmalloc_size x.1 = .ok n) (Live.afterAll calls) sizes ∧
        σ.used_memory = sizes.sum) ∧
      (∀ s ∈ σ.stats, s.InRange) ∧
      (Live.afterAll calls = [] → σ.used_memory = ZHeap.init.used_memory ∧ σ.blocks = []) := by
  have hinit : Exact [] .init := ⟨rfl, List.nodup_nil, rfl, by decide, by simp, by simp [ZHeap.init]⟩
  rcases runZOps_invariant hinit hops with he | ⟨calls, σ, he, hcalls, hexact⟩
  · exact .inl he
  · refine .inr ⟨calls, σ, he, hcalls, ⟨_, ?_, hexact.used_memory⟩, hexact.stats, fun hnil => ?_⟩
    · rw [List.forall₂_map_right_iff]
      exact List.forall₂_same.mpr fun x hx => hexact.zmalloc_size hx
    · replace hexact : Exact (Live.afterAll calls) σ := hexact
      rw [hnil] at hexact
      exact ⟨hexact.used_memory, List.map_eq_nil_iff.mp hexact.blocks⟩

def sampleZOps : List ZOp :=
  [.zmalloc (some (100, fun _ => 7)) 5, .zcalloc (some (200, fun _ => 7)) 16,
    .zrealloc (some (300, fun _ => 7)) (some 108) 13, .zrealloc (some (400, fun _ => 7)) none 1,
    .zfree (some 208), .zfree none, .zrealloc (some (300, fun _ => 7)) (some 308) 3, .zfree (some 408),
    .zfree (some 308)]

theorem sampleZOps_exact :
    ∃ calls σ, runZOps sampleZOps .init = .ok (calls, σ) ∧ Live.afterAll calls = [] ∧ σ.used_memory = 0 := by
  have hreturns : (runZOps sampleZOps .init).toOption.map (fun r => Live.afterAll r.1) = some [] := by decide
  rcases @runZOps_exact sampleZOps (by decide) with herr | ⟨calls, σ, hrun, -, -, -, hfreed⟩
  · rw [herr] at hreturns
    cases hreturns
  · rw [hrun] at hreturns
    have hnil : Live.afterAll calls = [] := Option.some.inj hreturns
    exact ⟨calls, σ, hrun, hnil, (hfreed hnil).1⟩

end CPractice
