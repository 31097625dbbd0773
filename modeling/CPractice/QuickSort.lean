import CPractice.Lib.Reach
import Mathlib.Data.List.Sort
import Mathlib.Order.Defs.LinearOrder

/-! The two quick sorts. The parallel one is a tree of tasks: the scheduler picks the
task that goes on, so a run is a list of places in the tree. -/

namespace CPractice

/-- `std::partition`: the elements that satisfy the predicate come first, in any order. -/
structure StdPartition (T : Type) where
  run : (T → Bool) → List T → List T × Nat
  perm : ∀ p l, (run p l).1.Perm l
  first : ∀ p l, ∀ t ∈ (run p l).1.take (run p l).2, p t = true
  second : ∀ p l, ∀ t ∈ (run p l).1.drop (run p l).2, p t = false

/-- `list.splice(pos, other, first, last)`: both lists afterwards. -/
def splice {T : Type} (list : List T) (pos : Nat) (other : List T) (first last : Nat) : List T × List T :=
  (list.take pos ++ (other.take last).drop first ++ list.drop pos, other.take first ++ other.drop last)

theorem splice_front {T : Type} (list other : List T) :
    splice list 0 other 0 other.length = (other ++ list, []) := by
  simp [splice]

theorem splice_back {T : Type} (list other : List T) :
    splice list list.length other 0 other.length = (list ++ other, []) := by
  simp [splice]

inductive Fork where
  | lower
  | higher
  deriving DecidableEq, Repr

/-- The lower part is sorted by a task of its own, the other one by the caller, which then waits in `getting`. -/
inductive Task (T : Type) where
  | called (input : List T)
  | forked (result : List T) (new_lower new_higher : Task T)
  | getting (result : List T) (new_lower : Task T)
  | returned (list : List T)
  deriving DecidableEq, Repr

section Sorting

variable {T : Type} [LinearOrder T]

/-- The first half of both functions, up to the recursive calls. -/
def divide (partition : StdPartition T) (input : List T) : Option (List T × List T × List T) := do
  let (result, input) := splice [] 0 input 0 1
  let pivot ← result.head?
  let (input, divide_point) := partition.run (fun t => decide (t < pivot)) input
  let (lower_part, input) := splice [] 0 input 0 divide_point
  return (result, lower_part, input)

/-- A call is named by its place in the recursion, and no two calls have to partition alike. -/
def sequential_quick_sort : Nat → (List Fork → StdPartition T) → List T → Option (List T)
  | 0, _, _ => none
  | fuel + 1, partition, input =>
    if input.isEmpty then some input
    else do
      let (result, lower_part, input) ← divide (partition []) input
      let new_lower ← sequential_quick_sort fuel (fun path => partition (.lower :: path)) lower_part
      let new_higher ← sequential_quick_sort fuel (fun path => partition (.higher :: path)) input
      let (result, _) := splice result result.length new_higher 0 new_higher.length
      let (result, _) := splice result 0 new_lower 0 new_lower.length
      return result

/-- The task at the end of `path` takes its next step. -/
def parallel_quick_sort : (List Fork → StdPartition T) → Task T → List Fork → Option (Task T)
  | partition, .called input, [] =>
    if input.isEmpty then some (.returned input)
    else do
      let (result, lower_part, input) ← divide (partition []) input
      return .forked result (.called lower_part) (.called input)
  | partition, .forked result new_lower new_higher, .lower :: path =>
    (parallel_quick_sort (fun p => partition (.lower :: p)) new_lower path).map (.forked result · new_higher)
  | partition, .forked result new_lower new_higher, .higher :: path =>
    (parallel_quick_sort (fun p => partition (.higher :: p)) new_higher path).map (.forked result new_lower ·)
  | _, .forked result new_lower (.returned new_higher), [] =>
    some (.getting (splice result result.length new_higher 0 new_higher.length).1 new_lower)
  | partition, .getting result new_lower, .lower :: path =>
    (parallel_quick_sort (fun p => partition (.lower :: p)) new_lower path).map (.getting result)
  | _, .getting result (.returned new_lower), [] =>
    some (.returned (splice result 0 new_lower 0 new_lower.length).1)
  | _, _, _ => none

theorem divide_cons (partition : StdPartition T) (pivot : T) (input : List T) :
    ∃ lower higher, divide partition (pivot :: input) = some ([pivot], lower, higher) ∧
      (lower ++ higher).Perm input ∧ (∀ t ∈ lower, t < pivot) ∧ ∀ t ∈ higher, pivot ≤ t := by
  let parts := partition.run (fun t => decide (t < pivot)) input
  refine ⟨parts.1.take parts.2, parts.1.drop parts.2, ?_, ?_, ?_, ?_⟩
  · simp [divide, splice, parts]
  · rw [List.take_append_drop]
    exact partition.perm _ _
  · intro t ht
    exact of_decide_eq_true (partition.first _ _ t ht)
  · intro t ht
    exact not_lt.mp (of_decide_eq_false (partition.second _ _ t ht))

theorem sorted_around {pivot : T} {lower higher : List T} (hlower : lower.Pairwise (· ≤ ·))
    (hhigher : higher.Pairwise (· ≤ ·)) (hlt : ∀ t ∈ lower, t < pivot) (hge : ∀ t ∈ higher, pivot ≤ t) :
    (lower ++ pivot :: higher).Pairwise (· ≤ ·) := by
  rw [List.pairwise_append, List.pairwise_cons]
  refine ⟨hlower, ⟨hge, hhigher⟩, ?_⟩
  intro a ha b hb
  rcases List.mem_cons.mp hb with rfl | hb
  · exact (hlt a ha).le
  · exact (hlt a ha).le.trans (hge b hb)

omit [LinearOrder T] in
theorem perm_around {pivot : T} {lower higher input : List T} (h : (lower ++ higher).Perm input) :
    (lower ++ pivot :: higher).Perm (pivot :: input) :=
  List.perm_middle.trans (h.cons pivot)

theorem sequential_quick_sort_ok {fuel : Nat} (partition : List Fork → StdPartition T) {input : List T}
    (hfuel : input.length < fuel) :
    ∃ sorted, sequential_quick_sort fuel partition input = some sorted ∧ sorted.Pairwise (· ≤ ·) ∧
      sorted.Perm input := by
  induction fuel generalizing partition input with
  | zero => omega
  | succ fuel ih =>
    cases input with
    | nil => exact ⟨[], rfl, .nil, .refl _⟩
    | cons pivot input =>
      obtain ⟨lower, higher, hdivide, hperm, hlt, hge⟩ := divide_cons (partition []) pivot input
      have hlen := hperm.length_eq
      rw [List.length_append] at hlen
      rw [List.length_cons] at hfuel
      obtain ⟨new_lower, hl, hlsorted, hlperm⟩ :=
        ih (fun path => partition (.lower :: path)) (show lower.length < fuel by omega)
      obtain ⟨new_higher, hh, hhsorted, hhperm⟩ :=
        ih (fun path => partition (.higher :: path)) (show higher.length < fuel by omega)
      refine ⟨new_lower ++ pivot :: new_higher, ?_, ?_, ?_⟩
      · simp [sequential_quick_sort, hdivide, hl, hh, splice_front, splice_back]
      · exact sorted_around hlsorted hhsorted (fun t ht => hlt t (hlperm.mem_iff.mp ht))
          fun t ht => hge t (hhperm.mem_iff.mp ht)
      · exact perm_around ((hlperm.append hhperm).trans hperm)

def Task.items : Task T → List T
  | .called input => input
  | .forked result new_lower new_higher => new_lower.items ++ (result ++ new_higher.items)
  | .getting result new_lower => new_lower.items ++ result
  | .returned list => list

def Task.Ordered : Task T → Prop
  | .called _ => True
  | .forked result new_lower new_higher =>
    new_lower.Ordered ∧ new_higher.Ordered ∧ ∃ pivot, result = [pivot] ∧
      (∀ t ∈ new_lower.items, t < pivot) ∧ ∀ t ∈ new_higher.items, pivot ≤ t
  | .getting result new_lower =>
    new_lower.Ordered ∧ result.Pairwise (· ≤ ·) ∧ ∀ t ∈ new_lower.items, ∀ t' ∈ result, t ≤ t'
  | .returned list => list.Pairwise (· ≤ ·)

def Task.work : Task T → Nat
  | .called input => 4 * input.length + 1
  | .forked _ new_lower new_higher => new_lower.work + new_higher.work + 2
  | .getting _ new_lower => new_lower.work + 1
  | .returned _ => 0

theorem parallel_quick_sort_step {partition : List Fork → StdPartition T} {t t' : Task T} {path : List Fork}
    (h : t.Ordered) (he : parallel_quick_sort partition t path = some t') :
    t'.Ordered ∧ t'.items.Perm t.items ∧ t'.work + 1 = t.work := by
  fun_induction parallel_quick_sort partition t path generalizing t' with
  | case1 partition input hempty =>
    cases he
    rw [List.isEmpty_iff] at hempty
    subst hempty
    exact ⟨.nil, .refl _, rfl⟩
  | case2 partition input hempty =>
    obtain ⟨pivot, input, rfl⟩ := List.exists_cons_of_ne_nil (mt List.isEmpty_iff.mpr hempty)
    obtain ⟨lower, higher, hdivide, hperm, hlt, hge⟩ := divide_cons (partition []) pivot input
    rw [hdivide] at he
    cases he
    have hlen := hperm.length_eq
    rw [List.length_append] at hlen
    refine ⟨⟨trivial, trivial, pivot, rfl, hlt, hge⟩, perm_around hperm, ?_⟩
    simp only [Task.work, List.length_cons]
    omega
  | case3 partition result new_lower new_higher path ih =>
    obtain ⟨lower, hstep, rfl⟩ := Option.map_eq_some_iff.mp he
    obtain ⟨hlower, hhigher, pivot, rfl, hlt, hge⟩ := h
    obtain ⟨hordered, hperm, hwork⟩ := ih hlower hstep
    refine ⟨⟨hordered, hhigher, pivot, rfl, fun t ht => hlt t (hperm.mem_iff.mp ht), hge⟩, hperm.append_right _, ?_⟩
    simp only [Task.work]
    omega
  | case4 partition result new_lower new_higher path ih =>
    obtain ⟨higher, hstep, rfl⟩ := Option.map_eq_some_iff.mp he
    obtain ⟨hlower, hhigher, pivot, rfl, hlt, hge⟩ := h
    obtain ⟨hordered, hperm, hwork⟩ := ih hhigher hstep
    refine ⟨⟨hlower, hordered, pivot, rfl, hlt, fun t ht => hge t (hperm.mem_iff.mp ht)⟩,
      (hperm.append_left _).append_left _, ?_⟩
    simp only [Task.work]
    omega
  | case5 partition result new_lower new_higher =>
    cases he
    obtain ⟨hlower, hsorted, pivot, rfl, hlt, hge⟩ := h
    rw [splice_back]
    have hresult := sorted_around List.Pairwise.nil hsorted (by simp) hge
    refine ⟨⟨hlower, hresult, ?_⟩, .refl _, rfl⟩
    intro t ht t' ht'
    rcases List.mem_cons.mp ht' with rfl | ht'
    · exact (hlt t ht).le
    · exact (hlt t ht).le.trans (hge t' ht')
  | case6 partition result new_lower path ih =>
    obtain ⟨lower, hstep, rfl⟩ := Option.map_eq_some_iff.mp he
    obtain ⟨hlower, hsorted, hle⟩ := h
    obtain ⟨hordered, hperm, hwork⟩ := ih hlower hstep
    refine ⟨⟨hordered, hsorted, fun t ht => hle t (hperm.mem_iff.mp ht)⟩, hperm.append_right _, ?_⟩
    simp only [Task.work]
    omega
  | case7 partition result new_lower =>
    cases he
    obtain ⟨hlower, hsorted, hle⟩ := h
    rw [splice_front]
    exact ⟨List.pairwise_append.mpr ⟨hlower, hsorted, hle⟩, .refl _, rfl⟩
  | case8 => cases he

/-- A task that has not returned is never stuck: it waits for a task that can go on. -/
theorem parallel_quick_sort_progress (partition : List Fork → StdPartition T) (t : Task T) :
    (∃ list, t = .returned list) ∨ ∃ path t', parallel_quick_sort partition t path = some t' := by
  induction t generalizing partition with
  | called input =>
    right
    cases input with
    | nil => exact ⟨[], _, rfl⟩
    | cons pivot input =>
      obtain ⟨lower, higher, hdivide, -⟩ := divide_cons (partition []) pivot input
      refine ⟨[], .forked [pivot] (.called lower) (.called higher), ?_⟩
      simp [parallel_quick_sort, hdivide]
  | forked result new_lower new_higher _ ih =>
    right
    rcases ih fun p => partition (.higher :: p) with ⟨list, rfl⟩ | ⟨path, t', hstep⟩
    · exact ⟨[], _, rfl⟩
    · exact ⟨.higher :: path, .forked result new_lower t', by simp [parallel_quick_sort, hstep]⟩
  | getting result new_lower ih =>
    right
    rcases ih fun p => partition (.lower :: p) with ⟨list, rfl⟩ | ⟨path, t', hstep⟩
    · exact ⟨[], _, rfl⟩
    · exact ⟨.lower :: path, .getting result t', by simp [parallel_quick_sort, hstep]⟩
  | returned list => exact .inl ⟨list, rfl⟩

theorem parallel_quick_sort_run {partition : List Fork → StdPartition T} {schedule : List (List Fork)} {t t' : Task T}
    (h : t.Ordered) (hrun : Reach.run (parallel_quick_sort partition) schedule t = some t') :
    t'.Ordered ∧ t'.items.Perm t.items ∧ t'.work + schedule.length = t.work := by
  have hstep : ∀ s path s', (s.Ordered ∧ s.items.Perm t.items) → parallel_quick_sort partition s path = some s' →
      (s'.Ordered ∧ s'.items.Perm t.items) ∧ s'.work + 1 = s.work := by
    rintro s path s' ⟨hs, hp⟩ he
    obtain ⟨hordered, hperm, hwork⟩ := parallel_quick_sort_step hs he
    exact ⟨⟨hordered, hperm.trans hp⟩, hwork⟩
  obtain ⟨⟨hordered, hperm⟩, hwork⟩ := Reach.run_work _ Task.work hstep ⟨h, .refl _⟩ hrun
  exact ⟨hordered, hperm, hwork⟩

/-- However the calls partition and however the tasks are scheduled, both functions return
the sorted list. -/
theorem quick_sorts_return_sorted (partition partition' : List Fork → StdPartition T) (input : List T) :
    ∃ sorted : List T, sorted.Pairwise (· ≤ ·) ∧ sorted.Perm input ∧
      (∀ fuel, input.length < fuel → sequential_quick_sort fuel partition input = some sorted) ∧
      ∀ schedule t, Reach.run (parallel_quick_sort partition') schedule (.called input) = some t →
        schedule.length ≤ 4 * input.length + 1 ∧
          (t = .returned sorted ∨ ∃ path t', parallel_quick_sort partition' t path = some t') := by
  obtain ⟨sorted, -, hsorted, hperm⟩ := sequential_quick_sort_ok partition (Nat.lt_succ_self input.length)
  have hunique : ∀ list : List T, list.Pairwise (· ≤ ·) → list.Perm input → list = sorted := by
    intro list hlist hp
    exact (hp.trans hperm.symm).eq_of_pairwise' hlist hsorted
  refine ⟨sorted, hsorted, hperm, ?_, ?_⟩
  · intro fuel hfuel
    obtain ⟨list, hrun, hlist, hp⟩ := sequential_quick_sort_ok partition hfuel
    rw [hrun, hunique list hlist hp]
  · intro schedule t hrun
    obtain ⟨hordered, hp, hwork⟩ := parallel_quick_sort_run (t := .called input) trivial hrun
    have hbound : (Task.called input).work = 4 * input.length + 1 := rfl
    refine ⟨by omega, ?_⟩
    rcases parallel_quick_sort_progress partition' t with ⟨list, rfl⟩ | hstep
    · exact .inl (by rw [hunique list hordered hp])
    · exact .inr hstep

end Sorting

def StdPartition.stable {T : Type} : StdPartition T where
  run p l := (l.filter p ++ l.filter (!p ·), (l.filter p).length)
  perm p l := List.filter_append_perm p l
  first p l t ht := by
    rw [List.take_left] at ht
    exact (List.mem_filter.mp ht).2
  second p l t ht := by
    rw [List.drop_left] at ht
    simpa using (List.mem_filter.mp ht).2

example : sequential_quick_sort 5 (fun _ => .stable) [2, 3, 1, 2] = some [1, 2, 2, 3] := by decide

end CPractice
