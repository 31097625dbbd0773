import CPractice.Lib.Blocks
import CPractice.Lib.Reach
import Mathlib.Algebra.Group.Nat.Defs

/-! `parallel_accumlate`: a worker for each block but the last, which the caller takes
itself. The workers finish in any order, also before the caller has started them all. -/

namespace CPractice

open Blocks

/-- `std::distance` has to fit in a `ptrdiff_t`. -/
structure InputRange (T : Type) where
  elems : List T
  bound : elems.length < 2 ^ 63

inductive MainThread (T : Type) where
  | starting (i : Nat)
  | last
  | joining (i : Nat)
  | returned (value : T)
  deriving DecidableEq, Repr

structure BlockThread where
  block_start : Nat
  block_end : Nat
  done : Bool
  deriving DecidableEq, Repr

structure Accumulation (T : Type) where
  caller : MainThread T
  block_start : Nat
  threads : List BlockThread
  results : List T
  deriving DecidableEq, Repr

inductive Actor where
  | caller
  | worker (i : Nat)
  deriving DecidableEq, Repr

def min_per_thread : Nat := 25

def max_threads (length : Nat) : Nat := (length + min_per_thread - 1) % 2 ^ 64 / min_per_thread

def num_threads (hardware_threads length : Nat) : Nat :=
  min (if hardware_threads ≠ 0 then hardware_threads else 2) (max_threads length)

def block_size (hardware_threads length : Nat) : Nat := length / num_threads hardware_threads length

namespace Accumulation

variable {T : Type} [AddMonoid T]

/-- `std::accumulate`, with the two iterators as offsets. -/
def accumulate (elems : List T) (first last : Nat) (init : T) : Option T :=
  if first ≤ last ∧ last ≤ elems.length then some ((slice elems first last).foldl (· + ·) init) else none

/-- `accumulate_block` called with `results[i]`. -/
def accumulate_block (elems : List T) (first last : Nat) (results : List T) (i : Nat) : Option (List T) := do
  let result ← results[i]?
  let result ← accumulate elems first last result
  return results.set i result

section Model

variable (hardware_threads : Nat) (range : InputRange T) (init : T)

def start : Accumulation T :=
  if range.elems.length = 0 then ⟨.returned init, 0, [], []⟩
  else ⟨.starting 0, 0, [], List.replicate (num_threads hardware_threads range.elems.length) 0⟩

def callerStep (s : Accumulation T) : Option (Accumulation T) :=
  match s.caller with
  | .starting i =>
    if i < num_threads hardware_threads range.elems.length - 1 then
      let block_end := s.block_start + block_size hardware_threads range.elems.length
      some { s with
        caller := .starting (i + 1)
        block_start := block_end
        threads := s.threads ++ [⟨s.block_start, block_end, false⟩] }
    else some { s with caller := .last }
  | .last => do
    let results ← accumulate_block range.elems s.block_start range.elems.length s.results
      (num_threads hardware_threads range.elems.length - 1)
    return { s with caller := .joining 0, results }
  | .joining i =>
    match s.threads[i]? with
    | some w => if w.done then some { s with caller := .joining (i + 1) } else none
    | none => some { s with caller := .returned (s.results.foldl (· + ·) init) }
  | .returned _ => none

def workerStep (s : Accumulation T) (i : Nat) : Option (Accumulation T) := do
  let w ← s.threads[i]?
  if w.done then none
  else
    let results ← accumulate_block range.elems w.block_start w.block_end s.results i
    return { s with threads := s.threads.set i { w with done := true }, results }

def parallel_accumlate (s : Accumulation T) : Actor → Option (Accumulation T)
  | .caller => callerStep hardware_threads range init s
  | .worker i => workerStep range s i

/-- The blocks of the workers, and what is left for the caller. -/
def blocks (s : Accumulation T) : List (Nat × Nat) :=
  s.threads.map (fun w => (w.block_start, w.block_end)) ++ [(s.block_start, range.elems.length)]

end Model

section Blocks

theorem accumulate_zero {elems : List T} {first last : Nat} (h : first ≤ last) (h' : last ≤ elems.length) :
    accumulate elems first last 0 = some (sum (slice elems first last)) := by
  rw [accumulate, if_pos ⟨h, h'⟩]
  rfl

omit [AddMonoid T] in
theorem num_threads_pos (hardware_threads : Nat) {range : InputRange T} (h : range.elems.length ≠ 0) :
    0 < num_threads hardware_threads range.elems.length := by
  have hbound := range.bound
  have hsize : min_per_thread = 25 := rfl
  rw [num_threads, Nat.lt_min, max_threads, hsize]
  constructor
  · split <;> omega
  · omega

/-- The blocks of the workers leave the caller a block that may be longer, and never a negative one. -/
theorem blocks_fit (hardware_threads length : Nat) {i : Nat} (h : i ≤ num_threads hardware_threads length - 1) :
    i * block_size hardware_threads length ≤ length :=
  calc i * block_size hardware_threads length
      ≤ num_threads hardware_threads length * block_size hardware_threads length := Nat.mul_le_mul_right _ (by omega)
    _ ≤ length := Nat.mul_div_le length _

end Blocks

def partialSum (elems : List T) (w : BlockThread) : T :=
  if w.done then sum (slice elems w.block_start w.block_end) else 0

section Invariant

variable (hardware_threads : Nat) (range : InputRange T) (init : T)

def ownSum (s : Accumulation T) : T :=
  match s.caller with
  | .starting _ | .last => 0
  | .joining _ | .returned _ => sum (slice range.elems s.block_start range.elems.length)

def AtPlace (s : Accumulation T) : Prop :=
  match s.caller with
  | .starting i => i = s.threads.length
  | .last => s.threads.length = num_threads hardware_threads range.elems.length - 1
  | .joining i =>
    s.threads.length = num_threads hardware_threads range.elems.length - 1 ∧ ∀ w ∈ s.threads.take i, w.done = true
  | .returned value => value = range.elems.foldl (· + ·) init

structure Inv (s : Accumulation T) : Prop where
  consecutive : Consecutive 0 (s.threads.map fun w => (w.block_start, w.block_end)) s.block_start
  block_start : s.block_start = s.threads.length * block_size hardware_threads range.elems.length
  count : s.threads.length ≤ num_threads hardware_threads range.elems.length - 1
  results : s.results = s.threads.map (partialSum range.elems) ++
    (List.replicate (num_threads hardware_threads range.elems.length - 1 - s.threads.length) 0 ++ [ownSum range s])
  atPlace : AtPlace hardware_threads range init s

variable {hardware_threads range init} {s s' : Accumulation T}

theorem Inv.block_start_le (h : Inv hardware_threads range init s) : s.block_start ≤ range.elems.length := by
  rw [h.block_start]
  exact blocks_fit _ _ h.count

theorem Inv.blocks_consecutive (h : Inv hardware_threads range init s) :
    Consecutive 0 (blocks range s) range.elems.length :=
  h.consecutive.append h.block_start_le

theorem Inv.bounds (h : Inv hardware_threads range init s) {w : BlockThread} (hw : w ∈ s.threads) :
    w.block_start ≤ w.block_end ∧ w.block_end ≤ range.elems.length := by
  have hmem := h.blocks_consecutive.mem_le (List.mem_append_left _ (List.mem_map_of_mem hw))
  exact hmem

theorem start_inv (h : range.elems.length ≠ 0) : Inv hardware_threads range init (start hardware_threads range init) := by
  rw [start, if_neg h]
  refine ⟨rfl, (Nat.zero_mul _).symm, Nat.zero_le _, ?_, rfl⟩
  obtain ⟨n, hn⟩ := Nat.exists_eq_add_of_lt (num_threads_pos hardware_threads h)
  rw [hn, Nat.zero_add, List.replicate_succ']
  rfl

/-- The worker is the only one that writes to its place, and it is still zero there. -/
theorem worker_block (h : Inv hardware_threads range init s) {i : Nat} {w : BlockThread} (hw : s.threads[i]? = some w)
    (hdone : w.done = false) :
    accumulate_block range.elems w.block_start w.block_end s.results i =
      some (s.results.set i (sum (slice range.elems w.block_start w.block_end))) := by
  have hbounds := h.bounds (List.mem_of_getElem? hw)
  obtain ⟨hi, -⟩ := List.getElem?_eq_some_iff.mp hw
  have hresult : s.results[i]? = some 0 := by
    rw [h.results, List.getElem?_append_left (by simpa using hi), List.getElem?_map, hw, Option.map_some, partialSum,
      hdone]
    rfl
  simp [accumulate_block, hresult, accumulate_zero hbounds.1 hbounds.2]

theorem workerStep_cases {i : Nat} (h : Inv hardware_threads range init s) (he : workerStep range s i = some s') :
    ∃ w, s.threads[i]? = some w ∧ w.done = false ∧
      s' = { s with
        threads := s.threads.set i { w with done := true }
        results := s.results.set i (sum (slice range.elems w.block_start w.block_end)) } := by
  obtain ⟨w, hw, he⟩ := Option.bind_eq_some_iff.mp he
  cases hdone : w.done with
  | true => simp [hdone] at he
  | false =>
    refine ⟨w, hw, hdone, ?_⟩
    rw [hdone, if_neg Bool.false_ne_true, worker_block h hw hdone] at he
    exact (Option.some.inj he).symm

theorem Inv.worker (h : Inv hardware_threads range init s) {i : Nat} {w : BlockThread} (hw : s.threads[i]? = some w) :
    Inv hardware_threads range init
      { s with
        threads := s.threads.set i { w with done := true }
        results := s.results.set i (sum (slice range.elems w.block_start w.block_end)) } := by
  obtain ⟨hi, hget⟩ := List.getElem?_eq_some_iff.mp hw
  have hblocks : (s.threads.set i { w with done := true }).map (fun w => (w.block_start, w.block_end)) =
      s.threads.map fun w => (w.block_start, w.block_end) := by
    have hself := @List.set_getElem_self _ (s.threads.map fun w => (w.block_start, w.block_end)) i (by simpa using hi)
    rw [List.getElem_map, hget] at hself
    rw [List.map_set]
    exact hself
  constructor
  case consecutive => rw [hblocks]; exact h.consecutive
  case block_start => rw [List.length_set]; exact h.block_start
  case count => rw [List.length_set]; exact h.count
  case results =>
    dsimp only
    rw [h.results, List.set_append_left _ _ (by simpa using hi), List.map_set, List.length_set]
    rfl
  case atPlace =>
    have hplace := h.atPlace
    unfold AtPlace at hplace ⊢
    cases hc : s.caller with
    | starting j => simpa [hc] using hplace
    | last => simpa [hc] using hplace
    | joining j =>
      rw [hc] at hplace
      refine ⟨by rw [List.length_set]; exact hplace.1, ?_⟩
      intro w' hw'
      rw [List.take_set] at hw'
      rcases List.mem_or_eq_of_mem_set hw' with hmem | rfl
      · exact hplace.2 w' hmem
      · rfl
    | returned value => simpa [hc] using hplace

theorem Inv.starting (h : Inv hardware_threads range init s) {i : Nat} (hc : s.caller = .starting i)
    (hi : i < num_threads hardware_threads range.elems.length - 1) :
    Inv hardware_threads range init
      { s with
        caller := .starting (i + 1)
        block_start := s.block_start + block_size hardware_threads range.elems.length
        threads := s.threads ++
          [⟨s.block_start, s.block_start + block_size hardware_threads range.elems.length, false⟩] } := by
  have hplace : i = s.threads.length := by simpa [AtPlace, hc] using h.atPlace
  have hresults := h.results
  simp only [ownSum, hc] at hresults
  constructor
  case consecutive =>
    rw [List.map_append]
    exact h.consecutive.append (Nat.le_add_right _ _)
  case block_start =>
    rw [List.length_append, List.length_singleton, Nat.add_mul, Nat.one_mul]
    exact congrArg (· + _) h.block_start
  case count =>
    rw [List.length_append, List.length_singleton]
    omega
  case results =>
    rw [hplace] at hi
    obtain ⟨k, hk⟩ := Nat.exists_eq_add_of_lt hi
    have hold : num_threads hardware_threads range.elems.length - 1 - s.threads.length = k + 1 := by omega
    have hnew : num_threads hardware_threads range.elems.length - 1 - (s.threads.length + 1) = k := by omega
    rw [hold, List.replicate_succ] at hresults
    dsimp only
    rw [hresults, List.map_append, List.length_append, List.length_singleton, hnew, List.append_assoc]
    rfl
  case atPlace =>
    show i + 1 = _
    rw [List.length_append, List.length_singleton, hplace]

theorem Inv.started (h : Inv hardware_threads range init s) {i : Nat} (hc : s.caller = .starting i)
    (hi : ¬ i < num_threads hardware_threads range.elems.length - 1) :
    Inv hardware_threads range init { s with caller := .last } := by
  have hplace : i = s.threads.length := by simpa [AtPlace, hc] using h.atPlace
  have hresults := h.results
  have hcount := h.count
  simp only [ownSum, hc] at hresults
  refine ⟨h.consecutive, h.block_start, hcount, hresults, ?_⟩
  show s.threads.length = _
  omega

theorem own_block (h : Inv hardware_threads range init s) (hc : s.caller = .last) :
    accumulate_block range.elems s.block_start range.elems.length s.results
      (num_threads hardware_threads range.elems.length - 1) =
      some (s.threads.map (partialSum range.elems) ++ [sum (slice range.elems s.block_start range.elems.length)]) := by
  have hplace : s.threads.length = num_threads hardware_threads range.elems.length - 1 := by
    simpa [AtPlace, hc] using h.atPlace
  have hresults := h.results
  simp only [ownSum, hc, ← hplace, Nat.sub_self, List.replicate_zero, List.nil_append] at hresults
  rw [← hplace, accumulate_block, hresults]
  simp [accumulate_zero h.block_start_le (Nat.le_refl _)]

theorem Inv.last (h : Inv hardware_threads range init s) (hc : s.caller = .last) :
    Inv hardware_threads range init
      { s with
        caller := .joining 0
        results := s.threads.map (partialSum range.elems) ++
          [sum (slice range.elems s.block_start range.elems.length)] } := by
  have hplace : s.threads.length = num_threads hardware_threads range.elems.length - 1 := by
    simpa [AtPlace, hc] using h.atPlace
  refine ⟨h.consecutive, h.block_start, h.count, ?_, hplace, ?_⟩
  · dsimp only
    rw [← hplace, Nat.sub_self]
    rfl
  · intro w hw
    rw [List.take_zero] at hw
    cases hw

theorem Inv.join (h : Inv hardware_threads range init s) {i : Nat} {w : BlockThread} (hc : s.caller = .joining i)
    (hw : s.threads[i]? = some w) (hdone : w.done = true) :
    Inv hardware_threads range init { s with caller := .joining (i + 1) } := by
  have hplace := h.atPlace
  have hresults := h.results
  simp only [AtPlace, hc] at hplace
  simp only [ownSum, hc] at hresults
  refine ⟨h.consecutive, h.block_start, h.count, hresults, hplace.1, ?_⟩
  intro w' hw'
  rw [List.take_add_one, hw] at hw'
  rcases List.mem_append.mp hw' with hmem | hmem
  · exact hplace.2 w' hmem
  · rw [List.mem_singleton.mp hmem, hdone]

theorem Inv.threads_done (h : Inv hardware_threads range init s) {i : Nat} (hc : s.caller = .joining i)
    (hw : s.threads[i]? = none) : ∀ w ∈ s.threads, w.done = true := by
  have hplace := h.atPlace
  simp only [AtPlace, hc] at hplace
  have hdone := hplace.2
  rwa [List.take_of_length_le (List.getElem?_eq_none_iff.mp hw)] at hdone

theorem Inv.joined (h : Inv hardware_threads range init s) {i : Nat} (hc : s.caller = .joining i)
    (hw : s.threads[i]? = none) : s.results.foldl (· + ·) init = range.elems.foldl (· + ·) init := by
  have hplace := h.atPlace
  have hresults := h.results
  simp only [AtPlace, hc] at hplace
  simp only [ownSum, hc, ← hplace.1, Nat.sub_self, List.replicate_zero, List.nil_append] at hresults
  have hdone := h.threads_done hc hw
  have hsums : s.threads.map (partialSum range.elems) =
      (s.threads.map fun w => (w.block_start, w.block_end)).map fun b => sum (slice range.elems b.1 b.2) := by
    rw [List.map_map]
    apply List.map_congr_left
    intro w hmem
    rw [partialSum, hdone w hmem]
    rfl
  have hblocks : s.results = ((blocks range s).map fun b => slice range.elems b.1 b.2).map sum := by
    rw [hresults, hsums, blocks, List.map_append, List.map_append]
    simp only [List.map_map]
    rfl
  rw [hblocks, foldl_sums, flatten_slices _ h.blocks_consecutive, slice_all]

theorem callerStep_cases (h : Inv hardware_threads range init s)
    (he : callerStep hardware_threads range init s = some s') :
    (∃ i, s.caller = .starting i ∧ i < num_threads hardware_threads range.elems.length - 1 ∧
      s' = { s with
        caller := .starting (i + 1)
        block_start := s.block_start + block_size hardware_threads range.elems.length
        threads := s.threads ++
          [⟨s.block_start, s.block_start + block_size hardware_threads range.elems.length, false⟩] }) ∨
    (∃ i, s.caller = .starting i ∧ ¬ i < num_threads hardware_threads range.elems.length - 1 ∧
      s' = { s with caller := .last }) ∨
    (s.caller = .last ∧
      s' = { s with
        caller := .joining 0
        results := s.threads.map (partialSum range.elems) ++
          [sum (slice range.elems s.block_start range.elems.length)] }) ∨
    (∃ i w, s.caller = .joining i ∧ s.threads[i]? = some w ∧ w.done = true ∧
      s' = { s with caller := .joining (i + 1) }) ∨
    ∃ i, s.caller = .joining i ∧ s.threads[i]? = none ∧
      s' = { s with caller := .returned (s.results.foldl (· + ·) init) } := by
  unfold callerStep at he
  cases hc : s.caller with
  | starting i =>
    rw [hc] at he
    dsimp only at he
    split at he
    case isTrue hi => exact .inl ⟨i, rfl, hi, (Option.some.inj he).symm⟩
    case isFalse hi => exact .inr (.inl ⟨i, rfl, hi, (Option.some.inj he).symm⟩)
  | last =>
    rw [hc] at he
    dsimp only at he
    rw [own_block h hc] at he
    exact .inr (.inr (.inl ⟨rfl, (Option.some.inj he).symm⟩))
  | joining i =>
    rw [hc] at he
    dsimp only at he
    cases hw : s.threads[i]? with
    | some w =>
      rw [hw] at he
      obtain ⟨hdone, he⟩ := Option.ite_none_right_eq_some.mp he
      exact .inr (.inr (.inr (.inl ⟨i, w, rfl, hw, hdone, (Option.some.inj he).symm⟩)))
    | none =>
      rw [hw] at he
      exact .inr (.inr (.inr (.inr ⟨i, rfl, hw, (Option.some.inj he).symm⟩)))
  | returned value =>
    rw [hc] at he
    cases he

theorem callerStep_inv (h : Inv hardware_threads range init s)
    (he : callerStep hardware_threads range init s = some s') : Inv hardware_threads range init s' := by
  rcases callerStep_cases h he with
    ⟨i, hc, hi, rfl⟩ | ⟨i, hc, hi, rfl⟩ | ⟨hc, rfl⟩ | ⟨i, w, hc, hw, hdone, rfl⟩ | ⟨i, hc, hw, rfl⟩
  · exact h.starting hc hi
  · exact h.started hc hi
  · exact h.last hc
  · exact h.join hc hw hdone
  · have hresults := h.results
    simp only [ownSum, hc] at hresults
    exact ⟨h.consecutive, h.block_start, h.count, hresults, h.joined hc hw⟩

theorem parallel_accumlate_inv {actor : Actor} (h : Inv hardware_threads range init s)
    (he : parallel_accumlate hardware_threads range init s actor = some s') :
    Inv hardware_threads range init s' := by
  cases actor with
  | caller => exact callerStep_inv h he
  | worker i =>
    obtain ⟨w, hw, -, rfl⟩ := workerStep_cases h he
    exact h.worker hw

def work (hardware_threads : Nat) (range : InputRange T) (s : Accumulation T) : Nat :=
  let started := num_threads hardware_threads range.elems.length - 1
  2 * (started - s.threads.length) + s.threads.countP (!·.done) +
    match s.caller with
    | .starting _ => started + 3
    | .last => started + 2
    | .joining i => started - i + 1
    | .returned _ => 0

theorem callerStep_work (h : Inv hardware_threads range init s)
    (he : callerStep hardware_threads range init s = some s') :
    work hardware_threads range s' + 1 = work hardware_threads range s := by
  have hcount := h.count
  have hplace := h.atPlace
  rcases callerStep_cases h he with
    ⟨i, hc, hi, rfl⟩ | ⟨i, hc, hi, rfl⟩ | ⟨hc, rfl⟩ | ⟨i, w, hc, hw, -, rfl⟩ | ⟨i, hc, hw, rfl⟩
  · simp only [AtPlace, hc] at hplace
    simp only [work, hc, List.countP_append, List.length_append, List.length_singleton, List.countP_singleton,
      Bool.not_false, if_true]
    omega
  · simp only [AtPlace, hc] at hplace
    simp only [work, hc]
    omega
  · simp only [work, hc]
    omega
  · obtain ⟨hi, -⟩ := List.getElem?_eq_some_iff.mp hw
    simp only [AtPlace, hc] at hplace
    simp only [work, hc]
    omega
  · have hlen := List.getElem?_eq_none_iff.mp hw
    have hnone : s.threads.countP (!·.done) = 0 := by
      rw [List.countP_eq_zero]
      intro w hmem
      simp [h.threads_done hc hw w hmem]
    simp only [AtPlace, hc] at hplace
    simp only [work, hc]
    omega

theorem workerStep_work {i : Nat} (h : Inv hardware_threads range init s) (he : workerStep range s i = some s') :
    work hardware_threads range s' + 1 = work hardware_threads range s := by
  obtain ⟨w, hw, hdone, rfl⟩ := workerStep_cases h he
  obtain ⟨hi, hget⟩ := List.getElem?_eq_some_iff.mp hw
  have hpos : 0 < s.threads.countP (!·.done) :=
    List.countP_pos_iff.mpr ⟨w, List.mem_of_getElem? hw, by rw [hdone]; rfl⟩
  have hset : (s.threads.set i { w with done := true }).countP (!·.done) + 1 = s.threads.countP (!·.done) := by
    rw [List.countP_set hi, hget, hdone]
    simp only [Bool.not_false, Bool.not_true, if_true, Bool.false_eq_true, if_false]
    omega
  unfold work
  simp only [List.length_set]
  omega

/-- The caller is never stuck: if it waits, then for a worker that can go on. -/
theorem parallel_accumlate_progress (h : Inv hardware_threads range init s) :
    (∃ value, s.caller = .returned value) ∨
      ∃ actor s', parallel_accumlate hardware_threads range init s actor = some s' := by
  cases hc : s.caller with
  | starting i =>
    right
    by_cases hi : i < num_threads hardware_threads range.elems.length - 1
    · exact ⟨.caller, _, by rw [parallel_accumlate, callerStep, hc]; exact if_pos hi⟩
    · exact ⟨.caller, _, by rw [parallel_accumlate, callerStep, hc]; exact if_neg hi⟩
  | last =>
    right
    refine ⟨.caller, { s with
      caller := .joining 0
      results := s.threads.map (partialSum range.elems) ++
        [sum (slice range.elems s.block_start range.elems.length)] }, ?_⟩
    rw [parallel_accumlate, callerStep, hc]
    dsimp only
    rw [own_block h hc]
    rfl
  | joining i =>
    right
    cases hw : s.threads[i]? with
    | none => exact ⟨.caller, _, by rw [parallel_accumlate, callerStep, hc]; dsimp only; rw [hw]⟩
    | some w =>
      cases hdone : w.done with
      | true => exact ⟨.caller, _, by rw [parallel_accumlate, callerStep, hc]; dsimp only; rw [hw]; exact if_pos hdone⟩
      | false =>
        refine ⟨.worker i, { s with
          threads := s.threads.set i { w with done := true }
          results := s.results.set i (sum (slice range.elems w.block_start w.block_end)) }, ?_⟩
        simp [parallel_accumlate, workerStep, hw, hdone, worker_block h hw hdone]
  | returned value => exact .inl ⟨value, rfl⟩

theorem parallel_accumlate_work {actor : Actor} (h : Inv hardware_threads range init s)
    (he : parallel_accumlate hardware_threads range init s actor = some s') :
    work hardware_threads range s' + 1 = work hardware_threads range s := by
  cases actor with
  | caller => exact callerStep_work h he
  | worker i => exact workerStep_work h he

theorem run_inv {schedule : List Actor} (h : Inv hardware_threads range init s)
    (hrun : Reach.run (parallel_accumlate hardware_threads range init) schedule s = some s') :
    Inv hardware_threads range init s' ∧
      work hardware_threads range s' + schedule.length = work hardware_threads range s :=
  Reach.run_work _ _ (fun _ _ _ hs he => ⟨parallel_accumlate_inv hs he, parallel_accumlate_work hs he⟩) h hrun

end Invariant

section Result

variable (hardware_threads : Nat) (range : InputRange T) (init : T)

/-- In every order of steps the function returns what `std::accumulate` returns, and every
element is in one block. -/
theorem parallel_accumlate_eq_accumulate (schedule : List Actor) (s : Accumulation T)
    (hrun : Reach.run (parallel_accumlate hardware_threads range init) schedule (start hardware_threads range init) =
      some s) :
    (s.caller = .returned (range.elems.foldl (· + ·) init) ∨
      ∃ actor s', parallel_accumlate hardware_threads range init s actor = some s') ∧
    schedule.length ≤ 3 * num_threads hardware_threads range.elems.length ∧
    Consecutive 0 (blocks range s) range.elems.length ∧
    (blocks range s).flatMap (fun b => List.range' b.1 (b.2 - b.1)) = List.range range.elems.length := by
  by_cases hempty : range.elems.length = 0
  · rw [start, if_pos hempty] at hrun
    have hnil : range.elems = [] := List.eq_nil_of_length_eq_zero hempty
    cases schedule with
    | nil =>
      cases hrun
      rw [hnil]
      exact ⟨.inl rfl, Nat.zero_le _, by simp [blocks, Consecutive, hnil], by simp [blocks, hnil]⟩
    | cons actor schedule =>
      obtain ⟨s₁, hstep, -⟩ := Option.bind_eq_some_iff.mp hrun
      cases actor with
      | caller => cases hstep
      | worker i => simp [parallel_accumlate, workerStep] at hstep
  · have hpos := num_threads_pos hardware_threads hempty
    obtain ⟨hinv, hwork⟩ := run_inv (start_inv hempty) hrun
    refine ⟨?_, ?_, hinv.blocks_consecutive, flatten_range hinv.blocks_consecutive⟩
    · rcases parallel_accumlate_progress hinv with ⟨value, hc⟩ | hstep
      · have hplace := hinv.atPlace
        simp only [AtPlace, hc] at hplace
        exact .inl (by rw [hc, hplace])
      · exact .inr hstep
    · rw [start, if_neg hempty] at hwork
      simp only [work, List.length_nil, List.countP_nil] at hwork
      omega

end Result

def ones : InputRange Nat := ⟨List.replicate 26 1, by decide⟩

theorem ones_accumulate :
    ∃ s, Reach.run (parallel_accumlate 0 ones 5) [.caller, .worker 0, .caller, .caller, .caller, .caller]
        (start 0 ones 5) = some s ∧ s.caller = .returned 31 ∧
      Consecutive 0 (blocks ones s) 26 ∧ 
        (blocks ones s).flatMap (fun b => List.range' b.1 (b.2 - b.1)) = List.range 26 := by
  have hrun : Reach.run (parallel_accumlate 0 ones 5) [.caller, .worker 0, .caller, .caller, .caller, .caller]
      (start 0 ones 5) = some ⟨.returned 31, 13, [⟨0, 13, true⟩], [13, 13]⟩ := by decide
  obtain ⟨-, -, hblocks, hcover⟩ := parallel_accumlate_eq_accumulate 0 ones 5 _ _ hrun
  exact ⟨_, hrun, rfl, hblocks, hcover⟩

end Accumulation

end CPractice
