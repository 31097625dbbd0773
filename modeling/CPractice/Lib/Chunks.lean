import Mathlib.Data.List.Basic

/-! A list cut into chunks of one length, the last of which may be shorter. -/

namespace Chunks

variable {α : Type}

def chunkLoop (b : Nat) : Nat → List α → List (List α)
  | 0, _ => []
  | fuel + 1, l => if l.isEmpty then [] else l.take b :: chunkLoop b fuel (l.drop b)

def chunks (b : Nat) (l : List α) : List (List α) := chunkLoop b l.length l

theorem chunkLoop_eq {b : Nat} (hb : 0 < b) {fuel fuel' : Nat} {l : List α} (h : l.length ≤ fuel)
    (h' : l.length ≤ fuel') : chunkLoop b fuel l = chunkLoop b fuel' l := by
  induction fuel generalizing fuel' l with
  | zero =>
    obtain rfl := List.eq_nil_of_length_eq_zero (Nat.le_zero.mp h)
    cases fuel' with
    | zero => rfl
    | succ fuel' => rfl
  | succ fuel ih =>
    cases l with
    | nil =>
      cases fuel' with
      | zero => rfl
      | succ fuel' => rfl
    | cons a l =>
      rw [List.length_cons] at h h'
      obtain ⟨fuel', rfl⟩ := Nat.exists_eq_succ_of_ne_zero (Nat.ne_zero_of_lt h')
      have hdrop : ((a :: l).drop b).length ≤ l.length := by
        rw [List.length_drop, List.length_cons]
        omega
      have hrest : chunkLoop b fuel ((a :: l).drop b) = chunkLoop b fuel' ((a :: l).drop b) :=
        ih (by omega) (by omega)
      rw [chunkLoop, chunkLoop, hrest]

@[simp] theorem chunks_nil (b : Nat) : chunks b ([] : List α) = [] := rfl

theorem chunks_eq {b : Nat} (hb : 0 < b) {l : List α} (h : l ≠ []) :
    chunks b l = l.take b :: chunks b (l.drop b) := by
  obtain ⟨a, l, rfl⟩ := List.exists_cons_of_ne_nil h
  have hdrop : ((a :: l).drop b).length ≤ l.length := by
    rw [List.length_drop, List.length_cons]
    omega
  rw [chunks, List.length_cons, chunkLoop, chunks, chunkLoop_eq hb hdrop (Nat.le_refl _)]
  rfl

theorem flatten_chunks {b : Nat} (hb : 0 < b) (l : List α) : (chunks b l).flatten = l := by
  induction h : l.length using Nat.strongRecOn generalizing l with
  | ind n ih =>
    by_cases hnil : l = []
    · rw [hnil, chunks_nil, List.flatten_nil]
    · have hlt : (l.drop b).length < n := by
        have hpos := List.length_pos_iff.mpr hnil
        rw [List.length_drop]
        omega
      rw [chunks_eq hb hnil, List.flatten_cons, ih _ hlt _ rfl, List.take_append_drop]

/-- Where the element `j` of the row `i` is once rows of one width are put after each other. -/
theorem getElem?_flatten_of_width {w : Nat} {rows : List (List α)} (h : ∀ row ∈ rows, row.length = w) (i : Nat)
    {j : Nat} (hj : j < w) : rows.flatten[j + i * w]? = rows[i]?.bind fun row => row[j]? := by
  induction rows generalizing i with
  | nil => rfl
  | cons row rows ih =>
    have hrow := h row List.mem_cons_self
    rw [List.flatten_cons]
    cases i with
    | zero =>
      rw [Nat.zero_mul, Nat.add_zero, List.getElem?_append_left (by omega), List.getElem?_cons_zero,
        Option.bind_some]
    | succ i =>
      have hoff : j + (i + 1) * w - row.length = j + i * w := by
        rw [Nat.succ_mul, hrow]
        omega
      rw [List.getElem?_append_right (by rw [Nat.succ_mul]; omega), hoff, List.getElem?_cons_succ,
        ih fun row hl => h row (List.mem_cons_of_mem _ hl)]

theorem flatten_rows {w n : Nat} {l : List α} (h : l.length = n * w) :
    ((List.range n).map fun i => (l.drop (i * w)).take w).flatten = l := by
  induction n generalizing l with
  | zero =>
    rw [Nat.zero_mul] at h
    rw [List.eq_nil_of_length_eq_zero h]
    rfl
  | succ n ih =>
    have hrest : (l.drop w).length = n * w := by
      rw [List.length_drop, h, Nat.succ_mul]
      omega
    have hstep : ∀ i, l.drop (i.succ * w) = (l.drop w).drop (i * w) := by
      intro i
      rw [List.drop_drop, Nat.succ_mul, Nat.add_comm]
    rw [List.range_succ_eq_map, List.map_cons, List.map_map, List.flatten_cons]
    simp only [Function.comp_def, hstep]
    rw [ih hrest, Nat.zero_mul, List.drop_zero, List.take_append_drop]

end Chunks
