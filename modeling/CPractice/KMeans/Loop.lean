import CPractice.Lib.Block
import CPractice.Lib.Lloyd
import CPractice.Lib.Reach
import Mathlib.Algebra.Order.Field.Rat
import Mathlib.Data.List.GetD

/-! The k-means program: the pixels of an image, six random seeds, and the loop that moves
them. The colours are exact, and `none` is a value that is not a number. -/

namespace CPractice

namespace KMeans

open CMem

structure Vec3b where
  b : UInt8
  g : UInt8
  r : UInt8
  deriving DecidableEq, Repr

structure Mat where
  rows : Nat
  cols : Nat
  pixel : Nat → Nat → Vec3b
  rows_pos : 0 < rows
  cols_pos : 0 < cols

def Mat.read (src : Mat) (i j : Nat) : Except Fault Vec3b :=
  if i < src.rows ∧ j < src.cols then .ok (src.pixel i j) else .error .outOfBounds

structure Tuple (F : Type) where
  x : Int
  y : Int
  b : F
  g : F
  r : F
  deriving DecidableEq, Repr

def Tuple.ofPixel (x y : Int) (rgb : Vec3b) : Tuple ℚ := ⟨x, y, rgb.b.toNat, rgb.g.toNat, rgb.r.toNat⟩

def Tuple.defined (t : Tuple ℚ) : Tuple (Option ℚ) := ⟨t.x, t.y, some t.b, some t.g, some t.r⟩

/-- Not a number is not equal to itself. -/
def sameFloat : Option ℚ → Option ℚ → Bool
  | some a, some b => a = b
  | _, _ => false

def Isequal : List (Tuple (Option ℚ)) → List (Tuple (Option ℚ)) → Bool
  | [], _ => true
  | _, [] => true
  | s :: a, t :: b =>
    s.x = t.x && s.y = t.y && sameFloat s.r t.r && sameFloat s.g t.g && sameFloat s.b t.b && Isequal a b

def K : Nat := 6

def readPoints (src : Mat) : Except Fault (List (Tuple ℚ)) := do
  let lines ← (List.range src.rows).mapM fun i => (List.range src.cols).mapM fun j => do
    let rgb ← src.read i j
    return Tuple.ofPixel j i rgb
  return lines.flatten

/-- The two results of `rand()` give a column and a row, and are used as a row and a column. -/
def randomPoint (src : Mat) (rand rand' : Nat) : Except Fault (Tuple (Option ℚ)) := do
  let w := rand % src.cols
  let h := rand' % src.rows
  let rgb ← src.read w h
  return (Tuple.ofPixel w h rgb).defined

def randomPoints (src : Mat) (rand : Nat → Nat) : Except Fault (List (Tuple (Option ℚ))) :=
  (List.range K).mapM fun k => randomPoint src (rand (2 * k)) (rand (2 * k + 1))

def distance (p : Tuple ℚ) (q : Tuple (Option ℚ)) : Option ℚ := do
  let b ← q.b
  let g ← q.g
  let r ← q.r
  return (p.b - b) * (p.b - b) + (p.g - g) * (p.g - g) + (p.r - r) * (p.r - r)

def INT_MAX : ℚ := 2147483647

/-- The distances are compared by their squares. -/
def nearestLoop (p : Tuple ℚ) : List (Tuple (Option ℚ)) → Nat → ℚ → Nat → Nat
  | [], _, _, label => label
  | q :: points, i, min_distance, label =>
    match distance p q with
    | some d =>
      if d < min_distance then nearestLoop p points (i + 1) d i else nearestLoop p points (i + 1) min_distance label
    | none => nearestLoop p points (i + 1) min_distance label

def relabel (sum_points : List (Tuple ℚ)) (points : List (Tuple (Option ℚ))) (label : List Nat) : List Nat :=
  List.zipWith (fun p l => nearestLoop p points 0 (INT_MAX * INT_MAX) l) sum_points label

structure Cluster where
  k : Nat
  b : ℚ
  g : ℚ
  r : ℚ
  deriving DecidableEq, Repr

def Cluster.add (c : Cluster) (p : Tuple ℚ) : Cluster := ⟨c.k + 1, c.b + p.b, c.g + p.g, c.r + p.r⟩

def clusters (n : Nat) (label : List Nat) (sum_points : List (Tuple ℚ)) : List Cluster :=
  (label.zip sum_points).foldl (fun cs q => cs.modify q.1 fun c => c.add q.2) (List.replicate n ⟨0, 0, 0, 0⟩)

def divide (x : ℚ) (k : Nat) : Option ℚ := if k = 0 then none else some (x / k)

def Cluster.centre (c : Cluster) : Tuple (Option ℚ) := ⟨0, 0, divide c.b c.k, divide c.g c.k, divide c.r c.k⟩

structure Loop where
  points : List (Tuple (Option ℚ))
  new_points : List (Tuple (Option ℚ))
  label : List Nat
  index : Nat

def Loop.current (s : Loop) : List (Tuple (Option ℚ)) := if s.index ≠ 0 then s.new_points else s.points

def Loop.clusters (sum_points : List (Tuple ℚ)) (s : Loop) : List Cluster :=
  KMeans.clusters s.current.length (relabel sum_points s.current s.label) sum_points

def Loop.iterate (sum_points : List (Tuple ℚ)) (s : Loop) : Loop :=
  { points := s.current
    new_points := (s.clusters sum_points).map Cluster.centre
    label := relabel sum_points s.current s.label
    index := s.index + 1 }

def Loop.Running (s : Loop) : Prop := s.index = 0 ∨ Isequal s.points s.new_points = false

instance Loop.Running.decidable (s : Loop) : Decidable s.Running := inferInstanceAs (Decidable (_ ∨ _))

def step (sum_points : List (Tuple ℚ)) (s : Loop) (_ : Unit) : Option Loop :=
  if s.Running then some (s.iterate sum_points) else none

def start (src : Mat) (rand : Nat → Nat) : Except Fault (List (Tuple ℚ) × Loop) := do
  let sum_points ← readPoints src
  let points ← randomPoints src rand
  return (sum_points, {
    points
    new_points := List.replicate points.length ⟨0, 0, some 0, some 0, some 0⟩
    label := List.replicate sum_points.length 0
    index := 0 })

def distanceTo (p : Tuple ℚ) (points : List (Tuple (Option ℚ))) (i : Nat) : Option ℚ := points[i]?.bind (distance p)

/-- The centroid `i` is the nearest one to the pixel; of two that are equally near the first counts. -/
def FirstNearest (p : Tuple ℚ) (points : List (Tuple (Option ℚ))) (i : Nat) : Prop :=
  ∃ d, distanceTo p points i = some d ∧
    ∀ j d', distanceTo p points j = some d' → (j < i → d < d') ∧ (i < j → d ≤ d')

def Attracts (sum_points : List (Tuple ℚ)) (points : List (Tuple (Option ℚ))) : Prop :=
  ∀ i < points.length, ∃ p ∈ sum_points, FirstNearest p points i

section Nearest

variable {p : Tuple ℚ} {points : List (Tuple (Option ℚ))}

theorem FirstNearest.unique {i i' : Nat} (h : FirstNearest p points i) (h' : FirstNearest p points i') : i = i' := by
  obtain ⟨d, hd, hall⟩ := h
  obtain ⟨d', hd', hall'⟩ := h'
  rcases Nat.lt_trichotomy i i' with hlt | heq | hgt
  · exact absurd ((hall i' d' hd').2 hlt) (not_le_of_gt ((hall' i d hd).1 hlt))
  · exact heq
  · exact absurd ((hall' i d hd).2 hgt) (not_le_of_gt ((hall i' d' hd').1 hgt))

def NearestUnder (p : Tuple ℚ) (points : List (Tuple (Option ℚ))) (min_distance : ℚ) (i : Nat) : Prop :=
  ∃ d, distanceTo p points i = some d ∧ d < min_distance ∧
    ∀ j d', distanceTo p points j = some d' → (j < i → d < d') ∧ (i < j → d ≤ d')

theorem NearestUnder.later {q : Tuple (Option ℚ)} {m m' : ℚ} {i : Nat} (h : NearestUnder p points m i)
    (hq : ∀ d, distance p q = some d → m ≤ d) (hm : m ≤ m') : NearestUnder p (q :: points) m' (i + 1) := by
  obtain ⟨d, hd, hlt, hall⟩ := h
  refine ⟨d, hd, lt_of_lt_of_le hlt hm, ?_⟩
  intro j d' hd'
  cases j with
  | zero => exact ⟨fun _ => lt_of_lt_of_le hlt (hq d' hd'), fun h => absurd h (by omega)⟩
  | succ j =>
    obtain ⟨hbefore, hafter⟩ := hall j d' hd'
    exact ⟨fun h => hbefore (by omega), fun h => hafter (by omega)⟩

theorem NearestUnder.first {q : Tuple (Option ℚ)} {m d : ℚ} (hq : distance p q = some d) (hm : d < m)
    (hrest : ∀ j d', distanceTo p points j = some d' → d ≤ d') : NearestUnder p (q :: points) m 0 := by
  refine ⟨d, hq, hm, ?_⟩
  intro j d' hd'
  cases j with
  | zero => exact ⟨fun h => absurd h (by omega), fun h => absurd h (by omega)⟩
  | succ j => exact ⟨fun h => absurd h (by omega), fun _ => hrest j d' hd'⟩

theorem le_distanceTo_cons {q : Tuple (Option ℚ)} {m : ℚ} (hq : ∀ d, distance p q = some d → m ≤ d)
    (hrest : ∀ j d, distanceTo p points j = some d → m ≤ d) :
    ∀ j d, distanceTo p (q :: points) j = some d → m ≤ d := by
  intro j d hd
  cases j with
  | zero => exact hq d hd
  | succ j => exact hrest j d hd

theorem nearestLoop_cases (points : List (Tuple (Option ℚ))) (i : Nat) (m : ℚ) (label : Nat) :
    (nearestLoop p points i m label = label ∧ ∀ j d, distanceTo p points j = some d → m ≤ d) ∨
    ∃ n, nearestLoop p points i m label = i + n ∧ NearestUnder p points m n := by
  induction points generalizing i m label with
  | nil =>
    left
    refine ⟨rfl, ?_⟩
    intro j d hd
    cases hd
  | cons q points ih =>
    rw [nearestLoop]
    cases hq : distance p q with
    | none =>
      have hnone : ∀ d, distance p q = some d → m ≤ d := by
        intro d hd
        rw [hq] at hd
        cases hd
      dsimp only
      rcases ih (i + 1) m label with ⟨hkept, hle⟩ | ⟨n, hfound, hn⟩
      · exact .inl ⟨hkept, le_distanceTo_cons hnone hle⟩
      · exact .inr ⟨n + 1, by rw [hfound]; omega, hn.later hnone le_rfl⟩
    | some d =>
      dsimp only
      split
      case isTrue hd =>
        right
        rcases ih (i + 1) d i with ⟨hkept, hle⟩ | ⟨n, hfound, hn⟩
        · exact ⟨0, hkept, .first hq hd hle⟩
        · refine ⟨n + 1, by rw [hfound]; omega, hn.later ?_ hd.le⟩
          intro d' hd'
          exact (Option.some.inj (hq.symm.trans hd')).le
      case isFalse hd =>
        have hfar : ∀ d', distance p q = some d' → m ≤ d' := by
          intro d' hd'
          rw [← Option.some.inj (hq.symm.trans hd')]
          exact not_lt.mp hd
        rcases ih (i + 1) m label with ⟨hkept, hle⟩ | ⟨n, hfound, hn⟩
        · exact .inl ⟨hkept, le_distanceTo_cons hfar hle⟩
        · exact .inr ⟨n + 1, by rw [hfound]; omega, hn.later hfar le_rfl⟩

theorem nearestLoop_iff {m d : ℚ} {j : Nat} (hd : distanceTo p points j = some d) (hm : d < m) (label i : Nat) :
    nearestLoop p points 0 m label = i ↔ FirstNearest p points i := by
  rcases nearestLoop_cases points 0 m label with ⟨-, hle⟩ | ⟨n, hfound, d', hd', -, hall⟩
  · exact absurd (hle j d hd) (not_le_of_gt hm)
  · rw [Nat.zero_add] at hfound
    have hnearest : FirstNearest p points n := ⟨d', hd', hall⟩
    rw [hfound]
    exact ⟨fun h => h ▸ hnearest, hnearest.unique⟩

end Nearest

section Clusters

open Lloyd

theorem foldl_add_getElem? {label : List Nat} {sum_points : List (Tuple ℚ)} (hlen : label.length = sum_points.length)
    (cs : List Cluster) (i : Nat) :
    ((label.zip sum_points).foldl (fun cs q => cs.modify q.1 fun c => c.add q.2) cs)[i]? =
      cs[i]?.map fun c => ⟨c.k + label.count i, c.b + sumAt i label (sum_points.map (·.b)),
        c.g + sumAt i label (sum_points.map (·.g)), c.r + sumAt i label (sum_points.map (·.r))⟩ := by
  induction label generalizing sum_points cs with
  | nil => simp [sumAt]
  | cons l label ih =>
    cases sum_points with
    | nil => simp at hlen
    | cons p sum_points =>
      rw [List.zip_cons_cons, List.foldl_cons, ih (Nat.succ.inj hlen), List.getElem?_modify]
      cases cs[i]? with
      | none => rfl
      | some c =>
        by_cases h : l = i
        · simp [h, sumAt, Cluster.add, add_assoc, Nat.add_comm 1]
        · simp [h, sumAt]

def clusterOf (label : List Nat) (sum_points : List (Tuple ℚ)) (i : Nat) : Cluster :=
  ⟨label.count i, sumAt i label (sum_points.map (·.b)), sumAt i label (sum_points.map (·.g)),
    sumAt i label (sum_points.map (·.r))⟩

theorem clusters_eq {label : List Nat} {sum_points : List (Tuple ℚ)} (hlen : label.length = sum_points.length)
    (n : Nat) : clusters n label sum_points = (List.range n).map (clusterOf label sum_points) := by
  apply List.ext_getElem?
  intro i
  rw [clusters, foldl_add_getElem? hlen, List.getElem?_replicate, List.getElem?_map]
  by_cases hi : i < n
  · rw [if_pos hi, List.getElem?_range hi]
    simp [clusterOf]
  · rw [if_neg hi, List.getElem?_eq_none (by simpa using hi)]
    rfl

/-- A colour of an image, or a mean of such colours. -/
structure InRange (t : Tuple ℚ) : Prop where
  b : 0 ≤ t.b ∧ t.b ≤ 255
  g : 0 ≤ t.g ∧ t.g ≤ 255
  r : 0 ≤ t.r ∧ t.r ≤ 255

def colourDistance (p c : Tuple ℚ) : ℚ :=
  (p.b - c.b) * (p.b - c.b) + (p.g - c.g) * (p.g - c.g) + (p.r - c.r) * (p.r - c.r)

theorem distanceTo_defined (p : Tuple ℚ) (cs : List (Tuple ℚ)) (i : Nat) :
    distanceTo p (cs.map Tuple.defined) i = cs[i]?.map (colourDistance p) := by
  rw [distanceTo, List.getElem?_map]
  cases cs[i]? with
  | none => rfl
  | some c => rfl

theorem sq_le {x y : ℚ} (hx : 0 ≤ x ∧ x ≤ 255) (hy : 0 ≤ y ∧ y ≤ 255) : (x - y) * (x - y) ≤ 65025 := by
  nlinarith

/-- Two colours are nearer than `INT_MAX`, so that every pixel gets a label. -/
theorem colourDistance_lt {p c : Tuple ℚ} (hp : InRange p) (hc : InRange c) :
    colourDistance p c < INT_MAX * INT_MAX := by
  have hb := sq_le hp.b hc.b
  have hg := sq_le hp.g hc.g
  have hr := sq_le hp.r hc.r
  rw [colourDistance, INT_MAX]
  linarith

end Clusters

end KMeans

end CPractice
