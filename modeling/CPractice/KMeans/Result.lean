import CPractice.KMeans.Seeds
import CPractice.Lib.Chunks

/-! What the k-means program shows once its loop has stopped: the points are the means of
their clusters, no change of the labels or of the points alone makes the clusters tighter,
and each pixel is painted with the mean that is nearest to it. -/

namespace CPractice

namespace KMeans

open CMem Lloyd

/-- The pixel `sum_points[i]` gets the colour of `points[label[i]]`. -/
def recolour (sum_points : List (Tuple ℚ)) (s : Loop) : Except Fault (List (Tuple (Option ℚ))) :=
  (List.range sum_points.length).mapM fun i => do
    let p ← readAt sum_points i
    let l ← readAt s.label i
    let q ← readAt s.points l
    return ⟨p.x, p.y, q.b, q.g, q.r⟩

/-- From `float` to `uchar` the fraction is dropped. A value that does not fit then, or is not a
number, is undefined. -/
def toUchar : Option ℚ → Except Fault UInt8
  | some x => if -1 < x ∧ x < 256 then .ok x.floor.toNat.toUInt8 else .error .outOfBounds
  | none => .error .outOfBounds

def paint (src : Mat) (sum_points : List (Tuple (Option ℚ))) : Except Fault (List (List Vec3b)) :=
  (List.range src.rows).mapM fun i => (List.range src.cols).mapM fun j => do
    let t ← readAt sum_points (j + i * src.cols)
    let b ← toUchar t.b
    let g ← toUchar t.g
    let r ← toUchar t.r
    return ⟨b, g, r⟩

def result (src : Mat) (sum_points : List (Tuple ℚ)) (s : Loop) : Except Fault (List (List Vec3b)) := do
  let sum_points ← recolour sum_points s
  paint src sum_points

def shade (c : Tuple ℚ) : Vec3b := ⟨c.b.floor.toNat.toUInt8, c.g.floor.toNat.toUInt8, c.r.floor.toNat.toUInt8⟩

/-- The picture has the size of the image, and each pixel the colour of its nearest point. -/
def Shows (src : Mat) (points : List (Tuple ℚ)) (rows : List (List Vec3b)) : Prop :=
  rows.length = src.rows ∧ ∀ i < src.rows, ∃ row, rows[i]? = some row ∧ row.length = src.cols ∧
    ∀ j < src.cols, ∃ l c, FirstNearest (Tuple.ofPixel j i (src.pixel i j)) (points.map Tuple.defined) l ∧
      points[l]? = some c ∧ row[j]? = some (shade c)

structure Outcome (src : Mat) (sum_points : List (Tuple ℚ)) (s : Loop) (cs : List (Tuple ℚ)) : Prop where
  points : s.points = cs.map Tuple.defined
  nonempty : ∀ k < K, s.label.count k ≠ 0
  means : cs = means sum_points s.label
  nearest : ∀ (i : Nat) p, sum_points[i]? = some p → ∃ l, s.label[i]? = some l ∧ FirstNearest p s.points l
  labels_best : ∀ label : List Nat, label.length = sum_points.length → (∀ l ∈ label, l < K) →
    cost cs s.label sum_points ≤ cost cs label sum_points
  points_best : ∀ cs', cost cs s.label sum_points ≤ cost cs' s.label sum_points
  shown : ∃ rows, result src sum_points s = .ok rows ∧ Shows src cs rows

section Stopped

theorem sameFloat_iff {u v : Option ℚ} : sameFloat u v = true ↔ u = v ∧ v.isSome := by
  cases u <;> cases v <;> simp [sameFloat]

theorem eq_of_Isequal {a b : List (Tuple (Option ℚ))} (hlen : a.length = b.length) (h : Isequal a b = true) :
    a = b ∧ Defined b := by
  induction a generalizing b with
  | nil =>
    rw [List.eq_nil_of_length_eq_zero hlen.symm]
    exact ⟨rfl, fun t ht => absurd ht List.not_mem_nil⟩
  | cons s a ih =>
    cases b with
    | nil => simp at hlen
    | cons t b =>
      simp only [Isequal, Bool.and_eq_true, decide_eq_true_eq, sameFloat_iff] at h
      obtain ⟨⟨⟨⟨⟨hx, hy⟩, hr, hr'⟩, hg, hg'⟩, hb, hb'⟩, hrest⟩ := h
      obtain ⟨rfl, hdefined⟩ := ih (Nat.succ.inj hlen) hrest
      have hst : s = t := by
        cases s
        cases t
        rw [Tuple.mk.injEq]
        exact ⟨hx, hy, hb, hg, hr⟩
      exact ⟨by rw [hst], List.forall_mem_cons.mpr ⟨⟨hb', hg', hr'⟩, hdefined⟩⟩

variable {sum_points : List (Tuple ℚ)} {s₀ s : Loop}

structure Sizes (sum_points : List (Tuple ℚ)) (s : Loop) : Prop where
  current : s.current.length = K
  label : s.label.length = sum_points.length

theorem current_iterate (sum_points : List (Tuple ℚ)) (s : Loop) :
    (s.iterate sum_points).current = (s.clusters sum_points).map Cluster.centre := if_pos (Nat.succ_ne_zero s.index)

theorem Sizes.iterate (h : Sizes sum_points s) : Sizes sum_points (s.iterate sum_points) := by
  have hlabel : (s.iterate sum_points).label.length = sum_points.length := by
    rw [Loop.iterate, relabel, List.length_zipWith, h.label, Nat.min_self]
  refine ⟨?_, hlabel⟩
  have hclusters : s.clusters sum_points =
    KMeans.clusters s.current.length (s.iterate sum_points).label sum_points := rfl
  rw [current_iterate, hclusters, clusters_eq hlabel, List.length_map, List.length_map, List.length_range,
    h.current]

theorem Sizes.of_reached (h : Sizes sum_points s₀) (hreach : Reached sum_points s₀ s) : Sizes sum_points s := by
  induction hreach with
  | refl => exact h
  | tail _ hlast ih =>
    obtain ⟨_, _, he⟩ := hlast
    obtain ⟨-, he⟩ := Option.ite_none_right_eq_some.mp he
    cases he
    exact ih.iterate

theorem exists_last (hreach : Reached sum_points s₀ s) (hindex : s₀.index = 0) (hstop : ¬ s.Running) :
    ∃ s', Reached sum_points s₀ s' ∧ s = s'.iterate sum_points := by
  cases hreach with
  | refl => exact absurd (.inl hindex) hstop
  | tail hrun hlast =>
    obtain ⟨_, _, he⟩ := hlast
    obtain ⟨-, he⟩ := Option.ite_none_right_eq_some.mp he
    exact ⟨_, hrun, (Option.some.inj he).symm⟩

/-- The points that the last iteration started with are the means it found. So no cluster has got
empty before, although nothing kept the loop from it. -/
theorem Sizes.good (h : Sizes sum_points s) (hpixels : ∀ p ∈ sum_points, InRange p)
    (hstop : ¬ (s.iterate sum_points).Running) :
    (∀ k < K, (s.iterate sum_points).label.count k ≠ 0) ∧
      Good sum_points s (means sum_points (s.iterate sum_points).label) := by
  have hlabel := h.iterate.label
  have hclusters : s.clusters sum_points = KMeans.clusters K (s.iterate sum_points).label sum_points := by
    rw [Loop.clusters, h.current]
    rfl
  have hnew := h.iterate.current
  rw [current_iterate] at hnew
  obtain ⟨hsame, hdefined⟩ : s.current = (s.clusters sum_points).map Cluster.centre ∧
      Defined ((s.clusters sum_points).map Cluster.centre) := by
    refine eq_of_Isequal (h.current.trans hnew.symm) ?_
    rw [← Bool.not_eq_false]
    exact fun h => hstop (.inr h)
  have hpos : ∀ c ∈ s.clusters sum_points, c.k ≠ 0 := by
    intro c hc hzero
    have hsome := (hdefined _ (List.mem_map_of_mem hc)).1
    rw [Cluster.centre, divide, if_pos hzero] at hsome
    cases hsome
  have hcount : ∀ k < K, (s.iterate sum_points).label.count k ≠ 0 := by
    intro k hk
    rw [hclusters, clusters_eq hlabel, List.forall_mem_map] at hpos
    exact hpos k (List.mem_range.mpr hk)
  refine ⟨hcount, ?_⟩
  constructor
  case current =>
    rw [hsame, means, ← hclusters, List.map_map]
    exact List.map_congr_left fun c hc => Cluster.centre_eq (hpos c hc)
  case length => rw [means, List.length_map, clusters_eq hlabel, List.length_map, List.length_range]
  case inRange => exact means_inRange hpixels hlabel hcount
  case label => exact h.label

end Stopped

section Picture

theorem pixels_getElem? (src : Mat) {i j : Nat} (hi : i < src.rows) (hj : j < src.cols) :
    (pixels src)[j + i * src.cols]? = some (Tuple.ofPixel j i (src.pixel i j)) := by
  rw [pixels, Chunks.getElem?_flatten_of_width (by simp) i hj, List.getElem?_map, List.getElem?_range hi,
    Option.map_some, Option.bind_some, List.getElem?_map, List.getElem?_range hj, Option.map_some]

theorem toUchar_ok {x : ℚ} (h : 0 ≤ x ∧ x ≤ 255) : toUchar (some x) = .ok x.floor.toNat.toUInt8 := by
  rw [toUchar, if_pos]
  constructor <;> linarith

def nearestPoint (cs : List (Tuple ℚ)) (p : Tuple ℚ) : Tuple ℚ := cs.getD (nearest (cs.map Tuple.defined) p) origin

def recoloured (cs : List (Tuple ℚ)) (p : Tuple ℚ) : Tuple (Option ℚ) :=
  ⟨p.x, p.y, some (nearestPoint cs p).b, some (nearestPoint cs p).g, some (nearestPoint cs p).r⟩

variable {src : Mat} {sum_points cs : List (Tuple ℚ)} {s : Loop}

theorem recolour_ok (hpixels : ∀ p ∈ sum_points, InRange p) (hcs : ∀ c ∈ cs, InRange c) (hne : cs ≠ [])
    (hpoints : s.points = cs.map Tuple.defined)
    (hlabel : s.label = sum_points.map (nearest (cs.map Tuple.defined))) :
    recolour sum_points s = .ok (sum_points.map (recoloured cs)) := by
  have hread : ∀ i ∈ List.range sum_points.length, (do
      let p ← readAt sum_points i
      let l ← readAt s.label i
      let q ← readAt s.points l
      return (⟨p.x, p.y, q.b, q.g, q.r⟩ : Tuple (Option ℚ))) = .ok (recoloured cs (sum_points.getD i origin)) := by
    intro i hi
    have hp : sum_points[i]? = some (sum_points.getD i origin) := by
      rw [List.getD_eq_getElem _ _ (List.mem_range.mp hi), List.getElem?_eq_getElem]
    generalize sum_points.getD i origin = p at hp
    have hlt := (firstNearest_nearest (hpixels p (List.mem_of_getElem? hp)) hcs hne).lt
    have hl : s.label[i]? = some (nearest (cs.map Tuple.defined) p) := by
      rw [hlabel, List.getElem?_map, hp]
      rfl
    have hq : s.points[nearest (cs.map Tuple.defined) p]? =
        some (cs.getD (nearest (cs.map Tuple.defined) p) origin).defined := by
      rw [hpoints, List.getElem?_map, List.getElem?_eq_getElem hlt, List.getD_eq_getElem _ _ hlt]
      rfl
    rw [readAt_ok hp, ok_bind, readAt_ok hl, ok_bind, readAt_ok hq, ok_bind]
    rfl
  rw [recolour, mapM_ok hread, Except.ok.injEq]
  apply List.ext_getElem
  · rw [List.length_map, List.length_map, List.length_range]
  · intro i _ hi
    rw [List.length_map] at hi
    rw [List.getElem_map, List.getElem_map, List.getElem_range, List.getD_eq_getElem _ _ hi]

theorem paint_ok (hcs : ∀ c ∈ cs, InRange c) (hne : cs ≠ []) :
    paint src ((pixels src).map (recoloured cs)) = .ok ((List.range src.rows).map fun i : Nat =>
      (List.range src.cols).map fun j : Nat => shade (nearestPoint cs (Tuple.ofPixel j i (src.pixel i j)))) := by
  apply mapM_ok
  intro i hi
  apply mapM_ok
  intro j hj
  have hpixel := pixels_getElem? src (List.mem_range.mp hi) (List.mem_range.mp hj)
  have ht : ((pixels src).map (recoloured cs))[j + i * src.cols]? =
      some (recoloured cs (Tuple.ofPixel j i (src.pixel i j))) := by
    rw [List.getElem?_map, hpixel]
    rfl
  have hnearest := firstNearest_nearest (ofPixel_inRange j i (src.pixel i j)) hcs hne
  have hrange : InRange (nearestPoint cs (Tuple.ofPixel j i (src.pixel i j))) := by
    rw [nearestPoint, List.getD_eq_getElem _ _ hnearest.lt]
    exact hcs _ (List.getElem_mem _)
  rw [readAt_ok ht, ok_bind, recoloured, toUchar_ok hrange.b, ok_bind, toUchar_ok hrange.g, ok_bind,
    toUchar_ok hrange.r, ok_bind]
  rfl

theorem shows_nearestPoint (hcs : ∀ c ∈ cs, InRange c) (hne : cs ≠ []) :
    Shows src cs ((List.range src.rows).map fun i : Nat =>
      (List.range src.cols).map fun j : Nat => shade (nearestPoint cs (Tuple.ofPixel j i (src.pixel i j)))) := by
  refine ⟨by rw [List.length_map, List.length_range], ?_⟩
  intro i hi
  refine ⟨(List.range src.cols).map fun j : Nat => shade (nearestPoint cs (Tuple.ofPixel j i (src.pixel i j))),
    ?_, ?_, ?_⟩
  · rw [List.getElem?_map, List.getElem?_range hi, Option.map_some]
  · rw [List.length_map, List.length_range]
  · intro j hj
    have hnearest := firstNearest_nearest (ofPixel_inRange j i (src.pixel i j)) hcs hne
    refine ⟨_, nearestPoint cs (Tuple.ofPixel j i (src.pixel i j)), hnearest, ?_, ?_⟩
    · rw [nearestPoint, List.getD_eq_getElem _ _ hnearest.lt, List.getElem?_eq_getElem]
    · rw [List.getElem?_map, List.getElem?_range hj, Option.map_some]

end Picture

section Outcome

variable {src : Mat} {rand : Nat → Nat} {sum_points : List (Tuple ℚ)} {label : List Nat} {s₀ s : Loop}

theorem cost_means_le (hlen : label.length = sum_points.length) (hlt : ∀ l ∈ label, l < K)
    (hne : ∀ i < K, label.count i ≠ 0) (cs : List (Tuple ℚ)) :
    cost (means sum_points label) label sum_points ≤ cost cs label sum_points := by
  have hmap : ∀ f : Tuple ℚ → ℚ, label.length = (sum_points.map f).length := fun f => by rw [hlen, List.length_map]
  have hb := spread_mean_le hlt (hmap (·.b)) (fun k => (cs.getD k origin).b)
    fun k hk => count_mul_means hlen hne (f := (·.b)) (fun _ => rfl) hk
  have hg := spread_mean_le hlt (hmap (·.g)) (fun k => (cs.getD k origin).g)
    fun k hk => count_mul_means hlen hne (f := (·.g)) (fun _ => rfl) hk
  have hr := spread_mean_le hlt (hmap (·.r)) (fun k => (cs.getD k origin).r)
    fun k hk => count_mul_means hlen hne (f := (·.r)) (fun _ => rfl) hk
  rw [cost, cost]
  linarith

/-- The last iteration changes no point, so that its labels belong to the points it ends with. -/
theorem Sizes.outcome (h : Sizes (pixels src) s) (hstop : ¬ (s.iterate (pixels src)).Running) :
    ∃ cs, Outcome src (pixels src) (s.iterate (pixels src)) cs := by
  obtain ⟨hcount, hgood⟩ := h.good pixels_inRange hstop
  have hbest := cost_means_le h.iterate.label (hgood.relabel_lt pixels_inRange) hcount
  generalize hcs : means (pixels src) (s.iterate (pixels src)).label = cs at hgood hbest
  have hpoints : (s.iterate (pixels src)).points = cs.map Tuple.defined := hgood.current
  have hlabel : (s.iterate (pixels src)).label = (pixels src).map (nearest (cs.map Tuple.defined)) :=
    hgood.relabel pixels_inRange
  refine ⟨cs, hpoints, hcount, hcs.symm, ?_, ?_, hbest, ?_⟩
  · intro i p hp
    refine ⟨nearest (cs.map Tuple.defined) p, ?_, ?_⟩
    · rw [hlabel, List.getElem?_map, hp, Option.map_some]
    · rw [hpoints]
      exact firstNearest_nearest (pixels_inRange p (List.mem_of_getElem? hp)) hgood.inRange hgood.ne_nil
  · intro label hlen hlt
    have hle := cost_nearest_le pixels_inRange hgood.inRange hgood.ne_nil hlen (by rwa [hgood.length])
    rwa [← hlabel] at hle
  · refine ⟨_, ?_, shows_nearestPoint hgood.inRange hgood.ne_nil⟩
    rw [result, recolour_ok pixels_inRange hgood.inRange hgood.ne_nil hpoints hlabel, ok_bind,
      paint_ok hgood.inRange hgood.ne_nil]

/-- If the loop stops, on whatever image and random numbers, then the points are the means of six clusters
none of which is empty, every pixel is in the cluster of its nearest point, neither other labels nor
other points would lower the cost, and the picture is painted without leaving a vector. -/
theorem kmeans_outcome (hstart : start src rand = .ok (sum_points, s₀)) (hreach : Reached sum_points s₀ s)
    (hstop : ¬ s.Running) : ∃ cs, Outcome src sum_points s cs := by
  rw [start_ok (seedsInside_of_start hstart), Except.ok.injEq, Prod.mk.injEq] at hstart
  obtain ⟨rfl, rfl⟩ := hstart
  have hsizes : Sizes (pixels src) (firstLoop src rand) := by
    refine ⟨?_, List.length_replicate⟩
    rw [firstLoop_good.current, List.length_map, firstLoop_good.length]
  obtain ⟨s', hreach', rfl⟩ := exists_last hreach rfl hstop
  exact (hsizes.of_reached hreach').outcome hstop

theorem kmeans_outcome_tiles : ∃ s, Reached (pixels tiles) (firstLoop tiles inOrder) s ∧ ¬ s.Running ∧
    ∃ cs, Outcome tiles (pixels tiles) s cs := by
  have hinside : SeedsInside tiles inOrder := by
    unfold SeedsInside
    decide
  have hrunning : (after (pixels tiles) (firstLoop tiles inOrder) 1).Running := by decide +kernel
  have hstop : ¬ (after (pixels tiles) (firstLoop tiles inOrder) 2).Running := by decide +kernel
  have hreach : Reached (pixels tiles) (firstLoop tiles inOrder)
    (after (pixels tiles) (firstLoop tiles inOrder) 2) :=
    (Relation.ReflTransGen.refl.tail ⟨(), trivial, if_pos (.inl rfl)⟩).tail ⟨(), trivial, if_pos hrunning⟩
  exact ⟨_, hreach, hstop, kmeans_outcome (start_ok hinside) hreach hstop⟩

end Outcome

end KMeans

end CPractice
