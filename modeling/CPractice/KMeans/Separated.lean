import CPractice.KMeans.Seeds

/-! When the clusters of the seeds are far enough from each other, the later iterations do not
change them, and none gets empty. -/

namespace CPractice

namespace KMeans

open Lloyd

section Member

variable {sum_points : List (Tuple ℚ)} {label : Tuple ℚ → Nat} {k : Nat}

theorem exists_member_far (hne : ∀ i < K, (sum_points.map label).count i ≠ 0) (hk : k < K) (x : Tuple ℚ) :
    ∃ q ∈ sum_points, label q = k ∧
      colourDistance x ((means sum_points (sum_points.map label)).getD k origin) ≤ colourDistance x q := by
  have hlen : (sum_points.map label).length = sum_points.length := List.length_map _
  have hb := count_mul_means hlen hne (f := (·.b)) (fun _ => rfl) hk
  have hg := count_mul_means hlen hne (f := (·.g)) (fun _ => rfl) hk
  have hr := count_mul_means hlen hne (f := (·.r)) (fun _ => rfl) hk
  have hcount := hne k hk
  rw [sumAt_map] at hb hg hr
  rw [count_map] at hb hg hr hcount
  generalize (means sum_points (sum_points.map label)).getD k origin = c at hb hg hr ⊢
  let along : Tuple ℚ → ℚ := fun q => (x.b - c.b) * q.b + (x.g - c.g) * q.g + (x.r - c.r) * q.r
  have hsum : ((sum_points.filter fun p => label p = k).map along).sum =
      ((sum_points.filter fun p => label p = k).map fun _ => along c).sum := by
    rw [List.map_const', List.sum_replicate, nsmul_eq_mul]
    simp only [along, List.sum_map_add, List.sum_map_mul_left, ← hb, ← hg, ← hr]
    ring
  have hmembers : sum_points.filter (fun p => label p = k) ≠ [] := by
    intro hnil
    rw [hnil] at hcount
    exact hcount rfl
  obtain ⟨q, hq, hle⟩ := List.exists_le_of_sum_le hmembers _ _ hsum.le
  obtain ⟨hmem, hlabel⟩ := List.mem_filter.mp hq
  refine ⟨q, hmem, by simpa using hlabel, ?_⟩
  have hsplit : colourDistance x q = colourDistance x c + colourDistance c q + 2 * (along c - along q) := by
    simp only [colourDistance, along]
    ring
  have hnonneg := colourDistance_nonneg c q
  linarith

theorem colourDistance_comm (p q : Tuple ℚ) : colourDistance p q = colourDistance q p := by
  simp only [colourDistance]
  ring

theorem colourDistance_le_twice (p q c : Tuple ℚ) :
    colourDistance p q ≤ 2 * colourDistance p c + 2 * colourDistance q c := by
  have hsquares : ∀ u v w : ℚ, (u - v) * (u - v) ≤ 2 * ((u - w) * (u - w)) + 2 * ((v - w) * (v - w)) := by
    intro u v w
    have hsum := mul_self_nonneg (u - w + (v - w))
    linarith
  have hb := hsquares p.b q.b c.b
  have hg := hsquares p.g q.g c.g
  have hr := hsquares p.r q.r c.r
  simp only [colourDistance]
  linarith

end Member

/-- The pixels `p` and `q` have one seed as their nearest, `r` and `r'` another one: they are
far from each other, seen from the sizes of the two clusters. -/
def WellSeparated (src : Mat) (rand : Nat → Nat) : Prop :=
  ∀ p ∈ pixels src, ∀ q ∈ pixels src, ∀ r ∈ pixels src, ∀ r' ∈ pixels src, ∀ i j, i ≠ j →
    FirstNearest p ((seeds src rand).map Tuple.defined) i → FirstNearest q ((seeds src rand).map Tuple.defined) i →
    FirstNearest r ((seeds src rand).map Tuple.defined) j → FirstNearest r' ((seeds src rand).map Tuple.defined) j →
    2 * colourDistance p q + 2 * colourDistance r r' < colourDistance p r

section Stable

variable {src : Mat} {rand : Nat → Nat}

def seedLabel (src : Mat) (rand : Nat → Nat) : Tuple ℚ → Nat := nearest ((seeds src rand).map Tuple.defined)

theorem seeds_length (src : Mat) (rand : Nat → Nat) : (seeds src rand).length = K := by
  rw [seeds, List.length_map, List.length_range]

theorem firstNearest_seedLabel {p : Tuple ℚ} (hp : p ∈ pixels src) :
    FirstNearest p ((seeds src rand).map Tuple.defined) (seedLabel src rand p) :=
  firstNearest_nearest (pixels_inRange p hp) firstLoop_good.inRange firstLoop_good.ne_nil

theorem seedLabel_lt {p : Tuple ℚ} (hp : p ∈ pixels src) : seedLabel src rand p < K := by
  have hlt := (@firstNearest_seedLabel src rand p hp).lt
  rwa [seeds_length] at hlt

theorem seedLabel_count (hinside : SeedsInside src rand) (hdistinct : DistinctSeeds src rand) :
    ∀ i < K, ((pixels src).map (seedLabel src rand)).count i ≠ 0 := by
  have hattracts := (seeds_attract_iff hinside).mpr hdistinct
  intro i hi
  refine (count_ne_zero_iff pixels_inRange firstLoop_good.inRange firstLoop_good.ne_nil i).mpr (hattracts i ?_)
  rwa [List.length_map, seeds_length]

/-- The mean of its own cluster is nearer to a pixel than the means of the others. -/
theorem nearer_own_mean (hne : ∀ i < K, ((pixels src).map (seedLabel src rand)).count i ≠ 0)
    (hseparated : WellSeparated src rand) {p : Tuple ℚ} (hp : p ∈ pixels src) {j : Nat} (hj : j < K)
    (hother : j ≠ seedLabel src rand p) :
    colourDistance p ((means (pixels src) ((pixels src).map (seedLabel src rand))).getD (seedLabel src rand p) origin) <
      colourDistance p ((means (pixels src) ((pixels src).map (seedLabel src rand))).getD j origin) := by
  obtain ⟨q, hq, hqlabel, hqfar⟩ := exists_member_far hne (seedLabel_lt hp) p
  obtain ⟨r, hr, hrlabel, -⟩ := exists_member_far hne hj p
  obtain ⟨r', hr', hrlabel', hrfar⟩ := exists_member_far hne hj r
  have hlt := hseparated p hp q hq r hr r' hr' _ j (Ne.symm hother) (firstNearest_seedLabel hp)
    (hqlabel ▸ firstNearest_seedLabel hq) (hrlabel ▸ firstNearest_seedLabel hr) (hrlabel' ▸ firstNearest_seedLabel hr')
  have htwice := colourDistance_le_twice p r ((means (pixels src) ((pixels src).map (seedLabel src rand))).getD j origin)
  linarith

theorem firstNearest_means (hne : ∀ i < K, ((pixels src).map (seedLabel src rand)).count i ≠ 0)
    (hseparated : WellSeparated src rand) {p : Tuple ℚ} (hp : p ∈ pixels src) :
    FirstNearest p ((means (pixels src) ((pixels src).map (seedLabel src rand))).map Tuple.defined)
      (seedLabel src rand p) := by
  have hown : seedLabel src rand p < K := seedLabel_lt hp
  have hlen : (means (pixels src) ((pixels src).map (seedLabel src rand))).length = K := by
    rw [means, List.length_map, clusters_eq (List.length_map _), List.length_map, List.length_range]
  refine ⟨_, distanceTo_getD p (by omega), fun j d hd => ?_⟩
  have hj : j < K := by
    rw [distanceTo_defined] at hd
    obtain ⟨c, hc, -⟩ := Option.map_eq_some_iff.mp hd
    have hlt := (List.getElem?_eq_some_iff.mp hc).1
    rwa [hlen] at hlt
  rw [distanceTo_getD p (by omega), Option.some.injEq] at hd
  have hnear := nearer_own_mean hne hseparated hp hj
  rw [hd] at hnear
  exact ⟨fun hlt => hnear (Nat.ne_of_lt hlt), fun hgt => (hnear (Nat.ne_of_gt hgt)).le⟩

theorem after_stable (hne : ∀ i < K, ((pixels src).map (seedLabel src rand)).count i ≠ 0)
    (hseparated : WellSeparated src rand) (t : Nat) :
    (after (pixels src) (firstLoop src rand) (t + 1)).label = (pixels src).map (seedLabel src rand) ∧
      Good (pixels src) (after (pixels src) (firstLoop src rand) (t + 1))
        (means (pixels src) ((pixels src).map (seedLabel src rand))) := by
  induction t with
  | zero =>
    have hlabel := (@firstLoop_good src rand).relabel pixels_inRange
    have hgood := (@firstLoop_good src rand).iterate pixels_inRange
      (firstLoop_good.count_iff.mpr (by rw [hlabel]; exact hne))
    exact ⟨hlabel, by rwa [show ((firstLoop src rand).iterate (pixels src)).label = _ from hlabel] at hgood⟩
  | succ t ih =>
    obtain ⟨-, hgood⟩ := ih
    have hlabel := hgood.relabel pixels_inRange
    have hsame : (pixels src).map
        (nearest ((means (pixels src) ((pixels src).map (seedLabel src rand))).map Tuple.defined)) =
        (pixels src).map (seedLabel src rand) := by
      apply List.map_congr_left
      intro p hp
      exact (firstNearest_nearest (pixels_inRange p hp) hgood.inRange hgood.ne_nil).unique
        (firstNearest_means hne hseparated hp)
    rw [hsame] at hlabel
    have hnext := hgood.iterate pixels_inRange (hgood.count_iff.mpr (by rw [hlabel]; exact hne))
    exact ⟨hlabel, by rwa [show ((after (pixels src) (firstLoop src rand) (t + 1)).iterate (pixels src)).label = _
      from hlabel] at hnext⟩

theorem keepPixels_of_wellSeparated (hinside : SeedsInside src rand) (hdistinct : DistinctSeeds src rand)
    (hseparated : WellSeparated src rand) : KeepPixels src rand := by
  have hne := seedLabel_count hinside hdistinct
  intro s hreach hindex _ i hi
  obtain ⟨t, rfl, -⟩ := exists_after hreach
  cases t with
  | zero => exact absurd rfl hindex
  | succ t =>
    obtain ⟨-, hgood⟩ := after_stable hne hseparated t
    have hcurrent := hgood.current
    rw [Loop.current, if_pos hindex] at hcurrent
    rw [hcurrent] at hi ⊢
    rw [List.length_map, hgood.length] at hi
    obtain ⟨p, hp, hlabel⟩ := List.mem_map.mp (List.count_pos_iff.mp (Nat.pos_of_ne_zero (hne i hi)))
    exact ⟨p, hp, hlabel ▸ firstNearest_means hne hseparated hp⟩

/-- The clusters are well separated in an image of no other colours than those of the seeds. -/
theorem wellSeparated_of_seedColours
    (h : ∀ i < src.rows, ∀ j < src.cols, ∃ k < K, src.pixel i j = seedColour src rand k) : WellSeparated src rand := by
  have hzero : ∀ p ∈ pixels src, ∀ i, FirstNearest p ((seeds src rand).map Tuple.defined) i →
      colourDistance p ((seeds src rand).getD i origin) = 0 := by
    intro p hp i hi
    obtain ⟨row, hrow, col, hcol, rfl⟩ := mem_pixels.mp hp
    obtain ⟨k, hk, hcolour⟩ := h row hrow col hcol
    have hle := hi.le (show k < (seeds src rand).length by rwa [seeds_length])
    have hseed := @distanceTo_seeds src rand (Tuple.ofPixel col row (src.pixel row col)) k hk
    rw [distanceTo_getD _ (by rwa [seeds_length]), Option.some.injEq,
      (colourDistance_ofPixel _ _ _ _ _ _).mpr hcolour] at hseed
    rw [hseed] at hle
    exact le_antisymm hle (colourDistance_nonneg _ _)
  intro p hp q hq r hr r' hr' i j hij hpi hqi hrj hrj'
  have hpi' := hzero p hp i hpi
  have hrj₀ := hzero r hr j hrj
  have hpq := colourDistance_le_twice p q ((seeds src rand).getD i origin)
  rw [hpi', hzero q hq i hqi] at hpq
  have hrr := colourDistance_le_twice r r' ((seeds src rand).getD j origin)
  rw [hrj₀, hzero r' hr' j hrj'] at hrr
  have hpos : 0 < colourDistance p r := by
    rcases Nat.lt_or_gt_of_ne hij with hlt | hgt
    · have hri := hrj.lt_of_lt hlt
      have htwice := colourDistance_le_twice r ((seeds src rand).getD i origin) p
      rw [colourDistance_comm ((seeds src rand).getD i origin) p, hpi', colourDistance_comm r p] at htwice
      linarith
    · have hpj := hpi.lt_of_lt hgt
      have htwice := colourDistance_le_twice p ((seeds src rand).getD j origin) r
      rw [colourDistance_comm ((seeds src rand).getD j origin) r, hrj₀] at htwice
      linarith
  linarith

end Stable

/-- The program works on an image and random numbers only if the seeds are inside and their colours
differ, and it does work if, besides, the clusters of the seeds are well separated. -/
theorem kmeans_sound (src : Mat) (rand : Nat → Nat) :
    (Sound src rand → SeedsInside src rand ∧ DistinctSeeds src rand) ∧
      (SeedsInside src rand → DistinctSeeds src rand → WellSeparated src rand → Sound src rand) := by
  refine ⟨fun hsound => ?_, fun hinside hdistinct hseparated => ?_⟩
  · obtain ⟨hinside, hdistinct, -⟩ := (kmeans_sound_iff src rand).mp hsound
    exact ⟨hinside, hdistinct⟩
  · exact (kmeans_sound_iff src rand).mpr
      ⟨hinside, hdistinct, keepPixels_of_wellSeparated hinside hdistinct hseparated⟩

theorem tiles_sound : SeedsInside tiles inOrder ∧ DistinctSeeds tiles inOrder ∧ WellSeparated tiles inOrder ∧
    Sound tiles inOrder := by
  have hinside : SeedsInside tiles inOrder := by
    unfold SeedsInside
    decide
  have hdistinct : ∀ j < K, ∀ i < j, seedColour tiles inOrder i ≠ seedColour tiles inOrder j := by decide
  have hseparated : WellSeparated tiles inOrder := wellSeparated_of_seedColours (by decide)
  exact ⟨hinside, fun i j hij hj => hdistinct j hj i hij, hseparated,
    (kmeans_sound tiles inOrder).2 hinside (fun i j hij hj => hdistinct j hj i hij) hseparated⟩

end KMeans

end CPractice
