import CPractice.KMeans.Loop

/-! One iteration over points that are all defined: every pixel goes to the first of its
nearest points, and the new points are the means of the clusters. -/

namespace CPractice

namespace KMeans

open Lloyd

theorem zipWith_eq_map {α β γ : Type} {f : α → β → γ} {g : α → γ} {as : List α} {bs : List β}
    (hlen : bs.length = as.length) (h : ∀ a ∈ as, ∀ b, f a b = g a) : List.zipWith f as bs = as.map g := by
  induction as generalizing bs with
  | nil => rfl
  | cons a as ih =>
    cases bs with
    | nil => simp at hlen
    | cons b bs =>
      rw [List.zipWith_cons_cons, List.map_cons, h a List.mem_cons_self,
        ih (Nat.succ.inj hlen) fun a ha => h a (List.mem_cons_of_mem _ ha)]

def nearest (points : List (Tuple (Option ℚ))) (p : Tuple ℚ) : Nat := nearestLoop p points 0 (INT_MAX * INT_MAX) 0

section Labels

variable {sum_points cs : List (Tuple ℚ)} {label : List Nat}

theorem nearestLoop_iff_firstNearest {p : Tuple ℚ} (hp : InRange p) (hcs : ∀ c ∈ cs, InRange c) (hne : cs ≠ [])
    (label i : Nat) :
    nearestLoop p (cs.map Tuple.defined) 0 (INT_MAX * INT_MAX) label = i ↔
      FirstNearest p (cs.map Tuple.defined) i := by
  obtain ⟨c, cs, rfl⟩ := List.exists_cons_of_ne_nil hne
  have hd := distanceTo_defined p (c :: cs) 0
  exact nearestLoop_iff hd (colourDistance_lt hp (hcs c List.mem_cons_self)) label i

theorem firstNearest_nearest {p : Tuple ℚ} (hp : InRange p) (hcs : ∀ c ∈ cs, InRange c) (hne : cs ≠ []) :
    FirstNearest p (cs.map Tuple.defined) (nearest (cs.map Tuple.defined) p) :=
  (nearestLoop_iff_firstNearest hp hcs hne 0 _).mp rfl

theorem relabel_eq (hpixels : ∀ p ∈ sum_points, InRange p) (hcs : ∀ c ∈ cs, InRange c) (hne : cs ≠ [])
    (hlen : label.length = sum_points.length) :
    relabel sum_points (cs.map Tuple.defined) label = sum_points.map (nearest (cs.map Tuple.defined)) := by
  apply zipWith_eq_map hlen
  intro p hp l
  rw [nearestLoop_iff_firstNearest (hpixels p hp) hcs hne]
  exact firstNearest_nearest (hpixels p hp) hcs hne

theorem FirstNearest.lt {p : Tuple ℚ} {i : Nat} (h : FirstNearest p (cs.map Tuple.defined) i) : i < cs.length := by
  obtain ⟨d, hd, -⟩ := h
  rw [distanceTo_defined] at hd
  obtain ⟨c, hc, -⟩ := Option.map_eq_some_iff.mp hd
  exact (List.getElem?_eq_some_iff.mp hc).1

theorem count_ne_zero_iff (hpixels : ∀ p ∈ sum_points, InRange p) (hcs : ∀ c ∈ cs, InRange c) (hne : cs ≠ []) (i : Nat) :
    (sum_points.map (nearest (cs.map Tuple.defined))).count i ≠ 0 ↔
      ∃ p ∈ sum_points, FirstNearest p (cs.map Tuple.defined) i := by
  rw [← Nat.pos_iff_ne_zero, List.count_pos_iff, List.mem_map]
  constructor
  · rintro ⟨p, hp, rfl⟩
    exact ⟨p, hp, firstNearest_nearest (hpixels p hp) hcs hne⟩
  · rintro ⟨p, hp, hi⟩
    exact ⟨p, hp, (firstNearest_nearest (hpixels p hp) hcs hne).unique hi⟩

end Labels

def Cluster.mean (c : Cluster) : Tuple ℚ := ⟨0, 0, c.b / c.k, c.g / c.k, c.r / c.k⟩

def means (sum_points : List (Tuple ℚ)) (label : List Nat) : List (Tuple ℚ) :=
  (clusters K label sum_points).map Cluster.mean

theorem Cluster.centre_eq {c : Cluster} (h : c.k ≠ 0) : c.centre = c.mean.defined := by
  simp [Cluster.centre, Cluster.mean, Tuple.defined, divide, h]

/-- The points of an iteration are defined, and colours of the image or means of them. -/
structure Good (sum_points : List (Tuple ℚ)) (s : Loop) (cs : List (Tuple ℚ)) : Prop where
  current : s.current = cs.map Tuple.defined
  length : cs.length = K
  inRange : ∀ c ∈ cs, InRange c
  label : s.label.length = sum_points.length

section Iteration

variable {sum_points cs : List (Tuple ℚ)} {s : Loop}

theorem Good.ne_nil (h : Good sum_points s cs) : cs ≠ [] := by
  apply List.ne_nil_of_length_pos
  rw [h.length]
  decide

theorem Good.relabel (h : Good sum_points s cs) (hpixels : ∀ p ∈ sum_points, InRange p) :
    relabel sum_points s.current s.label = sum_points.map (nearest (cs.map Tuple.defined)) := by
  rw [h.current, relabel_eq hpixels h.inRange h.ne_nil h.label]

theorem Good.clusters (h : Good sum_points s cs) :
    s.clusters sum_points = KMeans.clusters K (KMeans.relabel sum_points s.current s.label) sum_points := by
  rw [Loop.clusters, h.current, List.length_map, h.length]

theorem Good.relabel_length (h : Good sum_points s cs) :
    (KMeans.relabel sum_points s.current s.label).length = sum_points.length := by
  rw [KMeans.relabel, List.length_zipWith, h.label, Nat.min_self]

theorem Good.relabel_lt (h : Good sum_points s cs) (hpixels : ∀ p ∈ sum_points, InRange p) :
    ∀ l ∈ KMeans.relabel sum_points s.current s.label, l < K := by
  intro l hl
  rw [h.relabel hpixels] at hl
  obtain ⟨p, hp, rfl⟩ := List.mem_map.mp hl
  rw [← h.length]
  exact (firstNearest_nearest (hpixels p hp) h.inRange h.ne_nil).lt

theorem Good.count_iff (h : Good sum_points s cs) :
    (∀ c ∈ s.clusters sum_points, c.k ≠ 0) ↔
      ∀ i < K, (KMeans.relabel sum_points s.current s.label).count i ≠ 0 := by
  rw [h.clusters, clusters_eq h.relabel_length, List.forall_mem_map]
  exact forall_congr' fun i => by rw [List.mem_range]; rfl

/-- No cluster is empty if every point is the first of the nearest points of some pixel, and only then. -/
theorem Good.nonempty_iff (h : Good sum_points s cs) (hpixels : ∀ p ∈ sum_points, InRange p) :
    (∀ c ∈ s.clusters sum_points, c.k ≠ 0) ↔ Attracts sum_points s.current := by
  rw [h.count_iff, h.relabel hpixels, Attracts, h.current, List.length_map, h.length]
  exact forall_congr' fun i => imp_congr_right fun _ => count_ne_zero_iff hpixels h.inRange h.ne_nil i

theorem div_inRange {x : ℚ} {k : Nat} (hk : k ≠ 0) (h : 0 ≤ x ∧ x ≤ k * 255) : 0 ≤ x / k ∧ x / k ≤ 255 := by
  have hpos : (0 : ℚ) < k := Nat.cast_pos.mpr (Nat.pos_of_ne_zero hk)
  refine ⟨div_nonneg h.1 hpos.le, ?_⟩
  rw [div_le_iff₀ hpos, mul_comm]
  exact h.2

theorem means_inRange (hpixels : ∀ p ∈ sum_points, InRange p) {label : List Nat}
    (hlen : label.length = sum_points.length) (hne : ∀ i < K, label.count i ≠ 0) :
    ∀ c ∈ means sum_points label, InRange c := by
  rw [means, clusters_eq hlen, List.map_map, List.forall_mem_map]
  intro i hi
  have hk := hne i (List.mem_range.mp hi)
  have hbound : ∀ f : Tuple ℚ → ℚ, (∀ p ∈ sum_points, 0 ≤ f p ∧ f p ≤ 255) →
      0 ≤ sumAt i label (sum_points.map f) ∧ sumAt i label (sum_points.map f) ≤ label.count i * 255 := by
    intro f hf
    apply sumAt_bounds i (by rw [hlen, List.length_map])
    rw [List.forall_mem_map]
    exact hf
  exact ⟨div_inRange hk (hbound _ fun p hp => (hpixels p hp).b), div_inRange hk (hbound _ fun p hp => (hpixels p hp).g),
    div_inRange hk (hbound _ fun p hp => (hpixels p hp).r)⟩

theorem Good.iterate (h : Good sum_points s cs) (hpixels : ∀ p ∈ sum_points, InRange p)
    (hne : ∀ c ∈ s.clusters sum_points, c.k ≠ 0) :
    Good sum_points (s.iterate sum_points) (means sum_points (s.iterate sum_points).label) := by
  have hlen : (s.iterate sum_points).label.length = sum_points.length := h.relabel_length
  constructor
  case current =>
    show (s.clusters sum_points).map Cluster.centre =
      ((KMeans.clusters K (KMeans.relabel sum_points s.current s.label) sum_points).map Cluster.mean).map Tuple.defined
    rw [← h.clusters, List.map_map]
    exact List.map_congr_left fun c hc => Cluster.centre_eq (hne c hc)
  case length => rw [means, List.length_map, clusters_eq hlen, List.length_map, List.length_range]
  case inRange => exact means_inRange hpixels hlen (h.count_iff.mp hne)
  case label => exact hlen

end Iteration

end KMeans

end CPractice
