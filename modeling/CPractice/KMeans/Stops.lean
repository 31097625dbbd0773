import CPractice.KMeans.Iteration

/-! The loop stops as long as no cluster gets empty: the sum of the squared distances to the
means falls with every iteration, and there are finitely many ways to label the pixels. -/

namespace CPractice

namespace KMeans

open Lloyd

def origin : Tuple ℚ := ⟨0, 0, 0, 0, 0⟩

def cost (cs : List (Tuple ℚ)) (label : List Nat) (sum_points : List (Tuple ℚ)) : ℚ :=
  spread (fun k => (cs.getD k origin).b) label (sum_points.map (·.b)) +
    spread (fun k => (cs.getD k origin).g) label (sum_points.map (·.g)) +
      spread (fun k => (cs.getD k origin).r) label (sum_points.map (·.r))

section Cost

variable {sum_points cs : List (Tuple ℚ)} {label : List Nat}

theorem cost_cons (l : Nat) (p : Tuple ℚ) :
    cost cs (l :: label) (p :: sum_points) = colourDistance p (cs.getD l origin) + cost cs label sum_points := by
  simp only [cost, colourDistance, List.map_cons, spread]
  ring

theorem distanceTo_getD (p : Tuple ℚ) {j : Nat} (hj : j < cs.length) :
    distanceTo p (cs.map Tuple.defined) j = some (colourDistance p (cs.getD j origin)) := by
  rw [distanceTo_defined, List.getElem?_eq_getElem hj, List.getD_eq_getElem _ _ hj]
  rfl

theorem FirstNearest.lt_of_lt {p : Tuple ℚ} {i : Nat} (h : FirstNearest p (cs.map Tuple.defined) i) {l : Nat}
    (hl : l < i) : colourDistance p (cs.getD i origin) < colourDistance p (cs.getD l origin) := by
  have hi := h.lt
  obtain ⟨d, hd, hall⟩ := h
  rw [distanceTo_getD p hi, Option.some.injEq] at hd
  rw [hd]
  exact (hall l _ (distanceTo_getD p (hl.trans hi))).1 hl

theorem FirstNearest.le {p : Tuple ℚ} {i : Nat} (h : FirstNearest p (cs.map Tuple.defined) i) {l : Nat}
    (hl : l < cs.length) : colourDistance p (cs.getD i origin) ≤ colourDistance p (cs.getD l origin) := by
  rcases Nat.lt_trichotomy l i with hlt | rfl | hgt
  · exact (h.lt_of_lt hlt).le
  · exact le_rfl
  · have hi := h.lt
    obtain ⟨d, hd, hall⟩ := h
    rw [distanceTo_getD p hi, Option.some.injEq] at hd
    rw [hd]
    exact (hall l _ (distanceTo_getD p hl)).2 hgt

/-- No other labels have a lower cost than those of the nearest points. -/
theorem cost_nearest_le (hpixels : ∀ p ∈ sum_points, InRange p) (hcs : ∀ c ∈ cs, InRange c) (hne : cs ≠ [])
    (hlen : label.length = sum_points.length) (hlt : ∀ l ∈ label, l < cs.length) :
    cost cs (sum_points.map (nearest (cs.map Tuple.defined))) sum_points ≤ cost cs label sum_points := by
  induction sum_points generalizing label with
  | nil =>
    rw [List.eq_nil_of_length_eq_zero hlen]
    exact le_rfl
  | cons p sum_points ih =>
    cases label with
    | nil => simp at hlen
    | cons l label =>
      have hp := firstNearest_nearest (hpixels p List.mem_cons_self) hcs hne
      have hrest := ih (fun q hq => hpixels q (List.mem_cons_of_mem _ hq)) (Nat.succ.inj hlen)
        fun k hk => hlt k (List.mem_cons_of_mem _ hk)
      rw [List.map_cons, cost_cons, cost_cons]
      exact add_le_add (hp.le (hlt l List.mem_cons_self)) hrest

theorem means_getD (hlen : label.length = sum_points.length) {k : Nat} (hk : k < K) :
    (means sum_points label).getD k origin = (clusterOf label sum_points k).mean := by
  rw [means, clusters_eq hlen, List.map_map, List.getD_eq_getElem?_getD, List.getElem?_map, List.getElem?_range hk]
  rfl

theorem count_mul_means (hlen : label.length = sum_points.length) (hne : ∀ i < K, label.count i ≠ 0)
    {f : Tuple ℚ → ℚ} (hf : ∀ k, f (clusterOf label sum_points k).mean =
      sumAt k label (sum_points.map f) / label.count k) {k : Nat} (hk : k < K) :
    label.count k * f ((means sum_points label).getD k origin) = sumAt k label (sum_points.map f) := by
  rw [means_getD hlen hk, hf, mul_comm, div_mul_cancel₀]
  exact Nat.cast_ne_zero.mpr (hne k hk)

theorem cost_means_lt (hlen : label.length = sum_points.length) (hlt : ∀ l ∈ label, l < K)
    (hne : ∀ i < K, label.count i ≠ 0) {k : Nat} (hk : k < K)
    (hmoved : (cs.getD k origin).b ≠ ((means sum_points label).getD k origin).b ∨
      (cs.getD k origin).g ≠ ((means sum_points label).getD k origin).g ∨
        (cs.getD k origin).r ≠ ((means sum_points label).getD k origin).r) :
    cost (means sum_points label) label sum_points < cost cs label sum_points := by
  have hmap : ∀ f : Tuple ℚ → ℚ, label.length = (sum_points.map f).length := fun f => by rw [hlen, List.length_map]
  have hb := fun k (hk : k < K) => count_mul_means hlen hne (f := (·.b)) (fun _ => rfl) hk
  have hg := fun k (hk : k < K) => count_mul_means hlen hne (f := (·.g)) (fun _ => rfl) hk
  have hr := fun k (hk : k < K) => count_mul_means hlen hne (f := (·.r)) (fun _ => rfl) hk
  have hble := spread_mean_le hlt (hmap (·.b)) (fun k => (cs.getD k origin).b) hb
  have hgle := spread_mean_le hlt (hmap (·.g)) (fun k => (cs.getD k origin).g) hg
  have hrle := spread_mean_le hlt (hmap (·.r)) (fun k => (cs.getD k origin).r) hr
  rw [cost, cost]
  rcases hmoved with hmoved | hmoved | hmoved
  · have hlt' := spread_mean_lt (c := fun k => (cs.getD k origin).b) hlt (hmap (·.b)) hb hne hk hmoved
    linarith
  · have hlt' := spread_mean_lt (c := fun k => (cs.getD k origin).g) hlt (hmap (·.g)) hg hne hk hmoved
    linarith
  · have hlt' := spread_mean_lt (c := fun k => (cs.getD k origin).r) hlt (hmap (·.r)) hr hne hk hmoved
    linarith

theorem exists_moved {label' : List Nat} (hlen : label.length = sum_points.length)
    (hlen' : label'.length = sum_points.length) (hne : means sum_points label ≠ means sum_points label') :
    ∃ k < K, ((means sum_points label).getD k origin).b ≠ ((means sum_points label').getD k origin).b ∨
      ((means sum_points label).getD k origin).g ≠ ((means sum_points label').getD k origin).g ∨
        ((means sum_points label).getD k origin).r ≠ ((means sum_points label').getD k origin).r := by
  by_contra hsame
  push Not at hsame
  apply hne
  rw [means, means, clusters_eq hlen, clusters_eq hlen', List.map_map, List.map_map]
  apply List.map_congr_left
  intro k hk
  obtain ⟨hb, hg, hr⟩ := hsame k (List.mem_range.mp hk)
  rw [means_getD hlen (List.mem_range.mp hk), means_getD hlen' (List.mem_range.mp hk)] at hb hg hr
  show Cluster.mean _ = Cluster.mean _
  rw [Cluster.mean, Cluster.mean, Tuple.mk.injEq]
  exact ⟨rfl, rfl, hb, hg, hr⟩

end Cost

theorem Isequal_self (cs : List (Tuple ℚ)) : Isequal (cs.map Tuple.defined) (cs.map Tuple.defined) = true := by
  induction cs with
  | nil => rfl
  | cons c cs ih => simp [Isequal, Tuple.defined, sameFloat, ih]

section Descent

variable {sum_points : List (Tuple ℚ)} {s : Loop}

theorem means_ne (h : Good sum_points s (means sum_points s.label)) (hpixels : ∀ p ∈ sum_points, InRange p)
    (hne : ∀ c ∈ s.clusters sum_points, c.k ≠ 0) (hrunning : (s.iterate sum_points).Running) :
    means sum_points s.label ≠ means sum_points (s.iterate sum_points).label := by
  intro heq
  rcases hrunning with hindex | hdiffer
  · cases hindex
  · have hpoints : (s.iterate sum_points).points = (means sum_points s.label).map Tuple.defined := h.current
    have hnew : (s.iterate sum_points).new_points =
        (means sum_points (s.iterate sum_points).label).map Tuple.defined := (h.iterate hpixels hne).current
    rw [hpoints, hnew, ← heq, Isequal_self] at hdiffer
    cases hdiffer

/-- Both halves of an iteration lower the cost: first the labels change, then the points. -/
theorem cost_iterate_lt (h : Good sum_points s (means sum_points s.label)) (hpixels : ∀ p ∈ sum_points, InRange p)
    (hlt : ∀ l ∈ s.label, l < K) (hne : ∀ c ∈ s.clusters sum_points, c.k ≠ 0)
    (hrunning : (s.iterate sum_points).Running) :
    cost (means sum_points (s.iterate sum_points).label) (s.iterate sum_points).label sum_points <
      cost (means sum_points s.label) s.label sum_points := by
  have hlen : (s.iterate sum_points).label.length = sum_points.length := h.relabel_length
  obtain ⟨k, hk, hmoved⟩ := exists_moved h.label hlen (means_ne h hpixels hne hrunning)
  have hnearest : (s.iterate sum_points).label = sum_points.map (nearest ((means sum_points s.label).map Tuple.defined)) :=
    h.relabel hpixels
  calc cost (means sum_points (s.iterate sum_points).label) (s.iterate sum_points).label sum_points
      < cost (means sum_points s.label) (s.iterate sum_points).label sum_points :=
        cost_means_lt hlen (h.relabel_lt hpixels) (h.count_iff.mp hne) hk hmoved
    _ ≤ cost (means sum_points s.label) s.label sum_points := by
        rw [hnearest]
        refine cost_nearest_le hpixels h.inRange h.ne_nil h.label ?_
        rw [h.length]
        exact hlt

end Descent

section Run

variable {sum_points cs₀ : List (Tuple ℚ)} {s₀ s : Loop}

abbrev Reached (sum_points : List (Tuple ℚ)) (s₀ : Loop) : Loop → Prop :=
  Reach.Runs (step sum_points) (fun _ _ => True) s₀

theorem good_of_reached (hpixels : ∀ p ∈ sum_points, InRange p) (hgood : Good sum_points s₀ cs₀)
    (hne : ∀ s cs, Reached sum_points s₀ s → Good sum_points s cs → s.Running →
      ∀ c ∈ s.clusters sum_points, c.k ≠ 0) (h : Reached sum_points s₀ s) : ∃ cs, Good sum_points s cs := by
  induction h with
  | refl => exact ⟨cs₀, hgood⟩
  | tail hrun hlast ih =>
    obtain ⟨cs, hcs⟩ := ih
    obtain ⟨_, _, he⟩ := hlast
    obtain ⟨hrunning, he⟩ := Option.ite_none_right_eq_some.mp he
    cases he
    exact ⟨_, hcs.iterate hpixels (hne _ cs hrun hcs hrunning)⟩

def after (sum_points : List (Tuple ℚ)) (s₀ : Loop) : Nat → Loop
  | 0 => s₀
  | t + 1 => (after sum_points s₀ t).iterate sum_points

theorem exists_after (h : Reached sum_points s₀ s) :
    ∃ t, s = after sum_points s₀ t ∧ ∀ t' < t, (after sum_points s₀ t').Running := by
  induction h with
  | refl => exact ⟨0, rfl, fun t' ht' => absurd ht' (Nat.not_lt_zero t')⟩
  | tail _ hlast ih =>
    obtain ⟨t, rfl, hall⟩ := ih
    obtain ⟨_, _, he⟩ := hlast
    obtain ⟨hrunning, he⟩ := Option.ite_none_right_eq_some.mp he
    cases he
    refine ⟨t + 1, rfl, ?_⟩
    intro t' ht'
    rcases Nat.lt_succ_iff_lt_or_eq.mp ht' with hlt | rfl
    · exact hall t' hlt
    · exact hrunning

/-- The loop ends if no iteration finds an empty cluster. -/
theorem stops (hpixels : ∀ p ∈ sum_points, InRange p) (hgood : Good sum_points s₀ cs₀)
    (hne : ∀ s, Reached sum_points s₀ s → s.Running → ∀ c ∈ s.clusters sum_points, c.k ≠ 0) :
    ∃ s, Reached sum_points s₀ s ∧ ¬ s.Running := by
  by_contra hforever
  push Not at hforever
  have hreach : ∀ t, Reached sum_points s₀ (after sum_points s₀ t) := by
    intro t
    induction t with
    | zero => exact .refl
    | succ t ih => exact ih.tail ⟨(), trivial, if_pos (hforever _ ih)⟩
  have hclusters : ∀ t, ∀ c ∈ (after sum_points s₀ t).clusters sum_points, c.k ≠ 0 :=
    fun t => hne _ (hreach t) (hforever _ (hreach t))
  have hmeans : ∀ t, Good sum_points (after sum_points s₀ (t + 1)) (means sum_points (after sum_points s₀ (t + 1)).label) ∧
      ∀ l ∈ (after sum_points s₀ (t + 1)).label, l < K := by
    intro t
    obtain ⟨cs, hcs⟩ := good_of_reached hpixels hgood (fun s _ hs _ => hne s hs) (hreach t)
    exact ⟨hcs.iterate hpixels (hclusters t), hcs.relabel_lt hpixels⟩
  apply no_descent (fun t => (after sum_points s₀ (t + 1)).label)
    (fun label => cost (means sum_points label) label sum_points) (fun t => (hmeans t).1.label) fun t => (hmeans t).2
  intro t
  obtain ⟨hgood, hlt⟩ := hmeans t
  exact cost_iterate_lt hgood hpixels hlt (hclusters (t + 1)) (hforever _ (hreach (t + 2)))

end Run

end KMeans

end CPractice
