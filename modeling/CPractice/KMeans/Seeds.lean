import CPractice.KMeans.Stops

/-! The seeds of the k-means program, and when its loop works: the seeds have to lie in the
image with its rows and columns exchanged, their colours have to differ, and later on each
centroid has to keep a pixel. -/

namespace CPractice

namespace KMeans

open CMem

section MapM

variable {α β : Type} {f : α → Except Fault β} {l : List α}

theorem mapM_ok {g : α → β} (h : ∀ a ∈ l, f a = .ok (g a)) : l.mapM f = .ok (l.map g) := by
  induction l with
  | nil => rfl
  | cons a l ih =>
    rw [List.mapM_cons, h a List.mem_cons_self, ok_bind, ih fun b hb => h b (List.mem_cons_of_mem _ hb), ok_bind]
    rfl

theorem of_mapM_ok {bs : List β} (h : l.mapM f = .ok bs) : ∀ a ∈ l, ∃ b, f a = .ok b := by
  induction l generalizing bs with
  | nil => exact fun a ha => absurd ha List.not_mem_nil
  | cons a l ih =>
    rw [List.mapM_cons] at h
    obtain ⟨b, hb, h⟩ := bind_eq_ok.mp h
    obtain ⟨bs, hbs, -⟩ := bind_eq_ok.mp h
    intro a' ha'
    rcases List.mem_cons.mp ha' with rfl | ha'
    · exact ⟨b, hb⟩
    · exact ih hbs a' ha'

end MapM

variable (src : Mat) (rand : Nat → Nat)

def SeedsInside : Prop := ∀ k < K, rand (2 * k) % src.cols < src.rows ∧ rand (2 * k + 1) % src.rows < src.cols

def seedColour (k : Nat) : Vec3b := src.pixel (rand (2 * k) % src.cols) (rand (2 * k + 1) % src.rows)

def DistinctSeeds : Prop := ∀ i j, i < j → j < K → seedColour src rand i ≠ seedColour src rand j

def pixels : List (Tuple ℚ) :=
  ((List.range src.rows).map fun i : Nat => (List.range src.cols).map fun j : Nat =>
    Tuple.ofPixel j i (src.pixel i j)).flatten

def seeds : List (Tuple ℚ) :=
  (List.range K).map fun k => Tuple.ofPixel (rand (2 * k) % src.cols : Nat) (rand (2 * k + 1) % src.rows : Nat)
    (seedColour src rand k)

def firstLoop : Loop :=
  { points := (seeds src rand).map Tuple.defined
    new_points := List.replicate K ⟨0, 0, some 0, some 0, some 0⟩
    label := List.replicate (pixels src).length 0
    index := 0 }

theorem readPoints_ok : readPoints src = .ok (pixels src) := by
  have hread : ∀ i ∈ List.range src.rows, ((List.range src.cols).mapM fun j => do
      let rgb ← src.read i j
      return Tuple.ofPixel j i rgb) = .ok ((List.range src.cols).map fun j : Nat =>
        Tuple.ofPixel j i (src.pixel i j)) := by
    intro i hi
    apply mapM_ok
    intro j hj
    rw [Mat.read, if_pos ⟨List.mem_range.mp hi, List.mem_range.mp hj⟩]
    rfl
  rw [readPoints, mapM_ok hread, ok_bind]
  rfl

theorem randomPoint_eq {i j : Nat} (h : i % src.cols < src.rows ∧ j % src.rows < src.cols) :
    randomPoint src i j = .ok (Tuple.ofPixel (i % src.cols : Nat) (j % src.rows : Nat)
      (src.pixel (i % src.cols) (j % src.rows))).defined := by
  rw [randomPoint, Mat.read, if_pos h]
  rfl

variable {src rand}

theorem randomPoints_ok (h : SeedsInside src rand) :
    randomPoints src rand = .ok ((seeds src rand).map Tuple.defined) := by
  rw [randomPoints, mapM_ok fun k hk => randomPoint_eq src (h k (List.mem_range.mp hk)), seeds, List.map_map]
  rfl

theorem seedsInside_of_ok {points : List (Tuple (Option ℚ))} (h : randomPoints src rand = .ok points) :
    SeedsInside src rand := by
  intro k hk
  obtain ⟨t, ht⟩ := of_mapM_ok h k (List.mem_range.mpr hk)
  by_contra hout
  rw [randomPoint, Mat.read, if_neg hout] at ht
  cases ht

theorem start_ok (h : SeedsInside src rand) : start src rand = .ok (pixels src, firstLoop src rand) := by
  rw [start, readPoints_ok, ok_bind, randomPoints_ok h, ok_bind]
  rfl

theorem seedsInside_of_start {sum_points : List (Tuple ℚ)} {s₀ : Loop} (h : start src rand = .ok (sum_points, s₀)) :
    SeedsInside src rand := by
  rw [start, readPoints_ok, ok_bind] at h
  obtain ⟨points, hpoints, -⟩ := bind_eq_ok.mp h
  exact seedsInside_of_ok hpoints

theorem ofPixel_inRange (x y : Int) (rgb : Vec3b) : InRange (Tuple.ofPixel x y rgb) := by
  have hbyte : ∀ c : UInt8, (0 : ℚ) ≤ c.toNat ∧ (c.toNat : ℚ) ≤ 255 := by
    intro c
    have hle : c.toNat ≤ 255 := Nat.le_of_lt_succ c.toNat_lt
    exact ⟨Nat.cast_nonneg _, by exact_mod_cast hle⟩
  exact ⟨hbyte _, hbyte _, hbyte _⟩

theorem mem_pixels {p : Tuple ℚ} :
    p ∈ pixels src ↔ ∃ i < src.rows, ∃ j < src.cols, p = Tuple.ofPixel j i (src.pixel i j) := by
  simp only [pixels, List.mem_flatten, List.mem_map, List.mem_range]
  constructor
  · rintro ⟨_, ⟨i, hi, rfl⟩, hp⟩
    obtain ⟨j, hj, rfl⟩ := List.mem_map.mp hp
    exact ⟨i, hi, j, List.mem_range.mp hj, rfl⟩
  · rintro ⟨i, hi, j, hj, rfl⟩
    exact ⟨_, ⟨i, hi, rfl⟩, List.mem_map.mpr ⟨j, List.mem_range.mpr hj, rfl⟩⟩

theorem pixels_inRange : ∀ p ∈ pixels src, InRange p := by
  intro p hp
  obtain ⟨i, -, j, -, rfl⟩ := mem_pixels.mp hp
  exact ofPixel_inRange _ _ _

theorem firstLoop_good : Good (pixels src) (firstLoop src rand) (seeds src rand) := by
  refine ⟨rfl, ?_, ?_, ?_⟩
  · rw [seeds, List.length_map, List.length_range]
  · rw [seeds, List.forall_mem_map]
    exact fun k _ => ofPixel_inRange _ _ _
  · exact List.length_replicate

theorem colourDistance_nonneg (p c : Tuple ℚ) : 0 ≤ colourDistance p c := by
  rw [colourDistance]
  have hb := mul_self_nonneg (p.b - c.b)
  have hg := mul_self_nonneg (p.g - c.g)
  have hr := mul_self_nonneg (p.r - c.r)
  linarith

theorem colourDistance_ofPixel (x y x' y' : Int) (rgb rgb' : Vec3b) :
    colourDistance (Tuple.ofPixel x y rgb) (Tuple.ofPixel x' y' rgb') = 0 ↔ rgb = rgb' := by
  have hbyte : ∀ c c' : UInt8, (c.toNat : ℚ) - c'.toNat = 0 ↔ c = c' := by
    intro c c'
    rw [sub_eq_zero, Nat.cast_inj, UInt8.toNat_inj]
  have hb := mul_self_nonneg ((rgb.b.toNat : ℚ) - rgb'.b.toNat)
  have hg := mul_self_nonneg ((rgb.g.toNat : ℚ) - rgb'.g.toNat)
  have hr := mul_self_nonneg ((rgb.r.toNat : ℚ) - rgb'.r.toNat)
  have hsplit : rgb = rgb' ↔ (rgb.b = rgb'.b ∧ rgb.g = rgb'.g) ∧ rgb.r = rgb'.r := by
    cases rgb
    cases rgb'
    rw [Vec3b.mk.injEq, and_assoc]
  simp only [colourDistance, Tuple.ofPixel]
  rw [add_eq_zero_iff_of_nonneg (add_nonneg hb hg) hr, add_eq_zero_iff_of_nonneg hb hg, mul_self_eq_zero,
    mul_self_eq_zero, mul_self_eq_zero, hbyte, hbyte, hbyte, hsplit]

theorem distanceTo_seeds (p : Tuple ℚ) {k : Nat} (hk : k < K) :
    distanceTo p ((seeds src rand).map Tuple.defined) k =
      some (colourDistance p (Tuple.ofPixel (rand (2 * k) % src.cols : Nat) (rand (2 * k + 1) % src.rows : Nat)
        (seedColour src rand k))) := by
  rw [distanceTo_defined, seeds, List.getElem?_map, List.getElem?_range hk]
  rfl

theorem lt_of_distanceTo_seeds {p : Tuple ℚ} {k : Nat} {d : ℚ}
    (h : distanceTo p ((seeds src rand).map Tuple.defined) k = some d) : k < K := by
  rw [distanceTo_defined] at h
  obtain ⟨c, hc, -⟩ := Option.map_eq_some_iff.mp h
  have hlt := (List.getElem?_eq_some_iff.mp hc).1
  rwa [seeds, List.length_map, List.length_range] at hlt

/-- In the first iteration no cluster is empty if the colours of the seeds differ, and only then. -/
theorem seeds_attract_iff (hinside : SeedsInside src rand) :
    Attracts (pixels src) ((seeds src rand).map Tuple.defined) ↔ DistinctSeeds src rand := by
  rw [Attracts, List.length_map, seeds, List.length_map, List.length_range, ← seeds]
  constructor
  · intro hall i j hij hj hsame
    obtain ⟨p, -, d, hd, hnearest⟩ := hall j hj
    rw [distanceTo_seeds p hj, Option.some.injEq] at hd
    have hbefore := (hnearest i _ (distanceTo_seeds p (hij.trans hj))).1 hij
    rw [← hd, hsame] at hbefore
    exact lt_irrefl _ hbefore
  · intro hdistinct k hk
    obtain ⟨hrow, hcol⟩ := hinside k hk
    refine ⟨_, mem_pixels.mpr ⟨_, hrow, _, hcol, rfl⟩, 0, ?_, ?_⟩
    · rw [distanceTo_seeds _ hk, Option.some.injEq]
      exact (colourDistance_ofPixel _ _ _ _ _ _).mpr rfl
    · intro j d hd
      have hj := lt_of_distanceTo_seeds hd
      rw [distanceTo_seeds _ hj, Option.some.injEq] at hd
      have hnonneg := colourDistance_nonneg (Tuple.ofPixel (rand (2 * k + 1) % src.rows : Nat)
        (rand (2 * k) % src.cols : Nat) (src.pixel (rand (2 * k) % src.cols) (rand (2 * k + 1) % src.rows)))
        (Tuple.ofPixel (rand (2 * j) % src.cols : Nat) (rand (2 * j + 1) % src.rows : Nat) (seedColour src rand j))
      rw [hd] at hnonneg
      refine ⟨fun hlt => lt_of_le_of_ne hnonneg ?_, fun _ => hnonneg⟩
      rintro rfl
      exact hdistinct j k hlt hk ((colourDistance_ofPixel _ _ _ _ _ _).mp hd).symm

section Sound

def Defined (points : List (Tuple (Option ℚ))) : Prop := ∀ t ∈ points, t.b.isSome ∧ t.g.isSome ∧ t.r.isSome

/-- The image is read inside its bounds, no iteration divides by zero or leaves a point that is
not a number, and the stopping test succeeds in the end. -/
def Sound (src : Mat) (rand : Nat → Nat) : Prop :=
  ∃ sum_points s₀, start src rand = .ok (sum_points, s₀) ∧
    (∀ s, Reached sum_points s₀ s → s.Running →
      (∀ c ∈ s.clusters sum_points, c.k ≠ 0) ∧ Defined (s.iterate sum_points).new_points) ∧
    ∃ s, Reached sum_points s₀ s ∧ ¬ s.Running

/-- After the first iteration, too, every centroid is the first of the nearest ones of some pixel. -/
def KeepPixels (src : Mat) (rand : Nat → Nat) : Prop :=
  ∀ s, Reached (pixels src) (firstLoop src rand) s → s.index ≠ 0 → s.Running → Attracts (pixels src) s.new_points

variable {sum_points : List (Tuple ℚ)} {s₀ s : Loop}

theorem eq_or_index_ne_zero (h : Reached sum_points s₀ s) : s = s₀ ∨ s.index ≠ 0 := by
  obtain ⟨t, rfl, -⟩ := exists_after h
  cases t with
  | zero => exact .inl rfl
  | succ t => exact .inr (Nat.succ_ne_zero _)

theorem Good.defined {cs : List (Tuple ℚ)} (h : Good sum_points s cs) (hindex : s.index ≠ 0) : Defined s.new_points := by
  have hcurrent := h.current
  rw [Loop.current, if_pos hindex] at hcurrent
  rw [hcurrent, Defined, List.forall_mem_map]
  exact fun c _ => ⟨rfl, rfl, rfl⟩

theorem sound_of_keepPixels (hinside : SeedsInside src rand) (hdistinct : DistinctSeeds src rand)
    (hkeep : KeepPixels src rand) : Sound src rand := by
  have hne : ∀ s cs, Reached (pixels src) (firstLoop src rand) s → Good (pixels src) s cs → s.Running →
      ∀ c ∈ s.clusters (pixels src), c.k ≠ 0 := by
    intro s cs hreach hgood hrunning
    apply (hgood.nonempty_iff pixels_inRange).mpr
    rcases eq_or_index_ne_zero hreach with rfl | hindex
    · exact (seeds_attract_iff hinside).mpr hdistinct
    · rw [Loop.current, if_pos hindex]
      exact hkeep s hreach hindex hrunning
  have hgood : ∀ s, Reached (pixels src) (firstLoop src rand) s → ∃ cs, Good (pixels src) s cs :=
    fun s hreach => good_of_reached pixels_inRange firstLoop_good hne hreach
  have hall : ∀ s, Reached (pixels src) (firstLoop src rand) s → s.Running → ∀ c ∈ s.clusters (pixels src), c.k ≠ 0 := by
    intro s hreach hrunning
    obtain ⟨cs, hcs⟩ := hgood s hreach
    exact hne s cs hreach hcs hrunning
  refine ⟨pixels src, firstLoop src rand, start_ok hinside, ?_, stops pixels_inRange firstLoop_good hall⟩
  intro s hreach hrunning
  obtain ⟨cs, hcs⟩ := hgood s hreach
  exact ⟨hall s hreach hrunning, (hcs.iterate pixels_inRange (hall s hreach hrunning)).defined (Nat.succ_ne_zero _)⟩

theorem Sound.conditions (h : Sound src rand) :
    SeedsInside src rand ∧ DistinctSeeds src rand ∧ KeepPixels src rand := by
  obtain ⟨sum_points, s₀, hstart, hsafe, -⟩ := h
  have hinside := seedsInside_of_start hstart
  rw [start_ok hinside, Except.ok.injEq, Prod.mk.injEq] at hstart
  obtain ⟨rfl, rfl⟩ := hstart
  have hattracts : ∀ s, Reached (pixels src) (firstLoop src rand) s → s.Running → Attracts (pixels src) s.current := by
    intro s hreach hrunning
    obtain ⟨cs, hcs⟩ := good_of_reached pixels_inRange firstLoop_good
      (fun s _ hreach _ hrunning => (hsafe s hreach hrunning).1) hreach
    exact (hcs.nonempty_iff pixels_inRange).mp (hsafe s hreach hrunning).1
  refine ⟨hinside, (seeds_attract_iff hinside).mp (hattracts _ .refl (.inl rfl)), ?_⟩
  intro s hreach hindex hrunning
  have hcurrent := hattracts s hreach hrunning
  rwa [Loop.current, if_pos hindex] at hcurrent

/-- The program works on an image and random numbers if the seeds are inside, their colours differ
and every centroid keeps a pixel, and only then. -/
theorem kmeans_sound_iff (src : Mat) (rand : Nat → Nat) :
    Sound src rand ↔ SeedsInside src rand ∧ DistinctSeeds src rand ∧ KeepPixels src rand := by
  refine ⟨Sound.conditions, ?_⟩
  rintro ⟨hinside, hdistinct, hkeep⟩
  exact sound_of_keepPixels hinside hdistinct hkeep

def tiles : Mat := ⟨3, 3, fun i j => ⟨(min (3 * i + j) 5).toUInt8, 0, 0⟩, by decide, by decide⟩

def inOrder (n : Nat) : Nat := if n % 2 = 0 then n / 2 / 3 else n / 2 % 3

def wide : Mat := ⟨1, 2, fun _ _ => ⟨0, 0, 0⟩, by decide, by decide⟩

def dot : Mat := ⟨1, 1, fun _ _ => ⟨0, 0, 0⟩, by decide, by decide⟩

/-- In an image of two columns and one row the seed is looked for in the second row; in an image of
one pixel all seeds are the same, and only the first one gets the pixel. -/
theorem wide_and_dot_not_sound :
    ¬ (∀ src rand, Sound src rand) ∧ start wide (fun _ => 1) = .error .outOfBounds ∧ ¬ Sound dot fun _ => 0 := by
  have hwide : start wide (fun _ => 1) = .error .outOfBounds := by
    rw [start, readPoints_ok, ok_bind]
    rfl
  refine ⟨?_, hwide, ?_⟩
  · intro hall
    obtain ⟨sum_points, s₀, hstart, -⟩ := hall wide fun _ => 1
    rw [hwide] at hstart
    cases hstart
  · intro hsound
    exact hsound.conditions.2.1 0 1 (by decide) (by decide) rfl

end Sound

end KMeans

end CPractice
