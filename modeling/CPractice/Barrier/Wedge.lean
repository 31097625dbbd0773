import CPractice.Barrier.Wait

/-! The barrier has one counter for all rounds. A thread that comes back to `wait`
before the waiters of the last round have seen the counter at zero keeps them there. -/

namespace CPractice

namespace Barrier

variable {n : Nat}

/-- All threads wait, none has a notification to come, and none would find the counter
at zero. -/
def Wedged (b : Barrier n) : Prop := (∀ t, b.thread t = .waiting false) ∧ b.count_ ≠ 0

/-- Nobody enters while a notified waiter is still inside. -/
def Orderly (b : Barrier n) : Act n → Prop
  | .enter _ => ∀ u, b.thread u ≠ .waiting true
  | _ => True

instance Orderly.decidable (b : Barrier n) : ∀ a, Decidable (b.Orderly a)
  | .enter _ => inferInstanceAs (Decidable (∀ u, b.thread u ≠ .waiting true))
  | .awake _ => .isTrue trivial
  | .expire _ => .isTrue trivial

structure Settled (b : Barrier n) (r : Nat) : Prop extends b.Round r where
  blocked : ∀ t, b.thread t = .waiting false → b.begun t = r + 1
  released : ∀ t, b.thread t = .waiting true → b.count_ = 0

section Settled

variable {b : Barrier n} {r : Nat} {t : Fin n}

theorem start_settled (n : Nat) : (start n).Settled 0 := by
  constructor
  case toRound => exact start_round n
  case blocked => exact fun t h => absurd h (by simp [start])
  case released => exact fun _ _ => rfl

theorem Settled.leave (h : b.Settled r) (hin : b.thread t ≠ .outside) (hzero : b.count_ = 0) :
    (b.leave t).Settled r := by
  constructor
  case toRound => exact h.toRound.leave hin hzero
  case blocked =>
    intro u hu
    by_cases hut : u = t
    · subst hut
      simp [Barrier.leave] at hu
    · exact h.blocked u (by simpa [Barrier.leave, hut] using hu)
  case released => exact fun _ _ => hzero

theorem Settled.block (h : b.Settled r) (hin : b.thread t ≠ .outside) (hpos : b.count_ ≠ 0) :
    (b.block t).Settled r := by
  have hnot : ∀ u, b.thread u ≠ .waiting true := fun u hu => hpos (h.released u hu)
  have ht : b.thread t = .waiting false := by
    cases hth : b.thread t with
    | outside => exact absurd hth hin
    | waiting notified =>
      cases notified with
      | false => rfl
      | true => exact absurd hth (hnot t)
  have hsame : b.block t = b := by
    unfold Barrier.block
    rw [← ht, Function.update_eq_self]
  rw [hsame]
  exact h

theorem Settled.arrive (h : b.Settled r) (hout : b.thread t = .outside) (hfull : b.count_ + 1 ≠ n)
    (hnot : ∀ u, b.thread u ≠ .waiting true) : ((b.arrive t).block t).Settled r := by
  constructor
  case toRound => exact h.toRound.arrive hout hfull
  case blocked =>
    intro u hu
    by_cases hut : u = t
    · subst hut
      simp [Barrier.block, Barrier.arrive, (h.outside hout).1]
    · have hu' : b.thread u = .waiting false := by simpa [Barrier.block, Barrier.arrive, hut] using hu
      simpa [Barrier.block, Barrier.arrive, hut] using h.blocked u hu'
  case released =>
    intro u hu
    by_cases hut : u = t
    · subst hut
      simp [Barrier.block] at hu
    · exact absurd (by simpa [Barrier.block, Barrier.arrive, hut] using hu) (hnot u)

theorem Settled.complete (h : b.Settled r) (hout : b.thread t = .outside) (hfull : b.count_ + 1 = n) :
    (Barrier.leave (notify_all { b.arrive t with count_ := 0 }) t).Settled (r + 1) := by
  constructor
  case toRound => exact h.toRound.complete hout hfull
  case blocked =>
    intro u hu
    by_cases hut : u = t
    · subst hut
      simp [Barrier.leave] at hu
    · cases hth : b.thread u <;> simp [Barrier.leave, notify_all, Barrier.arrive, hut, hth] at hu
  case released => exact fun _ _ => rfl

end Settled

theorem step_settled {b b' : Barrier n} {a : Act n} (h : ∃ r, b.Settled r) (hin : b.InTime a)
    (hord : b.Orderly a) (he : b.step a = some b') : ∃ r, b'.Settled r := by
  obtain ⟨r, h⟩ := h
  rcases step_cases he hin with ⟨t, -, hout, hfull, rfl⟩ | ⟨t, rfl, hout, hfull, rfl⟩ |
    ⟨t, -, hth, hzero, rfl⟩ | ⟨t, -, hth, hpos, rfl⟩
  · exact ⟨r + 1, h.complete hout hfull⟩
  · exact ⟨r, h.arrive hout hfull hord⟩
  · exact ⟨r, h.leave hth hzero⟩
  · exact ⟨r, h.block hth hpos⟩

theorem Settled.not_wedged {b : Barrier n} {r : Nat} (h : b.Settled r) : ¬ b.Wedged := by
  rintro ⟨hwait, hpos⟩
  have hall : (Finset.univ.filter fun t => b.begun t = r + 1) = Finset.univ := by
    ext t
    simp [h.blocked t (hwait t)]
  have hcount := h.count
  have hbelow := h.below
  rw [hall, Finset.card_univ, Fintype.card_fin] at hcount
  omega

/-- As long as nobody enters before the waiters of the last round have left, the
barrier is never wedged. -/
theorem orderly_not_wedged {b : Barrier n}
    (h : Reach.Runs step (fun b a => b.InTime a ∧ b.Orderly a) (start n) b) : ¬ b.Wedged := by
  obtain ⟨r, hr⟩ := h.invariant (fun b => ∃ r, b.Settled r) ⟨0, start_settled n⟩
    fun b a b' hb hall he => step_settled hb hall.1 hall.2 he
  exact hr.not_wedged

theorem twoRounds_not_wedged :
    ∃ b, Reach.Runs step (fun b a => b.InTime a ∧ b.Orderly a) (start 2) b ∧ b.count_ = 1 ∧ ¬ b.Wedged := by
  have hall : Reach.Allows step (fun b a => b.InTime a ∧ b.Orderly a) twoRounds (start 2) := by
    decide
  have hrun := Reach.runs_of_run hall (show Reach.run step twoRounds (start 2) = some _ from rfl)
  exact ⟨_, hrun, by decide, orderly_not_wedged hrun⟩

/-- The fast thread completes the round and comes back before the slow one, which was
notified, has the mutex again. -/
def comesBackEarly : List (Act 2) := [.enter slow, .enter fast, .enter fast, .awake slow]

theorem comesBackEarly_wedged :
    ¬ ∀ (n : Nat) (b : Barrier n), 2 ≤ n → Reach.Runs step InTime (start n) b → ¬ b.Wedged := by
  intro hall
  have hin : Reach.Allows step InTime comesBackEarly (start 2) := by decide
  have hrun := Reach.runs_of_run hin (show Reach.run step comesBackEarly (start 2) = some _ from rfl)
  exact hall 2 _ le_rfl hrun ⟨by decide, by decide⟩

section Early

variable {b : Barrier n} {r : Nat} {t u : Fin n}

/-- Thread `u` has not left round `r`, and others have begun the next one. -/
def Stale (b : Barrier n) (r : Nat) (u : Fin n) : Prop :=
  b.Round r ∧ b.thread u ≠ .outside ∧ b.begun u = r ∧ b.count_ ≠ 0

theorem Round.not_full (h : b.Round r) (hout : b.thread t = .outside) (hu : b.thread u ≠ .outside)
    (hbegun : b.begun u = r) : b.count_ + 1 ≠ n := by
  intro hfull
  have hut : u ≠ t := fun he => hu (he ▸ hout)
  have hnext := h.all_begun hout hfull u
  simp [Barrier.arrive, hut, hbegun] at hnext

theorem Round.enter_stale (h : b.Round r) (hout : b.thread t = .outside) (hu : b.thread u ≠ .outside)
    (hbegun : b.begun u = r) :
    b.step (.enter t) = some ((b.arrive t).block t) ∧ ((b.arrive t).block t).Stale r u := by
  have hut : u ≠ t := fun he => hu (he ▸ hout)
  have hfull := h.not_full hout hu hbegun
  constructor
  · rw [step, if_pos hout, Barrier.enter, if_neg hfull]
    exact congrArg some (if_neg (Nat.succ_ne_zero _))
  · refine ⟨h.arrive hout hfull, ?_, ?_, Nat.succ_ne_zero _⟩
    · simpa [Barrier.block, Barrier.arrive, hut] using hu
    · simpa [Barrier.block, Barrier.arrive, hut] using hbegun

theorem Stale.awake (h : b.Stale r u) (hin : b.thread t ≠ .outside) :
    b.step (.awake t) = some (b.block t) ∧ (b.block t).Stale r u := by
  obtain ⟨hround, hu, hbegun, hpos⟩ := h
  constructor
  · rw [step, if_pos hin, Barrier.awake, if_neg hpos]
  · refine ⟨hround.block hin, ?_, hbegun, hpos⟩
    by_cases hut : u = t
    · subst hut
      simp [Barrier.block]
    · simpa [Barrier.block, hut] using hu

def moving (b : Barrier n) : Finset (Fin n) := Finset.univ.filter fun t => b.thread t ≠ .waiting false

theorem moving_block (b : Barrier n) (ht : b.thread t ≠ .waiting false) :
    (b.block t).moving.card < b.moving.card := by
  apply Finset.card_lt_card
  refine (Finset.ssubset_iff_of_subset ?_).mpr ⟨t, ?_, ?_⟩
  · intro v hv
    have hne := (Finset.mem_filter.mp hv).2
    by_cases hvt : v = t
    · subst hvt
      simp [Barrier.block] at hne
    · exact Finset.mem_filter.mpr ⟨Finset.mem_univ v, by simpa [Barrier.block, hvt] using hne⟩
  · exact Finset.mem_filter.mpr ⟨Finset.mem_univ t, ht⟩
  · intro hmem
    have hne := (Finset.mem_filter.mp hmem).2
    simp [Barrier.block] at hne

theorem Stale.wedges (h : b.Stale r u) : ∃ b', Reach.Runs step InTime b b' ∧ b'.Wedged := by
  induction hk : b.moving.card using Nat.strong_induction_on generalizing b with
  | _ k ih =>
    by_cases hall : ∀ t, b.thread t = .waiting false
    · exact ⟨b, .refl, hall, h.2.2.2⟩
    · obtain ⟨t, ht⟩ := not_forall.mp hall
      by_cases hout : b.thread t = .outside
      · obtain ⟨he, hstale⟩ := h.1.enter_stale hout h.2.1 h.2.2.1
        have hlt := moving_block (b.arrive t) ht
        obtain ⟨b', hrun, hwedged⟩ := ih _ (hk ▸ hlt) hstale rfl
        exact ⟨b', .head ⟨.enter t, trivial, he⟩ hrun, hwedged⟩
      · obtain ⟨he, hstale⟩ := h.awake hout
        have hlt := moving_block b ht
        obtain ⟨b', hrun, hwedged⟩ := ih _ (hk ▸ hlt) hstale rfl
        exact ⟨b', .head ⟨.awake t, trivial, he⟩ hrun, hwedged⟩

theorem early_enter_wedges (h : Reach.Runs step InTime (start n) b) (hu : b.thread u = .waiting true)
    (hout : b.thread t = .outside) :
    ∃ b' b'', b.step (.enter t) = some b' ∧ Reach.Runs step InTime b' b'' ∧ b''.Wedged := by
  obtain ⟨r, hr⟩ := h.invariant (fun b => ∃ r, b.Round r) ⟨0, start_round n⟩
    fun b a b' hb hin he => step_round hb hin he
  have hin : b.thread u ≠ .outside := by simp [hu]
  obtain ⟨he, hstale⟩ := hr.enter_stale hout hin (hr.notified hu)
  obtain ⟨b'', hrun, hwedged⟩ := hstale.wedges
  exact ⟨_, b'', he, hrun, hwedged⟩

end Early

end Barrier

end CPractice
