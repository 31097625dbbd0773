import CPractice.Ae.TimeEvents
import Mathlib.Order.Bounds.Basic

/-! How long `aeProcessEvents` lets `aeApiPoll` sleep. -/

namespace CPractice

open CMem

def AE_FILE_EVENTS : BitVec 32 := 1
def AE_TIME_EVENTS : BitVec 32 := 2
def AE_DONT_WAIT : BitVec 32 := 4

structure PollTimeval where
  tv_sec : Int
  tv_usec : Int
  deriving DecidableEq, Repr

def earlier (t nearest : Time) : Bool :=
  t.sec < nearest.sec || (t.sec == nearest.sec && t.ms < nearest.ms)

theorem earlier_iff {t u : Time} (ht : t.Normal) (hu : u.Normal) :
    earlier t u = true ↔ t.toMs < u.toMs := by
  obtain ⟨ht₀, ht₁⟩ := ht
  obtain ⟨hu₀, hu₁⟩ := hu
  simp only [earlier, Time.toMs, Bool.or_eq_true, Bool.and_eq_true, decide_eq_true_eq, beq_iff_eq]
  omega

def searchNearest (h : NodeHeap AeTimeEvent) :
    Nat → Option (Node AeTimeEvent) → Option Nat → Except Fault (Option (Node AeTimeEvent))
  | _, nearest, none => .ok nearest
  | 0, _, some _ => .error .diverges
  | fuel + 1, nearest, some te => do
    let n ← h.load te
    let nearest := match nearest with
      | none => n
      | some m => if earlier n.val.when m.val.when then n else m
    searchNearest h fuel (some nearest) n.next

def aeSearchNearestTimer (σ : AeTimers) : Except Fault (Option (Node AeTimeEvent)) :=
  searchNearest σ.heap σ.heap.brk none σ.timeEventHead

theorem searchNearest_ok {h : NodeHeap AeTimeEvent} {p : Option Nat} {l : List (Nat × AeTimeEvent)}
    (hc : Chain h p l) (hl : ∀ x ∈ l, x.2.when.Normal) {m : Node AeTimeEvent}
    (hm : m.val.when.Normal) {fuel : Nat} (hf : l.length ≤ fuel) :
    ∃ n, searchNearest h fuel (some m) p = .ok (some n) ∧ (n = m ∨ n.val ∈ l.map Prod.snd) ∧
      n.val.when.toMs ≤ m.val.when.toMs ∧ ∀ x ∈ l, n.val.when.toMs ≤ x.2.when.toMs := by
  induction l generalizing p fuel m with
  | nil =>
    obtain rfl : p = none := hc
    refine ⟨m, ?_, .inl rfl, le_refl _, by simp⟩
    cases fuel <;> rfl
  | cons x l ih =>
    obtain ⟨a, v⟩ := x
    obtain ⟨rfl, next, ha, hc⟩ := hc
    obtain ⟨fuel, rfl⟩ : ∃ n, fuel = n + 1 := ⟨fuel - 1, by simp at hf; omega⟩
    have hv : v.when.Normal := hl (a, v) (by simp)
    have hl' : ∀ x ∈ l, x.2.when.Normal := fun x hx => hl x (by simp [hx])
    have hf' : l.length ≤ fuel := by simpa using hf
    rw [searchNearest, NodeHeap.load_ok ha, ok_bind]
    by_cases he : earlier v.when m.val.when = true
    · obtain ⟨n, hn, hmem, hle, hall⟩ := ih hc hl' (m := ⟨v, next⟩) hv hf'
      have hlt := (earlier_iff hv hm).mp he
      refine ⟨n, by simpa [he] using hn, ?_, by simp only at hle; omega, ?_⟩
      · rcases hmem with rfl | hmem
        · exact .inr (by simp)
        · exact .inr (List.mem_cons_of_mem _ hmem)
      · intro y hy
        rcases List.mem_cons.mp hy with rfl | hy
        · exact hle
        · exact hall y hy
    · obtain ⟨n, hn, hmem, hle, hall⟩ := ih hc hl' hm hf'
      have hge : m.val.when.toMs ≤ v.when.toMs := by
        rw [earlier_iff hv hm] at he
        omega
      refine ⟨n, by simpa [he] using hn, ?_, hle, ?_⟩
      · exact hmem.imp_right fun hmem => List.mem_cons_of_mem _ hmem
      · intro y hy
        rcases List.mem_cons.mp hy with rfl | hy
        · exact le_trans hle hge
        · exact hall y hy

def IsEarliest (l : List (Nat × AeTimeEvent)) (T : Int) : Prop :=
  IsLeast {t | ∃ x ∈ l, x.2.when.toMs = t} T

theorem aeSearchNearestTimer_ok {σ : AeTimers} {l : List (Nat × AeTimeEvent)}
    (hc : Chain σ.heap σ.timeEventHead l) (hl : ∀ x ∈ l, x.2.when.Normal) {T : Int}
    (hT : IsEarliest l T) :
    ∃ n, aeSearchNearestTimer σ = .ok (some n) ∧ n.val.when.Normal ∧ n.val.when.toMs = T := by
  obtain ⟨⟨x, hx, hxT⟩, hleast⟩ := hT
  have hlen := Chain.length_le_brk hc
  cases l with
  | nil => simp at hx
  | cons y l =>
    obtain ⟨a, v⟩ := y
    obtain ⟨hhead, next, ha, hc⟩ := hc
    have hl' : ∀ x ∈ l, x.2.when.Normal := fun x hx => hl x (by simp [hx])
    obtain ⟨fuel, hfuel⟩ : ∃ n, σ.heap.brk = n + 1 :=
      ⟨σ.heap.brk - 1, by simp only [List.length_cons] at hlen; omega⟩
    have hf : l.length ≤ fuel := by
      simp only [List.length_cons] at hlen
      omega
    obtain ⟨n, hn, hmem, hle, hall⟩ :=
      searchNearest_ok hc hl' (m := ⟨v, next⟩) (hl (a, v) (by simp)) hf
    have hmem' : n.val ∈ ((a, v) :: l).map Prod.snd := by
      rcases hmem with rfl | hmem
      · simp
      · exact List.mem_cons_of_mem _ hmem
    obtain ⟨y, hy, hyn⟩ := List.mem_map.mp hmem'
    refine ⟨n, ?_, hyn ▸ hl y hy, ?_⟩
    · rw [aeSearchNearestTimer, hhead, hfuel, searchNearest, NodeHeap.load_ok ha, ok_bind]
      exact hn
    · have hlow : T ≤ n.val.when.toMs := hleast ⟨y, hy, by rw [hyn]⟩
      have hup : n.val.when.toMs ≤ x.2.when.toMs := by
        rcases List.mem_cons.mp hx with rfl | hx
        · exact hle
        · exact hall x hx
      omega

def timeMissing (when now : Time) : PollTimeval :=
  let tv_sec := when.sec - now.sec
  let tv : PollTimeval :=
    if when.ms < now.ms then { tv_sec := tv_sec - 1, tv_usec := (when.ms + 1000 - now.ms) * 1000 }
    else { tv_sec, tv_usec := (when.ms - now.ms) * 1000 }
  { tv_sec := if tv.tv_sec < 0 then 0 else tv.tv_sec
    tv_usec := if tv.tv_usec < 0 then 0 else tv.tv_usec }

def PollTimeval.usec (tv : PollTimeval) : Int := tv.tv_sec * 1000000 + tv.tv_usec

/-- The two parts are clamped on their own, so an overdue timer leaves the
milliseconds of the difference behind. -/
theorem timeMissing_usec {when now : Time} (hw : when.Normal) (hn : now.Normal) :
    (timeMissing when now).usec =
      1000 * (if now.toMs ≤ when.toMs then when.toMs - now.toMs else (when.toMs - now.toMs) % 1000) := by
  obtain ⟨hw₀, hw₁⟩ := hw
  obtain ⟨hn₀, hn₁⟩ := hn
  simp only [timeMissing, PollTimeval.usec, Time.toMs]
  by_cases hms : when.ms < now.ms
  · simp only [hms, if_true]
    have hu : ¬ (when.ms + 1000 - now.ms) * 1000 < 0 := by omega
    simp only [hu, if_false]
    split_ifs <;> omega
  · simp only [hms, if_false]
    have hu : ¬ (when.ms - now.ms) * 1000 < 0 := by omega
    simp only [hu, if_false]
    split_ifs <;> omega

/-- What a call of `aeProcessEvents` hands to `aeApiPoll`: `none` when it does not
poll at all, `some none` when it may sleep forever. -/
def pollTimeout (w : World) (maxfd : Int) (flags : BitVec 32) (σ : AeTimers) :
    Except Fault (AeTimers × Option (Option PollTimeval)) :=
  if flags &&& AE_TIME_EVENTS = 0 ∧ flags &&& AE_FILE_EVENTS = 0 then .ok (σ, none)
  else if maxfd ≠ -1 ∨ (flags &&& AE_TIME_EVENTS ≠ 0 ∧ flags &&& AE_DONT_WAIT = 0) then do
    let shortest ← (if flags &&& AE_TIME_EVENTS ≠ 0 ∧ flags &&& AE_DONT_WAIT = 0 then
      aeSearchNearestTimer σ else .ok none)
    match shortest with
    | some n =>
      let now := aeGetTime w σ.clockReads
      return ({ σ with clockReads := σ.clockReads + 1 }, some (some (timeMissing n.val.when now)))
    | none =>
      if flags &&& AE_DONT_WAIT ≠ 0 then return (σ, some (some { tv_sec := 0, tv_usec := 0 }))
      else return (σ, some none)
  else .ok (σ, none)

theorem pollTimeout_ok {w : World} {maxfd : Int} {flags : BitVec 32} {σ : AeTimers}
    (htime : flags &&& AE_TIME_EVENTS ≠ 0) (hwait : flags &&& AE_DONT_WAIT = 0)
    {n : Node AeTimeEvent} (hn : aeSearchNearestTimer σ = .ok (some n)) :
    pollTimeout w maxfd flags σ = .ok ({ σ with clockReads := σ.clockReads + 1 },
      some (some (timeMissing n.val.when (aeGetTime w σ.clockReads)))) := by
  rw [pollTimeout, if_neg fun h => htime h.1, if_pos (.inr ⟨htime, hwait⟩), if_pos ⟨htime, hwait⟩, hn]
  rfl

theorem searchNearest_total {h : NodeHeap AeTimeEvent} {p : Option Nat} {l : List (Nat × AeTimeEvent)}
    (hc : Chain h p l) (nearest : Option (Node AeTimeEvent)) {fuel : Nat} (hf : l.length ≤ fuel) :
    ∃ n, searchNearest h fuel nearest p = .ok n := by
  induction l generalizing p fuel nearest with
  | nil =>
    obtain rfl : p = none := hc
    refine ⟨nearest, ?_⟩
    cases fuel <;> rfl
  | cons x l ih =>
    obtain ⟨a, v⟩ := x
    obtain ⟨rfl, next, ha, hc⟩ := hc
    obtain ⟨fuel, rfl⟩ : ∃ n, fuel = n + 1 := ⟨fuel - 1, by simp at hf; omega⟩
    rw [searchNearest, NodeHeap.load_ok ha, ok_bind]
    exact ih hc _ (by simpa using hf)

def SkipsPoll (maxfd : Int) (flags : BitVec 32) : Prop :=
  (flags &&& AE_TIME_EVENTS = 0 ∧ flags &&& AE_FILE_EVENTS = 0) ∨
    (maxfd = -1 ∧ (flags &&& AE_TIME_EVENTS = 0 ∨ flags &&& AE_DONT_WAIT ≠ 0))

theorem pollTimeout_cases (w : World) (maxfd : Int) (flags : BitVec 32) {σ : AeTimers}
    {l : List (Nat × AeTimeEvent)} (hc : Chain σ.heap σ.timeEventHead l) :
    ∃ n tvp, pollTimeout w maxfd flags σ = .ok ({ σ with clockReads := n }, tvp) ∧
      (tvp = none ↔ SkipsPoll maxfd flags) ∧
      (flags &&& AE_DONT_WAIT ≠ 0 → ∀ tv, tvp = some tv → tv = some { tv_sec := 0, tv_usec := 0 }) := by
  unfold pollTimeout
  by_cases hnone : flags &&& AE_TIME_EVENTS = 0 ∧ flags &&& AE_FILE_EVENTS = 0
  · exact ⟨σ.clockReads, none, if_pos hnone, iff_of_true rfl (.inl hnone), by simp⟩
  · rw [if_neg hnone]
    by_cases hwait : flags &&& AE_TIME_EVENTS ≠ 0 ∧ flags &&& AE_DONT_WAIT = 0
    · have hpolls : ¬ SkipsPoll maxfd flags := by
        unfold SkipsPoll
        tauto
      obtain ⟨n, hn⟩ := searchNearest_total hc none (Chain.length_le_brk hc)
      have hsearch : aeSearchNearestTimer σ = .ok n := hn
      rw [if_pos (.inr hwait), if_pos hwait, hsearch, ok_bind]
      cases n with
      | none =>
        exact ⟨σ.clockReads, some none, if_neg (not_not.mpr hwait.2), iff_of_false (by simp) hpolls,
          fun h => absurd hwait.2 h⟩
      | some n =>
        exact ⟨σ.clockReads + 1, some (some _), rfl, iff_of_false (by simp) hpolls,
          fun h => absurd hwait.2 h⟩
    · by_cases hmax : maxfd = -1
      · have hpolls : ¬ (maxfd ≠ -1 ∨ flags &&& AE_TIME_EVENTS ≠ 0 ∧ flags &&& AE_DONT_WAIT = 0) := by
          tauto
        rw [if_neg hpolls]
        exact ⟨σ.clockReads, none, rfl, iff_of_true rfl (.inr ⟨hmax, by tauto⟩), by simp⟩
      · have hpolls : ¬ SkipsPoll maxfd flags := by
          unfold SkipsPoll
          tauto
        rw [if_pos (.inl hmax), if_neg hwait, ok_bind]
        by_cases hdont : flags &&& AE_DONT_WAIT ≠ 0
        · exact ⟨σ.clockReads, _, if_pos hdont, iff_of_false (by simp) hpolls, by simp⟩
        · exact ⟨σ.clockReads, _, if_neg hdont, iff_of_false (by simp) hpolls, fun h => absurd h hdont⟩

def SleepsUntil (w : World) (maxfd : Int) (flags : BitVec 32) (σ : AeTimers) (T : Int) : Prop :=
  ∃ σ' tv, pollTimeout w maxfd flags σ = .ok (σ', some (some tv)) ∧
    tv.usec = 1000 * max 0 (T - (aeGetTime w σ.clockReads).toMs)

/-- The loop sleeps exactly to the earliest deadline unless that deadline has
passed by something that is not a whole number of seconds. -/
theorem sleepsUntil_iff {w : World} {maxfd : Int} {flags : BitVec 32} {σ : AeTimers}
    {l : List (Nat × AeTimeEvent)} {T : Int} (hc : Chain σ.heap σ.timeEventHead l)
    (hl : ∀ x ∈ l, x.2.when.Normal) (hT : IsEarliest l T)
    (htime : flags &&& AE_TIME_EVENTS ≠ 0) (hwait : flags &&& AE_DONT_WAIT = 0) :
    SleepsUntil w maxfd flags σ T ↔
      (aeGetTime w σ.clockReads).toMs ≤ T ∨ (T - (aeGetTime w σ.clockReads).toMs) % 1000 = 0 := by
  obtain ⟨n, hn, hnorm, rfl⟩ := aeSearchNearestTimer_ok hc hl hT
  have husec := timeMissing_usec hnorm (aeGetTime_normal w σ.clockReads)
  constructor
  · rintro ⟨σ', tv, hp, htv⟩
    rw [pollTimeout_ok htime hwait hn] at hp
    simp only [Except.ok.injEq, Prod.mk.injEq, Option.some.injEq] at hp
    rw [← hp.2, husec] at htv
    split_ifs at htv with hle
    · exact .inl hle
    · rw [max_eq_left (by omega)] at htv
      omega
  · intro hcond
    refine ⟨_, _, pollTimeout_ok htime hwait hn, ?_⟩
    rw [husec]
    split_ifs with hle
    · rw [max_eq_right (by omega)]
    · rw [max_eq_left (by omega)]
      omega

def pollWorld (created now : Int) : World where
  time _ := 0
  gettimeofday n := .ofMs (if n = 0 then created else now)
  timeProc _ _ _ _ := { script := .done, retval := AE_NOMORE, finalizer := .done }

def pollLoop (created now : Int) : AeTimers :=
  (aeCreateTimeEvent (pollWorld created now) (initTimers (pollWorld created now)) 0 1 0 0).2

def pollEvent : AeTimeEvent :=
  { id := 0, when_sec := 10, when_ms := 500, timeProc := 1, finalizerProc := 0, clientData := 0 }

theorem pollEvent_earliest : IsEarliest [(0, pollEvent)] 10500 := by
  constructor
  · exact ⟨_, List.mem_singleton_self _, rfl⟩
  · rintro t ⟨x, hx, rfl⟩
    obtain rfl := List.mem_singleton.mp hx
    exact le_refl _

theorem pollLoop_chain (now : Int) :
    Chain (pollLoop 10500 now).heap (pollLoop 10500 now).timeEventHead [(0, pollEvent)] :=
  ⟨rfl, none, rfl, rfl⟩

theorem sleepsUntil_of_missing :
    SleepsUntil (pollWorld 10500 9000) (-1) AE_TIME_EVENTS (pollLoop 10500 9000) 10500 :=
  (sleepsUntil_iff (pollLoop_chain 9000) (by simp [pollEvent, AeTimeEvent.when, Time.Normal])
    pollEvent_earliest (by decide) (by decide)).mpr (by decide)

theorem sleeps_when_overdue :
    ¬ ∀ (w : World) (maxfd : Int) (flags : BitVec 32) (σ : AeTimers) (l : List (Nat × AeTimeEvent))
      (T : Int), Chain σ.heap σ.timeEventHead l → (∀ x ∈ l, x.2.when.Normal) → IsEarliest l T →
      flags &&& AE_TIME_EVENTS ≠ 0 → flags &&& AE_DONT_WAIT = 0 → SleepsUntil w maxfd flags σ T := by
  intro hall
  obtain ⟨σ', tv, hp, htv⟩ := hall (pollWorld 10500 11300) (-1) AE_TIME_EVENTS (pollLoop 10500 11300)
    [(0, pollEvent)] 10500 (pollLoop_chain 11300)
    (by simp [pollEvent, AeTimeEvent.when, Time.Normal]) pollEvent_earliest (by decide) (by decide)
  have hcode : pollTimeout (pollWorld 10500 11300) (-1) AE_TIME_EVENTS (pollLoop 10500 11300) =
      .ok (_, some (some { tv_sec := 0, tv_usec := 200000 })) := rfl
  rw [hcode] at hp
  simp only [Except.ok.injEq, Prod.mk.injEq, Option.some.injEq] at hp
  rw [← hp.2] at htv
  exact absurd htv (by decide)

end CPractice
