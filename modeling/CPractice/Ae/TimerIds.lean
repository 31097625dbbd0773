import CPractice.Ae.SelfDelete

/-! The ids of time events over whole runs, what a deletion does to the list, and
when finalizers run. -/

namespace CPractice

open CMem History

def createdIds (τ : List Obs) : List Int :=
  τ.filterMap fun
    | .created te _ _ _ => some te.id
    | _ => none

def finalizedIds (τ : List Obs) : List Int :=
  τ.filterMap fun
    | .finalized id => some id
    | _ => none

def DecreasingIds (l : List AeTimeEvent) : Prop := (l.map fun te => te.id).Pairwise (· > ·)

/-- What an entry of the trace says about the call that made it. -/
def Obs.Sound (older : List Obs) : Obs → Prop
  | .created te _ _ list => DecreasingIds list ∧ list.head? = some te
  | .deleted id rc before after =>
    DecreasingIds before ∧ (rc = AE_OK ∨ rc = AE_ERR) ∧ (rc = AE_OK ↔ ∃ te ∈ before, te.id = id) ∧
      after = before.filter fun te => te.id != id
  | .finalized id => ∃ te before after older', older = .deleted id AE_OK before after :: older' ∧
      te ∈ before ∧ te.id = id ∧ te.finalizerProc ≠ 0
  | _ => True

theorem mem_createdIds {τ : List Obs} {i : Int} :
    i ∈ createdIds τ ↔ ∃ te now ms list, .created te now ms list ∈ τ ∧ te.id = i := by
  simp only [createdIds, List.mem_filterMap]
  constructor
  · rintro ⟨o, ho, he⟩
    cases o with
    | created te now ms list => exact ⟨te, now, ms, list, ho, by simpa using he⟩
    | _ => simp at he
  · rintro ⟨te, now, ms, list, ho, he⟩
    exact ⟨_, ho, congrArg some he⟩

theorem mem_finalizedIds {τ : List Obs} {i : Int} : i ∈ finalizedIds τ ↔ .finalized i ∈ τ := by
  simp only [finalizedIds, List.mem_filterMap]
  constructor
  · rintro ⟨o, ho, he⟩
    cases o with
    | finalized id =>
      obtain rfl : id = i := by simpa using he
      exact ho
    | _ => simp at he
  · intro ho
    exact ⟨_, ho, rfl⟩

structure Accounted (q : TimerList) : Prop where
  ordered : Ordered q
  issued : ∀ te now ms list, .created te now ms list ∈ q.trace → te.id < q.timeEventNextId
  once : (createdIds q.trace).Nodup
  agrees : ∀ te now ms list, .created te now ms list ∈ q.trace → ∀ x ∈ q.nodes, x.2.id = te.id →
    x.2.finalizerProc = te.finalizerProc
  finalized_gone : ∀ i, .finalized i ∈ q.trace →
    i < q.timeEventNextId ∧ ∀ x ∈ q.nodes, x.2.id ≠ i
  finalized_once : (finalizedIds q.trace).Nodup
  finalized_iff : ∀ te now ms list, .created te now ms list ∈ q.trace →
    (.finalized te.id ∈ q.trace ↔ te.finalizerProc ≠ 0 ∧ ∀ x ∈ q.nodes, x.2.id ≠ te.id)
  sound : Each Obs.Sound q.trace

theorem Ordered.decreasingIds {q : TimerList} (h : Ordered q) : DecreasingIds q.events := by
  have he : q.events.map (fun te => te.id) = q.nodes.map fun x => x.2.id := by
    rw [TimerList.events, List.map_map]
    rfl
  rw [DecreasingIds, he]
  exact h.decreasing

def Obs.Quiet : Obs → Prop
  | .created _ _ _ _ => False
  | .finalized _ => False
  | _ => True

theorem createdIds_append_quiet {τ τ' : List Obs} (h : ∀ o ∈ τ, o.Quiet) :
    createdIds (τ ++ τ') = createdIds τ' := by
  refine filterMap_append_of_none fun o ho => ?_
  cases o with
  | created te now ms list => exact False.elim (h _ ho)
  | _ => rfl

theorem finalizedIds_append_quiet {τ τ' : List Obs} (h : ∀ o ∈ τ, o.Quiet) :
    finalizedIds (τ ++ τ') = finalizedIds τ' := by
  refine filterMap_append_of_none fun o ho => ?_
  cases o with
  | finalized id => exact False.elim (h _ ho)
  | _ => rfl

theorem Accounted.of_quiet {q q' : TimerList} (h : Accounted q) (ho : Ordered q')
    (hn : q'.nodes.map (fun x => (x.2.id, x.2.finalizerProc)) =
      q.nodes.map fun x => (x.2.id, x.2.finalizerProc))
    (hid : q'.timeEventNextId = q.timeEventNextId) {τ : List Obs} (ht : q'.trace = τ ++ q.trace)
    (hτ : ∀ o ∈ τ, o.Quiet) (hs : Each Obs.Sound q'.trace) : Accounted q' := by
  have hold : ∀ {o : Obs}, ¬ o.Quiet → o ∈ q'.trace → o ∈ q.trace := by
    intro o hq hm
    rw [ht] at hm
    exact (List.mem_append.mp hm).resolve_left fun hm => hq (hτ o hm)
  have hfwd : ∀ y ∈ q'.nodes, ∃ x ∈ q.nodes,
      x.2.id = y.2.id ∧ x.2.finalizerProc = y.2.finalizerProc := by
    intro y hy
    have hm := List.mem_map_of_mem (f := fun x => (x.2.id, x.2.finalizerProc)) hy
    rw [hn] at hm
    obtain ⟨x, hx, he⟩ := List.mem_map.mp hm
    exact ⟨x, hx, (Prod.mk.inj he).1, (Prod.mk.inj he).2⟩
  have hids : ∀ i, (∀ y ∈ q'.nodes, y.2.id ≠ i) ↔ ∀ x ∈ q.nodes, x.2.id ≠ i := by
    intro i
    have hmap : q'.nodes.map (fun x => x.2.id) = q.nodes.map fun x => x.2.id := by
      have hfst := congrArg (List.map Prod.fst) hn
      rw [List.map_map, List.map_map] at hfst
      exact hfst
    have hmem : i ∈ q'.nodes.map (fun x => x.2.id) ↔ i ∈ q.nodes.map fun x => x.2.id := by rw [hmap]
    simp only [List.mem_map, ← not_iff_not (b := ∃ a ∈ q.nodes, _), not_exists, not_and] at hmem
    exact hmem
  refine ⟨ho, ?_, ?_, ?_, ?_, ?_, ?_, hs⟩
  · intro te now ms list hm
    rw [hid]
    exact h.issued te now ms list (hold (by simp [Obs.Quiet]) hm)
  · rw [ht, createdIds_append_quiet hτ]
    exact h.once
  · intro te now ms list hm y hy hyid
    obtain ⟨x, hx, hxid, hxfin⟩ := hfwd y hy
    rw [← hxfin]
    exact h.agrees te now ms list (hold (by simp [Obs.Quiet]) hm) x hx (hxid.trans hyid)
  · intro i hm
    rw [hid, hids]
    exact h.finalized_gone i (hold (by simp [Obs.Quiet]) hm)
  · rw [ht, finalizedIds_append_quiet hτ]
    exact h.finalized_once
  · intro te now ms list hm
    rw [hids, ← h.finalized_iff te now ms list (hold (by simp [Obs.Quiet]) hm)]
    exact ⟨hold (by simp [Obs.Quiet]), fun hm => ht ▸ List.mem_append_right _ hm⟩

theorem Accounted.create {w : World} {q : TimerList} (h : Accounted q) {a : Nat} {ms : Int}
    {proc clientData finalizerProc : Ptr} (ho : Ordered (q.create w a ms proc clientData finalizerProc)) :
    Accounted (q.create w a ms proc clientData finalizerProc) := by
  let te₀ := q.newEvent w ms proc clientData finalizerProc
  have hnew : ∀ {te now ms' list}, .created te now ms' list ∈
      (q.create w a ms proc clientData finalizerProc).trace →
      te = te₀ ∨ .created te now ms' list ∈ q.trace := by
    intro te now ms' list hm
    rcases List.mem_cons.mp hm with he | hm
    · cases he
      exact .inl rfl
    · exact .inr hm
  have hfin : ∀ {i}, .finalized i ∈ (q.create w a ms proc clientData finalizerProc).trace ↔
      .finalized i ∈ q.trace := by
    intro i
    simp [TimerList.create]
  refine ⟨ho, ?_, ?_, ?_, ?_, h.finalized_once, ?_, ⟨⟨ho.decreasingIds, rfl⟩, h.sound⟩⟩
  · intro te now ms' list hm
    rcases hnew hm with rfl | hm
    · exact Int.lt_succ _
    · exact Int.lt_trans (h.issued te now ms' list hm) (Int.lt_succ _)
  · refine List.nodup_cons.mpr ⟨fun hm => ?_, h.once⟩
    obtain ⟨te, now, ms', list, hm, he⟩ := mem_createdIds.mp hm
    exact absurd (h.issued te now ms' list hm) (by rw [he]; exact Int.lt_irrefl _)
  · intro te now ms' list hm x hx hxid
    rcases hnew hm with rfl | hm
    · rcases List.mem_cons.mp hx with rfl | hx
      · rfl
      · exact absurd hxid (Int.ne_of_lt (h.ordered.below x hx))
    · rcases List.mem_cons.mp hx with rfl | hx
      · exact absurd hxid (Int.ne_of_gt (h.issued te now ms' list hm))
      · exact h.agrees te now ms' list hm x hx hxid
  · intro i hm
    obtain ⟨hlt, hall⟩ := h.finalized_gone i (hfin.mp hm)
    refine ⟨Int.lt_trans hlt (Int.lt_succ _), fun x hx => ?_⟩
    rcases List.mem_cons.mp hx with rfl | hx
    · exact Int.ne_of_gt hlt
    · exact hall x hx
  · intro te now ms' list hm
    rw [hfin]
    rcases hnew hm with rfl | hm
    · refine iff_of_false (fun hm => ?_) fun hall => hall.2 (a, te₀) List.mem_cons_self rfl
      exact absurd (h.finalized_gone _ hm).1 (Int.lt_irrefl _)
    · rw [h.finalized_iff te now ms' list hm]
      refine and_congr_right fun _ => ⟨fun hall x hx => ?_, fun hall x hx => hall x (List.mem_cons_of_mem _ hx)⟩
      rcases List.mem_cons.mp hx with rfl | hx
      · exact Int.ne_of_gt (h.issued te now ms' list hm)
      · exact hall x hx

theorem filter_of_remove {q : TimerList} (h : Ordered q) {pre post : List (Nat × AeTimeEvent)}
    {x : Nat × AeTimeEvent} (hq : q.nodes = pre ++ x :: post) :
    (pre ++ post).map Prod.snd = q.events.filter fun te => te.id != x.2.id := by
  have hkeep : ∀ l : List (Nat × AeTimeEvent), (∀ y ∈ l, y ∈ pre ++ post) →
      (l.map Prod.snd).filter (fun te => te.id != x.2.id) = l.map Prod.snd := by
    intro l hl
    refine List.filter_eq_self.mpr fun te hte => ?_
    obtain ⟨y, hy, rfl⟩ := List.mem_map.mp hte
    simpa using h.ne_of_remove hq (hl y hy)
  rw [TimerList.events, hq, List.map_append, List.map_append, List.map_cons, List.filter_append,
    List.filter_cons_of_neg (by simp), hkeep pre fun y hy => List.mem_append_left _ hy,
    hkeep post fun y hy => List.mem_append_right _ hy]

theorem createdIds_removalTrace (te : AeTimeEvent) (before after : List AeTimeEvent) (τ : List Obs) :
    createdIds (removalTrace te before after ++ τ) = createdIds τ := by
  by_cases hf : te.finalizerProc = 0 <;> simp [removalTrace, hf, createdIds]

theorem finalizedIds_removalTrace (te : AeTimeEvent) (before after : List AeTimeEvent) (τ : List Obs) :
    finalizedIds (removalTrace te before after ++ τ) =
      if te.finalizerProc = 0 then finalizedIds τ else te.id :: finalizedIds τ := by
  by_cases hf : te.finalizerProc = 0 <;> simp [removalTrace, hf, finalizedIds]

theorem Accounted.remove {q q' : TimerList} (h : Accounted q) (ho : Ordered q')
    {pre post : List (Nat × AeTimeEvent)} {x : Nat × AeTimeEvent} (hq : q.nodes = pre ++ x :: post)
    (hn : q'.nodes = pre ++ post) (hid : q'.timeEventNextId = q.timeEventNextId)
    (ht : q'.trace = removalTrace x.2 q.events ((pre ++ post).map Prod.snd) ++ q.trace) :
    Accounted q' := by
  have hx : x ∈ q.nodes := (mem_of_remove hq).mpr (.inl rfl)
  have hsub : ∀ y ∈ q'.nodes, y ∈ q.nodes := fun y hy => (mem_of_remove hq).mpr (.inr (hn ▸ hy))
  have hcreated : ∀ {te now ms list}, .created te now ms list ∈ q'.trace →
      .created te now ms list ∈ q.trace := by
    intro te now ms list hm
    rw [ht] at hm
    exact (List.mem_append.mp hm).resolve_left fun hm => by simp [mem_removalTrace] at hm
  have hfin : ∀ {i}, .finalized i ∈ q'.trace ↔
      (x.2.finalizerProc ≠ 0 ∧ i = x.2.id) ∨ .finalized i ∈ q.trace := by
    intro i
    rw [ht, List.mem_append, mem_removalTrace]
    simp
  have hxfin : .finalized x.2.id ∉ q.trace := fun hm => (h.finalized_gone _ hm).2 x hx rfl
  refine ⟨ho, ?_, ?_, ?_, ?_, ?_, ?_, ?_⟩
  · intro te now ms list hm
    exact hid ▸ h.issued te now ms list (hcreated hm)
  · rw [ht, createdIds_removalTrace]
    exact h.once
  · intro te now ms list hm y hy hyid
    exact h.agrees te now ms list (hcreated hm) y (hsub y hy) hyid
  · intro i hm
    rw [hid]
    rcases hfin.mp hm with ⟨-, rfl⟩ | hm
    · exact ⟨h.ordered.below x hx, fun y hy => h.ordered.ne_of_remove hq (hn ▸ hy)⟩
    · obtain ⟨hlt, hall⟩ := h.finalized_gone i hm
      exact ⟨hlt, fun y hy => hall y (hsub y hy)⟩
  · rw [ht, finalizedIds_removalTrace]
    split
    case isTrue => exact h.finalized_once
    case isFalse => exact List.nodup_cons.mpr ⟨fun hm => hxfin (mem_finalizedIds.mp hm), h.finalized_once⟩
  · intro te now ms list hm
    have hiff := h.finalized_iff te now ms list (hcreated hm)
    rw [hfin, hn]
    by_cases hte : te.id = x.2.id
    · have hagree := h.agrees te now ms list (hcreated hm) x hx hte.symm
      rw [hte, hagree]
      refine ⟨fun hor => ?_, fun hand => .inl ⟨hand.1, rfl⟩⟩
      rcases hor with hand | hm
      · exact ⟨hand.1, fun y hy => h.ordered.ne_of_remove hq hy⟩
      · exact absurd hm hxfin
    · have hgone : (∀ y ∈ q.nodes, y.2.id ≠ te.id) ↔ ∀ y ∈ pre ++ post, y.2.id ≠ te.id := by
        constructor
        · exact fun hall y hy => hall y ((mem_of_remove hq).mpr (.inr hy))
        · intro hall y hy
          rcases (mem_of_remove hq).mp hy with rfl | hy
          · exact fun he => hte he.symm
          · exact hall y hy
      rw [← hgone, ← hiff]
      simp [hte]
  · rw [ht]
    refine each_removalTrace.mpr ⟨h.sound, ⟨h.ordered.decreasingIds, .inl rfl, ?_, ?_⟩, fun hf => ?_⟩
    · exact iff_of_true rfl ⟨x.2, List.mem_map_of_mem hx, rfl⟩
    · exact filter_of_remove h.ordered hq
    · exact ⟨x.2, _, _, _, rfl, List.mem_map_of_mem hx, rfl, hf⟩

theorem Accounted.step {w : World} {d r : Int → Prop} {q q' : TimerList} (hs : TimerStep w d r q q')
    (h : Accounted q) : Accounted q' := by
  have ho := h.ordered.step hs
  cases hs with
  | edit he =>
    cases he with
    | create a proc clientData finalizerProc hd => exact h.create ho
    | @absent id ht hn =>
      refine h.of_quiet ho rfl rfl (τ := [_]) rfl (by simp [Obs.Quiet]) ⟨?_, h.sound⟩
      have hno : ∀ te ∈ q.events, te.id ≠ id := by
        intro te hte
        obtain ⟨y, hy, rfl⟩ := List.mem_map.mp hte
        exact hn y hy
      refine ⟨h.ordered.decreasingIds, .inr rfl, iff_of_false (by decide) ?_, ?_⟩
      · rintro ⟨te, hte, he⟩
        exact hno te hte he
      · exact (List.filter_eq_self.mpr fun te hte => by simpa using hno te hte).symm
    | remove ht hq hpre => exact h.remove ho hq rfl rfl rfl
  | enter =>
    exact h.of_quiet ho (q.enter_map w fun _ => rfl) rfl (τ := []) rfl (by simp) h.sound
  | inspect hx hdue =>
    exact h.of_quiet ho rfl rfl (τ := [_]) rfl (by simp [Obs.Quiet]) ⟨trivial, h.sound⟩
  | invoke hx hdue =>
    exact h.of_quiet ho rfl rfl (τ := [_]) rfl (by simp [Obs.Quiet]) ⟨trivial, h.sound⟩
  | reschedule hq hr hdue =>
    exact h.of_quiet ho (q.reschedule_map w hq fun _ _ => rfl) rfl (τ := [_]) rfl (by simp [Obs.Quiet])
      ⟨trivial, h.sound⟩

end CPractice
