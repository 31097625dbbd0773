import CPractice.Sds.Edits

/-! Runs of the string operations against byte lists. A run is a tree, since the
source of `sdsdup` and `sdscatsds` is a string that a run of its own has built. -/

namespace CPractice

open CMem CInt

inductive SdsOp where
  | catlen (t : List UInt8) (len : Nat) (fresh : Nat → UInt8)
  | cpylen (t : List UInt8) (len : Nat) (fresh : Nat → UInt8)
  | growzero (len : Nat) (fresh : Nat → UInt8)
  | makeRoomFor (addlen : Nat) (fresh : Nat → UInt8)
  | removeFreeSpace (fresh : Nat → UInt8)
  | clear
  | updatelen
  | incrLen (incr : Int)

inductive SdsRun where
  | newlen (init : Option (List UInt8)) (initlen : Nat) (fresh : Nat → UInt8)
  | new (init : Option (List UInt8)) (fresh : Nat → UInt8)
  | empty (fresh : Nat → UInt8)
  | dup (t : SdsRun) (fresh : Nat → UInt8)
  | catsds (r t : SdsRun) (fresh : Nat → UInt8)
  | op (r : SdsRun) (o : SdsOp)

def SdsOp.exec (s : Sdshdr) : SdsOp → Except Fault Sdshdr
  | .catlen t len fresh => sdscatlen (some fresh) s t len
  | .cpylen t len fresh => sdscpylen (some fresh) s t len
  | .growzero len fresh => sdsgrowzero (some fresh) s len
  | .makeRoomFor addlen fresh => sdsMakeRoomFor (some fresh) s addlen
  | .removeFreeSpace fresh => sdsRemoveFreeSpace (some fresh) s
  | .clear => sdsclear s
  | .updatelen => sdsupdatelen s
  | .incrLen incr => sdsIncrLen s incr

def SdsRun.eval : SdsRun → Except Fault Sdshdr
  | .newlen init initlen fresh => sdsnewlen (some fresh) init initlen
  | .new init fresh => sdsnew (some fresh) init
  | .empty fresh => sdsempty (some fresh)
  | .dup t fresh => do sdsdup (some fresh) (← t.eval)
  | .catsds r t fresh => do sdscatsds (some fresh) (← r.eval) (← t.eval)
  | .op r o => do SdsOp.exec (← r.eval) o

/-- The byte list an operation stands for, given the content and the whole
buffer before the call. Only `sdsIncrLen` looks behind the content. -/
def SdsOp.abstract (c buf : List UInt8) : SdsOp → List UInt8
  | .catlen t len _ => c ++ t.take len
  | .cpylen t len _ => t.take len
  | .growzero len _ => c ++ List.replicate (len - c.length) 0
  | .makeRoomFor _ _ => c
  | .removeFreeSpace _ => c
  | .clear => []
  | .updatelen => c.takeWhile (· != 0)
  | .incrLen incr => buf.take (c.length + incr).toNat

def bufAfter : Except Fault Sdshdr → List UInt8
  | .ok s => s.buf
  | .error _ => []

def SdsRun.abstract : SdsRun → List UInt8
  | .newlen (some t) initlen _ => t.take initlen
  | .newlen none initlen _ => List.replicate initlen 0
  | .new (some t) _ => t.takeWhile (· != 0)
  | .new none _ => []
  | .empty _ => []
  | .dup t _ => t.abstract
  | .catsds r t _ => r.abstract ++ t.abstract
  | .op r o => o.abstract r.abstract (bufAfter r.eval)

/-- What the callers owe: sources long enough for the bytes they are read for,
requested lengths that fit, and increments inside the buffer. -/
def SdsOp.Allowed (s : Sdshdr) : SdsOp → Prop
  | .catlen t len _ => len ≤ t.length ∧ Fits ((content s).length + len)
  | .cpylen t len _ => len ≤ t.length ∧ Fits len
  | .growzero len _ => Fits len
  | .makeRoomFor addlen _ => Fits ((content s).length + addlen)
  | .incrLen incr => -s.len ≤ incr ∧ incr ≤ s.free
  | .removeFreeSpace _ | .clear | .updatelen => True

def SdsRun.Allowed : SdsRun → Prop
  | .newlen init initlen _ => Fits initlen ∧ ∀ t ∈ init, initlen ≤ t.length
  | .new init _ => ∀ t ∈ init, 0 ∈ t ∧ Fits (t.takeWhile (· != 0)).length
  | .empty _ => True
  | .dup t _ => t.Allowed ∧ Fits t.abstract.length
  | .catsds r t _ => r.Allowed ∧ t.Allowed ∧ Fits (r.abstract.length + t.abstract.length)
  | .op r o => r.Allowed ∧ ∀ s ∈ r.eval.toOption, o.Allowed s

instance (s : Sdshdr) : (o : SdsOp) → Decidable (o.Allowed s)
  | .catlen _ _ _ | .cpylen _ _ _ | .incrLen _ => inferInstanceAs (Decidable (_ ∧ _))
  | .growzero _ _ | .makeRoomFor _ _ => inferInstanceAs (Decidable (Fits _))
  | .removeFreeSpace _ | .clear | .updatelen => inferInstanceAs (Decidable True)

instance SdsRun.decidableAllowed : (r : SdsRun) → Decidable r.Allowed
  | .newlen _ _ _ => inferInstanceAs (Decidable (_ ∧ _))
  | .new init _ => inferInstanceAs (Decidable (∀ t ∈ init, _ ∧ _))
  | .empty _ => inferInstanceAs (Decidable True)
  | .dup t _ => have := decidableAllowed t; inferInstanceAs (Decidable (_ ∧ _))
  | .catsds r t _ =>
    have := decidableAllowed r
    have := decidableAllowed t
    inferInstanceAs (Decidable (_ ∧ _ ∧ _))
  | .op r o =>
    have := decidableAllowed r
    inferInstanceAs (Decidable (_ ∧ ∀ s ∈ r.eval.toOption, o.Allowed s))

theorem Fits.lt {n : Nat} (h : Fits n) : n < 2 ^ 31 := by
  simp only [Fits] at h
  omega

theorem refines_of_eq {c slack : List UInt8} {x : Except Fault Sdshdr}
    (hx : x = .ok (sdsOf c slack)) (hb : c.length + slack.length < 2 ^ 31) :
    ∃ s, x = .ok s ∧ WellFormed s ∧ content s = c :=
  ⟨_, hx, sdsOf_wellFormed hb, content_sdsOf _ _⟩

theorem SdsOp.exec_refines {s : Sdshdr} (o : SdsOp) (h : WellFormed s) (ha : o.Allowed s) :
    ∃ s', o.exec s = .ok s' ∧ WellFormed s' ∧ content s' = o.abstract (content s) s.buf := by
  obtain ⟨slack, hs, hb⟩ := h.eq_sdsOf
  generalize content s = c at hs hb ⊢
  subst hs
  cases o with
  | catlen t len fresh =>
    obtain ⟨slack', hx, hb'⟩ := sdscatlen_ok fresh hb ha.1 (by simpa [content_sdsOf] using ha.2)
    exact refines_of_eq hx hb'
  | cpylen t len fresh =>
    obtain ⟨slack', hx, hb'⟩ := sdscpylen_ok fresh hb ha.1 ha.2
    exact refines_of_eq hx hb'
  | growzero len fresh =>
    obtain ⟨slack', hx, hb'⟩ := sdsgrowzero_ok fresh hb ha
    exact refines_of_eq hx hb'
  | makeRoomFor addlen fresh =>
    have hf : Fits (c.length + addlen) := by simpa [SdsOp.Allowed, content_sdsOf] using ha
    obtain ⟨slack', hx, -, hb'⟩ := sdsMakeRoomFor_ok fresh hb hf
    exact refines_of_eq hx hb'
  | removeFreeSpace fresh =>
    exact refines_of_eq (c := c) (sdsRemoveFreeSpace_ok fresh hb) (by rw [List.length_nil]; omega)
  | clear =>
    obtain ⟨slack', hx, hl⟩ := sdsclear_ok hb
    exact refines_of_eq (c := []) hx (by rw [List.length_nil]; omega)
  | updatelen =>
    obtain ⟨slack', hx, hl⟩ := sdsupdatelen_ok hb
    exact refines_of_eq hx (hl ▸ hb)
  | incrLen incr =>
    obtain ⟨slack', hx, hl⟩ := sdsIncrLen_ok hb ha.1 ha.2
    exact refines_of_eq hx (hl ▸ hb)

theorem SdsRun.eval_refines (r : SdsRun) (h : r.Allowed) :
    ∃ s, r.eval = .ok s ∧ WellFormed s ∧ content s = r.abstract := by
  induction r with
  | newlen init initlen fresh =>
    cases init with
    | none =>
      exact refines_of_eq (c := List.replicate initlen 0) (sdsnewlen_none initlen h.1.lt fresh)
        (by simpa using h.1.lt)
    | some t =>
      have ht : initlen ≤ t.length := h.2 t rfl
      exact refines_of_eq (c := t.take initlen) (sdsnewlen_some t ht h.1.lt fresh)
        (by rw [List.length_take_of_le ht]; exact h.1.lt)
  | new init fresh =>
    cases init with
    | none => exact refines_of_eq (c := []) (sdsnewlen_none 0 (by omega) fresh) (by simp)
    | some t =>
      obtain ⟨hz, hf⟩ := h t rfl
      have hp := List.takeWhile_prefix (p := (· != 0)) (l := t)
      have hx : sdsnew (some fresh) (some t) = .ok (sdsOf (t.takeWhile (· != 0)) []) := by
        have hn := sdsnewlen_some t hp.length_le hf.lt fresh
        rw [← List.prefix_iff_eq_take.mp hp] at hn
        simp only [sdsnew, strlen_ok hz, cString, ok_bind, hn]
      exact refines_of_eq (c := t.takeWhile (· != 0)) hx (by simpa using hf.lt)
  | empty fresh =>
    exact refines_of_eq (c := []) (sdsnewlen_some [0] (Nat.zero_le _) (by omega) fresh) (by simp)
  | dup t fresh ih =>
    obtain ⟨s, hs, hw, hc⟩ := ih h.1
    obtain ⟨slack, he, hb⟩ := hw.eq_sdsOf
    rw [hc] at he hb
    have hlen : t.abstract.length ≤ s.buf.length := by rw [he]; simp [sdsOf]
    have hx := sdsnewlen_some s.buf hlen h.2.lt fresh
    have htake : s.buf.take t.abstract.length = t.abstract := by rw [he]; simp [sdsOf]
    rw [htake] at hx
    have hl : sdslen s = t.abstract.length := by rw [he]; exact sdslen_sdsOf h.2.lt
    have hrun : (SdsRun.dup t fresh).eval = .ok (sdsOf t.abstract []) := by
      simp only [SdsRun.eval, hs, ok_bind, sdsdup, hl, hx]
    exact refines_of_eq (c := t.abstract) hrun (by simpa using h.2.lt)
  | catsds r t fresh ihr iht =>
    obtain ⟨s, hs, hw, hc⟩ := ihr h.1
    obtain ⟨s', hs', hw', hc'⟩ := iht h.2.1
    obtain ⟨slack, he, hb⟩ := hw.eq_sdsOf
    obtain ⟨slack', he', hb'⟩ := hw'.eq_sdsOf
    rw [hc] at he hb
    rw [hc'] at he' hb'
    have hlen : t.abstract.length ≤ s'.buf.length := by rw [he']; simp [sdsOf]
    obtain ⟨slack'', hx, hb''⟩ := sdscatlen_ok fresh hb hlen h.2.2
    have htake : s'.buf.take t.abstract.length = t.abstract := by rw [he']; simp [sdsOf]
    rw [htake] at hx hb''
    have hl : sdslen s' = t.abstract.length := by rw [he']; exact sdslen_sdsOf (by omega)
    refine ⟨_, ?_, sdsOf_wellFormed hb'', content_sdsOf _ _⟩
    simp only [SdsRun.eval, hs, hs', ok_bind, sdscatsds, hl]
    rw [he, hx]
  | op r o ih =>
    obtain ⟨s, hs, hw, hc⟩ := ih h.1
    obtain ⟨s', hx, hw', hc'⟩ := o.exec_refines hw (h.2 s (by simp [hs, Except.toOption]))
    refine ⟨s', by simp only [SdsRun.eval, hs, ok_bind, hx], hw', ?_⟩
    rw [hc', hc, SdsRun.abstract, hs]
    rfl

def sampleRun : SdsRun :=
  .op (.op (.op (.new (some [97, 98, 0]) fun _ => 7) (.catlen [99, 0, 100] 3 fun _ => 7))
    (.incrLen 2)) .updatelen

theorem sampleRun_refines : sampleRun.Allowed ∧
    ∃ s, sampleRun.eval = .ok s ∧ WellFormed s ∧ content s = sampleRun.abstract :=
  ⟨by decide, sampleRun.eval_refines (by decide)⟩

end CPractice
