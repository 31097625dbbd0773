import CPractice.Sds.Chars
import Mathlib.Data.List.TakeWhile

/-! The functions of GLib that cut a string into tokens. -/

namespace CPractice

namespace Libnice

structure GLib where
  g_strsplit : List UInt8 → List UInt8 → Int → List (List UInt8)
  g_strsplit_set : List UInt8 → List UInt8 → Int → List (List UInt8)

/-- At most `n` tokens with `d` between them. Only the last of `n` tokens may contain `d`. -/
structure Pieces (d : UInt8) (n : Int) (string : List UInt8) (tokens : List (List UInt8)) : Prop where
  joined : [d].intercalate tokens = string
  length_le : tokens.length ≤ n
  not_mem_dropLast : ∀ t ∈ tokens.dropLast, d ∉ t
  not_mem : tokens.length < n → ∀ t ∈ tokens, d ∉ t

/-- What the documentation of GLib says. -/
structure GLib.Lawful (g : GLib) : Prop where
  g_strsplit_nil : ∀ delimiter n, g.g_strsplit [] delimiter n = []
  g_strsplit_pieces : ∀ string d n, string ≠ [] → 0 < n → Pieces d n string (g.g_strsplit string [d] n)
  g_strsplit_set_nil : ∀ delimiters n, g.g_strsplit_set [] delimiters n = []
  g_strsplit_set_all : ∀ string delimiters, string ≠ [] →
    g.g_strsplit_set string delimiters 0 = string.splitOnP delimiters.contains

section Pieces

variable {d : UInt8} {n : Int} {s t u : List UInt8} {ts us : List (List UInt8)}

theorem pieces_singleton : Pieces d n s [t] ↔ t = s ∧ 1 ≤ n ∧ (1 < n → d ∉ s) := by
  constructor
  · rintro ⟨rfl, hlen, -, hmem⟩
    exact ⟨List.intercalate_singleton.symm, hlen, fun hn => by simpa using hmem hn⟩
  · rintro ⟨rfl, hlen, hmem⟩
    exact ⟨List.intercalate_singleton, hlen, by simp, fun hn => by simpa using hmem hn⟩

theorem pieces_cons_cons : Pieces d n s (t :: u :: us) ↔
    ∃ rest, s = t ++ d :: rest ∧ d ∉ t ∧ Pieces d (n - 1) rest (u :: us) := by
  constructor
  · rintro ⟨rfl, hlen, hinit, hmem⟩
    rw [List.dropLast_cons_cons, List.forall_mem_cons] at hinit
    simp only [List.length_cons, Nat.cast_add, Nat.cast_one] at hlen hmem
    refine ⟨[d].intercalate (u :: us), by simp, hinit.1, rfl, ?_, hinit.2, fun hn => ?_⟩
    · simp only [List.length_cons, Nat.cast_add, Nat.cast_one]
      omega
    · simp only [List.length_cons, Nat.cast_add, Nat.cast_one] at hn
      exact (List.forall_mem_cons.mp (hmem (by omega))).2
  · rintro ⟨rest, rfl, ht, rfl, hlen, hinit, hmem⟩
    simp only [List.length_cons, Nat.cast_add, Nat.cast_one] at hlen hmem
    refine ⟨by simp, ?_, ?_, fun hn => ?_⟩
    · simp only [List.length_cons, Nat.cast_add, Nat.cast_one]
      omega
    · rw [List.dropLast_cons_cons, List.forall_mem_cons]
      exact ⟨ht, hinit⟩
    · simp only [List.length_cons, Nat.cast_add, Nat.cast_one] at hn
      exact List.forall_mem_cons.mpr ⟨ht, hmem (by omega)⟩

theorem Pieces.ne_nil (h : Pieces d n s ts) (hs : s ≠ []) : ts ≠ [] := by
  rintro rfl
  exact hs (by rw [← h.joined, List.intercalate_nil])

theorem append_cons_inj {rest rest' : List UInt8} (ht : d ∉ t) (hu : d ∉ u) (h : t ++ d :: rest = u ++ d :: rest') :
    t = u ∧ rest = rest' := by
  rcases List.append_eq_append_iff.mp h with ⟨c, rfl, hc⟩ | ⟨c, rfl, hc⟩
  · cases c with
    | nil => simpa using hc
    | cons b c => simp_all
  · cases c with
    | nil => simpa using hc.symm
    | cons b c => simp_all

/-- The documentation leaves no choice. -/
theorem Pieces.unique (ht : Pieces d n s ts) (hu : Pieces d n s us) (hts : ts ≠ []) (hus : us ≠ []) : ts = us := by
  induction ts generalizing n s us with
  | nil => exact absurd rfl hts
  | cons t ts ih =>
    cases us with
    | nil => exact absurd rfl hus
    | cons u us =>
      cases ts with
      | nil =>
        obtain ⟨rfl, -, hmem⟩ := pieces_singleton.mp ht
        cases us with
        | nil => rw [(pieces_singleton.mp hu).1]
        | cons v us =>
          obtain ⟨rest, rfl, -, -⟩ := pieces_cons_cons.mp hu
          have hlen := hu.length_le
          simp only [List.length_cons, Nat.cast_add, Nat.cast_one] at hlen
          exact absurd (by simp) (hmem (by omega))
      | cons t' ts =>
        obtain ⟨rest, rfl, hd, htail⟩ := pieces_cons_cons.mp ht
        cases us with
        | nil =>
          obtain ⟨-, -, hmem⟩ := pieces_singleton.mp hu
          have hlen := ht.length_le
          simp only [List.length_cons, Nat.cast_add, Nat.cast_one] at hlen
          exact absurd (by simp) (hmem (by omega))
        | cons u' us =>
          obtain ⟨rest', heq, hd', htail'⟩ := pieces_cons_cons.mp hu
          obtain ⟨rfl, rfl⟩ := append_cons_inj hd hd' heq
          rw [ih htail htail' (List.cons_ne_nil _ _) (List.cons_ne_nil _ _)]

end Pieces

section Documented

def splitAtMost (d : UInt8) : Nat → List UInt8 → List (List UInt8)
  | 0, s => [s]
  | n + 1, s =>
    match s.dropWhile (· != d) with
    | [] => [s]
    | _ :: rest => s.takeWhile (· != d) :: splitAtMost d n rest

theorem splitAtMost_ne_nil {d : UInt8} {n : Nat} {s : List UInt8} : splitAtMost d n s ≠ [] := by
  cases n with
  | zero => simp [splitAtMost]
  | succ n =>
    rw [splitAtMost]
    split <;> simp

theorem splitAtMost_pieces (d : UInt8) (n : Nat) (s : List UInt8) : Pieces d (n + 1) s (splitAtMost d n s) := by
  induction n generalizing s with
  | zero => exact pieces_singleton.mpr ⟨rfl, by omega, by omega⟩
  | succ n ih =>
    rw [splitAtMost]
    split
    case h_1 hdrop =>
      refine pieces_singleton.mpr ⟨rfl, by omega, fun _ hd => ?_⟩
      simpa using List.dropWhile_eq_nil_iff.mp hdrop d hd
    case h_2 c rest hdrop =>
      have hc : c = d := by
        have hhead := List.head?_dropWhile_not (· != d) s
        rw [hdrop] at hhead
        simpa using hhead
      obtain ⟨u, us, hus⟩ := List.exists_cons_of_ne_nil (@splitAtMost_ne_nil d n rest)
      have htail := ih rest
      rw [hus] at htail ⊢
      refine pieces_cons_cons.mpr ⟨rest, ?_, fun hd => by simpa using List.mem_takeWhile_imp hd, ?_⟩
      · rw [← hc, ← hdrop, hc, List.takeWhile_append_dropWhile]
      · rwa [Nat.cast_add, Nat.cast_one, add_sub_cancel_right]

/-- The two functions for delimiters of one character and for all tokens. -/
def glib : GLib where
  g_strsplit string delimiter n :=
    if string = [] then [] else
    match delimiter with
    | [d] => splitAtMost d (n.toNat - 1) string
    | _ => [string]
  g_strsplit_set string delimiters _ := if string = [] then [] else string.splitOnP delimiters.contains

theorem glib_lawful : glib.Lawful where
  g_strsplit_nil _ _ := by simp [glib]
  g_strsplit_pieces string d n hs hn := by
    have h := splitAtMost_pieces d (n.toNat - 1) string
    have hcast : ((n.toNat - 1 : Nat) : Int) + 1 = n := by omega
    rw [hcast] at h
    simpa only [glib, if_neg hs] using h
  g_strsplit_set_nil _ _ := by simp [glib]
  g_strsplit_set_all _ _ hs := if_neg hs

end Documented

end Libnice

end CPractice
