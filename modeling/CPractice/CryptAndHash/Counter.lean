import CPractice.CryptAndHash.Ciphers

/-! AES-128 in counter mode: a cipher with blocks of 16 bytes that does not fill the last one. -/

namespace CPractice

namespace CryptAndHash

open Chunks

section Counter

variable (E : List UInt8 → List UInt8 → List UInt8)

def increment (counter : List UInt8) : List UInt8 :=
  (counter.foldr (fun b r => if r.1 then (b == 255, (b + 1) :: r.2) else (false, b :: r.2)) (true, [])).2

def counterCipher (key_bitlen : Nat) : Cipher where
  Context := List UInt8 × List UInt8
  key_bitlen := key_bitlen
  block_size := 16
  gcm := false
  setkey _ key iv := (key, iv)
  update context buffer :=
    some ((context.1, increment context.2), List.zipWith (· ^^^ ·) buffer (E context.1 context.2))
  finish _ := some []
  block_size_le := by decide

/-- The buffers, each with its own block of the key stream. -/
def stream (key : List UInt8) : List UInt8 → List (List UInt8) → List UInt8
  | _, [] => []
  | counter, buffer :: buffers => List.zipWith (· ^^^ ·) buffer (E key counter) ++ stream key (increment counter) buffers

variable {E}

theorem feed_counterCipher {n : Nat} (key counter : List UInt8) (buffers : List (List UInt8)) :
    ∃ context, feed (counterCipher E n) (key, counter) buffers = some (context, stream E key counter buffers) := by
  induction buffers generalizing counter with
  | nil => exact ⟨_, rfl⟩
  | cons buffer buffers ih =>
    obtain ⟨context, hfeed⟩ := ih (increment counter)
    exact ⟨context, feed_cons_eq_some.mpr ⟨_, _, _, rfl, hfeed, rfl⟩⟩

theorem zipWith_xor_twice {buffer block : List UInt8} (h : buffer.length ≤ block.length) :
    List.zipWith (· ^^^ ·) (List.zipWith (· ^^^ ·) buffer block) block = buffer := by
  induction buffer generalizing block with
  | nil => rfl
  | cons b buffer ih =>
    cases block with
    | nil => simp at h
    | cons c block =>
      rw [List.length_cons, List.length_cons] at h
      rw [List.zipWith_cons_cons, List.zipWith_cons_cons, ih (by omega), UInt8.xor_assoc, UInt8.xor_self, UInt8.xor_zero]

variable (hE : ∀ key counter, (E key counter).length = 16)

include hE in
theorem stream_chunks (key counter text : List UInt8) :
    (stream E key counter (chunks 16 text)).length = text.length ∧
      stream E key counter (chunks 16 (stream E key counter (chunks 16 text))) = text := by
  induction h : text.length using Nat.strongRecOn generalizing text counter with
  | ind n ih =>
    by_cases hnil : text = []
    · subst hnil
      exact ⟨h, rfl⟩
    · have hpos := List.length_pos_iff.mpr hnil
      have htake : (text.take 16).length = min 16 text.length := List.length_take
      have hdrop : (text.drop 16).length = text.length - 16 := List.length_drop
      obtain ⟨hlen, htwice⟩ := ih (text.drop 16).length (by omega) (increment counter) (text.drop 16) rfl
      rw [chunks_eq (by decide) hnil, stream]
      have hblock : (List.zipWith (· ^^^ ·) (text.take 16) (E key counter)).length = (text.take 16).length := by
        rw [List.length_zipWith, hE]
        omega
      generalize stream E key (increment counter) (chunks 16 (text.drop 16)) = rest at hlen htwice ⊢
      have hcut : (List.zipWith (· ^^^ ·) (text.take 16) (E key counter) ++ rest).take 16 =
          List.zipWith (· ^^^ ·) (text.take 16) (E key counter) ∧
          (List.zipWith (· ^^^ ·) (text.take 16) (E key counter) ++ rest).drop 16 = rest := by
        rcases Nat.lt_or_ge text.length 16 with hlt | hge
        · obtain rfl := List.eq_nil_of_length_eq_zero (show rest.length = 0 by omega)
          rw [List.append_nil]
          exact ⟨List.take_of_length_le (by omega), List.drop_of_length_le (by omega)⟩
        · exact ⟨List.take_left' (by omega), List.drop_left' (by omega)⟩
      refine ⟨by rw [List.length_append]; omega, ?_⟩
      have hne : List.zipWith (· ^^^ ·) (text.take 16) (E key counter) ++ rest ≠ [] :=
        List.append_ne_nil_of_left_ne_nil (List.ne_nil_of_length_pos (by omega)) _
      rw [chunks_eq (by decide) hne, hcut.1, hcut.2, stream, htwice, zipWith_xor_twice (by rw [hE]; omega),
        List.take_append_drop]

def counterCipher_lawful (n : Nat) : (counterCipher E n).Lawful where
  encrypt key iv text := stream E key iv (chunks 16 text)
  block_size_pos := Nat.succ_pos 15
  encrypt_blocks key iv text := by
    obtain ⟨context, hfeed⟩ := @feed_counterCipher E n key iv (chunks 16 text)
    exact ⟨context, _, [], hfeed, rfl, List.append_nil _⟩
  decrypt_blocks key iv text := by
    obtain ⟨context, hfeed⟩ := @feed_counterCipher E n key iv (chunks 16 (stream E key iv (chunks 16 text)))
    exact ⟨context, _, [], hfeed, rfl, by rw [List.append_nil, (stream_chunks hE key iv text).2]⟩
  encrypt_length key iv text := (stream_chunks hE key iv text).1.ge

end Counter

namespace Aes128

def xtime (b : UInt8) : UInt8 := if b &&& 0x80 = 0 then b <<< 1 else (b <<< 1) ^^^ 0x1B

def mul (a b : UInt8) : UInt8 :=
  ((List.range 8).foldl (fun (r : UInt8 × UInt8) i =>
    (if (b >>> UInt8.ofNat i) &&& 1 = 0 then r.1 else r.1 ^^^ r.2, xtime r.2)) (0, a)).1

/-- The power 254 is the inverse, and 0 for 0. -/
def inverse (b : UInt8) : UInt8 := (List.range 254).foldl (fun r _ => mul r b) 1

def rotate (b : UInt8) (n : Nat) : UInt8 := UInt8.ofNat (b.toNat * 2 ^ n % 2 ^ 8 + b.toNat / 2 ^ (8 - n))

def subByte (b : UInt8) : UInt8 :=
  let x := inverse b
  x ^^^ rotate x 1 ^^^ rotate x 2 ^^^ rotate x 3 ^^^ rotate x 4 ^^^ 0x63

def byte (state : List UInt8) (row column : Nat) : UInt8 := state.getD (4 * (column % 4) + row % 4) 0

def fromBytes (f : Nat → Nat → UInt8) : List UInt8 := (List.range 16).map fun i => f (i % 4) (i / 4)

def shiftRows (state : List UInt8) : List UInt8 := fromBytes fun row column => byte state row (column + row)

def mixColumns (state : List UInt8) : List UInt8 :=
  fromBytes fun row column =>
    mul 2 (byte state row column) ^^^ mul 3 (byte state (row + 1) column) ^^^ byte state (row + 2) column ^^^
      byte state (row + 3) column

def addRoundKey (roundKey state : List UInt8) : List UInt8 :=
  fromBytes fun row column => byte state row column ^^^ byte roundKey row column

/-- The first word of the next round key is made of the last one, rotated and substituted. -/
def nextRoundKey (rcon : UInt8) (roundKey : List UInt8) : List UInt8 :=
  let first := fun row => subByte (byte roundKey (row + 1) 3) ^^^ if row = 0 then rcon else 0
  fromBytes fun row column =>
    (List.range (column + 1)).foldl (fun b i => b ^^^ byte roundKey row i) (first row)

def rounds : Nat → UInt8 → List UInt8 → List UInt8 → List UInt8
  | 0, rcon, roundKey, state => addRoundKey (nextRoundKey rcon roundKey) (shiftRows (state.map subByte))
  | n + 1, rcon, roundKey, state =>
    let roundKey := nextRoundKey rcon roundKey
    rounds n (xtime rcon) roundKey (addRoundKey roundKey (mixColumns (shiftRows (state.map subByte))))

def encrypt (key block : List UInt8) : List UInt8 := rounds 9 1 key (addRoundKey key block)

theorem length_rounds (n : Nat) (rcon : UInt8) (roundKey state : List UInt8) :
    (rounds n rcon roundKey state).length = 16 := by
  induction n generalizing rcon roundKey state with
  | zero => simp [rounds, addRoundKey, fromBytes]
  | succ n ih => exact ih _ _ _

end Aes128

def aes128Ctr : Cipher := counterCipher Aes128.encrypt 128

def aes128Ctr_lawful : aes128Ctr.Lawful := counterCipher_lawful (fun _ _ => Aes128.length_rounds _ _ _ _) 128

end CryptAndHash

end CPractice
