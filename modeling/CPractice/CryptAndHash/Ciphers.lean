import CPractice.CryptAndHash.Program

/-! What the program relies on in mbedtls and in the file system, and that MD4 and the null cipher,
the simplest it can be asked for, are like that. -/

namespace CPractice

namespace CryptAndHash

open Chunks

def World.Works (w : World) : Prop := (∀ k, w.fails k = false) ∧ ∀ k n, w.bytes k n = n

/-- The context after a list of updates, and all that they have written. -/
def feed (cipher : Cipher) : cipher.Context → List (List UInt8) → Option (cipher.Context × List UInt8)
  | context, [] => some (context, [])
  | context, buffer :: buffers => do
    let (context, output) ← cipher.update context buffer
    let (context, outputs) ← feed cipher context buffers
    return (context, output ++ outputs)

theorem feed_cons_eq_some {cipher : Cipher} {context context' : cipher.Context} {buffer out : List UInt8}
    {buffers : List (List UInt8)} :
    feed cipher context (buffer :: buffers) = some (context', out) ↔ ∃ context₁ out₁ out₂,
      cipher.update context buffer = some (context₁, out₁) ∧ feed cipher context₁ buffers = some (context', out₂) ∧
        out₁ ++ out₂ = out := by
  simp only [feed, Option.bind_eq_bind, Option.bind_eq_some_iff, Prod.exists, Option.pure_def, Option.some.injEq,
    Prod.mk.injEq]
  constructor
  · rintro ⟨context₁, out₁, hupdate, context₂, out₂, hfeed, rfl, hout⟩
    exact ⟨context₁, out₁, out₂, hupdate, hfeed, hout⟩
  · rintro ⟨context₁, out₁, out₂, hupdate, hfeed, hout⟩
    exact ⟨context₁, out₁, hupdate, context', out₂, hfeed, rfl, hout⟩

/-- A file is fed to the cipher in blocks, the last of which may be shorter, and decryption undoes
encryption then. -/
structure Cipher.Lawful (cipher : Cipher) where
  encrypt : List UInt8 → List UInt8 → List UInt8 → List UInt8
  block_size_pos : 0 < cipher.block_size
  encrypt_blocks : ∀ key iv text, ∃ context output last,
    feed cipher (cipher.setkey .encrypt key iv) (chunks cipher.block_size text) = some (context, output) ∧
      cipher.finish context = some last ∧ output ++ last = encrypt key iv text
  decrypt_blocks : ∀ key iv text, ∃ context output last,
    feed cipher (cipher.setkey .decrypt key iv) (chunks cipher.block_size (encrypt key iv text)) =
        some (context, output) ∧
      cipher.finish context = some last ∧ output ++ last = text
  encrypt_length : ∀ key iv text, text.length ≤ (encrypt key iv text).length

namespace Md4

structure State where
  a : UInt32
  b : UInt32
  c : UInt32
  d : UInt32

def littleEndian (word : UInt32) : List UInt8 := (List.range 4).map fun i => UInt8.ofNat (word.toNat >>> (8 * i))

def words : List UInt8 → List UInt32
  | a :: b :: c :: d :: rest =>
    UInt32.ofNat (a.toNat + 2 ^ 8 * b.toNat + 2 ^ 16 * c.toNat + 2 ^ 24 * d.toNat) :: words rest
  | _ => []

def rotate (word : UInt32) (n : Nat) : UInt32 :=
  UInt32.ofNat (word.toNat * 2 ^ n % 2 ^ 32 + word.toNat / 2 ^ (32 - n))

/-- A step takes the word and the shift that are its turn. -/
def step (f : UInt32 → UInt32 → UInt32 → UInt32) (k : UInt32) (block : List UInt32) (s : State) (turn : Nat × Nat) :
    State :=
  ⟨s.d, rotate (s.a + f s.b s.c s.d + block.getD turn.1 0 + k) turn.2, s.b, s.c⟩

def turns (order shifts : List Nat) : List (Nat × Nat) := order.zip (List.replicate 4 shifts).flatten

def process (s : State) (block : List UInt32) : State :=
  let t := (turns (List.range 16) [3, 7, 11, 19]).foldl
    (step (fun x y z => (x &&& y) ||| (x.complement &&& z)) 0 block) s
  let t := (turns [0, 4, 8, 12, 1, 5, 9, 13, 2, 6, 10, 14, 3, 7, 11, 15] [3, 5, 9, 13]).foldl
    (step (fun x y z => (x &&& y) ||| (x &&& z) ||| (y &&& z)) 0x5A827999 block) t
  let t := (turns [0, 8, 4, 12, 2, 10, 6, 14, 1, 9, 5, 13, 3, 11, 7, 15] [3, 9, 11, 15]).foldl
    (step (fun x y z => x ^^^ y ^^^ z) 0x6ED9EBA1 block) t
  ⟨s.a + t.a, s.b + t.b, s.c + t.c, s.d + t.d⟩

def pad (message : List UInt8) : List UInt8 :=
  message ++ [(0x80 : UInt8)] ++ List.replicate ((119 - message.length % 64) % 64) (0 : UInt8) ++
    sizeBytes (8 * message.length)

def digest (message : List UInt8) : List UInt8 :=
  let s := (chunks 16 (words (pad message))).foldl process ⟨0x67452301, 0xEFCDAB89, 0x98BADCFE, 0x10325476⟩
  littleEndian s.a ++ littleEndian s.b ++ littleEndian s.c ++ littleEndian s.d

theorem length_digest (message : List UInt8) : (digest message).length = 16 := by simp [digest, littleEndian]

def hmac (key message : List UInt8) : List UInt8 :=
  let key := if 64 < key.length then digest key else key
  let padded := key ++ List.replicate (64 - key.length) 0
  digest (padded.map (· ^^^ 0x5C) ++ digest (padded.map (· ^^^ 0x36) ++ message))

end Md4

def md4 : Md where
  size := 16
  hash := Md4.digest
  hmac := Md4.hmac
  size_range := by decide
  hash_length := Md4.length_digest
  hmac_length _ _ := Md4.length_digest _

def nullCipher : Cipher where
  Context := Unit
  key_bitlen := 0
  block_size := 1
  gcm := false
  setkey _ _ _ := ()
  update _ buffer := some ((), buffer)
  finish _ := some []
  block_size_le := by decide

theorem feed_nullCipher (buffers : List (List UInt8)) :
    feed nullCipher () buffers = some ((), buffers.flatten) := by
  induction buffers with
  | nil => rfl
  | cons buffer buffers ih => exact feed_cons_eq_some.mpr ⟨(), buffer, _, rfl, ih, rfl⟩

theorem feed_chunks_nullCipher (text : List UInt8) :
    feed nullCipher () (chunks nullCipher.block_size text) = some ((), text) :=
  (feed_nullCipher _).trans (congrArg (fun l => some ((), l)) (flatten_chunks Nat.one_pos text))

def nullCipher_lawful : nullCipher.Lawful where
  encrypt _ _ text := text
  block_size_pos := Nat.one_pos
  encrypt_blocks _ _ text := ⟨(), text, [], feed_chunks_nullCipher text, rfl, List.append_nil text⟩
  decrypt_blocks _ _ text := ⟨(), text, [], feed_chunks_nullCipher text, rfl, List.append_nil text⟩
  encrypt_length _ _ _ := Nat.le_refl _

def works : World := ⟨fun _ => false, fun _ n => n⟩

theorem works_works : works.Works := ⟨fun _ => rfl, fun _ _ => rfl⟩

end CryptAndHash

end CPractice
