import CPractice.Lib.Block
import CPractice.Lib.Chunks
import CPractice.Lib.CInt

/-! `crypt_and_hash`, which encrypts a file with any cipher of mbedtls and puts an HMAC
behind it. mbedtls and the file system are outside the repository: every call of them
may fail. -/

namespace CPractice

namespace CryptAndHash

open CMem CInt Chunks

inductive Operation where
  | encrypt
  | decrypt
  deriving DecidableEq, Repr

structure Md where
  size : Nat
  hash : List UInt8 → List UInt8
  hmac : List UInt8 → List UInt8 → List UInt8
  size_range : 16 ≤ size ∧ size ≤ 64
  hash_length : ∀ m, (hash m).length = size
  hmac_length : ∀ k m, (hmac k m).length = size

/-- A cipher of mbedtls. `setkey` gets the key and the initialization vector. -/
structure Cipher where
  Context : Type
  key_bitlen : Nat
  block_size : Nat
  gcm : Bool
  setkey : Operation → List UInt8 → List UInt8 → Context
  update : Context → List UInt8 → Option (Context × List UInt8)
  finish : Context → Option (List UInt8)
  block_size_le : block_size ≤ 16

/-- What happens at the call with a number: whether it fails, and how many of the bytes
that `fread` or `fwrite` is asked for it handles. -/
structure World where
  fails : Nat → Bool
  bytes : Nat → Nat → Nat

structure Files where
  fin : List UInt8
  fout : List UInt8
  calls : Nat

inductive Exit where
  | failure (message : String) (fout : List UInt8)
  | fault (fault : Fault)
  deriving DecidableEq, Repr

def library (w : World) (message : String) (s : Files) : Except Exit Files :=
  if w.fails s.calls then .error (.failure message s.fout) else .ok { s with calls := s.calls + 1 }

def fread (w : World) (message : String) (n : Nat) (s : Files) : Except Exit (List UInt8 × Files) :=
  let buffer := s.fin.take (min n (w.bytes s.calls n))
  if 1024 < buffer.length then .error (.fault .outOfBounds)
  else if buffer.length ≠ n then .error (.failure message s.fout)
  else .ok (buffer, { s with fin := s.fin.drop n, calls := s.calls + 1 })

def fwrite (w : World) (message : String) (output : List UInt8) (s : Files) : Except Exit Files :=
  let n := min output.length (w.bytes s.calls output.length)
  let fout := s.fout ++ output.take n
  if n ≠ output.length then .error (.failure message fout) else .ok { s with fout, calls := s.calls + 1 }

def bytesFailed (call : String) (n : Nat) : String := call ++ "(" ++ toString n ++ " bytes) failed\n"

def returnedError (function : String) : String := function ++ "() returned error\n"

def md_digest (w : World) (md : Md) (parts : List (List UInt8)) (digest : List UInt8) (s : Files) :
    Except Exit (List UInt8 × Files) := do
  let s ← library w (returnedError "mbedtls_md_starts") s
  let s ← parts.foldlM (fun s _ => library w (returnedError "mbedtls_md_update") s) s
  let s ← library w (returnedError "mbedtls_md_finish") s
  return (md.hash parts.flatten ++ digest.drop md.size, s)

def hashRounds (w : World) (md : Md) (key : List UInt8) : Nat → List UInt8 → Files →
    Except Exit (List UInt8 × Files)
  | 0, digest, s => .ok (digest, s)
  | n + 1, digest, s => do
    let (digest, s) ← md_digest w md [digest.take 32, key] digest s
    hashRounds w md key n digest s

/-- Hash the IV and the secret key together 8192 times; the result sets up the cipher and
the HMAC. -/
def setup (w : World) (cipher : Cipher) (md : Md) (op : Operation) (key IV digest : List UInt8) (s : Files) :
    Except Exit (cipher.Context × List UInt8 × Files) := do
  let digest := IV ++ List.replicate 16 0 ++ digest.drop 32
  let (digest, s) ← hashRounds w md key 8192 digest s
  let s ← library w (returnedError "mbedtls_cipher_setkey") s
  let s ← library w (returnedError "mbedtls_cipher_set_iv") s
  let s ← library w (returnedError "mbedtls_cipher_reset") s
  let s ← library w (returnedError "mbedtls_md_hmac_starts") s
  return (cipher.setkey op (digest.take (cipher.key_bitlen / 8)) IV, digest, s)

def cipher_update (w : World) (cipher : Cipher) (context : cipher.Context) (buffer : List UInt8) (s : Files) :
    Except Exit (cipher.Context × List UInt8 × Files) := do
  let s ← library w (returnedError "mbedtls_cipher_update") s
  match cipher.update context buffer with
  | none => .error (.failure (returnedError "mbedtls_cipher_update") s.fout)
  | some (context, output) => return (context, output, s)

def cipher_finish (w : World) (cipher : Cipher) (context : cipher.Context) (s : Files) :
    Except Exit (List UInt8 × Files) := do
  let s ← library w (returnedError "mbedtls_cipher_finish") s
  match cipher.finish context with
  | none => .error (.failure (returnedError "mbedtls_cipher_finish") s.fout)
  | some output => return (output, s)

/-- The file size is converted to `unsigned int` before the offset is subtracted, the
difference behind it afterwards. -/
def chunkLength (block_size filesize offset : Nat) : Nat :=
  if (toUnsigned filesize : Int) - offset > block_size then block_size else toUnsigned (filesize - offset)

/-- The HMAC is of the bytes written when it encrypts, and of the bytes read when it decrypts. -/
def cryptLoop (w : World) (cipher : Cipher) (op : Operation) (filesize : Nat) :
    Nat → Nat → cipher.Context → List UInt8 → Files → Except Exit (cipher.Context × List UInt8 × Files)
  | 0, _, _, _, _ => .error (.fault .diverges)
  | fuel + 1, offset, context, hmac, s =>
    if offset < filesize then do
      let ilen := chunkLength cipher.block_size filesize offset
      match op with
      | .encrypt =>
        let (buffer, s) ← fread w (bytesFailed "fread" ilen) ilen s
        let (context, output, s) ← cipher_update w cipher context buffer s
        let s ← library w (returnedError "mbedtls_md_hmac_update") s
        let s ← fwrite w (bytesFailed "fwrite" output.length) output s
        cryptLoop w cipher op filesize fuel (offset + cipher.block_size) context (hmac ++ output) s
      | .decrypt =>
        let (buffer, s) ← fread w (bytesFailed "fread" cipher.block_size) ilen s
        let s ← library w (returnedError "mbedtls_md_hmac_update") s
        let (context, output, s) ← cipher_update w cipher context buffer s
        let s ← fwrite w (bytesFailed "fwrite" output.length) output s
        cryptLoop w cipher op filesize fuel (offset + cipher.block_size) context (hmac ++ buffer) s
    else .ok (context, hmac, s)

def sizeBytes (filesize : Nat) : List UInt8 := (List.range 8).map fun i => UInt8.ofNat (filesize >>> (8 * i))

def encryptFile (w : World) (cipher : Cipher) (md : Md) (key name digest file : List UInt8) :
    Except Exit (List UInt8) := do
  let filesize := file.length
  let s : Files := ⟨file, [], 0⟩
  let (digest, s) ← md_digest w md [sizeBytes filesize, name] digest s
  let IV := digest.take 16
  let s ← fwrite w (bytesFailed "fwrite" 16) IV s
  let (context, digest, s) ← setup w cipher md .encrypt key IV digest s
  let (context, hmac, s) ← cryptLoop w cipher .encrypt filesize (filesize + 1) 0 context [] s
  let (output, s) ← cipher_finish w cipher context s
  let s ← library w (returnedError "mbedtls_md_hmac_update") s
  let s ← fwrite w (bytesFailed "fwrite" output.length) output s
  let s ← library w (returnedError "mbedtls_md_hmac_finish") s
  let s ← fwrite w (bytesFailed "fwrite" md.size) (md.hmac (digest.take 32) (hmac ++ output)) s
  return s.fout

def differ (digest buffer : List UInt8) : UInt8 := (List.zipWith (· ^^^ ·) digest buffer).foldl (· ||| ·) 0

def notMultiple (block_size : Nat) : String :=
  "File content not a multiple of the block size (" ++ toString block_size ++ ").\n"

def decryptFile (w : World) (cipher : Cipher) (md : Md) (key digest file : List UInt8) :
    Except Exit (List UInt8) := do
  let s : Files := ⟨file, [], 0⟩
  if file.length < 16 + md.size then .error (.failure "File too short to be encrypted.\n" s.fout)
  else if cipher.block_size = 0 then .error (.failure "Invalid cipher block size: 0. \n" s.fout)
  else if cipher.gcm = false ∧ (file.length - md.size) % cipher.block_size ≠ 0 then
    .error (.failure (notMultiple cipher.block_size) s.fout)
  else
    let filesize := file.length - (16 + md.size)
    let (IV, s) ← fread w (bytesFailed "fread" 16) 16 s
    let (context, digest, s) ← setup w cipher md .decrypt key IV digest s
    let (context, hmac, s) ← cryptLoop w cipher .decrypt filesize (filesize + 1) 0 context [] s
    let s ← library w (returnedError "mbedtls_md_hmac_finish") s
    let (buffer, s) ← fread w (bytesFailed "fread" md.size) md.size s
    if differ (md.hmac (digest.take 32) hmac) buffer ≠ 0 then
      .error (.failure "HMAC check failed: wrong key, or file corrupted.\n" s.fout)
    else
      let (output, s) ← cipher_finish w cipher context s
      let s ← fwrite w (bytesFailed "fwrite" output.length) output s
      return s.fout

end CryptAndHash

end CPractice
