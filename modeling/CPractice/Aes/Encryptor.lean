import CPractice.Lib.Block
import CPractice.Lib.CInt

/-! The class `Encryptor` of `encryptor.cpp`. The AES of mbedtls is outside the
repository and a parameter here. -/

namespace CPractice

open CMem

def IV_SIZE : Nat := 16
def ENCRYPTION_KEY_SIZE : Nat := 128
def ENCRYPTION_KEY_SIZE_IN_BYTES : Nat := ENCRYPTION_KEY_SIZE / 8

/-- `crypt_cbc` gets the mode, the initialization vector and the bytes, and gives back
what it returns, the vector after the call and the bytes it writes. -/
structure Mbedtls where
  aes_context : Type
  aes_init : aes_context
  aes_setkey_enc : aes_context → Vector UInt8 ENCRYPTION_KEY_SIZE_IN_BYTES → Nat → Int × aes_context
  aes_setkey_dec : aes_context → Vector UInt8 ENCRYPTION_KEY_SIZE_IN_BYTES → Nat → Int × aes_context
  aes_crypt_cbc : aes_context → Bool → Vector UInt8 IV_SIZE → List UInt8 →
    Int × Vector UInt8 IV_SIZE × List UInt8

structure Encryptor (L : Mbedtls) where
  m_aescontext : L.aes_context
  m_encrypt : Bool
  m_original_iv : Vector UInt8 IV_SIZE
  m_operating_iv : Vector UInt8 IV_SIZE
  m_encryption_key : Vector UInt8 ENCRYPTION_KEY_SIZE_IN_BYTES

def originalIv : Vector UInt8 IV_SIZE :=
  #v[0xb2, 0x4b, 0xf2, 0xf7, 0x7a, 0xc5, 0xec, 0x0c, 0x5e, 0x1f, 0x4d, 0xc1, 0xae, 0x46, 0x5e, 0x75]

variable {L : Mbedtls}

/-- The constructor sets the flag and `m_original_iv`; the rest is whatever the memory
holds. -/
def Encryptor.construct (memory : Encryptor L) : Encryptor L :=
  { memory with m_encrypt := true, m_original_iv := originalIv }

def encryptorInitialize (e : Encryptor L) (encrypt : Bool)
    (key : Vector UInt8 ENCRYPTION_KEY_SIZE_IN_BYTES) : Int × Encryptor L :=
  let e := { e with m_encrypt := encrypt, m_encryption_key := key, m_aescontext := L.aes_init }
  let r := if encrypt then L.aes_setkey_enc e.m_aescontext e.m_encryption_key ENCRYPTION_KEY_SIZE
    else L.aes_setkey_dec e.m_aescontext e.m_encryption_key ENCRYPTION_KEY_SIZE
  let e := { e with m_aescontext := r.2 }
  if r.1 ≠ 0 then (r.1, e) else (r.1, { e with m_operating_iv := e.m_original_iv })

/-- Where `output_buf` and `out_data_len` point to. -/
structure BlockOut where
  output_buf : List UInt8
  out_data_len : Nat
  deriving DecidableEq, Repr

def encryptPart (e : Encryptor L) (input_buf input_str : List UInt8) (size : Nat) (out : BlockOut) :
    Except Fault (Encryptor L × BlockOut) := do
  let output := List.replicate 1024 0
  let output_data := List.replicate 1024 0
  let enc_len := size
  let pad := 16 - enc_len % 16
  let input_str ← memset input_str size (UInt8.ofNat pad) pad
  let enc_len := enc_len + pad
  let _ ← strlen input_buf
  let r := L.aes_crypt_cbc e.m_aescontext true e.m_operating_iv (input_str.take enc_len)
  let e := { e with m_operating_iv := r.2.1 }
  if r.1 ≠ 0 then .ok (e, out)
  else
    let output ← memcpy output 0 r.2.2 enc_len
    let output_data ← memcpy output_data 0 output enc_len
    let _ ← strlen output_data
    .ok (e, { output_buf := output_data, out_data_len := enc_len })

def removePadding (output_data : List UInt8) : Except Fault BlockOut := do
  let n ← strlen output_data
  let len := CInt.toInt n
  let pad ← readInt output_data (len - 1)
  let output_data ← memsetInt output_data (len - pad.toNat) 0 pad.toNat
  .ok { output_buf := output_data, out_data_len := CInt.toSize (len - pad.toNat) }

def decryptPart (e : Encryptor L) (input_buf : List UInt8) (size : Nat) (out : BlockOut) :
    Except Fault (Encryptor L × BlockOut) := do
  let output_data := List.replicate 1024 0
  let r := L.aes_crypt_cbc e.m_aescontext false e.m_operating_iv (input_buf.take size)
  let e := { e with m_operating_iv := r.2.1 }
  if r.1 ≠ 0 then .ok (e, out)
  else
    let output_data ← memcpy output_data 0 r.2.2 size
    let out ← removePadding output_data
    .ok (e, out)

def Encryptor.encrypt_block (e : Encryptor L) (encrypt : Bool) (input_buf : List UInt8) (size : Nat)
    (out : BlockOut) : Except Fault (Encryptor L × BlockOut) := do
  let input_str ← memcpy (List.replicate 1024 0) 0 input_buf size
  if encrypt then encryptPart e input_buf input_str size out
  else decryptPart e input_buf size out

end CPractice
