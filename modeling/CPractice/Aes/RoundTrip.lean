import CPractice.Aes.Blocks
import CPractice.Lib.Cbc

/-! What comes back from an `Encryptor` for decryption. It looks for the end of the
padding with `strlen`, so the messages may not hold a zero byte. -/

namespace CPractice

open CMem

/-- The documented behaviour of mbedtls: keys of 128 bits are accepted, CBC takes whole
blocks, decryption inverts encryption, and both leave the last block of the ciphertext
in the initialization vector. -/
structure Mbedtls.Lawful (L : Mbedtls) : Prop where
  setkey_enc : ∀ key, (L.aes_setkey_enc L.aes_init key ENCRYPTION_KEY_SIZE).1 = 0
  setkey_dec : ∀ key, (L.aes_setkey_dec L.aes_init key ENCRYPTION_KEY_SIZE).1 = 0
  encrypts : ∀ key iv input, 16 ∣ input.length → input ≠ [] → ∃ iv' output,
    L.aes_crypt_cbc (L.aes_setkey_enc L.aes_init key ENCRYPTION_KEY_SIZE).2 true iv input =
      (0, iv', output) ∧ output.length = input.length ∧ iv'.toList = output.drop (output.length - 16)
  decrypts : ∀ key iv iv' input output, 16 ∣ input.length → input ≠ [] →
    L.aes_crypt_cbc (L.aes_setkey_enc L.aes_init key ENCRYPTION_KEY_SIZE).2 true iv input =
      (0, iv', output) → ∃ iv'',
    L.aes_crypt_cbc (L.aes_setkey_dec L.aes_init key ENCRYPTION_KEY_SIZE).2 false iv output =
      (0, iv'', input) ∧ iv''.toList = output.drop (output.length - 16)

variable {L : Mbedtls}

/-- The messages are encrypted in order; each comes from a string with its terminator. -/
def encryptAll (e : Encryptor L) : List (List UInt8) → Except Fault (List BlockOut)
  | [] => .ok []
  | m :: ms => do
    let r ← e.encrypt_block true (m ++ [0]) m.length noOutput
    let outs ← encryptAll r.1 ms
    .ok (r.2 :: outs)

def decryptAll (e : Encryptor L) : List BlockOut → Except Fault (List BlockOut)
  | [] => .ok []
  | o :: os => do
    let r ← e.encrypt_block false o.output_buf o.out_data_len noOutput
    let outs ← decryptAll r.1 os
    .ok (r.2 :: outs)

/-- The two objects are constructed in `memory` and `memory'` and initialized with the
same key. -/
def RoundTrips (key : Vector UInt8 ENCRYPTION_KEY_SIZE_IN_BYTES) (memory memory' : Encryptor L)
    (ms : List (List UInt8)) : Prop :=
  (encryptorInitialize memory.construct true key).1 = 0 ∧
  (encryptorInitialize memory'.construct false key).1 = 0 ∧
  ∃ outs outs', encryptAll (encryptorInitialize memory.construct true key).2 ms = .ok outs ∧
    decryptAll (encryptorInitialize memory'.construct false key).2 outs = .ok outs' ∧
    List.Forall₂ BlockOut.Is ms outs'

section Calls

variable {e : Encryptor L} {m : List UInt8} {iv : Vector UInt8 IV_SIZE} {output : List UInt8}

def decrypted (m : List UInt8) : List UInt8 := withPadding m ++ List.replicate (1024 - (withPadding m).length) 0

theorem encrypt_block_encrypts (hm : m.length ≤ 1007)
    (hcrypt : L.aes_crypt_cbc e.m_aescontext true e.m_operating_iv (withPadding m) = (0, iv, output))
    (hlen : output.length = (withPadding m).length) (out : BlockOut) :
    e.encrypt_block true (m ++ [0]) m.length out =
      .ok ({ e with m_operating_iv := iv },
        { output_buf := inBuffer output, out_data_len := (withPadding m).length }) := by
  have hle := withPadding_le hm
  have htake : (m ++ [0]).take m.length = m := List.take_left
  rw [← htake] at hcrypt hlen
  have hscan := strlen_ok (zero_mem_tail output (show 0 < 1024 - output.length by rw [hlen, htake]; omega))
  rw [encrypt_block_true (by simp) (by simp) (by omega) hcrypt (fun _ => hlen), if_neg (not_not.mpr rfl), inBuffer,
    hscan, ok_bind, hlen, htake]

theorem removePadding_of_no_zero (hm : m.length ≤ 1007) (h0 : (0 : UInt8) ∉ m) :
    ∃ o, removePadding (decrypted m) = .ok o ∧ o.Is m := by
  have hpos := padding_pos m
  have hle := padding_le m
  obtain ⟨o, ho, his, -⟩ := removePadding_padded hpos hle (by omega) h0
  exact ⟨o, ho, his⟩

theorem removePadding_of_zero (hm : m.length ≤ 1007) (h0 : (0 : UInt8) ∈ m) {o : BlockOut}
    (h : removePadding (decrypted m) = .ok o) : ¬ o.Is m := by
  have hle := withPadding_le hm
  have hbuf : (decrypted m).length ≤ 1024 := le_of_eq (inBuffer_length (by omega))
  obtain ⟨n, hn, hlt⟩ := strlen_lt_of_zero h0 (List.replicate (padding m) (UInt8.ofNat (padding m)) ++
    List.replicate (1024 - (withPadding m).length) 0)
  rw [← List.append_assoc] at hn
  obtain ⟨-, b, -, -, rfl⟩ := (removePadding_ok_iff hn hbuf o).mp h
  intro his
  have hlen : n - b.toNat = m.length := his.1
  omega

theorem encrypt_block_decrypts (hm : m.length ≤ 1007) (hlen : output.length = (withPadding m).length)
    (hcrypt : L.aes_crypt_cbc e.m_aescontext false e.m_operating_iv output = (0, iv, withPadding m))
    (out : BlockOut) :
    e.encrypt_block false (inBuffer output) (withPadding m).length out =
      removePadding (decrypted m) >>= fun o => .ok ({ e with m_operating_iv := iv }, o) := by
  have hle := withPadding_le hm
  have htake : (inBuffer output).take (withPadding m).length = output := by
    rw [← hlen, inBuffer, List.take_left]
  rw [encrypt_block_false (by rw [inBuffer_length (by omega)]; omega) (by omega) (by rw [htake]; exact hcrypt)
    (fun _ => rfl), if_neg (not_not.mpr rfl), inBuffer, decrypted]

end Calls

theorem runAll_iff (hL : L.Lawful) (key : Vector UInt8 ENCRYPTION_KEY_SIZE_IN_BYTES) {e₁ e₂ : Encryptor L}
    (he₁ : e₁.m_aescontext = (L.aes_setkey_enc L.aes_init key ENCRYPTION_KEY_SIZE).2)
    (he₂ : e₂.m_aescontext = (L.aes_setkey_dec L.aes_init key ENCRYPTION_KEY_SIZE).2)
    (hiv : e₁.m_operating_iv = e₂.m_operating_iv) {ms : List (List UInt8)}
    (hms : ∀ m ∈ ms, m.length ≤ 1007) :
    (∃ outs outs', encryptAll e₁ ms = .ok outs ∧ decryptAll e₂ outs = .ok outs' ∧
      List.Forall₂ BlockOut.Is ms outs') ↔ ∀ m ∈ ms, (0 : UInt8) ∉ m := by
  induction ms generalizing e₁ e₂ with
  | nil => exact iff_of_true ⟨[], [], rfl, rfl, .nil⟩ (by simp)
  | cons m ms ih =>
    have hm := hms m List.mem_cons_self
    obtain ⟨iv, output, hcrypt, hlen, hlast⟩ :=
      hL.encrypts key e₁.m_operating_iv (withPadding m) (withPadding_dvd m) (withPadding_ne_nil m)
    obtain ⟨iv', hcrypt', hlast'⟩ :=
      hL.decrypts key e₁.m_operating_iv iv (withPadding m) output (withPadding_dvd m) (withPadding_ne_nil m) hcrypt
    have hsame : iv = iv' := Vector.toList_inj.mp (hlast.trans hlast'.symm)
    rw [← he₁] at hcrypt
    rw [← he₂, hiv] at hcrypt'
    have henc := encrypt_block_encrypts hm hcrypt hlen noOutput
    have hdec := encrypt_block_decrypts hm hlen hcrypt' noOutput
    have hrest := @ih { e₁ with m_operating_iv := iv } { e₂ with m_operating_iv := iv' }
      he₁ he₂ hsame fun m' hm' => hms m' (List.mem_cons_of_mem _ hm')
    rw [List.forall_mem_cons, ← hrest]
    constructor
    · rintro ⟨outs, outs', hencs, hdecs, hall⟩
      rw [encryptAll, henc, ok_bind] at hencs
      obtain ⟨outs₁, hencs₁, hok⟩ := bind_eq_ok.mp hencs
      cases hok
      rw [decryptAll, hdec] at hdecs
      obtain ⟨r, hr, hdecs⟩ := bind_eq_ok.mp hdecs
      obtain ⟨o, ho, hr⟩ := bind_eq_ok.mp hr
      cases hr
      obtain ⟨outs₁', hdecs₁, hok⟩ := bind_eq_ok.mp hdecs
      cases hok
      obtain ⟨his, hall₁⟩ := List.forall₂_cons.mp hall
      exact ⟨fun h0 => removePadding_of_zero hm h0 ho his, outs₁, outs₁', hencs₁, hdecs₁, hall₁⟩
    · rintro ⟨h0, outs₁, outs₁', hencs₁, hdecs₁, hall₁⟩
      obtain ⟨o, ho, his⟩ := removePadding_of_no_zero hm h0
      refine ⟨{ output_buf := inBuffer output, out_data_len := (withPadding m).length } :: outs₁, o :: outs₁',
        ?_, ?_, .cons his hall₁⟩
      · rw [encryptAll, henc, ok_bind, hencs₁, ok_bind]
      · rw [decryptAll, hdec, ho, ok_bind, ok_bind, hdecs₁, ok_bind]

/-- A run of messages comes back exactly when none of them holds a zero byte. -/
theorem roundTrips_iff (hL : L.Lawful) (key : Vector UInt8 ENCRYPTION_KEY_SIZE_IN_BYTES)
    (memory memory' : Encryptor L) (ms : List (List UInt8)) (hms : ∀ m ∈ ms, m.length ≤ 1007) :
    RoundTrips key memory memory' ms ↔ ∀ m ∈ ms, (0 : UInt8) ∉ m := by
  have hinit : encryptorInitialize memory.construct true key =
      (0, { memory.construct with
        m_encrypt := true, m_encryption_key := key, m_operating_iv := originalIv
        m_aescontext := (L.aes_setkey_enc L.aes_init key ENCRYPTION_KEY_SIZE).2 }) := by
    simp [encryptorInitialize, Encryptor.construct, hL.setkey_enc]
  have hinit' : encryptorInitialize memory'.construct false key =
      (0, { memory'.construct with
        m_encrypt := false, m_encryption_key := key, m_operating_iv := originalIv
        m_aescontext := (L.aes_setkey_dec L.aes_init key ENCRYPTION_KEY_SIZE).2 }) := by
    simp [encryptorInitialize, Encryptor.construct, hL.setkey_dec]
  rw [RoundTrips, hinit, hinit', and_iff_right rfl, and_iff_right rfl]
  apply runAll_iff hL key _ _ _ hms <;> rfl

section Cbc

def xorBlock (a b : Vector UInt8 IV_SIZE) : Vector UInt8 IV_SIZE := Vector.zipWith (· ^^^ ·) a b

theorem xorBlock_xorBlock (a b : Vector UInt8 IV_SIZE) : xorBlock (xorBlock a b) b = a := by
  apply Vector.ext
  intro i hi
  simp only [xorBlock, Vector.getElem_zipWith, UInt8.xor_assoc, UInt8.xor_self, UInt8.xor_zero]

def cbcMbedtls (E : Vector UInt8 ENCRYPTION_KEY_SIZE_IN_BYTES → Equiv.Perm (Vector UInt8 IV_SIZE)) :
    Mbedtls where
  aes_context := Vector UInt8 ENCRYPTION_KEY_SIZE_IN_BYTES
  aes_init := Vector.replicate _ 0
  aes_setkey_enc ctx key keybits := if keybits = ENCRYPTION_KEY_SIZE then (0, key) else (-0x20, ctx)
  aes_setkey_dec ctx key keybits := if keybits = ENCRYPTION_KEY_SIZE then (0, key) else (-0x20, ctx)
  aes_crypt_cbc key mode iv input :=
    if input.length % 16 ≠ 0 then (-0x22, iv, [])
    else
      let blocks := Cbc.toBlocks IV_SIZE (input.length / 16) input
      let r := if mode then Cbc.encrypt xorBlock (E key) iv blocks
        else Cbc.decrypt xorBlock (E key).symm iv blocks
      (0, r.2, Cbc.ofBlocks r.1)

variable (E : Vector UInt8 ENCRYPTION_KEY_SIZE_IN_BYTES → Equiv.Perm (Vector UInt8 IV_SIZE))

theorem cbcMbedtls_encrypt (key : Vector UInt8 ENCRYPTION_KEY_SIZE_IN_BYTES) (iv : Vector UInt8 IV_SIZE)
    {input : List UInt8} (h : 16 ∣ input.length) :
    (cbcMbedtls E).aes_crypt_cbc key true iv input =
      (0, (Cbc.encrypt xorBlock (E key) iv (Cbc.toBlocks IV_SIZE (input.length / 16) input)).2,
        Cbc.ofBlocks (Cbc.encrypt xorBlock (E key) iv (Cbc.toBlocks IV_SIZE (input.length / 16) input)).1) := by
  have hmod : ¬ input.length % 16 ≠ 0 := by omega
  simp only [cbcMbedtls, if_neg hmod, if_true]

theorem cbcMbedtls_decrypt (key : Vector UInt8 ENCRYPTION_KEY_SIZE_IN_BYTES) (iv : Vector UInt8 IV_SIZE)
    (blocks : List (Vector UInt8 IV_SIZE)) :
    (cbcMbedtls E).aes_crypt_cbc key false iv (Cbc.ofBlocks blocks) =
      (0, (Cbc.decrypt xorBlock (E key).symm iv blocks).2,
        Cbc.ofBlocks (Cbc.decrypt xorBlock (E key).symm iv blocks).1) := by
  have hlen : (Cbc.ofBlocks blocks).length = 16 * blocks.length := Cbc.ofBlocks_length blocks
  have hmod : ¬ (Cbc.ofBlocks blocks).length % 16 ≠ 0 := by omega
  have hdiv : (Cbc.ofBlocks blocks).length / 16 = blocks.length := by omega
  simp only [cbcMbedtls, if_neg hmod, hdiv, Cbc.toBlocks_ofBlocks, Bool.false_eq_true, if_false]

theorem cbcMbedtls_lawful : (cbcMbedtls E).Lawful := by
  constructor
  case setkey_enc => exact fun _ => rfl
  case setkey_dec => exact fun _ => rfl
  case encrypts =>
    intro key iv input hdvd hne
    have hpos : 0 < input.length := List.length_pos_of_ne_nil hne
    have hlen := Cbc.encrypt_length xorBlock (E key) iv (Cbc.toBlocks IV_SIZE (input.length / 16) input)
    rw [Cbc.toBlocks_length] at hlen
    refine ⟨_, _, cbcMbedtls_encrypt E key iv hdvd, ?_, ?_⟩
    · rw [Cbc.ofBlocks_length, hlen]
      exact Nat.mul_div_cancel' hdvd
    · rw [Cbc.encrypt_last]
      refine (Cbc.ofBlocks_drop_last ?_ iv).symm
      apply List.ne_nil_of_length_pos
      omega
  case decrypts =>
    intro key iv iv' input output hdvd hne hcrypt
    have hpos : 0 < input.length := List.length_pos_of_ne_nil hne
    have hfull : input.length = IV_SIZE * (input.length / 16) := (Nat.mul_div_cancel' hdvd).symm
    have hlen := Cbc.encrypt_length xorBlock (E key) iv (Cbc.toBlocks IV_SIZE (input.length / 16) input)
    have hinv := Cbc.decrypt_encrypt xorBlock_xorBlock (fun a => (E key).symm_apply_apply a) iv
      (Cbc.toBlocks IV_SIZE (input.length / 16) input)
    have hlast := Cbc.encrypt_last xorBlock (E key) iv (Cbc.toBlocks IV_SIZE (input.length / 16) input)
    have hsame := (cbcMbedtls_encrypt E key iv hdvd).symm.trans hcrypt
    rw [Cbc.toBlocks_length] at hlen
    generalize Cbc.encrypt xorBlock (E key) iv (Cbc.toBlocks IV_SIZE (input.length / 16) input) = r at *
    obtain ⟨-, hpair⟩ := Prod.mk.inj hsame
    obtain ⟨-, rfl⟩ := Prod.mk.inj hpair
    have hne' : r.1 ≠ [] := by
      apply List.ne_nil_of_length_pos
      omega
    refine ⟨r.2, ?_, ?_⟩
    · refine (cbcMbedtls_decrypt E key iv r.1).trans ?_
      rw [hinv, Cbc.ofBlocks_toBlocks hfull]
    · rw [hlast]
      exact (Cbc.ofBlocks_drop_last hne' iv).symm

end Cbc

def sampleKey : Vector UInt8 ENCRYPTION_KEY_SIZE_IN_BYTES :=
  #v[0x31, 0x32, 0x33, 0x34, 0x35, 0x36, 0x37, 0x38, 0x31, 0x32, 0x33, 0x34, 0x35, 0x36, 0x37, 0x38]

/-- Blocks and what AES with `sampleKey` makes of them: those of `sampleMessages`, and
that of `zeroMessage`. -/
def sampleBlocks : List (Vector UInt8 IV_SIZE × Vector UInt8 IV_SIZE) :=
   [(#v[0x83, 0x79, 0xc1, 0xc3, 0x4f, 0xf3, 0xdb, 0x34, 0x69, 0x29, 0x78, 0xf5, 0x9d, 0x74, 0x6f, 0x44],
      #v[0xfa, 0x4b, 0x78, 0x93, 0x99, 0xee, 0xab, 0x09, 0x19, 0xca, 0x26, 0xab, 0x53, 0xc5, 0xf8, 0x25]),
    (#v[0xc8, 0x7a, 0x4a, 0xa2, 0x95, 0xe2, 0xa7, 0x05, 0x15, 0xc6, 0x2a, 0xa7, 0x5f, 0xc9, 0xf4, 0x29],
      #v[0xa7, 0x8c, 0x0c, 0x58, 0x9b, 0x9d, 0x6f, 0x0c, 0x39, 0x1c, 0x25, 0xea, 0x55, 0xdf, 0x80, 0xcd]),
    (#v[0xc8, 0xe7, 0x02, 0x56, 0x95, 0x93, 0x61, 0x02, 0x37, 0x12, 0x2b, 0xe4, 0x5b, 0xd1, 0x8e, 0xc3],
      #v[0x61, 0xae, 0x2c, 0xf4, 0x9a, 0x85, 0xb2, 0x12, 0x1d, 0x2d, 0x56, 0x0a, 0xb1, 0x45, 0x69, 0x89]),
    (#v[0xf3, 0x4b, 0xb0, 0xfa, 0x77, 0xc8, 0xe1, 0x01, 0x53, 0x12, 0x40, 0xcc, 0xa3, 0x4b, 0x53, 0x78],
      #v[0x21, 0x42, 0xfa, 0xba, 0xc6, 0x69, 0x82, 0x78, 0x29, 0x26, 0x41, 0x48, 0xa5, 0x84, 0xc5, 0x1c])]

def sampleCipher (key : Vector UInt8 ENCRYPTION_KEY_SIZE_IN_BYTES) : Equiv.Perm (Vector UInt8 IV_SIZE) :=
  if key = sampleKey then sampleBlocks.foldr (fun p E => (Equiv.swap p.1 p.2).trans E) (Equiv.refl _)
  else Equiv.refl _

def zeroed : Encryptor (cbcMbedtls sampleCipher) :=
  { m_aescontext := Vector.replicate ENCRYPTION_KEY_SIZE_IN_BYTES 0, m_encrypt := false
    m_original_iv := Vector.replicate _ 0, m_operating_iv := Vector.replicate _ 0
    m_encryption_key := Vector.replicate _ 0 }

def sampleMessages : List (List UInt8) :=
  [[0x31, 0x32, 0x33, 0x34, 0x35, 0x36, 0x37, 0x38, 0x37, 0x36, 0x35, 0x34, 0x33, 0x32, 0x31, 0x31,
      0x32, 0x31, 0x32, 0x31],
    [0x6f, 0x6b]]

theorem sampleMessages_roundTrip : RoundTrips sampleKey zeroed zeroed sampleMessages :=
  (roundTrips_iff (cbcMbedtls_lawful sampleCipher) sampleKey zeroed zeroed sampleMessages
    (by decide)).mpr (by decide)

def zeroMessage : List UInt8 := [0x41, 0, 0x42]

theorem zeroMessage_lost :
    ¬ ∀ (L : Mbedtls) (_ : L.Lawful) (key : Vector UInt8 ENCRYPTION_KEY_SIZE_IN_BYTES)
      (memory memory' : Encryptor L) (ms : List (List UInt8)), (∀ m ∈ ms, m.length ≤ 1007) →
      RoundTrips key memory memory' ms := by
  intro hall
  have hle : ∀ m ∈ [zeroMessage], m.length ≤ 1007 := by decide
  obtain ⟨-, -, hruns⟩ := hall (cbcMbedtls sampleCipher) (cbcMbedtls_lawful sampleCipher) sampleKey
    zeroed zeroed [zeroMessage] hle
  have hiff := @runAll_iff (cbcMbedtls sampleCipher) (cbcMbedtls_lawful sampleCipher) sampleKey
    (encryptorInitialize zeroed.construct true sampleKey).2
    (encryptorInitialize zeroed.construct false sampleKey).2
    rfl rfl rfl [zeroMessage] hle
  exact absurd (hiff.mp hruns zeroMessage List.mem_cons_self) (by decide)

end CPractice
