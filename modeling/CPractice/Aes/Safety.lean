import CPractice.Aes.RoundTrip

/-! Which calls of `encrypt_block` stay inside its buffers and return an output. Every
path that returns does so with 0. -/

namespace CPractice

open CMem

variable {L : Mbedtls}

/-- `encrypt_block` with what it returns, when `*output_buf` is NULL before the call. -/
def Encryptor.call (e : Encryptor L) (encrypt : Bool) (input_buf : List UInt8) (size : Nat) :
    Except Fault (Int × BlockOut) := do
  let r ← e.encrypt_block encrypt input_buf size noOutput
  return (0, r.2)

def cryptInput (encrypt : Bool) (input_buf : List UInt8) (size : Nat) : List UInt8 :=
  if encrypt then withPadding (input_buf.take size) else input_buf.take size

def Encryptor.outcome (e : Encryptor L) (encrypt : Bool) (input_buf : List UInt8) (size : Nat) :
    Int × Vector UInt8 IV_SIZE × List UInt8 :=
  L.aes_crypt_cbc e.m_aescontext encrypt e.m_operating_iv (cryptInput encrypt input_buf size)

/-- The bytes are `m` with a padding of PKCS#7 for blocks of 16. -/
def PaddedWith (m d : List UInt8) : Prop :=
  ∃ p, 1 ≤ p ∧ p ≤ 16 ∧ d = m ++ List.replicate p (UInt8.ofNat p)

/-- The call stays in bounds, and if it returns 0 there is an output; of a decryption it
is what is left of the decrypted bytes without their padding. -/
def Encryptor.Safe (e : Encryptor L) (encrypt : Bool) (input_buf : List UInt8) (size : Nat) : Prop :=
  ∃ ret out, e.call encrypt input_buf size = .ok (ret, out) ∧ (ret = 0 → out.output_buf ≠ [] ∧
    (encrypt = false → out.out_data_len ≤ size ∧
      ∃ m, PaddedWith m (e.outcome encrypt input_buf size).2.2 ∧ out.Is m))

section Calls

variable {e : Encryptor L} {input_buf : List UInt8} {size : Nat}

theorem call_error {encrypt : Bool} (h : e.encrypt_block encrypt input_buf size noOutput = .error .outOfBounds) :
    ¬ e.Safe encrypt input_buf size := by
  rintro ⟨ret, out, hcall, -⟩
  rw [Encryptor.call, h] at hcall
  cases hcall

theorem call_failed {encrypt : Bool} {e' : Encryptor L}
    (h : e.encrypt_block encrypt input_buf size noOutput = .ok (e', noOutput)) : ¬ e.Safe encrypt input_buf size := by
  rintro ⟨ret, out, hcall, hset⟩
  rw [Encryptor.call, h, ok_bind] at hcall
  cases hcall
  exact (hset rfl).1 rfl

theorem zero_mem_inBuffer {bytes : List UInt8} :
    (0 : UInt8) ∈ inBuffer bytes ↔ 0 ∈ bytes ∨ bytes.length < 1024 := by
  rw [inBuffer, List.mem_append, List.mem_replicate]
  constructor
  · rintro (h | ⟨h, -⟩)
    · exact .inl h
    · exact .inr (by omega)
  · rintro (h | h)
    · exact .inl h
    · exact .inr ⟨by omega, rfl⟩

theorem safe_encrypt_iff (hin : size ≤ input_buf.length) (hterm : 0 ∈ input_buf)
    (hlen : (e.outcome true input_buf size).1 = 0 →
      (e.outcome true input_buf size).2.2.length = (cryptInput true input_buf size).length) :
    e.Safe true input_buf size ↔ size < 1024 ∧ (e.outcome true input_buf size).1 = 0 ∧
      (size < 1008 ∨ 0 ∈ (e.outcome true input_buf size).2.2) := by
  by_cases hsize : size < 1024
  · rcases hr : e.outcome true input_buf size with ⟨ret, iv, output⟩
    rw [hr] at hlen
    dsimp only at hlen ⊢
    have hcrypt : L.aes_crypt_cbc e.m_aescontext true e.m_operating_iv (withPadding (input_buf.take size)) =
        (ret, iv, output) := hr
    have hcall := encrypt_block_true hin hterm hsize hcrypt hlen noOutput
    have hpad : padding (input_buf.take size) = 16 - size % 16 := by
      rw [padding, List.length_take, Nat.min_eq_left hin]
    have hfull : (cryptInput true input_buf size).length = size + (16 - size % 16) := by
      rw [cryptInput, if_pos rfl, withPadding_length, hpad, List.length_take, Nat.min_eq_left hin]
    rw [hfull] at hlen
    by_cases hret : ret = 0
    · have hout := hlen hret
      have hscan : (0 : UInt8) ∈ inBuffer output ↔ size < 1008 ∨ 0 ∈ output := by
        rw [zero_mem_inBuffer, or_comm]
        exact or_congr_left (by omega)
      rw [if_neg (not_not.mpr hret)] at hcall
      rw [← hscan, and_iff_right hsize, and_iff_right hret]
      by_cases hzero : (0 : UInt8) ∈ inBuffer output
      · rw [strlen_ok hzero, ok_bind] at hcall
        refine iff_of_true ⟨0, { output_buf := inBuffer output, out_data_len := output.length }, ?_, ?_⟩ hzero
        · rw [Encryptor.call, hcall, ok_bind]
          rfl
        · exact fun _ => ⟨List.ne_nil_of_mem hzero, by simp⟩
      · rw [strlen_outOfBounds hzero, error_bind] at hcall
        exact iff_of_false (call_error hcall) hzero
    · rw [if_pos hret] at hcall
      exact iff_of_false (call_failed hcall) fun h => hret h.2.1
  · exact iff_of_false (call_error (encrypt_block_true_long (by omega) noOutput)) fun h => hsize h.1

theorem PaddedWith.zero_mem {m d : List UInt8} (h : PaddedWith m d) (hz : (0 : UInt8) ∈ d) : (0 : UInt8) ∈ m := by
  obtain ⟨p, hp, hp', rfl⟩ := h
  rcases List.mem_append.mp hz with hz | hz
  · exact hz
  · have hnat := congrArg UInt8.toNat (List.eq_of_mem_replicate hz)
    rw [UInt8.toNat_ofNat'] at hnat
    simp at hnat
    omega

theorem removePadding_is {output m : List UInt8} {o : BlockOut} (hlen : output.length ≤ 1024)
    (h : removePadding (inBuffer output) = .ok o) (hm : PaddedWith m output) (his : o.Is m) :
    (0 : UInt8) ∉ output ∧ output.length < 1024 := by
  have hterm : (0 : UInt8) ∈ inBuffer output := by
    by_contra hnot
    rw [removePadding, strlen_outOfBounds hnot, error_bind] at h
    cases h
  have hnone : (0 : UInt8) ∉ output := by
    intro hz
    obtain ⟨p, -, -, heq⟩ := id hm
    obtain ⟨n, hn, hlt⟩ := strlen_lt_of_zero (hm.zero_mem hz)
      (List.replicate p (UInt8.ofNat p) ++ List.replicate (1024 - output.length) 0)
    rw [← List.append_assoc, ← heq] at hn
    obtain ⟨-, b, -, -, rfl⟩ := (removePadding_ok_iff hn (le_of_eq (inBuffer_length hlen)) o).mp h
    have hsame : n - b.toNat = m.length := his.1
    omega
  exact ⟨hnone, (zero_mem_inBuffer.mp hterm).resolve_left hnone⟩

theorem safe_decrypt_iff (hin : size ≤ input_buf.length)
    (hlen : (e.outcome false input_buf size).1 = 0 →
      (e.outcome false input_buf size).2.2.length = (cryptInput false input_buf size).length) :
    e.Safe false input_buf size ↔ size < 1024 ∧ (e.outcome false input_buf size).1 = 0 ∧
      0 ∉ (e.outcome false input_buf size).2.2 ∧ ∃ m, PaddedWith m (e.outcome false input_buf size).2.2 := by
  have hfull : (cryptInput false input_buf size).length = size := by
    rw [cryptInput, if_neg Bool.false_ne_true, List.length_take, Nat.min_eq_left hin]
  rw [hfull] at hlen
  by_cases hsize : size ≤ 1024
  · rcases hr : e.outcome false input_buf size with ⟨ret, iv, output⟩
    rw [hr] at hlen
    dsimp only at hlen ⊢
    have hcrypt : L.aes_crypt_cbc e.m_aescontext false e.m_operating_iv (input_buf.take size) = (ret, iv, output) := hr
    have hcall := encrypt_block_false hin hsize hcrypt hlen noOutput
    by_cases hret : ret = 0
    · have hout := hlen hret
      rw [if_neg (not_not.mpr hret)] at hcall
      constructor
      · rintro ⟨ret', out, hok, hset⟩
        rw [Encryptor.call, hcall] at hok
        obtain ⟨r, hok, hres⟩ := bind_eq_ok.mp hok
        obtain ⟨o, ho, hpair⟩ := bind_eq_ok.mp hok
        cases hpair
        cases hres
        obtain ⟨-, hdec⟩ := hset rfl
        obtain ⟨-, m, hm, his⟩ := hdec rfl
        rw [hr] at hm
        obtain ⟨hnone, hlt⟩ := removePadding_is (by omega) ho hm his
        exact ⟨by omega, hret, hnone, m, hm⟩
      · rintro ⟨hlt, -, hnone, m, p, hp, hp', rfl⟩
        have hsum : m.length + p = size := by simpa using hout
        obtain ⟨o, ho, his, hne⟩ := removePadding_padded hp hp' (by omega) fun hz => hnone (List.mem_append_left _ hz)
        rw [ho, ok_bind] at hcall
        refine ⟨0, o, ?_, fun _ => ⟨hne, fun _ => ⟨?_, m, ?_, his⟩⟩⟩
        · rw [Encryptor.call, hcall, ok_bind]
          rfl
        · rw [his.1]
          omega
        · rw [hr]
          exact ⟨p, hp, hp', rfl⟩
    · rw [if_pos hret] at hcall
      exact iff_of_false (call_failed hcall) fun h => hret h.2.1
  · exact iff_of_false (call_error (encrypt_block_false_long (by omega) noOutput)) fun h => hsize (by omega)

/-- `encrypt_block` is safe for short inputs that mbedtls accepts, unless the output
fills its buffer without a zero byte, or the decrypted bytes hold one or are not padded. -/
theorem encrypt_block_safe_iff (encrypt : Bool) (hin : size ≤ input_buf.length)
    (hterm : encrypt = true → 0 ∈ input_buf)
    (hlen : (e.outcome encrypt input_buf size).1 = 0 →
      (e.outcome encrypt input_buf size).2.2.length = (cryptInput encrypt input_buf size).length) :
    e.Safe encrypt input_buf size ↔ size < 1024 ∧ (e.outcome encrypt input_buf size).1 = 0 ∧
      if encrypt then size < 1008 ∨ 0 ∈ (e.outcome encrypt input_buf size).2.2
      else 0 ∉ (e.outcome encrypt input_buf size).2.2 ∧ ∃ m, PaddedWith m (e.outcome encrypt input_buf size).2.2 := by
  cases encrypt with
  | true => exact safe_encrypt_iff hin (hterm rfl) hlen
  | false => exact safe_decrypt_iff hin hlen

end Calls

def sampleCiphertext : List UInt8 :=
  [0xfa, 0x4b, 0x78, 0x93, 0x99, 0xee, 0xab, 0x09, 0x19, 0xca, 0x26, 0xab, 0x53, 0xc5, 0xf8, 0x25,
    0xa7, 0x8c, 0x0c, 0x58, 0x9b, 0x9d, 0x6f, 0x0c, 0x39, 0x1c, 0x25, 0xea, 0x55, 0xdf, 0x80, 0xcd, 0]

def decryptor : Encryptor (cbcMbedtls sampleCipher) := (encryptorInitialize zeroed.construct false sampleKey).2

theorem sampleCiphertext_outcome :
    (decryptor.outcome false sampleCiphertext 32).1 = 0 ∧
      (decryptor.outcome false sampleCiphertext 32).2.2 =
        [0x31, 0x32, 0x33, 0x34, 0x35, 0x36, 0x37, 0x38, 0x37, 0x36, 0x35, 0x34, 0x33, 0x32, 0x31, 0x31,
          0x32, 0x31, 0x32, 0x31] ++ List.replicate 12 12 := by
  decide +kernel

theorem sampleCiphertext_safe : decryptor.Safe false sampleCiphertext 32 := by
  obtain ⟨hret, hbytes⟩ := sampleCiphertext_outcome
  apply (encrypt_block_safe_iff false (by decide) (by simp) fun _ => by rw [hbytes]; rfl).mpr
  rw [hbytes]
  exact ⟨by decide, hret, by decide, _, 12, by decide, by decide, rfl⟩

theorem truncated_returns_zero :
    ¬ ∀ (L : Mbedtls) (e : Encryptor L) (encrypt : Bool) (input_buf : List UInt8) (size : Nat),
      size ≤ input_buf.length → (encrypt = true → 0 ∈ input_buf) →
      ((e.outcome encrypt input_buf size).1 = 0 →
        (e.outcome encrypt input_buf size).2.2.length = (cryptInput encrypt input_buf size).length) →
      e.Safe encrypt input_buf size := by
  intro hall
  have hfails : (decryptor.outcome false sampleCiphertext 31).1 = -0x22 := rfl
  have hlen : (decryptor.outcome false sampleCiphertext 31).1 = 0 →
      (decryptor.outcome false sampleCiphertext 31).2.2.length = (cryptInput false sampleCiphertext 31).length :=
    fun h => absurd (hfails.symm.trans h) (by decide)
  have hsafe := hall _ decryptor false sampleCiphertext 31 (by decide) (by simp) hlen
  exact absurd (hfails.symm.trans ((safe_decrypt_iff (by decide) hlen).mp hsafe).2.1) (by decide)

end CPractice
