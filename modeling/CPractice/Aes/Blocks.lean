import CPractice.Aes.Encryptor
import Mathlib.Data.List.TakeWhile

/-! What one call of `encrypt_block` does, whatever mbedtls answers. -/

namespace CPractice

open CMem

variable {L : Mbedtls}

def noOutput : BlockOut := { output_buf := [], out_data_len := 0 }

def BlockOut.Is (m : List UInt8) (o : BlockOut) : Prop :=
  o.out_data_len = m.length ∧ o.output_buf.take o.out_data_len = m

def padding (m : List UInt8) : Nat := 16 - m.length % 16

def withPadding (m : List UInt8) : List UInt8 := m ++ List.replicate (padding m) (UInt8.ofNat (padding m))

theorem withPadding_length (m : List UInt8) : (withPadding m).length = m.length + padding m := by
  simp [withPadding]

theorem padding_pos (m : List UInt8) : 1 ≤ padding m := by
  unfold padding
  omega

theorem padding_le (m : List UInt8) : padding m ≤ 16 := by
  unfold padding
  omega

theorem withPadding_dvd (m : List UInt8) : 16 ∣ (withPadding m).length := by
  rw [withPadding_length, padding]
  omega

theorem withPadding_ne_nil (m : List UInt8) : withPadding m ≠ [] := by
  have hpos := padding_pos m
  apply List.ne_nil_of_length_pos
  rw [withPadding_length]
  omega

theorem withPadding_le {m : List UInt8} (h : m.length ≤ 1007) : (withPadding m).length ≤ 1008 := by
  rw [withPadding_length, padding]
  omega

theorem memcpy_zeroed {src : List UInt8} {n size : Nat} (hn : n ≤ src.length) (hs : n ≤ size) :
    memcpy (List.replicate size 0) 0 src n = .ok (src.take n ++ List.replicate (size - n) 0) := by
  rw [memcpy_ok hn (by simp [hs])]
  simp

theorem zero_mem_tail (bytes : List UInt8) {n : Nat} (h : 0 < n) :
    (0 : UInt8) ∈ bytes ++ List.replicate n 0 := by
  apply List.mem_append_right
  exact List.mem_replicate.mpr ⟨by omega, rfl⟩

def inBuffer (bytes : List UInt8) : List UInt8 := bytes ++ List.replicate (1024 - bytes.length) 0

theorem inBuffer_length {bytes : List UInt8} (h : bytes.length ≤ 1024) : (inBuffer bytes).length = 1024 := by
  rw [inBuffer, List.length_append, List.length_replicate]
  omega

theorem memcpy_inBuffer {bytes : List UInt8} (h : bytes.length ≤ 1024) :
    memcpy (List.replicate 1024 0) 0 bytes bytes.length = .ok (inBuffer bytes) := by
  rw [memcpy_zeroed le_rfl h, List.take_length, inBuffer]

section Encrypt

variable {e : Encryptor L} {input_buf output : List UInt8} {size : Nat} {ret : Int} {iv : Vector UInt8 IV_SIZE}

theorem memset_padding {m : List UInt8} (hm : m.length < 1024) :
    memset (inBuffer m) m.length (UInt8.ofNat (padding m)) (padding m) = .ok (inBuffer (withPadding m)) := by
  have hsum := withPadding_length m
  have hroom : m.length + padding m ≤ 1024 := by
    unfold padding
    omega
  rw [memset_ok (by rw [inBuffer_length (by omega)]; exact hroom), inBuffer, List.take_left, List.drop_append,
    List.drop_eq_nil_of_le (by omega), List.nil_append, List.drop_replicate, inBuffer, hsum, withPadding]
  congr 3
  omega

theorem encrypt_block_true (hin : size ≤ input_buf.length) (hterm : 0 ∈ input_buf) (hsize : size < 1024)
    (hcrypt : L.aes_crypt_cbc e.m_aescontext true e.m_operating_iv (withPadding (input_buf.take size)) =
      (ret, iv, output))
    (hlen : ret = 0 → output.length = (withPadding (input_buf.take size)).length) (out : BlockOut) :
    e.encrypt_block true input_buf size out =
      if ret ≠ 0 then .ok ({ e with m_operating_iv := iv }, out)
      else strlen (inBuffer output) >>= fun _ =>
        .ok ({ e with m_operating_iv := iv }, { output_buf := inBuffer output, out_data_len := output.length }) := by
  generalize hm : input_buf.take size = m at hcrypt hlen
  have hmlen : m.length = size := by
    rw [← hm, List.length_take]
    omega
  have hsum := withPadding_length m
  have hroom : m.length + padding m ≤ 1024 := by
    unfold padding
    omega
  have hstr : memcpy (List.replicate 1024 0) 0 input_buf size = .ok (inBuffer m) := by
    rw [memcpy_zeroed hin (by omega), hm, inBuffer, hmlen]
  have hpad := memset_padding (show m.length < 1024 by omega)
  have htake : (inBuffer (withPadding m)).take (m.length + padding m) = withPadding m := by
    rw [← hsum, inBuffer, List.take_left]
  unfold Encryptor.encrypt_block encryptPart
  rw [hstr, ok_bind, if_pos rfl]
  dsimp only
  rw [← hmlen, show 16 - m.length % 16 = padding m from rfl, hpad, ok_bind, strlen_ok hterm, ok_bind, htake, hcrypt]
  dsimp only
  by_cases hret : ret = 0
  · have hout : output.length = m.length + padding m := by rw [hlen hret, hsum]
    have hdata : memcpy (List.replicate 1024 0) 0 (inBuffer output) output.length = .ok (inBuffer output) := by
      rw [memcpy_zeroed (by rw [inBuffer_length (by omega)]; omega) (by omega), inBuffer, List.take_left]
    rw [if_neg (not_not.mpr hret), if_neg (not_not.mpr hret), ← hout, memcpy_inBuffer (by omega), ok_bind, hdata,
      ok_bind]
  · rw [if_pos hret, if_pos hret]

theorem encrypt_block_true_long (hsize : 1024 ≤ size) (out : BlockOut) :
    e.encrypt_block true input_buf size out = .error .outOfBounds := by
  unfold Encryptor.encrypt_block encryptPart
  by_cases hfits : size ≤ input_buf.length ∧ size ≤ 1024
  · rw [memcpy_zeroed hfits.1 hfits.2, ok_bind, if_pos rfl]
    dsimp only
    rw [memset, memcpy, if_neg, error_bind]
    simp only [List.length_append, List.length_take, List.length_replicate]
    omega
  · rw [memcpy, if_neg, error_bind]
    rw [List.length_replicate, Nat.zero_add]
    exact hfits

end Encrypt

section Decrypt

variable {e : Encryptor L} {input_buf output : List UInt8} {size : Nat} {ret : Int} {iv : Vector UInt8 IV_SIZE}

theorem encrypt_block_false (hin : size ≤ input_buf.length) (hsize : size ≤ 1024)
    (hcrypt : L.aes_crypt_cbc e.m_aescontext false e.m_operating_iv (input_buf.take size) = (ret, iv, output))
    (hlen : ret = 0 → output.length = size) (out : BlockOut) :
    e.encrypt_block false input_buf size out =
      if ret ≠ 0 then .ok ({ e with m_operating_iv := iv }, out)
      else removePadding (inBuffer output) >>= fun o => .ok ({ e with m_operating_iv := iv }, o) := by
  unfold Encryptor.encrypt_block decryptPart
  rw [memcpy_zeroed hin hsize, ok_bind, if_neg Bool.false_ne_true]
  dsimp only
  rw [hcrypt]
  by_cases hret : ret = 0
  · rw [if_neg (not_not.mpr hret), if_neg (not_not.mpr hret), ← hlen hret,
      memcpy_inBuffer (by rw [hlen hret]; exact hsize), ok_bind]
  · rw [if_pos hret, if_pos hret]

theorem encrypt_block_false_long (hsize : 1024 < size) (out : BlockOut) :
    e.encrypt_block false input_buf size out = .error .outOfBounds := by
  unfold Encryptor.encrypt_block
  rw [memcpy, if_neg, error_bind]
  rw [List.length_replicate]
  omega

theorem strlen_lt {buf : List UInt8} {n : Nat} (h : strlen buf = .ok n) : n < buf.length := by
  induction buf generalizing n with
  | nil => cases h
  | cons b buf ih =>
    rw [strlen] at h
    by_cases hb : b = 0
    · rw [if_pos hb] at h
      cases h
      simp
    · rw [if_neg hb] at h
      cases hs : strlen buf with
      | error f => rw [hs] at h; cases h
      | ok k =>
        rw [hs] at h
        cases h
        have hlt := ih hs
        simpa using hlt

theorem removePadding_ok_iff {buf : List UInt8} {n : Nat} (hn : strlen buf = .ok n) (hbuf : buf.length ≤ 1024)
    (o : BlockOut) :
    removePadding buf = .ok o ↔ 0 < n ∧ ∃ b, buf[n - 1]? = some b ∧ b.toNat ≤ n ∧
      o = { output_buf := buf.take (n - b.toNat) ++ List.replicate b.toNat 0 ++ buf.drop n,
            out_data_len := n - b.toNat } := by
  have hlt := strlen_lt hn
  have hint : CInt.toInt n = n := CInt.toInt_of_range (by omega) (by omega)
  unfold removePadding
  rw [hn, ok_bind, hint]
  dsimp only
  by_cases hpos : 0 < n
  · have hread : readInt buf ((n : Int) - 1) = .ok buf[n - 1] := by
      have hcast : ((n : Int) - 1).toNat = n - 1 := by omega
      rw [readInt, if_pos (by omega), hcast, readAt, dif_pos (by omega)]
    have hget : buf[n - 1]? = some buf[n - 1] := List.getElem?_eq_getElem (by omega)
    generalize buf[n - 1] = b at hread hget
    rw [hread, ok_bind, hget]
    by_cases hle : b.toNat ≤ n
    · have hoff : ((n : Int) - b.toNat).toNat = n - b.toNat := by omega
      have hset : memsetInt buf ((n : Int) - b.toNat) 0 b.toNat =
          .ok (buf.take (n - b.toNat) ++ List.replicate b.toNat 0 ++ buf.drop n) := by
        rw [memsetInt, if_pos (by omega), hoff, memset_ok (by omega), Nat.sub_add_cancel hle]
      have hsize : CInt.toSize ((n : Int) - b.toNat) = n - b.toNat := by
        rw [CInt.toSize_of_range (by omega) (by omega), hoff]
      rw [hset, ok_bind, hsize]
      constructor
      · intro h
        cases h
        exact ⟨hpos, b, rfl, hle, rfl⟩
      · rintro ⟨-, b', hb', -, rfl⟩
        cases hb'
        rfl
    · have hset : memsetInt buf ((n : Int) - b.toNat) 0 b.toNat = .error .outOfBounds := by
        rw [memsetInt, if_neg (by omega)]
      rw [hset, error_bind]
      refine iff_of_false (by simp) ?_
      rintro ⟨-, b', hb', hle', -⟩
      cases hb'
      exact hle hle'
  · have hread : readInt buf ((n : Int) - 1) = .error .outOfBounds := by
      rw [readInt, if_neg (by omega)]
    rw [hread, error_bind]
    exact iff_of_false (by simp) fun h => hpos h.1

theorem strlen_inBuffer {bytes : List UInt8} (hlen : bytes.length < 1024) (hz : (0 : UInt8) ∉ bytes) :
    strlen (inBuffer bytes) = .ok bytes.length := by
  have htail : 1024 - bytes.length = 1024 - bytes.length - 1 + 1 := by omega
  rw [inBuffer, strlen_ok (zero_mem_tail _ (by omega)), htail, List.replicate_succ, cString_append_zero,
    cString_of_not_mem hz]

theorem strlen_lt_of_zero {m : List UInt8} (hz : (0 : UInt8) ∈ m) (rest : List UInt8) :
    ∃ n, strlen (m ++ rest) = .ok n ∧ n < m.length := by
  refine ⟨_, strlen_ok (List.mem_append_left _ hz), ?_⟩
  rw [cString_append_of_mem hz]
  exact length_cString_lt hz

theorem strlen_outOfBounds {buf : List UInt8} (hz : (0 : UInt8) ∉ buf) : strlen buf = .error .outOfBounds := by
  induction buf with
  | nil => rfl
  | cons b buf ih =>
    simp only [List.mem_cons, not_or] at hz
    rw [strlen, if_neg (Ne.symm hz.1), ih hz.2]
    rfl

theorem removePadding_padded {m : List UInt8} {p : Nat} (hp : 1 ≤ p) (hp' : p ≤ 16) (hlen : m.length + p < 1024)
    (hz : (0 : UInt8) ∉ m) :
    ∃ o, removePadding (inBuffer (m ++ List.replicate p (UInt8.ofNat p))) = .ok o ∧ o.Is m ∧
      o.output_buf ≠ [] := by
  have hnat : (UInt8.ofNat p).toNat = p := by
    rw [UInt8.toNat_ofNat']
    omega
  have hpne : UInt8.ofNat p ≠ 0 := by
    intro h
    rw [h] at hnat
    simp at hnat
    omega
  have hsum : (m ++ List.replicate p (UInt8.ofNat p)).length = m.length + p := by simp
  have hnone : (0 : UInt8) ∉ m ++ List.replicate p (UInt8.ofNat p) := by
    intro h
    rcases List.mem_append.mp h with h | h
    · exact hz h
    · exact hpne (List.eq_of_mem_replicate h).symm
  have hstrlen := strlen_inBuffer (by omega) hnone
  have hbuf := inBuffer_length (show (m ++ List.replicate p (UInt8.ofNat p)).length ≤ 1024 by omega)
  have hlast : (inBuffer (m ++ List.replicate p (UInt8.ofNat p)))[m.length + p - 1]? = some (UInt8.ofNat p) := by
    rw [inBuffer, List.getElem?_append_left (by omega), List.getElem?_append_right (by omega),
      List.getElem?_replicate, if_pos (by omega)]
  rw [hsum] at hstrlen
  refine ⟨_, (removePadding_ok_iff hstrlen (le_of_eq hbuf) _).mpr
    ⟨by omega, _, hlast, by rw [hnat]; omega, rfl⟩, ?_, ?_⟩
  · have htake : (inBuffer (m ++ List.replicate p (UInt8.ofNat p))).take m.length = m := by
      rw [inBuffer, List.append_assoc, List.take_left]
    rw [hnat, Nat.add_sub_cancel, htake, List.append_assoc]
    exact ⟨rfl, List.take_left⟩
  · rw [hnat]
    simp only [ne_eq, List.append_eq_nil_iff, List.replicate_eq_nil_iff, not_and]
    omega

end Decrypt

end CPractice
