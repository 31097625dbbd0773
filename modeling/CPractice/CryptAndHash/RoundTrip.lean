import CPractice.CryptAndHash.Counter

/-! What encryption writes and decryption reads back, as long as no call fails. -/

namespace CPractice

namespace CryptAndHash

open CMem CInt Chunks

section Calls

variable {w : World} {s : Files}

theorem library_ok (hw : w.Works) (message : String) (s : Files) :
    library w message s = .ok { s with calls := s.calls + 1 } := by
  rw [library, hw.1]
  rfl

theorem fread_ok (hw : w.Works) (message : String) {bytes rest : List UInt8} (hfin : s.fin = bytes ++ rest)
    (hlen : bytes.length ≤ 1024) :
    fread w message bytes.length s = .ok (bytes, { s with fin := rest, calls := s.calls + 1 }) := by
  rw [fread, hw.2, Nat.min_self, hfin, List.take_left, List.drop_left, if_neg (Nat.not_lt.mpr hlen),
    if_neg (not_not_intro rfl)]

theorem fwrite_ok (hw : w.Works) (message : String) (output : List UInt8) (s : Files) :
    fwrite w message output s = .ok { s with fout := s.fout ++ output, calls := s.calls + 1 } := by
  rw [fwrite, hw.2, Nat.min_self, List.take_length, if_neg (not_not_intro rfl)]

def mdDigest (md : Md) (parts : List (List UInt8)) (digest : List UInt8) : List UInt8 :=
  md.hash parts.flatten ++ digest.drop md.size

theorem md_digest_ok (hw : w.Works) (md : Md) (parts : List (List UInt8)) (digest : List UInt8) (s : Files) :
    ∃ calls, md_digest w md parts digest s = .ok (mdDigest md parts digest, { s with calls }) := by
  have hupdates : ∀ (l : List (List UInt8)) (s : Files), ∃ calls,
      l.foldlM (fun s _ => library w (returnedError "mbedtls_md_update") s) s = .ok { s with calls } := by
    intro l
    induction l with
    | nil => exact fun s => ⟨s.calls, rfl⟩
    | cons _ l ih =>
      intro s
      obtain ⟨calls, hrest⟩ := ih { s with calls := s.calls + 1 }
      refine ⟨calls, ?_⟩
      rw [List.foldlM_cons, library_ok hw, ok_bind, hrest]
  obtain ⟨calls, hfold⟩ := hupdates parts { s with calls := s.calls + 1 }
  refine ⟨calls + 1, ?_⟩
  rw [md_digest, library_ok hw, ok_bind, hfold, ok_bind, library_ok hw, ok_bind]
  rfl

/-- The buffer `digest` after some rounds. -/
def rounds (md : Md) (key : List UInt8) : Nat → List UInt8 → List UInt8
  | 0, digest => digest
  | n + 1, digest => rounds md key n (mdDigest md [digest.take 32, key] digest)

theorem hashRounds_ok (hw : w.Works) (md : Md) (key : List UInt8) (n : Nat) (digest : List UInt8) (s : Files) :
    ∃ calls, hashRounds w md key n digest s = .ok (rounds md key n digest, { s with calls }) := by
  induction n generalizing digest s with
  | zero => exact ⟨s.calls, rfl⟩
  | succ n ih =>
    obtain ⟨calls, hdigest⟩ := md_digest_ok hw md [digest.take 32, key] digest s
    obtain ⟨calls', hrest⟩ := ih (mdDigest md [digest.take 32, key] digest) { s with calls }
    refine ⟨calls', ?_⟩
    rw [hashRounds, hdigest, ok_bind, rounds]
    exact hrest

def derived (md : Md) (key IV digest : List UInt8) : List UInt8 :=
  rounds md key 8192 (IV ++ List.replicate 16 0 ++ digest.drop 32)

theorem setup_ok (hw : w.Works) (cipher : Cipher) (md : Md) (op : Operation) (key IV digest : List UInt8)
    (s : Files) :
    ∃ calls, setup w cipher md op key IV digest s =
      .ok (cipher.setkey op ((derived md key IV digest).take (cipher.key_bitlen / 8)) IV, derived md key IV digest,
        { s with calls }) := by
  obtain ⟨calls, hrounds⟩ := hashRounds_ok hw md key 8192 (IV ++ List.replicate 16 0 ++ digest.drop 32) s
  refine ⟨calls + 4, ?_⟩
  rw [setup, hrounds, ok_bind]
  simp only [library_ok hw, ok_bind]
  rfl

end Calls

section Derived

variable {md : Md} {key : List UInt8}

theorem mdDigest_take {digest digest' : List UInt8}
    (h : digest.take 32 = digest'.take 32) {m : Nat} (hm : m ≤ max 32 md.size) :
    (mdDigest md [digest.take 32, key] digest).take m = (mdDigest md [digest'.take 32, key] digest').take m := by
  rw [mdDigest, mdDigest, h, List.take_append, List.take_append, md.hash_length]
  congr 1
  rcases Nat.lt_or_ge md.size m with hgt | hle
  · have h32 : m ≤ 32 := by omega
    have hdrop := congrArg (fun l => (l.drop md.size).take (m - md.size)) h
    simp only [List.drop_take, List.take_take] at hdrop
    rwa [Nat.min_eq_left (by omega)] at hdrop
  · rw [Nat.sub_eq_zero_of_le hle, List.take_zero, List.take_zero]

/-- What the stack held before does not get into the key. -/
theorem rounds_take {digest digest' : List UInt8}
    (h : digest.take 32 = digest'.take 32) {n m : Nat} (hm : m ≤ max 32 md.size) :
    (rounds md key (n + 1) digest).take m = (rounds md key (n + 1) digest').take m := by
  induction n generalizing digest digest' with
  | zero => exact mdDigest_take h hm
  | succ n ih =>
    rw [rounds, rounds.eq_def md key (n + 1 + 1) digest']
    exact ih (mdDigest_take h (Nat.le_max_left _ _))

theorem derived_take {IV : List UInt8} (hIV : IV.length = 16) (stack stack' : List UInt8) {m : Nat}
    (hm : m ≤ max 32 md.size) :
    (derived md key IV stack).take m = (derived md key IV stack').take m := by
  have hfirst : ∀ digest : List UInt8, (IV ++ List.replicate 16 0 ++ digest.drop 32).take 32 =
    IV ++ List.replicate 16 0 := by
    intro digest
    rw [List.take_left']
    rw [List.length_append, hIV, List.length_replicate]
  refine rounds_take ?_ hm
  rw [hfirst, hfirst]

end Derived

section Loop

variable {w : World} {cipher : Cipher} {op : Operation}

theorem chunkLength_eq {block_size filesize offset : Nat} (hsize : filesize < 2 ^ 32) (h : offset < filesize) :
    chunkLength block_size filesize offset = min block_size (filesize - offset) := by
  rw [chunkLength, toUnsigned_eq_natCast rfl hsize, toUnsigned_eq_natCast (Int.ofNat_sub h.le).symm (by omega)]
  split <;> omega

/-- The bytes that go into the HMAC. -/
def authenticated (op : Operation) (input output : List UInt8) : List UInt8 :=
  match op with
  | .encrypt => output
  | .decrypt => input

theorem cryptLoop_ok (hw : w.Works) (hblock : 0 < cipher.block_size) {filesize : Nat} (hsize : filesize < 2 ^ 32)
    {fuel offset : Nat} {context context' : cipher.Context} {hmac input rest output : List UInt8} {s : Files}
    (hfin : s.fin = input ++ rest) (hoffset : input.length = filesize - offset) (hfuel : input.length < fuel)
    (hfeed : feed cipher context (chunks cipher.block_size input) = some (context', output)) :
    ∃ calls, cryptLoop w cipher op filesize fuel offset context hmac s =
      .ok (context', hmac ++ authenticated op input output, ⟨rest, s.fout ++ output, calls⟩) := by
  induction fuel generalizing offset context hmac input output s with
  | zero => omega
  | succ fuel ih =>
    by_cases hoff : offset < filesize
    · have hne : input ≠ [] := List.ne_nil_of_length_pos (by omega)
      rw [chunks_eq hblock hne] at hfeed
      obtain ⟨context₁, out₁, out₂, hupdate, hnext, rfl⟩ := feed_cons_eq_some.mp hfeed
      have htake : (input.take cipher.block_size).length = chunkLength cipher.block_size filesize offset := by
        rw [chunkLength_eq hsize hoff, List.length_take, hoffset]
      have hle : (input.take cipher.block_size).length ≤ 1024 := by
        have hblock_le := cipher.block_size_le
        rw [List.length_take]
        omega
      have hsplit : s.fin = input.take cipher.block_size ++ (input.drop cipher.block_size ++ rest) := by
        rw [hfin, ← List.append_assoc, List.take_append_drop]
      have hread := fun message => fread_ok hw message hsplit hle
      have hdrop : (input.drop cipher.block_size).length = filesize - (offset + cipher.block_size) := by
        rw [List.length_drop]
        omega
      obtain ⟨calls, hrest⟩ := @ih (offset + cipher.block_size) context₁
        (hmac ++ authenticated op (input.take cipher.block_size) out₁) (input.drop cipher.block_size) out₂
        ⟨input.drop cipher.block_size ++ rest, s.fout ++ out₁, s.calls + 1 + 1 + 1 + 1⟩ rfl hdrop (by omega) hnext
      refine ⟨calls, ?_⟩
      have hinput : input.take cipher.block_size ++ input.drop cipher.block_size = input :=
        List.take_append_drop _ _
      rw [cryptLoop, if_pos hoff, ← htake]
      cases op with
      | encrypt =>
        simp only [hread, ok_bind, cipher_update, library_ok hw, hupdate, pure_bind, fwrite_ok hw]
        simp only [authenticated] at hrest
        simpa only [authenticated, List.append_assoc] using hrest
      | decrypt =>
        simp only [hread, ok_bind, cipher_update, library_ok hw, hupdate, pure_bind, fwrite_ok hw]
        simp only [authenticated] at hrest
        simpa only [authenticated, List.append_assoc, hinput] using hrest
    · obtain rfl := List.eq_nil_of_length_eq_zero (show input.length = 0 by omega)
      cases hfeed
      refine ⟨s.calls, ?_⟩
      rw [cryptLoop, if_neg hoff]
      rw [List.nil_append] at hfin
      cases op with
      | encrypt => simp [authenticated, ← hfin]
      | decrypt => simp [authenticated, ← hfin]

end Loop

theorem foldl_or_eq_zero {l : List UInt8} {d : UInt8} : l.foldl (· ||| ·) d = 0 ↔ d = 0 ∧ ∀ b ∈ l, b = 0 := by
  induction l generalizing d with
  | nil => simp
  | cons b l ih => rw [List.foldl_cons, ih, UInt8.or_eq_zero_iff, List.forall_mem_cons, and_assoc]

theorem differ_eq_zero {digest buffer : List UInt8} (hlen : digest.length = buffer.length) :
    differ digest buffer = 0 ↔ digest = buffer := by
  rw [differ, foldl_or_eq_zero]
  simp only [true_and]
  induction digest generalizing buffer with
  | nil => simp [List.eq_nil_of_length_eq_zero hlen.symm]
  | cons a digest ih =>
    cases buffer with
    | nil => simp at hlen
    | cons b buffer =>
      rw [List.zipWith_cons_cons, List.forall_mem_cons, UInt8.xor_eq_zero_iff, ih (Nat.succ.inj hlen),
        List.cons.injEq]

section RoundTrip

variable {w : World} {cipher : Cipher} (law : cipher.Lawful) (md : Md)

def initializationVector (md : Md) (name file : List UInt8) : List UInt8 :=
  (md.hash [sizeBytes file.length, name].flatten).take 16

theorem length_initializationVector (name file : List UInt8) : (initializationVector md name file).length = 16 := by
  have hsize := md.size_range
  rw [initializationVector, List.length_take, md.hash_length]
  omega

def cipherKey (cipher : Cipher) (md : Md) (key IV digest : List UInt8) : List UInt8 :=
  (derived md key IV digest).take (cipher.key_bitlen / 8)

def hmacKey (md : Md) (key IV digest : List UInt8) : List UInt8 := (derived md key IV digest).take 32

def sealed (law : cipher.Lawful) (md : Md) (key IV digest file : List UInt8) : List UInt8 :=
  let text := law.encrypt (cipherKey cipher md key IV digest) IV file
  IV ++ (text ++ md.hmac (hmacKey md key IV digest) text)

theorem length_sealed (key digest file : List UInt8) {IV : List UInt8} (hIV : IV.length = 16) :
    (sealed law md key IV digest file).length - md.size =
      16 + (law.encrypt (cipherKey cipher md key IV digest) IV file).length := by
  rw [sealed, List.length_append, List.length_append, hIV, md.hmac_length]
  omega

theorem encryptFile_ok (hw : w.Works) (key name digest : List UInt8) {file : List UInt8}
    (hsize : file.length < 2 ^ 32) :
    encryptFile w cipher md key name digest file =
      .ok (sealed law md key (initializationVector md name file) (mdDigest md [sizeBytes file.length, name] digest)
        file) := by
  have hIV : (mdDigest md [sizeBytes file.length, name] digest).take 16 = initializationVector md name file := by
    have hmd := md.size_range
    rw [mdDigest, List.take_append_of_le_length (by rw [md.hash_length]; exact hmd.1)]
    rfl
  obtain ⟨calls, hdigest⟩ := md_digest_ok hw md [sizeBytes file.length, name] digest ⟨file, [], 0⟩
  rw [encryptFile, hdigest, ok_bind]
  dsimp only
  rw [hIV, fwrite_ok hw, ok_bind]
  generalize initializationVector md name file = IV
  generalize mdDigest md [sizeBytes file.length, name] digest = digest₁
  obtain ⟨calls₁, hsetup⟩ := setup_ok hw cipher md .encrypt key IV digest₁ ⟨file, [] ++ IV, calls + 1⟩
  obtain ⟨context, output, last, hfeed, hfinish, htext⟩ :=
    law.encrypt_blocks (cipherKey cipher md key IV digest₁) IV file
  obtain ⟨calls₂, hloop⟩ :=
    @cryptLoop_ok w cipher .encrypt hw law.block_size_pos file.length hsize (file.length + 1) 0
    _ _ [] file [] output ⟨file, [] ++ IV, calls₁⟩ (List.append_nil file).symm rfl (Nat.lt_succ_self _) hfeed
  rw [hsetup, ok_bind]
  dsimp only [cipherKey] at hloop ⊢
  rw [hloop, ok_bind]
  simp only [cipher_finish, library_ok hw, ok_bind, hfinish, fwrite_ok hw, pure_bind]
  rw [sealed, ← htext]
  simp only [authenticated, hmacKey, List.nil_append, List.append_assoc]
  rfl

/-- Decryption of three parts: the size and the HMAC decide. The plain text is written before the
HMAC is compared. -/
theorem decryptFile_eq (hw : w.Works) (hblock : 0 < cipher.block_size) (key digest : List UInt8)
    {IV text tag output last : List UInt8} {context : cipher.Context} (hIV : IV.length = 16)
    (htag : tag.length = md.size) (htext : text.length < 2 ^ 32)
    (hfeed : feed cipher (cipher.setkey .decrypt (cipherKey cipher md key IV digest) IV)
      (chunks cipher.block_size text) = some (context, output)) (hfinish : cipher.finish context = some last) :
    decryptFile w cipher md key digest (IV ++ (text ++ tag)) =
      if cipher.gcm = false ∧ (16 + text.length) % cipher.block_size ≠ 0 then
        .error (.failure (notMultiple cipher.block_size) [])
      else if md.hmac (hmacKey md key IV digest) text ≠ tag then
        .error (.failure "HMAC check failed: wrong key, or file corrupted.\n" output)
      else .ok (output ++ last) := by
  have hlen : (IV ++ (text ++ tag)).length = 16 + text.length + md.size := by
    rw [List.length_append, List.length_append, hIV, htag, Nat.add_assoc]
  have hmd := md.size_range
  rw [decryptFile, hlen, if_neg (by omega), if_neg (by omega), Nat.add_sub_cancel]
  split
  case isTrue => rfl
  case isFalse =>
    have hrest : 16 + text.length + md.size - (16 + md.size) = text.length := by omega
    dsimp only
    rw [hrest]
    have hread := @fread_ok w ⟨IV ++ (text ++ tag), [], 0⟩ hw (bytesFailed "fread" 16) IV (text ++ tag) rfl
      (by omega)
    rw [hIV] at hread
    rw [hread, ok_bind]
    obtain ⟨calls, hsetup⟩ := setup_ok hw cipher md .decrypt key IV digest ⟨text ++ tag, [], 1⟩
    rw [cipherKey] at hfeed
    rw [hmacKey]
    generalize derived md key IV digest = digest₁ at hsetup hfeed
    obtain ⟨calls₂, hloop⟩ := @cryptLoop_ok w cipher .decrypt hw hblock text.length htext (text.length + 1) 0 _ _ []
      text tag output ⟨text ++ tag, [], calls⟩ rfl rfl (Nat.lt_succ_self _) hfeed
    rw [hsetup, ok_bind]
    dsimp only
    rw [hloop, ok_bind]
    dsimp only
    rw [library_ok hw, ok_bind]
    have hread' := @fread_ok w ⟨tag, [] ++ output, calls₂ + 1⟩ hw (bytesFailed "fread" md.size) tag []
      (List.append_nil tag).symm (by omega)
    rw [htag] at hread'
    rw [hread', ok_bind]
    dsimp only
    have hdiffer : differ (md.hmac (digest₁.take 32) ([] ++ authenticated .decrypt text output)) tag ≠ 0 ↔
        md.hmac (digest₁.take 32) text ≠ tag :=
      not_congr (differ_eq_zero (by rw [md.hmac_length, htag]))
    simp only [hdiffer]
    split
    case isTrue => rfl
    case isFalse =>
      simp only [cipher_finish, library_ok hw, ok_bind, hfinish, fwrite_ok hw, pure_bind, List.nil_append]
      rfl

/-- A file comes back as it was if the cipher fills its last block, or is GCM; otherwise the program
refuses the size of its own output. -/
theorem crypt_and_hash_round_trip {w' : World} (hw : w.Works) (hw' : w'.Works)
    (hkey : cipher.key_bitlen / 8 ≤ max 32 md.size) (key name digest digest' file : List UInt8)
    (hsize : ∀ k iv, (law.encrypt k iv file).length < 2 ^ 32) :
    ∃ out, encryptFile w cipher md key name digest file = .ok out ∧
      decryptFile w' cipher md key digest' out =
        if cipher.gcm = true ∨ (out.length - md.size) % cipher.block_size = 0 then .ok file
        else .error (.failure (notMultiple cipher.block_size) []) := by
  have hfile := Nat.lt_of_le_of_lt (law.encrypt_length [] [] file) (hsize [] [])
  refine ⟨_, encryptFile_ok law md hw key name digest hfile, ?_⟩
  have hIV := length_initializationVector md name file
  generalize initializationVector md name file = IV at hIV
  generalize mdDigest md [sizeBytes file.length, name] digest = digest₁
  have hcipherKey : cipherKey cipher md key IV digest₁ = cipherKey cipher md key IV digest' :=
    derived_take hIV digest₁ digest' hkey
  have hhmacKey : hmacKey md key IV digest₁ = hmacKey md key IV digest' :=
    derived_take hIV digest₁ digest' (Nat.le_max_left _ _)
  obtain ⟨context, output, last, hfeed, hfinish, htext⟩ :=
    law.decrypt_blocks (cipherKey cipher md key IV digest₁) IV file
  rw [length_sealed law md key digest₁ file hIV, sealed]
  generalize hc : law.encrypt (cipherKey cipher md key IV digest₁) IV file = text at hfeed
  have htext' : text.length < 2 ^ 32 := hc ▸ hsize _ _
  rw [hcipherKey] at hfeed
  rw [decryptFile_eq md hw' law.block_size_pos key digest' hIV (md.hmac_length _ _) htext' hfeed hfinish,
    hhmacKey, if_neg (not_not_intro rfl), htext]
  by_cases hmod : cipher.gcm = true ∨ (16 + text.length) % cipher.block_size = 0
  · rw [if_pos hmod, if_neg (by simpa [← Bool.not_eq_true, or_iff_not_imp_left] using hmod)]
  · rw [if_neg hmod, if_pos (by simpa using hmod)]

/-- With AES in counter mode a file of a whole block comes back, and one of two bytes does not. -/
theorem crypt_and_hash_round_trip_ctr :
    (∃ out, encryptFile works aes128Ctr md4 [1, 2] [97] [] (List.replicate 16 104) = .ok out ∧
      decryptFile works aes128Ctr md4 [1, 2] [7] out = .ok (List.replicate 16 104)) ∧
    ∃ out, encryptFile works aes128Ctr md4 [1, 2] [97] [] [104, 105] = .ok out ∧
      decryptFile works aes128Ctr md4 [1, 2] [7] out = .error (.failure (notMultiple 16) []) := by
  have hlength : ∀ k iv text, (aes128Ctr_lawful.encrypt k iv text).length = text.length :=
    fun k iv text => (stream_chunks (fun _ _ => Aes128.length_rounds _ _ _ _) k iv text).1
  have hround : ∀ file : List UInt8, file.length < 2 ^ 32 → ∃ out,
      encryptFile works aes128Ctr md4 [1, 2] [97] [] file = .ok out ∧ out.length - 16 = 16 + file.length ∧
        decryptFile works aes128Ctr md4 [1, 2] [7] out =
          if false = true ∨ (out.length - 16) % 16 = 0 then .ok file
          else .error (.failure (notMultiple 16) []) := by
    intro file hfile
    obtain ⟨out, hencrypt, hdecrypt⟩ := crypt_and_hash_round_trip aes128Ctr_lawful md4 works_works works_works
      (by decide) [1, 2] [97] [] [7] file (fun _ _ => by rwa [hlength])
    refine ⟨out, hencrypt, ?_, hdecrypt⟩
    have hsealed := encryptFile_ok aes128Ctr_lawful md4 works_works [1, 2] [97] [] hfile
    rw [hencrypt, Except.ok.injEq] at hsealed
    have hlen := length_sealed aes128Ctr_lawful md4 [1, 2] (mdDigest md4 [sizeBytes file.length, [97]] []) file
      (length_initializationVector md4 [97] file)
    rwa [← hsealed, hlength] at hlen
  constructor
  · obtain ⟨out, hencrypt, hlen, hdecrypt⟩ := hround (List.replicate 16 104) (by decide)
    rw [if_pos (.inr (by rw [hlen]; rfl))] at hdecrypt
    exact ⟨out, hencrypt, hdecrypt⟩
  · obtain ⟨out, hencrypt, hlen, hdecrypt⟩ := hround [104, 105] (by decide)
    rw [if_neg (by rw [hlen]; decide)] at hdecrypt
    exact ⟨out, hencrypt, hdecrypt⟩

end RoundTrip

end CryptAndHash

end CPractice
