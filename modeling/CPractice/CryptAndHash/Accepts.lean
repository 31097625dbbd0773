import CPractice.CryptAndHash.RoundTrip

/-! What has to be true of a file that the program accepts, whatever fails on the way. -/

namespace CPractice

namespace CryptAndHash

open CMem CInt Chunks

section Calls

variable {w : World} {message : String} {s s' : Files}

/-- A call that returns leaves both files as they are. -/
def SameFiles (s s' : Files) : Prop := s'.fin = s.fin ∧ s'.fout = s.fout

theorem library_eq_ok (h : library w message s = .ok s') : SameFiles s s' := by
  rw [library] at h
  split at h
  · cases h
  · cases h
    exact ⟨rfl, rfl⟩

theorem fread_eq_ok {n : Nat} {buffer : List UInt8} (h : fread w message n s = .ok (buffer, s')) :
    s.fin = buffer ++ s'.fin ∧ buffer.length = n ∧ n ≤ 1024 ∧ s'.fout = s.fout := by
  unfold fread at h
  dsimp only at h
  split at h
  · cases h
  · rename_i hle
    split at h
    · cases h
    · rename_i hlen
      rw [not_not] at hlen
      cases h
      refine ⟨?_, hlen, by omega, rfl⟩
      have hmin : min n (w.bytes s.calls n) = n := by
        rw [List.length_take] at hlen
        omega
      rw [hmin]
      exact (List.take_append_drop n s.fin).symm

theorem fwrite_eq_ok {output : List UInt8} (h : fwrite w message output s = .ok s') :
    s'.fin = s.fin ∧ s'.fout = s.fout ++ output := by
  unfold fwrite at h
  dsimp only at h
  split at h
  · cases h
  · rename_i hlen
    rw [not_not] at hlen
    cases h
    refine ⟨rfl, ?_⟩
    rw [hlen, List.take_length]

variable {md : Md} {digest digest' : List UInt8}

theorem SameFiles.trans {s₁ s₂ s₃ : Files} (h : SameFiles s₁ s₂) (h' : SameFiles s₂ s₃) : SameFiles s₁ s₃ :=
  ⟨h'.1.trans h.1, h'.2.trans h.2⟩

theorem md_digest_eq_ok {parts : List (List UInt8)} (h : md_digest w md parts digest s = .ok (digest', s')) :
    digest' = mdDigest md parts digest ∧ SameFiles s s' := by
  have hupdates : ∀ (l : List (List UInt8)) (s s' : Files),
      l.foldlM (fun s _ => library w (returnedError "mbedtls_md_update") s) s = .ok s' → SameFiles s s' := by
    intro l
    induction l with
    | nil =>
      intro s s' h
      cases h
      exact ⟨rfl, rfl⟩
    | cons _ l ih =>
      intro s s' h
      rw [List.foldlM_cons] at h
      obtain ⟨s₁, hfirst, hrest⟩ := bind_eq_ok.mp h
      exact (library_eq_ok hfirst).trans (ih s₁ s' hrest)
  rw [md_digest] at h
  obtain ⟨s₁, hstarts, h⟩ := bind_eq_ok.mp h
  obtain ⟨s₂, hupdate, h⟩ := bind_eq_ok.mp h
  obtain ⟨s₃, hfinish, h⟩ := bind_eq_ok.mp h
  cases h
  exact ⟨rfl, ((library_eq_ok hstarts).trans (hupdates _ _ _ hupdate)).trans (library_eq_ok hfinish)⟩

theorem hashRounds_eq_ok {key : List UInt8} {n : Nat} (h : hashRounds w md key n digest s = .ok (digest', s')) :
    digest' = rounds md key n digest ∧ SameFiles s s' := by
  induction n generalizing digest s with
  | zero =>
    cases h
    exact ⟨rfl, rfl, rfl⟩
  | succ n ih =>
    rw [hashRounds] at h
    obtain ⟨⟨digest₁, s₁⟩, hdigest, hrest⟩ := bind_eq_ok.mp h
    obtain ⟨rfl, hsame⟩ := md_digest_eq_ok hdigest
    obtain ⟨rfl, hsame'⟩ := ih hrest
    exact ⟨rfl, hsame.trans hsame'⟩

theorem setup_eq_ok {cipher : Cipher} {op : Operation} {key IV : List UInt8} {context : cipher.Context}
    (h : setup w cipher md op key IV digest s = .ok (context, digest', s')) :
    digest' = derived md key IV digest ∧ context = cipher.setkey op (cipherKey cipher md key IV digest) IV ∧
      SameFiles s s' := by
  rw [setup] at h
  obtain ⟨⟨digest₁, s₁⟩, hrounds, h⟩ := bind_eq_ok.mp h
  obtain ⟨hdigest, hsame⟩ := hashRounds_eq_ok hrounds
  obtain ⟨s₂, hsetkey, h⟩ := bind_eq_ok.mp h
  obtain ⟨s₃, hiv, h⟩ := bind_eq_ok.mp h
  obtain ⟨s₄, hreset, h⟩ := bind_eq_ok.mp h
  obtain ⟨s₅, hstarts, h⟩ := bind_eq_ok.mp h
  cases h
  have hrest : SameFiles s₁ s' :=
    (((library_eq_ok hsetkey).trans (library_eq_ok hiv)).trans (library_eq_ok hreset)).trans (library_eq_ok hstarts)
  refine ⟨hdigest, ?_, hsame.trans hrest⟩
  rw [cipherKey, derived, ← hdigest]

variable {cipher : Cipher} {context context' : cipher.Context}

theorem cipher_update_eq_ok {buffer output : List UInt8}
    (h : cipher_update w cipher context buffer s = .ok (context', output, s')) :
    cipher.update context buffer = some (context', output) ∧ SameFiles s s' := by
  rw [cipher_update] at h
  obtain ⟨s₁, hlibrary, h⟩ := bind_eq_ok.mp h
  split at h
  · cases h
  · rename_i hupdate
    cases h
    exact ⟨hupdate, library_eq_ok hlibrary⟩

theorem cipher_finish_eq_ok {output : List UInt8} (h : cipher_finish w cipher context s = .ok (output, s')) :
    cipher.finish context = some output ∧ SameFiles s s' := by
  rw [cipher_finish] at h
  obtain ⟨s₁, hlibrary, h⟩ := bind_eq_ok.mp h
  split at h
  · cases h
  · rename_i hfinish
    cases h
    exact ⟨hfinish, library_eq_ok hlibrary⟩

end Calls

section Loop

variable {w : World} {cipher : Cipher} {op : Operation} {filesize fuel offset : Nat}
    {context context' : cipher.Context}
  {hmac hmac' : List UInt8} {s s' : Files}

theorem cryptLoop_step {r : cipher.Context × List UInt8 × Files} (hoff : offset < filesize)
    (h : cryptLoop w cipher op filesize (fuel + 1) offset context hmac s = .ok r) :
    ∃ buffer context₁ output s₁, s.fin = buffer ++ s₁.fin ∧
      buffer.length = chunkLength cipher.block_size filesize offset ∧ buffer.length ≤ 1024 ∧
      cipher.update context buffer = some (context₁, output) ∧ s₁.fout = s.fout ++ output ∧
      cryptLoop w cipher op filesize fuel (offset + cipher.block_size) context₁
        (hmac ++ authenticated op buffer output) s₁ = .ok r := by
  rw [cryptLoop, if_pos hoff] at h
  cases op with
  | encrypt =>
    obtain ⟨⟨buffer, s₁⟩, hread, h⟩ := bind_eq_ok.mp h
    obtain ⟨⟨context₁, output, s₂⟩, hupdate, h⟩ := bind_eq_ok.mp h
    obtain ⟨s₃, hhmac, h⟩ := bind_eq_ok.mp h
    obtain ⟨s₄, hwrite, h⟩ := bind_eq_ok.mp h
    obtain ⟨hfin, hlen, hle, hfout⟩ := fread_eq_ok hread
    obtain ⟨hupdate, hsame⟩ := cipher_update_eq_ok hupdate
    have hsame := hsame.trans (library_eq_ok hhmac)
    obtain ⟨hfin', hfout'⟩ := fwrite_eq_ok hwrite
    refine ⟨buffer, context₁, output, s₄, ?_, hlen, hlen ▸ hle, hupdate, ?_, h⟩
    · rw [hfin', hsame.1, hfin]
    · rw [hfout', hsame.2, hfout]
  | decrypt =>
    obtain ⟨⟨buffer, s₁⟩, hread, h⟩ := bind_eq_ok.mp h
    obtain ⟨s₂, hhmac, h⟩ := bind_eq_ok.mp h
    obtain ⟨⟨context₁, output, s₃⟩, hupdate, h⟩ := bind_eq_ok.mp h
    obtain ⟨s₄, hwrite, h⟩ := bind_eq_ok.mp h
    obtain ⟨hfin, hlen, hle, hfout⟩ := fread_eq_ok hread
    obtain ⟨hupdate, hsame⟩ := cipher_update_eq_ok hupdate
    have hsame := (library_eq_ok hhmac).trans hsame
    obtain ⟨hfin', hfout'⟩ := fwrite_eq_ok hwrite
    refine ⟨buffer, context₁, output, s₄, ?_, hlen, hlen ▸ hle, hupdate, ?_, h⟩
    · rw [hfin', hsame.1, hfin]
    · rw [hfout', hsame.2, hfout]

theorem cryptLoop_eq_ok (hblock : 0 < cipher.block_size) (hsize : filesize < 2 ^ 32)
    (h : cryptLoop w cipher op filesize fuel offset context hmac s = .ok (context', hmac', s')) :
    ∃ input output, s.fin = input ++ s'.fin ∧ input.length = filesize - offset ∧
      feed cipher context (chunks cipher.block_size input) = some (context', output) ∧
      hmac' = hmac ++ authenticated op input output ∧ s'.fout = s.fout ++ output := by
  induction fuel generalizing offset context hmac s with
  | zero => cases h
  | succ fuel ih =>
    by_cases hoff : offset < filesize
    · obtain ⟨buffer, context₁, output, s₁, hfin, hlen, -, hupdate, hfout, hrest⟩ := cryptLoop_step hoff h
      obtain ⟨input, outputs, hfin', hlen', hfeed, rfl, hfout'⟩ := ih hrest
      rw [chunkLength_eq hsize hoff] at hlen
      have hcut : (buffer ++ input).take cipher.block_size = buffer ∧
        (buffer ++ input).drop cipher.block_size = input := by
        rcases Nat.lt_or_ge (filesize - offset) cipher.block_size with hlt | hge
        · obtain rfl := List.eq_nil_of_length_eq_zero (show input.length = 0 by omega)
          rw [List.append_nil]
          exact ⟨List.take_of_length_le (by omega), List.drop_of_length_le (by omega)⟩
        · exact ⟨List.take_left' (by omega), List.drop_left' (by omega)⟩
      have hne : buffer ++ input ≠ [] := List.append_ne_nil_of_left_ne_nil (List.ne_nil_of_length_pos (by omega)) _
      refine ⟨buffer ++ input, output ++ outputs, ?_, ?_, ?_, ?_, ?_⟩
      · rw [hfin, hfin', List.append_assoc]
      · rw [List.length_append]
        omega
      · rw [chunks_eq hblock hne, hcut.1, hcut.2]
        exact feed_cons_eq_some.mpr ⟨context₁, output, outputs, hupdate, hfeed, rfl⟩
      · cases op with
        | encrypt => exact List.append_assoc _ _ _
        | decrypt => exact List.append_assoc _ _ _
      · rw [hfout', hfout, List.append_assoc]
    · rw [cryptLoop, if_neg hoff] at h
      cases h
      refine ⟨[], [], rfl, ?_, rfl, ?_, (List.append_nil _).symm⟩
      · exact (Nat.sub_eq_zero_of_le (Nat.le_of_not_lt hoff)).symm
      · cases op with
        | encrypt => exact (List.append_nil _).symm
        | decrypt => exact (List.append_nil _).symm

/-- Behind the size modulo `2 ^ 32` the length of a chunk wraps around, to more than the buffer holds. -/
theorem chunkLength_wraps {block_size : Nat} (hblock : block_size ≤ 16)
    (hlt : filesize % 2 ^ 32 < offset) (hle : offset ≤ filesize % 2 ^ 32 + block_size) :
    1024 < chunkLength block_size filesize offset := by
  rw [chunkLength]
  unfold toUnsigned
  split <;> omega

theorem cryptLoop_large (hsize : 2 ^ 32 ≤ filesize) (hoff : offset ≤ filesize % 2 ^ 32 + cipher.block_size)
    (r : cipher.Context × List UInt8 × Files) :
      cryptLoop w cipher op filesize fuel offset context hmac s ≠ .ok r := by
  induction fuel generalizing offset context hmac s with
  | zero =>
    intro h
    cases h
  | succ fuel ih =>
    intro h
    have hblock := cipher.block_size_le
    have hlt : offset < filesize := by omega
    obtain ⟨buffer, context₁, output, s₁, -, hlen, hle, -, -, hrest⟩ := cryptLoop_step hlt h
    rcases Nat.lt_or_ge (filesize % 2 ^ 32) offset with hwrap | hin
    · have hlong := chunkLength_wraps hblock hwrap hoff
      omega
    · exact ih (by omega) hrest

theorem lt_of_cryptLoop_ok {r : cipher.Context × List UInt8 × Files}
    (h : cryptLoop w cipher op filesize fuel 0 context hmac s = .ok r) : filesize < 2 ^ 32 := by
  by_contra hge
  exact cryptLoop_large (Nat.le_of_not_lt hge) (Nat.zero_le _) r h

end Loop

section Files

variable {w : World} {cipher : Cipher} {md : Md} {key digest file plain : List UInt8}

/-- A decrypted file was an initialization vector, a text, and the HMAC of the text under the key that the
vector gives, and the text decrypts to what was written. -/
theorem decrypt_accepts_only_authenticated (h : decryptFile w cipher md key digest file = .ok plain) :
    ∃ IV text context output last, IV.length = 16 ∧ text.length < 2 ^ 32 ∧
      (cipher.gcm = false → (16 + text.length) % cipher.block_size = 0) ∧
      file = IV ++ (text ++ md.hmac (hmacKey md key IV digest) text) ∧
      feed cipher (cipher.setkey .decrypt (cipherKey cipher md key IV digest) IV) (chunks cipher.block_size text) =
        some (context, output) ∧
      cipher.finish context = some last ∧ plain = output ++ last := by
  unfold decryptFile at h
  dsimp only at h
  split at h
  case isTrue => cases h
  case isFalse hshort =>
    split at h
    case isTrue => cases h
    case isFalse hblock =>
      split at h
      case isTrue => cases h
      case isFalse hmultiple =>
        obtain ⟨⟨IV, s₁⟩, hread, h⟩ := bind_eq_ok.mp h
        obtain ⟨⟨context, digest₁, s₂⟩, hsetup, h⟩ := bind_eq_ok.mp h
        obtain ⟨⟨context', hmac, s₃⟩, hloop, h⟩ := bind_eq_ok.mp h
        obtain ⟨s₄, hhmac, h⟩ := bind_eq_ok.mp h
        obtain ⟨⟨tag, s₅⟩, hread', h⟩ := bind_eq_ok.mp h
        obtain ⟨hfin, hIV, -, hfout⟩ := fread_eq_ok hread
        obtain ⟨hdigest, rfl, hfin₂, hfout₂⟩ := setup_eq_ok hsetup
        have hsize := lt_of_cryptLoop_ok hloop
        obtain ⟨text, output, hfin₃, htext, hfeed, hbytes, hfout₃⟩ :=
          cryptLoop_eq_ok (Nat.pos_of_ne_zero hblock) hsize hloop
        have hbytes : hmac = text := hbytes
        obtain ⟨hfin₄, hfout₄⟩ := library_eq_ok hhmac
        obtain ⟨hfin₅, htag, -, hfout₅⟩ := fread_eq_ok hread'
        dsimp only at h hfin hfout
        split at h
        case isTrue => cases h
        case isFalse hdiffer =>
          obtain ⟨⟨last, s₆⟩, hfinish, h⟩ := bind_eq_ok.mp h
          obtain ⟨s₇, hwrite, h⟩ := bind_eq_ok.mp h
          cases h
          obtain ⟨hfinish, hfin₆, hfout₆⟩ := cipher_finish_eq_ok hfinish
          obtain ⟨hfin₇, hfout₇⟩ := fwrite_eq_ok hwrite
          rw [not_not, differ_eq_zero (by rw [md.hmac_length, htag]), hbytes] at hdiffer
          have hkey : digest₁.take 32 = hmacKey md key IV digest := by rw [hdigest, hmacKey]
          have hfile : file = IV ++ (text ++ tag ++ s₅.fin) := by
            rw [hfin, ← hfin₂, hfin₃, ← hfin₄, hfin₅, List.append_assoc]
          have hlen := congrArg List.length hfile
          simp only [List.length_append, hIV, htag, htext] at hlen
          have hend : s₅.fin = [] := List.eq_nil_of_length_eq_zero (by omega)
          refine ⟨IV, text, context', output, last, hIV, by omega, ?_, ?_, hfeed, hfinish, ?_⟩
          · intro hgcm
            by_contra hmod
            refine hmultiple ⟨hgcm, ?_⟩
            have heq : file.length - md.size = 16 + text.length := by omega
            rwa [heq]
          · rw [hfile, hend, List.append_nil, ← hdiffer, hkey]
          · rw [hfout₇, hfout₆, hfout₅, hfout₄, hfout₃, hfout₂, hfout, List.nil_append]

theorem decryptFile_null : decryptFile works nullCipher md4 [1, 2] [7]
    (sealed nullCipher_lawful md4 [1, 2] (List.replicate 16 0) [7] [104, 105]) = .ok [104, 105] := by
  have hsealed : sealed nullCipher_lawful md4 [1, 2] (List.replicate 16 0) [7] [104, 105] =
      List.replicate 16 0 ++ ([104, 105] ++ md4.hmac (hmacKey md4 [1, 2] (List.replicate 16 0) [7]) [104, 105]) :=
        rfl
  have htext : [(104 : UInt8), 105].length < 2 ^ 32 := by decide
  rw [hsealed, decryptFile_eq md4 works_works Nat.one_pos [1, 2] [7] rfl (md4.hmac_length _ _) htext
    (feed_chunks_nullCipher [104, 105]) rfl, if_neg (fun h => h.2 (Nat.mod_one _)), if_neg (not_not_intro rfl),
    List.append_nil]

theorem decrypt_accepts_only_authenticated_null : ∃ IV text context output last, IV.length = 16 ∧
    text.length < 2 ^ 32 ∧ (nullCipher.gcm = false → (16 + text.length) % nullCipher.block_size = 0) ∧
    sealed nullCipher_lawful md4 [1, 2] (List.replicate 16 0) [7] [104, 105] =
      IV ++ (text ++ md4.hmac (hmacKey md4 [1, 2] IV [7]) text) ∧
    feed nullCipher (nullCipher.setkey .decrypt (cipherKey nullCipher md4 [1, 2] IV [7]) IV)
      (chunks nullCipher.block_size text) = some (context, output) ∧
    nullCipher.finish context = some last ∧ [104, 105] = output ++ last :=
  decrypt_accepts_only_authenticated decryptFile_null

theorem lt_of_encryptFile_ok {name out : List UInt8} (h : encryptFile w cipher md key name digest file = .ok out) :
    file.length < 2 ^ 32 := by
  rw [encryptFile] at h
  obtain ⟨r₁, -, h⟩ := bind_eq_ok.mp h
  obtain ⟨r₂, -, h⟩ := bind_eq_ok.mp h
  obtain ⟨r₃, -, h⟩ := bind_eq_ok.mp h
  obtain ⟨r₄, hloop, h⟩ := bind_eq_ok.mp h
  exact lt_of_cryptLoop_ok hloop

section Large

variable (hw : w.Works) {filesize fuel offset : Nat} {context context' : cipher.Context} 
  {hmac input rest output : List UInt8}
  {s : Files}

include hw in
theorem fread_long {message : String} {n : Nat} (hn : 1024 < n) (hfin : 1024 < s.fin.length) :
    fread w message n s = .error (.fault .outOfBounds) := by
  rw [fread, hw.2, Nat.min_self, if_pos (by rw [List.length_take]; omega)]

include hw in
/-- The read that is asked for more than the buffer holds. -/
theorem cryptLoop_wraps (hlt : filesize % 2 ^ 32 < offset) (hle : offset ≤ filesize % 2 ^ 32 + cipher.block_size)
    (hoff : offset < filesize) (hfin : 1024 < s.fin.length) :
    cryptLoop w cipher .encrypt filesize (fuel + 1) offset context hmac s = .error (.fault .outOfBounds) := by
  have hlong := chunkLength_wraps cipher.block_size_le hlt hle
  rw [cryptLoop, if_pos hoff]
  dsimp only
  rw [fread_long hw hlong hfin]
  rfl

theorem chunkLength_large {block_size : Nat} (hle : offset ≤ filesize % 2 ^ 32) (hblock : block_size ≤ 16) :
    chunkLength block_size filesize offset = min block_size (filesize % 2 ^ 32 - offset) := by
  rw [chunkLength]
  unfold toUnsigned
  split <;> omega

include hw in
/-- The first `filesize` modulo `2 ^ 32` bytes are encrypted, then the length of a chunk wraps around. -/
theorem cryptLoop_overflows (hblock : 0 < cipher.block_size) (hsize : 2 ^ 32 ≤ filesize) (hfin : s.fin = input ++ rest)
    (hoffset : offset + input.length = filesize % 2 ^ 32) (hfuel : input.length + 1 < fuel) (hrest : 1024 < rest.length)
    (hfeed : feed cipher context (chunks cipher.block_size input) = some (context', output)) :
    cryptLoop w cipher .encrypt filesize fuel offset context hmac s = .error (.fault .outOfBounds) ∨
      input.length % cipher.block_size = 0 ∧ ∃ fout,
        cryptLoop w cipher .encrypt filesize fuel offset context hmac s =
          .error (.failure (returnedError "mbedtls_cipher_update") fout) := by
  induction fuel generalizing offset context hmac input output s with
  | zero => omega
  | succ fuel ih =>
    have hbound := cipher.block_size_le
    have hlt : filesize % 2 ^ 32 < 2 ^ 32 := Nat.mod_lt _ (by decide)
    have hoff : offset < filesize := by omega
    have hchunk := @chunkLength_large filesize offset cipher.block_size (by omega) hbound
    have htake : (input.take cipher.block_size).length = chunkLength cipher.block_size filesize offset := by
      rw [hchunk, List.length_take]
      omega
    have hsplit : s.fin = input.take cipher.block_size ++ (input.drop cipher.block_size ++ rest) := by
      rw [hfin, ← List.append_assoc, List.take_append_drop]
    have hread := fun message => fread_ok hw message hsplit (show (input.take cipher.block_size).length ≤ 1024 by
      rw [List.length_take]
      omega)
    obtain ⟨fuel, rfl⟩ : ∃ n, fuel = n + 1 := ⟨fuel - 1, by omega⟩
    by_cases hnil : input = []
    · subst hnil
      have hzero : chunkLength cipher.block_size filesize offset = 0 := by rw [← htake, List.take_nil, List.length_nil]
      rw [List.take_nil, List.length_nil] at hread
      rw [cryptLoop, if_pos hoff, hzero]
      simp only [hread, ok_bind, cipher_update, library_ok hw]
      cases hupdate : cipher.update context [] with
      | none => exact .inr ⟨Nat.zero_mod _, _, rfl⟩
      | some r =>
        refine .inl ?_
        simp only [pure_bind, ok_bind, fwrite_ok hw]
        rw [List.length_nil, Nat.add_zero] at hoffset
        exact cryptLoop_wraps hw (by omega) (by omega) (by omega) (by rwa [List.drop_nil, List.nil_append])
    · rw [chunks_eq hblock hnil] at hfeed
      obtain ⟨context₁, out₁, out₂, hupdate, hnext, rfl⟩ := feed_cons_eq_some.mp hfeed
      have hpos := List.length_pos_iff.mpr hnil
      rw [cryptLoop, if_pos hoff, ← htake]
      simp only [hread, ok_bind, cipher_update, library_ok hw, hupdate, pure_bind, fwrite_ok hw]
      rcases Nat.lt_or_ge input.length cipher.block_size with hshort | hlong
      · have hdrop : input.drop cipher.block_size = [] := List.drop_of_length_le (by omega)
        exact .inl (cryptLoop_wraps hw (by omega) (by omega) (by omega) (by rwa [hdrop, List.nil_append]))
      · have hdrop : (input.drop cipher.block_size).length = input.length - cipher.block_size := List.length_drop
        have hmod : (input.drop cipher.block_size).length % cipher.block_size = input.length % cipher.block_size := by
          rw [hdrop, ← Nat.mod_eq_sub_mod hlong]
        rw [← hmod]
        exact ih rfl (by omega) (by omega) hnext

end Large

/-- The encryption succeeds for the files below 4 GiB and only for them. In a larger one the length of
a chunk wraps around and `fread` writes behind the buffer, unless the cipher refuses the empty chunk
that comes before when the size modulo 4 GiB is a multiple of its blocks. -/
theorem encrypts_iff_below_4_gib (law : cipher.Lawful) (hw : w.Works) (name : List UInt8) :
    ((∃ out, encryptFile w cipher md key name digest file = .ok out) ↔ file.length < 2 ^ 32) ∧
      (2 ^ 32 ≤ file.length → encryptFile w cipher md key name digest file = .error (.fault .outOfBounds) ∨
        file.length % 2 ^ 32 % cipher.block_size = 0 ∧ ∃ fout, encryptFile w cipher md key name digest file =
          .error (.failure (returnedError "mbedtls_cipher_update") fout)) := by
  refine ⟨⟨?_, fun hsize => ⟨_, encryptFile_ok law md hw key name digest hsize⟩⟩, fun hsize => ?_⟩
  · rintro ⟨out, h⟩
    exact lt_of_encryptFile_ok h
  · obtain ⟨calls, hdigest⟩ := md_digest_ok hw md [sizeBytes file.length, name] digest ⟨file, [], 0⟩
    rw [encryptFile, hdigest, ok_bind]
    dsimp only
    rw [fwrite_ok hw, ok_bind]
    generalize (mdDigest md [sizeBytes file.length, name] digest).take 16 = IV
    generalize mdDigest md [sizeBytes file.length, name] digest = digest₁
    obtain ⟨calls₁, hsetup⟩ := setup_ok hw cipher md .encrypt key IV digest₁ ⟨file, [] ++ IV, calls + 1⟩
    rw [hsetup, ok_bind]
    dsimp only
    have hlt : file.length % 2 ^ 32 < 2 ^ 32 := Nat.mod_lt _ (by decide)
    have htake : (file.take (file.length % 2 ^ 32)).length = file.length % 2 ^ 32 :=
      List.length_take_of_le (Nat.mod_le _ _)
    have hmod := Nat.div_add_mod file.length (2 ^ 32)
    obtain ⟨context, output, last, hfeed, -⟩ :=
      law.encrypt_blocks ((derived md key IV digest₁).take (cipher.key_bitlen / 8))
      IV (file.take (file.length % 2 ^ 32))
    have hloop := @cryptLoop_overflows w cipher hw file.length (file.length + 1) 0 _ _ []
      (file.take (file.length % 2 ^ 32))
      (file.drop (file.length % 2 ^ 32)) output ⟨file, [] ++ IV, calls₁⟩ law.block_size_pos hsize
      (List.take_append_drop _ _).symm (by rw [htake, Nat.zero_add]) (by omega)
      (by rw [List.length_drop]; omega) hfeed
    rw [htake] at hloop
    rcases hloop with hfault | ⟨hmultiple, fout, hfailure⟩
    · rw [hfault]
      exact .inl rfl
    · rw [hfailure]
      exact .inr ⟨hmultiple, fout, rfl⟩

theorem encrypts_iff_below_4_gib_ctr :
    (∃ out, encryptFile works aes128Ctr md4 [1, 2] [97] [] [104, 105] = .ok out) ∧
      encryptFile works aes128Ctr md4 [1, 2] [97] [] (List.replicate (2 ^ 32 + 1) 104) = .error (.fault .outOfBounds) := by
  refine ⟨(encrypts_iff_below_4_gib aes128Ctr_lawful works_works [97]).1.mpr (by decide), ?_⟩
  have hlen : (List.replicate (2 ^ 32 + 1) (104 : UInt8)).length = 2 ^ 32 + 1 := List.length_replicate
  have hlarge := (@encrypts_iff_below_4_gib _ _ md4 [1, 2] [] _ aes128Ctr_lawful works_works [97]).2
    (Nat.le_of_lt (by rw [hlen]; decide))
  rw [hlen] at hlarge
  exact hlarge.resolve_right fun h => absurd h.1 (by decide)

end Files

end CryptAndHash

end CPractice
