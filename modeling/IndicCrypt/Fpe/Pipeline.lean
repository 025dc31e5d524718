import IndicCrypt.Crypto.Kdf
import IndicCrypt.Fpe.Ff1

/-!
# From symbols to symbols

The pipeline around FF1: a text of symbols is encoded by the domain, its digits are encrypted,
and the digits of the ciphertext are decoded to symbols again. The two directions are inverse to
each other on the texts over the alphabet, and they return exactly where FF1 does
(`symbol_cipher`).

A derived key has the size that was asked for, so this size alone says which cipher accepts it
(`derived_key_accepted_iff`).
-/

namespace IndicCrypt.Fpe

open Positional Run Crypto Text

/-! ## The pipeline -/

namespace Pipeline

def encrypt (evp : Evp) (parameters : FpeParameters) (plaintext : List IndicSymbol) :
    Result (List IndicSymbol) := do
  let digits ← parameters.domain.encode plaintext
  let ciphertext ← Ff1.encrypt evp parameters digits
  parameters.domain.decode ciphertext

def decrypt (evp : Evp) (parameters : FpeParameters) (ciphertext : List IndicSymbol) :
    Result (List IndicSymbol) := do
  let digits ← parameters.domain.encode ciphertext
  let plaintext ← Ff1.decrypt evp parameters digits
  parameters.domain.decode plaintext

end Pipeline

section Ff1

variable {evp : Evp} {parameters : FpeParameters} {X Y : List Nat}

theorem encrypt_iff_decrypt {E : BlockFunction} (hE : AesBlock.Computes evp E) :
    Ff1.encrypt evp parameters X = .ok Y ↔ Ff1.decrypt evp parameters Y = .ok X := by
  constructor
  · intro h
    obtain ⟨Y', hEncrypt, hDecrypt, -⟩ := (takes_of_encrypt ⟨Y, h⟩).encrypt_eq_ok hE
    rw [h, Except.ok.injEq] at hEncrypt
    rw [hEncrypt, hDecrypt]
  · intro h
    obtain ⟨X', hDecrypt, hEncrypt⟩ := (takes_of_decrypt ⟨X, h⟩).decrypt_eq_ok hE
    rw [h, Except.ok.injEq] at hDecrypt
    rw [hDecrypt, hEncrypt]

end Ff1

section Symbols

variable {evp : Evp} {parameters : FpeParameters} {s t : List IndicSymbol}

theorem Pipeline.encrypt_eq_ok : Pipeline.encrypt evp parameters s = .ok t ↔
    ∃ X Y, parameters.domain.alphabet.Spells s X ∧ Ff1.encrypt evp parameters X = .ok Y ∧
      parameters.domain.alphabet.Spells t Y := by
  simp only [Pipeline.encrypt, bind_eq_ok, FpeDomain.encode_eq_ok, FpeDomain.decode_eq_ok]
  constructor
  · intro h
    obtain ⟨X, hX, Y, hFf1, hY⟩ := h
    exact ⟨X, Y, hX, hFf1, hY⟩
  · intro h
    obtain ⟨X, Y, hX, hFf1, hY⟩ := h
    exact ⟨X, hX, Y, hFf1, hY⟩

theorem Pipeline.decrypt_eq_ok : Pipeline.decrypt evp parameters t = .ok s ↔
    ∃ X Y, parameters.domain.alphabet.Spells s X ∧ Ff1.decrypt evp parameters Y = .ok X ∧
      parameters.domain.alphabet.Spells t Y := by
  simp only [Pipeline.decrypt, bind_eq_ok, FpeDomain.encode_eq_ok, FpeDomain.decode_eq_ok]
  constructor
  · intro h
    obtain ⟨Y, hY, X, hFf1, hX⟩ := h
    exact ⟨X, Y, hX, hFf1, hY⟩
  · intro h
    obtain ⟨X, Y, hX, hFf1, hY⟩ := h
    exact ⟨Y, hY, X, hFf1, hX⟩

theorem Pipeline.encrypt_iff_decrypt {E : BlockFunction} (hE : AesBlock.Computes evp E) :
    Pipeline.encrypt evp parameters s = .ok t ↔ Pipeline.decrypt evp parameters t = .ok s := by
  simp only [Pipeline.encrypt_eq_ok, Pipeline.decrypt_eq_ok, IndicCrypt.Fpe.encrypt_iff_decrypt hE]

theorem Pipeline.encrypt_isOk {E : BlockFunction} (hE : AesBlock.Computes evp E)
    (hLow : 2 ≤ s.length) (hHigh : s.length ≤ 4096)
    (hMem : ∀ symbol ∈ s, symbol ∈ parameters.domain.alphabet.symbols)
    (hKey : AesBlock.ValidKeySize parameters.key.size)
    (hSmall : parameters.domain.alphabet.symbols.length ≤ 65536) :
    IsOk (Pipeline.encrypt evp parameters s) := by
  have hRadix := parameters.domain.radix_eq
  obtain ⟨X, hX⟩ := FpeAlphabet.exists_spells_of_mem hMem
  have hDigits : Digits parameters.domain.radix.value X := hRadix ▸ hX.digits_lt
  rw [hX.length_eq] at hLow hHigh
  have hTakes : Takes parameters X := ⟨hLow, hHigh, hDigits, hKey, hRadix.trans_le hSmall⟩
  obtain ⟨Y, hFf1, -, -, hY⟩ := hTakes.encrypt_eq_ok hE
  rw [hRadix] at hY
  obtain ⟨t, ht⟩ := FpeAlphabet.exists_spells_of_digits hY
  exact ⟨t, Pipeline.encrypt_eq_ok.mpr ⟨X, Y, hX, hFf1, ht⟩⟩

/-- **The cipher on symbols.** With a total block cipher interface, the two directions of the
pipeline are inverse to each other and keep the length and the alphabet. Encryption returns
exactly on texts of 2 to 4096 symbols of the alphabet, under a key of 16, 24 or 32 bytes and at
most 65536 symbols. -/
theorem symbol_cipher {evp : Evp} (hTotal : AesBlock.Total evp) (parameters : FpeParameters)
    (s : List IndicSymbol) :
    (∀ t, Pipeline.encrypt evp parameters s = .ok t ↔ Pipeline.decrypt evp parameters t = .ok s) ∧
    (∀ t, Pipeline.encrypt evp parameters s = .ok t →
      t.length = s.length ∧ ∀ symbol ∈ t, symbol ∈ parameters.domain.alphabet.symbols) ∧
    (IsOk (Pipeline.encrypt evp parameters s) ↔
      2 ≤ s.length ∧ s.length ≤ 4096 ∧
        (∀ symbol ∈ s, symbol ∈ parameters.domain.alphabet.symbols) ∧
        AesBlock.ValidKeySize parameters.key.size ∧
        parameters.domain.alphabet.symbols.length ≤ 65536) := by
  obtain ⟨E, hE⟩ := hTotal.exists_computes
  have hRadix := parameters.domain.radix_eq
  refine ⟨fun t => Pipeline.encrypt_iff_decrypt hE, fun t h => ?_, ?_, fun h => ?_⟩
  · obtain ⟨X, Y, hX, hFf1, hY⟩ := Pipeline.encrypt_eq_ok.mp h
    obtain ⟨Y', hEncrypt, -, hLength, -⟩ := (takes_of_encrypt ⟨Y, hFf1⟩).encrypt_eq_ok hE
    rw [hFf1, Except.ok.injEq] at hEncrypt
    subst hEncrypt
    exact ⟨hY.length_eq.trans (hLength.trans hX.length_eq.symm), hY.mem⟩
  · intro h
    obtain ⟨t, h⟩ := h
    obtain ⟨X, Y, hX, hFf1, -⟩ := Pipeline.encrypt_eq_ok.mp h
    obtain ⟨hLow, hHigh, -, hKey, hSmall⟩ := takes_of_encrypt ⟨Y, hFf1⟩
    rw [← hX.length_eq] at hLow hHigh
    exact ⟨hLow, hHigh, hX.mem, hKey, hRadix.symm.trans_le hSmall⟩
  · obtain ⟨hLow, hHigh, hMem, hKey, hSmall⟩ := h
    exact Pipeline.encrypt_isOk hE hLow hHigh hMem hKey hSmall

/-- The ten digits under AES. -/
theorem symbol_cipher_decimal :
    ∃ t, Pipeline.encrypt (Evp.ofFunction aes) decimalParameters decimalAlphabet.symbols = .ok t ∧
      Pipeline.decrypt (Evp.ofFunction aes) decimalParameters t = .ok decimalAlphabet.symbols := by
  obtain ⟨hInverse, -, hReturns⟩ := symbol_cipher (AesBlock.computes_ofFunction aes).total
    decimalParameters decimalAlphabet.symbols
  obtain ⟨t, ht⟩ := hReturns.mpr ⟨by decide, by decide, fun symbol hMem => hMem,
    decimalParameters_keySize, by decide⟩
  exact ⟨t, ht, (hInverse t).mp ht⟩

end Symbols

/-! ## Derived keys -/

/-- A derived key has the size that was asked for. -/
theorem size_of_derive {kdf : EvpKdf} {rootKey key : Key} {purpose : KeyPurpose}
    {outputLength live : Nat}
    (h : (KeyDerivation.derive kdf rootKey purpose outputLength live).1 = .ok key) :
    key.size = outputLength := by
  rw [KeyDerivation.derive_eq_ok, KeyDerivation.hkdfSha256_eq_ok,
    KeyDerivation.withContext_eq_ok] at h
  exact h.2.2.1

/-- **Which cipher accepts a derived key.** Whatever the derivation computes, a key of the length
`outputLength` is accepted by AES-GCM if and only if this is 32, and by FF1 if and only if it is
16, 24 or 32; the other conditions of the two ciphers do not depend on the key. -/
theorem derived_key_accepted_iff {kdf : EvpKdf} {rootKey key : Key} {purpose : KeyPurpose}
    {outputLength live : Nat}
    (h : (KeyDerivation.derive kdf rootKey purpose outputLength live).1 = .ok key) :
    (∀ (G : Gcm.Primitive) (nonce : Nonce) (p aad : Bytes),
      IsOk (AesGcm.encrypt (.ideal G) key nonce p aad) ↔
        outputLength = 32 ∧ nonce.size = 12 ∧ ¬ toInt aad.length < 0 ∧ ¬ toInt p.length < 0) ∧
    ∀ (evp : Evp), AesBlock.Total evp → ∀ (parameters : FpeParameters), parameters.key = key →
      ∀ X, IsOk (Ff1.encrypt evp parameters X) ↔
        (outputLength = 16 ∨ outputLength = 24 ∨ outputLength = 32) ∧ 2 ≤ X.length ∧
          X.length ≤ 4096 ∧ Digits parameters.domain.radix.value X ∧
          parameters.domain.radix.value ≤ 65536 := by
  have hSize := size_of_derive h
  refine ⟨fun G nonce p aad => ⟨fun hOk => ?_, fun hOk => ?_⟩,
    fun evp hTotal parameters hKey X => ⟨fun hOk => ?_, fun hOk => ?_⟩⟩
  · obtain ⟨_, hValidate, -⟩ := isOk_bind.mp hOk
    obtain ⟨hKeySize, hNonce⟩ := throwIf_bind_eq_ok.mp hValidate
    have hKeySize : key.size = AesGcm.keySize := not_not.mp hKeySize
    have hNonce : nonce.size = AesGcm.nonceSize := not_not.mp (throwIf_eq_ok.mp hNonce)
    obtain ⟨⟨⟨c⟩, ⟨t⟩⟩, hEncrypt⟩ := hOk
    refine ⟨hSize.symm.trans hKeySize, hNonce, fun hAad => ?_, fun hPlain => ?_⟩
    · exact encrypt_ne_ok hKeySize hNonce (.inl hAad) c t hEncrypt
    · exact encrypt_ne_ok hKeySize hNonce (.inr hPlain) c t hEncrypt
  · obtain ⟨hLength, hNonce, hAad, hPlain⟩ := hOk
    obtain ⟨a, ha⟩ := exists_consumed hAad
    obtain ⟨q, hq⟩ := exists_consumed hPlain
    exact ⟨_, (encrypt_ideal_eq_ok (hSize.trans hLength) hNonce).mpr ⟨a, q, ha, hq, rfl, rfl⟩⟩
  · obtain ⟨hLow, hHigh, hDigits, hValid, hRadix⟩ := takes_of_encrypt hOk
    rw [hKey, hSize] at hValid
    exact ⟨hValid, hLow, hHigh, hDigits, hRadix⟩
  · obtain ⟨hLength, hLow, hHigh, hDigits, hRadix⟩ := hOk
    obtain ⟨E, hE⟩ := hTotal.exists_computes
    have hValid : AesBlock.ValidKeySize parameters.key.size := by
      rw [hKey, hSize]
      exact hLength
    have hTakes : Takes parameters X := ⟨hLow, hHigh, hDigits, hValid, hRadix⟩
    obtain ⟨Y, hFf1, -⟩ := hTakes.encrypt_eq_ok hE
    exact ⟨Y, hFf1⟩

/-- A key of 16 bytes for FF1: AES-GCM refuses it, and FF1 takes ten decimal digits. -/
theorem derived_key_accepted_sixteen : ∃ key,
    (KeyDerivation.derive (.ideal Hkdf.hmacSha256 1024) ⟨[1]⟩ .fpe 16 0).1 = .ok key ∧
    ¬ IsOk (AesGcm.encrypt (.ideal Gcm.aesGcm) key ⟨List.replicate 12 0⟩ [] []) ∧
    IsOk (Ff1.encrypt (Evp.ofFunction aes) ⟨decimalDomain, key, [], Nat.zero_le 64⟩
      [0, 1, 2, 3, 4, 5, 6, 7, 8, 9]) := by
  have hOne : consumed [1] = some [1] := rfl
  have hDerive : (KeyDerivation.derive (.ideal Hkdf.hmacSha256 1024) ⟨[1]⟩ .fpe 16 0).1 = .ok ⟨_⟩ :=
    KeyDerivation.derive_ideal_eq_ok.mpr
      ⟨List.cons_ne_nil 1 [], by decide, by decide, by decide, [1], hOne, rfl⟩
  obtain ⟨hGcm, hFf1⟩ := derived_key_accepted_iff hDerive
  refine ⟨_, hDerive, fun h => ?_, ?_⟩
  · have hLength := ((hGcm _ _ _ _).mp h).1
    cases hLength
  · exact (hFf1 _ (AesBlock.computes_ofFunction aes).total _ rfl _).mpr
      ⟨.inl rfl, by decide, by decide, by decide, decimalDomain_radix_le⟩

end IndicCrypt.Fpe
