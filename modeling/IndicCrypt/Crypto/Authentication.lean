import IndicCrypt.Crypto.AesGcm

/-!
# What a tag vouches for

Both functions of `AesGcm` pass the `int` size of a string on, so the interface sees the part of
it that is consumed. Bytes behind a string, `2 ^ 32` of them or a multiple, change no result
(`tail_changes_nothing`). A tag from `encrypt` is accepted with another ciphertext and other
associated data, whatever the tags are, if and only if the parts that are consumed are the same
(`accepted_iff`).
-/

namespace IndicCrypt.Crypto

open Run Gcm

theorem toInt_add_mul (size n : Nat) : toInt (size + n * 2 ^ 32) = toInt size := by
  unfold toInt
  rw [Nat.add_mul_mod_self_right]

theorem toInt_toNat_le (size : Nat) : (toInt size).toNat ≤ size := by
  have := Nat.mod_le size (2 ^ 32)
  unfold toInt
  dsimp only
  split <;> omega

/-- Bytes behind a string, a multiple of `2 ^ 32`, are not consumed. -/
theorem consumed_append {s tail : Bytes} (h : 2 ^ 32 ∣ tail.length) :
    consumed (s ++ tail) = consumed s := by
  obtain ⟨n, hn⟩ := h
  have hCount : toInt (s ++ tail).length = toInt s.length := by
    rw [List.length_append, hn, Nat.mul_comm, toInt_add_mul]
  unfold consumed told
  rw [hCount, List.take_append_of_le_length (toInt_toNat_le _)]

section Tails

variable (G : Primitive) (key : Key) (nonce : Nonce)

theorem validate_cases :
    (key.size = AesGcm.keySize ∧ nonce.size = AesGcm.nonceSize) ∨
      ∃ failure, AesGcm.validateKeyAndNonce key nonce = .error failure := by
  by_cases hKey : key.size = AesGcm.keySize
  · by_cases hNonce : nonce.size = AesGcm.nonceSize
    · exact .inl ⟨hKey, hNonce⟩
    · refine .inr ⟨.invalidArgument "AES-GCM requires a 12-byte nonce", ?_⟩
      rw [AesGcm.validateKeyAndNonce, throwIf_of_not (not_not_intro hKey), ok_bind,
        throwIf_of hNonce]
  · refine .inr ⟨.invalidArgument "AES-256-GCM requires a 32-byte key", ?_⟩
    rw [AesGcm.validateKeyAndNonce, throwIf_of hKey, error_bind]

/-- **Bytes behind.** A multiple of `2 ^ 32` bytes behind the message and behind the associated
data changes no result of either function, and no failure. -/
theorem tail_changes_nothing {tail aadTail : Bytes} (hTail : 2 ^ 32 ∣ tail.length)
    (hAad : 2 ^ 32 ∣ aadTail.length) :
    (∀ p aad, AesGcm.encrypt (.ideal G) key nonce (p ++ tail) (aad ++ aadTail) =
      AesGcm.encrypt (.ideal G) key nonce p aad) ∧
    ∀ c t aad, AesGcm.decrypt (.ideal G) key nonce ⟨c ++ tail⟩ t (aad ++ aadTail) =
      AesGcm.decrypt (.ideal G) key nonce ⟨c⟩ t aad := by
  rcases validate_cases key nonce with ⟨hKey, hNonce⟩ | ⟨failure, hFails⟩
  · refine ⟨fun p aad => ?_, fun c t aad => ?_⟩
    · rw [encrypt_ideal hKey hNonce, encrypt_ideal hKey hNonce, consumed_append hTail,
        consumed_append hAad]
    · by_cases hTag : t.size = AesGcm.tagSize
      · have hDecrypt (c aad : Bytes) := decrypt_ideal (G := G) hKey hNonce c t.bytes aad hTag
        rw [hDecrypt, hDecrypt, consumed_append hTail, consumed_append hAad]
      · rw [AesGcm.decrypt, AesGcm.decrypt, validate_of_sizes hKey hNonce, ok_bind, ok_bind,
          throwIf_of hTag, error_bind, error_bind]
  · refine ⟨fun p aad => ?_, fun c t aad => ?_⟩
    · rw [AesGcm.encrypt, AesGcm.encrypt, hFails, error_bind, error_bind]
    · rw [AesGcm.decrypt, AesGcm.decrypt, hFails, error_bind, error_bind]

/-- `2 ^ 32` bytes behind the message, under AES. -/
theorem zeros_change_nothing :
    (∀ p aad, AesGcm.encrypt (.ideal aesGcm) ⟨List.replicate 32 0⟩ ⟨List.replicate 12 0⟩
        (p ++ List.replicate (2 ^ 32) 0) (aad ++ []) =
      AesGcm.encrypt (.ideal aesGcm) ⟨List.replicate 32 0⟩ ⟨List.replicate 12 0⟩ p aad) ∧
    ∀ c t aad, AesGcm.decrypt (.ideal aesGcm) ⟨List.replicate 32 0⟩ ⟨List.replicate 12 0⟩
        ⟨c ++ List.replicate (2 ^ 32) 0⟩ t (aad ++ []) =
      AesGcm.decrypt (.ideal aesGcm) ⟨List.replicate 32 0⟩ ⟨List.replicate 12 0⟩ ⟨c⟩ t aad :=
  tail_changes_nothing aesGcm _ _ (Dvd.intro 1 List.length_replicate.symm) (Nat.dvd_zero _)

end Tails

/-! ## Other ciphertexts with the same tag -/

section Accepted

variable {key : Key} {nonce : Nonce} {keystream : Bytes → Bytes → Nat → UInt8}

/-- Tags that single out one pair of associated data and ciphertext. -/
def singleOut (keystream : Bytes → Bytes → Nat → UInt8) (a c : Bytes) : Primitive where
  keystream := keystream
  tag _ _ a' c' := List.replicate 16 (if a' = a ∧ c' = c then 0 else 1)
  length_tag _ _ _ _ := List.length_replicate

theorem tag_singleOut {a c a' c' key nonce : Bytes} :
    List.replicate 16 0 = (singleOut keystream a c).tag key nonce a' c' ↔ a' = a ∧ c' = c := by
  simp only [singleOut]
  split
  next h => exact iff_of_true rfl h
  next h => exact iff_of_false (by decide) h

/-- **What a tag vouches for.** Of a plaintext and associated data that are accepted, the parts `q`
and `a` are consumed. Whatever the tags are, the one of the encryption is accepted with another
ciphertext and other associated data if and only if `a` is consumed of the data and the
encryption of `q` of the ciphertext; then `q` is decrypted. -/
theorem accepted_iff (hKey : key.size = AesGcm.keySize) (hNonce : nonce.size = AesGcm.nonceSize)
    {p q aad a : Bytes} (hq : consumed p = some q) (ha : consumed aad = some a) (c' aad' : Bytes) :
    ((∀ G : Primitive, G.keystream = keystream → ∀ c t : Bytes,
        AesGcm.encrypt (.ideal G) key nonce p aad = .ok ⟨⟨c⟩, ⟨t⟩⟩ →
          IsOk (AesGcm.decrypt (.ideal G) key nonce ⟨c'⟩ ⟨t⟩ aad')) ↔
      consumed aad' = some a ∧ consumed c' = some (mask (keystream key.bytes nonce.bytes) 0 q)) ∧
    (consumed aad' = some a ∧ consumed c' = some (mask (keystream key.bytes nonce.bytes) 0 q) →
      ∀ G : Primitive, G.keystream = keystream → ∀ c t : Bytes,
        AesGcm.encrypt (.ideal G) key nonce p aad = .ok ⟨⟨c⟩, ⟨t⟩⟩ →
          AesGcm.decrypt (.ideal G) key nonce ⟨c'⟩ ⟨t⟩ aad' = .ok q) := by
  have hAccepts (h : consumed aad' = some a ∧
      consumed c' = some (mask (keystream key.bytes nonce.bytes) 0 q))
      (G : Primitive) (hG : G.keystream = keystream) (c t : Bytes)
      (hEncrypt : AesGcm.encrypt (.ideal G) key nonce p aad = .ok ⟨⟨c⟩, ⟨t⟩⟩) :
      AesGcm.decrypt (.ideal G) key nonce ⟨c'⟩ ⟨t⟩ aad' = .ok q := by
    subst hG
    obtain ⟨a₀, q₀, ha₀, hq₀, rfl, rfl⟩ := (encrypt_ideal_eq_ok hKey hNonce).mp hEncrypt
    rw [ha, Option.some.injEq] at ha₀
    rw [hq, Option.some.injEq] at hq₀
    subst ha₀ hq₀
    exact (decrypt_ideal_eq_ok hKey hNonce (G.length_tag _ _ _ _)).mpr
      ⟨a, _, h.1, h.2, rfl, (mask_mask _ _ _).symm⟩
  refine ⟨⟨fun h => ?_, fun h G hG c t hEncrypt => ⟨q, hAccepts h G hG c t hEncrypt⟩⟩, hAccepts⟩
  -- tags that no other pair shares
  set c := mask (keystream key.bytes nonce.bytes) 0 q
  have hEncrypt : AesGcm.encrypt (.ideal (singleOut keystream a c)) key nonce p aad =
      .ok ⟨⟨c⟩, ⟨List.replicate 16 0⟩⟩ :=
    (encrypt_ideal_eq_ok hKey hNonce).mpr ⟨a, q, ha, hq, rfl, tag_singleOut.mpr ⟨rfl, rfl⟩⟩
  obtain ⟨plain, hDecrypt⟩ := h (singleOut keystream a c) rfl c _ hEncrypt
  obtain ⟨a', c'', ha', hc', hTag, -⟩ := (decrypt_ideal_eq_ok hKey hNonce rfl).mp hDecrypt
  obtain ⟨rfl, rfl⟩ := tag_singleOut.mp hTag
  exact ⟨ha', hc'⟩

/-- One byte under AES: its ciphertext is accepted with `2 ^ 32` zeros behind it. -/
theorem accepted_with_zeros : ∃ c t : Bytes,
    AesGcm.encrypt (.ideal aesGcm) ⟨List.replicate 32 0⟩ ⟨List.replicate 12 0⟩ [1] [] =
      .ok ⟨⟨c⟩, ⟨t⟩⟩ ∧
    AesGcm.decrypt (.ideal aesGcm) ⟨List.replicate 32 0⟩ ⟨List.replicate 12 0⟩
      ⟨c ++ List.replicate (2 ^ 32) 0⟩ ⟨t⟩ [] = .ok [1] := by
  have hKey : (⟨List.replicate 32 0⟩ : Key).size = AesGcm.keySize := rfl
  have hNonce : (⟨List.replicate 12 0⟩ : Nonce).size = AesGcm.nonceSize := rfl
  have hOne : consumed [1] = some [1] := rfl
  have hCipher :
      consumed (mask (aesGcm.keystream (List.replicate 32 0) (List.replicate 12 0)) 0 [1] ++
          List.replicate (2 ^ 32) 0) =
        some (mask (aesGcm.keystream (List.replicate 32 0) (List.replicate 12 0)) 0 [1]) := by
    have hDvd : 2 ^ 32 ∣ (List.replicate (2 ^ 32) (0 : UInt8)).length :=
      Dvd.intro 1 List.length_replicate.symm
    rw [consumed_append hDvd, consumed_self, length_mask]
    decide
  have hEncrypt := (encrypt_ideal_eq_ok (G := aesGcm) hKey hNonce).mpr
    ⟨[], [1], consumed_nil, hOne, rfl, rfl⟩
  exact ⟨_, _, hEncrypt, (accepted_iff hKey hNonce hOne consumed_nil _ []).2
    ⟨consumed_nil, hCipher⟩ aesGcm rfl _ _ hEncrypt⟩

end Accepted

end IndicCrypt.Crypto
