import IndicCrypt.Crypto.Faults
import IndicCrypt.Fpe.Pipeline

/-!
# FF1 over interfaces that fail

The results on FF1 are about interfaces that encrypt every block. An interface that does not
stops FF1 with the exception of the block encryption, and changes nothing else: FF1 over it is
an interruption of FF1 over a block function (`ff1_interrupted`). So a ciphertext that was
returned is decrypted to its plaintext or not at all, over whatever interface
(`decrypt_despite_faults`).

`Ff1.rejection` is the exception that FF1 throws by its own checks. `ff1_exceptions` says that
there are no others, for either direction.
-/

namespace IndicCrypt.Fpe

open Positional Run Crypto Text

/-! ## Interruptions -/

section Interrupted

variable {evp : Evp} {E : BlockFunction} (hE : AesBlock.Agrees evp E)
include hE

theorem extendLoop_interrupts (what : String) (key : Key) (r : Bytes) (d fuel : Nat)
    (output : Bytes) (counter : UInt32) :
    Interrupts (AesBlock.Fault evp key) (extendLoop evp what key r d fuel output counter)
      (extendLoop (Evp.ofFunction E) what key r d fuel output counter) := by
  induction fuel generalizing output counter with
  | zero => exact .refl _
  | succ fuel ih =>
    unfold extendLoop
    split
    · exact .bind (.refl _) fun mixed =>
        .bind (AesBlock.encrypt_interrupts hE key mixed) fun encrypted => ih _ _
    · exact .refl _

theorem evaluate_interrupts (key : Key) (input : Bytes) (d : Nat) :
    Interrupts (AesBlock.Fault evp key) (Ff1Prf.evaluate evp key input d)
      (Ff1Prf.evaluate (Evp.ofFunction E) key input d) := by
  unfold Ff1Prf.evaluate
  split
  · exact .refl _
  · refine .bind (.refl _) fun _ => .bind (.refl _) fun _ => .bind ?_ fun chaining =>
      extendLoop_interrupts hE _ _ _ _ _ _ _
    exact .foldlM (fun chaining offset => .bind (.refl _) fun mixed =>
      AesBlock.encrypt_interrupts hE key mixed) _ _

theorem generate_interrupts (key : Key) (r : Bytes) (d : Nat) :
    Interrupts (AesBlock.Fault evp key) (Ff1YGenerator.generate evp key r d)
      (Ff1YGenerator.generate (Evp.ofFunction E) key r d) := by
  unfold Ff1YGenerator.generate
  refine .bind (.refl _) fun _ => .bind (.refl _) fun _ => ?_
  split
  · exact .refl _
  · dsimp only
    split
    · exact .refl _
    · exact extendLoop_interrupts hE _ _ _ _ _ _ _

theorem computeY_interrupts (parameters : FpeParameters) (m : Nat) (b : List Nat) (round : Nat) :
    Interrupts (AesBlock.Fault evp parameters.key)
      (Ff1Round.computeY evp parameters m b round)
      (Ff1Round.computeY (Evp.ofFunction E) parameters m b round) :=
  .bind (.refl _) fun _ => .bind (.refl _) fun _ => .bind (evaluate_interrupts hE _ _ _) fun _ =>
    .bind (generate_interrupts hE _ _ _) fun _ => .refl _

theorem computeRound_interrupts (parameters : FpeParameters) (a b : List Nat) (round : Nat)
    (encryption : Bool) :
    Interrupts (AesBlock.Fault evp parameters.key)
      (Ff1Round.computeRound evp parameters a b round encryption)
      (Ff1Round.computeRound (Evp.ofFunction E) parameters a b round encryption) :=
  .bind (.refl _) fun _ => .bind (computeY_interrupts hE _ _ _ _) fun _ => .refl _

theorem encryptStep_interrupts (parameters : FpeParameters) (n : Nat)
    (state : List Nat × List Nat) (round : Nat) :
    Interrupts (AesBlock.Fault evp parameters.key)
      (Ff1.encryptStep evp parameters n state round)
      (Ff1.encryptStep (Evp.ofFunction E) parameters n state round) :=
  .bind (computeRound_interrupts hE _ _ _ _ _) fun _ => .refl _

theorem decryptStep_interrupts (parameters : FpeParameters) (n : Nat)
    (state : List Nat × List Nat) (round : Nat) :
    Interrupts (AesBlock.Fault evp parameters.key)
      (Ff1.decryptStep evp parameters n state round)
      (Ff1.decryptStep (Evp.ofFunction E) parameters n state round) :=
  .bind (computeRound_interrupts hE _ _ _ _ _) fun _ => .refl _

theorem encrypt_interrupts (parameters : FpeParameters) (X : List Nat) :
    Interrupts (AesBlock.Fault evp parameters.key) (Ff1.encrypt evp parameters X)
      (Ff1.encrypt (Evp.ofFunction E) parameters X) :=
  .bind (.refl _) fun _ =>
    .bind (.foldlM (encryptStep_interrupts hE parameters X.length) _ _) fun _ => .refl _

theorem decrypt_interrupts (parameters : FpeParameters) (Y : List Nat) :
    Interrupts (AesBlock.Fault evp parameters.key) (Ff1.decrypt evp parameters Y)
      (Ff1.decrypt (Evp.ofFunction E) parameters Y) :=
  .bind (.refl _) fun _ =>
    .bind (.foldlM (decryptStep_interrupts hE parameters Y.length) _ _) fun _ => .refl _

theorem Pipeline.encrypt_interrupts (parameters : FpeParameters) (s : List IndicSymbol) :
    Interrupts (AesBlock.Fault evp parameters.key) (Pipeline.encrypt evp parameters s)
      (Pipeline.encrypt (Evp.ofFunction E) parameters s) :=
  .bind (.refl _) fun _ => .bind (Fpe.encrypt_interrupts hE _ _) fun _ => .refl _

theorem Pipeline.decrypt_interrupts (parameters : FpeParameters) (t : List IndicSymbol) :
    Interrupts (AesBlock.Fault evp parameters.key) (Pipeline.decrypt evp parameters t)
      (Pipeline.decrypt (Evp.ofFunction E) parameters t) :=
  .bind (.refl _) fun _ => .bind (Fpe.decrypt_interrupts hE _ _) fun _ => .refl _

end Interrupted

/-- The exception that FF1 throws by its own checks, in either direction. -/
def Ff1.rejection (parameters : FpeParameters) (X : List Nat) : Option Failure :=
  if X.length < 2 then
    some (.invalidArgument "FF1 input is shorter than minimum length")
  else if 4096 < X.length then
    some (.invalidArgument "FF1 input exceeds maximum supported length")
  else if ¬ Digits parameters.domain.radix.value X then
    some (.outOfRange "FPE digit is outside radix domain")
  else if 65536 < parameters.domain.radix.value then
    some (.invalidArgument "FF1 radix must be in [2, 65536]")
  else if ¬ AesBlock.ValidKeySize parameters.key.size then
    some (.invalidArgument "FF1 PRF requires a 16, 24, or 32-byte AES key")
  else
    none

section Rejects

variable {evp : Evp} {parameters : FpeParameters} {n round : Nat} {a b : List Nat} {e : Failure}

/-- The block Q is built before P, and takes the radices that P refuses. -/
theorem isOk_build_q (hSmall : parameters.domain.radix.value < 2 ^ 32)
    (h : Ff1QBlock.Accepts parameters.domain.radix n round b) :
    IsOk (Ff1QBlock.build parameters n round b) := by
  obtain ⟨hPos, hMax⟩ := h.length_pos
  have hRound := h.round_lt
  have hWidth := byteWidth_pos parameters.domain.radix.two_le hPos
  have hWidthLe : byteWidth parameters.domain.radix.value b.length ≤ 4 * b.length := by
    rw [byteWidth_le_iff, pow_mul]
    exact Nat.pow_le_pow_left hSmall.le _
  have hValue : (⟨parameters.domain.radix, b, h.digits⟩ : Ff1Numeral).toInteger =
      (num parameters.domain.radix.value b : Nat) := Ff1Numeral.toInteger_eq hSmall
  have hEncode := Ff1NumeralEncoding.encode_of_lt hValue hWidth (by omega)
    (num_lt_byteWidth h.digits)
  unfold Ff1QBlock.build
  rw [FpeParameters.validateLength_of ⟨h.low, h.high⟩, ok_bind,
    throwIf_of_not (by omega), ok_bind, throwIf_of_not (not_not_intro h.length_eq), ok_bind,
    FpeRadix.validate_of_digits h.digits, ok_bind]
  simp only [Ff1QBlock.requiredByteLength_eq hSmall, Ff1Numeral.make_of_digits h.digits, ok_bind,
    hEncode]
  exact isOk_ok _

/-- What drawing Y throws for a radix or a key that it does not take. -/
theorem computeY_eq_error (hSmall : parameters.domain.radix.value < 2 ^ 32)
    (h : Ff1QBlock.Accepts parameters.domain.radix (n + b.length) round b) :
    (65536 < parameters.domain.radix.value →
      Ff1Round.computeY evp parameters n b round =
        .error (.invalidArgument "FF1 radix must be in [2, 65536]")) ∧
    (parameters.domain.radix.value ≤ 65536 → ¬ AesBlock.ValidKeySize parameters.key.size →
      Ff1Round.computeY evp parameters n b round =
        .error (.invalidArgument "FF1 PRF requires a 16, 24, or 32-byte AES key")) := by
  obtain ⟨q, hQ⟩ := isOk_build_q hSmall h
  refine ⟨fun hLarge => ?_, fun hRadix hKey => ?_⟩
  · have hP : Ff1ParameterBlock.build parameters (n + b.length) =
        .error (.invalidArgument "FF1 radix must be in [2, 65536]") := by
      have hCheck : parameters.domain.radix.value < 2 ∨ parameters.domain.radix.value > 65536 :=
        Or.inr hLarge
      unfold Ff1ParameterBlock.build
      simp only [FpeParameters.validateLength_of ⟨h.low, h.high⟩, throwIf_of hCheck, ok_bind,
        error_bind]
    unfold Ff1Round.computeY
    simp only [hQ, hP, ok_bind, error_bind]
  · have hP : Ff1ParameterBlock.build parameters (n + b.length) = .ok _ :=
      Ff1ParameterBlock.build_eq_ok.mpr ⟨h.low, h.high, hRadix, rfl⟩
    have hCheck : ¬ isValidAesKeySize parameters.key.size = true :=
      fun hValid => hKey (isValidAesKeySize_eq_true.mp hValid)
    unfold Ff1Round.computeY Ff1Prf.evaluate
    simp only [hQ, hP, ok_bind]
    rw [if_neg (by decide), throwIf_of hCheck]
    rfl

theorem computeRound_eq_error {encryption : Bool}
    (h : Ff1Round.Accepts parameters.domain.radix a b round)
    (hY : Ff1Round.computeY evp parameters a.length b round = .error e) :
    Ff1Round.computeRound evp parameters a b round encryption = .error e := by
  unfold Ff1Round.computeRound
  simp only [h.validate, hY, ok_bind, error_bind]

end Rejects

section Exceptions

variable {evp : Evp} {parameters : FpeParameters} {X : List Nat} {e : Failure}

/-- The first round of encryption and of decryption is the round that throws. -/
theorem ff1_eq_error (hLow : 2 ≤ X.length) (hHigh : X.length ≤ 4096)
    (hDigits : Digits parameters.domain.radix.value X)
    (hY : ∀ n round b, Ff1QBlock.Accepts parameters.domain.radix (n + b.length) round b →
      Ff1Round.computeY evp parameters n b round = .error e) :
    Ff1.encrypt evp parameters X = .error e ∧ Ff1.decrypt evp parameters X = .error e := by
  have hValidate : Ff1.validate parameters X = .ok () :=
    validate_of_formatDomain hLow hHigh ⟨X, rfl, hDigits⟩
  have hTotal : (X.take (X.length / 2)).length + (X.drop (X.length / 2)).length = X.length := by
    rw [List.length_take, List.length_drop]
    omega
  have hAccepts : Ff1Round.Accepts parameters.domain.radix (X.take (X.length / 2))
      (X.drop (X.length / 2)) 0 := by
    refine ⟨hDigits.take _, hLow.trans_eq hTotal.symm, hTotal.trans_le hHigh,
      by omega, ?_, hDigits.drop _⟩
    rw [hTotal, List.length_drop]
    rfl
  have hAccepts' : Ff1Round.Accepts parameters.domain.radix (X.drop (X.length / 2))
      (X.take (X.length / 2)) 9 := by
    rw [Nat.add_comm] at hTotal
    refine ⟨hDigits.drop _, hLow.trans_eq hTotal.symm, hTotal.trans_le hHigh,
      by omega, ?_, hDigits.take _⟩
    rw [hTotal, List.length_take]
    exact Nat.min_eq_left (Nat.div_le_self _ 2)
  have hRound : Ff1Round.encrypt evp parameters (X.take (X.length / 2)) (X.drop (X.length / 2)) 0 =
      .error e := computeRound_eq_error hAccepts (hY _ _ _ hAccepts.right)
  have hRound' : Ff1Round.decrypt evp parameters (X.drop (X.length / 2)) (X.take (X.length / 2)) 9 =
      .error e := computeRound_eq_error hAccepts' (hY _ _ _ hAccepts'.right)
  constructor
  · unfold Ff1.encrypt
    rw [hValidate, ok_bind, List.range_succ_eq_map]
    simp only [List.foldlM_cons, Ff1.encryptStep, hRound, error_bind]
  · unfold Ff1.decrypt
    rw [hValidate, ok_bind, List.range_succ, List.reverse_append]
    simp only [List.reverse_singleton, List.singleton_append, List.foldlM_cons, Ff1.decryptStep,
      hRound', error_bind]

theorem radix_validate_eq_error {radix : FpeRadix} (h : ¬ Digits radix.value X) :
    radix.validate X = .error (.outOfRange "FPE digit is outside radix domain") := by
  induction X with
  | nil => exact absurd digits_nil h
  | cons d X ih =>
    unfold FpeRadix.validate
    by_cases hd : d < radix.value
    · have hIn : ¬ ¬ radix.contains d = true := by
        simpa [FpeRadix.contains] using hd
      rw [throwIf_of_not hIn, ok_bind, ih fun hX => h (digits_cons.mpr ⟨hd, hX⟩)]
    · have hOut : ¬ radix.contains d = true := by
        simpa [FpeRadix.contains] using hd
      rw [throwIf_of hOut]
      rfl

/-- An input that is not validated stops both directions. -/
theorem ff1_eq_error_of_validate (h : Ff1.validate parameters X = .error e) :
    Ff1.encrypt evp parameters X = .error e ∧ Ff1.decrypt evp parameters X = .error e := by
  constructor
  · unfold Ff1.encrypt
    rw [h, error_bind]
  · unfold Ff1.decrypt
    rw [h, error_bind]

theorem ff1_eq_error_of_rejection (hSmall : parameters.domain.radix.value < 2 ^ 32)
    (h : Ff1.rejection parameters X = some e) :
    Ff1.encrypt evp parameters X = .error e ∧ Ff1.decrypt evp parameters X = .error e := by
  unfold Ff1.rejection at h
  split_ifs at h with hShort hLong hDigits hLarge hKey <;> cases h
  · have hLow : X.length < FpeParameters.minimumLength := hShort
    apply ff1_eq_error_of_validate
    rw [Ff1.validate, FpeParameters.validateLength, throwIf_of hLow]
    rfl
  · have hLow : ¬ X.length < FpeParameters.minimumLength := hShort
    have hHigh : X.length > FpeParameters.maximumLength := hLong
    apply ff1_eq_error_of_validate
    rw [Ff1.validate, FpeParameters.validateLength, throwIf_of_not hLow, ok_bind, throwIf_of hHigh]
    rfl
  · exact ff1_eq_error (by omega) (by omega) hDigits fun n round b hAccepts =>
      (computeY_eq_error hSmall hAccepts).1 hLarge
  · exact ff1_eq_error (by omega) (by omega) hDigits fun n round b hAccepts =>
      (computeY_eq_error hSmall hAccepts).2 (by omega) hKey
  · apply ff1_eq_error_of_validate
    rw [Ff1.validate, FpeParameters.validateLength_of (by omega), ok_bind,
      radix_validate_eq_error hDigits]

theorem takes_of_rejection (h : Ff1.rejection parameters X = none) : Takes parameters X := by
  unfold Ff1.rejection at h
  split_ifs at h with hShort hLong hDigits hLarge hKey
  exact ⟨by omega, by omega, hDigits, hKey, by omega⟩

/-- **Exceptions.** FF1 throws what its own checks say, the first that applies, and nothing else
but the exceptions of block encryptions. -/
theorem ff1_exceptions (evp : Evp) {parameters : FpeParameters}
    (hSmall : parameters.domain.radix.value < 2 ^ 32) (X : List Nat) :
    (∀ e, Ff1.rejection parameters X = some e →
      Ff1.encrypt evp parameters X = .error e ∧ Ff1.decrypt evp parameters X = .error e) ∧
    (Ff1.rejection parameters X = none → ∀ e,
      (Ff1.encrypt evp parameters X = .error e → AesBlock.Fault evp parameters.key e) ∧
      (Ff1.decrypt evp parameters X = .error e → AesBlock.Fault evp parameters.key e)) := by
  obtain ⟨E, hE⟩ := AesBlock.exists_agrees evp
  have hComputes := AesBlock.computes_ofFunction E
  refine ⟨fun e h => ff1_eq_error_of_rejection hSmall h,
    fun h e => ⟨fun hError => ?_, fun hError => ?_⟩⟩
  · obtain ⟨Y, hOk, -⟩ := (takes_of_rejection h).encrypt_eq_ok hComputes
    exact (encrypt_interrupts hE parameters X).fault_of_error hOk hError
  · obtain ⟨Y, hOk, -⟩ := (takes_of_rejection h).decrypt_eq_ok hComputes
    exact (decrypt_interrupts hE parameters X).fault_of_error hOk hError

/-- One decimal digit is refused before the interface is asked. -/
theorem ff1_exceptions_exhausted :
    Ff1.encrypt .exhausted decimalParameters [0] =
        .error (.invalidArgument "FF1 input is shorter than minimum length") ∧
      Ff1.decrypt .exhausted decimalParameters [0] =
        .error (.invalidArgument "FF1 input is shorter than minimum length") := by
  have hSmall : decimalParameters.domain.radix.value < 2 ^ 32 := by decide
  exact (ff1_exceptions .exhausted hSmall [0]).1 _ rfl

end Exceptions

end IndicCrypt.Fpe
