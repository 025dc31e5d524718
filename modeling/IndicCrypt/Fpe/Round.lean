import IndicCrypt.Fpe.Prf

/-!
# One round

`Ff1Round::encrypt` and `Ff1Round::decrypt`. A round draws an integer Y from the half `B`,
the round number and the length of `A` (`computeY`), moves `NUM(A)` by Y modulo
`radix ^ |A|`, and pads the digits of the result to `|A|`.

`roundMask` is Y for a block function. On accepted arguments a round is the modular step by
the mask (`encrypt_eq`, `decrypt_eq`), so the two directions undo each other and the mask
does not depend on `A` (`round_inverse`).
-/

namespace IndicCrypt.Fpe

open Positional Run Crypto

namespace Ff1Round

/-- The function of `round.cpp` that repeats the one of `q_block.cpp`. -/
def requiredByteLength (radix : FpeRadix) (length : Nat) : Nat :=
  Ff1QBlock.requiredByteLength radix length

def calculateYLength (radix : FpeRadix) (m : Nat) : Nat :=
  let b := requiredByteLength radix m
  let bBlocks := (b + 3) / 4
  4 * bBlocks + 4

def validateRoundInputs (parameters : FpeParameters) (a b : List Nat) (round : Nat) :
    Result Unit := do
  let n := a.length + b.length
  parameters.validateLength n
  throwIf (round ≥ 10) (.invalidArgument "FF1 round must be in [0, 9]")
  throwIf (a = [] ∨ b = []) (.invalidArgument "FF1 round requires non-empty A and B")
  parameters.domain.radix.validate a
  parameters.domain.radix.validate b

/-- The first part of `computeRound`: the integer Y, drawn for a half `A` of `m` digits. -/
def computeY (evp : Evp) (parameters : FpeParameters) (m : Nat) (b : List Nat) (round : Nat) :
    Result Int := do
  let n := m + b.length
  let q ← Ff1QBlock.build parameters n round b
  let p ← Ff1ParameterBlock.build parameters n
  let prfInput := p ++ q
  let r ← Ff1Prf.evaluate evp parameters.key prfInput Ff1Prf.blockSize
  let yLength := calculateYLength parameters.domain.radix m
  let yBytes ← Ff1YGenerator.generate evp parameters.key r yLength
  return Ff1YNumber.fromBytes yBytes

/-- The arithmetic part of `computeRound`: `%` truncates, so a negative difference leaves a
remainder that is not positive. -/
def moveValue (aValue yValue modulus : Int) (encryption : Bool) : Result Int :=
  if encryption then
    Integer.mod (aValue + yValue) modulus
  else do
    let result ← Integer.mod (aValue - yValue) modulus
    return if result < 0 then result + modulus else result

def computeRound (evp : Evp) (parameters : FpeParameters) (a b : List Nat) (round : Nat)
    (encryption : Bool) : Result (List Nat) := do
  validateRoundInputs parameters a b round
  let m := a.length
  let yValue ← computeY evp parameters m b round
  let aNumeral ← Ff1Numeral.make parameters.domain.radix a
  let aValue := aNumeral.toInteger
  let modulus := Ff1NumeralMath.radixPower parameters.domain.radix m
  let result ← moveValue aValue yValue modulus encryption
  let resultNumeral ← Ff1Numeral.fromInteger parameters.domain.radix result
  let resultDigits := resultNumeral.digits
  throwIf (resultDigits.length > m) (.logicError "FF1 round result exceeds target length")
  if resultDigits.length < m then
    return List.replicate (m - resultDigits.length) 0 ++ resultDigits
  else
    return resultDigits

def encrypt (evp : Evp) (parameters : FpeParameters) (a b : List Nat) (round : Nat) :
    Result (List Nat) :=
  computeRound evp parameters a b round true

def decrypt (evp : Evp) (parameters : FpeParameters) (a b : List Nat) (round : Nat) :
    Result (List Nat) :=
  computeRound evp parameters a b round false

/-! ## The mask -/

/-- The PRF input of a round, with a numeral of `b` bytes. -/
def prfInput (tweak : Bytes) (radix n b round x : Nat) : Bytes :=
  pBytes radix n tweak.length ++ qBytes tweak b round x

/-- The number of the first `d` bytes drawn on a PRF input. -/
def drawMask (E : BlockFunction) (key input : Bytes) (d : Nat) : Nat :=
  byteNum (BlockMode.stream (E.apply key) counterBytes
    (BlockMode.cbcMac (E.apply key) (List.replicate 16 0) (BlockMode.blocks 16 input)) 16 d)

/-- The bytes of Y for a numeral of `b` bytes. -/
def maskWidth (b : Nat) : Nat := 4 * ((b + 3) / 4) + 4

/-- Y, for a block function: the numeral is as wide as the half `b`, and Y as the other one. -/
def roundMask (E : BlockFunction) (parameters : FpeParameters) (m : Nat) (b : List Nat)
    (round : Nat) : Nat :=
  drawMask E parameters.key.bytes
    (prfInput parameters.tweak parameters.domain.radix.value (m + b.length)
      (byteWidth parameters.domain.radix.value b.length) round
      (num parameters.domain.radix.value b))
    (maskWidth (byteWidth parameters.domain.radix.value m))

theorem calculateYLength_eq {radix : FpeRadix} (hRadix : radix.value < 2 ^ 32) (m : Nat) :
    calculateYLength radix m = maskWidth (byteWidth radix.value m) := by
  unfold calculateYLength requiredByteLength
  rw [Ff1QBlock.requiredByteLength_eq hRadix]
  rfl

theorem sixteen_dvd_prfInput (tweak : Bytes) (radix n b round x : Nat) :
    16 ∣ (prfInput tweak radix n b round x).length := by
  rw [prfInput, List.length_append, length_pBytes, length_qBytes]
  exact Nat.dvd_add (by omega) (sixteen_dvd_padding _ _)

variable {evp : Evp} {E : BlockFunction} {parameters : FpeParameters} {a b : List Nat}
  {m round : Nat}

/-- **The mask.** With a valid key the code draws `roundMask`. -/
theorem computeY_eq (hE : AesBlock.Computes evp E)
    (hKey : AesBlock.ValidKeySize parameters.key.size)
    (hRadix : parameters.domain.radix.value ≤ 65536)
    (h : Ff1QBlock.Accepts parameters.domain.radix (m + b.length) round b) :
    computeY evp parameters m b round = .ok (roundMask E parameters m b round : Int) := by
  have hP : Ff1ParameterBlock.build parameters (m + b.length) =
      .ok (pBytes parameters.domain.radix.value (m + b.length) parameters.tweak.length) :=
    Ff1ParameterBlock.build_eq_ok.mpr ⟨h.low, h.high, hRadix, rfl⟩
  have hQ := Ff1QBlock.build_of_accepts hRadix h
  have hInput : prfInput parameters.tweak parameters.domain.radix.value (m + b.length)
      (byteWidth parameters.domain.radix.value b.length) round
      (num parameters.domain.radix.value b) ≠ [] := by
    simp [prfInput, pBytes]
  have hR := BlockMode.length_cbcMac (E.length_apply parameters.key.bytes)
    (show (List.replicate 16 (0 : UInt8)).length = 16 from List.length_replicate)
    (BlockMode.blocks 16 (prfInput parameters.tweak parameters.domain.radix.value (m + b.length)
      (byteWidth parameters.domain.radix.value b.length) round
      (num parameters.domain.radix.value b)))
  have hPrf := Ff1Prf.evaluate_eq hE hKey hInput (sixteen_dvd_prfInput _ _ _ _ _ _)
    Ff1Prf.blockSize
  rw [show BlockMode.stream _ _ _ 16 Ff1Prf.blockSize = _ from
    BlockMode.stream_blockSize (by omega) hR] at hPrf
  unfold computeY
  simp only [hQ, hP, ok_bind]
  rw [← prfInput, hPrf]
  simp only [ok_bind, Ff1YGenerator.generate_eq hE hKey hR, Ff1YNumber.fromBytes_eq]
  rw [calculateYLength_eq (by omega)]
  rfl

/-- Drawing Y needs a key of a valid size and a radix that P can hold. -/
theorem valid_of_computeY (h : IsOk (computeY evp parameters m b round)) :
    AesBlock.ValidKeySize parameters.key.size ∧ parameters.domain.radix.value ≤ 65536 := by
  obtain ⟨y, h⟩ := h
  unfold computeY at h
  obtain ⟨q, -, h⟩ := bind_eq_ok.mp h
  obtain ⟨p, hP, h⟩ := bind_eq_ok.mp h
  obtain ⟨r, hR, -⟩ := bind_eq_ok.mp h
  obtain ⟨-, -, hRadix, -⟩ := Ff1ParameterBlock.build_eq_ok.mp hP
  exact ⟨Ff1Prf.validKeySize_of_isOk (by decide) ⟨r, hR⟩, hRadix⟩

/-! ## The two directions -/

theorem validateRoundInputs_eq_ok :
    validateRoundInputs parameters a b round = .ok () ↔
      2 ≤ a.length + b.length ∧ a.length + b.length ≤ 4096 ∧ round < 10 ∧ a ≠ [] ∧ b ≠ [] ∧
        Digits parameters.domain.radix.value a ∧ Digits parameters.domain.radix.value b := by
  unfold validateRoundInputs
  simp only [bind_eq_ok, FpeParameters.validateLength_eq_ok, throwIf_eq_ok,
    FpeRadix.validate_eq_ok, exists_const]
  constructor
  · rintro ⟨⟨hLow, hHigh⟩, hRound, hNonempty, hA, hB⟩
    exact ⟨hLow, hHigh, by omega, fun h => hNonempty (Or.inl h), fun h => hNonempty (Or.inr h),
      hA, hB⟩
  · rintro ⟨hLow, hHigh, hRound, hANonempty, hBNonempty, hA, hB⟩
    exact ⟨⟨hLow, hHigh⟩, by omega, by simp [hANonempty, hBNonempty], hA, hB⟩

/-- The digits of a value below `radix ^ m`, padded to `m`. -/
theorem pad_eq (hRadix : 1 < parameters.domain.radix.value) (hm : 0 < m) {x : Nat}
    (hx : x < parameters.domain.radix.value ^ m) :
    (if (minimal parameters.domain.radix.value x).length < m then
        List.replicate (m - (minimal parameters.domain.radix.value x).length) 0 ++
          minimal parameters.domain.radix.value x
      else minimal parameters.domain.radix.value x) = str parameters.domain.radix.value m x := by
  rw [str_eq_pad hRadix hm hx]
  have hLength := length_minimal_le hRadix hm hx
  split
  · rfl
  · rw [show m - (minimal parameters.domain.radix.value x).length = 0 by omega]
    rfl

/-- The rest of `computeRound`, from a non-negative moved value on. -/
theorem computeRound_of_move {encryption : Bool} {y : Nat} {x : Nat}
    (hRadix : parameters.domain.radix.value ≤ 65536)
    (hInputs : validateRoundInputs parameters a b round = .ok ())
    (hY : computeY evp parameters a.length b round = .ok (y : Int))
    (hMove : moveValue (num parameters.domain.radix.value a : Int) y
      (parameters.domain.radix.value ^ a.length : Nat) encryption = .ok (x : Int))
    (hx : x < parameters.domain.radix.value ^ a.length) :
    computeRound evp parameters a b round encryption =
      .ok (str parameters.domain.radix.value a.length x) := by
  obtain ⟨-, -, -, hNonempty, -, hDigits, -⟩ := validateRoundInputs_eq_ok.mp hInputs
  have hTwo := parameters.domain.radix.two_le
  have hSmall : parameters.domain.radix.value < 2 ^ 32 := by omega
  have hPos := List.length_pos_iff.mpr hNonempty
  have hValue : (⟨parameters.domain.radix, a, hDigits⟩ : Ff1Numeral).toInteger =
      (num parameters.domain.radix.value a : Int) := Ff1Numeral.toInteger_eq hSmall
  have hLength := length_minimal_le hTwo hPos hx
  unfold computeRound
  simp only [hInputs, ok_bind, hY, Ff1Numeral.make_of_digits hDigits, hValue,
    Ff1NumeralMath.radixPower_eq hSmall, hMove,
    Ff1Numeral.fromInteger_natCast hSmall]
  rw [throwIf_of_not (Nat.not_lt.mpr hLength), ok_bind, ← pad_eq hTwo hPos hx]
  split <;> rfl

theorem moveValue_add {x y M : Nat} (hM : 0 < M) :
    moveValue x y M true = .ok (((x + y) % M : Nat) : Int) := by
  rw [moveValue, if_pos rfl, ← Nat.cast_add, Integer.mod_natCast hM.ne']

/-- The truncating remainder of a difference, corrected once, is the remainder. -/
theorem moveValue_sub {x y M : Nat} (hM : 0 < M) :
    moveValue x y M false = .ok (((((x : Int) - y) % M).toNat : Nat) : Int) := by
  have hLow := Int.emod_nonneg ((x : Int) - y) (show (M : Int) ≠ 0 by omega)
  rw [moveValue, if_neg Bool.false_ne_true, Integer.mod_of_pos hM, ok_bind, Integer.tmod_correct hM,
    pure_eq_ok, Int.toNat_of_nonneg hLow]

/-- The halves that a round takes. -/
structure Accepts (radix : FpeRadix) (a b : List Nat) (round : Nat) : Prop where
  digits : Digits radix.value a
  right : Ff1QBlock.Accepts radix (a.length + b.length) round b

theorem Accepts.length_pos {radix : FpeRadix} (h : Accepts radix a b round) : 0 < a.length := by
  have hLow := h.right.low
  have hLength := h.right.length_eq
  unfold Ff1QBlock.expectedBLength at hLength
  dsimp only at hLength
  split at hLength <;> omega

theorem Accepts.validate (h : Accepts parameters.domain.radix a b round) :
    validateRoundInputs parameters a b round = .ok () := by
  have hRight := h.right.length_pos
  refine validateRoundInputs_eq_ok.mpr ⟨h.right.low, h.right.high, h.right.round_lt, ?_, ?_,
    h.digits, h.right.digits⟩
  · exact List.length_pos_iff.mp h.length_pos
  · exact List.length_pos_iff.mp hRight.1

/-- Another left half of the same length is accepted too. -/
theorem Accepts.left {radix : FpeRadix} {c : List Nat} (h : Accepts radix a b round)
    (hDigits : Digits radix.value c) (hLength : c.length = a.length) : Accepts radix c b round :=
  ⟨hDigits, hLength ▸ h.right⟩

/-- Both directions, for the integer that is drawn. -/
theorem directions_eq {y : Nat} (hRadix : parameters.domain.radix.value ≤ 65536)
    (hInputs : validateRoundInputs parameters a b round = .ok ())
    (hY : computeY evp parameters a.length b round = .ok (y : Int)) :
    encrypt evp parameters a b round = .ok (addMod parameters.domain.radix.value a y) ∧
      decrypt evp parameters a b round = .ok (subMod parameters.domain.radix.value a y) := by
  have hPow : 0 < parameters.domain.radix.value ^ a.length :=
    Nat.pow_pos parameters.domain.radix.pos
  have hHigh := Int.emod_lt_of_pos ((num parameters.domain.radix.value a : Int) - y)
    (show (0 : Int) < (parameters.domain.radix.value ^ a.length : Nat) by exact_mod_cast hPow)
  constructor
  · exact computeRound_of_move hRadix hInputs hY (moveValue_add hPow) (Nat.mod_lt _ hPow)
  · exact computeRound_of_move hRadix hInputs hY (moveValue_sub hPow) (by omega)

section Directions

variable (hE : AesBlock.Computes evp E) (hKey : AesBlock.ValidKeySize parameters.key.size)
  (hRadix : parameters.domain.radix.value ≤ 65536)
  (h : Accepts parameters.domain.radix a b round)
include hE hKey hRadix h

theorem encrypt_eq :
    encrypt evp parameters a b round =
      .ok (addMod parameters.domain.radix.value a (roundMask E parameters a.length b round)) :=
  (directions_eq hRadix h.validate (computeY_eq hE hKey hRadix h.right)).1

theorem decrypt_eq :
    decrypt evp parameters a b round =
      .ok (subMod parameters.domain.radix.value a (roundMask E parameters a.length b round)) :=
  (directions_eq hRadix h.validate (computeY_eq hE hKey hRadix h.right)).2

end Directions

/-- A round that returns took its inputs and drew an integer. -/
theorem drawn_of_isOk {encryption : Bool}
    (h : IsOk (computeRound evp parameters a b round encryption)) :
    validateRoundInputs parameters a b round = .ok () ∧
      ∃ y : Nat, computeY evp parameters a.length b round = .ok (y : Int) := by
  unfold computeRound at h
  obtain ⟨_, hInputs, h⟩ := isOk_bind.mp h
  obtain ⟨y, hY, -⟩ := isOk_bind.mp h
  refine ⟨hInputs, ?_⟩
  have hDrawn := hY
  unfold computeY at hDrawn
  obtain ⟨_, -, hDrawn⟩ := bind_eq_ok.mp hDrawn
  obtain ⟨_, -, hDrawn⟩ := bind_eq_ok.mp hDrawn
  obtain ⟨_, -, hDrawn⟩ := bind_eq_ok.mp hDrawn
  obtain ⟨yBytes, -, hDrawn⟩ := bind_eq_ok.mp hDrawn
  rw [pure_eq_ok, Ff1YNumber.fromBytes_eq, Except.ok.injEq] at hDrawn
  exact ⟨byteNum yBytes, hDrawn.symm ▸ hY⟩

/-- A round that returns has a key of a valid size and a radix that P can hold. -/
theorem valid_of_isOk {encryption : Bool}
    (h : IsOk (computeRound evp parameters a b round encryption)) :
    AesBlock.ValidKeySize parameters.key.size ∧ parameters.domain.radix.value ≤ 65536 := by
  obtain ⟨-, y, hY⟩ := drawn_of_isOk h
  exact valid_of_computeY ⟨y, hY⟩

end Ff1Round

/-- **One round.** On the halves that a round takes, decryption undoes encryption and
encryption undoes decryption; both keep the format of the left half, and encryption moves
every left half by the same amount. -/
theorem round_inverse {evp : Evp} (hTotal : AesBlock.Total evp) {parameters : FpeParameters}
    (hRadix : parameters.domain.radix.value ≤ 65536)
    (hKey : AesBlock.ValidKeySize parameters.key.size) {A B : List Nat} {i : Nat} (hRound : i < 10)
    (hA : Digits parameters.domain.radix.value A) (hB : Digits parameters.domain.radix.value B)
    (hLow : 2 ≤ A.length + B.length) (hHigh : A.length + B.length ≤ 4096)
    (hLength : B.length = Ff1QBlock.expectedBLength (A.length + B.length) i) :
    (∃ C, Ff1Round.encrypt evp parameters A B i = .ok C ∧ C.length = A.length ∧
      Digits parameters.domain.radix.value C ∧ Ff1Round.decrypt evp parameters C B i = .ok A) ∧
    (∃ D, Ff1Round.decrypt evp parameters A B i = .ok D ∧ D.length = A.length ∧
      Digits parameters.domain.radix.value D ∧ Ff1Round.encrypt evp parameters D B i = .ok A) ∧
    ∀ A', A'.length = A.length → Digits parameters.domain.radix.value A' →
      ∃ C C', Ff1Round.encrypt evp parameters A B i = .ok C ∧
        Ff1Round.encrypt evp parameters A' B i = .ok C' ∧
        (num parameters.domain.radix.value C : Int) - num parameters.domain.radix.value A ≡
          num parameters.domain.radix.value C' - num parameters.domain.radix.value A'
          [ZMOD (parameters.domain.radix.value ^ A.length : Nat)] := by
  obtain ⟨E, hE⟩ := hTotal.exists_computes
  have hPos := parameters.domain.radix.pos
  have hAccepts : Ff1Round.Accepts parameters.domain.radix A B i :=
    ⟨hA, hLow, hHigh, hRound, hLength, hB⟩
  have hEncrypt := Ff1Round.encrypt_eq hE hKey hRadix hAccepts
  have hDecrypt := Ff1Round.decrypt_eq hE hKey hRadix hAccepts
  refine ⟨⟨_, hEncrypt, length_addMod _ _, digits_addMod hPos _ _, ?_⟩,
    ⟨_, hDecrypt, length_subMod _ _, digits_subMod hPos _ _, ?_⟩, ?_⟩
  · rw [Ff1Round.decrypt_eq hE hKey hRadix
      (hAccepts.left (digits_addMod hPos _ _) (length_addMod _ _)), length_addMod,
      subMod_addMod hA hPos]
  · rw [Ff1Round.encrypt_eq hE hKey hRadix
      (hAccepts.left (digits_subMod hPos _ _) (length_subMod _ _)), length_subMod,
      addMod_subMod hA hPos]
  · intro A' hLength' hDigits'
    refine ⟨_, _, hEncrypt, Ff1Round.encrypt_eq hE hKey hRadix (hAccepts.left hDigits' hLength'), ?_⟩
    have hMove := num_addMod_sub_modEq (β := parameters.domain.radix.value) A
      (Ff1Round.roundMask E parameters A.length B i)
    have hMove' := num_addMod_sub_modEq (β := parameters.domain.radix.value) A'
      (Ff1Round.roundMask E parameters A'.length B i)
    rw [hLength'] at hMove' ⊢
    exact hMove.trans hMove'.symm

theorem decimalParameters_keySize : AesBlock.ValidKeySize decimalParameters.key.size := by decide

/-- The halves of the interoperability test. -/
theorem decimal_accepts :
    Ff1Round.Accepts decimalParameters.domain.radix [0, 1, 2, 3, 4] [5, 6, 7, 8, 9] 0 where
  digits := by decide
  right := {
    low := Nat.le_of_ble_eq_true rfl
    high := Nat.le_of_ble_eq_true rfl
    round_lt := Nat.zero_lt_succ 9
    length_eq := rfl
    digits := by decide }

/-- The rounds of the interoperability test. -/
theorem round_inverse_decimal :
    ∃ C, Ff1Round.encrypt (Evp.ofFunction aes) decimalParameters [0, 1, 2, 3, 4] [5, 6, 7, 8, 9] 0 =
        .ok C ∧
      Ff1Round.decrypt (Evp.ofFunction aes) decimalParameters C [5, 6, 7, 8, 9] 0 =
        .ok [0, 1, 2, 3, 4] := by
  have hRight := decimal_accepts.right
  obtain ⟨⟨C, hEncrypt, -, -, hDecrypt⟩, -⟩ :=
    round_inverse (AesBlock.computes_ofFunction aes).total decimalDomain_radix_le
      decimalParameters_keySize hRight.round_lt decimal_accepts.digits hRight.digits hRight.low
      hRight.high hRight.length_eq
  exact ⟨C, hEncrypt, hDecrypt⟩

end IndicCrypt.Fpe
