import IndicCrypt.Crypto.Types
import IndicCrypt.Fpe.Numeral

/-!
# Parameters and the blocks P and Q

`FpeParameters`, `Ff1ParameterBlock` and `Ff1QBlock`. The constructor bounds the tweak by
64 bytes; the upper bound 65536 on the radix is checked by `Ff1ParameterBlock.build` alone.

`pBytes` and `qBytes` are the layouts of the two blocks as byte strings. `build_eq_ok` of
each says when the builder returns and that it then returns the layout. The width of the
numeral in Q is the byte width of the half it is given, `byteWidth radix |B|`.
-/

namespace IndicCrypt.Fpe

open Positional Run Crypto

/-! ## Parameters -/

structure FpeParameters where
  domain : FpeDomain
  key : Key
  tweak : Bytes
  tweak_le : tweak.length ≤ 64

namespace FpeParameters

def make (domain : FpeDomain) (key : Key) (tweak : Bytes) : Result FpeParameters :=
  if domain.radix.value < 2 then
    .error (.invalidArgument "FF1 radix must be at least 2")
  else if hTweak : tweak.length > 64 then
    .error (.invalidArgument "FF1 tweak exceeds maximum supported length")
  else
    .ok ⟨domain, key, tweak, by omega⟩

def minimumLength : Nat := 2

def maximumLength : Nat := 4096

def validateLength (_parameters : FpeParameters) (length : Nat) : Result Unit := do
  throwIf (length < minimumLength) (.invalidArgument "FF1 input is shorter than minimum length")
  throwIf (length > maximumLength)
    (.invalidArgument "FF1 input exceeds maximum supported length")

@[simp] theorem validateLength_eq_ok {parameters : FpeParameters} {length : Nat} {u : Unit} :
    parameters.validateLength length = .ok u ↔ 2 ≤ length ∧ length ≤ 4096 := by
  simp only [validateLength, throwIf_bind_eq_ok, throwIf_eq_ok]
  simp only [minimumLength, maximumLength]
  omega

theorem validateLength_of {parameters : FpeParameters} {length : Nat}
    (h : 2 ≤ length ∧ length ≤ 4096) : parameters.validateLength length = .ok () :=
  validateLength_eq_ok.mpr h

/-- The radix check never fires: `FpeRadix` has made it already. -/
theorem make_eq_ok {domain : FpeDomain} {key : Key} {tweak : Bytes} {parameters : FpeParameters} :
    make domain key tweak = .ok parameters ↔
      parameters.domain = domain ∧ parameters.key = key ∧ parameters.tweak = tweak := by
  obtain ⟨domain', key', tweak', hTweak⟩ := parameters
  have hRadix : ¬ domain.radix.value < 2 := by
    have := domain.radix.two_le
    omega
  unfold make
  rw [if_neg hRadix]
  constructor
  · intro h
    split at h
    · cases h
    · cases h
      exact ⟨rfl, rfl, rfl⟩
  · rintro ⟨rfl, rfl, rfl⟩
    exact dif_neg (Nat.not_lt.mpr hTweak)

end FpeParameters

/-! ## Reference parameters -/

/-- The decimal alphabet of the interoperability test. -/
def decimalAlphabet : FpeAlphabet where
  script := .latin
  symbols := [⟨0, [0x30], .latin, .sanskrit⟩, ⟨1, [0x31], .latin, .sanskrit⟩,
    ⟨2, [0x32], .latin, .sanskrit⟩, ⟨3, [0x33], .latin, .sanskrit⟩,
    ⟨4, [0x34], .latin, .sanskrit⟩, ⟨5, [0x35], .latin, .sanskrit⟩,
    ⟨6, [0x36], .latin, .sanskrit⟩, ⟨7, [0x37], .latin, .sanskrit⟩,
    ⟨8, [0x38], .latin, .sanskrit⟩, ⟨9, [0x39], .latin, .sanskrit⟩]
  version := "ff1-reference-decimal-v1"
  symbols_ne := by decide
  version_ne := by decide
  nodup := by decide

def decimalDomain : FpeDomain where
  alphabet := decimalAlphabet
  codec := ⟨decimalAlphabet⟩
  radix := ⟨10, by decide⟩
  codec_eq := rfl
  radix_eq := rfl

/-- The key, the radix and the empty tweak of the interoperability test. -/
def decimalParameters : FpeParameters where
  domain := decimalDomain
  key := ⟨[0x2b, 0x7e, 0x15, 0x16, 0x28, 0xae, 0xd2, 0xa6, 0xab, 0xf7, 0x15, 0x88, 0x09, 0xcf,
    0x4f, 0x3c]⟩
  tweak := []
  tweak_le := by decide

theorem decimalDomain_radix_le : decimalDomain.radix.value ≤ 65536 := by decide

/-! ## The parameter block P -/

namespace Ff1ParameterBlock

def size : Nat := 16

def writeUint32BE (output : Bytes) (offset : Nat) (value : UInt32) : Result Bytes := do
  throwIf (offset + 4 > output.length)
    (.outOfRange "FF1 parameter block write exceeds block size")
  let output := output.set (offset + 0) ((value >>> 24) &&& 0xff).toUInt8
  let output := output.set (offset + 1) ((value >>> 16) &&& 0xff).toUInt8
  let output := output.set (offset + 2) ((value >>> 8) &&& 0xff).toUInt8
  return output.set (offset + 3) (value &&& 0xff).toUInt8

/-- The block with its first eight bytes written. -/
def header (radix u : Nat) : Bytes :=
  let block : Bytes := List.replicate size 0
  let block := block.set 0 0x01
  let block := block.set 1 0x02
  let block := block.set 2 0x01
  let block := block.set 3 ((radix >>> 16) &&& 0xff).toUInt8
  let block := block.set 4 ((radix >>> 8) &&& 0xff).toUInt8
  let block := block.set 5 (radix &&& 0xff).toUInt8
  let block := block.set 6 0x0a
  block.set 7 (u &&& 0xff).toUInt8

def build (parameters : FpeParameters) (messageLength : Nat) : Result Bytes := do
  parameters.validateLength messageLength
  let radix := parameters.domain.radix.value
  let tweakLength := parameters.tweak.length
  throwIf (radix < 2 ∨ radix > 65536) (.invalidArgument "FF1 radix must be in [2, 65536]")
  throwIf (messageLength > 2 ^ 32 - 1)
    (.invalidArgument "FF1 message length exceeds uint32 capacity")
  throwIf (tweakLength > 2 ^ 32 - 1)
    (.invalidArgument "FF1 tweak length exceeds uint32 capacity")
  let u := messageLength / 2
  let block := header radix u
  let block ← writeUint32BE block 8 (UInt32.ofNat messageLength)
  writeUint32BE block 12 (UInt32.ofNat tweakLength)

end Ff1ParameterBlock

/-- The layout `[1] [2] [1] [radix]³ [10] [u mod 256] [n]⁴ [t]⁴` of P. -/
def pBytes (radix messageLength tweakLength : Nat) : Bytes :=
  [1, 2, 1] ++ bytes 3 radix ++ [10] ++ bytes 1 (messageLength / 2) ++ bytes 4 messageLength ++
    bytes 4 tweakLength

@[simp] theorem length_pBytes (radix n t : Nat) : (pBytes radix n t).length = 16 := by simp [pBytes]

theorem toUInt8_and_ff (x : Nat) : (x &&& 0xff).toUInt8 = UInt8.ofNat (x % 256) := by
  rw [Nat.and_two_pow_sub_one_eq_mod _ 8]

/-- The four bytes of a `std::uint32_t`, written by shifts and masks. -/
theorem uint32_bytes (value : UInt32) :
    [((value >>> 24) &&& 0xff).toUInt8, ((value >>> 16) &&& 0xff).toUInt8,
      ((value >>> 8) &&& 0xff).toUInt8, (value &&& 0xff).toUInt8] = bytes 4 value.toNat := by
  have hByte : ∀ x : UInt32, (x &&& 0xff).toUInt8 = UInt8.ofNat (x.toNat % 256) := by
    intro x
    apply UInt8.toNat.inj
    simp only [UInt32.toNat_toUInt8, UInt32.toNat_and, UInt8.toNat_ofNat']
    rw [show (0xff : UInt32).toNat = 2 ^ 8 - 1 from rfl, Nat.and_two_pow_sub_one_eq_mod]
  have h24 : (24 : UInt32).toNat % 32 = 24 := rfl
  have h16 : (16 : UInt32).toNat % 32 = 16 := rfl
  have h8 : (8 : UInt32).toNat % 32 = 8 := rfl
  simp only [hByte, UInt32.toNat_shiftRight, Nat.shiftRight_eq_div_pow, h24, h16, h8]
  norm_num [bytes, str]

namespace Ff1ParameterBlock

/-- The four bytes at the offset are replaced, the others stay. -/
theorem writeUint32BE_eq (before after : Bytes) (a b c d : UInt8) (value : UInt32) :
    writeUint32BE (before ++ [a, b, c, d] ++ after) before.length value =
      .ok (before ++ bytes 4 value.toNat ++ after) := by
  have hRoom : ¬ before.length + 4 > (before ++ [a, b, c, d] ++ after).length := by
    simp only [List.length_append, List.length_cons, List.length_nil]
    omega
  rw [writeUint32BE, throwIf_of_not hRoom, ok_bind, ← uint32_bytes]
  simp [List.set_append_right]

theorem header_eq (radix u : Nat) :
    header radix u =
      [1, 2, 1] ++ bytes 3 radix ++ [10] ++ bytes 1 u ++ [0, 0, 0, 0] ++ [0, 0, 0, 0] := by
  simp only [header, toUInt8_and_ff, Nat.shiftRight_eq_div_pow]
  norm_num [bytes, str, size]
  rfl

/-- The two length fields complete the header to the layout of P. -/
theorem write_lengths {radix n t : Nat} (hn : n < 2 ^ 32) (ht : t < 2 ^ 32) :
    (writeUint32BE (header radix (n / 2)) 8 (UInt32.ofNat n) >>= fun block =>
      writeUint32BE block 12 (UInt32.ofNat t)) = .ok (pBytes radix n t) := by
  have hFirst := writeUint32BE_eq ([1, 2, 1] ++ bytes 3 radix ++ [10] ++ bytes 1 (n / 2))
    [0, 0, 0, 0] 0 0 0 0 (UInt32.ofNat n)
  have hSecond := writeUint32BE_eq
    ([1, 2, 1] ++ bytes 3 radix ++ [10] ++ bytes 1 (n / 2) ++ bytes 4 n) [] 0 0 0 0 (UInt32.ofNat t)
  rw [UInt32.toNat_ofNat_of_lt' hn] at hFirst
  rw [UInt32.toNat_ofNat_of_lt' ht, List.append_nil, List.append_nil] at hSecond
  simp only [List.length_append, length_bytes, List.length_cons, List.length_nil] at hFirst hSecond
  rw [header_eq, hFirst, ok_bind, hSecond, pBytes]

theorem build_eq_ok {parameters : FpeParameters} {n : Nat} {p : Bytes} :
    build parameters n = .ok p ↔
      2 ≤ n ∧ n ≤ 4096 ∧ parameters.domain.radix.value ≤ 65536 ∧
        p = pBytes parameters.domain.radix.value n parameters.tweak.length := by
  have hTweak := parameters.tweak_le
  have hTwo := parameters.domain.radix.two_le
  unfold build
  rw [bind_eq_ok]
  simp only [FpeParameters.validateLength_eq_ok, throwIf_bind_eq_ok]
  constructor
  · rintro ⟨-, ⟨hLow, hHigh⟩, hRadix, -, -, hWrite⟩
    rw [write_lengths (by omega) (by omega)] at hWrite
    cases hWrite
    exact ⟨hLow, hHigh, by omega, rfl⟩
  · rintro ⟨hLow, hHigh, hRadix, rfl⟩
    exact ⟨(), ⟨hLow, hHigh⟩, by omega, by omega, by omega, write_lengths (by omega) (by omega)⟩

end Ff1ParameterBlock

/-! ## The block Q -/

/-- The loop that counts the bits of a value. It stops within `value` steps. -/
def bitLoop : Nat → Int → Nat → Nat
  | 0, _, bits => bits
  | fuel + 1, value, bits => if value > 0 then bitLoop fuel (value >>> (1 : Nat)) (bits + 1) else bits

theorem bitLoop_eq {fuel value : Nat} (h : value ≤ fuel) (bits : Nat) :
    bitLoop fuel value bits = bits + value.size := by
  induction fuel generalizing value bits with
  | zero =>
    obtain rfl : value = 0 := by omega
    simp [bitLoop]
  | succ fuel ih =>
    by_cases hZero : value = 0
    · subst hZero
      simp [bitLoop]
    · have hShift : (value : Int) >>> (1 : Nat) = ((value / 2 : Nat) : Int) := by
        rw [Int.shiftRight_eq_div_pow]
        norm_num
      have hSize : value.size = (value / 2).size + 1 := by
        conv_lhs => rw [← Nat.bit_testBit_zero_shiftRight_one value]
        rw [Nat.size_bit (by rwa [Nat.bit_testBit_zero_shiftRight_one]), Nat.shiftRight_eq_div_pow,
          pow_one]
      rw [bitLoop, if_pos (by omega), hShift, ih (by omega), hSize]
      omega

namespace Ff1QBlock

def requiredByteLength (radix : FpeRadix) (length : Nat) : Nat :=
  if length = 0 then
    0
  else
    let maximum := Ff1NumeralMath.radixPower radix length - 1
    if maximum = 0 then
      1
    else
      let bits := bitLoop maximum.toNat maximum 0
      (bits + 7) / 8

/-- `B` has `v` digits in even rounds and `u` digits in odd ones. -/
def expectedBLength (messageLength round : Nat) : Nat :=
  let u := messageLength / 2
  let v := messageLength - u
  if round % 2 = 0 then v else u

def build (parameters : FpeParameters) (messageLength round : Nat) (numeral : List Nat) :
    Result Bytes := do
  parameters.validateLength messageLength
  throwIf (round ≥ 10) (.invalidArgument "FF1 round must be in [0, 9]")
  throwIf (numeral.length ≠ expectedBLength messageLength round)
    (.invalidArgument "FF1 Q block requires the current B numeral length")
  parameters.domain.radix.validate numeral
  let b := requiredByteLength parameters.domain.radix numeral.length
  let zeroPadding := (16 - (parameters.tweak.length + b + 1) % 16) % 16
  let value ← Ff1Numeral.make parameters.domain.radix numeral
  let encoded ← Ff1NumeralEncoding.encode value b
  return parameters.tweak ++ List.replicate zeroPadding 0 ++ [round.toUInt8] ++ encoded

/-- The computed width is the least number of bytes that holds every half of the length. -/
theorem requiredByteLength_eq {radix : FpeRadix} (hRadix : radix.value < 2 ^ 32) (length : Nat) :
    requiredByteLength radix length = byteWidth radix.value length := by
  have hTwo := radix.two_le
  by_cases hZero : length = 0
  · subst hZero
    simp [requiredByteLength, byteWidth]
  · have hPow : 1 < radix.value ^ length := Nat.one_lt_pow hZero radix.two_le
    have hMaximum : Ff1NumeralMath.radixPower radix length - 1 =
        ((radix.value ^ length - 1 : Nat) : Int) := by
      rw [Ff1NumeralMath.radixPower_eq hRadix]
      omega
    simp only [requiredByteLength, if_neg hZero, hMaximum]
    rw [if_neg (by omega), Int.toNat_natCast, bitLoop_eq le_rfl, zero_add]
    apply eq_of_forall_ge_iff
    intro k
    rw [byteWidth_le_iff]
    calc (Nat.size (radix.value ^ length - 1) + 7) / 8 ≤ k
        ↔ Nat.size (radix.value ^ length - 1) ≤ 8 * k := by omega
      _ ↔ radix.value ^ length - 1 < 2 ^ (8 * k) := Nat.size_le
      _ ↔ radix.value ^ length ≤ 256 ^ k := by
        rw [pow_mul]
        norm_num
        omega

end Ff1QBlock

/-- The zero bytes that bring `t` tweak bytes, the round byte and `b` numeral bytes to a
multiple of sixteen. -/
def padding (t b : Nat) : Nat := (16 - (t + b + 1) % 16) % 16

/-- The layout `T ‖ [0]^(-t-b-1 mod 16) ‖ [i] ‖ [x]^b` of Q. -/
def qBytes (tweak : Bytes) (b round x : Nat) : Bytes :=
  tweak ++ List.replicate (padding tweak.length b) 0 ++ [UInt8.ofNat round] ++ bytes b x

theorem length_qBytes (tweak : Bytes) (b round x : Nat) :
    (qBytes tweak b round x).length = tweak.length + padding tweak.length b + 1 + b := by
  simp only [qBytes, List.length_append, List.length_replicate, List.length_singleton, length_bytes]

theorem padding_lt (t b : Nat) : padding t b < 16 := Nat.mod_lt _ (by omega)

theorem sixteen_dvd_padding (t b : Nat) : 16 ∣ t + padding t b + 1 + b := by
  unfold padding
  omega

namespace Ff1QBlock

/-- The rounds, lengths and halves that the builder takes. -/
structure Accepts (radix : FpeRadix) (messageLength round : Nat) (numeral : List Nat) : Prop where
  low : 2 ≤ messageLength
  high : messageLength ≤ 4096
  round_lt : round < 10
  length_eq : numeral.length = expectedBLength messageLength round
  digits : Digits radix.value numeral

theorem Accepts.length_pos {radix : FpeRadix} {n round : Nat} {numeral : List Nat}
    (h : Accepts radix n round numeral) : 0 < numeral.length ∧ numeral.length ≤ 4096 := by
  have hLow := h.low
  have hHigh := h.high
  rw [h.length_eq]
  unfold expectedBLength
  dsimp only
  split <;> omega

theorem build_of_accepts {parameters : FpeParameters} {n round : Nat} {numeral : List Nat}
    (hRadix : parameters.domain.radix.value ≤ 65536)
    (h : Accepts parameters.domain.radix n round numeral) :
    build parameters n round numeral =
      .ok (qBytes parameters.tweak (byteWidth parameters.domain.radix.value numeral.length) round
        (num parameters.domain.radix.value numeral)) := by
  obtain ⟨hPos, hMax⟩ := h.length_pos
  have hRound := h.round_lt
  have hWidth := byteWidth_pos parameters.domain.radix.two_le hPos
  have hWidthLe := byteWidth_le_two_mul hRadix numeral.length
  have hSmall : parameters.domain.radix.value < 2 ^ 32 := by omega
  have hMake := Ff1Numeral.make_of_digits h.digits
  have hValue : (⟨parameters.domain.radix, numeral, h.digits⟩ : Ff1Numeral).toInteger =
      (num parameters.domain.radix.value numeral : Nat) := Ff1Numeral.toInteger_eq hSmall
  have hEncode := Ff1NumeralEncoding.encode_of_lt hValue hWidth (by omega)
    (num_lt_byteWidth h.digits)
  unfold build
  rw [FpeParameters.validateLength_of ⟨h.low, h.high⟩, ok_bind,
    throwIf_of_not (by omega), ok_bind, throwIf_of_not (not_not_intro h.length_eq), ok_bind,
    FpeRadix.validate_of_digits h.digits, ok_bind]
  simp only [requiredByteLength_eq hSmall, hMake, ok_bind, hEncode]
  rfl

/-- A successful build means accepted arguments. -/
theorem accepts_of_build {parameters : FpeParameters} {n round : Nat} {numeral : List Nat}
    {q : Bytes} (h : build parameters n round numeral = .ok q) :
    Accepts parameters.domain.radix n round numeral := by
  unfold build at h
  obtain ⟨_, hLength, h⟩ := bind_eq_ok.mp h
  obtain ⟨hRound, h⟩ := throwIf_bind_eq_ok.mp h
  obtain ⟨hNumeral, h⟩ := throwIf_bind_eq_ok.mp h
  obtain ⟨_, hDigits, -⟩ := bind_eq_ok.mp h
  obtain ⟨hLow, hHigh⟩ := FpeParameters.validateLength_eq_ok.mp hLength
  exact ⟨hLow, hHigh, by omega, not_not.mp hNumeral, FpeRadix.validate_eq_ok.mp hDigits⟩

end Ff1QBlock

end IndicCrypt.Fpe
