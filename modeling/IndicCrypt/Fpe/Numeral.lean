import Mathlib.Algebra.Order.Ring.Int
import Mathlib.Data.Nat.Size
import IndicCrypt.Fpe.Alphabet

/-!
# Numerals

`Ff1Numeral`, `Ff1NumeralMath`, `Ff1NumeralEncoding` and `Ff1YNumber`. `cpp_int` is `Int`:
its `/` and `%` truncate toward zero and throw on a zero divisor (`Integer.div`,
`Integer.mod`). The radix, a `std::size_t`, reaches the big integers through
`static_cast<unsigned int>`, so it is reduced modulo `2 ^ 32`; the lemmas about values ask
for a radix below that.

`toInteger` is the value `num` of the digits, `fromInteger` writes the `minimal` digits of
a number, `encode` writes `k` big-endian bytes and `fromBytes` reads them back.
-/

namespace IndicCrypt.Fpe

open Positional Run

/-- `static_cast<unsigned int>`. -/
def toUnsigned (value : Nat) : Nat := value % 2 ^ 32

/-! ## Big integers -/

namespace Integer

def div (a b : Int) : Result Int :=
  if b = 0 then .error (.overflowError "Integer Division by zero.") else .ok (a.tdiv b)

def mod (a b : Int) : Result Int :=
  if b = 0 then .error (.overflowError "Integer Division by zero.") else .ok (a.tmod b)

theorem div_natCast {a b : Nat} (h : b ≠ 0) : div (a : Int) (b : Int) = .ok ((a / b : Nat) : Int) := by
  rw [div, if_neg (by exact_mod_cast h), ← Int.ofNat_tdiv]

theorem mod_natCast {a b : Nat} (h : b ≠ 0) : mod (a : Int) (b : Int) = .ok ((a % b : Nat) : Int) := by
  rw [mod, if_neg (by exact_mod_cast h), Int.tmod_eq_emod_of_nonneg (by omega), Int.natCast_emod]

theorem mod_of_pos {M : Nat} (hM : 0 < M) (a : Int) : mod a (M : Int) = .ok (a.tmod M) := by
  rw [mod, if_neg (by omega)]

/-- The truncating remainder, corrected once when it is negative, is the remainder. -/
theorem tmod_correct {M : Nat} (hM : 0 < M) (a : Int) :
    (if a.tmod M < 0 then a.tmod M + M else a.tmod M) = a % M := by
  have hNonzero : (M : Int) ≠ 0 := by omega
  have hLow := Int.emod_nonneg a hNonzero
  have hHigh := Int.emod_lt_of_pos a (show (0 : Int) < M by omega)
  rw [Int.tmod_eq_emod]
  by_cases hSign : 0 ≤ a ∨ (M : Int) ∣ a
  · rw [if_pos hSign, Nat.cast_zero, sub_zero, if_neg (by omega)]
  · rw [if_neg hSign, Int.natAbs_natCast, if_pos (by omega), sub_add_cancel]

end Integer

/-! ## Numerals -/

structure Ff1Numeral where
  radix : FpeRadix
  digits : List Nat
  valid : Digits radix.value digits

namespace Ff1Numeral

def make (radix : FpeRadix) (digits : List Nat) : Result Ff1Numeral :=
  match h : radix.validate digits with
  | .error failure => .error failure
  | .ok _ => .ok ⟨radix, digits, FpeRadix.validate_eq_ok.mp h⟩

theorem make_of_digits {radix : FpeRadix} {digits : List Nat} (h : Digits radix.value digits) :
    make radix digits = .ok ⟨radix, digits, h⟩ := by
  unfold make
  split
  · rename_i failure hFailure
    rw [FpeRadix.validate_of_digits h] at hFailure
    cases hFailure
  · rfl

def toInteger (numeral : Ff1Numeral) : Int :=
  let radixValue : Int := toUnsigned numeral.radix.value
  numeral.digits.foldl (fun (value : Int) (digit : Nat) => value * radixValue + digit) 0

/-- The loop of `fromInteger`, with its remainders pushed to the back of `reversed`. With a
radix of at least two the remaining value shrinks; with the radix one it never does, and
the loop outlasts any fuel. -/
def divideLoop (radixValue : Int) : Nat → Int → List Nat → Result (List Nat)
  | 0, remaining, reversed => if remaining > 0 then .error .nontermination else .ok reversed
  | fuel + 1, remaining, reversed =>
    if remaining > 0 then do
      let remainder ← Integer.mod remaining radixValue
      let quotient ← Integer.div remaining radixValue
      divideLoop radixValue fuel quotient (reversed ++ [remainder.toNat])
    else
      .ok reversed

def fromInteger (radix : FpeRadix) (value : Int) : Result Ff1Numeral :=
  if value < 0 then
    .error (.invalidArgument "FF1 numeral cannot represent a negative integer")
  else if value = 0 then
    make radix [0]
  else do
    let radixValue : Int := toUnsigned radix.value
    let reversed ← divideLoop radixValue value.toNat value []
    make radix reversed.reverse

/-- The value, in the base that the narrowing leaves. -/
theorem toInteger_eq_num (numeral : Ff1Numeral) :
    numeral.toInteger = (num (toUnsigned numeral.radix.value) numeral.digits : Int) := by
  have hFold : ∀ (β : Nat) (X : List Nat) (x : Nat),
      X.foldl (fun (value : Int) (digit : Nat) => value * (β : Int) + digit) x =
        (X.foldl (fun y d => y * β + d) x : Nat) := by
    intro β X
    induction X with
    | nil => simp
    | cons d X ih =>
      intro x
      rw [List.foldl_cons, List.foldl_cons, ← ih]
      push_cast
      rfl
  rw [← num_eq_foldl, toInteger]
  exact hFold _ numeral.digits 0

theorem toInteger_eq {numeral : Ff1Numeral} (h : numeral.radix.value < 2 ^ 32) :
    numeral.toInteger = (num numeral.radix.value numeral.digits : Int) := by
  rw [toInteger_eq_num, toUnsigned, Nat.mod_eq_of_lt h]

/-- Enough fuel lets the loop collect the digits, least significant first. -/
theorem divideLoop_eq {radix : Nat} (hRadix : 1 < radix) {fuel x : Nat} (hFuel : x ≤ fuel)
    (reversed : List Nat) :
    divideLoop radix fuel x reversed = .ok (reversed ++ radix.digits x) := by
  induction fuel generalizing x reversed with
  | zero =>
    obtain rfl : x = 0 := by omega
    simp [divideLoop]
  | succ fuel ih =>
    by_cases hx : x = 0
    · subst hx
      simp [divideLoop]
    · have hPos : (x : Int) > 0 := by omega
      have hSmaller : x / radix < x := Nat.div_lt_self (by omega) hRadix
      rw [divideLoop, if_pos hPos, Integer.mod_natCast (by omega), ok_bind,
        Integer.div_natCast (by omega), ok_bind, ih (Nat.le_of_lt_succ (hSmaller.trans_le hFuel)),
        Int.toNat_natCast, Nat.digits_def' hRadix (Nat.pos_of_ne_zero hx), List.append_assoc,
        List.singleton_append]

/-- With the base one no fuel is enough. -/
theorem divideLoop_one (fuel : Nat) {x : Int} (hx : 0 < x) (reversed : List Nat) :
    divideLoop 1 fuel x reversed = .error .nontermination := by
  induction fuel generalizing reversed with
  | zero => exact if_pos hx
  | succ fuel ih =>
    have hMod : Integer.mod x 1 = .ok (x.tmod 1) := if_neg Int.one_ne_zero
    have hDiv : Integer.div x 1 = .ok (x.tdiv 1) := if_neg Int.one_ne_zero
    rw [divideLoop, if_pos hx, hMod, ok_bind, hDiv, ok_bind, Int.tdiv_one, ih]

theorem fromInteger_zero (radix : FpeRadix) :
    fromInteger radix 0 = .ok ⟨radix, [0], digits_cons.mpr ⟨radix.pos, digits_nil⟩⟩ := by
  rw [fromInteger, if_neg (by omega), if_pos rfl]
  exact make_of_digits _

theorem fromInteger_of_pos (radix : FpeRadix) {x : Int} (hx : 0 < x) :
    fromInteger radix x = (do
      let reversed ← divideLoop (toUnsigned radix.value) x.toNat x []
      make radix reversed.reverse) := by
  rw [fromInteger, if_neg (by omega), if_neg (by omega)]

theorem toUnsigned_le (value : Nat) : toUnsigned value ≤ value := Nat.mod_le _ _

/-- The digits in the base that the narrowing leaves are digits of the radix. -/
theorem digits_minimal_toUnsigned {radix : FpeRadix} (hBase : 1 < toUnsigned radix.value) (x : Nat) :
    Digits radix.value (minimal (toUnsigned radix.value) x) :=
  fun d hd => (digits_minimal hBase x d hd).trans_le (toUnsigned_le _)

/-- A base of at least two gives the minimal digits in that base. -/
theorem fromInteger_of_base {radix : FpeRadix} (hBase : 1 < toUnsigned radix.value) (x : Nat) :
    fromInteger radix x =
      .ok ⟨radix, minimal (toUnsigned radix.value) x, digits_minimal_toUnsigned hBase x⟩ := by
  by_cases hx : x = 0
  · subst hx
    exact fromInteger_zero radix
  · have hMinimal : minimal (toUnsigned radix.value) x =
        ((toUnsigned radix.value).digits x).reverse := if_neg hx
    have hDigits := digits_minimal_toUnsigned hBase x
    rw [hMinimal] at hDigits
    rw [fromInteger_of_pos radix (by omega), Int.toNat_natCast, divideLoop_eq hBase le_rfl, ok_bind,
      List.nil_append]
    simp only [hMinimal]
    exact make_of_digits hDigits

theorem fromInteger_natCast {radix : FpeRadix} (hRadix : radix.value < 2 ^ 32) (x : Nat) :
    fromInteger radix x =
      .ok ⟨radix, minimal radix.value x, digits_minimal radix.two_le x⟩ := by
  have hSame : toUnsigned radix.value = radix.value := Nat.mod_eq_of_lt hRadix
  have hBase : 1 < toUnsigned radix.value := hSame.symm ▸ radix.two_le
  rw [fromInteger_of_base hBase]
  simp only [hSame]

/-- The base zero divides by zero and the base one loops for ever. -/
theorem fromInteger_of_base_le_one {radix : FpeRadix} (hBase : toUnsigned radix.value ≤ 1) {x : Int}
    (hx : 0 < x) :
    fromInteger radix x = .error (if toUnsigned radix.value = 0 then
      .overflowError "Integer Division by zero." else .nontermination) := by
  obtain ⟨fuel, hFuel⟩ : ∃ fuel, x.toNat = fuel + 1 := ⟨x.toNat - 1, by omega⟩
  rw [fromInteger_of_pos radix hx]
  by_cases hZero : toUnsigned radix.value = 0
  · have hMod : Integer.mod x ((0 : Nat) : Int) = .error (.overflowError "Integer Division by zero.") :=
      if_pos rfl
    rw [if_pos hZero, hZero, hFuel, divideLoop, if_pos hx, hMod]
    rfl
  · have hOne : toUnsigned radix.value = 1 := by omega
    rw [if_neg hZero, hOne, Nat.cast_one, divideLoop_one _ hx]
    rfl

end Ff1Numeral

/-! ## Powers of the radix -/

namespace Ff1NumeralMath

def radixPower (radix : FpeRadix) (exponent : Nat) : Int :=
  let base : Int := toUnsigned radix.value
  (fun result => result * base)^[exponent] 1

def modulus (radix : FpeRadix) (length : Nat) : Int := radixPower radix length

theorem radixPower_eq_pow (radix : FpeRadix) (exponent : Nat) :
    radixPower radix exponent = (toUnsigned radix.value ^ exponent : Nat) := by
  unfold radixPower
  induction exponent with
  | zero => rfl
  | succ exponent ih =>
    rw [Function.iterate_succ_apply', ih, pow_succ]
    push_cast
    rfl

theorem radixPower_eq {radix : FpeRadix} (h : radix.value < 2 ^ 32) (exponent : Nat) :
    radixPower radix exponent = (radix.value ^ exponent : Nat) := by
  rw [radixPower_eq_pow, toUnsigned, Nat.mod_eq_of_lt h]

end Ff1NumeralMath

/-! ## Bytes of a numeral -/

namespace Ff1NumeralEncoding

/-- The loop of `encode`: byte `i` from the back is the `i`-th low byte of the value. -/
def encodeLoop (byteLength value : Nat) : Bytes :=
  ((List.range byteLength).foldl
    (fun (state : Bytes × Nat) i =>
      (state.1.set (byteLength - 1 - i) (state.2 &&& 0xff).toUInt8, state.2 >>> 8))
    (List.replicate byteLength 0, value)).1

def encode (numeral : Ff1Numeral) (byteLength : Nat) : Result Bytes := do
  throwIf (byteLength = 0)
    (.invalidArgument "FF1 numeral encoding requires a non-zero byte length")
  let value := numeral.toInteger
  throwIf (value < 0) (.invalidArgument "FF1 numeral cannot encode a negative integer")
  -- the shift count is a `std::size_t` product
  let maximum := ((1 : Int) <<< (byteLength * 8 % 2 ^ 64)) - 1
  throwIf (value > maximum)
    (.overflowError "FF1 numeral does not fit in requested byte length")
  return encodeLoop byteLength value.toNat

theorem encodeLoop_eq (byteLength value : Nat) : encodeLoop byteLength value = bytes byteLength value := by
  -- after `i` steps the last `i` bytes are written and the value is shifted by `8 * i`
  have hInvariant : ∀ i ≤ byteLength, (List.range i).foldl
      (fun (state : Bytes × Nat) i =>
        (state.1.set (byteLength - 1 - i) (state.2 &&& 0xff).toUInt8, state.2 >>> 8))
      (List.replicate byteLength 0, value) =
        (List.replicate (byteLength - i) 0 ++ bytes i value, value / 256 ^ i) := by
    intro i
    induction i with
    | zero =>
      intro _
      simp [bytes]
    | succ i ih =>
      intro hi
      obtain ⟨rest, rfl⟩ : ∃ rest, byteLength = rest + 1 + i := ⟨byteLength - (i + 1), by omega⟩
      have hByte : (value / 256 ^ i &&& 255).toUInt8 = UInt8.ofNat (value / 256 ^ i % 256) := by
        rw [Nat.and_two_pow_sub_one_eq_mod _ 8]
      have hIndex : rest + 1 + i - 1 - i = rest := by omega
      have hLeft : rest + 1 + i - i = rest + 1 := by omega
      have hRight : rest + 1 + i - (i + 1) = rest := by omega
      rw [List.range_succ, List.foldl_append, ih (by omega), List.foldl_cons, List.foldl_nil,
        hIndex, hLeft, hRight, hByte, bytes_succ, Nat.shiftRight_eq_div_pow, Nat.div_div_eq_div_mul,
        pow_succ]
      refine Prod.ext ?_ rfl
      rw [List.replicate_succ', List.append_assoc, List.set_append_right _ _ (by simp)]
      simp
  have hAll := hInvariant byteLength le_rfl
  rw [encodeLoop, hAll]
  simp

/-- The largest value of a width, when the shift count does not wrap. -/
theorem maximum_eq {byteLength : Nat} (hSize : byteLength * 8 < 2 ^ 64) :
    ((1 : Int) <<< (byteLength * 8 % 2 ^ 64)) - 1 = (256 ^ byteLength : Nat) - 1 := by
  rw [Nat.mod_eq_of_lt hSize, Int.shiftLeft_eq, one_mul, Nat.mul_comm, pow_mul]
  push_cast
  norm_num

/-- `encode` writes the bytes of a value that fits; the shift count must not wrap. -/
theorem encode_of_lt {numeral : Ff1Numeral} {byteLength value : Nat}
    (hValue : numeral.toInteger = value) (hPos : 0 < byteLength)
    (hSize : byteLength * 8 < 2 ^ 64) (hFits : value < 256 ^ byteLength) :
    encode numeral byteLength = .ok (bytes byteLength value) := by
  unfold encode
  simp only [hValue, maximum_eq hSize]
  rw [throwIf_of_not (by omega), ok_bind, throwIf_of_not (by omega), ok_bind,
    throwIf_of_not (by omega), ok_bind, Int.toNat_natCast, encodeLoop_eq]
  rfl

theorem encode_of_ge {numeral : Ff1Numeral} {byteLength value : Nat}
    (hValue : numeral.toInteger = value) (hPos : 0 < byteLength)
    (hSize : byteLength * 8 < 2 ^ 64) (hLarge : 256 ^ byteLength ≤ value) :
    encode numeral byteLength =
      .error (.overflowError "FF1 numeral does not fit in requested byte length") := by
  unfold encode
  simp only [hValue, maximum_eq hSize]
  rw [throwIf_of_not (by omega), ok_bind, throwIf_of_not (by omega), ok_bind,
    throwIf_of (by omega), error_bind]

end Ff1NumeralEncoding

namespace Ff1YNumber

def fromBytes (bytes : Bytes) : Int :=
  bytes.foldl (fun (value : Int) (byte : UInt8) => (value <<< (8 : Nat)) + byte.toNat) 0

theorem fromBytes_eq (s : Bytes) : fromBytes s = (byteNum s : Int) := by
  have hFold : ∀ (s : Bytes) (x : Nat),
      s.foldl (fun (value : Int) (byte : UInt8) => (value <<< (8 : Nat)) + byte.toNat) x =
        ((s.map UInt8.toNat).foldl (fun y d => y * 256 + d) x : Nat) := by
    intro s
    induction s with
    | nil => simp
    | cons byte s ih =>
      intro x
      have hShift : ((x : Int) <<< (8 : Nat)) + byte.toNat = ((x * 256 + byte.toNat : Nat) : Int) := by
        rw [Int.shiftLeft_eq]
        push_cast
        rfl
      rw [List.foldl_cons, hShift, ih, List.map_cons, List.foldl_cons]
  rw [byteNum, ← num_eq_foldl]
  exact hFold s 0

end Ff1YNumber

end IndicCrypt.Fpe
