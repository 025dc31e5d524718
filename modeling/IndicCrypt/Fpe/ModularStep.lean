import IndicCrypt.Fpe.Round
import IndicCrypt.Library.MinimalStep

/-!
# The modular step

The step of FF1 by an integer modulo a power of the radix is written three times: in
`computeRound`, in `Ff1NumeralMath::addModulo` and in `Ff1RoundValue`. All three give the same
value (`round_steps_agree`).

`computeRound` pads its result to the length of the half. `addModulo` returns the minimal digits
(`addModulo_eq`), so a result may be shorter than the numeral it came from, and the next call
takes a smaller modulus: calls compose exactly when no zero is dropped (`addModulo_acts_iff`).
-/

namespace IndicCrypt.Fpe

open Positional Run

/-! ## `addModulo` -/

namespace Ff1NumeralMath

def addModulo (value : Ff1Numeral) (amount : Int) : Result Ff1Numeral := do
  let modulusValue := modulus value.radix value.digits.length
  throwIf (modulusValue = 0) (.logicError "FF1 modulus cannot be zero")
  let result ← Integer.mod (value.toInteger + amount) modulusValue
  let result := if result < 0 then result + modulusValue else result
  Ff1Numeral.fromInteger value.radix result

/-- The numeral moves by the amount and keeps no leading zeros. -/
theorem addModulo_eq {x : Ff1Numeral} (hRadix : x.radix.value < 2 ^ 32) (a : Int) :
    addModulo x a =
      .ok ⟨x.radix, shiftMod x.radix.value x.digits a, digits_shiftMod x.radix.two_le _ _⟩ := by
  have hPow : 0 < x.radix.value ^ x.digits.length := Nat.pow_pos x.radix.pos
  have hNonneg := Int.emod_nonneg ((num x.radix.value x.digits : Int) + a)
    (show ((x.radix.value ^ x.digits.length : Nat) : Int) ≠ 0 by omega)
  have hResult := Ff1Numeral.fromInteger_natCast hRadix
    (((num x.radix.value x.digits : Int) + a) % (x.radix.value ^ x.digits.length : Nat)).toNat
  rw [Int.toNat_of_nonneg hNonneg] at hResult
  unfold addModulo modulus
  simp only [radixPower_eq hRadix, Ff1Numeral.toInteger_eq hRadix]
  rw [throwIf_of_not (by omega), ok_bind, Integer.mod_of_pos hPow, ok_bind,
    Integer.tmod_correct hPow, hResult]
  rfl

theorem addModulo_eq_ok {x y : Ff1Numeral} (hRadix : x.radix.value < 2 ^ 32) {a : Int} :
    addModulo x a = .ok y ↔ y.radix = x.radix ∧ y.digits = shiftMod x.radix.value x.digits a := by
  rw [addModulo_eq hRadix, Except.ok.injEq]
  refine ⟨fun h => h ▸ ⟨rfl, rfl⟩, fun h => ?_⟩
  cases y
  simp only [Ff1Numeral.mk.injEq]
  exact ⟨h.1.symm, h.2.symm⟩

/-- The laws of an action: the result is a numeral of the length of `x` with the value of the
sum, a further call adds its amount, and the opposite call restores `x`. -/
structure Acts (x : Ff1Numeral) (a b : Int) (y : Ff1Numeral) : Prop where
  result : addModulo x a = .ok y
  radix : y.radix = x.radix
  length : y.digits.length = x.digits.length
  value : y.toInteger = (x.toInteger + a) % (x.radix.value ^ x.digits.length : Nat)
  add : addModulo y b = addModulo x (a + b)
  neg : addModulo y (-a) = .ok x

/-- The first digit of `z`, written with the length of `x`, is not a zero that gets lost. -/
def KeepsLength (x : Ff1Numeral) (z : Int) : Prop :=
  x.digits.length = 1 ∨ topDigit x.radix.value x.digits.length z ≠ 0

theorem length_addModulo {x y : Ff1Numeral} (hRadix : x.radix.value < 2 ^ 32) (hx : x.digits ≠ [])
    {a : Int} (h : addModulo x a = .ok y) :
    y.digits.length = x.digits.length ↔ KeepsLength x (x.toInteger + a) := by
  rw [((addModulo_eq_ok hRadix).mp h).2, length_shiftMod x.radix.two_le hx,
    ← Ff1Numeral.toInteger_eq hRadix, KeepsLength]

theorem toInteger_addModulo {x y : Ff1Numeral} (hRadix : x.radix.value < 2 ^ 32) {a : Int}
    (h : addModulo x a = .ok y) :
    y.toInteger = (x.toInteger + a) % (x.radix.value ^ x.digits.length : Nat) := by
  obtain ⟨hSame, hDigits⟩ := (addModulo_eq_ok hRadix).mp h
  rw [Ff1Numeral.toInteger_eq (hSame ▸ hRadix), Ff1Numeral.toInteger_eq hRadix, hSame, hDigits,
    num_shiftMod x.radix.pos]

theorem addModulo_addModulo {x y : Ff1Numeral} (hRadix : x.radix.value < 2 ^ 32) {a : Int}
    (h : addModulo x a = .ok y) (hLength : y.digits.length = x.digits.length) (b : Int) :
    addModulo y b = addModulo x (a + b) := by
  obtain ⟨hSame, hDigits⟩ := (addModulo_eq_ok hRadix).mp h
  rw [addModulo_eq hRadix, addModulo_eq_ok (hSame ▸ hRadix), hSame, hDigits]
  refine ⟨rfl, (shiftMod_shiftMod x.radix.pos ?_ b).symm⟩
  rw [← hDigits, hLength]

theorem addModulo_neg {x y : Ff1Numeral} (hRadix : x.radix.value < 2 ^ 32) (hx : x.digits ≠ [])
    {a : Int} (h : addModulo x a = .ok y) :
    addModulo y (-a) = .ok x ↔
      y.digits.length = x.digits.length ∧ KeepsLength x x.toInteger := by
  obtain ⟨hSame, hDigits⟩ := (addModulo_eq_ok hRadix).mp h
  rw [addModulo_eq_ok (hSame ▸ hRadix), hSame, hDigits, eq_comm (a := x.digits),
    shiftMod_neg x.radix.two_le x.valid hx, strip_eq_self x.radix.two_le x.valid hx,
    Ff1Numeral.toInteger_eq hRadix, KeepsLength]
  exact and_iff_right rfl

end Ff1NumeralMath

/-- **When `addModulo` acts on the numerals.** The value is always the one of the sum modulo
`radix ^ |x|`. The length is kept, calls add up and the opposite call restores `x` exactly when
`x` is a single digit or neither `x` nor the sum has a zero at the first place of `x`. -/
theorem addModulo_acts_iff (x : Ff1Numeral) (hRadix : x.radix.value ≤ 65536) (hx : x.digits ≠ [])
    (a b : Int) :
    (∃ y, Ff1NumeralMath.addModulo x a = .ok y ∧
      y.toInteger = (x.toInteger + a) % (x.radix.value ^ x.digits.length : Nat)) ∧
    ((∃ y, Ff1NumeralMath.Acts x a b y) ↔
      x.digits.length = 1 ∨
        topDigit x.radix.value x.digits.length x.toInteger ≠ 0 ∧
        topDigit x.radix.value x.digits.length (x.toInteger + a) ≠ 0) := by
  have hSmall : x.radix.value < 2 ^ 32 := by omega
  have hResult := Ff1NumeralMath.addModulo_eq hSmall a
  have hValue := Ff1NumeralMath.toInteger_addModulo hSmall hResult
  have hLength := Ff1NumeralMath.length_addModulo hSmall hx hResult
  have hNeg := Ff1NumeralMath.addModulo_neg hSmall hx hResult
  refine ⟨⟨_, hResult, hValue⟩, ?_⟩
  constructor
  · intro h
    obtain ⟨y, hActs⟩ := h
    obtain rfl := Except.ok.inj (hActs.result.symm.trans hResult)
    obtain ⟨hKept, hMinimal⟩ := hNeg.mp hActs.neg
    rcases hMinimal with hOne | hFirst
    · exact .inl hOne
    · rcases hLength.mp hKept with hOne | hSum
      · exact .inl hOne
      · exact .inr ⟨hFirst, hSum⟩
  · intro h
    have hKept := hLength.mpr (h.imp_right And.right)
    exact ⟨_, hResult, rfl, hKept, hValue,
      Ff1NumeralMath.addModulo_addModulo hSmall hResult hKept b,
      hNeg.mpr ⟨hKept, h.imp_right And.left⟩⟩

/-- 123 + 10, and 900 more. -/
theorem addModulo_acts_iff_decimal :
    ∃ x y : Ff1Numeral, x.radix.value = 10 ∧ x.digits = [1, 2, 3] ∧
      Ff1NumeralMath.Acts x 10 900 y := by
  let x : Ff1Numeral := ⟨⟨10, by omega⟩, [1, 2, 3], by decide⟩
  have hRadix : x.radix.value ≤ 65536 := Nat.le_of_ble_eq_true rfl
  have hFirst : topDigit 10 3 123 = 1 := rfl
  have hSum : topDigit 10 3 133 = 1 := rfl
  obtain ⟨y, hActs⟩ := (addModulo_acts_iff x hRadix (List.cons_ne_nil _ _) 10 900).2.mpr
    (.inr ⟨hFirst.trans_ne Int.one_ne_zero, hSum.trans_ne Int.one_ne_zero⟩)
  exact ⟨x, y, rfl, rfl, hActs⟩

/-- 99 + 1 is the single digit 0, from which 12 more give 2 where 99 + 13 is 12, and 1 less
gives 9. -/
theorem not_addModulo_acts :
    ∃ x y : Ff1Numeral, x.radix.value = 10 ∧ x.digits = [9, 9] ∧
      Ff1NumeralMath.addModulo x 1 = .ok y ∧ y.digits = [0] ∧
      Ff1NumeralMath.addModulo y 12 ≠ Ff1NumeralMath.addModulo x (1 + 12) ∧
      Ff1NumeralMath.addModulo y (-1) ≠ .ok x ∧
      ¬ ∃ y', Ff1NumeralMath.Acts x 1 12 y' := by
  let x : Ff1Numeral := ⟨⟨10, by omega⟩, [9, 9], by decide⟩
  let y : Ff1Numeral := ⟨⟨10, by omega⟩, [0], by decide⟩
  have hx : x.radix.value < 2 ^ 32 := by decide
  have hy : y.radix.value < 2 ^ 32 := by decide
  have hOne : Ff1NumeralMath.addModulo x 1 = .ok y :=
    (Ff1NumeralMath.addModulo_eq_ok hx).mpr ⟨rfl, by decide⟩
  refine ⟨x, y, rfl, rfl, hOne, rfl, ?_, ?_, ?_⟩
  · intro h
    have hSum := Ff1NumeralMath.addModulo_eq hx (1 + 12)
    have hValue := Ff1NumeralMath.toInteger_addModulo hy (h.trans hSum)
    rw [Ff1NumeralMath.toInteger_addModulo hx hSum] at hValue
    have hDifferent : ((99 : Int) + (1 + 12)) % (10 ^ 2 : Nat) ≠ (0 + 12) % (10 ^ 1 : Nat) := by omega
    exact hDifferent hValue
  · intro h
    have hValue := Ff1NumeralMath.toInteger_addModulo hy h
    have hDifferent : (99 : Int) ≠ (0 + -1) % (10 ^ 1 : Nat) := by omega
    exact hDifferent hValue
  · intro h
    obtain ⟨y', hActs⟩ := h
    obtain rfl := Except.ok.inj (hActs.result.symm.trans hOne)
    cases hActs.length

/-! ## `Ff1RoundValue` -/

namespace Ff1RoundValue

def modulus (radix : FpeRadix) (length : Nat) : Result Int := do
  throwIf (radix.value < 2) (.invalidArgument "FF1 radix must be at least 2")
  let radixValue : Int := toUnsigned radix.value
  return (fun result => result * radixValue)^[length] 1

def reduce (value : Int) (radix : FpeRadix) (length : Nat) : Result Int := do
  let m ← modulus radix length
  throwIf (m = 0) (.logicError "FF1 round modulus cannot be zero")
  let result ← Integer.mod value m
  return if result < 0 then result + m else result

def add (value amount : Int) (radix : FpeRadix) (length : Nat) : Result Int :=
  reduce (value + amount) radix length

def subtract (value amount : Int) (radix : FpeRadix) (length : Nat) : Result Int :=
  reduce (value - amount) radix length

theorem modulus_eq {radix : FpeRadix} (hRadix : radix.value < 2 ^ 32) (length : Nat) :
    modulus radix length = .ok (radix.value ^ length : Nat) := by
  have hTwo := radix.two_le
  rw [modulus, throwIf_of_not (by omega), ok_bind, ← Ff1NumeralMath.radixPower_eq hRadix]
  rfl

theorem reduce_eq {radix : FpeRadix} (hRadix : radix.value < 2 ^ 32) (length : Nat) (x : Int) :
    reduce x radix length = .ok (x % (radix.value ^ length : Nat)) := by
  have hPow : 0 < radix.value ^ length := Nat.pow_pos radix.pos
  rw [reduce, modulus_eq hRadix, ok_bind, throwIf_of_not (by omega), ok_bind,
    Integer.mod_of_pos hPow, ok_bind, Integer.tmod_correct hPow, pure_eq_ok]

theorem subtract_add {radix : FpeRadix} (hRadix : radix.value < 2 ^ 32) (length : Nat) (x y : Int) :
    (add x y radix length >>= fun z => subtract z y radix length) = reduce x radix length := by
  rw [add, reduce_eq hRadix, ok_bind, subtract, reduce_eq hRadix, reduce_eq hRadix,
    Int.emod_sub_emod, add_sub_cancel_right]

end Ff1RoundValue

/-! ## The three steps -/

/-- The half `C` has the value of `step` and the value that `addModulo` gives for the amount. -/
def Moved (x : Ff1Numeral) (amount : Int) (step : Result Int) (C : List Nat) : Prop :=
  ∃ c s, Ff1Numeral.make x.radix C = .ok c ∧ step = .ok c.toInteger ∧
    Ff1NumeralMath.addModulo x amount = .ok s ∧ s.toInteger = c.toInteger

theorem Moved.of_num {x : Ff1Numeral} (hRadix : x.radix.value < 2 ^ 32) {amount : Int}
    {C : List Nat} (hDigits : Digits x.radix.value C)
    (hNum : (num x.radix.value C : Int) =
      (x.toInteger + amount) % (x.radix.value ^ x.digits.length : Nat)) :
    Moved x amount (Ff1RoundValue.reduce (x.toInteger + amount) x.radix x.digits.length) C := by
  have hValue : (⟨x.radix, C, hDigits⟩ : Ff1Numeral).toInteger = num x.radix.value C :=
    Ff1Numeral.toInteger_eq hRadix
  have hSum := Ff1NumeralMath.addModulo_eq hRadix amount
  refine ⟨_, _, Ff1Numeral.make_of_digits hDigits, ?_, hSum, ?_⟩
  · rw [Ff1RoundValue.reduce_eq hRadix, hValue, hNum]
  · rw [Ff1NumeralMath.toInteger_addModulo hRadix hSum, hValue, hNum]

/-- **The three modular steps agree.** On the arguments that a round takes, both directions
return halves with the values that `Ff1RoundValue` and `addModulo` give for the integer Y that
is drawn; and for all integers `subtract` undoes `add`, up to the reduction. -/
theorem round_steps_agree :
    (∀ (evp : Crypto.Evp) (parameters : FpeParameters) (A B : List Nat) (i : Nat),
      IsOk (Ff1Round.encrypt evp parameters A B i) ∨
        IsOk (Ff1Round.decrypt evp parameters A B i) →
      ∃ (x : Ff1Numeral) (Y : Int) (C D : List Nat),
        Ff1Numeral.make parameters.domain.radix A = .ok x ∧
        Ff1Round.computeY evp parameters A.length B i = .ok Y ∧
        Ff1Round.encrypt evp parameters A B i = .ok C ∧
        Moved x Y (Ff1RoundValue.add x.toInteger Y parameters.domain.radix A.length) C ∧
        Ff1Round.decrypt evp parameters A B i = .ok D ∧
        Moved x (-Y) (Ff1RoundValue.subtract x.toInteger Y parameters.domain.radix A.length) D) ∧
    ∀ (radix : FpeRadix) (length : Nat) (x y : Int), radix.value ≤ 65536 →
      (Ff1RoundValue.add x y radix length >>= fun z => Ff1RoundValue.subtract z y radix length) =
        Ff1RoundValue.reduce x radix length := by
  refine ⟨?_, fun radix length x y hRadix =>
    Ff1RoundValue.subtract_add (Nat.lt_of_le_of_lt hRadix (by omega)) length x y⟩
  intro evp parameters A B i h
  obtain ⟨hInputs, y, hY⟩ := h.elim Ff1Round.drawn_of_isOk Ff1Round.drawn_of_isOk
  have hRadix := (h.elim Ff1Round.valid_of_isOk Ff1Round.valid_of_isOk).2
  have hSmall : parameters.domain.radix.value < 2 ^ 32 := by omega
  have hPos := parameters.domain.radix.pos
  obtain ⟨-, -, -, -, -, hDigits, -⟩ := Ff1Round.validateRoundInputs_eq_ok.mp hInputs
  obtain ⟨hEncrypt, hDecrypt⟩ := Ff1Round.directions_eq hRadix hInputs hY
  have hValue : (⟨parameters.domain.radix, A, hDigits⟩ : Ff1Numeral).toInteger =
      num parameters.domain.radix.value A := Ff1Numeral.toInteger_eq hSmall
  refine ⟨_, y, _, _, Ff1Numeral.make_of_digits hDigits, hY, hEncrypt, ?_, hDecrypt, ?_⟩
  · refine Moved.of_num hSmall (digits_addMod hPos A y) ?_
    rw [hValue, num_addMod, Int.natCast_emod, Nat.cast_add]
  · refine Moved.of_num hSmall (digits_subMod hPos A y) ?_
    rw [hValue, num_subMod hPos, sub_eq_add_neg]

/-- A round of the interoperability test, and two numbers of radix ten. -/
theorem round_steps_agree_decimal :
    (∃ (x : Ff1Numeral) (Y : Int) (C : List Nat), x.digits = [0, 1, 2, 3, 4] ∧
      Ff1Round.encrypt (Crypto.Evp.ofFunction Crypto.aes) decimalParameters [0, 1, 2, 3, 4]
        [5, 6, 7, 8, 9] 0 = .ok C ∧
      Moved x Y (Ff1RoundValue.add x.toInteger Y decimalParameters.domain.radix 5) C) ∧
    (Ff1RoundValue.add 100 200 decimalParameters.domain.radix 3 >>= fun z =>
        Ff1RoundValue.subtract z 200 decimalParameters.domain.radix 3) =
      Ff1RoundValue.reduce 100 decimalParameters.domain.radix 3 := by
  have hEncrypt := Ff1Round.encrypt_eq (Crypto.AesBlock.computes_ofFunction Crypto.aes)
    decimalParameters_keySize decimalDomain_radix_le decimal_accepts
  obtain ⟨x, Y, C, -, hMake, -, hRound, hMoved, -⟩ := round_steps_agree.1 _ _ _ _ _ (.inl ⟨_, hEncrypt⟩)
  rw [Ff1Numeral.make_of_digits decimal_accepts.digits] at hMake
  cases hMake
  exact ⟨⟨_, Y, C, rfl, hRound, hMoved⟩, round_steps_agree.2 _ 3 100 200 decimalDomain_radix_le⟩

end IndicCrypt.Fpe
