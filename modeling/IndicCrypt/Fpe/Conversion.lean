import IndicCrypt.Fpe.Numeral

/-!
# Conversions of numerals

Between digits, integers and bytes. `encode` and `fromBytes` are inverse to each other for
every width (`bytes_inverse`). `fromInteger` and `toInteger` are inverse to each other for the
radices below `2 ^ 32` and for no other ones (`fromInteger_inverse_iff`): the radix of a numeral
is a `std::size_t`, but both compute in the base `static_cast<unsigned int>(radix)`. A larger
radix whose low half is 0 or 1 gives no digits at all, and one with a larger low half gives
digits of another base, which `toInteger` then reads in that base too.
-/

namespace IndicCrypt.Fpe

open Positional Run

/-! ## Integers and bytes -/

theorem Ff1NumeralEncoding.encode_inverse {x : Ff1Numeral} (hRadix : x.radix.value < 2 ^ 32)
    {k : Nat} (hk : 1 ≤ k) (hShift : k * 8 < 2 ^ 64) :
    (IsOk (encode x k) ↔ x.toInteger < 256 ^ k) ∧
      ∀ s, encode x k = .ok s → s.length = k ∧ Ff1YNumber.fromBytes s = x.toInteger := by
  have hValue := Ff1Numeral.toInteger_eq hRadix
  have hCast : x.toInteger < 256 ^ k ↔ num x.radix.value x.digits < 256 ^ k := by
    rw [hValue]
    exact_mod_cast Iff.rfl
  by_cases hFits : num x.radix.value x.digits < 256 ^ k
  · have hEncode := encode_of_lt hValue hk hShift hFits
    refine ⟨iff_of_true ⟨_, hEncode⟩ (hCast.mpr hFits), ?_⟩
    intro s hs
    obtain rfl := Except.ok.inj (hEncode.symm.trans hs)
    refine ⟨length_bytes _ _, ?_⟩
    rw [Ff1YNumber.fromBytes_eq, byteNum_bytes, Nat.mod_eq_of_lt hFits, hValue]
  · have hEncode := encode_of_ge hValue hk hShift (Nat.le_of_not_lt hFits)
    rw [hEncode]
    exact ⟨iff_of_false (not_isOk_error _) (fun h => hFits (hCast.mp h)), nofun⟩

theorem Ff1NumeralEncoding.encode_fromBytes {radix : FpeRadix} (hRadix : radix.value < 2 ^ 32)
    {s : Bytes} (hk : 1 ≤ s.length) (hShift : s.length * 8 < 2 ^ 64) :
    (Ff1Numeral.fromInteger radix (Ff1YNumber.fromBytes s) >>= fun x => encode x s.length) =
      .ok s := by
  have hValue : (⟨radix, minimal radix.value (byteNum s), digits_minimal radix.two_le _⟩ :
      Ff1Numeral).toInteger = byteNum s := by
    rw [Ff1Numeral.toInteger_eq hRadix, num_minimal]
  rw [Ff1YNumber.fromBytes_eq, Ff1Numeral.fromInteger_natCast hRadix, ok_bind,
    encode_of_lt hValue hk hShift (byteNum_lt s), bytes_byteNum]

/-- **Encoder and decoder of bytes.** A numeral is encoded in `k` bytes exactly when its value
is below `256 ^ k`, and the bytes have its value; every string of `k` bytes is the encoding of
the number it denotes, through the digits of any radix. -/
theorem bytes_inverse (radix : FpeRadix) (hRadix : radix.value ≤ 65536) (k : Nat) (hk : 1 ≤ k)
    (hSize : 8 * k < 2 ^ 64) :
    (∀ x : Ff1Numeral, x.radix = radix →
      (IsOk (Ff1NumeralEncoding.encode x k) ↔ x.toInteger < 256 ^ k) ∧
      ∀ s, Ff1NumeralEncoding.encode x k = .ok s →
        s.length = k ∧ Ff1YNumber.fromBytes s = x.toInteger) ∧
    ∀ s : Bytes, s.length = k →
      (do
        let x ← Ff1Numeral.fromInteger radix (Ff1YNumber.fromBytes s)
        Ff1NumeralEncoding.encode x k) = .ok s := by
  have hSmall : radix.value < 2 ^ 32 := by omega
  have hShift : k * 8 < 2 ^ 64 := by omega
  refine ⟨fun x hx => ?_, fun s hs => ?_⟩
  · subst hx
    exact Ff1NumeralEncoding.encode_inverse hSmall hk hShift
  · subst hs
    exact Ff1NumeralEncoding.encode_fromBytes hSmall hk hShift

/-- The number 258 fits three bytes, and the bytes 0, 1, 2 are read and written back. -/
theorem bytes_inverse_decimal :
    IsOk (Ff1NumeralEncoding.encode ⟨⟨10, by omega⟩, [2, 5, 8], by decide⟩ 3) ∧
    (do
      let x ← Ff1Numeral.fromInteger ⟨10, by omega⟩ (Ff1YNumber.fromBytes [0, 1, 2])
      Ff1NumeralEncoding.encode x 3) = .ok [0, 1, 2] := by
  have hRadix : (⟨10, by omega⟩ : FpeRadix).value ≤ 65536 := Nat.le_of_ble_eq_true rfl
  obtain ⟨hEncode, hDecode⟩ := bytes_inverse ⟨10, by omega⟩ hRadix 3 (by omega) (by omega)
  exact ⟨(hEncode ⟨⟨10, by omega⟩, [2, 5, 8], by decide⟩ rfl).1.mpr (by decide),
    hDecode [0, 1, 2] rfl⟩

/-! ## Integers and digits -/

namespace Ff1Numeral

/-- `fromInteger` returns a numeral of `v` without leading zeros. -/
def Represents (radix : FpeRadix) (v : Int) : Prop :=
  ∃ x, fromInteger radix v = .ok x ∧ x.radix = radix ∧ Digits radix.value x.digits ∧
    (v = 0 → x.digits = [0]) ∧ (v ≠ 0 → ∃ d X, x.digits = d :: X ∧ d ≠ 0) ∧ x.toInteger = v

/-- The integer of a numeral gives its digits back, without the leading zeros. -/
def RoundTrips (x : Ff1Numeral) : Prop :=
  ∃ y, fromInteger x.radix x.toInteger = .ok y ∧ y.radix = x.radix ∧ y.digits = strip x.digits

variable {radix : FpeRadix}

theorem represents_zero (radix : FpeRadix) : Represents radix 0 := by
  refine ⟨_, fromInteger_zero radix, rfl, digits_cons.mpr ⟨radix.pos, digits_nil⟩, fun _ => rfl,
    fun h => absurd rfl h, ?_⟩
  rw [toInteger_eq_num, num_cons, zero_mul, num_nil]
  rfl

theorem represents_of_base (hBase : 1 < toUnsigned radix.value) (v : Nat) : Represents radix v := by
  refine ⟨_, fromInteger_of_base hBase v, rfl, digits_minimal_toUnsigned hBase v, ?_, ?_, ?_⟩
  · intro hZero
    exact if_pos (Int.ofNat_eq_zero.mp hZero)
  · intro hNonzero
    exact exists_minimal_eq_cons _ (Int.natCast_ne_zero.mp hNonzero)
  · rw [toInteger_eq_num, num_minimal]

theorem represents_iff {v : Int} (hv : 0 ≤ v) :
    Represents radix v ↔ v = 0 ∨ 2 ≤ toUnsigned radix.value := by
  constructor
  · intro h
    obtain ⟨x, hx, -⟩ := h
    by_contra hNot
    obtain ⟨hNonzero, hBase⟩ := not_or.mp hNot
    rw [fromInteger_of_base_le_one (by omega) (by omega)] at hx
    cases hx
  · intro h
    cases h with
    | inl hZero => exact hZero ▸ represents_zero radix
    | inr hBase =>
      obtain ⟨n, rfl⟩ := Int.eq_ofNat_of_zero_le hv
      exact represents_of_base hBase n

/-- The digits of a numeral are digits of the base that the narrowing leaves. -/
def ReadsDigits (x : Ff1Numeral) : Prop :=
  ∀ d ∈ x.digits, d = 0 ∨ 2 ≤ toUnsigned x.radix.value ∧ d < toUnsigned x.radix.value

theorem roundTrips_of_base {x : Ff1Numeral} (hBase : 1 < toUnsigned x.radix.value) :
    RoundTrips x ↔ ReadsDigits x := by
  have hResult := fromInteger_of_base hBase (num (toUnsigned x.radix.value) x.digits)
  rw [← toInteger_eq_num] at hResult
  constructor
  · intro h
    obtain ⟨y, hy, -, hDigits⟩ := h
    obtain rfl := Except.ok.inj (hResult.symm.trans hy)
    intro d hd
    refine (eq_zero_or_mem_strip hd).imp_right fun hStrip => ⟨hBase, ?_⟩
    rw [← hDigits] at hStrip
    exact digits_minimal hBase _ d hStrip
  · intro h
    have hDigits : Digits (toUnsigned x.radix.value) x.digits := by
      intro d hd
      cases h d hd with
      | inl hZero => omega
      | inr hDigit => exact hDigit.2
    exact ⟨_, hResult, rfl, minimal_num hBase hDigits⟩

theorem roundTrips_of_base_le_one {x : Ff1Numeral} (hBase : toUnsigned x.radix.value ≤ 1) :
    RoundTrips x ↔ ReadsDigits x := by
  have hZero := fromInteger_zero x.radix
  constructor
  · intro h
    obtain ⟨y, hy, -, hDigits⟩ := h
    have hNum : x.toInteger = 0 := by
      by_contra hNonzero
      have hNonneg : 0 ≤ x.toInteger := by
        rw [toInteger_eq_num]
        omega
      rw [fromInteger_of_base_le_one hBase (by omega)] at hy
      cases hy
    rw [hNum] at hy
    obtain rfl := Except.ok.inj (hZero.symm.trans hy)
    intro d hd
    refine .inl ((eq_zero_or_mem_strip hd).elim id fun hStrip => ?_)
    rw [← hDigits] at hStrip
    exact List.mem_singleton.mp hStrip
  · intro h
    have hZeros : ∀ d ∈ x.digits, d = 0 := fun d hd => (h d hd).elim id fun hDigit => by omega
    have hNum : x.toInteger = 0 := by
      rw [toInteger_eq_num, List.eq_replicate_of_mem hZeros, num_replicate_zero]
      rfl
    unfold RoundTrips
    rw [hNum, strip_of_zeros hZeros]
    exact ⟨_, hZero, rfl, rfl⟩

theorem roundTrips_iff (x : Ff1Numeral) : RoundTrips x ↔ ReadsDigits x := by
  by_cases hBase : 1 < toUnsigned x.radix.value
  · exact roundTrips_of_base hBase
  · exact roundTrips_of_base_le_one (Nat.le_of_not_lt hBase)

theorem represents_of_lt (hSmall : radix.value < 2 ^ 32) {v : Int} (hv : 0 ≤ v) :
    Represents radix v := by
  have hBase : toUnsigned radix.value = radix.value := Nat.mod_eq_of_lt hSmall
  refine (represents_iff hv).mpr (.inr ?_)
  rw [hBase]
  exact radix.two_le

theorem roundTrips_of_lt {x : Ff1Numeral} (hSmall : x.radix.value < 2 ^ 32) : RoundTrips x := by
  have hBase : toUnsigned x.radix.value = x.radix.value := Nat.mod_eq_of_lt hSmall
  refine (roundTrips_iff x).mpr fun d hd => ?_
  rw [hBase]
  exact .inr ⟨x.radix.two_le, x.valid d hd⟩

/-- A larger radix does not represent one, or it loses the digit that is its low half. -/
theorem lt_of_inverse (hOne : Represents radix 1)
    (hDigits : ∀ x : Ff1Numeral, x.radix = radix → RoundTrips x) : radix.value < 2 ^ 32 := by
  by_contra hLarge
  have hLess : radix.value % 2 ^ 32 < radix.value := by omega
  have hDigit : Digits radix.value [radix.value % 2 ^ 32] := digits_cons.mpr ⟨hLess, digits_nil⟩
  have hBase : (1 : Int) = 0 ∨ 2 ≤ radix.value % 2 ^ 32 := (represents_iff Int.one_nonneg).mp hOne
  have hReads : radix.value % 2 ^ 32 = 0 ∨ 2 ≤ radix.value % 2 ^ 32 ∧
      radix.value % 2 ^ 32 < radix.value % 2 ^ 32 :=
    (roundTrips_iff _).mp (hDigits ⟨radix, _, hDigit⟩ rfl) _ List.mem_cons_self
  omega

end Ff1Numeral

/-- **When integers and digits are inverse.** An integer is represented exactly when it is zero
or the low 32 bits of the radix are at least two, digits come back exactly when each is zero or
a digit of that base, and everything holds for a radix exactly when it is below `2 ^ 32`. -/
theorem fromInteger_inverse_iff (radix : FpeRadix) :
    (∀ v : Int, 0 ≤ v →
      (Ff1Numeral.Represents radix v ↔ v = 0 ∨ 2 ≤ radix.value % 2 ^ 32)) ∧
    (∀ x : Ff1Numeral, x.radix = radix →
      (Ff1Numeral.RoundTrips x ↔
        ∀ d ∈ x.digits, d = 0 ∨ 2 ≤ radix.value % 2 ^ 32 ∧ d < radix.value % 2 ^ 32)) ∧
    ((∀ v : Int, 0 ≤ v → Ff1Numeral.Represents radix v) ∧
        (∀ x : Ff1Numeral, x.radix = radix → Ff1Numeral.RoundTrips x) ↔
      radix.value < 2 ^ 32) := by
  refine ⟨fun v hv => Ff1Numeral.represents_iff hv, ?_, fun h => ?_, fun hSmall => ?_⟩
  · intro x hx
    subst hx
    exact Ff1Numeral.roundTrips_iff x
  · exact Ff1Numeral.lt_of_inverse (h.1 1 Int.one_nonneg) h.2
  · refine ⟨fun v hv => Ff1Numeral.represents_of_lt hSmall hv, ?_⟩
    intro x hx
    subst hx
    exact Ff1Numeral.roundTrips_of_lt hSmall

/-- Radix ten. -/
theorem fromInteger_inverse_iff_decimal :
    Ff1Numeral.Represents ⟨10, by omega⟩ 12345 ∧
      Ff1Numeral.RoundTrips ⟨⟨10, by omega⟩, [0, 0, 7], by decide⟩ := by
  obtain ⟨hIntegers, hDigits, -⟩ := fromInteger_inverse_iff ⟨10, by omega⟩
  exact ⟨(hIntegers 12345 (by omega)).mpr (.inr (by decide)), (hDigits _ rfl).mpr (by decide)⟩

/-- The radix `2 ^ 32` divides by zero, the radix `2 ^ 32 + 1` loops for ever, and the radix
`2 ^ 32 + 10` turns the digit 10 into the digits 1, 0. -/
theorem not_fromInteger_inverse :
    ∃ r s t : FpeRadix, FpeRadix.make 4294967296 = .ok r ∧ FpeRadix.make 4294967297 = .ok s ∧
      FpeRadix.make 4294967306 = .ok t ∧
      Ff1Numeral.fromInteger r 1 = .error (.overflowError "Integer Division by zero.") ∧
      ¬ Ff1Numeral.Represents r 1 ∧
      Ff1Numeral.fromInteger s 1 = .error .nontermination ∧
      ¬ Ff1Numeral.Represents s 1 ∧
      ∃ x, Ff1Numeral.make t [10] = .ok x ∧ ¬ Ff1Numeral.RoundTrips x := by
  have hDigits : Digits 4294967306 [10] := by decide
  refine ⟨⟨4294967296, by omega⟩, ⟨4294967297, by omega⟩, ⟨4294967306, by omega⟩, rfl, rfl, rfl,
    ?_, ?_, ?_, ?_, ⟨_, Ff1Numeral.make_of_digits hDigits, ?_⟩⟩
  · exact Ff1Numeral.fromInteger_of_base_le_one (by decide) Int.one_pos
  · rw [Ff1Numeral.represents_iff Int.one_nonneg]
    decide
  · exact Ff1Numeral.fromInteger_of_base_le_one (by decide) Int.one_pos
  · rw [Ff1Numeral.represents_iff Int.one_nonneg]
    decide
  · rw [Ff1Numeral.roundTrips_iff]
    intro h
    have hDigit : ¬ (10 = 0 ∨ 2 ≤ toUnsigned 4294967306 ∧ 10 < toUnsigned 4294967306) := by decide
    exact hDigit (h 10 List.mem_cons_self)

end IndicCrypt.Fpe
