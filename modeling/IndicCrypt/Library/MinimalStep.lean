import IndicCrypt.Library.Positional

/-!
# Modular steps on minimal numerals

`shiftMod` moves a digit string by an integer, modulo the number of strings of its length, and
writes the result without leading zeros. The result is as long as the string unless the digit
of the moved integer at the first place (`topDigit`) is zero (`length_shiftMod`). As long as
the length is kept, steps add up (`shiftMod_shiftMod`); the step back restores the string
exactly when neither step drops a zero (`shiftMod_neg`).
-/

namespace Positional

variable {β m : Nat} {X : List Nat}

/-! ## The first digit of an integer -/

/-- The digit of weight `β ^ (m - 1)` of an integer, the first of its `m` low digits. -/
def topDigit (β m : Nat) (z : Int) : Int := z / (β ^ (m - 1) : Nat) % β

theorem emod_pow (hm : 0 < m) (z : Int) :
    z % (β ^ m : Nat) = topDigit β m z * (β ^ (m - 1) : Nat) + z % (β ^ (m - 1) : Nat) := by
  obtain ⟨k, rfl⟩ : ∃ k, m = k + 1 := ⟨m - 1, by omega⟩
  have hDiv : z / ((β ^ k : Nat) * β : Int) = z / (β ^ k : Nat) / β :=
    (Int.ediv_ediv_of_nonneg (by omega)).symm
  rw [Nat.add_sub_cancel, topDigit, Nat.add_sub_cancel, pow_succ, Nat.cast_mul, Int.emod_def, hDiv,
    Int.emod_def (z / _), Int.emod_def z]
  ring

theorem topDigit_ne_zero (hβ : 0 < β) (hm : 0 < m) (z : Int) :
    topDigit β m z ≠ 0 ↔ ((β ^ (m - 1) : Nat) : Int) ≤ z % (β ^ m : Nat) := by
  have hPow : (0 : Int) < (β ^ (m - 1) : Nat) := by exact_mod_cast Nat.pow_pos hβ
  have hRest := Int.emod_lt_of_pos z hPow
  have hRestNonneg := Int.emod_nonneg z hPow.ne'
  have hNonneg : 0 ≤ topDigit β m z := Int.emod_nonneg _ (by omega)
  rw [emod_pow hm]
  constructor
  · intro h
    have hOne : 1 * ((β ^ (m - 1) : Nat) : Int) ≤ topDigit β m z * (β ^ (m - 1) : Nat) :=
      Int.mul_le_mul_of_nonneg_right (by omega) (by omega)
    omega
  · intro h hZero
    rw [hZero] at h
    omega

theorem length_minimal_emod (hβ : 1 < β) (hm : 0 < m) (z : Int) :
    (minimal β (z % (β ^ m : Nat)).toNat).length = m ↔ m = 1 ∨ topDigit β m z ≠ 0 := by
  have hPow : (0 : Int) < (β ^ m : Nat) := by exact_mod_cast Nat.pow_pos (by omega)
  have hNonneg := Int.emod_nonneg z hPow.ne'
  have hLt := Int.emod_lt_of_pos z hPow
  have hLe := length_minimal_le hβ hm (x := (z % (β ^ m : Nat)).toNat) (by omega)
  have hLow := lt_length_minimal hβ (m := m - 1) (x := (z % (β ^ m : Nat)).toNat)
  rw [topDigit_ne_zero (by omega) hm]
  omega

/-! ## Steps -/

/-- The string moved by an integer, in minimal digits. -/
def shiftMod (β : Nat) (X : List Nat) (z : Int) : List Nat :=
  minimal β (((num β X : Int) + z) % (β ^ X.length : Nat)).toNat

theorem digits_shiftMod (hβ : 1 < β) (X : List Nat) (z : Int) : Digits β (shiftMod β X z) :=
  digits_minimal hβ _

theorem num_shiftMod (hβ : 0 < β) (X : List Nat) (z : Int) :
    (num β (shiftMod β X z) : Int) = ((num β X : Int) + z) % (β ^ X.length : Nat) := by
  have hPos : (0 : Int) < (β ^ X.length : Nat) := by exact_mod_cast Nat.pow_pos hβ
  rw [shiftMod, num_minimal, Int.toNat_of_nonneg (Int.emod_nonneg _ hPos.ne')]

theorem length_shiftMod_le (hβ : 1 < β) (hX : X ≠ []) (z : Int) :
    (shiftMod β X z).length ≤ X.length := by
  have hPos : (0 : Int) < (β ^ X.length : Nat) := by exact_mod_cast Nat.pow_pos (by omega)
  have hLt := Int.emod_lt_of_pos ((num β X : Int) + z) hPos
  exact length_minimal_le hβ (List.length_pos_iff.mpr hX) (by omega)

theorem length_shiftMod (hβ : 1 < β) (hX : X ≠ []) (z : Int) :
    (shiftMod β X z).length = X.length ↔
      X.length = 1 ∨ topDigit β X.length ((num β X : Int) + z) ≠ 0 :=
  length_minimal_emod hβ (List.length_pos_iff.mpr hX) _

/-- Steps add up as long as the length is kept. -/
theorem shiftMod_shiftMod (hβ : 0 < β) {y : Int} (h : (shiftMod β X y).length = X.length) (z : Int) :
    shiftMod β (shiftMod β X y) z = shiftMod β X (y + z) := by
  rw [shiftMod, h, num_shiftMod hβ, Int.emod_add_emod, Int.add_assoc, ← shiftMod]

theorem shiftMod_zero (hβ : 1 < β) (h : Digits β X) : shiftMod β X 0 = strip X := by
  rw [shiftMod, add_zero, ← Int.natCast_emod, Int.toNat_natCast, Nat.mod_eq_of_lt (num_lt h),
    minimal_num hβ h]

theorem strip_eq_self (hβ : 1 < β) (h : Digits β X) (hX : X ≠ []) :
    strip X = X ↔ X.length = 1 ∨ topDigit β X.length (num β X) ≠ 0 := by
  have hLength := length_shiftMod hβ hX 0
  rw [add_zero, shiftMod_zero hβ h] at hLength
  rw [← hLength]
  constructor
  · intro hEq
    rw [hEq]
  · intro hEq
    have hStrip : strip X = minimal β (num β X) := (minimal_num hβ h).symm
    have hDigits : Digits β (strip X) := by
      rw [hStrip]
      exact digits_minimal hβ _
    have hNum : num β (strip X) = num β X := by rw [hStrip, num_minimal]
    exact num_inj (by omega) hDigits h hEq hNum

/-- The step back restores the string exactly when neither of the two steps drops a zero. -/
theorem shiftMod_neg (hβ : 1 < β) (h : Digits β X) (hX : X ≠ []) (z : Int) :
    shiftMod β (shiftMod β X z) (-z) = X ↔
      (shiftMod β X z).length = X.length ∧ strip X = X := by
  by_cases hLength : (shiftMod β X z).length = X.length
  · rw [shiftMod_shiftMod (by omega) hLength, add_neg_cancel, shiftMod_zero hβ h]
    exact (and_iff_right hLength).symm
  · have hShort := length_shiftMod_le hβ hX z
    have hNe : shiftMod β X z ≠ [] := by
      apply List.length_pos_iff.mp
      exact (lt_length_minimal hβ).mpr (.inl rfl)
    have hShorter := length_shiftMod_le hβ hNe (-z)
    constructor
    · intro hEq
      rw [hEq] at hShorter
      omega
    · rintro ⟨hKept, -⟩
      exact absurd hKept hLength

end Positional
