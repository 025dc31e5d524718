import Mathlib.Algebra.Order.Floor.Div
import Mathlib.Data.Int.CardIntervalMod
import Mathlib.Data.Set.Card
import IndicCrypt.Fpe.Round

/-!
# The distribution of the mask

A round reduces Y, the number of a byte string of `calculateYLength radix m` bytes, modulo
`radix ^ m`. Over all byte strings of that length the reduction hits every residue, and any
two residues equally often up to one (`mask_near_uniform`): the byte strings are the numbers
below a power of 256 that is at least `2 ^ 32` times the modulus.
-/

namespace IndicCrypt.Fpe

open Positional Run

/-! ## Byte strings by residue -/

/-- As many byte strings as numbers: `byteNum` is a bijection below `256 ^ d`. -/
theorem ncard_byteNum_modEq (d M c : Nat) :
    {s : Bytes | s.length = d ∧ byteNum s ≡ c [MOD M]}.ncard =
      (256 ^ d).count (· ≡ c [MOD M]) := by
  have hInjective : Set.InjOn byteNum {s : Bytes | s.length = d ∧ byteNum s ≡ c [MOD M]} := by
    rintro s ⟨hs, -⟩ t ⟨ht, -⟩ hEq
    exact byteNum_inj (hs.trans ht.symm) hEq
  have hImage : byteNum '' {s : Bytes | s.length = d ∧ byteNum s ≡ c [MOD M]} =
      ((Finset.range (256 ^ d)).filter (· ≡ c [MOD M]) : Finset Nat) := by
    ext x
    simp only [Set.mem_image, Set.mem_ofPred_eq, Finset.coe_filter, Finset.mem_range]
    constructor
    · rintro ⟨s, ⟨rfl, hMod⟩, rfl⟩
      exact ⟨byteNum_lt s, hMod⟩
    · rintro ⟨hLt, hMod⟩
      have hNum : byteNum (bytes d x) = x := by rw [byteNum_bytes, Nat.mod_eq_of_lt hLt]
      refine ⟨bytes d x, ⟨length_bytes d x, ?_⟩, hNum⟩
      rwa [hNum]
  rw [← hInjective.ncard_image, hImage, Set.ncard_coe_finset,
    Nat.count_eq_card_filter_range]

/-- A residue is hit by the quotient of the two sizes, or by one string more. -/
theorem ncard_byteNum_bounds {M : Nat} (hM : 0 < M) (d c : Nat) :
    256 ^ d / M ≤ {s : Bytes | s.length = d ∧ byteNum s ≡ c [MOD M]}.ncard ∧
      {s : Bytes | s.length = d ∧ byteNum s ≡ c [MOD M]}.ncard ≤ 256 ^ d / M + 1 := by
  rw [ncard_byteNum_modEq, Nat.count_modEq_card _ hM]
  split <;> omega

/-! ## The mask of a round -/

/-- The byte strings for which a round moves its left half of `m` digits by `c`. -/
def maskStrings (radix : FpeRadix) (m : Nat) (c : Nat) : Set Bytes :=
  {s | s.length = Ff1Round.calculateYLength radix m ∧
    Integer.mod (Ff1YNumber.fromBytes s) (Ff1NumeralMath.radixPower radix m) = .ok (c : Int)}

theorem maskStrings_eq {radix : FpeRadix} (hRadix : radix.value ≤ 65536) {m c : Nat}
    (hc : c < radix.value ^ m) :
    maskStrings radix m c = {s | s.length = Ff1Round.calculateYLength radix m ∧
      byteNum s ≡ c [MOD radix.value ^ m]} := by
  have hModulus : radix.value ^ m ≠ 0 := by omega
  ext s
  unfold maskStrings
  rw [Set.mem_ofPred_eq, Set.mem_ofPred_eq, Ff1YNumber.fromBytes_eq,
    Ff1NumeralMath.radixPower_eq (by omega), Integer.mod_natCast hModulus]
  refine and_congr_right fun _ => ?_
  rw [Except.ok.injEq, Nat.cast_inj, Nat.ModEq, Nat.mod_eq_of_lt hc]

/-- Four bytes more than the numeral needs. -/
theorem pow_mul_le_maskWidth (radix m : Nat) :
    2 ^ 32 * radix ^ m ≤ 256 ^ Ff1Round.maskWidth (byteWidth radix m) :=
  calc 2 ^ 32 * radix ^ m
      ≤ 2 ^ 32 * 256 ^ byteWidth radix m := Nat.mul_le_mul_left _ (pow_le_byteWidth radix m)
    _ = 256 ^ (4 + byteWidth radix m) := by rw [pow_add, show 256 ^ 4 = 2 ^ 32 from rfl]
    _ ≤ 256 ^ Ff1Round.maskWidth (byteWidth radix m) := by
        apply Nat.pow_le_pow_right (by omega)
        unfold Ff1Round.maskWidth
        omega

/-- **Near-uniform masks.** Every residue is hit at least `2 ^ 32` times, and two residues
differ by one string at most. The width `b` of the numeral is the least number of bytes for
`radix ^ m`, and the length of the strings is `4 * ⌈b / 4⌉ + 4`. -/
theorem mask_near_uniform {radix : FpeRadix} (hRadix : radix.value ≤ 65536) (m : Nat) :
    (∀ c < radix.value ^ m, (maskStrings radix m c).Nonempty ∧
      2 ^ 32 ≤ (maskStrings radix m c).ncard) ∧
    (∀ c < radix.value ^ m, ∀ c' < radix.value ^ m,
      (maskStrings radix m c).ncard ≤ (maskStrings radix m c').ncard + 1) ∧
    Ff1Round.calculateYLength radix m = 4 * (Ff1Round.requiredByteLength radix m ⌈/⌉ 4) + 4 ∧
    IsLeast {k | radix.value ^ m ≤ 256 ^ k} (Ff1Round.requiredByteLength radix m) := by
  have hSmall : radix.value < 2 ^ 32 := by omega
  have hPos : 0 < radix.value ^ m := Nat.pow_pos radix.pos
  have hWidth : Ff1Round.requiredByteLength radix m = byteWidth radix.value m :=
    Ff1QBlock.requiredByteLength_eq hSmall m
  have hLength := Ff1Round.calculateYLength_eq hSmall m
  have hLarge : 2 ^ 32 ≤ 256 ^ Ff1Round.calculateYLength radix m / radix.value ^ m := by
    rw [Nat.le_div_iff_mul_le hPos, hLength]
    exact pow_mul_le_maskWidth radix.value m
  have hCount : ∀ c < radix.value ^ m,
      256 ^ Ff1Round.calculateYLength radix m / radix.value ^ m ≤ (maskStrings radix m c).ncard ∧
      (maskStrings radix m c).ncard ≤
        256 ^ Ff1Round.calculateYLength radix m / radix.value ^ m + 1 := by
    intro c hc
    rw [maskStrings_eq hRadix hc]
    exact ncard_byteNum_bounds hPos _ _
  refine ⟨?_, ?_, ?_, ?_⟩
  · intro c hc
    have hMany := hLarge.trans (hCount c hc).1
    exact ⟨Set.nonempty_of_ncard_ne_zero (by omega), hMany⟩
  · intro c hc c' hc'
    exact (hCount c hc).2.trans (Nat.add_le_add_right (hCount c' hc').1 1)
  · rw [Nat.ceilDiv_eq_add_pred_div]
    rfl
  · rw [hWidth]
    exact ⟨pow_le_byteWidth _ _, fun k hk => byteWidth_le_iff.mpr hk⟩

/-- Halves of five decimal digits are moved by the largest amount, too. -/
theorem mask_near_uniform_decimal :
    2 ^ 32 ≤ (maskStrings decimalDomain.radix 5 99999).ncard := by
  have hResidue : 99999 < decimalDomain.radix.value ^ 5 := by decide
  exact ((mask_near_uniform decimalDomain_radix_le 5).1 99999 hResidue).2

end IndicCrypt.Fpe
