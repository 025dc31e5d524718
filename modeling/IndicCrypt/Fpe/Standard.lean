import Mathlib.Algebra.Order.Floor.Div
import Mathlib.Analysis.SpecialFunctions.Log.Base
import IndicCrypt.Fpe.Round

/-!
# The FF1 of the standard

FF1.Encrypt of NIST SP 800-38G, as the standard words it: the byte length `b` of every
numeral and the length `d` of every Y are computed once, from the longer half of the
message. Nothing in this file is translated from the source.

`numeralBytes_eq` and `drawnNumber_eq` bring the standard into the terms of the rounds: `b`
is the byte width of the longer half, and the number of a round is `Ff1Round.drawMask`.
-/

namespace IndicCrypt.Fpe.Standard

open Positional Crypto

/-! ## The algorithm -/

/-- `b = ⌈⌈v * log₂ radix⌉ / 8⌉`. -/
noncomputable def numeralBytes (radix v : Nat) : Nat := ⌈(v : ℝ) * Real.logb 2 radix⌉₊ ⌈/⌉ 8

/-- `d = 4 * ⌈b / 4⌉ + 4`. -/
def numberBytes (b : Nat) : Nat := 4 * (b ⌈/⌉ 4) + 4

/-- `P = [1] ‖ [2] ‖ [1] ‖ [radix]³ ‖ [10] ‖ [u mod 256] ‖ [n]⁴ ‖ [t]⁴`. -/
def blockP (radix n t : Nat) : Bytes :=
  bytes 1 1 ++ bytes 1 2 ++ bytes 1 1 ++ bytes 3 radix ++ bytes 1 10 ++ bytes 1 (n / 2 % 256) ++
    bytes 4 n ++ bytes 4 t

/-- `Q = T ‖ [0]^((-t-b-1) mod 16) ‖ [i] ‖ [x]^b`. -/
def blockQ (tweak : Bytes) (b i x : Nat) : Bytes :=
  tweak ++ bytes ((-(tweak.length : Int) - b - 1) % 16).toNat 0 ++ bytes 1 i ++ bytes b x

/-- `y = NUM(S)`: S is the first `d` bytes of `R ‖ E(R ⊕ [1]¹⁶) ‖ E(R ⊕ [2]¹⁶) …`, and R the
CBC-MAC of `P ‖ Q`. -/
def drawnNumber (E : BlockFunction) (key tweak : Bytes) (radix n b d i x : Nat) : Nat :=
  let R := BlockMode.cbcMac (E.apply key) (bytes 16 0)
    (BlockMode.blocks 16 (blockP radix n tweak.length ++ blockQ tweak b i x))
  byteNum (BlockMode.stream (E.apply key) (bytes 16) R 16 d)

/-- Round `i` on the halves `(A, B)`. -/
def round (E : BlockFunction) (key tweak : Bytes) (radix n b d : Nat)
    (halves : List Nat × List Nat) (i : Nat) : List Nat × List Nat :=
  let (A, B) := halves
  let u := n / 2
  let v := n - u
  let y := drawnNumber E key tweak radix n b d i (num radix B)
  let m := if i % 2 = 0 then u else v
  let C := str radix m ((num radix A + y) % radix ^ m)
  (B, C)

/-- The ten rounds, with given byte lengths. -/
def encryptWith (E : BlockFunction) (key tweak : Bytes) (radix b d : Nat) (X : List Nat) :
    List Nat :=
  let n := X.length
  let u := n / 2
  let (A, B) := (List.range 10).foldl (round E key tweak radix n b d) (X.take u, X.drop u)
  A ++ B

/-- FF1.Encrypt. -/
noncomputable def encrypt (E : BlockFunction) (key tweak : Bytes) (radix : Nat) (X : List Nat) :
    List Nat :=
  let b := numeralBytes radix (X.length - X.length / 2)
  encryptWith E key tweak radix b (numberBytes b) X

/-! ## The byte lengths -/

/-- The standard's `b` is the least number of bytes for the numerals of `v` digits. -/
theorem numeralBytes_eq (radix v : Nat) : numeralBytes radix v = byteWidth radix v := by
  have hBits : ⌈(v : ℝ) * Real.logb 2 radix⌉₊ = Nat.clog 2 (radix ^ v) := by
    have hCast : (v : ℝ) * Real.logb 2 radix = Real.logb (2 : Nat) ((radix ^ v : Nat) : ℝ) := by
      push_cast
      rw [Real.logb_pow]
    rw [hCast, Real.natCeil_logb_natCast]
  rw [numeralBytes, hBits, Nat.ceilDiv_eq_add_pred_div]
  apply eq_of_forall_ge_iff
  intro k
  have hPow : (256 : Nat) ^ k = 2 ^ (8 * k) := by
    rw [pow_mul]
    norm_num
  rw [byteWidth_le_iff, hPow, ← Nat.clog_le_iff_le_pow (by omega)]
  omega

theorem numberBytes_eq (b : Nat) : numberBytes b = Ff1Round.maskWidth b := by
  rw [numberBytes, Nat.ceilDiv_eq_add_pred_div]
  rfl

/-! ## The number of a round -/

theorem blockP_eq (radix n t : Nat) : blockP radix n t = pBytes radix n t := by
  have hByte : bytes 1 (n / 2 % 256) = bytes 1 (n / 2) := by
    simp [bytes, str]
  rw [blockP, pBytes, hByte]
  rfl

theorem blockQ_eq (tweak : Bytes) (b i x : Nat) : blockQ tweak b i x = qBytes tweak b i x := by
  have hPadding : ((-(tweak.length : Int) - b - 1) % 16).toNat = padding tweak.length b := by
    unfold padding
    omega
  have hRound : bytes 1 i = [UInt8.ofNat i] := by
    apply byteNum_inj (by simp)
    rw [byteNum_bytes, byteNum_cons, UInt8.toNat_ofNat']
    simp
  rw [blockQ, qBytes, hPadding, bytes_zero, hRound]

/-- As long as the counter does not wrap, the round draws the number of the standard. -/
theorem drawnNumber_eq (E : BlockFunction) (key tweak : Bytes) (radix n b i x : Nat) {d : Nat}
    (hd : d ≤ 2 ^ 32) :
    drawnNumber E key tweak radix n b d i x =
      Ff1Round.drawMask E key (Ff1Round.prfInput tweak radix n b i x) d := by
  have hCounter : ∀ j < (d + (16 - 1)) / 16, bytes 16 j = counterBytes j := by
    intro j hj
    rw [counterBytes, Nat.mod_eq_of_lt (by omega)]
  rw [drawnNumber, blockP_eq, blockQ_eq, bytes_zero, BlockMode.stream_congr hCounter]
  rfl

end IndicCrypt.Fpe.Standard
