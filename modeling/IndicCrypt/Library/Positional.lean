import Mathlib.Data.Int.ModEq
import Mathlib.Data.Nat.Digits.Lemmas
import Mathlib.Data.Nat.Log
import Mathlib.Data.Nat.ModEq
import Mathlib.Tactic.Ring
import Mathlib.Tactic.Zify

/-!
# Big-endian positional numerals

`num β X` is the value of the digit string `X` in base `β`, most significant digit
first, and `str β m x` writes the `m` low digits of `x`. They are inverse to each other
between the strings of `m` digits below `β` and the numbers below `β ^ m` (`num_str`,
`str_num`). Byte strings are the strings of base `256` (`byteNum`, `bytes`).

`addMod` and `subMod` are the modular steps of a digit string by a number.
`num_eq_foldl` reads the value off a left fold, and `str_eq_pad` rebuilds `str` from the
`minimal` string, which has no leading zeros, by padding.
-/

namespace Positional

/-- The value of a digit string in base `β`, most significant digit first. -/
def num (β : Nat) : List Nat → Nat
  | [] => 0
  | d :: X => d * β ^ X.length + num β X

/-- The `m` low digits of `x` in base `β`, most significant digit first. -/
def str (β : Nat) : Nat → Nat → List Nat
  | 0, _ => []
  | m + 1, x => (x / β ^ m % β) :: str β m x

/-- Every digit of `X` is below `β`. -/
def Digits (β : Nat) (X : List Nat) : Prop := ∀ d ∈ X, d < β

instance (β : Nat) (X : List Nat) : Decidable (Digits β X) :=
  inferInstanceAs (Decidable (∀ d ∈ X, d < β))

variable {β m : Nat} {X Y : List Nat}

/-! ## Digit strings -/

@[simp] theorem digits_nil : Digits β [] := by simp [Digits]

@[simp] theorem digits_cons {d : Nat} : Digits β (d :: X) ↔ d < β ∧ Digits β X := by
  simp [Digits]

@[simp] theorem digits_append : Digits β (X ++ Y) ↔ Digits β X ∧ Digits β Y := by
  simp only [Digits, List.mem_append]
  constructor
  · intro h
    exact ⟨fun d hd => h d (Or.inl hd), fun d hd => h d (Or.inr hd)⟩
  · rintro ⟨hX, hY⟩ d (hd | hd)
    · exact hX d hd
    · exact hY d hd

theorem Digits.take (h : Digits β X) (k : Nat) : Digits β (X.take k) :=
  fun d hd => h d (List.mem_of_mem_take hd)

theorem Digits.drop (h : Digits β X) (k : Nat) : Digits β (X.drop k) :=
  fun d hd => h d (List.mem_of_mem_drop hd)

theorem digits_replicate_zero (hβ : 0 < β) (k : Nat) : Digits β (List.replicate k 0) := by
  intro d hd
  rw [List.eq_of_mem_replicate hd]
  exact hβ

/-! ## Values -/

@[simp] theorem num_nil : num β [] = 0 := rfl

@[simp] theorem num_cons {d : Nat} : num β (d :: X) = d * β ^ X.length + num β X := rfl

theorem num_append (X Y : List Nat) : num β (X ++ Y) = num β X * β ^ Y.length + num β Y := by
  induction X with
  | nil => simp
  | cons d X ih =>
    simp only [List.cons_append, num_cons, List.length_append, ih, pow_add]
    ring

@[simp] theorem num_replicate_zero (k : Nat) : num β (List.replicate k 0) = 0 := by
  induction k with
  | zero => rfl
  | succ k ih => simp [List.replicate_succ, ih]

theorem num_zeros_append (k : Nat) (X : List Nat) : num β (List.replicate k 0 ++ X) = num β X := by
  simp [num_append]

theorem num_eq_foldl (X : List Nat) : X.foldl (fun x d => x * β + d) 0 = num β X := by
  have key : ∀ x, X.foldl (fun x d => x * β + d) x = x * β ^ X.length + num β X := by
    induction X with
    | nil => simp
    | cons d X ih =>
      intro x
      rw [List.foldl_cons, ih, num_cons, List.length_cons, pow_succ]
      ring
  simpa using key 0

theorem num_lt (h : Digits β X) : num β X < β ^ X.length := by
  induction X with
  | nil => simp
  | cons d X ih =>
    obtain ⟨hd, hX⟩ := digits_cons.mp h
    have hStep : (d + 1) * β ^ X.length ≤ β * β ^ X.length := Nat.mul_le_mul_right _ hd
    have hTail := ih hX
    rw [num_cons, List.length_cons, pow_succ']
    rw [Nat.add_mul, one_mul] at hStep
    omega

theorem num_eq_ofDigits (X : List Nat) : num β X = Nat.ofDigits β X.reverse := by
  induction X with
  | nil => rfl
  | cons d X ih =>
    rw [num_cons, ih, List.reverse_cons, Nat.ofDigits_append, List.length_reverse,
      Nat.ofDigits_singleton]
    ring

/-! ## Fixed-width strings -/

@[simp] theorem str_zero (x : Nat) : str β 0 x = [] := rfl

theorem str_succ (m x : Nat) : str β (m + 1) x = (x / β ^ m % β) :: str β m x := rfl

@[simp] theorem length_str (m x : Nat) : (str β m x).length = m := by
  induction m with
  | zero => rfl
  | succ m ih => rw [str_succ, List.length_cons, ih]

theorem digits_str (hβ : 0 < β) (m x : Nat) : Digits β (str β m x) := by
  induction m with
  | zero => exact digits_nil
  | succ m ih => exact digits_cons.mpr ⟨Nat.mod_lt _ hβ, ih⟩

theorem num_str (m x : Nat) : num β (str β m x) = x % β ^ m := by
  induction m with
  | zero => simp [Nat.mod_one]
  | succ m ih =>
    rw [str_succ, num_cons, length_str, ih, Nat.mod_pow_succ]
    ring

theorem num_str_of_lt {x : Nat} (h : x < β ^ m) : num β (str β m x) = x := by
  rw [num_str, Nat.mod_eq_of_lt h]

/-- A multiple of `β ^ m` does not show in the `m` low digits. -/
theorem str_mul_pow_add (hβ : 0 < β) (d : Nat) {k x : Nat} (hk : m ≤ k) :
    str β m (d * β ^ k + x) = str β m x := by
  induction m with
  | zero => rfl
  | succ m ih =>
    have hPow : d * β ^ k = β ^ m * (β * (d * β ^ (k - (m + 1)))) := by
      rw [show β ^ k = β ^ (m + 1) * β ^ (k - (m + 1)) by rw [← pow_add]; congr 1; omega, pow_succ]
      ring
    rw [str_succ, str_succ, ih (by omega), hPow, Nat.mul_add_div (Nat.pow_pos hβ),
      Nat.mul_add_mod]

theorem str_num (hβ : 0 < β) (h : Digits β X) : str β X.length (num β X) = X := by
  induction X with
  | nil => rfl
  | cons d X ih =>
    obtain ⟨hd, hX⟩ := digits_cons.mp h
    have hDiv : (d * β ^ X.length + num β X) / β ^ X.length = d := by
      rw [Nat.mul_comm, Nat.mul_add_div (Nat.pow_pos hβ), Nat.div_eq_of_lt (num_lt hX), add_zero]
    rw [List.length_cons, num_cons, str_succ, hDiv, Nat.mod_eq_of_lt hd,
      str_mul_pow_add hβ d le_rfl, ih hX]

theorem num_inj (hβ : 0 < β) (hX : Digits β X) (hY : Digits β Y) (hLength : X.length = Y.length)
    (h : num β X = num β Y) : X = Y := by
  rw [← str_num hβ hX, ← str_num hβ hY, hLength, h]

theorem str_of_zero (hβ : 0 < β) (m : Nat) : str β m 0 = List.replicate m 0 := by
  apply num_inj hβ (digits_str hβ _ _) (digits_replicate_zero hβ _) (by simp)
  simp [num_str]

/-! ## Minimal strings -/

/-- The digits of `x` without leading zeros; zero is the single digit `0`. -/
def minimal (β x : Nat) : List Nat := if x = 0 then [0] else (β.digits x).reverse

theorem digits_minimal (hβ : 1 < β) (x : Nat) : Digits β (minimal β x) := by
  unfold minimal
  split
  · simp only [digits_cons, digits_nil, and_true]
    omega
  · exact fun d hd => Nat.digits_lt_base hβ (List.mem_reverse.mp hd)

theorem length_minimal_le (hβ : 1 < β) {x : Nat} (hm : 0 < m) (h : x < β ^ m) :
    (minimal β x).length ≤ m := by
  unfold minimal
  split
  · exact hm
  · rw [List.length_reverse]
    exact (Nat.digits_length_le_iff hβ x).mpr h

theorem num_minimal (x : Nat) : num β (minimal β x) = x := by
  unfold minimal
  split
  · simp_all
  · rw [num_eq_ofDigits, List.reverse_reverse, Nat.ofDigits_digits]

/-- `str` is the minimal string padded with zeros on the left. -/
theorem str_eq_pad (hβ : 1 < β) {x : Nat} (hm : 0 < m) (h : x < β ^ m) :
    str β m x = List.replicate (m - (minimal β x).length) 0 ++ minimal β x := by
  have hLength := length_minimal_le hβ hm h
  apply num_inj (by omega) (digits_str (by omega) _ _)
    (digits_append.mpr ⟨digits_replicate_zero (by omega) _, digits_minimal hβ x⟩)
  · simp only [length_str, List.length_append, List.length_replicate]
    omega
  · rw [num_str_of_lt h, num_zeros_append, num_minimal]

/-- The digits of `X` without its leading zeros; the digit `0` when nothing remains. -/
def strip (X : List Nat) : List Nat :=
  match X.dropWhile (· = 0) with
  | [] => [0]
  | d :: Y => d :: Y

theorem strip_zero_cons (X : List Nat) : strip (0 :: X) = strip X := rfl

theorem strip_cons_of_ne {d : Nat} (hd : d ≠ 0) (X : List Nat) : strip (d :: X) = d :: X := by
  rw [strip, List.dropWhile_cons_of_neg (by simpa using hd)]

theorem eq_zero_or_mem_strip {d : Nat} (h : d ∈ X) : d = 0 ∨ d ∈ strip X := by
  induction X with
  | nil => exact absurd h List.not_mem_nil
  | cons e X ih =>
    by_cases he : e = 0
    · subst he
      rw [strip_zero_cons]
      exact (List.mem_cons.mp h).elim .inl ih
    · rw [strip_cons_of_ne he]
      exact .inr h

theorem strip_of_zeros (h : ∀ d ∈ X, d = 0) : strip X = [0] := by
  induction X with
  | nil => rfl
  | cons e X ih =>
    obtain ⟨rfl, hX⟩ := List.forall_mem_cons.mp h
    exact ih hX

theorem lt_length_minimal (hβ : 1 < β) {x : Nat} : m < (minimal β x).length ↔ m = 0 ∨ β ^ m ≤ x := by
  unfold minimal
  by_cases hx : x = 0
  · have hPow : 0 < β ^ m := Nat.pow_pos (by omega)
    rw [if_pos hx, List.length_singleton]
    omega
  · rw [if_neg hx, List.length_reverse, Nat.lt_digits_length_iff hβ]
    constructor
    · exact Or.inr
    · rintro (rfl | h)
      · rw [pow_zero]
        omega
      · exact h

/-- The minimal string of a positive number has no leading zero. -/
theorem exists_minimal_eq_cons (β : Nat) {x : Nat} (hx : x ≠ 0) :
    ∃ d X, minimal β x = d :: X ∧ d ≠ 0 := by
  have hNe : β.digits x ≠ [] := Nat.digits_ne_nil_iff_ne_zero.mpr hx
  refine ⟨(β.digits x).getLast hNe, (β.digits x).dropLast.reverse, ?_, Nat.getLast_digit_ne_zero β hx⟩
  rw [minimal, if_neg hx]
  conv_lhs => rw [← List.dropLast_append_getLast hNe]
  rw [List.reverse_append, List.reverse_singleton, List.singleton_append]

/-- A string without a leading zero is minimal. -/
theorem minimal_num_cons (hβ : 1 < β) {d : Nat} (h : Digits β (d :: X)) (hd : d ≠ 0) :
    minimal β (num β (d :: X)) = d :: X := by
  have hPos : num β (d :: X) ≠ 0 := by
    have hProduct : 0 < d * β ^ X.length := Nat.mul_pos (by omega) (Nat.pow_pos (by omega))
    rw [num_cons]
    omega
  have hDigits : β.digits (num β (d :: X)) = (d :: X).reverse := by
    rw [num_eq_ofDigits]
    apply Nat.digits_ofDigits β hβ
    · exact fun e he => h e (List.mem_reverse.mp he)
    · intro hNe
      rw [List.getLast_reverse]
      exact hd
  rw [minimal, if_neg hPos, hDigits, List.reverse_reverse]

theorem minimal_num (hβ : 1 < β) (h : Digits β X) : minimal β (num β X) = strip X := by
  induction X with
  | nil => rfl
  | cons d X ih =>
    obtain ⟨-, hX⟩ := digits_cons.mp h
    by_cases hd : d = 0
    · subst hd
      rw [num_cons, zero_mul, zero_add, ih hX]
      rfl
    · rw [minimal_num_cons hβ h hd, strip_cons_of_ne hd]

/-! ## Modular steps

`addMod` and `subMod` move a digit string by a number, modulo the number of strings of its
length. They keep the length, and each undoes the other.
-/

def addMod (β : Nat) (X : List Nat) (y : Nat) : List Nat :=
  str β X.length ((num β X + y) % β ^ X.length)

def subMod (β : Nat) (X : List Nat) (y : Nat) : List Nat :=
  str β X.length (((num β X : Int) - y) % (β ^ X.length : Nat)).toNat

@[simp] theorem length_addMod (X : List Nat) (y : Nat) : (addMod β X y).length = X.length :=
  length_str _ _

@[simp] theorem length_subMod (X : List Nat) (y : Nat) : (subMod β X y).length = X.length :=
  length_str _ _

theorem digits_addMod (hβ : 0 < β) (X : List Nat) (y : Nat) : Digits β (addMod β X y) :=
  digits_str hβ _ _

theorem digits_subMod (hβ : 0 < β) (X : List Nat) (y : Nat) : Digits β (subMod β X y) :=
  digits_str hβ _ _

theorem num_addMod (X : List Nat) (y : Nat) :
    num β (addMod β X y) = (num β X + y) % β ^ X.length := by
  rw [addMod, num_str, Nat.mod_mod]

theorem num_subMod (hβ : 0 < β) (X : List Nat) (y : Nat) :
    (num β (subMod β X y) : Int) = ((num β X : Int) - y) % (β ^ X.length : Nat) := by
  have hPos : (0 : Int) < (β ^ X.length : Nat) := by exact_mod_cast Nat.pow_pos hβ
  have hLow := Int.emod_nonneg ((num β X : Int) - y) hPos.ne'
  have hHigh := Int.emod_lt_of_pos ((num β X : Int) - y) hPos
  rw [subMod, num_str_of_lt (by omega), Int.toNat_of_nonneg hLow]

theorem subMod_addMod (h : Digits β X) (hβ : 0 < β) (y : Nat) : subMod β (addMod β X y) y = X := by
  apply num_inj hβ (digits_subMod hβ _ _) h (by simp)
  have hLt := num_lt h
  zify
  rw [num_subMod hβ, num_addMod, length_addMod, Int.natCast_emod, Int.emod_sub_emod,
    Nat.cast_add, add_sub_cancel_right, ← Int.natCast_emod, Nat.mod_eq_of_lt hLt]

theorem addMod_subMod (h : Digits β X) (hβ : 0 < β) (y : Nat) : addMod β (subMod β X y) y = X := by
  apply num_inj hβ (digits_addMod hβ _ _) h (by simp)
  have hLt := num_lt h
  zify
  rw [num_addMod, Int.natCast_emod, Nat.cast_add, num_subMod hβ, length_subMod, Int.emod_add_emod,
    sub_add_cancel, ← Int.natCast_emod, Nat.mod_eq_of_lt hLt]

theorem addMod_zero (h : Digits β X) (hβ : 0 < β) : addMod β X 0 = X := by
  rw [addMod, add_zero, Nat.mod_eq_of_lt (num_lt h), str_num hβ h]

/-- A step by less than the modulus moves the string. -/
theorem addMod_ne (h : Digits β X) {y : Nat} (hPos : 0 < y) (hLt : y < β ^ X.length) :
    addMod β X y ≠ X := by
  intro hEq
  have hNum := congrArg (num β) hEq
  have hValue := num_lt h
  rw [num_addMod] at hNum
  by_cases hWrap : num β X + y < β ^ X.length
  · rw [Nat.mod_eq_of_lt hWrap] at hNum
    omega
  · rw [Nat.mod_eq_sub_mod (Nat.le_of_not_lt hWrap), Nat.mod_eq_of_lt (by omega)] at hNum
    omega

/-- The step is the same for every string of one length. -/
theorem num_addMod_sub_modEq (X : List Nat) (y : Nat) :
    (num β (addMod β X y) : Int) - num β X ≡ y [ZMOD (β ^ X.length : Nat)] := by
  rw [num_addMod, Int.natCast_emod, Nat.cast_add]
  calc ((num β X : Int) + y) % (β ^ X.length : Nat) - num β X
      ≡ ((num β X : Int) + y) - num β X [ZMOD (β ^ X.length : Nat)] :=
        (Int.mod_modEq _ _).sub_right _
    _ = y := by ring

/-! ## Byte strings -/

/-- The number a byte string denotes, most significant byte first. -/
def byteNum (s : List UInt8) : Nat := num 256 (s.map UInt8.toNat)

/-- The `k` low bytes of `x`, most significant byte first. -/
def bytes (k x : Nat) : List UInt8 := (str 256 k x).map UInt8.ofNat

@[simp] theorem byteNum_nil : byteNum [] = 0 := rfl

theorem byteNum_cons (b : UInt8) (s : List UInt8) :
    byteNum (b :: s) = b.toNat * 256 ^ s.length + byteNum s := by
  simp [byteNum]

theorem byteNum_append (s t : List UInt8) :
    byteNum (s ++ t) = byteNum s * 256 ^ t.length + byteNum t := by
  simp [byteNum, num_append]

@[simp] theorem length_bytes (k x : Nat) : (bytes k x).length = k := by simp [bytes]

theorem bytes_succ (k x : Nat) : bytes (k + 1) x = UInt8.ofNat (x / 256 ^ k % 256) :: bytes k x :=
  rfl

theorem digits_toNat (s : List UInt8) : Digits 256 (s.map UInt8.toNat) := by
  intro d hd
  obtain ⟨b, -, rfl⟩ := List.mem_map.mp hd
  exact b.toNat_lt

theorem byteNum_lt (s : List UInt8) : byteNum s < 256 ^ s.length := by
  simpa [byteNum] using num_lt (digits_toNat s)

theorem map_toNat_bytes (k x : Nat) : (bytes k x).map UInt8.toNat = str 256 k x := by
  rw [bytes, List.map_map]
  conv_rhs => rw [← List.map_id (str 256 k x)]
  apply List.map_congr_left
  intro d hd
  have hLt : d < 256 := digits_str (by omega) k x d hd
  simp only [Function.comp_apply, UInt8.toNat_ofNat', id_eq]
  omega

theorem byteNum_bytes (k x : Nat) : byteNum (bytes k x) = x % 256 ^ k := by
  rw [byteNum, map_toNat_bytes, num_str]

theorem byteNum_inj {s t : List UInt8} (hLength : s.length = t.length)
    (h : byteNum s = byteNum t) : s = t := by
  have hMap : s.map UInt8.toNat = t.map UInt8.toNat :=
    num_inj (by omega) (digits_toNat s) (digits_toNat t) (by simpa using hLength) h
  exact List.map_injective_iff.mpr (fun _ _ => UInt8.toNat.inj) hMap

theorem bytes_byteNum (s : List UInt8) : bytes s.length (byteNum s) = s := by
  apply byteNum_inj (by simp)
  rw [byteNum_bytes, Nat.mod_eq_of_lt (byteNum_lt s)]

theorem bytes_inj {k x y : Nat} (hx : x < 256 ^ k) (hy : y < 256 ^ k) (h : bytes k x = bytes k y) :
    x = y := by
  have hNum := congrArg byteNum h
  rwa [byteNum_bytes, byteNum_bytes, Nat.mod_eq_of_lt hx, Nat.mod_eq_of_lt hy] at hNum

@[simp] theorem bytes_zero (k : Nat) : bytes k 0 = List.replicate k 0 := by
  simp [bytes, str_of_zero]

@[simp] theorem byteNum_replicate_zero (k : Nat) : byteNum (List.replicate k 0) = 0 := by
  simp [byteNum]

/-! ## Byte width of a digit string -/

/-- The least number of bytes that holds every `m`-digit number in base `β`. -/
def byteWidth (β m : Nat) : Nat := Nat.clog 256 (β ^ m)

theorem byteWidth_le_iff {k : Nat} : byteWidth β m ≤ k ↔ β ^ m ≤ 256 ^ k :=
  Nat.clog_le_iff_le_pow (by omega)

theorem pow_le_byteWidth (β m : Nat) : β ^ m ≤ 256 ^ byteWidth β m := byteWidth_le_iff.mp le_rfl

theorem pow_lt_of_lt_byteWidth {k : Nat} (h : k < byteWidth β m) : 256 ^ k < β ^ m := by
  by_contra hNot
  have := byteWidth_le_iff.mpr (Nat.le_of_not_lt hNot)
  omega

theorem byteWidth_pos (hβ : 1 < β) (hm : 0 < m) : 0 < byteWidth β m :=
  Nat.clog_pos (by omega) (Nat.one_lt_pow (by omega) hβ)

theorem byteWidth_mono (hβ : 0 < β) {m' : Nat} (h : m ≤ m') : byteWidth β m ≤ byteWidth β m' :=
  Nat.clog_mono_right _ (Nat.pow_le_pow_right hβ h)

/-- A digit of at most two bytes widens a string by at most two bytes. -/
theorem byteWidth_succ_le (hβ : β ≤ 65536) (m : Nat) : byteWidth β (m + 1) ≤ byteWidth β m + 2 := by
  rw [byteWidth_le_iff, pow_succ, pow_add]
  exact Nat.mul_le_mul (pow_le_byteWidth β m) (by simpa using hβ)

theorem byteWidth_le_two_mul (hβ : β ≤ 65536) (m : Nat) : byteWidth β m ≤ 2 * m := by
  rw [byteWidth_le_iff, pow_mul]
  exact Nat.pow_le_pow_left (by simpa using hβ) m

theorem num_lt_byteWidth (h : Digits β X) : num β X < 256 ^ byteWidth β X.length :=
  (num_lt h).trans_le (pow_le_byteWidth β X.length)

end Positional
