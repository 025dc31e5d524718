import IndicCrypt.Fpe.Parameters

/-!
# Separation of the PRF inputs

The PRF of a round is a raw CBC-MAC over `P ‖ Q`. P determines the radix, the message
length and the tweak length, so two inputs can only meet in one context
(`context_of_append_eq`), and there Q is the tweak followed by a number: the round byte and the
numeral in base 256 (`qBytes_eq_iff`).

The width of the numeral is the byte width of the half in hand. For odd lengths the two
halves may differ in width, and then the round byte of the narrow Q stands where the wide Q
has a numeral byte. `prf_input_separated_iff` is the exact condition under which two inputs
of `build` are separated, and `not_prf_input_separated` a collision between rounds 0 and 1.

The inputs are nevertheless prefix-free (`prf_inputs_prefix_free`): the widths differ by at
most two, so where the lengths differ the shorter input ends its padding first, with an odd
round byte where the longer one still has zeros.
-/

namespace IndicCrypt.Fpe

open Positional Run

/-! ## The layouts as strings -/

theorem pBytes_inj {r r' n n' t t' : Nat} (hr : r ≤ 65536) (hr' : r' ≤ 65536) (hn : n ≤ 4096)
    (hn' : n' ≤ 4096) (ht : t ≤ 64) (ht' : t' ≤ 64) (h : pBytes r n t = pBytes r' n' t') :
    r = r' ∧ n = n' ∧ t = t' := by
  obtain ⟨h, hTweak⟩ := List.append_inj h (by simp)
  obtain ⟨h, hLength⟩ := List.append_inj h (by simp)
  obtain ⟨h, -⟩ := List.append_inj h (by simp)
  obtain ⟨h, -⟩ := List.append_inj h (by simp)
  obtain ⟨-, hRadix⟩ := List.append_inj h (by simp)
  exact ⟨bytes_inj (by omega) (by omega) hRadix, bytes_inj (by omega) (by omega) hLength,
    bytes_inj (by omega) (by omega) hTweak⟩

/-- Behind the tweak, Q is the number `round * 256 ^ b + x`. -/
theorem byteNum_qBytes_tail (t : Nat) {b i x : Nat} (hi : i < 256) (hx : x < 256 ^ b) :
    byteNum (List.replicate (padding t b) 0 ++ [UInt8.ofNat i] ++ bytes b x) = i * 256 ^ b + x := by
  have hByte : (UInt8.ofNat i).toNat = i := by
    rw [UInt8.toNat_ofNat']
    omega
  rw [byteNum_append, byteNum_append, byteNum_replicate_zero, length_bytes, byteNum_bytes,
    Nat.mod_eq_of_lt hx, byteNum_cons, hByte, byteNum_nil]
  simp

theorem qBytes_eq_iff {tweak : Bytes} {b b' i i' x x' : Nat} (hi : i < 256) (hi' : i' < 256)
    (hx : x < 256 ^ b) (hx' : x' < 256 ^ b') :
    qBytes tweak b i x = qBytes tweak b' i' x' ↔
      padding tweak.length b + b = padding tweak.length b' + b' ∧
        i * 256 ^ b + x = i' * 256 ^ b' + x' := by
  have hLengths := length_qBytes tweak b i x
  have hLengths' := length_qBytes tweak b' i' x'
  constructor
  · intro h
    refine ⟨?_, ?_⟩
    · rw [h] at hLengths
      omega
    · simp only [qBytes, List.append_assoc, List.append_cancel_left_eq] at h
      have hNum := congrArg byteNum h
      rwa [← List.append_assoc, ← List.append_assoc, byteNum_qBytes_tail tweak.length hi hx,
        byteNum_qBytes_tail tweak.length hi' hx'] at hNum
  · rintro ⟨hSize, hNum⟩
    rw [← byteNum_qBytes_tail tweak.length hi hx, ← byteNum_qBytes_tail tweak.length hi' hx'] at hNum
    have hTail := byteNum_inj (by simp; omega) hNum
    simp only [qBytes, List.append_assoc, List.append_cancel_left_eq]
    simpa only [List.append_assoc] using hTail

/-- The round byte stands right behind the padding. -/
theorem qBytes_round (tweak : Bytes) (b i x : Nat) :
    (qBytes tweak b i x)[tweak.length + padding tweak.length b]? = some (UInt8.ofNat i) := by
  have hIndex : tweak.length + padding tweak.length b =
      (tweak ++ List.replicate (padding tweak.length b) 0).length := by simp
  rw [qBytes, List.append_assoc, List.append_assoc, ← List.append_assoc, hIndex,
    List.getElem?_append_right le_rfl]
  simp

theorem qBytes_padding (tweak : Bytes) (b i x : Nat) {k : Nat} (h : k < padding tweak.length b) :
    (qBytes tweak b i x)[tweak.length + k]? = some 0 := by
  rw [qBytes, List.append_assoc, List.append_assoc, List.getElem?_append_right (by omega),
    Nat.add_sub_cancel_left, List.getElem?_append_left (by simpa using h),
    List.getElem?_replicate, if_pos h]

/-! ## Two accepted inputs -/

/-- What `Ff1ParameterBlock::build` and `Ff1QBlock::build` return when both accept. -/
theorem blocks_of_build {parameters : FpeParameters} {n i : Nat} {B : List Nat} {p q : Bytes}
    (hP : Ff1ParameterBlock.build parameters n = .ok p)
    (hQ : Ff1QBlock.build parameters n i B = .ok q) :
    parameters.domain.radix.value ≤ 65536 ∧
      Ff1QBlock.Accepts parameters.domain.radix n i B ∧
      p = pBytes parameters.domain.radix.value n parameters.tweak.length ∧
      q = qBytes parameters.tweak (byteWidth parameters.domain.radix.value B.length) i
        (num parameters.domain.radix.value B) := by
  obtain ⟨-, -, hRadix, rfl⟩ := Ff1ParameterBlock.build_eq_ok.mp hP
  have hAccepts := Ff1QBlock.accepts_of_build hQ
  rw [Ff1QBlock.build_of_accepts hRadix hAccepts] at hQ
  cases hQ
  exact ⟨hRadix, hAccepts, rfl, rfl⟩

/-- Where one Q continues another, the tweaks and so the contexts are the same. -/
theorem context_of_append_eq {parameters parameters' : FpeParameters} {n n' i i' : Nat}
    {B B' : List Nat} {p p' q q' s : Bytes}
    (hP : Ff1ParameterBlock.build parameters n = .ok p)
    (hQ : Ff1QBlock.build parameters n i B = .ok q)
    (hP' : Ff1ParameterBlock.build parameters' n' = .ok p')
    (hQ' : Ff1QBlock.build parameters' n' i' B' = .ok q') (h : p ++ q ++ s = p' ++ q') :
    parameters.domain.radix.value = parameters'.domain.radix.value ∧ n = n' ∧
      parameters.tweak = parameters'.tweak ∧ q ++ s = q' := by
  obtain ⟨hRadix, hAccepts, rfl, rfl⟩ := blocks_of_build hP hQ
  obtain ⟨hRadix', hAccepts', rfl, rfl⟩ := blocks_of_build hP' hQ'
  rw [List.append_assoc] at h
  obtain ⟨hBlock, hRest⟩ := List.append_inj h (by simp)
  obtain ⟨hSameRadix, hSameLength, hSameTweak⟩ := pBytes_inj hRadix hRadix' hAccepts.high
    hAccepts'.high parameters.tweak_le parameters'.tweak_le hBlock
  refine ⟨hSameRadix, hSameLength, ?_, hRest⟩
  simp only [qBytes, List.append_assoc] at hRest
  exact (List.append_inj hRest hSameTweak).1

/-! ## The exact condition for separation -/

/-- A wide Q of round 0 reads as a narrow Q of round `i'`: the field of `B` is wider, both
are padded to the same size, and the leading byte of `B` in its field is the round `i'`. -/
structure MixedWidth (radix t i : Nat) (B : List Nat) (i' : Nat) (B' : List Nat) : Prop where
  round_zero : i = 0
  wider : byteWidth radix B'.length < byteWidth radix B.length
  same_size : padding t (byteWidth radix B'.length) + byteWidth radix B'.length =
    padding t (byteWidth radix B.length) + byteWidth radix B.length
  value : num radix B = i' * 256 ^ byteWidth radix B'.length + num radix B'

instance (radix t i : Nat) (B : List Nat) (i' : Nat) (B' : List Nat) :
    Decidable (MixedWidth radix t i B i' B') :=
  decidable_of_iff
    (i = 0 ∧ byteWidth radix B'.length < byteWidth radix B.length ∧
      padding t (byteWidth radix B'.length) + byteWidth radix B'.length =
        padding t (byteWidth radix B.length) + byteWidth radix B.length ∧
      num radix B = i' * 256 ^ byteWidth radix B'.length + num radix B')
    ⟨fun ⟨h0, h1, h2, h3⟩ => ⟨h0, h1, h2, h3⟩, fun ⟨h0, h1, h2, h3⟩ => ⟨h0, h1, h2, h3⟩⟩

variable {radix : FpeRadix} {n i i' : Nat} {B B' : List Nat} {tweak : Bytes}

/-- Fields of one width: the round byte and the numeral are read back. -/
theorem eq_of_qBytes_eq_of_width_eq (h : Ff1QBlock.Accepts radix n i B)
    (h' : Ff1QBlock.Accepts radix n i' B')
    (hWidth : byteWidth radix.value B.length = byteWidth radix.value B'.length)
    (hEq : qBytes tweak (byteWidth radix.value B.length) i (num radix.value B) =
      qBytes tweak (byteWidth radix.value B'.length) i' (num radix.value B')) :
    i = i' ∧ B = B' := by
  have hx := num_lt_byteWidth h.digits
  have hx' := num_lt_byteWidth h'.digits
  obtain ⟨-, hNum⟩ := (qBytes_eq_iff (by have := h.round_lt; omega) (by have := h'.round_lt; omega)
    hx hx').mp hEq
  rw [← hWidth] at hNum hx'
  have hRound : i = i' := by
    have hDiv := congrArg (· / 256 ^ byteWidth radix.value B.length) hNum
    simpa [Nat.mul_comm _ (256 ^ _), Nat.mul_add_div, Nat.div_eq_of_lt hx, Nat.div_eq_of_lt hx']
      using hDiv
  subst hRound
  have hLength : B.length = B'.length := by rw [h.length_eq, h'.length_eq]
  exact ⟨rfl, num_inj radix.pos h.digits h'.digits hLength (by omega)⟩

/-- Fields of different widths: only round 0 under the wide field can meet the other. -/
theorem qBytes_eq_iff_of_width_lt (h : Ff1QBlock.Accepts radix n i B)
    (h' : Ff1QBlock.Accepts radix n i' B')
    (hWidth : byteWidth radix.value B'.length < byteWidth radix.value B.length) :
    qBytes tweak (byteWidth radix.value B.length) i (num radix.value B) =
        qBytes tweak (byteWidth radix.value B'.length) i' (num radix.value B') ↔
      MixedWidth radix.value tweak.length i B i' B' := by
  have hRound' := h'.round_lt
  have hx := num_lt_byteWidth h.digits
  have hx' := num_lt_byteWidth h'.digits
  rw [qBytes_eq_iff (by have := h.round_lt; omega) (by omega) hx hx']
  -- the narrow number is below the weight of the wide round byte
  have hNarrow : i' * 256 ^ byteWidth radix.value B'.length + num radix.value B' <
      256 ^ byteWidth radix.value B.length :=
    calc i' * 256 ^ byteWidth radix.value B'.length + num radix.value B'
        < (i' + 1) * 256 ^ byteWidth radix.value B'.length := by
          rw [Nat.add_mul, one_mul]
          omega
      _ ≤ 256 * 256 ^ byteWidth radix.value B'.length := Nat.mul_le_mul_right _ (by omega)
      _ ≤ 256 ^ byteWidth radix.value B.length := by
          rw [← pow_succ']
          exact Nat.pow_le_pow_right (by omega) hWidth
  constructor
  · rintro ⟨hSize, hNum⟩
    have hRound : i = 0 := by
      by_contra hPos
      have : 1 * 256 ^ byteWidth radix.value B.length ≤
          i * 256 ^ byteWidth radix.value B.length := Nat.mul_le_mul_right _ (by omega)
      omega
    subst hRound
    exact ⟨rfl, hWidth, hSize.symm, by omega⟩
  · rintro ⟨rfl, -, hSize, hValue⟩
    exact ⟨hSize.symm, by omega⟩

theorem MixedWidth.round_ne (h : Ff1QBlock.Accepts radix n i B)
    (h' : Ff1QBlock.Accepts radix n i' B') {t : Nat} (hMixed : MixedWidth radix.value t i B i' B') :
    i ≠ i' := by
  rintro rfl
  have hLength : B.length = B'.length := by rw [h.length_eq, h'.length_eq]
  have hWider := hMixed.wider
  rw [hLength] at hWider
  omega

/-- Two inputs of one context are equal exactly at equal rounds and halves, or where one of
them is a wide Q of round 0 that reads as the other. -/
theorem qBytes_eq_cases (h : Ff1QBlock.Accepts radix n i B) (h' : Ff1QBlock.Accepts radix n i' B')
    (hEq : qBytes tweak (byteWidth radix.value B.length) i (num radix.value B) =
      qBytes tweak (byteWidth radix.value B'.length) i' (num radix.value B')) :
    (i = i' ∧ B = B') ∨ MixedWidth radix.value tweak.length i B i' B' ∨
      MixedWidth radix.value tweak.length i' B' i B := by
  rcases Nat.lt_trichotomy (byteWidth radix.value B.length) (byteWidth radix.value B'.length) with
    hLt | hSame | hGt
  · exact Or.inr (Or.inr ((qBytes_eq_iff_of_width_lt h' h hLt).mp hEq.symm))
  · exact Or.inl (eq_of_qBytes_eq_of_width_eq h h' hSame hEq)
  · exact Or.inr (Or.inl ((qBytes_eq_iff_of_width_lt h h' hGt).mp hEq))

/-! Five decimal digits: the block P, and the block Q of round 0 on the half 255 and of round 1
on the half 00. -/

theorem decimal_block : Ff1ParameterBlock.build decimalParameters 5 = .ok (pBytes 10 5 0) :=
  Ff1ParameterBlock.build_eq_ok.mpr ⟨by omega, by omega, decimalDomain_radix_le, rfl⟩

theorem decimal_round_zero : Ff1QBlock.build decimalParameters 5 0 [2, 5, 5] =
    .ok [0, 0, 0, 0, 0, 0, 0, 0, 0, 0, 0, 0, 0, 0, 0, 255] := rfl

theorem decimal_round_one : Ff1QBlock.build decimalParameters 5 1 [0, 0] =
    .ok [0, 0, 0, 0, 0, 0, 0, 0, 0, 0, 0, 0, 0, 0, 1, 0] := rfl

/-- **Exact separation.** Equal PRF inputs come from equal radices, tweaks, lengths, rounds
and halves, unless the two inputs share their context and one is a wide Q of round 0 that
reads as the narrow Q of the other. -/
theorem prf_input_separated_iff {parameters parameters' : FpeParameters} {n n' i i' : Nat}
    {B B' : List Nat} {p p' q q' : Bytes}
    (hP : Ff1ParameterBlock.build parameters n = .ok p)
    (hQ : Ff1QBlock.build parameters n i B = .ok q)
    (hP' : Ff1ParameterBlock.build parameters' n' = .ok p')
    (hQ' : Ff1QBlock.build parameters' n' i' B' = .ok q') :
    (p ++ q = p' ++ q' →
        parameters.domain.radix.value = parameters'.domain.radix.value ∧
          parameters.tweak = parameters'.tweak ∧ n = n' ∧ i = i' ∧ B = B') ↔
      ¬ (parameters.domain.radix.value = parameters'.domain.radix.value ∧
        parameters.tweak = parameters'.tweak ∧ n = n' ∧
        (MixedWidth parameters.domain.radix.value parameters.tweak.length i B i' B' ∨
          MixedWidth parameters.domain.radix.value parameters.tweak.length i' B' i B)) := by
  obtain ⟨hRadix, hAccepts, hPEq, hQEq⟩ := blocks_of_build hP hQ
  obtain ⟨hRadix', hAccepts', hPEq', hQEq'⟩ := blocks_of_build hP' hQ'
  -- both halves are accepted by the first radix once the contexts agree
  have hTransfer : parameters.domain.radix.value = parameters'.domain.radix.value → n = n' →
      Ff1QBlock.Accepts parameters.domain.radix n i' B' := by
    rintro hSame rfl
    exact ⟨hAccepts'.low, hAccepts'.high, hAccepts'.round_lt, hAccepts'.length_eq,
      hSame ▸ hAccepts'.digits⟩
  constructor
  · rintro hSeparated ⟨hSame, hTweak, hLength, hMixed⟩
    have hSecond := hTransfer hSame hLength
    have hEq : q = q' := by
      rw [hQEq, hQEq', ← hSame, ← hTweak]
      rcases hMixed with hMixed | hMixed
      · exact (qBytes_eq_iff_of_width_lt hAccepts hSecond hMixed.wider).mpr hMixed
      · exact ((qBytes_eq_iff_of_width_lt hSecond hAccepts hMixed.wider).mpr hMixed).symm
    have hBlocks : p = p' := by rw [hPEq, hPEq', ← hSame, ← hTweak, ← hLength]
    obtain ⟨-, -, -, hRound, -⟩ := hSeparated (by rw [hBlocks, hEq])
    rcases hMixed with hMixed | hMixed
    · exact hMixed.round_ne hAccepts hSecond hRound
    · exact hMixed.round_ne hSecond hAccepts hRound.symm
  · intro hNot hEq
    have hAppend : p ++ q ++ [] = p' ++ q' := by rw [List.append_nil, hEq]
    obtain ⟨hSame, hLength, hTweak, hBlocks⟩ := context_of_append_eq hP hQ hP' hQ' hAppend
    rw [List.append_nil, hQEq, hQEq', ← hSame, ← hTweak] at hBlocks
    rcases qBytes_eq_cases hAccepts (hTransfer hSame hLength) hBlocks with
      ⟨hRound, hHalf⟩ | hMixed
    · exact ⟨hSame, hTweak, hLength, hRound, hHalf⟩
    · exact absurd ⟨hSame, hTweak, hLength, hMixed⟩ hNot

/-- Five decimal digits: round 0 on the half 256 and round 1 on the half 00 share an input. -/
theorem not_prf_input_separated :
    ¬ ∀ (parameters parameters' : FpeParameters) (n n' i i' : Nat) (B B' : List Nat)
      (p p' q q' : Bytes),
      Ff1ParameterBlock.build parameters n = .ok p → Ff1QBlock.build parameters n i B = .ok q →
      Ff1ParameterBlock.build parameters' n' = .ok p' →
      Ff1QBlock.build parameters' n' i' B' = .ok q' → p ++ q = p' ++ q' →
      parameters.domain.radix.value = parameters'.domain.radix.value ∧
        parameters.tweak = parameters'.tweak ∧ n = n' ∧ i = i' ∧ B = B' := by
  intro h
  have hRound : Ff1QBlock.build decimalParameters 5 0 [2, 5, 6] =
      .ok [0, 0, 0, 0, 0, 0, 0, 0, 0, 0, 0, 0, 0, 0, 1, 0] := rfl
  obtain ⟨-, -, -, hSame, -⟩ := h _ _ _ _ _ _ _ _ _ _ _ _ decimal_block hRound
    decimal_block decimal_round_one rfl
  cases hSame

/-- At five decimal digits, rounds 0 and 1 are separated on the halves 255 and 00. -/
theorem prf_input_separated_iff_decimal :
    ∃ p q q', Ff1ParameterBlock.build decimalParameters 5 = .ok p ∧
      Ff1QBlock.build decimalParameters 5 0 [2, 5, 5] = .ok q ∧
      Ff1QBlock.build decimalParameters 5 1 [0, 0] = .ok q' ∧ p ++ q ≠ p ++ q' := by
  refine ⟨_, _, _, decimal_block, decimal_round_zero, decimal_round_one, fun hEq => ?_⟩
  obtain ⟨-, -, -, hRound, -⟩ := (prf_input_separated_iff decimal_block decimal_round_zero
    decimal_block decimal_round_one).mpr (by
      rintro ⟨-, -, -, hMixed | hMixed⟩
      · exact absurd hMixed.value (by decide)
      · exact absurd hMixed.round_zero (by decide)) hEq
  cases hRound

/-! ## Prefix-freeness -/

theorem padding_add_mono (t : Nat) {b b' : Nat} (h : b ≤ b') :
    padding t b + b ≤ padding t b' + b' := by
  unfold padding
  omega

/-- Widths at most two apart: where the sizes differ, the narrow Q has less padding. -/
theorem padding_lt_of_size_lt {t b b' : Nat} (hClose : b' ≤ b + 2)
    (h : padding t b + b < padding t b' + b') : padding t b < padding t b' := by
  unfold padding at h ⊢
  omega

/-- A Q that continues another one is equal to it, where the widths are at most two apart
and the narrow one has a round byte other than zero: that byte would have to be a byte of
the longer padding. -/
theorem qBytes_prefix_eq {tweak : Bytes} {b b' i i' x x' : Nat} (hClose : b' ≤ b + 2)
    (hRound : b < b' → i % 256 ≠ 0) (h : qBytes tweak b i x <+: qBytes tweak b' i' x') :
    qBytes tweak b i x = qBytes tweak b' i' x' := by
  have hSizes := h.length_le
  rw [length_qBytes, length_qBytes] at hSizes
  by_cases hSame : padding tweak.length b + b = padding tweak.length b' + b'
  · apply h.eq_of_length
    rw [length_qBytes, length_qBytes]
    omega
  · have hWider : b < b' := by
      by_contra hNot
      have := padding_add_mono tweak.length (Nat.le_of_not_lt hNot)
      omega
    have hPadding := padding_lt_of_size_lt hClose
      (show padding tweak.length b + b < padding tweak.length b' + b' by omega)
    obtain ⟨s, hs⟩ := h
    have hByte := qBytes_padding tweak b' i' x' hPadding
    rw [← hs, List.getElem?_append_left (by rw [length_qBytes]; omega), qBytes_round] at hByte
    have hZero := congrArg UInt8.toNat (Option.some.inj hByte)
    rw [UInt8.toNat_ofNat'] at hZero
    exact absurd hZero (hRound hWider)

/-- The halves of one message differ by at most one digit, so by at most two bytes. -/
theorem width_le_add_two (hRadix : radix.value ≤ 65536) (h : Ff1QBlock.Accepts radix n i B)
    (h' : Ff1QBlock.Accepts radix n i' B') :
    byteWidth radix.value B'.length ≤ byteWidth radix.value B.length + 2 := by
  have hClose : B'.length ≤ B.length + 1 := by
    rw [h.length_eq, h'.length_eq]
    unfold Ff1QBlock.expectedBLength
    dsimp only
    split <;> split <;> omega
  exact (byteWidth_mono radix.pos hClose).trans (byteWidth_succ_le hRadix _)

/-- The narrow half of a message belongs to the odd rounds. -/
theorem odd_of_width_lt (h : Ff1QBlock.Accepts radix n i B) (h' : Ff1QBlock.Accepts radix n i' B')
    (hWidth : byteWidth radix.value B.length < byteWidth radix.value B'.length) : i % 2 = 1 := by
  by_contra hEven
  have hLength : B'.length ≤ B.length := by
    rw [h.length_eq, h'.length_eq]
    unfold Ff1QBlock.expectedBLength
    dsimp only
    rw [if_pos (show i % 2 = 0 by omega)]
    split <;> omega
  have hMono := byteWidth_mono radix.pos hLength
  omega

/-- **Prefix-freeness.** No PRF input is a proper prefix of another one. -/
theorem prf_inputs_prefix_free {parameters parameters' : FpeParameters} {n n' i i' : Nat}
    {B B' : List Nat} {p p' q q' : Bytes}
    (hP : Ff1ParameterBlock.build parameters n = .ok p)
    (hQ : Ff1QBlock.build parameters n i B = .ok q)
    (hP' : Ff1ParameterBlock.build parameters' n' = .ok p')
    (hQ' : Ff1QBlock.build parameters' n' i' B' = .ok q') :
    ¬ (p ++ q <+: p' ++ q' ∧ p ++ q ≠ p' ++ q') := by
  rintro ⟨⟨s, hPrefix⟩, hProper⟩
  obtain ⟨hRadix, hAccepts, -, hQEq⟩ := blocks_of_build hP hQ
  obtain ⟨-, hAccepts', -, hQEq'⟩ := blocks_of_build hP' hQ'
  obtain ⟨hSame, hLength, hTweak, hRest⟩ := context_of_append_eq hP hQ hP' hQ' hPrefix
  subst hLength
  have hSecond : Ff1QBlock.Accepts parameters.domain.radix n i' B' :=
    ⟨hAccepts'.low, hAccepts'.high, hAccepts'.round_lt, hAccepts'.length_eq,
      hSame ▸ hAccepts'.digits⟩
  have hOdd : byteWidth parameters.domain.radix.value B.length <
      byteWidth parameters.domain.radix.value B'.length → i % 256 ≠ 0 := by
    intro hWidth
    have hRound := hAccepts.round_lt
    have := odd_of_width_lt hAccepts hSecond hWidth
    omega
  rw [hQEq, hQEq', ← hSame, ← hTweak] at hRest
  have hEq := qBytes_prefix_eq (width_le_add_two hRadix hAccepts hSecond) hOdd ⟨s, hRest⟩
  rw [hEq, List.append_right_eq_self] at hRest
  rw [hRest, List.append_nil] at hPrefix
  exact hProper hPrefix

/-- Five decimal digits in rounds 0 and 1: neither input is a proper prefix of the other. -/
theorem prf_inputs_prefix_free_decimal :
    ∃ p q q', Ff1ParameterBlock.build decimalParameters 5 = .ok p ∧
      Ff1QBlock.build decimalParameters 5 0 [2, 5, 5] = .ok q ∧
      Ff1QBlock.build decimalParameters 5 1 [0, 0] = .ok q' ∧
      ¬ (p ++ q <+: p ++ q' ∧ p ++ q ≠ p ++ q') := by
  exact ⟨_, _, _, decimal_block, decimal_round_zero, decimal_round_one,
    prf_inputs_prefix_free decimal_block decimal_round_zero decimal_block decimal_round_one⟩

end IndicCrypt.Fpe
