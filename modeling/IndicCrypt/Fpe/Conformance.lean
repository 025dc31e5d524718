import IndicCrypt.Fpe.Ff1
import IndicCrypt.Fpe.Separation
import IndicCrypt.Fpe.Standard
import IndicCrypt.Library.CbcMac

/-!
# Conformance with the standard

The standard takes the byte lengths of a message from its longer half, the code takes them
from the half in hand. Where both halves of a message need the same number of bytes the two
agree round by round (`encrypt_eq_standard`).

Where they differ, the length of the message is odd and every odd round has another Q. The
inputs of the code and of the standard are then still prefix-free, so some block function
gives all of them the tag zero but the standard's input of round 9 (`exists_separating`).
With it the code returns the plaintext and the standard does not. `ff1_conforms_iff` states
both directions for every message.
-/

namespace IndicCrypt.Fpe

open Positional Run Crypto

/-! ## Halves of equal width -/

/-- The left half has `u` digits in even rounds and `v` digits in odd ones. -/
theorem Halves.left_length {radix : FpeRadix} {n i : Nat} {a b : List Nat}
    (h : Halves radix n i a b) : a.length = if i % 2 = 0 then n / 2 else n - n / 2 := by
  have hTotal := h.total
  have hRight := h.right_length
  unfold Ff1QBlock.expectedBLength at hRight
  dsimp only at hRight
  split <;> split at hRight <;> omega

/-- A half has `u` or `v` digits. -/
theorem Halves.width_eq {radix : FpeRadix} {n i : Nat} {a b : List Nat} (h : Halves radix n i a b)
    (hWidth : byteWidth radix.value (n / 2) = byteWidth radix.value (n - n / 2)) :
    byteWidth radix.value a.length = byteWidth radix.value (n - n / 2) ∧
      byteWidth radix.value b.length = byteWidth radix.value (n - n / 2) := by
  rw [h.left_length, h.right_length]
  unfold Ff1QBlock.expectedBLength
  by_cases hEven : i % 2 = 0
  · simp only [hEven, if_true, hWidth, and_self]
  · simp only [hEven, if_false, hWidth, and_self]

section Conforms

variable {E : BlockFunction} {parameters : FpeParameters} {n : Nat}
  (hRadix : parameters.domain.radix.value ≤ 65536) (hHigh : n ≤ 4096)
include hRadix hHigh

theorem maskWidth_le {m : Nat} (hm : m ≤ n) :
    Ff1Round.maskWidth (byteWidth parameters.domain.radix.value m) ≤ 8196 := by
  have hWidth := byteWidth_le_two_mul hRadix m
  unfold Ff1Round.maskWidth
  omega

/-- A round of the standard is a round of the network. -/
theorem standard_round_eq
    (hWidth : byteWidth parameters.domain.radix.value (n / 2) =
      byteWidth parameters.domain.radix.value (n - n / 2)) {i : Nat}
    (s : (network E parameters n).State i) :
    Standard.round E parameters.key.bytes parameters.tweak parameters.domain.radix.value n
        (byteWidth parameters.domain.radix.value (n - n / 2))
        (Ff1Round.maskWidth (byteWidth parameters.domain.radix.value (n - n / 2))) s.1 i =
      ((network E parameters n).round i s).1 := by
  obtain ⟨⟨a, b⟩, hHalves⟩ := s
  obtain ⟨hLeft, hRight⟩ := Halves.width_eq hHalves hWidth
  have hSmall := maskWidth_le hRadix hHigh (Nat.sub_le n (n / 2))
  rw [Feistel.Network.round_val]
  refine Prod.ext rfl ?_
  simp only [Standard.round, network, addMod, Ff1Round.roundMask]
  rw [Standard.drawnNumber_eq _ _ _ _ _ _ _ _ (by omega), ← Halves.left_length hHalves,
    Halves.total hHalves, hLeft, hRight]

/-- Equal widths: the code returns what the standard returns. -/
theorem encrypt_eq_standard {evp : Evp} (hE : AesBlock.Computes evp E)
    (hKey : AesBlock.ValidKeySize parameters.key.size) (hLow : 2 ≤ n)
    (hWidth : byteWidth parameters.domain.radix.value (n / 2) =
      byteWidth parameters.domain.radix.value (n - n / 2))
    (X : FormatDomain parameters.domain.radix n) :
    Ff1.encrypt evp parameters X.1 = .ok (Standard.encrypt E parameters.key.bytes
      parameters.tweak parameters.domain.radix.value X.1) := by
  have hLoop := Feistel.Network.foldl_rounds (network E parameters n)
    (fun i (_ : i < 10) s => standard_round_eq hRadix hHigh hWidth s)
    (split E parameters n (i := 0) rfl X)
  rw [encrypt_eq_permutation hE hKey hRadix hLow hHigh X]
  simp only [Standard.encrypt, Standard.encryptWith, Standard.numeralBytes_eq,
    Standard.numberBytes_eq, X.2.1]
  rw [show (X.1.take (n / 2), X.1.drop (n / 2)) = (split E parameters n (i := 0) rfl X).1 from rfl,
    hLoop]
  rfl

end Conforms

/-! ## A block function that tells two widths apart

The queries of a message are the PRF inputs of the ten rounds, with the numeral of the half
in hand written on `w` bytes in odd rounds by the code and on `b` bytes otherwise. While every
round draws zero, the halves only change places: `x₂` is the numeral of even rounds and `x₁`
of odd ones.
-/

/-- The half that enters round `i` on the right while the rounds draw zero. -/
def turn {α : Type} (x₁ x₂ : α) (i : Nat) : α := if i % 2 = 0 then x₂ else x₁

theorem turn_succ {α : Type} (x₁ x₂ : α) (i : Nat) : turn x₁ x₂ (i + 1) = turn x₂ x₁ i := by
  unfold turn
  split <;> split <;> first | rfl | omega

theorem apply_turn {α β : Type} (f : α → β) (x₁ x₂ : α) (i : Nat) :
    f (turn x₁ x₂ i) = turn (f x₁) (f x₂) i := by
  unfold turn
  split <;> rfl

/-- What holds of both halves holds of the one whose turn it is. -/
theorem turn_of {α : Type} {P : α → Prop} {x₁ x₂ : α} (h₁ : P x₁) (h₂ : P x₂) (i : Nat) :
    P (turn x₁ x₂ i) := by
  unfold turn
  split
  · exact h₂
  · exact h₁

/-- The width of the code in round `i`. -/
def roundWidth (w b i : Nat) : Nat := turn w b i

theorem roundWidth_cases (w b i : Nat) :
    i % 2 = 0 ∧ roundWidth w b i = b ∨ i % 2 = 1 ∧ roundWidth w b i = w := by
  unfold roundWidth turn
  by_cases hEven : i % 2 = 0
  · exact .inl ⟨hEven, if_pos hEven⟩
  · exact .inr ⟨by omega, if_neg hEven⟩

section Separating

variable {tweak : Bytes} {radix n w b x₁ x₂ : Nat}

/-- The query of round `i` with a numeral of `c` bytes. -/
def query (tweak : Bytes) (radix n x₁ x₂ c i : Nat) : Bytes :=
  Ff1Round.prfInput tweak radix n c i (turn x₁ x₂ i)

theorem sixteen_dvd_query (tweak : Bytes) (radix n x₁ x₂ c i : Nat) :
    16 ∣ (query tweak radix n x₁ x₂ c i).length := Ff1Round.sixteen_dvd_prfInput _ _ _ _ _ _

/-- The numeral of a round fits in the width of the code. -/
theorem turn_lt (hWidth : w ≤ b) (h₁ : x₁ < 256 ^ w) (h₂ : x₂ < 256 ^ b) (i : Nat) :
    turn x₁ x₂ i < 256 ^ roundWidth w b i ∧ turn x₁ x₂ i < 256 ^ b := by
  have hPow : (256 : Nat) ^ w ≤ 256 ^ b := Nat.pow_le_pow_right (by omega) hWidth
  unfold roundWidth turn
  split <;> omega

/-- Two queries, one a prefix of the other, are equal. -/
theorem query_prefix_eq (hWidth : w < b) (hClose : b ≤ w + 2) {c c' i i' : Nat} (hi : i < 10)
    (hc : c = b ∨ c = roundWidth w b i) (hc' : c' = b ∨ c' = roundWidth w b i')
    (h : query tweak radix n x₁ x₂ c i <+: query tweak radix n x₁ x₂ c' i') :
    query tweak radix n x₁ x₂ c i = query tweak radix n x₁ x₂ c' i' := by
  have hBounds : ∀ c i, c = b ∨ c = roundWidth w b i → w ≤ c ∧ c ≤ b := by
    intro c i hc
    have hCases := roundWidth_cases w b i
    omega
  obtain ⟨hLow, hHigh⟩ := hBounds c i hc
  obtain ⟨hLow', hHigh'⟩ := hBounds c' i' hc'
  -- only the code in an odd round has the narrow width
  have hOdd : c < c' → i % 256 ≠ 0 := by
    intro hLt
    have hCases := roundWidth_cases w b i
    omega
  unfold query Ff1Round.prfInput at h ⊢
  rw [List.prefix_append_right_inj] at h
  rw [qBytes_prefix_eq (by omega) hOdd h]

/-- The wide query of round 9 is no other one. -/
theorem query_ne_nine (hWidth : w < b) (h₁ : x₁ < 256 ^ w) (h₂ : x₂ < 256 ^ b) {c i : Nat}
    (hi : i < 10) (hc : c = b ∧ i ≠ 9 ∨ c = roundWidth w b i) :
    query tweak radix n x₁ x₂ c i ≠ query tweak radix n x₁ x₂ b 9 := by
  obtain ⟨hFits, hFitsWide⟩ := turn_lt hWidth.le h₁ h₂ i
  have hFits' : turn x₁ x₂ i < 256 ^ c := by
    rcases hc with ⟨rfl, -⟩ | rfl
    · exact hFitsWide
    · exact hFits
  have hNine := (turn_lt hWidth.le h₁ h₂ 9).2
  intro hEq
  unfold query Ff1Round.prfInput at hEq
  rw [List.append_cancel_left_eq] at hEq
  obtain ⟨-, hValue⟩ := (qBytes_eq_iff (by omega) (by omega) hFits' hNine).mp hEq
  by_cases hWide : c = b
  · subst hWide
    have hRound : i = 9 := by
      have hDiv := congrArg (· / 256 ^ c) hValue
      simpa [Nat.mul_comm _ (256 ^ c), Nat.mul_add_div, Nat.div_eq_of_lt hFits',
        Nat.div_eq_of_lt hNine] using hDiv
    subst hRound
    rcases hc with ⟨-, hNot⟩ | hNarrow
    · exact hNot rfl
    · have hCases := roundWidth_cases w c 9
      omega
  · -- an odd round of the code: the round byte would be at least 256
    have hNarrow : c = roundWidth w b i := by
      rcases hc with ⟨hSame, -⟩ | hNarrow
      · exact absurd hSame hWide
      · exact hNarrow
    have hCases := roundWidth_cases w b i
    have hOdd : i % 2 = 1 := by omega
    have hTurn : turn x₁ x₂ i = turn x₁ x₂ 9 := by
      simp [turn, hOdd]
    have hPow : 256 ^ c * 256 ≤ 256 ^ b := by
      rw [← pow_succ]
      exact Nat.pow_le_pow_right (by omega) (by omega)
    have hLeft : i * 256 ^ c ≤ 9 * 256 ^ c := Nat.mul_le_mul_right _ (by omega)
    have hPos : 0 < 256 ^ c := Nat.pow_pos (by omega)
    omega

/-! ### The block function -/

/-- The tag of the wide query of round 9. -/
def markerTag : Bytes := List.replicate 7 0 ++ [1] ++ List.replicate 8 0

/-- The tag of the target, and zero elsewhere. -/
def tagOf (target M : List Bytes) : Bytes :=
  if M = target then markerTag else List.replicate 16 0

theorem length_tagOf (target M : List Bytes) : (tagOf target M).length = 16 := by
  unfold tagOf
  split <;> rfl

/-- The inputs of the block function in the expansion of the two tags. -/
def counterInputs (count : Nat) : List Bytes :=
  (List.range count).flatMap fun j =>
    [BlockMode.xor (List.replicate 16 0) (counterBytes (j + 1)),
      BlockMode.xor markerTag (counterBytes (j + 1))]

/-- The queries of the ten rounds, of the standard and of the code. -/
def queries (tweak : Bytes) (radix n w b x₁ x₂ : Nat) : List (List Bytes) :=
  (List.range 10).flatMap fun i =>
    [BlockMode.blocks 16 (query tweak radix n x₁ x₂ b i),
      BlockMode.blocks 16 (query tweak radix n x₁ x₂ (roundWidth w b i) i)]

theorem mem_queries {M : List Bytes} :
    M ∈ queries tweak radix n w b x₁ x₂ ↔ ∃ i < 10, ∃ c, (c = b ∨ c = roundWidth w b i) ∧
      M = BlockMode.blocks 16 (query tweak radix n x₁ x₂ c i) := by
  simp only [queries, List.mem_flatMap, List.mem_range, List.mem_cons, List.not_mem_nil, or_false]
  constructor
  · rintro ⟨i, hi, hM | hM⟩
    · exact ⟨i, hi, b, Or.inl rfl, hM⟩
    · exact ⟨i, hi, _, Or.inr rfl, hM⟩
  · rintro ⟨i, hi, c, hc | hc, hM⟩
    · exact ⟨i, hi, Or.inl (hc ▸ hM)⟩
    · exact ⟨i, hi, Or.inr (hc ▸ hM)⟩

/-- The number of blocks of a query. -/
theorem length_blocks_query (hTweak : tweak.length ≤ 64) {c i : Nat} (hc : c ≤ 8192) :
    1 ≤ (BlockMode.blocks 16 (query tweak radix n x₁ x₂ c i)).length ∧
      (BlockMode.blocks 16 (query tweak radix n x₁ x₂ c i)).length ≤ 518 := by
  have hPadding := padding_lt tweak.length c
  rw [BlockMode.length_blocks, query, Ff1Round.prfInput, List.length_append, length_pBytes,
    length_qBytes]
  omega

/-- A query starts with P, and P with the byte 1. -/
theorem head_of_query {c i : Nat} {z : Bytes}
    (h : [z] <+: BlockMode.blocks 16 (query tweak radix n x₁ x₂ c i)) : z.head? = some 1 := by
  rw [query, Ff1Round.prfInput, BlockMode.blocks_append (by omega) (length_pBytes _ _ _)] at h
  obtain ⟨rest, hRest⟩ := h
  rw [List.singleton_append] at hRest
  rw [(List.cons.inj hRest).1]
  rfl

theorem length_counterInputs (count : Nat) : (counterInputs count).length = count * 2 := by
  simp [counterInputs, List.length_flatMap]

theorem head_of_counterInputs {count : Nat} (hCount : count ≤ 1024) {z : Bytes}
    (h : z ∈ counterInputs count) : z.head? ≠ some 1 := by
  obtain ⟨j, hj, hz⟩ := List.mem_flatMap.mp h
  have hj := List.mem_range.mp hj
  have hCounter : counterBytes (j + 1) = 0 :: bytes 15 (j + 1) := by
    rw [counterBytes, Nat.mod_eq_of_lt (by omega), bytes_succ, Nat.div_eq_of_lt (by omega)]
    rfl
  rw [hCounter] at hz
  rcases List.mem_cons.mp hz with rfl | hz
  · simp [BlockMode.xor, List.replicate_succ]
  · rw [List.mem_singleton.mp hz]
    simp [BlockMode.xor, markerTag, List.replicate_succ]

theorem width_le (hWidth : w < b) {c i : Nat} (hc : c = b ∨ c = roundWidth w b i) : c ≤ b := by
  have hCases := roundWidth_cases w b i
  omega

/-- No query of a message is a proper prefix of another one. -/
theorem queries_prefix_free (hWidth : w < b) (hClose : b ≤ w + 2) :
    ∀ M ∈ queries tweak radix n w b x₁ x₂, ∀ M' ∈ queries tweak radix n w b x₁ x₂,
      M <+: M' → M = M' := by
  intro M hM M' hM' hPrefix
  obtain ⟨i, hi, c, hc, rfl⟩ := mem_queries.mp hM
  obtain ⟨i', hi', c', hc', rfl⟩ := mem_queries.mp hM'
  have hBytes := BlockMode.prefix_of_blocks_prefix (by omega)
    (sixteen_dvd_query _ _ _ _ _ _ _) (sixteen_dvd_query _ _ _ _ _ _ _) hPrefix
  rw [query_prefix_eq hWidth hClose hi hc hc' hBytes]

/-- The wide query of round 9 has other blocks than any other query. -/
theorem blocks_query_ne_nine (hWidth : w < b) (h₁ : x₁ < 256 ^ w) (h₂ : x₂ < 256 ^ b) {c i : Nat}
    (hi : i < 10) (hc : c = b ∧ i ≠ 9 ∨ c = roundWidth w b i) :
    BlockMode.blocks 16 (query tweak radix n x₁ x₂ c i) ≠
      BlockMode.blocks 16 (query tweak radix n x₁ x₂ b 9) := by
  intro hEq
  have hFlat := congrArg List.flatten hEq
  rw [BlockMode.flatten_blocks (by omega) (sixteen_dvd_query _ _ _ _ _ _ _),
    BlockMode.flatten_blocks (by omega) (sixteen_dvd_query _ _ _ _ _ _ _)] at hFlat
  exact query_ne_nine hWidth h₁ h₂ hi hc hFlat

/-- A block function that gives the tag zero to all queries but the wide one of round 9, and
expands both tags by zeros. -/
structure Separates (E : BlockFunction) (key tweak : Bytes) (radix n w b x₁ x₂ : Nat) : Prop where
  tag : ∀ i < 10, ∀ c, (c = b ∧ i ≠ 9 ∨ c = roundWidth w b i) →
    BlockMode.cbcMac (E.apply key) (List.replicate 16 0)
      (BlockMode.blocks 16 (query tweak radix n x₁ x₂ c i)) = List.replicate 16 0
  marker : BlockMode.cbcMac (E.apply key) (List.replicate 16 0)
    (BlockMode.blocks 16 (query tweak radix n x₁ x₂ b 9)) = markerTag
  expand : ∀ z ∈ counterInputs 1024, E.apply key z = List.replicate 16 0

theorem exists_separating (radix n : Nat) (hTweak : tweak.length ≤ 64) (hWidth : w < b)
    (hClose : b ≤ w + 2) (hb : b ≤ 8192) (h₁ : x₁ < 256 ^ w) (h₂ : x₂ < 256 ^ b) :
    ∃ E : BlockFunction, ∀ key, Separates E key tweak radix n w b x₁ x₂ := by
  have hCount : (queries tweak radix n w b x₁ x₂).length ≤ 20 := by simp [queries]
  have hLengths : ∀ M ∈ queries tweak radix n w b x₁ x₂, 1 ≤ M.length ∧ M.length ≤ 518 := by
    intro M hM
    obtain ⟨i, hi, c, hc, rfl⟩ := mem_queries.mp hM
    exact length_blocks_query hTweak ((width_le hWidth hc).trans hb)
  have hBlocks : ∀ M ∈ queries tweak radix n w b x₁ x₂, ∀ z ∈ M, z.length = 16 := by
    intro M hM z hz
    obtain ⟨i, hi, c, hc, rfl⟩ := mem_queries.mp hM
    exact BlockMode.length_of_mem_blocks hz
  have hNonempty : ∀ M ∈ queries tweak radix n w b x₁ x₂, M ≠ [] := by
    intro M hM
    exact List.length_pos_iff.mp (hLengths M hM).1
  have hAvoid : ∀ M ∈ queries tweak radix n w b x₁ x₂, ∀ z, [z] <+: M → z ∉ counterInputs 1024 := by
    intro M hM z hz hMem
    obtain ⟨i, hi, c, hc, rfl⟩ := mem_queries.mp hM
    exact head_of_counterInputs le_rfl hMem (head_of_query hz)
  obtain ⟨E, hSize, hTags, hZero⟩ := BlockMode.exists_cbcMac_eq (k := 16) (m := 20) (l := 518) hCount
    (fun M hM => (hLengths M hM).2) hBlocks hNonempty (queries_prefix_free hWidth hClose)
    (tagOf (BlockMode.blocks 16 (query tweak radix n x₁ x₂ b 9))) (length_tagOf _)
    (counterInputs 1024) hAvoid (by rw [length_counterInputs]; norm_num)
  refine ⟨⟨fun _ z => E z, fun _ z => hSize z⟩, fun key => ⟨?_, ?_, hZero⟩⟩
  · intro i hi c hc
    have hMem : BlockMode.blocks 16 (query tweak radix n x₁ x₂ c i) ∈
        queries tweak radix n w b x₁ x₂ := by
      refine mem_queries.mpr ⟨i, hi, c, ?_, rfl⟩
      rcases hc with ⟨hc, -⟩ | hc
      · exact Or.inl hc
      · exact Or.inr hc
    exact (hTags _ hMem).trans (if_neg (blocks_query_ne_nine hWidth h₁ h₂ hi hc))
  · exact (hTags _ (mem_queries.mpr ⟨9, by omega, b, Or.inl rfl, rfl⟩)).trans (if_pos rfl)

end Separating

/-! ## Halves of different widths -/

section Draws

variable {E : BlockFunction} {key input : Bytes}
  (hExpand : ∀ z ∈ counterInputs 1024, E.apply key z = List.replicate 16 0)
include hExpand

/-- The tag zero is expanded to the number zero. -/
theorem drawMask_of_zero
    (hTag : BlockMode.cbcMac (E.apply key) (List.replicate 16 0) (BlockMode.blocks 16 input) =
      List.replicate 16 0) {d : Nat} (hd : d ≤ 16400) : Ff1Round.drawMask E key input d = 0 := by
  have hZero : ∀ i < 1024, E.apply key
      (BlockMode.xor (List.replicate 16 0) (counterBytes (i + 1))) = List.replicate 16 0 := by
    intro i hi
    apply hExpand
    exact List.mem_flatMap.mpr ⟨i, List.mem_range.mpr hi, by simp⟩
  have hZeros : (List.replicate 16 (0 : UInt8)).length = 16 := List.length_replicate
  have hStream := BlockMode.stream_of_zero (by omega) (E.length_apply key) hZeros hZero (d := d)
    (by omega)
  rw [Ff1Round.drawMask, hTag, hStream, List.replicate_append_replicate, List.take_replicate,
    byteNum_replicate_zero]

/-- The marker is expanded to a power of 256. -/
theorem drawMask_of_marker
    (hTag : BlockMode.cbcMac (E.apply key) (List.replicate 16 0) (BlockMode.blocks 16 input) =
      markerTag) {d : Nat} (hLow : 8 ≤ d) (hd : d ≤ 16400) :
    Ff1Round.drawMask E key input d = 256 ^ (d - 8) := by
  have hZero : ∀ i < 1024, E.apply key
      (BlockMode.xor markerTag (counterBytes (i + 1))) = List.replicate 16 0 := by
    intro i hi
    apply hExpand
    exact List.mem_flatMap.mpr ⟨i, List.mem_range.mpr hi, by simp⟩
  have hStream := BlockMode.stream_of_zero (by omega) (E.length_apply key)
    (show markerTag.length = 16 from rfl) hZero (d := d) (by omega)
  have hHead : (List.replicate 7 (0 : UInt8) ++ [1]).length = 8 := rfl
  rw [Ff1Round.drawMask, hTag, hStream, markerTag, List.append_assoc,
    List.replicate_append_replicate, List.take_append, hHead,
    List.take_of_length_le (hHead.trans_le hLow), List.take_replicate, byteNum_append,
    byteNum_replicate_zero, List.length_replicate, Nat.min_eq_left (by omega), byteNum_append]
  simp [byteNum]

end Draws

section Differs

variable {E : BlockFunction} {parameters : FpeParameters} {n : Nat} {X₁ X₂ : List Nat}

/-- While the code draws zero, the halves change places. -/
theorem rounds_turn (s : (network E parameters n).State 0) (hs : s.1 = (X₁, X₂))
    (h₁ : Digits parameters.domain.radix.value X₁) (h₂ : Digits parameters.domain.radix.value X₂)
    (hZero : ∀ i < 10, Ff1Round.roundMask E parameters (turn X₂ X₁ i).length (turn X₁ X₂ i) i = 0) :
    ∀ k ≤ 10, ((network E parameters n).rounds k s).1 = (turn X₂ X₁ k, turn X₁ X₂ k) := by
  intro k
  induction k with
  | zero =>
    intro _
    exact hs
  | succ k ih =>
    intro hk
    have hDigits : Digits parameters.domain.radix.value (turn X₂ X₁ k) := turn_of h₂ h₁ k
    rw [Feistel.Network.rounds_succ, Feistel.Network.round_val, ih (by omega), turn_succ, turn_succ]
    refine Prod.ext rfl ?_
    change addMod _ _ _ = _
    rw [hZero k (by omega), addMod_zero hDigits parameters.domain.radix.pos]

/-- While the standard draws zero, the halves change places. -/
theorem foldl_standard_turn {key tweak : Bytes} {radix b d : Nat} (hRadix : 0 < radix)
    (h₁ : Digits radix X₁) (h₂ : Digits radix X₂) (hLength₁ : X₁.length = n / 2)
    (hLength₂ : X₂.length = n - n / 2)
    (hZero : ∀ i < 9,
      Standard.drawnNumber E key tweak radix n b d i (num radix (turn X₁ X₂ i)) = 0) :
    ∀ k ≤ 9, (List.range k).foldl (Standard.round E key tweak radix n b d) (X₁, X₂) =
      (turn X₂ X₁ k, turn X₁ X₂ k) := by
  intro k
  induction k with
  | zero =>
    intro _
    rfl
  | succ k ih =>
    intro hk
    have hDigits : Digits radix (turn X₂ X₁ k) := turn_of h₂ h₁ k
    have hLength : (turn X₂ X₁ k).length = if k % 2 = 0 then n / 2 else n - n / 2 := by
      unfold turn
      split <;> assumption
    rw [List.range_succ, List.foldl_append, ih (by omega), List.foldl_cons, List.foldl_nil,
      turn_succ, turn_succ]
    refine Prod.ext rfl ?_
    simp only [Standard.round, hZero k (by omega), ← hLength, add_zero]
    rw [Nat.mod_eq_of_lt (num_lt hDigits), str_num hRadix hDigits]

end Differs

/-- The number of round 9 is not a multiple of the modulus. -/
theorem marker_residue {radix m : Nat} (hPos : 0 < byteWidth radix m) :
    0 < 256 ^ (Ff1Round.maskWidth (byteWidth radix m) - 8) ∧
      256 ^ (Ff1Round.maskWidth (byteWidth radix m) - 8) < radix ^ m := by
  refine ⟨Nat.pow_pos (by omega), ?_⟩
  have hWidth : Ff1Round.maskWidth (byteWidth radix m) - 8 ≤ byteWidth radix m - 1 := by
    unfold Ff1Round.maskWidth
    omega
  calc 256 ^ (Ff1Round.maskWidth (byteWidth radix m) - 8)
      ≤ 256 ^ (byteWidth radix m - 1) := Nat.pow_le_pow_right (by omega) hWidth
    _ < radix ^ m := pow_lt_of_lt_byteWidth (by omega)

theorem length_halves {radix : FpeRadix} {n : Nat} (X : FormatDomain radix n) :
    (X.1.take (n / 2)).length = n / 2 ∧ (X.1.drop (n / 2)).length = n - n / 2 := by
  rw [List.length_take, List.length_drop, X.2.1]
  omega

section Separated

variable {E : BlockFunction} {parameters : FpeParameters} {n : Nat}
  (hRadix : parameters.domain.radix.value ≤ 65536) (hLow : 2 ≤ n) (hHigh : n ≤ 4096)
  (X : FormatDomain parameters.domain.radix n)
  (hSeparates : Separates E parameters.key.bytes parameters.tweak parameters.domain.radix.value n
    (byteWidth parameters.domain.radix.value (n / 2))
    (byteWidth parameters.domain.radix.value (n - n / 2))
    (num parameters.domain.radix.value (X.1.take (n / 2)))
    (num parameters.domain.radix.value (X.1.drop (n / 2))))
include hRadix hLow hHigh hSeparates

omit hLow in
/-- The code draws zero in every round. -/
theorem roundMask_of_separates {i : Nat} (hi : i < 10) :
    Ff1Round.roundMask E parameters (turn (X.1.drop (n / 2)) (X.1.take (n / 2)) i).length
      (turn (X.1.take (n / 2)) (X.1.drop (n / 2)) i) i = 0 := by
  obtain ⟨hLength₁, hLength₂⟩ := length_halves X
  have hTotal : (turn (X.1.drop (n / 2)) (X.1.take (n / 2)) i).length +
      (turn (X.1.take (n / 2)) (X.1.drop (n / 2)) i).length = n := by
    unfold turn
    split <;> omega
  have hWidth : byteWidth parameters.domain.radix.value
      (turn (X.1.take (n / 2)) (X.1.drop (n / 2)) i).length =
        roundWidth (byteWidth parameters.domain.radix.value (n / 2))
          (byteWidth parameters.domain.radix.value (n - n / 2)) i := by
    rw [apply_turn List.length, hLength₁, hLength₂, apply_turn (byteWidth _), roundWidth]
  have hSmall : Ff1Round.maskWidth (byteWidth parameters.domain.radix.value
      (turn (X.1.drop (n / 2)) (X.1.take (n / 2)) i).length) ≤ 16400 :=
    (maskWidth_le hRadix hHigh (by omega)).trans (by omega)
  have hTag := hSeparates.tag i hi _ (Or.inr rfl)
  rw [query, ← hWidth, ← apply_turn (num _)] at hTag
  rw [Ff1Round.roundMask, hTotal]
  exact drawMask_of_zero hSeparates.expand hTag hSmall

/-- So the code returns the plaintext. -/
theorem encrypt_of_separates (hKey : AesBlock.ValidKeySize parameters.key.size) :
    Ff1.encrypt (Evp.ofFunction E) parameters X.1 = .ok X.1 := by
  rw [encrypt_eq_permutation (AesBlock.computes_ofFunction E) hKey hRadix hLow hHigh X]
  have hRounds := rounds_turn (split E parameters n (i := 0) rfl X) rfl (X.2.2.take _)
    (X.2.2.drop _) (fun i hi => roundMask_of_separates hRadix hHigh X hSeparates hi) 10
    le_rfl
  have hSame : (permutation E parameters n X).1 =
      ((network E parameters n).rounds 10 (split E parameters n (i := 0) rfl X)).1.1 ++
        ((network E parameters n).rounds 10 (split E parameters n (i := 0) rfl X)).1.2 := rfl
  rw [hSame, hRounds]
  exact congrArg _ (List.take_append_drop _ _)

/-- The standard draws zero up to round 8, and the marker in round 9. -/
theorem drawnNumber_of_separates :
    (∀ i < 9, Standard.drawnNumber E parameters.key.bytes parameters.tweak
      parameters.domain.radix.value n (byteWidth parameters.domain.radix.value (n - n / 2))
      (Ff1Round.maskWidth (byteWidth parameters.domain.radix.value (n - n / 2))) i
      (num parameters.domain.radix.value (turn (X.1.take (n / 2)) (X.1.drop (n / 2)) i)) = 0) ∧
    Standard.drawnNumber E parameters.key.bytes parameters.tweak
      parameters.domain.radix.value n (byteWidth parameters.domain.radix.value (n - n / 2))
      (Ff1Round.maskWidth (byteWidth parameters.domain.radix.value (n - n / 2))) 9
      (num parameters.domain.radix.value (X.1.take (n / 2))) =
        256 ^ (Ff1Round.maskWidth (byteWidth parameters.domain.radix.value (n - n / 2)) - 8) := by
  have hSmall := maskWidth_le hRadix hHigh (Nat.sub_le n (n / 2))
  have hPos := byteWidth_pos parameters.domain.radix.two_le (show 0 < n - n / 2 by omega)
  have hLarge : 8 ≤ Ff1Round.maskWidth (byteWidth parameters.domain.radix.value (n - n / 2)) := by
    unfold Ff1Round.maskWidth
    omega
  refine ⟨?_, ?_⟩
  · intro i hi
    rw [Standard.drawnNumber_eq _ _ _ _ _ _ _ _ (by omega), apply_turn (num _)]
    exact drawMask_of_zero hSeparates.expand
      (hSeparates.tag i (by omega) _ (Or.inl ⟨rfl, by omega⟩)) (by omega)
  · rw [Standard.drawnNumber_eq _ _ _ _ _ _ _ _ (by omega)]
    exact drawMask_of_marker hSeparates.expand hSeparates.marker hLarge (by omega)

/-- So the last round of the standard moves the second half, and the results differ. -/
theorem standard_ne_of_separates : Standard.encrypt E parameters.key.bytes parameters.tweak
    parameters.domain.radix.value X.1 ≠ X.1 := by
  obtain ⟨hLength₁, hLength₂⟩ := length_halves X
  obtain ⟨hZero, hMarker⟩ := drawnNumber_of_separates hRadix hLow hHigh X hSeparates
  have hPos := parameters.domain.radix.pos
  have hDigits₂ := X.2.2.drop (n / 2)
  have hLoop := foldl_standard_turn hPos (X.2.2.take (n / 2)) hDigits₂ hLength₁ hLength₂ hZero 9
    le_rfl
  obtain ⟨hResidue, hModulus⟩ := marker_residue
    (byteWidth_pos parameters.domain.radix.two_le (show 0 < n - n / 2 by omega))
  -- the result keeps the first half and moves the second one
  have hResult : Standard.encrypt E parameters.key.bytes parameters.tweak
      parameters.domain.radix.value X.1 =
        X.1.take (n / 2) ++ addMod parameters.domain.radix.value (X.1.drop (n / 2))
          (256 ^ (Ff1Round.maskWidth (byteWidth parameters.domain.radix.value (n - n / 2)) - 8)) := by
    have hOdd : (9 : Nat) % 2 ≠ 0 := by omega
    simp only [Standard.encrypt, Standard.encryptWith, Standard.numeralBytes_eq,
      Standard.numberBytes_eq, X.2.1]
    rw [show List.range 10 = List.range 9 ++ [9] from rfl, List.foldl_append, hLoop,
      List.foldl_cons, List.foldl_nil]
    simp only [Standard.round, turn, if_neg hOdd, hMarker, addMod, hLength₂]
  intro hEq
  have hHalf : addMod parameters.domain.radix.value (X.1.drop (n / 2))
      (256 ^ (Ff1Round.maskWidth (byteWidth parameters.domain.radix.value (n - n / 2)) - 8)) =
        X.1.drop (n / 2) := by
    have hSplit := hResult.symm.trans (hEq.trans (List.take_append_drop (n / 2) X.1).symm)
    exact List.append_cancel_left hSplit
  rw [← hLength₂] at hModulus
  exact addMod_ne hDigits₂ hResidue (hLength₂ ▸ hModulus) hHalf

end Separated

/-- **Conformance.** The code returns what the standard returns, for every block function,
exactly on the messages whose two halves need the same number of bytes. -/
theorem ff1_conforms_iff {parameters : FpeParameters}
    (hRadix : parameters.domain.radix.value ≤ 65536)
    (hKey : AesBlock.ValidKeySize parameters.key.size) {X : List Nat} (hLow : 2 ≤ X.length)
    (hHigh : X.length ≤ 4096) (hDigits : Digits parameters.domain.radix.value X) :
    (∀ (evp : Evp) (E : BlockFunction), AesBlock.Computes evp E →
      Ff1.encrypt evp parameters X = .ok (Standard.encrypt E parameters.key.bytes
        parameters.tweak parameters.domain.radix.value X)) ↔
    Ff1QBlock.requiredByteLength parameters.domain.radix (X.length / 2) =
      Ff1QBlock.requiredByteLength parameters.domain.radix (X.length - X.length / 2) := by
  have hPos := parameters.domain.radix.pos
  have hSmall : parameters.domain.radix.value < 2 ^ 32 := by omega
  rw [Ff1QBlock.requiredByteLength_eq hSmall, Ff1QBlock.requiredByteLength_eq hSmall]
  constructor
  · intro hConforms
    by_contra hWidth
    have hMono := byteWidth_mono hPos (show X.length / 2 ≤ X.length - X.length / 2 by omega)
    have hClose := (byteWidth_mono hPos
      (show X.length - X.length / 2 ≤ X.length / 2 + 1 by omega)).trans (byteWidth_succ_le hRadix _)
    have hBound := byteWidth_le_two_mul hRadix (X.length - X.length / 2)
    obtain ⟨hLength₁, hLength₂⟩ := length_halves ⟨X, rfl, hDigits⟩
    have hFits₁ := num_lt_byteWidth (hDigits.take (X.length / 2))
    have hFits₂ := num_lt_byteWidth (hDigits.drop (X.length / 2))
    rw [hLength₁] at hFits₁
    rw [hLength₂] at hFits₂
    obtain ⟨E, hSeparates⟩ := exists_separating parameters.domain.radix.value X.length
      parameters.tweak_le (by omega) hClose (by omega) hFits₁ hFits₂
    have hCode := encrypt_of_separates hRadix hLow hHigh ⟨X, rfl, hDigits⟩
      (hSeparates parameters.key.bytes) hKey
    have hStandard := hConforms (Evp.ofFunction E) E (AesBlock.computes_ofFunction E)
    rw [hCode, Except.ok.injEq] at hStandard
    exact standard_ne_of_separates hRadix hLow hHigh ⟨X, rfl, hDigits⟩
      (hSeparates parameters.key.bytes) hStandard.symm
  · intro hWidth evp E hE
    exact encrypt_eq_standard hRadix hHigh hE hKey hLow hWidth ⟨X, rfl, hDigits⟩

/-- Ten decimal digits: under AES the code returns what the standard returns. -/
theorem ff1_conforms_iff_decimal :
    Ff1.encrypt (Evp.ofFunction aes) decimalParameters [0, 1, 2, 3, 4, 5, 6, 7, 8, 9] =
      .ok (Standard.encrypt aes decimalParameters.key.bytes decimalParameters.tweak 10
        [0, 1, 2, 3, 4, 5, 6, 7, 8, 9]) := by
  have hDigits : Digits decimalParameters.domain.radix.value [0, 1, 2, 3, 4, 5, 6, 7, 8, 9] := by
    decide
  exact (ff1_conforms_iff decimalDomain_radix_le decimalParameters_keySize (by decide) (by decide)
    hDigits).mpr rfl _ _ (AesBlock.computes_ofFunction aes)

/-- Five decimal digits: under AES the code encrypts 00000 to 69664, the standard to 53556. -/
theorem not_ff1_conforms :
    ¬ ∀ (evp : Evp) (E : BlockFunction) (parameters : FpeParameters) (X : List Nat),
      AesBlock.Computes evp E → parameters.domain.radix.value ≤ 65536 →
      AesBlock.ValidKeySize parameters.key.size → 2 ≤ X.length → X.length ≤ 4096 →
      Digits parameters.domain.radix.value X →
      Ff1.encrypt evp parameters X = .ok (Standard.encrypt E parameters.key.bytes
        parameters.tweak parameters.domain.radix.value X) := by
  intro h
  have hConforms := h _ _ decimalParameters [0, 0, 0, 0, 0] (AesBlock.computes_ofFunction aes)
    decimalDomain_radix_le decimalParameters_keySize (by decide) (by decide) (by decide)
  have hCode : Ff1.encrypt (Evp.ofFunction aes) decimalParameters [0, 0, 0, 0, 0] =
      .ok [6, 9, 6, 6, 4] := by decide +kernel
  have hWidth : Standard.numeralBytes decimalParameters.domain.radix.value (5 - 5 / 2) = 2 := by
    rw [Standard.numeralBytes_eq]
    decide
  have hStandard : Standard.encrypt aes decimalParameters.key.bytes decimalParameters.tweak
      decimalParameters.domain.radix.value [0, 0, 0, 0, 0] = [5, 3, 5, 5, 6] := by
    rw [Standard.encrypt, show [0, 0, 0, 0, 0].length = 5 from rfl, hWidth]
    decide +kernel
  rw [hCode, hStandard] at hConforms
  cases hConforms

end IndicCrypt.Fpe
