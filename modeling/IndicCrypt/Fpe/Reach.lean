import IndicCrypt.Fpe.Ff1
import IndicCrypt.Fpe.Separation
import IndicCrypt.Fpe.Uniformity
import IndicCrypt.Library.CbcStream

/-!
# Tweaks have nothing to do with each other

Whatever ciphertexts are chosen for plaintexts under different tweaks, some block function makes
FF1 encrypt all of them so (`tweaks_are_separate`); in particular no ciphertext of a format is
out of reach for a plaintext of it. The halves of a message have to be equally wide in bytes, as
they are for every even length.

The halves between the plaintext and the ciphertext are zero. This fixes the number that is to be
drawn in a round up to a multiple of the modulus (`moveOf`), and the multiples are chosen such
that the drawn strings are far apart. Then their expansions do not come across each other, and
the streams of all rounds can be prescribed.
-/

namespace IndicCrypt.Fpe

open Positional Run Crypto

/-! ## Moves -/

/-- A number from `start` on that moves `x` to `y` modulo `M`. -/
def moveOf (M x y start : Nat) : Nat := (y + (M - x)) % M + start

theorem add_moveOf {M x y start : Nat} (hx : x < M) (hy : y < M) (hStart : M ∣ start) :
    (x + moveOf M x y start) % M = y := by
  obtain ⟨t, rfl⟩ := hStart
  have hSum : x + (y + (M - x)) = y + M := by omega
  rw [moveOf, ← Nat.add_assoc, Nat.add_mul_mod_self_left, Nat.add_mod_mod, hSum,
    Nat.add_mod_right, Nat.mod_eq_of_lt hy]

theorem moveOf_bounds {M : Nat} (hM : 0 < M) (x y start : Nat) :
    start ≤ moveOf M x y start ∧ moveOf M x y start < start + M := by
  have hLt := Nat.mod_lt (y + (M - x)) hM
  rw [moveOf]
  omega

theorem addMod_moveOf {β : Nat} (hβ : 0 < β) {Z Z' : List Nat} (hZ : Digits β Z)
    (hZ' : Digits β Z') (hLength : Z'.length = Z.length) {start : Nat}
    (hStart : β ^ Z.length ∣ start) :
    addMod β Z (moveOf (β ^ Z.length) (num β Z) (num β Z') start) = Z' := by
  apply num_inj hβ (digits_addMod hβ _ _) hZ' (by rw [length_addMod, hLength])
  rw [num_addMod, add_moveOf (num_lt hZ) (hLength ▸ num_lt hZ') hStart]

/-- Numbers at even multiples of a width have different quotients by what is less wide. -/
theorem eq_of_div_eq {W G q q' N N' : Nat} (hG : 0 < G) (hW : G ≤ W)
    (hN : 2 * q * W ≤ N ∧ N < 2 * q * W + W) (hN' : 2 * q' * W ≤ N' ∧ N' < 2 * q' * W + W)
    (h : N / G = N' / G) : q = q' := by
  have hApart : ∀ {q q' N N' : Nat}, N < 2 * q * W + W → 2 * q' * W ≤ N' → N / G = N' / G →
      ¬ q < q' := by
    intro q q' N N' hN hN' h hLt
    have hStep : 2 * (q + 1) * W ≤ 2 * q' * W :=
      Nat.mul_le_mul_right W (Nat.mul_le_mul_left 2 hLt)
    have hNext : 2 * (q + 1) * W = 2 * q * W + W + W := by ring
    have hDiv : (N + G) / G ≤ N' / G := Nat.div_le_div_right (by omega)
    rw [Nat.add_div_right N hG] at hDiv
    omega
  have hLeft := hApart hN.2 hN'.1 h
  have hRight := hApart hN'.2 hN.1 h.symm
  omega

/-! ## Strings that are far apart -/

theorem byteNum_take_bytes {d N : Nat} (a : Nat) (hN : N < 256 ^ d) :
    byteNum ((bytes d N).take a) = N / 256 ^ (d - a) := by
  have hNum := byteNum_append ((bytes d N).take a) ((bytes d N).drop a)
  have hRest := byteNum_lt ((bytes d N).drop a)
  have hLength : ((bytes d N).drop a).length = d - a := by rw [List.length_drop, length_bytes]
  rw [List.take_append_drop, byteNum_bytes, Nat.mod_eq_of_lt hN, hLength] at hNum
  rw [hLength] at hRest
  have hDiv := congrArg (· / 256 ^ (d - a)) hNum
  simp only [Nat.mul_comm _ (256 ^ (d - a)), Nat.mul_add_div (Nat.pow_pos (show 0 < 256 by omega)),
    Nat.div_eq_of_lt hRest, Nat.add_zero] at hDiv
  exact hDiv.symm

/-- The counter of an expansion is in the last two bytes. -/
theorem take_counterBytes {j : Nat} (hj : j < 65536) :
    (counterBytes j).take 14 = List.replicate 14 0 := by
  have hNum := byteNum_take_bytes 14 (show j < 256 ^ 16 by omega)
  apply byteNum_inj
  · rw [List.length_take, counterBytes, length_bytes, List.length_replicate]
    rfl
  · rw [counterBytes, Nat.mod_eq_of_lt (show j < 2 ^ 32 by omega), hNum, byteNum_replicate_zero]
    exact Nat.div_eq_of_lt (by omega)

theorem take_xor_counterBytes {R : Bytes} (hR : R.length = 16) {j : Nat} (hj : j < 65536) :
    (BlockMode.xor R (counterBytes j)).take 14 = R.take 14 := by
  have hLength : (R.take 14).length = 14 := by
    rw [List.length_take, hR]
    rfl
  have hTake : (BlockMode.xor R (counterBytes j)).take 14 =
      BlockMode.xor (R.take 14) ((counterBytes j).take 14) := List.take_zipWith
  have hZero := BlockMode.xor_zero (R.take 14)
  rw [hLength] at hZero
  rw [hTake, take_counterBytes hj, hZero]

theorem counterBytes_inj {j j' : Nat} (hj : j < 65536) (hj' : j' < 65536)
    (h : counterBytes j = counterBytes j') : j = j' := by
  rw [counterBytes, counterBytes, Nat.mod_eq_of_lt (by omega), Nat.mod_eq_of_lt (by omega)] at h
  exact bytes_inj (by omega) (by omega) h

/-! ## The queries of a round -/

/-- An input of the PRF is no prefix of another one with a numeral of the same width. -/
theorem prfInput_prefix {tweak tweak' : Bytes} {radix n b i i' x x' : Nat}
    (hRadix : radix ≤ 65536) (hHigh : n ≤ 4096) (hTweak : tweak.length ≤ 64)
    (hTweak' : tweak'.length ≤ 64) (hi : i < 10) (hi' : i' < 10) (hx : x < 256 ^ b)
    (hx' : x' < 256 ^ b)
    (h : Ff1Round.prfInput tweak radix n b i x <+: Ff1Round.prfInput tweak' radix n b i' x') :
    tweak = tweak' ∧ i = i' := by
  obtain ⟨rest, hRest⟩ := h
  unfold Ff1Round.prfInput at hRest
  rw [List.append_assoc] at hRest
  obtain ⟨hP, hQ⟩ := List.append_inj hRest (by simp)
  obtain ⟨-, -, hSize⟩ := pBytes_inj hRadix hRadix hHigh hHigh hTweak hTweak' hP
  have hSame : tweak = tweak' := by
    simp only [qBytes, List.append_assoc] at hQ
    exact (List.append_inj hQ hSize).1
  subst hSame
  have hLengths := congrArg List.length hQ
  rw [List.length_append, length_qBytes, length_qBytes, Nat.add_eq_left,
    List.length_eq_zero_iff] at hLengths
  rw [hLengths, List.append_nil] at hQ
  obtain ⟨-, hNum⟩ := (qBytes_eq_iff (by omega) (by omega) hx hx').mp hQ
  have hQuotient := congrArg (· / 256 ^ b) hNum
  have hPos : 0 < 256 ^ b := Nat.pow_pos (by omega)
  simp only [Nat.mul_comm _ (256 ^ b), Nat.mul_add_div hPos, Nat.div_eq_of_lt hx,
    Nat.div_eq_of_lt hx', Nat.add_zero] at hQuotient
  exact ⟨rfl, hQuotient⟩

theorem length_blocks_prfInput {tweak : Bytes} (hTweak : tweak.length ≤ 64) {b : Nat}
    (hb : b ≤ 8192) (radix n i x : Nat) :
    1 ≤ (BlockMode.blocks 16 (Ff1Round.prfInput tweak radix n b i x)).length ∧
      (BlockMode.blocks 16 (Ff1Round.prfInput tweak radix n b i x)).length ≤ 518 := by
  have hPadding := padding_lt tweak.length b
  rw [BlockMode.length_blocks, Ff1Round.prfInput, List.length_append, length_pBytes, length_qBytes]
  omega

/-- The first block is P, which starts with the byte 1. -/
theorem head_of_prfInput {tweak : Bytes} {radix n b i x : Nat} {z : Bytes}
    (h : [z] <+: BlockMode.blocks 16 (Ff1Round.prfInput tweak radix n b i x)) :
    z.head? = some 1 := by
  rw [Ff1Round.prfInput, BlockMode.blocks_append (by omega) (length_pBytes _ _ _)] at h
  obtain ⟨rest, hRest⟩ := h
  rw [List.singleton_append] at hRest
  rw [(List.cons.inj hRest).1]
  rfl

/-! ## Prescribed numbers -/

/-- What the PRF is to draw: a number for each of its inputs `ι`, which are written with numerals
of `b` bytes. The numbers leave the first of `d` bytes free, and where they take more than one
block they are apart from each other in its first 14 bytes. -/
structure Prescription (ι : Type) (b d : Nat) where
  tweak : ι → Bytes
  round : ι → Nat
  numeral : ι → Nat
  number : ι → Nat
  tweak_le : ∀ p, (tweak p).length ≤ 64
  round_lt : ∀ p, round p < 10
  numeral_lt : ∀ p, numeral p < 256 ^ b
  number_lt : ∀ p, number p < 256 ^ (d - 1)
  input_inj : ∀ p p', tweak p = tweak p' → round p = round p' → p = p'
  apart : 16 < d → ∀ p p', number p / 256 ^ (d - 14) = number p' / 256 ^ (d - 14) → p = p'

namespace Prescription

variable {ι : Type} {b d : Nat} (P : Prescription ι b d) (radix n : Nat)

def input (p : ι) : Bytes :=
  Ff1Round.prfInput (P.tweak p) radix n b (P.round p) (P.numeral p)

def query (p : ι) : List Bytes := BlockMode.blocks 16 (P.input radix n p)

/-- The bytes of the number, up to whole blocks. -/
def filled (p : ι) : Bytes :=
  bytes d (P.number p) ++ List.replicate (((d - 1) / 16 + 1) * 16 - d) 0

theorem length_filled (p : ι) : (P.filled p).length = ((d - 1) / 16 + 1) * 16 := by
  rw [filled, List.length_append, length_bytes, List.length_replicate]
  omega

theorem take_filled (p : ι) : (P.filled p).take d = bytes d (P.number p) := by
  rw [filled, List.take_append_of_le_length (length_bytes d _).ge,
    List.take_of_length_le (length_bytes d _).le]

theorem number_lt_pow (p : ι) : P.number p < 256 ^ d :=
  (P.number_lt p).trans_le (Nat.pow_le_pow_right (by omega) (Nat.sub_le d 1))

theorem head_filled (hd : 0 < d) (p : ι) : (P.filled p).head? = some 0 := by
  obtain ⟨e, rfl⟩ : ∃ e, d = e + 1 := ⟨d - 1, by omega⟩
  have hHead : P.number p / 256 ^ e = 0 := Nat.div_eq_of_lt (P.number_lt p)
  rw [filled, bytes_succ, hHead]
  rfl

variable {radix n}

/-- No query continues another one. -/
theorem query_prefix (hRadix : radix ≤ 65536) (hHigh : n ≤ 4096) {p p' : ι}
    (h : P.query radix n p <+: P.query radix n p') : p = p' := by
  have hInput := BlockMode.prefix_of_blocks_prefix (by omega)
    (Ff1Round.sixteen_dvd_prfInput _ _ _ _ _ _) (Ff1Round.sixteen_dvd_prfInput _ _ _ _ _ _) h
  obtain ⟨hTweak, hRound⟩ := prfInput_prefix hRadix hHigh (P.tweak_le p) (P.tweak_le p')
    (P.round_lt p) (P.round_lt p') (P.numeral_lt p) (P.numeral_lt p') hInput
  exact P.input_inj p p' hTweak hRound

theorem query_injective (hRadix : radix ≤ 65536) (hHigh : n ≤ 4096) :
    Function.Injective (P.query radix n) := by
  intro p p' hEq
  exact P.query_prefix hRadix hHigh (hEq ▸ List.prefix_rfl)

/-- Where the numbers take more than one block, the inputs of the expansions are different. -/
theorem eq_of_xor_eq (hd : 16 < d) {p p' : ι} {j j' : Nat} (hj : j < 65535) (hj' : j' < 65535)
    (h : BlockMode.xor ((P.filled p).take 16) (counterBytes (j + 1)) =
      BlockMode.xor ((P.filled p').take 16) (counterBytes (j' + 1))) : p = p' ∧ j = j' := by
  have hLength (p : ι) : ((P.filled p).take 16).length = 16 := by
    rw [List.length_take, length_filled]
    omega
  have hNumber (p : ι) : byteNum (((P.filled p).take 16).take 14) =
      P.number p / 256 ^ (d - 14) := by
    rw [List.take_take, filled,
      List.take_append_of_le_length (by rw [length_bytes]; omega)]
    exact byteNum_take_bytes 14 (P.number_lt_pow p)
  have hTake := congrArg (List.take 14) h
  rw [take_xor_counterBytes (hLength p) (by omega), take_xor_counterBytes (hLength p') (by omega)]
    at hTake
  have hSame : p = p' := by
    apply P.apart hd
    rw [← hNumber p, ← hNumber p', hTake]
  subst hSame
  have hCounter := BlockMode.xor_right_inj (by rw [counterBytes, length_bytes, hLength])
    (by rw [counterBytes, length_bytes, hLength]) h
  have hNext := counterBytes_inj (by omega) (by omega) hCounter
  exact ⟨rfl, by omega⟩

/-- What the expansion of a tag is to be. -/
noncomputable def answer (radix n : Nat) (M : List Bytes) : Bytes :=
  Function.extend (P.query radix n) P.filled
    (fun _ => List.replicate (((d - 1) / 16 + 1) * 16) 0) M

theorem length_answer (M : List Bytes) :
    (P.answer radix n M).length = ((d - 1) / 16 + 1) * 16 := by
  classical
  unfold answer
  rw [Function.extend_def]
  split
  · exact P.length_filled _
  · exact List.length_replicate

theorem answer_query (hRadix : radix ≤ 65536) (hHigh : n ≤ 4096) (p : ι) :
    P.answer radix n (P.query radix n p) = P.filled p :=
  (P.query_injective hRadix hHigh).extend_apply _ _ p

/-- An input of an expansion starts with the byte 0. -/
theorem head_of_expansionInput (hd : 0 < d) {p : ι} {j : Nat} (hj : j < 65535) :
    (BlockMode.xor ((P.filled p).take 16) (counterBytes (j + 1))).head? = some 0 := by
  have hCounter : counterBytes (j + 1) = 0 :: bytes 15 (j + 1) := by
    rw [counterBytes, Nat.mod_eq_of_lt (by omega), bytes_succ, Nat.div_eq_of_lt (by omega)]
    rfl
  obtain ⟨rest, hRest⟩ := List.head?_eq_some_iff.mp (P.head_filled hd p)
  rw [hCounter, hRest]
  rfl

/-- Some block function draws all the numbers. -/
theorem exists_drawMask_eq [Fintype ι] (hCount : Fintype.card ι ≤ 10 * 2 ^ 18)
    (hRadix : radix ≤ 65536) (hHigh : n ≤ 4096) (hb : b ≤ 8192) (hd : 0 < d) (hLarge : d ≤ 8196) :
    ∃ E : BlockFunction, ∀ key p,
      Ff1Round.drawMask E key (P.input radix n p) d = P.number p := by
  have hMem : ∀ M ∈ Finset.univ.toList.map (P.query radix n), ∃ p, P.query radix n p = M := by
    intro M hM
    obtain ⟨p, -, hp⟩ := List.mem_map.mp hM
    exact ⟨p, hp⟩
  have hLengths : ∀ M ∈ Finset.univ.toList.map (P.query radix n),
      1 ≤ M.length ∧ M.length ≤ 518 := by
    intro M hM
    obtain ⟨p, rfl⟩ := hMem M hM
    exact length_blocks_prfInput (P.tweak_le p) hb radix n _ _
  have hBlocks : ∀ M ∈ Finset.univ.toList.map (P.query radix n), ∀ z ∈ M, z.length = 16 := by
    intro M hM z hz
    obtain ⟨p, rfl⟩ := hMem M hM
    exact BlockMode.length_of_mem_blocks hz
  have hFree : ∀ M ∈ Finset.univ.toList.map (P.query radix n),
      ∀ M' ∈ Finset.univ.toList.map (P.query radix n), M <+: M' → M = M' := by
    intro M hM M' hM' hPrefix
    obtain ⟨p, rfl⟩ := hMem M hM
    obtain ⟨p', rfl⟩ := hMem M' hM'
    rw [P.query_prefix hRadix hHigh hPrefix]
  have hTag (M : List Bytes) : ((P.answer radix n M).take 16).length = 16 := by
    rw [List.length_take, length_answer]
    omega
  have hFollow : ∀ M, ∀ j < (d - 1) / 16,
      (((P.answer radix n M).drop ((j + 1) * 16)).take 16).length = 16 := by
    intro M j hj
    rw [List.length_take, List.length_drop, length_answer]
    omega
  have hDistinct : BlockMode.Distinct counterBytes ((d - 1) / 16)
      (fun M => (P.answer radix n M).take 16) (Finset.univ.toList.map (P.query radix n)) := by
    intro M hM M' hM' j hj j' hj' hEq
    obtain ⟨p, rfl⟩ := hMem M hM
    obtain ⟨p', rfl⟩ := hMem M' hM'
    simp only [P.answer_query hRadix hHigh] at hEq
    obtain ⟨rfl, rfl⟩ := P.eq_of_xor_eq (by omega) (by omega) (by omega) hEq
    exact ⟨rfl, rfl⟩
  have hHead : ∀ M ∈ Finset.univ.toList.map (P.query radix n), ∀ z, [z] <+: M →
      z ∉ BlockMode.expansionInputs counterBytes ((d - 1) / 16)
        (fun M => (P.answer radix n M).take 16) (Finset.univ.toList.map (P.query radix n)) := by
    intro M hM z hz hInput
    obtain ⟨p, rfl⟩ := hMem M hM
    obtain ⟨M', hM', j, hj, rfl⟩ := BlockMode.mem_expansionInputs.mp hInput
    obtain ⟨p', rfl⟩ := hMem M' hM'
    have hOne := head_of_prfInput hz
    rw [P.answer_query hRadix hHigh, P.head_of_expansionInput hd (by omega)] at hOne
    cases hOne
  have hRoom : (10 * 2 ^ 18 * 518 + 10 * 2 ^ 18 * ((d - 1) / 16) +
      10 * 2 ^ 18 * (518 + 1) * (10 * 2 ^ 18 * 518)) * (10 * 2 ^ 18 * 518) < 256 ^ 16 := by
    have hExpansion : (d - 1) / 16 ≤ 512 := by omega
    calc (10 * 2 ^ 18 * 518 + 10 * 2 ^ 18 * ((d - 1) / 16) +
          10 * 2 ^ 18 * (518 + 1) * (10 * 2 ^ 18 * 518)) * (10 * 2 ^ 18 * 518)
        ≤ (10 * 2 ^ 18 * 518 + 10 * 2 ^ 18 * 512 +
          10 * 2 ^ 18 * (518 + 1) * (10 * 2 ^ 18 * 518)) * (10 * 2 ^ 18 * 518) := by gcongr
      _ < 256 ^ 16 := by norm_num
  obtain ⟨E, hE, hDraws⟩ := BlockMode.exists_stream_eq
    (by rwa [List.length_map, Finset.length_toList])
    (fun M hM => (hLengths M hM).2) hBlocks
    (fun M hM => List.length_pos_iff.mp (hLengths M hM).1) hFree hTag hFollow hDistinct hHead hRoom
  refine ⟨⟨fun _ z => E z, fun _ z => hE z⟩, fun key p => ?_⟩
  obtain ⟨hMac, hExpand⟩ :=
    hDraws _ (List.mem_map_of_mem (Finset.mem_toList.mpr (Finset.mem_univ p)))
  simp only [P.answer_query hRadix hHigh] at hMac hExpand
  have hStream := BlockMode.stream_of_blocks (by omega) hE (P.length_filled p) hExpand
    (show d ≤ ((d - 1) / 16 + 1) * 16 by omega)
  rw [Ff1Round.drawMask]
  change byteNum (BlockMode.stream E counterBytes
    (BlockMode.cbcMac E (List.replicate 16 0) (P.query radix n p)) 16 d) = P.number p
  rw [hMac, hStream, take_filled, byteNum_bytes, Nat.mod_eq_of_lt (P.number_lt_pow p)]

end Prescription

/-! ## From plaintexts to ciphertexts -/

/-- The number of digits of the half that enters round `k` on the left. -/
def halfLength (n k : Nat) : Nat := if k % 2 = 0 then n / 2 else n - n / 2

theorem halfLength_add_succ (n k : Nat) : halfLength n k + halfLength n (k + 1) = n := by
  unfold halfLength
  split <;> split <;> omega

theorem halfLength_add_two (n k : Nat) : halfLength n (k + 2) = halfLength n k := by
  rw [halfLength, Nat.add_mod_right, halfLength]

theorem halfLength_le (n k : Nat) : halfLength n k ≤ n - n / 2 := by
  unfold halfLength
  split <;> omega

/-- The halves from a plaintext to a ciphertext. -/
def trail (n : Nat) (X Y : List Nat) : Nat → List Nat
  | 0 => X.take (n / 2)
  | 1 => X.drop (n / 2)
  | 10 => Y.take (n / 2)
  | 11 => Y.drop (n / 2)
  | k => List.replicate (halfLength n k) 0

theorem length_trail {n : Nat} {X Y : List Nat} (hX : X.length = n) (hY : Y.length = n) (k : Nat) :
    (trail n X Y k).length = halfLength n k := by
  unfold trail
  split
  · rw [List.length_take, hX]
    exact Nat.min_eq_left (Nat.div_le_self n 2)
  · rw [List.length_drop, hX]
    rfl
  · rw [List.length_take, hY]
    exact Nat.min_eq_left (Nat.div_le_self n 2)
  · rw [List.length_drop, hY]
    rfl
  · exact List.length_replicate

theorem digits_trail {β : Nat} (hβ : 0 < β) {X Y : List Nat} (hX : Digits β X) (hY : Digits β Y)
    (n k : Nat) : Digits β (trail n X Y k) := by
  unfold trail
  split
  · exact hX.take _
  · exact hX.drop _
  · exact hY.take _
  · exact hY.drop _
  · exact digits_replicate_zero hβ _

section Trails

variable {radix : FpeRadix} {n count : Nat} (X Y : Fin count → FormatDomain radix n)

/-- The rounds of all messages, one after the other. -/
def place (p : Fin count × Fin 10) : Nat := p.1.1 * 10 + p.2.1

omit X Y in
theorem place_injective : Function.Injective (place : Fin count × Fin 10 → Nat) := by
  intro p p' hEq
  unfold place at hEq
  have hRound := p.2.isLt
  have hRound' := p'.2.isLt
  refine Prod.ext (Fin.ext ?_) (Fin.ext ?_) <;> omega

omit X Y in
theorem place_lt (hCount : count ≤ 2 ^ 18) (p : Fin count × Fin 10) : place p < 10 * 2 ^ 18 := by
  have hMessage := p.1.isLt
  have hRound := p.2.isLt
  unfold place
  omega

/-- The number that takes round `p.2` of message `p.1` along its trail. -/
def drawn (p : Fin count × Fin 10) : Nat :=
  moveOf (radix.value ^ halfLength n p.2) (num radix.value (trail n (X p.1).1 (Y p.1).1 p.2))
    (num radix.value (trail n (X p.1).1 (Y p.1).1 (p.2 + 2)))
    (2 * place p * radix.value ^ (n - n / 2))

theorem drawn_bounds (p : Fin count × Fin 10) :
    2 * place p * radix.value ^ (n - n / 2) ≤ drawn X Y p ∧
      drawn X Y p < 2 * place p * radix.value ^ (n - n / 2) +
        radix.value ^ (n - n / 2) := by
  have hPow := Nat.pow_le_pow_right radix.pos (halfLength_le n p.2)
  obtain ⟨hLow, hHigh⟩ := moveOf_bounds (Nat.pow_pos radix.pos (n := halfLength n p.2))
    (num radix.value (trail n (X p.1).1 (Y p.1).1 p.2))
    (num radix.value (trail n (X p.1).1 (Y p.1).1 (p.2 + 2)))
    (2 * place p * radix.value ^ (n - n / 2))
  exact ⟨hLow, lt_of_lt_of_le hHigh (Nat.add_le_add_left hPow _)⟩

theorem drawn_lt (hCount : count ≤ 2 ^ 18) (p : Fin count × Fin 10) :
    drawn X Y p <
      256 ^ (Ff1Round.maskWidth (byteWidth radix.value (n - n / 2)) - 1) := by
  have hIndex : 2 * place p + 1 ≤ 256 ^ 3 := by
    have hPlace := place_lt hCount p
    omega
  calc drawn X Y p
      < (2 * place p + 1) * radix.value ^ (n - n / 2) := by
        rw [Nat.add_mul, one_mul]
        exact (drawn_bounds X Y p).2
    _ ≤ 256 ^ 3 * 256 ^ byteWidth radix.value (n - n / 2) :=
        Nat.mul_le_mul hIndex (pow_le_byteWidth _ _)
    _ = 256 ^ (3 + byteWidth radix.value (n - n / 2)) := (pow_add _ _ _).symm
    _ ≤ 256 ^ (Ff1Round.maskWidth (byteWidth radix.value (n - n / 2)) - 1) := by
        apply Nat.pow_le_pow_right (by omega)
        unfold Ff1Round.maskWidth
        omega

theorem drawn_apart (hLarge : 16 < Ff1Round.maskWidth (byteWidth radix.value (n - n / 2)))
    (p p' : Fin count × Fin 10)
    (h : drawn X Y p / 256 ^ (Ff1Round.maskWidth (byteWidth radix.value (n - n / 2)) - 14) =
      drawn X Y p' / 256 ^ (Ff1Round.maskWidth (byteWidth radix.value (n - n / 2)) - 14)) :
    p = p' := by
  have hWidth : 256 ^ (Ff1Round.maskWidth (byteWidth radix.value (n - n / 2)) - 14) ≤
      radix.value ^ (n - n / 2) := by
    apply (pow_lt_of_lt_byteWidth _).le
    unfold Ff1Round.maskWidth at hLarge ⊢
    omega
  exact place_injective
    (eq_of_div_eq (Nat.pow_pos (by omega)) hWidth (drawn_bounds X Y p) (drawn_bounds X Y p') h)

variable (tweak : Fin count → Bytes) (hTweak : ∀ j, (tweak j).length ≤ 64)
  (hInjective : Function.Injective tweak) (hCount : count ≤ 2 ^ 18)
  (hWidth : byteWidth radix.value (n / 2) = byteWidth radix.value (n - n / 2))
include hWidth

omit X Y in
theorem byteWidth_halfLength (k : Nat) :
    byteWidth radix.value (halfLength n k) = byteWidth radix.value (n - n / 2) := by
  unfold halfLength
  split
  · exact hWidth
  · rfl

/-- The rounds of all messages take their trails. -/
def trails : Prescription (Fin count × Fin 10) (byteWidth radix.value (n - n / 2))
    (Ff1Round.maskWidth (byteWidth radix.value (n - n / 2))) where
  tweak p := tweak p.1
  round p := p.2
  numeral p := num radix.value (trail n (X p.1).1 (Y p.1).1 (p.2 + 1))
  number := drawn X Y
  tweak_le p := hTweak p.1
  round_lt p := p.2.isLt
  numeral_lt p := by
    have hDigits := digits_trail radix.pos (X p.1).2.2 (Y p.1).2.2 n (p.2 + 1)
    have hFits := num_lt_byteWidth hDigits
    rwa [length_trail (X p.1).2.1 (Y p.1).2.1, byteWidth_halfLength hWidth] at hFits
  number_lt := drawn_lt X Y hCount
  input_inj p p' hSame hRound := Prod.ext (hInjective hSame) (Fin.ext hRound)
  apart := drawn_apart X Y

end Trails

section Reaches

variable {E : BlockFunction} {parameters : FpeParameters} {n count : Nat}
  {X Y : Fin count → FormatDomain parameters.domain.radix n} {j : Fin count}
  (hWidth : byteWidth parameters.domain.radix.value (n / 2) =
    byteWidth parameters.domain.radix.value (n - n / 2))
  (hDraws : ∀ i : Fin 10, Ff1Round.drawMask E parameters.key.bytes
    (Ff1Round.prfInput parameters.tweak parameters.domain.radix.value n
      (byteWidth parameters.domain.radix.value (n - n / 2)) i
      (num parameters.domain.radix.value (trail n (X j).1 (Y j).1 (i + 1))))
    (Ff1Round.maskWidth (byteWidth parameters.domain.radix.value (n - n / 2))) = drawn X Y (j, i))
include hWidth hDraws

/-- A round that draws its number takes the trail. -/
theorem mask_of_draws {i : Nat} (hi : i < 10) :
    (network E parameters n).mask i (trail n (X j).1 (Y j).1 i) (trail n (X j).1 (Y j).1 (i + 1)) =
      trail n (X j).1 (Y j).1 (i + 2) := by
  have hPos := parameters.domain.radix.pos
  have hLength := length_trail (X j).2.1 (Y j).2.1
  have hDigits := digits_trail hPos (X j).2.2 (Y j).2.2 n
  have hMask : Ff1Round.roundMask E parameters (trail n (X j).1 (Y j).1 i).length
      (trail n (X j).1 (Y j).1 (i + 1)) i = drawn X Y (j, ⟨i, hi⟩) := by
    rw [Ff1Round.roundMask, hLength, hLength, halfLength_add_succ, byteWidth_halfLength hWidth,
      byteWidth_halfLength hWidth]
    exact hDraws ⟨i, hi⟩
  change addMod _ _ (Ff1Round.roundMask E parameters _ _ i) = _
  rw [hMask, drawn, ← hLength]
  refine addMod_moveOf hPos (hDigits i) (hDigits (i + 2)) ?_ (Dvd.dvd.mul_left ?_ _)
  · rw [hLength, hLength, halfLength_add_two]
  · exact pow_dvd_pow _ ((hLength i).trans_le (halfLength_le n i))

/-- So the rounds take the plaintext to the ciphertext. -/
theorem permutation_of_draws : permutation E parameters n (X j) = Y j := by
  have hRounds : ((network E parameters n).rounds 10 (split E parameters n (i := 0) rfl (X j))).1 =
      (trail n (X j).1 (Y j).1 10, trail n (X j).1 (Y j).1 11) :=
    Feistel.Network.rounds_path _ _ rfl fun i hi => mask_of_draws hWidth hDraws hi
  apply Subtype.ext
  have hSame : (permutation E parameters n (X j)).1 =
      ((network E parameters n).rounds 10 (split E parameters n (i := 0) rfl (X j))).1.1 ++
        ((network E parameters n).rounds 10 (split E parameters n (i := 0) rfl (X j))).1.2 := rfl
  rw [hSame, hRounds]
  exact List.take_append_drop _ _

theorem encrypt_of_draws {evp : Evp} (hE : AesBlock.Computes evp E)
    (hKey : AesBlock.ValidKeySize parameters.key.size)
    (hRadix : parameters.domain.radix.value ≤ 65536) (hLow : 2 ≤ n) (hHigh : n ≤ 4096) :
    Ff1.encrypt evp parameters (X j).1 = .ok (Y j).1 := by
  rw [encrypt_eq_permutation hE hKey hRadix hLow hHigh, permutation_of_draws hWidth hDraws]

end Reaches

/-- **Tweaks are separate.** For messages under different tweaks any ciphertexts can be chosen:
some block function makes the code return all of them. -/
theorem tweaks_are_separate {domain : FpeDomain} {key : Key} (hRadix : domain.radix.value ≤ 65536)
    (hKey : AesBlock.ValidKeySize key.size) {n : Nat} (hLow : 2 ≤ n) (hHigh : n ≤ 4096)
    (hWidth : Ff1QBlock.requiredByteLength domain.radix (n / 2) =
      Ff1QBlock.requiredByteLength domain.radix (n - n / 2))
    {count : Nat} (hCount : count ≤ 2 ^ 18) (tweak : Fin count → Bytes)
    (hTweak : ∀ j, (tweak j).length ≤ 64) (hInjective : Function.Injective tweak)
    (X Y : Fin count → FormatDomain domain.radix n) :
    ∃ E : BlockFunction, ∀ evp, AesBlock.Computes evp E → ∀ j,
      Ff1.encrypt evp ⟨domain, key, tweak j, hTweak j⟩ (X j).1 = .ok (Y j).1 := by
  have hSmall : domain.radix.value < 2 ^ 32 := by omega
  rw [Ff1QBlock.requiredByteLength_eq hSmall, Ff1QBlock.requiredByteLength_eq hSmall] at hWidth
  have hBytes := byteWidth_le_two_mul hRadix (n - n / 2)
  have hMaskLow : 0 < Ff1Round.maskWidth (byteWidth domain.radix.value (n - n / 2)) := by
    unfold Ff1Round.maskWidth
    omega
  have hMaskHigh : Ff1Round.maskWidth (byteWidth domain.radix.value (n - n / 2)) ≤ 8196 := by
    unfold Ff1Round.maskWidth
    omega
  have hRounds : Fintype.card (Fin count × Fin 10) ≤ 10 * 2 ^ 18 := by
    rw [Fintype.card_prod, Fintype.card_fin, Fintype.card_fin]
    omega
  obtain ⟨E, hDraws⟩ := (trails X Y tweak hTweak hInjective hCount hWidth).exists_drawMask_eq
    (n := n) hRounds hRadix hHigh (by omega) hMaskLow hMaskHigh
  refine ⟨E, fun evp hE j => ?_⟩
  exact @encrypt_of_draws E ⟨domain, key, tweak j, hTweak j⟩ n count X Y j hWidth
    (fun i => hDraws key.bytes (j, i)) evp hE hKey hRadix hLow hHigh

/-- The digits 01 under the empty tweak and under a tweak of one byte. -/
theorem tweaks_are_separate_decimal :
    ∃ (E : BlockFunction) (parameters : FpeParameters), parameters.domain = decimalDomain ∧
      parameters.key = decimalParameters.key ∧ parameters.tweak = [1] ∧
      Ff1.encrypt (Evp.ofFunction E) decimalParameters [0, 1] = .ok [0, 9] ∧
      Ff1.encrypt (Evp.ofFunction E) parameters [0, 1] = .ok [1, 9] := by
  have hTweak : ∀ j : Fin 2, (List.replicate j.1 (1 : UInt8)).length ≤ 64 := by
    intro j
    rw [List.length_replicate]
    omega
  have hInjective : Function.Injective fun j : Fin 2 => List.replicate j.1 (1 : UInt8) := by
    intro j j' hEq
    exact Fin.ext (by simpa using congrArg List.length hEq)
  have hDigits : ∀ j : Fin 2, Digits decimalDomain.radix.value [j.1, 9] := by decide
  obtain ⟨E, hReach⟩ := tweaks_are_separate decimalDomain_radix_le decimalParameters_keySize
    (n := 2) (by omega) (by omega) rfl (by omega) _ hTweak hInjective
    (fun _ => ⟨[0, 1], rfl, by decide⟩) (fun j => ⟨[j.1, 9], rfl, hDigits j⟩)
  exact ⟨E, ⟨decimalDomain, decimalParameters.key, [1], hTweak 1⟩, rfl, rfl, rfl,
    hReach _ (AesBlock.computes_ofFunction E) 0, hReach _ (AesBlock.computes_ofFunction E) 1⟩

end IndicCrypt.Fpe
