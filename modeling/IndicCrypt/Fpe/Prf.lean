import IndicCrypt.Crypto.AesBlock
import IndicCrypt.Fpe.Parameters

/-!
# The PRF and the generator of Y

`Ff1Prf::evaluate` and `Ff1YGenerator::generate`. Both extend a block R by the same loop,
`extendLoop`: the counter is a `std::uint32_t`, and block `j` of the output is the
encryption of `R ⊕ [j mod 2 ^ 32]`.

For a block function `E` that the interface computes, the PRF is the CBC-MAC of its input,
expanded (`evaluate_eq`), and the generator is the expansion of R (`generate_eq`).
-/

namespace IndicCrypt.Fpe

open Positional Run Crypto

def isValidAesKeySize (size : Nat) : Bool :=
  size == AesBlock.aes128KeySize || size == AesBlock.aes192KeySize ||
    size == AesBlock.aes256KeySize

@[simp] theorem isValidAesKeySize_eq_true {size : Nat} :
    isValidAesKeySize size = true ↔ AesBlock.ValidKeySize size := by
  simp [isValidAesKeySize, AesBlock.ValidKeySize, or_assoc]

/-- Exclusive or of two blocks; `what` is the text of the failure. -/
def xorBlocks (what : String) (left right : Bytes) : Result Bytes := do
  throwIf (left.length ≠ AesBlock.blockSize ∨ right.length ≠ AesBlock.blockSize)
    (.invalidArgument what)
  return BlockMode.xor left right

def counterBlock (counter : UInt32) : Bytes :=
  let block : Bytes := List.replicate AesBlock.blockSize 0
  let block := block.set 12 ((counter >>> 24) &&& 0xff).toUInt8
  let block := block.set 13 ((counter >>> 16) &&& 0xff).toUInt8
  let block := block.set 14 ((counter >>> 8) &&& 0xff).toUInt8
  block.set 15 (counter &&& 0xff).toUInt8

/-- The loop that appends `AES_K(R ⊕ counter)`, cut to the bytes still missing. Each step
adds a byte at least, so `outputLength` steps suffice. -/
def extendLoop (evp : Evp) (what : String) (key : Key) (r : Bytes) (outputLength : Nat) :
    Nat → Bytes → UInt32 → Result Bytes
  | 0, output, _ =>
    if output.length < outputLength then .error .nontermination else .ok output
  | fuel + 1, output, counter =>
    if output.length < outputLength then do
      let mixed ← xorBlocks what r (counterBlock counter)
      let encrypted ← AesBlock.encrypt evp key mixed
      let remaining := outputLength - output.length
      let take := min remaining encrypted.length
      extendLoop evp what key r outputLength fuel (output ++ encrypted.take take) (counter + 1)
    else
      .ok output

namespace Ff1Prf

def blockSize : Nat := 16

def xorMessage : String := "FF1 PRF XOR requires 16-byte blocks"

def evaluate (evp : Evp) (key : Key) (input : Bytes) (outputLength : Nat) : Result Bytes :=
  if outputLength = 0 then
    .ok []
  else do
    throwIf (¬ isValidAesKeySize key.size)
      (.invalidArgument "FF1 PRF requires a 16, 24, or 32-byte AES key")
    throwIf (input = [] ∨ input.length % blockSize ≠ 0)
      (.invalidArgument "FF1 PRF input must be a non-empty multiple of 16 bytes")
    -- the offsets run from zero by the block size, to the end of the input
    let chaining ← (List.range' 0 (input.length / blockSize) blockSize).foldlM
      (fun chaining offset => do
        let block := (input.drop offset).take blockSize
        let mixed ← xorBlocks xorMessage block chaining
        AesBlock.encrypt evp key mixed)
      (List.replicate blockSize 0)
    let firstTake := min outputLength chaining.length
    extendLoop evp xorMessage key chaining outputLength outputLength (chaining.take firstTake) 1

end Ff1Prf

namespace Ff1YGenerator

def blockSize : Nat := 16

def generate (evp : Evp) (key : Key) (r : Bytes) (length : Nat) : Result Bytes := do
  throwIf (¬ isValidAesKeySize key.size)
    (.invalidArgument "FF1 Y generation requires a 16, 24, or 32-byte AES key")
  throwIf (r.length ≠ blockSize)
    (.invalidArgument "FF1 Y generation requires a 16-byte R value")
  if length = 0 then
    return []
  let initialTake := min length blockSize
  let output := r.take initialTake
  if output.length = length then
    return output
  extendLoop evp "FF1 Y generation requires 16-byte blocks" key r length length output 1

end Ff1YGenerator

/-! ## The expansion -/

/-- The counter blocks of the expansion. -/
def counterBytes (j : Nat) : Bytes := bytes 16 (j % 2 ^ 32)

theorem counterBlock_eq (counter : UInt32) : counterBlock counter = bytes 16 counter.toNat := by
  have hSet : counterBlock counter = List.replicate 12 0 ++ bytes 4 counter.toNat := by
    rw [← uint32_bytes]
    rfl
  apply byteNum_inj (by rw [hSet]; simp)
  have hLt := counter.toNat_lt
  rw [hSet, byteNum_append, byteNum_replicate_zero, byteNum_bytes, byteNum_bytes,
    Nat.mod_eq_of_lt (by omega), Nat.mod_eq_of_lt (by omega)]
  omega

theorem counterBlock_ofNat (j : Nat) : counterBlock (UInt32.ofNat j) = counterBytes j := by
  rw [counterBlock_eq, UInt32.toNat_ofNat']
  rfl

theorem xorBlocks_of_length {what : String} {left right : Bytes} (hLeft : left.length = 16)
    (hRight : right.length = 16) :
    xorBlocks what left right = .ok (BlockMode.xor left right) := by
  have hSizes : ¬ (left.length ≠ AesBlock.blockSize ∨ right.length ≠ AesBlock.blockSize) := by
    rw [hLeft, hRight]
    decide
  rw [xorBlocks, throwIf_of_not hSizes]
  rfl

section Computes

variable {evp : Evp} {E : BlockFunction} {key : Key}

/-- The output of the loop at any point is long enough as soon as it has `d` bytes. -/
theorem take_streamBlocks_of_length {r : Bytes} (hr : r.length = 16) {d j : Nat}
    (h : ¬ ((BlockMode.streamBlocks (E.apply key.bytes) counterBytes r j).take d).length < d) :
    (BlockMode.streamBlocks (E.apply key.bytes) counterBytes r j).take d =
      BlockMode.stream (E.apply key.bytes) counterBytes r 16 d := by
  have hSize := E.length_apply key.bytes
  have hLength : (BlockMode.streamBlocks (E.apply key.bytes) counterBytes r j).length = j * 16 :=
    BlockMode.length_streamBlocks hSize hr j
  rw [List.length_take, hLength] at h
  exact BlockMode.take_streamBlocks (by omega) hSize hr (by omega)

/-- From its first block on, the loop completes the expansion. -/
theorem extendLoop_eq (hE : AesBlock.Computes evp E) (hKey : AesBlock.ValidKeySize key.size)
    (what : String) {r : Bytes} (hr : r.length = 16) (d : Nat) {fuel j : Nat}
    (hFuel : d ≤ (j + 1 + fuel) * 16) :
    extendLoop evp what key r d fuel
        ((BlockMode.streamBlocks (E.apply key.bytes) counterBytes r (j + 1)).take d)
        (UInt32.ofNat (j + 1)) =
      .ok (BlockMode.stream (E.apply key.bytes) counterBytes r 16 d) := by
  have hSize := E.length_apply key.bytes
  induction fuel generalizing j with
  | zero =>
    have hEnough : d ≤ (j + 1) * 16 := hFuel
    have hDone : ¬ ((BlockMode.streamBlocks (E.apply key.bytes) counterBytes r (j + 1)).take
        d).length < d := by
      rw [List.length_take, BlockMode.length_streamBlocks hSize hr]
      omega
    rw [extendLoop, if_neg hDone, take_streamBlocks_of_length hr hDone]
  | succ fuel ih =>
    by_cases hShort : ((BlockMode.streamBlocks (E.apply key.bytes) counterBytes r (j + 1)).take
        d).length < d
    · have hCounter : (counterBytes (j + 1)).length = 16 := length_bytes _ _
      have hNext : UInt32.ofNat (j + 1) + 1 = UInt32.ofNat (j + 1 + 1) := by
        rw [UInt32.ofNat_add (j + 1) 1]
        rfl
      have hBlock : E.apply key.bytes (BlockMode.xor r (counterBytes (j + 1))) =
          BlockMode.streamBlock (E.apply key.bytes) counterBytes r (j + 1) := rfl
      rw [extendLoop, if_pos hShort, counterBlock_ofNat, xorBlocks_of_length hr hCounter, ok_bind,
        hE key _ hKey (BlockMode.length_xor hr hCounter), ok_bind]
      simp only [hNext, hBlock, ← List.take_eq_take_min, ← BlockMode.take_streamBlocks_succ]
      exact ih (by omega)
    · rw [extendLoop, if_neg hShort, take_streamBlocks_of_length hr hShort]

/-- One step of the chaining loop. -/
theorem chaining_step (hE : AesBlock.Computes evp E) (hKey : AesBlock.ValidKeySize key.size)
    (what : String) {block r : Bytes} (hBlock : block.length = 16) (hr : r.length = 16) :
    (xorBlocks what block r >>= AesBlock.encrypt evp key) =
      .ok (E.apply key.bytes (BlockMode.xor r block)) := by
  rw [xorBlocks_of_length hBlock hr, ok_bind, hE key _ hKey (BlockMode.length_xor hBlock hr),
    BlockMode.xor_comm]

theorem range'_sixteen (m : Nat) :
    List.range' 0 m 16 = (List.range m).map fun j => j * 16 := by
  apply List.ext_getElem (by simp)
  intro j _ _
  rw [List.getElem_range', List.getElem_map, List.getElem_range]
  omega

/-- The chaining loop is the CBC-MAC of the blocks of the input. -/
theorem chaining_eq (hE : AesBlock.Computes evp E) (hKey : AesBlock.ValidKeySize key.size)
    (what : String) (input : Bytes) {r : Bytes} (hr : r.length = 16) :
    (List.range' 0 (input.length / 16) 16).foldlM
        (fun chaining offset => do
          let block := (input.drop offset).take 16
          let mixed ← xorBlocks what block chaining
          AesBlock.encrypt evp key mixed) r =
      .ok (BlockMode.cbcMac (E.apply key.bytes) r (BlockMode.blocks 16 input)) := by
  have hBlocks : ∀ j ∈ List.range (input.length / 16),
      ((input.drop (j * 16)).take 16).length = 16 := fun j hj =>
    BlockMode.length_of_mem_blocks (List.mem_map.mpr ⟨j, hj, rfl⟩)
  rw [range'_sixteen, BlockMode.blocks, BlockMode.cbcMac]
  -- over the offsets: the blocks are complete, and the chaining value stays a block
  generalize List.range (input.length / 16) = js at hBlocks ⊢
  induction js generalizing r with
  | nil => rfl
  | cons j js ih =>
    obtain ⟨hBlock, hRest⟩ := List.forall_mem_cons.mp hBlocks
    rw [List.map_cons, List.map_cons, List.foldlM_cons, List.foldl_cons]
    simp only [chaining_step hE hKey what hBlock hr, ok_bind]
    exact ih (E.length_apply _ _) hRest

/-- **The PRF.** The CBC-MAC of the input, expanded to the output length. -/
theorem Ff1Prf.evaluate_eq (hE : AesBlock.Computes evp E)
    (hKey : AesBlock.ValidKeySize key.size) {input : Bytes} (hInput : input ≠ [])
    (hSize : 16 ∣ input.length) (d : Nat) :
    Ff1Prf.evaluate evp key input d =
      .ok (BlockMode.stream (E.apply key.bytes) counterBytes
        (BlockMode.cbcMac (E.apply key.bytes) (List.replicate 16 0) (BlockMode.blocks 16 input))
        16 d) := by
  have hKeyCheck : ¬ ¬ isValidAesKeySize key.size = true :=
    not_not_intro (isValidAesKeySize_eq_true.mpr hKey)
  have hInputCheck : ¬ (input = [] ∨ input.length % Ff1Prf.blockSize ≠ 0) := by
    rintro (hEmpty | hPartial)
    · exact hInput hEmpty
    · exact hPartial (Nat.mod_eq_zero_of_dvd hSize)
  have hZeros : (List.replicate 16 (0 : UInt8)).length = 16 := List.length_replicate
  unfold Ff1Prf.evaluate
  by_cases hZero : d = 0
  · subst hZero
    simp [BlockMode.stream]
  · rw [if_neg hZero, throwIf_of_not hKeyCheck, ok_bind, throwIf_of_not hInputCheck, ok_bind]
    simp only [Ff1Prf.blockSize]
    rw [chaining_eq hE hKey _ input hZeros, ok_bind]
    have hChaining := BlockMode.length_cbcMac (E.length_apply key.bytes) hZeros
      (BlockMode.blocks 16 input)
    have hFuel : d ≤ (0 + 1 + d) * 16 := by omega
    have hLoop := extendLoop_eq hE hKey Ff1Prf.xorMessage hChaining d hFuel
    simpa [BlockMode.streamBlocks, BlockMode.streamBlock, ← List.take_eq_take_min] using hLoop

/-- **The generator of Y.** The expansion of R. -/
theorem Ff1YGenerator.generate_eq (hE : AesBlock.Computes evp E)
    (hKey : AesBlock.ValidKeySize key.size) {r : Bytes} (hr : r.length = 16) (d : Nat) :
    Ff1YGenerator.generate evp key r d =
      .ok (BlockMode.stream (E.apply key.bytes) counterBytes r 16 d) := by
  have hKeyCheck : ¬ ¬ isValidAesKeySize key.size = true :=
    not_not_intro (isValidAesKeySize_eq_true.mpr hKey)
  have hBlockCheck : ¬ r.length ≠ Ff1YGenerator.blockSize := not_not_intro hr
  have hFirst : BlockMode.streamBlocks (E.apply key.bytes) counterBytes r (0 + 1) = r := by
    simp [BlockMode.streamBlocks, BlockMode.streamBlock]
  have hTake : r.take (min d Ff1YGenerator.blockSize) = r.take d := by
    rw [show Ff1YGenerator.blockSize = r.length from hr.symm, ← List.take_eq_take_min]
  unfold Ff1YGenerator.generate
  rw [throwIf_of_not hKeyCheck, ok_bind, throwIf_of_not hBlockCheck, ok_bind]
  by_cases hZero : d = 0
  · subst hZero
    simp [BlockMode.stream]
  · rw [if_neg hZero]
    simp only [hTake]
    by_cases hShort : (r.take d).length = d
    · have hLong : ¬ ((BlockMode.streamBlocks (E.apply key.bytes) counterBytes r (0 + 1)).take
          d).length < d := by
        rw [hFirst]
        omega
      rw [if_pos hShort, ← take_streamBlocks_of_length hr hLong, hFirst]
      rfl
    · have hFuel : d ≤ (0 + 1 + d) * 16 := by omega
      have hLoop := extendLoop_eq hE hKey "FF1 Y generation requires 16-byte blocks" hr d hFuel
      rw [hFirst] at hLoop
      rw [if_neg hShort]
      exact hLoop

/-- A non-empty output needs a key of a valid size. -/
theorem Ff1Prf.validKeySize_of_isOk {evp : Evp} {key : Key} {input : Bytes} {d : Nat} (hd : d ≠ 0)
    (h : IsOk (Ff1Prf.evaluate evp key input d)) : AesBlock.ValidKeySize key.size := by
  obtain ⟨output, h⟩ := h
  unfold Ff1Prf.evaluate at h
  rw [if_neg hd] at h
  obtain ⟨hKeyCheck, -⟩ := throwIf_bind_eq_ok.mp h
  exact isValidAesKeySize_eq_true.mp (not_not.mp hKeyCheck)

end Computes

/-- **The two expanders agree.** For every output length, the PRF on an input and the generator
on the PRF's first block R give the same bytes: the first ones of a stream whose block 0 is R
and whose block `j` is the encryption of `R ⊕ [j mod 2 ^ 32]`. So a shorter output is a prefix of
a longer one. -/
theorem expanders_agree {evp : Evp} (hTotal : AesBlock.Total evp) {key : Key}
    (hKey : AesBlock.ValidKeySize key.size) {input : Bytes} (hInput : input ≠ [])
    (hSize : 16 ∣ input.length) :
    ∃ (R : Bytes) (block : Nat → Bytes),
      Ff1Prf.evaluate evp key input 16 = .ok R ∧ block 0 = R ∧
      (∀ j, (block j).length = 16) ∧
      (∀ j, 0 < j →
        AesBlock.encrypt evp key (BlockMode.xor R (bytes 16 (j % 2 ^ 32))) = .ok (block j)) ∧
      (∀ L, ∃ output, output.length = L ∧
        Ff1Prf.evaluate evp key input L = .ok output ∧
        Ff1YGenerator.generate evp key R L = .ok output ∧
        ∀ J, L ≤ J * 16 → output = ((List.range J).flatMap block).take L) ∧
      ∀ L L' output output', L ≤ L' → Ff1Prf.evaluate evp key input L = .ok output →
        Ff1Prf.evaluate evp key input L' = .ok output' → output <+: output' := by
  obtain ⟨E, hE⟩ := hTotal.exists_computes
  have hLength := E.length_apply key.bytes
  have hZeros : (List.replicate 16 (0 : UInt8)).length = 16 := List.length_replicate
  have hR := BlockMode.length_cbcMac hLength hZeros (BlockMode.blocks 16 input)
  have hEvaluate := Ff1Prf.evaluate_eq hE hKey hInput hSize
  generalize BlockMode.cbcMac (E.apply key.bytes) (List.replicate 16 0)
    (BlockMode.blocks 16 input) = R at hR hEvaluate
  refine ⟨R, BlockMode.streamBlock (E.apply key.bytes) counterBytes R, ?_, rfl,
    BlockMode.length_streamBlock hLength hR, ?_, ?_, ?_⟩
  · rw [hEvaluate, BlockMode.stream_blockSize (by omega) hR]
  · intro j hj
    cases j with
    | zero => exact absurd hj (Nat.lt_irrefl 0)
    | succ j => exact hE key _ hKey (BlockMode.length_xor hR (length_bytes _ _))
  · intro L
    exact ⟨_, BlockMode.length_stream (by omega) hLength hR L, hEvaluate L,
      Ff1YGenerator.generate_eq hE hKey hR L,
      fun J hJ => (BlockMode.take_streamBlocks (by omega) hLength hR hJ).symm⟩
  · intro L L' output output' hLe hOutput hOutput'
    rw [hEvaluate, Except.ok.injEq] at hOutput hOutput'
    rw [← hOutput, ← hOutput', ← BlockMode.take_stream (by omega) hLength hR hLe]
    exact List.take_prefix _ _

/-- An AES-128 key of zeros and one block of zeros, expanded to 8 and to 23 bytes. -/
theorem expanders_agree_zeros :
    ∃ (key : Key) (R output output' : Bytes), key.bytes = List.replicate 16 0 ∧
      Ff1Prf.evaluate (Evp.ofFunction aes) key (List.replicate 16 0) 8 = .ok output ∧
      Ff1YGenerator.generate (Evp.ofFunction aes) key R 23 = .ok output' ∧
      output <+: output' := by
  have hKey : AesBlock.ValidKeySize (⟨List.replicate 16 0⟩ : Key).size := .inl rfl
  have hInput : List.replicate 16 (0 : UInt8) ≠ [] := List.cons_ne_nil _ _
  have hSize : 16 ∣ (List.replicate 16 (0 : UInt8)).length := by simp
  obtain ⟨R, block, -, -, -, -, hAgree, hPrefix⟩ :=
    expanders_agree (AesBlock.computes_ofFunction aes).total hKey hInput hSize
  obtain ⟨output, -, hOutput, -⟩ := hAgree 8
  obtain ⟨output', -, hOutput', hGenerate, -⟩ := hAgree 23
  exact ⟨_, R, output, output', rfl, hOutput, hGenerate,
    hPrefix 8 23 _ _ (by omega) hOutput hOutput'⟩

end IndicCrypt.Fpe
