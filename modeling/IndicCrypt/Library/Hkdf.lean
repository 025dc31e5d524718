import IndicCrypt.Library.CbcMac
import IndicCrypt.Library.Sha256

/-!
# HMAC and HKDF

A `Mac` is a keyed function whose codes have a fixed size. `Hash.hmac` makes one of a hash
function; it fills keys with zeros to a block, so a key and the same key with zeros behind it are
one key (`Hash.hmac_fillsKeys`). HKDF extracts a key from the input and expands it (`derive`). A
shorter output is a prefix of a longer one (`take_expand`).

Outputs under different salts have nothing to do with each other: whatever outputs are
prescribed for finitely many salts, some code leads to them (`exists_mac_derive`).
-/

namespace Hkdf

/-! ## Message authentication codes -/

structure Mac (size : Nat) where
  apply : List UInt8 → List UInt8 → List UInt8
  length_apply : ∀ key message, (apply key message).length = size

/-- The string with zeros behind it. -/
def fill (blockSize : Nat) (s : List UInt8) : List UInt8 :=
  s ++ List.replicate (blockSize - s.length) 0

theorem length_fill {blockSize : Nat} {s : List UInt8} (h : s.length ≤ blockSize) :
    (fill blockSize s).length = blockSize := by
  rw [fill, List.length_append, List.length_replicate]
  omega

theorem fill_append_zeros {blockSize n : Nat} {s : List UInt8} (h : s.length + n ≤ blockSize) :
    fill blockSize (s ++ List.replicate n 0) = fill blockSize s := by
  rw [fill, fill, List.append_assoc, List.replicate_append_replicate, List.length_append,
    List.length_replicate]
  congr 2
  omega

theorem take_fill (blockSize : Nat) (s : List UInt8) : (fill blockSize s).take s.length = s :=
  List.take_left

/-- Zeros behind a key do not change the code, as long as the key fits a block. -/
def Mac.FillsKeys {size : Nat} (M : Mac size) (blockSize : Nat) : Prop :=
  ∀ key message n, key.length + n ≤ blockSize →
    M.apply (key ++ List.replicate n 0) message = M.apply key message

structure Hash (size : Nat) where
  apply : List UInt8 → List UInt8
  length_apply : ∀ message, (apply message).length = size

/-- The block that HMAC makes of a key. -/
def Hash.keyBlock {size : Nat} (H : Hash size) (blockSize : Nat) (key : List UInt8) : List UInt8 :=
  fill blockSize (if blockSize < key.length then H.apply key else key)

def Hash.hmac {size : Nat} (H : Hash size) (blockSize : Nat) : Mac size where
  apply key message :=
    H.apply ((H.keyBlock blockSize key).map (· ^^^ 0x5c) ++
      H.apply ((H.keyBlock blockSize key).map (· ^^^ 0x36) ++ message))
  length_apply _ _ := H.length_apply _

theorem Hash.hmac_fillsKeys {size : Nat} (H : Hash size) (blockSize : Nat) :
    (H.hmac blockSize).FillsKeys blockSize := by
  intro key message n hFits
  have hLong : ¬ blockSize < (key ++ List.replicate n 0).length := by
    rw [List.length_append, List.length_replicate]
    omega
  have hShort : ¬ blockSize < key.length := by omega
  have hBlock : H.keyBlock blockSize (key ++ List.replicate n 0) = H.keyBlock blockSize key := by
    rw [keyBlock, keyBlock, if_neg hLong, if_neg hShort, fill_append_zeros hFits]
  simp only [hmac, hBlock]

/-- HMAC-SHA-256. -/
def hmacSha256 : Mac 32 := Hash.hmac ⟨Sha256.hash, Sha256.length_hash⟩ 64

/-! ## Extraction and expansion -/

section Derive

variable {size : Nat} (M : Mac size)

def extract (salt ikm : List UInt8) : List UInt8 := M.apply salt ikm

/-- Block `i` of the expansion; the empty string comes before the first one. -/
def expandBlock (prk info : List UInt8) : Nat → List UInt8
  | 0 => []
  | i + 1 => M.apply prk (expandBlock prk info i ++ info ++ [UInt8.ofNat (i + 1)])

def expand (prk info : List UInt8) (length : Nat) : List UInt8 :=
  ((List.range ((length + (size - 1)) / size)).flatMap fun i => expandBlock M prk info (i + 1)).take
    length

def derive (salt ikm info : List UInt8) (length : Nat) : List UInt8 :=
  expand M (extract M salt ikm) info length

variable {M}

theorem length_expandBlock_succ (prk info : List UInt8) (i : Nat) :
    (expandBlock M prk info (i + 1)).length = size := M.length_apply _ _

theorem length_flatMap_range {f : Nat → List UInt8} (hf : ∀ i, (f i).length = size) (j : Nat) :
    ((List.range j).flatMap f).length = j * size := by
  simp [List.length_flatMap, hf]

/-- Once there are enough blocks, more of them do not change the first bytes. -/
theorem take_flatMap_range {f : Nat → List UInt8} (hf : ∀ i, (f i).length = size) {d j j' : Nat}
    (hEnough : d ≤ j * size) (hj : j ≤ j') :
    ((List.range j').flatMap f).take d = ((List.range j).flatMap f).take d := by
  obtain ⟨n, rfl⟩ := Nat.exists_eq_add_of_le hj
  rw [List.range_add, List.flatMap_append, List.take_append_of_le_length]
  rw [length_flatMap_range hf]
  exact hEnough

theorem expand_eq (hSize : 0 < size) (prk info : List UInt8) {d j : Nat} (hEnough : d ≤ j * size) :
    expand M prk info d =
      ((List.range j).flatMap fun i => expandBlock M prk info (i + 1)).take d := by
  have hCount : (d + (size - 1)) / size ≤ j := by
    rw [Nat.div_le_iff_le_mul_add_pred hSize, Nat.mul_comm]
    omega
  have hCeil : d ≤ (d + (size - 1)) / size * size := by
    have hDiv := Nat.div_add_mod (d + (size - 1)) size
    have hMod := Nat.mod_lt (d + (size - 1)) hSize
    rw [Nat.mul_comm]
    omega
  exact (take_flatMap_range (length_expandBlock_succ prk info) hCeil hCount).symm

theorem length_expand (hSize : 0 < size) (prk info : List UInt8) (d : Nat) :
    (expand M prk info d).length = d := by
  have hEnough : d ≤ d * size := Nat.le_mul_of_pos_right d hSize
  rw [expand_eq hSize prk info hEnough, List.length_take,
    length_flatMap_range (length_expandBlock_succ prk info)]
  exact Nat.min_eq_left hEnough

/-- A shorter expansion is a prefix of a longer one. -/
theorem take_expand (hSize : 0 < size) (prk info : List UInt8) {d d' : Nat} (h : d ≤ d') :
    (expand M prk info d').take d = expand M prk info d := by
  have hEnough : d' ≤ d' * size := Nat.le_mul_of_pos_right d' hSize
  rw [expand_eq hSize prk info hEnough, expand_eq hSize prk info (h.trans hEnough),
    List.take_take, Nat.min_eq_left h]

end Derive

/-! ## Prescribed outputs -/

section Prescribed

variable {ι : Type} {size blockSize : Nat} {salt prk target : ι → List UInt8}

/-- The blocks of an output of at most 255 blocks. -/
def outputBlock (size : Nat) (s : List UInt8) (i : Nat) : List UInt8 :=
  ((fill (255 * size) s).drop (i * size)).take size

theorem length_outputBlock {s : List UInt8} (hs : s.length ≤ 255 * size) {i : Nat} (hi : i < 255) :
    (outputBlock size s i).length = size := by
  have hEnd : (i + 1) * size ≤ 255 * size := Nat.mul_le_mul_right size hi
  rw [Nat.add_mul, one_mul] at hEnd
  rw [outputBlock, List.length_take, List.length_drop, length_fill hs]
  omega

theorem flatMap_outputBlock (hSize : 0 < size) {s : List UInt8} (hs : s.length ≤ 255 * size) :
    (List.range 255).flatMap (outputBlock size s) = fill (255 * size) s := by
  have hLength := length_fill hs
  have hFlatten := BlockMode.flatten_blocks hSize (s := fill (255 * size) s)
    (by rw [hLength]; exact Nat.dvd_mul_left _ _)
  rw [BlockMode.blocks, hLength, Nat.mul_div_cancel _ hSize, ← List.flatMap_def] at hFlatten
  exact hFlatten

open Classical in
/-- From the salts to the keys, and from the keys to the outputs; salts and keys are filled with
zeros. The last byte of a message is the number of the block. -/
noncomputable def prescribedCode (size blockSize : Nat) (salt prk target : ι → List UInt8)
    (block message : List UInt8) : List UInt8 :=
  if h : ∃ i, block = fill blockSize (salt i) then prk h.choose
  else if h : ∃ i, block = fill blockSize (prk i) then
    outputBlock size (target h.choose) ((message.getLastD 0).toNat - 1)
  else List.replicate size 0

theorem length_prescribedCode (hPrk : ∀ i, (prk i).length = size)
    (hTarget : ∀ i, (target i).length ≤ 255 * size) (block message : List UInt8) :
    (prescribedCode size blockSize salt prk target block message).length = size := by
  have hByte := (message.getLastD 0).toNat_lt
  unfold prescribedCode
  split
  · exact hPrk _
  · split
    · exact length_outputBlock (hTarget _) (by omega)
    · exact List.length_replicate

noncomputable def prescribed (blockSize : Nat) (hPrk : ∀ i, (prk i).length = size)
    (hTarget : ∀ i, (target i).length ≤ 255 * size) (salt : ι → List UInt8) : Mac size where
  apply key message := prescribedCode size blockSize salt prk target (fill blockSize key) message
  length_apply _ _ := length_prescribedCode hPrk hTarget _ _

variable {hPrk : ∀ i, (prk i).length = size} {hTarget : ∀ i, (target i).length ≤ 255 * size}

theorem prescribed_fillsKeys : (prescribed blockSize hPrk hTarget salt).FillsKeys blockSize := by
  intro key message n hFits
  simp only [prescribed, fill_append_zeros hFits]

theorem prescribed_salt
    (hSalt : ∀ i j, fill blockSize (salt i) = fill blockSize (salt j) → i = j) (i : ι)
    (message : List UInt8) :
    (prescribed blockSize hPrk hTarget salt).apply (salt i) message = prk i := by
  have hExists : ∃ j, fill blockSize (salt i) = fill blockSize (salt j) := ⟨i, rfl⟩
  have hSame : hExists.choose = i := (hSalt _ _ hExists.choose_spec).symm
  simp only [prescribed, prescribedCode, dif_pos hExists, hSame]

theorem prescribed_prk (hSeparate : ∀ i j, fill blockSize (prk i) ≠ fill blockSize (salt j))
    (hInjective : ∀ i j, fill blockSize (prk i) = fill blockSize (prk j) → i = j) (i : ι)
    (message : List UInt8) : (prescribed blockSize hPrk hTarget salt).apply (prk i) message =
      outputBlock size (target i) ((message.getLastD 0).toNat - 1) := by
  have hNot : ¬ ∃ j, fill blockSize (prk i) = fill blockSize (salt j) := by
    intro h
    obtain ⟨j, hj⟩ := h
    exact hSeparate i j hj
  have hExists : ∃ j, fill blockSize (prk i) = fill blockSize (prk j) := ⟨i, rfl⟩
  have hSame : hExists.choose = i := (hInjective _ _ hExists.choose_spec).symm
  simp only [prescribed, prescribedCode, dif_neg hNot, dif_pos hExists, hSame]

/-- The first 255 blocks of the expansion are those of the output. -/
theorem expandBlock_prescribed (hSeparate : ∀ i j, fill blockSize (prk i) ≠ fill blockSize (salt j))
    (hInjective : ∀ i j, fill blockSize (prk i) = fill blockSize (prk j) → i = j) (i : ι)
    (info : List UInt8) {j : Nat} (hj : j < 255) :
    expandBlock (prescribed blockSize hPrk hTarget salt) (prk i) info (j + 1) =
      outputBlock size (target i) j := by
  have hCounter : (UInt8.ofNat (j + 1)).toNat - 1 = j := by
    rw [UInt8.toNat_ofNat']
    omega
  rw [expandBlock, prescribed_prk hSeparate hInjective, List.getLastD_concat, hCounter]

/-- Keys that are different from each other and from the salts. -/
theorem exists_prk [Fintype ι] (blockSize : Nat) (salt : ι → List UInt8)
    (hRoom : 2 * Fintype.card ι < 256 ^ size) :
    ∃ prk : ι → List UInt8, (∀ i, (prk i).length = size) ∧
      (∀ i j, fill blockSize (prk i) ≠ fill blockSize (salt j)) ∧
      ∀ i j, fill blockSize (prk i) = fill blockSize (prk j) → i = j := by
  classical
  have hZeros : ∀ n ∈ [List.replicate size (0 : UInt8)], n.length = size := by simp
  obtain ⟨σ, hσ⟩ := BlockMode.exists_fresh hZeros
    (Finset.univ.toList.map fun j => (fill blockSize (salt j)).take size)
    (Finset.univ.toList : List ι) (by simp; omega)
  have hMem (i : ι) : i ∈ Finset.univ.toList := Finset.mem_toList.mpr (Finset.mem_univ i)
  have hXor (i : ι) : BlockMode.xor (σ i) (List.replicate size 0) = σ i := by
    rw [← hσ.length_eq i (hMem i), BlockMode.xor_zero]
  have hTake (i : ι) : (fill blockSize (σ i)).take size = σ i := by
    rw [← hσ.length_eq i (hMem i), take_fill]
  refine ⟨σ, fun i => hσ.length_eq i (hMem i), fun i j h => ?_, fun i j h => ?_⟩
  · have hNot := hσ.notMem i (hMem i) _ List.mem_cons_self
    rw [hXor, ← hTake i, h] at hNot
    exact hNot (List.mem_map.mpr ⟨j, hMem j, rfl⟩)
  · apply hσ.inj i (hMem i) j (hMem j) _ List.mem_cons_self _ List.mem_cons_self
    rw [hXor, hXor, ← hTake i, h, hTake j]

/-- **Outputs under different salts.** For salts that stay different when they are filled with
zeros, every choice of outputs of at most 255 blocks is the one of some code. -/
theorem exists_mac_derive [Fintype ι] (hSize : 0 < size) (hRoom : 2 * Fintype.card ι < 256 ^ size)
    (hSalt : ∀ i j, fill blockSize (salt i) = fill blockSize (salt j) → i = j)
    (hTarget : ∀ i, (target i).length ≤ 255 * size) :
    ∃ M : Mac size, M.FillsKeys blockSize ∧ ∀ i ikm info,
      derive M (salt i) ikm info (target i).length = target i := by
  obtain ⟨prk, hPrk, hSeparate, hInjective⟩ := exists_prk blockSize salt hRoom
  refine ⟨prescribed blockSize hPrk hTarget salt, prescribed_fillsKeys, fun i ikm info => ?_⟩
  have hBlocks : ∀ j ∈ List.range 255,
      expandBlock (prescribed blockSize hPrk hTarget salt) (prk i) info (j + 1) =
        outputBlock size (target i) j := fun j hj =>
    expandBlock_prescribed hSeparate hInjective i info (List.mem_range.mp hj)
  rw [derive, extract, prescribed_salt hSalt, expand_eq hSize _ _ (hTarget i),
    List.flatMap_congr hBlocks, flatMap_outputBlock hSize (hTarget i), take_fill]

end Prescribed

end Hkdf
