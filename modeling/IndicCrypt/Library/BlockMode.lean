import Mathlib.Algebra.Order.Group.Nat
import Mathlib.Data.List.Basic
import Mathlib.Tactic.Ring

/-!
# Modes of a block function

A block function `E` acts on byte strings of one block size. `cbcMac` chains it over a list
of blocks, and `stream` expands a block `R` to any length: the first block is `R`, block
`j ≥ 1` is `E (R ⊕ ctr j)`, and `stream` takes the bytes it needs from the front.

`take_streamBlocks_succ` is the step of a loop that appends block after block, and
`take_streamBlocks` says that it may stop as soon as it has enough bytes.
-/

namespace BlockMode

/-! ## Exclusive or -/

/-- Bytewise exclusive or. -/
def xor (s t : List UInt8) : List UInt8 := List.zipWith (· ^^^ ·) s t

theorem length_xor {k : Nat} {s t : List UInt8} (hs : s.length = k) (ht : t.length = k) :
    (xor s t).length = k := by
  rw [xor, List.length_zipWith, hs, ht, Nat.min_self]

theorem xor_comm (s t : List UInt8) : xor s t = xor t s := by
  rw [xor, xor, List.zipWith_comm]
  congr 1
  funext x y
  exact UInt8.xor_comm y x

theorem xor_assoc (s t r : List UInt8) : xor (xor s t) r = xor s (xor t r) := by
  induction s generalizing t r with
  | nil => simp [xor]
  | cons a s ih =>
    cases t with
    | nil => simp [xor]
    | cons b t =>
      cases r with
      | nil => simp [xor]
      | cons c r =>
        have hTail := ih t r
        simp only [xor] at hTail
        simp only [xor, List.zipWith_cons_cons, hTail, UInt8.xor_assoc]

theorem xor_self (s : List UInt8) : xor s s = List.replicate s.length 0 := by
  induction s with
  | nil => rfl
  | cons a s ih =>
    simp only [xor] at ih
    simp only [xor, List.zipWith_cons_cons, ih, UInt8.xor_self, List.length_cons,
      List.replicate_succ]

theorem xor_zero (s : List UInt8) : xor s (List.replicate s.length 0) = s := by
  induction s with
  | nil => rfl
  | cons a s ih =>
    simp only [xor] at ih
    simp only [xor, List.length_cons, List.replicate_succ, List.zipWith_cons_cons, ih,
      UInt8.xor_zero]

/-! ## Chaining -/

/-- The blocks of `k` bytes of a string, without an incomplete last one. -/
def blocks (k : Nat) (s : List UInt8) : List (List UInt8) :=
  (List.range (s.length / k)).map fun j => (s.drop (j * k)).take k

theorem length_of_mem_blocks {k : Nat} {s X : List UInt8} (h : X ∈ blocks k s) : X.length = k := by
  obtain ⟨j, hj, rfl⟩ := List.mem_map.mp h
  have hEnd : (j + 1) * k ≤ s.length / k * k := Nat.mul_le_mul_right k (List.mem_range.mp hj)
  have hSize := Nat.div_mul_le_self s.length k
  rw [Nat.add_mul, one_mul] at hEnd
  rw [List.length_take, List.length_drop]
  omega

theorem blocks_nil (k : Nat) : blocks k [] = [] := by simp [blocks]

theorem blocks_append {k : Nat} (hk : 0 < k) {X s : List UInt8} (hX : X.length = k) :
    blocks k (X ++ s) = X :: blocks k s := by
  have hCount : (X ++ s).length / k = s.length / k + 1 := by
    rw [List.length_append, hX, Nat.add_comm, Nat.add_div_right _ hk]
  simp only [blocks, hCount, List.range_succ_eq_map, List.map_cons, List.map_map]
  refine congrArg₂ _ ?_ (List.map_congr_left ?_)
  · simp [← hX]
  · intro j _
    have hDrop : (j + 1) * k = X.length + j * k := by
      rw [hX]
      ring
    simp only [Function.comp_apply, Nat.succ_eq_add_one, hDrop, List.drop_append,
      Nat.add_sub_cancel_left, List.drop_eq_nil_of_le (Nat.le_add_right X.length (j * k)),
      List.nil_append]

theorem length_blocks (k : Nat) (s : List UInt8) : (blocks k s).length = s.length / k := by
  simp [blocks]

/-- The blocks of a string without an incomplete last block make up the string. -/
theorem flatten_blocks {k : Nat} (hk : 0 < k) {s : List UInt8} (h : k ∣ s.length) :
    (blocks k s).flatten = s := by
  obtain ⟨c, hc⟩ := h
  induction c generalizing s with
  | zero =>
    rw [mul_zero, List.length_eq_zero_iff] at hc
    subst hc
    simp [blocks_nil]
  | succ c ih =>
    rw [Nat.mul_succ] at hc
    have hHead : (s.take k).length = k := by
      rw [List.length_take]
      omega
    have hTail := ih (s := s.drop k) (by rw [List.length_drop]; omega)
    conv_lhs => rw [← List.take_append_drop k s]
    rw [blocks_append hk hHead, List.flatten_cons, hTail, List.take_append_drop]

theorem prefix_of_blocks_prefix {k : Nat} (hk : 0 < k) {s t : List UInt8} (hs : k ∣ s.length)
    (ht : k ∣ t.length) (h : blocks k s <+: blocks k t) : s <+: t := by
  obtain ⟨rest, hRest⟩ := h
  have hFlat := congrArg List.flatten hRest
  rw [List.flatten_append, flatten_blocks hk hs, flatten_blocks hk ht] at hFlat
  exact ⟨_, hFlat⟩

/-- CBC-MAC from the chaining value `R`. -/
def cbcMac (E : List UInt8 → List UInt8) (R : List UInt8) (Xs : List (List UInt8)) : List UInt8 :=
  Xs.foldl (fun R X => E (xor R X)) R

theorem cbcMac_concat (E : List UInt8 → List UInt8) (R : List UInt8) (Xs : List (List UInt8))
    (X : List UInt8) : cbcMac E R (Xs ++ [X]) = E (xor (cbcMac E R Xs) X) := by
  rw [cbcMac, List.foldl_append]
  rfl

theorem length_cbcMac {E : List UInt8 → List UInt8} {k : Nat} (hE : ∀ s, (E s).length = k)
    {R : List UInt8} (hR : R.length = k) (Xs : List (List UInt8)) : (cbcMac E R Xs).length = k := by
  induction Xs generalizing R with
  | nil => exact hR
  | cons X Xs ih => exact ih (hE _)

/-! ## Expansion -/

section Expansion

variable (E : List UInt8 → List UInt8) (ctr : Nat → List UInt8) (R : List UInt8)

/-- Block `j` of the expansion of `R`. -/
def streamBlock : Nat → List UInt8
  | 0 => R
  | j + 1 => E (xor R (ctr (j + 1)))

/-- The first `j` blocks, concatenated. -/
def streamBlocks (j : Nat) : List UInt8 := (List.range j).flatMap (streamBlock E ctr R)

/-- The first `d` bytes of the expansion, from blocks of `k` bytes. -/
def stream (k d : Nat) : List UInt8 := (streamBlocks E ctr R ((d + (k - 1)) / k)).take d

theorem streamBlocks_succ (j : Nat) :
    streamBlocks E ctr R (j + 1) = streamBlocks E ctr R j ++ streamBlock E ctr R j := by
  rw [streamBlocks, List.range_succ, List.flatMap_append, List.flatMap_singleton]
  rfl

variable {E ctr R} {k : Nat}

theorem length_streamBlock (hE : ∀ s, (E s).length = k) (hR : R.length = k) (j : Nat) :
    (streamBlock E ctr R j).length = k := by
  cases j with
  | zero => exact hR
  | succ j => exact hE _

theorem length_streamBlocks (hE : ∀ s, (E s).length = k) (hR : R.length = k) (j : Nat) :
    (streamBlocks E ctr R j).length = j * k := by
  induction j with
  | zero => simp [streamBlocks]
  | succ j ih =>
    rw [streamBlocks_succ, List.length_append, ih, length_streamBlock hE hR]
    ring

/-- One more block, cut to the bytes still missing. -/
theorem take_streamBlocks_succ (d j : Nat) :
    (streamBlocks E ctr R (j + 1)).take d =
      (streamBlocks E ctr R j).take d ++
        (streamBlock E ctr R j).take (d - ((streamBlocks E ctr R j).take d).length) := by
  rw [streamBlocks_succ, List.take_append, List.length_take]
  congr 2
  omega

theorem take_streamBlocks_mono (hE : ∀ s, (E s).length = k) (hR : R.length = k) {d j j' : Nat}
    (hEnough : d ≤ j * k) (hj : j ≤ j') :
    (streamBlocks E ctr R j').take d = (streamBlocks E ctr R j).take d := by
  induction j', hj using Nat.le_induction with
  | base => rfl
  | succ j' hj ih =>
    have hMono : j * k ≤ j' * k := Nat.mul_le_mul_right k hj
    rw [streamBlocks_succ, List.take_append_of_le_length, ih]
    rw [length_streamBlocks hE hR]
    omega

/-- Any number of blocks that is enough gives the same `d` bytes. -/
theorem take_streamBlocks (hk : 0 < k) (hE : ∀ s, (E s).length = k) (hR : R.length = k) {d j : Nat}
    (hEnough : d ≤ j * k) : (streamBlocks E ctr R j).take d = stream E ctr R k d := by
  have hCeil : (d + (k - 1)) / k ≤ j := by
    rw [Nat.div_le_iff_le_mul_add_pred hk, Nat.mul_comm]
    omega
  have hCeilEnough : d ≤ (d + (k - 1)) / k * k := by
    have := Nat.div_add_mod (d + (k - 1)) k
    have := Nat.mod_lt (d + (k - 1)) hk
    rw [Nat.mul_comm]
    omega
  exact take_streamBlocks_mono hE hR hCeilEnough hCeil

theorem length_stream (hk : 0 < k) (hE : ∀ s, (E s).length = k) (hR : R.length = k) (d : Nat) :
    (stream E ctr R k d).length = d := by
  have hEnough : d ≤ d * k := Nat.le_mul_of_pos_right d hk
  rw [← take_streamBlocks hk hE hR hEnough, List.length_take, length_streamBlocks hE hR]
  omega

/-- Only the counters of the blocks in use matter. -/
theorem stream_congr {ctr' : Nat → List UInt8} {d : Nat}
    (h : ∀ j < (d + (k - 1)) / k, ctr j = ctr' j) : stream E ctr R k d = stream E ctr' R k d := by
  have hBlocks : ∀ j ∈ List.range ((d + (k - 1)) / k),
      streamBlock E ctr R j = streamBlock E ctr' R j := by
    intro j hj
    cases j with
    | zero => rfl
    | succ j => rw [streamBlock, streamBlock, h (j + 1) (List.mem_range.mp hj)]
  rw [stream, stream, streamBlocks, streamBlocks, List.flatMap_congr hBlocks]

/-- The first block of the expansion is R itself. -/
theorem stream_blockSize (hk : 0 < k) (hR : R.length = k) : stream E ctr R k k = R := by
  have hOne : (k + (k - 1)) / k = 1 := by
    rw [Nat.add_div_left _ hk, Nat.div_eq_of_lt (by omega)]
  have hFirst : streamBlocks E ctr R 1 = R := by simp [streamBlocks, streamBlock]
  rw [stream, hOne, hFirst, List.take_of_length_le hR.le]

/-- Where the block function vanishes on the counters in use, R is followed by zeros. -/
theorem stream_of_zero (hk : 0 < k) (hE : ∀ s, (E s).length = k) (hR : R.length = k) {d j : Nat}
    (hZero : ∀ i < j, E (xor R (ctr (i + 1))) = List.replicate k 0) (hd : d ≤ (j + 1) * k) :
    stream E ctr R k d = (R ++ List.replicate (j * k) 0).take d := by
  have hBlocks : streamBlocks E ctr R (j + 1) = R ++ List.replicate (j * k) 0 := by
    clear hd
    induction j with
    | zero => simp [streamBlocks, streamBlock]
    | succ j ih =>
      rw [streamBlocks_succ, ih fun i hi => hZero i (by omega), streamBlock, hZero j (by omega),
        List.append_assoc, List.replicate_append_replicate, Nat.add_mul, one_mul]
  rw [← take_streamBlocks hk hE hR hd, hBlocks]

/-- A shorter expansion is a prefix of a longer one. -/
theorem take_stream (hk : 0 < k) (hE : ∀ s, (E s).length = k) (hR : R.length = k) {d d' : Nat}
    (h : d ≤ d') : (stream E ctr R k d').take d = stream E ctr R k d := by
  have hEnough : d' ≤ d' * k := Nat.le_mul_of_pos_right d' hk
  rw [← take_streamBlocks hk hE hR hEnough, ← take_streamBlocks hk hE hR (h.trans hEnough),
    List.take_take, Nat.min_eq_left h]

end Expansion

end BlockMode
