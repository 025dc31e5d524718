import IndicCrypt.Library.CbcMac

/-!
# Prescribed expansions

The tag of a CBC-MAC, expanded by the block function itself under a counter, is a stream of
blocks. On finitely many messages, none a prefix of another, the whole streams can be prescribed
(`exists_stream_eq`), as long as the inputs of the expansions are different from each other and
from the first blocks of the messages: the block function with the prescribed tags is changed at
those inputs, and no chaining comes across them.
-/

namespace BlockMode

variable {k : Nat}

/-- Block functions that agree on what is met on the way have the same CBC-MAC. -/
theorem cbcMac_congr {E E' : List UInt8 → List UInt8} {R : List UInt8} {M : List (List UInt8)}
    (h : ∀ ρ n, ρ ++ [n] <+: M → E' (xor (cbcMac E R ρ) n) = E (xor (cbcMac E R ρ) n)) :
    cbcMac E' R M = cbcMac E R M := by
  induction M using List.reverseRecOn with
  | nil => rfl
  | append_singleton M n ih =>
    have hBefore := ih fun ρ m hPrefix => h ρ m (hPrefix.trans (List.prefix_append M [n]))
    rw [cbcMac_concat, cbcMac_concat, hBefore, h M n List.prefix_rfl]

/-! ## The block function -/

/-- The inputs of the expansions, of `count` further blocks each. -/
def expansionInputs (ctr : Nat → List UInt8) (count : Nat)
    (tag : List (List UInt8) → List UInt8) (messages : List (List (List UInt8))) :
    List (List UInt8) :=
  messages.flatMap fun M => (List.range count).map fun j => xor (tag M) (ctr (j + 1))

variable {messages : List (List (List UInt8))} {σ tag : List (List UInt8) → List UInt8}
  {ctr : Nat → List UInt8} {count : Nat} {follow : List (List UInt8) → Nat → List UInt8}

theorem mem_expansionInputs {z : List UInt8} : z ∈ expansionInputs ctr count tag messages ↔
    ∃ M ∈ messages, ∃ j < count, xor (tag M) (ctr (j + 1)) = z := by
  simp only [expansionInputs, List.mem_flatMap, List.mem_map, List.mem_range]

open Classical in
/-- `prescribed`, changed at the inputs of the expansions. -/
noncomputable def expanding (k : Nat) (messages : List (List (List UInt8)))
    (σ tag : List (List UInt8) → List UInt8) (ctr : Nat → List UInt8) (count : Nat)
    (follow : List (List UInt8) → Nat → List UInt8) (z : List UInt8) : List UInt8 :=
  if h : ∃ π : List (List UInt8) × Nat, π.1 ∈ messages ∧ π.2 < count ∧
      xor (tag π.1) (ctr (π.2 + 1)) = z then
    follow h.choose.1 h.choose.2
  else prescribed k messages σ tag z

theorem expanding_of_notMem {z : List UInt8} (h : z ∉ expansionInputs ctr count tag messages) :
    expanding k messages σ tag ctr count follow z = prescribed k messages σ tag z := by
  have hNone : ¬ ∃ π : List (List UInt8) × Nat, π.1 ∈ messages ∧ π.2 < count ∧
      xor (tag π.1) (ctr (π.2 + 1)) = z := by
    intro hSome
    obtain ⟨⟨M, j⟩, hM, hj, hInput⟩ := hSome
    exact h (mem_expansionInputs.mpr ⟨M, hM, j, hj, hInput⟩)
  rw [expanding, dif_neg hNone]

theorem length_expanding (hPrescribed : ∀ z, (prescribed k messages σ tag z).length = k)
    (hFollow : ∀ M, ∀ j < count, (follow M j).length = k) (z : List UInt8) :
    (expanding k messages σ tag ctr count follow z).length = k := by
  unfold expanding
  split
  next hSome => exact hFollow _ _ hSome.choose_spec.2.1
  next => exact hPrescribed z

/-- The inputs of the expansions belong to one message and one block each. -/
def Distinct (ctr : Nat → List UInt8) (count : Nat) (tag : List (List UInt8) → List UInt8)
    (messages : List (List (List UInt8))) : Prop :=
  ∀ M ∈ messages, ∀ M' ∈ messages, ∀ j < count, ∀ j' < count,
    xor (tag M) (ctr (j + 1)) = xor (tag M') (ctr (j' + 1)) → M = M' ∧ j = j'

theorem expanding_of_input (hDistinct : Distinct ctr count tag messages)
    {M : List (List UInt8)} (hM : M ∈ messages) {j : Nat} (hj : j < count) :
    expanding k messages σ tag ctr count follow (xor (tag M) (ctr (j + 1))) = follow M j := by
  have hSome : ∃ π : List (List UInt8) × Nat, π.1 ∈ messages ∧ π.2 < count ∧
      xor (tag π.1) (ctr (π.2 + 1)) = xor (tag M) (ctr (j + 1)) := ⟨(M, j), hM, hj, rfl⟩
  obtain ⟨hMem, hLt, hInput⟩ := hSome.choose_spec
  obtain ⟨hSame, hSameBlock⟩ := hDistinct _ hMem M hM _ hLt j hj hInput
  rw [expanding, dif_pos hSome, hSame, hSameBlock]

/-! ## Streams -/

/-- Chaining comes across no input of an expansion. -/
theorem chain_notMem_expansionInputs (hBlocks : ∀ n ∈ messages.flatten, n.length = k)
    (hσ : Fresh k messages.flatten
      (messages.flatten ++ expansionInputs ctr count tag messages) (prefixes messages) σ)
    (hHead : ∀ M ∈ messages, ∀ n, [n] <+: M → n ∉ expansionInputs ctr count tag messages)
    {ρ : List (List UInt8)} {n : List UInt8} (hPrefix : ρ ++ [n] ∈ prefixes messages) :
    xor (chain k σ ρ) n ∉ expansionInputs ctr count tag messages := by
  intro hMem
  have hn := mem_flatten_of_prefixes hPrefix
  unfold chain at hMem
  by_cases hNil : ρ = []
  · subst hNil
    obtain ⟨M, hM, hFirst⟩ := mem_prefixes.mp hPrefix
    rw [if_pos rfl, zero_xor (hBlocks n hn)] at hMem
    exact hHead M hM n hFirst hMem
  · rw [if_neg hNil] at hMem
    exact hσ.notMem ρ (prefixes_left hPrefix) n hn (List.mem_append_right _ hMem)

theorem cbcMac_expanding (hBlocks : ∀ n ∈ messages.flatten, n.length = k)
    (hσ : Fresh k messages.flatten
      (messages.flatten ++ expansionInputs ctr count tag messages) (prefixes messages) σ)
    (hFree : ∀ M ∈ messages, ∀ M' ∈ messages, M <+: M' → M = M')
    (hHead : ∀ M ∈ messages, ∀ n, [n] <+: M → n ∉ expansionInputs ctr count tag messages)
    {M : List (List UInt8)} (hM : M ∈ messages) (hNonempty : M ≠ []) :
    cbcMac (expanding k messages σ tag ctr count follow) (List.replicate k 0) M = tag M := by
  have hMac (ρ : List (List UInt8)) (n : List UInt8) (hPrefix : ρ ++ [n] <+: M) :
      cbcMac (prescribed k messages σ tag) (List.replicate k 0) ρ = chain k σ ρ := by
    refine cbcMac_prescribed hBlocks hσ hFree hM ρ ((List.prefix_append ρ [n]).trans hPrefix) ?_
    intro hSame
    have hLength := hPrefix.length_le
    rw [hSame, List.length_append, List.length_singleton] at hLength
    omega
  have hSame : cbcMac (expanding k messages σ tag ctr count follow) (List.replicate k 0) M =
      cbcMac (prescribed k messages σ tag) (List.replicate k 0) M := by
    refine cbcMac_congr fun ρ n hPrefix => expanding_of_notMem ?_
    rw [hMac ρ n hPrefix]
    exact chain_notMem_expansionInputs hBlocks hσ hHead (mem_prefixes.mpr ⟨M, hM, hPrefix⟩)
  rcases List.eq_nil_or_concat' M with hNil | ⟨ρ, n, hConcat⟩
  · exact absurd hNil hNonempty
  · have hPrefix : ρ ++ [n] <+: M := hConcat ▸ List.prefix_rfl
    have hWhole : ρ ++ [n] ∈ prefixes messages := mem_prefixes.mpr ⟨M, hM, hPrefix⟩
    rw [hSame, hConcat, cbcMac_concat, hMac ρ n hPrefix, prescribed_step hBlocks hσ hWhole,
      ← hConcat, if_pos hM]

/-- **A CBC-MAC with prescribed expansions.** On `m` messages of at most `l` blocks, none a prefix
of another, the tags and the further blocks of their expansions can be any, provided the blocks
are large enough and the inputs of the expansions are new. -/
theorem exists_stream_eq {m l : Nat} (hCount : messages.length ≤ m)
    (hLength : ∀ M ∈ messages, M.length ≤ l) (hBlocks : ∀ M ∈ messages, ∀ n ∈ M, n.length = k)
    (hNonempty : ∀ M ∈ messages, M ≠ [])
    (hFree : ∀ M ∈ messages, ∀ M' ∈ messages, M <+: M' → M = M')
    (hTag : ∀ M, (tag M).length = k) (hFollow : ∀ M, ∀ j < count, (follow M j).length = k)
    (hDistinct : Distinct ctr count tag messages)
    (hHead : ∀ M ∈ messages, ∀ n, [n] <+: M → n ∉ expansionInputs ctr count tag messages)
    (hRoom : (m * l + m * count + m * (l + 1) * (m * l)) * (m * l) < 256 ^ k) :
    ∃ E : List UInt8 → List UInt8, (∀ z, (E z).length = k) ∧
      ∀ M ∈ messages, cbcMac E (List.replicate k 0) M = tag M ∧
        ∀ j < count, E (xor (tag M) (ctr (j + 1))) = follow M j := by
  classical
  have hFlat : ∀ n ∈ messages.flatten, n.length = k := by
    intro n hn
    obtain ⟨M, hM, hMem⟩ := List.mem_flatten.mp hn
    exact hBlocks M hM n hMem
  have hInputs : (expansionInputs ctr count tag messages).length ≤ m * count := by
    refine (length_flatMap_le fun M _ => ?_).trans (Nat.mul_le_mul_right _ hCount)
    rw [List.length_map, List.length_range]
  obtain ⟨σ, hσ⟩ := exists_fresh_prefixes hCount hLength hFlat
    (expansionInputs ctr count tag messages) (lt_of_le_of_lt (Nat.mul_le_mul_right _
      (Nat.add_le_add_right (Nat.add_le_add_left hInputs _) _)) hRoom)
  exact ⟨expanding k messages σ tag ctr count follow,
    length_expanding (length_prescribed hσ hTag) hFollow,
    fun M hM => ⟨cbcMac_expanding hFlat hσ hFree hHead hM (hNonempty M hM),
      fun j hj => expanding_of_input hDistinct hM hj⟩⟩

/-- Where the further blocks are those of a string, the stream is that string. -/
theorem stream_of_blocks {E : List UInt8 → List UInt8} {s : List UInt8} (hk : 0 < k)
    (hE : ∀ z, (E z).length = k) (hSize : s.length = (count + 1) * k)
    (hFollow : ∀ j < count, E (xor (s.take k) (ctr (j + 1))) = (s.drop ((j + 1) * k)).take k)
    {d : Nat} (hd : d ≤ (count + 1) * k) : stream E ctr (s.take k) k d = s.take d := by
  have hFirst : (s.take k).length = k := by
    rw [List.length_take, hSize, Nat.add_mul, one_mul]
    omega
  have hBlock : ∀ j ∈ List.range (count + 1),
      streamBlock E ctr (s.take k) j = (s.drop (j * k)).take k := by
    intro j hj
    cases j with
    | zero => rw [streamBlock, Nat.zero_mul, List.drop_zero]
    | succ j => exact hFollow j (by have := List.mem_range.mp hj; omega)
  have hWhole : streamBlocks E ctr (s.take k) (count + 1) = s := by
    rw [streamBlocks, List.flatMap_congr hBlock, List.flatMap_def]
    have hFlatten := flatten_blocks hk (hSize ▸ Nat.dvd_mul_left k (count + 1))
    rwa [blocks, hSize, Nat.mul_div_cancel _ hk] at hFlatten
  rw [← take_streamBlocks hk hE hFirst hd, hWhole]

end BlockMode
