import Mathlib.Data.List.Flatten
import IndicCrypt.Library.BlockMode
import IndicCrypt.Library.Positional

/-!
# CBC-MAC on prefix-free messages

On finitely many messages, none a prefix of another, a CBC-MAC can be any function: for
prescribed tags there is a block function whose CBC-MAC has them (`exists_cbcMac_eq`). The
function may also be prescribed to vanish on blocks that start no message.

The chaining values are chosen one proper prefix at a time, each so that the inputs it leads
to are new (`exists_fresh`). Every input of the block function then determines the prefix of
the messages that leads to it.
-/

namespace BlockMode

variable {k : Nat}

/-! ## Fresh blocks -/

theorem xor_cancel {s t : List UInt8} (h : s.length = t.length) : xor (xor s t) t = s := by
  rw [xor_assoc, xor_self, ← h, xor_zero]

theorem xor_left_inj {s t n : List UInt8} (hs : s.length = n.length) (ht : t.length = n.length)
    (h : xor s n = xor t n) : s = t := by
  rw [← xor_cancel hs, h, xor_cancel ht]

theorem xor_right_inj {s m n : List UInt8} (hm : m.length = s.length) (hn : n.length = s.length)
    (h : xor s m = xor s n) : m = n := by
  rw [xor_comm s m, xor_comm s n] at h
  exact xor_left_inj hm hn h

/-- A list shorter than the number of blocks misses one. -/
theorem exists_block_notMem {bad : List (List UInt8)} (h : bad.length < 256 ^ k) :
    ∃ s : List UInt8, s.length = k ∧ s ∉ bad := by
  by_contra hAll
  have hBlocks : ∀ x < 256 ^ k, Positional.bytes k x ∈ bad := by
    intro x _
    by_contra hNot
    exact hAll ⟨_, Positional.length_bytes k x, hNot⟩
  have hNodup : ((List.range (256 ^ k)).map (Positional.bytes k)).Nodup := by
    refine List.Nodup.map_on ?_ List.nodup_range
    intro x hx y hy hEq
    exact Positional.bytes_inj (List.mem_range.mp hx) (List.mem_range.mp hy) hEq
  have hSubset : (List.range (256 ^ k)).map (Positional.bytes k) ⊆ bad := by
    intro s hs
    obtain ⟨x, hx, rfl⟩ := List.mem_map.mp hs
    exact hBlocks x (List.mem_range.mp hx)
  have hLength := (hNodup.subperm hSubset).length_le
  rw [List.length_map, List.length_range] at hLength
  omega

/-! ## Fresh chaining values -/

/-- The blocks `σ i` lead, by one of the blocks of `Ns`, to inputs that are not in `As` and
that determine `i`. -/
structure Fresh {ι : Type} (k : Nat) (Ns As : List (List UInt8)) (I : List ι)
    (σ : ι → List UInt8) : Prop where
  length_eq : ∀ i ∈ I, (σ i).length = k
  notMem : ∀ i ∈ I, ∀ n ∈ Ns, xor (σ i) n ∉ As
  inj : ∀ i ∈ I, ∀ j ∈ I, ∀ n ∈ Ns, ∀ m ∈ Ns, xor (σ i) n = xor (σ j) m → i = j

/-- The inputs that are taken once `σ` is chosen on `I`. -/
def taken {ι : Type} (Ns As : List (List UInt8)) (I : List ι) (σ : ι → List UInt8) :
    List (List UInt8) :=
  As ++ I.flatMap fun i => Ns.map fun n => xor (σ i) n

theorem mem_taken_left {ι : Type} {Ns As : List (List UInt8)} {I : List ι} {σ : ι → List UInt8}
    {a : List UInt8} (h : a ∈ As) : a ∈ taken Ns As I σ := List.mem_append_left _ h

theorem mem_taken_right {ι : Type} {Ns As : List (List UInt8)} {I : List ι} {σ : ι → List UInt8}
    {i : ι} {n : List UInt8} (hi : i ∈ I) (hn : n ∈ Ns) : xor (σ i) n ∈ taken Ns As I σ :=
  List.mem_append_right _ (List.mem_flatMap.mpr ⟨i, hi, List.mem_map.mpr ⟨n, hn, rfl⟩⟩)

theorem length_taken {ι : Type} (Ns As : List (List UInt8)) (I : List ι) (σ : ι → List UInt8) :
    (taken Ns As I σ).length = As.length + I.length * Ns.length := by
  simp [taken, List.length_flatMap]

/-- One more chaining value. -/
theorem Fresh.extend {ι : Type} [DecidableEq ι] {Ns As : List (List UInt8)} {I : List ι}
    {σ : ι → List UInt8} (hσ : Fresh k Ns As I σ) (hNs : ∀ n ∈ Ns, n.length = k) {i : ι}
    (hNew : i ∉ I) (hRoom : (As.length + I.length * Ns.length) * Ns.length < 256 ^ k) :
    ∃ s : List UInt8, Fresh k Ns As (i :: I) (Function.update σ i s) := by
  obtain ⟨hLength, hAs, hInjective⟩ := hσ
  have hBad : ((taken Ns As I σ).flatMap fun a => Ns.map fun n => xor a n).length < 256 ^ k := by
    simpa [List.length_flatMap, length_taken] using hRoom
  obtain ⟨s, hs, hFresh⟩ := exists_block_notMem hBad
  -- no input of `s` is taken
  have hNot : ∀ n ∈ Ns, xor s n ∉ taken Ns As I σ := by
    intro n hn hTaken
    apply hFresh
    refine List.mem_flatMap.mpr ⟨_, hTaken, List.mem_map.mpr ⟨n, hn, ?_⟩⟩
    exact xor_cancel (hs.trans (hNs n hn).symm)
  have hOld : ∀ j ∈ I, Function.update σ i s j = σ j := by
    intro j hj
    apply Function.update_of_ne
    rintro rfl
    exact hNew hj
  refine ⟨s, ?_, ?_, ?_⟩
  · intro j hj
    rcases List.mem_cons.mp hj with rfl | hj
    · rw [Function.update_self]
      exact hs
    · rw [hOld j hj]
      exact hLength j hj
  · intro j hj n hn
    rcases List.mem_cons.mp hj with rfl | hj
    · rw [Function.update_self]
      exact fun hMem => hNot n hn (mem_taken_left hMem)
    · rw [hOld j hj]
      exact hAs j hj n hn
  · intro j hj j' hj' n hn m hm hEq
    rcases List.mem_cons.mp hj with hSame | hj <;> rcases List.mem_cons.mp hj' with hSame' | hj'
    · rw [hSame, hSame']
    · rw [hSame, Function.update_self, hOld j' hj'] at hEq
      exact absurd (hEq ▸ mem_taken_right hj' hm) (hNot n hn)
    · rw [hSame', Function.update_self, hOld j hj] at hEq
      exact absurd (hEq.symm ▸ mem_taken_right hj hn) (hNot m hm)
    · rw [hOld j hj, hOld j' hj'] at hEq
      exact hInjective j hj j' hj' n hn m hm hEq

theorem exists_fresh {ι : Type} [DecidableEq ι] {Ns : List (List UInt8)}
    (hNs : ∀ n ∈ Ns, n.length = k) (As : List (List UInt8)) (I : List ι)
    (hRoom : (As.length + I.length * Ns.length) * Ns.length < 256 ^ k) :
    ∃ σ : ι → List UInt8, Fresh k Ns As I σ := by
  induction I with
  | nil => exact ⟨fun _ => [], by simp, by simp, by simp⟩
  | cons i I ih =>
    have hLess : (As.length + I.length * Ns.length) * Ns.length < 256 ^ k := by
      refine lt_of_le_of_lt (Nat.mul_le_mul_right _ ?_) hRoom
      rw [List.length_cons, Nat.add_mul]
      omega
    obtain ⟨σ, hσ⟩ := ih hLess
    by_cases hOld : i ∈ I
    · have hMem : ∀ j, j ∈ i :: I → j ∈ I := by
        intro j hj
        rcases List.mem_cons.mp hj with rfl | hj
        · exact hOld
        · exact hj
      exact ⟨σ, fun j hj => hσ.length_eq j (hMem j hj), fun j hj => hσ.notMem j (hMem j hj),
        fun j hj j' hj' => hσ.inj j (hMem j hj) j' (hMem j' hj')⟩
    · obtain ⟨s, hs⟩ := hσ.extend hNs hOld hLess
      exact ⟨_, hs⟩

/-! ## Prescribed tags -/

section Prescribed

variable {messages : List (List (List UInt8))}

/-- All prefixes of the messages. -/
def prefixes (messages : List (List (List UInt8))) : List (List (List UInt8)) :=
  messages.flatMap List.inits

theorem mem_prefixes {ρ : List (List UInt8)} :
    ρ ∈ prefixes messages ↔ ∃ M ∈ messages, ρ <+: M := by
  simp [prefixes, List.mem_flatMap]

theorem prefixes_left {ρ ρ' : List (List UInt8)} (h : ρ ++ ρ' ∈ prefixes messages) :
    ρ ∈ prefixes messages := by
  obtain ⟨M, hM, hPrefix⟩ := mem_prefixes.mp h
  exact mem_prefixes.mpr ⟨M, hM, (List.prefix_append ρ ρ').trans hPrefix⟩

theorem mem_flatten_of_prefixes {ρ : List (List UInt8)} {n : List UInt8}
    (h : ρ ++ [n] ∈ prefixes messages) : n ∈ messages.flatten := by
  obtain ⟨M, hM, hPrefix⟩ := mem_prefixes.mp h
  exact List.mem_flatten.mpr ⟨M, hM, hPrefix.subset (by simp)⟩

theorem length_flatMap_le {α β : Type} {f : α → List β} {xs : List α} {b : Nat}
    (h : ∀ x ∈ xs, (f x).length ≤ b) : (xs.flatMap f).length ≤ xs.length * b := by
  induction xs with
  | nil => simp
  | cons x xs ih =>
    have hHead := h x (by simp)
    have hTail := ih fun y hy => h y (by simp [hy])
    rw [List.flatMap_cons, List.length_append, List.length_cons, Nat.add_mul]
    omega

/-- Chaining values for all prefixes, when the blocks are large enough. -/
theorem exists_fresh_prefixes {m l : Nat} (hCount : messages.length ≤ m)
    (hLength : ∀ M ∈ messages, M.length ≤ l) (hBlocks : ∀ n ∈ messages.flatten, n.length = k)
    (avoid : List (List UInt8))
    (hRoom : (m * l + avoid.length + m * (l + 1) * (m * l)) * (m * l) < 256 ^ k) :
    ∃ σ : List (List UInt8) → List UInt8,
      Fresh k messages.flatten (messages.flatten ++ avoid) (prefixes messages) σ := by
  have hFlatten : messages.flatten.length ≤ m * l := by
    rw [← List.flatMap_id]
    exact (length_flatMap_le hLength).trans (Nat.mul_le_mul_right _ hCount)
  have hPrefixes : (prefixes messages).length ≤ m * (l + 1) := by
    refine (length_flatMap_le (b := l + 1) fun M hM => ?_).trans (Nat.mul_le_mul_right _ hCount)
    have := hLength M hM
    simpa using this
  apply exists_fresh hBlocks
  refine lt_of_le_of_lt (Nat.mul_le_mul ?_ hFlatten) hRoom
  rw [List.length_append]
  exact Nat.add_le_add (Nat.add_le_add_right hFlatten _) (Nat.mul_le_mul hPrefixes hFlatten)

/-- The chaining value after a proper prefix. -/
def chain (k : Nat) (σ : List (List UInt8) → List UInt8) (ρ : List (List UInt8)) : List UInt8 :=
  if ρ = [] then List.replicate k 0 else σ ρ

theorem zero_xor {n : List UInt8} (h : n.length = k) : xor (List.replicate k 0) n = n := by
  rw [xor_comm, ← h, xor_zero]

variable {avoid : List (List UInt8)} {σ : List (List UInt8) → List UInt8}

/-- An input belongs to one prefix only. -/
theorem chain_inj (hBlocks : ∀ n ∈ messages.flatten, n.length = k)
    (hσ : Fresh k messages.flatten (messages.flatten ++ avoid) (prefixes messages) σ)
    {ρ ρ' : List (List UInt8)} {n n' : List UInt8} (h : ρ ++ [n] ∈ prefixes messages)
    (h' : ρ' ++ [n'] ∈ prefixes messages) (hEq : xor (chain k σ ρ) n = xor (chain k σ ρ') n') :
    ρ ++ [n] = ρ' ++ [n'] := by
  have hn := mem_flatten_of_prefixes h
  have hn' := mem_flatten_of_prefixes h'
  have hFirst : ∀ m ∈ messages.flatten, m ∈ messages.flatten ++ avoid :=
    fun m hm => List.mem_append_left _ hm
  unfold chain at hEq
  by_cases hNil : ρ = [] <;> by_cases hNil' : ρ' = []
  · rw [if_pos hNil, if_pos hNil', zero_xor (hBlocks n hn), zero_xor (hBlocks n' hn')] at hEq
    rw [hNil, hNil', hEq]
  · rw [if_pos hNil, if_neg hNil', zero_xor (hBlocks n hn)] at hEq
    exact absurd (hEq ▸ hFirst n hn) (hσ.notMem ρ' (prefixes_left h') n' hn')
  · rw [if_neg hNil, if_pos hNil', zero_xor (hBlocks n' hn')] at hEq
    exact absurd (hEq.symm ▸ hFirst n' hn') (hσ.notMem ρ (prefixes_left h) n hn)
  · rw [if_neg hNil, if_neg hNil'] at hEq
    have hSame := hσ.inj ρ (prefixes_left h) ρ' (prefixes_left h') n hn n' hn' hEq
    subst hSame
    have hLength := hσ.length_eq ρ (prefixes_left h)
    rw [xor_right_inj ((hBlocks n hn).trans hLength.symm) ((hBlocks n' hn').trans hLength.symm) hEq]

open Classical in
/-- The block function that leads from prefix to prefix, and to the tag at the end. -/
noncomputable def prescribed (k : Nat) (messages : List (List (List UInt8)))
    (σ tag : List (List UInt8) → List UInt8) (z : List UInt8) : List UInt8 :=
  if h : ∃ π : List (List UInt8) × List UInt8,
      π.1 ++ [π.2] ∈ prefixes messages ∧ z = xor (chain k σ π.1) π.2 then
    if h.choose.1 ++ [h.choose.2] ∈ messages then tag (h.choose.1 ++ [h.choose.2])
    else σ (h.choose.1 ++ [h.choose.2])
  else List.replicate k 0

variable {tag : List (List UInt8) → List UInt8}

open Classical in
theorem prescribed_step (hBlocks : ∀ n ∈ messages.flatten, n.length = k)
    (hσ : Fresh k messages.flatten (messages.flatten ++ avoid) (prefixes messages) σ)
    {ρ : List (List UInt8)} {n : List UInt8} (h : ρ ++ [n] ∈ prefixes messages) :
    prescribed k messages σ tag (xor (chain k σ ρ) n) =
      if ρ ++ [n] ∈ messages then tag (ρ ++ [n]) else σ (ρ ++ [n]) := by
  have hExists : ∃ π : List (List UInt8) × List UInt8, π.1 ++ [π.2] ∈ prefixes messages ∧
      xor (chain k σ ρ) n = xor (chain k σ π.1) π.2 := ⟨(ρ, n), h, rfl⟩
  have hSame := chain_inj hBlocks hσ h hExists.choose_spec.1 hExists.choose_spec.2
  rw [prescribed, dif_pos hExists, ← hSame]

theorem length_prescribed
    (hσ : Fresh k messages.flatten (messages.flatten ++ avoid) (prefixes messages) σ)
    (hTag : ∀ M, (tag M).length = k) (z : List UInt8) :
    (prescribed k messages σ tag z).length = k := by
  unfold prescribed
  split
  · rename_i hPrefix
    split
    · exact hTag _
    · exact hσ.length_eq _ hPrefix.choose_spec.1
  · exact List.length_replicate

/-- The chaining value after a proper prefix is the chosen one: no proper prefix is a message. -/
theorem cbcMac_prescribed (hBlocks : ∀ n ∈ messages.flatten, n.length = k)
    (hσ : Fresh k messages.flatten (messages.flatten ++ avoid) (prefixes messages) σ)
    (hFree : ∀ M ∈ messages, ∀ M' ∈ messages, M <+: M' → M = M')
    {M : List (List UInt8)} (hM : M ∈ messages) (ρ : List (List UInt8)) (hPrefix : ρ <+: M)
    (hProper : ρ ≠ M) :
    cbcMac (prescribed k messages σ tag) (List.replicate k 0) ρ = chain k σ ρ := by
  induction ρ using List.reverseRecOn with
  | nil => simp [cbcMac, chain]
  | append_singleton ρ n ih =>
    have hLeft : ρ <+: M := (List.prefix_append ρ [n]).trans hPrefix
    have hNotLeft : ρ ≠ M := by
      rintro rfl
      have := hPrefix.length_le
      simp at this
    have hInside : ρ ++ [n] ∉ messages := fun hMem => hProper (hFree _ hMem M hM hPrefix)
    rw [cbcMac_concat, ih hLeft hNotLeft,
      prescribed_step hBlocks hσ (mem_prefixes.mpr ⟨M, hM, hPrefix⟩), if_neg hInside, chain,
      if_neg (by simp)]

/-- Blocks to be avoided, none of them the first of a message, are not met. -/
theorem prescribed_of_mem_avoid (hBlocks : ∀ n ∈ messages.flatten, n.length = k)
    (hσ : Fresh k messages.flatten (messages.flatten ++ avoid) (prefixes messages) σ)
    (hAvoid : ∀ M ∈ messages, ∀ n, [n] <+: M → n ∉ avoid) {z : List UInt8} (hz : z ∈ avoid) :
    prescribed k messages σ tag z = List.replicate k 0 := by
  have hNone : ¬ ∃ π : List (List UInt8) × List UInt8,
      π.1 ++ [π.2] ∈ prefixes messages ∧ z = xor (chain k σ π.1) π.2 := by
    rintro ⟨⟨ρ, n⟩, hPrefix, rfl⟩
    unfold chain at hz
    by_cases hNil : ρ = []
    · subst hNil
      obtain ⟨M, hM, hHead⟩ := mem_prefixes.mp hPrefix
      rw [if_pos rfl, zero_xor (hBlocks n (mem_flatten_of_prefixes hPrefix))] at hz
      exact hAvoid M hM n hHead hz
    · rw [if_neg hNil] at hz
      exact hσ.notMem ρ (prefixes_left hPrefix) n (mem_flatten_of_prefixes hPrefix)
        (List.mem_append_right _ hz)
  rw [prescribed, dif_neg hNone]

/-- **A CBC-MAC with prescribed tags.** On `m` messages of at most `l` blocks, none a prefix
of another, every function is a CBC-MAC, provided the blocks are large enough. -/
theorem exists_cbcMac_eq {m l : Nat} (hCount : messages.length ≤ m)
    (hLength : ∀ M ∈ messages, M.length ≤ l) (hBlocks : ∀ M ∈ messages, ∀ n ∈ M, n.length = k)
    (hNonempty : ∀ M ∈ messages, M ≠ [])
    (hFree : ∀ M ∈ messages, ∀ M' ∈ messages, M <+: M' → M = M')
    (tag : List (List UInt8) → List UInt8) (hTag : ∀ M, (tag M).length = k)
    (avoid : List (List UInt8)) (hAvoid : ∀ M ∈ messages, ∀ n, [n] <+: M → n ∉ avoid)
    (hRoom : (m * l + avoid.length + m * (l + 1) * (m * l)) * (m * l) < 256 ^ k) :
    ∃ E : List UInt8 → List UInt8, (∀ z, (E z).length = k) ∧
      (∀ M ∈ messages, cbcMac E (List.replicate k 0) M = tag M) ∧
      ∀ z ∈ avoid, E z = List.replicate k 0 := by
  classical
  have hFlat : ∀ n ∈ messages.flatten, n.length = k := by
    intro n hn
    obtain ⟨M, hM, hMem⟩ := List.mem_flatten.mp hn
    exact hBlocks M hM n hMem
  obtain ⟨σ, hσ⟩ := exists_fresh_prefixes hCount hLength hFlat avoid hRoom
  refine ⟨prescribed k messages σ tag, length_prescribed hσ hTag, ?_,
    fun z hz => prescribed_of_mem_avoid hFlat hσ hAvoid hz⟩
  intro M hM
  rcases List.eq_nil_or_concat' M with hNil | ⟨ρ, n, rfl⟩
  · exact absurd hNil (hNonempty M hM)
  · have hProper : ρ ≠ ρ ++ [n] := by simp
    rw [cbcMac_concat, cbcMac_prescribed hFlat hσ hFree hM ρ (List.prefix_append ρ [n]) hProper,
      prescribed_step hFlat hσ (mem_prefixes.mpr ⟨_, hM, List.prefix_rfl⟩), if_pos hM]

end Prescribed

end BlockMode
