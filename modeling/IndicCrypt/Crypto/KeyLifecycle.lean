import Mathlib.Data.List.Forall2
import Mathlib.Logic.Function.Basic
import IndicCrypt.Crypto.Types

/-!
# The lifetime of keys

A `Key` owns the buffer of its vector. Its constructor and its moves hand buffers on, and its
move assignment and destructor overwrite what they give up (`std::fill`) before the vector frees
it. `step` is one operation on the objects of a program; it is defined where the lifetimes of the
objects allow the operation.

`Store.step` says what the operations mean for the values of the keys. The objects have these
values in every run (`values_of_run`), each buffer has one owner until it is freed once, and
what a freed buffer held is overwritten (`buffers_of_run`). The capacity behind the bytes of a
vector is not overwritten.
-/

namespace IndicCrypt.Crypto.KeyLifecycle

/-! ## Buffers and objects -/

/-- A buffer: the bytes of the vector, the capacity behind them, and how often it was freed. -/
structure Buffer where
  used : Bytes
  slack : Bytes
  frees : Nat

/-- The buffers of all vectors that were ever built, and for each live object the buffer that its
vector holds, if it holds one. -/
structure Memory (Object : Type) where
  buffers : List Buffer
  objects : Object → Option (Option Nat)

inductive Operation (Object : Type) where
  | construct (key : Object) (bytes slack : Bytes)
  | moveConstruct (key other : Object)
  | moveAssign (key other : Object)
  | destroy (key : Object)

/-- `std::fill` over the bytes of the vector. -/
def fill (buffers : List Buffer) (held : Option Nat) : List Buffer :=
  match held with
  | none => buffers
  | some b => buffers.modify b fun buffer =>
      { buffer with used := List.replicate buffer.used.length 0 }

/-- The vector gives its buffer back. -/
def deallocate (buffers : List Buffer) (held : Option Nat) : List Buffer :=
  match held with
  | none => buffers
  | some b => buffers.modify b fun buffer => { buffer with frees := buffer.frees + 1 }

variable {Object : Type} [DecidableEq Object]

/-- One operation. A vector that was moved from holds no buffer. -/
def step (memory : Memory Object) : Operation Object → Option (Memory Object)
  | .construct key bytes slack =>
    match memory.objects key with
    | some _ => none
    | none => some
        { buffers := memory.buffers ++ [⟨bytes, slack, 0⟩]
          objects := Function.update memory.objects key (some (some memory.buffers.length)) }
  | .moveConstruct key other =>
    match memory.objects key, memory.objects other with
    | none, some held => some
        { memory with
          objects := Function.update (Function.update memory.objects other (some none)) key
            (some held) }
    | _, _ => none
  | .moveAssign key other =>
    match memory.objects key, memory.objects other with
    | some held, some taken =>
      if key = other then
        some memory
      else
        some
          { buffers := deallocate (fill memory.buffers held) held
            objects := Function.update (Function.update memory.objects key (some taken)) other
              (some none) }
    | _, _ => none
  | .destroy key =>
    match memory.objects key with
    | none => none
    | some held => some
        { buffers := deallocate (fill memory.buffers held) held
          objects := Function.update memory.objects key none }

def empty : Memory Object := ⟨[], fun _ => none⟩

def run (memory : Memory Object) (operations : List (Operation Object)) :
    Option (Memory Object) := operations.foldlM step memory

/-! ## Values -/

/-- The bytes of a vector that holds a buffer, or none. -/
def bytesOf (buffers : List Buffer) (held : Option Nat) : Bytes :=
  ((held.bind fun b => buffers[b]?).map Buffer.used).getD []

/-- The values of the live keys. -/
abbrev Store (Object : Type) := Object → Option Bytes

/-- What the objects show. -/
def Memory.store (memory : Memory Object) : Store Object :=
  Option.map (bytesOf memory.buffers) ∘ memory.objects

/-- What an operation means for the values: bytes move from one key to another, and none is
copied. -/
def Store.step (store : Store Object) : Operation Object → Option (Store Object)
  | .construct key bytes _ =>
    match store key with
    | some _ => none
    | none => some (Function.update store key (some bytes))
  | .moveConstruct key other =>
    match store key, store other with
    | none, some bytes =>
      some (Function.update (Function.update store other (some [])) key (some bytes))
    | _, _ => none
  | .moveAssign key other =>
    match store key, store other with
    | some _, some bytes =>
      if key = other then
        some store
      else
        some (Function.update (Function.update store key (some bytes)) other (some []))
    | _, _ => none
  | .destroy key =>
    match store key with
    | none => none
    | some _ => some (Function.update store key none)

def Store.run (store : Store Object) (operations : List (Operation Object)) :
    Option (Store Object) := operations.foldlM Store.step store

/-! ## Giving a buffer back -/

section Release

variable {buffers : List Buffer} {held : Option Nat} {b : Nat} {buffer : Buffer}

/-- A buffer is overwritten and freed. -/
def release (buffers : List Buffer) (held : Option Nat) : List Buffer :=
  deallocate (fill buffers held) held

theorem getElem?_release_of_ne (h : held ≠ some b) : (release buffers held)[b]? = buffers[b]? := by
  cases held with
  | none => rfl
  | some b' =>
    have hNe : b' ≠ b := fun hSame => h (congrArg some hSame)
    simp [release, deallocate, fill, hNe]

theorem getElem?_release (h : buffers[b]? = some buffer) :
    (release buffers (some b))[b]? =
      some ⟨List.replicate buffer.used.length 0, buffer.slack, buffer.frees + 1⟩ := by
  simp [release, deallocate, fill, h]

theorem bytesOf_release {other : Option Nat} (h : ∀ b, held = some b → other ≠ some b) :
    bytesOf (release buffers held) other = bytesOf buffers other := by
  cases other with
  | none => rfl
  | some b =>
    have hNe : held ≠ some b := fun hSame => h b hSame rfl
    simp only [bytesOf, Option.bind_some, getElem?_release_of_ne hNe]

end Release

/-! ## One owner -/

/-- The object holds the buffer. -/
def Memory.Holds (memory : Memory Object) (key : Object) (b : Nat) : Prop :=
  memory.objects key = some (some b)

/-- Each buffer that an object holds is not freed and held by no other object, and each buffer
that is not freed is held. -/
structure Owned (memory : Memory Object) : Prop where
  live : ∀ key b, memory.Holds key b → ∃ buffer, memory.buffers[b]? = some buffer ∧ buffer.frees = 0
  unique : ∀ key key' b, memory.Holds key b → memory.Holds key' b → key = key'
  covered : ∀ b buffer, memory.buffers[b]? = some buffer → buffer.frees = 0 →
    ∃ key, memory.Holds key b

section Steps

variable {memory : Memory Object} {buffers : List Buffer} {key other k : Object} {b : Nat}
  {held : Option Nat}

/-- Who holds a buffer after one object got another pointer. -/
theorem holds_update {left : Option (Option Nat)} {objects : Object → Option (Option Nat)} :
    (⟨buffers, Function.update objects key left⟩ : Memory Object).Holds k b ↔
      k = key ∧ left = some (some b) ∨ k ≠ key ∧ objects k = some (some b) := by
  unfold Memory.Holds
  by_cases hKey : k = key
  · simp [hKey]
  · simp [hKey]

omit [DecidableEq Object] in
theorem Owned.lt (h : Owned memory) (hHolds : memory.Holds k b) : b < memory.buffers.length := by
  obtain ⟨buffer, hBuffer, -⟩ := h.live k b hHolds
  exact (List.getElem?_eq_some_iff.mp hBuffer).1

/-- A new object holds a new buffer. -/
theorem Owned.construct (h : Owned memory) (hDead : memory.objects key = none)
    (bytes slack : Bytes) :
    Owned ⟨memory.buffers ++ [⟨bytes, slack, 0⟩],
      Function.update memory.objects key (some (some memory.buffers.length))⟩ := by
  refine ⟨fun k b hHolds => ?_, fun k k' b hHolds hHolds' => ?_, fun b buffer hBuffer hLive => ?_⟩
  · rcases holds_update.mp hHolds with ⟨-, hNew⟩ | ⟨-, hOld⟩
    · cases hNew
      exact ⟨_, List.getElem?_concat_length, rfl⟩
    · obtain ⟨buffer, hBuffer, hFrees⟩ := h.live k b hOld
      exact ⟨buffer, by rw [List.getElem?_append_left (h.lt hOld), hBuffer], hFrees⟩
  · rcases holds_update.mp hHolds with ⟨rfl, hNew⟩ | ⟨-, hOld⟩
    · rcases holds_update.mp hHolds' with ⟨rfl, -⟩ | ⟨-, hOld'⟩
      · rfl
      · cases hNew
        exact absurd (h.lt hOld') (Nat.lt_irrefl _)
    · rcases holds_update.mp hHolds' with ⟨-, hNew'⟩ | ⟨-, hOld'⟩
      · cases hNew'
        exact absurd (h.lt hOld) (Nat.lt_irrefl _)
      · exact h.unique k k' b hOld hOld'
  · by_cases hNew : b = memory.buffers.length
    · exact ⟨key, holds_update.mpr (.inl ⟨rfl, by rw [hNew]⟩)⟩
    · have hLt : b < memory.buffers.length := by
        have := (List.getElem?_eq_some_iff.mp hBuffer).1
        rw [List.length_append, List.length_singleton] at this
        omega
      rw [List.getElem?_append_left hLt] at hBuffer
      obtain ⟨k, hOld⟩ := h.covered b buffer hBuffer hLive
      have hKey : k ≠ key := by
        intro hSame
        rw [Memory.Holds, hSame, hDead] at hOld
        cases hOld
      exact ⟨k, holds_update.mpr (.inr ⟨hKey, hOld⟩)⟩

/-- An object gives its buffer back. -/
theorem Owned.release (h : Owned memory) (hKey : memory.objects key = some held)
    {left : Option (Option Nat)} (hLeft : ∀ b, left ≠ some (some b)) :
    Owned ⟨release memory.buffers held, Function.update memory.objects key left⟩ := by
  have hOld {k : Object} {b : Nat}
      (hHolds : (⟨KeyLifecycle.release memory.buffers held,
        Function.update memory.objects key left⟩ : Memory Object).Holds k b) :
      k ≠ key ∧ memory.Holds k b := by
    rcases holds_update.mp hHolds with ⟨-, hNew⟩ | hOld
    · exact absurd hNew (hLeft b)
    · exact hOld
  refine ⟨fun k b hHolds => ?_, fun k k' b hHolds hHolds' => ?_, fun b buffer hBuffer hLive => ?_⟩
  · obtain ⟨hNe, hHolds⟩ := hOld hHolds
    have hOther : held ≠ some b := by
      intro hSame
      exact hNe (h.unique k key b hHolds (by rw [Memory.Holds, hKey, hSame]))
    rw [getElem?_release_of_ne hOther]
    exact h.live k b hHolds
  · exact h.unique k k' b (hOld hHolds).2 (hOld hHolds').2
  · by_cases hSame : held = some b
    · subst hSame
      obtain ⟨buffer', hBuffer', -⟩ := h.live key b hKey
      rw [getElem?_release hBuffer', Option.some.injEq] at hBuffer
      subst hBuffer
      cases hLive
    · rw [getElem?_release_of_ne hSame] at hBuffer
      obtain ⟨k, hHolds⟩ := h.covered b buffer hBuffer hLive
      have hNe : k ≠ key := by
        intro hk
        rw [Memory.Holds, hk, hKey, Option.some.injEq] at hHolds
        exact hSame hHolds
      exact ⟨k, holds_update.mpr (.inr ⟨hNe, hHolds⟩)⟩

/-- A buffer changes hands: the new owner held none, and the old one holds none afterwards. -/
theorem Owned.handOver (h : Owned memory) (hOther : memory.objects other = some held)
    (hKey : ∀ b, ¬ memory.Holds key b) :
    Owned ⟨memory.buffers,
      Function.update (Function.update memory.objects other (some none)) key (some held)⟩ := by
  -- the owner of a buffer afterwards, and the one it had before
  have hOwner {k : Object} {b : Nat} : (⟨memory.buffers, Function.update
        (Function.update memory.objects other (some none)) key (some held)⟩ :
          Memory Object).Holds k b ↔
      k = key ∧ memory.Holds other b ∨ k ≠ key ∧ k ≠ other ∧ memory.Holds k b := by
    rw [holds_update, Memory.Holds, hOther]
    refine or_congr_right (and_congr_right fun _ => ?_)
    have hUpdate : (⟨memory.buffers, Function.update memory.objects other (some none)⟩ :
        Memory Object).Holds k b ↔ _ := holds_update
    simpa [Memory.Holds] using hUpdate
  refine ⟨fun k b hHolds => ?_, fun k k' b hHolds hHolds' => ?_, fun b buffer hBuffer hLive => ?_⟩
  · rcases hOwner.mp hHolds with ⟨-, hOld⟩ | ⟨-, -, hOld⟩
    · exact h.live other b hOld
    · exact h.live k b hOld
  · rcases hOwner.mp hHolds with ⟨rfl, hOld⟩ | ⟨-, hNe, hOld⟩
    · rcases hOwner.mp hHolds' with ⟨rfl, -⟩ | ⟨-, hNe', hOld'⟩
      · rfl
      · exact absurd (h.unique k' other b hOld' hOld) hNe'
    · rcases hOwner.mp hHolds' with ⟨-, hOld'⟩ | ⟨-, -, hOld'⟩
      · exact absurd (h.unique k other b hOld hOld') hNe
      · exact h.unique k k' b hOld hOld'
  · obtain ⟨k, hOld⟩ := h.covered b buffer hBuffer hLive
    by_cases hSame : k = other
    · exact ⟨key, hOwner.mpr (.inl ⟨rfl, hSame ▸ hOld⟩)⟩
    · have hNe : k ≠ key := by
        intro hk
        exact hKey b (hk ▸ hOld)
      exact ⟨k, hOwner.mpr (.inr ⟨hNe, hSame, hOld⟩)⟩

/-! ## What the operations do to the values -/

omit [DecidableEq Object] in
theorem store_apply (memory : Memory Object) (key : Object) :
    memory.store key = (memory.objects key).map (bytesOf memory.buffers) := rfl

theorem store_construct (h : Owned memory) (bytes slack : Bytes) :
    (⟨memory.buffers ++ [⟨bytes, slack, 0⟩],
      Function.update memory.objects key (some (some memory.buffers.length))⟩ :
        Memory Object).store = Function.update memory.store key (some bytes) := by
  funext k
  by_cases hKey : k = key
  · simp [store_apply, hKey, bytesOf]
  · rw [Function.update_of_ne hKey, store_apply, store_apply]
    dsimp only
    rw [Function.update_of_ne hKey]
    refine Option.map_congr fun held hHeld => ?_
    cases held with
    | none => rfl
    | some b => simp only [bytesOf, Option.bind_some, List.getElem?_append_left (h.lt hHeld)]

theorem store_release (h : Owned memory) (hKey : memory.objects key = some held)
    (left : Option (Option Nat)) (hLeft : ∀ b, left ≠ some (some b)) :
    (⟨release memory.buffers held, Function.update memory.objects key left⟩ :
      Memory Object).store = Function.update memory.store key (left.map fun _ => []) := by
  funext k
  by_cases hSame : k = key
  · subst hSame
    rw [Function.update_self, store_apply]
    dsimp only
    rw [Function.update_self]
    refine Option.map_congr fun left' hLeft' => ?_
    cases left' with
    | none => rfl
    | some b => exact absurd hLeft' (hLeft b)
  · rw [Function.update_of_ne hSame, store_apply, store_apply]
    dsimp only
    rw [Function.update_of_ne hSame]
    refine Option.map_congr fun other hOther => bytesOf_release fun b hHeld hOtherHeld => ?_
    subst hHeld hOtherHeld
    exact hSame (h.unique k key b hOther hKey)

theorem store_handOver (hOther : memory.objects other = some held) :
    (⟨memory.buffers,
      Function.update (Function.update memory.objects other (some none)) key (some held)⟩ :
        Memory Object).store =
      Function.update (Function.update memory.store other (some [])) key (memory.store other) := by
  unfold Memory.store
  rw [Function.comp_update, Function.comp_update, Function.comp_apply, hOther]
  rfl

/-! ## Steps -/

/-- A move assignment gives up the buffer of its target and then hands the other one over. -/
theorem moveAssign_objects (objects : Object → Option (Option Nat)) (hNe : key ≠ other)
    (taken : Option Nat) :
    Function.update (Function.update objects key (some taken)) other (some none) =
      Function.update (Function.update (Function.update objects key (some none)) other (some none))
        key (some taken) := by
  rw [Function.update_comm hNe.symm, Function.update_idem, Function.update_comm hNe]

theorem moveAssign_spec (h : Owned memory) (hKey : memory.objects key = some held)
    {taken : Option Nat} (hOther : memory.objects other = some taken) (hNe : key ≠ other) :
    Owned ⟨release memory.buffers held,
      Function.update (Function.update memory.objects key (some taken)) other (some none)⟩ ∧
    (⟨release memory.buffers held,
      Function.update (Function.update memory.objects key (some taken)) other (some none)⟩ :
        Memory Object).store =
      Function.update (Function.update memory.store key (memory.store other)) other (some []) := by
  rw [moveAssign_objects memory.objects hNe taken]
  have hNone (b : Nat) : (some none : Option (Option Nat)) ≠ some (some b) := by simp
  have hEmptied := h.release hKey hNone
  have hStore := store_release h hKey (some none) hNone
  have hOther' : Function.update memory.objects key (some none) other = some taken := by
    rw [Function.update_of_ne hNe.symm, hOther]
  have hHolds (b : Nat) : ¬ (⟨release memory.buffers held,
      Function.update memory.objects key (some none)⟩ : Memory Object).Holds key b := by
    rw [Memory.Holds]
    simp
  refine ⟨hEmptied.handOver hOther' hHolds, ?_⟩
  rw [@store_handOver Object _ ⟨release memory.buffers held,
    Function.update memory.objects key (some none)⟩ key other taken hOther', hStore,
    Function.update_of_ne hNe.symm, Function.update_comm hNe.symm, Function.update_idem,
    Function.update_comm hNe]

/-- What an operation does, where the lifetimes allow it. -/
inductive Effect (memory : Memory Object) : Operation Object → Memory Object → Prop where
  | construct {key : Object} (bytes slack : Bytes) (hDead : memory.objects key = none) :
    Effect memory (.construct key bytes slack)
      ⟨memory.buffers ++ [⟨bytes, slack, 0⟩],
        Function.update memory.objects key (some (some memory.buffers.length))⟩
  | moveConstruct {key other : Object} {held : Option Nat} (hDead : memory.objects key = none)
      (hOther : memory.objects other = some held) :
    Effect memory (.moveConstruct key other)
      ⟨memory.buffers,
        Function.update (Function.update memory.objects other (some none)) key (some held)⟩
  | assignSelf {key : Object} {held : Option Nat} (hKey : memory.objects key = some held) :
    Effect memory (.moveAssign key key) memory
  | moveAssign {key other : Object} {held taken : Option Nat}
      (hKey : memory.objects key = some held) (hOther : memory.objects other = some taken)
      (hNe : key ≠ other) :
    Effect memory (.moveAssign key other)
      ⟨release memory.buffers held,
        Function.update (Function.update memory.objects key (some taken)) other (some none)⟩
  | destroy {key : Object} {held : Option Nat} (hKey : memory.objects key = some held) :
    Effect memory (.destroy key)
      ⟨release memory.buffers held, Function.update memory.objects key none⟩

theorem effect_of_step {operation : Operation Object} {memory' : Memory Object}
    (hStep : step memory operation = some memory') : Effect memory operation memory' := by
  cases operation with
  | construct key bytes slack =>
    cases hKey : memory.objects key <;> simp only [step, hKey, reduceCtorEq] at hStep
    cases hStep
    exact .construct bytes slack hKey
  | moveConstruct key other =>
    cases hKey : memory.objects key <;> cases hOther : memory.objects other <;>
      simp only [step, hKey, hOther, reduceCtorEq] at hStep
    cases hStep
    exact .moveConstruct hKey hOther
  | moveAssign key other =>
    cases hKey : memory.objects key <;> cases hOther : memory.objects other <;>
      simp only [step, hKey, hOther, reduceCtorEq] at hStep
    by_cases hSame : key = other
    · rw [if_pos hSame] at hStep
      cases hStep
      subst hSame
      exact .assignSelf hKey
    · rw [if_neg hSame] at hStep
      cases hStep
      exact .moveAssign hKey hOther hSame
  | destroy key =>
    cases hKey : memory.objects key <;> simp only [step, hKey, reduceCtorEq] at hStep
    cases hStep
    exact .destroy hKey

/-- An operation keeps the ownership, and does to the values what it means. -/
theorem Effect.spec {operation : Operation Object} {memory' : Memory Object} (h : Owned memory)
    (hEffect : Effect memory operation memory') :
    Owned memory' ∧ memory.store.step operation = some memory'.store := by
  cases hEffect with
  | construct bytes slack hDead =>
    refine ⟨h.construct hDead bytes slack, ?_⟩
    rw [store_construct h]
    simp [Store.step, store_apply, hDead]
  | moveConstruct hDead hOther =>
    refine ⟨h.handOver hOther fun b hHolds => ?_, ?_⟩
    · rw [Memory.Holds, hDead] at hHolds
      cases hHolds
    · rw [store_handOver hOther]
      simp [Store.step, store_apply, hDead, hOther]
  | assignSelf hKey =>
    refine ⟨h, ?_⟩
    simp [Store.step, store_apply, hKey]
  | moveAssign hKey hOther hNe =>
    obtain ⟨hOwned, hStore⟩ := moveAssign_spec h hKey hOther hNe
    refine ⟨hOwned, hStore ▸ ?_⟩
    simp [Store.step, store_apply, hKey, hOther, hNe]
  | destroy hKey =>
    refine ⟨h.release hKey (by simp), ?_⟩
    have hStore := store_release h hKey none (by simp)
    rw [Option.map_none] at hStore
    simp only [Store.step, store_apply, hKey, Option.map_some, Option.some.injEq]
    exact hStore.symm

/-- The lifetimes of the objects allow an operation if and only if those of the values do. -/
theorem step_eq_none (memory : Memory Object) (operation : Operation Object) :
    step memory operation = none ↔ memory.store.step operation = none := by
  cases operation with
  | construct key bytes slack =>
    cases hKey : memory.objects key <;> simp [step, Store.step, store_apply, hKey]
  | moveConstruct key other =>
    cases hKey : memory.objects key <;> cases hOther : memory.objects other <;>
      simp [step, Store.step, store_apply, hKey, hOther]
  | moveAssign key other =>
    cases hKey : memory.objects key with
    | none => simp [step, Store.step, store_apply, hKey]
    | some held =>
      cases hOther : memory.objects other with
      | none => simp [step, Store.step, store_apply, hKey, hOther]
      | some taken =>
        by_cases hSame : key = other <;> simp [step, Store.step, store_apply, hKey, hOther, hSame]
  | destroy key =>
    cases hKey : memory.objects key <;> simp [step, Store.step, store_apply, hKey]

theorem store_step (h : Owned memory) (operation : Operation Object) :
    (step memory operation).map Memory.store = memory.store.step operation := by
  cases hStep : step memory operation with
  | none => exact ((step_eq_none memory operation).mp hStep).symm
  | some memory' => exact ((effect_of_step hStep).spec h).2.symm

end Steps

/-! ## Runs -/

omit [DecidableEq Object] in
theorem owned_empty : Owned (empty : Memory Object) where
  live key b hHolds := by
    rw [Memory.Holds, empty] at hHolds
    cases hHolds
  unique key key' b hHolds := by
    rw [Memory.Holds, empty] at hHolds
    cases hHolds
  covered b buffer hBuffer := by
    rw [empty, List.getElem?_nil] at hBuffer
    cases hBuffer

theorem run_spec {memory : Memory Object} (h : Owned memory)
    (operations : List (Operation Object)) :
    (run memory operations).map Memory.store = memory.store.run operations ∧
      ∀ memory', run memory operations = some memory' → Owned memory' := by
  induction operations generalizing memory with
  | nil =>
    refine ⟨rfl, fun memory' hRun => ?_⟩
    cases hRun
    exact h
  | cons operation operations ih =>
    rw [run, Store.run, List.foldlM_cons, List.foldlM_cons, ← store_step h]
    cases hStep : step memory operation with
    | none => exact ⟨rfl, fun memory' hRun => by cases hRun⟩
    | some memory' => exact ih ((effect_of_step hStep).spec h).1

/-- **The values.** A run is allowed if and only if it is one of the values alone, and what the
objects show at its end is what the run means for the values. -/
theorem values_of_run (operations : List (Operation Object)) :
    (run empty operations).map Memory.store = Store.run (fun _ => none) operations :=
  (run_spec owned_empty operations).1

/-! ## What the buffers hold -/

/-- The bytes and the capacity that a constructor was given. -/
def Operation.made : Operation Object → Option (Bytes × Bytes)
  | .construct _ bytes slack => some (bytes, slack)
  | .moveConstruct _ _ => none
  | .moveAssign _ _ => none
  | .destroy _ => none

/-- A buffer holds what was made until it is freed once, and zeros afterwards. -/
def Made (made : Bytes × Bytes) (buffer : Buffer) : Prop :=
  buffer.slack = made.2 ∧ (buffer.frees = 0 ∧ buffer.used = made.1 ∨
    buffer.frees = 1 ∧ buffer.used = List.replicate made.1.length 0)

/-- The buffers hold what was made, in order. -/
structure Traces (history : List (Bytes × Bytes)) (buffers : List Buffer) : Prop where
  length_eq : buffers.length = history.length
  made : ∀ (b : Nat) made buffer, history[b]? = some made → buffers[b]? = some buffer →
    Made made buffer

section Traces

variable {memory memory' : Memory Object} {history : List (Bytes × Bytes)} {held : Option Nat}

omit [DecidableEq Object] in
theorem Traces.construct (h : Traces history memory.buffers) (bytes slack : Bytes) :
    Traces (history ++ [(bytes, slack)]) (memory.buffers ++ [⟨bytes, slack, 0⟩]) := by
  refine ⟨by simp [h.length_eq], fun b made buffer hMade hBuffer => ?_⟩
  by_cases hOld : b < history.length
  · rw [List.getElem?_append_left hOld] at hMade
    rw [List.getElem?_append_left (h.length_eq ▸ hOld)] at hBuffer
    exact h.made b made buffer hMade hBuffer
  · have hLast : b = history.length := by
      have hLt := (List.getElem?_eq_some_iff.mp hMade).1
      rw [List.length_append, List.length_singleton] at hLt
      omega
    subst hLast
    rw [List.getElem?_concat_length, Option.some.injEq] at hMade
    rw [← h.length_eq, List.getElem?_concat_length, Option.some.injEq] at hBuffer
    subst hMade hBuffer
    exact ⟨rfl, .inl ⟨rfl, rfl⟩⟩

omit [DecidableEq Object] in
/-- An owned buffer was not freed before. -/
theorem Traces.release (h : Traces history memory.buffers) (hOwned : Owned memory) {key : Object}
    (hKey : memory.objects key = some held) : Traces history (release memory.buffers held) := by
  refine ⟨?_, fun b made buffer hMade hBuffer => ?_⟩
  · rw [← h.length_eq]
    cases held <;> simp [KeyLifecycle.release, deallocate, fill]
  · by_cases hSame : held = some b
    · subst hSame
      obtain ⟨old, hOld, hFrees⟩ := hOwned.live key b hKey
      rw [getElem?_release hOld, Option.some.injEq] at hBuffer
      obtain ⟨hSlack, hUsed⟩ := h.made b made old hMade hOld
      have hBytes : old.used = made.1 := by
        rcases hUsed with ⟨-, hBytes⟩ | ⟨hFreed, -⟩
        · exact hBytes
        · rw [hFrees] at hFreed
          cases hFreed
      subst hBuffer
      refine ⟨hSlack, .inr ⟨?_, ?_⟩⟩
      · rw [hFrees]
      · rw [hBytes]
    · rw [getElem?_release_of_ne hSame] at hBuffer
      exact h.made b made buffer hMade hBuffer

theorem Traces.step (h : Traces history memory.buffers) (hOwned : Owned memory)
    {operation : Operation Object} (hEffect : Effect memory operation memory') :
    Traces (history ++ operation.made.toList) memory'.buffers := by
  cases hEffect with
  | construct bytes slack hDead => exact h.construct bytes slack
  | moveConstruct hDead hOther =>
    rw [Operation.made, Option.toList_none, List.append_nil]
    exact h
  | assignSelf hKey =>
    rw [Operation.made, Option.toList_none, List.append_nil]
    exact h
  | moveAssign hKey hOther hNe =>
    rw [Operation.made, Option.toList_none, List.append_nil]
    exact h.release hOwned hKey
  | destroy hKey =>
    rw [Operation.made, Option.toList_none, List.append_nil]
    exact h.release hOwned hKey

theorem Traces.run (operations : List (Operation Object)) (h : Traces history memory.buffers)
    (hOwned : Owned memory) (hRun : run memory operations = some memory') :
    Traces (history ++ operations.filterMap Operation.made) memory'.buffers := by
  induction operations generalizing memory history with
  | nil =>
    cases hRun
    simpa using h
  | cons operation operations ih =>
    rw [KeyLifecycle.run, List.foldlM_cons, Option.bind_eq_bind, Option.bind_eq_some_iff] at hRun
    obtain ⟨between, hStep, hRest⟩ := hRun
    have hEffect := effect_of_step hStep
    have hTraces := ih (h.step hOwned hEffect) (hEffect.spec hOwned).1 hRest
    have hHistory : (operation :: operations).filterMap Operation.made =
        operation.made.toList ++ operations.filterMap Operation.made := by
      rw [List.filterMap_cons]
      cases operation.made <;> rfl
    rwa [hHistory, ← List.append_assoc]

end Traces

/-- A buffer belongs to one object and holds its bytes, or it belongs to none, was freed once and
holds zeros in place of the bytes. -/
def Settled (memory : Memory Object) (b : Nat) (made : Bytes × Bytes) (buffer : Buffer) : Prop :=
  buffer.slack = made.2 ∧
    ((∃! key, memory.Holds key b) ∧ buffer.frees = 0 ∧ buffer.used = made.1 ∨
      (∀ key, ¬ memory.Holds key b) ∧ buffer.frees = 1 ∧
        buffer.used = List.replicate made.1.length 0)

/-- **The buffers.** After every run, the buffers are those the constructors were given, in order,
and each of them is settled. The capacity behind the bytes is as it was, also when it was freed. -/
theorem buffers_of_run {operations : List (Operation Object)} {memory : Memory Object}
    (hRun : run empty operations = some memory) :
    memory.buffers.length = (operations.filterMap Operation.made).length ∧
      ∀ (b : Nat) made buffer, (operations.filterMap Operation.made)[b]? = some made →
        memory.buffers[b]? = some buffer → Settled memory b made buffer := by
  have hOwned := (run_spec owned_empty operations).2 memory hRun
  have hEmpty : Traces [] (empty : Memory Object).buffers := by
    refine ⟨rfl, fun b made buffer hMade => ?_⟩
    rw [List.getElem?_nil] at hMade
    cases hMade
  have hTraces : Traces (operations.filterMap Operation.made) memory.buffers :=
    hEmpty.run operations owned_empty hRun
  refine ⟨hTraces.length_eq, fun b made buffer hMade hBuffer => ?_⟩
  obtain ⟨hSlack, hUsed⟩ := hTraces.made b made buffer hMade hBuffer
  refine ⟨hSlack, hUsed.imp ?_ ?_⟩
  · intro h
    obtain ⟨key, hHolds⟩ := hOwned.covered b buffer hBuffer h.1
    exact ⟨⟨key, hHolds, fun key' hHolds' => hOwned.unique key' key b hHolds' hHolds⟩, h⟩
  · intro h
    refine ⟨fun key hHolds => ?_, h⟩
    obtain ⟨live, hLive, hFrees⟩ := hOwned.live key b hHolds
    rw [hBuffer, Option.some.injEq] at hLive
    rw [← hLive, h.1] at hFrees
    cases hFrees

/-- One key moves into a second and from there into a third, and all are destroyed. -/
theorem buffers_of_moves : ∃ memory : Memory Nat,
    run empty [.construct 0 [0x10, 0x20] [0x30], .moveConstruct 1 0, .construct 2 [0xaa] [],
      .moveAssign 2 1, .destroy 2, .destroy 1, .destroy 0] = some memory ∧
    memory.buffers = [⟨[0, 0], [0x30], 1⟩, ⟨[0], [], 1⟩] ∧
    ∀ (b : Nat) made buffer, ([([0x10, 0x20], [0x30]), ([0xaa], [])] : List (Bytes × Bytes))[b]? =
      some made → memory.buffers[b]? = some buffer → Settled memory b made buffer := by
  obtain ⟨memory, hRun, hBuffers⟩ : ∃ memory : Memory Nat,
      run empty [.construct 0 [0x10, 0x20] [0x30], .moveConstruct 1 0, .construct 2 [0xaa] [],
        .moveAssign 2 1, .destroy 2, .destroy 1, .destroy 0] = some memory ∧
      memory.buffers = [⟨[0, 0], [0x30], 1⟩, ⟨[0], [], 1⟩] := ⟨_, rfl, rfl⟩
  exact ⟨memory, hRun, hBuffers, (buffers_of_run hRun).2⟩

end IndicCrypt.Crypto.KeyLifecycle
