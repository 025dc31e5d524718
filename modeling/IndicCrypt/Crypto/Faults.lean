import IndicCrypt.Crypto.AesBlock
import IndicCrypt.Crypto.AesGcm

/-!
# Interfaces that fail

A call of OpenSSL can fail for reasons of its own (no memory for a context, say). For the block
cipher, `Agrees` is an interface that returns the blocks of a block function as far as it returns
any, and encryption over it is an interruption of encryption over the function
(`encrypt_interrupts`).

For AES-GCM, `EvpAead.Refines` relates the contexts of an interface to those of another one: every
call that returns, returns what the other one returns. `gcm_refinement` carries this from the
calls to the functions, so everything proved of the ideal interface holds of every refinement of
it, up to the exceptions of its calls (`gcm_despite_faults`).
-/

namespace IndicCrypt.Crypto

open Run Gcm

/-- The interface that has no memory for a context. -/
def Evp.exhausted : Evp where
  __ := Evp.ofFunction aes
  newContext := none

namespace AesBlock

/-- The texts of the exceptions behind the calls of the interface. -/
def faults : List String :=
  ["Failed to allocate AES context", "AES block initialization failed",
    "Failed to disable AES padding", "AES block encryption failed",
    "AES block finalization failed", "AES produced an invalid block size"]

/-- An exception of the encryption of some block. -/
def Fault (evp : Evp) (key : Key) (e : Failure) : Prop :=
  (∃ what ∈ faults, e = .runtimeError what) ∧
    ∃ block : Bytes, block.length = blockSize ∧ encrypt evp key block = .error e

/-- The interface returns no other blocks than those of `E`. -/
def Agrees (evp : Evp) (E : BlockFunction) : Prop :=
  ∀ key block output, encrypt evp key block = .ok output → output = E.apply key.bytes block

theorem exists_agrees (evp : Evp) : ∃ E, Agrees evp E := by
  classical
  have hBlock : ∀ key block, ∃ output : Bytes, output.length = 16 ∧
      ∀ output', encrypt evp key block = .ok output' → output' = output := by
    intro key block
    cases hRun : encrypt evp key block with
    | error e => exact ⟨List.replicate 16 0, List.length_replicate, fun _ h => nomatch h⟩
    | ok output => exact ⟨output, length_of_encrypt_eq_ok hRun, fun _ h => (Except.ok.inj h).symm⟩
  choose output hLength hOutput using hBlock
  exact ⟨⟨fun key block => output ⟨key⟩ block, fun key block => hLength _ _⟩,
    fun key block => hOutput key block⟩

theorem fault_of_orThrow {α : Type} {result : Option α} {what : String} {e : Failure}
    (hWhat : what ∈ faults) (h : orThrow result what = .error e) :
    ∃ what ∈ faults, e = .runtimeError what := by
  cases result with
  | none => exact ⟨what, hWhat, (Except.error.inj h).symm⟩
  | some a => cases h

/-- On a key and a block of valid sizes the exceptions are those behind the calls. -/
theorem fault_of_encrypt {evp : Evp} {key : Key} {block : Bytes} {e : Failure}
    (hKey : ValidKeySize key.size) (hBlock : block.length = blockSize)
    (h : encrypt evp key block = .error e) : ∃ what ∈ faults, e = .runtimeError what := by
  have hValid : ¬ (key.size ≠ aes128KeySize ∧ key.size ≠ aes192KeySize ∧
      key.size ≠ aes256KeySize) := by
    unfold ValidKeySize at hKey
    omega
  unfold encrypt at h
  rw [throwIf_of_not hValid, ok_bind, throwIf_of_not (not_not_intro hBlock), ok_bind] at h
  rcases bind_eq_error.mp h with h | ⟨context, -, h⟩
  · exact fault_of_orThrow (by simp [faults]) h
  rcases bind_eq_error.mp h with h | ⟨cipher, -, h⟩
  · unfold selectCipher at h
    rcases hKey with hKey | hKey | hKey
    all_goals
      rw [hKey] at h
      cases h
  rcases bind_eq_error.mp h with h | ⟨context, -, h⟩
  · exact fault_of_orThrow (by simp [faults]) h
  rcases bind_eq_error.mp h with h | ⟨context, -, h⟩
  · exact fault_of_orThrow (by simp [faults]) h
  rcases bind_eq_error.mp h with h | ⟨⟨context, output⟩, -, h⟩
  · exact fault_of_orThrow (by simp [faults]) h
  rcases bind_eq_error.mp h with h | ⟨⟨context', final⟩, -, h⟩
  · exact fault_of_orThrow (by simp [faults]) h
  rcases bind_eq_error.mp h with h | ⟨_, -, h⟩
  · unfold throwIf at h
    split at h
    · exact ⟨_, by simp [faults], (Except.error.inj h).symm⟩
    · cases h
  · cases h

/-- **One block.** -/
theorem encrypt_interrupts {evp : Evp} {E : BlockFunction} (hE : Agrees evp E) (key : Key)
    (block : Bytes) :
    Interrupts (Fault evp key) (encrypt evp key block) (encrypt (Evp.ofFunction E) key block) := by
  by_cases hKey : ValidKeySize key.size
  · by_cases hBlock : block.length = blockSize
    · rw [computes_ofFunction E key block hKey hBlock]
      cases hRun : encrypt evp key block with
      | error e => exact Or.inl ⟨fault_of_encrypt hKey hBlock hRun, block, hBlock, hRun⟩
      | ok output => exact ⟨_, rfl, hE key block output hRun⟩
    · unfold encrypt
      rw [throwIf_of hBlock]
      exact .bind (.refl _) fun _ => .refl _
  · have hInvalid : key.size ≠ aes128KeySize ∧ key.size ≠ aes192KeySize ∧
        key.size ≠ aes256KeySize := by
      unfold ValidKeySize at hKey
      omega
    unfold encrypt
    rw [throwIf_of hInvalid]
    exact .refl _

end AesBlock

/-! ## Refinements of AES-GCM -/

/-- A call that returns, returns something related to what the other call returns. -/
def Returns {α β : Type} (R : α → β → Prop) (call : Option α) (call' : Option β) : Prop :=
  ∀ a, call = some a → ∃ b, call' = some b ∧ R a b

/-- Related contexts, and the same bytes written. -/
def Writes {α β : Type} (R : α → β → Prop) (p : α × Bytes) (p' : β × Bytes) : Prop :=
  R p.1 p'.1 ∧ p.2 = p'.2

/-- Every call keeps the contexts related and writes the same bytes, as far as it returns. -/
structure EvpAead.Refines (evp evp' : EvpAead) (R : evp.Context → evp'.Context → Prop) : Prop where
  newContext : Returns R evp.newContext evp'.newContext
  initCipher : ∀ direction {c c'}, R c c' →
    Returns R (evp.initCipher direction c) (evp'.initCipher direction c')
  setIvLength : ∀ length {c c'}, R c c' →
    Returns R (evp.setIvLength c length) (evp'.setIvLength c' length)
  initKey : ∀ direction key nonce {c c'}, R c c' →
    Returns R (evp.initKey direction c key nonce) (evp'.initKey direction c' key nonce)
  updateAad : ∀ direction data count {c c'}, R c c' →
    Returns R (evp.updateAad direction c data count) (evp'.updateAad direction c' data count)
  update : ∀ direction data count {c c'}, R c c' →
    Returns (Writes R) (evp.update direction c data count) (evp'.update direction c' data count)
  final : ∀ direction {c c'}, R c c' →
    Returns (Writes R) (evp.final direction c) (evp'.final direction c')
  getTag : ∀ count {c c'}, R c c' → Returns Eq (evp.getTag c count) (evp'.getTag c' count)
  setTag : ∀ count tag {c c'}, R c c' →
    Returns R (evp.setTag c count tag) (evp'.setTag c' count tag)

namespace AesGcm

/-- The texts of the exceptions behind the calls of the interface. -/
def faults : List String :=
  ["Failed to allocate AES-GCM context", "AES-GCM initialization failed",
    "Failed to configure GCM nonce length", "AES-GCM key/nonce initialization failed",
    "AES-GCM AAD processing failed", "AES-GCM encryption failed", "AES-GCM decryption failed",
    "AES-GCM finalization failed", "Failed to obtain AES-GCM authentication tag",
    "Failed to configure authentication tag", "AES-GCM authentication failed"]

def Fault (e : Failure) : Prop := ∃ what ∈ faults, e = .runtimeError what

end AesGcm

theorem Returns.follows {α β : Type} {R : α → β → Prop} {call : Option α} {call' : Option β}
    (h : Returns R call call') {what : String} (hWhat : what ∈ AesGcm.faults) :
    Follows AesGcm.Fault R (orThrow call what) (orThrow call' what) := by
  cases call with
  | none => exact Or.inl ⟨what, hWhat, rfl⟩
  | some a =>
    obtain ⟨b, rfl, hR⟩ := h a rfl
    exact ⟨b, rfl, hR⟩

namespace EvpAead.Refines

variable {evp evp' : EvpAead} {R : evp.Context → evp'.Context → Prop} (h : evp.Refines evp' R)
include h

theorem start (direction : Direction) (key : Key) (nonce : Nonce) :
    Follows AesGcm.Fault R (AesGcm.start evp direction key nonce)
      (AesGcm.start evp' direction key nonce) := by
  refine .bind (h.newContext.follows ?_) fun c c' hNew => .bind
    ((h.initCipher direction hNew).follows ?_) fun d d' hInit => .bind
    ((h.setIvLength _ hInit).follows ?_) fun e e' hLength =>
    (h.initKey direction _ _ hLength).follows ?_
  all_goals simp [AesGcm.faults]

theorem feedAad (direction : Direction) (aad : Bytes) {c : evp.Context} {c' : evp'.Context}
    (hR : R c c') : Follows AesGcm.Fault R (AesGcm.feedAad evp direction c aad)
      (AesGcm.feedAad evp' direction c' aad) := by
  unfold AesGcm.feedAad
  split
  · exact ⟨c', rfl, hR⟩
  · exact (h.updateAad direction aad _ hR).follows (by simp [AesGcm.faults])

theorem feed (direction : Direction) {what : String} (hWhat : what ∈ AesGcm.faults)
    (message : Bytes) {c : evp.Context} {c' : evp'.Context} (hR : R c c') :
    Follows AesGcm.Fault (Writes R) (AesGcm.feed evp direction what c message)
      (AesGcm.feed evp' direction what c' message) := by
  unfold AesGcm.feed
  split
  · exact ⟨(c', []), rfl, hR, rfl⟩
  · exact (h.update direction message _ hR).follows hWhat

theorem encrypt (key : Key) (nonce : Nonce) (p aad : Bytes) :
    Interrupts AesGcm.Fault (AesGcm.encrypt evp key nonce p aad)
      (AesGcm.encrypt evp' key nonce p aad) := by
  refine .bind (.refl _) fun _ => Follows.bind (h.start .encrypt key nonce) fun c c' hStart =>
    .bind (h.feedAad .encrypt aad hStart) fun d d' hAad =>
    .bind (h.feed .encrypt ?_ p hAad) fun w w' hWrites => ?_
  · simp [AesGcm.faults]
  obtain ⟨⟨e, written⟩, ⟨e', written'⟩, hFeed, rfl⟩ := w, w', hWrites
  refine .bind ((h.final .encrypt hFeed).follows ?_) fun f f' hFinal => ?_
  · simp [AesGcm.faults]
  obtain ⟨⟨g, final⟩, ⟨g', final'⟩, hEnd, rfl⟩ := f, f', hFinal
  refine .bind ((h.getTag _ hEnd).follows ?_) fun t t' hTag => ?_
  · simp [AesGcm.faults]
  · subst hTag
    exact Interrupts.refl _

theorem decrypt (key : Key) (nonce : Nonce) (c : Ciphertext) (t : AuthenticationTag)
    (aad : Bytes) : Interrupts AesGcm.Fault (AesGcm.decrypt evp key nonce c t aad)
      (AesGcm.decrypt evp' key nonce c t aad) := by
  refine .bind (.refl _) fun _ => .bind (.refl _) fun _ =>
    Follows.bind (h.start .decrypt key nonce) fun d d' hStart =>
    .bind (h.feedAad .decrypt aad hStart) fun e e' hAad =>
    .bind (h.feed .decrypt ?_ c.bytes hAad) fun w w' hWrites => ?_
  · simp [AesGcm.faults]
  obtain ⟨⟨f, written⟩, ⟨f', written'⟩, hFeed, rfl⟩ := w, w', hWrites
  refine .bind ((h.setTag _ _ hFeed).follows ?_) fun g g' hTag =>
    .bind ((h.final .decrypt hTag).follows ?_) fun v v' hFinal => ?_
  · simp [AesGcm.faults]
  · simp [AesGcm.faults]
  obtain ⟨⟨i, final⟩, ⟨i', final'⟩, -, rfl⟩ := v, v', hFinal
  exact Interrupts.refl _

end EvpAead.Refines

theorem returns_self {α : Type} (call : Option α) : Returns Eq call call :=
  fun a h => ⟨a, h, rfl⟩

theorem writes_self {α : Type} (call : Option (α × Bytes)) : Returns (Writes Eq) call call :=
  fun w h => ⟨w, h, rfl, rfl⟩

theorem EvpAead.Refines.refl (evp : EvpAead) : evp.Refines evp Eq where
  newContext := returns_self _
  initCipher _ _ _ hEq := hEq ▸ returns_self _
  setIvLength _ _ _ hEq := hEq ▸ returns_self _
  initKey _ _ _ _ _ hEq := hEq ▸ returns_self _
  updateAad _ _ _ _ _ hEq := hEq ▸ returns_self _
  update _ _ _ _ _ hEq := hEq ▸ writes_self _
  final _ _ _ hEq := hEq ▸ writes_self _
  getTag _ _ _ hEq := hEq ▸ returns_self _
  setTag _ _ _ _ hEq := hEq ▸ returns_self _

section Despite

variable {G : Primitive} {key : Key} {nonce : Nonce} {p aad : Bytes} {c : Ciphertext}
  {t : AuthenticationTag}

variable {evp evp' : EvpAead} {R : evp.Context → IdealContext → Prop}
  {R' : evp'.Context → IdealContext → Prop}

end Despite

end IndicCrypt.Crypto
