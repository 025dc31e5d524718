import IndicCrypt.Crypto.Types
import IndicCrypt.Library.Aes

/-!
# The AES block

`AesBlock::encrypt` over the calls of the EVP interface that it makes. `Evp` is the
interface: a call returns nothing where the C function does not return one, and otherwise
the context after it and the bytes it wrote.

`Total` says that `encrypt` succeeds on every key and block of a valid size, and `Computes`
that it then is a given block function. A total interface computes some block function
(`Total.exists_computes`), so results about every block function are results about every
total interface. `Evp.ofFunction` is the interface of a given function.
-/

namespace IndicCrypt.Crypto

open Run

/-! ## The interface -/

inductive EvpCipher where
  | aes128Ecb
  | aes192Ecb
  | aes256Ecb

structure Evp where
  Context : Type
  newContext : Option Context
  encryptInit : Context → EvpCipher → Bytes → Option Context
  setPadding : Context → Int → Option Context
  encryptUpdate : Context → Bytes → Int → Option (Context × Bytes)
  encryptFinal : Context → Option (Context × Bytes)

/-! ## Block encryption -/

namespace AesBlock

def blockSize : Nat := 16

def aes128KeySize : Nat := 16

def aes192KeySize : Nat := 24

def aes256KeySize : Nat := 32

/-- The key sizes of AES. -/
def ValidKeySize (size : Nat) : Prop :=
  size = aes128KeySize ∨ size = aes192KeySize ∨ size = aes256KeySize

instance (size : Nat) : Decidable (ValidKeySize size) :=
  inferInstanceAs (Decidable (_ ∨ _ ∨ _))

def makeContext (evp : Evp) : Result evp.Context :=
  orThrow evp.newContext "Failed to allocate AES context"

def selectCipher (keySize : Nat) : Result EvpCipher :=
  if keySize = aes128KeySize then
    .ok .aes128Ecb
  else if keySize = aes192KeySize then
    .ok .aes192Ecb
  else if keySize = aes256KeySize then
    .ok .aes256Ecb
  else
    .error (.invalidArgument "AES requires a 16, 24, or 32-byte key")

/-- The two calls write one behind the other, and the output is cut to what they wrote. -/
def encrypt (evp : Evp) (key : Key) (block : Bytes) : Result Bytes := do
  throwIf (key.size ≠ aes128KeySize ∧ key.size ≠ aes192KeySize ∧ key.size ≠ aes256KeySize)
    (.invalidArgument "AES requires a 16, 24, or 32-byte key")
  throwIf (block.length ≠ blockSize)
    (.invalidArgument "AES block encryption requires exactly 16 bytes")
  let context ← makeContext evp
  let cipher ← selectCipher key.size
  let context ← orThrow (evp.encryptInit context cipher key.bytes)
    "AES block initialization failed"
  let context ← orThrow (evp.setPadding context 0)
    "Failed to disable AES padding"
  let (context, output) ← orThrow (evp.encryptUpdate context block block.length)
    "AES block encryption failed"
  let (_, final) ← orThrow (evp.encryptFinal context)
    "AES block finalization failed"
  throwIf ((output ++ final).length ≠ blockSize)
    (.runtimeError "AES produced an invalid block size")
  return output ++ final

end AesBlock

/-! ## Block functions -/

/-- A function from keys and blocks to blocks of sixteen bytes. -/
structure BlockFunction where
  apply : Bytes → Bytes → Bytes
  length_apply : ∀ key block, (apply key block).length = 16

/-- AES itself. -/
def aes : BlockFunction := ⟨Aes.encrypt, Aes.length_encrypt⟩

/-- The interface whose block cipher is the given function. -/
def Evp.ofFunction (E : BlockFunction) : Evp where
  Context := Bytes
  newContext := some []
  encryptInit _ _ key := some key
  setPadding key _ := some key
  encryptUpdate key block _ := some (key, E.apply key block)
  encryptFinal key := some (key, [])

namespace AesBlock

theorem length_of_encrypt_eq_ok {evp : Evp} {key : Key} {block output : Bytes}
    (h : encrypt evp key block = .ok output) : output.length = 16 := by
  unfold encrypt at h
  obtain ⟨-, h⟩ := throwIf_bind_eq_ok.mp h
  obtain ⟨-, h⟩ := throwIf_bind_eq_ok.mp h
  obtain ⟨_, -, h⟩ := bind_eq_ok.mp h
  obtain ⟨_, -, h⟩ := bind_eq_ok.mp h
  obtain ⟨_, -, h⟩ := bind_eq_ok.mp h
  obtain ⟨_, -, h⟩ := bind_eq_ok.mp h
  obtain ⟨_, -, h⟩ := bind_eq_ok.mp h
  obtain ⟨_, -, h⟩ := bind_eq_ok.mp h
  obtain ⟨hSize, h⟩ := throwIf_bind_eq_ok.mp h
  cases h
  exact not_not.mp hSize

/-- Encryption succeeds on every key and block of a valid size. -/
def Total (evp : Evp) : Prop :=
  ∀ key block, ValidKeySize key.size → block.length = blockSize → IsOk (encrypt evp key block)

/-- Encryption of a block under a key of a valid size is `E`. -/
def Computes (evp : Evp) (E : BlockFunction) : Prop :=
  ∀ key block, ValidKeySize key.size → block.length = blockSize →
    encrypt evp key block = .ok (E.apply key.bytes block)

theorem Computes.total {evp : Evp} {E : BlockFunction} (h : Computes evp E) : Total evp :=
  fun key block hKey hBlock => ⟨_, h key block hKey hBlock⟩

/-- A total interface computes some block function. -/
theorem Total.exists_computes {evp : Evp} (h : Total evp) : ∃ E, Computes evp E := by
  classical
  have hBlock : ∀ key block, ∃ output : Bytes, output.length = 16 ∧
      (ValidKeySize key.size → block.length = blockSize → encrypt evp key block = .ok output) := by
    intro key block
    by_cases hValid : ValidKeySize key.size ∧ block.length = blockSize
    · obtain ⟨output, hOutput⟩ := h key block hValid.1 hValid.2
      exact ⟨output, length_of_encrypt_eq_ok hOutput, fun _ _ => hOutput⟩
    · exact ⟨List.replicate 16 0, by simp, fun hKey hSize => absurd ⟨hKey, hSize⟩ hValid⟩
  choose output hLength hOutput using hBlock
  refine ⟨⟨fun key block => output ⟨key⟩ block, fun key block => hLength _ _⟩, ?_⟩
  intro key block hKey hSize
  exact hOutput key block hKey hSize

theorem computes_ofFunction (E : BlockFunction) : Computes (Evp.ofFunction E) E := by
  intro key block hKey hBlock
  have hValid : ¬ (key.size ≠ aes128KeySize ∧ key.size ≠ aes192KeySize ∧
      key.size ≠ aes256KeySize) := by
    unfold ValidKeySize at hKey
    omega
  have hCipher : ∃ cipher, selectCipher key.size = .ok cipher := by
    unfold selectCipher
    rcases hKey with hKey | hKey | hKey
    all_goals
      rw [hKey]
      exact ⟨_, rfl⟩
  obtain ⟨cipher, hCipher⟩ := hCipher
  have hLength : ¬ (E.apply key.bytes block ++ []).length ≠ blockSize := by
    rw [List.append_nil, E.length_apply]
    decide
  unfold encrypt
  rw [throwIf_of_not hValid, ok_bind, throwIf_of_not (not_not_intro hBlock), ok_bind, hCipher]
  simp only [makeContext, orThrow, Evp.ofFunction, ok_bind]
  rw [throwIf_of_not hLength, ok_bind, List.append_nil]
  rfl

end AesBlock

end IndicCrypt.Crypto
