import Mathlib.Data.Fintype.Defs
import IndicCrypt.Crypto.AesGcm
import IndicCrypt.Library.Hkdf

/-!
# Key derivation

`KeyDerivation::hkdfSha256` and `KeyDerivation::derive` over the calls of the EVP interface that
they make. Both create a context, allocate the output and free the context before they look at
the outcome. The contexts of a process are counted, so a function returns its result and the
number of live contexts after it.

`EvpKdf.ideal` is the interface of HKDF over a given code. Over it, both functions return the
output of HKDF for the part of the salt, the key and the info that is consumed.
-/

namespace IndicCrypt.Crypto

open Run

/-! ## The interface -/

/-- The calls of the interface: nothing where the C function does not return a positive number,
and otherwise the context after the call or the bytes written. `allocate` is the exception of an
allocation, if there is one. -/
structure EvpKdf where
  Context : Type
  newContext : Option Context
  deriveInit : Context → Option Context
  setHkdfMd : Context → Option Context
  setHkdfSalt : Context → Bytes → Int → Option Context
  setHkdfKey : Context → Bytes → Int → Option Context
  addHkdfInfo : Context → Bytes → Int → Option Context
  derive : Context → Nat → Option Bytes
  allocate : Nat → Option Failure

/-! ## The functions -/

inductive KeyPurpose where
  | encryption
  | fpe
  | search
  | integrity
deriving DecidableEq

instance : Fintype KeyPurpose where
  elems := {.encryption, .fpe, .search, .integrity}
  complete purpose := by cases purpose <;> simp

namespace KeyDerivation

def ascii (s : String) : Bytes := s.toList.map (UInt8.ofNat ∘ Char.toNat)

def purposeLabel (purpose : KeyPurpose) : Bytes :=
  match purpose with
  | .encryption => ascii "indiccrypt/encryption/v1"
  | .fpe => ascii "indiccrypt/fpe/v1"
  | .search => ascii "indiccrypt/search/v1"
  | .integrity => ascii "indiccrypt/integrity/v1"

/-- From the creation of the context to the key; `configure` stands for the calls between. An
exception of the allocation leaves the context behind. -/
def withContext (evp : EvpKdf) (configure : evp.Context → Option evp.Context) (what : String)
    (outputLength live : Nat) : Result Key × Nat :=
  match evp.newContext with
  | none => (.error (.runtimeError "Failed to create HKDF context"), live)
  | some context =>
    let live := live + 1
    match evp.allocate outputLength with
    | some failure => (.error failure, live)
    | none =>
      let output : Bytes := List.replicate outputLength 0
      let written := (configure context).bind fun context => evp.derive context outputLength
      let live := live - 1
      let key := do
        let written ← orThrow written what
        throwIf (written.length ≠ outputLength) (.runtimeError what)
        return ⟨writeAt output 0 written⟩
      (key, live)

/-- The call for the salt, if it is not empty. -/
def setSalt (evp : EvpKdf) (salt : Bytes) (context : evp.Context) : Option evp.Context :=
  if salt = [] then some context else evp.setHkdfSalt context salt (toInt salt.length)

/-- The call for the info, if it is not empty. -/
def addInfo (evp : EvpKdf) (info : Bytes) (context : evp.Context) : Option evp.Context :=
  if info = [] then some context else evp.addHkdfInfo context info (toInt info.length)

/-- The calls of `hkdfSha256` between the creation of the context and the derivation. -/
def configure (evp : EvpKdf) (ikm salt info : Bytes) (context : evp.Context) :
    Option evp.Context := do
  let context ← evp.deriveInit context
  let context ← evp.setHkdfMd context
  let context ← setSalt evp salt context
  let context ← evp.setHkdfKey context ikm (toInt ikm.length)
  addInfo evp info context

def hkdfSha256 (evp : EvpKdf) (ikm salt info : Bytes) (outputLength live : Nat) :
    Result Key × Nat :=
  if ikm = [] then
    (.error (.invalidArgument "HKDF input key material must not be empty"), live)
  else if outputLength = 0 then
    (.error (.invalidArgument "HKDF output length must not be zero"), live)
  else
    withContext evp (configure evp ikm salt info) "HKDF-SHA-256 derivation failed" outputLength live

/-- The calls of `derive`, where the label is both the salt and the info. -/
def configureLabel (evp : EvpKdf) (rootKey label : Bytes) (context : evp.Context) :
    Option evp.Context := do
  let context ← evp.deriveInit context
  let context ← evp.setHkdfMd context
  let context ← evp.setHkdfSalt context label (toInt label.length)
  let context ← evp.setHkdfKey context rootKey (toInt rootKey.length)
  evp.addHkdfInfo context label (toInt label.length)

def derive (evp : EvpKdf) (rootKey : Key) (purpose : KeyPurpose) (outputLength live : Nat) :
    Result Key × Nat :=
  if rootKey.size = 0 then
    (.error (.invalidArgument "Root key must not be empty"), live)
  else if outputLength = 0 then
    (.error (.invalidArgument "Output length must not be zero"), live)
  else
    withContext evp (configureLabel evp rootKey.bytes (purposeLabel purpose))
      "HKDF derivation failed" outputLength live

end KeyDerivation

/-! ## The ideal interface -/

structure KdfContext where
  salt : Bytes
  key : Bytes
  info : Bytes

/-- HKDF over the code `M`. An info is kept up to `infoLimit` bytes, an output has at most 255
blocks, and an allocation fails from `2 ^ 63` bytes on. -/
abbrev EvpKdf.ideal (M : Hkdf.Mac 32) (infoLimit : Nat) : EvpKdf where
  Context := KdfContext
  newContext := some ⟨[], [], []⟩
  deriveInit context := some context
  setHkdfMd context := some context
  setHkdfSalt context salt count :=
    (told salt count).map fun salt => { context with salt := salt }
  setHkdfKey context key count := (told key count).map fun key => { context with key := key }
  addHkdfInfo context info count := (told info count).bind fun chunk =>
    if (context.info ++ chunk).length ≤ infoLimit then
      some { context with info := context.info ++ chunk }
    else
      none
  derive context length :=
    if length ≤ 255 * 32 then
      some (Hkdf.derive M context.salt context.key context.info length)
    else
      none
  allocate size :=
    if size < 2 ^ 63 then
      none
    else
      some (.logicError "cannot create std::vector larger than max_size()")

namespace KeyDerivation

/-! ## What the functions return -/

theorem purposeLabel_ne_nil (purpose : KeyPurpose) : purposeLabel purpose ≠ [] := by
  cases purpose <;> simp [purposeLabel, ascii]

theorem length_purposeLabel (purpose : KeyPurpose) : (purposeLabel purpose).length ≤ 24 := by
  cases purpose <;> simp [purposeLabel, ascii]

theorem writeAt_zeros {size : Nat} {written : Bytes} (h : written.length = size) :
    writeAt (List.replicate size 0) 0 written = written := by
  simp [writeAt, h]

section AnyInterface

variable {evp : EvpKdf} {step : evp.Context → Option evp.Context} {what : String}
  {outputLength live : Nat}

/-- A key comes from a created context, an allocated buffer and a derivation that filled it. -/
theorem withContext_eq_ok {key : Key} :
    (withContext evp step what outputLength live).1 = .ok key ↔
      key.size = outputLength ∧ evp.allocate outputLength = none ∧ ∃ context configured,
        evp.newContext = some context ∧ step context = some configured ∧
          evp.derive configured outputLength = some key.bytes := by
  unfold withContext
  cases evp.newContext with
  | none => simp
  | some context =>
    cases evp.allocate outputLength with
    | some failure => simp
    | none =>
      simp only [bind_eq_ok, orThrow_eq_ok, Option.bind_eq_some_iff, throwIf_eq_ok, pure_eq_ok,
        Except.ok.injEq, not_not, Option.some.injEq]
      constructor
      · intro h
        obtain ⟨written, ⟨configured, hStep, hDerive⟩, _, hSize, rfl⟩ := h
        rw [writeAt_zeros hSize]
        exact ⟨hSize, trivial, context, configured, rfl, hStep, hDerive⟩
      · intro h
        obtain ⟨hSize, -, _, configured, rfl, hStep, hDerive⟩ := h
        exact ⟨key.bytes, ⟨configured, hStep, hDerive⟩, (), hSize, by rw [writeAt_zeros hSize]⟩

/-- The context is freed unless the allocation behind its creation failed. -/
theorem withContext_live :
    (withContext evp step what outputLength live).2 =
      live + if evp.newContext.isSome ∧ (evp.allocate outputLength).isSome then 1 else 0 := by
  unfold withContext
  cases evp.newContext with
  | none => simp
  | some context =>
    cases evp.allocate outputLength with
    | some failure => simp
    | none => simp

theorem hkdfSha256_eq_ok {ikm salt info : Bytes} {key : Key} :
    (hkdfSha256 evp ikm salt info outputLength live).1 = .ok key ↔
      ikm ≠ [] ∧ 1 ≤ outputLength ∧ (withContext evp (configure evp ikm salt info)
        "HKDF-SHA-256 derivation failed" outputLength live).1 = .ok key := by
  unfold hkdfSha256
  by_cases hKey : ikm = []
  · simp [hKey]
  · by_cases hLength : outputLength = 0
    · simp [hKey, hLength]
    · rw [if_neg hKey, if_neg hLength]
      exact ⟨fun h => ⟨hKey, Nat.pos_of_ne_zero hLength, h⟩, fun h => h.2.2⟩

/-- A label is never empty, so `derive` makes the calls of `hkdfSha256` for it. -/
theorem configureLabel_eq (evp : EvpKdf) (rootKey : Bytes) (purpose : KeyPurpose) :
    configureLabel evp rootKey (purposeLabel purpose) =
      configure evp rootKey (purposeLabel purpose) (purposeLabel purpose) := by
  funext context
  simp only [configureLabel, configure, setSalt, addInfo, if_neg (purposeLabel_ne_nil purpose)]

theorem derive_eq_ok {rootKey key : Key} {purpose : KeyPurpose} :
    (derive evp rootKey purpose outputLength live).1 = .ok key ↔
      (hkdfSha256 evp rootKey.bytes (purposeLabel purpose) (purposeLabel purpose) outputLength
        live).1 = .ok key := by
  unfold derive hkdfSha256
  by_cases hKey : rootKey.bytes = []
  · simp [Key.size, hKey]
  · have hSize : rootKey.size ≠ 0 := List.length_eq_zero_iff.not.mpr hKey
    rw [if_neg hKey, if_neg hSize]
    by_cases hLength : outputLength = 0
    · simp [hLength]
    · rw [if_neg hLength, if_neg hLength, withContext_eq_ok, withContext_eq_ok, configureLabel_eq]

/-- A call gets as far as the allocation of the output, which fails. -/
def AllocationFails (evp : EvpKdf) (material : Bytes) (outputLength : Nat) : Prop :=
  material ≠ [] ∧ outputLength ≠ 0 ∧ evp.newContext.isSome ∧ (evp.allocate outputLength).isSome

instance (evp : EvpKdf) (material : Bytes) (outputLength : Nat) :
    Decidable (AllocationFails evp material outputLength) :=
  inferInstanceAs (Decidable (_ ∧ _ ∧ _ ∧ _))

theorem hkdfSha256_live (ikm salt info : Bytes) :
    (hkdfSha256 evp ikm salt info outputLength live).2 =
      live + if AllocationFails evp ikm outputLength then 1 else 0 := by
  unfold hkdfSha256 AllocationFails
  by_cases hKey : ikm = []
  · simp [hKey]
  · by_cases hLength : outputLength = 0
    · rw [if_neg hKey, if_pos hLength]
      simp [hLength]
    · rw [if_neg hKey, if_neg hLength, withContext_live]
      simp [hKey, hLength]

theorem derive_live (rootKey : Key) (purpose : KeyPurpose) :
    (derive evp rootKey purpose outputLength live).2 =
      live + if AllocationFails evp rootKey.bytes outputLength then 1 else 0 := by
  unfold derive AllocationFails
  by_cases hKey : rootKey.bytes = []
  · simp [Key.size, hKey]
  · have hSize : rootKey.size ≠ 0 := List.length_eq_zero_iff.not.mpr hKey
    by_cases hLength : outputLength = 0
    · rw [if_neg hSize, if_pos hLength]
      simp [hLength]
    · rw [if_neg hSize, if_neg hLength, withContext_live]
      simp [hKey, hLength]

end AnyInterface

/-! ## The ideal keys -/

section Ideal

variable {M : Hkdf.Mac 32} {infoLimit : Nat}

theorem setSalt_ideal (salt : Bytes) (context : KdfContext) (hNew : context.salt = []) :
    setSalt (.ideal M infoLimit) salt context =
      (consumed salt).map fun s => { context with salt := s } := by
  unfold setSalt
  by_cases hEmpty : salt = []
  · rw [if_pos hEmpty, hEmpty, consumed_nil, Option.map_some, ← hNew]
  · rw [if_neg hEmpty, consumed]

theorem addInfo_ideal (info : Bytes) (context : KdfContext) (hNew : context.info = []) :
    addInfo (.ideal M infoLimit) info context =
      (consumed info).bind fun i =>
        if i.length ≤ infoLimit then some { context with info := i } else none := by
  unfold addInfo
  by_cases hEmpty : info = []
  · rw [if_pos hEmpty, hEmpty, consumed_nil, Option.bind_some, List.length_nil,
      if_pos (Nat.zero_le _), ← hNew]
  · rw [if_neg hEmpty, consumed]
    simp only [hNew, List.nil_append]

/-- What the calls leave in the context: the parts that are consumed. -/
theorem configure_ideal {ikm salt info : Bytes} {context : KdfContext} :
    configure (.ideal M infoLimit) ikm salt info ⟨[], [], []⟩ = some context ↔
      consumed salt = some context.salt ∧ consumed ikm = some context.key ∧
        consumed info = some context.info ∧ context.info.length ≤ infoLimit := by
  simp only [configure, Option.bind_eq_bind, Option.bind_eq_some_iff, Option.some.injEq,
    exists_eq_left', setSalt_ideal, Option.map_eq_some_iff]
  constructor
  · intro h
    obtain ⟨_, ⟨s, hs, rfl⟩, _, ⟨k, hk, rfl⟩, hInfo⟩ := h
    rw [addInfo_ideal _ _ rfl, Option.bind_eq_some_iff] at hInfo
    obtain ⟨i, hi, hInfo⟩ := hInfo
    obtain ⟨hLimit, hContext⟩ := Option.ite_none_right_eq_some.mp hInfo
    cases hContext
    exact ⟨hs, hk, hi, hLimit⟩
  · intro h
    obtain ⟨hs, hk, hi, hLimit⟩ := h
    refine ⟨_, ⟨_, hs, rfl⟩, _, ⟨_, hk, rfl⟩, ?_⟩
    rw [addInfo_ideal _ _ rfl, hi, Option.bind_some, if_pos hLimit]

/-- The length of the output of HKDF is the one asked for. -/
theorem length_hkdf (salt ikm info : Bytes) (outputLength : Nat) :
    (Hkdf.derive M salt ikm info outputLength).length = outputLength :=
  Hkdf.length_expand (by decide) _ _ _

theorem hkdfSha256_ideal_eq_ok {ikm salt info : Bytes} {outputLength live : Nat} {key : Key} :
    (hkdfSha256 (.ideal M infoLimit) ikm salt info outputLength live).1 = .ok key ↔
      ikm ≠ [] ∧ 1 ≤ outputLength ∧ outputLength ≤ 255 * 32 ∧ ∃ s k i, consumed salt = some s ∧
        consumed ikm = some k ∧ consumed info = some i ∧ i.length ≤ infoLimit ∧
        key = ⟨Hkdf.derive M s k i outputLength⟩ := by
  rw [hkdfSha256_eq_ok, withContext_eq_ok]
  constructor
  · intro h
    obtain ⟨hKey, hLength, -, -, _, context, ⟨⟩, hConfigure, hDerive⟩ := h
    obtain ⟨hMost, hBytes⟩ := Option.ite_none_right_eq_some.mp hDerive
    obtain ⟨hs, hk, hi, hLimit⟩ := configure_ideal.mp hConfigure
    exact ⟨hKey, hLength, hMost, _, _, _, hs, hk, hi, hLimit,
      congrArg Key.mk (Option.some.inj hBytes).symm⟩
  · intro h
    obtain ⟨hKey, hLength, hMost, s, k, i, hs, hk, hi, hLimit, rfl⟩ := h
    have hAllocate : outputLength < 2 ^ 63 := by omega
    exact ⟨hKey, hLength, length_hkdf _ _ _ _, if_pos hAllocate, _, ⟨s, k, i⟩, rfl,
      configure_ideal.mpr ⟨hs, hk, hi, hLimit⟩, if_pos hMost⟩

theorem derive_ideal_eq_ok {rootKey key : Key} {purpose : KeyPurpose} {outputLength live : Nat} :
    (derive (.ideal M infoLimit) rootKey purpose outputLength live).1 = .ok key ↔
      rootKey.bytes ≠ [] ∧ 1 ≤ outputLength ∧ outputLength ≤ 255 * 32 ∧
        (purposeLabel purpose).length ≤ infoLimit ∧ ∃ k, consumed rootKey.bytes = some k ∧
          key = ⟨Hkdf.derive M (purposeLabel purpose) k (purposeLabel purpose) outputLength⟩ := by
  have hLabel : consumed (purposeLabel purpose) = some (purposeLabel purpose) := by
    have hShort := length_purposeLabel purpose
    exact consumed_self.mpr (by omega)
  rw [derive_eq_ok, hkdfSha256_ideal_eq_ok]
  constructor
  · intro h
    obtain ⟨hKey, hLength, hMost, s, k, i, hs, hk, hi, hLimit, rfl⟩ := h
    rw [hLabel] at hs hi
    cases hs
    cases hi
    exact ⟨hKey, hLength, hMost, hLimit, k, hk, rfl⟩
  · intro h
    obtain ⟨hKey, hLength, hMost, hLimit, k, hk, rfl⟩ := h
    exact ⟨hKey, hLength, hMost, _, k, _, hLabel, hk, hLabel, hLimit, rfl⟩

/-- **HKDF.** Both functions return for key material that is not empty and outputs of 1 to 8160
bytes, as long as the parts that are consumed exist and the one of the info is kept. The key is
the output of HKDF for these parts; for `derive`, the label is the salt and the info. -/
theorem key_derivation_is_hkdf (M : Hkdf.Mac 32) (infoLimit outputLength live : Nat) (key : Key) :
    (∀ ikm salt info,
      (hkdfSha256 (.ideal M infoLimit) ikm salt info outputLength live).1 = .ok key ↔
        ikm ≠ [] ∧ 1 ≤ outputLength ∧ outputLength ≤ 255 * 32 ∧ ∃ s k i,
          consumed salt = some s ∧ consumed ikm = some k ∧ consumed info = some i ∧
          i.length ≤ infoLimit ∧ key = ⟨Hkdf.derive M s k i outputLength⟩) ∧
    ∀ rootKey purpose, (derive (.ideal M infoLimit) rootKey purpose outputLength live).1 = .ok key ↔
      rootKey.bytes ≠ [] ∧ 1 ≤ outputLength ∧ outputLength ≤ 255 * 32 ∧
        (purposeLabel purpose).length ≤ infoLimit ∧ ∃ k, consumed rootKey.bytes = some k ∧
          key = ⟨Hkdf.derive M (purposeLabel purpose) k (purposeLabel purpose) outputLength⟩ :=
  ⟨fun _ _ _ => hkdfSha256_ideal_eq_ok, fun _ _ => derive_ideal_eq_ok⟩

/-- **Shorter keys.** Where a key of `longer` bytes is derived, the keys of fewer bytes for the
same input are its prefixes. -/
theorem shorter_key_begins_longer (M : Hkdf.Mac 32) {infoLimit longer live : Nat} {key : Key}
    {shorter : Nat} (hShorter : 1 ≤ shorter ∧ shorter ≤ longer) :
    (∀ ikm salt info, (hkdfSha256 (.ideal M infoLimit) ikm salt info longer live).1 = .ok key →
      (hkdfSha256 (.ideal M infoLimit) ikm salt info shorter live).1 =
        .ok ⟨key.bytes.take shorter⟩) ∧
    ∀ rootKey purpose, (derive (.ideal M infoLimit) rootKey purpose longer live).1 = .ok key →
      (derive (.ideal M infoLimit) rootKey purpose shorter live).1 =
        .ok ⟨key.bytes.take shorter⟩ := by
  obtain ⟨hPositive, hLe⟩ := hShorter
  have hTake (s k i : Bytes) :
      (Hkdf.derive M s k i longer).take shorter = Hkdf.derive M s k i shorter :=
    Hkdf.take_expand (by decide) _ _ hLe
  refine ⟨fun ikm salt info h => ?_, fun rootKey purpose h => ?_⟩
  · obtain ⟨hKey, -, hMost, s, k, i, hs, hk, hi, hLimit, rfl⟩ := hkdfSha256_ideal_eq_ok.mp h
    exact hkdfSha256_ideal_eq_ok.mpr ⟨hKey, hPositive, hLe.trans hMost, s, k, i, hs, hk, hi, hLimit,
      congrArg Key.mk (hTake s k i)⟩
  · obtain ⟨hKey, -, hMost, hLimit, k, hk, rfl⟩ := derive_ideal_eq_ok.mp h
    exact derive_ideal_eq_ok.mpr ⟨hKey, hPositive, hLe.trans hMost, hLimit, k, hk,
      congrArg Key.mk (hTake _ k _)⟩

/-- The vector of RFC 5869 with 42 bytes, cut to a key of 16. -/
theorem shorter_key_of_vector :
    (hkdfSha256 (.ideal Hkdf.hmacSha256 1024) (List.replicate 22 0x0b)
      [0, 1, 2, 3, 4, 5, 6, 7, 8, 9, 10, 11, 12]
      [0xf0, 0xf1, 0xf2, 0xf3, 0xf4, 0xf5, 0xf6, 0xf7, 0xf8, 0xf9] 16 0).1 =
    .ok ⟨[0x3c, 0xb2, 0x5f, 0x25, 0xfa, 0xac, 0xd5, 0x7a, 0x90, 0x43, 0x4f, 0x64, 0xd0, 0x36, 0x2f,
      0x2a]⟩ := by
  have hDerive : Hkdf.derive Hkdf.hmacSha256 [0, 1, 2, 3, 4, 5, 6, 7, 8, 9, 10, 11, 12]
      (List.replicate 22 0x0b) [0xf0, 0xf1, 0xf2, 0xf3, 0xf4, 0xf5, 0xf6, 0xf7, 0xf8, 0xf9] 42 =
      [0x3c, 0xb2, 0x5f, 0x25, 0xfa, 0xac, 0xd5, 0x7a, 0x90, 0x43, 0x4f, 0x64, 0xd0, 0x36, 0x2f,
        0x2a, 0x2d, 0x2d, 0x0a, 0x90, 0xcf, 0x1a, 0x5a, 0x4c, 0x5d, 0xb0, 0x2d, 0x56, 0xec, 0xc4,
        0xc5, 0xbf, 0x34, 0x00, 0x72, 0x08, 0xd5, 0xb8, 0x87, 0x18, 0x58, 0x65] := by
    decide +kernel
  have hLonger : (hkdfSha256 (.ideal Hkdf.hmacSha256 1024) (List.replicate 22 0x0b)
      [0, 1, 2, 3, 4, 5, 6, 7, 8, 9, 10, 11, 12]
      [0xf0, 0xf1, 0xf2, 0xf3, 0xf4, 0xf5, 0xf6, 0xf7, 0xf8, 0xf9] 42 0).1 = .ok ⟨_⟩ :=
    hkdfSha256_ideal_eq_ok.mpr ⟨by simp, by decide, by decide, _, _, _, rfl, rfl, rfl, by decide,
      congrArg Key.mk hDerive.symm⟩
  exact (shorter_key_begins_longer Hkdf.hmacSha256 ⟨by decide, by decide⟩).1 _ _ _ hLonger

/-! ## Salts and purposes -/

theorem fill_purposeLabel_injective (purpose purpose' : KeyPurpose) :
    Hkdf.fill 64 (purposeLabel purpose) = Hkdf.fill 64 (purposeLabel purpose') →
      purpose = purpose' := by
  intro h
  cases purpose <;> cases purpose' <;> first | rfl | exact absurd h (by decide)

/-- **Key separation.** Nothing connects the keys of one root for different purposes: any four
keys are the derived ones under some code, whatever the root. -/
theorem purposes_are_separate (infoLimit : Nat) (hLimit : 24 ≤ infoLimit) (key : KeyPurpose → Key)
    (hSize : ∀ purpose, 1 ≤ (key purpose).size ∧ (key purpose).size ≤ 255 * 32) :
    ∃ M : Hkdf.Mac 32, M.FillsKeys 64 ∧ ∀ rootKey : Key, rootKey.bytes ≠ [] →
      ¬ toInt rootKey.size < 0 → ∀ purpose live,
        (derive (.ideal M infoLimit) rootKey purpose (key purpose).size live).1 =
          .ok (key purpose) := by
  have hRoom : 2 * Fintype.card KeyPurpose < 256 ^ 32 := by
    rw [show Fintype.card KeyPurpose = 4 from rfl]
    norm_num
  have hTarget (purpose : KeyPurpose) : (key purpose).bytes.length ≤ 255 * 32 := (hSize purpose).2
  obtain ⟨M, hFills, hDerive⟩ := Hkdf.exists_mac_derive (by decide) hRoom fill_purposeLabel_injective
    hTarget
  refine ⟨M, hFills, fun rootKey hRoot hCount purpose live => ?_⟩
  obtain ⟨k, hk⟩ := exists_consumed hCount
  exact derive_ideal_eq_ok.mpr ⟨hRoot, (hSize purpose).1, (hSize purpose).2,
    (length_purposeLabel purpose).trans hLimit, k, hk,
    congrArg Key.mk (hDerive purpose k (purposeLabel purpose)).symm⟩

/-- The labels themselves are the keys under some code. -/
theorem labels_are_keys : ∃ M : Hkdf.Mac 32, M.FillsKeys 64 ∧ ∀ rootKey : Key,
    rootKey.bytes ≠ [] → ¬ toInt rootKey.size < 0 → ∀ purpose live,
      (derive (.ideal M 1024) rootKey purpose (Key.mk (purposeLabel purpose)).size live).1 =
        .ok ⟨purposeLabel purpose⟩ :=
  purposes_are_separate 1024 (by decide) (fun purpose => ⟨purposeLabel purpose⟩) fun purpose => by
    cases purpose <;> decide

/-- Zeros behind a salt do not change what HKDF derives. -/
theorem derive_eq_of_fill_eq (hFills : M.FillsKeys 64) {salt salt' : Bytes}
    (hSalt : salt.length ≤ 64) (hSalt' : salt'.length ≤ 64)
    (h : Hkdf.fill 64 salt = Hkdf.fill 64 salt') (ikm info : Bytes) (outputLength : Nat) :
    Hkdf.derive M salt ikm info outputLength = Hkdf.derive M salt' ikm info outputLength := by
  have hExtract (s : Bytes) (hs : s.length ≤ 64) :
      Hkdf.extract M (Hkdf.fill 64 s) ikm = Hkdf.extract M s ikm :=
    hFills s ikm _ (by omega)
  rw [Hkdf.derive, Hkdf.derive, ← hExtract salt hSalt, h, hExtract salt' hSalt']

/-- **Salts.** Two salts of at most 64 bytes give the same keys under every code that fills its
keys with zeros, as HMAC does, if and only if they differ in zeros at their ends alone. -/
theorem salts_agree_iff (infoLimit : Nat) {salt salt' : Bytes} (hSalt : salt.length ≤ 64)
    (hSalt' : salt'.length ≤ 64) :
    (∀ M : Hkdf.Mac 32, M.FillsKeys 64 → ∀ ikm info outputLength live key,
      (hkdfSha256 (.ideal M infoLimit) ikm salt info outputLength live).1 = .ok key ↔
        (hkdfSha256 (.ideal M infoLimit) ikm salt' info outputLength live).1 = .ok key) ↔
      Hkdf.fill 64 salt = Hkdf.fill 64 salt' := by
  have hWhole : consumed salt = some salt := consumed_self.mpr (by omega)
  have hWhole' : consumed salt' = some salt' := consumed_self.mpr (by omega)
  constructor
  · intro h
    by_contra hDiffer
    let family (first : Bool) : Bytes := if first then salt else salt'
    let target (first : Bool) : Bytes := if first then [0] else [1]
    have hFamily : ∀ i j, Hkdf.fill 64 (family i) = Hkdf.fill 64 (family j) → i = j := by
      intro i j hSame
      cases i <;> cases j
      · rfl
      · exact absurd hSame.symm hDiffer
      · exact absurd hSame hDiffer
      · rfl
    have hTarget (i : Bool) : (target i).length ≤ 255 * 32 := by
      cases i <;> simp [target]
    have hRoom : 2 * Fintype.card Bool < 256 ^ 32 := by
      rw [Fintype.card_bool]
      norm_num
    obtain ⟨M, hFills, hDerive⟩ := Hkdf.exists_mac_derive (by decide) hRoom hFamily hTarget
    have hFirst : Hkdf.derive M salt [0] [] 1 = [0] := hDerive true [0] []
    have hSecond : Hkdf.derive M salt' [0] [] 1 = [1] := hDerive false [0] []
    have hOk := (h M hFills [0] [] 1 0 ⟨[0]⟩).mp (hkdfSha256_ideal_eq_ok.mpr
      ⟨by simp, le_rfl, by decide, salt, [0], [], hWhole, rfl, rfl, Nat.zero_le _,
        congrArg Key.mk hFirst.symm⟩)
    obtain ⟨-, -, -, s, k, i, hs, hk, hi, -, hKey⟩ := hkdfSha256_ideal_eq_ok.mp hOk
    rw [hWhole', Option.some.injEq] at hs
    cases hk
    cases hi
    subst hs
    have hBytes : ([0] : Bytes) = [1] := (Key.mk.inj hKey).trans hSecond
    cases hBytes
  · intro h M hFills ikm info outputLength live key
    rw [hkdfSha256_ideal_eq_ok, hkdfSha256_ideal_eq_ok]
    simp only [hWhole, hWhole', Option.some.injEq, exists_and_left, exists_eq_left',
      derive_eq_of_fill_eq hFills hSalt hSalt' h]

/-- Under HMAC-SHA-256, no salt gives the key of a salt of 32 zeros. -/
theorem no_salt_is_zeros : ∃ key,
    (hkdfSha256 (.ideal Hkdf.hmacSha256 1024) [1] [] [] 16 0).1 = .ok key ∧
    (hkdfSha256 (.ideal Hkdf.hmacSha256 1024) [1] (List.replicate 32 0) [] 16 0).1 = .ok key := by
  have hNothing : ([] : Bytes).length ≤ 64 := Nat.zero_le 64
  have hZeros : (List.replicate 32 0 : Bytes).length ≤ 64 := by decide
  have hAgree := (salts_agree_iff 1024 hNothing hZeros).mpr rfl Hkdf.hmacSha256
    (Hkdf.Hash.hmac_fillsKeys _ 64)
  have hKey : (hkdfSha256 (.ideal Hkdf.hmacSha256 1024) [1] [] [] 16 0).1 = .ok ⟨_⟩ :=
    hkdfSha256_ideal_eq_ok.mpr
      ⟨by simp, by decide, by decide, [], [1], [], rfl, rfl, rfl, Nat.zero_le _, rfl⟩
  exact ⟨_, hKey, (hAgree _ _ _ _ _).mp hKey⟩

end Ideal

/-! ## Runs of calls -/

inductive KdfCall where
  | hkdfSha256 (ikm salt info : Bytes) (outputLength : Nat)
  | derive (rootKey : Key) (purpose : KeyPurpose) (outputLength : Nat)

namespace KdfCall

def perform (evp : EvpKdf) (call : KdfCall) (live : Nat) : Result Key × Nat :=
  match call with
  | .hkdfSha256 ikm salt info outputLength =>
    KeyDerivation.hkdfSha256 evp ikm salt info outputLength live
  | .derive rootKey purpose outputLength =>
    KeyDerivation.derive evp rootKey purpose outputLength live

def material : KdfCall → Bytes
  | .hkdfSha256 ikm _ _ _ => ikm
  | .derive rootKey _ _ => rootKey.bytes

def outputLength : KdfCall → Nat
  | .hkdfSha256 _ _ _ outputLength => outputLength
  | .derive _ _ outputLength => outputLength

/-- The call of `hkdfSha256` that stands for a call of `derive`. -/
def plain : KdfCall → KdfCall
  | .hkdfSha256 ikm salt info outputLength => .hkdfSha256 ikm salt info outputLength
  | .derive rootKey purpose outputLength =>
    .hkdfSha256 rootKey.bytes (purposeLabel purpose) (purposeLabel purpose) outputLength

theorem material_plain (call : KdfCall) : call.plain.material = call.material := by
  cases call <;> rfl

theorem outputLength_plain (call : KdfCall) : call.plain.outputLength = call.outputLength := by
  cases call <;> rfl

theorem perform_live (evp : EvpKdf) (call : KdfCall) (live : Nat) :
    (call.perform evp live).2 =
      live + if AllocationFails evp call.material call.outputLength then 1 else 0 := by
  cases call with
  | hkdfSha256 ikm salt info outputLength => exact hkdfSha256_live ikm salt info
  | derive rootKey purpose outputLength => exact derive_live rootKey purpose

/-- The plain call has the same keys. -/
theorem perform_plain_eq_ok (evp : EvpKdf) (call : KdfCall) (live live' : Nat) (key : Key) :
    (call.perform evp live).1 = .ok key ↔ (call.plain.perform evp live').1 = .ok key := by
  cases call with
  | hkdfSha256 ikm salt info outputLength =>
    simp only [perform, plain, hkdfSha256_eq_ok, withContext_eq_ok]
  | derive rootKey purpose outputLength =>
    simp only [perform, plain, derive_eq_ok, hkdfSha256_eq_ok, withContext_eq_ok]

end KdfCall

/-- Calls in order, each with the interface as it behaves at that moment. -/
def performAll : List (EvpKdf × KdfCall) → Nat → List (Result Key) × Nat
  | [], live => ([], live)
  | (evp, call) :: calls, live =>
    let (key, live) := call.perform evp live
    let (keys, live) := performAll calls live
    (key :: keys, live)

/-- **Contexts.** However the calls of a run fail, the contexts that stay alive behind it are one
for each call whose output could not be allocated. -/
theorem live_performAll (calls : List (EvpKdf × KdfCall)) (live : Nat) :
    (performAll calls live).2 =
      live + calls.countP fun call =>
        AllocationFails call.1 call.2.material call.2.outputLength := by
  induction calls generalizing live with
  | nil => rfl
  | cons call calls ih =>
    rw [performAll, ih, KdfCall.perform_live, List.countP_cons, Nat.add_assoc]
    simp only [decide_eq_true_eq]
    omega

/-- **The two functions agree.** In every run, `derive` can be replaced by `hkdfSha256` with the
label as salt and info: the same keys are derived and the same contexts stay alive. -/
theorem performAll_plain (calls : List (EvpKdf × KdfCall)) (live : Nat) :
    List.Forall₂ (fun result result' => ∀ key : Key, result = .ok key ↔ result' = .ok key)
        (performAll calls live).1
        (performAll (calls.map fun call => (call.1, call.2.plain)) live).1 ∧
      (performAll calls live).2 =
        (performAll (calls.map fun call => (call.1, call.2.plain)) live).2 := by
  induction calls generalizing live with
  | nil => exact ⟨.nil, rfl⟩
  | cons call calls ih =>
    have hLive : (call.2.perform call.1 live).2 = (call.2.plain.perform call.1 live).2 := by
      rw [KdfCall.perform_live, KdfCall.perform_live, KdfCall.material_plain,
        KdfCall.outputLength_plain]
    obtain ⟨hKeys, hContexts⟩ := ih (call.2.perform call.1 live).2
    simp only [performAll, List.map_cons, ← hLive]
    exact ⟨.cons (call.2.perform_plain_eq_ok call.1 live live) hKeys, hContexts⟩

end KeyDerivation

end IndicCrypt.Crypto
