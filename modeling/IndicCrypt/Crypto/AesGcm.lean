import IndicCrypt.Crypto.Types
import IndicCrypt.Library.Gcm

/-!
# AES-256-GCM

`AesGcm::encrypt` and `AesGcm::decrypt` over the calls of the EVP interface that they make.
Sizes reach the interface through `static_cast<int>` (`toInt`), while the output buffers are
allocated with the full size and cut to the reported length at the end.

`EvpAead.ideal` is the interface of an ideal streaming primitive: an update consumes exactly
the number of bytes it is told and fails on a negative count, and the final step accepts
exactly the tag of the bytes consumed. Over it, both functions see only the part of a string
that its `int` size tells of (`consumed`).

`aes_gcm_inverse_iff` says for which sizes the two functions are inverse to each other.
Messages of `2 ^ 32` bytes and more are cut without an error.
-/

namespace IndicCrypt.Crypto

open Run Gcm

/-! ## The interface -/

inductive Direction where
  | encrypt
  | decrypt

/-- The calls of the interface: nothing where the C function does not return one, and
otherwise the context after the call and the bytes written. -/
structure EvpAead where
  Context : Type
  newContext : Option Context
  initCipher : Direction → Context → Option Context
  setIvLength : Context → Int → Option Context
  initKey : Direction → Context → Bytes → Bytes → Option Context
  updateAad : Direction → Context → Bytes → Int → Option Context
  update : Direction → Context → Bytes → Int → Option (Context × Bytes)
  final : Direction → Context → Option (Context × Bytes)
  getTag : Context → Int → Option Bytes
  setTag : Context → Int → Bytes → Option Context

/-- Write `written` into the buffer at `offset`. -/
def writeAt (buffer : Bytes) (offset : Nat) (written : Bytes) : Bytes :=
  buffer.take offset ++ written ++ buffer.drop (offset + written.length)

/-- `resize` of a vector. -/
def resize (buffer : Bytes) (size : Nat) : Bytes :=
  buffer.take size ++ List.replicate (size - buffer.length) 0

/-! ## The functions -/

structure AesGcmCiphertext where
  ciphertext : Ciphertext
  tag : AuthenticationTag

namespace AesGcm

def keySize : Nat := 32

def nonceSize : Nat := 12

def tagSize : Nat := 16

def validateKeyAndNonce (key : Key) (nonce : Nonce) : Result Unit := do
  throwIf (key.size ≠ keySize) (.invalidArgument "AES-256-GCM requires a 32-byte key")
  throwIf (nonce.size ≠ nonceSize) (.invalidArgument "AES-GCM requires a 12-byte nonce")

/-- The calls up to the key, the same in both directions. -/
def start (evp : EvpAead) (direction : Direction) (key : Key) (nonce : Nonce) :
    Result evp.Context := do
  let context ← orThrow evp.newContext "Failed to allocate AES-GCM context"
  let context ← orThrow (evp.initCipher direction context) "AES-GCM initialization failed"
  let context ← orThrow (evp.setIvLength context (toInt nonce.size))
    "Failed to configure GCM nonce length"
  orThrow (evp.initKey direction context key.bytes nonce.bytes)
    "AES-GCM key/nonce initialization failed"

/-- The call for the associated data, if there are any. -/
def feedAad (evp : EvpAead) (direction : Direction) (context : evp.Context) (aad : Bytes) :
    Result evp.Context :=
  if aad = [] then
    .ok context
  else
    orThrow (evp.updateAad direction context aad (toInt aad.length)) "AES-GCM AAD processing failed"

/-- The call for the message, if it is not empty, with the text of its failure. -/
def feed (evp : EvpAead) (direction : Direction) (what : String) (context : evp.Context)
    (message : Bytes) : Result (evp.Context × Bytes) :=
  if message = [] then
    .ok (context, [])
  else
    orThrow (evp.update direction context message (toInt message.length)) what

def encrypt (evp : EvpAead) (key : Key) (nonce : Nonce) (plaintext aad : Bytes) :
    Result AesGcmCiphertext := do
  validateKeyAndNonce key nonce
  let context ← start evp .encrypt key nonce
  let context ← feedAad evp .encrypt context aad
  let ciphertext : Bytes := List.replicate plaintext.length 0
  let (context, written) ← feed evp .encrypt "AES-GCM encryption failed" context plaintext
  let ciphertext := writeAt ciphertext 0 written
  let ciphertextLength := written.length
  let (context, final) ← orThrow (evp.final .encrypt context) "AES-GCM finalization failed"
  let ciphertext := writeAt ciphertext ciphertextLength final
  let ciphertext := resize ciphertext (ciphertextLength + final.length)
  let tag ← orThrow (evp.getTag context (toInt tagSize)) "Failed to obtain AES-GCM authentication tag"
  return ⟨⟨ciphertext⟩, ⟨tag⟩⟩

def decrypt (evp : EvpAead) (key : Key) (nonce : Nonce) (ciphertext : Ciphertext)
    (tag : AuthenticationTag) (aad : Bytes) : Result Bytes := do
  validateKeyAndNonce key nonce
  throwIf (tag.size ≠ tagSize) (.invalidArgument "AES-GCM requires a 16-byte authentication tag")
  let context ← start evp .decrypt key nonce
  let context ← feedAad evp .decrypt context aad
  let plaintext : Bytes := List.replicate ciphertext.size 0
  let (context, written) ← feed evp .decrypt "AES-GCM decryption failed" context ciphertext.bytes
  let plaintext := writeAt plaintext 0 written
  let plaintextLength := written.length
  let context ← orThrow (evp.setTag context (toInt tag.size) tag.bytes)
    "Failed to configure authentication tag"
  let (_, final) ← orThrow (evp.final .decrypt context) "AES-GCM authentication failed"
  let plaintext := writeAt plaintext plaintextLength final
  return resize plaintext (plaintextLength + final.length)

end AesGcm

/-! ## The ideal primitive -/

/-- What an ideal primitive remembers: the key and nonce, the associated data and the
ciphertext consumed so far, and the tag to be checked. -/
structure IdealContext where
  ivLength : Int
  key : Bytes
  nonce : Bytes
  aad : Bytes
  ciphertext : Bytes
  expectedTag : Option Bytes

/-- The bytes an update consumes when it is told a count. -/
def told (data : Bytes) (count : Int) : Option Bytes :=
  if count < 0 then none else some (data.take count.toNat)

namespace IdealContext

variable (G : Primitive) (context : IdealContext)

def updateAad (data : Bytes) (count : Int) : Option IdealContext :=
  (told data count).map fun chunk => { context with aad := context.aad ++ chunk }

/-- The keystream at the bytes that come next. -/
def masked (chunk : Bytes) : Bytes :=
  mask (G.keystream context.key context.nonce) context.ciphertext.length chunk

def encryptUpdate (data : Bytes) (count : Int) : Option (IdealContext × Bytes) :=
  (told data count).map fun chunk =>
    let output := context.masked G chunk
    ({ context with ciphertext := context.ciphertext ++ output }, output)

def decryptUpdate (data : Bytes) (count : Int) : Option (IdealContext × Bytes) :=
  (told data count).map fun chunk =>
    let output := context.masked G chunk
    ({ context with ciphertext := context.ciphertext ++ chunk }, output)

/-- The tag of the bytes consumed. -/
def tag : Bytes := G.tag context.key context.nonce context.aad context.ciphertext

def decryptFinal : Option (IdealContext × Bytes) :=
  if context.expectedTag = some (context.tag G) then some (context, []) else none

end IdealContext

abbrev EvpAead.ideal (G : Primitive) : EvpAead where
  Context := IdealContext
  newContext := some ⟨0, [], [], [], [], none⟩
  initCipher _ context := some context
  setIvLength context length := some { context with ivLength := length }
  initKey _ context key nonce :=
    some { context with key := key, nonce := nonce.take context.ivLength.toNat }
  updateAad _ context data count := context.updateAad data count
  update direction context data count :=
    match direction with
    | .encrypt => context.encryptUpdate G data count
    | .decrypt => context.decryptUpdate G data count
  final direction context :=
    match direction with
    | .encrypt => some (context, [])
    | .decrypt => context.decryptFinal G
  getTag context count := told (context.tag G) count
  setTag context count tag :=
    (told tag count).map fun tag => { context with expectedTag := some tag }

/-! ## What the functions return -/

/-- The part of a string that its `int` size tells of. -/
def consumed (s : Bytes) : Option Bytes := told s (toInt s.length)

@[simp] theorem consumed_nil : consumed [] = some [] := rfl

theorem consumed_eq_some {s t : Bytes} :
    consumed s = some t ↔ toInt s.length = t.length ∧ t <+: s := by
  unfold consumed told
  constructor
  · intro h
    by_cases hNegative : toInt s.length < 0
    · rw [if_pos hNegative] at h
      cases h
    · rw [if_neg hNegative, Option.some.injEq] at h
      subst h
      have hCount : toInt s.length = (toInt s.length).toNat := by omega
      obtain ⟨-, hMod⟩ := toInt_eq_natCast.mp hCount
      have hLe := Nat.mod_le s.length (2 ^ 32)
      rw [List.length_take, Nat.min_eq_left (by omega)]
      exact ⟨hCount, List.take_prefix _ _⟩
  · rintro ⟨hCount, hPrefix⟩
    rw [hCount, if_neg (by omega), Int.toNat_natCast, ← List.prefix_iff_eq_take.mp hPrefix]

/-- A string below `2 ^ 31` bytes is consumed whole. -/
theorem consumed_self {s : Bytes} : consumed s = some s ↔ s.length < 2 ^ 31 := by
  rw [consumed_eq_some, toInt_eq_natCast]
  refine ⟨fun h => h.1.1, fun h => ⟨⟨h, Nat.mod_eq_of_lt (by omega)⟩, List.prefix_rfl⟩⟩

/-- The buffer that was written at its start and then cut holds what was written. -/
theorem resize_writeAt (size : Nat) (written : Bytes) :
    resize (writeAt (writeAt (List.replicate size 0) 0 written) written.length [])
      (written.length + ([] : Bytes).length) = written := by
  have hFirst : writeAt (List.replicate size 0) 0 written =
      written ++ List.replicate (size - written.length) 0 := by
    simp [writeAt]
  have hSecond : writeAt (written ++ List.replicate (size - written.length) 0) written.length [] =
      written ++ List.replicate (size - written.length) 0 := by
    simp [writeAt]
  rw [hFirst, hSecond]
  simp [resize]

section Ideal

variable {G : Primitive} {key : Key} {nonce : Nonce}

/-- The context behind `start`. -/
def started (key : Key) (nonce : Nonce) : IdealContext :=
  ⟨12, key.bytes, nonce.bytes, [], [], none⟩

theorem start_ideal (direction : Direction) (hNonce : nonce.size = AesGcm.nonceSize) :
    AesGcm.start (.ideal G) direction key nonce = .ok (started key nonce) := by
  have hTake : nonce.bytes.take 12 = nonce.bytes := List.take_of_length_le (le_of_eq hNonce)
  unfold AesGcm.start
  rw [hNonce]
  simp only [orThrow, ok_bind, started]
  rw [show (toInt AesGcm.nonceSize).toNat = 12 from rfl, hTake]
  rfl

/-- An update of the associated data consumes what their size tells of. -/
theorem feedAad_ideal (direction : Direction) (context : IdealContext) (aad : Bytes) :
    AesGcm.feedAad (.ideal G) direction context aad =
      orThrow ((consumed aad).map fun a => { context with aad := context.aad ++ a })
        "AES-GCM AAD processing failed" := by
  unfold AesGcm.feedAad
  by_cases hEmpty : aad = []
  · subst hEmpty
    simp [orThrow]
  · simp only [if_neg hEmpty, IdealContext.updateAad, consumed]

theorem feed_encrypt_ideal (what : String) (context : IdealContext) (message : Bytes) :
    AesGcm.feed (.ideal G) .encrypt what context message =
      orThrow ((consumed message).map fun q =>
        ({ context with ciphertext := context.ciphertext ++ context.masked G q },
          context.masked G q)) what := by
  unfold AesGcm.feed
  by_cases hEmpty : message = []
  · subst hEmpty
    simp [orThrow, IdealContext.masked, mask]
  · simp only [if_neg hEmpty, IdealContext.encryptUpdate, consumed]

theorem feed_decrypt_ideal (what : String) (context : IdealContext) (message : Bytes) :
    AesGcm.feed (.ideal G) .decrypt what context message =
      orThrow ((consumed message).map fun q =>
        ({ context with ciphertext := context.ciphertext ++ q }, context.masked G q)) what := by
  unfold AesGcm.feed
  by_cases hEmpty : message = []
  · subst hEmpty
    simp [orThrow, IdealContext.masked, mask]
  · simp only [if_neg hEmpty, IdealContext.decryptUpdate, consumed]

/-- Sixteen bytes are asked for, and the tag has them. -/
theorem told_tag {t : Bytes} (h : t.length = AesGcm.tagSize) :
    told t (toInt AesGcm.tagSize) = some t := by
  rw [show toInt AesGcm.tagSize = (16 : Nat) from rfl, told, if_neg (by omega), Int.toNat_natCast,
    show 16 = t.length from h.symm, List.take_length]

theorem length_tag (context : IdealContext) : (context.tag G).length = AesGcm.tagSize :=
  G.length_tag _ _ _ _

theorem validate_of_sizes (hKey : key.size = AesGcm.keySize)
    (hNonce : nonce.size = AesGcm.nonceSize) :
    AesGcm.validateKeyAndNonce key nonce = .ok () := by
  unfold AesGcm.validateKeyAndNonce
  rw [throwIf_of_not (not_not_intro hKey), ok_bind, throwIf_of_not (not_not_intro hNonce)]

variable (hKey : key.size = AesGcm.keySize) (hNonce : nonce.size = AesGcm.nonceSize)
include hKey hNonce

/-- **Encryption** masks the part of the plaintext that is consumed, and its tag is the one of
what was consumed. -/
theorem encrypt_ideal (p aad : Bytes) :
    AesGcm.encrypt (.ideal G) key nonce p aad = do
      let a ← orThrow (consumed aad) "AES-GCM AAD processing failed"
      let q ← orThrow (consumed p) "AES-GCM encryption failed"
      let c := mask (G.keystream key.bytes nonce.bytes) 0 q
      return ⟨⟨c⟩, ⟨G.tag key.bytes nonce.bytes a c⟩⟩ := by
  unfold AesGcm.encrypt
  rw [validate_of_sizes hKey hNonce, ok_bind, start_ideal _ hNonce, ok_bind, feedAad_ideal]
  cases consumed aad with
  | none => simp only [Option.map_none, orThrow_none, error_bind]
  | some a =>
    simp only [Option.map_some, orThrow_some, ok_bind, feed_encrypt_ideal]
    cases consumed p with
    | none => simp only [Option.map_none, orThrow_none, error_bind]
    | some q =>
      simp only [Option.map_some, orThrow_some, ok_bind, resize_writeAt, told_tag (length_tag _)]
      rfl

/-- **Decryption** masks the part of the ciphertext that is consumed, if the tag is the one of
what was consumed. -/
theorem decrypt_ideal (c t aad : Bytes) (hTag : t.length = AesGcm.tagSize) :
    AesGcm.decrypt (.ideal G) key nonce ⟨c⟩ ⟨t⟩ aad = do
      let a ← orThrow (consumed aad) "AES-GCM AAD processing failed"
      let q ← orThrow (consumed c) "AES-GCM decryption failed"
      throwIf (t ≠ G.tag key.bytes nonce.bytes a q) (.runtimeError "AES-GCM authentication failed")
      return mask (G.keystream key.bytes nonce.bytes) 0 q := by
  have hSize : ¬ (⟨t⟩ : AuthenticationTag).size ≠ AesGcm.tagSize := not_not_intro hTag
  unfold AesGcm.decrypt
  rw [validate_of_sizes hKey hNonce, ok_bind, throwIf_of_not hSize, ok_bind,
    start_ideal _ hNonce, ok_bind, feedAad_ideal]
  cases consumed aad with
  | none => simp only [Option.map_none, orThrow_none, error_bind]
  | some a =>
    simp only [Option.map_some, orThrow_some, ok_bind, feed_decrypt_ideal]
    cases consumed c with
    | none => simp only [Option.map_none, orThrow_none, error_bind]
    | some q =>
      have hTold : told t (toInt (⟨t⟩ : AuthenticationTag).size) = some t := by
        rw [show (⟨t⟩ : AuthenticationTag).size = AesGcm.tagSize from hTag]
        exact told_tag hTag
      simp only [Option.map_some, orThrow_some, ok_bind, hTold, IdealContext.decryptFinal,
        IdealContext.tag, started, Option.some.injEq, List.nil_append]
      by_cases hSame : t = G.tag key.bytes nonce.bytes a q
      · rw [if_pos hSame, orThrow_some, ok_bind, resize_writeAt,
          throwIf_of_not (not_not_intro hSame), ok_bind]
        rfl
      · rw [if_neg hSame, orThrow_none, error_bind, throwIf_of hSame, error_bind]

theorem encrypt_ideal_eq_ok {p aad c t : Bytes} :
    AesGcm.encrypt (.ideal G) key nonce p aad = .ok ⟨⟨c⟩, ⟨t⟩⟩ ↔
      ∃ a q, consumed aad = some a ∧ consumed p = some q ∧
        c = mask (G.keystream key.bytes nonce.bytes) 0 q ∧
        t = G.tag key.bytes nonce.bytes a c := by
  rw [encrypt_ideal hKey hNonce]
  cases consumed aad with
  | none => simp
  | some a =>
    cases consumed p with
    | none => simp
    | some q =>
      simp only [orThrow_some, ok_bind, pure_eq_ok, Except.ok.injEq, AesGcmCiphertext.mk.injEq,
        Ciphertext.mk.injEq, AuthenticationTag.mk.injEq, Option.some.injEq]
      constructor
      · rintro ⟨rfl, rfl⟩
        exact ⟨a, q, rfl, rfl, rfl, rfl⟩
      · rintro ⟨_, _, rfl, rfl, rfl, rfl⟩
        exact ⟨rfl, rfl⟩

theorem decrypt_ideal_eq_ok {p aad c t : Bytes} (hTag : t.length = AesGcm.tagSize) :
    AesGcm.decrypt (.ideal G) key nonce ⟨c⟩ ⟨t⟩ aad = .ok p ↔
      ∃ a q, consumed aad = some a ∧ consumed c = some q ∧
        t = G.tag key.bytes nonce.bytes a q ∧
        p = mask (G.keystream key.bytes nonce.bytes) 0 q := by
  rw [decrypt_ideal hKey hNonce c t aad hTag]
  cases consumed aad with
  | none => simp
  | some a =>
    cases consumed c with
    | none => simp
    | some q =>
      simp only [orThrow_some, ok_bind, Option.some.injEq]
      by_cases hSame : t = G.tag key.bytes nonce.bytes a q
      · rw [throwIf_of_not (not_not_intro hSame), ok_bind, pure_eq_ok, Except.ok.injEq]
        constructor
        · intro hPlain
          exact ⟨a, q, rfl, rfl, hSame, hPlain.symm⟩
        · rintro ⟨_, _, rfl, rfl, -, hPlain⟩
          exact hPlain.symm
      · rw [throwIf_of hSame, error_bind]
        constructor
        · intro hPlain
          cases hPlain
        · rintro ⟨_, _, rfl, rfl, hTag, -⟩
          exact absurd hTag hSame

end Ideal

/-! ## When the functions are inverse -/

/-- A string of `size` bytes is cut to `count` bytes by the conversion of its size. -/
def Cut (size count : Nat) : Prop := toInt size = count ∧ size ≠ count

theorem Cut.lt {size count : Nat} (h : Cut size count) : count < 2 ^ 31 :=
  (toInt_eq_natCast.mp h.1).1

theorem Cut.le {size count : Nat} (h : Cut size count) : count ≤ size :=
  (toInt_eq_natCast.mp h.1).2.ge.trans (Nat.mod_le _ _)

theorem consumed_of_not_cut {s t : Bytes} (h : consumed s = some t)
    (hCut : ¬ Cut s.length t.length) : t = s ∧ s.length < 2 ^ 31 := by
  obtain ⟨hCount, hPrefix⟩ := consumed_eq_some.mp h
  have hLength : s.length = t.length := by
    by_contra hNot
    exact hCut ⟨hCount, hNot⟩
  refine ⟨hPrefix.eq_of_length hLength.symm, ?_⟩
  rw [hLength]
  exact (toInt_eq_natCast.mp hCount).1

theorem exists_consumed {s : Bytes} (h : ¬ toInt s.length < 0) : ∃ t, consumed s = some t :=
  ⟨_, if_neg h⟩

theorem consumed_of_neg {s : Bytes} (h : toInt s.length < 0) : consumed s = none := if_pos h

section Inverse

variable {G : Primitive} {key : Key} {nonce : Nonce} (hKey : key.size = AesGcm.keySize)
  (hNonce : nonce.size = AesGcm.nonceSize)
include hKey hNonce

/-- Sizes that are not cut: the two functions are inverse to each other. -/
theorem decrypt_iff_encrypt {p aad c t : Bytes} (hTag : t.length = AesGcm.tagSize)
    (hPlain : ¬ Cut p.length c.length) (hCipher : ¬ Cut c.length p.length) :
    AesGcm.decrypt (.ideal G) key nonce ⟨c⟩ ⟨t⟩ aad = .ok p ↔
      AesGcm.encrypt (.ideal G) key nonce p aad = .ok ⟨⟨c⟩, ⟨t⟩⟩ := by
  rw [decrypt_ideal_eq_ok hKey hNonce hTag, encrypt_ideal_eq_ok hKey hNonce]
  constructor
  · rintro ⟨a, q, hAad, hq, rfl, rfl⟩
    rw [length_mask] at hCipher
    obtain ⟨rfl, hSmall⟩ := consumed_of_not_cut hq hCipher
    refine ⟨a, _, hAad, consumed_self.mpr ?_, (mask_mask _ _ _).symm, rfl⟩
    rwa [length_mask]
  · rintro ⟨a, q, hAad, hq, rfl, rfl⟩
    rw [length_mask] at hPlain
    obtain ⟨rfl, hSmall⟩ := consumed_of_not_cut hq hPlain
    refine ⟨a, _, hAad, consumed_self.mpr ?_, rfl, (mask_mask _ _ _).symm⟩
    rwa [length_mask]

/-- Sizes that no call accepts. -/
theorem encrypt_ne_ok {p aad : Bytes} (h : toInt aad.length < 0 ∨ toInt p.length < 0)
    (c t : Bytes) : AesGcm.encrypt (.ideal G) key nonce p aad ≠ .ok ⟨⟨c⟩, ⟨t⟩⟩ := by
  intro hEncrypt
  obtain ⟨a, q, ha, hq, -⟩ := (encrypt_ideal_eq_ok hKey hNonce).mp hEncrypt
  cases h with
  | inl hAad =>
    rw [consumed_of_neg hAad] at ha
    cases ha
  | inr hPlain =>
    rw [consumed_of_neg hPlain] at hq
    cases hq

theorem decrypt_ne_ok {aad : Bytes} (hAad : toInt aad.length < 0) (p c t : Bytes)
    (hTag : t.length = AesGcm.tagSize) :
    AesGcm.decrypt (.ideal G) key nonce ⟨c⟩ ⟨t⟩ aad ≠ .ok p := by
  intro hDecrypt
  obtain ⟨a, _, ha, -⟩ := (decrypt_ideal_eq_ok hKey hNonce hTag).mp hDecrypt
  rw [consumed_of_neg hAad] at ha
  cases ha

/-- A plaintext that is cut: its ciphertext decrypts to something shorter. -/
theorem exists_encrypt_of_cut {p a aad : Bytes} {count : Nat} (hAad : consumed aad = some a)
    (hCut : Cut p.length count) :
    ∃ c t, c.length = count ∧ t.length = AesGcm.tagSize ∧
      AesGcm.encrypt (.ideal G) key nonce p aad = .ok ⟨⟨c⟩, ⟨t⟩⟩ ∧
      AesGcm.decrypt (.ideal G) key nonce ⟨c⟩ ⟨t⟩ aad ≠ .ok p := by
  have hq : consumed p = some (p.take count) := by
    apply consumed_eq_some.mpr
    rw [List.length_take, Nat.min_eq_left hCut.le]
    exact ⟨hCut.1, List.take_prefix _ _⟩
  set c := mask (G.keystream key.bytes nonce.bytes) 0 (p.take count) with hc
  have hCount : c.length = count := by
    rw [hc, length_mask, List.length_take, Nat.min_eq_left hCut.le]
  refine ⟨c, G.tag key.bytes nonce.bytes a c, hCount, G.length_tag _ _ _ _,
    (encrypt_ideal_eq_ok hKey hNonce).mpr ⟨a, _, hAad, hq, hc, rfl⟩, ?_⟩
  intro h
  obtain ⟨_, q, -, hConsumed, -, hPlain⟩ :=
    (decrypt_ideal_eq_ok hKey hNonce (G.length_tag _ _ _ _)).mp h
  rw [consumed_self.mpr (hCount ▸ hCut.lt), Option.some.injEq] at hConsumed
  have hLength := congrArg List.length hPlain
  rw [length_mask, ← hConsumed, hCount] at hLength
  exact hCut.2 hLength

/-- A ciphertext that is cut: it decrypts to a plaintext whose ciphertext is shorter. -/
theorem exists_decrypt_of_cut {p a aad : Bytes} {size : Nat} (hAad : consumed aad = some a)
    (hCut : Cut size p.length) :
    ∃ c t, c.length = size ∧ t.length = AesGcm.tagSize ∧
      AesGcm.decrypt (.ideal G) key nonce ⟨c⟩ ⟨t⟩ aad = .ok p ∧
      AesGcm.encrypt (.ideal G) key nonce p aad ≠ .ok ⟨⟨c⟩, ⟨t⟩⟩ := by
  set m := mask (G.keystream key.bytes nonce.bytes) 0 p with hm
  have hMask : m.length = p.length := length_mask _ _ _
  set c := m ++ List.replicate (size - p.length) 0 with hc
  have hSize : c.length = size := by
    have := hCut.le
    rw [hc, List.length_append, List.length_replicate, hMask]
    omega
  have hConsumed : consumed c = some m := by
    apply consumed_eq_some.mpr
    rw [hSize, hMask]
    exact ⟨hCut.1, List.prefix_append _ _⟩
  refine ⟨c, G.tag key.bytes nonce.bytes a m, hSize, G.length_tag _ _ _ _,
    (decrypt_ideal_eq_ok hKey hNonce (G.length_tag _ _ _ _)).mpr
      ⟨a, m, hAad, hConsumed, rfl, (mask_mask _ _ _).symm⟩, ?_⟩
  intro h
  obtain ⟨_, q, -, hq, hCipher, -⟩ := (encrypt_ideal_eq_ok hKey hNonce).mp h
  rw [consumed_self.mpr hCut.lt, Option.some.injEq] at hq
  have hLength := congrArg List.length hCipher
  rw [length_mask, ← hq, hSize] at hLength
  exact hCut.2 hLength

/-- The two functions agree on the ciphertexts of a size if and only if neither size is cut to
the other. -/
theorem agree_iff {p a aad : Bytes} (hAad : consumed aad = some a) (size : Nat) :
    (∀ c t : Bytes, c.length = size → t.length = AesGcm.tagSize →
        (AesGcm.decrypt (.ideal G) key nonce ⟨c⟩ ⟨t⟩ aad = .ok p ↔
          AesGcm.encrypt (.ideal G) key nonce p aad = .ok ⟨⟨c⟩, ⟨t⟩⟩)) ↔
      ¬ Cut p.length size ∧ ¬ Cut size p.length := by
  constructor
  · intro h
    constructor
    · intro hCut
      rcases exists_encrypt_of_cut hKey hNonce (G := G) hAad hCut with
        ⟨c, t, hc, ht, hEncrypt, hDecrypt⟩
      exact hDecrypt ((h c t hc ht).mpr hEncrypt)
    · intro hCut
      rcases exists_decrypt_of_cut hKey hNonce (G := G) hAad hCut with
        ⟨c, t, hc, ht, hDecrypt, hEncrypt⟩
      exact hEncrypt ((h c t hc ht).mp hDecrypt)
  · intro h c t hSize hTag
    subst hSize
    exact decrypt_iff_encrypt hKey hNonce hTag h.1 h.2

/-- A plaintext of an accepted size comes back whole if and only if it has less than `2 ^ 32`
bytes. -/
theorem whole_iff {p a q aad : Bytes} (hAad : consumed aad = some a) (hq : consumed p = some q) :
    (∀ c t : Bytes, AesGcm.encrypt (.ideal G) key nonce p aad = .ok ⟨⟨c⟩, ⟨t⟩⟩ →
        c.length = p.length ∧ AesGcm.decrypt (.ideal G) key nonce ⟨c⟩ ⟨t⟩ aad = .ok p) ↔
      p.length < 2 ^ 32 := by
  obtain ⟨hSmall, hMod⟩ := toInt_eq_natCast.mp (consumed_eq_some.mp hq).1
  constructor
  · intro h
    obtain ⟨hWhole, -⟩ := h _ _ ((encrypt_ideal_eq_ok hKey hNonce).mpr ⟨a, q, hAad, hq, rfl, rfl⟩)
    rw [length_mask] at hWhole
    omega
  · intro hShort c t hEncrypt
    obtain ⟨_, q', -, hq', hc, ht⟩ := (encrypt_ideal_eq_ok hKey hNonce).mp hEncrypt
    rw [hq, Option.some.injEq] at hq'
    have hWhole : c.length = p.length := by
      rw [hc, length_mask, ← hq', ← hMod, Nat.mod_eq_of_lt hShort]
    have hTag : t.length = AesGcm.tagSize := by
      rw [ht]
      exact G.length_tag _ _ _ _
    refine ⟨hWhole, (decrypt_iff_encrypt hKey hNonce hTag ?_ ?_).mpr hEncrypt⟩
    · exact fun hCut => hCut.2 hWhole.symm
    · exact fun hCut => hCut.2 hWhole

end Inverse

/-- A plaintext of `2 ^ 32` bytes is encrypted to the empty ciphertext, which decrypts to no
byte. -/
theorem encrypt_of_length (G : Primitive) {key nonce p : Bytes} (hKey : key.length = 32)
    (hNonce : nonce.length = 12) (hLength : p.length = 2 ^ 32) :
    AesGcm.encrypt (.ideal G) ⟨key⟩ ⟨nonce⟩ p [] = .ok ⟨⟨[]⟩, ⟨G.tag key nonce [] []⟩⟩ ∧
    AesGcm.decrypt (.ideal G) ⟨key⟩ ⟨nonce⟩ ⟨[]⟩ ⟨G.tag key nonce [] []⟩ [] ≠ .ok p := by
  have hEmpty : consumed p = some [] := by
    apply consumed_eq_some.mpr
    rw [hLength]
    exact ⟨toInt_eq_natCast.mpr ⟨by decide, by decide⟩, List.nil_prefix⟩
  refine ⟨(encrypt_ideal_eq_ok hKey hNonce).mpr ⟨[], [], rfl, hEmpty, rfl, rfl⟩, fun h => ?_⟩
  obtain ⟨_, q, -, hq, -, rfl⟩ :=
    (decrypt_ideal_eq_ok hKey hNonce (G.length_tag _ _ _ _)).mp h
  rw [consumed_nil, Option.some.injEq] at hq
  rw [length_mask, ← hq, List.length_nil] at hLength
  omega

/-- **When `decrypt` inverts `encrypt`.** For a plaintext, associated data and a size of the
ciphertext, the two functions agree on all ciphertexts of that size and all tags if and only
if the associated data are refused or neither size is cut to the other. A plaintext that is
accepted comes back whole if and only if it is shorter than `2 ^ 32` bytes. -/
theorem aes_gcm_inverse_iff (G : Primitive) (key : Key) (nonce : Nonce)
    (hKey : key.size = AesGcm.keySize) (hNonce : nonce.size = AesGcm.nonceSize) (p aad : Bytes) :
    (∀ size, (∀ c t : Bytes, c.length = size → t.length = AesGcm.tagSize →
        (AesGcm.decrypt (.ideal G) key nonce ⟨c⟩ ⟨t⟩ aad = .ok p ↔
          AesGcm.encrypt (.ideal G) key nonce p aad = .ok ⟨⟨c⟩, ⟨t⟩⟩)) ↔
      toInt aad.length < 0 ∨ ¬ Cut p.length size ∧ ¬ Cut size p.length) ∧
    ((∀ c t : Bytes, AesGcm.encrypt (.ideal G) key nonce p aad = .ok ⟨⟨c⟩, ⟨t⟩⟩ →
        c.length = p.length ∧ AesGcm.decrypt (.ideal G) key nonce ⟨c⟩ ⟨t⟩ aad = .ok p) ↔
      toInt aad.length < 0 ∨ toInt p.length < 0 ∨ p.length < 2 ^ 32) := by
  by_cases hAad : toInt aad.length < 0
  · have hFails (c t : Bytes) : AesGcm.encrypt (.ideal G) key nonce p aad ≠ .ok ⟨⟨c⟩, ⟨t⟩⟩ :=
      encrypt_ne_ok hKey hNonce (.inl hAad) c t
    refine ⟨fun size => iff_of_true (fun c t _ hTag => ?_) (.inl hAad),
      iff_of_true (fun c t h => absurd h (hFails c t)) (.inl hAad)⟩
    exact iff_of_false (decrypt_ne_ok hKey hNonce hAad p c t hTag) (hFails c t)
  rcases exists_consumed hAad with ⟨a, ha⟩
  refine ⟨fun size => ?_, ?_⟩
  · rw [agree_iff hKey hNonce ha, or_iff_right hAad]
  rw [or_iff_right hAad]
  by_cases hPlain : toInt p.length < 0
  · exact iff_of_true (fun c t h => absurd h (encrypt_ne_ok hKey hNonce (.inr hPlain) c t))
      (.inl hPlain)
  · rcases exists_consumed hPlain with ⟨q, hq⟩
    rw [whole_iff hKey hNonce ha hq, or_iff_right hPlain]

/-- One block of zeros under AES, with a key and a nonce of zeros. -/
theorem aes_gcm_inverse_iff_block :
    AesGcm.encrypt (.ideal aesGcm) ⟨List.replicate 32 0⟩ ⟨List.replicate 12 0⟩
        (List.replicate 16 0) [] =
      .ok ⟨⟨[0xce, 0xa7, 0x40, 0x3d, 0x4d, 0x60, 0x6b, 0x6e, 0x07, 0x4e, 0xc5, 0xd3, 0xba, 0xf3,
          0x9d, 0x18]⟩,
        ⟨[0xd0, 0xd1, 0xc8, 0xa7, 0x99, 0x99, 0x6b, 0xf0, 0x26, 0x5b, 0x98, 0xb5, 0xd4, 0x8a,
          0xb9, 0x19]⟩⟩ ∧
    AesGcm.decrypt (.ideal aesGcm) ⟨List.replicate 32 0⟩ ⟨List.replicate 12 0⟩
        ⟨[0xce, 0xa7, 0x40, 0x3d, 0x4d, 0x60, 0x6b, 0x6e, 0x07, 0x4e, 0xc5, 0xd3, 0xba, 0xf3,
          0x9d, 0x18]⟩
        ⟨[0xd0, 0xd1, 0xc8, 0xa7, 0x99, 0x99, 0x6b, 0xf0, 0x26, 0x5b, 0x98, 0xb5, 0xd4, 0x8a,
          0xb9, 0x19]⟩ [] =
      .ok (List.replicate 16 0) := by
  have hKey : (⟨List.replicate 32 0⟩ : Key).size = AesGcm.keySize := rfl
  have hNonce : (⟨List.replicate 12 0⟩ : Nonce).size = AesGcm.nonceSize := rfl
  have hConsumed : consumed (List.replicate 16 0) = some (List.replicate 16 0) :=
    consumed_self.mpr (by decide)
  have hCipher : mask (aesGcm.keystream (Key.mk (List.replicate 32 0)).bytes
      (Nonce.mk (List.replicate 12 0)).bytes) 0 (List.replicate 16 0) =
      [0xce, 0xa7, 0x40, 0x3d, 0x4d, 0x60, 0x6b, 0x6e, 0x07, 0x4e, 0xc5, 0xd3, 0xba, 0xf3, 0x9d,
        0x18] := by
    decide +kernel
  have hTag : aesGcm.tag (Key.mk (List.replicate 32 0)).bytes
      (Nonce.mk (List.replicate 12 0)).bytes [] [0xce, 0xa7, 0x40, 0x3d,
      0x4d, 0x60, 0x6b, 0x6e, 0x07, 0x4e, 0xc5, 0xd3, 0xba, 0xf3, 0x9d, 0x18] =
      [0xd0, 0xd1, 0xc8, 0xa7, 0x99, 0x99, 0x6b, 0xf0, 0x26, 0x5b, 0x98, 0xb5, 0xd4, 0x8a, 0xb9,
        0x19] := by
    decide +kernel
  have hEncrypt := (encrypt_ideal_eq_ok hKey hNonce).mpr
    ⟨[], _, consumed_nil, hConsumed, hCipher.symm, hTag.symm⟩
  have hShort : (List.replicate 16 (0 : UInt8)).length < 2 ^ 32 := by decide
  exact ⟨hEncrypt, ((aes_gcm_inverse_iff aesGcm _ _ hKey hNonce _ _).2.mpr (.inr (.inr hShort)) _ _
    hEncrypt).2⟩

/-- `2 ^ 32` bytes are encrypted to the empty ciphertext, which decrypts to no byte. -/
theorem not_aes_gcm_inverse :
    AesGcm.encrypt (.ideal aesGcm) ⟨List.replicate 32 0⟩ ⟨List.replicate 12 0⟩
        (List.replicate (2 ^ 32) 0) [] =
      .ok ⟨⟨[]⟩, ⟨aesGcm.tag (List.replicate 32 0) (List.replicate 12 0) [] []⟩⟩ ∧
    AesGcm.decrypt (.ideal aesGcm) ⟨List.replicate 32 0⟩ ⟨List.replicate 12 0⟩ ⟨[]⟩
        ⟨aesGcm.tag (List.replicate 32 0) (List.replicate 12 0) [] []⟩ [] ≠
      .ok (List.replicate (2 ^ 32) 0) :=
  encrypt_of_length aesGcm List.length_replicate List.length_replicate List.length_replicate

end IndicCrypt.Crypto
