import IndicCrypt.Fpe.Round
import IndicCrypt.Library.Feistel

/-!
# FF1

`Ff1::encrypt` and `Ff1::decrypt` as loops over ten rounds. For a block function the rounds
form an alternating Feistel network on the halves of a message (`network`), and the two
loops compute it and its inverse (`encryptLoop_eq`, `decryptLoop_eq`).

`ff1_permutation` is the result for messages of one length: encryption is a permutation of
the format domain and decryption is its inverse. `ff1_returns_iff` says when the two
functions return at all, so no check inside the rounds can fire on the inputs named there.
-/

namespace IndicCrypt.Fpe

open Positional Run Crypto

namespace Ff1

def validate (parameters : FpeParameters) (input : List Nat) : Result Unit := do
  parameters.validateLength input.length
  parameters.domain.radix.validate input

/-- The body of the encryption loop, on the halves `(a, b)`. -/
def encryptStep (evp : Evp) (parameters : FpeParameters) (n : Nat) (state : List Nat × List Nat)
    (round : Nat) : Result (List Nat × List Nat) := do
  let (a, b) := state
  let c ← Ff1Round.encrypt evp parameters a b round
  throwIf (c = []) (.logicError "FF1 round produced an empty half")
  let a := b
  let b := c
  throwIf (a.length + b.length ≠ n) (.logicError "FF1 round changed message length")
  return (a, b)

def encrypt (evp : Evp) (parameters : FpeParameters) (plaintext : List Nat) :
    Result (List Nat) := do
  validate parameters plaintext
  let n := plaintext.length
  let u := n / 2
  let (a, b) ← (List.range 10).foldlM (encryptStep evp parameters n)
    (plaintext.take u, plaintext.drop u)
  let ciphertext := a ++ b
  throwIf (ciphertext.length ≠ n) (.logicError "FF1 encryption changed message length")
  return ciphertext

/-- The body of the decryption loop. -/
def decryptStep (evp : Evp) (parameters : FpeParameters) (n : Nat) (state : List Nat × List Nat)
    (round : Nat) : Result (List Nat × List Nat) := do
  let (a, b) := state
  let previousA ← Ff1Round.decrypt evp parameters b a round
  throwIf (previousA = []) (.logicError "FF1 decryption round produced an empty half")
  let b := a
  let a := previousA
  throwIf (a.length + b.length ≠ n) (.logicError "FF1 decryption changed message length")
  return (a, b)

def decrypt (evp : Evp) (parameters : FpeParameters) (ciphertext : List Nat) :
    Result (List Nat) := do
  validate parameters ciphertext
  let n := ciphertext.length
  let u := n / 2
  let (a, b) ← (List.range 10).reverse.foldlM (decryptStep evp parameters n)
    (ciphertext.take u, ciphertext.drop u)
  let plaintext := a ++ b
  throwIf (plaintext.length ≠ n) (.logicError "FF1 decryption changed message length")
  return plaintext

end Ff1

/-! ## The network of the rounds -/

/-- The two lengths of consecutive rounds make up the message. -/
theorem expectedBLength_add_succ (n i : Nat) :
    Ff1QBlock.expectedBLength n i + Ff1QBlock.expectedBLength n (i + 1) = n := by
  unfold Ff1QBlock.expectedBLength
  dsimp only
  split <;> split <;> omega

/-- The halves of a message of `n` digits before round `i`. -/
structure Halves (radix : FpeRadix) (n i : Nat) (a b : List Nat) : Prop where
  left : Digits radix.value a
  right : Digits radix.value b
  total : a.length + b.length = n
  right_length : b.length = Ff1QBlock.expectedBLength n i

theorem Halves.next {radix : FpeRadix} {n i : Nat} {a b c : List Nat} (h : Halves radix n i a b)
    (hDigits : Digits radix.value c) (hLength : c.length = a.length) :
    Halves radix n (i + 1) b c := by
  have hSum := expectedBLength_add_succ n i
  have hTotal := h.total
  have hRight := h.right_length
  exact ⟨h.right, hDigits, by omega, by omega⟩

theorem Halves.previous {radix : FpeRadix} {n i : Nat} {a b c : List Nat}
    (h : Halves radix n (i + 1) b c) (hDigits : Digits radix.value a)
    (hLength : a.length = c.length) : Halves radix n i a b := by
  have hSum := expectedBLength_add_succ n i
  have hTotal := h.total
  have hRight := h.right_length
  exact ⟨hDigits, h.left, by omega, by omega⟩

theorem Halves.accepts {radix : FpeRadix} {n i : Nat} {a b : List Nat} (h : Halves radix n i a b)
    (hLow : 2 ≤ n) (hHigh : n ≤ 4096) (hRound : i < 10) : Ff1Round.Accepts radix a b i := by
  refine ⟨h.left, ?_⟩
  rw [h.total]
  exact ⟨hLow, hHigh, hRound, h.right_length, h.right⟩

/-- The Feistel network of FF1 on messages of `n` digits. -/
def network (E : BlockFunction) (parameters : FpeParameters) (n : Nat) :
    Feistel.Network (List Nat) where
  Valid i a b := Halves parameters.domain.radix n i a b
  mask i a b := addMod parameters.domain.radix.value a
    (Ff1Round.roundMask E parameters a.length b i)
  unmask i c b := subMod parameters.domain.radix.value c
    (Ff1Round.roundMask E parameters c.length b i)
  mask_valid h := h.next (digits_addMod parameters.domain.radix.pos _ _) (length_addMod _ _)
  unmask_valid h := h.previous (digits_subMod parameters.domain.radix.pos _ _) (length_subMod _ _)
  unmask_mask h := by
    rw [length_addMod]
    exact subMod_addMod h.left parameters.domain.radix.pos _
  mask_unmask h := by
    rw [length_subMod]
    exact addMod_subMod h.right parameters.domain.radix.pos _

/-! ## The loops -/

section Loops

variable {evp : Evp} {E : BlockFunction} {parameters : FpeParameters} {n : Nat}
  (hE : AesBlock.Computes evp E) (hKey : AesBlock.ValidKeySize parameters.key.size)
  (hRadix : parameters.domain.radix.value ≤ 65536) (hLow : 2 ≤ n) (hHigh : n ≤ 4096)
include hE hKey hRadix hLow hHigh

/-- One pass of the encryption loop is one round of the network. -/
theorem encryptStep_eq {i : Nat} (hi : i < 10) (s : (network E parameters n).State i) :
    Ff1.encryptStep evp parameters n s.1 i = .ok ((network E parameters n).round i s).1 := by
  obtain ⟨⟨a, b⟩, hHalves⟩ := s
  have hAccepts := Halves.accepts hHalves hLow hHigh hi
  have hNext := (network E parameters n).mask_valid hHalves
  have hNonempty : (network E parameters n).mask i a b ≠ [] := by
    apply List.length_pos_iff.mp
    rw [show ((network E parameters n).mask i a b).length = a.length from length_addMod _ _]
    exact hAccepts.length_pos
  have hRound : Ff1Round.encrypt evp parameters a b i =
      .ok ((network E parameters n).mask i a b) := Ff1Round.encrypt_eq hE hKey hRadix hAccepts
  rw [Feistel.Network.round_val]
  unfold Ff1.encryptStep
  simp only [hRound, ok_bind]
  rw [throwIf_of_not hNonempty, ok_bind, throwIf_of_not (not_not_intro (Halves.total hNext)), ok_bind]
  rfl

/-- One pass of the decryption loop undoes one round of the network. -/
theorem decryptStep_eq {i : Nat} (hi : i < 10) (t : (network E parameters n).State (i + 1)) :
    Ff1.decryptStep evp parameters n t.1 i =
      .ok (((network E parameters n).round i).symm t).1 := by
  obtain ⟨⟨b, c⟩, hHalves⟩ := t
  have hPrevious := (network E parameters n).unmask_valid hHalves
  have hLength : ((network E parameters n).unmask i c b).length = c.length := length_subMod _ _
  have hAccepts : Ff1Round.Accepts parameters.domain.radix c b i :=
    (Halves.accepts hPrevious hLow hHigh hi).left (Halves.right hHalves) hLength.symm
  have hNonempty : (network E parameters n).unmask i c b ≠ [] := by
    apply List.length_pos_iff.mp
    rw [hLength]
    exact hAccepts.length_pos
  have hRound : Ff1Round.decrypt evp parameters c b i =
      .ok ((network E parameters n).unmask i c b) := Ff1Round.decrypt_eq hE hKey hRadix hAccepts
  rw [Feistel.Network.round_symm_val]
  unfold Ff1.decryptStep
  simp only [hRound, ok_bind]
  rw [throwIf_of_not hNonempty, ok_bind, throwIf_of_not (not_not_intro (Halves.total hPrevious)),
    ok_bind]
  rfl

theorem encryptLoop_eq (s : (network E parameters n).State 0) :
    (List.range 10).foldlM (Ff1.encryptStep evp parameters n) s.1 =
      .ok ((network E parameters n).rounds 10 s).1 :=
  Feistel.Network.foldlM_rounds _
    (fun _ hi s => encryptStep_eq hE hKey hRadix hLow hHigh hi s) s

theorem decryptLoop_eq (t : (network E parameters n).State 10) :
    (List.range 10).reverse.foldlM (Ff1.decryptStep evp parameters n) t.1 =
      .ok (((network E parameters n).rounds 10).symm t).1 :=
  Feistel.Network.foldlM_rounds_symm _
    (fun _ hi t => decryptStep_eq hE hKey hRadix hLow hHigh hi t) t

end Loops

/-! ## The format domain -/

/-- The messages of one format: `n` digits below the radix. -/
abbrev FormatDomain (radix : FpeRadix) (n : Nat) : Type :=
  {X : List Nat // X.length = n ∧ Digits radix.value X}

/-- A message is its two halves, before every even round. -/
def split (E : BlockFunction) (parameters : FpeParameters) (n : Nat) {i : Nat} (hEven : i % 2 = 0) :
    FormatDomain parameters.domain.radix n ≃ (network E parameters n).State i where
  toFun X := ⟨(X.1.take (n / 2), X.1.drop (n / 2)), by
    have hLength := X.2.1
    refine ⟨X.2.2.take _, X.2.2.drop _, ?_, ?_⟩
    · simp only [List.length_take, List.length_drop]
      omega
    · simp only [List.length_drop, Ff1QBlock.expectedBLength, hEven, if_true]
      omega⟩
  invFun s := ⟨s.1.1 ++ s.1.2, by
    rw [List.length_append]
    exact Halves.total s.2, digits_append.mpr ⟨Halves.left s.2, Halves.right s.2⟩⟩
  left_inv X := Subtype.ext (List.take_append_drop _ _)
  right_inv s := by
    obtain ⟨⟨a, b⟩, hHalves⟩ := s
    have hTotal := Halves.total hHalves
    have hRight := Halves.right_length hHalves
    have hLeft : a.length = n / 2 := by
      simp only [Ff1QBlock.expectedBLength, hEven, if_true] at hRight hTotal
      omega
    apply Subtype.ext
    simp only [← hLeft, List.take_left, List.drop_left]

theorem validate_of_formatDomain {parameters : FpeParameters} {n : Nat} (hLow : 2 ≤ n)
    (hHigh : n ≤ 4096) (X : FormatDomain parameters.domain.radix n) :
    Ff1.validate parameters X.1 = .ok () := by
  have hLength := X.2.1
  rw [Ff1.validate, FpeParameters.validateLength_of (by omega), ok_bind,
    FpeRadix.validate_of_digits X.2.2]

/-- The permutation of the messages that the network is. -/
def permutation (E : BlockFunction) (parameters : FpeParameters) (n : Nat) :
    Equiv.Perm (FormatDomain parameters.domain.radix n) :=
  (split E parameters n (i := 0) rfl).trans
    (((network E parameters n).rounds 10).trans (split E parameters n (i := 10) rfl).symm)

section Permutation

variable {evp : Evp} {E : BlockFunction} {parameters : FpeParameters} {n : Nat}
  (hE : AesBlock.Computes evp E) (hKey : AesBlock.ValidKeySize parameters.key.size)
  (hRadix : parameters.domain.radix.value ≤ 65536) (hLow : 2 ≤ n) (hHigh : n ≤ 4096)
include hE hKey hRadix hLow hHigh

theorem encrypt_eq_permutation (X : FormatDomain parameters.domain.radix n) :
    Ff1.encrypt evp parameters X.1 = .ok (permutation E parameters n X).1 := by
  have hLoop := encryptLoop_eq hE hKey hRadix hLow hHigh (split E parameters n (i := 0) rfl X)
  have hLength := (permutation E parameters n X).2.1
  unfold Ff1.encrypt
  rw [validate_of_formatDomain hLow hHigh X, ok_bind]
  simp only [X.2.1]
  rw [show (X.1.take (n / 2), X.1.drop (n / 2)) = (split E parameters n (i := 0) rfl X).1 from rfl,
    hLoop, ok_bind]
  exact (throwIf_bind_eq_ok (f := fun _ => pure _)).mpr ⟨not_not_intro hLength, rfl⟩

theorem decrypt_eq_permutation (X : FormatDomain parameters.domain.radix n) :
    Ff1.decrypt evp parameters X.1 = .ok ((permutation E parameters n).symm X).1 := by
  have hLoop := decryptLoop_eq hE hKey hRadix hLow hHigh (split E parameters n (i := 10) rfl X)
  have hLength := ((permutation E parameters n).symm X).2.1
  unfold Ff1.decrypt
  rw [validate_of_formatDomain hLow hHigh X, ok_bind]
  simp only [X.2.1]
  rw [show (X.1.take (n / 2), X.1.drop (n / 2)) = (split E parameters n (i := 10) rfl X).1 from rfl,
    hLoop, ok_bind]
  exact (throwIf_bind_eq_ok (f := fun _ => pure _)).mpr ⟨not_not_intro hLength, rfl⟩

end Permutation

/-- **FF1 is a permutation.** For every block cipher interface that succeeds, encryption
permutes the messages of a format and decryption is the inverse permutation. -/
theorem ff1_permutation {evp : Evp} (hTotal : AesBlock.Total evp) {parameters : FpeParameters}
    (hRadix : parameters.domain.radix.value ≤ 65536)
    (hKey : AesBlock.ValidKeySize parameters.key.size) {n : Nat} (hLow : 2 ≤ n)
    (hHigh : n ≤ 4096) :
    ∃ π : Equiv.Perm (FormatDomain parameters.domain.radix n),
      ∀ X, Ff1.encrypt evp parameters X.1 = .ok (π X).1 ∧
        Ff1.decrypt evp parameters X.1 = .ok (π.symm X).1 := by
  obtain ⟨E, hE⟩ := hTotal.exists_computes
  exact ⟨permutation E parameters n, fun X =>
    ⟨encrypt_eq_permutation hE hKey hRadix hLow hHigh X,
      decrypt_eq_permutation hE hKey hRadix hLow hHigh X⟩⟩

/-- Ten decimal digits under AES: what encryption returns, decryption takes back. -/
theorem ff1_permutation_decimal :
    ∃ Y, Ff1.encrypt (Evp.ofFunction aes) decimalParameters [0, 1, 2, 3, 4, 5, 6, 7, 8, 9] = .ok Y ∧
      Ff1.decrypt (Evp.ofFunction aes) decimalParameters Y = .ok [0, 1, 2, 3, 4, 5, 6, 7, 8, 9] := by
  have hLow : 2 ≤ 10 := by omega
  obtain ⟨π, hPerm⟩ := ff1_permutation (AesBlock.computes_ofFunction aes).total
    decimalDomain_radix_le decimalParameters_keySize hLow (by omega)
  have hDecrypt := (hPerm (π ⟨[0, 1, 2, 3, 4, 5, 6, 7, 8, 9], by decide, by decide⟩)).2
  rw [Equiv.symm_apply_apply] at hDecrypt
  exact ⟨_, (hPerm ⟨[0, 1, 2, 3, 4, 5, 6, 7, 8, 9], by decide, by decide⟩).1, hDecrypt⟩

/-- The known answer of the interoperability test. -/
example : Ff1.encrypt (Evp.ofFunction aes) decimalParameters [0, 1, 2, 3, 4, 5, 6, 7, 8, 9] =
    .ok [2, 4, 3, 3, 4, 7, 7, 4, 8, 4] := by
  decide +kernel

/-! ## When the functions return -/

theorem validate_eq_ok {parameters : FpeParameters} {input : List Nat} {u : Unit}
    (h : Ff1.validate parameters input = .ok u) :
    (2 ≤ input.length ∧ input.length ≤ 4096) ∧ Digits parameters.domain.radix.value input := by
  obtain ⟨_, hLength, hDigits⟩ := bind_eq_ok.mp h
  exact ⟨FpeParameters.validateLength_eq_ok.mp hLength, FpeRadix.validate_eq_ok.mp hDigits⟩

/-- A round whose key or radix is bad stops the encryption loop. -/
theorem valid_of_encryptStep {evp : Evp} {parameters : FpeParameters} {n round : Nat}
    {state : List Nat × List Nat} (h : IsOk (Ff1.encryptStep evp parameters n state round)) :
    AesBlock.ValidKeySize parameters.key.size ∧ parameters.domain.radix.value ≤ 65536 := by
  obtain ⟨c, hRound, -⟩ := isOk_bind.mp h
  exact Ff1Round.valid_of_isOk ⟨c, hRound⟩

theorem valid_of_decryptStep {evp : Evp} {parameters : FpeParameters} {n round : Nat}
    {state : List Nat × List Nat} (h : IsOk (Ff1.decryptStep evp parameters n state round)) :
    AesBlock.ValidKeySize parameters.key.size ∧ parameters.domain.radix.value ≤ 65536 := by
  obtain ⟨c, hRound, -⟩ := isOk_bind.mp h
  exact Ff1Round.valid_of_isOk ⟨c, hRound⟩

/-- The messages that FF1 takes, under the keys and radices that it takes. -/
structure Takes (parameters : FpeParameters) (X : List Nat) : Prop where
  low : 2 ≤ X.length
  high : X.length ≤ 4096
  digits : Digits parameters.domain.radix.value X
  key : AesBlock.ValidKeySize parameters.key.size
  radix : parameters.domain.radix.value ≤ 65536

section Takes

variable {evp : Evp} {parameters : FpeParameters} {X Y : List Nat}

theorem takes_of_encrypt (h : IsOk (Ff1.encrypt evp parameters X)) : Takes parameters X := by
  obtain ⟨_, hValidate, h⟩ := isOk_bind.mp h
  obtain ⟨⟨hLow, hHigh⟩, hDigits⟩ := validate_eq_ok hValidate
  obtain ⟨state, hLoop, -⟩ := isOk_bind.mp h
  rw [List.range_succ_eq_map, List.foldlM_cons] at hLoop
  obtain ⟨next, hStep, -⟩ := bind_eq_ok.mp hLoop
  obtain ⟨hKey, hRadix⟩ := valid_of_encryptStep ⟨next, hStep⟩
  exact ⟨hLow, hHigh, hDigits, hKey, hRadix⟩

theorem takes_of_decrypt (h : IsOk (Ff1.decrypt evp parameters X)) : Takes parameters X := by
  obtain ⟨_, hValidate, h⟩ := isOk_bind.mp h
  obtain ⟨⟨hLow, hHigh⟩, hDigits⟩ := validate_eq_ok hValidate
  obtain ⟨state, hLoop, -⟩ := isOk_bind.mp h
  rw [List.range_succ, List.reverse_append, List.reverse_singleton, List.singleton_append,
    List.foldlM_cons] at hLoop
  obtain ⟨next, hStep, -⟩ := bind_eq_ok.mp hLoop
  obtain ⟨hKey, hRadix⟩ := valid_of_decryptStep ⟨next, hStep⟩
  exact ⟨hLow, hHigh, hDigits, hKey, hRadix⟩

/-- FF1 on digits, in both directions. -/
theorem Takes.encrypt_eq_ok {E : BlockFunction} (hE : AesBlock.Computes evp E)
    (h : Takes parameters X) : ∃ Y, Ff1.encrypt evp parameters X = .ok Y ∧
      Ff1.decrypt evp parameters Y = .ok X ∧ Y.length = X.length ∧
      Digits parameters.domain.radix.value Y := by
  have hEncrypt := encrypt_eq_permutation hE h.key h.radix h.low h.high ⟨X, rfl, h.digits⟩
  have hDecrypt := decrypt_eq_permutation hE h.key h.radix h.low h.high
    (permutation E parameters X.length ⟨X, rfl, h.digits⟩)
  rw [Equiv.symm_apply_apply] at hDecrypt
  exact ⟨_, hEncrypt, hDecrypt, (permutation E parameters X.length _).2⟩

theorem Takes.decrypt_eq_ok {E : BlockFunction} (hE : AesBlock.Computes evp E)
    (h : Takes parameters Y) : ∃ X, Ff1.decrypt evp parameters Y = .ok X ∧
      Ff1.encrypt evp parameters X = .ok Y := by
  have hDecrypt := decrypt_eq_permutation hE h.key h.radix h.low h.high ⟨Y, rfl, h.digits⟩
  have hEncrypt := encrypt_eq_permutation hE h.key h.radix h.low h.high
    ((permutation E parameters Y.length).symm ⟨Y, rfl, h.digits⟩)
  rw [Equiv.apply_symm_apply] at hEncrypt
  exact ⟨_, hDecrypt, hEncrypt⟩

end Takes

/-- **When FF1 returns.** With a total block cipher interface, both directions return
exactly on messages of 2 to 4096 digits below the radix, under a key of 16, 24 or 32 bytes
and a radix of at most 65536. -/
theorem ff1_returns_iff {evp : Evp} (hTotal : AesBlock.Total evp) (parameters : FpeParameters)
    (X : List Nat) :
    (IsOk (Ff1.encrypt evp parameters X) ↔
      2 ≤ X.length ∧ X.length ≤ 4096 ∧ Digits parameters.domain.radix.value X ∧
        AesBlock.ValidKeySize parameters.key.size ∧ parameters.domain.radix.value ≤ 65536) ∧
    (IsOk (Ff1.decrypt evp parameters X) ↔
      2 ≤ X.length ∧ X.length ≤ 4096 ∧ Digits parameters.domain.radix.value X ∧
        AesBlock.ValidKeySize parameters.key.size ∧ parameters.domain.radix.value ≤ 65536) := by
  obtain ⟨E, hE⟩ := hTotal.exists_computes
  refine ⟨⟨?_, ?_⟩, ⟨?_, ?_⟩⟩
  · intro h
    obtain ⟨hLow, hHigh, hDigits, hKey, hRadix⟩ := takes_of_encrypt h
    exact ⟨hLow, hHigh, hDigits, hKey, hRadix⟩
  · rintro ⟨hLow, hHigh, hDigits, hKey, hRadix⟩
    obtain ⟨Y, hEncrypt, -⟩ := Takes.encrypt_eq_ok hE ⟨hLow, hHigh, hDigits, hKey, hRadix⟩
    exact ⟨Y, hEncrypt⟩
  · intro h
    obtain ⟨hLow, hHigh, hDigits, hKey, hRadix⟩ := takes_of_decrypt h
    exact ⟨hLow, hHigh, hDigits, hKey, hRadix⟩
  · rintro ⟨hLow, hHigh, hDigits, hKey, hRadix⟩
    obtain ⟨Y, hDecrypt, -⟩ := Takes.decrypt_eq_ok hE ⟨hLow, hHigh, hDigits, hKey, hRadix⟩
    exact ⟨Y, hDecrypt⟩

/-- Under AES, five decimal digits are encrypted and a single one is not. -/
theorem ff1_returns_iff_decimal :
    IsOk (Ff1.encrypt (Evp.ofFunction aes) decimalParameters [0, 1, 2, 3, 4]) ∧
      ¬ IsOk (Ff1.decrypt (Evp.ofFunction aes) decimalParameters [0]) := by
  have hTotal := (AesBlock.computes_ofFunction aes).total
  refine ⟨(ff1_returns_iff hTotal decimalParameters [0, 1, 2, 3, 4]).1.mpr (by decide), ?_⟩
  intro h
  have hShort := (ff1_returns_iff hTotal decimalParameters [0]).2.mp h
  exact absurd hShort.1 (by decide)

end IndicCrypt.Fpe
