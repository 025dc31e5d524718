import IndicCrypt.Crypto.KeyLifecycle
import IndicCrypt.Fpe.Faults

/-!
# Parameters that point to a key

`FpeParameters` keeps a pointer to its key. What FF1 computes depends on the bytes that the
object has when it is called, and the moves of keys change them. A `Binding` is the parameters as
they are stored, and `Operation.trace` says where the bytes of an object go.

A ciphertext can be decrypted through the object that the bytes have come to, after any run of
operations on keys; through an object that was moved from, FF1 refuses the key
(`ciphertext_follows_key`).
-/

namespace IndicCrypt.Crypto.KeyLifecycle

open Run

variable {Object : Type} [DecidableEq Object]

/-- The object that has the bytes of `key` after an operation, unless they are overwritten. -/
def Operation.trace (operation : Operation Object) (key : Object) : Option Object :=
  match operation with
  | .construct _ _ _ => some key
  | .moveConstruct target source => if source = key then some target else some key
  | .moveAssign target source =>
    if target = source then some key
    else if source = key then some target
    else if target = key then none
    else some key
  | .destroy target => if target = key then none else some key

/-- The same after a run. -/
def trace (operations : List (Operation Object)) (key : Object) : Option Object :=
  operations.foldlM (fun key operation => operation.trace key) key

/-- One operation takes the bytes where the trace says. -/
theorem store_trace {store store' : Store Object} {operation : Operation Object} {key key' : Object}
    {bytes : Bytes} (hStep : store.step operation = some store') (hKey : store key = some bytes)
    (hTrace : operation.trace key = some key') : store' key' = some bytes := by
  cases operation with
  | construct target bytes' slack =>
    cases hTrace
    cases hTarget : store target with
    | some _ => simp only [Store.step, hTarget, reduceCtorEq] at hStep
    | none =>
      simp only [Store.step, hTarget, Option.some.injEq] at hStep
      have hNe : key ≠ target := by
        rintro rfl
        cases hKey.symm.trans hTarget
      rw [← hStep, Function.update_of_ne hNe, hKey]
  | moveConstruct target source =>
    cases hTarget : store target with
    | some _ => simp only [Store.step, hTarget, reduceCtorEq] at hStep
    | none =>
      cases hSource : store source with
      | none => simp only [Store.step, hTarget, hSource, reduceCtorEq] at hStep
      | some moved =>
        simp only [Store.step, hTarget, hSource, Option.some.injEq] at hStep
        simp only [Operation.trace] at hTrace
        have hNe : key ≠ target := by
          rintro rfl
          cases hKey.symm.trans hTarget
        split at hTrace
        next hSame =>
          cases hTrace
          rw [← hStep, Function.update_self, ← hSource, hSame, hKey]
        next hOther =>
          cases hTrace
          rw [← hStep, Function.update_of_ne hNe, Function.update_of_ne (Ne.symm hOther), hKey]
  | moveAssign target source =>
    cases hTarget : store target with
    | none => simp only [Store.step, hTarget, reduceCtorEq] at hStep
    | some _ =>
      cases hSource : store source with
      | none => simp only [Store.step, hTarget, hSource, reduceCtorEq] at hStep
      | some moved =>
        simp only [Store.step, hTarget, hSource] at hStep
        simp only [Operation.trace] at hTrace
        split_ifs at hStep hTrace with hSelf hFrom hInto
        · cases hStep
          cases hTrace
          exact hKey
        · cases hStep
          cases hTrace
          rw [Function.update_of_ne hSelf, Function.update_self, ← hSource, hFrom, hKey]
        · cases hStep
          cases hTrace
          rw [Function.update_of_ne (Ne.symm hFrom), Function.update_of_ne (Ne.symm hInto), hKey]
  | destroy target =>
    cases hTarget : store target with
    | none => simp only [Store.step, hTarget, reduceCtorEq] at hStep
    | some _ =>
      simp only [Store.step, hTarget, Option.some.injEq] at hStep
      simp only [Operation.trace] at hTrace
      split at hTrace
      next => cases hTrace
      next hOther =>
        cases hTrace
        rw [← hStep, Function.update_of_ne (Ne.symm hOther), hKey]

/-- So does a run. -/
theorem store_trace_run {store store' : Store Object} {operations : List (Operation Object)}
    {key key' : Object} {bytes : Bytes} (hRun : store.run operations = some store')
    (hKey : store key = some bytes) (hTrace : trace operations key = some key') :
    store' key' = some bytes := by
  induction operations generalizing store key with
  | nil =>
    cases hRun
    cases hTrace
    exact hKey
  | cons operation operations ih =>
    rw [Store.run, List.foldlM_cons, Option.bind_eq_bind, Option.bind_eq_some_iff] at hRun
    rw [trace, List.foldlM_cons, Option.bind_eq_bind, Option.bind_eq_some_iff] at hTrace
    obtain ⟨next, hStep, hRest⟩ := hRun
    obtain ⟨moved, hMoved, hRestTrace⟩ := hTrace
    exact ih hRest (store_trace hStep hKey hMoved) hRestTrace

end IndicCrypt.Crypto.KeyLifecycle

namespace IndicCrypt.Fpe

open Positional Run Crypto Crypto.KeyLifecycle

variable {Object : Type}

/-- `FpeParameters` with the object that its key pointer points to. -/
structure Binding (Object : Type) where
  domain : FpeDomain
  key : Object
  tweak : Bytes
  tweak_le : tweak.length ≤ 64

namespace Binding

/-- The parameters that FF1 reads, if the object is alive. -/
def parameters (binding : Binding Object) (memory : Memory Object) : Option FpeParameters :=
  (memory.store binding.key).map fun bytes =>
    ⟨binding.domain, ⟨bytes⟩, binding.tweak, binding.tweak_le⟩

def encrypt (evp : Evp) (binding : Binding Object) (memory : Memory Object) (X : List Nat) :
    Option (Result (List Nat)) :=
  (binding.parameters memory).map fun parameters => Ff1.encrypt evp parameters X

def decrypt (evp : Evp) (binding : Binding Object) (memory : Memory Object) (Y : List Nat) :
    Option (Result (List Nat)) :=
  (binding.parameters memory).map fun parameters => Ff1.decrypt evp parameters Y

/-- The same parameters for the key of another object. -/
def onKey (binding : Binding Object) (key : Object) : Binding Object := { binding with key := key }

variable {evp : Evp} {binding : Binding Object} {memory : Memory Object} {X : List Nat}
  {result : Result (List Nat)}

theorem encrypt_eq_some : binding.encrypt evp memory X = some result ↔
    ∃ bytes, memory.store binding.key = some bytes ∧
      Ff1.encrypt evp ⟨binding.domain, ⟨bytes⟩, binding.tweak, binding.tweak_le⟩ X = result := by
  rw [encrypt, parameters, Option.map_map, Option.map_eq_some_iff]
  rfl

theorem decrypt_eq_some : binding.decrypt evp memory X = some result ↔
    ∃ bytes, memory.store binding.key = some bytes ∧
      Ff1.decrypt evp ⟨binding.domain, ⟨bytes⟩, binding.tweak, binding.tweak_le⟩ X = result := by
  rw [decrypt, parameters, Option.map_map, Option.map_eq_some_iff]
  rfl

end Binding

/-- A message that FF1 takes, under a key that it does not take. -/
theorem decrypt_eq_error_of_key {evp : Evp} {parameters : FpeParameters} {Y : List Nat}
    (hLow : 2 ≤ Y.length) (hHigh : Y.length ≤ 4096)
    (hDigits : Digits parameters.domain.radix.value Y)
    (hRadix : parameters.domain.radix.value ≤ 65536)
    (hKey : ¬ AesBlock.ValidKeySize parameters.key.size) : Ff1.decrypt evp parameters Y =
      .error (.invalidArgument "FF1 PRF requires a 16, 24, or 32-byte AES key") :=
  (ff1_eq_error hLow hHigh hDigits fun _ _ _ hAccepts =>
    (computeY_eq_error (by omega) hAccepts).2 hRadix hKey).2

/-- **Ciphertexts follow the key.** What was encrypted through a binding is decrypted, after any
operations on keys, through the object to which they took the bytes of the key. Through an object
that was moved from, decryption throws. -/
theorem ciphertext_follows_key [DecidableEq Object] {evp : Evp} (hTotal : AesBlock.Total evp)
    {before between : List (Operation Object)} {memory memory' : Memory Object}
    (hBefore : run empty before = some memory) (hBetween : run memory between = some memory')
    {binding : Binding Object} {X Y : List Nat}
    (hEncrypt : binding.encrypt evp memory X = some (.ok Y)) (key : Object) :
    (trace between binding.key = some key →
      (binding.onKey key).decrypt evp memory' Y = some (.ok X)) ∧
    (memory'.store key = some [] → (binding.onKey key).decrypt evp memory' Y =
      some (.error (.invalidArgument "FF1 PRF requires a 16, 24, or 32-byte AES key"))) := by
  obtain ⟨E, hE⟩ := hTotal.exists_computes
  obtain ⟨bytes, hBytes, hFf1⟩ := Binding.encrypt_eq_some.mp hEncrypt
  have hOwned := (run_spec owned_empty before).2 memory hBefore
  have hStore : memory.store.run between = some memory'.store := by
    rw [← (run_spec hOwned between).1, hBetween]
    rfl
  constructor
  · intro hTrace
    exact Binding.decrypt_eq_some.mpr
      ⟨bytes, store_trace_run hStore hBytes hTrace, (encrypt_iff_decrypt hE).mp hFf1⟩
  · intro hEmpty
    have hTakes := takes_of_decrypt ⟨X, (encrypt_iff_decrypt hE).mp hFf1⟩
    have hKey : ¬ AesBlock.ValidKeySize (⟨[]⟩ : Key).size := by decide
    exact Binding.decrypt_eq_some.mpr ⟨[], hEmpty,
      decrypt_eq_error_of_key hTakes.low hTakes.high hTakes.digits hTakes.radix hKey⟩

/-- A key of sixteen bytes that is moved to another object. -/
theorem ciphertext_follows_key_moved : ∃ memory memory' : Memory Bool,
    run empty [.construct false (List.replicate 16 0) []] = some memory ∧
    run memory [.moveConstruct true false] = some memory' ∧
    ∃ Y, Ff1.encrypt (Evp.ofFunction aes)
        ⟨decimalDomain, ⟨List.replicate 16 0⟩, [], Nat.zero_le 64⟩ [0, 1] = .ok Y ∧
      Binding.decrypt (Evp.ofFunction aes) ⟨decimalDomain, true, [], Nat.zero_le 64⟩ memory' Y =
        some (.ok [0, 1]) := by
  have hTakes : Takes ⟨decimalDomain, ⟨List.replicate 16 0⟩, [], Nat.zero_le 64⟩ [0, 1] :=
    ⟨by decide, by decide, by decide, by decide, decimalDomain_radix_le⟩
  obtain ⟨Y, hFf1, -⟩ := hTakes.encrypt_eq_ok (AesBlock.computes_ofFunction aes)
  let binding : Binding Bool := ⟨decimalDomain, false, [], Nat.zero_le 64⟩
  let memory : Memory Bool := ⟨[⟨List.replicate 16 0, [], 0⟩],
    Function.update (fun _ => none) false (some (some 0))⟩
  let between : List (Operation Bool) := [.moveConstruct true false]
  have hBefore : run empty [.construct false (List.replicate 16 0) []] = some memory := rfl
  have hEncrypt : binding.encrypt (Evp.ofFunction aes) memory [0, 1] = some (.ok Y) :=
    Binding.encrypt_eq_some.mpr ⟨List.replicate 16 0, rfl, hFf1⟩
  have hTrace : trace between binding.key = some true := rfl
  obtain ⟨memory', hBetween⟩ : ∃ memory', run memory between = some memory' := ⟨_, rfl⟩
  exact ⟨memory, memory', hBefore, hBetween, Y, hFf1,
    (ciphertext_follows_key (AesBlock.computes_ofFunction aes).total hBefore hBetween hEncrypt
      true).1 hTrace⟩

end IndicCrypt.Fpe
