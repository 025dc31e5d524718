import Mathlib.Data.List.Basic
import IndicCrypt.Library.Aes
import IndicCrypt.Library.Positional

/-!
# Stream ciphers with a tag

A `Primitive` is a keystream for every key and nonce, and a tag of sixteen bytes for the
associated data and the ciphertext. `mask` adds the keystream to a string from a position
on; it keeps the length and undoes itself. `aesGcm` is AES in Galois/Counter Mode under
nonces of twelve bytes.
-/

namespace Gcm

structure Primitive where
  keystream : List UInt8 → List UInt8 → Nat → UInt8
  tag : List UInt8 → List UInt8 → List UInt8 → List UInt8 → List UInt8
  length_tag : ∀ key nonce aad ciphertext, (tag key nonce aad ciphertext).length = 16

/-- The string, xored with the keystream from `position` on. -/
def mask (keystream : Nat → UInt8) (position : Nat) (s : List UInt8) : List UInt8 :=
  s.mapIdx fun i byte => byte ^^^ keystream (position + i)

@[simp] theorem length_mask (keystream : Nat → UInt8) (position : Nat) (s : List UInt8) :
    (mask keystream position s).length = s.length := by
  simp [mask]

theorem mask_mask (keystream : Nat → UInt8) (position : Nat) (s : List UInt8) :
    mask keystream position (mask keystream position s) = s := by
  apply List.ext_getElem (by simp)
  intro i _ _
  simp only [mask, List.getElem_mapIdx]
  rw [UInt8.xor_assoc, UInt8.xor_self, UInt8.xor_zero]

/-! ## Galois/Counter Mode -/

/-- The product in the field of `2 ^ 128` elements; the leading bit is the constant term. -/
def mul (x y : Nat) : Nat :=
  ((List.range 128).foldl
    (fun (state : Nat × Nat) i =>
      (if x.testBit (127 - i) then state.1 ^^^ state.2 else state.1,
        if state.2 % 2 = 1 then (state.2 >>> 1) ^^^ (0xe1 <<< 120) else state.2 >>> 1))
    (0, y)).1

/-- The string, filled with zeros to full blocks. -/
def fill (s : List UInt8) : List UInt8 := s ++ List.replicate ((16 - s.length % 16) % 16) 0

def ghash (h : Nat) (aad ciphertext : List UInt8) : Nat :=
  let input := fill aad ++ fill ciphertext ++ Positional.bytes 8 (8 * aad.length) ++
    Positional.bytes 8 (8 * ciphertext.length)
  (BlockMode.blocks 16 input).foldl (fun y X => mul (y ^^^ Positional.byteNum X) h) 0

def aesGcm : Primitive where
  keystream key nonce i :=
    (Aes.encrypt key (nonce ++ Positional.bytes 4 (2 + i / 16))).getD (i % 16) 0
  tag key nonce aad ciphertext :=
    let h := Positional.byteNum (Aes.encrypt key (List.replicate 16 0))
    let mask := Positional.byteNum (Aes.encrypt key (nonce ++ Positional.bytes 4 1))
    Positional.bytes 16 (ghash h aad ciphertext ^^^ mask)
  length_tag _ _ _ _ := Positional.length_bytes _ _

end Gcm
