import IndicCrypt.Library.BlockMode
import IndicCrypt.Library.Positional

/-!
# SHA-256

The hash function on byte strings: the message is padded to blocks of 64 bytes (`pad`), and
each block is compressed into a state of eight words. A digest has 32 bytes, whatever is
hashed (`length_hash`).
-/

namespace Sha256

/-! ## Constants -/

def roundConstants : List UInt32 := [
  0x428a2f98, 0x71374491, 0xb5c0fbcf, 0xe9b5dba5, 0x3956c25b, 0x59f111f1, 0x923f82a4, 0xab1c5ed5,
  0xd807aa98, 0x12835b01, 0x243185be, 0x550c7dc3, 0x72be5d74, 0x80deb1fe, 0x9bdc06a7, 0xc19bf174,
  0xe49b69c1, 0xefbe4786, 0x0fc19dc6, 0x240ca1cc, 0x2de92c6f, 0x4a7484aa, 0x5cb0a9dc, 0x76f988da,
  0x983e5152, 0xa831c66d, 0xb00327c8, 0xbf597fc7, 0xc6e00bf3, 0xd5a79147, 0x06ca6351, 0x14292967,
  0x27b70a85, 0x2e1b2138, 0x4d2c6dfc, 0x53380d13, 0x650a7354, 0x766a0abb, 0x81c2c92e, 0x92722c85,
  0xa2bfe8a1, 0xa81a664b, 0xc24b8b70, 0xc76c51a3, 0xd192e819, 0xd6990624, 0xf40e3585, 0x106aa070,
  0x19a4c116, 0x1e376c08, 0x2748774c, 0x34b0bcb5, 0x391c0cb3, 0x4ed8aa4a, 0x5b9cca4f, 0x682e6ff3,
  0x748f82ee, 0x78a5636f, 0x84c87814, 0x8cc70208, 0x90befffa, 0xa4506ceb, 0xbef9a3f7, 0xc67178f2]

/-- The state: eight words. -/
structure State where
  a : UInt32
  b : UInt32
  c : UInt32
  d : UInt32
  e : UInt32
  f : UInt32
  g : UInt32
  h : UInt32

def initial : State :=
  ⟨0x6a09e667, 0xbb67ae85, 0x3c6ef372, 0xa54ff53a, 0x510e527f, 0x9b05688c, 0x1f83d9ab, 0x5be0cd19⟩

/-! ## Compression -/

def rotate (x : UInt32) (n : UInt32) : UInt32 := (x >>> n) ||| (x <<< (32 - n))

/-- The next word of the schedule, from the words before it, the latest first. -/
def nextWord (words : List UInt32) : UInt32 :=
  let x := words.getD 1 0
  let y := words.getD 14 0
  (rotate x 17 ^^^ rotate x 19 ^^^ (x >>> 10)) + words.getD 6 0 +
    (rotate y 7 ^^^ rotate y 18 ^^^ (y >>> 3)) + words.getD 15 0

def schedule (block : List UInt8) : List UInt32 :=
  let words := (BlockMode.blocks 4 block).map fun word => UInt32.ofNat (Positional.byteNum word)
  ((List.range 48).foldl (fun words _ => nextWord words :: words) words.reverse).reverse

def round (s : State) (step : UInt32 × UInt32) : State :=
  let choice := (s.e &&& s.f) ^^^ ((~~~ s.e) &&& s.g)
  let majority := (s.a &&& s.b) ^^^ (s.a &&& s.c) ^^^ (s.b &&& s.c)
  let first := s.h + (rotate s.e 6 ^^^ rotate s.e 11 ^^^ rotate s.e 25) + choice + step.1 + step.2
  let second := (rotate s.a 2 ^^^ rotate s.a 13 ^^^ rotate s.a 22) + majority
  ⟨first + second, s.a, s.b, s.c, s.d + first, s.e, s.f, s.g⟩

def compress (s : State) (block : List UInt8) : State :=
  let t := (roundConstants.zip (schedule block)).foldl round s
  ⟨s.a + t.a, s.b + t.b, s.c + t.c, s.d + t.d, s.e + t.e, s.f + t.f, s.g + t.g, s.h + t.h⟩

/-! ## Hashing -/

/-- One byte, zeros up to a full block, and the number of bits. -/
def pad (message : List UInt8) : List UInt8 :=
  message ++ [0x80] ++ List.replicate ((119 - message.length % 64) % 64) 0 ++
    Positional.bytes 8 (8 * message.length)

def State.bytes (s : State) : List UInt8 :=
  [s.a, s.b, s.c, s.d, s.e, s.f, s.g, s.h].flatMap fun word => Positional.bytes 4 word.toNat

def hash (message : List UInt8) : List UInt8 :=
  ((BlockMode.blocks 64 (pad message)).foldl compress initial).bytes

@[simp] theorem length_hash (message : List UInt8) : (hash message).length = 32 := by
  simp [hash, State.bytes]

/-- The example of the standard with one block. -/
example : hash [0x61, 0x62, 0x63] =
    [0xba, 0x78, 0x16, 0xbf, 0x8f, 0x01, 0xcf, 0xea, 0x41, 0x41, 0x40, 0xde, 0x5d, 0xae, 0x22, 0x23,
      0xb0, 0x03, 0x61, 0xa3, 0x96, 0x17, 0x7a, 0x9c, 0xb4, 0x10, 0xff, 0x61, 0xf2, 0x00, 0x15,
      0xad] := by
  decide +kernel

end Sha256
