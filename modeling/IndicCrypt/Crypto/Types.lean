import IndicCrypt.Failure

/-!
# Keys, nonces, ciphertexts and tags

Each class of `crypto/types.hpp` wraps a byte vector and checks nothing. The destructor of
`Key` and its moves overwrite memory that no function reads afterwards.
-/

namespace IndicCrypt.Crypto

structure Key where
  bytes : Bytes

def Key.size (key : Key) : Nat := key.bytes.length

structure Nonce where
  bytes : Bytes

def Nonce.size (nonce : Nonce) : Nat := nonce.bytes.length

structure Ciphertext where
  bytes : Bytes

def Ciphertext.size (ciphertext : Ciphertext) : Nat := ciphertext.bytes.length

structure AuthenticationTag where
  bytes : Bytes

def AuthenticationTag.size (tag : AuthenticationTag) : Nat := tag.bytes.length

end IndicCrypt.Crypto
