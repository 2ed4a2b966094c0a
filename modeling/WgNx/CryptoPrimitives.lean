import WgNx.WireMessages

/-!
The cryptographic functions the protocol code calls, as a parameter.

`wg_hash`, `wg_hash2`, `wg_mac`, the three KDFs and the AEADs of `wg_crypto.c`
and the X25519 functions of the vendored library are arbitrary functions of the
right widths.  `Lawful` collects what the protocol relies on: Diffie-Hellman
commutes, and decryption undoes encryption.
-/

namespace WgNx.CryptoPrimitives

open WgNx.ByteLayout
open WgNx.WireMessages

structure Primitives where
  cryptoX25519 : (secret : Key) → (publicKey : Key) → Key
  cryptoX25519PublicKey : (secret : Key) → Key
  wgHash : Bytes → Hash
  wgHash2 : Bytes → Bytes → Hash
  wgMac : (key : Bytes) → (data : Bytes) → Mac
  wgKdf1 : (key : Hash) → (input : Bytes) → Hash
  wgKdf2 : (key : Hash) → (input : Bytes) → Hash × Hash
  wgKdf3 : (key : Hash) → (input : Bytes) → Hash × Hash × Hash
  wgAeadEncrypt : {n : Nat} → (key : Key) → (counter : UInt64) →
    (plaintext : ByteVec n) → (ad : Bytes) → ByteVec (n + 16)
  wgAeadDecrypt : {n : Nat} → (key : Key) → (counter : UInt64) →
    (ciphertext : ByteVec (n + 16)) → (ad : Bytes) → Option (ByteVec n)
  wgXaeadDecrypt : (key : Key) → (nonce : ByteVec 24) →
    (ciphertext : ByteVec 32) → (ad : Bytes) → Option (ByteVec 16)

structure Primitives.Lawful (P : Primitives) : Prop where
  x25519_comm : ∀ a b : Key,
    P.cryptoX25519 a (P.cryptoX25519PublicKey b) =
      P.cryptoX25519 b (P.cryptoX25519PublicKey a)
  aead_roundtrip : ∀ {n : Nat} (key : Key) (counter : UInt64)
    (plaintext : ByteVec n) (ad : Bytes),
    P.wgAeadDecrypt key counter (P.wgAeadEncrypt key counter plaintext ad) ad =
      some plaintext

def addBytes {n : Nat} (a b : ByteVec n) : ByteVec n := Vector.zipWith (· + ·) a b

/-- A lawful instance small enough to evaluate: byte-wise addition for the group
operation and the KDFs, and the front half of the key for the tag. -/
def additive : Primitives where
  cryptoX25519 := addBytes
  cryptoX25519PublicKey a := a
  wgHash _ := Vector.replicate 32 0
  wgHash2 _ _ := Vector.replicate 32 0
  wgMac _ _ := Vector.replicate 16 0
  wgKdf1 key input := addBytes key (field input 0 32)
  wgKdf2 key input :=
    (addBytes key (field input 0 32), addBytes key (Vector.replicate 32 1))
  wgKdf3 key input :=
    (addBytes key (field input 0 32), addBytes key (Vector.replicate 32 1), key)
  wgAeadEncrypt key _ plaintext _ := plaintext ++ field key.toList 0 16
  wgAeadDecrypt {n} key _ ciphertext _ :=
    if field ciphertext.toList n 16 = field key.toList 0 16 then
      some (field ciphertext.toList 0 n)
    else none
  wgXaeadDecrypt key _ ciphertext _ :=
    if field ciphertext.toList 16 16 = field key.toList 0 16 then
      some (field ciphertext.toList 0 16)
    else none

theorem additive_lawful : additive.Lawful where
  x25519_comm a b := by
    change addBytes a b = addBytes b a
    ext i hi
    simp [addBytes, UInt8.add_comm]
  aead_roundtrip key counter plaintext ad := by
    simp (disch := simp) [additive, field_append_of_le, field_append_vec]

end WgNx.CryptoPrimitives
