import WgNx.AeadNeon
import WgNx.PolyPortable

/-!
The AEAD of the portable library, and that it does the same as the vector code.

Both xor the same key stream as long as the 32-bit block counter does not wrap, and
both compute the same number modulo 2^130 - 5.
-/

namespace WgNx.AeadPortable

open WgNx.AeadNeon
open WgNx.ByteLayout
open WgNx.ByteMemory
open WgNx.ChaChaStream
open WgNx.EncryptThenMac
open WgNx.PolyHash
open WgNx.PolyNeon
open WgNx.PolyPortable
open WgNx.WireMessages
open WgNx.WordArith
open WgNx.WordBytes

section Model

structure CryptoAeadCtx where
  counter : UInt64
  key : Key
  nonce : ByteVec 8

def cryptoAeadInitIetf (key : Key) (nonce : ByteVec 12) : CryptoAeadCtx where
  key := key
  nonce := field nonce.toList 4 8
  counter := (load32Le nonce.toList 0).toUInt64 <<< 32

/-- `store64_le` of the portable library, by two words. -/
def store64LeWords (v : UInt64) : Bytes := store32Le v.toUInt32 ++ store32Le (v >>> 32).toUInt32

def lockAuth (authKey ad cipherText : Bytes) : Bytes :=
  let sizes := store64LeWords (UInt64.ofNat ad.length) ++
    store64LeWords (UInt64.ofNat cipherText.length)
  let polyCtx := cryptoPoly1305Init authKey
  let polyCtx := cryptoPoly1305Update polyCtx ad
  let polyCtx := cryptoPoly1305Update polyCtx
    (List.replicate (gap (UInt64.ofNat ad.length) 16).toNat 0)
  let polyCtx := cryptoPoly1305Update polyCtx cipherText
  let polyCtx := cryptoPoly1305Update polyCtx
    (List.replicate (gap (UInt64.ofNat cipherText.length) 16).toNat 0)
  let polyCtx := cryptoPoly1305Update polyCtx sizes
  cryptoPoly1305Final polyCtx

/-- The local array `auth_key`, which is no part of the memory of the caller. -/
def authKeyOf (ctx : CryptoAeadCtx) : Bytes :=
  read (cryptoChacha20Djb (fun _ => 0) 0 none 64 ctx.key ctx.nonce ctx.counter).2 0 64

/-- Returns the context with its next key, the code and the memory. -/
def cryptoAeadWrite (ctx : CryptoAeadCtx) (mem : Memory) (cipherText : Nat) (ad : Bytes)
    (plainText textSize : Nat) : CryptoAeadCtx × Bytes × Memory :=
  let authKey := authKeyOf ctx
  let mem := (cryptoChacha20Djb mem cipherText (some plainText) textSize ctx.key ctx.nonce
    (ctx.counter + 1)).2
  let mac := lockAuth authKey ad (read mem cipherText textSize)
  ({ ctx with key := field authKey 32 32 }, mac, mem)

def cryptoAeadRead (ctx : CryptoAeadCtx) (mem : Memory) (plainText : Nat) (mac : Bytes)
    (ad : Bytes) (cipherText textSize : Nat) : Int × CryptoAeadCtx × Memory :=
  let authKey := authKeyOf ctx
  let realMac := lockAuth authKey ad (read mem cipherText textSize)
  let mismatch := cryptoVerify16 mac realMac
  if mismatch = 0 then
    (mismatch, { ctx with key := field authKey 32 32 },
      (cryptoChacha20Djb mem plainText (some cipherText) textSize ctx.key ctx.nonce
        (ctx.counter + 1)).2)
  else (mismatch, ctx, mem)

/-- The array `nonce` of `wg_aead_encrypt` and `wg_aead_decrypt`. -/
def counterNonce (counter : UInt64) : ByteVec 12 :=
  let nonce : ByteVec 12 := Vector.replicate 12 0
  let nonce := nonce.set 4 counter.toUInt8
  let nonce := nonce.set 5 (counter >>> 8).toUInt8
  let nonce := nonce.set 6 (counter >>> 16).toUInt8
  let nonce := nonce.set 7 (counter >>> 24).toUInt8
  let nonce := nonce.set 8 (counter >>> 32).toUInt8
  let nonce := nonce.set 9 (counter >>> 40).toUInt8
  let nonce := nonce.set 10 (counter >>> 48).toUInt8
  nonce.set 11 (counter >>> 56).toUInt8

/-- `available` is the result of `wg_chacha20_neon_available`. -/
def wgAeadEncrypt (available : Bool) (mem : Memory) (out : Nat) (key : Key) (counter : UInt64)
    (plaintext plaintextLen : Nat) (ad : Bytes) : Int × Memory :=
  if available then wgAeadNeonEncrypt mem out key counter plaintext plaintextLen ad
  else
    let ctx := cryptoAeadInitIetf key (counterNonce counter)
    let (_, mac, mem) := cryptoAeadWrite ctx mem out ad plaintext plaintextLen
    (0, write mem (out + plaintextLen) mac)

def wgAeadDecrypt (available : Bool) (mem : Memory) (out : Nat) (key : Key) (counter : UInt64)
    (ciphertext ciphertextLen : Nat) (ad : Bytes) : Int × Memory :=
  if ciphertextLen < 16 then (-1, mem)
  else if available then wgAeadNeonDecrypt mem out key counter ciphertext ciphertextLen ad
  else
    let plaintextLen := ciphertextLen - 16
    let mac := ciphertext + plaintextLen
    let ctx := cryptoAeadInitIetf key (counterNonce counter)
    let (result, _, mem) :=
      cryptoAeadRead ctx mem out (read mem mac 16) ad ciphertext plaintextLen
    (result, mem)

end Model

section Clamp

theorem loadQuad_clampBytes (key : Bytes) :
    loadQuad (clampBytes key) = (cryptoPoly1305Init key).r := by
  rw [loadQuad_clampBytes_eq]
  rfl

end Clamp

section Agreement

/-- A byte of one of the two words. -/
theorem byte_of_word (v m n : UInt64) (k : UInt32) (hm : m.toNat < 64) (hk : k.toNat ≤ 24)
    (hn : n.toNat = m.toNat + k.toNat) (hlt : n.toNat < 64) :
    ((v >>> m).toUInt32 >>> k).toUInt8 = (v >>> n).toUInt8 := by
  have hpow : 2 ^ 32 = 2 ^ k.toNat * 2 ^ (32 - k.toNat) := by
    rw [← Nat.pow_add]
    congr 1
    omega
  have hdvd : 256 ∣ 2 ^ (32 - k.toNat) := Nat.pow_dvd_pow 2 (show 8 ≤ 32 - k.toNat by omega)
  apply UInt8.toNat_inj.mp
  rw [toNat_byteOf, UInt64.toNat_toUInt32, UInt64.toNat_toUInt8, toNat_shiftRight64 _ _ hm,
    toNat_shiftRight64 _ _ hlt, hn, Nat.mod_eq_of_lt (show k.toNat < 32 by omega), Nat.pow_add,
    ← Nat.div_div_eq_div_mul, hpow, Nat.mod_mul_right_div_self, Nat.mod_mod_of_dvd _ hdvd]

theorem store64LeWords_eq (v : UInt64) : store64LeWords v = store64Le v := by
  have hbyte := byte_of_word v
  have b0 := hbyte 0 0 0 (by decide) (by decide) (by decide) (by decide)
  have b1 := hbyte 0 8 8 (by decide) (by decide) (by decide) (by decide)
  have b2 := hbyte 0 16 16 (by decide) (by decide) (by decide) (by decide)
  have b3 := hbyte 0 24 24 (by decide) (by decide) (by decide) (by decide)
  have b4 := hbyte 32 32 0 (by decide) (by decide) (by decide) (by decide)
  have b5 := hbyte 32 40 8 (by decide) (by decide) (by decide) (by decide)
  have b6 := hbyte 32 48 16 (by decide) (by decide) (by decide) (by decide)
  have b7 := hbyte 32 56 24 (by decide) (by decide) (by decide) (by decide)
  rw [UInt64.shiftRight_zero] at b0 b1 b2 b3
  rw [UInt32.shiftRight_zero] at b0 b4
  unfold store64LeWords store32Le store64Le
  rw [b0, b1, b2, b3, b4, b5, b6, b7]
  rfl

/-- Both libraries authenticate the same bytes in the same way. -/
theorem lockAuth_eq (authKey ad cipherText : Bytes) :
    lockAuth authKey ad cipherText = polyTag authKey ad cipherText := by
  have hinit : cryptoPoly1305Update (cryptoPoly1305Init authKey) ad =
      withData (cryptoPoly1305Init authKey) ad :=
    cryptoPoly1305Update_eq (cryptoPoly1305Init authKey) (Nat.zero_lt_succ 15) ad
  unfold lockAuth
  dsimp only
  rw [hinit, cryptoPoly1305Update_withData, cryptoPoly1305Update_withData,
    cryptoPoly1305Update_withData, cryptoPoly1305Update_withData, cryptoPoly1305Final_withData,
    toNat_gap, toNat_gap, store64LeWords_eq, store64LeWords_eq, ← loadQuad_clampBytes]
  rfl

theorem getD_field (buf : Bytes) {off n i : Nat} (hi : i < n) :
    (field buf off n).toList.getD i 0 = buf.getD (off + i) 0 := by
  rw [List.getD_eq_getElem _ _ (by simpa using hi)]
  simp

theorem load32Le_field (buf : Bytes) {off n i : Nat} (hi : i + 4 ≤ n) :
    load32Le (field buf off n).toList i = load32Le buf (off + i) := by
  unfold load32Le
  rw [getD_field buf (by omega), getD_field buf (by omega), getD_field buf (by omega),
    getD_field buf (by omega)]
  rfl

theorem first_word_zero (counter : UInt64) : load32Le (buildNonce counter).toList 0 = 0 := by
  change (0 : UInt8).toUInt32 ||| (0 : UInt8).toUInt32 <<< 8 ||| (0 : UInt8).toUInt32 <<< 16 |||
    (0 : UInt8).toUInt32 <<< 24 = 0
  decide

/-- The high half of the counter is the first word of the nonce, which is zero. -/
theorem djbInput_eq (key : Key) (counter : UInt64) {ctr : UInt64} (hctr : ctr.toNat < 2 ^ 32) :
    djbInput key (field (buildNonce counter).toList 4 8) ctr =
      neonState key (buildNonce counter) ctr.toUInt32 := by
  have hhigh : (ctr >>> 32).toUInt32 = 0 := by
    apply UInt32.toNat_inj.mp
    rw [UInt64.toNat_toUInt32, toNat_shiftRight64 _ 32 (by decide)]
    change ctr.toNat / 2 ^ 32 % 2 ^ 32 = 0
    omega
  have c0 : load32Le chacha20Constant 0 = 0x61707865 := by decide
  have c1 : load32Le chacha20Constant 4 = 0x3320646e := by decide
  have c2 : load32Le chacha20Constant 8 = 0x79622d32 := by decide
  have c3 : load32Le chacha20Constant 12 = 0x6b206574 := by decide
  unfold djbInput neonState
  rw [hhigh, first_word_zero, c0, c1, c2, c3, load32Le_field _ (by decide),
    load32Le_field _ (by decide)]

theorem cryptoAeadInitIetf_eq (key : Key) (counter : UInt64) :
    cryptoAeadInitIetf key (counterNonce counter) =
      ⟨0, key, field (buildNonce counter).toList 4 8⟩ := by
  have hnonce : counterNonce counter = buildNonce counter := rfl
  unfold cryptoAeadInitIetf
  rw [hnonce, first_word_zero]
  rfl

theorem authKeyOf_eq (key : Key) (counter : UInt64) :
    authKeyOf ⟨0, key, field (buildNonce counter).toList 4 8⟩ =
      wgChacha20BlockNeon key (buildNonce counter) 0 := by
  unfold authKeyOf
  dsimp only
  rw [cryptoChacha20Djb_none, djbInput_eq key counter (by decide)]
  exact (read_write ..).trans (djbBlock_of_neonState key (buildNonce counter) 0)

variable (mem : Memory) {out inp len : Nat}

/-- The portable stream cipher as one write. -/
theorem cryptoChacha20Djb_write (key : Key) (counter : UInt64) (h : Separable out inp len)
    (hlen : len ≤ 64 * (2 ^ 32 - 1)) :
    (cryptoChacha20Djb mem out (some inp) len key (field (buildNonce counter).toList 4 8)
        (0 + 1)).2 =
      write mem out (xorBytes (read mem inp len) (neonStream key counter len)) := by
  have hstream : keystream djbBlock nextInput (neonState key (buildNonce counter) 1) len =
      neonStream key counter len := keystream_agree key (buildNonce counter) 1 len hlen
  rw [cryptoChacha20Djb_some mem key _ _ h, djbInput_eq key counter (by decide)]
  change xorInto mem out inp
    (keystream djbBlock nextInput (neonState key (buildNonce counter) 1) len) = _
  rw [hstream]
  unfold xorInto
  rw [length_neonStream]

theorem wgAeadEncrypt_eq (key : Key) (counter : UInt64) (ad : Bytes) (h : Separable out inp len)
    (hlen : len ≤ 64 * (2 ^ 32 - 1)) :
    wgAeadEncrypt false mem out key counter inp len ad =
      (0, write mem out
        (lock (neonStream key counter) (neonMac key counter ad) (read mem inp len))) := by
  unfold wgAeadEncrypt cryptoAeadWrite
  rw [if_neg Bool.false_ne_true, cryptoAeadInitIetf_eq]
  dsimp only
  rw [authKeyOf_eq, cryptoChacha20Djb_write mem key counter h hlen, lockAuth_eq]
  unfold lock
  dsimp only
  rw [length_read]
  generalize hcipher : xorBytes (read mem inp len) (neonStream key counter len) = cipher
  have hcipherLen : cipher.length = len := by
    rw [← hcipher, length_xorBytes, length_read, length_neonStream, Nat.min_self]
  subst hcipherLen
  rw [read_write, write_append]
  rfl

theorem wgAeadDecrypt_eq (key : Key) (counter : UInt64) (ad : Bytes)
    (h : Separable out inp len) (hlen : len ≤ 64 * (2 ^ 32 - 1)) :
    wgAeadDecrypt false mem out key counter inp (len + 16) ad =
      openedInto mem out (unlock (neonStream key counter) (neonMac key counter ad) 16
        (read mem inp (len + 16))) := by
  have hlong : ¬ len + 16 < 16 := by omega
  unfold wgAeadDecrypt cryptoAeadRead unlock
  rw [length_read, if_neg hlong, if_neg Bool.false_ne_true, if_neg hlong, cryptoAeadInitIetf_eq,
    Nat.add_sub_cancel, take_read mem inp (Nat.le_add_right len 16), drop_read]
  dsimp only
  rw [authKeyOf_eq, cryptoChacha20Djb_write mem key counter h hlen, lockAuth_eq, length_read,
    cryptoVerify16_eq (length_read ..) (length_polyTag ..)]
  unfold neonMac
  by_cases htag : polyTag (wgChacha20BlockNeon key (buildNonce counter) 0) ad
      (read mem inp len) = read mem (inp + len) 16
  · rw [if_pos htag.symm, if_pos rfl, if_pos htag]
    rfl
  · rw [if_neg (Ne.symm htag), if_neg htag]
    rfl

/-- The vector code and the portable code return the same code and leave the same memory,
for texts in one buffer as for texts in two. -/
theorem neon_aead_eq_portable (key : Key) (counter : UInt64) (ad : Bytes) (mem : Memory)
    (out text len : Nat) (h : Separable out text len) (hlen : len ≤ 64 * (2 ^ 32 - 1)) :
    wgAeadNeonEncrypt mem out key counter text len ad =
        wgAeadEncrypt false mem out key counter text len ad ∧
      wgAeadNeonDecrypt mem out key counter text (len + 16) ad =
        wgAeadDecrypt false mem out key counter text (len + 16) ad := by
  constructor
  · rw [wgAeadNeonEncrypt_eq mem key counter ad h, wgAeadEncrypt_eq mem key counter ad h hlen]
  · have hcipher : Separable out text (len + 16 - 16) := by
      rw [Nat.add_sub_cancel]
      exact h
    rw [wgAeadNeonDecrypt_eq mem key counter ad hcipher,
      wgAeadDecrypt_eq mem key counter ad h hlen]

/-- Some bytes in place, with one block and a tail. -/
theorem neon_aead_eq_portable_in_place :
    let key : Key := Vector.replicate 32 7
    let mem := write (fun _ => 0) 64 [1, 2, 3]
    wgAeadNeonEncrypt mem 64 key 5 64 100 [9] = wgAeadEncrypt false mem 64 key 5 64 100 [9] ∧
      wgAeadNeonDecrypt mem 64 key 5 64 116 [9] = wgAeadDecrypt false mem 64 key 5 64 116 [9] :=
  neon_aead_eq_portable (Vector.replicate 32 7) 5 [9] (write (fun _ => 0) 64 [1, 2, 3]) 64 64 100
    (Or.inl rfl) (by decide)

end Agreement

end WgNx.AeadPortable
