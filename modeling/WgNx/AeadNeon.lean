import WgNx.ChaChaStream
import WgNx.CryptoPrimitives
import WgNx.EncryptThenMac
import WgNx.PolyNeon

/-!
The AEAD of the vector code, on buffers in memory.

Texts are addresses, for the output may be the buffer of the input.  Keys and
associated data are given by their bytes.
-/

namespace WgNx.AeadNeon

open WgNx.ByteLayout
open WgNx.ByteMemory
open WgNx.ChaChaStream
open WgNx.CryptoPrimitives
open WgNx.EncryptThenMac
open WgNx.PolyHash
open WgNx.PolyNeon
open WgNx.WireMessages
open WgNx.WordArith
open WgNx.WordBytes

section Verify

def x16 (a b : Bytes) : UInt64 :=
  (load64Le a 0 ^^^ load64Le b 0) ||| (load64Le a 8 ^^^ load64Le b 8)

/-- The word is returned as an `int`. -/
def neq0 (diff : UInt64) : Int :=
  let half := (diff >>> 32) ||| diff.toUInt32.toUInt64
  (((1 : UInt64) &&& ((half - 1) >>> 32)) - 1).toUInt32.toInt32.toInt

def cryptoVerify16 (a b : Bytes) : Int := neq0 (x16 a b)

end Verify

section Model

def buildNonce (counter : UInt64) : ByteVec 12 :=
  #v[0, 0, 0, 0, counter.toUInt8, (counter >>> 8).toUInt8, (counter >>> 16).toUInt8,
    (counter >>> 24).toUInt8, (counter >>> 32).toUInt8, (counter >>> 40).toUInt8,
    (counter >>> 48).toUInt8, (counter >>> 56).toUInt8]

def wgAeadNeonEncrypt (mem : Memory) (out : Nat) (key : Key) (counter : UInt64)
    (plaintext plaintextLen : Nat) (ad : Bytes) : Int × Memory :=
  let nonce := buildNonce counter
  let polyKey := wgChacha20BlockNeon key nonce 0
  let mem := wgChacha20Neon key nonce mem out plaintext plaintextLen 1
  let adPad := (16 - ad.length % 16) % 16
  let ctPad := (16 - plaintextLen % 16) % 16
  let sizes := store64Le (UInt64.ofNat ad.length) ++ store64Le (UInt64.ofNat plaintextLen)
  let polyCtx := wgPoly1305Init polyKey
  let polyCtx :=
    if ad.length > 0 then
      let polyCtx := wgPoly1305Update polyCtx ad
      if adPad > 0 then wgPoly1305Update polyCtx (List.replicate adPad 0) else polyCtx
    else polyCtx
  let polyCtx := wgPoly1305Update polyCtx (read mem out plaintextLen)
  let polyCtx :=
    if ctPad > 0 then wgPoly1305Update polyCtx (List.replicate ctPad 0) else polyCtx
  let polyCtx := wgPoly1305Update polyCtx sizes
  (0, write mem (out + plaintextLen) (wgPoly1305Final polyCtx))

def wgAeadNeonDecrypt (mem : Memory) (out : Nat) (key : Key) (counter : UInt64)
    (ciphertext ciphertextLen : Nat) (ad : Bytes) : Int × Memory :=
  if ciphertextLen < 16 then (-1, mem)
  else
    let plaintextLen := ciphertextLen - 16
    let mac := ciphertext + plaintextLen
    let nonce := buildNonce counter
    let polyKey := wgChacha20BlockNeon key nonce 0
    let adPad := (16 - ad.length % 16) % 16
    let ctPad := (16 - plaintextLen % 16) % 16
    let sizes := store64Le (UInt64.ofNat ad.length) ++ store64Le (UInt64.ofNat plaintextLen)
    let polyCtx := wgPoly1305Init polyKey
    let polyCtx :=
      if ad.length > 0 then
        let polyCtx := wgPoly1305Update polyCtx ad
        if adPad > 0 then wgPoly1305Update polyCtx (List.replicate adPad 0) else polyCtx
      else polyCtx
    let polyCtx := wgPoly1305Update polyCtx (read mem ciphertext plaintextLen)
    let polyCtx :=
      if ctPad > 0 then wgPoly1305Update polyCtx (List.replicate ctPad 0) else polyCtx
    let polyCtx := wgPoly1305Update polyCtx sizes
    let computedMac := wgPoly1305Final polyCtx
    let result := cryptoVerify16 computedMac (read mem mac 16)
    if result = 0 then
      (result, wgChacha20Neon key nonce mem out ciphertext plaintextLen 1)
    else (result, mem)

end Model

section Verify

theorem toNat_load64Le (p : Bytes) (off : Nat) :
    (load64Le p off).toNat = (load32Le p off).toNat + 2 ^ 32 * (load32Le p (off + 4)).toNat := by
  have hlow := (load32Le p off).toNat_lt
  have hhigh := (load32Le p (off + 4)).toNat_lt
  have hshift : ((load32Le p (off + 4)).toUInt64 <<< 32).toNat =
      2 ^ 32 * (load32Le p (off + 4)).toNat := by
    rw [UInt64.toNat_shiftLeft, UInt32.toNat_toUInt64, Nat.shiftLeft_eq, Nat.mul_comm]
    change 2 ^ 32 * _ % 2 ^ 64 = _
    omega
  unfold load64Le
  rw [UInt64.toNat_or, hshift, UInt32.toNat_toUInt64, or_mul_two_pow hlow]

theorem load32Le_inj {p q : Bytes} {off : Nat} (h : load32Le p off = load32Le q off) :
    ∀ i < 4, p.getD (off + i) 0 = q.getD (off + i) 0 := by
  have hbytes := store32Le_load32Le p off
  rw [h, store32Le_load32Le q off] at hbytes
  simp only [List.cons.injEq, and_true] at hbytes
  obtain ⟨h0, h1, h2, h3⟩ := hbytes
  intro i hi
  match i, hi with
  | 0, _ => exact h0.symm
  | 1, _ => exact h1.symm
  | 2, _ => exact h2.symm
  | 3, _ => exact h3.symm

theorem load64Le_inj {p q : Bytes} {off : Nat} (h : load64Le p off = load64Le q off) :
    ∀ i < 8, p.getD (off + i) 0 = q.getD (off + i) 0 := by
  have hnat := congrArg UInt64.toNat h
  rw [toNat_load64Le, toNat_load64Le] at hnat
  have hlp := (load32Le p off).toNat_lt
  have hlq := (load32Le q off).toNat_lt
  have hlow : load32Le p off = load32Le q off := UInt32.toNat_inj.mp (by omega)
  have hhigh : load32Le p (off + 4) = load32Le q (off + 4) := UInt32.toNat_inj.mp (by omega)
  intro i hi
  by_cases hi4 : i < 4
  · exact load32Le_inj hlow i hi4
  · have hbyte := load32Le_inj hhigh (i - 4) (by omega)
    rw [show off + 4 + (i - 4) = off + i by omega] at hbyte
    exact hbyte

theorem x16_eq_zero_iff {a b : Bytes} (ha : a.length = 16) (hb : b.length = 16) :
    x16 a b = 0 ↔ a = b := by
  unfold x16
  rw [UInt64.or_eq_zero_iff, UInt64.xor_eq_zero_iff, UInt64.xor_eq_zero_iff]
  constructor
  · rintro ⟨hfirst, hsecond⟩
    apply List.ext_getElem (ha.trans hb.symm)
    intro i hia hib
    rw [← List.getD_eq_getElem a 0 hia, ← List.getD_eq_getElem b 0 hib]
    by_cases hi : i < 8
    · have hbyte := load64Le_inj hfirst i hi
      rw [Nat.zero_add] at hbyte
      exact hbyte
    · have hbyte := load64Le_inj hsecond (i - 8) (by omega)
      rw [show 8 + (i - 8) = i by omega] at hbyte
      exact hbyte
  · rintro rfl
    exact ⟨rfl, rfl⟩

theorem neq0_eq (diff : UInt64) : neq0 diff = if diff = 0 then 0 else -1 := by
  by_cases hzero : diff = 0
  · subst hzero
    rfl
  · have hdiff := diff.toNat_lt
    have hne : diff.toNat ≠ 0 := fun h => hzero (UInt64.toNat_inj.mp h)
    have hhigh : (diff >>> 32).toNat = diff.toNat / 2 ^ 32 := toNat_shiftRight64 diff 32 (by decide)
    have hlow : diff.toUInt32.toUInt64.toNat = diff.toNat % 2 ^ 32 := by
      rw [UInt32.toNat_toUInt64, UInt64.toNat_toUInt32]
    have hhalf : ((diff >>> 32) ||| diff.toUInt32.toUInt64).toNat =
        diff.toNat / 2 ^ 32 ||| diff.toNat % 2 ^ 32 := by
      rw [UInt64.toNat_or, hhigh, hlow]
    unfold neq0
    rw [if_neg hzero]
    generalize (diff >>> 32) ||| diff.toUInt32.toUInt64 = half at *
    have hlt : half.toNat < 2 ^ 32 := by
      rw [hhalf]
      exact Nat.or_lt_two_pow (by omega) (by omega)
    have hpos : half.toNat ≠ 0 := by
      rw [hhalf, Ne, Nat.or_eq_zero_iff]
      omega
    have hshift : (half - 1) >>> 32 = 0 := by
      apply UInt64.toNat_inj.mp
      rw [toNat_shiftRight64 _ 32 (by decide), UInt64.toNat_sub]
      change (2 ^ 64 - 1 + half.toNat) % 2 ^ 64 / 2 ^ 32 = 0
      omega
    dsimp only
    rw [hshift]
    rfl

theorem cryptoVerify16_eq {a b : Bytes} (ha : a.length = 16) (hb : b.length = 16) :
    cryptoVerify16 a b = if a = b then 0 else -1 := by
  unfold cryptoVerify16
  rw [neq0_eq]
  simp only [x16_eq_zero_iff ha hb]

end Verify

section Tag

/-- What the code behind a cipher text is computed from. -/
def authData (ad cipher : Bytes) : Bytes :=
  ad ++ List.replicate ((16 - ad.length % 16) % 16) 0 ++ cipher ++
    List.replicate ((16 - cipher.length % 16) % 16) 0 ++
    (store64Le (UInt64.ofNat ad.length) ++ store64Le (UInt64.ofNat cipher.length))

def polyTag (polyKey ad cipher : Bytes) : Bytes :=
  tagBytes (tag (keyR polyKey) (keyS polyKey) (authData ad cipher))

theorem length_polyTag (polyKey ad cipher : Bytes) : (polyTag polyKey ad cipher).length = 16 := rfl

theorem update_zeros (ctx : WgPoly1305Ctx) (xs : Bytes) (n : Nat) :
    (if n > 0 then wgPoly1305Update (updateBlocks ctx xs) (List.replicate n 0)
      else updateBlocks ctx xs) = updateBlocks ctx (xs ++ List.replicate n 0) := by
  by_cases hn : n > 0
  · rw [if_pos hn, wgPoly1305Update_updateBlocks]
  · have hzero : n = 0 := by omega
    rw [if_neg hn, hzero, List.replicate_zero, List.append_nil]

theorem update_ad (key ad : Bytes) :
    (if ad.length > 0 then
      if (16 - ad.length % 16) % 16 > 0 then
        wgPoly1305Update (wgPoly1305Update (wgPoly1305Init key) ad)
          (List.replicate ((16 - ad.length % 16) % 16) 0)
      else wgPoly1305Update (wgPoly1305Init key) ad
    else wgPoly1305Init key) =
      updateBlocks (wgPoly1305Init key)
        (ad ++ List.replicate ((16 - ad.length % 16) % 16) 0) := by
  have hinit : wgPoly1305Update (wgPoly1305Init key) ad = updateBlocks (wgPoly1305Init key) ad :=
    wgPoly1305Update_eq (wgPoly1305Init key) (Nat.zero_lt_succ 15) ad
  by_cases hpos : ad.length > 0
  · rw [if_pos hpos, hinit, update_zeros]
  · have hnil : ad = [] := List.length_eq_zero_iff.mp (by omega)
    rw [if_neg hpos, hnil]
    exact (updateBlocks_init key).symm

end Tag

section Refinement

def neonStream (key : Key) (counter : UInt64) (len : Nat) : Bytes :=
  keystream (wgChacha20BlockNeon key (buildNonce counter)) (· + 1) 1 len

def neonMac (key : Key) (counter : UInt64) (ad cipher : Bytes) : Bytes :=
  polyTag (wgChacha20BlockNeon key (buildNonce counter) 0) ad cipher

theorem length_neonStream (key : Key) (counter : UInt64) (len : Nat) :
    (neonStream key counter len).length = len :=
  length_keystream (length_wgChacha20BlockNeon key (buildNonce counter)) _ _ _

theorem length_neonMac (key : Key) (counter : UInt64) (ad cipher : Bytes) :
    (neonMac key counter ad cipher).length = 16 := rfl

/-- What is left of a call that finds some text in its input, or none. -/
def openedInto (mem : Memory) (out : Nat) : Option Bytes → Int × Memory
  | some text => (0, write mem out text)
  | none => (-1, mem)

/-- What a call that opens some data does, for any stream and any code. -/
theorem openedInto_iff {stream : Nat → Bytes} {mac : Bytes → Bytes}
    (hstream : ∀ n, (stream n).length = n) (hmac : ∀ cipher, (mac cipher).length = 16)
    (mem : Memory) (out : Nat) (c p : Bytes) :
    let opened := openedInto mem out (unlock stream mac 16 c)
    (opened.1 = 0 ∧ read opened.2 out (c.length - 16) = p ↔ c = lock stream mac p) ∧
      (opened.1 ≠ 0 → opened.2 = mem) := by
  rw [← unlock_eq_some_iff hstream hmac]
  cases hdata : unlock stream mac 16 c with
  | none => simp [openedInto]
  | some text =>
      have hlength : text.length = c.length - 16 := by
        rw [(unlock_eq_some_iff hstream hmac).mp hdata, length_lock hstream hmac,
          Nat.add_sub_cancel]
      simp [openedInto, read_write_of_length _ _ hlength]

variable (mem : Memory) {out inp len : Nat}

/-- The stream cipher as one write. -/
theorem wgChacha20Neon_write (key : Key) (counter : UInt64) (h : Separable out inp len) :
    wgChacha20Neon key (buildNonce counter) mem out inp len 1 =
      write mem out (xorBytes (read mem inp len) (neonStream key counter len)) := by
  rw [wgChacha20Neon_eq mem key _ 1 h]
  unfold xorInto neonStream
  rw [length_keystream (length_wgChacha20BlockNeon key (buildNonce counter))]

theorem wgAeadNeonEncrypt_eq (key : Key) (counter : UInt64) (ad : Bytes)
    (h : Separable out inp len) :
    wgAeadNeonEncrypt mem out key counter inp len ad =
      (0, write mem out
        (lock (neonStream key counter) (neonMac key counter ad) (read mem inp len))) := by
  unfold wgAeadNeonEncrypt
  dsimp only
  rw [wgChacha20Neon_write mem key counter h, update_ad]
  unfold lock
  dsimp only
  rw [length_read]
  generalize hcipher : xorBytes (read mem inp len) (neonStream key counter len) = cipher
  have hlen : cipher.length = len := by
    rw [← hcipher, length_xorBytes, length_read, length_neonStream, Nat.min_self]
  subst hlen
  rw [read_write, wgPoly1305Update_updateBlocks, update_zeros, wgPoly1305Update_updateBlocks,
    wgPoly1305Final_updateBlocks, write_append]
  rfl

theorem wgAeadNeonDecrypt_eq (key : Key) (counter : UInt64) (ad : Bytes)
    (h : Separable out inp (len - 16)) :
    wgAeadNeonDecrypt mem out key counter inp len ad =
      openedInto mem out
        (unlock (neonStream key counter) (neonMac key counter ad) 16 (read mem inp len)) := by
  unfold wgAeadNeonDecrypt unlock
  rw [length_read]
  by_cases hshort : len < 16
  · rw [if_pos hshort, if_pos hshort]
    rfl
  · obtain ⟨n, rfl⟩ : ∃ n, len = n + 16 := ⟨len - 16, by omega⟩
    rw [Nat.add_sub_cancel] at h
    rw [if_neg hshort, if_neg hshort, Nat.add_sub_cancel, take_read mem inp (Nat.le_add_right n 16),
      drop_read]
    dsimp only
    rw [length_read, wgChacha20Neon_write mem key counter h, update_ad,
      wgPoly1305Update_updateBlocks, update_zeros, wgPoly1305Update_updateBlocks,
      wgPoly1305Final_updateBlocks]
    unfold neonMac polyTag authData
    rw [length_read, cryptoVerify16_eq rfl (length_read ..)]
    split
    · rfl
    · rfl

end Refinement

section Acceptance

/-- A cipher text is accepted with some plain text exactly if encryption of the plain text
gives it.  The buffers of either call may be one buffer.  What is refused leaves the memory
as it is. -/
theorem aead_accepts_iff_encrypted (key : Key) (counter : UInt64) (ad c p : Bytes)
    (mem : Memory) (out ciphertext : Nat) (hc : read mem ciphertext c.length = c)
    (hsep : Separable out ciphertext (c.length - 16))
    (mem' : Memory) (out' plaintext : Nat) (hp : read mem' plaintext p.length = p)
    (hsep' : Separable out' plaintext p.length) :
    let decrypted := wgAeadNeonDecrypt mem out key counter ciphertext c.length ad
    let encrypted := wgAeadNeonEncrypt mem' out' key counter plaintext p.length ad
    (decrypted.1 = 0 ∧ read decrypted.2 out (c.length - 16) = p ↔
      c = read encrypted.2 out' (p.length + 16)) ∧
      (decrypted.1 ≠ 0 → decrypted.2 = mem) := by
  have hlock := length_lock (length_neonStream key counter) (length_neonMac key counter ad) p
  have hencrypted : read (wgAeadNeonEncrypt mem' out' key counter plaintext p.length ad).2 out'
      (p.length + 16) = lock (neonStream key counter) (neonMac key counter ad) p := by
    rw [wgAeadNeonEncrypt_eq mem' key counter ad hsep', hp]
    exact read_write_of_length _ _ hlock
  dsimp only
  rw [hencrypted, wgAeadNeonDecrypt_eq mem key counter ad hsep, hc]
  exact openedInto_iff (length_neonStream key counter) (length_neonMac key counter ad) mem out c p

/-- Three bytes encrypted in place and decrypted in place. -/
theorem aead_accepts_iff_encrypted_in_place :
    let key : Key := Vector.replicate 32 7
    let plain := write (fun _ => 0) 64 [1, 2, 3]
    let sealed := (wgAeadNeonEncrypt plain 64 key 5 64 3 [9]).2
    let opened := wgAeadNeonDecrypt sealed 64 key 5 64 19 [9]
    opened.1 = 0 ∧ read opened.2 64 3 = [1, 2, 3] :=
  ((aead_accepts_iff_encrypted (Vector.replicate 32 7) 5 [9]
    (read (wgAeadNeonEncrypt (write (fun _ => 0) 64 [1, 2, 3]) 64 (Vector.replicate 32 7) 5 64 3
      [9]).2 64 19) [1, 2, 3]
    (wgAeadNeonEncrypt (write (fun _ => 0) 64 [1, 2, 3]) 64 (Vector.replicate 32 7) 5 64 3 [9]).2
    64 64 (congrArg (read _ 64) (length_read ..)) (Or.inl rfl)
    (write (fun _ => 0) 64 [1, 2, 3]) 64 64 (read_write ..) (Or.inl rfl)).1).mpr rfl

end Acceptance

end WgNx.AeadNeon
