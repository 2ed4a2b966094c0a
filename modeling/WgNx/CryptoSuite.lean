import WgNx.AeadContext
import WgNx.Blake2Stream
import WgNx.CryptoPrimitives
import WgNx.NoiseHandshake
import WgNx.X25519

/-!
The primitives of the protocol as the repository computes them.

The key derivation functions are the first outputs of HKDF, whichever of their buffers
coincide.  With them, the hash, both AEADs and X25519 put together, what the protocol
assumes of its primitives is a theorem about this code.
-/

namespace WgNx.CryptoSuite

open WgNx.AeadContext
open WgNx.AeadNeon
open WgNx.AeadPortable
open WgNx.Blake2Stream
open WgNx.ByteLayout
open WgNx.ByteMemory
open WgNx.CryptoPrimitives
open WgNx.EncryptThenMac
open WgNx.NoiseHandshake
open WgNx.TunnelState
open WgNx.WireMessages

section Model

variable (neon : Bool)

def wgMac (key data : Bytes) : Bytes := blake2s neon 16 data key

/-- The calls of `wg_hmac` behind the first one, each for the output before it with a number. -/
def expandInto (temp : Bytes) (mem : Memory) (t : Bytes) (count : UInt8) : List Nat → Memory
  | [] => mem
  | out :: outs =>
      let mem := write mem out (wgHmac neon 32 temp (t ++ [count]))
      expandInto temp mem (read mem out 32) (count + 1) outs

/-- The family `wg_kdf1`, `wg_kdf2` and `wg_kdf3`; the arrays `temp`, `t1` and `t2` are local. -/
def kdf (mem : Memory) (outs : List Nat) (key input inputLen : Nat) : Memory :=
  let temp := wgHmac neon 32 (read mem key 32) (read mem input inputLen)
  expandInto neon temp mem [] 1 outs

def wgKdf1 (mem : Memory) (out key input inputLen : Nat) : Memory :=
  kdf neon mem [out] key input inputLen

def wgKdf2 (mem : Memory) (out1 out2 key input inputLen : Nat) : Memory :=
  kdf neon mem [out1, out2] key input inputLen

def wgKdf3 (mem : Memory) (out1 out2 out3 key input inputLen : Nat) : Memory :=
  kdf neon mem [out1, out2, out3] key input inputLen

def wgMixKey (mem : Memory) (chainingKey input len : Nat) : Memory :=
  wgKdf2 neon mem chainingKey chainingKey chainingKey input len

end Model

section Derivation

/-- HMAC over BLAKE2s. -/
def hmac (key data : Bytes) : Bytes := Blake2s.hmac (Blake2s.digest 32 []) 64 key data

/-- The outputs of HKDF, counted from one. -/
def hkdfBlock (salt input : Bytes) : Nat → Bytes
  | 0 => []
  | i + 1 => hmac (hmac salt input) (hkdfBlock salt input i ++ [UInt8.ofNat (i + 1)])

theorem length_digest (message : Bytes) : (Blake2s.digest 32 [] message).length = 32 := by
  simp [Blake2s.digest, Blake2s.digestFrom, Blake2s.wordsToBytes, List.length_flatMap]

theorem length_hmac (key data : Bytes) : (hmac key data).length = 32 := length_digest _

theorem length_hkdfBlock (salt input : Bytes) (i : Nat) :
    (hkdfBlock salt input (i + 1)).length = 32 := length_hmac _ _

variable (neon : Bool)

/-- Each output in turn, from the number `i` on. -/
def writeOutputs (block : Nat → Bytes) (mem : Memory) : Nat → List Nat → Memory
  | _, [] => mem
  | i, out :: outs => writeOutputs block (write mem out (block (i + 1))) (i + 1) outs

theorem expandInto_eq (salt input : Bytes) (mem : Memory) (i : Nat) (outs : List Nat) :
    expandInto neon (hmac salt input) mem (hkdfBlock salt input i) (UInt8.ofNat (i + 1)) outs =
      writeOutputs (hkdfBlock salt input) mem i outs := by
  induction outs generalizing mem i with
  | nil => rfl
  | cons out outs ih =>
      have hkey : (hmac salt input).length ≤ 64 := by
        rw [length_hmac]
        decide
      have hblock : wgHmac neon 32 (hmac salt input)
          (hkdfBlock salt input i ++ [UInt8.ofNat (i + 1)]) = hkdfBlock salt input (i + 1) :=
        wgHmac_eq_hmac neon hkey _
      have hcount : UInt8.ofNat (i + 1) + 1 = UInt8.ofNat (i + 1 + 1) := by
        rw [UInt8.ofNat_add (i + 1) 1]
        rfl
      rw [expandInto, hblock, read_write_of_length _ _ (length_hkdfBlock salt input i), hcount, ih]
      rfl

/-- The key and the input are read before the first output is written. -/
theorem kdf_eq (mem : Memory) (outs : List Nat) (key input inputLen : Nat) :
    kdf neon mem outs key input inputLen =
      writeOutputs (hkdfBlock (read mem key 32) (read mem input inputLen)) mem 0 outs := by
  have hkey : (read mem key 32).length ≤ 64 := by
    rw [length_read]
    decide
  unfold kdf
  rw [wgHmac_eq_hmac neon hkey]
  exact expandInto_eq neon _ _ mem 0 outs

/-- Two buffers of 32 bytes without a byte in common. -/
def Apart (a b : Nat) : Prop := a + 32 ≤ b ∨ b + 32 ≤ a

theorem read_writeOutputs_of_apart {block : Nat → Bytes} (hblock : ∀ i, (block (i + 1)).length = 32)
    {addr : Nat} {outs : List Nat} (h : ∀ out ∈ outs, Apart addr out) (mem : Memory) (i : Nat) :
    read (writeOutputs block mem i outs) addr 32 = read mem addr 32 := by
  induction outs generalizing mem i with
  | nil => rfl
  | cons out outs ih =>
      have hout := h out List.mem_cons_self
      rw [writeOutputs, ih fun out' hmem => h out' (List.mem_cons_of_mem _ hmem)]
      apply read_write_of_apart
      rw [hblock]
      exact hout.symm

theorem read_writeOutputs {block : Nat → Bytes} (hblock : ∀ i, (block (i + 1)).length = 32)
    (before : List Nat) {out : Nat} {after : List Nat} (h : ∀ out' ∈ after, Apart out out')
    (mem : Memory) (i : Nat) :
    read (writeOutputs block mem i (before ++ out :: after)) out 32 =
      block (i + before.length + 1) := by
  induction before generalizing mem i with
  | nil =>
      rw [List.nil_append, writeOutputs, read_writeOutputs_of_apart hblock h,
        read_write_of_length _ _ (hblock i)]
      rfl
  | cons first before ih =>
      rw [List.cons_append, writeOutputs, ih, List.length_cons]
      congr 1
      omega

/-- An output that no later one overwrites is the output of HKDF with its number, even where it is
written over the key or the input. -/
theorem kdf_output (mem : Memory) (before : List Nat) (out : Nat) (after : List Nat)
    (key input inputLen : Nat) (h : ∀ out' ∈ after, Apart out out') :
    read (kdf neon mem (before ++ out :: after) key input inputLen) out 32 =
      hkdfBlock (read mem key 32) (read mem input inputLen) (before.length + 1) := by
  rw [kdf_eq, read_writeOutputs (length_hkdfBlock _ _) before h, Nat.zero_add]

/-- The first output written over the key with a second one elsewhere; and `wg_mix_key`, which has
one buffer for everything and leaves the second output there, where the chaining key of the protocol
is the first. -/
theorem kdf_output_over_key :
    read (wgKdf2 true (fun _ => 0) 0 64 0 32 32) 0 32 =
        hkdfBlock (read (fun _ => 0) 0 32) (read (fun _ => 0) 32 32) 1 ∧
      read (wgMixKey true (fun _ => 0) 0 32 32) 0 32 =
        hkdfBlock (read (fun _ => 0) 0 32) (read (fun _ => 0) 32 32) 2 :=
  ⟨kdf_output true (fun _ => 0) [] 0 [64] 0 32 32 (by simp [Apart]),
    kdf_output true (fun _ => 0) [0] 0 [] 0 32 32 (by simp)⟩

end Derivation

section Suite

/-- The memory of a key at the address zero with an input behind it. -/
def keyAndInput (key : Hash) (input : Bytes) : Memory :=
  write (write (fun _ => 0) 0 key.toList) 32 input

variable (available neon : Bool)

/-- The primitives of the repository, with the AEAD in place and the first output of a key
derivation written over its key, as `wg_noise.c` calls them. -/
def suite : Primitives where
  cryptoX25519 secret publicKey :=
    (X25519.cryptoX25519 secret publicKey).getD (Vector.replicate 32 0)
  cryptoX25519PublicKey secret :=
    (X25519.cryptoX25519PublicKey secret).getD (Vector.replicate 32 0)
  wgHash data := field (Blake2Stream.wgHash neon data) 0 32
  wgHash2 a b := field (Blake2Stream.wgHash2 neon a b) 0 32
  wgMac key data := field (wgMac neon key data) 0 16
  wgKdf1 key input :=
    let mem := wgKdf1 neon (keyAndInput key input) 0 0 32 input.length
    field (read mem 0 32) 0 32
  wgKdf2 key input :=
    let out2 := 32 + input.length
    let mem := wgKdf2 neon (keyAndInput key input) 0 out2 0 32 input.length
    (field (read mem 0 32) 0 32, field (read mem out2 32) 0 32)
  wgKdf3 key input :=
    let out2 := 32 + input.length
    let out3 := out2 + 32
    let mem := wgKdf3 neon (keyAndInput key input) 0 out2 out3 0 32 input.length
    (field (read mem 0 32) 0 32, field (read mem out2 32) 0 32, field (read mem out3 32) 0 32)
  wgAeadEncrypt {n} key counter plaintext ad :=
    let mem := write (fun _ => 0) 0 plaintext.toList
    let mem := (AeadPortable.wgAeadEncrypt available mem 0 key counter 0 n ad).2
    field (read mem 0 (n + 16)) 0 (n + 16)
  wgAeadDecrypt {n} key counter ciphertext ad :=
    let mem := write (fun _ => 0) 0 ciphertext.toList
    let (result, mem) := AeadPortable.wgAeadDecrypt available mem 0 key counter 0 (n + 16) ad
    if result = 0 then some (field (read mem 0 n) 0 n) else none
  wgXaeadDecrypt key nonce ciphertext ad :=
    let mem := write (fun _ => 0) 0 ciphertext.toList
    let (result, mem) := AeadContext.wgXaeadDecrypt mem 0 key nonce 0 32 ad
    if result = 0 then some (field (read mem 0 16) 0 16) else none

theorem read_keyAndInput (key : Hash) (input : Bytes) :
    read (keyAndInput key input) 0 32 = key.toList ∧
      read (keyAndInput key input) 32 input.length = input := by
  have hkey : key.toList.length = 32 := key.length_toList
  unfold keyAndInput
  refine ⟨?_, read_write ..⟩
  rw [read_write_of_apart _ (Or.inr (Nat.le_refl 32)), read_write_of_length _ 0 hkey]

/-- The chaining keys and the keys of the handshake are outputs of HKDF. -/
theorem suite_kdf (key : Hash) (input : Bytes) :
    let output i := field (hkdfBlock key.toList input i) 0 32
    (suite available neon).wgKdf1 key input = output 1 ∧
      (suite available neon).wgKdf2 key input = (output 1, output 2) ∧
      (suite available neon).wgKdf3 key input = (output 1, output 2, output 3) := by
  obtain ⟨hkey, hinput⟩ := read_keyAndInput key input
  have hread : ∀ outs, kdf neon (keyAndInput key input) outs 0 32 input.length =
      writeOutputs (hkdfBlock key.toList input) (keyAndInput key input) 0 outs := by
    intro outs
    rw [kdf_eq, hkey, hinput]
  have hout : ∀ (before : List Nat) (out : Nat) (after : List Nat),
      (∀ out' ∈ after, Apart out out') →
      read (kdf neon (keyAndInput key input) (before ++ out :: after) 0 32 input.length) out 32 =
        hkdfBlock key.toList input (before.length + 1) := by
    intro before out after h
    rw [hread, read_writeOutputs (length_hkdfBlock key.toList input) before h, Nat.zero_add]
  have hfirst : Apart 0 (32 + input.length) := Or.inl (Nat.le_add_right ..)
  have hthird : Apart 0 (32 + input.length + 32) := Or.inl (by omega)
  have hsecond : Apart (32 + input.length) (32 + input.length + 32) := Or.inl (Nat.le_refl _)
  have hfield : ∀ {a b : Bytes}, a = b → field a 0 32 = field b 0 32 := fun h => by rw [h]
  refine ⟨hfield (hout [] 0 [] (by simp)), Prod.ext ?_ ?_, Prod.ext ?_ (Prod.ext ?_ ?_)⟩
  · exact hfield (hout [] 0 [32 + input.length] (by simp [hfirst]))
  · exact hfield (hout [0] (32 + input.length) [] (by simp))
  · exact hfield (hout [] 0 [32 + input.length, 32 + input.length + 32] (by simp [hfirst, hthird]))
  · exact hfield (hout [0] (32 + input.length) [32 + input.length + 32] (by simp [hsecond]))
  · exact hfield (hout [0, 32 + input.length] (32 + input.length + 32) [] (by simp))

/-- The key stream of the AEAD that `wg_aead_encrypt` selects. -/
def aeadStream (key : Key) (counter : UInt64) : Nat → Bytes :=
  if available then neonStream key counter
  else contextStream (cryptoAeadInitIetf key (counterNonce counter))

def aeadMac (key : Key) (counter : UInt64) (ad : Bytes) : Bytes → Bytes :=
  if available then neonMac key counter ad
  else contextMac (cryptoAeadInitIetf key (counterNonce counter)) ad

theorem length_aeadStream (key : Key) (counter : UInt64) (len : Nat) :
    (aeadStream available key counter len).length = len := by
  cases available
  · exact length_contextStream _ len
  · exact length_neonStream key counter len

theorem length_aeadMac (key : Key) (counter : UInt64) (ad cipher : Bytes) :
    (aeadMac available key counter ad cipher).length = 16 := by
  cases available <;> rfl

variable (mem : Memory) {out inp len : Nat}

theorem wgAeadEncrypt_lock (key : Key) (counter : UInt64) (ad : Bytes)
    (h : Separable out inp len) :
    AeadPortable.wgAeadEncrypt available mem out key counter inp len ad =
      (0, write mem out (lock (aeadStream available key counter)
        (aeadMac available key counter ad) (read mem inp len))) := by
  cases available with
  | true =>
      rw [AeadPortable.wgAeadEncrypt, if_pos rfl, wgAeadNeonEncrypt_eq mem key counter ad h]
      rfl
  | false =>
      have hcipher := length_cipher (cryptoAeadInitIetf key (counterNonce counter))
        (read mem inp len)
      have hwrite := write_append mem out (xorBytes (read mem inp len)
        (contextStream (cryptoAeadInitIetf key (counterNonce counter)) len))
      rw [length_read] at hcipher
      rw [hcipher] at hwrite
      unfold AeadPortable.wgAeadEncrypt
      rw [if_neg Bool.false_ne_true]
      dsimp only
      rw [cryptoAeadWrite_eq _ mem ad h]
      dsimp only
      rw [← hwrite]
      unfold lock
      rw [length_read]
      rfl

theorem wgAeadDecrypt_unlock (key : Key) (counter : UInt64) (ad : Bytes)
    (h : Separable out inp len) :
    AeadPortable.wgAeadDecrypt available mem out key counter inp (len + 16) ad =
      openedInto mem out (unlock (aeadStream available key counter)
        (aeadMac available key counter ad) 16 (read mem inp (len + 16))) := by
  have hlong : ¬len + 16 < 16 := by omega
  unfold AeadPortable.wgAeadDecrypt
  rw [if_neg hlong]
  cases available with
  | true =>
      rw [if_pos rfl, wgAeadNeonDecrypt_eq mem key counter ad (by rwa [Nat.add_sub_cancel])]
      rfl
  | false =>
      rw [if_neg Bool.false_ne_true]
      unfold unlock
      rw [length_read, if_neg hlong, Nat.add_sub_cancel,
        take_read mem inp (Nat.le_add_right len 16), drop_read]
      dsimp only
      rw [cryptoAeadRead_eq _ mem ad (length_read ..) h, length_read]
      unfold aeadMac aeadStream
      rw [if_neg Bool.false_ne_true, if_neg Bool.false_ne_true]
      split <;> rfl

/-- What the protocol assumes of its primitives holds of this code. -/
theorem suite_lawful : (suite available neon).Lawful where
  x25519_comm := by
    intro a b
    obtain ⟨pa, pb, shared, hpa, hpb, ha, hb⟩ :=
      X25519.exchange_agrees a b X25519.basePoint
    have hkeyA : X25519.cryptoX25519PublicKey a = some pa := hpa
    have hkeyB : X25519.cryptoX25519PublicKey b = some pb := hpb
    simp only [suite]
    rw [hkeyA, hkeyB, Option.getD_some, Option.getD_some, ha, hb]
  aead_roundtrip := by
    intro n key counter plaintext ad
    have hlength : plaintext.toList.length = n := plaintext.length_toList
    have hlock := length_lock (length_aeadStream available key counter)
      (length_aeadMac available key counter ad) plaintext.toList
    have hunlock := unlock_lock (length_aeadStream available key counter)
      (length_aeadMac available key counter ad) plaintext.toList
    rw [hlength] at hlock
    simp only [suite]
    rw [wgAeadEncrypt_lock available _ key counter ad (Or.inl rfl),
      read_write_of_length _ 0 hlength, read_write_of_length _ 0 hlock, field_all hlock,
      wgAeadDecrypt_unlock available _ key counter ad (Or.inl rfl),
      read_write_of_length _ 0 hlock, hunlock]
    simp only [openedInto]
    rw [read_write_of_length _ 0 hlength, field_toList]
    rfl

end Suite

section Cookies

variable (available neon : Bool)

/-- A cookie locked for the code of an INIT. -/
def cookieBox (key : Key) (nonce : ByteVec 24) (cookie mac1 : Mac) : ByteVec 32 :=
  let locked := cryptoAeadLock (write (fun _ => 0) 0 cookie.toList) 0 key nonce mac1.toList 0 16
  field (read locked.2 0 16 ++ locked.1) 0 32

theorem cookieBox_toList (key : Key) (nonce : ByteVec 24) (cookie mac1 : Mac) :
    (cookieBox key nonce cookie mac1).toList =
      sealedBy (cryptoAeadInitX key nonce) mac1.toList cookie.toList := by
  have hcookie : cookie.toList.length = 16 := cookie.length_toList
  unfold cookieBox cryptoAeadLock sealedBy
  generalize cryptoAeadInitX key nonce = ctx
  have hcipher := length_cipher ctx cookie.toList
  have hsealed := length_lock (length_contextStream ctx) (length_contextMac ctx mac1.toList)
    cookie.toList
  rw [hcookie] at hcipher hsealed
  dsimp only
  rw [cryptoAeadWrite_eq _ _ _ (Or.inl rfl), read_write_of_length _ 0 hcookie]
  dsimp only
  rw [read_write_of_length _ 0 hcipher, ← field_all hsealed]
  unfold lock
  rw [hcookie]

theorem wgXaeadDecrypt_suite (key : Key) (nonce : ByteVec 24) (sealed : ByteVec 32)
    (cookie mac1 : Mac) :
    (suite available neon).wgXaeadDecrypt key nonce sealed mac1.toList = some cookie ↔
      sealed = cookieBox key nonce cookie mac1 := by
  have hlength : sealed.toList.length = 32 := sealed.length_toList
  rw [← Vector.toList_inj, cookieBox_toList, sealedBy]
  simp only [suite]
  rw [wgXaeadDecrypt_eq _ _ key nonce (Or.inl rfl), read_write_of_length _ 0 hlength]
  generalize cryptoAeadInitX key nonce = ctx
  rw [← (openedInto_iff (length_contextStream ctx) (length_contextMac ctx mac1.toList)
    (write (fun _ => 0) 0 sealed.toList) 0 sealed.toList cookie.toList).1, hlength]
  generalize openedInto _ _ _ = opened
  have hfield : field (read opened.2 0 16) 0 16 = cookie ↔ read opened.2 0 16 = cookie.toList := by
    rw [← Vector.toList_inj, field_all (length_read ..)]
  by_cases hcode : opened.1 = 0
  · simp [hcode, hfield]
  · simp [hcode]

/-- A cookie reply is accepted with some cookie exactly if it is addressed to the index of the
session and the cookie was locked with the key of the peer for the last code sent. -/
theorem cookie_reply_accepted_iff (tun : WgTunnel) (msg : WgCookieReply) (now : UInt64)
    (cookie : Mac) :
    let result := wgProcessCookieReply (suite available neon) tun msg now
    (result.1 = .ok ∧ result.2.cookie = cookie ↔
      msg.type = wgMsgCookieReply ∧ msg.receiverIndex = tun.session.localIndex ∧
        msg.encryptedCookie =
          cookieBox ((suite available neon).wgHash2 wgLabelCookie tun.peerPublic.toList)
            msg.nonce cookie tun.lastMac1) ∧
      (result.1 = .ok → result.2 = { tun with
        cookie := result.2.cookie, hasCookie := true, cookieTimestamp := now }) ∧
      (result.1 ≠ .ok → result.2 = tun) := by
  rw [← wgXaeadDecrypt_suite available neon]
  unfold wgProcessCookieReply
  by_cases htype : msg.type = wgMsgCookieReply
  · by_cases hindex : msg.receiverIndex = tun.session.localIndex
    · simp only [htype, hindex, ne_eq, not_true_eq_false, if_false, true_and]
      cases (suite available neon).wgXaeadDecrypt
        ((suite available neon).wgHash2 wgLabelCookie tun.peerPublic.toList) msg.nonce
        msg.encryptedCookie tun.lastMac1.toList <;> simp
    · simp [htype, hindex]
  · simp [htype]

end Cookies

end WgNx.CryptoSuite
