import WgNx.AeadPortable

/-!
The AEAD of the portable library under an extended nonce, and its running context.

A cookie is opened with a key that depends on the first 16 bytes of its nonce.  Each
text that is written or accepted replaces the key of the context, so both ends stay
together exactly as long as the one accepts what the other wrote.
-/

namespace WgNx.AeadContext

open WgNx.AeadNeon
open WgNx.AeadPortable
open WgNx.ByteLayout
open WgNx.ByteMemory
open WgNx.ChaChaBlock
open WgNx.ChaChaStream
open WgNx.EncryptThenMac
open WgNx.WireMessages
open WgNx.WordBytes

section Model

/-- The words `crypto_chacha20_h` starts from. -/
def hInput (key : Key) (inp : ByteVec 16) : Words where
  t0 := load32Le chacha20Constant 0
  t1 := load32Le chacha20Constant 4
  t2 := load32Le chacha20Constant 8
  t3 := load32Le chacha20Constant 12
  t4 := load32Le key.toList 0
  t5 := load32Le key.toList 4
  t6 := load32Le key.toList 8
  t7 := load32Le key.toList 12
  t8 := load32Le key.toList 16
  t9 := load32Le key.toList 20
  t10 := load32Le key.toList 24
  t11 := load32Le key.toList 28
  t12 := load32Le inp.toList 0
  t13 := load32Le inp.toList 4
  t14 := load32Le inp.toList 8
  t15 := load32Le inp.toList 12

def cryptoChacha20H (key : Key) (inp : ByteVec 16) : Key :=
  let block := (chacha20Rounds (hInput key inp)).toList
  field ((block.take 4 ++ block.drop 12).flatMap store32Le) 0 32

def cryptoAeadInitX (key : Key) (nonce : ByteVec 24) : CryptoAeadCtx where
  key := cryptoChacha20H key (field nonce.toList 0 16)
  nonce := field nonce.toList 16 8
  counter := 0

/-- Returns the code and the memory. -/
def cryptoAeadLock (mem : Memory) (cipherText : Nat) (key : Key) (nonce : ByteVec 24) (ad : Bytes)
    (plainText textSize : Nat) : Bytes × Memory :=
  let ctx := cryptoAeadInitX key nonce
  let (_, mac, mem) := cryptoAeadWrite ctx mem cipherText ad plainText textSize
  (mac, mem)

def wgXaeadDecrypt (mem : Memory) (out : Nat) (key : Key) (nonce : ByteVec 24)
    (ciphertext ciphertextLen : Nat) (ad : Bytes) : Int × Memory :=
  if ciphertextLen < 16 then (-1, mem)
  else
    let plaintextLen := ciphertextLen - 16
    let mac := ciphertext + plaintextLen
    let ctx := cryptoAeadInitX key nonce
    let (result, _, mem) :=
      cryptoAeadRead ctx mem out (read mem mac 16) ad ciphertext plaintextLen
    (result, mem)

end Model

section Refinement

/-- The first block of the context: the key of the code and the next key. -/
def firstBlock (ctx : CryptoAeadCtx) : Bytes := djbBlock (djbInput ctx.key ctx.nonce ctx.counter)

def contextStream (ctx : CryptoAeadCtx) (len : Nat) : Bytes :=
  keystream djbBlock nextInput (djbInput ctx.key ctx.nonce (ctx.counter + 1)) len

def contextMac (ctx : CryptoAeadCtx) (ad cipher : Bytes) : Bytes :=
  polyTag (firstBlock ctx) ad cipher

/-- The context after a text. -/
def rekeyed (ctx : CryptoAeadCtx) : CryptoAeadCtx :=
  { ctx with key := field (firstBlock ctx) 32 32 }

theorem length_contextStream (ctx : CryptoAeadCtx) (len : Nat) :
    (contextStream ctx len).length = len :=
  length_keystream length_djbBlock _ _ _

theorem length_contextMac (ctx : CryptoAeadCtx) (ad cipher : Bytes) :
    (contextMac ctx ad cipher).length = 16 := rfl

theorem authKeyOf_context (ctx : CryptoAeadCtx) : authKeyOf ctx = firstBlock ctx := by
  unfold authKeyOf
  rw [cryptoChacha20Djb_none]
  exact read_write ..

variable (ctx : CryptoAeadCtx) (mem : Memory) {out inp len : Nat} (ad : Bytes)

theorem cryptoChacha20Djb_context (h : Separable out inp len) :
    (cryptoChacha20Djb mem out (some inp) len ctx.key ctx.nonce (ctx.counter + 1)).2 =
      write mem out (xorBytes (read mem inp len) (contextStream ctx len)) := by
  rw [cryptoChacha20Djb_some mem ctx.key _ _ h]
  unfold xorInto contextStream
  rw [length_keystream length_djbBlock]

theorem length_cipher (text : Bytes) :
    (xorBytes text (contextStream ctx text.length)).length = text.length :=
  length_xor_stream (length_contextStream ctx) text

theorem cryptoAeadWrite_eq (h : Separable out inp len) :
    let cipher := xorBytes (read mem inp len) (contextStream ctx len)
    cryptoAeadWrite ctx mem out ad inp len =
      (rekeyed ctx, contextMac ctx ad cipher, write mem out cipher) := by
  have hlen := length_cipher ctx (read mem inp len)
  rw [length_read] at hlen
  unfold cryptoAeadWrite
  dsimp only
  rw [authKeyOf_context, cryptoChacha20Djb_context ctx mem h, lockAuth_eq,
    read_write_of_length _ _ hlen]
  rfl

theorem cryptoAeadRead_eq {mac : Bytes} (hmac : mac.length = 16) (h : Separable out inp len) :
    cryptoAeadRead ctx mem out mac ad inp len =
      if contextMac ctx ad (read mem inp len) = mac then
        (0, rekeyed ctx, write mem out (xorBytes (read mem inp len) (contextStream ctx len)))
      else (-1, ctx, mem) := by
  unfold cryptoAeadRead
  dsimp only
  rw [authKeyOf_context, cryptoChacha20Djb_context ctx mem h, lockAuth_eq,
    cryptoVerify16_eq hmac (length_polyTag ..)]
  unfold contextMac
  by_cases htag : polyTag (firstBlock ctx) ad (read mem inp len) = mac
  · rw [if_pos htag, if_pos htag.symm, if_pos rfl]
    rfl
  · rw [if_neg htag, if_neg (Ne.symm htag)]
    rfl

theorem wgXaeadDecrypt_eq (key : Key) (nonce : ByteVec 24) (h : Separable out inp (len - 16)) :
    wgXaeadDecrypt mem out key nonce inp len ad =
      openedInto mem out (unlock (contextStream (cryptoAeadInitX key nonce))
        (contextMac (cryptoAeadInitX key nonce) ad) 16 (read mem inp len)) := by
  unfold wgXaeadDecrypt unlock
  rw [length_read]
  by_cases hshort : len < 16
  · rw [if_pos hshort, if_pos hshort]
    rfl
  · obtain ⟨n, rfl⟩ : ∃ n, len = n + 16 := ⟨len - 16, by omega⟩
    rw [Nat.add_sub_cancel] at h
    rw [if_neg hshort, if_neg hshort, Nat.add_sub_cancel, take_read mem inp (Nat.le_add_right n 16),
      drop_read]
    dsimp only
    rw [cryptoAeadRead_eq _ mem ad (length_read ..) h, length_read]
    split <;> rfl

end Refinement

section Acceptance

/-- A cookie is opened with some text exactly if `crypto_aead_lock` makes the cipher text and the
code of it; what is refused leaves the memory as it is. -/
theorem xaead_accepts_iff_locked (key : Key) (nonce : ByteVec 24) (ad c p : Bytes)
    (mem : Memory) (out ciphertext : Nat) (hc : read mem ciphertext c.length = c)
    (hsep : Separable out ciphertext (c.length - 16))
    (mem' : Memory) (out' plaintext : Nat) (hp : read mem' plaintext p.length = p)
    (hsep' : Separable out' plaintext p.length) :
    let decrypted := wgXaeadDecrypt mem out key nonce ciphertext c.length ad
    let locked := cryptoAeadLock mem' out' key nonce ad plaintext p.length
    (decrypted.1 = 0 ∧ read decrypted.2 out (c.length - 16) = p ↔
      c = read locked.2 out' p.length ++ locked.1) ∧
      (decrypted.1 ≠ 0 → decrypted.2 = mem) := by
  have hlocked : read (cryptoAeadLock mem' out' key nonce ad plaintext p.length).2 out' p.length ++
      (cryptoAeadLock mem' out' key nonce ad plaintext p.length).1 =
        lock (contextStream (cryptoAeadInitX key nonce))
          (contextMac (cryptoAeadInitX key nonce) ad) p := by
    unfold cryptoAeadLock
    dsimp only
    rw [cryptoAeadWrite_eq _ mem' ad hsep', hp]
    dsimp only
    rw [read_write_of_length _ _ (length_cipher ..)]
    rfl
  dsimp only
  rw [hlocked, wgXaeadDecrypt_eq mem ad key nonce hsep, hc]
  exact openedInto_iff (length_contextStream _) (length_contextMac _ ad) mem out c p

/-- Three bytes locked in place and opened in place. -/
theorem xaead_accepts_iff_locked_in_place :
    let key : Key := Vector.replicate 32 7
    let nonce : ByteVec 24 := Vector.replicate 24 1
    let plain := write (fun _ => 0) 64 [1, 2, 3]
    let locked := cryptoAeadLock plain 64 key nonce [9] 64 3
    let sealed := read locked.2 64 3 ++ locked.1
    let opened := wgXaeadDecrypt (write (fun _ => 0) 64 sealed) 64 key nonce 64 19 [9]
    opened.1 = 0 ∧ read opened.2 64 3 = [1, 2, 3] := by
  intro key nonce plain locked sealed opened
  have hlength : sealed.length = 19 := by
    rw [List.length_append, length_read]
    rfl
  have haccepted := xaead_accepts_iff_locked key nonce [9] sealed [1, 2, 3]
    (write (fun _ => 0) 64 sealed) 64 64 (read_write ..) (Or.inl rfl) plain 64 64
    (read_write ..) (Or.inl rfl)
  rw [hlength] at haccepted
  exact haccepted.1.mpr rfl

end Acceptance

section Runs

/-- The buffers of a call: the text it reads and the place it writes to. -/
structure Buffers where
  mem : Memory
  out : Nat
  inp : Nat
  len : Nat
  separable : Separable out inp len

def Buffers.text (b : Buffers) : Bytes := read b.mem b.inp b.len

structure WriteCall extends Buffers where
  ad : Bytes

structure ReadCall extends Buffers where
  ad : Bytes
  mac : ByteVec 16

/-- The cipher text and the code that a call is given. -/
def ReadCall.data (c : ReadCall) : Bytes := c.text ++ c.mac.toList

/-- Writes one text after the other; the cipher texts with their codes. -/
def writeRun (ctx : CryptoAeadCtx) : List WriteCall → CryptoAeadCtx × List Bytes
  | [] => (ctx, [])
  | c :: calls =>
      let (ctx, mac, mem) := cryptoAeadWrite ctx c.mem c.out c.ad c.inp c.len
      let (ctx, sealed) := writeRun ctx calls
      (ctx, (read mem c.out c.len ++ mac) :: sealed)

/-- Reads what arrives; the calls that succeed with their texts. -/
def readRun (ctx : CryptoAeadCtx) : List ReadCall → CryptoAeadCtx × List (ReadCall × Bytes)
  | [] => (ctx, [])
  | c :: calls =>
      let (mismatch, ctx, mem) := cryptoAeadRead ctx c.mem c.out c.mac.toList c.ad c.inp c.len
      let (ctx, accepted) := readRun ctx calls
      (ctx, if mismatch = 0 then (c, read mem c.out c.len) :: accepted else accepted)

/-- The data of one text in the context. -/
def sealedBy (ctx : CryptoAeadCtx) (ad text : Bytes) : Bytes :=
  lock (contextStream ctx) (contextMac ctx ad) text

variable {ctx : CryptoAeadCtx}

theorem sealedBy_inj {ad text text' : Bytes} (h : sealedBy ctx ad text = sealedBy ctx ad text') :
    text = text' := by
  have hiff := @unlock_eq_some_iff _ _ _ (length_contextStream ctx) (length_contextMac ctx ad)
    (sealedBy ctx ad text)
  exact Option.some.inj ((hiff.mpr rfl).symm.trans (hiff.mpr h))

theorem writeRun_cons (c : WriteCall) (calls : List WriteCall) :
    writeRun ctx (c :: calls) =
      ((writeRun (rekeyed ctx) calls).1,
        sealedBy ctx c.ad c.text :: (writeRun (rekeyed ctx) calls).2) := by
  have hlen : (read c.mem c.inp c.len).length = c.len := length_read ..
  have hcipher := length_cipher ctx (read c.mem c.inp c.len)
  rw [hlen] at hcipher
  rw [writeRun, cryptoAeadWrite_eq ctx c.mem c.ad c.separable]
  dsimp only
  rw [read_write_of_length _ _ hcipher]
  simp only [sealedBy, lock, Buffers.text, hlen]

/-- A call accepts some text exactly if its data was made of the text in the same context. -/
theorem readRun_cons (ctx : CryptoAeadCtx) (c : ReadCall) (calls : List ReadCall) :
    (∃ text, c.data = sealedBy ctx c.ad text ∧
        readRun ctx (c :: calls) =
          ((readRun (rekeyed ctx) calls).1, (c, text) :: (readRun (rekeyed ctx) calls).2)) ∨
      (∀ text, c.data ≠ sealedBy ctx c.ad text) ∧
        readRun ctx (c :: calls) = readRun ctx calls := by
  have hlen : (read c.mem c.inp c.len).length = c.len := length_read ..
  have hcipher := length_cipher ctx (read c.mem c.inp c.len)
  rw [hlen] at hcipher
  have hread := cryptoAeadRead_eq ctx c.mem c.ad (show c.mac.toList.length = 16 by simp) c.separable
  have hiff := @unlock_eq_some_iff _ _ _ (length_contextStream ctx) (length_contextMac ctx c.ad)
    c.data
  have hunlock : unlock (contextStream ctx) (contextMac ctx c.ad) 16 c.data =
      if contextMac ctx c.ad c.text = c.mac.toList then
        some (xorBytes c.text (contextStream ctx c.len)) else none := by
    have hdata : c.data.length = c.text.length + 16 := by simp [ReadCall.data]
    unfold unlock
    rw [hdata, if_neg (by omega), Nat.add_sub_cancel, ReadCall.data, List.take_left' rfl,
      List.drop_left' rfl]
    dsimp only
    rw [Buffers.text, hlen]
  rw [readRun, hread]
  by_cases htag : contextMac ctx c.ad c.text = c.mac.toList
  · left
    rw [if_pos htag] at hunlock
    refine ⟨_, hiff.mp hunlock, ?_⟩
    rw [if_pos (show contextMac ctx c.ad (read c.mem c.inp c.len) = _ from htag)]
    dsimp only
    rw [if_pos rfl, read_write_of_length _ _ hcipher]
    rfl
  · right
    rw [if_neg htag] at hunlock
    refine ⟨fun text hdata => ?_, ?_⟩
    · rw [hiff.mpr hdata] at hunlock
      cases hunlock
    · rw [if_neg (show ¬contextMac ctx c.ad (read c.mem c.inp c.len) = _ from htag)]
      rfl

/-- A writer of the accepted texts makes the accepted data, and ends in the context of the
reader. -/
theorem writeRun_of_accepted {arrivals : List ReadCall} {calls : List WriteCall}
    (h : calls.map (fun c => (c.ad, c.text)) =
      (readRun ctx arrivals).2.map fun a => (a.1.ad, a.2)) :
    writeRun ctx calls =
      ((readRun ctx arrivals).1, (readRun ctx arrivals).2.map fun a => a.1.data) := by
  induction arrivals generalizing ctx calls with
  | nil =>
      obtain rfl : calls = [] := by simpa [readRun] using h
      rfl
  | cons a arrivals ih =>
      rcases readRun_cons ctx a arrivals with ⟨text, hdata, hrun⟩ | ⟨-, hrun⟩
      · rw [hrun] at h ⊢
        cases calls with
        | nil => cases h
        | cons c calls =>
            simp only [List.map_cons, List.cons.injEq, Prod.mk.injEq] at h ⊢
            obtain ⟨⟨had, htext⟩, hrest⟩ := h
            rw [writeRun_cons, ih hrest, had, htext, hdata]
      · rw [hrun] at h ⊢
        exact ih h

/-- What a writer made is accepted in its order, with the texts it was made of. -/
theorem readRun_of_written {arrivals : List ReadCall} {calls : List WriteCall}
    (h : arrivals.map (fun c => (c.ad, c.data)) =
      (calls.map (·.ad)).zip (writeRun ctx calls).2) :
    (readRun ctx arrivals).1 = (writeRun ctx calls).1 ∧
      (readRun ctx arrivals).2.map Prod.snd = calls.map (·.text) := by
  induction calls generalizing ctx arrivals with
  | nil =>
      obtain rfl : arrivals = [] := by simpa using h
      exact ⟨rfl, rfl⟩
  | cons c calls ih =>
      rw [writeRun_cons] at h ⊢
      cases arrivals with
      | nil => cases h
      | cons a arrivals =>
          simp only [List.map_cons, List.zip_cons_cons, List.cons.injEq, Prod.mk.injEq] at h ⊢
          obtain ⟨⟨had, hsealed⟩, hrest⟩ := h
          rcases readRun_cons ctx a arrivals with ⟨text, hdata, hrun⟩ | ⟨hnone, -⟩
          · obtain ⟨hctx, htexts⟩ := ih hrest
            rw [had, hsealed] at hdata
            rw [hrun, List.map_cons, hctx, htexts, sealedBy_inj hdata]
            exact ⟨rfl, rfl⟩
          · exact absurd (had ▸ hsealed) (hnone c.text)

/-- What a reader accepts from whatever arrives is what a writer in the same context makes of the
accepted texts, in their order, and leaves both in the same context; and what a writer made is
accepted as it arrives in its order. -/
theorem accepted_iff_written (ctx : CryptoAeadCtx) (arrivals : List ReadCall)
    (calls : List WriteCall) :
    (calls.map (fun c => (c.ad, c.text)) =
        (readRun ctx arrivals).2.map (fun a => (a.1.ad, a.2)) →
      writeRun ctx calls =
        ((readRun ctx arrivals).1, (readRun ctx arrivals).2.map fun a => a.1.data)) ∧
    (arrivals.map (fun c => (c.ad, c.data)) =
        (calls.map (·.ad)).zip (writeRun ctx calls).2 →
      (readRun ctx arrivals).1 = (writeRun ctx calls).1 ∧
        (readRun ctx arrivals).2.map Prod.snd = calls.map (·.text)) :=
  ⟨writeRun_of_accepted, readRun_of_written⟩

/-- The calls of a reader that gets what a writer made, each in the buffer it was made in. -/
def received (ctx : CryptoAeadCtx) : List WriteCall → List ReadCall
  | [] => []
  | c :: calls =>
      let (ctx, mac, mem) := cryptoAeadWrite ctx c.mem c.out c.ad c.inp c.len
      ⟨⟨mem, c.out, c.out, c.len, .inl rfl⟩, c.ad, field mac 0 16⟩ :: received ctx calls

theorem received_eq_written (ctx : CryptoAeadCtx) (calls : List WriteCall) :
    (received ctx calls).map (fun c => (c.ad, c.data)) =
      (calls.map (·.ad)).zip (writeRun ctx calls).2 := by
  induction calls generalizing ctx with
  | nil => rfl
  | cons c calls ih =>
      have hmac : ∀ cipher, (field (contextMac ctx c.ad cipher) 0 16).toList =
          contextMac ctx c.ad cipher := fun cipher => field_all (length_contextMac ctx c.ad cipher)
      simp only [received, writeRun, cryptoAeadWrite_eq ctx c.mem c.ad c.separable, List.map_cons,
        List.zip_cons_cons, ReadCall.data, Buffers.text, hmac]
      exact congrArg (List.cons _) (ih (rekeyed ctx))

/-- The call that writes an accepted text again. -/
def rewritten (a : ReadCall × Bytes) : WriteCall :=
  ⟨⟨write (fun _ => 0) 64 a.2, 64, 64, a.2.length, .inl rfl⟩, a.1.ad⟩

theorem rewritten_eq (accepted : List (ReadCall × Bytes)) :
    (accepted.map rewritten).map (fun c => (c.ad, c.text)) =
      accepted.map fun a => (a.1.ad, a.2) := by
  rw [List.map_map]
  refine List.map_congr_left fun a _ => Prod.ext rfl ?_
  change read (write (fun _ => 0) 64 a.2) 64 a.2.length = a.2
  exact read_write ..

def sampleCalls : List WriteCall :=
  [⟨⟨write (fun _ => 0) 64 [1, 2, 3], 64, 64, 3, .inl rfl⟩, [9]⟩,
    ⟨⟨write (fun _ => 0) 64 [4], 64, 64, 1, .inl rfl⟩, []⟩]

/-- Two texts are read in their order and written again. -/
theorem accepted_iff_written_two_texts :
    let ctx := cryptoAeadInitX (Vector.replicate 32 7) (Vector.replicate 24 1)
    let read := readRun ctx (received ctx sampleCalls)
    writeRun ctx (read.2.map rewritten) = (read.1, read.2.map fun a => a.1.data) ∧
      read.1 = (writeRun ctx sampleCalls).1 ∧ read.2.map Prod.snd = [[1, 2, 3], [4]] := by
  intro ctx read
  obtain ⟨hctx, htexts⟩ := (accepted_iff_written ctx (received ctx sampleCalls) sampleCalls).2
    (received_eq_written ctx sampleCalls)
  exact ⟨(accepted_iff_written ctx (received ctx sampleCalls) _).1 (rewritten_eq read.2), hctx,
    htexts⟩

end Runs

end WgNx.AeadContext
