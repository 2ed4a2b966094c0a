import WgNx.TransportReceive

/-!
Receive slots are used again without clearing them, so behind a datagram stand bytes of an
earlier one.

One iteration of the receive loop looks at the received bytes only, with one exception: a
RESPONSE for a table entry is read without a test of its length, and reading it takes sixty
bytes of the slot.
-/

namespace WgNx.ReceiveLeftovers

open WgNx.ByteLayout
open WgNx.CryptoPrimitives
open WgNx.NoiseHandshake
open WgNx.ReplayCounter
open WgNx.TransportReceive
open WgNx.TransportSend
open WgNx.TunnelSetup
open WgNx.TunnelState
open WgNx.WireMessages

section Statement

def wgRecvSlotCap : Nat := 2048

/-- The buffer of an iteration is a slot of the pool or, when the pool is empty, the
fallback packet. -/
def bufferSize (slot : Bool) : Nat :=
  if slot then wgRecvSlotCap else wgMaxPacketSize

/-- The buffer after a datagram was received into it. -/
structure Received (slot : Bool) (bytes buffer : Bytes) : Prop where
  size : buffer.length = bufferSize slot
  start : bytes <+: buffer

/-- The new state and everything that is sent or delivered depend on the received bytes
and not on what the buffer holds behind them. -/
def LeftoverFree (P : Primitives) (tun : WgTunnel) (bytes : Bytes) : Prop :=
  ∀ slot src d now buffer buffer',
    Received slot bytes buffer → Received slot bytes buffer' →
      recvThreadIteration P tun ⟨slot, .datagram buffer bytes.length src, d, now⟩ =
        recvThreadIteration P tun ⟨slot, .datagram buffer' bytes.length src, d, now⟩

/-- The entry that the receive loop takes a RESPONSE for. -/
def awaiting (tun : WgTunnel) (receiverIndex : UInt32) : Option Nat :=
  tun.peers.find fun p =>
    p.connected && !p.session.valid && p.session.localIndex == receiverIndex

/-- A RESPONSE for a table entry that is long enough for the common test and ends before
its tag does. -/
structure CutResponse (tun : WgTunnel) (bytes : Bytes) : Prop where
  long : sizeofTransport + wgAeadTagLen ≤ bytes.length
  cut : bytes.length < 60
  type : getType bytes = wgMsgHandshakeResponse
  noRekey : tun.session.rekeyInProgress = false
  awaited : (awaiting tun (getU32 bytes 8)).isSome

end Statement

section Fields

variable {bytes : Bytes} (leftovers : Bytes)

theorem getType_append (h : 1 ≤ bytes.length) : getType (bytes ++ leftovers) = getType bytes :=
  List.getD_append _ _ _ _ h

theorem getU32_append {off : Nat} (h : off + 4 ≤ bytes.length) :
    getU32 (bytes ++ leftovers) off = getU32 bytes off := by
  unfold getU32
  rw [field_append_of_fits h]

theorem getU64_append {off : Nat} (h : off + 8 ≤ bytes.length) :
    getU64 (bytes ++ leftovers) off = getU64 bytes off := by
  unfold getU64
  rw [field_append_of_fits h]

theorem ofBytes_init_append (h : sizeofInit ≤ bytes.length) :
    WgHandshakeInit.ofBytes (bytes ++ leftovers) = .ofBytes bytes := by
  unfold sizeofInit at h
  unfold WgHandshakeInit.ofBytes
  rw [getType_append leftovers (by omega), getU32_append leftovers (by omega),
    field_append_of_fits (by omega), field_append_of_fits (by omega),
    field_append_of_fits (by omega), field_append_of_fits (by omega),
    field_append_of_fits (by omega), field_append_of_fits (by omega)]

theorem ofBytes_cookie_append (h : sizeofCookieReply ≤ bytes.length) :
    WgCookieReply.ofBytes (bytes ++ leftovers) = .ofBytes bytes := by
  unfold sizeofCookieReply at h
  unfold WgCookieReply.ofBytes
  rw [getType_append leftovers (by omega), getU32_append leftovers (by omega),
    field_append_of_fits (by omega), field_append_of_fits (by omega),
    field_append_of_fits (by omega)]

/-- The two macs at the end of a RESPONSE may be leftovers. -/
theorem ofBytes_response_append (h : 60 ≤ bytes.length) :
    WgHandshakeResponse.ofBytes (bytes ++ leftovers) =
      { WgHandshakeResponse.ofBytes bytes with
        mac1 := field (bytes ++ leftovers) 60 16, mac2 := field (bytes ++ leftovers) 76 16 } := by
  unfold WgHandshakeResponse.ofBytes
  rw [getType_append leftovers (by omega), @getU32_append _ leftovers 4 (by omega),
    @getU32_append _ leftovers 8 (by omega), @field_append_of_fits _ leftovers 1 3 (by omega),
    @field_append_of_fits _ leftovers 12 32 (by omega),
    @field_append_of_fits _ leftovers 44 16 (by omega)]

end Fields

section Branches

variable (P : Primitives) (tun : WgTunnel) {bytes : Bytes} (leftovers : Bytes)

theorem recvTransport_append (h : sizeofTransport + wgAeadTagLen ≤ bytes.length) (slot : Bool)
    (now : UInt64) :
    recvTransport P tun (bytes ++ leftovers) bytes.length slot now =
      recvTransport P tun bytes bytes.length slot now := by
  unfold sizeofTransport wgAeadTagLen at h
  have hopen : ∀ sess, openTransport P sess (bytes ++ leftovers) bytes.length =
      openTransport P sess bytes bytes.length := by
    intro sess
    unfold openTransport sizeofTransport wgAeadTagLen
    rw [getU64_append leftovers (by omega), field_append_of_fits (by omega)]
  unfold recvTransport
  simp only [hopen, getU64_append leftovers (show 8 + 8 ≤ bytes.length by omega),
    getU32_append leftovers (show 4 + 4 ≤ bytes.length by omega)]

theorem recvResponse_awaiting (hrekey : tun.session.rekeyInProgress = false) (buffer : Bytes)
    (received : Nat) (now : UInt64) :
    recvResponse P tun buffer received now =
      match awaiting tun (getU32 buffer 8) with
      | none => (tun, [])
      | some i => (wgHandshakeInitProcessResponse P tun i (.ofBytes buffer) now).2 := by
  unfold recvResponse
  rw [hrekey]
  rfl

/-- The reader of a RESPONSE does not look at the macs. -/
theorem processResponse_macs (i : Nat) (msg : WgHandshakeResponse) (mac1 mac2 : Mac)
    (now : UInt64) :
    wgHandshakeInitProcessResponse P tun i { msg with mac1 := mac1, mac2 := mac2 } now =
      wgHandshakeInitProcessResponse P tun i msg now :=
  rfl

theorem recvResponse_append (h : sizeofTransport + wgAeadTagLen ≤ bytes.length)
    (htype : getType bytes = wgMsgHandshakeResponse) (hcut : ¬ CutResponse tun bytes)
    (now : UInt64) :
    recvResponse P tun (bytes ++ leftovers) bytes.length now =
      recvResponse P tun bytes bytes.length now := by
  have hlen : 32 ≤ bytes.length := h
  cases hrekey : tun.session.rekeyInProgress with
  | true =>
      unfold recvResponse
      rw [field_append_of_fits (Nat.zero_add _).le]
      simp only [hrekey, if_true]
  | false =>
      rw [recvResponse_awaiting P tun hrekey, recvResponse_awaiting P tun hrekey,
        getU32_append leftovers (by omega)]
      cases hfind : awaiting tun (getU32 bytes 8) with
      | none => rfl
      | some i =>
          have hlong : 60 ≤ bytes.length := by
            refine Nat.le_of_not_lt fun hlt => hcut ⟨h, hlt, htype, hrekey, ?_⟩
            rw [hfind]
            rfl
          dsimp only
          rw [ofBytes_response_append leftovers hlong, processResponse_macs]

theorem recvCookieReply_append (now : UInt64) :
    recvCookieReply P tun (bytes ++ leftovers) bytes.length now =
      recvCookieReply P tun bytes bytes.length now := by
  unfold recvCookieReply
  split
  · rename_i hlong
    rw [ofBytes_cookie_append leftovers hlong]
  · rfl

theorem recvInit_append (d : RespDraws) (now : UInt64) :
    recvInit P tun (bytes ++ leftovers) bytes.length d now =
      recvInit P tun bytes bytes.length d now := by
  unfold recvInit
  split
  · rename_i hlong
    rw [ofBytes_init_append leftovers hlong]
  · rfl

theorem recvDatagram_append (hcut : ¬ CutResponse tun bytes) (slot : Bool) (d : RespDraws)
    (now : UInt64) :
    recvDatagram P tun (bytes ++ leftovers) bytes.length slot d now =
      recvDatagram P tun bytes bytes.length slot d now := by
  unfold recvDatagram
  by_cases hshort : bytes.length < sizeofTransport + wgAeadTagLen
  · rw [if_pos hshort, if_pos hshort]
  · have hlong := Nat.le_of_not_lt hshort
    have htype : getType (bytes ++ leftovers) = getType bytes := by
      unfold sizeofTransport wgAeadTagLen at hlong
      exact getType_append leftovers (by omega)
    rw [if_neg hshort, if_neg hshort, htype, recvTransport_append P tun leftovers hlong,
      recvCookieReply_append, recvInit_append]
    by_cases hresponse : getType bytes = wgMsgHandshakeResponse
    · rw [recvResponse_append P tun leftovers hlong hresponse hcut]
    · rw [if_neg hresponse, if_neg hresponse]

end Branches

section Forging

/-- A lawful cipher whose tag is sixteen zero bytes, of which the reader tests the last. -/
def zeroTag : Primitives :=
  { additive with
    wgAeadEncrypt _ _ plaintext _ := plaintext ++ zeroMac
    wgAeadDecrypt {n} _ _ ciphertext _ :=
      if ciphertext.toList.getD (n + 15) 0 = 0 then some (field ciphertext.toList 0 n) else none }

theorem decrypt_zeroTag {n : Nat} (key : Key) (counter : UInt64) (ciphertext : ByteVec (n + 16))
    (ad : Bytes) :
    zeroTag.wgAeadDecrypt key counter ciphertext ad =
      if ciphertext.toList.getD (n + 15) 0 = 0 then some (field ciphertext.toList 0 n)
      else none :=
  rfl

theorem encrypt_zeroTag {n : Nat} (key : Key) (counter : UInt64) (plaintext : ByteVec n)
    (ad : Bytes) : zeroTag.wgAeadEncrypt key counter plaintext ad = plaintext ++ zeroMac :=
  rfl

theorem zeroTag_lawful : zeroTag.Lawful := by
  constructor
  · exact additive_lawful.x25519_comm
  · intro n key counter plaintext ad
    have htag : (plaintext ++ zeroMac).toList.getD (n + 15) 0 = 0 := by
      rw [Vector.toList_append, List.getD_append_right _ _ _ _ (by simp)]
      simp [zeroMac]
    rw [encrypt_zeroTag, decrypt_zeroTag, if_pos htag, Vector.toList_append, field_append_vec]

theorem readResponse_zeroTag (staticPrivate psk : Key) (msg : WgHandshakeResponse)
    (state : WgHandshakeState) :
    (readResponse zeroTag staticPrivate psk msg state).2 = false ↔
      msg.encryptedNothing.toList.getD 15 0 ≠ 0 := by
  unfold readResponse
  dsimp only
  rw [decrypt_zeroTag]
  by_cases hzero : msg.encryptedNothing.toList.getD (0 + 15) 0 = 0
  · rw [if_pos hzero]
    exact iff_of_false (by simp) (not_not.mpr hzero)
  · rw [if_neg hzero]
    exact iff_of_true rfl hzero

variable {tun : WgTunnel} {bytes : Bytes}

theorem events_processResponse (P : Primitives) {i : Nat} {msg : WgHandshakeResponse}
    (htype : msg.type = wgMsgHandshakeResponse)
    (hindex : msg.receiverIndex = (tun.peers.get i).session.localIndex) (now : UInt64) :
    (wgHandshakeInitProcessResponse P tun i msg now).2.2 = [] ↔
      (readResponse P tun.staticPrivate tun.psk msg (tun.peers.get i).pendingHs).2 = false := by
  unfold wgHandshakeInitProcessResponse
  dsimp only
  rw [if_neg (not_not.mpr htype), if_neg (not_not.mpr hindex)]
  split
  · rename_i hbad
    simpa using hbad
  · rename_i hgood
    simpa using hgood

/-- What the loop does with a cut RESPONSE is up to a byte behind it. -/
theorem events_cutResponse (hcut : CutResponse tun bytes) (leftovers : Bytes) (slot : Bool)
    (d : RespDraws) (now : UInt64) :
    (recvDatagram zeroTag tun (bytes ++ leftovers) bytes.length slot d now).2 = [] ↔
      leftovers.getD (59 - bytes.length) 0 ≠ 0 := by
  obtain ⟨hlong, hshort, htype, hrekey, hawaited⟩ := hcut
  have hlen : 32 ≤ bytes.length := hlong
  have htype' : getType (bytes ++ leftovers) = wgMsgHandshakeResponse := by
    rw [getType_append leftovers (by omega)]
    exact htype
  have hindex : getU32 (bytes ++ leftovers) 8 = getU32 bytes 8 :=
    getU32_append leftovers (by omega)
  have htag : (field (bytes ++ leftovers) 44 16).toList.getD 15 0 =
      leftovers.getD (59 - bytes.length) 0 := by
    rw [← List.getD_append_right _ _ _ _ (Nat.le_of_lt_succ hshort)]
    simp [field]
  obtain ⟨i, hfind⟩ := Option.isSome_iff_exists.mp hawaited
  have hlocal : getU32 (bytes ++ leftovers) 8 = (tun.peers.get i).session.localIndex := by
    have hget := PeerTable.find_get hfind
    simp only [Bool.and_eq_true, beq_iff_eq] at hget
    rw [hindex, hget.2]
  unfold recvDatagram
  rw [if_neg (Nat.not_lt.mpr hlong), htype', if_neg (by decide), if_pos rfl,
    recvResponse_awaiting _ _ hrekey, hindex, hfind]
  dsimp only
  rw [events_processResponse zeroTag htype' hlocal, readResponse_zeroTag]
  change (field (bytes ++ leftovers) 44 16).toList.getD 15 0 ≠ 0 ↔ _
  rw [htag]

end Forging

section Iteration

theorem cutResponse_noteSource {tun : WgTunnel} {bytes : Bytes} (src : Option SockAddr) :
    CutResponse (noteSource tun src) bytes ↔ CutResponse tun bytes := by
  cases src with
  | none => rfl
  | some src => exact ⟨fun h => ⟨h.1, h.2, h.3, h.4, h.5⟩, fun h => ⟨h.1, h.2, h.3, h.4, h.5⟩⟩

theorem leftoverFree_of_not_cutResponse {tun : WgTunnel} {bytes : Bytes}
    (hcut : ¬ CutResponse tun bytes) (P : Primitives) : LeftoverFree P tun bytes := by
  rintro slot src d now buffer buffer' ⟨-, leftovers, rfl⟩ ⟨-, leftovers', rfl⟩
  have hcut' := mt (cutResponse_noteSource src).mp hcut
  unfold recvThreadIteration
  dsimp only
  rw [recvDatagram_append P _ leftovers hcut', recvDatagram_append P _ leftovers' hcut']

/-- The buffer of a slot that held one byte everywhere before. -/
def filled (bytes : Bytes) (b : UInt8) : Bytes :=
  bytes ++ List.replicate (wgRecvSlotCap - bytes.length) b

theorem received_filled {bytes : Bytes} (h : bytes.length ≤ wgRecvSlotCap) (b : UInt8) :
    Received true bytes (filled bytes b) := by
  refine ⟨?_, List.prefix_append _ _⟩
  change (bytes ++ List.replicate (wgRecvSlotCap - bytes.length) b).length = wgRecvSlotCap
  rw [List.length_append, List.length_replicate]
  omega

theorem not_leftoverFree_of_cutResponse {tun : WgTunnel} {bytes : Bytes}
    (hcut : CutResponse tun bytes) : ¬ LeftoverFree zeroTag tun bytes := by
  intro hfree
  have hlt := hcut.cut
  have hfits : bytes.length ≤ wgRecvSlotCap := by
    unfold wgRecvSlotCap
    omega
  have hbehind : ∀ b : UInt8,
      (List.replicate (wgRecvSlotCap - bytes.length) b).getD (59 - bytes.length) 0 = b := by
    intro b
    have hinside : 59 - bytes.length < wgRecvSlotCap - bytes.length := by
      unfold wgRecvSlotCap
      omega
    simp [List.getD_eq_getElem?_getD, hinside]
  have hevents := fun b => events_cutResponse hcut
    (List.replicate (wgRecvSlotCap - bytes.length) b) true ⟨zeroKey, 0, 0⟩ 0
  simp only [hbehind] at hevents
  have hsame := hfree true none ⟨zeroKey, 0, 0⟩ 0 _ _ (received_filled hfits 0)
    (received_filled hfits 1)
  have hzero := (hevents 0).mp ((congrArg Prod.snd hsame).trans ((hevents 1).mpr (by decide)))
  exact hzero rfl

theorem received_bytes_decide_iff (tun : WgTunnel) (bytes : Bytes) :
    (∀ P : Primitives, P.Lawful → LeftoverFree P tun bytes) ↔ ¬ CutResponse tun bytes := by
  constructor
  · intro hfree hcut
    exact not_leftoverFree_of_cutResponse hcut (hfree zeroTag zeroTag_lawful)
  · intro hcut P _
    exact leftoverFree_of_not_cutResponse hcut P

/-- The receive loop waits for the RESPONSE of an entry that was connected before. -/
def connectedTunnel : WgTunnel :=
  { openingTunnel with
    peers := openingTunnel.peers.modify 0 fun p => { p with connected := true } }

/-- Of the RESPONSE only the part before the tag arrives.  It completes the handshake in a
slot that still holds the rest of it, and does not in a slot of zeros. -/
theorem response_without_tag :
    let response := genuineResponse.toBytes
    let bytes := response.take 44
    let again := response ++ List.replicate (wgRecvSlotCap - response.length) 0
    let out := fun buffer => recvThreadIteration additive connectedTunnel
      ⟨true, .datagram buffer bytes.length none, ⟨zeroKey, 0, 0⟩, 1000⟩
    Received true bytes again ∧ Received true bytes (filled bytes 0) ∧
      ((out again).1.peers.get 0).session.valid = true ∧
      ((out (filled bytes 0)).1.peers.get 0).session.valid = false := by
  have hlen : genuineResponse.toBytes.length = 92 := by decide +kernel
  have hfits : (genuineResponse.toBytes.take 44).length ≤ wgRecvSlotCap := by
    rw [List.length_take, hlen]
    decide
  refine ⟨⟨?_, ?_⟩, received_filled hfits 0, ?_⟩
  · rw [List.length_append, List.length_replicate, hlen]
    rfl
  · exact (List.take_prefix 44 _).trans (List.prefix_append _ _)
  · decide +kernel

end Iteration

end WgNx.ReceiveLeftovers
