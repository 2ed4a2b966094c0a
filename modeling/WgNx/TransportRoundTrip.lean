import WgNx.Authentication
import WgNx.RelayRing

/-!
Payloads on their way from one tunnel to the other.

One side calls `wg_send` or `wg_send_to_peer`, the datagram travels over UDP or
through the relay ring, and the receive thread of the other side hands the payload
to its callback.  The packet buffers of both sides hold 2048 bytes, a slot of the
ring holds 2044.
-/

namespace WgNx.TransportRoundTrip

open Function
open WgNx.Authentication
open WgNx.ByteLayout
open WgNx.CryptoPrimitives
open WgNx.NoiseHandshake
open WgNx.OutputMachine
open WgNx.RelayRing
open WgNx.ReplayCounter
open WgNx.TransportReceive
open WgNx.TransportSend
open WgNx.TunnelSetup
open WgNx.TunnelState
open WgNx.WireMessages

section Machine

/-- `wg_send` uses the session of the tunnel, `wg_send_to_peer` that of an entry. -/
inductive Sender
  | tunnel
  | peer (i : Nat)

def Sender.ref : Sender → SessionRef
  | .tunnel => .legacy
  | .peer i => .peer i

inductive Channel
  | udp
  | relay (ring : Ring)

/-- The sending side, the receiving side and what is between them. -/
structure Carriage where
  sender : WgTunnel
  receiver : WgTunnel
  channel : Channel

/-- One payload with what the calls on its way read from their environment.  The
receive thread makes `calls + 1` iterations, each of which polls the ring at least
once. -/
structure Carry where
  data : { data : Bytes // 1 ≤ data.length }
  sendNow : UInt64
  sent : Bool
  src : SockAddr
  draws : RespDraws
  recvNow : UInt64
  calls : Nat
  polls : Nat

def payloads (events : List Event) : List Bytes :=
  events.filterMap fun
    | .delivered _ _ plaintext _ => some plaintext
    | _ => none

variable (P : Primitives) (via : Sender)

def send (tun : WgTunnel) (a : Carry) : Except WgError Nat × WgTunnel × List Event :=
  match via with
  | .tunnel => wgSend P tun a.data.1 a.sendNow a.sent
  | .peer i => wgSendToPeer P tun i a.data.1 a.sendNow a.sent

/-- Iterations of the receive thread in relay mode. -/
def drain (a : Carry) (tun : WgTunnel) (ring : Ring) : Nat → WgTunnel × Ring × List Event
  | 0 => (tun, ring, [])
  | calls + 1 =>
      match wgSocketRecvRelay ring wgMaxPacketSize (a.polls + 1) with
      | (none, ring) => drain a tun ring calls
      | (some packet, ring) =>
          let out := recvThreadIteration P tun
            ⟨true, .ofBytes packet none, a.draws, a.recvNow⟩
          let rest := drain a out.1 ring calls
          (rest.1, rest.2.1, out.2 ++ rest.2.2)

def transfer (a : Carry) (tun : WgTunnel) (channel : Channel) (packet : Bytes) :
    WgTunnel × Channel × List Event :=
  match channel with
  | .udp =>
      let out := recvThreadIteration P tun
        ⟨true, .ofBytes packet (some a.src), a.draws, a.recvNow⟩
      (out.1, .udp, out.2)
  | .relay ring =>
      match wgRelayInput ring packet with
      | none => (tun, .relay ring, [])
      | some ring =>
          let out := drain P a tun (wgRelayCommit ring) (a.calls + 1)
          (out.1, .relay out.2.1, out.2.2)

def transferAll (a : Carry) (tun : WgTunnel) (channel : Channel) :
    List Bytes → WgTunnel × Channel × List Event
  | [] => (tun, channel, [])
  | packet :: packets =>
      let out := transfer P a tun channel packet
      let rest := transferAll a out.1 out.2.1 packets
      (rest.1, rest.2.1, out.2.2 ++ rest.2.2)

/-- A call and the way of its datagrams to the callback of the other side. -/
def carryStep (s : Carriage) (a : Carry) : Carriage × List Bytes :=
  let call := send P via s.sender a
  let out := transferAll P a s.receiver s.channel (datagrams call.2.2)
  (⟨call.2.1, out.1, out.2.1⟩, payloads out.2.2)

/-- The call returns the length of its payload. -/
def Returned (s : Carriage) (a : Carry) : Prop :=
  (send P via s.sender a).1 = .ok a.data.1.length

/-- The message limit is not reached, and the packet fits a slot of the ring whose
sequence numbers do not wrap with it. -/
def Carried (s : Carriage) (a : Carry) : Prop :=
  (s.sender.getSession via.ref).sendingCounter < wgRejectAfterMessages ∧
    match s.channel with
    | .udp => True
    | .relay ring =>
        sizeofTransport + a.data.1.length + wgAeadTagLen ≤ ringDataMax ∧
          ring.wseqLocal ≠ 0xFFFFFFFF

/-- Everything that was written has been read. -/
def Channel.Drained : Channel → Prop
  | .udp => True
  | .relay ring => ring.wseq = ring.wseqLocal ∧ ring.rseq = ring.wseq

/-- The two ends use the same key, the index of the sender selects the session of
the receiver, and the receiver's highest counter is not past the sender's, with no
bit of its block set for a counter still to come. -/
structure Agreed (ref : SessionRef) (s : Carriage) : Prop where
  key : (s.sender.getSession via.ref).sendingKey = (s.receiver.getSession ref).receivingKey
  index : selectSession s.receiver (s.sender.getSession via.ref).remoteIndex = some ref
  unused : Unused (s.receiver.getSession ref).replay
    (s.sender.getSession via.ref).sendingCounter
  callback : s.receiver.recvCb.isSome = true
  drained : s.channel.Drained

end Machine

section Sending

variable {P : Primitives} {via : Sender}

/-- A call that returns the length has emitted one packet and used one counter. -/
theorem send_returned {tun : WgTunnel} {a : Carry}
    (h : (send P via tun a).1 = .ok a.data.1.length) :
    sizeofTransport + a.data.1.length + wgAeadTagLen ≤ wgMaxPacketSize ∧
      datagrams (send P via tun a).2.2 =
        [transportPacket P (tun.getSession via.ref) a.data.1] ∧
      (send P via tun a).2.1.getSession via.ref = bumpCounter (tun.getSession via.ref) := by
  cases via with
  | tunnel =>
      simp only [send, wgSend] at h ⊢
      split at h
      · cases h
      · rename_i hvalid
        split at h
        · cases h
        · rename_i hlive
          split at h
          · cases h
          · rename_i hfits
            rw [if_neg hvalid, if_neg hlive, if_neg hfits]
            refine ⟨?_, rfl, rfl⟩
            simpa [packetTooLong] using hfits
  | peer i =>
      simp only [send, wgSendToPeer] at h ⊢
      split at h
      · cases h
      · rename_i hconnected
        split at h
        · cases h
        · rename_i hfits
          rw [if_neg hconnected, if_neg hfits]
          have hi : i < tun.peers.count := by
            by_contra hnot
            have hzero : tun.peers.get i = .zeroed :=
              List.getD_eq_default _ _ (Nat.le_of_not_lt hnot)
            rw [hzero] at hconnected
            exact hconnected rfl
          refine ⟨?_, rfl, ?_⟩
          · simpa [packetTooLong] using hfits
          · change ((tun.peers.modify i _).get i).session = _
            rw [PeerTable.get_modify _ _ _ _ hi, if_pos rfl]
            rfl

variable {sess : WgSession} {data : Bytes}

theorem transportPacket_length (P : Primitives) (sess : WgSession) (data : Bytes) :
    (transportPacket P sess data).length = sizeofTransport + data.length + wgAeadTagLen := by
  simp only [transportPacket, List.length_append, putU32_length, putU64_length,
    Vector.length_toList, sizeofTransport, wgAeadTagLen, List.length_cons, List.length_nil]
  omega

theorem getType_transportPacket (P : Primitives) (sess : WgSession) (data : Bytes) :
    getType (transportPacket P sess data) = wgMsgTransport := rfl

theorem getU32_transportPacket (P : Primitives) (sess : WgSession) (data : Bytes) :
    getU32 (transportPacket P sess data) 4 = sess.remoteIndex := by
  apply getU32_of_field
  simp (disch := simp) [transportPacket, putU32, field_cons_of_pos, field_append_vec]

theorem getU64_transportPacket (P : Primitives) (sess : WgSession) (data : Bytes) :
    getU64 (transportPacket P sess data) 8 = sess.sendingCounter := by
  apply getU64_of_field
  simp (disch := simp) [transportPacket, putU64, field_cons_of_pos, field_append_of_le,
    field_append_vec]

theorem field_transportPacket {n : Nat} (hn : data.length = n) :
    field (transportPacket P sess data) sizeofTransport (n + 16) =
      P.wgAeadEncrypt sess.sendingKey sess.sendingCounter (field data 0 n) [] := by
  subst hn
  unfold transportPacket
  rw [field_append_of_le]
  · simp [sizeofTransport]
  · simp [sizeofTransport]

/-- The receiver opens the packet with the key it was sealed with. -/
theorem openTransport_transportPacket (hP : P.Lawful) {recv : WgSession}
    (hkey : sess.sendingKey = recv.receivingKey) {received : Nat}
    (hreceived : received = sizeofTransport + data.length + wgAeadTagLen) :
    ∃ plaintext, openTransport P recv (transportPacket P sess data) received =
        some plaintext ∧ plaintext.toList = data := by
  have hlength : data.length = received - sizeofTransport - wgAeadTagLen := by omega
  refine ⟨field data 0 _, ?_, field_all hlength⟩
  unfold openTransport
  rw [getU64_transportPacket, field_transportPacket hlength, ← hkey]
  exact hP.aead_roundtrip ..

end Sending

section Receiving

variable {tun : WgTunnel}

/-- The lookup reads the flags and indices that receiving leaves alone. -/
theorem selectSession_of_core {tun' : WgTunnel} (hcount : tun'.peers.count = tun.peers.count)
    (hconfigured : ∀ i, (tun'.peers.get i).configured = (tun.peers.get i).configured)
    (hcore : ∀ ref, (tun'.getSession ref).core = (tun.getSession ref).core)
    (receiverIndex : UInt32) :
    selectSession tun' receiverIndex = selectSession tun receiverIndex := by
  have hvalid : ∀ ref, (tun'.getSession ref).valid = (tun.getSession ref).valid :=
    fun ref => eq_of_core WgSession.valid (hcore ref) fun _ => rfl
  have hlocal : ∀ ref, (tun'.getSession ref).localIndex = (tun.getSession ref).localIndex :=
    fun ref => eq_of_core WgSession.localIndex (hcore ref) fun _ => rfl
  have hold : tun'.session.oldLocalIndex = tun.session.oldLocalIndex :=
    eq_of_core WgSession.oldLocalIndex (hcore .legacy) fun _ => rfl
  have hpeerValid : ∀ i, (tun'.peers.get i).session.valid = (tun.peers.get i).session.valid :=
    fun i => hvalid (.peer i)
  have hpeerLocal : ∀ i,
      (tun'.peers.get i).session.localIndex = (tun.peers.get i).session.localIndex :=
    fun i => hlocal (.peer i)
  have hprevValid : ∀ i,
      (tun'.peers.get i).prevSession.valid = (tun.peers.get i).prevSession.valid :=
    fun i => hvalid (.peerPrev i)
  have hprevLocal : ∀ i,
      (tun'.peers.get i).prevSession.localIndex = (tun.peers.get i).prevSession.localIndex :=
    fun i => hlocal (.peerPrev i)
  have hfind : wgFindPeerByLocalIndex tun' receiverIndex =
      wgFindPeerByLocalIndex tun receiverIndex := by
    apply PeerTable.find_congr hcount
    intro i
    simp only [hconfigured, hpeerValid, hpeerLocal, hprevValid, hprevLocal]
  unfold selectSession selectPeerSession selectLegacySession
  rw [hfind, hold, show tun'.session.localIndex = tun.session.localIndex from hlocal .legacy,
    show tun'.prevSession.valid = tun.prevSession.valid from hvalid .legacyPrev,
    show tun'.prevSession.localIndex = tun.prevSession.localIndex from hlocal .legacyPrev]
  simp only [hpeerLocal, hprevValid, hprevLocal]

/-- What receiving a payload leaves alone besides the cores of the sessions. -/
structure SameTable (tun tun' : WgTunnel) : Prop where
  count : tun'.peers.count = tun.peers.count
  configured : ∀ i, (tun'.peers.get i).configured = (tun.peers.get i).configured
  recvCb : tun'.recvCb = tun.recvCb

theorem SameTable.trans {tun₁ tun₂ : WgTunnel} (h : SameTable tun tun₁)
    (h' : SameTable tun₁ tun₂) : SameTable tun tun₂ :=
  ⟨h'.count.trans h.count, fun i => (h'.configured i).trans (h.configured i),
    h'.recvCb.trans h.recvCb⟩

theorem sameTable_modify {i : Nat} {f : WgPeer → WgPeer} (hi : i < tun.peers.count)
    (hf : ∀ p, (f p).configured = p.configured) :
    SameTable tun { tun with peers := tun.peers.modify i f } := by
  refine ⟨PeerTable.count_modify .., ?_, rfl⟩
  intro j
  dsimp only
  rw [PeerTable.get_modify _ _ _ _ hi]
  split
  · exact hf _
  · rfl

theorem sameTable_modifySession {ref : SessionRef} (href : tun.Holds ref)
    (f : WgSession → WgSession) : SameTable tun (tun.modifySession ref f) := by
  cases ref with
  | legacy => exact ⟨rfl, fun _ => rfl, rfl⟩
  | legacyPrev => exact ⟨rfl, fun _ => rfl, rfl⟩
  | peer i => exact sameTable_modify href fun _ => rfl
  | peerPrev i => exact sameTable_modify href fun _ => rfl

theorem sameTable_payloadReceived {ref : SessionRef} (href : tun.Holds ref)
    (receiverIndex : UInt32) (replay : WgReplayCounter) (counter now : UInt64) :
    SameTable tun (payloadReceived tun ref (wgFindPeerByLocalIndex tun receiverIndex) replay
      counter now) := by
  have hsession := sameTable_modifySession href fun s =>
    { s with replay := replay, lastReceived := now, receivingCounter := counter + 1 }
  have hendpoint : ∀ tun : WgTunnel, SameTable tun (wgUpdateEndpointFromRecv tun) := by
    intro tun
    unfold wgUpdateEndpointFromRecv
    split <;> exact ⟨rfl, fun _ => rfl, rfl⟩
  unfold payloadReceived
  refine hsession.trans (SameTable.trans ?_ (hendpoint _))
  cases hfind : wgFindPeerByLocalIndex tun receiverIndex with
  | none => exact ⟨rfl, fun _ => rfl, rfl⟩
  | some i =>
      apply sameTable_modify
      · rw [count_modifySession]
        exact PeerTable.find_lt hfind
      · exact fun _ => rfl

variable {P : Primitives}

theorem recvThreadIteration_transportPacket (sess : WgSession) (data : Bytes)
    (src : Option SockAddr) (draws : RespDraws) (now : UInt64) :
    recvThreadIteration P tun
        ⟨true, .ofBytes (transportPacket P sess data) src, draws, now⟩ =
      recvTransport P (noteSource tun src) (transportPacket P sess data)
        (transportPacket P sess data).length true now := by
  unfold SocketResult.ofBytes
  rw [recvThreadIteration_transport (getType_transportPacket P sess data), if_neg]
  rw [transportPacket_length]
  omega

/-- A packet hands over at most one payload, in whatever state it is received. -/
theorem payloads_transportPacket_length (sess : WgSession) (data : Bytes)
    (src : Option SockAddr) (draws : RespDraws) (now : UInt64) :
    (payloads (recvThreadIteration P tun
      ⟨true, .ofBytes (transportPacket P sess data) src, draws, now⟩).2).length ≤ 1 := by
  rw [recvThreadIteration_transportPacket]
  generalize hout : recvTransport P (noteSource tun src) (transportPacket P sess data)
    (transportPacket P sess data).length true now = out
  have hcase := recvTransport_cases P (noteSource tun src) (transportPacket P sess data)
    (transportPacket P sess data).length true now
  rw [hout] at hcase
  cases hcase with
  | accepted ref plaintext hselect hfresh hlen hopen hverdict =>
      dsimp only
      split
      · exact Nat.le_refl 1
      · exact Nat.zero_le 1
  | _ => exact Nat.zero_le 1

/-- The receiver's end of an agreed pair of sessions. -/
structure Receives (sess : WgSession) (ref : SessionRef) (tun : WgTunnel) : Prop where
  key : sess.sendingKey = (tun.getSession ref).receivingKey
  index : selectSession tun sess.remoteIndex = some ref
  unused : Unused (tun.getSession ref).replay sess.sendingCounter
  callback : tun.recvCb.isSome = true

theorem Receives.noteSource {sess : WgSession} {ref : SessionRef} (h : Receives sess ref tun)
    (src : Option SockAddr) : Receives sess ref (noteSource tun src) := by
  refine ⟨?_, ?_, ?_, ?_⟩
  · rw [getSession_noteSource]
    exact h.key
  · rw [selectSession_noteSource]
    exact h.index
  · rw [getSession_noteSource]
    exact h.unused
  · cases src <;> exact h.callback

/-- A payload is handed over below the message limit, and dropped from there on. -/
theorem recvTransport_transportPacket (hP : P.Lawful) {sess : WgSession} {ref : SessionRef}
    (h : Receives sess ref tun) {data : Bytes} (hdata : 1 ≤ data.length) {now : UInt64}
    (hfresh : ¬ (tun.getSession ref).Expired now) :
    let out := recvTransport P tun (transportPacket P sess data)
      (transportPacket P sess data).length true now
    if sess.sendingCounter < wgRejectAfterMessages then
      payloads out.2 = [data] ∧ Receives (bumpCounter sess) ref out.1 ∧
        (out.1.getSession ref).lastHandshake = (tun.getSession ref).lastHandshake
    else payloads out.2 = [] := by
  intro out
  have hlength := transportPacket_length P sess data
  have hpos : (transportPacket P sess data).length - sizeofTransport - wgAeadTagLen ≠ 0 := by
    omega
  obtain ⟨plaintext, hopen, hplain⟩ := openTransport_transportPacket hP h.key hlength
  have hverdict := wgCounterValidate_unused h.unused
  have hout : out = recvTransport P tun (transportPacket P sess data)
    (transportPacket P sess data).length true now := rfl
  unfold recvTransport at hout
  dsimp only at hout
  rw [getU32_transportPacket, getU64_transportPacket, h.index] at hout
  dsimp only at hout
  rw [if_neg hfresh, if_neg hpos, hopen] at hout
  dsimp only at hout
  rw [hverdict, h.callback] at hout
  split
  · rename_i hlimit
    rw [decide_eq_true hlimit, if_neg (by decide), if_pos (by decide)] at hout
    have href := holds_of_selectSession h.index
    have htable := sameTable_payloadReceived href sess.remoteIndex
      (wgCounterValidate (tun.getSession ref).replay sess.sendingCounter).2
      sess.sendingCounter now
    have hsessions := sessions_payloadReceived href sess.remoteIndex
      (wgCounterValidate (tun.getSession ref).replay sess.sendingCounter).2
      sess.sendingCounter now
    have hcore := view_kept _ hsessions
      (WgSession.core_received (tun.getSession ref) _ _ _)
    rw [hout]
    refine ⟨congrArg (fun data => [data]) hplain, ⟨?_, ?_, ?_, ?_⟩,
      eq_of_core WgSession.lastHandshake (hcore ref) fun _ => rfl⟩
    · exact h.key.trans
        (eq_of_core WgSession.receivingKey (hcore ref) fun _ => rfl).symm
    · exact (selectSession_of_core htable.count htable.configured hcore _).trans h.index
    · change Unused (WgSession.replay (WgTunnel.getSession (payloadReceived ..) ref)) _
      rw [hsessions, Function.update_self]
      exact unused_wgCounterValidate h.unused hlimit
    · exact (congrArg Option.isSome htable.recvCb).trans h.callback
  · rename_i hlimit
    rw [decide_eq_false hlimit, if_pos (by decide)] at hout
    rw [hout]
    rfl

end Receiving

section Carrying

/-- The ring of a receiver that has read everything, or whose sequence number is
the largest one, so that it waits for ever. -/
def Channel.Settled : Channel → Prop
  | .udp => True
  | .relay ring =>
      ring.wseq = ring.wseqLocal ∧ (ring.rseq = ring.wseq ∨ ring.rseq = 0xFFFFFFFF)

/-- The channel hands the packet on. -/
def Channel.Fits (packet : Bytes) : Channel → Prop
  | .udp => True
  | .relay ring =>
      packet.length ≤ ringDataMax ∧ ring.wseqLocal ≠ 0xFFFFFFFF ∧ ring.rseq = ring.wseq

theorem Channel.Drained.settled {channel : Channel} (h : channel.Drained) :
    channel.Settled := by
  cases channel with
  | udp => trivial
  | relay ring => exact ⟨h.1, .inl h.2⟩

theorem le_last (x : UInt32) : x ≤ 0xFFFFFFFF := by
  rw [UInt32.le_iff_toNat_le]
  exact Nat.le_of_lt_succ x.toNat_lt

theorem add_one_le_iff (x : UInt32) : x ≥ x + 1 ↔ x = 0xFFFFFFFF := by
  rw [ge_iff_le, UInt32.le_iff_toNat_le, ← UInt32.toNat_inj, UInt32.toNat_add]
  have hlt := x.toNat_lt
  change (x.toNat + 1) % 2 ^ 32 ≤ x.toNat ↔ x.toNat = 4294967295
  omega

variable {P : Primitives} {a : Carry} {tun : WgTunnel} {packet : Bytes}

theorem drain_waits {ring : Ring} (h : ring.rseq ≥ ring.wseq) (calls : Nat) :
    drain P a tun ring calls = (tun, ring, []) := by
  induction calls with
  | zero => rfl
  | succ calls ih =>
      unfold drain
      rw [wgSocketRecvRelay_waits h]
      exact ih

theorem transfer_relay {ring ring' : Ring} (h : wgRelayInput ring packet = some ring') :
    transfer P a tun (.relay ring) packet =
      let out := drain P a tun (wgRelayCommit ring') (a.calls + 1)
      (out.1, .relay out.2.1, out.2.2) := by
  simp only [transfer, h]

theorem waits_of_settled {ring : Ring} (h : (Channel.relay ring).Settled) :
    ring.rseq ≥ ring.wseq := by
  rcases h.2 with heq | hlast
  · rw [heq]
    exact UInt32.le_refl _
  · rw [hlast]
    exact le_last _

theorem transfer_too_long {ring : Ring} (h : (Channel.relay ring).Settled)
    (hlong : packet.length > ringDataMax) :
    transfer P a tun (.relay ring) packet = (tun, .relay ring, []) := by
  have hinput : wgRelayInput ring packet = some ring := by
    unfold wgRelayInput
    rw [if_pos hlong]
  have hring : wgRelayCommit ring = ring :=
    congrArg (fun w => { ring with wseq := w }) h.1.symm
  rw [transfer_relay hinput, hring, drain_waits (waits_of_settled h)]

/-- The ring after a packet was written and committed. -/
def ringWith (ring : Ring) (packet : Bytes) : Ring :=
  { ring with
    slots := update ring.slots (slotIndex ring.wseqLocal)
      ⟨UInt16.ofNat packet.length,
        packet ++ (ring.slots (slotIndex ring.wseqLocal)).data.drop packet.length⟩
    wseqLocal := ring.wseqLocal + 1
    wseq := ring.wseqLocal + 1 }

theorem transfer_written {ring : Ring} (h : (Channel.relay ring).Settled)
    (hlen : packet.length ≤ ringDataMax) :
    transfer P a tun (.relay ring) packet =
      let out := drain P a tun (ringWith ring packet) (a.calls + 1)
      (out.1, .relay out.2.1, out.2.2) := by
  have hfree : ¬ ring.wseqLocal - ring.wseq ≥ 252 := by
    rw [h.1, UInt32.sub_self]
    decide
  obtain ⟨ring', hinput⟩ : ∃ ring', wgRelayInput ring packet = some ring' := by
    unfold wgRelayInput
    rw [if_neg (Nat.not_lt.mpr hlen), if_neg hfree]
    exact ⟨_, rfl⟩
  rw [transfer_relay hinput, wgRelayInput_eq_some hlen hinput]
  rfl

theorem drain_ringWith {ring : Ring} (heq : ring.rseq = ring.wseqLocal)
    (hne : ring.wseqLocal ≠ 0xFFFFFFFF) (hpos : 1 ≤ packet.length)
    (hlen : packet.length ≤ ringDataMax) :
    drain P a tun (ringWith ring packet) (a.calls + 1) =
      ((recvThreadIteration P tun ⟨true, .ofBytes packet none, a.draws, a.recvNow⟩).1,
        { ringWith ring packet with rseq := ring.rseq + 1 },
        (recvThreadIteration P tun ⟨true, .ofBytes packet none, a.draws, a.recvNow⟩).2) := by
  have htake : wgSocketRecvRelay (ringWith ring packet) wgMaxPacketSize (a.polls + 1) =
      (some packet, { ringWith ring packet with rseq := ring.rseq + 1 }) := by
    apply wgSocketRecvRelay_takes
    · change ¬ ring.rseq ≥ ring.wseqLocal + 1
      rw [heq, add_one_le_iff]
      exact hne
    · change ¬ ring.wseqLocal + 1 - ring.rseq > 256
      rw [heq, UInt32.add_comm, UInt32.add_sub_cancel]
      decide
    · change HoldsPacket (update ring.slots (slotIndex ring.wseqLocal) _
        (slotIndex ring.rseq)) packet
      rw [heq, update_self]
      exact holdsPacket_written hlen
    · exact hpos
    · exact Nat.le_trans hlen (by decide)
  unfold drain
  rw [htake]
  dsimp only
  rw [drain_waits, List.append_nil]
  change ring.rseq + 1 ≥ ring.wseqLocal + 1
  rw [heq]
  exact UInt32.le_refl _

theorem transfer_relay_cases {ring : Ring} (h : (Channel.relay ring).Settled)
    (hpos : 1 ≤ packet.length) :
    ((Channel.relay ring).Fits packet ∧ ∃ channel' : Channel, channel'.Drained ∧
      transfer P a tun (.relay ring) packet =
        ((recvThreadIteration P tun ⟨true, .ofBytes packet none, a.draws, a.recvNow⟩).1,
          channel',
          (recvThreadIteration P tun ⟨true, .ofBytes packet none, a.draws, a.recvNow⟩).2)) ∨
    (¬ (Channel.relay ring).Fits packet ∧ ∃ channel' : Channel, channel'.Settled ∧
      transfer P a tun (.relay ring) packet = (tun, channel', [])) := by
  rcases Nat.lt_or_ge ringDataMax packet.length with hlong | hlen
  · exact .inr ⟨fun hfits => Nat.not_le.mpr hlong hfits.1, .relay ring, h,
      transfer_too_long h hlong⟩
  rw [transfer_written h hlen]
  by_cases hwait : ring.rseq ≥ ring.wseqLocal + 1
  · have hstuck : ring.rseq = 0xFFFFFFFF := by
      rcases h.2 with heq | hlast
      · rw [heq, h.1] at hwait ⊢
        exact (add_one_le_iff _).mp hwait
      · exact hlast
    refine .inr ⟨?_, .relay (ringWith ring packet), ⟨rfl, .inr hstuck⟩, ?_⟩
    · rintro ⟨-, hne, heq⟩
      exact hne (h.1.symm.trans (heq.symm.trans hstuck))
    · rw [drain_waits]
      exact hwait
  · have heq : ring.rseq = ring.wseqLocal := by
      rcases h.2 with heq | hlast
      · exact heq.trans h.1
      · rw [hlast] at hwait
        exact absurd (le_last _) hwait
    have hne : ring.wseqLocal ≠ 0xFFFFFFFF := by
      rw [heq, add_one_le_iff] at hwait
      exact hwait
    refine .inl ⟨⟨hlen, hne, heq.trans h.1.symm⟩, _, ?_,
      by rw [drain_ringWith heq hne hpos hlen]⟩
    exact ⟨rfl, congrArg (· + 1) heq⟩

/-- A packet reaches one iteration of the receive thread, or is lost. -/
theorem transfer_cases {channel : Channel} (h : channel.Settled) (hpos : 1 ≤ packet.length) :
    (channel.Fits packet ∧ ∃ (channel' : Channel) (src : Option SockAddr),
      (channel.Drained → channel'.Drained) ∧ channel'.Settled ∧
      transfer P a tun channel packet =
        ((recvThreadIteration P tun ⟨true, .ofBytes packet src, a.draws, a.recvNow⟩).1,
          channel',
          (recvThreadIteration P tun ⟨true, .ofBytes packet src, a.draws, a.recvNow⟩).2)) ∨
    (¬ channel.Fits packet ∧ ∃ channel' : Channel, channel'.Settled ∧
      transfer P a tun channel packet = (tun, channel', [])) := by
  cases channel with
  | udp => exact .inl ⟨trivial, .udp, some a.src, id, trivial, rfl⟩
  | relay ring =>
      rcases transfer_relay_cases h hpos with ⟨hfits, channel', hdrained, hout⟩ | hlost
      · exact .inl ⟨hfits, channel', none, fun _ => hdrained, hdrained.settled, hout⟩
      · exact .inr hlost

variable {via : Sender} {s : Carriage}

theorem carryStep_eq (h : Returned P via s a) :
    carryStep P via s a =
      let out := transfer P a s.receiver s.channel
        (transportPacket P (s.sender.getSession via.ref) a.data.1)
      (⟨(send P via s.sender a).2.1, out.1, out.2.1⟩, payloads out.2.2) := by
  unfold carryStep
  dsimp only
  rw [(send_returned h).2.1]
  simp only [transferAll, List.append_nil]

theorem transportPacket_pos (P : Primitives) (sess : WgSession) (data : Bytes) :
    1 ≤ (transportPacket P sess data).length := by
  rw [transportPacket_length]
  simp only [sizeofTransport]
  omega

theorem carryStep_length (h : Returned P via s a) (hsettled : s.channel.Settled) :
    (carryStep P via s a).2.length ≤ 1 ∧ (carryStep P via s a).1.channel.Settled := by
  rw [carryStep_eq h]
  dsimp only
  rcases @transfer_cases P a s.receiver _ s.channel hsettled
    (transportPacket_pos P (s.sender.getSession via.ref) a.data.1) with
    ⟨-, channel', src, -, hnext, hout⟩ | ⟨-, channel', hnext, hout⟩
  · rw [hout]
    exact ⟨payloads_transportPacket_length .., hnext⟩
  · rw [hout]
    exact ⟨Nat.zero_le 1, hnext⟩

theorem carried_iff (ref : SessionRef) (h : Agreed via ref s) :
    Carried via s a ↔
      (s.sender.getSession via.ref).sendingCounter < wgRejectAfterMessages ∧
        s.channel.Fits (transportPacket P (s.sender.getSession via.ref) a.data.1) := by
  have hdrained := h.drained
  unfold Carried
  refine and_congr_right fun _ => ?_
  cases hchannel : s.channel with
  | udp => exact Iff.rfl
  | relay ring =>
      rw [hchannel] at hdrained
      simp only [Channel.Fits, transportPacket_length]
      exact ⟨fun hfits => ⟨hfits.1, hfits.2, hdrained.2⟩, fun hfits => ⟨hfits.1, hfits.2.1⟩⟩

/-- One payload over an agreed pair of sessions. -/
theorem carryStep_agreed (hP : P.Lawful) {ref : SessionRef} (h : Agreed via ref s)
    (hreturned : Returned P via s a)
    (hfresh : ¬ (s.receiver.getSession ref).Expired a.recvNow) :
    (Carried via s a ∧ (carryStep P via s a).2 = [a.data.1] ∧
      Agreed via ref (carryStep P via s a).1 ∧
      ((carryStep P via s a).1.receiver.getSession ref).lastHandshake =
        (s.receiver.getSession ref).lastHandshake) ∨
    (¬ Carried via s a ∧ (carryStep P via s a).2 = []) := by
  have hsender := (send_returned hreturned).2.2
  rw [@carried_iff P a via s ref h, carryStep_eq hreturned]
  dsimp only
  rcases @transfer_cases P a s.receiver _ s.channel h.drained.settled
    (transportPacket_pos P (s.sender.getSession via.ref) a.data.1) with
    ⟨hfits, channel', src, hdrained, -, hout⟩ | ⟨hnot, channel', -, hout⟩
  · rw [hout, recvThreadIteration_transportPacket]
    have hreceives : Receives (s.sender.getSession via.ref) ref s.receiver :=
      ⟨h.key, h.index, h.unused, h.callback⟩
    have hfresh' : ¬ ((noteSource s.receiver src).getSession ref).Expired a.recvNow := by
      rw [getSession_noteSource]
      exact hfresh
    have hstep := recvTransport_transportPacket hP (hreceives.noteSource src) a.data.2 hfresh'
    dsimp only at hstep ⊢
    split at hstep
    · rename_i hlimit
      obtain ⟨hpayload, hnext, htime⟩ := hstep
      refine .inl ⟨⟨hlimit, hfits⟩, hpayload, ⟨?_, ?_, ?_, hnext.callback, hdrained h.drained⟩, ?_⟩
      · rw [hsender]
        exact hnext.key
      · rw [hsender]
        exact hnext.index
      · rw [hsender]
        exact hnext.unused
      · rw [getSession_noteSource] at htime
        exact htime
    · rename_i hlimit
      exact .inr ⟨fun hcarried => hlimit hcarried.1, hstep⟩
  · rw [hout]
    exact .inr ⟨fun hcarried => hnot hcarried.2, rfl⟩

/-- No more payloads come out than were accepted. -/
theorem length_run_le (inputs : List Carry) (hsettled : s.channel.Settled)
    (hreturned : AllSteps (carryStep P via) (Returned P via) s inputs) :
    (run (carryStep P via) s inputs).2.length ≤ inputs.length := by
  induction inputs generalizing s with
  | nil => exact Nat.le_refl 0
  | cons a inputs ih =>
      obtain ⟨hone, hnext⟩ := carryStep_length hreturned.1 hsettled
      have hrest := ih hnext hreturned.2
      rw [run_cons_outputs, List.length_append, List.length_cons]
      omega

/-- The callback gets exactly the payloads that were accepted, exactly if each one
fits its way. -/
theorem transport_roundtrip_iff (hP : P.Lawful) (ref : SessionRef) (inputs : List Carry)
    (hagreed : Agreed via ref s)
    (hreturned : AllSteps (carryStep P via) (Returned P via) s inputs)
    (hfresh : ∀ a ∈ inputs, ¬ (s.receiver.getSession ref).Expired a.recvNow) :
    (run (carryStep P via) s inputs).2 = inputs.map (fun a => a.data.1) ↔
      AllSteps (carryStep P via) (Carried via) s inputs := by
  induction inputs generalizing s with
  | nil => exact iff_of_true rfl trivial
  | cons a inputs ih =>
      rw [run_cons_outputs, List.map_cons]
      rcases carryStep_agreed hP hagreed hreturned.1 (hfresh a (List.mem_cons_self ..)) with
        ⟨hcarried, hout, hnext, htime⟩ | ⟨hlost, hout⟩
      · have hlater : ∀ b ∈ inputs,
            ¬ ((carryStep P via s a).1.receiver.getSession ref).Expired b.recvNow := by
          intro b hb
          unfold WgSession.Expired
          rw [htime]
          exact hfresh b (List.mem_cons_of_mem a hb)
        rw [hout, List.singleton_append, List.cons.injEq, ih hnext hreturned.2 hlater]
        exact ⟨fun hrest => ⟨hcarried, hrest.2⟩, fun hall => ⟨rfl, hall.2⟩⟩
      · -- What is lost here cannot be made up for later.
        rw [hout, List.nil_append]
        constructor
        · intro heq
          have hsettled := (carryStep_length hreturned.1 hagreed.drained.settled).2
          have hle := length_run_le inputs hsettled hreturned.2
          rw [heq, List.length_cons, List.length_map] at hle
          omega
        · intro hall
          exact absurd hall.1 hlost

/-- Two ends with one key in a fresh session, and an unused ring between them. -/
def sampleCarriage : Carriage where
  sender :=
    { sampleTunnel 3 5 with
      session :=
        { WgSession.zeroed with valid := true, remoteIndex := 7, sendingKey := sampleKey 9 } }
  receiver :=
    { sampleTunnel 5 3 with
      session :=
        { WgSession.zeroed with valid := true, localIndex := 7, receivingKey := sampleKey 9 }
      recvCb := some 1 }
  channel := .relay Ring.initial

def sampleCarry (n : Nat) : Carry :=
  ⟨⟨List.replicate (n + 1) 0, by simp⟩, 0, true, ⟨0, 0⟩, ⟨sampleKey 0, 0, 0⟩, 0, 0, 0⟩

theorem agreed_sampleCarriage : Agreed .tunnel .legacy sampleCarriage :=
  ⟨rfl, by decide +kernel, unused_zeroed 0, rfl, rfl, rfl⟩

theorem returned_sampleCarry {n : Nat} (h : n ≤ 2015) :
    Returned additive .tunnel sampleCarriage (sampleCarry n) := by
  have hfits : packetTooLong (sampleCarry n).data.1 = false := by
    simp only [packetTooLong, sampleCarry, List.length_replicate, sizeofTransport, wgAeadTagLen,
      wgMaxPacketSize, decide_eq_false_iff_not]
    omega
  have hlive : wgSessionExpired sampleCarriage.sender (sampleCarry n).sendNow = false := by
    change wgSessionExpired sampleCarriage.sender 0 = false
    decide +kernel
  unfold Returned send wgSend
  rw [hfits, hlive]
  rfl

theorem transport_roundtrip_relayed :
    Agreed .tunnel .legacy sampleCarriage ∧
      Returned additive .tunnel sampleCarriage (sampleCarry 2011) ∧
      (run (carryStep additive .tunnel) sampleCarriage [sampleCarry 2011]).2 =
        [List.replicate 2012 0] := by
  have hreturned := returned_sampleCarry (show 2011 ≤ 2015 by omega)
  refine ⟨agreed_sampleCarriage, hreturned, ?_⟩
  refine (transport_roundtrip_iff additive_lawful .legacy [sampleCarry 2011]
    agreed_sampleCarriage ⟨hreturned, trivial⟩ ?_).mpr ⟨?_, trivial⟩
  · intro a ha
    rw [List.mem_singleton.mp ha]
    decide +kernel
  · refine ⟨by decide +kernel, ?_, by decide⟩
    simp only [sampleCarry, List.length_replicate, sizeofTransport, wgAeadTagLen]
    decide

/-- One byte more is accepted by `wg_send` and dropped by the ring. -/
theorem payload_lost_in_ring :
    Agreed .tunnel .legacy sampleCarriage ∧
      ¬ (sampleCarriage.receiver.getSession .legacy).Expired (sampleCarry 2012).recvNow ∧
      (send additive .tunnel sampleCarriage.sender (sampleCarry 2012)).1 = .ok 2013 ∧
      (run (carryStep additive .tunnel) sampleCarriage [sampleCarry 2012]).2 = [] := by
  have hreturned := returned_sampleCarry (show 2012 ≤ 2015 by omega)
  have hfresh : ¬ (sampleCarriage.receiver.getSession .legacy).Expired
      (sampleCarry 2012).recvNow := by decide +kernel
  have hlength : (sampleCarry 2012).data.1.length = 2013 := List.length_replicate
  refine ⟨agreed_sampleCarriage, hfresh, ?_, ?_⟩
  · exact hreturned.trans (congrArg Except.ok hlength)
  · rcases carryStep_agreed additive_lawful agreed_sampleCarriage hreturned hfresh with
      ⟨hcarried, -⟩ | ⟨-, hout⟩
    · have hslot : sizeofTransport + (sampleCarry 2012).data.1.length + wgAeadTagLen ≤
          ringDataMax := hcarried.2.1
      rw [hlength] at hslot
      exact absurd hslot (by decide)
    · rw [run_cons_outputs, hout]
      rfl

end Carrying

end WgNx.TransportRoundTrip
