import WgNx.NoiseHandshake

/-!
The two parties of a handshake derive the same transport keys.

The responder's transcript of an INIT equals the initiator's because the two
Diffie-Hellman results in it commute; from then on both run
`responseTranscript`, whose two further results commute as well.
-/

namespace WgNx.NoiseAgreement

open WgNx.ByteLayout
open WgNx.CryptoPrimitives
open WgNx.NoiseHandshake
open WgNx.TunnelSetup
open WgNx.TunnelState
open WgNx.WireMessages

section Transcripts

variable {P : Primitives}

theorem openInit_buildInit (hP : P.Lawful) (is rs : Key) (d : InitDraws) (mac2 : Mac) :
    openInit P rs (P.cryptoX25519PublicKey rs)
        { (buildInit P is (P.cryptoX25519PublicKey is)
            (P.cryptoX25519PublicKey rs) d).1 with mac2 := mac2 } =
      some ({ (buildInit P is (P.cryptoX25519PublicKey is)
          (P.cryptoX25519PublicKey rs) d).2 with ephemeralPrivate := zeroKey },
        P.cryptoX25519PublicKey is) := by
  have hes := hP.x25519_comm rs (clampPrivate d.ephemeral)
  have hss := hP.x25519_comm rs is
  simp only [openInit, readInit, buildInit, tokenE, tokenDhKey, wgMixHash,
    wgHandshakeInitState, hes, hP.aead_roundtrip, hss, Option.map_some]

theorem readResponse_buildResponse (hP : P.Lawful) (is psk : Key)
    (msg : WgHandshakeInit) (state : WgHandshakeState)
    (hmsg : msg.ephemeral = P.cryptoX25519PublicKey state.ephemeralPrivate)
    (d : RespDraws) :
    (readResponse P is psk
        (buildResponse P psk (P.cryptoX25519PublicKey is) msg
          { state with ephemeralPrivate := zeroKey } d).1 state).2 = true ∧
      (readResponse P is psk
        (buildResponse P psk (P.cryptoX25519PublicKey is) msg
          { state with ephemeralPrivate := zeroKey } d).1 state).1.chainingKey =
      (buildResponse P psk (P.cryptoX25519PublicKey is) msg
        { state with ephemeralPrivate := zeroKey } d).2 := by
  have hee := hP.x25519_comm (clampPrivate d.ephemeral) state.ephemeralPrivate
  have hse := hP.x25519_comm (clampPrivate d.ephemeral) is
  simp only [readResponse, buildResponse, responseTranscript, tokenE, tokenDh,
    tokenPsk, wgMixHash, hmsg, hee, hse, hP.aead_roundtrip, and_self]

theorem mac1_buildInit (is isPublic peerPublic : Key) (d : InitDraws) (mac2 : Mac) :
    wgComputeMac1 P peerPublic
        (({ (buildInit P is isPublic peerPublic d).1 with mac2 := mac2 } :
          WgHandshakeInit).toBytes.take (sizeofInit - 2 * 16)) =
      (buildInit P is isPublic peerPublic d).1.mac1 := by
  simp [buildInit, WgHandshakeInit.toBytes, sizeofInit, List.take_append]

end Transcripts

structure SessionsMatch (a b : WgSession) : Prop where
  sending : a.sendingKey = b.receivingKey
  receiving : a.receivingKey = b.sendingKey
  remote : a.remoteIndex = b.localIndex
  localIndex : b.remoteIndex = a.localIndex

theorem SessionsMatch.symm {a b : WgSession} (h : SessionsMatch a b) : SessionsMatch b a :=
  ⟨h.receiving.symm, h.sending.symm, h.localIndex, h.remote⟩

def CountersZero (sess : WgSession) : Prop :=
  sess.sendingCounter = 0 ∧ sess.receivingCounter = 0

/-- The session record in which an INIT from `publicKey` ends up. -/
def responderRef (tun : WgTunnel) (publicKey : Key) : SessionRef :=
  match wgFindPeerByPublicKey tun publicKey with
  | none => .legacy
  | some i => .peer i

section Exchange

variable {P : Primitives}

/-- The responder accepts an INIT addressed to it, and its session is made from
the transcript of the initiator. -/
theorem wgHandshakeInitProcess_buildInit (hP : P.Lawful) (is : Key) (tr : WgTunnel)
    (htr : tr.staticPublic = P.cryptoX25519PublicKey tr.staticPrivate)
    (d : InitDraws) (mac2 : Mac) (rd : RespDraws) {msg : WgHandshakeInit}
    {state : WgHandshakeState} {built : WgHandshakeResponse × Hash}
    (hmsg : msg = { (buildInit P is (P.cryptoX25519PublicKey is)
      tr.staticPublic d).1 with mac2 := mac2 })
    (hstate : state = (buildInit P is (P.cryptoX25519PublicKey is)
      tr.staticPublic d).2)
    (hbuilt : built = buildResponse P tr.psk (P.cryptoX25519PublicKey is) msg
      { state with ephemeralPrivate := zeroKey } rd) :
    wgHandshakeInitProcess P tr msg rd =
      (.ok, match wgFindPeerByPublicKey tr (P.cryptoX25519PublicKey is) with
        | none => respondLegacy { tr with lastMac1 := msg.mac1 } msg
            (P.cryptoX25519PublicKey is) built.1 (P.wgKdf2 built.2 []) rd
        | some i => respondPeer { tr with lastMac1 := msg.mac1 } i msg
            built.1 (P.wgKdf2 built.2 []) rd) := by
  have hopen : openInit P tr.staticPrivate tr.staticPublic msg =
      some ({ state with ephemeralPrivate := zeroKey }, P.cryptoX25519PublicKey is) := by
    rw [hmsg, hstate, htr]
    exact openInit_buildInit hP is tr.staticPrivate d mac2
  have hmac : mac1Ok P tr msg = true := by
    rw [mac1Ok, beq_iff_eq, hmsg]
    exact mac1_buildInit is _ tr.staticPublic d mac2
  have htype : msg.type = wgMsgHandshakeInit := by
    rw [hmsg]
    rfl
  simp only [wgHandshakeInitProcess, htype, hmac, hopen, ne_eq, not_true_eq_false,
    if_false, Bool.not_true, Bool.false_eq_true]
  subst hbuilt
  change (match wgFindPeerByPublicKey tr (P.cryptoX25519PublicKey is) with
    | none => _ | some i => _) = _
  cases wgFindPeerByPublicKey tr (P.cryptoX25519PublicKey is) <;> rfl

/-- An initiator that is still in the attempt of its INIT accepts the RESPONSE
and ends with the responder's keys. -/
theorem wgHandshakeResponse_buildResponse (hP : P.Lawful) (ti : WgTunnel)
    (msg : WgHandshakeInit) (state : WgHandshakeState) (rd : RespDraws)
    (now : UInt64) {built : WgHandshakeResponse × Hash}
    (hmsg : msg.ephemeral = P.cryptoX25519PublicKey state.ephemeralPrivate)
    (hindex : msg.senderIndex = ti.session.localIndex)
    (hbuilt : built = buildResponse P ti.psk (P.cryptoX25519PublicKey ti.staticPrivate)
      msg { state with ephemeralPrivate := zeroKey } rd) :
    wgHandshakeResponse P ti built.1 state now =
      let session := { ti.session with remoteIndex := rd.index }
      let installed :=
        { completedSession session (P.wgKdf2 built.2 []) now with
          rekeyInProgress := false }
      (.ok,
        { ti with
          session := installed
          prevSession :=
            if session.valid then { session with localIndex := session.oldLocalIndex }
            else ti.prevSession },
        .zeroed, [.established .legacy installed]) := by
  obtain ⟨htag, hck⟩ :=
    readResponse_buildResponse hP ti.staticPrivate ti.psk msg state hmsg rd
  rw [← hbuilt] at htag hck
  have htype : built.1.type = wgMsgHandshakeResponse := by
    rw [hbuilt]
    rfl
  have hreceiver : built.1.receiverIndex = ti.session.localIndex := by
    rw [hbuilt, ← hindex]
    rfl
  have hsender : built.1.senderIndex = rd.index := by
    rw [hbuilt]
    rfl
  simp only [wgHandshakeResponse, htype, hreceiver, hsender, htag, hck, ne_eq,
    not_true_eq_false, if_false, Bool.not_true, Bool.false_eq_true]

theorem wgHandshakeInitProcessResponse_buildResponse (hP : P.Lawful)
    (ti : WgTunnel) (i : Nat) (msg : WgHandshakeInit) (rd : RespDraws)
    (now : UInt64) {built : WgHandshakeResponse × Hash}
    (hmsg : msg.ephemeral =
      P.cryptoX25519PublicKey (ti.peers.get i).pendingHs.ephemeralPrivate)
    (hindex : msg.senderIndex = (ti.peers.get i).session.localIndex)
    (hbuilt : built = buildResponse P ti.psk (P.cryptoX25519PublicKey ti.staticPrivate)
      msg { (ti.peers.get i).pendingHs with ephemeralPrivate := zeroKey } rd) :
    wgHandshakeInitProcessResponse P ti i built.1 now =
      let session := { (ti.peers.get i).session with remoteIndex := rd.index }
      let installed := completedSession session (P.wgKdf2 built.2 []) now
      (.ok,
        { ti with
          peers := ti.peers.modify i fun p =>
            { p with session := installed, pendingHs := .zeroed, hsPending := false } },
        [.established (.peer i) installed]) := by
  obtain ⟨htag, hck⟩ := readResponse_buildResponse hP ti.staticPrivate ti.psk msg
    (ti.peers.get i).pendingHs hmsg rd
  rw [← hbuilt] at htag hck
  have htype : built.1.type = wgMsgHandshakeResponse := by
    rw [hbuilt]
    rfl
  have hreceiver : built.1.receiverIndex = (ti.peers.get i).session.localIndex := by
    rw [hbuilt, ← hindex]
    rfl
  have hsender : built.1.senderIndex = rd.index := by
    rw [hbuilt]
    rfl
  simp only [wgHandshakeInitProcessResponse, htype, hreceiver, hsender, htag, hck,
    ne_eq, not_true_eq_false, if_false, Bool.not_true, Bool.false_eq_true]

theorem responder_after_init (hP : P.Lawful) (is : Key) (tr : WgTunnel)
    (htr : tr.staticPublic = P.cryptoX25519PublicKey tr.staticPrivate)
    (d : InitDraws) (mac2 : Mac) (rd : RespDraws) {msg : WgHandshakeInit}
    {state : WgHandshakeState} {built : WgHandshakeResponse × Hash}
    (hmsg : msg = { (buildInit P is (P.cryptoX25519PublicKey is)
      tr.staticPublic d).1 with mac2 := mac2 })
    (hstate : state = (buildInit P is (P.cryptoX25519PublicKey is)
      tr.staticPublic d).2)
    (hbuilt : built = buildResponse P tr.psk (P.cryptoX25519PublicKey is) msg
      { state with ephemeralPrivate := zeroKey } rd) :
    let got := wgHandshakeInitProcess P tr msg rd
    let ref := responderRef tr (P.cryptoX25519PublicKey is)
    got.1 = .ok ∧
      openInit P tr.staticPrivate tr.staticPublic msg =
        some ({ state with ephemeralPrivate := zeroKey }, P.cryptoX25519PublicKey is) ∧
      (∃ dest, .sent dest built.1.toBytes ∈ got.2.2) ∧
      got.2.1.getSession ref =
        respondedSession (tr.getSession ref) (P.wgKdf2 built.2 []) rd d.index := by
  have hopen : openInit P tr.staticPrivate tr.staticPublic msg =
      some ({ state with ephemeralPrivate := zeroKey }, P.cryptoX25519PublicKey is) := by
    rw [hmsg, hstate, htr]
    exact openInit_buildInit hP is tr.staticPrivate d mac2
  have hindex : msg.senderIndex = d.index := by
    rw [hmsg]
    rfl
  rw [wgHandshakeInitProcess_buildInit hP is tr htr d mac2 rd hmsg hstate hbuilt]
  cases hfind : wgFindPeerByPublicKey tr (P.cryptoX25519PublicKey is) with
  | none =>
      simp [responderRef, hfind, respondLegacy, WgTunnel.getSession, hindex, hopen]
  | some i =>
      have hi : i < tr.peers.count := PeerTable.find_lt hfind
      simp [responderRef, hfind, respondPeer, WgTunnel.getSession, hindex, hopen,
        PeerTable.get_modify _ _ _ _ hi]

end Exchange

section Agreement

variable {P : Primitives} (hP : P.Lawful) (ti tr : WgTunnel)
  (hti : ti.staticPublic = P.cryptoX25519PublicKey ti.staticPrivate)
  (htr : tr.staticPublic = P.cryptoX25519PublicKey tr.staticPrivate)
  (hpsk : ti.psk = tr.psk) (d : InitDraws) (rd : RespDraws) (now : UInt64)

include hP hti htr hpsk

theorem legacy_key_agreement (hpeer : ti.peerPublic = tr.staticPublic) :
    let sent := wgHandshakeInit P ti d
    let got := wgHandshakeInitProcess P tr sent.2.1 rd
    let ref := responderRef tr ti.staticPublic
    got.1 = .ok ∧
    (∃ state, openInit P tr.staticPrivate tr.staticPublic sent.2.1 =
      some (state, ti.staticPublic)) ∧
    ∃ dest response, .sent dest response.toBytes ∈ got.2.2 ∧
      let done := wgHandshakeResponse P sent.1 response sent.2.2 now
      done.1 = .ok ∧
      SessionsMatch done.2.1.session (got.2.1.getSession ref) ∧
      CountersZero done.2.1.session ∧ CountersZero (got.2.1.getSession ref) := by
  have hmsg : (wgHandshakeInit P ti d).2.1 =
      { (buildInit P ti.staticPrivate (P.cryptoX25519PublicKey ti.staticPrivate)
          tr.staticPublic d).1 with
        mac2 := (wgHandshakeInit P ti d).2.1.mac2 } := by
    rw [← hti, ← hpeer]
    rfl
  have hstate : (wgHandshakeInit P ti d).2.2 =
      (buildInit P ti.staticPrivate (P.cryptoX25519PublicKey ti.staticPrivate)
        tr.staticPublic d).2 := by
    rw [← hti, ← hpeer]
    rfl
  obtain ⟨hok, hopen, ⟨dest, hsent⟩, hsession⟩ := responder_after_init hP
    ti.staticPrivate tr htr d _ rd hmsg hstate rfl
  have hdone := wgHandshakeResponse_buildResponse hP (wgHandshakeInit P ti d).1
    (wgHandshakeInit P ti d).2.1 (wgHandshakeInit P ti d).2.2 rd now rfl rfl rfl
  have hpsk' : (wgHandshakeInit P ti d).1.psk = tr.psk := hpsk
  rw [hpsk'] at hdone
  rw [hti]
  refine ⟨hok, ⟨_, hopen⟩, dest, _, hsent, ?_⟩
  dsimp only
  rw [hsession]
  refine ⟨?_, ⟨?_, ?_, ?_, ?_⟩, ⟨?_, ?_⟩, rfl, rfl⟩
  all_goals exact hdone ▸ rfl

theorem entry_key_agreement {i : Nat} (hi : i < ti.peers.count)
    (hpeer : (ti.peers.get i).publicKey = tr.staticPublic) :
    let sent := wgHandshakeInitPeer P ti i d
    let got := wgHandshakeInitProcess P tr sent.2.1 rd
    let ref := responderRef tr ti.staticPublic
    let stored := { sent.1 with
      peers := sent.1.peers.modify i fun p => { p with pendingHs := sent.2.2 } }
    got.1 = .ok ∧
    (∃ state, openInit P tr.staticPrivate tr.staticPublic sent.2.1 =
      some (state, ti.staticPublic)) ∧
    ∃ dest response, .sent dest response.toBytes ∈ got.2.2 ∧
      let done := wgHandshakeInitProcessResponse P stored i response now
      done.1 = .ok ∧
      SessionsMatch (done.2.1.peers.get i).session (got.2.1.getSession ref) ∧
      CountersZero (done.2.1.peers.get i).session ∧
      CountersZero (got.2.1.getSession ref) := by
  have hmsg : (wgHandshakeInitPeer P ti i d).2.1 =
      { (buildInit P ti.staticPrivate (P.cryptoX25519PublicKey ti.staticPrivate)
          tr.staticPublic d).1 with
        mac2 := (wgHandshakeInitPeer P ti i d).2.1.mac2 } := by
    rw [← hti, ← hpeer]
    rfl
  have hstate : (wgHandshakeInitPeer P ti i d).2.2 =
      (buildInit P ti.staticPrivate (P.cryptoX25519PublicKey ti.staticPrivate)
        tr.staticPublic d).2 := by
    rw [← hti, ← hpeer]
    rfl
  obtain ⟨hok, hopen, ⟨dest, hsent⟩, hsession⟩ := responder_after_init hP
    ti.staticPrivate tr htr d _ rd hmsg hstate rfl
  let stored := { (wgHandshakeInitPeer P ti i d).1 with
    peers := (wgHandshakeInitPeer P ti i d).1.peers.modify i fun p =>
      { p with pendingHs := (wgHandshakeInitPeer P ti i d).2.2 } }
  have hcount : i < stored.peers.count := by
    simpa [stored, wgHandshakeInitPeer] using hi
  have hpending : (stored.peers.get i).pendingHs = (wgHandshakeInitPeer P ti i d).2.2 ∧
      (stored.peers.get i).session.localIndex = d.index := by
    simp [stored, wgHandshakeInitPeer, PeerTable.get_modify, hi]
  have hdone := wgHandshakeInitProcessResponse_buildResponse hP stored i
    (wgHandshakeInitPeer P ti i d).2.1 rd now (by rw [hpending.1]; rfl)
    (by rw [hpending.2]; rfl) rfl
  have hpsk' : stored.psk = tr.psk := hpsk
  rw [hpsk', hpending.1] at hdone
  rw [hti]
  refine ⟨hok, ⟨_, hopen⟩, dest, _, hsent, ?_⟩
  dsimp only
  rw [hsession]
  have hdone' := congrArg (fun r => (r.1, (r.2.1.peers.get i).session)) hdone
  simp only [PeerTable.get_modify _ _ _ _ hcount, if_true] at hdone'
  rw [Prod.mk.injEq] at hdone'
  refine ⟨hdone'.1, ⟨?_, ?_, ?_, ?_⟩, ⟨?_, ?_⟩, rfl, rfl⟩
  all_goals refine hdone'.2 ▸ ?_
  all_goals first | rfl | exact hpending.2.symm

end Agreement

/-- An INIT from either initiator is accepted by the responder it is addressed
to, which recovers the initiator's static key; its RESPONSE is accepted by the
corresponding reader; and the two sessions then match with all counters zero. -/
theorem noise_key_agreement {P : Primitives} (hP : P.Lawful) (ti tr : WgTunnel)
    (hti : ti.staticPublic = P.cryptoX25519PublicKey ti.staticPrivate)
    (htr : tr.staticPublic = P.cryptoX25519PublicKey tr.staticPrivate)
    (hpsk : ti.psk = tr.psk) (d : InitDraws) (rd : RespDraws) (now : UInt64) :
    (ti.peerPublic = tr.staticPublic →
      let sent := wgHandshakeInit P ti d
      let got := wgHandshakeInitProcess P tr sent.2.1 rd
      let ref := responderRef tr ti.staticPublic
      got.1 = .ok ∧
      (∃ state, openInit P tr.staticPrivate tr.staticPublic sent.2.1 =
        some (state, ti.staticPublic)) ∧
      ∃ dest response, .sent dest response.toBytes ∈ got.2.2 ∧
        let done := wgHandshakeResponse P sent.1 response sent.2.2 now
        done.1 = .ok ∧
        SessionsMatch done.2.1.session (got.2.1.getSession ref) ∧
        CountersZero done.2.1.session ∧ CountersZero (got.2.1.getSession ref)) ∧
    (∀ i < ti.peers.count, (ti.peers.get i).publicKey = tr.staticPublic →
      let sent := wgHandshakeInitPeer P ti i d
      let got := wgHandshakeInitProcess P tr sent.2.1 rd
      let ref := responderRef tr ti.staticPublic
      let stored := { sent.1 with
        peers := sent.1.peers.modify i fun p => { p with pendingHs := sent.2.2 } }
      got.1 = .ok ∧
      (∃ state, openInit P tr.staticPrivate tr.staticPublic sent.2.1 =
        some (state, ti.staticPublic)) ∧
      ∃ dest response, .sent dest response.toBytes ∈ got.2.2 ∧
        let done := wgHandshakeInitProcessResponse P stored i response now
        done.1 = .ok ∧
        SessionsMatch (done.2.1.peers.get i).session (got.2.1.getSession ref) ∧
        CountersZero (done.2.1.peers.get i).session ∧
        CountersZero (got.2.1.getSession ref)) := by
  constructor
  · intro hpeer
    exact legacy_key_agreement hP ti tr hti htr hpsk d rd now hpeer
  · intro i hi hpeer
    exact entry_key_agreement hP ti tr hti htr hpsk d rd now hi hpeer

theorem noise_key_agreement_sample :
    let ti := wgAddPeer (sampleTunnel 3 5) (sampleKey 5) (Vector.replicate 36 0) 1
    let tr := wgAddPeer (sampleTunnel 5 3) (sampleKey 3) (Vector.replicate 36 0) 2
    let d : InitDraws := ⟨sampleKey 11, 17, Vector.replicate 12 1, 100⟩
    let rd : RespDraws := ⟨sampleKey 13, 19, 200⟩
    let sent := wgHandshakeInitPeer additive ti 0 d
    let got := wgHandshakeInitProcess additive tr sent.2.1 rd
    got.1 = .ok ∧ (got.2.1.getSession (responderRef tr ti.staticPublic)).remoteIndex = 17 := by
  intro ti tr d rd sent got
  obtain ⟨hok, -, dest, response, -, -, hmatch, -⟩ :=
    (noise_key_agreement additive_lawful ti tr rfl rfl rfl d rd 300).2 0
      (by decide) (by decide +kernel)
  exact ⟨hok, by decide +kernel⟩

end WgNx.NoiseAgreement
