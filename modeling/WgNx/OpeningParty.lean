import WgNx.CrossedOpening
import WgNx.EndpointMachine
import WgNx.NoiseAgreement

/-!
One of two tunnels that call `wg_connect` towards each other.

`PartyFits` relates the party to the attempt it waits for and to the exchange its
session comes from.  There is one lemma for every step that the party can take,
and one for every message of the other party that it can read; each of them says
what the party waits for and has afterwards, which indices it drew and which
datagrams it sent.
-/

namespace WgNx.OpeningParty

open WgNx.ByteLayout
open WgNx.CrossedOpening
open WgNx.CryptoPrimitives
open WgNx.EndpointMachine
open WgNx.NoiseAgreement
open WgNx.NoiseHandshake
open WgNx.RetryLoop
open WgNx.SessionCalls
open WgNx.TransportReceive
open WgNx.TransportSend
open WgNx.TunnelSetup
open WgNx.TunnelState
open WgNx.WireMessages

/-- Two parties that are configured for each other. -/
structure Setup where
  privateKey : Side → Key
  presharedKey : Key
  hasPresharedKey : Bool
  tunnelIp : Side → UInt32
  keepaliveInterval : Side → UInt16
  endpoint : Side → SockAddr

/-- A transport packet without payload. -/
def Keepalive : Type :=
  { m : Bytes // m.length = sizeofTransport + wgAeadTagLen ∧ getType m = wgMsgTransport }

section Messages

variable (P : Primitives) (u : Setup)

def Setup.publicKey (x : Side) : Key := P.cryptoX25519PublicKey (u.privateKey x)

def Setup.config (x : Side) : WgConfig where
  privateKey := u.privateKey x
  tunnelIp := u.tunnelIp x
  peerPublicKey := u.publicKey P x.other
  keepaliveInterval := u.keepaliveInterval x
  presharedKey := u.presharedKey
  hasPresharedKey := u.hasPresharedKey

/-- A party that has called `wg_connect` on a fresh handle. -/
def Setup.calling (x : Side) : Endpoint :=
  (step P (initial P (u.config P x) (u.endpoint x)) (.callConnect 3)).1

def Setup.psk : Key := if u.hasPresharedKey then u.presharedKey else zeroKey

/-- The INIT of an attempt and the handshake state that waits for its answer. -/
def Setup.offer (x : Side) (d : InitDraws) : WgHandshakeInit × WgHandshakeState :=
  buildInit P (u.privateKey x) (u.publicKey P x) (u.publicKey P x.other) d

/-- The RESPONSE to an attempt of `x` and the final chaining key. -/
def Setup.answer (x : Side) (d : InitDraws) (r : RespDraws) : WgHandshakeResponse × Hash :=
  buildResponse P u.psk (u.publicKey P x) (u.offer P x d).1
    { (u.offer P x d).2 with ephemeralPrivate := zeroKey } r

/-- The sending and the receiving key of the initiator. -/
def Setup.keys (x : Side) (d : InitDraws) (r : RespDraws) : Hash × Hash :=
  P.wgKdf2 (u.answer P x d r).2 []

/-- A message on its way to `x`. -/
def Setup.encode (x : Side) : Token InitDraws RespDraws Keepalive → Bytes
  | .offer d => (u.offer P x.other d).1.toBytes
  | .answer d r => (u.answer P x d r).1.toBytes
  | .other m => m.1

theorem getType_offer (x : Side) (d : InitDraws) :
    getType (u.offer P x d).1.toBytes = wgMsgHandshakeInit := rfl

theorem getType_answer (x : Side) (d : InitDraws) (r : RespDraws) :
    getType (u.answer P x d r).1.toBytes = wgMsgHandshakeResponse := rfl

theorem senderIndex_offer (x : Side) (d : InitDraws) :
    getU32 (u.offer P x d).1.toBytes 4 = d.index := by
  have hread := WgHandshakeInit.ofBytes_toBytes (u.offer P x d).1
  exact congrArg WgHandshakeInit.senderIndex hread

def keepaliveOf (sess : WgSession) : Keepalive :=
  ⟨transportPacket P sess [], by
    constructor
    · simp [transportPacket, sizeofTransport, wgAeadTagLen]
    · rfl⟩

end Messages

section Party

variable (P : Primitives) (u : Setup)

/-- The fields of a tunnel that the opening of a session leaves alone. -/
structure Fixed (x : Side) (tun : WgTunnel) : Prop where
  staticPrivate : tun.staticPrivate = u.privateKey x
  staticPublic : tun.staticPublic = u.publicKey P x
  peerPublic : tun.peerPublic = u.publicKey P x.other
  psk : tun.psk = u.psk
  peers : tun.peers = .empty
  hasCookie : tun.hasCookie = false
  pendingCookie : tun.pendingCookie = false

structure Keyed (sess : WgSession) (localIndex remoteIndex : UInt32)
    (sendingKey receivingKey : Key) : Prop where
  valid : sess.valid = true
  rekeyInProgress : sess.rekeyInProgress = false
  localIndex : sess.localIndex = localIndex
  remoteIndex : sess.remoteIndex = remoteIndex
  sendingKey : sess.sendingKey = sendingKey
  receivingKey : sess.receivingKey = receivingKey

/-- The session of `x` is the one its origin says. -/
def SessionFrom (x : Side) (sess : WgSession) : Option (Origin InitDraws RespDraws) → Prop
  | none => sess.valid = false
  | some (.initiator d r) =>
      Keyed sess d.index r.index (u.keys P x d r).1 (u.keys P x d r).2
  | some (.responder d r) =>
      Keyed sess r.index d.index (u.keys P x.other d r).2 (u.keys P x.other d r).1

/-- The phase of `x` fits what it waits for and what it has. -/
def PhaseFits (x : Side) (e : Endpoint) (waiting : Option InitDraws)
    (origin : Option (Origin InitDraws RespDraws)) : Prop :=
  match e.phase with
  | .connecting _ => waiting = none ∧ origin = none
  | .connectWait _ state => origin = none ∧ ∃ d, waiting = some d ∧
      state = (u.offer P x d).2 ∧ e.tun.session.localIndex = d.index
  | .connectDone err => waiting = none ∧ (err = .ok ↔ origin ≠ none)
  | .idle err => waiting = none ∧ (err = .ok ↔ origin ≠ none)
  | _ => False

structure PartyFits (x : Side) (e : Endpoint) (waiting : Option InitDraws)
    (origin : Option (Origin InitDraws RespDraws)) : Prop where
  fixed : Fixed P u x e.tun
  session : SessionFrom P u x e.tun.session origin
  phase : PhaseFits P u x e waiting origin
  running : e.tun.running = true → origin ≠ none

/-- What a step of `x` leads to. -/
structure Outcome (x : Side) (out : Endpoint × List Event) (waiting : Option InitDraws)
    (origin : Option (Origin InitDraws RespDraws)) (drawn : List UInt32)
    (sent : List Bytes) (established : Bool) : Prop where
  fits : PartyFits P u x out.1 waiting origin
  drawn : drawnIndices out.2 = drawn
  sent : datagrams out.2 = sent
  established : establishes out.2 = established

end Party

section Steps

variable {P : Primitives} {u : Setup} {x : Side} {tun : WgTunnel} {phase : Phase}
  {waiting : Option InitDraws} {origin : Option (Origin InitDraws RespDraws)}

theorem partyFits_calling : PartyFits P u x (u.calling P x) none none := by
  refine ⟨⟨rfl, rfl, rfl, ?_, rfl, rfl, rfl⟩, rfl, ⟨rfl, rfl⟩, ?_⟩
  · change (if u.hasPresharedKey then
      (if u.hasPresharedKey then u.presharedKey else zeroKey) else zeroKey) = u.psk
    unfold Setup.psk
    split <;> rfl
  · intro hrunning
    cases hrunning

theorem Fixed.noteSource (h : Fixed P u x tun) (src : Option SockAddr) :
    Fixed P u x (noteSource tun src) := by
  cases src with
  | none => exact h
  | some addr =>
      exact ⟨h.staticPrivate, h.staticPublic, h.peerPublic, h.psk, h.peers, h.hasCookie,
        h.pendingCookie⟩

theorem Fixed.wgHandshakeInit (h : Fixed P u x tun) (d : InitDraws) :
    wgHandshakeInit P tun d =
      ({ tun with
          session :=
            { tun.session with
              oldLocalIndex := tun.session.localIndex
              localIndex := d.index
              rekeyInProgress := true }
          lastMac1 := (u.offer P x d).1.mac1 },
        u.offer P x d) := by
  have hbuilt : buildInit P tun.staticPrivate tun.staticPublic tun.peerPublic d =
      u.offer P x d := by
    unfold Setup.offer
    rw [h.staticPrivate, h.staticPublic, h.peerPublic]
  have hcookie := h.hasCookie
  cases tun
  dsimp only at hcookie hbuilt
  subst hcookie
  unfold NoiseHandshake.wgHandshakeInit
  dsimp only
  rw [hbuilt]
  rfl

/-- An attempt of a party that is between two waits. -/
theorem outcome_connectBegin {k : Nat} (h : PartyFits P u x ⟨tun, .connecting k⟩ waiting origin)
    (d : InitDraws) (sent : Bool) :
    Outcome P u x (step P ⟨tun, .connecting k⟩ (.connectBegin d sent))
      (if sent then some d else none) origin [d.index] [(u.offer P x d).1.toBytes] false := by
  obtain ⟨hfixed, hsession, ⟨-, rfl⟩, hrunning⟩ := h
  have hf : Fixed P u x tun := hfixed
  have hstep : step P ⟨tun, .connecting k⟩ (.connectBegin d sent) =
      (let begun := beginAttempt P tun d
       if !sent then (⟨begun.1, .connectDone .socket⟩, begun.2.2)
       else
         (⟨{ begun.1 with pendingCookie := false }, .connectWait k begun.2.1⟩,
           begun.2.2)) := rfl
  rw [hstep]
  unfold beginAttempt
  rw [hf.wgHandshakeInit]
  cases sent with
  | false =>
      refine ⟨⟨⟨hf.1, hf.2, hf.3, hf.4, hf.5, hf.6, hf.7⟩, hsession, ⟨rfl, ?_⟩, hrunning⟩,
        rfl, rfl, rfl⟩
      simp
  | true =>
      exact ⟨⟨⟨hf.1, hf.2, hf.3, hf.4, hf.5, hf.6, rfl⟩, hsession,
        ⟨rfl, d, rfl, rfl, rfl⟩, hrunning⟩, rfl, rfl, rfl⟩

theorem SessionFrom.mark {sess : WgSession} (h : SessionFrom P u x sess origin)
    (sendingCounter lastReceived : UInt64) :
    SessionFrom P u x
      { sess with sendingCounter := sendingCounter, lastReceived := lastReceived } origin := by
  rcases origin with _ | ⟨d, r⟩ | ⟨d, r⟩
  · exact h
  · exact ⟨h.1, h.2, h.3, h.4, h.5, h.6⟩
  · exact ⟨h.1, h.2, h.3, h.4, h.5, h.6⟩

theorem SessionFrom.rekeyInProgress {sess : WgSession} (h : SessionFrom P u x sess origin)
    (horigin : origin ≠ none) : sess.rekeyInProgress = false := by
  rcases origin with _ | ⟨d, r⟩ | ⟨d, r⟩
  · exact absurd rfl horigin
  · exact h.rekeyInProgress
  · exact h.rekeyInProgress

theorem outcome_self {e : Endpoint} (h : PartyFits P u x e waiting origin) :
    Outcome P u x (e, []) waiting origin [] [] false :=
  ⟨h, rfl, rfl, rfl⟩

section Responding

variable {d : InitDraws} {r : RespDraws}

/-- A party accepts every INIT that the other one has made for it. -/
theorem Fixed.wgHandshakeInitProcess (hP : P.Lawful) (h : Fixed P u x tun) (d : InitDraws)
    (r : RespDraws) :
    wgHandshakeInitProcess P tun (u.offer P x.other d).1 r =
      (.ok, respondLegacy { tun with lastMac1 := (u.offer P x.other d).1.mac1 }
        (u.offer P x.other d).1 (u.publicKey P x.other) (u.answer P x.other d r).1
        (u.keys P x.other d r) r) := by
  have hown : tun.staticPublic = P.cryptoX25519PublicKey tun.staticPrivate := by
    rw [h.staticPublic, h.staticPrivate]
    rfl
  have hoffer : u.offer P x.other d = buildInit P (u.privateKey x.other)
      (P.cryptoX25519PublicKey (u.privateKey x.other)) tun.staticPublic d := by
    rw [h.staticPublic]
    unfold Setup.offer
    rw [Side.other_other]
    rfl
  have hfind : wgFindPeerByPublicKey tun
      (P.cryptoX25519PublicKey (u.privateKey x.other)) = none := by
    unfold wgFindPeerByPublicKey
    rw [h.peers]
    rfl
  rw [wgHandshakeInitProcess_buildInit hP (u.privateKey x.other) tun hown d
    (u.offer P x.other d).1.mac2 r (congrArg Prod.fst hoffer) (congrArg Prod.snd hoffer) rfl,
    hfind, h.psk]
  rfl

theorem keyed_respondLegacy (tun : WgTunnel) (d : InitDraws) (r : RespDraws) :
    SessionFrom P u x (respondLegacy tun (u.offer P x.other d).1 (u.publicKey P x.other)
      (u.answer P x.other d r).1 (u.keys P x.other d r) r).1.session (some (.responder d r)) :=
  ⟨rfl, rfl, rfl, rfl, rfl, rfl⟩

theorem Fixed.respondLegacy (h : Fixed P u x tun) (mac1 : Mac) (d : InitDraws)
    (r : RespDraws) :
    Fixed P u x (respondLegacy { tun with lastMac1 := mac1 } (u.offer P x.other d).1
      (u.publicKey P x.other) (u.answer P x.other d r).1 (u.keys P x.other d r) r).1 :=
  ⟨h.1, h.2, rfl, h.4, h.5, h.6, h.7⟩

/-- The party has answered an INIT and uses the session that came with it. -/
theorem outcome_respondLegacy (h : Fixed P u x tun) (mac1 : Mac) {phase : Phase}
    (hphase : phase = .connectDone .ok ∨ phase = .idle .ok) (d : InitDraws) (r : RespDraws) :
    let out := NoiseHandshake.respondLegacy { tun with lastMac1 := mac1 }
      (u.offer P x.other d).1 (u.publicKey P x.other) (u.answer P x.other d r).1
      (u.keys P x.other d r) r
    Outcome P u x (⟨out.1, phase⟩, out.2) none (some (.responder d r)) [r.index]
      [u.encode P x.other (.answer d r)] true := by
  intro out
  refine ⟨⟨h.respondLegacy mac1 d r, keyed_respondLegacy _ d r, ?_, ?_⟩, rfl, rfl, rfl⟩
  · rcases hphase with rfl | rfl
    · exact ⟨rfl, by simp⟩
    · exact ⟨rfl, by simp⟩
  · intro _
    simp

end Responding

section Waiting

variable {k : Nat} {d : InitDraws}

/-- An attempt that ends without a session is followed by the next one or by the
end of the loop. -/
theorem outcome_again (h : PartyFits P u x ⟨tun, .connectWait k (u.offer P x d).2⟩ waiting origin)
    (src : Option SockAddr) {err : WgError} (herr : err ≠ .ok) :
    Outcome P u x (⟨noteSource tun src, connectNext k (.again err)⟩, []) none none [] [] false := by
  obtain ⟨hfixed, hsession, ⟨rfl, -⟩, hrunning⟩ := h
  have hsame := sameSessions_noteSource tun src
  refine ⟨⟨hfixed.noteSource src, ?_, ?_, ?_⟩, rfl, rfl, rfl⟩
  · exact (congrArg WgSession.valid hsame.session).trans hsession
  · unfold connectNext
    dsimp only
    split
    · exact ⟨rfl, by simpa using herr⟩
    · exact ⟨rfl, rfl⟩
  · cases src <;> exact hrunning

theorem step_connectWait (state : WgHandshakeState) (result : SocketResult) (resp : RespDraws)
    (now : UInt64) :
    step P ⟨tun, .connectWait k state⟩ (.connectEnd result resp now) =
      (⟨(connectEnd P tun state result resp now).2.1,
        connectNext k (connectEnd P tun state result resp now).1⟩,
        (connectEnd P tun state result resp now).2.2) := rfl

theorem connectEnd_datagram (h : Fixed P u x tun) (state : WgHandshakeState) (buffer : Bytes)
    (received : Nat) (src : Option SockAddr) (resp : RespDraws) (now : UInt64) :
    connectEnd P tun state (.datagram buffer received src) resp now =
      connectDatagram P (noteSource tun src) state buffer received resp now := by
  have hcookie := (h.noteSource src).pendingCookie
  unfold connectEnd
  change (if (noteSource tun src).pendingCookie then _ else _) = _
  rw [hcookie]
  rfl

theorem outcome_timeout (h : PartyFits P u x ⟨tun, .connectWait k (u.offer P x d).2⟩ waiting origin)
    (resp : RespDraws) (now : UInt64) :
    Outcome P u x (step P ⟨tun, .connectWait k (u.offer P x d).2⟩ (.connectEnd .timeout resp now))
      none none [] [] false := by
  have hcookie : tun.pendingCookie = false := h.fixed.pendingCookie
  have hend : connectEnd P tun (u.offer P x d).2 .timeout resp now =
      (.again .timeout, tun, []) := by
    unfold connectEnd
    change (if tun.pendingCookie then _ else _) = _
    rw [hcookie]
    rfl
  rw [step_connectWait, hend]
  exact outcome_again h none (by decide)

theorem connectDatagram_init (tun : WgTunnel) (state : WgHandshakeState) {msg : WgHandshakeInit}
    (htype : msg.type = wgMsgHandshakeInit) (resp : RespDraws) (now : UInt64) :
    let passive := wgHandshakeInitProcess P tun msg resp
    connectDatagram P tun state msg.toBytes msg.toBytes.length resp now =
      (if passive.1 = .ok then .stop .ok else .again .ok, passive.2) := by
  have hlen := WgHandshakeInit.toBytes_length msg
  unfold connectDatagram
  rw [if_pos ⟨htype, hlen.ge⟩, WgHandshakeInit.ofBytes_toBytes]

theorem connectDatagram_response (tun : WgTunnel) (state : WgHandshakeState)
    {msg : WgHandshakeResponse} (htype : msg.type = wgMsgHandshakeResponse) (resp : RespDraws)
    (now : UInt64) :
    let out := wgHandshakeResponse P tun msg state now
    connectDatagram P tun state msg.toBytes msg.toBytes.length resp now =
      (if out.1 = .ok then .stop .ok else .again out.1, out.2.1, out.2.2.2) := by
  have hlen := WgHandshakeResponse.toBytes_length msg
  have hother : ¬ (getType msg.toBytes = wgMsgHandshakeInit ∧
      sizeofInit ≤ msg.toBytes.length) := by
    rintro ⟨hinit, -⟩
    exact absurd (htype.symm.trans hinit) (by decide)
  unfold connectDatagram
  rw [if_neg hother, if_neg hlen.ge.not_gt, WgHandshakeResponse.ofBytes_toBytes]

/-- A keepalive is shorter than any handshake message. -/
theorem connectDatagram_keepalive (tun : WgTunnel) (state : WgHandshakeState) (m : Keepalive)
    (resp : RespDraws) (now : UInt64) :
    connectDatagram P tun state m.1 m.1.length resp now = (.again .handshake, tun, []) := by
  have hother : ¬ (getType m.1 = wgMsgHandshakeInit ∧ sizeofInit ≤ m.1.length) := by
    rintro ⟨hinit, -⟩
    exact absurd (m.2.2.symm.trans hinit) (by decide)
  have hshort : m.1.length < sizeofResponse := by
    rw [m.2.1]
    decide
  unfold connectDatagram
  rw [if_neg hother, if_pos hshort]

theorem outcome_wait_offer (hP : P.Lawful)
    (h : PartyFits P u x ⟨tun, .connectWait k (u.offer P x d).2⟩ waiting origin)
    (d' : InitDraws) (src : Option SockAddr) (r : RespDraws) (now : UInt64) :
    let datagram := u.encode P x (.offer d')
    Outcome P u x (step P ⟨tun, .connectWait k (u.offer P x d).2⟩
        (.connectEnd (.datagram datagram datagram.length src) r now))
      none (some (.responder d' r)) [r.index] [u.encode P x.other (.answer d' r)] true := by
  have hfixed : Fixed P u x (noteSource tun src) := h.fixed.noteSource src
  have hread : connectDatagram P (noteSource tun src) (u.offer P x d).2
      (u.encode P x (.offer d')) (u.encode P x (.offer d')).length r now = _ :=
    connectDatagram_init _ _ rfl r now
  intro datagram
  rw [step_connectWait, connectEnd_datagram h.fixed, hread,
    hfixed.wgHandshakeInitProcess hP d' r]
  exact outcome_respondLegacy hfixed _ (.inl rfl) d' r

theorem outcome_wait_answer (hP : P.Lawful)
    (h : PartyFits P u x ⟨tun, .connectWait k (u.offer P x d).2⟩ (some d) origin)
    (r : RespDraws) (src : Option SockAddr) (resp : RespDraws) (now : UInt64) :
    let datagram := u.encode P x (.answer d r)
    Outcome P u x (step P ⟨tun, .connectWait k (u.offer P x d).2⟩
        (.connectEnd (.datagram datagram datagram.length src) resp now))
      none (some (.initiator d r)) [] [] true := by
  have hfixed : Fixed P u x (noteSource tun src) := h.fixed.noteSource src
  have hsame := sameSessions_noteSource tun src
  obtain ⟨-, d', hd', -, hlocal⟩ := h.phase
  cases hd'
  have hindex : (u.offer P x d).1.senderIndex = (noteSource tun src).session.localIndex := by
    rw [hsame.session]
    exact hlocal.symm
  have hanswer : u.answer P x d r = buildResponse P (noteSource tun src).psk
      (P.cryptoX25519PublicKey (noteSource tun src).staticPrivate) (u.offer P x d).1
      { (u.offer P x d).2 with ephemeralPrivate := zeroKey } r := by
    rw [hfixed.psk, hfixed.staticPrivate]
    rfl
  have hread : connectDatagram P (noteSource tun src) (u.offer P x d).2
      (u.encode P x (.answer d r)) (u.encode P x (.answer d r)).length resp now = _ :=
    connectDatagram_response _ _ rfl resp now
  intro datagram
  rw [step_connectWait, connectEnd_datagram h.fixed, hread,
    wgHandshakeResponse_buildResponse hP _ _ _ r now rfl hindex hanswer]
  refine ⟨⟨⟨hfixed.1, hfixed.2, hfixed.3, hfixed.4, hfixed.5, hfixed.6, hfixed.7⟩,
    ⟨rfl, rfl, hindex.symm, rfl, rfl, rfl⟩, ⟨rfl, ?_⟩, ?_⟩, rfl, rfl, rfl⟩
  · simp
  · intro _
    simp

theorem wgHandshakeResponse_refused {msg : WgHandshakeResponse} {state : WgHandshakeState}
    {now : UInt64} (hindex : msg.receiverIndex ≠ tun.session.localIndex) :
    wgHandshakeResponse P tun msg state now = (.handshake, tun, state, []) := by
  unfold wgHandshakeResponse
  rw [if_pos hindex, ite_self]

/-- A RESPONSE to an earlier attempt is refused. -/
theorem outcome_wait_late
    (h : PartyFits P u x ⟨tun, .connectWait k (u.offer P x d).2⟩ (some d) origin)
    {d' : InitDraws} (hne : d'.index ≠ d.index) (r : RespDraws) (src : Option SockAddr)
    (resp : RespDraws) (now : UInt64) :
    let datagram := u.encode P x (.answer d' r)
    Outcome P u x (step P ⟨tun, .connectWait k (u.offer P x d).2⟩
        (.connectEnd (.datagram datagram datagram.length src) resp now))
      none none [] [] false := by
  have hsame := sameSessions_noteSource tun src
  obtain ⟨-, d'', hd'', -, hlocal⟩ := h.phase
  cases hd''
  have hindex : (u.answer P x d' r).1.receiverIndex ≠
      (noteSource tun src).session.localIndex := by
    rw [hsame.session, show tun.session.localIndex = d.index from hlocal]
    exact hne
  have hread : connectDatagram P (noteSource tun src) (u.offer P x d).2
      (u.encode P x (.answer d' r)) (u.encode P x (.answer d' r)).length resp now = _ :=
    connectDatagram_response _ _ rfl resp now
  intro datagram
  rw [step_connectWait, connectEnd_datagram h.fixed, hread,
    wgHandshakeResponse_refused hindex]
  exact outcome_again h src WgError.noConfusion

theorem outcome_wait_keepalive
    (h : PartyFits P u x ⟨tun, .connectWait k (u.offer P x d).2⟩ waiting origin)
    (m : Keepalive) (src : Option SockAddr) (resp : RespDraws) (now : UInt64) :
    Outcome P u x (step P ⟨tun, .connectWait k (u.offer P x d).2⟩
        (.connectEnd (.datagram m.1 m.1.length src) resp now))
      none none [] [] false := by
  rw [step_connectWait, connectEnd_datagram h.fixed, connectDatagram_keepalive]
  exact outcome_again h src (by decide)

end Waiting

section Thread

/-- A party with a session does not wait any more. -/
theorem PartyFits.returned (h : PartyFits P u x ⟨tun, phase⟩ waiting origin)
    (horigin : origin ≠ none) :
    waiting = none ∧ (phase = .connectDone .ok ∨ phase = .idle .ok) := by
  obtain ⟨-, -, hphase, -⟩ := h
  cases phase with
  | idle err =>
      have hdone : waiting = none ∧ (err = .ok ↔ origin ≠ none) := hphase
      exact ⟨hdone.1, .inr (congrArg Phase.idle (hdone.2.mpr horigin))⟩
  | connectDone err =>
      have hdone : waiting = none ∧ (err = .ok ↔ origin ≠ none) := hphase
      exact ⟨hdone.1, .inl (congrArg Phase.connectDone (hdone.2.mpr horigin))⟩
  | connecting k => exact absurd hphase.2 horigin
  | connectWait k state => exact absurd hphase.1 horigin
  | rekeying => exact hphase.elim
  | rekeyWait => exact hphase.elim
  | rekeyDone => exact hphase.elim

theorem step_recv (hrunning : tun.running = true) (inp : RecvInput) :
    step P ⟨tun, phase⟩ (.recv inp) =
      (⟨(recvThreadIteration P tun inp).1, phase⟩, (recvThreadIteration P tun inp).2) := by
  have hiter : stepTunnel P tun (.recv inp) = recvThreadIteration P tun inp := if_pos hrunning
  rw [← hiter]
  rfl

theorem recvThreadIteration_init (tun : WgTunnel) {msg : WgHandshakeInit}
    (htype : msg.type = wgMsgHandshakeInit) (src : Option SockAddr) (r : RespDraws)
    (now : UInt64) :
    let out := wgHandshakeInitProcess P (noteSource tun src) msg r
    recvThreadIteration P tun ⟨true, .datagram msg.toBytes msg.toBytes.length src, r, now⟩ =
      if out.1 = .ok then
        ((followUp P out.2.1 now).1, out.2.2 ++ (followUp P out.2.1 now).2)
      else out.2 := by
  have hlen := WgHandshakeInit.toBytes_length msg
  have htype' : getType msg.toBytes = wgMsgHandshakeInit := htype
  change recvDatagram P (noteSource tun src) msg.toBytes msg.toBytes.length true r now = _
  unfold recvDatagram
  rw [if_neg (by rw [hlen]; decide), htype', if_neg (by decide), if_neg (by decide),
    if_neg (by decide), if_pos rfl]
  unfold recvInit
  rw [if_pos hlen.ge, WgHandshakeInit.ofBytes_toBytes]

theorem recvThreadIteration_response (tun : WgTunnel) {msg : WgHandshakeResponse}
    (htype : msg.type = wgMsgHandshakeResponse) (src : Option SockAddr) (r : RespDraws)
    (now : UInt64) :
    recvThreadIteration P tun ⟨true, .datagram msg.toBytes msg.toBytes.length src, r, now⟩ =
      recvResponse P (noteSource tun src) msg.toBytes msg.toBytes.length now := by
  have hlen := WgHandshakeResponse.toBytes_length msg
  have htype' : getType msg.toBytes = wgMsgHandshakeResponse := htype
  exact recvDatagram_response P (noteSource tun src) htype' hlen.ge true r now

/-- Without table entries there is nobody to greet after a passive handshake. -/
theorem Fixed.followUp (h : Fixed P u x tun) (now : UInt64) : followUp P tun now = (tun, []) := by
  unfold TransportReceive.followUp firstConnected
  rw [h.peers]
  rfl

theorem outcome_recv_offer (hP : P.Lawful)
    (h : PartyFits P u x ⟨tun, phase⟩ waiting origin) (hrunning : tun.running = true)
    (d : InitDraws) (src : Option SockAddr) (r : RespDraws) (now : UInt64) :
    let datagram := u.encode P x (.offer d)
    Outcome P u x (step P ⟨tun, phase⟩
        (.recv ⟨true, .datagram datagram datagram.length src, r, now⟩))
      none (some (.responder d r)) [r.index] [u.encode P x.other (.answer d r)] true := by
  have hfixed : Fixed P u x (noteSource tun src) := h.fixed.noteSource src
  have hread : recvThreadIteration P tun ⟨true, .datagram (u.encode P x (.offer d))
      (u.encode P x (.offer d)).length src, r, now⟩ = _ :=
    recvThreadIteration_init tun rfl src r now
  intro datagram
  rw [step_recv hrunning, hread, hfixed.wgHandshakeInitProcess hP d r, if_pos rfl,
    (hfixed.respondLegacy _ d r).followUp, List.append_nil]
  exact outcome_respondLegacy hfixed _ (h.returned (h.running hrunning)).2 d r

/-- What a step changes at most when it neither starts nor ends a wait. -/
theorem PartyFits.of_tunnel (h : PartyFits P u x ⟨tun, phase⟩ waiting origin)
    (horigin : origin ≠ none) {tun' : WgTunnel} (hfixed : Fixed P u x tun')
    (hsession : SessionFrom P u x tun'.session origin) :
    PartyFits P u x ⟨tun', phase⟩ waiting origin := by
  refine ⟨hfixed, hsession, ?_, fun _ => horigin⟩
  obtain ⟨rfl, rfl | rfl⟩ := h.returned horigin
  · exact ⟨rfl, by simpa using horigin⟩
  · exact ⟨rfl, by simpa using horigin⟩

theorem outcome_recv_answer (h : PartyFits P u x ⟨tun, phase⟩ waiting origin)
    (hrunning : tun.running = true) (d : InitDraws) (r : RespDraws) (src : Option SockAddr)
    (resp : RespDraws) (now : UInt64) :
    let datagram := u.encode P x (.answer d r)
    Outcome P u x (step P ⟨tun, phase⟩
        (.recv ⟨true, .datagram datagram datagram.length src, resp, now⟩))
      waiting origin [] [] false := by
  have hfixed : Fixed P u x (noteSource tun src) := h.fixed.noteSource src
  have hsame := sameSessions_noteSource tun src
  have horigin := h.running hrunning
  have hsession : SessionFrom P u x (noteSource tun src).session origin := by
    rw [hsame.session]
    exact h.session
  have hread : recvThreadIteration P tun ⟨true, .datagram (u.encode P x (.answer d r))
      (u.encode P x (.answer d r)).length src, resp, now⟩ = _ :=
    recvThreadIteration_response tun rfl src resp now
  have hnone : recvResponse P (noteSource tun src) (u.answer P x d r).1.toBytes
      (u.answer P x d r).1.toBytes.length now = (noteSource tun src, []) := by
    unfold recvResponse
    rw [hsession.rekeyInProgress horigin, hfixed.peers]
    rfl
  intro datagram
  rw [step_recv hrunning, hread, hnone]
  exact outcome_self (h.of_tunnel horigin hfixed hsession)

/-- A packet without payload touches the clock of a session, or drops an expired
previous one. -/
theorem outcome_recv_keepalive (h : PartyFits P u x ⟨tun, phase⟩ waiting origin)
    (hrunning : tun.running = true) (m : Keepalive) (src : Option SockAddr)
    (resp : RespDraws) (now : UInt64) :
    Outcome P u x (step P ⟨tun, phase⟩
        (.recv ⟨true, .datagram m.1 m.1.length src, resp, now⟩))
      waiting origin [] [] false := by
  have hfixed : Fixed P u x (noteSource tun src) := h.fixed.noteSource src
  have hsame := sameSessions_noteSource tun src
  have horigin := h.running hrunning
  have hsession : SessionFrom P u x (noteSource tun src).session origin := by
    rw [hsame.session]
    exact h.session
  have hread : recvThreadIteration P tun ⟨true, .datagram m.1 m.1.length src, resp, now⟩ =
      recvTransport P (noteSource tun src) m.1 m.1.length true now := by
    change recvDatagram P (noteSource tun src) m.1 m.1.length true resp now = _
    unfold recvDatagram
    rw [if_neg m.2.1.ge.not_gt, if_pos m.2.2]
  have hempty : m.1.length - sizeofTransport - wgAeadTagLen = 0 := by
    rw [m.2.1]
    rfl
  rw [step_recv hrunning, hread]
  have hpeer : wgFindPeerByLocalIndex (noteSource tun src) (getU32 m.1 4) = none := by
    unfold wgFindPeerByLocalIndex
    rw [hfixed.peers]
    rfl
  have hlegacy : ∀ ref, selectSession (noteSource tun src) (getU32 m.1 4) = some ref →
      ref = .legacy ∨ ref = .legacyPrev := by
    intro ref hselect
    unfold selectSession selectPeerSession at hselect
    rw [hpeer] at hselect
    exact (selectLegacySession_cases hselect).imp And.left And.left
  generalize hout : recvTransport P (noteSource tun src) m.1 m.1.length true now = out
  have hcase := recvTransport_cases P (noteSource tun src) m.1 m.1.length true now
  rw [hout] at hcase
  cases hcase with
  | unknown hselect => exact outcome_self (h.of_tunnel horigin hfixed hsession)
  | expired ref hselect hexpired =>
      rcases hlegacy ref hselect with rfl | rfl
      · exact outcome_self (h.of_tunnel horigin hfixed hsession)
      · exact outcome_self (h.of_tunnel horigin ⟨hfixed.1, hfixed.2, hfixed.3, hfixed.4,
          hfixed.5, hfixed.6, hfixed.7⟩ hsession)
  | empty ref hselect hfresh hlen =>
      rw [hpeer]
      rcases hlegacy ref hselect with rfl | rfl
      · exact outcome_self (h.of_tunnel horigin ⟨hfixed.1, hfixed.2, hfixed.3, hfixed.4,
          hfixed.5, hfixed.6, hfixed.7⟩ (hsession.mark _ now))
      · exact outcome_self (h.of_tunnel horigin ⟨hfixed.1, hfixed.2, hfixed.3, hfixed.4,
          hfixed.5, hfixed.6, hfixed.7⟩ hsession)
  | badTag ref hselect hfresh hlen hopen => exact absurd hempty hlen
  | replayed ref plaintext hselect hfresh hlen hopen hverdict => exact absurd hempty hlen
  | accepted ref plaintext hselect hfresh hlen hopen hverdict => exact absurd hempty hlen

end Thread

section Finish

/-- A call that returns `WG_OK` sends a keepalive first. -/
theorem outcome_connectFinish {err : WgError}
    (h : PartyFits P u x ⟨tun, .connectDone err⟩ waiting origin) (now : UInt64) :
    Outcome P u x (step P ⟨tun, .connectDone err⟩ (.connectFinish now)) waiting origin []
      (if err = .ok then [(keepaliveOf P tun.session).1] else []) false := by
  obtain ⟨hfixed, hsession, ⟨hwaiting, herr⟩, hrunning⟩ := h
  have hf : Fixed P u x tun := hfixed
  change Outcome P u x (⟨(connectFinish P err tun now).2.1, .idle (connectFinish P err tun now).1⟩,
    (connectFinish P err tun now).2.2) waiting origin [] _ false
  unfold connectFinish
  by_cases hok : err = .ok
  · rw [if_neg (not_not.mpr hok), if_pos hok]
    exact ⟨⟨⟨hf.1, hf.2, hf.3, hf.4, hf.5, hf.6, hf.7⟩, hsession.mark _ _,
      ⟨hwaiting, iff_of_true rfl (herr.mp hok)⟩, hrunning⟩, rfl, rfl, rfl⟩
  · have hnone : origin = none := by
      by_contra horigin
      exact hok (herr.mpr horigin)
    subst hnone
    rw [if_pos hok, if_neg hok]
    exact ⟨⟨⟨hf.1, hf.2, hf.3, hf.4, hf.5, hf.6, hf.7⟩, hsession, ⟨hwaiting, herr⟩, hrunning⟩,
      rfl, rfl, rfl⟩

/-- The threads can be started only once there is a session. -/
theorem outcome_start (h : PartyFits P u x ⟨tun, phase⟩ waiting origin) :
    Outcome P u x (step P ⟨tun, phase⟩ (.start true true)) waiting origin [] [] false := by
  have hfixed : Fixed P u x tun := h.fixed
  change Outcome P u x (⟨(wgStart tun true true).2, phase⟩, []) waiting origin [] [] false
  unfold wgStart
  split
  · exact outcome_self h
  · rename_i hconnected
    split
    · exact outcome_self h
    · have horigin : origin ≠ none := by
        rintro rfl
        apply hconnected
        have hvalid : tun.session.valid = false := h.session
        rw [hvalid, hfixed.peers]
        exact ⟨rfl, rfl⟩
      exact outcome_self (h.of_tunnel horigin ⟨hfixed.1, hfixed.2, hfixed.3, hfixed.4,
        hfixed.5, hfixed.6, hfixed.7⟩ h.session)

end Finish

end Steps

end WgNx.OpeningParty
