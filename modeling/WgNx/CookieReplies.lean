import WgNx.RejectedHandshakes
import WgNx.RemoteKeys

/-!
Cookie replies.

`wg_process_cookie_reply` reads the index of the legacy session, the stored MAC1 and
the configured peer, which only `wg_handshake_init` sets for its INIT.  The record
`Exchange` is what the steps of the machine have to leave alone between an INIT and
the reply to it, and between the reply and the next INIT.
-/

namespace WgNx.CookieReplies

open WgNx.ByteLayout
open WgNx.CryptoPrimitives
open WgNx.EndpointMachine
open WgNx.NoiseHandshake
open WgNx.OutputMachine
open WgNx.RejectedHandshakes
open WgNx.RemoteKeys
open WgNx.SessionCalls
open WgNx.TransportReceive
open WgNx.TransportSend
open WgNx.TunnelSetup
open WgNx.TunnelState
open WgNx.WireMessages

/-- What a tunnel knows about its last INIT and about cookies. -/
structure Exchange where
  peerPublic : Key
  lastMac1 : Mac
  cookie : Mac
  hasCookie : Bool
  cookieTimestamp : UInt64

def exchange (tun : WgTunnel) : Exchange :=
  ⟨tun.peerPublic, tun.lastMac1, tun.cookie, tun.hasCookie, tun.cookieTimestamp⟩

section Frame

variable {P : Primitives}

theorem exchange_ext {a b : WgTunnel} (hpeer : a.peerPublic = b.peerPublic)
    (hmac : a.lastMac1 = b.lastMac1) (hcookie : a.cookie = b.cookie)
    (hhas : a.hasCookie = b.hasCookie) (htime : a.cookieTimestamp = b.cookieTimestamp) :
    exchange a = exchange b := by
  unfold exchange
  rw [hpeer, hmac, hcookie, hhas, htime]

theorem exchange_noteSource (tun : WgTunnel) (src : Option SockAddr) :
    exchange (noteSource tun src) = exchange tun := by
  cases src <;> rfl

theorem exchange_modifySession (tun : WgTunnel) (ref : SessionRef) (f : WgSession → WgSession) :
    exchange (tun.modifySession ref f) = exchange tun := by
  cases ref <;> rfl

theorem exchange_touchPeer (tun : WgTunnel) (peer : Option Nat) (f : WgPeer → WgPeer) :
    exchange (touchPeer tun peer f) = exchange tun := by
  cases peer <;> rfl

theorem exchange_wgUpdateEndpointFromRecv (tun : WgTunnel) :
    exchange (wgUpdateEndpointFromRecv tun) = exchange tun := by
  unfold wgUpdateEndpointFromRecv
  split <;> rfl

theorem exchange_followUp (tun : WgTunnel) (now : UInt64) :
    exchange (followUp P tun now).1 = exchange tun := by
  unfold followUp
  split <;> rfl

theorem exchange_recvTransport (tun : WgTunnel) (buffer : Bytes) (received : Nat) (slot : Bool)
    (now : UInt64) :
    exchange (recvTransport P tun buffer received slot now).1 = exchange tun := by
  have hcase := recvTransport_cases P tun buffer received slot now
  generalize recvTransport P tun buffer received slot now = out at hcase ⊢
  cases hcase with
  | unknown hselect => rfl
  | expired ref hselect hexpired => cases ref <;> rfl
  | empty ref hselect hfresh hlen =>
      unfold emptyReceived
      rw [exchange_touchPeer, exchange_modifySession]
  | badTag ref hselect hfresh hlen hopen => rfl
  | replayed ref plaintext hselect hfresh hlen hopen hverdict =>
      dsimp only
      rw [exchange_modifySession]
  | accepted ref plaintext hselect hfresh hlen hopen hverdict =>
      unfold payloadReceived
      rw [exchange_wgUpdateEndpointFromRecv, exchange_touchPeer, exchange_modifySession]

theorem exchange_recvResponse (tun : WgTunnel) (buffer : Bytes) (received : Nat) (now : UInt64) :
    exchange (recvResponse P tun buffer received now).1 = exchange tun := by
  unfold recvResponse
  split
  · split <;> rfl
  · dsimp only
    split
    · rfl
    · rename_i i hfind
      have hcase := wgHandshakeInitProcessResponse_cases P tun i
        (WgHandshakeResponse.ofBytes buffer) now
      generalize (wgHandshakeInitProcessResponse P tun i
        (WgHandshakeResponse.ofBytes buffer) now).2 = out at hcase ⊢
      cases hcase <;> rfl

theorem exchange_wgHandshakeResponse (tun : WgTunnel) (msg : WgHandshakeResponse)
    (state : WgHandshakeState) (now : UInt64) :
    exchange (wgHandshakeResponse P tun msg state now).2.1 = exchange tun := by
  unfold wgHandshakeResponse
  dsimp only
  split
  · rfl
  · split
    · rfl
    · split <;> rfl

theorem exchange_wgSendToPeer (tun : WgTunnel) (i : Nat) (data : Bytes) (now : UInt64)
    (sent : Bool) : exchange (wgSendToPeer P tun i data now sent).2.1 = exchange tun := by
  unfold wgSendToPeer
  dsimp only
  split
  · rfl
  · split <;> rfl

theorem exchange_wgSend (tun : WgTunnel) (data : Bytes) (now : UInt64) (sent : Bool) :
    exchange (wgSend P tun data now sent).2.1 = exchange tun := by
  unfold wgSend
  split
  · rfl
  · split
    · rfl
    · split <;> rfl

theorem exchange_wgNetifOutput (tun : WgTunnel) (data : Bytes) (ipaddr : UInt32) (d : InitDraws)
    (now : UInt64) (sent : Bool) :
    exchange (wgNetifOutput P tun data ipaddr d now sent).2.1 = exchange tun := by
  unfold wgNetifOutput
  dsimp only
  split
  · rfl
  · split
    · rfl
    · split
      · rfl
      · exact exchange_wgSendToPeer tun _ _ now sent

theorem exchange_wgRecv (tun : WgTunnel) (result : SocketResult) (len : Nat) (now : UInt64) :
    exchange (wgRecv P tun result len now).2.1 = exchange tun := by
  unfold wgRecv
  split
  · rfl
  · split
    · rfl
    · rfl
    · rename_i buffer received src
      rw [← exchange_noteSource tun src]
      dsimp only
      split
      · rfl
      · split
        · rfl
        · split
          · rfl
          · split
            · rfl
            · unfold recvPayload
              split
              · rfl
              · split
                · rfl
                · dsimp only
                  split <;> exact exchange_ext rfl rfl rfl rfl rfl

theorem exchange_keepalivePeer (tun : WgTunnel) (i : Nat) (now clock : UInt64) :
    exchange (keepalivePeer P tun i now clock).1 = exchange tun := by
  unfold keepalivePeer
  dsimp only
  split
  · rfl
  · split
    · rfl
    · split
      · rfl
      · split <;> rfl

theorem exchange_keepalivePeers (now : UInt64) (clock : Nat → UInt64) (indices : List Nat)
    (tun : WgTunnel) : exchange (keepalivePeers P now clock indices tun).1 = exchange tun := by
  induction indices generalizing tun with
  | nil => rfl
  | cons i rest ih => exact (ih _).trans (exchange_keepalivePeer tun i now (clock i))

theorem exchange_keepalivePass (tun : WgTunnel) (now : UInt64) (clock : Nat → UInt64) :
    exchange (keepalivePass P tun now clock).1 = exchange tun := by
  have hlegacy : ∀ tun₁ : WgTunnel,
      exchange (keepaliveLegacy tun₁ now).1 = exchange tun₁ := by
    intro tun₁
    unfold keepaliveLegacy
    split <;> rfl
  exact (hlegacy _).trans (exchange_keepalivePeers now clock _ tun)

end Frame

section Steps

/-- A cookie reply that is long enough to be processed. -/
def cookieIn (buffer : Bytes) (received : Nat) : Option WgCookieReply :=
  if getType buffer = wgMsgCookieReply ∧ sizeofCookieReply ≤ received then
    some (WgCookieReply.ofBytes buffer)
  else none

/-- The cookie reply a step hands to `wg_process_cookie_reply`, with the clock reading. -/
def handedCookie (s : Endpoint) : Action → Option (WgCookieReply × UInt64)
  | .recv ⟨_, .datagram buffer received _, _, now⟩ =>
      if s.tun.running then (cookieIn buffer received).map (·, now) else none
  | _ => none

/-- The step builds an INIT with `wg_handshake_init`. -/
def begins (s : Endpoint) : Action → Bool
  | .connectBegin _ _ =>
      match s.phase with
      | .connecting _ => true
      | _ => false
  | .rekeyBegin _ _ =>
      match s.phase with
      | .rekeying _ _ => true
      | _ => false
  | _ => false

variable (P : Primitives)

/-- What a step can do to the exchange. -/
inductive ExchangeCase (s : Endpoint) (a : Action) (tun : WgTunnel) : Prop
  | kept (h : exchange tun = exchange s.tun)
  | init (msg : WgHandshakeInit) (src : Option SockAddr) (d : RespDraws)
      (hhanded : handedInit s a = some msg)
      (h : exchange tun = exchange (wgHandshakeInitProcess P (noteSource s.tun src) msg d).2.1)
  | cookie (reply : WgCookieReply) (src : Option SockAddr) (now : UInt64)
      (hhanded : handedCookie s a = some (reply, now))
      (h : exchange tun = exchange (wgProcessCookieReply P (noteSource s.tun src) reply now).2)
  | begun (h : begins s a = true)

variable {P}

theorem exchangeCase_recvDatagram {s : Endpoint} (hrunning : s.tun.running = true)
    (buffer : Bytes) (received : Nat) (slot : Bool) (src : Option SockAddr) (d : RespDraws)
    (now : UInt64) :
    ExchangeCase P s (.recv ⟨slot, .datagram buffer received src, d, now⟩)
      (recvDatagram P (noteSource s.tun src) buffer received slot d now).1 := by
  have hnote := exchange_noteSource s.tun src
  have hcase := recvDatagram_cases P (noteSource s.tun src) buffer received slot d now
  generalize recvDatagram P (noteSource s.tun src) buffer received slot d now = out at hcase ⊢
  cases hcase with
  | dropped hinit => exact .kept hnote
  | transport htype => exact .kept ((exchange_recvTransport _ buffer received slot now).trans hnote)
  | response htype => exact .kept ((exchange_recvResponse _ buffer received now).trans hnote)
  | cookie htype =>
      unfold recvCookieReply
      split
      · rename_i hlong
        refine .cookie (.ofBytes buffer) src now ?_ rfl
        have hin : cookieIn buffer received = some (.ofBytes buffer) := if_pos ⟨htype, hlong⟩
        simp only [handedCookie, hrunning, if_true, hin, Option.map_some]
      · exact .kept hnote
  | init htype hlong =>
      refine .init (.ofBytes buffer) src d ?_ ?_
      · have hin : initIn buffer received = some (.ofBytes buffer) := if_pos ⟨htype, hlong⟩
        simp only [handedInit, hrunning, if_true, hin]
      · unfold recvInit
        rw [if_pos hlong]
        dsimp only
        split
        · exact exchange_followUp _ now
        · rfl

theorem exchangeCase_recv (s : Endpoint) (inp : RecvInput) :
    ExchangeCase P s (.recv inp) (stepTunnel P s.tun (.recv inp)).1 := by
  simp only [stepTunnel]
  split
  · rename_i hrunning
    obtain ⟨slot, result, d, now⟩ := inp
    cases result with
    | timeout => exact .kept rfl
    | error err => exact .kept rfl
    | datagram buffer received src =>
        exact exchangeCase_recvDatagram hrunning buffer received slot src d now
  · exact .kept rfl

theorem exchangeCase_connectEnd {s : Endpoint} {attempt : Nat} {state : WgHandshakeState}
    (hphase : s.phase = .connectWait attempt state) (result : SocketResult) (resp : RespDraws)
    (now : UInt64) :
    ExchangeCase P s (.connectEnd result resp now)
      (connectEnd P s.tun state result resp now).2.1 := by
  have hnote := exchange_noteSource s.tun (SocketResult.src result)
  have hpending : (noteSource s.tun (SocketResult.src result)).pendingCookie =
      s.tun.pendingCookie := by
    cases SocketResult.src result <;> rfl
  unfold SessionCalls.connectEnd
  dsimp only
  split
  · exact .kept hnote
  · rename_i hclear
    rw [hpending] at hclear
    cases result with
    | timeout => exact .kept hnote
    | error err => exact .kept hnote
    | datagram buffer received src =>
        dsimp only
        unfold connectDatagram
        split
        · rename_i hinit
          refine .init (.ofBytes buffer) src resp ?_ rfl
          have hin : initIn buffer received = some (.ofBytes buffer) := if_pos hinit
          simp only [handedInit, hphase, if_neg hclear, hin]
        · split
          · exact .kept hnote
          · exact .kept ((exchange_wgHandshakeResponse _ _ state now).trans hnote)

theorem exchange_rekeyEnd (tun : WgTunnel) (state : WgHandshakeState) (now : UInt64) :
    exchange (rekeyEnd P tun state now).2.1 = exchange tun := by
  unfold SessionCalls.rekeyEnd
  split
  · rfl
  · split
    · rfl
    · split
      · rfl
      · exact exchange_wgHandshakeResponse tun _ state now

theorem exchangeCase_step (s : Endpoint) (a : Action) :
    ExchangeCase P s a (step P s a).1.tun := by
  cases a with
  | addPeer publicKey relayHash ipRaw => exact .kept rfl
  | setRecvCallback cb user => exact .kept rfl
  | start recvThread keepaliveThread =>
      apply ExchangeCase.kept
      simp only [step, stepTunnel, wgStart]
      split
      · rfl
      · split
        · rfl
        · split <;> rfl
  | stop => exact .kept rfl
  | callConnect fd =>
      have hopen : exchange (openSocket s.tun fd) = exchange s.tun := by
        unfold openSocket
        split <;> rfl
      apply ExchangeCase.kept
      simp only [step, stepConnect]
      split
      · split <;> exact hopen
      · rfl
  | connectBegin d sent =>
      simp only [step, stepConnect]
      split
      · rename_i attempt hphase
        apply ExchangeCase.begun
        simp only [begins, hphase]
      · exact .kept rfl
  | connectEnd result resp now =>
      simp only [step, stepConnect]
      split
      · rename_i attempt state hphase
        exact exchangeCase_connectEnd hphase result resp now
      · exact .kept rfl
  | connectFinish now =>
      apply ExchangeCase.kept
      simp only [step, stepConnect, SessionCalls.connectFinish]
      split
      · split <;> rfl
      · rfl
  | callRekey =>
      apply ExchangeCase.kept
      simp only [step, stepRekey]
      split <;> rfl
  | rekeyBegin d sent =>
      simp only [step, stepRekey]
      split
      · rename_i attempt saved hphase
        apply ExchangeCase.begun
        simp only [begins, hphase]
      · exact .kept rfl
  | rekeyEnd now =>
      apply ExchangeCase.kept
      simp only [step, stepRekey]
      split
      · exact exchange_rekeyEnd s.tun _ now
      · rfl
  | rekeyFinish now =>
      apply ExchangeCase.kept
      simp only [step, stepRekey, SessionCalls.rekeyFinish]
      split
      · split <;> rfl
      · rfl
  | recv inp => exact exchangeCase_recv s inp
  | keepalive now clock =>
      apply ExchangeCase.kept
      simp only [step, stepTunnel]
      split
      · exact exchange_keepalivePass s.tun now clock
      · rfl
  | send data now sent => exact .kept (exchange_wgSend s.tun data now sent)
  | sendToPeer i data now sent => exact .kept (exchange_wgSendToPeer s.tun i data now sent)
  | wgRecv result len now => exact .kept (exchange_wgRecv s.tun result len now)
  | output data ipaddr d now sent =>
      exact .kept (exchange_wgNetifOutput s.tun data ipaddr d now sent)

end Steps

section Calm

variable (P : Primitives)

/-- The step does not touch what a cookie reply to the last INIT is checked against: it
builds no INIT, and an INIT it processes is refused for its type or its MAC1. -/
def KeepsIdentity (s : Endpoint) (a : Action) : Prop :=
  begins s a = false ∧ ∀ msg, handedInit s a = some msg →
    msg.type ≠ wgMsgHandshakeInit ∨ mac1Ok P s.tun msg = false

/-- The step does not touch the cookie: it builds no INIT and accepts no cookie reply. -/
def KeepsCookie (s : Endpoint) (a : Action) : Prop :=
  begins s a = false ∧ ∀ reply now, handedCookie s a = some (reply, now) →
    (wgProcessCookieReply P s.tun reply now).1 ≠ .ok

variable {P}

/-- When `wg_process_cookie_reply` succeeds. -/
theorem wgProcessCookieReply_ok_iff (tun : WgTunnel) (reply : WgCookieReply) (now : UInt64) :
    (wgProcessCookieReply P tun reply now).1 = .ok ↔
      reply.type = wgMsgCookieReply ∧ reply.receiverIndex = tun.session.localIndex ∧
        (P.wgXaeadDecrypt (P.wgHash2 wgLabelCookie tun.peerPublic.toList) reply.nonce
          reply.encryptedCookie tun.lastMac1.toList).isSome = true := by
  unfold wgProcessCookieReply
  split
  · rename_i htype
    exact iff_of_false WgError.noConfusion fun h => htype h.1
  · rename_i htype
    split
    · rename_i hindex
      exact iff_of_false WgError.noConfusion fun h => hindex h.2.1
    · rename_i hindex
      dsimp only
      split
      · rename_i hopen
        refine iff_of_false WgError.noConfusion fun h => ?_
        rw [hopen] at h
        cases h.2.2
      · rename_i cookie hopen
        rw [hopen]
        exact iff_of_true rfl ⟨not_not.mp htype, not_not.mp hindex, rfl⟩

theorem wgProcessCookieReply_of_not_ok {tun : WgTunnel} {reply : WgCookieReply} {now : UInt64}
    (h : (wgProcessCookieReply P tun reply now).1 ≠ .ok) :
    (wgProcessCookieReply P tun reply now).2 = tun := by
  unfold wgProcessCookieReply at h ⊢
  split
  · rfl
  · rename_i htype
    rw [if_neg htype] at h
    split
    · rfl
    · rename_i hindex
      rw [if_neg hindex] at h
      dsimp only at h ⊢
      split
      · rfl
      · rename_i cookie hopen
        rw [hopen] at h
        exact absurd rfl h

theorem wgProcessCookieReply_noteSource (tun : WgTunnel) (src : Option SockAddr)
    (reply : WgCookieReply) (now : UInt64) :
    (wgProcessCookieReply P (noteSource tun src) reply now).1 = .ok ↔
      (wgProcessCookieReply P tun reply now).1 = .ok := by
  rw [wgProcessCookieReply_ok_iff, wgProcessCookieReply_ok_iff]
  cases src <;> exact Iff.rfl

theorem identity_wgProcessCookieReply (tun : WgTunnel) (reply : WgCookieReply) (now : UInt64) :
    (wgProcessCookieReply P tun reply now).2.peerPublic = tun.peerPublic ∧
      (wgProcessCookieReply P tun reply now).2.lastMac1 = tun.lastMac1 := by
  unfold wgProcessCookieReply
  split
  · exact ⟨rfl, rfl⟩
  · split
    · exact ⟨rfl, rfl⟩
    · dsimp only
      split <;> exact ⟨rfl, rfl⟩

/-- An INIT that is refused for its type or its MAC1 leaves no trace. -/
theorem wgHandshakeInitProcess_refused {tun : WgTunnel} {msg : WgHandshakeInit}
    (h : msg.type ≠ wgMsgHandshakeInit ∨ mac1Ok P tun msg = false) (d : RespDraws) :
    (wgHandshakeInitProcess P tun msg d).2 = (tun, []) := by
  unfold wgHandshakeInitProcess
  split
  · rfl
  · rename_i htype
    rw [if_pos]
    rw [h.resolve_left htype]
    rfl

/-- Processing an INIT does not touch the cookie. -/
theorem cookie_wgHandshakeInitProcess (tun : WgTunnel) (msg : WgHandshakeInit) (d : RespDraws) :
    (wgHandshakeInitProcess P tun msg d).2.1.cookie = tun.cookie ∧
      (wgHandshakeInitProcess P tun msg d).2.1.hasCookie = tun.hasCookie ∧
      (wgHandshakeInitProcess P tun msg d).2.1.cookieTimestamp = tun.cookieTimestamp := by
  unfold wgHandshakeInitProcess
  split
  · exact ⟨rfl, rfl, rfl⟩
  · split
    · exact ⟨rfl, rfl, rfl⟩
    · dsimp only
      split
      · exact ⟨rfl, rfl, rfl⟩
      · split <;> exact ⟨rfl, rfl, rfl⟩

theorem identity_step {s : Endpoint} {a : Action} (h : KeepsIdentity P s a) :
    (step P s a).1.tun.peerPublic = s.tun.peerPublic ∧
      (step P s a).1.tun.lastMac1 = s.tun.lastMac1 := by
  rcases exchangeCase_step (P := P) s a with hsame | ⟨msg, src, d, hhanded, hsame⟩ |
    ⟨reply, src, now, hhanded, hsame⟩ | hbegins
  · exact ⟨congrArg Exchange.peerPublic hsame, congrArg Exchange.lastMac1 hsame⟩
  · have hmac : mac1Ok P (noteSource s.tun src) msg = mac1Ok P s.tun msg := by
      cases src <;> rfl
    have hrefused := h.2 msg hhanded
    rw [← hmac] at hrefused
    rw [wgHandshakeInitProcess_refused hrefused, exchange_noteSource] at hsame
    exact ⟨congrArg Exchange.peerPublic hsame, congrArg Exchange.lastMac1 hsame⟩
  · have hnote := exchange_noteSource s.tun src
    obtain ⟨hpeer, hmac⟩ := identity_wgProcessCookieReply (P := P) (noteSource s.tun src) reply now
    exact ⟨(congrArg Exchange.peerPublic hsame).trans
        (hpeer.trans (congrArg Exchange.peerPublic hnote)),
      (congrArg Exchange.lastMac1 hsame).trans (hmac.trans (congrArg Exchange.lastMac1 hnote))⟩
  · rw [h.1] at hbegins
    cases hbegins

theorem cookie_step {s : Endpoint} {a : Action} (h : KeepsCookie P s a) :
    (step P s a).1.tun.cookie = s.tun.cookie ∧
      (step P s a).1.tun.hasCookie = s.tun.hasCookie ∧
      (step P s a).1.tun.cookieTimestamp = s.tun.cookieTimestamp := by
  have hall : ∀ {tun : WgTunnel}, exchange tun = exchange s.tun →
      tun.cookie = s.tun.cookie ∧ tun.hasCookie = s.tun.hasCookie ∧
        tun.cookieTimestamp = s.tun.cookieTimestamp := fun hsame =>
    ⟨congrArg Exchange.cookie hsame, congrArg Exchange.hasCookie hsame,
      congrArg Exchange.cookieTimestamp hsame⟩
  rcases exchangeCase_step (P := P) s a with hsame | ⟨msg, src, d, hhanded, hsame⟩ |
    ⟨reply, src, now, hhanded, hsame⟩ | hbegins
  · exact hall hsame
  · obtain ⟨hcookie, hhas, htime⟩ :=
      cookie_wgHandshakeInitProcess (P := P) (noteSource s.tun src) msg d
    obtain ⟨hcookie', hhas', htime'⟩ := hall (exchange_noteSource s.tun src)
    exact ⟨(congrArg Exchange.cookie hsame).trans (hcookie.trans hcookie'),
      (congrArg Exchange.hasCookie hsame).trans (hhas.trans hhas'),
      (congrArg Exchange.cookieTimestamp hsame).trans (htime.trans htime')⟩
  · have hrefused := h.2 reply now hhanded
    rw [ne_eq, ← wgProcessCookieReply_noteSource s.tun src] at hrefused
    rw [wgProcessCookieReply_of_not_ok hrefused, exchange_noteSource] at hsame
    exact hall hsame
  · rw [h.1] at hbegins
    cases hbegins

theorem identity_run {s : Endpoint} {actions : List Action}
    (h : AllSteps (step P) (KeepsIdentity P) s actions) :
    (run (step P) s actions).1.tun.peerPublic = s.tun.peerPublic ∧
      (run (step P) s actions).1.tun.lastMac1 = s.tun.lastMac1 := by
  induction actions generalizing s with
  | nil => exact ⟨rfl, rfl⟩
  | cons a rest ih =>
      obtain ⟨hpeer, hmac⟩ := ih h.2
      obtain ⟨hpeer', hmac'⟩ := identity_step h.1
      exact ⟨hpeer.trans hpeer', hmac.trans hmac'⟩

theorem cookie_run {s : Endpoint} {actions : List Action}
    (h : AllSteps (step P) (KeepsCookie P) s actions) :
    (run (step P) s actions).1.tun.cookie = s.tun.cookie ∧
      (run (step P) s actions).1.tun.hasCookie = s.tun.hasCookie ∧
      (run (step P) s actions).1.tun.cookieTimestamp = s.tun.cookieTimestamp := by
  induction actions generalizing s with
  | nil => exact ⟨rfl, rfl, rfl⟩
  | cons a rest ih =>
      obtain ⟨hcookie, hhas, htime⟩ := ih h.2
      obtain ⟨hcookie', hhas', htime'⟩ := cookie_step h.1
      exact ⟨hcookie.trans hcookie', hhas.trans hhas', htime.trans htime'⟩

end Calm

section Replies

/-- Whom an INIT is built for: the configured peer, or a table entry. -/
inductive Target
  | legacy
  | peer (i : Nat)

variable (P : Primitives)

def initTo (tun : WgTunnel) (target : Target) (d : InitDraws) :
    WgTunnel × WgHandshakeInit × WgHandshakeState :=
  match target with
  | .legacy => wgHandshakeInit P tun d
  | .peer i => wgHandshakeInitPeer P tun i d

def targetKey (tun : WgTunnel) : Target → Key
  | .legacy => tun.peerPublic
  | .peer i => (tun.peers.get i).publicKey

/-- The index under which the answer to an INIT is awaited. -/
def awaitedIndex (tun : WgTunnel) : Target → UInt32
  | .legacy => tun.session.localIndex
  | .peer i => (tun.peers.get i).session.localIndex

/-- The cookie reply of the responder with the public key `key`; `box` is the
encryption that `wgXaeadDecrypt` undoes. -/
def responderReply (box : Key → ByteVec 24 → Mac → Mac → ByteVec 32) (key : Key)
    (init : WgHandshakeInit) (nonce : ByteVec 24) (cookie : Mac) : WgCookieReply :=
  ⟨wgMsgCookieReply, Vector.replicate 3 0, init.senderIndex, nonce,
    box (P.wgHash2 wgLabelCookie key.toList) nonce cookie init.mac1⟩

/-- The INIT carries a `mac2` under the cookie. -/
def CarriesCookie (cookie : Mac) (init : WgHandshakeInit) : Prop :=
  init.mac2 = P.wgMac cookie.toList (init.toBytes.take (sizeofInit - 16))

variable {P}

theorem senderIndex_initTo (tun : WgTunnel) (target : Target) (d : InitDraws) :
    (initTo P tun target d).2.1.senderIndex = d.index := by
  cases target <;> rfl

/-- The bytes in front of `mac2` do not depend on it. -/
theorem carriesCookie_built (cookie : Mac) (init : WgHandshakeInit) :
    CarriesCookie P cookie
      { init with mac2 := P.wgMac cookie.toList (init.toBytes.take (sizeofInit - 16)) } := by
  unfold CarriesCookie
  simp [WgHandshakeInit.toBytes, sizeofInit, List.take_append]

/-- Both initiators use a cookie that is fresh. -/
theorem carriesCookie_initTo {tun : WgTunnel} (target : Target) {d : InitDraws}
    (hhas : tun.hasCookie = true) (hage : d.now - tun.cookieTimestamp < wgCookieSecretMaxAgeNs) :
    CarriesCookie P tun.cookie (initTo P tun target d).2.1 := by
  have hfresh : cookieFresh tun d.now = true := by
    unfold cookieFresh
    rw [hhas, decide_eq_true hage]
    rfl
  have hmac : ∀ init, initMac2 P tun d.now init =
      P.wgMac tun.cookie.toList (init.toBytes.take (sizeofInit - 16)) := fun init => if_pos hfresh
  cases target with
  | legacy =>
      simp only [initTo, wgHandshakeInit, hmac]
      exact carriesCookie_built tun.cookie _
  | peer i =>
      simp only [initTo, wgHandshakeInitPeer, hmac]
      exact carriesCookie_built tun.cookie _

section Outstanding

variable {box : Key → ByteVec 24 → Mac → Mac → ByteVec 32}

/-- A reply is accepted where the tunnel still stands as `wg_handshake_init` left it. -/
theorem responderReply_accepted
    (hopen : ∀ key nonce cookie mac1,
      P.wgXaeadDecrypt key nonce (box key nonce cookie mac1) mac1.toList = some cookie)
    {tun : WgTunnel} {key : Key} {init : WgHandshakeInit} (hpeer : tun.peerPublic = key)
    (hmac : tun.lastMac1 = init.mac1) (hindex : tun.session.localIndex = init.senderIndex)
    (nonce : ByteVec 24) (cookie : Mac) (now : UInt64) :
    wgProcessCookieReply P tun (responderReply P box key init nonce cookie) now =
      (.ok, { tun with cookie := cookie, hasCookie := true, cookieTimestamp := now }) := by
  unfold wgProcessCookieReply responderReply
  rw [if_neg (not_not.mpr rfl), if_neg (not_not.mpr hindex.symm)]
  dsimp only
  rw [hpeer, hmac, hopen]

variable (P box)

/-- The reply to an INIT is accepted, and the INITs after it carry its cookie. -/
def ReplyWorks (target : Target) (key : Key) (init : WgHandshakeInit) (s : Endpoint) : Prop :=
  ∀ nonce cookie now,
    let verdict := wgProcessCookieReply P s.tun (responderReply P box key init nonce cookie) now
    verdict.1 = .ok ∧ ∀ later next,
      AllSteps (step P) (KeepsCookie P) ⟨verdict.2, s.phase⟩ later →
      next.now - now < wgCookieSecretMaxAgeNs →
        CarriesCookie P cookie
          (initTo P (run (step P) ⟨verdict.2, s.phase⟩ later).1.tun target next).2.1

variable {P box}

theorem replyWorks_of_accepted {target : Target} {key : Key} {init : WgHandshakeInit}
    {s : Endpoint}
    (h : ∀ nonce cookie now,
      wgProcessCookieReply P s.tun (responderReply P box key init nonce cookie) now =
        (.ok, { s.tun with cookie := cookie, hasCookie := true, cookieTimestamp := now })) :
    ReplyWorks P box target key init s := by
  intro nonce cookie now verdict
  have hverdict : verdict = _ := h nonce cookie now
  rw [hverdict]
  refine ⟨rfl, fun later next hlater hsoon => ?_⟩
  obtain ⟨hcookie, hhas, htime⟩ := cookie_run hlater
  have hcarries := carriesCookie_initTo (P := P) (d := next) target hhas (by
    rw [htime]
    exact hsoon)
  rw [hcookie] at hcarries
  exact hcarries

/-- The index test is made against the legacy session. -/
theorem index_of_replyWorks {target : Target} {key : Key} {init : WgHandshakeInit}
    {s : Endpoint} (h : ReplyWorks P box target key init s) :
    s.tun.session.localIndex = init.senderIndex := by
  have hok := (h (Vector.replicate 24 0) zeroMac 0).1
  rw [wgProcessCookieReply_ok_iff] at hok
  exact hok.2.1.symm

end Outstanding

/-- A cookie reply that is not accepted still raises `pending_cookie`. -/
theorem bad_reply_unnoticed_iff {tun : WgTunnel} {slot : Bool} {buffer : Bytes} {received : Nat}
    {src : Option SockAddr} {d : RespDraws} {now : UInt64}
    (htype : getType buffer = wgMsgCookieReply)
    (hbad : received < sizeofCookieReply ∨
      (wgProcessCookieReply P tun (.ofBytes buffer) now).1 ≠ .ok) :
    let tun' := (recvThreadIteration P tun ⟨slot, .datagram buffer received src, d, now⟩).1
    (tun'.cookie = tun.cookie ∧ tun'.hasCookie = tun.hasCookie ∧
        tun'.pendingCookie = tun.pendingCookie) ↔
      received < sizeofCookieReply ∨ tun.pendingCookie = true := by
  intro tun'
  have hnote : (noteSource tun src).cookie = tun.cookie ∧
      (noteSource tun src).hasCookie = tun.hasCookie ∧
      (noteSource tun src).pendingCookie = tun.pendingCookie := by
    cases src <;> exact ⟨rfl, rfl, rfl⟩
  rcases Nat.lt_or_ge received sizeofCookieReply with hshort | hlong
  · have hdropped : tun' = noteSource tun src := by
      simp only [tun', recvThreadIteration, recvDatagram, htype, recvCookieReply,
        if_neg (Nat.not_le.mpr hshort), ge_iff_le]
      split <;> rfl
    rw [hdropped]
    exact iff_of_true hnote (.inl hshort)
  · have hrefused := hbad.resolve_left (Nat.not_lt.mpr hlong)
    rw [ne_eq, ← wgProcessCookieReply_noteSource tun src] at hrefused
    have hraised : tun' = { noteSource tun src with pendingCookie := true } := by
      have hsize : ¬ received < sizeofTransport + wgAeadTagLen := by
        simp only [sizeofCookieReply, sizeofTransport, wgAeadTagLen] at hlong ⊢
        omega
      simp only [tun', recvThreadIteration, recvDatagram, if_neg hsize, htype, recvCookieReply,
        if_pos hlong, ge_iff_le, wgProcessCookieReply_of_not_ok hrefused]
      rfl
    rw [hraised]
    constructor
    · rintro ⟨-, -, hpending⟩
      exact .inr hpending.symm
    · rintro (hshort | hpending)
      · exact absurd hshort (Nat.not_lt.mpr hlong)
      · exact ⟨hnote.1, hnote.2.1, hpending.symm⟩

/-- As long as an INIT is the outstanding one, nothing that is checked against it has been
overwritten and indices are distinct, the reply to it works exactly if the INIT was built by
`wg_handshake_init`; and a reply that does not verify goes unnoticed exactly if it is too
short or `pending_cookie` is already set. -/
theorem cookie_replies_work_iff (P : Primitives)
    (box : Key → ByteVec 24 → Mac → Mac → ByteVec 32)
    (hopen : ∀ key nonce cookie mac1,
      P.wgXaeadDecrypt key nonce (box key nonce cookie mac1) mac1.toList = some cookie)
    (tun : WgTunnel) (target : Target) (d : InitDraws) (phase : Phase) (actions : List Action)
    (hcalm : AllSteps (step P) (KeepsIdentity P) ⟨(initTo P tun target d).1, phase⟩ actions)
    (houtstanding :
      awaitedIndex (run (step P) ⟨(initTo P tun target d).1, phase⟩ actions).1.tun target =
        d.index)
    (hdistinct : target ≠ .legacy →
      (run (step P) ⟨(initTo P tun target d).1, phase⟩ actions).1.tun.session.localIndex ≠
        d.index) :
    (ReplyWorks P box target (targetKey tun target) (initTo P tun target d).2.1
        (run (step P) ⟨(initTo P tun target d).1, phase⟩ actions).1 ↔ target = .legacy) ∧
      ∀ (tun : WgTunnel) (slot : Bool) (buffer : Bytes) (received : Nat)
        (src : Option SockAddr) (d : RespDraws) (now : UInt64),
        getType buffer = wgMsgCookieReply →
        (received < sizeofCookieReply ∨
          (wgProcessCookieReply P tun (.ofBytes buffer) now).1 ≠ .ok) →
        let tun' := (recvThreadIteration P tun ⟨slot, .datagram buffer received src, d, now⟩).1
        ((tun'.cookie = tun.cookie ∧ tun'.hasCookie = tun.hasCookie ∧
            tun'.pendingCookie = tun.pendingCookie) ↔
          received < sizeofCookieReply ∨ tun.pendingCookie = true) := by
  refine ⟨?_, fun _ _ _ _ _ _ _ => bad_reply_unnoticed_iff⟩
  constructor
  · intro hworks
    by_contra hpeer
    have hindex := index_of_replyWorks hworks
    rw [senderIndex_initTo] at hindex
    exact hdistinct hpeer hindex
  · intro hlegacy
    subst hlegacy
    obtain ⟨hpeer, hmac⟩ := identity_run hcalm
    apply replyWorks_of_accepted
    exact responderReply_accepted hopen hpeer hmac houtstanding

/-- The box of the `echoing` primitives. -/
def echoBox (_ : Key) (_ : ByteVec 24) (cookie mac1 : Mac) : ByteVec 32 := cookie ++ mac1

theorem echoBox_opens (key : Key) (nonce : ByteVec 24) (cookie mac1 : Mac) :
    echoing.wgXaeadDecrypt key nonce (echoBox key nonce cookie mac1) mac1.toList =
      some cookie := by
  have hsplit : (echoBox key nonce cookie mac1).toList = cookie.toList ++ mac1.toList :=
    Vector.toList_append
  simp (disch := simp) [echoing, hsplit, field_append_of_le, field_append_vec]

theorem cookie_replies_work_waiting :
    ReplyWorks echoing echoBox .legacy (sampleKey 5) waitingTunnel.2
        ⟨{ waitingTunnel.1 with running := false }, .idle .ok⟩ ↔ Target.legacy = .legacy :=
  (cookie_replies_work_iff echoing echoBox echoBox_opens (sampleTunnel 3 5) .legacy
    ⟨sampleKey 11, 17, Vector.replicate 12 0, 100⟩ (.idle .ok) [.stop]
    ⟨⟨rfl, fun _ h => by cases h⟩, trivial⟩ rfl (fun h => absurd rfl h)).1

/-- The owner of key 7 in the table of the tunnel of key 3. -/
def tabledTunnel : WgTunnel :=
  wgAddPeer (sampleTunnel 3 5) (sampleKey 7) (Vector.replicate 36 0) 9

/-- The reply to an INIT for a table entry is refused for its index, and a datagram that
is no reply to anything raises `pending_cookie`. -/
theorem entry_reply_refused :
    let begun := initTo echoing tabledTunnel (.peer 0)
      ⟨sampleKey 11, 17, Vector.replicate 12 0, 100⟩
    let bogus : Bytes := [3, 0, 0, 0, 5, 0, 0, 0] ++ List.replicate 56 0
    (wgProcessCookieReply echoing begun.1
        (responderReply echoing echoBox (sampleKey 7) begun.2.1 (Vector.replicate 24 0)
          (Vector.replicate 16 6)) 200).1 = .handshake ∧
      (wgProcessCookieReply echoing begun.1 (.ofBytes bogus) 300).1 = .handshake ∧
      begun.1.pendingCookie = false ∧
      (recvThreadIteration echoing begun.1
        ⟨true, .ofBytes bogus none, ⟨sampleKey 2, 32, 300⟩, 300⟩).1.pendingCookie = true := by
  decide +kernel

end Replies

end WgNx.CookieReplies
