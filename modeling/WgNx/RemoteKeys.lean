import WgNx.PeerLinks

/-!
The static keys behind the sessions of a tunnel.

A handshake that is answered is negotiated with the static key its INIT carries,
one that is begun with the key its INIT was built for.  The machine is run with a
record of these keys beside it: the one the attempt in progress is addressed to,
and those of all sessions that were ever marked valid.
-/

namespace WgNx.RemoteKeys

open WgNx.ByteLayout
open WgNx.CryptoPrimitives
open WgNx.EndpointMachine
open WgNx.NoiseHandshake
open WgNx.OutputMachine
open WgNx.PeerLinks
open WgNx.ReplayCounter
open WgNx.SessionCalls
open WgNx.TransportReceive
open WgNx.TransportSend
open WgNx.TunnelSetup
open WgNx.TunnelState
open WgNx.WireMessages

def establishedRefs (events : List Event) : List SessionRef :=
  events.filterMap fun
    | .established ref _ => some ref
    | _ => none

theorem establishedRefs_append (events events' : List Event) :
    establishedRefs (events ++ events') = establishedRefs events ++ establishedRefs events' :=
  List.filterMap_append

section Plain

/-- An operation that negotiates nothing: it marks no session valid and leaves the
identity of the peer alone. -/
structure Plain (tun : WgTunnel) (out : WgTunnel × List Event) : Prop where
  peerPublic : out.1.peerPublic = tun.peerPublic
  established : establishedRefs out.2 = []

variable {P : Primitives} {tun : WgTunnel}

theorem plain_quiet {tun' : WgTunnel} (h : tun'.peerPublic = tun.peerPublic) :
    Plain tun (tun', []) :=
  ⟨h, rfl⟩

theorem Plain.append {tun₁ : WgTunnel} {events₁ : List Event} {out : WgTunnel × List Event}
    (h₁ : Plain tun (tun₁, events₁)) (h : Plain tun₁ out) :
    Plain tun (out.1, events₁ ++ out.2) := by
  refine ⟨h.peerPublic.trans h₁.peerPublic, ?_⟩
  rw [establishedRefs_append, h₁.established, h.established]
  rfl

theorem peerPublic_noteSource (tun : WgTunnel) (src : Option SockAddr) :
    (noteSource tun src).peerPublic = tun.peerPublic := by
  cases src <;> rfl

theorem peerPublic_modifySession (ref : SessionRef) (f : WgSession → WgSession) :
    (tun.modifySession ref f).peerPublic = tun.peerPublic := by
  cases ref <;> rfl

theorem peerPublic_touchPeer (peer : Option Nat) (f : WgPeer → WgPeer) :
    (touchPeer tun peer f).peerPublic = tun.peerPublic := by
  cases peer <;> rfl

theorem peerPublic_wgUpdateEndpointFromRecv :
    (wgUpdateEndpointFromRecv tun).peerPublic = tun.peerPublic := by
  unfold wgUpdateEndpointFromRecv
  split <;> rfl

theorem plain_followUp (now : UInt64) : Plain tun (followUp P tun now) := by
  unfold followUp
  split
  · exact plain_quiet rfl
  · exact ⟨rfl, rfl⟩

theorem plain_transportCase {buffer : Bytes} {received : Nat} {slot : Bool} {now : UInt64}
    {out : WgTunnel × List Event} (h : TransportCase P tun buffer received slot now out) :
    Plain tun out := by
  cases h with
  | unknown hselect => exact plain_quiet rfl
  | expired ref hselect hexpired => cases ref <;> exact plain_quiet rfl
  | empty ref hselect hfresh hlen =>
      apply plain_quiet
      unfold emptyReceived
      rw [peerPublic_touchPeer, peerPublic_modifySession]
  | badTag ref hselect hfresh hlen hopen => exact plain_quiet rfl
  | replayed ref plaintext hselect hfresh hlen hopen hverdict =>
      exact plain_quiet (peerPublic_modifySession ref _)
  | accepted ref plaintext hselect hfresh hlen hopen hverdict =>
      constructor
      · unfold payloadReceived
        rw [peerPublic_wgUpdateEndpointFromRecv, peerPublic_touchPeer,
          peerPublic_modifySession]
      · dsimp only
        split <;> rfl

theorem plain_recvCookieReply (buffer : Bytes) (received : Nat) (now : UInt64) :
    Plain tun (recvCookieReply P tun buffer received now) := by
  unfold recvCookieReply wgProcessCookieReply
  split
  · split
    · exact plain_quiet rfl
    · split
      · exact plain_quiet rfl
      · dsimp only
        split <;> exact plain_quiet rfl
  · exact plain_quiet rfl

theorem plain_wgSendToPeer (i : Nat) (data : Bytes) (now : UInt64) (sent : Bool) :
    Plain tun (wgSendToPeer P tun i data now sent).2 := by
  unfold wgSendToPeer
  dsimp only
  split
  · exact plain_quiet rfl
  · split
    · exact plain_quiet rfl
    · exact ⟨rfl, rfl⟩

theorem plain_wgSend (data : Bytes) (now : UInt64) (sent : Bool) :
    Plain tun (wgSend P tun data now sent).2 := by
  unfold wgSend
  split
  · exact plain_quiet rfl
  · split
    · exact plain_quiet rfl
    · split
      · exact plain_quiet rfl
      · exact ⟨rfl, rfl⟩

theorem plain_wgNetifOutput (data : Bytes) (ipaddr : UInt32) (d : InitDraws) (now : UInt64)
    (sent : Bool) : Plain tun (wgNetifOutput P tun data ipaddr d now sent).2 := by
  unfold wgNetifOutput
  dsimp only
  split
  · exact plain_quiet rfl
  · split
    · exact plain_quiet rfl
    · split
      · exact ⟨rfl, rfl⟩
      · exact plain_wgSendToPeer _ _ now sent

theorem plain_wgRecv (result : SocketResult) (len : Nat) (now : UInt64) :
    Plain tun (wgRecv P tun result len now).2 := by
  unfold wgRecv
  split
  · exact plain_quiet rfl
  · split
    · exact plain_quiet rfl
    · exact plain_quiet rfl
    · rename_i buffer received src
      have hnote := peerPublic_noteSource tun src
      dsimp only
      split
      · exact plain_quiet hnote
      · split
        · exact plain_quiet hnote
        · split
          · exact plain_quiet hnote
          · split
            · exact plain_quiet hnote
            · unfold recvPayload
              split
              · exact plain_quiet hnote
              · split
                · exact plain_quiet hnote
                · dsimp only
                  split
                  · exact plain_quiet hnote
                  · exact ⟨hnote, rfl⟩

theorem plain_keepalivePeer (i : Nat) (now clock : UInt64) :
    Plain tun (keepalivePeer P tun i now clock) := by
  unfold keepalivePeer
  dsimp only
  split
  · exact plain_quiet rfl
  · split
    · exact ⟨rfl, rfl⟩
    · split
      · exact plain_quiet rfl
      · split
        · exact ⟨rfl, rfl⟩
        · exact plain_quiet rfl

theorem plain_keepalivePeers (now : UInt64) (clock : Nat → UInt64) (indices : List Nat) :
    Plain tun (keepalivePeers P now clock indices tun) := by
  induction indices generalizing tun with
  | nil => exact plain_quiet rfl
  | cons i rest ih => exact (plain_keepalivePeer i now (clock i)).append ih

theorem plain_keepalivePass (now : UInt64) (clock : Nat → UInt64) :
    Plain tun (keepalivePass P tun now clock) := by
  have hlegacy : ∀ tun₁ : WgTunnel, Plain tun₁ (keepaliveLegacy tun₁ now) := by
    intro tun₁
    unfold keepaliveLegacy
    split <;> exact ⟨rfl, rfl⟩
  exact (plain_keepalivePeers now clock (List.range tun.peers.count)).append (hlegacy _)

end Plain

section Answering

variable (P : Primitives)

/-- What a step that may answer an INIT does, given the key it accepts. -/
def Answers (tun : WgTunnel) (accepted : Option Key) (out : WgTunnel × List Event) : Prop :=
  match accepted with
  | none => Plain tun out
  | some key =>
      out.1.peerPublic =
          (if (wgFindPeerByPublicKey tun key).isSome then tun.peerPublic else key) ∧
        ∃ ref, establishedRefs out.2 = [ref]

variable {P} {tun : WgTunnel}

theorem Answers.append {accepted : Option Key} {tun₁ : WgTunnel} {events₁ : List Event}
    {out : WgTunnel × List Event} (h₁ : Answers tun accepted (tun₁, events₁))
    (h : Plain tun₁ out) : Answers tun accepted (out.1, events₁ ++ out.2) := by
  cases accepted with
  | none => exact Plain.append h₁ h
  | some key =>
      obtain ⟨hkey, ref, href⟩ := h₁
      refine ⟨h.peerPublic.trans hkey, ref, ?_⟩
      rw [establishedRefs_append, href, h.established]
      rfl

theorem wgHandshakeInitProcess_answers (P : Primitives) (tun : WgTunnel) (msg : WgHandshakeInit)
    (d : RespDraws) :
    Answers tun (acceptedKey P tun msg) (wgHandshakeInitProcess P tun msg d).2 ∧
      ((wgHandshakeInitProcess P tun msg d).1 = .ok ↔ (acceptedKey P tun msg).isSome) := by
  unfold wgHandshakeInitProcess acceptedKey
  by_cases htype : msg.type = wgMsgHandshakeInit
  · rw [if_neg (not_not.mpr htype)]
    by_cases hmac : mac1Ok P tun msg = true
    · rw [if_pos ⟨htype, hmac⟩, hmac, if_neg (by decide)]
      dsimp only
      cases hopen : openInit P tun.staticPrivate tun.staticPublic msg with
      | none => exact ⟨plain_quiet rfl, by simp⟩
      | some opened =>
          obtain ⟨state, key⟩ := opened
          have hsame : wgFindPeerByPublicKey { tun with lastMac1 := msg.mac1 } key =
              wgFindPeerByPublicKey tun key := rfl
          dsimp only [Option.map_some]
          rw [hsame]
          cases hfind : wgFindPeerByPublicKey tun key with
          | none =>
              refine ⟨⟨?_, .legacy, rfl⟩, by simp⟩
              simp [hfind, respondLegacy]
          | some i =>
              refine ⟨⟨?_, .peer i, rfl⟩, by simp⟩
              simp [hfind, respondPeer]
    · rw [if_neg fun h => hmac h.2]
      rw [Bool.not_eq_true] at hmac
      rw [hmac, if_pos (by decide)]
      exact ⟨plain_quiet rfl, by simp⟩
  · rw [if_pos htype, if_neg fun h => htype h.1]
    exact ⟨plain_quiet rfl, by simp⟩

theorem Answers.of_noteSource (src : Option SockAddr) {accepted : Option Key}
    {out : WgTunnel × List Event} (h : Answers (noteSource tun src) accepted out) :
    Answers tun accepted out := by
  cases src with
  | none => exact h
  | some addr =>
      cases accepted with
      | none => exact ⟨h.peerPublic, h.established⟩
      | some key => exact h

end Answering

section Steps

variable (P : Primitives)

/-- What a step can do to the identities: answer an INIT, complete a handshake of
its own, or neither. -/
inductive Negotiates (s : Endpoint) (a : Action) (out : WgTunnel × List Event) : Prop
  | answered (msg : WgHandshakeInit) (hhanded : handedInit s a = some msg)
      (h : Answers s.tun (acceptedKey P s.tun msg) out)
  | completedLegacy (hhanded : handedInit s a = none)
      (hkey : out.1.peerPublic = s.tun.peerPublic)
      (href : establishedRefs out.2 = [.legacy])
  | completedPeer (i : Nat) (hi : i < s.tun.peers.count) (hhanded : handedInit s a = none)
      (hkey : out.1.peerPublic = s.tun.peerPublic)
      (href : establishedRefs out.2 = [.peer i])
  | neither (hhanded : handedInit s a = none) (h : Plain s.tun out)

variable {P}

theorem negotiates_recvResponse {s : Endpoint} {a : Action} (hhanded : handedInit s a = none)
    (src : Option SockAddr) (buffer : Bytes) (received : Nat) (now : UInt64) :
    Negotiates P s a (recvResponse P (noteSource s.tun src) buffer received now) := by
  have hnote := peerPublic_noteSource s.tun src
  unfold recvResponse
  split
  · apply Negotiates.neither hhanded
    split <;> exact plain_quiet hnote
  · dsimp only
    split
    · exact .neither hhanded (plain_quiet hnote)
    · rename_i i hfind
      have hi := PeerTable.find_lt hfind
      rw [(sameSessions_noteSource s.tun src).peers] at hi
      have hcase := wgHandshakeInitProcessResponse_cases P (noteSource s.tun src) i
        (WgHandshakeResponse.ofBytes buffer) now
      generalize (wgHandshakeInitProcessResponse P (noteSource s.tun src) i
        (WgHandshakeResponse.ofBytes buffer) now).2 = out at hcase ⊢
      cases hcase with
      | refused => exact .neither hhanded (plain_quiet hnote)
      | badTag remoteIndex pendingHs => exact .neither hhanded (plain_quiet hnote)
      | installed keys remoteIndex sess hsess => exact .completedPeer i hi hhanded hnote rfl

theorem answers_recvInit {tun : WgTunnel} {buffer : Bytes} {received : Nat}
    (hlong : sizeofInit ≤ received) (d : RespDraws) (now : UInt64) :
    Answers tun (acceptedKey P tun (WgHandshakeInit.ofBytes buffer))
      (recvInit P tun buffer received d now) := by
  obtain ⟨hanswers, hok⟩ := wgHandshakeInitProcess_answers P tun
    (WgHandshakeInit.ofBytes buffer) d
  unfold recvInit
  rw [if_pos hlong]
  dsimp only
  split
  · exact hanswers.append (plain_followUp now)
  · exact hanswers

theorem negotiates_recvDatagram {s : Endpoint} {slot : Bool} {buffer : Bytes} {received : Nat}
    {src : Option SockAddr} {d : RespDraws} {now : UInt64} (hrunning : s.tun.running = true) :
    Negotiates P s (.recv ⟨slot, .datagram buffer received src, d, now⟩)
      (recvDatagram P (noteSource s.tun src) buffer received slot d now) := by
  have hhanded : handedInit s (.recv ⟨slot, .datagram buffer received src, d, now⟩) =
      initIn buffer received := if_pos hrunning
  have hnote := peerPublic_noteSource s.tun src
  have hplain : ∀ {out : WgTunnel × List Event}, Plain (noteSource s.tun src) out →
      Plain s.tun out := fun h => ⟨h.peerPublic.trans hnote, h.established⟩
  have hother : getType buffer ≠ wgMsgHandshakeInit →
      handedInit s (.recv ⟨slot, .datagram buffer received src, d, now⟩) = none :=
    fun htype => hhanded.trans (initIn_eq_none received htype)
  have hcase := recvDatagram_cases P (noteSource s.tun src) buffer received slot d now
  generalize recvDatagram P (noteSource s.tun src) buffer received slot d now = out at hcase ⊢
  cases hcase with
  | dropped hinit =>
      have hnone : initIn buffer received = none :=
        if_neg fun h => Nat.not_le.mpr (hinit h.1) h.2
      exact .neither (hhanded.trans hnone) (plain_quiet hnote)
  | transport htype =>
      exact .neither (hother (by rw [htype]; decide))
        (hplain (plain_transportCase (recvTransport_cases P _ buffer received slot now)))
  | response htype =>
      exact negotiates_recvResponse (hother (by rw [htype]; decide)) src buffer received now
  | cookie htype =>
      exact .neither (hother (by rw [htype]; decide))
        (hplain (plain_recvCookieReply buffer received now))
  | init htype hlong =>
      have hsome : initIn buffer received = some (.ofBytes buffer) := if_pos ⟨htype, hlong⟩
      refine .answered _ (hhanded.trans hsome) (Answers.of_noteSource src ?_)
      rw [← acceptedKey_noteSource P s.tun src]
      exact answers_recvInit hlong d now

theorem negotiates_recv (s : Endpoint) (inp : RecvInput) :
    Negotiates P s (.recv inp)
      (if s.tun.running then recvThreadIteration P s.tun inp else (s.tun, [])) := by
  obtain ⟨slot, result, d, now⟩ := inp
  split
  · rename_i hrunning
    cases result with
    | timeout => exact .neither rfl (plain_quiet rfl)
    | error err => exact .neither rfl (plain_quiet rfl)
    | datagram buffer received src => exact negotiates_recvDatagram hrunning
  · rename_i hstopped
    refine .neither ?_ (plain_quiet rfl)
    cases result with
    | timeout => rfl
    | error err => rfl
    | datagram buffer received src => exact if_neg hstopped

theorem negotiates_responseCase {s : Endpoint} {a : Action} (hhanded : handedInit s a = none)
    {tun : WgTunnel} (hkey : tun.peerPublic = s.tun.peerPublic) {msg : WgHandshakeResponse}
    {state : WgHandshakeState} {now : UInt64} {err : WgError} {tun' : WgTunnel}
    {events : List Event}
    (h : ResponseCase P tun msg state now err tun' events) : Negotiates P s a (tun', events) := by
  cases h with
  | refused => exact .neither hhanded (plain_quiet hkey)
  | badTag hindex => exact .neither hhanded (plain_quiet hkey)
  | installed keys sess hindex hsess => exact .completedLegacy hhanded hkey rfl

theorem negotiates_connectEnd {s : Endpoint} {attempt : Nat} {state : WgHandshakeState}
    (hphase : s.phase = .connectWait attempt state) (result : SocketResult) (resp : RespDraws)
    (now : UInt64) :
    Negotiates P s (.connectEnd result resp now)
      (connectEnd P s.tun state result resp now).2 := by
  have hnote := peerPublic_noteSource s.tun (SocketResult.src result)
  have hcookie : (noteSource s.tun (SocketResult.src result)).pendingCookie =
      s.tun.pendingCookie := by
    cases SocketResult.src result <;> rfl
  unfold SessionCalls.connectEnd
  dsimp only
  cases result with
  | timeout =>
      split
      · exact .neither rfl (plain_quiet rfl)
      · exact .neither rfl (plain_quiet rfl)
  | error err =>
      split
      · exact .neither rfl (plain_quiet rfl)
      · exact .neither rfl (plain_quiet rfl)
  | datagram buffer received src =>
      have hhanded : handedInit s (.connectEnd (.datagram buffer received src) resp now) =
          if s.tun.pendingCookie then none else initIn buffer received := by
        simp only [handedInit, hphase]
      rw [hcookie]
      dsimp only
      split
      · rename_i hset
        rw [if_pos hset] at hhanded
        exact .neither hhanded (plain_quiet hnote)
      · rename_i hclear
        rw [if_neg hclear] at hhanded
        unfold connectDatagram
        split
        · rename_i hinit
          have hsome : initIn buffer received = some (.ofBytes buffer) := if_pos hinit
          refine .answered _ (hhanded.trans hsome) (Answers.of_noteSource src ?_)
          rw [← acceptedKey_noteSource P s.tun src]
          exact (wgHandshakeInitProcess_answers P _ (WgHandshakeInit.ofBytes buffer) resp).1
        · rename_i hother
          have hnone : initIn buffer received = none := if_neg hother
          split
          · exact .neither (hhanded.trans hnone) (plain_quiet hnote)
          · exact negotiates_responseCase (hhanded.trans hnone) hnote
              (wgHandshakeResponse_cases P _ _ state now)

theorem negotiates_rekeyEnd (s : Endpoint) (state : WgHandshakeState) (now now' : UInt64) :
    Negotiates P s (.rekeyEnd now') (rekeyEnd P s.tun state now).2 := by
  unfold SessionCalls.rekeyEnd
  split
  · exact .neither rfl (plain_quiet rfl)
  · split
    · exact .neither rfl (plain_quiet rfl)
    · split
      · exact .neither rfl (plain_quiet rfl)
      · exact negotiates_responseCase rfl rfl (wgHandshakeResponse_cases P s.tun _ state now)

theorem negotiates_stepTunnel (s : Endpoint) (a : Action) (hend : ∀ result resp now,
    a ≠ .connectEnd result resp now) : Negotiates P s a (stepTunnel P s.tun a) := by
  have hidle : Plain s.tun (s.tun, []) := plain_quiet rfl
  cases a with
  | addPeer publicKey relayHash ipRaw => exact .neither rfl (plain_quiet rfl)
  | setRecvCallback cb user => exact .neither rfl (plain_quiet rfl)
  | start recvThread keepaliveThread =>
      apply Negotiates.neither rfl
      apply plain_quiet
      simp only [wgStart]
      split
      · rfl
      · split
        · rfl
        · split <;> rfl
  | stop => exact .neither rfl (plain_quiet rfl)
  | recv inp => exact negotiates_recv s inp
  | keepalive now clock =>
      apply Negotiates.neither rfl
      simp only [stepTunnel]
      split
      · exact plain_keepalivePass now clock
      · exact hidle
  | send data now sent => exact .neither rfl (plain_wgSend data now sent)
  | sendToPeer i data now sent => exact .neither rfl (plain_wgSendToPeer i data now sent)
  | wgRecv result len now => exact .neither rfl (plain_wgRecv result len now)
  | output data ipaddr d now sent =>
      exact .neither rfl (plain_wgNetifOutput data ipaddr d now sent)
  | connectEnd result resp now => exact absurd rfl (hend result resp now)
  | _ => exact .neither rfl hidle

theorem negotiates_stepConnect (s : Endpoint) (a : Action) (hrecv : ∀ inp, a ≠ .recv inp) :
    Negotiates P s a ((stepConnect P s a).1.tun, (stepConnect P s a).2) := by
  have hidle : Plain s.tun (s.tun, []) := plain_quiet rfl
  cases a with
  | callConnect fd =>
      have hopen : (openSocket s.tun fd).peerPublic = s.tun.peerPublic := by
        unfold openSocket
        split <;> rfl
      apply Negotiates.neither rfl
      simp only [stepConnect]
      split
      · split <;> exact plain_quiet hopen
      · exact hidle
  | connectBegin d sent =>
      apply Negotiates.neither rfl
      simp only [stepConnect]
      split
      · split <;> exact ⟨rfl, rfl⟩
      · exact hidle
  | connectEnd result resp now =>
      simp only [stepConnect]
      split
      · rename_i attempt state hphase
        exact negotiates_connectEnd hphase result resp now
      · rename_i hphase
        refine .neither ?_ hidle
        cases result with
        | datagram buffer received src =>
            simp only [handedInit]
        | _ => rfl
  | connectFinish now =>
      apply Negotiates.neither rfl
      simp only [stepConnect]
      split
      · simp only [SessionCalls.connectFinish]
        split <;> exact ⟨rfl, rfl⟩
      · exact hidle
  | recv inp => exact absurd rfl (hrecv inp)
  | _ => exact .neither rfl hidle

theorem negotiates_stepRekey (s : Endpoint) (a : Action) (hrecv : ∀ inp, a ≠ .recv inp)
    (hend : ∀ result resp now, a ≠ .connectEnd result resp now) :
    Negotiates P s a ((stepRekey P s a).1.tun, (stepRekey P s a).2) := by
  have hidle : Plain s.tun (s.tun, []) := plain_quiet rfl
  cases a with
  | callRekey =>
      apply Negotiates.neither rfl
      simp only [stepRekey]
      split
      · exact plain_quiet rfl
      · exact hidle
  | rekeyBegin d sent =>
      apply Negotiates.neither rfl
      simp only [stepRekey]
      split
      · split <;> exact ⟨rfl, rfl⟩
      · exact hidle
  | rekeyEnd now =>
      simp only [stepRekey]
      split
      · exact negotiates_rekeyEnd s _ now now
      · exact .neither rfl hidle
  | rekeyFinish now =>
      apply Negotiates.neither rfl
      simp only [stepRekey]
      split
      · simp only [SessionCalls.rekeyFinish]
        split <;> exact ⟨rfl, rfl⟩
      · exact hidle
  | recv inp => exact absurd rfl (hrecv inp)
  | connectEnd result resp now => exact absurd rfl (hend result resp now)
  | _ => exact .neither rfl hidle

theorem step_negotiates (s : Endpoint) (a : Action) :
    Negotiates P s a ((step P s a).1.tun, (step P s a).2) := by
  cases a with
  | callConnect => exact negotiates_stepConnect s _ (by simp)
  | connectBegin => exact negotiates_stepConnect s _ (by simp)
  | connectEnd => exact negotiates_stepConnect s _ (by simp)
  | connectFinish => exact negotiates_stepConnect s _ (by simp)
  | callRekey => exact negotiates_stepRekey s _ (by simp) (by simp)
  | rekeyBegin => exact negotiates_stepRekey s _ (by simp) (by simp)
  | rekeyEnd => exact negotiates_stepRekey s _ (by simp) (by simp)
  | rekeyFinish => exact negotiates_stepRekey s _ (by simp) (by simp)
  | _ => exact negotiates_stepTunnel s _ (by simp)

end Steps

section Runs

/-- The machine with the key the attempt in progress is addressed to, and the keys
of all sessions so far. -/
structure Record where
  endpoint : Endpoint
  attempt : Key
  negotiated : List (Option Key)

variable (P : Primitives)

/-- The static key a session marked valid in a step was negotiated with. -/
def remoteKey (s : Record) (a : Action) (ref : SessionRef) : Option Key :=
  match handedInit s.endpoint a with
  | some msg => acceptedKey P s.endpoint.tun msg
  | none =>
      match ref with
      | .peer i => some (s.endpoint.tun.peers.get i).publicKey
      | _ => some s.attempt

/-- The key an INIT is built for when an attempt begins. -/
def attemptKey (s : Record) (a : Action) : Key :=
  match s.endpoint.phase, a with
  | .connecting _, .connectBegin _ _ => s.endpoint.tun.peerPublic
  | .rekeying _ _, .rekeyBegin _ _ => s.endpoint.tun.peerPublic
  | _, _ => s.attempt

def recordStep (s : Record) (a : Action) : Record × List Event :=
  (⟨(step P s.endpoint a).1, attemptKey s a,
      s.negotiated ++ (establishedRefs (step P s.endpoint a).2).map (remoteKey P s a)⟩,
    (step P s.endpoint a).2)

/-- The key of the configuration, or of an entry that was added to the table. -/
def Configured (config : WgConfig) (tun : WgTunnel) (key : Key) : Prop :=
  key = config.peerPublicKey ∨ (wgFindPeerByPublicKey tun key).isSome = true

instance (config : WgConfig) (tun : WgTunnel) (key : Key) :
    Decidable (Configured config tun key) :=
  inferInstanceAs (Decidable (_ ∨ _))

/-- The handshakes go to the configured peer, and all sessions so far belong to
configured keys. -/
structure Loyal (config : WgConfig) (s : Record) : Prop where
  peerPublic : s.endpoint.tun.peerPublic = config.peerPublicKey
  attempt : s.attempt = config.peerPublicKey
  negotiated : ∀ remote ∈ s.negotiated,
    ∃ key, remote = some key ∧ Configured config s.endpoint.tun key

/-- The record of a handle that `wg_init` returns. -/
def recordStart (config : WgConfig) (endpoint : SockAddr) : Record :=
  ⟨initial P config endpoint, config.peerPublicKey, []⟩

variable {P}

theorem Configured.evolves {config : WgConfig} {tun tun' : WgTunnel} {key : Key}
    (h : Configured config tun key) (hevolves : Evolves tun tun') :
    Configured config tun' key := by
  apply h.imp_right
  intro hfound
  obtain ⟨i, hi, hkey⟩ := PeerTable.find_isSome_iff.mp hfound
  obtain ⟨hi', hid⟩ := hevolves.identity hi
  simp only [Link.identity, linkOf, Prod.mk.injEq] at hid
  refine PeerTable.find_isSome_iff.mpr ⟨i, hi', ?_⟩
  rw [hid.1, hid.2.1]
  exact hkey

/-- Every entry of the table was configured when it was added. -/
def AllConfigured (tun : WgTunnel) : Prop := ∀ l ∈ links tun, l.configured = true

theorem AllConfigured.evolves {tun tun' : WgTunnel} (h : AllConfigured tun)
    (hevolves : Evolves tun tun') : AllConfigured tun' := by
  unfold Evolves AllConfigured at *
  generalize links tun' = ls at hevolves ⊢
  induction hevolves with
  | refl => exact h
  | tail _ hlast ih =>
      intro l hl
      cases hlast with
      | added publicKey ipRaw =>
          rcases List.mem_append.mp hl with hold | hnew
          · exact ih l hold
          · rw [List.mem_singleton.mp hnew]
      | changed i l₀ l₁ hi hstep =>
          rcases List.mem_or_eq_of_mem_set hl with hold | rfl
          · exact ih l hold
          · have hid := congrArg Prod.fst (identity_linkStep hstep)
            exact hid.trans (ih l₀ (List.mem_of_getElem? hi))

theorem configured_entry {config : WgConfig} {tun : WgTunnel} (h : AllConfigured tun) {i : Nat}
    (hi : i < tun.peers.count) : Configured config tun (tun.peers.get i).publicKey := by
  have hconfigured : (tun.peers.get i).configured = true :=
    h _ (List.mem_of_getElem? (getElem?_links hi))
  refine .inr (PeerTable.find_isSome_iff.mpr ⟨i, hi, ?_⟩)
  rw [hconfigured]
  simp

theorem attemptKey_of_loyal {config : WgConfig} {s : Record} (h : Loyal config s) (a : Action) :
    attemptKey s a = config.peerPublicKey := by
  unfold attemptKey
  split
  · exact h.peerPublic
  · exact h.peerPublic
  · exact h.attempt

/-- The sessions a step marks valid belong to configured keys, if the sender of an
INIT that it accepts does. -/
theorem remoteKey_configured {config : WgConfig} {s : Record}
    (hall : AllConfigured s.endpoint.tun) (h : Loyal config s) {a : Action}
    (hsender : ∀ key, acceptedInit P s.endpoint a = some key →
      Configured config s.endpoint.tun key) {ref : SessionRef}
    (href : ref ∈ establishedRefs (step P s.endpoint a).2) :
    ∃ key, remoteKey P s a ref = some key ∧ Configured config s.endpoint.tun key := by
  unfold remoteKey
  cases step_negotiates (P := P) s.endpoint a with
  | answered msg hhanded hanswers =>
      rw [hhanded]
      dsimp only
      cases haccepted : acceptedKey P s.endpoint.tun msg with
      | none =>
          rw [haccepted] at hanswers
          rw [show establishedRefs (step P s.endpoint a).2 = [] from hanswers.established] at href
          cases href
      | some key =>
          refine ⟨key, rfl, hsender key ?_⟩
          rw [acceptedInit, hhanded]
          exact haccepted
  | completedLegacy hhanded hkey hrefs =>
      rw [hhanded]
      rw [show establishedRefs (step P s.endpoint a).2 = _ from hrefs] at href
      rw [List.mem_singleton.mp href]
      exact ⟨_, rfl, .inl h.attempt⟩
  | completedPeer i hi hhanded hkey hrefs =>
      rw [hhanded]
      rw [show establishedRefs (step P s.endpoint a).2 = _ from hrefs] at href
      rw [List.mem_singleton.mp href]
      exact ⟨_, rfl, configured_entry hall hi⟩
  | neither hhanded hplain =>
      rw [show establishedRefs (step P s.endpoint a).2 = [] from hplain.established] at href
      cases href

/-- The identity of the peer survives a step exactly if the step accepts no INIT of
a stranger. -/
theorem peerPublic_step_iff {config : WgConfig} {s : Endpoint}
    (h : s.tun.peerPublic = config.peerPublicKey) (a : Action) :
    (step P s a).1.tun.peerPublic = config.peerPublicKey ↔
      ∀ key, acceptedInit P s a = some key → Configured config s.tun key := by
  unfold acceptedInit
  cases step_negotiates (P := P) s a with
  | answered msg hhanded hanswers =>
      rw [hhanded]
      cases haccepted : acceptedKey P s.tun msg with
      | none =>
          rw [haccepted] at hanswers
          have hkey : (step P s a).1.tun.peerPublic = s.tun.peerPublic := hanswers.peerPublic
          simp [hkey, h, haccepted]
      | some sender =>
          rw [haccepted] at hanswers
          have hkey : (step P s a).1.tun.peerPublic =
              if (wgFindPeerByPublicKey s.tun sender).isSome then s.tun.peerPublic
              else sender := hanswers.1
          rw [hkey]
          simp only [Option.bind_some, haccepted, Option.some.injEq, forall_eq', Configured]
          split
          · rename_i hfound
            exact iff_of_true h (.inr hfound)
          · rename_i hunknown
            constructor
            · exact .inl
            · rintro (heq | hfound)
              · exact heq
              · exact absurd hfound hunknown
  | completedLegacy hhanded hkey hrefs =>
      rw [hhanded, hkey]
      simp [h]
  | completedPeer i hi hhanded hkey hrefs =>
      rw [hhanded, hkey]
      simp [h]
  | neither hhanded hplain =>
      have hkey : (step P s a).1.tun.peerPublic = s.tun.peerPublic := hplain.peerPublic
      rw [hhanded, hkey]
      simp [h]

theorem loyal_recordStep_iff {config : WgConfig} {s : Record}
    (hall : AllConfigured s.endpoint.tun) (h : Loyal config s) (a : Action) :
    Loyal config (recordStep P s a).1 ↔
      ∀ key, acceptedInit P s.endpoint a = some key →
        Configured config s.endpoint.tun key := by
  constructor
  · intro hnext
    exact (peerPublic_step_iff h.peerPublic a).mp hnext.peerPublic
  · intro hsender
    have hevolves := evolves_step (P := P) s.endpoint a
    refine ⟨(peerPublic_step_iff h.peerPublic a).mpr hsender, attemptKey_of_loyal h a, ?_⟩
    intro remote hremote
    rcases List.mem_append.mp hremote with hold | hnew
    · obtain ⟨key, rfl, hconfigured⟩ := h.negotiated remote hold
      exact ⟨key, rfl, hconfigured.evolves hevolves⟩
    · obtain ⟨ref, href, rfl⟩ := List.mem_map.mp hnew
      obtain ⟨key, hkey, hconfigured⟩ := remoteKey_configured hall h hsender href
      exact ⟨key, hkey, hconfigured.evolves hevolves⟩

/-- Throughout a run the tunnel keeps to the configured keys exactly if every INIT
that is accepted in it comes from one of them. -/
theorem configured_keys_only_iff (config : WgConfig) (endpoint : SockAddr)
    (actions : List Action) :
    AllStates (recordStep P) (Loyal config) (recordStart P config endpoint) actions ↔
      AllSteps (recordStep P)
        (fun s a => ∀ key, acceptedInit P s.endpoint a = some key →
          Configured config s.endpoint.tun key)
        (recordStart P config endpoint) actions := by
  have hstart : AllConfigured (recordStart P config endpoint).endpoint.tun := by
    intro l hl
    cases hl
  have hloyal : Loyal config (recordStart P config endpoint) := by
    refine ⟨rfl, rfl, ?_⟩
    intro remote hremote
    cases hremote
  refine @allStates_iff_allSteps _ _ _ (recordStep P) (Loyal config) _
    (fun s _ => AllConfigured s.endpoint.tun) (fun _ => True) (fun _ _ _ => trivial) ?_ ?_
    _ [] actions hstart trivial hloyal
  · intro s log a hall _
    exact hall.evolves (evolves_step s.endpoint a)
  · intro s log a hall _ hnow
    exact loyal_recordStep_iff hall hnow a

end Runs

section Samples

/-- A stranger answers the first attempt of `wg_connect` with an INIT: the session
is the stranger's, and so is the key all later handshakes go to. -/
theorem stranger_takes_over :
    let actions := connectAnsweredBy (Vector.replicate 32 8) 20 1000
    let start := recordStart additive sampleConfig ⟨0, 51820⟩
    let s := (run (recordStep additive) start actions).1
    ¬ AllStates (recordStep additive) (Loyal sampleConfig) start actions ∧
      s.endpoint.tun.session.valid = true ∧
      s.negotiated = [some (Vector.replicate 32 8)] ∧
      ¬ Configured sampleConfig s.endpoint.tun (Vector.replicate 32 8) ∧
      s.endpoint.tun.peerPublic = Vector.replicate 32 8 := by
  have hfinal : let s := (run (recordStep additive)
        (recordStart additive sampleConfig ⟨0, 51820⟩)
        (connectAnsweredBy (Vector.replicate 32 8) 20 1000)).1
      s.endpoint.tun.session.valid = true ∧
        s.negotiated = [some (Vector.replicate 32 8)] ∧
        ¬ Configured sampleConfig s.endpoint.tun (Vector.replicate 32 8) ∧
        s.endpoint.tun.peerPublic = Vector.replicate 32 8 := by
    decide +kernel
  refine ⟨?_, hfinal⟩
  intro hall
  have hkey := hfinal.2.2.2.symm.trans (AllStates.last hall).peerPublic
  exact absurd hkey (by decide)

end Samples

end WgNx.RemoteKeys
