import WgNx.TransportSend

/-!
Receiving: one iteration of `recv_thread_func`, one call of `wg_recv`, and one
pass of `keepalive_thread_func`.

A socket result carries the whole receive buffer and the number of bytes that
were received into it, because the handshake branch casts the buffer without
comparing that number with the record it reads.  One iteration sees one clock
reading.
-/

namespace WgNx.TransportReceive

open WgNx.ByteLayout
open WgNx.CryptoPrimitives
open WgNx.NoiseHandshake
open WgNx.ReplayCounter
open WgNx.TransportSend
open WgNx.TunnelSetup
open WgNx.TunnelState
open WgNx.WireMessages
open Function

inductive SocketResult
  | timeout
  | error (err : WgError)
  | datagram (buffer : Bytes) (received : Nat) (src : Option SockAddr)
  deriving DecidableEq

/-- A datagram that fills the buffer from its start. -/
def SocketResult.ofBytes (bytes : Bytes) (src : Option SockAddr) : SocketResult :=
  .datagram bytes bytes.length src

/-- `wg_socket_recv` remembers the source of a UDP datagram. -/
def noteSource (tun : WgTunnel) : Option SockAddr → WgTunnel
  | none => tun
  | some src => { tun with recvSrc := src, recvSrcValid := true }

def wgUpdateEndpointFromRecv (tun : WgTunnel) : WgTunnel :=
  if tun.recvSrcValid then { tun with endpoint := tun.recvSrc, recvSrcValid := false }
  else tun

section Lookup

/-- The session of a table entry that a receiver index addresses. -/
def selectPeerSession (tun : WgTunnel) (receiverIndex : UInt32) : Option SessionRef :=
  match wgFindPeerByLocalIndex tun receiverIndex with
  | none => none
  | some i =>
      let peer := tun.peers.get i
      if receiverIndex = peer.session.localIndex then some (.peer i)
      else if peer.prevSession.valid ∧ receiverIndex = peer.prevSession.localIndex then
        some (.peerPrev i)
      else none

def selectLegacySession (tun : WgTunnel) (receiverIndex : UInt32) : Option SessionRef :=
  if receiverIndex = tun.session.localIndex then some .legacy
  else if receiverIndex = tun.session.oldLocalIndex then some .legacy
  else if tun.prevSession.valid ∧ receiverIndex = tun.prevSession.localIndex then
    some .legacyPrev
  else none

/-- The session `recv_thread_func` processes a transport packet with. -/
def selectSession (tun : WgTunnel) (receiverIndex : UInt32) : Option SessionRef :=
  match selectPeerSession tun receiverIndex with
  | some ref => some ref
  | none => selectLegacySession tun receiverIndex

theorem holds_of_selectPeerSession {tun : WgTunnel} {receiverIndex : UInt32}
    {ref : SessionRef} (h : selectPeerSession tun receiverIndex = some ref) :
    tun.Holds ref := by
  unfold selectPeerSession at h
  split at h
  · exact absurd h (by simp)
  · rename_i i hfind
    have hi := PeerTable.find_lt hfind
    dsimp only at h
    split at h
    · cases h
      exact hi
    · split at h
      · cases h
        exact hi
      · exact absurd h (by simp)

theorem selectLegacySession_cases {tun : WgTunnel} {receiverIndex : UInt32}
    {ref : SessionRef} (h : selectLegacySession tun receiverIndex = some ref) :
    (ref = .legacy ∧ (receiverIndex = tun.session.localIndex ∨
      receiverIndex = tun.session.oldLocalIndex)) ∨
    (ref = .legacyPrev ∧ tun.prevSession.valid = true ∧
      receiverIndex = tun.prevSession.localIndex) := by
  unfold selectLegacySession at h
  split at h
  · rename_i hlocal
    cases h
    exact .inl ⟨rfl, .inl hlocal⟩
  · split at h
    · rename_i hold
      cases h
      exact .inl ⟨rfl, .inr hold⟩
    · split at h
      · rename_i hprev
        cases h
        exact .inr ⟨rfl, hprev⟩
      · exact absurd h (by simp)

theorem selectSession_cases {tun : WgTunnel} {receiverIndex : UInt32} {ref : SessionRef}
    (h : selectSession tun receiverIndex = some ref) :
    selectPeerSession tun receiverIndex = some ref ∨
      selectPeerSession tun receiverIndex = none ∧
        selectLegacySession tun receiverIndex = some ref := by
  unfold selectSession at h
  split at h
  · rename_i found hfound
    cases h
    exact .inl hfound
  · rename_i hnone
    exact .inr ⟨hnone, h⟩

theorem holds_of_selectSession {tun : WgTunnel} {receiverIndex : UInt32}
    {ref : SessionRef} (h : selectSession tun receiverIndex = some ref) :
    tun.Holds ref := by
  rcases selectSession_cases h with hpeer | ⟨-, hlegacy⟩
  · exact holds_of_selectPeerSession hpeer
  · rcases selectLegacySession_cases hlegacy with ⟨rfl, -⟩ | ⟨rfl, -⟩
    · trivial
    · trivial

end Lookup

/-- What `recv_thread_func` reads from its environment in one iteration. -/
structure RecvInput where
  slot : Bool
  result : SocketResult
  draws : RespDraws
  now : UInt64
  deriving DecidableEq

section Receivers

variable (P : Primitives)

/-- An expired previous session is wiped when a packet addresses it. -/
def dropExpired (tun : WgTunnel) : SessionRef → WgTunnel
  | .legacyPrev => { tun with prevSession := .zeroed }
  | .peerPrev i => tun.modifySession (.peerPrev i) fun _ => .zeroed
  | _ => tun

def touchPeer (tun : WgTunnel) (peer : Option Nat) (f : WgPeer → WgPeer) : WgTunnel :=
  match peer with
  | none => tun
  | some i => { tun with peers := tun.peers.modify i f }

theorem getSession_touchPeer {tun : WgTunnel} {peer : Option Nat} {f : WgPeer → WgPeer}
    (hpeer : ∀ i, peer = some i → i < tun.peers.count)
    (hsession : ∀ p, (f p).session = p.session)
    (hprev : ∀ p, (f p).prevSession = p.prevSession) (ref : SessionRef) :
    (touchPeer tun peer f).getSession ref = tun.getSession ref := by
  cases peer with
  | none => rfl
  | some i => exact getSession_modifyPeer (hpeer i rfl) hsession hprev ref

/-- The plaintext of a transport packet under a session, if its tag verifies. -/
def openTransport (sess : WgSession) (buffer : Bytes) (received : Nat) :
    Option (ByteVec (received - sizeofTransport - wgAeadTagLen)) :=
  P.wgAeadDecrypt sess.receivingKey (getU64 buffer 8)
    (field buffer sizeofTransport (received - sizeofTransport - wgAeadTagLen + 16)) []

/-- The session whose replay window decides about a transport packet, and the counter it
decides about. -/
def checkedPacket (tun : WgTunnel) (buffer : Bytes) (received : Nat) (now : UInt64) :
    Option (SessionRef × UInt64) :=
  match selectSession tun (getU32 buffer 4) with
  | none => none
  | some ref =>
      if (tun.getSession ref).Expired now then none
      else if received - sizeofTransport - wgAeadTagLen = 0 then none
      else
        match openTransport P (tun.getSession ref) buffer received with
        | none => none
        | some _ => some (ref, getU64 buffer 8)

/-- A packet is opened by the session its index selects, which is not expired. -/
theorem checkedPacket_eq_some {tun : WgTunnel} {buffer : Bytes} {received : Nat}
    {now counter : UInt64} {ref : SessionRef}
    (h : checkedPacket P tun buffer received now = some (ref, counter)) :
    selectSession tun (getU32 buffer 4) = some ref ∧ ¬ (tun.getSession ref).Expired now := by
  unfold checkedPacket at h
  split at h
  · cases h
  · rename_i ref' hselect
    split at h
    · cases h
    · rename_i hfresh
      split at h
      · cases h
      · split at h <;> cases h
        exact ⟨hselect, hfresh⟩

/-- The effect of an empty payload, whose tag is never looked at. -/
def emptyReceived (tun : WgTunnel) (ref : SessionRef) (peer : Option Nat) (now : UInt64) :
    WgTunnel :=
  touchPeer (tun.modifySession ref fun s => { s with lastReceived := now }) peer
    fun p => { p with lastSent := now, connected := true }

/-- The effect of a packet that passed the tag and the replay window. -/
def payloadReceived (tun : WgTunnel) (ref : SessionRef) (peer : Option Nat)
    (replay : WgReplayCounter) (counter now : UInt64) : WgTunnel :=
  let tun := tun.modifySession ref fun s =>
    { s with
      replay := replay
      lastReceived := now
      receivingCounter := counter + 1 }
  wgUpdateEndpointFromRecv (touchPeer tun peer fun p => { p with connected := true })

def recvTransport (tun : WgTunnel) (buffer : Bytes) (received : Nat) (slot : Bool)
    (now : UInt64) : WgTunnel × List Event :=
  let receiverIndex := getU32 buffer 4
  let counter := getU64 buffer 8
  let peer := wgFindPeerByLocalIndex tun receiverIndex
  match selectSession tun receiverIndex with
  | none => (tun, [])
  | some ref =>
      let sess := tun.getSession ref
      if sess.Expired now then (dropExpired tun ref, [])
      else if received - sizeofTransport - wgAeadTagLen = 0 then
        (emptyReceived tun ref peer now, [])
      else
        match openTransport P sess buffer received with
        | none => (tun, [])
        | some plaintext =>
            let verdict := wgCounterValidate sess.replay counter
            if !verdict.1 then
              (tun.modifySession ref fun s => { s with replay := verdict.2 }, [])
            else
              (payloadReceived tun ref peer verdict.2 counter now,
                if tun.recvCb.isSome && slot then
                  [.delivered ref sess plaintext.toList now]
                else [])

/-- Everything the receive loop can do with a transport packet. -/
inductive TransportCase (tun : WgTunnel) (buffer : Bytes) (received : Nat) (slot : Bool)
    (now : UInt64) : WgTunnel × List Event → Prop
  | unknown (hselect : selectSession tun (getU32 buffer 4) = none) :
      TransportCase tun buffer received slot now (tun, [])
  | expired (ref : SessionRef)
      (hselect : selectSession tun (getU32 buffer 4) = some ref)
      (hexpired : (tun.getSession ref).Expired now) :
      TransportCase tun buffer received slot now (dropExpired tun ref, [])
  | empty (ref : SessionRef)
      (hselect : selectSession tun (getU32 buffer 4) = some ref)
      (hfresh : ¬ (tun.getSession ref).Expired now)
      (hlen : received - sizeofTransport - wgAeadTagLen = 0) :
      TransportCase tun buffer received slot now
        (emptyReceived tun ref (wgFindPeerByLocalIndex tun (getU32 buffer 4)) now, [])
  | badTag (ref : SessionRef)
      (hselect : selectSession tun (getU32 buffer 4) = some ref)
      (hfresh : ¬ (tun.getSession ref).Expired now)
      (hlen : received - sizeofTransport - wgAeadTagLen ≠ 0)
      (hopen : openTransport P (tun.getSession ref) buffer received = none) :
      TransportCase tun buffer received slot now (tun, [])
  | replayed (ref : SessionRef)
      (plaintext : ByteVec (received - sizeofTransport - wgAeadTagLen))
      (hselect : selectSession tun (getU32 buffer 4) = some ref)
      (hfresh : ¬ (tun.getSession ref).Expired now)
      (hlen : received - sizeofTransport - wgAeadTagLen ≠ 0)
      (hopen : openTransport P (tun.getSession ref) buffer received = some plaintext)
      (hverdict :
        (wgCounterValidate (tun.getSession ref).replay (getU64 buffer 8)).1 = false) :
      TransportCase tun buffer received slot now
        (tun.modifySession ref fun s =>
          { s with
            replay :=
              (wgCounterValidate (tun.getSession ref).replay (getU64 buffer 8)).2 }, [])
  | accepted (ref : SessionRef)
      (plaintext : ByteVec (received - sizeofTransport - wgAeadTagLen))
      (hselect : selectSession tun (getU32 buffer 4) = some ref)
      (hfresh : ¬ (tun.getSession ref).Expired now)
      (hlen : received - sizeofTransport - wgAeadTagLen ≠ 0)
      (hopen : openTransport P (tun.getSession ref) buffer received = some plaintext)
      (hverdict :
        (wgCounterValidate (tun.getSession ref).replay (getU64 buffer 8)).1 = true) :
      TransportCase tun buffer received slot now
        (payloadReceived tun ref (wgFindPeerByLocalIndex tun (getU32 buffer 4))
            (wgCounterValidate (tun.getSession ref).replay (getU64 buffer 8)).2
            (getU64 buffer 8) now,
          if tun.recvCb.isSome && slot then
            [.delivered ref (tun.getSession ref) plaintext.toList now]
          else [])

theorem recvTransport_cases (tun : WgTunnel) (buffer : Bytes) (received : Nat)
    (slot : Bool) (now : UInt64) :
    TransportCase P tun buffer received slot now
      (recvTransport P tun buffer received slot now) := by
  unfold recvTransport
  dsimp only
  cases hselect : selectSession tun (getU32 buffer 4) with
  | none => exact .unknown hselect
  | some ref =>
      dsimp only
      split
      · rename_i hexpired
        exact .expired ref hselect hexpired
      · rename_i hfresh
        split
        · rename_i hlen
          exact .empty ref hselect hfresh hlen
        · rename_i hlen
          cases hopen : openTransport P (tun.getSession ref) buffer received with
          | none => exact .badTag ref hselect hfresh hlen hopen
          | some plaintext =>
              dsimp only
              cases hverdict :
                  (wgCounterValidate (tun.getSession ref).replay (getU64 buffer 8)).1 with
              | false => exact .replayed ref plaintext hselect hfresh hlen hopen hverdict
              | true => exact .accepted ref plaintext hselect hfresh hlen hopen hverdict

theorem getSession_wgUpdateEndpointFromRecv (tun : WgTunnel) (ref : SessionRef) :
    (wgUpdateEndpointFromRecv tun).getSession ref = tun.getSession ref := by
  unfold wgUpdateEndpointFromRecv
  split
  · cases ref <;> rfl
  · rfl

theorem sessions_touchPeer {tun tun' : WgTunnel} (receiverIndex : UInt32)
    (hcount : tun'.peers.count = tun.peers.count) {f : WgPeer → WgPeer}
    (hsession : ∀ p, (f p).session = p.session)
    (hprev : ∀ p, (f p).prevSession = p.prevSession) :
    (touchPeer tun' (wgFindPeerByLocalIndex tun receiverIndex) f).getSession =
      tun'.getSession := by
  funext ref
  refine getSession_touchPeer (fun i hfind => ?_) hsession hprev ref
  rw [hcount]
  exact PeerTable.find_lt hfind

theorem sessions_emptyReceived {tun : WgTunnel} {ref : SessionRef} (href : tun.Holds ref)
    (receiverIndex : UInt32) (now : UInt64) :
    (emptyReceived tun ref (wgFindPeerByLocalIndex tun receiverIndex) now).getSession =
      update tun.getSession ref { tun.getSession ref with lastReceived := now } := by
  refine Eq.trans ?_ (sessions_modifySession href fun s => { s with lastReceived := now })
  apply sessions_touchPeer _ (count_modifySession ..)
  · exact fun _ => rfl
  · exact fun _ => rfl

theorem sessions_payloadReceived {tun : WgTunnel} {ref : SessionRef} (href : tun.Holds ref)
    (receiverIndex : UInt32) (replay : WgReplayCounter) (counter now : UInt64) :
    (payloadReceived tun ref (wgFindPeerByLocalIndex tun receiverIndex) replay counter
      now).getSession =
      update tun.getSession ref
        { tun.getSession ref with
          replay := replay
          lastReceived := now
          receivingCounter := counter + 1 } := by
  refine (funext (getSession_wgUpdateEndpointFromRecv _)).trans ?_
  refine Eq.trans ?_ (sessions_modifySession href fun s =>
    { s with replay := replay, lastReceived := now, receivingCounter := counter + 1 })
  apply sessions_touchPeer _ (count_modifySession ..)
  · exact fun _ => rfl
  · exact fun _ => rfl

/-- What a received packet does to the sessions, given what it makes a replay window check:
nothing beyond the bookkeeping of one session, or an expired previous session is dropped. -/
inductive Received (tun : WgTunnel) (check : Option (SessionRef × UInt64)) (tun' : WgTunnel) :
    Prop
  | touched (ref : SessionRef) (sess : WgSession)
      (hsessions : tun'.getSession = update tun.getSession ref sess)
      (hcore : sess.core = (tun.getSession ref).core)
      (hreplay : sess.replay = (tun.getSession ref).replay) (hcheck : check = none)
  | checked (ref : SessionRef) (counter : UInt64) (sess : WgSession)
      (hsessions : tun'.getSession = update tun.getSession ref sess)
      (hcore : sess.core = (tun.getSession ref).core)
      (hreplay : sess.replay = (wgCounterValidate (tun.getSession ref).replay counter).2)
      (hcheck : check = some (ref, counter))
  | dropped (ref : SessionRef) (href : tun.Holds ref) (hdropped : tun' = dropExpired tun ref)
      (hcheck : check = none)

theorem received_of_same {tun tun' : WgTunnel} (h : tun'.SameSessions tun) :
    Received tun none tun' := by
  refine .touched .legacy tun.session ?_ rfl rfl rfl
  rw [funext h.getSession]
  exact (update_eq_self SessionRef.legacy tun.getSession).symm

theorem TransportCase.received {P : Primitives} {tun : WgTunnel} {buffer : Bytes}
    {received : Nat} {slot : Bool} {now : UInt64} {out : WgTunnel × List Event}
    (h : TransportCase P tun buffer received slot now out) :
    Received tun (checkedPacket P tun buffer received now) out.1 := by
  unfold checkedPacket
  cases h with
  | unknown hselect =>
      rw [hselect]
      exact received_of_same ⟨rfl, rfl, rfl⟩
  | expired ref hselect hexpired =>
      simp only [hselect, if_pos hexpired]
      exact .dropped ref (holds_of_selectSession hselect) rfl rfl
  | empty ref hselect hfresh hlen =>
      simp only [hselect, if_neg hfresh, if_pos hlen]
      exact .touched ref _ (sessions_emptyReceived (holds_of_selectSession hselect) _ _) rfl rfl
        rfl
  | badTag ref hselect hfresh hlen hopen =>
      simp only [hselect, if_neg hfresh, if_neg hlen, hopen]
      exact received_of_same ⟨rfl, rfl, rfl⟩
  | replayed ref plaintext hselect hfresh hlen hopen hverdict =>
      simp only [hselect, if_neg hfresh, if_neg hlen, hopen]
      have hsessions := sessions_modifySession (holds_of_selectSession hselect) fun s =>
        { s with
          replay := (wgCounterValidate (tun.getSession ref).replay (getU64 buffer 8)).2 }
      exact .checked ref (getU64 buffer 8) _ hsessions
        (WgSession.core_received (tun.getSession ref) _ _ _) (by dsimp only) rfl
  | accepted ref plaintext hselect hfresh hlen hopen hverdict =>
      simp only [hselect, if_neg hfresh, if_neg hlen, hopen]
      have hsessions := sessions_payloadReceived (holds_of_selectSession hselect)
        (getU32 buffer 4) (wgCounterValidate (tun.getSession ref).replay (getU64 buffer 8)).2
        (getU64 buffer 8) now
      exact .checked ref (getU64 buffer 8) _ hsessions
        (WgSession.core_received (tun.getSession ref) _ _ _) (by dsimp only) rfl

theorem Received.core_sessions {tun tun' : WgTunnel} {check : Option (SessionRef × UInt64)}
    (h : Received tun check tun') :
    (∀ ref, (tun'.getSession ref).core = (tun.getSession ref).core) ∨
      ∃ ref, tun.Holds ref ∧ tun' = dropExpired tun ref := by
  cases h with
  | touched ref sess hsessions hcore => exact .inl (view_kept _ hsessions hcore)
  | checked ref counter sess hsessions hcore => exact .inl (view_kept _ hsessions hcore)
  | dropped ref href hdropped => exact .inr ⟨ref, href, hdropped⟩

/-- The only event of a transport packet is the delivery of its plaintext to the
callback, out of the session that has opened it. -/
theorem TransportCase.events {P : Primitives} {tun : WgTunnel} {buffer : Bytes}
    {received : Nat} {slot : Bool} {now : UInt64} {out : WgTunnel × List Event} {e : Event}
    (h : TransportCase P tun buffer received slot now out) (he : e ∈ out.2) :
    ∃ ref plaintext,
      checkedPacket P tun buffer received now = some (ref, getU64 buffer 8) ∧
      tun.recvCb.isSome = true ∧
      e = .delivered ref (tun.getSession ref) plaintext now := by
  cases h with
  | accepted ref plaintext hselect hfresh hlen hopen hverdict =>
      dsimp only at he
      split at he
      · rename_i hcallback
        refine ⟨ref, plaintext.toList, ?_, (Bool.and_eq_true_iff.mp hcallback).1,
          List.mem_singleton.mp he⟩
        simp only [checkedPacket, hselect, if_neg hfresh, if_neg hlen, hopen]
      · cases he
  | _ => cases he

/-- A RESPONSE goes to the pending rekey, or to the table entry waiting for it. -/
def recvResponse (tun : WgTunnel) (buffer : Bytes) (received : Nat) (now : UInt64) :
    WgTunnel × List Event :=
  if tun.session.rekeyInProgress then
    (if received ≤ 256 then
        { tun with pendingResponse := (field buffer 0 received).toList }
      else tun, [])
  else
    let resp := WgHandshakeResponse.ofBytes buffer
    match tun.peers.find fun p =>
        p.connected && !p.session.valid && p.session.localIndex == resp.receiverIndex with
    | none => (tun, [])
    | some i => (wgHandshakeInitProcessResponse P tun i resp now).2

def recvCookieReply (tun : WgTunnel) (buffer : Bytes) (received : Nat) (now : UInt64) :
    WgTunnel × List Event :=
  if received ≥ sizeofCookieReply then
    ({ (wgProcessCookieReply P tun (WgCookieReply.ofBytes buffer) now).2 with
        pendingCookie := true }, [])
  else (tun, [])

/-- The entry the receive loop sends a keepalive to after a passive handshake:
the first one with a session, whoever sent the INIT. -/
def firstConnected (tun : WgTunnel) : Option Nat :=
  tun.peers.find fun p => p.connected && p.session.valid

def followUp (tun : WgTunnel) (now : UInt64) : WgTunnel × List Event :=
  match firstConnected tun with
  | none => (tun, [])
  | some i => wgSendKeepaliveToPeer P tun i now

def recvInit (tun : WgTunnel) (buffer : Bytes) (received : Nat) (d : RespDraws)
    (now : UInt64) : WgTunnel × List Event :=
  if received ≥ sizeofInit then
    let out := wgHandshakeInitProcess P tun (WgHandshakeInit.ofBytes buffer) d
    if out.1 = .ok then
      let keepalive := followUp P out.2.1 now
      (keepalive.1, out.2.2 ++ keepalive.2)
    else out.2
  else (tun, [])

def recvDatagram (tun : WgTunnel) (buffer : Bytes) (received : Nat) (slot : Bool)
    (d : RespDraws) (now : UInt64) : WgTunnel × List Event :=
  if received < sizeofTransport + wgAeadTagLen then (tun, [])
  else if getType buffer = wgMsgTransport then recvTransport P tun buffer received slot now
  else if getType buffer = wgMsgHandshakeResponse then recvResponse P tun buffer received now
  else if getType buffer = wgMsgCookieReply then recvCookieReply P tun buffer received now
  else if getType buffer = wgMsgHandshakeInit then recvInit P tun buffer received d now
  else (tun, [])

def recvThreadIteration (tun : WgTunnel) (inp : RecvInput) : WgTunnel × List Event :=
  match inp.result with
  | .timeout => (tun, [])
  | .error _ => (tun, [])
  | .datagram buffer received src =>
      recvDatagram P (noteSource tun src) buffer received inp.slot inp.draws inp.now

/-- An INIT that is long enough to be processed. -/
def initIn (buffer : Bytes) (received : Nat) : Option WgHandshakeInit :=
  if getType buffer = wgMsgHandshakeInit ∧ sizeofInit ≤ received then
    some (WgHandshakeInit.ofBytes buffer)
  else none

theorem initIn_eq_none {buffer : Bytes} (received : Nat)
    (h : getType buffer ≠ wgMsgHandshakeInit) : initIn buffer received = none :=
  if_neg fun hinit => h hinit.1

/-- The static key of the sender of a received INIT that is accepted. -/
def receivedKey (tun : WgTunnel) : SocketResult → Option Key
  | .datagram buffer received _ => (initIn buffer received).bind (acceptedKey P tun)
  | _ => none

theorem receivedKey_of_type {tun : WgTunnel} {buffer : Bytes} {received : Nat}
    {src : Option SockAddr} (h : getType buffer ≠ wgMsgHandshakeInit) :
    receivedKey P tun (.datagram buffer received src) = none := by
  simp only [receivedKey, initIn_eq_none received h, Option.bind_none]

theorem acceptedKey_noteSource (tun : WgTunnel) (src : Option SockAddr)
    (msg : WgHandshakeInit) : acceptedKey P (noteSource tun src) msg = acceptedKey P tun msg := by
  cases src <;> rfl

theorem checkedPacket_noteSource (tun : WgTunnel) (src : Option SockAddr) (buffer : Bytes)
    (received : Nat) (now : UInt64) :
    checkedPacket P (noteSource tun src) buffer received now =
      checkedPacket P tun buffer received now := by
  cases src <;> rfl

/-- What one iteration of the receive loop checks against a replay window. -/
def checkedBy (tun : WgTunnel) (inp : RecvInput) : Option (SessionRef × UInt64) :=
  match inp.result with
  | .datagram buffer received _ =>
      if getType buffer = wgMsgTransport ∧ sizeofTransport + wgAeadTagLen ≤ received then
        checkedPacket P tun buffer received inp.now
      else none
  | _ => none

theorem checkedBy_of_type {tun : WgTunnel} {inp : RecvInput} {buffer : Bytes} {received : Nat}
    {src : Option SockAddr} (hresult : inp.result = .datagram buffer received src)
    (htype : getType buffer = wgMsgTransport)
    (hlong : sizeofTransport + wgAeadTagLen ≤ received) :
    checkedBy P tun inp = checkedPacket P tun buffer received inp.now := by
  simp only [checkedBy, hresult]
  exact if_pos ⟨htype, hlong⟩

theorem checkedBy_eq_some {tun : WgTunnel} {inp : RecvInput} {ref : SessionRef}
    {counter : UInt64} (h : checkedBy P tun inp = some (ref, counter)) :
    ∃ receiverIndex, selectSession tun receiverIndex = some ref := by
  unfold checkedBy at h
  split at h
  · rename_i buffer received src hresult
    split at h
    · exact ⟨getU32 buffer 4, (checkedPacket_eq_some P h).1⟩
    · cases h
  · cases h

/-- Where the receive loop takes a datagram, by its type.  An INIT that is too short
is dropped like a datagram of no type. -/
inductive DatagramCase (tun : WgTunnel) (buffer : Bytes) (received : Nat) (slot : Bool)
    (d : RespDraws) (now : UInt64) : WgTunnel × List Event → Prop
  | dropped (hinit : getType buffer = wgMsgHandshakeInit → received < sizeofInit)
      (hother : getType buffer = wgMsgTransport → received < sizeofTransport + wgAeadTagLen) :
      DatagramCase tun buffer received slot d now (tun, [])
  | transport (htype : getType buffer = wgMsgTransport)
      (hlong : sizeofTransport + wgAeadTagLen ≤ received) :
      DatagramCase tun buffer received slot d now (recvTransport P tun buffer received slot now)
  | response (htype : getType buffer = wgMsgHandshakeResponse) :
      DatagramCase tun buffer received slot d now (recvResponse P tun buffer received now)
  | cookie (htype : getType buffer = wgMsgCookieReply) :
      DatagramCase tun buffer received slot d now (recvCookieReply P tun buffer received now)
  | init (htype : getType buffer = wgMsgHandshakeInit) (hlong : sizeofInit ≤ received) :
      DatagramCase tun buffer received slot d now (recvInit P tun buffer received d now)

theorem recvDatagram_cases (tun : WgTunnel) (buffer : Bytes) (received : Nat) (slot : Bool)
    (d : RespDraws) (now : UInt64) :
    DatagramCase P tun buffer received slot d now
      (recvDatagram P tun buffer received slot d now) := by
  unfold recvDatagram
  split
  · rename_i hshort
    refine .dropped (fun _ => ?_) fun _ => hshort
    simp only [sizeofTransport, wgAeadTagLen, sizeofInit] at hshort ⊢
    omega
  · rename_i hlong
    split
    · rename_i htype
      exact .transport htype (Nat.not_lt.mp hlong)
    · rename_i hother
      split
      · rename_i htype
        exact .response htype
      · split
        · rename_i htype
          exact .cookie htype
        · split
          · rename_i htype
            rcases Nat.lt_or_ge received sizeofInit with hshort | hlong
            · unfold recvInit
              rw [if_neg (Nat.not_le.mpr hshort)]
              exact .dropped (fun _ => hshort) fun h => absurd h hother
            · exact .init htype hlong
          · rename_i htype
            exact .dropped (fun h => absurd h htype) fun h => absurd h hother

theorem recvDatagram_response (tun : WgTunnel) {buffer : Bytes} {received : Nat}
    (htype : getType buffer = wgMsgHandshakeResponse) (hlong : sizeofResponse ≤ received)
    (slot : Bool) (d : RespDraws) (now : UInt64) :
    recvDatagram P tun buffer received slot d now = recvResponse P tun buffer received now := by
  have hsize : ¬ received < sizeofTransport + wgAeadTagLen := by
    simp only [sizeofResponse, sizeofTransport, wgAeadTagLen] at hlong ⊢
    omega
  unfold recvDatagram
  rw [if_neg hsize, htype, if_neg (by decide), if_pos rfl]

/-- Everything one iteration of the receive loop can do to the sessions. -/
inductive RecvCase (tun : WgTunnel) (inp : RecvInput) : WgTunnel × List Event → Prop
  | quiet (tun' : WgTunnel) (hsame : tun'.SameSessions tun)
      (hkey : receivedKey P tun inp.result = none) (hcheck : checkedBy P tun inp = none) :
      RecvCase tun inp (tun', [])
  | transport (buffer : Bytes) (received : Nat) (src : Option SockAddr)
      (out : WgTunnel × List Event)
      (hresult : inp.result = .datagram buffer received src)
      (hcase : TransportCase P (noteSource tun src) buffer received inp.slot inp.now out)
      (htype : getType buffer = wgMsgTransport)
      (hlong : sizeofTransport + wgAeadTagLen ≤ received) : RecvCase tun inp out
  | peerResponse (src : Option SockAddr) (i : Nat) (out : WgTunnel × List Event)
      (hi : i < tun.peers.count)
      (hcase : PeerResponseCase (noteSource tun src) i inp.now out)
      (hkey : receivedKey P tun inp.result = none) (hcheck : checkedBy P tun inp = none) :
      RecvCase tun inp out
  | init (src : Option SockAddr) (msg : WgHandshakeInit) (tun₁ : WgTunnel)
      (events : List Event)
      (hcase : InitCase P (noteSource tun src) msg inp.draws (.ok, tun₁, events))
      (hkey : receivedKey P tun inp.result = acceptedKey P tun msg)
      (hcheck : checkedBy P tun inp = none) :
      RecvCase tun inp
        ((followUp P tun₁ inp.now).1, events ++ (followUp P tun₁ inp.now).2)

theorem sameSessions_noteSource (tun : WgTunnel) (src : Option SockAddr) :
    (noteSource tun src).SameSessions tun := by
  cases src <;> exact ⟨rfl, rfl, rfl⟩

theorem recvResponse_cases (tun : WgTunnel) (inp : RecvInput) (src : Option SockAddr)
    (buffer : Bytes) (received : Nat) (hkey : receivedKey P tun inp.result = none)
    (hcheck : checkedBy P tun inp = none) :
    RecvCase P tun inp (recvResponse P (noteSource tun src) buffer received inp.now) := by
  have hnote := sameSessions_noteSource tun src
  unfold recvResponse
  split
  · split
    · exact .quiet _ ⟨hnote.session, hnote.prevSession, hnote.peers⟩ hkey hcheck
    · exact .quiet _ hnote hkey hcheck
  · dsimp only
    split
    · exact .quiet _ hnote hkey hcheck
    · rename_i i hfind
      have hi := PeerTable.find_lt hfind
      rw [hnote.peers] at hi
      exact .peerResponse src i _ hi
        (wgHandshakeInitProcessResponse_cases P _ i _ inp.now) hkey hcheck

theorem recvCookieReply_quiet (tun : WgTunnel) (buffer : Bytes) (received : Nat) (now : UInt64) :
    (recvCookieReply P tun buffer received now).1.SameSessions tun ∧
      (recvCookieReply P tun buffer received now).2 = [] := by
  unfold recvCookieReply
  split
  · have hcookie := sameSessions_wgProcessCookieReply P tun (WgCookieReply.ofBytes buffer) now
    exact ⟨⟨hcookie.session, hcookie.prevSession, hcookie.peers⟩, rfl⟩
  · exact ⟨⟨rfl, rfl, rfl⟩, rfl⟩

theorem recvInit_cases (tun : WgTunnel) (inp : RecvInput) (src : Option SockAddr)
    (buffer : Bytes) {received : Nat} (hlong : sizeofInit ≤ received)
    (hkey : receivedKey P tun inp.result = acceptedKey P tun (WgHandshakeInit.ofBytes buffer))
    (hcheck : checkedBy P tun inp = none) :
    RecvCase P tun inp
      (recvInit P (noteSource tun src) buffer received inp.draws inp.now) := by
  have hnote := sameSessions_noteSource tun src
  have hcase := wgHandshakeInitProcess_cases P (noteSource tun src)
    (WgHandshakeInit.ofBytes buffer) inp.draws
  unfold recvInit
  rw [if_pos hlong]
  rcases hout : wgHandshakeInitProcess P (noteSource tun src)
    (WgHandshakeInit.ofBytes buffer) inp.draws with ⟨err, tun₁, events⟩
  rw [hout] at hcase
  dsimp only
  split
  · rename_i hok
    rw [hok] at hcase
    exact .init src _ tun₁ events hcase hkey hcheck
  · rename_i herr
    cases hcase with
    | rejected _ _ _ hsame hnone =>
        rw [acceptedKey_noteSource] at hnone
        exact .quiet _ (hsame.trans hnote) (hkey.trans hnone) hcheck
    | legacy => exact absurd rfl herr
    | peer => exact absurd rfl herr

theorem recvThreadIteration_cases (tun : WgTunnel) (inp : RecvInput) :
    RecvCase P tun inp (recvThreadIteration P tun inp) := by
  unfold recvThreadIteration
  cases hresult : inp.result with
  | timeout =>
      exact .quiet tun ⟨rfl, rfl, rfl⟩ (by rw [hresult]; rfl) (by simp only [checkedBy, hresult])
  | error err =>
      exact .quiet tun ⟨rfl, rfl, rfl⟩ (by rw [hresult]; rfl) (by simp only [checkedBy, hresult])
  | datagram buffer received src =>
      have hnote := sameSessions_noteSource tun src
      have hkey : getType buffer ≠ wgMsgHandshakeInit → receivedKey P tun inp.result = none := by
        intro htype
        rw [hresult]
        exact receivedKey_of_type P htype
      have hcheck : (getType buffer = wgMsgTransport →
          received < sizeofTransport + wgAeadTagLen) → checkedBy P tun inp = none := by
        intro hother
        simp only [checkedBy, hresult]
        exact if_neg fun h => Nat.not_le.mpr (hother h.1) h.2
      have hcase := recvDatagram_cases P (noteSource tun src) buffer received inp.slot inp.draws
        inp.now
      dsimp only
      generalize recvDatagram P (noteSource tun src) buffer received inp.slot inp.draws inp.now =
        out at hcase ⊢
      cases hcase with
      | dropped hinit hother =>
          refine .quiet _ hnote ?_ (hcheck hother)
          have hnone : initIn buffer received = none :=
            if_neg fun h => Nat.not_le.mpr (hinit h.1) h.2
          simp only [hresult, receivedKey, hnone, Option.bind_none]
      | transport htype hlong =>
          exact .transport buffer received src _ hresult
            (recvTransport_cases P _ buffer received inp.slot inp.now) htype hlong
      | response htype =>
          exact recvResponse_cases P tun inp src buffer received
            (hkey (by rw [htype]; decide)) (hcheck fun h => absurd (htype.symm.trans h) (by decide))
      | cookie htype =>
          obtain ⟨hsame, hquiet⟩ := recvCookieReply_quiet P (noteSource tun src) buffer received
            inp.now
          generalize recvCookieReply P (noteSource tun src) buffer received inp.now = out at *
          obtain ⟨tun', events⟩ := out
          cases hquiet
          exact .quiet _ (hsame.trans hnote) (hkey (by rw [htype]; decide))
            (hcheck fun h => absurd (htype.symm.trans h) (by decide))
      | init htype hlong =>
          have hsome : initIn buffer received = some (.ofBytes buffer) := if_pos ⟨htype, hlong⟩
          refine recvInit_cases P tun inp src buffer hlong ?_
            (hcheck fun h => absurd (htype.symm.trans h) (by decide))
          simp only [hresult, receivedKey, hsome, Option.bind_some]

/-- The part of `wg_recv` that follows its tests of the header and the length. -/
def recvPayload (tun : WgTunnel) (buffer : Bytes) (received : Nat) (now : UInt64) :
    Except WgError Bytes × WgTunnel × List Event :=
  if received - sizeofTransport - wgAeadTagLen = 0 then
    (.ok [], { tun with session := { tun.session with lastReceived := now } }, [])
  else
    match openTransport P tun.session buffer received with
    | none => (.error .decrypt, tun, [])
    | some plaintext =>
        let counter := getU64 buffer 8
        let verdict := wgCounterValidate tun.session.replay counter
        if !verdict.1 then
          (.error .decrypt,
            { tun with session := { tun.session with replay := verdict.2 } }, [])
        else
          (.ok plaintext.toList,
            { tun with
              session :=
                { tun.session with
                  replay := verdict.2
                  lastReceived := now
                  receivingCounter := counter + 1 } },
            [.delivered .legacy tun.session plaintext.toList now])

/-- `wg_recv` returns the plaintext it has written to the caller's buffer. -/
def wgRecv (tun : WgTunnel) (result : SocketResult) (len : Nat) (now : UInt64) :
    Except WgError Bytes × WgTunnel × List Event :=
  if !tun.session.valid then (.error .notConnected, tun, [])
  else
    match result with
    | .timeout => (.error .timeout, tun, [])
    | .error err => (.error err, tun, [])
    | .datagram buffer received src =>
        let tun := noteSource tun src
        if received < sizeofTransport + wgAeadTagLen then (.error .decrypt, tun, [])
        else if getType buffer ≠ wgMsgTransport then (.error .decrypt, tun, [])
        else if getU32 buffer 4 ≠ tun.session.localIndex then (.error .decrypt, tun, [])
        else if received - sizeofTransport - wgAeadTagLen > len then
          (.error .bufferTooSmall, tun, [])
        else recvPayload P tun buffer received now

/-- The counter of a packet that `wg_recv` opens and checks against the replay window. -/
def polledCounter (tun : WgTunnel) (len : Nat) : SocketResult → Option UInt64
  | .datagram buffer received _ =>
      if tun.session.valid = true ∧ sizeofTransport + wgAeadTagLen < received ∧
          getType buffer = wgMsgTransport ∧ getU32 buffer 4 = tun.session.localIndex ∧
          received - sizeofTransport - wgAeadTagLen ≤ len ∧
          (openTransport P tun.session buffer received).isSome = true then
        some (getU64 buffer 8)
      else none
  | _ => none

/-- Everything `wg_recv` can do; `tun₁` is the tunnel with the source of the datagram. -/
inductive PollCase (tun : WgTunnel) (result : SocketResult) (len : Nat) (now : UInt64) :
    Except WgError Bytes × WgTunnel × List Event → Prop
  | refused (err : WgError) (tun₁ : WgTunnel) (hsame : tun₁.SameSessions tun)
      (hnone : polledCounter P tun len result = none) :
      PollCase tun result len now (.error err, tun₁, [])
  | empty (tun₁ : WgTunnel) (hsame : tun₁.SameSessions tun)
      (hnone : polledCounter P tun len result = none) :
      PollCase tun result len now
        (.ok [], { tun₁ with session := { tun₁.session with lastReceived := now } }, [])
  | replayed (tun₁ : WgTunnel) (hsame : tun₁.SameSessions tun) (counter : UInt64)
      (hcounter : polledCounter P tun len result = some counter)
      (hverdict : (wgCounterValidate tun₁.session.replay counter).1 = false) :
      PollCase tun result len now
        (.error .decrypt,
          { tun₁ with
            session :=
              { tun₁.session with
                replay := (wgCounterValidate tun₁.session.replay counter).2 } }, [])
  | accepted (tun₁ : WgTunnel) (hsame : tun₁.SameSessions tun) (counter : UInt64)
      (plaintext : Bytes) (hplaintext : plaintext ≠ [])
      (hcounter : polledCounter P tun len result = some counter)
      (hverdict : (wgCounterValidate tun₁.session.replay counter).1 = true) :
      PollCase tun result len now
        (.ok plaintext,
          { tun₁ with
            session :=
              { tun₁.session with
                replay := (wgCounterValidate tun₁.session.replay counter).2
                lastReceived := now
                receivingCounter := counter + 1 } },
          [.delivered .legacy tun.session plaintext now])

theorem recvPayload_cases {tun tun₁ : WgTunnel} (hsame : tun₁.SameSessions tun)
    {buffer : Bytes} {received len : Nat} {src : Option SockAddr} (now : UInt64)
    (hvalid : tun.session.valid = true) (hlong : sizeofTransport + wgAeadTagLen ≤ received)
    (htype : getType buffer = wgMsgTransport)
    (hindex : getU32 buffer 4 = tun.session.localIndex)
    (hlen : received - sizeofTransport - wgAeadTagLen ≤ len) :
    PollCase P tun (.datagram buffer received src) len now
      (recvPayload P tun₁ buffer received now) := by
  have hsession := hsame.session
  unfold recvPayload
  split
  · rename_i hzero
    refine .empty tun₁ hsame (if_neg fun h => ?_)
    omega
  · rename_i hnonzero
    rw [hsession]
    split
    · rename_i hopen
      refine .refused _ tun₁ hsame (if_neg fun h => ?_)
      simp [hopen] at h
    · rename_i plaintext hopen
      have hcounter : polledCounter P tun len (.datagram buffer received src) =
          some (getU64 buffer 8) :=
        if_pos ⟨hvalid, by omega, htype, hindex, hlen, by rw [hopen]; rfl⟩
      dsimp only
      rw [← hsession]
      split
      · rename_i hverdict
        exact .replayed tun₁ hsame _ hcounter (by simpa using hverdict)
      · rename_i hverdict
        have hplaintext : plaintext.toList ≠ [] := by
          intro hnil
          apply hnonzero
          simpa using congrArg List.length hnil
        have hcase : PollCase P tun (.datagram buffer received src) len now _ :=
          .accepted tun₁ hsame _ _ hplaintext hcounter (by simpa using hverdict)
        rwa [← hsession] at hcase

theorem wgRecv_cases (tun : WgTunnel) (result : SocketResult) (len : Nat) (now : UInt64) :
    PollCase P tun result len now (wgRecv P tun result len now) := by
  unfold wgRecv
  split
  · rename_i hinvalid
    refine .refused _ tun ⟨rfl, rfl, rfl⟩ ?_
    cases result with
    | datagram buffer received src => exact if_neg fun h => by simp [h.1] at hinvalid
    | _ => rfl
  · rename_i hvalid
    split
    · exact .refused _ tun ⟨rfl, rfl, rfl⟩ rfl
    · exact .refused _ tun ⟨rfl, rfl, rfl⟩ rfl
    · rename_i buffer received src
      have hsame := sameSessions_noteSource tun src
      dsimp only
      split
      · rename_i hshort
        refine .refused _ _ hsame (if_neg fun h => ?_)
        omega
      · rename_i hlong
        split
        · rename_i htype
          exact .refused _ _ hsame (if_neg fun h => htype h.2.2.1)
        · rename_i htype
          rw [hsame.session]
          split
          · rename_i hindex
            exact .refused _ _ hsame (if_neg fun h => hindex h.2.2.2.1)
          · rename_i hindex
            split
            · rename_i hlen
              refine .refused _ _ hsame (if_neg fun h => ?_)
              omega
            · rename_i hlen
              exact recvPayload_cases P hsame now (by simpa using hvalid) (Nat.not_lt.mp hlong)
                (not_not.mp htype) (not_not.mp hindex) (Nat.not_lt.mp hlen)

theorem PollCase.received {P : Primitives} {tun : WgTunnel} {result : SocketResult} {len : Nat}
    {now : UInt64} {out : Except WgError Bytes × WgTunnel × List Event}
    (h : PollCase P tun result len now out) :
    Received tun ((polledCounter P tun len result).map fun counter => (.legacy, counter))
      out.2.1 := by
  have hlegacy : ∀ {tun₁ : WgTunnel}, tun₁.SameSessions tun → ∀ sess,
      WgTunnel.getSession { tun₁ with session := sess } = update tun.getSession .legacy sess := by
    intro tun₁ hsame sess
    rw [← funext hsame.getSession]
    funext ref
    cases ref <;> rfl
  cases h with
  | refused err tun₁ hsame hnone =>
      rw [hnone]
      exact received_of_same hsame
  | empty tun₁ hsame hnone =>
      rw [hnone]
      refine .touched .legacy _ (hlegacy hsame _) ?_ ?_ rfl
      · rw [hsame.session]
        rfl
      · rw [hsame.session]
        rfl
  | replayed tun₁ hsame counter hcounter hverdict =>
      rw [hcounter]
      refine .checked .legacy counter _ (hlegacy hsame _) ?_ ?_ rfl
      · rw [hsame.session]
        rfl
      · rw [hsame.session]
        rfl
  | accepted tun₁ hsame counter plaintext hplaintext hcounter hverdict =>
      rw [hcounter]
      refine .checked .legacy counter _ (hlegacy hsame _) ?_ ?_ rfl
      · rw [hsame.session]
        rfl
      · rw [hsame.session]
        rfl

/-- `wg_recv` returns a plaintext out of the legacy session, whatever its age. -/
theorem wgRecv_events (tun : WgTunnel) (result : SocketResult) (len : Nat) (now : UInt64) :
    ((∀ plaintext, (wgRecv P tun result len now).1 = .ok plaintext → plaintext = []) ∧
        (wgRecv P tun result len now).2.2 = []) ∨
      ∃ plaintext, plaintext ≠ [] ∧ (wgRecv P tun result len now).1 = .ok plaintext ∧
        (wgRecv P tun result len now).2.2 =
          [.delivered .legacy tun.session plaintext now] := by
  have hcase := wgRecv_cases P tun result len now
  generalize wgRecv P tun result len now = out at hcase ⊢
  cases hcase with
  | refused err tun₁ hsame hnone => exact .inl (by simp)
  | empty tun₁ hsame hnone => exact .inl (by simp)
  | replayed tun₁ hsame counter hcounter hverdict => exact .inl (by simp)
  | accepted tun₁ hsame counter plaintext hplaintext hcounter hverdict =>
      exact .inr ⟨plaintext, hplaintext, rfl, rfl⟩

end Receivers

section KeepaliveThread

variable (P : Primitives)

/-- Whether a pass owes a table entry a keepalive. -/
def keepaliveDue (tun : WgTunnel) (peer : WgPeer) (now : UInt64) : Bool :=
  (decide (0 < peer.session.lastReceived) &&
      decide (wgKeepaliveTimeoutNs ≤ now - peer.lastSent)) ||
    (decide (0 < tun.keepaliveInterval) &&
      decide (tun.keepaliveInterval.toUInt64 * 1000000000 ≤ now - peer.lastSent))

/-- One turn of the loop over the table: `now` was read at the start of the
pass, `clock` is the reading taken by a send. -/
def keepalivePeer (tun : WgTunnel) (i : Nat) (now clock : UInt64) :
    WgTunnel × List Event :=
  let peer := tun.peers.get i
  if !peer.configured then (tun, [])
  else if peer.session.valid ∧ wgZeroKeyTimeoutNs ≤ now - peer.session.lastHandshake then
    ({ tun with
        peers := tun.peers.modify i fun p =>
          { p with session := .zeroed, prevSession := .zeroed, connected := false } },
      [.wiped (.peer i)])
  else if !peer.session.valid then (tun, [])
  else if keepaliveDue tun peer now then wgSendKeepaliveToPeer P tun i clock
  else (tun, [])

theorem count_keepalivePeer {P : Primitives} {tun : WgTunnel} (i : Nat)
    (now clock : UInt64) :
    (keepalivePeer P tun i now clock).1.peers.count = tun.peers.count := by
  unfold keepalivePeer
  dsimp only
  split
  · rfl
  · split
    · exact PeerTable.count_modify ..
    · split
      · rfl
      · split
        · exact PeerTable.count_modify ..
        · rfl

def keepalivePeers (now : UInt64) (clock : Nat → UInt64) :
    List Nat → WgTunnel → WgTunnel × List Event
  | [], tun => (tun, [])
  | i :: rest, tun =>
      let turn := keepalivePeer P tun i now (clock i)
      let later := keepalivePeers now clock rest turn.1
      (later.1, turn.2 ++ later.2)

def keepaliveLegacy (tun : WgTunnel) (now : UInt64) : WgTunnel × List Event :=
  if tun.session.valid ∧ wgZeroKeyTimeoutNs ≤ now - tun.session.lastHandshake then
    ({ tun with session := .zeroed, prevSession := .zeroed }, [.wiped .legacy])
  else (tun, [])

def keepalivePass (tun : WgTunnel) (now : UInt64) (clock : Nat → UInt64) :
    WgTunnel × List Event :=
  let peers := keepalivePeers P now clock (List.range tun.peers.count) tun
  let legacy := keepaliveLegacy peers.1 now
  (legacy.1, peers.2 ++ legacy.2)

end KeepaliveThread

end WgNx.TransportReceive
