import Mathlib.Logic.Function.Basic
import WgNx.ReplayCounter
import WgNx.WireMessages

/-!
The records behind a `WgTunnel` handle, and the observable and ghost events of
the operations on it.

The peer array and `peer_count` become a bounded list of the entries in use, and
a `WgPeer*` an index into it.  Canaries, the mutexes, the send buffer and the
thread handles carry no information that any modelled function reads back.
`zeroed` values are what `calloc`, `memset` and `crypto_wipe` leave.
-/

namespace WgNx.TunnelState

open WgNx.ByteLayout
open WgNx.ReplayCounter
open WgNx.WireMessages

inductive WgError
  | ok
  | invalidConfig
  | socket
  | handshake
  | timeout
  | decrypt
  | notConnected
  | bufferTooSmall
  | thread
  | alreadyRunning
  deriving DecidableEq

def wgMaxPeers : Nat := 64
def wgMaxPacketSize : Nat := 2048
def wgMaxTimerHandshakes : Nat := 18

/-- The timing constants of `wg_internal.h`, in the nanoseconds of the clock. -/
def wgRejectAfterTimeNs : UInt64 := 180 * 1000000000
def wgZeroKeyTimeoutNs : UInt64 := 180 * 3 * 1000000000
def wgKeepaliveTimeoutNs : UInt64 := 10 * 1000000000
def wgCookieSecretMaxAgeNs : UInt64 := 120 * 1000000000

def zeroKey : Key := Vector.replicate 32 0
def zeroMac : Mac := Vector.replicate 16 0

structure WgHandshakeState where
  hash : Hash
  chainingKey : Hash
  ephemeralPrivate : Key
  deriving DecidableEq

def WgHandshakeState.zeroed : WgHandshakeState := ⟨zeroKey, zeroKey, zeroKey⟩

structure WgSession where
  sendingKey : Key
  receivingKey : Key
  sendingCounter : UInt64
  receivingCounter : UInt64
  localIndex : UInt32
  oldLocalIndex : UInt32
  remoteIndex : UInt32
  lastHandshake : UInt64
  lastReceived : UInt64
  valid : Bool
  rekeyInProgress : Bool
  replay : WgReplayCounter
  deriving DecidableEq

def WgSession.zeroed : WgSession where
  sendingKey := zeroKey
  receivingKey := zeroKey
  sendingCounter := 0
  receivingCounter := 0
  localIndex := 0
  oldLocalIndex := 0
  remoteIndex := 0
  lastHandshake := 0
  lastReceived := 0
  valid := false
  rekeyInProgress := false
  replay := ReplayCounter.zeroed

/-- The unsigned age test on a session, as the receive loop computes it. -/
def WgSession.Expired (sess : WgSession) (now : UInt64) : Prop :=
  wgRejectAfterTimeNs ≤ now - sess.lastHandshake

instance (sess : WgSession) (now : UInt64) : Decidable (sess.Expired now) :=
  inferInstanceAs (Decidable (_ ≤ _))

structure WgPeer where
  publicKey : Key
  relayHash : ByteVec 36
  ipRaw : UInt32
  session : WgSession
  prevSession : WgSession
  pendingHs : WgHandshakeState
  hsPending : Bool
  configured : Bool
  connected : Bool
  lastSent : UInt64
  lastMac1 : Mac
  deriving DecidableEq

def WgPeer.zeroed : WgPeer where
  publicKey := zeroKey
  relayHash := Vector.replicate 36 0
  ipRaw := 0
  session := .zeroed
  prevSession := .zeroed
  pendingHs := .zeroed
  hsPending := false
  configured := false
  connected := false
  lastSent := 0
  lastMac1 := zeroMac

/-- `peers[0 .. peer_count)`. -/
structure PeerTable where
  entries : List WgPeer
  bounded : entries.length ≤ wgMaxPeers
  deriving DecidableEq

namespace PeerTable

def empty : PeerTable := ⟨[], by decide⟩

def count (t : PeerTable) : Nat := t.entries.length

def get (t : PeerTable) (i : Nat) : WgPeer := t.entries.getD i .zeroed

/-- Write through a `WgPeer*`. -/
def modify (t : PeerTable) (i : Nat) (f : WgPeer → WgPeer) : PeerTable :=
  ⟨t.entries.modify i f, by simpa using t.bounded⟩

/-- The first entry a scan of the table stops at. -/
def find (t : PeerTable) (q : WgPeer → Bool) : Option Nat :=
  t.entries.findIdx? q

def push (t : PeerTable) (p : WgPeer) : PeerTable :=
  if h : t.count < wgMaxPeers then
    ⟨t.entries ++ [p], by simpa [count] using Nat.succ_le_of_lt h⟩
  else t

@[simp] theorem count_modify (t : PeerTable) (i : Nat) (f : WgPeer → WgPeer) :
    (t.modify i f).count = t.count := by
  simp [count, modify]

theorem get_modify (t : PeerTable) (i j : Nat) (f : WgPeer → WgPeer)
    (hi : i < t.count) :
    (t.modify i f).get j = if i = j then f (t.get j) else t.get j := by
  simp only [get, modify, List.getD_eq_getElem?_getD, List.getElem?_modify]
  by_cases h : i = j
  · subst h
    have hi' : i < t.entries.length := hi
    simp [List.getElem?_eq_getElem hi']
  · simp [h]

theorem modify_eq_self {t : PeerTable} {i : Nat} {f : WgPeer → WgPeer}
    (h : f (t.get i) = t.get i) : t.modify i f = t := by
  have hentries : t.entries.modify i f = t.entries := by
    apply List.ext_getElem?
    intro j
    rw [List.getElem?_modify]
    rcases eq_or_ne i j with rfl | hne
    · cases hget : t.entries[i]? with
      | none => simp
      | some p =>
          have hp : t.get i = p := by simp [get, List.getD_eq_getElem?_getD, hget]
          rw [hp] at h
          simp [h]
    · simp [hne]
  cases t
  simp only [modify, mk.injEq]
  exact hentries

theorem find_lt {t : PeerTable} {q : WgPeer → Bool} {i : Nat}
    (h : t.find q = some i) : i < t.count := by
  exact (List.findIdx?_eq_some_iff_findIdx_eq.mp h).1

theorem find_get {t : PeerTable} {q : WgPeer → Bool} {i : Nat}
    (h : t.find q = some i) : q (t.get i) = true := by
  obtain ⟨hi, hq, -⟩ := List.findIdx?_eq_some_iff_getElem.mp h
  simpa [get, List.getD_eq_getElem?_getD, List.getElem?_eq_getElem hi] using hq

theorem get_eq_getElem {t : PeerTable} {i : Nat} (hi : i < t.entries.length) :
    t.get i = t.entries[i] := by
  simp [get, List.getD_eq_getElem?_getD, hi]

theorem find_eq_some_iff {t : PeerTable} {q : WgPeer → Bool} {i : Nat} :
    t.find q = some i ↔
      i < t.count ∧ q (t.get i) = true ∧ ∀ j < i, q (t.get j) = false := by
  unfold find count
  rw [List.findIdx?_eq_some_iff_getElem]
  constructor
  · rintro ⟨hi, hq, hfirst⟩
    refine ⟨hi, ?_, ?_⟩
    · rw [get_eq_getElem hi]
      exact hq
    · intro j hj
      rw [get_eq_getElem (hj.trans hi)]
      exact Bool.not_eq_true _ ▸ hfirst j hj
  · rintro ⟨hi, hq, hfirst⟩
    refine ⟨hi, ?_, ?_⟩
    · rw [get_eq_getElem hi] at hq
      exact hq
    · intro j hj
      have hnot := hfirst j hj
      rw [get_eq_getElem (hj.trans hi)] at hnot
      simp [hnot]

theorem find_congr {t t' : PeerTable} {q : WgPeer → Bool} (hcount : t'.count = t.count)
    (h : ∀ i, q (t'.get i) = q (t.get i)) : t'.find q = t.find q := by
  apply Option.ext
  intro i
  rw [find_eq_some_iff, find_eq_some_iff, hcount, h i]
  simp only [h]

theorem find_isSome_iff {t : PeerTable} {q : WgPeer → Bool} :
    (t.find q).isSome = true ↔ ∃ i < t.count, q (t.get i) = true := by
  unfold find count
  rw [List.findIdx?_isSome, List.any_eq_true]
  constructor
  · rintro ⟨p, hmem, hq⟩
    obtain ⟨i, hi, rfl⟩ := List.getElem_of_mem hmem
    refine ⟨i, hi, ?_⟩
    rw [get_eq_getElem hi]
    exact hq
  · rintro ⟨i, hi, hq⟩
    rw [get_eq_getElem hi] at hq
    exact ⟨_, List.getElem_mem hi, hq⟩

theorem find_eq_none {t : PeerTable} {q : WgPeer → Bool} (h : t.find q = none) {i : Nat}
    (hi : i < t.count) : q (t.get i) = false := by
  by_contra hq
  have hsome : (t.find q).isSome = true :=
    find_isSome_iff.mpr ⟨i, hi, by simpa using hq⟩
  rw [h] at hsome
  cases hsome

/-- The first entry with a property, after entry `i` has got it. -/
theorem find_modify {t : PeerTable} {q : WgPeer → Bool} {i : Nat} (hi : i < t.count)
    {f : WgPeer → WgPeer} (hq : q (f (t.get i)) = true) :
    (t.modify i f).find q = some ((t.find q).elim i (min i)) := by
  have hown : q ((t.modify i f).get i) = true := by
    rw [get_modify _ _ _ _ hi, if_pos rfl]
    exact hq
  have hother : ∀ j, j ≠ i → (t.modify i f).get j = t.get j := by
    intro j hne
    rw [get_modify _ _ _ _ hi, if_neg hne.symm]
  rw [find_eq_some_iff, count_modify]
  cases hfind : t.find q with
  | none =>
      refine ⟨hi, hown, fun j hj => ?_⟩
      change j < i at hj
      rw [hother j (Nat.ne_of_lt hj)]
      exact find_eq_none hfind (hj.trans hi)
  | some k =>
      obtain ⟨hk, hqk, hfirst⟩ := find_eq_some_iff.mp hfind
      change min i k < t.count ∧ q ((t.modify i f).get (min i k)) = true ∧
        ∀ j < min i k, q ((t.modify i f).get j) = false
      refine ⟨by omega, ?_, fun j hj => ?_⟩
      · rcases Nat.lt_or_ge k i with hlt | hge
        · rw [Nat.min_eq_right hlt.le, hother k (Nat.ne_of_lt hlt)]
          exact hqk
        · rw [Nat.min_eq_left hge]
          exact hown
      · rw [hother j (by omega)]
        exact hfirst j (by omega)

end PeerTable

structure SockAddr where
  addr : UInt32
  port : UInt16
  deriving DecidableEq

structure WgTunnel where
  staticPrivate : Key
  staticPublic : Key
  peerPublic : Key
  presharedKey : Key
  hasPsk : Bool
  tunnelIp : UInt32
  endpoint : SockAddr
  keepaliveInterval : UInt16
  socketFd : Int
  session : WgSession
  prevSession : WgSession
  peers : PeerTable
  cookie : Mac
  hasCookie : Bool
  cookieTimestamp : UInt64
  lastMac1 : Mac
  recvCb : Option Nat
  recvCbUser : Nat
  running : Bool
  lastSent : UInt64
  pendingResponse : Bytes
  pendingCookie : Bool
  recvSrc : SockAddr
  recvSrcValid : Bool
  deriving DecidableEq

/-- The preshared key that enters a transcript; zero when none is set. -/
def WgTunnel.psk (tun : WgTunnel) : Key :=
  if tun.hasPsk then tun.presharedKey else zeroKey

/-- Where a datagram goes: the tunnel endpoint, or a peer through the relay. -/
inductive Destination
  | endpoint
  | relay (hash : ByteVec 36)
  deriving DecidableEq

/-- One of the session records a tunnel holds. -/
inductive SessionRef
  | legacy
  | legacyPrev
  | peer (i : Nat)
  | peerPrev (i : Nat)
  deriving DecidableEq

/-- What an operation does besides changing the tunnel.  `sent` and `delivered`
can be observed; the others record, for the statements, which index was drawn,
which session a handshake installed, which session (as it stood) a transport
packet was encrypted under, and which session was wiped. -/
inductive Event
  | drawn (index : UInt32)
  | sent (dest : Destination) (datagram : Bytes)
  | established (ref : SessionRef) (sess : WgSession)
  | sealed (ref : SessionRef) (sess : WgSession) (now : UInt64)
  | wiped (ref : SessionRef)
  | delivered (ref : SessionRef) (sess : WgSession) (plaintext : Bytes) (now : UInt64)
  deriving DecidableEq

def drawnIndices (events : List Event) : List UInt32 :=
  events.filterMap fun
    | .drawn index => some index
    | _ => none

def datagrams (events : List Event) : List Bytes :=
  events.filterMap fun
    | .sent _ datagram => some datagram
    | _ => none

def isLegacyEstablished : Event → Bool
  | .established .legacy _ => true
  | _ => false

/-- A handshake for the legacy session is completed. -/
def establishes (events : List Event) : Bool := events.any isLegacyEstablished

def WgTunnel.getSession (tun : WgTunnel) : SessionRef → WgSession
  | .legacy => tun.session
  | .legacyPrev => tun.prevSession
  | .peer i => (tun.peers.get i).session
  | .peerPrev i => (tun.peers.get i).prevSession

def WgTunnel.modifySession (tun : WgTunnel) (ref : SessionRef)
    (f : WgSession → WgSession) : WgTunnel :=
  match ref with
  | .legacy => { tun with session := f tun.session }
  | .legacyPrev => { tun with prevSession := f tun.prevSession }
  | .peer i => { tun with
      peers := tun.peers.modify i fun p => { p with session := f p.session } }
  | .peerPrev i => { tun with
      peers := tun.peers.modify i fun p => { p with prevSession := f p.prevSession } }

/-- A session without the bookkeeping of received packets. -/
def WgSession.core (sess : WgSession) : WgSession :=
  { sess with receivingCounter := 0, lastReceived := 0, replay := ReplayCounter.zeroed }

theorem WgSession.core_received (sess : WgSession) (replay : WgReplayCounter)
    (lastReceived receivingCounter : UInt64) :
    WgSession.core
      { sess with
        replay := replay
        lastReceived := lastReceived
        receivingCounter := receivingCounter } = sess.core := rfl

/-- A session without its indices and its pending flag. -/
def forgetIndices (sess : WgSession) : WgSession :=
  { sess with localIndex := 0, oldLocalIndex := 0, remoteIndex := 0, rekeyInProgress := false }

/-- Two tunnels hold the same session records. -/
structure WgTunnel.SameSessions (a b : WgTunnel) : Prop where
  session : a.session = b.session
  prevSession : a.prevSession = b.prevSession
  peers : a.peers = b.peers

theorem WgTunnel.SameSessions.trans {a b c : WgTunnel} (h : a.SameSessions b)
    (h' : b.SameSessions c) : a.SameSessions c :=
  ⟨h.session.trans h'.session, h.prevSession.trans h'.prevSession, h.peers.trans h'.peers⟩

theorem WgTunnel.SameSessions.getSession {a b : WgTunnel} (h : a.SameSessions b)
    (ref : SessionRef) : a.getSession ref = b.getSession ref := by
  cases ref with
  | legacy => exact h.session
  | legacyPrev => exact h.prevSession
  | peer i => exact congrArg (fun t : PeerTable => (t.get i).session) h.peers
  | peerPrev i => exact congrArg (fun t : PeerTable => (t.get i).prevSession) h.peers

/-- The record a reference names exists in the tunnel. -/
def WgTunnel.Holds (tun : WgTunnel) : SessionRef → Prop
  | .legacy => True
  | .legacyPrev => True
  | .peer i => i < tun.peers.count
  | .peerPrev i => i < tun.peers.count

theorem getSession_modifySession {tun : WgTunnel} {ref : SessionRef}
    (h : tun.Holds ref) (f : WgSession → WgSession) :
    (tun.modifySession ref f).getSession ref = f (tun.getSession ref) := by
  cases ref with
  | legacy => rfl
  | legacyPrev => rfl
  | peer i => simp [WgTunnel.modifySession, WgTunnel.getSession, PeerTable.get_modify _ _ _ _ h]
  | peerPrev i =>
      simp [WgTunnel.modifySession, WgTunnel.getSession, PeerTable.get_modify _ _ _ _ h]

theorem getSession_modifySession_ne {tun : WgTunnel} {ref ref' : SessionRef}
    (h : tun.Holds ref) (hne : ref' ≠ ref) (f : WgSession → WgSession) :
    (tun.modifySession ref f).getSession ref' = tun.getSession ref' := by
  cases ref <;> cases ref' <;>
    first
    | rfl
    | exact absurd rfl hne
    | (simp only [WgTunnel.modifySession, WgTunnel.getSession,
        PeerTable.get_modify _ _ _ _ h]
       split
       · first
         | rfl
         | (rename_i heq; subst heq; exact absurd rfl hne)
       · rfl)

theorem sessions_modifySession {tun : WgTunnel} {ref : SessionRef} (h : tun.Holds ref)
    (f : WgSession → WgSession) :
    (tun.modifySession ref f).getSession =
      Function.update tun.getSession ref (f (tun.getSession ref)) := by
  funext ref'
  rcases eq_or_ne ref' ref with rfl | hne
  · rw [Function.update_self, getSession_modifySession h]
  · rw [Function.update_of_ne hne, getSession_modifySession_ne h hne]

/-- Writing to a table entry changes its two sessions and no other. -/
theorem sessions_modifyPeer {tun : WgTunnel} {i : Nat} (hi : i < tun.peers.count)
    (f : WgPeer → WgPeer) :
    WgTunnel.getSession { tun with peers := tun.peers.modify i f } =
      Function.update
        (Function.update tun.getSession (.peerPrev i) (f (tun.peers.get i)).prevSession)
        (.peer i) (f (tun.peers.get i)).session := by
  funext ref
  cases ref with
  | legacy => rfl
  | legacyPrev => rfl
  | peer j =>
      simp only [WgTunnel.getSession, PeerTable.get_modify _ _ _ _ hi]
      rcases eq_or_ne i j with rfl | hne
      · simp
      · simp [hne, hne.symm, WgTunnel.getSession]
  | peerPrev j =>
      simp only [WgTunnel.getSession, PeerTable.get_modify _ _ _ _ hi]
      rcases eq_or_ne i j with rfl | hne
      · simp
      · simp [hne, hne.symm, WgTunnel.getSession]

theorem sessions_modifyPeer_session {tun : WgTunnel} {i : Nat} (hi : i < tun.peers.count)
    {f : WgPeer → WgPeer}
    (hprev : (f (tun.peers.get i)).prevSession = (tun.peers.get i).prevSession) :
    WgTunnel.getSession { tun with peers := tun.peers.modify i f } =
      Function.update tun.getSession (.peer i) (f (tun.peers.get i)).session := by
  rw [sessions_modifyPeer hi, hprev]
  congr 1
  exact Function.update_eq_self (SessionRef.peerPrev i) tun.getSession

theorem sessions_session (tun : WgTunnel) (session : WgSession) :
    WgTunnel.getSession { tun with session := session } =
      Function.update tun.getSession .legacy session := by
  funext ref
  cases ref <;> rfl

theorem sessions_legacy (tun : WgTunnel) (session prevSession : WgSession) :
    WgTunnel.getSession { tun with session := session, prevSession := prevSession } =
      Function.update (Function.update tun.getSession .legacyPrev prevSession) .legacy
        session := by
  funext ref
  cases ref <;> rfl

section Views

variable {β : Type*} (f : WgSession → β) {tun tun' : WgTunnel}

theorem view_of_update {ref : SessionRef} {sess : WgSession}
    (h : tun'.getSession = Function.update tun.getSession ref sess) :
    f ∘ tun'.getSession = Function.update (f ∘ tun.getSession) ref (f sess) := by
  rw [h, Function.comp_update]

theorem view_of_update₂ {prev ref : SessionRef} {kept sess : WgSession}
    (h : tun'.getSession =
      Function.update (Function.update tun.getSession prev kept) ref sess) :
    f ∘ tun'.getSession =
      Function.update (Function.update (f ∘ tun.getSession) prev (f kept)) ref (f sess) := by
  rw [h, Function.comp_update, Function.comp_update]

theorem view_kept {ref : SessionRef} {sess : WgSession}
    (h : tun'.getSession = Function.update tun.getSession ref sess)
    (hkept : f sess = f (tun.getSession ref)) (ref' : SessionRef) :
    f (tun'.getSession ref') = f (tun.getSession ref') := by
  rw [h]
  rcases eq_or_ne ref' ref with rfl | hne
  · rw [Function.update_self, hkept]
  · rw [Function.update_of_ne hne]

/-- Fields that are not bookkeeping of received packets can be read off the core. -/
theorem eq_of_core {a b : WgSession} (h : a.core = b.core)
    (hf : ∀ s : WgSession, f s.core = f s) : f a = f b := by
  rw [← hf a, h, hf]

end Views

theorem count_modifySession (tun : WgTunnel) (ref : SessionRef)
    (f : WgSession → WgSession) :
    (tun.modifySession ref f).peers.count = tun.peers.count := by
  cases ref <;> simp [WgTunnel.modifySession]

/-- Writing to fields of a table entry other than its sessions. -/
theorem getSession_modifyPeer {tun : WgTunnel} {i : Nat} {f : WgPeer → WgPeer}
    (hi : i < tun.peers.count) (hsession : ∀ p, (f p).session = p.session)
    (hprev : ∀ p, (f p).prevSession = p.prevSession) (ref : SessionRef) :
    WgTunnel.getSession { tun with peers := tun.peers.modify i f } ref =
      tun.getSession ref := by
  cases ref with
  | legacy => rfl
  | legacyPrev => rfl
  | peer j =>
      simp only [WgTunnel.getSession, PeerTable.get_modify _ _ _ _ hi]
      split
      · exact hsession _
      · rfl
  | peerPrev j =>
      simp only [WgTunnel.getSession, PeerTable.get_modify _ _ _ _ hi]
      split
      · exact hprev _
      · rfl

theorem modifySession_eq_self {tun : WgTunnel} {ref : SessionRef}
    {f : WgSession → WgSession} (h : f (tun.getSession ref) = tun.getSession ref) :
    tun.modifySession ref f = tun := by
  cases ref with
  | legacy =>
      change { tun with session := f tun.session } = tun
      rw [show f tun.session = tun.session from h]
  | legacyPrev =>
      change { tun with prevSession := f tun.prevSession } = tun
      rw [show f tun.prevSession = tun.prevSession from h]
  | peer i =>
      change { tun with peers := tun.peers.modify i _ } = tun
      rw [PeerTable.modify_eq_self]
      change { tun.peers.get i with session := f (tun.peers.get i).session } = _
      rw [show f (tun.peers.get i).session = _ from h]
      rfl
  | peerPrev i =>
      change { tun with peers := tun.peers.modify i _ } = tun
      rw [PeerTable.modify_eq_self]
      change { tun.peers.get i with prevSession := f (tun.peers.get i).prevSession } = _
      rw [show f (tun.peers.get i).prevSession = _ from h]
      rfl

end WgNx.TunnelState
