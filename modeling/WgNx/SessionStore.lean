import Mathlib.Logic.Function.Basic
import WgNx.EndpointMachine

/-!
The sessions of a tunnel as an abstract store, and that the machine refines it.

The store maps every session reference to a session without its bookkeeping of
received packets.  Five kinds of store steps are enough to describe what any
action does to the sessions: sealing a packet, moving indices, installing a
session, dropping a previous session and wiping keys.  Facts about
keys and counters over whole runs are proved on these steps.
-/

namespace WgNx.SessionStore

open WgNx.ByteLayout
open WgNx.CryptoPrimitives
open WgNx.EndpointMachine
open WgNx.NoiseHandshake
open WgNx.OutputMachine
open WgNx.SessionCalls
open WgNx.TransportReceive
open WgNx.TransportSend
open WgNx.TunnelSetup
open WgNx.TunnelState
open WgNx.WireMessages
open Function

abbrev Store : Type := SessionRef → WgSession

def storeOf (tun : WgTunnel) : Store := fun ref => (tun.getSession ref).core

/-- The records packets are sealed under. -/
def Sendable : SessionRef → Prop
  | .legacy => True
  | .peer _ => True
  | _ => False

/-- The record that keeps the former session of another one. -/
def prevOf : SessionRef → SessionRef
  | .legacy => .legacyPrev
  | .peer i => .peerPrev i
  | ref => ref

/-- The events that say something about keys; they label the steps. -/
def loud : Event → Bool
  | .established _ _ => true
  | .sealed _ _ _ => true
  | .wiped _ => true
  | _ => false

inductive StoreStep (S : Store) : List Event → Store → Prop
  | sealPacket (ref : SessionRef) (sess : WgSession) (now : UInt64) (href : Sendable ref)
      (hsess : sess.core = S ref) :
      StoreStep S [.sealed ref sess now] (update S ref (bumpCounter (S ref)))
  | reindex (ref : SessionRef) (sess : WgSession) (href : Sendable ref)
      (hsess : forgetIndices sess = forgetIndices (S ref)) :
      StoreStep S [] (update S ref sess)
  | install (ref : SessionRef) (sess kept : WgSession) (href : Sendable ref)
      (hvalid : sess.valid = true) (hcounter : sess.sendingCounter = 0)
      (hkept : kept = S (prevOf ref) ∨
        (S ref).valid = true ∧ forgetIndices kept = forgetIndices (S ref)) :
      StoreStep S [.established ref sess]
        (update (update S (prevOf ref) kept) ref sess.core)
  | dropPrev (ref : SessionRef) (href : Sendable ref) :
      StoreStep S [] (update S (prevOf ref) .zeroed)
  | wipe (ref : SessionRef) (href : Sendable ref) :
      StoreStep S [.wiped ref] (update (update S (prevOf ref) .zeroed) ref .zeroed)

/-- A sequence of store steps between the stores of two tunnels. -/
def Refines (tun : WgTunnel) (out : WgTunnel × List Event) : Prop :=
  Path StoreStep (storeOf tun) (out.2.filter loud) (storeOf out.1)

section Abstraction

theorem storeOf_of_sameSessions {a b : WgTunnel} (h : a.SameSessions b) :
    storeOf a = storeOf b := by
  funext ref
  exact congrArg WgSession.core (h.getSession ref)

theorem storeOf_modifySession {tun : WgTunnel} {ref : SessionRef} (h : tun.Holds ref)
    (f : WgSession → WgSession) :
    storeOf (tun.modifySession ref f) = update (storeOf tun) ref (f (tun.getSession ref)).core :=
  view_of_update WgSession.core (sessions_modifySession h f)

theorem storeOf_modifyPeer {tun : WgTunnel} {i : Nat} (hi : i < tun.peers.count)
    (f : WgPeer → WgPeer) :
    storeOf { tun with peers := tun.peers.modify i f } =
      update (update (storeOf tun) (.peerPrev i) (f (tun.peers.get i)).prevSession.core)
        (.peer i) (f (tun.peers.get i)).session.core :=
  view_of_update₂ WgSession.core (sessions_modifyPeer hi f)

/-- A write that keeps the previous session of the entry. -/
theorem storeOf_modifyPeer_session {tun : WgTunnel} {i : Nat} (hi : i < tun.peers.count)
    {f : WgPeer → WgPeer}
    (hprev : (f (tun.peers.get i)).prevSession = (tun.peers.get i).prevSession) :
    storeOf { tun with peers := tun.peers.modify i f } =
      update (storeOf tun) (.peer i) (f (tun.peers.get i)).session.core :=
  view_of_update WgSession.core (sessions_modifyPeer_session hi hprev)

theorem storeOf_legacy (tun : WgTunnel) (session : WgSession) :
    storeOf { tun with session := session } = update (storeOf tun) .legacy session.core :=
  view_of_update WgSession.core (sessions_session tun session)

theorem storeOf_legacy_prev (tun : WgTunnel) (session prevSession : WgSession) :
    storeOf { tun with session := session, prevSession := prevSession } =
      update (update (storeOf tun) .legacyPrev prevSession.core) .legacy session.core :=
  view_of_update₂ WgSession.core (sessions_legacy tun session prevSession)

theorem storeOf_dropExpired {tun : WgTunnel} {ref : SessionRef} (h : tun.Holds ref) :
    storeOf (dropExpired tun ref) = storeOf tun ∨
      ∃ ref', Sendable ref' ∧
        storeOf (dropExpired tun ref) = update (storeOf tun) (prevOf ref') .zeroed := by
  cases ref with
  | legacy => exact .inl rfl
  | peer i => exact .inl rfl
  | legacyPrev =>
      refine .inr ⟨.legacy, trivial, ?_⟩
      funext ref
      cases ref <;> rfl
  | peerPrev i => exact .inr ⟨.peer i, trivial, storeOf_modifySession h _⟩

/-- A new table entry holds what a scan past the end of the table reads. -/
theorem sessions_wgAddPeer (tun : WgTunnel) (publicKey : Key) (relayHash : ByteVec 36)
    (ipRaw : UInt32) :
    (wgAddPeer tun publicKey relayHash ipRaw).getSession = tun.getSession := by
  have hget : ∀ j,
      ((wgAddPeer tun publicKey relayHash ipRaw).peers.get j).session =
          (tun.peers.get j).session ∧
        ((wgAddPeer tun publicKey relayHash ipRaw).peers.get j).prevSession =
          (tun.peers.get j).prevSession := by
    intro j
    simp only [wgAddPeer, PeerTable.push]
    split
    · simp only [PeerTable.get, List.getD_eq_getElem?_getD, List.getElem?_append]
      split
      · exact ⟨rfl, rfl⟩
      · rename_i hlen
        rw [List.getElem?_eq_none (Nat.not_lt.mp hlen)]
        rcases Nat.eq_zero_or_pos (j - tun.peers.entries.length) with hzero | hpos
        · rw [hzero]
          exact ⟨rfl, rfl⟩
        · rw [List.getElem?_eq_none (by simp; omega)]
          exact ⟨rfl, rfl⟩
    · exact ⟨rfl, rfl⟩
  funext ref
  cases ref with
  | legacy => rfl
  | legacyPrev => rfl
  | peer j => exact (hget j).1
  | peerPrev j => exact (hget j).2

end Abstraction

section Functions

variable {P : Primitives} {tun : WgTunnel}

theorem refines_of_store_eq {out : WgTunnel × List Event}
    (hstore : storeOf out.1 = storeOf tun) (hsilent : out.2.filter loud = []) :
    Refines tun out := by
  unfold Refines
  rw [hstore, hsilent]
  exact .refl _

theorem refines_of_step {out : WgTunnel × List Event} {events : List Event} {S : Store}
    (hstep : StoreStep (storeOf tun) events S) (hstore : storeOf out.1 = S)
    (hevents : out.2.filter loud = events) : Refines tun out := by
  unfold Refines
  rw [hstore, hevents]
  exact .single hstep

theorem Refines.trans {tun₁ : WgTunnel} {events₁ : List Event}
    {out : WgTunnel × List Event} (h₁ : Refines tun (tun₁, events₁))
    (h₂ : Refines tun₁ out) : Refines tun (out.1, events₁ ++ out.2) := by
  unfold Refines
  rw [List.filter_append]
  exact OutputMachine.Path.trans h₁ h₂

theorem Refines.of_sameSessions {a b : WgTunnel} {out : WgTunnel × List Event}
    (h : Refines a out) (hsame : a.SameSessions b) : Refines b out := by
  unfold Refines
  rw [← storeOf_of_sameSessions hsame]
  exact h

theorem refines_beginAttempt (d : InitDraws) :
    Refines tun ((beginAttempt P tun d).1, (beginAttempt P tun d).2.2) := by
  refine refines_of_step (.reindex .legacy
    { tun.session with
      oldLocalIndex := tun.session.localIndex
      localIndex := d.index
      rekeyInProgress := true }.core trivial rfl) ?_ rfl
  funext ref
  cases ref <;> rfl

theorem refines_initPeer {i : Nat} (hi : i < tun.peers.count) (d : InitDraws)
    (dest : Destination) :
    let built := wgHandshakeInitPeer P tun i d
    Refines tun
      ({ built.1 with
          peers := built.1.peers.modify i fun p =>
            { p with pendingHs := built.2.2, hsPending := true } },
        [.drawn d.index, .sent dest built.2.1.toBytes]) := by
  intro built
  refine refines_of_step (.reindex (.peer i)
    { (tun.peers.get i).session with
      oldLocalIndex := (tun.peers.get i).session.localIndex
      localIndex := d.index }.core trivial rfl) ?_ rfl
  have hi' : i < built.1.peers.count := by
    simpa [built, wgHandshakeInitPeer] using hi
  rw [storeOf_modifyPeer_session hi' rfl]
  have hget : (built.1.peers.get i).session =
      { (tun.peers.get i).session with
        oldLocalIndex := (tun.peers.get i).session.localIndex
        localIndex := d.index } := by
    simp [built, wgHandshakeInitPeer, PeerTable.get_modify _ _ _ _ hi]
  have hbuilt : storeOf built.1 = update (storeOf tun) (.peer i)
      { (tun.peers.get i).session with
        oldLocalIndex := (tun.peers.get i).session.localIndex
        localIndex := d.index }.core := by
    exact storeOf_modifyPeer_session hi rfl
  rw [hbuilt, update_idem, hget]

theorem refines_respondLegacy (msg : WgHandshakeInit) (decryptedStatic : Key)
    (response : WgHandshakeResponse) (keys : Hash × Hash) (d : RespDraws) :
    Refines tun (respondLegacy tun msg decryptedStatic response keys d) := by
  refine refines_of_step (.install .legacy
    (respondedSession tun.session keys d msg.senderIndex)
    (if tun.session.valid then tun.session else tun.prevSession).core trivial rfl rfl ?_)
    (storeOf_legacy_prev _ _ _) rfl
  cases hvalid : tun.session.valid with
  | false => exact .inl rfl
  | true => exact .inr ⟨hvalid, rfl⟩

theorem refines_respondPeer {i : Nat} (hi : i < tun.peers.count) (msg : WgHandshakeInit)
    (response : WgHandshakeResponse) (keys : Hash × Hash) (d : RespDraws) :
    Refines tun (respondPeer tun i msg response keys d) := by
  refine refines_of_step (.install (.peer i)
    (respondedSession (tun.peers.get i).session keys d msg.senderIndex)
    (if (tun.peers.get i).session.valid then (tun.peers.get i).session
      else (tun.peers.get i).prevSession).core trivial rfl rfl ?_)
    (storeOf_modifyPeer hi _) rfl
  cases hvalid : (tun.peers.get i).session.valid with
  | false => exact .inl rfl
  | true => exact .inr ⟨hvalid, rfl⟩

theorem refines_initCase {msg : WgHandshakeInit} {d : RespDraws} {err : WgError}
    {out : WgTunnel × List Event} (h : InitCase P tun msg d (err, out)) :
    Refines tun out := by
  cases h with
  | rejected _ tun' herr hsame =>
      exact refines_of_store_eq (storeOf_of_sameSessions hsame) rfl
  | legacy decryptedStatic response keys hfind =>
      exact (refines_respondLegacy msg decryptedStatic response keys d).of_sameSessions
        ⟨rfl, rfl, rfl⟩
  | peer i response keys hi =>
      have hrefines : Refines { tun with lastMac1 := msg.mac1 }
          (respondPeer { tun with lastMac1 := msg.mac1 } i msg response keys d) :=
        refines_respondPeer hi msg response keys d
      exact hrefines.of_sameSessions ⟨rfl, rfl, rfl⟩

theorem refines_responseCase {msg : WgHandshakeResponse} {state : WgHandshakeState}
    {now : UInt64} {err : WgError} {tun' : WgTunnel} {events : List Event}
    (h : ResponseCase P tun msg state now err tun' events) : Refines tun (tun', events) := by
  cases h with
  | refused => exact refines_of_store_eq rfl rfl
  | badTag hindex =>
      exact refines_of_step (.reindex .legacy
        { tun.session with remoteIndex := msg.senderIndex }.core trivial rfl)
        (storeOf_legacy _ _) rfl
  | installed keys sess hindex hsess =>
      subst hsess
      refine refines_of_step (.install .legacy _
        (if tun.session.valid then
            { tun.session with
              remoteIndex := msg.senderIndex
              localIndex := tun.session.oldLocalIndex }
          else tun.prevSession).core trivial rfl rfl ?_) (storeOf_legacy_prev _ _ _) rfl
      cases hvalid : tun.session.valid with
      | false => exact .inl rfl
      | true => exact .inr ⟨hvalid, rfl⟩

theorem refines_peerResponseCase {i : Nat} (hi : i < tun.peers.count) {now : UInt64}
    {out : WgTunnel × List Event} (h : PeerResponseCase tun i now out) :
    Refines tun out := by
  cases h with
  | refused => exact refines_of_store_eq rfl rfl
  | badTag remoteIndex pendingHs =>
      exact refines_of_step (.reindex (.peer i)
        { (tun.peers.get i).session with remoteIndex := remoteIndex }.core trivial rfl)
        (storeOf_modifyPeer_session hi rfl) rfl
  | installed keys remoteIndex sess hsess =>
      subst hsess
      refine refines_of_step (.install (.peer i) _ (tun.peers.get i).prevSession.core trivial
        rfl rfl (.inl rfl)) (storeOf_modifyPeer hi _) rfl

theorem refines_of_received {check : Option (SessionRef × UInt64)}
    {out : WgTunnel × List Event} (h : Received tun check out.1)
    (hsilent : out.2.filter loud = []) : Refines tun out := by
  rcases h.core_sessions with hcore | ⟨ref, href, hdropped⟩
  · exact refines_of_store_eq (funext hcore) hsilent
  · rcases storeOf_dropExpired href with hsame | ⟨ref', href', hdrop⟩
    · exact refines_of_store_eq ((congrArg storeOf hdropped).trans hsame) hsilent
    · exact refines_of_step (.dropPrev ref' href') ((congrArg storeOf hdropped).trans hdrop)
        hsilent

theorem refines_transportCase {buffer : Bytes} {received : Nat} {slot : Bool}
    {now : UInt64} {out : WgTunnel × List Event}
    (h : TransportCase P tun buffer received slot now out) : Refines tun out := by
  have hsilent : out.2.filter loud = [] := by
    rw [List.filter_eq_nil_iff]
    intro e he
    obtain ⟨ref, plaintext, -, -, rfl⟩ := h.events he
    simp [loud]
  exact refines_of_received h.received hsilent

/-- What a sender does: nothing, or one packet sealed and handed to the socket. -/
inductive Seals (tun : WgTunnel) : WgTunnel × List Event → Prop
  | refused : Seals tun (tun, [])
  | one (ref : SessionRef) (now : UInt64) (tun' : WgTunnel) (dest : Destination)
      (datagram : Bytes) (href : Sendable ref)
      (hsessions : tun'.getSession =
        update tun.getSession ref (bumpCounter (tun.getSession ref))) :
      Seals tun (tun', [.sealed ref (tun.getSession ref) now, .sent dest datagram])

theorem refines_of_seals {out : WgTunnel × List Event} (h : Seals tun out) :
    Refines tun out := by
  cases h with
  | refused => exact refines_of_store_eq rfl rfl
  | one ref now tun' dest datagram href hsessions =>
      exact refines_of_step (.sealPacket ref (tun.getSession ref) now href rfl)
        (view_of_update WgSession.core hsessions) rfl

theorem seals_wgSendKeepalive (now : UInt64) : Seals tun (wgSendKeepalive P tun now) :=
  .one .legacy now _ _ _ trivial (sessions_session tun _)

theorem seals_wgSendKeepaliveToPeer {i : Nat} (hi : i < tun.peers.count) (now : UInt64) :
    Seals tun (wgSendKeepaliveToPeer P tun i now) :=
  .one (.peer i) now _ _ _ trivial (sessions_modifyPeer_session hi rfl)

theorem seals_followUp (now : UInt64) : Seals tun (followUp P tun now) := by
  unfold followUp
  split
  · exact .refused
  · rename_i i hfirst
    exact seals_wgSendKeepaliveToPeer (PeerTable.find_lt hfirst) now

theorem seals_wgSend (data : Bytes) (now : UInt64) (sent : Bool) :
    Seals tun (wgSend P tun data now sent).2 := by
  unfold wgSend
  split
  · exact .refused
  · split
    · exact .refused
    · split
      · exact .refused
      · exact .one .legacy now _ _ _ trivial (sessions_session tun _)

theorem seals_wgSendToPeer {i : Nat} (data : Bytes) (now : UInt64) (sent : Bool) :
    Seals tun (wgSendToPeer P tun i data now sent).2 := by
  unfold wgSendToPeer
  dsimp only
  split
  · exact .refused
  · rename_i hconnected
    have hi : i < tun.peers.count := by
      by_contra hout
      have hzero : tun.peers.get i = WgPeer.zeroed := by
        simp [PeerTable.get, List.getD_eq_getElem?_getD,
          List.getElem?_eq_none (Nat.not_lt.mp hout)]
      rw [hzero] at hconnected
      exact hconnected rfl
    split
    · exact .refused
    · exact .one (.peer i) now _ _ _ trivial (sessions_modifyPeer_session hi rfl)

theorem refines_recvThreadIteration (inp : RecvInput) :
    Refines tun (recvThreadIteration P tun inp) := by
  have hcase := recvThreadIteration_cases P tun inp
  generalize recvThreadIteration P tun inp = out at hcase ⊢
  cases hcase with
  | quiet tun' hsame => exact refines_of_store_eq (storeOf_of_sameSessions hsame) rfl
  | transport buffer received src out hresult hcase =>
      exact (refines_transportCase hcase).of_sameSessions (sameSessions_noteSource tun src)
  | peerResponse src i out hi hcase =>
      have hnote := sameSessions_noteSource tun src
      have hi' : i < (noteSource tun src).peers.count := by
        rw [hnote.peers]
        exact hi
      exact (refines_peerResponseCase hi' hcase).of_sameSessions hnote
  | init src msg tun₁ events hcase =>
      have hinit := (refines_initCase hcase).of_sameSessions (sameSessions_noteSource tun src)
      exact hinit.trans (refines_of_seals (seals_followUp inp.now))

theorem refines_wgNetifOutput (data : Bytes) (ipaddr : UInt32) (d : InitDraws)
    (now : UInt64) (sent : Bool) :
    Refines tun (wgNetifOutput P tun data ipaddr d now sent).2 := by
  unfold wgNetifOutput
  dsimp only
  split
  · exact refines_of_store_eq rfl rfl
  · split
    · exact refines_of_store_eq rfl rfl
    · rename_i i hfind
      split
      · exact refines_initPeer (PeerTable.find_lt hfind) d _
      · exact refines_of_seals (seals_wgSendToPeer _ now sent)

theorem refines_wgRecv (result : SocketResult) (len : Nat) (now : UInt64) :
    Refines tun (wgRecv P tun result len now).2 := by
  have hsilent : (wgRecv P tun result len now).2.2.filter loud = [] := by
    rcases wgRecv_events P tun result len now with ⟨-, hnone⟩ | ⟨plaintext, -, -, hone⟩
    · rw [hnone]
      rfl
    · rw [hone]
      rfl
  exact refines_of_received (wgRecv_cases P tun result len now).received hsilent

theorem refines_keepalivePeer {i : Nat} (hi : i < tun.peers.count) (now clock : UInt64) :
    Refines tun (keepalivePeer P tun i now clock) := by
  unfold keepalivePeer
  dsimp only
  split
  · exact refines_of_store_eq rfl rfl
  · split
    · exact refines_of_step (.wipe (.peer i) trivial) (storeOf_modifyPeer hi _) rfl
    · split
      · exact refines_of_store_eq rfl rfl
      · split
        · exact refines_of_seals (seals_wgSendKeepaliveToPeer hi clock)
        · exact refines_of_store_eq rfl rfl

theorem refines_keepalivePeers (now : UInt64) (clock : Nat → UInt64) (indices : List Nat)
    (h : ∀ i ∈ indices, i < tun.peers.count) :
    Refines tun (keepalivePeers P now clock indices tun) := by
  induction indices generalizing tun with
  | nil => exact refines_of_store_eq rfl rfl
  | cons i rest ih =>
      have hturn : Refines tun (keepalivePeer P tun i now (clock i)) :=
        refines_keepalivePeer (h i (List.mem_cons_self ..)) now (clock i)
      have hrest : Refines (keepalivePeer P tun i now (clock i)).1
          (keepalivePeers P now clock rest (keepalivePeer P tun i now (clock i)).1) := by
        apply ih
        intro j hj
        rw [count_keepalivePeer]
        exact h j (List.mem_cons_of_mem _ hj)
      exact hturn.trans hrest

theorem refines_keepalivePass (now : UInt64) (clock : Nat → UInt64) :
    Refines tun (keepalivePass P tun now clock) := by
  have hpeers : Refines tun (keepalivePeers P now clock (List.range tun.peers.count) tun) :=
    refines_keepalivePeers now clock _ fun i hi => List.mem_range.mp hi
  apply hpeers.trans
  unfold keepaliveLegacy
  split
  · exact refines_of_step (.wipe .legacy trivial) (storeOf_legacy_prev _ _ _) rfl
  · exact refines_of_store_eq rfl rfl

end Functions

section Machine

variable {P : Primitives}

theorem refines_connectEnd (tun : WgTunnel) (state : WgHandshakeState)
    (result : SocketResult) (resp : RespDraws) (now : UInt64) :
    Refines tun (SessionCalls.connectEnd P tun state result resp now).2 := by
  have hcase := connectEnd_cases P tun state result resp now
  have hnote := sameSessions_noteSource tun (SocketResult.src result)
  generalize SessionCalls.connectEnd P tun state result resp now = ended at hcase ⊢
  cases hcase with
  | retried err tun' herr hsame hinit =>
      exact (refines_of_store_eq (storeOf_of_sameSessions hsame) rfl).of_sameSessions hnote
  | passive msg hcookie hinit =>
      have hcase := wgHandshakeInitProcess_cases P
        (noteSource tun (SocketResult.src result)) msg resp
      exact (refines_initCase hcase).of_sameSessions hnote
  | response msg err tun' events hcase hinit =>
      exact (refines_responseCase hcase).of_sameSessions hnote

theorem refines_rekeyEnd (tun : WgTunnel) (state : WgHandshakeState) (now : UInt64) :
    Refines tun (SessionCalls.rekeyEnd P tun state now).2 := by
  unfold SessionCalls.rekeyEnd
  split
  · exact refines_of_store_eq (storeOf_of_sameSessions ⟨rfl, rfl, rfl⟩) rfl
  · split
    · exact refines_of_store_eq rfl rfl
    · split
      · exact refines_of_store_eq rfl rfl
      · exact refines_responseCase (wgHandshakeResponse_cases P tun _ state now)

theorem refines_connectFinish (tun : WgTunnel) (err : WgError) (now : UInt64) :
    Refines tun (SessionCalls.connectFinish P err tun now).2 := by
  unfold SessionCalls.connectFinish
  split
  · exact refines_of_step (.reindex .legacy
      { tun.session with rekeyInProgress := false }.core trivial rfl) (storeOf_legacy _ _) rfl
  · exact refines_of_seals (seals_wgSendKeepalive now)

theorem refines_rekeyFinish (tun : WgTunnel) (saved : UInt32) (err : WgError)
    (now : UInt64) : Refines tun (SessionCalls.rekeyFinish P saved err tun now).2 := by
  unfold SessionCalls.rekeyFinish
  split
  · exact refines_of_step (.reindex .legacy
      { tun.session with localIndex := saved, rekeyInProgress := false }.core trivial rfl)
      (storeOf_legacy _ _) rfl
  · exact refines_of_seals (seals_wgSendKeepalive now)

theorem refines_stepTunnel (tun : WgTunnel) (a : Action) :
    Refines tun (stepTunnel P tun a) := by
  have hidle : Refines tun (tun, []) := refines_of_store_eq rfl rfl
  cases a with
  | addPeer publicKey relayHash ipRaw =>
      exact refines_of_store_eq
        (congrArg (WgSession.core ∘ ·) (sessions_wgAddPeer tun publicKey relayHash ipRaw)) rfl
  | setRecvCallback cb user =>
      exact refines_of_store_eq (storeOf_of_sameSessions ⟨rfl, rfl, rfl⟩) rfl
  | start recvThread keepaliveThread =>
      refine refines_of_store_eq (storeOf_of_sameSessions ?_) rfl
      simp only [stepTunnel, wgStart]
      split
      · exact ⟨rfl, rfl, rfl⟩
      · split
        · exact ⟨rfl, rfl, rfl⟩
        · split <;> exact ⟨rfl, rfl, rfl⟩
  | stop => exact refines_of_store_eq (storeOf_of_sameSessions ⟨rfl, rfl, rfl⟩) rfl
  | recv inp =>
      simp only [stepTunnel]
      split
      · exact refines_recvThreadIteration inp
      · exact hidle
  | keepalive now clock =>
      simp only [stepTunnel]
      split
      · exact refines_keepalivePass now clock
      · exact hidle
  | send data now sent => exact refines_of_seals (seals_wgSend data now sent)
  | sendToPeer i data now sent => exact refines_of_seals (seals_wgSendToPeer data now sent)
  | wgRecv result len now => exact refines_wgRecv result len now
  | output data ipaddr d now sent => exact refines_wgNetifOutput data ipaddr d now sent
  | _ => exact hidle

theorem refines_stepConnect (s : Endpoint) (a : Action) :
    Refines s.tun ((stepConnect P s a).1.tun, (stepConnect P s a).2) := by
  have hidle : Refines s.tun (s.tun, []) := refines_of_store_eq rfl rfl
  cases a with
  | callConnect fd =>
      have hopen : storeOf (openSocket s.tun fd) = storeOf s.tun := by
        unfold openSocket
        split
        · exact storeOf_of_sameSessions ⟨rfl, rfl, rfl⟩
        · rfl
      simp only [stepConnect]
      split
      · split <;> exact refines_of_store_eq hopen rfl
      · exact hidle
  | connectBegin d sent =>
      simp only [stepConnect]
      split
      · split
        · exact refines_beginAttempt d
        · have hcleared : Refines (beginAttempt P s.tun d).1
              ({ (beginAttempt P s.tun d).1 with pendingCookie := false }, []) :=
            refines_of_store_eq (storeOf_of_sameSessions ⟨rfl, rfl, rfl⟩) rfl
          exact (refines_beginAttempt d).trans hcleared
      · exact hidle
  | connectEnd result resp now =>
      simp only [stepConnect]
      split
      · exact refines_connectEnd s.tun _ result resp now
      · exact hidle
  | connectFinish now =>
      simp only [stepConnect]
      split
      · exact refines_connectFinish s.tun _ now
      · exact hidle
  | _ => exact hidle

theorem refines_stepRekey (s : Endpoint) (a : Action) :
    Refines s.tun ((stepRekey P s a).1.tun, (stepRekey P s a).2) := by
  have hidle : Refines s.tun (s.tun, []) := refines_of_store_eq rfl rfl
  cases a with
  | callRekey =>
      simp only [stepRekey]
      split
      · exact refines_of_store_eq (storeOf_of_sameSessions ⟨rfl, rfl, rfl⟩) rfl
      · exact hidle
  | rekeyBegin d sent =>
      simp only [stepRekey]
      split
      · have hbegin : Refines s.tun
            ((beginAttempt P { s.tun with pendingResponse := [], pendingCookie := false } d).1,
              (beginAttempt P { s.tun with pendingResponse := [], pendingCookie := false }
                d).2.2) :=
          (refines_beginAttempt d).of_sameSessions ⟨rfl, rfl, rfl⟩
        split <;> exact hbegin
      · exact hidle
  | rekeyEnd now =>
      simp only [stepRekey]
      split
      · exact refines_rekeyEnd s.tun _ now
      · exact hidle
  | rekeyFinish now =>
      simp only [stepRekey]
      split
      · exact refines_rekeyFinish s.tun _ _ now
      · exact hidle
  | _ => exact hidle

/-- Every step of the machine is a sequence of store steps. -/
theorem step_refines (s : Endpoint) (a : Action) :
    Refines s.tun ((step P s a).1.tun, (step P s a).2) := by
  cases a with
  | callConnect => exact refines_stepConnect s _
  | connectBegin => exact refines_stepConnect s _
  | connectEnd => exact refines_stepConnect s _
  | connectFinish => exact refines_stepConnect s _
  | callRekey => exact refines_stepRekey s _
  | rekeyBegin => exact refines_stepRekey s _
  | rekeyEnd => exact refines_stepRekey s _
  | rekeyFinish => exact refines_stepRekey s _
  | _ => exact refines_stepTunnel s.tun _

/-- The machine refines the store: so is every run. -/
theorem run_refines (s : Endpoint) (actions : List Action) :
    Refines s.tun ((run (step P) s actions).1.tun, (run (step P) s actions).2) := by
  induction actions generalizing s with
  | nil => exact refines_of_store_eq rfl rfl
  | cons a rest ih => exact (step_refines s a).trans (ih _)

end Machine

end WgNx.SessionStore
