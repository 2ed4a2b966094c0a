import WgNx.IndexLedger
import WgNx.SessionStore

/-!
Transport packets find the legacy session they were negotiated for.

Every step of the machine is a move of the index ledger.  The peer table stays
out of it as long as the drawn indices are distinct and not zero: each index is
drawn for the legacy session or for one entry.  A run then dispatches packets
correctly in all its states exactly if each of its steps meets the demand of its move,
and what a step demands can be read off the state before it and its input.
-/

namespace WgNx.SessionDispatch

open WgNx.ByteLayout
open WgNx.CryptoPrimitives
open WgNx.EndpointMachine
open WgNx.IndexLedger
open WgNx.NoiseHandshake
open WgNx.OutputMachine
open WgNx.ReplayCounter
open WgNx.SessionCalls
open WgNx.SessionStore
open WgNx.TransportReceive
open WgNx.TransportSend
open WgNx.TunnelSetup
open WgNx.TunnelState
open WgNx.WireMessages
open Function

/-- The tags of the legacy session and of the one before it, and the latest reading of
the clock. -/
structure Negotiated where
  current : Option Tag
  previous : Option Tag
  clock : UInt64
  deriving DecidableEq

namespace Negotiated

def start : Negotiated := ⟨none, none, 0⟩

def note (g : Negotiated) : Event → Negotiated
  | .established .legacy sess =>
      { g with current := tagOf sess.localIndex sess.receivingKey, previous := g.current }
  | .wiped .legacy => { g with current := none, previous := none }
  | _ => g

def tick (g : Negotiated) (now : UInt64) : Negotiated := { g with clock := later g.clock now }

/-- A session has checked a counter against its window. -/
def check (g : Negotiated) : Option (Slot × UInt64) → Negotiated
  | some (.current, counter) => { g with current := g.current.map (·.check counter) }
  | some (.previous, counter) => { g with previous := g.previous.map (·.check counter) }
  | none => g

end Negotiated

def cardOf (sess : WgSession) : Card :=
  ⟨sess.localIndex, sess.valid, sess.receivingKey, sess.lastHandshake, sess.replay⟩

def ledgerOf (tun : WgTunnel) (g : Negotiated) : Ledger where
  session := cardOf tun.session
  oldLocalIndex := tun.session.oldLocalIndex
  prevSession := cardOf tun.prevSession
  current := g.current
  previous := g.previous
  clock := g.clock

/-- An index of some table entry. -/
def PeerIndex (tun : WgTunnel) (index : UInt32) : Prop :=
  ∃ i, index = (tun.getSession (.peer i)).localIndex ∨
    index = (tun.getSession (.peerPrev i)).localIndex

/-- A check that concerns the legacy session or the previous one. -/
def slotCheck : SessionRef × UInt64 → Option (Slot × UInt64)
  | (.legacy, counter) => some (.current, counter)
  | (.legacyPrev, counter) => some (.previous, counter)
  | _ => none

section Effects

/-- The tunnels differ by a move of the ledger; `entries` are the indices drawn
for table entries. -/
structure Effect (tun : WgTunnel) (out : WgTunnel × List Event) (m : Move)
    (entries : List UInt32) : Prop where
  ledger : ∀ g, ledgerOf out.1 (out.2.foldl Negotiated.note (g.check m.checks)) =
    (ledgerOf tun g).apply m
  drawn : drawnIndices out.2 = m.draws ++ entries
  peers : ∀ index, PeerIndex out.1 index → PeerIndex tun index ∨ index = 0 ∨ index ∈ entries

/-- Some move with the given demand and check leads from the tunnel to the outcome. -/
def Moves (tun : WgTunnel) (out : WgTunnel × List Event) (d : Demand)
    (check : Option (Slot × UInt64)) : Prop :=
  ∃ m entries, m.demand = d ∧ m.checks = check ∧ Effect tun out m entries

/-- Events that say nothing about the indices of the legacy session. -/
def inert : Event → Bool
  | .drawn _ => false
  | .established ref _ => decide (ref ≠ .legacy)
  | .wiped ref => decide (ref ≠ .legacy)
  | _ => true

theorem note_of_inert {e : Event} (h : inert e = true) (g : Negotiated) :
    g.note e = g := by
  cases e with
  | drawn => rfl
  | sent => rfl
  | sealed => rfl
  | delivered => rfl
  | established ref sess =>
      cases ref with
      | legacy => simp [inert] at h
      | _ => rfl
  | wiped ref =>
      cases ref with
      | legacy => simp [inert] at h
      | _ => rfl

theorem silent_of_inert {events : List Event} (h : ∀ e ∈ events, inert e = true) :
    (∀ g, events.foldl Negotiated.note g = g) ∧ drawnIndices events = [] := by
  induction events with
  | nil => exact ⟨fun _ => rfl, rfl⟩
  | cons e rest ih =>
      obtain ⟨he, hrest⟩ := List.forall_mem_cons.mp h
      obtain ⟨hnote, hdrawn⟩ := ih hrest
      refine ⟨fun g => ?_, ?_⟩
      · rw [List.foldl_cons, note_of_inert he, hnote]
      · cases e <;> simp_all [drawnIndices, inert]

variable {tun tun' : WgTunnel} {events : List Event} {out : WgTunnel × List Event}

theorem Effect.moves {m : Move} {entries : List UInt32} (h : Effect tun out m entries) :
    Moves tun out m.demand m.checks :=
  ⟨m, entries, rfl, rfl, h⟩

theorem ledgerOf_congr (hsession : cardOf tun'.session = cardOf tun.session)
    (hold : tun'.session.oldLocalIndex = tun.session.oldLocalIndex)
    (hprev : cardOf tun'.prevSession = cardOf tun.prevSession) (g : Negotiated) :
    ledgerOf tun' g = ledgerOf tun g := by
  simp only [ledgerOf, hsession, hold, hprev]

theorem peerIndex_congr
    (h : ∀ ref, (tun'.getSession ref).localIndex = (tun.getSession ref).localIndex)
    {index : UInt32} (hindex : PeerIndex tun' index) : PeerIndex tun index := by
  obtain ⟨i, hi⟩ := hindex
  rw [h, h] at hi
  exact ⟨i, hi⟩

theorem effect_still (hledger : ∀ g, ledgerOf tun' g = ledgerOf tun g)
    (hpeers : ∀ index, PeerIndex tun' index → PeerIndex tun index ∨ index = 0)
    (hinert : ∀ e ∈ events, inert e = true) : Effect tun (tun', events) .still [] := by
  obtain ⟨hnote, hdrawn⟩ := silent_of_inert hinert
  refine ⟨fun g => ?_, hdrawn, fun index hindex => (hpeers index hindex).imp_right .inl⟩
  exact (congrArg (ledgerOf tun') (hnote g)).trans (hledger g)

/-- A write to one session that keeps what the ledger reads of it. -/
theorem effect_of_update {ref : SessionRef} {sess : WgSession}
    (h : tun'.getSession = update tun.getSession ref sess)
    (hcard : cardOf sess = cardOf (tun.getSession ref))
    (hold : sess.oldLocalIndex = (tun.getSession ref).oldLocalIndex)
    (hinert : ∀ e ∈ events, inert e = true) : Effect tun (tun', events) .still [] := by
  have hcards := view_kept cardOf h hcard
  refine effect_still ?_ (fun index hindex => .inl ?_) hinert
  · exact ledgerOf_congr (hcards .legacy) (view_kept _ h hold .legacy) (hcards .legacyPrev)
  · exact peerIndex_congr (fun ref => congrArg Card.localIndex (hcards ref)) hindex

theorem effect_of_sessions (h : tun'.getSession = tun.getSession)
    (hinert : ∀ e ∈ events, inert e = true) : Effect tun (tun', events) .still [] :=
  effect_of_update (h.trans (update_eq_self SessionRef.legacy tun.getSession).symm) rfl rfl hinert

theorem effect_of_sameSessions (h : tun'.SameSessions tun) :
    Effect tun (tun', []) .still [] :=
  effect_of_sessions (funext h.getSession) (by simp)

theorem effect_refl (tun : WgTunnel) : Effect tun (tun, []) .still [] :=
  effect_of_sessions rfl (by simp)

theorem effect_of_seals (h : Seals tun out) : Effect tun out .still [] := by
  cases h with
  | refused => exact effect_refl tun
  | one ref now tun' dest datagram href hsessions =>
      exact effect_of_update hsessions rfl rfl (by simp [inert])

theorem Effect.of_sameSessions {a b : WgTunnel} {m : Move} {entries : List UInt32}
    (h : Effect a out m entries) (hsame : a.SameSessions b) : Effect b out m entries := by
  have hsession := hsame.session
  have hledger : ∀ g, ledgerOf a g = ledgerOf b g := by
    apply ledgerOf_congr (by rw [hsession]) (by rw [hsession])
    rw [hsame.prevSession]
  refine ⟨fun g => (h.ledger g).trans (by rw [hledger]), h.drawn, fun index hindex => ?_⟩
  refine (h.peers index hindex).imp_left (peerIndex_congr fun ref => ?_)
  rw [hsame.getSession]

theorem Moves.of_sameSessions {a b : WgTunnel} {d : Demand} {check : Option (Slot × UInt64)}
    (h : Moves a out d check) (hsame : a.SameSessions b) : Moves b out d check := by
  obtain ⟨m, entries, hdemand, hcheck, heffect⟩ := h
  exact ⟨m, entries, hdemand, hcheck, heffect.of_sameSessions hsame⟩

theorem drawnIndices_append (a b : List Event) :
    drawnIndices (a ++ b) = drawnIndices a ++ drawnIndices b :=
  List.filterMap_append

theorem Effect.then_still {mid : WgTunnel × List Event} {m : Move} {entries : List UInt32}
    (h : Effect tun mid m entries) (h' : Effect mid.1 out .still []) :
    Effect tun (out.1, mid.2 ++ out.2) m entries := by
  refine ⟨fun g => ?_, ?_, fun index hindex => ?_⟩
  · rw [List.foldl_append]
    exact (h'.ledger _).trans (h.ledger g)
  · rw [drawnIndices_append, h.drawn, h'.drawn]
    exact List.append_nil _
  · rcases h'.peers index hindex with hpeer | hzero | hnone
    · exact h.peers index hpeer
    · exact .inr (.inl hzero)
    · cases hnone

theorem Effect.after_still {mid : WgTunnel × List Event} {m : Move}
    (h : Effect tun mid .still []) (h' : Effect mid.1 out m [])
    (hchecks : m.checks = none) : Effect tun (out.1, mid.2 ++ out.2) m [] := by
  refine ⟨fun g => ?_, ?_, fun index hindex => ?_⟩
  · have hledger := h'.ledger (mid.2.foldl Negotiated.note g)
    rw [hchecks] at hledger ⊢
    rw [List.foldl_append]
    exact hledger.trans (congrArg (Ledger.apply · m) (h.ledger g))
  · rw [drawnIndices_append, h.drawn, h'.drawn]
    rfl
  · rcases h'.peers index hindex with hpeer | hzero | hnone
    · exact h.peers index hpeer
    · exact .inr (.inl hzero)
    · cases hnone

end Effects

section Functions

variable {P : Primitives} {tun : WgTunnel}

theorem effect_beginAttempt (d : InitDraws) :
    Effect tun ((beginAttempt P tun d).1, (beginAttempt P tun d).2.2) (.begun d.index) [] :=
  ⟨fun _ => rfl, rfl, fun _ h => .inl h⟩

theorem peerIndex_modifyPeer {i : Nat} (hi : i < tun.peers.count) {f : WgPeer → WgPeer}
    {index : UInt32} (h : PeerIndex { tun with peers := tun.peers.modify i f } index) :
    PeerIndex tun index ∨ index = (f (tun.peers.get i)).session.localIndex ∨
      index = (f (tun.peers.get i)).prevSession.localIndex := by
  obtain ⟨j, hj⟩ := h
  rw [sessions_modifyPeer hi] at hj
  rcases eq_or_ne j i with rfl | hne
  · rw [update_self, update_of_ne (by simp), update_self] at hj
    exact .inr hj
  · rw [update_of_ne (by simpa using hne), update_of_ne (by simp), update_of_ne (by simp),
      update_of_ne (by simpa using hne)] at hj
    exact .inl ⟨j, hj⟩

theorem peerIndex_session (i : Nat) : PeerIndex tun (tun.peers.get i).session.localIndex :=
  ⟨i, .inl rfl⟩

theorem peerIndex_prevSession (i : Nat) :
    PeerIndex tun (tun.peers.get i).prevSession.localIndex :=
  ⟨i, .inr rfl⟩

/-- A session is installed, and a valid former one is kept under `kept`. -/
theorem ledgerOf_install (g : Negotiated) {tun' : WgTunnel} {index kept : UInt32} {key : Key}
    {since : UInt64}
    (hsession : cardOf tun'.session = ⟨index, true, key, since, ReplayCounter.zeroed⟩)
    (hold : tun'.session.oldLocalIndex = tun.session.oldLocalIndex)
    (hprev : cardOf tun'.prevSession =
      if tun.session.valid then { cardOf tun.session with localIndex := kept }
      else cardOf tun.prevSession) :
    ledgerOf tun' { g with current := tagOf index key, previous := g.current } =
      ((ledgerOf tun g).keep kept).install index key since := by
  simp only [ledgerOf, Ledger.keep, hsession, hold, hprev]
  change _ = Ledger.install (if tun.session.valid = true then _ else _) index key since
  split <;> rfl

theorem effect_respondLegacy (msg : WgHandshakeInit) (decryptedStatic : Key)
    (response : WgHandshakeResponse) (keys : Hash × Hash) (d : RespDraws) :
    Effect tun (respondLegacy tun msg decryptedStatic response keys d)
      (.accepted d.index keys.1 d.now) [] := by
  refine ⟨fun g => ledgerOf_install g rfl rfl ?_, rfl, fun _ h => .inl h⟩
  exact apply_ite cardOf _ tun.session tun.prevSession

theorem effect_respondPeer {i : Nat} (hi : i < tun.peers.count) (msg : WgHandshakeInit)
    (response : WgHandshakeResponse) (keys : Hash × Hash) (d : RespDraws) :
    Effect tun (respondPeer tun i msg response keys d) .still [d.index] := by
  refine ⟨fun _ => rfl, rfl, fun index hindex => ?_⟩
  rcases peerIndex_modifyPeer hi hindex with hold | hlocal | hprev
  · exact .inl hold
  · exact .inr (.inr (List.mem_singleton.mpr hlocal))
  · dsimp only at hprev
    split at hprev
    · exact .inl (hprev ▸ peerIndex_session i)
    · exact .inl (hprev ▸ peerIndex_prevSession i)

/-- What is demanded when an INIT is accepted, by the static key of its sender: nothing if
the key is that of a table entry. -/
def acceptDemand (tun : WgTunnel) : Option Key → Demand
  | some key => if (wgFindPeerByPublicKey tun key).isNone then .mayAccept else .nothing
  | none => .nothing

theorem acceptDemand_noteSource (src : Option SockAddr) (key : Option Key) :
    acceptDemand (noteSource tun src) key = acceptDemand tun key := by
  cases src <;> rfl

theorem moves_initCase {msg : WgHandshakeInit} {d : RespDraws} {err : WgError}
    {out : WgTunnel × List Event} (h : InitCase P tun msg d (err, out)) :
    Moves tun out (acceptDemand tun (acceptedKey P tun msg)) none := by
  have hsame : { tun with lastMac1 := msg.mac1 }.SameSessions tun := ⟨rfl, rfl, rfl⟩
  cases h with
  | rejected _ tun' herr hsame hnone =>
      rw [hnone]
      exact (effect_of_sameSessions hsame).moves
  | legacy decryptedStatic response keys hfind hkey =>
      rw [hkey, acceptDemand, hfind]
      exact ((effect_respondLegacy ..).of_sameSessions hsame).moves
  | peer i response keys hi decryptedStatic hfind hkey =>
      rw [hkey, acceptDemand, hfind]
      have hi' : i < { tun with lastMac1 := msg.mac1 }.peers.count := hi
      exact ((effect_respondPeer hi' ..).of_sameSessions hsame).moves

/-- What is demanded when a RESPONSE is handed over. -/
def answerDemand (accepted : Bool) : Demand := if accepted then .mayAnswer else .nothing

theorem moves_responseCase {msg : WgHandshakeResponse} {state : WgHandshakeState}
    {now : UInt64} {err : WgError} {tun' : WgTunnel} {events : List Event}
    (h : ResponseCase P tun msg state now err tun' events) :
    Moves tun (tun', events) (answerDemand (responseOk P tun msg state)) none := by
  cases h with
  | refused hbad =>
      rw [hbad]
      exact (effect_refl tun).moves
  | badTag hindex hbad =>
      rw [hbad]
      have hsessions := sessions_session tun { tun.session with remoteIndex := msg.senderIndex }
      exact (effect_of_update hsessions rfl rfl (by simp)).moves
  | installed keys sess hindex hsess hok =>
      rw [hok]
      subst hsess
      refine ⟨.answered keys.2 now, [], rfl, rfl,
        fun g => ledgerOf_install g rfl rfl ?_, rfl, fun _ h => .inl h⟩
      exact apply_ite cardOf _ _ tun.prevSession

theorem effect_peerResponseCase {i : Nat} (hi : i < tun.peers.count) {now : UInt64}
    {out : WgTunnel × List Event} (h : PeerResponseCase tun i now out) :
    Effect tun out .still [] := by
  cases h with
  | refused => exact effect_refl tun
  | badTag remoteIndex pendingHs =>
      exact effect_of_update (sessions_modifyPeer_session hi rfl) rfl rfl (by simp)
  | installed keys remoteIndex sess hsess =>
      subst hsess
      refine effect_still (fun _ => rfl) (fun index hindex => ?_) (by simp [inert])
      rcases peerIndex_modifyPeer hi hindex with hold | hlocal | hprev
      · exact .inl hold
      · exact .inl (hlocal ▸ peerIndex_session i)
      · exact .inl (hprev ▸ peerIndex_prevSession i)

theorem moves_dropExpired {ref : SessionRef} (h : tun.Holds ref) {events : List Event}
    (hinert : ∀ e ∈ events, inert e = true) :
    Moves tun (dropExpired tun ref, events) .nothing none := by
  obtain ⟨hnote, hdrawn⟩ := silent_of_inert hinert
  cases ref with
  | legacy => exact (effect_of_sessions rfl hinert).moves
  | peer i => exact (effect_of_sessions rfl hinert).moves
  | legacyPrev =>
      refine ⟨.dropped, [], rfl, rfl, fun g => ?_, hdrawn, fun _ h => .inl h⟩
      exact congrArg (ledgerOf _) (hnote g)
  | peerPrev i =>
      have hledger : ∀ g, ledgerOf (dropExpired tun (.peerPrev i)) g = ledgerOf tun g :=
        fun _ => rfl
      refine (effect_still hledger (fun index hindex => ?_) hinert).moves
      rcases peerIndex_modifyPeer h hindex with hold | hlocal | hprev
      · exact .inl hold
      · exact .inl (hlocal ▸ peerIndex_session i)
      · exact .inr hprev

theorem cardOf_of_core {a b : WgSession} (h : a.core = b.core) :
    cardOf a = { cardOf b with replay := a.replay } := by
  have hindex := eq_of_core WgSession.localIndex h fun _ => rfl
  have hvalid := eq_of_core WgSession.valid h fun _ => rfl
  have hkey := eq_of_core WgSession.receivingKey h fun _ => rfl
  have hlast := eq_of_core WgSession.lastHandshake h fun _ => rfl
  simp only [cardOf, hindex, hvalid, hkey, hlast]

/-- A session has checked a counter: it is the only one to change, and only its window. -/
theorem moves_checked {ref : SessionRef} {counter : UInt64} {sess : WgSession}
    {tun' : WgTunnel} {events : List Event}
    (hsessions : tun'.getSession = update tun.getSession ref sess)
    (hcore : sess.core = (tun.getSession ref).core)
    (hreplay : sess.replay = (wgCounterValidate (tun.getSession ref).replay counter).2)
    (hinert : ∀ e ∈ events, inert e = true) :
    Moves tun (tun', events) .nothing (slotCheck (ref, counter)) := by
  obtain ⟨hnote, hdrawn⟩ := silent_of_inert hinert
  have hcard : cardOf sess = (cardOf (tun.getSession ref)).check counter :=
    (cardOf_of_core hcore).trans (by rw [hreplay]; rfl)
  have hcores := view_kept WgSession.core hsessions hcore
  have hold : tun'.session.oldLocalIndex = tun.session.oldLocalIndex :=
    eq_of_core WgSession.oldLocalIndex (hcores .legacy) fun _ => rfl
  have hpeers : ∀ {index}, PeerIndex tun' index → PeerIndex tun index :=
    peerIndex_congr fun ref => eq_of_core WgSession.localIndex (hcores ref) fun _ => rfl
  have hother : ∀ ref', ref' ≠ ref → tun'.getSession ref' = tun.getSession ref' := by
    intro ref' hne
    rw [hsessions, update_of_ne hne]
  have hself : cardOf (tun'.getSession ref) = (cardOf (tun.getSession ref)).check counter := by
    rw [hsessions, update_self, hcard]
  cases ref with
  | legacy =>
      refine ⟨.checked .current counter, [], rfl, rfl, fun g => ?_, hdrawn,
        fun _ h => .inl (hpeers h)⟩
      have hprev : tun'.prevSession = tun.prevSession := hother .legacyPrev (by simp)
      have hsession : cardOf tun'.session = (cardOf tun.session).check counter := hself
      refine (congrArg (ledgerOf tun') (hnote _)).trans ?_
      simp only [ledgerOf, hsession, hold, hprev]
      rfl
  | legacyPrev =>
      refine ⟨.checked .previous counter, [], rfl, rfl, fun g => ?_, hdrawn,
        fun _ h => .inl (hpeers h)⟩
      have hsession : tun'.session = tun.session := hother .legacy (by simp)
      have hprev : cardOf tun'.prevSession = (cardOf tun.prevSession).check counter := hself
      refine (congrArg (ledgerOf tun') (hnote _)).trans ?_
      simp only [ledgerOf, hsession, hprev]
      rfl
  | peer i =>
      refine (effect_still ?_ (fun _ h => .inl (hpeers h)) hinert).moves
      exact ledgerOf_congr (congrArg cardOf (hother .legacy (by simp))) hold
        (congrArg cardOf (hother .legacyPrev (by simp)))
  | peerPrev i =>
      refine (effect_still ?_ (fun _ h => .inl (hpeers h)) hinert).moves
      exact ledgerOf_congr (congrArg cardOf (hother .legacy (by simp))) hold
        (congrArg cardOf (hother .legacyPrev (by simp)))

theorem moves_of_received {check : Option (SessionRef × UInt64)} {tun' : WgTunnel}
    {events : List Event} (h : Received tun check tun')
    (hinert : ∀ e ∈ events, inert e = true) :
    Moves tun (tun', events) .nothing (check.bind slotCheck) := by
  cases h with
  | touched ref sess hsessions hcore hreplay hcheck =>
      rw [hcheck]
      have hcard : cardOf sess = cardOf (tun.getSession ref) :=
        (cardOf_of_core hcore).trans (by rw [hreplay]; rfl)
      have hold := eq_of_core WgSession.oldLocalIndex hcore fun _ => rfl
      exact (effect_of_update hsessions hcard hold hinert).moves
  | checked ref counter sess hsessions hcore hreplay hcheck =>
      rw [hcheck]
      exact moves_checked hsessions hcore hreplay hinert
  | dropped ref href hdropped hcheck =>
      rw [hcheck, hdropped]
      exact moves_dropExpired href hinert

theorem moves_recvThreadIteration (inp : RecvInput) :
    Moves tun (recvThreadIteration P tun inp)
      (acceptDemand tun (receivedKey P tun inp.result))
      ((checkedBy P tun inp).bind slotCheck) := by
  have hcase := recvThreadIteration_cases P tun inp
  generalize recvThreadIteration P tun inp = out at hcase ⊢
  cases hcase with
  | quiet tun' hsame hkey hcheck =>
      rw [hkey, hcheck]
      exact (effect_of_sameSessions hsame).moves
  | transport buffer received src out hresult hcase htype hlong =>
      have hkey : receivedKey P tun inp.result = none := by
        rw [hresult]
        exact receivedKey_of_type P (by rw [htype]; decide)
      have hinert : ∀ e ∈ out.2, inert e = true := by
        intro e he
        obtain ⟨ref, plaintext, -, -, rfl⟩ := hcase.events he
        rfl
      rw [hkey, checkedBy_of_type P hresult htype hlong, ← checkedPacket_noteSource P tun src]
      exact (moves_of_received hcase.received hinert).of_sameSessions
        (sameSessions_noteSource tun src)
  | peerResponse src i out hi hcase hkey hcheck =>
      rw [hkey, hcheck]
      have hnote := sameSessions_noteSource tun src
      have hi' : i < (noteSource tun src).peers.count := by
        rw [hnote.peers]
        exact hi
      exact ((effect_peerResponseCase hi' hcase).of_sameSessions hnote).moves
  | init src msg tun₁ events hcase hkey hcheck =>
      obtain ⟨m, entries, hdemand, hchecks, heffect⟩ := moves_initCase hcase
      rw [acceptedKey_noteSource, acceptDemand_noteSource] at hdemand
      rw [hkey, hcheck]
      have hinit := heffect.of_sameSessions (sameSessions_noteSource tun src)
      exact ⟨m, entries, hdemand, hchecks,
        hinit.then_still (effect_of_seals (seals_followUp inp.now))⟩

theorem moves_wgNetifOutput (data : Bytes) (ipaddr : UInt32) (d : InitDraws)
    (now : UInt64) (sent : Bool) :
    Moves tun (wgNetifOutput P tun data ipaddr d now sent).2 .nothing none := by
  unfold wgNetifOutput
  dsimp only
  split
  · exact (effect_refl tun).moves
  · split
    · exact (effect_refl tun).moves
    · rename_i i hfind
      have hi := PeerTable.find_lt hfind
      split
      · refine ⟨.still, [d.index], rfl, rfl, fun _ => rfl, rfl, fun index hindex => ?_⟩
        have hi' : i < (wgHandshakeInitPeer P tun i d).1.peers.count := by
          simpa [wgHandshakeInitPeer] using hi
        have hbuilt : ∀ index, PeerIndex (wgHandshakeInitPeer P tun i d).1 index →
            PeerIndex tun index ∨ index = 0 ∨ index ∈ [d.index] := by
          intro index hindex
          rcases peerIndex_modifyPeer hi hindex with hold | hlocal | hprev
          · exact .inl hold
          · exact .inr (.inr (List.mem_singleton.mpr hlocal))
          · exact .inl (hprev ▸ peerIndex_prevSession i)
        rcases peerIndex_modifyPeer hi' hindex with hold | hlocal | hprev
        · exact hbuilt index hold
        · exact hbuilt index (hlocal ▸ peerIndex_session i)
        · exact hbuilt index (hprev ▸ peerIndex_prevSession i)
      · exact (effect_of_seals (seals_wgSendToPeer _ now sent)).moves

theorem moves_wgRecv (result : SocketResult) (len : Nat) (now : UInt64) :
    Moves tun (wgRecv P tun result len now).2 .nothing
      (((polledCounter P tun len result).map fun counter =>
        (SessionRef.legacy, counter)).bind slotCheck) := by
  apply moves_of_received (wgRecv_cases P tun result len now).received
  rcases wgRecv_events P tun result len now with ⟨-, hnone⟩ | ⟨plaintext, -, -, hone⟩
  · rw [hnone]
    simp
  · rw [hone]
    simp [inert]

theorem effect_keepalivePeer {i : Nat} (hi : i < tun.peers.count) (now clock : UInt64) :
    Effect tun (keepalivePeer P tun i now clock) .still [] := by
  unfold keepalivePeer
  dsimp only
  split
  · exact effect_refl tun
  · split
    · refine effect_still (fun _ => rfl) (fun index hindex => ?_) (by simp [inert])
      rcases peerIndex_modifyPeer hi hindex with hold | hlocal | hprev
      · exact .inl hold
      · exact .inr hlocal
      · exact .inr hprev
    · split
      · exact effect_refl tun
      · split
        · exact effect_of_seals (seals_wgSendKeepaliveToPeer hi clock)
        · exact effect_refl tun

theorem effect_keepalivePeers (now : UInt64) (clock : Nat → UInt64) (indices : List Nat)
    (h : ∀ i ∈ indices, i < tun.peers.count) :
    Effect tun (keepalivePeers P now clock indices tun) .still [] := by
  induction indices generalizing tun with
  | nil => exact effect_refl tun
  | cons i rest ih =>
      have hturn := @effect_keepalivePeer P tun i (h i (List.mem_cons_self ..)) now (clock i)
      refine hturn.then_still (ih fun j hj => ?_)
      rw [count_keepalivePeer]
      exact h j (List.mem_cons_of_mem _ hj)

theorem moves_keepalivePass (now : UInt64) (clock : Nat → UInt64) :
    Moves tun (keepalivePass P tun now clock) .nothing none := by
  have hpeers := @effect_keepalivePeers P tun now clock (List.range tun.peers.count)
    (fun i hi => List.mem_range.mp hi)
  unfold keepalivePass
  dsimp only
  generalize keepalivePeers P now clock (List.range tun.peers.count) tun = out at hpeers ⊢
  unfold keepaliveLegacy
  split
  · exact ⟨.wiped, [], rfl, rfl,
      hpeers.after_still ⟨fun _ => rfl, rfl, fun _ h => .inl h⟩ rfl⟩
  · exact (hpeers.after_still (effect_refl _) rfl).moves

end Functions

section Steps

variable (P : Primitives)

/-- The time an action carries. -/
def timeOf : Action → UInt64
  | .connectBegin d _ => d.now
  | .connectEnd _ _ now => now
  | .connectFinish now => now
  | .rekeyBegin d _ => d.now
  | .rekeyEnd now => now
  | .rekeyFinish now => now
  | .recv inp => inp.now
  | .keepalive now _ => now
  | .send _ now _ => now
  | .sendToPeer _ _ now _ => now
  | .wgRecv _ _ now => now
  | .output _ _ _ now _ => now
  | _ => 0

/-- The session whose replay window a step checks a counter against. -/
def checkedIn (s : Endpoint) : Action → Option (SessionRef × UInt64)
  | .recv inp => if s.tun.running then checkedBy P s.tun inp else none
  | .wgRecv result len _ =>
      (polledCounter P s.tun len result).map fun counter => (.legacy, counter)
  | _ => none

/-- The tags after a step: the time has passed, a window has been used, and the handshakes
of the step have been noted. -/
def follow (g : Negotiated) (s : Endpoint) (a : Action) : Negotiated :=
  (step P s a).2.foldl Negotiated.note
    ((g.tick (timeOf a)).check ((checkedIn P s a).bind slotCheck))

/-- What a step asks of the indices, by the state and the input: that an attempt may
begin, that a RESPONSE or the INIT of a stranger may be accepted, or that a failed rekey
may restore its index. -/
def demand (s : Endpoint) (a : Action) : Demand :=
  match a, s.phase with
  | .connectBegin _ _, .connecting _ => .mayBegin
  | .rekeyBegin _ _, .rekeying _ _ => .mayBegin
  | .rekeyFinish _, .rekeyDone saved err => if err = .ok then .nothing else .mayRestore saved
  | a, _ =>
      if acceptsResponse P s a then .mayAnswer else acceptDemand s.tun (acceptedInit P s a)

/-- The step is a move of the ledger, with the demand and the check that the state before
it tells. -/
def StepMoves (s : Endpoint) (a : Action) : Prop :=
  Moves s.tun ((step P s a).1.tun, (step P s a).2) (demand P s a)
    ((checkedIn P s a).bind slotCheck)

variable {P}

section ConnectEnd

variable {tun : WgTunnel} {k : Nat} {state : WgHandshakeState} {result : SocketResult}
  {resp : RespDraws} {now : UInt64}

theorem handedInit_of_isInit {msg : WgHandshakeInit} (hcookie : tun.pendingCookie = false)
    (h : IsInit result msg) :
    handedInit ⟨tun, .connectWait k state⟩ (.connectEnd result resp now) = some msg := by
  obtain ⟨buffer, received, src, rfl, hinit, rfl⟩ := h
  simp only [handedInit, hcookie, initIn, if_pos hinit]
  rfl

theorem handedInit_of_not_isInit
    (h : ∀ msg, tun.pendingCookie = false → ¬ IsInit result msg) :
    handedInit ⟨tun, .connectWait k state⟩ (.connectEnd result resp now) = none := by
  cases result with
  | timeout => rfl
  | error => rfl
  | datagram buffer received src =>
      simp only [handedInit]
      split
      · rfl
      · rename_i hcookie
        refine if_neg fun hinit => ?_
        exact h _ (by simpa using hcookie) ⟨buffer, received, src, rfl, hinit, rfl⟩

theorem moves_connectEnd :
    Moves tun (SessionCalls.connectEnd P tun state result resp now).2
      (demand P ⟨tun, .connectWait k state⟩ (.connectEnd result resp now)) none := by
  have hcase := connectEnd_cases P tun state result resp now
  have hnote := sameSessions_noteSource tun (SocketResult.src result)
  have hpending : (noteSource tun (SocketResult.src result)).pendingCookie =
      tun.pendingCookie := by
    cases SocketResult.src result <;> rfl
  simp only [demand, acceptsResponse, acceptedInit]
  generalize SessionCalls.connectEnd P tun state result resp now = ended at hcase ⊢
  cases hcase with
  | retried err tun' herr hsame hinit hresponse =>
      rw [hpending] at hinit hresponse
      rw [handedInit_of_not_isInit hinit]
      have hnone : (!tun.pendingCookie &&
          (responseIn result).any fun msg => responseOk P tun msg state) = false := by
        cases hcookie : tun.pendingCookie with
        | true => rfl
        | false =>
            rw [hresponse hcookie]
            rfl
      rw [hnone]
      exact ((effect_of_sameSessions hsame).of_sameSessions hnote).moves
  | passive msg hcookie hinit =>
      rw [hpending] at hcookie
      rw [handedInit_of_isInit hcookie hinit, responseIn_of_isInit hinit, hcookie]
      have hmoves := moves_initCase
        (wgHandshakeInitProcess_cases P (noteSource tun (SocketResult.src result)) msg resp)
      rw [acceptedKey_noteSource, acceptDemand_noteSource] at hmoves
      exact hmoves.of_sameSessions hnote
  | response msg err tun' events hcase hinit hcookie hresponse =>
      rw [hpending] at hcookie
      rw [handedInit_of_not_isInit fun msg _ => hinit msg, hresponse, hcookie]
      have hmoves := (moves_responseCase hcase).of_sameSessions hnote
      have hok : responseOk P (noteSource tun (SocketResult.src result)) msg state =
          responseOk P tun msg state := by
        cases SocketResult.src result <;> rfl
      rw [hok] at hmoves
      exact hmoves

end ConnectEnd

theorem moves_rekeyEnd {tun : WgTunnel} {k : Nat} {saved : UInt32} {state : WgHandshakeState}
    {now : UInt64} :
    Moves tun (SessionCalls.rekeyEnd P tun state now).2
      (demand P ⟨tun, .rekeyWait k saved state⟩ (.rekeyEnd now)) none := by
  change Moves tun _ (answerDemand (!tun.pendingCookie &&
    decide (sizeofResponse ≤ tun.pendingResponse.length) &&
      responseOk P tun (WgHandshakeResponse.ofBytes tun.pendingResponse) state)) none
  unfold SessionCalls.rekeyEnd
  split
  · rename_i hcookie
    have hsame : { tun with pendingCookie := false }.SameSessions tun := ⟨rfl, rfl, rfl⟩
    simp only [hcookie]
    exact (effect_of_sameSessions hsame).moves
  · rename_i hcookie
    simp only [Bool.not_eq_true] at hcookie
    simp only [hcookie]
    split
    · rename_i hempty
      rw [hempty]
      exact (effect_refl tun).moves
    · split
      · rename_i hshort
        rw [decide_eq_false (Nat.not_le.mpr hshort)]
        exact (effect_refl tun).moves
      · rename_i hlong
        rw [decide_eq_true (Nat.not_lt.mp hlong)]
        exact moves_responseCase (wgHandshakeResponse_cases P tun _ state now)

theorem stepMoves_still {s : Endpoint} {a : Action} (hdemand : demand P s a = .nothing)
    (hcheck : checkedIn P s a = none)
    (h : Effect s.tun ((step P s a).1.tun, (step P s a).2) .still []) : StepMoves P s a := by
  unfold StepMoves
  rw [hdemand, hcheck]
  exact h.moves

theorem stepMoves_start (s : Endpoint) (recvThread keepaliveThread : Bool) :
    StepMoves P s (.start recvThread keepaliveThread) := by
  have hsame : (wgStart s.tun recvThread keepaliveThread).2.SameSessions s.tun := by
    unfold wgStart
    split
    · exact ⟨rfl, rfl, rfl⟩
    · split
      · exact ⟨rfl, rfl, rfl⟩
      · split <;> exact ⟨rfl, rfl, rfl⟩
  exact stepMoves_still rfl rfl (effect_of_sameSessions hsame)

theorem stepMoves_callConnect (s : Endpoint) (fd : Int) :
    StepMoves P s (.callConnect fd) := by
  have hopen : (openSocket s.tun fd).SameSessions s.tun := by
    unfold openSocket
    split <;> exact ⟨rfl, rfl, rfl⟩
  refine stepMoves_still rfl rfl ?_
  simp only [step, stepConnect]
  split
  · split <;> exact effect_of_sameSessions hopen
  · exact effect_refl _

theorem stepMoves_connectBegin (s : Endpoint) (d : InitDraws) (sent : Bool) :
    StepMoves P s (.connectBegin d sent) := by
  obtain ⟨tun, phase⟩ := s
  cases phase with
  | connecting k =>
      refine ⟨.begun d.index, [], rfl, rfl, ?_⟩
      have hbegin := @effect_beginAttempt P tun d
      simp only [step, stepConnect]
      split
      · exact hbegin
      · have hclear := @effect_of_sameSessions (beginAttempt P tun d).1
          { (beginAttempt P tun d).1 with pendingCookie := false } ⟨rfl, rfl, rfl⟩
        exact hbegin.then_still hclear
  | _ => exact stepMoves_still rfl rfl (effect_refl _)

theorem stepMoves_connectEnd (s : Endpoint) (result : SocketResult) (resp : RespDraws)
    (now : UInt64) : StepMoves P s (.connectEnd result resp now) := by
  obtain ⟨tun, phase⟩ := s
  cases phase with
  | connectWait k state => exact moves_connectEnd
  | _ =>
      refine stepMoves_still ?_ rfl (effect_refl _)
      cases result <;> rfl

theorem stepMoves_connectFinish (s : Endpoint) (now : UInt64) :
    StepMoves P s (.connectFinish now) := by
  refine stepMoves_still rfl rfl ?_
  simp only [step, stepConnect, SessionCalls.connectFinish]
  split
  · split
    · exact effect_of_update (sessions_session s.tun _) rfl rfl (by simp)
    · exact effect_of_seals (seals_wgSendKeepalive now)
  · exact effect_refl _

theorem stepMoves_callRekey (s : Endpoint) : StepMoves P s .callRekey := by
  refine stepMoves_still rfl rfl ?_
  simp only [step, stepRekey]
  split
  · exact effect_of_sameSessions ⟨rfl, rfl, rfl⟩
  · exact effect_refl _

theorem stepMoves_rekeyBegin (s : Endpoint) (d : InitDraws) (sent : Bool) :
    StepMoves P s (.rekeyBegin d sent) := by
  obtain ⟨tun, phase⟩ := s
  cases phase with
  | rekeying k saved =>
      refine ⟨.begun d.index, [], rfl, rfl, ?_⟩
      have hbegin := (@effect_beginAttempt P
        { tun with pendingResponse := [], pendingCookie := false } d).of_sameSessions
          (b := tun) ⟨rfl, rfl, rfl⟩
      simp only [step, stepRekey]
      split <;> exact hbegin
  | _ => exact stepMoves_still rfl rfl (effect_refl _)

theorem stepMoves_rekeyEnd (s : Endpoint) (now : UInt64) : StepMoves P s (.rekeyEnd now) := by
  obtain ⟨tun, phase⟩ := s
  cases phase with
  | rekeyWait k saved state => exact moves_rekeyEnd
  | _ => exact stepMoves_still rfl rfl (effect_refl _)

theorem stepMoves_rekeyFinish (s : Endpoint) (now : UInt64) :
    StepMoves P s (.rekeyFinish now) := by
  obtain ⟨tun, phase⟩ := s
  cases phase with
  | rekeyDone saved err =>
      by_cases herr : err = .ok
      · subst herr
        exact stepMoves_still rfl rfl (effect_of_seals (seals_wgSendKeepalive now))
      · refine ⟨.restored saved, [], (if_neg herr).symm, rfl, ?_⟩
        simp only [step, stepRekey, SessionCalls.rekeyFinish, if_pos herr]
        exact ⟨fun _ => rfl, rfl, fun _ h => .inl h⟩
  | _ => exact stepMoves_still rfl rfl (effect_refl _)

theorem stepMoves_recv (s : Endpoint) (inp : RecvInput) : StepMoves P s (.recv inp) := by
  have hdemand : demand P s (.recv inp) =
      acceptDemand s.tun (if s.tun.running then receivedKey P s.tun inp.result else none) := by
    obtain ⟨slot, result, d, now⟩ := inp
    cases result with
    | timeout => simp [demand, acceptsResponse, acceptedInit, handedInit, receivedKey]
    | error => simp [demand, acceptsResponse, acceptedInit, handedInit, receivedKey]
    | datagram buffer received src =>
        change acceptDemand s.tun (Option.bind (if s.tun.running then _ else _) _) = _
        split <;> rfl
  unfold StepMoves
  rw [hdemand]
  simp only [step, stepTunnel, checkedIn]
  split
  · exact moves_recvThreadIteration inp
  · exact (effect_refl _).moves

theorem stepMoves_keepalive (s : Endpoint) (now : UInt64) (clock : Nat → UInt64) :
    StepMoves P s (.keepalive now clock) := by
  change Moves s.tun _ .nothing none
  simp only [step, stepTunnel]
  split
  · exact moves_keepalivePass now clock
  · exact (effect_refl _).moves

/-- Every step of the machine is a move of the ledger. -/
theorem step_moves (s : Endpoint) (a : Action) : StepMoves P s a := by
  cases a with
  | addPeer publicKey relayHash ipRaw =>
      have hsessions := sessions_wgAddPeer s.tun publicKey relayHash ipRaw
      exact stepMoves_still rfl rfl (effect_of_sessions hsessions (by simp [step, stepTunnel]))
  | setRecvCallback cb user =>
      exact stepMoves_still rfl rfl (effect_of_sameSessions ⟨rfl, rfl, rfl⟩)
  | start recvThread keepaliveThread => exact stepMoves_start s recvThread keepaliveThread
  | stop => exact stepMoves_still rfl rfl (effect_of_sameSessions ⟨rfl, rfl, rfl⟩)
  | callConnect fd => exact stepMoves_callConnect s fd
  | connectBegin d sent => exact stepMoves_connectBegin s d sent
  | connectEnd result resp now => exact stepMoves_connectEnd s result resp now
  | connectFinish now => exact stepMoves_connectFinish s now
  | callRekey => exact stepMoves_callRekey s
  | rekeyBegin d sent => exact stepMoves_rekeyBegin s d sent
  | rekeyEnd now => exact stepMoves_rekeyEnd s now
  | rekeyFinish now => exact stepMoves_rekeyFinish s now
  | recv inp => exact stepMoves_recv s inp
  | keepalive now clock => exact stepMoves_keepalive s now clock
  | send data now sent =>
      exact stepMoves_still rfl rfl (effect_of_seals (seals_wgSend data now sent))
  | sendToPeer i data now sent =>
      exact stepMoves_still rfl rfl (effect_of_seals (seals_wgSendToPeer data now sent))
  | wgRecv result len now => exact moves_wgRecv result len now
  | output data ipaddr d now sent => exact moves_wgNetifOutput data ipaddr d now sent

def savedIndex : Phase → Option UInt32
  | .rekeying _ saved => some saved
  | .rekeyWait _ saved _ => some saved
  | .rekeyDone saved _ => some saved
  | _ => none

theorem acceptDemand_ne_mayRestore (tun : WgTunnel) (key : Option Key) (index : UInt32) :
    acceptDemand tun key ≠ .mayRestore index := by
  unfold acceptDemand
  split
  · split <;> exact Demand.noConfusion
  · exact Demand.noConfusion

theorem savedIndex_of_demand {s : Endpoint} {a : Action} {index : UInt32}
    (h : demand P s a = .mayRestore index) : savedIndex s.phase = some index := by
  unfold demand at h
  split at h
  · cases h
  · cases h
  · rename_i saved err hphase
    split at h
    · cases h
    · rw [hphase]
      exact congrArg some (Demand.mayRestore.inj h)
  · split at h
    · cases h
    · exact absurd h (acceptDemand_ne_mayRestore _ _ _)

/-- The index a rekey saves is the one in place when it starts. -/
theorem savedIndex_step {s : Endpoint} {a : Action} {index : UInt32}
    (h : savedIndex (step P s a).1.phase = some index) :
    savedIndex s.phase = some index ∨ index = s.tun.session.localIndex := by
  obtain ⟨tun, phase⟩ := s
  cases a with
  | callConnect fd =>
      simp only [step, stepConnect] at h
      split at h
      · split at h <;> cases h
      · exact .inl h
  | connectBegin d sent =>
      simp only [step, stepConnect] at h
      split at h
      · split at h <;> cases h
      · exact .inl h
  | connectEnd result resp now =>
      simp only [step, stepConnect] at h
      split at h
      · unfold connectNext at h
        split at h
        · cases h
        · split at h <;> cases h
      · exact .inl h
  | connectFinish now =>
      simp only [step, stepConnect] at h
      split at h
      · cases h
      · exact .inl h
  | callRekey =>
      simp only [step, stepRekey] at h
      split at h
      · exact .inr (Option.some.inj h).symm
      · exact .inl h
  | rekeyBegin d sent =>
      cases phase with
      | rekeying k saved =>
          simp only [step, stepRekey] at h
          split at h <;> exact .inl h
      | _ => exact .inl h
  | rekeyEnd now =>
      cases phase with
      | rekeyWait k saved state =>
          simp only [step, stepRekey, rekeyNext] at h
          split at h
          · exact .inl h
          · split at h <;> exact .inl h
      | _ => exact .inl h
  | rekeyFinish now =>
      cases phase with
      | rekeyDone saved err => cases h
      | _ => exact .inl h
  | _ => exact .inl h

end Steps

section Invariant

variable {P : Primitives}

/-- An index that is or may come back as one of the legacy session. -/
def LegacyIndex (o : Endpoint × Negotiated) (index : UInt32) : Prop :=
  index = o.1.tun.session.localIndex ∨ savedIndex o.1.phase = some index ∨
    (ledgerOf o.1.tun o.2).Tagged index

/-- What holds in every state: the ledger is consistent, all indices were drawn,
and no index belongs to both the legacy session and a table entry. -/
structure Tracked (o : Endpoint × Negotiated) (drawn : List UInt32) : Prop where
  consistent : (ledgerOf o.1.tun o.2).Consistent
  known : ∀ index, LegacyIndex o index → index = 0 ∨ index ∈ drawn
  knownPeers : ∀ index, PeerIndex o.1.tun index → index = 0 ∨ index ∈ drawn
  apart : ∀ index, LegacyIndex o index → PeerIndex o.1.tun index → index = 0

theorem tracked_initial (config : WgConfig) (endpoint : SockAddr) :
    Tracked (initial P config endpoint, .start) [] := by
  have hlegacy : ∀ index, LegacyIndex (initial P config endpoint, .start) index →
      index = 0 := by
    rintro index (hlocal | hsaved | ⟨t, ht | ht, -⟩)
    · exact hlocal
    · cases hsaved
    · cases ht
    · cases ht
  refine ⟨⟨?_, ?_⟩, fun index h => .inl (hlegacy index h), ?_, fun index h _ => hlegacy index h⟩
  · intro t ht
    cases ht
  · intro t ht
    cases ht
  · rintro index ⟨i, hlocal | hprev⟩
    · exact .inl hlocal
    · exact .inl hprev

/-- The ledger after a step whose move is known. -/
theorem ledgerOf_step {s : Endpoint} {a : Action} {m : Move} {entries : List UInt32}
    (heffect : Effect s.tun ((step P s a).1.tun, (step P s a).2) m entries)
    (hchecks : m.checks = (checkedIn P s a).bind slotCheck) (g : Negotiated) :
    ledgerOf (step P s a).1.tun (follow P g s a) =
      ((ledgerOf s.tun g).tick (timeOf a)).apply m := by
  unfold follow
  rw [← hchecks]
  exact heffect.ledger (g.tick (timeOf a))

/-- A step brings in no legacy index except the one its move draws. -/
theorem legacyIndex_step {s : Endpoint} {g : Negotiated} {a : Action} {m : Move}
    (hledger : ledgerOf (step P s a).1.tun (follow P g s a) =
      ((ledgerOf s.tun g).tick (timeOf a)).apply m)
    (hdemand : m.demand = demand P s a) {index : UInt32}
    (h : LegacyIndex (shadow (step P) (follow P) (s, g) a).1 index) :
    LegacyIndex (s, g) index ∨ index = 0 ∨ index ∈ m.draws := by
  rcases h with hindex | hsaved | htagged
  · have hlocal : index = (((ledgerOf s.tun g).tick (timeOf a)).apply m).session.localIndex :=
      hindex.trans (congrArg (fun l : Ledger => l.session.localIndex) hledger)
    rcases Ledger.localIndex_apply ((ledgerOf s.tun g).tick (timeOf a)) m with hsame | hzero |
        hdrawn | hback
    · exact .inl (.inl (hlocal.trans hsame))
    · exact .inr (.inl (hlocal.trans hzero))
    · exact .inr (.inr (hlocal ▸ hdrawn))
    · have hrestore : demand P s a = .mayRestore index :=
        hdemand.symm.trans ((congrArg Move.demand hback).trans (by rw [hlocal]; rfl))
      exact .inl (.inr (.inl (savedIndex_of_demand hrestore)))
  · rcases savedIndex_step hsaved with hold | hlocal
    · exact .inl (.inr (.inl hold))
    · exact .inl (.inl hlocal)
  · have htagged' : (((ledgerOf s.tun g).tick (timeOf a)).apply m).Tagged index := by
      rw [← hledger]
      exact htagged
    rcases Ledger.tagged_apply htagged' with hold | hlocal | hdrawn
    · exact .inl (.inr (.inr hold))
    · exact .inl (.inl hlocal)
    · exact .inr (.inr hdrawn)

/-- Drawn indices are fresh, so one that is drawn for the legacy session is none
of a table entry, and the other way round. -/
theorem tracked_step {s : Endpoint} {g : Negotiated} {drawn : List UInt32} {a : Action}
    (h : Tracked (s, g) drawn) (hnodup : (drawn ++ drawnIndices (step P s a).2).Nodup) :
    Tracked (shadow (step P) (follow P) (s, g) a).1
      (drawn ++ drawnIndices (step P s a).2) := by
  obtain ⟨m, entries, hdemand, hchecks, heffect⟩ := @step_moves P s a
  have hledger := ledgerOf_step heffect hchecks g
  have hdrawn : drawnIndices (step P s a).2 = m.draws ++ entries := heffect.drawn
  rw [hdrawn] at hnodup ⊢
  have hlegacy : ∀ index, LegacyIndex (shadow (step P) (follow P) (s, g) a).1 index →
      LegacyIndex (s, g) index ∨ index = 0 ∨ index ∈ m.draws :=
    fun index => legacyIndex_step hledger hdemand
  have hpeers := heffect.peers
  obtain ⟨-, hdraws, hfresh⟩ := List.nodup_append.mp hnodup
  obtain ⟨-, -, hapart⟩ := List.nodup_append.mp hdraws
  refine ⟨?_, fun index hindex => ?_, fun index hindex => ?_, fun index hl hp => ?_⟩
  · change (ledgerOf (step P s a).1.tun (follow P g s a)).Consistent
    rw [hledger]
    exact Ledger.consistent_apply (Ledger.consistent_tick h.consistent _) m
  · rcases hlegacy index hindex with hold | hzero | hdrawn
    · exact (h.known index hold).imp_right (List.mem_append_left _)
    · exact .inl hzero
    · exact .inr (List.mem_append_right _ (List.mem_append_left _ hdrawn))
  · rcases hpeers index hindex with hold | hzero | hdrawn
    · exact (h.knownPeers index hold).imp_right (List.mem_append_left _)
    · exact .inl hzero
    · exact .inr (List.mem_append_right _ (List.mem_append_right _ hdrawn))
  · rcases hlegacy index hl with hold | hzero | hdrawn
    · rcases hpeers index hp with hpold | hpzero | hpdrawn
      · exact h.apart index hold hpold
      · exact hpzero
      · refine (h.known index hold).resolve_right fun hmem => ?_
        exact hfresh index hmem index (List.mem_append_right _ hpdrawn) rfl
    · exact hzero
    · rcases hpeers index hp with hpold | hpzero | hpdrawn
      · refine (h.knownPeers index hpold).resolve_right fun hmem => ?_
        exact hfresh index hmem index (List.mem_append_left _ hdrawn) rfl
      · exact hpzero
      · exact absurd rfl (hapart index hdrawn index hpdrawn)

end Invariant

section Dispatch

variable {P : Primitives}

/-- A packet to the index of the current session, or of the previous one at a time from
now on that finds it unexpired, is processed with the key and the replay window of that
session. -/
structure Dispatched (o : Endpoint × Negotiated) : Prop where
  current : ∀ t ∈ o.2.current, selectSession o.1.tun t.index = some .legacy ∧
    o.1.tun.session.receivingKey = t.key ∧ o.1.tun.session.replay = t.window
  previous : ∀ t ∈ o.2.previous, ∀ now, o.2.clock ≤ now →
    o.1.tun.prevSession.valid = true → ¬ o.1.tun.prevSession.Expired now →
    selectSession o.1.tun t.index = some .legacyPrev ∧
      o.1.tun.prevSession.receivingKey = t.key ∧ o.1.tun.prevSession.replay = t.window

/-- Every step meets its demand at the time of the step. -/
def Orderly (P : Primitives) (o : Endpoint × Negotiated) (a : Action) : Prop :=
  (ledgerOf o.1.tun (o.2.tick (timeOf a))).Meets (demand P o.1 a)

instance (o : Endpoint × Negotiated) (a : Action) : Decidable (Orderly P o a) :=
  inferInstanceAs (Decidable (Ledger.Meets _ _))

theorem peerIndex_of_selectPeerSession {tun : WgTunnel} {index : UInt32} {ref : SessionRef}
    (h : selectPeerSession tun index = some ref) : PeerIndex tun index := by
  unfold selectPeerSession at h
  split at h
  · cases h
  · rename_i i hfind
    dsimp only at h
    split at h
    · rename_i hlocal
      exact ⟨i, .inl hlocal⟩
    · split at h
      · rename_i hprev
        exact ⟨i, .inr hprev.2⟩
      · cases h

theorem selectSession_of_apart {tun : WgTunnel} {index : UInt32}
    (h : ¬ PeerIndex tun index) :
    selectSession tun index = selectLegacySession tun index := by
  have hnone : selectPeerSession tun index = none := by
    cases hselect : selectPeerSession tun index with
    | none => rfl
    | some ref => exact absurd (peerIndex_of_selectPeerSession hselect) h
  simp only [selectSession, hnone]

def slotRef : Slot → SessionRef
  | .current => .legacy
  | .previous => .legacyPrev

/-- The lookup of the receive loop is the one of the ledger. -/
theorem selectLegacySession_eq_lookup (tun : WgTunnel) (g : Negotiated) (index : UInt32) :
    selectLegacySession tun index = ((ledgerOf tun g).lookup index).map slotRef := by
  unfold selectLegacySession Ledger.lookup
  change _ = Option.map slotRef
    (if index = tun.session.localIndex then some Slot.current
      else if index = tun.session.oldLocalIndex then some .current
      else if tun.prevSession.valid ∧ index = tun.prevSession.localIndex then some .previous
      else none)
  split
  · rfl
  · split
    · rfl
    · split <;> rfl

theorem selectSession_iff_lookup {o : Endpoint × Negotiated} {drawn : List UInt32}
    (h : Tracked o drawn) {index : UInt32} (htagged : (ledgerOf o.1.tun o.2).Tagged index)
    (hne : index ≠ 0) (slot : Slot) :
    selectSession o.1.tun index = some (slotRef slot) ↔
      (ledgerOf o.1.tun o.2).lookup index = some slot := by
  have hinjective : Injective slotRef := by
    intro a b hab
    cases a <;> cases b <;> first | rfl | cases hab
  rw [selectSession_of_apart fun hpeer => hne (h.apart index (.inr (.inr htagged)) hpeer),
    selectLegacySession_eq_lookup o.1.tun o.2]
  exact (Option.map_injective hinjective).eq_iff (b := some slot)

theorem live_cardOf_iff (sess : WgSession) (clock : UInt64) :
    (cardOf sess).Live clock ↔ ∃ now, clock ≤ now ∧ ¬ sess.Expired now := by
  rw [Card.live_iff]
  exact exists_congr fun now => and_congr_right fun _ => UInt64.not_le.symm

theorem dispatched_iff_sound {o : Endpoint × Negotiated} {drawn : List UInt32}
    (h : Tracked o drawn) : Dispatched o ↔ (ledgerOf o.1.tun o.2).Sound := by
  have hcurrent : ∀ t ∈ o.2.current, (selectSession o.1.tun t.index = some .legacy ↔
      (ledgerOf o.1.tun o.2).lookup t.index = some .current) := fun t ht =>
    selectSession_iff_lookup h ⟨t, .inl ht, rfl⟩ (h.consistent.current t ht).2.2 .current
  have hprevious : ∀ t ∈ o.2.previous, (selectSession o.1.tun t.index = some .legacyPrev ↔
      (ledgerOf o.1.tun o.2).lookup t.index = some .previous) := fun t ht =>
    selectSession_iff_lookup h ⟨t, .inr ht, rfl⟩ (h.consistent.previous t ht).1 .previous
  constructor
  · intro hgood
    refine ⟨fun t ht => ?_, fun t ht hkept => ?_⟩
    · obtain ⟨hfound, hserves⟩ := hgood.current t ht
      exact ⟨(hcurrent t ht).mp hfound, hserves⟩
    · obtain ⟨now, hnow, hfresh⟩ := (live_cardOf_iff _ _).mp hkept.2
      obtain ⟨hfound, hserves⟩ := hgood.previous t ht now hnow hkept.1 hfresh
      exact ⟨(hprevious t ht).mp hfound, hserves⟩
  · intro hsound
    refine ⟨fun t ht => ?_, fun t ht now hnow hvalid hfresh => ?_⟩
    · obtain ⟨hfound, hserves⟩ := hsound.current t ht
      exact ⟨(hcurrent t ht).mpr hfound, hserves⟩
    · obtain ⟨hfound, hserves⟩ := hsound.previous t ht
        ⟨hvalid, (live_cardOf_iff _ _).mpr ⟨now, hnow, hfresh⟩⟩
      exact ⟨(hprevious t ht).mpr hfound, hserves⟩

theorem dispatched_step_iff {s : Endpoint} {g : Negotiated} {drawn : List UInt32} {a : Action}
    (h : Tracked (s, g) drawn) (hnodup : (drawn ++ drawnIndices (step P s a).2).Nodup)
    (hzero : 0 ∉ drawn ++ drawnIndices (step P s a).2) (hgood : Dispatched (s, g)) :
    Dispatched (shadow (step P) (follow P) (s, g) a).1 ↔ Orderly P (s, g) a := by
  obtain ⟨m, entries, hdemand, hchecks, heffect⟩ := @step_moves P s a
  have hdrawn : drawnIndices (step P s a).2 = m.draws ++ entries := heffect.drawn
  have hfresh : ((ledgerOf s.tun g).tick (timeOf a)).FreshFor m := by
    intro index htagged hmem
    have hnew : index ∈ drawnIndices (step P s a).2 := by
      rw [hdrawn]
      exact List.mem_append_left _ hmem
    rcases h.known index (.inr (.inr htagged)) with heq | hold
    · exact hzero (List.mem_append_right _ (heq ▸ hnew))
    · exact (List.nodup_append.mp hnodup).2.2 _ hold _ hnew rfl
  have hsound := Ledger.sound_tick ((dispatched_iff_sound h).mp hgood) (timeOf a)
  have hstep := Ledger.sound_apply_iff (Ledger.consistent_tick h.consistent (timeOf a)) hsound
    hfresh
  rw [dispatched_iff_sound (tracked_step h hnodup)]
  rw [hdemand, ← ledgerOf_step heffect hchecks g] at hstep
  exact hstep

variable (P)

/-- Along a run from `wg_init` with distinct non-zero indices, all states dispatch
packets to the session they were negotiated for exactly if all steps are
orderly. -/
theorem packets_dispatched_iff (config : WgConfig) (endpoint : SockAddr)
    (actions : List Action)
    (hnodup : (drawnIndices (run (step P) (initial P config endpoint) actions).2).Nodup)
    (hzero : 0 ∉ drawnIndices (run (step P) (initial P config endpoint) actions).2) :
    AllStates (shadow (step P) (follow P)) Dispatched
        (initial P config endpoint, .start) actions ↔
      AllSteps (shadow (step P) (follow P)) (Orderly P)
        (initial P config endpoint, .start) actions := by
  let fresh : List Event → Prop := fun log => (drawnIndices log).Nodup ∧ 0 ∉ drawnIndices log
  let tracked : Endpoint × Negotiated → List Event → Prop :=
    fun o log => Tracked o (drawnIndices log)
  have hclosed : ∀ out out', fresh (out ++ out') → fresh out := by
    rintro out out' ⟨hn, hz⟩
    rw [drawnIndices_append] at hn hz
    exact ⟨(List.nodup_append.mp hn).1, fun hmem => hz (List.mem_append_left _ hmem)⟩
  have hall : fresh ([] ++ (run (shadow (step P) (follow P))
      (initial P config endpoint, .start) actions).2) := by
    rw [List.nil_append, (run_shadow (step P) (follow P) _ actions).2]
    exact ⟨hnodup, hzero⟩
  have hstart : tracked (initial P config endpoint, .start) [] :=
    tracked_initial config endpoint
  refine allStates_iff_allSteps (I := tracked) (N := fresh) _ hclosed ?_ ?_ hstart hall ?_
  · rintro ⟨s, g⟩ log a hinv ⟨hn, -⟩
    change Tracked _ (drawnIndices (log ++ (step P s a).2))
    rw [drawnIndices_append] at hn ⊢
    exact tracked_step hinv hn
  · rintro ⟨s, g⟩ log a hinv ⟨hn, hz⟩ hgood
    rw [drawnIndices_append] at hn hz
    exact dispatched_step_iff hinv hn hz hgood
  · constructor
    · intro t ht
      cases ht
    · intro t ht
      cases ht

end Dispatch

/-- Two INITs of the peer are accepted, one by `wg_connect` and one by the receive
loop. -/
def passiveRun : List Action :=
  let init := sampleInit 5 3 ⟨sampleKey 31, 31, Vector.replicate 12 31, 2000⟩
  connectAnsweredBy (sampleKey 5) 21 1000 ++
    [.start true true,
      .recv ⟨true, .ofBytes init.toBytes none, ⟨sampleKey 33, 33, 2000⟩, 2000⟩]

theorem packets_dispatched_passive :
    let s := initial additive sampleConfig ⟨0, 51820⟩
    (drawnIndices (run (step additive) s passiveRun).2).Nodup ∧
      0 ∉ drawnIndices (run (step additive) s passiveRun).2 ∧
      AllStates (shadow (step additive) (follow additive)) Dispatched (s, .start)
        passiveRun := by
  intro s
  have hrun : (drawnIndices (run (step additive) s passiveRun).2).Nodup ∧
      0 ∉ drawnIndices (run (step additive) s passiveRun).2 ∧
      AllSteps (shadow (step additive) (follow additive)) (Orderly additive) (s, .start)
        passiveRun := by
    rw [← (run_shadow (step additive) (follow additive) (s, .start) passiveRun).2]
    decide +kernel
  obtain ⟨hnodup, hzero, horderly⟩ := hrun
  exact ⟨hnodup, hzero,
    (packets_dispatched_iff additive sampleConfig ⟨0, 51820⟩ passiveRun hnodup hzero).mpr
      horderly⟩

/-- A session is accepted under index 23 and then rekeyed with the first attempt. -/
def rekeyedRun : List Action :=
  let draws : InitDraws := ⟨sampleKey 41, 41, Vector.replicate 12 41, 2000⟩
  let answer := sampleAnswer 5 zeroKey (sampleInit 3 5 draws) ⟨sampleKey 43, 43, 2000⟩
  connectAnsweredBy (sampleKey 5) 21 1000 ++
    [.start true true, .callRekey, .rekeyBegin draws true,
      .recv ⟨true, .ofBytes answer.toBytes none, ⟨zeroKey, 0, 0⟩, 2000⟩, .rekeyEnd 3000,
      .rekeyFinish 3000]

/-- The rekey succeeds and the session negotiated under index 23 is kept as the
previous one, not yet expired, but packets to index 23 are processed with the new session. -/
theorem previous_index_misdirected :
    let s := initial additive sampleConfig ⟨0, 51820⟩
    let o := (run (shadow (step additive) (follow additive)) (s, .start) rekeyedRun).1
    drawnIndices (run (step additive) s rekeyedRun).2 = [22, 23, 41] ∧
      o.1.phase = .idle .ok ∧ o.1.tun.prevSession.valid = true ∧
      ¬ o.1.tun.prevSession.Expired o.2.clock ∧
      o.2.previous =
        some ⟨23, o.1.tun.prevSession.receivingKey, o.1.tun.prevSession.replay⟩ ∧
      selectSession o.1.tun 23 = some .legacy ∧
      o.1.tun.session.receivingKey ≠ o.1.tun.prevSession.receivingKey := by
  intro s
  -- The outputs are read off the run with the record, which is evaluated once.
  rw [← (run_shadow (step additive) (follow additive) (s, .start) rekeyedRun).2]
  decide +kernel

end WgNx.SessionDispatch
