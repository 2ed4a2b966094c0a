import WgNx.TransportReceive

/-!
What a transport packet that nobody authenticated can change.

`view` is the part of a tunnel that such a packet must not touch.  The two
handlers compute on it differently, so each has its own lemma; both rest on
`rejected_unchanged_iff` for the replay window.
-/

namespace WgNx.Authentication

open WgNx.ByteLayout
open WgNx.CryptoPrimitives
open WgNx.NoiseHandshake
open WgNx.ReplayCounter
open WgNx.TransportReceive
open WgNx.TransportSend
open WgNx.TunnelSetup
open WgNx.TunnelState
open WgNx.WireMessages

structure SessionView where
  sendingKey : Key
  receivingKey : Key
  sendingCounter : UInt64
  receivingCounter : UInt64
  replay : WgReplayCounter
  lastReceived : UInt64
  deriving DecidableEq

def sessionView (sess : WgSession) : SessionView :=
  ⟨sess.sendingKey, sess.receivingKey, sess.sendingCounter, sess.receivingCounter,
    sess.replay, sess.lastReceived⟩

structure PeerView where
  session : SessionView
  prevSession : SessionView
  connected : Bool
  lastSent : UInt64
  deriving DecidableEq

def peerView (peer : WgPeer) : PeerView :=
  ⟨sessionView peer.session, sessionView peer.prevSession, peer.connected, peer.lastSent⟩

structure TunnelView where
  session : SessionView
  prevSession : SessionView
  peers : List PeerView
  endpoint : SockAddr
  deriving DecidableEq

def view (tun : WgTunnel) : TunnelView :=
  ⟨sessionView tun.session, sessionView tun.prevSession,
    tun.peers.entries.map peerView, tun.endpoint⟩

theorem peerView_get_of_view_eq {a b : WgTunnel} (h : view a = view b) (i : Nat) :
    peerView (a.peers.get i) = peerView (b.peers.get i) := by
  have hpeers : a.peers.entries.map peerView = b.peers.entries.map peerView :=
    congrArg TunnelView.peers h
  have hget : ∀ t : PeerTable,
      peerView (t.get i) = (t.entries.map peerView).getD i (peerView .zeroed) := by
    intro t
    simp only [PeerTable.get, List.getD_eq_getElem?_getD, List.getElem?_map]
    cases t.entries[i]? with
    | none => rfl
    | some p => rfl
  rw [hget, hget, hpeers]

theorem sessionView_of_view_eq {a b : WgTunnel} (h : view a = view b) (ref : SessionRef) :
    sessionView (a.getSession ref) = sessionView (b.getSession ref) := by
  cases ref with
  | legacy => exact congrArg TunnelView.session h
  | legacyPrev => exact congrArg TunnelView.prevSession h
  | peer i => exact congrArg PeerView.session (peerView_get_of_view_eq h i)
  | peerPrev i => exact congrArg PeerView.prevSession (peerView_get_of_view_eq h i)

theorem replay_of_sessionView_eq {a b : WgSession} (h : sessionView a = sessionView b) :
    a.replay = b.replay :=
  congrArg SessionView.replay h

/-- Nothing in the view changed, unless the addressed session was an expired
previous one and has been wiped. -/
def Unaffected (before after : WgTunnel) (addressed : Option SessionRef) (now : UInt64) :
    Prop :=
  view after = view before ∨
    ∃ ref, addressed = some ref ∧ (before.getSession ref).Expired now ∧
      view after = view (dropExpired before ref)

/-- The tag is wrong, or the replay window rejects the counter. -/
def Unauthenticated (P : Primitives) (sess : WgSession) (buffer : Bytes) (received : Nat) :
    Prop :=
  openTransport P sess buffer received = none ∨
    (wgCounterValidate sess.replay (getU64 buffer 8)).1 = false

instance (P : Primitives) (sess : WgSession) (buffer : Bytes) (received : Nat) :
    Decidable (Unauthenticated P sess buffer received) :=
  inferInstanceAs (Decidable (_ ∨ _))

/-- The session an iteration of the receive loop takes a transport packet to. -/
def addressedInLoop (tun : WgTunnel) (buffer : Bytes) (received : Nat) : Option SessionRef :=
  if received < sizeofTransport + wgAeadTagLen then none
  else selectSession tun (getU32 buffer 4)

/-- The session `wg_recv` takes a transport packet to. -/
def addressedInRecv (tun : WgTunnel) (buffer : Bytes) (received : Nat) : Option SessionRef :=
  if received < sizeofTransport + wgAeadTagLen then none
  else if tun.session.valid ∧ getU32 buffer 4 = tun.session.localIndex then some .legacy
  else none

/-- The packet has a payload, so that its tag is looked at, and it does not meet
a stale bit of the replay window with a tag that verifies. -/
def Inert (P : Primitives) (sess : WgSession) (buffer : Bytes) (received : Nat) : Prop :=
  received ≠ sizeofTransport + wgAeadTagLen ∧
    ¬ ((openTransport P sess buffer received).isSome ∧
      StaleBit sess.replay (getU64 buffer 8))

instance (P : Primitives) (sess : WgSession) (buffer : Bytes) (received : Nat) :
    Decidable (Inert P sess buffer received) :=
  inferInstanceAs (Decidable (_ ∧ _))

theorem not_expired_at_handshake (sess : WgSession) : ¬ sess.Expired sess.lastHandshake := by
  simp only [WgSession.Expired, UInt64.sub_self]
  decide

theorem not_expired_after_handshake (sess : WgSession) :
    ¬ sess.Expired (sess.lastHandshake + 1) := by
  have hage : sess.lastHandshake + 1 - sess.lastHandshake = 1 := by
    rw [UInt64.add_comm, UInt64.add_sub_cancel]
  simp only [WgSession.Expired, hage]
  decide

/-- Some clock value is neither past the expiry of a session nor equal to the
one it already holds. -/
theorem exists_fresh_clock (sess : WgSession) :
    ∃ now, ¬ sess.Expired now ∧ now ≠ sess.lastReceived := by
  rcases eq_or_ne sess.lastHandshake sess.lastReceived with heq | hne
  · refine ⟨sess.lastHandshake + 1, not_expired_after_handshake sess, ?_⟩
    rw [← heq]
    intro h
    exact absurd (UInt64.add_eq_left.mp h) (by decide)
  · exact ⟨sess.lastHandshake, not_expired_at_handshake sess, hne⟩

section NoteSource

variable (tun : WgTunnel) (src : Option SockAddr)

@[simp] theorem getSession_noteSource (ref : SessionRef) :
    (noteSource tun src).getSession ref = tun.getSession ref := by
  cases src <;> cases ref <;> rfl

@[simp] theorem view_noteSource : view (noteSource tun src) = view tun := by
  cases src <;> rfl

@[simp] theorem selectSession_noteSource (receiverIndex : UInt32) :
    selectSession (noteSource tun src) receiverIndex = selectSession tun receiverIndex := by
  cases src <;> rfl

@[simp] theorem view_dropExpired_noteSource (ref : SessionRef) :
    view (dropExpired (noteSource tun src) ref) = view (dropExpired tun ref) := by
  cases src <;> cases ref <;> rfl

end NoteSource

section ReceiveLoop

variable {P : Primitives} {tun : WgTunnel} {buffer : Bytes} {received : Nat}

/-- An inert unauthenticated packet leaves the view alone and nothing is
delivered. -/
theorem recvTransport_unaffected (slot : Bool) (now : UInt64)
    (hforged : ∀ ref, selectSession tun (getU32 buffer 4) = some ref →
      Unauthenticated P (tun.getSession ref) buffer received)
    (hinert : ∀ ref, selectSession tun (getU32 buffer 4) = some ref →
      Inert P (tun.getSession ref) buffer received)
    (hlong : ¬ received < sizeofTransport + wgAeadTagLen) :
    Unaffected tun (recvTransport P tun buffer received slot now).1
        (selectSession tun (getU32 buffer 4)) now ∧
      (recvTransport P tun buffer received slot now).2 = [] := by
  generalize hout : recvTransport P tun buffer received slot now = out
  have hcase := recvTransport_cases P tun buffer received slot now
  rw [hout] at hcase
  cases hcase with
  | unknown hselect => exact ⟨.inl rfl, rfl⟩
  | expired ref hselect hexpired => exact ⟨.inr ⟨ref, hselect, hexpired, rfl⟩, rfl⟩
  | empty ref hselect hfresh hlen =>
      exfalso
      apply (hinert ref hselect).1
      omega
  | badTag ref hselect hfresh hlen hopen => exact ⟨.inl rfl, rfl⟩
  | replayed ref plaintext hselect hfresh hlen hopen hverdict =>
      have hstale : ¬ StaleBit (tun.getSession ref).replay (getU64 buffer 8) := by
        intro hstale
        exact (hinert ref hselect).2 ⟨by simp [hopen], hstale⟩
      have hsame := (rejected_unchanged_iff hverdict).mpr hstale
      refine ⟨.inl ?_, rfl⟩
      rw [hsame, modifySession_eq_self]
      rfl
  | accepted ref plaintext hselect hfresh hlen hopen hverdict =>
      exfalso
      rcases hforged ref hselect with htag | hreplay
      · rw [hopen] at htag
        cases htag
      · rw [hverdict] at hreplay
        exact Bool.noConfusion hreplay

/-- At some clock value a packet that is not inert changes the session it
addresses. -/
theorem recvTransport_affected {ref : SessionRef}
    (hselect : selectSession tun (getU32 buffer 4) = some ref)
    (hforged : Unauthenticated P (tun.getSession ref) buffer received)
    (hactive : ¬ Inert P (tun.getSession ref) buffer received)
    (slot : Bool) :
    ∃ now, ¬ Unaffected tun (recvTransport P tun buffer received slot now).1
      (some ref) now := by
  have href := holds_of_selectSession hselect
  obtain ⟨now, hnow, hdiff⟩ := exists_fresh_clock (tun.getSession ref)
  refine ⟨now, ?_⟩
  -- At this clock value the session is not expired, so wiping is no excuse.
  suffices hview : view (recvTransport P tun buffer received slot now).1 ≠ view tun by
    rintro (hsame | ⟨ref', heq, hexpired, -⟩)
    · exact hview hsame
    · cases heq
      exact hnow hexpired
  intro hview
  have hsession := sessionView_of_view_eq hview ref
  generalize hout : recvTransport P tun buffer received slot now = out at hsession
  have hcase := recvTransport_cases P tun buffer received slot now
  rw [hout] at hcase
  cases hcase with
  | unknown hnone =>
      rw [hselect] at hnone
      cases hnone
  | expired ref' hselect' hexpired =>
      cases hselect.symm.trans hselect'
      exact hnow hexpired
  | empty ref' hselect' hfresh hlen =>
      cases hselect.symm.trans hselect'
      rw [sessions_emptyReceived href, Function.update_self] at hsession
      exact hdiff (congrArg SessionView.lastReceived hsession)
  | badTag ref' hselect' hfresh hlen hopen =>
      cases hselect.symm.trans hselect'
      apply hactive
      refine ⟨?_, ?_⟩
      · intro heq
        apply hlen
        omega
      · rintro ⟨hsome, -⟩
        rw [hopen] at hsome
        exact Bool.noConfusion hsome
  | replayed ref' plaintext hselect' hfresh hlen hopen hverdict =>
      cases hselect.symm.trans hselect'
      rw [getSession_modifySession href] at hsession
      have hsame := replay_of_sessionView_eq hsession
      dsimp only at hsame
      apply hactive
      refine ⟨?_, ?_⟩
      · intro heq
        apply hlen
        omega
      · rintro ⟨-, hstale⟩
        exact (rejected_unchanged_iff hverdict).mp hsame hstale
  | accepted ref' plaintext hselect' hfresh hlen hopen hverdict =>
      cases hselect.symm.trans hselect'
      rcases hforged with htag | hreplay
      · rw [hopen] at htag
        cases htag
      · rw [hverdict] at hreplay
        exact Bool.noConfusion hreplay

theorem recvThreadIteration_transport (htype : getType buffer = wgMsgTransport)
    (src : Option SockAddr) (slot : Bool) (draws : RespDraws) (now : UInt64) :
    recvThreadIteration P tun ⟨slot, .datagram buffer received src, draws, now⟩ =
      if received < sizeofTransport + wgAeadTagLen then (noteSource tun src, [])
      else recvTransport P (noteSource tun src) buffer received slot now := by
  simp [recvThreadIteration, recvDatagram, htype]

theorem loop_unaffected_iff (htype : getType buffer = wgMsgTransport)
    (src : Option SockAddr)
    (hforged : ∀ ref, addressedInLoop tun buffer received = some ref →
      Unauthenticated P (tun.getSession ref) buffer received) :
    (∀ slot draws now,
      let out := recvThreadIteration P tun
        ⟨slot, .datagram buffer received src, draws, now⟩
      Unaffected tun out.1 (addressedInLoop tun buffer received) now ∧ out.2 = []) ↔
    ∀ ref, addressedInLoop tun buffer received = some ref →
      Inert P (tun.getSession ref) buffer received := by
  simp only [recvThreadIteration_transport htype]
  unfold addressedInLoop at hforged ⊢
  split
  · simp [Unaffected]
  · rename_i hlong
    simp only [hlong, if_false] at hforged
    have hforged' : ∀ ref,
        selectSession (noteSource tun src) (getU32 buffer 4) = some ref →
        Unauthenticated P ((noteSource tun src).getSession ref) buffer received := by
      simpa using hforged
    constructor
    · intro h ref hselect
      by_contra hactive
      have hselect' : selectSession (noteSource tun src) (getU32 buffer 4) = some ref := by
        simpa using hselect
      obtain ⟨now, hnow⟩ := recvTransport_affected hselect' (hforged' ref hselect')
        (by simpa using hactive) true
      apply hnow
      simpa [Unaffected, hselect] using (h true ⟨zeroKey, 0, 0⟩ now).1
    · intro h slot draws now
      simpa [Unaffected] using recvTransport_unaffected slot now hforged'
        (by simpa using h) hlong

end ReceiveLoop

section BlockingRecv

variable {P : Primitives} {tun : WgTunnel} {buffer : Bytes} {received : Nat}

theorem addressedInRecv_eq_some {ref : SessionRef}
    (h : addressedInRecv tun buffer received = some ref) :
    ref = .legacy ∧ ¬ received < sizeofTransport + wgAeadTagLen ∧
      tun.session.valid = true ∧ getU32 buffer 4 = tun.session.localIndex := by
  unfold addressedInRecv at h
  split at h
  · cases h
  · rename_i hlong
    split at h
    · rename_i hmatch
      cases h
      exact ⟨rfl, hlong, hmatch⟩
    · cases h

@[simp] theorem session_noteSource (src : Option SockAddr) :
    (noteSource tun src).session = tun.session := by
  cases src <;> rfl

/-- A call that does not get as far as the payload reports an error. -/
theorem wgRecv_cases (htype : getType buffer = wgMsgTransport) (src : Option SockAddr)
    (len : Nat) (now : UInt64) :
    (∃ err tun', view tun' = view tun ∧
      wgRecv P tun (.datagram buffer received src) len now = (.error err, tun', [])) ∨
    addressedInRecv tun buffer received = some .legacy ∧
      wgRecv P tun (.datagram buffer received src) len now =
        recvPayload P (noteSource tun src) buffer received now := by
  unfold wgRecv
  cases hvalid : tun.session.valid with
  | false => exact .inl ⟨_, tun, rfl, rfl⟩
  | true =>
      simp only [Bool.not_true, Bool.false_eq_true, if_false, htype, ne_eq, not_true_eq_false,
        session_noteSource]
      split
      · exact .inl ⟨_, _, view_noteSource tun src, rfl⟩
      · rename_i hlong
        split
        · exact .inl ⟨_, _, view_noteSource tun src, rfl⟩
        · rename_i hindex
          split
          · exact .inl ⟨_, _, view_noteSource tun src, rfl⟩
          · refine .inr ⟨?_, rfl⟩
            simp only [addressedInRecv, hlong, if_false, hvalid, true_and]
            rw [if_pos (not_not.mp hindex)]

theorem recvPayload_unaffected (src : Option SockAddr) (now : UInt64)
    (hlong : ¬ received < sizeofTransport + wgAeadTagLen)
    (hforged : Unauthenticated P tun.session buffer received)
    (hinert : Inert P tun.session buffer received) :
    let out := recvPayload P (noteSource tun src) buffer received now
    (∃ err, out.1 = .error err) ∧ view out.2.1 = view tun ∧ out.2.2 = [] := by
  have hlen : received - sizeofTransport - wgAeadTagLen ≠ 0 := by
    intro h
    apply hinert.1
    omega
  simp only [recvPayload, hlen, if_false, session_noteSource]
  cases hopen : openTransport P tun.session buffer received with
  | none => exact ⟨⟨_, rfl⟩, view_noteSource tun src, rfl⟩
  | some plaintext =>
      have hverdict :
          (wgCounterValidate tun.session.replay (getU64 buffer 8)).1 = false := by
        rcases hforged with htag | hreplay
        · rw [hopen] at htag
          cases htag
        · exact hreplay
      have hsame := (rejected_unchanged_iff hverdict).mpr
        fun hstale => hinert.2 ⟨by simp [hopen], hstale⟩
      dsimp only
      rw [hverdict, hsame]
      refine ⟨⟨_, rfl⟩, ?_, rfl⟩
      cases src <;> rfl

theorem recvPayload_affected (src : Option SockAddr)
    (hactive : ¬ Inert P tun.session buffer received) (now : UInt64) :
    let out := recvPayload P (noteSource tun src) buffer received now
    ¬ ((∃ err, out.1 = .error err) ∧ view out.2.1 = view tun) := by
  intro out
  rintro ⟨⟨err, herr⟩, hview⟩
  apply hactive
  revert herr hview
  change view (recvPayload P (noteSource tun src) buffer received now).2.1 = _ →
    (recvPayload P (noteSource tun src) buffer received now).1 = _ → _
  unfold recvPayload
  split
  · intro _ herr
    cases herr
  · rename_i hlen
    simp only [session_noteSource]
    cases hopen : openTransport P tun.session buffer received with
    | none =>
        intro _ _
        refine ⟨?_, by simp [hopen]⟩
        intro heq
        apply hlen
        omega
    | some plaintext =>
        dsimp only
        cases hverdict : (wgCounterValidate tun.session.replay (getU64 buffer 8)).1 with
        | true =>
            intro _ herr
            cases herr
        | false =>
            intro hview _
            have hsame := replay_of_sessionView_eq (sessionView_of_view_eq hview .legacy)
            simp only [WgTunnel.getSession, Bool.not_false, if_true] at hsame
            refine ⟨?_, ?_⟩
            · intro heq
              apply hlen
              omega
            · rintro ⟨-, hstale⟩
              exact (rejected_unchanged_iff hverdict).mp hsame hstale

theorem recv_unaffected_iff (htype : getType buffer = wgMsgTransport)
    (src : Option SockAddr)
    (hforged : ∀ ref, addressedInRecv tun buffer received = some ref →
      Unauthenticated P (tun.getSession ref) buffer received) :
    (∀ len now,
      let out := wgRecv P tun (.datagram buffer received src) len now
      (∃ err, out.1 = .error err) ∧ view out.2.1 = view tun ∧ out.2.2 = []) ↔
    ∀ ref, addressedInRecv tun buffer received = some ref →
      Inert P (tun.getSession ref) buffer received := by
  constructor
  · intro h ref haddressed
    obtain ⟨rfl, hlong, hvalid, hindex⟩ := addressedInRecv_eq_some haddressed
    by_contra hactive
    have hreach : wgRecv P tun (.datagram buffer received src) received 0 =
        recvPayload P (noteSource tun src) buffer received 0 := by
      have hfits : ¬ received < received - sizeofTransport - wgAeadTagLen := by omega
      simp [wgRecv, hvalid, hlong, htype, hindex, hfits]
    have hout := h received 0
    rw [hreach] at hout
    exact recvPayload_affected src hactive 0 ⟨hout.1, hout.2.1⟩
  · intro h len now
    rcases @wgRecv_cases P tun buffer received htype src len now with
      ⟨err, tun', hview, hout⟩ | ⟨haddressed, hout⟩
    · rw [hout]
      exact ⟨⟨err, rfl⟩, hview, rfl⟩
    · rw [hout]
      exact recvPayload_unaffected src now (addressedInRecv_eq_some haddressed).2.1
        (hforged _ haddressed) (h _ haddressed)

end BlockingRecv

/-- A transport packet that fails authentication leaves no trace in either
handler, whatever the clock, exactly when it is inert for the session it
addresses there. -/
theorem unauthenticated_no_effect_iff (P : Primitives) (tun : WgTunnel) (buffer : Bytes)
    (received : Nat) (src : Option SockAddr) (htype : getType buffer = wgMsgTransport) :
    ((∀ ref, addressedInLoop tun buffer received = some ref →
        Unauthenticated P (tun.getSession ref) buffer received) →
      ((∀ slot draws now,
          let out := recvThreadIteration P tun
            ⟨slot, .datagram buffer received src, draws, now⟩
          Unaffected tun out.1 (addressedInLoop tun buffer received) now ∧ out.2 = []) ↔
        ∀ ref, addressedInLoop tun buffer received = some ref →
          Inert P (tun.getSession ref) buffer received)) ∧
    ((∀ ref, addressedInRecv tun buffer received = some ref →
        Unauthenticated P (tun.getSession ref) buffer received) →
      ((∀ len now,
          let out := wgRecv P tun (.datagram buffer received src) len now
          (∃ err, out.1 = .error err) ∧ view out.2.1 = view tun ∧ out.2.2 = []) ↔
        ∀ ref, addressedInRecv tun buffer received = some ref →
          Inert P (tun.getSession ref) buffer received)) :=
  ⟨loop_unaffected_iff htype src, recv_unaffected_iff htype src⟩

/-- A tunnel with an established legacy session under local index 7. -/
def connectedTunnel : WgTunnel :=
  { initialTunnel additive
      ⟨Vector.replicate 32 3, 0, Vector.replicate 32 5, 25, zeroKey, false⟩ ⟨0, 51820⟩ with
    session :=
      { WgSession.zeroed with
        sendingKey := Vector.replicate 32 2
        receivingKey := Vector.replicate 32 1
        localIndex := 7
        remoteIndex := 8
        lastHandshake := 1000
        valid := true } }

/-- A transport packet for index 7 with `payload` zero bytes and a zero tag. -/
def forgedPacket (payload : Nat) : Bytes :=
  [wgMsgTransport, 0, 0, 0] ++ putU32 7 ++ putU64 0 ++ List.replicate (payload + 16) 0

theorem unauthenticated_no_effect_with_payload :
    (∀ slot draws now,
      let out := recvThreadIteration additive connectedTunnel
        ⟨slot, .datagram (forgedPacket 1) 33 none, draws, now⟩
      Unaffected connectedTunnel out.1 (some .legacy) now ∧ out.2 = []) ∧
    ∀ len now,
      let out := wgRecv additive connectedTunnel (.datagram (forgedPacket 1) 33 none) len now
      (∃ err, out.1 = .error err) ∧ view out.2.1 = view connectedTunnel ∧ out.2.2 = [] := by
  have hboth := unauthenticated_no_effect_iff additive connectedTunnel (forgedPacket 1) 33 none
    (by decide)
  have hloop : addressedInLoop connectedTunnel (forgedPacket 1) 33 = some .legacy := by
    decide +kernel
  have hrecv : addressedInRecv connectedTunnel (forgedPacket 1) 33 = some .legacy := by
    decide +kernel
  simp only [hloop, hrecv, Option.some.injEq, forall_eq'] at hboth
  exact ⟨(hboth.1 (by decide +kernel)).mpr (by decide +kernel),
    (hboth.2 (by decide +kernel)).mpr (by decide +kernel)⟩

/-- A packet of a header and sixteen zero bytes, whose tag does not verify, counts
as a keepalive: the receive loop restarts the session's receive timer and
`wg_recv` reports success. -/
theorem forged_keepalive_accepted :
    let iteration := recvThreadIteration additive connectedTunnel
      ⟨true, .datagram (forgedPacket 0) 32 none, ⟨zeroKey, 0, 0⟩, 2000⟩
    let call := wgRecv additive connectedTunnel (.datagram (forgedPacket 0) 32 none) 64 2000
    addressedInLoop connectedTunnel (forgedPacket 0) 32 = some .legacy ∧
    openTransport additive connectedTunnel.session (forgedPacket 0) 32 = none ∧
    ¬ connectedTunnel.session.Expired 2000 ∧
    view iteration.1 ≠ view connectedTunnel ∧
    call.1.toOption = some [] ∧ view call.2.1 ≠ view connectedTunnel := by
  decide +kernel

end WgNx.Authentication
