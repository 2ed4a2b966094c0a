import WgNx.RemoteKeys

/-!
What a datagram of one peer leaves alone.

The receive loop routes by static key, by local index and by pending index, with
the legacy session as a fallback.  Under distinct indices each of the three leads
to the entry the datagram belongs to.  The keepalive after an accepted INIT is
routed by a fourth rule: it goes to the first entry that has a session.
-/

namespace WgNx.PeerFrames

open WgNx.ByteLayout
open WgNx.CryptoPrimitives
open WgNx.EndpointMachine
open WgNx.NoiseHandshake
open WgNx.RemoteKeys
open WgNx.ReplayCounter
open WgNx.TransportReceive
open WgNx.TransportSend
open WgNx.TunnelSetup
open WgNx.TunnelState
open WgNx.WireMessages

section Frames

/-- The legacy sessions and all entries but `i` are as they were. -/
structure OnlyEntry (tun tun' : WgTunnel) (i : Nat) : Prop where
  peers : ∀ j, j ≠ i → tun'.peers.get j = tun.peers.get j
  session : tun'.session = tun.session
  prevSession : tun'.prevSession = tun.prevSession

variable {tun : WgTunnel} {i : Nat}

theorem onlyEntry_of_sameSessions {tun' : WgTunnel} (h : tun'.SameSessions tun) :
    OnlyEntry tun tun' i := by
  refine ⟨?_, h.session, h.prevSession⟩
  intro j _
  rw [h.peers]

theorem OnlyEntry.trans {tun₁ tun₂ : WgTunnel} (h : OnlyEntry tun tun₁ i)
    (h' : OnlyEntry tun₁ tun₂ i) : OnlyEntry tun tun₂ i := by
  refine ⟨?_, h'.session.trans h.session, h'.prevSession.trans h.prevSession⟩
  intro j hj
  rw [h'.peers j hj, h.peers j hj]

theorem get_modify_of_ne (t : PeerTable) {j : Nat} (h : j ≠ i) (f : WgPeer → WgPeer) :
    (t.modify i f).get j = t.get j := by
  simp [PeerTable.get, PeerTable.modify, List.getD_eq_getElem?_getD, h.symm]

theorem onlyEntry_modify {tun' : WgTunnel} {f : WgPeer → WgPeer}
    (hpeers : tun'.peers = tun.peers.modify i f) (hsession : tun'.session = tun.session)
    (hprev : tun'.prevSession = tun.prevSession) : OnlyEntry tun tun' i := by
  refine ⟨?_, hsession, hprev⟩
  intro j hj
  rw [hpeers, get_modify_of_ne _ hj]

theorem onlyEntry_touchPeer {peer : Option Nat} (h : ∀ j, peer = some j → j = i)
    (f : WgPeer → WgPeer) : OnlyEntry tun (touchPeer tun peer f) i := by
  cases peer with
  | none => exact onlyEntry_of_sameSessions ⟨rfl, rfl, rfl⟩
  | some j =>
      rw [h j rfl]
      exact onlyEntry_modify rfl rfl rfl

/-- A reference to one of the two sessions of an entry. -/
def IsEntry (ref : SessionRef) (i : Nat) : Prop := ref = .peer i ∨ ref = .peerPrev i

theorem onlyEntry_modifySession {ref : SessionRef} (h : IsEntry ref i)
    (f : WgSession → WgSession) : OnlyEntry tun (tun.modifySession ref f) i := by
  rcases h with rfl | rfl
  · exact onlyEntry_modify rfl rfl rfl
  · exact onlyEntry_modify rfl rfl rfl

theorem onlyEntry_dropExpired {ref : SessionRef} (h : IsEntry ref i) :
    OnlyEntry tun (dropExpired tun ref) i := by
  rcases h with rfl | rfl
  · exact onlyEntry_of_sameSessions ⟨rfl, rfl, rfl⟩
  · exact onlyEntry_modify rfl rfl rfl

theorem onlyEntry_payloadReceived {ref : SessionRef} (h : IsEntry ref i) {peer : Option Nat}
    (hpeer : ∀ j, peer = some j → j = i) (replay : WgReplayCounter) (counter now : UInt64) :
    OnlyEntry tun (payloadReceived tun ref peer replay counter now) i := by
  have hupdate : ∀ tun₁ : WgTunnel, OnlyEntry tun₁ (wgUpdateEndpointFromRecv tun₁) i := by
    intro tun₁
    apply onlyEntry_of_sameSessions
    unfold wgUpdateEndpointFromRecv
    split <;> exact ⟨rfl, rfl, rfl⟩
  unfold payloadReceived
  refine OnlyEntry.trans ?_ (hupdate _)
  exact (onlyEntry_modifySession h _).trans (onlyEntry_touchPeer hpeer _)

end Frames

section Routing

def indicesOf (peer : WgPeer) : List UInt32 :=
  [peer.session.localIndex, peer.prevSession.localIndex]

def legacyIndices (tun : WgTunnel) : List UInt32 :=
  [tun.session.localIndex, tun.session.oldLocalIndex, tun.prevSession.localIndex]

/-- An index of entry `i` and of nobody else. -/
structure Addresses (tun : WgTunnel) (index : UInt32) (i : Nat) : Prop where
  own : index ∈ indicesOf (tun.peers.get i)
  others : ∀ j < tun.peers.count, j ≠ i → index ∉ indicesOf (tun.peers.get j)
  legacy : index ∉ legacyIndices tun

variable {tun : WgTunnel} {index : UInt32} {i : Nat}

theorem Addresses.entry_eq (h : Addresses tun index i) {j : Nat} (hj : j < tun.peers.count)
    (hindex : index ∈ indicesOf (tun.peers.get j)) : j = i := by
  by_contra hne
  exact h.others j hj hne hindex

theorem Addresses.find_eq (h : Addresses tun index i) {j : Nat}
    (hfind : wgFindPeerByLocalIndex tun index = some j) : j = i := by
  have hfound := PeerTable.find_get hfind
  simp only [Bool.or_eq_true, Bool.and_eq_true, beq_iff_eq] at hfound
  apply h.entry_eq (PeerTable.find_lt hfind)
  rcases hfound with ⟨-, hlocal⟩ | ⟨-, hprev⟩
  · simp [indicesOf, hlocal]
  · simp [indicesOf, hprev]

theorem Addresses.select (h : Addresses tun index i) {ref : SessionRef}
    (hselect : selectSession tun index = some ref) : IsEntry ref i := by
  rcases selectSession_cases hselect with hpeer | ⟨-, hlegacy⟩
  · unfold selectPeerSession at hpeer
    split at hpeer
    · cases hpeer
    · rename_i j hfind
      have hj := h.find_eq hfind
      dsimp only at hpeer
      split at hpeer
      · cases hpeer
        exact .inl (by rw [hj])
      · split at hpeer
        · cases hpeer
          exact .inr (by rw [hj])
        · cases hpeer
  · exfalso
    apply h.legacy
    rcases selectLegacySession_cases hlegacy with ⟨-, hlocal | hold⟩ | ⟨-, -, hprev⟩
    · simp [legacyIndices, hlocal]
    · simp [legacyIndices, hold]
    · simp [legacyIndices, hprev]

end Routing

section Undisturbed

variable (P : Primitives)

/-- A step with this outcome touches entry `i` only: whatever it sends goes to the
entry, and whatever it encrypts is encrypted under a session it has just
established there. -/
structure Confined (tun : WgTunnel) (i : Nat) (out : WgTunnel × List Event) : Prop where
  only : OnlyEntry tun out.1 i
  sealed_ : ∀ ref sess now, Event.sealed ref sess now ∈ out.2 →
    ref = .peer i ∧ Event.established (.peer i) sess ∈ out.2
  sent : ∀ dest datagram, Event.sent dest datagram ∈ out.2 →
    dest = .relay (tun.peers.get i).relayHash

/-- The datagram belongs to entry `i`. -/
inductive Belongs (tun : WgTunnel) (buffer : Bytes) (received : Nat) (i : Nat) : Prop
  | init (msg : WgHandshakeInit) (key : Key) (hinit : initIn buffer received = some msg)
      (hsender : (openInit P tun.staticPrivate tun.staticPublic msg).map Prod.snd = some key)
      (hfind : wgFindPeerByPublicKey tun key = some i)
  | response (htype : getType buffer = wgMsgHandshakeResponse)
      (haddressed : Addresses tun (WgHandshakeResponse.ofBytes buffer).receiverIndex i)
  | transport (htype : getType buffer = wgMsgTransport)
      (haddressed : Addresses tun (getU32 buffer 4) i)

/-- The datagram is an INIT that is accepted. -/
def AcceptsInit (tun : WgTunnel) (buffer : Bytes) (received : Nat) : Prop :=
  ((initIn buffer received).bind (acceptedKey P tun)).isSome = true

/-- No entry before `i` has a session. -/
def NoneBefore (tun : WgTunnel) (i : Nat) : Prop :=
  ∀ j < i, ((tun.peers.get j).connected && (tun.peers.get j).session.valid) = false

variable {P} {tun : WgTunnel} {i : Nat}

theorem confined_quiet {tun' : WgTunnel} {events : List Event} (h : OnlyEntry tun tun' i)
    (hevents : ∀ e ∈ events, (∀ ref sess now, e ≠ .sealed ref sess now) ∧
      ∀ dest datagram, e ≠ .sent dest datagram) : Confined tun i (tun', events) := by
  refine ⟨h, ?_, ?_⟩
  · intro ref sess now hmem
    exact absurd rfl ((hevents _ hmem).1 ref sess now)
  · intro dest datagram hmem
    exact absurd rfl ((hevents _ hmem).2 dest datagram)

theorem Confined.of_sameSessions {tun₀ : WgTunnel} {out : WgTunnel × List Event}
    (hsame : tun₀.SameSessions tun) (h : Confined tun₀ i out) : Confined tun i out := by
  refine ⟨(onlyEntry_of_sameSessions hsame).trans h.only, h.sealed_, ?_⟩
  rw [← hsame.peers]
  exact h.sent

theorem confined_iff_of_sameSessions {tun₀ : WgTunnel} {out : WgTunnel × List Event}
    (hsame : tun₀.SameSessions tun) : Confined tun i out ↔ Confined tun₀ i out := by
  constructor
  · exact Confined.of_sameSessions
      ⟨hsame.session.symm, hsame.prevSession.symm, hsame.peers.symm⟩
  · exact Confined.of_sameSessions hsame

theorem confined_transport {buffer : Bytes} {received : Nat} {slot : Bool} {now : UInt64}
    (haddressed : Addresses tun (getU32 buffer 4) i) {out : WgTunnel × List Event}
    (h : TransportCase P tun buffer received slot now out) : Confined tun i out := by
  have hsame : OnlyEntry tun tun i := onlyEntry_of_sameSessions ⟨rfl, rfl, rfl⟩
  cases h with
  | unknown hselect => exact confined_quiet hsame (by simp)
  | expired ref hselect hexpired =>
      exact confined_quiet (onlyEntry_dropExpired (haddressed.select hselect)) (by simp)
  | empty ref hselect hfresh hlen =>
      refine confined_quiet ?_ (by simp)
      exact (onlyEntry_modifySession (haddressed.select hselect) _).trans
        (onlyEntry_touchPeer (fun j => haddressed.find_eq) _)
  | badTag ref hselect hfresh hlen hopen => exact confined_quiet hsame (by simp)
  | replayed ref plaintext hselect hfresh hlen hopen hverdict =>
      exact confined_quiet (onlyEntry_modifySession (haddressed.select hselect) _) (by simp)
  | accepted ref plaintext hselect hfresh hlen hopen hverdict =>
      apply confined_quiet
      · exact onlyEntry_payloadReceived (haddressed.select hselect)
          (fun j => haddressed.find_eq) _ _ now
      · intro e he
        split at he
        · rw [List.mem_singleton.mp he]
          simp
        · cases he

theorem confined_recvResponse {buffer : Bytes} (received : Nat) (now : UInt64)
    (haddressed : Addresses tun (WgHandshakeResponse.ofBytes buffer).receiverIndex i) :
    Confined tun i (recvResponse P tun buffer received now) := by
  have hsame : OnlyEntry tun tun i := onlyEntry_of_sameSessions ⟨rfl, rfl, rfl⟩
  unfold recvResponse
  split
  · refine confined_quiet (onlyEntry_of_sameSessions ?_) (by simp)
    split <;> exact ⟨rfl, rfl, rfl⟩
  · dsimp only
    split
    · exact confined_quiet hsame (by simp)
    · rename_i j hfind
      have hfound := PeerTable.find_get hfind
      simp only [Bool.and_eq_true, beq_iff_eq] at hfound
      have hj : j = i := by
        apply haddressed.entry_eq (PeerTable.find_lt hfind)
        simp [indicesOf, hfound.2]
      subst hj
      have hcase := wgHandshakeInitProcessResponse_cases P tun j
        (WgHandshakeResponse.ofBytes buffer) now
      generalize (wgHandshakeInitProcessResponse P tun j
        (WgHandshakeResponse.ofBytes buffer) now).2 = out at hcase ⊢
      cases hcase with
      | refused => exact confined_quiet hsame (by simp)
      | badTag remoteIndex pendingHs =>
          exact confined_quiet (onlyEntry_modify rfl rfl rfl) (by simp)
      | installed keys remoteIndex sess hsess =>
          exact confined_quiet (onlyEntry_modify rfl rfl rfl) (by simp)

theorem wgHandshakeInitProcess_of_entry {msg : WgHandshakeInit} {state : WgHandshakeState}
    {key : Key} (haccepted : (acceptedKey P tun msg).isSome = true)
    (hopen : openInit P tun.staticPrivate tun.staticPublic msg = some (state, key))
    (hfind : wgFindPeerByPublicKey tun key = some i) (d : RespDraws) :
    ∃ response keys, wgHandshakeInitProcess P tun msg d =
      (.ok, respondPeer { tun with lastMac1 := msg.mac1 } i msg response keys d) := by
  have hpassed : msg.type = wgMsgHandshakeInit ∧ mac1Ok P tun msg = true := by
    by_contra hfailed
    rw [acceptedKey, if_neg hfailed] at haccepted
    cases haccepted
  have hsame : wgFindPeerByPublicKey { tun with lastMac1 := msg.mac1 } key = some i := hfind
  refine ⟨(buildResponse P tun.psk key msg state d).1,
    P.wgKdf2 (buildResponse P tun.psk key msg state d).2 [], ?_⟩
  unfold wgHandshakeInitProcess
  rw [if_neg (not_not.mpr hpassed.1), hpassed.2, if_neg (by decide)]
  dsimp only
  rw [hopen]
  dsimp only
  rw [hsame]
  rfl

/-- The first entry with a session, after entry `i` has got one. -/
theorem firstConnected_modify (hi : i < tun.peers.count) (tun' : WgTunnel)
    {f : WgPeer → WgPeer} (hpeers : tun'.peers = tun.peers.modify i f)
    (hf : ∀ p, ((f p).connected && (f p).session.valid) = true) :
    (NoneBefore tun i → firstConnected tun' = some i) ∧
      (¬ NoneBefore tun i → ∃ j < i, firstConnected tun' = some j) := by
  have hfound : firstConnected tun' = some ((firstConnected tun).elim i (min i)) := by
    unfold firstConnected
    rw [hpeers]
    exact PeerTable.find_modify hi (hf _)
  rw [hfound]
  cases hfirst : firstConnected tun with
  | none =>
      refine ⟨fun _ => rfl, fun hsome => absurd ?_ hsome⟩
      intro j hj
      exact PeerTable.find_eq_none hfirst (hj.trans hi)
  | some k =>
      obtain ⟨-, hk, hbefore⟩ := PeerTable.find_eq_some_iff.mp hfirst
      constructor
      · intro hnone
        have hle : i ≤ k := by
          by_contra hlt
          rw [hnone k (Nat.not_le.mp hlt)] at hk
          cases hk
        exact congrArg some (Nat.min_eq_left hle)
      · intro hsome
        have hlt : k < i := by
          by_contra hge
          exact hsome fun j hj => hbefore j (by omega)
        exact ⟨k, hlt, congrArg some (Nat.min_eq_right hlt.le)⟩

/-- An answered INIT of entry `i` and the keepalive that follows it. -/
theorem confined_respondPeer_iff (hi : i < tun.peers.count) (msg : WgHandshakeInit)
    (response : WgHandshakeResponse) (keys : Hash × Hash) (d : RespDraws) (now : UInt64) :
    Confined tun i
        ((followUp P (respondPeer tun i msg response keys d).1 now).1,
          (respondPeer tun i msg response keys d).2 ++
            (followUp P (respondPeer tun i msg response keys d).1 now).2) ↔
      NoneBefore tun i := by
  obtain ⟨hfirst, hearlier⟩ := firstConnected_modify hi
    (respondPeer tun i msg response keys d).1 rfl (fun _ => rfl)
  unfold followUp
  constructor
  · intro hconfined
    by_contra hsome
    obtain ⟨j, hj, hfirstj⟩ := hearlier hsome
    have hkept := hconfined.only.peers j (by omega)
    rw [hfirstj] at hkept
    -- The keepalive advances the counter of an entry before `i`.
    have hcounter := congrArg (fun p : WgPeer => p.session.sendingCounter) hkept
    simp only [wgSendKeepaliveToPeer, respondPeer, bumpCounter] at hcounter
    rw [PeerTable.get_modify _ _ _ _ (by rw [PeerTable.count_modify]; omega), if_pos rfl]
      at hcounter
    dsimp only at hcounter
    rw [get_modify_of_ne _ (by omega)] at hcounter
    exact absurd hcounter (by simp)
  · intro hnone
    have hsession : (respondPeer tun i msg response keys d).1.peers.get i =
        { tun.peers.get i with
          prevSession :=
            if (tun.peers.get i).session.valid then (tun.peers.get i).session
            else (tun.peers.get i).prevSession
          session := respondedSession (tun.peers.get i).session keys d msg.senderIndex
          connected := true
          lastMac1 := response.mac1 } := by
      simp only [respondPeer]
      rw [PeerTable.get_modify _ _ _ _ hi, if_pos rfl]
    have hanswered : OnlyEntry tun (respondPeer tun i msg response keys d).1 i :=
      onlyEntry_modify rfl rfl rfl
    rw [hfirst hnone]
    refine ⟨hanswered.trans (onlyEntry_modify rfl rfl rfl), ?_, ?_⟩
    · intro ref sess clock hmem
      simp only [wgSendKeepaliveToPeer, hsession] at hmem ⊢
      simp only [respondPeer, List.cons_append, List.nil_append, List.mem_cons,
        List.not_mem_nil, or_false, reduceCtorEq, false_or, Event.sealed.injEq] at hmem
      obtain ⟨rfl, rfl, -⟩ := hmem
      exact ⟨rfl, by simp [respondPeer]⟩
    · intro dest datagram hmem
      simp only [wgSendKeepaliveToPeer, hsession] at hmem
      simp only [respondPeer, List.cons_append, List.nil_append, List.mem_cons,
        List.not_mem_nil, or_false, reduceCtorEq, false_or, Event.sent.injEq] at hmem
      rcases hmem with ⟨rfl, -⟩ | ⟨rfl, -⟩
      · rfl
      · rfl

theorem initIn_eq_some {buffer : Bytes} {received : Nat} {msg : WgHandshakeInit}
    (h : initIn buffer received = some msg) :
    (getType buffer = wgMsgHandshakeInit ∧ sizeofInit ≤ received) ∧
      msg = WgHandshakeInit.ofBytes buffer := by
  unfold initIn at h
  split at h
  · rename_i hinit
    cases h
    exact ⟨hinit, rfl⟩
  · cases h

theorem confined_recvInit_iff {buffer : Bytes} {received : Nat} {msg : WgHandshakeInit}
    {state : WgHandshakeState} {key : Key} (hinit : initIn buffer received = some msg)
    (haccepted : (acceptedKey P tun msg).isSome = true)
    (hopen : openInit P tun.staticPrivate tun.staticPublic msg = some (state, key))
    (hfind : wgFindPeerByPublicKey tun key = some i) (d : RespDraws) (now : UInt64) :
    Confined tun i (recvInit P tun buffer received d now) ↔ NoneBefore tun i := by
  obtain ⟨⟨-, hlong⟩, rfl⟩ := initIn_eq_some hinit
  obtain ⟨response, keys, hprocess⟩ :=
    wgHandshakeInitProcess_of_entry (P := P) haccepted hopen hfind d
  -- Only the last MAC is written before the answer.
  generalize htun : { tun with lastMac1 := (WgHandshakeInit.ofBytes buffer).mac1 } = tun₀
    at hprocess
  have hsame : tun₀.SameSessions tun := by
    rw [← htun]
    exact ⟨rfl, rfl, rfl⟩
  have hi : i < tun₀.peers.count := by
    rw [hsame.peers]
    exact PeerTable.find_lt hfind
  have hbefore : NoneBefore tun₀ i ↔ NoneBefore tun i := by
    unfold NoneBefore
    rw [hsame.peers]
  unfold recvInit
  rw [if_pos hlong]
  dsimp only
  rw [hprocess, if_pos rfl, confined_iff_of_sameSessions hsame, ← hbefore]
  exact confined_respondPeer_iff hi _ response keys d now

/-- An INIT that is not accepted changes no session. -/
theorem confined_recvInit_refused {buffer : Bytes} {received : Nat} {msg : WgHandshakeInit}
    (hinit : initIn buffer received = some msg)
    (hrefused : (acceptedKey P tun msg).isSome = false) (d : RespDraws) (now : UInt64) :
    Confined tun i (recvInit P tun buffer received d now) := by
  obtain ⟨-, rfl⟩ := initIn_eq_some hinit
  have hok := (wgHandshakeInitProcess_answers P tun
    (WgHandshakeInit.ofBytes buffer) d).2
  have hcase := wgHandshakeInitProcess_cases P tun (WgHandshakeInit.ofBytes buffer) d
  unfold recvInit
  split
  · rcases hout : wgHandshakeInitProcess P tun (WgHandshakeInit.ofBytes buffer) d with
      ⟨err, tun', events⟩
    rw [hout] at hcase hok
    have herr : err ≠ .ok := by
      intro heq
      rw [hok.mp heq] at hrefused
      cases hrefused
    dsimp only
    rw [if_neg herr]
    cases hcase with
    | rejected _ _ _ hsame => exact confined_quiet (onlyEntry_of_sameSessions hsame) (by simp)
    | legacy decryptedStatic response keys hfind => exact absurd rfl herr
    | peer j response keys hj => exact absurd rfl herr
  · exact confined_quiet (onlyEntry_of_sameSessions ⟨rfl, rfl, rfl⟩) (by simp)

theorem confined_recvDatagram_iff {buffer : Bytes} {received : Nat}
    (h : Belongs P tun buffer received i) (slot : Bool) (d : RespDraws) (now : UInt64) :
    Confined tun i (recvDatagram P tun buffer received slot d now) ↔
      (AcceptsInit P tun buffer received → NoneBefore tun i) := by
  have hsame : OnlyEntry tun tun i := onlyEntry_of_sameSessions ⟨rfl, rfl, rfl⟩
  -- only an INIT is accepted as one
  have hother : getType buffer ≠ wgMsgHandshakeInit → ¬ AcceptsInit P tun buffer received := by
    intro htype haccepts
    rw [AcceptsInit, initIn_eq_none received htype] at haccepts
    cases haccepts
  have hcase := recvDatagram_cases P tun buffer received slot d now
  generalize recvDatagram P tun buffer received slot d now = out at hcase ⊢
  cases h with
  | init msg key hinit hsender hfind =>
      obtain ⟨⟨state, sender⟩, hopen, rfl⟩ := Option.map_eq_some_iff.mp hsender
      obtain ⟨htype, hlong⟩ := (initIn_eq_some hinit).1
      cases hcase with
      | init =>
          rw [AcceptsInit, hinit, Option.bind_some]
          cases haccepted : (acceptedKey P tun msg).isSome with
          | true =>
              rw [confined_recvInit_iff hinit haccepted hopen hfind d now]
              exact ⟨fun hnone _ => hnone, fun himp => himp rfl⟩
          | false =>
              exact iff_of_true (confined_recvInit_refused hinit haccepted d now)
                (fun hfalse => Bool.noConfusion hfalse)
      | dropped hshort => exact absurd hlong (Nat.not_le.mpr (hshort htype))
      | transport htype' => exact absurd (htype.symm.trans htype') (by decide)
      | response htype' => exact absurd (htype.symm.trans htype') (by decide)
      | cookie htype' => exact absurd (htype.symm.trans htype') (by decide)
  | response htype haddressed =>
      refine iff_of_true ?_ fun haccepts => absurd haccepts (hother (by rw [htype]; decide))
      cases hcase with
      | dropped hshort => exact confined_quiet hsame (by simp)
      | response => exact confined_recvResponse received now haddressed
      | transport htype' => exact absurd (htype.symm.trans htype') (by decide)
      | cookie htype' => exact absurd (htype.symm.trans htype') (by decide)
      | init htype' hlong => exact absurd (htype.symm.trans htype') (by decide)
  | transport htype haddressed =>
      refine iff_of_true ?_ fun haccepts => absurd haccepts (hother (by rw [htype]; decide))
      cases hcase with
      | dropped hshort => exact confined_quiet hsame (by simp)
      | transport =>
          exact confined_transport haddressed
            (recvTransport_cases P tun buffer received slot now)
      | response htype' => exact absurd (htype.symm.trans htype') (by decide)
      | cookie htype' => exact absurd (htype.symm.trans htype') (by decide)
      | init htype' hlong => exact absurd (htype.symm.trans htype') (by decide)

theorem Belongs.noteSource {buffer : Bytes} {received : Nat}
    (h : Belongs P tun buffer received i) (src : Option SockAddr) :
    Belongs P (noteSource tun src) buffer received i := by
  cases src with
  | none => exact h
  | some addr =>
      cases h with
      | init msg key hinit hsender hfind => exact .init msg key hinit hsender hfind
      | response htype haddressed =>
          exact .response htype ⟨haddressed.own, haddressed.others, haddressed.legacy⟩
      | transport htype haddressed =>
          exact .transport htype ⟨haddressed.own, haddressed.others, haddressed.legacy⟩

/-- A datagram of entry `i` leaves everybody else alone, and the keepalive it
causes goes to the entry, exactly if it is no INIT that is accepted while an
earlier entry has a session. -/
theorem peers_undisturbed_iff (tun : WgTunnel) (inp : RecvInput) (buffer : Bytes)
    (received : Nat) (src : Option SockAddr) (i : Nat)
    (hresult : inp.result = .datagram buffer received src)
    (h : Belongs P tun buffer received i) :
    Confined tun i (recvThreadIteration P tun inp) ↔
      (AcceptsInit P tun buffer received → NoneBefore tun i) := by
  have hnote := sameSessions_noteSource tun src
  have haccepts : AcceptsInit P (noteSource tun src) buffer received ↔
      AcceptsInit P tun buffer received := by
    cases src <;> exact Iff.rfl
  have hbefore : NoneBefore (noteSource tun src) i ↔ NoneBefore tun i := by
    unfold NoneBefore
    rw [hnote.peers]
  have hiteration : recvThreadIteration P tun inp =
      recvDatagram P (noteSource tun src) buffer received inp.slot inp.draws inp.now := by
    unfold recvThreadIteration
    rw [hresult]
  rw [confined_iff_of_sameSessions hnote, hiteration,
    confined_recvDatagram_iff (h.noteSource src), haccepts, hbefore]

end Undisturbed

section Samples

/-- An INIT of the owner of the second key. -/
def secondInit : WgHandshakeInit :=
  sampleInit 8 3 ⟨sampleKey 20, 20, Vector.replicate 12 20, 150⟩

/-- The receive loop gets this INIT. -/
def secondInput : RecvInput :=
  ⟨true, .datagram secondInit.toBytes 148 none, ⟨Vector.replicate 32 21, 21, 160⟩, 160⟩

/-- A tunnel with two entries. -/
def twoEntries : WgTunnel :=
  wgAddPeer
    (wgAddPeer (initialTunnel additive sampleConfig ⟨0, 51820⟩) (sampleKey 7)
      (Vector.replicate 36 1) 9)
    (sampleKey 8) (Vector.replicate 36 2) 10

/-- The first entry has a session. -/
def firstHasSession : WgTunnel :=
  { twoEntries with
    peers := twoEntries.peers.modify 0 fun p =>
      { p with
        connected := true
        session :=
          { p.session with
            sendingKey := Vector.replicate 32 2
            receivingKey := Vector.replicate 32 1
            localIndex := 40
            lastHandshake := 100
            valid := true } } }

theorem secondInit_read :
    initIn secondInit.toBytes 148 = some secondInit ∧
      (openInit additive (Vector.replicate 32 3) (Vector.replicate 32 3) secondInit).map
        Prod.snd = some (sampleKey 8) := by
  decide +kernel

theorem peers_undisturbed_second :
    Confined twoEntries 1 (recvThreadIteration additive twoEntries secondInput) := by
  have hfind : wgFindPeerByPublicKey twoEntries (sampleKey 8) = some 1 := by decide +kernel
  apply (peers_undisturbed_iff twoEntries secondInput secondInit.toBytes 148 none 1 rfl
    (.init _ _ secondInit_read.1 secondInit_read.2 hfind)).mpr
  intro _ j hj
  have hj0 : j = 0 := by omega
  subst hj0
  decide +kernel

/-- Once the first entry has a session, the keepalive after the INIT of the second
one goes to the first entry and uses a counter of its session. -/
theorem keepalive_to_first_entry :
    let out := recvThreadIteration additive firstHasSession secondInput
    Belongs additive firstHasSession secondInit.toBytes 148 1 ∧
      ¬ Confined firstHasSession 1 out ∧
      (out.1.peers.get 0).session.sendingCounter = 1 ∧
      Event.sealed (.peer 0) (firstHasSession.peers.get 0).session 160 ∈ out.2 := by
  have hfind : wgFindPeerByPublicKey firstHasSession (sampleKey 8) = some 1 := by decide +kernel
  have hout : let out := recvThreadIteration additive firstHasSession secondInput
      (out.1.peers.get 0).session.sendingCounter = 1 ∧
        Event.sealed (.peer 0) (firstHasSession.peers.get 0).session 160 ∈ out.2 := by
    decide +kernel
  obtain ⟨hcounter, hsealed⟩ := hout
  refine ⟨.init _ _ secondInit_read.1 secondInit_read.2 hfind, ?_, hcounter, hsealed⟩
  intro hconfined
  cases (hconfined.sealed_ _ _ _ hsealed).1

end Samples

end WgNx.PeerFrames
