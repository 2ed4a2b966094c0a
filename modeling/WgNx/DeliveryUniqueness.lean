import WgNx.ReplayMemory
import WgNx.SessionStore

/-!
No packet is delivered twice in the life of a tunnel.

The valid sessions are the slots of `ReplayMemory`: a handshake installs a receiving key
with an empty window, `prev_session` takes over key and window together, and both readers
check a counter against the window of the session they opened the packet with.  What the
library cannot exclude is a counter one lap of the bitmap behind the window, which is
taken again.
-/

namespace WgNx.DeliveryUniqueness

open WgNx.ByteLayout
open WgNx.CryptoPrimitives
open WgNx.EndpointMachine
open WgNx.NoiseHandshake
open WgNx.OutputMachine
open WgNx.ReplayCounter
open WgNx.ReplayMemory
open WgNx.SessionCalls
open WgNx.SessionStore
open WgNx.TransportReceive
open WgNx.TransportSend
open WgNx.TunnelSetup
open WgNx.TunnelState
open WgNx.WireMessages
open Function

section Window

theorem Tracks.of_subset {rc : WgReplayCounter} {taken taken' : List UInt64}
    (h : Tracks rc taken) (hsub : taken' ⊆ taken) : Tracks rc taken' :=
  ⟨fun x hx => h.bounded x (hsub hx), fun x hx => h.recorded x (hsub hx)⟩

theorem tracks_validate_kept {rc : WgReplayCounter} {m : UInt64} (h : Tracks rc [m])
    (n : UInt64) : Tracks (wgCounterValidate rc n).2 [m] := by
  rcases wgCounterValidate_cases rc n with ⟨-, hvalue⟩ | ⟨-, -, hvalue⟩ | ⟨-, -, hvalue⟩
  · rw [hvalue]
    exact h
  · rw [hvalue]
    exact tracks_raise h n
  · rw [hvalue]
    exact Tracks.of_subset (tracks_markSeen (tracks_raise h n) (counter_le_raise rc n).2)
      (List.subset_append_left ..)

theorem tracks_validate_taken {rc : WgReplayCounter} {n : UInt64}
    (h : (wgCounterValidate rc n).1 = true) : Tracks (wgCounterValidate rc n).2 [n] := by
  rcases wgCounterValidate_cases rc n with ⟨-, hvalue⟩ | ⟨-, -, hvalue⟩ | ⟨-, -, hvalue⟩
  · rw [hvalue] at h
    cases h
  · rw [hvalue] at h
    cases h
  · rw [hvalue]
    have hnone : Tracks (raise rc n) [] := ⟨by simp, by simp⟩
    exact tracks_markSeen hnone (counter_le_raise rc n).2

theorem validate_refuses {rc : WgReplayCounter} {n : UInt64} (h : Tracks rc [n])
    (hlap : ¬ Aliased rc n) : (wgCounterValidate rc n).1 = false := by
  have hstep := (present_step rc [n] n ⟨h, List.nodup_singleton n⟩ hlap).2
  cases hverdict : (wgCounterValidate rc n).1 with
  | false => rfl
  | true => simp [present, hverdict] at hstep

/-- The window of `wg_counter.c` as a memory; it is not reliable one lap behind. -/
def windowMemory : Memory WgReplayCounter UInt64 where
  blank := ReplayCounter.zeroed
  check := wgCounterValidate
  Knows rc n := Tracks rc [n]
  Reliable rc n := ¬ Aliased rc n
  kept _ n _ h := tracks_validate_kept h n
  learned _ _ h := tracks_validate_taken h
  refused _ _ h hlap := validate_refuses h hlap

end Window

section Windows

/-- The key a valid session receives with, and its window. -/
def windowOf (sess : WgSession) : Option (Key × WgReplayCounter) :=
  if sess.valid then some (sess.receivingKey, sess.replay) else none

def windowsOf (tun : WgTunnel) : Slots SessionRef Key WgReplayCounter :=
  fun ref => windowOf (tun.getSession ref)

/-- What an event means for the windows, where the datagram that caused it has the given
counter. -/
def noteOf (counter : UInt64) : Event → Option (Label Key UInt64)
  | .established _ sess => some (.installed sess.receivingKey)
  | .delivered _ sess _ _ =>
      if sess.valid then some (.taken sess.receivingKey counter) else none
  | _ => none

/-- The counter of a delivered packet is not a lap behind the window it passed. -/
def InLap (counter : UInt64) : Event → Prop
  | .delivered _ sess _ _ => ¬ Aliased sess.replay counter
  | _ => True

instance (counter : UInt64) : DecidablePred (InLap counter) := fun e =>
  match e with
  | .delivered _ _ _ _ => inferInstanceAs (Decidable (¬ _))
  | .drawn _ => isTrue trivial
  | .sent _ _ => isTrue trivial
  | .sealed _ _ _ => isTrue trivial
  | .established _ _ => isTrue trivial
  | .wiped _ => isTrue trivial

/-- A sequence of steps between the windows of two tunnels, if what is delivered is in lap. -/
def Guards (counter : UInt64) (tun : WgTunnel) (out : WgTunnel × List Event) : Prop :=
  (∀ e ∈ out.2, InLap counter e) →
    Path (SlotStep windowMemory) (windowsOf tun) (out.2.filterMap (noteOf counter))
      (windowsOf out.1)

variable {counter : UInt64} {tun : WgTunnel}

theorem windowOf_valid {sess : WgSession} (h : sess.valid = true) :
    windowOf sess = some (sess.receivingKey, sess.replay) :=
  if_pos h

/-- The window of a session after a check. -/
theorem windowOf_checked (counter : UInt64) (sess : WgSession) :
    windowOf { sess with replay := (wgCounterValidate sess.replay counter).2 } =
      (windowOf sess).map fun w => (w.1, (wgCounterValidate w.2 counter).2) := by
  unfold windowOf
  split <;> rfl

/-- The session that is kept is the older one or the one that a new session replaces. -/
theorem windowOf_kept (c : Prop) [Decidable c] (current older : WgSession) :
    windowOf (if c then current else older) = windowOf older ∨
      windowOf (if c then current else older) = windowOf current := by
  split
  · exact .inr rfl
  · exact .inl rfl

theorem windowsOf_of_sameSessions {a b : WgTunnel} (h : a.SameSessions b) :
    windowsOf a = windowsOf b := by
  funext ref
  exact congrArg windowOf (h.getSession ref)

theorem windowsOf_modifyPeer {i : Nat} (hi : i < tun.peers.count) (f : WgPeer → WgPeer) :
    windowsOf { tun with peers := tun.peers.modify i f } =
      update (update (windowsOf tun) (.peerPrev i) (windowOf (f (tun.peers.get i)).prevSession))
        (.peer i) (windowOf (f (tun.peers.get i)).session) :=
  view_of_update₂ windowOf (sessions_modifyPeer hi f)

/-- A write to a table entry that keeps both windows. -/
theorem windowsOf_modifyPeer_same {i : Nat} (hi : i < tun.peers.count) {f : WgPeer → WgPeer}
    (hsession : windowOf (f (tun.peers.get i)).session = windowOf (tun.peers.get i).session)
    (hprev : (f (tun.peers.get i)).prevSession = (tun.peers.get i).prevSession) :
    windowsOf { tun with peers := tun.peers.modify i f } = windowsOf tun := by
  have hpeerPrev : update (windowsOf tun) (.peerPrev i)
      (windowOf (tun.peers.get i).prevSession) = windowsOf tun := update_eq_self _ _
  rw [windowsOf_modifyPeer hi, hsession, hprev, hpeerPrev]
  exact update_eq_self (SessionRef.peer i) (windowsOf tun)

theorem windowsOf_legacy (tun : WgTunnel) (session prevSession : WgSession) :
    windowsOf { tun with session := session, prevSession := prevSession } =
      update (update (windowsOf tun) .legacyPrev (windowOf prevSession)) .legacy
        (windowOf session) :=
  view_of_update₂ windowOf (sessions_legacy tun session prevSession)

theorem windowsOf_of_session {tun' : WgTunnel}
    (hsession : windowOf tun'.session = windowOf tun.session)
    (hprev : tun'.prevSession = tun.prevSession) (hpeers : tun'.peers = tun.peers) :
    windowsOf tun' = windowsOf tun := by
  funext ref
  cases ref with
  | legacy => exact hsession
  | legacyPrev => exact congrArg windowOf hprev
  | peer i => exact congrArg (fun peers : PeerTable => windowOf (peers.get i).session) hpeers
  | peerPrev i =>
      exact congrArg (fun peers : PeerTable => windowOf (peers.get i).prevSession) hpeers

end Windows

section Functions

variable {P : Primitives} {counter : UInt64} {tun : WgTunnel}

theorem guards_of_same {out : WgTunnel × List Event} (hwindows : windowsOf out.1 = windowsOf tun)
    (hsilent : out.2.filterMap (noteOf counter) = []) : Guards counter tun out := by
  intro _
  rw [hwindows, hsilent]
  exact .refl _

theorem Guards.trans {tun₁ : WgTunnel} {events₁ : List Event} {out : WgTunnel × List Event}
    (h₁ : Guards counter tun (tun₁, events₁)) (h₂ : Guards counter tun₁ out) :
    Guards counter tun (out.1, events₁ ++ out.2) := by
  intro hlap
  rw [List.filterMap_append]
  apply OutputMachine.Path.trans
  · exact h₁ fun e he => hlap e (List.mem_append_left _ he)
  · exact h₂ fun e he => hlap e (List.mem_append_right _ he)

theorem Guards.of_sameSessions {a b : WgTunnel} {out : WgTunnel × List Event}
    (h : Guards counter a out) (hsame : a.SameSessions b) : Guards counter b out := by
  unfold Guards
  rw [← windowsOf_of_sameSessions hsame]
  exact h

/-- A new session takes the place of another one, which may be kept. -/
theorem guards_of_install {out : WgTunnel × List Event} (ref prev : SessionRef)
    (new kept : WgSession) (hvalid : new.valid = true) (hblank : new.replay = ReplayCounter.zeroed)
    (hkept : windowOf kept = windowsOf tun prev ∨ windowOf kept = windowsOf tun ref)
    (hwindows : windowsOf out.1 =
      update (update (windowsOf tun) prev (windowOf kept)) ref (windowOf new))
    (hevents : out.2.filterMap (noteOf counter) = [.installed new.receivingKey]) :
    Guards counter tun out := by
  have hnew : windowOf new = some (new.receivingKey, windowMemory.blank) := by
    rw [windowOf_valid hvalid, hblank]
    rfl
  intro _
  rw [hwindows, hevents, hnew]
  rcases hkept with hsame | hmoved
  · rw [hsame, update_eq_self]
    exact .single (.install ref new.receivingKey)
  · rw [hmoved]
    have hpath : Path (SlotStep windowMemory) (windowsOf tun) []
        (update (update (windowsOf tun) prev (windowsOf tun ref)) ref none) :=
      .single (.handOver ref prev)
    have hinstalled := hpath.tail (.install ref new.receivingKey)
    rwa [update_idem] at hinstalled

/-- A counter is checked under the session that opened its packet.  The windows do not cover
a session that is not valid. -/
theorem guards_of_check {out : WgTunnel × List Event} (ref : SessionRef) (sess' : WgSession)
    (hsess' : windowOf sess' = (windowOf (tun.getSession ref)).map fun w =>
      (w.1, (wgCounterValidate w.2 counter).2))
    (hwindows : windowsOf out.1 = update (windowsOf tun) ref (windowOf sess'))
    (hevents : out.2 = [] ∨
      (wgCounterValidate (tun.getSession ref).replay counter).1 = true ∧
        ∃ plaintext now, out.2 = [.delivered ref (tun.getSession ref) plaintext now]) :
    Guards counter tun out := by
  intro hlap
  rw [hwindows, hsess']
  by_cases hvalid : (tun.getSession ref).valid = true
  · have hslot := windowOf_valid hvalid
    rw [hslot]
    refine .single (.check ref _ _ counter _ hslot ?_)
    rcases hevents with hnone | ⟨hpass, plaintext, now, hone⟩
    · rw [hnone]
      exact .inl rfl
    · rw [hone] at hlap ⊢
      refine .inr ⟨by simp [noteOf, hvalid], hpass, ?_⟩
      exact hlap _ (List.mem_singleton_self _)
  · have hnone : windowOf (tun.getSession ref) = none := if_neg hvalid
    have hsilent : out.2.filterMap (noteOf counter) = [] := by
      rcases hevents with hempty | ⟨-, plaintext, now, hone⟩
      · rw [hempty]
        rfl
      · rw [hone]
        simp [noteOf, hvalid]
    have hkeep : update (windowsOf tun) ref none = windowsOf tun := by
      rw [← hnone]
      exact update_eq_self ref (windowsOf tun)
    rw [hsilent, hnone, Option.map_none, hkeep]
    exact .refl _

theorem guards_beginAttempt (d : InitDraws) :
    Guards counter tun ((beginAttempt P tun d).1, (beginAttempt P tun d).2.2) := by
  refine guards_of_same ?_ rfl
  funext ref
  cases ref <;> rfl

theorem guards_initPeer {i : Nat} (hi : i < tun.peers.count) (d : InitDraws)
    (dest : Destination) :
    let built := wgHandshakeInitPeer P tun i d
    Guards counter tun
      ({ built.1 with
          peers := built.1.peers.modify i fun p =>
            { p with pendingHs := built.2.2, hsPending := true } },
        [.drawn d.index, .sent dest built.2.1.toBytes]) := by
  intro built
  refine guards_of_same ?_ rfl
  have hi' : i < built.1.peers.count := by
    simpa [built, wgHandshakeInitPeer] using hi
  have hbuilt : windowsOf built.1 = windowsOf tun := windowsOf_modifyPeer_same hi rfl rfl
  rw [← hbuilt]
  exact windowsOf_modifyPeer_same hi' rfl rfl

theorem guards_initCase {msg : WgHandshakeInit} {d : RespDraws} {err : WgError}
    {out : WgTunnel × List Event} (h : InitCase P tun msg d (err, out)) :
    Guards counter tun out := by
  cases h with
  | rejected _ tun' herr hsame => exact guards_of_same (windowsOf_of_sameSessions hsame) rfl
  | legacy decryptedStatic response keys hfind =>
      refine guards_of_install .legacy .legacyPrev
        (respondedSession tun.session keys d msg.senderIndex)
        (if tun.session.valid then tun.session else tun.prevSession) rfl rfl ?_
        (windowsOf_legacy _ _ _) rfl
      exact windowOf_kept _ tun.session tun.prevSession
  | peer i response keys hi =>
      refine guards_of_install (.peer i) (.peerPrev i)
        (respondedSession (tun.peers.get i).session keys d msg.senderIndex)
        (if (tun.peers.get i).session.valid then (tun.peers.get i).session
          else (tun.peers.get i).prevSession) rfl rfl ?_ (windowsOf_modifyPeer hi _) rfl
      exact windowOf_kept _ (tun.peers.get i).session (tun.peers.get i).prevSession

theorem guards_responseCase {msg : WgHandshakeResponse} {state : WgHandshakeState}
    {now : UInt64} {err : WgError} {tun' : WgTunnel} {events : List Event}
    (h : ResponseCase P tun msg state now err tun' events) : Guards counter tun (tun', events) := by
  cases h with
  | refused => exact guards_of_same rfl rfl
  | badTag hindex => exact guards_of_same (windowsOf_of_session rfl rfl rfl) rfl
  | installed keys sess hindex hsess =>
      subst hsess
      refine guards_of_install .legacy .legacyPrev _
        (if tun.session.valid then
            { tun.session with
              remoteIndex := msg.senderIndex
              localIndex := tun.session.oldLocalIndex }
          else tun.prevSession) rfl rfl ?_ (windowsOf_legacy _ _ _) rfl
      -- The indices that change are no part of the window.
      exact windowOf_kept _ _ tun.prevSession

theorem guards_peerResponseCase {i : Nat} (hi : i < tun.peers.count) {now : UInt64}
    {out : WgTunnel × List Event} (h : PeerResponseCase tun i now out) :
    Guards counter tun out := by
  cases h with
  | refused => exact guards_of_same rfl rfl
  | badTag remoteIndex pendingHs => exact guards_of_same (windowsOf_modifyPeer_same hi rfl rfl) rfl
  | installed keys remoteIndex sess hsess =>
      subst hsess
      exact guards_of_install (.peer i) (.peerPrev i) _ (tun.peers.get i).prevSession rfl rfl
        (.inl rfl) (windowsOf_modifyPeer hi _) rfl

theorem windowsOf_dropExpired {ref : SessionRef} (h : tun.Holds ref) :
    windowsOf (dropExpired tun ref) = windowsOf tun ∨
      windowsOf (dropExpired tun ref) = update (windowsOf tun) ref none := by
  cases ref with
  | legacy => exact .inl rfl
  | peer i => exact .inl rfl
  | legacyPrev =>
      refine .inr ?_
      funext ref
      cases ref <;> rfl
  | peerPrev i => exact .inr (view_of_update windowOf (sessions_modifySession h _))

theorem windowsOf_payloadReceived {ref : SessionRef} (href : tun.Holds ref)
    (receiverIndex : UInt32) (replay : WgReplayCounter) (counter now : UInt64) :
    windowsOf
        (payloadReceived tun ref (wgFindPeerByLocalIndex tun receiverIndex) replay counter now) =
      update (windowsOf tun) ref (windowOf { tun.getSession ref with replay := replay }) := by
  have hwindows := view_of_update windowOf
    (sessions_payloadReceived href receiverIndex replay counter now)
  exact hwindows

theorem guards_transportCase {buffer : Bytes} {received : Nat} {slot : Bool} {now : UInt64}
    {out : WgTunnel × List Event} (h : TransportCase P tun buffer received slot now out) :
    Guards (getU64 buffer 8) tun out := by
  cases h with
  | unknown hselect => exact guards_of_same rfl rfl
  | badTag ref hselect hfresh hlen hopen => exact guards_of_same rfl rfl
  | expired ref hselect hexpired =>
      rcases windowsOf_dropExpired (holds_of_selectSession hselect) with hsame | hdropped
      · exact guards_of_same hsame rfl
      · intro _
        rw [hdropped]
        exact .single (.clear ref)
  | empty ref hselect hfresh hlen =>
      have hwindows := view_of_update windowOf
        (sessions_emptyReceived (holds_of_selectSession hselect) (getU32 buffer 4) now)
      exact guards_of_same (hwindows.trans (update_eq_self ref (windowsOf tun))) rfl
  | replayed ref plaintext hselect hfresh hlen hopen hverdict =>
      have hsessions := sessions_modifySession (holds_of_selectSession hselect) fun s =>
        { s with replay := (wgCounterValidate (tun.getSession ref).replay (getU64 buffer 8)).2 }
      exact guards_of_check ref _ (windowOf_checked (getU64 buffer 8) (tun.getSession ref))
        (view_of_update windowOf hsessions) (.inl rfl)
  | accepted ref plaintext hselect hfresh hlen hopen hverdict =>
      refine guards_of_check ref _ (windowOf_checked (getU64 buffer 8) (tun.getSession ref))
        (windowsOf_payloadReceived (holds_of_selectSession hselect) _ _ _ _) ?_
      dsimp only
      split
      · exact .inr ⟨hverdict, plaintext.toList, now, rfl⟩
      · exact .inl rfl

theorem windowsOf_checked_legacy (replay : WgReplayCounter) (now receivingCounter : UInt64) :
    windowsOf { tun with session :=
        { tun.session with
          replay := replay, lastReceived := now, receivingCounter := receivingCounter } } =
      update (windowsOf tun) .legacy (windowOf { tun.session with replay := replay }) := by
  funext ref
  cases ref <;> rfl

/-- The counter of a datagram that was read. -/
def counterOf : SocketResult → UInt64
  | .datagram buffer _ _ => getU64 buffer 8
  | _ => 0

theorem counterOf_of_polledCounter {len : Nat} {result : SocketResult} {c : UInt64}
    (h : polledCounter P tun len result = some c) : c = counterOf result := by
  cases result with
  | datagram buffer received src =>
      simp only [polledCounter, Option.ite_none_right_eq_some] at h
      exact (Option.some.inj h.2).symm
  | _ => cases h

theorem guards_wgRecv (result : SocketResult) (len : Nat) (now : UInt64) :
    Guards (counterOf result) tun (wgRecv P tun result len now).2 := by
  have hcase := wgRecv_cases P tun result len now
  generalize wgRecv P tun result len now = out at hcase ⊢
  cases hcase with
  | refused err tun₁ hsame hnone => exact guards_of_same (windowsOf_of_sameSessions hsame) rfl
  | empty tun₁ hsame hnone =>
      refine Guards.of_sameSessions ?_ hsame
      exact guards_of_same (windowsOf_of_session rfl rfl rfl) rfl
  | replayed tun₁ hsame counter hcounter hverdict =>
      rw [← counterOf_of_polledCounter hcounter]
      refine Guards.of_sameSessions ?_ hsame
      exact guards_of_check .legacy _ (windowOf_checked counter tun₁.session)
        (windowsOf_checked_legacy _ tun₁.session.lastReceived tun₁.session.receivingCounter)
        (.inl rfl)
  | accepted tun₁ hsame counter plaintext hplaintext hcounter hverdict =>
      rw [← counterOf_of_polledCounter hcounter, ← hsame.session]
      refine Guards.of_sameSessions ?_ hsame
      exact guards_of_check .legacy _ (windowOf_checked counter tun₁.session)
        (windowsOf_checked_legacy _ _ _) (.inr ⟨hverdict, plaintext, now, rfl⟩)

/-- A sender moves no window. -/
theorem guards_of_seals {out : WgTunnel × List Event} (h : Seals tun out) :
    Guards counter tun out := by
  cases h with
  | refused => exact guards_of_same rfl rfl
  | one ref now tun' dest datagram href hsessions =>
      have hwindows := view_of_update windowOf hsessions
      exact guards_of_same (hwindows.trans (update_eq_self ref (windowsOf tun))) rfl

theorem guards_wgNetifOutput (data : Bytes) (ipaddr : UInt32) (d : InitDraws) (now : UInt64)
    (sent : Bool) : Guards counter tun (wgNetifOutput P tun data ipaddr d now sent).2 := by
  unfold wgNetifOutput
  dsimp only
  split
  · exact guards_of_same rfl rfl
  · split
    · exact guards_of_same rfl rfl
    · rename_i i hfind
      split
      · exact guards_initPeer (PeerTable.find_lt hfind) d _
      · exact guards_of_seals (seals_wgSendToPeer _ now sent)

theorem guards_recvThreadIteration (inp : RecvInput) :
    Guards (counterOf inp.result) tun (recvThreadIteration P tun inp) := by
  have hcase := recvThreadIteration_cases P tun inp
  generalize recvThreadIteration P tun inp = out at hcase ⊢
  cases hcase with
  | quiet tun' hsame => exact guards_of_same (windowsOf_of_sameSessions hsame) rfl
  | transport buffer received src out hresult hcase =>
      rw [hresult]
      exact (guards_transportCase hcase).of_sameSessions (sameSessions_noteSource tun src)
  | peerResponse src i out hi hcase =>
      have hnote := sameSessions_noteSource tun src
      have hi' : i < (noteSource tun src).peers.count := by
        rw [hnote.peers]
        exact hi
      exact (guards_peerResponseCase hi' hcase).of_sameSessions hnote
  | init src msg tun₁ events hcase =>
      have hinit : Guards (counterOf inp.result) tun (tun₁, events) :=
        (guards_initCase hcase).of_sameSessions (sameSessions_noteSource tun src)
      exact hinit.trans (guards_of_seals (seals_followUp inp.now))

/-- Both sessions of a record are cleared. -/
theorem guards_of_wipe {out : WgTunnel × List Event} (ref prev : SessionRef)
    (hwindows : windowsOf out.1 = update (update (windowsOf tun) prev none) ref none)
    (hsilent : out.2.filterMap (noteOf counter) = []) : Guards counter tun out := by
  intro _
  rw [hwindows, hsilent]
  exact (Path.single (SlotStep.clear prev)).tail (.clear ref)

theorem guards_keepalivePeer {i : Nat} (hi : i < tun.peers.count) (now clock : UInt64) :
    Guards counter tun (keepalivePeer P tun i now clock) := by
  unfold keepalivePeer
  dsimp only
  split
  · exact guards_of_same rfl rfl
  · split
    · exact guards_of_wipe (.peer i) (.peerPrev i) (windowsOf_modifyPeer hi _) rfl
    · split
      · exact guards_of_same rfl rfl
      · split
        · exact guards_of_seals (seals_wgSendKeepaliveToPeer hi clock)
        · exact guards_of_same rfl rfl

theorem guards_keepalivePeers (now : UInt64) (clock : Nat → UInt64) (indices : List Nat)
    (h : ∀ i ∈ indices, i < tun.peers.count) :
    Guards counter tun (keepalivePeers P now clock indices tun) := by
  induction indices generalizing tun with
  | nil => exact guards_of_same rfl rfl
  | cons i rest ih =>
      have hturn : Guards counter tun (keepalivePeer P tun i now (clock i)) :=
        guards_keepalivePeer (h i List.mem_cons_self) now (clock i)
      have hrest : Guards counter (keepalivePeer P tun i now (clock i)).1
          (keepalivePeers P now clock rest (keepalivePeer P tun i now (clock i)).1) := by
        apply ih
        intro j hj
        rw [count_keepalivePeer]
        exact h j (List.mem_cons_of_mem _ hj)
      exact hturn.trans hrest

theorem guards_keepalivePass (now : UInt64) (clock : Nat → UInt64) :
    Guards counter tun (keepalivePass P tun now clock) := by
  have hpeers : Guards counter tun
      (keepalivePeers P now clock (List.range tun.peers.count) tun) :=
    guards_keepalivePeers now clock _ fun i hi => List.mem_range.mp hi
  apply hpeers.trans
  unfold keepaliveLegacy
  split
  · exact guards_of_wipe .legacy .legacyPrev (windowsOf_legacy _ _ _) rfl
  · exact guards_of_same rfl rfl

end Functions

section Machine

variable {P : Primitives} {counter : UInt64}

theorem guards_connectEnd (tun : WgTunnel) (state : WgHandshakeState) (result : SocketResult)
    (resp : RespDraws) (now : UInt64) :
    Guards counter tun (SessionCalls.connectEnd P tun state result resp now).2 := by
  have hcase := connectEnd_cases P tun state result resp now
  have hnote := sameSessions_noteSource tun (SocketResult.src result)
  generalize SessionCalls.connectEnd P tun state result resp now = ended at hcase ⊢
  cases hcase with
  | retried err tun' herr hsame hinit =>
      exact guards_of_same (windowsOf_of_sameSessions (hsame.trans hnote)) rfl
  | passive msg hcookie hinit =>
      have hcase := wgHandshakeInitProcess_cases P
        (noteSource tun (SocketResult.src result)) msg resp
      exact (guards_initCase hcase).of_sameSessions hnote
  | response msg err tun' events hcase hinit =>
      exact (guards_responseCase hcase).of_sameSessions hnote

theorem guards_rekeyEnd (tun : WgTunnel) (state : WgHandshakeState) (now : UInt64) :
    Guards counter tun (SessionCalls.rekeyEnd P tun state now).2 := by
  unfold SessionCalls.rekeyEnd
  split
  · exact guards_of_same (windowsOf_of_sameSessions ⟨rfl, rfl, rfl⟩) rfl
  · split
    · exact guards_of_same rfl rfl
    · split
      · exact guards_of_same rfl rfl
      · exact guards_responseCase (wgHandshakeResponse_cases P tun _ state now)

theorem guards_connectFinish (tun : WgTunnel) (err : WgError) (now : UInt64) :
    Guards counter tun (SessionCalls.connectFinish P err tun now).2 := by
  unfold SessionCalls.connectFinish
  split
  · exact guards_of_same (windowsOf_of_session rfl rfl rfl) rfl
  · exact guards_of_seals (seals_wgSendKeepalive now)

theorem guards_rekeyFinish (tun : WgTunnel) (saved : UInt32) (err : WgError) (now : UInt64) :
    Guards counter tun (SessionCalls.rekeyFinish P saved err tun now).2 := by
  unfold SessionCalls.rekeyFinish
  split
  · exact guards_of_same (windowsOf_of_session rfl rfl rfl) rfl
  · exact guards_of_seals (seals_wgSendKeepalive now)

/-- The counter of the datagram an action reads. -/
def actionCounter : Action → UInt64
  | .recv inp => counterOf inp.result
  | .wgRecv result _ _ => counterOf result
  | _ => 0

/-- The packets an action delivers have counters of the current lap. -/
def DeliversInLap (P : Primitives) (s : Endpoint) (a : Action) : Prop :=
  ∀ e ∈ (step P s a).2, InLap (actionCounter a) e

instance (s : Endpoint) (a : Action) : Decidable (DeliversInLap P s a) :=
  inferInstanceAs (Decidable (∀ e ∈ (step P s a).2, InLap (actionCounter a) e))

theorem guards_stepTunnel (tun : WgTunnel) (a : Action) :
    Guards (actionCounter a) tun (stepTunnel P tun a) := by
  have hidle : ∀ counter, Guards counter tun (tun, []) := fun _ => guards_of_same rfl rfl
  cases a with
  | addPeer publicKey relayHash ipRaw =>
      exact guards_of_same
        (congrArg (windowOf ∘ ·) (sessions_wgAddPeer tun publicKey relayHash ipRaw)) rfl
  | setRecvCallback cb user =>
      exact guards_of_same (windowsOf_of_sameSessions ⟨rfl, rfl, rfl⟩) rfl
  | start recvThread keepaliveThread =>
      refine guards_of_same (windowsOf_of_sameSessions ?_) rfl
      simp only [stepTunnel, wgStart]
      split
      · exact ⟨rfl, rfl, rfl⟩
      · split
        · exact ⟨rfl, rfl, rfl⟩
        · split <;> exact ⟨rfl, rfl, rfl⟩
  | stop => exact guards_of_same (windowsOf_of_sameSessions ⟨rfl, rfl, rfl⟩) rfl
  | recv inp =>
      simp only [stepTunnel]
      split
      · exact guards_recvThreadIteration inp
      · exact hidle _
  | keepalive now clock =>
      simp only [stepTunnel]
      split
      · exact guards_keepalivePass now clock
      · exact hidle _
  | send data now sent => exact guards_of_seals (seals_wgSend data now sent)
  | sendToPeer i data now sent => exact guards_of_seals (seals_wgSendToPeer data now sent)
  | wgRecv result len now => exact guards_wgRecv result len now
  | output data ipaddr d now sent => exact guards_wgNetifOutput data ipaddr d now sent
  | _ => exact hidle _

theorem guards_stepConnect (s : Endpoint) (a : Action) :
    Guards counter s.tun ((stepConnect P s a).1.tun, (stepConnect P s a).2) := by
  have hidle : Guards counter s.tun (s.tun, []) := guards_of_same rfl rfl
  cases a with
  | callConnect fd =>
      have hopen : windowsOf (openSocket s.tun fd) = windowsOf s.tun := by
        unfold openSocket
        split
        · exact windowsOf_of_sameSessions ⟨rfl, rfl, rfl⟩
        · rfl
      simp only [stepConnect]
      split
      · split <;> exact guards_of_same hopen rfl
      · exact hidle
  | connectBegin d sent =>
      simp only [stepConnect]
      split
      · split
        · exact guards_beginAttempt d
        · have hcleared : Guards counter (beginAttempt P s.tun d).1
              ({ (beginAttempt P s.tun d).1 with pendingCookie := false }, []) :=
            guards_of_same (windowsOf_of_sameSessions ⟨rfl, rfl, rfl⟩) rfl
          exact (guards_beginAttempt d).trans hcleared
      · exact hidle
  | connectEnd result resp now =>
      simp only [stepConnect]
      split
      · exact guards_connectEnd s.tun _ result resp now
      · exact hidle
  | connectFinish now =>
      simp only [stepConnect]
      split
      · exact guards_connectFinish s.tun _ now
      · exact hidle
  | _ => exact hidle

theorem guards_stepRekey (s : Endpoint) (a : Action) :
    Guards counter s.tun ((stepRekey P s a).1.tun, (stepRekey P s a).2) := by
  have hidle : Guards counter s.tun (s.tun, []) := guards_of_same rfl rfl
  cases a with
  | callRekey =>
      simp only [stepRekey]
      split
      · exact guards_of_same (windowsOf_of_sameSessions ⟨rfl, rfl, rfl⟩) rfl
      · exact hidle
  | rekeyBegin d sent =>
      simp only [stepRekey]
      split
      · have hbegin : Guards counter s.tun
            ((beginAttempt P { s.tun with pendingResponse := [], pendingCookie := false } d).1,
              (beginAttempt P { s.tun with pendingResponse := [], pendingCookie := false }
                d).2.2) :=
          (guards_beginAttempt d).of_sameSessions ⟨rfl, rfl, rfl⟩
        split <;> exact hbegin
      · exact hidle
  | rekeyEnd now =>
      simp only [stepRekey]
      split
      · exact guards_rekeyEnd s.tun _ now
      · exact hidle
  | rekeyFinish now =>
      simp only [stepRekey]
      split
      · exact guards_rekeyFinish s.tun _ _ now
      · exact hidle
  | _ => exact hidle

theorem step_guards (s : Endpoint) (a : Action) :
    Guards (actionCounter a) s.tun ((step P s a).1.tun, (step P s a).2) := by
  cases a with
  | callConnect => exact guards_stepConnect s _
  | connectBegin => exact guards_stepConnect s _
  | connectEnd => exact guards_stepConnect s _
  | connectFinish => exact guards_stepConnect s _
  | callRekey => exact guards_stepRekey s _
  | rekeyBegin => exact guards_stepRekey s _
  | rekeyEnd => exact guards_stepRekey s _
  | rekeyFinish => exact guards_stepRekey s _
  | _ => exact guards_stepTunnel (P := P) s.tun _

end Machine

section Run

variable (P : Primitives)

/-- A step with what it means for the windows. -/
def traced (s : Endpoint) (a : Action) : Endpoint × List (Label Key UInt64) :=
  ((step P s a).1, (step P s a).2.filterMap (noteOf (actionCounter a)))

/-- The keys handshakes installed for receiving. -/
def receivingKeys (s : Endpoint) (actions : List Action) : List Key :=
  installedKeys (run (traced P) s actions).2

/-- The packets delivered out of valid sessions, each with its key and its counter. -/
def deliveredPackets (s : Endpoint) (actions : List Action) : List (Key × UInt64) :=
  takenNumbers (run (traced P) s actions).2

variable {P}

theorem run_guards {s : Endpoint} {actions : List Action}
    (hlap : AllSteps (step P) (DeliversInLap P) s actions) :
    Path (SlotStep windowMemory) (windowsOf s.tun) (run (traced P) s actions).2
      (windowsOf (run (traced P) s actions).1.tun) := by
  induction actions generalizing s with
  | nil => exact .refl _
  | cons a rest ih => exact OutputMachine.Path.trans (step_guards s a hlap.1) (ih hlap.2)

theorem windowsOf_initial (config : WgConfig) (endpoint : SockAddr) :
    windowsOf (initialTunnel P config endpoint) = fun _ => none := by
  funext ref
  cases ref <;> rfl

/-- An iteration of the receive loop and a call of `wg_recv` are one step each.  In every run of
such steps in which no receiving key is established twice and no packet is delivered a lap
behind, no packet is delivered twice: not across handshakes, not out of a previous session,
and not once by the receive thread and once by `wg_recv`. -/
theorem delivered_at_most_once (config : WgConfig) (endpoint : SockAddr) (actions : List Action)
    (hlap : AllSteps (step P) (DeliversInLap P) (initial P config endpoint) actions)
    (hkeys : (receivingKeys P (initial P config endpoint) actions).Nodup) :
    (deliveredPackets P (initial P config endpoint) actions).Nodup := by
  have hpath := run_guards hlap
  rw [show windowsOf (initial P config endpoint).tun = fun _ => none from
    windowsOf_initial config endpoint] at hpath
  exact takenNumbers_nodup hpath hkeys

end Run

section Samples

/-- A running tunnel with an accepted session. -/
def receivingTunnel : List Action :=
  connectAnsweredBy (Vector.replicate 32 5) 21 1000 ++
    [.setRecvCallback (some 1) 0, .start true true]

/-- What the other side of the session sends first. -/
def firstPacket : Bytes :=
  let sess := (run (step additive) (initial additive sampleConfig ⟨0, 51820⟩)
    receivingTunnel).1.tun.session
  transportPacket additive
    { WgSession.zeroed with sendingKey := sess.receivingKey, remoteIndex := sess.localIndex } [1, 2]

/-- The packet arrives twice, and once more for the previous session after a handshake. -/
def replayingRun : List Action :=
  let arrival : Action := .recv ⟨true, .ofBytes firstPacket none, ⟨zeroKey, 0, 0⟩, 2000⟩
  receivingTunnel ++ [arrival, arrival] ++ connectAnsweredBy (Vector.replicate 32 5) 31 3000 ++
    [arrival]

theorem delivered_at_most_once_replaying :
    let s := initial additive sampleConfig ⟨0, 51820⟩
    AllSteps (step additive) (DeliversInLap additive) s replayingRun ∧
      (receivingKeys additive s replayingRun).Nodup ∧
      (deliveredPackets additive s replayingRun).length = 1 ∧
      (deliveredPackets additive s replayingRun).Nodup := by
  intro s
  have hrun : AllSteps (step additive) (DeliversInLap additive) s replayingRun ∧
      (receivingKeys additive s replayingRun).Nodup ∧
      (deliveredPackets additive s replayingRun).length = 1 := by
    decide +kernel
  obtain ⟨hlap, hkeys, hlength⟩ := hrun
  exact ⟨hlap, hkeys, hlength,
    delivered_at_most_once sampleConfig ⟨0, 51820⟩ replayingRun hlap hkeys⟩

end Samples

end WgNx.DeliveryUniqueness
