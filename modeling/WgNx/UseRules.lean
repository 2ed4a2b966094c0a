import WgNx.SessionUses

/-!
Rules for the use of sessions, as conditions on the state before a step.

A rule says when a packet may be sealed under a session and when a plaintext may be
delivered out of it.  `wg_send` and the receive loop look at the session they use; for
every other path the module says which session it takes and at which clock reading.  A
step keeps to a rule exactly if all those sessions do.
-/

namespace WgNx.UseRules

open WgNx.ByteLayout
open WgNx.CryptoPrimitives
open WgNx.EndpointMachine
open WgNx.NoiseHandshake
open WgNx.OutputMachine
open WgNx.ReplayCounter
open WgNx.SessionCalls
open WgNx.SessionUses
open WgNx.TransportReceive
open WgNx.TransportSend
open WgNx.TunnelSetup
open WgNx.TunnelState
open WgNx.WireMessages

/-- What a rule sees of a session. -/
structure Standing where
  valid : Bool
  sendingCounter : UInt64
  lastHandshake : UInt64
  deriving DecidableEq

def Standing.Expired (st : Standing) (now : UInt64) : Prop :=
  wgRejectAfterTimeNs ≤ now - st.lastHandshake

instance (st : Standing) (now : UInt64) : Decidable (st.Expired now) :=
  inferInstanceAs (Decidable (_ ≤ _))

def standing (sess : WgSession) : Standing :=
  ⟨sess.valid, sess.sendingCounter, sess.lastHandshake⟩

/-- A rule that the tests of `wg_send` and of the receive loop are enough for. -/
structure UseRule where
  maySeal : Standing → UInt64 → Prop
  mayDeliver : Standing → UInt64 → Prop
  maySeal_of_checked : ∀ st now, st.valid = true → ¬ st.Expired now →
    st.sendingCounter < wgRejectAfterMessages → maySeal st now
  mayDeliver_of_fresh : ∀ st now, ¬ st.Expired now → mayDeliver st now

namespace UseRule

def Allows (rule : UseRule) : Event → Prop
  | .sealed _ sess now => rule.maySeal (standing sess) now
  | .delivered _ sess _ now => rule.mayDeliver (standing sess) now
  | _ => True

def Kept (rule : UseRule) (events : List Event) : Prop := ∀ e ∈ events, rule.Allows e

variable (rule : UseRule)

theorem kept_nil : rule.Kept [] := by
  simp [Kept]

theorem kept_append {events events' : List Event} :
    rule.Kept (events ++ events') ↔ rule.Kept events ∧ rule.Kept events' :=
  List.forall_mem_append

theorem kept_of_silent {events : List Event} (h : Silent events) : rule.Kept events := by
  intro e he
  have hsilent := h e he
  cases e with
  | sealed => exact absurd hsilent.1 (by simp [isSeal])
  | delivered => exact absurd hsilent.2 (by simp [isDelivery])
  | _ => trivial

/-- A packet that is sealed and handed to the socket. -/
theorem kept_sealed_iff (ref : SessionRef) (sess : WgSession) (now : UInt64)
    (dest : Destination) (datagram : Bytes) :
    rule.Kept [.sealed ref sess now, .sent dest datagram] ↔ rule.maySeal (standing sess) now := by
  simp [Kept, Allows]

section Senders

variable (P : Primitives) (tun : WgTunnel)

theorem kept_wgSend (data : Bytes) (now : UInt64) (sent : Bool) :
    rule.Kept (wgSend P tun data now sent).2.2 := by
  unfold wgSend
  split
  · exact rule.kept_nil
  · rename_i hvalid
    split
    · exact rule.kept_nil
    · rename_i hexpired
      split
      · exact rule.kept_nil
      · have hvalid' : tun.session.valid = true := by simpa using hvalid
        have hchecked : ¬ tun.session.Expired now ∧
            tun.session.sendingCounter < wgRejectAfterMessages := by
          simpa [wgSessionExpired, hvalid'] using hexpired
        apply (rule.kept_sealed_iff ..).mpr
        exact rule.maySeal_of_checked _ now hvalid' hchecked.1 hchecked.2

/-- The tests `wg_send_to_peer` makes before it seals. -/
def SendsToPeer (i : Nat) (data : Bytes) : Prop :=
  (tun.peers.get i).connected = true ∧ (tun.peers.get i).session.valid = true ∧
    packetTooLong data = false

instance (i : Nat) (data : Bytes) : Decidable (SendsToPeer tun i data) :=
  inferInstanceAs (Decidable (_ ∧ _))

theorem kept_wgSendToPeer_iff (i : Nat) (data : Bytes) (now : UInt64) (sent : Bool) :
    rule.Kept (wgSendToPeer P tun i data now sent).2.2 ↔
      (SendsToPeer tun i data → rule.maySeal (standing (tun.peers.get i).session) now) := by
  unfold wgSendToPeer
  dsimp only
  split
  · rename_i hdown
    refine iff_of_true rule.kept_nil ?_
    rintro ⟨hconnected, hvalid, -⟩
    simp [hconnected, hvalid] at hdown
  · rename_i hup
    split
    · rename_i hlong
      refine iff_of_true rule.kept_nil ?_
      rintro ⟨-, -, hshort⟩
      rw [hlong] at hshort
      cases hshort
    · rename_i hshort
      rw [kept_sealed_iff]
      refine ⟨fun h _ => h, fun h => h ⟨?_, ?_, by simpa using hshort⟩⟩
      · simp_all
      · simp_all

/-- The entry a packet of the IP stack is sent to. -/
def targetOf (data : Bytes) (ipaddr : UInt32) : Option Nat :=
  if (data.take 1500).length = 0 then none else wgFindPeerByIp tun ipaddr

theorem kept_wgNetifOutput_iff (data : Bytes) (ipaddr : UInt32) (d : InitDraws)
    (now : UInt64) (sent : Bool) :
    rule.Kept (wgNetifOutput P tun data ipaddr d now sent).2.2 ↔
      ∀ i ∈ targetOf tun data ipaddr, SendsToPeer tun i (data.take 1500) →
        rule.maySeal (standing (tun.peers.get i).session) now := by
  unfold wgNetifOutput targetOf
  dsimp only
  split
  · exact iff_of_true rule.kept_nil (by simp)
  · cases wgFindPeerByIp tun ipaddr with
    | none => exact iff_of_true rule.kept_nil (by simp)
    | some i =>
        simp only [Option.mem_some_iff, forall_eq']
        split
        · rename_i hdown
          refine iff_of_true (by simp [Kept, Allows]) ?_
          rintro ⟨hconnected, hvalid, -⟩
          simp [hconnected, hvalid] at hdown
        · exact rule.kept_wgSendToPeer_iff P tun i _ now sent

end Senders

section Receivers

variable (P : Primitives)

/-- The entry that gets the keepalive after an accepted INIT: the first one with a session,
where the entry of the sender has one now. -/
def keepaliveTarget (tun : WgTunnel) : Option Nat → Option Nat
  | none => firstConnected tun
  | some i => some ((firstConnected tun).elim i (min i))

/-- The session that keepalive is sealed under. -/
def followUpStanding (tun : WgTunnel) (inp : RecvInput) : Option Standing :=
  (receivedKey P tun inp.result).bind fun key =>
    (keepaliveTarget tun (wgFindPeerByPublicKey tun key)).map fun i =>
      if wgFindPeerByPublicKey tun key = some i then ⟨true, 0, inp.draws.now⟩
      else standing (tun.peers.get i).session

theorem kept_followUp_iff (tun : WgTunnel) (now : UInt64) :
    rule.Kept (followUp P tun now).2 ↔
      ∀ i ∈ firstConnected tun, rule.maySeal (standing (tun.peers.get i).session) now := by
  unfold followUp
  cases firstConnected tun with
  | none => exact iff_of_true rule.kept_nil (by simp)
  | some i =>
      simp only [Option.mem_some_iff, forall_eq']
      exact rule.kept_sealed_iff ..

theorem kept_followUp_initCase {tun : WgTunnel} {msg : WgHandshakeInit} {inp : RecvInput}
    {out : WgTunnel × List Event} (h : InitCase P tun msg inp.draws (.ok, out))
    (hkey : receivedKey P tun inp.result = acceptedKey P tun msg) :
    rule.Kept (followUp P out.1 inp.now).2 ↔
      ∀ st ∈ followUpStanding P tun inp, rule.maySeal st inp.now := by
  rw [kept_followUp_iff, followUpStanding, hkey]
  cases h with
  | rejected _ _ herr => exact absurd rfl herr
  | legacy decryptedStatic response keys hfind haccepted =>
      have htarget : firstConnected (respondLegacy { tun with lastMac1 := msg.mac1 } msg
          decryptedStatic response keys inp.draws).1 = firstConnected tun := rfl
      have hpeers : (respondLegacy { tun with lastMac1 := msg.mac1 } msg decryptedStatic response
          keys inp.draws).1.peers = tun.peers := rfl
      simp only [htarget, hpeers, haccepted, Option.bind_some, hfind, keepaliveTarget,
        reduceCtorEq, if_false, Option.mem_map, forall_exists_index, and_imp,
        forall_apply_eq_imp_iff₂]
  | peer i response keys hi decryptedStatic hfind haccepted =>
      have htarget : firstConnected (respondPeer { tun with lastMac1 := msg.mac1 } i msg response
          keys inp.draws).1 = keepaliveTarget tun (some i) :=
        PeerTable.find_modify hi rfl
      have hstanding : ∀ j, standing ((respondPeer { tun with lastMac1 := msg.mac1 } i msg
          response keys inp.draws).1.peers.get j).session =
            if some i = some j then ⟨true, 0, inp.draws.now⟩
            else standing (tun.peers.get j).session := by
        intro j
        rw [respondPeer, PeerTable.get_modify _ _ _ _ hi]
        rcases eq_or_ne i j with rfl | hne
        · rw [if_pos rfl, if_pos rfl]
          rfl
        · rw [if_neg hne, if_neg (by simpa using hne)]
      simp only [htarget, hstanding, haccepted, Option.bind_some, hfind, Option.mem_map,
        forall_exists_index, and_imp, forall_apply_eq_imp_iff₂]

theorem followUpStanding_noteSource (tun : WgTunnel) (src : Option SockAddr) (inp : RecvInput) :
    followUpStanding P (noteSource tun src) inp = followUpStanding P tun inp := by
  cases src with
  | none => rfl
  | some addr => rfl

/-- The receive loop looks at the session of a transport packet; after an INIT it sends a
keepalive under a session it does not look at. -/
theorem kept_recvThreadIteration_iff (tun : WgTunnel) (inp : RecvInput) :
    rule.Kept (recvThreadIteration P tun inp).2 ↔
      ∀ st ∈ followUpStanding P tun inp, rule.maySeal st inp.now := by
  have hcase := recvThreadIteration_cases P tun inp
  generalize recvThreadIteration P tun inp = out at hcase ⊢
  have hquiet : receivedKey P tun inp.result = none → rule.Kept out.2 →
      (rule.Kept out.2 ↔ ∀ st ∈ followUpStanding P tun inp, rule.maySeal st inp.now) := by
    intro hkey hkept
    simp [followUpStanding, hkey, hkept]
  cases hcase with
  | quiet tun' hsame hkey => exact hquiet hkey rule.kept_nil
  | transport buffer received src out hresult hcase htype =>
      refine hquiet ?_ fun e he => ?_
      · rw [hresult]
        exact receivedKey_of_type P (by rw [htype]; decide)
      · obtain ⟨ref, plaintext, hchecked, -, rfl⟩ := hcase.events he
        have hfresh := (checkedPacket_eq_some P hchecked).2
        exact rule.mayDeliver_of_fresh _ inp.now hfresh
  | peerResponse src i out hi hcase hkey =>
      exact hquiet hkey (rule.kept_of_silent (silent_peerResponseCase hcase))
  | init src msg tun₁ events hcase hkey =>
      have hevents : rule.Kept events := rule.kept_of_silent (silent_initCase hcase)
      rw [kept_append, and_iff_right hevents, ← followUpStanding_noteSource P tun src]
      refine rule.kept_followUp_initCase P hcase ?_
      rw [acceptedKey_noteSource, ← hkey]
      cases inp.result with
      | datagram buffer received src' =>
          simp only [receivedKey, funext (acceptedKey_noteSource P tun src)]
      | _ => rfl

theorem kept_wgRecv_iff (tun : WgTunnel) (result : SocketResult) (len : Nat)
    (now : UInt64) :
    rule.Kept (wgRecv P tun result len now).2.2 ↔
      ∀ counter ∈ polledCounter P tun len result,
        (wgCounterValidate tun.session.replay counter).1 = true →
          rule.mayDeliver (standing tun.session) now := by
  have hcase := wgRecv_cases P tun result len now
  generalize wgRecv P tun result len now = out at hcase ⊢
  cases hcase with
  | refused err tun₁ hsame hnone => exact iff_of_true rule.kept_nil (by simp [hnone])
  | empty tun₁ hsame hnone => exact iff_of_true rule.kept_nil (by simp [hnone])
  | replayed tun₁ hsame counter hcounter hverdict =>
      refine iff_of_true rule.kept_nil fun c hc haccepted => ?_
      rw [hcounter, Option.mem_some_iff] at hc
      rw [← hc, ← hsame.session, hverdict] at haccepted
      cases haccepted
  | accepted tun₁ hsame counter plaintext hplaintext hcounter hverdict =>
      rw [hsame.session] at hverdict
      simp [Kept, Allows, hcounter, hverdict]

end Receivers

section Keepalives

variable (P : Primitives)

/-- A pass sends a keepalive to this entry. -/
def KeepaliveOwed (tun : WgTunnel) (now : UInt64) (i : Nat) : Prop :=
  (tun.peers.get i).configured = true ∧ (tun.peers.get i).session.valid = true ∧
    ¬ wgZeroKeyTimeoutNs ≤ now - (tun.peers.get i).session.lastHandshake ∧
    keepaliveDue tun (tun.peers.get i) now = true

instance (tun : WgTunnel) (now : UInt64) (i : Nat) : Decidable (KeepaliveOwed tun now i) :=
  inferInstanceAs (Decidable (_ ∧ _))

theorem kept_keepalivePeer_iff (tun : WgTunnel) (i : Nat) (now clock : UInt64) :
    rule.Kept (keepalivePeer P tun i now clock).2 ↔
      (KeepaliveOwed tun now i →
        rule.maySeal (standing (tun.peers.get i).session) clock) := by
  unfold keepalivePeer KeepaliveOwed
  dsimp only
  split
  · rename_i hconfigured
    refine iff_of_true rule.kept_nil ?_
    rintro ⟨h, -⟩
    simp [h] at hconfigured
  · rename_i hconfigured
    split
    · rename_i hold
      refine iff_of_true (by simp [Kept, Allows]) ?_
      rintro ⟨-, -, hyoung, -⟩
      exact absurd hold.2 hyoung
    · rename_i hyoung
      split
      · rename_i hinvalid
        refine iff_of_true rule.kept_nil ?_
        rintro ⟨-, hvalid, -⟩
        simp [hvalid] at hinvalid
      · rename_i hvalid
        have hvalid' : (tun.peers.get i).session.valid = true := by simpa using hvalid
        split
        · rename_i hdue
          have hevents : rule.Kept (wgSendKeepaliveToPeer P tun i clock).2 ↔
              rule.maySeal (standing (tun.peers.get i).session) clock :=
            rule.kept_sealed_iff ..
          rw [hevents]
          refine ⟨fun h _ => h, fun h => h ⟨by simpa using hconfigured, hvalid', ?_, hdue⟩⟩
          intro hold
          exact hyoung ⟨hvalid', hold⟩
        · rename_i hdue
          refine iff_of_true rule.kept_nil ?_
          rintro ⟨-, -, -, h⟩
          exact absurd h hdue

/-- A turn of the loop leaves the other entries and the interval alone. -/
theorem keepalivePeer_frame (tun : WgTunnel) {i : Nat} (hi : i < tun.peers.count)
    (now clock : UInt64) :
    (keepalivePeer P tun i now clock).1.keepaliveInterval = tun.keepaliveInterval ∧
      ∀ j, j ≠ i → (keepalivePeer P tun i now clock).1.peers.get j = tun.peers.get j := by
  have hother : ∀ (f : WgPeer → WgPeer) j, j ≠ i →
      (tun.peers.modify i f).get j = tun.peers.get j := by
    intro f j hne
    rw [PeerTable.get_modify _ _ _ _ hi, if_neg hne.symm]
  unfold keepalivePeer
  dsimp only
  split
  · exact ⟨rfl, fun _ _ => rfl⟩
  · split
    · exact ⟨rfl, hother _⟩
    · split
      · exact ⟨rfl, fun _ _ => rfl⟩
      · split
        · exact ⟨rfl, hother _⟩
        · exact ⟨rfl, fun _ _ => rfl⟩

theorem kept_keepalivePeers_iff (now : UInt64) (clock : Nat → UInt64)
    (indices : List Nat) (tun : WgTunnel) (hnodup : indices.Nodup)
    (hin : ∀ i ∈ indices, i < tun.peers.count) :
    rule.Kept (keepalivePeers P now clock indices tun).2 ↔
      ∀ i ∈ indices, KeepaliveOwed tun now i →
        rule.maySeal (standing (tun.peers.get i).session) (clock i) := by
  induction indices generalizing tun with
  | nil => exact iff_of_true rule.kept_nil (by simp)
  | cons i rest ih =>
      obtain ⟨hnotin, hrest⟩ := List.nodup_cons.mp hnodup
      have hi := hin i (List.mem_cons_self ..)
      obtain ⟨hinterval, hframe⟩ := keepalivePeer_frame P tun hi now (clock i)
      have hlater := ih (keepalivePeer P tun i now (clock i)).1 hrest (by
        intro j hj
        rw [count_keepalivePeer]
        exact hin j (List.mem_cons_of_mem _ hj))
      rw [List.forall_mem_cons, ← kept_keepalivePeer_iff rule P tun i now (clock i)]
      refine rule.kept_append.trans (and_congr_right fun _ => hlater.trans ?_)
      -- The entries that come later are still those of the start of the pass.
      apply forall₂_congr
      intro j hj
      have hne : j ≠ i := by
        rintro rfl
        exact hnotin hj
      unfold KeepaliveOwed keepaliveDue
      rw [hframe j hne, hinterval]

theorem kept_keepalivePass_iff (tun : WgTunnel) (now : UInt64) (clock : Nat → UInt64) :
    rule.Kept (keepalivePass P tun now clock).2 ↔
      ∀ i < tun.peers.count, KeepaliveOwed tun now i →
        rule.maySeal (standing (tun.peers.get i).session) (clock i) := by
  have hlegacy : ∀ tun' : WgTunnel, rule.Kept (keepaliveLegacy tun' now).2 := by
    intro tun'
    unfold keepaliveLegacy
    split
    · simp [Kept, Allows]
    · exact rule.kept_nil
  have hpeers := rule.kept_keepalivePeers_iff P now clock (List.range tun.peers.count) tun
    List.nodup_range (fun i hi => List.mem_range.mp hi)
  simp only [List.mem_range] at hpeers
  rw [← hpeers]
  exact rule.kept_append.trans (and_iff_left (hlegacy _))

end Keepalives

section Steps

variable (P : Primitives)

/-- A rekey has succeeded and is about to return. -/
def rekeyed : Phase → Bool
  | .rekeyDone _ err => decide (err = .ok)
  | _ => false

/-- What a rule asks of the state before a step: every session that is taken without a look
at it meets the rule at that clock reading. -/
def Admits (s : Endpoint) : Action → Prop
  | .connectFinish now => s.phase = .connectDone .ok → rule.maySeal (standing s.tun.session) now
  | .rekeyFinish now => rekeyed s.phase = true → rule.maySeal (standing s.tun.session) now
  | .recv inp => s.tun.running = true →
      ∀ st ∈ followUpStanding P s.tun inp, rule.maySeal st inp.now
  | .keepalive now clock => s.tun.running = true →
      ∀ i < s.tun.peers.count, KeepaliveOwed s.tun now i →
        rule.maySeal (standing (s.tun.peers.get i).session) (clock i)
  | .sendToPeer i data now _ =>
      SendsToPeer s.tun i data → rule.maySeal (standing (s.tun.peers.get i).session) now
  | .output data ipaddr _ now _ =>
      ∀ i ∈ targetOf s.tun data ipaddr, SendsToPeer s.tun i (data.take 1500) →
        rule.maySeal (standing (s.tun.peers.get i).session) now
  | .wgRecv result len now =>
      ∀ counter ∈ polledCounter P s.tun len result,
        (wgCounterValidate s.tun.session.replay counter).1 = true →
          rule.mayDeliver (standing s.tun.session) now
  | _ => True

instance decidableAdmits [∀ st now, Decidable (rule.maySeal st now)]
    [∀ st now, Decidable (rule.mayDeliver st now)] (s : Endpoint) :
    ∀ a, Decidable (rule.Admits P s a)
  | .connectFinish _ => inferInstanceAs (Decidable (_ = _ → _))
  | .rekeyFinish _ => inferInstanceAs (Decidable (_ = _ → _))
  | .recv inp =>
      inferInstanceAs (Decidable (_ = _ → ∀ st ∈ followUpStanding P s.tun inp, _))
  | .keepalive _ _ => inferInstanceAs (Decidable (_ = _ → ∀ i < s.tun.peers.count, _ → _))
  | .sendToPeer i data _ _ => inferInstanceAs (Decidable (SendsToPeer s.tun i data → _))
  | .output data ipaddr _ _ _ =>
      inferInstanceAs (Decidable (∀ i ∈ targetOf s.tun data ipaddr, _ → _))
  | .wgRecv result len _ =>
      inferInstanceAs (Decidable (∀ counter ∈ polledCounter P s.tun len result, _ → _))
  | .addPeer _ _ _ => isTrue trivial
  | .setRecvCallback _ _ => isTrue trivial
  | .start _ _ => isTrue trivial
  | .stop => isTrue trivial
  | .callConnect _ => isTrue trivial
  | .connectBegin _ _ => isTrue trivial
  | .connectEnd _ _ _ => isTrue trivial
  | .callRekey => isTrue trivial
  | .rekeyBegin _ _ => isTrue trivial
  | .rekeyEnd _ => isTrue trivial
  | .send _ _ _ => isTrue trivial

theorem kept_if_running (tun : WgTunnel) (out : WgTunnel × List Event) :
    rule.Kept (if tun.running then out else (tun, [])).2 ↔
      (tun.running = true → rule.Kept out.2) := by
  split
  · rename_i hrunning
    exact ⟨fun h _ => h, fun h => h hrunning⟩
  · rename_i hstopped
    exact iff_of_true rule.kept_nil fun hrunning => absurd hrunning hstopped

/-- The events of a step keep to the rule exactly if the state before it does. -/
theorem kept_step_iff (s : Endpoint) (a : Action) :
    rule.Kept (step P s a).2 ↔ rule.Admits P s a := by
  obtain ⟨tun, phase⟩ := s
  cases a with
  | connectFinish now =>
      cases phase with
      | connectDone err =>
          by_cases herr : err = .ok
          · subst herr
            exact (rule.kept_sealed_iff ..).trans ⟨fun h _ => h, fun h => h rfl⟩
          · simp only [step, stepConnect, SessionCalls.connectFinish, if_pos herr]
            refine iff_of_true rule.kept_nil fun hdone => ?_
            cases hdone
            exact absurd rfl herr
      | _ => exact iff_of_true rule.kept_nil fun hdone => by cases hdone
  | rekeyFinish now =>
      cases phase with
      | rekeyDone saved err =>
          by_cases herr : err = .ok
          · subst herr
            exact (rule.kept_sealed_iff ..).trans ⟨fun h _ => h, fun h => h rfl⟩
          · simp only [step, stepRekey, SessionCalls.rekeyFinish, if_pos herr]
            exact iff_of_true rule.kept_nil fun hok => absurd (of_decide_eq_true hok) herr
      | _ => exact iff_of_true rule.kept_nil fun hdone => by cases hdone
  | recv inp =>
      exact (rule.kept_if_running tun _).trans
        (forall_congr' fun _ => rule.kept_recvThreadIteration_iff P tun inp)
  | keepalive now clock =>
      exact (rule.kept_if_running tun _).trans
        (forall_congr' fun _ => rule.kept_keepalivePass_iff P tun now clock)
  | send data now sent => exact iff_of_true (rule.kept_wgSend P tun data now sent) trivial
  | sendToPeer i data now sent => exact rule.kept_wgSendToPeer_iff P tun i data now sent
  | wgRecv result len now => exact rule.kept_wgRecv_iff P tun result len now
  | output data ipaddr d now sent =>
      exact rule.kept_wgNetifOutput_iff P tun data ipaddr d now sent
  | _ =>
      refine iff_of_true (rule.kept_of_silent (silent_step _ ?_)) trivial
      trivial

/-- A run keeps to the rule exactly if each of its steps is taken in a state that does. -/
theorem kept_run_iff (s : Endpoint) (actions : List Action) :
    rule.Kept (run (step P) s actions).2 ↔ AllSteps (step P) (rule.Admits P) s actions :=
  (allSteps_outputs (step P)).symm.trans
    (allSteps_congr (step P) (rule.kept_step_iff P) s actions)

end Steps

end UseRule

end WgNx.UseRules
