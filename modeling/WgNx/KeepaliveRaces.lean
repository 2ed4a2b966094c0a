import WgNx.EndpointMachine

/-!
The keepalive thread beside the receive thread.

A pass reads the clock once and then examines one entry after another, and last
the legacy session.  Between two of these steps the other threads may complete a
handshake or send, which stores the clock of that moment.  All ages are unsigned
differences from the reading of the pass, so a time stored after the reading
looks like one from long ago.
-/

namespace WgNx.KeepaliveRaces

open WgNx.ByteLayout
open WgNx.CryptoPrimitives
open WgNx.EndpointMachine
open WgNx.NoiseHandshake
open WgNx.OutputMachine
open WgNx.TransportReceive
open WgNx.TransportSend
open WgNx.TunnelSetup
open WgNx.TunnelState
open WgNx.WireMessages

section Machine

/-- Where the keepalive thread is; `now` is what the pass has read. -/
inductive Pass
  | waiting
  | peers (now : UInt64) (i : Nat)
  | legacy (now : UInt64)
  deriving DecidableEq

structure Timed where
  tun : WgTunnel
  clock : UInt64
  pass : Pass
  deriving DecidableEq

inductive TimedAction
  | tick (clock : UInt64)
  | wake
  | examine
  | recv (inp : RecvInput)
  | send (data : Bytes) (sent : Bool)
  | sendToPeer (i : Nat) (data : Bytes) (sent : Bool)
  | output (data : Bytes) (ipaddr : UInt32) (d : InitDraws) (sent : Bool)

/-- An iteration of the receive loop reads the clock of the machine. -/
def stampInput (inp : RecvInput) (clock : UInt64) : RecvInput :=
  { inp with draws := { inp.draws with now := clock }, now := clock }

variable (P : Primitives)

def timedStep (s : Timed) : TimedAction → Timed × List Event
  -- The clock does not go back.
  | .tick clock => ({ s with clock := if s.clock ≤ clock then clock else s.clock }, [])
  | .wake =>
      match s.pass with
      | .waiting => ({ s with pass := .peers s.clock 0 }, [])
      | _ => (s, [])
  | .examine =>
      match s.pass with
      | .waiting => (s, [])
      | .peers now i =>
          if i < s.tun.peers.count then
            let turn := keepalivePeer P s.tun i now s.clock
            ({ s with tun := turn.1, pass := .peers now (i + 1) }, turn.2)
          else ({ s with pass := .legacy now }, [])
      | .legacy now =>
          let turn := keepaliveLegacy s.tun now
          ({ s with tun := turn.1, pass := .waiting }, turn.2)
  | .recv inp =>
      let out := recvThreadIteration P s.tun (stampInput inp s.clock)
      ({ s with tun := out.1 }, out.2)
  | .send data sent =>
      let out := wgSend P s.tun data s.clock sent
      ({ s with tun := out.2.1 }, out.2.2)
  | .sendToPeer i data sent =>
      let out := wgSendToPeer P s.tun i data s.clock sent
      ({ s with tun := out.2.1 }, out.2.2)
  | .output data ipaddr d sent =>
      let out := wgNetifOutput P s.tun data ipaddr { d with now := s.clock } s.clock sent
      ({ s with tun := out.2.1 }, out.2.2)

/-- The turns over the entries from `i` on, one after the other. -/
theorem run_examine_peers (tun : WgTunnel) (clock now : UInt64) (i n : Nat)
    (h : i + n ≤ tun.peers.count) :
    run (timedStep P) ⟨tun, clock, .peers now i⟩ (List.replicate n .examine) =
      (⟨(keepalivePeers P now (fun _ => clock) (List.range' i n) tun).1, clock,
          .peers now (i + n)⟩,
        (keepalivePeers P now (fun _ => clock) (List.range' i n) tun).2) := by
  induction n generalizing tun i with
  | zero => rfl
  | succ n ih =>
      have hturn : timedStep P ⟨tun, clock, .peers now i⟩ .examine =
          (⟨(keepalivePeer P tun i now clock).1, clock, .peers now (i + 1)⟩,
            (keepalivePeer P tun i now clock).2) :=
        if_pos (show i < tun.peers.count by omega)
      have hrest := ih (keepalivePeer P tun i now clock).1 (i + 1) (by
        rw [count_keepalivePeer]
        omega)
      rw [List.replicate_succ, run, hturn, hrest, List.range'_succ]
      simp only [keepalivePeers]
      rw [show i + 1 + n = i + (n + 1) by omega]

theorem count_keepalivePeers (tun : WgTunnel) (now : UInt64) (clock : Nat → UInt64)
    (indices : List Nat) :
    (keepalivePeers P now clock indices tun).1.peers.count = tun.peers.count := by
  induction indices generalizing tun with
  | nil => rfl
  | cons i rest ih =>
      simp only [keepalivePeers]
      rw [ih, count_keepalivePeer]

/-- Without interleaving the steps make up a pass of the keepalive thread. -/
theorem run_examine_pass (tun : WgTunnel) (clock : UInt64) :
    run (timedStep P) ⟨tun, clock, .waiting⟩
        (.wake :: (List.replicate tun.peers.count .examine ++ [.examine, .examine])) =
      (⟨(keepalivePass P tun clock fun _ => clock).1, clock, .waiting⟩,
        (keepalivePass P tun clock fun _ => clock).2) := by
  have hpeers := run_examine_peers P tun clock clock 0 tun.peers.count (by omega)
  have hrange : List.range' 0 tun.peers.count = List.range tun.peers.count :=
    List.range_eq_range'.symm
  rw [Nat.zero_add, hrange] at hpeers
  have hend : ∀ tun₁ : WgTunnel, ¬ tun.peers.count < tun₁.peers.count →
      run (timedStep P) ⟨tun₁, clock, .peers clock tun.peers.count⟩ [.examine, .examine] =
        (⟨(keepaliveLegacy tun₁ clock).1, clock, .waiting⟩, (keepaliveLegacy tun₁ clock).2) := by
    intro tun₁ hcount
    have hlast : timedStep P ⟨tun₁, clock, .peers clock tun.peers.count⟩ .examine =
        (⟨tun₁, clock, .legacy clock⟩, []) := if_neg hcount
    rw [run, hlast]
    simp [run, timedStep]
  rw [run]
  change ((run (timedStep P) ⟨tun, clock, .peers clock 0⟩ _).1,
    [] ++ (run (timedStep P) ⟨tun, clock, .peers clock 0⟩ _).2) = _
  rw [run_append, hpeers, hend _ (by rw [count_keepalivePeers]; omega)]
  rfl

end Machine

section Ages

/-- At least `timeout` has passed since `stored`. -/
def Elapsed (stored timeout clock : UInt64) : Prop :=
  stored.toNat + timeout.toNat ≤ clock.toNat

instance (stored timeout clock : UInt64) : Decidable (Elapsed stored timeout clock) :=
  inferInstanceAs (Decidable (_ ≤ _))

/-- The age test of a pass is right about times that were stored before the pass
read the clock. -/
theorem elapsed_of_stored_le {stored timeout now clock : UInt64} (hstored : stored ≤ now)
    (hnow : now ≤ clock) (htest : timeout ≤ now - stored) : Elapsed stored timeout clock := by
  have hdiff : (now - stored).toNat = now.toNat - stored.toNat :=
    UInt64.toNat_sub_of_le _ _ hstored
  rw [UInt64.le_iff_toNat_le] at hstored hnow htest
  unfold Elapsed
  omega

theorem stored_le_of_elapsed {stored timeout now clock : UInt64}
    (h : Elapsed stored timeout clock) (hnot : ¬ Elapsed now timeout clock) :
    stored ≤ now := by
  unfold Elapsed at h hnot
  rw [UInt64.le_iff_toNat_le]
  omega

/-- One of the two timeouts that make a keepalive due has passed. -/
def KeepaliveOwed (tun : WgTunnel) (peer : WgPeer) (clock : UInt64) : Prop :=
  (0 < peer.session.lastReceived ∧ Elapsed peer.lastSent wgKeepaliveTimeoutNs clock) ∨
    (0 < tun.keepaliveInterval ∧
      Elapsed peer.lastSent (tun.keepaliveInterval.toUInt64 * 1000000000) clock)

instance (tun : WgTunnel) (peer : WgPeer) (clock : UInt64) :
    Decidable (KeepaliveOwed tun peer clock) :=
  inferInstanceAs (Decidable (_ ∨ _))

theorem keepaliveOwed_of_stored_le {tun : WgTunnel} {peer : WgPeer} {now clock : UInt64}
    (hstored : peer.lastSent ≤ now) (hnow : now ≤ clock)
    (hdue : keepaliveDue tun peer now = true) : KeepaliveOwed tun peer clock := by
  simp only [keepaliveDue, Bool.or_eq_true, Bool.and_eq_true, decide_eq_true_eq] at hdue
  rcases hdue with ⟨hreceived, htest⟩ | ⟨hinterval, htest⟩
  · exact .inl ⟨hreceived, elapsed_of_stored_le hstored hnow htest⟩
  · exact .inr ⟨hinterval, elapsed_of_stored_le hstored hnow htest⟩

end Ages

section Races

def isSealed : Event → Bool
  | .sealed _ _ _ => true
  | _ => false

variable (P : Primitives)

/-- What an examination must not do: wipe a session or clear `connected` before 540
seconds have passed since the handshake, or send a keepalive before it is owed. -/
def JustifiedIn (s : Timed) : Pass → Prop
  | .waiting => True
  | .peers _ i =>
      (((timedStep P s .examine).1.tun.peers.get i).session.valid ≠
            (s.tun.peers.get i).session.valid ∨
          ((timedStep P s .examine).1.tun.peers.get i).connected ≠
            (s.tun.peers.get i).connected →
        Elapsed (s.tun.peers.get i).session.lastHandshake wgZeroKeyTimeoutNs s.clock) ∧
      ((timedStep P s .examine).2.any isSealed = true →
        KeepaliveOwed s.tun (s.tun.peers.get i) s.clock)
  | .legacy _ =>
      (timedStep P s .examine).1.tun.session.valid ≠ s.tun.session.valid →
        Elapsed s.tun.session.lastHandshake wgZeroKeyTimeoutNs s.clock

def Justified (s : Timed) : TimedAction → Prop
  | .examine => JustifiedIn P s s.pass
  | _ => True

instance decidableJustifiedIn (s : Timed) : (pass : Pass) → Decidable (JustifiedIn P s pass)
  | .waiting => isTrue trivial
  | .peers _ _ => inferInstanceAs (Decidable ((_ ∨ _ → _) ∧ (_ → _)))
  | .legacy _ => inferInstanceAs (Decidable (_ → _))

instance decidableJustified (s : Timed) : (a : TimedAction) → Decidable (Justified P s a)
  | .examine => decidableJustifiedIn P s s.pass
  | .tick _ => isTrue trivial
  | .wake => isTrue trivial
  | .recv _ => isTrue trivial
  | .send _ _ => isTrue trivial
  | .sendToPeer _ _ _ => isTrue trivial
  | .output _ _ _ _ => isTrue trivial

section Acts

variable (wipe : UInt64 → UInt64 → UInt64 → Prop)
  (keepalive : WgTunnel → WgPeer → UInt64 → UInt64 → Prop)

/-- A condition on what a pass is about to act on: `wipe` on the handshake it wipes a
session for, and `keepalive` on the entry it sends a keepalive to. -/
def ActsOnIn (s : Timed) : Pass → Prop
  | .waiting => True
  | .peers now i =>
      let peer := s.tun.peers.get i
      i < s.tun.peers.count → peer.configured = true → peer.session.valid = true →
        (wgZeroKeyTimeoutNs ≤ now - peer.session.lastHandshake →
          wipe peer.session.lastHandshake now s.clock) ∧
        (¬ wgZeroKeyTimeoutNs ≤ now - peer.session.lastHandshake →
          keepaliveDue s.tun peer now = true → keepalive s.tun peer now s.clock)
  | .legacy now =>
      s.tun.session.valid = true →
        wgZeroKeyTimeoutNs ≤ now - s.tun.session.lastHandshake →
          wipe s.tun.session.lastHandshake now s.clock

def ActsOn (s : Timed) : TimedAction → Prop
  | .examine => ActsOnIn wipe keepalive s s.pass
  | _ => True

variable [∀ stored now clock, Decidable (wipe stored now clock)]
  [∀ tun peer now clock, Decidable (keepalive tun peer now clock)]

instance decidableActsOnIn (s : Timed) : DecidablePred (ActsOnIn wipe keepalive s)
  | .waiting => isTrue trivial
  | .peers _ _ => inferInstanceAs (Decidable (_ → _ → _ → (_ → _) ∧ (_ → _ → _)))
  | .legacy _ => inferInstanceAs (Decidable (_ → _ → _))

instance decidableActsOn (s : Timed) : DecidablePred (ActsOn wipe keepalive s)
  | .examine => decidableActsOnIn wipe keepalive s s.pass
  | .tick _ => isTrue trivial
  | .wake => isTrue trivial
  | .recv _ => isTrue trivial
  | .send _ _ => isTrue trivial
  | .sendToPeer _ _ _ => isTrue trivial
  | .output _ _ _ _ => isTrue trivial

end Acts

/-- The times a pass acts on were stored before it read the clock. -/
def StoredInTime : Timed → TimedAction → Prop :=
  ActsOn (fun stored now _ => stored ≤ now) fun _ peer now _ => peer.lastSent ≤ now

/-- The times a pass acts on are old enough. -/
def OldEnough : Timed → TimedAction → Prop :=
  ActsOn (fun stored _ clock => Elapsed stored wgZeroKeyTimeoutNs clock)
    fun tun peer _ clock => KeepaliveOwed tun peer clock

/-- None of the timeouts has passed since the pass read the clock. -/
def WithinTimeouts (tun : WgTunnel) (now clock : UInt64) : Prop :=
  ¬ Elapsed now wgZeroKeyTimeoutNs clock ∧ ¬ Elapsed now wgKeepaliveTimeoutNs clock ∧
    (0 < tun.keepaliveInterval →
      ¬ Elapsed now (tun.keepaliveInterval.toUInt64 * 1000000000) clock)

def PromptIn (s : Timed) : Pass → Prop
  | .waiting => True
  | .peers now _ => WithinTimeouts s.tun now s.clock
  | .legacy now => WithinTimeouts s.tun now s.clock

/-- A pass gets to its examinations before a timeout has passed. -/
def Prompt (s : Timed) : TimedAction → Prop
  | .examine => PromptIn s s.pass
  | _ => True

instance (s : Timed) : DecidablePred (StoredInTime s) := decidableActsOn _ _ s

instance (tun : WgTunnel) (now clock : UInt64) : Decidable (WithinTimeouts tun now clock) :=
  inferInstanceAs (Decidable (_ ∧ _ ∧ _))

instance decidablePromptIn (s : Timed) : DecidablePred (PromptIn s)
  | .waiting => isTrue trivial
  | .peers _ _ => inferInstanceAs (Decidable (WithinTimeouts _ _ _))
  | .legacy _ => inferInstanceAs (Decidable (WithinTimeouts _ _ _))

instance decidablePrompt (s : Timed) : DecidablePred (Prompt s)
  | .examine => decidablePromptIn s s.pass
  | .tick _ => isTrue trivial
  | .wake => isTrue trivial
  | .recv _ => isTrue trivial
  | .send _ _ => isTrue trivial
  | .sendToPeer _ _ _ => isTrue trivial
  | .output _ _ _ _ => isTrue trivial

/-- The clock does not go back behind the reading of a pass. -/
def ReadBefore (s : Timed) : Prop :=
  match s.pass with
  | .waiting => True
  | .peers now _ => now ≤ s.clock
  | .legacy now => now ≤ s.clock

variable {P}

theorem readBefore_of_clock {s : Timed} {tun : WgTunnel} {clock : UInt64} (h : ReadBefore s)
    (hclock : s.clock ≤ clock) : ReadBefore ⟨tun, clock, s.pass⟩ := by
  unfold ReadBefore at *
  dsimp only
  split
  · trivial
  · rename_i now i hpass
    rw [hpass] at h
    exact UInt64.le_trans h hclock
  · rename_i now hpass
    rw [hpass] at h
    exact UInt64.le_trans h hclock

theorem readBefore_timedStep (s : Timed) (a : TimedAction) (h : ReadBefore s) :
    ReadBefore (timedStep P s a).1 := by
  cases a with
  | tick clock =>
      apply readBefore_of_clock h
      split
      · assumption
      · exact UInt64.le_refl _
  | wake =>
      simp only [timedStep]
      split
      · exact UInt64.le_refl _
      · exact h
  | examine =>
      simp only [timedStep]
      split
      · exact h
      · rename_i now i hpass
        have hnow : now ≤ s.clock := by
          unfold ReadBefore at h
          rw [hpass] at h
          exact h
        split
        · exact hnow
        · exact hnow
      · trivial
  | recv inp => exact readBefore_of_clock h (UInt64.le_refl _)
  | send data sent => exact readBefore_of_clock h (UInt64.le_refl _)
  | sendToPeer i data sent => exact readBefore_of_clock h (UInt64.le_refl _)
  | output data ipaddr d sent => exact readBefore_of_clock h (UInt64.le_refl _)

/-- An examination of an entry is justified exactly if what it acts on is old enough. -/
theorem justified_peers_iff {s : Timed} {now : UInt64} {i : Nat}
    (hpass : s.pass = .peers now i) : Justified P s .examine ↔ OldEnough s .examine := by
  simp only [Justified, JustifiedIn, OldEnough, ActsOn, ActsOnIn, hpass]
  by_cases hi : i < s.tun.peers.count
  · have hturn : timedStep P s .examine =
        ({ s with tun := (keepalivePeer P s.tun i now s.clock).1, pass := .peers now (i + 1) },
          (keepalivePeer P s.tun i now s.clock).2) := by
      simp only [timedStep, hpass, if_pos hi]
    have hget : ∀ f, (s.tun.peers.modify i f).get i = f (s.tun.peers.get i) := by
      intro f
      rw [PeerTable.get_modify _ _ _ _ hi, if_pos rfl]
    rw [hturn]
    unfold keepalivePeer
    dsimp only
    split
    · rename_i hconfigured
      simp only [Bool.not_eq_true'] at hconfigured
      simp [hconfigured]
    · rename_i hconfigured
      simp only [Bool.not_eq_true', Bool.not_eq_false] at hconfigured
      split
      · rename_i hwiped
        simp only [hget, hwiped.1, hwiped.2, hi, hconfigured, WgSession.zeroed, ne_eq,
          Bool.false_eq_true, not_false_eq_true, not_true_eq_false, true_or, forall_true_left,
          List.any_cons, List.any_nil, isSealed, Bool.or_false, IsEmpty.forall_iff, and_true]
      · rename_i hkept
        split
        · rename_i hvalid
          simp only [Bool.not_eq_true'] at hvalid
          simp [hvalid]
        · rename_i hvalid
          simp only [Bool.not_eq_true', Bool.not_eq_false] at hvalid
          have htest : ¬ wgZeroKeyTimeoutNs ≤ now - (s.tun.peers.get i).session.lastHandshake :=
            fun h => hkept ⟨hvalid, h⟩
          split
          · rename_i hdue
            simp only [wgSendKeepaliveToPeer, hget, bumpCounter, hvalid, hi, hconfigured, hdue,
              htest, ne_eq, not_true_eq_false, not_false_eq_true, or_self, IsEmpty.forall_iff,
              forall_true_left, List.any_cons, isSealed, Bool.true_or, true_and]
          · rename_i hdue
            simp [hdue, htest]
  · have hturn : timedStep P s .examine = ({ s with pass := .legacy now }, []) := by
      simp only [timedStep, hpass, if_neg hi]
    rw [hturn]
    simp [hi]

theorem justified_legacy_iff {s : Timed} {now : UInt64} (hpass : s.pass = .legacy now) :
    Justified P s .examine ↔ OldEnough s .examine := by
  simp only [Justified, JustifiedIn, OldEnough, ActsOn, ActsOnIn, hpass]
  have hturn : timedStep P s .examine =
      ({ s with tun := (keepaliveLegacy s.tun now).1, pass := .waiting },
        (keepaliveLegacy s.tun now).2) := by
    simp only [timedStep, hpass]
  rw [hturn]
  unfold keepaliveLegacy
  split
  · rename_i hwiped
    simp only [hwiped.1, hwiped.2, WgSession.zeroed, ne_eq, Bool.false_eq_true,
      not_false_eq_true, forall_true_left]
  · rename_i hkept
    refine iff_of_true (fun hchanged => absurd rfl hchanged) ?_
    intro hvalid htest
    exact absurd ⟨hvalid, htest⟩ hkept

theorem justified_iff (s : Timed) (a : TimedAction) : Justified P s a ↔ OldEnough s a := by
  cases a with
  | examine =>
      cases hpass : s.pass with
      | waiting => simp only [Justified, JustifiedIn, OldEnough, ActsOn, ActsOnIn, hpass]
      | peers now i => exact justified_peers_iff hpass
      | legacy now => exact justified_legacy_iff hpass
  | _ => exact Iff.rfl

/-- What was stored before the reading is old enough where the age test says so. -/
theorem oldEnough_of_stored {s : Timed} {a : TimedAction} (h : ReadBefore s)
    (hstored : StoredInTime s a) : OldEnough s a := by
  cases a with
  | examine =>
      unfold ReadBefore at h
      simp only [StoredInTime, OldEnough, ActsOn] at hstored ⊢
      cases hpass : s.pass with
      | waiting => trivial
      | peers now i =>
          rw [hpass] at h hstored
          intro hi hconfigured hvalid
          obtain ⟨hwipe, hsend⟩ := hstored hi hconfigured hvalid
          exact ⟨fun htest => elapsed_of_stored_le (hwipe htest) h htest,
            fun htest hdue => keepaliveOwed_of_stored_le (hsend htest hdue) h hdue⟩
      | legacy now =>
          rw [hpass] at h hstored
          exact fun hvalid htest => elapsed_of_stored_le (hstored hvalid htest) h htest
  | _ => trivial

/-- Until a timeout has passed, nothing that was stored after the reading is old enough. -/
theorem stored_of_oldEnough {s : Timed} {a : TimedAction} (hprompt : Prompt s a)
    (hold : OldEnough s a) : StoredInTime s a := by
  cases a with
  | examine =>
      simp only [StoredInTime, OldEnough, ActsOn, Prompt] at hprompt hold ⊢
      cases hpass : s.pass with
      | waiting => trivial
      | peers now i =>
          rw [hpass] at hprompt hold
          obtain ⟨hzero, hkeepalive, hinterval⟩ := hprompt
          intro hi hconfigured hvalid
          obtain ⟨hwipe, hsend⟩ := hold hi hconfigured hvalid
          refine ⟨fun htest => stored_le_of_elapsed (hwipe htest) hzero, fun htest hdue => ?_⟩
          rcases hsend htest hdue with ⟨-, helapsed⟩ | ⟨hpos, helapsed⟩
          · exact stored_le_of_elapsed helapsed hkeepalive
          · exact stored_le_of_elapsed helapsed (hinterval hpos)
      | legacy now =>
          rw [hpass] at hprompt hold
          exact fun hvalid htest => stored_le_of_elapsed (hold hvalid htest) hprompt.1
  | _ => trivial

end Races

section Samples

def onePeer : WgTunnel :=
  wgAddPeer (initialTunnel additive sampleConfig ⟨0, 51820⟩) (sampleKey 7)
    (Vector.replicate 36 0) 9

/-- The receive thread completes a handshake with the only entry. -/
def completesHandshake : TimedAction :=
  .recv
    ⟨true,
      .ofBytes (sampleInit 7 3 ⟨sampleKey 21, 22, Vector.replicate 12 2, 150⟩).toBytes none,
      ⟨sampleKey 23, 24, 0⟩, 0⟩

/-- A pass wakes up at clock 1000; at 2000 the receive thread completes a handshake
with the only entry; then the pass examines the entry. -/
def racingActions : List TimedAction := [.wake, .tick 2000, completesHandshake, .examine]

end Samples

end WgNx.KeepaliveRaces
