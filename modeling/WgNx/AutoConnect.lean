import WgNx.PeerLinks

/-!
Connecting on demand: `wg_netif_output` sends an INIT to an entry that has no
session, and the receive loop is meant to complete the handshake.

The transcript of the INIT is stored in the entry after the socket call, so the
call is cut there and the other threads may act in between.  The receive loop
looks for an entry that is connected and has no valid session; by the invariant
of the links there is none in any reachable state.
-/

namespace WgNx.AutoConnect

open WgNx.ByteLayout
open WgNx.CryptoPrimitives
open WgNx.EndpointMachine
open WgNx.NoiseHandshake
open WgNx.OutputMachine
open WgNx.PeerLinks
open WgNx.TransportReceive
open WgNx.TransportSend
open WgNx.TunnelSetup
open WgNx.TunnelState
open WgNx.WireMessages

section Output

variable (P : Primitives)

/-- `wg_netif_output` up to the point where an INIT is handed to the socket
layer, with the entry and the transcript that are still to be stored. -/
def netifOutputBegin (tun : WgTunnel) (data : Bytes) (ipaddr : UInt32) (d : InitDraws)
    (now : UInt64) (sent : Bool) :
    ErrT × WgTunnel × Option (Nat × WgHandshakeState) × List Event :=
  let data := data.take 1500
  if data.length = 0 then (.buffer, tun, none, [])
  else
    match wgFindPeerByIp tun ipaddr with
    | none => (.route, tun, none, [])
    | some i =>
        let peer := tun.peers.get i
        if !peer.connected || !peer.session.valid then
          let built := wgHandshakeInitPeer P tun i d
          (.ok, built.1, some (i, built.2.2),
            [.drawn d.index, .sent (.relay peer.relayHash) built.2.1.toBytes])
        else
          let out := wgSendToPeer P tun i data now sent
          (match out.1 with
            | .ok _ => .ok
            | .error _ => .interface, out.2.1, none, out.2.2)

def storePending (tun : WgTunnel) : Option (Nat × WgHandshakeState) → WgTunnel
  | none => tun
  | some (i, state) =>
      { tun with
        peers := tun.peers.modify i fun p => { p with pendingHs := state, hsPending := true } }

theorem wgNetifOutput_eq (tun : WgTunnel) (data : Bytes) (ipaddr : UInt32) (d : InitDraws)
    (now : UInt64) (sent : Bool) :
    wgNetifOutput P tun data ipaddr d now sent =
      ((netifOutputBegin P tun data ipaddr d now sent).1,
        storePending (netifOutputBegin P tun data ipaddr d now sent).2.1
          (netifOutputBegin P tun data ipaddr d now sent).2.2.1,
        (netifOutputBegin P tun data ipaddr d now sent).2.2.2) := by
  unfold wgNetifOutput netifOutputBegin
  cases wgFindPeerByIp tun ipaddr with
  | none =>
      dsimp only
      split <;> rfl
  | some i =>
      dsimp only
      split
      · rfl
      · split <;> rfl

theorem find_of_netifOutputBegin {tun : WgTunnel} {data : Bytes} {ipaddr : UInt32}
    {d : InitDraws} {now : UInt64} {sent : Bool} {i : Nat} {state : WgHandshakeState}
    (h : (netifOutputBegin P tun data ipaddr d now sent).2.2.1 = some (i, state)) :
    wgFindPeerByIp tun ipaddr = some i := by
  unfold netifOutputBegin at h
  dsimp only at h
  split at h
  · cases h
  · split at h
    · cases h
    · rename_i j hfind
      split at h
      · cases h
        exact hfind
      · cases h

theorem evolves_netifOutputBegin (tun : WgTunnel) (data : Bytes) (ipaddr : UInt32)
    (d : InitDraws) (now : UInt64) (sent : Bool) :
    Evolves tun (netifOutputBegin P tun data ipaddr d now sent).2.1 := by
  unfold netifOutputBegin
  dsimp only
  split
  · exact evolves_of_peers rfl
  · split
    · exact evolves_of_peers rfl
    · split
      · exact evolves_of_eq (links_modify_same rfl)
      · exact evolves_wgSendToPeer _ _ now sent

theorem evolves_storePending (tun : WgTunnel) (saving : Option (Nat × WgHandshakeState)) :
    Evolves tun (storePending tun saving) := by
  cases saving with
  | none => exact evolves_of_peers rfl
  | some entry => exact evolves_of_eq (links_modify_same rfl)

end Output

section Threads

/-- The machine beside the thread of the IP stack, which may be about to store a
transcript. -/
structure Threads where
  endpoint : Endpoint
  saving : Option (Nat × WgHandshakeState)

def Threads.tun (s : Threads) : WgTunnel := s.endpoint.tun

inductive ThreadAction
  | act (a : Action)
  | save

variable (P : Primitives)

def threadStep (s : Threads) : ThreadAction → Threads × List Event
  | .act (.output data ipaddr d now sent) =>
      -- The thread of the IP stack is still inside its last call.
      if s.saving.isSome then (s, [])
      else
        let out := netifOutputBegin P s.tun data ipaddr d now sent
        (⟨{ s.endpoint with tun := out.2.1 }, out.2.2.1⟩, out.2.2.2)
  | .act a => (⟨(step P s.endpoint a).1, s.saving⟩, (step P s.endpoint a).2)
  | .save => (⟨{ s.endpoint with tun := storePending s.tun s.saving }, none⟩, [])

def opensTo (s : Threads) : ThreadAction → Option Nat
  | .act (.output data ipaddr d now sent) =>
      if s.saving.isSome then none
      else (netifOutputBegin P s.tun data ipaddr d now sent).2.2.1.map Prod.fst
  | _ => none

theorem evolves_threadStep (s : Threads) (a : ThreadAction) :
    Evolves s.tun (threadStep P s a).1.tun := by
  cases a with
  | act a =>
      cases a with
      | output data ipaddr d now sent =>
          simp only [threadStep]
          split
          · exact evolves_of_peers rfl
          · exact evolves_netifOutputBegin P s.tun data ipaddr d now sent
      | _ => exact evolves_step s.endpoint _
  | save => exact evolves_storePending s.tun s.saving

theorem evolves_threadRun (s : Threads) (actions : List ThreadAction) :
    Evolves s.tun (run (threadStep P) s actions).1.tun := by
  induction actions generalizing s with
  | nil => exact evolves_of_peers rfl
  | cons a rest ih => exact (evolves_threadStep P s a).trans (ih _)

end Threads

section Exchange

/-- A run that sends an INIT to a table entry, goes on, and then receives a
datagram. -/
structure Exchange where
  config : WgConfig
  endpoint : SockAddr
  before : List ThreadAction
  data : Bytes
  ipaddr : UInt32
  draws : InitDraws
  now : UInt64
  sent : Bool
  after : List ThreadAction
  buffer : Bytes
  received : Nat
  src : Option SockAddr
  slot : Bool
  resp : RespDraws
  arrival : UInt64

variable (P : Primitives) (x : Exchange)

def Exchange.output : ThreadAction := .act (.output x.data x.ipaddr x.draws x.now x.sent)

def Exchange.atOutput : Threads :=
  (run (threadStep P) ⟨initial P x.config x.endpoint, none⟩ x.before).1

def Exchange.atSend : Threads := (threadStep P (x.atOutput P) x.output).1

def Exchange.atArrival : Threads := (run (threadStep P) (x.atSend P) x.after).1

def Exchange.final : WgTunnel :=
  (recvThreadIteration P (x.atArrival P).tun
    ⟨x.slot, .datagram x.buffer x.received x.src, x.resp, x.arrival⟩).1

/-- The datagram is a RESPONSE to the INIT for entry `i` and verifies against the
transcript the INIT was built with. -/
structure Exchange.Genuine (i : Nat) : Prop where
  long : sizeofResponse ≤ x.received
  type : getType x.buffer = wgMsgHandshakeResponse
  index : (WgHandshakeResponse.ofBytes x.buffer).receiverIndex = x.draws.index
  verifies :
    (readResponse P (x.atOutput P).tun.staticPrivate (x.atOutput P).tun.psk
      (WgHandshakeResponse.ofBytes x.buffer)
      (wgHandshakeInitPeer P (x.atOutput P).tun i x.draws).2.2).2 = true

instance (i : Nat) : Decidable (x.Genuine P i) :=
  decidable_of_iff (_ ∧ _ ∧ _ ∧ _)
    ⟨fun h => ⟨h.1, h.2.1, h.2.2.1, h.2.2.2⟩, fun h => ⟨h.long, h.type, h.index, h.verifies⟩⟩

/-- An INIT is sent to entry `i`, which has no session, while no rekey of the
legacy session is in progress, and a genuine RESPONSE arrives before the next
INIT to the entry. -/
structure Exchange.Answered (i : Nat) : Prop where
  opens : opensTo P (x.atOutput P) x.output = some i
  noSession : ((x.atOutput P).tun.peers.get i).session.valid = false
  noRekey : (x.atOutput P).tun.session.rekeyInProgress = false
  single : AllSteps (threadStep P) (fun s a => opensTo P s a ≠ some i) (x.atSend P) x.after
  genuine : x.Genuine P i

instance (i : Nat) : Decidable (x.Answered P i) :=
  decidable_of_iff (_ ∧ _ ∧ _ ∧ _ ∧ _)
    ⟨fun h => ⟨h.1, h.2.1, h.2.2.1, h.2.2.2.1, h.2.2.2.2⟩,
      fun h => ⟨h.opens, h.noSession, h.noRekey, h.single, h.genuine⟩⟩

/-- Entry `i` is connected: packets for its address go out under its session. -/
structure Completed (tun : WgTunnel) (i : Nat) (ipaddr : UInt32) : Prop where
  valid : (tun.peers.get i).session.valid = true
  connected : (tun.peers.get i).connected = true
  transports : ∀ data d now sent, data ≠ [] →
    (wgNetifOutput P tun data ipaddr d now sent).2.2 =
      [.sealed (.peer i) (tun.peers.get i).session now,
        .sent (.relay (tun.peers.get i).relayHash)
          (transportPacket P (tun.peers.get i).session (data.take 1500))]

end Exchange

section Completion

variable {P : Primitives}

/-- No entry of a reachable tunnel waits for a RESPONSE in the sense of the
receive loop. -/
theorem recvResponse_peers {tun : WgTunnel} (h : Linked tun) (buffer : Bytes) (received : Nat)
    (now : UInt64) : (recvResponse P tun buffer received now).1.peers = tun.peers := by
  unfold recvResponse
  split
  · dsimp only
    split <;> rfl
  · dsimp only
    split
    · rfl
    · rename_i i hfind
      have hlinked := (h.get (PeerTable.find_lt hfind)).connected
      have hwaits := PeerTable.find_get hfind
      simp only [Bool.and_eq_true, Bool.not_eq_true'] at hwaits
      obtain ⟨⟨hconnected, hinvalid⟩, -⟩ := hwaits
      have hvalid : (tun.peers.get i).session.valid = true := hlinked.symm.trans hconnected
      rw [hvalid] at hinvalid
      cases hinvalid

theorem recvThreadIteration_response_peers {tun : WgTunnel} (h : Linked tun) (inp : RecvInput)
    {buffer : Bytes} {received : Nat} {src : Option SockAddr}
    (hresult : inp.result = .datagram buffer received src)
    (hlong : sizeofResponse ≤ received) (htype : getType buffer = wgMsgHandshakeResponse) :
    (recvThreadIteration P tun inp).1.peers = tun.peers := by
  have hnote := sameSessions_noteSource tun src
  have hlinked : Linked (noteSource tun src) := h.evolves (evolves_of_sameSessions hnote)
  unfold recvThreadIteration
  rw [hresult]
  dsimp only
  rw [recvDatagram_response P _ htype hlong]
  exact (recvResponse_peers hlinked buffer received inp.now).trans hnote.peers

theorem completed_of_connected {tun : WgTunnel} {i : Nat} {ipaddr : UInt32}
    (hfind : wgFindPeerByIp tun ipaddr = some i)
    (hvalid : (tun.peers.get i).session.valid = true)
    (hconnected : (tun.peers.get i).connected = true) : Completed P tun i ipaddr := by
  refine ⟨hvalid, hconnected, ?_⟩
  intro data d now sent hdata
  have hpos : (data.take 1500).length ≠ 0 := by
    have hlen := List.length_pos_of_ne_nil hdata
    rw [List.length_take]
    omega
  have hfits : packetTooLong (data.take 1500) = false := by
    have hlen := List.length_take_le 1500 data
    apply decide_eq_false
    simp only [sizeofTransport, wgAeadTagLen, wgMaxPacketSize]
    omega
  unfold wgNetifOutput
  dsimp only
  rw [if_neg hpos, hfind]
  dsimp only
  rw [hvalid, hconnected, if_neg (by decide)]
  unfold wgSendToPeer
  dsimp only
  rw [hvalid, hconnected, if_neg (by decide), hfits, if_neg (by decide)]

/-- An entry that was opened by a packet is connected after a genuine RESPONSE
exactly if it had got a session from another handshake before. -/
theorem auto_connect_completes_iff (x : Exchange) (i : Nat) (h : x.Answered P i) :
    Completed P (x.final P) i x.ipaddr ↔
      ((x.atArrival P).tun.peers.get i).session.valid = true := by
  have hbefore : Evolves (initial P x.config x.endpoint).tun (x.atOutput P).tun :=
    evolves_threadRun P ⟨initial P x.config x.endpoint, none⟩ x.before
  have hafter : Evolves (x.atOutput P).tun (x.atArrival P).tun :=
    (evolves_threadStep P (x.atOutput P) x.output).trans (evolves_threadRun P _ x.after)
  have hlinked : Linked (x.atArrival P).tun :=
    (linked_initial P x.config x.endpoint).evolves (hbefore.trans hafter)
  have hpeers : (x.final P).peers = (x.atArrival P).tun.peers :=
    recvThreadIteration_response_peers hlinked _ rfl h.genuine.long h.genuine.type
  have hopened : wgFindPeerByIp (x.atOutput P).tun x.ipaddr = some i := by
    have hopens := h.opens
    simp only [opensTo, Exchange.output] at hopens
    split at hopens
    · cases hopens
    · obtain ⟨⟨j, state⟩, hbegin, hj⟩ := Option.map_eq_some_iff.mp hopens
      cases hj
      exact find_of_netifOutputBegin P hbegin
  have hfind := hafter.wgFindPeerByIp hopened
  constructor
  · intro hdone
    rw [← hpeers]
    exact hdone.valid
  · intro hvalid
    have hconnected := (hlinked.get (PeerTable.find_lt hfind)).connected
    apply completed_of_connected
    · unfold wgFindPeerByIp
      rw [hpeers]
      exact hfind
    · rw [hpeers]
      exact hvalid
    · rw [hpeers]
      exact hconnected.trans hvalid

end Completion

section Samples

/-- A tunnel with one entry outputs a packet for it, and the entry answers; `after`
is what happens in between. -/
def firstPacket (after : List ThreadAction) : Exchange where
  config := sampleConfig
  endpoint := ⟨0, 51820⟩
  before := [.act (.addPeer (sampleKey 7) (Vector.replicate 36 0) 9), .act (.start true true)]
  data := [1, 2]
  ipaddr := 9
  draws := openingDraws
  now := 100
  sent := true
  after := after
  buffer :=
    (sampleAnswer 7 zeroKey (sampleInit 3 7 openingDraws) ⟨sampleKey 13, 19, 120⟩).toBytes
  received := 92
  src := none
  slot := true
  resp := ⟨zeroKey, 0, 0⟩
  arrival := 200

def peerInit : ThreadAction :=
  .act (.recv
    ⟨true,
      .ofBytes (sampleInit 7 3 ⟨sampleKey 21, 22, Vector.replicate 12 2, 150⟩).toBytes none,
      ⟨sampleKey 23, 24, 160⟩, 160⟩)

theorem auto_connect_completes_crossed :
    (firstPacket [.save, peerInit]).Answered additive 0 ∧
      Completed additive ((firstPacket [.save, peerInit]).final additive) 0 9 := by
  have hall : let x := firstPacket [.save, peerInit]
      x.Answered additive 0 ∧
        ((x.atArrival additive).tun.peers.get 0).session.valid = true := by
    decide +kernel
  obtain ⟨hanswered, hvalid⟩ := hall
  exact ⟨hanswered, (auto_connect_completes_iff _ 0 hanswered).mpr hvalid⟩

/-- A genuine RESPONSE changes nothing: the entry stays without a session, and the
next packet for it sends another INIT. -/
theorem genuine_response_ignored :
    let x := firstPacket [.save]
    x.Answered additive 0 ∧ ¬ Completed additive (x.final additive) 0 9 ∧
      (netifOutputBegin additive (x.final additive) [1, 2] 9
        ⟨Vector.replicate 32 12, 18, Vector.replicate 12 1, 300⟩ 300 true).2.2.1.isSome := by
  have hall : let x := firstPacket [.save]
      x.Answered additive 0 ∧ ((x.final additive).peers.get 0).session.valid = false ∧
        (netifOutputBegin additive (x.final additive) [1, 2] 9
          ⟨Vector.replicate 32 12, 18, Vector.replicate 12 1, 300⟩ 300 true).2.2.1.isSome := by
    decide +kernel
  obtain ⟨hanswered, hinvalid, hagain⟩ := hall
  refine ⟨hanswered, ?_, hagain⟩
  intro hdone
  have hvalid := hdone.valid
  rw [hinvalid] at hvalid
  cases hvalid

end Samples

end WgNx.AutoConnect
