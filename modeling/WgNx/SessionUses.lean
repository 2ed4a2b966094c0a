import WgNx.EndpointMachine

/-!
Which steps use a session: seal a transport packet under it, or deliver a
plaintext out of it.

Handshake steps do neither.  Plaintexts come out of the receive loop and of
`wg_recv` only, and always out of the session the tunnel holds at that moment.
-/

namespace WgNx.SessionUses

open WgNx.ByteLayout
open WgNx.CryptoPrimitives
open WgNx.EndpointMachine
open WgNx.NoiseHandshake
open WgNx.SessionCalls
open WgNx.TransportReceive
open WgNx.TransportSend
open WgNx.TunnelSetup
open WgNx.TunnelState
open WgNx.WireMessages

def isSeal : Event → Bool
  | .sealed _ _ _ => true
  | _ => false

def isDelivery : Event → Bool
  | .delivered _ _ _ _ => true
  | _ => false

/-- Nothing is sealed or delivered. -/
def Silent (events : List Event) : Prop :=
  ∀ e ∈ events, isSeal e = false ∧ isDelivery e = false

theorem silent_nil : Silent [] := by
  simp [Silent]

section Handshakes

variable {P : Primitives} {tun : WgTunnel}

theorem silent_initCase {msg : WgHandshakeInit} {d : RespDraws} {err : WgError}
    {out : WgTunnel × List Event} (h : InitCase P tun msg d (err, out)) : Silent out.2 := by
  cases h with
  | rejected => exact silent_nil
  | legacy => simp [Silent, respondLegacy, isSeal, isDelivery]
  | peer => simp [Silent, respondPeer, isSeal, isDelivery]

theorem silent_responseCase {msg : WgHandshakeResponse} {state : WgHandshakeState}
    {now : UInt64} {err : WgError} {tun' : WgTunnel} {events : List Event}
    (h : ResponseCase P tun msg state now err tun' events) : Silent events := by
  cases h with
  | refused => exact silent_nil
  | badTag => exact silent_nil
  | installed => simp [Silent, isSeal, isDelivery]

theorem silent_peerResponseCase {i : Nat} {now : UInt64} {out : WgTunnel × List Event}
    (h : PeerResponseCase tun i now out) : Silent out.2 := by
  cases h with
  | refused => exact silent_nil
  | badTag => exact silent_nil
  | installed => simp [Silent, isSeal, isDelivery]

theorem silent_beginAttempt (d : InitDraws) : Silent (beginAttempt P tun d).2.2 := by
  simp [Silent, beginAttempt, isSeal, isDelivery]

theorem silent_connectEnd (state : WgHandshakeState) (result : SocketResult)
    (resp : RespDraws) (now : UInt64) :
    Silent (SessionCalls.connectEnd P tun state result resp now).2.2 := by
  have hcase := connectEnd_cases P tun state result resp now
  generalize SessionCalls.connectEnd P tun state result resp now = ended at hcase ⊢
  cases hcase with
  | retried => exact silent_nil
  | passive msg => exact silent_initCase (wgHandshakeInitProcess_cases P _ msg resp)
  | response msg err tun' events hcase => exact silent_responseCase hcase

theorem silent_rekeyEnd (state : WgHandshakeState) (now : UInt64) :
    Silent (SessionCalls.rekeyEnd P tun state now).2.2 := by
  unfold SessionCalls.rekeyEnd
  split
  · exact silent_nil
  · split
    · exact silent_nil
    · split
      · exact silent_nil
      · exact silent_responseCase (wgHandshakeResponse_cases P tun _ state now)

/-- The actions that send and receive no transport packet. -/
def IsSetup : Action → Prop
  | .connectFinish _ => False
  | .rekeyFinish _ => False
  | .recv _ => False
  | .keepalive _ _ => False
  | .send _ _ _ => False
  | .sendToPeer _ _ _ _ => False
  | .wgRecv _ _ _ => False
  | .output _ _ _ _ _ => False
  | _ => True

theorem silent_step (s : Endpoint) {a : Action} (h : IsSetup a) : Silent (step P s a).2 := by
  cases a with
  | callConnect fd =>
      simp only [step, stepConnect]
      split
      · split <;> exact silent_nil
      · exact silent_nil
  | connectBegin d sent =>
      simp only [step, stepConnect]
      split
      · split <;> exact silent_beginAttempt d
      · exact silent_nil
  | connectEnd result resp now =>
      simp only [step, stepConnect]
      split
      · exact silent_connectEnd _ result resp now
      · exact silent_nil
  | callRekey =>
      simp only [step, stepRekey]
      split <;> exact silent_nil
  | rekeyBegin d sent =>
      simp only [step, stepRekey]
      split
      · split <;> exact silent_beginAttempt d
      · exact silent_nil
  | rekeyEnd now =>
      simp only [step, stepRekey]
      split
      · exact silent_rekeyEnd _ now
      · exact silent_nil
  | connectFinish => exact h.elim
  | rekeyFinish => exact h.elim
  | recv => exact h.elim
  | keepalive => exact h.elim
  | send => exact h.elim
  | sendToPeer => exact h.elim
  | wgRecv => exact h.elim
  | output => exact h.elim
  | _ => exact silent_nil

end Handshakes

section Deliveries

variable {P : Primitives} {tun : WgTunnel}

/-- No plaintext is delivered. -/
def Undelivered (events : List Event) : Prop := ∀ e ∈ events, isDelivery e = false

theorem Silent.undelivered {events : List Event} (h : Silent events) : Undelivered events :=
  fun e he => (h e he).2

theorem undelivered_nil : Undelivered [] := silent_nil.undelivered

theorem Undelivered.append {events events' : List Event} (h : Undelivered events)
    (h' : Undelivered events') : Undelivered (events ++ events') := by
  intro e he
  rcases List.mem_append.mp he with hl | hr
  · exact h e hl
  · exact h' e hr

theorem undelivered_wgSendKeepalive (now : UInt64) :
    Undelivered (wgSendKeepalive P tun now).2 := by
  simp [Undelivered, wgSendKeepalive, isDelivery]

theorem undelivered_wgSendKeepaliveToPeer (i : Nat) (now : UInt64) :
    Undelivered (wgSendKeepaliveToPeer P tun i now).2 := by
  simp [Undelivered, wgSendKeepaliveToPeer, isDelivery]

theorem undelivered_followUp (now : UInt64) : Undelivered (followUp P tun now).2 := by
  unfold followUp
  split
  · exact undelivered_nil
  · exact undelivered_wgSendKeepaliveToPeer _ now

theorem undelivered_wgSendToPeer (i : Nat) (data : Bytes) (now : UInt64) (sent : Bool) :
    Undelivered (wgSendToPeer P tun i data now sent).2.2 := by
  unfold wgSendToPeer
  dsimp only
  split
  · exact undelivered_nil
  · split
    · exact undelivered_nil
    · simp [Undelivered, isDelivery]

theorem undelivered_keepalivePeers (now : UInt64) (clock : Nat → UInt64)
    (indices : List Nat) : Undelivered (keepalivePeers P now clock indices tun).2 := by
  induction indices generalizing tun with
  | nil => exact undelivered_nil
  | cons i rest ih =>
      apply Undelivered.append _ ih
      unfold keepalivePeer
      dsimp only
      split
      · exact undelivered_nil
      · split
        · simp [Undelivered, isDelivery]
        · split
          · exact undelivered_nil
          · split
            · exact undelivered_wgSendKeepaliveToPeer i (clock i)
            · exact undelivered_nil

theorem undelivered_keepalivePass (now : UInt64) (clock : Nat → UInt64) :
    Undelivered (keepalivePass P tun now clock).2 := by
  apply (undelivered_keepalivePeers now clock _).append
  unfold keepaliveLegacy
  split
  · simp [Undelivered, isDelivery]
  · exact undelivered_nil

/-- Where a plaintext comes from: the receive loop, which has opened the packet with
the session it selected and has a callback, or `wg_recv`, which has checked that the
session is valid. -/
inductive DeliveryCase (P : Primitives) (s : Endpoint) : Action → Event → Prop
  | received (inp : RecvInput) (ref : SessionRef) (counter : UInt64) (plaintext : Bytes)
      (hrunning : s.tun.running = true) (hcallback : s.tun.recvCb.isSome = true)
      (hchecked : checkedBy P s.tun inp = some (ref, counter)) :
      DeliveryCase P s (.recv inp) (.delivered ref (s.tun.getSession ref) plaintext inp.now)
  | polled (result : SocketResult) (len : Nat) (now : UInt64) (plaintext : Bytes)
      (hvalid : s.tun.session.valid = true) :
      DeliveryCase P s (.wgRecv result len now)
        (.delivered .legacy s.tun.session plaintext now)

theorem recvCb_noteSource (tun : WgTunnel) (src : Option SockAddr) :
    (noteSource tun src).recvCb = tun.recvCb := by
  cases src <;> rfl

theorem delivery_recvThreadIteration {s : Endpoint} {inp : RecvInput} {e : Event}
    (hrunning : s.tun.running = true)
    (he : e ∈ (recvThreadIteration P s.tun inp).2) (hdelivery : isDelivery e = true) :
    DeliveryCase P s (.recv inp) e := by
  have hcase := recvThreadIteration_cases P s.tun inp
  generalize recvThreadIteration P s.tun inp = out at hcase he
  cases hcase with
  | quiet => cases he
  | transport buffer received src out hresult hcase htype hlong =>
      obtain ⟨ref, plaintext, hchecked, hcallback, rfl⟩ := hcase.events he
      rw [checkedPacket_noteSource, ← checkedBy_of_type P hresult htype hlong] at hchecked
      rw [recvCb_noteSource] at hcallback
      rw [(sameSessions_noteSource s.tun src).getSession]
      exact .received inp ref _ plaintext hrunning hcallback hchecked
  | peerResponse src i out hi hcase =>
      rw [(silent_peerResponseCase hcase e he).2] at hdelivery
      cases hdelivery
  | init src msg tun₁ events hcase =>
      have hnone := (silent_initCase hcase).undelivered.append
        (@undelivered_followUp P tun₁ inp.now)
      rw [hnone e he] at hdelivery
      cases hdelivery

theorem valid_of_polledCounter {len : Nat} {result : SocketResult} {counter : UInt64}
    (h : polledCounter P tun len result = some counter) : tun.session.valid = true := by
  cases result with
  | datagram buffer received src =>
      simp only [polledCounter, Option.ite_none_right_eq_some] at h
      exact h.1.1
  | _ => cases h

theorem delivery_wgRecv {s : Endpoint} {result : SocketResult} {len : Nat} {now : UInt64}
    {e : Event} (he : e ∈ (TransportReceive.wgRecv P s.tun result len now).2.2) :
    DeliveryCase P s (.wgRecv result len now) e := by
  have hcase := wgRecv_cases P s.tun result len now
  generalize TransportReceive.wgRecv P s.tun result len now = out at hcase he
  cases hcase with
  | accepted tun₁ hsame counter plaintext hplaintext hcounter hverdict =>
      rw [List.mem_singleton.mp he]
      exact .polled result len now plaintext (valid_of_polledCounter hcounter)
  | _ => cases he

theorem step_deliveries {s : Endpoint} {a : Action} {e : Event} (he : e ∈ (step P s a).2)
    (hdelivery : isDelivery e = true) : DeliveryCase P s a e := by
  have habsurd : ∀ {events : List Event}, Undelivered events → e ∈ events →
      DeliveryCase P s a e := by
    intro events hnone hmem
    rw [hnone e hmem] at hdelivery
    cases hdelivery
  cases a with
  | recv inp =>
      simp only [step, stepTunnel] at he
      split at he
      · rename_i hrunning
        exact delivery_recvThreadIteration hrunning he hdelivery
      · cases he
  | wgRecv result len now => exact delivery_wgRecv he
  | connectFinish now =>
      refine habsurd ?_ he
      simp only [step, stepConnect, SessionCalls.connectFinish]
      split
      · split
        · exact undelivered_nil
        · exact undelivered_wgSendKeepalive now
      · exact undelivered_nil
  | rekeyFinish now =>
      refine habsurd ?_ he
      simp only [step, stepRekey, SessionCalls.rekeyFinish]
      split
      · split
        · exact undelivered_nil
        · exact undelivered_wgSendKeepalive now
      · exact undelivered_nil
  | keepalive now clock =>
      refine habsurd ?_ he
      simp only [step, stepTunnel]
      split
      · exact undelivered_keepalivePass now clock
      · exact undelivered_nil
  | send data now sent =>
      refine habsurd ?_ he
      simp only [step, stepTunnel, wgSend]
      split
      · exact undelivered_nil
      · split
        · exact undelivered_nil
        · split
          · exact undelivered_nil
          · simp [Undelivered, isDelivery]
  | sendToPeer i data now sent =>
      exact habsurd (undelivered_wgSendToPeer i data now sent) he
  | output data ipaddr d now sent =>
      refine habsurd ?_ he
      simp only [step, stepTunnel, wgNetifOutput]
      split
      · exact undelivered_nil
      · split
        · exact undelivered_nil
        · split
          · simp [Undelivered, isDelivery]
          · exact undelivered_wgSendToPeer _ _ now sent
  | _ =>
      refine habsurd (silent_step s ?_).undelivered he
      trivial

end Deliveries

end WgNx.SessionUses
