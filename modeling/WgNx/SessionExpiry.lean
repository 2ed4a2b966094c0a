import WgNx.UseRules

/-!
Sessions are used within their lifetime.

A session must not be used once its handshake is `WG_REJECT_AFTER_TIME` old, nor
sealed under once its counter has reached `WG_REJECT_AFTER_MESSAGES`.  The rule
is written in `wg_send` and in the receive loop; the other senders and `wg_recv`
leave it out.
-/

namespace WgNx.SessionExpiry

open WgNx.ByteLayout
open WgNx.CryptoPrimitives
open WgNx.EndpointMachine
open WgNx.NoiseHandshake
open WgNx.OutputMachine
open WgNx.ReplayCounter
open WgNx.TransportReceive
open WgNx.TunnelSetup
open WgNx.TunnelState
open WgNx.UseRules

def TimelyUse : Event → Prop
  | .sealed _ sess now => ¬ sess.Expired now ∧ sess.sendingCounter < wgRejectAfterMessages
  | .delivered _ sess _ now => ¬ sess.Expired now
  | _ => True

def lifetime : UseRule where
  maySeal st now := ¬ st.Expired now ∧ st.sendingCounter < wgRejectAfterMessages
  mayDeliver st now := ¬ st.Expired now
  maySeal_of_checked _ _ _ hfresh hcounter := ⟨hfresh, hcounter⟩
  mayDeliver_of_fresh _ _ hfresh := hfresh

theorem lifetime_allows_iff (e : Event) : lifetime.Allows e ↔ TimelyUse e := by
  cases e <;> exact Iff.rfl

/-- A run from `wg_init` uses no session beyond its lifetime exactly if none of
the unchecked paths takes such a session. -/
theorem sessions_used_in_time_iff (P : Primitives) (config : WgConfig) (endpoint : SockAddr)
    (actions : List Action) :
    (∀ e ∈ (run (step P) (initial P config endpoint) actions).2, TimelyUse e) ↔
      AllSteps (step P) (lifetime.Admits P) (initial P config endpoint) actions := by
  rw [← lifetime.kept_run_iff P]
  exact forall₂_congr fun e _ => (lifetime_allows_iff e).symm

/-- A table entry connects, and three minutes later a packet is sent to it. -/
def lateRun : List Action :=
  let init := sampleInit 7 3 ⟨sampleKey 11, 17, Vector.replicate 12 1, 1000⟩
  [.addPeer (sampleKey 7) (Vector.replicate 36 0) 1, .start true true,
    .recv ⟨true, .ofBytes init.toBytes none, ⟨sampleKey 15, 23, 1000⟩, 1000⟩,
    .sendToPeer 0 [1, 2] 180000001000 true]

theorem sealed_after_three_minutes :
    ∃ sess, .sealed (.peer 0) sess 180000001000 ∈
        (run (step additive) (initial additive sampleConfig ⟨0, 51820⟩) lateRun).2 ∧
      sess.valid = true ∧ sess.Expired 180000001000 := by
  refine ⟨((run (step additive) (initial additive sampleConfig ⟨0, 51820⟩)
    (lateRun.take 3)).1.tun.peers.get 0).session, ?_⟩
  decide +kernel

end WgNx.SessionExpiry
