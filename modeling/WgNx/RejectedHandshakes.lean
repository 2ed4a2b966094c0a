import WgNx.TransportSend

/-!
Handshake messages that are rejected.

The two readers of a RESPONSE take over its sender index and advance the transcript
before they look at the tag, and the responder stores the MAC1 of an INIT before it
decrypts anything.  What a rejected message leaves behind is stated exactly, and what
it does to the message that should have been accepted.
-/

namespace WgNx.RejectedHandshakes

open WgNx.ByteLayout
open WgNx.CryptoPrimitives
open WgNx.NoiseHandshake
open WgNx.TransportSend
open WgNx.TunnelSetup
open WgNx.TunnelState
open WgNx.WireMessages

section Response

variable (P : Primitives)

/-- A RESPONSE of the wrong type or to another index, which the readers refuse before they
get to its sender index. -/
def Misaddressed (sess : WgSession) (msg : WgHandshakeResponse) : Prop :=
  msg.type ≠ wgMsgHandshakeResponse ∨ msg.receiverIndex ≠ sess.localIndex

instance (sess : WgSession) (msg : WgHandshakeResponse) : Decidable (Misaddressed sess msg) :=
  inferInstanceAs (Decidable (_ ∨ _))

/-- The hashes that a RESPONSE is mixed into come back to where they were. -/
def FixedPoint (tun : WgTunnel) (state : WgHandshakeState) (msg : WgHandshakeResponse) : Prop :=
  (readResponse P tun.staticPrivate tun.psk msg state).1 = state

instance (tun : WgTunnel) (state : WgHandshakeState) (msg : WgHandshakeResponse) :
    Decidable (FixedPoint P tun state msg) :=
  inferInstanceAs (Decidable (_ = _))

/-- The session and the transcript are left alone, and whatever RESPONSE comes later has the
effect it would have had. -/
def ResponseHarmless (tun : WgTunnel) (msg : WgHandshakeResponse) (state : WgHandshakeState)
    (now : UInt64) : Prop :=
  let out := wgHandshakeResponse P tun msg state now
  out.2.1.session = tun.session ∧ out.2.2.1 = state ∧
    ∀ genuine later, wgHandshakeResponse P out.2.1 genuine out.2.2.1 later =
      wgHandshakeResponse P tun genuine state later

def PeerResponseHarmless (tun : WgTunnel) (i : Nat) (msg : WgHandshakeResponse)
    (now : UInt64) : Prop :=
  let out := wgHandshakeInitProcessResponse P tun i msg now
  (out.2.1.peers.get i).session = (tun.peers.get i).session ∧
    (out.2.1.peers.get i).pendingHs = (tun.peers.get i).pendingHs ∧
    ∀ genuine later, wgHandshakeInitProcessResponse P out.2.1 i genuine later =
      wgHandshakeInitProcessResponse P tun i genuine later

variable {P}

/-- What `wg_handshake_response` leaves behind when it fails. -/
theorem response_rejected {tun : WgTunnel} {msg : WgHandshakeResponse}
    {state : WgHandshakeState} {now : UInt64}
    (h : (wgHandshakeResponse P tun msg state now).1 ≠ .ok) :
    (Misaddressed tun.session msg ∧
        wgHandshakeResponse P tun msg state now = (.handshake, tun, state, [])) ∨
      ¬ Misaddressed tun.session msg ∧
        wgHandshakeResponse P tun msg state now =
          (.decrypt, { tun with session := { tun.session with remoteIndex := msg.senderIndex } },
            (readResponse P tun.staticPrivate tun.psk msg state).1, []) := by
  unfold wgHandshakeResponse at h ⊢
  dsimp only at h ⊢
  split at h
  · rename_i htype
    rw [if_pos htype]
    exact .inl ⟨.inl htype, rfl⟩
  · rename_i htype
    rw [if_neg htype]
    split at h
    · rename_i hindex
      rw [if_pos hindex]
      exact .inl ⟨.inr hindex, rfl⟩
    · rename_i hindex
      rw [if_neg hindex]
      split at h
      · rename_i htag
        rw [if_pos htag]
        exact .inr ⟨fun hearly => hearly.elim htype hindex, rfl⟩
      · exact absurd rfl h

theorem peerResponse_rejected {tun : WgTunnel} {i : Nat} {msg : WgHandshakeResponse}
    {now : UInt64} (h : (wgHandshakeInitProcessResponse P tun i msg now).1 ≠ .ok) :
    (Misaddressed (tun.peers.get i).session msg ∧
        wgHandshakeInitProcessResponse P tun i msg now = (.handshake, tun, [])) ∨
      ¬ Misaddressed (tun.peers.get i).session msg ∧
        wgHandshakeInitProcessResponse P tun i msg now =
          (.decrypt,
            { tun with
              peers := tun.peers.modify i fun p =>
                { p with
                  session := { (tun.peers.get i).session with remoteIndex := msg.senderIndex }
                  pendingHs := (readResponse P tun.staticPrivate tun.psk msg
                    (tun.peers.get i).pendingHs).1 } }, []) := by
  unfold wgHandshakeInitProcessResponse at h ⊢
  dsimp only at h ⊢
  split at h
  · rename_i htype
    rw [if_pos htype]
    exact .inl ⟨.inl htype, rfl⟩
  · rename_i htype
    rw [if_neg htype]
    split at h
    · rename_i hindex
      rw [if_pos hindex]
      exact .inl ⟨.inr hindex, rfl⟩
    · rename_i hindex
      rw [if_neg hindex]
      split at h
      · rename_i htag
        rw [if_pos htag]
        exact .inr ⟨fun hearly => hearly.elim htype hindex, rfl⟩
      · exact absurd rfl h

theorem responseHarmless_of_misaddressed {tun : WgTunnel} {msg : WgHandshakeResponse}
    {state : WgHandshakeState} {now : UInt64}
    (h : (wgHandshakeResponse P tun msg state now).1 ≠ .ok)
    (hearly : Misaddressed tun.session msg) : ResponseHarmless P tun msg state now := by
  unfold ResponseHarmless
  rcases response_rejected h with ⟨-, hvalue⟩ | ⟨hright, -⟩
  · rw [hvalue]
    exact ⟨rfl, rfl, fun _ _ => rfl⟩
  · exact absurd hearly hright

theorem misaddressed_of_responseHarmless {tun : WgTunnel} {msg : WgHandshakeResponse}
    {state : WgHandshakeState} {now : UInt64}
    (h : (wgHandshakeResponse P tun msg state now).1 ≠ .ok)
    (hfixed : ¬ FixedPoint P tun state msg) (hharmless : ResponseHarmless P tun msg state now) :
    Misaddressed tun.session msg := by
  rcases response_rejected h with ⟨hearly, -⟩ | ⟨-, hvalue⟩
  · exact hearly
  · have hstate := hharmless.2.1
    rw [hvalue] at hstate
    exact absurd hstate hfixed

theorem peerResponseHarmless_of_misaddressed {tun : WgTunnel} {i : Nat}
    {msg : WgHandshakeResponse} {now : UInt64}
    (h : (wgHandshakeInitProcessResponse P tun i msg now).1 ≠ .ok)
    (hearly : Misaddressed (tun.peers.get i).session msg) :
    PeerResponseHarmless P tun i msg now := by
  unfold PeerResponseHarmless
  rcases peerResponse_rejected h with ⟨-, hvalue⟩ | ⟨hright, -⟩
  · rw [hvalue]
    exact ⟨rfl, rfl, fun _ _ => rfl⟩
  · exact absurd hearly hright

theorem misaddressed_of_peerResponseHarmless {tun : WgTunnel} {i : Nat}
    {msg : WgHandshakeResponse} {now : UInt64} (hi : i < tun.peers.count)
    (h : (wgHandshakeInitProcessResponse P tun i msg now).1 ≠ .ok)
    (hfixed : ¬ FixedPoint P tun (tun.peers.get i).pendingHs msg)
    (hharmless : PeerResponseHarmless P tun i msg now) :
    Misaddressed (tun.peers.get i).session msg := by
  rcases peerResponse_rejected h with ⟨hearly, -⟩ | ⟨-, hvalue⟩
  · exact hearly
  · have hstate := hharmless.2.1
    rw [hvalue] at hstate
    simp only [PeerTable.get_modify _ _ _ _ hi, if_true] at hstate
    exact absurd hstate hfixed

/-- A rejected RESPONSE of the wrong type or to another index leaves the session and the
transcript it is meant for alone, and with them what any later RESPONSE does.  Apart from
fixed points of the hashes no other one does. -/
theorem rejected_response_harmless_iff (P : Primitives) (tun : WgTunnel) (i : Nat)
    (hi : i < tun.peers.count) (state : WgHandshakeState) (msg : WgHandshakeResponse)
    (now : UInt64) :
    ((wgHandshakeResponse P tun msg state now).1 ≠ .ok →
        (Misaddressed tun.session msg → ResponseHarmless P tun msg state now) ∧
        (¬ FixedPoint P tun state msg → ResponseHarmless P tun msg state now →
          Misaddressed tun.session msg)) ∧
      ((wgHandshakeInitProcessResponse P tun i msg now).1 ≠ .ok →
        (Misaddressed (tun.peers.get i).session msg → PeerResponseHarmless P tun i msg now) ∧
        (¬ FixedPoint P tun (tun.peers.get i).pendingHs msg →
          PeerResponseHarmless P tun i msg now →
          Misaddressed (tun.peers.get i).session msg)) := by
  constructor
  · intro h
    exact ⟨responseHarmless_of_misaddressed h, misaddressed_of_responseHarmless h⟩
  · intro h
    exact ⟨peerResponseHarmless_of_misaddressed h, misaddressed_of_peerResponseHarmless hi h⟩

end Response

section Samples

def forgedResponse : WgHandshakeResponse :=
  { genuineResponse with
    senderIndex := 99
    ephemeral := sampleKey 1
    encryptedNothing := Vector.replicate 16 0 }

/-- The forged RESPONSE is rejected, but it replaces the remote index and spoils the
stored transcript, so that the genuine one is rejected after it. -/
theorem forged_response_spoils_handshake :
    let out := wgHandshakeInitProcessResponse additive openingTunnel 0 forgedResponse 300
    out.1 = .decrypt ∧ (out.2.1.peers.get 0).session ≠ (openingTunnel.peers.get 0).session ∧
      (wgHandshakeInitProcessResponse additive openingTunnel 0 genuineResponse 400).1 = .ok ∧
      (wgHandshakeInitProcessResponse additive out.2.1 0 genuineResponse 400).1 = .decrypt := by
  decide +kernel

/-- A RESPONSE to another index is rejected without a trace, and the forged one is not. -/
theorem rejected_response_harmless_other_index :
    PeerResponseHarmless additive openingTunnel 0 { genuineResponse with receiverIndex := 18 }
        300 ∧
      ¬ PeerResponseHarmless additive openingTunnel 0 forgedResponse 300 := by
  have hall : let sess := (openingTunnel.peers.get 0).session
      0 < openingTunnel.peers.count ∧
      (wgHandshakeInitProcessResponse additive openingTunnel 0
        { genuineResponse with receiverIndex := 18 } 300).1 ≠ .ok ∧
      (wgHandshakeInitProcessResponse additive openingTunnel 0 forgedResponse 300).1 ≠ .ok ∧
      Misaddressed sess { genuineResponse with receiverIndex := 18 } ∧
      ¬ FixedPoint additive openingTunnel (openingTunnel.peers.get 0).pendingHs forgedResponse ∧
      ¬ Misaddressed sess forgedResponse := by
    decide +kernel
  obtain ⟨hi, hother, hforged, hmisaddressed, hfixed, haddressed⟩ := hall
  have hother := (rejected_response_harmless_iff additive openingTunnel 0 hi .zeroed _ 300).2 hother
  have hforged := (rejected_response_harmless_iff additive openingTunnel 0 hi .zeroed _ 300).2
    hforged
  refine ⟨hother.1 hmisaddressed, fun hharmless => ?_⟩
  exact haddressed (hforged.2 hfixed hharmless)

end Samples

section Init

variable (P : Primitives)

/-- `wg_handshake_init_process` leaves the tunnel alone and sends nothing, and every cookie
reply that comes later gets the verdict it would have got. -/
def InitHarmless (tun : WgTunnel) (msg : WgHandshakeInit) (d : RespDraws) : Prop :=
  (wgHandshakeInitProcess P tun msg d).2 = (tun, []) ∧
    ∀ reply now, (wgProcessCookieReply P (wgHandshakeInitProcess P tun msg d).2.1 reply now).1 =
      (wgProcessCookieReply P tun reply now).1

variable {P}

theorem init_rejected {tun : WgTunnel} {msg : WgHandshakeInit} {d : RespDraws}
    (h : (wgHandshakeInitProcess P tun msg d).1 ≠ .ok) :
    ((msg.type ≠ wgMsgHandshakeInit ∨ mac1Ok P tun msg = false) ∧
        (wgHandshakeInitProcess P tun msg d).2 = (tun, [])) ∨
      (msg.type = wgMsgHandshakeInit ∧ mac1Ok P tun msg = true) ∧
        (wgHandshakeInitProcess P tun msg d).2 = ({ tun with lastMac1 := msg.mac1 }, []) := by
  unfold wgHandshakeInitProcess at h ⊢
  split at h
  · rename_i htype
    rw [if_pos htype]
    exact .inl ⟨.inl htype, rfl⟩
  · rename_i htype
    rw [if_neg htype]
    split at h
    · rename_i hmac
      rw [if_pos hmac]
      exact .inl ⟨.inr (by simpa using hmac), rfl⟩
    · rename_i hmac
      rw [if_neg hmac]
      dsimp only at h ⊢
      cases hopen : openInit P tun.staticPrivate tun.staticPublic msg with
      | none => exact .inr ⟨⟨not_not.mp htype, by simpa using hmac⟩, rfl⟩
      | some read =>
          rw [hopen] at h
          dsimp only at h
          split at h <;> exact absurd rfl h

theorem lastMac1_unchanged_iff (tun : WgTunnel) (mac1 : Mac) :
    { tun with lastMac1 := mac1 } = tun ↔ mac1 = tun.lastMac1 := by
  constructor
  · intro h
    exact congrArg WgTunnel.lastMac1 h
  · intro h
    rw [h]

/-- A rejected INIT leaves the tunnel alone exactly if its type or its MAC1 is wrong or
its MAC1 is the one the tunnel has stored. -/
theorem rejected_init_harmless_iff (P : Primitives) (tun : WgTunnel) (msg : WgHandshakeInit)
    (d : RespDraws) (h : (wgHandshakeInitProcess P tun msg d).1 ≠ .ok) :
    InitHarmless P tun msg d ↔
      msg.type ≠ wgMsgHandshakeInit ∨ mac1Ok P tun msg = false ∨ msg.mac1 = tun.lastMac1 := by
  unfold InitHarmless
  rcases init_rejected h with ⟨hearly, hvalue⟩ | ⟨⟨htype, hmac⟩, hvalue⟩
  · rw [hvalue]
    refine iff_of_true ⟨rfl, fun _ _ => rfl⟩ ?_
    rcases hearly with htype | hmac
    · exact .inl htype
    · exact .inr (.inl hmac)
  · rw [hvalue]
    simp only [htype, hmac, ne_eq, not_true_eq_false, Bool.true_eq_false, false_or,
      Prod.mk.injEq, and_true, lastMac1_unchanged_iff]
    constructor
    · rintro ⟨hsame, -⟩
      exact hsame
    · intro hsame
      refine ⟨hsame, fun reply now => ?_⟩
      rw [hsame]

/-- Primitives whose MAC shows a part of its message, and whose cookie box has its
associated data for a tag. -/
def echoing : Primitives :=
  { additive with
    wgMac := fun _ data => field data 8 16
    wgXaeadDecrypt := fun _ _ ciphertext ad =>
      if (field ciphertext.toList 16 16).toList = ad then some (field ciphertext.toList 0 16)
      else none }

/-- A tunnel that has sent an INIT with index 17. -/
def waitingTunnel : WgTunnel × WgHandshakeInit :=
  let built := wgHandshakeInit echoing (sampleTunnel 3 5) openingDraws
  (built.1, built.2.1)

def waitingReply : WgCookieReply :=
  ⟨wgMsgCookieReply, Vector.replicate 3 0, 17, Vector.replicate 24 0,
    (Vector.replicate 16 6 : Mac) ++ waitingTunnel.2.mac1⟩

/-- An INIT of someone who knows the public key of the tunnel and nothing else. -/
def forgedInit : WgHandshakeInit :=
  { (buildInit echoing (sampleKey 8) (sampleKey 8) (sampleKey 3)
      ⟨sampleKey 1, 31, Vector.replicate 12 0, 0⟩).1 with
    encryptedStatic := Vector.replicate 48 0 }

/-- The forged INIT has a right MAC1 and is rejected; after it the cookie reply to the
tunnel's own INIT no longer verifies. -/
theorem forged_init_spoils_cookie :
    let out := wgHandshakeInitProcess echoing waitingTunnel.1 forgedInit ⟨sampleKey 2, 32, 200⟩
    mac1Ok echoing waitingTunnel.1 forgedInit = true ∧ out.1 = .decrypt ∧
      out.2.1 ≠ waitingTunnel.1 ∧
      (wgProcessCookieReply echoing waitingTunnel.1 waitingReply 300).1 = .ok ∧
      (wgProcessCookieReply echoing out.2.1 waitingReply 300).1 = .decrypt := by
  decide +kernel

theorem rejected_init_harmless_wrong_mac :
    InitHarmless echoing waitingTunnel.1 { forgedInit with mac1 := zeroMac }
        ⟨sampleKey 2, 32, 200⟩ ↔
      forgedInit.type ≠ wgMsgHandshakeInit ∨
        mac1Ok echoing waitingTunnel.1 { forgedInit with mac1 := zeroMac } = false ∨
        zeroMac = waitingTunnel.1.lastMac1 :=
  rejected_init_harmless_iff echoing waitingTunnel.1 { forgedInit with mac1 := zeroMac }
    ⟨sampleKey 2, 32, 200⟩ (by decide +kernel)

end Init

end WgNx.RejectedHandshakes
