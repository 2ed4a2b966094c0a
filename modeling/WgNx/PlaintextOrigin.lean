import WgNx.SessionStore
import WgNx.SessionUses

/-!
Plaintexts come out of established sessions.

On the store, a valid session has the keys of a completed handshake, and a
previous session is kept only beside a valid current one.  The lookup by index
checks validity except for the legacy session, whose indices start at zero; a
step that lets a packet reach it before the first handshake, or after its keys
were wiped, is what the run has to avoid.
-/

namespace WgNx.PlaintextOrigin

open WgNx.ByteLayout
open WgNx.CryptoPrimitives
open WgNx.EndpointMachine
open WgNx.OutputMachine
open WgNx.SessionStore
open WgNx.SessionUses
open WgNx.TransportReceive
open WgNx.TransportSend
open WgNx.TunnelSetup
open WgNx.TunnelState
open WgNx.WireMessages
open Function

/-- The keys of a session were installed by a handshake completed in the log. -/
def HasOrigin (log : List Event) (sess : WgSession) : Prop :=
  ∃ ref est, Event.established ref est ∈ log ∧ est.receivingKey = sess.receivingKey ∧
    est.sendingKey = sess.sendingKey

theorem HasOrigin.mono {log log' : List Event} {sess : WgSession} (h : HasOrigin log sess)
    (hsub : log ⊆ log') : HasOrigin log' sess := by
  obtain ⟨ref, est, hmem, hkeys⟩ := h
  exact ⟨ref, est, hsub hmem, hkeys⟩

structure SameKeys (a b : WgSession) : Prop where
  valid : a.valid = b.valid
  receivingKey : a.receivingKey = b.receivingKey
  sendingKey : a.sendingKey = b.sendingKey

theorem SameKeys.hasOrigin {a b : WgSession} {log : List Event} (h : SameKeys a b)
    (horigin : HasOrigin log b) : HasOrigin log a := by
  obtain ⟨ref, est, hmem, hreceiving, hsending⟩ := horigin
  exact ⟨ref, est, hmem, hreceiving.trans h.receivingKey.symm,
    hsending.trans h.sendingKey.symm⟩

theorem sameKeys_forgetIndices (a : WgSession) : SameKeys a (forgetIndices a) :=
  ⟨rfl, rfl, rfl⟩

theorem sameKeys_of_forgetIndices {a b : WgSession}
    (h : forgetIndices a = forgetIndices b) : SameKeys a b := by
  have ha := sameKeys_forgetIndices a
  have hb := sameKeys_forgetIndices b
  rw [h] at ha
  exact ⟨ha.valid.trans hb.valid.symm, ha.receivingKey.trans hb.receivingKey.symm,
    ha.sendingKey.trans hb.sendingKey.symm⟩

section Store

/-- Valid sessions have an origin, and a previous session is valid only beside a
valid current one. -/
structure Sourced (S : Store) (log : List Event) : Prop where
  origin : ∀ ref, (S ref).valid = true → HasOrigin log (S ref)
  kept : ∀ ref, Sendable ref → (S (prevOf ref)).valid = true → (S ref).valid = true

variable {S : Store} {log : List Event}

theorem Sourced.mono {log' : List Event} (h : Sourced S log) (hsub : log ⊆ log') :
    Sourced S log' :=
  ⟨fun ref hvalid => (h.origin ref hvalid).mono hsub, h.kept⟩

theorem ne_prevOf {ref ref' : SessionRef} (href : Sendable ref) (href' : Sendable ref') :
    ref' ≠ prevOf ref := by
  rintro rfl
  cases ref with
  | legacy => exact href'
  | peer i => exact href'
  | legacyPrev => exact href
  | peerPrev i => exact href

theorem prevOf_ne {ref ref' : SessionRef} (href : Sendable ref) (href' : Sendable ref')
    (hne : ref' ≠ ref) : prevOf ref' ≠ prevOf ref := by
  intro heq
  apply hne
  cases ref <;> cases ref' <;> simp_all [prevOf, Sendable]

/-- Rewriting a record under the same keys. -/
theorem Sourced.rewrite (h : Sourced S log) {ref : SessionRef} {sess : WgSession}
    (hsame : SameKeys sess (S ref)) : Sourced (update S ref sess) log := by
  have hall : ∀ ref', SameKeys (update S ref sess ref') (S ref') := by
    intro ref'
    rcases eq_or_ne ref' ref with rfl | hne
    · rw [update_self]
      exact hsame
    · rw [update_of_ne hne]
      exact ⟨rfl, rfl, rfl⟩
  constructor
  · intro ref' hvalid
    rw [(hall ref').valid] at hvalid
    exact (hall ref').hasOrigin (h.origin ref' hvalid)
  · intro ref' href' hvalid
    rw [(hall _).valid] at hvalid ⊢
    exact h.kept ref' href' hvalid

theorem Sourced.dropPrev (h : Sourced S log) {ref : SessionRef} (href : Sendable ref) :
    Sourced (update S (prevOf ref) .zeroed) log := by
  constructor
  · intro ref' hvalid
    rcases eq_or_ne ref' (prevOf ref) with rfl | hne
    · rw [update_self] at hvalid
      cases hvalid
    · rw [update_of_ne hne] at hvalid ⊢
      exact h.origin ref' hvalid
  · intro ref' href' hvalid
    rw [update_of_ne (ne_prevOf href href')]
    rcases eq_or_ne (prevOf ref') (prevOf ref) with heq | hne
    · rw [heq, update_self] at hvalid
      cases hvalid
    · rw [update_of_ne hne] at hvalid
      exact h.kept ref' href' hvalid

/-- Replacing both records of a pair, the current one by a valid session or by
one without a previous session. -/
theorem Sourced.replace (h : Sourced S log) {ref : SessionRef} (href : Sendable ref)
    {sess kept : WgSession} (hsess : sess.valid = true → HasOrigin log sess)
    (hkept : kept.valid = true → HasOrigin log kept ∧ sess.valid = true) :
    Sourced (update (update S (prevOf ref) kept) ref sess) log := by
  constructor
  · intro ref' hvalid
    rcases eq_or_ne ref' ref with rfl | hne
    · rw [update_self] at hvalid ⊢
      exact hsess hvalid
    · rw [update_of_ne hne] at hvalid ⊢
      rcases eq_or_ne ref' (prevOf ref) with rfl | hne'
      · rw [update_self] at hvalid ⊢
        exact (hkept hvalid).1
      · rw [update_of_ne hne'] at hvalid ⊢
        exact h.origin ref' hvalid
  · intro ref' href' hvalid
    rw [update_of_ne (ne_prevOf href' href).symm] at hvalid
    rcases eq_or_ne ref' ref with rfl | hne
    · rw [update_self] at hvalid ⊢
      exact (hkept hvalid).2
    · rw [update_of_ne (prevOf_ne href href' hne)] at hvalid
      rw [update_of_ne hne, update_of_ne (ne_prevOf href href')]
      exact h.kept ref' href' hvalid

theorem storeStep_sourced {events : List Event} {S' : Store} (h : Sourced S log)
    (hstep : StoreStep S events S') : Sourced S' (log ++ events) := by
  cases hstep with
  | sealPacket ref sess now href hsess =>
      have hsame : SameKeys (bumpCounter (S ref)) (S ref) := ⟨rfl, rfl, rfl⟩
      exact (h.rewrite hsame).mono (List.subset_append_left _ _)
  | reindex ref sess href hsess =>
      rw [List.append_nil]
      exact h.rewrite (sameKeys_of_forgetIndices hsess)
  | install ref sess kept href hvalid hcounter hkept =>
      have hold := h.mono (List.subset_append_left log [.established ref sess])
      apply hold.replace href
      · intro _
        exact ⟨ref, sess, List.mem_append_right _ (List.mem_singleton_self _), rfl, rfl⟩
      · intro hkeptValid
        refine ⟨?_, hvalid⟩
        rcases hkept with rfl | ⟨hcurrent, hforget⟩
        · exact hold.origin _ hkeptValid
        · exact (sameKeys_of_forgetIndices hforget).hasOrigin (hold.origin ref hcurrent)
  | dropPrev ref href =>
      rw [List.append_nil]
      exact h.dropPrev href
  | wipe ref href =>
      apply (h.mono (List.subset_append_left _ _)).replace href
      · intro hvalid
        cases hvalid
      · intro hvalid
        cases hvalid

end Store

section Run

variable {P : Primitives}

theorem sourced_initial (config : WgConfig) (endpoint : SockAddr) :
    Sourced (storeOf (initialTunnel P config endpoint)) [] := by
  have hinvalid : ∀ ref, (storeOf (initialTunnel P config endpoint) ref).valid = false := by
    intro ref
    cases ref <;> rfl
  constructor
  · intro ref hvalid
    rw [hinvalid] at hvalid
    cases hvalid
  · intro ref _ hvalid
    rw [hinvalid] at hvalid
    cases hvalid

theorem step_sourced {s : Endpoint} {log : List Event} (h : Sourced (storeOf s.tun) log)
    (a : Action) : Sourced (storeOf (step P s a).1.tun) (log ++ (step P s a).2) := by
  have hpath : Path StoreStep (storeOf s.tun) ((step P s a).2.filter loud)
      (storeOf (step P s a).1.tun) := step_refines s a
  have hloud := Path.invariant (fun _ _ _ _ => storeStep_sourced) h hpath
  apply hloud.mono
  intro e he
  rcases List.mem_append.mp he with hold | hnew
  · exact List.mem_append_left _ hold
  · exact List.mem_append_right _ (List.mem_filter.mp hnew).1

/-- A packet that the receive loop opens with the legacy session, for a callback to
take, arrives while that session is valid. -/
def LegacyGuarded (P : Primitives) (s : Endpoint) : Action → Prop
  | .recv inp =>
      s.tun.running = true → s.tun.recvCb.isSome = true →
        (checkedBy P s.tun inp).map Prod.fst = some .legacy → s.tun.session.valid = true
  | _ => True

instance (s : Endpoint) : (a : Action) → Decidable (LegacyGuarded P s a)
  | .recv inp =>
      inferInstanceAs (Decidable (s.tun.running = true → s.tun.recvCb.isSome = true →
        (checkedBy P s.tun inp).map Prod.fst = some .legacy → s.tun.session.valid = true))
  | .addPeer .. | .setRecvCallback ..
  | .start .. | .stop | .callConnect _ | .connectBegin .. | .connectEnd .. | .connectFinish _
  | .callRekey | .rekeyBegin .. | .rekeyEnd _ | .rekeyFinish _ | .keepalive .. | .send ..
  | .sendToPeer .. | .wgRecv .. | .output .. => isTrue trivial

/-- A session of the peer table that an index selects is valid. -/
theorem valid_of_selectPeerSession {tun : WgTunnel} {log : List Event}
    (h : Sourced (storeOf tun) log) {receiverIndex : UInt32} {ref : SessionRef}
    (hselect : selectPeerSession tun receiverIndex = some ref) :
    (tun.getSession ref).valid = true := by
  unfold selectPeerSession at hselect
  split at hselect
  · cases hselect
  · rename_i i hfind
    dsimp only at hselect
    split at hselect
    · cases hselect
      have hfound := PeerTable.find_get hfind
      simp only [Bool.or_eq_true, Bool.and_eq_true] at hfound
      -- Found by its previous session, the entry still has a valid current one.
      rcases hfound with ⟨⟨-, hvalid⟩, -⟩ | ⟨⟨-, hprev⟩, -⟩
      · exact hvalid
      · exact h.kept (.peer i) trivial hprev
    · split at hselect
      · rename_i hprev
        cases hselect
        exact hprev.1
      · cases hselect

theorem valid_of_delivery {s : Endpoint} {log : List Event} {a : Action} {e : Event}
    (h : Sourced (storeOf s.tun) log) (hguard : LegacyGuarded P s a)
    (hdelivery : DeliveryCase P s a e) :
    ∃ ref plaintext now, e = .delivered ref (s.tun.getSession ref) plaintext now ∧
      (s.tun.getSession ref).valid = true := by
  cases hdelivery with
  | received inp ref counter plaintext hrunning hcallback hchecked =>
      refine ⟨ref, plaintext, inp.now, rfl, ?_⟩
      obtain ⟨receiverIndex, hselect⟩ := checkedBy_eq_some P hchecked
      rcases selectSession_cases hselect with hpeer | ⟨-, hlegacy⟩
      · exact valid_of_selectPeerSession h hpeer
      · rcases selectLegacySession_cases hlegacy with ⟨rfl, -⟩ | ⟨rfl, hprev, -⟩
        · exact hguard hrunning hcallback (by rw [hchecked]; rfl)
        · exact hprev
  | polled result len now plaintext hvalid => exact ⟨.legacy, plaintext, now, rfl, hvalid⟩

/-- Every plaintext in the log came out of a valid session whose keys an earlier
handshake had installed. -/
def DeliveriesSourced (log : List Event) : Prop :=
  ∀ before ref sess plaintext now after,
    log = before ++ .delivered ref sess plaintext now :: after →
    sess.valid = true ∧ HasOrigin before sess

/-- What precedes an event of `log ++ out` is a part of `log`, or all of it. -/
theorem split_append {log out before after : List Event} {e : Event}
    (h : log ++ out = before ++ e :: after) :
    (∃ rest, log = before ++ e :: rest) ∨ log ⊆ before ∧ e ∈ out := by
  rcases List.append_eq_append_iff.mp h with ⟨mid, rfl, hout⟩ | ⟨mid, rfl, hafter⟩
  · refine .inr ⟨List.subset_append_left _ _, ?_⟩
    rw [hout]
    exact List.mem_append_right _ (List.mem_cons_self ..)
  · cases mid with
    | nil =>
        refine .inr ⟨by simp, ?_⟩
        rw [List.nil_append] at hafter
        rw [← hafter]
        exact List.mem_cons_self ..
    | cons e' rest =>
        rw [List.cons_append] at hafter
        cases hafter
        exact .inl ⟨rest, rfl⟩

theorem step_deliveriesSourced {s : Endpoint} {log : List Event} {a : Action}
    (h : Sourced (storeOf s.tun) log) (hlog : DeliveriesSourced log)
    (hguard : LegacyGuarded P s a) : DeliveriesSourced (log ++ (step P s a).2) := by
  intro before ref sess plaintext now after hsplit
  rcases split_append hsplit with ⟨rest, hbefore⟩ | ⟨hsub, hmem⟩
  · exact hlog before ref sess plaintext now rest hbefore
  · obtain ⟨ref', plaintext', now', heq, hvalid⟩ :=
      valid_of_delivery h hguard (step_deliveries hmem rfl)
    cases heq
    refine ⟨hvalid, ?_⟩
    obtain ⟨ref'', est, hest, hkeys⟩ := h.origin ref hvalid
    exact ⟨ref'', est, hsub hest, hkeys⟩

/-- In every run from `wg_init` in which the legacy session opens packets for the
callback only while it is valid, every plaintext comes out of a valid session, with
keys installed by a handshake completed before. -/
theorem delivered_from_established (config : WgConfig) (endpoint : SockAddr)
    (actions : List Action)
    (hguard : AllSteps (step P) (LegacyGuarded P) (initial P config endpoint) actions) :
    DeliveriesSourced (run (step P) (initial P config endpoint) actions).2 := by
  have hinit : Sourced (storeOf (initial P config endpoint).tun) [] ∧
      DeliveriesSourced [] := by
    refine ⟨sourced_initial config endpoint, ?_⟩
    intro before ref sess plaintext now after hsplit
    simp at hsplit
  have hrun := run_invariant (I := fun s log => Sourced (storeOf s.tun) log ∧
    DeliveriesSourced log) (step P)
    (fun s log a h hstep => ⟨step_sourced h.1 a, step_deliveriesSourced h.1 h.2 hstep⟩)
    hinit hguard
  exact hrun.2

end Run

/-- A session is accepted, the threads start, and the peer's packet arrives. -/
def receivingRun : List Action :=
  let setup := connectAnsweredBy (Vector.replicate 32 5) 21 1000 ++
    [.setRecvCallback (some 1) 0, .start true true]
  let peerSession : WgSession :=
    { WgSession.zeroed with
      remoteIndex := 23
      sendingKey := (run (step additive) (initial additive sampleConfig ⟨0, 51820⟩)
        setup).1.tun.session.receivingKey }
  setup ++ [.recv ⟨true, .ofBytes (transportPacket additive peerSession [1, 2]) none,
    ⟨Vector.replicate 32 0, 0, 0⟩, 2000⟩]

theorem delivered_from_established_received :
    let s := initial additive sampleConfig ⟨0, 51820⟩
    AllSteps (step additive) (LegacyGuarded additive) s receivingRun ∧
      (∃ sess, .delivered .legacy sess [1, 2] 2000 ∈
        (run (step additive) s receivingRun).2) ∧
      DeliveriesSourced (run (step additive) s receivingRun).2 := by
  intro s
  let sess := (run (step additive) s (receivingRun.take 6)).1.tun.session
  have hrun : AllSteps (step additive) (LegacyGuarded additive) s receivingRun ∧
      .delivered .legacy sess [1, 2] 2000 ∈ (run (step additive) s receivingRun).2 := by
    decide +kernel
  obtain ⟨hguard, hmem⟩ := hrun
  exact ⟨hguard, ⟨sess, hmem⟩,
    delivered_from_established sampleConfig ⟨0, 51820⟩ receivingRun hguard⟩

/-- Threads started for a table entry, and a packet sealed under the zero key to
index zero while the clock is below three minutes. -/
def zeroKeyRun : List Action :=
  [.addPeer (Vector.replicate 32 7) (Vector.replicate 36 0) 1,
    .setRecvCallback (some 1) 0, .start true true,
    .recv ⟨true, .ofBytes (transportPacket additive .zeroed [1, 2]) none,
      ⟨Vector.replicate 32 0, 0, 0⟩, 100000000000⟩]

/-- The callback gets a plaintext out of a session no handshake ever set up. -/
theorem delivered_under_zero_key :
    (run (step additive) (initial additive sampleConfig ⟨0, 51820⟩) zeroKeyRun).2 =
      [.delivered .legacy .zeroed [1, 2] 100000000000] := by
  decide +kernel

end WgNx.PlaintextOrigin
