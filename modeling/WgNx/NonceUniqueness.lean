import WgNx.CounterNonces
import WgNx.SessionStore
import WgNx.UseRules

/-!
No sending key of a tunnel is used twice with one counter.

The valid sessions packets are sealed under are the slots of `CounterNonces`:
handshakes install keys, wipes clear them.  What the library cannot exclude is a
packet sealed under a session that is not valid, and a counter that wraps; both
happen in the code, on the paths that check neither.
-/

namespace WgNx.NonceUniqueness

open WgNx.ByteLayout
open WgNx.CounterNonces
open WgNx.CryptoPrimitives
open WgNx.EndpointMachine
open WgNx.NoiseHandshake
open WgNx.OutputMachine
open WgNx.ReplayCounter
open WgNx.SessionStore
open WgNx.TransportReceive
open WgNx.TransportSend
open WgNx.TunnelSetup
open WgNx.TunnelState
open WgNx.UseRules
open WgNx.WireMessages
open Function

/-- The key a valid session sends with and the counter of its next packet. -/
def slotOf (sess : WgSession) : Option (Key × UInt64) :=
  if sess.valid then some (sess.sendingKey, sess.sendingCounter) else none

def slotsOf (S : Store) : Slots SessionRef Key
  | .legacy => slotOf (S .legacy)
  | .peer i => slotOf (S (.peer i))
  | _ => none

/-- What an event means for the slots. -/
def labelOf : Event → Option (Label Key)
  | .established _ sess => some (.installed sess.sendingKey)
  | .sealed _ sess _ => some (.used sess.sendingKey sess.sendingCounter)
  | _ => none

theorem ne_maxCounter_of_lt {counter : UInt64} (h : counter < wgRejectAfterMessages) :
    counter ≠ maxCounter := by
  rintro rfl
  exact absurd h (by decide)

/-- A packet is sealed under a valid session and before its last counter. -/
def properSeals : UseRule where
  maySeal st _ := st.valid = true ∧ st.sendingCounter ≠ maxCounter
  mayDeliver _ _ := True
  maySeal_of_checked _ _ hvalid _ hcounter := ⟨hvalid, ne_maxCounter_of_lt hcounter⟩
  mayDeliver_of_fresh _ _ _ := trivial

instance (st : Standing) (now : UInt64) : Decidable (properSeals.maySeal st now) :=
  inferInstanceAs (Decidable (_ ∧ _))

instance (st : Standing) (now : UInt64) : Decidable (properSeals.mayDeliver st now) :=
  inferInstanceAs (Decidable True)

theorem slotsOf_sendable {S : Store} {ref : SessionRef} (href : Sendable ref) :
    slotsOf S ref = slotOf (S ref) := by
  cases ref with
  | legacy => rfl
  | peer i => rfl
  | legacyPrev => exact href.elim
  | peerPrev i => exact href.elim

theorem slotsOf_not_sendable (S : Store) {ref : SessionRef} (href : ¬ Sendable ref) :
    slotsOf S ref = none := by
  cases ref with
  | legacy => exact absurd trivial href
  | peer i => exact absurd trivial href
  | legacyPrev => rfl
  | peerPrev i => rfl

theorem not_sendable_prevOf {ref : SessionRef} (href : Sendable ref) :
    ¬ Sendable (prevOf ref) := by
  cases ref with
  | legacy => exact id
  | peer i => exact id
  | legacyPrev => exact href.elim
  | peerPrev i => exact href.elim

/-- Writing to one record of the store writes to its slot. -/
theorem slotsOf_update (S : Store) {ref : SessionRef} (href : Sendable ref)
    (sess : WgSession) :
    slotsOf (update S ref sess) = update (slotsOf S) ref (slotOf sess) := by
  funext ref'
  rcases eq_or_ne ref' ref with rfl | hne
  · rw [slotsOf_sendable href, update_self, update_self]
  · rw [update_of_ne hne]
    by_cases href' : Sendable ref'
    · rw [slotsOf_sendable href', slotsOf_sendable href', update_of_ne hne]
    · rw [slotsOf_not_sendable _ href', slotsOf_not_sendable _ href']

theorem slotsOf_update_prev (S : Store) {ref : SessionRef} (href : Sendable ref)
    (sess : WgSession) : slotsOf (update S (prevOf ref) sess) = slotsOf S := by
  funext ref'
  by_cases href' : Sendable ref'
  · have hne : ref' ≠ prevOf ref := by
      rintro rfl
      exact not_sendable_prevOf href href'
    rw [slotsOf_sendable href', slotsOf_sendable href', update_of_ne hne]
  · rw [slotsOf_not_sendable _ href', slotsOf_not_sendable _ href']

theorem slotOf_valid {sess : WgSession} (h : sess.valid = true) :
    slotOf sess = some (sess.sendingKey, sess.sendingCounter) :=
  if_pos h

/-- Moving indices touches neither key, counter nor validity. -/
theorem slotOf_forgetIndices (sess : WgSession) : slotOf (forgetIndices sess) = slotOf sess :=
  rfl

/-- A store step whose seals are proper is a sequence of slot steps. -/
theorem storeStep_slots {S S' : Store} {events : List Event}
    (h : StoreStep S events S') (hproper : properSeals.Kept events) :
    Path SlotStep (slotsOf S) (events.filterMap labelOf) (slotsOf S') := by
  cases h with
  | sealPacket ref sess now href hsess =>
      obtain ⟨hvalid, hmax⟩ := hproper _ (List.mem_singleton_self _)
      have hslot : slotsOf S ref = some (sess.sendingKey, sess.sendingCounter) := by
        rw [slotsOf_sendable href, ← hsess]
        exact slotOf_valid hvalid
      have hbump : slotOf (bumpCounter (S ref)) =
          some (sess.sendingKey, sess.sendingCounter + 1) := by
        rw [← hsess]
        exact slotOf_valid hvalid
      rw [slotsOf_update S href, hbump]
      exact .single (.use ref _ _ hslot hmax)
  | reindex ref sess href hsess =>
      rw [slotsOf_update S href, ← slotOf_forgetIndices sess, hsess, slotOf_forgetIndices,
        ← slotsOf_sendable href, update_eq_self]
      exact .refl _
  | install ref sess kept href hvalid hcounter hkept =>
      have hslot : slotOf sess.core = some (sess.sendingKey, 0) := by
        rw [← hcounter]
        exact slotOf_valid hvalid
      rw [slotsOf_update _ href, slotsOf_update_prev S href, hslot]
      exact .single (.install ref sess.sendingKey)
  | dropPrev ref href =>
      rw [slotsOf_update_prev S href]
      exact .refl _
  | wipe ref href =>
      rw [slotsOf_update _ href, slotsOf_update_prev S href]
      exact .single (.clear ref)

theorem path_slots {S S' : Store} {events : List Event} (h : Path StoreStep S events S')
    (hproper : properSeals.Kept events) :
    Path SlotStep (slotsOf S) (events.filterMap labelOf) (slotsOf S') := by
  induction h with
  | refl => exact .refl _
  | tail _ hstep ih =>
      rw [List.filterMap_append]
      apply OutputMachine.Path.trans
      · exact ih fun e he => hproper e (List.mem_append_left _ he)
      · exact storeStep_slots hstep fun e he => hproper e (List.mem_append_right _ he)

section Run

variable (P : Primitives)

def establishedKeys (events : List Event) : List Key :=
  events.filterMap fun
    | .established _ sess => some sess.sendingKey
    | _ => none

/-- The pairs of key and counter that packets were encrypted with. -/
def sealedNonces (events : List Event) : List (Key × UInt64) :=
  events.filterMap fun
    | .sealed _ sess _ => some (sess.sendingKey, sess.sendingCounter)
    | _ => none

theorem installedKeys_labels (events : List Event) :
    installedKeys ((events.filter loud).filterMap labelOf) = establishedKeys events := by
  induction events with
  | nil => rfl
  | cons e rest ih =>
      cases e <;>
        simp_all [List.filter_cons, List.filterMap_cons, installedKeys, establishedKeys, loud,
          labelOf]

theorem usedNonces_labels (events : List Event) :
    usedNonces ((events.filter loud).filterMap labelOf) = sealedNonces events := by
  induction events with
  | nil => rfl
  | cons e rest ih =>
      cases e <;>
        simp_all [List.filter_cons, List.filterMap_cons, usedNonces, sealedNonces, loud, labelOf]

theorem slotsOf_initial (config : WgConfig) (endpoint : SockAddr) :
    slotsOf (storeOf (initialTunnel P config endpoint)) = fun _ => none := by
  funext ref
  cases ref <;> rfl

/-- In every run whose steps all find the sessions they seal under valid and below the
last counter, and in which no sending key is established twice, no packet is encrypted
with the key and the counter of another one. -/
theorem sealed_nonces_unique (config : WgConfig) (endpoint : SockAddr)
    (actions : List Action)
    (hproper : AllSteps (step P) (properSeals.Admits P) (initial P config endpoint) actions)
    (hkeys : (establishedKeys
      (run (step P) (initial P config endpoint) actions).2).Nodup) :
    (sealedNonces (run (step P) (initial P config endpoint) actions).2).Nodup := by
  have hkept := (properSeals.kept_run_iff P _ actions).mpr hproper
  have hpath : Path StoreStep (storeOf (initialTunnel P config endpoint))
      ((run (step P) (initial P config endpoint) actions).2.filter loud)
      (storeOf (run (step P) (initial P config endpoint) actions).1.tun) :=
    run_refines (initial P config endpoint) actions
  have hslots := path_slots hpath fun e he => hkept e (List.mem_filter.mp he).1
  rw [slotsOf_initial] at hslots
  have hnodup := usedNonces_nodup hslots (by rwa [installedKeys_labels])
  rwa [usedNonces_labels] at hnodup

end Run

/-- A session is accepted and a packet is sent after the closing keepalive. -/
def sendingRun : List Action :=
  connectAnsweredBy (Vector.replicate 32 5) 21 1000 ++ [.send [1, 2] 2000 true]

theorem sealed_nonces_unique_sending :
    let s := initial additive sampleConfig ⟨0, 51820⟩
    AllSteps (step additive) (properSeals.Admits additive) s sendingRun ∧
      (establishedKeys (run (step additive) s sendingRun).2).Nodup ∧
      (sealedNonces (run (step additive) s sendingRun).2).length = 2 ∧
      (sealedNonces (run (step additive) s sendingRun).2).Nodup := by
  intro s
  have hrun : AllSteps (step additive) (properSeals.Admits additive) s sendingRun ∧
      (establishedKeys (run (step additive) s sendingRun).2).Nodup ∧
      (sealedNonces (run (step additive) s sendingRun).2).length = 2 := by
    decide +kernel
  obtain ⟨hproper, hkeys, hlength⟩ := hrun
  exact ⟨hproper, hkeys, hlength,
    sealed_nonces_unique additive sampleConfig ⟨0, 51820⟩ sendingRun hproper hkeys⟩

/-- Two calls of `wg_connect` answered by the owner of a table entry, with a wipe
of the legacy session between them. -/
def reusingRun : List Action :=
  [.addPeer (Vector.replicate 32 7) (Vector.replicate 36 0) 1] ++
    connectAnsweredBy (Vector.replicate 32 7) 11 1000 ++
    connectAnsweredBy (Vector.replicate 32 5) 21 2000 ++
    [.start true true, .keepalive 540000002000 fun _ => 540000002000, .stop] ++
    connectAnsweredBy (Vector.replicate 32 7) 31 540000003000

/-- Every handshake has its own non-zero key, and still the closing keepalives of
the first and the last call are encrypted with the zero key and counter zero. -/
theorem connect_reuses_zero_key :
    let events := (run (step additive) (initial additive sampleConfig ⟨0, 51820⟩)
      reusingRun).2
    (establishedKeys events).Nodup ∧ zeroKey ∉ establishedKeys events ∧
      (sealedNonces events).count (zeroKey, 0) = 2 := by
  decide +kernel

end WgNx.NonceUniqueness
