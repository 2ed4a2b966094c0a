import WgNx.RemoteKeys

/-!
Replayed INIT messages.

The responder decrypts the timestamp of an INIT and throws it away.  Here it is
kept: `readInit` is the responder's reading with the timestamp, and the machine is
run with a record of the timestamps it has accepted from each static key.
-/

namespace WgNx.InitReplay

open WgNx.ByteLayout
open WgNx.CryptoPrimitives
open WgNx.EndpointMachine
open WgNx.NoiseHandshake
open WgNx.OutputMachine
open WgNx.RemoteKeys
open WgNx.TransportReceive
open WgNx.TunnelSetup
open WgNx.TunnelState
open WgNx.WireMessages

section Reading

variable (P : Primitives)

def stampOf (tun : WgTunnel) (msg : WgHandshakeInit) : Option (Key × Timestamp) :=
  (readInit P tun.staticPrivate tun.staticPublic msg).map Prod.snd

theorem openInit_of_stampOf {tun : WgTunnel} {msg : WgHandshakeInit} {key : Key}
    {stamp : Timestamp} (h : stampOf P tun msg = some (key, stamp)) :
    ∃ state, openInit P tun.staticPrivate tun.staticPublic msg = some (state, key) := by
  obtain ⟨⟨state, sender, stamp'⟩, hread, hsnd⟩ := Option.map_eq_some_iff.mp h
  cases hsnd
  refine ⟨state, ?_⟩
  rw [openInit, hread]
  rfl

/-- `wg_timestamp` writes the most significant byte first. -/
def timestampValue (stamp : Timestamp) : Nat := leValue stamp.toList.reverse

end Reading

section History

structure History where
  endpoint : Endpoint
  accepted : List (Key × Timestamp)

variable (P : Primitives)

def acceptedStamp (tun : WgTunnel) (msg : WgHandshakeInit) : Option (Key × Timestamp) :=
  if msg.type = wgMsgHandshakeInit ∧ mac1Ok P tun msg = true then stampOf P tun msg
  else none

def historyStep (s : History) (a : Action) : History × List Event :=
  (⟨(step P s.endpoint a).1,
      s.accepted ++
        ((handedInit s.endpoint a).bind (acceptedStamp P s.endpoint.tun)).toList⟩,
    (step P s.endpoint a).2)

def historyRun (config : WgConfig) (endpoint : SockAddr) (actions : List Action) : History :=
  (run (historyStep P) ⟨initial P config endpoint, []⟩ actions).1

/-- `msg` comes from the owner of `key`, and its timestamp is not greater than one
that was already accepted from there. -/
def Replayed (s : History) (msg : WgHandshakeInit) (key : Key) : Prop :=
  ∃ stamp, stampOf P s.endpoint.tun msg = some (key, stamp) ∧
    ∃ earlier, (key, earlier) ∈ s.accepted ∧ timestampValue stamp ≤ timestampValue earlier

end History

section Harm

variable (P : Primitives)

/-- No session of the tunnel changes when the message is processed. -/
def Harmless (tun : WgTunnel) (msg : WgHandshakeInit) (d : RespDraws) : Prop :=
  ∀ ref, (wgHandshakeInitProcess P tun msg d).2.1.getSession ref = tun.getSession ref

def sessionOf (tun : WgTunnel) (key : Key) : SessionRef :=
  match wgFindPeerByPublicKey tun key with
  | none => .legacy
  | some i => .peer i

variable {P}

theorem harmless_of_refused {tun : WgTunnel} {msg : WgHandshakeInit}
    (h : ¬ (msg.type = wgMsgHandshakeInit ∧ mac1Ok P tun msg = true)) (d : RespDraws) :
    Harmless P tun msg d := by
  have hkey : acceptedKey P tun msg = none := if_neg h
  have hok := (wgHandshakeInitProcess_answers P tun msg d).2
  rw [hkey] at hok
  intro ref
  have hcase := wgHandshakeInitProcess_cases P tun msg d
  rcases hout : wgHandshakeInitProcess P tun msg d with ⟨err, tun', events⟩
  rw [hout] at hcase hok
  cases hcase with
  | rejected _ _ herr hsame => exact hsame.getSession ref
  | legacy decryptedStatic response keys hfind => exact absurd (hok.mp rfl) (by simp)
  | peer i response keys hi => exact absurd (hok.mp rfl) (by simp)

theorem localIndex_of_accepted {tun : WgTunnel} {msg : WgHandshakeInit}
    {state : WgHandshakeState} {key : Key}
    (haccepted : msg.type = wgMsgHandshakeInit ∧ mac1Ok P tun msg = true)
    (hopen : openInit P tun.staticPrivate tun.staticPublic msg = some (state, key))
    (d : RespDraws) :
    ((wgHandshakeInitProcess P tun msg d).2.1.getSession (sessionOf tun key)).localIndex =
      d.index := by
  have hsame : wgFindPeerByPublicKey { tun with lastMac1 := msg.mac1 } key =
      wgFindPeerByPublicKey tun key := rfl
  unfold wgHandshakeInitProcess sessionOf
  rw [if_neg (not_not.mpr haccepted.1), haccepted.2, if_neg (by decide)]
  dsimp only
  rw [hopen]
  dsimp only
  rw [hsame]
  cases hfind : wgFindPeerByPublicKey tun key with
  | none => rfl
  | some i =>
      change (((tun.peers.modify i _).get i).session).localIndex = d.index
      rw [PeerTable.get_modify _ _ _ _ (PeerTable.find_lt hfind), if_pos rfl]
      rfl

/-- A replayed INIT leaves the sessions alone exactly if its type or its first MAC
is wrong; the index the responder draws is not the one in use. -/
theorem replayed_init_harmless_iff (config : WgConfig) (endpoint : SockAddr)
    (actions : List Action) (msg : WgHandshakeInit) (d : RespDraws) (key : Key)
    (hreplayed : Replayed P (historyRun P config endpoint actions) msg key)
    (hfresh : d.index ≠
      ((historyRun P config endpoint actions).endpoint.tun.getSession
        (sessionOf (historyRun P config endpoint actions).endpoint.tun key)).localIndex) :
    Harmless P (historyRun P config endpoint actions).endpoint.tun msg d ↔
      ¬ (msg.type = wgMsgHandshakeInit ∧
        mac1Ok P (historyRun P config endpoint actions).endpoint.tun msg = true) := by
  constructor
  · intro hharmless haccepted
    obtain ⟨stamp, hstamp, -⟩ := hreplayed
    obtain ⟨state, hopen⟩ := openInit_of_stampOf P hstamp
    apply hfresh
    rw [← localIndex_of_accepted haccepted hopen d, hharmless]
  · intro hrefused
    exact harmless_of_refused hrefused d

end Harm

section Samples

def recordedInit : WgHandshakeInit :=
  sampleInit 7 3 ⟨sampleKey 21, 22, Vector.replicate 12 2, 150⟩

def receiveInit (msg : WgHandshakeInit) (index : UInt32) : Action :=
  .recv ⟨true, .ofBytes msg.toBytes none, ⟨Vector.replicate 32 23, index, 160⟩, 160⟩

def afterInit : List Action :=
  [.addPeer (sampleKey 7) (Vector.replicate 36 0) 9, .start true true,
    receiveInit recordedInit 24]

theorem replayed_init_harmless_wrong_mac :
    let s := historyRun additive sampleConfig ⟨0, 51820⟩ afterInit
    let msg := { recordedInit with mac1 := Vector.replicate 16 1 }
    Harmless additive s.endpoint.tun msg ⟨Vector.replicate 32 33, 34, 200⟩ := by
  have hall : let s := historyRun additive sampleConfig ⟨0, 51820⟩ afterInit
      let msg := { recordedInit with mac1 := Vector.replicate 16 1 }
      (stampOf additive s.endpoint.tun msg = some (sampleKey 7, Vector.replicate 12 2) ∧
        (sampleKey 7, Vector.replicate 12 2) ∈ s.accepted) ∧
      (34 : UInt32) ≠
        (s.endpoint.tun.getSession (sessionOf s.endpoint.tun (sampleKey 7))).localIndex ∧
      mac1Ok additive s.endpoint.tun msg = false := by
    decide +kernel
  obtain ⟨⟨hstamp, hearlier⟩, hfresh, hmac⟩ := hall
  refine (replayed_init_harmless_iff sampleConfig ⟨0, 51820⟩ afterInit _ _ (sampleKey 7)
    ⟨_, hstamp, _, hearlier, le_rfl⟩ hfresh).mpr ?_
  rintro ⟨-, hok⟩
  rw [hmac] at hok
  cases hok

/-- The same datagram again, twice: each copy replaces the entry's session, and the
session that was established first is gone from both of its records. -/
theorem init_replayed_twice :
    let s := historyRun additive sampleConfig ⟨0, 51820⟩ afterInit
    let once := (recvThreadIteration additive s.endpoint.tun
      ⟨true, .ofBytes recordedInit.toBytes none, ⟨Vector.replicate 32 43, 44, 170⟩, 170⟩).1
    let twice := (recvThreadIteration additive once
      ⟨true, .ofBytes recordedInit.toBytes none, ⟨Vector.replicate 32 53, 54, 180⟩, 180⟩).1
    Replayed additive s recordedInit (sampleKey 7) ∧
      ¬ Harmless additive s.endpoint.tun recordedInit ⟨Vector.replicate 32 43, 44, 170⟩ ∧
      (s.endpoint.tun.peers.get 0).session.valid = true ∧
      (s.endpoint.tun.peers.get 0).session.receivingKey ∉
        [(twice.peers.get 0).session.receivingKey,
          (twice.peers.get 0).prevSession.receivingKey] := by
  have hall : let s := historyRun additive sampleConfig ⟨0, 51820⟩ afterInit
      let once := (recvThreadIteration additive s.endpoint.tun
        ⟨true, .ofBytes recordedInit.toBytes none, ⟨Vector.replicate 32 43, 44, 170⟩, 170⟩).1
      let twice := (recvThreadIteration additive once
        ⟨true, .ofBytes recordedInit.toBytes none, ⟨Vector.replicate 32 53, 54, 180⟩, 180⟩).1
      (stampOf additive s.endpoint.tun recordedInit =
          some (sampleKey 7, Vector.replicate 12 2) ∧
        (sampleKey 7, Vector.replicate 12 2) ∈ s.accepted) ∧
      ((wgHandshakeInitProcess additive s.endpoint.tun recordedInit
          ⟨Vector.replicate 32 43, 44, 170⟩).2.1.getSession (.peer 0)).localIndex ≠
        (s.endpoint.tun.getSession (.peer 0)).localIndex ∧
      (s.endpoint.tun.peers.get 0).session.valid = true ∧
      (s.endpoint.tun.peers.get 0).session.receivingKey ∉
        [(twice.peers.get 0).session.receivingKey,
          (twice.peers.get 0).prevSession.receivingKey] := by
    decide +kernel
  obtain ⟨⟨hstamp, hearlier⟩, hindex, hvalid, hgone⟩ := hall
  refine ⟨⟨_, hstamp, _, hearlier, le_rfl⟩, ?_, hvalid, hgone⟩
  intro hharmless
  exact hindex (congrArg WgSession.localIndex (hharmless (.peer 0)))

end Samples

end WgNx.InitReplay
