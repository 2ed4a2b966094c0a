import Mathlib.Logic.Relation
import WgNx.EndpointMachine

/-!
The state of the links to the peers of the table.

Whether an entry can send and receive depends on a few flags that four functions
in two threads write: `connected` and the `valid` flags of its two sessions.
`LinkStep` says what can happen to one link, and every step of the machine is a
sequence of such steps on the list of all links.
-/

namespace WgNx.PeerLinks

open WgNx.ByteLayout
open WgNx.CryptoPrimitives
open WgNx.EndpointMachine
open WgNx.NoiseHandshake
open WgNx.OutputMachine
open WgNx.SessionCalls
open WgNx.TransportReceive
open WgNx.TransportSend
open WgNx.TunnelSetup
open WgNx.TunnelState
open WgNx.WireMessages
open Relation

structure Link where
  configured : Bool
  publicKey : Key
  ipRaw : UInt32
  connected : Bool
  valid : Bool
  prevValid : Bool

def linkOf (p : WgPeer) : Link where
  configured := p.configured
  publicKey := p.publicKey
  ipRaw := p.ipRaw
  connected := p.connected
  valid := p.session.valid
  prevValid := p.prevSession.valid

def links (tun : WgTunnel) : List Link := tun.peers.entries.map linkOf

inductive LinkStep (l : Link) : Link → Prop
  | installed (prevValid : Bool) :
      LinkStep l { l with connected := true, valid := true, prevValid := prevValid }
  | heard (hsession : l.valid = true ∨ l.prevValid = true) :
      LinkStep l { l with connected := true }
  | forgot : LinkStep l { l with prevValid := false }
  | wiped : LinkStep l { l with connected := false, valid := false, prevValid := false }

inductive LinksStep (ls : List Link) : List Link → Prop
  | added (publicKey : Key) (ipRaw : UInt32) :
      LinksStep ls (ls ++ [⟨true, publicKey, ipRaw, false, false, false⟩])
  | changed (i : Nat) (l l' : Link) (hi : ls[i]? = some l) (hstep : LinkStep l l') :
      LinksStep ls (ls.set i l')

/-- The links change step by step. -/
def Evolves (tun tun' : WgTunnel) : Prop := ReflTransGen LinksStep (links tun) (links tun')

section Table

variable {tun : WgTunnel} {i : Nat}

theorem getElem?_links (hi : i < tun.peers.count) :
    (links tun)[i]? = some (linkOf (tun.peers.get i)) := by
  have hlt : i < tun.peers.entries.length := hi
  simp [links, PeerTable.get, List.getD_eq_getElem?_getD, List.getElem?_eq_getElem hlt]

theorem links_modify (hi : i < tun.peers.count) (f : WgPeer → WgPeer) :
    links { tun with peers := tun.peers.modify i f } =
      (links tun).set i (linkOf (f (tun.peers.get i))) := by
  have hlt : i < tun.peers.entries.length := hi
  apply List.ext_getElem?
  intro j
  simp only [links, PeerTable.modify, List.getElem?_map, List.getElem?_modify,
    List.getElem?_set, List.length_map]
  rcases eq_or_ne i j with rfl | hne
  · simp [hlt, PeerTable.get, List.getD_eq_getElem?_getD]
  · simp [hne]

theorem evolves_of_eq {tun' : WgTunnel} (h : links tun' = links tun) : Evolves tun tun' := by
  unfold Evolves
  rw [h]

theorem evolves_of_peers {tun' : WgTunnel} (h : tun'.peers = tun.peers) : Evolves tun tun' :=
  evolves_of_eq (congrArg (fun t : PeerTable => t.entries.map linkOf) h)

theorem links_modify_same {f : WgPeer → WgPeer}
    (h : linkOf (f (tun.peers.get i)) = linkOf (tun.peers.get i)) :
    links { tun with peers := tun.peers.modify i f } = links tun := by
  apply List.ext_getElem?
  intro j
  simp only [links, PeerTable.modify, List.getElem?_map, List.getElem?_modify]
  split
  · rename_i hij
    subst hij
    cases hget : tun.peers.entries[i]? with
    | none => rfl
    | some p =>
        have hp : tun.peers.get i = p := by
          simp [PeerTable.get, List.getD_eq_getElem?_getD, hget]
        rw [hp] at h
        exact congrArg some h
  · simp

theorem evolves_modify (hi : i < tun.peers.count) {f : WgPeer → WgPeer}
    (h : LinkStep (linkOf (tun.peers.get i)) (linkOf (f (tun.peers.get i)))) :
    Evolves tun { tun with peers := tun.peers.modify i f } := by
  unfold Evolves
  rw [links_modify hi f]
  exact .single (.changed i _ _ (getElem?_links hi) h)

theorem evolves_of_sameSessions {tun' : WgTunnel} (h : tun'.SameSessions tun) :
    Evolves tun tun' :=
  evolves_of_peers h.peers

theorem Evolves.trans {tun₁ tun₂ : WgTunnel} (h : Evolves tun tun₁) (h' : Evolves tun₁ tun₂) :
    Evolves tun tun₂ :=
  ReflTransGen.trans h h'

theorem Evolves.from_sameSessions {tun₁ tun₂ : WgTunnel} (h : Evolves tun₁ tun₂)
    (hsame : tun₁.SameSessions tun) : Evolves tun tun₂ :=
  (evolves_of_sameSessions hsame).trans h

end Table

section Functions

variable {P : Primitives} {tun : WgTunnel}

theorem evolves_respondPeer {i : Nat} (hi : i < tun.peers.count) (msg : WgHandshakeInit)
    (response : WgHandshakeResponse) (keys : Hash × Hash) (d : RespDraws) :
    Evolves tun (respondPeer tun i msg response keys d).1 :=
  evolves_modify hi (.installed _)

theorem evolves_initCase {msg : WgHandshakeInit} {d : RespDraws} {err : WgError}
    {tun' : WgTunnel} {events : List Event} (h : InitCase P tun msg d (err, tun', events)) :
    Evolves tun tun' := by
  cases h with
  | rejected _ _ herr hsame => exact evolves_of_sameSessions hsame
  | legacy decryptedStatic response keys hfind => exact evolves_of_peers rfl
  | peer i response keys hi => exact evolves_respondPeer hi msg response keys d

theorem evolves_responseCase {msg : WgHandshakeResponse} {state : WgHandshakeState}
    {now : UInt64} {err : WgError} {tun' : WgTunnel} {events : List Event}
    (h : ResponseCase P tun msg state now err tun' events) :
    Evolves tun tun' := by
  cases h <;> exact evolves_of_peers rfl

/-- The receive loop completes a handshake only for an entry that is connected
already. -/
theorem evolves_peerResponseCase {i : Nat} (hi : i < tun.peers.count)
    (hconnected : (tun.peers.get i).connected = true) {now : UInt64}
    {out : WgTunnel × List Event} (h : PeerResponseCase tun i now out) :
    Evolves tun out.1 := by
  cases h with
  | refused => exact evolves_of_peers rfl
  | badTag remoteIndex pendingHs => exact evolves_of_eq (links_modify_same rfl)
  | installed keys remoteIndex sess hsess =>
      subst hsess
      apply evolves_modify hi
      have hlink : linkOf (tun.peers.get i) =
          { linkOf (tun.peers.get i) with connected := true } := by
        rw [← hconnected]
        rfl
      rw [hlink]
      simp only [linkOf, hconnected]
      exact .installed _

theorem evolves_recvResponse (buffer : Bytes) (received : Nat) (now : UInt64) :
    Evolves tun (recvResponse P tun buffer received now).1 := by
  unfold recvResponse
  split
  · dsimp only
    split <;> exact evolves_of_peers rfl
  · dsimp only
    split
    · exact evolves_of_peers rfl
    · rename_i i hfind
      have hfound := PeerTable.find_get hfind
      simp only [Bool.and_eq_true] at hfound
      exact evolves_peerResponseCase (PeerTable.find_lt hfind) hfound.1.1
        (wgHandshakeInitProcessResponse_cases P tun i _ now)

theorem evolves_wgSendKeepaliveToPeer (i : Nat) (now : UInt64) :
    Evolves tun (wgSendKeepaliveToPeer P tun i now).1 :=
  evolves_of_eq (links_modify_same rfl)

theorem evolves_followUp (now : UInt64) : Evolves tun (followUp P tun now).1 := by
  unfold followUp
  split
  · exact evolves_of_peers rfl
  · exact evolves_wgSendKeepaliveToPeer _ now

theorem links_modifySession {ref : SessionRef} {f : WgSession → WgSession}
    (hf : ∀ s, (f s).valid = s.valid) : links (tun.modifySession ref f) = links tun := by
  cases ref with
  | legacy => rfl
  | legacyPrev => rfl
  | peer i =>
      apply links_modify_same
      simp [linkOf, hf]
  | peerPrev i =>
      apply links_modify_same
      simp [linkOf, hf]

/-- A packet for one of its sessions marks an entry as connected. -/
theorem evolves_touchPeer {tun' : WgTunnel} (hlinks : links tun' = links tun)
    (receiverIndex : UInt32) {f : WgPeer → WgPeer}
    (hf : ∀ p, linkOf (f p) = { linkOf p with connected := true }) :
    Evolves tun (touchPeer tun' (wgFindPeerByLocalIndex tun receiverIndex) f) := by
  have hsame : Evolves tun tun' := evolves_of_eq hlinks
  cases hfind : wgFindPeerByLocalIndex tun receiverIndex with
  | none => exact hsame
  | some i =>
      have hi := PeerTable.find_lt hfind
      have hfound := PeerTable.find_get hfind
      have hcount : tun'.peers.count = tun.peers.count := by
        simpa [links, PeerTable.count] using congrArg List.length hlinks
      have hi' : i < tun'.peers.count := by
        rw [hcount]
        exact hi
      have hlink : linkOf (tun'.peers.get i) = linkOf (tun.peers.get i) := by
        have hget := congrArg (fun ls : List Link => ls[i]?) hlinks
        rw [getElem?_links hi', getElem?_links hi] at hget
        exact Option.some.inj hget
      have hsession : (linkOf (tun'.peers.get i)).valid = true ∨
          (linkOf (tun'.peers.get i)).prevValid = true := by
        rw [hlink]
        simp only [Bool.or_eq_true, Bool.and_eq_true] at hfound
        exact hfound.imp (fun h => h.1.2) (fun h => h.1.2)
      apply hsame.trans
      apply evolves_modify hi'
      rw [hf]
      exact .heard hsession

theorem evolves_emptyReceived (ref : SessionRef) (receiverIndex : UInt32) (now : UInt64) :
    Evolves tun (emptyReceived tun ref (wgFindPeerByLocalIndex tun receiverIndex) now) := by
  apply evolves_touchPeer
  · apply links_modifySession
    exact fun _ => rfl
  · exact fun _ => rfl

theorem evolves_wgUpdateEndpointFromRecv (tun : WgTunnel) :
    Evolves tun (wgUpdateEndpointFromRecv tun) := by
  apply evolves_of_peers
  unfold wgUpdateEndpointFromRecv
  split <;> rfl

theorem evolves_payloadReceived (ref : SessionRef) (receiverIndex : UInt32)
    (replay : ReplayCounter.WgReplayCounter) (counter now : UInt64) :
    Evolves tun (payloadReceived tun ref (wgFindPeerByLocalIndex tun receiverIndex) replay
      counter now) := by
  unfold payloadReceived
  apply Evolves.trans ?_ (evolves_wgUpdateEndpointFromRecv _)
  apply evolves_touchPeer
  · apply links_modifySession
    exact fun _ => rfl
  · exact fun _ => rfl

theorem evolves_setReplay (ref : SessionRef) (replay : ReplayCounter.WgReplayCounter) :
    Evolves tun (tun.modifySession ref fun s => { s with replay := replay }) := by
  apply evolves_of_eq
  apply links_modifySession
  exact fun _ => rfl

theorem evolves_dropExpired {ref : SessionRef} (href : tun.Holds ref) :
    Evolves tun (dropExpired tun ref) := by
  cases ref with
  | legacy => exact evolves_of_peers rfl
  | legacyPrev => exact evolves_of_peers rfl
  | peer i => exact evolves_of_peers rfl
  | peerPrev i => exact evolves_modify href .forgot

theorem evolves_transportCase {buffer : Bytes} {received : Nat} {slot : Bool} {now : UInt64}
    {out : WgTunnel × List Event} (h : TransportCase P tun buffer received slot now out) :
    Evolves tun out.1 := by
  cases h with
  | unknown hselect => exact evolves_of_peers rfl
  | expired ref hselect hexpired => exact evolves_dropExpired (holds_of_selectSession hselect)
  | empty ref hselect hfresh hlen => exact evolves_emptyReceived ref _ now
  | badTag ref hselect hfresh hlen hopen => exact evolves_of_peers rfl
  | replayed ref plaintext hselect hfresh hlen hopen hverdict =>
      exact evolves_setReplay ref _
  | accepted ref plaintext hselect hfresh hlen hopen hverdict =>
      exact evolves_payloadReceived ref _ _ _ now

theorem evolves_recvCookieReply (buffer : Bytes) (received : Nat) (now : UInt64) :
    Evolves tun (recvCookieReply P tun buffer received now).1 := by
  unfold recvCookieReply
  split
  · have hsame := sameSessions_wgProcessCookieReply P tun (WgCookieReply.ofBytes buffer) now
    exact evolves_of_peers hsame.peers
  · exact evolves_of_peers rfl

theorem evolves_recvInit (buffer : Bytes) (received : Nat) (d : RespDraws) (now : UInt64) :
    Evolves tun (recvInit P tun buffer received d now).1 := by
  have hcase := wgHandshakeInitProcess_cases P tun (WgHandshakeInit.ofBytes buffer) d
  have hprocessed := evolves_initCase hcase
  unfold recvInit
  dsimp only
  split
  · split
    · exact hprocessed.trans (evolves_followUp now)
    · exact hprocessed
  · exact evolves_of_peers rfl

theorem evolves_recvDatagram (buffer : Bytes) (received : Nat) (slot : Bool) (d : RespDraws)
    (now : UInt64) : Evolves tun (recvDatagram P tun buffer received slot d now).1 := by
  have hcase := recvDatagram_cases P tun buffer received slot d now
  generalize recvDatagram P tun buffer received slot d now = out at hcase ⊢
  cases hcase with
  | dropped hinit => exact evolves_of_peers rfl
  | transport htype =>
      exact evolves_transportCase (recvTransport_cases P tun buffer received slot now)
  | response htype => exact evolves_recvResponse buffer received now
  | cookie htype => exact evolves_recvCookieReply buffer received now
  | init htype hlong => exact evolves_recvInit buffer received d now

theorem evolves_recvThreadIteration (inp : RecvInput) :
    Evolves tun (recvThreadIteration P tun inp).1 := by
  unfold recvThreadIteration
  split
  · exact evolves_of_peers rfl
  · exact evolves_of_peers rfl
  · rename_i buffer received src hresult
    exact (evolves_recvDatagram buffer received inp.slot inp.draws inp.now).from_sameSessions
      (sameSessions_noteSource tun src)

theorem evolves_wgSendToPeer (i : Nat) (data : Bytes) (now : UInt64) (sent : Bool) :
    Evolves tun (wgSendToPeer P tun i data now sent).2.1 := by
  unfold wgSendToPeer
  dsimp only
  split
  · exact evolves_of_peers rfl
  · split
    · exact evolves_of_peers rfl
    · exact evolves_of_eq (links_modify_same rfl)

theorem evolves_wgSend (data : Bytes) (now : UInt64) (sent : Bool) :
    Evolves tun (wgSend P tun data now sent).2.1 := by
  apply evolves_of_peers
  unfold wgSend
  split
  · rfl
  · split
    · rfl
    · split <;> rfl

theorem evolves_wgNetifOutput (data : Bytes) (ipaddr : UInt32) (d : InitDraws) (now : UInt64)
    (sent : Bool) : Evolves tun (wgNetifOutput P tun data ipaddr d now sent).2.1 := by
  unfold wgNetifOutput
  dsimp only
  split
  · exact evolves_of_peers rfl
  · split
    · exact evolves_of_peers rfl
    · rename_i i hfind
      split
      · have hbuilt : Evolves tun (wgHandshakeInitPeer P tun i d).1 :=
          evolves_of_eq (links_modify_same rfl)
        exact hbuilt.trans (evolves_of_eq (links_modify_same rfl))
      · exact evolves_wgSendToPeer i _ now sent

theorem evolves_wgRecv (result : SocketResult) (len : Nat) (now : UInt64) :
    Evolves tun (wgRecv P tun result len now).2.1 := by
  have hnote := fun src => (sameSessions_noteSource tun src).peers
  apply evolves_of_peers
  unfold wgRecv
  split
  · rfl
  · split
    · rfl
    · rfl
    · rename_i buffer received src
      dsimp only
      split
      · exact hnote src
      · split
        · exact hnote src
        · split
          · exact hnote src
          · split
            · exact hnote src
            · unfold recvPayload
              split
              · exact hnote src
              · split
                · exact hnote src
                · dsimp only
                  split <;> exact hnote src

theorem evolves_keepalivePeer {i : Nat} (hi : i < tun.peers.count) (now clock : UInt64) :
    Evolves tun (keepalivePeer P tun i now clock).1 := by
  unfold keepalivePeer
  dsimp only
  split
  · exact evolves_of_peers rfl
  · split
    · exact evolves_modify hi .wiped
    · split
      · exact evolves_of_peers rfl
      · split
        · exact evolves_wgSendKeepaliveToPeer i clock
        · exact evolves_of_peers rfl

theorem evolves_keepalivePeers (now : UInt64) (clock : Nat → UInt64) (indices : List Nat)
    (h : ∀ i ∈ indices, i < tun.peers.count) :
    Evolves tun (keepalivePeers P now clock indices tun).1 := by
  induction indices generalizing tun with
  | nil => exact evolves_of_peers rfl
  | cons i rest ih =>
      have hturn : Evolves tun (keepalivePeer P tun i now (clock i)).1 :=
        evolves_keepalivePeer (h i (List.mem_cons_self ..)) now (clock i)
      apply hturn.trans
      apply ih
      intro j hj
      rw [count_keepalivePeer]
      exact h j (List.mem_cons_of_mem _ hj)

theorem evolves_keepalivePass (now : UInt64) (clock : Nat → UInt64) :
    Evolves tun (keepalivePass P tun now clock).1 := by
  have hpeers : Evolves tun (keepalivePeers P now clock (List.range tun.peers.count) tun).1 :=
    evolves_keepalivePeers now clock _ fun i hi => List.mem_range.mp hi
  apply hpeers.trans
  unfold keepalivePass keepaliveLegacy
  dsimp only
  split <;> exact evolves_of_peers rfl

theorem evolves_wgAddPeer (publicKey : Key) (relayHash : ByteVec 36) (ipRaw : UInt32) :
    Evolves tun (wgAddPeer tun publicKey relayHash ipRaw) := by
  unfold Evolves links wgAddPeer PeerTable.push
  dsimp only
  split
  · rw [List.map_append]
    exact .single (.added publicKey ipRaw)
  · exact .refl

end Functions

section Machine

variable {P : Primitives}

theorem evolves_stepTunnel (tun : WgTunnel) (a : Action) :
    Evolves tun (stepTunnel P tun a).1 := by
  have hidle : Evolves tun tun := evolves_of_peers rfl
  cases a with
  | addPeer publicKey relayHash ipRaw => exact evolves_wgAddPeer publicKey relayHash ipRaw
  | setRecvCallback cb user => exact evolves_of_peers rfl
  | start recvThread keepaliveThread =>
      apply evolves_of_peers
      simp only [stepTunnel, wgStart]
      split
      · rfl
      · split
        · rfl
        · split <;> rfl
  | stop => exact evolves_of_peers rfl
  | recv inp =>
      simp only [stepTunnel]
      split
      · exact evolves_recvThreadIteration inp
      · exact hidle
  | keepalive now clock =>
      simp only [stepTunnel]
      split
      · exact evolves_keepalivePass now clock
      · exact hidle
  | send data now sent => exact evolves_wgSend data now sent
  | sendToPeer i data now sent => exact evolves_wgSendToPeer i data now sent
  | wgRecv result len now => exact evolves_wgRecv result len now
  | output data ipaddr d now sent => exact evolves_wgNetifOutput data ipaddr d now sent
  | _ => exact hidle

theorem evolves_connectEnd (tun : WgTunnel) (state : WgHandshakeState) (result : SocketResult)
    (resp : RespDraws) (now : UInt64) :
    Evolves tun (connectEnd P tun state result resp now).2.1 := by
  have hcase := connectEnd_cases P tun state result resp now
  generalize connectEnd P tun state result resp now = out at hcase ⊢
  have hnote := sameSessions_noteSource tun (SocketResult.src result)
  cases hcase with
  | retried err tun' herr hsame hinit =>
      exact (evolves_of_sameSessions hsame).from_sameSessions hnote
  | passive msg hcookie hinit =>
      have hcase := wgHandshakeInitProcess_cases P (noteSource tun (SocketResult.src result))
        msg resp
      exact (evolves_initCase hcase).from_sameSessions hnote
  | response msg err tun' events hcase hinit =>
      exact (evolves_responseCase hcase).from_sameSessions hnote

theorem evolves_rekeyEnd (tun : WgTunnel) (state : WgHandshakeState) (now : UInt64) :
    Evolves tun (rekeyEnd P tun state now).2.1 := by
  unfold rekeyEnd
  split
  · exact evolves_of_peers rfl
  · split
    · exact evolves_of_peers rfl
    · split
      · exact evolves_of_peers rfl
      · exact evolves_responseCase (wgHandshakeResponse_cases P tun _ state now)

theorem evolves_stepConnect (s : Endpoint) (a : Action) :
    Evolves s.tun (stepConnect P s a).1.tun := by
  have hidle : Evolves s.tun s.tun := evolves_of_peers rfl
  cases a with
  | callConnect fd =>
      have hopen : (openSocket s.tun fd).peers = s.tun.peers := by
        unfold openSocket
        split <;> rfl
      simp only [stepConnect]
      split
      · split <;> exact evolves_of_peers hopen
      · exact hidle
  | connectBegin d sent =>
      simp only [stepConnect]
      split
      · split <;> exact evolves_of_peers rfl
      · exact hidle
  | connectEnd result resp now =>
      simp only [stepConnect]
      split
      · exact evolves_connectEnd s.tun _ result resp now
      · exact hidle
  | connectFinish now =>
      simp only [stepConnect]
      split
      · apply evolves_of_peers
        simp only [connectFinish]
        split <;> rfl
      · exact hidle
  | _ => exact hidle

theorem evolves_stepRekey (s : Endpoint) (a : Action) :
    Evolves s.tun (stepRekey P s a).1.tun := by
  have hidle : Evolves s.tun s.tun := evolves_of_peers rfl
  cases a with
  | callRekey =>
      simp only [stepRekey]
      split
      · exact evolves_of_peers rfl
      · exact hidle
  | rekeyBegin d sent =>
      simp only [stepRekey]
      split
      · split <;> exact evolves_of_peers rfl
      · exact hidle
  | rekeyEnd now =>
      simp only [stepRekey]
      split
      · exact evolves_rekeyEnd s.tun _ now
      · exact hidle
  | rekeyFinish now =>
      simp only [stepRekey]
      split
      · apply evolves_of_peers
        simp only [rekeyFinish]
        split <;> rfl
      · exact hidle
  | _ => exact hidle

/-- Every step of the machine is a sequence of link steps. -/
theorem evolves_step (s : Endpoint) (a : Action) : Evolves s.tun (step P s a).1.tun := by
  cases a with
  | callConnect => exact evolves_stepConnect s _
  | connectBegin => exact evolves_stepConnect s _
  | connectEnd => exact evolves_stepConnect s _
  | connectFinish => exact evolves_stepConnect s _
  | callRekey => exact evolves_stepRekey s _
  | rekeyBegin => exact evolves_stepRekey s _
  | rekeyEnd => exact evolves_stepRekey s _
  | rekeyFinish => exact evolves_stepRekey s _
  | _ => exact evolves_stepTunnel s.tun _

end Machine

/-- An entry is connected exactly if it has a valid session, and it has one if it
has a previous one. -/
structure Link.Linked (l : Link) : Prop where
  connected : l.connected = l.valid
  prevValid : l.prevValid = true → l.valid = true

theorem linked_linkStep {l l' : Link} (h : l.Linked) (hstep : LinkStep l l') : l'.Linked := by
  cases hstep with
  | installed prevValid => exact ⟨rfl, fun _ => rfl⟩
  | heard hsession =>
      have hvalid : l.valid = true := hsession.elim id h.prevValid
      exact ⟨hvalid.symm, h.prevValid⟩
  | forgot => exact ⟨h.connected, fun hprev => Bool.noConfusion hprev⟩
  | wiped => exact ⟨rfl, fun hprev => Bool.noConfusion hprev⟩

theorem linked_linksStep {ls ls' : List Link} (h : ∀ l ∈ ls, l.Linked)
    (hstep : LinksStep ls ls') : ∀ l ∈ ls', l.Linked := by
  cases hstep with
  | added publicKey ipRaw =>
      intro l hl
      rcases List.mem_append.mp hl with hold | hnew
      · exact h l hold
      · rw [List.mem_singleton.mp hnew]
        exact ⟨rfl, fun hprev => Bool.noConfusion hprev⟩
  | changed i l₀ l₁ hi hstep =>
      intro l hl
      rcases List.mem_or_eq_of_mem_set hl with hold | rfl
      · exact h l hold
      · exact linked_linkStep (h l₀ (List.mem_of_getElem? hi)) hstep

/-- All links of a tunnel are linked. -/
def Linked (tun : WgTunnel) : Prop := ∀ l ∈ links tun, l.Linked

theorem Linked.evolves {tun tun' : WgTunnel} (h : Linked tun) (hevolves : Evolves tun tun') :
    Linked tun' := by
  unfold Evolves Linked at *
  generalize links tun' = ls at hevolves ⊢
  induction hevolves with
  | refl => exact h
  | tail _ hlast ih => exact linked_linksStep ih hlast

theorem Linked.get {tun : WgTunnel} (h : Linked tun) {i : Nat} (hi : i < tun.peers.count) :
    (linkOf (tun.peers.get i)).Linked :=
  h _ (List.mem_of_getElem? (getElem?_links hi))

theorem linked_initial (P : Primitives) (config : WgConfig) (endpoint : SockAddr) :
    Linked (initial P config endpoint).tun := by
  intro l hl
  cases hl

section Identity

/-- The part of an entry that is fixed when it is added. -/
def Link.identity (l : Link) : Bool × Key × UInt32 := (l.configured, l.publicKey, l.ipRaw)

theorem identity_linkStep {l l' : Link} (h : LinkStep l l') : l'.identity = l.identity := by
  cases h <;> rfl

theorem identity_linksStep {ls ls' : List Link} (h : LinksStep ls ls') {i : Nat} {l : Link}
    (hi : ls[i]? = some l) : ∃ l', ls'[i]? = some l' ∧ l'.identity = l.identity := by
  cases h with
  | added publicKey ipRaw =>
      have hlt := (List.getElem?_eq_some_iff.mp hi).1
      exact ⟨l, by rw [List.getElem?_append_left hlt, hi], rfl⟩
  | changed j l₀ l₁ hj hstep =>
      rcases eq_or_ne j i with rfl | hne
      · have hlt := (List.getElem?_eq_some_iff.mp hi).1
        rw [hj] at hi
        cases hi
        exact ⟨l₁, by simp [hlt], identity_linkStep hstep⟩
      · exact ⟨l, by rw [List.getElem?_set_ne hne, hi], rfl⟩

/-- Entries stay where they are, with the key and the address they were added
with. -/
theorem Evolves.identity {tun tun' : WgTunnel} (h : Evolves tun tun') {i : Nat}
    (hi : i < tun.peers.count) :
    i < tun'.peers.count ∧
      (linkOf (tun'.peers.get i)).identity = (linkOf (tun.peers.get i)).identity := by
  have hfinal : ∃ l', (links tun')[i]? = some l' ∧
      l'.identity = (linkOf (tun.peers.get i)).identity := by
    unfold Evolves at h
    generalize links tun' = ls at h ⊢
    induction h with
    | refl => exact ⟨_, getElem?_links hi, rfl⟩
    | tail _ hlast ih =>
        obtain ⟨l₁, hl₁, hid₁⟩ := ih
        obtain ⟨l₂, hl₂, hid₂⟩ := identity_linksStep hlast hl₁
        exact ⟨l₂, hl₂, hid₂.trans hid₁⟩
  obtain ⟨l', hl', hid⟩ := hfinal
  have hlt : i < tun'.peers.count := by
    have hlen := (List.getElem?_eq_some_iff.mp hl').1
    simpa [links, PeerTable.count] using hlen
  rw [getElem?_links hlt] at hl'
  cases hl'
  exact ⟨hlt, hid⟩

/-- An address keeps belonging to the entry that was found for it. -/
theorem Evolves.wgFindPeerByIp {tun tun' : WgTunnel} (h : Evolves tun tun') {ipRaw : UInt32}
    {i : Nat} (hfind : TunnelSetup.wgFindPeerByIp tun ipRaw = some i) :
    TunnelSetup.wgFindPeerByIp tun' ipRaw = some i := by
  have hsame : ∀ j, j < tun.peers.count →
      ((tun'.peers.get j).configured && (tun'.peers.get j).ipRaw == ipRaw) =
        ((tun.peers.get j).configured && (tun.peers.get j).ipRaw == ipRaw) := by
    intro j hj
    obtain ⟨-, hid⟩ := h.identity hj
    simp only [Link.identity, linkOf, Prod.mk.injEq] at hid
    rw [hid.1, hid.2.2]
  obtain ⟨hi, hfound, hfirst⟩ := PeerTable.find_eq_some_iff.mp hfind
  refine PeerTable.find_eq_some_iff.mpr ⟨(h.identity hi).1, ?_, ?_⟩
  · rw [hsame i hi]
    exact hfound
  · intro j hji
    rw [hsame j (hji.trans hi)]
    exact hfirst j hji

end Identity

end WgNx.PeerLinks
