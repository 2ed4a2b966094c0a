import WgNx.TunnelSetup

/-!
The handshake functions of `wg_noise.c`.

The C code writes out every hash, KDF and Diffie-Hellman step three times: in
the two initiators, in the responder and in the two response readers.  Each step
is a token here, so that what the parties do in a different order, or with a
different secret, shows in the definitions.  Randomness, the wall clock and the
monotonic clock are arguments (`InitDraws`, `RespDraws`).
-/

namespace WgNx.NoiseHandshake

open WgNx.ByteLayout
open WgNx.CryptoPrimitives
open WgNx.TunnelSetup
open WgNx.TunnelState
open WgNx.WireMessages

def wgConstruction : Bytes := "Noise_IKpsk2_25519_ChaChaPoly_BLAKE2s".toUTF8.toList
def wgIdentifier : Bytes := "WireGuard v1 zx2c4 Jason@zx2c4.com".toUTF8.toList
def wgLabelMac1 : Bytes := "mac1----".toUTF8.toList
def wgLabelCookie : Bytes := "cookie--".toUTF8.toList

/-- What one call of an initiator reads from its environment. -/
structure InitDraws where
  ephemeral : Key
  index : UInt32
  timestamp : Timestamp
  now : UInt64
  deriving DecidableEq

/-- What one accepted INIT makes the responder read from its environment. -/
structure RespDraws where
  ephemeral : Key
  index : UInt32
  now : UInt64
  deriving DecidableEq

def clampPrivate (secret : Key) : Key :=
  let secret := secret.set 0 (secret[0] &&& 248)
  secret.set 31 ((secret[31] &&& 127) ||| 64)

section Transcript

variable (P : Primitives)

def wgMixHash (state : WgHandshakeState) (data : Bytes) : WgHandshakeState :=
  { state with hash := P.wgHash2 state.hash.toList data }

def wgHandshakeInitState (peerPublic : Key) : WgHandshakeState :=
  let chainingKey := P.wgHash wgConstruction
  let hash := P.wgHash2 chainingKey.toList wgIdentifier
  wgMixHash P ⟨hash, chainingKey, zeroKey⟩ peerPublic.toList

def wgComputeMac1 (peerPublic : Key) (msg : Bytes) : Mac :=
  P.wgMac (P.wgHash2 wgLabelMac1 peerPublic.toList).toList msg

/-- `wg_mix_hash` then `wg_kdf1` on an ephemeral public key. -/
def tokenE (state : WgHandshakeState) (ephemeral : Key) : WgHandshakeState :=
  let state := wgMixHash P state ephemeral.toList
  { state with chainingKey := P.wgKdf1 state.chainingKey ephemeral.toList }

/-- `wg_kdf2` on a Diffie-Hellman result, which also yields an encryption key. -/
def tokenDhKey (state : WgHandshakeState) (dh : Key) : WgHandshakeState × Key :=
  let out := P.wgKdf2 state.chainingKey dh.toList
  ({ state with chainingKey := out.1 }, out.2)

/-- `wg_kdf1` on a Diffie-Hellman result. -/
def tokenDh (state : WgHandshakeState) (dh : Key) : WgHandshakeState :=
  { state with chainingKey := P.wgKdf1 state.chainingKey dh.toList }

/-- `wg_kdf3` on the preshared key, then `wg_mix_hash` of its second output. -/
def tokenPsk (state : WgHandshakeState) (psk : Key) : WgHandshakeState × Key :=
  let out := P.wgKdf3 state.chainingKey psk.toList
  (wgMixHash P { state with chainingKey := out.1 } out.2.1.toList, out.2.2)

/-- The message and transcript that both initiators build towards `peerPublic`;
`mac2` is filled in by the caller. -/
def buildInit (staticPrivate staticPublic peerPublic : Key) (d : InitDraws) :
    WgHandshakeInit × WgHandshakeState :=
  let secret := clampPrivate d.ephemeral
  let ephemeral := P.cryptoX25519PublicKey secret
  let state := { wgHandshakeInitState P peerPublic with ephemeralPrivate := secret }
  let state := tokenE P state ephemeral
  let (state, key) := tokenDhKey P state (P.cryptoX25519 secret peerPublic)
  let encryptedStatic := P.wgAeadEncrypt key 0 staticPublic state.hash.toList
  let state := wgMixHash P state encryptedStatic.toList
  let (state, key) := tokenDhKey P state (P.cryptoX25519 staticPrivate peerPublic)
  let encryptedTimestamp := P.wgAeadEncrypt key 0 d.timestamp state.hash.toList
  let state := wgMixHash P state encryptedTimestamp.toList
  let msg : WgHandshakeInit :=
    { type := wgMsgHandshakeInit
      reserved := Vector.replicate 3 0
      senderIndex := d.index
      ephemeral := ephemeral
      encryptedStatic := encryptedStatic
      encryptedTimestamp := encryptedTimestamp
      mac1 := zeroMac
      mac2 := zeroMac }
  ({ msg with
      mac1 := wgComputeMac1 P peerPublic (msg.toBytes.take (sizeofInit - 2 * 16)) },
    state)

/-- The responder's reading of an INIT: the transcript, the initiator's static key
and the timestamp, or nothing if one of the two tags is wrong. -/
def readInit (staticPrivate staticPublic : Key) (msg : WgHandshakeInit) :
    Option (WgHandshakeState × Key × Timestamp) :=
  let state := tokenE P (wgHandshakeInitState P staticPublic) msg.ephemeral
  let (state, key) :=
    tokenDhKey P state (P.cryptoX25519 staticPrivate msg.ephemeral)
  match P.wgAeadDecrypt (n := 32) key 0 msg.encryptedStatic state.hash.toList with
  | none => none
  | some decryptedStatic =>
      let state := wgMixHash P state msg.encryptedStatic.toList
      let (state, key) :=
        tokenDhKey P state (P.cryptoX25519 staticPrivate decryptedStatic)
      match P.wgAeadDecrypt (n := 12) key 0 msg.encryptedTimestamp
          state.hash.toList with
      | none => none
      | some decryptedTimestamp =>
          some (wgMixHash P state msg.encryptedTimestamp.toList, decryptedStatic,
            decryptedTimestamp)

/-- What the responder goes on with; the timestamp is not looked at. -/
def openInit (staticPrivate staticPublic : Key) (msg : WgHandshakeInit) :
    Option (WgHandshakeState × Key) :=
  (readInit P staticPrivate staticPublic msg).map fun r => (r.1, r.2.1)

/-- The transcript of a RESPONSE up to its empty payload, shared by the writer
and the readers: ephemeral, `ee`, `se` and preshared key. -/
def responseTranscript (state : WgHandshakeState) (ephemeral dhEe dhSe psk : Key) :
    WgHandshakeState × Key :=
  tokenPsk P (tokenDh P (tokenDh P (tokenE P state ephemeral) dhEe) dhSe) psk

/-- The RESPONSE to `msg` and the final chaining key of the responder. -/
def buildResponse (psk decryptedStatic : Key) (msg : WgHandshakeInit)
    (state : WgHandshakeState) (d : RespDraws) : WgHandshakeResponse × Hash :=
  let secret := clampPrivate d.ephemeral
  let ephemeral := P.cryptoX25519PublicKey secret
  let (state, key) := responseTranscript P state ephemeral
    (P.cryptoX25519 secret msg.ephemeral)
    (P.cryptoX25519 secret decryptedStatic) psk
  let response : WgHandshakeResponse :=
    { type := wgMsgHandshakeResponse
      reserved := Vector.replicate 3 0
      senderIndex := d.index
      receiverIndex := msg.senderIndex
      ephemeral := ephemeral
      encryptedNothing :=
        P.wgAeadEncrypt (n := 0) key 0 (Vector.replicate 0 0) state.hash.toList
      mac1 := zeroMac
      mac2 := zeroMac }
  ({ response with
      mac1 := wgComputeMac1 P decryptedStatic
        (response.toBytes.take (sizeofResponse - 2 * 16)) },
    state.chainingKey)

/-- A reader's transcript of a RESPONSE and the verdict on its tag.  The state
is advanced whether or not the tag verifies. -/
def readResponse (staticPrivate psk : Key) (msg : WgHandshakeResponse)
    (state : WgHandshakeState) : WgHandshakeState × Bool :=
  let (state, key) := responseTranscript P state msg.ephemeral
    (P.cryptoX25519 state.ephemeralPrivate msg.ephemeral)
    (P.cryptoX25519 staticPrivate msg.ephemeral) psk
  match P.wgAeadDecrypt (n := 0) key 0 msg.encryptedNothing state.hash.toList with
  | none => (state, false)
  | some _ => (wgMixHash P state msg.encryptedNothing.toList, true)

end Transcript

section Initiator

variable (P : Primitives)

def cookieFresh (tun : WgTunnel) (now : UInt64) : Bool :=
  tun.hasCookie && decide (now - tun.cookieTimestamp < wgCookieSecretMaxAgeNs)

def initMac2 (tun : WgTunnel) (now : UInt64) (msg : WgHandshakeInit) : Mac :=
  if cookieFresh tun now then
    P.wgMac tun.cookie.toList (msg.toBytes.take (sizeofInit - 16))
  else zeroMac

def wgHandshakeInit (tun : WgTunnel) (d : InitDraws) :
    WgTunnel × WgHandshakeInit × WgHandshakeState :=
  let built := buildInit P tun.staticPrivate tun.staticPublic tun.peerPublic d
  let cookieExpired := tun.hasCookie && !cookieFresh tun d.now
  let session :=
    { tun.session with
      oldLocalIndex := tun.session.localIndex
      localIndex := d.index
      rekeyInProgress := true }
  ({ tun with
      session := session
      lastMac1 := built.1.mac1
      hasCookie := if cookieExpired then false else tun.hasCookie
      cookie := if cookieExpired then zeroMac else tun.cookie },
    { built.1 with mac2 := initMac2 P tun d.now built.1 },
    built.2)

/-- The multi-peer initiator.  It leaves an expired cookie in place. -/
def wgHandshakeInitPeer (tun : WgTunnel) (i : Nat) (d : InitDraws) :
    WgTunnel × WgHandshakeInit × WgHandshakeState :=
  let built := buildInit P tun.staticPrivate tun.staticPublic
    (tun.peers.get i).publicKey d
  ({ tun with
      peers := tun.peers.modify i fun p =>
        { p with
          session :=
            { p.session with
              oldLocalIndex := p.session.localIndex
              localIndex := d.index }
          lastMac1 := built.1.mac1 } },
    { built.1 with mac2 := initMac2 P tun d.now built.1 },
    built.2)

end Initiator

section Responder

variable (P : Primitives)

/-- The session a responder installs; the KDF outputs are swapped. -/
def respondedSession (sess : WgSession) (keys : Hash × Hash) (d : RespDraws)
    (remoteIndex : UInt32) : WgSession :=
  { sess with
    receivingKey := keys.1
    sendingKey := keys.2
    sendingCounter := 0
    receivingCounter := 0
    localIndex := d.index
    remoteIndex := remoteIndex
    lastHandshake := d.now
    valid := true
    rekeyInProgress := false
    replay := ReplayCounter.zeroed }

/-- Install the outcome of an accepted INIT from a key outside the table. -/
def respondLegacy (tun : WgTunnel) (msg : WgHandshakeInit) (decryptedStatic : Key)
    (response : WgHandshakeResponse) (keys : Hash × Hash) (d : RespDraws) :
    WgTunnel × List Event :=
  let session := respondedSession tun.session keys d msg.senderIndex
  ({ tun with
      peerPublic := decryptedStatic
      lastMac1 := response.mac1
      prevSession := if tun.session.valid then tun.session else tun.prevSession
      session := session },
    [.drawn d.index, .established .legacy session,
      .sent .endpoint response.toBytes])

/-- Install the outcome of an accepted INIT from table entry `i`. -/
def respondPeer (tun : WgTunnel) (i : Nat) (msg : WgHandshakeInit)
    (response : WgHandshakeResponse) (keys : Hash × Hash) (d : RespDraws) :
    WgTunnel × List Event :=
  let peer := tun.peers.get i
  let session := respondedSession peer.session keys d msg.senderIndex
  ({ tun with
      lastMac1 := response.mac1
      peers := tun.peers.modify i fun p =>
        { p with
          prevSession := if p.session.valid then p.session else p.prevSession
          session := session
          connected := true
          lastMac1 := response.mac1 } },
    [.drawn d.index, .established (.peer i) session,
      .sent (.relay peer.relayHash) response.toBytes])

def mac1Ok (tun : WgTunnel) (msg : WgHandshakeInit) : Bool :=
  wgComputeMac1 P tun.staticPublic (msg.toBytes.take (sizeofInit - 2 * 16)) == msg.mac1

def wgHandshakeInitProcess (tun : WgTunnel) (msg : WgHandshakeInit) (d : RespDraws) :
    WgError × WgTunnel × List Event :=
  if msg.type ≠ wgMsgHandshakeInit then (.handshake, tun, [])
  else if !mac1Ok P tun msg then (.handshake, tun, [])
  else
    let tun := { tun with lastMac1 := msg.mac1 }
    match openInit P tun.staticPrivate tun.staticPublic msg with
    | none => (.decrypt, tun, [])
    | some (state, decryptedStatic) =>
        let built := buildResponse P tun.psk decryptedStatic msg state d
        let keys := P.wgKdf2 built.2 []
        match wgFindPeerByPublicKey tun decryptedStatic with
        | none => (.ok, respondLegacy tun msg decryptedStatic built.1 keys d)
        | some i => (.ok, respondPeer tun i msg built.1 keys d)

/-- The static key of the sender of an INIT that `wg_handshake_init_process`
accepts. -/
def acceptedKey (tun : WgTunnel) (msg : WgHandshakeInit) : Option Key :=
  if msg.type = wgMsgHandshakeInit ∧ mac1Ok P tun msg = true then
    (openInit P tun.staticPrivate tun.staticPublic msg).map Prod.snd
  else none

/-- Everything `wg_handshake_init_process` can do with an INIT. -/
inductive InitCase (tun : WgTunnel) (msg : WgHandshakeInit) (d : RespDraws) :
    WgError × WgTunnel × List Event → Prop
  | rejected (err : WgError) (tun' : WgTunnel) (herr : err ≠ .ok)
      (hsame : tun'.SameSessions tun) (hnone : acceptedKey P tun msg = none) :
      InitCase tun msg d (err, tun', [])
  | legacy (decryptedStatic : Key) (response : WgHandshakeResponse) (keys : Hash × Hash)
      (hfind : wgFindPeerByPublicKey tun decryptedStatic = none)
      (hkey : acceptedKey P tun msg = some decryptedStatic) :
      InitCase tun msg d
        (.ok, respondLegacy { tun with lastMac1 := msg.mac1 } msg decryptedStatic response
          keys d)
  | peer (i : Nat) (response : WgHandshakeResponse) (keys : Hash × Hash)
      (hi : i < tun.peers.count) (decryptedStatic : Key)
      (hfind : wgFindPeerByPublicKey tun decryptedStatic = some i)
      (hkey : acceptedKey P tun msg = some decryptedStatic) :
      InitCase tun msg d
        (.ok, respondPeer { tun with lastMac1 := msg.mac1 } i msg response keys d)

theorem wgHandshakeInitProcess_cases (tun : WgTunnel) (msg : WgHandshakeInit)
    (d : RespDraws) : InitCase P tun msg d (wgHandshakeInitProcess P tun msg d) := by
  unfold wgHandshakeInitProcess
  split
  · rename_i htype
    exact .rejected _ _ (by decide) ⟨rfl, rfl, rfl⟩ (if_neg fun h => htype h.1)
  · rename_i htype
    split
    · rename_i hmac
      refine .rejected _ _ (by decide) ⟨rfl, rfl, rfl⟩ (if_neg fun h => ?_)
      simp [h.2] at hmac
    · rename_i hmac
      have hkey : acceptedKey P tun msg =
          (openInit P tun.staticPrivate tun.staticPublic msg).map Prod.snd :=
        if_pos ⟨not_not.mp htype, by simpa using hmac⟩
      dsimp only
      split
      · rename_i hopen
        exact .rejected _ _ (by decide) ⟨rfl, rfl, rfl⟩ (by rw [hkey, hopen]; rfl)
      · rename_i state decryptedStatic hopen
        rw [hopen] at hkey
        split
        · rename_i hfind
          exact .legacy _ _ _ hfind hkey
        · rename_i hfind
          exact .peer _ _ _ (PeerTable.find_lt hfind) _ hfind hkey

end Responder

section ResponseReaders

variable (P : Primitives)

/-- The keys, counters and flags a completed handshake gives an initiator. -/
def completedSession (sess : WgSession) (keys : Hash × Hash) (now : UInt64) :
    WgSession :=
  { sess with
    sendingKey := keys.1
    receivingKey := keys.2
    sendingCounter := 0
    receivingCounter := 0
    lastHandshake := now
    valid := true
    replay := ReplayCounter.zeroed }

def wgHandshakeResponse (tun : WgTunnel) (msg : WgHandshakeResponse)
    (state : WgHandshakeState) (now : UInt64) :
    WgError × WgTunnel × WgHandshakeState × List Event :=
  if msg.type ≠ wgMsgHandshakeResponse then (.handshake, tun, state, [])
  else if msg.receiverIndex ≠ tun.session.localIndex then (.handshake, tun, state, [])
  else
    let session := { tun.session with remoteIndex := msg.senderIndex }
    let read := readResponse P tun.staticPrivate tun.psk msg state
    if !read.2 then (.decrypt, { tun with session := session }, read.1, [])
    else
      let keys := P.wgKdf2 read.1.chainingKey []
      let installed :=
        { completedSession session keys now with rekeyInProgress := false }
      let prevSession :=
        if session.valid then { session with localIndex := session.oldLocalIndex }
        else tun.prevSession
      (.ok, { tun with session := installed, prevSession := prevSession }, .zeroed,
        [.established .legacy installed])

/-- The RESPONSE is addressed to the session and its tag verifies. -/
def responseOk (tun : WgTunnel) (msg : WgHandshakeResponse) (state : WgHandshakeState) : Bool :=
  msg.type == wgMsgHandshakeResponse && msg.receiverIndex == tun.session.localIndex &&
    (readResponse P tun.staticPrivate tun.psk msg state).2

/-- Everything `wg_handshake_response` can do to the tunnel: refuse the message,
take over its sender index and then refuse it, or install a session. -/
inductive ResponseCase (tun : WgTunnel) (msg : WgHandshakeResponse) (state : WgHandshakeState)
    (now : UInt64) : WgError → WgTunnel → List Event → Prop
  | refused (hbad : responseOk P tun msg state = false) :
      ResponseCase tun msg state now .handshake tun []
  | badTag (hindex : msg.receiverIndex = tun.session.localIndex)
      (hbad : responseOk P tun msg state = false) :
      ResponseCase tun msg state now .decrypt
        { tun with session := { tun.session with remoteIndex := msg.senderIndex } } []
  | installed (keys : Hash × Hash) (sess : WgSession)
      (hindex : msg.receiverIndex = tun.session.localIndex)
      (hsess : sess =
        { completedSession { tun.session with remoteIndex := msg.senderIndex } keys now with
          rekeyInProgress := false })
      (hok : responseOk P tun msg state = true) :
      ResponseCase tun msg state now .ok
        { tun with
          session := sess
          prevSession :=
            if tun.session.valid then
              { tun.session with
                remoteIndex := msg.senderIndex
                localIndex := tun.session.oldLocalIndex }
            else tun.prevSession }
        [.established .legacy sess]

theorem wgHandshakeResponse_cases (tun : WgTunnel) (msg : WgHandshakeResponse)
    (state : WgHandshakeState) (now : UInt64) :
    let out := wgHandshakeResponse P tun msg state now
    ResponseCase P tun msg state now out.1 out.2.1 out.2.2.2 := by
  unfold wgHandshakeResponse
  dsimp only
  split
  · rename_i htype
    exact .refused (by simp [responseOk, htype])
  · rename_i htype
    split
    · rename_i hindex
      exact .refused (by simp [responseOk, hindex])
    · rename_i hindex
      have hindex' := not_not.mp hindex
      split
      · rename_i htag
        exact .badTag hindex' (by simpa [responseOk] using fun _ _ => by simpa using htag)
      · rename_i htag
        refine .installed _ _ hindex' rfl ?_
        simp only [responseOk, not_not.mp htype, hindex', beq_self_eq_true, Bool.true_and]
        simpa using htag

/-- The reader for a table entry works on the stored `pending_hs` in place, does
not keep the former session and does not touch `rekey_in_progress`. -/
def wgHandshakeInitProcessResponse (tun : WgTunnel) (i : Nat)
    (msg : WgHandshakeResponse) (now : UInt64) : WgError × WgTunnel × List Event :=
  let peer := tun.peers.get i
  if msg.type ≠ wgMsgHandshakeResponse then (.handshake, tun, [])
  else if msg.receiverIndex ≠ peer.session.localIndex then (.handshake, tun, [])
  else
    let session := { peer.session with remoteIndex := msg.senderIndex }
    let read := readResponse P tun.staticPrivate tun.psk msg peer.pendingHs
    if !read.2 then
      (.decrypt,
        { tun with
          peers := tun.peers.modify i fun p =>
            { p with session := session, pendingHs := read.1 } }, [])
    else
      let installed := completedSession session (P.wgKdf2 read.1.chainingKey []) now
      (.ok,
        { tun with
          peers := tun.peers.modify i fun p =>
            { p with session := installed, pendingHs := .zeroed, hsPending := false } },
        [.established (.peer i) installed])

inductive PeerResponseCase (tun : WgTunnel) (i : Nat) (now : UInt64) :
    WgTunnel × List Event → Prop
  | refused : PeerResponseCase tun i now (tun, [])
  | badTag (remoteIndex : UInt32) (pendingHs : WgHandshakeState) :
      PeerResponseCase tun i now
        ({ tun with
            peers := tun.peers.modify i fun p =>
              { p with
                session := { (tun.peers.get i).session with remoteIndex := remoteIndex }
                pendingHs := pendingHs } }, [])
  | installed (keys : Hash × Hash) (remoteIndex : UInt32) (sess : WgSession)
      (hsess : sess = completedSession
        { (tun.peers.get i).session with remoteIndex := remoteIndex } keys now) :
      PeerResponseCase tun i now
        ({ tun with
            peers := tun.peers.modify i fun p =>
              { p with session := sess, pendingHs := .zeroed, hsPending := false } },
          [.established (.peer i) sess])

theorem wgHandshakeInitProcessResponse_cases (tun : WgTunnel) (i : Nat)
    (msg : WgHandshakeResponse) (now : UInt64) :
    PeerResponseCase tun i now (wgHandshakeInitProcessResponse P tun i msg now).2 := by
  unfold wgHandshakeInitProcessResponse
  dsimp only
  split
  · exact .refused
  · split
    · exact .refused
    · split
      · exact .badTag _ _
      · exact .installed _ _ _ rfl

def wgProcessCookieReply (tun : WgTunnel) (msg : WgCookieReply) (now : UInt64) :
    WgError × WgTunnel :=
  if msg.type ≠ wgMsgCookieReply then (.handshake, tun)
  else if msg.receiverIndex ≠ tun.session.localIndex then (.handshake, tun)
  else
    let cookieKey := P.wgHash2 wgLabelCookie tun.peerPublic.toList
    match P.wgXaeadDecrypt cookieKey msg.nonce msg.encryptedCookie
        tun.lastMac1.toList with
    | none => (.decrypt, tun)
    | some cookie =>
        (.ok, { tun with cookie := cookie, hasCookie := true, cookieTimestamp := now })

theorem sameSessions_wgProcessCookieReply (tun : WgTunnel) (msg : WgCookieReply)
    (now : UInt64) : (wgProcessCookieReply P tun msg now).2.SameSessions tun := by
  unfold wgProcessCookieReply
  split
  · exact ⟨rfl, rfl, rfl⟩
  · split
    · exact ⟨rfl, rfl, rfl⟩
    · dsimp only
      split <;> exact ⟨rfl, rfl, rfl⟩

end ResponseReaders

section Samples

/-- With the `additive` primitives a private key is its own public key. -/
def sampleKey (b : UInt8) : Key := Vector.replicate 32 b

/-- A tunnel with private key bytes `own` whose peer has private key bytes `peer`. -/
def sampleTunnel (own peer : UInt8) : WgTunnel :=
  initialTunnel additive
    ⟨sampleKey own, 0, sampleKey peer, 25, sampleKey 9, true⟩ ⟨0, 51820⟩

def sampleInit (own peer : UInt8) (d : InitDraws) : WgHandshakeInit :=
  (buildInit additive (sampleKey own) (sampleKey own) (sampleKey peer) d).1

/-- The RESPONSE of the owner of key `own` to an INIT. -/
def sampleAnswer (own : UInt8) (psk : Key) (init : WgHandshakeInit) (d : RespDraws) :
    WgHandshakeResponse :=
  match openInit additive (sampleKey own) (sampleKey own) init with
  | none => .ofBytes []
  | some (state, initiator) => (buildResponse additive psk initiator init state d).1

end Samples

end WgNx.NoiseHandshake
