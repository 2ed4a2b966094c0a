import WgNx.NoiseHandshake

/-!
The four functions of `wireguard.c` that encrypt transport packets, and the
output path of the network interface that calls one of them.

The clock reading and the result of the socket call are arguments.  A packet
counts as sealed when it is encrypted, whether or not the socket takes it.
-/

namespace WgNx.TransportSend

open WgNx.ByteLayout
open WgNx.CryptoPrimitives
open WgNx.NoiseHandshake
open WgNx.ReplayCounter
open WgNx.TunnelSetup
open WgNx.TunnelState
open WgNx.WireMessages

def transportPacket (P : Primitives) (sess : WgSession) (data : Bytes) : Bytes :=
  [wgMsgTransport, 0, 0, 0] ++ putU32 sess.remoteIndex ++
    putU64 sess.sendingCounter ++
    (P.wgAeadEncrypt sess.sendingKey sess.sendingCounter
      (field data 0 data.length) []).toList

/-- `sending_counter++`. -/
def bumpCounter (sess : WgSession) : WgSession :=
  { sess with sendingCounter := sess.sendingCounter + 1 }

def wgSessionExpired (tun : WgTunnel) (now : UInt64) : Bool :=
  tun.session.valid &&
    (decide (tun.session.Expired now) ||
      decide (wgRejectAfterMessages ≤ tun.session.sendingCounter))

def packetTooLong (data : Bytes) : Bool :=
  decide (sizeofTransport + data.length + wgAeadTagLen > wgMaxPacketSize)

section Senders

variable (P : Primitives)

def wgSendKeepalive (tun : WgTunnel) (now : UInt64) : WgTunnel × List Event :=
  ({ tun with session := bumpCounter tun.session, lastSent := now },
    [.sealed .legacy tun.session now,
      .sent .endpoint (transportPacket P tun.session [])])

def wgSendKeepaliveToPeer (tun : WgTunnel) (i : Nat) (now : UInt64) :
    WgTunnel × List Event :=
  let peer := tun.peers.get i
  ({ tun with
      peers := tun.peers.modify i fun p =>
        { p with session := bumpCounter p.session, lastSent := now } },
    [.sealed (.peer i) peer.session now,
      .sent (.relay peer.relayHash) (transportPacket P peer.session [])])

def wgSend (tun : WgTunnel) (data : Bytes) (now : UInt64) (sent : Bool) :
    Except WgError Nat × WgTunnel × List Event :=
  if !tun.session.valid then (.error .notConnected, tun, [])
  else if wgSessionExpired tun now then (.error .notConnected, tun, [])
  else if packetTooLong data then (.error .bufferTooSmall, tun, [])
  else
    (if sent then .ok data.length else .error .socket,
      { tun with
        session := bumpCounter tun.session
        lastSent := if sent then now else tun.lastSent },
      [.sealed .legacy tun.session now,
        .sent .endpoint (transportPacket P tun.session data)])

/-- Unlike `wgSend` this looks neither at the age of the session nor at the
message limit. -/
def wgSendToPeer (tun : WgTunnel) (i : Nat) (data : Bytes) (now : UInt64)
    (sent : Bool) : Except WgError Nat × WgTunnel × List Event :=
  let peer := tun.peers.get i
  if !peer.connected || !peer.session.valid then (.error .notConnected, tun, [])
  else if packetTooLong data then (.error .bufferTooSmall, tun, [])
  else
    (if sent then .ok data.length else .error .socket,
      { tun with
        peers := tun.peers.modify i fun p =>
          { p with
            session := bumpCounter p.session
            lastSent := if sent then now else p.lastSent } },
      [.sealed (.peer i) peer.session now,
        .sent (.relay peer.relayHash) (transportPacket P peer.session data)])

/-- The results `wg_netif_output` reports to the IP stack. -/
inductive ErrT
  | ok
  | interface
  | buffer
  | route
  deriving DecidableEq

def wgNetifOutput (tun : WgTunnel) (data : Bytes) (ipaddr : UInt32) (d : InitDraws)
    (now : UInt64) (sent : Bool) : ErrT × WgTunnel × List Event :=
  let data := data.take 1500
  if data.length = 0 then (.buffer, tun, [])
  else
    match wgFindPeerByIp tun ipaddr with
    | none => (.route, tun, [])
    | some i =>
        let peer := tun.peers.get i
        if !peer.connected || !peer.session.valid then
          let built := wgHandshakeInitPeer P tun i d
          (.ok,
            { built.1 with
              peers := built.1.peers.modify i fun p =>
                { p with pendingHs := built.2.2, hsPending := true } },
            [.drawn d.index, .sent (.relay peer.relayHash) built.2.1.toBytes])
        else
          let out := wgSendToPeer P tun i data now sent
          (match out.1 with
            | .ok _ => .ok
            | .error _ => .interface, out.2)

end Senders

section Samples

def openingDraws : InitDraws := ⟨sampleKey 11, 17, Vector.replicate 12 0, 100⟩

/-- The tunnel of key 3 with the owner of key 7 in its table, to whom an INIT with
index 17 is on its way. -/
def openingTunnel : WgTunnel :=
  (wgNetifOutput additive (wgAddPeer (sampleTunnel 3 5) (sampleKey 7) (Vector.replicate 36 0) 9)
    [1, 2] 9 openingDraws 100 true).2.1

def genuineResponse : WgHandshakeResponse :=
  sampleAnswer 7 openingTunnel.psk (sampleInit 3 7 openingDraws) ⟨sampleKey 13, 23, 200⟩

end Samples

end WgNx.TransportSend
