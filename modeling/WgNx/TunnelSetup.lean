import WgNx.CryptoPrimitives
import WgNx.TunnelState

/-!
Creating a tunnel, filling its peer table and searching it.

Name resolution and the allocation of locks and receive slots are outside the
model: `initialTunnel` is what `wg_init` returns when they have succeeded.
-/

namespace WgNx.TunnelSetup

open WgNx.ByteLayout
open WgNx.CryptoPrimitives
open WgNx.TunnelState
open WgNx.WireMessages

structure WgConfig where
  privateKey : Key
  tunnelIp : UInt32
  peerPublicKey : Key
  keepaliveInterval : UInt16
  presharedKey : Key
  hasPresharedKey : Bool
  deriving DecidableEq

def initialTunnel (P : Primitives) (config : WgConfig) (endpoint : SockAddr) :
    WgTunnel where
  staticPrivate := config.privateKey
  staticPublic := P.cryptoX25519PublicKey config.privateKey
  peerPublic := config.peerPublicKey
  presharedKey := if config.hasPresharedKey then config.presharedKey else zeroKey
  hasPsk := config.hasPresharedKey
  tunnelIp := config.tunnelIp
  endpoint := endpoint
  keepaliveInterval := config.keepaliveInterval
  socketFd := -1
  session := .zeroed
  prevSession := .zeroed
  peers := .empty
  cookie := zeroMac
  hasCookie := false
  cookieTimestamp := 0
  lastMac1 := zeroMac
  recvCb := none
  recvCbUser := 0
  running := false
  lastSent := 0
  pendingResponse := []
  pendingCookie := false
  recvSrc := ⟨0, 0⟩
  recvSrcValid := false

def wgAddPeer (tun : WgTunnel) (publicKey : Key) (relayHash : ByteVec 36)
    (ipRaw : UInt32) : WgTunnel :=
  { tun with
    peers := tun.peers.push
      { WgPeer.zeroed with
        publicKey := publicKey
        relayHash := relayHash
        ipRaw := ipRaw
        configured := true } }

def wgSetRecvCallback (tun : WgTunnel) (cb : Option Nat) (user : Nat) : WgTunnel :=
  { tun with recvCb := cb, recvCbUser := user }

def wgFindPeerByIp (tun : WgTunnel) (ipRaw : UInt32) : Option Nat :=
  tun.peers.find fun p => p.configured && p.ipRaw == ipRaw

def wgFindPeerByLocalIndex (tun : WgTunnel) (localIndex : UInt32) : Option Nat :=
  tun.peers.find fun p =>
    (p.configured && p.session.valid && p.session.localIndex == localIndex) ||
    (p.configured && p.prevSession.valid && p.prevSession.localIndex == localIndex)

def wgFindPeerByPublicKey (tun : WgTunnel) (publicKey : Key) : Option Nat :=
  tun.peers.find fun p => p.configured && p.publicKey == publicKey

end WgNx.TunnelSetup
