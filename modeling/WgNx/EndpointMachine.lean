import WgNx.SessionCalls

/-!
A tunnel handle as a machine.

One thread calls the API, and the receive and the keepalive thread run beside it
once they are started.  A call of `wg_connect` or `wg_rekey` is cut at the points
where the other threads can act: before an attempt, during its wait, and before
the call returns.  An action that does not fit the phase does nothing.
-/

namespace WgNx.EndpointMachine

open WgNx.ByteLayout
open WgNx.CryptoPrimitives
open WgNx.NoiseHandshake
open WgNx.RetryLoop
open WgNx.SessionCalls
open WgNx.TransportReceive
open WgNx.TransportSend
open WgNx.TunnelSetup
open WgNx.TunnelState
open WgNx.WireMessages

/-- Where the calling thread is; an idle thread remembers the last result. -/
inductive Phase
  | idle (last : WgError)
  | connecting (attempt : Nat)
  | connectWait (attempt : Nat) (state : WgHandshakeState)
  | connectDone (err : WgError)
  | rekeying (attempt : Nat) (savedLocalIndex : UInt32)
  | rekeyWait (attempt : Nat) (savedLocalIndex : UInt32) (state : WgHandshakeState)
  | rekeyDone (savedLocalIndex : UInt32) (err : WgError)
  deriving DecidableEq

structure Endpoint where
  tun : WgTunnel
  phase : Phase
  deriving DecidableEq

inductive Action
  | addPeer (publicKey : Key) (relayHash : ByteVec 36) (ipRaw : UInt32)
  | setRecvCallback (cb : Option Nat) (user : Nat)
  | start (recvThread keepaliveThread : Bool)
  | stop
  | callConnect (fd : Int)
  | connectBegin (d : InitDraws) (sent : Bool)
  | connectEnd (result : SocketResult) (resp : RespDraws) (now : UInt64)
  | connectFinish (now : UInt64)
  | callRekey
  | rekeyBegin (d : InitDraws) (sent : Bool)
  | rekeyEnd (now : UInt64)
  | rekeyFinish (now : UInt64)
  | recv (inp : RecvInput)
  | keepalive (now : UInt64) (clock : Nat → UInt64)
  | send (data : Bytes) (now : UInt64) (sent : Bool)
  | sendToPeer (i : Nat) (data : Bytes) (now : UInt64) (sent : Bool)
  | wgRecv (result : SocketResult) (len : Nat) (now : UInt64)
  | output (data : Bytes) (ipaddr : UInt32) (d : InitDraws) (now : UInt64) (sent : Bool)

def connectNext (attempt : Nat) : Verdict WgError → Phase
  | .stop err => .connectDone err
  | .again err =>
      if attempt + 1 = wgMaxTimerHandshakes then .connectDone err
      else .connecting (attempt + 1)

def rekeyNext (attempt : Nat) (savedLocalIndex : UInt32) : Verdict WgError → Phase
  | .stop err => .rekeyDone savedLocalIndex err
  | .again err =>
      if attempt + 1 = wgMaxTimerHandshakes then .rekeyDone savedLocalIndex err
      else .rekeying (attempt + 1) savedLocalIndex

variable (P : Primitives)

def stepConnect (s : Endpoint) : Action → Endpoint × List Event
  | .callConnect fd =>
      match s.phase with
      | .idle _ =>
          let tun := openSocket s.tun fd
          if tun.socketFd < 0 then (⟨tun, .idle .socket⟩, [])
          else (⟨tun, .connecting 0⟩, [])
      | _ => (s, [])
  | .connectBegin d sent =>
      match s.phase with
      | .connecting attempt =>
          let begun := beginAttempt P s.tun d
          if !sent then (⟨begun.1, .connectDone .socket⟩, begun.2.2)
          else
            (⟨{ begun.1 with pendingCookie := false }, .connectWait attempt begun.2.1⟩,
              begun.2.2)
      | _ => (s, [])
  | .connectEnd result resp now =>
      match s.phase with
      | .connectWait attempt state =>
          let ended := SessionCalls.connectEnd P s.tun state result resp now
          (⟨ended.2.1, connectNext attempt ended.1⟩, ended.2.2)
      | _ => (s, [])
  | .connectFinish now =>
      match s.phase with
      | .connectDone err =>
          let finished := SessionCalls.connectFinish P err s.tun now
          (⟨finished.2.1, .idle finished.1⟩, finished.2.2)
      | _ => (s, [])
  | _ => (s, [])

def stepRekey (s : Endpoint) : Action → Endpoint × List Event
  | .callRekey =>
      match s.phase with
      | .idle _ => (⟨rekeyStart s.tun, .rekeying 0 s.tun.session.localIndex⟩, [])
      | _ => (s, [])
  | .rekeyBegin d sent =>
      match s.phase with
      | .rekeying attempt saved =>
          let begun := beginAttempt P
            { s.tun with pendingResponse := [], pendingCookie := false } d
          if !sent then (⟨begun.1, .rekeyDone saved .socket⟩, begun.2.2)
          else (⟨begun.1, .rekeyWait attempt saved begun.2.1⟩, begun.2.2)
      | _ => (s, [])
  | .rekeyEnd now =>
      match s.phase with
      | .rekeyWait attempt saved state =>
          let ended := SessionCalls.rekeyEnd P s.tun state now
          (⟨ended.2.1, rekeyNext attempt saved ended.1⟩, ended.2.2)
      | _ => (s, [])
  | .rekeyFinish now =>
      match s.phase with
      | .rekeyDone saved err =>
          let finished := SessionCalls.rekeyFinish P saved err s.tun now
          (⟨finished.2.1, .idle finished.1⟩, finished.2.2)
      | _ => (s, [])
  | _ => (s, [])

/-- The actions that leave the phase alone, as steps of the tunnel. -/
def stepTunnel (tun : WgTunnel) : Action → WgTunnel × List Event
  | .addPeer publicKey relayHash ipRaw => (wgAddPeer tun publicKey relayHash ipRaw, [])
  | .setRecvCallback cb user => (wgSetRecvCallback tun cb user, [])
  | .start recvThread keepaliveThread => ((wgStart tun recvThread keepaliveThread).2, [])
  | .stop => (wgStop tun, [])
  | .recv inp => if tun.running then recvThreadIteration P tun inp else (tun, [])
  | .keepalive now clock => if tun.running then keepalivePass P tun now clock else (tun, [])
  | .send data now sent => (wgSend P tun data now sent).2
  | .sendToPeer i data now sent => (wgSendToPeer P tun i data now sent).2
  | .wgRecv result len now => (TransportReceive.wgRecv P tun result len now).2
  | .output data ipaddr d now sent => (wgNetifOutput P tun data ipaddr d now sent).2
  | _ => (tun, [])

def step (s : Endpoint) (a : Action) : Endpoint × List Event :=
  match a with
  | .callConnect _ => stepConnect P s a
  | .connectBegin _ _ => stepConnect P s a
  | .connectEnd _ _ _ => stepConnect P s a
  | .connectFinish _ => stepConnect P s a
  | .callRekey => stepRekey P s a
  | .rekeyBegin _ _ => stepRekey P s a
  | .rekeyEnd _ => stepRekey P s a
  | .rekeyFinish _ => stepRekey P s a
  | _ =>
      let out := stepTunnel P s.tun a
      (⟨out.1, s.phase⟩, out.2)

def handedInit (s : Endpoint) : Action → Option WgHandshakeInit
  | .connectEnd (.datagram buffer received _) _ _ =>
      match s.phase with
      | .connectWait _ _ => if s.tun.pendingCookie then none else initIn buffer received
      | _ => none
  | .recv ⟨_, .datagram buffer received _, _, _⟩ =>
      if s.tun.running then initIn buffer received else none
  | _ => none

/-- The static key of the sender of the INIT a step accepts. -/
def acceptedInit (s : Endpoint) (a : Action) : Option Key :=
  (handedInit s a).bind (acceptedKey P s.tun)

def acceptsResponse (s : Endpoint) (a : Action) : Bool :=
  match a, s.phase with
  | .connectEnd result _ _, .connectWait _ state =>
      !s.tun.pendingCookie && (responseIn result).any fun msg => responseOk P s.tun msg state
  | .rekeyEnd _, .rekeyWait _ _ state =>
      !s.tun.pendingCookie && decide (sizeofResponse ≤ s.tun.pendingResponse.length) &&
        responseOk P s.tun (WgHandshakeResponse.ofBytes s.tun.pendingResponse) state
  | _, _ => false

def initial (config : WgConfig) (endpoint : SockAddr) : Endpoint :=
  ⟨initialTunnel P config endpoint, .idle .ok⟩

section Samples

/-- A tunnel between the key of threes and the key of fives; with the `additive`
primitives a private key is its own public key. -/
def sampleConfig : WgConfig :=
  ⟨Vector.replicate 32 3, 0, Vector.replicate 32 5, 25, zeroKey, false⟩

/-- A call of `wg_connect` that ends with an INIT of the owner of `key`. -/
def connectAnsweredBy (key : Key) (salt : UInt8) (now : UInt64) : List Action :=
  let init := (buildInit additive key key (sampleKey 3)
    ⟨Vector.replicate 32 salt, salt.toUInt32, Vector.replicate 12 salt, now⟩).1
  [.callConnect 4,
    .connectBegin ⟨Vector.replicate 32 (salt + 1), salt.toUInt32 + 1,
      Vector.replicate 12 salt, now⟩ true,
    .connectEnd (.ofBytes init.toBytes none)
      ⟨Vector.replicate 32 (salt + 2), salt.toUInt32 + 2, now⟩ now,
    .connectFinish now]

end Samples

end WgNx.EndpointMachine
