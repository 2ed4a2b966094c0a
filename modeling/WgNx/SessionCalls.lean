import WgNx.RetryLoop
import WgNx.TransportReceive

/-!
The calls that set up a session: `wg_connect`, `wg_rekey`, `wg_start` and
`wg_stop`.

Each attempt of the two handshake loops comes with what it meets: the random
draws, the result of the send, the datagrams the receive thread handles while
the caller waits, and the datagram (or none) the caller gets itself.  A wait is
over-approximated by any list of receive iterations, none if no thread runs.
-/

namespace WgNx.SessionCalls

open WgNx.ByteLayout
open WgNx.CryptoPrimitives
open WgNx.NoiseHandshake
open WgNx.OutputMachine
open WgNx.RetryLoop
open WgNx.TransportReceive
open WgNx.TransportSend
open WgNx.TunnelState
open WgNx.WireMessages

variable (P : Primitives)

/-- The receive thread at work while a caller waits. -/
def background (tun : WgTunnel) (inputs : List RecvInput) : WgTunnel × List Event :=
  if tun.running then run (recvThreadIteration P) tun inputs else (tun, [])

/-- `wg_handshake_init` and the send of its message. -/
def beginAttempt (tun : WgTunnel) (d : InitDraws) :
    WgTunnel × WgHandshakeState × List Event :=
  let built := wgHandshakeInit P tun d
  (built.1, built.2.2, [.drawn d.index, .sent .endpoint built.2.1.toBytes])

section Connect

structure ConnectEnv where
  draws : InitDraws
  sent : Bool
  background : List RecvInput
  result : SocketResult
  resp : RespDraws
  now : UInt64
  deriving DecidableEq

/-- The source address a socket result leaves behind. -/
def SocketResult.src : SocketResult → Option SockAddr
  | .datagram _ _ src => src
  | _ => none

/-- What `wg_connect` does with a datagram it waited for.  A rejected INIT asks
for another attempt with `err` still `WG_OK` from `wg_handshake_init`. -/
def connectDatagram (tun : WgTunnel) (state : WgHandshakeState) (buffer : Bytes)
    (received : Nat) (resp : RespDraws) (now : UInt64) :
    Verdict WgError × WgTunnel × List Event :=
  if getType buffer = wgMsgHandshakeInit ∧ sizeofInit ≤ received then
    let passive := wgHandshakeInitProcess P tun (WgHandshakeInit.ofBytes buffer) resp
    (if passive.1 = .ok then .stop .ok else .again .ok, passive.2)
  else if received < sizeofResponse then (.again .handshake, tun, [])
  else
    let out := wgHandshakeResponse P tun (WgHandshakeResponse.ofBytes buffer) state now
    (if out.1 = .ok then .stop .ok else .again out.1, out.2.1, out.2.2.2)

/-- The end of an attempt, after the wait. -/
def connectEnd (tun : WgTunnel) (state : WgHandshakeState) (result : SocketResult)
    (resp : RespDraws) (now : UInt64) : Verdict WgError × WgTunnel × List Event :=
  let tun := noteSource tun (SocketResult.src result)
  if tun.pendingCookie then (.again .timeout, { tun with pendingCookie := false }, [])
  else
    match result with
    | .timeout => (.again .timeout, tun, [])
    | .error _ => (.again .timeout, tun, [])
    | .datagram buffer received _ => connectDatagram P tun state buffer received resp now

/-- The wait ended with an INIT that is long enough to be processed. -/
def IsInit (result : SocketResult) (msg : WgHandshakeInit) : Prop :=
  ∃ buffer received src, result = .datagram buffer received src ∧
    (getType buffer = wgMsgHandshakeInit ∧ sizeofInit ≤ received) ∧
    msg = WgHandshakeInit.ofBytes buffer

/-- What the wait ended with, where it is read as a RESPONSE. -/
def responseIn : SocketResult → Option WgHandshakeResponse
  | .datagram buffer received _ =>
      if getType buffer = wgMsgHandshakeInit ∧ sizeofInit ≤ received then none
      else if received < sizeofResponse then none
      else some (WgHandshakeResponse.ofBytes buffer)
  | _ => none

theorem responseIn_of_isInit {result : SocketResult} {msg : WgHandshakeInit}
    (h : IsInit result msg) : responseIn result = none := by
  obtain ⟨buffer, received, src, rfl, hinit, -⟩ := h
  exact if_pos hinit

/-- Everything the end of an attempt can do; `tun` is the tunnel after the
wait. -/
inductive ConnectEndCase (tun : WgTunnel) (state : WgHandshakeState) (result : SocketResult)
    (resp : RespDraws) (now : UInt64) : Verdict WgError × WgTunnel × List Event → Prop
  | retried (err : WgError) (tun' : WgTunnel) (herr : err ≠ .ok)
      (hsame : tun'.SameSessions tun)
      (hinit : ∀ msg, tun.pendingCookie = false → ¬ IsInit result msg)
      (hresponse : tun.pendingCookie = false → responseIn result = none) :
      ConnectEndCase tun state result resp now (.again err, tun', [])
  | passive (msg : WgHandshakeInit) (hcookie : tun.pendingCookie = false)
      (hinit : IsInit result msg) :
      ConnectEndCase tun state result resp now
        (if (wgHandshakeInitProcess P tun msg resp).1 = .ok then .stop .ok else .again .ok,
          (wgHandshakeInitProcess P tun msg resp).2)
  | response (msg : WgHandshakeResponse) (err : WgError) (tun' : WgTunnel)
      (events : List Event) (hcase : ResponseCase P tun msg state now err tun' events)
      (hinit : ∀ msg, ¬ IsInit result msg) (hcookie : tun.pendingCookie = false)
      (hresponse : responseIn result = some msg) :
      ConnectEndCase tun state result resp now
        (if err = .ok then .stop .ok else .again err, tun', events)

theorem connectEnd_cases (tun : WgTunnel) (state : WgHandshakeState)
    (result : SocketResult) (resp : RespDraws) (now : UInt64) :
    ConnectEndCase P (noteSource tun (SocketResult.src result)) state result resp now
      (connectEnd P tun state result resp now) := by
  unfold connectEnd
  dsimp only
  split
  · rename_i hcookie
    have hsome : (noteSource tun (SocketResult.src result)).pendingCookie ≠ false := by
      rw [hcookie]
      exact Bool.noConfusion
    exact .retried _ _ (by decide) ⟨rfl, rfl, rfl⟩ (fun msg hnone => absurd hnone hsome)
      fun hnone => absurd hnone hsome
  · rename_i hcookie
    split
    · refine .retried _ _ (by decide) ⟨rfl, rfl, rfl⟩ ?_ fun _ => rfl
      rintro msg - ⟨buffer, received, src, hresult, -⟩
      cases hresult
    · refine .retried _ _ (by decide) ⟨rfl, rfl, rfl⟩ ?_ fun _ => rfl
      rintro msg - ⟨buffer, received, src, hresult, -⟩
      cases hresult
    · rename_i buffer received src
      unfold connectDatagram
      split
      · rename_i hinit
        exact .passive _ (by simpa using hcookie) ⟨buffer, received, src, rfl, hinit, rfl⟩
      · rename_i hother
        have hnot : ∀ msg, ¬ IsInit (.datagram buffer received src) msg := by
          rintro msg ⟨buffer', received', src', hresult, hinit, -⟩
          cases hresult
          exact hother hinit
        split
        · rename_i hshort
          refine .retried _ _ (by decide) ⟨rfl, rfl, rfl⟩ (fun msg _ => hnot msg) fun _ => ?_
          simp only [responseIn, if_neg hother, if_pos hshort]
        · rename_i hlong
          refine .response _ _ _ _ (wgHandshakeResponse_cases P _ _ state now) hnot
            (by simpa using hcookie) ?_
          simp only [responseIn, if_neg hother, if_neg hlong]

def connectAttempt (env : Nat → ConnectEnv) (k : Nat) (tun : WgTunnel) :
    Verdict WgError × WgTunnel × List Event :=
  let begun := beginAttempt P tun (env k).draws
  if !(env k).sent then (.stop .socket, begun.1, begun.2.2)
  else
    let waited := background P { begun.1 with pendingCookie := false } (env k).background
    let ended := connectEnd P waited.1 begun.2.1 (env k).result (env k).resp (env k).now
    (ended.1, ended.2.1, begun.2.2 ++ waited.2 ++ ended.2.2)

def connectFinish (err : WgError) (tun : WgTunnel) (now : UInt64) :
    WgError × WgTunnel × List Event :=
  if err ≠ .ok then
    (err, { tun with session := { tun.session with rekeyInProgress := false } }, [])
  else (.ok, wgSendKeepalive P tun now)

/-- `fd` is what `socket()` returns when the tunnel has no socket yet. -/
def openSocket (tun : WgTunnel) (fd : Int) : WgTunnel :=
  if tun.socketFd < 0 then { tun with socketFd := fd } else tun

def wgConnect (tun : WgTunnel) (fd : Int) (env : Nat → ConnectEnv) (now : UInt64) :
    WgError × WgTunnel × List Event :=
  let tun := openSocket tun fd
  if tun.socketFd < 0 then (.socket, tun, [])
  else
    let loop := retry (connectAttempt P env) wgMaxTimerHandshakes 0 .timeout tun
    let finished := connectFinish P loop.1 loop.2.1 now
    (finished.1, finished.2.1, loop.2.2 ++ finished.2.2)

end Connect

section Rekey

structure RekeyEnv where
  draws : InitDraws
  sent : Bool
  background : List RecvInput
  now : UInt64
  deriving DecidableEq

/-- The end of an attempt: a cookie asks for another one with `err` still `WG_OK`
from `wg_handshake_init`. -/
def rekeyEnd (tun : WgTunnel) (state : WgHandshakeState) (now : UInt64) :
    Verdict WgError × WgTunnel × List Event :=
  if tun.pendingCookie then (.again .ok, { tun with pendingCookie := false }, [])
  else if tun.pendingResponse.length = 0 then (.again .timeout, tun, [])
  else if tun.pendingResponse.length < sizeofResponse then (.again .handshake, tun, [])
  else
    let out := wgHandshakeResponse P tun
      (WgHandshakeResponse.ofBytes tun.pendingResponse) state now
    (if out.1 = .ok then .stop .ok else .again out.1, out.2.1, out.2.2.2)

def rekeyAttempt (env : Nat → RekeyEnv) (k : Nat) (tun : WgTunnel) :
    Verdict WgError × WgTunnel × List Event :=
  let tun := { tun with pendingResponse := [], pendingCookie := false }
  let begun := beginAttempt P tun (env k).draws
  if !(env k).sent then (.stop .socket, begun.1, begun.2.2)
  else
    let waited := background P begun.1 (env k).background
    let ended := rekeyEnd P waited.1 begun.2.1 (env k).now
    (ended.1, ended.2.1, begun.2.2 ++ waited.2 ++ ended.2.2)

def rekeyFinish (savedLocalIndex : UInt32) (err : WgError) (tun : WgTunnel) (now : UInt64) :
    WgError × WgTunnel × List Event :=
  if err ≠ .ok then
    (err,
      { tun with
        session :=
          { tun.session with localIndex := savedLocalIndex, rekeyInProgress := false } }, [])
  else (.ok, wgSendKeepalive P tun now)

/-- The tunnel the loop of a rekey starts from. -/
def rekeyStart (tun : WgTunnel) : WgTunnel := { tun with pendingResponse := [] }

def wgRekey (tun : WgTunnel) (env : Nat → RekeyEnv) (now : UInt64) :
    WgError × WgTunnel × List Event :=
  let loop := retry (rekeyAttempt P env) wgMaxTimerHandshakes 0 .timeout (rekeyStart tun)
  let finished := rekeyFinish P tun.session.localIndex loop.1 loop.2.1 now
  (finished.1, finished.2.1, loop.2.2 ++ finished.2.2)

end Rekey

section Threads

/-- The two flags say whether the threads could be created. -/
def wgStart (tun : WgTunnel) (recvThread keepaliveThread : Bool) : WgError × WgTunnel :=
  if !tun.session.valid ∧ tun.peers.count = 0 then (.notConnected, tun)
  else if tun.running then (.alreadyRunning, tun)
  else if !recvThread || !keepaliveThread then (.thread, tun)
  else (.ok, { tun with running := true })

def wgStop (tun : WgTunnel) : WgTunnel := { tun with running := false }

end Threads

end WgNx.SessionCalls
