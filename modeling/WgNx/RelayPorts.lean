import WgNx.TcpRelay
import WgNx.TunnelState

/-!
The port relays of `LwipRelay`, from the local sockets to the target.

`startTcpRelay` and `startUdpRelay` register a local port, and every pass of the loop
polls the sockets that are registered.  The table of TCP listeners holds sockets only: a
client accepted on a local port is connected to the port of that number at the target.
A UDP binding has the target port beside its socket.

What the socket calls and the allocations of lwIP answer is an input.
-/

namespace WgNx.RelayPorts

open WgNx.OutputMachine
open WgNx.TunnelState

section Tables

inductive Proto
  | tcp
  | udp
  deriving DecidableEq

structure UdpBinding where
  localSock : Nat
  localPort : UInt16
  targetPort : UInt16

structure LwipRelay where
  tcpListeners : Std.TreeMap UInt16 Nat
  tcp : TcpRelay.Relay
  udpBindings : Std.TreeMap UInt16 UdpBinding

def LwipRelay.initial : LwipRelay := ⟨∅, TcpRelay.empty, ∅⟩

/-- A call that registers a port or finds it registered, and the calls of lwIP that go out
to the target. -/
inductive RelayEvent
  | listening (proto : Proto) (targetPort localPort : UInt16)
  | tcpConnect (localPort : UInt16) (dest : SockAddr)
  | udpSendto (localPort : UInt16) (dest : SockAddr) (data : List UInt8)
  deriving DecidableEq

end Tables

section Registration

/-- `sock` is the result of `createTcpListener`.  A failed call returns 0. -/
def startTcpRelay (r : LwipRelay) (_targetPort localPort : UInt16) (sock : Option Nat) :
    LwipRelay × Option UInt16 :=
  if r.tcpListeners.contains localPort then (r, some localPort)
  else
    match sock with
    | none => (r, none)
    | some sock =>
        ({ r with tcpListeners := r.tcpListeners.insert localPort sock }, some localPort)

/-- The results of `createUdpSocket`, `udp_new` and `udp_bind`. -/
structure UdpSetup where
  sock : Option Nat
  newOk : Bool
  bindOk : Bool

def startUdpRelay (r : LwipRelay) (targetPort localPort : UInt16) (setup : UdpSetup) :
    LwipRelay × Option UInt16 :=
  if r.udpBindings.contains localPort then (r, some localPort)
  else
    match setup.sock with
    | none => (r, none)
    | some sock =>
        if !setup.newOk then (r, none)
        else if !setup.bindOk then (r, none)
        else
          ({ r with
              udpBindings := r.udpBindings.insert localPort ⟨sock, localPort, targetPort⟩ },
            some localPort)

end Registration

section Polling

/-- Whether `poll` finds a listener readable, and the results of `accept`, `tcp_new` and
`tcp_connect`. -/
structure TcpPoll where
  ready : Bool
  clientSock : Option Nat
  newOk : Bool
  connectOk : Bool

/-- Whether `poll` finds a socket readable, the datagram that `recvfrom` takes from it, and
the result of `pbuf_alloc`. -/
structure UdpPoll where
  ready : Bool
  datagram : Option (List UInt8)
  allocOk : Bool

variable (targetAddr : UInt32)

/-- One round of `pollTcpListeners`. -/
def pollTcpListener (env : UInt16 → TcpPoll) (s : TcpRelay.Relay) (listener : UInt16 × Nat) :
    TcpRelay.Relay × List RelayEvent :=
  let localPort := listener.1
  let p := env localPort
  if !p.ready then (s, [])
  else
    match p.clientSock with
    | none => (s, [])
    | some fd =>
        ((TcpRelay.step s (.accept localPort fd p.newOk p.connectOk)).1,
          if p.newOk then [.tcpConnect localPort ⟨targetAddr, localPort⟩] else [])

def pollTcpListeners (r : LwipRelay) (env : UInt16 → TcpPoll) : LwipRelay × List RelayEvent :=
  let out := run (pollTcpListener targetAddr env) r.tcp r.tcpListeners.toList
  ({ r with tcp := out.1 }, out.2)

/-- One round of `pollUdpSockets`.  The buffer has 2048 bytes. -/
def pollUdpSocket (env : UInt16 → UdpPoll) (entry : UInt16 × UdpBinding) : List RelayEvent :=
  let p := env entry.1
  if !p.ready then []
  else
    match p.datagram with
    | none => []
    | some data =>
        let buf := data.take 2048
        if buf.length = 0 then []
        else if !p.allocOk then []
        else [.udpSendto entry.1 ⟨targetAddr, entry.2.targetPort⟩ buf]

def pollUdpSockets (r : LwipRelay) (env : UInt16 → UdpPoll) : List RelayEvent :=
  r.udpBindings.toList.flatMap (pollUdpSocket targetAddr env)

end Polling

section Machine

/-- The calls of the application, the polls of the loop, and whatever else happens to the
connections that were accepted. -/
inductive Action
  | startTcpRelay (targetPort localPort : UInt16) (sock : Option Nat)
  | startUdpRelay (targetPort localPort : UInt16) (setup : UdpSetup)
  | pollTcpListeners (env : UInt16 → TcpPoll)
  | pollUdpSockets (env : UInt16 → UdpPoll)
  | connection (a : TcpRelay.Action)
      (haccept : ∀ localPort fd newOk connectOk, a ≠ .accept localPort fd newOk connectOk)

/-- A call that does not fail is recorded. -/
def started (proto : Proto) (targetPort : UInt16) (result : Option UInt16) : List RelayEvent :=
  (result.map (RelayEvent.listening proto targetPort)).toList

def step (targetAddr : UInt32) (r : LwipRelay) : Action → LwipRelay × List RelayEvent
  | .startTcpRelay targetPort localPort sock =>
      let out := startTcpRelay r targetPort localPort sock
      (out.1, started .tcp targetPort out.2)
  | .startUdpRelay targetPort localPort setup =>
      let out := startUdpRelay r targetPort localPort setup
      (out.1, started .udp targetPort out.2)
  | .pollTcpListeners env => pollTcpListeners targetAddr r env
  | .pollUdpSockets env => (r, pollUdpSockets targetAddr r env)
  | .connection a _ => ({ r with tcp := (TcpRelay.step r.tcp a).1 }, [])

/-- The target port of the first successful call for each local port. -/
abbrev Registered := Proto → UInt16 → Option UInt16

def noneRegistered : Registered := fun _ _ => none

def Registered.note (g : Registered) : RelayEvent → Registered
  | .listening proto targetPort localPort => fun proto' localPort' =>
      if proto' = proto ∧ localPort' = localPort then
        (g proto' localPort').or (some targetPort)
      else g proto' localPort'
  | _ => g

end Machine

section Forwards

variable (targetAddr : UInt32)

def connectsFrom (localPort : UInt16) (events : List RelayEvent) : List SockAddr :=
  events.filterMap fun
    | .tcpConnect p dest => if p = localPort then some dest else none
    | _ => none

def sendsFrom (localPort : UInt16) (events : List RelayEvent) : List SockAddr :=
  events.filterMap fun
    | .udpSendto p dest _ => if p = localPort then some dest else none
    | _ => none

def TcpPoll.accepted (p : TcpPoll) : Bool := p.ready && p.clientSock.isSome

def UdpPoll.received (p : UdpPoll) : Bool := p.ready && p.datagram.isSome

/-- What arrives for a registered port is forwarded once, to the port it was registered
for. -/
def forwardedTo (target : Option UInt16) (arrived : Bool) : List SockAddr :=
  if arrived then (target.map (SockAddr.mk targetAddr)).toList else []

/-- For everything it accepts or receives, a poll makes one call of `tcp_connect` or
`udp_sendto` to the registered target port.  Whether lwIP then carries the call out is not
looked at. -/
def RelaysAsRegistered (o : LwipRelay × Registered) : Action → Prop
  | .pollTcpListeners env => ∀ l,
      connectsFrom l (pollTcpListeners targetAddr o.1 env).2 =
        forwardedTo targetAddr (o.2 .tcp l) (env l).accepted
  | .pollUdpSockets env => ∀ l,
      sendsFrom l (pollUdpSockets targetAddr o.1 env) =
        forwardedTo targetAddr (o.2 .udp l) (env l).received
  | _ => True

/-- A client arrives only on a port registered for the target port of its own number, no
datagram is empty, and lwIP has the memory for either. -/
def SamePorts (o : LwipRelay × Registered) : Action → Prop
  | .pollTcpListeners env => ∀ l t, o.2 .tcp l = some t → (env l).accepted = true →
      t = l ∧ (env l).newOk = true
  | .pollUdpSockets env => ∀ l t, o.2 .udp l = some t → (env l).received = true →
      (env l).datagram ≠ some [] ∧ (env l).allocOk = true
  | _ => True

end Forwards

section Tracking

/-- The tables know the ports that are registered, and only that of UDP knows what for. -/
structure Tracks (o : LwipRelay × Registered) : Prop where
  listeners : ∀ l, (o.1.tcpListeners[l]?).isSome = (o.2 .tcp l).isSome
  bindings : ∀ l, (o.1.udpBindings[l]?).map UdpBinding.targetPort = o.2 .udp l

theorem tracks_initial : Tracks (.initial, noneRegistered) := by
  constructor
  · intro l
    simp [LwipRelay.initial, noneRegistered]
  · intro l
    simp [LwipRelay.initial, noneRegistered]

/-- What the two calls can do: the port is known, the call fails, or it adds the port. -/
inductive StartCase (known : Bool) (r : LwipRelay) (added : Nat → LwipRelay)
    (localPort : UInt16) : LwipRelay × Option UInt16 → Prop
  | known (h : known = true) : StartCase known r added localPort (r, some localPort)
  | failed : StartCase known r added localPort (r, none)
  | added (sock : Nat) (h : known = false) :
      StartCase known r added localPort (added sock, some localPort)

theorem startTcpRelay_cases (r : LwipRelay) (targetPort localPort : UInt16)
    (sock : Option Nat) :
    StartCase (r.tcpListeners.contains localPort) r
      (fun sock => { r with tcpListeners := r.tcpListeners.insert localPort sock }) localPort
      (startTcpRelay r targetPort localPort sock) := by
  unfold startTcpRelay
  split
  · rename_i hknown
    exact .known hknown
  · rename_i hnew
    cases sock with
    | none => exact .failed
    | some sock => exact .added sock (Bool.eq_false_iff.mpr hnew)

theorem startUdpRelay_cases (r : LwipRelay) (targetPort localPort : UInt16)
    (setup : UdpSetup) :
    StartCase (r.udpBindings.contains localPort) r
      (fun sock =>
        { r with
          udpBindings := r.udpBindings.insert localPort ⟨sock, localPort, targetPort⟩ })
      localPort (startUdpRelay r targetPort localPort setup) := by
  unfold startUdpRelay
  split
  · rename_i hknown
    exact .known hknown
  · rename_i hnew
    cases setup.sock with
    | none => exact .failed
    | some sock =>
        dsimp only
        split
        · exact .failed
        · split
          · exact .failed
          · exact .added sock (Bool.eq_false_iff.mpr hnew)

theorem note_listening (g : Registered) (proto : Proto) (targetPort localPort : UInt16)
    (proto' : Proto) (localPort' : UInt16) :
    g.note (.listening proto targetPort localPort) proto' localPort' =
      if proto' = proto ∧ localPort' = localPort then
        (g proto' localPort').or (some targetPort)
      else g proto' localPort' :=
  rfl

theorem note_of_isSome {g : Registered} {proto : Proto} {localPort : UInt16}
    (h : (g proto localPort).isSome) (targetPort : UInt16) :
    g.note (.listening proto targetPort localPort) = g := by
  funext proto' localPort'
  rw [note_listening]
  split
  · rename_i heq
    obtain ⟨rfl, rfl⟩ := heq
    exact Option.or_of_isSome h
  · rfl

theorem foldl_note_of_forwards {events : List RelayEvent}
    (h : ∀ proto t l, .listening proto t l ∉ events) (g : Registered) :
    events.foldl Registered.note g = g := by
  induction events with
  | nil => rfl
  | cons e events ih =>
      have hrest := ih fun proto t l hmem => h proto t l (List.mem_cons_of_mem _ hmem)
      cases e with
      | listening proto t l => exact absurd List.mem_cons_self (h proto t l)
      | tcpConnect l dest => exact hrest
      | udpSendto l dest data => exact hrest

theorem events_pollTcpListener (targetAddr : UInt32) (env : UInt16 → TcpPoll)
    (s : TcpRelay.Relay) (listener : UInt16 × Nat) :
    (pollTcpListener targetAddr env s listener).2 =
      if (env listener.1).accepted && (env listener.1).newOk then
        [.tcpConnect listener.1 ⟨targetAddr, listener.1⟩]
      else [] := by
  unfold pollTcpListener TcpPoll.accepted
  dsimp only
  cases (env listener.1).ready with
  | false => rfl
  | true =>
      cases (env listener.1).clientSock with
      | none => rfl
      | some fd => rfl

theorem events_pollUdpSocket (targetAddr : UInt32) (env : UInt16 → UdpPoll)
    (entry : UInt16 × UdpBinding) :
    pollUdpSocket targetAddr env entry =
      if (env entry.1).received && (env entry.1).datagram != some [] && (env entry.1).allocOk then
        [.udpSendto entry.1 ⟨targetAddr, entry.2.targetPort⟩
          (((env entry.1).datagram.getD []).take 2048)]
      else [] := by
  unfold pollUdpSocket UdpPoll.received
  dsimp only
  cases (env entry.1).ready with
  | false => rfl
  | true =>
      cases (env entry.1).datagram with
      | none => rfl
      | some data =>
          cases data with
          | nil => rfl
          | cons b data =>
              cases (env entry.1).allocOk with
              | false => rfl
              | true => rfl

theorem events_pollTcpListeners (targetAddr : UInt32) (r : LwipRelay) (env : UInt16 → TcpPoll) :
    (pollTcpListeners targetAddr r env).2 =
      r.tcpListeners.toList.flatMap fun listener =>
        if (env listener.1).accepted && (env listener.1).newOk then
          [.tcpConnect listener.1 ⟨targetAddr, listener.1⟩]
        else [] :=
  run_outputs_flatMap _ (events_pollTcpListener targetAddr env) r.tcp _

variable {r : LwipRelay} {g : Registered} {localPort : UInt16}

theorem Tracks.addListener (h : Tracks (r, g)) (sock : Nat) (targetPort localPort : UInt16) :
    Tracks ({ r with tcpListeners := r.tcpListeners.insert localPort sock },
      g.note (.listening .tcp targetPort localPort)) := by
  constructor
  · intro l
    have hold := h.listeners l
    by_cases heq : l = localPort
    · subst heq
      simp [note_listening]
    · simpa [note_listening, Std.TreeMap.getElem?_insert, heq, Ne.symm heq] using hold
  · intro l
    simpa [note_listening] using h.bindings l

/-- A binding is only added for a port that no call has succeeded for. -/
theorem Tracks.addBinding (h : Tracks (r, g)) (hnew : r.udpBindings.contains localPort = false)
    (sock : Nat) (targetPort : UInt16) :
    Tracks ({ r with
        udpBindings := r.udpBindings.insert localPort ⟨sock, localPort, targetPort⟩ },
      g.note (.listening .udp targetPort localPort)) := by
  have hfirst : g .udp localPort = none := by
    rw [Std.TreeMap.contains_eq_isSome_getElem?, Option.isSome_eq_false_iff,
      Option.isNone_iff_eq_none] at hnew
    have hlookup := h.bindings localPort
    rw [hnew] at hlookup
    exact hlookup.symm
  constructor
  · intro l
    simpa [note_listening] using h.listeners l
  · intro l
    have hold := h.bindings l
    by_cases heq : l = localPort
    · subst heq
      simp [note_listening, hfirst]
    · simpa [note_listening, Std.TreeMap.getElem?_insert, heq, Ne.symm heq] using hold

/-- A call for a known port succeeds and is not the first that does. -/
theorem Tracks.known (h : Tracks (r, g)) {proto : Proto} (hknown : (g proto localPort).isSome)
    (targetPort : UInt16) : Tracks (r, g.note (.listening proto targetPort localPort)) := by
  rw [note_of_isSome hknown]
  exact h

theorem tracks_step (targetAddr : UInt32) (o : LwipRelay × Registered) (a : Action)
    (h : Tracks o) : Tracks (observe (step targetAddr) Registered.note o a).1 := by
  obtain ⟨r, g⟩ := o
  cases a with
  | startTcpRelay targetPort localPort sock =>
      have hcase := startTcpRelay_cases r targetPort localPort sock
      simp only [observe, step]
      generalize startTcpRelay r targetPort localPort sock = out at hcase ⊢
      cases hcase with
      | known hknown =>
          rw [Std.TreeMap.contains_eq_isSome_getElem?] at hknown
          exact h.known ((h.listeners localPort).symm.trans hknown) targetPort
      | failed => exact h
      | added sock _ => exact h.addListener sock targetPort localPort
  | startUdpRelay targetPort localPort setup =>
      have hcase := startUdpRelay_cases r targetPort localPort setup
      simp only [observe, step]
      generalize startUdpRelay r targetPort localPort setup = out at hcase ⊢
      cases hcase with
      | known hknown =>
          have hsome := congrArg Option.isSome (h.bindings localPort)
          rw [Option.isSome_map, ← Std.TreeMap.contains_eq_isSome_getElem?, hknown] at hsome
          exact h.known hsome.symm targetPort
      | failed => exact h
      | added sock hnew => exact h.addBinding hnew sock targetPort
  | pollTcpListeners env =>
      simp only [observe, step]
      rw [foldl_note_of_forwards]
      · exact ⟨h.listeners, h.bindings⟩
      · intro proto t l hmem
        rw [events_pollTcpListeners, List.mem_flatMap] at hmem
        obtain ⟨listener, -, hlistener⟩ := hmem
        split at hlistener <;> simp at hlistener
  | pollUdpSockets env =>
      simp only [observe, step]
      rw [foldl_note_of_forwards]
      · exact h
      · intro proto t l hmem
        rw [pollUdpSockets, List.mem_flatMap] at hmem
        obtain ⟨entry, -, hentry⟩ := hmem
        rw [events_pollUdpSocket] at hentry
        split at hentry <;> simp at hentry
  | connection a haccept => exact ⟨h.listeners, h.bindings⟩

end Tracking

section Polls

variable {targetAddr : UInt32}

/-- What a loop over a table forwards from one port, where a round forwards at most once
and from its own port. -/
theorem filterMap_loop {V : Type} {pick : RelayEvent → Option SockAddr}
    {round : UInt16 × V → List RelayEvent} {l : UInt16} {c : Bool} {dest : V → SockAddr}
    (hround : ∀ e, (round e).filterMap pick =
      if e.1 = l then if c then [dest e.2] else [] else []) (table : Std.TreeMap UInt16 V) :
    (table.toList.flatMap round).filterMap pick =
      if c then ((table[l]?).map dest).toList else [] := by
  rw [List.filterMap_flatMap]
  simp only [hround]
  rw [flatMap_toList table l fun v => if c then [dest v] else []]
  cases table[l]? with
  | none => simp
  | some v => simp

theorem connectsFrom_pollTcpListeners (r : LwipRelay) (env : UInt16 → TcpPoll) (l : UInt16) :
    connectsFrom l (pollTcpListeners targetAddr r env).2 =
      if (env l).accepted && (env l).newOk then
        ((r.tcpListeners[l]?).map fun _ => SockAddr.mk targetAddr l).toList
      else [] := by
  rw [events_pollTcpListeners]
  refine filterMap_loop (fun listener => ?_) r.tcpListeners
  by_cases heq : listener.1 = l
  · subst heq
    split <;> simp
  · split <;> simp [heq]

theorem sendsFrom_pollUdpSockets (r : LwipRelay) (env : UInt16 → UdpPoll) (l : UInt16) :
    sendsFrom l (pollUdpSockets targetAddr r env) =
      if (env l).received && (env l).datagram != some [] && (env l).allocOk then
        ((r.udpBindings[l]?).map fun b => SockAddr.mk targetAddr b.targetPort).toList
      else [] := by
  refine filterMap_loop (fun entry => ?_) r.udpBindings
  rw [events_pollUdpSocket]
  by_cases heq : entry.1 = l
  · subst heq
    split <;> simp
  · split <;> simp [heq]

theorem connects_iff {target : Option UInt16} {known : Option Nat} {p : TcpPoll} {l : UInt16}
    (h : known.isSome = target.isSome) :
    (if p.accepted && p.newOk then (known.map fun _ => SockAddr.mk targetAddr l).toList
        else []) = forwardedTo targetAddr target p.accepted ↔
      ∀ t, target = some t → p.accepted = true → t = l ∧ p.newOk = true := by
  unfold forwardedTo
  cases p.accepted with
  | false => simp
  | true =>
      cases target with
      | none =>
          have hnone : known = none := by simpa using h
          simp [hnone]
      | some t =>
          obtain ⟨sock, rfl⟩ := Option.isSome_iff_exists.mp h
          cases p.newOk with
          | false => simp
          | true => simp [eq_comm]

theorem sends_iff {target : Option UInt16} {p : UdpPoll} :
    (if p.received && p.datagram != some [] && p.allocOk then
        (target.map (SockAddr.mk targetAddr)).toList
        else []) = forwardedTo targetAddr target p.received ↔
      ∀ t, target = some t → p.received = true →
        p.datagram ≠ some [] ∧ p.allocOk = true := by
  unfold forwardedTo
  cases p.received with
  | false => simp
  | true =>
      cases target with
      | none => simp
      | some t =>
          by_cases hempty : p.datagram = some []
          · simp [hempty]
          · cases p.allocOk with
            | false => simp
            | true => simp [hempty]

theorem relaysAsRegistered_iff {o : LwipRelay × Registered} (h : Tracks o) (a : Action) :
    RelaysAsRegistered targetAddr o a ↔ SamePorts o a := by
  cases a with
  | startTcpRelay targetPort localPort sock => exact Iff.rfl
  | startUdpRelay targetPort localPort setup => exact Iff.rfl
  | pollTcpListeners env =>
      refine forall_congr' fun l => ?_
      rw [connectsFrom_pollTcpListeners]
      exact connects_iff (h.listeners l)
  | pollUdpSockets env =>
      refine forall_congr' fun l => ?_
      rw [sendsFrom_pollUdpSockets, ← h.bindings l, ← @sends_iff targetAddr,
        Option.map_map]
      rfl
  | connection a haccept => exact Iff.rfl

end Polls

section Runs

/-- One client on the port. -/
def clientOn (localPort : UInt16) : UInt16 → TcpPoll :=
  fun l => ⟨decide (l = localPort), some 5, true, true⟩

end Runs

end WgNx.RelayPorts
