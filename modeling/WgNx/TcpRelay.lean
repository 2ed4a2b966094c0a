import Mathlib.Algebra.GroupWithZero.Nat
import Mathlib.Data.List.AList
import Mathlib.Data.List.Sort
import WgNx.OutputMachine

/-!
TCP connections of the lwIP relay.

Every accepted local connection gets a record and an lwIP pcb, and the record is stored
in a map under the descriptor of the local socket.  lwIP calls back with a bare pointer
to the record; the map, the record and the pcb are each changed by accepts, by callbacks
and by the polling pass of the loop thread.  The record and the pcb that the `n`-th accept
makes both have the number `n`, and so has the local socket behind its descriptor, so that
a number never stands for two things even where a descriptor is used again.
-/

namespace WgNx.TcpRelay

open WgNx.OutputMachine

section Model

/-- `localSock` is `none` where the code has `-1`. -/
structure TcpConnection where
  localSock : Option Nat
  pcb : Option Nat
  localPort : UInt16
  targetPort : UInt16
  pendingData : List UInt8
  connected : Bool

/-- A pcb that lwIP has not freed: its callback argument, whether `onTcpRecv` is
installed, and whether `tcp_close` has been called on it. -/
structure TcpPcb where
  arg : Nat
  recv : Bool
  closing : Bool

/-- `sockets` says which accepted socket an open descriptor stands for. -/
structure Relay where
  tcpConnections : AList fun _ : Nat => Nat
  conns : Nat → TcpConnection
  pcbs : Nat → Option TcpPcb
  sockets : Nat → Option Nat
  next : Nat

def empty : Relay where
  tcpConnections := ∅
  conns _ := ⟨none, none, 0, 0, [], false⟩
  pcbs _ := none
  sockets _ := none
  next := 0

/-- A chain of pbufs; `len` is that of the first one and `tot_len` has sixteen bits. -/
structure Pbuf where
  payload : List UInt8
  rest : List (List UInt8)
  total : (payload ++ rest.flatten).length < 2 ^ 16

def Pbuf.bytes (p : Pbuf) : List UInt8 := p.payload ++ p.rest.flatten

def Pbuf.totLen (p : Pbuf) : Nat := p.bytes.length

/-- What one `recv` into the buffer of 2048 bytes can yield. -/
structure Chunk where
  bytes : List UInt8
  nonempty : bytes ≠ []
  fits : bytes.length ≤ 2048

/-- `closed` is the end of the stream or an error other than `EAGAIN`. -/
inductive LocalRead
  | data (chunk : Chunk)
  | closed
  | again

/-- What `poll` and `recv` say about a descriptor; `hup` stands for `POLLERR` and
`POLLHUP`. -/
inductive PollResult
  | failed
  | idle (hup : Bool)
  | readable (read : LocalRead) (hup : Bool)

structure FdEvents where
  poll : PollResult
  writeOk : Bool

/-- What went through connection `id`: bytes lwIP handed over, bytes the local socket took,
what was acknowledged to lwIP; bytes read from the local socket, bytes `tcp_write` took. -/
inductive Event
  | delivered (id : Nat) (bytes : List UInt8)
  | accepted (id : Nat) (bytes : List UInt8)
  | acked (id : Nat) (len : Nat)
  | received (id : Nat) (bytes : List UInt8)
  | queued (id : Nat) (bytes : List UInt8)
deriving DecidableEq

namespace Relay

variable (s : Relay)

def setConn (id : Nat) (conn : TcpConnection) : Relay :=
  { s with conns := Function.update s.conns id conn }

def setPcb (k : Nat) (pcb : Option TcpPcb) : Relay :=
  { s with pcbs := Function.update s.pcbs k pcb }

def close (fd : Nat) : Relay := { s with sockets := Function.update s.sockets fd none }

def erase (fd : Nat) : Relay := { s with tcpConnections := s.tcpConnections.erase fd }

def lookup (fd : Nat) : Option Nat := s.tcpConnections.lookup fd

/-- The keys of the map in its order. -/
def socks : List Nat := s.tcpConnections.keys.insertionSort (· ≤ ·)

end Relay

def onTcpError (s : Relay) (id : Nat) : Relay := s.setConn id { s.conns id with pcb := none }

/-- lwIP frees the pcb and calls its error callback. -/
def tcpAbort (s : Relay) (k : Nat) : Relay :=
  match s.pcbs k with
  | none => s
  | some pcb => onTcpError (s.setPcb k none) pcb.arg

/-- The record, the pcb and the map entry for a descriptor just accepted. -/
def addConnection (s : Relay) (localPort : UInt16) (fd : Nat) : Relay where
  tcpConnections := s.tcpConnections.insert fd s.next
  conns := Function.update s.conns s.next ⟨some fd, some s.next, localPort, localPort, [], false⟩
  pcbs := Function.update s.pcbs s.next (some ⟨s.next, false, false⟩)
  sockets := Function.update s.sockets fd (some s.next)
  next := s.next + 1

/-- What `pollTcpListeners` does with a client on the listener of `localPort`; `newOk` and
`connectOk` are the results of `tcp_new` and `tcp_connect`. -/
def acceptClient (s : Relay) (localPort : UInt16) (fd : Nat) (newOk connectOk : Bool) : Relay :=
  if !newOk then s
  else if connectOk then addConnection s localPort fd
  else ((tcpAbort (addConnection s localPort fd) s.next).close fd).erase fd

def onTcpConnected (s : Relay) (id k : Nat) (pcb : TcpPcb) (ok : Bool) : Relay :=
  if !ok then s
  else (s.setConn id { s.conns id with connected := true }).setPcb k
    (some { pcb with recv := true })

/-- `send`: the socket behind the descriptor takes the first `sent` bytes. -/
def sendLocal (s : Relay) (sock : Option Nat) (bytes : List UInt8) (sent : Nat) : List Event :=
  match sock.bind s.sockets with
  | none => []
  | some owner => [.accepted owner (bytes.take sent)]

def closeLocal (s : Relay) (id : Nat) : Relay :=
  match (s.conns id).localSock with
  | none => s
  | some fd => (s.close fd).setConn id { s.conns id with localSock := none }

def onTcpRecv (s : Relay) (id k : Nat) (p : Option Pbuf) (ok : Bool) (sent : Nat) :
    Relay × List Event :=
  match p with
  | none => (closeLocal s id, [])
  | some buf =>
      if !ok then (closeLocal s id, [])
      else (s, sendLocal s (s.conns id).localSock buf.payload sent ++ [.acked k buf.totLen])

/-- `tcp_close` on the pcb of a record, which forgets it; lwIP keeps the pcb. -/
def closePcb (s : Relay) (id : Nat) : Relay :=
  match (s.conns id).pcb with
  | none => s
  | some k =>
      (s.setPcb k ((s.pcbs k).map fun pcb => { pcb with closing := true })).setConn id
        { s.conns id with pcb := none }

def tcpWrite (s : Relay) (id : Nat) (chunk : Chunk) (writeOk : Bool) : List Event :=
  match (s.conns id).pcb with
  | none => []
  | some k => if writeOk then [.queued k chunk.bytes] else []

/-- The first loop of `pollTcpConnections` with its local variable. -/
structure Pass where
  relay : Relay
  toRemove : List Nat

/-- The record under a descriptor and the socket behind it, if the pass polls it and the
descriptor is open; a closed one only gives `POLLNVAL`. -/
def pollable (s : Relay) (sock : Nat) : Option (Nat × Nat) :=
  match s.lookup sock, s.sockets sock with
  | some id, some owner => if (s.conns id).connected then some (id, owner) else none
  | _, _ => none

/-- One round of the first loop. -/
def visit (env : Nat → FdEvents) (p : Pass) (sock : Nat) : Pass × List Event :=
  match pollable p.relay sock with
  | none => (p, [])
  | some (id, owner) =>
      match (env sock).poll with
      | .failed => ({ p with toRemove := p.toRemove ++ [sock] }, [])
      | .idle hup => ({ p with toRemove := p.toRemove ++ if hup then [sock] else [] }, [])
      | .readable .again _ => (p, [])
      | .readable .closed _ => (⟨closePcb p.relay id, p.toRemove ++ [sock]⟩, [])
      | .readable (.data chunk) hup =>
          ({ p with toRemove := p.toRemove ++ if hup then [sock] else [] },
            .received owner chunk.bytes :: tcpWrite p.relay id chunk (env sock).writeOk)

/-- One round of the second loop. -/
def removeConnection (s : Relay) (sock : Nat) : Relay :=
  match s.lookup sock with
  | none => s
  | some id =>
      let closed := match (s.conns id).localSock with
        | none => s
        | some fd => s.close fd
      let aborted := match (s.conns id).pcb with
        | none => closed
        | some k => tcpAbort closed k
      aborted.erase sock

def pollTcpConnections (s : Relay) (env : Nat → FdEvents) : Relay × List Event :=
  let visited := run (visit env) ⟨s, []⟩ s.socks
  (visited.1.toRemove.foldl removeConnection visited.1.relay, visited.2)

inductive Action
  | accept (localPort : UInt16) (fd : Nat) (newOk connectOk : Bool)
  | connected (k : Nat) (ok : Bool)
  | recv (k : Nat) (p : Option Pbuf) (ok : Bool) (sent : Nat)
  | error (k : Nat)
  /-- A closed pcb ends; lwIP frees it without a callback. -/
  | finished (k : Nat)
  | poll (env : Nat → FdEvents)

/-- lwIP only calls back for a pcb it has not freed, and `accept` only returns a descriptor
that is not open. -/
def step (s : Relay) : Action → Relay × List Event
  | .accept localPort fd newOk connectOk =>
      (if (s.sockets fd).isSome then s else acceptClient s localPort fd newOk connectOk, [])
  | .connected k ok =>
      match s.pcbs k with
      | none => (s, [])
      | some pcb => (onTcpConnected s pcb.arg k pcb ok, [])
  | .recv k p ok sent =>
      match s.pcbs k with
      | none => (s, [])
      | some pcb =>
          if pcb.recv then
            let out := onTcpRecv s pcb.arg k p ok sent
            (out.1, (p.map fun buf => Event.delivered k buf.bytes).toList ++ out.2)
          else (s, [])
  | .error k => (tcpAbort s k, [])
  | .finished k =>
      match s.pcbs k with
      | none => (s, [])
      | some pcb => (if pcb.closing then s.setPcb k none else s, [])
  | .poll env => pollTcpConnections s env

end Model

section Numbers

theorem pollable_spec {s : Relay} {sock id owner : Nat} (h : pollable s sock = some (id, owner)) :
    s.lookup sock = some id ∧ s.sockets sock = some owner ∧ (s.conns id).connected = true := by
  unfold pollable at h
  split at h
  · rename_i id' owner' hid howner
    split at h
    · rename_i hconnected
      simp only [Option.some.injEq, Prod.mk.injEq] at h
      obtain ⟨rfl, rfl⟩ := h
      exact ⟨hid, howner, hconnected⟩
    · cases h
  · cases h

/-- Numbers are given once: what a pcb, a record, a descriptor and a map entry say about
each other agrees, also where one of them is stale. -/
structure Numbered (s : Relay) : Prop where
  arg : ∀ {k pcb}, s.pcbs k = some pcb → pcb.arg = k ∧ k < s.next
  pcb : ∀ {id k}, (s.conns id).pcb = some k → k = id
  socket : ∀ {fd id}, s.sockets fd = some id → id < s.next
  entry : ∀ {fd id}, s.lookup fd = some id →
    id < s.next ∧ ∀ owner, s.sockets fd = some owner → owner = id
  injective : ∀ {fd fd' id}, s.lookup fd = some id → s.lookup fd' = some id → fd = fd'
  pending : ∀ id, (s.conns id).pendingData = []

theorem numbered_empty : Numbered empty where
  arg h := by cases h
  pcb h := by cases h
  socket h := by cases h
  entry h := by simp [Relay.lookup, empty] at h
  injective h := by simp [Relay.lookup, empty] at h
  pending _ := rfl

variable {s : Relay}

theorem numbered_setConn (h : Numbered s) {id : Nat} {conn : TcpConnection}
    (hpcb : ∀ k, conn.pcb = some k → k = id) (hpending : conn.pendingData = []) :
    Numbered (s.setConn id conn) where
  arg := h.arg
  pcb {j k} hk := by
    by_cases hj : j = id
    · subst hj
      simp only [Relay.setConn, Function.update_self] at hk
      exact hpcb k hk
    · simp only [Relay.setConn, Function.update_of_ne hj] at hk
      exact h.pcb hk
  socket := h.socket
  entry := h.entry
  injective := h.injective
  pending j := by
    by_cases hj : j = id
    · subst hj
      simpa only [Relay.setConn, Function.update_self] using hpending
    · simpa only [Relay.setConn, Function.update_of_ne hj] using h.pending j

theorem numbered_setPcb (h : Numbered s) {k : Nat} {next : Option TcpPcb}
    (hpcb : ∀ pcb, next = some pcb → pcb.arg = k ∧ k < s.next) : Numbered (s.setPcb k next) where
  arg {j pcb} hj := by
    by_cases hjk : j = k
    · subst hjk
      simp only [Relay.setPcb, Function.update_self] at hj
      exact hpcb pcb hj
    · simp only [Relay.setPcb, Function.update_of_ne hjk] at hj
      exact h.arg hj
  pcb := h.pcb
  socket := h.socket
  entry := h.entry
  injective := h.injective
  pending := h.pending

theorem sockets_close {fd fd' owner : Nat} (h : (s.close fd).sockets fd' = some owner) :
    fd' ≠ fd ∧ s.sockets fd' = some owner := by
  by_cases heq : fd' = fd
  · subst heq
    simp [Relay.close] at h
  · simp only [Relay.close, Function.update_of_ne heq] at h
    exact ⟨heq, h⟩

theorem numbered_close (h : Numbered s) (fd : Nat) : Numbered (s.close fd) where
  arg := h.arg
  pcb := h.pcb
  socket hfd := h.socket (sockets_close hfd).2
  entry hfd := ⟨(h.entry hfd).1, fun owner howner =>
    (h.entry hfd).2 owner (sockets_close howner).2⟩
  injective := h.injective
  pending := h.pending

theorem lookup_erase {fd fd' id : Nat} (h : (s.erase fd).lookup fd' = some id) :
    fd' ≠ fd ∧ s.lookup fd' = some id := by
  by_cases heq : fd' = fd
  · subst heq
    simp [Relay.lookup, Relay.erase, AList.lookup_erase] at h
  · simp only [Relay.lookup, Relay.erase, AList.lookup_erase_ne heq] at h
    exact ⟨heq, h⟩

theorem numbered_erase (h : Numbered s) (fd : Nat) : Numbered (s.erase fd) where
  arg := h.arg
  pcb := h.pcb
  socket := h.socket
  entry hfd := h.entry (lookup_erase hfd).2
  injective hfd hfd' := h.injective (lookup_erase hfd).2 (lookup_erase hfd').2
  pending := h.pending

theorem numbered_tcpAbort (h : Numbered s) (k : Nat) : Numbered (tcpAbort s k) := by
  unfold tcpAbort
  split
  · exact h
  · exact numbered_setConn (numbered_setPcb h fun pcb hpcb => by cases hpcb)
      (fun k hk => by cases hk) (h.pending _)

theorem lookup_addConnection {localPort : UInt16} {fd fd' id : Nat}
    (h : (addConnection s localPort fd).lookup fd' = some id) :
    fd' = fd ∧ id = s.next ∨ fd' ≠ fd ∧ s.lookup fd' = some id := by
  by_cases heq : fd' = fd
  · subst heq
    simp only [Relay.lookup, addConnection, AList.lookup_insert, Option.some.injEq] at h
    exact .inl ⟨rfl, h.symm⟩
  · simp only [Relay.lookup, addConnection, AList.lookup_insert_ne heq] at h
    exact .inr ⟨heq, h⟩

theorem numbered_addConnection (h : Numbered s) (localPort : UInt16) (fd : Nat) :
    Numbered (addConnection s localPort fd) where
  arg {k pcb} hk := by
    by_cases heq : k = s.next
    · subst heq
      simp only [addConnection, Function.update_self, Option.some.injEq] at hk
      subst hk
      exact ⟨rfl, Nat.lt_succ_self _⟩
    · simp only [addConnection, Function.update_of_ne heq] at hk
      exact ⟨(h.arg hk).1, Nat.lt_succ_of_lt (h.arg hk).2⟩
  pcb {id k} hk := by
    by_cases heq : id = s.next
    · subst heq
      simp only [addConnection, Function.update_self, Option.some.injEq] at hk
      exact hk.symm
    · simp only [addConnection, Function.update_of_ne heq] at hk
      exact h.pcb hk
  socket {fd' id} hid := by
    by_cases heq : fd' = fd
    · subst heq
      simp only [addConnection, Function.update_self, Option.some.injEq] at hid
      exact hid ▸ Nat.lt_succ_self _
    · simp only [addConnection, Function.update_of_ne heq] at hid
      exact Nat.lt_succ_of_lt (h.socket hid)
  entry {fd' id} hid := by
    rcases lookup_addConnection hid with ⟨rfl, rfl⟩ | ⟨hne, hold⟩
    · refine ⟨Nat.lt_succ_self _, fun owner howner => ?_⟩
      simp only [addConnection, Function.update_self, Option.some.injEq] at howner
      exact howner.symm
    · refine ⟨Nat.lt_succ_of_lt (h.entry hold).1, fun owner howner => ?_⟩
      simp only [addConnection, Function.update_of_ne hne] at howner
      exact (h.entry hold).2 owner howner
  injective {fd₁ fd₂ id} h₁ h₂ := by
    rcases lookup_addConnection h₁ with ⟨rfl, rfl⟩ | ⟨-, hold₁⟩
    · rcases lookup_addConnection h₂ with ⟨rfl, -⟩ | ⟨-, hold₂⟩
      · rfl
      · exact absurd (h.entry hold₂).1 (Nat.lt_irrefl _)
    · rcases lookup_addConnection h₂ with ⟨rfl, rfl⟩ | ⟨-, hold₂⟩
      · exact absurd (h.entry hold₁).1 (Nat.lt_irrefl _)
      · exact h.injective hold₁ hold₂
  pending id := by
    by_cases heq : id = s.next
    · subst heq
      simp [addConnection]
    · simpa only [addConnection, Function.update_of_ne heq] using h.pending id

theorem numbered_closeLocal (h : Numbered s) (id : Nat) : Numbered (closeLocal s id) := by
  unfold closeLocal
  split
  · exact h
  · exact numbered_setConn (numbered_close h _) (fun k hk => h.pcb hk) (h.pending id)

theorem numbered_closePcb (h : Numbered s) (id : Nat) : Numbered (closePcb s id) := by
  unfold closePcb
  split
  · exact h
  · rename_i k hk
    refine numbered_setConn (numbered_setPcb h fun pcb hpcb => ?_) (fun k hk => by cases hk)
      (h.pending id)
    obtain ⟨old, hold, rfl⟩ := Option.map_eq_some_iff.mp hpcb
    obtain ⟨harg, hlt⟩ := h.arg hold
    exact ⟨harg, hlt⟩

/-- A round of the first loop leaves the relay alone or closes the pcb of a record. -/
theorem visit_relay_cases (env : Nat → FdEvents) (p : Pass) (sock : Nat) :
    (visit env p sock).1.relay = p.relay ∨
      ∃ id owner hup, pollable p.relay sock = some (id, owner) ∧
        (env sock).poll = .readable .closed hup ∧
        (visit env p sock).1 = ⟨closePcb p.relay id, p.toRemove ++ [sock]⟩ := by
  unfold visit
  split
  · exact .inl rfl
  · rename_i id owner hpoll
    split
    · exact .inl rfl
    · exact .inl rfl
    · exact .inl rfl
    · rename_i hup hread
      exact .inr ⟨id, owner, hup, hpoll, hread, rfl⟩
    · exact .inl rfl

theorem numbered_visit (env : Nat → FdEvents) (p : Pass) (sock : Nat) (h : Numbered p.relay) :
    Numbered (visit env p sock).1.relay := by
  rcases visit_relay_cases env p sock with hsame | ⟨id, owner, hup, -, -, hclosed⟩
  · rw [hsame]
    exact h
  · rw [hclosed]
    exact numbered_closePcb h id

/-- What closing a socket, aborting the pcb of the record and erasing the entry keep, a
round of the second loop keeps. -/
theorem removeConnection_rule {P : Relay → Prop} {sock : Nat} (hstart : P s)
    (hclose : ∀ t fd, P t → P (t.close fd))
    (habort : ∀ t id k, s.lookup sock = some id → (s.conns id).pcb = some k → P t →
      P (tcpAbort t k))
    (herase : ∀ t, P t → P (t.erase sock)) : P (removeConnection s sock) := by
  unfold removeConnection
  split
  · exact hstart
  · rename_i id hid
    have hclosed : P (match (s.conns id).localSock with
        | none => s
        | some fd => s.close fd) := by
      split
      · exact hstart
      · exact hclose s _ hstart
    apply herase
    cases hk : (s.conns id).pcb with
    | none => exact hclosed
    | some k => exact habort _ id k hid hk hclosed

theorem numbered_removeConnection (h : Numbered s) (sock : Nat) :
    Numbered (removeConnection s sock) :=
  removeConnection_rule h (fun _ fd ht => numbered_close ht fd)
    (fun _ _ k _ _ ht => numbered_tcpAbort ht k) fun _ ht => numbered_erase ht sock

/-- The state after the first loop of a pass. -/
theorem numbered_visits (h : Numbered s) (env : Nat → FdEvents) (socks : List Nat) :
    Numbered (run (visit env) ⟨s, []⟩ socks).1.relay :=
  AllStates.last (AllStates.of_invariant (numbered_visit env) (fun _ h => h) h socks)

theorem numbered_step (s : Relay) (a : Action) (h : Numbered s) : Numbered (step s a).1 := by
  cases a with
  | accept localPort fd newOk connectOk =>
      simp only [step, acceptClient]
      have hadded := numbered_addConnection h localPort fd
      split
      · exact h
      · split
        · exact h
        · split
          · exact hadded
          · exact numbered_erase (numbered_close (numbered_tcpAbort hadded s.next) fd) fd
  | connected k ok =>
      simp only [step]
      split
      · exact h
      · rename_i pcb hpcb
        unfold onTcpConnected
        split
        · exact h
        · refine numbered_setPcb (numbered_setConn h ?_ ?_) ?_
          · exact fun k hk => h.pcb hk
          · exact h.pending _
          · rintro - ⟨⟩
            obtain ⟨harg, hlt⟩ := h.arg hpcb
            exact ⟨harg, hlt⟩
  | recv k p ok sent =>
      simp only [step]
      split
      · exact h
      · split
        · unfold onTcpRecv
          split
          · exact numbered_closeLocal h _
          · split
            · exact numbered_closeLocal h _
            · exact h
        · exact h
  | error k => exact numbered_tcpAbort h k
  | finished k =>
      simp only [step]
      split
      · exact h
      · split
        · exact numbered_setPcb h fun pcb hpcb => by cases hpcb
        · exact h
  | poll env =>
      exact List.foldlRecOn _ _ (numbered_visits h env s.socks)
        fun t ht sock _ => numbered_removeConnection ht sock

end Numbers

end WgNx.TcpRelay
