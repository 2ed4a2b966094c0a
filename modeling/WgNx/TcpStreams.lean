import WgNx.TcpRelay

/-!
What arrives of the bytes of a connection, in either direction.

Towards the local socket the relay sends the first pbuf of a chain, drops the result of
`send` and acknowledges the whole chain.  Towards the tunnel it hands each read to
`tcp_write` and drops it where that fails.  Both streams are intact exactly as long as
neither ever happens to matter.
-/

namespace WgNx.TcpStreams

open WgNx.OutputMachine WgNx.TcpRelay

section Streams

def delivered (id : Nat) (log : List Event) : List UInt8 :=
  log.flatMap fun
    | .delivered j bytes => if j = id then bytes else []
    | _ => []

def accepted (id : Nat) (log : List Event) : List UInt8 :=
  log.flatMap fun
    | .accepted j bytes => if j = id then bytes else []
    | _ => []

def acked (id : Nat) (log : List Event) : Nat :=
  (log.map fun
    | .acked j len => if j = id then len else 0
    | _ => 0).sum

def received (id : Nat) (log : List Event) : List UInt8 :=
  log.flatMap fun
    | .received j bytes => if j = id then bytes else []
    | _ => []

def queued (id : Nat) (log : List Event) : List UInt8 :=
  log.flatMap fun
    | .queued j bytes => if j = id then bytes else []
    | _ => []

variable (id : Nat) (log log' : List Event)

@[simp] theorem delivered_append :
    delivered id (log ++ log') = delivered id log ++ delivered id log' := List.flatMap_append

@[simp] theorem accepted_append :
    accepted id (log ++ log') = accepted id log ++ accepted id log' := List.flatMap_append

@[simp] theorem acked_append : acked id (log ++ log') = acked id log + acked id log' := by
  rw [acked, List.map_append, List.sum_append]
  rfl

@[simp] theorem received_append :
    received id (log ++ log') = received id log ++ received id log' := List.flatMap_append

@[simp] theorem queued_append :
    queued id (log ++ log') = queued id log ++ queued id log' := List.flatMap_append

end Streams

section Properties

/-- Tunnel to local: the local socket has taken a prefix of what lwIP has handed over, and
no more has been acknowledged than it has taken. -/
def LocalIntact (o : Relay × List Event) : Prop :=
  ∀ id, accepted id o.2 <+: delivered id o.2 ∧ acked id o.2 ≤ (accepted id o.2).length

/-- Local to tunnel: what has been read is what has been queued and, behind it, what the
record keeps. -/
def TunnelIntact (o : Relay × List Event) : Prop :=
  ∀ id, received id o.2 = queued id o.2 ++ (o.1.conns id).pendingData

/-- The local socket takes every byte of the chains that `onTcpRecv` sends it. -/
def SendsAll (s : Relay) : Action → Prop
  | .recv k (some buf) true sent =>
      ∀ pcb, s.pcbs k = some pcb → pcb.recv = true →
        accepted k (sendLocal s (s.conns k).localSock buf.payload sent) = buf.bytes
  | _ => True

/-- A round of the pass that reads finds a pcb and a successful `tcp_write`. -/
def QueuesRead (env : Nat → FdEvents) (p : Pass) (sock : Nat) : Prop :=
  ∀ id owner chunk hup, pollable p.relay sock = some (id, owner) →
    (env sock).poll = .readable (.data chunk) hup →
    (p.relay.conns id).pcb.isSome = true ∧ (env sock).writeOk = true

def QueuesAll (s : Relay) : Action → Prop
  | .poll env => AllSteps (visit env) (QueuesRead env) ⟨s, []⟩ s.socks
  | _ => True

end Properties

section ToTunnel

variable {env : Nat → FdEvents} {p : Pass} {sock : Nat}

/-- The events of one round: nothing is read, a chunk is read and queued, or a chunk is
read and lost. -/
inductive RoundEvents (env : Nat → FdEvents) (p : Pass) (sock : Nat) : List Event → Prop
  | quiet (h : QueuesRead env p sock) : RoundEvents env p sock []
  | queued (id : Nat) (chunk : Chunk) (h : QueuesRead env p sock) :
      RoundEvents env p sock [.received id chunk.bytes, .queued id chunk.bytes]
  | lost (id : Nat) (chunk : Chunk) (h : ¬ QueuesRead env p sock) :
      RoundEvents env p sock [.received id chunk.bytes]

/-- A round that does not read queues all it reads. -/
theorem queuesRead_of_no_data
    (h : ∀ chunk hup, (env sock).poll ≠ .readable (.data chunk) hup) : QueuesRead env p sock :=
  fun _ _ chunk hup _ hread => absurd hread (h chunk hup)

theorem roundEvents_visit (env : Nat → FdEvents) (sock : Nat) (h : Numbered p.relay) :
    RoundEvents env p sock (visit env p sock).2 := by
  unfold visit
  split
  · rename_i hnone
    refine .quiet fun id owner chunk hup hpoll _ => ?_
    rw [hnone] at hpoll
    cases hpoll
  · rename_i id owner hpoll
    obtain ⟨hid, howner, -⟩ := pollable_spec hpoll
    obtain rfl := (h.entry hid).2 owner howner
    split
    · rename_i hresult
      exact .quiet (queuesRead_of_no_data fun _ _ => by rw [hresult]; exact PollResult.noConfusion)
    · rename_i hup hresult
      exact .quiet (queuesRead_of_no_data fun _ _ => by rw [hresult]; exact PollResult.noConfusion)
    · rename_i hup hresult
      exact .quiet (queuesRead_of_no_data fun _ _ => by simp [hresult])
    · rename_i hup hresult
      exact .quiet (queuesRead_of_no_data fun _ _ => by simp [hresult])
    · rename_i chunk hup hresult
      have hiff : QueuesRead env p sock ↔
          (p.relay.conns owner).pcb.isSome = true ∧ (env sock).writeOk = true := by
        constructor
        · intro hqueues
          exact hqueues owner owner chunk hup hpoll hresult
        · rintro hboth id' owner' chunk' hup' hpoll' -
          rw [hpoll] at hpoll'
          cases hpoll'
          exact hboth
      dsimp only
      unfold tcpWrite
      split
      · rename_i hnone
        refine .lost owner chunk fun hqueues => ?_
        have hsome := (hiff.mp hqueues).1
        rw [hnone] at hsome
        cases hsome
      · rename_i k hk
        obtain rfl := h.pcb hk
        split
        · rename_i hwrite
          exact .queued k chunk (hiff.mpr ⟨by rw [hk]; rfl, hwrite⟩)
        · rename_i hwrite
          exact .lost k chunk fun hqueues => hwrite (hiff.mp hqueues).2

/-- No more is queued than is read. -/
theorem queued_length_le (env : Nat → FdEvents) (h : Numbered p.relay) (socks : List Nat)
    (id : Nat) :
    (queued id (run (visit env) p socks).2).length ≤
      (received id (run (visit env) p socks).2).length := by
  induction socks generalizing p with
  | nil => exact Nat.le_refl 0
  | cons sock rest ih =>
      have hrest := ih (numbered_visit env p sock h)
      have hround := roundEvents_visit env sock h
      rw [run_cons_outputs, queued_append, received_append, List.length_append,
        List.length_append]
      generalize (visit env p sock).2 = events at hround
      refine Nat.add_le_add ?_ hrest
      cases hround with
      | quiet hqueues => exact Nat.le_refl 0
      | queued j chunk hqueues => simp [queued, received]
      | lost j chunk hlost => simp [queued]

/-- All that a pass reads is queued exactly if every round queues what it reads. -/
theorem visits_intact_iff (h : Numbered p.relay) (socks : List Nat) :
    (∀ id, received id (run (visit env) p socks).2 = queued id (run (visit env) p socks).2) ↔
      AllSteps (visit env) (QueuesRead env) p socks := by
  induction socks generalizing p with
  | nil => exact iff_of_true (fun _ => rfl) trivial
  | cons sock rest ih =>
      have hnext := numbered_visit env p sock h
      have hshort := queued_length_le env hnext rest
      have hround := roundEvents_visit env sock h
      simp only [run_cons_outputs, received_append, queued_append, AllSteps, ← ih hnext]
      generalize (visit env p sock).2 = events at hround
      cases hround with
      | quiet hqueues => exact (and_iff_right hqueues).symm
      | queued j chunk hqueues =>
          have hsame : ∀ id, received id [.received j chunk.bytes, .queued j chunk.bytes] =
              queued id [.received j chunk.bytes, .queued j chunk.bytes] := fun id => by
            simp [received, queued]
          simp only [hsame, List.append_cancel_left_eq]
          exact (and_iff_right hqueues).symm
      | lost j chunk hlost =>
          -- what is lost here cannot be made up for by a later round
          refine iff_of_false (fun hall => ?_) fun hboth => hlost hboth.1
          have hlength := congrArg List.length (hall j)
          have hpos := List.length_pos_of_ne_nil chunk.nonempty
          have hrest := hshort j
          simp only [List.length_append] at hlength
          simp only [received, queued, List.flatMap_cons, List.flatMap_nil, if_true,
            List.append_nil, List.length_nil] at hlength hrest
          omega

/-- Only the pass reads and queues. -/
theorem recv_reads_nothing (s : Relay) (k : Nat) (q : Option Pbuf) (ok : Bool) (sent id : Nat) :
    received id (step s (.recv k q ok sent)).2 = [] ∧
      queued id (step s (.recv k q ok sent)).2 = [] := by
  have hsend : ∀ sock bytes, received id (sendLocal s sock bytes sent) = [] ∧
      queued id (sendLocal s sock bytes sent) = [] := by
    intro sock bytes
    unfold sendLocal
    split <;> exact ⟨rfl, rfl⟩
  simp only [step]
  split
  · exact ⟨rfl, rfl⟩
  · split
    · cases q with
      | none => exact ⟨rfl, rfl⟩
      | some buf =>
          unfold onTcpRecv
          dsimp only
          split
          · exact ⟨rfl, rfl⟩
          · simp only [received_append, queued_append, hsend]
            exact ⟨rfl, rfl⟩
    · exact ⟨rfl, rfl⟩

theorem step_intact_iff {s : Relay} (h : Numbered s) (a : Action) :
    (∀ id, received id (step s a).2 = queued id (step s a).2) ↔ QueuesAll s a := by
  cases a with
  | poll env => exact visits_intact_iff (p := ⟨s, []⟩) h s.socks
  | accept localPort fd newOk connectOk => exact iff_of_true (fun _ => rfl) trivial
  | connected k ok =>
      refine iff_of_true (fun id => ?_) trivial
      simp only [step]
      split <;> rfl
  | recv k q ok sent =>
      refine iff_of_true (fun id => ?_) trivial
      obtain ⟨hreceived, hqueued⟩ := recv_reads_nothing s k q ok sent id
      exact hreceived.trans hqueued.symm
  | error k => exact iff_of_true (fun _ => rfl) trivial
  | finished k =>
      refine iff_of_true (fun id => ?_) trivial
      simp only [step]
      split <;> rfl

theorem tunnelIntact_iff {s : Relay} (h : Numbered s) (log : List Event) :
    TunnelIntact (s, log) ↔ ∀ id, received id log = queued id log := by
  refine forall_congr' fun id => ?_
  rw [h.pending id, List.append_nil]

theorem tunnelIntact_step_iff {s : Relay} (h : Numbered s) {log : List Event}
    (hlog : TunnelIntact (s, log)) (a : Action) :
    TunnelIntact (logged step (s, log) a).1 ↔ QueuesAll s a := by
  rw [logged_state, tunnelIntact_iff (numbered_step s a h), ← step_intact_iff h a]
  refine forall_congr' fun id => ?_
  rw [received_append, queued_append, (tunnelIntact_iff h log).mp hlog id,
    List.append_cancel_left_eq]

/-- The local client of descriptor 5 sends two bytes. -/
def twoBytes : Chunk := ⟨[104, 105], by decide, by decide⟩

end ToTunnel

section LocalSockets

variable {s : Relay}

/-- No record is added and none gets another socket. -/
structure SameSocks (s t : Relay) : Prop where
  next : t.next = s.next
  localSock : ∀ id, (t.conns id).localSock = (s.conns id).localSock

theorem SameSocks.refl (s : Relay) : SameSocks s s := ⟨rfl, fun _ => rfl⟩

theorem SameSocks.trans {t u : Relay} (h : SameSocks s t) (h' : SameSocks t u) :
    SameSocks s u :=
  ⟨h'.next.trans h.next, fun id => (h'.localSock id).trans (h.localSock id)⟩

theorem sameSocks_setConn {j : Nat} {conn : TcpConnection}
    (h : conn.localSock = (s.conns j).localSock) : SameSocks s (s.setConn j conn) := by
  refine ⟨rfl, fun id => ?_⟩
  by_cases heq : id = j
  · subst heq
    simpa [Relay.setConn] using h
  · simp [Relay.setConn, heq]

theorem sameSocks_setPcb (s : Relay) (k : Nat) (pcb : Option TcpPcb) :
    SameSocks s (s.setPcb k pcb) := ⟨rfl, fun _ => rfl⟩

theorem sameSocks_tcpAbort (s : Relay) (k : Nat) : SameSocks s (tcpAbort s k) := by
  unfold tcpAbort
  split
  · exact .refl s
  · refine (sameSocks_setPcb s k none).trans (sameSocks_setConn ?_)
    rfl

theorem sameSocks_closePcb (s : Relay) (id : Nat) : SameSocks s (closePcb s id) := by
  unfold closePcb
  split
  · exact .refl s
  · refine (sameSocks_setPcb s _ _).trans (sameSocks_setConn ?_)
    rfl

theorem sameSocks_visits (env : Nat → FdEvents) (p : Pass) (socks : List Nat) :
    SameSocks p.relay (run (visit env) p socks).1.relay := by
  induction socks generalizing p with
  | nil => exact .refl _
  | cons sock rest ih =>
      refine SameSocks.trans ?_ (ih (visit env p sock).1)
      rcases visit_relay_cases env p sock with hsame | ⟨id, owner, hup, -, -, hclosed⟩
      · rw [hsame]
        exact .refl _
      · rw [hclosed]
        exact sameSocks_closePcb p.relay id

theorem sameSocks_removeConnection (s : Relay) (sock : Nat) :
    SameSocks s (removeConnection s sock) :=
  removeConnection_rule (P := SameSocks s) (.refl s)
    (fun _ _ ht => ⟨ht.next, ht.localSock⟩)
    (fun t _ k _ _ ht => ht.trans (sameSocks_tcpAbort t k)) fun _ ht => ⟨ht.next, ht.localSock⟩

theorem sameSocks_pollTcpConnections (s : Relay) (env : Nat → FdEvents) :
    SameSocks s (pollTcpConnections s env).1 :=
  List.foldlRecOn _ _ (sameSocks_visits env ⟨s, []⟩ s.socks)
    fun t ht sock _ => ht.trans (sameSocks_removeConnection t sock)

theorem localSock_closeLocal (s : Relay) (k : Nat) :
    ((closeLocal s k).conns k).localSock = none ∧
      ∀ id, (s.conns id).localSock = none → ((closeLocal s k).conns id).localSock = none := by
  cases hsock : (s.conns k).localSock with
  | none =>
      have hsame : closeLocal s k = s := by
        simp only [closeLocal, hsock]
      rw [hsame]
      exact ⟨hsock, fun _ hid => hid⟩
  | some fd =>
      simp only [closeLocal, hsock, Relay.setConn, Relay.close]
      refine ⟨by simp, fun id hid => ?_⟩
      by_cases heq : id = k
      · subst heq
        simp
      · simpa [Function.update_of_ne heq] using hid

/-- What a step can do to the sockets of the records. -/
inductive SocksCase (s t : Relay) : Prop
  | same (h : SameSocks s t)
  | closed (hnext : t.next = s.next)
      (h : ∀ id, (s.conns id).localSock = none → (t.conns id).localSock = none)
  | added (hnext : t.next = s.next + 1)
      (h : ∀ id, id < s.next → (t.conns id).localSock = (s.conns id).localSock)

theorem socksCase_closeLocal (s : Relay) (k : Nat) : SocksCase s (closeLocal s k) := by
  refine .closed ?_ (localSock_closeLocal s k).2
  unfold closeLocal
  split <;> rfl

theorem socksCase_acceptClient (s : Relay) (localPort : UInt16) (fd : Nat)
    (newOk connectOk : Bool) : SocksCase s (acceptClient s localPort fd newOk connectOk) := by
  have hadded : ∀ id, id < s.next →
      ((addConnection s localPort fd).conns id).localSock = (s.conns id).localSock := by
    intro id hid
    simp [addConnection, Nat.ne_of_lt hid]
  have habort := sameSocks_tcpAbort (addConnection s localPort fd) s.next
  unfold acceptClient
  split
  · exact .same (.refl s)
  · split
    · exact .added rfl hadded
    · exact .added habort.next fun id hid => (habort.localSock id).trans (hadded id hid)

theorem socksCase_step (s : Relay) (a : Action) : SocksCase s (step s a).1 := by
  cases a with
  | accept localPort fd newOk connectOk =>
      simp only [step]
      split
      · exact .same (.refl s)
      · exact socksCase_acceptClient s localPort fd newOk connectOk
  | connected k ok =>
      simp only [step]
      split
      · exact .same (.refl s)
      · unfold onTcpConnected
        split
        · exact .same (.refl s)
        · refine .same ((sameSocks_setConn ?_).trans (sameSocks_setPcb _ _ _))
          rfl
  | recv k q ok sent =>
      simp only [step]
      split
      · exact .same (.refl s)
      · split
        · unfold onTcpRecv
          split
          · exact socksCase_closeLocal s _
          · split
            · exact socksCase_closeLocal s _
            · exact .same (.refl s)
        · exact .same (.refl s)
  | error k => exact .same (sameSocks_tcpAbort s k)
  | finished k =>
      simp only [step]
      split
      · exact .same (.refl s)
      · split
        · exact .same (sameSocks_setPcb s k none)
        · exact .same (.refl s)
  | poll env => exact .same (sameSocks_pollTcpConnections s env)

/-- A record whose socket is closed never gets another one. -/
theorem localSock_step {id : Nat} (hid : id < s.next) (hsock : (s.conns id).localSock = none)
    (a : Action) : ((step s a).1.conns id).localSock = none := by
  rcases socksCase_step s a with hsame | ⟨-, hclosed⟩ | ⟨-, hadded⟩
  · exact (hsame.localSock id).trans hsock
  · exact hclosed id hsock
  · exact (hadded id hid).trans hsock

theorem next_le_step (s : Relay) (a : Action) : s.next ≤ (step s a).1.next := by
  rcases socksCase_step s a with hsame | ⟨hnext, -⟩ | ⟨hnext, -⟩
  · exact Nat.le_of_eq hsame.next.symm
  · exact Nat.le_of_eq hnext.symm
  · exact Nat.le_of_lt (Nat.lt_of_lt_of_eq (Nat.lt_succ_self _) hnext.symm)

end LocalSockets

section ToLocal

variable {s : Relay}

theorem accepted_sendLocal_prefix (s : Relay) (sock : Option Nat) (buf : Pbuf) (sent id : Nat) :
    accepted id (sendLocal s sock buf.payload sent) <+: buf.bytes := by
  unfold sendLocal
  split
  · exact List.nil_prefix
  · rename_i owner howner
    simp only [accepted, List.flatMap_cons, List.flatMap_nil, List.append_nil]
    split
    · exact (List.take_prefix _ _).trans (List.prefix_append _ _)
    · exact List.nil_prefix

/-- Where the socket of `k` takes everything, no other socket takes anything. -/
theorem accepted_sendLocal_other {sock : Option Nat} {buf : Pbuf} {sent k id : Nat}
    (h : accepted k (sendLocal s sock buf.payload sent) = buf.bytes) (hne : id ≠ k) :
    accepted id (sendLocal s sock buf.payload sent) = [] := by
  unfold sendLocal at h ⊢
  split
  · rfl
  · rename_i owner howner
    simp only [howner, accepted, List.flatMap_cons, List.flatMap_nil, List.append_nil] at h ⊢
    split
    · rename_i hid
      subst hid
      rw [if_neg hne] at h
      have hpayload : buf.payload = [] := (List.append_eq_nil_iff.mp h.symm).1
      rw [hpayload, List.take_nil]
    · rfl

/-- Only `onTcpRecv` moves bytes towards the local side. -/
def Quiet (events : List Event) : Prop :=
  ∀ id, delivered id events = [] ∧ accepted id events = [] ∧ acked id events = 0

theorem quiet_visits {env : Nat → FdEvents} {p : Pass} (h : Numbered p.relay)
    (socks : List Nat) : Quiet (run (visit env) p socks).2 := by
  intro id
  induction socks generalizing p with
  | nil => exact ⟨rfl, rfl, rfl⟩
  | cons sock rest ih =>
      have hrest := ih (numbered_visit env p sock h)
      have hround := roundEvents_visit env sock h
      rw [run_cons_outputs]
      generalize (visit env p sock).2 = events at hround
      simp only [delivered_append, accepted_append, acked_append, hrest]
      cases hround <;> exact ⟨rfl, rfl, rfl⟩

/-- What has been lost of a stream was lost when its local socket was closed. -/
structure Flowing (o : Relay × List Event) : Prop where
  numbered : Numbered o.1
  taken : ∀ id, accepted id o.2 <+: delivered id o.2
  acks : ∀ id, acked id o.2 = (accepted id o.2).length
  whole : ∀ id, accepted id o.2 = delivered id o.2 ∨ (o.1.conns id).localSock = none
  fresh : ∀ id, o.1.next ≤ id → delivered id o.2 = []

theorem flowing_empty : Flowing (empty, []) where
  numbered := numbered_empty
  taken _ := List.prefix_refl []
  acks _ := rfl
  whole _ := .inl rfl
  fresh _ _ := rfl

theorem localIntact_of_flowing {o : Relay × List Event} (h : Flowing o) : LocalIntact o :=
  fun id => ⟨h.taken id, Nat.le_of_eq (h.acks id)⟩

/-- A step that hands over nothing. -/
theorem flowing_of_quiet {log : List Event} (h : Flowing (s, log)) {a : Action}
    (hquiet : Quiet (step s a).2) : Flowing (logged step (s, log) a).1 := by
  rw [logged_state]
  have hdelivered : ∀ id, delivered id (log ++ (step s a).2) = delivered id log := fun id => by
    rw [delivered_append, (hquiet id).1, List.append_nil]
  have haccepted : ∀ id, accepted id (log ++ (step s a).2) = accepted id log := fun id => by
    rw [accepted_append, (hquiet id).2.1, List.append_nil]
  refine ⟨numbered_step s a h.numbered, fun id => ?_, fun id => ?_, fun id => ?_,
    fun id hid => ?_⟩
  · rw [hdelivered, haccepted]
    exact h.taken id
  · rw [haccepted, acked_append, (hquiet id).2.2]
    exact h.acks id
  · rw [hdelivered, haccepted]
    rcases Nat.lt_or_ge id s.next with hlt | hge
    · exact (h.whole id).imp_right fun hsock => localSock_step hlt hsock a
    · left
      have hnone := h.fresh id hge
      have htaken := h.taken id
      rw [hnone] at htaken ⊢
      exact List.prefix_nil.mp htaken
  · rw [hdelivered]
    exact h.fresh id (Nat.le_trans (next_le_step s a) hid)

/-- What a chain handed to `onTcpRecv` does. -/
theorem step_recv_data (h : Numbered s) {k sent : Nat} {pcb : TcpPcb} {buf : Pbuf}
    (hpcb : s.pcbs k = some pcb) (hrecv : pcb.recv = true) :
    step s (.recv k (some buf) true sent) =
      (s, .delivered k buf.bytes ::
        (sendLocal s (s.conns k).localSock buf.payload sent ++ [.acked k buf.totLen])) := by
  simp only [step, hpcb, hrecv, if_true, onTcpRecv, Bool.not_true, Bool.false_eq_true, if_false,
    (h.arg hpcb).1]
  rfl

theorem streams_recv_data (s : Relay) (k sent id : Nat) (buf : Pbuf) :
    let events := Event.delivered k buf.bytes ::
      (sendLocal s (s.conns k).localSock buf.payload sent ++ [.acked k buf.totLen])
    delivered id events = (if k = id then buf.bytes else []) ∧
      accepted id events = accepted id (sendLocal s (s.conns k).localSock buf.payload sent) ∧
      acked id events = if k = id then buf.totLen else 0 := by
  intro events
  have hsend : delivered id (sendLocal s (s.conns k).localSock buf.payload sent) = [] ∧
      acked id (sendLocal s (s.conns k).localSock buf.payload sent) = 0 := by
    unfold sendLocal
    split <;> exact ⟨rfl, rfl⟩
  have hsplit : events = [.delivered k buf.bytes] ++
      (sendLocal s (s.conns k).localSock buf.payload sent ++ [.acked k buf.totLen]) := rfl
  rw [hsplit]
  simp only [delivered_append, accepted_append, acked_append, hsend]
  simp [delivered, accepted, acked]

theorem flowing_recv_data {log : List Event} (h : Flowing (s, log)) {k sent : Nat}
    {pcb : TcpPcb} {buf : Pbuf} (hpcb : s.pcbs k = some pcb) (hrecv : pcb.recv = true)
    (hall : accepted k (sendLocal s (s.conns k).localSock buf.payload sent) = buf.bytes) :
    Flowing (logged step (s, log) (.recv k (some buf) true sent)).1 := by
  rw [logged_state, step_recv_data h.numbered hpcb hrecv]
  have hstreams := fun id => streams_recv_data s k sent id buf
  have haccepted : ∀ id, accepted id (sendLocal s (s.conns k).localSock buf.payload sent) =
      if k = id then buf.bytes else [] := by
    intro id
    split
    · rename_i heq
      rw [← heq]
      exact hall
    · rename_i hne
      exact accepted_sendLocal_other hall fun heq => hne heq.symm
  have hacked : ∀ id, acked id (Event.delivered k buf.bytes ::
      (sendLocal s (s.conns k).localSock buf.payload sent ++ [.acked k buf.totLen])) =
        (if k = id then buf.bytes else []).length := by
    intro id
    rw [(hstreams id).2.2]
    split <;> rfl
  -- where the socket is closed there was nothing to hand over
  have hwhole : ∀ id, accepted id log = delivered id log ∨
      (s.conns id).localSock = none ∧ (if k = id then buf.bytes else []) = [] := by
    intro id
    refine (h.whole id).imp_right fun hsock => ⟨hsock, ?_⟩
    split
    · rename_i heq
      rw [← hall, heq, show (s.conns id).localSock = none from hsock]
      rfl
    · rfl
  refine ⟨h.numbered, fun id => ?_, fun id => ?_, fun id => ?_, fun id hid => ?_⟩
  · rw [delivered_append, accepted_append, (hstreams id).1, (hstreams id).2.1, haccepted]
    rcases hwhole id with hsame | ⟨-, hnone⟩
    · exact hsame ▸ List.prefix_refl _
    · rw [hnone, List.append_nil, List.append_nil]
      exact h.taken id
  · rw [acked_append, accepted_append, (hstreams id).2.1, haccepted, hacked,
      List.length_append]
    exact congrArg (· + _) (h.acks id)
  · rw [delivered_append, accepted_append, (hstreams id).1, (hstreams id).2.1, haccepted]
    rcases hwhole id with hsame | ⟨hsock, -⟩
    · exact .inl (by rw [hsame])
    · exact .inr hsock
  · have hlt := (h.numbered.arg hpcb).2
    have hne : k ≠ id := fun heq => Nat.not_le.mpr (heq ▸ hlt) hid
    rw [delivered_append, (hstreams id).1, if_neg hne, List.append_nil]
    exact h.fresh id hid

/-- lwIP reports the end or an error: what it hands over with it is lost, and nothing is
taken or acknowledged after it. -/
theorem flowing_closed {log events : List Event} (h : Flowing (s, log)) {k : Nat} {pcb : TcpPcb}
    (hpcb : s.pcbs k = some pcb) (hother : ∀ id, id ≠ k → delivered id events = [])
    (hnone : ∀ id, accepted id events = [] ∧ acked id events = 0) :
    Flowing (closeLocal s k, log ++ events) := by
  obtain ⟨hself, hkept⟩ := localSock_closeLocal s k
  have hnext : (closeLocal s k).next = s.next := by
    unfold closeLocal
    split <;> rfl
  refine ⟨numbered_closeLocal h.numbered k, fun id => ?_, fun id => ?_, fun id => ?_,
    fun id hid => ?_⟩
  · rw [delivered_append, accepted_append, (hnone id).1, List.append_nil]
    exact (h.taken id).trans (List.prefix_append _ _)
  · rw [acked_append, accepted_append, (hnone id).1, (hnone id).2, List.append_nil]
    exact h.acks id
  · by_cases heq : id = k
    · subst heq
      exact .inr hself
    · rw [delivered_append, accepted_append, (hnone id).1, hother id heq, List.append_nil,
        List.append_nil]
      exact (h.whole id).imp_right (hkept id)
  · rw [hnext] at hid
    have hlt := (h.numbered.arg hpcb).2
    have hne : id ≠ k := fun heq => Nat.not_le.mpr (heq ▸ hlt) hid
    rw [delivered_append, hother id hne, List.append_nil]
    exact h.fresh id hid

theorem flowing_recv {log : List Event} (h : Flowing (s, log)) (k : Nat) (q : Option Pbuf)
    (ok : Bool) (sent : Nat) (hall : SendsAll s (.recv k q ok sent)) :
    Flowing (logged step (s, log) (.recv k q ok sent)).1 := by
  cases hpcb : s.pcbs k with
  | none =>
      apply flowing_of_quiet h
      simp only [step, hpcb]
      exact fun _ => ⟨rfl, rfl, rfl⟩
  | some pcb =>
      cases hrecv : pcb.recv with
      | false =>
          apply flowing_of_quiet h
          simp only [step, hpcb, hrecv, Bool.false_eq_true, if_false]
          exact fun _ => ⟨rfl, rfl, rfl⟩
      | true =>
          have harg := (h.numbered.arg hpcb).1
          cases q with
          | none =>
              rw [logged_state]
              simp only [step, hpcb, hrecv, if_true, harg]
              exact flowing_closed h hpcb (fun _ _ => rfl) fun _ => ⟨rfl, rfl⟩
          | some buf =>
              cases ok with
              | true => exact flowing_recv_data h hpcb hrecv (hall pcb hpcb hrecv)
              | false =>
                  rw [logged_state]
                  simp only [step, hpcb, hrecv, if_true, harg]
                  refine flowing_closed h hpcb (fun id hne => ?_) fun _ => ⟨rfl, rfl⟩
                  simp [onTcpRecv, delivered, hne.symm]

theorem flowing_step {log : List Event} (h : Flowing (s, log)) (a : Action)
    (hall : SendsAll s a) : Flowing (logged step (s, log) a).1 := by
  cases a with
  | recv k q ok sent => exact flowing_recv h k q ok sent hall
  | accept localPort fd newOk connectOk =>
      exact flowing_of_quiet h fun _ => ⟨rfl, rfl, rfl⟩
  | connected k ok =>
      apply flowing_of_quiet h
      simp only [step]
      split <;> exact fun _ => ⟨rfl, rfl, rfl⟩
  | error k => exact flowing_of_quiet h fun _ => ⟨rfl, rfl, rfl⟩
  | finished k =>
      apply flowing_of_quiet h
      simp only [step]
      split <;> exact fun _ => ⟨rfl, rfl, rfl⟩
  | poll env => exact flowing_of_quiet h (quiet_visits (p := ⟨s, []⟩) h.numbered s.socks)

/-- A chain of which the socket does not take everything is acknowledged all the same. -/
theorem sendsAll_of_localIntact {log : List Event} (h : Flowing (s, log)) (a : Action)
    (hintact : LocalIntact (logged step (s, log) a).1) : SendsAll s a := by
  cases a with
  | recv k q ok sent =>
      cases q with
      | none => trivial
      | some buf =>
          cases ok with
          | false => trivial
          | true =>
              intro pcb hpcb hrecv
              rw [logged_state, step_recv_data h.numbered hpcb hrecv] at hintact
              have hle := (hintact k).2
              obtain ⟨-, haccepted, hacked⟩ := streams_recv_data s k sent k buf
              rw [acked_append, accepted_append, haccepted, hacked, if_pos rfl,
                List.length_append, show acked k log = _ from h.acks k] at hle
              have hprefix := accepted_sendLocal_prefix s (s.conns k).localSock buf sent k
              exact hprefix.eq_of_length_le (Nat.le_of_add_le_add_left hle)
  | accept localPort fd newOk connectOk => trivial
  | connected k ok => trivial
  | error k => trivial
  | finished k => trivial
  | poll env => trivial

/-- From a relay without connections: at every moment the local sockets have taken a prefix
of what lwIP has handed over, and no more has been acknowledged than they have taken,
exactly if they take every chain as a whole. -/
theorem local_stream_intact_iff (actions : List Action) :
    AllStates (logged step) LocalIntact (empty, []) actions ↔
      AllSteps step SendsAll empty actions := by
  refine Iff.trans (allStates_iff_allSteps_of_kept (logged step) (I := Flowing)
    (fun _ => localIntact_of_flowing) ?_ ?_ flowing_empty) (allSteps_logged step)
  · rintro ⟨s, log⟩ a h hall
    exact flowing_step h a hall
  · rintro ⟨s, log⟩ a h hintact
    exact sendsAll_of_localIntact h a hintact

/-- A chain of two pbufs: the second is acknowledged and never sent, so that the next chain
leaves a hole in the stream. -/
theorem chained_pbuf_loses_bytes :
    let out := run step empty [.accept 80 5 true true, .connected 0 true,
      .recv 0 (some ⟨[1, 2], [[3]], by decide⟩) true 2,
      .recv 0 (some ⟨[4], [], by decide⟩) true 1]
    delivered 0 out.2 = [1, 2, 3, 4] ∧ accepted 0 out.2 = [1, 2, 4] ∧ acked 0 out.2 = 4 := by
  decide +kernel

end ToLocal

end WgNx.TcpStreams
