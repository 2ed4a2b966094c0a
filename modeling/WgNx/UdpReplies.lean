import WgNx.OutputMachine
import WgNx.TransportSend

/-!
The two directions of the UDP relay.

`relay_thread_func` copies the address a datagram came from into `client_addr` while
`relay_recv_callback`, on the receive thread of the tunnel, may be reading it.  No lock
orders the two, so the fields are copied and read one at a time, each side in any order,
and a reply may get the address of one client with the port of another.  The local socket
is bound to the loopback address: where all clients have one address, a mix of two clients
is still a client.  `has_client` is a plain store like the fields; that it is seen after them
for the first client is the one thing that has to be supposed.
-/

namespace WgNx.UdpReplies

open WgNx.ByteLayout
open WgNx.CryptoPrimitives
open WgNx.NoiseHandshake
open WgNx.OutputMachine
open WgNx.TransportSend
open WgNx.TunnelState
open WgNx.WireMessages

section Model

/-- Where `relay_thread_func` is: at its poll, or at the stores after a datagram with those
that are done. -/
inductive Relaying
  | polling
  | storing (src : SockAddr) (data : Bytes) (addr port client : Bool)
  deriving DecidableEq

/-- Where `relay_recv_callback` is: not called, or in `sendto` with the fields it has read. -/
inductive Replying
  | idle
  | reading (data : Bytes) (addr : Option UInt32) (port : Option UInt16)
  deriving DecidableEq

structure WgRelay where
  clientAddr : SockAddr
  hasClient : Bool
  relaying : Relaying
  replying : Replying
  deriving DecidableEq

/-- After `calloc`. -/
def WgRelay.initial : WgRelay := ⟨⟨0, 0⟩, false, .polling, .idle⟩

/-- The steps of the two threads, and what the sockets and the tunnel give them. -/
inductive Action
  | recvfrom (src : SockAddr) (data : Bytes)
  | copyAddr
  | copyPort
  | setClient
  | wgSend (tun : WgTunnel) (now : UInt64) (sent : Bool)
  | callback (data : Bytes)
  | readAddr
  | readPort
  | sendto (sent : Bool)
  deriving DecidableEq

/-- What `wg_send` and `sendto` are handed, with their results, which nobody looks at. -/
inductive RelayEvent
  | received (src : SockAddr) (data : Bytes)
  | handed (data : Bytes) (result : Except WgError Nat)
  | delivered (data : Bytes)
  | replied (dest : SockAddr) (data : Bytes) (sent : Bool)

def relayMaxPacket : Nat := 65535

variable (P : Primitives)

/-- The steps of `relay_thread_func`.  A step that does not fit does nothing. -/
def relayStep (s : WgRelay) : Action → WgRelay × List RelayEvent
  | .recvfrom src data =>
      match s.relaying with
      | .polling =>
          let buf := data.take relayMaxPacket
          if buf.length = 0 then (s, [])
          else ({ s with relaying := .storing src buf false false false }, [.received src buf])
      | _ => (s, [])
  | .copyAddr =>
      match s.relaying with
      | .storing src data _ port client =>
          ({ s with
              clientAddr := { s.clientAddr with addr := src.addr }
              relaying := .storing src data true port client }, [])
      | _ => (s, [])
  | .copyPort =>
      match s.relaying with
      | .storing src data addr _ client =>
          ({ s with
              clientAddr := { s.clientAddr with port := src.port }
              relaying := .storing src data addr true client }, [])
      | _ => (s, [])
  | .setClient =>
      match s.relaying with
      | .storing src data addr port _ =>
          ({ s with hasClient := true, relaying := .storing src data addr port true }, [])
      | _ => (s, [])
  | .wgSend tun now sent =>
      match s.relaying with
      | .storing _ data true true true =>
          -- It may refuse the datagram, for its length or for the state of the session.
          ({ s with relaying := .polling }, [.handed data (wgSend P tun data now sent).1])
      | _ => (s, [])
  | _ => (s, [])

/-- The steps of `relay_recv_callback`. -/
def callbackStep (s : WgRelay) : Action → WgRelay × List RelayEvent
  | .callback data =>
      match s.replying with
      | .idle =>
          if !s.hasClient then (s, [])
          else ({ s with replying := .reading data none none }, [.delivered data])
      | _ => (s, [])
  | .readAddr =>
      match s.replying with
      | .reading data _ port =>
          ({ s with replying := .reading data (some s.clientAddr.addr) port }, [])
      | _ => (s, [])
  | .readPort =>
      match s.replying with
      | .reading data addr _ =>
          ({ s with replying := .reading data addr (some s.clientAddr.port) }, [])
      | _ => (s, [])
  | .sendto sent =>
      match s.replying with
      | .reading data (some addr) (some port) =>
          ({ s with replying := .idle }, [.replied ⟨addr, port⟩ data sent])
      | _ => (s, [])
  | _ => (s, [])

def step (s : WgRelay) (a : Action) : WgRelay × List RelayEvent :=
  match a with
  | .callback _ => callbackStep s a
  | .readAddr => callbackStep s a
  | .readPort => callbackStep s a
  | .sendto _ => callbackStep s a
  | _ => relayStep P s a

def BothCopied : Relaying → Prop
  | .storing _ _ addr port _ => addr = true ∧ port = true
  | .polling => True

/-- `has_client` is set for the first time when both fields are copied. -/
def ClientLast (s : WgRelay) (a : Action) : Prop :=
  a = .setClient → s.hasClient = true ∨ BothCopied s.relaying

instance : DecidablePred BothCopied
  | .storing _ _ _ _ _ => inferInstanceAs (Decidable (_ ∧ _))
  | .polling => isTrue trivial

instance (s : WgRelay) (a : Action) : Decidable (ClientLast s a) :=
  inferInstanceAs (Decidable (_ → _))

end Model

section Steps

variable {P : Primitives}

/-- Everything a step can do. -/
inductive StepCase (s : WgRelay) (a : Action) : WgRelay × List RelayEvent → Prop
  | none : StepCase s a (s, [])
  | received (src : SockAddr) (buf : Bytes) (hat : s.relaying = .polling) :
      StepCase s a
        ({ s with relaying := .storing src buf false false false }, [.received src buf])
  | copiedAddr (src : SockAddr) (data : Bytes) (addr port client : Bool)
      (hat : s.relaying = .storing src data addr port client) :
      StepCase s a
        ({ s with
            clientAddr := { s.clientAddr with addr := src.addr }
            relaying := .storing src data true port client }, [])
  | copiedPort (src : SockAddr) (data : Bytes) (addr port client : Bool)
      (hat : s.relaying = .storing src data addr port client) :
      StepCase s a
        ({ s with
            clientAddr := { s.clientAddr with port := src.port }
            relaying := .storing src data addr true client }, [])
  | client (src : SockAddr) (data : Bytes) (addr port client : Bool) (ha : a = .setClient)
      (hat : s.relaying = .storing src data addr port client) :
      StepCase s a
        ({ s with hasClient := true, relaying := .storing src data addr port true }, [])
  | handed (src : SockAddr) (data : Bytes) (result : Except WgError Nat)
      (hat : s.relaying = .storing src data true true true) :
      StepCase s a ({ s with relaying := .polling }, [.handed data result])
  | called (data : Bytes) (hat : s.replying = .idle) (hclient : s.hasClient = true) :
      StepCase s a ({ s with replying := .reading data none none }, [.delivered data])
  | addrRead (data : Bytes) (addr : Option UInt32) (port : Option UInt16)
      (hat : s.replying = .reading data addr port) :
      StepCase s a ({ s with replying := .reading data (some s.clientAddr.addr) port }, [])
  | portRead (data : Bytes) (addr : Option UInt32) (port : Option UInt16)
      (hat : s.replying = .reading data addr port) :
      StepCase s a ({ s with replying := .reading data addr (some s.clientAddr.port) }, [])
  | replied (data : Bytes) (addr : UInt32) (port : UInt16) (sent : Bool)
      (hat : s.replying = .reading data (some addr) (some port)) :
      StepCase s a ({ s with replying := .idle }, [.replied ⟨addr, port⟩ data sent])

theorem step_cases (s : WgRelay) (a : Action) : StepCase s a (step P s a) := by
  cases a with
  | recvfrom src data =>
      simp only [step, relayStep]
      split
      · split
        · exact .none
        · rename_i hat _
          exact .received src _ hat
      · exact .none
  | copyAddr =>
      simp only [step, relayStep]
      split
      · rename_i hat
        exact .copiedAddr _ _ _ _ _ hat
      · exact .none
  | copyPort =>
      simp only [step, relayStep]
      split
      · rename_i hat
        exact .copiedPort _ _ _ _ _ hat
      · exact .none
  | setClient =>
      simp only [step, relayStep]
      split
      · rename_i hat
        exact .client _ _ _ _ _ rfl hat
      · exact .none
  | wgSend tun now sent =>
      simp only [step, relayStep]
      split
      · rename_i hat
        exact .handed _ _ _ hat
      · exact .none
  | callback data =>
      simp only [step, callbackStep]
      split
      · split
        · exact .none
        · rename_i hat hclient
          exact .called data hat (by simpa using hclient)
      · exact .none
  | readAddr =>
      simp only [step, callbackStep]
      split
      · rename_i hat
        exact .addrRead _ _ _ hat
      · exact .none
  | readPort =>
      simp only [step, callbackStep]
      split
      · rename_i hat
        exact .portRead _ _ _ hat
      · exact .none
  | sendto sent =>
      simp only [step, callbackStep]
      split
      · rename_i hat
        exact .replied _ _ _ _ hat
      · exact .none

end Steps

section Observations

def clients (events : List RelayEvent) : List SockAddr :=
  events.filterMap fun
    | .received src _ => some src
    | _ => none

def receivedData (events : List RelayEvent) : List Bytes :=
  events.filterMap fun
    | .received _ data => some data
    | _ => none

/-- The datagrams `wg_send` was called with. -/
def handedData (events : List RelayEvent) : List Bytes :=
  events.filterMap fun
    | .handed data _ => some data
    | _ => none

def deliveredData (events : List RelayEvent) : List Bytes :=
  events.filterMap fun
    | .delivered data => some data
    | _ => none

/-- The payloads `sendto` was called with. -/
def repliedData (events : List RelayEvent) : List Bytes :=
  events.filterMap fun
    | .replied _ data _ => some data
    | _ => none

/-- The datagram the thread of the relay holds. -/
def WgRelay.unsent (s : WgRelay) : List Bytes :=
  match s.relaying with
  | .polling => []
  | .storing _ data _ _ _ => [data]

/-- The payload the callback holds. -/
def WgRelay.unanswered (s : WgRelay) : List Bytes :=
  match s.replying with
  | .idle => []
  | .reading data _ _ => [data]

/-- The fields of an address, each of some client. -/
structure FieldsOf (cs : List SockAddr) (a : SockAddr) : Prop where
  addr : ∃ c ∈ cs, c.addr = a.addr
  port : ∃ c ∈ cs, c.port = a.port

theorem FieldsOf.mono {cs cs' : List SockAddr} {a : SockAddr} (h : FieldsOf cs a)
    (hsub : cs ⊆ cs') : FieldsOf cs' a := by
  obtain ⟨⟨c, hc, hcaddr⟩, d, hd, hdport⟩ := h
  exact ⟨⟨c, hsub hc, hcaddr⟩, d, hsub hd, hdport⟩

end Observations

section Invariant

/-- What the two threads know of a list of clients: a copied field is that of the client
being stored, and from `has_client` on every field is that of a client. -/
structure Known (s : WgRelay) (cs : List SockAddr) : Prop where
  storing : ∀ src data addr port client, s.relaying = .storing src data addr port client →
    src ∈ cs ∧ (addr = true → s.clientAddr.addr = src.addr) ∧
      (port = true → s.clientAddr.port = src.port)
  client : s.hasClient = true → FieldsOf cs s.clientAddr
  reading : ∀ data addr port, s.replying = .reading data addr port →
    s.hasClient = true ∧ (∀ a ∈ addr, ∃ c ∈ cs, c.addr = a) ∧ ∀ p ∈ port, ∃ c ∈ cs, c.port = p

theorem known_initial : Known .initial [] where
  storing _ _ _ _ _ h := by cases h
  client h := by cases h
  reading _ _ _ h := by cases h

variable {P : Primitives} {s : WgRelay} {a : Action} {out : WgRelay × List RelayEvent}
  {log : List RelayEvent} {cs cs' : List SockAddr}

theorem Known.mono (h : Known s cs) (hsub : cs ⊆ cs') : Known s cs' where
  storing src data addr port client hat := by
    obtain ⟨hsrc, hcopied⟩ := h.storing src data addr port client hat
    exact ⟨hsub hsrc, hcopied⟩
  client hclient := (h.client hclient).mono hsub
  reading data addr port hat := by
    obtain ⟨hclient, haddr, hport⟩ := h.reading data addr port hat
    refine ⟨hclient, fun a ha => ?_, fun p hp => ?_⟩
    · obtain ⟨c, hc, heq⟩ := haddr a ha
      exact ⟨c, hsub hc, heq⟩
    · obtain ⟨c, hc, heq⟩ := hport p hp
      exact ⟨c, hsub hc, heq⟩

/-- Every step keeps this, whichever thread takes it. -/
theorem Known.step (h : Known s cs) (hcase : StepCase s a out) (hlast : ClientLast s a)
    (hnew : clients out.2 ⊆ cs) : Known out.1 cs := by
  cases hcase with
  | none => exact h
  | received src buf hat =>
      refine ⟨fun _ _ _ _ _ hstore => ?_, h.client, h.reading⟩
      cases hstore
      exact ⟨hnew List.mem_cons_self, by simp, by simp⟩
  | copiedAddr src data addr port client hat =>
      obtain ⟨hsrc, -, hport⟩ := h.storing _ _ _ _ _ hat
      refine ⟨fun _ _ _ _ _ hstore => ?_, fun hclient => ?_, h.reading⟩
      · cases hstore
        exact ⟨hsrc, fun _ => rfl, hport⟩
      · exact ⟨⟨src, hsrc, rfl⟩, (h.client hclient).port⟩
  | copiedPort src data addr port client hat =>
      obtain ⟨hsrc, haddr, -⟩ := h.storing _ _ _ _ _ hat
      refine ⟨fun _ _ _ _ _ hstore => ?_, fun hclient => ?_, h.reading⟩
      · cases hstore
        exact ⟨hsrc, haddr, fun _ => rfl⟩
      · exact ⟨(h.client hclient).addr, src, hsrc, rfl⟩
  | client src data addr port client ha hat =>
      have hstored := h.storing _ _ _ _ _ hat
      refine ⟨fun _ _ _ _ _ hstore => ?_, fun _ => ?_, fun data addr port hread => ?_⟩
      · cases hstore
        exact hstored
      · -- There was a client before, or this one is copied.
        rcases hlast ha with hbefore | hcopied
        · exact h.client hbefore
        · rw [hat] at hcopied
          obtain ⟨hsrc, haddr, hport⟩ := hstored
          exact ⟨⟨src, hsrc, (haddr hcopied.1).symm⟩, src, hsrc, (hport hcopied.2).symm⟩
      · exact ⟨rfl, (h.reading data addr port hread).2⟩
  | handed src data result hat =>
      refine ⟨fun _ _ _ _ _ hstore => ?_, h.client, h.reading⟩
      cases hstore
  | called data hat hclient =>
      refine ⟨h.storing, h.client, fun _ _ _ hread => ?_⟩
      cases hread
      exact ⟨hclient, by simp, by simp⟩
  | addrRead data addr port hat =>
      obtain ⟨hclient, -, hport⟩ := h.reading _ _ _ hat
      refine ⟨h.storing, h.client, fun _ _ _ hread => ?_⟩
      cases hread
      refine ⟨hclient, fun a ha => ?_, hport⟩
      cases ha
      exact (h.client hclient).addr
  | portRead data addr port hat =>
      obtain ⟨hclient, haddr, -⟩ := h.reading _ _ _ hat
      refine ⟨h.storing, h.client, fun _ _ _ hread => ?_⟩
      cases hread
      refine ⟨hclient, haddr, fun p hp => ?_⟩
      cases hp
      exact (h.client hclient).port
  | replied data addr port sent hat =>
      refine ⟨h.storing, h.client, fun _ _ _ hread => ?_⟩
      cases hread

/-- Each reply so far went to fields of clients that had sent something before it. -/
def Answered (log : List RelayEvent) : Prop :=
  ∀ before dest data sent, before ++ [.replied dest data sent] <+: log →
    FieldsOf (clients before) dest

theorem Answered.step (h : Answered log) (hknown : Known s (clients log))
    (hcase : StepCase s a out) : Answered (log ++ out.2) := by
  -- The events of a step are none or one, and only that of `sendto` is a reply.
  have hone : ∀ e, (∀ dest data sent, e = .replied dest data sent →
      FieldsOf (clients log) dest) → Answered (log ++ [e]) := by
    intro e he before dest data sent hbefore
    rcases List.prefix_concat_iff.mp hbefore with heq | hold
    · obtain ⟨rfl, hlast⟩ := List.append_inj' heq rfl
      exact he dest data sent (List.cons.inj hlast).1.symm
    · exact h before dest data sent hold
  cases hcase with
  | replied data addr port sent hat =>
      obtain ⟨-, haddr, hport⟩ := hknown.reading _ _ _ hat
      refine hone _ fun dest data' sent' heq => ?_
      cases heq
      exact ⟨haddr addr rfl, hport port rfl⟩
  | received src buf hat => exact hone _ fun _ _ _ heq => by cases heq
  | handed src data result hat => exact hone _ fun _ _ _ heq => by cases heq
  | called data hat hclient => exact hone _ fun _ _ _ heq => by cases heq
  | _ => simpa using h

/-- A step of either thread hands on what was held or keeps it. -/
theorem hands_step (hcase : StepCase s a out) :
    handedData out.2 ++ out.1.unsent = s.unsent ++ receivedData out.2 := by
  unfold WgRelay.unsent handedData receivedData
  cases hcase with
  | received src buf hat => simp [hat]
  | copiedAddr src data addr port client hat => simp [hat]
  | copiedPort src data addr port client hat => simp [hat]
  | client src data addr port client ha hat => simp [hat]
  | handed src data result hat => simp [hat]
  | _ => simp

theorem answers_step (hcase : StepCase s a out) :
    repliedData out.2 ++ out.1.unanswered = s.unanswered ++ deliveredData out.2 := by
  unfold WgRelay.unanswered repliedData deliveredData
  cases hcase with
  | called data hat hclient => simp [hat]
  | addrRead data addr port hat => simp [hat]
  | portRead data addr port hat => simp [hat]
  | replied data addr port sent hat => simp [hat]
  | _ => simp

/-- Nothing is lost, doubled or overtaken on the way. -/
structure Relayed (s : WgRelay) (log : List RelayEvent) : Prop where
  hands : handedData log ++ s.unsent = receivedData log
  answers : repliedData log ++ s.unanswered = deliveredData log

theorem Relayed.step (h : Relayed s log) (hcase : StepCase s a out) :
    Relayed out.1 (log ++ out.2) := by
  constructor
  · simp only [handedData, receivedData, List.filterMap_append, List.append_assoc]
    have hstep := hands_step hcase
    have hbefore := h.hands
    unfold handedData receivedData at hstep hbefore
    rw [hstep, ← List.append_assoc, hbefore]
  · simp only [repliedData, deliveredData, List.filterMap_append, List.append_assoc]
    have hstep := answers_step hcase
    have hbefore := h.answers
    unfold repliedData deliveredData at hstep hbefore
    rw [hstep, ← List.append_assoc, hbefore]

theorem relayed_run (actions : List Action) :
    Relayed (run (step P) .initial actions).1 (run (step P) .initial actions).2 := by
  have hstep : ∀ s log a, Relayed s log → True →
      Relayed (step P s a).1 (log ++ (step P s a).2) :=
    fun s log a h _ => h.step (step_cases s a)
  have hinit : Relayed .initial [] := ⟨rfl, rfl⟩
  simpa using run_invariant (step P) hstep hinit (allSteps_true (step P) .initial actions)

theorem answered_run {actions : List Action}
    (hlast : AllSteps (step P) ClientLast .initial actions) :
    Answered (run (step P) .initial actions).2 := by
  let good : WgRelay → List RelayEvent → Prop := fun s log => Known s (clients log) ∧ Answered log
  have hstep : ∀ s log a, good s log → ClientLast s a →
      good (step P s a).1 (log ++ (step P s a).2) := by
    rintro s log a ⟨hknown, hanswered⟩ hlast
    have hcase := step_cases (P := P) s a
    have hclients : clients (log ++ (step P s a).2) = clients log ++ clients (step P s a).2 :=
      List.filterMap_append
    refine ⟨Known.step (hknown.mono ?_) hcase hlast ?_, hanswered.step hknown hcase⟩
    · rw [hclients]
      exact List.subset_append_left ..
    · rw [hclients]
      exact List.subset_append_right ..
  have hinit : good .initial [] := ⟨known_initial, fun _ _ _ _ h => by simp at h⟩
  have hend := run_invariant (step P) hstep hinit hlast
  rw [List.nil_append] at hend
  exact hend.2

end Invariant

section Routing

variable {P : Primitives}

theorem clients_step (s : WgRelay) (a : Action) {src : SockAddr}
    (h : src ∈ clients (step P s a).2) : ∃ data, a = .recvfrom src data := by
  cases a with
  | recvfrom src' data =>
      simp only [step, relayStep] at h
      split at h
      · split at h
        · cases h
        · obtain rfl := List.mem_singleton.mp h
          exact ⟨data, rfl⟩
      · cases h
  | _ =>
      simp only [step, relayStep, callbackStep] at h
      repeat' split at h
      all_goals cases h

theorem clients_run (s : WgRelay) (actions : List Action) {src : SockAddr}
    (h : src ∈ clients (run (step P) s actions).2) : ∃ data, .recvfrom src data ∈ actions := by
  induction actions generalizing s with
  | nil => cases h
  | cons a rest ih =>
      rw [run_cons_outputs, clients, List.filterMap_append, List.mem_append] at h
      rcases h with hfirst | hrest
      · obtain ⟨data, rfl⟩ := clients_step s a hfirst
        exact ⟨data, List.mem_cons_self⟩
      · obtain ⟨data, hmem⟩ := ih _ hrest
        exact ⟨data, List.mem_cons_of_mem _ hmem⟩

/-- However the threads interleave, the datagrams of the clients are handed to `wg_send` once
each and in order, and so are to `sendto` the payloads that arrive once there is a client.
Where all clients have one address and the first one is copied before `has_client` is set,
every reply is for a client that has sent something before it. -/
theorem replies_go_to_clients (P : Primitives) (host : UInt32) (actions : List Action)
    (hhost : ∀ src data, .recvfrom src data ∈ actions → src.addr = host)
    (hlast : AllSteps (step P) ClientLast .initial actions) :
    let s := (run (step P) .initial actions).1
    let events := (run (step P) .initial actions).2
    (∀ before dest data sent, before ++ [.replied dest data sent] <+: events →
        dest ∈ clients before) ∧
      handedData events ++ s.unsent = receivedData events ∧
      repliedData events ++ s.unanswered = deliveredData events := by
  intro s events
  have hrun := @relayed_run P actions
  refine ⟨fun before dest data sent hreply => ?_, hrun.hands, hrun.answers⟩
  obtain ⟨⟨a, ha, haddr⟩, b, hb, hport⟩ := answered_run hlast before dest data sent hreply
  have hone : ∀ c ∈ clients before, c.addr = host := by
    intro c hc
    have hearlier : before <+: events := (List.prefix_append before _).trans hreply
    have hmem : c ∈ clients events := (hearlier.sublist.filterMap _).subset hc
    obtain ⟨data, hmem⟩ := clients_run .initial actions hmem
    exact hhost c data hmem
  have hdest : dest = b := by
    have hsame : dest.addr = b.addr := by rw [← haddr, hone a ha, hone b hb]
    cases dest
    cases b
    simp_all
  rw [hdest]
  exact hb

/-- The second client comes in while a reply to the first is under way; the tunnel has no
session and takes neither datagram. -/
def overtakenReply (first second : SockAddr) : List Action :=
  let tun := sampleTunnel 3 5
  [.recvfrom first [1], .copyAddr, .copyPort, .setClient, .wgSend tun 100 true, .callback [9],
    .recvfrom second [2], .setClient, .copyAddr, .readAddr, .readPort, .sendto true, .copyPort,
    .wgSend tun 200 true]

theorem replies_go_to_clients_overtaken :
    let s := (run (step additive) .initial (overtakenReply ⟨127, 1⟩ ⟨127, 2⟩)).1
    let events := (run (step additive) .initial (overtakenReply ⟨127, 1⟩ ⟨127, 2⟩)).2
    (∀ before dest data sent, before ++ [.replied dest data sent] <+: events →
        dest ∈ clients before) ∧
      handedData events ++ s.unsent = receivedData events ∧
      repliedData events ++ s.unanswered = deliveredData events := by
  apply replies_go_to_clients additive 127 (overtakenReply ⟨127, 1⟩ ⟨127, 2⟩)
  · intro src data hmem
    simp only [overtakenReply, List.mem_cons, Action.recvfrom.injEq, reduceCtorEq, false_or,
      List.not_mem_nil, or_false] at hmem
    rcases hmem with ⟨rfl, -⟩ | ⟨rfl, -⟩ <;> rfl
  · decide +kernel

-- With two hosts the same steps answer to nobody.
example : (run (step additive) .initial (overtakenReply ⟨1, 1⟩ ⟨2, 2⟩)).2.any
    (fun | .replied dest _ _ => dest = ⟨2, 1⟩ | _ => false) = true := by
  decide +kernel

end Routing

end WgNx.UdpReplies
