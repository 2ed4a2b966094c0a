import Mathlib.Data.List.InsertIdx
import Mathlib.Data.List.Perm.Subperm
import WgNx.OpeningParty

/-!
Two tunnels that call `wg_connect` towards each other, and the messages between
them.

Each party runs the endpoint machine.  Whatever one of them hands to its socket
is in flight to the other until it is delivered, to the waiting call or to the
receive thread, or dropped.  The network refines `CrossedOpening`: INITs are
offers, RESPONSEs are answers, and the two sessions match exactly if they come
from one exchange.
-/

namespace WgNx.OpeningNetwork

open WgNx.ByteLayout
open WgNx.CrossedOpening
open WgNx.CryptoPrimitives
open WgNx.EndpointMachine
open WgNx.NoiseAgreement
open WgNx.NoiseHandshake
open WgNx.OpeningParty
open WgNx.OutputMachine
open WgNx.TransportReceive
open WgNx.TunnelState
open WgNx.WireMessages
open Function
open Relation

section Network

structure Network where
  ends : Side → Endpoint
  flight : Side → List Bytes

inductive NetAction
  | attempt (x : Side) (d : InitDraws) (sent : Bool)
  | timeout (x : Side) (now : UInt64)
  | deliver (x : Side) (k : Nat) (src : Option SockAddr) (resp : RespDraws) (now : UInt64)
  | drop (x : Side) (k : Nat)
  | finish (x : Side) (now : UInt64)
  | start (x : Side)

/-- The events of the parties, and for every INIT that is accepted whether its
sender was still waiting for the RESPONSE to it. -/
inductive NetEvent
  | happened (x : Side) (e : Event)
  | accepted (x : Side) (outstanding : Bool)
  deriving DecidableEq

variable (P : Primitives)

/-- A step of one party; what it sends is in flight to the other one. -/
def act (n : Network) (x : Side) (a : Action) : Network × List NetEvent :=
  let out := step P (n.ends x) a
  (⟨update n.ends x out.1, update n.flight x.other (n.flight x.other ++ datagrams out.2)⟩,
    out.2.map (.happened x))

/-- The party waits for a RESPONSE to the INIT with this sender index. -/
def outstanding (e : Endpoint) (index : UInt32) : Bool :=
  match e.phase with
  | .connectWait _ _ => e.tun.session.localIndex == index
  | _ => false

/-- Who reads a datagram: the waiting call, else the receive thread if it runs. -/
def reader (e : Endpoint) (datagram : Bytes) (src : Option SockAddr) (resp : RespDraws)
    (now : UInt64) : Option Action :=
  match e.phase with
  | .connectWait _ _ => some (.connectEnd (.datagram datagram datagram.length src) resp now)
  | _ =>
      if e.tun.running then
        some (.recv ⟨true, .datagram datagram datagram.length src, resp, now⟩)
      else none

def acceptance (n : Network) (x : Side) (datagram : Bytes) (events : List Event) :
    List NetEvent :=
  if getType datagram = wgMsgHandshakeInit ∧ establishes events = true then
    [.accepted x (outstanding (n.ends x.other) (getU32 datagram 4))]
  else []

def Network.drop (n : Network) (x : Side) (k : Nat) : Network :=
  { n with flight := update n.flight x ((n.flight x).eraseIdx k) }

def netStep (n : Network) : NetAction → Network × List NetEvent
  | .attempt x d sent =>
      let out := act P n x (.connectBegin d sent)
      if sent then out else ({ out.1 with flight := n.flight }, out.2)
  | .timeout x now => act P n x (.connectEnd .timeout ⟨zeroKey, 0, now⟩ now)
  | .deliver x k src resp now =>
      match (n.flight x)[k]? with
      | none => (n, [])
      | some datagram =>
          match reader (n.ends x) datagram src resp now with
          | none => (n, [])
          | some a =>
              let out := act P (n.drop x k) x a
              (out.1, out.2 ++ acceptance n x datagram (step P (n.ends x) a).2)
  | .drop x k => (n.drop x k, [])
  | .finish x now => act P n x (.connectFinish now)
  | .start x => act P n x (.start true true)

def network (u : Setup) : Network where
  ends := u.calling P
  flight _ := []

def drawnAt (x : Side) (events : List NetEvent) : List UInt32 :=
  events.filterMap fun
    | .happened y (.drawn index) => if y = x then some index else none
    | _ => none

def acceptances (events : List NetEvent) : List Bool :=
  events.filterMap fun
    | .accepted _ outstanding => some outstanding
    | _ => none

/-- Whether the INIT that was accepted last was outstanding. -/
def lastAccepted (events : List NetEvent) : Option Bool := (acceptances events).getLast?

end Network

section Log

variable {x y : Side} {log : List NetEvent} {events : List Event}

theorem drawnAt_append (y : Side) (a b : List NetEvent) :
    drawnAt y (a ++ b) = drawnAt y a ++ drawnAt y b :=
  List.filterMap_append

theorem drawnAt_happened (x : Side) (events : List Event) :
    drawnAt x (events.map (.happened x)) = drawnIndices events := by
  unfold drawnAt drawnIndices
  rw [List.filterMap_map]
  congr 1
  funext e
  cases e <;> simp

theorem drawnAt_happened_other (x : Side) (events : List Event) :
    drawnAt x.other (events.map (.happened x)) = [] := by
  unfold drawnAt
  rw [List.filterMap_map, List.filterMap_eq_nil_iff]
  intro e _
  cases e <;> simp [x.other_ne.symm]

theorem acceptances_happened (x : Side) (events : List Event) :
    acceptances (events.map (.happened x)) = [] := by
  unfold acceptances
  rw [List.filterMap_map, List.filterMap_eq_nil_iff]
  intro e _
  rfl

theorem lastAccepted_happened (extra : List NetEvent) :
    lastAccepted (log ++ (events.map (.happened x) ++ extra)) = lastAccepted (log ++ extra) := by
  unfold lastAccepted
  have happend : ∀ a b, acceptances (a ++ b) = acceptances a ++ acceptances b :=
    fun a b => List.filterMap_append
  rw [happend, happend, happend, acceptances_happened, List.nil_append]

theorem lastAccepted_accepted (outstanding : Bool) :
    lastAccepted (log ++ [.accepted x outstanding]) = some outstanding := by
  unfold lastAccepted acceptances
  rw [List.filterMap_append]
  exact List.getLast?_concat

end Log

section Reading

variable {P : Primitives} {u : Setup} {x : Side} {e : Endpoint} {a : Action}
  {waiting : Option InitDraws} {origin : Option (Origin InitDraws RespDraws)}

theorem outstanding_eq (h : PartyFits P u x e waiting origin) {d : InitDraws}
    (hdistinct : ∀ d', waiting = some d' → d'.index = d.index → d' = d) :
    outstanding e d.index = decide (waiting = some d) := by
  obtain ⟨tun, phase⟩ := e
  have hphase := h.phase
  unfold outstanding
  cases phase with
  | connectWait k state =>
      obtain ⟨-, d', rfl, -, hlocal⟩ := hphase
      have hlocal' : tun.session.localIndex = d'.index := hlocal
      dsimp only
      rw [hlocal']
      by_cases heq : d' = d
      · rw [heq]
        simp
      · have hindex : d'.index ≠ d.index := fun hindex => heq (hdistinct d' rfl hindex)
        simp [heq, hindex]
  | idle err => simp [show waiting = none from hphase.1]
  | connecting k => simp [show waiting = none from hphase.1]
  | connectDone err => simp [show waiting = none from hphase.1]
  | rekeying => exact hphase.elim
  | rekeyWait => exact hphase.elim
  | rekeyDone => exact hphase.elim

/-- A datagram is read by the call, in its wait, or by the thread of a party that
has a session. -/
theorem reader_cases {datagram : Bytes} {src : Option SockAddr} {resp : RespDraws}
    {now : UInt64} (h : PartyFits P u x e waiting origin)
    (hread : reader e datagram src resp now = some a) :
    (∃ tun k d, e = ⟨tun, .connectWait k (u.offer P x d).2⟩ ∧ waiting = some d ∧
      origin = none ∧ a = .connectEnd (.datagram datagram datagram.length src) resp now) ∨
    (e.tun.running = true ∧ waiting = none ∧
      a = .recv ⟨true, .datagram datagram datagram.length src, resp, now⟩) := by
  obtain ⟨tun, phase⟩ := e
  by_cases hrunning : tun.running = true
  · obtain ⟨hwaiting, hphase⟩ := h.returned (h.running hrunning)
    refine .inr ⟨hrunning, hwaiting, ?_⟩
    rcases hphase with rfl | rfl
    all_goals
      unfold reader at hread
      dsimp only at hread
      rw [if_pos hrunning] at hread
      exact (Option.some.inj hread).symm
  · unfold reader at hread
    cases phase with
    | connectWait k state =>
        obtain ⟨horigin, d, hwaiting, rfl, -⟩ := h.phase
        exact .inl ⟨tun, k, d, rfl, hwaiting, horigin, (Option.some.inj hread).symm⟩
    | _ =>
        dsimp only at hread
        rw [if_neg hrunning] at hread
        cases hread

theorem outcome_read_offer (hP : P.Lawful) (h : PartyFits P u x e waiting origin)
    {d : InitDraws} {src : Option SockAddr} {r : RespDraws} {now : UInt64}
    (hread : reader e (u.encode P x (.offer d)) src r now = some a) :
    Outcome P u x (step P e a) none (some (.responder d r)) [r.index]
      [u.encode P x.other (.answer d r)] true := by
  rcases reader_cases h hread with ⟨tun, k, d', rfl, -, -, rfl⟩ | ⟨hrunning, -, rfl⟩
  · exact outcome_wait_offer hP h d src r now
  · exact outcome_recv_offer hP h hrunning d src r now

theorem outcome_read_answer (hP : P.Lawful) (h : PartyFits P u x e waiting origin)
    {d : InitDraws} {r resp : RespDraws} {src : Option SockAddr} {now : UInt64}
    (hdistinct : ∀ d', waiting = some d' → d'.index = d.index → d' = d)
    (hread : reader e (u.encode P x (.answer d r)) src resp now = some a) :
    waiting = some d ∧ Outcome P u x (step P e a) none (some (.initiator d r)) [] [] true ∨
      Outcome P u x (step P e a) none origin [] [] false := by
  rcases reader_cases h hread with ⟨tun, k, d', rfl, rfl, rfl, rfl⟩ | ⟨hrunning, rfl, rfl⟩
  · by_cases hindex : d'.index = d.index
    · obtain rfl := hdistinct d' rfl hindex
      exact .inl ⟨rfl, outcome_wait_answer hP h r src resp now⟩
    · exact .inr (outcome_wait_late h (Ne.symm hindex) r src resp now)
  · exact .inr (outcome_recv_answer h hrunning d r src resp now)

theorem outcome_read_other (h : PartyFits P u x e waiting origin) {m : Keepalive}
    {src : Option SockAddr} {resp : RespDraws} {now : UInt64}
    (hread : reader e (u.encode P x (.other m)) src resp now = some a) :
    Outcome P u x (step P e a) none origin [] [] false := by
  rcases reader_cases h hread with ⟨tun, k, d', rfl, -, rfl, rfl⟩ | ⟨hrunning, rfl, rfl⟩
  · exact outcome_wait_keepalive h m src resp now
  · exact outcome_recv_keepalive h hrunning m src resp now

end Reading

section Simulation

abbrev Opening := Sys InitDraws RespDraws Keepalive

/-- The indices a party has drawn for offers and for answers. -/
def indices (s : Opening) (x : Side) : List UInt32 :=
  (s.offered x).map InitDraws.index ++ (s.taken x).map fun p => p.2.index

variable (P : Primitives) (u : Setup)

/-- The datagrams in flight are the encoded messages. -/
def Carries (flight : Side → List Bytes)
    (tokens : Side → List (Token InitDraws RespDraws Keepalive)) : Prop :=
  ∀ y, flight y = (tokens y).map (u.encode P y)

structure Simulates (n : Network) (s : Opening) (log : List NetEvent) : Prop where
  party : ∀ x, PartyFits P u x (n.ends x) (s.waiting x) (s.origin x)
  flight : Carries P u n.flight s.flight
  drawn : ∀ x, (indices s x).Subperm (drawnAt x log)
  last : lastAccepted log = s.last.map Taking.live

variable {P u} {n : Network} {s : Opening} {log : List NetEvent} {x : Side}

theorem simulates_start : Simulates P u (network P u) Sys.start [] where
  party _ := partyFits_calling
  flight _ := rfl
  drawn _ := List.Subperm.refl _
  last := rfl

theorem Carries.send {flight : Side → List Bytes}
    {tokens : Side → List (Token InitDraws RespDraws Keepalive)}
    (h : Carries P u flight tokens) (x : Side) (t : Token InitDraws RespDraws Keepalive) :
    Carries P u (update flight x (flight x ++ [u.encode P x t]))
      (update tokens x (tokens x ++ [t])) := by
  intro y
  rcases x.eq_or_other y with rfl | rfl
  · simp [h y]
  · simpa using h x.other

theorem Carries.drop {flight : Side → List Bytes}
    {tokens : Side → List (Token InitDraws RespDraws Keepalive)}
    (h : Carries P u flight tokens) (x : Side) (k : Nat) :
    Carries P u (update flight x ((flight x).eraseIdx k))
      (update tokens x ((tokens x).eraseIdx k)) := by
  intro y
  rcases x.eq_or_other y with rfl | rfl
  · simp [h y, List.eraseIdx_map]
  · simpa using h x.other

theorem Simulates.nodup (h : Simulates P u n s log) (hlog : (drawnAt x log).Nodup) :
    (indices s x).Nodup := by
  obtain ⟨l, hperm, hsub⟩ := h.drawn x
  exact hperm.nodup_iff.mp (hlog.sublist hsub)

theorem eq_of_index (hnodup : (indices s x).Nodup) {d d' : InitDraws} (hd : d ∈ s.offered x)
    (hd' : d' ∈ s.offered x) (hindex : d'.index = d.index) : d' = d :=
  List.inj_on_of_nodup_map hnodup.of_append_left hd' hd hindex

/-- One party has moved: `out` is its step, `extra` what the network adds to the
log. -/
theorem Simulates.move (h : Simulates P u n s log) {out : Endpoint × List Event}
    {drawn : List UInt32} {sent : List Bytes} {established : Bool} {flight : Side → List Bytes}
    {s' : Opening} (extra : List NetEvent)
    (hout : Outcome P u x out (s'.waiting x) (s'.origin x) drawn sent established)
    (hwaiting : s'.waiting x.other = s.waiting x.other)
    (horigin : s'.origin x.other = s.origin x.other)
    (hflight : Carries P u flight s'.flight)
    (hdrawn : (indices s' x).Subperm (indices s x ++ drawn))
    (hother : indices s' x.other = indices s x.other)
    (hextra : ∀ y, drawnAt y extra = [])
    (hlast : lastAccepted (log ++ extra) = s'.last.map Taking.live) :
    Simulates P u ⟨update n.ends x out.1, flight⟩ s'
      (log ++ (out.2.map (.happened x) ++ extra)) where
  party := by
    intro y
    rcases x.eq_or_other y with rfl | rfl
    · simpa using hout.fits
    · simpa [hwaiting, horigin] using h.party x.other
  flight := hflight
  drawn := by
    intro y
    rw [drawnAt_append, drawnAt_append, hextra, List.append_nil]
    rcases x.eq_or_other y with rfl | rfl
    · rw [drawnAt_happened, hout.drawn]
      exact hdrawn.trans ((List.subperm_append_right _).mpr (h.drawn y))
    · rw [drawnAt_happened_other, List.append_nil, hother]
      exact h.drawn x.other
  last := by
    rw [lastAccepted_happened]
    exact hlast

/-- A step of one party that draws no index and accepts nothing. -/
theorem Simulates.quiet (h : Simulates P u n s log) {a : Action} {sent : List Bytes}
    {established : Bool} {s' : Opening}
    (hout : Outcome P u x (step P (n.ends x) a) (s'.waiting x) (s'.origin x) [] sent
      established)
    (hwaiting : s'.waiting x.other = s.waiting x.other)
    (horigin : s'.origin x.other = s.origin x.other)
    (hflight : Carries P u (update n.flight x.other (n.flight x.other ++ sent)) s'.flight)
    (hindices : indices s' = indices s) (hlast : s'.last = s.last) :
    Simulates P u (act P n x a).1 s' (log ++ (act P n x a).2) := by
  rw [← hout.sent] at hflight
  have hmove := h.move [] hout hwaiting horigin hflight
    (by rw [hindices, List.append_nil]) (congrFun hindices _) (fun _ => rfl)
    (by rw [List.append_nil, hlast]; exact h.last)
  rwa [List.append_nil] at hmove

theorem Simulates.carries_nil (h : Simulates P u n s log) (x : Side) :
    Carries P u (update n.flight x (n.flight x ++ [])) s.flight := by
  rw [List.append_nil, update_eq_self]
  exact h.flight

/-- A step that does not change what the party waits for and has. -/
theorem Simulates.same (h : Simulates P u n s log) {a : Action}
    (hout : Outcome P u x (step P (n.ends x) a) (s.waiting x) (s.origin x) [] [] false) :
    Simulates P u (act P n x a).1 s (log ++ (act P n x a).2) :=
  h.quiet hout rfl rfl (h.carries_nil x.other) rfl rfl

/-- A step after which the party waits no longer. -/
theorem Simulates.giveUp (h : Simulates P u n s log) {a : Action}
    (hout : Outcome P u x (step P (n.ends x) a) none (s.origin x) [] [] false) :
    Simulates P u (act P n x a).1 (s.giveUp x) (log ++ (act P n x a).2) := by
  have hfits : Outcome P u x (step P (n.ends x) a) ((s.giveUp x).waiting x)
      ((s.giveUp x).origin x) [] [] false := by
    simpa [Sys.giveUp] using hout
  exact h.quiet hfits (by simp [Sys.giveUp]) rfl (h.carries_nil x.other) rfl rfl

theorem Simulates.drop (h : Simulates P u n s log) (x : Side) (k : Nat) :
    Simulates P u (n.drop x k) (s.drop x k) log :=
  ⟨h.party, h.flight.drop x k, h.drawn, h.last⟩

theorem indices_makeOffer (s : Opening) (x : Side) (d : InitDraws) :
    (indices (s.makeOffer x d) x).Perm (indices s x ++ [d.index]) := by
  have hoffered : (s.makeOffer x d).offered x = s.offered x ++ [d] := update_self ..
  unfold indices
  rw [hoffered, List.map_append, List.append_assoc, List.append_assoc]
  exact List.perm_append_comm.append_left _

theorem indices_take (s : Opening) (x : Side) (d : InitDraws) (r : RespDraws) :
    indices (s.take x d r) x = indices s x ++ [r.index] := by
  have htaken : (s.take x d r).taken x = s.taken x ++ [(d, r)] := update_self ..
  unfold indices
  rw [htaken, List.map_append, List.append_assoc]
  rfl

/-- The network takes abstract steps, none if the action does nothing. -/
def Follows (P : Primitives) (u : Setup) (s : Opening) (out : Network × List NetEvent)
    (log : List NetEvent) : Prop :=
  ∃ s', ReflTransGen Sys.Step s s' ∧ Simulates P u out.1 s' (log ++ out.2)

theorem Simulates.still (h : Simulates P u n s log) : Follows P u s (n, []) log :=
  ⟨s, .refl, by rwa [List.append_nil]⟩

theorem act_self {a : Action} (hstep : step P (n.ends x) a = (n.ends x, [])) :
    act P n x a = (n, []) := by
  unfold act
  rw [hstep]
  simp [datagrams]

theorem follows_connectBegin (h : Simulates P u n s log) {d : InitDraws} {sent : Bool}
    (hout : Outcome P u x (step P (n.ends x) (.connectBegin d sent))
      (if sent then some d else none) (s.origin x) [d.index] [(u.offer P x d).1.toBytes] false)
    (hnone : s.origin x = none)
    (hnodup : (drawnAt x (log ++ (act P n x (.connectBegin d sent)).2)).Nodup) :
    Follows P u s (netStep P n (.attempt x d sent)) log := by
  cases sent with
  | false =>
      refine ⟨s.giveUp x, .single (.giveUp x), ?_⟩
      have hfits : Outcome P u x (step P (n.ends x) (.connectBegin d false))
          ((s.giveUp x).waiting x) ((s.giveUp x).origin x) [d.index]
          [(u.offer P x d).1.toBytes] false := by
        simpa [Sys.giveUp] using hout
      have hmove := h.move [] hfits (by simp [Sys.giveUp]) rfl h.flight
        (List.sublist_append_left ..).subperm rfl (fun _ => rfl)
        (by rw [List.append_nil]; exact h.last)
      rwa [List.append_nil] at hmove
  | true =>
      have hfresh : d ∉ s.offered x := by
        intro hd
        have hold : d.index ∈ drawnAt x log :=
          (h.drawn x).subset (List.mem_append_left _ (List.mem_map_of_mem hd))
        rw [drawnAt_append, act, drawnAt_happened, hout.drawn] at hnodup
        exact (List.nodup_append.mp hnodup).2.2 _ hold _ (List.mem_singleton_self _) rfl
      refine ⟨(s.makeOffer x d).send x.other (.offer d), .single (.offer x d hfresh hnone), ?_⟩
      have hfits : Outcome P u x (step P (n.ends x) (.connectBegin d true))
          ((s.makeOffer x d).waiting x) ((s.makeOffer x d).origin x) [d.index]
          [u.encode P x.other (.offer d)] false := by
        simpa [Sys.makeOffer, Setup.encode] using hout
      have hflight := h.flight.send x.other (.offer d)
      rw [← hfits.sent] at hflight
      have hmove := @Simulates.move P u n s log x h _ _ _ _ _
        ((s.makeOffer x d).send x.other (.offer d)) [] hfits (by simp [Sys.makeOffer, Sys.send])
        rfl hflight (indices_makeOffer s x d).subperm
        (by simp [indices, Sys.makeOffer, Sys.send]) (fun _ => rfl)
        (by rw [List.append_nil]; exact h.last)
      rwa [List.append_nil] at hmove

theorem follows_attempt (h : Simulates P u n s log) (d : InitDraws) (sent : Bool)
    (hnodup : (drawnAt x (log ++ (netStep P n (.attempt x d sent)).2)).Nodup) :
    Follows P u s (netStep P n (.attempt x d sent)) log := by
  have hfits := h.party x
  have hevents : (netStep P n (.attempt x d sent)).2 = (act P n x (.connectBegin d sent)).2 := by
    cases sent <;> rfl
  rw [hevents] at hnodup
  rcases hends : n.ends x with ⟨tun, phase⟩
  rw [hends] at hfits
  by_cases hphase : ∃ k, phase = .connecting k
  · obtain ⟨k, rfl⟩ := hphase
    have hout := outcome_connectBegin hfits d sent
    rw [← hends] at hout
    exact follows_connectBegin h hout hfits.phase.2 hnodup
  · have hself : step P (n.ends x) (.connectBegin d sent) = (n.ends x, []) := by
      rw [hends]
      cases phase with
      | connecting k => exact absurd ⟨k, rfl⟩ hphase
      | _ => rfl
    have hnet : netStep P n (.attempt x d sent) = (n, []) := by
      change (if sent then act P n x _ else ({ (act P n x _).1 with flight := n.flight }, _)) = _
      rw [act_self hself]
      cases sent <;> rfl
    rw [hnet]
    exact h.still

theorem follows_timeout (h : Simulates P u n s log) (x : Side) (now : UInt64) :
    Follows P u s (netStep P n (.timeout x now)) log := by
  have hfits := h.party x
  rcases hends : n.ends x with ⟨tun, phase⟩
  rw [hends] at hfits
  cases phase with
  | connectWait k state =>
      obtain ⟨hnone, d, -, rfl, -⟩ := hfits.phase
      have hout := outcome_timeout hfits ⟨zeroKey, 0, now⟩ now
      rw [← hends, ← hnone] at hout
      exact ⟨s.giveUp x, .single (.giveUp x), h.giveUp hout⟩
  | _ =>
      have hself : step P (n.ends x) (.connectEnd .timeout ⟨zeroKey, 0, now⟩ now) =
          (n.ends x, []) := by
        rw [hends]
        rfl
      change Follows P u s (act P n x _) log
      rw [act_self hself]
      exact h.still

theorem follows_finish (h : Simulates P u n s log) (x : Side) (now : UInt64) :
    Follows P u s (netStep P n (.finish x now)) log := by
  have hfits := h.party x
  rcases hends : n.ends x with ⟨tun, phase⟩
  rw [hends] at hfits
  cases phase with
  | connectDone err =>
      have hout := outcome_connectFinish hfits now
      rw [← hends] at hout
      by_cases hok : err = .ok
      · rw [if_pos hok] at hout
        exact ⟨s.send x.other (.other (keepaliveOf P tun.session)), .single (.other ..),
          h.quiet hout rfl rfl (h.flight.send x.other (.other _)) rfl rfl⟩
      · rw [if_neg hok] at hout
        exact ⟨s, .refl, h.same hout⟩
  | _ =>
      have hself : step P (n.ends x) (.connectFinish now) = (n.ends x, []) := by
        rw [hends]
        rfl
      change Follows P u s (act P n x _) log
      rw [act_self hself]
      exact h.still

theorem follows_start (h : Simulates P u n s log) (x : Side) :
    Follows P u s (netStep P n (.start x)) log :=
  ⟨s, .refl, h.same (outcome_start (h.party x))⟩

section Delivery

variable {a : Action} {k : Nat}

theorem acceptance_of_ne {datagram : Bytes} {events : List Event}
    (htype : getType datagram ≠ wgMsgHandshakeInit) : acceptance n x datagram events = [] :=
  if_neg fun h => htype h.1

/-- An INIT is always taken, and the network notes whether it was outstanding. -/
theorem follows_offer (h : Simulates P u n s log) (hinv : s.Inv)
    (hnodup : (indices s x.other).Nodup) {d : InitDraws} {r : RespDraws}
    (hk : (s.flight x)[k]? = some (.offer d))
    (hout : Outcome P u x (step P (n.ends x) a) none (some (.responder d r)) [r.index]
      [u.encode P x.other (.answer d r)] true) :
    Follows P u s ((act P (n.drop x k) x a).1, (act P (n.drop x k) x a).2 ++
      acceptance n x (u.encode P x (.offer d)) (step P (n.ends x) a).2) log := by
  have hmade := (hinv.offers x d (List.mem_of_getElem? hk)).1
  have hlive : outstanding (n.ends x.other) d.index = decide (s.waiting x.other = some d) := by
    apply outstanding_eq (h.party x.other)
    intro d' hd' hindex
    exact eq_of_index hnodup hmade (hinv.waiting x.other d' hd').1 hindex
  have haccepted : acceptance n x (u.encode P x (.offer d)) (step P (n.ends x) a).2 =
      [.accepted x (outstanding (n.ends x.other) d.index)] := by
    unfold acceptance
    rw [if_pos ⟨getType_offer P u x.other d, hout.established⟩]
    dsimp only [Setup.encode]
    rw [senderIndex_offer]
  refine ⟨((s.drop x k).take x d r).send x.other (.answer d r), .single (.take x k d r hk), ?_⟩
  have hdrop := h.drop x k
  have hfits : Outcome P u x (step P ((n.drop x k).ends x) a)
      (((s.drop x k).take x d r).waiting x) (((s.drop x k).take x d r).origin x) [r.index]
      [u.encode P x.other (.answer d r)] true := by
    simpa [Sys.take, Network.drop] using hout
  have hflight := hdrop.flight.send x.other (.answer d r)
  rw [← hfits.sent] at hflight
  rw [haccepted, hlive]
  exact @Simulates.move P u _ _ log x hdrop _ _ _ _ _
    (((s.drop x k).take x d r).send x.other (.answer d r)) _ hfits
    (by simp [Sys.take, Sys.send]) (by simp [Sys.take, Sys.send]) hflight
    (indices_take (s.drop x k) x d r ▸ List.Subperm.refl _)
    (by simp [indices, Sys.take, Sys.send]) (fun _ => rfl) (lastAccepted_accepted _)

/-- A message after which the party waits no longer and has what it had. -/
theorem follows_ignored (h : Simulates P u n s log)
    (hout : Outcome P u x (step P (n.ends x) a) none (s.origin x) [] [] false) :
    Follows P u s (act P (n.drop x k) x a) log :=
  ⟨(s.drop x k).giveUp x, .tail (.single (.drop x k)) (.giveUp x), (h.drop x k).giveUp hout⟩

theorem follows_answer (h : Simulates P u n s log) {d : InitDraws} {r : RespDraws}
    (hk : (s.flight x)[k]? = some (.answer d r)) (hwait : s.waiting x = some d)
    (hout : Outcome P u x (step P (n.ends x) a) none (some (.initiator d r)) [] [] true) :
    Follows P u s (act P (n.drop x k) x a) log := by
  refine ⟨(s.drop x k).complete x d r, .single (.answer x k d r hk hwait), ?_⟩
  have hdrop := h.drop x k
  have hfits : Outcome P u x (step P ((n.drop x k).ends x) a)
      (((s.drop x k).complete x d r).waiting x) (((s.drop x k).complete x d r).origin x) [] []
      true := by
    simpa [Sys.complete, Network.drop] using hout
  exact hdrop.quiet hfits (by simp [Sys.complete]) (by simp [Sys.complete])
    (hdrop.carries_nil x.other) rfl rfl

theorem follows_read (hP : P.Lawful) (h : Simulates P u n s log) (hinv : s.Inv)
    (hnodup : ∀ y, (indices s y).Nodup) {t : Token InitDraws RespDraws Keepalive}
    {src : Option SockAddr} {resp : RespDraws} {now : UInt64}
    (hk : (s.flight x)[k]? = some t)
    (hread : reader (n.ends x) (u.encode P x t) src resp now = some a) :
    Follows P u s ((act P (n.drop x k) x a).1, (act P (n.drop x k) x a).2 ++
      acceptance n x (u.encode P x t) (step P (n.ends x) a).2) log := by
  have hfits := h.party x
  cases t with
  | offer d => exact follows_offer h hinv (hnodup x.other) hk (outcome_read_offer hP hfits hread)
  | answer d r =>
      have htaken := hinv.answers x d r (List.mem_of_getElem? hk)
      have hmade := hinv.taken x.other d r htaken
      rw [Side.other_other] at hmade
      have hdistinct : ∀ d', s.waiting x = some d' → d'.index = d.index → d' = d := by
        intro d' hd' hindex
        exact eq_of_index (hnodup x) hmade (hinv.waiting x d' hd').1 hindex
      rw [acceptance_of_ne (by rw [Setup.encode, getType_answer]; decide), List.append_nil]
      rcases outcome_read_answer hP hfits hdistinct hread with ⟨hwait, hout⟩ | hout
      · exact follows_answer h hk hwait hout
      · exact follows_ignored h hout
  | other m =>
      rw [acceptance_of_ne (by rw [Setup.encode, m.2.2]; decide), List.append_nil]
      exact follows_ignored h (outcome_read_other hfits hread)

theorem follows_deliver (hP : P.Lawful) (h : Simulates P u n s log) (hinv : s.Inv)
    (hnodup : ∀ y, (indices s y).Nodup) (x : Side) (k : Nat) (src : Option SockAddr)
    (resp : RespDraws) (now : UInt64) :
    Follows P u s (netStep P n (.deliver x k src resp now)) log := by
  unfold netStep
  dsimp only
  cases hdatagram : (n.flight x)[k]? with
  | none => exact h.still
  | some datagram =>
      rw [h.flight x, List.getElem?_map, Option.map_eq_some_iff] at hdatagram
      obtain ⟨t, hk, rfl⟩ := hdatagram
      cases hread : reader (n.ends x) (u.encode P x t) src resp now with
      | none =>
          dsimp only
          rw [hread]
          exact h.still
      | some a =>
          dsimp only
          rw [hread]
          exact follows_read hP h hinv hnodup hk hread

end Delivery

/-- Every action of the network is a sequence of abstract steps. -/
theorem follows_netStep (hP : P.Lawful) (h : Simulates P u n s log) (hinv : s.Inv)
    (a : NetAction) (hnodup : ∀ y, (drawnAt y (log ++ (netStep P n a).2)).Nodup) :
    Follows P u s (netStep P n a) log := by
  have hindices : ∀ y, (indices s y).Nodup := by
    intro y
    have hlog := hnodup y
    rw [drawnAt_append] at hlog
    exact h.nodup hlog.of_append_left
  cases a with
  | attempt x d sent => exact follows_attempt h d sent (hnodup x)
  | timeout x now => exact follows_timeout h x now
  | deliver x k src resp now => exact follows_deliver hP h hinv hindices x k src resp now
  | drop x k => exact ⟨s.drop x k, .single (.drop x k), by simpa [netStep] using h.drop x k⟩
  | finish x now => exact follows_finish h x now
  | start x => exact follows_start h x

theorem simulates_run (hP : P.Lawful) (u : Setup) (actions : List NetAction)
    (hnodup : ∀ y, (drawnAt y (run (netStep P) (network P u) actions).2).Nodup) :
    ∃ s : Opening, s.Inv ∧ Simulates P u (run (netStep P) (network P u) actions).1 s
      (run (netStep P) (network P u) actions).2 := by
  let Reached : Network → List NetEvent → Prop := fun n log =>
    (∀ y, (drawnAt y log).Nodup) →
      ∃ s : Opening, ReflTransGen Sys.Step Sys.start s ∧ Simulates P u n s log
  have hstart : Reached (network P u) [] := fun _ => ⟨Sys.start, .refl, simulates_start⟩
  have hstep : ∀ n log a, Reached n log → True →
      Reached (netStep P n a).1 (log ++ (netStep P n a).2) := by
    intro n log a ih _ hlog
    have hbefore : ∀ y, (drawnAt y log).Nodup := by
      intro y
      have hall := hlog y
      rw [drawnAt_append] at hall
      exact hall.of_append_left
    obtain ⟨s, hreach, hsim⟩ := ih hbefore
    obtain ⟨s', hsteps, hsim'⟩ :=
      follows_netStep hP hsim (Sys.inv_steps Sys.inv_start hreach) a hlog
    exact ⟨s', hreach.trans hsteps, hsim'⟩
  have hrun := run_invariant (netStep P) hstep hstart (allSteps_true (netStep P) _ actions)
  rw [List.nil_append] at hrun
  obtain ⟨s, hreach, hsim⟩ := hrun hnodup
  exact ⟨s, Sys.inv_steps Sys.inv_start hreach, hsim⟩

end Simulation

section Agreement

variable {P : Primitives} {u : Setup} {n : Network} {s : Opening} {log : List NetEvent}
  {x : Side}

theorem ne_of_nodup (hnodup : (indices s x).Nodup) {d d' : InitDraws} {r : RespDraws}
    (hoffered : d ∈ s.offered x) (htaken : (d', r) ∈ s.taken x) : r.index ≠ d.index := by
  intro heq
  have hdisjoint := List.disjoint_of_nodup_append hnodup
  exact hdisjoint (List.mem_map_of_mem hoffered) (heq ▸ List.mem_map_of_mem htaken)

variable (h : Simulates P u n s log) (hinv : s.Inv) (hnodup : ∀ y, (indices s y).Nodup)

include h

theorem match_of_exchange {d : InitDraws} {r : RespDraws}
    (hinit : s.origin x = some (.initiator d r))
    (hresp : s.origin x.other = some (.responder d r)) :
    SessionsMatch (n.ends x).tun.session (n.ends x.other).tun.session := by
  have hleft := (h.party x).session
  have hright := (h.party x.other).session
  rw [hinit] at hleft
  rw [hresp, SessionFrom, Side.other_other] at hright
  exact ⟨hleft.sendingKey.trans hright.receivingKey.symm,
    hleft.receivingKey.trans hright.sendingKey.symm,
    hleft.remoteIndex.trans hright.localIndex.symm,
    hright.remoteIndex.trans hleft.localIndex.symm⟩

include hinv hnodup

/-- The indices of an initiator match only those of its responder. -/
theorem responder_of_match {d : InitDraws} {r : RespDraws}
    (hinit : s.origin x = some (.initiator d r)) (hother : s.origin x.other ≠ none)
    (hmatch : SessionsMatch (n.ends x).tun.session (n.ends x.other).tun.session) :
    s.origin x.other = some (.responder d r) := by
  have hmine := (h.party x).session
  have htheirs := (h.party x.other).session
  have htaken := hinv.initiator x d r hinit
  rw [hinit] at hmine
  rcases horigin : s.origin x.other with _ | ⟨d', r'⟩ | ⟨d', r'⟩
  · exact absurd horigin hother
  · -- Both initiated: an answer of the other party has the index of its offer.
    rw [horigin] at htheirs
    have hmade := hinv.taken _ d' r' (hinv.initiator _ d' r' horigin)
    rw [Side.other_other] at hmade
    have hindex := hmine.remoteIndex.symm.trans (hmatch.remote.trans htheirs.localIndex)
    exact absurd hindex (ne_of_nodup (hnodup x.other) hmade htaken)
  · rw [horigin] at htheirs
    have htaken' := hinv.responder _ d' r' horigin
    have hindex := hmine.remoteIndex.symm.trans (hmatch.remote.trans htheirs.localIndex)
    have hpair : (d, r) = (d', r') :=
      List.inj_on_of_nodup_map (hnodup x.other).of_append_right htaken htaken' hindex
    cases hpair
    rfl

/-- Two responders never match. -/
theorem not_match_of_responders {d d' : InitDraws} {r r' : RespDraws}
    (hresp : s.origin x = some (.responder d r))
    (hresp' : s.origin x.other = some (.responder d' r')) :
    ¬ SessionsMatch (n.ends x).tun.session (n.ends x.other).tun.session := by
  intro hmatch
  have hmine := (h.party x).session
  have htheirs := (h.party x.other).session
  rw [hresp] at hmine
  rw [hresp'] at htheirs
  have hmade := hinv.taken x d r (hinv.responder x d r hresp)
  have hindex := hmine.remoteIndex.symm.trans (hmatch.remote.trans htheirs.localIndex)
  exact ne_of_nodup (hnodup x.other) hmade (hinv.responder _ d' r' hresp') hindex.symm

theorem match_iff_paired (hboth : ∀ y, s.origin y ≠ none) :
    SessionsMatch (n.ends .left).tun.session (n.ends .right).tun.session ↔ s.Paired := by
  constructor
  · intro hmatch
    rcases hleft : s.origin .left with _ | ⟨d, r⟩ | ⟨d, r⟩
    · exact absurd hleft (hboth .left)
    · exact ⟨.left, d, r, hleft, responder_of_match h hinv hnodup hleft (hboth _) hmatch⟩
    · rcases hright : s.origin .right with _ | ⟨d', r'⟩ | ⟨d', r'⟩
      · exact absurd hright (hboth .right)
      · exact ⟨.right, d', r', hright,
          responder_of_match h hinv hnodup hright (hboth _) hmatch.symm⟩
      · exact absurd hmatch (not_match_of_responders h hinv hnodup hleft hright)
  · rintro ⟨x, d, r, hinit, hresp⟩
    have hmatch := match_of_exchange h hinit hresp
    cases x with
    | left => exact hmatch
    | right => exact hmatch.symm

end Agreement

/-- Both calls have returned `WG_OK`: the two sessions match exactly if the INIT
that was accepted last was accepted while its sender waited for the RESPONSE. -/
theorem connected_sessions_match_iff {P : Primitives} (hP : P.Lawful) (u : Setup)
    (actions : List NetAction) :
    let out := run (netStep P) (network P u) actions
    (∀ x, (drawnAt x out.2).Nodup) → (∀ x, (out.1.ends x).phase = .idle .ok) →
      (SessionsMatch (out.1.ends .left).tun.session (out.1.ends .right).tun.session ↔
        lastAccepted out.2 = some true) := by
  intro out hnodup hreturned
  obtain ⟨s, hinv, hsim⟩ := simulates_run hP u actions hnodup
  have hboth : ∀ x, s.origin x ≠ none := by
    intro x
    have hphase := (hsim.party x).phase
    unfold PhaseFits at hphase
    rw [show (out.1.ends x).phase = .idle .ok from hreturned x] at hphase
    exact hphase.2.mp rfl
  have hindices : ∀ x, (indices s x).Nodup := fun x => hsim.nodup (hnodup x)
  rw [match_iff_paired hsim hinv hindices hboth, Sys.paired_iff_last_live hinv hboth, hsim.last,
    Option.map_eq_some_iff]

section Samples

/-- The owners of the key of threes and of the key of fives. -/
def sampleSetup : Setup where
  privateKey
    | .left => Vector.replicate 32 3
    | .right => Vector.replicate 32 5
  presharedKey := zeroKey
  hasPresharedKey := false
  tunnelIp _ := 0
  keepaliveInterval _ := 25
  endpoint _ := ⟨0, 51820⟩

def sampleDraws (salt : UInt8) : InitDraws :=
  ⟨Vector.replicate 32 salt, salt.toUInt32, Vector.replicate 12 salt, 1000⟩

def sampleAnswer (salt : UInt8) : RespDraws :=
  ⟨Vector.replicate 32 salt, salt.toUInt32, 2000⟩

/-- The right party takes the INIT of the left one, which gets the RESPONSE; its
own INIT is lost. -/
def answeredOpening : List NetAction :=
  [.attempt .left (sampleDraws 7) true, .attempt .right (sampleDraws 11) true,
    .deliver .right 0 none (sampleAnswer 13) 2000,
    .deliver .left 1 none (sampleAnswer 17) 2000,
    .finish .left 3000, .finish .right 3000, .drop .left 0]

/-- Both INITs arrive while the other party waits, and nothing is lost. -/
def crossedOpening : List NetAction :=
  [.attempt .left (sampleDraws 7) true, .attempt .right (sampleDraws 11) true,
    .deliver .right 0 none (sampleAnswer 13) 2000,
    .deliver .left 0 none (sampleAnswer 17) 2000,
    .finish .left 3000, .finish .right 3000, .start .left, .start .right,
    .deliver .left 0 none (sampleAnswer 19) 4000,
    .deliver .left 0 none (sampleAnswer 19) 4000,
    .deliver .right 0 none (sampleAnswer 19) 4000,
    .deliver .right 0 none (sampleAnswer 19) 4000]

end Samples

theorem connected_sessions_match_answered :
    let out := run (netStep additive) (network additive sampleSetup) answeredOpening
    SessionsMatch (out.1.ends .left).tun.session (out.1.ends .right).tun.session := by
  have hall : let out := run (netStep additive) (network additive sampleSetup) answeredOpening
      ((out.1.ends .left).phase = .idle .ok ∧ (out.1.ends .right).phase = .idle .ok) ∧
      ((drawnAt .left out.2).Nodup ∧ (drawnAt .right out.2).Nodup) ∧
      lastAccepted out.2 = some true := by
    decide +kernel
  obtain ⟨hreturned, hnodup, hlast⟩ := hall
  refine (connected_sessions_match_iff additive_lawful sampleSetup answeredOpening ?_ ?_).mpr hlast
  · intro x
    cases x
    · exact hnodup.1
    · exact hnodup.2
  · intro x
    cases x
    · exact hreturned.1
    · exact hreturned.2

/-- Both calls return `WG_OK` and every message is delivered, but each party has
the keys of the exchange in which it was the responder. -/
theorem crossed_inits_mismatch :
    let out := run (netStep additive) (network additive sampleSetup) crossedOpening
    ((out.1.ends .left).phase = .idle .ok ∧ (out.1.ends .right).phase = .idle .ok) ∧
      (out.1.flight .left = [] ∧ out.1.flight .right = []) ∧
      ((drawnAt .left out.2).Nodup ∧ (drawnAt .right out.2).Nodup) ∧
      ¬ SessionsMatch (out.1.ends .left).tun.session (out.1.ends .right).tun.session := by
  have hall : let out := run (netStep additive) (network additive sampleSetup) crossedOpening
      ((out.1.ends .left).phase = .idle .ok ∧ (out.1.ends .right).phase = .idle .ok) ∧
      (out.1.flight .left = [] ∧ out.1.flight .right = []) ∧
      ((drawnAt .left out.2).Nodup ∧ (drawnAt .right out.2).Nodup) ∧
      (out.1.ends .left).tun.session.sendingKey ≠
        (out.1.ends .right).tun.session.receivingKey := by
    decide +kernel
  obtain ⟨hreturned, hflight, hnodup, hkeys⟩ := hall
  exact ⟨hreturned, hflight, hnodup, fun hmatch => hkeys hmatch.sending⟩

end WgNx.OpeningNetwork
