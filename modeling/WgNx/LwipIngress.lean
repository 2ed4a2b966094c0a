import Mathlib.Data.Finset.Basic
import WgNx.OutputMachine

/-!
How packets get from the tunnel into lwIP.

The recv thread puts slots into a queue and wakes the loop thread with a byte on a
loopback socket; the loop thread drains the bytes, takes at most sixteen packets and
wraps each in a custom pbuf that returns the slot when lwIP frees it.  `stop` may run
beside both.  The machine interleaves the threads at the places where one can see what
another did, and shows that no packet is left in the queue without a wake-up on its way.
-/

namespace WgNx.LwipIngress

open WgNx.OutputMachine

section Model

def kSlotHolderCount : Nat := 128
def kMaxPerIteration : Nat := 16

/-- A slot is named by a number; `slot` is the null pointer while the holder is free. -/
structure WgSlotPbuf where
  slot : Option Nat
  inUse : Bool
deriving DecidableEq

structure IncomingSlot where
  slot : Nat
  len : Nat
deriving DecidableEq

/-- A call of `handleIncomingPacket`: before its test, between the test and the push,
between the push and the wake-up, and after its return. -/
inductive Call
  | entered (slot : Option Nat) (data : Bool) (len : Nat)
  | tested (pkt : IncomingSlot)
  | enqueued (slot : Nat) (wasEmpty : Bool)
  | finished
deriving DecidableEq

/-- Where the loop thread stands.  `polling` is the call of `poll`, `polled` its return,
`processing` holds what `processIncomingQueue` has taken. -/
inductive LoopPc
  | top
  | polling
  | polled (readable : Bool)
  | draining
  | toProcess
  | processing (packets : List IncomingSlot) (more : Bool)
  | ended
deriving DecidableEq

inductive StopPc
  | notCalled
  | flagged
  | unregistered
  | signalled
  | joined
  | closed
  | drained
  | returned
deriving DecidableEq

/-- The holders, and those whose pbuf lwIP has not freed. -/
structure Pbufs where
  holders : List WgSlotPbuf
  lwip : Finset Nat
deriving DecidableEq

/-- `wake` counts the bytes that can be read from the wake socket, and `wakeOpen` says
that the socket has not been closed. -/
structure Relay where
  running : Bool
  registered : Bool
  wakeOpen : Bool
  wake : Nat
  queue : List IncomingSlot
  calls : List Call
  loop : LoopPc
  stop : StopPc
  pbufs : Pbufs
deriving DecidableEq

/-- `handleIncomingPacket` returned 1 for a slot; a slot went back to the pool. -/
inductive Event
  | accepted (slot : Nat)
  | released (slot : Nat)
deriving DecidableEq

inductive Action
  | enter (slot : Option Nat) (data : Bool) (len : Nat)
  | call (i : Nat)
  | loop (seen alloc : Bool)
  | free (i : Nat)
  | stop
  /-- `startTcpRelay` and `startUdpRelay` wake the loop too. -/
  | signal
deriving DecidableEq

def started : Relay where
  running := true
  registered := true
  wakeOpen := true
  wake := 0
  queue := []
  calls := []
  loop := .top
  stop := .notCalled
  pbufs := ⟨List.replicate kSlotHolderCount ⟨none, false⟩, ∅⟩

def signalWake (s : Relay) : Relay :=
  if s.wakeOpen then { s with wake := s.wake + 1 } else s

/-- The next part of the call with number `i`. -/
def handleIncomingPacket (s : Relay) (i : Nat) : Relay × List Event :=
  match s.calls[i]? with
  | some (.entered (some slot) data len) =>
      if !s.running || !data || len == 0 then ({ s with calls := s.calls.set i .finished }, [])
      else ({ s with calls := s.calls.set i (.tested ⟨slot, len⟩) }, [])
  | some (.entered none _ _) => ({ s with calls := s.calls.set i .finished }, [])
  | some (.tested pkt) =>
      ({ s with
        queue := s.queue ++ [pkt]
        calls := s.calls.set i (.enqueued pkt.slot s.queue.isEmpty) }, [])
  | some (.enqueued slot wasEmpty) =>
      let woken := if wasEmpty then signalWake s else s
      ({ woken with calls := s.calls.set i .finished }, [.accepted slot])
  | some .finished | none => (s, [])

/-- `alloc` says whether `pbuf_alloced_custom` succeeds; from then on lwIP has the pbuf. -/
def wgNetifInputSlot (pb : Pbufs) (pkt : IncomingSlot) (holder : Nat) (alloc : Bool) :
    Pbufs × List Event :=
  if pkt.len = 0 then (pb, [.released pkt.slot])
  else if alloc then
    (⟨pb.holders.set holder ⟨some pkt.slot, true⟩, insert holder pb.lwip⟩, [])
  else (⟨pb.holders.set holder ⟨none, false⟩, pb.lwip⟩, [.released pkt.slot])

def freeHolder (pb : Pbufs) : Option Nat := pb.holders.findIdx? fun h => !h.inUse

def processPacket (pb : Pbufs) (pkt : IncomingSlot) (alloc : Bool) : Pbufs × List Event :=
  match freeHolder pb with
  | none => (pb, [.released pkt.slot])
  | some holder => wgNetifInputSlot pb pkt holder alloc

/-- lwIP calls it when the last reference to the pbuf of a holder goes. -/
def wgSlotPbufFree (pb : Pbufs) (i : Nat) : Pbufs × List Event :=
  match pb.holders[i]? with
  | none => (pb, [])
  | some holder =>
      (⟨pb.holders.set i ⟨none, false⟩, pb.lwip.erase i⟩,
        match holder.slot with
        | some slot => [.released slot]
        | none => [])

/-- The next part of `runLoop`.  `seen` says whether `poll` reports a readable wake socket,
each round of `draining` is one `read`. -/
def runLoop (s : Relay) (seen alloc : Bool) : Relay × List Event :=
  match s.loop with
  | .top => ({ s with loop := if s.running then .polling else .ended }, [])
  | .polling => ({ s with loop := .polled (seen && decide (0 < s.wake)) }, [])
  | .polled readable =>
      ({ s with
        loop := if !s.running then .ended else if readable then .draining else .toProcess }, [])
  | .draining =>
      (if 0 < s.wake then { s with wake := s.wake - 1 } else { s with loop := .toProcess }, [])
  | .toProcess =>
      ({ s with
        queue := s.queue.drop kMaxPerIteration
        loop := .processing (s.queue.take kMaxPerIteration)
          !(s.queue.drop kMaxPerIteration).isEmpty }, [])
  | .processing (pkt :: rest) more =>
      let out := processPacket s.pbufs pkt alloc
      ({ s with pbufs := out.1, loop := .processing rest more }, out.2)
  | .processing [] more =>
      let woken := if more then signalWake s else s
      ({ woken with loop := .top }, [])
  | .ended => (s, [])

/-- The next part of `stop`; the join waits for the end of the loop. -/
def stop (s : Relay) : Relay × List Event :=
  match s.stop with
  | .notCalled => ({ s with running := false, stop := .flagged }, [])
  | .flagged => ({ s with registered := false, stop := .unregistered }, [])
  | .unregistered => ({ signalWake s with stop := .signalled }, [])
  | .signalled => (if s.loop = .ended then { s with stop := .joined } else s, [])
  | .joined => ({ s with wakeOpen := false, stop := .closed }, [])
  | .closed =>
      ({ s with queue := [], stop := .drained }, s.queue.map fun pkt => .released pkt.slot)
  | .drained => ({ s with stop := .returned }, [])
  | .returned => (s, [])

def step (s : Relay) : Action → Relay × List Event
  | .enter slot data len =>
      -- the recv thread calls what it finds registered
      (if s.registered then { s with calls := s.calls ++ [.entered slot data len] } else s, [])
  | .call i => handleIncomingPacket s i
  | .loop seen alloc => runLoop s seen alloc
  | .free i =>
      if i ∈ s.pbufs.lwip then
        let out := wgSlotPbufFree s.pbufs i
        ({ s with pbufs := out.1 }, out.2)
      else (s, [])
  | .stop => stop s
  | .signal => (signalWake s, [])

end Model

section Counting

variable {α : Type*} {p : α → Bool} {l : List α} {i : Nat} {a b : α}

theorem countP_set_add (h : l[i]? = some a) :
    (l.set i b).countP p + (p a).toNat = l.countP p + (p b).toNat := by
  obtain ⟨hlt, rfl⟩ := List.getElem?_eq_some_iff.mp h
  rw [List.countP_set hlt]
  cases ha : p l[i] with
  | false => cases p b <;> rfl
  | true =>
      have hpos : 0 < l.countP p := List.countP_pos_iff.mpr ⟨l[i], List.getElem_mem hlt, ha⟩
      cases p b <;> simp <;> omega

end Counting

section Wakeups

def Call.aboutToSignal : Call → Bool
  | .enqueued _ wasEmpty => wasEmpty
  | _ => false

/-- The loop will look into the queue before it blocks, will wake itself, or is over. -/
def LoopPc.looks : LoopPc → Bool
  | .top | .polling => false
  | .processing _ more => more
  | _ => true

def Joined (s : Relay) : Prop :=
  s.stop ∈ [StopPc.joined, .closed, .drained, .returned] → s.loop = .ended

structure Awake (s : Relay) : Prop where
  joined : Joined s
  wakeOpen : s.wakeOpen = true ∨ s.loop = .ended
  noticed : s.queue ≠ [] →
    0 < s.wake ∨ 0 < s.calls.countP Call.aboutToSignal ∨ s.loop.looks = true

theorem awake_started : Awake started where
  joined := fun h => by simp [started] at h
  wakeOpen := .inl rfl
  noticed := fun h => absurd rfl h

theorem signalWake_eq (s : Relay) : ∃ wake, signalWake s = { s with wake := wake } := by
  unfold signalWake
  split
  · exact ⟨s.wake + 1, rfl⟩
  · exact ⟨s.wake, rfl⟩

theorem signalWake_if_eq (s : Relay) (wakes : Bool) :
    ∃ wake, (if wakes then signalWake s else s) = { s with wake := wake } := by
  cases wakes with
  | false => exact ⟨s.wake, rfl⟩
  | true => exact signalWake_eq s

theorem awake_signalWake {s : Relay} (h : Awake s) : Awake (signalWake s) := by
  unfold signalWake
  split
  · exact ⟨h.joined, h.wakeOpen, fun _ => .inl (Nat.succ_pos _)⟩
  · exact h

theorem wake_signalWake {s : Relay} (h : s.wakeOpen = true ∨ s.loop = .ended) :
    0 < (signalWake s).wake ∨ s.loop.looks = true := by
  unfold signalWake
  rcases h with hopen | hended
  · rw [if_pos hopen]
    exact .inl (Nat.succ_pos _)
  · rw [hended]
    exact .inr rfl

theorem aboutToSignal_set {calls : List Call} {i : Nat} {call call' : Call}
    (hcall : calls[i]? = some call) (hnot : call.aboutToSignal = false)
    (h : 0 < calls.countP Call.aboutToSignal) :
    0 < (calls.set i call').countP Call.aboutToSignal := by
  have hcount := countP_set_add (p := Call.aboutToSignal) (b := call') hcall
  rw [hnot] at hcount
  simp only [Bool.toNat_false] at hcount
  omega

theorem awake_replaced {s : Relay} {i : Nat} {call call' : Call} (h : Awake s)
    (hcall : s.calls[i]? = some call) (hnot : call.aboutToSignal = false) :
    Awake { s with calls := s.calls.set i call' } where
  joined := h.joined
  wakeOpen := h.wakeOpen
  noticed hqueue := by
    rcases h.noticed hqueue with hwake | hpending | hlooks
    · exact .inl hwake
    · exact .inr (.inl (aboutToSignal_set hcall hnot hpending))
    · exact .inr (.inr hlooks)

theorem awake_handleIncomingPacket {s : Relay} (h : Awake s) (i : Nat) :
    Awake (handleIncomingPacket s i).1 := by
  unfold handleIncomingPacket
  split
  · rename_i slot data len hcall
    split <;> exact awake_replaced h hcall rfl
  · rename_i data len hcall
    exact awake_replaced h hcall rfl
  · rename_i pkt hcall
    refine ⟨h.joined, h.wakeOpen, fun _ => ?_⟩
    by_cases hempty : s.queue = []
    · -- this call has found the queue empty and will signal
      have hcount := countP_set_add (p := Call.aboutToSignal)
        (b := .enqueued pkt.slot s.queue.isEmpty) hcall
      simp only [Call.aboutToSignal, hempty, List.isEmpty_nil, Bool.toNat_true,
        Bool.toNat_false] at hcount ⊢
      exact .inr (.inl (by omega))
    · exact (awake_replaced h hcall rfl).noticed hempty
  · rename_i slot wasEmpty hcall
    cases wasEmpty with
    | false => exact awake_replaced h hcall rfl
    | true =>
        have hwoken := awake_signalWake h
        refine ⟨hwoken.joined, hwoken.wakeOpen, fun _ => ?_⟩
        rcases wake_signalWake h.wakeOpen with hwake | hlooks
        · exact .inl hwake
        · refine .inr (.inr ?_)
          obtain ⟨wake, hsignal⟩ := signalWake_eq s
          simp only [if_true, hsignal]
          exact hlooks
  · exact h
  · exact h

theorem awake_moved {s : Relay} (h : Awake s) (hrunning : s.loop ≠ .ended) (pc : LoopPc)
    (pb : Pbufs) (hlooks : s.loop.looks = true → pc.looks = true) :
    Awake { s with loop := pc, pbufs := pb } where
  joined hstop := absurd (h.joined hstop) hrunning
  wakeOpen := .inl (h.wakeOpen.resolve_right hrunning)
  noticed hqueue := by
    rcases h.noticed hqueue with hwake | hpending | hloop
    · exact .inl hwake
    · exact .inr (.inl hpending)
    · exact .inr (.inr (hlooks hloop))

theorem awake_runLoop {s : Relay} (h : Awake s) (seen alloc : Bool) :
    Awake (runLoop s seen alloc).1 := by
  by_cases hrunning : s.loop = .ended
  · simp only [runLoop, hrunning]
    exact h
  have hmove := awake_moved h hrunning
  have hjoined : ∀ {t : Relay}, t.stop = s.stop → Joined t := fun hstop hin =>
    absurd (h.joined (hstop ▸ hin)) hrunning
  have hopen := h.wakeOpen.resolve_right hrunning
  unfold runLoop
  split
  · rename_i hloop
    exact hmove _ s.pbufs fun hlooks => by simp [hloop, LoopPc.looks] at hlooks
  · rename_i hloop
    exact hmove _ s.pbufs fun _ => rfl
  · rename_i readable hloop
    refine hmove _ s.pbufs fun _ => ?_
    split
    · rfl
    · split <;> rfl
  · rename_i hloop
    split
    · exact ⟨h.joined, .inl hopen, fun _ => .inr (.inr (by rw [hloop]; rfl))⟩
    · exact hmove _ s.pbufs fun _ => rfl
  · rename_i hloop
    refine ⟨hjoined rfl, .inl hopen, fun hqueue => .inr (.inr ?_)⟩
    rw [LoopPc.looks, List.isEmpty_eq_false_iff.mpr hqueue]
    rfl
  · rename_i pkt rest more hloop
    refine hmove _ _ fun hlooks => ?_
    rw [hloop] at hlooks
    exact hlooks
  · rename_i more hloop
    cases more with
    | false => exact hmove _ s.pbufs fun hlooks => by simp [hloop, LoopPc.looks] at hlooks
    | true =>
        simp only [signalWake, hopen, if_true]
        exact ⟨hjoined rfl, .inl rfl, fun _ => .inl (Nat.succ_pos _)⟩
  · exact h

theorem awake_stop {s : Relay} (h : Awake s) : Awake (stop s).1 := by
  have hwoken := awake_signalWake h
  unfold stop
  split
  · exact ⟨fun hstop => by simp at hstop, h.wakeOpen, h.noticed⟩
  · exact ⟨fun hstop => by simp at hstop, h.wakeOpen, h.noticed⟩
  · exact ⟨fun hstop => by simp at hstop, hwoken.wakeOpen, hwoken.noticed⟩
  · split
    · rename_i hended
      exact ⟨fun _ => hended, h.wakeOpen, h.noticed⟩
    · exact h
  · rename_i hstop
    have hended := h.joined (by simp [hstop])
    exact ⟨fun _ => hended, .inr hended, h.noticed⟩
  · rename_i hstop
    exact ⟨fun _ => h.joined (by simp [hstop]), h.wakeOpen, fun hqueue => absurd rfl hqueue⟩
  · rename_i hstop
    exact ⟨fun _ => h.joined (by simp [hstop]), h.wakeOpen, h.noticed⟩
  · exact h

theorem awake_step (s : Relay) (a : Action) (h : Awake s) : Awake (step s a).1 := by
  cases a with
  | enter slot data len =>
      simp only [step]
      split
      · refine ⟨h.joined, h.wakeOpen, fun hqueue => ?_⟩
        simp only [List.countP_append]
        rcases h.noticed hqueue with hwake | hpending | hlooks
        · exact .inl hwake
        · exact .inr (.inl (Nat.add_pos_left hpending _))
        · exact .inr (.inr hlooks)
      · exact h
  | call i => exact awake_handleIncomingPacket h i
  | loop seen alloc => exact awake_runLoop h seen alloc
  | free i =>
      simp only [step]
      split
      · exact ⟨h.joined, h.wakeOpen, h.noticed⟩
      · exact h
  | stop => exact awake_stop h
  | signal => exact awake_signalWake h

/-- Whenever the loop is about to block with packets in the queue, a wake byte is pending
or a call that has pushed its packet is about to signal. -/
theorem no_lost_wakeup (actions : List Action) :
    AllStates step
      (fun s => s.loop = .polling → s.queue ≠ [] →
        0 < s.wake ∨ ∃ call ∈ s.calls, call.aboutToSignal = true)
      started actions := by
  refine AllStates.of_invariant awake_step (fun s h hloop hqueue => ?_) awake_started actions
  rcases h.noticed hqueue with hwake | hpending | hlooks
  · exact .inl hwake
  · exact .inr (List.countP_pos_iff.mp hpending)
  · rw [hloop] at hlooks
    cases hlooks

/-- The loop blocks just after a call has pushed its packet and before it signals. -/
example :
    let s := (run step started [.loop true true, .enter (some 4) true 60, .call 0, .call 0]).1
    s.loop = .polling ∧ s.queue = [⟨4, 60⟩] ∧ s.wake = 0 ∧ s.calls = [.enqueued 4 true] := by
  decide +kernel

end Wakeups

end WgNx.LwipIngress
