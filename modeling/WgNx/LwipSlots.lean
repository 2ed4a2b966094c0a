import WgNx.LwipIngress

/-!
Who has a slot on its way through lwIP.

For every slot the calls in which `handleIncomingPacket` has pushed it are counted against
its releases and the places where it can be: the queue, the batch the loop thread has
taken, and a holder whose pbuf lwIP has.  The balance holds in every state of every run, so
that what may be missing in the end is what is still in the queue.
-/

namespace WgNx.LwipSlots

open WgNx.LwipIngress WgNx.OutputMachine

section Places

def accepts (slot : Nat) : Event → Bool
  | .accepted other => other == slot
  | .released _ => false

def releases (slot : Nat) : Event → Bool
  | .accepted _ => false
  | .released other => other == slot

/-- The call has pushed the slot and not yet returned. -/
def pushed (slot : Nat) : Call → Bool
  | .enqueued other _ => other == slot
  | _ => false

def carries (slot : Nat) (pkt : IncomingSlot) : Bool := pkt.slot == slot

def holds (slot : Nat) (holder : WgSlotPbuf) : Bool := holder.slot == some slot

/-- What the loop thread has taken and not yet looked at. -/
def batch : LoopPc → List IncomingSlot
  | .processing packets _ => packets
  | _ => []

/-- How often the relay has the slot. -/
def custody (s : Relay) (slot : Nat) : Nat :=
  s.queue.countP (carries slot) + (batch s.loop).countP (carries slot) +
    s.pbufs.holders.countP (holds slot)

def inFlight (s : Relay) (slot : Nat) : Nat := s.calls.countP (pushed slot)

/-- A holder is in use exactly while lwIP has its pbuf, and a free one names no slot. -/
def WellKept (pb : Pbufs) : Prop :=
  ∀ i holder, pb.holders[i]? = some holder →
    (holder.inUse = true ↔ i ∈ pb.lwip) ∧ (holder.inUse = false → holder.slot = none)

/-- The holder that would be taken next is not one whose pbuf lwIP has. -/
def HolderFree (s : Relay) : Prop := ∀ i, freeHolder s.pbufs = some i → i ∉ s.pbufs.lwip

end Places

section Holders

variable {pb : Pbufs} {i : Nat}

theorem freeHolder_spec (h : freeHolder pb = some i) :
    ∃ holder, pb.holders[i]? = some holder ∧ holder.inUse = false := by
  obtain ⟨hlt, hfree, -⟩ := List.findIdx?_eq_some_iff_getElem.mp h
  exact ⟨pb.holders[i], List.getElem?_eq_getElem hlt, by simpa using hfree⟩

theorem holderFree_of_wellKept {s : Relay} (h : WellKept s.pbufs) : HolderFree s := by
  intro i hfree hin
  obtain ⟨holder, hat, hunused⟩ := freeHolder_spec hfree
  rw [((h i holder hat).1).mpr hin] at hunused
  cases hunused

/-- A holder is set, and the others stay what they were. -/
theorem wellKept_set {holder : WgSlotPbuf} {lwip : Finset Nat} (h : WellKept pb)
    (hself : (holder.inUse = true ↔ i ∈ lwip) ∧ (holder.inUse = false → holder.slot = none))
    (hother : ∀ j, j ≠ i → (j ∈ lwip ↔ j ∈ pb.lwip)) :
    WellKept ⟨pb.holders.set i holder, lwip⟩ := by
  intro j other hat
  rw [List.getElem?_set] at hat
  split at hat
  · rename_i heq
    subst heq
    split at hat
    · cases hat
      exact hself
    · cases hat
  · rename_i hne
    rw [hother j fun heq => hne heq.symm]
    exact h j other hat

theorem wellKept_processPacket (h : WellKept pb) (pkt : IncomingSlot) (alloc : Bool) :
    WellKept (processPacket pb pkt alloc).1 := by
  unfold processPacket
  split
  · exact h
  · rename_i i hfree
    obtain ⟨holder, hat, hunused⟩ := freeHolder_spec hfree
    unfold wgNetifInputSlot
    split
    · exact h
    · split
      · refine wellKept_set h ⟨by simp, by simp⟩ fun j hne => ?_
        simp [hne]
      · refine wellKept_set h ⟨?_, fun _ => rfl⟩ fun j _ => Iff.rfl
        rw [← (h i holder hat).1, hunused]

theorem wellKept_wgSlotPbufFree (h : WellKept pb) : WellKept (wgSlotPbufFree pb i).1 := by
  unfold wgSlotPbufFree
  split
  · exact h
  · exact wellKept_set h ⟨by simp, fun _ => rfl⟩ fun j hne => by simp [hne]

/-- The packet ends up in a holder or its slot is released. -/
theorem holders_processPacket (h : WellKept pb) (pkt : IncomingSlot) (alloc : Bool) (slot : Nat) :
    (processPacket pb pkt alloc).1.holders.countP (holds slot) +
        (processPacket pb pkt alloc).2.countP (releases slot) =
      pb.holders.countP (holds slot) + (carries slot pkt).toNat := by
  unfold processPacket
  split
  · cases hslot : pkt.slot == slot <;> simp [releases, carries, hslot]
  · rename_i i hfree
    obtain ⟨holder, hat, hunused⟩ := freeHolder_spec hfree
    have hempty : holds slot holder = false := by
      rw [holds, (h i holder hat).2 hunused]
      rfl
    have hset := fun next => countP_set_add (p := holds slot) (b := next) hat
    unfold wgNetifInputSlot
    split
    · cases hslot : pkt.slot == slot <;> simp [releases, carries, hslot]
    · split
      · have htaken := hset ⟨some pkt.slot, true⟩
        rw [hempty] at htaken
        simpa [holds, carries] using htaken
      · have hcleared := hset ⟨none, false⟩
        rw [hempty] at hcleared
        cases hslot : pkt.slot == slot <;> simpa [releases, carries, hslot, holds] using hcleared

theorem accepts_processPacket (pb : Pbufs) (pkt : IncomingSlot) (alloc : Bool) (slot : Nat) :
    (processPacket pb pkt alloc).2.countP (accepts slot) = 0 := by
  unfold processPacket
  split
  · rfl
  · unfold wgNetifInputSlot
    split
    · rfl
    · split <;> rfl

theorem accepts_wgSlotPbufFree (pb : Pbufs) (i slot : Nat) :
    (wgSlotPbufFree pb i).2.countP (accepts slot) = 0 := by
  unfold wgSlotPbufFree
  split
  · rfl
  · dsimp only
    split <;> rfl

/-- A freed pbuf gives its slot back. -/
theorem holders_wgSlotPbufFree (pb : Pbufs) (i slot : Nat) :
    (wgSlotPbufFree pb i).1.holders.countP (holds slot) +
        (wgSlotPbufFree pb i).2.countP (releases slot) =
      pb.holders.countP (holds slot) := by
  unfold wgSlotPbufFree
  split
  · rfl
  · rename_i holder hat
    have hset := countP_set_add (p := holds slot) (b := ⟨none, false⟩) hat
    obtain ⟨named, inUse⟩ := holder
    cases named with
    | none => simpa [holds] using hset
    | some other => cases hslot : other == slot <;> simpa [releases, holds, hslot] using hset

end Holders

section Balance

/-- A step moves slots between the callers, the places in the relay and the pool, and
loses or doubles none. -/
def Balanced (s : Relay) (out : Relay × List Event) (slot : Nat) : Prop :=
  out.2.countP (accepts slot) + inFlight out.1 slot + custody s slot =
    out.2.countP (releases slot) + custody out.1 slot + inFlight s slot

variable {s : Relay} (slot : Nat)

/-- A step without events that leaves the slots where they are. -/
theorem balanced_quiet {t : Relay} (hcalls : t.calls = s.calls) (hqueue : t.queue = s.queue)
    (hbatch : batch t.loop = batch s.loop) (hpbufs : t.pbufs = s.pbufs) :
    Balanced s (t, []) slot := by
  unfold Balanced inFlight custody
  rw [hcalls, hqueue, hbatch, hpbufs]
  simp only [List.countP_nil]
  omega

theorem balanced_signalWake : Balanced s (signalWake s, []) slot := by
  obtain ⟨wake, hsignal⟩ := signalWake_eq s
  rw [hsignal]
  exact balanced_quiet slot rfl rfl rfl rfl

/-- A call goes on without touching the queue. -/
theorem balanced_replaced {i : Nat} {call call' : Call} {events : List Event} {t : Relay}
    (hcall : s.calls[i]? = some call) (hcalls : t.calls = s.calls.set i call')
    (hqueue : t.queue = s.queue) (hloop : t.loop = s.loop) (hpbufs : t.pbufs = s.pbufs)
    (hreleases : events.countP (releases slot) = 0)
    (haccepts : events.countP (accepts slot) + (pushed slot call').toNat =
      (pushed slot call).toNat) :
    Balanced s (t, events) slot := by
  have hset := countP_set_add (p := pushed slot) (b := call') hcall
  unfold Balanced inFlight custody
  rw [hcalls, hqueue, hloop, hpbufs, hreleases]
  dsimp only
  omega

theorem balanced_handleIncomingPacket (i : Nat) :
    Balanced s (handleIncomingPacket s i) slot := by
  unfold handleIncomingPacket
  split
  · rename_i other data len hcall
    split <;> exact balanced_replaced slot hcall rfl rfl rfl rfl rfl rfl
  · rename_i data len hcall
    exact balanced_replaced slot hcall rfl rfl rfl rfl rfl rfl
  · rename_i pkt hcall
    have hset := countP_set_add (p := pushed slot)
      (b := .enqueued pkt.slot s.queue.isEmpty) hcall
    unfold Balanced inFlight custody
    simp only [List.countP_append, List.countP_nil, List.countP_singleton]
    cases hslot : pkt.slot == slot <;> simp [pushed, carries, hslot] at hset ⊢ <;> omega
  · rename_i other wasEmpty hcall
    have haccepts : [Event.accepted other].countP (accepts slot) +
        (pushed slot .finished).toNat = (pushed slot (.enqueued other wasEmpty)).toNat := by
      cases hslot : other == slot <;> simp [accepts, pushed, hslot]
    obtain ⟨wake, hwoken⟩ := signalWake_if_eq s wasEmpty
    simp only [hwoken]
    exact balanced_replaced slot hcall rfl rfl rfl rfl rfl haccepts
  · exact balanced_quiet slot rfl rfl rfl rfl
  · exact balanced_quiet slot rfl rfl rfl rfl

theorem balanced_runLoop (hkept : WellKept s.pbufs) (seen alloc : Bool) :
    Balanced s (runLoop s seen alloc) slot := by
  unfold runLoop
  split
  · rename_i hloop
    refine balanced_quiet slot rfl rfl ?_ rfl
    rw [hloop]
    split <;> rfl
  · rename_i hloop
    refine balanced_quiet slot rfl rfl ?_ rfl
    rw [hloop]
    rfl
  · rename_i readable hloop
    refine balanced_quiet slot rfl rfl ?_ rfl
    rw [hloop]
    split
    · rfl
    · split <;> rfl
  · rename_i hloop
    split
    · exact balanced_quiet slot rfl rfl rfl rfl
    · refine balanced_quiet slot rfl rfl ?_ rfl
      rw [hloop]
      rfl
  · rename_i hloop
    have hsplit : s.queue.countP (carries slot) =
        (s.queue.take kMaxPerIteration).countP (carries slot) +
          (s.queue.drop kMaxPerIteration).countP (carries slot) := by
      rw [← List.countP_append, List.take_append_drop]
    unfold Balanced inFlight custody
    simp only [hloop, batch, List.countP_nil]
    omega
  · rename_i pkt rest more hloop
    have hholders := holders_processPacket hkept pkt alloc slot
    have haccepts := accepts_processPacket s.pbufs pkt alloc slot
    unfold Balanced inFlight custody
    simp only [hloop, batch, List.countP_cons, haccepts]
    cases hslot : carries slot pkt <;> simp [hslot] at hholders ⊢ <;> omega
  · rename_i more hloop
    obtain ⟨wake, hwoken⟩ := signalWake_if_eq s more
    simp only [hwoken]
    refine balanced_quiet slot rfl rfl ?_ rfl
    rw [hloop]
    rfl
  · exact balanced_quiet slot rfl rfl rfl rfl

theorem releases_drained (queue : List IncomingSlot) :
    (queue.map fun pkt => Event.released pkt.slot).countP (releases slot) =
      queue.countP (carries slot) := by
  rw [List.countP_map]
  rfl

theorem balanced_stop : Balanced s (stop s) slot := by
  have hwoken := balanced_signalWake (s := s) slot
  unfold stop
  split
  · exact balanced_quiet slot rfl rfl rfl rfl
  · exact balanced_quiet slot rfl rfl rfl rfl
  · exact hwoken
  · split <;> exact balanced_quiet slot rfl rfl rfl rfl
  · exact balanced_quiet slot rfl rfl rfl rfl
  · have haccepts : (s.queue.map fun pkt => Event.released pkt.slot).countP (accepts slot) = 0 := by
      rw [List.countP_map, List.countP_eq_zero]
      exact fun _ _ => Bool.false_ne_true
    unfold Balanced inFlight custody
    dsimp only
    rw [releases_drained, haccepts, List.countP_nil]
    omega
  · exact balanced_quiet slot rfl rfl rfl rfl
  · exact balanced_quiet slot rfl rfl rfl rfl

theorem balanced_step (hkept : WellKept s.pbufs) (a : Action) : Balanced s (step s a) slot := by
  cases a with
  | enter other data len =>
      simp only [step]
      split
      · unfold Balanced inFlight custody
        simp only [List.countP_append, List.countP_nil, List.countP_singleton, pushed]
        simp
        omega
      · exact balanced_quiet slot rfl rfl rfl rfl
  | call i => exact balanced_handleIncomingPacket slot i
  | loop seen alloc => exact balanced_runLoop slot hkept seen alloc
  | free i =>
      simp only [step]
      split
      · have hholders := holders_wgSlotPbufFree s.pbufs i slot
        have haccepts := accepts_wgSlotPbufFree s.pbufs i slot
        unfold Balanced inFlight custody
        dsimp only
        rw [haccepts]
        omega
      · exact balanced_quiet slot rfl rfl rfl rfl
  | stop => exact balanced_stop slot
  | signal => exact balanced_signalWake slot

end Balance

section Runs

theorem wellKept_started : WellKept started.pbufs := by
  intro i holder hat
  have hfree : holder = ⟨none, false⟩ := List.eq_of_mem_replicate (List.mem_of_getElem? hat)
  subst hfree
  exact ⟨iff_of_false Bool.false_ne_true (Finset.notMem_empty i), fun _ => rfl⟩

theorem pbufs_handleIncomingPacket (s : Relay) (i : Nat) :
    (handleIncomingPacket s i).1.pbufs = s.pbufs := by
  unfold handleIncomingPacket
  split
  · split <;> rfl
  · rfl
  · rfl
  · rename_i other wasEmpty hcall
    obtain ⟨wake, hwoken⟩ := signalWake_if_eq s wasEmpty
    simp only [hwoken]
  · rfl
  · rfl

theorem pbufs_stop (s : Relay) : (stop s).1.pbufs = s.pbufs := by
  obtain ⟨wake, hsignal⟩ := signalWake_eq s
  unfold stop
  split
  · rfl
  · rfl
  · rw [hsignal]
  · split <;> rfl
  · rfl
  · rfl
  · rfl
  · rfl

theorem wellKept_runLoop {s : Relay} (h : WellKept s.pbufs) (seen alloc : Bool) :
    WellKept (runLoop s seen alloc).1.pbufs := by
  unfold runLoop
  split
  · exact h
  · exact h
  · exact h
  · split <;> exact h
  · exact h
  · exact wellKept_processPacket h _ alloc
  · rename_i more hloop
    obtain ⟨wake, hwoken⟩ := signalWake_if_eq s more
    simp only [hwoken]
    exact h
  · exact h

theorem wellKept_step (s : Relay) (a : Action) (h : WellKept s.pbufs) :
    WellKept (step s a).1.pbufs := by
  cases a with
  | enter other data len =>
      simp only [step]
      split <;> exact h
  | call i =>
      simp only [step, pbufs_handleIncomingPacket]
      exact h
  | loop seen alloc => exact wellKept_runLoop h seen alloc
  | free i =>
      simp only [step]
      split
      · exact wellKept_wgSlotPbufFree h
      · exact h
  | stop =>
      simp only [step, pbufs_stop]
      exact h
  | signal =>
      obtain ⟨wake, hsignal⟩ := signalWake_eq s
      simp only [step, hsignal]
      exact h

/-- A slot has been accepted or pushed as often as it has been released or is in the
relay. -/
def Accounted (slot : Nat) (s : Relay) (log : List Event) : Prop :=
  log.countP (accepts slot) + inFlight s slot = log.countP (releases slot) + custody s slot

theorem accounted_started (slot : Nat) : Accounted slot started [] := by
  simp [Accounted, inFlight, custody, batch, started, holds, List.countP_replicate]

theorem accounted_step (slot : Nat) (s : Relay) (log : List Event) (a : Action)
    (hkept : WellKept s.pbufs) (h : Accounted slot s log) :
    Accounted slot (step s a).1 (log ++ (step s a).2) := by
  have hstep := balanced_step slot hkept a
  unfold Balanced at hstep
  unfold Accounted at h ⊢
  rw [List.countP_append, List.countP_append]
  omega

theorem accounted_run (actions : List Action) (slot : Nat) :
    Accounted slot (run step started actions).1 (run step started actions).2 := by
  have hinv : ∀ s log a, WellKept s.pbufs ∧ Accounted slot s log → True →
      WellKept (step s a).1.pbufs ∧ Accounted slot (step s a).1 (log ++ (step s a).2) :=
    fun s log a h _ => ⟨wellKept_step s a h.1, accounted_step slot s log a h.1 h.2⟩
  have hrun := run_invariant step hinv ⟨wellKept_started, accounted_started slot⟩
    (allSteps_true step started actions)
  exact hrun.2

end Runs

section Shutdown

/-- `stop` has emptied the queue. -/
def Drained (s : Relay) : Prop := s.stop = .drained ∨ s.stop = .returned

/-- After that the queue has stayed empty. -/
def Settled (s : Relay) : Prop := Drained s → s.queue = []

/-- No packet is pushed after `stop` has emptied the queue. -/
def PushesInTime (s : Relay) : Action → Prop
  | .call i => ∀ pkt, s.calls[i]? = some (.tested pkt) → ¬ Drained s
  | _ => True

/-- `stop` has returned, no call is under way and lwIP has freed its pbufs. -/
structure Quiescent (s : Relay) : Prop where
  returned : s.stop = .returned
  calls : ∀ call ∈ s.calls, call = .finished
  lwip : s.pbufs.lwip = ∅

/-- What a step pushes. -/
def pushes (s : Relay) : Action → List IncomingSlot
  | .call i =>
      match s.calls[i]? with
      | some (.tested pkt) => [pkt]
      | _ => []
  | _ => []

theorem call_frame (s : Relay) (i : Nat) :
    (handleIncomingPacket s i).1.stop = s.stop ∧
      (handleIncomingPacket s i).1.queue = s.queue ++ pushes s (.call i) := by
  cases hcall : s.calls[i]? with
  | none => simp [handleIncomingPacket, pushes, hcall]
  | some call =>
      cases call with
      | entered other data len =>
          cases other with
          | none => simp [handleIncomingPacket, pushes, hcall]
          | some other =>
              simp only [handleIncomingPacket, pushes, hcall, List.append_nil]
              split <;> exact ⟨rfl, rfl⟩
      | tested pkt => simp [handleIncomingPacket, pushes, hcall]
      | enqueued other wasEmpty =>
          obtain ⟨wake, hwoken⟩ := signalWake_if_eq s wasEmpty
          simp [handleIncomingPacket, pushes, hcall, hwoken]
      | finished => simp [handleIncomingPacket, pushes, hcall]

theorem stop_runLoop (s : Relay) (seen alloc : Bool) :
    (runLoop s seen alloc).1.stop = s.stop := by
  unfold runLoop
  split
  · rfl
  · rfl
  · rfl
  · split <;> rfl
  · rfl
  · rfl
  · rename_i more hloop
    obtain ⟨wake, hwoken⟩ := signalWake_if_eq s more
    simp only [hwoken]
  · rfl

/-- Once the queue has been emptied, steps only push. -/
theorem drained_step {s : Relay} (hjoined : Joined s) (hdrained : Drained s) (a : Action) :
    Drained (step s a).1 ∧ (step s a).1.queue = s.queue ++ pushes s a := by
  have hended : s.loop = .ended := by
    apply hjoined
    rcases hdrained with hstop | hstop <;> simp [hstop]
  have hkept : ∀ {t : Relay}, t.stop = s.stop → Drained t := fun hstop => by
    unfold Drained
    rw [hstop]
    exact hdrained
  cases a with
  | enter other data len =>
      simp only [step, pushes, List.append_nil]
      split <;> exact ⟨hkept rfl, rfl⟩
  | call i => exact ⟨hkept (call_frame s i).1, (call_frame s i).2⟩
  | loop seen alloc =>
      simp only [step, runLoop, hended, pushes, List.append_nil]
      exact ⟨hdrained, trivial⟩
  | free i =>
      simp only [step, pushes, List.append_nil]
      split <;> exact ⟨hkept rfl, rfl⟩
  | stop =>
      rcases hdrained with hstop | hstop
      · simp only [step, stop, hstop, pushes, List.append_nil]
        exact ⟨.inr rfl, trivial⟩
      · simp only [step, stop, hstop, pushes, List.append_nil]
        exact ⟨.inr hstop, trivial⟩
  | signal =>
      obtain ⟨wake, hsignal⟩ := signalWake_eq s
      simp only [step, hsignal, pushes, List.append_nil]
      exact ⟨hkept rfl, trivial⟩

/-- The step that empties the queue leaves nothing in it. -/
theorem settled_of_not_drained {s : Relay} (h : ¬ Drained s) (a : Action) :
    Settled (step s a).1 := by
  have hsame : ∀ {t : Relay}, t.stop = s.stop → Settled t := fun hstop hdrained => by
    unfold Drained at hdrained
    rw [hstop] at hdrained
    exact absurd hdrained h
  cases a with
  | enter other data len =>
      simp only [step]
      split <;> exact hsame rfl
  | call i => exact hsame (call_frame s i).1
  | loop seen alloc => exact hsame (stop_runLoop s seen alloc)
  | free i =>
      simp only [step]
      split <;> exact hsame rfl
  | stop =>
      intro hdrained
      simp only [step, stop] at hdrained ⊢
      split at hdrained
      · rcases hdrained with hstop | hstop <;> cases hstop
      · rcases hdrained with hstop | hstop <;> cases hstop
      · rcases hdrained with hstop | hstop <;> cases hstop
      · rename_i hsignalled
        split at hdrained
        · rcases hdrained with hstop | hstop <;> cases hstop
        · exact absurd hdrained h
      · rcases hdrained with hstop | hstop <;> cases hstop
      · rfl
      · rename_i hstop
        exact absurd (.inl hstop) h
      · rename_i hstop
        exact absurd (.inr hstop) h
  | signal =>
      obtain ⟨wake, hsignal⟩ := signalWake_eq s
      simp only [step, hsignal]
      exact hsame rfl

theorem pushes_nil_iff {s : Relay} (hdrained : Drained s) (a : Action) :
    pushes s a = [] ↔ PushesInTime s a := by
  cases a with
  | call i =>
      simp only [pushes, PushesInTime]
      constructor
      · intro hnil pkt hcall
        rw [hcall] at hnil
        cases hnil
      · intro hintime
        split
        · rename_i pkt hcall
          exact absurd hdrained (hintime pkt hcall)
        · rfl
  | enter other data len => exact iff_of_true rfl trivial
  | loop seen alloc => exact iff_of_true rfl trivial
  | free i => exact iff_of_true rfl trivial
  | stop => exact iff_of_true rfl trivial
  | signal => exact iff_of_true rfl trivial

theorem settled_step_iff {s : Relay} (hjoined : Joined s) (h : Settled s) (a : Action) :
    Settled (step s a).1 ↔ PushesInTime s a := by
  by_cases hdrained : Drained s
  · obtain ⟨hdrained', hqueue⟩ := drained_step hjoined hdrained a
    rw [← pushes_nil_iff hdrained a]
    rw [h hdrained, List.nil_append] at hqueue
    rw [← hqueue]
    exact ⟨fun hsettled => hsettled hdrained', fun hnil _ => hnil⟩
  · refine iff_of_true (settled_of_not_drained hdrained a) ?_
    cases a with
    | call i => exact fun _ _ => hdrained
    | _ => trivial

theorem settled_back {s : Relay} (hjoined : Joined s) {a : Action}
    (h : Settled (step s a).1) : Settled s := by
  intro hdrained
  obtain ⟨hdrained', hqueue⟩ := drained_step hjoined hdrained a
  rw [h hdrained'] at hqueue
  exact (List.append_eq_nil_iff.mp hqueue.symm).1

/-- The queue is empty in the end exactly if all packets were pushed in time. -/
theorem settled_run_iff (actions : List Action) :
    Settled (run step started actions).1 ↔ AllSteps step PushesInTime started actions := by
  have hinit : Settled started := by
    rintro (hstop | hstop) <;> cases hstop
  rw [← allStates_iff_last (I := Awake) awake_step (fun s a h => settled_back h.joined)
    awake_started actions]
  exact allStates_iff_allSteps_of_kept step (I := fun s => Awake s ∧ Settled s)
    (fun _ h => h.2)
    (fun s a h hintime => ⟨awake_step s a h.1, (settled_step_iff h.1.joined h.2 a).mpr hintime⟩)
    (fun s a h => (settled_step_iff h.1.joined h.2 a).mp) ⟨awake_started, hinit⟩

/-- In the end a slot is where it should be or in the queue. -/
theorem custody_quiescent {s : Relay} (hkept : WellKept s.pbufs) (hjoined : Joined s)
    (h : Quiescent s) (slot : Nat) :
    inFlight s slot = 0 ∧ custody s slot = s.queue.countP (carries slot) := by
  have hended : s.loop = .ended := hjoined (by simp [h.returned])
  have hholders : s.pbufs.holders.countP (holds slot) = 0 := by
    rw [List.countP_eq_zero]
    intro holder hmem hholds
    obtain ⟨i, hat⟩ := List.mem_iff_getElem?.mp hmem
    obtain ⟨hused, hnone⟩ := hkept i holder hat
    have hfree : holder.inUse = false := by
      rw [← Bool.not_eq_true, hused, h.lwip]
      exact Finset.notMem_empty i
    rw [holds, hnone hfree] at hholds
    cases hholds
  constructor
  · rw [inFlight, List.countP_eq_zero]
    intro call hmem hpushed
    rw [h.calls call hmem] at hpushed
    cases hpushed
  · rw [custody, hholders, hended]
    rfl

/-- A holder is never taken while lwIP has its pbuf; and when everything has come to rest
after `stop`, every slot has been released as often as it was accepted exactly if no
packet was pushed after `stop` had emptied the queue. -/
theorem slots_released_once_iff (actions : List Action) :
    AllStates step HolderFree started actions ∧
      (Quiescent (run step started actions).1 →
        ((∀ slot, (run step started actions).2.countP (releases slot) =
            (run step started actions).2.countP (accepts slot)) ↔
          AllSteps step PushesInTime started actions)) := by
  have hkept : AllStates step (fun s => WellKept s.pbufs) started actions :=
    AllStates.of_invariant wellKept_step (fun _ h => h) wellKept_started actions
  have hawake : AllStates step Awake started actions :=
    AllStates.of_invariant awake_step (fun _ h => h) awake_started actions
  refine ⟨AllStates.of_invariant wellKept_step (fun _ => holderFree_of_wellKept)
    wellKept_started actions, fun hquiet => ?_⟩
  rw [← settled_run_iff]
  have hdrained : Drained (run step started actions).1 := .inr hquiet.returned
  have hrest : ∀ slot, (run step started actions).2.countP (accepts slot) =
      (run step started actions).2.countP (releases slot) +
        (run step started actions).1.queue.countP (carries slot) := by
    intro slot
    have hbalance := accounted_run actions slot
    unfold Accounted at hbalance
    obtain ⟨hflight, hcustody⟩ := custody_quiescent hkept.last hawake.last.joined hquiet slot
    omega
  constructor
  · intro hall _
    by_contra hne
    obtain ⟨pkt, hmem⟩ := List.exists_mem_of_ne_nil _ hne
    have hpos : 0 < (run step started actions).1.queue.countP (carries pkt.slot) :=
      List.countP_pos_iff.mpr ⟨pkt, hmem, beq_self_eq_true pkt.slot⟩
    have hbad := hall pkt.slot
    have hslot := hrest pkt.slot
    omega
  · intro hsettled slot
    have hslot := hrest slot
    rw [hsettled hdrained, List.countP_nil] at hslot
    omega

/-- `stop` on a loop that is about to test `running_`. -/
def shutdown : List Action := [.stop, .stop, .stop, .loop true true, .stop, .stop, .stop, .stop]

/-- A packet that goes through lwIP before the shutdown. -/
def delivered : List Action :=
  [.enter (some 4) true 60, .call 0, .call 0, .call 0] ++
    List.replicate 8 (.loop true true) ++ [.free 0] ++ shutdown

theorem slots_released_once_delivered :
    (∀ slot, (run step started delivered).2.countP (releases slot) =
        (run step started delivered).2.countP (accepts slot)) ↔
      AllSteps step PushesInTime started delivered :=
  (slots_released_once_iff delivered).2
    ⟨by decide +kernel, by decide +kernel, by decide +kernel⟩

/-- The running test passes, `stop` runs to its end, and only then the packet is pushed:
the slot is accepted and never released. -/
theorem slot_lost_at_shutdown :
    let out := run step started
      ([.enter (some 4) true 60, .call 0] ++ shutdown ++ [.call 0, .call 0])
    out.1.stop = .returned ∧ out.1.calls = [.finished] ∧ out.1.pbufs.lwip = ∅ ∧
      out.2 = [.accepted 4] ∧ out.1.queue = [⟨4, 60⟩] := by
  decide +kernel

end Shutdown

end WgNx.LwipSlots
