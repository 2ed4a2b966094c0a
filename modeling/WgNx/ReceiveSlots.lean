import WgNx.IntrusiveList
import WgNx.OutputMachine
import WgNx.TransportReceive

/-!
The pool of receive slots.

The free slots are linked through their `next` fields.  The receive loop takes a
slot at the top of its body and gives it back on every way through it, except that
the receive callback may keep the slot and give it back later, from any thread.
The loop is cut at its pool operations and at the callback; `held` and `retained`
record who owns the slots that are not free.
-/

namespace WgNx.ReceiveSlots

open Function
open WgNx.ByteLayout
open WgNx.CryptoPrimitives
open WgNx.IntrusiveList
open WgNx.NoiseHandshake
open WgNx.OutputMachine
open WgNx.ReplayCounter
open WgNx.TransportReceive
open WgNx.TunnelState
open WgNx.WireMessages

def wgRecvPoolSize : Nat := 256

/-- A `WgRecvSlot*` into the array of slots. -/
abbrev Slot := Fin wgRecvPoolSize

section Pool

structure WgRecvPool where
  next : Slot → Option Slot
  freeHead : Option Slot
  initialized : Bool

/-- The loop of `wg_recv_pool_init` links one slot after the other in front. -/
def linkAll (pool : WgRecvPool) (slots : List Slot) : WgRecvPool :=
  slots.foldl
    (fun pool i => { pool with next := update pool.next i pool.freeHead, freeHead := some i })
    pool

/-- The two flags say whether the allocation and the mutex succeed. -/
def wgRecvPoolInit (allocated mutex : Bool) : Option WgRecvPool :=
  if !allocated || !mutex then none
  else
    let pool := linkAll ⟨fun _ => none, none, false⟩ (List.finRange wgRecvPoolSize)
    some { pool with initialized := true }

/-- The part of `wg_recv_pool_acquire` that holds the mutex. -/
def popFree (pool : WgRecvPool) : Option Slot × WgRecvPool :=
  if !pool.initialized then (none, pool)
  else
    match pool.freeHead with
    | none => (none, pool)
    | some slot => (some slot, { pool with freeHead := pool.next slot })

/-- `slot->next = NULL`, after the mutex is released. -/
def clearNext (pool : WgRecvPool) (slot : Slot) : WgRecvPool :=
  { pool with next := update pool.next slot none }

def wgRecvPoolRelease (pool : WgRecvPool) (slot : Slot) : WgRecvPool :=
  if !pool.initialized then pool
  else { pool with next := update pool.next slot pool.freeHead, freeHead := some slot }

end Pool

section Use

/-- What the loop body does with its slot in the end. -/
inductive SlotUse
  | release
  | callback
  deriving DecidableEq

variable (P : Primitives)

/-- The exits of the loop body for a transport packet. -/
def transportUse (tun : WgTunnel) (buffer : Bytes) (received : Nat) (now : UInt64) : SlotUse :=
  match selectSession tun (getU32 buffer 4) with
  | none => .release
  | some ref =>
      if (tun.getSession ref).Expired now then .release
      else if received - sizeofTransport - wgAeadTagLen = 0 then .release
      else
        match openTransport P (tun.getSession ref) buffer received with
        | none => .release
        | some _ =>
            if !(wgCounterValidate (tun.getSession ref).replay (getU64 buffer 8)).1 then .release
            else if tun.recvCb.isSome then .callback
            else .release

/-- The exits of the loop body. -/
def slotUse (tun : WgTunnel) (result : SocketResult) (now : UInt64) : SlotUse :=
  match result with
  | .timeout => .release
  | .error _ => .release
  | .datagram buffer received src =>
      if received < sizeofTransport + wgAeadTagLen then .release
      else if getType buffer ≠ wgMsgTransport then .release
      else transportUse P (noteSource tun src) buffer received now

end Use

section Loop

/-- Where the receive thread is in the loop body. -/
inductive Pc
  | top
  | popped (slot : Slot)
  | receiving (slot : Option Slot)
  | calling (slot : Slot)
  | releasing (slot : Slot)

/-- The slot the local variable of the loop points to while the thread still has
to give it back. -/
def Pc.slot : Pc → Option Slot
  | .top => none
  | .popped slot => some slot
  | .receiving slot => slot
  | .calling slot => some slot
  | .releasing slot => some slot

structure Reception where
  tun : WgTunnel
  pool : WgRecvPool
  pc : Pc
  held : Option Slot
  retained : List Slot

inductive ReceptionAction
  | acquire
  | clear
  | receive (result : SocketResult) (draws : RespDraws) (now : UInt64)
  | callback (retains : Bool)
  | release
  | consumerRelease (slot : Slot)
  | others (tun : WgTunnel)

/-- Where the loop body goes on after the datagram has been processed. -/
def afterReceive (slot : Option Slot) (use : SlotUse) : Pc :=
  match slot, use with
  | none, _ => .top
  | some slot, .release => .releasing slot
  | some slot, .callback => .calling slot

variable (P : Primitives)

/-- The consumer keeps its contract: it releases a slot it has retained, and each
one once.  The other threads may do anything to the tunnel. -/
def receptionStep (s : Reception) : ReceptionAction → Reception × List Event
  | .acquire =>
      match s.pc with
      | .top =>
          match popFree s.pool with
          | (none, pool) => ({ s with pool := pool, pc := .receiving none }, [])
          | (some slot, pool) =>
              ({ s with pool := pool, pc := .popped slot, held := some slot }, [])
      | _ => (s, [])
  | .clear =>
      match s.pc with
      | .popped slot =>
          ({ s with pool := clearNext s.pool slot, pc := .receiving (some slot) }, [])
      | _ => (s, [])
  | .receive result draws now =>
      match s.pc with
      | .receiving slot =>
          let out := recvThreadIteration P s.tun ⟨slot.isSome, result, draws, now⟩
          ({ s with tun := out.1, pc := afterReceive slot (slotUse P s.tun result now) }, out.2)
      | _ => (s, [])
  | .callback retains =>
      match s.pc with
      | .calling slot =>
          if retains then
            ({ s with pc := .top, held := none, retained := slot :: s.retained }, [])
          else ({ s with pc := .releasing slot }, [])
      | _ => (s, [])
  | .release =>
      match s.pc with
      | .releasing slot =>
          ({ s with pool := wgRecvPoolRelease s.pool slot, pc := .top, held := none }, [])
      | _ => (s, [])
  | .consumerRelease slot =>
      if slot ∈ s.retained then
        ({ s with
            pool := wgRecvPoolRelease s.pool slot
            retained := s.retained.erase slot }, [])
      else (s, [])
  | .others tun => ({ s with tun := tun }, [])

end Loop

section Conservation

/-- The free list, the slot of the current iteration and the slots of the consumer
together are all slots, each one once, and the loop starts its body without one. -/
structure Partitioned (s : Reception) : Prop where
  slots : ∃ free, Visits s.pool.next s.pool.freeHead free ∧ free.Nodup ∧
    (free ++ (s.held.toList ++ s.retained)).Perm (List.finRange wgRecvPoolSize)
  top : s.pc = .top → s.held = none

/-- The partition with what each point of the loop body knows. -/
structure Conserved (s : Reception) : Prop where
  initialized : s.pool.initialized = true
  held : s.held = s.pc.slot
  slots : ∃ free, Visits s.pool.next s.pool.freeHead free ∧
    (free ++ (s.held.toList ++ s.retained)).Perm (List.finRange wgRecvPoolSize)

theorem Conserved.partitioned {s : Reception} (h : Conserved s) : Partitioned s := by
  obtain ⟨free, hwalk, hperm⟩ := h.slots
  refine ⟨⟨free, hwalk, hwalk.nodup, hperm⟩, ?_⟩
  intro htop
  rw [h.held, htop]
  rfl

/-- A slot that somebody owns is not free. -/
theorem not_mem_free {free owned : List Slot}
    (h : (free ++ owned).Perm (List.finRange wgRecvPoolSize)) {slot : Slot}
    (hslot : slot ∈ owned) : slot ∉ free := by
  have hnodup : (free ++ owned).Nodup := h.nodup_iff.mpr (List.nodup_finRange _)
  intro hfree
  exact (List.nodup_append.mp hnodup).2.2 slot hfree slot hslot rfl

theorem popFree_of_initialized {pool : WgRecvPool} (h : pool.initialized = true) :
    popFree pool = match pool.freeHead with
      | none => (none, pool)
      | some slot => (some slot, { pool with freeHead := pool.next slot }) := by
  unfold popFree
  rw [h, if_neg (by decide)]

variable {P : Primitives} {s : Reception}

theorem conserved_acquire (h : Conserved s) : Conserved (receptionStep P s .acquire).1 := by
  obtain ⟨free, hwalk, hperm⟩ := h.slots
  have hheld := h.held
  simp only [receptionStep]
  split
  · rename_i hpc
    rw [hpc] at hheld
    rw [popFree_of_initialized h.initialized]
    cases hhead : s.pool.freeHead with
    | none => exact ⟨h.initialized, hheld, free, hwalk, hperm⟩
    | some slot =>
        rw [hhead] at hwalk
        dsimp only
        cases hwalk with
        | @cons _ rest hrest =>
            refine ⟨h.initialized, rfl, rest, hrest, ?_⟩
            rw [show s.held = none from hheld] at hperm
            exact List.perm_middle.trans hperm
  · exact h

theorem conserved_clear (h : Conserved s) : Conserved (receptionStep P s .clear).1 := by
  obtain ⟨free, hwalk, hperm⟩ := h.slots
  have hheld := h.held
  simp only [receptionStep]
  split
  · rename_i slot hpc
    rw [hpc] at hheld
    have howned : slot ∈ s.held.toList ++ s.retained := by
      rw [hheld]
      simp [Pc.slot]
    exact ⟨h.initialized, hheld, free, hwalk.update (not_mem_free hperm howned) none, hperm⟩
  · exact h

theorem conserved_receive (h : Conserved s) (result : SocketResult) (draws : RespDraws)
    (now : UInt64) : Conserved (receptionStep P s (.receive result draws now)).1 := by
  have hheld := h.held
  simp only [receptionStep]
  split
  · rename_i slot hpc
    rw [hpc] at hheld
    refine ⟨h.initialized, ?_, h.slots⟩
    rw [hheld]
    cases slot with
    | none => rfl
    | some slot => cases slotUse P s.tun result now <;> rfl
  · exact h

theorem conserved_callback (h : Conserved s) (retains : Bool) :
    Conserved (receptionStep P s (.callback retains)).1 := by
  obtain ⟨free, hwalk, hperm⟩ := h.slots
  have hheld := h.held
  simp only [receptionStep]
  split
  · rename_i slot hpc
    rw [hpc] at hheld
    split
    · refine ⟨h.initialized, rfl, free, hwalk, ?_⟩
      rw [show s.held = some slot from hheld] at hperm
      exact hperm
    · exact ⟨h.initialized, hheld, free, hwalk, hperm⟩
  · exact h

/-- Giving a slot back puts it in front of the free list. -/
theorem visits_release {pool : WgRecvPool} (hinit : pool.initialized = true)
    {free : List Slot} (hwalk : Visits pool.next pool.freeHead free) {slot : Slot}
    (hslot : slot ∉ free) :
    Visits (wgRecvPoolRelease pool slot).next (wgRecvPoolRelease pool slot).freeHead
      (slot :: free) := by
  unfold wgRecvPoolRelease
  rw [hinit, if_neg (by decide)]
  exact hwalk.push hslot

theorem initialized_release (pool : WgRecvPool) (slot : Slot) :
    (wgRecvPoolRelease pool slot).initialized = pool.initialized := by
  unfold wgRecvPoolRelease
  split <;> rfl

theorem conserved_release (h : Conserved s) : Conserved (receptionStep P s .release).1 := by
  obtain ⟨free, hwalk, hperm⟩ := h.slots
  have hheld := h.held
  simp only [receptionStep]
  split
  · rename_i slot hpc
    rw [hpc] at hheld
    rw [show s.held = some slot from hheld] at hperm
    have hslot : slot ∉ free := not_mem_free hperm (by simp)
    refine ⟨(initialized_release _ _).trans h.initialized, rfl, slot :: free,
      visits_release h.initialized hwalk hslot, ?_⟩
    exact List.perm_middle.symm.trans hperm
  · exact h

theorem conserved_consumerRelease (h : Conserved s) (slot : Slot) :
    Conserved (receptionStep P s (.consumerRelease slot)).1 := by
  obtain ⟨free, hwalk, hperm⟩ := h.slots
  simp only [receptionStep]
  split
  · rename_i hretained
    have hslot : slot ∉ free := not_mem_free hperm (List.mem_append_right _ hretained)
    refine ⟨(initialized_release _ _).trans h.initialized, h.held, slot :: free,
      visits_release h.initialized hwalk hslot, ?_⟩
    refine List.Perm.trans ?_ hperm
    calc slot :: free ++ (s.held.toList ++ s.retained.erase slot)
        _ = slot :: (free ++ s.held.toList ++ s.retained.erase slot) := by simp
        _ |>.Perm (free ++ s.held.toList ++ slot :: s.retained.erase slot) :=
          List.perm_middle.symm
        _ |>.Perm (free ++ s.held.toList ++ s.retained) :=
          (List.perm_cons_erase hretained).symm.append_left _
        _ = free ++ (s.held.toList ++ s.retained) := by simp
  · exact h

theorem conserved_receptionStep (s : Reception) (a : ReceptionAction) (h : Conserved s) :
    Conserved (receptionStep P s a).1 := by
  cases a with
  | acquire => exact conserved_acquire h
  | clear => exact conserved_clear h
  | receive result draws now => exact conserved_receive h result draws now
  | callback retains => exact conserved_callback h retains
  | release => exact conserved_release h
  | consumerRelease slot => exact conserved_consumerRelease h slot
  | others tun => exact ⟨h.initialized, h.held, h.slots⟩

/-- Linking distinct slots in front of a free list. -/
theorem visits_linkAll {pool : WgRecvPool} {free slots : List Slot}
    (hwalk : Visits pool.next pool.freeHead free) (hslots : (free ++ slots).Nodup) :
    Visits (linkAll pool slots).next (linkAll pool slots).freeHead (slots.reverse ++ free) := by
  induction slots generalizing pool free with
  | nil => exact hwalk
  | cons slot rest ih =>
      have hnot : slot ∉ free := fun hmem =>
        (List.nodup_append.mp hslots).2.2 slot hmem slot (List.mem_cons_self ..) rfl
      have hperm : (slot :: free ++ rest).Nodup :=
        (List.perm_middle.nodup_iff).mp hslots
      rw [List.reverse_cons, List.append_assoc]
      exact ih (hwalk.push hnot :
        Visits (WgRecvPool.mk (update pool.next slot pool.freeHead) (some slot) _).next _ _) hperm

theorem conserved_linkAll {slots : List Slot}
    (hslots : slots.Perm (List.finRange wgRecvPoolSize)) (tun : WgTunnel) :
    Conserved ⟨tun, { linkAll ⟨fun _ => none, none, false⟩ slots with initialized := true },
      .top, none, []⟩ := by
  have hnodup : slots.Nodup := hslots.nodup_iff.mpr (List.nodup_finRange _)
  refine ⟨rfl, rfl, slots.reverse ++ [], visits_linkAll .nil hnodup, ?_⟩
  have hall : slots.reverse.Perm (List.finRange wgRecvPoolSize) :=
    (List.reverse_perm slots).trans hslots
  simpa only [Option.toList_none, List.append_nil] using hall

/-- The receive thread starts with the pool that `wg_recv_pool_init` has set up. -/
theorem conserved_start {pool : WgRecvPool} {allocated mutex : Bool}
    (hpool : wgRecvPoolInit allocated mutex = some pool) (tun : WgTunnel) :
    Conserved ⟨tun, pool, .top, none, []⟩ := by
  have hstart := conserved_linkAll (List.Perm.refl _) tun
  unfold wgRecvPoolInit at hpool
  generalize List.finRange wgRecvPoolSize = slots at hpool hstart
  split at hpool
  · cases hpool
  · rw [← Option.some.inj hpool]
    exact hstart

/-- In every run the slots stay partitioned. -/
theorem receive_slots_conserved (P : Primitives) (pool : WgRecvPool) (allocated mutex : Bool)
    (hpool : wgRecvPoolInit allocated mutex = some pool) (tun : WgTunnel)
    (actions : List ReceptionAction) :
    AllStates (receptionStep P) Partitioned ⟨tun, pool, .top, none, []⟩ actions :=
  AllStates.of_invariant conserved_receptionStep (fun _ => Conserved.partitioned)
    (conserved_start hpool tun) actions

theorem receive_slots_conserved_timeout :
    ∃ pool, wgRecvPoolInit true true = some pool ∧
      AllStates (receptionStep additive) Partitioned ⟨sampleTunnel 3 5, pool, .top, none, []⟩
        [.acquire, .clear, .receive .timeout ⟨sampleKey 7, 1, 0⟩ 0, .release] :=
  ⟨_, rfl, receive_slots_conserved additive _ true true rfl (sampleTunnel 3 5) _⟩

end Conservation

end WgNx.ReceiveSlots
