import Mathlib.Logic.Function.Basic
import WgNx.ByteLayout
import WgNx.OutputMachine

/-!
The ring between the relay connection and the receive loop.

The producer writes packets into the slots and publishes them in batches; the
consumer takes the published packets one by one.  The full test of the producer
compares what it has written with what it has published, not with what has been
read.
-/

namespace WgNx.RelayRing

open Function
open WgNx.ByteLayout
open WgNx.OutputMachine

section Ring

abbrev ringSlots : Nat := 256

abbrev ringDataMax : Nat := 2044

structure RingSlot where
  len : UInt16
  data : Bytes

/-- `g_ring`, `g_wseq_local`, `g_wseq`, and the static `rseq` of the consumer. -/
structure Ring where
  slots : Fin ringSlots → RingSlot
  wseqLocal : UInt32
  wseq : UInt32
  rseq : UInt32

def Ring.initial : Ring := ⟨fun _ => ⟨0, List.replicate ringDataMax 0⟩, 0, 0, 0⟩

/-- `seq & (RING_SLOTS - 1)` -/
def slotIndex (seq : UInt32) : Fin ringSlots := Fin.ofNat ringSlots (seq &&& 255).toNat

/-- A packet that is too long is dropped.  There is no result while the ring is
full: the call sleeps until somebody else commits. -/
def wgRelayInput (ring : Ring) (data : Bytes) : Option Ring :=
  if data.length > ringDataMax then some ring
  else if ring.wseqLocal - ring.wseq ≥ 252 then none
  else
    let idx := slotIndex ring.wseqLocal
    some { ring with
      slots := update ring.slots idx
        ⟨UInt16.ofNat data.length, data ++ (ring.slots idx).data.drop data.length⟩
      wseqLocal := ring.wseqLocal + 1 }

def wgRelayCommit (ring : Ring) : Ring := { ring with wseq := ring.wseqLocal }

/-- The position from which the consumer reads, after catching up. -/
def readPosition (ring : Ring) : UInt32 :=
  if ring.wseq - ring.rseq > 256 then ring.wseq - 256 + 1 else ring.rseq

/-- The loop of `wg_socket_recv` in relay mode; `polls` is how often the deadline
has not passed yet. -/
def wgSocketRecvRelay (ring : Ring) (len : Nat) : Nat → Option Bytes × Ring
  | 0 => (none, ring)
  | polls + 1 =>
      if ring.rseq ≥ ring.wseq then wgSocketRecvRelay ring len polls
      else
        let rseq := readPosition ring
        let slot := ring.slots (slotIndex rseq)
        if slot.len = 0 then wgSocketRecvRelay { ring with rseq := rseq + 1 } len polls
        else
          let n := if slot.len.toNat < len then slot.len.toNat else len
          (some (slot.data.take n), { ring with rseq := rseq + 1 })

end Ring

section Slots

theorem slotIndex_val (seq : UInt32) : (slotIndex seq).val = seq.toNat % ringSlots := by
  have hmask : (seq &&& 255).toNat = seq.toNat % 256 := by
    rw [UInt32.toNat_and]
    exact Nat.and_two_pow_sub_one_eq_mod seq.toNat 8
  change (seq &&& 255).toNat % 256 = seq.toNat % 256
  rw [hmask, Nat.mod_mod]

/-- The slot of the packet with a serial number; the wrap of the sequence numbers
does not show because the number of slots divides their range. -/
theorem slotIndex_ofNat (k : Nat) :
    slotIndex (UInt32.ofNat k) = Fin.ofNat ringSlots k := by
  apply Fin.ext
  rw [slotIndex_val, UInt32.toNat_ofNat']
  exact Nat.mod_mod_of_dvd k (by decide : (256 : Nat) ∣ 2 ^ 32)

/-- Writing the slot of one serial number leaves the slots of the lap before it. -/
theorem update_window {β : Type*} (f : Fin ringSlots → β) (v : β) {j k : Nat} (hlt : j < k)
    (hlap : k < j + ringSlots) :
    update f (Fin.ofNat ringSlots k) v (Fin.ofNat ringSlots j) = f (Fin.ofNat ringSlots j) := by
  apply update_of_ne
  intro heq
  have hmod : j % 256 = k % 256 := congrArg Fin.val heq
  unfold ringSlots at hlap
  omega

theorem seq_lt_iff {r w : Nat} (h : UInt32.ofNat r < UInt32.ofNat w) (hle : r ≤ w) : r < w := by
  rcases Nat.lt_or_eq_of_le hle with hlt | rfl
  · exact hlt
  · exact absurd h (UInt32.lt_irrefl _)

/-- The distance of two sequence numbers at most one lap apart. -/
theorem seq_distance_le {r w : Nat} (hle : r ≤ w) (hlap : w ≤ r + ringSlots) :
    ¬ UInt32.ofNat w - UInt32.ofNat r > 256 := by
  rw [← UInt32.ofNat_sub hle, gt_iff_lt, UInt32.not_lt, UInt32.le_iff_toNat_le,
    UInt32.toNat_ofNat']
  unfold ringSlots at hlap
  change (w - r) % 2 ^ 32 ≤ 256
  omega

/-- One round of the loop. -/
theorem wgSocketRecvRelay_succ (ring : Ring) (len polls : Nat) :
    wgSocketRecvRelay ring len (polls + 1) =
      if ring.rseq ≥ ring.wseq then wgSocketRecvRelay ring len polls
      else
        let slot := ring.slots (slotIndex (readPosition ring))
        if slot.len = 0 then
          wgSocketRecvRelay { ring with rseq := readPosition ring + 1 } len polls
        else
          (some (slot.data.take (if slot.len.toNat < len then slot.len.toNat else len)),
            { ring with rseq := readPosition ring + 1 }) := rfl

/-- The consumer moves nothing but its own position. -/
theorem wgSocketRecvRelay_ring (ring : Ring) (len polls : Nat) :
    ∃ rseq, (wgSocketRecvRelay ring len polls).2 = { ring with rseq } := by
  induction polls generalizing ring with
  | zero => exact ⟨ring.rseq, rfl⟩
  | succ polls ih =>
      rw [wgSocketRecvRelay_succ]
      split
      · exact ih ring
      dsimp only
      split
      · obtain ⟨rseq, hrseq⟩ := ih { ring with rseq := readPosition ring + 1 }
        exact ⟨rseq, hrseq⟩
      · exact ⟨_, rfl⟩

/-- With nothing published ahead of its position the consumer waits. -/
theorem wgSocketRecvRelay_waits {ring : Ring} (h : ring.rseq ≥ ring.wseq) (len polls : Nat) :
    wgSocketRecvRelay ring len polls = (none, ring) := by
  induction polls with
  | zero => rfl
  | succ polls ih =>
      unfold wgSocketRecvRelay
      rw [if_pos h]
      exact ih

/-- The slot of a packet holds its length and its bytes. -/
def HoldsPacket (slot : RingSlot) (packet : Bytes) : Prop :=
  slot.len.toNat = packet.length ∧ slot.data.take packet.length = packet

theorem holdsPacket_written {data old : Bytes} (hlen : data.length ≤ ringDataMax) :
    HoldsPacket ⟨UInt16.ofNat data.length, data ++ old⟩ data := by
  constructor
  · change (UInt16.ofNat data.length).toNat = data.length
    rw [UInt16.toNat_ofNat']
    unfold ringDataMax at hlen
    exact Nat.mod_eq_of_lt (by omega)
  · exact List.take_left' rfl

/-- At most one lap behind, the consumer takes the packet at its position. -/
theorem wgSocketRecvRelay_takes {ring : Ring} {packet : Bytes} {len : Nat}
    (hunread : ¬ ring.rseq ≥ ring.wseq) (hnear : ¬ ring.wseq - ring.rseq > 256)
    (hslot : HoldsPacket (ring.slots (slotIndex ring.rseq)) packet)
    (hpos : 1 ≤ packet.length) (hlen : packet.length ≤ len) (polls : Nat) :
    wgSocketRecvRelay ring len (polls + 1) =
      (some packet, { ring with rseq := ring.rseq + 1 }) := by
  obtain ⟨hslotlen, hdata⟩ := hslot
  have hread : readPosition ring = ring.rseq := if_neg hnear
  rw [wgSocketRecvRelay_succ, if_neg hunread, hread]
  have hne : (ring.slots (slotIndex ring.rseq)).len ≠ 0 := by
    intro hzero
    rw [hzero] at hslotlen
    change 0 = packet.length at hslotlen
    omega
  dsimp only
  rw [if_neg hne, hslotlen]
  have hcut : (if packet.length < len then packet.length else len) = packet.length := by
    split <;> omega
  rw [hcut, hdata]

theorem wgRelayInput_eq_some {ring ring' : Ring} {data : Bytes}
    (hlen : data.length ≤ ringDataMax) (h : wgRelayInput ring data = some ring') :
    ring' = { ring with
      slots := update ring.slots (slotIndex ring.wseqLocal)
        ⟨UInt16.ofNat data.length,
          data ++ (ring.slots (slotIndex ring.wseqLocal)).data.drop data.length⟩
      wseqLocal := ring.wseqLocal + 1 } := by
  unfold wgRelayInput at h
  rw [if_neg (Nat.not_lt.mpr hlen)] at h
  split at h
  · cases h
  · exact (Option.some.inj h).symm

end Slots

section Machine

/-- A packet the ring has room for. -/
abbrev Packet := { data : Bytes // 1 ≤ data.length ∧ data.length ≤ ringDataMax }

/-- The ring with what has happened to it: the packets in the order they were
written, how many of them are published, the packets returned to the consumer, and
for each slot the serial number of the packet that was written to it last. -/
structure Relay where
  ring : Ring
  written : List Bytes
  published : Nat
  returned : List Bytes
  stamps : Fin ringSlots → Option Nat

def Relay.initial : Relay := ⟨Ring.initial, [], 0, [], fun _ => none⟩

def Relay.committed (s : Relay) : List Bytes := s.written.take s.published

inductive RelayAction
  | input (packet : Packet)
  | commit
  | recv (len : { len : Nat // ringDataMax ≤ len }) (polls : Nat)

def relayStep (s : Relay) : RelayAction → Relay × List Bytes
  | .input packet =>
      match wgRelayInput s.ring packet.1 with
      | none => (s, [])
      | some ring =>
          ({ s with
              ring := ring
              written := s.written ++ [packet.1]
              stamps := update s.stamps (slotIndex s.ring.wseqLocal) (some s.written.length) },
            [])
  | .commit =>
      ({ s with ring := wgRelayCommit s.ring, published := s.written.length }, [])
  | .recv len polls =>
      match wgSocketRecvRelay s.ring len.1 polls with
      | (none, ring) => ({ s with ring := ring }, [])
      | (some packet, ring) =>
          ({ s with ring := ring, returned := s.returned ++ [packet] }, [packet])

/-- What has been returned are the first packets that were committed, and every
packet that has not been returned is still in a slot. -/
structure Lossless (s : Relay) : Prop where
  inOrder : s.returned <+: s.committed
  kept : ∀ k, s.returned.length ≤ k → k < s.written.length → ∃ i, s.stamps i = some k

/-- A packet is written only while fewer packets than slots are unread. -/
def Roomy (s : Relay) : RelayAction → Prop
  | .input packet =>
      (wgRelayInput s.ring packet.1).isSome = true →
        s.written.length < s.returned.length + ringSlots
  | _ => True

end Machine

section Fifo

/-- The three sequence numbers count the packets, and one lap of slots holds all
packets from the reader's position on. -/
structure Tracks (s : Relay) : Prop where
  wseqLocal : s.ring.wseqLocal = UInt32.ofNat s.written.length
  wseq : s.ring.wseq = UInt32.ofNat s.published
  rseq : s.ring.rseq = UInt32.ofNat s.returned.length
  read_le : s.returned.length ≤ s.published
  published_le : s.published ≤ s.written.length
  lap : s.written.length ≤ s.returned.length + ringSlots
  returned : s.returned = s.written.take s.returned.length
  sizes : ∀ packet ∈ s.written, 1 ≤ packet.length ∧ packet.length ≤ ringDataMax
  slots : ∀ k packet, s.returned.length ≤ k → s.written[k]? = some packet →
    HoldsPacket (s.ring.slots (Fin.ofNat ringSlots k)) packet
  stamps : ∀ k, s.returned.length ≤ k → k < s.written.length →
    s.stamps (Fin.ofNat ringSlots k) = some k
  stamped : ∀ i k, s.stamps i = some k → i = Fin.ofNat ringSlots k

theorem tracks_initial : Tracks Relay.initial := by
  refine ⟨rfl, rfl, rfl, Nat.le_refl _, Nat.le_refl _, Nat.zero_le _, rfl, ?_, ?_, ?_, ?_⟩
  · intro packet hmem
    cases hmem
  · intro k packet _ hk
    cases hk
  · intro k _ hk
    cases hk
  · intro i k hstamp
    cases hstamp

theorem Tracks.lossless {s : Relay} (h : Tracks s) : Lossless s := by
  refine ⟨?_, fun k hlo hhi => ⟨_, h.stamps k hlo hhi⟩⟩
  rw [h.returned, Relay.committed]
  exact List.take_prefix_take_left h.read_le

variable {s : Relay}

theorem tracks_input (h : Tracks s) (packet : Packet) (hroom : Roomy s (.input packet)) :
    Tracks (relayStep s (.input packet)).1 := by
  simp only [relayStep]
  cases hinput : wgRelayInput s.ring packet.1 with
  | none => exact h
  | some ring =>
      have hfree : s.written.length < s.returned.length + ringSlots :=
        hroom (by rw [hinput]; rfl)
      have hring := wgRelayInput_eq_some packet.2.2 hinput
      rw [h.wseqLocal, slotIndex_ofNat] at hring
      have hread : s.returned.length ≤ s.written.length := Nat.le_trans h.read_le h.published_le
      subst hring
      dsimp only
      rw [h.wseqLocal, slotIndex_ofNat]
      refine ⟨?_, h.wseq, h.rseq, h.read_le, ?_, ?_, ?_, ?_, ?_, ?_, ?_⟩
      · rw [List.length_append, List.length_singleton, UInt32.ofNat_add]
        rfl
      · rw [List.length_append]
        exact Nat.le_trans h.published_le (Nat.le_add_right _ _)
      · rw [List.length_append, List.length_singleton]
        exact hfree
      · rw [List.take_append_of_le_length hread]
        exact h.returned
      · intro p hp
        rcases List.mem_append.mp hp with hold | hnew
        · exact h.sizes p hold
        · rw [List.mem_singleton.mp hnew]
          exact packet.2
      · intro k p hlo hk
        change s.returned.length ≤ k at hlo
        rcases Nat.lt_trichotomy k s.written.length with hlt | rfl | hgt
        · rw [List.getElem?_append_left hlt] at hk
          dsimp only
          rw [update_window _ _ hlt (by omega)]
          exact h.slots k p hlo hk
        · rw [List.getElem?_append_right (Nat.le_refl _), Nat.sub_self] at hk
          cases hk
          dsimp only
          rw [update_self]
          exact holdsPacket_written packet.2.2
        · rw [List.getElem?_eq_none (by rw [List.length_append]; exact hgt)] at hk
          cases hk
      · intro k hlo hk
        change s.returned.length ≤ k at hlo
        rw [List.length_append, List.length_singleton] at hk
        dsimp only
        rcases Nat.lt_or_eq_of_le (Nat.le_of_lt_succ hk) with hlt | rfl
        · rw [update_window _ _ hlt (by omega)]
          exact h.stamps k hlo hlt
        · exact update_self ..
      · intro i k hstamp
        dsimp only at hstamp
        by_cases hi : i = Fin.ofNat ringSlots s.written.length
        · rw [hi, update_self] at hstamp
          rw [hi, Option.some.inj hstamp]
        · rw [update_of_ne hi] at hstamp
          exact h.stamped i k hstamp

/-- Writing over the oldest unread packet takes it out of the ring. -/
theorem roomy_of_lossless_input (h : Tracks s) (packet : Packet)
    (hgood : Lossless (relayStep s (.input packet)).1) : Roomy s (.input packet) := by
  intro hsome
  obtain ⟨ring, hinput⟩ := Option.isSome_iff_exists.mp hsome
  have hlap := h.lap
  rcases Nat.lt_or_eq_of_le hlap with hlt | hfull
  · exact hlt
  · -- The ring is full: the new packet gets the slot of the reader's position.
    have hkept := hgood.kept s.returned.length
    simp only [relayStep, hinput] at hkept
    obtain ⟨i, hi⟩ := hkept (Nat.le_refl _) (by
      rw [List.length_append, List.length_singleton]
      omega)
    rw [h.wseqLocal, slotIndex_ofNat] at hi
    have hlast : Fin.ofNat ringSlots s.written.length =
        Fin.ofNat ringSlots s.returned.length := by
      apply Fin.ext
      change s.written.length % ringSlots = s.returned.length % ringSlots
      rw [hfull, Nat.add_mod_right]
    by_cases hslot : i = Fin.ofNat ringSlots s.written.length
    · rw [hslot, update_self] at hi
      have heq := Option.some.inj hi
      unfold ringSlots at hfull
      omega
    · rw [update_of_ne hslot] at hi
      exact absurd (h.stamped i _ hi) (hlast ▸ hslot)

theorem tracks_commit (h : Tracks s) : Tracks (relayStep s .commit).1 :=
  ⟨h.wseqLocal, h.wseqLocal, h.rseq, Nat.le_trans h.read_le h.published_le, Nat.le_refl _, h.lap,
    h.returned, h.sizes, h.slots, h.stamps, h.stamped⟩

/-- A call of the consumer finds nothing, or takes the packet at its position. -/
theorem wgSocketRecvRelay_tracks (h : Tracks s) {len : Nat} (hlen : ringDataMax ≤ len)
    (polls : Nat) :
    wgSocketRecvRelay s.ring len polls = (none, s.ring) ∨
      ∃ packet, s.returned.length < s.published ∧
        s.written[s.returned.length]? = some packet ∧
        wgSocketRecvRelay s.ring len polls =
          (some packet, { s.ring with rseq := s.ring.rseq + 1 }) := by
  cases polls with
  | zero => exact .inl rfl
  | succ polls =>
      by_cases hwait : s.ring.rseq ≥ s.ring.wseq
      · exact .inl (wgSocketRecvRelay_waits hwait len (polls + 1))
      · have hunread := hwait
        rw [ge_iff_le, UInt32.not_le, h.rseq, h.wseq] at hunread
        have hlt := seq_lt_iff hunread h.read_le
        have hbound : s.returned.length < s.written.length :=
          Nat.lt_of_lt_of_le hlt h.published_le
        have hpacket := List.getElem?_eq_getElem hbound
        generalize s.written[s.returned.length] = packet at hpacket
        obtain ⟨hpos, hmax⟩ := h.sizes packet (List.mem_of_getElem? hpacket)
        refine .inr ⟨packet, hlt, hpacket, ?_⟩
        have hnear : ¬ s.ring.wseq - s.ring.rseq > 256 := by
          rw [h.wseq, h.rseq]
          exact seq_distance_le h.read_le (Nat.le_trans h.published_le h.lap)
        have hslot := h.slots _ packet (Nat.le_refl _) hpacket
        rw [← slotIndex_ofNat, ← h.rseq] at hslot
        exact wgSocketRecvRelay_takes hwait hnear hslot hpos (Nat.le_trans hmax hlen) polls

theorem tracks_recv (h : Tracks s) (len : { len : Nat // ringDataMax ≤ len }) (polls : Nat) :
    Tracks (relayStep s (.recv len polls)).1 := by
  simp only [relayStep]
  rcases wgSocketRecvRelay_tracks h len.2 polls with hnone | ⟨packet, hlt, hpacket, hsome⟩
  · rw [hnone]
    exact h
  · rw [hsome]
    have hlength : (s.returned ++ [packet]).length = s.returned.length + 1 := List.length_append
    have hlap := h.lap
    refine ⟨h.wseqLocal, h.wseq, ?_, ?_, h.published_le, ?_, ?_, h.sizes, ?_, ?_, h.stamped⟩
    · dsimp only
      rw [hlength, UInt32.ofNat_add, h.rseq]
      rfl
    · rw [hlength]
      exact hlt
    · rw [hlength]
      dsimp only
      omega
    · rw [hlength]
      dsimp only
      rw [List.take_add_one, hpacket, ← h.returned]
      rfl
    · intro k p hlo
      rw [hlength] at hlo
      exact h.slots k p (Nat.le_of_succ_le hlo)
    · intro k hlo
      rw [hlength] at hlo
      exact h.stamps k (Nat.le_of_succ_le hlo)

theorem tracks_step (s : Relay) (a : RelayAction) (h : Tracks s) (hroom : Roomy s a) :
    Tracks (relayStep s a).1 := by
  cases a with
  | input packet => exact tracks_input h packet hroom
  | commit => exact tracks_commit h
  | recv len polls => exact tracks_recv h len polls

theorem roomy_of_lossless (s : Relay) (a : RelayAction) (h : Tracks s)
    (hgood : Lossless (relayStep s a).1) : Roomy s a := by
  cases a with
  | input packet => exact roomy_of_lossless_input h packet hgood
  | commit => trivial
  | recv len polls => trivial

/-- The ring is a lossless queue in exactly the runs in which no packet is written
while a whole lap of packets is unread. -/
theorem relay_ring_lossless_iff (actions : List RelayAction) :
    AllStates relayStep Lossless Relay.initial actions ↔
      AllSteps relayStep Roomy Relay.initial actions :=
  allStates_iff_allSteps_of_kept relayStep (fun _ => Tracks.lossless) tracks_step
    roomy_of_lossless tracks_initial

end Fifo

section Lapped

def samplePacket (b : UInt8) : Packet := ⟨[b], Nat.le_refl 1, Nat.le_of_ble_eq_true rfl⟩

/-- Each packet is committed at once, so the producer never waits. -/
def lappedRun : List RelayAction :=
  ((List.range 257).flatMap fun i => [.input (samplePacket (UInt8.ofNat i)), .commit]) ++
    [.recv ⟨2048, by decide⟩ 1]

/-- After one packet more than there are slots the consumer starts with the third. -/
theorem lapped_consumer_skips :
    (run relayStep Relay.initial lappedRun).1.returned = [[2]] ∧
      (run relayStep Relay.initial lappedRun).1.committed.take 3 = [[0], [1], [2]] ∧
      ¬ AllStates relayStep Lossless Relay.initial lappedRun := by
  have hrun : (run relayStep Relay.initial lappedRun).1.returned = [[2]] ∧
      (run relayStep Relay.initial lappedRun).1.committed.take 3 = [[0], [1], [2]] := by
    decide +kernel
  refine ⟨hrun.1, hrun.2, ?_⟩
  intro hall
  obtain ⟨rest, hrest⟩ := (AllStates.last hall).inOrder
  have hfirst := congrArg (List.take 3) hrest
  rw [hrun.1, hrun.2] at hfirst
  cases hfirst

end Lapped

end WgNx.RelayRing
