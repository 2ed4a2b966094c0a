import WgNx.RelayRing

/-!
The sequence numbers of the relay ring at the end of their range.

The consumer subtracts the numbers, masks them and also compares them as plain numbers.  Two
rings whose positions are the same distance apart, with the same packets between them, are
read alike exactly if this comparison comes out alike.
-/

namespace WgNx.RingWrap

open WgNx.ByteLayout
open WgNx.RelayRing

section Statement

/-- The same number of packets is published and unread, and these are the same ones. -/
structure Corresponds (a b : Ring) : Prop where
  distance : a.wseq - a.rseq = b.wseq - b.rseq
  slots : ∀ j < a.wseq - a.rseq,
    a.slots (slotIndex (a.rseq + j)) = b.slots (slotIndex (b.rseq + j))

/-- A call returns the same bytes, and goes on by the same distance. -/
def SameResult (a b : Ring) (len polls : Nat) : Prop :=
  (wgSocketRecvRelay a len polls).1 = (wgSocketRecvRelay b len polls).1 ∧
    (wgSocketRecvRelay a len polls).2.rseq - a.rseq =
      (wgSocketRecvRelay b len polls).2.rseq - b.rseq

/-- Both numbers moved by the same number of whole laps. -/
def shiftLaps (ring : Ring) (k : UInt32) : Ring :=
  { ring with wseq := ring.wseq + 256 * k, rseq := ring.rseq + 256 * k }

end Statement

section Distance

variable {a b : Ring}

theorem slotIndex_add_laps (seq k : UInt32) : slotIndex (seq + 256 * k) = slotIndex seq := by
  apply Fin.ext
  rw [slotIndex_val, slotIndex_val, UInt32.toNat_add, UInt32.toNat_mul]
  change (seq.toNat + 256 * k.toNat % 2 ^ 32) % 2 ^ 32 % 256 = seq.toNat % 256
  omega

theorem corresponds_shiftLaps (ring : Ring) (k : UInt32) : Corresponds ring (shiftLaps ring k) := by
  refine ⟨?_, ?_⟩
  · change ring.wseq - ring.rseq = (ring.wseq + 256 * k) - (ring.rseq + 256 * k)
    grind
  · intro j _
    change ring.slots _ = ring.slots (slotIndex (ring.rseq + 256 * k + j))
    have hmove : ring.rseq + 256 * k + j = ring.rseq + j + 256 * k := by grind
    rw [hmove, slotIndex_add_laps]

/-- How far the consumer goes when it catches up. -/
def skipped (distance : UInt32) : UInt32 := if distance > 256 then distance - 255 else 0

theorem readPosition_eq (ring : Ring) :
    readPosition ring = ring.rseq + skipped (ring.wseq - ring.rseq) := by
  unfold readPosition skipped
  by_cases hfar : ring.wseq - ring.rseq > 256
  · rw [if_pos hfar, if_pos hfar]
    grind
  · rw [if_neg hfar, if_neg hfar]
    grind

theorem skipped_lt {distance : UInt32} (h : distance ≠ 0) : skipped distance < distance := by
  unfold skipped
  by_cases hfar : distance > 256
  · rw [if_pos hfar]
    have hle : (255 : UInt32) ≤ distance := UInt32.le_of_lt (UInt32.lt_trans (by decide) hfar)
    rw [UInt32.lt_iff_toNat_lt, UInt32.toNat_sub_of_le _ _ hle]
    have hlt := UInt32.lt_iff_toNat_lt.mp hfar
    change 256 < distance.toNat at hlt
    change distance.toNat - 255 < distance.toNat
    omega
  · rw [if_neg hfar, UInt32.lt_iff_toNat_lt]
    exact Nat.pos_of_ne_zero fun hzero => h (UInt32.toNat_inj.mp hzero)

/-- The ring after the next position has been read or skipped. -/
def advanced (ring : Ring) : Ring := { ring with rseq := readPosition ring + 1 }

theorem rseq_advanced (ring : Ring) :
    (advanced ring).rseq = ring.rseq + (skipped (ring.wseq - ring.rseq) + 1) := by
  unfold advanced
  dsimp only
  rw [readPosition_eq]
  grind

theorem distance_advanced (ring : Ring) :
    (advanced ring).wseq - (advanced ring).rseq =
      (ring.wseq - ring.rseq) - (skipped (ring.wseq - ring.rseq) + 1) := by
  rw [rseq_advanced]
  change ring.wseq - _ = _
  grind

theorem toNat_skipped_succ {distance : UInt32} (h : distance ≠ 0) :
    (skipped distance + 1).toNat = (skipped distance).toNat + 1 ∧
      (skipped distance).toNat + 1 ≤ distance.toNat := by
  have hlt := UInt32.lt_iff_toNat_lt.mp (skipped_lt h)
  have hbound := distance.toNat_lt
  refine ⟨?_, hlt⟩
  rw [UInt32.toNat_add]
  exact Nat.mod_eq_of_lt (Nat.lt_of_le_of_lt hlt hbound)

theorem corresponds_advanced (h : Corresponds a b) (hne : a.wseq - a.rseq ≠ 0) :
    Corresponds (advanced a) (advanced b) := by
  obtain ⟨hsucc, hle⟩ := toNat_skipped_succ hne
  refine ⟨?_, ?_⟩
  · rw [distance_advanced, distance_advanced, h.distance]
  · intro j hj
    rw [distance_advanced] at hj
    have hstep : skipped (a.wseq - a.rseq) + 1 + j < a.wseq - a.rseq := by
      have hsub : skipped (a.wseq - a.rseq) + 1 ≤ a.wseq - a.rseq := by
        rw [UInt32.le_iff_toNat_le, hsucc]
        exact hle
      rw [UInt32.lt_iff_toNat_lt, UInt32.toNat_sub_of_le _ _ hsub, hsucc] at hj
      have hbound := (a.wseq - a.rseq).toNat_lt
      rw [UInt32.lt_iff_toNat_lt, UInt32.toNat_add, hsucc]
      omega
    have hslot := h.slots _ hstep
    rw [rseq_advanced, rseq_advanced, ← h.distance, UInt32.add_assoc a.rseq,
      UInt32.add_assoc b.rseq]
    exact hslot

/-- The position stays at or before the published end. -/
theorem rseq_advanced_bounds {ring : Ring} (h : ring.rseq < ring.wseq) :
    ring.rseq < (advanced ring).rseq ∧ (advanced ring).rseq ≤ ring.wseq := by
  have hlt := UInt32.lt_iff_toNat_lt.mp h
  have hdistance := UInt32.toNat_sub_of_le _ _ (UInt32.le_of_lt h)
  have hne : ring.wseq - ring.rseq ≠ 0 := by
    intro hzero
    rw [hzero] at hdistance
    change 0 = _ at hdistance
    omega
  obtain ⟨hsucc, hle⟩ := toNat_skipped_succ hne
  have hbound := ring.wseq.toNat_lt
  rw [rseq_advanced, UInt32.lt_iff_toNat_lt, UInt32.le_iff_toNat_le, UInt32.toNat_add, hsucc]
  rw [Nat.mod_eq_of_lt (by omega)]
  omega

theorem lt_iff_distance_ne {ring : Ring} (h : ring.rseq ≤ ring.wseq) :
    ring.rseq < ring.wseq ↔ ring.wseq - ring.rseq ≠ 0 := by
  have hle := UInt32.le_iff_toNat_le.mp h
  have hdistance := UInt32.toNat_sub_of_le _ _ h
  rw [UInt32.lt_iff_toNat_lt, ne_eq, ← UInt32.toNat_inj, hdistance]
  change _ ↔ ¬ _ = 0
  omega

end Distance

section Calls

variable {a b : Ring}

theorem sameResult_zero (len : Nat) : SameResult a b len 0 := by
  refine ⟨rfl, ?_⟩
  change a.rseq - a.rseq = b.rseq - b.rseq
  rw [UInt32.sub_self, UInt32.sub_self]

/-- The comparison decides, and nothing else depends on the numbers themselves. -/
theorem sameResult_of_alike (h : Corresponds a b)
    (halike : a.rseq < a.wseq ↔ b.rseq < b.wseq) (len polls : Nat) : SameResult a b len polls := by
  induction polls generalizing a b with
  | zero => exact sameResult_zero len
  | succ polls ih =>
      by_cases hahead : a.rseq < a.wseq
      · have hne := (lt_iff_distance_ne (UInt32.le_of_lt hahead)).mp hahead
        have hslot := h.slots _ (skipped_lt hne)
        rw [h.distance, ← readPosition_eq b, ← h.distance, ← readPosition_eq a] at hslot
        have hnext : (advanced a).rseq < (advanced a).wseq ↔
            (advanced b).rseq < (advanced b).wseq := by
          rw [lt_iff_distance_ne (rseq_advanced_bounds hahead).2,
            lt_iff_distance_ne (rseq_advanced_bounds (halike.mp hahead)).2, distance_advanced,
            distance_advanced, h.distance]
        obtain ⟨hbytes, hgone⟩ := ih (corresponds_advanced h hne) hnext
        have hstep : (advanced a).rseq - a.rseq = (advanced b).rseq - b.rseq := by
          rw [rseq_advanced, rseq_advanced, h.distance]
          grind
        unfold SameResult
        rw [wgSocketRecvRelay_succ, wgSocketRecvRelay_succ, if_neg (UInt32.not_le.mpr hahead),
          if_neg (UInt32.not_le.mpr (halike.mp hahead)), ← hslot]
        dsimp only
        by_cases hempty : (a.slots (slotIndex (readPosition a))).len = 0
        · rw [if_pos hempty, if_pos hempty]
          refine ⟨hbytes, ?_⟩
          change (wgSocketRecvRelay (advanced a) len polls).2.rseq - a.rseq =
            (wgSocketRecvRelay (advanced b) len polls).2.rseq - b.rseq
          grind
        · rw [if_neg hempty, if_neg hempty]
          exact ⟨rfl, hstep⟩
      · have hbehind : ¬ b.rseq < b.wseq := hahead ∘ halike.mpr
        unfold SameResult
        rw [wgSocketRecvRelay_waits (UInt32.not_lt.mp hahead),
          wgSocketRecvRelay_waits (UInt32.not_lt.mp hbehind)]
        exact sameResult_zero len

/-- A call ends between the position it starts at and the published end. -/
theorem rseq_recv_bounds {ring : Ring} (h : ring.rseq ≤ ring.wseq) (len polls : Nat) :
    ring.rseq ≤ (wgSocketRecvRelay ring len polls).2.rseq := by
  induction polls generalizing ring with
  | zero => exact UInt32.le_refl _
  | succ polls ih =>
      rw [wgSocketRecvRelay_succ]
      split
      · exact ih h
      rename_i hwaits
      obtain ⟨hlt, hle⟩ := rseq_advanced_bounds (UInt32.not_le.mp hwaits)
      dsimp only
      split
      · exact UInt32.le_trans (UInt32.le_of_lt hlt) (@ih (advanced ring) hle)
      · exact UInt32.le_of_lt hlt

/-- A call that finds something moves on. -/
theorem rseq_recv_ne {ring : Ring} (h : ring.rseq < ring.wseq) (len polls : Nat) :
    (wgSocketRecvRelay ring len (polls + 1)).2.rseq ≠ ring.rseq := by
  obtain ⟨hlt, hle⟩ := rseq_advanced_bounds h
  rw [wgSocketRecvRelay_succ, if_neg (UInt32.not_le.mpr h)]
  dsimp only
  split
  · have hmoved := UInt32.lt_of_lt_of_le hlt (@rseq_recv_bounds (advanced ring) hle len polls)
    exact (UInt32.ne_of_lt hmoved).symm
  · exact (UInt32.ne_of_lt hlt).symm

/-- Calls that give the same result have compared alike. -/
theorem ahead_of_sameResult {len polls : Nat} (h : SameResult a b len (polls + 1))
    (hahead : a.rseq < a.wseq) : b.rseq < b.wseq := by
  by_contra hbehind
  have hmoved := h.2
  rw [wgSocketRecvRelay_waits (UInt32.not_lt.mp hbehind), UInt32.sub_self] at hmoved
  have hsame : (wgSocketRecvRelay a len (polls + 1)).2.rseq = a.rseq := by grind
  exact rseq_recv_ne hahead len polls hsame

theorem sameResult_comm {len polls : Nat} (h : SameResult a b len polls) :
    SameResult b a len polls := ⟨h.1.symm, h.2.symm⟩

/-- Where the plain comparison of the numbers comes out alike, and only there, the result
depends on their distance and the packets alone; and an unread packet is returned exactly if
the published number is the larger one. -/
theorem recv_wrap_iff (ring : Ring) (len polls : Nat) (hpolls : 1 ≤ polls) :
    (∀ k, Corresponds ring (shiftLaps ring k)) ∧
      (∀ other, Corresponds ring other →
        (SameResult ring other len polls ↔
          (ring.rseq < ring.wseq ↔ other.rseq < other.wseq))) ∧
      ∀ packet, ring.wseq - ring.rseq ≤ 256 →
        HoldsPacket (ring.slots (slotIndex ring.rseq)) packet → 1 ≤ packet.length →
        packet.length ≤ len →
          ((wgSocketRecvRelay ring len polls).1 = some packet ↔ ring.rseq < ring.wseq) := by
  obtain ⟨polls, rfl⟩ := Nat.exists_eq_add_of_le' hpolls
  refine ⟨corresponds_shiftLaps ring, ?_, ?_⟩
  · intro other hother
    constructor
    · intro hsame
      exact ⟨ahead_of_sameResult hsame, ahead_of_sameResult (sameResult_comm hsame)⟩
    · intro halike
      exact sameResult_of_alike hother halike len _
  · intro packet hnear hslot hpos hlen
    constructor
    · intro hread
      by_contra hbehind
      rw [wgSocketRecvRelay_waits (UInt32.not_lt.mp hbehind)] at hread
      cases hread
    · intro hahead
      rw [wgSocketRecvRelay_takes (UInt32.not_le.mpr hahead) (UInt32.not_lt.mpr hnear) hslot hpos
        hlen]

theorem recv_wrap_first_packet :
    SameResult ⟨fun _ => ⟨1, [7]⟩, 1, 1, 0⟩ (shiftLaps ⟨fun _ => ⟨1, [7]⟩, 1, 1, 0⟩ 3) 2048 1 ∧
      (wgSocketRecvRelay ⟨fun _ => ⟨1, [7]⟩, 1, 1, 0⟩ 2048 1).1 = some [7] := by
  obtain ⟨hshift, hsame, hread⟩ :=
    recv_wrap_iff ⟨fun _ => ⟨1, [7]⟩, 1, 1, 0⟩ 2048 1 (by decide)
  exact ⟨(hsame _ (hshift 3)).mpr (by decide),
    (hread [7] (by decide) ⟨rfl, rfl⟩ (by decide) (by decide)).mpr (by decide)⟩

/-- The published number has wrapped and one packet is unread. -/
def wrappedRing : Ring := ⟨fun _ => ⟨1, [7]⟩, 0, 0, 0xFFFFFFFF⟩

/-- The packet is not returned, but it is if both numbers are one lap further on. -/
theorem wrapped_packet_not_returned :
    (wgSocketRecvRelay wrappedRing 2048 1).1 = none ∧
      (wgSocketRecvRelay (shiftLaps wrappedRing 1) 2048 1).1 = some [7] ∧
      Corresponds wrappedRing (shiftLaps wrappedRing 1) ∧
      ¬ SameResult wrappedRing (shiftLaps wrappedRing 1) 2048 1 := by
  have hnone : (wgSocketRecvRelay wrappedRing 2048 1).1 = none := by decide
  have hsome : (wgSocketRecvRelay (shiftLaps wrappedRing 1) 2048 1).1 = some [7] := by decide
  refine ⟨hnone, hsome, corresponds_shiftLaps _ _, ?_⟩
  rintro ⟨hbytes, -⟩
  rw [hnone, hsome] at hbytes
  cases hbytes

end Calls

end WgNx.RingWrap
