import WgNx.RelayRing

/-!
One burst of the relay connection: some packets are written to the ring, and then all of
them are published at once.

The loop in which the producer waits for room compares two counters, and both are moved by
the producer only.  So a producer that has begun to wait waits for ever, and it does so as
soon as a burst has more packets than the test allows.
-/

namespace WgNx.RelayBurst

open WgNx.ByteLayout
open WgNx.OutputMachine
open WgNx.RelayRing

section Model

structure Burst where
  ring : Ring
  packets : List Bytes
  committed : Bool

inductive BurstAction
  | producer
  | consumer (len polls : Nat)
  deriving DecidableEq

/-- A burst begins when everything before it is published. -/
def Burst.start (ring : Ring) (packets : List Bytes) : Burst :=
  ⟨wgRelayCommit ring, packets, false⟩

/-- The producer goes through its calls; in the waiting loop a step changes nothing.  The
consumer calls `wg_socket_recv` with any buffer and any deadline. -/
def burstStep (s : Burst) : BurstAction → Burst × List Bytes
  | .producer =>
      match s.packets, s.committed with
      | data :: rest, _ =>
          match wgRelayInput s.ring data with
          | none => (s, [])
          | some ring => ({ s with ring, packets := rest }, [])
      | [], false => ({ s with ring := wgRelayCommit s.ring, committed := true }, [])
      | [], true => (s, [])
  | .consumer len polls =>
      let (packet, ring) := wgSocketRecvRelay s.ring len polls
      ({ s with ring }, packet.toList)

/-- The producer is in the waiting loop of `wg_relay_input`. -/
def Waiting (s : Burst) : Prop :=
  ∃ data rest, s.packets = data :: rest ∧ wgRelayInput s.ring data = none

def Stuck (s : Burst) : Prop :=
  ∀ calls : List (Nat × Nat),
    Waiting (run burstStep s (calls.map fun call => .consumer call.1 call.2)).1

/-- The producer is never stuck, and is done when it has made all of its steps. -/
def Completes (ring : Ring) (packets : List Bytes) : Prop :=
  ∀ actions : List BurstAction,
    ¬ Stuck (run burstStep (Burst.start ring packets) actions).1 ∧
      (packets.length < actions.count .producer →
        (run burstStep (Burst.start ring packets) actions).1.committed = true)

def fits (data : Bytes) : Bool := data.length ≤ ringDataMax

end Model

section Waiting

theorem wgRelayInput_eq_none_iff (ring : Ring) (data : Bytes) :
    wgRelayInput ring data = none ↔ fits data = true ∧ ring.wseqLocal - ring.wseq ≥ 252 := by
  unfold wgRelayInput fits
  constructor
  · intro h
    split at h
    · cases h
    rename_i hlen
    split at h
    · rename_i hfull
      exact ⟨decide_eq_true (Nat.le_of_not_lt hlen), hfull⟩
    · cases h
  · rintro ⟨hlen, hfull⟩
    rw [if_neg (Nat.not_lt.mpr (of_decide_eq_true hlen)), if_pos hfull]

/-- A packet of the right size moves the counter of the producer, any other packet nothing. -/
theorem wgRelayInput_some {ring ring' : Ring} {data : Bytes}
    (h : wgRelayInput ring data = some ring') :
    (fits data = false ∧ ring' = ring) ∨
      (fits data = true ∧ ring.wseqLocal - ring.wseq < 252 ∧
        ring'.wseqLocal - ring'.wseq = ring.wseqLocal - ring.wseq + 1) := by
  by_cases hlen : data.length ≤ ringDataMax
  · have hroom : ¬ ring.wseqLocal - ring.wseq ≥ 252 := by
      intro hfull
      rw [(wgRelayInput_eq_none_iff ring data).mpr ⟨decide_eq_true hlen, hfull⟩] at h
      cases h
    have hring := wgRelayInput_eq_some hlen h
    refine .inr ⟨decide_eq_true hlen, UInt32.not_le.mp hroom, ?_⟩
    rw [hring]
    grind
  · have hsame : wgRelayInput ring data = some ring := if_pos (Nat.lt_of_not_le hlen)
    rw [hsame] at h
    exact .inl ⟨decide_eq_false hlen, (Option.some.inj h).symm⟩

theorem waiting_consumer {s : Burst} (h : Waiting s) (len polls : Nat) :
    Waiting (burstStep s (.consumer len polls)).1 := by
  obtain ⟨data, rest, hpackets, hnone⟩ := h
  obtain ⟨rseq, hring⟩ := wgSocketRecvRelay_ring s.ring len polls
  refine ⟨data, rest, hpackets, ?_⟩
  rw [wgRelayInput_eq_none_iff] at hnone ⊢
  change _ ∧ (wgSocketRecvRelay s.ring len polls).2.wseqLocal -
    (wgSocketRecvRelay s.ring len polls).2.wseq ≥ 252
  rw [hring]
  exact hnone

theorem stuck_iff_waiting (s : Burst) : Stuck s ↔ Waiting s := by
  constructor
  · intro hstuck
    exact hstuck []
  · intro hwaiting calls
    induction calls generalizing s with
    | nil => exact hwaiting
    | cons call calls ih => exact ih _ (waiting_consumer hwaiting call.1 call.2)

end Waiting

section Progress

/-- While the burst is not published, the distance of the two counters is the number of the
packets written, and these and the packets to come are the packets of the burst. -/
structure Filling (total : Nat) (s : Burst) : Prop where
  counted : s.committed = false →
    ∃ k ≤ 252, k + s.packets.countP fits = total ∧ s.ring.wseqLocal - s.ring.wseq = UInt32.ofNat k
  done : s.committed = true → s.packets = []

theorem filling_start (ring : Ring) (packets : List Bytes) :
    Filling (packets.countP fits) (Burst.start ring packets) := by
  refine ⟨fun _ => ⟨0, by decide, Nat.zero_add _, ?_⟩, fun h => Bool.noConfusion h⟩
  exact UInt32.sub_self _

theorem filling_step (total : Nat) (s : Burst) (a : BurstAction) (h : Filling total s) :
    Filling total (burstStep s a).1 := by
  obtain ⟨ring, packets, committed⟩ := s
  cases a with
  | consumer len polls =>
      obtain ⟨rseq, hring⟩ := wgSocketRecvRelay_ring ring len polls
      change Filling total ⟨(wgSocketRecvRelay ring len polls).2, packets, committed⟩
      rw [hring]
      exact ⟨h.counted, h.done⟩
  | producer =>
      cases packets with
      | nil =>
          cases committed with
          | true => exact h
          | false => exact ⟨fun hopen => Bool.noConfusion hopen, fun _ => rfl⟩
      | cons data rest =>
          cases committed with
          | true => exact absurd (h.done rfl) (by simp)
          | false =>
              obtain ⟨k, hk, htotal, hdistance⟩ := h.counted rfl
              simp only [burstStep]
              cases hinput : wgRelayInput ring data with
              | none => exact h
              | some ring' =>
                  refine ⟨fun _ => ?_, fun hclosed => Bool.noConfusion hclosed⟩
                  rcases wgRelayInput_some hinput with ⟨hfits, rfl⟩ | ⟨hfits, hroom, hnext⟩
                  · rw [List.countP_cons_of_neg (by rw [hfits]; exact Bool.false_ne_true)] at htotal
                    exact ⟨k, hk, htotal, hdistance⟩
                  · rw [List.countP_cons_of_pos hfits] at htotal
                    change ring.wseqLocal - ring.wseq = UInt32.ofNat k at hdistance
                    rw [hdistance, UInt32.lt_iff_toNat_lt, UInt32.toNat_ofNat'] at hroom
                    change k % 2 ^ 32 < 252 at hroom
                    refine ⟨k + 1, by omega, by dsimp only; omega, ?_⟩
                    rw [hnext, hdistance, UInt32.ofNat_add]
                    rfl

theorem Filling.total_of_waiting {total : Nat} {s : Burst} (h : Filling total s)
    (hwaiting : Waiting s) : 252 < total := by
  obtain ⟨data, rest, hpackets, hnone⟩ := hwaiting
  obtain ⟨hfits, hfull⟩ := (wgRelayInput_eq_none_iff _ _).mp hnone
  cases hcommitted : s.committed with
  | true => exact absurd (h.done hcommitted) (by rw [hpackets]; simp)
  | false =>
      obtain ⟨k, hk, htotal, hdistance⟩ := h.counted hcommitted
      rw [hdistance, ge_iff_le, UInt32.le_iff_toNat_le, UInt32.toNat_ofNat'] at hfull
      rw [hpackets, List.countP_cons_of_pos hfits] at htotal
      change 252 ≤ k % 2 ^ 32 at hfull
      omega

def remaining (s : Burst) : Nat := s.packets.length + if s.committed then 0 else 1

theorem remaining_producer {s : Burst} (hgo : ¬ Waiting s) :
    remaining (burstStep s .producer).1 = remaining s - 1 := by
  obtain ⟨ring, packets, committed⟩ := s
  cases packets with
  | nil =>
      cases committed with
      | true => rfl
      | false => rfl
  | cons data rest =>
      simp only [burstStep]
      cases hinput : wgRelayInput ring data with
      | none => exact absurd ⟨data, rest, rfl, hinput⟩ hgo
      | some ring' =>
          unfold remaining
          dsimp only
          rw [List.length_cons]
          omega

theorem remaining_consumer (s : Burst) (len polls : Nat) :
    remaining (burstStep s (.consumer len polls)).1 = remaining s := rfl

theorem remaining_run {total : Nat} (htotal : total ≤ 252) {s : Burst} (h : Filling total s)
    (actions : List BurstAction) :
    remaining (run burstStep s actions).1 = remaining s - actions.count .producer := by
  induction actions generalizing s with
  | nil => rfl
  | cons a actions ih =>
      have hgo : ¬ Waiting s := by
        intro hwaiting
        exact Nat.not_lt.mpr htotal (h.total_of_waiting hwaiting)
      rw [run_cons_state, ih (filling_step total s a h)]
      cases a with
      | producer =>
          rw [remaining_producer hgo, List.count_cons_self]
          omega
      | consumer len polls =>
          rw [remaining_consumer, List.count_cons_of_ne (by simp)]

theorem filling_run {total : Nat} {s : Burst} (h : Filling total s) (actions : List BurstAction) :
    Filling total (run burstStep s actions).1 := by
  induction actions generalizing s with
  | nil => exact h
  | cons a actions ih =>
      rw [run_cons_state]
      exact ih (filling_step total s a h)

theorem exists_waiting {total : Nat} (htotal : 252 < total) {s : Burst} (h : Filling total s)
    (hopen : s.committed = false) :
    ∃ n, Waiting (run burstStep s (List.replicate n .producer)).1 := by
  obtain ⟨ring, packets, committed⟩ := s
  subst hopen
  induction packets generalizing ring with
  | nil =>
      obtain ⟨k, hk, hsum, -⟩ := h.counted rfl
      change k + 0 = total at hsum
      omega
  | cons data rest ih =>
      have hstep := filling_step total _ .producer h
      simp only [burstStep] at hstep
      cases hinput : wgRelayInput ring data with
      | none => exact ⟨0, data, rest, rfl, hinput⟩
      | some ring' =>
          rw [hinput] at hstep
          obtain ⟨n, hwaiting⟩ := ih ring' hstep
          refine ⟨n + 1, ?_⟩
          rw [List.replicate_succ, run_cons_state]
          simp only [burstStep, hinput]
          exact hwaiting

/-- A burst completes exactly if it has no more packets than the waiting loop lets through. -/
theorem completes_iff (ring : Ring) (packets : List Bytes) :
    Completes ring packets ↔ packets.countP fits ≤ 252 := by
  have hfilling := filling_start ring packets
  constructor
  · intro hcompletes
    by_contra hmany
    obtain ⟨n, hwaiting⟩ := exists_waiting (Nat.lt_of_not_le hmany) hfilling rfl
    exact (hcompletes (List.replicate n .producer)).1 ((stuck_iff_waiting _).mpr hwaiting)
  · intro hfew actions
    have hend := filling_run hfilling actions
    refine ⟨?_, ?_⟩
    · rw [stuck_iff_waiting]
      intro hwaiting
      exact Nat.not_lt.mpr hfew (hend.total_of_waiting hwaiting)
    · intro hsteps
      have hremaining := remaining_run hfew hfilling actions
      cases hcommitted : (run burstStep (Burst.start ring packets) actions).1.committed with
      | true => rfl
      | false =>
          unfold remaining at hremaining
          rw [hcommitted] at hremaining
          change _ + 1 = packets.length + 1 - _ at hremaining
          omega

/-- The producer of 253 packets of one byte waits for ever, although the consumer has seen
everything that is published. -/
theorem long_burst_stuck :
    ¬ Completes Ring.initial (List.replicate 253 [0]) ∧
      Stuck (run burstStep (Burst.start Ring.initial (List.replicate 253 [0]))
        (List.replicate 253 .producer ++ [.consumer 2048 1])).1 := by
  have hwaiting : Waiting (run burstStep (Burst.start Ring.initial (List.replicate 253 [0]))
      (List.replicate 253 .producer ++ [.consumer 2048 1])).1 := by
    refine ⟨[0], [], by decide +kernel, ?_⟩
    rw [wgRelayInput_eq_none_iff]
    decide +kernel
  have hstuck := (stuck_iff_waiting _).mpr hwaiting
  exact ⟨fun hcompletes => (hcompletes _).1 hstuck, hstuck⟩

end Progress

end WgNx.RelayBurst
