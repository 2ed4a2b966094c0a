import Mathlib.Data.List.Nodup
import WgNx.OutputMachine
import WgNx.WordBitmap

/-!
The sliding replay window of `wg_counter.c`.

`wgCounterValidate` is the C function.  `wgCounterValidate_cases` states once
everything a call can do; the results about whole sequences of counters are
derived from it and from the lemmas saying which bits survive an advance.
-/

namespace WgNx.ReplayCounter

open WgNx.OutputMachine
open WgNx.WordBitmap

def bitsPerWord : UInt64 := 64

def wgCounterWindowSize : UInt64 := 8192

/-- `UINT64_MAX - WG_COUNTER_WINDOW_SIZE - 1`. -/
def wgRejectAfterMessages : UInt64 :=
  0xFFFFFFFFFFFFFFFF - wgCounterWindowSize - 1

/-- `WG_COUNTER_WINDOW_SIZE / (sizeof(uint64_t) * 8)`. -/
abbrev wgCounterWords : Nat := 128

structure WgReplayCounter where
  counter : UInt64
  backtrack : Bitmap wgCounterWords
  deriving DecidableEq

/-- A replay counter after `memset` or `crypto_wipe`. -/
def zeroed : WgReplayCounter := ⟨0, empty wgCounterWords⟩

/-- `(counter / BITS_PER_WORD) % WG_COUNTER_WORDS`. -/
def wordIdx (counter : UInt64) : Fin wgCounterWords :=
  Fin.ofNat wgCounterWords (counter / bitsPerWord).toNat

/-- `rc->backtrack[word_idx] & bit_mask`. -/
def seen (rc : WgReplayCounter) (counter : UInt64) : Bool :=
  test rc.backtrack (wordIdx counter) (counter % bitsPerWord)

/-- `rc->backtrack[word_idx] |= bit_mask`. -/
def markSeen (rc : WgReplayCounter) (counter : UInt64) : WgReplayCounter :=
  { rc with
    backtrack := mark rc.backtrack (wordIdx counter) (counter % bitsPerWord) }

/-- The body of `if (counter > rc->counter)`: clear the words the window moves
into and store the new highest counter. -/
def advance (rc : WgReplayCounter) (counter : UInt64) : WgReplayCounter :=
  let newWord := counter / bitsPerWord
  let oldWord := rc.counter / bitsPerWord
  let diff := newWord - oldWord
  { counter := counter
    backtrack :=
      if diff ≥ UInt64.ofNat wgCounterWords then empty wgCounterWords
      else clearAfter rc.backtrack oldWord.toNat diff.toNat }

def wgCounterValidate (rc : WgReplayCounter) (counter : UInt64) :
    Bool × WgReplayCounter :=
  if counter ≥ wgRejectAfterMessages then (false, rc)
  else if rc.counter ≥ wgCounterWindowSize ∧
      counter < rc.counter - wgCounterWindowSize then (false, rc)
  else
    let rc := if counter > rc.counter then advance rc counter else rc
    if seen rc counter then (false, rc) else (true, markSeen rc counter)

/-- The two tests that refuse a counter before the window is touched: it is
past the message limit, or more than a window behind the highest one. -/
def Refused (rc : WgReplayCounter) (counter : UInt64) : Prop :=
  wgRejectAfterMessages ≤ counter ∨
    wgCounterWindowSize ≤ rc.counter ∧
      counter < rc.counter - wgCounterWindowSize

instance (rc : WgReplayCounter) (counter : UInt64) :
    Decidable (Refused rc counter) :=
  inferInstanceAs (Decidable (_ ∨ _))

/-- The window after the advance a counter that is not refused causes. -/
def raise (rc : WgReplayCounter) (counter : UInt64) : WgReplayCounter :=
  if rc.counter < counter then advance rc counter else rc

/-- What one call can do: refuse and change nothing, find the bit set after
the window has been raised, or set the bit and accept. -/
theorem wgCounterValidate_cases (rc : WgReplayCounter) (counter : UInt64) :
    (Refused rc counter ∧ wgCounterValidate rc counter = (false, rc)) ∨
    (¬ Refused rc counter ∧ seen (raise rc counter) counter = true ∧
      wgCounterValidate rc counter = (false, raise rc counter)) ∨
    (¬ Refused rc counter ∧ seen (raise rc counter) counter = false ∧
      wgCounterValidate rc counter =
        (true, markSeen (raise rc counter) counter)) := by
  by_cases hlimit : wgRejectAfterMessages ≤ counter
  · exact .inl ⟨.inl hlimit, by simp [wgCounterValidate, hlimit]⟩
  by_cases hold : wgCounterWindowSize ≤ rc.counter ∧
      counter < rc.counter - wgCounterWindowSize
  · exact .inl ⟨.inr hold, by simp [wgCounterValidate, hlimit, hold]⟩
  have hadmitted : ¬ Refused rc counter := by
    simp only [Refused, not_or]
    exact ⟨hlimit, hold⟩
  have hvalue : wgCounterValidate rc counter =
      if seen (raise rc counter) counter then (false, raise rc counter)
      else (true, markSeen (raise rc counter) counter) := by
    simp only [wgCounterValidate, ge_iff_le, hlimit, hold, if_false]
    rfl
  cases hseen : seen (raise rc counter) counter with
  | false => exact .inr (.inr ⟨hadmitted, rfl, by simp [hvalue, hseen]⟩)
  | true => exact .inr (.inl ⟨hadmitted, rfl, by simp [hvalue, hseen]⟩)

/-- The number of the 64-counter block a counter lies in. -/
def block (counter : UInt64) : Nat := counter.toNat / 64

theorem toNat_div_bitsPerWord (counter : UInt64) :
    (counter / bitsPerWord).toNat = block counter := by
  simp [block, bitsPerWord, UInt64.toNat_div]

theorem mod_bitsPerWord_lt (counter : UInt64) : counter % bitsPerWord < 64 := by
  rw [UInt64.lt_iff_toNat_lt, UInt64.toNat_mod]
  exact Nat.mod_lt _ (by decide)

theorem wordIdx_val (counter : UInt64) :
    (wordIdx counter).val = block counter % 128 := by
  rw [wordIdx, Fin.ofNat, toNat_div_bitsPerWord]

theorem block_mono {a b : UInt64} (h : a ≤ b) : block a ≤ block b := by
  rw [UInt64.le_iff_toNat_le] at h
  exact Nat.div_le_div_right h

theorem toNat_blockDiff {a b : UInt64} (h : block a ≤ block b) :
    (b / bitsPerWord - a / bitsPerWord).toNat = block b - block a := by
  rw [UInt64.toNat_sub_of_le, toNat_div_bitsPerWord, toNat_div_bitsPerWord]
  rw [UInt64.le_iff_toNat_le, toNat_div_bitsPerWord, toNat_div_bitsPerWord]
  exact h

/-- After the advance a bit of the new lap of blocks is found set exactly when its block
is not one the window moved into and the bit was set before. -/
theorem seen_advance_iff {rc : WgReplayCounter} {counter x : UInt64}
    (hlt : rc.counter < counter) (hx : block x ≤ block counter)
    (hrecent : block counter < block x + 128) :
    seen (advance rc counter) x = true ↔ block x ≤ block rc.counter ∧ seen rc x = true := by
  have hblocks : block rc.counter ≤ block counter :=
    block_mono (UInt64.le_of_lt hlt)
  have hdiff : (counter / bitsPerWord - rc.counter / bitsPerWord).toNat =
      block counter - block rc.counter := toNat_blockDiff hblocks
  rcases Nat.lt_or_ge (block counter - block rc.counter) 128 with hnear | hfar
  · have hsmall : ¬ counter / bitsPerWord - rc.counter / bitsPerWord ≥
        UInt64.ofNat wgCounterWords := by
      rw [ge_iff_le, UInt64.le_iff_toNat_le, hdiff]
      change ¬ 128 ≤ _
      omega
    simp only [seen, advance, hsmall, if_false]
    rw [test_clearAfter _ _ _ _ (mod_bitsPerWord_lt x), hdiff,
      toNat_div_bitsPerWord, wordIdx_val, and_comm]
    refine and_congr_left fun _ => ?_
    constructor
    · intro hkept
      by_contra hahead
      apply hkept (block x - block rc.counter) (by omega) (by omega)
      change (block rc.counter + (block x - block rc.counter)) % 128 = _
      congr 1
      omega
    · intro hbehind i hi₁ hi₂
      change (block rc.counter + i) % 128 ≠ block x % 128
      omega
  · have hbig : counter / bitsPerWord - rc.counter / bitsPerWord ≥
        UInt64.ofNat wgCounterWords := by
      rw [ge_iff_le, UInt64.le_iff_toNat_le, hdiff]
      exact hfar
    simp only [seen, advance, hbig, if_true, test_empty]
    constructor
    · intro h
      exact Bool.noConfusion h
    · rintro ⟨hbehind, -⟩
      omega

/-- A bit recorded before the window is raised to `counter` survives when its
block is less than a full lap behind the new highest block. -/
theorem seen_advance_of_recent {rc : WgReplayCounter} {counter x : UInt64}
    (hlt : rc.counter < counter) (hx : x ≤ rc.counter)
    (hrecent : block counter < block x + 128) (hseen : seen rc x = true) :
    seen (advance rc counter) x = true := by
  have hold : block x ≤ block rc.counter := block_mono hx
  have hnew : block rc.counter ≤ block counter := block_mono (UInt64.le_of_lt hlt)
  exact (seen_advance_iff hlt (Nat.le_trans hold hnew) hrecent).mpr ⟨hold, hseen⟩

theorem seen_markSeen (rc : WgReplayCounter) (counter x : UInt64) :
    seen (markSeen rc counter) x =
      (seen rc x || decide (wordIdx counter = wordIdx x ∧
        counter % bitsPerWord = x % bitsPerWord)) := by
  exact test_mark rc.backtrack (wordIdx counter) (wordIdx x)
    (mod_bitsPerWord_lt counter) (mod_bitsPerWord_lt x)

theorem counter_le_raise (rc : WgReplayCounter) (counter : UInt64) :
    rc.counter ≤ (raise rc counter).counter ∧
      counter ≤ (raise rc counter).counter := by
  unfold raise
  split
  · rename_i h
    exact ⟨UInt64.le_of_lt h, UInt64.le_refl _⟩
  · rename_i h
    exact ⟨UInt64.le_refl _, UInt64.not_lt.mp h⟩

/-- The counter is ahead of the highest one, in the same block, and its bit is
already set, as a late counter one lap behind it leaves it.  Such a counter is
rejected only after it has become the highest one. -/
def StaleBit (rc : WgReplayCounter) (counter : UInt64) : Prop :=
  ¬ Refused rc counter ∧ rc.counter < counter ∧
    block counter = block rc.counter ∧ seen rc counter = true

instance (rc : WgReplayCounter) (counter : UInt64) :
    Decidable (StaleBit rc counter) :=
  inferInstanceAs (Decidable (_ ∧ _))

/-- A bit of the new highest block is found set after the advance exactly when the
advance stays in the block and the bit was set before. -/
theorem seen_advance_of_block {rc : WgReplayCounter} {counter x : UInt64}
    (hlt : rc.counter < counter) (hx : block x = block counter) :
    seen (advance rc counter) x = true ↔
      block counter = block rc.counter ∧ seen rc x = true := by
  have hblocks : block rc.counter ≤ block counter :=
    block_mono (UInt64.le_of_lt hlt)
  rw [seen_advance_iff hlt (Nat.le_of_eq hx) (by omega), hx]
  refine and_congr_left fun _ => ?_
  omega

theorem seen_advance_self {rc : WgReplayCounter} {counter : UInt64}
    (hlt : rc.counter < counter) :
    seen (advance rc counter) counter = true ↔
      block counter = block rc.counter ∧ seen rc counter = true :=
  seen_advance_of_block hlt rfl

/-- A rejected counter leaves the window as it was, except over a stale bit. -/
theorem rejected_unchanged_iff {rc : WgReplayCounter} {counter : UInt64}
    (h : (wgCounterValidate rc counter).1 = false) :
    (wgCounterValidate rc counter).2 = rc ↔ ¬ StaleBit rc counter := by
  rcases wgCounterValidate_cases rc counter with
    ⟨hrefused, hvalue⟩ | ⟨hadmitted, hseen, hvalue⟩ | ⟨-, -, hvalue⟩
  · rw [hvalue]
    exact ⟨fun _ hstale => hstale.1 hrefused, fun _ => rfl⟩
  · rw [hvalue]
    rcases UInt64.lt_or_le rc.counter counter with hlt | hle
    · have hraise : raise rc counter = advance rc counter := by simp [raise, hlt]
      rw [hraise] at hseen ⊢
      have hstale : StaleBit rc counter :=
        ⟨hadmitted, hlt, (seen_advance_self hlt).mp hseen⟩
      constructor
      · intro heq
        have hcounter := congrArg WgReplayCounter.counter heq
        change counter = rc.counter at hcounter
        rw [hcounter] at hlt
        exact absurd hlt (UInt64.lt_irrefl _)
      · intro hnot
        exact absurd hstale hnot
    · have hraise : raise rc counter = rc := by simp [raise, UInt64.not_lt.mpr hle]
      rw [hraise]
      exact ⟨fun _ hstale => UInt64.not_lt.mpr hle hstale.2.1, fun _ => rfl⟩
  · rw [hvalue] at h
    exact Bool.noConfusion h

/-- What the window knows about the counters accepted so far: none is above the
highest counter, and each one less than a lap of blocks behind it has its bit
set. -/
structure Tracks (rc : WgReplayCounter) (accepted : List UInt64) : Prop where
  bounded : ∀ x ∈ accepted, x ≤ rc.counter
  recorded : ∀ x ∈ accepted,
    block rc.counter < block x + 128 → seen rc x = true

theorem tracks_raise {rc : WgReplayCounter} {accepted : List UInt64}
    (h : Tracks rc accepted) (counter : UInt64) :
    Tracks (raise rc counter) accepted := by
  unfold raise
  split
  · rename_i hlt
    refine ⟨fun x hx => ?_, fun x hx hrecent => ?_⟩
    · exact UInt64.le_trans (h.bounded x hx) (UInt64.le_of_lt hlt)
    · change block counter < block x + 128 at hrecent
      have hold : block rc.counter ≤ block counter :=
        block_mono (UInt64.le_of_lt hlt)
      exact seen_advance_of_recent hlt (h.bounded x hx) hrecent
        (h.recorded x hx (by omega))
  · exact h

theorem tracks_markSeen {rc : WgReplayCounter} {accepted : List UInt64}
    (h : Tracks rc accepted) {counter : UInt64} (hle : counter ≤ rc.counter) :
    Tracks (markSeen rc counter) (accepted ++ [counter]) := by
  refine ⟨fun x hx => ?_, fun x hx hrecent => ?_⟩
  · rcases List.mem_append.mp hx with hx | hx
    · exact h.bounded x hx
    · rw [List.mem_singleton.mp hx]
      exact hle
  · rw [seen_markSeen]
    rcases List.mem_append.mp hx with hx | hx
    · simp [h.recorded x hx hrecent]
    · simp [List.mem_singleton.mp hx]

/-- The age test lets the counter through although it lies one full lap behind,
in the block that shares its bitmap word with the block of the highest counter
and whose marks that block has cleared. -/
def Aliased (rc : WgReplayCounter) (counter : UInt64) : Prop :=
  ¬ Refused rc counter ∧ block counter + 128 = block rc.counter

instance (rc : WgReplayCounter) (counter : UInt64) :
    Decidable (Aliased rc counter) :=
  inferInstanceAs (Decidable (_ ∧ _))

/-- Presenting a counter, as a machine step that outputs what is accepted. -/
def present (rc : WgReplayCounter) (counter : UInt64) :
    WgReplayCounter × List UInt64 :=
  let verdict := wgCounterValidate rc counter
  (verdict.2, if verdict.1 then [counter] else [])

/-- The counters accepted from a sequence presented to a zeroed window. -/
def accepted (counters : List UInt64) : List UInt64 :=
  (run present zeroed counters).2

theorem recent_of_admitted {rc : WgReplayCounter} {counter : UInt64}
    (hadmitted : ¬ Refused rc counter) (haliased : ¬ Aliased rc counter) :
    block rc.counter < block counter + 128 := by
  have hlap : block counter + 128 ≠ block rc.counter :=
    fun heq => haliased ⟨hadmitted, heq⟩
  simp only [Refused, not_or, not_and, UInt64.not_lt, UInt64.le_iff_toNat_le]
    at hadmitted
  simp only [block, ne_eq] at hlap ⊢
  have hwindow : wgCounterWindowSize.toNat = 8192 := rfl
  by_cases hfull : wgCounterWindowSize.toNat ≤ rc.counter.toNat
  · have hage := hadmitted.2 hfull
    rw [UInt64.toNat_sub_of_le _ _ (UInt64.le_iff_toNat_le.mpr hfull)] at hage
    omega
  · omega

/-- One step: when the counter is not aliased, a counter accepted before is not
accepted again, and the window still tracks what has been accepted. -/
theorem present_step (rc : WgReplayCounter) (log : List UInt64)
    (counter : UInt64) (h : Tracks rc log ∧ log.Nodup)
    (haliased : ¬ Aliased rc counter) :
    Tracks (present rc counter).1 (log ++ (present rc counter).2) ∧
      (log ++ (present rc counter).2).Nodup := by
  obtain ⟨htracks, hnodup⟩ := h
  rcases wgCounterValidate_cases rc counter with
    ⟨-, hvalue⟩ | ⟨-, -, hvalue⟩ | ⟨hadmitted, hfresh, hvalue⟩
  · simpa [present, hvalue] using ⟨htracks, hnodup⟩
  · simpa [present, hvalue] using ⟨tracks_raise htracks counter, hnodup⟩
  · have hraised := tracks_raise htracks counter
    have hnew : counter ∉ log := by
      intro hmem
      -- A counter accepted earlier is not above the highest one, so the window
      -- is not raised and its bit is still there.
      have hle := htracks.bounded counter hmem
      have hsame : raise rc counter = rc := by
        simp [raise, UInt64.not_lt.mpr hle]
      rw [hsame, htracks.recorded counter hmem
        (recent_of_admitted hadmitted haliased)] at hfresh
      exact Bool.noConfusion hfresh
    simp only [present, hvalue, if_true]
    refine ⟨tracks_markSeen hraised (counter_le_raise rc counter).2, ?_⟩
    rw [List.nodup_append]
    refine ⟨hnodup, List.nodup_singleton counter, ?_⟩
    intro a ha b hb heq
    rw [List.mem_singleton.mp hb] at heq
    exact hnew (heq ▸ ha)

/-- In a sequence that never presents a counter which the age test admits one
full lap of blocks behind the highest one, no counter is accepted twice. -/
theorem accepted_nodup_of_not_aliased (counters : List UInt64)
    (h : AllSteps present (fun rc counter => ¬ Aliased rc counter)
      zeroed counters) :
    (accepted counters).Nodup := by
  have hinit : Tracks zeroed [] ∧ ([] : List UInt64).Nodup :=
    ⟨⟨by simp, by simp⟩, List.nodup_nil⟩
  simpa [accepted] using (run_invariant present present_step hinit h).2

theorem accepted_nodup_reordered :
    (accepted [5, 3, 200, 3, 9000, 1000, 200, 9000]).Nodup :=
  accepted_nodup_of_not_aliased [5, 3, 200, 3, 9000, 1000, 200, 9000]
    (by decide +kernel)

/-- Counter 63 is accepted, the window moves on to 8192 and clears the word of
63, and 63 is accepted once more. -/
theorem accepted_twice_after_lap :
    ¬ (accepted [63, 8192, 63]).Nodup := by
  decide +kernel

section InOrder

/-- As far as the bitmap shows: the highest counter is not past `next`, and in
its block no bit from `next` on is set.  Bits of other blocks do not matter,
they are cleared before a counter of theirs is tested. -/
structure Unused (rc : WgReplayCounter) (next : UInt64) : Prop where
  highest_le : rc.counter ≤ next
  unseen : ∀ x, next ≤ x → block x = block rc.counter → seen rc x = false

theorem unused_zeroed (next : UInt64) : Unused zeroed next := by
  refine ⟨UInt64.le_iff_toNat_le.mpr (Nat.zero_le _), ?_⟩
  intro x _ _
  exact test_empty ..

theorem seen_raise_of_unused {rc : WgReplayCounter} {next : UInt64} (h : Unused rc next)
    {x : UInt64} (hle : next ≤ x) (hx : block x = block next) :
    seen (raise rc next) x = false := by
  unfold raise
  split
  · rename_i hlt
    rw [← Bool.not_eq_true, seen_advance_of_block hlt hx]
    rintro ⟨hblock, hseen⟩
    rw [h.unseen x hle (hx.trans hblock)] at hseen
    cases hseen
  · rename_i hge
    have heq : rc.counter = next := UInt64.le_antisymm h.highest_le (UInt64.not_lt.mp hge)
    exact h.unseen x hle (heq ▸ hx)

theorem counter_raise_of_unused {rc : WgReplayCounter} {next : UInt64} (h : Unused rc next) :
    (raise rc next).counter = next := by
  unfold raise
  split
  · rfl
  · rename_i hge
    exact UInt64.le_antisymm h.highest_le (UInt64.not_lt.mp hge)

/-- Counters that arrive in order are accepted, up to the message limit. -/
theorem wgCounterValidate_unused {rc : WgReplayCounter} {next : UInt64} (h : Unused rc next) :
    (wgCounterValidate rc next).1 = decide (next < wgRejectAfterMessages) := by
  have hle := h.highest_le
  rw [UInt64.le_iff_toNat_le] at hle
  rcases wgCounterValidate_cases rc next with
    ⟨hrefused, hvalue⟩ | ⟨-, hseen, -⟩ | ⟨hadmitted, -, hvalue⟩
  · rw [hvalue]
    rcases hrefused with hlimit | ⟨hwindow, hold⟩
    · exact (decide_eq_false (UInt64.not_lt.mpr hlimit)).symm
    · rw [UInt64.lt_iff_toNat_lt, UInt64.toNat_sub_of_le _ _ hwindow] at hold
      omega
  · rw [seen_raise_of_unused h (UInt64.le_refl _) rfl] at hseen
    cases hseen
  · rw [hvalue]
    exact (decide_eq_true (UInt64.not_le.mp fun hlimit => hadmitted (.inl hlimit))).symm

theorem unused_wgCounterValidate {rc : WgReplayCounter} {next : UInt64} (h : Unused rc next)
    (hlimit : next < wgRejectAfterMessages) :
    Unused (wgCounterValidate rc next).2 (next + 1) := by
  have haccept := wgCounterValidate_unused h
  rw [decide_eq_true hlimit] at haccept
  have hnext : (next + 1).toNat = next.toNat + 1 := by
    rw [UInt64.lt_iff_toNat_lt] at hlimit
    rw [UInt64.toNat_add]
    exact Nat.mod_eq_of_lt (Nat.lt_of_le_of_lt (Nat.succ_le_of_lt hlimit) (by decide))
  rcases wgCounterValidate_cases rc next with ⟨-, hvalue⟩ | ⟨-, -, hvalue⟩ | ⟨-, -, hvalue⟩
  · rw [hvalue] at haccept
    cases haccept
  · rw [hvalue] at haccept
    cases haccept
  · rw [hvalue]
    have hcounter : (markSeen (raise rc next) next).counter = next := counter_raise_of_unused h
    refine ⟨?_, ?_⟩
    · rw [hcounter, UInt64.le_iff_toNat_le, hnext]
      omega
    · intro x hle hblock
      rw [hcounter] at hblock
      rw [UInt64.le_iff_toNat_le, hnext] at hle
      rw [seen_markSeen, seen_raise_of_unused h (UInt64.le_iff_toNat_le.mpr (by omega)) hblock,
        Bool.false_or, decide_eq_false_iff_not]
      rintro ⟨-, hbit⟩
      -- The same bit of the same block is the same counter.
      have hmod : next.toNat % 64 = x.toNat % 64 := by
        simpa [bitsPerWord, UInt64.toNat_mod] using congrArg UInt64.toNat hbit
      unfold block at hblock
      omega

end InOrder

end WgNx.ReplayCounter
