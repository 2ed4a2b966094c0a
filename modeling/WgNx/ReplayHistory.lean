import WgNx.ReplayCounter

/-!
What the replay window has been presented with.

A counter above the highest one is new, but the window looks it up in a bit that it
shares with the counter one lap of 8192 behind it.  That bit is cleared when the
window enters the block, and a late counter can set it again afterwards.  The bits
ahead of the highest counter are exactly those late counters.
-/

namespace WgNx.ReplayHistory

open WgNx.OutputMachine
open WgNx.ReplayCounter
open WgNx.WordBitmap

/-- The window before `late` is presented is already in the block of `counter`, and
`late` is the counter one lap behind `counter`. -/
def Collides (counter : UInt64) (rc : WgReplayCounter) (late : UInt64) : Prop :=
  late.toNat + 8192 = counter.toNat ∧ block rc.counter = block counter

instance (counter : UInt64) (rc : WgReplayCounter) (late : UInt64) :
    Decidable (Collides counter rc late) :=
  inferInstanceAs (Decidable (_ ∧ _))

theorem toNat_wgRejectAfterMessages : wgRejectAfterMessages.toNat = 2 ^ 64 - 8194 := rfl

section Highest

theorem counter_markSeen (rc : WgReplayCounter) (counter : UInt64) :
    (markSeen rc counter).counter = rc.counter := rfl

theorem counter_present_le (rc : WgReplayCounter) (counter : UInt64) :
    rc.counter ≤ (present rc counter).1.counter := by
  unfold present
  rcases wgCounterValidate_cases rc counter with ⟨-, hvalue⟩ | ⟨-, -, hvalue⟩ | ⟨-, -, hvalue⟩
  · rw [hvalue]
    exact UInt64.le_refl _
  · rw [hvalue]
    exact (counter_le_raise rc counter).1
  · rw [hvalue]
    exact (counter_le_raise rc counter).1

theorem counter_run_le (rc : WgReplayCounter) (counters : List UInt64) :
    rc.counter ≤ (run present rc counters).1.counter := by
  induction counters generalizing rc with
  | nil => exact UInt64.le_refl _
  | cons counter rest ih => exact UInt64.le_trans (counter_present_le rc counter) (ih _)

theorem counter_raise (rc : WgReplayCounter) (counter : UInt64) :
    (raise rc counter).counter = if rc.counter < counter then counter else rc.counter := by
  unfold raise
  split <;> rfl

theorem counter_present_cases (rc : WgReplayCounter) (counter : UInt64) :
    (present rc counter).1.counter = rc.counter ∨
      counter < wgRejectAfterMessages ∧ (present rc counter).1.counter = counter := by
  have hraised : ¬ Refused rc counter →
      (raise rc counter).counter = rc.counter ∨
        counter < wgRejectAfterMessages ∧ (raise rc counter).counter = counter := by
    intro hadmitted
    rw [counter_raise]
    split
    · exact .inr ⟨UInt64.not_le.mp fun hlimit => hadmitted (.inl hlimit), rfl⟩
    · exact .inl rfl
  unfold present
  rcases wgCounterValidate_cases rc counter with
    ⟨-, hvalue⟩ | ⟨hadmitted, -, hvalue⟩ | ⟨hadmitted, -, hvalue⟩
  · rw [hvalue]
    exact .inl rfl
  · rw [hvalue]
    exact hraised hadmitted
  · rw [hvalue]
    exact hraised hadmitted

theorem counter_present_lt {rc : WgReplayCounter} (h : rc.counter < wgRejectAfterMessages)
    (counter : UInt64) : (present rc counter).1.counter < wgRejectAfterMessages := by
  rcases counter_present_cases rc counter with hsame | ⟨hlimit, hnew⟩
  · rw [hsame]
    exact h
  · rw [hnew]
    exact hlimit

theorem counter_run_mem (rc : WgReplayCounter) (counters : List UInt64) :
    (run present rc counters).1.counter = rc.counter ∨
      (run present rc counters).1.counter ∈ counters := by
  induction counters generalizing rc with
  | nil => exact .inl rfl
  | cons counter rest ih =>
      rw [run_cons_state]
      rcases ih (present rc counter).1 with hsame | hmem
      · rw [hsame]
        rcases counter_present_cases rc counter with hkept | ⟨-, hnew⟩
        · exact .inl hkept
        · rw [hnew]
          exact .inr (List.mem_cons_self ..)
      · exact .inr (List.mem_cons_of_mem _ hmem)

end Highest

section Ahead

variable {rc : WgReplayCounter} {late counter : UInt64}

/-- Two counters share a bit exactly if they are a whole number of laps apart. -/
theorem sameBit_iff (a b : UInt64) :
    (wordIdx a = wordIdx b ∧ a % bitsPerWord = b % bitsPerWord) ↔
      a.toNat % 8192 = b.toNat % 8192 := by
  have hbit : a % bitsPerWord = b % bitsPerWord ↔ a.toNat % 64 = b.toNat % 64 := by
    rw [← UInt64.toNat_inj, UInt64.toNat_mod, UInt64.toNat_mod]
    rfl
  rw [hbit, ← Fin.val_inj, wordIdx_val, wordIdx_val]
  unfold block
  omega

theorem not_collides_of_refused (hlimit : rc.counter < wgRejectAfterMessages)
    (hahead : rc.counter < counter) (hrefused : Refused rc late) :
    ¬ Collides counter rc late := by
  rintro ⟨hlap, hblock⟩
  rw [UInt64.lt_iff_toNat_lt] at hlimit hahead
  unfold block at hblock
  rcases hrefused with hlate | ⟨hwindow, hold⟩
  · rw [UInt64.le_iff_toNat_le, toNat_wgRejectAfterMessages] at hlate
    rw [toNat_wgRejectAfterMessages] at hlimit
    omega
  · rw [UInt64.lt_iff_toNat_lt, UInt64.toNat_sub_of_le _ _ hwindow] at hold
    change late.toNat < rc.counter.toNat - 8192 at hold
    omega

theorem seen_advance_ahead (hlt : rc.counter < late) (hahead : late < counter) :
    (block late = block counter ∧ seen (advance rc late) counter = true) ↔
      (block rc.counter = block counter ∧ seen rc counter = true) ∨
        Collides counter rc late := by
  have hmono : block rc.counter ≤ block late := block_mono (UInt64.le_of_lt hlt)
  have hmono' : block late ≤ block counter := block_mono (UInt64.le_of_lt hahead)
  constructor
  · rintro ⟨hblock, hseen⟩
    rw [seen_advance_of_block hlt hblock.symm] at hseen
    exact .inl ⟨hseen.1.symm.trans hblock, hseen.2⟩
  · rintro (⟨hblock, hseen⟩ | ⟨hlap, hblock⟩)
    · have hlate : block late = block counter := by omega
      refine ⟨hlate, ?_⟩
      rw [seen_advance_of_block hlt hlate.symm]
      exact ⟨hlate.trans hblock.symm, hseen⟩
    · unfold block at hblock hmono
      omega

theorem seen_mark_ahead (hadmitted : ¬ Refused rc late) (hle : late ≤ rc.counter)
    (hahead : rc.counter < counter) :
    (block rc.counter = block counter ∧ seen (markSeen rc late) counter = true) ↔
      (block rc.counter = block counter ∧ seen rc counter = true) ∨
        Collides counter rc late := by
  have hage : wgCounterWindowSize ≤ rc.counter → rc.counter.toNat - 8192 ≤ late.toNat := by
    intro hwindow
    have hyoung := UInt64.not_lt.mp fun hold => hadmitted (.inr ⟨hwindow, hold⟩)
    rw [UInt64.le_iff_toNat_le, UInt64.toNat_sub_of_le _ _ hwindow] at hyoung
    exact hyoung
  have hshare : block rc.counter = block counter →
      (late.toNat % 8192 = counter.toNat % 8192 ↔ late.toNat + 8192 = counter.toNat) := by
    intro hblock
    rw [UInt64.le_iff_toNat_le] at hage hle
    rw [UInt64.lt_iff_toNat_lt] at hahead
    change 8192 ≤ _ → _ at hage
    unfold block at hblock
    omega
  rw [seen_markSeen, Bool.or_eq_true, decide_eq_true_eq, sameBit_iff, and_or_left]
  apply or_congr Iff.rfl
  constructor
  · rintro ⟨hblock, hbit⟩
    exact ⟨(hshare hblock).mp hbit, hblock⟩
  · rintro ⟨hlap, hblock⟩
    exact ⟨hblock, (hshare hblock).mpr hlap⟩

theorem seen_mark_behind (hahead : late < counter) (hblock : block late = block counter) :
    seen (markSeen rc late) counter = seen rc counter := by
  rw [UInt64.lt_iff_toNat_lt] at hahead
  unfold block at hblock
  have hbit : ¬ late.toNat % 8192 = counter.toNat % 8192 := by omega
  rw [seen_markSeen, decide_eq_false ((sameBit_iff late counter).not.mpr hbit), Bool.or_false]

theorem seen_of_collides (hseen : seen rc late = true) (h : Collides counter rc late) :
    seen rc counter = true := by
  obtain ⟨hword, hbit⟩ := (sameBit_iff late counter).mpr (by
    have hlap := h.1
    omega)
  unfold seen at hseen ⊢
  rw [← hword, ← hbit]
  exact hseen

/-- One step: what is found ahead of the highest counter, in its block, was there before
or is set by the counter one lap behind. -/
theorem seen_present_ahead (hlimit : rc.counter < wgRejectAfterMessages)
    (hahead : (present rc late).1.counter < counter) :
    (block (present rc late).1.counter = block counter ∧
        seen (present rc late).1 counter = true) ↔
      (block rc.counter = block counter ∧ seen rc counter = true) ∨
        Collides counter rc late := by
  unfold present at hahead ⊢
  rcases wgCounterValidate_cases rc late with
    ⟨hrefused, hvalue⟩ | ⟨hadmitted, hseen, hvalue⟩ | ⟨hadmitted, -, hvalue⟩
  · rw [hvalue] at hahead ⊢
    have hnot := not_collides_of_refused hlimit hahead hrefused
    simp only [hnot, or_false]
  · rw [hvalue] at hahead ⊢
    dsimp only at hahead ⊢
    rcases UInt64.lt_or_le rc.counter late with hlt | hle
    · rw [raise, if_pos hlt] at hahead ⊢
      exact seen_advance_ahead hlt hahead
    · rw [raise, if_neg (UInt64.not_lt.mpr hle)] at hahead hseen ⊢
      constructor
      · exact .inl
      · rintro (hbefore | hcollides)
        · exact hbefore
        · exact ⟨hcollides.2, seen_of_collides hseen hcollides⟩
  · rw [hvalue] at hahead ⊢
    dsimp only at hahead ⊢
    rw [counter_markSeen] at hahead ⊢
    rcases UInt64.lt_or_le rc.counter late with hlt | hle
    · rw [raise, if_pos hlt] at hahead ⊢
      rw [← seen_advance_ahead hlt hahead]
      apply and_congr_right
      intro hblock
      rw [seen_mark_behind (show late < counter from hahead) hblock]
    · rw [raise, if_neg (UInt64.not_lt.mpr hle)] at hahead ⊢
      exact seen_mark_ahead hadmitted hle hahead

/-- The bits ahead of the highest counter in its block are those of the late counters
that were presented since the window entered the block. -/
theorem seen_run_ahead {counters : List UInt64} (hlimit : rc.counter < wgRejectAfterMessages)
    (hahead : (run present rc counters).1.counter < counter) :
    (block (run present rc counters).1.counter = block counter ∧
        seen (run present rc counters).1 counter = true) ↔
      (block rc.counter = block counter ∧ seen rc counter = true) ∨
        ¬ AllSteps present (fun rc late => ¬ Collides counter rc late) rc counters := by
  induction counters generalizing rc with
  | nil => simp [AllSteps]
  | cons late rest ih =>
      rw [run_cons_state] at hahead ⊢
      rw [ih (counter_present_lt hlimit late) hahead]
      have hnext := UInt64.lt_of_le_of_lt (counter_run_le _ rest) hahead
      rw [seen_present_ahead hlimit hnext, AllSteps, not_and_or, not_not, or_assoc]

end Ahead

section Fresh

variable {rc : WgReplayCounter} {counter : UInt64}

theorem not_refused_of_ahead (hlimit : counter < wgRejectAfterMessages)
    (hahead : rc.counter < counter) : ¬ Refused rc counter := by
  rintro (hpast | ⟨hwindow, hold⟩)
  · exact UInt64.not_lt.mpr hpast hlimit
  · rw [UInt64.lt_iff_toNat_lt] at hahead
    rw [UInt64.lt_iff_toNat_lt, UInt64.toNat_sub_of_le _ _ hwindow] at hold
    omega

theorem accepted_ahead_iff (hlimit : counter < wgRejectAfterMessages)
    (hahead : rc.counter < counter) :
    (wgCounterValidate rc counter).1 = true ↔ ¬ StaleBit rc counter := by
  have hadmitted := not_refused_of_ahead hlimit hahead
  have hbit := seen_advance_self hahead
  rcases wgCounterValidate_cases rc counter with
    ⟨hrefused, -⟩ | ⟨-, hseen, hvalue⟩ | ⟨-, hfresh, hvalue⟩
  · exact absurd hrefused hadmitted
  · rw [raise, if_pos hahead] at hseen
    rw [hvalue]
    exact iff_of_false Bool.false_ne_true fun hnot => hnot ⟨hadmitted, hahead, hbit.mp hseen⟩
  · rw [raise, if_pos hahead] at hfresh
    rw [hvalue]
    refine iff_of_true rfl fun hstale => ?_
    rw [hbit.mpr hstale.2.2] at hfresh
    cases hfresh

theorem staleBit_run_iff {counters : List UInt64} (hlimit : counter < wgRejectAfterMessages)
    (hahead : (run present zeroed counters).1.counter < counter) :
    StaleBit (run present zeroed counters).1 counter ↔
      block (run present zeroed counters).1.counter = block counter ∧
        ¬ AllSteps present (fun rc late => ¬ Collides counter rc late) zeroed counters := by
  have hbits := seen_run_ahead (by decide) hahead
  rw [show seen zeroed counter = false from test_empty ..] at hbits
  simp only [Bool.false_eq_true, and_false, false_or] at hbits
  rw [← hbits]
  constructor
  · rintro ⟨-, -, hblock, hseen⟩
    exact ⟨hblock.symm, hblock.symm, hseen⟩
  · rintro ⟨-, hblock, hseen⟩
    exact ⟨not_refused_of_ahead hlimit hahead, hahead, hblock.symm, hseen⟩

theorem ahead_of_greatest {counters : List UInt64} (hne : counters ≠ [])
    (hgreatest : ∀ x ∈ counters, x < counter) :
    (run present zeroed counters).1.counter < counter := by
  rcases counter_run_mem zeroed counters with hzero | hmem
  · obtain ⟨x, hx⟩ := List.exists_mem_of_ne_nil counters hne
    have hlt := hgreatest x hx
    rw [hzero]
    rw [UInt64.lt_iff_toNat_lt] at hlt ⊢
    change 0 < counter.toNat
    omega
  · exact hgreatest _ hmem

def TakesNewer (rc : WgReplayCounter) (counters : List UInt64) : Prop :=
  (∀ counter, counter < wgRejectAfterMessages → (∀ x ∈ counters, x < counter) →
      (wgCounterValidate rc counter).1 = true) ∧
    ∀ counter, (wgCounterValidate rc counter).1 = false →
      (wgCounterValidate rc counter).2 = rc

/-- After any sequence of counters: a counter that is greater than all of them is
accepted, and a rejected counter leaves the window alone, exactly if for no counter
ahead in the current block the one a lap behind it was presented since the window
entered that block. -/
theorem fresh_counters_accepted_iff (counters : List UInt64) :
    TakesNewer (run present zeroed counters).1 counters ↔
      ∀ counter, counter < wgRejectAfterMessages →
        (run present zeroed counters).1.counter < counter →
        block (run present zeroed counters).1.counter = block counter →
          AllSteps present (fun rc late => ¬ Collides counter rc late) zeroed counters := by
  set rc := (run present zeroed counters).1
  constructor
  · rintro ⟨-, hunchanged⟩ counter hlimit hahead hblock
    by_contra hlate
    have hstale := (staleBit_run_iff hlimit hahead).mpr ⟨hblock, hlate⟩
    have hrejected : (wgCounterValidate rc counter).1 = false := by
      rw [← Bool.not_eq_true, accepted_ahead_iff hlimit hahead]
      exact not_not.mpr hstale
    exact (rejected_unchanged_iff hrejected).mp (hunchanged counter hrejected) hstale
  · intro hclear
    have hnone : ∀ counter, ¬ StaleBit rc counter := by
      intro counter hstale
      have hlimit : counter < wgRejectAfterMessages :=
        UInt64.not_le.mp fun hpast => hstale.1 (.inl hpast)
      obtain ⟨hblock, hlate⟩ := (staleBit_run_iff hlimit hstale.2.1).mp hstale
      exact hlate (hclear counter hlimit hstale.2.1 hblock)
    refine ⟨?_, fun counter hrejected => (rejected_unchanged_iff hrejected).mpr (hnone counter)⟩
    intro counter hlimit hgreatest
    rcases eq_or_ne counters [] with rfl | hne
    · rw [show rc = zeroed from rfl, wgCounterValidate_unused (unused_zeroed counter)]
      exact decide_eq_true hlimit
    · exact (accepted_ahead_iff hlimit (ahead_of_greatest hne hgreatest)).mpr (hnone counter)

/-- 63 comes a full window late and sets the bit of 8255, which is then taken for a
replay and still becomes the highest counter. -/
theorem fresh_counter_rejected :
    let rc := (run present zeroed [8192, 63]).1
    (8255 : UInt64) < wgRejectAfterMessages ∧ (∀ x ∈ [8192, 63], x < (8255 : UInt64)) ∧
      (wgCounterValidate rc 8255).1 = false ∧ (wgCounterValidate rc 8255).2 ≠ rc := by
  refine ⟨by decide, ?_, by decide +kernel⟩
  rw [List.forall_mem_cons, List.forall_mem_singleton]
  decide

end Fresh

end WgNx.ReplayHistory
