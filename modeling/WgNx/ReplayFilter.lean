import Mathlib.Data.Finset.Insert
import WgNx.ReplayHistory

/-!
The replay window against a filter that remembers everything.

As long as no counter is more than 127 words behind the highest one, every counter
that is presented lies in a word of its own: the words of the window and the set of
accepted counters hold the same information about the blocks they share.
-/

namespace WgNx.ReplayFilter

open WgNx.OutputMachine
open WgNx.ReplayCounter
open WgNx.ReplayHistory
open WgNx.WordBitmap

section Filters

def validate (rc : WgReplayCounter) (counter : UInt64) : WgReplayCounter × List Bool :=
  let verdict := wgCounterValidate rc counter
  (verdict.2, [verdict.1])

/-- The filter with the set of all counters it has accepted: it takes a counter below the
message limit the first time. -/
def exactFilter (taken : Finset UInt64) (counter : UInt64) : Finset UInt64 × List Bool :=
  if counter < wgRejectAfterMessages ∧ counter ∉ taken then (insert counter taken, [true])
  else (taken, [false])

/-- No counter is more than 8128 below a counter within the message limit that was
presented before it. -/
def BoundedReordering (counters : List UInt64) : Prop :=
  counters.Pairwise fun earlier later =>
    earlier < wgRejectAfterMessages → earlier.toNat ≤ later.toNat + 8128

instance (counters : List UInt64) : Decidable (BoundedReordering counters) :=
  inferInstanceAs (Decidable (List.Pairwise _ _))

/-- At most 127 words behind the highest counter. -/
def Near (rc : WgReplayCounter) (counter : UInt64) : Prop :=
  rc.counter.toNat ≤ counter.toNat + 8128

theorem near_validate {rc : WgReplayCounter} {counters : List UInt64}
    (hnear : ∀ counter ∈ counters, Near rc counter) (h : BoundedReordering counters) :
    AllSteps validate Near rc counters := by
  induction counters generalizing rc with
  | nil => trivial
  | cons counter rest ih =>
      obtain ⟨hfirst, hrest⟩ := List.pairwise_cons.mp h
      refine ⟨hnear counter List.mem_cons_self, ih (fun later hlater => ?_) hrest⟩
      unfold Near
      rcases counter_present_cases rc counter with hkept | ⟨hlimit, hraised⟩
      · rw [show (validate rc counter).1.counter = rc.counter from hkept]
        exact hnear later (List.mem_cons_of_mem _ hlater)
      · rw [show (validate rc counter).1.counter = counter from hraised]
        exact hfirst later hlater hlimit

end Filters

section Mirror

/-- The set has no counter above the highest one, and in the last lap of blocks the bits
of the window are its members. -/
structure Mirrors (rc : WgReplayCounter) (taken : Finset UInt64) : Prop where
  bounded : ∀ x ∈ taken, x ≤ rc.counter
  window : ∀ x, block x ≤ block rc.counter → block rc.counter < block x + 128 →
    (seen rc x = true ↔ x ∈ taken)

theorem mirrors_zeroed : Mirrors zeroed ∅ := by
  refine ⟨fun x hx => absurd hx (Finset.notMem_empty x), fun x _ _ => ?_⟩
  rw [show seen zeroed x = false from test_empty ..]
  exact iff_of_false Bool.false_ne_true (Finset.notMem_empty x)

variable {rc : WgReplayCounter} {taken : Finset UInt64} {counter : UInt64}

theorem Mirrors.raise (h : Mirrors rc taken) (counter : UInt64) :
    Mirrors (raise rc counter) taken := by
  unfold ReplayCounter.raise
  split
  · rename_i hlt
    refine ⟨fun x hx => ?_, fun x hx hrecent => ?_⟩
    · exact UInt64.le_trans (h.bounded x hx) (UInt64.le_of_lt hlt)
    · change block x ≤ block counter at hx
      change block counter < block x + 128 at hrecent
      have hblocks : block rc.counter ≤ block counter := block_mono (UInt64.le_of_lt hlt)
      rw [seen_advance_iff hlt hx hrecent]
      constructor
      · rintro ⟨hbehind, hseen⟩
        exact (h.window x hbehind (by omega)).mp hseen
      · intro hmem
        have hbehind : block x ≤ block rc.counter := block_mono (h.bounded x hmem)
        exact ⟨hbehind, (h.window x hbehind (by omega)).mpr hmem⟩
  · exact h

theorem sameBit_iff_eq {a b top : UInt64} (ha : block a ≤ block top)
    (ha' : block top < block a + 128) (hb : block b ≤ block top)
    (hb' : block top < block b + 128) :
    (wordIdx a = wordIdx b ∧ a % bitsPerWord = b % bitsPerWord) ↔ b = a := by
  rw [sameBit_iff]
  constructor
  · intro hbit
    apply UInt64.toNat_inj.mp
    unfold block at ha ha' hb hb'
    omega
  · rintro rfl
    rfl

theorem Mirrors.markSeen (h : Mirrors rc taken) (hle : counter ≤ rc.counter)
    (hrecent : block rc.counter < block counter + 128) :
    Mirrors (markSeen rc counter) (insert counter taken) := by
  refine ⟨fun x hx => ?_, fun x hx hxrecent => ?_⟩
  · rcases Finset.mem_insert.mp hx with rfl | hold
    · exact hle
    · exact h.bounded x hold
  · rw [counter_markSeen] at hx hxrecent
    rw [seen_markSeen, Bool.or_eq_true, decide_eq_true_eq,
      sameBit_iff_eq (block_mono hle) hrecent hx hxrecent, h.window x hx hxrecent,
      Finset.mem_insert]
    exact or_comm

theorem refused_iff_of_near (hnear : Near rc counter) :
    Refused rc counter ↔ wgRejectAfterMessages ≤ counter := by
  refine ⟨fun h => ?_, .inl⟩
  rcases h with hlimit | ⟨hwindow, hold⟩
  · exact hlimit
  · rw [UInt64.lt_iff_toNat_lt, UInt64.toNat_sub_of_le _ _ hwindow] at hold
    change counter.toNat < rc.counter.toNat - 8192 at hold
    unfold Near at hnear
    omega

theorem block_raise_of_near (hnear : Near rc counter) :
    block (raise rc counter).counter < block counter + 128 := by
  rw [counter_raise]
  unfold Near at hnear
  split
  · omega
  · unfold block
    omega

/-- One call: the window answers as the set does, and keeps mirroring it. -/
theorem Mirrors.validate (h : Mirrors rc taken) (hnear : Near rc counter) :
    Mirrors (validate rc counter).1 (exactFilter taken counter).1 ∧
      (validate rc counter).2 = (exactFilter taken counter).2 := by
  have hraised := h.raise counter
  have hle := (counter_le_raise rc counter).2
  have hrecent := block_raise_of_near hnear
  have hseen := hraised.window counter (block_mono hle) hrecent
  unfold ReplayFilter.validate exactFilter
  rcases wgCounterValidate_cases rc counter with
    ⟨hrefused, hvalue⟩ | ⟨-, hfound, hvalue⟩ | ⟨hadmitted, hfresh, hvalue⟩
  · rw [hvalue, if_neg fun hgood =>
      UInt64.not_le.mpr hgood.1 ((refused_iff_of_near hnear).mp hrefused)]
    exact ⟨h, rfl⟩
  · rw [hvalue, if_neg fun hgood => hgood.2 (hseen.mp hfound)]
    exact ⟨hraised, rfl⟩
  · have hlimit : counter < wgRejectAfterMessages :=
      UInt64.not_le.mp fun hlimit => hadmitted (.inl hlimit)
    have hnew : counter ∉ taken := by
      intro hmem
      rw [hseen.mpr hmem] at hfresh
      cases hfresh
    rw [hvalue, if_pos ⟨hlimit, hnew⟩]
    exact ⟨hraised.markSeen hle hrecent, rfl⟩

/-- On every sequence whose counters are reordered by at most 127 words the window answers
as the filter that remembers everything. -/
theorem validate_eq_exactFilter {counters : List UInt64} (h : BoundedReordering counters) :
    (run validate zeroed counters).2 = (run exactFilter ∅ counters).2 := by
  refine run_outputs_eq validate (fun rc taken counter hmirrors hnear => hmirrors.validate hnear)
    mirrors_zeroed (near_validate (fun counter _ => Nat.zero_le _) h)

/-- Late, doubled and far advanced counters, up to the greatest distance. -/
theorem validate_eq_exactFilter_sample :
    (run validate zeroed [5, 8133, 5, 6, 8133, 30000, 21872, 0xFFFFFFFFFFFFFFFF, 21872]).2 =
      (run exactFilter ∅ [5, 8133, 5, 6, 8133, 30000, 21872, 0xFFFFFFFFFFFFFFFF, 21872]).2 :=
  validate_eq_exactFilter (by decide +kernel)

end Mirror

end WgNx.ReplayFilter
