import Mathlib.Data.List.Nodup
import Mathlib.Logic.Function.Basic
import WgNx.OutputMachine

/-!
Nonces drawn from counters kept in slots.

Each slot is empty or holds a key with the counter of its next use.  Keys are
installed with counter zero, used with the current counter, and cleared.  If no
key is installed twice and no counter is used at its maximum, no key is used
twice with one counter, in whatever order the slots are served.
-/

namespace WgNx.CounterNonces

open WgNx.OutputMachine
open Function

variable {ι κ : Type*}

abbrev Slots (ι κ : Type*) : Type _ := ι → Option (κ × UInt64)

def maxCounter : UInt64 := 0xFFFFFFFFFFFFFFFF

inductive Label (κ : Type*)
  | installed (key : κ)
  | used (key : κ) (counter : UInt64)

inductive SlotStep [DecidableEq ι] (S : Slots ι κ) : List (Label κ) → Slots ι κ → Prop
  | install (i : ι) (key : κ) : SlotStep S [.installed key] (update S i (some (key, 0)))
  | use (i : ι) (key : κ) (counter : UInt64) (hslot : S i = some (key, counter))
      (hmax : counter ≠ maxCounter) :
      SlotStep S [.used key counter] (update S i (some (key, counter + 1)))
  | clear (i : ι) : SlotStep S [] (update S i none)

def installedKeys (labels : List (Label κ)) : List κ :=
  labels.filterMap fun
    | .installed key => some key
    | .used _ _ => none

def usedNonces (labels : List (Label κ)) : List (κ × UInt64) :=
  labels.filterMap fun
    | .installed _ => none
    | .used key counter => some (key, counter)

theorem lt_add_one_of_ne_max {a b : UInt64} (h : a ≤ b) (hmax : b ≠ maxCounter) :
    a < b + 1 := by
  have hb : b.toNat < 18446744073709551615 := by
    rcases Nat.lt_or_ge b.toNat 18446744073709551615 with hlt | hge
    · exact hlt
    · have hsize := b.toNat_lt
      exact absurd (UInt64.toNat_inj.mp (by change b.toNat = 18446744073709551615; omega)) hmax
  rw [UInt64.le_iff_toNat_le] at h
  rw [UInt64.lt_iff_toNat_lt, UInt64.toNat_add]
  change a.toNat < (b.toNat + 1) % 2 ^ 64
  omega

/-- What the slots know about the uses so far. -/
structure Fresh (S : Slots ι κ) (log : List (Label κ)) : Prop where
  known : ∀ i key counter, S i = some (key, counter) → key ∈ installedKeys log
  below : ∀ i key counter, S i = some (key, counter) →
    ∀ c, (key, c) ∈ usedNonces log → c < counter
  apart : ∀ i j key a b, S i = some (key, a) → S j = some (key, b) → i = j
  sources : ∀ key c, (key, c) ∈ usedNonces log → key ∈ installedKeys log
  nodup : (usedNonces log).Nodup

theorem fresh_empty : Fresh (fun _ : ι => (none : Option (κ × UInt64))) [] where
  known := by simp
  below := by simp
  apart := by simp
  sources := by simp [usedNonces]
  nodup := List.nodup_nil

variable [DecidableEq ι]

theorem fresh_install {S : Slots ι κ} {log : List (Label κ)} (h : Fresh S log) (i : ι)
    {key : κ} (hnew : key ∉ installedKeys log) :
    Fresh (update S i (some (key, 0))) (log ++ [.installed key]) := by
  have hkeys : installedKeys (log ++ [.installed key]) = installedKeys log ++ [key] := by
    simp [installedKeys]
  have hused : usedNonces (log ++ [.installed key]) = usedNonces log := by
    simp [usedNonces]
  -- The new key is in no other slot and in no earlier use.
  have hother : ∀ j k c, update S i (some (key, 0)) j = some (k, c) →
      (j = i ∧ k = key) ∨ j ≠ i ∧ S j = some (k, c) := by
    intro j k c hj
    rcases eq_or_ne j i with rfl | hne
    · rw [update_self] at hj
      cases hj
      exact .inl ⟨rfl, rfl⟩
    · rw [update_of_ne hne] at hj
      exact .inr ⟨hne, hj⟩
  refine ⟨fun j k c hj => ?_, fun j k c hj c' hc' => ?_, fun j₁ j₂ k a b h₁ h₂ => ?_,
    fun k c hc => ?_, ?_⟩
  · rw [hkeys, List.mem_append]
    rcases hother j k c hj with ⟨-, rfl⟩ | ⟨-, hj⟩
    · exact .inr (List.mem_singleton_self _)
    · exact .inl (h.known j k c hj)
  · rw [hused] at hc'
    rcases hother j k c hj with ⟨-, rfl⟩ | ⟨-, hj⟩
    · exact absurd (h.sources _ _ hc') hnew
    · exact h.below j k c hj c' hc'
  · rcases hother j₁ k a h₁ with ⟨hj₁, hk⟩ | ⟨-, hold₁⟩ <;>
      rcases hother j₂ k b h₂ with ⟨hj₂, hk'⟩ | ⟨-, hold₂⟩
    · exact hj₁.trans hj₂.symm
    · exact absurd (h.known _ _ _ hold₂) (hk ▸ hnew)
    · exact absurd (h.known _ _ _ hold₁) (hk' ▸ hnew)
    · exact h.apart j₁ j₂ k a b hold₁ hold₂
  · rw [hused] at hc
    rw [hkeys, List.mem_append]
    exact .inl (h.sources k c hc)
  · rw [hused]
    exact h.nodup

theorem fresh_use {S : Slots ι κ} {log : List (Label κ)} (h : Fresh S log) {i : ι}
    {key : κ} {counter : UInt64} (hslot : S i = some (key, counter))
    (hmax : counter ≠ maxCounter) :
    Fresh (update S i (some (key, counter + 1))) (log ++ [.used key counter]) := by
  have hkeys : installedKeys (log ++ [.used key counter]) = installedKeys log := by
    simp [installedKeys]
  have hused : usedNonces (log ++ [.used key counter]) = usedNonces log ++ [(key, counter)] := by
    simp [usedNonces]
  -- Up to the advanced counter the slots are the ones of before.
  have hslots : ∀ j k c, update S i (some (key, counter + 1)) j = some (k, c) →
      ∃ c₀, S j = some (k, c₀) ∧ (j = i ∧ k = key ∧ c = counter + 1 ∨ j ≠ i ∧ c = c₀) := by
    intro j k c hj
    rcases eq_or_ne j i with rfl | hne
    · rw [update_self] at hj
      cases hj
      exact ⟨counter, hslot, .inl ⟨rfl, rfl, rfl⟩⟩
    · rw [update_of_ne hne] at hj
      exact ⟨c, hj, .inr ⟨hne, rfl⟩⟩
  refine ⟨fun j k c hj => ?_, fun j k c hj c' hc' => ?_, fun j₁ j₂ k a b h₁ h₂ => ?_,
    fun k c hc => ?_, ?_⟩
  · obtain ⟨c₀, hj, -⟩ := hslots j k c hj
    rw [hkeys]
    exact h.known j k c₀ hj
  · rw [hused, List.mem_append, List.mem_singleton] at hc'
    obtain ⟨c₀, hj, ⟨rfl, rfl, rfl⟩ | ⟨hne, rfl⟩⟩ := hslots j k c hj
    · rcases hc' with hold | hnew
      · exact lt_add_one_of_ne_max
          (UInt64.le_of_lt (h.below j k counter hslot c' hold)) hmax
      · cases hnew
        exact lt_add_one_of_ne_max (UInt64.le_refl _) hmax
    · rcases hc' with hold | hnew
      · exact h.below j k c hj c' hold
      · cases hnew
        exact absurd (h.apart j i _ _ _ hj hslot) hne
  · obtain ⟨a₀, h₁, -⟩ := hslots j₁ k a h₁
    obtain ⟨b₀, h₂, -⟩ := hslots j₂ k b h₂
    exact h.apart j₁ j₂ k a₀ b₀ h₁ h₂
  · rw [hused, List.mem_append, List.mem_singleton] at hc
    rw [hkeys]
    rcases hc with hold | hnew
    · exact h.sources k c hold
    · cases hnew
      exact h.known i key counter hslot
  · rw [hused, List.nodup_append]
    refine ⟨h.nodup, List.nodup_singleton _, ?_⟩
    intro p hp q hq heq
    rw [List.mem_singleton.mp hq] at heq
    rw [heq] at hp
    exact absurd (h.below i key counter hslot counter hp) (UInt64.lt_irrefl _)

theorem fresh_clear {S : Slots ι κ} {log : List (Label κ)} (h : Fresh S log) (i : ι) :
    Fresh (update S i none) log := by
  have hslots : ∀ j k c, update S i none j = some (k, c) → S j = some (k, c) := by
    intro j k c hj
    rcases eq_or_ne j i with rfl | hne
    · rw [update_self] at hj
      cases hj
    · rwa [update_of_ne hne] at hj
  refine ⟨fun j k c hj => ?_, fun j k c hj => ?_, fun j₁ j₂ k a b h₁ h₂ => ?_,
    h.sources, h.nodup⟩
  · exact h.known j k c (hslots j k c hj)
  · exact h.below j k c (hslots j k c hj)
  · exact h.apart j₁ j₂ k a b (hslots j₁ k a h₁) (hslots j₂ k b h₂)

/-- Along every path from empty slots that installs no key twice, no key is used
twice with one counter. -/
theorem usedNonces_nodup {S : Slots ι κ} {labels : List (Label κ)}
    (h : Path SlotStep (fun _ => none) labels S) (hkeys : (installedKeys labels).Nodup) :
    (usedNonces labels).Nodup := by
  have hstep : ∀ (s : Slots ι κ) (log out : List (Label κ)) (t : Slots ι κ),
      ((installedKeys log).Nodup → Fresh s log) → SlotStep s out t →
      ((installedKeys (log ++ out)).Nodup → Fresh t (log ++ out)) := by
    intro s log out t hinv hslot hnodup
    have happend : installedKeys (log ++ out) = installedKeys log ++ installedKeys out :=
      List.filterMap_append
    rw [happend, List.nodup_append] at hnodup
    have hfresh := hinv hnodup.1
    cases hslot with
    | install i key =>
        apply fresh_install hfresh
        intro hmem
        exact hnodup.2.2 key hmem key (by simp [installedKeys]) rfl
    | use i key counter hslot hmax => exact fresh_use hfresh hslot hmax
    | clear i =>
        rw [List.append_nil]
        exact fresh_clear hfresh i
  have hinit : (installedKeys ([] : List (Label κ))).Nodup →
      Fresh (fun _ : ι => (none : Option (κ × UInt64))) [] := fun _ => fresh_empty
  have hend := Path.invariant hstep hinit h
  rw [List.nil_append] at hend
  exact (hend hkeys).nodup

end WgNx.CounterNonces
