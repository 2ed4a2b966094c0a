import Mathlib.Data.List.Nodup
import Mathlib.Logic.Function.Basic
import WgNx.OutputMachine

/-!
Message numbers taken under keys that are kept in slots.

Each slot is empty or holds a key with a memory of the numbers taken under it.  A number
is checked against the memory of its slot, and a slot may be handed over to another one,
overwritten or cleared.  If no key is installed twice, no number is taken twice under one
key, whatever the slots are used for in between: the memory travels with its key.
-/

namespace WgNx.ReplayMemory

open WgNx.OutputMachine
open Function

/-- A check of numbers that remembers what it has taken.  It may forget, but a number it
has taken is refused where it is `Reliable`. -/
structure Memory (ω ν : Type*) where
  blank : ω
  check : ω → ν → Bool × ω
  Knows : ω → ν → Prop
  Reliable : ω → ν → Prop
  kept : ∀ w n m, Knows w m → Knows (check w n).2 m
  learned : ∀ w n, (check w n).1 = true → Knows (check w n).2 n
  refused : ∀ w n, Knows w n → Reliable w n → (check w n).1 = false

variable {ι κ ω ν : Type*}

abbrev Slots (ι κ ω : Type*) : Type _ := ι → Option (κ × ω)

inductive Label (κ ν : Type*)
  | installed (key : κ)
  | taken (key : κ) (number : ν)

/-- A number that passes the check need not be taken. -/
inductive SlotStep [DecidableEq ι] (M : Memory ω ν) (S : Slots ι κ ω) :
    List (Label κ ν) → Slots ι κ ω → Prop
  | install (i : ι) (key : κ) :
      SlotStep M S [.installed key] (update S i (some (key, M.blank)))
  | check (i : ι) (key : κ) (w : ω) (n : ν) (out : List (Label κ ν))
      (hslot : S i = some (key, w))
      (hout : out = [] ∨
        out = [.taken key n] ∧ (M.check w n).1 = true ∧ M.Reliable w n) :
      SlotStep M S out (update S i (some (key, (M.check w n).2)))
  | handOver (i j : ι) : SlotStep M S [] (update (update S j (S i)) i none)
  | clear (i : ι) : SlotStep M S [] (update S i none)

def installedKeys (labels : List (Label κ ν)) : List κ :=
  labels.filterMap fun
    | .installed key => some key
    | .taken _ _ => none

def takenNumbers (labels : List (Label κ ν)) : List (κ × ν) :=
  labels.filterMap fun
    | .installed _ => none
    | .taken key n => some (key, n)

/-- What the slots know about the numbers taken so far. -/
structure Guarded (M : Memory ω ν) (S : Slots ι κ ω) (log : List (Label κ ν)) : Prop where
  held : ∀ i key w, S i = some (key, w) → key ∈ installedKeys log
  apart : ∀ i j key w w', S i = some (key, w) → S j = some (key, w') → i = j
  known : ∀ i key w, S i = some (key, w) → ∀ n, (key, n) ∈ takenNumbers log → M.Knows w n
  sources : ∀ key n, (key, n) ∈ takenNumbers log → key ∈ installedKeys log
  nodup : (takenNumbers log).Nodup

variable {M : Memory ω ν} {S : Slots ι κ ω} {log : List (Label κ ν)}

theorem guarded_empty : Guarded M (fun _ : ι => (none : Option (κ × ω))) [] where
  held := by simp
  apart := by simp
  known := by simp
  sources := by simp [takenNumbers]
  nodup := List.nodup_nil

/-- Slots that hold nothing but what others hold, no two of them the same. -/
theorem Guarded.rearrange (h : Guarded M S log) {S' : Slots ι κ ω} (f : ι → ι)
    (hsub : ∀ i key w, S' i = some (key, w) → S (f i) = some (key, w))
    (hinj : ∀ i j, S' i ≠ none → S' j ≠ none → f i = f j → i = j) : Guarded M S' log where
  held i key w hi := h.held (f i) key w (hsub i key w hi)
  apart i j key w w' hi hj :=
    hinj i j (by simp [hi]) (by simp [hj])
      (h.apart (f i) (f j) key w w' (hsub i key w hi) (hsub j key w' hj))
  known i key w hi := h.known (f i) key w (hsub i key w hi)
  sources := h.sources
  nodup := h.nodup

variable [DecidableEq ι]

theorem Guarded.clear (h : Guarded M S log) (i : ι) : Guarded M (update S i none) log := by
  refine h.rearrange id (fun j key w hj => ?_) fun _ _ _ _ => id
  rcases eq_or_ne j i with rfl | hne
  · rw [update_self] at hj
    cases hj
  · rwa [update_of_ne hne] at hj

theorem Guarded.handOver (h : Guarded M S log) (i j : ι) :
    Guarded M (update (update S j (S i)) i none) log := by
  -- The slot `j` now holds what the emptied slot `i` held.
  refine h.rearrange (fun k => if k = j then i else k) (fun k key w hk => ?_)
    fun k l hk hl hsame => ?_
  · rcases eq_or_ne k i with rfl | hki
    · rw [update_self] at hk
      cases hk
    · rw [update_of_ne hki] at hk
      rcases eq_or_ne k j with rfl | hkj
      · rw [update_self] at hk
        rwa [if_pos rfl]
      · rw [update_of_ne hkj] at hk
        rwa [if_neg hkj]
  · have hki : k ≠ i := by
      rintro rfl
      exact hk (update_self ..)
    have hli : l ≠ i := by
      rintro rfl
      exact hl (update_self ..)
    grind

theorem Guarded.install (h : Guarded M S log) (i : ι) {key : κ}
    (hnew : key ∉ installedKeys log) :
    Guarded M (update S i (some (key, M.blank))) (log ++ [.installed key]) := by
  have hkeys : installedKeys (log ++ [.installed key]) = installedKeys log ++ [key] := by
    simp [installedKeys]
  have htaken : takenNumbers (log ++ [.installed key]) = takenNumbers log := by
    simp [takenNumbers]
  -- The new key is in no other slot, and nothing was taken under it.
  have hother : ∀ j k w, update S i (some (key, M.blank)) j = some (k, w) →
      (j = i ∧ k = key) ∨ S j = some (k, w) := by
    intro j k w hj
    rcases eq_or_ne j i with rfl | hne
    · rw [update_self] at hj
      cases hj
      exact .inl ⟨rfl, rfl⟩
    · rw [update_of_ne hne] at hj
      exact .inr hj
  refine ⟨fun j k w hj => ?_, fun j₁ j₂ k w w' h₁ h₂ => ?_, fun j k w hj n hn => ?_,
    fun k n hn => ?_, ?_⟩
  · rw [hkeys, List.mem_append]
    rcases hother j k w hj with ⟨-, rfl⟩ | hold
    · exact .inr (List.mem_singleton_self _)
    · exact .inl (h.held j k w hold)
  · rcases hother j₁ k w h₁ with ⟨hj₁, hk⟩ | hold₁ <;>
      rcases hother j₂ k w' h₂ with ⟨hj₂, hk'⟩ | hold₂
    · exact hj₁.trans hj₂.symm
    · exact absurd (h.held _ _ _ hold₂) (hk ▸ hnew)
    · exact absurd (h.held _ _ _ hold₁) (hk' ▸ hnew)
    · exact h.apart j₁ j₂ k w w' hold₁ hold₂
  · rw [htaken] at hn
    rcases hother j k w hj with ⟨-, rfl⟩ | hold
    · exact absurd (h.sources _ _ hn) hnew
    · exact h.known j k w hold n hn
  · rw [htaken] at hn
    rw [hkeys, List.mem_append]
    exact .inl (h.sources k n hn)
  · rw [htaken]
    exact h.nodup

/-- Checking a number keeps what is known, whether it passes or not. -/
theorem Guarded.check (h : Guarded M S log) {i : ι} {key : κ} {w : ω}
    (hslot : S i = some (key, w)) (n : ν) :
    Guarded M (update S i (some (key, (M.check w n).2))) log := by
  have hslots : ∀ j k v, update S i (some (key, (M.check w n).2)) j = some (k, v) →
      ∃ v₀, S j = some (k, v₀) ∧ ∀ m, M.Knows v₀ m → M.Knows v m := by
    intro j k v hj
    rcases eq_or_ne j i with rfl | hne
    · rw [update_self] at hj
      cases hj
      exact ⟨w, hslot, M.kept w n⟩
    · rw [update_of_ne hne] at hj
      exact ⟨v, hj, fun _ => id⟩
  refine ⟨fun j k v hj => ?_, fun j₁ j₂ k v v' h₁ h₂ => ?_, fun j k v hj m hm => ?_,
    h.sources, h.nodup⟩
  · obtain ⟨v₀, hold, -⟩ := hslots j k v hj
    exact h.held j k v₀ hold
  · obtain ⟨v₀, hold₁, -⟩ := hslots j₁ k v h₁
    obtain ⟨v₀', hold₂, -⟩ := hslots j₂ k v' h₂
    exact h.apart j₁ j₂ k v₀ v₀' hold₁ hold₂
  · obtain ⟨v₀, hold, hmore⟩ := hslots j k v hj
    exact hmore m (h.known j k v₀ hold m hm)

theorem Guarded.take (h : Guarded M S log) {i : ι} {key : κ} {w : ω}
    (hslot : S i = some (key, w)) {n : ν} (hpass : (M.check w n).1 = true)
    (hreliable : M.Reliable w n) :
    Guarded M (update S i (some (key, (M.check w n).2))) (log ++ [.taken key n]) := by
  have hkeys : installedKeys (log ++ [.taken key n]) = installedKeys log := by
    simp [installedKeys]
  have htaken : takenNumbers (log ++ [.taken key n]) = takenNumbers log ++ [(key, n)] := by
    simp [takenNumbers]
  have hchecked := h.check hslot n
  have hnew : (key, n) ∉ takenNumbers log := by
    intro hmem
    rw [M.refused w n (h.known i key w hslot n hmem) hreliable] at hpass
    cases hpass
  refine ⟨?_, hchecked.apart, fun j k v hj m hm => ?_, fun k m hm => ?_, ?_⟩
  · rw [hkeys]
    exact hchecked.held
  · rw [htaken, List.mem_append, List.mem_singleton] at hm
    rcases hm with hold | hlast
    · exact hchecked.known j k v hj m hold
    · cases hlast
      have hown : update S i (some (key, (M.check w n).2)) i = some (key, (M.check w n).2) :=
        update_self ..
      obtain rfl := hchecked.apart j i key v _ hj hown
      rw [hown] at hj
      cases hj
      exact M.learned w n hpass
  · rw [htaken, List.mem_append, List.mem_singleton] at hm
    rw [hkeys]
    rcases hm with hold | hlast
    · exact h.sources k m hold
    · cases hlast
      exact h.held i key w hslot
  · rw [htaken, List.nodup_append]
    refine ⟨h.nodup, List.nodup_singleton _, ?_⟩
    rintro p hp q hq rfl
    rw [List.mem_singleton.mp hq] at hp
    exact hnew hp

/-- Along every path from empty slots that installs no key twice, no number is taken twice
under one key. -/
theorem takenNumbers_nodup {labels : List (Label κ ν)}
    (h : Path (SlotStep M) (fun _ => none) labels S) (hkeys : (installedKeys labels).Nodup) :
    (takenNumbers labels).Nodup := by
  have hstep : ∀ (s : Slots ι κ ω) (log out : List (Label κ ν)) (t : Slots ι κ ω),
      ((installedKeys log).Nodup → Guarded M s log) → SlotStep M s out t →
      ((installedKeys (log ++ out)).Nodup → Guarded M t (log ++ out)) := by
    intro s log out t hinv hslot hnodup
    have happend : installedKeys (log ++ out) = installedKeys log ++ installedKeys out :=
      List.filterMap_append
    rw [happend, List.nodup_append] at hnodup
    have hguarded := hinv hnodup.1
    cases hslot with
    | install i key =>
        apply hguarded.install
        intro hmem
        exact hnodup.2.2 key hmem key (by simp [installedKeys]) rfl
    | check i key w n _ hslot hout =>
        rcases hout with rfl | ⟨rfl, hpass, hreliable⟩
        · rw [List.append_nil]
          exact hguarded.check hslot n
        · exact hguarded.take hslot hpass hreliable
    | handOver i j =>
        rw [List.append_nil]
        exact hguarded.handOver i j
    | clear i =>
        rw [List.append_nil]
        exact hguarded.clear i
  have hinit : (installedKeys ([] : List (Label κ ν))).Nodup →
      Guarded M (fun _ : ι => (none : Option (κ × ω))) [] := fun _ => guarded_empty
  have hend := Path.invariant hstep hinit h
  rw [List.nil_append] at hend
  exact (hend hkeys).nodup

end WgNx.ReplayMemory
