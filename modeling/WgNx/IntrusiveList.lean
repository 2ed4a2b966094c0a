import Mathlib.Data.List.Nodup
import Mathlib.Logic.Function.Basic

/-!
Singly linked lists whose links are stored in the nodes.

`Visits next head l` says that a walk along the links from `head` visits the nodes
of `l`, in order, and then ends.  A walk that came to a node twice would come to it
for ever, so the nodes of a walk are distinct and there is no cycle among them.
-/

namespace WgNx.IntrusiveList

open Function

variable {α : Type*}

inductive Visits (next : α → Option α) : Option α → List α → Prop
  | nil : Visits next none []
  | cons (a : α) {l : List α} (h : Visits next (next a) l) : Visits next (some a) (a :: l)

variable {next : α → Option α}

theorem Visits.unique {head : Option α} {l l' : List α} (h : Visits next head l)
    (h' : Visits next head l') : l = l' := by
  induction h generalizing l' with
  | nil =>
      cases h'
      rfl
  | cons a hrest ih =>
      cases h' with
      | cons _ hrest' => rw [ih hrest']

/-- From every node of a walk the rest of the walk can be made. -/
theorem Visits.of_mem {head : Option α} {l : List α} (h : Visits next head l) {a : α}
    (ha : a ∈ l) : ∃ l₁, Visits next (some a) l₁ ∧ l₁.length ≤ l.length := by
  induction h with
  | nil => cases ha
  | @cons b l hrest ih =>
      rcases List.mem_cons.mp ha with rfl | hmem
      · exact ⟨a :: l, .cons a hrest, Nat.le_refl _⟩
      · obtain ⟨l₁, hwalk, hlen⟩ := ih hmem
        exact ⟨l₁, hwalk, Nat.le_succ_of_le hlen⟩

theorem Visits.nodup {head : Option α} {l : List α} (h : Visits next head l) : l.Nodup := by
  induction h with
  | nil => exact List.nodup_nil
  | @cons a l hrest ih =>
      refine List.nodup_cons.mpr ⟨?_, ih⟩
      intro hmem
      -- The rest of the walk would contain the walk from `a` on, which is longer.
      obtain ⟨l₁, hwalk, hlen⟩ := hrest.of_mem hmem
      have heq := (Visits.cons a hrest).unique hwalk
      rw [← heq, List.length_cons] at hlen
      omega

variable [DecidableEq α]

/-- The link of a node that is not visited may be overwritten. -/
theorem Visits.update {head : Option α} {l : List α} (h : Visits next head l) {a : α}
    (ha : a ∉ l) (link : Option α) : Visits (Function.update next a link) head l := by
  induction h with
  | nil => exact .nil
  | @cons b l hrest ih =>
      rw [List.mem_cons, not_or] at ha
      obtain ⟨hne, hmem⟩ := ha
      have hlink : Function.update next a link b = next b := update_of_ne (Ne.symm hne) link next
      have hnext := ih hmem
      rw [← hlink] at hnext
      exact .cons b hnext

/-- Pushing a node links it to the old head. -/
theorem Visits.push {head : Option α} {l : List α} (h : Visits next head l) {a : α}
    (ha : a ∉ l) : Visits (Function.update next a head) (some a) (a :: l) := by
  have hlink : Function.update next a head a = head := update_self a head next
  apply Visits.cons
  rw [hlink]
  exact h.update ha head

end WgNx.IntrusiveList
