import Mathlib.Data.List.Nodup
import Mathlib.Logic.Function.Basic
import Mathlib.Logic.Relation

/-!
Two parties that open a session with each other at the same time.

Each party makes offers, one after the other, and waits for an answer to the
current one.  It may also take an offer of the other party, which answers it and
ends its own waiting.  Messages are delivered in any order, late or never, and
each at most once.  When both parties have a session, the two belong to one
exchange exactly if the offer that was taken last was taken while its maker was
still waiting for an answer to it.
-/

namespace WgNx.CrossedOpening

open Function

inductive Side
  | left
  | right
  deriving DecidableEq

namespace Side

def other : Side → Side
  | left => right
  | right => left

@[simp] theorem other_other (x : Side) : x.other.other = x := by
  cases x <;> rfl

theorem other_ne (x : Side) : x.other ≠ x := by
  cases x <;> simp [other]

theorem eq_or_other (x y : Side) : y = x ∨ y = x.other := by
  cases x <;> cases y <;> simp [other]

end Side

section Update

variable {α : Type*} (f : Side → α) (x : Side) (v : α)

@[simp] theorem update_at_other : update f x v x.other = f x.other :=
  update_of_ne x.other_ne v f

@[simp] theorem update_other_at : update f x.other v x = f x :=
  update_of_ne x.other_ne.symm v f

end Update

variable {δ ρ μ : Type*}

inductive Token (δ ρ μ : Type*)
  | offer (d : δ)
  | answer (d : δ) (r : ρ)
  | other (m : μ)

/-- The exchange a session comes from, and the part of its owner in it. -/
inductive Origin (δ ρ : Type*)
  | initiator (d : δ) (r : ρ)
  | responder (d : δ) (r : ρ)

/-- An offer that was taken; `live` if its maker was waiting for the answer. -/
structure Taking (δ ρ : Type*) where
  side : Side
  offer : δ
  answer : ρ
  live : Bool

structure Sys (δ ρ μ : Type*) where
  offered : Side → List δ
  waiting : Side → Option δ
  origin : Side → Option (Origin δ ρ)
  taken : Side → List (δ × ρ)
  flight : Side → List (Token δ ρ μ)
  last : Option (Taking δ ρ)

namespace Sys

def start : Sys δ ρ μ where
  offered _ := []
  waiting _ := none
  origin _ := none
  taken _ := []
  flight _ := []
  last := none

def send (s : Sys δ ρ μ) (x : Side) (t : Token δ ρ μ) : Sys δ ρ μ :=
  { s with flight := update s.flight x (s.flight x ++ [t]) }

def drop (s : Sys δ ρ μ) (x : Side) (k : Nat) : Sys δ ρ μ :=
  { s with flight := update s.flight x ((s.flight x).eraseIdx k) }

def makeOffer (s : Sys δ ρ μ) (x : Side) (d : δ) : Sys δ ρ μ :=
  { s with
    offered := update s.offered x (s.offered x ++ [d])
    waiting := update s.waiting x (some d) }

def giveUp (s : Sys δ ρ μ) (x : Side) : Sys δ ρ μ :=
  { s with waiting := update s.waiting x none }

def take [DecidableEq δ] (s : Sys δ ρ μ) (x : Side) (d : δ) (r : ρ) : Sys δ ρ μ :=
  { s with
    waiting := update s.waiting x none
    origin := update s.origin x (some (.responder d r))
    taken := update s.taken x (s.taken x ++ [(d, r)])
    last := some ⟨x, d, r, decide (s.waiting x.other = some d)⟩ }

def complete (s : Sys δ ρ μ) (x : Side) (d : δ) (r : ρ) : Sys δ ρ μ :=
  { s with
    waiting := update s.waiting x none
    origin := update s.origin x (some (.initiator d r)) }

inductive Step [DecidableEq δ] (s : Sys δ ρ μ) : Sys δ ρ μ → Prop
  | offer (x : Side) (d : δ) (hfresh : d ∉ s.offered x) (hnone : s.origin x = none) :
      Step s ((s.makeOffer x d).send x.other (.offer d))
  | giveUp (x : Side) : Step s (s.giveUp x)
  | take (x : Side) (k : Nat) (d : δ) (r : ρ) (hk : (s.flight x)[k]? = some (.offer d)) :
      Step s (((s.drop x k).take x d r).send x.other (.answer d r))
  | answer (x : Side) (k : Nat) (d : δ) (r : ρ)
      (hk : (s.flight x)[k]? = some (.answer d r)) (hwait : s.waiting x = some d) :
      Step s ((s.drop x k).complete x d r)
  | drop (x : Side) (k : Nat) : Step s (s.drop x k)
  | other (x : Side) (m : μ) : Step s (s.send x (.other m))

/-- Both sessions come from one exchange. -/
def Paired (s : Sys δ ρ μ) : Prop :=
  ∃ x d r, s.origin x = some (.initiator d r) ∧ s.origin x.other = some (.responder d r)

def offersIn (tokens : List (Token δ ρ μ)) : List δ :=
  tokens.filterMap fun
    | .offer d => some d
    | _ => none

theorem mem_offersIn {tokens : List (Token δ ρ μ)} {d : δ} :
    d ∈ offersIn tokens ↔ .offer d ∈ tokens := by
  unfold offersIn
  rw [List.mem_filterMap]
  constructor
  · rintro ⟨t, ht, hd⟩
    cases t with
    | offer d' =>
        cases hd
        exact ht
    | answer => cases hd
    | other => cases hd
  · intro h
    exact ⟨.offer d, h, rfl⟩

theorem offersIn_eraseIdx_sublist (tokens : List (Token δ ρ μ)) (k : Nat) :
    (offersIn (tokens.eraseIdx k)).Sublist (offersIn tokens) :=
  (List.eraseIdx_sublist ..).filterMap _

/-- An offer that is delivered is gone. -/
theorem not_mem_eraseIdx {tokens : List (Token δ ρ μ)} {k : Nat} {d : δ}
    (h : (offersIn tokens).Nodup) (hk : tokens[k]? = some (.offer d)) :
    .offer d ∉ tokens.eraseIdx k := by
  obtain ⟨hlt, hget⟩ := List.getElem?_eq_some_iff.mp hk
  have hsplit : tokens = tokens.take k ++ .offer d :: tokens.drop (k + 1) := by
    rw [← hget, ← List.drop_eq_getElem_cons hlt, List.take_append_drop]
  rw [← mem_offersIn, List.eraseIdx_eq_take_drop_succ]
  have hoffers : offersIn tokens =
      offersIn (tokens.take k) ++ d :: offersIn (tokens.drop (k + 1)) := by
    conv_lhs => rw [hsplit]
    simp [offersIn]
  rw [hoffers] at h
  have happend : offersIn (tokens.take k ++ tokens.drop (k + 1)) =
      offersIn (tokens.take k) ++ offersIn (tokens.drop (k + 1)) := by
    simp [offersIn]
  rw [happend]
  exact (List.nodup_middle.mp h).notMem

/-- What the last taken offer says about the two sessions. -/
def LastInv (s : Sys δ ρ μ) : Option (Taking δ ρ) → Prop
  | none => ∀ x, s.origin x = none ∧ s.taken x = []
  | some t =>
      s.origin t.side = some (.responder t.offer t.answer) ∧
      (t.offer, t.answer) ∈ s.taken t.side ∧
      if t.live then
        s.origin t.side.other = some (.initiator t.offer t.answer) ∨
          s.origin t.side.other = none ∧
            ∀ d r, s.waiting t.side.other = some d → (d, r) ∈ s.taken t.side → d = t.offer
      else
        s.waiting t.side.other ≠ some t.offer ∧
          ∀ r, s.origin t.side.other ≠ some (.initiator t.offer r)

structure Inv (s : Sys δ ρ μ) : Prop where
  offers : ∀ x d, .offer d ∈ s.flight x → d ∈ s.offered x.other ∧ ∀ r, (d, r) ∉ s.taken x
  once : ∀ x, (offersIn (s.flight x)).Nodup
  answers : ∀ x d r, .answer d r ∈ s.flight x → (d, r) ∈ s.taken x.other
  taken : ∀ x d r, (d, r) ∈ s.taken x → d ∈ s.offered x.other
  functional : ∀ x d r r', (d, r) ∈ s.taken x → (d, r') ∈ s.taken x → r = r'
  waiting : ∀ x d, s.waiting x = some d → d ∈ s.offered x ∧ s.origin x = none
  initiator : ∀ x d r, s.origin x = some (.initiator d r) → (d, r) ∈ s.taken x.other
  responder : ∀ x d r, s.origin x = some (.responder d r) → (d, r) ∈ s.taken x
  last : s.LastInv s.last

theorem inv_start : (start : Sys δ ρ μ).Inv where
  offers := by simp [start]
  once := by simp [start, offersIn]
  answers := by simp [start]
  taken := by simp [start]
  functional := by simp [start]
  waiting := by simp [start]
  initiator := by simp [start]
  responder := by simp [start]
  last := fun _ => ⟨rfl, rfl⟩

section Steps

variable {s : Sys δ ρ μ}

theorem inv_drop (h : s.Inv) (x : Side) (k : Nat) : (s.drop x k).Inv := by
  have hsub : ∀ y t, t ∈ (s.drop x k).flight y → t ∈ s.flight y := by
    intro y t ht
    rcases x.eq_or_other y with rfl | rfl
    · simp only [drop, update_self] at ht
      exact List.mem_of_mem_eraseIdx ht
    · simpa [drop] using ht
  refine ⟨fun y d hd => h.offers y d (hsub y _ hd), fun y => ?_,
    fun y d r hr => h.answers y d r (hsub y _ hr), h.taken, h.functional, h.waiting,
    h.initiator, h.responder, h.last⟩
  rcases x.eq_or_other y with rfl | rfl
  · simp only [drop, update_self]
    exact (h.once y).sublist (offersIn_eraseIdx_sublist _ k)
  · simpa [drop] using h.once x.other

/-- A message is put on its way; `ht` says what the invariant asks of it. -/
theorem inv_send (h : s.Inv) (x : Side) {t : Token δ ρ μ}
    (hoffer : ∀ d, t = .offer d → d ∈ s.offered x.other ∧ (∀ r, (d, r) ∉ s.taken x) ∧
      .offer d ∉ s.flight x)
    (hanswer : ∀ d r, t = .answer d r → (d, r) ∈ s.taken x.other) : (s.send x t).Inv := by
  have hmem : ∀ y t', t' ∈ (s.send x t).flight y → t' ∈ s.flight y ∨ y = x ∧ t' = t := by
    intro y t' ht'
    rcases x.eq_or_other y with rfl | rfl
    · simpa [send] using ht'
    · exact .inl (by simpa [send] using ht')
  refine ⟨fun y d hd => ?_, fun y => ?_, fun y d r hr => ?_, h.taken, h.functional,
    h.waiting, h.initiator, h.responder, h.last⟩
  · rcases hmem y _ hd with hold | ⟨rfl, heq⟩
    · exact h.offers y d hold
    · exact ⟨(hoffer d heq.symm).1, (hoffer d heq.symm).2.1⟩
  · rcases x.eq_or_other y with rfl | rfl
    · simp only [send, update_self]
      have happend : offersIn (s.flight y ++ [t]) = offersIn (s.flight y) ++ offersIn [t] :=
        List.filterMap_append
      rw [happend]
      refine (List.nodup_append.mpr ⟨h.once y, ?_, ?_⟩)
      · cases t <;> simp [offersIn]
      · intro d hd d' hd' heq
        subst heq
        rw [mem_offersIn] at hd hd'
        exact (hoffer d (List.mem_singleton.mp hd').symm).2.2 hd
    · simpa [send] using h.once x.other
  · rcases hmem y _ hr with hold | ⟨rfl, heq⟩
    · exact h.answers y d r hold
    · exact hanswer d r heq.symm

theorem inv_giveUp (h : s.Inv) (x : Side) : (s.giveUp x).Inv := by
  have hwait : ∀ y d, (s.giveUp x).waiting y = some d → s.waiting y = some d := by
    intro y d hd
    rcases x.eq_or_other y with rfl | rfl
    · simp [giveUp] at hd
    · simpa [giveUp] using hd
  refine ⟨h.offers, h.once, h.answers, h.taken, h.functional,
    fun y d hd => h.waiting y d (hwait y d hd), h.initiator, h.responder, ?_⟩
  have hlast := h.last
  change (s.giveUp x).LastInv s.last
  cases ht : s.last with
  | none =>
      rw [ht] at hlast
      exact hlast
  | some t =>
      rw [ht] at hlast
      obtain ⟨horigin, htaken, hrest⟩ := hlast
      refine ⟨horigin, htaken, ?_⟩
      split at hrest
      · rename_i hlive
        rw [if_pos hlive]
        refine hrest.imp_right fun hnone => ⟨hnone.1, fun d r hd hr => ?_⟩
        exact hnone.2 d r (hwait _ d hd) hr
      · rename_i hdead
        rw [if_neg hdead]
        exact ⟨fun hd => hrest.1 (hwait _ _ hd), hrest.2⟩

theorem inv_makeOffer (h : s.Inv) {x : Side} {d : δ} (hfresh : d ∉ s.offered x)
    (hnone : s.origin x = none) : (s.makeOffer x d).Inv := by
  have hold : ∀ y d', d' ∈ s.offered y → d' ∈ (s.makeOffer x d).offered y := by
    intro y d' hd'
    rcases x.eq_or_other y with rfl | rfl
    · simp [makeOffer, hd']
    · simpa [makeOffer] using hd'
  have hwait : ∀ y d', (s.makeOffer x d).waiting y = some d' →
      s.waiting y = some d' ∨ y = x ∧ d' = d := by
    intro y d' hd'
    rcases x.eq_or_other y with rfl | rfl
    · simp only [makeOffer, update_self, Option.some.injEq] at hd'
      exact .inr ⟨rfl, hd'.symm⟩
    · exact .inl (by simpa [makeOffer] using hd')
  refine ⟨fun y d' hd' => ?_, h.once, h.answers,
    fun y d' r hr => hold _ d' (h.taken y d' r hr), h.functional, fun y d' hd' => ?_,
    h.initiator, h.responder, ?_⟩
  · exact ⟨hold _ d' (h.offers y d' hd').1, (h.offers y d' hd').2⟩
  · rcases hwait y d' hd' with hprev | ⟨rfl, rfl⟩
    · exact ⟨hold y d' (h.waiting y d' hprev).1, (h.waiting y d' hprev).2⟩
    · exact ⟨by simp [makeOffer], hnone⟩
  · have hlast := h.last
    change (s.makeOffer x d).LastInv s.last
    cases ht : s.last with
    | none =>
        rw [ht] at hlast
        exact hlast
    | some t =>
        rw [ht] at hlast
        obtain ⟨horigin, htaken, hrest⟩ := hlast
        refine ⟨horigin, htaken, ?_⟩
        split at hrest
        · rename_i hlive
          rw [if_pos hlive]
          refine hrest.imp_right fun hnone => ⟨hnone.1, fun d' r hd' hr => ?_⟩
          rcases hwait _ d' hd' with hprev | ⟨hside, rfl⟩
          · exact hnone.2 d' r hprev hr
          · -- The new offer cannot have been taken before it was made.
            exact absurd (hside ▸ h.taken _ d' r hr) hfresh
        · rename_i hdead
          rw [if_neg hdead]
          refine ⟨fun hd => ?_, hrest.2⟩
          rcases hwait _ _ hd with hprev | ⟨hside, hoffer⟩
          · exact hrest.1 hprev
          · exact hfresh (hoffer ▸ hside ▸ h.taken _ _ _ htaken)

theorem inv_take [DecidableEq δ] (h : s.Inv) {x : Side} {d : δ} (r : ρ)
    (hmade : d ∈ s.offered x.other) (hnew : ∀ r, (d, r) ∉ s.taken x)
    (hgone : .offer d ∉ s.flight x) : (s.take x d r).Inv := by
  have htaken : ∀ y p, p ∈ (s.take x d r).taken y → p ∈ s.taken y ∨ y = x ∧ p = (d, r) := by
    intro y p hp
    rcases x.eq_or_other y with rfl | rfl
    · simpa [take] using hp
    · exact .inl (by simpa [take] using hp)
  have hkeep : ∀ y p, p ∈ s.taken y → p ∈ (s.take x d r).taken y := by
    intro y p hp
    rcases x.eq_or_other y with rfl | rfl
    · simp [take, hp]
    · simpa [take] using hp
  refine ⟨fun y d' hd' => ?_, h.once, fun y d' r' hr => hkeep _ _ (h.answers y d' r' hr),
    fun y d' r' hr => ?_, fun y d' r₁ r₂ h₁ h₂ => ?_, fun y d' hd' => ?_,
    fun y d' r' hi => ?_, fun y d' r' hi => ?_, ?_⟩
  · refine ⟨(h.offers y d' hd').1, fun r' hr => ?_⟩
    rcases htaken y _ hr with hold | ⟨rfl, heq⟩
    · exact (h.offers y d' hd').2 r' hold
    · cases heq
      exact hgone hd'
  · rcases htaken y _ hr with hold | ⟨rfl, heq⟩
    · exact h.taken y d' r' hold
    · cases heq
      exact hmade
  · rcases htaken y _ h₁ with hold₁ | ⟨hy, heq₁⟩ <;> rcases htaken y _ h₂ with hold₂ | ⟨hy', heq₂⟩
    · exact h.functional y d' r₁ r₂ hold₁ hold₂
    · cases heq₂
      exact absurd (hy' ▸ hold₁) (hnew r₁)
    · cases heq₁
      exact absurd (hy ▸ hold₂) (hnew r₂)
    · cases heq₁
      cases heq₂
      rfl
  · rcases x.eq_or_other y with rfl | rfl
    · simp [take] at hd'
    · have hwait : s.waiting x.other = some d' := by simpa [take] using hd'
      obtain ⟨hoffered, horigin⟩ := h.waiting _ _ hwait
      exact ⟨hoffered, by simpa [take] using horigin⟩
  · rcases x.eq_or_other y with rfl | rfl
    · simp [take] at hi
    · exact hkeep _ _ (h.initiator _ d' r' (by simpa [take] using hi))
  · rcases x.eq_or_other y with rfl | rfl
    · simp only [take, update_self, Option.some.injEq, Origin.responder.injEq] at hi
      obtain ⟨rfl, rfl⟩ := hi
      simp [take]
    · exact hkeep _ _ (h.responder _ d' r' (by simpa [take] using hi))
  · refine ⟨by simp [take], by simp [take], ?_⟩
    by_cases hwait : s.waiting x.other = some d
    · rw [if_pos (by simpa using hwait)]
      refine .inr ⟨?_, fun d' r' hd' _ => ?_⟩
      · simpa [take] using (h.waiting _ _ hwait).2
      · have hd'' : s.waiting x.other = some d' := by simpa [take] using hd'
        rw [hwait] at hd''
        exact (Option.some.inj hd'').symm
    · rw [if_neg (by simpa using hwait)]
      refine ⟨by simpa [take] using hwait, fun r' hi => ?_⟩
      -- An answered offer was taken before, so it is not in flight any more.
      have hinit := h.initiator x.other d r' (by simpa [take] using hi)
      rw [Side.other_other] at hinit
      exact hnew r' hinit

theorem inv_complete (h : s.Inv) {x : Side} {d : δ} {r : ρ}
    (hanswer : (d, r) ∈ s.taken x.other) (hwait : s.waiting x = some d) :
    (s.complete x d r).Inv := by
  have hnone := (h.waiting x d hwait).2
  refine ⟨h.offers, h.once, h.answers, h.taken, h.functional, fun y d' hd' => ?_,
    fun y d' r' hi => ?_, fun y d' r' hi => ?_, ?_⟩
  · rcases x.eq_or_other y with rfl | rfl
    · simp [complete] at hd'
    · have hold : s.waiting x.other = some d' := by simpa [complete] using hd'
      exact ⟨(h.waiting _ _ hold).1, by simpa [complete] using (h.waiting _ _ hold).2⟩
  · rcases x.eq_or_other y with rfl | rfl
    · simp only [complete, update_self, Option.some.injEq, Origin.initiator.injEq] at hi
      obtain ⟨rfl, rfl⟩ := hi
      exact hanswer
    · exact h.initiator _ d' r' (by simpa [complete] using hi)
  · rcases x.eq_or_other y with rfl | rfl
    · simp [complete] at hi
    · exact h.responder _ d' r' (by simpa [complete] using hi)
  · have hlast := h.last
    change (s.complete x d r).LastInv s.last
    cases ht : s.last with
    | none =>
        rw [ht] at hlast
        rw [(hlast x.other).2] at hanswer
        cases hanswer
    | some t =>
        rw [ht] at hlast
        obtain ⟨horigin, htaken, hrest⟩ := hlast
        -- The party that completes made the offer that was taken last.
        have hside : t.side = x.other := by
          rcases x.eq_or_other t.side with heq | heq
          · rw [heq, hnone] at horigin
            cases horigin
          · exact heq
        obtain ⟨side, offer, answer, live⟩ := t
        subst hside
        refine ⟨by simpa [complete] using horigin, htaken, ?_⟩
        simp only [Side.other_other] at hrest ⊢
        split at hrest
        · rename_i hlive
          rw [if_pos hlive]
          rcases hrest with hdone | ⟨-, hcurrent⟩
          · rw [hnone] at hdone
            cases hdone
          · obtain rfl := hcurrent d r hwait hanswer
            obtain rfl := h.functional _ d r answer hanswer htaken
            exact .inl (by simp [complete])
        · rename_i hdead
          rw [if_neg hdead]
          refine ⟨by simp [complete], fun r' hi => hrest.1 ?_⟩
          simp only [complete, update_self, Option.some.injEq, Origin.initiator.injEq] at hi
          rw [hwait, hi.1]

/-- When both parties have a session, the sessions come from one exchange exactly
if the last offer was taken while its maker waited for the answer. -/
theorem paired_iff_last_live (h : s.Inv) (hboth : ∀ x, s.origin x ≠ none) :
    s.Paired ↔ ∃ t, s.last = some t ∧ t.live = true := by
  have hlast := h.last
  cases ht : s.last with
  | none =>
      rw [ht] at hlast
      exact absurd (hlast .left).1 (hboth .left)
  | some t =>
      rw [ht] at hlast
      obtain ⟨horigin, -, hrest⟩ := hlast
      constructor
      · rintro ⟨x, d, r, hinit, hresp⟩
        refine ⟨t, rfl, ?_⟩
        by_contra hdead
        rw [if_neg hdead] at hrest
        rcases x.eq_or_other t.side with hside | hside
        · rw [hside, hinit] at horigin
          cases horigin
        · rw [hside, hresp] at horigin
          cases horigin
          rw [hside, Side.other_other] at hrest
          exact hrest.2 t.answer hinit
      · rintro ⟨t', heq, hlive⟩
        cases heq
        rw [if_pos hlive] at hrest
        rcases hrest with hinit | ⟨hnone, -⟩
        · refine ⟨t.side.other, t.offer, t.answer, hinit, ?_⟩
          rw [Side.other_other]
          exact horigin
        · exact absurd hnone (hboth _)

variable [DecidableEq δ]

theorem inv_step {s' : Sys δ ρ μ} (h : s.Inv) (hstep : s.Step s') : s'.Inv := by
  cases hstep with
  | offer x d hfresh hnone =>
      apply inv_send (inv_makeOffer h hfresh hnone)
      · intro d' hd'
        cases hd'
        refine ⟨by simp [makeOffer], fun r hr => ?_, fun hflight => ?_⟩
        · have htaken := h.taken x.other d r hr
          rw [Side.other_other] at htaken
          exact hfresh htaken
        · have hoffered := (h.offers x.other d hflight).1
          rw [Side.other_other] at hoffered
          exact hfresh hoffered
      · intro d' r hr
        cases hr
  | giveUp x => exact inv_giveUp h x
  | take x k d r hk =>
      have hmem : .offer d ∈ s.flight x := List.mem_of_getElem? hk
      obtain ⟨hmade, hnew⟩ := h.offers x d hmem
      have hgone : .offer d ∉ (s.drop x k).flight x := by
        simp only [drop, update_self]
        exact not_mem_eraseIdx (h.once x) hk
      apply inv_send (inv_take (inv_drop h x k) r hmade hnew hgone)
      · intro d' hd'
        cases hd'
      · intro d' r' hr
        cases hr
        simp [take]
  | answer x k d r hk hwait =>
      have hanswer := h.answers x d r (List.mem_of_getElem? hk)
      exact inv_complete (inv_drop h x k) hanswer hwait
  | drop x k => exact inv_drop h x k
  | other x m =>
      apply inv_send h
      · intro d hd
        cases hd
      · intro d r hr
        cases hr

theorem inv_steps {s' : Sys δ ρ μ} (h : s.Inv) (hsteps : Relation.ReflTransGen Step s s') :
    s'.Inv := by
  induction hsteps with
  | refl => exact h
  | tail _ hstep ih => exact inv_step ih hstep

end Steps

end Sys

end WgNx.CrossedOpening
