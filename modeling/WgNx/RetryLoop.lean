import Mathlib.Data.List.Basic

/-!
Bounded retry loops that share one error variable.

Attempt `k` of a loop either stops it with a value or asks for another attempt
and leaves a value behind; the value of the last attempt is the value of the
loop when the attempts run out.  `Reaches` describes the states in which an
attempt starts, and `Ends` the attempt a loop ends with.
-/

namespace WgNx.RetryLoop

variable {σ ε ω : Type*}

inductive Verdict (ε : Type*)
  | stop (e : ε)
  | again (e : ε)
  deriving DecidableEq

/-- At most `n` attempts, the first one numbered `k`; `e` is the value the loop
has if there is none. -/
def retry (body : Nat → σ → Verdict ε × σ × List ω) :
    (n k : Nat) → (e : ε) → σ → ε × σ × List ω
  | 0, _, e, s => (e, s, [])
  | n + 1, k, _, s =>
      match body k s with
      | (.stop e, s', out) => (e, s', out)
      | (.again e, s', out) =>
          let rest := retry body n (k + 1) e s'
          (rest.1, rest.2.1, out ++ rest.2.2)

variable (body : Nat → σ → Verdict ε × σ × List ω)

/-- A loop entered with attempt `k₀` in state `s₀` gets to attempt `k` in state
`s`, with the outputs of the attempts before it. -/
inductive Reaches (k₀ : Nat) (s₀ : σ) : Nat → σ → List ω → Prop
  | start : Reaches k₀ s₀ k₀ s₀ []
  | next {k : Nat} {s s' : σ} {out out' : List ω} {e : ε}
      (h : Reaches k₀ s₀ k s out) (hagain : body k s = (.again e, s', out')) :
      Reaches k₀ s₀ (k + 1) s' (out ++ out')

/-- Attempt `k` in state `s` is the last of a loop that has attempts up to
`last`: it stops the loop, or there is none left. -/
def Ends (last k : Nat) (s : σ) (e : ε) (s' : σ) (out : List ω) : Prop :=
  body k s = (.stop e, s', out) ∨ k + 1 = last ∧ body k s = (.again e, s', out)

variable {body}

theorem Ends.outputs {last k : Nat} {s s' : σ} {e : ε} {out : List ω}
    (h : Ends body last k s e s' out) : (body k s).2.2 = out := by
  rcases h with hstop | ⟨-, hagain⟩
  · rw [hstop]
  · rw [hagain]

theorem Reaches.le {k₀ k : Nat} {s₀ s : σ} {out : List ω}
    (h : Reaches body k₀ s₀ k s out) : k₀ ≤ k := by
  induction h with
  | start => exact Nat.le_refl _
  | next _ _ ih => exact Nat.le_succ_of_le ih

/-- Attempts after the first one come after a first one that asked for more. -/
theorem Reaches.first_again {k₀ k : Nat} {s₀ s : σ} {out : List ω}
    (h : Reaches body k₀ s₀ k s out) (hk : k₀ < k) :
    ∃ e, (body k₀ s₀).1 = .again e := by
  induction h with
  | start => exact absurd hk (Nat.lt_irrefl _)
  | @next k s s' out out' e hreach hagain ih =>
      rcases Nat.eq_or_lt_of_le hreach.le with heq | hlt
      · subst heq
        cases hreach with
        | start => exact ⟨e, by rw [hagain]⟩
        | next hreach' _ => exact absurd hreach'.le (by omega)
      · exact ih hlt

theorem Reaches.cons {k₀ k : Nat} {s₀ s₁ s : σ} {out₁ out : List ω} {e : ε}
    (hfirst : body k₀ s₀ = (.again e, s₁, out₁))
    (h : Reaches body (k₀ + 1) s₁ k s out) :
    Reaches body k₀ s₀ k s (out₁ ++ out) := by
  induction h with
  | start => simpa using Reaches.next .start hfirst
  | next _ hagain ih =>
      rw [← List.append_assoc]
      exact .next ih hagain

theorem exists_ends {n : Nat} (hn : 0 < n) (k₀ : Nat) (e₀ : ε) (s₀ : σ) :
    ∃ k s out e s' out', Reaches body k₀ s₀ k s out ∧ k < k₀ + n ∧
      Ends body (k₀ + n) k s e s' out' ∧
      retry body n k₀ e₀ s₀ = (e, s', out ++ out') := by
  induction n generalizing k₀ e₀ s₀ with
  | zero => omega
  | succ n ih =>
      rcases hbody : body k₀ s₀ with ⟨verdict, s₁, out₁⟩
      cases verdict with
      | stop e =>
          refine ⟨k₀, s₀, [], e, s₁, out₁, .start, by omega, .inl hbody, ?_⟩
          simp [retry, hbody]
      | again e =>
          rcases Nat.eq_zero_or_pos n with rfl | hpos
          · refine ⟨k₀, s₀, [], e, s₁, out₁, .start, by omega, .inr ⟨rfl, hbody⟩, ?_⟩
            simp [retry, hbody]
          · obtain ⟨k, s, out, e', s', out', hreach, hk, hend, hretry⟩ :=
              ih hpos (k₀ + 1) e s₁
            have hlast : k₀ + 1 + n = k₀ + (n + 1) := by omega
            rw [hlast] at hk hend
            refine ⟨k, s, out₁ ++ out, e', s', out', .cons hbody hreach, hk, hend, ?_⟩
            simp [retry, hbody, hretry, List.append_assoc]

theorem retry_of_reaches {k₀ k : Nat} {s₀ s : σ} {out : List ω}
    (h : Reaches body k₀ s₀ k s out) {n : Nat} (hk : k < k₀ + n) (e₀ : ε) :
    ∃ e, retry body n k₀ e₀ s₀ =
      ((retry body (k₀ + n - k) k e s).1, (retry body (k₀ + n - k) k e s).2.1,
        out ++ (retry body (k₀ + n - k) k e s).2.2) := by
  induction h with
  | start => exact ⟨e₀, by simp⟩
  | @next k s s' out out' e hreach hagain ih =>
      obtain ⟨e', hretry⟩ := ih (by omega)
      refine ⟨e, ?_⟩
      have hcount : k₀ + n - k = (k₀ + n - (k + 1)) + 1 := by omega
      rw [hretry, hcount]
      simp [retry, hagain, List.append_assoc]

theorem retry_of_ends {k₀ k n : Nat} {s₀ s s' : σ} {out out' : List ω} {e : ε}
    (hreach : Reaches body k₀ s₀ k s out) (hk : k < k₀ + n)
    (hend : Ends body (k₀ + n) k s e s' out') (e₀ : ε) :
    retry body n k₀ e₀ s₀ = (e, s', out ++ out') := by
  obtain ⟨e₁, hretry⟩ := retry_of_reaches hreach hk e₀
  have hcount : k₀ + n - k = (k₀ + n - (k + 1)) + 1 := by omega
  rw [hretry, hcount]
  rcases hend with hstop | ⟨hlast, hagain⟩
  · simp [retry, hstop]
  · have hnone : k₀ + n - (k + 1) = 0 := by omega
    simp [retry, hagain, hnone]

end WgNx.RetryLoop
