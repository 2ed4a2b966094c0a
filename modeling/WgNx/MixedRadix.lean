import Mathlib.Algebra.BigOperators.Group.List.Basic
import Mathlib.Algebra.Order.Ring.Int
import Mathlib.Tactic.LinearCombination

/-!
Numbers in a radix that changes from digit to digit, with digits of either sign.

A carry passed through the digits comes out as the quotient of the whole number, and the
digits it leaves behind are those of the remainder.
-/

namespace WgNx.MixedRadix

/-- The number with these digits, lowest first, each with the bits of its place. -/
def value : List (ℤ × ℕ) → ℤ
  | [] => 0
  | (a, w) :: ls => a + 2 ^ w * value ls

def bits (ls : List (ℤ × ℕ)) : ℕ := (ls.map Prod.snd).sum

/-- What comes out behind the last digit when `q` is added to the first one. -/
def carryOut (q : ℤ) : List (ℤ × ℕ) → ℤ
  | [] => q
  | (a, w) :: ls => carryOut ((q + a) / 2 ^ w) ls

/-- The digits once `q` is added to the first one and carries are passed on. -/
def digits (q : ℤ) : List (ℤ × ℕ) → List (ℤ × ℕ)
  | [] => []
  | (a, w) :: ls => ((a + q) % 2 ^ w, w) :: digits ((a + q) / 2 ^ w) ls

theorem carryOut_eq (q : ℤ) (ls : List (ℤ × ℕ)) :
    carryOut q ls = (q + value ls) / 2 ^ bits ls := by
  induction ls generalizing q with
  | nil => simp [carryOut, value, bits]
  | cons d ls ih =>
      obtain ⟨a, w⟩ := d
      have hpow : (2 : ℤ) ^ w ≠ 0 := pow_ne_zero w two_ne_zero
      have hbits : bits ((a, w) :: ls) = w + bits ls := by simp [bits]
      rw [carryOut, ih, hbits, pow_add, ← Int.ediv_ediv_of_nonneg (pow_nonneg zero_le_two w), value,
        ← add_assoc, Int.add_mul_ediv_left _ _ hpow]

theorem value_digits (q : ℤ) (ls : List (ℤ × ℕ)) :
    value (digits q ls) = (q + value ls) % 2 ^ bits ls := by
  have hsplit : ∀ q, value (digits q ls) + 2 ^ bits ls * carryOut q ls = q + value ls := by
    induction ls with
    | nil => simp [digits, carryOut, value, bits]
    | cons d ls ih =>
        intro q
        obtain ⟨a, w⟩ := d
        have hbits : bits ((a, w) :: ls) = w + bits ls := by simp [bits]
        have hmod := Int.emod_add_mul_ediv (a + q) (2 ^ w)
        have hrest := ih ((a + q) / 2 ^ w)
        rw [digits, carryOut, hbits, pow_add, value, value, add_comm q a]
        linear_combination hmod + 2 ^ w * hrest
  have h := hsplit q
  rw [carryOut_eq] at h
  have hdiv := Int.emod_add_mul_ediv (q + value ls) (2 ^ bits ls)
  linear_combination h - hdiv

theorem map_snd_digits (q : ℤ) (ls : List (ℤ × ℕ)) :
    (digits q ls).map Prod.snd = ls.map Prod.snd := by
  induction ls generalizing q with
  | nil => rfl
  | cons d ls ih => rw [digits, List.map_cons, List.map_cons, ih]

theorem digits_bounds (q : ℤ) (ls : List (ℤ × ℕ)) :
    ∀ d ∈ digits q ls, 0 ≤ d.1 ∧ d.1 < 2 ^ d.2 := by
  induction ls generalizing q with
  | nil => simp [digits]
  | cons d ls ih =>
      intro e he
      rw [digits, List.mem_cons] at he
      rcases he with rfl | he
      · have hpos : (0 : ℤ) < 2 ^ d.2 := pow_pos zero_lt_two _
        exact ⟨Int.emod_nonneg _ hpos.ne', Int.emod_lt_of_pos _ hpos⟩
      · exact ih _ e he

end WgNx.MixedRadix
