import WgNx.Curve25519Prime
import WgNx.SignedWords
import Mathlib.Algebra.BigOperators.Fin
import Mathlib.Tactic.FinCases
import Mathlib.Tactic.LinearCombination

/-!
Field elements of the vendored curve code, ten signed limbs of 26 and 25 bits in turn.

`Represents k f x` says that the limbs `f` are defined, at most `k` times as large as
carrying leaves them, and stand for `x`.  Sums add up their factors, and products take
factors of up to three and come out carried, so the code may add and subtract a little
between two products and nothing leaves the range of the machine's integers.
-/

namespace WgNx.FieldLimbs

open WgNx.Curve25519Prime
open WgNx.SignedWords

section Model

-- The index literals of the limbs rest on this.
instance neZero_ten : @NeZero Nat Zero.ofOfNat0 10 := Nat.instNeZeroSucc

/-- `fe` -/
abbrev Fe := Vector (SInt 32) 10

/-- The limbs of a product before carrying. -/
abbrev Wide := Vector (SInt 64) 10

def fe0 : Fe := Vector.ofFn fun _ => 0

def fe1 : Fe := Vector.ofFn fun i => if i.val = 0 then 1 else 0

def feNeg (f : Fe) : Fe := f.map (- ·)

def feAdd (f g : Fe) : Fe := Vector.zipWith (· + ·) f g

def feSub (f g : Fe) : Fe := Vector.zipWith (· - ·) f g

/-- How many bits limb `i` holds. -/
def width (i : Fin 10) : ℕ := if i.val % 2 = 0 then 26 else 25

/-- One line of `FE_CARRY`: what limb `i` has too much goes to the next limb, and from the last
one back to the first, nineteen times. -/
def carry (t : Wide) (i : Fin 10) : Wide :=
  let c := (t.get i + fit 64 (2 ^ (width i - 1))) >>> width i
  Vector.ofFn fun j =>
    if j = i then t.get i - c * fit 64 (2 ^ width i)
    else if j = i + 1 then t.get j + (if i = 9 then c * 19 else c)
    else t.get j

/-- The order in which `FE_CARRY` visits the limbs. -/
def carryOrder : List (Fin 10) := [0, 4, 1, 5, 2, 6, 3, 7, 4, 8, 9, 0]

/-- `FE_CARRY` -/
def feCarry (t : Wide) : Fe := (carryOrder.foldl carry t).map (SInt.cast 32)

/-- A sum of products `x * (i64) y`. -/
def dot (ps : List (SInt 32 × SInt 32)) : SInt 64 := SInt.dot 64 ps

def feMulSmall (f : Fe) (g : SInt 32) : Fe := feCarry (f.map fun x => x.cast 64 * g.cast 64)

/-- The factors of the products that `fe_mul` adds up, limb by limb. -/
def mulRows (f g : Fe) : Vector (List (SInt 32 × SInt 32)) 10 :=
  let f0 := f.get 0; let f1 := f.get 1; let f2 := f.get 2; let f3 := f.get 3; let f4 := f.get 4
  let f5 := f.get 5; let f6 := f.get 6; let f7 := f.get 7; let f8 := f.get 8; let f9 := f.get 9
  let g0 := g.get 0; let g1 := g.get 1; let g2 := g.get 2; let g3 := g.get 3; let g4 := g.get 4
  let g5 := g.get 5; let g6 := g.get 6; let g7 := g.get 7; let g8 := g.get 8; let g9 := g.get 9
  let F1 := f1 * 2; let F3 := f3 * 2; let F5 := f5 * 2; let F7 := f7 * 2; let F9 := f9 * 2
  let G1 := g1 * 19; let G2 := g2 * 19; let G3 := g3 * 19
  let G4 := g4 * 19; let G5 := g5 * 19; let G6 := g6 * 19
  let G7 := g7 * 19; let G8 := g8 * 19; let G9 := g9 * 19
  #v[
    [(f0, g0), (F1, G9), (f2, G8), (F3, G7), (f4, G6),
      (F5, G5), (f6, G4), (F7, G3), (f8, G2), (F9, G1)],
    [(f0, g1), (f1, g0), (f2, G9), (f3, G8), (f4, G7),
      (f5, G6), (f6, G5), (f7, G4), (f8, G3), (f9, G2)],
    [(f0, g2), (F1, g1), (f2, g0), (F3, G9), (f4, G8),
      (F5, G7), (f6, G6), (F7, G5), (f8, G4), (F9, G3)],
    [(f0, g3), (f1, g2), (f2, g1), (f3, g0), (f4, G9),
      (f5, G8), (f6, G7), (f7, G6), (f8, G5), (f9, G4)],
    [(f0, g4), (F1, g3), (f2, g2), (F3, g1), (f4, g0),
      (F5, G9), (f6, G8), (F7, G7), (f8, G6), (F9, G5)],
    [(f0, g5), (f1, g4), (f2, g3), (f3, g2), (f4, g1),
      (f5, g0), (f6, G9), (f7, G8), (f8, G7), (f9, G6)],
    [(f0, g6), (F1, g5), (f2, g4), (F3, g3), (f4, g2),
      (F5, g1), (f6, g0), (F7, G9), (f8, G8), (F9, G7)],
    [(f0, g7), (f1, g6), (f2, g5), (f3, g4), (f4, g3),
      (f5, g2), (f6, g1), (f7, g0), (f8, G9), (f9, G8)],
    [(f0, g8), (F1, g7), (f2, g6), (F3, g5), (f4, g4),
      (F5, g3), (f6, g2), (F7, g1), (f8, g0), (F9, G9)],
    [(f0, g9), (f1, g8), (f2, g7), (f3, g6), (f4, g5),
      (f5, g4), (f6, g3), (f7, g2), (f8, g1), (f9, g0)]]

def feMul (f g : Fe) : Fe := feCarry ((mulRows f g).map dot)

/-- The factors of the products that `fe_sq` adds up, limb by limb. -/
def sqRows (f : Fe) : Vector (List (SInt 32 × SInt 32)) 10 :=
  let f0 := f.get 0; let f1 := f.get 1; let f2 := f.get 2; let f3 := f.get 3; let f4 := f.get 4
  let f5 := f.get 5; let f6 := f.get 6; let f7 := f.get 7; let f8 := f.get 8; let f9 := f.get 9
  let f0_2 := f0 * 2; let f1_2 := f1 * 2; let f2_2 := f2 * 2; let f3_2 := f3 * 2
  let f4_2 := f4 * 2; let f5_2 := f5 * 2; let f6_2 := f6 * 2; let f7_2 := f7 * 2
  let f5_38 := f5 * 38; let f6_19 := f6 * 19; let f7_38 := f7 * 38
  let f8_19 := f8 * 19; let f9_38 := f9 * 38
  #v[
    [(f0, f0), (f1_2, f9_38), (f2_2, f8_19), (f3_2, f7_38), (f4_2, f6_19), (f5, f5_38)],
    [(f0_2, f1), (f2, f9_38), (f3_2, f8_19), (f4, f7_38), (f5_2, f6_19)],
    [(f0_2, f2), (f1_2, f1), (f3_2, f9_38), (f4_2, f8_19), (f5_2, f7_38), (f6, f6_19)],
    [(f0_2, f3), (f1_2, f2), (f4, f9_38), (f5_2, f8_19), (f6, f7_38)],
    [(f0_2, f4), (f1_2, f3_2), (f2, f2), (f5_2, f9_38), (f6_2, f8_19), (f7, f7_38)],
    [(f0_2, f5), (f1_2, f4), (f2_2, f3), (f6, f9_38), (f7_2, f8_19)],
    [(f0_2, f6), (f1_2, f5_2), (f2_2, f4), (f3_2, f3), (f7_2, f9_38), (f8, f8_19)],
    [(f0_2, f7), (f1_2, f6), (f2_2, f5), (f3_2, f4), (f8, f9_38)],
    [(f0_2, f8), (f1_2, f7_2), (f2_2, f6), (f3_2, f5_2), (f4, f4), (f9, f9_38)],
    [(f0_2, f9), (f1_2, f8), (f2_2, f7), (f3_2, f6), (f4, f5_2)]]

def feSq (f : Fe) : Fe := feCarry ((sqRows f).map dot)

end Model

section Limbs

theorem get_ofFn {α : Type} {n : ℕ} (f : Fin n → α) (i : Fin n) : (Vector.ofFn f).get i = f i :=
  Vector.getElem_ofFn i.isLt

theorem get_map {α β : Type} {n : ℕ} (f : α → β) (v : Vector α n) (i : Fin n) :
    (v.map f).get i = f (v.get i) := by
  simp [Vector.get]

theorem get_zipWith {α β γ : Type} {n : ℕ} (f : α → β → γ) (v : Vector α n) (w : Vector β n)
    (i : Fin n) : (Vector.zipWith f v w).get i = f (v.get i) (w.get i) :=
  Vector.getElem_zipWith i.isLt

/-- The words are defined, stand for the integers `l` and are bounded by `B`. -/
def Limbs {w : ℕ} (f : Vector (SInt w) 10) (l : Fin 10 → ℤ) (B : Fin 10 → ℕ) : Prop :=
  ∀ i, Within (f.get i) (l i) (B i)

/-- The exponent of limb `i`. -/
def weight (i : Fin 10) : ℕ := (51 * i.val + 1) / 2

def limbValue (l : Fin 10 → ℤ) : ℤ := ∑ i, l i * 2 ^ weight i

theorem limbValue_eq (l : Fin 10 → ℤ) :
    limbValue l = l 0 + l 1 * 2 ^ 26 + l 2 * 2 ^ 51 + l 3 * 2 ^ 77 + l 4 * 2 ^ 102 +
      l 5 * 2 ^ 128 + l 6 * 2 ^ 153 + l 7 * 2 ^ 179 + l 8 * 2 ^ 204 + l 9 * 2 ^ 230 := by
  unfold limbValue
  rw [Fin.sum_univ_castSucc, Fin.sum_univ_castSucc, Fin.sum_univ_eight]
  simp [weight]

end Limbs

section Carrying

variable {t : Wide} {l : Fin 10 → ℤ} {B : Fin 10 → ℕ} {i : Fin 10}

def carryOut (l : Fin 10 → ℤ) (i : Fin 10) : ℤ := (l i + 2 ^ (width i - 1)) / 2 ^ width i

def carryLimbs (l : Fin 10 → ℤ) (i : Fin 10) : Fin 10 → ℤ := fun j =>
  if j = i then l i - carryOut l i * 2 ^ width i
  else if j = i + 1 then l j + (if i = 9 then carryOut l i * 19 else carryOut l i)
  else l j

/-- The largest carry out of a limb bounded by `b`. -/
def carryMost (b : ℕ) (i : Fin 10) : ℕ := (b + 2 ^ (width i - 1)) / 2 ^ width i

def carryBound (B : Fin 10 → ℕ) (i : Fin 10) : Fin 10 → ℕ := fun j =>
  if j = i then 2 ^ (width i - 1)
  else if j = i + 1 then B j + (if i = 9 then carryMost (B i) i * 19 else carryMost (B i) i)
  else B j

/-- Nothing overflows when limb `i` is carried. -/
def CarryFits (B : Fin 10 → ℕ) (i : Fin 10) : Prop :=
  B i + 2 ^ (width i - 1) < 2 ^ 63 ∧ B (i + 1) + carryMost (B i) i * 19 < 2 ^ 63

instance (B : Fin 10 → ℕ) (i : Fin 10) : Decidable (CarryFits B i) :=
  inferInstanceAs (Decidable (_ ∧ _))

theorem width_cases (i : Fin 10) : width i = 26 ∨ width i = 25 := by
  unfold width
  split
  · exact .inl rfl
  · exact .inr rfl

theorem natAbs_carryOut_le (h : (l i).natAbs ≤ B i) :
    (carryOut l i).natAbs ≤ carryMost (B i) i := by
  unfold carryOut carryMost
  rcases width_cases i with hw | hw <;> rw [hw] <;> norm_num only <;> omega

theorem natAbs_carried_le :
    (l i - carryOut l i * 2 ^ width i).natAbs ≤ 2 ^ (width i - 1) := by
  unfold carryOut
  rcases width_cases i with hw | hw <;> rw [hw] <;> norm_num only <;> omega

theorem within_carryOut (h : Limbs t l B) (hfits : CarryFits B i) :
    Within ((t.get i + fit 64 (2 ^ (width i - 1))) >>> width i) (carryOut l i)
      (carryMost (B i) i) := by
  have hhalf : Within (fit 64 (2 ^ (width i - 1))) (2 ^ (width i - 1)) (2 ^ (width i - 1)) := by
    apply within_fit
    · simp [Int.natAbs_pow]
    · rcases width_cases i with hw | hw <;> rw [hw] <;> norm_num
  have hsum := (h i).add hhalf (by have := hfits.1; omega)
  exact hsum.shiftRight _ (natAbs_carryOut_le (h i).2)

theorem carryMost_mul_le (b : ℕ) (i : Fin 10) :
    carryMost b i * 2 ^ width i ≤ b + 2 ^ (width i - 1) := Nat.div_mul_le_self _ _

/-- Carrying one limb of words carries the limb of the integers they stand for. -/
theorem Limbs.carry (h : Limbs t l B) (hfits : CarryFits B i) :
    Limbs (carry t i) (carryLimbs l i) (carryBound B i) := by
  have hc := within_carryOut h hfits
  have hle := carryMost_mul_le (B i) i
  obtain ⟨hfits₁, hfits₂⟩ := hfits
  intro j
  unfold FieldLimbs.carry carryLimbs carryBound
  rw [get_ofFn]
  by_cases hj : j = i
  · subst hj
    simp only [if_pos]
    have hpow : Within (fit 64 (2 ^ width j)) (2 ^ width j) (2 ^ width j) := by
      apply within_fit
      · simp [Int.natAbs_pow]
      · rcases width_cases j with hw | hw <;> rw [hw] <;> norm_num
    refine (h j).lift (· - ·) (hc.mul hpow (by omega)) natAbs_carried_le ?_
    rcases width_cases j with hw | hw <;> rw [hw] <;> norm_num
  · simp only [if_neg hj]
    by_cases hj' : j = i + 1
    · subst hj'
      simp only [if_pos]
      by_cases hi : i = 9
      · simp only [if_pos hi]
        have h19 : Within (19 : SInt 64) (19 : ℕ) 19 := within_ofNat 19 (by norm_num)
        exact (h _).add (hc.mul h19 (by omega)) (by omega)
      · simp only [if_neg hi]
        exact (h _).add hc (by omega)
    · simp only [if_neg hj']
      exact h j

/-- Carrying keeps the number, up to a multiple of the modulus. -/
theorem limbValue_carryLimbs (l : Fin 10 → ℤ) (i : Fin 10) :
    ((limbValue (carryLimbs l i) : ℤ) : Fp) = (limbValue l : ℤ) := by
  have hwidth : ∀ j : Fin 10, width j = if j.val % 2 = 0 then 26 else 25 := fun _ => rfl
  rw [limbValue_eq, limbValue_eq]
  generalize hc : carryOut l i = c
  unfold carryLimbs
  rw [hc]
  by_cases hi : i = 9
  · subst hi
    simp [hwidth, Fin.ext_iff]
    linear_combination (-(c : Fp)) * two_pow_255
  · fin_cases i <;> first | exact absurd rfl hi | (simp [hwidth, Fin.ext_iff]; ring)

/-- Nothing overflows when the limbs are carried in turn. -/
def CarriesFit : (Fin 10 → ℕ) → List (Fin 10) → Prop
  | _, [] => True
  | B, i :: order => CarryFits B i ∧ CarriesFit (carryBound B i) order

instance CarriesFit.decidable : (B : Fin 10 → ℕ) → (order : List (Fin 10)) →
    Decidable (CarriesFit B order)
  | _, [] => inferInstanceAs (Decidable True)
  | B, i :: order =>
      have := CarriesFit.decidable (carryBound B i) order
      inferInstanceAs (Decidable (_ ∧ _))

theorem Limbs.carries (order : List (Fin 10)) (h : Limbs t l B) (hfits : CarriesFit B order) :
    Limbs (order.foldl FieldLimbs.carry t) (order.foldl carryLimbs l)
      (order.foldl carryBound B) := by
  induction order generalizing t l B with
  | nil => exact h
  | cons i order ih => exact ih (h.carry hfits.1) hfits.2

theorem limbValue_carries (order : List (Fin 10)) (l : Fin 10 → ℤ) :
    ((limbValue (order.foldl carryLimbs l) : ℤ) : Fp) = (limbValue l : ℤ) := by
  induction order generalizing l with
  | nil => rfl
  | cons i order ih => rw [List.foldl_cons, ih, limbValue_carryLimbs]

/-- What carrying leaves: `1.1 * 2^25` and `1.1 * 2^24`. -/
def carried (i : Fin 10) : ℕ := if i.val % 2 = 0 then 36909875 else 18454937

theorem carriesFit_carryOrder : CarriesFit (fun _ => 2 ^ 62) carryOrder := by decide

theorem carryBound_carryOrder_le (i : Fin 10) :
    carryOrder.foldl carryBound (fun _ => 2 ^ 62) i ≤ carried i := by
  revert i
  decide

end Carrying

section Represents

/-- The limbs are defined, at most `k` times as large as carried ones, and stand for `x`. -/
def Represents (k : ℕ) (f : Fe) (x : Fp) : Prop :=
  ∃ l : Fin 10 → ℤ, Limbs f l (fun i => k * carried i) ∧ ((limbValue l : ℤ) : Fp) = x

theorem Limbs.mono {w : ℕ} {f : Vector (SInt w) 10} {l : Fin 10 → ℤ} {B C : Fin 10 → ℕ}
    (h : Limbs f l B) (hle : ∀ i, B i ≤ C i) : Limbs f l C := fun i => (h i).mono (hle i)

theorem Represents.mono {j k : ℕ} {f : Fe} {x : Fp} (h : Represents j f x) (hle : j ≤ k) :
    Represents k f x := by
  obtain ⟨l, hl, hx⟩ := h
  exact ⟨l, hl.mono fun i => Nat.mul_le_mul_right _ hle, hx⟩

theorem carried_le (i : Fin 10) : carried i ≤ 36909875 := by
  unfold carried
  split <;> norm_num

/-- `FE_CARRY` on words below `2^62`. -/
theorem feCarry_represents {t : Wide} {l : Fin 10 → ℤ} (h : Limbs t l fun _ => 2 ^ 62) :
    Represents 1 (feCarry t) ((limbValue l : ℤ) : Fp) := by
  have hcarries := (h.carries carryOrder carriesFit_carryOrder).mono carryBound_carryOrder_le
  refine ⟨_, fun i => ?_, limbValue_carries carryOrder l⟩
  have hle := carried_le i
  unfold feCarry
  rw [get_map]
  exact ((hcarries i).cast (by omega)).mono (Nat.one_mul _).ge

end Represents

section Products

/-- The factor of a product of limbs `i` and `k - i` in limb `k`. -/
def coefficient (k i : Fin 10) : ℤ :=
  (if i.val % 2 = 1 ∧ k.val % 2 = 0 then 2 else 1) * (if i ≤ k then 1 else 19)

/-- Limb `k` of a product before carrying. -/
def column (a b : Fin 10 → ℤ) (k : Fin 10) : ℤ := ∑ i, coefficient k i * (a i * b (k - i))

theorem column_eq (a b : Fin 10 → ℤ) (k : Fin 10) :
    column a b k = coefficient k 0 * (a 0 * b (k - 0)) + coefficient k 1 * (a 1 * b (k - 1)) +
      coefficient k 2 * (a 2 * b (k - 2)) + coefficient k 3 * (a 3 * b (k - 3)) +
      coefficient k 4 * (a 4 * b (k - 4)) + coefficient k 5 * (a 5 * b (k - 5)) +
      coefficient k 6 * (a 6 * b (k - 6)) + coefficient k 7 * (a 7 * b (k - 7)) +
      coefficient k 8 * (a 8 * b (k - 8)) + coefficient k 9 * (a 9 * b (k - 9)) := by
  rw [column, Fin.sum_univ_castSucc, Fin.sum_univ_castSucc, Fin.sum_univ_eight]
  rfl

/-- The powers of two of two limbs, in terms of the limb their product belongs to. -/
theorem two_pow_weight_add (k i : Fin 10) :
    (2 : Fp) ^ (weight i + weight (k - i)) = (coefficient k i : ℤ) * 2 ^ weight k := by
  have hweight : weight i + weight (k - i) =
      (if i.val % 2 = 1 ∧ k.val % 2 = 0 then 1 else 0) + (if i ≤ k then 0 else 255) + weight k := by
    revert k i
    decide
  have htwo : (2 : Fp) ^ (if i.val % 2 = 1 ∧ k.val % 2 = 0 then 1 else 0) =
      ((if i.val % 2 = 1 ∧ k.val % 2 = 0 then 2 else 1 : ℤ) : Fp) := by
    split <;> norm_num
  have hwrap : (2 : Fp) ^ (if i ≤ k then 0 else 255) = ((if i ≤ k then 1 else 19 : ℤ) : Fp) := by
    split
    · norm_num
    · rw [two_pow_255]
      norm_num
  rw [hweight, pow_add, pow_add, htwo, hwrap, coefficient, Int.cast_mul]

/-- The columns of a product stand for the product. -/
theorem limbValue_column (a b : Fin 10 → ℤ) :
    ((limbValue (column a b) : ℤ) : Fp) = (limbValue a : ℤ) * (limbValue b : ℤ) := by
  have hterm : ∀ i k : Fin 10, ((coefficient k i * (a i * b (k - i)) * 2 ^ weight k : ℤ) : Fp) =
      ((a i * 2 ^ weight i : ℤ) : Fp) * ((b (k - i) * 2 ^ weight (k - i) : ℤ) : Fp) := by
    intro i k
    push_cast
    have hpow := two_pow_weight_add k i
    rw [pow_add] at hpow
    linear_combination (-(a i : Fp) * b (k - i)) * hpow
  unfold limbValue column
  rw [Int.cast_sum, Int.cast_sum, Int.cast_sum, Finset.sum_mul_sum]
  simp only [Finset.sum_mul, Int.cast_sum]
  rw [Finset.sum_comm]
  refine Finset.sum_congr rfl fun i _ => ?_
  rw [← Equiv.sum_comp (Equiv.subRight i)
    fun j => ((a i * 2 ^ weight i : ℤ) : Fp) * ((b j * 2 ^ weight j : ℤ) : Fp)]
  refine Finset.sum_congr rfl fun k _ => ?_
  exact hterm i k

/-- The factors of limb `k` of a product, in the order of the first factor's limbs. -/
def row (f g : Fe) (k : Fin 10) : List (SInt 32 × SInt 32) :=
  (List.finRange 10).map fun i =>
    (if i.val % 2 = 1 ∧ k.val % 2 = 0 then f.get i * 2 else f.get i,
      if i ≤ k then g.get (k - i) else g.get (k - i) * 19)

theorem mulRows_get (f g : Fe) (k : Fin 10) : (mulRows f g).get k = row f g k := by
  fin_cases k <;> rfl

/-- Limbs that products accept. -/
abbrev Loose (f : Fe) (a : Fin 10 → ℤ) : Prop := Limbs f a fun i => 3 * carried i

section Loose

variable {f g : Fe} {a b : Fin 10 → ℤ}

theorem Loose.any (h : Loose f a) (i : Fin 10) : Within (f.get i) (a i) 110729625 :=
  (h i).mono (Nat.mul_le_mul_left 3 (carried_le i))

theorem Loose.odd (h : Loose f a) {i : Fin 10} (hi : i.val % 2 = 1) :
    Within (f.get i) (a i) 55364811 := by
  have hw := h i
  simp only [carried, hi] at hw
  exact hw

theorem within_two : Within (2 : SInt 32) 2 2 := within_ofNat 2 (by norm_num)

theorem within_nineteen : Within (19 : SInt 32) 19 19 := within_ofNat 19 (by norm_num)

theorem within_thirtyEight : Within (38 : SInt 32) 38 38 := within_ofNat 38 (by norm_num)

theorem Loose.mulRows (hf : Loose f a) (hg : Loose g b) :
    Limbs ((mulRows f g).map dot) (column a b) fun _ => 2 ^ 62 := by
  intro k
  have hfactors : Factors 110729625 2103862875 (row f g k) ((List.finRange 10).map fun i =>
      (if i.val % 2 = 1 ∧ k.val % 2 = 0 then a i * 2 else a i,
        if i ≤ k then b (k - i) else b (k - i) * 19)) := by
    unfold row
    rw [Factors, List.forall₂_map_left_iff, List.forall₂_map_right_iff, List.forall₂_same]
    intro i _
    dsimp only
    refine ⟨?_, ?_⟩
    · split
      · rename_i hodd
        exact ((hf.odd hodd.1).mul within_two (by norm_num)).mono (by norm_num)
      · exact hf.any i
    · split
      · exact (hg.any (k - i)).mono (by norm_num)
      · exact (hg.any (k - i)).mul within_nineteen (by norm_num)
  have hsum : column a b k = (((List.finRange 10).map fun i =>
      (if i.val % 2 = 1 ∧ k.val % 2 = 0 then a i * 2 else a i,
        if i ≤ k then b (k - i) else b (k - i) * 19)).map fun q => q.1 * q.2).sum := by
    rw [column, Fin.sum_univ_def, List.map_map]
    refine congrArg List.sum (List.map_congr_left fun i _ => ?_)
    simp only [coefficient, Function.comp_apply]
    split <;> split <;> ring
  rw [get_map, mulRows_get, hsum]
  exact (within_dot hfactors (by norm_num) (by norm_num) (by simp [row])).mono (by simp [row])

theorem Loose.sqRows (hf : Loose f a) :
    Limbs ((sqRows f).map dot) (column a a) fun _ => 2 ^ 62 := by
  have hl := fun i => (hf.any i).mono (show 110729625 ≤ 221459250 by norm_num)
  have hl2 := fun i => (hf.any i).mul within_two (by norm_num)
  have hr := fun i => (hf.any i).mono (show 110729625 ≤ 2103862875 by norm_num)
  have hr2 := fun i => (hl2 i).mono (show 110729625 * 2 ≤ 2103862875 by norm_num)
  have h19 := fun i => (hf.any i).mul within_nineteen (by norm_num)
  have h38 := fun (i : Fin 10) (hi : i.val % 2 = 1) =>
    ((hf.odd hi).mul within_thirtyEight (by norm_num)).mono
      (show 55364811 * 38 ≤ 2103862875 by norm_num)
  have hrow : ∀ {ps : List (SInt 32 × SInt 32)} {qs : List (ℤ × ℤ)} {c : ℤ},
      Factors 221459250 2103862875 ps qs → ps.length ≤ 6 →
      (qs.map fun q => q.1 * q.2).sum = c → Within (dot ps) c (2 ^ 62) := by
    rintro ps qs c hps hlen rfl
    exact (within_dot hps (by norm_num) (by norm_num) (by omega)).mono (by omega)
  intro k
  rw [get_map]
  fin_cases k
  all_goals
    apply hrow
    · repeat
        first
        | exact List.Forall₂.nil
        | apply Factors.cons
          · first
            | with_reducible exact hl _
            | with_reducible exact hl2 _
          · first
            | with_reducible exact hr _
            | with_reducible exact hr2 _
            | with_reducible exact h19 _
            | with_reducible exact h38 _ rfl
    · exact Nat.le_of_ble_eq_true rfl
    · rw [column_eq]
      simp only [List.map_cons, List.map_nil, List.sum_cons, List.sum_nil, coefficient,
        Fin.reduceFinMk, Fin.zero_eta, Fin.mk_one, Fin.isValue, Fin.reduceSub, Fin.reduceLE,
        Fin.coe_ofNat_eq_mod, reduceIte, Nat.reduceMod, and_true, and_false,
        zero_ne_one, one_ne_zero]
      ring

end Loose

end Products

section Operations

variable {j k : ℕ} {f g : Fe} {x y : Fp}

theorem represents_fe0 : Represents 1 fe0 0 := by
  refine ⟨fun _ => 0, fun i => ?_, by simp [limbValue]⟩
  rw [fe0, get_ofFn]
  exact (within_ofNat 0 (by norm_num)).mono (Nat.zero_le _)

theorem represents_fe1 : Represents 1 fe1 1 := by
  refine ⟨fun i => if i.val = 0 then 1 else 0, fun i => ?_, by simp [limbValue_eq]⟩
  rw [fe1, get_ofFn]
  dsimp only
  split
  · exact (within_ofNat 1 (by norm_num)).mono (by unfold carried; split <;> norm_num)
  · exact (within_ofNat 0 (by norm_num)).mono (Nat.zero_le _)

theorem Represents.add (hf : Represents j f x) (hg : Represents k g y) (hjk : j + k ≤ 3) :
    Represents (j + k) (feAdd f g) (x + y) := by
  obtain ⟨a, ha, rfl⟩ := hf
  obtain ⟨b, hb, rfl⟩ := hg
  refine ⟨fun i => a i + b i, fun i => ?_, ?_⟩
  · rw [feAdd, get_zipWith]
    have hle := carried_le i
    have hsum : j * carried i + k * carried i = (j + k) * carried i := (Nat.add_mul _ _ _).symm
    have hmost : (j + k) * carried i ≤ 3 * carried i := Nat.mul_le_mul_right _ hjk
    exact ((ha i).add (hb i) (by dsimp only; omega)).mono hsum.le
  · rw [← Int.cast_add]
    simp only [limbValue, add_mul, Finset.sum_add_distrib]

theorem Represents.sub (hf : Represents j f x) (hg : Represents k g y) (hjk : j + k ≤ 3) :
    Represents (j + k) (feSub f g) (x - y) := by
  obtain ⟨a, ha, rfl⟩ := hf
  obtain ⟨b, hb, rfl⟩ := hg
  refine ⟨fun i => a i - b i, fun i => ?_, ?_⟩
  · rw [feSub, get_zipWith]
    have hle := carried_le i
    have hsum : j * carried i + k * carried i = (j + k) * carried i := (Nat.add_mul _ _ _).symm
    have hmost : (j + k) * carried i ≤ 3 * carried i := Nat.mul_le_mul_right _ hjk
    exact ((ha i).sub (hb i) (by dsimp only; omega)).mono hsum.le
  · rw [← Int.cast_sub]
    simp only [limbValue, sub_mul, Finset.sum_sub_distrib]

theorem Represents.neg (hf : Represents k f x) (hk : k ≤ 3) : Represents k (feNeg f) (-x) := by
  obtain ⟨a, ha, rfl⟩ := hf
  refine ⟨fun i => -a i, fun i => ?_, ?_⟩
  · rw [feNeg, get_map]
    have hle := carried_le i
    have hmost : k * carried i ≤ 3 * carried i := Nat.mul_le_mul_right _ hk
    exact (ha i).neg (by dsimp only; omega)
  · rw [← Int.cast_neg]
    simp only [limbValue, neg_mul, Finset.sum_neg_distrib]

theorem Represents.mul (hf : Represents 3 f x) (hg : Represents 3 g y) :
    Represents 1 (feMul f g) (x * y) := by
  obtain ⟨a, ha, rfl⟩ := hf
  obtain ⟨b, hb, rfl⟩ := hg
  rw [← limbValue_column]
  exact feCarry_represents (Loose.mulRows ha hb)

/-- `fe_sq` multiplies a field element by itself, limb for limb. -/
theorem feSq_eq_feMul (hf : Represents 3 f x) : feSq f = feMul f f := by
  obtain ⟨a, ha, rfl⟩ := hf
  refine congrArg feCarry ?_
  exact Vector.ext fun i hi => (Loose.sqRows ha ⟨i, hi⟩).unique (Loose.mulRows ha ha ⟨i, hi⟩)

theorem Represents.sq (hf : Represents 3 f x) : Represents 1 (feSq f) (x ^ 2) := by
  rw [feSq_eq_feMul hf, pow_two]
  exact hf.mul hf

theorem Represents.mulSmall (hf : Represents 3 f x) {c : SInt 32} {n : ℤ}
    (hc : Within c n (2 ^ 31)) : Represents 1 (feMulSmall f c) (x * n) := by
  obtain ⟨a, ha, rfl⟩ := hf
  have hvalue : limbValue a * n = limbValue fun i => a i * n := by
    simp only [limbValue, Finset.sum_mul]
    exact Finset.sum_congr rfl fun i _ => by ring
  rw [← Int.cast_mul, hvalue]
  refine feCarry_represents fun i => ?_
  rw [get_map]
  exact ((Loose.any ha i).mul_cast hc (by norm_num) (by norm_num) (by norm_num)).mono (by norm_num)

end Operations

end WgNx.FieldLimbs
