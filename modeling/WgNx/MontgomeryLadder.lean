import Mathlib.AlgebraicGeometry.EllipticCurve.Affine.Point
import Mathlib.FieldTheory.IsAlgClosed.AlgebraicClosure

/-!
Scalar multiplication on a Montgomery curve by first coordinates.

The ladder keeps two multiples of a point, one apart, each as a fraction that stands for
its first coordinate.  `ladder_eq` says that it computes the first coordinate of the
multiple, for every point of the curve: the neutral one, those of order two and those
the ladder meets on its way included.
-/

namespace WgNx.MontgomeryLadder

open WeierstrassCurve

universe u v
variable {F : Type u} [Field F]

section Ladder

/-- The two points of a ladder step, each as a fraction. -/
structure Rung (F : Type u) where
  x2 : F
  z2 : F
  x3 : F
  z3 : F

/-- Exchanges the two points. -/
def Rung.condSwap (b : Bool) (s : Rung F) : Rung F :=
  if b then ⟨s.x3, s.z3, s.x2, s.z2⟩ else s

/-- Doubles the first point and adds the second one to it, where `x1` is the first coordinate of
their difference. -/
def Rung.step (a24 x1 : F) (s : Rung F) : Rung F :=
  let a := s.x2 + s.z2
  let b := s.x2 - s.z2
  let da := (s.x3 - s.z3) * a
  let cb := (s.x3 + s.z3) * b
  let e := a ^ 2 - b ^ 2
  ⟨a ^ 2 * b ^ 2, e * (b ^ 2 + e * a24), (da + cb) ^ 2, x1 * (da - cb) ^ 2⟩

/-- A rung and whether its points are exchanged. -/
def ladderBit (a24 x1 : F) (s : Rung F × Bool) (b : Bool) : Rung F × Bool :=
  ((s.1.condSwap (s.2 ^^ b)).step a24 x1, b)

def ladderRun (a24 x1 : F) (bits : List Bool) : Rung F :=
  let s := bits.foldl (ladderBit a24 x1) (⟨1, 0, x1, 1⟩, false)
  s.1.condSwap s.2

/-- The first coordinate of the multiple of a point by the number whose binary digits are `bits`,
highest first. -/
def ladder (a24 x1 : F) (bits : List Bool) : F :=
  (ladderRun a24 x1 bits).x2 * (ladderRun a24 x1 bits).z2⁻¹

def bitsValue (bits : List Bool) : ℕ := bits.foldl (fun k b => 2 * k + b.toNat) 0

omit [Field F] in
theorem condSwap_condSwap (a b : Bool) (s : Rung F) :
    (s.condSwap a).condSwap b = s.condSwap (a ^^ b) := by
  cases a <;> cases b <;> rfl

theorem Rung.step_eq {A a24 : F} (h24 : 4 * a24 = A + 2) (x1 : F) (s : Rung F) :
    s.step a24 x1 =
      ⟨(s.x2 ^ 2 - s.z2 ^ 2) ^ 2,
        4 * s.x2 * s.z2 * (s.x2 ^ 2 + A * s.x2 * s.z2 + s.z2 ^ 2),
        (2 * (s.x2 * s.x3 - s.z2 * s.z3)) ^ 2,
        x1 * (2 * (s.x3 * s.z2 - s.z3 * s.x2)) ^ 2⟩ := by
  simp only [Rung.step, Rung.mk.injEq]
  refine ⟨by ring, ?_, by ring, by ring⟩
  linear_combination (4 * s.x2 ^ 2 * s.z2 ^ 2) * h24

/-- Both fractions are zero or infinite. -/
def Degenerate (s : Rung F) : Prop := s.x2 * s.z2 = 0 ∧ s.x3 * s.z3 = 0

theorem Degenerate.condSwap {s : Rung F} (h : Degenerate s) (b : Bool) :
    Degenerate (s.condSwap b) := by
  cases b
  · exact h
  · exact ⟨h.2, h.1⟩

theorem Degenerate.step {s : Rung F} (h : Degenerate s) (a24 : F) :
    Degenerate (s.step a24 0) := by
  refine ⟨?_, by simp [Rung.step]⟩
  simp only [Rung.step]
  linear_combination ((s.x2 + s.z2) ^ 2 * (s.x2 - s.z2) ^ 2 * 4 *
    ((s.x2 - s.z2) ^ 2 + ((s.x2 + s.z2) ^ 2 - (s.x2 - s.z2) ^ 2) * a24)) * h.1

/-- From the point whose first coordinate is zero every fraction stays zero or infinite. -/
theorem degenerate_ladderRun (a24 : F) (bits : List Bool) :
    Degenerate (ladderRun a24 0 bits) := by
  have hrun : ∀ s : Rung F × Bool, Degenerate s.1 →
      Degenerate (bits.foldl (ladderBit a24 0) s).1 := by
    induction bits with
    | nil => exact fun s h => h
    | cons b bits ih => exact fun s h => ih _ ((h.condSwap _).step a24)
  exact (hrun _ ⟨mul_zero 1, zero_mul 1⟩).condSwap _

end Ladder

section Curve

/-- The curve `y² = x³ + A x² + x`. -/
def curve (A : F) : Affine F where
  a₁ := 0
  a₂ := A
  a₃ := 0
  a₄ := 1
  a₆ := 0

/-- The curve has no singular point, and two is invertible. -/
structure Smooth (A : F) : Prop where
  two_ne_zero : (2 : F) ≠ 0
  sq_ne_four : A ^ 2 ≠ 4

variable {A : F}

theorem equation_iff {x y : F} : (curve A).Equation x y ↔ y ^ 2 = x ^ 3 + A * x ^ 2 + x := by
  rw [Affine.equation_iff]
  simp [curve]

theorem discriminant_ne_zero (hA : Smooth A) : (curve A).Δ ≠ 0 := by
  have h4 : (2 : F) ^ 4 ≠ 0 := pow_ne_zero 4 hA.two_ne_zero
  have hdisc : (curve A).Δ = 2 ^ 4 * (A ^ 2 - 4) := by
    simp only [WeierstrassCurve.Δ, WeierstrassCurve.b₂, WeierstrassCurve.b₄, WeierstrassCurve.b₆,
      WeierstrassCurve.b₈, curve]
    ring
  rw [hdisc]
  exact mul_ne_zero h4 (sub_ne_zero.mpr hA.sq_ne_four)

/-- The first coordinate of a point, zero at infinity. -/
def xCoord : (curve A).Point → F
  | .zero => 0
  | .some x _ _ => x

/-- The fraction `X / Z` is the first coordinate of `P`, infinity for the neutral point. -/
def Projects : (curve A).Point → F → F → Prop
  | .zero, X, Z => X ≠ 0 ∧ Z = 0
  | .some x _ _, X, Z => Z ≠ 0 ∧ X = x * Z

theorem Projects.div_eq {P : (curve A).Point} {X Z : F} (h : Projects P X Z) :
    X * Z⁻¹ = xCoord P := by
  rcases P with _ | ⟨x, y, hxy⟩
  · rw [h.2, inv_zero, mul_zero]
    rfl
  · rw [h.2, mul_assoc, mul_inv_cancel₀ h.1, mul_one]
    rfl

@[simp] theorem xCoord_neg (P : (curve A).Point) : xCoord (-P) = xCoord P := by
  rcases P with _ | ⟨x, y, hxy⟩ <;> rfl

theorem negY_eq (x y : F) : (curve A).negY x y = -y := by
  simp [Affine.negY, curve]

variable [DecidableEq F]

/-- Doubling in the first coordinate. -/
theorem addX_self {x y : F} (h : (curve A).Equation x y) (hy : 2 * y ≠ 0) :
    (curve A).addX x x ((curve A).slope x x y y) * (4 * y ^ 2) = (x ^ 2 - 1) ^ 2 := by
  have hcurve := equation_iff.mp h
  have hneg : y ≠ (curve A).negY x y := by
    rw [negY_eq]
    intro hyy
    exact hy (by linear_combination hyy)
  have hslope : (curve A).slope x x y y * (2 * y) = 3 * x ^ 2 + 2 * A * x + 1 := by
    have hyy : y - (curve A).negY x y = 2 * y := by
      rw [negY_eq]
      ring
    rw [Affine.slope_of_Y_ne rfl hneg, hyy, div_mul_cancel₀ _ hy]
    simp [curve]
  generalize (curve A).slope x x y y = l at hslope
  simp only [Affine.addX, curve]
  linear_combination (l * (2 * y) + (3 * x ^ 2 + 2 * A * x + 1)) * hslope -
    4 * (A + 2 * x) * hcurve

/-- The first coordinates of the sum and of the difference of two points determine each other. -/
theorem addX_mul_addX_neg {x₁ y₁ x₂ y₂ : F} (h₁ : (curve A).Equation x₁ y₁)
    (h₂ : (curve A).Equation x₂ y₂) (hx : x₁ ≠ x₂) :
    (curve A).addX x₁ x₂ ((curve A).slope x₁ x₂ y₁ y₂) *
        (curve A).addX x₂ x₁ ((curve A).slope x₂ x₁ y₂ (-y₁)) * (x₁ - x₂) ^ 2 =
      (x₁ * x₂ - 1) ^ 2 := by
  have e₁ := equation_iff.mp h₁
  have e₂ := equation_iff.mp h₂
  have hd : x₁ - x₂ ≠ 0 := sub_ne_zero.mpr hx
  have hsum : (curve A).slope x₁ x₂ y₁ y₂ * (x₁ - x₂) = y₁ - y₂ := by
    rw [Affine.slope_of_X_ne hx, div_mul_cancel₀ _ hd]
  have hdiff : (curve A).slope x₂ x₁ y₂ (-y₁) * (x₂ - x₁) = y₂ + y₁ := by
    rw [Affine.slope_of_X_ne hx.symm, div_mul_cancel₀ _ (sub_ne_zero.mpr hx.symm), sub_neg_eq_add]
  generalize (curve A).slope x₁ x₂ y₁ y₂ = l at hsum
  generalize (curve A).slope x₂ x₁ y₂ (-y₁) = m at hdiff
  simp only [Affine.addX, curve]
  have hl : (l ^ 2 - A - x₁ - x₂) * (x₁ - x₂) ^ 2 =
      (y₁ - y₂) ^ 2 - (A + x₁ + x₂) * (x₁ - x₂) ^ 2 := by
    linear_combination (l * (x₁ - x₂) + (y₁ - y₂)) * hsum
  have hm : (m ^ 2 - A - x₂ - x₁) * (x₁ - x₂) ^ 2 =
      (y₂ + y₁) ^ 2 - (A + x₁ + x₂) * (x₁ - x₂) ^ 2 := by
    linear_combination (m * (x₂ - x₁) + (y₂ + y₁)) * hdiff
  have hd2 : (x₁ - x₂) ^ 2 ≠ 0 := pow_ne_zero 2 hd
  apply mul_right_cancel₀ hd2
  have key : ((y₁ - y₂) ^ 2 - (A + x₁ + x₂) * (x₁ - x₂) ^ 2) *
      ((y₂ + y₁) ^ 2 - (A + x₁ + x₂) * (x₁ - x₂) ^ 2) = (x₁ * x₂ - 1) ^ 2 * (x₁ - x₂) ^ 2 := by
    linear_combination
      ((y₁ ^ 2 - y₂ ^ 2 + (x₁ ^ 3 + A * x₁ ^ 2 + x₁) - (x₂ ^ 3 + A * x₂ ^ 2 + x₂)) -
        2 * (A + x₁ + x₂) * (x₁ - x₂) ^ 2) * e₁ +
      (-(y₁ ^ 2 - y₂ ^ 2 + (x₁ ^ 3 + A * x₁ ^ 2 + x₁) - (x₂ ^ 3 + A * x₂ ^ 2 + x₂)) -
        2 * (A + x₁ + x₂) * (x₁ - x₂) ^ 2) * e₂
  rw [← key, ← hl, ← hm]
  ring

/-- Doubling a projected point. -/
theorem Projects.double (hA : Smooth A) {P : (curve A).Point} {X Z : F} (h : Projects P X Z) :
    Projects (P + P) ((X ^ 2 - Z ^ 2) ^ 2) (4 * X * Z * (X ^ 2 + A * X * Z + Z ^ 2)) := by
  rcases P with _ | ⟨x, y, hxy⟩
  · obtain ⟨hX, rfl⟩ := h
    change Projects (0 : (curve A).Point) _ _
    exact ⟨by simpa using hX, by ring⟩
  · obtain ⟨hZ, rfl⟩ := h
    have hcurve := equation_iff.mp hxy.1
    have hZ4 : Z ^ 4 ≠ 0 := pow_ne_zero 4 hZ
    by_cases hy : 2 * y = 0
    · have hy0 : y = 0 := (mul_eq_zero.mp hy).resolve_left hA.two_ne_zero
      subst hy0
      rw [Affine.Point.add_self_of_Y_eq (by rw [negY_eq, neg_zero])]
      refine ⟨?_, by linear_combination (-4 * Z ^ 4) * hcurve⟩
      -- A point of order two whose first coordinate is 1 or -1 would make the curve singular.
      intro hX
      have hsq : x ^ 2 = 1 := by
        have h0 : Z ^ 4 * (x ^ 2 - 1) ^ 2 = 0 := by linear_combination hX
        have h1 := (mul_eq_zero.mp h0).resolve_left hZ4
        exact sub_eq_zero.mp (pow_eq_zero_iff two_ne_zero |>.mp h1)
      have hx : x ≠ 0 := by
        rintro rfl
        simp at hsq
      have hAx : A * x = -2 := by
        have h0 : x * (A * x + 2) = 0 := by linear_combination (-1) * hcurve - x * hsq
        linear_combination (mul_eq_zero.mp h0).resolve_left hx
      exact hA.sq_ne_four (by linear_combination (A * x - 2) * hAx - A ^ 2 * hsq)
    · have hne : y ≠ (curve A).negY x y := by
        rw [negY_eq]
        intro hyy
        exact hy (by linear_combination hyy)
      rw [Affine.Point.add_self_of_Y_ne hne]
      have hZ' : 4 * (x * Z) * Z * ((x * Z) ^ 2 + A * (x * Z) * Z + Z ^ 2) =
          Z ^ 4 * (2 * y) ^ 2 := by
        linear_combination (-4 * Z ^ 4) * hcurve
      refine ⟨?_, ?_⟩
      · rw [hZ']
        exact mul_ne_zero hZ4 (pow_ne_zero 2 hy)
      · rw [hZ']
        linear_combination (-Z ^ 4) * addX_self hxy.1 hy

theorem xCoord_sub {x₂ y₂ x₃ y₃ : F} {h₂ : (curve A).Nonsingular x₂ y₂}
    {h₃ : (curve A).Nonsingular x₃ y₃} (hx : x₃ ≠ x₂) :
    xCoord (Affine.Point.some x₃ y₃ h₃ - Affine.Point.some x₂ y₂ h₂) =
      (curve A).addX x₃ x₂ ((curve A).slope x₃ x₂ y₃ (-y₂)) := by
  rw [sub_eq_add_neg, Affine.Point.neg_some, Affine.Point.add_of_X_ne hx]
  change (curve A).addX x₃ x₂ ((curve A).slope x₃ x₂ y₃ ((curve A).negY x₂ y₂)) = _
  rw [negY_eq]

/-- Two points with the same first coordinate, whose difference has a coordinate other than zero:
they are opposite, and the sum is projected to infinity. -/
theorem Projects.add_of_X_eq (hA : Smooth A) {x y₂ y₃ : F} {h₂ : (curve A).Nonsingular x y₂}
    {h₃ : (curve A).Nonsingular x y₃}
    (hP : xCoord (Affine.Point.some x y₃ h₃ - Affine.Point.some x y₂ h₂) ≠ 0) :
    Affine.Point.some x y₃ h₃ = -Affine.Point.some x y₂ h₂ ∧ x ^ 2 - 1 ≠ 0 := by
  rcases Affine.Point.X_eq_iff.mp (rfl : x = x) with heq | hneg
  · rw [heq, sub_self] at hP
    exact absurd rfl hP
  · refine ⟨hneg, fun hx => hP ?_⟩
    have hone : Projects (Affine.Point.some x y₂ h₂) x 1 := ⟨one_ne_zero, (mul_one x).symm⟩
    have hdouble := (hone.double hA).div_eq
    rw [one_pow, hx, zero_pow two_ne_zero, zero_mul] at hdouble
    rw [hneg, ← neg_add', xCoord_neg, ← hdouble]

/-- Adding two projected points whose difference is known. -/
theorem Projects.add (hA : Smooth A) {Q R : (curve A).Point} {X₂ Z₂ X₃ Z₃ : F}
    (hP : xCoord (R - Q) ≠ 0) (hQ : Projects Q X₂ Z₂) (hR : Projects R X₃ Z₃) :
    Projects (Q + R) ((2 * (X₂ * X₃ - Z₂ * Z₃)) ^ 2)
      (xCoord (R - Q) * (2 * (X₃ * Z₂ - Z₃ * X₂)) ^ 2) := by
  have h2 := hA.two_ne_zero
  rcases Q with _ | ⟨x₂, y₂, h₂⟩
  · obtain ⟨hX₂, rfl⟩ := hQ
    rw [← Affine.Point.zero_def, sub_zero] at hP ⊢
    rw [zero_add]
    rcases R with _ | ⟨x₃, y₃, h₃⟩
    · exact absurd rfl hP
    obtain ⟨hZ₃, rfl⟩ := hR
    change x₃ ≠ 0 at hP
    refine ⟨?_, ?_⟩
    · have hprod := mul_ne_zero hZ₃ hX₂
      have hform : x₃ * (2 * (x₃ * Z₃ * 0 - Z₃ * X₂)) ^ 2 = x₃ * (2 * (Z₃ * X₂)) ^ 2 := by ring
      change x₃ * _ ≠ 0
      rw [hform]
      exact mul_ne_zero hP (pow_ne_zero 2 (mul_ne_zero h2 hprod))
    · change _ = x₃ * (x₃ * _)
      ring
  · obtain ⟨hZ₂, rfl⟩ := hQ
    rcases R with _ | ⟨x₃, y₃, h₃⟩
    · obtain ⟨hX₃, rfl⟩ := hR
      rw [← Affine.Point.zero_def, zero_sub, xCoord_neg] at hP ⊢
      rw [add_zero]
      change x₂ ≠ 0 at hP
      refine ⟨?_, ?_⟩
      · have hprod := mul_ne_zero hX₃ hZ₂
        have hform : x₂ * (2 * (X₃ * Z₂ - 0 * (x₂ * Z₂))) ^ 2 = x₂ * (2 * (X₃ * Z₂)) ^ 2 := by ring
        change x₂ * _ ≠ 0
        rw [hform]
        exact mul_ne_zero hP (pow_ne_zero 2 (mul_ne_zero h2 hprod))
      · change _ = x₂ * (x₂ * _)
        ring
    · obtain ⟨hZ₃, rfl⟩ := hR
      have hprod := mul_ne_zero hZ₂ hZ₃
      by_cases hx : x₂ = x₃
      · subst hx
        obtain ⟨hneg, hsq⟩ := Projects.add_of_X_eq hA hP
        rw [hneg, add_neg_cancel]
        refine ⟨?_, by ring⟩
        have hform : x₂ * Z₂ * (x₂ * Z₃) - Z₂ * Z₃ = Z₂ * Z₃ * (x₂ ^ 2 - 1) := by ring
        rw [hform]
        exact pow_ne_zero 2 (mul_ne_zero h2 (mul_ne_zero hprod hsq))
      · rw [xCoord_sub (Ne.symm hx)] at hP ⊢
        rw [Affine.Point.add_of_X_ne hx]
        have hkey := addX_mul_addX_neg h₂.1 h₃.1 hx
        have hd : x₂ - x₃ ≠ 0 := sub_ne_zero.mpr hx
        refine ⟨?_, ?_⟩
        · have hform : 2 * (x₃ * Z₃ * Z₂ - Z₃ * (x₂ * Z₂)) = -(2 * (Z₂ * Z₃ * (x₂ - x₃))) := by ring
          rw [hform, neg_sq]
          exact mul_ne_zero hP (pow_ne_zero 2 (mul_ne_zero h2 (mul_ne_zero hprod hd)))
        · linear_combination (-(2 * (Z₂ * Z₃)) ^ 2) * hkey

end Curve

section Multiples

variable {A : F} [DecidableEq F]

/-- The rung holds the multiples `k` and `k + 1` of a point. -/
def Holds (P : (curve A).Point) (k : ℕ) (s : Rung F) : Prop :=
  Projects (k • P) s.x2 s.z2 ∧ Projects ((k + 1) • P) s.x3 s.z3

/-- One bit of the ladder takes the multiples `k` and `k + 1` to `2 k + b` and the next. -/
theorem Holds.ladderBit (hA : Smooth A) {a24 : F} (h24 : 4 * a24 = A + 2)
    {P : (curve A).Point} (hP : xCoord P ≠ 0) {k : ℕ} {s : Rung F × Bool}
    (h : Holds P k (s.1.condSwap s.2)) (b : Bool) :
    Holds P (2 * k + b.toNat)
      ((ladderBit a24 (xCoord P) s b).1.condSwap (ladderBit a24 (xCoord P) s b).2) := by
  obtain ⟨rung, swapped⟩ := s
  change Holds P _ (((rung.condSwap (swapped ^^ b)).step a24 (xCoord P)).condSwap b)
  rw [← condSwap_condSwap, Rung.step_eq h24]
  simp only at h
  generalize rung.condSwap swapped = r at h
  obtain ⟨hk, hk1⟩ := h
  cases b with
  | false =>
      have hsub : (k + 1) • P - k • P = P := by rw [add_smul, one_smul, add_sub_cancel_left]
      have hadd := Projects.add hA (by rwa [hsub]) hk hk1
      rw [hsub, ← add_smul] at hadd
      refine ⟨?_, ?_⟩
      · rw [Bool.toNat_false, add_zero, two_mul, add_smul]
        exact hk.double hA
      · rw [show 2 * k + false.toNat + 1 = k + (k + 1) by simp; ring]
        exact hadd
  | true =>
      have hsub : k • P - (k + 1) • P = -P := by rw [add_smul, one_smul, sub_add_cancel_left]
      have hadd := Projects.add hA (by rwa [hsub, xCoord_neg]) hk1 hk
      rw [hsub, xCoord_neg, ← add_smul] at hadd
      refine ⟨?_, ?_⟩
      · rw [show 2 * k + true.toNat = k + 1 + k by simp; ring]
        exact hadd
      · rw [show 2 * k + true.toNat + 1 = (k + 1) + (k + 1) by simp; ring, add_smul (k + 1)]
        exact hk1.double hA

theorem Holds.ladderRun (hA : Smooth A) {a24 : F} (h24 : 4 * a24 = A + 2)
    {P : (curve A).Point} (hP : xCoord P ≠ 0) (bits : List Bool) :
    Holds P (bitsValue bits) (ladderRun a24 (xCoord P) bits) := by
  have hrun : ∀ (k : ℕ) (s : Rung F × Bool), Holds P k (s.1.condSwap s.2) →
      Holds P (bits.foldl (fun k b => 2 * k + b.toNat) k)
        ((bits.foldl (MontgomeryLadder.ladderBit a24 (xCoord P)) s).1.condSwap
          (bits.foldl (MontgomeryLadder.ladderBit a24 (xCoord P)) s).2) := by
    induction bits with
    | nil => exact fun k s h => h
    | cons b bits ih => exact fun k s h => ih _ _ (h.ladderBit hA h24 hP b)
  refine hrun 0 _ ⟨?_, ?_⟩
  · rw [zero_smul]
    exact ⟨one_ne_zero, rfl⟩
  · rw [zero_add, one_smul]
    rcases P with _ | ⟨x, y, hxy⟩
    · exact absurd rfl hP
    · exact ⟨one_ne_zero, (mul_one x).symm⟩

theorem xCoord_smul_of_zero {P : (curve A).Point} (hP : xCoord P = 0) (n : ℕ) :
    xCoord (n • P) = 0 := by
  have horder : P + P = 0 := by
    rcases P with _ | ⟨x, y, hxy⟩
    · rfl
    · obtain rfl : x = 0 := hP
      have hy : y = 0 := by simpa using equation_iff.mp hxy.1
      subst hy
      exact Affine.Point.add_self_of_Y_eq (by rw [negY_eq, neg_zero])
  rcases Nat.even_or_odd' n with ⟨m, rfl | rfl⟩
  · rw [mul_comm, mul_smul, two_smul, horder, smul_zero]
    rfl
  · rw [add_smul, mul_comm, mul_smul, two_smul, horder, smul_zero, zero_add, one_smul, hP]

/-- The ladder computes the first coordinate of a multiple. -/
theorem ladder_eq (hA : Smooth A) {a24 : F} (h24 : 4 * a24 = A + 2) (P : (curve A).Point)
    (bits : List Bool) : ladder a24 (xCoord P) bits = xCoord (bitsValue bits • P) := by
  by_cases hP : xCoord P = 0
  · rw [hP, xCoord_smul_of_zero hP]
    unfold ladder
    rcases mul_eq_zero.mp (degenerate_ladderRun a24 bits).1 with h | h
    · rw [h, zero_mul]
    · rw [h, inv_zero, mul_zero]
  · exact (Holds.ladderRun hA h24 hP bits).1.div_eq

end Multiples

section Extension

variable {K : Type v} [Field K]

def Rung.map (φ : F →+* K) (s : Rung F) : Rung K := ⟨φ s.x2, φ s.z2, φ s.x3, φ s.z3⟩

theorem Rung.map_condSwap (φ : F →+* K) (b : Bool) (s : Rung F) :
    (s.condSwap b).map φ = (s.map φ).condSwap b := by
  cases b <;> rfl

theorem Rung.map_step (φ : F →+* K) (a24 x1 : F) (s : Rung F) :
    (s.step a24 x1).map φ = (s.map φ).step (φ a24) (φ x1) := by
  simp [Rung.map, Rung.step]

theorem map_ladderRun (φ : F →+* K) (a24 x1 : F) (bits : List Bool) :
    (ladderRun a24 x1 bits).map φ = ladderRun (φ a24) (φ x1) bits := by
  have hrun : ∀ s : Rung F × Bool,
      (((bits.foldl (ladderBit a24 x1) s).1.map φ, (bits.foldl (ladderBit a24 x1) s).2) :
        Rung K × Bool) = bits.foldl (ladderBit (φ a24) (φ x1)) (s.1.map φ, s.2) := by
    induction bits with
    | nil => exact fun s => rfl
    | cons b bits ih =>
        intro s
        rw [List.foldl_cons, ih, List.foldl_cons]
        simp only [ladderBit, Rung.map_step, Rung.map_condSwap]
  have h := hrun (⟨1, 0, x1, 1⟩, false)
  simp only [Rung.map, map_one, map_zero] at h
  unfold ladderRun
  rw [Rung.map_condSwap, ← h]
  rfl

theorem map_ladder (φ : F →+* K) (a24 x1 : F) (bits : List Bool) :
    φ (ladder a24 x1 bits) = ladder (φ a24) (φ x1) bits := by
  unfold ladder
  rw [← map_ladderRun, map_mul, map_inv₀]
  rfl

theorem Smooth.map {A : F} (hA : Smooth A) (φ : F →+* K) : Smooth (φ A) where
  two_ne_zero := by
    rw [← map_ofNat φ 2]
    exact (map_ne_zero φ).mpr hA.two_ne_zero
  sq_ne_four := by
    rw [← map_ofNat φ 4, ← map_pow]
    exact φ.injective.ne hA.sq_ne_four

/-- Every number is the first coordinate of a point over an algebraically closed field. -/
theorem exists_xCoord [IsAlgClosed K] {A : K} (hA : Smooth A) (x : K) :
    ∃ P : (curve A).Point, xCoord P = x := by
  obtain ⟨y, hy⟩ := IsAlgClosed.exists_pow_nat_eq (x ^ 3 + A * x ^ 2 + x) zero_lt_two
  have heq : (curve A).Equation x y := equation_iff.mpr hy
  have hsmooth : (curve A).Nonsingular x y :=
    (Affine.equation_iff_nonsingular_of_Δ_ne_zero (discriminant_ne_zero hA)).mp heq
  exact ⟨.some x y hsmooth, rfl⟩

/-- The ladder computes multiples of the points over the closure, whatever field its own
coordinates are in. -/
theorem map_ladder_eq [DecidableEq K] {A : F} (hA : Smooth A) {a24 : F} (h24 : 4 * a24 = A + 2)
    (φ : F →+* K) {P : (curve (φ A)).Point} {x : F} (hP : xCoord P = φ x) (bits : List Bool) :
    φ (ladder a24 x bits) = xCoord (bitsValue bits • P) := by
  have h24' : 4 * φ a24 = φ A + 2 := by
    rw [← map_ofNat φ 4, ← map_ofNat φ 2, ← map_mul, ← map_add, h24]
  rw [map_ladder, ← hP, ladder_eq (hA.map φ) h24']

/-- The order of two multiplications does not matter. -/
theorem ladder_comm {A : F} (hA : Smooth A) {a24 : F} (h24 : 4 * a24 = A + 2) (x : F)
    (m n : List Bool) :
    ladder a24 (ladder a24 x m) n = ladder a24 (ladder a24 x n) m := by
  classical
  let φ := algebraMap F (AlgebraicClosure F)
  obtain ⟨P, hP⟩ := exists_xCoord (hA.map φ) (φ x)
  apply φ.injective
  rw [map_ladder_eq hA h24 φ (map_ladder_eq hA h24 φ hP m).symm n,
    map_ladder_eq hA h24 φ (map_ladder_eq hA h24 φ hP n).symm m, smul_comm]

end Extension

end WgNx.MontgomeryLadder
