import Mathlib.Algebra.BigOperators.Group.List.Basic
import Mathlib.Algebra.Order.Group.Int
import Mathlib.Algebra.Ring.Int.Defs
import Mathlib.Tactic.Linarith
import Mathlib.Tactic.NormNum.Basic
import Mathlib.Tactic.Ring

/-!
Signed machine integers whose overflow is undefined.

An operation yields the word of its result on integers where that fits, and nothing
otherwise; what is computed from nothing is nothing.  So a computation that yields a word
has left the range nowhere on its way.  `Within` carries the integer a word stands for
and a bound on it, and one rule for each operation says how bounds combine.
-/

namespace WgNx.SignedWords

section Words

/-- A signed integer of `w` bits, or nothing after an overflow. -/
@[ext] structure SInt (w : ℕ) where
  bits : Option (BitVec w)
  deriving DecidableEq

/-- The word for `v`, which has to fit. -/
def fit (w : ℕ) (v : ℤ) : SInt w :=
  ⟨if -2 ^ w ≤ 2 * v ∧ 2 * v < 2 ^ w then some (BitVec.ofInt w v) else none⟩

namespace SInt

variable {w : ℕ}

instance (n : ℕ) : OfNat (SInt w) n := ⟨fit w n⟩

/-- An operation on the integers the words stand for. -/
def lift (op : ℤ → ℤ → ℤ) (x y : SInt w) : SInt w :=
  ⟨x.bits.bind fun a => y.bits.bind fun b => (fit w (op a.toInt b.toInt)).bits⟩

/-- An operation on the bits of the words, which cannot overflow. -/
def bitwise (op : BitVec w → BitVec w → BitVec w) (x y : SInt w) : SInt w :=
  ⟨x.bits.bind fun a => y.bits.map (op a)⟩

instance : Add (SInt w) := ⟨lift (· + ·)⟩
instance : Sub (SInt w) := ⟨lift (· - ·)⟩
instance : Mul (SInt w) := ⟨lift (· * ·)⟩
instance : Neg (SInt w) := ⟨fun x => 0 - x⟩
instance : XorOp (SInt w) := ⟨bitwise (· ^^^ ·)⟩
instance : AndOp (SInt w) := ⟨bitwise (· &&& ·)⟩
instance : OrOp (SInt w) := ⟨bitwise (· ||| ·)⟩

theorem bits_xor (x y : SInt w) :
    (x ^^^ y).bits = x.bits.bind fun a => y.bits.map (a ^^^ ·) := rfl

theorem bits_and (x y : SInt w) :
    (x &&& y).bits = x.bits.bind fun a => y.bits.map (a &&& ·) := rfl

/-- The shift that keeps the sign. -/
instance : HShiftRight (SInt w) ℕ (SInt w) := ⟨fun x k => ⟨x.bits.map (·.sshiftRight k)⟩⟩

/-- The conversion to another width; the value has to fit there. -/
def cast (v : ℕ) (x : SInt w) : SInt v := ⟨x.bits.bind fun a => (fit v a.toInt).bits⟩

/-- The sum of the products of the pairs, computed at width `v`. -/
def dot (v : ℕ) : List (SInt w × SInt w) → SInt v
  | [] => 0
  | p :: ps => ps.foldl (fun t q => t + q.1.cast v * q.2.cast v) (p.1.cast v * p.2.cast v)

end SInt

end Words

section Bounds

variable {w : ℕ} {x y : SInt w} {a b : ℤ} {A B : ℕ}

/-- The word is defined, stands for `a` and is at most `A` away from zero. -/
def Within (x : SInt w) (a : ℤ) (A : ℕ) : Prop :=
  (∃ u : BitVec w, x.bits = some u ∧ u.toInt = a) ∧ a.natAbs ≤ A

theorem Within.mono (h : Within x a A) (hle : A ≤ B) : Within x a B := ⟨h.1, h.2.trans hle⟩

/-- A word is determined by the integer it stands for. -/
theorem Within.unique (hx : Within x a A) (hy : Within y a B) : x = y := by
  obtain ⟨⟨u, hu, rfl⟩, -⟩ := hx
  obtain ⟨⟨v, hv, hvu⟩, -⟩ := hy
  ext1
  rw [hu, hv, BitVec.eq_of_toInt_eq hvu]

theorem within_fit (ha : a.natAbs ≤ A) (hA : 2 * A < 2 ^ w) : Within (fit w a) a A := by
  have hA' : 2 * (A : ℤ) < 2 ^ w := by exact_mod_cast hA
  have hlo : -2 ^ w ≤ 2 * a := by omega
  have hhi : 2 * a < 2 ^ w := by omega
  refine ⟨⟨BitVec.ofInt w a, if_pos ⟨hlo, hhi⟩, ?_⟩, ha⟩
  rw [BitVec.toInt_ofInt]
  apply Int.bmod_eq_of_le_mul_two
  · push_cast
    linarith
  · push_cast
    linarith

theorem Within.lift {C : ℕ} (op : ℤ → ℤ → ℤ) (hx : Within x a A) (hy : Within y b B)
    (hop : (op a b).natAbs ≤ C) (hC : 2 * C < 2 ^ w) :
    Within (SInt.lift op x y) (op a b) C := by
  obtain ⟨⟨u, hu, rfl⟩, -⟩ := hx
  obtain ⟨⟨v, hv, rfl⟩, -⟩ := hy
  obtain ⟨⟨r, hr, hrv⟩, -⟩ := @within_fit w _ _ hop hC
  refine ⟨⟨r, ?_, hrv⟩, hop⟩
  rw [← hr]
  simp only [SInt.lift, hu, hv, Option.bind_some]

theorem Within.add (hx : Within x a A) (hy : Within y b B) (h : 2 * (A + B) < 2 ^ w) :
    Within (x + y) (a + b) (A + B) :=
  hx.lift _ hy ((Int.natAbs_add_le a b).trans (Nat.add_le_add hx.2 hy.2)) h

theorem Within.sub (hx : Within x a A) (hy : Within y b B) (h : 2 * (A + B) < 2 ^ w) :
    Within (x - y) (a - b) (A + B) :=
  hx.lift _ hy ((Int.natAbs_sub_le a b).trans (Nat.add_le_add hx.2 hy.2)) h

theorem Within.mul (hx : Within x a A) (hy : Within y b B) (h : 2 * (A * B) < 2 ^ w) :
    Within (x * y) (a * b) (A * B) :=
  hx.lift _ hy ((Int.natAbs_mul a b).trans_le (Nat.mul_le_mul hx.2 hy.2)) h

theorem within_ofNat (n : ℕ) (h : 2 * n < 2 ^ w) : Within (OfNat.ofNat n : SInt w) n n :=
  within_fit (Int.natAbs_natCast n).le h

theorem Within.neg (hx : Within x a A) (h : 2 * A < 2 ^ w) : Within (-x) (-a) A := by
  have hzero : Within (0 : SInt w) (0 : ℕ) 0 := within_ofNat 0 (by simp)
  have hneg := hzero.sub hx (by rwa [zero_add])
  rwa [Nat.cast_zero, zero_sub, zero_add] at hneg

theorem Within.cast (hx : Within x a A) {v : ℕ} (h : 2 * A < 2 ^ v) : Within (x.cast v) a A := by
  obtain ⟨⟨u, hu, rfl⟩, hA⟩ := hx
  obtain ⟨⟨r, hr, hrv⟩, -⟩ := @within_fit v _ _ hA h
  refine ⟨⟨r, ?_, hrv⟩, hA⟩
  rw [← hr]
  simp only [SInt.cast, hu, Option.bind_some]

theorem Within.shiftRight (hx : Within x a A) (k : ℕ) {C : ℕ} (hC : (a / 2 ^ k).natAbs ≤ C) :
    Within (x >>> k) (a / 2 ^ k) C := by
  obtain ⟨⟨u, hu, rfl⟩, hA⟩ := hx
  refine ⟨⟨u.sshiftRight k, congrArg (Option.map fun u => u.sshiftRight k) hu, ?_⟩, hC⟩
  rw [BitVec.toInt_sshiftRight, Int.shiftRight_eq_div_pow]
  norm_cast

end Bounds

section SumsOfProducts

variable {v w U V : ℕ}

theorem Within.mul_cast {x y : SInt w} {a b : ℤ} (hx : Within x a U) (hy : Within y b V)
    (hU : 2 * U < 2 ^ v) (hV : 2 * V < 2 ^ v) (hUV : 2 * (U * V) < 2 ^ v) :
    Within (x.cast v * y.cast v) (a * b) (U * V) :=
  (hx.cast hU).mul (hy.cast hV) hUV

/-- The pairs stand for pairs of integers, bounded by `U` and `V`. -/
abbrev Factors (U V : ℕ) : List (SInt w × SInt w) → List (ℤ × ℤ) → Prop :=
  List.Forall₂ fun p q => Within p.1 q.1 U ∧ Within p.2 q.2 V

theorem Factors.cons {x y : SInt w} {a b : ℤ} {ps : List (SInt w × SInt w)} {qs : List (ℤ × ℤ)}
    (hx : Within x a U) (hy : Within y b V) (h : Factors U V ps qs) :
    Factors U V ((x, y) :: ps) ((a, b) :: qs) := List.Forall₂.cons ⟨hx, hy⟩ h

/-- The sum after `n` products, with more to come. -/
theorem within_dotFrom {t : SInt v} {c : ℤ} {n : ℕ} {ps : List (SInt w × SInt w)}
    {qs : List (ℤ × ℤ)} (ht : Within t c (n * (U * V))) (h : Factors U V ps qs)
    (hU : 2 * U < 2 ^ v) (hV : 2 * V < 2 ^ v) (hfits : 2 * ((n + ps.length) * (U * V)) < 2 ^ v) :
    Within (ps.foldl (fun t q => t + q.1.cast v * q.2.cast v) t)
      (c + (qs.map fun q => q.1 * q.2).sum) ((n + ps.length) * (U * V)) := by
  induction h generalizing t c n with
  | nil => simpa using ht
  | @cons p q ps qs hpq hps ih =>
      rw [List.length_cons, Nat.add_comm ps.length, ← Nat.add_assoc] at hfits ⊢
      rw [List.foldl_cons, List.map_cons, List.sum_cons, ← add_assoc]
      refine ih ?_ hfits
      have hone : (n + 1) * (U * V) = n * (U * V) + U * V := by ring
      have hmore : (n + 1) * (U * V) ≤ (n + 1 + ps.length) * (U * V) :=
        Nat.mul_le_mul_right _ (Nat.le_add_right _ _)
      rw [hone]
      exact ht.add (hpq.1.mul_cast hpq.2 hU hV (by omega)) (by omega)

theorem within_dot {ps : List (SInt w × SInt w)} {qs : List (ℤ × ℤ)}
    (h : Factors U V ps qs) (hU : 2 * U < 2 ^ v) (hV : 2 * V < 2 ^ v)
    (hfits : 2 * (ps.length * (U * V)) < 2 ^ v) :
    Within (SInt.dot v ps) (qs.map fun q => q.1 * q.2).sum (ps.length * (U * V)) := by
  cases h with
  | nil => exact (within_ofNat 0 (by simp)).mono (Nat.zero_le _)
  | @cons p q ps qs hpq hps =>
      rw [List.length_cons, Nat.add_comm] at hfits ⊢
      refine within_dotFrom ?_ hps hU hV hfits
      have hmore : 1 * (U * V) ≤ (1 + ps.length) * (U * V) :=
        Nat.mul_le_mul_right _ (Nat.le_add_right _ _)
      rw [one_mul] at hmore ⊢
      exact hpq.1.mul_cast hpq.2 hU hV (by omega)

end SumsOfProducts

end WgNx.SignedWords
