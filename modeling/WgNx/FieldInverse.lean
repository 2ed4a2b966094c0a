import WgNx.AeadNeon
import WgNx.FieldBytes
import Mathlib.NumberTheory.LegendreSymbol.Basic

/-!
Comparison, selection and inversion of field elements.

`fe_invert` goes through the inverse square root: the square of `x` has one, and its
square times `x` is the inverse of `x`, whichever of the two roots was found.
-/

namespace WgNx.FieldInverse

open WgNx.AeadNeon
open WgNx.ByteLayout
open WgNx.Curve25519Prime
open WgNx.FieldBytes
open WgNx.FieldLimbs
open WgNx.SignedWords
open WgNx.WordBytes

section Model

def x32 (a b : Bytes) : UInt64 := x16 a b ||| x16 (a.drop 16) (b.drop 16)

def cryptoVerify32 (a b : Bytes) : Int := neq0 (x32 a b)

/-- `fe_isequal`; bytes that are not defined make the result so. -/
def feIsequal (f g : Fe) : SInt 32 :=
  match feToBytes f, feToBytes g with
  | some fs, some gs => 1 + fit 32 (cryptoVerify32 fs.toList gs.toList)
  | _, _ => ⟨none⟩

/-- What the swap or the copy changes in a limb. -/
def changedBits (mask x y : SInt 32) : SInt 32 := (x ^^^ y) &&& mask

def feCcopy (f g : Fe) (b : SInt 32) : Fe :=
  Vector.zipWith (fun x y => x ^^^ changedBits (-b) x y) f g

def feCswap (f g : Fe) (b : SInt 32) : Fe × Fe :=
  (Vector.zipWith (fun x y => x ^^^ changedBits (-b) x y) f g,
    Vector.zipWith (fun x y => y ^^^ changedBits (-b) x y) f g)

/-- The limbs of a square root of `-1`. -/
def sqrtm1Limbs : Vector ℤ 10 :=
  #v[-32595792, -7943725, 9377950, 3500415, 12389472, -272473, -25146209, -2005654, 326686,
    11406482]

def sqrtm1 : Fe := sqrtm1Limbs.map (fit 32)

/-- `FOR (i, 0, n) { fe_sq(f, f); }` -/
def feSqLoop (n : ℕ) (f : Fe) : Fe := feSq^[n] f

/-- `x` to the power of `(p - 5) / 8`, the chain at the start of `invsqrt`. -/
def powChain (x : Fe) : Fe :=
  let t0 := feSq x
  let t1 := feSq t0; let t1 := feSq t1; let t1 := feMul x t1
  let t0 := feMul t0 t1
  let t0 := feSq t0; let t0 := feMul t1 t0
  let t1 := feSq t0; let t1 := feSqLoop 4 t1; let t0 := feMul t1 t0
  let t1 := feSq t0; let t1 := feSqLoop 9 t1; let t1 := feMul t1 t0
  let t2 := feSq t1; let t2 := feSqLoop 19 t2; let t1 := feMul t2 t1
  let t1 := feSq t1; let t1 := feSqLoop 9 t1; let t0 := feMul t1 t0
  let t1 := feSq t0; let t1 := feSqLoop 49 t1; let t1 := feMul t1 t0
  let t2 := feSq t1; let t2 := feSqLoop 99 t2; let t1 := feMul t2 t1
  let t1 := feSq t1; let t1 := feSqLoop 49 t1; let t0 := feMul t1 t0
  let t0 := feSq t0; let t0 := feSqLoop 1 t0; feMul t0 x

/-- The root and whether there is one. -/
def invsqrt (x : Fe) : Fe × SInt 32 :=
  let t0 := powChain x
  let quartic := feSq t0
  let quartic := feMul quartic x
  let z0 := feIsequal x fe0
  let p1 := feIsequal quartic fe1
  let m1 := feIsequal quartic (feNeg fe1)
  let ms := feIsequal quartic (feNeg sqrtm1)
  let isr := feMul t0 sqrtm1
  (feCcopy isr t0 (1 - (m1 ||| ms)), p1 ||| m1 ||| z0)

def feInvert (x : Fe) : Fe :=
  let tmp := feSq x
  let tmp := (invsqrt tmp).1
  let tmp := feSq tmp
  feMul tmp x

end Model

section Comparison

/-- An `int` that is one or zero. -/
def flag (b : Bool) : SInt 32 := if b then 1 else 0

theorem load64Le_take (p : Bytes) {off n : ℕ} (h : off + 8 ≤ n) :
    load64Le (p.take n) off = load64Le p off := by
  unfold load64Le
  rw [load32Le_take p (by omega), load32Le_take p (by omega)]

theorem x32_eq_zero_iff {a b : Bytes} (ha : a.length = 32) (hb : b.length = 32) :
    x32 a b = 0 ↔ a = b := by
  have hfirst : x16 (a.take 16) (b.take 16) = x16 a b := by
    unfold x16
    rw [load64Le_take a (by decide), load64Le_take b (by decide), load64Le_take a (by decide),
      load64Le_take b (by decide)]
  unfold x32
  rw [UInt64.or_eq_zero_iff, ← hfirst, x16_eq_zero_iff (by simp [ha]) (by simp [hb]),
    x16_eq_zero_iff (by simp [ha]) (by simp [hb])]
  constructor
  · rintro ⟨htake, hdrop⟩
    rw [← List.take_append_drop 16 a, htake, hdrop, List.take_append_drop]
  · rintro rfl
    exact ⟨rfl, rfl⟩

theorem cryptoVerify32_eq {a b : Bytes} (ha : a.length = 32) (hb : b.length = 32) :
    cryptoVerify32 a b = if a = b then 0 else -1 := by
  unfold cryptoVerify32
  rw [neq0_eq]
  simp only [x32_eq_zero_iff ha hb]

variable {f g : Fe} {x y : Fp}

theorem feIsequal_eq (hf : Represents 1 f x) (hg : Represents 1 g y) :
    feIsequal f g = flag (decide (x = y)) := by
  have hinj := feToBytes_inj hf hg
  rw [feToBytes_eq hf, feToBytes_eq hg, Option.some.injEq, ← Vector.toList_inj] at hinj
  unfold feIsequal
  rw [feToBytes_eq hf, feToBytes_eq hg]
  dsimp only
  rw [cryptoVerify32_eq (Vector.length_toList ..) (Vector.length_toList ..)]
  by_cases hxy : x = y
  · rw [if_pos (hinj.mpr hxy), decide_eq_true hxy]
    decide
  · rw [if_neg fun h => hxy (hinj.mp h), decide_eq_false hxy]
    decide

end Comparison

section Selection

theorem bits_neg_flag (b : Bool) : (-flag b).bits = some (if b then -1 else 0) := by
  cases b <;> decide

/-- A mask of ones exchanges the words, a mask of zeros leaves them. -/
theorem xor_changedBits {x y : SInt 32} {u v : BitVec 32} (hx : x.bits = some u)
    (hy : y.bits = some v) (b : Bool) :
    x ^^^ changedBits (-flag b) x y = (if b then y else x) ∧
      y ^^^ changedBits (-flag b) x y = (if b then x else y) := by
  have hmask := bits_neg_flag b
  have hchanged : (changedBits (-flag b) x y).bits =
      some ((u ^^^ v) &&& (if b then -1 else 0)) := by
    rw [changedBits, SInt.bits_and, SInt.bits_xor, hx, hy, hmask]
    rfl
  have hxor : ∀ {z c : SInt 32} {p q : BitVec 32}, z.bits = some p → c.bits = some q →
      (z ^^^ c).bits = some (p ^^^ q) := by
    intro z c p q hz hc
    rw [SInt.bits_xor, hz, hc]
    rfl
  have hones : ∀ w : BitVec 32, w &&& (-1) = w := fun w => BitVec.and_allOnes
  cases b with
  | false =>
      refine ⟨SInt.ext ?_, SInt.ext ?_⟩
      · rw [hxor hx hchanged]
        simp [hx]
      · rw [hxor hy hchanged]
        simp [hy]
  | true =>
      refine ⟨SInt.ext ?_, SInt.ext ?_⟩
      · rw [hxor hx hchanged, if_pos rfl, hones, ← BitVec.xor_assoc, BitVec.xor_self,
          BitVec.zero_xor, if_pos rfl, hy]
      · rw [hxor hy hchanged, if_pos rfl, hones, BitVec.xor_comm u, ← BitVec.xor_assoc,
          BitVec.xor_self, BitVec.zero_xor, if_pos rfl, hx]

variable {k : ℕ} {f g : Fe} {x y : Fp}

theorem Represents.bits (h : Represents k f x) (i : Fin 10) :
    ∃ u, (f.get i).bits = some u := by
  obtain ⟨l, hl, -⟩ := h
  obtain ⟨⟨u, hu, -⟩, -⟩ := hl i
  exact ⟨u, hu⟩

theorem feCcopy_eq (hf : Represents k f x) (hg : Represents k g y) (b : Bool) :
    feCcopy f g (flag b) = if b then g else f := by
  refine Vector.ext fun i hi => ?_
  obtain ⟨u, hu⟩ := Represents.bits hf ⟨i, hi⟩
  obtain ⟨v, hv⟩ := Represents.bits hg ⟨i, hi⟩
  have hword := (xor_changedBits hu hv b).1
  change (feCcopy f g (flag b)).get ⟨i, hi⟩ = Vector.get _ ⟨i, hi⟩
  rw [feCcopy, get_zipWith, hword]
  cases b <;> rfl

theorem feCswap_eq (hf : Represents k f x) (hg : Represents k g y) (b : Bool) :
    feCswap f g (flag b) = if b then (g, f) else (f, g) := by
  have hfst : (feCswap f g (flag b)).1 = if b then g else f := feCcopy_eq hf hg b
  have hsnd : (feCswap f g (flag b)).2 = if b then f else g := by
    refine Vector.ext fun i hi => ?_
    obtain ⟨u, hu⟩ := Represents.bits hf ⟨i, hi⟩
    obtain ⟨v, hv⟩ := Represents.bits hg ⟨i, hi⟩
    have hword := (xor_changedBits hu hv b).2
    change (feCswap f g (flag b)).2.get ⟨i, hi⟩ = Vector.get _ ⟨i, hi⟩
    rw [feCswap, get_zipWith, hword]
    cases b <;> rfl
  cases b <;> exact Prod.ext hfst hsnd

end Selection

section Powers

variable {f g : Fe} {x : Fp} {m n : ℕ}

theorem sq_pow (h : Represents 1 f (x ^ n)) : Represents 1 (feSq f) (x ^ (2 * n)) := by
  rw [mul_comm, pow_mul]
  exact (h.mono (by decide)).sq

theorem sqLoop_pow (k : ℕ) (h : Represents 1 f (x ^ n)) :
    Represents 1 (feSqLoop k f) (x ^ (2 ^ k * n)) := by
  induction k generalizing f n with
  | zero =>
      rw [pow_zero, one_mul]
      exact h
  | succ k ih =>
      rw [pow_succ, mul_assoc]
      exact ih (sq_pow h)

theorem mul_pow' (hf : Represents 1 f (x ^ m)) (hg : Represents 1 g (x ^ n)) :
    Represents 1 (feMul f g) (x ^ (m + n)) := by
  rw [pow_add]
  exact (hf.mono (by decide)).mul (hg.mono (by decide))

theorem represents_powChain (h : Represents 1 f x) :
    Represents 1 (powChain f) (x ^ (2 ^ 252 - 3)) := by
  have hx : Represents 1 f (x ^ 1) := by rwa [pow_one]
  have s0 := sq_pow hx
  have s1 := mul_pow' hx (sq_pow (sq_pow s0))
  have s2 := mul_pow' s0 s1
  have s3 := mul_pow' s1 (sq_pow s2)
  have s4 := mul_pow' (sqLoop_pow 4 (sq_pow s3)) s3
  have s5 := mul_pow' (sqLoop_pow 9 (sq_pow s4)) s4
  have s6 := mul_pow' (sqLoop_pow 19 (sq_pow s5)) s5
  have s7 := mul_pow' (sqLoop_pow 9 (sq_pow s6)) s4
  have s8 := mul_pow' (sqLoop_pow 49 (sq_pow s7)) s7
  have s9 := mul_pow' (sqLoop_pow 99 (sq_pow s8)) s8
  have s10 := mul_pow' (sqLoop_pow 49 (sq_pow s9)) s7
  have s11 := mul_pow' (sqLoop_pow 1 (sq_pow s10)) hx
  exact (congrArg (fun n => Represents 1 (powChain f) (x ^ n)) (by norm_num)).mp s11

/-- The element that the limbs of `sqrtm1` stand for. -/
def sqrtMinusOne : Fp := ((limbValue sqrtm1Limbs.get : ℤ) : Fp)

theorem sqrtMinusOne_sq : sqrtMinusOne ^ 2 = -1 := by
  have hvalue : limbValue sqrtm1Limbs.get =
      (-32595792) + (-7943725) * 2 ^ 26 + 9377950 * 2 ^ 51 + 3500415 * 2 ^ 77 + 12389472 * 2 ^ 102 +
        (-272473) * 2 ^ 128 + (-25146209) * 2 ^ 153 + (-2005654) * 2 ^ 179 + 326686 * 2 ^ 204 +
        11406482 * 2 ^ 230 := limbValue_eq _
  have hdvd : (modulus : ℤ) ∣ limbValue sqrtm1Limbs.get ^ 2 + 1 := by
    rw [hvalue]
    norm_num [modulus]
  rw [← ZMod.intCast_zmod_eq_zero_iff_dvd] at hdvd
  push_cast at hdvd
  unfold sqrtMinusOne
  linear_combination hdvd

theorem represents_sqrtm1 : Represents 1 sqrtm1 sqrtMinusOne := by
  refine ⟨sqrtm1Limbs.get, fun i => ?_, rfl⟩
  have hle := carried_le i
  rw [sqrtm1, get_map]
  refine within_fit ?_ (by dsimp only; omega)
  revert i
  decide

end Powers

section InverseRoot

variable {f : Fe} {x : Fp}

theorem flag_or (a b : Bool) : flag a ||| flag b = flag (a || b) := by
  cases a <;> cases b <;> decide

theorem one_sub_flag (b : Bool) : 1 - flag b = flag (!b) := by
  cases b <;> decide

theorem neg_one_ne_one : (-1 : Fp) ≠ 1 := by
  have : Fact (2 < modulus) := ⟨by norm_num [modulus]⟩
  exact ZMod.neg_one_ne_one

/-- The fourth root of one that `invsqrt` looks at: plus or minus one for squares, a square root of
minus one for the others. -/
theorem quartic_cases (hx : x ≠ 0) {t : Fp} (ht : t = x ^ (2 ^ 252 - 3)) :
    (IsSquare x ∧ (t ^ 2 * x = 1 ∨ t ^ 2 * x = -1)) ∨
      (¬IsSquare x ∧ (t ^ 2 * x = sqrtMinusOne ∨ t ^ 2 * x = -sqrtMinusOne)) := by
  have heuler := ZMod.euler_criterion modulus hx
  have hhalf : x ^ (modulus / 2) = (t ^ 2 * x) ^ 2 := by
    rw [ht, ← pow_mul, ← pow_succ, ← pow_mul]
    congr 1
  have hone : ((t ^ 2 * x) ^ 2) ^ 2 = 1 ^ 2 := by
    rw [one_pow, ← ZMod.pow_card_sub_one_eq_one hx, ← hhalf, ← pow_mul]
    congr 1
  rw [hhalf] at heuler
  generalize t ^ 2 * x = q at heuler hone
  rcases sq_eq_sq_iff_eq_or_eq_neg.mp hone with hplus | hminus
  · refine .inl ⟨heuler.mpr hplus, ?_⟩
    rw [← one_pow 2] at hplus
    exact sq_eq_sq_iff_eq_or_eq_neg.mp hplus
  · refine .inr ⟨fun hsquare => neg_one_ne_one ?_, ?_⟩
    · rw [← hminus, heuler.mp hsquare]
    · rw [← sqrtMinusOne_sq] at hminus
      exact sq_eq_sq_iff_eq_or_eq_neg.mp hminus

/-- The outcome of `invsqrt` in terms of the power `t` it computes. -/
theorem invsqrt_eq {t : Fp} (h : Represents 1 f x) (ht : Represents 1 (powChain f) t) :
    (invsqrt f).2 =
        flag (decide (t ^ 2 * x = 1) || decide (t ^ 2 * x = -1) || decide (x = 0)) ∧
      Represents 1 (invsqrt f).1
        (if t ^ 2 * x = -1 ∨ t ^ 2 * x = -sqrtMinusOne then t * sqrtMinusOne else t) := by
  have h3 : (1 : ℕ) ≤ 3 := by decide
  have hquartic := ((ht.mono h3).sq.mono h3).mul (h.mono h3)
  have hone := represents_fe1.neg h3
  have hroot := represents_sqrtm1.neg h3
  have hisr := (ht.mono h3).mul (represents_sqrtm1.mono h3)
  generalize t ^ 2 * x = q at hquartic
  refine ⟨?_, ?_⟩
  · rw [← flag_or, ← flag_or, ← feIsequal_eq hquartic represents_fe1,
      ← feIsequal_eq hquartic hone, ← feIsequal_eq h represents_fe0]
    rfl
  · have hfst : (invsqrt f).1 =
        if !(decide (q = -1) || decide (q = -sqrtMinusOne)) then powChain f
        else feMul (powChain f) sqrtm1 := by
      rw [← feCcopy_eq hisr ht, ← one_sub_flag, ← flag_or, ← feIsequal_eq hquartic hone,
        ← feIsequal_eq hquartic hroot]
      rfl
    rw [hfst]
    by_cases hq : q = -1 ∨ q = -sqrtMinusOne
    · rw [if_pos hq, if_neg (by simpa [or_iff_not_imp_left] using hq)]
      exact hisr
    · rw [if_neg hq, if_pos (by simpa using hq)]
      exact ht

theorem sqrtMinusOne_ne : sqrtMinusOne ≠ 1 ∧ sqrtMinusOne ≠ -1 ∧ sqrtMinusOne ≠ -sqrtMinusOne := by
  have hsq := sqrtMinusOne_sq
  refine ⟨fun h => ?_, fun h => ?_, fun h => ?_⟩
  · rw [h, one_pow] at hsq
    exact neg_one_ne_one hsq.symm
  · rw [h, neg_one_sq] at hsq
    exact neg_one_ne_one hsq.symm
  · exact neg_one_ne_one (by linear_combination sqrtMinusOne * h - 2 * hsq)

/-- `invsqrt` decides whether its argument is a square, and its root squared is the inverse of the
argument, times a square root of minus one if the argument is not a square. -/
theorem invsqrt_spec (h : Represents 1 f x) :
    ∃ (r : Fp) (b : Bool), Represents 1 (invsqrt f).1 r ∧ (invsqrt f).2 = flag b ∧
      (b = true ↔ IsSquare x) ∧ (x ≠ 0 → r ^ 2 * x = if b then 1 else sqrtMinusOne) := by
  have hpow := represents_powChain h
  obtain ⟨t, ht⟩ : ∃ t, t = x ^ (2 ^ 252 - 3) := ⟨_, rfl⟩
  rw [← ht] at hpow
  obtain ⟨hflag, hroot⟩ := invsqrt_eq h hpow
  refine ⟨_, _, hroot, hflag, ?_⟩
  by_cases hx : x = 0
  · simp [hx]
  obtain ⟨hone, hminus, hself⟩ := sqrtMinusOne_ne
  have hneg := neg_one_ne_one
  have hopp : (1 : Fp) ≠ -sqrtMinusOne := fun h => hminus (by rw [h, neg_neg])
  -- The factor that `invsqrt` picks turns the fourth root of one into one or a root of minus one.
  have hpick : (if t ^ 2 * x = -1 ∨ t ^ 2 * x = -sqrtMinusOne then t * sqrtMinusOne else t) ^ 2 *
      x = if t ^ 2 * x = -1 ∨ t ^ 2 * x = -sqrtMinusOne then -(t ^ 2 * x) else t ^ 2 * x := by
    split
    · linear_combination (t ^ 2 * x) * sqrtMinusOne_sq
    · rfl
  rw [hpick]
  rcases quartic_cases hx ht with ⟨hsquare, hq | hq⟩ | ⟨hsquare, hq | hq⟩ <;> rw [hq]
  · simp [hsquare, hneg.symm, hopp]
  · simp [hsquare]
  · simp [hsquare, hx, hone, hminus, hself]
  · simp [hsquare, hx, hone, hopp.symm]

/-- Inversion by way of the inverse root of the square; zero goes to zero. -/
theorem represents_feInvert (h : Represents 3 f x) : Represents 1 (feInvert f) x⁻¹ := by
  have h3 : (1 : ℕ) ≤ 3 := by decide
  obtain ⟨r, b, hroot, -, hb, hr⟩ := invsqrt_spec h.sq
  obtain rfl := hb.mpr ⟨x, sq x⟩
  have hinv := ((hroot.mono h3).sq.mono h3).mul h
  suffices r ^ 2 * x = x⁻¹ by rwa [this] at hinv
  by_cases hx : x = 0
  · simp [hx]
  · have hone := hr (pow_ne_zero 2 hx)
    rw [if_pos rfl] at hone
    exact eq_inv_of_mul_eq_one_left (by linear_combination hone)

end InverseRoot

end WgNx.FieldInverse
