import Mathlib.Tactic.IntervalCases
import Mathlib.Tactic.Ring
import WgNx.PolyHash
import WgNx.WordArith

/-!
Poly1305 with five limbs of 26 bits.

The products of a block are sums of five terms below 2^57, so nothing is lost in 64
bits.  Between blocks all limbs but the second are below 2^26, and the second is at
most a few thousand above it.
-/

namespace WgNx.PolyNeon

open WgNx.BlockFeed
open WgNx.ByteLayout
open WgNx.PolyHash
open WgNx.WordArith
open WgNx.WordBytes

section Model

structure Limbs where
  h0 : UInt32
  h1 : UInt32
  h2 : UInt32
  h3 : UInt32
  h4 : UInt32

/-- The buffer holds `buf_len` bytes. -/
structure WgPoly1305Ctx where
  r : Limbs
  s : Quad
  acc : Limbs
  buf : Bytes

/-- The bytes of a key with some bits cleared. -/
def clampBytes (key : Bytes) : Bytes :=
  let r := key.take 16
  let r := r.modify 3 (· &&& 0x0f)
  let r := r.modify 7 (· &&& 0x0f)
  let r := r.modify 11 (· &&& 0x0f)
  let r := r.modify 15 (· &&& 0x0f)
  let r := r.modify 4 (· &&& 0xfc)
  let r := r.modify 8 (· &&& 0xfc)
  r.modify 12 (· &&& 0xfc)

/-- The limbs of four words, with a bit behind the last one. -/
def splitQuad (t : Quad) (hibit : UInt32) : Limbs where
  h0 := t.w0 &&& 0x3ffffff
  h1 := ((t.w0 >>> 26) ||| (t.w1 <<< 6)) &&& 0x3ffffff
  h2 := ((t.w1 >>> 20) ||| (t.w2 <<< 12)) &&& 0x3ffffff
  h3 := ((t.w2 >>> 14) ||| (t.w3 <<< 18)) &&& 0x3ffffff
  h4 := (t.w3 >>> 8) ||| (hibit <<< 24)

def wgPoly1305Init (key : Bytes) : WgPoly1305Ctx :=
  let t := loadQuad (clampBytes key)
  { r := { splitQuad t 0 with h4 := t.w3 >>> 8 }
    s := loadQuad (key.drop 16)
    acc := ⟨0, 0, 0, 0, 0⟩
    buf := [] }

/-- `uint32x2_t` and `uint64x2_t` -/
def vdupNU32 (x : UInt32) : UInt32 × UInt32 := (x, x)

def vmullU32 (a b : UInt32 × UInt32) : UInt64 × UInt64 :=
  (a.1.toUInt64 * b.1.toUInt64, a.2.toUInt64 * b.2.toUInt64)

def vmlalU32 (d : UInt64 × UInt64) (a b : UInt32 × UInt32) : UInt64 × UInt64 :=
  (d.1 + a.1.toUInt64 * b.1.toUInt64, d.2 + a.2.toUInt64 * b.2.toUInt64)

/-- One `vmull_u32` and four `vmlal_u32`, and lane 0 of the result. -/
def dotProduct (a b : Limbs) : UInt64 :=
  let d := vmullU32 (vdupNU32 a.h0) (vdupNU32 b.h0)
  let d := vmlalU32 d (vdupNU32 a.h1) (vdupNU32 b.h1)
  let d := vmlalU32 d (vdupNU32 a.h2) (vdupNU32 b.h2)
  let d := vmlalU32 d (vdupNU32 a.h3) (vdupNU32 b.h3)
  let d := vmlalU32 d (vdupNU32 a.h4) (vdupNU32 b.h4)
  d.1

/-- `c = lo >> 26; lo &= 0x3ffffff; hi += c;` -/
def carry (lo hi : UInt64) : UInt64 × UInt64 := (lo &&& 0x3ffffff, hi + lo >>> 26)

/-- The carries behind the products of a block. -/
def carryProducts (h0 h1 h2 h3 h4 : UInt64) : Limbs :=
  let (h0, h1) := carry h0 h1
  let (h1, h2) := carry h1 h2
  let (h2, h3) := carry h2 h3
  let (h3, h4) := carry h3 h4
  let c := h4 >>> 26
  let h4 := h4 &&& 0x3ffffff
  let h0 := h0 + c * 5
  let (h0, h1) := carry h0 h1
  ⟨h0.toUInt32, h1.toUInt32, h2.toUInt32, h3.toUInt32, h4.toUInt32⟩

/-- The limbs of the accumulator plus those of a block. -/
def addLimbs (acc t : Limbs) : Limbs where
  h0 := (acc.h0.toUInt64 + t.h0.toUInt64).toUInt32
  h1 := (acc.h1.toUInt64 + t.h1.toUInt64).toUInt32
  h2 := (acc.h2.toUInt64 + t.h2.toUInt64).toUInt32
  h3 := (acc.h3.toUInt64 + t.h3.toUInt64).toUInt32
  h4 := (acc.h4.toUInt64 + t.h4.toUInt64).toUInt32

def poly1305BlockNeon (r acc : Limbs) (data : Bytes) (hibit : UInt32) : Limbs :=
  let a := addLimbs acc (splitQuad (loadQuad data) hibit)
  let s1 := r.h1 * 5
  let s2 := r.h2 * 5
  let s3 := r.h3 * 5
  let s4 := r.h4 * 5
  carryProducts
    (dotProduct a ⟨r.h0, s4, s3, s2, s1⟩)
    (dotProduct a ⟨r.h1, r.h0, s4, s3, s2⟩)
    (dotProduct a ⟨r.h2, r.h1, r.h0, s4, s3⟩)
    (dotProduct a ⟨r.h3, r.h2, r.h1, r.h0, s4⟩)
    (dotProduct a ⟨r.h4, r.h3, r.h2, r.h1, r.h0⟩)

/-- The loop over whole blocks, and the rest into the buffer. -/
def updateBlocks (ctx : WgPoly1305Ctx) (data : Bytes) : WgPoly1305Ctx :=
  let fed := feed blockBytes_pos
    (fun acc block => poly1305BlockNeon ctx.r acc block 1) ctx.acc data
  { ctx with acc := fed.1, buf := fed.2 }

def wgPoly1305Update (ctx : WgPoly1305Ctx) (data : Bytes) : WgPoly1305Ctx :=
  if ctx.buf.length > 0 then
    let want := 16 - ctx.buf.length
    if data.length < want then { ctx with buf := ctx.buf ++ data }
    else
      updateBlocks
        { ctx with
          acc := poly1305BlockNeon ctx.r ctx.acc (ctx.buf ++ data.take want) 1
          buf := [] }
        (data.drop want)
  else updateBlocks ctx data

/-- `c = lo >> 26; lo &= 0x3ffffff; hi += c;` -/
def carry32 (lo hi : UInt32) : UInt32 × UInt32 := (lo &&& 0x3ffffff, hi + lo >>> 26)

/-- The carries at the end of the message. -/
def carryLimbs (h : Limbs) : Limbs :=
  let (h1, h2) := carry32 h.h1 h.h2
  let (h2, h3) := carry32 h2 h.h3
  let (h3, h4) := carry32 h3 h.h4
  let c := h4 >>> 26
  let h4 := h4 &&& 0x3ffffff
  let h0 := h.h0 + c * 5
  let (h0, h1) := carry32 h0 h1
  ⟨h0, h1, h2, h3, h4⟩

/-- The limbs of `h + 5 - 2^130`; the last one is negative if this is. -/
def subtractPrime (h : Limbs) : Limbs :=
  let (g0, g1) := carry32 (h.h0 + 5) h.h1
  let (g1, g2) := carry32 g1 h.h2
  let (g2, g3) := carry32 g2 h.h3
  let (g3, g4) := carry32 g3 h.h4
  ⟨g0, g1, g2, g3, g4 - ((1 : UInt32) <<< 26)⟩

/-- Takes `g` unless its last limb is negative. -/
def selectLimbs (h g : Limbs) : Limbs :=
  let mask := (g.h4 >>> 31) - 1
  ⟨(h.h0 &&& ~~~mask) ||| (g.h0 &&& mask), (h.h1 &&& ~~~mask) ||| (g.h1 &&& mask),
    (h.h2 &&& ~~~mask) ||| (g.h2 &&& mask), (h.h3 &&& ~~~mask) ||| (g.h3 &&& mask),
    (h.h4 &&& ~~~mask) ||| (g.h4 &&& mask)⟩

/-- The sum with the second half of the key. -/
def addPad (h : Limbs) (s : Quad) : Bytes :=
  let f0 := (h.h0.toUInt64 ||| h.h1.toUInt64 <<< 26) + s.w0.toUInt64
  let f1 := h.h2.toUInt64 <<< 20 + s.w1.toUInt64
  let f2 := h.h3.toUInt64 <<< 14 + s.w2.toUInt64
  let f3 := h.h4.toUInt64 <<< 8 + s.w3.toUInt64
  let f1 := f1 + f0 >>> 32
  let f0 := f0 &&& 0xffffffff
  let f2 := f2 + f1 >>> 32
  let f1 := f1 &&& 0xffffffff
  let f3 := f3 + f2 >>> 32
  let f2 := f2 &&& 0xffffffff
  store32Le f0.toUInt32 ++ store32Le f1.toUInt32 ++ store32Le f2.toUInt32 ++
    store32Le f3.toUInt32

def wgPoly1305Final (ctx : WgPoly1305Ctx) : Bytes :=
  let acc :=
    if ctx.buf.length > 0 then
      poly1305BlockNeon ctx.r ctx.acc
        (ctx.buf ++ [1] ++ List.replicate (16 - ctx.buf.length - 1) 0) 0
    else ctx.acc
  let h := carryLimbs acc
  addPad (selectLimbs h (subtractPrime h)) ctx.s

end Model

section Split

def Limbs.value (h : Limbs) : Nat :=
  h.h0.toNat + 2 ^ 26 * h.h1.toNat + 2 ^ 52 * h.h2.toNat + 2 ^ 78 * h.h3.toNat +
    2 ^ 104 * h.h4.toNat

/-- All limbs are below a bound. -/
structure Limbs.Bounded (h : Limbs) (bound : Nat) : Prop where
  h0 : h.h0.toNat < bound
  h1 : h.h1.toNat < bound
  h2 : h.h2.toNat < bound
  h3 : h.h3.toNat < bound
  h4 : h.h4.toNat < bound

theorem Limbs.Bounded.mono {h : Limbs} {bound bound' : Nat} (hb : h.Bounded bound)
    (hle : bound ≤ bound') : h.Bounded bound' :=
  ⟨Nat.lt_of_lt_of_le hb.h0 hle, Nat.lt_of_lt_of_le hb.h1 hle, Nat.lt_of_lt_of_le hb.h2 hle,
    Nat.lt_of_lt_of_le hb.h3 hle, Nat.lt_of_lt_of_le hb.h4 hle⟩

/-- The second limb may be a little longer. -/
structure Limbs.Loose (h : Limbs) : Prop where
  h0 : h.h0.toNat < 2 ^ 26
  h1 : h.h1.toNat < 2 ^ 26 + 2 ^ 11
  h2 : h.h2.toNat < 2 ^ 26
  h3 : h.h3.toNat < 2 ^ 26
  h4 : h.h4.toNat < 2 ^ 26

theorem toNat_mask32 (x : UInt32) : (x &&& 0x3ffffff).toNat = x.toNat % 2 ^ 26 := by
  rw [UInt32.toNat_and]
  exact Nat.and_two_pow_sub_one_eq_mod x.toNat 26

theorem toNat_mask64 (x : UInt64) : (x &&& 0x3ffffff).toNat = x.toNat % 2 ^ 26 := by
  rw [UInt64.toNat_and]
  exact Nat.and_two_pow_sub_one_eq_mod x.toNat 26

/-- The end of one word and the beginning of the next. -/
theorem toNat_join (x y a b : UInt32) (hab : a.toNat + b.toNat = 32) (ha : 0 < a.toNat)
    (hb : 0 < b.toNat) :
    ((x >>> a) ||| (y <<< b)).toNat =
      x.toNat / 2 ^ a.toNat + 2 ^ b.toNat * (y.toNat % 2 ^ a.toNat) := by
  have hx := x.toNat_lt
  have hpow : 2 ^ 32 = 2 ^ a.toNat * 2 ^ b.toNat := by
    rw [← Nat.pow_add, hab]
  have hlow : x.toNat / 2 ^ a.toNat < 2 ^ b.toNat := by
    apply Nat.div_lt_of_lt_mul
    rw [← hpow]
    exact hx
  have hshift : (y <<< b).toNat = 2 ^ b.toNat * (y.toNat % 2 ^ a.toNat) := by
    rw [UInt32.toNat_shiftLeft, Nat.mod_eq_of_lt (show b.toNat < 32 by omega), Nat.shiftLeft_eq,
      hpow, Nat.mul_mod_mul_right, Nat.mul_comm]
  rw [UInt32.toNat_or, hshift, toNat_shiftRight32 x a (by omega), or_mul_two_pow hlow]

theorem splitQuad_eq (t : Quad) {hibit : UInt32} (hbit : hibit.toNat ≤ 1) :
    (splitQuad t hibit).value = t.value + 2 ^ 128 * hibit.toNat ∧
      (splitQuad t hibit).Bounded (2 ^ 26) := by
  have h0 := t.w0.toNat_lt
  have h1 := t.w1.toNat_lt
  have h2 := t.w2.toNat_lt
  have h3 := t.w3.toNat_lt
  have e0 : (splitQuad t hibit).h0.toNat = t.w0.toNat % 2 ^ 26 := toNat_mask32 _
  have e1 : (splitQuad t hibit).h1.toNat =
      (t.w0.toNat / 2 ^ 26 + 2 ^ 6 * (t.w1.toNat % 2 ^ 26)) % 2 ^ 26 :=
    (toNat_mask32 _).trans (congrArg (· % 2 ^ 26)
      (toNat_join t.w0 t.w1 26 6 (by decide) (by decide) (by decide)))
  have e2 : (splitQuad t hibit).h2.toNat =
      (t.w1.toNat / 2 ^ 20 + 2 ^ 12 * (t.w2.toNat % 2 ^ 20)) % 2 ^ 26 :=
    (toNat_mask32 _).trans (congrArg (· % 2 ^ 26)
      (toNat_join t.w1 t.w2 20 12 (by decide) (by decide) (by decide)))
  have e3 : (splitQuad t hibit).h3.toNat =
      (t.w2.toNat / 2 ^ 14 + 2 ^ 18 * (t.w3.toNat % 2 ^ 14)) % 2 ^ 26 :=
    (toNat_mask32 _).trans (congrArg (· % 2 ^ 26)
      (toNat_join t.w2 t.w3 14 18 (by decide) (by decide) (by decide)))
  have e4 : (splitQuad t hibit).h4.toNat =
      t.w3.toNat / 2 ^ 8 + 2 ^ 24 * (hibit.toNat % 2 ^ 8) :=
    toNat_join t.w3 hibit 8 24 (by decide) (by decide) (by decide)
  constructor
  · unfold Limbs.value Quad.value
    rw [e0, e1, e2, e3, e4]
    omega
  · refine ⟨?_, ?_, ?_, ?_, ?_⟩ <;> omega

end Split

section Products

theorem mul_lt_of_short {a b : UInt32} (ha : a.toNat < 2 ^ 28) (hb : b.toNat < 2 ^ 29) :
    a.toNat * b.toNat < 2 ^ 57 := by
  calc a.toNat * b.toNat < 2 ^ 28 * 2 ^ 29 := Nat.mul_lt_mul'' ha hb
    _ = 2 ^ 57 := by decide

theorem toNat_dotProduct {a b : Limbs} (ha : a.Bounded (2 ^ 28)) (hb : b.Bounded (2 ^ 29)) :
    (dotProduct a b).toNat =
      a.h0.toNat * b.h0.toNat + a.h1.toNat * b.h1.toNat + a.h2.toNat * b.h2.toNat +
        a.h3.toNat * b.h3.toNat + a.h4.toNat * b.h4.toNat ∧
      (dotProduct a b).toNat < 2 ^ 60 := by
  have h0 := mul_lt_of_short ha.h0 hb.h0
  have h1 := mul_lt_of_short ha.h1 hb.h1
  have h2 := mul_lt_of_short ha.h2 hb.h2
  have h3 := mul_lt_of_short ha.h3 hb.h3
  have h4 := mul_lt_of_short ha.h4 hb.h4
  have hsum : (dotProduct a b).toNat =
      a.h0.toNat * b.h0.toNat + a.h1.toNat * b.h1.toNat + a.h2.toNat * b.h2.toNat +
        a.h3.toNat * b.h3.toNat + a.h4.toNat * b.h4.toNat := by
    simp only [dotProduct, vmullU32, vmlalU32, vdupNU32, UInt64.toNat_add, toNat_mul64]
    omega
  refine ⟨hsum, ?_⟩
  rw [hsum]
  omega

theorem toNat_carry {lo hi : UInt64} (h : hi.toNat < 2 ^ 61) :
    (carry lo hi).1.toNat = lo.toNat % 2 ^ 26 ∧
      (carry lo hi).2.toNat = hi.toNat + lo.toNat / 2 ^ 26 := by
  have hlo := lo.toNat_lt
  have hshift : (lo >>> 26).toNat = lo.toNat / 2 ^ 26 := toNat_shiftRight64 lo 26 (by decide)
  refine ⟨toNat_mask64 lo, ?_⟩
  change (hi + lo >>> 26).toNat = _
  rw [toNat_add64, hshift]
  rw [hshift]
  omega

theorem toNat_carry_five (top : UInt64) : (top >>> 26 * 5).toNat = top.toNat / 2 ^ 26 * 5 := by
  have htop := top.toNat_lt
  rw [UInt64.toNat_mul, toNat_shiftRight64 _ 26 (by decide)]
  change top.toNat / 2 ^ 26 * 5 % 2 ^ 64 = _
  omega

/-- What is above 2^130 comes back at the bottom. -/
theorem toNat_come_around {lo : UInt64} (h : lo.toNat < 2 ^ 26) (top : UInt64) :
    (lo + top >>> 26 * 5).toNat = lo.toNat + top.toNat / 2 ^ 26 * 5 := by
  have htop := top.toNat_lt
  rw [toNat_add64, toNat_carry_five]
  rw [toNat_carry_five]
  omega

/-- The carries keep the number up to a multiple of the prime. -/
theorem carryProducts_eq {d0 d1 d2 d3 d4 : UInt64} (h0 : d0.toNat < 2 ^ 60)
    (h1 : d1.toNat < 2 ^ 60) (h2 : d2.toNat < 2 ^ 60) (h3 : d3.toNat < 2 ^ 60)
    (h4 : d4.toNat < 2 ^ 60) :
    (∃ q, (carryProducts d0 d1 d2 d3 d4).value + prime * q =
        d0.toNat + 2 ^ 26 * d1.toNat + 2 ^ 52 * d2.toNat + 2 ^ 78 * d3.toNat +
          2 ^ 104 * d4.toNat) ∧
      (carryProducts d0 d1 d2 d3 d4).Loose := by
  obtain ⟨a0, a1⟩ := @toNat_carry d0 d1 (by omega)
  obtain ⟨b1, b2⟩ := @toNat_carry (carry d0 d1).2 d2 (by omega)
  obtain ⟨c2, c3⟩ := @toNat_carry (carry (carry d0 d1).2 d2).2 d3 (by omega)
  obtain ⟨e3, e4⟩ := @toNat_carry (carry (carry (carry d0 d1).2 d2).2 d3).2 d4 (by omega)
  have hout : carryProducts d0 d1 d2 d3 d4 =
      let p0 := carry d0 d1
      let p1 := carry p0.2 d2
      let p2 := carry p1.2 d3
      let p3 := carry p2.2 d4
      let p4 := carry (p0.1 + p3.2 >>> 26 * 5) p1.1
      ⟨p4.1.toUInt32, p4.2.toUInt32, p2.1.toUInt32, p3.1.toUInt32,
        (p3.2 &&& 0x3ffffff).toUInt32⟩ := rfl
  rw [hout]
  clear hout
  dsimp only
  generalize carry d0 d1 = p0 at *
  generalize carry p0.2 d2 = p1 at *
  generalize carry p1.2 d3 = p2 at *
  generalize carry p2.2 d4 = p3 at *
  have hlow := toNat_come_around (show p0.1.toNat < 2 ^ 26 by omega) p3.2
  obtain ⟨f0, f1⟩ := @toNat_carry (p0.1 + p3.2 >>> 26 * 5) p1.1 (by omega)
  have htop : (p3.2 &&& 0x3ffffff).toNat = p3.2.toNat % 2 ^ 26 := toNat_mask64 _
  generalize carry (p0.1 + p3.2 >>> 26 * 5) p1.1 = p4 at *
  rw [hlow] at f0 f1
  constructor
  · refine ⟨p3.2.toNat / 2 ^ 26, ?_⟩
    simp only [Limbs.value, UInt64.toNat_toUInt32, prime]
    omega
  · refine ⟨?_, ?_, ?_, ?_, ?_⟩ <;> simp only [UInt64.toNat_toUInt32] <;> omega

theorem toNat_mul_five {x : UInt32} (h : x.toNat < 2 ^ 26) :
    (x * 5).toNat = x.toNat * 5 ∧ (x * 5).toNat < 2 ^ 29 := by
  have hmul : (x * 5).toNat = x.toNat * 5 := by
    rw [UInt32.toNat_mul]
    change x.toNat * 5 % 2 ^ 32 = _
    omega
  rw [hmul]
  exact ⟨rfl, by omega⟩

theorem toNat_add_narrow {x y : UInt32} (h : x.toNat + y.toNat < 2 ^ 32) :
    (x.toUInt64 + y.toUInt64).toUInt32.toNat = x.toNat + y.toNat := by
  rw [UInt64.toNat_toUInt32, UInt64.toNat_add, UInt32.toNat_toUInt64, UInt32.toNat_toUInt64]
  omega

theorem addLimbs_eq {acc t : Limbs} (ha : acc.Loose) (ht : t.Bounded (2 ^ 26)) :
    (addLimbs acc t).value = acc.value + t.value ∧ (addLimbs acc t).Bounded (2 ^ 28) := by
  obtain ⟨a0, a1, a2, a3, a4⟩ := ha
  obtain ⟨t0, t1, t2, t3, t4⟩ := ht
  have e0 : (addLimbs acc t).h0.toNat = _ := toNat_add_narrow (by omega)
  have e1 : (addLimbs acc t).h1.toNat = _ := toNat_add_narrow (by omega)
  have e2 : (addLimbs acc t).h2.toNat = _ := toNat_add_narrow (by omega)
  have e3 : (addLimbs acc t).h3.toNat = _ := toNat_add_narrow (by omega)
  have e4 : (addLimbs acc t).h4.toNat = _ := toNat_add_narrow (by omega)
  constructor
  · unfold Limbs.value
    rw [e0, e1, e2, e3, e4]
    omega
  · refine ⟨?_, ?_, ?_, ?_, ?_⟩ <;> omega

/-- What a product has above 2^130 comes back with a factor of five. -/
theorem product_eq (a0 a1 a2 a3 a4 r0 r1 r2 r3 r4 : Nat) :
    (a0 + 2 ^ 26 * a1 + 2 ^ 52 * a2 + 2 ^ 78 * a3 + 2 ^ 104 * a4) *
        (r0 + 2 ^ 26 * r1 + 2 ^ 52 * r2 + 2 ^ 78 * r3 + 2 ^ 104 * r4) =
      (a0 * r0 + a1 * (r4 * 5) + a2 * (r3 * 5) + a3 * (r2 * 5) + a4 * (r1 * 5)) +
        2 ^ 26 * (a0 * r1 + a1 * r0 + a2 * (r4 * 5) + a3 * (r3 * 5) + a4 * (r2 * 5)) +
        2 ^ 52 * (a0 * r2 + a1 * r1 + a2 * r0 + a3 * (r4 * 5) + a4 * (r3 * 5)) +
        2 ^ 78 * (a0 * r3 + a1 * r2 + a2 * r1 + a3 * r0 + a4 * (r4 * 5)) +
        2 ^ 104 * (a0 * r4 + a1 * r3 + a2 * r2 + a3 * r1 + a4 * r0) +
        prime * (a1 * r4 + a2 * r3 + a3 * r2 + a4 * r1 +
          2 ^ 26 * (a2 * r4 + a3 * r3 + a4 * r2) + 2 ^ 52 * (a3 * r4 + a4 * r3) +
          2 ^ 78 * (a4 * r4)) := by
  change _ = _ + 1361129467683753853853498429727072845819 * _
  ring

theorem poly1305BlockNeon_eq {r acc : Limbs} (hr : r.Bounded (2 ^ 26)) (hacc : acc.Loose)
    {data : Bytes} (hdata : data.length = 16) {hibit : UInt32} (hbit : hibit.toNat ≤ 1) :
    (poly1305BlockNeon r acc data hibit).value % prime =
        step r.value acc.value (leValue data + 2 ^ 128 * hibit.toNat) ∧
      (poly1305BlockNeon r acc data hibit).Loose := by
  obtain ⟨hsplit, htBound⟩ := splitQuad_eq (loadQuad data) hbit
  obtain ⟨hsum, haBound⟩ := addLimbs_eq hacc htBound
  rw [hsplit, value_loadQuad hdata] at hsum
  obtain ⟨s1, m1⟩ := toNat_mul_five hr.h1
  obtain ⟨s2, m2⟩ := toNat_mul_five hr.h2
  obtain ⟨s3, m3⟩ := toNat_mul_five hr.h3
  obtain ⟨s4, m4⟩ := toNat_mul_five hr.h4
  obtain ⟨r0, r1, r2, r3, r4⟩ := hr.mono (show 2 ^ 26 ≤ 2 ^ 29 by decide)
  unfold poly1305BlockNeon
  dsimp only
  generalize addLimbs acc (splitQuad (loadQuad data) hibit) = a at *
  obtain ⟨d0, l0⟩ := @toNat_dotProduct a ⟨r.h0, r.h4 * 5, r.h3 * 5, r.h2 * 5, r.h1 * 5⟩ haBound
    ⟨r0, m4, m3, m2, m1⟩
  obtain ⟨d1, l1⟩ := @toNat_dotProduct a ⟨r.h1, r.h0, r.h4 * 5, r.h3 * 5, r.h2 * 5⟩ haBound
    ⟨r1, r0, m4, m3, m2⟩
  obtain ⟨d2, l2⟩ := @toNat_dotProduct a ⟨r.h2, r.h1, r.h0, r.h4 * 5, r.h3 * 5⟩ haBound
    ⟨r2, r1, r0, m4, m3⟩
  obtain ⟨d3, l3⟩ := @toNat_dotProduct a ⟨r.h3, r.h2, r.h1, r.h0, r.h4 * 5⟩ haBound
    ⟨r3, r2, r1, r0, m4⟩
  obtain ⟨d4, l4⟩ := @toNat_dotProduct a ⟨r.h4, r.h3, r.h2, r.h1, r.h0⟩ haBound
    ⟨r4, r3, r2, r1, r0⟩
  obtain ⟨⟨q, hq⟩, hloose⟩ := carryProducts_eq l0 l1 l2 l3 l4
  refine ⟨?_, hloose⟩
  rw [d0, d1, d2, d3, d4] at hq
  dsimp only at hq
  rw [s1, s2, s3, s4] at hq
  unfold step
  rw [← Nat.add_assoc] at hsum
  rw [← Nat.add_assoc, ← hsum]
  exact mod_prime_eq hq (product_eq ..)

end Products

section Final

theorem toNat_carry32 {lo hi : UInt32} (h : hi.toNat < 2 ^ 31) :
    (carry32 lo hi).1.toNat = lo.toNat % 2 ^ 26 ∧
      (carry32 lo hi).2.toNat = hi.toNat + lo.toNat / 2 ^ 26 := by
  have hlo := lo.toNat_lt
  have hshift : (lo >>> 26).toNat = lo.toNat / 2 ^ 26 := toNat_shiftRight32 lo 26 (by decide)
  refine ⟨toNat_mask32 lo, ?_⟩
  change (hi + lo >>> 26).toNat = _
  rw [toNat_add32, hshift]
  rw [hshift]
  omega

theorem toNat_carry_five32 (top : UInt32) :
    (top >>> 26 * 5).toNat = top.toNat / 2 ^ 26 * 5 := by
  have htop := top.toNat_lt
  rw [UInt32.toNat_mul, toNat_shiftRight32 _ 26 (by decide)]
  change top.toNat / 2 ^ 26 * 5 % 2 ^ 32 = _
  omega

theorem toNat_come_around32 {lo : UInt32} (h : lo.toNat < 2 ^ 26) (top : UInt32) :
    (lo + top >>> 26 * 5).toNat = lo.toNat + top.toNat / 2 ^ 26 * 5 := by
  have htop := top.toNat_lt
  rw [toNat_add32, toNat_carry_five32]
  rw [toNat_carry_five32]
  omega

/-- A carry out of the last limb leaves the second one short, so that it can take the carry
that comes around. -/
theorem carryLimbs_eq {h : Limbs} (hl : h.Loose) :
    (∃ q, (carryLimbs h).value + prime * q = h.value) ∧ (carryLimbs h).Bounded (2 ^ 26) := by
  obtain ⟨l0, l1, l2, l3, l4⟩ := hl
  obtain ⟨a1, a2⟩ := @toNat_carry32 h.h1 h.h2 (by omega)
  obtain ⟨b2, b3⟩ := @toNat_carry32 (carry32 h.h1 h.h2).2 h.h3 (by omega)
  obtain ⟨c3, c4⟩ := @toNat_carry32 (carry32 (carry32 h.h1 h.h2).2 h.h3).2 h.h4 (by omega)
  have hout : carryLimbs h =
      let p1 := carry32 h.h1 h.h2
      let p2 := carry32 p1.2 h.h3
      let p3 := carry32 p2.2 h.h4
      let p0 := carry32 (h.h0 + p3.2 >>> 26 * 5) p1.1
      ⟨p0.1, p0.2, p2.1, p3.1, p3.2 &&& 0x3ffffff⟩ := rfl
  rw [hout]
  clear hout
  dsimp only
  generalize carry32 h.h1 h.h2 = p1 at *
  generalize carry32 p1.2 h.h3 = p2 at *
  generalize carry32 p2.2 h.h4 = p3 at *
  have hlow := toNat_come_around32 l0 p3.2
  obtain ⟨f0, f1⟩ := @toNat_carry32 (h.h0 + p3.2 >>> 26 * 5) p1.1 (by omega)
  have htop : (p3.2 &&& 0x3ffffff).toNat = p3.2.toNat % 2 ^ 26 := toNat_mask32 _
  generalize carry32 (h.h0 + p3.2 >>> 26 * 5) p1.1 = p0 at *
  rw [hlow] at f0 f1
  constructor
  · refine ⟨p3.2.toNat / 2 ^ 26, ?_⟩
    simp only [Limbs.value, prime]
    omega
  · refine ⟨?_, ?_, ?_, ?_, ?_⟩ <;> dsimp only <;> omega

theorem Limbs.Bounded.value_lt {h : Limbs} (hb : h.Bounded (2 ^ 26)) : h.value < 2 ^ 130 := by
  obtain ⟨b0, b1, b2, b3, b4⟩ := hb
  unfold Limbs.value
  omega

theorem selectLimbs_of_negative {h g : Limbs} (hneg : 2 ^ 31 ≤ g.h4.toNat) :
    selectLimbs h g = h := by
  have hlt := g.h4.toNat_lt
  have hshift : g.h4 >>> 31 = 1 := by
    apply UInt32.toNat_inj.mp
    rw [toNat_shiftRight32 _ 31 (by decide)]
    change g.h4.toNat / 2 ^ 31 = 1
    omega
  simp [selectLimbs, hshift]

theorem selectLimbs_of_zero {h g : Limbs} (hzero : g.h4.toNat = 0) : selectLimbs h g = g := by
  have hshift : g.h4 >>> 31 = 0 := by
    apply UInt32.toNat_inj.mp
    rw [toNat_shiftRight32 _ 31 (by decide), hzero]
    rfl
  simp [selectLimbs, hshift]

theorem selectLimbs_eq {h : Limbs} (hb : h.Bounded (2 ^ 26)) :
    (selectLimbs h (subtractPrime h)).value = h.value % prime ∧
      (selectLimbs h (subtractPrime h)).Bounded (2 ^ 26) := by
  have hlt := hb.value_lt
  have hb' := hb
  obtain ⟨b0, b1, b2, b3, b4⟩ := hb'
  have hfive : (h.h0 + 5).toNat = h.h0.toNat + 5 := toNat_add32 (by
    change h.h0.toNat + 5 < 2 ^ 32
    omega)
  obtain ⟨a0, a1⟩ := @toNat_carry32 (h.h0 + 5) h.h1 (by omega)
  obtain ⟨c1, c2⟩ := @toNat_carry32 (carry32 (h.h0 + 5) h.h1).2 h.h2 (by omega)
  obtain ⟨d2, d3⟩ := @toNat_carry32 (carry32 (carry32 (h.h0 + 5) h.h1).2 h.h2).2 h.h3 (by omega)
  obtain ⟨e3, e4⟩ := @toNat_carry32
    (carry32 (carry32 (carry32 (h.h0 + 5) h.h1).2 h.h2).2 h.h3).2 h.h4 (by omega)
  have hout : subtractPrime h =
      let p0 := carry32 (h.h0 + 5) h.h1
      let p1 := carry32 p0.2 h.h2
      let p2 := carry32 p1.2 h.h3
      let p3 := carry32 p2.2 h.h4
      ⟨p0.1, p1.1, p2.1, p3.1, p3.2 - (1 : UInt32) <<< 26⟩ := rfl
  dsimp only at hout
  generalize subtractPrime h = g at *
  generalize carry32 (h.h0 + 5) h.h1 = p0 at *
  generalize carry32 p0.2 h.h2 = p1 at *
  generalize carry32 p1.2 h.h3 = p2 at *
  generalize carry32 p2.2 h.h4 = p3 at *
  have htop : g.h4.toNat = (2 ^ 32 - 2 ^ 26 + p3.2.toNat) % 2 ^ 32 := by
    rw [hout]
    exact UInt32.toNat_sub ..
  by_cases hsmall : p3.2.toNat < 2 ^ 26
  · rw [selectLimbs_of_negative (by omega)]
    refine ⟨(Nat.mod_eq_of_lt ?_).symm, hb⟩
    unfold Limbs.value prime
    omega
  · have hzero : g.h4.toNat = 0 := by omega
    have hvalue : g.value + prime = h.value := by
      rw [hout] at hzero ⊢
      unfold Limbs.value prime
      dsimp only at hzero ⊢
      omega
    rw [selectLimbs_of_zero hzero]
    constructor
    · rw [← hvalue, Nat.add_mod_right]
      refine (Nat.mod_eq_of_lt ?_).symm
      unfold prime at *
      omega
    · rw [hout] at hzero ⊢
      refine ⟨?_, ?_, ?_, ?_, ?_⟩ <;> dsimp only at * <;> omega

theorem toNat_shiftLeft64 {x : UInt32} (hx : x.toNat < 2 ^ 26) {k : UInt64} (hk : k.toNat ≤ 26) :
    (x.toUInt64 <<< k).toNat = 2 ^ k.toNat * x.toNat := by
  have hpow : 2 ^ k.toNat ≤ 2 ^ 26 := Nat.pow_le_pow_right (by decide) hk
  have hlt : 2 ^ k.toNat * x.toNat < 2 ^ 64 := by
    calc 2 ^ k.toNat * x.toNat ≤ 2 ^ 26 * x.toNat := Nat.mul_le_mul_right _ hpow
      _ < 2 ^ 26 * 2 ^ 26 := Nat.mul_lt_mul_of_pos_left hx (by decide)
      _ < 2 ^ 64 := by decide
  rw [UInt64.toNat_shiftLeft, UInt32.toNat_toUInt64,
    Nat.mod_eq_of_lt (show k.toNat < 64 by omega), Nat.shiftLeft_eq, Nat.mul_comm,
    Nat.mod_eq_of_lt hlt]

theorem toNat_shifted_add {x : UInt32} (hx : x.toNat < 2 ^ 26) {k : UInt64} (hk : k.toNat ≤ 26)
    (w : UInt32) :
    (x.toUInt64 <<< k + w.toUInt64).toNat = 2 ^ k.toNat * x.toNat + w.toNat := by
  have hpow : 2 ^ k.toNat ≤ 2 ^ 26 := Nat.pow_le_pow_right (by decide) hk
  have hlt : 2 ^ k.toNat * x.toNat < 2 ^ 26 * 2 ^ 26 :=
    Nat.mul_lt_mul_of_le_of_lt hpow hx (by decide)
  have hw := w.toNat_lt
  rw [toNat_add64, toNat_shiftLeft64 hx hk, UInt32.toNat_toUInt64]
  rw [toNat_shiftLeft64 hx hk, UInt32.toNat_toUInt64]
  omega

theorem toNat_two_limbs {x y : UInt32} (hx : x.toNat < 2 ^ 26) (hy : y.toNat < 2 ^ 26) :
    (x.toUInt64 ||| y.toUInt64 <<< 26).toNat = x.toNat + 2 ^ 26 * y.toNat := by
  rw [UInt64.toNat_or, toNat_shiftLeft64 hy (by decide), UInt32.toNat_toUInt64]
  exact or_mul_two_pow hx y.toNat

theorem addPad_eq {h : Limbs} (hb : h.Bounded (2 ^ 26)) (s : Quad) :
    addPad h s = tagBytes ((h.value + s.value) % 2 ^ 128) := by
  obtain ⟨b0, b1, b2, b3, b4⟩ := hb
  have w0 := s.w0.toNat_lt
  have w1 := s.w1.toNat_lt
  have w2 := s.w2.toNat_lt
  have w3 := s.w3.toNat_lt
  have hlow := toNat_two_limbs b0 b1
  have f0 : ((h.h0.toUInt64 ||| h.h1.toUInt64 <<< 26) + s.w0.toUInt64).toNat =
      h.h0.toNat + 2 ^ 26 * h.h1.toNat + s.w0.toNat := by
    rw [toNat_add64, hlow, UInt32.toNat_toUInt64]
    rw [hlow, UInt32.toNat_toUInt64]
    omega
  have f1 : (h.h2.toUInt64 <<< 20 + s.w1.toUInt64).toNat = 2 ^ 20 * h.h2.toNat + s.w1.toNat :=
    toNat_shifted_add b2 (by decide) s.w1
  have f2 : (h.h3.toUInt64 <<< 14 + s.w2.toUInt64).toNat = 2 ^ 14 * h.h3.toNat + s.w2.toNat :=
    toNat_shifted_add b3 (by decide) s.w2
  have f3 : (h.h4.toUInt64 <<< 8 + s.w3.toUInt64).toNat = 2 ^ 8 * h.h4.toNat + s.w3.toNat :=
    toNat_shifted_add b4 (by decide) s.w3
  unfold addPad
  simp only [toUInt32_mask]
  generalize (h.h0.toUInt64 ||| h.h1.toUInt64 <<< 26) + s.w0.toUInt64 = g0 at *
  generalize h.h2.toUInt64 <<< 20 + s.w1.toUInt64 = g1 at *
  generalize h.h3.toUInt64 <<< 14 + s.w2.toUInt64 = g2 at *
  generalize h.h4.toUInt64 <<< 8 + s.w3.toUInt64 = g3 at *
  have e1 := @toNat_add_high g0 g1 (by omega)
  have e2 := @toNat_add_high (g1 + g0 >>> 32) g2 (by omega)
  have e3 := @toNat_add_high (g2 + (g1 + g0 >>> 32) >>> 32) g3 (by omega)
  have hsum : h.value + s.value = g0.toNat + 2 ^ 32 * g1.toNat + 2 ^ 64 * g2.toNat +
      2 ^ 96 * g3.toNat := by
    unfold Limbs.value Quad.value
    omega
  rw [hsum]
  exact tagBytes_of_words (by omega) (by omega) (by omega) (by omega)

end Final

section Updates

/-- What is left of the data before comes in front of new data. -/
theorem wgPoly1305Update_eq (ctx : WgPoly1305Ctx) (hbuf : ctx.buf.length < 16) (data : Bytes) :
    wgPoly1305Update ctx data = updateBlocks ctx (ctx.buf ++ data) := by
  unfold wgPoly1305Update
  by_cases hempty : ctx.buf.length > 0
  · rw [if_pos hempty]
    dsimp only
    by_cases hshort : data.length < 16 - ctx.buf.length
    · have hlen : (ctx.buf ++ data).length < 16 := by
        rw [List.length_append]
        omega
      rw [if_pos hshort]
      simp only [updateBlocks, feed_short _ _ _ hlen]
    · have hsplit : ctx.buf ++ data =
          (ctx.buf ++ data.take (16 - ctx.buf.length)) ++ data.drop (16 - ctx.buf.length) := by
        rw [List.append_assoc, List.take_append_drop]
      have hblock : (ctx.buf ++ data.take (16 - ctx.buf.length)).length = 16 := by
        rw [List.length_append, List.length_take_of_le (Nat.le_of_not_lt hshort)]
        omega
      rw [if_neg hshort, hsplit]
      simp only [updateBlocks, feed_block _ _ _ hblock]
  · have hnil : ctx.buf = [] := List.length_eq_zero_iff.mp (by omega)
    rw [if_neg hempty, hnil, List.nil_append]

/-- Data may come in pieces. -/
theorem wgPoly1305Update_updateBlocks (ctx : WgPoly1305Ctx) (xs ys : Bytes) :
    wgPoly1305Update (updateBlocks ctx xs) ys = updateBlocks ctx (xs ++ ys) := by
  have hbuf : (updateBlocks ctx xs).buf.length < 16 := length_feed_rest ..
  rw [wgPoly1305Update_eq _ hbuf]
  unfold updateBlocks
  rw [feed_pieces _ _ ctx.acc xs ys]

theorem updateBlocks_init (key : Bytes) :
    updateBlocks (wgPoly1305Init key) [] = wgPoly1305Init key := by
  unfold updateBlocks
  rw [feed_short _ _ _ (by decide)]
  rfl

/-- The limbs stand for a number modulo the prime. -/
structure Stands (acc : Limbs) (x : Nat) : Prop where
  loose : acc.Loose
  value : acc.value % prime = x

theorem stands_zero : Stands ⟨0, 0, 0, 0, 0⟩ 0 := by
  refine ⟨⟨?_, ?_, ?_, ?_, ?_⟩, rfl⟩ <;> decide

theorem Stands.block {r acc : Limbs} {x : Nat} (hr : r.Bounded (2 ^ 26)) (h : Stands acc x)
    {data : Bytes} (hdata : data.length = 16) {hibit : UInt32} (hbit : hibit.toNat ≤ 1) :
    Stands (poly1305BlockNeon r acc data hibit)
      (step r.value x (leValue data + 2 ^ 128 * hibit.toNat)) := by
  obtain ⟨hvalue, hloose⟩ := poly1305BlockNeon_eq hr h.loose hdata hbit
  refine ⟨hloose, ?_⟩
  rw [hvalue]
  apply step_congr
  rw [← h.value, Nat.mod_mod]

theorem stands_updateBlocks {ctx : WgPoly1305Ctx} (hr : ctx.r.Bounded (2 ^ 26)) {x : Nat}
    (h : Stands ctx.acc x) (data : Bytes) :
    Stands (updateBlocks ctx data).acc
        (feed blockBytes_pos (stepBlock ctx.r.value) x data).1 ∧
      (updateBlocks ctx data).buf =
        (feed blockBytes_pos (stepBlock ctx.r.value) x data).2 := by
  refine feed_related _ _ ?_ h data
  intro acc x block hblock hstands
  exact hstands.block hr hblock (show UInt32.toNat 1 ≤ 1 by decide)

theorem wgPoly1305Final_eq {ctx : WgPoly1305Ctx} (hr : ctx.r.Bounded (2 ^ 26))
    (hbuf : ctx.buf.length < 16) {x : Nat} (h : Stands ctx.acc x) :
    wgPoly1305Final ctx =
      tagBytes ((stepRest ctx.r.value x ctx.buf + ctx.s.value) % 2 ^ 128) := by
  have hlast : Stands
      (if ctx.buf.length > 0 then
        poly1305BlockNeon ctx.r ctx.acc
          (ctx.buf ++ [1] ++ List.replicate (16 - ctx.buf.length - 1) 0) 0
      else ctx.acc) (stepRest ctx.r.value x ctx.buf) := by
    unfold stepRest
    by_cases hempty : ctx.buf = []
    · rw [if_pos hempty, hempty]
      exact h
    · have hpos : ctx.buf.length > 0 := List.length_pos_of_ne_nil hempty
      have hblock : (ctx.buf ++ [1] ++ List.replicate (16 - ctx.buf.length - 1) 0).length = 16 := by
        simp only [List.length_append, List.length_replicate, List.length_singleton]
        omega
      have hstep := h.block hr hblock (show UInt32.toNat 0 ≤ 1 by decide)
      rw [leValue_append_zeros] at hstep
      rw [if_neg hempty, if_pos hpos]
      exact hstep
  unfold wgPoly1305Final
  dsimp only
  generalize (if ctx.buf.length > 0 then _ else ctx.acc) = acc at *
  obtain ⟨⟨q, hcarry⟩, hbound⟩ := carryLimbs_eq hlast.loose
  obtain ⟨hselect, hshort⟩ := selectLimbs_eq hbound
  have hmod : (carryLimbs acc).value % prime = acc.value % prime := by
    rw [← hcarry, Nat.add_mul_mod_self_left]
  rw [addPad_eq hshort, hselect, hmod, hlast.value]

/-- The key as two numbers. -/
def keyR (key : Bytes) : Nat := (loadQuad (clampBytes key)).value

def keyS (key : Bytes) : Nat := (loadQuad (key.drop 16)).value

theorem wgPoly1305Init_eq (key : Bytes) :
    (wgPoly1305Init key).r.value = keyR key ∧ (wgPoly1305Init key).r.Bounded (2 ^ 26) := by
  have hsplit : (wgPoly1305Init key).r = splitQuad (loadQuad (clampBytes key)) 0 := by
    simp [wgPoly1305Init, splitQuad]
  rw [hsplit]
  exact splitQuad_eq _ (by decide)

/-- All data of a message in a row give the tag of the message. -/
theorem wgPoly1305Final_updateBlocks (key msg : Bytes) :
    wgPoly1305Final (updateBlocks (wgPoly1305Init key) msg) =
      tagBytes (tag (keyR key) (keyS key) msg) := by
  obtain ⟨hvalue, hbound⟩ := wgPoly1305Init_eq key
  obtain ⟨hstands, hrest⟩ := stands_updateBlocks hbound stands_zero msg
  have hbuf : (updateBlocks (wgPoly1305Init key) msg).buf.length < 16 := length_feed_rest ..
  have htag := @wgPoly1305Final_eq (updateBlocks (wgPoly1305Init key) msg) hbound hbuf _ hstands
  rw [htag, hrest]
  change tagBytes ((stepRest (wgPoly1305Init key).r.value _ _ + keyS key) % _) = _
  rw [hvalue]
  rfl

end Updates

section Clamp

theorem getD_modify {l : Bytes} {i k : Nat} {f : UInt8 → UInt8} (hf : f 0 = 0) :
    (l.modify i f).getD k 0 = if i = k then f (l.getD k 0) else l.getD k 0 := by
  rw [List.getD_eq_getElem?_getD, List.getD_eq_getElem?_getD, List.getElem?_modify]
  cases l[k]? with
  | none =>
      split
      · exact hf.symm
      · rfl
  | some b =>
      split
      · rfl
      · rfl

theorem toNat_and_fifteen (b : UInt8) : (b &&& 0x0f).toNat = b.toNat % 16 := by
  rw [UInt8.toNat_and]
  exact Nat.and_two_pow_sub_one_eq_mod b.toNat 4

theorem toNat_and_fc (b : UInt8) : (b &&& 0xfc).toNat = b.toNat / 4 % 2 ^ 6 * 4 := by
  rw [UInt8.toNat_and]
  exact and_shifted_mask b.toNat 6 2

/-- The byte masks and the word mask clear the same bits. -/
theorem load32Le_clamped {p q : Bytes} {off : Nat} (h0 : q.getD off 0 = p.getD off 0 &&& 0xfc)
    (h1 : q.getD (off + 1) 0 = p.getD (off + 1) 0) (h2 : q.getD (off + 2) 0 = p.getD (off + 2) 0)
    (h3 : q.getD (off + 3) 0 = p.getD (off + 3) 0 &&& 0x0f) :
    load32Le q off = load32Le p off &&& 0x0ffffffc := by
  have l0 := (p.getD off 0).toNat_lt
  have l1 := (p.getD (off + 1) 0).toNat_lt
  have l2 := (p.getD (off + 2) 0).toNat_lt
  have l3 := (p.getD (off + 3) 0).toNat_lt
  apply UInt32.toNat_inj.mp
  rw [toNat_clamp, toNat_load32Le, toNat_load32Le, h0, h1, h2, h3, toNat_and_fc,
    toNat_and_fifteen]
  omega

theorem load32Le_clamped_first {p q : Bytes} {off : Nat} (h0 : q.getD off 0 = p.getD off 0)
    (h1 : q.getD (off + 1) 0 = p.getD (off + 1) 0) (h2 : q.getD (off + 2) 0 = p.getD (off + 2) 0)
    (h3 : q.getD (off + 3) 0 = p.getD (off + 3) 0 &&& 0x0f) :
    load32Le q off = load32Le p off &&& 0x0fffffff := by
  have l0 := (p.getD off 0).toNat_lt
  have l1 := (p.getD (off + 1) 0).toNat_lt
  have l2 := (p.getD (off + 2) 0).toNat_lt
  have l3 := (p.getD (off + 3) 0).toNat_lt
  apply UInt32.toNat_inj.mp
  rw [toNat_clamp_first, toNat_load32Le, toNat_load32Le, h0, h1, h2, h3, toNat_and_fifteen]
  omega

theorem getD_clampBytes (key : Bytes) {k : Nat} (hk : k < 16) :
    (clampBytes key).getD k 0 =
      if k % 4 = 3 then key.getD k 0 &&& 0x0f
      else if k % 4 = 0 ∧ k ≠ 0 then key.getD k 0 &&& 0xfc
      else key.getD k 0 := by
  have htake : (key.take 16).getD k 0 = key.getD k 0 := by
    rw [List.getD_eq_getElem?_getD, List.getD_eq_getElem?_getD, List.getElem?_take_of_lt hk]
  unfold clampBytes
  dsimp only
  rw [getD_modify (by rfl), getD_modify (by rfl), getD_modify (by rfl), getD_modify (by rfl),
    getD_modify (by rfl), getD_modify (by rfl), getD_modify (by rfl), htake]
  interval_cases k <;> rfl

/-- The words of the clamped key. -/
theorem loadQuad_clampBytes_eq (key : Bytes) :
    loadQuad (clampBytes key) =
      ⟨load32Le key 0 &&& 0x0fffffff, load32Le key 4 &&& 0x0ffffffc,
        load32Le key 8 &&& 0x0ffffffc, load32Le key 12 &&& 0x0ffffffc⟩ := by
  have h0 : load32Le (clampBytes key) 0 = load32Le key 0 &&& 0x0fffffff := by
    apply load32Le_clamped_first <;> exact getD_clampBytes key (by decide)
  have h1 : load32Le (clampBytes key) 4 = load32Le key 4 &&& 0x0ffffffc := by
    apply load32Le_clamped <;> exact getD_clampBytes key (by decide)
  have h2 : load32Le (clampBytes key) 8 = load32Le key 8 &&& 0x0ffffffc := by
    apply load32Le_clamped <;> exact getD_clampBytes key (by decide)
  have h3 : load32Le (clampBytes key) 12 = load32Le key 12 &&& 0x0ffffffc := by
    apply load32Le_clamped <;> exact getD_clampBytes key (by decide)
  unfold loadQuad
  rw [h0, h1, h2, h3]

end Clamp

end WgNx.PolyNeon
