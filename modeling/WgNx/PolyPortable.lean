import Mathlib.Tactic.Ring
import WgNx.PolyHash
import WgNx.WordArith

/-!
Poly1305 of the portable library, with four limbs of 32 bits and a short fifth one.

The key is divisible by four but for its last two bits, so what a product has above
2^130 can be brought back limb by limb.  Between blocks the fifth limb is at most four.
-/

namespace WgNx.PolyPortable

open WgNx.BlockFeed
open WgNx.ByteLayout
open WgNx.PolyHash
open WgNx.WordArith
open WgNx.WordBytes

section Model

/-- The number that has to be added for a multiple of a power of two. -/
def gap (x pow2 : UInt64) : UInt64 := (~~~x + 1) &&& (pow2 - 1)

structure Hash where
  h0 : UInt32
  h1 : UInt32
  h2 : UInt32
  h3 : UInt32
  h4 : UInt32

/-- The chunk holds `c_idx` bytes. -/
structure CryptoPoly1305Ctx where
  c : Bytes
  r : Quad
  pad : Quad
  h : Hash

/-- `h + c`, without carry propagation -/
structure Sums where
  s0 : UInt64
  s1 : UInt64
  s2 : UInt64
  s3 : UInt64
  s4 : UInt32

def addChunk (h : Hash) (inp : Bytes) (last : UInt32) : Sums where
  s0 := h.h0.toUInt64 + (load32Le inp 0).toUInt64
  s1 := h.h1.toUInt64 + (load32Le inp 4).toUInt64
  s2 := h.h2.toUInt64 + (load32Le inp 8).toUInt64
  s3 := h.h3.toUInt64 + (load32Le inp 12).toUInt64
  s4 := h.h4 + last

/-- `(h + c) * r`, without carry propagation -/
structure Products where
  x0 : UInt64
  x1 : UInt64
  x2 : UInt64
  x3 : UInt64
  x4 : UInt32

def multiply (r : Quad) (s : Sums) : Products :=
  let rr0 := (r.w0 >>> 2) * 5
  let rr1 := (r.w1 >>> 2) + r.w1
  let rr2 := (r.w2 >>> 2) + r.w2
  let rr3 := (r.w3 >>> 2) + r.w3
  let rr4 := r.w0 &&& 3
  -- the products with `s4` have 32 bits
  { x0 := s.s0 * r.w0.toUInt64 + s.s1 * rr3.toUInt64 + s.s2 * rr2.toUInt64 +
      s.s3 * rr1.toUInt64 + (s.s4 * rr0).toUInt64
    x1 := s.s0 * r.w1.toUInt64 + s.s1 * r.w0.toUInt64 + s.s2 * rr3.toUInt64 +
      s.s3 * rr2.toUInt64 + (s.s4 * rr1).toUInt64
    x2 := s.s0 * r.w2.toUInt64 + s.s1 * r.w1.toUInt64 + s.s2 * r.w0.toUInt64 +
      s.s3 * rr3.toUInt64 + (s.s4 * rr2).toUInt64
    x3 := s.s0 * r.w3.toUInt64 + s.s1 * r.w2.toUInt64 + s.s2 * r.w1.toUInt64 +
      s.s3 * r.w0.toUInt64 + (s.s4 * rr3).toUInt64
    x4 := s.s4 * rr4 }

/-- `x & 0xffffffff` -/
def low (x : UInt64) : UInt64 := x &&& 0xffffffff

/-- `x >> 32` -/
def high (x : UInt64) : UInt64 := x >>> 32

/-- The partial reduction modulo 2^130 - 5. -/
def reduce (x : Products) : Hash :=
  let u5 := (x.x4.toUInt64 + high x.x3).toUInt32
  let u0 := ((u5 >>> 2) * 5).toUInt64 + low x.x0
  let u1 := high u0 + low x.x1 + high x.x0
  let u2 := high u1 + low x.x2 + high x.x1
  let u3 := high u2 + low x.x3 + high x.x2
  let u4 := (high u3 + (u5 &&& 3).toUInt64).toUInt32
  ⟨(low u0).toUInt32, (low u1).toUInt32, (low u2).toUInt32, (low u3).toUInt32, u4⟩

/-- One round of the loop of `poly_blocks`. -/
def polyBlock (r : Quad) (last : UInt32) (h : Hash) (inp : Bytes) : Hash :=
  reduce (multiply r (addChunk h inp last))

def polyBlocks (r : Quad) (last : UInt32) (h : Hash) (inp : Bytes) : Nat → Hash
  | 0 => h
  | n + 1 => polyBlocks r last (polyBlock r last h (inp.take 16)) (inp.drop 16) n

def cryptoPoly1305Init (key : Bytes) : CryptoPoly1305Ctx :=
  let r := loadQuad key
  { h := ⟨0, 0, 0, 0, 0⟩
    c := []
    r := ⟨r.w0 &&& 0x0fffffff, r.w1 &&& 0x0ffffffc, r.w2 &&& 0x0ffffffc, r.w3 &&& 0x0ffffffc⟩
    pad := loadQuad (key.drop 16) }

def cryptoPoly1305Update (ctx : CryptoPoly1305Ctx) (message : Bytes) : CryptoPoly1305Ctx :=
  if message.length = 0 then ctx
  else
    let aligned := min (gap (UInt64.ofNat ctx.c.length) 16).toNat message.length
    let ctx := { ctx with c := ctx.c ++ message.take aligned }
    let message := message.drop aligned
    let ctx :=
      if ctx.c.length = 16 then { ctx with h := polyBlocks ctx.r 1 ctx.h ctx.c 1, c := [] }
      else ctx
    let nbBlocks := message.length >>> 4
    let ctx := { ctx with h := polyBlocks ctx.r 1 ctx.h message nbBlocks }
    { ctx with c := ctx.c ++ (message.drop (nbBlocks <<< 4)).take (message.length &&& 15) }

/-- The carry of the hash plus five, moved back to the beginning. -/
def finalCarry (h : Hash) : UInt64 :=
  let c := high (5 + h.h0.toUInt64)
  let c := high (c + h.h1.toUInt64)
  let c := high (c + h.h2.toUInt64)
  let c := high (c + h.h3.toUInt64)
  let c := c + h.h4.toUInt64
  (c >>> 2) * 5

/-- The words of the hash plus those of the pad, with a carry. -/
def addPad (h : Hash) (pad : Quad) (c : UInt64) : Bytes :=
  let c0 := c + (h.h0.toUInt64 + pad.w0.toUInt64)
  let c1 := high c0 + (h.h1.toUInt64 + pad.w1.toUInt64)
  let c2 := high c1 + (h.h2.toUInt64 + pad.w2.toUInt64)
  let c3 := high c2 + (h.h3.toUInt64 + pad.w3.toUInt64)
  store32Le c0.toUInt32 ++ store32Le c1.toUInt32 ++ store32Le c2.toUInt32 ++
    store32Le c3.toUInt32

def cryptoPoly1305Final (ctx : CryptoPoly1305Ctx) : Bytes :=
  let h :=
    if ctx.c.length ≠ 0 then
      let c := ctx.c ++ List.replicate (16 - ctx.c.length) 0
      polyBlocks ctx.r 0 ctx.h (c.set ctx.c.length 1) 1
    else ctx.h
  addPad h ctx.pad (finalCarry h)

end Model

section Products

def Hash.value (h : Hash) : Nat :=
  h.h0.toNat + 2 ^ 32 * h.h1.toNat + 2 ^ 64 * h.h2.toNat + 2 ^ 96 * h.h3.toNat +
    2 ^ 128 * h.h4.toNat

def Sums.value (s : Sums) : Nat :=
  s.s0.toNat + 2 ^ 32 * s.s1.toNat + 2 ^ 64 * s.s2.toNat + 2 ^ 96 * s.s3.toNat +
    2 ^ 128 * s.s4.toNat

def Products.value (x : Products) : Nat :=
  x.x0.toNat + 2 ^ 32 * x.x1.toNat + 2 ^ 64 * x.x2.toNat + 2 ^ 96 * x.x3.toNat +
    2 ^ 128 * x.x4.toNat

/-- The words of a key with its bits cleared. -/
structure Clamped (r : Quad) : Prop where
  w0 : r.w0.toNat < 2 ^ 28
  w1 : r.w1.toNat < 2 ^ 28
  w2 : r.w2.toNat < 2 ^ 28
  w3 : r.w3.toNat < 2 ^ 28
  mod1 : r.w1.toNat % 4 = 0
  mod2 : r.w2.toNat % 4 = 0
  mod3 : r.w3.toNat % 4 = 0

structure Sums.Short (s : Sums) : Prop where
  s0 : s.s0.toNat < 2 ^ 33
  s1 : s.s1.toNat < 2 ^ 33
  s2 : s.s2.toNat < 2 ^ 33
  s3 : s.s3.toNat < 2 ^ 33
  s4 : s.s4.toNat ≤ 5

theorem addChunk_eq {h : Hash} (hh : h.h4.toNat ≤ 4) {inp : Bytes} (hinp : inp.length = 16)
    {last : UInt32} (hlast : last.toNat ≤ 1) :
    (addChunk h inp last).value = h.value + (leValue inp + 2 ^ 128 * last.toNat) ∧
      (addChunk h inp last).Short := by
  have hadd : ∀ x y : UInt32, (x.toUInt64 + y.toUInt64).toNat = x.toNat + y.toNat ∧
      x.toNat + y.toNat < 2 ^ 33 := by
    intro x y
    have hx := x.toNat_lt
    have hy := y.toNat_lt
    refine ⟨?_, by omega⟩
    rw [UInt64.toNat_add, UInt32.toNat_toUInt64, UInt32.toNat_toUInt64]
    omega
  obtain ⟨e0, l0⟩ := hadd h.h0 (load32Le inp 0)
  obtain ⟨e1, l1⟩ := hadd h.h1 (load32Le inp 4)
  obtain ⟨e2, l2⟩ := hadd h.h2 (load32Le inp 8)
  obtain ⟨e3, l3⟩ := hadd h.h3 (load32Le inp 12)
  have e4 : (h.h4 + last).toNat = h.h4.toNat + last.toNat := toNat_add32 (by omega)
  rw [← value_loadQuad hinp]
  unfold Sums.value Hash.value Quad.value addChunk loadQuad
  dsimp only
  rw [e0, e1, e2, e3, e4]
  refine ⟨by omega, ?_⟩
  refine ⟨?_, ?_, ?_, ?_, ?_⟩ <;> dsimp only <;> omega

/-- What a product has above 2^130 comes back with a factor of five. -/
theorem product_eq (s0 s1 s2 s3 s4 k q0 q1 q2 q3 : Nat) :
    (s0 + 2 ^ 32 * s1 + 2 ^ 64 * s2 + 2 ^ 96 * s3 + 2 ^ 128 * s4) *
        ((4 * q0 + k) + 2 ^ 32 * (4 * q1) + 2 ^ 64 * (4 * q2) + 2 ^ 96 * (4 * q3)) =
      (s0 * (4 * q0 + k) + s1 * (5 * q3) + s2 * (5 * q2) + s3 * (5 * q1) + s4 * (5 * q0)) +
        2 ^ 32 * (s0 * (4 * q1) + s1 * (4 * q0 + k) + s2 * (5 * q3) + s3 * (5 * q2) +
          s4 * (5 * q1)) +
        2 ^ 64 * (s0 * (4 * q2) + s1 * (4 * q1) + s2 * (4 * q0 + k) + s3 * (5 * q3) +
          s4 * (5 * q2)) +
        2 ^ 96 * (s0 * (4 * q3) + s1 * (4 * q2) + s2 * (4 * q1) + s3 * (4 * q0 + k) +
          s4 * (5 * q3)) +
        2 ^ 128 * (s4 * k) +
        prime * (s1 * q3 + s2 * q2 + s3 * q1 + s4 * q0 + 2 ^ 32 * (s2 * q3 + s3 * q2 + s4 * q1) +
          2 ^ 64 * (s3 * q3 + s4 * q2) + 2 ^ 96 * (s4 * q3)) := by
  change _ = _ + 1361129467683753853853498429727072845819 * _
  ring

theorem toNat_low (x : UInt64) : (low x).toNat = x.toNat % 2 ^ 32 := by
  unfold low
  rw [UInt64.toNat_and]
  exact Nat.and_two_pow_sub_one_eq_mod x.toNat 32

theorem toNat_high (x : UInt64) : (high x).toNat = x.toNat / 2 ^ 32 :=
  toNat_shiftRight64 x 32 (by decide)

theorem toNat_and_three (x : UInt32) : (x &&& 3).toNat = x.toNat % 4 := by
  rw [UInt32.toNat_and]
  exact Nat.and_two_pow_sub_one_eq_mod x.toNat 2

theorem toNat_shiftRight_two (x : UInt32) : (x >>> 2).toNat = x.toNat / 4 :=
  toNat_shiftRight32 x 2 (by decide)

/-- A sum of 33 bits times a limb. -/
theorem toNat_mul_limb {s : UInt64} {r : UInt32} (hs : s.toNat < 2 ^ 33) {b : Nat}
    (hr : r.toNat < b) (hb : b ≤ 2 ^ 29) :
    (s * r.toUInt64).toNat = s.toNat * r.toNat ∧ s.toNat * r.toNat < 2 ^ 33 * b := by
  have hlt : s.toNat * r.toNat < 2 ^ 33 * b := Nat.mul_lt_mul'' hs hr
  rw [UInt64.toNat_mul, UInt32.toNat_toUInt64]
  exact ⟨Nat.mod_eq_of_lt (by omega), hlt⟩

/-- The products of 32 bits. -/
theorem toNat_mul_top {s r : UInt32} (hs : s.toNat ≤ 5) (hr : r.toNat < 5 * 2 ^ 26) :
    (s * r).toUInt64.toNat = s.toNat * r.toNat ∧ s.toNat * r.toNat < 2 ^ 31 := by
  have hle : s.toNat * r.toNat ≤ 5 * r.toNat := Nat.mul_le_mul_right _ hs
  rw [UInt32.toNat_toUInt64, UInt32.toNat_mul]
  exact ⟨Nat.mod_eq_of_lt (by omega), by omega⟩

structure Products.Short (x : Products) : Prop where
  x0 : x.x0.toNat < 2 ^ 64 - 2 ^ 32
  x1 : x.x1.toNat < 2 ^ 64 - 2 ^ 32
  x2 : x.x2.toNat < 3 * 2 ^ 62
  x3 : x.x3.toNat < 2 ^ 63 + 2 ^ 32
  x4 : x.x4.toNat ≤ 15

/-- A limb times 5/4. -/
theorem toNat_quarters {x : UInt32} (hx : x.toNat < 2 ^ 28) (hmod : x.toNat % 4 = 0) :
    (x >>> 2 + x).toNat = 5 * (x.toNat / 4) ∧ (x >>> 2 + x).toNat < 5 * 2 ^ 26 := by
  have hsum : (x >>> 2 + x).toNat = 5 * (x.toNat / 4) := by
    rw [UInt32.toNat_add, toNat_shiftRight_two]
    omega
  exact ⟨hsum, by omega⟩

/-- One of the words of the product. -/
theorem toNat_row {s : Sums} (hs : s.Short) {r0 r1 r2 r3 r4 : UInt32} {b0 b1 b2 b3 : Nat}
    (h0 : r0.toNat < b0) (h1 : r1.toNat < b1) (h2 : r2.toNat < b2) (h3 : r3.toNat < b3)
    (hb : b0 ≤ 5 * 2 ^ 26 ∧ b1 ≤ 5 * 2 ^ 26 ∧ b2 ≤ 5 * 2 ^ 26 ∧ b3 ≤ 5 * 2 ^ 26)
    (h4 : r4.toNat < 5 * 2 ^ 26) :
    (s.s0 * r0.toUInt64 + s.s1 * r1.toUInt64 + s.s2 * r2.toUInt64 + s.s3 * r3.toUInt64 +
          (s.s4 * r4).toUInt64).toNat =
        s.s0.toNat * r0.toNat + s.s1.toNat * r1.toNat + s.s2.toNat * r2.toNat +
          s.s3.toNat * r3.toNat + s.s4.toNat * r4.toNat ∧
      s.s0.toNat * r0.toNat + s.s1.toNat * r1.toNat + s.s2.toNat * r2.toNat +
          s.s3.toNat * r3.toNat + s.s4.toNat * r4.toNat <
        2 ^ 33 * (b0 + b1 + b2 + b3) + 2 ^ 31 := by
  obtain ⟨e0, l0⟩ := toNat_mul_limb hs.s0 h0 (by omega)
  obtain ⟨e1, l1⟩ := toNat_mul_limb hs.s1 h1 (by omega)
  obtain ⟨e2, l2⟩ := toNat_mul_limb hs.s2 h2 (by omega)
  obtain ⟨e3, l3⟩ := toNat_mul_limb hs.s3 h3 (by omega)
  obtain ⟨e4, l4⟩ := toNat_mul_top hs.s4 h4
  refine ⟨?_, by omega⟩
  simp only [UInt64.toNat_add, e0, e1, e2, e3, e4]
  omega

theorem multiply_eq {r : Quad} (hr : Clamped r) {s : Sums} (hs : s.Short) :
    (∃ q, s.value * r.value = (multiply r s).value + prime * q) ∧ (multiply r s).Short := by
  obtain ⟨r0, r1, r2, r3, m1, m2, m3⟩ := hr
  obtain ⟨q1, b1⟩ := toNat_quarters r1 m1
  obtain ⟨q2, b2⟩ := toNat_quarters r2 m2
  obtain ⟨q3, b3⟩ := toNat_quarters r3 m3
  have q0 : ((r.w0 >>> 2) * 5).toNat = 5 * (r.w0.toNat / 4) := by
    rw [UInt32.toNat_mul, toNat_shiftRight_two]
    change r.w0.toNat / 4 * 5 % 2 ^ 32 = _
    omega
  have b0 : ((r.w0 >>> 2) * 5).toNat < 5 * 2 ^ 26 := by omega
  have x4 : (s.s4 * (r.w0 &&& 3)).toNat = s.s4.toNat * (r.w0.toNat % 4) ∧
      s.s4.toNat * (r.w0.toNat % 4) ≤ 15 := by
    have hle : s.s4.toNat * (r.w0.toNat % 4) ≤ 5 * 3 := Nat.mul_le_mul hs.s4 (by omega)
    rw [UInt32.toNat_mul, toNat_and_three]
    exact ⟨Nat.mod_eq_of_lt (by omega), hle⟩
  unfold multiply
  dsimp only
  generalize (r.w0 >>> 2) * 5 = rr0 at *
  generalize r.w1 >>> 2 + r.w1 = rr1 at *
  generalize r.w2 >>> 2 + r.w2 = rr2 at *
  generalize r.w3 >>> 2 + r.w3 = rr3 at *
  obtain ⟨e0, l0⟩ := @toNat_row s hs r.w0 rr3 rr2 rr1 rr0 _ _ _ _ r0 b3 b2 b1 (by decide) b0
  obtain ⟨e1, l1⟩ := @toNat_row s hs r.w1 r.w0 rr3 rr2 rr1 _ _ _ _ r1 r0 b3 b2 (by decide) b1
  obtain ⟨e2, l2⟩ := @toNat_row s hs r.w2 r.w1 r.w0 rr3 rr2 _ _ _ _ r2 r1 r0 b3 (by decide) b2
  obtain ⟨e3, l3⟩ := @toNat_row s hs r.w3 r.w2 r.w1 r.w0 rr3 _ _ _ _ r3 r2 r1 r0 (by decide) b3
  constructor
  · have d0 : r.w0.toNat = 4 * (r.w0.toNat / 4) + r.w0.toNat % 4 := by omega
    have d1 : r.w1.toNat = 4 * (r.w1.toNat / 4) := by omega
    have d2 : r.w2.toNat = 4 * (r.w2.toNat / 4) := by omega
    have d3 : r.w3.toNat = 4 * (r.w3.toNat / 4) := by omega
    have hproduct := product_eq s.s0.toNat s.s1.toNat s.s2.toNat s.s3.toNat s.s4.toNat
      (r.w0.toNat % 4) (r.w0.toNat / 4) (r.w1.toNat / 4) (r.w2.toNat / 4) (r.w3.toNat / 4)
    rw [← d0, ← d1, ← d2, ← d3, ← q0, ← q1, ← q2, ← q3] at hproduct
    unfold Sums.value Quad.value Products.value
    dsimp only
    rw [e0, e1, e2, e3, x4.1]
    exact ⟨_, hproduct⟩
  · refine ⟨?_, ?_, ?_, ?_, ?_⟩ <;> dsimp only <;> omega

theorem reduce_eq {x : Products} (hx : x.Short) :
    (∃ q, (reduce x).value + prime * q = x.value) ∧ (reduce x).h4.toNat ≤ 4 := by
  obtain ⟨l0, l1, l2, l3, l4⟩ := hx
  have h5 : (x.x4.toUInt64 + high x.x3).toUInt32.toNat = x.x4.toNat + x.x3.toNat / 2 ^ 32 := by
    rw [UInt64.toNat_toUInt32, UInt64.toNat_add, UInt32.toNat_toUInt64, toNat_high]
    omega
  unfold reduce
  dsimp only
  generalize (x.x4.toUInt64 + high x.x3).toUInt32 = u5 at *
  have hfive : ((u5 >>> 2) * 5).toNat = u5.toNat / 4 * 5 := by
    rw [UInt32.toNat_mul, toNat_shiftRight_two]
    change u5.toNat / 4 * 5 % 2 ^ 32 = _
    omega
  have h0 : (((u5 >>> 2) * 5).toUInt64 + low x.x0).toNat =
      u5.toNat / 4 * 5 + x.x0.toNat % 2 ^ 32 := by
    rw [UInt64.toNat_add, UInt32.toNat_toUInt64, hfive, toNat_low]
    omega
  generalize ((u5 >>> 2) * 5).toUInt64 + low x.x0 = u0 at *
  have h1 : (high u0 + low x.x1 + high x.x0).toNat =
      u0.toNat / 2 ^ 32 + x.x1.toNat % 2 ^ 32 + x.x0.toNat / 2 ^ 32 := by
    simp only [UInt64.toNat_add, toNat_low, toNat_high]
    omega
  generalize high u0 + low x.x1 + high x.x0 = u1 at *
  have h2 : (high u1 + low x.x2 + high x.x1).toNat =
      u1.toNat / 2 ^ 32 + x.x2.toNat % 2 ^ 32 + x.x1.toNat / 2 ^ 32 := by
    simp only [UInt64.toNat_add, toNat_low, toNat_high]
    omega
  generalize high u1 + low x.x2 + high x.x1 = u2 at *
  have h3 : (high u2 + low x.x3 + high x.x2).toNat =
      u2.toNat / 2 ^ 32 + x.x3.toNat % 2 ^ 32 + x.x2.toNat / 2 ^ 32 := by
    simp only [UInt64.toNat_add, toNat_low, toNat_high]
    omega
  generalize high u2 + low x.x3 + high x.x2 = u3 at *
  have h4 : (high u3 + (u5 &&& 3).toUInt64).toUInt32.toNat = u3.toNat / 2 ^ 32 + u5.toNat % 4 := by
    rw [UInt64.toNat_toUInt32, UInt64.toNat_add, UInt32.toNat_toUInt64, toNat_high,
      toNat_and_three]
    omega
  generalize (high u3 + (u5 &&& 3).toUInt64).toUInt32 = u4 at *
  constructor
  · refine ⟨u5.toNat / 4, ?_⟩
    simp only [Hash.value, Products.value, UInt64.toNat_toUInt32, toNat_low, prime]
    omega
  · omega

theorem polyBlock_eq {r : Quad} (hr : Clamped r) {h : Hash} (hh : h.h4.toNat ≤ 4) {inp : Bytes}
    (hinp : inp.length = 16) {last : UInt32} (hlast : last.toNat ≤ 1) :
    (polyBlock r last h inp).value % prime =
        step r.value h.value (leValue inp + 2 ^ 128 * last.toNat) ∧
      (polyBlock r last h inp).h4.toNat ≤ 4 := by
  obtain ⟨hsum, hsums⟩ := addChunk_eq hh hinp hlast
  obtain ⟨⟨q, hproduct⟩, hproducts⟩ := multiply_eq hr hsums
  obtain ⟨⟨q', hreduce⟩, htop⟩ := reduce_eq hproducts
  refine ⟨?_, htop⟩
  unfold step polyBlock
  rw [← hsum]
  exact mod_prime_eq hreduce hproduct

end Products

section Final

/-- Five more than a number is above 2^130 if the number is above the prime. -/
theorem finalCarry_eq {h : Hash} (hh : h.h4.toNat ≤ 4) :
    (finalCarry h).toNat = 5 * ((h.value + 5) / 2 ^ 130) := by
  have l0 := h.h0.toNat_lt
  have l1 := h.h1.toNat_lt
  have l2 := h.h2.toNat_lt
  have l3 := h.h3.toNat_lt
  have e0 : (high (5 + h.h0.toUInt64)).toNat = (5 + h.h0.toNat) / 2 ^ 32 := by
    rw [toNat_high, UInt64.toNat_add, UInt32.toNat_toUInt64]
    change (5 + h.h0.toNat) % 2 ^ 64 / 2 ^ 32 = _
    omega
  unfold finalCarry
  dsimp only
  generalize high (5 + h.h0.toUInt64) = c0 at *
  have e1 : (high (c0 + h.h1.toUInt64)).toNat = (c0.toNat + h.h1.toNat) / 2 ^ 32 := by
    rw [toNat_high, UInt64.toNat_add, UInt32.toNat_toUInt64]
    omega
  generalize high (c0 + h.h1.toUInt64) = c1 at *
  have e2 : (high (c1 + h.h2.toUInt64)).toNat = (c1.toNat + h.h2.toNat) / 2 ^ 32 := by
    rw [toNat_high, UInt64.toNat_add, UInt32.toNat_toUInt64]
    omega
  generalize high (c1 + h.h2.toUInt64) = c2 at *
  have e3 : (high (c2 + h.h3.toUInt64)).toNat = (c2.toNat + h.h3.toNat) / 2 ^ 32 := by
    rw [toNat_high, UInt64.toNat_add, UInt32.toNat_toUInt64]
    omega
  generalize high (c2 + h.h3.toUInt64) = c3 at *
  rw [UInt64.toNat_mul, toNat_shiftRight64 _ 2 (by decide), UInt64.toNat_add,
    UInt32.toNat_toUInt64]
  change (c3.toNat + h.h4.toNat) % 2 ^ 64 / 2 ^ 2 * 5 % 2 ^ 64 = _
  unfold Hash.value
  omega

theorem addPad_eq (h : Hash) (pad : Quad) {c : UInt64} (hc : c.toNat ≤ 5) :
    addPad h pad c = tagBytes ((h.value + c.toNat + pad.value) % 2 ^ 128) := by
  have hadd : ∀ {f : UInt64} (x y : UInt32), f.toNat < 2 ^ 62 →
      (f + (x.toUInt64 + y.toUInt64)).toNat = f.toNat + (x.toNat + y.toNat) ∧
        f.toNat + (x.toNat + y.toNat) < 2 ^ 63 := by
    intro f x y hf
    have hx := x.toNat_lt
    have hy := y.toNat_lt
    simp only [UInt64.toNat_add, UInt32.toNat_toUInt64]
    omega
  obtain ⟨e0, l0⟩ := @hadd c h.h0 pad.w0 (by omega)
  unfold addPad
  dsimp only
  generalize c + (h.h0.toUInt64 + pad.w0.toUInt64) = c0 at *
  obtain ⟨e1, l1⟩ := @hadd (high c0) h.h1 pad.w1 (by rw [toNat_high]; omega)
  rw [toNat_high] at e1
  generalize high c0 + (h.h1.toUInt64 + pad.w1.toUInt64) = c1 at *
  obtain ⟨e2, l2⟩ := @hadd (high c1) h.h2 pad.w2 (by rw [toNat_high]; omega)
  rw [toNat_high] at e2
  generalize high c1 + (h.h2.toUInt64 + pad.w2.toUInt64) = c2 at *
  obtain ⟨e3, l3⟩ := @hadd (high c2) h.h3 pad.w3 (by rw [toNat_high]; omega)
  rw [toNat_high] at e3
  generalize high c2 + (h.h3.toUInt64 + pad.w3.toUInt64) = c3 at *
  have hsum : h.value + c.toNat + pad.value = c0.toNat % 2 ^ 32 + 2 ^ 32 * (c1.toNat % 2 ^ 32) +
      2 ^ 64 * (c2.toNat % 2 ^ 32) + 2 ^ 96 * c3.toNat + 2 ^ 128 * h.h4.toNat := by
    unfold Hash.value Quad.value
    omega
  rw [hsum]
  exact tagBytes_of_words (by omega) (by omega) (by omega) (by omega)

/-- The carry subtracts the prime when the number is not below it. -/
theorem addPad_finalCarry {h : Hash} (hh : h.h4.toNat ≤ 4) (pad : Quad) :
    addPad h pad (finalCarry h) = tagBytes ((h.value % prime + pad.value) % 2 ^ 128) := by
  have hcarry := finalCarry_eq hh
  have hlt : h.value < 5 * 2 ^ 128 := by
    have l0 := h.h0.toNat_lt
    have l1 := h.h1.toNat_lt
    have l2 := h.h2.toNat_lt
    have l3 := h.h3.toNat_lt
    unfold Hash.value
    omega
  rw [addPad_eq h pad (by omega), hcarry]
  congr 1
  by_cases hsmall : h.value < prime
  · have hzero : (h.value + 5) / 2 ^ 130 = 0 := by
      unfold prime at hsmall
      omega
    rw [Nat.mod_eq_of_lt hsmall, hzero]
    rfl
  · have hone : (h.value + 5) / 2 ^ 130 = 1 := by
      unfold prime at hsmall
      omega
    have hmod : h.value % prime = h.value - prime := by
      rw [Nat.mod_eq_sub_mod (Nat.le_of_not_lt hsmall)]
      apply Nat.mod_eq_of_lt
      unfold prime
      omega
    rw [hone, hmod]
    unfold prime at *
    omega

end Final

section Updates

theorem toNat_gap (n : Nat) : (gap (UInt64.ofNat n) 16).toNat = (16 - n % 16) % 16 := by
  have hmask : (gap (UInt64.ofNat n) 16).toNat = (~~~UInt64.ofNat n + 1).toNat % 2 ^ 4 := by
    unfold gap
    rw [UInt64.toNat_and]
    exact Nat.and_two_pow_sub_one_eq_mod _ 4
  rw [hmask, UInt64.toNat_add, UInt64.toNat_not, UInt64.toNat_ofNat']
  change (2 ^ 64 - 1 - n % 2 ^ 64 + 1) % 2 ^ 64 % 2 ^ 4 = _
  omega

/-- The loop over whole blocks, and what it leaves. -/
theorem feed_eq_polyBlocks (r : Quad) (h : Hash) (message : Bytes) :
    feed blockBytes_pos (polyBlock r 1) h message =
      (polyBlocks r 1 h message (message.length >>> 4),
        (message.drop (message.length >>> 4 <<< 4)).take (message.length &&& 15)) := by
  have hmask : ∀ n : Nat, n &&& 15 = n % 16 := fun n => Nat.and_two_pow_sub_one_eq_mod n 4
  simp only [Nat.shiftRight_eq_div_pow, Nat.shiftLeft_eq, hmask]
  fun_induction feed blockBytes_pos (polyBlock r 1) h message with
  | case1 h message hle ih =>
      have hblocks : message.length / 2 ^ 4 = (message.drop 16).length / 2 ^ 4 + 1 := by
        rw [List.length_drop]
        omega
      have hmod : (message.drop 16).length % 16 = message.length % 16 := by
        rw [List.length_drop]
        omega
      rw [ih, hblocks, polyBlocks, List.drop_drop, hmod, Nat.add_mul, Nat.add_comm 16]
  | case2 h message hshort =>
      have hblocks : message.length / 2 ^ 4 = 0 := by omega
      have hmod : message.length % 16 = message.length := by omega
      rw [hblocks, hmod, polyBlocks, Nat.zero_mul, List.drop_zero, List.take_length]

/-- The context after some data. -/
def withData (ctx : CryptoPoly1305Ctx) (data : Bytes) : CryptoPoly1305Ctx :=
  let fed := feed blockBytes_pos (polyBlock ctx.r 1) ctx.h data
  { ctx with h := fed.1, c := fed.2 }

theorem cryptoPoly1305Update_eq (ctx : CryptoPoly1305Ctx) (hc : ctx.c.length < 16)
    (message : Bytes) : cryptoPoly1305Update ctx message = withData ctx (ctx.c ++ message) := by
  unfold cryptoPoly1305Update
  by_cases hempty : message.length = 0
  · have hnil : message = [] := List.length_eq_zero_iff.mp hempty
    rw [if_pos hempty, hnil, List.append_nil]
    unfold withData
    rw [feed_short _ _ _ hc]
  · rw [if_neg hempty, toNat_gap]
    dsimp only
    unfold withData
    by_cases hzero : ctx.c.length = 0
    · -- the chunk is empty, and there is nothing to align
      have hnil : ctx.c = [] := List.length_eq_zero_iff.mp hzero
      have haligned : min ((16 - ctx.c.length % 16) % 16) message.length = 0 := by omega
      rw [haligned, hnil, feed_eq_polyBlocks]
      rfl
    · by_cases hshort : message.length < 16 - ctx.c.length
      · -- the message does not fill the chunk
        have haligned : min ((16 - ctx.c.length % 16) % 16) message.length = message.length := by
          omega
        have hlen : (ctx.c ++ message).length < 16 := by
          rw [List.length_append]
          omega
        rw [haligned, List.take_length, List.drop_length, if_neg (Nat.ne_of_lt hlen),
          feed_short _ _ _ hlen]
        simp [polyBlocks]
      · -- the message fills the chunk
        have haligned : min ((16 - ctx.c.length % 16) % 16) message.length =
            16 - ctx.c.length := by omega
        have hlen : (ctx.c ++ message.take (16 - ctx.c.length)).length = 16 := by
          rw [List.length_append, List.length_take_of_le (Nat.le_of_not_lt hshort)]
          omega
        have hsplit : ctx.c ++ message = (ctx.c ++ message.take (16 - ctx.c.length)) ++
            message.drop (16 - ctx.c.length) := by
          rw [List.append_assoc, List.take_append_drop]
        rw [haligned, if_pos hlen, hsplit, feed_block _ _ _ hlen, feed_eq_polyBlocks]
        simp only [polyBlocks, List.take_of_length_le (Nat.le_of_eq hlen), List.nil_append]

/-- Data may come in pieces. -/
theorem cryptoPoly1305Update_withData (ctx : CryptoPoly1305Ctx) (xs ys : Bytes) :
    cryptoPoly1305Update (withData ctx xs) ys = withData ctx (xs ++ ys) := by
  have hc : (withData ctx xs).c.length < 16 := length_feed_rest ..
  rw [cryptoPoly1305Update_eq _ hc]
  unfold withData
  rw [feed_pieces _ _ ctx.h xs ys]

/-- The hash stands for a number modulo the prime. -/
structure Stands (h : Hash) (x : Nat) : Prop where
  top : h.h4.toNat ≤ 4
  value : h.value % prime = x

theorem stands_zero : Stands ⟨0, 0, 0, 0, 0⟩ 0 := ⟨by decide, rfl⟩

theorem Stands.block {r : Quad} (hr : Clamped r) {h : Hash} {x : Nat} (hs : Stands h x)
    {inp : Bytes} (hinp : inp.length = 16) {last : UInt32} (hlast : last.toNat ≤ 1) :
    Stands (polyBlock r last h inp) (step r.value x (leValue inp + 2 ^ 128 * last.toNat)) := by
  obtain ⟨hvalue, htop⟩ := polyBlock_eq hr hs.top hinp hlast
  refine ⟨htop, ?_⟩
  rw [hvalue]
  apply step_congr
  rw [← hs.value, Nat.mod_mod]

theorem stands_withData {ctx : CryptoPoly1305Ctx} (hr : Clamped ctx.r) {x : Nat}
    (hs : Stands ctx.h x) (data : Bytes) :
    Stands (withData ctx data).h
        (feed blockBytes_pos (stepBlock ctx.r.value) x data).1 ∧
      (withData ctx data).c = (feed blockBytes_pos (stepBlock ctx.r.value) x data).2 := by
  refine feed_related _ _ ?_ hs data
  intro h x block hblock hstands
  exact hstands.block hr hblock (show UInt32.toNat 1 ≤ 1 by decide)

theorem set_append_zeros {c : Bytes} (hc : c.length < 16) :
    (c ++ List.replicate (16 - c.length) 0).set c.length 1 =
      c ++ [1] ++ List.replicate (16 - c.length - 1) 0 := by
  obtain ⟨n, hn⟩ : ∃ n, 16 - c.length = n + 1 := ⟨16 - c.length - 1, by omega⟩
  rw [hn, List.set_append_right _ _ (Nat.le_refl _), Nat.sub_self, List.replicate_succ,
    List.set_cons_zero, List.append_assoc]
  rfl

theorem cryptoPoly1305Final_eq {ctx : CryptoPoly1305Ctx} (hr : Clamped ctx.r)
    (hc : ctx.c.length < 16) {x : Nat} (hs : Stands ctx.h x) :
    cryptoPoly1305Final ctx =
      tagBytes ((stepRest ctx.r.value x ctx.c + ctx.pad.value) % 2 ^ 128) := by
  have hlast : Stands
      (if ctx.c.length ≠ 0 then
        polyBlocks ctx.r 0 ctx.h
          ((ctx.c ++ List.replicate (16 - ctx.c.length) 0).set ctx.c.length 1) 1
      else ctx.h) (stepRest ctx.r.value x ctx.c) := by
    unfold stepRest
    by_cases hempty : ctx.c = []
    · rw [if_pos hempty, hempty]
      exact hs
    · have hpos : ctx.c.length ≠ 0 := fun h => hempty (List.length_eq_zero_iff.mp h)
      have hblock : (ctx.c ++ [1] ++ List.replicate (16 - ctx.c.length - 1) 0).length = 16 := by
        simp only [List.length_append, List.length_replicate, List.length_singleton]
        omega
      have hstep := hs.block hr hblock (show UInt32.toNat 0 ≤ 1 by decide)
      rw [leValue_append_zeros] at hstep
      rw [if_neg hempty, if_pos hpos, set_append_zeros hc]
      simp only [polyBlocks, List.take_of_length_le (Nat.le_of_eq hblock)]
      exact hstep
  unfold cryptoPoly1305Final
  dsimp only
  generalize (if ctx.c.length ≠ 0 then _ else ctx.h) = h at *
  rw [addPad_finalCarry hlast.top, hlast.value]

theorem clamped_init (key : Bytes) : Clamped (cryptoPoly1305Init key).r := by
  unfold cryptoPoly1305Init
  constructor <;> dsimp only <;> simp only [toNat_clamp_first, toNat_clamp] <;> omega

/-- All data of a message in a row give the tag of the message. -/
theorem cryptoPoly1305Final_withData (key msg : Bytes) :
    cryptoPoly1305Final (withData (cryptoPoly1305Init key) msg) =
      tagBytes (tag (cryptoPoly1305Init key).r.value (cryptoPoly1305Init key).pad.value msg) := by
  have hr := clamped_init key
  obtain ⟨hstands, hrest⟩ := stands_withData hr stands_zero msg
  have hc : (withData (cryptoPoly1305Init key) msg).c.length < 16 := length_feed_rest ..
  have htag := @cryptoPoly1305Final_eq (withData (cryptoPoly1305Init key) msg) hr hc _ hstands
  rw [htag, hrest]
  rfl

end Updates

end WgNx.PolyPortable
