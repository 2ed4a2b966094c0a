import Mathlib.Algebra.BigOperators.Group.Finset.Basic
import Mathlib.Algebra.BigOperators.Ring.Finset
import Mathlib.Algebra.Order.Ring.Nat
import WgNx.CheckedWords
import WgNx.PolyNeon

/-!
Poly1305 as a formula, and that the code computes it without overflow.

The formula is a sum over the blocks of the message; the code evaluates it block by
block from the front.  To say that nothing overflows, the code is written down once
more with arithmetic that notices it: this version yields the same tag, so none of
its operations has failed.
-/

namespace WgNx.PolyTag

open WgNx.BlockFeed
open WgNx.ByteLayout
open WgNx.CheckedWords
open WgNx.PolyHash
open WgNx.PolyNeon
open WgNx.WordArith
open WgNx.WordBytes

section Formula

/-- How many blocks of at most sixteen bytes a message has. -/
def blockCount (msg : Bytes) : Nat := (msg.length + 15) / 16

/-- Block `i` as a number, with one more bit behind its last byte. -/
def blockNumber (msg : Bytes) (i : Nat) : Nat :=
  let block := (msg.drop (16 * i)).take 16
  leValue block + 2 ^ (8 * block.length)

/-- The blocks as the coefficients of a polynomial; the last one goes with `r`. -/
def blockSum (r : Nat) (msg : Bytes) : Nat :=
  ∑ i ∈ Finset.range (blockCount msg), blockNumber msg i * r ^ (blockCount msg - i)

/-- The first half of the key with 22 of its bits cleared. -/
def clampedR (key : ByteVec 32) : Nat :=
  leValue (key.toList.take 16) &&& 0x0ffffffc0ffffffc0ffffffc0fffffff

def padS (key : ByteVec 32) : Nat := leValue (key.toList.drop 16)

theorem leValue_snoc_one (bytes : Bytes) :
    leValue (bytes ++ [1]) = leValue bytes + 2 ^ (8 * bytes.length) := by
  induction bytes with
  | nil => rfl
  | cons b bytes ih =>
      have hpow : 2 ^ (8 * (bytes.length + 1)) = 256 * 2 ^ (8 * bytes.length) := by
        rw [Nat.mul_add, Nat.pow_add, Nat.mul_comm]
      rw [List.cons_append, leValue_cons, leValue_cons, ih, List.length_cons, hpow, Nat.mul_add,
        Nat.add_assoc]

theorem blockCount_long {msg : Bytes} (h : 16 ≤ msg.length) :
    blockCount msg = blockCount (msg.drop 16) + 1 := by
  unfold blockCount
  rw [List.length_drop]
  omega

theorem blockNumber_zero_long {msg : Bytes} (h : 16 ≤ msg.length) :
    blockNumber msg 0 = leValue (msg.take 16) + 2 ^ 128 := by
  unfold blockNumber
  dsimp only
  rw [Nat.mul_zero, List.drop_zero, List.length_take_of_le h]

theorem blockNumber_succ (msg : Bytes) (i : Nat) :
    blockNumber msg (i + 1) = blockNumber (msg.drop 16) i := by
  unfold blockNumber
  rw [List.drop_drop, Nat.mul_add, Nat.mul_one, Nat.add_comm 16]

/-- One more block in front. -/
theorem blockSum_long (r : Nat) {msg : Bytes} (h : 16 ≤ msg.length) :
    blockSum r msg =
      (leValue (msg.take 16) + 2 ^ 128) * r ^ blockCount msg + blockSum r (msg.drop 16) := by
  unfold blockSum
  rw [blockCount_long h, Finset.sum_range_succ', Nat.add_comm, blockNumber_zero_long h,
    Nat.sub_zero]
  refine congrArg (_ + ·) (Finset.sum_congr rfl fun i _ => ?_)
  rw [blockNumber_succ, Nat.add_sub_add_right]

theorem blockSum_short (r : Nat) {msg : Bytes} (h : msg.length < 16) (hne : msg ≠ []) :
    blockSum r msg = leValue (msg ++ [1]) * r := by
  have hpos := List.length_pos_of_ne_nil hne
  have hcount : blockCount msg = 1 := by
    unfold blockCount
    omega
  unfold blockSum blockNumber
  rw [hcount, Finset.sum_range_one, Nat.mul_zero, List.drop_zero,
    List.take_of_length_le (Nat.le_of_lt h), leValue_snoc_one, Nat.sub_zero, Nat.pow_one]

/-- Feeding a message to the block step evaluates the polynomial, with what was there
before in front. -/
theorem stepRest_feed_mod (r x : Nat) (msg : Bytes) :
    stepRest r (feed blockBytes_pos (stepBlock r) x msg).1
        (feed blockBytes_pos (stepBlock r) x msg).2 % prime =
      (x * r ^ blockCount msg + blockSum r msg) % prime := by
  fun_induction feed blockBytes_pos (stepBlock r) x msg with
  | case1 x msg hle ih =>
      rw [ih, blockSum_long r hle, blockCount_long hle, stepBlock, step, Nat.pow_succ]
      rw [Nat.add_mod, Nat.mod_mul_mod, ← Nat.add_mod]
      congr 1
      ring
  | case2 x msg hshort =>
      have hlt := Nat.lt_of_not_le hshort
      dsimp only [stepRest]
      by_cases hnil : msg = []
      · rw [if_pos hnil, hnil]
        simp [blockCount, blockSum]
      · have hcount : blockCount msg = 1 := by
          have hpos := List.length_pos_of_ne_nil hnil
          unfold blockCount
          omega
        rw [if_neg hnil, blockSum_short r hlt hnil, hcount, step, Nat.mod_mod, Nat.pow_one,
          Nat.add_mul]

theorem step_lt (r acc m : Nat) : step r acc m < prime := Nat.mod_lt _ (by decide)

theorem stepRest_feed_lt (r : Nat) {x : Nat} (hx : x < prime) (msg : Bytes) :
    stepRest r (feed blockBytes_pos (stepBlock r) x msg).1
      (feed blockBytes_pos (stepBlock r) x msg).2 < prime := by
  fun_induction feed blockBytes_pos (stepBlock r) x msg with
  | case1 x msg hle ih => exact ih (step_lt ..)
  | case2 x msg hshort =>
      unfold stepRest
      split
      · exact hx
      · exact step_lt ..

theorem hash_eq_blockSum (r : Nat) (msg : Bytes) : hash r msg = blockSum r msg % prime := by
  have hmod := stepRest_feed_mod r 0 msg
  rw [Nat.zero_mul, Nat.zero_add, Nat.mod_eq_of_lt (stepRest_feed_lt r (by decide) msg)] at hmod
  exact hmod

end Formula

section Numbers

/-- Masking a number word by word. -/
theorem and_two_words {a c : Nat} (ha : a < 2 ^ 32) (hc : c < 2 ^ 32) (b d : Nat) :
    (a + 2 ^ 32 * b) &&& (c + 2 ^ 32 * d) = (a &&& c) + 2 ^ 32 * (b &&& d) := by
  have hand : a &&& c < 2 ^ 32 := Nat.and_lt_two_pow a hc
  apply Nat.eq_of_testBit_eq
  intro i
  rw [Nat.testBit_and, Nat.add_comm a, Nat.add_comm c, Nat.add_comm (a &&& c),
    Nat.testBit_two_pow_mul_add b ha, Nat.testBit_two_pow_mul_add d hc,
    Nat.testBit_two_pow_mul_add _ hand]
  split
  · rw [Nat.testBit_and]
  · rw [Nat.testBit_and]

theorem value_and (t m : Quad) :
    t.value &&& m.value =
      Quad.value ⟨t.w0 &&& m.w0, t.w1 &&& m.w1, t.w2 &&& m.w2, t.w3 &&& m.w3⟩ := by
  have hvalue : ∀ q : Quad, q.value =
      q.w0.toNat + 2 ^ 32 * (q.w1.toNat + 2 ^ 32 * (q.w2.toNat + 2 ^ 32 * q.w3.toNat)) := by
    intro q
    unfold Quad.value
    omega
  simp only [hvalue, and_two_words (UInt32.toNat_lt _) (UInt32.toNat_lt _), UInt32.toNat_and]

theorem keyR_eq (key : ByteVec 32) : keyR key.toList = clampedR key := by
  have hmask : (0x0ffffffc0ffffffc0ffffffc0fffffff : Nat) =
      Quad.value ⟨0x0fffffff, 0x0ffffffc, 0x0ffffffc, 0x0ffffffc⟩ := rfl
  have htake : loadQuad (key.toList.take 16) = loadQuad key.toList := by
    unfold loadQuad
    rw [load32Le_take _ (by decide), load32Le_take _ (by decide), load32Le_take _ (by decide),
      load32Le_take _ (by decide)]
  unfold keyR clampedR
  rw [loadQuad_clampBytes_eq, ← value_loadQuad (by simp), hmask, value_and, htake]
  rfl

theorem keyS_eq (key : ByteVec 32) : keyS key.toList = padS key :=
  value_loadQuad (by simp)

theorem tagBytes_eq (x : Nat) : tagBytes x = (leBytes 16 x).toList := by
  unfold tagBytes
  simp only [store32Le_ofNat, leBytes_succ_toList, leBytes_zero_toList, Nat.div_div_eq_div_mul]
  rfl

end Numbers

section Checked

/-- `dotProduct` with every product and sum checked. -/
def dotProduct? (a b : Limbs) : Option UInt64 := do
  let d ← mul64? a.h0.toUInt64 b.h0.toUInt64
  let d ← add64? d (← mul64? a.h1.toUInt64 b.h1.toUInt64)
  let d ← add64? d (← mul64? a.h2.toUInt64 b.h2.toUInt64)
  let d ← add64? d (← mul64? a.h3.toUInt64 b.h3.toUInt64)
  add64? d (← mul64? a.h4.toUInt64 b.h4.toUInt64)

def carry? (lo hi : UInt64) : Option (UInt64 × UInt64) := do
  return (lo &&& 0x3ffffff, ← add64? hi (lo >>> 26))

def carryProducts? (h0 h1 h2 h3 h4 : UInt64) : Option Limbs := do
  let (h0, h1) ← carry? h0 h1
  let (h1, h2) ← carry? h1 h2
  let (h2, h3) ← carry? h2 h3
  let (h3, h4) ← carry? h3 h4
  let c := h4 >>> 26
  let h4 := h4 &&& 0x3ffffff
  let h0 ← add64? h0 (← mul64? c 5)
  let (h0, h1) ← carry? h0 h1
  return ⟨← narrow? h0, ← narrow? h1, ← narrow? h2, ← narrow? h3, ← narrow? h4⟩

/-- The sums are narrowed for the products. -/
def addLimbs? (acc t : Limbs) : Option Limbs := do
  let a0 ← add64? acc.h0.toUInt64 t.h0.toUInt64
  let a1 ← add64? acc.h1.toUInt64 t.h1.toUInt64
  let a2 ← add64? acc.h2.toUInt64 t.h2.toUInt64
  let a3 ← add64? acc.h3.toUInt64 t.h3.toUInt64
  let a4 ← add64? acc.h4.toUInt64 t.h4.toUInt64
  return ⟨← narrow? a0, ← narrow? a1, ← narrow? a2, ← narrow? a3, ← narrow? a4⟩

/-- Splitting words into limbs only selects bits. -/
def poly1305BlockNeon? (r acc : Limbs) (data : Bytes) (hibit : UInt32) : Option Limbs := do
  let a ← addLimbs? acc (splitQuad (loadQuad data) hibit)
  let s1 ← mul32? r.h1 5
  let s2 ← mul32? r.h2 5
  let s3 ← mul32? r.h3 5
  let s4 ← mul32? r.h4 5
  let d0 ← dotProduct? a ⟨r.h0, s4, s3, s2, s1⟩
  let d1 ← dotProduct? a ⟨r.h1, r.h0, s4, s3, s2⟩
  let d2 ← dotProduct? a ⟨r.h2, r.h1, r.h0, s4, s3⟩
  let d3 ← dotProduct? a ⟨r.h3, r.h2, r.h1, r.h0, s4⟩
  let d4 ← dotProduct? a ⟨r.h4, r.h3, r.h2, r.h1, r.h0⟩
  carryProducts? d0 d1 d2 d3 d4

def updateBlocks? (ctx : WgPoly1305Ctx) (data : Bytes) : Option WgPoly1305Ctx :=
  let fed := feed blockBytes_pos
    (fun acc block => acc.bind (poly1305BlockNeon? ctx.r · block 1)) (some ctx.acc) data
  fed.1.map fun acc => { ctx with acc := acc, buf := fed.2 }

def wgPoly1305Update? (ctx : WgPoly1305Ctx) (data : Bytes) : Option WgPoly1305Ctx :=
  if ctx.buf.length > 0 then
    let want := 16 - ctx.buf.length
    if data.length < want then some { ctx with buf := ctx.buf ++ data }
    else do
      let acc ← poly1305BlockNeon? ctx.r ctx.acc (ctx.buf ++ data.take want) 1
      updateBlocks? { ctx with acc := acc, buf := [] } (data.drop want)
  else updateBlocks? ctx data

def carry32? (lo hi : UInt32) : Option (UInt32 × UInt32) := do
  return (lo &&& 0x3ffffff, ← add32? hi (lo >>> 26))

def carryLimbs? (h : Limbs) : Option Limbs := do
  let (h1, h2) ← carry32? h.h1 h.h2
  let (h2, h3) ← carry32? h2 h.h3
  let (h3, h4) ← carry32? h3 h.h4
  let c := h4 >>> 26
  let h4 := h4 &&& 0x3ffffff
  let h0 ← add32? h.h0 (← mul32? c 5)
  let (h0, h1) ← carry32? h0 h1
  return ⟨h0, h1, h2, h3, h4⟩

/-- The last limb has a sign; the code looks at its top bit. -/
def subtractPrime? (h : Limbs) : Option Limbs := do
  let (g0, g1) ← carry32? (← add32? h.h0 5) h.h1
  let (g1, g2) ← carry32? g1 h.h2
  let (g2, g3) ← carry32? g2 h.h3
  let (g3, g4) ← carry32? g3 h.h4
  return ⟨g0, g1, g2, g3, ← signedSub32? g4 ((1 : UInt32) <<< 26)⟩

/-- The mask is 0 or -1. -/
def selectLimbs? (h g : Limbs) : Option Limbs := do
  let mask ← signedSub32? (g.h4 >>> 31) 1
  return ⟨(h.h0 &&& ~~~mask) ||| (g.h0 &&& mask), (h.h1 &&& ~~~mask) ||| (g.h1 &&& mask),
    (h.h2 &&& ~~~mask) ||| (g.h2 &&& mask), (h.h3 &&& ~~~mask) ||| (g.h3 &&& mask),
    (h.h4 &&& ~~~mask) ||| (g.h4 &&& mask)⟩

/-- What the last word loses is what the tag loses modulo 2^128. -/
def addPad? (h : Limbs) (s : Quad) : Option Bytes := do
  let f0 ← add64? (h.h0.toUInt64 ||| (← shiftLeft64? h.h1.toUInt64 26)) s.w0.toUInt64
  let f1 ← add64? (← shiftLeft64? h.h2.toUInt64 20) s.w1.toUInt64
  let f2 ← add64? (← shiftLeft64? h.h3.toUInt64 14) s.w2.toUInt64
  let f3 ← add64? (← shiftLeft64? h.h4.toUInt64 8) s.w3.toUInt64
  let f1 ← add64? f1 (f0 >>> 32)
  let f0 := f0 &&& 0xffffffff
  let f2 ← add64? f2 (f1 >>> 32)
  let f1 := f1 &&& 0xffffffff
  let f3 ← add64? f3 (f2 >>> 32)
  let f2 := f2 &&& 0xffffffff
  return store32Le (← narrow? f0) ++ store32Le (← narrow? f1) ++ store32Le (← narrow? f2) ++
    store32Le f3.toUInt32

/-- The accumulator after the bytes that are left in the buffer. -/
def lastBlock? (ctx : WgPoly1305Ctx) : Option Limbs :=
  if ctx.buf.length > 0 then
    poly1305BlockNeon? ctx.r ctx.acc
      (ctx.buf ++ [1] ++ List.replicate (16 - ctx.buf.length - 1) 0) 0
  else some ctx.acc

def wgPoly1305Final? (ctx : WgPoly1305Ctx) : Option Bytes := do
  let acc ← lastBlock? ctx
  let h ← carryLimbs? acc
  let g ← subtractPrime? h
  addPad? (← selectLimbs? h g) ctx.s

end Checked

section Exact

theorem dotProduct?_eq {a b : Limbs} (ha : a.Bounded (2 ^ 28)) (hb : b.Bounded (2 ^ 29)) :
    dotProduct? a b = some (dotProduct a b) := by
  have h0 := mul_lt_of_short ha.h0 hb.h0
  have h1 := mul_lt_of_short ha.h1 hb.h1
  have h2 := mul_lt_of_short ha.h2 hb.h2
  have h3 := mul_lt_of_short ha.h3 hb.h3
  have h4 := mul_lt_of_short ha.h4 hb.h4
  unfold dotProduct?
  simp only [mul64?_short, Option.bind_eq_bind, Option.bind_some]
  rw [add64?_eq (by simp only [toNat_mul64]; omega), Option.bind_some,
    add64?_eq (by simp only [UInt64.toNat_add, toNat_mul64]; omega), Option.bind_some,
    add64?_eq (by simp only [UInt64.toNat_add, toNat_mul64]; omega), Option.bind_some,
    add64?_eq (by simp only [UInt64.toNat_add, toNat_mul64]; omega)]
  rfl

theorem carry?_eq {lo hi : UInt64} (h : hi.toNat < 2 ^ 61) :
    carry? lo hi = some (carry lo hi) := by
  have hlo := lo.toNat_lt
  have hshift : (lo >>> 26).toNat = lo.toNat / 2 ^ 26 := toNat_shiftRight64 lo 26 (by decide)
  unfold carry?
  rw [add64?_eq (by rw [hshift]; omega)]
  rfl

theorem narrow?_short {v : UInt64} (h : v.toNat < 2 ^ 27) : narrow? v = some v.toUInt32 :=
  narrow?_eq (Nat.lt_trans h (by decide))

theorem carryProducts?_eq {d0 d1 d2 d3 d4 : UInt64} (h0 : d0.toNat < 2 ^ 60)
    (h1 : d1.toNat < 2 ^ 60) (h2 : d2.toNat < 2 ^ 60) (h3 : d3.toNat < 2 ^ 60)
    (h4 : d4.toNat < 2 ^ 60) :
    carryProducts? d0 d1 d2 d3 d4 = some (carryProducts d0 d1 d2 d3 d4) := by
  obtain ⟨a0, a1⟩ := @toNat_carry d0 d1 (by omega)
  obtain ⟨b1, b2⟩ := @toNat_carry (carry d0 d1).2 d2 (by omega)
  obtain ⟨c2, c3⟩ := @toNat_carry (carry (carry d0 d1).2 d2).2 d3 (by omega)
  obtain ⟨e3, e4⟩ := @toNat_carry (carry (carry (carry d0 d1).2 d2).2 d3).2 d4 (by omega)
  have hlow := toNat_come_around (show (carry d0 d1).1.toNat < 2 ^ 26 by omega)
    (carry (carry (carry (carry d0 d1).2 d2).2 d3).2 d4).2
  have hfive := toNat_carry_five (carry (carry (carry (carry d0 d1).2 d2).2 d3).2 d4).2
  have htop := toNat_mask64 (carry (carry (carry (carry d0 d1).2 d2).2 d3).2 d4).2
  unfold carryProducts? carryProducts
  simp only [carry?_eq (show d1.toNat < 2 ^ 61 by omega),
    carry?_eq (show d2.toNat < 2 ^ 61 by omega), carry?_eq (show d3.toNat < 2 ^ 61 by omega),
    carry?_eq (show d4.toNat < 2 ^ 61 by omega), Option.bind_eq_bind, Option.bind_some]
  generalize carry d0 d1 = p0 at *
  generalize carry p0.2 d2 = p1 at *
  generalize carry p1.2 d3 = p2 at *
  generalize carry p2.2 d4 = p3 at *
  obtain ⟨f0, f1⟩ := @toNat_carry (p0.1 + p3.2 >>> 26 * 5) p1.1 (by omega)
  have hshift : (p3.2 >>> 26).toNat = p3.2.toNat / 2 ^ 26 :=
    toNat_shiftRight64 p3.2 26 (by decide)
  have hmul : (p3.2 >>> 26).toNat * (5 : UInt64).toNat < 2 ^ 64 := by
    rw [hshift]
    change p3.2.toNat / 2 ^ 26 * 5 < 2 ^ 64
    omega
  rw [mul64?_eq hmul, Option.bind_some, add64?_eq (by omega), Option.bind_some,
    carry?_eq (by omega), Option.bind_some, narrow?_short (by omega), Option.bind_some,
    narrow?_short (by omega), Option.bind_some, narrow?_short (by omega), Option.bind_some,
    narrow?_short (by omega), Option.bind_some, narrow?_short (by omega), Option.bind_some]
  rfl

theorem addLimbs?_eq {acc t : Limbs} (ha : acc.Loose) (ht : t.Bounded (2 ^ 26)) :
    addLimbs? acc t = some (addLimbs acc t) := by
  obtain ⟨a0, a1, a2, a3, a4⟩ := ha
  obtain ⟨t0, t1, t2, t3, t4⟩ := ht
  have hsum : ∀ x y : UInt32, x.toNat + y.toNat < 2 ^ 32 →
      add64? x.toUInt64 y.toUInt64 = some (x.toUInt64 + y.toUInt64) ∧
        narrow? (x.toUInt64 + y.toUInt64) = some (x.toUInt64 + y.toUInt64).toUInt32 := by
    intro x y h
    have hadd : (x.toUInt64 + y.toUInt64).toNat = x.toNat + y.toNat := by
      rw [toNat_add64, UInt32.toNat_toUInt64, UInt32.toNat_toUInt64]
      rw [UInt32.toNat_toUInt64, UInt32.toNat_toUInt64]
      omega
    refine ⟨add64?_eq ?_, narrow?_eq (by rw [hadd]; exact h)⟩
    rw [UInt32.toNat_toUInt64, UInt32.toNat_toUInt64]
    omega
  obtain ⟨s0, n0⟩ := hsum acc.h0 t.h0 (by omega)
  obtain ⟨s1, n1⟩ := hsum acc.h1 t.h1 (by omega)
  obtain ⟨s2, n2⟩ := hsum acc.h2 t.h2 (by omega)
  obtain ⟨s3, n3⟩ := hsum acc.h3 t.h3 (by omega)
  obtain ⟨s4, n4⟩ := hsum acc.h4 t.h4 (by omega)
  unfold addLimbs?
  simp only [s0, s1, s2, s3, s4, n0, n1, n2, n3, n4, Option.bind_eq_bind, Option.bind_some]
  rfl

theorem mul32?_five {x : UInt32} (h : x.toNat < 2 ^ 26) : mul32? x 5 = some (x * 5) := by
  apply mul32?_eq
  change x.toNat * 5 < 2 ^ 32
  omega

theorem poly1305BlockNeon?_eq {r acc : Limbs} (hr : r.Bounded (2 ^ 26)) (hacc : acc.Loose)
    (data : Bytes) {hibit : UInt32} (hbit : hibit.toNat ≤ 1) :
    poly1305BlockNeon? r acc data hibit = some (poly1305BlockNeon r acc data hibit) := by
  have htBound := (splitQuad_eq (loadQuad data) hbit).2
  have haBound := (addLimbs_eq hacc htBound).2
  have m1 := (toNat_mul_five hr.h1).2
  have m2 := (toNat_mul_five hr.h2).2
  have m3 := (toNat_mul_five hr.h3).2
  have m4 := (toNat_mul_five hr.h4).2
  obtain ⟨r0, r1, r2, r3, r4⟩ := hr.mono (show 2 ^ 26 ≤ 2 ^ 29 by decide)
  unfold poly1305BlockNeon? poly1305BlockNeon
  simp only [addLimbs?_eq hacc htBound, mul32?_five hr.h1, mul32?_five hr.h2, mul32?_five hr.h3,
    mul32?_five hr.h4, Option.bind_eq_bind, Option.bind_some]
  generalize addLimbs acc (splitQuad (loadQuad data) hibit) = a at *
  have b0 : Limbs.Bounded ⟨r.h0, r.h4 * 5, r.h3 * 5, r.h2 * 5, r.h1 * 5⟩ (2 ^ 29) :=
    ⟨r0, m4, m3, m2, m1⟩
  have b1 : Limbs.Bounded ⟨r.h1, r.h0, r.h4 * 5, r.h3 * 5, r.h2 * 5⟩ (2 ^ 29) :=
    ⟨r1, r0, m4, m3, m2⟩
  have b2 : Limbs.Bounded ⟨r.h2, r.h1, r.h0, r.h4 * 5, r.h3 * 5⟩ (2 ^ 29) :=
    ⟨r2, r1, r0, m4, m3⟩
  have b3 : Limbs.Bounded ⟨r.h3, r.h2, r.h1, r.h0, r.h4 * 5⟩ (2 ^ 29) := ⟨r3, r2, r1, r0, m4⟩
  have b4 : Limbs.Bounded ⟨r.h4, r.h3, r.h2, r.h1, r.h0⟩ (2 ^ 29) := ⟨r4, r3, r2, r1, r0⟩
  rw [dotProduct?_eq haBound b0, Option.bind_some, dotProduct?_eq haBound b1, Option.bind_some,
    dotProduct?_eq haBound b2, Option.bind_some, dotProduct?_eq haBound b3, Option.bind_some,
    dotProduct?_eq haBound b4, Option.bind_some]
  exact carryProducts?_eq (toNat_dotProduct haBound b0).2 (toNat_dotProduct haBound b1).2
    (toNat_dotProduct haBound b2).2 (toNat_dotProduct haBound b3).2
    (toNat_dotProduct haBound b4).2

theorem carry32?_eq {lo hi : UInt32} (h : hi.toNat < 2 ^ 31) :
    carry32? lo hi = some (carry32 lo hi) := by
  have hlo := lo.toNat_lt
  have hshift : (lo >>> 26).toNat = lo.toNat / 2 ^ 26 := toNat_shiftRight32 lo 26 (by decide)
  unfold carry32?
  rw [add32?_eq (by rw [hshift]; omega)]
  rfl

theorem carryLimbs?_eq {h : Limbs} (hl : h.Loose) : carryLimbs? h = some (carryLimbs h) := by
  obtain ⟨l0, l1, l2, l3, l4⟩ := hl
  obtain ⟨a1, a2⟩ := @toNat_carry32 h.h1 h.h2 (by omega)
  obtain ⟨b2, b3⟩ := @toNat_carry32 (carry32 h.h1 h.h2).2 h.h3 (by omega)
  obtain ⟨c3, c4⟩ := @toNat_carry32 (carry32 (carry32 h.h1 h.h2).2 h.h3).2 h.h4 (by omega)
  unfold carryLimbs? carryLimbs
  simp only [carry32?_eq (show h.h2.toNat < 2 ^ 31 by omega),
    carry32?_eq (show h.h3.toNat < 2 ^ 31 by omega),
    carry32?_eq (show h.h4.toNat < 2 ^ 31 by omega), Option.bind_eq_bind, Option.bind_some]
  generalize carry32 h.h1 h.h2 = p1 at *
  generalize carry32 p1.2 h.h3 = p2 at *
  generalize carry32 p2.2 h.h4 = p3 at *
  have hfive := toNat_carry_five32 p3.2
  have hshift : (p3.2 >>> 26).toNat = p3.2.toNat / 2 ^ 26 :=
    toNat_shiftRight32 p3.2 26 (by decide)
  have hmul : (p3.2 >>> 26).toNat * (5 : UInt32).toNat < 2 ^ 32 := by
    have htop := p3.2.toNat_lt
    rw [hshift]
    change p3.2.toNat / 2 ^ 26 * 5 < 2 ^ 32
    omega
  rw [mul32?_eq hmul, Option.bind_some, add32?_eq (by omega), Option.bind_some,
    carry32?_eq (by omega), Option.bind_some]
  rfl

theorem subtractPrime?_eq {h : Limbs} (hb : h.Bounded (2 ^ 26)) :
    subtractPrime? h = some (subtractPrime h) := by
  obtain ⟨b0, b1, b2, b3, b4⟩ := hb
  have hsum : h.h0.toNat + (5 : UInt32).toNat < 2 ^ 32 := by
    change h.h0.toNat + 5 < 2 ^ 32
    omega
  have hfive : (h.h0 + 5).toNat = h.h0.toNat + 5 := toNat_add32 hsum
  obtain ⟨a0, a1⟩ := @toNat_carry32 (h.h0 + 5) h.h1 (by omega)
  obtain ⟨c1, c2⟩ := @toNat_carry32 (carry32 (h.h0 + 5) h.h1).2 h.h2 (by omega)
  obtain ⟨d2, d3⟩ := @toNat_carry32 (carry32 (carry32 (h.h0 + 5) h.h1).2 h.h2).2 h.h3 (by omega)
  obtain ⟨e3, e4⟩ := @toNat_carry32
    (carry32 (carry32 (carry32 (h.h0 + 5) h.h1).2 h.h2).2 h.h3).2 h.h4 (by omega)
  unfold subtractPrime? subtractPrime
  simp only [add32?_eq hsum, carry32?_eq (show h.h1.toNat < 2 ^ 31 by omega),
    carry32?_eq (show h.h2.toNat < 2 ^ 31 by omega),
    carry32?_eq (show h.h3.toNat < 2 ^ 31 by omega),
    carry32?_eq (show h.h4.toNat < 2 ^ 31 by omega), Option.bind_eq_bind, Option.bind_some]
  have hone : ((1 : UInt32) <<< 26).toNat = 2 ^ 26 := rfl
  rw [signedSub32?_eq (by omega) (by omega), Option.bind_some]
  rfl

theorem selectLimbs?_eq (h g : Limbs) : selectLimbs? h g = some (selectLimbs h g) := by
  have htop := g.h4.toNat_lt
  have hshift : (g.h4 >>> 31).toNat = g.h4.toNat / 2 ^ 31 := toNat_shiftRight32 g.h4 31 (by decide)
  have hone : (1 : UInt32).toNat = 1 := rfl
  unfold selectLimbs?
  rw [signedSub32?_eq (by omega) (by omega)]
  rfl


theorem shiftLeft64?_short {x : UInt32} (hx : x.toNat < 2 ^ 26) {k : UInt64}
    (hk : k.toNat ≤ 26) : shiftLeft64? x.toUInt64 k = some (x.toUInt64 <<< k) := by
  have hpow : 2 ^ k.toNat ≤ 2 ^ 26 := Nat.pow_le_pow_right (by decide) hk
  apply shiftLeft64?_eq
  rw [UInt32.toNat_toUInt64]
  calc x.toNat * 2 ^ k.toNat < 2 ^ 26 * 2 ^ 26 := Nat.mul_lt_mul_of_lt_of_le hx hpow (by decide)
    _ < 2 ^ 64 := by decide

theorem narrow?_mask (f : UInt64) :
    narrow? (f &&& 0xffffffff) = some (f &&& 0xffffffff).toUInt32 := by
  apply narrow?_eq
  rw [UInt64.toNat_and]
  exact Nat.and_lt_two_pow f.toNat (by decide)

theorem add64?_high {f g : UInt64} (hg : g.toNat < 2 ^ 61) :
    add64? g (f >>> 32) = some (g + f >>> 32) := by
  have hf := f.toNat_lt
  have hshift : (f >>> 32).toNat = f.toNat / 2 ^ 32 := toNat_shiftRight64 f 32 (by decide)
  apply add64?_eq
  rw [hshift]
  omega

theorem addPad?_eq {h : Limbs} (hb : h.Bounded (2 ^ 26)) (s : Quad) :
    addPad? h s = some (addPad h s) := by
  obtain ⟨b0, b1, b2, b3, b4⟩ := hb
  have w0 := s.w0.toNat_lt
  have w1 := s.w1.toNat_lt
  have w2 := s.w2.toNat_lt
  have w3 := s.w3.toNat_lt
  have hlow := toNat_two_limbs b0 b1
  have l2 : (h.h2.toUInt64 <<< 20).toNat = 2 ^ 20 * h.h2.toNat := toNat_shiftLeft64 b2 (by decide)
  have l3 : (h.h3.toUInt64 <<< 14).toNat = 2 ^ 14 * h.h3.toNat := toNat_shiftLeft64 b3 (by decide)
  have l4 : (h.h4.toUInt64 <<< 8).toNat = 2 ^ 8 * h.h4.toNat := toNat_shiftLeft64 b4 (by decide)
  have f1 : (h.h2.toUInt64 <<< 20 + s.w1.toUInt64).toNat = 2 ^ 20 * h.h2.toNat + s.w1.toNat :=
    toNat_shifted_add b2 (by decide) s.w1
  have f2 : (h.h3.toUInt64 <<< 14 + s.w2.toUInt64).toNat = 2 ^ 14 * h.h3.toNat + s.w2.toNat :=
    toNat_shifted_add b3 (by decide) s.w2
  have f3 : (h.h4.toUInt64 <<< 8 + s.w3.toUInt64).toNat = 2 ^ 8 * h.h4.toNat + s.w3.toNat :=
    toNat_shifted_add b4 (by decide) s.w3
  unfold addPad? addPad
  simp only [shiftLeft64?_short b1 (show (26 : UInt64).toNat ≤ 26 by decide),
    shiftLeft64?_short b2 (show (20 : UInt64).toNat ≤ 26 by decide),
    shiftLeft64?_short b3 (show (14 : UInt64).toNat ≤ 26 by decide),
    shiftLeft64?_short b4 (show (8 : UInt64).toNat ≤ 26 by decide), narrow?_mask,
    Option.bind_eq_bind, Option.bind_some]
  rw [add64?_eq (by rw [hlow, UInt32.toNat_toUInt64]; omega), Option.bind_some,
    add64?_eq (by rw [l2, UInt32.toNat_toUInt64]; omega), Option.bind_some,
    add64?_eq (by rw [l3, UInt32.toNat_toUInt64]; omega), Option.bind_some,
    add64?_eq (by rw [l4, UInt32.toNat_toUInt64]; omega), Option.bind_some,
    add64?_high (by omega), Option.bind_some, add64?_high (by omega), Option.bind_some,
    add64?_high (by omega), Option.bind_some]
  rfl

end Exact

section Tags

/-- What every update leaves behind: the bounds the exactness of the next one rests on. -/
structure Ready (ctx : WgPoly1305Ctx) : Prop where
  r : ctx.r.Bounded (2 ^ 26)
  acc : ctx.acc.Loose
  buf : ctx.buf.length < 16

theorem ready_init (key : Bytes) : Ready (wgPoly1305Init key) :=
  ⟨(wgPoly1305Init_eq key).2, stands_zero.loose, Nat.zero_lt_succ 15⟩

variable {ctx : WgPoly1305Ctx}

theorem Ready.updateBlocks (hr : ctx.r.Bounded (2 ^ 26)) (hacc : ctx.acc.Loose) (data : Bytes) :
    Ready (updateBlocks ctx data) :=
  ⟨hr, (stands_updateBlocks hr ⟨hacc, rfl⟩ data).1.loose, length_feed_rest ..⟩

theorem Ready.update (h : Ready ctx) (data : Bytes) : Ready (wgPoly1305Update ctx data) := by
  rw [wgPoly1305Update_eq ctx h.buf]
  exact Ready.updateBlocks h.r h.acc _

theorem updateBlocks?_eq (hr : ctx.r.Bounded (2 ^ 26)) (hacc : ctx.acc.Loose) (data : Bytes) :
    updateBlocks? ctx data = some (updateBlocks ctx data) := by
  let checked : Option Limbs → Bytes → Option Limbs :=
    fun acc block => acc.bind (poly1305BlockNeon? ctx.r · block 1)
  let plain : Limbs → Bytes → Limbs := fun acc block => poly1305BlockNeon ctx.r acc block 1
  have hblock : ∀ (s : Option Limbs) (acc : Limbs) (block : Bytes), block.length = 16 →
      s = some acc ∧ acc.Loose → checked s block = some (plain acc block) ∧
        (plain acc block).Loose := by
    rintro s acc block hlen ⟨rfl, hloose⟩
    exact ⟨poly1305BlockNeon?_eq hr hloose block (by decide),
      (poly1305BlockNeon_eq hr hloose hlen (by decide)).2⟩
  obtain ⟨⟨hchecked, -⟩, hrest⟩ := feed_related blockBytes_pos checked hblock ⟨rfl, hacc⟩ data
  change ((feed blockBytes_pos checked (some ctx.acc) data).1.map fun acc =>
      { ctx with acc := acc, buf := (feed blockBytes_pos checked (some ctx.acc) data).2 }) = _
  rw [hchecked, hrest]
  rfl

theorem Ready.update? (h : Ready ctx) (data : Bytes) :
    wgPoly1305Update? ctx data = some (wgPoly1305Update ctx data) := by
  unfold wgPoly1305Update? wgPoly1305Update
  split
  · dsimp only
    split
    · rfl
    · rename_i hlong
      have hlen : (ctx.buf ++ data.take (16 - ctx.buf.length)).length = 16 := by
        have hbuf := h.buf
        rw [List.length_append, List.length_take_of_le (Nat.le_of_not_lt hlong)]
        omega
      have hloose := (poly1305BlockNeon_eq h.r h.acc hlen (show UInt32.toNat 1 ≤ 1 by decide)).2
      rw [poly1305BlockNeon?_eq h.r h.acc _ (by decide)]
      exact @updateBlocks?_eq { ctx with acc := _, buf := [] } h.r hloose _
  · exact updateBlocks?_eq h.r h.acc data

theorem Ready.lastBlock? (h : Ready ctx) :
    ∃ acc : Limbs, acc.Loose ∧ lastBlock? ctx = some acc ∧
      (if ctx.buf.length > 0 then
        poly1305BlockNeon ctx.r ctx.acc
          (ctx.buf ++ [1] ++ List.replicate (16 - ctx.buf.length - 1) 0) 0
      else ctx.acc) = acc := by
  unfold PolyTag.lastBlock?
  by_cases hpos : ctx.buf.length > 0
  · have hlen : (ctx.buf ++ [1] ++ List.replicate (16 - ctx.buf.length - 1) 0).length = 16 := by
      have hbuf := h.buf
      simp only [List.length_append, List.length_replicate, List.length_singleton]
      omega
    rw [if_pos hpos, if_pos hpos]
    exact ⟨_, (poly1305BlockNeon_eq h.r h.acc hlen (show UInt32.toNat 0 ≤ 1 by decide)).2,
      poly1305BlockNeon?_eq h.r h.acc _ (by decide), rfl⟩
  · rw [if_neg hpos, if_neg hpos]
    exact ⟨_, h.acc, rfl, rfl⟩

theorem Ready.final? (h : Ready ctx) : wgPoly1305Final? ctx = some (wgPoly1305Final ctx) := by
  obtain ⟨acc, hloose, hchecked, hplain⟩ := h.lastBlock?
  have hbound := (carryLimbs_eq hloose).2
  have hfinal : wgPoly1305Final ctx =
      addPad (selectLimbs (carryLimbs acc) (subtractPrime (carryLimbs acc))) ctx.s := by
    unfold wgPoly1305Final
    rw [hplain]
  unfold wgPoly1305Final?
  rw [hchecked, Option.bind_eq_bind, Option.bind_some, carryLimbs?_eq hloose, Option.bind_some,
    subtractPrime?_eq hbound, Option.bind_some, selectLimbs?_eq, Option.bind_some,
    addPad?_eq (selectLimbs_eq hbound).2 ctx.s, hfinal]

/-- The tag of a message that comes in pieces. -/
def wgPoly1305Pieces (key : ByteVec 32) (pieces : List Bytes) : Bytes :=
  wgPoly1305Final (pieces.foldl wgPoly1305Update (wgPoly1305Init key.toList))

/-- The same with all arithmetic checked. -/
def wgPoly1305Pieces? (key : ByteVec 32) (pieces : List Bytes) : Option Bytes := do
  let ctx ← pieces.foldlM wgPoly1305Update? (wgPoly1305Init key.toList)
  wgPoly1305Final? ctx

theorem foldl_updateBlocks (ctx : WgPoly1305Ctx) (before : Bytes) (pieces : List Bytes) :
    pieces.foldl wgPoly1305Update (updateBlocks ctx before) =
      updateBlocks ctx (before ++ pieces.flatten) := by
  induction pieces generalizing before with
  | nil => rw [List.foldl_nil, List.flatten_nil, List.append_nil]
  | cons piece pieces ih =>
      rw [List.foldl_cons, wgPoly1305Update_updateBlocks, ih, List.flatten_cons,
        List.append_assoc]

theorem Ready.foldlM? (h : Ready ctx) (pieces : List Bytes) :
    pieces.foldlM wgPoly1305Update? ctx = some (pieces.foldl wgPoly1305Update ctx) ∧
      Ready (pieces.foldl wgPoly1305Update ctx) := by
  induction pieces generalizing ctx with
  | nil => exact ⟨rfl, h⟩
  | cons piece pieces ih =>
      obtain ⟨hrest, hready⟩ := ih (h.update piece)
      refine ⟨?_, hready⟩
      rw [List.foldlM_cons, h.update?]
      exact hrest

/-- However a message is cut into pieces, the code yields the sixteen bytes of the formula,
and no product, sum, shift or narrowing on the way loses anything. -/
theorem wg_poly1305_correct (key : ByteVec 32) (pieces : List Bytes) :
    wgPoly1305Pieces key pieces =
        (leBytes 16
          ((blockSum (clampedR key) pieces.flatten % prime + padS key) % 2 ^ 128)).toList ∧
      wgPoly1305Pieces? key pieces = some (wgPoly1305Pieces key pieces) := by
  constructor
  · have hdata := foldl_updateBlocks (wgPoly1305Init key.toList) [] pieces
    rw [updateBlocks_init, List.nil_append] at hdata
    unfold wgPoly1305Pieces
    rw [hdata, wgPoly1305Final_updateBlocks, tagBytes_eq, tag, hash_eq_blockSum, keyR_eq, keyS_eq]
  · obtain ⟨hupdates, hready⟩ := (ready_init key.toList).foldlM? pieces
    unfold wgPoly1305Pieces?
    rw [hupdates]
    exact hready.final?

end Tags

end WgNx.PolyTag
