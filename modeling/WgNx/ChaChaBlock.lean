import Mathlib.Logic.Function.Iterate
import WgNx.WordBytes

/-!
The ChaCha20 block function, once with 32-bit variables as in the portable library
and once with four-lane vectors.

The vector code keeps the state in four rows.  A quarter round on the rows is a
quarter round on every column; rotating the lanes of three rows turns the diagonals
into columns and back.
-/

namespace WgNx.ChaChaBlock

open WgNx.ByteLayout
open WgNx.WordBytes

section Scalar

/-- `uint32_t[16]` -/
structure Words where
  t0 : UInt32
  t1 : UInt32
  t2 : UInt32
  t3 : UInt32
  t4 : UInt32
  t5 : UInt32
  t6 : UInt32
  t7 : UInt32
  t8 : UInt32
  t9 : UInt32
  t10 : UInt32
  t11 : UInt32
  t12 : UInt32
  t13 : UInt32
  t14 : UInt32
  t15 : UInt32
  deriving DecidableEq

def Words.toList (w : Words) : List UInt32 :=
  [w.t0, w.t1, w.t2, w.t3, w.t4, w.t5, w.t6, w.t7,
    w.t8, w.t9, w.t10, w.t11, w.t12, w.t13, w.t14, w.t15]

/-- `store32_le_buf` -/
def Words.toBytes (w : Words) : Bytes := w.toList.flatMap store32Le

def rotl32 (x n : UInt32) : UInt32 := (x <<< n) ^^^ (x >>> (32 - n))

/-- `QUARTERROUND` -/
def quarterround (a b c d : UInt32) : UInt32 × UInt32 × UInt32 × UInt32 :=
  let a := a + b
  let d := rotl32 (d ^^^ a) 16
  let c := c + d
  let b := rotl32 (b ^^^ c) 12
  let a := a + b
  let d := rotl32 (d ^^^ a) 8
  let c := c + d
  let b := rotl32 (b ^^^ c) 7
  (a, b, c, d)

/-- The body of the loop of `chacha20_rounds`. -/
def doubleRound (t : Words) : Words :=
  let (t0, t4, t8, t12) := quarterround t.t0 t.t4 t.t8 t.t12
  let (t1, t5, t9, t13) := quarterround t.t1 t.t5 t.t9 t.t13
  let (t2, t6, t10, t14) := quarterround t.t2 t.t6 t.t10 t.t14
  let (t3, t7, t11, t15) := quarterround t.t3 t.t7 t.t11 t.t15
  let (t0, t5, t10, t15) := quarterround t0 t5 t10 t15
  let (t1, t6, t11, t12) := quarterround t1 t6 t11 t12
  let (t2, t7, t8, t13) := quarterround t2 t7 t8 t13
  let (t3, t4, t9, t14) := quarterround t3 t4 t9 t14
  ⟨t0, t1, t2, t3, t4, t5, t6, t7, t8, t9, t10, t11, t12, t13, t14, t15⟩

def chacha20Rounds (input : Words) : Words := doubleRound^[10] input

/-- `pool[j] + input[j]` -/
def addWords (pool input : Words) : Words where
  t0 := pool.t0 + input.t0
  t1 := pool.t1 + input.t1
  t2 := pool.t2 + input.t2
  t3 := pool.t3 + input.t3
  t4 := pool.t4 + input.t4
  t5 := pool.t5 + input.t5
  t6 := pool.t6 + input.t6
  t7 := pool.t7 + input.t7
  t8 := pool.t8 + input.t8
  t9 := pool.t9 + input.t9
  t10 := pool.t10 + input.t10
  t11 := pool.t11 + input.t11
  t12 := pool.t12 + input.t12
  t13 := pool.t13 + input.t13
  t14 := pool.t14 + input.t14
  t15 := pool.t15 + input.t15

end Scalar

section Vector

/-- `uint32x4_t` -/
structure U32x4 where
  l0 : UInt32
  l1 : UInt32
  l2 : UInt32
  l3 : UInt32

/-- `uint16x8_t` -/
structure U16x8 where
  h0 : UInt16
  h1 : UInt16
  h2 : UInt16
  h3 : UInt16
  h4 : UInt16
  h5 : UInt16
  h6 : UInt16
  h7 : UInt16

def U32x4.map (f : UInt32 → UInt32) (a : U32x4) : U32x4 := ⟨f a.l0, f a.l1, f a.l2, f a.l3⟩

def U32x4.zipWith (f : UInt32 → UInt32 → UInt32) (a b : U32x4) : U32x4 :=
  ⟨f a.l0 b.l0, f a.l1 b.l1, f a.l2 b.l2, f a.l3 b.l3⟩

def vaddqU32 : U32x4 → U32x4 → U32x4 := U32x4.zipWith (· + ·)

def veorqU32 : U32x4 → U32x4 → U32x4 := U32x4.zipWith (· ^^^ ·)

def vorrqU32 : U32x4 → U32x4 → U32x4 := U32x4.zipWith (· ||| ·)

def vshlqNU32 (a : U32x4) (n : UInt32) : U32x4 := a.map (· <<< n)

def vshrqNU32 (a : U32x4) (n : UInt32) : U32x4 := a.map (· >>> n)

/-- The four lanes from lane `n` of the two operands on. -/
def vextqU32 (a b : U32x4) : Fin 4 → U32x4
  | 0 => a
  | 1 => ⟨a.l1, a.l2, a.l3, b.l0⟩
  | 2 => ⟨a.l2, a.l3, b.l0, b.l1⟩
  | 3 => ⟨a.l3, b.l0, b.l1, b.l2⟩

/-- On a little-endian target the low half of a lane comes first. -/
def vreinterpretqU16U32 (a : U32x4) : U16x8 :=
  ⟨a.l0.toUInt16, (a.l0 >>> 16).toUInt16, a.l1.toUInt16, (a.l1 >>> 16).toUInt16,
    a.l2.toUInt16, (a.l2 >>> 16).toUInt16, a.l3.toUInt16, (a.l3 >>> 16).toUInt16⟩

/-- The halfwords of every word in reverse order. -/
def vrev32qU16 (v : U16x8) : U16x8 := ⟨v.h1, v.h0, v.h3, v.h2, v.h5, v.h4, v.h7, v.h6⟩

def vreinterpretqU32U16 (v : U16x8) : U32x4 :=
  ⟨v.h0.toUInt32 ||| v.h1.toUInt32 <<< 16, v.h2.toUInt32 ||| v.h3.toUInt32 <<< 16,
    v.h4.toUInt32 ||| v.h5.toUInt32 <<< 16, v.h6.toUInt32 ||| v.h7.toUInt32 <<< 16⟩

def rotlNeon (x : U32x4) (n : UInt32) : U32x4 :=
  vorrqU32 (vshlqNU32 x n) (vshrqNU32 x (32 - n))

/-- `ROTL16` -/
def rotl16 (x : U32x4) : U32x4 := vreinterpretqU32U16 (vrev32qU16 (vreinterpretqU16U32 x))

/-- The four rows of the state. -/
structure Rows where
  row0 : U32x4
  row1 : U32x4
  row2 : U32x4
  row3 : U32x4

def quarterroundNeon (v : Rows) : Rows :=
  let ⟨a, b, c, d⟩ := v
  let a := vaddqU32 a b
  let d := veorqU32 d a
  let d := rotl16 d
  let c := vaddqU32 c d
  let b := veorqU32 b c
  let b := rotlNeon b 12
  let a := vaddqU32 a b
  let d := veorqU32 d a
  let d := rotlNeon d 8
  let c := vaddqU32 c d
  let b := veorqU32 b c
  let b := rotlNeon b 7
  ⟨a, b, c, d⟩

/-- The body of the loop of `chacha20_block_neon_internal`. -/
def doubleRoundNeon (v : Rows) : Rows :=
  let v := quarterroundNeon v
  let v : Rows :=
    ⟨v.row0, vextqU32 v.row1 v.row1 1, vextqU32 v.row2 v.row2 2, vextqU32 v.row3 v.row3 3⟩
  let v := quarterroundNeon v
  ⟨v.row0, vextqU32 v.row1 v.row1 3, vextqU32 v.row2 v.row2 2, vextqU32 v.row3 v.row3 1⟩

/-- Four `vld1q_u32` from an array of words. -/
def Rows.ofWords (w : Words) : Rows :=
  ⟨⟨w.t0, w.t1, w.t2, w.t3⟩, ⟨w.t4, w.t5, w.t6, w.t7⟩,
    ⟨w.t8, w.t9, w.t10, w.t11⟩, ⟨w.t12, w.t13, w.t14, w.t15⟩⟩

/-- Four `vst1q_u32` to an array of words. -/
def Rows.toWords (v : Rows) : Words :=
  ⟨v.row0.l0, v.row0.l1, v.row0.l2, v.row0.l3, v.row1.l0, v.row1.l1, v.row1.l2, v.row1.l3,
    v.row2.l0, v.row2.l1, v.row2.l2, v.row2.l3, v.row3.l0, v.row3.l1, v.row3.l2, v.row3.l3⟩

def chacha20BlockNeonInternal (input : Words) : Words :=
  let orig := Rows.ofWords input
  let v := doubleRoundNeon^[10] orig
  Rows.toWords
    ⟨vaddqU32 v.row0 orig.row0, vaddqU32 v.row1 orig.row1, vaddqU32 v.row2 orig.row2,
      vaddqU32 v.row3 orig.row3⟩

end Vector

section Rotation

theorem or_eq_xor_of_rotate (x : BitVec 32) {n : Nat} (hn : n ≤ 32) :
    x <<< n ||| x >>> (32 - n) = x <<< n ^^^ x >>> (32 - n) := by
  ext i hi
  simp only [BitVec.getElem_or, BitVec.getElem_xor, BitVec.getElem_shiftLeft,
    BitVec.getElem_ushiftRight]
  rcases Nat.lt_or_ge i n with hlow | hhigh
  · simp [hlow]
  · simp [Nat.not_lt.mpr hhigh, BitVec.getLsbD_of_ge x (32 - n + i) (by omega)]

theorem toBitVec_shiftLeft_of_lt (x : UInt32) {n : UInt32} (hlt : n.toNat < 32) :
    (x <<< n).toBitVec = x.toBitVec <<< n.toNat := by
  apply BitVec.eq_of_toNat_eq
  rw [BitVec.toNat_shiftLeft]
  change (x <<< n).toNat = _
  rw [UInt32.toNat_shiftLeft, Nat.mod_eq_of_lt hlt]
  rfl

theorem toBitVec_shiftRight_of_lt (x : UInt32) {n : UInt32} (hlt : n.toNat < 32) :
    (x >>> n).toBitVec = x.toBitVec >>> n.toNat := by
  apply BitVec.eq_of_toNat_eq
  rw [BitVec.toNat_ushiftRight]
  change (x >>> n).toNat = _
  rw [UInt32.toNat_shiftRight, Nat.mod_eq_of_lt hlt]
  rfl

/-- The shift that completes a rotation. -/
theorem toNat_other_shift {n : UInt32} (hlt : n.toNat < 32) : (32 - n).toNat = 32 - n.toNat := by
  apply UInt32.toNat_sub_of_le
  rw [UInt32.le_iff_toNat_le]
  exact Nat.le_of_lt hlt

theorem or_eq_rotl32 (x n : UInt32) (hpos : 0 < n.toNat) (hlt : n.toNat < 32) :
    x <<< n ||| x >>> (32 - n) = rotl32 x n := by
  have hother := toNat_other_shift hlt
  apply UInt32.eq_of_toBitVec_eq
  unfold rotl32
  rw [UInt32.toBitVec_or, UInt32.toBitVec_xor, toBitVec_shiftLeft_of_lt x hlt,
    toBitVec_shiftRight_of_lt x (by omega), hother]
  exact or_eq_xor_of_rotate _ (Nat.le_of_lt hlt)

theorem rotlNeon_eq (x : U32x4) (n : UInt32) (hpos : 0 < n.toNat) (hlt : n.toNat < 32) :
    rotlNeon x n = x.map (rotl32 · n) := by
  simp only [rotlNeon, vorrqU32, vshlqNU32, vshrqNU32, U32x4.zipWith, U32x4.map,
    or_eq_rotl32 _ n hpos hlt]

theorem swap_halves (x : UInt32) :
    (x >>> 16).toUInt16.toUInt32 ||| x.toUInt16.toUInt32 <<< 16 = rotl32 x 16 := by
  have hx := x.toNat_lt
  have hhigh : (x >>> 16).toUInt16.toUInt32 = x >>> 16 := by
    apply UInt32.toNat_inj.mp
    rw [UInt16.toNat_toUInt32, UInt32.toNat_toUInt16, UInt32.toNat_shiftRight,
      Nat.shiftRight_eq_div_pow]
    change x.toNat / 2 ^ 16 % 2 ^ 16 = x.toNat / 2 ^ 16
    omega
  have hlow : x.toUInt16.toUInt32 <<< 16 = x <<< 16 := by
    apply UInt32.toNat_inj.mp
    rw [UInt32.toNat_shiftLeft, UInt32.toNat_shiftLeft, UInt16.toNat_toUInt32,
      UInt32.toNat_toUInt16, Nat.shiftLeft_eq, Nat.shiftLeft_eq]
    change x.toNat % 2 ^ 16 * 2 ^ 16 % 2 ^ 32 = x.toNat * 2 ^ 16 % 2 ^ 32
    omega
  rw [hhigh, hlow, UInt32.or_comm]
  exact or_eq_rotl32 x 16 (by decide) (by decide)

theorem rotl16_eq (x : U32x4) : rotl16 x = x.map (rotl32 · 16) := by
  simp only [rotl16, vreinterpretqU32U16, vrev32qU16, vreinterpretqU16U32, U32x4.map,
    swap_halves]

end Rotation

section Equivalence

/-- The four results of a quarter round on each column. -/
def columns (q : UInt32 → UInt32 → UInt32 → UInt32 → UInt32 × UInt32 × UInt32 × UInt32)
    (v : Rows) : Rows :=
  let c0 := q v.row0.l0 v.row1.l0 v.row2.l0 v.row3.l0
  let c1 := q v.row0.l1 v.row1.l1 v.row2.l1 v.row3.l1
  let c2 := q v.row0.l2 v.row1.l2 v.row2.l2 v.row3.l2
  let c3 := q v.row0.l3 v.row1.l3 v.row2.l3 v.row3.l3
  ⟨⟨c0.1, c1.1, c2.1, c3.1⟩, ⟨c0.2.1, c1.2.1, c2.2.1, c3.2.1⟩,
    ⟨c0.2.2.1, c1.2.2.1, c2.2.2.1, c3.2.2.1⟩, ⟨c0.2.2.2, c1.2.2.2, c2.2.2.2, c3.2.2.2⟩⟩

theorem quarterroundNeon_eq (v : Rows) : quarterroundNeon v = columns quarterround v := by
  unfold quarterroundNeon
  dsimp only
  rw [rotl16_eq, rotlNeon_eq _ 12 (by decide) (by decide), rotlNeon_eq _ 8 (by decide) (by decide),
    rotlNeon_eq _ 7 (by decide) (by decide)]
  rfl

theorem toWords_doubleRoundNeon (v : Rows) :
    (doubleRoundNeon v).toWords = doubleRound v.toWords := by
  unfold doubleRoundNeon doubleRound
  simp only [quarterroundNeon_eq]
  generalize quarterround = q
  rfl

/-- The vector code computes the words of the portable code. -/
theorem chacha20BlockNeonInternal_eq (input : Words) :
    chacha20BlockNeonInternal input = addWords (chacha20Rounds input) input := by
  have hrounds : (doubleRoundNeon^[10] (Rows.ofWords input)).toWords = chacha20Rounds input := by
    have hsemi : Function.Semiconj Rows.toWords doubleRoundNeon doubleRound :=
      toWords_doubleRoundNeon
    exact hsemi.iterate_right 10 (Rows.ofWords input)
  unfold chacha20BlockNeonInternal
  rw [← hrounds]
  rfl

end Equivalence

end WgNx.ChaChaBlock
