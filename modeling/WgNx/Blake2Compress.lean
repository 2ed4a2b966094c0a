import Mathlib.Data.Fintype.Basic
import Mathlib.Tactic.FinCases
import WgNx.Blake2s
import WgNx.ChaChaBlock

/-!
The compression function of BLAKE2s, once on an array of sixteen words and once on four
rows of four lanes.

Both are compared with the definition of the hash function: a mixing step of the vector
code mixes all columns, and rotating the lanes of three rows turns the diagonals into
columns and back.
-/

namespace WgNx.Blake2Compress

open WgNx.ByteLayout
open WgNx.WordBytes
open WgNx.ChaChaBlock
open WgNx.Blake2s (put)

-- The index literals of the lanes, of the chain and of the working vector rest on these.
instance neZero_four : @NeZero Nat Zero.ofOfNat0 4 := Nat.instNeZeroSucc

instance neZero_eight : @NeZero Nat Zero.ofOfNat0 8 := Nat.instNeZeroSucc

instance neZero_sixteen : @NeZero Nat Zero.ofOfNat0 16 := Nat.instNeZeroSucc

/-- The table is the same in `blake2s.c` and `blake2s_neon.c`. -/
def blake2sIv : Vector UInt32 8 :=
  #v[0x6A09E667, 0xBB67AE85, 0x3C6EF372, 0xA54FF53A,
    0x510E527F, 0x9B05688C, 0x1F83D9AB, 0x5BE0CD19]

/-- The table is the same in `blake2s.c` and `blake2s_neon.c`. -/
def blake2sSigma : Vector (Vector (Fin 16) 16) 10 :=
  #v[#v[0, 1, 2, 3, 4, 5, 6, 7, 8, 9, 10, 11, 12, 13, 14, 15],
    #v[14, 10, 4, 8, 9, 15, 13, 6, 1, 12, 0, 2, 11, 7, 5, 3],
    #v[11, 8, 12, 0, 5, 2, 15, 13, 10, 14, 3, 6, 7, 1, 9, 4],
    #v[7, 9, 3, 1, 13, 12, 11, 14, 2, 6, 5, 10, 4, 0, 15, 8],
    #v[9, 0, 5, 7, 2, 4, 10, 15, 14, 1, 11, 12, 6, 8, 3, 13],
    #v[2, 12, 6, 10, 0, 11, 8, 3, 4, 13, 7, 5, 15, 14, 1, 9],
    #v[12, 5, 1, 15, 14, 13, 4, 10, 0, 7, 6, 3, 9, 2, 8, 11],
    #v[13, 11, 7, 14, 12, 1, 3, 9, 5, 0, 15, 4, 8, 6, 2, 10],
    #v[6, 15, 14, 9, 11, 3, 0, 8, 12, 2, 13, 7, 1, 4, 10, 5],
    #v[10, 2, 8, 4, 7, 6, 1, 5, 15, 11, 9, 14, 3, 12, 13, 0]]

section Scalar

/-- The part of `blake2s_state` that a compression reads. -/
structure Chain where
  h : Vector UInt32 8
  t0 : UInt32
  t1 : UInt32
  f0 : UInt32
  f1 : UInt32

def rotr32 (x n : UInt32) : UInt32 := (x >>> n) ||| (x <<< (32 - n))

/-- `m[i] = load32(block + i * 4)` -/
def loadWords (block : Bytes) : Vector UInt32 16 :=
  Vector.ofFn fun i => load32Le block (i * 4)

/-- `G(r, i, v[a], v[b], v[c], v[d])`, for the row `s` of the table. -/
def g (m : Vector UInt32 16) (s : Vector (Fin 16) 16) (i a b c d : Fin 16)
    (v : Vector UInt32 16) : Vector UInt32 16 :=
  let v := put v a (v.get a + v.get b + m.get (s.get (2 * i + 0)))
  let v := put v d (rotr32 (v.get d ^^^ v.get a) 16)
  let v := put v c (v.get c + v.get d)
  let v := put v b (rotr32 (v.get b ^^^ v.get c) 12)
  let v := put v a (v.get a + v.get b + m.get (s.get (2 * i + 1)))
  let v := put v d (rotr32 (v.get d ^^^ v.get a) 8)
  let v := put v c (v.get c + v.get d)
  put v b (rotr32 (v.get b ^^^ v.get c) 7)

/-- `ROUND(r)` -/
def round (m v : Vector UInt32 16) (s : Vector (Fin 16) 16) : Vector UInt32 16 :=
  let v := g m s 0 0 4 8 12 v
  let v := g m s 1 1 5 9 13 v
  let v := g m s 2 2 6 10 14 v
  let v := g m s 3 3 7 11 15 v
  let v := g m s 4 0 5 10 15 v
  let v := g m s 5 1 6 11 12 v
  let v := g m s 6 2 7 8 13 v
  g m s 7 3 4 9 14 v

def startVector (S : Chain) : Vector UInt32 16 :=
  #v[S.h.get 0, S.h.get 1, S.h.get 2, S.h.get 3, S.h.get 4, S.h.get 5, S.h.get 6, S.h.get 7,
    blake2sIv.get 0, blake2sIv.get 1, blake2sIv.get 2, blake2sIv.get 3,
    S.t0 ^^^ blake2sIv.get 4, S.t1 ^^^ blake2sIv.get 5,
    S.f0 ^^^ blake2sIv.get 6, S.f1 ^^^ blake2sIv.get 7]

def blake2sCompressScalar (S : Chain) (block : Bytes) : Chain :=
  let v := blake2sSigma.foldl (round (loadWords block)) (startVector S)
  { S with
    h := Vector.ofFn fun i => S.h.get i ^^^ v.get (Fin.castAdd 8 i) ^^^ v.get (Fin.natAdd 8 i) }

end Scalar

section Vector

/-- `rotr32_7` -/
def rotr7 (x : U32x4) : U32x4 := vorrqU32 (vshrqNU32 x 7) (vshlqNU32 x 25)

/-- `rotr32_8` -/
def rotr8 (x : U32x4) : U32x4 := vorrqU32 (vshrqNU32 x 8) (vshlqNU32 x 24)

/-- `rotr32_12` -/
def rotr12 (x : U32x4) : U32x4 := vorrqU32 (vshrqNU32 x 12) (vshlqNU32 x 20)

/-- `ROTR16` -/
def rotr16 (x : U32x4) : U32x4 := vreinterpretqU32U16 (vrev32qU16 (vreinterpretqU16U32 x))

def gNeon (v : Rows) (mx my : U32x4) : Rows :=
  let ⟨a, b, c, d⟩ := v
  let a := vaddqU32 (vaddqU32 a b) mx
  let d := rotr16 (veorqU32 d a)
  let c := vaddqU32 c d
  let b := rotr12 (veorqU32 b c)
  let a := vaddqU32 (vaddqU32 a b) my
  let d := rotr8 (veorqU32 d a)
  let c := vaddqU32 c d
  let b := rotr7 (veorqU32 b c)
  ⟨a, b, c, d⟩

def gather4 (m : Vector UInt32 16) (i0 i1 i2 i3 : Fin 16) : U32x4 :=
  ⟨m.get i0, m.get i1, m.get i2, m.get i3⟩

def vsetqLaneU32 (x : UInt32) (v : U32x4) : Fin 4 → U32x4
  | 0 => { v with l0 := x }
  | 1 => { v with l1 := x }
  | 2 => { v with l2 := x }
  | 3 => { v with l3 := x }

/-- The body of the loop of `blake2s_compress_neon`. -/
def roundNeon (m : Vector UInt32 16) (v : Rows) (s : Vector (Fin 16) 16) : Rows :=
  let mx := gather4 m (s.get 0) (s.get 2) (s.get 4) (s.get 6)
  let my := gather4 m (s.get 1) (s.get 3) (s.get 5) (s.get 7)
  let v := gNeon v mx my
  let v : Rows :=
    ⟨v.row0, vextqU32 v.row1 v.row1 1, vextqU32 v.row2 v.row2 2, vextqU32 v.row3 v.row3 3⟩
  let mx := gather4 m (s.get 8) (s.get 10) (s.get 12) (s.get 14)
  let my := gather4 m (s.get 9) (s.get 11) (s.get 13) (s.get 15)
  let v := gNeon v mx my
  ⟨v.row0, vextqU32 v.row1 v.row1 3, vextqU32 v.row2 v.row2 2, vextqU32 v.row3 v.row3 1⟩

/-- `vld1q_u32(&h[0])` and `vld1q_u32(&h[4])` -/
def loadHalves (h : Vector UInt32 8) : U32x4 × U32x4 :=
  (⟨h.get 0, h.get 1, h.get 2, h.get 3⟩, ⟨h.get 4, h.get 5, h.get 6, h.get 7⟩)

def startRows (h : Vector UInt32 8) (t0 t1 f0 f1 : UInt32) : Rows :=
  let (row0, row1) := loadHalves h
  let (row2, ivHigh) := loadHalves blake2sIv
  let row3 := vsetqLaneU32 (t0 ^^^ blake2sIv.get 4) ivHigh 0
  let row3 := vsetqLaneU32 (t1 ^^^ blake2sIv.get 5) row3 1
  let row3 := vsetqLaneU32 (f0 ^^^ blake2sIv.get 6) row3 2
  let row3 := vsetqLaneU32 (f1 ^^^ blake2sIv.get 7) row3 3
  ⟨row0, row1, row2, row3⟩

/-- The lines of `blake2s_compress_neon` behind the loop. -/
def finishRows (h : Vector UInt32 8) (v : Rows) : Vector UInt32 8 :=
  let (orig0, orig1) := loadHalves h
  let row0 := veorqU32 v.row0 v.row2
  let row1 := veorqU32 v.row1 v.row3
  let row0 := veorqU32 row0 orig0
  let row1 := veorqU32 row1 orig1
  #v[row0.l0, row0.l1, row0.l2, row0.l3, row1.l0, row1.l1, row1.l2, row1.l3]

def blake2sCompressNeon (h : Vector UInt32 8) (block : Bytes) (t0 t1 f0 f1 : UInt32) :
    Vector UInt32 8 :=
  finishRows h (blake2sSigma.foldl (roundNeon (loadWords block)) (startRows h t0 t1 f0 f1))

end Vector

section Rotation

theorem rotr32_eq (x : UInt32) {n : UInt32} (hpos : 0 < n.toNat) (hlt : n.toNat < 32) :
    rotr32 x n = Blake2s.rotateRight x n.toNat := by
  have hother := toNat_other_shift hlt
  apply UInt32.eq_of_toBitVec_eq
  unfold rotr32 Blake2s.rotateRight
  rw [UInt32.toBitVec_or, toBitVec_shiftRight_of_lt x hlt,
    toBitVec_shiftLeft_of_lt x (by omega), hother, BitVec.rotateRight_def,
    Nat.mod_eq_of_lt hlt]

/-- The same on every lane. -/
theorem rotate_lanes (x : U32x4) {n : UInt32} (hpos : 0 < n.toNat) (hlt : n.toNat < 32) :
    vorrqU32 (vshrqNU32 x n) (vshlqNU32 x (32 - n)) = x.map (Blake2s.rotateRight · n.toNat) := by
  simp only [← rotr32_eq _ hpos hlt]
  rfl

theorem rotr7_eq (x : U32x4) : rotr7 x = x.map (Blake2s.rotateRight · 7) :=
  rotate_lanes x (n := 7) (by decide) (by decide)

theorem rotr8_eq (x : U32x4) : rotr8 x = x.map (Blake2s.rotateRight · 8) :=
  rotate_lanes x (n := 8) (by decide) (by decide)

theorem rotr12_eq (x : U32x4) : rotr12 x = x.map (Blake2s.rotateRight · 12) :=
  rotate_lanes x (n := 12) (by decide) (by decide)

/-- Exchanging the halfwords turns a word by sixteen bits in either direction. -/
theorem rotr16_eq (x : U32x4) : rotr16 x = x.map (Blake2s.rotateRight · 16) := by
  have hswap : ∀ y : UInt32, rotl32 y 16 = Blake2s.rotateRight y 16 := by
    intro y
    rw [← or_eq_rotl32 y 16 (by decide) (by decide), UInt32.or_comm]
    exact rotr32_eq y (n := 16) (by decide) (by decide)
  have hsame : rotr16 x = rotl16 x := rfl
  rw [hsame, rotl16_eq]
  simp only [hswap]

end Rotation

section Words

variable (m : Vector UInt32 16) (s : Vector (Fin 16) 16)

theorem get_put {n : Nat} (v : Vector UInt32 n) (a j : Fin n) (x : UInt32) :
    (put v a x).get j = if a = j then x else v.get j := by
  change (v.set a x a.isLt)[j.val] = if a = j then x else v[j.val]
  rw [Vector.getElem_set]
  simp only [Fin.val_inj]

theorem ext_get {n : Nat} {v w : Vector UInt32 n} (h : ∀ j, v.get j = w.get j) : v = w := by
  apply Vector.ext
  intro j hj
  exact h ⟨j, hj⟩

theorem g_eq (i a b c d : Fin 16) (hdistinct : [a, b, c, d].Nodup) (v : Vector UInt32 16) :
    g m s i a b c d v =
      Blake2s.mix v a b c d (m.get (s.get (2 * i + 0))) (m.get (s.get (2 * i + 1))) := by
  have h16 := fun y => rotr32_eq y (n := 16) (by decide) (by decide)
  have h12 := fun y => rotr32_eq y (n := 12) (by decide) (by decide)
  have h8 := fun y => rotr32_eq y (n := 8) (by decide) (by decide)
  have h7 := fun y => rotr32_eq y (n := 7) (by decide) (by decide)
  have hne : (a ≠ b ∧ a ≠ c ∧ a ≠ d) ∧ (b ≠ c ∧ b ≠ d) ∧ c ≠ d := by
    simpa [not_or] using hdistinct
  obtain ⟨⟨hab, hac, had⟩, ⟨hbc, hbd⟩, hcd⟩ := hne
  apply ext_get
  intro j
  unfold g Blake2s.mix Blake2s.mixWords
  -- What was put at one of the four places is read back there and only there.
  simp only [get_put, h16, h12, h8, h7, hab, hac, had, hbc, hbd, hcd, hab.symm, hac.symm,
    had.symm, hbc.symm, hbd.symm, hcd.symm, if_true, if_false]
  by_cases ha : a = j
  · subst ha
    simp only [hab.symm, hac.symm, had.symm, if_true, if_false]
    rfl
  by_cases hb : b = j
  · subst hb
    simp only [hab, hbc.symm, hbd.symm, if_true, if_false]
    rfl
  by_cases hc : c = j
  · subst hc
    simp only [hac, hbc, hcd.symm, if_true, if_false]
    rfl
  by_cases hd : d = j
  · subst hd
    simp only [had, hbd, hcd, if_true, if_false]
    rfl
  · simp only [ha, hb, hc, hd, if_false]

theorem round_eq (v : Vector UInt32 16) : round m v s = Blake2s.round m v s := by
  unfold round
  dsimp only
  rw [g_eq m s 0 0 4 8 12 (by decide), g_eq m s 1 1 5 9 13 (by decide),
    g_eq m s 2 2 6 10 14 (by decide), g_eq m s 3 3 7 11 15 (by decide),
    g_eq m s 4 0 5 10 15 (by decide), g_eq m s 5 1 6 11 12 (by decide),
    g_eq m s 6 2 7 8 13 (by decide), g_eq m s 7 3 4 9 14 (by decide)]
  rfl

end Words

section Lanes

variable (m : Vector UInt32 16) (s : Vector (Fin 16) 16)

/-- The words of the four rows one after the other. -/
def rowWords (v : Rows) : Vector UInt32 16 :=
  #v[v.row0.l0, v.row0.l1, v.row0.l2, v.row0.l3, v.row1.l0, v.row1.l1, v.row1.l2, v.row1.l3,
    v.row2.l0, v.row2.l1, v.row2.l2, v.row2.l3, v.row3.l0, v.row3.l1, v.row3.l2, v.row3.l3]

abbrev Quad := UInt32 × UInt32 × UInt32 × UInt32

def mixQuad (c : Quad) (x y : UInt32) : Quad :=
  Blake2s.mixWords c.1 c.2.1 c.2.2.1 c.2.2.2 x y

/-- The rows with the given columns. -/
def columnRows (c0 c1 c2 c3 : Quad) : Rows :=
  ⟨⟨c0.1, c1.1, c2.1, c3.1⟩, ⟨c0.2.1, c1.2.1, c2.2.1, c3.2.1⟩,
    ⟨c0.2.2.1, c1.2.2.1, c2.2.2.1, c3.2.2.1⟩, ⟨c0.2.2.2, c1.2.2.2, c2.2.2.2, c3.2.2.2⟩⟩

/-- The rows whose diagonals are the given columns. -/
def unrotate (v : Rows) : Rows :=
  ⟨v.row0, vextqU32 v.row1 v.row1 3, vextqU32 v.row2 v.row2 2, vextqU32 v.row3 v.row3 1⟩

theorem gNeon_columnRows (c0 c1 c2 c3 : Quad) (mx my : U32x4) :
    gNeon (columnRows c0 c1 c2 c3) mx my =
      columnRows (mixQuad c0 mx.l0 my.l0) (mixQuad c1 mx.l1 my.l1) (mixQuad c2 mx.l2 my.l2)
        (mixQuad c3 mx.l3 my.l3) := by
  unfold gNeon
  dsimp only
  rw [rotr16_eq, rotr12_eq, rotr8_eq, rotr7_eq]
  rfl

theorem columnRows_eq (v : Rows) :
    columnRows (v.row0.l0, v.row1.l0, v.row2.l0, v.row3.l0)
      (v.row0.l1, v.row1.l1, v.row2.l1, v.row3.l1) (v.row0.l2, v.row1.l2, v.row2.l2, v.row3.l2)
      (v.row0.l3, v.row1.l3, v.row2.l3, v.row3.l3) = v := rfl

theorem mixColumns_rowWords (k : Fin 8 → UInt32) (v : Rows) :
    Blake2s.mixColumns k (rowWords v) =
      rowWords (gNeon v ⟨k 0, k 2, k 4, k 6⟩ ⟨k 1, k 3, k 5, k 7⟩) := by
  have h0 : ∀ c0 c1 c2 c3 x y, Blake2s.mix (rowWords (columnRows c0 c1 c2 c3)) 0 4 8 12 x y =
      rowWords (columnRows (mixQuad c0 x y) c1 c2 c3) := fun _ _ _ _ _ _ => rfl
  have h1 : ∀ c0 c1 c2 c3 x y, Blake2s.mix (rowWords (columnRows c0 c1 c2 c3)) 1 5 9 13 x y =
      rowWords (columnRows c0 (mixQuad c1 x y) c2 c3) := fun _ _ _ _ _ _ => rfl
  have h2 : ∀ c0 c1 c2 c3 x y, Blake2s.mix (rowWords (columnRows c0 c1 c2 c3)) 2 6 10 14 x y =
      rowWords (columnRows c0 c1 (mixQuad c2 x y) c3) := fun _ _ _ _ _ _ => rfl
  have h3 : ∀ c0 c1 c2 c3 x y, Blake2s.mix (rowWords (columnRows c0 c1 c2 c3)) 3 7 11 15 x y =
      rowWords (columnRows c0 c1 c2 (mixQuad c3 x y)) := fun _ _ _ _ _ _ => rfl
  unfold Blake2s.mixColumns
  dsimp only
  rw [← columnRows_eq v, h0, h1, h2, h3, gNeon_columnRows]

/-- The columns of the rotated rows are the diagonals. -/
theorem mixDiagonals_rowWords (k : Fin 8 → UInt32) (v : Rows) :
    Blake2s.mixDiagonals k (rowWords (unrotate v)) =
      rowWords (unrotate (gNeon v ⟨k 0, k 2, k 4, k 6⟩ ⟨k 1, k 3, k 5, k 7⟩)) := by
  have h0 : ∀ c0 c1 c2 c3 x y,
      Blake2s.mix (rowWords (unrotate (columnRows c0 c1 c2 c3))) 0 5 10 15 x y =
        rowWords (unrotate (columnRows (mixQuad c0 x y) c1 c2 c3)) := fun _ _ _ _ _ _ => rfl
  have h1 : ∀ c0 c1 c2 c3 x y,
      Blake2s.mix (rowWords (unrotate (columnRows c0 c1 c2 c3))) 1 6 11 12 x y =
        rowWords (unrotate (columnRows c0 (mixQuad c1 x y) c2 c3)) := fun _ _ _ _ _ _ => rfl
  have h2 : ∀ c0 c1 c2 c3 x y,
      Blake2s.mix (rowWords (unrotate (columnRows c0 c1 c2 c3))) 2 7 8 13 x y =
        rowWords (unrotate (columnRows c0 c1 (mixQuad c2 x y) c3)) := fun _ _ _ _ _ _ => rfl
  have h3 : ∀ c0 c1 c2 c3 x y,
      Blake2s.mix (rowWords (unrotate (columnRows c0 c1 c2 c3))) 3 4 9 14 x y =
        rowWords (unrotate (columnRows c0 c1 c2 (mixQuad c3 x y))) := fun _ _ _ _ _ _ => rfl
  unfold Blake2s.mixDiagonals
  dsimp only
  rw [← columnRows_eq v, h0, h1, h2, h3, gNeon_columnRows]

theorem rowWords_roundNeon (v : Rows) :
    rowWords (roundNeon m v s) = Blake2s.round m (rowWords v) s := by
  have hrotate : ∀ v : Rows, unrotate
      ⟨v.row0, vextqU32 v.row1 v.row1 1, vextqU32 v.row2 v.row2 2, vextqU32 v.row3 v.row3 3⟩ = v :=
    fun _ => rfl
  unfold Blake2s.round
  rw [mixColumns_rowWords, ← hrotate (gNeon v _ _), mixDiagonals_rowWords]
  rfl

end Lanes

section Compression

theorem blake2sIv_eq : blake2sIv = Blake2s.iv := rfl

theorem blake2sSigma_eq : blake2sSigma = Blake2s.sigma := rfl

/-- Both compressions are ten rounds of the definition between the start vector and the
chaining value. -/
def compressWords (S : Chain) (block : Bytes) : Vector UInt32 8 :=
  let v := Blake2s.sigma.foldl (Blake2s.round (loadWords block)) (startVector S)
  Vector.ofFn fun i => S.h.get i ^^^ v.get (Fin.castAdd 8 i) ^^^ v.get (Fin.natAdd 8 i)

theorem h_blake2sCompressScalar (S : Chain) (block : Bytes) :
    (blake2sCompressScalar S block).h = compressWords S block := by
  have hround : round (loadWords block) = Blake2s.round (loadWords block) := by
    funext v s
    exact round_eq (loadWords block) s v
  unfold blake2sCompressScalar compressWords
  rw [hround, blake2sSigma_eq]

theorem rowWords_foldl_roundNeon (m : Vector UInt32 16) (v : Rows) :
    rowWords (blake2sSigma.foldl (roundNeon m) v) =
      Blake2s.sigma.foldl (Blake2s.round m) (rowWords v) := by
  rw [blake2sSigma_eq]
  exact (Vector.foldl_hom rowWords fun v s => (rowWords_roundNeon m s v).symm).symm

theorem rowWords_startRows (S : Chain) :
    rowWords (startRows S.h S.t0 S.t1 S.f0 S.f1) = startVector S := rfl

theorem finishRows_eq (h : Vector UInt32 8) (v : Rows) :
    finishRows h v = Vector.ofFn fun i =>
      h.get i ^^^ (rowWords v).get (Fin.castAdd 8 i) ^^^ (rowWords v).get (Fin.natAdd 8 i) := by
  have hxor : ∀ a b c : UInt32, (a ^^^ b) ^^^ c = c ^^^ a ^^^ b := by
    intro a b c
    rw [UInt32.xor_comm, UInt32.xor_assoc]
  apply ext_get
  intro i
  fin_cases i <;> exact hxor _ _ _

theorem blake2sCompressNeon_eq (S : Chain) (block : Bytes) :
    blake2sCompressNeon S.h block S.t0 S.t1 S.f0 S.f1 = compressWords S block := by
  unfold blake2sCompressNeon compressWords
  rw [finishRows_eq, rowWords_foldl_roundNeon, rowWords_startRows]

/-- The two compressions leave the same chaining value. -/
theorem blake2s_compress_neon_eq_scalar (h : Vector UInt32 8) (block : ByteVec 64)
    (t0 t1 f0 f1 : UInt32) :
    blake2sCompressNeon h block.toList t0 t1 f0 f1 =
      (blake2sCompressScalar ⟨h, t0, t1, f0, f1⟩ block.toList).h := by
  have hneon := blake2sCompressNeon_eq ⟨h, t0, t1, f0, f1⟩ block.toList
  rw [h_blake2sCompressScalar]
  exact hneon

end Compression

end WgNx.Blake2Compress
