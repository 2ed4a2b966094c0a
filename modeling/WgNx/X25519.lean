import WgNx.CryptoPrimitives
import WgNx.FieldInverse
import WgNx.MontgomeryLadder

/-!
X25519 as the vendored library computes it.

`scalarmult` is the ladder of `MontgomeryLadder` on limbs: no signed operation of a run
overflows, and the bytes it writes are the least residue of the first coordinate.  With
the group law behind that ladder, the two sides of a key exchange agree for every pair
of secrets.
-/

namespace WgNx.X25519

open WgNx.ByteLayout
open WgNx.Curve25519Prime
open WgNx.FieldBytes
open WgNx.FieldInverse
open WgNx.FieldLimbs
open WgNx.MontgomeryLadder
open WgNx.SignedWords
open WgNx.WireMessages
open WgNx.WordBytes
open WeierstrassCurve

section Model

/-- An assignment to one byte of a buffer, by its old value. -/
def updateByte (buf : ByteVec 32) (i : ℕ) (f : UInt8 → UInt8) : ByteVec 32 :=
  buf.setIfInBounds i (f (buf.toList.getD i 0))

def cryptoEddsaTrimScalar (inp : ByteVec 32) : ByteVec 32 :=
  let out := updateByte inp 0 (· &&& 248)
  let out := updateByte out 31 (· &&& 127)
  updateByte out 31 (· ||| 64)

def scalarBit (s : ByteVec 32) (i : ℤ) : SInt 32 :=
  if i < 0 then 0
  else (fit 32 (s.toList.getD (i.toNat >>> 3) 0).toNat >>> (i.toNat &&& 7)) &&& 1

/-- The two points of `scalarmult`. -/
structure Points where
  x2 : Fe
  z2 : Fe
  x3 : Fe
  z3 : Fe

/-- The pair of `fe_cswap` calls before each step and after the loop. -/
def Points.cswap (s : Points) (swap : SInt 32) : Points :=
  let (x2, x3) := feCswap s.x2 s.x3 swap
  let (z2, z3) := feCswap s.z2 s.z3 swap
  ⟨x2, z2, x3, z3⟩

/-- The ladder step proper. -/
def Points.step (x1 : Fe) (s : Points) : Points :=
  let t0 := feSub s.x3 s.z3
  let t1 := feSub s.x2 s.z2
  let x2 := feAdd s.x2 s.z2
  let z2 := feAdd s.x3 s.z3
  let z3 := feMul t0 x2
  let z2 := feMul z2 t1
  let t0 := feSq t1
  let t1 := feSq x2
  let x3 := feAdd z3 z2
  let z2 := feSub z3 z2
  let x2 := feMul t1 t0
  let t1 := feSub t1 t0
  let z2 := feSq z2
  let z3 := feMulSmall t1 121666
  let x3 := feSq x3
  let t0 := feAdd t0 z3
  let z3 := feMul x1 z2
  let z2 := feMul t1 t0
  ⟨x2, z2, x3, z3⟩

/-- The body of the loop of `scalarmult`, on the points and `swap`. -/
def ladderBody (x1 : Fe) (scalar : ByteVec 32) (pos : ℤ) (s : Points × SInt 32) :
    Points × SInt 32 :=
  let b := scalarBit scalar pos
  let swap := s.2 ^^^ b
  ((s.1.cswap swap).step x1, b)

/-- The loop of `scalarmult` from the position `pos - 1` down to zero. -/
def ladderLoop (x1 : Fe) (scalar : ByteVec 32) : ℕ → Points × SInt 32 → Points × SInt 32
  | 0, s => s
  | pos + 1, s => ladderLoop x1 scalar pos (ladderBody x1 scalar pos s)

def scalarmult (scalar p : ByteVec 32) (nbBits : ℕ) : Option (ByteVec 32) :=
  let x1 := feFromBytes p
  let (s, swap) := ladderLoop x1 scalar nbBits (⟨fe1, fe0, x1, fe1⟩, 0)
  let s := s.cswap swap
  let z2 := feInvert s.z2
  let x2 := feMul s.x2 z2
  feToBytes x2

/-- `crypto_x25519`; nothing if a signed operation overflows. -/
def cryptoX25519 (yourSecretKey theirPublicKey : Key) : Option Key :=
  let e := cryptoEddsaTrimScalar yourSecretKey
  scalarmult e theirPublicKey 255

def basePoint : Key := updateByte (Vector.replicate 32 0) 0 fun _ => 9

def cryptoX25519PublicKey (secretKey : Key) : Option Key := cryptoX25519 secretKey basePoint

/-- `wg_generate_keypair`, where `random` is what `randomGet` fills in; the two keys. -/
def wgGenerateKeypair (random : Key) : Key × Option Key :=
  let privateKey := updateByte random 0 (· &&& 248)
  let privateKey := updateByte privateKey 31 (· &&& 127)
  let privateKey := updateByte privateKey 31 (· ||| 64)
  (privateKey, cryptoX25519PublicKey privateKey)

end Model

section Scalars

/-- The lowest `n` binary digits, highest first. -/
def lowBits (v : ℕ) : ℕ → List Bool
  | 0 => []
  | n + 1 => v.testBit n :: lowBits v n

theorem bitsValue_lowBits (v n : ℕ) : bitsValue (lowBits v n) = v % 2 ^ n := by
  have hrun : ∀ k, (lowBits v n).foldl (fun k b => 2 * k + b.toNat) k = 2 ^ n * k + v % 2 ^ n := by
    induction n with
    | zero =>
        intro k
        simp [lowBits, Nat.mod_one]
    | succ n ih =>
        intro k
        rw [lowBits, List.foldl_cons, ih, Nat.toNat_testBit, Nat.mod_pow_succ]
        ring
  exact (hrun 0).trans (by rw [Nat.mul_zero, Nat.zero_add])

theorem toNat_getD (bytes : Bytes) (i : ℕ) :
    (bytes.getD i 0).toNat = leValue bytes / 2 ^ (8 * i) % 2 ^ 8 := by
  induction bytes generalizing i with
  | nil => simp [leValue]
  | cons b bs ih =>
      have hb := b.toNat_lt
      rw [leValue_cons]
      cases i with
      | zero =>
          rw [List.getD_cons_zero]
          omega
      | succ i =>
          rw [List.getD_cons_succ, ih, Nat.mul_succ, Nat.add_comm (8 * i), Nat.pow_add,
            ← Nat.div_div_eq_div_mul]
          congr 2
          omega

theorem leValue_set (bytes : Bytes) (i : ℕ) (hi : i < bytes.length) (b : UInt8) :
    leValue (bytes.set i b) + 2 ^ (8 * i) * (bytes.getD i 0).toNat =
      leValue bytes + 2 ^ (8 * i) * b.toNat := by
  induction bytes generalizing i with
  | nil => simp at hi
  | cons c bs ih =>
      cases i with
      | zero =>
          rw [List.set_cons_zero, leValue_cons, leValue_cons, List.getD_cons_zero]
          omega
      | succ i =>
          have hstep := ih i (Nat.lt_of_succ_lt_succ hi)
          rw [List.set_cons_succ, leValue_cons, leValue_cons, List.getD_cons_succ, Nat.mul_succ,
            Nat.pow_add]
          linarith

/-- The lowest bit of a shifted byte, as an `int`. -/
theorem bit_of_byte {n : ℕ} (hn : n < 256) (j : ℕ) :
    (fit 32 n >>> j) &&& 1 = flag (n.testBit j) := by
  have hbit := Nat.toNat_testBit n j
  have hle : n / 2 ^ j < 256 := (Nat.div_le_self ..).trans_lt hn
  have hcast : (n : ℤ) / 2 ^ j = (n / 2 ^ j : ℕ) := by push_cast; rfl
  generalize n / 2 ^ j = q at hbit hle hcast
  have hword := (within_fit (w := 32) (a := n) (A := 255) (by omega) (by decide)).shiftRight j
    (C := 255) (by rw [hcast]; omega)
  rw [hcast] at hword
  obtain ⟨⟨u, hu, hvalue⟩, -⟩ := hword
  have hnat : u.toNat = q := by
    rw [BitVec.toInt_eq_toNat_cond] at hvalue
    have := u.isLt
    split at hvalue <;> omega
  have hone : (1 : SInt 32).bits = some 1 := by decide
  have hand : (u &&& 1).toNat = (n.testBit j).toNat := by
    rw [BitVec.toNat_and, hnat, hbit]
    exact Nat.and_one_is_mod q
  ext1
  rw [SInt.bits_and, hu, hone]
  cases htest : n.testBit j <;> rw [htest] at hand
  · exact congrArg some (BitVec.eq_of_toNat_eq hand)
  · exact congrArg some (BitVec.eq_of_toNat_eq hand)

theorem scalarBit_eq (s : ByteVec 32) (pos : ℕ) :
    scalarBit s pos = flag ((leValue s.toList).testBit pos) := by
  have hnot : ¬(pos : ℤ) < 0 := by omega
  have hpos : 8 * (pos / 2 ^ 3) + pos % 2 ^ 3 = pos := Nat.div_add_mod pos 8
  have hmod : pos % 2 ^ 3 < 8 := Nat.mod_lt _ (by decide)
  rw [scalarBit, if_neg hnot, Int.toNat_natCast, bit_of_byte (UInt8.toNat_lt _), toNat_getD,
    Nat.shiftRight_eq_div_pow, show (7 : ℕ) = 2 ^ 3 - 1 by norm_num,
    Nat.and_two_pow_sub_one_eq_mod, Nat.testBit_mod_two_pow, decide_eq_true hmod, Bool.true_and,
    Nat.testBit_div_two_pow, Nat.add_comm, hpos]

/-- The multiple of the point that a secret key stands for. -/
def clamp (v : ℕ) : ℕ := 2 ^ 254 + 8 * (v % 2 ^ 254 / 8)

theorem trim_low (b : UInt8) : (b &&& 248).toNat = b.toNat / 8 * 8 := by
  have hall : ∀ n < 256, n &&& 248 = n / 8 * 8 := by decide +kernel
  rw [UInt8.toNat_and]
  exact hall _ b.toNat_lt

theorem trim_high (b : UInt8) : ((b &&& 127) ||| 64).toNat = 64 + b.toNat % 64 := by
  have hall : ∀ n < 256, (n &&& 127) ||| 64 = 64 + n % 64 := by decide +kernel
  rw [UInt8.toNat_or, UInt8.toNat_and]
  exact hall _ b.toNat_lt

theorem leValue_lt (bytes : Bytes) : leValue bytes < 2 ^ (8 * bytes.length) := by
  induction bytes with
  | nil => simp [leValue]
  | cons b bs ih =>
      have hb := b.toNat_lt
      rw [leValue_cons, List.length_cons, Nat.mul_succ, Nat.pow_add]
      omega

theorem leValue_trim (s : ByteVec 32) :
    leValue (cryptoEddsaTrimScalar s).toList = clamp (leValue s.toList) := by
  obtain ⟨bytes, hbytes⟩ : ∃ bytes, bytes = s.toList := ⟨_, rfl⟩
  have hlen : bytes.length = 32 := by simp [hbytes]
  have hform : (cryptoEddsaTrimScalar s).toList =
      (bytes.set 0 (bytes.getD 0 0 &&& 248)).set 31 ((bytes.getD 31 0 &&& 127) ||| 64) := by
    simp [cryptoEddsaTrimScalar, updateByte, hbytes, Vector.toList_setIfInBounds]
  have hfirst := leValue_set bytes 0 (by omega) (bytes.getD 0 0 &&& 248)
  have hlast := leValue_set (bytes.set 0 (bytes.getD 0 0 &&& 248)) 31
    (by rw [List.length_set]; omega) ((bytes.getD 31 0 &&& 127) ||| 64)
  have hkeep : (bytes.set 0 (bytes.getD 0 0 &&& 248)).getD 31 0 = bytes.getD 31 0 := by
    simp [List.getD_eq_getElem?_getD]
  have hlt := leValue_lt bytes
  rw [hkeep, trim_high, toNat_getD] at hlast
  rw [trim_low, toNat_getD] at hfirst
  rw [hlen] at hlt
  rw [hform, ← hbytes, clamp]
  omega

end Scalars

section Simulation

/-- The limbs of the points stand for a rung of the ladder. -/
structure RepresentsRung (s : Points) (r : Rung Fp) : Prop where
  x2 : Represents 1 s.x2 r.x2
  z2 : Represents 1 s.z2 r.z2
  x3 : Represents 1 s.x3 r.x3
  z3 : Represents 1 s.z3 r.z3

variable {s : Points} {r : Rung Fp} {x1 : Fe} {x : Fp}

theorem RepresentsRung.cswap (h : RepresentsRung s r) (b : Bool) :
    RepresentsRung (s.cswap (flag b)) (r.condSwap b) := by
  have hx := feCswap_eq h.x2 h.x3 b
  have hz := feCswap_eq h.z2 h.z3 b
  unfold Points.cswap
  rw [hx, hz]
  cases b
  · exact h
  · exact ⟨h.x3, h.z3, h.x2, h.z2⟩

theorem RepresentsRung.step (h : RepresentsRung s r) (h1 : Represents 1 x1 x) :
    RepresentsRung (s.step x1) (r.step 121666 x) := by
  have h3 : (1 : ℕ) ≤ 3 := by decide
  have h2 : (1 + 1 : ℕ) ≤ 3 := by decide
  have hd := h.x3.sub h.z3 h2
  have hb := h.x2.sub h.z2 h2
  have ha := h.x2.add h.z2 h2
  have hc := h.x3.add h.z3 h2
  have hda := (hd.mono h2).mul (ha.mono h2)
  have hcb := (hc.mono h2).mul (hb.mono h2)
  have hbb := (hb.mono h2).sq
  have haa := (ha.mono h2).sq
  have hsum := hda.add hcb h2
  have hdiff := hda.sub hcb h2
  have hx2 := (haa.mono h3).mul (hbb.mono h3)
  have he := haa.sub hbb h2
  have hdiff2 := (hdiff.mono h2).sq
  have hsmall := (he.mono h2).mulSmall (c := 121666)
    (within_ofNat 121666 (by decide) |>.mono (by decide))
  have hx3 := (hsum.mono h2).sq
  have ht0 := hbb.add hsmall h2
  have hz3 := (h1.mono h3).mul (hdiff2.mono h3)
  have hz2 := (he.mono h2).mul (ht0.mono h2)
  push_cast at hz2
  exact ⟨hx2, hz2, hx3, hz3⟩

theorem flag_xor (a b : Bool) : flag a ^^^ flag b = flag (a ^^ b) := by
  cases a <;> cases b <;> decide

/-- The state of the loop stands for a state of the ladder. -/
def Simulates (s : Points × SInt 32) (r : Rung Fp × Bool) : Prop :=
  RepresentsRung s.1 r.1 ∧ s.2 = flag r.2

variable {t : Points × SInt 32} {q : Rung Fp × Bool}

theorem Simulates.ladderBody (h : Simulates t q) (h1 : Represents 1 x1 x) (scalar : ByteVec 32)
    (pos : ℕ) :
    Simulates (ladderBody x1 scalar pos t)
      (ladderBit 121666 x q ((leValue scalar.toList).testBit pos)) := by
  obtain ⟨hrung, hswap⟩ := h
  have hbit := scalarBit_eq scalar pos
  refine ⟨?_, hbit⟩
  change RepresentsRung ((t.1.cswap (t.2 ^^^ scalarBit scalar pos)).step x1) _
  rw [hswap, hbit, flag_xor]
  exact (hrung.cswap _).step h1

theorem Simulates.ladderLoop (h : Simulates t q) (h1 : Represents 1 x1 x) (scalar : ByteVec 32)
    (n : ℕ) :
    Simulates (ladderLoop x1 scalar n t)
      ((lowBits (leValue scalar.toList) n).foldl (ladderBit 121666 x) q) := by
  induction n generalizing t q with
  | zero => exact h
  | succ pos ih => exact ih (h.ladderBody h1 scalar pos)

/-- `scalarmult` never overflows, and writes the residue that the ladder computes. -/
theorem scalarmult_eq (scalar p : ByteVec 32) (nbBits : ℕ) :
    scalarmult scalar p nbBits =
      some (encode (ladder 121666 (decode p) (lowBits (leValue scalar.toList) nbBits))) := by
  have h1 := represents_feFromBytes p
  have h3 : (1 : ℕ) ≤ 3 := by decide
  have hstart : Simulates (⟨fe1, fe0, feFromBytes p, fe1⟩, 0) (⟨1, 0, decode p, 1⟩, false) :=
    ⟨⟨represents_fe1, represents_fe0, h1, represents_fe1⟩, rfl⟩
  obtain ⟨hrung, hswap⟩ := hstart.ladderLoop h1 scalar nbBits
  have hlast := hrung.cswap
    ((lowBits (leValue scalar.toList) nbBits).foldl (ladderBit 121666 (decode p))
      (⟨1, 0, decode p, 1⟩, false)).2
  rw [← hswap] at hlast
  have hinv := represents_feInvert (hlast.z2.mono h3)
  exact feToBytes_eq ((hlast.x2.mono h3).mul (hinv.mono h3))

end Simulation

section Exchange

theorem smooth : Smooth (486662 : Fp) where
  two_ne_zero := by decide
  sq_ne_four := by decide

theorem four_mul_a24 : 4 * (121666 : Fp) = 486662 + 2 := by norm_num

/-- The binary digits of the multiple that a secret key stands for. -/
def clampedBits (secret : Key) : List Bool := lowBits (clamp (leValue secret.toList)) 255

theorem bitsValue_clampedBits (secret : Key) :
    bitsValue (clampedBits secret) = clamp (leValue secret.toList) := by
  rw [clampedBits, bitsValue_lowBits]
  apply Nat.mod_eq_of_lt
  unfold clamp
  omega

theorem cryptoX25519_eq (secret p : Key) :
    cryptoX25519 secret p = some (encode (ladder 121666 (decode p) (clampedBits secret))) := by
  change scalarmult (cryptoEddsaTrimScalar secret) p 255 = _
  rw [scalarmult_eq, leValue_trim, clampedBits]

/-- Over whichever extension the point lies in, the ladder computes its multiple by the trimmed
secret key. -/
theorem map_ladder_clampedBits {K : Type*} [Field K] [DecidableEq K] (φ : Fp →+* K)
    (secret p : Key) {P : (curve (φ 486662)).Point} (hP : xCoord P = φ (decode p)) :
    φ (ladder 121666 (decode p) (clampedBits secret)) =
      xCoord (clamp (leValue secret.toList) • P) := by
  rw [map_ladder_eq smooth four_mul_a24 φ hP, bitsValue_clampedBits]

/-- `crypto_x25519` never overflows, and computes multiples of points. -/
theorem x25519_computes_multiple {K : Type*} [Field K] [DecidableEq K] (φ : Fp →+* K)
    (secret p : Key) (P : (curve (φ 486662)).Point) (hP : xCoord P = φ (decode p)) :
    ∃ q : Fp, cryptoX25519 secret p = some (encode q) ∧
      φ q = xCoord (clamp (leValue secret.toList) • P) :=
  ⟨_, cryptoX25519_eq secret p, map_ladder_clampedBits φ secret p hP⟩

/-- The first coordinate of the base point. -/
def baseX : Fp := ((9 : ℕ) : Fp)

/-- The second coordinate of the base point. -/
def baseY : Fp :=
  14781619447589544791020593568409986887264606134616475288964881837755586237401

theorem decode_basePoint : decode basePoint = baseX := by
  have hvalue : leValue basePoint.toList % 2 ^ 255 = 9 := by decide
  rw [decode, hvalue]
  rfl

theorem equation_base : (curve (486662 : Fp)).Equation baseX baseY := by
  rw [equation_iff]
  decide

/-- Trimming a secret key in advance changes nothing. -/
theorem wgGenerateKeypair_eq (random : Key) :
    wgGenerateKeypair random =
      (cryptoEddsaTrimScalar random, cryptoX25519PublicKey random) := by
  have hclamp : clamp (leValue (cryptoEddsaTrimScalar random).toList) =
      clamp (leValue random.toList) := by
    rw [leValue_trim]
    unfold clamp
    omega
  change (cryptoEddsaTrimScalar random, cryptoX25519 (cryptoEddsaTrimScalar random) basePoint) = _
  rw [cryptoX25519_eq, clampedBits, hclamp, ← clampedBits, ← cryptoX25519_eq]
  rfl

/-- The public key of a generated pair is the multiple of the base point by the drawn secret. -/
theorem x25519_computes_multiple_base :
    ∃ (P : (curve (486662 : Fp)).Point) (q : Fp), xCoord P = baseX ∧
      (wgGenerateKeypair (Vector.replicate 32 77)).2 = some (encode q) ∧
        q = xCoord (clamp (leValue (Vector.replicate 32 77 : Key).toList) • P) := by
  have hpoint := (Affine.equation_iff_nonsingular_of_Δ_ne_zero (discriminant_ne_zero smooth)).mp
    equation_base
  obtain ⟨q, hq, hx⟩ := x25519_computes_multiple (RingHom.id Fp) (Vector.replicate 32 77) basePoint
    (.some baseX baseY hpoint) decode_basePoint.symm
  refine ⟨.some baseX baseY hpoint, q, rfl, ?_, hx⟩
  rw [wgGenerateKeypair_eq]
  exact hq

/-- The trimmed secret is a multiple of eight: a public key of low order leaves nothing of it. -/
theorem low_order_gives_zero {K : Type*} [Field K] [DecidableEq K] (φ : Fp →+* K) (secret p : Key)
    (P : (curve (φ 486662)).Point) (hP : xCoord P = φ (decode p)) (h8 : 8 • P = 0) :
    cryptoX25519 secret p = some (Vector.replicate 32 0) := by
  have hx := map_ladder_clampedBits φ secret p hP
  have hclamp : clamp (leValue secret.toList) =
      (2 ^ 251 + leValue secret.toList % 2 ^ 254 / 8) * 8 := by
    unfold clamp
    omega
  rw [hclamp, mul_smul, h8, smul_zero] at hx
  rw [cryptoX25519_eq, (map_eq_zero φ).mp hx]
  rfl

/-- The key that encodes one, the first coordinate of two points of order four. -/
def orderFourKey : Key := updateByte (Vector.replicate 32 0) 0 fun _ => 1

def orderFourY : Fp :=
  9094040566125962849133224048217411091405536248825867518642941381412595940312

theorem decode_orderFourKey : decode orderFourKey = 1 := by
  have hvalue : leValue orderFourKey.toList % 2 ^ 255 = 1 := by decide
  rw [decode, hvalue, Nat.cast_one]

theorem equation_orderFour : (curve (486662 : Fp)).Equation 1 orderFourY := by
  rw [equation_iff]
  decide

/-- Twice the point is the point with first coordinate zero, and twice that is the neutral one. -/
theorem eight_smul_of_xCoord_one {P : (curve (486662 : Fp)).Point} (hP : xCoord P = 1) :
    8 • P = 0 := by
  have hone : Projects P 1 1 := by
    rcases P with _ | ⟨x, y, hxy⟩
    · exact absurd hP zero_ne_one
    · obtain rfl : x = 1 := hP
      exact ⟨one_ne_zero, (mul_one 1).symm⟩
  have hfour := (hone.double smooth).double smooth
  rw [one_pow, sub_self, zero_pow two_ne_zero, mul_zero, zero_mul, zero_mul] at hfour
  have hzero : P + P + (P + P) = 0 := by
    generalize P + P + (P + P) = Q at hfour
    rcases Q with _ | ⟨x, y, hxy⟩
    · rfl
    · exact absurd rfl hfour.1
  calc 8 • P = P + P + (P + P) + (P + P + (P + P)) := by abel
    _ = 0 := by rw [hzero, add_zero]

theorem low_order_gives_zero_order_four :
    cryptoX25519 basePoint orderFourKey = some (Vector.replicate 32 0) := by
  have hpoint := (Affine.equation_iff_nonsingular_of_Δ_ne_zero (discriminant_ne_zero smooth)).mp
    equation_orderFour
  exact low_order_gives_zero (RingHom.id Fp) basePoint orderFourKey (.some 1 orderFourY hpoint)
    decode_orderFourKey.symm (eight_smul_of_xCoord_one rfl)

theorem exchange_agrees (a b p : Key) :
    ∃ pa pb shared, cryptoX25519 a p = some pa ∧ cryptoX25519 b p = some pb ∧
      cryptoX25519 a pb = some shared ∧ cryptoX25519 b pa = some shared := by
  refine ⟨_, _, _, cryptoX25519_eq a p, cryptoX25519_eq b p, cryptoX25519_eq a _, ?_⟩
  rw [cryptoX25519_eq, decode_encode, decode_encode,
    ladder_comm smooth four_mul_a24 (decode p) (clampedBits a)]

/-- The secrets applied to a public key one after the other. -/
def exchangeAll (secrets : List Key) (p : Key) : Option Key :=
  secrets.foldlM (fun p secret => cryptoX25519 secret p) p

theorem exchangeAll_cons {secret p q : Key} (h : cryptoX25519 secret p = some q)
    (secrets : List Key) : exchangeAll (secret :: secrets) p = exchangeAll secrets q := by
  unfold exchangeAll
  rw [List.foldlM_cons, h]
  rfl

theorem exchangeAll_defined (secrets : List Key) (p : Key) :
    ∃ q, exchangeAll secrets p = some q := by
  induction secrets generalizing p with
  | nil => exact ⟨p, rfl⟩
  | cons secret secrets ih =>
      rw [exchangeAll_cons (cryptoX25519_eq secret p)]
      exact ih _

/-- Any number of parties get the same secret, whatever the order in which theirs are applied. -/
theorem exchange_order_irrelevant {secrets secrets' : List Key} (h : secrets.Perm secrets')
    (p : Key) :
    ∃ shared, exchangeAll secrets p = some shared ∧ exchangeAll secrets' p = some shared := by
  obtain ⟨shared, hshared⟩ := exchangeAll_defined secrets p
  refine ⟨shared, hshared, ?_⟩
  rw [← hshared]
  induction h generalizing p shared with
  | nil => rfl
  | cons secret _ ih =>
      rw [exchangeAll_cons (cryptoX25519_eq secret p), exchangeAll_cons (cryptoX25519_eq secret p)]
      obtain ⟨q, hq⟩ := exchangeAll_defined _ _
      exact ih _ q hq
  | swap a b secrets =>
      obtain ⟨pa, pb, both, hpa, hpb, ha, hb⟩ := exchange_agrees a b p
      rw [exchangeAll_cons hpa, exchangeAll_cons hb, exchangeAll_cons hpb, exchangeAll_cons ha]
  | trans _ _ ih₁ ih₂ =>
      obtain ⟨q, hq⟩ := exchangeAll_defined _ p
      exact (ih₂ p q hq).trans (ih₁ p shared hshared)

theorem exchange_order_irrelevant_three :
    ∃ shared, exchangeAll [basePoint, Vector.replicate 32 7, Vector.replicate 32 5] basePoint =
        some shared ∧
      exchangeAll [Vector.replicate 32 7, basePoint, Vector.replicate 32 5] basePoint =
        some shared :=
  exchange_order_irrelevant (.swap _ _ _) basePoint

end Exchange

end WgNx.X25519
