import WgNx.FieldLimbs
import WgNx.MixedRadix
import WgNx.WordBytes

/-!
Field elements as bytes.

Any 32 bytes are read as a field element: the top bit is ignored, and a number from the
modulus on stands for its residue.  What is written is the least residue, so equal
elements have equal bytes.
-/

namespace WgNx.FieldBytes

open WgNx.ByteLayout
open WgNx.Curve25519Prime
open WgNx.FieldLimbs
open WgNx.SignedWords
open WgNx.WordBytes

section Model

def load24Le (p : Bytes) (off : ℕ) : UInt32 :=
  (p.getD off 0).toUInt32 ||| (p.getD (off + 1) 0).toUInt32 <<< 8 |||
    (p.getD (off + 2) 0).toUInt32 <<< 16

/-- The conversion of a `u32` to an `i64`. -/
def ofUInt32 (x : UInt32) : SInt 64 := fit 64 x.toNat

/-- The limbs `fe_frombytes_mask` loads before it carries. -/
def loadLimbs (s : Bytes) (mask : UInt32) : Vector UInt32 10 :=
  #v[load32Le s 0, load24Le s 4 <<< 6, load24Le s 7 <<< 5, load24Le s 10 <<< 3,
    load24Le s 13 <<< 2, load32Le s 16, load24Le s 20 <<< 7, load24Le s 23 <<< 5,
    load24Le s 26 <<< 4, (load24Le s 29 &&& mask) <<< 2]

def feFromBytesMask (s : ByteVec 32) (nbMask : UInt32) : Fe :=
  feCarry ((loadLimbs s.toList (0xffffff >>> nbMask)).map ofUInt32)

def feFromBytes (s : ByteVec 32) : Fe := feFromBytesMask s 1

/-- The limbs with their widths, in the order in which `fe_tobytes` visits them. -/
def limbList (t : Fe) : List (SInt 32 × ℕ) := (List.finRange 10).map fun i => (t.get i, width i)

/-- The first loop of `fe_tobytes`. -/
def signLoop : List (SInt 32 × ℕ) → SInt 32 → SInt 32
  | [], q => q
  | (t, w) :: ts, q => signLoop ts ((q + t) >>> w)

/-- The second loop of `fe_tobytes`. -/
def reduceLoop : List (SInt 32 × ℕ) → SInt 32 → List (SInt 32)
  | [], _ => []
  | (t, w) :: ts, q =>
      let t := t + q
      let q := t >>> w
      (t - q * fit 32 (2 ^ w)) :: reduceLoop ts q

/-- The words `fe_tobytes` stores. -/
def packWords (t : List UInt32) : List UInt32 :=
  let t := fun i => t.getD i 0
  [t 0 >>> 0 ||| t 1 <<< 26, t 1 >>> 6 ||| t 2 <<< 19, t 2 >>> 13 ||| t 3 <<< 13,
    t 3 >>> 19 ||| t 4 <<< 6, t 5 >>> 0 ||| t 6 <<< 25, t 6 >>> 7 ||| t 7 <<< 19,
    t 7 >>> 13 ||| t 8 <<< 12, t 8 >>> 20 ||| t 9 <<< 6]

def feToBytes (h : Fe) : Option (ByteVec 32) :=
  let t := limbList h
  let q := (19 * h.get 9 + fit 32 (2 ^ 24)) >>> 25
  let q := signLoop t q * 19
  let limbs : Option (List (BitVec 32)) := (reduceLoop t q).mapM SInt.bits
  limbs.map fun t => field ((packWords (t.map UInt32.ofBitVec)).flatMap store32Le) 0 32

end Model

section Reading

theorem toNat_load24Le (p : Bytes) (off : ℕ) :
    (load24Le p off).toNat =
      (p.getD off 0).toNat + 2 ^ 8 * (p.getD (off + 1) 0).toNat +
        2 ^ 16 * (p.getD (off + 2) 0).toNat := by
  have h0 := (p.getD off 0).toNat_lt
  have h1 := (p.getD (off + 1) 0).toNat_lt
  unfold load24Le
  simp only [UInt32.toNat_or, UInt8.toNat_toUInt32]
  rw [toNat_byte_shiftLeft _ (by decide), toNat_byte_shiftLeft _ (by decide)]
  change (_ ||| 2 ^ 8 * _) ||| 2 ^ 16 * _ = _
  rw [or_mul_two_pow h0 (p.getD (off + 1) 0).toNat,
    or_mul_two_pow (show _ + 2 ^ 8 * (p.getD (off + 1) 0).toNat < 2 ^ 16 by omega)]

theorem load24Le_lt (p : Bytes) (off : ℕ) : (load24Le p off).toNat < 2 ^ 24 := by
  have h0 := (p.getD off 0).toNat_lt
  have h1 := (p.getD (off + 1) 0).toNat_lt
  have h2 := (p.getD (off + 2) 0).toNat_lt
  rw [toNat_load24Le]
  omega

theorem toNat_shiftLeft_of_lt {x : UInt32} {k : UInt32} (hk : k.toNat < 32)
    (hx : x.toNat * 2 ^ k.toNat < 2 ^ 32) : (x <<< k).toNat = x.toNat * 2 ^ k.toNat := by
  rw [UInt32.toNat_shiftLeft, Nat.mod_eq_of_lt hk, Nat.shiftLeft_eq, Nat.mod_eq_of_lt hx]

theorem load24Le_drop (bytes : Bytes) (m off : ℕ) :
    load24Le (bytes.drop m) off = load24Le bytes (m + off) := by
  simp only [load24Le, List.getD_eq_getElem?_getD, List.getElem?_drop, Nat.add_assoc]

theorem leValue_drop_four {bytes : Bytes} {m : ℕ} (h : m + 4 ≤ bytes.length) :
    leValue (bytes.drop m) = (load32Le bytes m).toNat + 2 ^ 32 * leValue (bytes.drop (m + 4)) := by
  rw [leValue_eq_word (by rw [List.length_drop]; omega), load32Le_drop, List.drop_drop,
    Nat.add_zero]

theorem leValue_drop_three {bytes : Bytes} {m : ℕ} (h : m + 3 ≤ bytes.length) :
    leValue (bytes.drop m) = (load24Le bytes m).toNat + 2 ^ 24 * leValue (bytes.drop (m + 3)) := by
  have hword := load24Le_drop bytes m 0
  rw [Nat.add_zero] at hword
  rw [← hword, ← List.drop_drop, toNat_load24Le]
  have hlen : 3 ≤ (bytes.drop m).length := by
    rw [List.length_drop]
    omega
  match bytes.drop m, hlen with
  | b0 :: b1 :: b2 :: rest, _ =>
      change b0.toNat + 256 * (b1.toNat + 256 * (b2.toNat + 256 * leValue rest)) =
        b0.toNat + 2 ^ 8 * b1.toNat + 2 ^ 16 * b2.toNat + 2 ^ 24 * leValue rest
      omega

/-- A number of 32 bytes by the pieces `fe_frombytes` reads. -/
theorem leValue_pieces (s : ByteVec 32) :
    leValue s.toList =
      (load32Le s.toList 0).toNat + 2 ^ 32 * (load24Le s.toList 4).toNat +
        2 ^ 56 * (load24Le s.toList 7).toNat + 2 ^ 80 * (load24Le s.toList 10).toNat +
        2 ^ 104 * (load24Le s.toList 13).toNat + 2 ^ 128 * (load32Le s.toList 16).toNat +
        2 ^ 160 * (load24Le s.toList 20).toNat + 2 ^ 184 * (load24Le s.toList 23).toNat +
        2 ^ 208 * (load24Le s.toList 26).toNat + 2 ^ 232 * (load24Le s.toList 29).toNat := by
  have hlen : s.toList.length = 32 := Vector.length_toList
  have hend : leValue (s.toList.drop 32) = 0 := by
    rw [List.drop_of_length_le hlen.le]
    rfl
  conv_lhs => rw [← List.drop_zero (l := s.toList)]
  rw [leValue_drop_four (by omega), leValue_drop_three (by omega), leValue_drop_three (by omega),
    leValue_drop_three (by omega), leValue_drop_three (by omega), leValue_drop_four (by omega),
    leValue_drop_three (by omega), leValue_drop_three (by omega), leValue_drop_three (by omega),
    leValue_drop_three (by omega), hend]
  ring

theorem within_ofUInt32 (x : UInt32) : Within (ofUInt32 x) x.toNat (2 ^ 62) := by
  have hx := x.toNat_lt
  exact (within_fit (Int.natAbs_natCast x.toNat).le (by omega)).mono (by omega)

theorem toNat_load24Le_shiftLeft (s : Bytes) (off : ℕ) {k : UInt32} (hk : k.toNat ≤ 8) :
    (load24Le s off <<< k).toNat = (load24Le s off).toNat * 2 ^ k.toNat := by
  have hlt := load24Le_lt s off
  have hpow : 2 ^ k.toNat ≤ 2 ^ 8 := Nat.pow_le_pow_right (by decide) hk
  refine toNat_shiftLeft_of_lt (by omega) ?_
  calc (load24Le s off).toNat * 2 ^ k.toNat ≤ (load24Le s off).toNat * 2 ^ 8 :=
        Nat.mul_le_mul_left _ hpow
    _ < 2 ^ 24 * 2 ^ 8 := Nat.mul_lt_mul_of_pos_right hlt (by decide)
    _ = 2 ^ 32 := by decide

/-- The top bit is the only one that does not count. -/
theorem limbValue_loadLimbs (s : ByteVec 32) :
    limbValue (fun i => ((loadLimbs s.toList (0xffffff >>> (1 : UInt32))).get i).toNat) =
      (leValue s.toList % 2 ^ 255 : ℕ) := by
  have hmask : ∀ x : UInt32, (x &&& (0xffffff >>> (1 : UInt32))).toNat = x.toNat % 2 ^ 23 := by
    intro x
    rw [UInt32.toNat_and]
    exact Nat.and_two_pow_sub_one_eq_mod x.toNat 23
  have hlast : ((load24Le s.toList 29 &&& (0xffffff >>> (1 : UInt32))) <<< 2).toNat =
      (load24Le s.toList 29).toNat % 2 ^ 23 * 2 ^ 2 := by
    rw [toNat_shiftLeft_of_lt (by decide), hmask]
    · rfl
    · rw [hmask]
      change _ * 2 ^ 2 < _
      omega
  have hlow : (load32Le s.toList 0).toNat + 2 ^ 32 * (load24Le s.toList 4).toNat +
        2 ^ 56 * (load24Le s.toList 7).toNat + 2 ^ 80 * (load24Le s.toList 10).toNat +
        2 ^ 104 * (load24Le s.toList 13).toNat + 2 ^ 128 * (load32Le s.toList 16).toNat +
        2 ^ 160 * (load24Le s.toList 20).toNat + 2 ^ 184 * (load24Le s.toList 23).toNat +
        2 ^ 208 * (load24Le s.toList 26).toNat < 2 ^ 232 := by
    have h0 := (load32Le s.toList 0).toNat_lt
    have h4 := load24Le_lt s.toList 4
    have h7 := load24Le_lt s.toList 7
    have h10 := load24Le_lt s.toList 10
    have h13 := load24Le_lt s.toList 13
    have h16 := (load32Le s.toList 16).toNat_lt
    have h20 := load24Le_lt s.toList 20
    have h23 := load24Le_lt s.toList 23
    have h26 := load24Le_lt s.toList 26
    omega
  have hmod : leValue s.toList % 2 ^ 255 =
      (load32Le s.toList 0).toNat + 2 ^ 32 * (load24Le s.toList 4).toNat +
        2 ^ 56 * (load24Le s.toList 7).toNat + 2 ^ 80 * (load24Le s.toList 10).toNat +
        2 ^ 104 * (load24Le s.toList 13).toNat + 2 ^ 128 * (load32Le s.toList 16).toNat +
        2 ^ 160 * (load24Le s.toList 20).toNat + 2 ^ 184 * (load24Le s.toList 23).toNat +
        2 ^ 208 * (load24Le s.toList 26).toNat +
        2 ^ 232 * ((load24Le s.toList 29).toNat % 2 ^ 23) := by
    rw [leValue_pieces]
    omega
  rw [hmod, limbValue_eq]
  change ((load32Le s.toList 0).toNat : ℤ) + ((load24Le s.toList 4 <<< 6).toNat : ℤ) * 2 ^ 26 +
    ((load24Le s.toList 7 <<< 5).toNat : ℤ) * 2 ^ 51 +
    ((load24Le s.toList 10 <<< 3).toNat : ℤ) * 2 ^ 77 +
    ((load24Le s.toList 13 <<< 2).toNat : ℤ) * 2 ^ 102 +
    ((load32Le s.toList 16).toNat : ℤ) * 2 ^ 128 +
    ((load24Le s.toList 20 <<< 7).toNat : ℤ) * 2 ^ 153 +
    ((load24Le s.toList 23 <<< 5).toNat : ℤ) * 2 ^ 179 +
    ((load24Le s.toList 26 <<< 4).toNat : ℤ) * 2 ^ 204 +
    (((load24Le s.toList 29 &&& (0xffffff >>> (1 : UInt32))) <<< 2).toNat : ℤ) * 2 ^ 230 = _
  rw [hlast, toNat_load24Le_shiftLeft _ _ (by decide), toNat_load24Le_shiftLeft _ _ (by decide),
    toNat_load24Le_shiftLeft _ _ (by decide), toNat_load24Le_shiftLeft _ _ (by decide),
    toNat_load24Le_shiftLeft _ _ (by decide), toNat_load24Le_shiftLeft _ _ (by decide),
    toNat_load24Le_shiftLeft _ _ (by decide)]
  have hsix : (6 : UInt32).toNat = 6 := rfl
  have hfive : (5 : UInt32).toNat = 5 := rfl
  have hthree : (3 : UInt32).toNat = 3 := rfl
  have htwo : (2 : UInt32).toNat = 2 := rfl
  have hseven : (7 : UInt32).toNat = 7 := rfl
  have hfour : (4 : UInt32).toNat = 4 := rfl
  rw [hsix, hfive, hthree, htwo, hseven, hfour]
  push_cast
  ring

/-- The element that 32 bytes stand for. -/
def decode (s : ByteVec 32) : Fp := (leValue s.toList % 2 ^ 255 : ℕ)

theorem represents_feFromBytes (s : ByteVec 32) : Represents 1 (feFromBytes s) (decode s) := by
  rw [decode, ← Int.cast_natCast, ← limbValue_loadLimbs]
  refine feCarry_represents fun i => ?_
  rw [get_map]
  exact within_ofUInt32 _

end Reading

section Reducing

/-- The integers the limbs stand for, with their widths. -/
def places (a : Fin 10 → ℤ) : List (ℤ × ℕ) := (List.finRange 10).map fun i => (a i, width i)

/-- Limbs of the size of carried ones, for the integers `ls`. -/
abbrev Places : List (SInt 32 × ℕ) → List (ℤ × ℕ) → Prop :=
  List.Forall₂ fun p d => Within p.1 d.1 36909875 ∧ p.2 = d.2 ∧ (d.2 = 26 ∨ d.2 = 25)

theorem places_eq (a : Fin 10 → ℤ) :
    places a = [(a 0, 26), (a 1, 25), (a 2, 26), (a 3, 25), (a 4, 26), (a 5, 25), (a 6, 26),
      (a 7, 25), (a 8, 26), (a 9, 25)] := rfl

theorem bits_places (a : Fin 10 → ℤ) : MixedRadix.bits (places a) = 255 := by
  rw [places_eq]
  simp [MixedRadix.bits]

theorem value_places (a : Fin 10 → ℤ) : MixedRadix.value (places a) = limbValue a := by
  rw [limbValue_eq, places_eq]
  simp only [MixedRadix.value]
  ring

theorem places_limbList {f : Fe} {a : Fin 10 → ℤ} (h : Limbs f a carried) :
    Places (limbList f) (places a) := by
  unfold limbList places Places
  rw [List.forall₂_map_left_iff, List.forall₂_map_right_iff, List.forall₂_same]
  exact fun i _ => ⟨(h i).mono (carried_le i), rfl, width_cases i⟩

variable {ts : List (SInt 32 × ℕ)} {ls : List (ℤ × ℕ)} {q : SInt 32} {v : ℤ}

theorem Places.signLoop (h : Places ts ls) (hq : Within q v 1024) :
    Within (signLoop ts q) (MixedRadix.carryOut v ls) 1024 := by
  induction h generalizing q v with
  | nil => exact hq
  | @cons t d ts ls htd _ ih =>
      obtain ⟨t, w⟩ := t
      obtain ⟨a, w'⟩ := d
      obtain ⟨ht, hww, hw⟩ := htd
      dsimp only at ht hww hw
      subst hww
      have hsum := hq.add ht (by norm_num)
      have hbound := hsum.2
      refine ih (hsum.shiftRight w ?_)
      rcases hw with rfl | rfl <;> norm_num only <;> omega

theorem Places.reduceLoop (h : Places ts ls) (hq : Within q v 1024) :
    List.Forall₂ (fun x d => Within x d.1 (2 ^ 26) ∧ 0 ≤ d.1) (reduceLoop ts q)
      (MixedRadix.digits v ls) := by
  induction h generalizing q v with
  | nil => exact .nil
  | @cons t d ts ls htd _ ih =>
      obtain ⟨t, w⟩ := t
      obtain ⟨a, w'⟩ := d
      obtain ⟨ht, hww, hw⟩ := htd
      dsimp only at ht hww hw
      subst hww
      have hsum := ht.add hq (by norm_num)
      have hbound := hsum.2
      have hshift : Within ((t + q) >>> w) ((a + v) / 2 ^ w) 2 :=
        hsum.shiftRight w (by rcases hw with rfl | rfl <;> norm_num only <;> omega)
      have hpow : Within (fit 32 (2 ^ w)) (2 ^ w) (2 ^ 26) := by
        rcases hw with rfl | rfl <;> exact within_fit (by norm_num) (by norm_num)
      have hdigit : (a + v) % 2 ^ w = a + v - (a + v) / 2 ^ w * 2 ^ w := by
        rw [Int.emod_def, mul_comm]
      have hnonneg : 0 ≤ (a + v) % 2 ^ w := Int.emod_nonneg _ (by positivity)
      have hlt : (a + v) % 2 ^ w < 2 ^ w := Int.emod_lt_of_pos _ (by positivity)
      refine .cons ⟨?_, hnonneg⟩ (ih (hshift.mono (by norm_num)))
      dsimp only
      rw [hdigit] at hnonneg hlt ⊢
      refine hsum.lift (· - ·) (hshift.mul hpow (by norm_num)) ?_ (by norm_num)
      rcases hw with rfl | rfl <;> norm_num only at hnonneg hlt ⊢ <;> omega

/-- Words for the digits, all of them defined. -/
theorem mapM_bits_of_within {xs : List (SInt 32)} {ds : List (ℤ × ℕ)}
    (h : List.Forall₂ (fun x d => Within x d.1 (2 ^ 26) ∧ 0 ≤ d.1) xs ds) :
    ∃ us : List (BitVec 32), xs.mapM SInt.bits = some us ∧
      us.map (fun u => (u.toNat : ℤ)) = ds.map Prod.fst := by
  induction h with
  | nil => exact ⟨[], rfl, rfl⟩
  | @cons x d xs ds hxd _ ih =>
      obtain ⟨⟨⟨u, hbits, hu⟩, -⟩, hnonneg⟩ := hxd
      obtain ⟨us, hus, hmap⟩ := ih
      refine ⟨u :: us, ?_, ?_⟩
      · rw [List.mapM_cons, hus, hbits]
        rfl
      · have htoNat : (u.toNat : ℤ) = d.1 := by
          rw [← hu] at hnonneg ⊢
          rw [BitVec.toInt_eq_toNat_cond] at hnonneg ⊢
          split at hnonneg <;> rename_i hlt
          · rw [if_pos hlt]
          · have := u.isLt
            omega
        rw [List.map_cons, List.map_cons, hmap, htoNat]

/-- The last limb decides the sign of carried limbs. -/
theorem limbValue_bounds {a : Fin 10 → ℤ} (h : ∀ i, (a i).natAbs ≤ carried i) :
    -2 ^ 230 < limbValue a - a 9 * 2 ^ 230 ∧ limbValue a - a 9 * 2 ^ 230 < 2 ^ 230 := by
  have habs : ∀ i, -(carried i : ℤ) ≤ a i ∧ a i ≤ carried i := fun i => by
    have hi := h i
    omega
  have heven : ∀ i : Fin 10, i.val % 2 = 0 → (carried i : ℤ) = 36909875 := fun i hi => by
    rw [carried, if_pos hi]
    rfl
  have hodd : ∀ i : Fin 10, i.val % 2 = 1 → (carried i : ℤ) = 18454937 := fun i hi => by
    rw [carried, if_neg (by omega)]
    rfl
  have h0 := habs 0
  have h1 := habs 1
  have h2 := habs 2
  have h3 := habs 3
  have h4 := habs 4
  have h5 := habs 5
  have h6 := habs 6
  have h7 := habs 7
  have h8 := habs 8
  rw [heven _ rfl] at h0 h2 h4 h6 h8
  rw [hodd _ rfl] at h1 h3 h5 h7
  rw [limbValue_eq]
  constructor <;> linarith

/-- The first loop finds the sign. -/
theorem carryOut_places {a : Fin 10 → ℤ} (h : ∀ i, (a i).natAbs ≤ carried i) :
    MixedRadix.carryOut ((19 * a 9 + 2 ^ 24) / 2 ^ 25) (places a) =
      if limbValue a < 0 then -1 else 0 := by
  have h9 : (a 9).natAbs ≤ 18454937 := h 9
  obtain ⟨hlo, hhi⟩ := limbValue_bounds h
  rw [MixedRadix.carryOut_eq, value_places, bits_places]
  split <;> omega

/-- The second loop leaves the digits of the least residue. -/
theorem value_reduced {a : Fin 10 → ℤ} (h : ∀ i, (a i).natAbs ≤ carried i) :
    MixedRadix.value (MixedRadix.digits ((if limbValue a < 0 then -1 else 0) * 19) (places a)) =
      limbValue a % modulus := by
  have h9 : (a 9).natAbs ≤ 18454937 := h 9
  obtain ⟨hlo, hhi⟩ := limbValue_bounds h
  rw [MixedRadix.value_digits, value_places, bits_places]
  have hmod : (modulus : ℤ) = 2 ^ 255 - 19 := by norm_num [modulus]
  rw [hmod]
  split
  · rw [← Int.add_emod_right (limbValue a) (2 ^ 255 - 19),
      Int.emod_eq_of_lt (a := limbValue a + (2 ^ 255 - 19)) (by omega) (by omega)]
    omega
  · rw [Int.emod_eq_of_lt (a := limbValue a) (by omega) (by omega)]
    omega

end Reducing

section Packing

theorem leBytes_add (m n x : ℕ) :
    (leBytes (m + n) x).toList = (leBytes m x).toList ++ (leBytes n (x / 256 ^ m)).toList := by
  induction m generalizing x with
  | zero => rw [Nat.zero_add, leBytes_zero_toList, List.nil_append, Nat.pow_zero, Nat.div_one]
  | succ m ih =>
      rw [Nat.succ_add, leBytes_succ_toList, leBytes_succ_toList, ih, List.cons_append,
        Nat.div_div_eq_div_mul, Nat.pow_succ']

theorem leBytes_words (k x : ℕ) :
    (leBytes (4 * k) x).toList =
      (List.range k).flatMap fun i => store32Le (UInt32.ofNat (x / 2 ^ (32 * i))) := by
  induction k generalizing x with
  | zero => rfl
  | succ k ih =>
      rw [Nat.mul_succ, Nat.add_comm, leBytes_add, ih, List.range_succ_eq_map, List.flatMap_cons,
        List.flatMap_map, Nat.mul_zero, Nat.pow_zero, Nat.div_one, store32Le_ofNat]
      refine congrArg _ (List.flatMap_congr fun i _ => ?_)
      rw [Nat.div_div_eq_div_mul, Nat.mul_succ, Nat.add_comm, Nat.pow_add]
      rfl

/-- A word put together from one limb after its first `i` bits and the first `l` bits of the
next one, and what is left of the number behind it. -/
theorem pack_step {x y k m : UInt32} {n r : ℕ} (i j l u : ℕ) (hk : k.toNat = i) (hm : m.toNat = j)
    (hi : i < 32) (hjl : j + l = 32) (hl : 0 < l) (hx : x.toNat < 2 ^ (i + j))
    (hn : n = x.toNat / 2 ^ i + 2 ^ j * (y.toNat + 2 ^ (l + u) * r)) :
    x >>> k ||| y <<< m = UInt32.ofNat n ∧ n / 2 ^ 32 = y.toNat / 2 ^ l + 2 ^ u * r := by
  subst hk hm
  have hpow : 2 ^ 32 = 2 ^ m.toNat * 2 ^ l := by rw [← Nat.pow_add, hjl]
  have hx' : x.toNat / 2 ^ k.toNat < 2 ^ m.toNat := by
    rw [Nat.pow_add] at hx
    exact Nat.div_lt_of_lt_mul hx
  have hsplit : n = x.toNat / 2 ^ k.toNat + 2 ^ m.toNat * (y.toNat % 2 ^ l) +
      2 ^ 32 * (y.toNat / 2 ^ l + 2 ^ u * r) := by
    calc n = x.toNat / 2 ^ k.toNat + 2 ^ m.toNat *
          (y.toNat % 2 ^ l + 2 ^ l * (y.toNat / 2 ^ l) + 2 ^ (l + u) * r) := by
          rw [Nat.mod_add_div, hn]
      _ = _ := by
          rw [hpow, Nat.pow_add]
          ring
  have hlow : x.toNat / 2 ^ k.toNat + 2 ^ m.toNat * (y.toNat % 2 ^ l) < 2 ^ 32 := by
    have hmod : y.toNat % 2 ^ l + 1 ≤ 2 ^ l := Nat.mod_lt _ (Nat.two_pow_pos l)
    rw [hpow]
    calc x.toNat / 2 ^ k.toNat + 2 ^ m.toNat * (y.toNat % 2 ^ l)
        < 2 ^ m.toNat + 2 ^ m.toNat * (y.toNat % 2 ^ l) := Nat.add_lt_add_right hx' _
      _ = 2 ^ m.toNat * (y.toNat % 2 ^ l + 1) := by ring
      _ ≤ 2 ^ m.toNat * 2 ^ l := Nat.mul_le_mul_left _ hmod
  refine ⟨?_, ?_⟩
  · apply UInt32.toNat_inj.mp
    rw [UInt32.toNat_ofNat', hsplit, Nat.add_mul_mod_self_left, Nat.mod_eq_of_lt hlow,
      UInt32.toNat_or, UInt32.toNat_shiftRight, UInt32.toNat_shiftLeft, Nat.mod_eq_of_lt hi,
      Nat.mod_eq_of_lt (show m.toNat < 32 by omega), Nat.shiftRight_eq_div_pow, Nat.shiftLeft_eq,
      Nat.mul_comm y.toNat, hpow, Nat.mul_mod_mul_left, or_mul_two_pow hx']
  · rw [hsplit, Nat.add_mul_div_left _ _ (Nat.two_pow_pos 32), Nat.div_eq_of_lt hlow, Nat.zero_add]

/-- The stored words are those of the number the digits stand for. -/
theorem packWords_eq {t : List UInt32} {d : Fin 10 → ℤ} {n : ℕ}
    (ht : ∀ i : Fin 10, ((t.getD i 0).toNat : ℤ) = d i) (hd : ∀ i, d i < 2 ^ width i)
    (hn : (n : ℤ) = limbValue d) :
    packWords t = (List.range 8).map fun i => UInt32.ofNat (n / 2 ^ (32 * i)) := by
  have hlt : ∀ i : Fin 10, (t.getD i 0).toNat < 2 ^ width i := fun i => by
    have hi := (ht i).trans_lt (hd i)
    exact_mod_cast hi
  have h0 : (t.getD 0 0).toNat < 2 ^ 26 := hlt 0
  have h1 : (t.getD 1 0).toNat < 2 ^ 25 := hlt 1
  have h2 : (t.getD 2 0).toNat < 2 ^ 26 := hlt 2
  have h3 : (t.getD 3 0).toNat < 2 ^ 25 := hlt 3
  have h4 : (t.getD 4 0).toNat < 2 ^ 26 := hlt 4
  have h5 : (t.getD 5 0).toNat < 2 ^ 25 := hlt 5
  have h6 : (t.getD 6 0).toNat < 2 ^ 26 := hlt 6
  have h7 : (t.getD 7 0).toNat < 2 ^ 25 := hlt 7
  have h8 : (t.getD 8 0).toNat < 2 ^ 26 := hlt 8
  have e0 : d 0 = (t.getD 0 0).toNat := (ht 0).symm
  have e1 : d 1 = (t.getD 1 0).toNat := (ht 1).symm
  have e2 : d 2 = (t.getD 2 0).toNat := (ht 2).symm
  have e3 : d 3 = (t.getD 3 0).toNat := (ht 3).symm
  have e4 : d 4 = (t.getD 4 0).toNat := (ht 4).symm
  have e5 : d 5 = (t.getD 5 0).toNat := (ht 5).symm
  have e6 : d 6 = (t.getD 6 0).toNat := (ht 6).symm
  have e7 : d 7 = (t.getD 7 0).toNat := (ht 7).symm
  have e8 : d 8 = (t.getD 8 0).toNat := (ht 8).symm
  have e9 : d 9 = (t.getD 9 0).toNat := (ht 9).symm
  rw [limbValue_eq, e0, e1, e2, e3, e4, e5, e6, e7, e8, e9] at hn
  norm_cast at hn
  simp only [packWords]
  generalize t.getD 0 0 = t0 at *
  generalize t.getD 1 0 = t1 at *
  generalize t.getD 2 0 = t2 at *
  generalize t.getD 3 0 = t3 at *
  generalize t.getD 4 0 = t4 at *
  generalize t.getD 5 0 = t5 at *
  generalize t.getD 6 0 = t6 at *
  generalize t.getD 7 0 = t7 at *
  generalize t.getD 8 0 = t8 at *
  generalize t.getD 9 0 = t9 at *
  -- What is left behind each word starts inside a limb, except behind the fourth.
  obtain ⟨w0, m1⟩ := pack_step 0 26 6 19 (x := t0) (y := t1) (k := 0) (m := 26) (n := n)
    (r := t2.toNat + 2 ^ 26 * (t3.toNat + 2 ^ 25 * (t4.toNat + 2 ^ 26 * (t5.toNat + 2 ^ 25 *
      (t6.toNat + 2 ^ 26 * (t7.toNat + 2 ^ 25 * (t8.toNat + 2 ^ 26 * t9.toNat)))))))
    rfl rfl (by decide) rfl (by decide) h0 (by rw [hn, Nat.pow_zero, Nat.div_one]; ring)
  obtain ⟨w1, m2⟩ := pack_step 6 19 13 13 (k := 6) (m := 19) rfl rfl (by decide) rfl (by decide)
    h1 m1
  obtain ⟨w2, m3⟩ := pack_step 13 13 19 6 (k := 13) (m := 13) rfl rfl (by decide) rfl (by decide)
    h2 m2
  obtain ⟨w3, m4⟩ := pack_step 19 6 26 0 (k := 19) (m := 6) rfl rfl (by decide) rfl (by decide)
    h3 m3
  rw [Nat.div_eq_of_lt h4, Nat.zero_add, Nat.pow_zero, Nat.one_mul, ← Nat.div_one t5.toNat] at m4
  obtain ⟨w4, m5⟩ := pack_step 0 25 7 19 (k := 0) (m := 25) rfl rfl (by decide) rfl (by decide)
    h5 m4
  obtain ⟨w5, m6⟩ := pack_step 7 19 13 12 (k := 7) (m := 19) rfl rfl (by decide) rfl (by decide)
    h6 m5
  obtain ⟨w6, m7⟩ := pack_step 13 12 20 6 (k := 13) (m := 12) rfl rfl (by decide) rfl (by decide)
    h7 m6
  obtain ⟨w7, -⟩ := pack_step 20 6 26 0 (r := 0) (k := 20) (m := 6) rfl rfl (by decide) rfl
    (by decide) h8 m7
  have hdiv : ∀ i, n / 2 ^ (32 * (i + 1)) = n / 2 ^ (32 * i) / 2 ^ 32 := fun i => by
    rw [Nat.div_div_eq_div_mul, ← Nat.pow_add]
    rfl
  rw [w0, w1, w2, w3, w4, w5, w6, w7]
  simp only [List.range_succ_eq_map, List.range_zero, List.map_cons, List.map_nil, hdiv,
    Nat.mul_zero, Nat.pow_zero, Nat.div_one]

end Packing

section Writing

variable {f g : Fe} {x y : Fp}

theorem eq_map_finRange {α : Type} {l : List α} {n : ℕ} (h : l.length = n) (z : α) :
    l = (List.finRange n).map fun i : Fin n => l.getD i.val z := by
  apply List.ext_getElem
  · simp [h]
  · intro i hi hi'
    simp [hi]

/-- Digits of the widths of the limbs are those of a limb vector. -/
theorem exists_places {ds : List (ℤ × ℕ)} {a : Fin 10 → ℤ}
    (h : ds.map Prod.snd = (places a).map Prod.snd) : ∃ d : Fin 10 → ℤ, ds = places d := by
  have hlen : (ds.map Prod.fst).length = 10 := by
    rw [List.length_map, ← List.length_map (f := Prod.snd), h]
    simp [places]
  have hwidth : (places a).map Prod.snd = (List.finRange 10).map width := by
    rw [places, List.map_map]
    rfl
  refine ⟨fun i => (ds.map Prod.fst).getD i 0, ?_⟩
  calc ds = (ds.map Prod.fst).zip (ds.map Prod.snd) := by
        rw [List.zip_map', List.map_id']
    _ = ((List.finRange 10).map fun i : Fin 10 => (ds.map Prod.fst).getD i.val 0).zip
          ((List.finRange 10).map width) := by rw [h, hwidth, ← eq_map_finRange hlen 0]
    _ = places _ := List.zip_map'

theorem represents_limbs (h : Represents 1 f x) :
    ∃ a : Fin 10 → ℤ, Limbs f a carried ∧ ((limbValue a : ℤ) : Fp) = x := by
  obtain ⟨a, ha, hx⟩ := h
  exact ⟨a, ha.mono fun i => (Nat.one_mul _).le, hx⟩

/-- The bytes of the least residue of an element. -/
def encode (x : Fp) : ByteVec 32 := leBytes 32 x.val

theorem feToBytes_eq (h : Represents 1 f x) : feToBytes f = some (encode x) := by
  obtain ⟨a, ha, rfl⟩ := represents_limbs h
  have hbound : ∀ i, (a i).natAbs ≤ carried i := fun i => (ha i).2
  have hplaces := places_limbList ha
  have h9 : Within (f.get 9) (a 9) 18454937 := ha 9
  have hstart : Within ((19 * f.get 9 + fit 32 (2 ^ 24)) >>> 25)
      ((19 * a 9 + 2 ^ 24) / 2 ^ 25) 1024 := by
    have hmul := within_nineteen.mul h9 (by norm_num)
    have hfit : Within (fit 32 (2 ^ 24)) (2 ^ 24) (2 ^ 24) := within_fit (by norm_num) (by norm_num)
    refine (hmul.add hfit (by norm_num)).shiftRight 25 ?_
    have := h9.2
    omega
  have hsign := hplaces.signLoop hstart
  rw [carryOut_places hbound] at hsign
  have hq : Within (signLoop (limbList f) ((19 * f.get 9 + fit 32 (2 ^ 24)) >>> 25) * 19)
      ((if limbValue a < 0 then -1 else 0) * 19) 1024 :=
    hsign.lift (· * ·) within_nineteen (by split <;> norm_num) (by norm_num)
  obtain ⟨us, hus, hdigits⟩ := mapM_bits_of_within (hplaces.reduceLoop hq)
  have hvalue := value_reduced hbound
  have hlt := MixedRadix.digits_bounds ((if limbValue a < 0 then -1 else 0) * 19) (places a)
  obtain ⟨d, hd⟩ := exists_places
    (MixedRadix.map_snd_digits ((if limbValue a < 0 then -1 else 0) * 19) (places a))
  rw [hd] at hdigits hvalue hlt
  rw [value_places] at hvalue
  have hdi : ∀ i, d i < 2 ^ width i := fun i =>
    (hlt (d i, width i) (List.mem_map_of_mem (List.mem_finRange i))).2
  have hui : ∀ i : Fin 10, (((us.map UInt32.ofBitVec).getD i 0).toNat : ℤ) = d i := fun i => by
    have hget : (us.map fun u => (u.toNat : ℤ)).getD i 0 = d i := by
      rw [hdigits, places, List.map_map]
      simp
    rw [← hget]
    simp only [List.getD_eq_getElem?_getD, List.getElem?_map]
    cases us[i.val]? <;> rfl
  have hn : ((((limbValue a : ℤ) : Fp).val : ℕ) : ℤ) = limbValue d := by
    rw [hvalue, ZMod.val_intCast]
  have hpack := packWords_eq hui hdi hn
  unfold feToBytes
  simp only [hus, Option.map_some]
  rw [hpack, List.flatMap_map, ← leBytes_words 8, field_toList, encode]

/-- Reading what was written gives the element back. -/
theorem decode_encode (x : Fp) : decode (encode x) = x := by
  have hlt : x.val < 2 ^ 255 := (ZMod.val_lt x).trans (by norm_num [modulus])
  rw [decode, encode, leValue_leBytes, Nat.mod_eq_of_lt (hlt.trans (by norm_num)),
    Nat.mod_eq_of_lt hlt, ZMod.natCast_zmod_val]

/-- Equal elements have equal bytes and only they do. -/
theorem feToBytes_inj (hf : Represents 1 f x) (hg : Represents 1 g y) :
    feToBytes f = feToBytes g ↔ x = y := by
  rw [feToBytes_eq hf, feToBytes_eq hg, Option.some.injEq]
  exact (Function.LeftInverse.injective decode_encode).eq_iff

theorem leValue_encode (x : Fp) : leValue (encode x).toList = x.val := by
  have hlt : x.val < 256 ^ 32 := (ZMod.val_lt x).trans (by norm_num [modulus])
  rw [encode, leValue_leBytes, Nat.mod_eq_of_lt hlt]

theorem leBytes_leValue {n : ℕ} (s : ByteVec n) : leBytes n (leValue s.toList) = s := by
  have hlist : ∀ bytes : Bytes, (leBytes bytes.length (leValue bytes)).toList = bytes := by
    intro bytes
    induction bytes with
    | nil => rfl
    | cons b bs ih =>
        have hb := b.toNat_lt
        have hdiv : (b.toNat + 256 * leValue bs) / 256 = leValue bs := by omega
        have hbyte : UInt8.ofNat (b.toNat + 256 * leValue bs) = b := by
          apply UInt8.toNat_inj.mp
          rw [UInt8.toNat_ofNat']
          omega
        rw [List.length_cons, leBytes_succ_toList, leValue_cons, hdiv, hbyte, ih]
  have hs := hlist s.toList
  rw [Vector.length_toList] at hs
  exact Vector.toList_inj.mp hs

/-- Writing what was read never fails, and the bytes come back as they were exactly if they
are those of a least residue. -/
theorem feToBytes_feFromBytes_iff (s : ByteVec 32) :
    ∃ r, feToBytes (feFromBytes s) = some r ∧ (r = s ↔ leValue s.toList < modulus) := by
  refine ⟨encode (decode s), feToBytes_eq (represents_feFromBytes s), ?_⟩
  constructor
  · intro h
    rw [← h, leValue_encode]
    exact ZMod.val_lt _
  · intro h
    have hlt : leValue s.toList < 2 ^ 255 := h.trans (by norm_num [modulus])
    rw [encode, decode, Nat.mod_eq_of_lt hlt, ZMod.val_natCast_of_lt h, leBytes_leValue]

end Writing

end WgNx.FieldBytes
