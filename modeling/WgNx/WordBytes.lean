import WgNx.ByteLayout
import WgNx.ByteMemory

/-!
Little-endian words as the C files load and store them, byte by byte with shifts.
-/

namespace WgNx.WordBytes

open WgNx.ByteLayout
open WgNx.ByteMemory

section Model

/-- `load32_le(p + off)`, which is the same in all three files. -/
def load32Le (p : Bytes) (off : Nat) : UInt32 :=
  (p.getD off 0).toUInt32 ||| (p.getD (off + 1) 0).toUInt32 <<< 8 |||
    (p.getD (off + 2) 0).toUInt32 <<< 16 ||| (p.getD (off + 3) 0).toUInt32 <<< 24

def store32Le (v : UInt32) : Bytes :=
  [v.toUInt8, (v >>> 8).toUInt8, (v >>> 16).toUInt8, (v >>> 24).toUInt8]

def store64Le (v : UInt64) : Bytes :=
  [v.toUInt8, (v >>> 8).toUInt8, (v >>> 16).toUInt8, (v >>> 24).toUInt8,
    (v >>> 32).toUInt8, (v >>> 40).toUInt8, (v >>> 48).toUInt8, (v >>> 56).toUInt8]

/-- `load64_le` of the portable library. -/
def load64Le (p : Bytes) (off : Nat) : UInt64 :=
  (load32Le p off).toUInt64 ||| (load32Le p (off + 4)).toUInt64 <<< 32

end Model

section Bits

/-- The bitwise or of numbers without common bits is their sum. -/
theorem or_mul_two_pow {a i : Nat} (h : a < 2 ^ i) (b : Nat) :
    a ||| 2 ^ i * b = a + 2 ^ i * b := by
  rw [Nat.or_comm, ← Nat.two_pow_add_eq_or_of_lt h, Nat.add_comm]

theorem toNat_byte_shiftLeft (b : UInt8) {k : UInt32} (hk : k.toNat ≤ 24) :
    (b.toUInt32 <<< k).toNat = 2 ^ k.toNat * b.toNat := by
  have hb := b.toNat_lt
  have hpow : 2 ^ k.toNat ≤ 2 ^ 24 := Nat.pow_le_pow_right (by decide) hk
  have hlt : 2 ^ k.toNat * b.toNat < 2 ^ 32 := by
    calc 2 ^ k.toNat * b.toNat ≤ 2 ^ 24 * b.toNat := Nat.mul_le_mul_right _ hpow
      _ < 2 ^ 24 * 2 ^ 8 := Nat.mul_lt_mul_of_pos_left hb (by decide)
      _ = 2 ^ 32 := by decide
  rw [UInt32.toNat_shiftLeft, UInt8.toNat_toUInt32,
    Nat.mod_eq_of_lt (show k.toNat < 32 by omega), Nat.shiftLeft_eq, Nat.mul_comm,
    Nat.mod_eq_of_lt hlt]

theorem toNat_load32Le (p : Bytes) (off : Nat) :
    (load32Le p off).toNat =
      (p.getD off 0).toNat + 2 ^ 8 * (p.getD (off + 1) 0).toNat +
        2 ^ 16 * (p.getD (off + 2) 0).toNat + 2 ^ 24 * (p.getD (off + 3) 0).toNat := by
  have h0 := (p.getD off 0).toNat_lt
  have h1 := (p.getD (off + 1) 0).toNat_lt
  have h2 := (p.getD (off + 2) 0).toNat_lt
  unfold load32Le
  simp only [UInt32.toNat_or, UInt8.toNat_toUInt32]
  rw [toNat_byte_shiftLeft _ (by decide), toNat_byte_shiftLeft _ (by decide),
    toNat_byte_shiftLeft _ (by decide)]
  change ((_ ||| 2 ^ 8 * _) ||| 2 ^ 16 * _) ||| 2 ^ 24 * _ = _
  rw [or_mul_two_pow h0 (p.getD (off + 1) 0).toNat,
    or_mul_two_pow (show _ + 2 ^ 8 * (p.getD (off + 1) 0).toNat < 2 ^ 16 by omega)
      (p.getD (off + 2) 0).toNat,
    or_mul_two_pow (show _ + 2 ^ 16 * (p.getD (off + 2) 0).toNat < 2 ^ 24 by omega)]

@[simp] theorem length_store32Le (v : UInt32) : (store32Le v).length = 4 := rfl

theorem toNat_byteOf (v : UInt32) (k : UInt32) :
    (v >>> k).toUInt8.toNat = v.toNat / 2 ^ (k.toNat % 32) % 256 := by
  rw [UInt32.toNat_toUInt8, UInt32.toNat_shiftRight, Nat.shiftRight_eq_div_pow]

/-- Storing a word that was loaded gives its bytes back. -/
theorem store32Le_load32Le (p : Bytes) (off : Nat) :
    store32Le (load32Le p off) =
      [p.getD off 0, p.getD (off + 1) 0, p.getD (off + 2) 0, p.getD (off + 3) 0] := by
  have h0 := (p.getD off 0).toNat_lt
  have h1 := (p.getD (off + 1) 0).toNat_lt
  have h2 := (p.getD (off + 2) 0).toNat_lt
  have h3 := (p.getD (off + 3) 0).toNat_lt
  have hword := toNat_load32Le p off
  have hfirst : (load32Le p off).toUInt8 = p.getD off 0 := by
    apply UInt8.toNat_inj.mp
    rw [UInt32.toNat_toUInt8, hword]
    omega
  have hsecond : (load32Le p off >>> 8).toUInt8 = p.getD (off + 1) 0 := by
    apply UInt8.toNat_inj.mp
    rw [toNat_byteOf, hword]
    change _ / 2 ^ 8 % 256 = _
    omega
  have hthird : (load32Le p off >>> 16).toUInt8 = p.getD (off + 2) 0 := by
    apply UInt8.toNat_inj.mp
    rw [toNat_byteOf, hword]
    change _ / 2 ^ 16 % 256 = _
    omega
  have hfourth : (load32Le p off >>> 24).toUInt8 = p.getD (off + 3) 0 := by
    apply UInt8.toNat_inj.mp
    rw [toNat_byteOf, hword]
    change _ / 2 ^ 24 % 256 = _
    omega
  unfold store32Le
  rw [hfirst, hsecond, hthird, hfourth]

theorem store32Le_xor (v w : UInt32) :
    store32Le (v ^^^ w) = xorBytes (store32Le v) (store32Le w) := by
  simp only [store32Le, UInt32.shiftRight_xor, UInt32.toUInt8_xor]
  rfl

/-- The word of four bytes, xored with a key word, stored again. -/
theorem store32Le_xor_load32Le (p : Bytes) (hp : p.length = 4) (w : UInt32) :
    store32Le (load32Le p 0 ^^^ w) = xorBytes p (store32Le w) := by
  rw [store32Le_xor, store32Le_load32Le]
  match p, hp with
  | [_, _, _, _], _ => rfl

/-- Reading a word in the middle of a buffer. -/
theorem load32Le_read (mem : Memory) (addr : Nat) {off n : Nat} (h : off + 4 ≤ n) :
    load32Le (read mem addr n) off = load32Le (read mem (addr + off) 4) 0 := by
  have hget : ∀ i < 4, (read mem addr n).getD (off + i) 0 =
      (read mem (addr + off) 4).getD i 0 := by
    intro i hi
    rw [List.getD_eq_getElem _ _ (by rw [length_read]; omega),
      List.getD_eq_getElem _ _ (by rw [length_read]; omega), getElem_read, getElem_read,
      Nat.add_assoc]
  have h0 := hget 0 (by decide)
  have h1 := hget 1 (by decide)
  have h2 := hget 2 (by decide)
  have h3 := hget 3 (by decide)
  unfold load32Le
  rw [h1, h2, h3]
  rw [Nat.add_zero] at h0
  rw [h0]

end Bits

section Numbers

theorem leValue_cons (b : UInt8) (bs : Bytes) : leValue (b :: bs) = b.toNat + 256 * leValue bs :=
  rfl

/-- The bytes behind the end of a number do not count if they are zero. -/
theorem leValue_append_zeros (bs : Bytes) (n : Nat) :
    leValue (bs ++ List.replicate n 0) = leValue bs := by
  induction bs with
  | nil =>
      induction n with
      | zero => rfl
      | succ n ih =>
          rw [List.replicate_succ, List.nil_append, leValue_cons]
          rw [List.nil_append] at ih
          rw [ih]
          rfl
  | cons b bs ih => rw [List.cons_append, leValue_cons, leValue_cons, ih]

/-- The first word of a number. -/
theorem leValue_eq_word {bytes : Bytes} (h : 4 ≤ bytes.length) :
    leValue bytes = (load32Le bytes 0).toNat + 2 ^ 32 * leValue (bytes.drop 4) := by
  rw [toNat_load32Le]
  match bytes, h with
  | b0 :: b1 :: b2 :: b3 :: rest, _ =>
      change b0.toNat + 256 * (b1.toNat + 256 * (b2.toNat + 256 * (b3.toNat + 256 *
        leValue rest))) = b0.toNat + 2 ^ 8 * b1.toNat + 2 ^ 16 * b2.toNat + 2 ^ 24 * b3.toNat +
        2 ^ 32 * leValue rest
      omega

theorem load32Le_drop (bytes : Bytes) (m off : Nat) :
    load32Le (bytes.drop m) off = load32Le bytes (m + off) := by
  simp only [load32Le, List.getD_eq_getElem?_getD, List.getElem?_drop, Nat.add_assoc]

theorem load32Le_take (p : Bytes) {off n : Nat} (h : off + 4 ≤ n) :
    load32Le (p.take n) off = load32Le p off := by
  have hget : ∀ i < 4, (p.take n).getD (off + i) 0 = p.getD (off + i) 0 := by
    intro i hi
    rw [List.getD_eq_getElem?_getD, List.getD_eq_getElem?_getD,
      List.getElem?_take_of_lt (by omega)]
  have h0 := hget 0 (by decide)
  rw [Nat.add_zero] at h0
  unfold load32Le
  rw [h0, hget 1 (by decide), hget 2 (by decide), hget 3 (by decide)]

theorem toUInt8_shiftRight_ofNat (x : Nat) {k : UInt32} (hk : k.toNat ≤ 24) :
    (UInt32.ofNat x >>> k).toUInt8 = UInt8.ofNat (x / 2 ^ k.toNat) := by
  have hpow : 2 ^ 32 = 2 ^ k.toNat * 2 ^ (32 - k.toNat) := by
    rw [← Nat.pow_add]
    congr 1
    omega
  have hbyte : 2 ^ (32 - k.toNat) = 256 * 2 ^ (24 - k.toNat) := by
    rw [show 32 - k.toNat = 8 + (24 - k.toNat) by omega, Nat.pow_add]
  apply UInt8.toNat_inj.mp
  rw [toNat_byteOf, UInt32.toNat_ofNat', UInt8.toNat_ofNat',
    Nat.mod_eq_of_lt (show k.toNat < 32 by omega), hpow,
    Nat.mod_mul_right_div_self, hbyte, Nat.mod_mul_right_mod]

theorem store32Le_ofNat (x : Nat) : store32Le (UInt32.ofNat x) = (leBytes 4 x).toList := by
  have h0 : (UInt32.ofNat x).toUInt8 = UInt8.ofNat x := by
    have hshift := @toUInt8_shiftRight_ofNat x 0 (by decide)
    rw [UInt32.shiftRight_zero] at hshift
    exact hshift.trans (congrArg UInt8.ofNat (Nat.div_one x))
  have h8 : (UInt32.ofNat x >>> 8).toUInt8 = _ := toUInt8_shiftRight_ofNat x (by decide)
  have h16 : (UInt32.ofNat x >>> 16).toUInt8 = _ := toUInt8_shiftRight_ofNat x (by decide)
  have h24 : (UInt32.ofNat x >>> 24).toUInt8 = _ := toUInt8_shiftRight_ofNat x (by decide)
  unfold store32Le
  rw [h0, h8, h16, h24]
  simp only [leBytes_succ_toList, leBytes_zero_toList, Nat.div_div_eq_div_mul]
  rfl

end Numbers

end WgNx.WordBytes
