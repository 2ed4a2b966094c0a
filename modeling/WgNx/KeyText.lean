import Mathlib.Data.List.Basic
import WgNx.Base64
import WgNx.WordBytes

/-!
Keys as text.

The encoder writes the standard base64 text of a key.  The decoder goes over the text in
groups of four characters; it looks at the result of decoding only for the first two
characters of each group.
-/

namespace WgNx.KeyText

open WgNx.ByteLayout
open WgNx.WordBytes

section Model

def ascii (c : Char) : UInt8 := UInt8.ofNat c.toNat

/-- A string of C; the byte behind its last character is zero. -/
structure CString where
  bytes : Bytes
  noNul : 0 ∉ bytes

def CString.at (s : CString) (i : Nat) : UInt8 := s.bytes.getD i 0

def b64Table : Bytes :=
  ['A', 'B', 'C', 'D', 'E', 'F', 'G', 'H', 'I', 'J', 'K', 'L', 'M', 'N', 'O', 'P', 'Q', 'R', 'S',
    'T', 'U', 'V', 'W', 'X', 'Y', 'Z', 'a', 'b', 'c', 'd', 'e', 'f', 'g', 'h', 'i', 'j', 'k', 'l',
    'm', 'n', 'o', 'p', 'q', 'r', 's', 't', 'u', 'v', 'w', 'x', 'y', 'z', '0', '1', '2', '3', '4',
    '5', '6', '7', '8', '9', '+', '/'].map ascii

/-- An `int` is a word of thirty-two bits; the result is `-1` for all other characters. -/
def b64DecodeChar (c : UInt8) : BitVec 32 :=
  if ascii 'A' ≤ c ∧ c ≤ ascii 'Z' then BitVec.ofNat 32 (c - ascii 'A').toNat
  else if ascii 'a' ≤ c ∧ c ≤ ascii 'z' then BitVec.ofNat 32 ((c - ascii 'a').toNat + 26)
  else if ascii '0' ≤ c ∧ c ≤ ascii '9' then BitVec.ofNat 32 ((c - ascii '0').toNat + 52)
  else if c = ascii '+' then 62
  else if c = ascii '/' then 63
  else -1

/-- Assigning an `int` to a byte. -/
def toByte (x : BitVec 32) : UInt8 := ⟨x.setWidth 8⟩

/-- `key[out_idx++] = x` if there is room and the condition holds. -/
def pushIf (cond : Bool) (x : UInt8) (key : Bytes) : Bytes :=
  if key.length < 32 ∧ cond then key ++ [x] else key

/-- The body of the loop of `wg_key_from_base64`; `key` holds the bytes written so far. -/
def decodeGroup (s : CString) (key : Bytes) (i : Nat) : Option Bytes :=
  let a := b64DecodeChar (s.at i)
  let b := b64DecodeChar (s.at (i + 1))
  let c := if i + 2 < 43 then b64DecodeChar (s.at (i + 2)) else 0
  let d := if i + 3 < 43 then b64DecodeChar (s.at (i + 3)) else 0
  if a.slt 0 ∨ b.slt 0 then none
  else
    let key := pushIf true (toByte (a <<< 2 ||| b.sshiftRight 4)) key
    let key := pushIf (s.at (i + 2) != ascii '=') (toByte (b <<< 4 ||| c.sshiftRight 2)) key
    let key := pushIf (s.at (i + 3) != ascii '=') (toByte (c <<< 6 ||| d)) key
    some key

/-- The key, if the function returns zero. -/
def wgKeyFromBase64 (base64 : Option CString) : Option Bytes := do
  let s ← base64
  if s.bytes.length < 43 then none
  else
    let key ← (List.range' 0 11 4).foldlM
      (fun key i => if key.length < 32 then decodeGroup s key i else some key) []
    if key.length = 32 then some key else none

/-- The body of the loop of `wg_key_to_base64`. -/
def encodeGroup (key : ByteVec 32) (i : Nat) : Bytes :=
  let n := (key.toList.getD i 0).toUInt32 <<< 16
  let n := if i + 1 < 32 then n ||| (key.toList.getD (i + 1) 0).toUInt32 <<< 8 else n
  let n := if i + 2 < 32 then n ||| (key.toList.getD (i + 2) 0).toUInt32 else n
  [b64Table.getD (n >>> 18 &&& 0x3F).toNat 0, b64Table.getD (n >>> 12 &&& 0x3F).toNat 0,
    if i + 1 < 32 then b64Table.getD (n >>> 6 &&& 0x3F).toNat 0 else ascii '=',
    if i + 2 < 32 then b64Table.getD (n &&& 0x3F).toNat 0 else ascii '=']

/-- The bytes written to a buffer of `len` bytes, if the function returns zero. -/
def wgKeyToBase64 (len : Nat) (key : ByteVec 32) : Option Bytes :=
  if len < 45 then none else some ((List.range' 0 11 3).flatMap (encodeGroup key) ++ [0])

end Model

section Characters

theorem b64Table_eq : b64Table = Base64.alphabet := by decide

theorem b64DecodeChar_digit {v : Nat} (hv : v < 64) :
    b64DecodeChar (Base64.digit v) = BitVec.ofNat 32 v := by
  have hall : ∀ v : Fin 64, b64DecodeChar (Base64.digit v) = BitVec.ofNat 32 v := by
    decide +kernel
  exact hall ⟨v, hv⟩

theorem mem_alphabet_iff (c : UInt8) :
    c ∈ Base64.alphabet ↔
      (ascii 'A' ≤ c ∧ c ≤ ascii 'Z') ∨ (ascii 'a' ≤ c ∧ c ≤ ascii 'z') ∨
        (ascii '0' ≤ c ∧ c ≤ ascii '9') ∨ c = ascii '+' ∨ c = ascii '/' := by
  have hrange : ∀ first last : UInt8,
      c ∈ (List.range' first.toNat (last.toNat + 1 - first.toNat)).map UInt8.ofNat ↔
        first ≤ c ∧ c ≤ last := by
    intro first last
    have hlast := last.toNat_lt
    rw [List.mem_map, UInt8.le_iff_toNat_le, UInt8.le_iff_toNat_le]
    constructor
    · rintro ⟨n, hn, rfl⟩
      rw [List.mem_range'_1] at hn
      rw [UInt8.toNat_ofNat', Nat.mod_eq_of_lt (by omega)]
      omega
    · rintro ⟨hfirst, hlast⟩
      exact ⟨c.toNat, List.mem_range'_1.mpr (by omega), UInt8.ofNat_toNat⟩
  unfold Base64.alphabet
  rw [List.mem_append, List.mem_append, List.mem_append, or_assoc, or_assoc, List.mem_pair]
  exact or_congr (hrange 65 90) (or_congr (hrange 97 122) (or_congr (hrange 48 57) Iff.rfl))

theorem msb_ofNat {x : Nat} (hx : x < 64) : (BitVec.ofNat 32 x).msb = false := by
  rw [BitVec.msb_eq_false_iff_two_mul_lt, BitVec.toNat_ofNat]
  omega

theorem slt_zero_eq_false_iff (c : UInt8) :
    (b64DecodeChar c).slt 0 = false ↔ c ∈ Base64.alphabet := by
  constructor
  · intro hslt
    rw [mem_alphabet_iff]
    by_contra hnone
    simp only [not_or] at hnone
    obtain ⟨hupper, hlower, hnumber, hplus, hslash⟩ := hnone
    unfold b64DecodeChar at hslt
    rw [if_neg hupper, if_neg hlower, if_neg hnumber, if_neg hplus, if_neg hslash] at hslt
    exact absurd hslt (by decide)
  · intro hmem
    obtain ⟨v, hv, rfl⟩ := Base64.exists_digit_of_mem hmem
    rw [b64DecodeChar_digit hv]
    exact BitVec.slt_zero_eq_msb.trans (msb_ofNat hv)

theorem sshiftRight_ofNat {x : Nat} (hx : x < 64) (k : Nat) :
    (BitVec.ofNat 32 x).sshiftRight k = BitVec.ofNat 32 (x / 2 ^ k) := by
  have hquot : x / 2 ^ k ≤ x := Nat.div_le_self ..
  rw [BitVec.sshiftRight_eq_of_msb_false (msb_ofNat hx)]
  apply BitVec.eq_of_toNat_eq
  rw [BitVec.toNat_ushiftRight, BitVec.toNat_ofNat, BitVec.toNat_ofNat, Nat.shiftRight_eq_div_pow,
    Nat.mod_eq_of_lt (by omega), Nat.mod_eq_of_lt (by omega)]

/-- Two numbers without common bits in one byte. -/
theorem toByte_shiftLeft_or {x y k : Nat} (hx : x < 64) (hk : k ≤ 6) (hy : y < 2 ^ k) :
    toByte (BitVec.ofNat 32 x <<< k ||| BitVec.ofNat 32 y) = UInt8.ofNat (x * 2 ^ k + y) := by
  have hpow : 2 ^ k ≤ 2 ^ 6 := Nat.pow_le_pow_right (by decide) hk
  have hprod : x * 2 ^ k ≤ 63 * 2 ^ 6 := Nat.mul_le_mul (by omega) hpow
  apply UInt8.toNat_inj.mp
  change ((BitVec.ofNat 32 x <<< k ||| BitVec.ofNat 32 y).setWidth 8).toNat = _
  rw [BitVec.toNat_setWidth, BitVec.toNat_or, BitVec.toNat_shiftLeft, BitVec.toNat_ofNat,
    BitVec.toNat_ofNat, Nat.shiftLeft_eq, Nat.mod_eq_of_lt (show x < 2 ^ 32 by omega),
    Nat.mod_eq_of_lt (show x * 2 ^ k < 2 ^ 32 by omega),
    Nat.mod_eq_of_lt (show y < 2 ^ 32 by omega), Nat.or_comm, Nat.mul_comm,
    or_mul_two_pow hy, Nat.add_comm, UInt8.toNat_ofNat']

/-- The shifts on the values of four digits. -/
theorem toByte_digits {a b c d : Nat} (ha : a < 64) (hb : b < 64) (hc : c < 64) (hd : d < 64) :
    [toByte (BitVec.ofNat 32 a <<< 2 ||| (BitVec.ofNat 32 b).sshiftRight 4),
      toByte (BitVec.ofNat 32 b <<< 4 ||| (BitVec.ofNat 32 c).sshiftRight 2),
      toByte (BitVec.ofNat 32 c <<< 6 ||| BitVec.ofNat 32 d)] = Base64.threeBytes a b c d := by
  have hmod : ∀ x y : Nat, x % 256 = y % 256 → UInt8.ofNat x = UInt8.ofNat y := by
    intro x y hxy
    apply UInt8.toNat_inj.mp
    rw [UInt8.toNat_ofNat', UInt8.toNat_ofNat']
    exact hxy
  rw [sshiftRight_ofNat hb, sshiftRight_ofNat hc, toByte_shiftLeft_or ha (by decide) (by omega),
    toByte_shiftLeft_or hb (by decide) (by omega), toByte_shiftLeft_or hc (by decide) hd]
  change [UInt8.ofNat (a * 4 + b / 16), _, _] = [UInt8.ofNat (a * 4 + b / 16), _, _]
  rw [hmod (b * 2 ^ 4 + c / 2 ^ 2) (b % 16 * 16 + c / 4) (by omega),
    hmod (c * 2 ^ 6 + d) (c % 4 * 64 + d) (by omega)]

end Characters

section Encoder

theorem table_digit (n : UInt32) {k : UInt32} (hk : k.toNat < 32) :
    b64Table.getD (n >>> k &&& 0x3F).toNat 0 = Base64.digit (n.toNat / 2 ^ k.toNat % 64) := by
  have hindex : (n >>> k &&& 0x3F).toNat = n.toNat / 2 ^ k.toNat % 64 := by
    rw [UInt32.toNat_and, UInt32.toNat_shiftRight, Nat.mod_eq_of_lt hk, Nat.shiftRight_eq_div_pow]
    exact Nat.and_two_pow_sub_one_eq_mod _ 6
  rw [hindex, b64Table_eq]
  rfl

theorem fourDigits_toNat (n : UInt32) :
    Base64.fourDigits n.toNat =
      [b64Table.getD (n >>> 18 &&& 0x3F).toNat 0, b64Table.getD (n >>> 12 &&& 0x3F).toNat 0,
        b64Table.getD (n >>> 6 &&& 0x3F).toNat 0, b64Table.getD (n &&& 0x3F).toNat 0] := by
  have hlast := table_digit n (k := 0) (by decide)
  rw [UInt32.shiftRight_zero] at hlast
  rw [table_digit n (by decide), table_digit n (by decide), table_digit n (by decide), hlast]
  change _ = [_, _, _, Base64.digit (n.toNat / 1 % 64)]
  rw [Nat.div_one]
  rfl

theorem toNat_three_bytes (a b c : UInt8) :
    (a.toUInt32 <<< 16 ||| b.toUInt32 <<< 8 ||| c.toUInt32).toNat =
      a.toNat * 2 ^ 16 + b.toNat * 2 ^ 8 + c.toNat := by
  have hb := b.toNat_lt
  have hc := c.toNat_lt
  rw [UInt32.toNat_or, UInt32.toNat_or, toNat_byte_shiftLeft _ (by decide),
    toNat_byte_shiftLeft _ (by decide), UInt8.toNat_toUInt32, Nat.or_assoc, Nat.or_comm]
  change (2 ^ 8 * b.toNat ||| c.toNat) ||| 2 ^ 16 * a.toNat = _
  rw [Nat.or_comm (2 ^ 8 * b.toNat), or_mul_two_pow hc, or_mul_two_pow (by omega)]
  omega

theorem encodeGroup_whole (key : ByteVec 32) {i : Nat} (hi : i + 2 < 32) :
    encodeGroup key i =
      Base64.encode
        [key.toList.getD i 0, key.toList.getD (i + 1) 0, key.toList.getD (i + 2) 0] := by
  unfold encodeGroup Base64.encode Base64.encode
  rw [← toNat_three_bytes, fourDigits_toNat, List.append_nil]
  simp only [show i + 1 < 32 by omega, hi, if_true]

theorem encodeGroup_last (key : ByteVec 32) :
    encodeGroup key 30 = Base64.encode [key.toList.getD 30 0, key.toList.getD 31 0] := by
  have hvalue := toNat_three_bytes (key.toList.getD 30 0) (key.toList.getD 31 0) 0
  change (_ ||| (0 : UInt32)).toNat = _ + 0 at hvalue
  rw [UInt32.or_zero, Nat.add_zero] at hvalue
  unfold Base64.encode
  rw [← hvalue, fourDigits_toNat]
  rfl

theorem take_succ_getD {l : Bytes} {i : Nat} (hi : i < l.length) :
    l.take (i + 1) = l.take i ++ [l.getD i 0] := by
  rw [List.take_succ_eq_append_getElem hi, List.getD_eq_getElem _ _ hi]

theorem take_add_three {l : Bytes} {i : Nat} (hi : i + 2 < l.length) :
    l.take (i + 3) = l.take i ++ [l.getD i 0, l.getD (i + 1) 0, l.getD (i + 2) 0] := by
  rw [take_succ_getD hi, take_succ_getD (by omega), take_succ_getD (by omega), List.append_assoc,
    List.append_assoc]
  rfl

theorem eq_take_append_two (key : ByteVec 32) :
    key.toList = key.toList.take 30 ++ [key.toList.getD 30 0, key.toList.getD 31 0] := by
  have hlen : key.toList.length = 32 := Vector.length_toList
  have hall := List.take_of_length_le (Nat.le_of_eq hlen)
  rw [take_succ_getD (by omega), take_succ_getD (by omega), List.append_assoc] at hall
  exact hall.symm

theorem flatMap_encodeGroup (key : ByteVec 32) {g : Nat} (hg : g ≤ 10) :
    (List.range' 0 g 3).flatMap (encodeGroup key) = Base64.encode (key.toList.take (3 * g)) := by
  have hkey : key.toList.length = 32 := Vector.length_toList
  induction g with
  | zero => rfl
  | succ g ih =>
      have hlen : (key.toList.take (3 * g)).length = 3 * g := by
        rw [List.length_take]
        omega
      rw [List.range'_concat, List.flatMap_append, ih (by omega), Nat.mul_succ,
        take_add_three (by omega), Base64.encode_append (by omega), List.flatMap_singleton,
        Nat.zero_add, encodeGroup_whole key (by omega)]

theorem wgKeyToBase64_eq {len : Nat} (hlen : 45 ≤ len) (key : ByteVec 32) :
    wgKeyToBase64 len key = some (Base64.encode key.toList ++ [0]) := by
  have htake : (key.toList.take 30).length % 3 = 0 := by
    rw [List.length_take, Vector.length_toList]
    rfl
  have hgroups : (List.range' 0 11 3).flatMap (encodeGroup key) = Base64.encode key.toList := by
    rw [List.range'_concat, List.flatMap_append, flatMap_encodeGroup key (Nat.le_refl 10),
      List.flatMap_singleton, encodeGroup_last, ← Base64.encode_append htake, ← eq_take_append_two]
  unfold wgKeyToBase64
  rw [if_neg (Nat.not_lt.mpr hlen), hgroups]

end Encoder

section Decoder

variable (s : CString)

/-- The bytes of the group at `i`, without the bound on their number. -/
def groupBytes (i : Nat) : Bytes :=
  let a := b64DecodeChar (s.at i)
  let b := b64DecodeChar (s.at (i + 1))
  let c := if i + 2 < 43 then b64DecodeChar (s.at (i + 2)) else 0
  let d := if i + 3 < 43 then b64DecodeChar (s.at (i + 3)) else 0
  [toByte (a <<< 2 ||| b.sshiftRight 4)] ++
    (if s.at (i + 2) != ascii '=' then [toByte (b <<< 4 ||| c.sshiftRight 2)] else []) ++
    (if s.at (i + 3) != ascii '=' then [toByte (c <<< 6 ||| d)] else [])

/-- The two characters of the group at `i` that are checked. -/
def HeadValid (i : Nat) : Prop := s.at i ∈ Base64.alphabet ∧ s.at (i + 1) ∈ Base64.alphabet

instance (i : Nat) : Decidable (HeadValid s i) := inferInstanceAs (Decidable (_ ∧ _))

theorem take_take_append (n : Nat) (xs ys : Bytes) :
    (xs.take n ++ ys).take n = (xs ++ ys).take n := by
  rcases Nat.le_total n xs.length with hle | hle
  · rw [List.take_append_of_le_length hle, List.take_left' (List.length_take_of_le hle)]
  · rw [List.take_of_length_le hle]

theorem pushIf_eq (cond : Bool) (x : UInt8) {key : Bytes} (h : key.length ≤ 32) :
    pushIf cond x key = (key ++ if cond then [x] else []).take 32 := by
  unfold pushIf
  cases cond with
  | false =>
      rw [if_neg (by simp), if_neg Bool.false_ne_true, List.append_nil, List.take_of_length_le h]
  | true =>
      rw [if_pos rfl]
      by_cases hlt : key.length < 32
      · rw [if_pos ⟨hlt, rfl⟩, List.take_of_length_le (by rw [List.length_append]; exact hlt)]
      · rw [if_neg (fun hboth => hlt hboth.1), List.take_left' (by omega)]

theorem decodeGroup_eq {key : Bytes} (h : key.length ≤ 32) (i : Nat) :
    decodeGroup s key i =
      if HeadValid s i then some ((key ++ groupBytes s i).take 32) else none := by
  have hlen : ∀ l : Bytes, (l.take 32).length ≤ 32 := fun l => List.length_take_le 32 l
  unfold decodeGroup
  by_cases hhead : HeadValid s i
  · have ha := (slt_zero_eq_false_iff _).mpr hhead.1
    have hb := (slt_zero_eq_false_iff _).mpr hhead.2
    rw [if_pos hhead]
    dsimp only
    rw [if_neg (by rw [ha, hb]; simp), pushIf_eq _ _ h, pushIf_eq _ _ (hlen _),
      pushIf_eq _ _ (hlen _), take_take_append, List.append_assoc, take_take_append, if_pos rfl]
    unfold groupBytes
    dsimp only
    rw [List.append_assoc, List.append_assoc]
  · have hslt : (b64DecodeChar (s.at i)).slt 0 ∨ (b64DecodeChar (s.at (i + 1))).slt 0 := by
      by_contra hnone
      rw [not_or, Bool.not_eq_true, Bool.not_eq_true, slt_zero_eq_false_iff,
        slt_zero_eq_false_iff] at hnone
      exact hhead hnone
    rw [if_neg hhead, if_pos hslt]

/-- A pad character costs one byte. -/
theorem length_groupBytes (i : Nat) :
    (groupBytes s i).length + ((if s.at (i + 2) = ascii '=' then 1 else 0) +
      (if s.at (i + 3) = ascii '=' then 1 else 0)) = 3 := by
  unfold groupBytes
  simp only [List.length_append, apply_ite List.length, List.length_singleton, List.length_nil,
    bne_iff_ne, ne_eq, ite_not]
  by_cases hthird : s.at (i + 2) = ascii '='
  · by_cases hfourth : s.at (i + 3) = ascii '='
    · simp [hthird, hfourth]
    · simp [hthird, hfourth]
  · by_cases hfourth : s.at (i + 3) = ascii '='
    · simp [hthird, hfourth]
    · simp [hthird, hfourth]

theorem length_flatMap_groupBytes_le (n : Nat) :
    ((List.range' 0 n 4).flatMap (groupBytes s)).length ≤ 3 * n := by
  induction n with
  | zero => exact Nat.le_refl 0
  | succ n ih =>
      have hgroup := length_groupBytes s (0 + 4 * n)
      rw [List.range'_concat, List.flatMap_append, List.flatMap_singleton, List.length_append]
      omega

/-- The loop of the decoder after `n` groups. -/
theorem foldlM_decodeGroup {n : Nat} (hn : n ≤ 11) :
    (List.range' 0 n 4).foldlM
        (fun key i => if key.length < 32 then decodeGroup s key i else some key) [] =
      if ∀ j < n, HeadValid s (4 * j) then
        some (((List.range' 0 n 4).flatMap (groupBytes s)).take 32) else none := by
  induction n with
  | zero => rfl
  | succ n ih =>
      have hshort := length_flatMap_groupBytes_le s n
      have hkey : (((List.range' 0 n 4).flatMap (groupBytes s)).take 32).length < 32 := by
        rw [List.length_take]
        omega
      rw [List.range'_concat, List.foldlM_append, ih (by omega), List.flatMap_append,
        List.flatMap_singleton, Nat.zero_add]
      by_cases hbefore : ∀ j < n, HeadValid s (4 * j)
      · have hall : (∀ j < n + 1, HeadValid s (4 * j)) ↔ HeadValid s (4 * n) := by
          constructor
          · intro h
            exact h n (Nat.lt_succ_self n)
          · intro h j hj
            rcases Nat.lt_succ_iff_lt_or_eq.mp hj with hlt | rfl
            · exact hbefore j hlt
            · exact h
        rw [if_pos hbefore, Option.bind_eq_bind, Option.bind_some, List.foldlM_cons, if_pos hkey,
          decodeGroup_eq s (Nat.le_of_lt hkey), take_take_append]
        by_cases hhead : HeadValid s (4 * n)
        · rw [if_pos hhead, if_pos (hall.mpr hhead)]
          rfl
        · rw [if_neg hhead, if_neg (hhead ∘ hall.mp)]
          rfl
      · have hnot : ¬∀ j < n + 1, HeadValid s (4 * j) := by
          intro h
          exact hbefore fun j hj => h j (Nat.lt_succ_of_lt hj)
        rw [if_neg hbefore, if_neg hnot]
        rfl

/-- The number of pad characters among the unchecked characters of the first `n` groups. -/
def padCount (n : Nat) : Nat :=
  (List.range (4 * n)).countP fun i => 2 ≤ i % 4 ∧ s.at i = ascii '='

theorem length_flatMap_groupBytes (n : Nat) :
    ((List.range' 0 n 4).flatMap (groupBytes s)).length + padCount s n = 3 * n := by
  induction n with
  | zero => rfl
  | succ n ih =>
      have hgroup := length_groupBytes s (4 * n)
      have hcount : padCount s (n + 1) = padCount s n +
          ((if s.at (4 * n + 2) = ascii '=' then 1 else 0) +
            (if s.at (4 * n + 3) = ascii '=' then 1 else 0)) := by
        unfold padCount
        rw [show 4 * (n + 1) = 4 * n + 1 + 1 + 1 + 1 by omega]
        simp only [List.range_succ, List.countP_append, List.countP_singleton, decide_eq_true_eq,
          show ¬2 ≤ 4 * n % 4 by omega, show ¬2 ≤ (4 * n + 1) % 4 by omega,
          show 2 ≤ (4 * n + 1 + 1) % 4 by omega, show 2 ≤ (4 * n + 1 + 1 + 1) % 4 by omega,
          true_and, false_and, if_false, Nat.add_zero]
        exact Nat.add_assoc ..
      rw [List.range'_concat, List.flatMap_append, List.flatMap_singleton, List.length_append,
        Nat.zero_add, hcount]
      omega

/-- What the decoder demands of a text. -/
structure Accepted : Prop where
  long : 43 ≤ s.bytes.length
  heads : ∀ i < 43, i % 4 < 2 → s.at i ∈ Base64.alphabet
  pads : (List.range 44).countP (fun i => 2 ≤ i % 4 ∧ s.at i = ascii '=') ≤ 1

theorem headValid_iff :
    (∀ j < 11, HeadValid s (4 * j)) ↔ ∀ i < 43, i % 4 < 2 → s.at i ∈ Base64.alphabet := by
  constructor
  · intro h i hi hmod
    obtain ⟨hfirst, hsecond⟩ := h (i / 4) (by omega)
    rcases Nat.lt_or_ge (i % 4) 1 with hzero | hone
    · rw [show 4 * (i / 4) = i by omega] at hfirst
      exact hfirst
    · rw [show 4 * (i / 4) + 1 = i by omega] at hsecond
      exact hsecond
  · intro h j hj
    exact ⟨h (4 * j) (by omega) (by omega), h (4 * j + 1) (by omega) (by omega)⟩

/-- All bytes of the eleven groups, up to the size of a key. -/
def keyBytes : Bytes := ((List.range' 0 11 4).flatMap (groupBytes s)).take 32

theorem length_keyBytes_iff : (keyBytes s).length = 32 ↔ padCount s 11 ≤ 1 := by
  have htotal := length_flatMap_groupBytes s 11
  unfold keyBytes
  rw [List.length_take]
  omega

theorem wgKeyFromBase64_eq_some_iff (key : Bytes) :
    wgKeyFromBase64 (some s) = some key ↔ Accepted s ∧ key = keyBytes s := by
  have hdef : wgKeyFromBase64 (some s) =
      if s.bytes.length < 43 then none
      else
        ((List.range' 0 11 4).foldlM
          (fun key i => if key.length < 32 then decodeGroup s key i else some key) []).bind
          fun key => if key.length = 32 then some key else none := rfl
  rw [hdef, foldlM_decodeGroup s (Nat.le_refl 11)]
  constructor
  · intro hsome
    split at hsome
    · exact absurd hsome (by simp)
    rename_i hlong
    split at hsome
    · rename_i hheads
      rw [Option.bind_some] at hsome
      split at hsome
      · rename_i hlen
        exact ⟨⟨Nat.le_of_not_lt hlong, (headValid_iff s).mp hheads,
          (length_keyBytes_iff s).mp hlen⟩, (Option.some.inj hsome).symm⟩
      · exact absurd hsome (by simp)
    · exact absurd hsome (by simp)
  · rintro ⟨⟨hlong, hheads, hpads⟩, rfl⟩
    rw [if_neg (Nat.not_lt.mpr hlong), if_pos ((headValid_iff s).mpr hheads), Option.bind_some]
    exact if_pos ((length_keyBytes_iff s).mpr hpads)

end Decoder

section Digits

variable (s : CString)

/-- The value of a character of the alphabet. -/
def value (i : Nat) : Nat := (b64DecodeChar (s.at i)).toNat

variable {s}

theorem value_spec {i : Nat} (h : s.at i ∈ Base64.alphabet) :
    value s i < 64 ∧ Base64.digit (value s i) = s.at i := by
  obtain ⟨v, hv, hdigit⟩ := Base64.exists_digit_of_mem h
  have hvalue : value s i = v := by
    unfold value
    rw [hdigit, b64DecodeChar_digit hv, BitVec.toNat_ofNat]
    omega
  rw [hvalue]
  exact ⟨hv, hdigit.symm⟩

theorem b64DecodeChar_eq (i : Nat) : b64DecodeChar (s.at i) = BitVec.ofNat 32 (value s i) := by
  rw [value, BitVec.ofNat_toNat, BitVec.setWidth_eq]

theorem bne_pad {i : Nat} (h : s.at i ∈ Base64.alphabet) : (s.at i != ascii '=') = true := by
  rw [bne_iff_ne]
  intro heq
  rw [heq] at h
  exact Base64.pad_not_mem h

theorem groupBytes_whole {i : Nat} (hi : i + 3 < 43)
    (h : ∀ k < 4, s.at (i + k) ∈ Base64.alphabet) :
    groupBytes s i =
      Base64.threeBytes (value s i) (value s (i + 1)) (value s (i + 2)) (value s (i + 3)) := by
  have hlt : ∀ k < 4, value s (i + k) < 64 := fun k hk => (value_spec (h k hk)).1
  have hbytes := toByte_digits (hlt 0 (by decide)) (hlt 1 (by decide)) (hlt 2 (by decide))
    (hlt 3 (by decide))
  rw [Nat.add_zero] at hbytes
  rw [← hbytes]
  unfold groupBytes
  simp only [b64DecodeChar_eq, bne_pad (h 2 (by decide)), bne_pad (h 3 (by decide)), hi,
    show i + 2 < 43 by omega, if_true]
  rfl

theorem encode_groupBytes {i : Nat} (hi : i + 3 < 43)
    (h : ∀ k < 4, s.at (i + k) ∈ Base64.alphabet) :
    Base64.encode (groupBytes s i) = [s.at i, s.at (i + 1), s.at (i + 2), s.at (i + 3)] := by
  obtain ⟨ha, hda⟩ := value_spec (h 0 (by decide))
  obtain ⟨hb, hdb⟩ := value_spec (h 1 (by decide))
  obtain ⟨hc, hdc⟩ := value_spec (h 2 (by decide))
  obtain ⟨hd, hdd⟩ := value_spec (h 3 (by decide))
  rw [Nat.add_zero] at ha hda
  rw [groupBytes_whole hi h, Base64.encode_threeBytes ha hb hc hd, hda, hdb, hdc, hdd]

theorem take_groupBytes_last (h : ∀ k < 3, s.at (40 + k) ∈ Base64.alphabet) :
    (groupBytes s 40).take 2 =
      (Base64.threeBytes (value s 40) (value s 41) (value s 42) 0).take 2 := by
  have hlt : ∀ k < 3, value s (40 + k) < 64 := fun k hk => (value_spec (h k hk)).1
  rw [← toByte_digits (hlt 0 (by decide)) (hlt 1 (by decide)) (hlt 2 (by decide))
    (show 0 < 64 by decide)]
  unfold groupBytes
  simp only [b64DecodeChar_eq, bne_pad (h 2 (by decide)), show 40 + 2 < 43 by decide, if_true]
  rfl

variable (h : ∀ i < 43, s.at i ∈ Base64.alphabet)

include h

/-- No byte is lost before the last group. -/
theorem length_whole_groups {g : Nat} (hg : g ≤ 10) :
    ((List.range' 0 g 4).flatMap (groupBytes s)).length = 3 * g := by
  have htotal := length_flatMap_groupBytes s g
  have hnone : padCount s g = 0 := by
    unfold padCount
    rw [List.countP_eq_zero]
    intro i hi hpad
    rw [List.mem_range] at hi
    rw [decide_eq_true_eq] at hpad
    have hmem := h i (by omega)
    rw [hpad.2] at hmem
    exact Base64.pad_not_mem hmem
  rw [hnone] at htotal
  exact htotal

/-- Ten whole groups and two bytes. -/
theorem keyBytes_eq :
    keyBytes s = (List.range' 0 10 4).flatMap (groupBytes s) ++
      (Base64.threeBytes (value s 40) (value s 41) (value s 42) 0).take 2 := by
  have hlen := length_whole_groups h (Nat.le_refl 10)
  rw [← take_groupBytes_last fun k hk => h (40 + k) (by omega)]
  unfold keyBytes
  rw [List.range'_concat, List.flatMap_append, List.flatMap_singleton, List.take_append, hlen,
    List.take_of_length_le (by omega)]

variable (hlong : 43 ≤ s.bytes.length)

include hlong

theorem encode_whole_groups {g : Nat} (hg : g ≤ 10) :
    Base64.encode ((List.range' 0 g 4).flatMap (groupBytes s)) = s.bytes.take (4 * g) := by
  induction g with
  | zero => rfl
  | succ g ih =>
      have hlen := length_whole_groups h (show g ≤ 10 by omega)
      have hgroup := encode_groupBytes (show 4 * g + 3 < 43 by omega)
        fun k hk => h (4 * g + k) (by omega)
      rw [List.range'_concat, List.flatMap_append, List.flatMap_singleton,
        Base64.encode_append (by omega), ih (by omega), Nat.zero_add, hgroup, Nat.mul_succ,
        take_succ_getD (show 4 * g + 3 < s.bytes.length by omega), take_add_three (by omega),
        List.append_assoc]
      rfl

/-- The text of the key that was read begins like the text it was read from. -/
theorem take_encode_keyBytes : (Base64.encode (keyBytes s)).take 42 = s.bytes.take 42 := by
  obtain ⟨ha, hda⟩ := value_spec (h 40 (by decide))
  obtain ⟨hb, hdb⟩ := value_spec (h 41 (by decide))
  obtain ⟨hc, -⟩ := value_spec (h 42 (by decide))
  have hlen := length_whole_groups h (Nat.le_refl 10)
  have hlast := Base64.take_encode_twoBytes ha hb hc (d := 0)
  have hforty : (s.bytes.take (4 * 10)).length = 40 := List.length_take_of_le (by omega)
  have hend : s.bytes.take 42 = s.bytes.take 40 ++ [s.at 40, s.at 41] := by
    rw [@take_succ_getD s.bytes 41 (by omega), @take_succ_getD s.bytes 40 (by omega),
      List.append_assoc]
    rfl
  rw [keyBytes_eq h, Base64.encode_append (by omega), encode_whole_groups h hlong (Nat.le_refl 10),
    List.take_append, hforty, List.take_of_length_le (by omega), hlast, hda, hdb, hend]

end Digits

section Results

variable {s : CString} {key : ByteVec 32}

theorem value_eq {i v : Nat} (hv : v < 64) (hi : s.at i = Base64.digit v) : value s i = v := by
  unfold value
  rw [hi, b64DecodeChar_digit hv, BitVec.toNat_ofNat]
  omega

theorem at_add (hs : s.bytes = Base64.encode key.toList) {k : Nat} (hk : k ≤ 10) (r : Nat) :
    s.at (4 * k + r) = (Base64.encode (key.toList.drop (3 * k))).getD r 0 := by
  have hkey : key.toList.length = 32 := Vector.length_toList
  rw [← Base64.drop_encode (by omega), ← hs, List.getD_eq_getElem?_getD, List.getElem?_drop]
  exact List.getD_eq_getElem?_getD

/-- The number of a whole group of three bytes. -/
def groupNumber (key : ByteVec 32) (k : Nat) : Nat :=
  (key.toList.getD (3 * k) 0).toNat * 2 ^ 16 + (key.toList.getD (3 * k + 1) 0).toNat * 2 ^ 8 +
    (key.toList.getD (3 * k + 2) 0).toNat

theorem drop_eq_cons (key : ByteVec 32) {i : Nat} (hi : i < 32) :
    key.toList.drop i = key.toList.getD i 0 :: key.toList.drop (i + 1) := by
  have hi' : i < key.toList.length := by rw [Vector.length_toList]; exact hi
  rw [List.drop_eq_getElem_cons hi', List.getD_eq_getElem _ _ hi']

section Text

variable (hs : s.bytes = Base64.encode key.toList)

include hs

theorem at_whole {k : Nat} (hk : k < 10) {r : Nat} (hr : r < 4) :
    s.at (4 * k + r) = (Base64.fourDigits (groupNumber key k)).getD r 0 := by
  rw [at_add hs (Nat.le_of_lt hk), drop_eq_cons key (by omega), drop_eq_cons key (by omega),
    drop_eq_cons key (by omega)]
  unfold Base64.encode
  exact List.getD_append _ _ _ _ hr

theorem at_last {r : Nat} (hr : r < 3) :
    s.at (40 + r) = (Base64.fourDigits (groupNumber key 10)).getD r 0 := by
  have hkey : key.toList.length = 32 := Vector.length_toList
  have hnone : key.toList.getD (3 * 10 + 2) 0 = 0 := List.getD_eq_default _ _ (Nat.le_of_eq hkey)
  have hdrop : key.toList.drop (3 * 10 + 1 + 1) = [] := List.drop_eq_nil_of_le (Nat.le_of_eq hkey)
  have hnumber : groupNumber key 10 = (key.toList.getD (3 * 10) 0).toNat * 2 ^ 16 +
      (key.toList.getD (3 * 10 + 1) 0).toNat * 2 ^ 8 := by
    unfold groupNumber
    rw [hnone, UInt8.toNat_zero, Nat.add_zero]
  rw [at_add hs (k := 10) (Nat.le_refl 10), drop_eq_cons key (by decide),
    drop_eq_cons key (by decide), hdrop, hnumber]
  have htake : ∀ xs : Bytes, (xs.take 3).getD r 0 = xs.getD r 0 := by
    intro xs
    rw [List.getD_eq_getElem?_getD, List.getElem?_take_of_lt hr, List.getD_eq_getElem?_getD]
  unfold Base64.encode
  rw [List.getD_append _ _ _ _ hr, htake]

theorem at_mem_alphabet {i : Nat} (hi : i < 43) : s.at i ∈ Base64.alphabet := by
  have hdigits : ∀ n r, r < 4 → (Base64.fourDigits n).getD r 0 ∈ Base64.alphabet := by
    intro n r hr
    match r, hr with
    | 0, _ => exact Base64.digit_mem (Nat.mod_lt _ (by decide))
    | 1, _ => exact Base64.digit_mem (Nat.mod_lt _ (by decide))
    | 2, _ => exact Base64.digit_mem (Nat.mod_lt _ (by decide))
    | 3, _ => exact Base64.digit_mem (Nat.mod_lt _ (by decide))
  rcases Nat.lt_or_ge i 40 with hwhole | hlast
  · rw [← Nat.div_add_mod i 4, at_whole hs (by omega) (by omega)]
    exact hdigits _ _ (by omega)
  · rw [show i = 40 + (i - 40) by omega, at_last hs (by omega)]
    exact hdigits _ _ (by omega)

/-- A whole group is read as the bytes it was written from. -/
theorem groupBytes_text {k : Nat} (hk : k < 10) :
    groupBytes s (4 * k) =
      [key.toList.getD (3 * k) 0, key.toList.getD (3 * k + 1) 0,
        key.toList.getD (3 * k + 2) 0] := by
  have hlt : ∀ x, x % 64 < 64 := fun x => Nat.mod_lt x (by decide)
  obtain ⟨h0, h1, h2, h3⟩ := Base64.getD_fourDigits (groupNumber key k)
  have hfirst : value s (4 * k) = groupNumber key k / 2 ^ 18 % 64 :=
    value_eq (hlt _) ((at_whole hs hk (r := 0) (by decide)).trans h0)
  rw [groupBytes_whole (by omega) fun r hr => at_mem_alphabet hs (by omega), hfirst,
    value_eq (hlt _) ((at_whole hs hk (r := 1) (by decide)).trans h1),
    value_eq (hlt _) ((at_whole hs hk (r := 2) (by decide)).trans h2),
    value_eq (hlt _) ((at_whole hs hk (r := 3) (by decide)).trans h3)]
  exact Base64.threeBytes_digits _ _ _ rfl

theorem flatMap_groupBytes_text {g : Nat} (hg : g ≤ 10) :
    (List.range' 0 g 4).flatMap (groupBytes s) = key.toList.take (3 * g) := by
  have hkey : key.toList.length = 32 := Vector.length_toList
  induction g with
  | zero => rfl
  | succ g ih =>
      rw [List.range'_concat, List.flatMap_append, ih (by omega), List.flatMap_singleton,
        Nat.zero_add, groupBytes_text hs (by omega), Nat.mul_succ, take_add_three (by omega)]

theorem keyBytes_text : keyBytes s = key.toList := by
  have hlt : ∀ x, x % 64 < 64 := fun x => Nat.mod_lt x (by decide)
  have hlast : (Base64.threeBytes (value s 40) (value s 41) (value s 42) 0).take 2 =
      [key.toList.getD 30 0, key.toList.getD 31 0] := by
    obtain ⟨h0, h1, h2, -⟩ := Base64.getD_fourDigits (groupNumber key 10)
    rw [value_eq (hlt _) ((at_last hs (r := 0) (by decide)).trans h0),
      value_eq (hlt _) ((at_last hs (r := 1) (by decide)).trans h1),
      value_eq (hlt _) ((at_last hs (r := 2) (by decide)).trans h2)]
    have hbytes := Base64.threeBytes_digits (key.toList.getD 30 0) (key.toList.getD 31 0)
      (key.toList.getD 32 0) (n := groupNumber key 10) rfl
    rw [Base64.take_threeBytes _ _ _ 0 (groupNumber key 10 % 64), hbytes]
    rfl
  rw [keyBytes_eq fun i hi => at_mem_alphabet hs hi, flatMap_groupBytes_text hs (Nat.le_refl 10),
    hlast]
  exact (eq_take_append_two key).symm

end Text

/-- Writing a key and reading the text gives the key back. -/
theorem key_text_round_trip (key : ByteVec 32) {len : Nat} (hlen : 45 ≤ len) :
    ∃ s : CString, wgKeyToBase64 len key = some (s.bytes ++ [0]) ∧
      s.bytes = Base64.encode key.toList ∧ s.bytes.length = 44 ∧
      (∀ i < 43, s.at i ∈ Base64.alphabet) ∧ s.at 43 = ascii '=' ∧
      wgKeyFromBase64 (some s) = some key.toList := by
  have hkey : key.toList.length = 32 := Vector.length_toList
  have hnul : 0 ∉ Base64.encode key.toList := by
    intro hmem
    rcases Base64.mem_encode hmem with hdigit | hpad
    · exact absurd hdigit (by decide)
    · exact absurd hpad (by decide)
  have hlength : (Base64.encode key.toList).length = 44 := by
    rw [Base64.length_encode, hkey]
  refine ⟨⟨Base64.encode key.toList, hnul⟩, wgKeyToBase64_eq hlen key, rfl, hlength,
    fun i hi => at_mem_alphabet rfl hi, ?_, ?_⟩
  · have hdrop : key.toList.drop (3 * 10 + 1 + 1) = [] :=
      List.drop_eq_nil_of_le (Nat.le_of_eq hkey)
    rw [at_add rfl (k := 10) (r := 3) (Nat.le_refl 10), drop_eq_cons key (by decide),
      drop_eq_cons key (by decide), hdrop]
    rfl
  · have hbytes : keyBytes ⟨Base64.encode key.toList, hnul⟩ = key.toList := keyBytes_text rfl
    rw [wgKeyFromBase64_eq_some_iff]
    refine ⟨⟨by rw [hlength]; decide, fun i hi _ => at_mem_alphabet rfl hi, ?_⟩, hbytes.symm⟩
    exact (length_keyBytes_iff _).mp (by rw [hbytes, hkey])

def mixedKey : ByteVec 32 := Vector.ofFn fun i => UInt8.ofNat (37 * i + 5)

theorem key_text_round_trip_mixed :
    ∃ s : CString, wgKeyToBase64 45 mixedKey = some (s.bytes ++ [0]) ∧
      wgKeyFromBase64 (some s) = some mixedKey.toList := by
  obtain ⟨s, htext, -, -, -, -, hkey⟩ := key_text_round_trip mixedKey (Nat.le_refl 45)
  exact ⟨s, htext, hkey⟩

/-- Only text over the alphabet is read, and the key has the same text again. -/
def RejectsMalformed (s : CString) : Prop :=
  ∀ key : ByteVec 32, wgKeyFromBase64 (some s) = some key.toList →
    (∀ i < 43, s.at i ∈ Base64.alphabet) ∧
      ∃ text, wgKeyToBase64 45 key = some text ∧ text.take 42 = s.bytes.take 42

theorem take_text {key : ByteVec 32} {s : CString} (h : ∀ i < 43, s.at i ∈ Base64.alphabet)
    (hlong : 43 ≤ s.bytes.length) (hkey : key.toList = keyBytes s) :
    ∃ text, wgKeyToBase64 45 key = some text ∧ text.take 42 = s.bytes.take 42 := by
  have hlen : 42 ≤ (Base64.encode key.toList).length := by
    rw [Base64.length_encode, Vector.length_toList]
    decide
  refine ⟨_, wgKeyToBase64_eq (Nat.le_refl 45) key, ?_⟩
  rw [List.take_append_of_le_length hlen, hkey]
  exact take_encode_keyBytes h hlong

/-- The third and fourth characters of the groups are not checked by the decoder. -/
theorem rejectsMalformed_iff (s : CString) :
    RejectsMalformed s ↔
      (Accepted s → ∀ i < 43, 2 ≤ i % 4 → s.at i ∈ Base64.alphabet) := by
  constructor
  · intro hrejects haccepted i hi _
    have hlen : (keyBytes s).length = 32 := (length_keyBytes_iff s).mpr haccepted.pads
    have hkey : (field (keyBytes s) 0 32).toList = keyBytes s := field_all hlen
    have hread := (wgKeyFromBase64_eq_some_iff s (keyBytes s)).mpr ⟨haccepted, rfl⟩
    rw [← hkey] at hread
    exact (hrejects (field (keyBytes s) 0 32) hread).1 i hi
  · intro hchecked key hread
    obtain ⟨haccepted, hkey⟩ := (wgKeyFromBase64_eq_some_iff s key.toList).mp hread
    have hall : ∀ i < 43, s.at i ∈ Base64.alphabet := by
      intro i hi
      rcases Nat.lt_or_ge (i % 4) 2 with hhead | htail
      · exact haccepted.heads i hi hhead
      · exact hchecked haccepted i hi htail
    exact ⟨hall, take_text hall haccepted.long hkey⟩

/-- `AAA!AAA...A=` -/
def badText : CString where
  bytes := (['A', 'A', 'A', '!'] ++ List.replicate 39 'A' ++ ['=']).map ascii
  noNul := by decide

theorem badText_not_rejected :
    wgKeyFromBase64 (some badText) = some ([0, 0, 0xFF] ++ List.replicate 29 0) ∧
      ¬RejectsMalformed badText := by
  have hread : wgKeyFromBase64 (some badText) = some ([0, 0, 0xFF] ++ List.replicate 29 0) := by
    decide +kernel
  refine ⟨hread, ?_⟩
  intro hrejects
  rw [← @field_all ([0, 0, 0xFF] ++ List.replicate 29 0) 32 rfl] at hread
  obtain ⟨hall, -⟩ := hrejects _ hread
  exact absurd (hall 3 (by decide)) (by decide)

end Results

end WgNx.KeyText
