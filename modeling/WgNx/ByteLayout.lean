import Mathlib.Algebra.Group.Nat.Defs
import Mathlib.Data.List.GetD

/-!
Fixed-width byte fields of a packet buffer.

A packed C record is a sequence of byte fields at known offsets.  Reading a
field never fails: a byte past the end of the buffer reads as zero, so a reader
that looks beyond what was received is still a total function.  Writing a
record is concatenation of its fields, and the two lemmas on `field` and `++`
peel a concatenation apart one field at a time.
-/

namespace WgNx.ByteLayout

abbrev Bytes := List UInt8

/-- A byte array of known length. -/
abbrev ByteVec (n : Nat) := Vector UInt8 n

/-- The `n` bytes of `buf` that start at offset `off`. -/
def field (buf : Bytes) (off n : Nat) : ByteVec n :=
  Vector.ofFn fun i => buf.getD (off + i) 0

@[simp] theorem field_getElem (buf : Bytes) (off n i : Nat) (hi : i < n) :
    (field buf off n)[i] = buf.getD (off + i) 0 := by
  simp [field]

theorem field_append_of_le {xs ys : Bytes} {off n : Nat} (h : xs.length ≤ off) :
    field (xs ++ ys) off n = field ys (off - xs.length) n := by
  ext i hi
  simp only [field_getElem]
  rw [List.getD_append_right _ _ _ _ (by omega), Nat.sub_add_comm h]

theorem field_cons_of_pos {b : UInt8} {ys : Bytes} {off n : Nat}
    (h : 0 < off) : field (b :: ys) off n = field ys (off - 1) n :=
  @field_append_of_le [b] _ _ _ h

theorem field_append_of_fits {xs ys : Bytes} {off n : Nat}
    (h : off + n ≤ xs.length) :
    field (xs ++ ys) off n = field xs off n := by
  ext i hi
  simp only [field_getElem]
  rw [List.getD_append _ _ _ _ (by omega)]

@[simp] theorem field_toList {n : Nat} (v : ByteVec n) :
    field v.toList 0 n = v := by
  ext i hi
  simp [List.getD_eq_getElem?_getD, hi]

theorem field_append_vec {n : Nat} (v : ByteVec n) (ys : Bytes) :
    field (v.toList ++ ys) 0 n = v := by
  rw [field_append_of_fits (by simp)]
  exact field_toList v

theorem field_all {data : Bytes} {n : Nat} (h : data.length = n) :
    (field data 0 n).toList = data := by
  subst h
  apply List.ext_getElem
  · simp
  · intro i hi hi'
    simp [hi']

/-- Little-endian bytes of a number. -/
def leBytes (n x : Nat) : ByteVec n :=
  Vector.ofFn fun i => UInt8.ofNat (x / 256 ^ i.val)

/-- The number a little-endian byte string stands for. -/
def leValue : Bytes → Nat
  | [] => 0
  | b :: bs => b.toNat + 256 * leValue bs

theorem leBytes_zero_toList (x : Nat) : (leBytes 0 x).toList = [] := by
  rfl

theorem leBytes_succ_toList (n x : Nat) :
    (leBytes (n + 1) x).toList =
      UInt8.ofNat x :: (leBytes n (x / 256)).toList := by
  apply List.ext_getElem
  · simp
  · intro i h₁ h₂
    rcases i with _ | i
    · simp [leBytes]
    · simp [leBytes, Nat.pow_succ', Nat.div_div_eq_div_mul]

/-- Reading back a little-endian encoding gives the number modulo its width. -/
theorem leValue_leBytes (n x : Nat) :
    leValue (leBytes n x).toList = x % 256 ^ n := by
  induction n generalizing x with
  | zero => simp [leValue, Nat.mod_one, leBytes_zero_toList]
  | succ n ih =>
      rw [leBytes_succ_toList, leValue, ih]
      rw [Nat.pow_succ', Nat.mod_mul]
      simp

end WgNx.ByteLayout
