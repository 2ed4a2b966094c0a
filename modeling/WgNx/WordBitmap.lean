import Mathlib.Data.Nat.Bitwise
import Mathlib.Tactic.NormNum

/-!
Bitmaps stored as a vector of 64-bit words.

The operations are the ones a C program writes: test with `&`, mark with `|=`,
clear by storing zero, and a loop that clears the words following a given one
modulo the number of words.  Every operation has one lemma saying which bits
it leaves behind, so users never look at the words themselves.
-/

namespace WgNx.WordBitmap

variable {n : Nat}

abbrev Bitmap (n : Nat) := Vector UInt64 n

/-- Whether bit `b` of word `w` is set. -/
def test (bm : Bitmap n) (w : Fin n) (b : UInt64) : Bool :=
  bm[w] &&& (1 <<< b) != 0

/-- Set bit `b` of word `w`. -/
def mark (bm : Bitmap n) (w : Fin n) (b : UInt64) : Bitmap n :=
  bm.set w (bm[w] ||| (1 <<< b))

/-- Store zero in word `w`. -/
def clear (bm : Bitmap n) (w : Fin n) : Bitmap n :=
  bm.set w 0

/-- Clear the `k` words after word number `start`, wrapping around. -/
def clearAfter [NeZero n] (bm : Bitmap n) (start : Nat) : Nat → Bitmap n
  | 0 => bm
  | k + 1 => clear (clearAfter bm start k) (Fin.ofNat n (start + (k + 1)))

def empty (n : Nat) : Bitmap n := Vector.replicate n 0

theorem toNat_one_shiftLeft {b : UInt64} (hb : b < 64) :
    ((1 : UInt64) <<< b).toNat = 2 ^ b.toNat := by
  have hb' : b.toNat < 64 := by simpa [UInt64.lt_iff_toNat_lt] using hb
  rw [UInt64.toNat_shiftLeft, Nat.mod_eq_of_lt hb', Nat.shiftLeft_eq]
  simp only [UInt64.reduceToNat, one_mul]
  exact Nat.mod_eq_of_lt (Nat.pow_lt_pow_right (by norm_num) hb')

theorem test_eq_testBit (bm : Bitmap n) (w : Fin n) {b : UInt64} (hb : b < 64) :
    test bm w b = (bm[w]).toNat.testBit b.toNat := by
  have hzero : (bm[w] &&& (1 <<< b) = 0) ↔
      (bm[w]).toNat &&& 2 ^ b.toNat = 0 := by
    rw [← UInt64.toNat_inj, UInt64.toNat_and, toNat_one_shiftLeft hb]
    rfl
  rw [Bool.eq_iff_iff]
  simp only [test, bne_iff_ne, ne_eq, hzero, Nat.and_two_pow]
  cases (bm[w]).toNat.testBit b.toNat <;> simp

theorem get_set (bm : Bitmap n) (w w' : Fin n) (x : UInt64) :
    (bm.set w x)[w'] = if w = w' then x else bm[w'] := by
  simp only [Fin.getElem_fin, Vector.getElem_set, Fin.ext_iff]

theorem test_mark (bm : Bitmap n) (w w' : Fin n) {b b' : UInt64}
    (hb : b < 64) (hb' : b' < 64) :
    test (mark bm w b) w' b' = (test bm w' b' || decide (w = w' ∧ b = b')) := by
  rw [test_eq_testBit _ _ hb', test_eq_testBit _ _ hb', mark, get_set]
  split
  · rename_i hw
    subst hw
    rw [UInt64.toNat_or, toNat_one_shiftLeft hb, Nat.testBit_or,
      Nat.testBit_two_pow]
    simp [UInt64.toNat_inj]
  · rename_i hw
    simp [hw]

theorem test_clear (bm : Bitmap n) (w w' : Fin n) {b : UInt64} (hb : b < 64) :
    test (clear bm w) w' b = (test bm w' b && decide (w ≠ w')) := by
  rw [test_eq_testBit _ _ hb, test_eq_testBit _ _ hb, clear, get_set]
  split
  · rename_i hw
    simp [hw]
  · rename_i hw
    simp [hw]

@[simp] theorem test_empty (w : Fin n) (b : UInt64) :
    test (empty n) w b = false := by
  simp [test, empty]

/-- After the clearing loop a bit is set when it was set before and its word is
not one of those the loop visits. -/
theorem test_clearAfter [NeZero n] (bm : Bitmap n) (start k : Nat) (w : Fin n)
    {b : UInt64} (hb : b < 64) :
    test (clearAfter bm start k) w b = true ↔
      test bm w b = true ∧ ∀ i, 1 ≤ i → i ≤ k → (start + i) % n ≠ w.val := by
  induction k with
  | zero =>
      simp only [clearAfter]
      exact ⟨fun h => ⟨h, fun i h₁ h₂ => by omega⟩, And.left⟩
  | succ k ih =>
      simp only [clearAfter, test_clear _ _ _ hb, Bool.and_eq_true, ih,
        decide_eq_true_eq, ne_eq, Fin.ext_iff, Fin.ofNat]
      constructor
      · rintro ⟨⟨hset, hprev⟩, hlast⟩
        refine ⟨hset, fun i h₁ h₂ => ?_⟩
        rcases Nat.lt_or_ge i (k + 1) with hi | hi
        · exact hprev i h₁ (by omega)
        · have heq : i = k + 1 := by omega
          subst heq
          exact hlast
      · rintro ⟨hset, hall⟩
        exact ⟨⟨hset, fun i h₁ h₂ => hall i h₁ (by omega)⟩,
          hall (k + 1) (by omega) (by omega)⟩

end WgNx.WordBitmap
