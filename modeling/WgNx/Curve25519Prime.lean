import Mathlib.NumberTheory.LucasPrimality
import Mathlib.Tactic.NormNum.Prime
import Mathlib.Tactic.ReduceModChar

/-!
The prime `2^255 - 19`.

Each large prime of the chain has a number whose order modulo it is one less than the
prime itself: its power to that exponent is one, and its power to the exponent divided by
any prime factor is not.
-/

namespace WgNx.Curve25519Prime

/-- A number is prime if something has order one less than it, shown by the prime factors `qs`
of the order. -/
theorem prime_of_order {n : ℕ} (a : ZMod n) (qs : List ℕ) (hqs : ∀ q ∈ qs, q.Prime)
    (hprod : qs.prod = n - 1) (hone : a ^ (n - 1) = 1)
    (hne : ∀ q ∈ qs, a ^ ((n - 1) / q) ≠ 1) : n.Prime := by
  refine lucas_primality n a hone ?_
  intro q hq hdvd
  rw [← hprod] at hdvd
  obtain ⟨r, hr, hqr⟩ := (Prime.dvd_prod_iff hq.prime).mp hdvd
  rw [(Nat.prime_dvd_prime_iff_eq hq (hqs r hr)).mp hqr]
  exact hne r hr

theorem prime_17_digits :
    Nat.Prime 31757755568855353 := by
  refine prime_of_order (10 : ZMod 31757755568855353)
    [2, 2, 2, 3, 31, 107, 223, 4153, 430751]
    (by norm_num) (by norm_num) ?_ ?_
  · norm_num only
    reduce_mod_char
  · simp only [List.forall_mem_cons, List.not_mem_nil, false_imp_iff, implies_true, and_true]
    norm_num only
    reduce_mod_char
    decide

theorem prime_10_digits :
    Nat.Prime 2773320623 := by
  refine prime_of_order (5 : ZMod 2773320623)
    [2, 2437, 569003]
    (by norm_num) (by norm_num) ?_ ?_
  · norm_num only
    reduce_mod_char
  · simp only [List.forall_mem_cons, List.not_mem_nil, false_imp_iff, implies_true, and_true]
    norm_num only
    reduce_mod_char
    decide

theorem prime_11_digits :
    Nat.Prime 72106336199 := by
  refine prime_of_order (7 : ZMod 72106336199)
    [2, 13, 2773320623]
    ?_ (by norm_num) ?_ ?_
  · simp only [List.forall_mem_cons, List.not_mem_nil, false_imp_iff, implies_true, and_true]
    exact ⟨by norm_num, by norm_num, prime_10_digits⟩
  · norm_num only
    reduce_mod_char
  · simp only [List.forall_mem_cons, List.not_mem_nil, false_imp_iff, implies_true, and_true]
    norm_num only
    reduce_mod_char
    decide

theorem prime_16_digits :
    Nat.Prime 1919519569386763 := by
  refine prime_of_order (2 : ZMod 1919519569386763)
    [2, 3, 7, 19, 47, 47, 127, 8574133]
    (by norm_num) (by norm_num) ?_ ?_
  · norm_num only
    reduce_mod_char
  · simp only [List.forall_mem_cons, List.not_mem_nil, false_imp_iff, implies_true, and_true]
    norm_num only
    reduce_mod_char
    decide

theorem prime_35_digits :
    Nat.Prime 75445702479781427272750846543864801 := by
  refine prime_of_order (7 : ZMod 75445702479781427272750846543864801)
    [2, 2, 2, 2, 2, 3, 3, 5, 5, 75707, 72106336199, 1919519569386763]
    ?_ (by norm_num) ?_ ?_
  · simp only [List.forall_mem_cons, List.not_mem_nil, false_imp_iff, implies_true, and_true]
    exact ⟨by norm_num, by norm_num, by norm_num, by norm_num, by norm_num, by norm_num,
      by norm_num, by norm_num, by norm_num, by norm_num, prime_11_digits, prime_16_digits⟩
  · norm_num only
    reduce_mod_char
  · simp only [List.forall_mem_cons, List.not_mem_nil, false_imp_iff, implies_true, and_true]
    norm_num only
    reduce_mod_char
    decide

theorem prime_71_digits :
    Nat.Prime 74058212732561358302231226437062788676166966415465897661863160754340907 := by
  refine prime_of_order
    (2 : ZMod 74058212732561358302231226437062788676166966415465897661863160754340907)
    [2, 3, 353, 57467, 132049, 1923133, 31757755568855353, 75445702479781427272750846543864801]
    ?_ (by norm_num) ?_ ?_
  · simp only [List.forall_mem_cons, List.not_mem_nil, false_imp_iff, implies_true, and_true]
    exact ⟨by norm_num, by norm_num, by norm_num, by norm_num, by norm_num, by norm_num,
      prime_17_digits, prime_35_digits⟩
  · norm_num only
    reduce_mod_char
  · simp only [List.forall_mem_cons, List.not_mem_nil, false_imp_iff, implies_true, and_true]
    norm_num only
    reduce_mod_char
    decide

theorem prime_77_digits :
    Nat.Prime 57896044618658097711785492504343953926634992332820282019728792003956564819949 := by
  refine prime_of_order
    (2 : ZMod 57896044618658097711785492504343953926634992332820282019728792003956564819949)
    [2, 2, 3, 65147, 74058212732561358302231226437062788676166966415465897661863160754340907]
    ?_ (by norm_num) ?_ ?_
  · simp only [List.forall_mem_cons, List.not_mem_nil, false_imp_iff, implies_true, and_true]
    exact ⟨by norm_num, by norm_num, by norm_num, by norm_num, prime_71_digits⟩
  · norm_num only
    reduce_mod_char
  · simp only [List.forall_mem_cons, List.not_mem_nil, false_imp_iff, implies_true, and_true]
    norm_num only
    reduce_mod_char
    decide

/-- The number of elements of the field. -/
def modulus : ℕ := 2 ^ 255 - 19

theorem prime_modulus : Nat.Prime modulus := by
  have hvalue : modulus =
      57896044618658097711785492504343953926634992332820282019728792003956564819949 := by
    norm_num [modulus]
  rw [hvalue]
  exact prime_77_digits

instance fact_prime_modulus : Fact (Nat.Prime modulus) := ⟨prime_modulus⟩

/-- The field. -/
abbrev Fp : Type := ZMod modulus

theorem two_pow_255 : (2 : Fp) ^ 255 = 19 := by
  have hcast : ((2 ^ 255 : ℕ) : Fp) = (19 : ℕ) := by
    rw [ZMod.natCast_eq_natCast_iff]
    exact (Nat.modEq_iff_dvd' (by norm_num)).mpr (by norm_num [modulus]) |>.symm
  exact_mod_cast hcast

end WgNx.Curve25519Prime
