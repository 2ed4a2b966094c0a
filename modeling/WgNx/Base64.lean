import WgNx.ByteLayout

/-!
The standard base64 text of a byte string.

Three bytes are one number of twenty-four bits, which is written with four digits.  What is
left of the bytes at the end is filled up with zero bits, and the digits that hold no bit of
the data are written as the pad character.
-/

namespace WgNx.Base64

open WgNx.ByteLayout

/-- `A` to `Z`, `a` to `z`, `0` to `9`, `+` and `/` -/
def alphabet : Bytes :=
  (List.range' 65 26).map UInt8.ofNat ++ (List.range' 97 26).map UInt8.ofNat ++
    (List.range' 48 10).map UInt8.ofNat ++ [43, 47]

/-- `=` -/
def pad : UInt8 := 61

def digit (v : Nat) : UInt8 := alphabet.getD v 0

def fourDigits (n : Nat) : Bytes :=
  [digit (n / 2 ^ 18 % 64), digit (n / 2 ^ 12 % 64), digit (n / 2 ^ 6 % 64), digit (n % 64)]

def encode : Bytes → Bytes
  | a :: b :: c :: rest =>
      fourDigits (a.toNat * 2 ^ 16 + b.toNat * 2 ^ 8 + c.toNat) ++ encode rest
  | [a, b] => (fourDigits (a.toNat * 2 ^ 16 + b.toNat * 2 ^ 8)).take 3 ++ [pad]
  | [a] => (fourDigits (a.toNat * 2 ^ 16)).take 2 ++ [pad, pad]
  | [] => []

/-- The bytes in the bits of four digits. -/
def threeBytes (a b c d : Nat) : Bytes :=
  [UInt8.ofNat (a * 4 + b / 16), UInt8.ofNat (b % 16 * 16 + c / 4), UInt8.ofNat (c % 4 * 64 + d)]

/-- The last digit only counts for the third byte. -/
theorem take_threeBytes (a b c d d' : Nat) :
    (threeBytes a b c d).take 2 = (threeBytes a b c d').take 2 := rfl

theorem length_alphabet : alphabet.length = 64 := rfl

theorem getD_fourDigits (n : Nat) :
    (fourDigits n).getD 0 0 = digit (n / 2 ^ 18 % 64) ∧
      (fourDigits n).getD 1 0 = digit (n / 2 ^ 12 % 64) ∧
      (fourDigits n).getD 2 0 = digit (n / 2 ^ 6 % 64) ∧
      (fourDigits n).getD 3 0 = digit (n % 64) :=
  ⟨rfl, rfl, rfl, rfl⟩

theorem digit_mem {v : Nat} (hv : v < 64) : digit v ∈ alphabet := by
  unfold digit
  rw [List.getD_eq_getElem alphabet 0 (by rw [length_alphabet]; exact hv)]
  exact List.getElem_mem _

theorem exists_digit_of_mem {c : UInt8} (hc : c ∈ alphabet) : ∃ v < 64, c = digit v := by
  obtain ⟨v, hv, rfl⟩ := List.getElem_of_mem hc
  exact ⟨v, hv, (List.getD_eq_getElem alphabet 0 hv).symm⟩

theorem pad_not_mem : pad ∉ alphabet := by decide

theorem encode_append {xs : Bytes} (hxs : xs.length % 3 = 0) (ys : Bytes) :
    encode (xs ++ ys) = encode xs ++ encode ys := by
  fun_induction encode xs with
  | case1 a b c rest ih =>
      have hrest : rest.length % 3 = 0 := by
        simp only [List.length_cons] at hxs
        omega
      rw [List.append_assoc, ← ih hrest]
      rfl
  | case2 a b => exact absurd hxs (show ¬2 % 3 = 0 by decide)
  | case3 a => exact absurd hxs (show ¬1 % 3 = 0 by decide)
  | case4 => rfl

theorem mem_encode {data : Bytes} {c : UInt8} (hc : c ∈ encode data) : c ∈ alphabet ∨ c = pad := by
  have hdigits : ∀ n, ∀ c ∈ fourDigits n, c ∈ alphabet := by
    intro n c hc
    simp only [fourDigits, List.mem_cons, List.not_mem_nil, or_false] at hc
    rcases hc with rfl | rfl | rfl | rfl
    all_goals exact digit_mem (Nat.mod_lt _ (by decide))
  fun_induction encode data with
  | case1 a b d rest ih =>
      rcases List.mem_append.mp hc with hfirst | hrest
      · exact Or.inl (hdigits _ c hfirst)
      · exact ih hrest
  | case2 a b =>
      rcases List.mem_append.mp hc with hfirst | hpad
      · exact Or.inl (hdigits _ c (List.mem_of_mem_take hfirst))
      · exact Or.inr (List.mem_singleton.mp hpad)
  | case3 a =>
      rcases List.mem_append.mp hc with hfirst | hpad
      · exact Or.inl (hdigits _ c (List.mem_of_mem_take hfirst))
      · exact Or.inr (List.eq_of_mem_replicate (n := 2) hpad)
  | case4 => exact absurd hc List.not_mem_nil

theorem length_encode (data : Bytes) : (encode data).length = 4 * ((data.length + 2) / 3) := by
  fun_induction encode data with
  | case1 a b c rest ih =>
      rw [List.length_append, ih]
      change 4 + _ = 4 * ((rest.length + 3 + 2) / 3)
      omega
  | case2 a b => exact show 4 = 4 * ((2 + 2) / 3) from rfl
  | case3 a => exact show 4 = 4 * ((1 + 2) / 3) from rfl
  | case4 => rfl

theorem drop_encode {k : Nat} {data : Bytes} (hk : 3 * k ≤ data.length) :
    (encode data).drop (4 * k) = encode (data.drop (3 * k)) := by
  induction k generalizing data with
  | zero => rfl
  | succ k ih =>
      match data, hk with
      | a :: b :: c :: rest, hk =>
          have hrest : 3 * k ≤ rest.length := by
            simp only [List.length_cons] at hk
            omega
          exact ih hrest

section Bytes

variable (a b c : UInt8)

/-- The digits of three bytes hold their bits. -/
theorem threeBytes_digits {n : Nat} (hn : n = a.toNat * 2 ^ 16 + b.toNat * 2 ^ 8 + c.toNat) :
    threeBytes (n / 2 ^ 18 % 64) (n / 2 ^ 12 % 64) (n / 2 ^ 6 % 64) (n % 64) = [a, b, c] := by
  have ha := a.toNat_lt
  have hb := b.toNat_lt
  have hc := c.toNat_lt
  have hbyte : ∀ {x : Nat} {y : UInt8}, x = y.toNat → UInt8.ofNat x = y := by
    rintro x y rfl
    exact UInt8.ofNat_toNat
  unfold threeBytes
  rw [@hbyte _ a (by omega), @hbyte _ b (by omega), @hbyte _ c (by omega)]

end Bytes

section Digits

variable {a b c d : Nat} (ha : a < 64) (hb : b < 64) (hc : c < 64) (hd : d < 64)

include ha hb hc hd

/-- Writing the bytes of four digits gives the digits back. -/
theorem encode_threeBytes :
    encode (threeBytes a b c d) = [digit a, digit b, digit c, digit d] := by
  have hx : (UInt8.ofNat (a * 4 + b / 16)).toNat = a * 4 + b / 16 :=
    Nat.mod_eq_of_lt (by omega)
  have hy : (UInt8.ofNat (b % 16 * 16 + c / 4)).toNat = b % 16 * 16 + c / 4 :=
    Nat.mod_eq_of_lt (by omega)
  have hz : (UInt8.ofNat (c % 4 * 64 + d)).toNat = c % 4 * 64 + d :=
    Nat.mod_eq_of_lt (by omega)
  unfold threeBytes encode encode fourDigits
  rw [hx, hy, hz, List.append_nil]
  congr 2
  · omega
  congr 2
  · omega
  congr 2
  · omega
  congr 2
  omega

omit hd in
/-- The last two bytes keep the first two digits. -/
theorem take_encode_twoBytes :
    (encode ((threeBytes a b c d).take 2)).take 2 = [digit a, digit b] := by
  have hx : (UInt8.ofNat (a * 4 + b / 16)).toNat = a * 4 + b / 16 :=
    Nat.mod_eq_of_lt (by omega)
  have hy : (UInt8.ofNat (b % 16 * 16 + c / 4)).toNat = b % 16 * 16 + c / 4 :=
    Nat.mod_eq_of_lt (by omega)
  change [digit (_ / 2 ^ 18 % 64), digit (_ / 2 ^ 12 % 64)] = _
  rw [hx, hy]
  congr 2
  · omega
  congr 2
  omega

end Digits

end WgNx.Base64
