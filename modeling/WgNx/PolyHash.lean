import WgNx.BlockFeed
import WgNx.WordArith
import WgNx.WordBytes

/-!
The polynomial hash modulo 2^130 - 5, on numbers.

A message is taken in blocks of sixteen bytes, each with one more bit behind it.
The hash is the value of the polynomial with these coefficients at `r`, and the
tag is the hash plus `s` modulo 2^128.
-/

namespace WgNx.PolyHash

open WgNx.BlockFeed
open WgNx.ByteLayout
open WgNx.WordArith
open WgNx.WordBytes

def prime : Nat := 2 ^ 130 - 5

def step (r acc m : Nat) : Nat := (acc + m) * r % prime

/-- Whole blocks have the bit 2^128 behind them. -/
def stepBlock (r acc : Nat) (block : Bytes) : Nat := step r acc (leValue block + 2 ^ 128)

/-- A short block has its bit right behind its bytes. -/
def stepRest (r acc : Nat) (rest : Bytes) : Nat :=
  if rest = [] then acc else step r acc (leValue (rest ++ [1]))

/-- A block has sixteen bytes, so feeding one makes progress. -/
theorem blockBytes_pos : 0 < 16 := by decide

def hash (r : Nat) (msg : Bytes) : Nat :=
  let fed := feed blockBytes_pos (stepBlock r) 0 msg
  stepRest r fed.1 fed.2

def tag (r s : Nat) (msg : Bytes) : Nat := (hash r msg + s) % 2 ^ 128

/-- Sixteen bytes of a number, as four little-endian words. -/
def tagBytes (x : Nat) : Bytes :=
  store32Le (UInt32.ofNat x) ++ store32Le (UInt32.ofNat (x / 2 ^ 32)) ++
    store32Le (UInt32.ofNat (x / 2 ^ 64)) ++ store32Le (UInt32.ofNat (x / 2 ^ 96))

/-- Four words of a key or a message. -/
structure Quad where
  w0 : UInt32
  w1 : UInt32
  w2 : UInt32
  w3 : UInt32

def loadQuad (p : Bytes) : Quad :=
  ⟨load32Le p 0, load32Le p 4, load32Le p 8, load32Le p 12⟩

def Quad.value (t : Quad) : Nat :=
  t.w0.toNat + 2 ^ 32 * t.w1.toNat + 2 ^ 64 * t.w2.toNat + 2 ^ 96 * t.w3.toNat

/-- Four words that have the bits of a number. -/
theorem tagBytes_of_words {f0 f1 f2 f3 : UInt64} {x : Nat} (h0 : f0.toNat % 2 ^ 32 = x % 2 ^ 32)
    (h1 : f1.toNat % 2 ^ 32 = x / 2 ^ 32 % 2 ^ 32) (h2 : f2.toNat % 2 ^ 32 = x / 2 ^ 64 % 2 ^ 32)
    (h3 : f3.toNat % 2 ^ 32 = x / 2 ^ 96 % 2 ^ 32) :
    store32Le f0.toUInt32 ++ store32Le f1.toUInt32 ++ store32Le f2.toUInt32 ++
      store32Le f3.toUInt32 = tagBytes x := by
  unfold tagBytes
  rw [toUInt32_eq_ofNat h0, toUInt32_eq_ofNat h1, toUInt32_eq_ofNat h2, toUInt32_eq_ofNat h3]

/-- Equal numbers modulo the prime stay equal. -/
theorem step_congr {r acc acc' : Nat} (h : acc % prime = acc' % prime) (m : Nat) :
    step r acc m = step r acc' m := by
  unfold step
  rw [Nat.mul_mod, Nat.add_mod acc, h, ← Nat.add_mod, ← Nat.mul_mod]

/-- Multiples of the prime do not count. -/
theorem mod_prime_eq {x y z q q' : Nat} (hx : x + prime * q = y) (hz : z = y + prime * q') :
    x % prime = z % prime := by
  calc x % prime = (x + prime * q) % prime := (Nat.add_mul_mod_self_left ..).symm
    _ = (y + prime * q') % prime := by rw [hx, Nat.add_mul_mod_self_left]
    _ = z % prime := by rw [hz]

/-- The four words of sixteen bytes. -/
theorem value_loadQuad {block : Bytes} (h : block.length = 16) :
    (loadQuad block).value = leValue block := by
  have hend : (((block.drop 4).drop 4).drop 4).drop 4 = [] := by
    apply List.drop_eq_nil_of_le
    simp only [List.length_drop]
    omega
  unfold loadQuad Quad.value
  rw [leValue_eq_word (by omega), leValue_eq_word (by rw [List.length_drop]; omega),
    leValue_eq_word (by simp only [List.length_drop]; omega),
    leValue_eq_word (by simp only [List.length_drop]; omega), hend]
  simp only [load32Le_drop, Nat.reduceAdd]
  change _ = _ + 2 ^ 32 * (_ + 2 ^ 32 * (_ + 2 ^ 32 * (_ + 2 ^ 32 * 0)))
  omega

/-- The bits of a key word that are kept. -/
theorem toNat_clamp_first (x : UInt32) : (x &&& 0x0fffffff).toNat = x.toNat % 2 ^ 28 := by
  rw [UInt32.toNat_and]
  exact Nat.and_two_pow_sub_one_eq_mod x.toNat 28

theorem toNat_clamp (x : UInt32) : (x &&& 0x0ffffffc).toNat = x.toNat / 4 % 2 ^ 26 * 4 := by
  rw [UInt32.toNat_and]
  exact and_shifted_mask x.toNat 26 2

end WgNx.PolyHash
