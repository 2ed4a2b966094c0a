import Mathlib.Data.UInt

/-!
Arithmetic on words that notices overflow.

An operation yields the result of the machine where that is the result on numbers,
and nothing otherwise, so a computation that yields something has not overflowed
anywhere.
-/

namespace WgNx.CheckedWords

def add32? (x y : UInt32) : Option UInt32 :=
  if x.toNat + y.toNat < 2 ^ 32 then some (x + y) else none

def mul32? (x y : UInt32) : Option UInt32 :=
  if x.toNat * y.toNat < 2 ^ 32 then some (x * y) else none

/-- The difference as a number with a sign. -/
def signedSub32? (x y : UInt32) : Option UInt32 :=
  if x.toNat < y.toNat + 2 ^ 31 ∧ y.toNat ≤ x.toNat + 2 ^ 31 then some (x - y) else none

def add64? (x y : UInt64) : Option UInt64 :=
  if x.toNat + y.toNat < 2 ^ 64 then some (x + y) else none

def mul64? (x y : UInt64) : Option UInt64 :=
  if x.toNat * y.toNat < 2 ^ 64 then some (x * y) else none

def shiftLeft64? (x k : UInt64) : Option UInt64 :=
  if x.toNat * 2 ^ k.toNat < 2 ^ 64 then some (x <<< k) else none

def narrow? (x : UInt64) : Option UInt32 :=
  if x.toNat < 2 ^ 32 then some x.toUInt32 else none

variable {x y : UInt32} {v w : UInt64}

theorem add32?_eq (h : x.toNat + y.toNat < 2 ^ 32) : add32? x y = some (x + y) := if_pos h

theorem mul32?_eq (h : x.toNat * y.toNat < 2 ^ 32) : mul32? x y = some (x * y) := if_pos h

theorem signedSub32?_eq (h : x.toNat < y.toNat + 2 ^ 31) (h' : y.toNat ≤ x.toNat + 2 ^ 31) :
    signedSub32? x y = some (x - y) := if_pos ⟨h, h'⟩

theorem add64?_eq (h : v.toNat + w.toNat < 2 ^ 64) : add64? v w = some (v + w) := if_pos h

theorem mul64?_eq (h : v.toNat * w.toNat < 2 ^ 64) : mul64? v w = some (v * w) := if_pos h

theorem shiftLeft64?_eq (h : v.toNat * 2 ^ w.toNat < 2 ^ 64) :
    shiftLeft64? v w = some (v <<< w) := if_pos h

theorem narrow?_eq (h : v.toNat < 2 ^ 32) : narrow? v = some v.toUInt32 := if_pos h

/-- The product of two short words. -/
theorem mul64?_short (x y : UInt32) :
    mul64? x.toUInt64 y.toUInt64 = some (x.toUInt64 * y.toUInt64) := by
  have hx := x.toNat_lt
  have hy := y.toNat_lt
  apply mul64?_eq
  rw [UInt32.toNat_toUInt64, UInt32.toNat_toUInt64]
  calc x.toNat * y.toNat < 2 ^ 32 * 2 ^ 32 := Nat.mul_lt_mul'' hx hy
    _ = 2 ^ 64 := by decide

end WgNx.CheckedWords
