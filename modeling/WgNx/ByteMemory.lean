import Mathlib.Data.List.GetD

/-!
Memory as a function from addresses to bytes.

`xorInto` writes the exclusive or of a buffer and a key stream to a second buffer.
If the two buffers are the same one, or do not overlap, it may be done in pieces of
any size from the front to the back.
-/

namespace WgNx.ByteMemory

abbrev Memory := Nat → UInt8

def read (mem : Memory) (addr n : Nat) : List UInt8 :=
  (List.range n).map fun i => mem (addr + i)

def write (mem : Memory) (addr : Nat) (bytes : List UInt8) : Memory := fun a =>
  if addr ≤ a ∧ a < addr + bytes.length then bytes.getD (a - addr) 0 else mem a

section ReadWrite

variable (mem : Memory)

@[simp] theorem length_read (addr n : Nat) : (read mem addr n).length = n := by
  simp [read]

@[simp] theorem getElem_read (addr n i : Nat) (hi : i < (read mem addr n).length) :
    (read mem addr n)[i] = mem (addr + i) := by
  simp [read]

theorem read_add (addr m n : Nat) :
    read mem addr (m + n) = read mem addr m ++ read mem (addr + m) n := by
  unfold read
  rw [List.range_add, List.map_append, List.map_map]
  congr 1
  apply List.map_congr_left
  intro i _
  exact congrArg mem (Nat.add_assoc ..).symm

theorem take_read {m n : Nat} (addr : Nat) (h : m ≤ n) :
    (read mem addr n).take m = read mem addr m := by
  obtain ⟨k, rfl⟩ := Nat.exists_eq_add_of_le h
  rw [read_add]
  exact List.take_left' (length_read mem addr m)

theorem drop_read (addr m n : Nat) :
    (read mem addr (m + n)).drop m = read mem (addr + m) n := by
  rw [read_add]
  exact List.drop_left' (length_read mem addr m)

@[simp] theorem write_nil (addr : Nat) : write mem addr [] = mem := by
  funext a
  unfold write
  rw [if_neg]
  rintro ⟨hle, hlt⟩
  exact absurd hle (Nat.not_le.mpr hlt)

theorem write_apply_inside {addr a : Nat} {bytes : List UInt8} (hle : addr ≤ a)
    (hlt : a < addr + bytes.length) : write mem addr bytes a = bytes.getD (a - addr) 0 :=
  if_pos ⟨hle, hlt⟩

theorem write_apply_outside {addr a : Nat} {bytes : List UInt8}
    (h : a < addr ∨ addr + bytes.length ≤ a) : write mem addr bytes a = mem a := by
  unfold write
  rw [if_neg]
  omega

theorem write_append (addr : Nat) (xs ys : List UInt8) :
    write mem addr (xs ++ ys) = write (write mem addr xs) (addr + xs.length) ys := by
  funext a
  have hlength : (xs ++ ys).length = xs.length + ys.length := List.length_append
  by_cases hout : a < addr ∨ addr + (xs.length + ys.length) ≤ a
  · rw [write_apply_outside mem (by rw [hlength]; exact hout),
      write_apply_outside _ (by omega), write_apply_outside _ (by omega)]
  · rw [write_apply_inside mem (by omega) (by rw [hlength]; omega)]
    rcases Nat.lt_or_ge a (addr + xs.length) with hfirst | hsecond
    · rw [write_apply_outside _ (by omega), write_apply_inside _ (by omega) hfirst,
        List.getD_append _ _ _ _ (by omega)]
    · rw [write_apply_inside _ hsecond (by omega), List.getD_append_right _ _ _ _ (by omega)]
      congr 1
      omega

@[simp] theorem read_write (addr : Nat) (bytes : List UInt8) :
    read (write mem addr bytes) addr bytes.length = bytes := by
  apply List.ext_getElem
  · simp
  · intro i hi hi'
    rw [getElem_read, write_apply_inside _ (by omega) (by omega)]
    simp [List.getD_eq_getElem?_getD, hi']

theorem read_write_of_length (addr : Nat) {bytes : List UInt8} {n : Nat} (h : bytes.length = n) :
    read (write mem addr bytes) addr n = bytes := by
  subst h
  exact read_write mem addr bytes

theorem read_write_of_apart {addr addr' n : Nat} {bytes : List UInt8}
    (h : addr + bytes.length ≤ addr' ∨ addr' + n ≤ addr) :
    read (write mem addr bytes) addr' n = read mem addr' n := by
  unfold read
  apply List.map_congr_left
  intro i hi
  rw [List.mem_range] at hi
  exact write_apply_outside mem (by omega)

end ReadWrite

section Xor

def xorBytes (xs ys : List UInt8) : List UInt8 := List.zipWith (· ^^^ ·) xs ys

@[simp] theorem length_xorBytes (xs ys : List UInt8) :
    (xorBytes xs ys).length = min xs.length ys.length := by
  simp [xorBytes]

theorem xorBytes_append {xs ys : List UInt8} (h : xs.length = ys.length)
    (xs' ys' : List UInt8) :
    xorBytes (xs ++ xs') (ys ++ ys') = xorBytes xs ys ++ xorBytes xs' ys' :=
  List.zipWith_append h

theorem xorBytes_cancel {xs ys : List UInt8} (h : xs.length = ys.length) :
    xorBytes (xorBytes xs ys) ys = xs := by
  induction xs generalizing ys with
  | nil => rfl
  | cons x xs ih =>
      cases ys with
      | nil => cases h
      | cons y ys =>
          have hrest := ih (Nat.succ.inj h)
          have hhead : x ^^^ y ^^^ y = x := by
            rw [UInt8.xor_assoc, UInt8.xor_self, UInt8.xor_zero]
          change (x ^^^ y ^^^ y) :: xorBytes (xorBytes xs ys) ys = x :: xs
          rw [hhead, hrest]

def xorInto (mem : Memory) (out inp : Nat) (stream : List UInt8) : Memory :=
  write mem out (xorBytes (read mem inp stream.length) stream)

/-- One buffer, or two that do not overlap. -/
def Separable (out inp n : Nat) : Prop := out = inp ∨ out + n ≤ inp ∨ inp + n ≤ out

theorem Separable.mono {out inp m n : Nat} (h : Separable out inp n) (hle : m ≤ n) :
    Separable out inp m := by
  unfold Separable at h ⊢
  omega

theorem Separable.tail {out inp m n : Nat} (h : Separable out inp (m + n)) :
    Separable (out + m) (inp + m) n := by
  unfold Separable at h ⊢
  omega

variable (mem : Memory)

@[simp] theorem xorInto_nil (out inp : Nat) : xorInto mem out inp [] = mem := by
  exact write_nil mem out

theorem xorInto_append {out inp : Nat} {xs ys : List UInt8}
    (h : Separable out inp (xs.length + ys.length)) :
    xorInto mem out inp (xs ++ ys) =
      xorInto (xorInto mem out inp xs) (out + xs.length) (inp + xs.length) ys := by
  have hlength : (xorBytes (read mem inp xs.length) xs).length = xs.length := by simp
  have hsource : read (write mem out (xorBytes (read mem inp xs.length) xs))
      (inp + xs.length) ys.length = read mem (inp + xs.length) ys.length := by
    apply read_write_of_apart
    rw [hlength]
    unfold Separable at h
    omega
  unfold xorInto
  rw [hsource, List.length_append, read_add, xorBytes_append (length_read ..), write_append,
    hlength]

end Xor

end WgNx.ByteMemory
