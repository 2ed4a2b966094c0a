import WgNx.ByteMemory

/-!
A text xored with a key stream, with a code of the result behind it.

The code only depends on the cipher text, so data is accepted exactly if it was made
from the text that comes out.
-/

namespace WgNx.EncryptThenMac

open WgNx.ByteMemory

variable (stream : Nat → List UInt8) (mac : List UInt8 → List UInt8)

def lock (text : List UInt8) : List UInt8 :=
  let cipher := xorBytes text (stream text.length)
  cipher ++ mac cipher

def unlock (macLen : Nat) (data : List UInt8) : Option (List UInt8) :=
  if data.length < macLen then none
  else
    let cipher := data.take (data.length - macLen)
    if mac cipher = data.drop (data.length - macLen) then
      some (xorBytes cipher (stream cipher.length))
    else none

section Lengths

variable {stream mac} {macLen : Nat} (hstream : ∀ n, (stream n).length = n)
  (hmac : ∀ cipher, (mac cipher).length = macLen)

include hstream

theorem length_xor_stream (text : List UInt8) :
    (xorBytes text (stream text.length)).length = text.length := by
  rw [length_xorBytes, hstream, Nat.min_self]

theorem xor_stream_twice (text : List UInt8) :
    xorBytes (xorBytes text (stream text.length)) (stream text.length) = text :=
  xorBytes_cancel (hstream _).symm

include hmac

theorem length_lock (text : List UInt8) : (lock stream mac text).length = text.length + macLen := by
  unfold lock
  rw [List.length_append, hmac, length_xor_stream hstream]

theorem unlock_lock (text : List UInt8) :
    unlock stream mac macLen (lock stream mac text) = some text := by
  have hlength := length_lock hstream hmac text
  have hcipher : (xorBytes text (stream text.length)).length = text.length + macLen - macLen := by
    rw [length_xor_stream hstream, Nat.add_sub_cancel]
  unfold unlock
  rw [hlength, if_neg (by omega)]
  unfold lock
  dsimp only
  rw [List.take_left' hcipher, List.drop_left' hcipher, if_pos rfl, length_xor_stream hstream,
    xor_stream_twice hstream]

/-- Data is accepted exactly if it was made from the text that comes out. -/
theorem unlock_eq_some_iff {data text : List UInt8} :
    unlock stream mac macLen data = some text ↔ data = lock stream mac text := by
  constructor
  · intro h
    unfold unlock at h
    split at h
    · cases h
    · dsimp only at h
      split at h
      · rename_i htag
        have htext := Option.some.inj h
        have hcipher : xorBytes text (stream text.length) =
            data.take (data.length - macLen) := by
          rw [← htext, length_xor_stream hstream, xor_stream_twice hstream]
        unfold lock
        dsimp only
        rw [hcipher, htag, List.take_append_drop]
      · cases h
  · rintro rfl
    exact unlock_lock hstream hmac text

end Lengths

end WgNx.EncryptThenMac
