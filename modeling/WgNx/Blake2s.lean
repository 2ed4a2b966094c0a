import WgNx.ByteLayout

/-!
The hash function BLAKE2s, with a key or without, and the keyed hash HMAC over any hash
function.

This is the definition of the two functions on whole messages, with numbers for lengths
and the byte counter.  How a program buffers its data does not appear here.
-/

namespace WgNx.Blake2s

open WgNx.ByteLayout

section Compression

def put {n : Nat} (v : Vector UInt32 n) (a : Fin n) (x : UInt32) : Vector UInt32 n :=
  v.set a x a.isLt

def rotateRight (x : UInt32) (n : Nat) : UInt32 := ⟨x.toBitVec.rotateRight n⟩

def iv : Vector UInt32 8 :=
  #[0x6A09E667, 0xBB67AE85, 0x3C6EF372, 0xA54FF53A,
    0x510E527F, 0x9B05688C, 0x1F83D9AB, 0x5BE0CD19].toVector

/-- The order in which each round takes the words of the block. -/
def sigma : Vector (Vector (Fin 16) 16) 10 :=
  #v[#v[0, 1, 2, 3, 4, 5, 6, 7, 8, 9, 10, 11, 12, 13, 14, 15],
    #v[14, 10, 4, 8, 9, 15, 13, 6, 1, 12, 0, 2, 11, 7, 5, 3],
    #v[11, 8, 12, 0, 5, 2, 15, 13, 10, 14, 3, 6, 7, 1, 9, 4],
    #v[7, 9, 3, 1, 13, 12, 11, 14, 2, 6, 5, 10, 4, 0, 15, 8],
    #v[9, 0, 5, 7, 2, 4, 10, 15, 14, 1, 11, 12, 6, 8, 3, 13],
    #v[2, 12, 6, 10, 0, 11, 8, 3, 4, 13, 7, 5, 15, 14, 1, 9],
    #v[12, 5, 1, 15, 14, 13, 4, 10, 0, 7, 6, 3, 9, 2, 8, 11],
    #v[13, 11, 7, 14, 12, 1, 3, 9, 5, 0, 15, 4, 8, 6, 2, 10],
    #v[6, 15, 14, 9, 11, 3, 0, 8, 12, 2, 13, 7, 1, 4, 10, 5],
    #v[10, 2, 8, 4, 7, 6, 1, 5, 15, 11, 9, 14, 3, 12, 13, 0]]

/-- The new values of four words that are mixed with two words of the block. -/
def mixWords (a b c d x y : UInt32) : UInt32 × UInt32 × UInt32 × UInt32 :=
  let a := a + b + x
  let d := rotateRight (d ^^^ a) 16
  let c := c + d
  let b := rotateRight (b ^^^ c) 12
  let a := a + b + y
  let d := rotateRight (d ^^^ a) 8
  let c := c + d
  let b := rotateRight (b ^^^ c) 7
  (a, b, c, d)

def mix (v : Vector UInt32 16) (a b c d : Fin 16) (x y : UInt32) : Vector UInt32 16 :=
  let w := mixWords (v.get a) (v.get b) (v.get c) (v.get d) x y
  put (put (put (put v a w.1) b w.2.1) c w.2.2.1) d w.2.2.2

/-- The four columns. -/
def mixColumns (m : Fin 8 → UInt32) (v : Vector UInt32 16) : Vector UInt32 16 :=
  let v := mix v 0 4 8 12 (m 0) (m 1)
  let v := mix v 1 5 9 13 (m 2) (m 3)
  let v := mix v 2 6 10 14 (m 4) (m 5)
  mix v 3 7 11 15 (m 6) (m 7)

/-- The four diagonals. -/
def mixDiagonals (m : Fin 8 → UInt32) (v : Vector UInt32 16) : Vector UInt32 16 :=
  let v := mix v 0 5 10 15 (m 0) (m 1)
  let v := mix v 1 6 11 12 (m 2) (m 3)
  let v := mix v 2 7 8 13 (m 4) (m 5)
  mix v 3 4 9 14 (m 6) (m 7)

def round (m : Vector UInt32 16) (v : Vector UInt32 16) (s : Vector (Fin 16) 16) :
    Vector UInt32 16 :=
  mixDiagonals (fun i => m.get (s.get (Fin.natAdd 8 i)))
    (mixColumns (fun i => m.get (s.get (Fin.castAdd 8 i))) v)

/-- The working vector before the first round; `t` is the number of bytes so far. -/
def start (h : Vector UInt32 8) (t : Nat) (last : Bool) : Vector UInt32 16 :=
  #v[h.get 0, h.get 1, h.get 2, h.get 3, h.get 4, h.get 5, h.get 6, h.get 7,
    iv.get 0, iv.get 1, iv.get 2, iv.get 3,
    iv.get 4 ^^^ UInt32.ofNat t, iv.get 5 ^^^ UInt32.ofNat (t / 2 ^ 32),
    if last then iv.get 6 ^^^ 0xFFFFFFFF else iv.get 6, iv.get 7]

def compress (h : Vector UInt32 8) (m : Vector UInt32 16) (t : Nat) (last : Bool) :
    Vector UInt32 8 :=
  let v := sigma.foldl (round m) (start h t last)
  Vector.ofFn fun i => h.get i ^^^ v.get (Fin.castAdd 8 i) ^^^ v.get (Fin.natAdd 8 i)

end Compression

section Digest

/-- Block number `i`, with zeros behind the end of the data. -/
def block (data : Bytes) (i : Nat) : Bytes :=
  let b := (data.drop (64 * i)).take 64
  b ++ List.replicate (64 - b.length) 0

def blockWords (b : Bytes) : Vector UInt32 16 :=
  Vector.ofFn fun j => UInt32.ofNat (leValue ((b.drop (4 * j)).take 4))

/-- A key is a block of its own in front of the message. -/
def keyBlock (key : Bytes) : Bytes :=
  if key = [] then [] else key ++ List.replicate (64 - key.length) 0

def parameters (keylen outlen : Nat) : UInt32 :=
  0x01010000 ^^^ UInt32.ofNat (keylen * 2 ^ 8) ^^^ UInt32.ofNat outlen

/-- The number of blocks; without any data there is one block of zeros. -/
def blockCount (length : Nat) : Nat := max 1 ((length + 63) / 64)

/-- The chaining value after the first `k` blocks. -/
def chain (h : Vector UInt32 8) (data : Bytes) (k : Nat) : Vector UInt32 8 :=
  (List.range k).foldl
    (fun h i => compress h (blockWords (block data i)) (64 * (i + 1)) false) h

/-- The first `outlen` bytes of the words. -/
def wordsToBytes (outlen : Nat) (h : Vector UInt32 8) : Bytes :=
  (h.toList.flatMap fun w => (leBytes 4 w.toNat).toList).take outlen

def digestFrom (h : Vector UInt32 8) (outlen : Nat) (data : Bytes) : Bytes :=
  let last := blockCount data.length - 1
  wordsToBytes outlen
    (compress (chain h data last) (blockWords (block data last)) data.length true)

def digest (outlen : Nat) (key message : Bytes) : Bytes :=
  digestFrom (put iv 0 (iv.get 0 ^^^ parameters key.length outlen)) outlen
    (keyBlock key ++ message)

end Digest

/-- HMAC over a hash function with blocks of `b` bytes. -/
def hmac (hash : Bytes → Bytes) (b : Nat) (key text : Bytes) : Bytes :=
  let key := if b < key.length then hash key else key
  let padded := key ++ List.replicate (b - key.length) 0
  hash (padded.map (· ^^^ 0x5c) ++ hash (padded.map (· ^^^ 0x36) ++ text))

end WgNx.Blake2s
