import WgNx.Blake2Compress
import WgNx.BlockFeed

/-!
The hash functions of the tunnel on top of the compression: BLAKE2s with its buffer, and
the hash of two parts and the keyed hash that use it.

The buffer keeps the last block of the data, whole or not, until the end.  So the state
after some pieces depends only on their concatenation, and what the end compresses is the
last block of the definition.
-/

namespace WgNx.Blake2Stream

open WgNx.Blake2Compress
open WgNx.BlockFeed
open WgNx.ByteLayout
open WgNx.WordBytes
open WgNx.Blake2s (put)

variable (neon : Bool)

section Model

/-- `blake2s_state`; `buf` holds the first `buflen` bytes of the array. -/
structure Blake2sState extends Chain where
  buf : Bytes
  outlen : Nat

/-- `S->t[0] += n` with the carry into `S->t[1]`. -/
def addCount (S : Chain) (n : UInt32) : Chain :=
  let t0 := S.t0 + n
  { S with t0, t1 := if t0 < n then S.t1 + 1 else S.t1 }

/-- `neon` is what `blake2s_neon_available` returns. -/
def blake2sCompress (S : Chain) (block : Bytes) : Chain :=
  if neon then { S with h := blake2sCompressNeon S.h block S.t0 S.t1 S.f0 S.f1 }
  else blake2sCompressScalar S block

def blake2sInit (outlen : Nat) : Blake2sState where
  h := put blake2sIv 0 (blake2sIv.get 0 ^^^ (0x01010000 ^^^ UInt32.ofNat outlen))
  t0 := 0
  t1 := 0
  f0 := 0
  f1 := 0
  buf := []
  outlen

/-- The block loop of `blake2s_update`, with the data that is left. -/
def updateBlocks (S : Chain) (pin : Bytes) : Chain × Bytes :=
  if 64 < pin.length then
    updateBlocks (blake2sCompress neon (addCount S 64) (pin.take 64)) (pin.drop 64)
  else (S, pin)
termination_by pin.length
decreasing_by
  rw [List.length_drop]
  omega

def blake2sUpdate (S : Blake2sState) (pin : Bytes) : Blake2sState :=
  if pin.length = 0 then S
  else
    let left := S.buf.length
    let fill := 64 - left
    if pin.length > fill then
      let (chain, pin) :=
        if left > 0 then
          (blake2sCompress neon (addCount S.toChain 64) (S.buf ++ pin.take fill), pin.drop fill)
        else (S.toChain, pin)
      let (chain, pin) := updateBlocks neon chain pin
      -- `left` is zero here, so the rest goes to the front of the buffer.
      { S with toChain := chain, buf := pin }
    else { S with buf := S.buf ++ pin }

def blake2sInitKey (outlen : Nat) (key : Bytes) : Blake2sState :=
  let S := blake2sInit outlen
  let S := { S with h := put S.h 0 (S.h.get 0 ^^^ UInt32.ofNat key.length <<< 8) }
  if key.length > 0 then blake2sUpdate neon S (key ++ List.replicate (64 - key.length) 0) else S

def blake2sFinal (S : Blake2sState) : Bytes :=
  let chain := addCount S.toChain (UInt32.ofNat S.buf.length)
  let chain := { chain with f0 := 0xFFFFFFFF }
  let chain := blake2sCompress neon chain (S.buf ++ List.replicate (64 - S.buf.length) 0)
  (List.range S.outlen).map fun i =>
    (chain.h.toList.getD (i / 4) 0 >>> UInt32.ofNat (8 * (i % 4)) &&& 0xFF).toUInt8

def blake2s (outlen : Nat) (input key : Bytes) : Bytes :=
  let S := if key.length > 0 then blake2sInitKey neon outlen key else blake2sInit outlen
  blake2sFinal neon (blake2sUpdate neon S input)

def wgHash (data : Bytes) : Bytes := blake2s neon 32 data []

def wgHash2 (a b : Bytes) : Bytes :=
  let state := blake2sInit 32
  let state := blake2sUpdate neon state a
  let state := blake2sUpdate neon state b
  blake2sFinal neon state

/-- Sixty-four bytes `pad`, the first of them xored with the bytes of the key. -/
def padKey (pad : UInt8) (key : Bytes) : Bytes :=
  (List.range 64).map fun i => if h : i < key.length then pad ^^^ key[i] else pad

/-- All callers in the source pass `WG_HASH_LEN`, which is 32, for `out_len`. -/
def wgHmac (outLen : Nat) (key data : Bytes) : Bytes :=
  let ipad := padKey 0x36 key
  let opad := padKey 0x5c key
  let state := blake2sInit 32
  let state := blake2sUpdate neon state ipad
  let state := blake2sUpdate neon state data
  let inner := blake2sFinal neon state
  let state := blake2sInit outLen
  let state := blake2sUpdate neon state opad
  let state := blake2sUpdate neon state inner
  blake2sFinal neon state

end Model

section Buffer

theorem hashBlock_pos : 0 < 64 := by decide

/-- A full block that is known not to be the last one. -/
def absorb (S : Chain) (block : Bytes) : Chain := blake2sCompress neon (addCount S 64) block

theorem updateBlocks_eq (S : Chain) (pin : Bytes) :
    updateBlocks neon S pin = hold hashBlock_pos (absorb neon) S pin := by
  fun_induction updateBlocks neon S pin with
  | case1 S pin hlong ih =>
      rw [ih, hold.eq_def _ _ S, if_pos hlong]
      rfl
  | case2 S pin hshort => rw [hold_short _ _ S (Nat.le_of_not_lt hshort)]

/-- The state after more data. -/
def afterData (S : Blake2sState) (data : Bytes) : Blake2sState :=
  let r := hold hashBlock_pos (absorb neon) S.toChain (S.buf ++ data)
  { S with toChain := r.1, buf := r.2 }

theorem length_buf_afterData (S : Blake2sState) (data : Bytes) :
    (afterData neon S data).buf.length ≤ 64 :=
  length_hold_rest ..

theorem afterData_append (S : Blake2sState) (xs ys : Bytes) :
    afterData neon S (xs ++ ys) = afterData neon (afterData neon S xs) ys := by
  unfold afterData
  rw [← List.append_assoc, hold_pieces]

theorem afterData_nil {S : Blake2sState} (h : S.buf.length ≤ 64) : afterData neon S [] = S := by
  unfold afterData
  rw [List.append_nil, hold_short _ _ _ h]

theorem blake2sUpdate_eq {S : Blake2sState} (h : S.buf.length ≤ 64) (pin : Bytes) :
    blake2sUpdate neon S pin = afterData neon S pin := by
  unfold blake2sUpdate
  by_cases hnil : pin.length = 0
  · rw [if_pos hnil, List.length_eq_zero_iff.mp hnil, afterData_nil neon h]
  rw [if_neg hnil]
  dsimp only
  by_cases hmore : pin.length > 64 - S.buf.length
  · rw [if_pos hmore]
    by_cases hleft : S.buf.length > 0
    · have hblock : (S.buf ++ pin.take (64 - S.buf.length)).length = 64 := by
        rw [List.length_append, List.length_take]
        omega
      have hrest : pin.drop (64 - S.buf.length) ≠ [] := by
        intro hdrop
        exact Nat.not_le.mpr hmore (List.drop_eq_nil_iff.mp hdrop)
      have hsplit : S.buf ++ pin =
          (S.buf ++ pin.take (64 - S.buf.length)) ++ pin.drop (64 - S.buf.length) := by
        rw [List.append_assoc, List.take_append_drop]
      rw [if_pos hleft]
      unfold afterData
      rw [updateBlocks_eq, hsplit, hold_block _ _ _ hblock hrest]
      rfl
    · have hempty : S.buf = [] := List.length_eq_zero_iff.mp (Nat.eq_zero_of_not_pos hleft)
      rw [if_neg hleft]
      unfold afterData
      rw [updateBlocks_eq, hempty, List.nil_append]
  · have hfits : (S.buf ++ pin).length ≤ 64 := by
      rw [List.length_append]
      omega
    rw [if_neg hmore]
    unfold afterData
    rw [hold_short _ _ _ hfits]

theorem foldl_blake2sUpdate {S : Blake2sState} (h : S.buf.length ≤ 64) (pieces : List Bytes) :
    pieces.foldl (blake2sUpdate neon) S = afterData neon S pieces.flatten := by
  induction pieces generalizing S with
  | nil => exact (afterData_nil neon h).symm
  | cons piece pieces ih =>
      rw [List.foldl_cons, blake2sUpdate_eq neon h, ih (length_buf_afterData ..),
        List.flatten_cons, afterData_append]

end Buffer

section Rounds

/-- The state has the chaining value and the byte counter of the definition, and the flag
words say whether the next block is the last one. -/
structure Tracks (S : Chain) (last : Bool) (h : Vector UInt32 8) (t : Nat) : Prop where
  words : S.h = h
  low : S.t0 = UInt32.ofNat t
  high : S.t1 = UInt32.ofNat (t / 2 ^ 32)
  flag : S.f0 = if last then 0xFFFFFFFF else 0
  noNode : S.f1 = 0

theorem Tracks.addCount {S : Chain} {last : Bool} {h : Vector UInt32 8} {t n : Nat}
    (hS : Tracks S last h t) (hn : n < 2 ^ 32) :
    Tracks (addCount S (UInt32.ofNat n)) last h (t + n) := by
  have hlow : S.t0 + UInt32.ofNat n = UInt32.ofNat (t + n) := by
    rw [hS.low, UInt32.ofNat_add]
  have hcarry : UInt32.ofNat (t + n) < UInt32.ofNat n ↔ (t + n) % 2 ^ 32 < n := by
    rw [UInt32.lt_iff_toNat_lt, UInt32.toNat_ofNat', UInt32.toNat_ofNat', Nat.mod_eq_of_lt hn]
  refine ⟨hS.words, hlow, ?_, hS.flag, hS.noNode⟩
  unfold Blake2Stream.addCount
  dsimp only
  rw [hlow, hS.high]
  apply UInt32.toNat_inj.mp
  by_cases hwrap : (t + n) % 2 ^ 32 < n
  · rw [if_pos (hcarry.mpr hwrap), UInt32.toNat_add, UInt32.toNat_ofNat', UInt32.toNat_ofNat']
    change (t / 2 ^ 32 % 2 ^ 32 + 1) % 2 ^ 32 = _
    omega
  · rw [if_neg (hwrap ∘ hcarry.mp), UInt32.toNat_ofNat', UInt32.toNat_ofNat']
    omega

theorem loadWords_eq {block : Bytes} (h : block.length = 64) :
    loadWords block = Blake2s.blockWords block := by
  unfold loadWords Blake2s.blockWords
  congr 1
  funext j
  have hj := j.isLt
  have hlen : ((block.drop (4 * j)).take 4).length = 4 := by
    rw [List.length_take, List.length_drop]
    omega
  have hend : ((block.drop (4 * j)).take 4).drop 4 = [] :=
    List.drop_eq_nil_of_le (Nat.le_of_eq hlen)
  rw [leValue_eq_word (Nat.le_of_eq hlen.symm), hend, load32Le_take _ (Nat.le_refl 4),
    load32Le_drop, Nat.mul_comm 4, Nat.add_zero]
  exact UInt32.ofNat_toNat.symm

theorem startVector_eq {S : Chain} {last : Bool} {h : Vector UInt32 8} {t : Nat}
    (hS : Tracks S last h t) : startVector S = Blake2s.start h t last := by
  have hflag : ∀ c : UInt32, S.f0 ^^^ c = if last then c ^^^ 0xFFFFFFFF else c := by
    intro c
    rw [hS.flag, UInt32.xor_comm]
    cases last with
    | true => rfl
    | false => exact UInt32.xor_zero
  have hlow : ∀ c : UInt32, S.t0 ^^^ c = c ^^^ UInt32.ofNat t := by
    intro c
    rw [hS.low, UInt32.xor_comm]
  have hhigh : ∀ c : UInt32, S.t1 ^^^ c = c ^^^ UInt32.ofNat (t / 2 ^ 32) := by
    intro c
    rw [hS.high, UInt32.xor_comm]
  unfold startVector Blake2s.start
  simp only [blake2sIv_eq, hlow, hhigh, hflag, hS.words, hS.noNode, UInt32.zero_xor]

/-- Both compressions are the one of the definition. -/
theorem blake2sCompress_eq {S : Chain} {last : Bool} {h : Vector UInt32 8} {t : Nat}
    (hS : Tracks S last h t) {block : Bytes} (hblock : block.length = 64) :
    blake2sCompress neon S block =
      { S with h := Blake2s.compress h (Blake2s.blockWords block) t last } := by
  have hwords : compressWords S block = Blake2s.compress h (Blake2s.blockWords block) t last := by
    unfold compressWords Blake2s.compress
    rw [startVector_eq hS, loadWords_eq hblock, hS.words]
  unfold blake2sCompress
  cases neon with
  | true => rw [if_pos rfl, blake2sCompressNeon_eq, hwords]
  | false =>
      rw [if_neg Bool.false_ne_true, ← hwords, ← h_blake2sCompressScalar]
      rfl

theorem Tracks.absorb {S : Chain} {h : Vector UInt32 8} {t : Nat} (hS : Tracks S false h t)
    {block : Bytes} (hblock : block.length = 64) :
    Tracks (absorb neon S block) false
      (Blake2s.compress h (Blake2s.blockWords block) (t + 64) false) (t + 64) := by
  have hcount := hS.addCount (n := 64) (by decide)
  have hcompress : Blake2Stream.absorb neon S block = _ := blake2sCompress_eq neon hcount hblock
  rw [hcompress]
  exact ⟨rfl, hcount.low, hcount.high, hcount.flag, hcount.noNode⟩

/-- The first blocks of the data. -/
theorem Tracks.foldl {S : Chain} {h : Vector UInt32 8} (hS : Tracks S false h 0) (data : Bytes)
    {k : Nat} (hk : 64 * k ≤ data.length) :
    Tracks
      ((List.range k).foldl
        (fun S i => Blake2Stream.absorb neon S ((data.drop (64 * i)).take 64)) S)
      false (Blake2s.chain h data k) (64 * k) := by
  induction k with
  | zero => exact hS
  | succ k ih =>
      have hlen : ((data.drop (64 * k)).take 64).length = 64 := by
        rw [List.length_take, List.length_drop]
        omega
      have hblock : Blake2s.block data k = (data.drop (64 * k)).take 64 := by
        unfold Blake2s.block
        dsimp only
        rw [hlen]
        exact List.append_nil _
      have hchain : Blake2s.chain h data (k + 1) =
          Blake2s.compress (Blake2s.chain h data k)
            (Blake2s.blockWords ((data.drop (64 * k)).take 64)) (64 * (k + 1)) false := by
        unfold Blake2s.chain
        rw [List.range_succ, List.foldl_append, List.foldl_cons, List.foldl_nil, hblock]
      rw [hchain, List.range_succ, List.foldl_append, List.foldl_cons, List.foldl_nil]
      exact (ih (by omega)).absorb neon hlen

end Rounds

section Output

theorem getElem?_store32Le (w : UInt32) {i : Nat} (hi : i < 4) :
    (store32Le w)[i]? = some (w >>> UInt32.ofNat (8 * i) &&& 0xFF).toUInt8 := by
  have hmask : ∀ x : UInt32, (x &&& 0xFF).toUInt8 = x.toUInt8 := by
    intro x
    apply UInt8.toNat_inj.mp
    rw [UInt32.toNat_toUInt8, UInt32.toNat_toUInt8, UInt32.toNat_and]
    change (x.toNat &&& (2 ^ 8 - 1)) % 2 ^ 8 = _
    rw [Nat.and_two_pow_sub_one_eq_mod, Nat.mod_mod]
  rw [hmask]
  match i, hi with
  | 0, _ => exact congrArg (fun x => some x.toUInt8) UInt32.shiftRight_zero.symm
  | 1, _ => rfl
  | 2, _ => rfl
  | 3, _ => rfl

theorem getElem?_flatMap_store32Le (words : List UInt32) (i : Nat) :
    (words.flatMap store32Le)[i]? =
      words[i / 4]?.map fun w => (w >>> UInt32.ofNat (8 * (i % 4)) &&& 0xFF).toUInt8 := by
  induction words generalizing i with
  | nil => rfl
  | cons w words ih =>
      rw [List.flatMap_cons]
      rcases Nat.lt_or_ge i 4 with hi | hi
      · rw [List.getElem?_append_left hi, Nat.div_eq_of_lt hi, Nat.mod_eq_of_lt hi,
          getElem?_store32Le w hi]
        rfl
      · have hdiv : i / 4 = (i - 4) / 4 + 1 := by omega
        have hmod : i % 4 = (i - 4) % 4 := by omega
        rw [List.getElem?_append_right hi, length_store32Le, ih, hdiv, hmod,
          List.getElem?_cons_succ]

/-- The bytes are taken from the words one at a time. -/
theorem outputBytes_eq (h : Vector UInt32 8) {outlen : Nat} (hout : outlen ≤ 32) :
    ((List.range outlen).map fun i =>
        (h.toList.getD (i / 4) 0 >>> UInt32.ofNat (8 * (i % 4)) &&& 0xFF).toUInt8) =
      Blake2s.wordsToBytes outlen h := by
  have hstore : (fun w : UInt32 => (leBytes 4 w.toNat).toList) = store32Le := by
    funext w
    rw [← store32Le_ofNat, UInt32.ofNat_toNat]
  unfold Blake2s.wordsToBytes
  rw [hstore]
  apply List.ext_getElem?
  intro i
  rcases Nat.lt_or_ge i outlen with hi | hi
  · have hlen : i / 4 < h.toList.length := by
      rw [Vector.length_toList]
      omega
    rw [List.getElem?_map, List.getElem?_range hi, List.getElem?_take_of_lt hi,
      getElem?_flatMap_store32Le, List.getElem?_eq_getElem hlen]
    change some (h.toList.getD (i / 4) 0 >>> _ &&& 0xFF).toUInt8 = some _
    rw [List.getD_eq_getElem _ _ hlen]
  · rw [List.getElem?_eq_none (by simpa using hi), List.getElem?_take_eq_none hi]

end Output

section Digest

/-- The end of the computation compresses what the buffer holds. -/
theorem blake2sFinal_eq {S : Blake2sState} {h : Vector UInt32 8} {t : Nat}
    (hS : Tracks S.toChain false h t) (hbuf : S.buf.length ≤ 64) (hout : S.outlen ≤ 32) :
    blake2sFinal neon S =
      Blake2s.wordsToBytes S.outlen
        (Blake2s.compress h
          (Blake2s.blockWords (S.buf ++ List.replicate (64 - S.buf.length) 0))
          (t + S.buf.length) true) := by
  have hcount := hS.addCount (n := S.buf.length) (by omega)
  have hready : Tracks { addCount S.toChain (UInt32.ofNat S.buf.length) with f0 := 0xFFFFFFFF }
      true h (t + S.buf.length) :=
    ⟨hcount.words, hcount.low, hcount.high, rfl, hcount.noNode⟩
  have hlen : (S.buf ++ List.replicate (64 - S.buf.length) 0).length = 64 := by
    rw [List.length_append, List.length_replicate]
    omega
  have hcompress := blake2sCompress_eq neon hready hlen
  unfold blake2sFinal
  dsimp only at hcompress ⊢
  rw [hcompress]
  exact outputBytes_eq _ hout

/-- The hash of data that starts in an empty buffer. -/
theorem blake2sFinal_afterData {S : Blake2sState} {h : Vector UInt32 8}
    (hS : Tracks S.toChain false h 0) (hbuf : S.buf = []) (hout : S.outlen ≤ 32) (data : Bytes) :
    blake2sFinal neon (afterData neon S data) = Blake2s.digestFrom h S.outlen data := by
  have hlast : Blake2s.blockCount data.length - 1 = (data.length - 1) / 64 := by
    unfold Blake2s.blockCount
    omega
  generalize hk : (data.length - 1) / 64 = k at hlast
  have hlen : (data.drop (64 * k)).length = data.length - 64 * k := List.length_drop
  have hfolded := hS.foldl neon data (show 64 * k ≤ data.length by omega)
  have hblock : Blake2s.block data k =
      data.drop (64 * k) ++ List.replicate (64 - (data.drop (64 * k)).length) 0 := by
    unfold Blake2s.block
    dsimp only
    rw [List.take_of_length_le (by omega)]
  have hhold := hold_eq_foldl hashBlock_pos (absorb neon) S.toChain data
  rw [hk] at hhold
  unfold afterData
  rw [hbuf, List.nil_append, hhold]
  unfold Blake2s.digestFrom
  dsimp only
  rw [blake2sFinal_eq neon (S := ⟨_, _, S.outlen⟩) hfolded (by dsimp only; omega) hout]
  dsimp only
  rw [hlast, hblock, hlen, show 64 * k + (data.length - 64 * k) = data.length by omega]

end Digest

section Keys

theorem ofNat_shiftLeft_eight (n : Nat) : UInt32.ofNat n <<< 8 = UInt32.ofNat (n * 2 ^ 8) := by
  apply UInt32.toNat_inj.mp
  rw [UInt32.toNat_shiftLeft, UInt32.toNat_ofNat', UInt32.toNat_ofNat', Nat.shiftLeft_eq]
  exact Nat.mod_mul_mod n (2 ^ 8) (2 ^ 32)

/-- The state before the key block. -/
def keyedStart (outlen : Nat) (key : Bytes) : Blake2sState :=
  let S := blake2sInit outlen
  { S with h := put S.h 0 (S.h.get 0 ^^^ UInt32.ofNat key.length <<< 8) }

theorem tracks_keyedStart (outlen : Nat) (key : Bytes) :
    Tracks (keyedStart outlen key).toChain false
      (put Blake2s.iv 0 (Blake2s.iv.get 0 ^^^ Blake2s.parameters key.length outlen)) 0 := by
  refine ⟨?_, rfl, rfl, rfl, rfl⟩
  apply ext_get
  intro j
  unfold keyedStart blake2sInit Blake2s.parameters
  dsimp only
  rw [blake2sIv_eq, get_put, get_put, get_put, get_put, if_pos rfl, ofNat_shiftLeft_eight]
  by_cases hj : 0 = j
  · rw [if_pos hj, if_pos hj]
    simp only [UInt32.xor_assoc]
    rw [UInt32.xor_comm (UInt32.ofNat outlen)]
  · rw [if_neg hj, if_neg hj, if_neg hj]

theorem blake2sInitKey_eq (outlen : Nat) (key : Bytes) :
    blake2sInitKey neon outlen key =
      afterData neon (keyedStart outlen key) (Blake2s.keyBlock key) := by
  have hempty : (keyedStart outlen key).buf.length ≤ 64 := Nat.zero_le 64
  unfold blake2sInitKey Blake2s.keyBlock
  by_cases hkey : key = []
  · rw [if_pos hkey, afterData_nil neon hempty, hkey]
    rfl
  · rw [if_neg hkey]
    dsimp only
    rw [if_pos (List.length_pos_iff.mpr hkey)]
    exact blake2sUpdate_eq neon hempty _

/-- Without a key the two ways to start agree. -/
theorem blake2sInitKey_nil (outlen : Nat) : blake2sInitKey neon outlen [] = blake2sInit outlen := by
  have hput : ∀ h : Vector UInt32 8, put h 0 (h.get 0 ^^^ UInt32.ofNat 0 <<< 8) = h := by
    intro h
    apply ext_get
    intro j
    rw [get_put, ofNat_shiftLeft_eight]
    by_cases hj : 0 = j
    · rw [if_pos hj, ← hj]
      exact UInt32.xor_zero
    · rw [if_neg hj]
  have hstart : keyedStart outlen [] = blake2sInit outlen := by
    unfold keyedStart
    dsimp only
    rw [List.length_nil, hput]
  rw [← hstart]
  rfl

theorem blake2sFinal_pieces {outlen : Nat} (hout : outlen ≤ 32) (key : Bytes)
    (pieces : List Bytes) :
    blake2sFinal neon (pieces.foldl (blake2sUpdate neon) (blake2sInitKey neon outlen key)) =
      Blake2s.digest outlen key pieces.flatten := by
  rw [blake2sInitKey_eq, foldl_blake2sUpdate neon (length_buf_afterData ..), ← afterData_append]
  exact blake2sFinal_afterData neon (tracks_keyedStart outlen key) rfl hout _

/-- The same for the start without a key. -/
theorem blake2sFinal_pieces_init {outlen : Nat} (hout : outlen ≤ 32) (pieces : List Bytes) :
    blake2sFinal neon (pieces.foldl (blake2sUpdate neon) (blake2sInit outlen)) =
      Blake2s.digest outlen [] pieces.flatten := by
  rw [← blake2sInitKey_nil neon]
  exact blake2sFinal_pieces neon hout [] pieces

end Keys

section Hashes

theorem wgHash_eq (data : Bytes) : wgHash neon data = Blake2s.digest 32 [] data := by
  have hpieces := blake2sFinal_pieces_init neon (Nat.le_refl 32) [data]
  rw [List.flatten_singleton] at hpieces
  exact hpieces

theorem wgHash2_eq (a b : Bytes) : wgHash2 neon a b = Blake2s.digest 32 [] (a ++ b) := by
  have hpieces := blake2sFinal_pieces_init neon (Nat.le_refl 32) [a, b]
  rw [List.flatten_cons, List.flatten_singleton] at hpieces
  exact hpieces

theorem padKey_eq (pad : UInt8) {key : Bytes} (hkey : key.length ≤ 64) :
    padKey pad key = (key ++ List.replicate (64 - key.length) 0).map (· ^^^ pad) := by
  unfold padKey
  apply List.ext_getElem
  · simp [hkey]
  · intro i hi hi'
    rw [List.getElem_map, List.getElem_map, List.getElem_range]
    by_cases hlt : i < key.length
    · rw [dif_pos hlt, List.getElem_append_left hlt, UInt8.xor_comm]
    · rw [dif_neg hlt, List.getElem_append_right (Nat.le_of_not_lt hlt), List.getElem_replicate,
        UInt8.zero_xor]

theorem wgHmac_eq {outLen : Nat} (hout : outLen ≤ 32) (key data : Bytes) :
    wgHmac neon outLen key data =
      Blake2s.digest outLen [] (padKey 0x5c key ++
        Blake2s.digest 32 [] (padKey 0x36 key ++ data)) := by
  have hinner := wgHash2_eq neon (padKey 0x36 key) data
  have houter := blake2sFinal_pieces_init neon hout
    [padKey 0x5c key, wgHash2 neon (padKey 0x36 key) data]
  rw [List.flatten_cons, List.flatten_singleton] at houter
  rw [← hinner, ← houter]
  rfl

theorem wgHmac_eq_hmac {key : Bytes} (hkey : key.length ≤ 64) (data : Bytes) :
    wgHmac neon 32 key data = Blake2s.hmac (Blake2s.digest 32 []) 64 key data := by
  unfold Blake2s.hmac
  dsimp only
  rw [wgHmac_eq neon (Nat.le_refl 32), if_neg (Nat.not_lt.mpr hkey), padKey_eq _ hkey,
    padKey_eq _ hkey]

/-- Any split of the message gives the digest of the whole message. -/
theorem blake2s_chunking_correct :
    (∀ outlen : Nat, 1 ≤ outlen → outlen ≤ 32 → ∀ key : Bytes, key.length ≤ 32 →
      ∀ pieces : List Bytes,
        blake2sFinal neon (pieces.foldl (blake2sUpdate neon) (blake2sInitKey neon outlen key)) =
            Blake2s.digest outlen key pieces.flatten ∧
          blake2sFinal neon (pieces.foldl (blake2sUpdate neon) (blake2sInit outlen)) =
            Blake2s.digest outlen [] pieces.flatten) ∧
      (∀ a b : Bytes, wgHash2 neon a b = wgHash neon (a ++ b)) ∧
      ∀ key : Bytes, key.length ≤ 64 → ∀ data : Bytes,
        wgHmac neon 32 key data = Blake2s.hmac (Blake2s.digest 32 []) 64 key data := by
  refine ⟨?_, ?_, ?_⟩
  · intro outlen _ hout key _ pieces
    exact ⟨blake2sFinal_pieces neon hout key pieces, blake2sFinal_pieces_init neon hout pieces⟩
  · intro a b
    rw [wgHash2_eq, wgHash_eq]
  · intro key hkey data
    exact wgHmac_eq_hmac neon hkey data

theorem blake2s_chunking_two_pieces :
    blake2sFinal true ([[1, 2], [], [3]].foldl (blake2sUpdate true) (blake2sInitKey true 16 [7])) =
        Blake2s.digest 16 [7] [1, 2, 3] ∧
      wgHmac true 32 [9] [1] = Blake2s.hmac (Blake2s.digest 32 []) 64 [9] [1] := by
  obtain ⟨hdigest, _, hhmac⟩ := blake2s_chunking_correct true
  exact ⟨(hdigest 16 (by decide) (by decide) [7] (by decide) [[1, 2], [], [3]]).1,
    hhmac [9] (by decide) [1]⟩

end Hashes

end WgNx.Blake2Stream
