import WgNx.ChaChaBlock
import WgNx.WireMessages

/-!
The ChaCha20 stream cipher on buffers in memory.

`wg_chacha20_neon` takes whole blocks in four vectors and the rest byte by byte,
with a 32-bit block counter.  `crypto_chacha20_djb` takes whole blocks word by word,
with a 64-bit counter.  Both write the exclusive or of their input and a key stream.
-/

namespace WgNx.ChaChaStream

open WgNx.ByteLayout
open WgNx.ByteMemory
open WgNx.ChaChaBlock
open WgNx.WireMessages
open WgNx.WordBytes

section Neon

def neonState (key : Key) (nonce : ByteVec 12) (counter : UInt32) : Words where
  t0 := 0x61707865
  t1 := 0x3320646e
  t2 := 0x79622d32
  t3 := 0x6b206574
  t4 := load32Le key.toList 0
  t5 := load32Le key.toList 4
  t6 := load32Le key.toList 8
  t7 := load32Le key.toList 12
  t8 := load32Le key.toList 16
  t9 := load32Le key.toList 20
  t10 := load32Le key.toList 24
  t11 := load32Le key.toList 28
  t12 := counter
  t13 := load32Le nonce.toList 0
  t14 := load32Le nonce.toList 4
  t15 := load32Le nonce.toList 8

def wgChacha20BlockNeon (key : Key) (nonce : ByteVec 12) (counter : UInt32) : Bytes :=
  (chacha20BlockNeonInternal (neonState key nonce counter)).toBytes

def vld1qU32 (mem : Memory) (addr : Nat) : U32x4 :=
  let bytes := read mem addr 16
  ⟨load32Le bytes 0, load32Le bytes 4, load32Le bytes 8, load32Le bytes 12⟩

def vectorBytes (v : U32x4) : Bytes :=
  store32Le v.l0 ++ store32Le v.l1 ++ store32Le v.l2 ++ store32Le v.l3

def vst1qU32 (mem : Memory) (addr : Nat) (v : U32x4) : Memory := write mem addr (vectorBytes v)

/-- The four stores of a whole block. -/
def xorBlockNeon (mem : Memory) (out inp : Nat) (block : Words) : Memory :=
  let blk := Rows.ofWords block
  let mem := vst1qU32 mem out (veorqU32 (vld1qU32 mem inp) blk.row0)
  let mem := vst1qU32 mem (out + 16) (veorqU32 (vld1qU32 mem (inp + 16)) blk.row1)
  let mem := vst1qU32 mem (out + 32) (veorqU32 (vld1qU32 mem (inp + 32)) blk.row2)
  vst1qU32 mem (out + 48) (veorqU32 (vld1qU32 mem (inp + 48)) blk.row3)

/-- `out[i] = in[i] ^ keystream[i]` -/
def xorTail (mem : Memory) (out inp : Nat) : Bytes → Memory
  | [] => mem
  | k :: ks => xorTail (write mem out [mem inp ^^^ k]) (out + 1) (inp + 1) ks

def wgChacha20Neon (key : Key) (nonce : ByteVec 12) (mem : Memory) (out inp len : Nat)
    (counter : UInt32) : Memory :=
  if 64 ≤ len then
    let block := chacha20BlockNeonInternal (neonState key nonce counter)
    wgChacha20Neon key nonce (xorBlockNeon mem out inp block) (out + 64) (inp + 64)
      (len - 64) (counter + 1)
  else if 0 < len then
    let keystream := (chacha20BlockNeonInternal (neonState key nonce counter)).toBytes
    xorTail mem out inp (keystream.take len)
  else mem
termination_by len

end Neon

section Portable

/-- The string "expand 32-byte k". -/
def chacha20Constant : Bytes :=
  [0x65, 0x78, 0x70, 0x61, 0x6e, 0x64, 0x20, 0x33,
    0x32, 0x2d, 0x62, 0x79, 0x74, 0x65, 0x20, 0x6b]

def djbInput (key : Key) (nonce : ByteVec 8) (ctr : UInt64) : Words where
  t0 := load32Le chacha20Constant 0
  t1 := load32Le chacha20Constant 4
  t2 := load32Le chacha20Constant 8
  t3 := load32Le chacha20Constant 12
  t4 := load32Le key.toList 0
  t5 := load32Le key.toList 4
  t6 := load32Le key.toList 8
  t7 := load32Le key.toList 12
  t8 := load32Le key.toList 16
  t9 := load32Le key.toList 20
  t10 := load32Le key.toList 24
  t11 := load32Le key.toList 28
  t12 := ctr.toUInt32
  t13 := (ctr >>> 32).toUInt32
  t14 := load32Le nonce.toList 0
  t15 := load32Le nonce.toList 4

/-- The words `pool[j] + input[j]` of a block. -/
def djbPool (input : Words) : Words := addWords (chacha20Rounds input) input

/-- `input[12]++` with a carry to `input[13]`. -/
def nextInput (input : Words) : Words :=
  let input := { input with t12 := input.t12 + 1 }
  if input.t12 = 0 then { input with t13 := input.t13 + 1 } else input

/-- A whole block with a plain text. -/
def xorWords (mem : Memory) (out inp : Nat) : List UInt32 → Memory
  | [] => mem
  | p :: ps =>
      xorWords (write mem out (store32Le (p ^^^ load32Le (read mem inp 4) 0)))
        (out + 4) (inp + 4) ps

/-- A whole block without a plain text. -/
def storeWords (mem : Memory) (out : Nat) : List UInt32 → Memory
  | [] => mem
  | p :: ps => storeWords (write mem out (store32Le p)) (out + 4) ps

/-- `cipher_text[i] = tmp[i] ^ plain_text[i]` -/
def xorTailDjb (mem : Memory) (out inp : Nat) : Bytes → Memory
  | [] => mem
  | k :: ks => xorTailDjb (write mem out [k ^^^ mem inp]) (out + 1) (inp + 1) ks

def djbBlocks (mem : Memory) (out : Nat) (inp : Option Nat) (input : Words) :
    Nat → Memory × Nat × Option Nat × Words
  | 0 => (mem, out, inp, input)
  | blocks + 1 =>
      let pool := djbPool input
      let mem :=
        match inp with
        | some p => xorWords mem out p pool.toList
        | none => storeWords mem out pool.toList
      djbBlocks mem (out + 64) (inp.map (· + 64)) (nextInput input) blocks

/-- A null plain text stands for zeros. -/
def cryptoChacha20Djb (mem : Memory) (out : Nat) (inp : Option Nat) (textSize : Nat)
    (key : Key) (nonce : ByteVec 8) (ctr : UInt64) : UInt64 × Memory :=
  let (mem, out, inp, input) := djbBlocks mem out inp (djbInput key nonce ctr) (textSize >>> 6)
  let textSize := textSize &&& 63
  let tmp := (djbPool input).toBytes
  let mem :=
    if textSize > 0 then
      match inp with
      | some p => xorTailDjb mem out p (tmp.take textSize)
      | none => write mem out (tmp.take textSize)
    else mem
  (input.t12.toUInt64 + input.t13.toUInt64 <<< 32 + (if textSize > 0 then 1 else 0), mem)

end Portable

section Stream

variable {σ τ : Type}

/-- The first bytes of the blocks of a sequence of states. -/
def keystream (block : σ → Bytes) (next : σ → σ) (s : σ) (len : Nat) : Bytes :=
  if 64 ≤ len then block s ++ keystream block next (next s) (len - 64)
  else (block s).take len
termination_by len

theorem keystream_long (block : σ → Bytes) (next : σ → σ) (s : σ) {len : Nat} (h : 64 ≤ len) :
    keystream block next s len = block s ++ keystream block next (next s) (len - 64) := by
  rw [keystream, if_pos h]

theorem keystream_short (block : σ → Bytes) (next : σ → σ) (s : σ) {len : Nat}
    (h : ¬ 64 ≤ len) : keystream block next s len = (block s).take len := by
  rw [keystream, if_neg h]

theorem length_keystream {block : σ → Bytes} (hblock : ∀ s, (block s).length = 64)
    (next : σ → σ) (s : σ) (len : Nat) : (keystream block next s len).length = len := by
  fun_induction keystream block next s len with
  | case1 s len hle ih =>
      rw [List.length_append, hblock, ih]
      omega
  | case2 s len hlt =>
      rw [List.length_take, hblock]
      omega

theorem length_toBytes (w : Words) : w.toBytes.length = 64 := rfl

variable (mem : Memory)

theorem xorInto_word (out inp : Nat) (w : UInt32) :
    xorInto mem out inp (store32Le w) =
      write mem out (store32Le (load32Le (read mem inp 4) 0 ^^^ w)) := by
  rw [store32Le_xor_load32Le _ (length_read ..)]
  rfl

theorem xorInto_byte (out inp : Nat) (k : UInt8) :
    xorInto mem out inp [k] = write mem out [mem inp ^^^ k] := rfl

/-- One vector. -/
theorem vst1qU32_eq_xorInto (out inp : Nat) (v : U32x4) :
    vst1qU32 mem out (veorqU32 (vld1qU32 mem inp) v) =
      xorInto mem out inp (vectorBytes v) := by
  have hread : read mem inp 16 = read mem inp 4 ++ read mem (inp + 4) 4 ++
      read mem (inp + 8) 4 ++ read mem (inp + 12) 4 := by
    rw [show (16 : Nat) = 4 + 4 + 4 + 4 from rfl, read_add, read_add, read_add]
  have hlane : ∀ (off : Nat) (w : UInt32), off + 4 ≤ 16 →
      store32Le (load32Le (read mem inp 16) off ^^^ w) =
        xorBytes (read mem (inp + off) 4) (store32Le w) := by
    intro off w hoff
    rw [load32Le_read mem inp hoff, store32Le_xor_load32Le _ (length_read ..)]
  unfold vst1qU32 xorInto vectorBytes
  simp only [veorqU32, U32x4.zipWith, vld1qU32]
  rw [hlane 0 v.l0 (by decide), hlane 4 v.l1 (by decide), hlane 8 v.l2 (by decide),
    hlane 12 v.l3 (by decide)]
  simp only [List.length_append, length_store32Le]
  rw [hread, xorBytes_append (by simp), xorBytes_append (by simp), xorBytes_append (by simp)]
  rfl

theorem xorTail_eq {out inp : Nat} {ks : Bytes} (h : Separable out inp ks.length) :
    xorTail mem out inp ks = xorInto mem out inp ks := by
  induction ks generalizing mem out inp with
  | nil => exact (xorInto_nil mem out inp).symm
  | cons k ks ih =>
      have hparts : Separable out inp ([k].length + ks.length) := by
        rw [List.length_singleton, Nat.add_comm]
        exact h
      have hsplit := xorInto_append mem hparts
      rw [List.singleton_append, List.length_singleton, xorInto_byte] at hsplit
      rw [hsplit]
      exact ih _ hparts.tail

theorem xorTailDjb_eq (out inp : Nat) (ks : Bytes) :
    xorTailDjb mem out inp ks = xorTail mem out inp ks := by
  induction ks generalizing mem out inp with
  | nil => rfl
  | cons k ks ih =>
      unfold xorTailDjb xorTail
      rw [UInt8.xor_comm]
      exact ih ..

theorem length_flatMap_store32Le (ws : List UInt32) :
    (ws.flatMap store32Le).length = 4 * ws.length := by
  induction ws with
  | nil => rfl
  | cons w ws ih =>
      rw [List.flatMap_cons, List.length_append, ih, length_store32Le, List.length_cons]
      omega

theorem xorWords_eq {out inp : Nat} {ws : List UInt32} (h : Separable out inp (4 * ws.length)) :
    xorWords mem out inp ws = xorInto mem out inp (ws.flatMap store32Le) := by
  induction ws generalizing mem out inp with
  | nil => exact (xorInto_nil mem out inp).symm
  | cons w ws ih =>
      have hparts : Separable out inp (4 + 4 * ws.length) := by
        rw [List.length_cons] at h
        exact h.mono (by omega)
      have hsplit : xorInto mem out inp (store32Le w ++ ws.flatMap store32Le) =
          xorInto (xorInto mem out inp (store32Le w)) (out + 4) (inp + 4)
            (ws.flatMap store32Le) := by
        apply xorInto_append
        rw [length_flatMap_store32Le]
        exact hparts
      rw [List.flatMap_cons, hsplit, xorInto_word, UInt32.xor_comm]
      exact ih _ hparts.tail

theorem xorBlockNeon_eq {out inp : Nat} (h : Separable out inp 64) (block : Words) :
    xorBlockNeon mem out inp block = xorInto mem out inp block.toBytes := by
  have hbytes : block.toBytes = vectorBytes (Rows.ofWords block).row0 ++
      (vectorBytes (Rows.ofWords block).row1 ++ (vectorBytes (Rows.ofWords block).row2 ++
        vectorBytes (Rows.ofWords block).row3)) := rfl
  have h48 : Separable (out + 16) (inp + 16) (16 + (16 + 16)) := Separable.tail h
  have h32 : Separable (out + 16 + 16) (inp + 16 + 16) (16 + 16) := Separable.tail h48
  unfold xorBlockNeon
  simp only [vst1qU32_eq_xorInto]
  rw [hbytes, xorInto_append mem h]
  refine Eq.trans ?_ (xorInto_append _ h48).symm
  exact (xorInto_append _ h32).symm

theorem length_wgChacha20BlockNeon (key : Key) (nonce : ByteVec 12) (counter : UInt32) :
    (wgChacha20BlockNeon key nonce counter).length = 64 := rfl

/-- The vector code xors the key stream of its block counter into the output. -/
theorem wgChacha20Neon_eq (key : Key) (nonce : ByteVec 12) {out inp len : Nat}
    (counter : UInt32) (h : Separable out inp len) :
    wgChacha20Neon key nonce mem out inp len counter =
      xorInto mem out inp (keystream (wgChacha20BlockNeon key nonce) (· + 1) counter len) := by
  fun_induction wgChacha20Neon key nonce mem out inp len counter with
  | case1 mem out inp len counter hle block ih =>
      have hlen : len = 64 + (len - 64) := by omega
      rw [hlen] at h
      rw [keystream_long _ _ _ hle, ih h.tail, xorBlockNeon_eq mem (h.mono (by omega))]
      refine (xorInto_append mem ?_).symm
      rw [length_keystream (length_wgChacha20BlockNeon key nonce)]
      exact h
  | case2 mem out inp len counter hlt hpos ks =>
      have hlength : (ks.take len).length = len := by
        rw [List.length_take, length_toBytes]
        omega
      rw [keystream_short _ _ _ hlt, xorTail_eq]
      · rfl
      · rw [hlength]
        exact h
  | case3 mem out inp len counter hlt hzero =>
      have hlen : len = 0 := by omega
      subst hlen
      rw [keystream_short _ _ _ hlt, List.take_zero, xorInto_nil]

def djbBlock (input : Words) : Bytes := (djbPool input).toBytes

theorem length_djbBlock (input : Words) : (djbBlock input).length = 64 := rfl

theorem keystream_blocks (block : σ → Bytes) (next : σ → σ) (s : σ) (blocks rest : Nat) :
    keystream block next s (64 * (blocks + 1) + rest) =
      block s ++ keystream block next (next s) (64 * blocks + rest) := by
  rw [keystream_long _ _ _ (by omega)]
  congr 2
  omega

theorem djbBlocks_some {out inp : Nat} (input : Words) (blocks rest : Nat)
    (h : Separable out inp (64 * blocks + rest)) :
    ∃ mem' input', djbBlocks mem out (some inp) input blocks =
        (mem', out + 64 * blocks, some (inp + 64 * blocks), input') ∧
      xorInto mem' (out + 64 * blocks) (inp + 64 * blocks)
          (keystream djbBlock nextInput input' rest) =
        xorInto mem out inp (keystream djbBlock nextInput input (64 * blocks + rest)) := by
  induction blocks generalizing mem out inp input with
  | zero =>
      refine ⟨mem, input, rfl, ?_⟩
      simp only [Nat.mul_zero, Nat.add_zero, Nat.zero_add]
  | succ blocks ih =>
      have hparts : Separable out inp (64 + (64 * blocks + rest)) := by
        rw [show 64 + (64 * blocks + rest) = 64 * (blocks + 1) + rest by omega]
        exact h
      obtain ⟨mem', input', hblocks, hrest⟩ :=
        ih (xorWords mem out inp (djbPool input).toList) (nextInput input) hparts.tail
      have hout : out + 64 + 64 * blocks = out + 64 * (blocks + 1) := by omega
      have hinp : inp + 64 + 64 * blocks = inp + 64 * (blocks + 1) := by omega
      rw [hout, hinp] at hblocks hrest
      refine ⟨mem', input', hblocks, hrest.trans ?_⟩
      rw [xorWords_eq mem (hparts.mono (by simp [Words.toList])), keystream_blocks]
      refine (xorInto_append mem ?_).symm
      rw [length_keystream length_djbBlock]
      exact hparts

/-- The portable code xors the key stream of its state into the output. -/
theorem cryptoChacha20Djb_some (key : Key) (nonce : ByteVec 8) (ctr : UInt64)
    {out inp len : Nat} (h : Separable out inp len) :
    (cryptoChacha20Djb mem out (some inp) len key nonce ctr).2 =
      xorInto mem out inp (keystream djbBlock nextInput (djbInput key nonce ctr) len) := by
  have hblocks : len >>> 6 = len / 64 := Nat.shiftRight_eq_div_pow len 6
  have hrest : len &&& 63 = len % 64 := Nat.and_two_pow_sub_one_eq_mod len 6
  have hlen : 64 * (len / 64) + len % 64 = len := Nat.div_add_mod len 64
  have hsep := h
  rw [← hlen] at hsep
  obtain ⟨mem', input', hloop, hstream⟩ :=
    djbBlocks_some mem (djbInput key nonce ctr) (len / 64) (len % 64) hsep
  rw [hlen] at hstream
  unfold cryptoChacha20Djb
  rw [hblocks, hrest, hloop, ← hstream]
  dsimp only
  have hlt : len % 64 < 64 := Nat.mod_lt len (by decide)
  have hkeys : keystream djbBlock nextInput input' (len % 64) =
      (djbPool input').toBytes.take (len % 64) :=
    keystream_short _ _ _ (Nat.not_le.mpr hlt)
  rw [hkeys]
  split
  · rw [xorTailDjb_eq, xorTail_eq]
    rw [List.length_take, length_toBytes, Nat.min_eq_left (Nat.le_of_lt hlt)]
    exact hsep.tail
  · rename_i hzero
    rw [Nat.eq_zero_of_not_pos hzero, List.take_zero, xorInto_nil]

theorem storeWords_eq (out : Nat) (ws : List UInt32) :
    storeWords mem out ws = write mem out (ws.flatMap store32Le) := by
  induction ws generalizing mem out with
  | nil => exact (write_nil mem out).symm
  | cons w ws ih =>
      rw [List.flatMap_cons, write_append]
      exact ih _ (out + 4)

/-- Without a plain text one block of the key stream is stored. -/
theorem cryptoChacha20Djb_none (key : Key) (nonce : ByteVec 8) (ctr : UInt64) (out : Nat) :
    (cryptoChacha20Djb mem out none 64 key nonce ctr).2 =
      write mem out (djbBlock (djbInput key nonce ctr)) :=
  storeWords_eq mem out (djbPool (djbInput key nonce ctr)).toList

end Stream

section Agreement

/-- The two states of a block are the same words. -/
theorem djbBlock_of_neonState (key : Key) (nonce : ByteVec 12) (counter : UInt32) :
    djbBlock (neonState key nonce counter) = wgChacha20BlockNeon key nonce counter := by
  unfold djbBlock djbPool wgChacha20BlockNeon
  rw [chacha20BlockNeonInternal_eq]

theorem nextInput_neonState (key : Key) (nonce : ByteVec 12) {counter : UInt32}
    (h : counter + 1 ≠ 0) :
    nextInput (neonState key nonce counter) = neonState key nonce (counter + 1) := by
  exact if_neg h

/-- As long as the block counter does not wrap, the key streams are the same. -/
theorem keystream_agree (key : Key) (nonce : ByteVec 12) (counter : UInt32) (len : Nat)
    (h : len ≤ 64 * (2 ^ 32 - counter.toNat)) :
    keystream djbBlock nextInput (neonState key nonce counter) len =
      keystream (wgChacha20BlockNeon key nonce) (· + 1) counter len := by
  induction hblocks : len / 64 generalizing len counter with
  | zero =>
      have hlt : ¬ 64 ≤ len := by omega
      rw [keystream_short _ _ _ hlt, keystream_short _ _ _ hlt, djbBlock_of_neonState]
  | succ blocks ih =>
      have hle : 64 ≤ len := by omega
      rw [keystream_long _ _ _ hle, keystream_long _ _ _ hle, djbBlock_of_neonState]
      congr 1
      have hcounter := counter.toNat_lt
      rcases Nat.lt_or_ge (counter.toNat + 1) (2 ^ 32) with hmore | hlast
      · have hnext : (counter + 1).toNat = counter.toNat + 1 := by
          rw [UInt32.toNat_add]
          exact Nat.mod_eq_of_lt hmore
        rw [nextInput_neonState key nonce fun hzero => by
          rw [hzero] at hnext
          cases hnext]
        apply ih
        · rw [hnext]
          omega
        · omega
      · -- The last block of the counter is the last one of the text.
        have hend : len - 64 = 0 := by omega
        rw [hend, keystream_short _ _ _ (by decide), keystream_short _ _ _ (by decide),
          List.take_zero, List.take_zero]

end Agreement

end WgNx.ChaChaStream
