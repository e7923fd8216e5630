import MallocBench.Slab.SlabOps

/-!
# Packed slabs of `mm.c`

Blocks of up to 496 bytes live in one-page slabs that hold blocks of one size.
The header of such a slab records which blocks are free, with a set bit for a
free block: in one 64-bit vector `pl_f` for sizes of 64 and more, and in a
two-level vector `ps_f1` and `ps_f2` for 16, 32 and 48 bytes.

Field offsets: `sz_class` 1, `alloc_cnt` 2, `ps_f1` 4, `next_p` 8, `prev_p` 16,
`ps_f2` and `pl_f` 24.
-/

namespace MallocBench.Slab

/-! ## Size classes -/

/-- `is_tiny_block_size` -/
def isTinyBlockSize (size : Nat) : Bool :=
  size ≤ maxTinyBlockSz

/-- `adj_tiny_size` -/
def adjTinySize (size : Nat) : Nat :=
  if size < 320 then size + (if size = 256 then 16 else 0)
  else if size < 416 then size / 32 * 32 + 16
  else 400 + 3 * ((size + 48) / 16 / 16 * 16)

/-- `size_to_sz_class` -/
def sizeToSzClass (size : Nat) : Nat :=
  (size / mallocAlign - 1) % 256

/-- `sz_class_to_size` -/
def szClassToSize (szClass : Nat) : Nat :=
  (szClass + 1) * mallocAlign

/-- `packed_slab_block_size` -/
def packedSlabBlockSize (s : Nat) : HeapM Nat := do
  let szClass ← load8 (s + 1)
  pure (mallocAlign + szClass * mallocAlign)

/-- `packed_bin_idx` -/
def packedBinIdx (size : Nat) : Nat :=
  if size < 256 then size / mallocAlign - 1
  else if size < 368 then size * 3 / (4 * mallocAlign) + 3
  else (size * 3 + 32) / (8 * mallocAlign) + 11

/-- `packed_slab_n_blocks` -/
def packedSlabNBlocks (size : Nat) : Nat :=
  (slabSize - packedSlabHeaderSize) / size

/-- `PACKED_SLAB_N_HEADER_SIZE` for `N` = 16, 32, 48 -/
def packedSlabNHeaderSize (size : Nat) : Nat :=
  if size = 16 then 64 else 48

/-! ## Small bins -/

/-- `__small_bin_start`: the bin, placed so that it is the `next_p` field of a
slab -/
def smallBinStart (smallBin : Nat) : Nat := smallBin - 8

/-- `__small_bin_link` -/
def _smallBinLink (smallBin s : Nat) : HeapM Unit := do
  let nextP ← load64 smallBin
  store64 (s + 16) (smallBinStart smallBin)
  store64 (s + 8) nextP
  store64 smallBin s
  if nextP ≠ 0 then store64 (nextP + 16) s else pure ()

/-- `small_bin_link` -/
def smallBinLink (s size : Nat) : HeapM Unit := do
  let h ← get
  _smallBinLink (smallBin h.heap (packedBinIdx size)) s

/-- `small_bin_unlink` -/
def smallBinUnlink (s : Nat) : HeapM Unit := do
  let nextP ← load64 (s + 8)
  let prevP ← load64 (s + 16)
  store64 (prevP + 8) nextP
  if nextP ≠ 0 then store64 (nextP + 16) prevP else pure ()

/-! ## Allocating from a packed slab -/

/-- `s->alloc_cnt++` -/
def incAllocCnt (s : Nat) : HeapM Unit := do
  let allocCnt ← load16 (s + 2)
  store16 (s + 2) (allocCnt + 1)

/-- `__packed_alloc_N`, for `n` = 16, 32 or 48 -/
def _packedAllocN (n s : Nat) : HeapM Nat := do
  let l1Word ← load16 (s + 4)
  let l1Bitv := BitVec.ofNat 16 l1Word
  let l1Idx := l1Bitv.ctz.toNat
  let l2Word ← load16 (s + 24 + 2 * l1Idx)
  let l2Bitv := BitVec.ofNat 16 l2Word
  let l2Idx := l2Bitv.ctz.toNat
  let idx := l1Idx * 16 + l2Idx
  let l2Bitv := l2Bitv ^^^ (1#16 <<< l2Idx)
  let l1Bitv := l1Bitv ^^^ ((if l2Bitv = 0 then 1#16 else 0#16) <<< l1Idx)
  incAllocCnt s
  store16 (s + 24 + 2 * l1Idx) l2Bitv.toNat
  store16 (s + 4) l1Bitv.toNat
  (if l1Bitv = 0 then smallBinUnlink s else pure ())
  pure (s + (idx * n + packedSlabNHeaderSize n))

def _packedAlloc16 : Nat → HeapM Nat := _packedAllocN 16
def _packedAlloc32 : Nat → HeapM Nat := _packedAllocN 32
def _packedAlloc48 : Nat → HeapM Nat := _packedAllocN 48

/-- `__packed_alloc` -/
def _packedAlloc (s size : Nat) : HeapM Nat := do
  let word ← load64 (s + 24)
  let bitv := BitVec.ofNat 64 word
  let idx := bitv.ctz.toNat
  let bitv := bitv ^^^ (1#64 <<< idx)
  (if bitv = 0 then smallBinUnlink s else pure ())
  incAllocCnt s
  store64 (s + 24) bitv.toNat
  pure (s + (idx * size + packedSlabHeaderSize))

/-! ## Freeing into a packed slab -/

/-- `__packed_free_N`, for `n` = 16, 32 or 48 -/
def _packedFreeN (n s ptr : Nat) : HeapM Unit := do
  let idx := (ptr - s - packedSlabNHeaderSize n) / n
  let l1Idx := idx / 16
  let l2Idx := idx % 16
  let l1Word ← load16 (s + 4)
  let l1Bitv := BitVec.ofNat 16 l1Word
  let l2Word ← load16 (s + 24 + 2 * l1Idx)
  let l2Bitv := BitVec.ofNat 16 l2Word
  let allocCnt ← load16 (s + 2)
  let allocCnt := (allocCnt + 65535) % 65536
  (if l1Bitv = 0 then smallBinLink s n else pure ())
  store16 (s + 2) allocCnt
  store16 (s + 24 + 2 * l1Idx) (l2Bitv ||| (1#16 <<< l2Idx)).toNat
  store16 (s + 4) (l1Bitv ||| (1#16 <<< l1Idx)).toNat
  if allocCnt = 0 then do
    smallBinUnlink s
    _intFreeSlab s 1
  else pure ()

def _packedFree16 : Nat → Nat → HeapM Unit := _packedFreeN 16
def _packedFree32 : Nat → Nat → HeapM Unit := _packedFreeN 32
def _packedFree48 : Nat → Nat → HeapM Unit := _packedFreeN 48

/-- `__packed_free` -/
def _packedFree (s ptr szClass : Nat) : HeapM Unit := do
  let size := szClassToSize szClass
  let idx := (ptr - s - packedSlabHeaderSize) / size
  let allocCnt ← load16 (s + 2)
  let allocCnt := (allocCnt + 65535) % 65536
  let word ← load64 (s + 24)
  let bitv := BitVec.ofNat 64 word
  (if bitv = 0 then smallBinLink s size else pure ())
  store16 (s + 2) allocCnt
  store64 (s + 24) (bitv ||| (1#64 <<< idx)).toNat
  if allocCnt = 0 then do
    smallBinUnlink s
    _intFreeSlab s 1
  else pure ()

/-! ## A new packed slab -/

/-- `tiny_block_ptr_N` at index 0 and `tiny_block_ptr` at index 0 -/
def tinyBlockPtr0 (s size : Nat) : Nat :=
  if size ≤ packedSlab2lvlBitvThresh then s + packedSlabNHeaderSize size
  else s + packedSlabHeaderSize

/-- the `__f1_init_bitv` table of `__int_slab_init_packed_and_alloc` -/
def f1InitBitv (size : Nat) : Nat :=
  if size = 16 then 0xffff else if size = 32 then 0x00ff else 0x003f

/-- the initial second-level bitvectors, as the 64-bit words written, with the
bit of the block that is returned already clear -/
def lvl2InitBitv (size : Nat) : List Nat :=
  if size = 16 then
    [0xfffffffffffffffe, 0xffffffffffffffff, 0xffffffffffffffff, 2 ^ (64 - 4) - 1]
  else if size = 32 then [0xfffffffffffffffe, 2 ^ (64 - 2) - 1]
  else [0xfffffffffffffffe, 2 ^ ((slabSize - 48) / 48 - 64) - 1]

/-- the assignments to `lvl2_bitv[i]`, `lvl2_bitv[i + 1]`, ... -/
def storeLvl2 (a : Nat) : List Nat → HeapM Unit
  | [] => pure ()
  | w :: ws => do
    store64 a w
    storeLvl2 (a + 8) ws

/-- `__int_slab_init_packed_and_alloc` -/
def _intSlabInitPackedAndAlloc (s size : Nat) : HeapM Nat := do
  setFlag s 4
  store8 (s + 1) (sizeToSzClass size)
  store16 (s + 2) 1
  (if size ≤ packedSlab2lvlBitvThresh then do
    store16 (s + 4) (f1InitBitv size)
    storeLvl2 (s + 24) (lvl2InitBitv size)
  else
    store64 (s + 24) (2 ^ packedSlabNBlocks size - 2))
  smallBinLink s size
  pure (tinyBlockPtr0 s size)

/-- `__int_find_tiny_block`; `none` is `NULL` -/
def _intFindTinyBlock (size : Nat) : HeapM (Option Nat) := do
  mallocAssert (size ≤ maxTinyBlockSz)
  let h ← get
  let s ← load64 (smallBin h.heap (packedBinIdx size))
  if s ≠ 0 then do
    let ptr ← (if size = 16 then _packedAlloc16 s
      else if size = 32 then _packedAlloc32 s
      else if size = 48 then _packedAlloc48 s
      else _packedAlloc s size)
    pure (some ptr)
  else pure none

/-- `__int_tiny_block_free` -/
def _intTinyBlockFree (s ptr : Nat) : HeapM Unit := do
  let szClass ← load8 (s + 1)
  if szClass = 0 then _packedFree16 s ptr
  else if szClass = 1 then _packedFree32 s ptr
  else if szClass = 2 then _packedFree48 s ptr
  else _packedFree s ptr szClass

end MallocBench.Slab
