import MallocBench.Slab.SlabOps

/-!
# Medium and large blocks of `mm.c`

A slab that is neither free nor packed is divided into at most eight blocks.
The first header word holds the flags and the offsets of all blocks but the
first (bytes, in units of 16); the second holds the number of slabs of the
region and, in its top byte, one alloc bit for each block. The last block of a
region of several slabs hangs over the end of the first slab.
-/

namespace MallocBench.Slab

/-! ## Medium bins -/

/-- `is_medium_block_size` -/
def isMediumBlockSize (size : Nat) : Bool :=
  maxTinyBlockSz < size && size ≤ maxMediumBlockSz

/-- `medium_bin_idx` -/
def mediumBinIdx (size : Nat) : Nat :=
  (size - minMediumBlockSz) / mallocAlign

/-- `medium_bin_idx_size` -/
def mediumBinIdxSize (binIdx : Nat) : Nat :=
  binIdx * mallocAlign + minMediumBlockSz

/-- `medium_bin_skiplist_idx` -/
def mediumBinSkiplistIdx (binIdx : Nat) : Nat :=
  binIdx / 32

/-- `medium_bin_skiplist_bit` -/
def mediumBinSkiplistBit (binIdx : Nat) : Nat :=
  binIdx % 32

/-- `medium_bin_start` -/
def mediumBinStart (bin : Nat) : Nat := bin

/-- `h->med_skiplist[skip_idx] = v` -/
def setMedSkiplist (skipIdx : Nat) (v : BitVec 32) : HeapM Unit :=
  modify fun h => { h with medSkiplist := Function.update h.medSkiplist skipIdx v }

/-- `medium_bin_link` -/
def mediumBinLink (b size : Nat) : HeapM Unit := do
  let h ← get
  let listHead := mediumBin h.heap (mediumBinIdx size)
  let second ← load64 listHead
  store64 b second
  store64 (b + 8) (mediumBinStart listHead)
  (if second ≠ 0 then store64 (second + 8) b else pure ())
  store64 listHead b
  let binIdx := (size - minMediumBlockSz) / mallocAlign
  let skipIdx := mediumBinSkiplistIdx binIdx
  let bitIdx := mediumBinSkiplistBit binIdx
  setMedSkiplist skipIdx (h.medSkiplist skipIdx ||| (1#32 <<< bitIdx))

/-- `medium_bin_unlink` -/
def mediumBinUnlink (b : Nat) : HeapM Unit := do
  let next ← load64 b
  let prev ← load64 (b + 8)
  store64 prev next
  if next ≠ 0 then store64 (next + 8) prev else pure ()

/-! ## The packed vectors of a slab header -/

/-- `__medium_bin_mem_to_offsets`: the flags byte replaced by the implied
offset of the first block -/
def mediumBinMemToOffsets (mem : BitVec 64) : BitVec 64 :=
  1#64 ||| (0xffffffffffffff00#64 &&& mem)

/-- `__medium_bin_offsets` -/
def mediumBinOffsets (s : Nat) : HeapM (BitVec 64) := do
  let mem ← load64 s
  pure (mediumBinMemToOffsets (BitVec.ofNat 64 mem))

/-- `(v >> amt) & 0xff` -/
def byteAt (v : BitVec 64) (amt : Nat) : Nat :=
  ((v >>> amt) &&& 0xff#64).toNat

/-- `__medium_bin_get_offset` -/
def mediumBinGetOffset (blockOffs : BitVec 64) (idx : Nat) : Nat :=
  byteAt blockOffs (idx * 8) * mallocAlign

/-- `off | ((!off) << SLAB_SIZE_SHIFT)`: a zero offset byte means a whole slab -/
def adjOffset (off : Nat) : Nat :=
  if off = 0 then slabSize else off

/-- `__medium_bin_get_adj_offset` -/
def mediumBinGetAdjOffset (blockOffs : BitVec 64) (idx : Nat) : Nat :=
  if idx = 8 then slabSize else adjOffset (mediumBinGetOffset blockOffs idx)

/-- `medium_bin_block_size` -/
def mediumBinBlockSize (s idx : Nat) : HeapM Nat := do
  let blockOffs ← mediumBinOffsets s
  let offset := mediumBinGetOffset blockOffs idx
  let nextOff := if idx = 7 then 0 else mediumBinGetOffset blockOffs (idx + 1)
  if nextOff = 0 then do
    let offset := adjOffset offset
    let blockAlloc ← load8 (s + 15)
    if idx ≠ 7 && blockAlloc.testBit (idx + 1) then
      -- the next block is a large one that starts at the slab's end
      pure (slabSize - offset)
    else do
      let n ← largeSlabGetSize s
      pure (n * slabSize - offset)
  else pure (nextOff - offset)

/-- `medium_bin_find_block_pos`: the byte-wise comparison of all eight offsets
with the block's, and the index of the first match -/
def mediumBinFindBlockPos (s b : Nat) : HeapM Nat := do
  let offset := (b - s) / mallocAlign % 256
  let mem ← mediumBinOffsets s
  match (List.range 8).find? fun i => byteAt mem (8 * i) == offset with
  | some i => pure i
  | none => throw .assertion

/-- `__medium_bin_push_offset` -/
def mediumBinPushOffset (s afterIdx offset : Nat) : HeapM Unit := do
  mallocAssume (afterIdx < 7)
  let shiftAmt := afterIdx * 8
  let word ← load64 s
  let mem := BitVec.ofNat 64 word
  let keepMask := (0x100#64 <<< shiftAmt) - 1
  let moveMask := ~~~keepMask
  let newMem := (mem &&& keepMask) ||| ((BitVec.ofNat 64 offset <<< 4) <<< shiftAmt) |||
    ((mem &&& moveMask) <<< 8)
  store64 s newMem.toNat

/-- `__medium_bin_append_offset` -/
def mediumBinAppendOffset (s afterIdx offset : Nat) : HeapM Unit := do
  mallocAssume (afterIdx < 7)
  let shiftAmt := afterIdx * 8
  let word ← load64 s
  let mem := BitVec.ofNat 64 word
  let keepMask := (0x100#64 <<< shiftAmt) - 1
  store64 s ((mem &&& keepMask) ||| ((BitVec.ofNat 64 offset <<< 4) <<< shiftAmt)).toNat

/-- `__medium_bin_split_block` -/
def mediumBinSplitBlock (s afterIdx offset : Nat) : HeapM Unit := do
  mediumBinPushOffset s afterIdx offset
  let byte ← load8 (s + 15)
  let blockAlloc := BitVec.ofNat 8 byte
  let keepMask := BitVec.ofNat 8 ((2 <<< afterIdx) - 1)
  store8 (s + 15) ((blockAlloc &&& keepMask) ||| ((blockAlloc &&& ~~~keepMask) <<< 1)).toNat

/-- `__medium_bin_remove_offset` -/
def mediumBinRemoveOffset (s afterIdx : Nat) : HeapM Unit := do
  mallocAssume (afterIdx < 7)
  let shiftAmt := afterIdx * 8
  let word ← load64 s
  let mem := BitVec.ofNat 64 word
  let keepMask := (0x100#64 <<< shiftAmt) - 1
  let moveMask := ~~~keepMask
  store64 s ((mem &&& keepMask) ||| ((mem >>> 8) &&& moveMask)).toNat
  let byte ← load8 (s + 15)
  let blockAlloc := BitVec.ofNat 8 byte
  let bkeepMask := BitVec.ofNat 8 ((2 <<< afterIdx) - 1)
  store8 (s + 15) ((blockAlloc &&& bkeepMask) ||| ((blockAlloc >>> 1) &&& ~~~bkeepMask)).toNat

/-! ## Freeing a block -/

/-- The detection of a large block in `medium_bin_free`: when the block at
`idx` is a large one hanging over the edge of the first slab, its other slabs
are freed. Returns whether the next block is to be coalesced and the number of
slabs left. -/
def freeHangingSlabs (s idx : Nat) (mem : BitVec 64) (allocBits : BitVec 16)
    (nSlabs : Nat) : HeapM (Bool × Nat) := do
  let isNextFree := !allocBits.getLsbD (idx + 2)
  if nSlabs = 1 then
    pure (isNextFree && byteAt mem ((idx + 1) * 8) != 0, nSlabs)
  else do
    let offsetsAfter := mem >>> (8 * idx)
    if offsetsAfter = 0 ∨ (offsetsAfter >>> 8 = 0 ∧ allocBits.getLsbD (idx + 2) = false) then do
      largeSlabSetSize s 1
      _intFreeRemainderSlab (s + slabSize) (nSlabs - 1)
      setFlag (s + slabSize) 2
      pure (false, 1)
    else
      pure (isNextFree && byteAt mem ((idx + 1) * 8) != 0, nSlabs)

/-- The part of `medium_bin_free` after the check for a large block: the block at
`idx` is coalesced with the free blocks around it, as `isPrevFree` and
`isNextFree` say. `mem` and `blockAlloc` are the vectors read at the start. -/
def mediumBinCoalesce (s idx : Nat) (mem : BitVec 64) (blockAlloc : BitVec 8)
    (isPrevFree isNextFree : Bool) (nSlabs : Nat) : HeapM Unit := do
  let keepMask := (0x100#64 <<< (8 * idx)) - 1
  let moveMask := ~~~keepMask
  let allocKeepMask := BitVec.ofNat 8 ((2 <<< idx) - 1)
  let allocMoveMask := ~~~allocKeepMask
  -- the bit of the block at `idx` is always cleared
  let allocKeepMask := allocKeepMask >>> 1
  let keepMask := keepMask >>> (8 * isPrevFree.toNat)
  let allocKeepMask := allocKeepMask >>> isPrevFree.toNat
  let moveMask := moveMask <<< (8 * isNextFree.toNat)
  let allocMoveMask := allocMoveMask <<< isNextFree.toNat
  let shiftAmt := isPrevFree.toNat + isNextFree.toNat
  let offs := mediumBinMemToOffsets mem
  let startOffset := if isPrevFree then byteAt offs (8 * idx - 8) * mallocAlign
    else byteAt offs (8 * idx) * mallocAlign
  (if isPrevFree then mediumBinUnlink (s + startOffset) else pure ())
  (if isNextFree then
    mediumBinUnlink (s + byteAt offs (8 * idx + 8) * mallocAlign) else pure ())
  let endOffset := if isNextFree then byteAt offs (8 * idx + 16) * mallocAlign
    else byteAt offs (8 * idx + 8) * mallocAlign
  let startOffset := adjOffset startOffset
  let endOffset := adjOffset endOffset
  let newSize := endOffset - startOffset
  -- too small a remainder is merged with the block before it, allocated or not
  let tooSmall := newSize < minMediumBlockSz
  mallocAssert (!tooSmall || 0 < idx)
  let startOffset := if tooSmall then byteAt offs (8 * idx - 8) * mallocAlign else startOffset
  let keepMask := if tooSmall then keepMask >>> 8 else keepMask
  let insertFreeBlock := !(tooSmall && blockAlloc.getLsbD (idx - 1))
  (if tooSmall && !blockAlloc.getLsbD (idx - 1) then mediumBinUnlink (s + startOffset)
    else pure ())
  let mem := (mem &&& keepMask) ||| ((mem &&& moveMask) >>> (8 * shiftAmt))
  let blockAlloc := (blockAlloc &&& allocKeepMask) |||
    ((blockAlloc &&& allocMoveMask) >>> shiftAmt)
  if blockAlloc = 0 then
    _intFreeSlab s nSlabs
  else do
    (if insertFreeBlock then mediumBinLink (s + startOffset) (endOffset - startOffset)
      else pure ())
    store64 s mem.toNat
    store8 (s + 15) blockAlloc.toNat

/-- `medium_bin_free` -/
def mediumBinFree (s idx : Nat) : HeapM Unit := do
  let word ← load64 s
  let mem := BitVec.ofNat 64 word
  let byte ← load8 (s + 15)
  let blockAlloc := BitVec.ofNat 8 byte
  -- the blocks before the first and after the last are marked as allocated
  let allocBits := (blockAlloc.setWidth 16 <<< 1) ||| 0x201#16
  let isPrevFree := !allocBits.getLsbD idx
  let n ← largeSlabGetSize s
  let (isNextFree, nSlabs) ← freeHangingSlabs s idx mem allocBits n
  mediumBinCoalesce s idx mem blockAlloc isPrevFree isNextFree nSlabs

/-- `__int_large_block_free` -/
def _intLargeBlockFree (s ptr : Nat) : HeapM Unit := do
  let blkIdx ← mediumBinFindBlockPos s ptr
  mediumBinFree s blkIdx

/-! ## A new slab of blocks -/

/-- `__int_slab_init_large_and_alloc` -/
def _intSlabInitLargeAndAlloc (s nSlabs size : Nat) : HeapM Nat := do
  clearFlag s 4
  let word ← load64 s
  let blockOffs := word &&& 0xff
  mallocAssert (nSlabs < 2 ^ 52)
  if nSlabs = 1 then do
    mallocAssert (size ≤ maxMediumBlockSz)
    let freeOffset := size + largeSlabHeaderSize
    let freeSize := slabSize - freeOffset
    let blockOffs := if minMediumBlockSz ≤ freeSize
      then blockOffs ||| (((freeOffset / mallocAlign) &&& 0xff) <<< 8) else blockOffs
    (if minMediumBlockSz ≤ freeSize then mediumBinLink (s + freeOffset) freeSize else pure ())
    store64 s blockOffs
    store64 (s + 8) (nSlabs ||| (0x1 <<< 56))
    pure (s + largeSlabHeaderSize)
  else do
    mallocAssert (minLargeBlockSz ≤ size)
    let allocOffset := slabSize - size % slabSize
    let remainderSize := allocOffset - largeSlabHeaderSize
    if minMediumBlockSz ≤ remainderSize then do
      mediumBinLink (s + largeSlabHeaderSize) remainderSize
      store64 s (blockOffs ||| ((allocOffset &&& 0xff0) <<< 4))
      store64 (s + 8) (nSlabs ||| (0x2 <<< 56))
      pure (s + allocOffset)
    else do
      -- the large block fills the whole region
      store64 s blockOffs
      store64 (s + 8) (nSlabs ||| (0x1 <<< 56))
      pure (s + largeSlabHeaderSize)

/-! ## Finding a medium block -/

/-- What `__int_find_medium_block` does with the block `blk` of bin `binIdx`:
allocate `size` bytes of it and split off the rest if that is large enough. -/
def takeMediumBlock (size binIdx blk : Nat) : HeapM Unit := do
  mediumBinUnlink blk
  let s := blockGetSlab blk
  let blockPos ← mediumBinFindBlockPos s blk
  let blockSz := mediumBinIdxSize binIdx
  let remainder := blockSz - size
  if minMediumBlockSz ≤ remainder then do
    mediumBinLink (blk + size) remainder
    mediumBinPushOffset s blockPos (blk - s + size)
    let byte ← load8 (s + 15)
    let blockAlloc := BitVec.ofNat 8 byte
    let keepMask := BitVec.ofNat 8 ((1 <<< blockPos) - 1)
    store8 (s + 15) ((blockAlloc &&& keepMask) ||| BitVec.ofNat 8 (1 <<< blockPos) |||
      ((blockAlloc &&& ~~~keepMask) <<< 1)).toNat
  else do
    let byte ← load8 (s + 15)
    store8 (s + 15) (byte ||| (1 <<< blockPos))

/-- The `for (;;)` loop of `__int_find_medium_block`, with the current skiplist
word cached in `skiplist` and `mask`; `none` is `NULL`. -/
def findMediumScan (size : Nat) :
    Nat → Nat → Nat → BitVec 32 → BitVec 32 → HeapM (Option Nat)
  | 0, _, _, _, _ => throw .diverge
  | fuel + 1, skipIdx, binOffset, mask, skiplist =>
    if skiplist = 0 then do
      setMedSkiplist skipIdx (mask ||| skiplist)
      if skipIdx + 1 = mediumbinsSkiplistSz then pure none
      else do
        let h ← get
        findMediumScan size fuel (skipIdx + 1) (binOffset + 32) 0 (h.medSkiplist (skipIdx + 1))
    else do
      let h ← get
      let binIdx := binOffset + skiplist.ctz.toNat
      let blk ← load64 (mediumBin h.heap binIdx)
      if blk ≠ 0 then do
        takeMediumBlock size binIdx blk
        setMedSkiplist skipIdx (mask ||| skiplist)
        pure (some blk)
      else
        findMediumScan size fuel skipIdx binOffset mask (skiplist &&& (skiplist - 1))

/-- `__int_find_medium_block` -/
def _intFindMediumBlock (size : Nat) : HeapM (Option Nat) := do
  let binIdx := mediumBinIdx size
  let skipIdx := mediumBinSkiplistIdx binIdx
  let bitIdx := mediumBinSkiplistBit binIdx
  let h ← get
  let word := h.medSkiplist skipIdx
  let mask := ((1#32 <<< bitIdx) - 1) &&& word
  findMediumScan size (numMediumbins + mediumbinsSkiplistSz + 1) skipIdx (skipIdx * 32) mask
    (word ^^^ mask)

end MallocBench.Slab
