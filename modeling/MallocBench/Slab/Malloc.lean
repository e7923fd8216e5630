import MallocBench.Slab.Tiny
import MallocBench.Slab.Medium

/-!
# The entry points of `mm.c`: `malloc`, `calloc`, `free` and `realloc`

Sizes are the caller's 64-bit values; the roundings on the way to a block size
are the source's, in 64-bit arithmetic. `NULL` is 0.
-/

namespace MallocBench.Slab

/-! ## `malloc`, `calloc` and `free` -/

/-- The label `alloc_slab` of `__int_malloc`. -/
def mallocSlab (size : Nat) : HeapM Nat := do
  let nSlabs := reqSlabsForSize size
  let s ← _intAllocSlab nSlabs
  if isTinyBlockSize size then _intSlabInitPackedAndAlloc s size
  else _intSlabInitLargeAndAlloc s nSlabs size

/-- `__int_malloc` -/
def _intMalloc (size : Nat) : HeapM Nat := do
  if isTinyBlockSize size then do
    let size := adjTinySize size
    let found ← _intFindTinyBlock size
    match found with
    | some ptr => pure ptr
    | none => mallocSlab size
  else if isMediumBlockSize size then do
    let found ← _intFindMediumBlock size
    match found with
    | some ptr => pure ptr
    | none => mallocSlab size
  else mallocSlab size

def malloc (size : Nat) : HeapM Nat := do
  let h ← get
  mallocAssert (h.heap ≠ 0)
  let esize := alignUp size mallocAlign
  if esize = 0 then pure 0 else _intMalloc esize

def calloc (nmemb size : Nat) : HeapM Nat := do
  let h ← get
  mallocAssert (h.heap ≠ 0)
  let size := nmemb * size % 2 ^ 64
  let esize := alignUp size mallocAlign
  if esize = 0 then pure 0
  else do
    let ptr ← _intMalloc esize
    memsetZero ptr size
    pure ptr

/-- `__int_free` -/
def _intFree (ptr : Nat) : HeapM Unit := do
  let s := ptrGetSlab ptr
  let alloc ← slabIsAlloc s
  mallocAssert alloc
  let packed ← slabIsPacked s
  if packed then _intTinyBlockFree s ptr else _intLargeBlockFree s ptr

def free (ptr : Nat) : HeapM Unit := do
  let h ← get
  if ptr = 0 then pure ()
  else do
    mallocAssert (h.heap ≠ 0)
    _intFree ptr

/-! ## `realloc` -/

/-- The malloc-copy-free sequences of `__int_realloc`: `copySize` bytes are
copied and `release` frees the old block. -/
def reallocMove (ptr size copySize : Nat) (release : HeapM Unit) : HeapM Nat := do
  let newPtr ← _intMalloc size
  (if newPtr ≠ 0 then memcpy newPtr ptr copySize else pure ())
  release
  pure newPtr

/-- The packed-slab part of `__int_realloc`. -/
def reallocPacked (s ptr size : Nat) : HeapM Nat := do
  let szClass ← load8 (s + 1)
  let blkSize := szClassToSize szClass
  if isTinyBlockSize size ∧ adjTinySize size = blkSize then pure ptr
  else
    reallocMove ptr size (min size blkSize)
      (if szClass = 0 then _packedFree16 s ptr
      else if szClass = 1 then _packedFree32 s ptr
      else if szClass = 2 then _packedFree48 s ptr
      else _packedFree s ptr szClass)

/-- `__int_realloc` of a large block to more than its size. -/
def reallocLargeGrow (s ptr size blkSize : Nat) : HeapM Nat := do
  let remainder := size - blkSize
  let deadweight := alignUp remainder slabSize - remainder
  let move := reallocMove ptr size blkSize (_intLargeBlockFree s ptr)
  if deadweight ≤ reallocMaxDeadweight then do
    let reqNSlabs := (remainder + (slabSize - 1)) % 2 ^ 64 / slabSize
    let sSize ← largeSlabGetSize s
    let nextSlab := s + slabSize * sSize
    let h ← get
    if nextSlab = h.heapEnd then do
      let ext ← memSbrk (slabSize * reqNSlabs)
      mallocAssert (ext = h.heapEnd)
      modify fun t => { t with heapEnd := t.heapEnd + slabSize * reqNSlabs }
      largeSlabSetSize s (sSize + reqNSlabs)
      pure ptr
    else do
      let free ← slabIsFree nextSlab
      let numSlabs ← load64 (nextSlab + 24)
      if free ∧ reqNSlabs ≤ numSlabs then do
        largeSlabSetSize s (sSize + reqNSlabs)
        _intTakeSlab nextSlab reqNSlabs
        pure ptr
      else move
  else move

/-- `__int_realloc` of a large block that becomes a medium one: all slabs after
the first are freed. -/
def reallocLargeToMedium (s ptr size blkIdx blkSize : Nat) : HeapM Nat := do
  let blkHangover := blkSize % slabSize
  let blkOffset := slabSize - blkHangover
  _intFreeRemainderSlab (s + slabSize) (reqSlabsForSize blkSize - 1)
  setFlag (s + slabSize) 2
  largeSlabSetSize s 1
  if minMediumBlockSz ≤ blkHangover - size then do
    let newOffset := blkOffset + size
    mediumBinAppendOffset s blkIdx newOffset
    mediumBinLink (s + newOffset) (slabSize - newOffset)
    pure ptr
  else pure ptr

/-- `__int_realloc` of a large block with little deadweight: the block stays
and the slabs it no longer needs are freed. -/
def reallocLargeKeep (s ptr size blkSize : Nat) : HeapM Nat := do
  let slabsToFree := (blkSize - size) / slabSize
  let newNSlabs := reqSlabsForSize size
  let n ← largeSlabGetSize s
  mallocAssert (newNSlabs + slabsToFree = n)
  _intFreeRemainderSlab (s + slabSize * newNSlabs) slabsToFree
  setFlag (s + slabSize * newNSlabs) 2
  largeSlabSetSize s newNSlabs
  pure ptr

/-- `__int_realloc` of a large block to at most its size. -/
def reallocLargeShrink (s ptr size blkIdx blkSize : Nat) : HeapM Nat := do
  let remainder := blkSize - size
  if size ≤ blkSize % slabSize then reallocLargeToMedium s ptr size blkIdx blkSize
  else if remainder % slabSize ≤ reallocMaxDeadweight then
    reallocLargeKeep s ptr size blkSize
  else if reallocMaxDeadweight < remainder then
    reallocMove ptr size size (_intLargeBlockFree s ptr)
  else pure ptr

/-- `__int_realloc` of a medium block to at most its size. -/
def reallocMediumShrink (s ptr size blkIdx blkSize : Nat) : HeapM Nat := do
  let offsets ← mediumBinOffsets s
  let blkOff := mediumBinGetOffset offsets blkIdx
  let nextOff := mediumBinGetOffset offsets (blkIdx + 1)
  let blockAlloc ← load8 (s + 15)
  if nextOff ≠ slabSize ∧ blockAlloc.testBit (blkIdx + 1) = false then do
    let nextEnd := mediumBinGetAdjOffset offsets (blkIdx + 2)
    store8 (s + 1 + blkIdx) ((blkOff + size) / mallocAlign)
    mediumBinUnlink (s + nextOff)
    mediumBinLink (s + blkOff + size) (nextEnd - (blkOff + size))
    pure ptr
  else do
    let remainder := blkSize - size
    if minMediumBlockSz ≤ remainder then do
      let offset := ptr - s + size
      mediumBinSplitBlock s blkIdx offset
      mediumBinLink (s + offset) remainder
      pure ptr
    else pure ptr

/-- `__int_realloc` of a medium block to more than its size. -/
def reallocMediumGrow (s ptr size blkIdx blkSize : Nat) : HeapM Nat := do
  let move := reallocMove ptr size blkSize (_intLargeBlockFree s ptr)
  if size ≤ maxMediumBlockSz then do
    let offsets ← mediumBinOffsets s
    let nextOff := mediumBinGetOffset offsets (blkIdx + 1)
    let remainder := size - blkSize
    let nextSize := mediumBinGetAdjOffset offsets (blkIdx + 2) - nextOff
    let blockAlloc ← load8 (s + 15)
    if nextOff ≠ 0 ∧ blockAlloc.testBit (blkIdx + 1) = false ∧ remainder ≤ nextSize then do
      mediumBinUnlink (s + nextOff)
      if nextSize - remainder < minMediumBlockSz then do
        mediumBinRemoveOffset s blkIdx
        pure ptr
      else do
        store8 (s + 1 + blkIdx) ((nextOff + remainder) / mallocAlign)
        mediumBinLink (s + nextOff + remainder) (nextSize - remainder)
        pure ptr
    else move
  else move

/-- `__int_realloc` -/
def _intRealloc (ptr size : Nat) : HeapM Nat := do
  let s := ptrGetSlab ptr
  let packed ← slabIsPacked s
  if packed then reallocPacked s ptr size
  else if size < minMediumBlockSz then
    reallocMove ptr size size (_intLargeBlockFree s ptr)
  else do
    let blkIdx ← mediumBinFindBlockPos s ptr
    let blkSize ← mediumBinBlockSize s blkIdx
    if minLargeBlockSz ≤ blkSize then
      if blkSize < size then reallocLargeGrow s ptr size blkSize
      else reallocLargeShrink s ptr size blkIdx blkSize
    else if size ≤ blkSize then reallocMediumShrink s ptr size blkIdx blkSize
    else reallocMediumGrow s ptr size blkIdx blkSize

def realloc (ptr size : Nat) : HeapM Nat := do
  let h ← get
  mallocAssert (h.heap ≠ 0)
  let esize := alignUp size mallocAlign
  if ptr = 0 then
    if esize = 0 then pure 0 else _intMalloc esize
  else if esize = 0 then do
    _intFree ptr
    pure 0
  else _intRealloc ptr esize

end MallocBench.Slab
