import MallocBench.Slab.Tiny
import MallocBench.Slab.Medium

/-!
# The heap checker of `mm.c`

`mm_checkheap` as it is compiled with `DEFINE_CHECKS`: a walk over all slabs
that counts what the bins should hold, then walks over the slab, small and
medium bins. Every `MALLOC_ASSERT` of the source is a `mallocAssert` here.
-/

namespace MallocBench.Slab

/-- The local arrays `free_slab_cnts`, `smallbin_cnts`, `mediumbin_cnts` and the
local `last_slab_is_alloc`. -/
structure CheckCounts where
  freeSlab : Nat → Nat
  smallbin : Nat → Nat
  mediumbin : Nat → Nat
  lastSlabIsAlloc : Bool

/-- `cnts[i]++` -/
def bumpCnt (cnts : Nat → Nat) (i : Nat) : Nat → Nat :=
  Function.update cnts i (cnts i + 1)

/-- `__builtin_popcountl` -/
def popcount (w : Nat) : Nat :=
  (List.range 64).countP fun i => w.testBit i

/-- `next_adj == h->heap_end || (next_adj->flags & SLAB_PREV_ALLOC_BIT)`, or with
the bit clear for `expected = false` -/
def checkNextPrevAlloc (s : Nat) (expected : Bool) : HeapM Unit := do
  let nextAdj ← nextAdjSlab s
  let h ← get
  if nextAdj = h.heapEnd then pure ()
  else do
    let flags ← load8 nextAdj
    mallocAssert (flags.testBit 1 == expected)

/-! ## Slabs -/

/-- A free slab in the slab walk. -/
def checkFreeSlab (s : Nat) (c : CheckCounts) : HeapM CheckCounts := do
  let n ← slabGetSize s
  mallocAssert (0 < n)
  let footer ← load64 (s + slabSize * n - 8)
  mallocAssert (n = footer)
  let flags ← load8 s
  mallocAssert (flags.testBit 1)
  checkNextPrevAlloc s false
  pure { c with freeSlab := bumpCnt c.freeSlab (slabBinIdx n), lastSlabIsAlloc := false }

/-- The level-1 bit of word `i` of a two-level vector is set iff the word is not
zero. -/
def checkL1Bit (s f1 i : Nat) : HeapM Unit := do
  let f2 ← load16 (s + 24 + 2 * i)
  mallocAssert (f1.testBit i ^^ decide (f2 = 0))

/-- The number of set bits of the `words` 64-bit words from `a` on. -/
def popcountWords (a : Nat) : Nat → HeapM Nat
  | 0 => pure 0
  | words + 1 => do
    let w ← load64 a
    let rest ← popcountWords (a + 8) words
    pure (popcount w + rest)

/-- The two-level vectors of a packed slab with `lanes` 16-bit words (`words`
64-bit words) and `bits` blocks: the number of allocated blocks and whether
there is free space. -/
def checkPacked2lvl (s lanes words bits : Nat) : HeapM (Nat × Bool) := do
  let f1 ← load16 (s + 4)
  (List.range lanes).forM (checkL1Bit s f1)
  let free ← popcountWords (s + 24) words
  pure (bits - free, f1 != 0)

/-- The bits of `w` from bit `n` on are clear. -/
def checkHighBits (w n : Nat) : HeapM Unit :=
  mallocAssert (BitVec.ofNat 64 w &&& ~~~((1#64 <<< n) - 1) = 0)

/-- A packed slab in the slab walk. -/
def checkPackedSlab (s : Nat) (c : CheckCounts) : HeapM CheckCounts := do
  let blockSz ← packedSlabBlockSize s
  checkNextPrevAlloc s true
  let (cnt, hasFreeSpace) ← (if blockSz = 16 then checkPacked2lvl s 16 4 252
    else if blockSz = 32 then checkPacked2lvl s 8 2 126
    else if blockSz = 48 then do
      let r ← checkPacked2lvl s 6 2 84
      let w ← load64 (s + 32)
      checkHighBits w ((slabSize - 48) / 48 - 64)
      pure r
    else do
      let w ← load64 (s + 24)
      checkHighBits w (packedSlabNBlocks blockSz)
      pure (packedSlabNBlocks blockSz - popcount w, BitVec.ofNat 64 w != 0))
  let allocCnt ← load16 (s + 2)
  mallocAssert (cnt = allocCnt)
  let smallbin := if hasFreeSpace then bumpCnt c.smallbin (packedBinIdx blockSz) else c.smallbin
  pure { c with smallbin := smallbin, lastSlabIsAlloc := true }

/-- `s->block_offs[idx]` -/
def blockOffsAt (s idx : Nat) : HeapM Nat := load8 (s + 1 + idx)

/-- `idx == 0 ? LARGE_SLAB_HEADER_SIZE : s->block_offs[idx - 1] * MALLOC_ALIGN` -/
def checkBlockOffset (s idx : Nat) : HeapM Nat :=
  if idx = 0 then pure largeSlabHeaderSize
  else do
    let b ← blockOffsAt s (idx - 1)
    pure (b * mallocAlign)

/-- `s->block_offs[idx] == 0` -/
def checkOffsZero (s idx : Nat) : HeapM Unit := do
  let b ← blockOffsAt s idx
  mallocAssert (b = 0)

/-- The last block of the block walk over a large slab. -/
def checkLastBlock (s n blockAlloc idx : Nat) (c : CheckCounts) : HeapM CheckCounts := do
  mallocAssert (1 < n || idx == 7 || !blockAlloc.testBit (idx + 1))
  mallocAssert (n == 1 || blockAlloc.testBit idx || blockAlloc.testBit (idx + 1))
  let mediumbin ← (if blockAlloc.testBit idx then pure c.mediumbin
    else do
      let offset ← checkBlockOffset s idx
      if n == 1 || blockAlloc.testBit (idx + 1) then
        pure (bumpCnt c.mediumbin (mediumBinIdx (slabSize - offset)))
      else do
        -- the rest of the alloc bits must be clear after this point
        mallocAssert (BitVec.ofNat 8 blockAlloc &&& ~~~(BitVec.ofNat 8 ((2 <<< idx) - 1)) = 0)
        pure c.mediumbin)
  ((List.range 7).drop (idx + 1)).forM (checkOffsZero s)
  pure { c with mediumbin := mediumbin, lastSlabIsAlloc := true }

/-- The block walk over a large slab, from index `idx` on. -/
def checkBlocks (s n blockAlloc : Nat) : Nat → Nat → CheckCounts → HeapM CheckCounts
  | 0, _, _ => throw .diverge
  | fuel + 1, idx, c => do
    let nextByte ← (if idx = 7 then pure 0 else blockOffsAt s idx)
    if nextByte = 0 then checkLastBlock s n blockAlloc idx c
    else do
      let offset ← checkBlockOffset s idx
      let nextOff := nextByte * mallocAlign
      mallocAssert (offset < nextOff)
      -- no two adjacent free blocks
      mallocAssert (blockAlloc.testBit idx || blockAlloc.testBit (idx + 1))
      let mediumbin := if blockAlloc.testBit idx then c.mediumbin
        else bumpCnt c.mediumbin (mediumBinIdx (nextOff - offset))
      checkBlocks s n blockAlloc fuel (idx + 1) { c with mediumbin := mediumbin }

/-- A slab that is neither free nor packed in the slab walk. -/
def checkLargeSlab (s : Nat) (c : CheckCounts) : HeapM CheckCounts := do
  checkNextPrevAlloc s true
  let n ← largeSlabGetSize s
  let blockAlloc ← load8 (s + 15)
  checkBlocks s n blockAlloc 8 0 c

def checkSlab (s : Nat) (c : CheckCounts) : HeapM CheckCounts := do
  let free ← slabIsFree s
  if free then checkFreeSlab s c
  else do
    let packed ← slabIsPacked s
    if packed then checkPackedSlab s c else checkLargeSlab s c

/-- The walk from `heap_start` to `heap_end`. -/
def checkSlabs : Nat → Nat → CheckCounts → HeapM CheckCounts
  | 0, _, _ => throw .diverge
  | fuel + 1, s, c => do
    let h ← get
    if s = h.heapEnd then pure c
    else do
      let c ← checkSlab s c
      let next ← nextAdjSlab s
      checkSlabs fuel next c

/-! ## Bins -/

/-- The loop over a bin from `x` on, up to the node `stop`: `next` is the cell with
the next node, `member` makes the assertions about a node and its predecessor.
Returns the length. -/
def checkBinWalk (stop : Nat) (next : Nat → Nat) (member : Nat → Nat → HeapM Unit) :
    Nat → Nat → Nat → Nat → HeapM Nat
  | 0, _, _, _ => throw .diverge
  | fuel + 1, prev, x, cnt =>
    if x = stop then pure cnt
    else do
      member prev x
      -- don't expect more than 1000000 nodes in any bin, likely a loop
      mallocAssert (cnt + 1 < 1000000)
      let y ← load64 (next x)
      checkBinWalk stop next member fuel x y (cnt + 1)

/-- The assertions about one member `s` of slab bin `binIdx`, after `prevSlab`. -/
def checkSlabBinMember (binStart binIdx prevSlab s : Nat) : HeapM Unit := do
  let prev ← load64 (s + 16)
  mallocAssert (prev = prevSlab)
  let free ← slabIsFree s
  mallocAssert free
  let n ← load64 (s + 24)
  mallocAssert (slabBinIdx n = binIdx)
  if binIdx = numSlabBins - 1 ∧ prevSlab ≠ binStart then do
    let prevN ← load64 (prevSlab + 24)
    mallocAssert (prevN ≤ n)
  else pure ()

/-- The walk over slab bin `binIdx`. -/
def checkSlabBinWalk (binStart binIdx : Nat) : Nat → Nat → Nat → Nat → HeapM Nat :=
  checkBinWalk binStart (· + 8) (checkSlabBinMember binStart binIdx)

def checkSlabBin (c : CheckCounts) (binIdx : Nat) : HeapM Unit := do
  let h ← get
  let bin := slabBin h.heap binIdx
  let head ← load64 bin
  let cnt ← checkSlabBinWalk (slabBinStart bin) binIdx h.walkFuel (slabBinStart bin) head 0
  mallocAssert (c.freeSlab binIdx = cnt)
  let marked := (h.slabSkiplist (slabBinSkiplistIdx binIdx)).getLsbD (slabBinSkiplistBit binIdx)
  if binIdx = numSlabBins - 1 then mallocAssert (!marked)
  else mallocAssert (cnt == 0 || marked)

/-- The assertions about one member `s` of small bin `binIdx`, after `prevSlab`. -/
def checkSmallBinMember (binIdx prevSlab s : Nat) : HeapM Unit := do
  let prev ← load64 (s + 16)
  mallocAssert (prev = prevSlab)
  let packed ← slabIsPacked s
  mallocAssert packed
  let size ← packedSlabBlockSize s
  mallocAssert (packedBinIdx size = binIdx)
  let allocCnt ← load16 (s + 2)
  mallocAssert (allocCnt != 0)
  if size = 16 ∨ size = 32 ∨ size = 48 then do
    let f1 ← load16 (s + 4)
    mallocAssert (f1 != 0)
  else do
    let f ← load64 (s + 24)
    mallocAssert (BitVec.ofNat 64 f != 0)

/-- The walk over small bin `binIdx`. -/
def checkSmallBinWalk (binIdx : Nat) : Nat → Nat → Nat → Nat → HeapM Nat :=
  checkBinWalk 0 (· + 8) (checkSmallBinMember binIdx)

def checkSmallBin (c : CheckCounts) (binIdx : Nat) : HeapM Unit := do
  let h ← get
  let bin := smallBin h.heap binIdx
  let head ← load64 bin
  let cnt ← checkSmallBinWalk binIdx h.walkFuel (smallBinStart bin) head 0
  mallocAssert (c.smallbin binIdx = cnt)

/-- The assertions about one member `b` of medium bin `binIdx`, after `prevB`. -/
def checkMediumBinMember (binIdx prevB b : Nat) : HeapM Unit := do
  let prev ← load64 (b + 8)
  mallocAssert (prev = prevB)
  let s := blockGetSlab b
  let blockIdx ← mediumBinFindBlockPos s b
  let size ← mediumBinBlockSize s blockIdx
  mallocAssert (mediumBinIdx size = binIdx)
  let blockAlloc ← load8 (s + 15)
  mallocAssert (blockAlloc != 0)

/-- The walk over medium bin `binIdx`. -/
def checkMediumBinWalk (binIdx : Nat) : Nat → Nat → Nat → Nat → HeapM Nat :=
  checkBinWalk 0 id (checkMediumBinMember binIdx)

def checkMediumBin (c : CheckCounts) (binIdx : Nat) : HeapM Unit := do
  let h ← get
  let bin := mediumBin h.heap binIdx
  let head ← load64 bin
  -- a slab has at most eight blocks
  let cnt ← checkMediumBinWalk binIdx (8 * h.walkFuel) (mediumBinStart bin) head 0
  mallocAssert (c.mediumbin binIdx = cnt)
  let marked :=
    (h.medSkiplist (mediumBinSkiplistIdx binIdx)).getLsbD (mediumBinSkiplistBit binIdx)
  mallocAssert (cnt == 0 || marked)

def mmCheckheap : HeapM Bool := do
  let h ← get
  let c ← checkSlabs h.walkFuel (heapStart h.heap)
    ⟨fun _ => 0, fun _ => 0, fun _ => 0, true⟩
  mallocAssert (c.lastSlabIsAlloc == (h.flags &&& 1 != 0))
  (List.range numSlabBins).forM (checkSlabBin c)
  (List.range numSmallbins).forM (checkSmallBin c)
  (List.range numMediumbins).forM (checkMediumBin c)
  pure true

end MallocBench.Slab
