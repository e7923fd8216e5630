import MallocBench.Slab.Heap

/-!
# The slab layer of `mm.c`

Allocation and release of runs of whole slabs: the header fields shared by all
slabs, the segregated bins of free slabs with their skiplist, `mm_init`,
`__int_take_slab`, `__int_alloc_slab`, `__int_free_remainder_slab` and
`__int_free_slab`, statement by statement. Loops over memory carry a fuel
argument; running out of it is `Fault.diverge`.

Field offsets of `struct slab`: `flags` 0, `next` and `next_p` 8, `prev` and
`prev_p` 16, `num_slabs` 24, `offset` 8, `block_alloc` 15.
-/

namespace MallocBench.Slab

/-! ## Header fields -/

/-- `SLAB_ALLOC_BIT` is bit 0 of `flags` -/
def slabIsAlloc (s : Nat) : HeapM Bool := do
  let flags ← load8 s
  pure (flags.testBit 0)

def slabIsFree (s : Nat) : HeapM Bool := do
  let b ← slabIsAlloc s
  pure !b

/-- `SLAB_PACKED_BIT` is bit 2 of `flags` -/
def slabIsPacked (s : Nat) : HeapM Bool := do
  let flags ← load8 s
  pure (flags.testBit 2)

/-- `ptr_get_slab` -/
def ptrGetSlab (ptr : Nat) : Nat :=
  alignDown (ptr - mallocAlign) slabSize

/-- `block_get_slab` -/
def blockGetSlab (b : Nat) : Nat :=
  alignDown b slabSize

/-- `s->flags |= bit` -/
def setFlag (s bit : Nat) : HeapM Unit := do
  let flags ← load8 s
  store8 s (flags ||| bit)

/-- `s->flags &= ~bit` -/
def clearFlag (s bit : Nat) : HeapM Unit := do
  let flags ← load8 s
  store8 s (flags &&& (0xff ^^^ bit))

/-- `slab_bin_idx`: `n_slabs - 1` is unsigned, so 0 slabs give the last bin -/
def slabBinIdx (nSlabs : Nat) : Nat :=
  if nSlabs = 0 then numSlabBins - 1 else min (nSlabs - 1) (numSlabBins - 1)

/-- `slab_bin_idx_small` -/
def slabBinIdxSmall (nSlabs : Nat) : Nat :=
  (nSlabs - 1) % 256

/-- `slab_bin_skiplist_idx` -/
def slabBinSkiplistIdx (binIdx : Nat) : Nat :=
  binIdx / 32

/-- `slab_bin_skiplist_bit` -/
def slabBinSkiplistBit (binIdx : Nat) : Nat :=
  binIdx % 32

/-- `req_slabs_for_size` -/
def reqSlabsForSize (size : Nat) : Nat :=
  alignUp (size + largeSlabHeaderSize) slabSize / slabSize

/-- `large_slab_get_size` -/
def largeSlabGetSize (s : Nat) : HeapM Nat := do
  let offset ← load64 (s + 8)
  pure (offset &&& 0x00ffffffffffffff)

/-- `large_slab_set_size` -/
def largeSlabSetSize (s size : Nat) : HeapM Unit := do
  let blockAlloc ← load8 (s + 15)
  store64 (s + 8) ((blockAlloc <<< 0x38) ||| size)

/-- `slab_get_size` -/
def slabGetSize (s : Nat) : HeapM Nat := do
  let free ← slabIsFree s
  if free then load64 (s + 24)
  else do
    let packed ← slabIsPacked s
    if packed then pure 1 else largeSlabGetSize s

/-- `next_adj_slab` -/
def nextAdjSlab (s : Nat) : HeapM Nat := do
  let n ← slabGetSize s
  pure (s + slabSize * n)

/-- `prev_adj_slab` -/
def prevAdjSlab (s : Nat) : HeapM Nat := do
  let footer ← load64 (s - 8)
  pure (s - slabSize * footer)

/-! ## Slab bins -/

/-- `__slab_bin_start`: the bin, placed so that its `head` is the `next` field
of a slab and its `tail` the `prev` field -/
def slabBinStart (slabBin : Nat) : Nat := slabBin - 8

/-- `__slab_link` -/
def _slabLink (slabBin s : Nat) : HeapM Unit := do
  let prev ← load64 (slabBin + 8)
  let next := slabBinStart slabBin
  store64 (s + 8) next
  store64 (s + 16) prev
  store64 (slabBin + 8) s
  store64 (prev + 8) s

/-- The walk of `__slab_link_large`, from the tail of the bin towards its
start, past all regions of more than `nSlabs` slabs. -/
def slabLinkLargeWalk (binStart nSlabs : Nat) : Nat → Nat → Nat → HeapM (Nat × Nat)
  | 0, _, _ => throw .diverge
  | fuel + 1, next, prev =>
    if prev = binStart then pure (next, prev)
    else do
      let numSlabs ← load64 (prev + 24)
      if nSlabs < numSlabs then do
        let prev' ← load64 (prev + 16)
        slabLinkLargeWalk binStart nSlabs fuel prev prev'
      else pure (next, prev)

/-- A walk over a bin visits every slab of the heap at most once. -/
def Heap.walkFuel (h : Heap) : Nat :=
  (h.heapEnd - h.heap) / slabSize + 1

/-- `__slab_link_large` -/
def _slabLinkLarge (slabBin s nSlabs : Nat) : HeapM Unit := do
  let h ← get
  let tail ← load64 (slabBin + 8)
  let binStart := slabBinStart slabBin
  let (next, prev) ← slabLinkLargeWalk binStart nSlabs h.walkFuel binStart tail
  store64 (s + 8) next
  store64 (s + 16) prev
  store64 (next + 16) s
  store64 (prev + 8) s

/-- `h->slab_skiplist[skip_idx] = v` -/
def setSlabSkiplist (skipIdx : Nat) (v : BitVec 32) : HeapM Unit :=
  modify fun h => { h with slabSkiplist := Function.update h.slabSkiplist skipIdx v }

/-- `h->slab_skiplist[..] |= (1U << ..)` for the bit of bin `bin_idx` -/
def markSlabSkiplist (binIdx : Nat) : HeapM Unit := do
  let h ← get
  let skipIdx := slabBinSkiplistIdx binIdx
  let bitIdx := slabBinSkiplistBit binIdx
  setSlabSkiplist skipIdx (h.slabSkiplist skipIdx ||| (1#32 <<< bitIdx))

/-- `slab_link_small` -/
def slabLinkSmall (s nSlabs : Nat) : HeapM Unit := do
  let h ← get
  let binIdx := slabBinIdxSmall nSlabs
  _slabLink (slabBin h.heap binIdx) s
  markSlabSkiplist binIdx

/-- `slab_link` -/
def slabLink (s size : Nat) : HeapM Unit := do
  let h ← get
  let binIdx := slabBinIdx size
  if size ≤ maxSegSlabSz then do
    _slabLink (slabBin h.heap binIdx) s
    markSlabSkiplist binIdx
  else
    _slabLinkLarge (slabBin h.heap (numSlabBins - 1)) s size

/-- `slab_unlink` -/
def slabUnlink (s : Nat) : HeapM Unit := do
  let next ← load64 (s + 8)
  let prev ← load64 (s + 16)
  store64 (prev + 8) next
  store64 (next + 16) prev

/-! ## `mm_init` -/

/-- The loop body of `mm_init`. -/
def initSlabBin (h i : Nat) : HeapM Unit := do
  let start := slabBinStart (slabBin h i)
  store64 (slabBin h i) start
  store64 (slabBin h i + 8) start

def mmInit : HeapM Bool := do
  let h ← memSbrk slabSize
  (List.range numSlabBins).forM (initSlabBin h)
  -- the memset covers `smallbins`, `mediumbins` and both skiplists
  modify fun s => { s with
    mem := zeroRange s.mem (smallBin h 0) 2024
    slabSkiplist := fun _ => 0
    medSkiplist := fun _ => 0
    heapEnd := heapStart h
    flags := 1
    heap := h }
  pure true

/-! ## Taking slabs -/

/-- The exact-fit tail shared by `__int_take_slab` and `__int_alloc_slab`: the
slab after the taken ones, or the heap if there is none, learns that its
predecessor is allocated. -/
def markNextPrevAlloc (s sSize : Nat) : HeapM Unit := do
  let h ← get
  let nextSlab := s + slabSize * sSize
  if nextSlab = h.heapEnd then
    set { h with flags := h.flags ||| 1 }
  else
    setFlag nextSlab 2

/-- The inexact-fit tail shared by `__int_take_slab` and `__int_alloc_slab`:
what is left behind the first `nSlabs` slabs becomes a free region, linked by
`link`. -/
def linkRemainder (link : Nat → Nat → HeapM Unit) (s sSize nSlabs : Nat) : HeapM Unit := do
  let rem := s + slabSize * nSlabs
  store8 rem 2
  link rem (sSize - nSlabs)
  store64 (rem + 24) (sSize - nSlabs)
  store64 (s + slabSize * sSize - 8) (sSize - nSlabs)

/-- `__int_take_slab` -/
def _intTakeSlab (s nSlabs : Nat) : HeapM Unit := do
  let sSize ← load64 (s + 24)
  mallocAssert (nSlabs ≤ sSize)
  slabUnlink s
  if sSize = nSlabs then markNextPrevAlloc s sSize
  else linkRemainder slabLink s sSize nSlabs

/-- The exact-fit case of `__int_alloc_slab`. -/
def allocExact (s sSize : Nat) : HeapM Unit := do
  slabUnlink s
  setFlag s 1
  markNextPrevAlloc s sSize

/-- The inexact-fit case of `__int_alloc_slab`. -/
def allocSplit (link : Nat → Nat → HeapM Unit) (s sSize nSlabs : Nat) : HeapM Unit := do
  slabUnlink s
  setFlag s 1
  linkRemainder link s sSize nSlabs

/-- The `for (;;)` loop of `__int_alloc_slab` over the exact-size bins. The
local copy `skiplist` of the current skiplist word loses the bits of bins found
empty; `mask` holds the bits of the word that are kept as they are. -/
def allocSlabScan (nSlabs reqBinIdx : Nat) :
    Nat → Nat → Nat → BitVec 32 → BitVec 32 → HeapM (Option Nat)
  | 0, _, _, _, _ => throw .diverge
  | fuel + 1, skipIdx, binOffset, mask, skiplist =>
    if skiplist = 0 then do
      setSlabSkiplist skipIdx (mask ||| skiplist)
      if skipIdx + 1 = slabBinsSkiplistSz then pure none
      else do
        let h ← get
        allocSlabScan nSlabs reqBinIdx fuel (skipIdx + 1) (binOffset + 32) 0
          (h.slabSkiplist (skipIdx + 1))
    else do
      let h ← get
      let binIdx := binOffset + skiplist.ctz.toNat
      let s ← load64 (slabBin h.heap binIdx)
      let sSize := binIdx + 1
      if s ≠ slabBinStart (slabBin h.heap binIdx) then
        if binIdx = reqBinIdx then do
          allocExact s sSize
          pure (some s)
        else if nSlabs < sSize then do
          setSlabSkiplist skipIdx (mask ||| skiplist)
          allocSplit slabLinkSmall s sSize nSlabs
          pure (some s)
        else allocSlabScan nSlabs reqBinIdx fuel skipIdx binOffset mask skiplist
      else
        allocSlabScan nSlabs reqBinIdx fuel skipIdx binOffset mask (skiplist &&& (skiplist - 1))

/-- The part of `__int_alloc_slab` for requests that have a bin of their own. -/
def allocSlabSmall (nSlabs : Nat) : HeapM (Option Nat) := do
  let reqBinIdx := slabBinIdx nSlabs
  let skipIdx := slabBinSkiplistIdx reqBinIdx
  let bitIdx := slabBinSkiplistBit reqBinIdx
  let h ← get
  let word := h.slabSkiplist skipIdx
  let mask := ((1#32 <<< bitIdx) - 1) &&& word
  let found ← allocSlabScan nSlabs reqBinIdx (numSlabBins + slabBinsSkiplistSz + 1) skipIdx
    (skipIdx * 32) mask (word ^^^ mask)
  match found with
  | some s => pure (some s)
  | none => do
    -- now to check the large slab bin
    let bin := slabBin h.heap (numSlabBins - 1)
    let s ← load64 bin
    if s ≠ slabBinStart bin then do
      let sSize ← load64 (s + 24)
      allocSplit slabLink s sSize nSlabs
      pure (some s)
    else pure none

/-- The `for` loop of `__int_alloc_slab` over the last bin. -/
def allocSlabLarge (binStart nSlabs : Nat) : Nat → Nat → HeapM (Option Nat)
  | 0, _ => throw .diverge
  | fuel + 1, s =>
    if s = binStart then pure none
    else do
      let sSize ← load64 (s + 24)
      if sSize = nSlabs then do
        allocExact s sSize
        pure (some s)
      else if nSlabs < sSize then do
        allocSplit slabLink s sSize nSlabs
        pure (some s)
      else do
        let next ← load64 (s + 8)
        allocSlabLarge binStart nSlabs fuel next

/-- The end of `__int_alloc_slab`: no region fits, extend the heap. -/
def allocSlabExtend (nSlabs : Nat) : HeapM Nat := do
  let h ← get
  if h.flags &&& 1 = 0 then do
    -- the last slab is free, so only extend it to the desired length
    let last ← prevAdjSlab h.heapEnd
    slabUnlink last
    let sSize ← load64 (last + 24)
    mallocAssert (sSize < nSlabs)
    let rem := nSlabs - sSize
    let ext ← memSbrk (slabSize * rem)
    mallocAssert (ext = h.heapEnd)
    setFlag last 1
    modify fun t => { t with heapEnd := t.heapEnd + slabSize * rem, flags := t.flags ||| 1 }
    pure last
  else do
    let ext ← memSbrk (slabSize * nSlabs)
    mallocAssert (ext = h.heapEnd)
    let last := h.heapEnd
    store8 last 3
    modify fun t => { t with heapEnd := t.heapEnd + slabSize * nSlabs, flags := t.flags ||| 1 }
    pure last

/-- `__int_alloc_slab` -/
def _intAllocSlab (nSlabs : Nat) : HeapM Nat := do
  let h ← get
  let found ← (if nSlabs ≤ maxSegSlabSz then allocSlabSmall nSlabs
    else do
      let bin := slabBin h.heap (numSlabBins - 1)
      let s ← load64 bin
      allocSlabLarge (slabBinStart bin) nSlabs h.walkFuel s)
  match found with
  | some s => pure s
  | none => allocSlabExtend nSlabs

/-! ## Giving slabs back -/

/-- The common end of `__int_free_remainder_slab` and `__int_free_slab`: merge
the `nSlabs` slabs at `s` with the region at `next` if that is free, link the
result and write its header and footer. -/
def freeSlabWithNext (s flags nSlabs next : Nat) : HeapM Unit := do
  let h ← get
  let (nSlabs, next) ← (if next = h.heapEnd then do
      set { h with flags := h.flags &&& ~~~1#32 }
      pure (nSlabs, next)
    else do
      let free ← slabIsFree next
      if free then do
        slabUnlink next
        let nextNSlabs ← load64 (next + 24)
        pure (nSlabs + nextNSlabs, next + slabSize * nextNSlabs)
      else do
        clearFlag next 2
        pure (nSlabs, next))
  slabLink s nSlabs
  store8 s flags
  store64 (s + 24) nSlabs
  store64 (next - 8) nSlabs

/-- `__int_free_remainder_slab` -/
def _intFreeRemainderSlab (s nSlabs : Nat) : HeapM Unit := do
  let flags ← load8 s
  freeSlabWithNext s (flags &&& 0xfe) nSlabs (s + slabSize * nSlabs)

/-- `__int_free_slab` -/
def _intFreeSlab (s nSlabs : Nat) : HeapM Unit := do
  let flags ← load8 s
  let next := s + slabSize * nSlabs
  if flags.testBit 1 then
    freeSlabWithNext s (flags &&& 0xfe) nSlabs next
  else do
    let prev ← prevAdjSlab s
    slabUnlink prev
    let flags ← load8 prev
    let prevNSlabs ← load64 (prev + 24)
    freeSlabWithNext prev flags (nSlabs + prevNSlabs) next

end MallocBench.Slab
