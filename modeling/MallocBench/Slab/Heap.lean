import MallocBench.Lib.Wp
import Mathlib.Algebra.Group.Nat.Defs
import Mathlib.Logic.Function.Basic
import Mathlib.Tactic.Common

/-!
# The heap of the slab allocator (`slab_malloc/mm.c`)

`mm.c` works on raw memory: slabs are 4096-byte pages, every slab begins with a
header whose fields overlay one another (`struct slab`), free slabs and free
medium blocks carry list links in their own storage, and the list heads live in
`struct heap` at the start of the heap. The model keeps that memory as it is: a
map from the addresses of 8-byte words to their contents, so that two fields
which alias in `mm.c` alias here.

Pointers, sizes and slab counts are natural numbers. `mem_sbrk` is taken to
always succeed with contiguous page-aligned memory, so addresses are not
bounded; where the source's 64-bit arithmetic can wrap (sizes coming from the
caller) the wrap is written out.

An access outside the memory obtained from `mem_sbrk`, or to a misaligned word,
stops the run with `Fault.segfault`; a failing `MALLOC_ASSERT` stops it with
`Fault.assertion`.
-/

namespace MallocBench.Slab

/-! ## Constants -/

/-- `MALLOC_ALIGN` -/
@[simp] abbrev mallocAlign : Nat := 16

/-- `SLAB_SIZE` -/
@[simp] abbrev slabSize : Nat := 4096

/-- `LARGE_SLAB_HEADER_SIZE`, the offset of `large_slab_payload_start` -/
@[simp] abbrev largeSlabHeaderSize : Nat := 16

/-- `PACKED_SLAB_HEADER_SIZE` -/
@[simp] abbrev packedSlabHeaderSize : Nat := 32

/-- `PACKED_SLAB_2LVL_BITV_THRESH` -/
@[simp] abbrev packedSlab2lvlBitvThresh : Nat := 48

/-- `MAX_TINY_BLOCK_SZ` -/
@[simp] abbrev maxTinyBlockSz : Nat := 496

/-- `MIN_MEDIUM_BLOCK_SZ` -/
@[simp] abbrev minMediumBlockSz : Nat := 512

/-- `MAX_MEDIUM_BLOCK_SZ` -/
@[simp] abbrev maxMediumBlockSz : Nat := 4080

/-- `MIN_LARGE_BLOCK_SZ` -/
@[simp] abbrev minLargeBlockSz : Nat := 4096

/-- `REALLOC_MAX_DEADWEIGHT` -/
@[simp] abbrev reallocMaxDeadweight : Nat := 496

/-- `NUM_SLAB_BINS` -/
@[simp] abbrev numSlabBins : Nat := 128

/-- `MAX_SEG_SLAB_SZ` -/
@[simp] abbrev maxSegSlabSz : Nat := 127

/-- `SLAB_BINS_SKIPLIST_SZ` -/
@[simp] abbrev slabBinsSkiplistSz : Nat := 4

/-- `NUM_SMALLBINS` -/
@[simp] abbrev numSmallbins : Nat := 23

/-- `NUM_MEDIUMBINS` -/
@[simp] abbrev numMediumbins : Nat := 224

/-- `MEDIUMBINS_SKIPLIST_SZ` -/
@[simp] abbrev mediumbinsSkiplistSz : Nat := 7

/-- `ALIGN_UP` for a power of two `mod`, in 64-bit arithmetic -/
def alignUp (val mod : Nat) : Nat :=
  let v := (val + (mod - 1)) % 2 ^ 64
  v - v % mod

/-- `ALIGN_DOWN` for a power of two `mod` -/
def alignDown (val mod : Nat) : Nat :=
  val - val % mod

/-! ## State -/

/-- How a run of the allocator can stop. `diverge` is a list walk that is longer
than the heap has slabs, `unreachable` a violated `MALLOC_ASSUME`. -/
inductive Fault
  | assertion
  | segfault
  | diverge
  | unreachable
  deriving DecidableEq, Repr

/-- Memory, `memlib`'s break, and the fields of `struct heap` that no pointer
ever aliases. The bin arrays (`slab_bins`, `smallbins`, `mediumbins`) are part
of `mem`, since list nodes point into them. -/
structure Heap where
  /-- the 8-byte word at each address that is a multiple of 8 -/
  mem : Nat → Nat
  /-- the end of the memory handed out by `mem_sbrk` -/
  brk : Nat
  /-- the static variable `heap` -/
  heap : Nat
  slabSkiplist : Nat → BitVec 32
  medSkiplist : Nat → BitVec 32
  heapEnd : Nat
  flags : BitVec 32

/-- The programs of `mm.c`. -/
abbrev HeapM := StateT Heap (Except Fault)

/-- `MALLOC_ASSERT` -/
def mallocAssert (c : Bool) : HeapM Unit :=
  if c then pure () else throw .assertion

/-- `MALLOC_ASSUME` -/
def mallocAssume (c : Bool) : HeapM Unit :=
  if c then pure () else throw .unreachable

/-! ## Memory access -/

/-- The aligned words of the memory obtained so far. -/
def Heap.Valid (s : Heap) (a : Nat) : Prop :=
  s.heap ≤ a ∧ a + 8 ≤ s.brk ∧ a % 8 = 0

instance (s : Heap) (a : Nat) : Decidable (s.Valid a) :=
  inferInstanceAs (Decidable (_ ∧ _))

/-- The state after writing the word at `a`. -/
def Heap.setMem (s : Heap) (a v : Nat) : Heap :=
  { s with mem := Function.update s.mem a v }

/-- Read the 8-byte word at `a`. -/
def load64 (a : Nat) : HeapM Nat := do
  let s ← get
  if s.Valid a then pure (s.mem a) else throw .segfault

/-- Write the 8-byte word at `a`. -/
def store64 (a v : Nat) : HeapM Unit := do
  let s ← get
  if s.Valid a then set (s.setMem a v) else throw .segfault

/-- The `n`-byte field that starts at byte `k` of a (little-endian) word. -/
def fieldOf (w k n : Nat) : Nat :=
  w / 256 ^ k % 256 ^ n

/-- The word `w` with the `n`-byte field at byte `k` replaced. -/
def putField (w k n v : Nat) : Nat :=
  w % 256 ^ k + 256 ^ k * (v % 256 ^ n + 256 ^ n * (w / 256 ^ (k + n)))

/-- Read an `n`-byte field at address `a` that does not cross a word. -/
def loadField (n a : Nat) : HeapM Nat := do
  let w ← load64 (a / 8 * 8)
  pure (fieldOf w (a % 8) n)

/-- Write an `n`-byte field at address `a` that does not cross a word. -/
def storeField (n a v : Nat) : HeapM Unit := do
  let w ← load64 (a / 8 * 8)
  store64 (a / 8 * 8) (putField w (a % 8) n v)

abbrev load8 : Nat → HeapM Nat := loadField 1
abbrev store8 : Nat → Nat → HeapM Unit := storeField 1
abbrev load16 : Nat → HeapM Nat := loadField 2
abbrev store16 : Nat → Nat → HeapM Unit := storeField 2

/-! ## Layout of `struct heap` -/

/-- `&h->slab_bins[i]`; the `head` is the first word, the `tail` the second -/
def slabBin (h i : Nat) : Nat := h + 16 * i

/-- `&h->smallbins[i]` -/
def smallBin (h i : Nat) : Nat := h + 2048 + 8 * i

/-- `&h->mediumbins[i]` -/
def mediumBin (h i : Nat) : Nat := h + 2232 + 8 * i

/-- `heap_start`: `struct heap` takes up one page -/
def heapStart (h : Nat) : Nat := h + slabSize

/-! ## `memlib` -/

/-- `mem_sbrk`, which is assumed to succeed: it returns the old break and moves
it by `size` bytes. The memory added has arbitrary contents. -/
def memSbrk (size : Nat) : HeapM Nat := do
  let s ← get
  set { s with brk := s.brk + size }
  pure s.brk

/-- `[ptr, ptr + size)` is memory obtained so far, starting at a word. -/
def Heap.ValidRange (s : Heap) (ptr size : Nat) : Prop :=
  s.heap ≤ ptr ∧ ptr + size ≤ s.brk ∧ ptr % 8 = 0

instance (s : Heap) (ptr size : Nat) : Decidable (s.ValidRange ptr size) :=
  inferInstanceAs (Decidable (_ ∧ _))

/-- The memory after `memset(ptr, 0, size)`; bytes `size` and beyond of the last
word are kept. -/
def zeroRange (m : Nat → Nat) (ptr size : Nat) : Nat → Nat := fun a =>
  if ptr ≤ a ∧ a < ptr + size then
    if a + 8 ≤ ptr + size then 0
    else m a / 256 ^ (ptr + size - a) * 256 ^ (ptr + size - a)
  else m a

/-- `memset(ptr, 0, size)` -/
def memsetZero (ptr size : Nat) : HeapM Unit := do
  let s ← get
  if s.ValidRange ptr size then set { s with mem := zeroRange s.mem ptr size }
  else throw .segfault

/-- The memory after `memcpy(dst, src, size)` of whole words. -/
def copyRange (m : Nat → Nat) (dst src size : Nat) : Nat → Nat := fun a =>
  if dst ≤ a ∧ a < dst + size then m (a - dst + src) else m a

/-- `memcpy(dst, src, size)`; all sizes copied are multiples of 16 -/
def memcpy (dst src size : Nat) : HeapM Unit := do
  let s ← get
  if s.ValidRange dst size ∧ s.ValidRange src size then
    set { s with mem := copyRange s.mem dst src size }
  else throw .segfault

end MallocBench.Slab
