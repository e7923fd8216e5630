import MallocBench.Bench.RecomputeMax
import MallocBench.Checker.CorrectnessChecker
import MallocBench.Lib.Bits
import MallocBench.Lib.Maps

/-!
# `Utiltest`

The utilization test keeps a map of the sizes it has allocated, and counts their rounded sizes in a
`size_t` that it changes by modular additions and subtractions. What the allocator does is an input
of every call: the pointer it returns, and the sizes of its heaps. A run ends at the first error.

* `UtilRun` is a run of one thread, with the blocks that are live and the sums that their rounded
  sizes have had so far, the latest first.
* `Accounted` is what the counters are for.
* A request for zero bytes puts the null pointer into the map, from where it is never taken out;
  `accounted_of_run` leaves out the requests for which that matters.
-/

namespace MallocBench.Bench

open Lib

open Checker (failedTestPrefix)

/-- `RoundUp`; `effectiveUtil` is the flag -/
def roundUp (effectiveUtil : Bool) (size : BitVec 64) : BitVec 64 :=
  if ¬ effectiveUtil then size
  else if size ≤ 8 then 8
  else (size + 0xf) &&& ~~~0xf

inductive UtilError where
  | allocConflict (ptr : Nat) (size : BitVec 64) (oldPtr : Nat) (oldSize : BitVec 64)
  | reallocNotFound (ptr : Nat)
  | reallocEraseFailed (ptr : Nat)
  | reallocConflict (ptr : Nat) (size : BitVec 64) (oldPtr : Nat) (oldSize : BitVec 64)
  | freedNotFound (ptr : Nat)
  | freeEraseFailed (ptr : Nat)
  | notAllFreed
  | mallocZero (ptr : Nat) (size : BitVec 64)
  | callocZero (ptr : Nat) (nmemb size : BitVec 64)
deriving DecidableEq, Repr

def UtilError.message : UtilError → String
  | .allocConflict ptr size oldPtr oldSize => failedTestPrefix ++ " Allocated pointer " ++
    formatPtr ptr ++ s!" of size {size.toNat} conflicts with existing allocation " ++
    formatPtr oldPtr ++ s!" of size {oldSize.toNat}"
  | .reallocNotFound ptr => failedTestPrefix ++ " Reallocated memory " ++ formatPtr ptr ++
    " not found in size map."
  | .reallocEraseFailed ptr => "Erasing old realloc-ed memory " ++ formatPtr ptr ++
    " failed. This indicates operations on a pointer were not properly serialized."
  | .reallocConflict ptr size oldPtr oldSize => failedTestPrefix ++ " Reallocated pointer " ++
    formatPtr ptr ++ s!" of size {size.toNat} conflicts with existing allocation " ++
    formatPtr oldPtr ++ s!" of size {oldSize.toNat}"
  | .freedNotFound ptr => failedTestPrefix ++ " Freed memory " ++ formatPtr ptr ++
    " not found in size map."
  | .freeEraseFailed ptr => "Erasing old freed memory " ++ formatPtr ptr ++
    " failed. This indicates operations on a pointer were not properly serialized."
  | .notAllFreed => "Tracefile does not free all the memory it allocates."
  | .mallocZero ptr size => failedTestPrefix ++
    " Expected `nullptr` return value on malloc with size 0: " ++ formatPtr ptr ++
    s!" = malloc({size.toNat})"
  | .callocZero ptr nmemb size => failedTestPrefix ++
    " Expected `nullptr` return value on calloc with size 0: " ++ formatPtr ptr ++
    s!" = calloc({nmemb.toNat}, {size.toNat})"

/-- `size_map_` and the counters -/
structure UtilState where
  sizeMap : AList fun _ : Nat => BitVec 64
  totalAllocatedBytes : BitVec 64
  maxAllocatedBytes : Nat
  maxHeapSize : Nat

/-- What an allocation returns, and the sizes of the heaps then. -/
structure UtilOutcome where
  ptr : Nat
  instances : List Nat

/-- The quotient that `ComputeUtilization` returns, by its two numbers, or -1. -/
inductive Utilization where
  | ratio (maxAllocatedBytes maxHeapSize : Nat)
  | negOne
deriving DecidableEq, Repr

namespace UtilState

/-- The members of a new `Utiltest`. -/
def init : UtilState where
  sizeMap := ∅
  totalAllocatedBytes := 0
  maxAllocatedBytes := 0
  maxHeapSize := 0

/-- `RecomputeMax`, by the only thread -/
def recomputeMax (st : UtilState) (totalAllocatedBytes : BitVec 64) (instances : List Nat) :
    UtilState :=
  { st with
    maxAllocatedBytes := exchangeLoop st.maxAllocatedBytes totalAllocatedBytes.toNat
    maxHeapSize := exchangeLoop st.maxHeapSize (heapSizeSum instances) }

/-- `size_map_.erase`, with the number of erased elements -/
def eraseSize (st : UtilState) (ptr : Nat) : Nat × UtilState :=
  (if ptr ∈ st.sizeMap then 1 else 0, { st with sizeMap := st.sizeMap.erase ptr })

section

variable (effectiveUtil : Bool)

/-- `PostAlloc` -/
def postAlloc (st : UtilState) (size : BitVec 64) (_alignment : Option Nat) (_isCalloc : Bool)
    (outcome : UtilOutcome) : Except UtilError UtilState :=
  let roundedSize := roundUp effectiveUtil size
  let totalAllocatedBytes := st.totalAllocatedBytes + roundedSize
  let st := { st with totalAllocatedBytes := totalAllocatedBytes }
  let st := st.recomputeMax totalAllocatedBytes outcome.instances
  match st.sizeMap.lookup outcome.ptr with
  | some oldSize => throw (.allocConflict outcome.ptr size outcome.ptr oldSize)
  | none => pure { st with sizeMap := st.sizeMap.insert outcome.ptr size }

/-- `PreRealloc` -/
def preRealloc (st : UtilState) (ptr : Nat) (_size : BitVec 64) :
    Except UtilError (BitVec 64 × UtilState) :=
  match st.sizeMap.lookup ptr with
  | none => throw (.reallocNotFound ptr)
  | some prevSize =>
    let (deletedElems, st) := st.eraseSize ptr
    if deletedElems ≠ 1 then throw (.reallocEraseFailed ptr)
    else pure (roundUp effectiveUtil prevSize, st)

/-- `PostRealloc` -/
def postRealloc (st : UtilState) (_oldPtr : Nat) (size prevSize : BitVec 64)
    (outcome : UtilOutcome) : Except UtilError UtilState :=
  let roundedSize := roundUp effectiveUtil size
  let totalAllocatedBytes := st.totalAllocatedBytes + (roundedSize - prevSize)
  let st := { st with totalAllocatedBytes := totalAllocatedBytes }
  let st := st.recomputeMax totalAllocatedBytes outcome.instances
  match st.sizeMap.lookup outcome.ptr with
  | some oldSize => throw (.reallocConflict outcome.ptr size outcome.ptr oldSize)
  | none => pure { st with sizeMap := st.sizeMap.insert outcome.ptr size }

/-- `PreRelease` -/
def preRelease (st : UtilState) (ptr : Nat) (instances : List Nat) : Except UtilError UtilState :=
  if ptr = 0 then pure st
  else match st.sizeMap.lookup ptr with
    | none => throw (.freedNotFound ptr)
    | some size =>
      let oldSize := roundUp effectiveUtil size
      let totalAllocatedBytes := st.totalAllocatedBytes - oldSize
      let st := { st with totalAllocatedBytes := totalAllocatedBytes }
      let st := st.recomputeMax totalAllocatedBytes instances
      let (deletedElems, st) := st.eraseSize ptr
      if deletedElems ≠ 1 then throw (.freeEraseFailed ptr) else pure st

/-- `ComputeUtilization` -/
def computeUtilization (st : UtilState) : Except UtilError Utilization :=
  if st.totalAllocatedBytes ≠ 0 then throw .notAllFreed
  else if st.maxHeapSize ≠ 0 then pure (.ratio st.maxAllocatedBytes st.maxHeapSize)
  else pure .negOne

/-! ## `MallocRunner` -/

/-- `MallocRunner::Malloc` -/
def malloc (st : UtilState) (size : BitVec 64) (alignment : Option Nat) (outcome : UtilOutcome) :
    Except UtilError UtilState :=
  if size = 0 ∧ outcome.ptr ≠ 0 then throw (.mallocZero outcome.ptr size)
  else st.postAlloc effectiveUtil size alignment false outcome

/-- `MallocRunner::Calloc` -/
def calloc (st : UtilState) (nmemb size : BitVec 64) (outcome : UtilOutcome) :
    Except UtilError UtilState :=
  if (nmemb = 0 ∨ size = 0) ∧ outcome.ptr ≠ 0 then throw (.callocZero outcome.ptr nmemb size)
  else st.postAlloc effectiveUtil (nmemb * size) none true outcome

/-- `MallocRunner::Realloc` -/
def realloc (st : UtilState) (ptr : Nat) (size : BitVec 64) (outcome : UtilOutcome) :
    Except UtilError UtilState :=
  if ptr = 0 then st.postAlloc effectiveUtil size none false outcome
  else do
    let (reallocData, st) ← st.preRealloc effectiveUtil ptr size
    st.postRealloc effectiveUtil ptr size reallocData outcome

/-- `MallocRunner::Free` -/
def free (st : UtilState) (ptr : Nat) (instances : List Nat) : Except UtilError UtilState :=
  st.preRelease effectiveUtil ptr instances

end

end UtilState

/-- The calls of a run, with what the allocator does. -/
inductive UtilCall where
  | malloc (size : BitVec 64) (alignment : Option Nat) (outcome : UtilOutcome)
  | calloc (nmemb size : BitVec 64) (outcome : UtilOutcome)
  | realloc (ptr : Nat) (size : BitVec 64) (outcome : UtilOutcome)
  | free (ptr : Nat) (instances : List Nat)

def UtilState.step (effectiveUtil : Bool) (st : UtilState) : UtilCall → Except UtilError UtilState
  | .malloc size alignment outcome => st.malloc effectiveUtil size alignment outcome
  | .calloc nmemb size outcome => st.calloc effectiveUtil nmemb size outcome
  | .realloc ptr size outcome => st.realloc effectiveUtil ptr size outcome
  | .free ptr instances => st.free effectiveUtil ptr instances

/-! ## The live blocks -/

/-- The live blocks, with the sizes that were requested. -/
abbrev LiveBlocks := AList fun _ : Nat => Nat

/-- What `RoundUp` is for: the size, or its multiple of the alignment requirement. -/
def roundedSize (effectiveUtil : Bool) (size : Nat) : Nat :=
  if ¬ effectiveUtil then size
  else if size ≤ 8 then 8
  else (size + 15) / 16 * 16

/-- The sum of the rounded sizes of the live blocks. -/
def roundedSum (effectiveUtil : Bool) (live : LiveBlocks) : Nat :=
  mapSum (fun _ => roundedSize effectiveUtil) live

namespace LiveBlocks

/-- What an allocator returns for `size` bytes. -/
def Returns (live : LiveBlocks) (size ptr : Nat) : Prop :=
  if size = 0 then ptr = 0 else ptr ≠ 0 ∧ ptr ∉ live

/-- The null pointer is no block. -/
def alloc (live : LiveBlocks) (ptr size : Nat) : LiveBlocks :=
  if ptr = 0 then live else live.insert ptr size

/-- The live blocks after a call. -/
def after (live : LiveBlocks) : UtilCall → LiveBlocks
  | .malloc size _ outcome => live.alloc outcome.ptr size.toNat
  | .calloc nmemb size outcome => live.alloc outcome.ptr (nmemb.toNat * size.toNat)
  | .realloc ptr size outcome => alloc (live.erase ptr) outcome.ptr size.toNat
  | .free ptr _ => live.erase ptr

end LiveBlocks

namespace UtilCall

/-- The calls that a run may make: frees and reallocs of live or null pointers, reallocs to
non-zero sizes, and an allocator that returns a pointer of its own for every other request. -/
def Allowed (live : LiveBlocks) : UtilCall → Prop
  | .malloc size _ outcome => live.Returns size.toNat outcome.ptr
  | .calloc nmemb size outcome => live.Returns (nmemb.toNat * size.toNat) outcome.ptr
  | .realloc ptr size outcome => (ptr = 0 ∨ ptr ∈ live) ∧ size ≠ 0 ∧
    LiveBlocks.Returns (live.erase ptr) size.toNat outcome.ptr
  | .free ptr _ => ptr = 0 ∨ ptr ∈ live

/-- A request for zero bytes. -/
def IsZero : UtilCall → Prop
  | .malloc size _ _ => size = 0
  | .calloc nmemb size _ => nmemb = 0 ∨ size = 0
  | _ => False

/-- A request for zero bytes is the first one, and sizes are not rounded; and the sum of the
rounded sizes is a `size_t`. -/
def Counted (effectiveUtil : Bool) (st : UtilState) (live : LiveBlocks) (call : UtilCall) : Prop :=
  (call.IsZero → ¬ effectiveUtil ∧ 0 ∉ st.sizeMap) ∧
    roundedSum effectiveUtil (live.after call) < 2 ^ 64

end UtilCall

/-- A run of allowed calls that meet a condition. -/
inductive UtilRun (effectiveUtil : Bool) (Meets : UtilState → LiveBlocks → UtilCall → Prop) :
    UtilState → LiveBlocks → List Nat → Prop
  | init : UtilRun effectiveUtil Meets .init ∅ [0]
  | step {st st' : UtilState} {live : LiveBlocks} {sums : List Nat} {call : UtilCall}
    (run : UtilRun effectiveUtil Meets st live sums) (allowed : call.Allowed live)
    (meets : Meets st live call) (next : st.step effectiveUtil call = .ok st') :
    UtilRun effectiveUtil Meets st' (live.after call)
      (roundedSum effectiveUtil (live.after call) :: sums)

/-- What the counters are for: no call fails that is allowed and meets the condition, the counters
hold the sum of the rounded sizes and the largest sum so far, and a run that has freed every block
has a utilization. -/
structure Accounted (effectiveUtil : Bool) (Meets : UtilState → LiveBlocks → UtilCall → Prop)
    (st : UtilState) (live : LiveBlocks) (sums : List Nat) : Prop where
  noError : ∀ call : UtilCall, call.Allowed live → Meets st live call →
    ∃ st', st.step effectiveUtil call = .ok st'
  total : st.totalAllocatedBytes.toNat = roundedSum effectiveUtil live
  max : IsGreatest {sum | sum ∈ sums} st.maxAllocatedBytes
  utilization : live = ∅ → ∃ utilization, st.computeUtilization = .ok utilization

/-! ## Rounding -/

section Rounding

variable {effectiveUtil : Bool} {size : BitVec 64} {n : Nat}

theorem le_roundedSize : n ≤ roundedSize effectiveUtil n := by
  unfold roundedSize
  split_ifs <;> omega

/-- `RoundUp` rounds up as long as the result is a `size_t`. -/
theorem toNat_roundUp (h : roundedSize effectiveUtil size.toNat < 2 ^ 64) :
    (roundUp effectiveUtil size).toNat = roundedSize effectiveUtil size.toNat := by
  have h8 : size ≤ 8 ↔ size.toNat ≤ 8 := BitVec.le_def
  unfold roundedSize at h ⊢
  unfold roundUp
  simp only [h8]
  split_ifs at h ⊢ with heff hle
  · rfl
  · have hadd : (size + 0xf).toNat = size.toNat + 15 := by
      rw [BitVec.toNat_add, Nat.mod_eq_of_lt]
      · rfl
      · change size.toNat + 15 < 2 ^ 64
        omega
    have hlow : ((size + 0xf) &&& 0xf).toNat = (size.toNat + 15) % 16 := by
      rw [BitVec.toNat_and, hadd]
      exact Nat.and_two_pow_sub_one_eq_mod _ 4
    rw [toNat_and_not, hlow, hadd]
    omega
  · rfl

end Rounding

/-! ## What each call does -/

namespace UtilState

/-- The state with other counters and another map. -/
def updated (st : UtilState) (totalAllocatedBytes : BitVec 64) (instances : List Nat)
    (sizeMap : AList fun _ : Nat => BitVec 64) : UtilState :=
  { st.recomputeMax totalAllocatedBytes instances with
    totalAllocatedBytes := totalAllocatedBytes
    sizeMap := sizeMap }

variable {effectiveUtil : Bool} {st : UtilState} {size prevSize : BitVec 64} {ptr : Nat}
  {outcome : UtilOutcome} {instances : List Nat}

theorem postAlloc_ok {alignment : Option Nat} {isCalloc : Bool}
    (h : outcome.ptr ∉ st.sizeMap) :
    st.postAlloc effectiveUtil size alignment isCalloc outcome =
      .ok (st.updated (st.totalAllocatedBytes + roundUp effectiveUtil size) outcome.instances
        (st.sizeMap.insert outcome.ptr size)) := by
  have hlookup := AList.lookup_eq_none.mpr h
  unfold postAlloc
  dsimp only [recomputeMax]
  rw [hlookup]
  rfl

theorem preRealloc_ok (h : st.sizeMap.lookup ptr = some prevSize) :
    st.preRealloc effectiveUtil ptr size =
      .ok (roundUp effectiveUtil prevSize, { st with sizeMap := st.sizeMap.erase ptr }) := by
  unfold preRealloc
  rw [h]
  simp only [eraseSize, mem_of_lookup h, if_true]
  rfl

/-- Only null pointers are checked before `PostAlloc`. -/
theorem malloc_eq {alignment : Option Nat} (h : size = 0 → outcome.ptr = 0) :
    st.malloc effectiveUtil size alignment outcome =
      st.postAlloc effectiveUtil size alignment false outcome :=
  if_neg fun hboth => hboth.2 (h hboth.1)

theorem calloc_eq {nmemb : BitVec 64} (h : nmemb = 0 ∨ size = 0 → outcome.ptr = 0) :
    st.calloc effectiveUtil nmemb size outcome =
      st.postAlloc effectiveUtil (nmemb * size) none true outcome :=
  if_neg fun hboth => hboth.2 (h hboth.1)

theorem realloc_ok (hptr : ptr ≠ 0) (h : st.sizeMap.lookup ptr = some prevSize)
    (hnew : outcome.ptr ∉ st.sizeMap.erase ptr) :
    st.realloc effectiveUtil ptr size outcome =
      .ok (st.updated (st.totalAllocatedBytes +
          (roundUp effectiveUtil size - roundUp effectiveUtil prevSize)) outcome.instances
        ((st.sizeMap.erase ptr).insert outcome.ptr size)) := by
  have hlookup := AList.lookup_eq_none.mpr hnew
  unfold realloc
  rw [if_neg hptr, preRealloc_ok h]
  change postRealloc _ _ ptr _ _ _ = _
  unfold postRealloc
  dsimp only [recomputeMax]
  rw [hlookup]
  rfl

theorem free_ok (hptr : ptr ≠ 0) (h : st.sizeMap.lookup ptr = some size) :
    st.free effectiveUtil ptr instances =
      .ok (st.updated (st.totalAllocatedBytes - roundUp effectiveUtil size) instances
        (st.sizeMap.erase ptr)) := by
  unfold free preRelease
  rw [if_neg hptr, h]
  simp only [eraseSize, recomputeMax, mem_of_lookup h, if_true]
  rfl

end UtilState

/-! ## The map and the live blocks -/

/-- The map holds the live blocks, and possibly the null pointer. -/
structure Tracks (sizeMap : AList fun _ : Nat => BitVec 64) (live : LiveBlocks) : Prop where
  null : 0 ∉ live
  lookup : ∀ ptr, ptr ≠ 0 → live.lookup ptr = (sizeMap.lookup ptr).map BitVec.toNat

namespace Tracks

variable {sizeMap : AList fun _ : Nat => BitVec 64} {live : LiveBlocks} {ptr : Nat}
  {size : BitVec 64}

theorem empty : Tracks ∅ ∅ where
  null := AList.notMem_empty 0
  lookup _ _ := rfl

theorem mem_iff (h : Tracks sizeMap live) (hptr : ptr ≠ 0) : ptr ∈ sizeMap ↔ ptr ∈ live := by
  rw [← AList.lookup_isSome, ← AList.lookup_isSome, h.lookup ptr hptr, Option.isSome_map]

theorem exists_size (h : Tracks sizeMap live) (hmem : ptr ∈ live) :
    ptr ≠ 0 ∧ ∃ size, sizeMap.lookup ptr = some size ∧ live.lookup ptr = some size.toNat := by
  have hptr : ptr ≠ 0 := fun h0 => h.null (h0 ▸ hmem)
  obtain ⟨size, hsize⟩ := Option.isSome_iff_exists.mp
    (AList.lookup_isSome.mpr ((h.mem_iff hptr).mpr hmem))
  refine ⟨hptr, size, hsize, ?_⟩
  rw [h.lookup ptr hptr, hsize]
  rfl

theorem insert (h : Tracks sizeMap live) (hptr : ptr ≠ 0) :
    Tracks (sizeMap.insert ptr size) (live.insert ptr size.toNat) where
  null hmem := ((AList.mem_insert _).mp hmem).elim (fun h0 => hptr h0.symm) h.null
  lookup p hp := by
    by_cases heq : p = ptr
    · subst heq
      rw [AList.lookup_insert, AList.lookup_insert]
      rfl
    · rw [AList.lookup_insert_ne heq, AList.lookup_insert_ne heq, h.lookup p hp]

theorem insert_null (h : Tracks sizeMap live) : Tracks (sizeMap.insert 0 size) live where
  null := h.null
  lookup p hp := by rw [AList.lookup_insert_ne hp, h.lookup p hp]

theorem erase (h : Tracks sizeMap live) : Tracks (sizeMap.erase ptr) (live.erase ptr) where
  null hmem := h.null (AList.mem_erase.mp hmem).2
  lookup p hp := by
    by_cases heq : p = ptr
    · subst heq
      rw [AList.lookup_erase, AList.lookup_erase]
      rfl
    · rw [AList.lookup_erase_ne heq, AList.lookup_erase_ne heq, h.lookup p hp]

end Tracks

/-! ## The invariant -/

/-- The map holds the live blocks, and the counters hold their sum and the largest one. -/
structure UtilInv (effectiveUtil : Bool) (st : UtilState) (live : LiveBlocks)
    (sums : List Nat) : Prop where
  tracks : Tracks st.sizeMap live
  total : st.totalAllocatedBytes.toNat = roundedSum effectiveUtil live
  max : IsGreatest {sum | sum ∈ sums} st.maxAllocatedBytes
  sum_mem : roundedSum effectiveUtil live ∈ sums

namespace UtilInv

variable {effectiveUtil : Bool} {st : UtilState} {live live' : LiveBlocks} {sums : List Nat}
  {outcome : UtilOutcome} {instances : List Nat} {sizeMap : AList fun _ : Nat => BitVec 64}
  {totalAllocatedBytes size : BitVec 64} {ptr n : Nat}

theorem init : UtilInv effectiveUtil .init ∅ [0] where
  tracks := .empty
  total := rfl
  max := ⟨List.mem_singleton.mpr rfl, fun _ hsum => (List.mem_singleton.mp hsum).le⟩
  sum_mem := List.mem_singleton.mpr rfl

/-- Every call that changes the counters submits the new sum. -/
theorem updated (h : UtilInv effectiveUtil st live sums) (htracks : Tracks sizeMap live')
    (htotal : totalAllocatedBytes.toNat = roundedSum effectiveUtil live') :
    UtilInv effectiveUtil (st.updated totalAllocatedBytes instances sizeMap) live'
      (roundedSum effectiveUtil live' :: sums) where
  tracks := htracks
  total := htotal
  max := by
    have hset : {sum | sum ∈ roundedSum effectiveUtil live' :: sums} =
        insert (roundedSum effectiveUtil live') {sum | sum ∈ sums} := by
      ext sum
      exact List.mem_cons
    change IsGreatest _ (exchangeLoop st.maxAllocatedBytes totalAllocatedBytes.toNat)
    rw [exchangeLoop_eq_max, htotal, hset, max_comm]
    exact h.max.insert _
  sum_mem := List.mem_cons_self

/-- A call that leaves the blocks alone leaves their sum alone. -/
theorem again (h : UtilInv effectiveUtil st live sums) :
    UtilInv effectiveUtil st live (roundedSum effectiveUtil live :: sums) where
  tracks := h.tracks
  total := h.total
  max := by
    refine ⟨List.mem_cons_of_mem _ h.max.1, fun sum hsum => ?_⟩
    rcases List.mem_cons.mp hsum with rfl | hold
    · exact h.max.2 h.sum_mem
    · exact h.max.2 hold
  sum_mem := List.mem_cons_self

/-- A new block adds its rounded size. -/
theorem toNat_add (hlt : roundedSum effectiveUtil (live.insert ptr n) < 2 ^ 64) (hnew : ptr ∉ live)
    (hsize : size.toNat = n % 2 ^ 64) :
    size.toNat = n ∧ (roundUp effectiveUtil size).toNat = roundedSize effectiveUtil n ∧
      roundedSum effectiveUtil (live.insert ptr n) =
        roundedSize effectiveUtil n + roundedSum effectiveUtil live := by
  have hsum : roundedSum effectiveUtil (live.insert ptr n) =
      roundedSize effectiveUtil n + roundedSum effectiveUtil live := mapSum_insert_new hnew
  have hle : n ≤ roundedSize effectiveUtil n := le_roundedSize
  have heq : size.toNat = n := by
    rw [hsize, Nat.mod_eq_of_lt (by omega)]
  refine ⟨heq, ?_, hsum⟩
  rw [toNat_roundUp (by rw [heq]; omega), heq]

/-- `PostAlloc`, on what the allocator returns for `n` bytes -/
theorem postAlloc {alignment : Option Nat} {isCalloc : Bool}
    (h : UtilInv effectiveUtil st live sums) (hret : live.Returns n outcome.ptr)
    (hsize : size.toNat = n % 2 ^ 64) (hzero : n = 0 → ¬ effectiveUtil ∧ 0 ∉ st.sizeMap)
    (hlt : roundedSum effectiveUtil (live.alloc outcome.ptr n) < 2 ^ 64) :
    ∃ st', st.postAlloc effectiveUtil size alignment isCalloc outcome = .ok st' ∧
      UtilInv effectiveUtil st' (live.alloc outcome.ptr n)
        (roundedSum effectiveUtil (live.alloc outcome.ptr n) :: sums) := by
  unfold LiveBlocks.Returns at hret
  by_cases hn : n = 0
  · -- the null pointer takes its place in the map
    rw [if_pos hn] at hret
    obtain ⟨hplain, hnull⟩ := hzero hn
    obtain rfl : size = 0 := BitVec.eq_of_toNat_eq (by rw [hsize, hn]; rfl)
    have halloc : live.alloc outcome.ptr n = live := if_pos hret
    rw [halloc]
    refine ⟨_, UtilState.postAlloc_ok (by rwa [hret]), h.updated ?_ ?_⟩
    · rw [hret]
      exact h.tracks.insert_null
    · rw [roundUp, if_pos hplain]
      change (st.totalAllocatedBytes + 0#64).toNat = _
      rw [BitVec.add_zero, h.total]
  · rw [if_neg hn] at hret
    obtain ⟨hptr, hnew⟩ := hret
    have halloc : live.alloc outcome.ptr n = live.insert outcome.ptr n := if_neg hptr
    rw [halloc] at hlt ⊢
    obtain ⟨heq, hround, hsum⟩ := toNat_add hlt hnew hsize
    refine ⟨_, UtilState.postAlloc_ok fun hmem => hnew ((h.tracks.mem_iff hptr).mp hmem),
      h.updated ?_ ?_⟩
    · rw [← heq]
      exact h.tracks.insert hptr
    · rw [BitVec.toNat_add, hround, h.total, Nat.add_comm, ← hsum, Nat.mod_eq_of_lt hlt]

/-- `Realloc` of a live block -/
theorem realloc (h : UtilInv effectiveUtil st live sums) (hmem : ptr ∈ live) (hsize : size ≠ 0)
    (hret : LiveBlocks.Returns (live.erase ptr) size.toNat outcome.ptr)
    (hlt : roundedSum effectiveUtil
      (LiveBlocks.alloc (live.erase ptr) outcome.ptr size.toNat) < 2 ^ 64) :
    ∃ st', st.realloc effectiveUtil ptr size outcome = .ok st' ∧
      UtilInv effectiveUtil st' (LiveBlocks.alloc (live.erase ptr) outcome.ptr size.toNat)
        (roundedSum effectiveUtil
          (LiveBlocks.alloc (live.erase ptr) outcome.ptr size.toNat) :: sums) := by
  have hn : size.toNat ≠ 0 := fun h0 => hsize (toNat_eq_zero_iff.mp h0)
  unfold LiveBlocks.Returns at hret
  rw [if_neg hn] at hret
  obtain ⟨hptr', hnew⟩ := hret
  obtain ⟨hptr, prevSize, hlookup, hlive⟩ := h.tracks.exists_size hmem
  have halloc : LiveBlocks.alloc (live.erase ptr) outcome.ptr size.toNat =
      (live.erase ptr).insert outcome.ptr size.toNat := if_neg hptr'
  rw [halloc] at hlt ⊢
  have herased : Tracks (st.sizeMap.erase ptr) (live.erase ptr) := h.tracks.erase
  refine ⟨_, UtilState.realloc_ok hptr hlookup
    fun hin => hnew ((herased.mem_iff hptr').mp hin), h.updated (herased.insert hptr') ?_⟩
  obtain ⟨-, hround, hsum⟩ := toNat_add hlt hnew (Nat.mod_eq_of_lt size.isLt).symm
  have hprev : roundedSum effectiveUtil live = roundedSize effectiveUtil prevSize.toNat +
      roundedSum effectiveUtil (live.erase ptr) := mapSum_erase hlive
  have htotal := h.total
  have hbound := st.totalAllocatedBytes.isLt
  have hroundPrev : (roundUp effectiveUtil prevSize).toNat =
      roundedSize effectiveUtil prevSize.toNat := toNat_roundUp (by omega)
  rw [BitVec.toNat_add, BitVec.toNat_sub]
  omega

/-- `Free` of a live block -/
theorem free (h : UtilInv effectiveUtil st live sums) (hmem : ptr ∈ live) :
    ∃ st', st.free effectiveUtil ptr instances = .ok st' ∧
      UtilInv effectiveUtil st' (live.erase ptr)
        (roundedSum effectiveUtil (live.erase ptr) :: sums) := by
  obtain ⟨hptr, size, hlookup, hlive⟩ := h.tracks.exists_size hmem
  refine ⟨_, UtilState.free_ok hptr hlookup, h.updated h.tracks.erase ?_⟩
  have hprev : roundedSum effectiveUtil live = roundedSize effectiveUtil size.toNat +
      roundedSum effectiveUtil (live.erase ptr) := mapSum_erase hlive
  have htotal := h.total
  have hbound := st.totalAllocatedBytes.isLt
  have hround : (roundUp effectiveUtil size).toNat = roundedSize effectiveUtil size.toNat :=
    toNat_roundUp (by omega)
  rw [BitVec.toNat_sub]
  omega

/-- Every allowed call that is counted succeeds, and keeps the invariant. -/
theorem step {call : UtilCall} (h : UtilInv effectiveUtil st live sums)
    (hallowed : call.Allowed live) (hcounted : call.Counted effectiveUtil st live) :
    ∃ st', st.step effectiveUtil call = .ok st' ∧
      UtilInv effectiveUtil st' (live.after call)
        (roundedSum effectiveUtil (live.after call) :: sums) := by
  obtain ⟨hzero, hlt⟩ := hcounted
  cases call with
  | malloc size alignment outcome =>
    have hnull : size = 0 → outcome.ptr = 0 := by
      rintro rfl
      exact hallowed
    change ∃ st', st.malloc effectiveUtil size alignment outcome = _ ∧ _
    rw [UtilState.malloc_eq hnull]
    exact h.postAlloc hallowed (Nat.mod_eq_of_lt size.isLt).symm
      (fun h0 => hzero (toNat_eq_zero_iff.mp h0)) hlt
  | calloc nmemb size outcome =>
    have hprod : nmemb.toNat * size.toNat = 0 ↔ nmemb = 0 ∨ size = 0 := by
      rw [Nat.mul_eq_zero]
      exact or_congr toNat_eq_zero_iff toNat_eq_zero_iff
    have hnull : nmemb = 0 ∨ size = 0 → outcome.ptr = 0 := by
      intro h0
      have hret : LiveBlocks.Returns live _ outcome.ptr := hallowed
      rwa [hprod.mpr h0] at hret
    change ∃ st', st.calloc effectiveUtil nmemb size outcome = _ ∧ _
    rw [UtilState.calloc_eq hnull]
    exact h.postAlloc hallowed (BitVec.toNat_mul ..) (fun h0 => hzero (hprod.mp h0)) hlt
  | realloc ptr size outcome =>
    obtain ⟨hlive, hsize, hret⟩ := hallowed
    by_cases hptr : ptr = 0
    · subst hptr
      have hnone : live.erase 0 = live := erase_of_notMem h.tracks.null
      have hafter : live.after (.realloc 0 size outcome) = live.alloc outcome.ptr size.toNat :=
        congrArg (LiveBlocks.alloc · outcome.ptr size.toNat) hnone
      have hstep : st.step effectiveUtil (.realloc 0 size outcome) =
          st.postAlloc effectiveUtil size none false outcome := rfl
      rw [hafter] at hlt
      rw [hnone] at hret
      rw [hstep, hafter]
      exact h.postAlloc hret (Nat.mod_eq_of_lt size.isLt).symm
        (fun h0 => absurd (toNat_eq_zero_iff.mp h0) hsize) hlt
    · exact h.realloc (hlive.resolve_left hptr) hsize hret hlt
  | free ptr instances =>
    by_cases hptr : ptr = 0
    · subst hptr
      have hnone : live.erase 0 = live := erase_of_notMem h.tracks.null
      have hafter : live.after (.free 0 instances) = live := hnone
      rw [hafter]
      exact ⟨st, rfl, h.again⟩
    · exact h.free (hallowed.resolve_left hptr)

end UtilInv

/-- Every run whose calls are counted. -/
theorem utilInv_of_run {effectiveUtil : Bool} {st : UtilState} {live : LiveBlocks}
    {sums : List Nat}
    (h : UtilRun effectiveUtil (fun st live call => call.Counted effectiveUtil st live)
      st live sums) :
    UtilInv effectiveUtil st live sums := by
  induction h with
  | init => exact .init
  | step _ allowed meets next ih =>
    obtain ⟨st', hok, hinv⟩ := ih.step allowed meets
    obtain rfl := Except.ok.inj (hok.symm.trans next)
    exact hinv

/-! ## Requests for zero bytes -/

section Zero

variable {effectiveUtil : Bool} {st st' : UtilState} {live : LiveBlocks} {sums : List Nat}

theorem postAlloc_conflict {size : BitVec 64} {alignment : Option Nat} {isCalloc : Bool}
    {outcome : UtilOutcome} (h : outcome.ptr ∈ st.sizeMap) :
    ∃ error, st.postAlloc effectiveUtil size alignment isCalloc outcome = .error error := by
  obtain ⟨oldSize, hlookup⟩ := Option.isSome_iff_exists.mp (AList.lookup_isSome.mpr h)
  unfold UtilState.postAlloc
  dsimp only [UtilState.recomputeMax]
  rw [hlookup]
  exact ⟨_, rfl⟩

/-- The null pointer gets into the map once, and its size counts unless it is rounded. -/
theorem plain_of_postAlloc_zero {alignment : Option Nat} {isCalloc : Bool} {outcome : UtilOutcome}
    (hok : st.postAlloc effectiveUtil 0 alignment isCalloc outcome = .ok st')
    (hnull : outcome.ptr = 0) (htotal : st'.totalAllocatedBytes = st.totalAllocatedBytes) :
    ¬ effectiveUtil ∧ 0 ∉ st.sizeMap := by
  have hnot : outcome.ptr ∉ st.sizeMap := by
    intro hmem
    obtain ⟨error, herror⟩ : ∃ error, st.postAlloc effectiveUtil 0 alignment isCalloc outcome =
      .error error := postAlloc_conflict hmem
    cases herror.symm.trans hok
  rw [UtilState.postAlloc_ok hnot] at hok
  obtain rfl := Except.ok.inj hok
  refine ⟨?_, by rwa [hnull] at hnot⟩
  rintro rfl
  have hround : roundUp true 0 = 0 := by
    refine (BitVec.add_right_inj st.totalAllocatedBytes).mp ?_
    exact htotal.trans (BitVec.add_zero _).symm
  exact absurd hround (by decide)

/-- A call that succeeds and leaves the right sum is counted. -/
theorem counted_of_total {call : UtilCall} (h : UtilInv effectiveUtil st live sums)
    (hallowed : call.Allowed live) (hstep : st.step effectiveUtil call = .ok st')
    (htotal : st'.totalAllocatedBytes.toNat = roundedSum effectiveUtil (live.after call)) :
    call.Counted effectiveUtil st live := by
  refine ⟨fun hzero => ?_, htotal ▸ st'.totalAllocatedBytes.isLt⟩
  cases call with
  | malloc size alignment outcome =>
    obtain rfl : size = 0 := hzero
    have hnull : outcome.ptr = 0 := hallowed
    have hafter : live.after (.malloc 0 alignment outcome) = live := if_pos hnull
    rw [hafter, ← h.total] at htotal
    change st.malloc effectiveUtil 0 alignment outcome = _ at hstep
    rw [UtilState.malloc_eq fun _ => hnull] at hstep
    exact plain_of_postAlloc_zero hstep hnull (BitVec.eq_of_toNat_eq htotal)
  | calloc nmemb size outcome =>
    have hprod : nmemb.toNat * size.toNat = 0 := by
      rcases hzero with rfl | rfl
      · exact Nat.zero_mul _
      · exact Nat.mul_zero _
    have hnull : outcome.ptr = 0 := by
      have hret : LiveBlocks.Returns live _ outcome.ptr := hallowed
      rwa [hprod] at hret
    have hbytes : nmemb * size = 0 := toNat_eq_zero_iff.mp (by rw [BitVec.toNat_mul, hprod])
    have hafter : live.after (.calloc nmemb size outcome) = live := if_pos hnull
    rw [hafter, ← h.total] at htotal
    change st.calloc effectiveUtil nmemb size outcome = _ at hstep
    rw [UtilState.calloc_eq fun _ => hnull, hbytes] at hstep
    exact plain_of_postAlloc_zero hstep hnull (BitVec.eq_of_toNat_eq htotal)
  | realloc ptr size outcome => exact hzero.elim
  | free ptr instances => exact hzero.elim

end Zero

/-- A run of one `malloc`. -/
theorem UtilRun.malloc {effectiveUtil : Bool} {Meets : UtilState → LiveBlocks → UtilCall → Prop}
    {size : BitVec 64} {ptr : Nat} {instances : List Nat}
    (hallowed : (UtilCall.malloc size none ⟨ptr, instances⟩).Allowed ∅)
    (hmeets : Meets .init ∅ (.malloc size none ⟨ptr, instances⟩)) :
    UtilRun effectiveUtil Meets
      (UtilState.init.updated (0 + roundUp effectiveUtil size) instances (AList.insert ptr size ∅))
      (LiveBlocks.alloc ∅ ptr size.toNat)
      [roundedSum effectiveUtil (LiveBlocks.alloc ∅ ptr size.toNat), 0] := by
  refine UtilRun.step .init hallowed hmeets ?_
  have hnull : size = 0 → ptr = 0 := by
    rintro rfl
    exact hallowed
  exact (UtilState.malloc_eq hnull).trans (UtilState.postAlloc_ok (AList.notMem_empty ptr))

/-- **The utilization test**, over every run in which a request for zero bytes is the first one and
is not rounded, and the sum is a `size_t`: everything is accounted for, and any other call fails
or leaves a wrong sum. -/
theorem accounted_of_run (effectiveUtil : Bool) (st : UtilState) (live : LiveBlocks)
    (sums : List Nat)
    (h : UtilRun effectiveUtil (fun st live call => call.Counted effectiveUtil st live)
      st live sums) :
    Accounted effectiveUtil (fun st live call => call.Counted effectiveUtil st live)
      st live sums ∧
    ∀ call : UtilCall, call.Allowed live →
      ((∃ st', st.step effectiveUtil call = .ok st' ∧
        st'.totalAllocatedBytes.toNat = roundedSum effectiveUtil (live.after call)) ↔
      call.Counted effectiveUtil st live) := by
  have hinv := utilInv_of_run h
  refine ⟨⟨fun call hallowed hcounted => ?_, hinv.total, hinv.max, fun hfreed => ?_⟩,
    fun call hallowed => ⟨?_, fun hcounted => ?_⟩⟩
  · obtain ⟨st', hok, -⟩ := hinv.step hallowed hcounted
    exact ⟨st', hok⟩
  · have hzero : st.totalAllocatedBytes = 0 := by
      refine BitVec.eq_of_toNat_eq (hinv.total.trans ?_)
      rw [hfreed]
      rfl
    unfold UtilState.computeUtilization
    rw [if_neg (not_not_intro hzero)]
    split
    · exact ⟨_, rfl⟩
    · exact ⟨_, rfl⟩
  · rintro ⟨st', hok, htotal⟩
    exact counted_of_total hinv hallowed hok htotal
  · obtain ⟨st', hok, hinv'⟩ := hinv.step hallowed hcounted
    exact ⟨st', hok, hinv'.total⟩

/-- A request for zero bytes, and a block that is reallocated and freed. -/
theorem accounted_of_run_freed : ∃ st,
    UtilRun false (fun st live call => call.Counted false st live) st ∅ [0, 300, 100, 0, 0] ∧
      st.totalAllocatedBytes = 0 ∧ st.maxAllocatedBytes = 300 ∧
      ∃ utilization, st.computeUtilization = .ok utilization := by
  have hnull : (UtilCall.malloc 0 none ⟨0, []⟩).Allowed ∅ := rfl
  have hzero : (UtilCall.malloc 0 none ⟨0, []⟩).Counted false .init ∅ :=
    ⟨fun _ => ⟨Bool.false_ne_true, AList.notMem_empty 0⟩, by decide⟩
  obtain ⟨st₁, hok₁⟩ := (accounted_of_run false _ _ _ .init).1.noError _ hnull hzero
  have hrun₁ := UtilRun.init.step hnull hzero hok₁
  have hmalloc : (UtilCall.malloc 100 none ⟨16, [4096]⟩).Counted false st₁ ∅ :=
    ⟨fun h0 => absurd h0 (by decide : ¬ (100#64 = 0)), by decide⟩
  have hnew : (UtilCall.malloc 100 none ⟨16, [4096]⟩).Allowed ∅ :=
    ⟨by decide, AList.notMem_empty 16⟩
  obtain ⟨st₂, hok₂⟩ := (accounted_of_run false _ _ _ hrun₁).1.noError _ hnew hmalloc
  have hrun₂ := hrun₁.step hnew hmalloc hok₂
  have hrealloc : (UtilCall.realloc 16 300 ⟨4096, [8192]⟩).Counted false st₂
      (AList.insert 16 100 ∅) := ⟨False.elim, by decide⟩
  have hmoved : (UtilCall.realloc 16 300 ⟨4096, [8192]⟩).Allowed (AList.insert 16 100 ∅) :=
    ⟨.inr (by decide), by decide, by decide, by decide⟩
  obtain ⟨st₃, hok₃⟩ := (accounted_of_run false _ _ _ hrun₂).1.noError _ hmoved hrealloc
  have hrun₃ := hrun₂.step hmoved hrealloc hok₃
  have hfree : (UtilCall.free 4096 [8192]).Counted false st₃ (AList.insert 4096 300 ∅) :=
    ⟨False.elim, by decide⟩
  have hlive : (UtilCall.free 4096 [8192]).Allowed (AList.insert 4096 300 ∅) := .inr (by decide)
  obtain ⟨st₄, hok₄⟩ := (accounted_of_run false _ _ _ hrun₃).1.noError _ hlive hfree
  have hrun₄ : UtilRun false _ st₄ ∅ [0, 300, 100, 0, 0] := hrun₃.step hlive hfree hok₄
  have hacc := (accounted_of_run false _ _ _ hrun₄).1
  have hmax : IsGreatest {sum | sum ∈ [0, 300, 100, 0, 0]} 300 := by
    refine ⟨by decide, fun sum hsum => ?_⟩
    have hle : ∀ sum ∈ [0, 300, 100, 0, 0], sum ≤ 300 := by decide
    exact hle sum hsum
  exact ⟨st₄, hrun₄, BitVec.eq_of_toNat_eq hacc.total, hacc.max.unique hmax, hacc.utilization rfl⟩

/-- Two requests for zero bytes, and one whose size is rounded. -/
theorem not_accounted_zero :
    (¬ ∀ st live sums, UtilRun false (fun _ _ _ => True) st live sums →
      Accounted false (fun _ _ _ => True) st live sums) ∧
    (¬ ∀ st live sums, UtilRun true (fun _ _ _ => True) st live sums →
      Accounted true (fun _ _ _ => True) st live sums) := by
  have hfirst : ∀ effectiveUtil, UtilRun effectiveUtil (fun _ _ _ => True)
      (UtilState.init.updated (0 + roundUp effectiveUtil 0) [] (AList.insert 0 0 ∅)) ∅ [0, 0] :=
    fun effectiveUtil => .malloc rfl trivial
  constructor
  · intro h
    obtain ⟨st', hok⟩ := (h _ _ _ (hfirst false)).noError (.malloc 0 none ⟨0, []⟩) rfl trivial
    have hmem : (UtilOutcome.mk 0 []).ptr ∈
        (UtilState.init.updated (0 + roundUp false 0) [] (AList.insert 0 0 ∅)).sizeMap :=
      (AList.mem_insert _).mpr (.inl rfl)
    obtain ⟨error, herror⟩ := postAlloc_conflict hmem
    cases herror.symm.trans ((UtilState.malloc_eq fun _ => rfl).symm.trans hok)
  · intro h
    have htotal := (h _ _ _ (hfirst true)).total
    exact absurd htotal (by decide)

end MallocBench.Bench
