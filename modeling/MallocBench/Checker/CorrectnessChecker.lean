import MallocBench.Checker.MagicBytes
import MallocBench.Trace.RewriteIds

/-!
# `CorrectnessChecker`

The checker runs the ops of a trace on an allocator and keeps a map of the allocated blocks with
the pattern that each is filled with. What the allocator does is an input of every call: the
pointer it returns, and what it knows of its heaps. It changes memory by clearing the block of a
`calloc` and by copying that of a `realloc`.
-/

namespace MallocBench.Checker

open Lib

structure AllocatedBlock where
  size : Nat
  magicBytes : BitVec 64
deriving DecidableEq, Repr

inductive CheckError where
  | nullptrAlloc (size : Nat)
  | outOfRange (ptr size : Nat) (heaps : List (Nat × Nat))
  | notAligned (ptr size alignment : Nat)
  | duplicateAllocation (ptr size oldSize : Nat)
  | notCleared (ptr size : Nat)
  | reallocNotFound (ptr : Nat)
  | reallocConflict (oldPtr size : Nat)
  | freedNotFound (ptr : Nat)
  | dirtied (ptr size offset : Nat)
  | mallocZero (ptr size : Nat)
  | callocZero (ptr nmemb size : Nat)
deriving DecidableEq, Repr

/-- `kFailedTestPrefix` -/
def failedTestPrefix : String := "[Failed]"

/-- The heaps of a message. -/
def formatHeaps (heaps : List (Nat × Nat)) : String :=
  ", ".intercalate (heaps.map fun heap => formatPtr heap.1 ++ "-" ++ formatPtr heap.2)

def CheckError.message : CheckError → String
  | .nullptrAlloc size =>
    s!"{failedTestPrefix} Bad nullptr alloc for size {size}, did you run out of memory?"
  | .outOfRange ptr size heaps => failedTestPrefix ++ " Bad alloc of out-of-range block at " ++
    formatPtr ptr ++ s!" of size {size}, heaps range from " ++ formatHeaps heaps
  | .notAligned ptr size alignment => failedTestPrefix ++ " Pointer " ++ formatPtr ptr ++
    s!" of size {size} is not aligned to {alignment} bytes"
  | .duplicateAllocation ptr size oldSize => failedTestPrefix ++ " Duplicate allocation " ++
    formatPtr ptr ++ s!", requested size {size}, but already exists and is of size {oldSize}"
  | .notCleared ptr size => failedTestPrefix ++ " calloc-ed block at " ++ formatPtr ptr ++
    s!" of size {size} is not cleared"
  | .reallocNotFound ptr => failedTestPrefix ++ " realloc-ed block " ++ formatPtr ptr ++
    " not found in allocated blocks map"
  | .reallocConflict oldPtr size => failedTestPrefix ++ " realloc-ed block " ++ formatPtr oldPtr ++
    s!" of size {size} conflicts with existing allocation"
  | .freedNotFound ptr => failedTestPrefix ++ " freed block " ++ formatPtr ptr ++
    " not found in allocated blocks map"
  | .dirtied ptr size offset => failedTestPrefix ++ " Allocated block " ++ formatPtr ptr ++
    s!" of size {size} has dirtied bytes at position {offset} from the beginning"
  | .mallocZero ptr size => failedTestPrefix ++
    " Expected `nullptr` return value on malloc with size 0: " ++ formatPtr ptr ++
    s!" = malloc({size})"
  | .callocZero ptr nmemb size => failedTestPrefix ++
    " Expected `nullptr` return value on calloc with size 0: " ++ formatPtr ptr ++
    s!" = calloc({nmemb}, {size})"

/-- Memory and `allocated_blocks_` -/
structure CheckerState where
  mem : Mem
  allocatedBlocks : AList fun _ : Nat => AllocatedBlock

/-- What an allocation returns, the pattern that is drawn for it, and the heaps then. -/
structure Outcome where
  ptr : Nat
  magicBytes : BitVec 64
  heaps : List (Nat × Nat)

/-- `ValidateNewBlock`; the end of the block is an address -/
def validateNewBlock (heaps : List (Nat × Nat)) (ptr size : Nat) (alignment : Option Nat) :
    Except CheckError Unit :=
  if ptr = 0 then throw (.nullptrAlloc size)
  else if ¬ heaps.any (fun heap => heap.1 ≤ ptr ∧ (ptr + size) % 2 ^ 64 ≤ heap.2) then
    throw (.outOfRange ptr size heaps)
  else match alignment with
    | none => pure ()
    | some alignment =>
      let minAlignment := if size ≤ 8 then 8 else 16
      let alignment := max alignment minAlignment
      if ptr % alignment ≠ 0 then throw (.notAligned ptr size alignment) else pure ()

/-- `CheckMagicBytes`, with the error of the checker -/
def checkBlock (mem : Mem) (ptr size : Nat) (magicBytes : BitVec 64) : Except CheckError Unit :=
  match checkMagicBytes mem ptr size magicBytes with
  | .ok () => pure ()
  | .error offset => throw (.dirtied ptr size offset)

namespace CheckerState

/-- `PostAlloc` -/
def postAlloc (st : CheckerState) (size : Nat) (alignment : Option Nat) (isCalloc : Bool)
    (outcome : Outcome) : Except CheckError CheckerState := do
  if size = 0 then pure st
  else do
    validateNewBlock outcome.heaps outcome.ptr size alignment
    match st.allocatedBlocks.lookup outcome.ptr with
    | some block => throw (.duplicateAllocation outcome.ptr size block.size)
    | none =>
      if isCalloc ∧ (List.range size).any fun i => st.mem (outcome.ptr + i) ≠ 0 then
        throw (.notCleared outcome.ptr size)
      else
        let block : AllocatedBlock := { size := size, magicBytes := outcome.magicBytes }
        pure ({
          mem := fillMagicBytes st.mem outcome.ptr size outcome.magicBytes
          allocatedBlocks := st.allocatedBlocks.insert outcome.ptr block })

/-- `PreRealloc` -/
def preRealloc (st : CheckerState) (ptr : Nat) :
    Except CheckError (AllocatedBlock × CheckerState) :=
  match st.allocatedBlocks.lookup ptr with
  | none => throw (.reallocNotFound ptr)
  | some block => do
    checkBlock st.mem ptr block.size block.magicBytes
    pure (block, { st with allocatedBlocks := st.allocatedBlocks.erase ptr })

/-- `PostRealloc` -/
def postRealloc (st : CheckerState) (oldPtr size : Nat) (block : AllocatedBlock)
    (outcome : Outcome) : Except CheckError CheckerState := do
  validateNewBlock outcome.heaps outcome.ptr size (some 0)
  if outcome.ptr ∈ st.allocatedBlocks then throw (.reallocConflict oldPtr size)
  else do
    checkBlock st.mem outcome.ptr (min block.size size) block.magicBytes
    pure ({
      mem := if block.size < size then fillMagicBytes st.mem outcome.ptr size block.magicBytes
        else st.mem
      allocatedBlocks := st.allocatedBlocks.insert outcome.ptr { block with size := size } })

/-- `PreRelease` -/
def preRelease (st : CheckerState) (ptr : Nat) : Except CheckError CheckerState :=
  if ptr = 0 then pure st
  else match st.allocatedBlocks.lookup ptr with
    | none => throw (.freedNotFound ptr)
    | some block => do
      checkBlock st.mem ptr block.size block.magicBytes
      pure { st with allocatedBlocks := st.allocatedBlocks.erase ptr }

end CheckerState

/-! ## `MallocRunner` -/

/-- The memory after `calloc` has cleared a block. -/
def clearBlock (mem : Mem) (ptr size : Nat) : Mem := fun a =>
  if ptr ≤ a ∧ a < ptr + size then 0 else mem a

/-- The memory after `realloc` has copied `size` bytes. -/
def copyBlock (mem : Mem) (newPtr ptr size : Nat) : Mem := fun a =>
  if newPtr ≤ a ∧ a < newPtr + size then mem (ptr + (a - newPtr)) else mem a

namespace CheckerState

/-- `MallocRunner::Malloc` -/
def malloc (st : CheckerState) (size : Nat) (alignment : Option Nat) (outcome : Outcome) :
    Except CheckError CheckerState :=
  if size = 0 ∧ outcome.ptr ≠ 0 then throw (.mallocZero outcome.ptr size)
  else st.postAlloc size alignment false outcome

/-- `MallocRunner::Calloc`; the product is one of `size_t` -/
def calloc (st : CheckerState) (nmemb size : Nat) (outcome : Outcome) :
    Except CheckError CheckerState :=
  if (nmemb = 0 ∨ size = 0) ∧ outcome.ptr ≠ 0 then throw (.callocZero outcome.ptr nmemb size)
  else { st with mem := clearBlock st.mem outcome.ptr (nmemb * size % 2 ^ 64) }.postAlloc
    (nmemb * size % 2 ^ 64) none true outcome

/-- `MallocRunner::Realloc` -/
def realloc (st : CheckerState) (ptr size : Nat) (outcome : Outcome) :
    Except CheckError CheckerState :=
  if ptr = 0 then st.postAlloc size none false outcome
  else do
    let (block, st) ← st.preRealloc ptr
    { st with mem := copyBlock st.mem outcome.ptr ptr (min block.size size) }.postRealloc ptr size
      block outcome

/-- `MallocRunner::Free` -/
def free (st : CheckerState) (ptr : Nat) : Except CheckError CheckerState :=
  st.preRelease ptr

end CheckerState

/-- The calls of a run, with what the allocator does. -/
inductive Call where
  | malloc (size : Nat) (alignment : Option Nat) (outcome : Outcome)
  | calloc (nmemb size : Nat) (outcome : Outcome)
  | realloc (ptr size : Nat) (outcome : Outcome)
  | free (ptr : Nat)

def CheckerState.step (st : CheckerState) : Call → Except CheckError CheckerState
  | .malloc size alignment outcome => st.malloc size alignment outcome
  | .calloc nmemb size outcome => st.calloc nmemb size outcome
  | .realloc ptr size outcome => st.realloc ptr size outcome
  | .free ptr => st.free ptr

/-- A run up to the first error. -/
def CheckerState.run (st : CheckerState) (calls : List Call) : Except CheckError CheckerState :=
  calls.foldlM CheckerState.step st

variable {st st' : CheckerState} {size ptr : Nat} {alignment : Option Nat} {isCalloc : Bool}
  {outcome : Outcome} {heaps : List (Nat × Nat)}

/-! ## What a successful call says -/

theorem validateNewBlock_ok_iff : validateNewBlock heaps ptr size alignment = .ok () ↔
    ptr ≠ 0 ∧ (∃ heap ∈ heaps, heap.1 ≤ ptr ∧ (ptr + size) % 2 ^ 64 ≤ heap.2) ∧
      ∀ a, alignment = some a → max a (if size ≤ 8 then 8 else 16) ∣ ptr := by
  unfold validateNewBlock
  by_cases hptr : ptr = 0
  · rw [if_pos hptr]
    exact iff_of_false (fun h => nomatch h) fun h => h.1 hptr
  rw [if_neg hptr]
  by_cases hheap : ∃ heap ∈ heaps, heap.1 ≤ ptr ∧ (ptr + size) % 2 ^ 64 ≤ heap.2
  · have hany : heaps.any (fun heap => heap.1 ≤ ptr ∧ (ptr + size) % 2 ^ 64 ≤ heap.2) = true := by
      simpa using hheap
    rw [if_neg (not_not_intro hany)]
    cases alignment with
    | none => exact iff_of_true rfl ⟨hptr, hheap, fun a hc => nomatch hc⟩
    | some a =>
      refine throw_if_ok_iff.trans ?_
      rw [not_not, ← Nat.dvd_iff_mod_eq_zero]
      constructor
      · intro hdvd
        refine ⟨hptr, hheap, ?_⟩
        rintro _ ⟨⟩
        exact hdvd
      · rintro ⟨-, -, hdvd⟩
        exact hdvd a rfl
  · have hany : ¬ heaps.any (fun heap => heap.1 ≤ ptr ∧ (ptr + size) % 2 ^ 64 ≤ heap.2) = true := by
      simpa using hheap
    rw [if_pos hany]
    exact iff_of_false (fun h => nomatch h) fun h => hheap h.2.1

theorem checkBlock_ok_iff {mem : Mem} {magicBytes : BitVec 64} :
    checkBlock mem ptr size magicBytes = .ok () ↔ HoldsMagicBytes mem ptr size magicBytes := by
  rw [← checkMagicBytes_ok_iff, checkBlock]
  cases checkMagicBytes mem ptr size magicBytes with
  | error => exact iff_of_false (fun h => nomatch h) fun h => nomatch h
  | ok => exact iff_of_true rfl rfl

namespace CheckerState

/-- The state after a block has been allocated and filled. -/
def allocated (st : CheckerState) (ptr size : Nat) (magicBytes : BitVec 64) : CheckerState where
  mem := fillMagicBytes st.mem ptr size magicBytes
  allocatedBlocks := st.allocatedBlocks.insert ptr { size := size, magicBytes := magicBytes }

theorem postAlloc_ok_iff (hsize : size ≠ 0) :
    st.postAlloc size alignment isCalloc outcome = .ok st' ↔
      validateNewBlock outcome.heaps outcome.ptr size alignment = .ok () ∧
      outcome.ptr ∉ st.allocatedBlocks ∧
      (isCalloc → ∀ i, i < size → st.mem (outcome.ptr + i) = 0) ∧
      st' = st.allocated outcome.ptr size outcome.magicBytes := by
  unfold postAlloc
  rw [if_neg hsize]
  cases hvalid : validateNewBlock outcome.heaps outcome.ptr size alignment with
  | error error => exact iff_of_false (fun h => nomatch h) fun h => nomatch h.1
  | ok =>
    show (match st.allocatedBlocks.lookup outcome.ptr with
      | some block => throw (.duplicateAllocation outcome.ptr size block.size)
      | none =>
        if isCalloc ∧ (List.range size).any fun i => st.mem (outcome.ptr + i) ≠ 0 then
          throw (.notCleared outcome.ptr size)
        else pure (st.allocated outcome.ptr size outcome.magicBytes) :
          Except CheckError CheckerState) = .ok st' ↔ _
    cases hlookup : st.allocatedBlocks.lookup outcome.ptr with
    | some block =>
      have hmem : outcome.ptr ∈ st.allocatedBlocks :=
        AList.lookup_isSome.mp (by rw [hlookup]; rfl)
      exact iff_of_false (fun h => nomatch h) fun h => h.2.1 hmem
    | none =>
      have hnot := AList.lookup_eq_none.mp hlookup
      by_cases hclear : isCalloc ∧ (List.range size).any fun i => st.mem (outcome.ptr + i) ≠ 0
      · simp only [if_pos hclear]
        refine iff_of_false (fun h => nomatch h) ?_
        rintro ⟨-, -, hzero, -⟩
        obtain ⟨i, hi, hne⟩ := List.any_eq_true.mp hclear.2
        exact absurd (hzero hclear.1 i (List.mem_range.mp hi)) (by simpa using hne)
      · simp only [if_neg hclear]
        constructor
        · intro h
          refine ⟨trivial, hnot, fun hcalloc i hi => ?_, (Except.ok.inj h).symm⟩
          by_contra hne
          exact hclear ⟨hcalloc, List.any_eq_true.mpr ⟨i, List.mem_range.mpr hi, by simpa using hne⟩⟩
        · rintro ⟨-, -, -, rfl⟩
          rfl

theorem preRealloc_ok {block : AllocatedBlock} (h : st.preRealloc ptr = .ok (block, st')) :
    st.allocatedBlocks.lookup ptr = some block ∧
      HoldsMagicBytes st.mem ptr block.size block.magicBytes ∧
      st' = { st with allocatedBlocks := st.allocatedBlocks.erase ptr } := by
  unfold preRealloc at h
  cases hlookup : st.allocatedBlocks.lookup ptr with
  | none =>
    rw [hlookup] at h
    cases h
  | some found =>
    rw [hlookup] at h
    obtain ⟨⟨⟩, hcheck, h⟩ := exists_of_bind_ok h
    obtain ⟨rfl, rfl⟩ := Prod.mk.inj (Except.ok.inj h)
    exact ⟨rfl, checkBlock_ok_iff.mp hcheck, rfl⟩

theorem postRealloc_ok {block : AllocatedBlock} {oldPtr : Nat}
    (h : st.postRealloc oldPtr size block outcome = .ok st') :
    validateNewBlock outcome.heaps outcome.ptr size (some 0) = .ok () ∧
      outcome.ptr ∉ st.allocatedBlocks ∧ st' = {
        mem := if block.size < size then fillMagicBytes st.mem outcome.ptr size block.magicBytes
          else st.mem
        allocatedBlocks := st.allocatedBlocks.insert outcome.ptr { block with size := size } } := by
  unfold postRealloc at h
  obtain ⟨⟨⟩, hvalid, h⟩ := exists_of_bind_ok h
  by_cases hmem : outcome.ptr ∈ st.allocatedBlocks
  · rw [if_pos hmem] at h
    cases h
  · rw [if_neg hmem] at h
    obtain ⟨⟨⟩, -, h⟩ := exists_of_bind_ok h
    exact ⟨hvalid, hmem, (Except.ok.inj h).symm⟩

theorem preRelease_ok (hptr : ptr ≠ 0) (h : st.preRelease ptr = .ok st') :
    ∃ block, st.allocatedBlocks.lookup ptr = some block ∧
      HoldsMagicBytes st.mem ptr block.size block.magicBytes ∧
      st' = { st with allocatedBlocks := st.allocatedBlocks.erase ptr } := by
  unfold preRelease at h
  rw [if_neg hptr] at h
  cases hlookup : st.allocatedBlocks.lookup ptr with
  | none =>
    rw [hlookup] at h
    cases h
  | some block =>
    rw [hlookup] at h
    obtain ⟨⟨⟩, hcheck, h⟩ := exists_of_bind_ok h
    exact ⟨block, rfl, checkBlock_ok_iff.mp hcheck, (Except.ok.inj h).symm⟩

end CheckerState

end MallocBench.Checker
