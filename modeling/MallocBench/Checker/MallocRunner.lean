import MallocBench.Checker.CorrectnessChecker
import MallocBench.Lib.Wp

/-!
# `MallocRunner` on an allocator

`MallocRunner` calls the functions of `allocator_interface.h` and hands what they return to the
hooks of the `CorrectnessChecker`. The hooks read the memory of the allocator and fill its blocks.
Which allocator is behind the interface is a parameter: its states, its functions, and how its
memory is read and written.
-/

namespace MallocBench.Checker

open Lib Trace

/-- `allocator_interface.h`, for an allocator with states `σ` that may stop with an error `ε`. -/
structure Allocator (σ ε : Type) where
  malloc (size alignment : Nat) : StateT σ (Except ε) Nat
  calloc (nmemb size : Nat) : StateT σ (Except ε) Nat
  realloc (ptr size : Nat) : StateT σ (Except ε) Nat
  free (ptr size alignment : Nat) : StateT σ (Except ε) Unit
  /-- its memory, by the byte -/
  bytes (s : σ) : Mem
  /-- the bytes from `ptr` on become those of `mem` -/
  write (ptr size : Nat) (mem : Mem) (s : σ) : σ
  /-- the heaps of the `HeapFactory`, with their starts and ends -/
  heaps (s : σ) : List (Nat × Nat)

/-- What the executor asks a `MallocRunner` for. -/
inductive RunnerCall where
  | malloc (size : Nat) (alignment : Option Nat)
  | calloc (nmemb size : Nat)
  | realloc (ptr size : Nat)
  | free (ptr : Nat) (sizeHint alignmentHint : Option Nat)
deriving DecidableEq, Repr

/-- The state of an allocator, and `allocated_blocks_`. -/
structure Runner (σ : Type) where
  allocator : σ
  allocatedBlocks : AList fun _ : Nat => AllocatedBlock

/-- How a run stops: in the allocator, or with a status of the checker. -/
inductive RunError (ε : Type) where
  | allocator (error : ε)
  | check (error : CheckError)

/-- A call of a `MallocRunner`. -/
abbrev RunM (σ ε α : Type) := StateT (Runner σ) (Except (RunError ε)) α

section

variable {σ ε α : Type}

/-- A call of the allocator. -/
def callAllocator (x : StateT σ (Except ε) α) : RunM σ ε α := fun r =>
  match x r.allocator with
  | .ok (a, s) => .ok (a, { r with allocator := s })
  | .error error => .error (.allocator error)

namespace Allocator

variable (A : Allocator σ ε)

/-- What the hooks see. -/
def view (r : Runner σ) : CheckerState := ⟨A.bytes r.allocator, r.allocatedBlocks⟩

/-- A hook that only reads memory. -/
def preHook (f : CheckerState → Except CheckError (α × CheckerState)) : RunM σ ε α := fun r =>
  match f (A.view r) with
  | .ok (a, st) => .ok (a, { r with allocatedBlocks := st.allocatedBlocks })
  | .error error => .error (.check error)

/-- A hook that may fill the block at `ptr`. It is told what the heaps are. -/
def postHook (ptr size : Nat)
    (f : List (Nat × Nat) → CheckerState → Except CheckError CheckerState) :
    RunM σ ε Unit := fun r =>
  match f (A.heaps r.allocator) (A.view r) with
  | .ok st => .ok ((), ⟨A.write ptr size st.mem r.allocator, st.allocatedBlocks⟩)
  | .error error => .error (.check error)

/-- `MallocRunner::Malloc` -/
def runMalloc (size : Nat) (alignment : Option Nat) (magicBytes : BitVec 64) : RunM σ ε Nat := do
  let ptr ← callAllocator (A.malloc size (alignment.getD 0))
  if size = 0 ∧ ptr ≠ 0 then throw (.check (.mallocZero ptr size))
  else do
    A.postHook ptr size fun heaps st => st.postAlloc size alignment false ⟨ptr, magicBytes, heaps⟩
    pure ptr

/-- `MallocRunner::Calloc`; the product is one of `size_t` -/
def runCalloc (nmemb size : Nat) (magicBytes : BitVec 64) : RunM σ ε Nat := do
  let ptr ← callAllocator (A.calloc nmemb size)
  if (nmemb = 0 ∨ size = 0) ∧ ptr ≠ 0 then throw (.check (.callocZero ptr nmemb size))
  else do
    A.postHook ptr (nmemb * size % 2 ^ 64) fun heaps st =>
      st.postAlloc (nmemb * size % 2 ^ 64) none true ⟨ptr, magicBytes, heaps⟩
    pure ptr

/-- `MallocRunner::Realloc` -/
def runRealloc (ptr size : Nat) (magicBytes : BitVec 64) : RunM σ ε Nat :=
  if ptr = 0 then do
    let newPtr ← callAllocator (A.realloc 0 size)
    A.postHook newPtr size fun heaps st => st.postAlloc size none false ⟨newPtr, magicBytes, heaps⟩
    pure newPtr
  else do
    let block ← A.preHook fun st => st.preRealloc ptr
    let newPtr ← callAllocator (A.realloc ptr size)
    A.postHook newPtr size fun heaps st =>
      st.postRealloc ptr size block ⟨newPtr, magicBytes, heaps⟩
    pure newPtr

/-- `MallocRunner::Free` -/
def runFree (ptr : Nat) (sizeHint alignmentHint : Option Nat) : RunM σ ε Unit := do
  A.preHook fun st => do
    let st ← st.preRelease ptr
    pure ((), st)
  callAllocator (A.free ptr (sizeHint.getD 0) (alignmentHint.getD 0))

/-- A request, and the pointer that it returns; 0 where it returns none. `magicBytes` is what is
drawn for a new block. -/
def run (magicBytes : BitVec 64) : RunnerCall → RunM σ ε Nat
  | .malloc size alignment => A.runMalloc size alignment magicBytes
  | .calloc nmemb size => A.runCalloc nmemb size magicBytes
  | .realloc ptr size => A.runRealloc ptr size magicBytes
  | .free ptr sizeHint alignmentHint => do
    A.runFree ptr sizeHint alignmentHint
    pure 0

/-- The same without the checker. -/
def serve : RunnerCall → StateT σ (Except ε) Nat
  | .malloc size alignment => A.malloc size (alignment.getD 0)
  | .calloc nmemb size => A.calloc nmemb size
  | .realloc ptr size => A.realloc ptr size
  | .free ptr sizeHint alignmentHint => do
    A.free ptr (sizeHint.getD 0) (alignmentHint.getD 0)
    pure 0

end Allocator

end

/-- What `DoMalloc`, `DoCalloc`, `DoRealloc` and `DoFree` ask for, when the pointer of the input id
is `input`. A line without an op is not in a trace that has been accepted. -/
def requestOf (line : TraceLine) (input : Option Nat) : RunnerCall :=
  match line with
  | .malloc malloc => .malloc (malloc.inputSize.getD 0) malloc.inputAlignment
  | .calloc calloc => .calloc (calloc.inputNmemb.getD 0) (calloc.inputSize.getD 0)
  | .realloc realloc => .realloc (input.getD 0) (realloc.inputSize.getD 0)
  | .free free =>
    match input with
    | none => .free 0 none none
    | some ptr => .free ptr free.inputSizeHint free.inputAlignmentHint
  | .opNotSet => .free 0 none none

namespace RunnerCall

/-- The block that goes. -/
def input : RunnerCall → Nat
  | malloc _ _ | calloc _ _ => 0
  | realloc ptr _ | free ptr _ _ => ptr

/-- The bytes that are asked for. -/
def size : RunnerCall → Nat
  | malloc size _ | realloc _ size => size
  | calloc nmemb size => nmemb * size % 2 ^ 64
  | free _ _ _ => 0

/-- What the checker wants to be returned: a pointer, with the alignment that is asked for, unless
nothing is asked for. A block that is resized to nothing has to be somewhere, too. -/
def Serves (ptr : Nat) : RunnerCall → Prop
  | malloc size alignment => size = 0 ∨
    (ptr ≠ 0 ∧ ∀ a, alignment = some a → max a (if size ≤ 8 then 8 else 16) ∣ ptr)
  | calloc nmemb size => nmemb * size % 2 ^ 64 = 0 ∨ ptr ≠ 0
  | realloc input size => (input = 0 ∧ size = 0) ∨ ptr ≠ 0
  | free _ _ _ => True

end RunnerCall

end MallocBench.Checker
