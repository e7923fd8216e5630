import MallocBench.Lib.Bits
import MallocBench.Lib.IdPool
import MallocBench.Trace.RewriteIds

/-!
# `DirtyTracefileReader`

`Open` reads a log of `valgrind --trace-malloc=yes` line by line. The regexes and the parsers of
numbers deliver the fields of a line (`recognise`). A pointer that is allocated gets the smallest
id that is not in use, and gives it back when it is freed. Lines of other processes than that of
the first line are dropped after their pointers have been mapped. At the end everything that is
still allocated is freed.
-/

namespace MallocBench.Trace

open Lib

/-- A line of the log, with a null pointer as 0. -/
inductive LogOp where
  /-- `free({ptr})` -/
  | free (inputPtr : Nat)
  /-- `malloc({size}) = {ptr}` -/
  | malloc (inputSize resultPtr : Nat)
  /-- `memalign(al {alignment}, size {size}) = {ptr}` -/
  | memalign (inputAlignment inputSize resultPtr : Nat)
  /-- `_ZnwmSt11align_val_t(size {size}, al {alignment}) = {ptr}` -/
  | alignedAlloc (inputSize inputAlignment resultPtr : Nat)
  /-- `calloc({nmemb},{size}) = {ptr}` -/
  | calloc (nmemb inputSize resultPtr : Nat)
  /-- `realloc({ptr},{size}) = {ptr}` -/
  | realloc (inputPtr inputSize resultPtr : Nat)
deriving DecidableEq, Repr

/-- What a recognised line says. -/
structure LogEntry where
  pid : Int
  op : LogOp
deriving DecidableEq, Repr

/-- `tracefile.proto`'s `Tracefile` -/
structure Tracefile where
  lines : List TraceLine
  maxSimultaneousAllocs : Option Nat
deriving DecidableEq

inductive ReadError where
  | parsePid (spid : String)
  | parsePtr (sptr : String)
  | parseSize (ssize : String)
  | duplicatePointer (ptr : Nat)
  | unallocatedPtr (ptr : Nat)
deriving DecidableEq, Repr

def ReadError.message : ReadError → String
  | .parsePid spid => s!"failed to parse {spid} as int32"
  | .parsePtr sptr => s!"failed to parse 0x{sptr} as void*"
  | .parseSize ssize => s!"failed to parse {ssize} as size_t"
  | .duplicatePointer ptr => "Allocated duplicate pointer " ++ formatPtr ptr
  | .unallocatedPtr ptr => "Tracefile frees unallocated ptr " ++ formatPtr ptr

/-- `id_map` -/
abbrev PtrIds := AList fun _ : Nat => Nat

/-- The state of the loop of `Open`. The ids and `available_ids` are the pool. -/
structure ReadState where
  lines : List TraceLine
  requiredPid : Option Int
  idMap : PtrIds
  pool : IdPool
  maxSimultaneousAllocs : Nat

namespace ReadState

def init : ReadState :=
  { lines := [], requiredPid := none, idMap := ∅, pool := .empty, maxSimultaneousAllocs := 0 }

/-- `get_next_id` -/
def getNextId (st : ReadState) (ptr : Nat) : Except ReadError (Nat × ReadState) :=
  let (id, pool) := st.pool.take
  if ptr ∈ st.idMap then throw (.duplicatePointer ptr)
  else pure (id, { st with pool := pool, idMap := st.idMap.insert ptr id })

/-- `find_and_erase_id` -/
def findAndEraseId (st : ReadState) (ptr : Nat) : Except ReadError (Nat × ReadState) :=
  match st.idMap.lookup ptr with
  | none => throw (.unallocatedPtr ptr)
  | some id => pure (id, { st with idMap := st.idMap.erase ptr, pool := st.pool.give id })

/-- The id of an input, which a null pointer does not have. -/
def inputId (st : ReadState) (inputPtr : Nat) : Except ReadError (Option Nat × ReadState) :=
  if inputPtr ≠ 0 then do
    let (id, st) ← st.findAndEraseId inputPtr
    pure (some id, st)
  else pure (none, st)

/-- The branches of the loop body. -/
def readOp (st : ReadState) : LogOp → Except ReadError (ReadState × TraceLine)
  | .free inputPtr => do
    let (id, st) ← st.inputId inputPtr
    pure (st, .free { inputId := id, inputSizeHint := none, inputAlignmentHint := none })
  | .malloc inputSize resultPtr => do
    let (id, st) ← st.getNextId resultPtr
    pure (st, .malloc { resultId := some id, inputSize := some inputSize, inputAlignment := none })
  | .memalign inputAlignment inputSize resultPtr => do
    let (id, st) ← st.getNextId resultPtr
    pure (st, .malloc
      { resultId := some id, inputSize := some inputSize, inputAlignment := some inputAlignment })
  | .alignedAlloc inputSize inputAlignment resultPtr => do
    let (id, st) ← st.getNextId resultPtr
    pure (st, .malloc
      { resultId := some id, inputSize := some inputSize, inputAlignment := some inputAlignment })
  | .calloc nmemb inputSize resultPtr => do
    let (id, st) ← st.getNextId resultPtr
    pure (st, .calloc { resultId := some id, inputNmemb := some nmemb, inputSize := some inputSize })
  | .realloc inputPtr inputSize resultPtr => do
    let (inputId, st) ← st.inputId inputPtr
    let (id, st) ← st.getNextId resultPtr
    pure (st, .realloc { resultId := some id, inputId := inputId, inputSize := some inputSize })

/-- The end of the loop body: the first line decides which process is kept. -/
def keep (st : ReadState) (pid : Int) (line : TraceLine) : ReadState :=
  if st.requiredPid.getD pid = pid then
    { st with
      requiredPid := some pid
      lines := st.lines ++ [line]
      maxSimultaneousAllocs := max st.maxSimultaneousAllocs st.idMap.keys.length }
  else st

end ReadState

/-- `std::getline`: the lines that end, and what is behind the last of them, where `eof()` is set. -/
def getlines : List Char → List (List Char) × List Char
  | [] => ([], [])
  | c :: text =>
    let (lines, rest) := getlines text
    if c = '\n' then ([] :: lines, rest)
    else match lines with
      | [] => ([], c :: rest)
      | line :: lines => ((c :: line) :: lines, rest)

section

variable (recognise : List Char → Option (Except ReadError LogEntry))

/-- The loop body. A line that no regex matches is skipped. -/
def ReadState.readLine (st : ReadState) (line : List Char) : Except ReadError ReadState :=
  match recognise line with
  | none => pure st
  | some entry => do
    let entry ← entry
    let (st, line) ← st.readOp entry.op
    pure (st.keep entry.pid line)

/-- The loop, which has done `iter` lines. A file has less than `2 ^ 63` lines, so the sum does
not overflow. -/
def ReadState.readLines (maxOps : Nat) : Nat → ReadState → List (List Char) →
    Except ReadError ReadState
  | _, st, [] => pure st
  | iter, st, line :: lines =>
    if iter + st.idMap.keys.length < maxOps then do
      let st ← st.readLine recognise line
      st.readLines maxOps (iter + 1) lines
    else pure st

/-- The line that frees an id. -/
def freeLine (id : Nat) : TraceLine :=
  .free { inputId := some id, inputSizeHint := none, inputAlignmentHint := none }

/-- The order in which a hash map lists its entries, which may be any. -/
structure HashOrder where
  entries : PtrIds → List (Nat × Nat)
  perm : ∀ m, (entries m).Perm (m.entries.map fun entry => (entry.1, entry.2))

instance : Inhabited HashOrder := ⟨⟨fun m => m.entries.map fun entry => (entry.1, entry.2), fun _ => .refl _⟩⟩

/-- `Open`, on the text of the file -/
def openLog (order : HashOrder) (maxOps : Nat) (text : List Char) : Except ReadError Tracefile := do
  let st ← ReadState.init.readLines recognise maxOps 0 (getlines text).1
  pure
    { lines := st.lines ++ (order.entries st.idMap).map fun entry => freeLine entry.2
      maxSimultaneousAllocs := some st.maxSimultaneousAllocs }

end

end MallocBench.Trace
