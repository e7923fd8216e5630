import Mathlib.Data.List.AList
import MallocBench.Lib.IdPool
import MallocBench.Trace.RewriteIds

/-!
# The id maps of a replay

A replay runs the lines of a trace several times. `ConcurrentIdMap` maps the unique id of a
result to its pointer, or to an op that waits for it. A worker takes a batch of ops from it:
`MakeFromOps` renames the ids of the ops to the slots of a small array, loads the pointers that
come from the global map into their slots, and keeps the slots of the results that the batch does
not release.
-/

namespace MallocBench.Replay

open Lib Trace

/-- `std::pair<const TraceLine*, uint64_t>`: a line of the trace and the iteration over the trace -/
structure Op where
  lineIdx : Nat
  iteration : Nat
deriving DecidableEq, Repr

/-- The line that an op points to. -/
def Op.line (tracefile : List TraceLine) (op : Op) : TraceLine :=
  tracefile.getD op.lineIdx .opNotSet

/-- `ConcurrentIdMap::UniqueId` -/
def uniqueId (id iteration : Nat) (tracefile : List TraceLine) : Nat :=
  (id + iteration * tracefile.length) % 2 ^ 64

/-! ## `ConcurrentIdMap` -/

/-- `MapVal`: the pointer of an allocation or the op that waits for it -/
inductive MapVal where
  | allocatedPtr (ptr : Nat)
  | idx (op : Op)
deriving DecidableEq, Repr

/-- `id_map_` -/
abbrev GlobalIdMap := AList fun _ : Nat => MapVal

/-- Errors of the id maps, and the read of a pointer from a slot that holds an op. -/
inductive BatchError where
  | noAllocationFound (uniqueId : Nat)
  | failedToErase (id : Nat)
  | duplicateUniqueId (uniqueId : Nat)
  | pendingRead (uniqueId : Nat)
deriving DecidableEq, Repr

/-- The texts of the errors; the read has none. -/
def BatchError.message : BatchError → Option String
  | noAllocationFound id => some s!"No allocation found with unique id {id}"
  | failedToErase id => some s!"Failed to erase ID {id} from the map, not found"
  | duplicateUniqueId id =>
    some s!"Duplicate unique ID encountered while preparing allocation batch: {id}"
  | pendingRead _ => none

/-- `LookupAllocation` -/
def lookupAllocation (idMap : GlobalIdMap) (id : Nat) : Except BatchError (Option Nat) :=
  match idMap.lookup id with
  | none => pure none
  | some (.allocatedPtr ptr) => pure (some ptr)
  | some (.idx _) => throw (.pendingRead id)

/-- `AddFree` -/
def addFree (idMap : GlobalIdMap) (id : Nat) : Except BatchError GlobalIdMap :=
  if id ∈ idMap then pure (idMap.erase id) else throw (.failedToErase id)

/-! ## `BatchContext` -/

/-- The state of `MakeFromOps`: the id generator, the map from the unique ids of results to
their slots, the slots, and the global map. -/
structure BatchState where
  idGen : IdPool
  idToIdx : AList fun _ : Nat => Nat
  idMap : Nat → Nat
  globalIdMap : GlobalIdMap

/-- The slot of an input id: that of a result of the batch, or a new one, into which the
pointer is loaded. -/
def BatchState.inputIdx (st : BatchState) (uniqueId : Nat) : Except BatchError (Nat × BatchState) :=
  match st.idToIdx.lookup uniqueId with
  | some idx => pure (idx, { st with idToIdx := st.idToIdx.erase uniqueId })
  | none => do
    let (idx, idGen) := st.idGen.fresh
    let allocation ← lookupAllocation st.globalIdMap uniqueId
    match allocation with
    | none => throw (.noAllocationFound uniqueId)
    | some ptr => do
      let globalIdMap ← addFree st.globalIdMap uniqueId
      pure (idx, { st with
        idGen := idGen
        idMap := Function.update st.idMap idx ptr
        globalIdMap := globalIdMap })

/-- The part of the loop body of `MakeFromOps` for an input id: its slot is free from now on. -/
def BatchState.addInput (st : BatchState) (line : TraceLine) :
    Option Nat → Except BatchError (BatchState × TraceLine)
  | none => pure (st, line)
  | some uniqueId => do
    let (idx, st) ← st.inputIdx uniqueId
    pure ({ st with idGen := st.idGen.give idx }, setInputId idx line)

/-- The part of the loop body of `MakeFromOps` for a result id -/
def BatchState.addResult (st : BatchState) (line : TraceLine) :
    Option Nat → Except BatchError (BatchState × TraceLine)
  | none => pure (st, line)
  | some uniqueId =>
    let (idx, idGen) := st.idGen.take
    if uniqueId ∈ st.idToIdx then throw (.duplicateUniqueId uniqueId)
    else pure ({ st with idGen := idGen, idToIdx := st.idToIdx.insert uniqueId idx },
      setResultId idx line)

/-- The unique ids of the input and the result of an op. -/
def Op.uniqueIds (tracefile : List TraceLine) (op : Op) : Option Nat × Option Nat :=
  let (inputId, resultId) := inputAndResultIds (op.line tracefile)
  (inputId.map (uniqueId · op.iteration tracefile), resultId.map (uniqueId · op.iteration tracefile))

/-- The loop body of `MakeFromOps` -/
def BatchState.addOp (st : BatchState) (op : Op) (tracefile : List TraceLine) :
    Except BatchError (BatchState × TraceLine) := do
  let (inputId, resultId) := op.uniqueIds tracefile
  let (st, line) ← st.addInput (op.line tracefile) inputId
  st.addResult line resultId

def BatchState.addOps (st : BatchState) (tracefile : List TraceLine) :
    List Op → Except BatchError (BatchState × List TraceLine)
  | [] => pure (st, [])
  | op :: ops => do
    let (st, line) ← st.addOp op tracefile
    let (st, lines) ← st.addOps tracefile ops
    pure (st, line :: lines)

/-- `BatchContext` -/
structure BatchContext where
  ops : List TraceLine
  idToIdx : AList fun _ : Nat => Nat
  idMap : Nat → Nat

/-- `MakeFromOps`. The slots hold anything before. -/
def makeFromOps (ops : List Op) (globalIdMap : GlobalIdMap) (tracefile : List TraceLine)
    (uninitialised : Nat → Nat) : Except BatchError (BatchContext × GlobalIdMap) := do
  let (st, lines) ← BatchState.addOps
    { idGen := .empty, idToIdx := ∅, idMap := uninitialised, globalIdMap := globalIdMap } tracefile ops
  pure ({ ops := lines, idToIdx := st.idToIdx, idMap := st.idMap }, st.globalIdMap)

/-- `AllocationsToRecord`, when the slots hold `idMap` -/
def BatchContext.allocationsToRecord (context : BatchContext) (idMap : Nat → Nat) :
    List (Nat × Nat) :=
  context.idToIdx.entries.map fun entry => (entry.1, idMap entry.2)

end MallocBench.Replay
