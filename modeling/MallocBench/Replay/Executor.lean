import MallocBench.Lib.Barrier
import MallocBench.Lib.Threads
import MallocBench.Replay.IdMaps

/-!
# The executor

The workers of a replay claim ops from the trace by an atomic index, exchange pointers and ops that
wait for them by the `ConcurrentIdMap`, and keep step by a barrier. A step of a worker accesses what
they share at most once; the workers are interleaved arbitrarily. What the allocator does and what
an array holds that has not been initialised is arbitrary, and so is the order in which
`AllocationsToRecord` yields what is in a hash map.

* `Shared` is what the workers share, with the ops that have been performed so far.
* `WorkerPc` is where a worker is, with its local variables, and `WorkerStep` its next step.
-/

namespace MallocBench.Replay

open Lib Trace

/-- What a replay runs: the trace with unique ids, how often it is repeated, and the number of
workers. -/
structure Executor where
  tracefile : List TraceLine
  numRepetitions : Nat
  nThreads : Nat

/-- `num_repetitions_ * tracefile_.lines_size()` -/
def Executor.numOps (ex : Executor) : Nat := ex.numRepetitions * ex.tracefile.length % 2 ^ 64

/-- The op at an index: its line and its iteration. -/
def Executor.op (ex : Executor) (i : Nat) : Op where
  lineIdx := i % ex.tracefile.length
  iteration := i / ex.tracefile.length

def kBatchSize : Nat := 512

def kMaxQueuedOpsTaken : Nat := 128

/-! ## What is shared -/

/-- An op that has been performed, with the pointer of its input id and what the allocator has
returned. -/
structure Performed where
  op : Op
  input : Option Nat
  result : Nat
deriving DecidableEq, Repr

/-- What the workers share. `misread` says that a slot of the map has been read as the other member
of its union. -/
structure Shared where
  idx : Nat
  done : Bool
  idMap : GlobalIdMap
  queuedOps : List Op
  barrier : Barrier
  performed : List Performed
  misread : Bool

/-- `MaybeSuspendAllocation` -/
def maybeSuspendAllocation (idMap : GlobalIdMap) (id : Nat) (op : Op) : Bool × GlobalIdMap :=
  if id ∈ idMap then (false, idMap) else (true, idMap.insert id (.idx op))

/-! ## `PrepareOpsFromTrace` -/

/-- The ops that have been taken, and `local_allocations`. -/
structure Taking where
  queuedOps : List Op
  traceOps : List Op
  localAllocations : Finset Nat

namespace Taking

/-- `remaining_ops_to_take` -/
def remaining (t : Taking) : Nat := kBatchSize - t.queuedOps.length - t.traceOps.length

def ops (t : Taking) : List Op := t.queuedOps ++ t.traceOps

/-- The result of an op that can be done is in `local_allocations`. -/
def addResult (localAllocations : Finset Nat) (resultId : Option Nat) : Finset Nat :=
  resultId.elim localAllocations fun id => insert id localAllocations

/-- `CanDoOpOrQueue` -/
def canDoOpOrQueue (tracefile : List TraceLine) (localAllocations : Finset Nat)
    (idMap : GlobalIdMap) (op : Op) : Bool × Finset Nat × GlobalIdMap :=
  let (inputId, resultId) := op.uniqueIds tracefile
  match inputId with
  | none => (true, addResult localAllocations resultId, idMap)
  | some id =>
    if id ∈ localAllocations then
      (true, addResult (localAllocations.erase id) resultId, idMap)
    else
      let (suspended, idMap) := maybeSuspendAllocation idMap id op
      if suspended then (false, localAllocations, idMap)
      else (true, addResult localAllocations resultId, idMap)

/-- An op that can be done is taken. -/
def add (t : Taking) (canDo : Bool) (localAllocations : Finset Nat) (op : Op) : Taking :=
  if canDo then { t with traceOps := t.traceOps ++ [op], localAllocations := localAllocations }
  else t

end Taking

/-! ## `MakeFromOps` -/

/-- The local variables of `MakeFromOps`, and the lines of the ops so far. -/
structure Making where
  idGen : IdPool
  idToIdx : AList fun _ : Nat => Nat
  idMap : Nat → Nat
  made : List (Op × TraceLine)
  todo : List Op

namespace Making

def start (ops : List Op) (uninitialised : Nat → Nat) : Making where
  idGen := .empty
  idToIdx := ∅
  idMap := uninitialised
  made := []
  todo := ops

/-- The variables, with the global map. -/
def state (mk : Making) (globalIdMap : GlobalIdMap) : BatchState where
  idGen := mk.idGen
  idToIdx := mk.idToIdx
  idMap := mk.idMap
  globalIdMap := globalIdMap

/-- The variables after the pointer of an input has been loaded into a new slot. -/
def loaded (mk : Making) (ptr : Nat) (globalIdMap : GlobalIdMap) : BatchState where
  idGen := mk.idGen.fresh.2.give mk.idGen.fresh.1
  idToIdx := mk.idToIdx
  idMap := Function.update mk.idMap mk.idGen.fresh.1 ptr
  globalIdMap := globalIdMap

/-- The op has become `line`. -/
def next (mk : Making) (st : BatchState) (op : Op) (line : TraceLine) (todo : List Op) : Making where
  idGen := st.idGen
  idToIdx := st.idToIdx
  idMap := st.idMap
  made := mk.made ++ [(op, line)]
  todo := todo

end Making

/-! ## `ProcessLine` -/

/-- The slots after `DoMalloc` -/
def doMalloc (malloc : Malloc) (idMap : Nat → Nat) (ptr : Nat) : Nat → Nat :=
  if malloc.inputSize.getD 0 ≠ 0 then
    malloc.resultId.elim idMap fun id => Function.update idMap id ptr
  else idMap

/-- The slots after `DoCalloc` -/
def doCalloc (calloc : Calloc) (idMap : Nat → Nat) (ptr : Nat) : Nat → Nat :=
  if calloc.inputNmemb.getD 0 ≠ 0 ∧ calloc.inputSize.getD 0 ≠ 0 then
    calloc.resultId.elim idMap fun id => Function.update idMap id ptr
  else idMap

/-- The slots after `DoRealloc` -/
def doRealloc (realloc : Realloc) (idMap : Nat → Nat) (resultPtr : Nat) : Nat → Nat :=
  Function.update idMap (realloc.resultId.getD 0) resultPtr

/-- The slots after `ProcessLine`, when the allocator returns `result`. -/
def processLine (line : TraceLine) (idMap : Nat → Nat) (result : Nat) : Nat → Nat :=
  match line with
  | .malloc malloc => doMalloc malloc idMap result
  | .calloc calloc => doCalloc calloc idMap result
  | .realloc realloc => doRealloc realloc idMap result
  | .free _ | .opNotSet => idMap

/-- The pointer of the input id that `DoRealloc` and `DoFree` pass on. -/
def inputPtr (line : TraceLine) (idMap : Nat → Nat) : Option Nat :=
  (inputAndResultIds line).1.map idMap

/-! ## The workers -/

/-- The ops of a batch that are still to be performed, `id_to_idx_`, and the slots. -/
structure Batch where
  todo : List (Op × TraceLine)
  idToIdx : AList fun _ : Nat => Nat
  idMap : Nat → Nat

/-- `AllocationsToRecord` -/
def Batch.allocationsToRecord (b : Batch) : List (Nat × Nat) :=
  b.idToIdx.entries.map fun entry => (entry.1, b.idMap entry.2)

inductive WorkerError where
  | batch (error : BatchError)
  | failedToInsert (id : Nat)
  | allocator
deriving DecidableEq, Repr

/-- The texts of the errors; that of the allocator is its own. -/
def WorkerError.message : WorkerError → Option String
  | .batch error => error.message
  | .failedToInsert id => some s!"Failed to insert {id} after queuing pending operation."
  | .allocator => none

/-- Where a worker is: `ProcessorWorker`, and the functions that it calls. -/
inductive WorkerPc where
  | head
  | takeFromQueue
  | claim (t : Taking)
  | clamp (t : Taking)
  | scan (t : Taking) (i endIdx : Nat)
  | prepared (ops : List Op)
  | make (mk : Making)
  | load (mk : Making) (id ptr : Nat)
  | arrive (b : Batch) (second : Bool)
  | wait (b : Batch) (second : Bool) (token : Nat)
  | process (b : Batch)
  | flush (records : List (Nat × Nat))
  | assign (id ptr : Nat) (op : Op) (records : List (Nat × Nat))
  | push (op : Op) (records : List (Nat × Nat))
  | arriveNext
  | waitNext (token : Nat)
  | drop
  | returned
  | failed (error : WorkerError) (stored : Bool)

/-- The range of ops that starts at `first`; an empty one ends `PrepareOpsFromTrace`. -/
def WorkerPc.range (ex : Executor) (t : Taking) (first : Nat) : WorkerPc :=
  let endIdx := min ((first + t.remaining) % 2 ^ 64) ex.numOps
  if first = endIdx then .prepared t.ops else .scan t first endIdx

inductive WorkerStep (ex : Executor) : ThreadStep WorkerPc Shared
  -- the loop of `ProcessorWorker`
  | stop (m : Shared) (h : m.done) : WorkerStep ex .head m .drop m
  | loop (m : Shared) (h : ¬ m.done) : WorkerStep ex .head m .takeFromQueue m
  | takeFromQueue (m : Shared) :
    WorkerStep ex .takeFromQueue m (.claim ⟨m.queuedOps.take kMaxQueuedOpsTaken, [], ∅⟩)
      { m with queuedOps := m.queuedOps.drop kMaxQueuedOpsTaken }
  -- the loops of `PrepareOpsFromTrace`
  | enough (t : Taking) (m : Shared) (h : t.remaining = 0) :
    WorkerStep ex (.claim t) m (.prepared t.ops) m
  | fetchAdd (t : Taking) (m : Shared) (h : t.remaining ≠ 0) :
    WorkerStep ex (.claim t) m
      (if ex.numOps ≤ m.idx then .clamp t else .range ex t m.idx)
      { m with idx := (m.idx + t.remaining) % 2 ^ 64 }
  | clamp (t : Taking) (m : Shared) :
    WorkerStep ex (.clamp t) m (.range ex t ex.numOps) { m with idx := ex.numOps }
  | scan (t : Taking) (i endIdx : Nat) (m : Shared) (h : i < endIdx) {canDo : Bool}
    {localAllocations : Finset Nat} {idMap : GlobalIdMap}
    (hcan : Taking.canDoOpOrQueue ex.tracefile t.localAllocations m.idMap (ex.op i) =
      (canDo, localAllocations, idMap)) :
    WorkerStep ex (.scan t i endIdx) m (.scan (t.add canDo localAllocations (ex.op i)) (i + 1) endIdx)
      { m with idMap := idMap }
  | scanned (t : Taking) (i endIdx : Nat) (m : Shared) (h : ¬ i < endIdx) :
    WorkerStep ex (.scan t i endIdx) m (.claim t) m
  -- the loop of `MakeFromOps`
  | start (ops : List Op) (m : Shared) (uninitialised : Nat → Nat) :
    WorkerStep ex (.prepared ops) m (.make (.start ops uninitialised)) m
  | makeLocal (mk : Making) (m : Shared) {op : Op} {todo : List Op} {st : BatchState}
    {line : TraceLine} (htodo : mk.todo = op :: todo)
    (hlocal : ∀ id, (op.uniqueIds ex.tracefile).1 = some id → id ∈ mk.idToIdx)
    (h : (mk.state m.idMap).addOp op ex.tracefile = .ok (st, line)) :
    WorkerStep ex (.make mk) m (.make (mk.next st op line todo)) m
  | makeLocalError (mk : Making) (m : Shared) {op : Op} {todo : List Op} {error : BatchError}
    (htodo : mk.todo = op :: todo)
    (hlocal : ∀ id, (op.uniqueIds ex.tracefile).1 = some id → id ∈ mk.idToIdx)
    (h : (mk.state m.idMap).addOp op ex.tracefile = .error error) :
    WorkerStep ex (.make mk) m (.failed (.batch error) false) m
  | lookup (mk : Making) (m : Shared) {op : Op} {todo : List Op} {id ptr : Nat}
    (htodo : mk.todo = op :: todo) (hid : (op.uniqueIds ex.tracefile).1 = some id)
    (hnot : id ∉ mk.idToIdx) (h : m.idMap.lookup id = some (.allocatedPtr ptr)) :
    WorkerStep ex (.make mk) m (.load mk id ptr) m
  | lookupNone (mk : Making) (m : Shared) {op : Op} {todo : List Op} {id : Nat}
    (htodo : mk.todo = op :: todo) (hid : (op.uniqueIds ex.tracefile).1 = some id)
    (hnot : id ∉ mk.idToIdx) (h : m.idMap.lookup id = none) :
    WorkerStep ex (.make mk) m (.failed (.batch (.noAllocationFound id)) false) m
  | lookupPending (mk : Making) (m : Shared) {op op' : Op} {todo : List Op} {id : Nat}
    (htodo : mk.todo = op :: todo) (hid : (op.uniqueIds ex.tracefile).1 = some id)
    (hnot : id ∉ mk.idToIdx) (h : m.idMap.lookup id = some (.idx op')) (ptr : Nat) :
    WorkerStep ex (.make mk) m (.load mk id ptr) { m with misread := true }
  | addFree (mk : Making) (id ptr : Nat) (m : Shared) {op : Op} {todo : List Op} {st : BatchState}
    {line : TraceLine} {idMap : GlobalIdMap} (htodo : mk.todo = op :: todo)
    (hfree : Replay.addFree m.idMap id = .ok idMap)
    (h : (mk.loaded ptr idMap).addResult (setInputId mk.idGen.fresh.1 (op.line ex.tracefile))
      (op.uniqueIds ex.tracefile).2 = .ok (st, line)) :
    WorkerStep ex (.load mk id ptr) m (.make (mk.next st op line todo)) { m with idMap := idMap }
  | addFreeError (mk : Making) (id ptr : Nat) (m : Shared) {error : BatchError}
    (hfree : Replay.addFree m.idMap id = .error error) :
    WorkerStep ex (.load mk id ptr) m (.failed (.batch error) false) m
  | addResultError (mk : Making) (id ptr : Nat) (m : Shared) {op : Op} {todo : List Op}
    {error : BatchError} {idMap : GlobalIdMap} (htodo : mk.todo = op :: todo)
    (hfree : Replay.addFree m.idMap id = .ok idMap)
    (h : (mk.loaded ptr idMap).addResult (setInputId mk.idGen.fresh.1 (op.line ex.tracefile))
      (op.uniqueIds ex.tracefile).2 = .error error) :
    WorkerStep ex (.load mk id ptr) m (.failed (.batch error) false) { m with idMap := idMap }
  | empty (mk : Making) (m : Shared) (htodo : mk.todo = []) (hmade : mk.made = []) :
    WorkerStep ex (.make mk) m .drop m
  | made (mk : Making) (m : Shared) (htodo : mk.todo = []) (hmade : mk.made ≠ []) :
    WorkerStep ex (.make mk) m (.arrive ⟨mk.made, mk.idToIdx, mk.idMap⟩ false) m
  -- the barrier, twice
  | arrive (b : Batch) (second : Bool) (m : Shared) :
    WorkerStep ex (.arrive b second) m (.wait b second m.barrier.phase)
      { m with barrier := m.barrier.arrive }
  | resume (b : Batch) (second : Bool) (token : Nat) (m : Shared) (h : token ≠ m.barrier.phase) :
    WorkerStep ex (.wait b second token) m (if second then .process b else .arrive b true) m
  -- the ops
  | perform (b : Batch) (m : Shared) {op : Op} {line : TraceLine} {todo : List (Op × TraceLine)}
    (htodo : b.todo = (op, line) :: todo) (result : Nat) :
    WorkerStep ex (.process b) m
      (.process { b with todo := todo, idMap := processLine line b.idMap result })
      { m with performed := m.performed ++ [⟨op, inputPtr line b.idMap, result⟩] }
  | performError (b : Batch) (m : Shared) (htodo : b.todo ≠ []) :
    WorkerStep ex (.process b) m (.failed .allocator false) m
  -- `FlushOps`
  | processed (b : Batch) (m : Shared) {records : List (Nat × Nat)} (htodo : b.todo = [])
    (hrecords : records.Perm b.allocationsToRecord) :
    WorkerStep ex (.process b) m (.flush records) m
  | insert (id ptr : Nat) (records : List (Nat × Nat)) (m : Shared) (h : id ∉ m.idMap) :
    WorkerStep ex (.flush ((id, ptr) :: records)) m (.flush records)
      { m with idMap := m.idMap.insert id (.allocatedPtr ptr) }
  | pending (id ptr : Nat) (records : List (Nat × Nat)) (m : Shared) {op : Op}
    (h : m.idMap.lookup id = some (.idx op)) :
    WorkerStep ex (.flush ((id, ptr) :: records)) m (.assign id ptr op records) m
  | notPending (id ptr : Nat) (records : List (Nat × Nat)) (m : Shared) {ptr' : Nat}
    (h : m.idMap.lookup id = some (.allocatedPtr ptr')) (op : Op) :
    WorkerStep ex (.flush ((id, ptr) :: records)) m (.assign id ptr op records)
      { m with misread := true }
  | assign (id ptr : Nat) (op : Op) (records : List (Nat × Nat)) (m : Shared) (h : id ∈ m.idMap) :
    WorkerStep ex (.assign id ptr op records) m (.push op records)
      { m with idMap := m.idMap.insert id (.allocatedPtr ptr) }
  | assignError (id ptr : Nat) (op : Op) (records : List (Nat × Nat)) (m : Shared)
    (h : id ∉ m.idMap) :
    WorkerStep ex (.assign id ptr op records) m (.failed (.failedToInsert id) false) m
  | push (op : Op) (records : List (Nat × Nat)) (m : Shared) :
    WorkerStep ex (.push op records) m (.flush records) { m with queuedOps := m.queuedOps ++ [op] }
  | flushed (m : Shared) : WorkerStep ex (.flush []) m .arriveNext m
  -- the barrier
  | arriveNext (m : Shared) :
    WorkerStep ex .arriveNext m (.waitNext m.barrier.phase) { m with barrier := m.barrier.arrive }
  | resumeNext (token : Nat) (m : Shared) (h : token ≠ m.barrier.phase) :
    WorkerStep ex (.waitNext token) m .head m
  | drop (m : Shared) :
    WorkerStep ex .drop m .returned { m with barrier := m.barrier.arriveAndDrop }
  -- the thread of a worker that has returned with an error
  | storeDone (error : WorkerError) (m : Shared) (h : ex.nThreads ≠ 1) :
    WorkerStep ex (.failed error false) m (.failed error true) { m with done := true }

/-- The workers of a replay. -/
abbrev Workers (ex : Executor) := Threads (Fin ex.nThreads) WorkerPc Shared

/-- `ProcessTracefile` starts the workers. -/
def Executor.init (ex : Executor) : Workers ex where
  pc _ := .head
  shared := {
    idx := 0
    done := false
    idMap := ∅
    queuedOps := []
    barrier := .init ex.nThreads
    performed := []
    misread := false }

/-- The states that an interleaving of the workers can lead to. -/
abbrev Executor.Reach (ex : Executor) : Workers ex → Prop :=
  Threads.Reach (WorkerStep ex) ex.init

end MallocBench.Replay
