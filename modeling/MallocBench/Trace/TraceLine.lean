import MallocBench.Lib.Flow

/-!
# Traces

The messages of `tracefile.proto`. All fields are optional, and an accessor of a field that is
not set returns 0. The ids of a line say where its pointer comes from and where its result goes.
-/

namespace MallocBench.Trace

open Lib

structure Malloc where
  resultId : Option Nat
  inputSize : Option Nat
  /-- if given, this is an aligned alloc -/
  inputAlignment : Option Nat
deriving DecidableEq, Repr

structure Calloc where
  resultId : Option Nat
  inputNmemb : Option Nat
  inputSize : Option Nat
deriving DecidableEq, Repr

structure Realloc where
  resultId : Option Nat
  inputId : Option Nat
  inputSize : Option Nat
deriving DecidableEq, Repr

structure Free where
  inputId : Option Nat
  inputSizeHint : Option Nat
  inputAlignmentHint : Option Nat
deriving DecidableEq, Repr

/-- `TraceLine`, by its `op_case` -/
inductive TraceLine where
  | malloc (malloc : Malloc)
  | calloc (calloc : Calloc)
  | realloc (realloc : Realloc)
  | free (free : Free)
  | opNotSet
deriving DecidableEq

/-- `InputAndResultIds`: a `realloc` always has a result id, which is 0 when it is not set -/
def inputAndResultIds : TraceLine → Option Nat × Option Nat
  | .malloc malloc => (none, malloc.resultId)
  | .calloc calloc => (none, calloc.resultId)
  | .realloc realloc => (realloc.inputId, some (realloc.resultId.getD 0))
  | .free free => (free.inputId, none)
  | .opNotSet => (none, none)

/-- `SetInputId` -/
def setInputId (inputId : Nat) : TraceLine → TraceLine
  | .realloc realloc => .realloc { realloc with inputId := some inputId }
  | .free free => .free { free with inputId := some inputId }
  | line => line

/-- `SetResultId` -/
def setResultId (resultId : Nat) : TraceLine → TraceLine
  | .malloc malloc => .malloc { malloc with resultId := some resultId }
  | .calloc calloc => .calloc { calloc with resultId := some resultId }
  | .realloc realloc => .realloc { realloc with resultId := some resultId }
  | line => line

/-- Lines take the pointer of their input id and put one to their result id. -/
def idFlow : Flow TraceLine Nat where
  takes line := (inputAndResultIds line).1
  puts line := (inputAndResultIds line).2

/-- A line with other ids in the places where it has ids. -/
def renameIds (inputId resultId : Nat) : TraceLine → TraceLine
  | .malloc malloc => .malloc { malloc with resultId := malloc.resultId.map fun _ => resultId }
  | .calloc calloc => .calloc { calloc with resultId := calloc.resultId.map fun _ => resultId }
  | .realloc realloc => .realloc { realloc with
      inputId := realloc.inputId.map fun _ => inputId
      resultId := some resultId }
  | .free free => .free { free with inputId := free.inputId.map fun _ => inputId }
  | .opNotSet => .opNotSet

end MallocBench.Trace
