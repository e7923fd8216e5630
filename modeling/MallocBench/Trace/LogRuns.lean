import MallocBench.Lib.Except
import MallocBench.Trace.LogReader

/-!
# The runs of `DirtyTracefileReader`

- `logFlow`: the pointers that a line of the log takes and puts.
- `ReadState.after`: what reading a line does to the pointers, when it succeeds.
- `Run`: the loop has read some lines of the log. `ReadState.readLines_run` says which: the longest
  prefix whose lines and live pointers together are below `max_ops`.
- `IdsOf`: which ids the pointers have, after the lines of all processes.
-/

namespace MallocBench.Trace

open Lib

/-! ## Pointers -/

/-- The pointer that is freed or reallocated, if it is not null. -/
def LogOp.input : LogOp → Option Nat
  | .free inputPtr => if inputPtr ≠ 0 then some inputPtr else none
  | .realloc inputPtr _ _ => if inputPtr ≠ 0 then some inputPtr else none
  | _ => none

/-- The pointer that is allocated. -/
def LogOp.result : LogOp → Option Nat
  | .free _ => none
  | .malloc _ resultPtr => some resultPtr
  | .memalign _ _ resultPtr => some resultPtr
  | .alignedAlloc _ _ resultPtr => some resultPtr
  | .calloc _ _ resultPtr => some resultPtr
  | .realloc _ _ resultPtr => some resultPtr

/-- The line of the trace with the given ids. -/
def LogOp.line (inputId : Option Nat) (resultId : Nat) : LogOp → TraceLine
  | .free _ => .free { inputId := inputId, inputSizeHint := none, inputAlignmentHint := none }
  | .malloc inputSize _ =>
    .malloc { resultId := some resultId, inputSize := some inputSize, inputAlignment := none }
  | .memalign inputAlignment inputSize _ => .malloc
    { resultId := some resultId, inputSize := some inputSize, inputAlignment := some inputAlignment }
  | .alignedAlloc inputSize inputAlignment _ => .malloc
    { resultId := some resultId, inputSize := some inputSize, inputAlignment := some inputAlignment }
  | .calloc nmemb inputSize _ =>
    .calloc { resultId := some resultId, inputNmemb := some nmemb, inputSize := some inputSize }
  | .realloc _ inputSize _ =>
    .realloc { resultId := some resultId, inputId := inputId, inputSize := some inputSize }

/-- Lines of the log take a pointer and put one. -/
def logFlow : Flow LogEntry Nat where
  takes entry := entry.op.input
  puts entry := entry.op.result

variable {recognise : List Char → Option (Except ReadError LogEntry)} {maxOps : Nat}
  {st st' : ReadState} {op : LogOp} {entry : LogEntry} {es : List LogEntry} {line : TraceLine}
  {ids : Nat → Nat} {ptr id i : Nat} {line' : List Char} {pid : Int} {text : List Char} {lines done : List (List Char)}

theorem LogOp.takes_line {input : Option Nat} (hinput : op.input = none → input = none) :
    idFlow.takes (op.line input id) = input := by
  cases op <;> first | rfl | exact (hinput rfl).symm

theorem LogOp.puts_line {input : Option Nat} :
    idFlow.puts (op.line input id) = op.result.map fun _ => id := by
  cases op <;> rfl

theorem LogOp.line_ne_opNotSet {input : Option Nat} : op.line input id ≠ .opNotSet := by
  cases op <;> exact TraceLine.noConfusion

namespace ReadState

/-! ## One line -/

/-- The pointer gives its id back. -/
def afterInput (st : ReadState) : Option Nat → ReadState
  | none => st
  | some ptr => { st with
      idMap := st.idMap.erase ptr
      pool := (st.idMap.lookup ptr).elim st.pool st.pool.give }

/-- The pointer gets an id. -/
def afterResult (st : ReadState) : Option Nat → ReadState
  | none => st
  | some ptr => { st with
      idMap := st.idMap.insert ptr st.pool.take.1
      pool := st.pool.take.2 }

/-- Both. -/
def after (st : ReadState) (op : LogOp) : ReadState :=
  (st.afterInput op.input).afterResult op.result

theorem inputId_ok {inputPtr : Nat} {input : Option Nat}
    (h : st.inputId inputPtr = .ok (input, st')) :
    (∀ ptr, (if inputPtr ≠ 0 then some inputPtr else none) = some ptr → ptr ∈ st.idMap) ∧
      input = (if inputPtr ≠ 0 then some inputPtr else none).bind st.idMap.lookup ∧
      st' = st.afterInput (if inputPtr ≠ 0 then some inputPtr else none) := by
  unfold inputId at h
  split_ifs at h ⊢ with hptr
  · unfold findAndEraseId at h
    cases hlookup : st.idMap.lookup inputPtr with
    | none =>
      rw [hlookup] at h
      cases h
    | some id =>
      rw [hlookup] at h
      obtain ⟨rfl, rfl⟩ := Prod.mk.inj (Except.ok.inj h)
      refine ⟨?_, by simp [hlookup], by simp [afterInput, hlookup]⟩
      rintro _ ⟨⟩
      exact mem_of_lookup hlookup
  · obtain ⟨rfl, rfl⟩ := Prod.mk.inj (Except.ok.inj h)
    exact ⟨by simp, rfl, rfl⟩

theorem getNextId_ok (h : st.getNextId ptr = .ok (id, st')) :
    ptr ∉ st.idMap ∧ id = st.pool.take.1 ∧ st' = st.afterResult (some ptr) := by
  unfold getNextId at h
  by_cases hptr : ptr ∈ st.idMap
  · simp only [if_pos hptr] at h
    cases h
  · simp only [if_neg hptr] at h
    obtain ⟨rfl, rfl⟩ := Prod.mk.inj (Except.ok.inj h)
    exact ⟨hptr, rfl, rfl⟩

/-- What a line that is read says about the pointers. -/
structure OpRead (st : ReadState) (op : LogOp) (st' : ReadState) (line : TraceLine) : Prop where
  input : ∀ ptr, op.input = some ptr → ptr ∈ st.idMap
  result : ∀ ptr, op.result = some ptr → ptr ∉ (st.afterInput op.input).idMap
  state : st' = st.after op
  line : line = op.line (op.input.bind st.idMap.lookup) (st.afterInput op.input).pool.take.1

/-- **One line.** -/
theorem readOp_ok (h : st.readOp op = .ok (st', line)) : OpRead st op st' line := by
  cases op with
  | free inputPtr =>
    obtain ⟨⟨input, st₁⟩, h₁, h⟩ := exists_of_bind_ok h
    obtain ⟨rfl, rfl⟩ := Prod.mk.inj (Except.ok.inj h)
    obtain ⟨hmem, rfl, rfl⟩ := inputId_ok h₁
    exact ⟨hmem, fun ptr hc => (nomatch hc), rfl, rfl⟩
  | malloc | memalign | alignedAlloc | calloc =>
    obtain ⟨⟨id, st₁⟩, h₁, h⟩ := exists_of_bind_ok h
    obtain ⟨rfl, rfl⟩ := Prod.mk.inj (Except.ok.inj h)
    obtain ⟨hnot, rfl, rfl⟩ := getNextId_ok h₁
    refine ⟨fun ptr hc => (nomatch hc), ?_, rfl, rfl⟩
    rintro _ ⟨⟩
    exact hnot
  | realloc inputPtr inputSize resultPtr =>
    obtain ⟨⟨input, st₁⟩, h₁, h⟩ := exists_of_bind_ok h
    obtain ⟨⟨id, st₂⟩, h₂, h⟩ := exists_of_bind_ok h
    obtain ⟨rfl, rfl⟩ := Prod.mk.inj (Except.ok.inj h)
    obtain ⟨hmem, rfl, rfl⟩ := inputId_ok h₁
    obtain ⟨hnot, rfl, rfl⟩ := getNextId_ok h₂
    refine ⟨hmem, ?_, rfl, rfl⟩
    rintro _ ⟨⟩
    exact hnot

/-! ### The ids -/

/-- The ids that are in use are those of the pointers. -/
abbrev Numbered (st : ReadState) : Prop := st.pool.Numbers st.idMap

theorem Numbered.afterInput (h : st.Numbered) {input : Option Nat}
    (hmem : ∀ ptr, input = some ptr → ptr ∈ st.idMap) : (st.afterInput input).Numbered := by
  cases input with
  | none => exact h
  | some ptr =>
    obtain ⟨id, hid⟩ := Option.isSome_iff_exists.mp (AList.lookup_isSome.mpr (hmem ptr rfl))
    simp only [Numbered, ReadState.afterInput, hid, Option.elim_some]
    exact h.erase hid

theorem Numbered.afterResult (h : st.Numbered) {result : Option Nat}
    (hnot : ∀ ptr, result = some ptr → ptr ∉ st.idMap) : (st.afterResult result).Numbered := by
  cases result with
  | none => exact h
  | some ptr => exact h.take (hnot ptr rfl)

theorem OpRead.numbered (h : OpRead st op st' line) (hst : st.Numbered) : st'.Numbered := by
  rw [h.state]
  exact (hst.afterInput h.input).afterResult h.result

theorem mem_afterInput {input : Option Nat} :
    ptr ∈ (st.afterInput input).idMap ↔ ptr ∈ st.idMap ∧ input ≠ some ptr := by
  cases input with
  | none => simp [afterInput]
  | some ptr' => simp [afterInput, and_comm, eq_comm]

theorem lookup_afterInput {input : Option Nat} (hne : input ≠ some ptr) :
    (st.afterInput input).idMap.lookup ptr = st.idMap.lookup ptr := by
  cases input with
  | none => rfl
  | some ptr' => exact AList.lookup_erase_ne fun hc => hne (by rw [hc])

theorem lookup_after (hne : op.input ≠ some ptr) (hne' : op.result ≠ some ptr) :
    (st.after op).idMap.lookup ptr = st.idMap.lookup ptr := by
  have hinput : (st.afterInput op.input).idMap.lookup ptr = st.idMap.lookup ptr :=
    lookup_afterInput hne
  unfold after
  cases hresult : op.result with
  | none => exact hinput
  | some ptr' =>
    rw [← hinput]
    exact AList.lookup_insert_ne fun hc => hne' (by rw [hresult, hc])

/-- The number of live pointers. -/
theorem OpRead.length (h : OpRead st op st' line) :
    st'.idMap.keys.length + (if op.input.isSome then 1 else 0) =
      st.idMap.keys.length + (if op.result.isSome then 1 else 0) := by
  have hinput : (st.afterInput op.input).idMap.keys.length + (if op.input.isSome then 1 else 0) =
      st.idMap.keys.length := by
    cases hin : op.input with
    | none => rfl
    | some ptr =>
      have hmem := AList.mem_keys.mp (h.input ptr hin)
      show (st.idMap.erase ptr).keys.length + 1 = _
      rw [AList.keys_erase, List.length_erase_of_mem hmem]
      exact Nat.sub_add_cancel (List.length_pos_of_mem hmem)
  have hresult : (st.after op).idMap.keys.length =
      (st.afterInput op.input).idMap.keys.length + (if op.result.isSome then 1 else 0) := by
    unfold after
    cases hres : op.result with
    | none => rfl
    | some ptr =>
      have hnot : ptr ∉ (st.afterInput op.input).idMap.keys := fun hc =>
        h.result ptr hres (AList.mem_keys.mpr hc)
      show ((st.afterInput op.input).idMap.insert ptr _).keys.length = _ + 1
      rw [AList.keys_insert, List.length_cons, List.erase_of_not_mem hnot]
  rw [h.state, hresult, ← hinput]
  omega

/-- The id of the result is new, and below the number of live pointers. -/
theorem OpRead.result_lt (h : OpRead st op st' line) (hst : st.Numbered)
    (hid : idFlow.puts line = some id) : id < st'.idMap.keys.length := by
  rw [h.line, LogOp.puts_line] at hid
  obtain ⟨ptr, hresult, rfl⟩ := Option.map_eq_some_iff.mp hid
  have hnot : ptr ∉ (st.afterInput op.input).idMap.keys := fun hc =>
    h.result ptr hresult (AList.mem_keys.mpr hc)
  have hle := (hst.afterInput h.input).take_le_length
  rw [h.state, after, hresult]
  show _ < ((st.afterInput op.input).idMap.insert ptr _).keys.length
  rw [AList.keys_insert, List.length_cons, List.erase_of_not_mem hnot]
  exact Nat.lt_succ_of_le hle

end ReadState

/-! ## The run -/

/-- The loop has read the lines `done` of the log. -/
inductive Run (recognise : List Char → Option (Except ReadError LogEntry)) (maxOps : Nat) :
    List (List Char) → ReadState → Prop
  | init : Run recognise maxOps [] .init
  | skip {done : List (List Char)} {st : ReadState} {line : List Char} : Run recognise maxOps done st →
    done.length + st.idMap.keys.length < maxOps → recognise line = none →
    Run recognise maxOps (done ++ [line]) st
  | read {done : List (List Char)} {st st' : ReadState} {line : List Char} {entry : LogEntry}
    {traceLine : TraceLine} : Run recognise maxOps done st →
    done.length + st.idMap.keys.length < maxOps → recognise line = some (.ok entry) →
    st.readOp entry.op = .ok (st', traceLine) →
    Run recognise maxOps (done ++ [line]) (st'.keep entry.pid traceLine)

theorem ReadState.readLine_ok (h : st.readLine recognise line' = .ok st') :
    (recognise line' = none ∧ st' = st) ∨
      ∃ entry st₁ line, recognise line' = some (.ok entry) ∧ st.readOp entry.op = .ok (st₁, line) ∧
        st' = st₁.keep entry.pid line := by
  unfold readLine at h
  cases hrec : recognise line' with
  | none =>
    rw [hrec] at h
    exact .inl ⟨rfl, (Except.ok.inj h).symm⟩
  | some result =>
    rw [hrec] at h
    obtain ⟨entry, rfl, hentry⟩ := exists_of_bind_ok h
    obtain ⟨⟨st₁, line⟩, hop, heq⟩ := exists_of_bind_ok hentry
    exact .inr ⟨entry, st₁, line, rfl, hop, (Except.ok.inj heq).symm⟩

@[simp] theorem ReadState.keep_idMap : (st.keep pid line).idMap = st.idMap := by
  unfold ReadState.keep
  split_ifs <;> rfl

@[simp] theorem ReadState.keep_pool : (st.keep pid line).pool = st.pool := by
  unfold ReadState.keep
  split_ifs <;> rfl

@[simp] theorem ReadState.keep_requiredPid :
    (st.keep pid line).requiredPid = some (st.requiredPid.getD pid) := by
  unfold ReadState.keep
  split_ifs with hkept
  · rw [hkept]
  · cases hreq : st.requiredPid with
    | none => exact absurd (by rw [hreq]; rfl) hkept
    | some pid => rfl

theorem ReadState.keep_numbered (h : st.Numbered) : (st.keep pid line).Numbered := by
  simpa [ReadState.Numbered] using h

/-- The lines of the log that are recognised. -/
def logEntries (recognise : List Char → Option (Except ReadError LogEntry))
    (lines : List (List Char)) : List LogEntry :=
  lines.filterMap fun line => match recognise line with
    | some (.ok entry) => some entry
    | _ => none

/-- The number of pointers that lines put, and that they take. -/
def allocs (es : List LogEntry) : Nat := es.countP fun entry => entry.op.result.isSome

def frees (es : List LogEntry) : Nat := es.countP fun entry => entry.op.input.isSome

theorem logEntries_append (pre post : List (List Char)) :
    logEntries recognise (pre ++ post) = logEntries recognise pre ++ logEntries recognise post :=
  List.filterMap_append

theorem logEntries_skip (hrec : recognise line' = none) :
    logEntries recognise (done ++ [line']) = logEntries recognise done := by
  rw [logEntries_append]
  simp [logEntries, hrec]

theorem logEntries_read (hrec : recognise line' = some (.ok entry)) :
    logEntries recognise (done ++ [line']) = logEntries recognise done ++ [entry] := by
  rw [logEntries_append]
  simp [logEntries, hrec]

theorem mem_logEntries : entry ∈ logEntries recognise lines ↔
    ∃ line ∈ lines, recognise line = some (.ok entry) := by
  unfold logEntries
  rw [List.mem_filterMap]
  refine exists_congr fun line => and_congr_right fun _ => ?_
  split
  · rename_i heq
    rw [heq]
    simp
  · rename_i hno
    exact iff_of_false (fun hc => nomatch hc) fun hc => hno entry hc

/-- What a line that is read leaves alone. -/
theorem ReadState.after_rest : (st.after op).lines = st.lines ∧
    (st.after op).requiredPid = st.requiredPid ∧
    (st.after op).maxSimultaneousAllocs = st.maxSimultaneousAllocs := by
  unfold after
  cases op.input <;> cases op.result <;> exact ⟨rfl, rfl, rfl⟩

namespace Run

/-- The number of live pointers. -/
theorem length (h : Run recognise maxOps done st) :
    st.idMap.keys.length + frees (logEntries recognise done) =
      allocs (logEntries recognise done) := by
  induction h with
  | init => rfl
  | skip _ _ hrec ih => rw [logEntries_skip hrec, ih]
  | read _ _ hrec hop ih =>
    have hlen := (ReadState.readOp_ok hop).length
    rw [logEntries_read hrec, ReadState.keep_idMap, allocs, frees, List.countP_append,
      List.countP_append, List.countP_singleton, List.countP_singleton]
    unfold allocs frees at ih
    omega

theorem numbered (h : Run recognise maxOps done st) : st.Numbered := by
  induction h with
  | init => exact .empty
  | skip _ _ _ ih => exact ih
  | read _ _ _ hop ih => exact ReadState.keep_numbered ((ReadState.readOp_ok hop).numbered ih)

/-- The first recognised line decides which process is kept. -/
theorem requiredPid (h : Run recognise maxOps done st) :
    st.requiredPid = (logEntries recognise done).head?.map LogEntry.pid := by
  induction h with
  | init => rfl
  | skip _ _ hrec ih => rw [logEntries_skip hrec, ih]
  | @read done _ _ _ _ _ _ _ hrec hop ih =>
    rw [logEntries_read hrec, ReadState.keep_requiredPid, (ReadState.readOp_ok hop).state,
      ReadState.after_rest.2.1, ih]
    cases logEntries recognise done <;> rfl

end Run

/-- The lines that the loop reads: it stops when the lines and the live pointers reach the limit. -/
def linesRead (recognise : List Char → Option (Except ReadError LogEntry)) (maxOps : Nat) :
    List (List Char) → List (List Char) → List (List Char)
  | done, [] => done
  | done, line :: lines =>
    if done.length + allocs (logEntries recognise done) <
        maxOps + frees (logEntries recognise done) then
      linesRead recognise maxOps (done ++ [line]) lines
    else done

/-- **The loop** reads a prefix of the lines, and stops at the end or at the limit. -/
theorem ReadState.readLines_run (hrun : Run recognise maxOps done st)
    (h : st.readLines recognise maxOps done.length lines = .ok st') :
    ∃ pre post, lines = pre ++ post ∧ Run recognise maxOps (done ++ pre) st' ∧
      (post = [] ∨ maxOps ≤ (done ++ pre).length + st'.idMap.keys.length) ∧
      linesRead recognise maxOps done lines = done ++ pre := by
  induction lines generalizing done st with
  | nil =>
    obtain rfl := Except.ok.inj h
    exact ⟨[], [], rfl, by simpa using hrun, .inl rfl, by simp [linesRead]⟩
  | cons line lines ih =>
    have hlive := hrun.length
    unfold readLines at h
    unfold linesRead
    by_cases hguard : done.length + st.idMap.keys.length < maxOps
    · rw [if_pos hguard] at h
      obtain ⟨st₁, hline, h⟩ := exists_of_bind_ok h
      have hrun₁ : Run recognise maxOps (done ++ [line]) st₁ := by
        rcases readLine_ok hline with ⟨hrec, rfl⟩ | ⟨entry, st₂, traceLine, hrec, hop, rfl⟩
        · exact .skip hrun hguard hrec
        · exact .read hrun hguard hrec hop
      have hlen : (done ++ [line]).length = done.length + 1 := List.length_append
      rw [← hlen] at h
      obtain ⟨pre, post, rfl, hrun', hstop, hread⟩ := ih hrun₁ h
      rw [if_pos (by omega), hread]
      exact ⟨line :: pre, post, rfl, by simpa using hrun', by simpa using hstop, by simp⟩
    · rw [if_neg hguard] at h
      obtain rfl := Except.ok.inj h
      rw [if_neg (by omega)]
      exact ⟨[], line :: lines, rfl, by simpa using hrun, .inr (by simpa using hguard), by simp⟩

end MallocBench.Trace
