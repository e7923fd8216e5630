import MallocBench.Trace.LogRuns

/-!
# The bounds of a trace that is read from a log

- `openLog_ids`: the ids are dense at every point of the run, and results stay below
  `max_simultaneous_allocs`.
- `openLog_length`: the limit on the number of lines is kept, except when the last line read is an
  allocation that needs two lines where one is left.
-/

namespace MallocBench.Trace

open Lib

variable {recognise : List Char → Option (Except ReadError LogEntry)} {maxOps : Nat}
  {order : HashOrder} {text : List Char} {trace : Tracefile} {st st' : ReadState} {op : LogOp}
  {lines done pre post : List (List Char)} {line : List Char} {entry : LogEntry}

theorem openLog_ok (order : HashOrder)
    (h : ReadState.init.readLines recognise maxOps 0 (getlines text).1 = .ok st) :
    openLog recognise order maxOps text = .ok {
      lines := st.lines ++ (order.entries st.idMap).map fun entry => freeLine entry.2
      maxSimultaneousAllocs := some st.maxSimultaneousAllocs } := by
  unfold openLog
  rw [h]
  rfl

/-- The state at the end of the loop. -/
theorem openLog_run (h : openLog recognise order maxOps text = .ok trace) :
    ∃ pre post st, ReadState.init.readLines recognise maxOps 0 (getlines text).1 = .ok st ∧
      (getlines text).1 = pre ++ post ∧ Run recognise maxOps pre st ∧
      (post = [] ∨ maxOps ≤ pre.length + st.idMap.keys.length) ∧
      linesRead recognise maxOps [] (getlines text).1 = pre ∧
      trace = {
        lines := st.lines ++ (order.entries st.idMap).map fun entry => freeLine entry.2
        maxSimultaneousAllocs := some st.maxSimultaneousAllocs } := by
  obtain ⟨st, hst, htrace⟩ := exists_of_bind_ok h
  obtain ⟨pre, post, heq, hrun, hstop, hread⟩ := ReadState.readLines_run .init hst
  exact ⟨pre, post, st, hst, heq, hrun, hstop, hread, (Except.ok.inj htrace).symm⟩

/-! ## Ids -/

/-- The states that a step of a line ends in. -/
def stateOf {α : Type} : Except ReadError (α × ReadState) → List ReadState
  | .ok (_, st) => [st]
  | .error _ => []

/-- The states after `find_and_erase_id` and `get_next_id` in a line. -/
def ReadState.opPoints (st : ReadState) : LogOp → List ReadState
  | .free inputPtr => stateOf (st.inputId inputPtr)
  | .malloc _ resultPtr => stateOf (st.getNextId resultPtr)
  | .memalign _ _ resultPtr => stateOf (st.getNextId resultPtr)
  | .alignedAlloc _ _ resultPtr => stateOf (st.getNextId resultPtr)
  | .calloc _ _ resultPtr => stateOf (st.getNextId resultPtr)
  | .realloc inputPtr _ resultPtr => stateOf (st.inputId inputPtr) ++
    (stateOf (st.inputId inputPtr)).flatMap fun st => stateOf (st.getNextId resultPtr)

/-- The states of the loop: before each line, in it, and at the end. -/
def ReadState.points (recognise : List Char → Option (Except ReadError LogEntry)) (maxOps : Nat) :
    Nat → ReadState → List (List Char) → List ReadState
  | _, st, [] => [st]
  | iter, st, line :: lines =>
    st :: if iter + st.idMap.keys.length < maxOps then
      (match recognise line with
        | some (.ok entry) => st.opPoints entry.op
        | _ => []) ++
      (match st.readLine recognise line with
        | .ok st => st.points recognise maxOps (iter + 1) lines
        | .error _ => [])
    else []

namespace ReadState

theorem inputId_numbered {inputPtr : Nat} (h : st.Numbered) :
    ∀ st' ∈ stateOf (st.inputId inputPtr), st'.Numbered := by
  intro st' hst'
  cases hinput : st.inputId inputPtr with
  | error => simp [hinput, stateOf] at hst'
  | ok r =>
    obtain ⟨input, st₁⟩ := r
    obtain rfl : st' = st₁ := by simpa [hinput, stateOf] using hst'
    obtain ⟨hmem, -, rfl⟩ := inputId_ok hinput
    exact h.afterInput hmem

theorem getNextId_numbered {resultPtr : Nat} (h : st.Numbered) :
    ∀ st' ∈ stateOf (st.getNextId resultPtr), st'.Numbered := by
  intro st' hst'
  cases hresult : st.getNextId resultPtr with
  | error => simp [hresult, stateOf] at hst'
  | ok r =>
    obtain ⟨id, st₁⟩ := r
    obtain rfl : st' = st₁ := by simpa [hresult, stateOf] using hst'
    obtain ⟨hnot, -, rfl⟩ := getNextId_ok hresult
    exact h.afterResult (by rintro _ ⟨⟩; exact hnot)

theorem opPoints_numbered (h : st.Numbered) : ∀ st' ∈ st.opPoints op, st'.Numbered := by
  cases op with
  | free => exact inputId_numbered h
  | malloc | memalign | alignedAlloc | calloc => exact getNextId_numbered h
  | realloc =>
    intro st' hst'
    rcases List.mem_append.mp hst' with hinput | hresult
    · exact inputId_numbered h st' hinput
    · obtain ⟨st₁, hst₁, hst'⟩ := List.mem_flatMap.mp hresult
      exact getNextId_numbered (inputId_numbered h st₁ hst₁) st' hst'

theorem readLine_numbered (h : st.Numbered) (hline : st.readLine recognise line = .ok st') :
    st'.Numbered := by
  rcases readLine_ok hline with ⟨-, rfl⟩ | ⟨entry, st₁, traceLine, -, hop, rfl⟩
  · exact h
  · exact keep_numbered ((readOp_ok hop).numbered h)

/-- At every point of the run the ids are those of the pointers and those of the pool. -/
theorem points_numbered {iter : Nat} (h : st.Numbered) :
    ∀ st' ∈ st.points recognise maxOps iter lines, st'.Numbered := by
  induction lines generalizing st iter with
  | nil =>
    intro st' hst'
    obtain rfl := List.mem_singleton.mp hst'
    exact h
  | cons line lines ih =>
    intro st' hst'
    unfold points at hst'
    rcases List.mem_cons.mp hst' with rfl | hst'
    · exact h
    split_ifs at hst'
    · rcases List.mem_append.mp hst' with hop | hnext
      · split at hop
        · exact opPoints_numbered h st' hop
        · simp at hop
      · split at hnext
        · rename_i st₁ hline
          exact ih (readLine_numbered h hline) st' hnext
        · simp at hnext
    · simp at hst'

end ReadState

/-- Results of kept lines are below the maximum. -/
theorem Run.result_lt (h : Run recognise maxOps done st) :
    ∀ line ∈ st.lines, ∀ id, idFlow.puts line = some id → id < st.maxSimultaneousAllocs := by
  induction h with
  | init => simp [ReadState.init]
  | skip _ _ _ ih => exact ih
  | @read done st st' line entry traceLine hrun _ _ hop ih =>
    have hread := ReadState.readOp_ok hop
    obtain ⟨hlines, -, hmax⟩ : st'.lines = st.lines ∧ _ ∧
        st'.maxSimultaneousAllocs = st.maxSimultaneousAllocs := hread.state ▸ ReadState.after_rest
    intro line' hline' id hid
    unfold ReadState.keep at hline' ⊢
    split_ifs at hline' ⊢
    · show id < max _ _
      rw [hmax]
      rcases List.mem_append.mp hline' with hmem | hmem
      · rw [hlines] at hmem
        exact lt_max_of_lt_left (ih line' hmem id hid)
      · obtain rfl := List.mem_singleton.mp hmem
        exact lt_max_of_lt_right (hread.result_lt hrun.numbered hid)
    · rw [hmax]
      rw [hlines] at hline'
      exact ih line' hline' id hid

/-- **Ids**: results are below `max_simultaneous_allocs`, and at every point of the run the ids of
the live pointers are distinct and are with those of the pool the numbers below `next_id`. -/
theorem openLog_ids (h : openLog recognise order maxOps text = .ok trace) :
    (∀ line ∈ trace.lines, ∀ id, idFlow.puts line = some id →
      id < trace.maxSimultaneousAllocs.getD 0) ∧
    ∀ st ∈ ReadState.init.points recognise maxOps 0 (getlines text).1, st.pool.Numbers st.idMap := by
  refine ⟨?_, ReadState.points_numbered .empty⟩
  obtain ⟨pre, post, st, -, -, hrun, -, -, rfl⟩ := openLog_run h
  intro line hline id hid
  rcases List.mem_append.mp hline with hmem | hmem
  · exact hrun.result_lt line hmem id hid
  · obtain ⟨entry, -, rfl⟩ := List.mem_map.mp hmem
    cases hid

/-- The fields of some lines. -/
def sampleFields (line : List Char) : Option (Except ReadError LogEntry) :=
  if line = "--1-- malloc(8) = 0x10".toList then some (.ok ⟨1, .malloc 8 16⟩)
  else if line = "--1-- realloc(0x10,16) = 0x20".toList then some (.ok ⟨1, .realloc 16 16 32⟩)
  else if line = "--1-- free(0x10)".toList then some (.ok ⟨1, .free 16⟩)
  else if line = "--2-- free(0x10)".toList then some (.ok ⟨2, .free 16⟩)
  else if line = "--2-- malloc(8) = 0x30".toList then some (.ok ⟨2, .malloc 8 48⟩)
  else if line = "--2-- free(0x30)".toList then some (.ok ⟨2, .free 48⟩)
  else none

/-- A `realloc` gets the id that it gives back. -/
theorem openLog_ids_realloc : ∃ trace, openLog sampleFields default 10
      "--1-- malloc(8) = 0x10\n--1-- realloc(0x10,16) = 0x20\n".toList = .ok trace ∧
    trace.lines.length = 3 ∧ ∀ line ∈ trace.lines, ∀ id, idFlow.puts line = some id →
      id < trace.maxSimultaneousAllocs.getD 0 := by
  have h : openLog sampleFields default 10
      "--1-- malloc(8) = 0x10\n--1-- realloc(0x10,16) = 0x20\n".toList = .ok
        { lines := [.malloc ⟨some 0, some 8, none⟩, .realloc ⟨some 0, some 0, some 16⟩, freeLine 0]
          maxSimultaneousAllocs := some 1 } := by
    rfl
  exact ⟨_, h, rfl, (openLog_ids h).1⟩

/-! ## Lines -/

/-- An allocation that frees nothing is read when the lines and the pointers that have to be freed
are one less than the limit, and all lines have been kept. -/
def Overshoots (recognise : List Char → Option (Except ReadError LogEntry)) (maxOps : Nat)
    (lines : List (List Char)) : Prop :=
  ∃ pre line post pid, lines = pre ++ line :: post ∧
    (∀ l ∈ pre ++ [line], ∃ entry, recognise l = some (.ok entry) ∧ entry.pid = pid) ∧
    pre.length + allocs (logEntries recognise pre) + 1 =
      maxOps + frees (logEntries recognise pre) ∧
    ∃ entry, recognise line = some (.ok entry) ∧ entry.op.result.isSome ∧ entry.op.input = none

/-- Reading more lines never makes the number of lines and live pointers smaller. -/
theorem lines_mono (recognise : List Char → Option (Except ReadError LogEntry))
    (pre post : List (List Char)) :
    pre.length + allocs (logEntries recognise pre) + frees (logEntries recognise (pre ++ post)) ≤
      (pre ++ post).length + allocs (logEntries recognise (pre ++ post)) +
        frees (logEntries recognise pre) := by
  have hfrees : frees (logEntries recognise post) ≤ post.length :=
    List.countP_le_length.trans (List.length_filterMap_le ..)
  rw [logEntries_append, List.length_append]
  unfold allocs frees at *
  rw [List.countP_append, List.countP_append]
  omega

/-- Not more lines are kept than read. -/
theorem Run.lines_le (h : Run recognise maxOps done st) : st.lines.length ≤ done.length := by
  induction h with
  | init => exact Nat.le_refl _
  | skip _ _ _ ih => exact ih.trans (by simp)
  | @read done st st' line entry traceLine _ _ _ hop ih =>
    have hlines : st'.lines = st.lines := (ReadState.readOp_ok hop).state ▸ ReadState.after_rest.1
    unfold ReadState.keep
    split_ifs <;> simp only [hlines, List.length_append, List.length_singleton] <;> omega

/-- All lines are kept exactly when all are recognised, of one process. -/
theorem Run.lines_eq (h : Run recognise maxOps done st) : st.lines.length = done.length ↔
    ∃ pid, ∀ l ∈ done, ∃ entry, recognise l = some (.ok entry) ∧ entry.pid = pid := by
  induction h with
  | init => simp [ReadState.init]
  | @skip done st line hrun _ hrec ih =>
    have hle := hrun.lines_le
    refine iff_of_false (by simp; omega) ?_
    rintro ⟨pid, hall⟩
    obtain ⟨entry, hc, -⟩ := hall line (by simp)
    rw [hrec] at hc
    cases hc
  | @read done st st' line entry traceLine hrun _ hrec hop ih =>
    obtain ⟨hlines, hpid, -⟩ : st'.lines = st.lines ∧ st'.requiredPid = st.requiredPid ∧ _ :=
      (ReadState.readOp_ok hop).state ▸ ReadState.after_rest
    have hle := hrun.lines_le
    have hfirst : ∀ pid, (∀ l ∈ done, ∃ entry, recognise l = some (.ok entry) ∧ entry.pid = pid) →
        st'.requiredPid = none ∧ done = [] ∨ st'.requiredPid = some pid := by
      intro pid hall
      rw [hpid, hrun.requiredPid]
      cases done with
      | nil => exact .inl ⟨rfl, rfl⟩
      | cons l done =>
        obtain ⟨e, he, rfl⟩ := hall l (by simp)
        refine .inr ?_
        simp [logEntries, he]
    unfold ReadState.keep
    split_ifs with hkept
    · simp only [hlines, List.length_append, List.length_singleton, Nat.add_right_cancel_iff]
      rw [ih]
      constructor
      · rintro ⟨pid, hall⟩
        refine ⟨entry.pid, fun l hl => ?_⟩
        rcases List.mem_append.mp hl with hmem | hmem
        · rcases hfirst pid hall with ⟨-, rfl⟩ | hreq
          · cases hmem
          · rw [hreq] at hkept
            obtain rfl : pid = entry.pid := hkept
            exact hall l hmem
        · obtain rfl := List.mem_singleton.mp hmem
          exact ⟨entry, hrec, rfl⟩
      · rintro ⟨pid, hall⟩
        exact ⟨pid, fun l hl => hall l (List.mem_append_left _ hl)⟩
    · rw [hlines]
      refine iff_of_false (by simp; omega) ?_
      rintro ⟨pid, hall⟩
      obtain ⟨e, he, hepid⟩ := hall line (by simp)
      obtain rfl : entry = e := by simpa [hrec] using he
      rcases hfirst pid fun l hl => hall l (List.mem_append_left _ hl) with ⟨hreq, -⟩ | hreq
      · exact hkept (by rw [hreq]; rfl)
      · exact hkept (by rw [hreq, hepid]; rfl)

/-- The limit was not reached before a line was read. -/
theorem Run.guard {read : List (List Char)} (h : Run recognise maxOps read st)
    (hread : read = pre ++ line :: post) :
    ∃ st, Run recognise maxOps pre st ∧ pre.length + st.idMap.keys.length < maxOps := by
  induction h generalizing post with
  | init => simp at hread
  | @skip done st l hrun hlt _ ih | @read done st _ l _ _ hrun hlt _ _ ih =>
    rcases List.eq_nil_or_concat post with rfl | ⟨post, l', rfl⟩
    · obtain ⟨rfl, -⟩ := List.append_inj' hread rfl
      exact ⟨st, hrun, hlt⟩
    · have hread : done ++ [l] = (pre ++ line :: post) ++ [l'] := by simpa using hread
      exact ih (List.append_inj' hread rfl).1

theorem allocs_append (hrec : recognise line = some (.ok entry)) :
    allocs (logEntries recognise (done ++ [line])) =
      allocs (logEntries recognise done) + (if entry.op.result.isSome then 1 else 0) := by
  rw [logEntries_read hrec]
  unfold allocs
  rw [List.countP_append, List.countP_singleton]

theorem frees_append (hrec : recognise line = some (.ok entry)) :
    frees (logEntries recognise (done ++ [line])) =
      frees (logEntries recognise done) + (if entry.op.input.isSome then 1 else 0) := by
  rw [logEntries_read hrec]
  unfold frees
  rw [List.countP_append, List.countP_singleton]

/-- Only the last line can overshoot. -/
theorem Run.overshoots (h : Run recognise maxOps done st)
    (hover : maxOps < st.lines.length + st.idMap.keys.length) :
    Overshoots recognise maxOps (done ++ post) := by
  have hle := h.lines_le
  have hall := h.lines_eq
  cases h with
  | init => exact absurd hover (Nat.not_lt_zero _)
  | skip hrun hlt hrec =>
    have hle := hrun.lines_le
    omega
  | @read done st st' line entry traceLine hrun hlt hrec hop =>
    have hlive := (ReadState.readOp_ok hop).length
    have hlen := hrun.length
    rw [ReadState.keep_idMap] at hover
    rw [List.length_append, List.length_singleton] at hle hall
    have hresult : entry.op.result.isSome := by
      by_contra hno
      rw [if_neg hno] at hlive
      omega
    have hinput : entry.op.input = none := by
      by_contra hno
      rw [if_pos (Option.isSome_iff_ne_none.mpr hno)] at hlive
      split_ifs at hlive
      omega
    rw [hinput, if_pos hresult] at hlive
    have hlive : st'.idMap.keys.length = st.idMap.keys.length + 1 := hlive
    obtain ⟨pid, hpid⟩ := hall.mp (by omega)
    exact ⟨done, line, post, pid, by simp, hpid, by omega, entry, hrec, hresult, hinput⟩

/-- When an allocation may overshoot, it is read last. -/
theorem Run.read_last {p q : List (List Char)} {l : List Char} (h : Run recognise maxOps pre st)
    (hlines : pre ++ post = p ++ l :: q)
    (hstop : post = [] ∨ maxOps ≤ pre.length + st.idMap.keys.length)
    (hsum : p.length + allocs (logEntries recognise p) + 1 =
      maxOps + frees (logEntries recognise p))
    (hrec : recognise l = some (.ok entry)) (hresult : entry.op.result.isSome)
    (hinput : entry.op.input = none) : pre = p ++ [l] := by
  have hlen := h.length
  have hallocs : allocs (logEntries recognise (p ++ [l])) = _ := allocs_append hrec
  have hfrees : frees (logEntries recognise (p ++ [l])) = _ := frees_append hrec
  rw [if_pos hresult] at hallocs
  rw [hinput] at hfrees
  rcases List.append_eq_append_iff.mp hlines with ⟨mid, rfl, rfl⟩ | ⟨mid, rfl, hmid⟩
  · have hle := hstop.resolve_left (by simp)
    have hmono := lines_mono recognise pre mid
    omega
  · cases mid with
    | nil =>
      obtain rfl : post = l :: q := by simpa using hmid.symm
      have hle := hstop.resolve_left (by simp)
      rw [List.append_nil] at *
      omega
    | cons l' mid =>
      obtain ⟨rfl, rfl⟩ : l = l' ∧ q = mid ++ post := by simpa using hmid
      cases mid with
      | nil => rfl
      | cons l' mid =>
        have hread : p ++ l :: l' :: mid = (p ++ [l]) ++ l' :: mid := by simp
        obtain ⟨st', hrun', hlt⟩ := h.guard hread
        have hlen' := hrun'.length
        have hfrees : frees (logEntries recognise (p ++ [l])) =
          frees (logEntries recognise p) := hfrees
        rw [List.length_append, List.length_singleton] at hlt
        omega

/-- **Lines**: the trace has more lines than the limit exactly when the last line read is kept like
all before it and is an allocation that needs two lines where one is left. -/
theorem openLog_length (h : openLog recognise order maxOps text = .ok trace) :
    trace.lines.length ≤ maxOps ↔ ¬ Overshoots recognise maxOps (getlines text).1 := by
  obtain ⟨pre, post, st, -, hlines, hrun, hstop, -, rfl⟩ := openLog_run h
  have hlen : (st.lines ++ (order.entries st.idMap).map fun entry => freeLine entry.2).length =
      st.lines.length + st.idMap.keys.length := by
    rw [List.length_append, List.length_map, (order.perm st.idMap).length_eq, List.length_map]
    exact congrArg _ (List.length_map ..).symm
  rw [hlen, ← not_lt, hlines]
  refine not_congr ⟨hrun.overshoots, ?_⟩
  rintro ⟨p, l, q, pid, heq, hall, hsum, entry, hrec, hresult, hinput⟩
  obtain rfl := hrun.read_last heq hstop hsum hrec hresult hinput
  have hkept := hrun.lines_eq.mpr ⟨pid, hall⟩
  have hlive := hrun.length
  rw [allocs_append hrec, frees_append hrec, if_pos hresult, hinput] at hlive
  have hlive : st.idMap.keys.length + frees (logEntries recognise p) =
    allocs (logEntries recognise p) + 1 := hlive
  rw [List.length_append, List.length_singleton] at hkept
  omega

/-- One allocation with a limit of one line. -/
theorem openLog_length_one : ¬ ∀ maxOps text trace,
    openLog sampleFields default maxOps text = .ok trace → trace.lines.length ≤ maxOps := by
  intro h
  have heq : openLog sampleFields default 1 "--1-- malloc(8) = 0x10\n".toList = .ok
      { lines := [.malloc ⟨some 0, some 8, none⟩, freeLine 0], maxSimultaneousAllocs := some 1 } := by
    rfl
  exact absurd (h 1 _ _ heq) (by decide)

/-- Two are enough. -/
theorem openLog_length_two :
    ¬ Overshoots sampleFields 2 (getlines "--1-- malloc(8) = 0x10\n".toList).1 := by
  have heq : openLog sampleFields default 2 "--1-- malloc(8) = 0x10\n".toList = .ok
      { lines := [.malloc ⟨some 0, some 8, none⟩, freeLine 0], maxSimultaneousAllocs := some 1 } := by
    rfl
  exact (openLog_length heq).mp (by decide)

end MallocBench.Trace
