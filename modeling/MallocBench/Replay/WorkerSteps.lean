import MallocBench.Replay.WorkerInv

/-!
# The steps of a worker

Every step of a worker keeps what the worker knows (`WorkerStep.local_next`) and what is true of what
is shared (`WorkerStep.shared_next`), and leaves alone what others know (`WorkerStep.frame`). So
`MakeFromOps` and `FlushOps` have no errors, and no slot that holds an op is read as a pointer.
-/

namespace MallocBench.Replay

open Lib Trace

/-- The worker's ops are ops of the replay, distinct, and no others wait for their inputs. The ids
that it is to record have no pointers yet. -/
structure Owned (ex : Executor) (pc : WorkerPc) (m : Shared) : Prop where
  isOp : ∀ op ∈ pc.held ex, ex.IsOp op
  nodup : (pc.held ex).Nodup
  pending : ∀ op ∈ pendingOps m.idMap, ex.IsOp op ∧ op ∉ pc.held ex
  queued : ∀ op ∈ m.queuedOps, ex.IsOp op ∧ op ∉ pc.held ex
  record : ∀ id ∈ pc.toRecord, id ∉ ptrIds m.idMap

section

variable {ex : Executor} {m m' : Shared} {pc pc' : WorkerPc} {op op' : Op} {id ptr : Nat}

theorem Executor.Traced.takes_unique (ht : ex.Traced) (h : ex.IsOp op) (h' : ex.IsOp op')
    (htakes : (opFlow ex.tracefile).takes op = some id)
    (htakes' : (opFlow ex.tracefile).takes op' = some id) : op = op' := by
  obtain ⟨k, hk, rfl⟩ := h
  obtain ⟨l, hl, rfl⟩ := h'
  rw [ht.takes_inj hk hl htakes htakes']

theorem Executor.Traced.puts_unique (ht : ex.Traced) (h : ex.IsOp op) (h' : ex.IsOp op')
    (hputs : (opFlow ex.tracefile).puts op = some id)
    (hputs' : (opFlow ex.tracefile).puts op' = some id) : op = op' := by
  obtain ⟨k, hk, rfl⟩ := h
  obtain ⟨l, hl, rfl⟩ := h'
  rw [ht.puts_inj hk hl hputs hputs']

/-! ## `CanDoOpOrQueue` -/

/-- **An op can be done** when its input is local or in the map, and waits in the map otherwise. -/
theorem canDoOpOrQueue_cases {tracefile : List TraceLine} {la la' : Finset Nat} {g g' : GlobalIdMap}
    {canDo : Bool} (h : Taking.canDoOpOrQueue tracefile la g op = (canDo, la', g')) :
    (canDo = true ∧ g' = g ∧
      la' = Taking.addResult (((opFlow tracefile).takes op).elim la la.erase)
        ((opFlow tracefile).puts op) ∧
      ∀ id, (opFlow tracefile).takes op = some id → id ∈ la ∨ id ∈ g) ∨
    (canDo = false ∧ la' = la ∧ ∃ id, (opFlow tracefile).takes op = some id ∧ id ∉ la ∧ id ∉ g ∧
      g' = g.insert id (.idx op)) := by
  unfold Taking.canDoOpOrQueue at h
  show (canDo = true ∧ g' = g ∧ la' = Taking.addResult ((op.uniqueIds tracefile).1.elim la la.erase)
      (op.uniqueIds tracefile).2 ∧ ∀ id, (op.uniqueIds tracefile).1 = some id → id ∈ la ∨ id ∈ g) ∨
    (canDo = false ∧ la' = la ∧ ∃ id, (op.uniqueIds tracefile).1 = some id ∧ id ∉ la ∧ id ∉ g ∧
      g' = g.insert id (.idx op))
  generalize op.uniqueIds tracefile = ids at h ⊢
  obtain ⟨inputId, resultId⟩ := ids
  cases inputId with
  | none =>
    obtain ⟨rfl, rfl, rfl⟩ := by simpa only [Prod.mk.injEq] using h
    exact .inl ⟨rfl, rfl, rfl, fun id hid => nomatch hid⟩
  | some id =>
    dsimp only at h
    by_cases hlocal : id ∈ la
    · rw [if_pos hlocal] at h
      obtain ⟨rfl, rfl, rfl⟩ := by simpa only [Prod.mk.injEq] using h
      exact .inl ⟨rfl, rfl, rfl, fun id' hid' => .inl (Option.some_inj.mp hid' ▸ hlocal)⟩
    · rw [if_neg hlocal] at h
      unfold maybeSuspendAllocation at h
      by_cases hmem : id ∈ g
      · rw [if_pos hmem] at h
        obtain ⟨rfl, rfl, rfl⟩ := by simpa only [Prod.mk.injEq] using h
        refine .inl ⟨rfl, rfl, ?_, fun id' hid' => .inr (Option.some_inj.mp hid' ▸ hmem)⟩
        rw [Option.elim_some, Finset.erase_eq_of_notMem hlocal]
      · rw [if_neg hmem] at h
        obtain ⟨rfl, rfl, rfl⟩ := by simpa only [Prod.mk.injEq] using h
        exact .inr ⟨rfl, rfl, id, rfl, hlocal, hmem, rfl⟩

/-- What an op adds to the local allocations is its result. -/
theorem mem_addResult {la : Finset Nat} {input result : Option Nat}
    (h : id ∈ Taking.addResult (input.elim la la.erase) result) : id ∈ la ∨ result = some id := by
  have herase : ∀ {id}, id ∈ input.elim la la.erase → id ∈ la := by
    intro id hid
    cases input with
    | none => exact hid
    | some id' => exact Finset.mem_of_mem_erase hid
  cases result with
  | none => exact .inl (herase h)
  | some id' =>
    rcases Finset.mem_insert.mp h with rfl | hmem
    · exact .inr rfl
    · exact .inl (herase hmem)

/-! ## `MakeFromOps` -/

section Make

variable {st st' : BatchState} {mk : Making} {todo : List Op} {line : TraceLine}
  {g γ g' : GlobalIdMap} {tracefile : List TraceLine}

theorem ops_next (st : BatchState) (line : TraceLine) (htodo : mk.todo = op :: todo) :
    (mk.next st op line todo).ops = mk.ops := by
  simp [Making.ops, Making.next, htodo]

/-- What `MakeFromOps` does for a result does not depend on the global map. -/
theorem addResult_congr {result : Option Nat} {line line' : TraceLine}
    (h : st.addResult line result = .ok (st', line')) (g : GlobalIdMap) :
    { st with globalIdMap := g }.addResult line result =
      .ok ({ st' with globalIdMap := g }, line') := by
  cases result with
  | none =>
    obtain ⟨rfl, rfl⟩ := Prod.mk.inj (Except.ok.inj h)
    rfl
  | some id =>
    unfold BatchState.addResult at h ⊢
    dsimp only at h ⊢
    split_ifs at h with hmem
    obtain ⟨rfl, rfl⟩ := Prod.mk.inj (Except.ok.inj h)
    rw [if_neg hmem]
    rfl

/-- An op whose input is a result of the batch does not depend on the global map. -/
theorem addOp_congr (hlocal : ∀ id, (opFlow tracefile).takes op = some id → id ∈ st.idToIdx)
    (h : st.addOp op tracefile = .ok (st', line)) (g : GlobalIdMap) :
    { st with globalIdMap := g }.addOp op tracefile = .ok ({ st' with globalIdMap := g }, line) := by
  have hinput : ∃ st₁ line₁, st.addInput (op.line tracefile) ((opFlow tracefile).takes op) =
        .ok (st₁, line₁) ∧
      { st with globalIdMap := g }.addInput (op.line tracefile) ((opFlow tracefile).takes op) =
        .ok ({ st₁ with globalIdMap := g }, line₁) := by
    cases hid : (opFlow tracefile).takes op with
    | none => exact ⟨st, _, rfl, rfl⟩
    | some id =>
      obtain ⟨idx, hidx⟩ := Option.isSome_iff_exists.mp (AList.lookup_isSome.mpr (hlocal id hid))
      simp only [BatchState.addInput, BatchState.inputIdx, hidx]
      exact ⟨_, _, rfl, rfl⟩
  obtain ⟨st₁, line₁, heq, heq'⟩ := hinput
  have hrun : ∀ st : BatchState, st.addOp op tracefile =
      (st.addInput (op.line tracefile) ((opFlow tracefile).takes op) >>= fun r =>
        r.1.addResult r.2 ((opFlow tracefile).puts op)) := fun _ => rfl
  rw [hrun, heq] at h
  rw [hrun, heq']
  exact addResult_congr h g

/-- An op whose input is in the global map. -/
theorem addOp_load (hid : (opFlow tracefile).takes op = some id) (hnot : id ∉ mk.idToIdx)
    (hptr : γ.lookup id = some (.allocatedPtr ptr)) : (mk.state γ).addOp op tracefile =
      (mk.loaded ptr (γ.erase id)).addResult (setInputId mk.idGen.fresh.1 (op.line tracefile))
        ((opFlow tracefile).puts op) := by
  have hlookup : mk.idToIdx.lookup id = none := AList.lookup_eq_none.mpr hnot
  have hmem : id ∈ γ := mem_of_lookup hptr
  have hinput : (mk.state γ).addInput (op.line tracefile) (some id) =
      .ok (mk.loaded ptr (γ.erase id), setInputId mk.idGen.fresh.1 (op.line tracefile)) := by
    have hfree : addFree γ id = .ok (γ.erase id) := if_pos hmem
    simp only [BatchState.addInput, BatchState.inputIdx, Making.state, hlookup, lookupAllocation,
      hptr, hfree, pure_bind]
    rfl
  show ((mk.state γ).addInput (op.line tracefile) ((opFlow tracefile).takes op) >>= fun r =>
    r.1.addResult r.2 ((opFlow tracefile).puts op)) = _
  rw [hid, hinput]
  rfl

variable (ht : ex.Traced) (h : MakeInv ex m mk g γ) (htodo : mk.todo = op :: todo)
  (hisOp : ∀ op ∈ mk.ops, ex.IsOp op) (hnodup : mk.ops.Nodup)

include ht h htodo hisOp hnodup

omit h in
/-- The ids of the next op are its own. -/
theorem Making.own : (∀ e ∈ mk.made.map Prod.fst, ∀ id, (opFlow ex.tracefile).puts op = some id →
      (opFlow ex.tracefile).puts e ≠ some id) ∧
    ∀ e ∈ mk.made.map Prod.fst ++ todo, ∀ id, (opFlow ex.tracefile).takes op = some id →
      (opFlow ex.tracefile).takes e ≠ some id := by
  have hops : mk.ops = mk.made.map Prod.fst ++ op :: todo := by rw [Making.ops, htodo]
  rw [hops] at hisOp hnodup
  have hnot : ∀ e ∈ mk.made.map Prod.fst ++ todo, e ≠ op := by
    rintro e he rfl
    exact (List.nodup_cons.mp (List.nodup_middle.mp hnodup)).1 he
  have hop : ex.IsOp op := hisOp op (by simp)
  refine ⟨fun e he id hid hid' => hnot e (List.mem_append_left _ he) ?_,
    fun e he id hid hid' => hnot e he ?_⟩
  · exact ht.puts_unique (hisOp e (List.mem_append_left _ he)) hop hid' hid
  · refine ht.takes_unique (hisOp e ?_) hop hid' hid
    exact (List.mem_append.mp he).elim (List.mem_append_left _)
      fun he => List.mem_append_right _ (List.mem_cons_of_mem _ he)

/-- The next op becomes a line. -/
theorem MakeInv.addOp : ∃ st line, (mk.state γ).addOp op ex.tracefile = .ok (st, line) ∧
    OpAdded ex.tracefile (mk.state γ) op st line ∧
    Batched ex.tracefile g (mk.made.map Prod.fst ++ [op]) st (mk.made.map Prod.snd ++ [line]) := by
  obtain ⟨hputs, htakes⟩ := Making.own ht htodo hisOp hnodup
  refine h.batched.addOp (fun id hid e he => hputs e he id hid)
    (fun id hid e he => htakes e (List.mem_append_left _ he) id hid) fun id hid => ?_
  exact h.ordered _ op todo (by rw [Making.ops, htodo]) id hid

/-- The pointer of an input that is not a result of the batch is in the map. -/
theorem MakeInv.lookup (hid : (opFlow ex.tracefile).takes op = some id) (hnot : id ∉ mk.idToIdx) :
    ∃ ptr, γ.lookup id = some (.allocatedPtr ptr) ∧
      m.idMap.lookup id = some (.allocatedPtr ptr) := by
  obtain ⟨-, htakes⟩ := Making.own ht htodo hisOp hnodup
  have hin : InputThere ex.tracefile g (mk.made.map Prod.fst) op :=
    h.ordered _ op todo (by rw [Making.ops, htodo])
  rcases h.batched.input (fun id hid e he => htakes e (List.mem_append_left _ he) id hid) hin hid with
    hmem | ⟨ptr, hptr, -⟩
  · exact absurd hmem hnot
  · exact ⟨ptr, hptr, h.agree op (by rw [htodo]; exact List.mem_cons_self) id ptr hid hptr⟩

/-- What is known after the op, when the other ops find their pointers as before. -/
theorem MakeInv.next (hadd : OpAdded ex.tracefile (mk.state γ) op st line)
    (hbatched : Batched ex.tracefile g (mk.made.map Prod.fst ++ [op]) st
      (mk.made.map Prod.snd ++ [line])) (hperformed : m'.performed = m.performed)
    (hmap : ∀ id, (opFlow ex.tracefile).takes op ≠ some id →
      m'.idMap.lookup id = m.idMap.lookup id) (g' : GlobalIdMap) :
    MakeInv ex m' (mk.next { st with globalIdMap := g' } op line todo) g st.globalIdMap where
  batched := by
    have hmade : (mk.next { st with globalIdMap := g' } op line todo).made = mk.made ++ [(op, line)] :=
      rfl
    rw [hmade, List.map_append, List.map_append]
    exact hbatched
  ordered := by
    rw [ops_next _ _ htodo]
    exact h.ordered
  produced id ptr hptr := by
    rw [hperformed]
    exact h.produced id ptr hptr
  agree e he id ptr hid hptr := by
    obtain ⟨-, htakes⟩ := Making.own ht htodo hisOp hnodup
    have hne : (opFlow ex.tracefile).takes op ≠ some id := fun hid' =>
      htakes e (List.mem_append_right _ he) id hid' hid
    rw [hadd.globalIdMap, if_neg fun hc => hne hc.1] at hptr
    rw [hmap id hne]
    exact h.agree e (by rw [htodo]; exact List.mem_cons_of_mem _ he) id ptr hid hptr

/-- The next op, when its input is a result of the batch. -/
theorem MakeInv.addOp_local
    (hlocal : ∀ id, (opFlow ex.tracefile).takes op = some id → id ∈ mk.idToIdx) :
    ∃ st line, (mk.state m.idMap).addOp op ex.tracefile =
        .ok ({ st with globalIdMap := m.idMap }, line) ∧
      OpAdded ex.tracefile (mk.state γ) op st line ∧
      Batched ex.tracefile g (mk.made.map Prod.fst ++ [op]) st (mk.made.map Prod.snd ++ [line]) := by
  obtain ⟨st, line, heq, hadd⟩ := h.addOp ht htodo hisOp hnodup
  exact ⟨st, line, addOp_congr hlocal heq m.idMap, hadd⟩

/-- The next op, when the pointer of its input is in the map. -/
theorem MakeInv.addOp_load (hid : (opFlow ex.tracefile).takes op = some id) (hnot : id ∉ mk.idToIdx)
    (hptr : m.idMap.lookup id = some (.allocatedPtr ptr)) (g' : GlobalIdMap) :
    ∃ st line, (mk.loaded ptr g').addResult
        (setInputId mk.idGen.fresh.1 (op.line ex.tracefile)) (op.uniqueIds ex.tracefile).2 =
        .ok ({ st with globalIdMap := g' }, line) ∧
      OpAdded ex.tracefile (mk.state γ) op st line ∧
      Batched ex.tracefile g (mk.made.map Prod.fst ++ [op]) st (mk.made.map Prod.snd ++ [line]) := by
  obtain ⟨st, line, heq, hadd⟩ := h.addOp ht htodo hisOp hnodup
  obtain ⟨ptr', hptr', hlookup⟩ := h.lookup ht htodo hisOp hnodup hid hnot
  obtain rfl : ptr' = ptr := by simpa using hlookup.symm.trans hptr
  rw [Replay.addOp_load hid hnot hptr'] at heq
  exact ⟨st, line, addResult_congr heq g', hadd⟩

end Make

theorem addFree_ok {g g' : GlobalIdMap} (h : addFree g id = .ok g') : g' = g.erase id := by
  unfold addFree at h
  split_ifs at h
  exact (Except.ok.inj h).symm

/-- A new entry leaves the others. -/
theorem frame_insert {val : MapVal} (hmap : m'.idMap = m.idMap.insert id val) (hnot : id ∉ m.idMap)
    (hperformed : m'.performed = m.performed) : Frame ex pc m m' where
  performed := ⟨[], by rw [hperformed, List.append_nil]⟩
  ptr id' ptr hptr _ := by
    rw [hmap]
    exact lookup_insert_eq_some.mpr (.inr ⟨fun heq => hnot (heq ▸ mem_of_lookup hptr), hptr⟩)
  pending id' op hop _ := by
    rw [hmap]
    exact lookup_insert_eq_some.mpr (.inr ⟨fun heq => hnot (heq ▸ mem_of_lookup hop), hop⟩)

/-- An op of the worker takes its input out of the map. -/
theorem frame_erase (hmap : m'.idMap = m.idMap.erase id)
    (hptr : m.idMap.lookup id = some (.allocatedPtr ptr)) (hop : op ∈ pc.held ex)
    (hid : (opFlow ex.tracefile).takes op = some id) (hperformed : m'.performed = m.performed) :
    Frame ex pc m m' where
  performed := ⟨[], by rw [hperformed, List.append_nil]⟩
  ptr id' ptr' hptr' hno := by
    rw [hmap]
    refine lookup_erase_eq_some.mpr ⟨hptr', ?_⟩
    rintro rfl
    exact hno op hop hid
  pending id' op' hop' _ := by
    rw [hmap]
    refine lookup_erase_eq_some.mpr ⟨hop', ?_⟩
    rintro rfl
    cases hptr.symm.trans hop'

/-! ## The ops of a batch -/

section BatchSteps

variable {b : Batch} {line : TraceLine} {todo : List (Op × TraceLine)} {performed : List Performed}

theorem processLine_eq (h : WritesResult line) (slots : Nat → Nat) (result : Nat) :
    processLine line slots result = slotsAfter slots line result := by
  cases line with
  | malloc malloc =>
    obtain ⟨_ | id, size, alignment⟩ := malloc
    · exact ite_self _
    · exact if_pos (h rfl)
  | calloc calloc =>
    obtain ⟨_ | id, nmemb, size⟩ := calloc
    · exact ite_self _
    · exact if_pos (h rfl)
  | realloc | free | opNotSet => rfl

theorem writesResult_renameIds (h : WritesResult line) (i j : Nat) :
    WritesResult (renameIds i j line) := by
  cases line with
  | malloc malloc => exact fun hsome => h (by simpa using hsome)
  | calloc calloc => exact fun hsome => h (by simpa using hsome)
  | realloc | free | opNotSet => trivial

theorem Executor.Faithful.writesResult (h : ex.Faithful) (op : Op) : WritesResult (op.line ex.tracefile) := by
  unfold Op.line
  rcases lt_or_ge op.lineIdx ex.tracefile.length with hlt | hge
  · rw [List.getD_eq_getElem _ _ hlt]
    exact h _ (List.getElem_mem hlt)
  · rw [List.getD_eq_default _ _ hge]
    trivial

/-- The batch that has been made. -/
theorem MakeInv.batchInv {mk : Making} {g γ : GlobalIdMap} (h : MakeInv ex m mk g γ)
    (htodo : mk.todo = []) : BatchInv ex m.performed ⟨mk.made, mk.idToIdx, mk.idMap⟩ where
  ordered := by
    have hops : mk.ops = mk.made.map Prod.fst := by rw [Making.ops, htodo, List.append_nil]
    exact (hops ▸ h.ordered).mono fun op _ id _ ⟨ptr, hptr⟩ => (h.produced id ptr hptr).putBy
  recorded id hid := .inl (put_of_live ((h.batched.mem id).mp hid))
  renamed e he := by
    have hrenamed := h.batched.renamed
    rw [List.forall₂_map_left_iff, List.forall₂_map_right_iff] at hrenamed
    exact (List.forall₂_same.mp hrenamed) e he
  holds _ := by
    refine ⟨preloaded g, fun id ptr hptr => h.produced id ptr ?_, fun results hlen => ?_⟩
    · unfold preloaded at hptr
      split at hptr
      · rename_i hlookup
        rw [hlookup, Option.some_inj.mp hptr]
      · cases hptr
    · have hlength : results.length = (mk.made.map Prod.fst).length := by
        rw [hlen, List.length_map]
      obtain ⟨hinputs, hold⟩ := h.batched.hold mk.idMap results hlength fun _ _ => rfl
      exact ⟨hinputs, fun id i hid => hold.inSlot id i hid⟩

variable (h : BatchInv ex performed b) (htodo : b.todo = (op, line) :: todo)

include h htodo

/-- The first op of a batch is given the pointer of its input, which is there. -/
theorem BatchInv.input (hid : (opFlow ex.tracefile).takes op = some id) :
    ∃ e ∈ performed, (opFlow ex.tracefile).puts e.op = some id ∧
      (ex.Faithful → inputPtr line b.idMap = some e.result) := by
  have hops : b.ops = op :: todo.map Prod.fst := by rw [Batch.ops, htodo, List.map_cons]
  by_cases hfaithful : ex.Faithful
  · obtain ⟨ptrs, hproduced, hrun⟩ := h.holds hfaithful
    obtain ⟨hinputs, -⟩ := hrun (List.replicate b.todo.length 0) List.length_replicate
    rw [hops, htodo] at hinputs
    have hinput : inputPtr line b.idMap = ptrs id := by
      have hhead := congrArg List.head? hinputs
      have hbind : inputPtr line b.idMap = ((opFlow ex.tracefile).takes op).bind ptrs :=
        Option.some_inj.mp hhead
      rw [hbind, hid, Option.bind_some]
    obtain ⟨i, j, hline⟩ := h.renamed (op, line) (by rw [htodo]; exact List.mem_cons_self)
    have hsome : (inputPtr line b.idMap).isSome := by
      obtain ⟨k, hk, -⟩ := Option.map_eq_some_iff.mp hid
      have htakes : idFlow.takes line = some i := by
        rw [show line = renameIds i j (op.line ex.tracefile) from hline, takes_renameIds]
        rw [show idFlow.takes (op.line ex.tracefile) = some k from hk]
        rfl
      rw [inputPtr, show (inputAndResultIds line).1 = some i from htakes]
      rfl
    obtain ⟨ptr, hptr⟩ := Option.isSome_iff_exists.mp hsome
    obtain ⟨e, he, hputs, hresult⟩ := hproduced id ptr (hinput.symm.trans hptr)
    exact ⟨e, he, hputs, fun _ => by rw [hptr, hresult hfaithful]⟩
  · obtain ⟨e, he, hputs⟩ := (hops ▸ h.ordered).head hid
    exact ⟨e, he, hputs, fun hc => absurd hc hfaithful⟩

/-- After the first op. -/
theorem BatchInv.next (input : Option Nat) (result : Nat) :
    BatchInv ex (performed ++ [⟨op, input, result⟩])
      { b with todo := todo, idMap := processLine line b.idMap result } := by
  have hops : b.ops = op :: todo.map Prod.fst := by rw [Batch.ops, htodo, List.map_cons]
  have hput : ∀ {id}, (opFlow ex.tracefile).puts op = some id →
      PutBy ex (performed ++ [⟨op, input, result⟩]) id := fun hid =>
    ⟨⟨op, input, result⟩, List.mem_append_right _ List.mem_cons_self, hid⟩
  refine ⟨?_, fun id hid => ?_, fun e he => h.renamed e ?_, fun hfaithful => ?_⟩
  · refine (hops ▸ h.ordered).tail.mono fun e _ id _ hthere => ?_
    exact hthere.elim PutBy.append hput
  · rcases h.recorded id hid with ⟨e, he, hputs⟩ | hput'
    · rw [hops] at he
      rcases List.mem_cons.mp he with rfl | he
      · exact .inr (hput hputs)
      · exact .inl ⟨e, he, hputs⟩
    · exact .inr hput'.append
  · rw [htodo]
    exact List.mem_cons_of_mem _ he
  · obtain ⟨ptrs, hproduced, hrun⟩ := h.holds hfaithful
    refine ⟨idsAfter ex.tracefile ptrs op result, fun id ptr hptr => ?_, fun results hlen => ?_⟩
    · unfold idsAfter at hptr
      split_ifs at hptr with hputs htakes
      · obtain rfl := Option.some_inj.mp hptr
        exact ⟨_, List.mem_append_right _ List.mem_cons_self, hputs, fun _ => rfl⟩
      · exact (hproduced id ptr hptr).append
    · obtain ⟨i, j, hline⟩ := h.renamed (op, line) (by rw [htodo]; exact List.mem_cons_self)
      have hwrites : WritesResult line := by
        rw [show line = renameIds i j (op.line ex.tracefile) from hline]
        exact writesResult_renameIds (hfaithful.writesResult op) i j
      obtain ⟨hinputs, hslots⟩ := hrun (result :: results) (by rw [htodo]; simpa using hlen)
      rw [hops, htodo] at hinputs hslots
      rw [processLine_eq hwrites]
      exact ⟨(List.cons.inj hinputs).2, hslots⟩

end BatchSteps

/-! ## What others know -/

/-- **A step** leaves alone what others know. -/
theorem WorkerStep.frame (h : WorkerStep ex pc m pc' m') (hlocal : pc.Local ex m) :
    Frame ex pc m m' := by
  cases h with
  | scan t i endIdx _ hlt hcan =>
    rcases canDoOpOrQueue_cases hcan with ⟨-, rfl, -⟩ | ⟨-, -, id, -, -, hnot, rfl⟩
    · exact .of_eq rfl rfl
    · exact frame_insert rfl hnot rfl
  | addFree mk id ptr _ htodo hfree | addResultError mk id ptr _ htodo hfree =>
    obtain ⟨-, -, hptr, op, todo, htodo', hid⟩ := hlocal
    refine frame_erase (addFree_ok hfree) hptr ?_ hid rfl
    exact Multiset.mem_coe.mpr (List.mem_append_right _ (by rw [htodo']; exact List.mem_cons_self))
  | perform b _ htodo result =>
    exact ⟨⟨_, rfl⟩, fun _ _ hptr _ => hptr, fun _ _ hop _ => hop⟩
  | insert id ptr records _ hnot => exact frame_insert rfl hnot rfl
  | assign id ptr op records _ hmem =>
    refine ⟨⟨[], (List.append_nil _).symm⟩, fun id' ptr' hptr _ => ?_, fun id' op' hop hnot => ?_⟩
    · refine lookup_insert_eq_some.mpr (.inr ⟨?_, hptr⟩)
      rintro rfl
      cases hlocal.2.symm.trans hptr
    · refine lookup_insert_eq_some.mpr (.inr ⟨?_, hop⟩)
      rintro rfl
      exact hnot (Multiset.mem_coe.mpr List.mem_cons_self)
  | _ => exact .of_eq rfl rfl

/-! ## What the worker knows -/

theorem local_range {t : Taking} (h : WorkerPc.Local ex m (.claim t)) (hmap : m'.idMap = m.idMap)
    (first : Nat) : (WorkerPc.range ex t first).Local ex m' := by
  have h' : WorkerPc.Local ex m' (.claim t) := ⟨hmap ▸ h.1, h.2⟩
  unfold WorkerPc.range
  dsimp only
  split_ifs
  · exact h'.1
  · exact h'

/-- An op that can be done finds the pointer of its input in the map, if it is not local. -/
theorem hasPtr_of_mem (ht : ex.Traced) (hshared : SharedInv ex m) (howned : Owned ex pc m)
    (hop : op ∈ pc.held ex) (hid : (opFlow ex.tracefile).takes op = some id) (hmem : id ∈ m.idMap) :
    HasPtr m.idMap id := by
  obtain ⟨val, hval⟩ := Option.isSome_iff_exists.mp (AList.lookup_isSome.mpr hmem)
  cases val with
  | allocatedPtr ptr => exact ⟨ptr, hval⟩
  | idx op' =>
    obtain ⟨hisOp, hnot⟩ := howned.pending op' (mem_pendingOps.mpr ⟨id, hval⟩)
    obtain rfl := ht.takes_unique (howned.isOp op hop) hisOp hid (hshared.pending id op' hval)
    exact absurd hop hnot

theorem HasPtr.insert {g : GlobalIdMap} {id' : Nat} {val : MapVal} (h : HasPtr g id) (hnot : id' ∉ g) :
    HasPtr (g.insert id' val) id := by
  obtain ⟨ptr, hptr⟩ := h
  exact ⟨ptr, lookup_insert_eq_some.mpr (.inr ⟨fun heq => hnot (heq ▸ mem_of_lookup hptr), hptr⟩)⟩

/-- **What a worker knows** after its own step. -/
theorem WorkerStep.local_next (h : WorkerStep ex pc m pc' m') (ht : ex.Traced)
    (hlocal : pc.Local ex m) (hshared : SharedInv ex m) (howned : Owned ex pc m) :
    pc'.Local ex m' := by
  cases h with
  | takeFromQueue =>
    refine ⟨ordered_of_there fun op hop id hid => hshared.queued op ?_ id hid, fun id hid => ?_⟩
    · rw [Taking.ops, List.append_nil] at hop
      exact List.mem_of_mem_take hop
    · exact absurd hid (Finset.notMem_empty id)
  | enough t => exact hlocal.1
  | fetchAdd t =>
    split_ifs
    · exact hlocal
    · exact local_range hlocal (by rfl) _
  | clamp t => exact local_range hlocal (by rfl) _
  | scan t i endIdx _ hlt hcan =>
    have hop : ex.op i ∈ WorkerPc.held ex (.scan t i endIdx) := by
      refine Multiset.mem_coe.mpr (List.mem_append_right _ ?_)
      exact Executor.mem_opsFrom.mpr ⟨i, Nat.le_refl i, hlt, rfl⟩
    rcases canDoOpOrQueue_cases hcan with ⟨rfl, rfl, rfl, hin⟩ | ⟨rfl, rfl, id, -, -, hnot, rfl⟩
    · have hops : (t.add true (Taking.addResult (((opFlow ex.tracefile).takes (ex.op i)).elim
          t.localAllocations t.localAllocations.erase) ((opFlow ex.tracefile).puts (ex.op i)))
          (ex.op i)).ops = t.ops ++ [ex.op i] := (List.append_assoc ..).symm
      refine ⟨?_, fun id hid => ?_⟩
      · rw [hops, ordered_append]
        refine ⟨hlocal.1, fun id hid => ?_⟩
        exact (hin id hid).imp (hlocal.2 id) (hasPtr_of_mem ht hshared howned hop hid)
      · rw [hops]
        rcases mem_addResult hid with hid | hputs
        · obtain ⟨e, he, hputs⟩ := hlocal.2 id hid
          exact ⟨e, List.mem_append_left _ he, hputs⟩
        · exact ⟨ex.op i, List.mem_append_right _ List.mem_cons_self, hputs⟩
    · exact ⟨hlocal.1.mono fun _ _ _ _ hptr => hptr.insert hnot, hlocal.2⟩
  | scanned t => exact hlocal
  | start ops _ uninitialised =>
    exact ⟨m.idMap, m.idMap, batched_nil uninitialised, hlocal, hshared.ptr, fun _ _ _ _ _ h => h⟩
  | makeLocal mk _ htodo hin hadd =>
    obtain ⟨g, γ, hinv⟩ := hlocal
    obtain ⟨st, line, heq, hadded, hbatched⟩ := hinv.addOp_local ht htodo howned.isOp howned.nodup hin
    obtain ⟨rfl, rfl⟩ := Prod.mk.inj (Except.ok.inj (heq.symm.trans hadd))
    exact ⟨g, _, hinv.next ht htodo howned.isOp howned.nodup hadded hbatched rfl (fun _ _ => rfl) _⟩
  | makeLocalError mk _ htodo hin hadd =>
    obtain ⟨g, γ, hinv⟩ := hlocal
    obtain ⟨st, line, heq, -⟩ := hinv.addOp_local ht htodo howned.isOp howned.nodup hin
    cases heq.symm.trans hadd
  | lookup mk _ htodo hid hnot hptr => exact ⟨hlocal, hnot, hptr, _, _, htodo, hid⟩
  | lookupNone mk _ htodo hid hnot hnone =>
    obtain ⟨g, γ, hinv⟩ := hlocal
    obtain ⟨ptr, -, hptr⟩ := hinv.lookup ht htodo howned.isOp howned.nodup hid hnot
    cases hnone.symm.trans hptr
  | lookupPending mk _ htodo hid hnot hidx =>
    obtain ⟨g, γ, hinv⟩ := hlocal
    obtain ⟨ptr, -, hptr⟩ := hinv.lookup ht htodo howned.isOp howned.nodup hid hnot
    cases hidx.symm.trans hptr
  | addFree mk id ptr _ htodo hfree hadd =>
    obtain ⟨⟨g, γ, hinv⟩, hnot, hptr, op, todo, htodo', hid⟩ := hlocal
    obtain ⟨rfl, rfl⟩ := List.cons.inj (htodo.symm.trans htodo')
    obtain ⟨st, line, heq, hadded, hbatched⟩ :=
      hinv.addOp_load ht htodo howned.isOp howned.nodup hid hnot hptr _
    obtain ⟨rfl, rfl⟩ := Prod.mk.inj (Except.ok.inj (heq.symm.trans hadd))
    refine ⟨g, st.globalIdMap, ?_⟩
    refine hinv.next ht htodo howned.isOp howned.nodup hadded hbatched ?_ (fun id' hne => ?_) _
    · rfl
    · rw [addFree_ok hfree]
      exact AList.lookup_erase_ne fun heq => hne (by rw [hid, heq])
  | addFreeError mk id ptr _ hfree =>
    have hmem : id ∈ m.idMap := mem_of_lookup hlocal.2.2.1
    cases (if_pos hmem).symm.trans hfree
  | addResultError mk id ptr _ htodo hfree hadd =>
    obtain ⟨⟨g, γ, hinv⟩, hnot, hptr, op, todo, htodo', hid⟩ := hlocal
    obtain ⟨rfl, rfl⟩ := List.cons.inj (htodo.symm.trans htodo')
    obtain ⟨st, line, heq, -⟩ :=
      hinv.addOp_load ht htodo howned.isOp howned.nodup hid hnot hptr _
    cases heq.symm.trans hadd
  | made mk _ htodo =>
    obtain ⟨g, γ, hinv⟩ := hlocal
    exact hinv.batchInv htodo
  | arrive b second => exact hlocal
  | resume b second => split_ifs <;> exact hlocal
  | perform b _ htodo result => exact BatchInv.next hlocal htodo _ result
  | performError b => rfl
  | processed b _ htodo hrecords =>
    intro r hr
    obtain ⟨⟨id, i⟩, hentry, rfl⟩ := List.mem_map.mp (hrecords.mem_iff.mp hr)
    have hlookup : b.idToIdx.lookup id = some i := AList.mem_lookup_iff.mpr hentry
    have hinv : BatchInv ex m.performed b := hlocal
    by_cases hfaithful : ex.Faithful
    · obtain ⟨ptrs, hproduced, hrun⟩ := hinv.holds hfaithful
      have hslot := (hrun [] (by rw [htodo]; rfl)).2 id i hlookup
      rw [Batch.ops, htodo] at hslot
      exact hproduced id _ hslot
    · have hput : PutBy ex m.performed id := by
        refine (hinv.recorded id (mem_of_lookup hlookup)).resolve_left ?_
        rintro ⟨op, hop, -⟩
        rw [Batch.ops, htodo] at hop
        exact absurd hop List.not_mem_nil
      obtain ⟨e, he, hputs⟩ := hput
      exact ⟨e, he, hputs, fun hc => absurd hc hfaithful⟩
  | insert id ptr records => exact fun r hr => hlocal r (List.mem_cons_of_mem _ hr)
  | pending id ptr records _ hidx => exact ⟨hlocal, hidx⟩
  | notPending id ptr records _ hptr =>
    refine absurd (mem_ptrIds.mpr ⟨_, hptr⟩) (howned.record id ?_)
    exact Multiset.mem_coe.mpr List.mem_cons_self
  | assign id ptr op records =>
    refine ⟨fun r hr => hlocal.1 r (List.mem_cons_of_mem _ hr), fun id' hid' => ?_⟩
    obtain rfl : id = id' := Option.some_inj.mp ((hshared.pending id op hlocal.2).symm.trans hid')
    exact ⟨ptr, AList.lookup_insert _⟩
  | assignError id ptr op records _ hnot => exact absurd (mem_of_lookup hlocal.2) hnot
  | push op records => exact hlocal.1
  | storeDone error => exact hlocal
  | _ => trivial

/-! ## What is shared -/

theorem InOrder.append {performed : List Performed} {e : Performed} (h : InOrder ex performed)
    (he : ∀ id, (opFlow ex.tracefile).takes e.op = some id →
      ∃ e' ∈ performed, (opFlow ex.tracefile).puts e'.op = some id ∧
        (ex.Faithful → e.input = some e'.result)) : InOrder ex (performed ++ [e]) :=
  forall_split_append.mpr ⟨h, he⟩

/-- Another map, in which the ops of the queue find their pointers as before. -/
theorem SharedInv.congr (h : SharedInv ex m) (hpending : ∀ id op,
      m'.idMap.lookup id = some (.idx op) → (opFlow ex.tracefile).takes op = some id)
    (hptr : ∀ id ptr, m'.idMap.lookup id = some (.allocatedPtr ptr) →
      Produced ex m.performed id ptr)
    (hqueued : ∀ op ∈ m.queuedOps, ∀ id, (opFlow ex.tracefile).takes op = some id →
      HasPtr m.idMap id → HasPtr m'.idMap id)
    (hqueue : m'.queuedOps = m.queuedOps) (hperformed : m'.performed = m.performed)
    (hmisread : m'.misread = m.misread) : SharedInv ex m' where
  pending := hpending
  ptr id ptr hlookup := hperformed ▸ hptr id ptr hlookup
  queued op hop id hid := by
    rw [hqueue] at hop
    exact hqueued op hop id hid (h.queued op hop id hid)
  inOrder := hperformed ▸ h.inOrder
  misread := hmisread.trans h.misread

/-- **What is true of what is shared** after a step of a worker. -/
theorem WorkerStep.shared_next (h : WorkerStep ex pc m pc' m') (ht : ex.Traced)
    (hlocal : pc.Local ex m) (hshared : SharedInv ex m) (howned : Owned ex pc m) :
    SharedInv ex m' := by
  cases h with
  | takeFromQueue =>
    refine ⟨hshared.pending, hshared.ptr, fun op hop => ?_, hshared.inOrder, hshared.misread⟩
    exact hshared.queued op (List.mem_of_mem_drop hop)
  | fetchAdd | clamp | arrive | arriveNext | drop | storeDone =>
    exact ⟨hshared.pending, hshared.ptr, hshared.queued, hshared.inOrder, hshared.misread⟩
  | scan t i endIdx _ hlt hcan =>
    rcases canDoOpOrQueue_cases hcan with ⟨-, rfl, -⟩ | ⟨-, -, id, hid, -, hnot, rfl⟩
    · exact hshared
    · refine hshared.congr (fun id' op hlookup => ?_) (fun id' ptr hlookup => ?_)
        (fun _ _ _ _ hptr => hptr.insert hnot) rfl rfl rfl
      · rcases lookup_insert_eq_some.mp hlookup with ⟨rfl, heq⟩ | ⟨-, hlookup⟩
        · rw [MapVal.idx.inj heq, hid]
        · exact hshared.pending id' op hlookup
      · rcases lookup_insert_eq_some.mp hlookup with ⟨-, heq⟩ | ⟨-, hlookup⟩
        · cases heq
        · exact hshared.ptr id' ptr hlookup
  | addFree mk id ptr _ htodo hfree | addResultError mk id ptr _ htodo hfree =>
    obtain ⟨-, hnot, hptr, op, todo, htodo', hid⟩ := hlocal
    have hop : op ∈ WorkerPc.held ex (.load mk id ptr) :=
      Multiset.mem_coe.mpr (List.mem_append_right _ (by rw [htodo']; exact List.mem_cons_self))
    refine hshared.congr (fun id' op' hlookup => ?_) (fun id' ptr' hlookup => ?_)
      (fun op' hop' id' hid' hptr' => ?_) rfl rfl rfl
    · rw [addFree_ok hfree] at hlookup
      exact hshared.pending id' op' (lookup_erase_eq_some.mp hlookup).1
    · rw [addFree_ok hfree] at hlookup
      exact hshared.ptr id' ptr' (lookup_erase_eq_some.mp hlookup).1
    · obtain ⟨ptr', hptr'⟩ := hptr'
      refine ⟨ptr', ?_⟩
      rw [addFree_ok hfree]
      refine lookup_erase_eq_some.mpr ⟨hptr', ?_⟩
      rintro rfl
      -- the op in the queue is not one of the worker
      obtain ⟨hisOp, hheld⟩ := howned.queued op' hop'
      obtain rfl := ht.takes_unique (howned.isOp op hop) hisOp hid hid'
      exact hheld hop
  | lookupPending mk _ htodo hid hnot hidx =>
    obtain ⟨g, γ, hinv⟩ := hlocal
    obtain ⟨ptr, -, hptr⟩ := hinv.lookup ht htodo howned.isOp howned.nodup hid hnot
    cases hidx.symm.trans hptr
  | perform b _ htodo result =>
    refine ⟨hshared.pending, fun id ptr hptr => (hshared.ptr id ptr hptr).append, hshared.queued,
      hshared.inOrder.append fun id hid => ?_, hshared.misread⟩
    exact BatchInv.input hlocal htodo hid
  | insert id ptr records _ hnot =>
    refine hshared.congr (fun id' op hlookup => ?_) (fun id' ptr' hlookup => ?_)
      (fun _ _ _ _ hptr => hptr.insert hnot) rfl rfl rfl
    · rcases lookup_insert_eq_some.mp hlookup with ⟨-, heq⟩ | ⟨-, hlookup⟩
      · cases heq
      · exact hshared.pending id' op hlookup
    · rcases lookup_insert_eq_some.mp hlookup with ⟨rfl, heq⟩ | ⟨-, hlookup⟩
      · rw [MapVal.allocatedPtr.inj heq]
        exact hlocal _ List.mem_cons_self
      · exact hshared.ptr id' ptr' hlookup
  | notPending id ptr records _ hptr =>
    refine absurd (mem_ptrIds.mpr ⟨_, hptr⟩) (howned.record id ?_)
    exact Multiset.mem_coe.mpr List.mem_cons_self
  | assign id ptr op records =>
    refine hshared.congr (fun id' op' hlookup => ?_) (fun id' ptr' hlookup => ?_)
      (fun op' hop' id' hid' hptr => ?_) rfl rfl rfl
    · rcases lookup_insert_eq_some.mp hlookup with ⟨-, heq⟩ | ⟨-, hlookup⟩
      · cases heq
      · exact hshared.pending id' op' hlookup
    · rcases lookup_insert_eq_some.mp hlookup with ⟨rfl, heq⟩ | ⟨-, hlookup⟩
      · rw [MapVal.allocatedPtr.inj heq]
        exact hlocal.1 _ List.mem_cons_self
      · exact hshared.ptr id' ptr' hlookup
    · obtain ⟨ptr', hptr⟩ := hptr
      by_cases heq : id' = id
      · exact heq ▸ ⟨ptr, AList.lookup_insert _⟩
      · exact ⟨ptr', lookup_insert_eq_some.mpr (.inr ⟨heq, hptr⟩)⟩
  | push op records =>
    refine ⟨hshared.pending, hshared.ptr, fun op' hop' => ?_, hshared.inOrder, hshared.misread⟩
    rcases List.mem_append.mp hop' with hop' | hop'
    · exact hshared.queued op' hop'
    · obtain rfl := List.mem_singleton.mp hop'
      exact hlocal.2
  | _ => exact hshared

end

end MallocBench.Replay
