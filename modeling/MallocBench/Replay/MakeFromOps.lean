import MallocBench.Replay.Batch

/-!
# `MakeFromOps` keeps the pointers

The loop of `MakeFromOps` after some of the ops: `Batched`. One lemma carries it over an op, and
`makeFromOps_spec` reads off what the replay needs: the slots fit into the array, every op gets
the pointer of its input id, and the allocations to record are those that are live at the end.
-/

namespace MallocBench.Replay

open Lib Trace

variable {tracefile : List TraceLine} {st st' : BatchState} {op : Op} {ops : List Op}
  {g : GlobalIdMap} {line : TraceLine} {lines : List TraceLine} {id : Nat}

/-! ## One op -/

/-- Setting the ids that a line has is renaming them. -/
theorem setIds_eq {idx idx' : Option Nat} (hinput : idx.isSome = (inputAndResultIds line).1.isSome)
    (hresult : idx'.isSome = (inputAndResultIds line).2.isSome) :
    idx'.elim (idx.elim line fun i => setInputId i line)
        (fun j => setResultId j (idx.elim line fun i => setInputId i line)) =
      renameIds (idx.getD 0) (idx'.getD 0) line ∧
    inputAndResultIds (renameIds (idx.getD 0) (idx'.getD 0) line) = (idx, idx') := by
  rcases line with ⟨_ | _, _, _⟩ | ⟨_ | _, _, _⟩ | ⟨_, _ | _, _⟩ | ⟨_ | _, _, _⟩ | _ <;>
    cases idx <;> cases idx' <;>
    simp_all [inputAndResultIds, setInputId, setResultId, renameIds]

/-- What one op does. -/
structure OpAdded (tracefile : List TraceLine) (st : BatchState) (op : Op) (st' : BatchState)
    (line : TraceLine) : Prop where
  inv : st'.Inv
  next : st.idGen.next ≤ st'.idGen.next ∧ st'.idGen.next ≤ st.idGen.next + 1
  renamed : ∃ i j, line = renameIds i j (op.line tracefile)
  slots : ∀ i, idFlow.takes line = some i ∨ idFlow.puts line = some i → i < st'.idGen.next
  mem : ∀ id, id ∈ st'.idToIdx ↔ (opFlow tracefile).puts op = some id ∨
    (id ∈ st.idToIdx ∧ (opFlow tracefile).takes op ≠ some id)
  globalIdMap : ∀ id, st'.globalIdMap.lookup id =
    if (opFlow tracefile).takes op = some id ∧ id ∉ st.idToIdx then none
    else st.globalIdMap.lookup id
  idMap : ∀ i, i < st.idGen.next → st'.idMap i = st.idMap i
  hold : ∀ a m final todo ptr, (∀ i, i < st'.idGen.next → final i = st'.idMap i) →
    (∀ id, (opFlow tracefile).takes op = some id → todo id) → SlotsHold st a m final todo →
    (idFlow.takes line).map a = ((opFlow tracefile).takes op).bind m ∧
      SlotsHold st' (slotsAfter a line ptr) (idsAfter tracefile m op ptr) final
        fun id => todo id ∧ (opFlow tracefile).takes op ≠ some id

/-- **One op** whose input is there and whose result is not. -/
theorem addOp_spec (h : st.Inv)
    (hin : ∀ id, (opFlow tracefile).takes op = some id → id ∈ st.idToIdx ∨
      ∃ ptr, st.globalIdMap.lookup id = some (.allocatedPtr ptr))
    (hnew : ∀ id, (opFlow tracefile).puts op = some id → id ∈ st.idToIdx →
      (opFlow tracefile).takes op = some id) :
    ∃ st' line, st.addOp op tracefile = .ok (st', line) ∧ OpAdded tracefile st op st' line := by
  obtain ⟨idx, st₁, heq₁, h₁⟩ := addInput_spec h (op.line tracefile) hin
  have hnew₁ : ∀ id, (opFlow tracefile).puts op = some id → id ∉ st₁.idToIdx := fun id hid hmem =>
    ((h₁.mem id).mp hmem).2 (hnew id hid ((h₁.mem id).mp hmem).1)
  obtain ⟨idx', st₂, heq₂, h₂⟩ := addResult_spec h₁.inv
    (idx.elim (op.line tracefile) fun i => setInputId i (op.line tracefile)) hnew₁
  have hinput : idx.isSome = (inputAndResultIds (op.line tracefile)).1.isSome :=
    h₁.isSome.trans (Option.isSome_map ..)
  have hresult : idx'.isSome = (inputAndResultIds (op.line tracefile)).2.isSome :=
    h₂.isSome.trans (Option.isSome_map ..)
  obtain ⟨hrename, hids⟩ := setIds_eq hinput hresult
  rw [hrename] at heq₂
  generalize hline : renameIds (idx.getD 0) (idx'.getD 0) (op.line tracefile) = line at *
  have htakes : idFlow.takes line = idx := congrArg Prod.fst hids
  have hputs : idFlow.puts line = idx' := congrArg Prod.snd hids
  have hrun : st.addOp op tracefile = .ok (st₂, line) := by
    unfold BatchState.addOp
    show (st.addInput (op.line tracefile) ((opFlow tracefile).takes op) >>= fun r =>
      r.1.addResult r.2 ((opFlow tracefile).puts op)) = _
    rw [heq₁]
    exact heq₂
  have hlt : ∀ i, idx = some i → i < st₁.idGen.next := fun i hi =>
    (h₁.inv.partition.lt_next i).mpr (.inl (h₁.idx_free i hi))
  refine ⟨st₂, line, hrun, h₂.inv, ?_, ⟨_, _, hline.symm⟩, ?_, ?_, ?_, ?_, ?_⟩
  · refine ⟨h₁.next.1.trans h₂.next.1, ?_⟩
    cases hidx : idx with
    | none =>
      have hnone : (opFlow tracefile).takes op = none := by
        rw [← Option.not_isSome_iff_eq_none, ← h₁.isSome, hidx]
        exact Bool.false_ne_true
      rw [← h₁.next_eq hnone]
      exact h₂.next.2
    | some i =>
      -- the slot of the input is free, so the result needs no new one
      rw [h₂.next_eq ⟨i, h₁.idx_free i hidx⟩]
      exact h₁.next.2
  · rintro i (hi | hi)
    · exact Nat.lt_of_lt_of_le (hlt i (htakes ▸ hi)) h₂.next.1
    · exact h₂.idx_lt i (hputs ▸ hi)
  · intro id
    rw [h₂.mem, h₁.mem]
  · intro id
    rw [h₂.globalIdMap, h₁.globalIdMap]
  · intro i hi
    rw [h₂.idMap, h₁.idMap i hi]
  · intro a m final todo ptr hfinal htodo hold
    have hfinal₁ : ∀ i, i < st₁.idGen.next → final i = st₁.idMap i := fun i hi => by
      rw [hfinal i (Nat.lt_of_lt_of_le hi h₂.next.1), h₂.idMap]
    obtain ⟨hinput, hold₁⟩ := h₁.hold a m final todo hfinal₁ htodo hold
    refine ⟨by rw [htakes, hinput], ?_⟩
    have hslots : slotsAfter a line ptr = idx'.elim a fun idx => Function.update a idx ptr := by
      rw [← hputs]
      rfl
    rw [hslots]
    exact h₂.hold a _ final _ ptr hold₁

/-! ## All ops -/

/-- The pointers in the global map. -/
def preloaded (g : GlobalIdMap) (id : Nat) : Option Nat :=
  match g.lookup id with
  | some (.allocatedPtr ptr) => some ptr
  | _ => none

/-- An op takes `id` when no op before it has put it there. -/
def TakesPreloaded (tracefile : List TraceLine) (ops : List Op) (id : Nat) : Prop :=
  ∃ pre op post, ops = pre ++ op :: post ∧ (opFlow tracefile).takes op = some id ∧
    ¬ (opFlow tracefile).Live pre id

/-- The loop after `ops`. -/
structure Batched (tracefile : List TraceLine) (g : GlobalIdMap) (ops : List Op) (st : BatchState)
    (lines : List TraceLine) : Prop where
  inv : st.Inv
  next_le : st.idGen.next ≤ ops.length
  mem : ∀ id, id ∈ st.idToIdx ↔ (opFlow tracefile).Live ops id
  erased : ∀ id, TakesPreloaded tracefile ops id → st.globalIdMap.lookup id = none
  kept : ∀ id, ¬ TakesPreloaded tracefile ops id → st.globalIdMap.lookup id = g.lookup id
  renamed : List.Forall₂ (fun op line => ∃ i j, line = renameIds i j (op.line tracefile)) ops lines
  slots : ∀ line ∈ lines, ∀ i, idFlow.takes line = some i ∨ idFlow.puts line = some i →
    i < st.idGen.next
  hold : ∀ final results, results.length = ops.length →
    (∀ i, i < st.idGen.next → final i = st.idMap i) →
    (runSlots final (lines.zip results)).1 =
      (runIds tracefile (preloaded g) (ops.zip results)).1 ∧
    SlotsHold st (runSlots final (lines.zip results)).2
      (runIds tracefile (preloaded g) (ops.zip results)).2 final
      fun id => ∀ op ∈ ops, (opFlow tracefile).takes op ≠ some id

theorem addOps_append (ops : List Op) (op : Op) : ∀ st : BatchState,
    st.addOps tracefile (ops ++ [op]) = (st.addOps tracefile ops >>= fun r =>
      r.1.addOp op tracefile >>= fun r' => pure (r'.1, r.2 ++ [r'.2])) := by
  induction ops with
  | nil =>
    intro st
    simp only [List.nil_append, BatchState.addOps, pure_bind]
  | cons e ops ih =>
    intro st
    simp only [List.cons_append, BatchState.addOps, ih, bind_assoc, pure_bind]

theorem runIds_append (m : Nat → Option Nat) (ops : List (Op × Nat)) (op : Op) (ptr : Nat) :
    runIds tracefile m (ops ++ [(op, ptr)]) =
      ((runIds tracefile m ops).1 ++ [((opFlow tracefile).takes op).bind (runIds tracefile m ops).2],
        idsAfter tracefile (runIds tracefile m ops).2 op ptr) := by
  induction ops generalizing m with
  | nil => rfl
  | cons e ops ih =>
    obtain ⟨e, r⟩ := e
    simp only [List.cons_append, runIds, ih]

theorem runSlots_append (a : Nat → Nat) (lines : List (TraceLine × Nat)) (line : TraceLine)
    (ptr : Nat) : runSlots a (lines ++ [(line, ptr)]) =
      ((runSlots a lines).1 ++ [(idFlow.takes line).map (runSlots a lines).2],
        slotsAfter (runSlots a lines).2 line ptr) := by
  induction lines generalizing a with
  | nil => rfl
  | cons e lines ih =>
    obtain ⟨e, r⟩ := e
    simp only [List.cons_append, runSlots, ih]

theorem takesPreloaded_append : TakesPreloaded tracefile (ops ++ [op]) id ↔
    TakesPreloaded tracefile ops id ∨
      ((opFlow tracefile).takes op = some id ∧ ¬ (opFlow tracefile).Live ops id) := by
  constructor
  · rintro ⟨pre, e, post, heq, htakes, hlive⟩
    rcases List.eq_nil_or_concat post with rfl | ⟨post, e', rfl⟩
    · obtain ⟨rfl, ⟨⟩⟩ := List.append_inj' heq rfl
      exact .inr ⟨htakes, hlive⟩
    · have heq : ops ++ [op] = (pre ++ e :: post) ++ [e'] := by simpa using heq
      obtain ⟨rfl, -⟩ := List.append_inj' heq rfl
      exact .inl ⟨pre, e, post, rfl, htakes, hlive⟩
  · rintro (⟨pre, e, post, rfl, htakes, hlive⟩ | ⟨htakes, hlive⟩)
    · exact ⟨pre, e, post ++ [op], by simp, htakes, hlive⟩
    · exact ⟨ops, op, [], rfl, htakes, hlive⟩

/-- Before the loop. -/
theorem batched_nil (uninitialised : Nat → Nat) : Batched tracefile g []
    { idGen := .empty, idToIdx := ∅, idMap := uninitialised, globalIdMap := g } [] := by
  refine ⟨.empty, Nat.le_refl _, fun id => ?_, fun id => ?_, fun _ _ => rfl, .nil,
    by simp, fun final results _ _ => ⟨rfl, ?_, fun id ptr _ _ hptr => ?_, fun _ _ => rfl⟩⟩
  · exact iff_of_false (AList.notMem_empty id) Flow.not_live_nil
  · rintro ⟨pre, op, post, hc, -⟩
    simp at hc
  · intro id i hid
    simp at hid
  · show preloaded g id = some ptr
    unfold preloaded
    rw [show g.lookup id = some (.allocatedPtr ptr) from hptr]

theorem Batched.append (h : Batched tracefile g ops st lines) (hadd : OpAdded tracefile st op st' line)
    (honce : ∀ id, (opFlow tracefile).takes op = some id →
      ∀ e ∈ ops, (opFlow tracefile).takes e ≠ some id) :
    Batched tracefile g (ops ++ [op]) st' (lines ++ [line]) := by
  refine ⟨hadd.inv, ?_, fun id => ?_, fun id hid => ?_, fun id hid => ?_, ?_, ?_, ?_⟩
  · rw [List.length_append, List.length_singleton]
    exact hadd.next.2.trans (Nat.succ_le_succ h.next_le)
  · rw [hadd.mem, h.mem, Flow.live_append]
  · rw [hadd.globalIdMap]
    split_ifs with hc
    · rfl
    · rw [h.mem] at hc
      exact h.erased id ((takesPreloaded_append.mp hid).resolve_right hc)
  · rw [takesPreloaded_append, not_or, ← h.mem] at hid
    rw [hadd.globalIdMap, if_neg hid.2, h.kept id hid.1]
  · exact List.rel_append h.renamed (.cons hadd.renamed .nil)
  · intro line' hline' i hi
    rcases List.mem_append.mp hline' with hmem | hmem
    · exact Nat.lt_of_lt_of_le (h.slots line' hmem i hi) hadd.next.1
    · obtain rfl := List.mem_singleton.mp hmem
      exact hadd.slots i hi
  · intro final results hlen hfinal
    obtain ⟨results, ptr, rfl⟩ : ∃ rs ptr, results = rs ++ [ptr] := by
      rcases List.eq_nil_or_concat results with rfl | ⟨rs, ptr, rfl⟩
      · simp at hlen
      · exact ⟨rs, ptr, by simp⟩
    have hlen : results.length = ops.length := by simpa using hlen
    have hlines : lines.length = results.length := by rw [hlen, h.renamed.length_eq]
    obtain ⟨hinputs, hold⟩ := h.hold final results hlen fun i hi => by
      rw [hfinal i (Nat.lt_of_lt_of_le hi hadd.next.1), hadd.idMap i hi]
    obtain ⟨hinput, hold'⟩ := hadd.hold _ _ final _ ptr hfinal honce hold
    rw [List.zip_append hlines, List.zip_append hlen.symm, List.zip_cons_cons, List.zip_cons_cons,
      List.zip_nil_left, List.zip_nil_left, runSlots_append, runIds_append, hinputs, hinput]
    refine ⟨rfl, hold'.inSlot, fun id ptr' htodo => hold'.inMap id ptr' ⟨?_, ?_⟩, hold'.loaded⟩
    · exact fun e he => htodo e (List.mem_append_left _ he)
    · exact htodo op (by simp)

/-- The input of an op was put by an op before it, or is in the global map. -/
def InputThere (tracefile : List TraceLine) (g : GlobalIdMap) (pre : List Op) (op : Op) : Prop :=
  ∀ id, (opFlow tracefile).takes op = some id →
    (∃ e ∈ pre, (opFlow tracefile).puts e = some id) ∨
      ∃ ptr, g.lookup id = some (.allocatedPtr ptr)

/-- What an op puts and no op takes is there. -/
theorem live_of_put {F : Flow Op Nat} {e : Op} (he : e ∈ ops) (hputs : F.puts e = some id)
    (htakes : ∀ e ∈ ops, F.takes e ≠ some id) : F.Live ops id := by
  obtain ⟨p, hp⟩ := List.mem_iff_getElem?.mp he
  exact ⟨p, ⟨e, hp, hputs⟩, fun c e' _ he' => htakes e' (List.mem_of_getElem? he')⟩

theorem put_of_live {F : Flow Op Nat} (h : F.Live ops id) : ∃ e ∈ ops, F.puts e = some id := by
  obtain ⟨p, ⟨e, hp, hputs⟩, -⟩ := h
  exact ⟨e, List.mem_of_getElem? hp, hputs⟩

/-- The input of the next op is a result of the batch, or in the global map. -/
theorem Batched.input (h : Batched tracefile g ops st lines)
    (honce : ∀ id, (opFlow tracefile).takes op = some id →
      ∀ e ∈ ops, (opFlow tracefile).takes e ≠ some id)
    (hin : InputThere tracefile g ops op) (hid : (opFlow tracefile).takes op = some id) :
    id ∈ st.idToIdx ∨ ∃ ptr, st.globalIdMap.lookup id = some (.allocatedPtr ptr) ∧
      g.lookup id = some (.allocatedPtr ptr) := by
  rw [h.mem]
  rcases hin id hid with ⟨e, he, hpute⟩ | ⟨ptr, hptr⟩
  · exact .inl (live_of_put he hpute (honce id hid))
  · refine .inr ⟨ptr, ?_, hptr⟩
    rw [h.kept id, hptr]
    rintro ⟨pre, e, post, hops, htakee, -⟩
    exact honce id hid e (by rw [hops]; simp) htakee

/-- The loop goes on with an op that has its own ids, and whose input is there. -/
theorem Batched.addOp (h : Batched tracefile g ops st lines)
    (hputs : ∀ id, (opFlow tracefile).puts op = some id →
      ∀ e ∈ ops, (opFlow tracefile).puts e ≠ some id)
    (honce : ∀ id, (opFlow tracefile).takes op = some id →
      ∀ e ∈ ops, (opFlow tracefile).takes e ≠ some id)
    (hin : InputThere tracefile g ops op) :
    ∃ st' line, st.addOp op tracefile = .ok (st', line) ∧ OpAdded tracefile st op st' line ∧
      Batched tracefile g (ops ++ [op]) st' (lines ++ [line]) := by
  have hinput : ∀ id, (opFlow tracefile).takes op = some id → id ∈ st.idToIdx ∨
      ∃ ptr, st.globalIdMap.lookup id = some (.allocatedPtr ptr) := fun id hid =>
    (h.input honce hin hid).imp_right fun ⟨ptr, hptr, _⟩ => ⟨ptr, hptr⟩
  have hnew : ∀ id, (opFlow tracefile).puts op = some id → id ∈ st.idToIdx →
      (opFlow tracefile).takes op = some id := by
    intro id hid hmem
    obtain ⟨e, he, hpute⟩ := put_of_live ((h.mem id).mp hmem)
    exact absurd hpute (hputs id hid e he)
  obtain ⟨st', line, heq, hadd⟩ := addOp_spec h.inv hinput hnew
  exact ⟨st', line, heq, hadd, h.append hadd honce⟩

theorem addOps_spec (uninitialised : Nat → Nat) (ops : List Op)
    (hputs : ops.Pairwise fun e op => ∀ id, (opFlow tracefile).puts e = some id →
      (opFlow tracefile).puts op ≠ some id)
    (htakes : ops.Pairwise fun e op => ∀ id, (opFlow tracefile).takes e = some id →
      (opFlow tracefile).takes op ≠ some id)
    (hin : ∀ pre op post, ops = pre ++ op :: post → InputThere tracefile g pre op) :
    ∃ st lines, BatchState.addOps
        { idGen := .empty, idToIdx := ∅, idMap := uninitialised, globalIdMap := g } tracefile ops =
          .ok (st, lines) ∧ Batched tracefile g ops st lines := by
  induction ops using List.reverseRecOn with
  | nil => exact ⟨_, [], rfl, batched_nil uninitialised⟩
  | append_singleton ops op ih =>
    obtain ⟨hputs, -, hput⟩ := List.pairwise_append.mp hputs
    obtain ⟨htakes, -, htake⟩ := List.pairwise_append.mp htakes
    obtain ⟨st, lines, heq, h⟩ := ih hputs htakes fun pre e post hops =>
      hin pre e (post ++ [op]) (by rw [hops]; simp)
    obtain ⟨st', line, heq', -, h'⟩ := h.addOp
      (fun id hid e he hc => hput e he op (by simp) id hc hid)
      (fun id hid e he hc => htake e he op (by simp) id hc hid) (hin ops op [] rfl)
    refine ⟨st', lines ++ [line], ?_, h'⟩
    rw [addOps_append, heq]
    show (st.addOp op tracefile >>= fun r' => pure (r'.1, lines ++ [r'.2])) = _
    rw [heq']
    rfl

/-- **`MakeFromOps`** on ops with distinct results, whose inputs are there and taken once. The
array has `kBatchSize` slots, and a batch has at most as many ops. -/
theorem makeFromOps_spec (tracefile : List TraceLine) (ops : List Op) (g : GlobalIdMap)
    (uninitialised : Nat → Nat)
    (hputs : ops.Pairwise fun e op => ∀ id, (opFlow tracefile).puts e = some id →
      (opFlow tracefile).puts op ≠ some id)
    (htakes : ops.Pairwise fun e op => ∀ id, (opFlow tracefile).takes e = some id →
      (opFlow tracefile).takes op ≠ some id)
    (hin : ∀ pre op post, ops = pre ++ op :: post → InputThere tracefile g pre op) :
    ∃ context g', makeFromOps ops g tracefile uninitialised = .ok (context, g') ∧
      List.Forall₂ (fun op line => ∃ i j, line = renameIds i j (op.line tracefile)) ops context.ops ∧
      (∀ line ∈ context.ops, ∀ i, idFlow.takes line = some i ∨ idFlow.puts line = some i →
        i < ops.length) ∧
      (∀ results, results.length = ops.length →
        (runSlots context.idMap (context.ops.zip results)).1 =
          (runIds tracefile (preloaded g) (ops.zip results)).1 ∧
        ((context.allocationsToRecord
          (runSlots context.idMap (context.ops.zip results)).2).map Prod.fst).Nodup ∧
        ∀ id ptr, (id, ptr) ∈ context.allocationsToRecord
            (runSlots context.idMap (context.ops.zip results)).2 ↔
          (opFlow tracefile).Live ops id ∧
            (runIds tracefile (preloaded g) (ops.zip results)).2 id = some ptr) ∧
      (∀ id, TakesPreloaded tracefile ops id → g'.lookup id = none) ∧
      ∀ id, ¬ TakesPreloaded tracefile ops id → g'.lookup id = g.lookup id := by
  obtain ⟨st, lines, heq, h⟩ := addOps_spec uninitialised ops hputs htakes hin
  refine ⟨{ ops := lines, idToIdx := st.idToIdx, idMap := st.idMap }, st.globalIdMap, ?_, h.renamed,
    fun line hline i hi => Nat.lt_of_lt_of_le (h.slots line hline i hi) h.next_le,
    fun results hlen => ?_, h.erased, h.kept⟩
  · unfold makeFromOps
    rw [heq]
    rfl
  · obtain ⟨hinputs, hold⟩ := h.hold st.idMap results hlen fun _ _ => rfl
    refine ⟨hinputs, ?_, fun id ptr => ?_⟩
    · rw [BatchContext.allocationsToRecord, List.map_map]
      exact st.idToIdx.nodupKeys
    · rw [← h.mem, BatchContext.allocationsToRecord, List.mem_map]
      constructor
      · rintro ⟨⟨id', i⟩, hentry, heq⟩
        obtain ⟨rfl, rfl⟩ := Prod.mk.inj heq
        have hlookup := AList.mem_lookup_iff.mpr hentry
        exact ⟨mem_of_lookup hlookup, hold.inSlot _ _ hlookup⟩
      · rintro ⟨hmem, hptr⟩
        obtain ⟨i, hi⟩ := Option.isSome_iff_exists.mp (AList.lookup_isSome.mpr hmem)
        refine ⟨⟨id, i⟩, AList.mem_lookup_iff.mp hi, ?_⟩
        rw [hold.inSlot id i hi] at hptr
        exact Prod.ext rfl (Option.some_inj.mp hptr)

/-- A result that the next op takes, and a pointer from the global map. -/
theorem makeFromOps_spec_three :
    let tracefile : List TraceLine := [.malloc ⟨some 1, some 8, none⟩,
      .realloc ⟨some 2, some 1, some 16⟩, .free ⟨some 7, none, none⟩]
    let g : GlobalIdMap := AList.singleton 7 (.allocatedPtr 70)
    ∃ context g', makeFromOps [⟨0, 0⟩, ⟨1, 0⟩, ⟨2, 0⟩] g tracefile (fun _ => 0) = .ok (context, g') ∧
      ∀ line ∈ context.ops, ∀ i, idFlow.takes line = some i ∨ idFlow.puts line = some i → i < 3 := by
  intro tracefile g
  have hflow : ∀ i, (opFlow tracefile).takes ⟨i, 0⟩ = [none, some 1, some 7].getD i none ∧
      (opFlow tracefile).puts ⟨i, 0⟩ = [some 1, some 2, none].getD i none := by
    rintro (_ | _ | _ | i) <;> exact ⟨rfl, rfl⟩
  obtain ⟨context, g', heq, -, hslots, -⟩ := makeFromOps_spec tracefile [⟨0, 0⟩, ⟨1, 0⟩, ⟨2, 0⟩] g
    (fun _ => 0) (by simp [(hflow _).2]) (by simp [(hflow _).1]) (by
      rintro (_ | ⟨a, _ | ⟨b, _ | ⟨c, pre⟩⟩⟩) op post heq id hid
      · obtain ⟨rfl, -⟩ : ⟨0, 0⟩ = op ∧ _ := by simpa using heq
        simp [(hflow _).1] at hid
      · obtain ⟨rfl, rfl, -⟩ : ⟨0, 0⟩ = a ∧ ⟨1, 0⟩ = op ∧ _ := by simpa using heq
        obtain rfl : 1 = id := by simpa [(hflow _).1] using hid
        exact .inl ⟨⟨0, 0⟩, by simp, (hflow 0).2⟩
      · obtain ⟨-, -, rfl, -⟩ : ⟨0, 0⟩ = a ∧ ⟨1, 0⟩ = b ∧ ⟨2, 0⟩ = op ∧ _ := by simpa using heq
        obtain rfl : 7 = id := by simpa [(hflow _).1] using hid
        exact .inr ⟨70, by decide⟩
      · simp at heq)
  exact ⟨context, g', heq, hslots⟩

end MallocBench.Replay
