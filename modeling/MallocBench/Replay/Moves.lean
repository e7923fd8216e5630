import MallocBench.Replay.WorkerSteps

/-!
# Where the ops and the ids go

Every step of a worker keeps every op and every id at one place (`WorkerStep.moved`): it claims ops,
takes them from the map, moves a pointer to a slot or back, performs an op, or fails and loses what
it has.
-/

namespace MallocBench.Replay

open Lib Trace

section

variable {ex : Executor} {m m' : Shared} {pc pc' : WorkerPc} {op : Op} {id : Nat} {g : Ghost}

/-- A step that claims nothing and loses nothing. -/
theorem Moved.stay (hidx : m.idx = g.claimed % 2 ^ 64) (hidx' : m'.idx = m.idx)
    (hclamping : pc.clamping = 0) (hspent : pc'.Spent → ex.numOps ≤ g.claimed)
    (hleaving : pc'.Leaving → m'.done ∨ ex.numOps ≤ g.claimed) (hdone : m.done → m'.done)
    (hgone : pc'.role ≠ .gone → pc.role ≠ .gone)
    (hops : m'.performedOps + m'.queuedOps + pendingOps m'.idMap + pc'.held ex =
      m.performedOps + m.queuedOps + pendingOps m.idMap + pc.held ex)
    (hids : ptrIds m'.idMap + pc'.toRecord + opTakes ex (m'.performedOps + pc'.made) +
        opPuts ex (m.performedOps + pc.made) =
      ptrIds m.idMap + pc.toRecord + opTakes ex (m.performedOps + pc.made) +
        opPuts ex (m'.performedOps + pc'.made)) : Moved ex pc m g pc' m' g where
  idx := hidx'.trans hidx
  claimed := .inl (by rw [hclamping]; omega)
  mono := Nat.le_refl _
  spent := hspent
  leaving := hleaving
  done := hdone
  lost hpc' := ⟨hgone hpc', rfl, rfl, rfl⟩
  ops := by rw [hops]
  ids := by
    ext id
    have hcount := congrArg (Multiset.count id) hids
    simp only [opTakes_add, opPuts_add, Multiset.count_add] at hcount ⊢
    omega

theorem count_keys (ids : AList fun _ : Nat => Nat) (id : Nat) :
    Multiset.count id (ids.keys : Multiset Nat) = if id ∈ ids then 1 else 0 :=
  (Multiset.count_eq_of_nodup (Multiset.coe_nodup.mpr ids.keys_nodup)).trans
    (if_congr Iff.rfl rfl rfl)

theorem count_filterMap_singleton {f : Op → Option Nat} (op : Op) (id : Nat) :
    (Multiset.filterMap f {op}).count id = if f op = some id then 1 else 0 := by
  cases hf : f op with
  | none =>
    rw [← Multiset.cons_zero, Multiset.filterMap_cons_none _ _ hf]
    simp
  | some id' =>
    rw [← Multiset.cons_zero, Multiset.filterMap_cons_some _ _ _ hf, Multiset.filterMap_zero,
      Multiset.cons_zero, Multiset.count_singleton]
    exact if_congr (by rw [Option.some_inj, eq_comm]) rfl rfl

theorem opTakes_singleton (hid : (opFlow ex.tracefile).takes op = some id) :
    opTakes ex {op} = {id} := by
  rw [opTakes, ← Multiset.cons_zero, Multiset.filterMap_cons_some _ _ _ hid, Multiset.filterMap_zero,
    Multiset.cons_zero]

/-- The ids that are to be recorded after an op whose input is one of them. -/
theorem OpAdded.count_keys_local {st st' : BatchState} {line : TraceLine}
    (hadd : OpAdded ex.tracefile st op st' line)
    (hin : ∀ id, (opFlow ex.tracefile).takes op = some id → id ∈ st.idToIdx)
    (hnew : ∀ id, (opFlow ex.tracefile).puts op = some id → id ∉ st.idToIdx) (id : Nat) :
    Multiset.count id (st'.idToIdx.keys : Multiset Nat) + (opTakes ex {op}).count id =
      Multiset.count id (st.idToIdx.keys : Multiset Nat) + (opPuts ex {op}).count id := by
  have hmem := hadd.mem id
  have hin := hin id
  have hnew := hnew id
  rw [count_keys, count_keys, opTakes, opPuts, count_filterMap_singleton, count_filterMap_singleton]
  by_cases hputs : (opFlow ex.tracefile).puts op = some id <;>
    by_cases htakes : (opFlow ex.tracefile).takes op = some id <;>
    by_cases hold : id ∈ st.idToIdx <;> simp_all

/-- The ids that are to be recorded after an op whose input is not one of them. -/
theorem OpAdded.count_keys_load {st st' : BatchState} {line : TraceLine}
    (hadd : OpAdded ex.tracefile st op st' line)
    (hnot : ∀ id, (opFlow ex.tracefile).takes op = some id → id ∉ st.idToIdx)
    (hnew : ∀ id, (opFlow ex.tracefile).puts op = some id → id ∉ st.idToIdx) (id : Nat) :
    Multiset.count id (st'.idToIdx.keys : Multiset Nat) =
      Multiset.count id (st.idToIdx.keys : Multiset Nat) + (opPuts ex {op}).count id := by
  have hmem := hadd.mem id
  have hnot := hnot id
  have hnew := hnew id
  rw [count_keys, count_keys, opPuts, count_filterMap_singleton]
  by_cases hputs : (opFlow ex.tracefile).puts op = some id <;>
    by_cases htakes : (opFlow ex.tracefile).takes op = some id <;>
    by_cases hold : id ∈ st.idToIdx <;> simp_all

/-- What is to be recorded is not what the next op puts. -/
theorem MakeInv.puts_new {mk : Making} {γ₀ γ : GlobalIdMap} {todo : List Op} (ht : ex.Traced)
    (h : MakeInv ex m mk γ₀ γ) (htodo : mk.todo = op :: todo) (hisOp : ∀ op ∈ mk.ops, ex.IsOp op)
    (hnodup : mk.ops.Nodup) (hid : (opFlow ex.tracefile).puts op = some id) : id ∉ mk.idToIdx := by
  intro hmem
  obtain ⟨e, he, hputs⟩ := put_of_live ((h.batched.mem id).mp hmem)
  exact (Making.own ht htodo hisOp hnodup).1 e he id hid hputs

variable {mk : Making} {todo : List Op} {line : TraceLine} {st : BatchState}

theorem made_next (st : BatchState) : WorkerPc.made (.make (mk.next st op line todo)) =
    WorkerPc.made (.make mk) + {op} := by
  show ((List.map Prod.fst (mk.made ++ [(op, line)]) : List Op) : Multiset Op) = _
  rw [List.map_append, ← Multiset.coe_add]
  rfl

theorem held_next (st : BatchState) (htodo : mk.todo = op :: todo) :
    WorkerPc.held ex (.make (mk.next st op line todo)) = WorkerPc.held ex (.make mk) := by
  show (((mk.next st op line todo).ops : List Op) : Multiset Op) = (mk.ops : List Op)
  rw [ops_next st line htodo]

theorem spent_next {st : BatchState} : ¬ (WorkerPc.make (mk.next st op line todo)).Spent := by
  show ¬ (mk.next st op line todo).ops = []
  simp [Making.ops, Making.next]

theorem performedOps_append (e : Performed) :
    Shared.performedOps { m with performed := m.performed ++ [e] } = m.performedOps + {e.op} := by
  show ((List.map Performed.op (m.performed ++ [e]) : List Op) : Multiset Op) = _
  rw [List.map_append, ← Multiset.coe_add]
  rfl

/-- A range of ops that has been claimed. -/
theorem range_cases (t : Taking) (first : Nat) (hlt : first + t.remaining < 2 ^ 64)
    (hremaining : t.remaining ≠ 0) (hfirst : first ≤ ex.numOps) :
    (WorkerPc.range ex t first = .prepared t.ops ∧ first = ex.numOps) ∨
      (WorkerPc.range ex t first = .scan t first (min (first + t.remaining) ex.numOps) ∧
        first < ex.numOps) := by
  unfold WorkerPc.range
  rw [Nat.mod_eq_of_lt hlt]
  dsimp only
  split_ifs with h
  · exact .inl ⟨rfl, by omega⟩
  · exact .inr ⟨rfl, by omega⟩

theorem remaining_le (t : Taking) : t.remaining ≤ kBatchSize := by
  unfold Taking.remaining
  omega

/-- There are no ops after the last one. -/
theorem range_numOps (t : Taking) (hlt : ex.numOps + kBatchSize < 2 ^ 64) :
    WorkerPc.range ex t ex.numOps = .prepared t.ops := by
  have hbatch := remaining_le t
  rw [WorkerPc.range, Nat.mod_eq_of_lt (by omega)]
  exact if_pos (by omega)

/-- A step that claims ops, or says that there are none. -/
theorem Moved.claim {t : Taking} {claimed : Nat} (hheld : pc.held ex = t.ops) (hmade : pc.made = 0)
    (hrecord : pc.toRecord = 0) (hrole : pc.role = .running) (hmade' : pc'.made = 0)
    (hrecord' : pc'.toRecord = 0) (hleaving : ¬ pc'.Leaving) {idx : Nat}
    (hidx : idx = claimed % 2 ^ 64)
    (hclaimed : claimed + kBatchSize * pc.clamping ≤ g.claimed + kBatchSize * pc'.clamping ∨
      claimed < ex.numOps + kBatchSize) (hmono : ex.numOps - claimed ≤ ex.numOps - g.claimed)
    (hspent : pc'.Spent → ex.numOps ≤ claimed)
    (hops : pc'.held ex + ex.opsFrom claimed ex.numOps = t.ops + ex.opsFrom g.claimed ex.numOps) :
    Moved ex pc m g pc' { m with idx := idx } { g with claimed := claimed } where
  idx := hidx
  claimed := hclaimed
  mono := hmono
  spent := hspent
  leaving hpc' := absurd hpc' hleaving
  done := id
  lost _ := ⟨by rw [hrole]; simp, rfl, rfl, rfl⟩
  ops := by
    rw [hheld]
    ext op
    have hcount := congrArg (Multiset.count op) hops
    simp only [Multiset.count_add] at hcount ⊢
    show m.performedOps.count op + _ + (pendingOps m.idMap).count op + _ + _ + _ + _ = _
    omega
  ids := by
    rw [hmade, hrecord, hmade', hrecord']
    rfl

/-- Ops are claimed. -/
theorem moved_fetchAdd (t : Taking) (hidx : m.idx = g.claimed % 2 ^ 64) (hlt : g.claimed < 2 ^ 64)
    (hbound : ex.numOps + kBatchSize < 2 ^ 64) (hremaining : t.remaining ≠ 0) :
    Moved ex (.claim t) m g (if ex.numOps ≤ m.idx then .clamp t else .range ex t m.idx)
      { m with idx := (m.idx + t.remaining) % 2 ^ 64 }
      { g with claimed := g.claimed + t.remaining } := by
  have hbatch := remaining_le t
  have hclaimed : m.idx = g.claimed := hidx.trans (Nat.mod_eq_of_lt hlt)
  rw [hclaimed]
  by_cases hle : ex.numOps ≤ g.claimed
  · rw [if_pos hle]
    refine .claim rfl rfl rfl rfl rfl rfl id rfl (.inl ?_) (by omega) (fun _ => by omega) ?_
    · show g.claimed + t.remaining + kBatchSize * 0 ≤ g.claimed + kBatchSize * 1
      omega
    · rw [Executor.opsFrom_nil hle, Executor.opsFrom_nil (by omega)]
      rfl
  · rw [if_neg hle]
    obtain ⟨-, hfirst⟩ | ⟨hrange, hfirst⟩ : _ ∨ _ :=
      range_cases t g.claimed (by omega) hremaining (show g.claimed ≤ ex.numOps by omega)
    · omega
    · rw [hrange]
      refine .claim rfl rfl rfl rfl rfl rfl id rfl (.inr (by omega)) (by omega) False.elim ?_
      have hrest : ex.opsFrom (g.claimed + t.remaining) ex.numOps =
          ex.opsFrom (min (g.claimed + t.remaining) ex.numOps) ex.numOps := by
        rcases Nat.le_total (g.claimed + t.remaining) ex.numOps with hend | hend
        · rw [Nat.min_eq_left hend]
        · rw [Nat.min_eq_right hend, Executor.opsFrom_nil hend, Executor.opsFrom_nil (Nat.le_refl _)]
      rw [hrest, ← Executor.opsFrom_append (i := g.claimed)
        (k := min (g.claimed + t.remaining) ex.numOps) (by omega) (Nat.min_le_right _ _)]
      show ((t.ops ++ _ : List Op) : Multiset Op) + _ = _
      rw [← Multiset.coe_add, ← Multiset.coe_add, add_assoc]

/-- There are no more ops. -/
theorem moved_clamp (t : Taking) (hspent : ex.numOps ≤ g.claimed)
    (hbound : ex.numOps + kBatchSize < 2 ^ 64) :
    Moved ex (.clamp t) m g (.range ex t ex.numOps) { m with idx := ex.numOps }
      { g with claimed := ex.numOps } := by
  have hmod : ex.numOps = ex.numOps % 2 ^ 64 := (Nat.mod_eq_of_lt (by omega)).symm
  have hpos : 0 < kBatchSize := by decide
  rw [range_numOps t hbound]
  refine .claim rfl rfl rfl rfl rfl rfl id hmod (.inr (by omega)) (by omega)
    (fun _ => Nat.le_refl _) ?_
  rw [Executor.opsFrom_nil hspent, Executor.opsFrom_nil (Nat.le_refl _)]
  rfl

/-- An op of a batch becomes a line. -/
theorem Moved.make (hpc : pc = .make mk ∨ ∃ id ptr, pc = .load mk id ptr)
    (htodo : mk.todo = op :: todo) (hidx : m.idx = g.claimed % 2 ^ 64) {idMap : GlobalIdMap}
    (hpending : pendingOps idMap = pendingOps m.idMap)
    (hkeys : ∀ id, (ptrIds idMap).count id + Multiset.count id (st.idToIdx.keys : Multiset Nat) +
        (opTakes ex {op}).count id = (ptrIds m.idMap).count id +
          Multiset.count id (mk.idToIdx.keys : Multiset Nat) + (opPuts ex {op}).count id) :
    Moved ex pc m g (.make (mk.next st op line todo)) { m with idMap := idMap } g := by
  have hheld : pc.held ex = WorkerPc.held ex (.make mk) := by
    obtain rfl | ⟨id, ptr, rfl⟩ := hpc <;> rfl
  have hmade : pc.made = WorkerPc.made (.make mk) := by
    obtain rfl | ⟨id, ptr, rfl⟩ := hpc <;> rfl
  have hrecord : pc.toRecord = mk.idToIdx.keys := by
    obtain rfl | ⟨id, ptr, rfl⟩ := hpc <;> rfl
  refine .stay hidx rfl ?_ (fun h => absurd h spent_next) False.elim id (fun _ => ?_) ?_ ?_
  · obtain rfl | ⟨id, ptr, rfl⟩ := hpc <;> rfl
  · obtain rfl | ⟨id, ptr, rfl⟩ := hpc <;> exact Role.running_ne_gone
  · rw [held_next _ htodo, hheld]
    show _ + pendingOps idMap + _ = _
    rw [hpending]
    rfl
  · rw [made_next, hmade, hrecord]
    ext id
    have hcount := hkeys id
    simp only [opTakes_add, opPuts_add, Multiset.count_add]
    show (ptrIds idMap).count id + Multiset.count id (st.idToIdx.keys : Multiset Nat) +
      (Multiset.count id (opTakes ex m.performedOps) + _) + _ =
        _ + (Multiset.count id (opPuts ex m.performedOps) + _)
    omega

/-- An op is performed. -/
theorem moved_perform {b : Batch} {rest : List (Op × TraceLine)} (htodo : b.todo = (op, line) :: rest)
    (hidx : m.idx = g.claimed % 2 ^ 64) (slots : Nat → Nat) (input : Option Nat) (result : Nat) :
    Moved ex (.process b) m g (.process { b with todo := rest, idMap := slots })
      { m with performed := m.performed ++ [⟨op, input, result⟩] } g := by
  have hops : (b.ops : Multiset Op) = {op} + (rest.map Prod.fst : List Op) := by
    rw [Batch.ops, htodo, List.map_cons, ← Multiset.cons_coe, ← Multiset.singleton_add]
  have hmade : Shared.performedOps { m with performed := m.performed ++ [⟨op, input, result⟩] } +
      ((rest.map Prod.fst : List Op) : Multiset Op) = m.performedOps + (b.ops : Multiset Op) := by
    rw [performedOps_append, hops, add_assoc]
  refine .stay hidx rfl rfl False.elim False.elim id (fun _ => Role.running_ne_gone) ?_ ?_
  · show _ + (m.queuedOps : Multiset Op) + pendingOps m.idMap +
      ((rest.map Prod.fst : List Op) : Multiset Op) =
        m.performedOps + (m.queuedOps : Multiset Op) + pendingOps m.idMap + (b.ops : Multiset Op)
    rw [add_right_comm _ (pendingOps m.idMap), add_right_comm _ (m.queuedOps : Multiset Op), hmade]
    abel
  · show ptrIds m.idMap + (b.idToIdx.keys : Multiset Nat) +
        opTakes ex (_ + ((rest.map Prod.fst : List Op) : Multiset Op)) + _ =
      _ + _ + _ + opPuts ex (_ + ((rest.map Prod.fst : List Op) : Multiset Op))
    rw [hmade]
    rfl

/-- The pointer of an op takes the place of the op that waits for it. -/
theorem moved_assign {ptr : Nat} {records : List (Nat × Nat)}
    (hidx : m.idx = g.claimed % 2 ^ 64) (hpending : m.idMap.lookup id = some (.idx op)) :
    Moved ex (.assign id ptr op records) m g (.push op records)
      { m with idMap := m.idMap.insert id (.allocatedPtr ptr) } g := by
  have hops : pendingOps m.idMap = {op} + pendingOps (m.idMap.erase id) := mapSum_erase hpending
  have hptrs : ptrIds m.idMap = 0 + ptrIds (m.idMap.erase id) := mapSum_erase hpending
  have hops' : pendingOps (m.idMap.insert id (.allocatedPtr ptr)) =
      0 + pendingOps (m.idMap.erase id) := mapSum_insert
  have hptrs' : ptrIds (m.idMap.insert id (.allocatedPtr ptr)) =
      {id} + ptrIds (m.idMap.erase id) := mapSum_insert
  refine .stay hidx rfl rfl False.elim False.elim (fun h => h) (fun _ => Role.running_ne_gone) ?_ ?_
  · show m.performedOps + (m.queuedOps : Multiset Op) +
      pendingOps (m.idMap.insert id (.allocatedPtr ptr)) + {op} = _ + _ + pendingOps m.idMap + 0
    rw [hops, hops']
    abel
  · show ptrIds (m.idMap.insert id (.allocatedPtr ptr)) +
        ((records.map Prod.fst : List Nat) : Multiset Nat) + _ + _ =
      ptrIds m.idMap + ((id :: records.map Prod.fst : List Nat) : Multiset Nat) + _ + _
    rw [hptrs, hptrs', ← Multiset.cons_coe, ← Multiset.singleton_add]
    abel

/-- A pointer is recorded. -/
theorem moved_insert {ptr : Nat} {records : List (Nat × Nat)}
    (hidx : m.idx = g.claimed % 2 ^ 64) (hnot : id ∉ m.idMap) :
    Moved ex (.flush ((id, ptr) :: records)) m g (.flush records)
      { m with idMap := m.idMap.insert id (.allocatedPtr ptr) } g := by
  have hops : pendingOps (m.idMap.insert id (.allocatedPtr ptr)) = 0 + pendingOps m.idMap :=
    mapSum_insert_new hnot
  have hptrs : ptrIds (m.idMap.insert id (.allocatedPtr ptr)) = {id} + ptrIds m.idMap :=
    mapSum_insert_new hnot
  refine .stay hidx rfl rfl False.elim False.elim (fun h => h) (fun _ => Role.running_ne_gone) ?_ ?_
  · show m.performedOps + (m.queuedOps : Multiset Op) +
      pendingOps (m.idMap.insert id (.allocatedPtr ptr)) + 0 = _ + _ + pendingOps m.idMap + 0
    rw [hops, zero_add]
  · show ptrIds (m.idMap.insert id (.allocatedPtr ptr)) +
        ((records.map Prod.fst : List Nat) : Multiset Nat) + _ + _ =
      ptrIds m.idMap + ((id :: records.map Prod.fst : List Nat) : Multiset Nat) + _ + _
    rw [hptrs, ← Multiset.cons_coe, ← Multiset.singleton_add]
    abel

/-- The worker fails, and what it had is lost. -/
theorem moved_performError {b : Batch} (hidx : m.idx = g.claimed % 2 ^ 64) :
    Moved ex (.process b) m g (.failed .allocator false) m
      { g with lostMade := g.lostMade + b.ops, lostIds := g.lostIds + b.idToIdx.keys } where
  idx := hidx
  claimed := .inl (Nat.le_refl _)
  mono := Nat.le_refl _
  spent := False.elim
  leaving := False.elim
  done := id
  lost h := absurd rfl h
  ops := by
    show _ + (0 : Multiset Op) + (g.lostMade + (b.ops : Multiset Op)) + _ + _ =
      _ + (b.ops : Multiset Op) + g.lostMade + _ + _
    abel
  ids := by
    show _ + (0 : Multiset Nat) + (g.lostIds + (b.idToIdx.keys : Multiset Nat)) +
        opTakes ex (m.performedOps + 0 + (g.lostMade + (b.ops : Multiset Op))) +
        opPuts ex (m.performedOps + (b.ops : Multiset Op) + g.lostMade) =
      _ + (b.idToIdx.keys : Multiset Nat) + g.lostIds +
        opTakes ex (m.performedOps + (b.ops : Multiset Op) + g.lostMade) +
        opPuts ex (m.performedOps + 0 + (g.lostMade + (b.ops : Multiset Op)))
    simp only [opTakes_add, opPuts_add, opTakes_zero, opPuts_zero]
    abel

/-- **Where the ops and the ids go** in a step. -/
theorem WorkerStep.moved (h : WorkerStep ex pc m pc' m') (ht : ex.Traced)
    (hlocal : pc.Local ex m) (hshared : SharedInv ex m) (howned : Owned ex pc m)
    (hbound : ex.numOps + kBatchSize < 2 ^ 64) (hidx : m.idx = g.claimed % 2 ^ 64)
    (hlt : pc.clamping = 0 → g.claimed < 2 ^ 64) (hspent : pc.Spent → ex.numOps ≤ g.claimed)
    (hleaving : pc.Leaving → m.done ∨ ex.numOps ≤ g.claimed) : ∃ g', Moved ex pc m g pc' m' g' := by
  have hnext := h.local_next ht hlocal hshared howned
  cases h with
  | stop _ hdone =>
    exact ⟨g, .stay hidx rfl rfl False.elim (fun _ => .inl hdone) id (fun _ => Role.running_ne_gone) rfl rfl⟩
  | takeFromQueue =>
    refine ⟨g, .stay hidx rfl rfl False.elim False.elim id (fun _ => Role.running_ne_gone) ?_ rfl⟩
    have hsplit : (m.queuedOps : Multiset Op) =
        m.queuedOps.take kMaxQueuedOpsTaken + m.queuedOps.drop kMaxQueuedOpsTaken := by
      rw [Multiset.coe_add, List.take_append_drop]
    show m.performedOps + (m.queuedOps.drop kMaxQueuedOpsTaken : Multiset Op) + pendingOps m.idMap +
      (m.queuedOps.take kMaxQueuedOpsTaken ++ [] : List Op) =
        m.performedOps + (m.queuedOps : Multiset Op) + pendingOps m.idMap + 0
    rw [List.append_nil, hsplit]
    abel
  | enough t _ hremaining =>
    have hne : t.ops ≠ [] := by
      intro hnil
      obtain ⟨hqueued, htrace⟩ := List.append_eq_nil_iff.mp hnil
      unfold Taking.remaining at hremaining
      rw [hqueued, htrace] at hremaining
      exact absurd hremaining (by decide)
    exact ⟨g, .stay hidx rfl rfl (fun h => absurd h hne) False.elim id (fun _ => Role.running_ne_gone) rfl rfl⟩
  | fetchAdd t _ hremaining => exact ⟨_, moved_fetchAdd t hidx (hlt rfl) hbound hremaining⟩
  | clamp t => exact ⟨_, moved_clamp t (hspent trivial) hbound⟩
  | scan t i endIdx _ hi hcan =>
    have hheld : WorkerPc.held ex (.scan t i endIdx) =
        (t.ops : Multiset Op) + {ex.op i} + ex.opsFrom (i + 1) endIdx := by
      show ((t.ops ++ ex.opsFrom i endIdx : List Op) : Multiset Op) = _
      rw [Executor.opsFrom_cons hi, ← Multiset.coe_add, ← Multiset.cons_coe, ← Multiset.singleton_add,
        add_assoc]
    refine ⟨g, .stay hidx rfl rfl False.elim False.elim id (fun _ => Role.running_ne_gone) ?_ ?_⟩
    · rw [hheld]
      rcases canDoOpOrQueue_cases hcan with ⟨rfl, rfl, -⟩ | ⟨rfl, rfl, id, -, -, hnot, rfl⟩
      · show m.performedOps + (m.queuedOps : Multiset Op) + pendingOps m.idMap +
          ((t.queuedOps ++ (t.traceOps ++ [ex.op i]) ++ ex.opsFrom (i + 1) endIdx : List Op) :
            Multiset Op) = m.performedOps + (m.queuedOps : Multiset Op) + pendingOps m.idMap + _
        rw [← List.append_assoc, ← Multiset.coe_add, ← Multiset.coe_add]
        rfl
      · show m.performedOps + (m.queuedOps : Multiset Op) + pendingOps (m.idMap.insert id _) +
          ((t.ops ++ ex.opsFrom (i + 1) endIdx : List Op) : Multiset Op) = _
        rw [pendingOps, mapSum_insert_new hnot, ← Multiset.coe_add]
        show m.performedOps + (m.queuedOps : Multiset Op) + ({ex.op i} + pendingOps m.idMap) + _ = _
        abel
    · rcases canDoOpOrQueue_cases hcan with ⟨rfl, rfl, -⟩ | ⟨rfl, rfl, id, -, -, hnot, rfl⟩
      · rfl
      · show ptrIds (m.idMap.insert id _) + _ + _ + _ = ptrIds m.idMap + _ + _ + _
        rw [ptrIds, mapSum_insert_new hnot]
        show 0 + ptrIds m.idMap + _ + _ + _ = _
        rw [zero_add]
        rfl
  | scanned t i endIdx _ hi =>
    refine ⟨g, .stay hidx rfl rfl False.elim False.elim id (fun _ => Role.running_ne_gone) ?_ rfl⟩
    show _ + (t.ops : Multiset Op) = _ + ((t.ops ++ ex.opsFrom i endIdx : List Op) : Multiset Op)
    rw [Executor.opsFrom_nil (Nat.le_of_not_lt hi), List.append_nil]
  | start ops _ uninitialised =>
    exact ⟨g, .stay hidx rfl rfl (fun h => hspent h) False.elim id (fun _ => Role.running_ne_gone) rfl rfl⟩
  | lookup mk _ htodo hid hnot hptr =>
    exact ⟨g, .stay hidx rfl rfl (fun h => hspent h) False.elim id (fun _ => Role.running_ne_gone) rfl rfl⟩
  | empty mk _ htodo hmade =>
    obtain ⟨g₀, γ, hinv⟩ := hlocal
    have hnil : mk.ops = [] := by rw [Making.ops, htodo, hmade]; rfl
    have hkeys : mk.idToIdx.keys = [] := by
      refine List.eq_nil_iff_forall_not_mem.mpr fun id hid => ?_
      obtain ⟨op, hop, -⟩ := put_of_live ((hinv.batched.mem id).mp (AList.mem_keys.mp hid))
      rw [hmade] at hop
      exact absurd hop List.not_mem_nil
    refine ⟨g, .stay hidx rfl rfl False.elim (fun _ => .inr (hspent hnil)) id (fun _ => Role.running_ne_gone) ?_ ?_⟩
    · show _ + (0 : Multiset Op) = _ + (mk.ops : Multiset Op)
      rw [hnil]
      rfl
    · show _ + (0 : Multiset Nat) + opTakes ex (m.performedOps + 0) +
        opPuts ex (m.performedOps + (mk.made.map Prod.fst : List Op)) = _ + (mk.idToIdx.keys : Multiset Nat) +
        opTakes ex (m.performedOps + (mk.made.map Prod.fst : List Op)) + opPuts ex (m.performedOps + 0)
      rw [hmade, hkeys]
      rfl
  | makeLocal mk _ htodo hin hadd =>
    obtain ⟨γ₀, γ, hinv⟩ := hlocal
    obtain ⟨st, line, heq, hadded, -⟩ := hinv.addOp_local ht htodo howned.isOp howned.nodup hin
    obtain ⟨rfl, rfl⟩ := Prod.mk.inj (Except.ok.inj (heq.symm.trans hadd))
    refine ⟨g, .make (.inl rfl) htodo hidx rfl fun id => ?_⟩
    have hkeys := hadded.count_keys_local hin
      (fun id hid => hinv.puts_new ht htodo howned.isOp howned.nodup hid) id
    rw [add_assoc, hkeys, ← add_assoc]
    rfl
  | addFree mk id ptr _ htodo hfree hadd =>
    obtain ⟨⟨γ₀, γ, hinv⟩, hnot, hptr, op, todo, htodo', hid⟩ := hlocal
    obtain ⟨rfl, rfl⟩ := List.cons.inj (htodo.symm.trans htodo')
    obtain ⟨st, line, heq, hadded, -⟩ :=
      hinv.addOp_load ht htodo howned.isOp howned.nodup hid hnot hptr _
    obtain ⟨rfl, rfl⟩ := Prod.mk.inj (Except.ok.inj (heq.symm.trans hadd))
    refine ⟨g, .make (.inr ⟨id, ptr, rfl⟩) htodo hidx ?_ fun id' => ?_⟩
    · rw [addFree_ok hfree, pendingOps, pendingOps, mapSum_erase hptr]
      exact (zero_add _).symm
    · have hkeys := hadded.count_keys_load
        (fun id' hid' => Option.some_inj.mp (hid.symm.trans hid') ▸ hnot)
        (fun id hid => hinv.puts_new ht htodo howned.isOp howned.nodup hid) id'
      have hptrs : ptrIds m.idMap = {id} + ptrIds (m.idMap.erase id) := mapSum_erase hptr
      rw [addFree_ok hfree, hptrs, Multiset.count_add, opTakes_singleton hid]
      show _ + Multiset.count id' (st.idToIdx.keys : Multiset Nat) + _ =
        _ + Multiset.count id' ((mk.state γ).idToIdx.keys : Multiset Nat) + _
      omega
  | made mk _ htodo hmade =>
    refine ⟨g, .stay hidx rfl rfl False.elim False.elim id (fun _ => Role.running_ne_gone) ?_ rfl⟩
    show _ + ((mk.made.map Prod.fst : List Op) : Multiset Op) = _ + (mk.ops : Multiset Op)
    rw [Making.ops, htodo, List.append_nil]
  | resume b second token =>
    cases second <;>
      exact ⟨g, .stay hidx rfl rfl False.elim False.elim id (fun _ => Role.waiting_ne_gone) rfl rfl⟩
  | resumeNext =>
    exact ⟨g, .stay hidx rfl rfl False.elim False.elim id (fun _ => Role.waiting_ne_gone) rfl rfl⟩
  | perform b _ htodo result => exact ⟨g, moved_perform htodo hidx _ _ result⟩
  | performError b => exact ⟨_, moved_performError hidx⟩
  | @processed b _ records htodo hrecords =>
    refine ⟨g, .stay hidx rfl rfl False.elim False.elim id (fun _ => Role.running_ne_gone) ?_ ?_⟩
    · show _ + (0 : Multiset Op) = _ + (b.ops : Multiset Op)
      rw [Batch.ops, htodo]
      rfl
    · have hkeys : ((records.map Prod.fst : List Nat) : Multiset Nat) = b.idToIdx.keys := by
        rw [Multiset.coe_eq_coe.mpr (hrecords.map Prod.fst), Batch.allocationsToRecord, List.map_map]
        rfl
      have hmade : WorkerPc.made (.process b) = 0 := by
        show ((b.todo.map Prod.fst : List Op) : Multiset Op) = 0
        rw [htodo]
        rfl
      rw [hmade]
      show _ + ((records.map Prod.fst : List Nat) : Multiset Nat) + _ + _ = _
      rw [hkeys]
      rfl
  | insert id ptr records _ hnot => exact ⟨g, moved_insert hidx hnot⟩
  | assign id ptr op records => exact ⟨g, moved_assign hidx hlocal.2⟩
  | push op records =>
    refine ⟨g, .stay hidx rfl rfl False.elim False.elim id (fun _ => Role.running_ne_gone) ?_ rfl⟩
    show m.performedOps + ((m.queuedOps ++ [op] : List Op) : Multiset Op) + pendingOps m.idMap + 0 =
      m.performedOps + (m.queuedOps : Multiset Op) + pendingOps m.idMap + {op}
    rw [← Multiset.coe_add, Multiset.coe_singleton]
    abel
  | drop =>
    exact ⟨g, .stay hidx rfl rfl False.elim (fun _ => hleaving trivial) id
      (fun _ => Role.running_ne_gone) rfl rfl⟩
  | storeDone error =>
    exact ⟨g, .stay hidx rfl rfl False.elim False.elim (fun _ => rfl) (fun h => absurd rfl h) rfl rfl⟩
  | makeLocalError | lookupNone | addFreeError | addResultError | assignError => cases hnext
  | lookupPending mk _ htodo hid hnot hidx' =>
    exact ⟨g, .stay hidx rfl rfl (fun h => hspent h) False.elim id (fun _ => Role.running_ne_gone) rfl rfl⟩
  | _ => exact ⟨g, .stay hidx rfl rfl False.elim False.elim id (fun _ => Role.running_ne_gone) rfl rfl⟩

end

end MallocBench.Replay
