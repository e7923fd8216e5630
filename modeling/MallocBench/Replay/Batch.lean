import MallocBench.Replay.IdMaps

/-!
# A batch refers to the right pointers

The ops of a batch name slots of an array where the ops of the trace name ids. A result of the
batch is in its slot as long as its id is in `id_to_idx_`, and a pointer from the global map is in
a slot that nothing has been written to before it is used (`SlotsHold`). So the batch gives every
op the pointer that a map from ids to pointers gives it.
-/

namespace MallocBench.Replay

open Lib Trace Lib.IdPool

/-- Ops take the pointer of their input and put one to their result, by unique ids. -/
def opFlow (tracefile : List TraceLine) : Flow Op Nat where
  takes op := (op.uniqueIds tracefile).1
  puts op := (op.uniqueIds tracefile).2

section

variable {tracefile : List TraceLine} {st st' : BatchState} {op : Op} {ops : List Op}
  {id i x y ptr : Nat} {a final : Nat → Nat} {m : Nat → Option Nat}

/-! ## What it is for -/

/-- The map from ids to pointers after an op with the result `ptr`. -/
def idsAfter (tracefile : List TraceLine) (m : Nat → Option Nat) (op : Op) (ptr : Nat) :
    Nat → Option Nat := fun id =>
  if (opFlow tracefile).puts op = some id then some ptr
  else if (opFlow tracefile).takes op = some id then none
  else m id

/-- Running ops with the given results over a map from ids to pointers: the pointers that the ops
are given, and the map at the end. -/
def runIds (tracefile : List TraceLine) (m : Nat → Option Nat) :
    List (Op × Nat) → List (Option Nat) × (Nat → Option Nat)
  | [] => ([], m)
  | (op, ptr) :: ops =>
    let (inputs, m') := runIds tracefile (idsAfter tracefile m op ptr) ops
    (((opFlow tracefile).takes op).bind m :: inputs, m')

/-- The slots after a line with the result `ptr`. -/
def slotsAfter (a : Nat → Nat) (line : TraceLine) (ptr : Nat) : Nat → Nat :=
  (inputAndResultIds line).2.elim a fun idx => Function.update a idx ptr

/-- Running renamed lines with the given results over the slots. -/
def runSlots (a : Nat → Nat) : List (TraceLine × Nat) → List (Option Nat) × (Nat → Nat)
  | [] => ([], a)
  | (line, ptr) :: lines =>
    let (inputs, a') := runSlots (slotsAfter a line ptr) lines
    ((inputAndResultIds line).1.map a :: inputs, a')

/-! ## The invariant -/

/-- The slots below `next` are free or those of results that the batch has not released. -/
def BatchState.Inv (st : BatchState) : Prop := st.idGen.Numbers st.idToIdx

/-- The slots `a` hold the pointers of `m`, when `final` is what is loaded into the slots, and ids
that are not in `todo` are not asked for again. -/
structure SlotsHold (st : BatchState) (a : Nat → Nat) (m : Nat → Option Nat) (final : Nat → Nat)
    (todo : Nat → Prop) : Prop where
  inSlot : ∀ id i, st.idToIdx.lookup id = some i → m id = some (a i)
  inMap : ∀ id ptr, todo id → id ∉ st.idToIdx →
    st.globalIdMap.lookup id = some (.allocatedPtr ptr) → m id = some ptr
  loaded : ∀ i, st.idGen.next ≤ i → a i = final i

/-- What an input does: its slot `idx` holds its pointer, and is free from now on. -/
structure InputAdded (st : BatchState) (input idx : Option Nat) (st' : BatchState) : Prop where
  inv : st'.Inv
  idx_free : ∀ i, idx = some i → i ∈ st'.idGen.free
  next : st.idGen.next ≤ st'.idGen.next ∧ st'.idGen.next ≤ st.idGen.next + 1
  next_eq : input = none → st'.idGen.next = st.idGen.next
  isSome : idx.isSome = input.isSome
  mem : ∀ id, id ∈ st'.idToIdx ↔ id ∈ st.idToIdx ∧ input ≠ some id
  globalIdMap : ∀ id, st'.globalIdMap.lookup id =
    if input = some id ∧ id ∉ st.idToIdx then none else st.globalIdMap.lookup id
  idMap : ∀ i, i < st.idGen.next → st'.idMap i = st.idMap i
  hold : ∀ a m final todo, (∀ i, i < st'.idGen.next → final i = st'.idMap i) →
    (∀ id, input = some id → todo id) → SlotsHold st a m final todo →
    idx.map a = input.bind m ∧
      SlotsHold st' a (fun id => if input = some id then none else m id) final
        fun id => todo id ∧ input ≠ some id

/-- There is no input. -/
theorem inputAdded_none (h : st.Inv) : InputAdded st none none st := by
  refine ⟨h, by simp, ⟨Nat.le_refl _, Nat.le_succ _⟩, fun _ => rfl, rfl, by simp, by simp,
    fun _ _ => rfl, fun a m final todo _ _ hold => ⟨rfl, ?_⟩⟩
  simpa using hold

/-- The input is a result of the batch. -/
theorem inputAdded_local {idx : Nat} (h : st.Inv) (hlookup : st.idToIdx.lookup id = some idx) :
    InputAdded st (some id) (some idx) { st with
      idToIdx := st.idToIdx.erase id
      idGen := st.idGen.give idx } := by
  have hmem : id ∈ st.idToIdx := mem_of_lookup hlookup
  refine ⟨h.erase hlookup, by simp, ⟨Nat.le_refl _, Nat.le_succ _⟩, by simp, rfl, fun id' => ?_,
    fun id' => ?_, fun _ _ => rfl, fun a m final todo hfinal htodo hold =>
    ⟨(hold.inSlot id idx hlookup).symm, ?_, ?_, hold.loaded⟩⟩
  · simp [AList.mem_erase, and_comm, eq_comm]
  · rw [if_neg]
    rintro ⟨heq, hnot⟩
    exact hnot (Option.some_inj.mp heq ▸ hmem)
  · intro id' i hid'
    obtain ⟨hid', hne⟩ := lookup_erase_eq_some.mp hid'
    rw [if_neg fun hc => hne (Option.some_inj.mp hc).symm, hold.inSlot id' i hid']
  · rintro id' ptr ⟨htodo', hne⟩ hnot hglobal
    rw [if_neg hne]
    refine hold.inMap id' ptr htodo' (fun hc => hnot (AList.mem_erase.mpr ⟨?_, hc⟩)) hglobal
    exact fun heq => hne (congrArg some heq.symm)

/-- The pointer of the input comes from the global map, into a slot nothing has been written to. -/
theorem inputAdded_global (h : st.Inv) (hnot : id ∉ st.idToIdx)
    (hptr : st.globalIdMap.lookup id = some (.allocatedPtr ptr)) :
    InputAdded st (some id) (some st.idGen.fresh.1) { st with
      idGen := st.idGen.fresh.2.give st.idGen.fresh.1
      idMap := Function.update st.idMap st.idGen.fresh.1 ptr
      globalIdMap := st.globalIdMap.erase id } := by
  have hfresh := h.partition.fresh.give (.inr rfl)
  refine ⟨⟨hfresh.congr fun i => ?_, h.inj⟩, by simp, ⟨Nat.le_succ _, Nat.le_refl _⟩, by simp, rfl,
    fun id' => ?_, fun id' => ?_, fun i hi => Function.update_of_ne (Nat.ne_of_lt hi) _ _,
    fun a m final todo hfinal htodo hold => ⟨?_, ?_, ?_, fun i hi => hold.loaded i ?_⟩⟩
  · constructor
    · rintro hused
      exact ⟨.inl hused, Nat.ne_of_lt (h.partition.used_lt hused)⟩
    · rintro ⟨hused | heq, hne⟩
      · exact hused
      · exact absurd heq hne
  · refine ⟨fun hmem => ⟨hmem, ?_⟩, And.left⟩
    rintro ⟨⟩
    exact hnot hmem
  · by_cases hne : id = id'
    · subst hne
      rw [if_pos ⟨rfl, hnot⟩, AList.lookup_erase]
    · rw [if_neg fun hc => hne (Option.some_inj.mp hc.1), AList.lookup_erase_ne (Ne.symm hne)]
  · have hidx := hold.loaded st.idGen.next (Nat.le_refl _)
    have hload := hfinal st.idGen.next (Nat.lt_succ_self _)
    show some (a st.idGen.next) = m id
    rw [hold.inMap id ptr (htodo id rfl) hnot hptr, hidx, hload]
    show some (Function.update st.idMap st.idGen.next ptr st.idGen.next) = some ptr
    rw [Function.update_self]
  · intro id' i hid'
    have hne : some id ≠ some id' := by
      rintro ⟨⟩
      exact hnot (mem_of_lookup hid')
    rw [if_neg hne, hold.inSlot id' i hid']
  · rintro id' ptr' ⟨htodo', hne⟩ hnot' hglobal
    rw [AList.lookup_erase_ne fun heq => hne (congrArg some heq.symm)] at hglobal
    rw [if_neg hne]
    exact hold.inMap id' ptr' htodo' hnot' hglobal
  · exact Nat.le_of_succ_le hi

/-- **The input of an op** is a result of the batch or in the global map. -/
theorem addInput_spec (h : st.Inv) (line : TraceLine) {input : Option Nat}
    (hin : ∀ id, input = some id → id ∈ st.idToIdx ∨
      ∃ ptr, st.globalIdMap.lookup id = some (.allocatedPtr ptr)) :
    ∃ idx st', st.addInput line input = .ok (st', idx.elim line fun idx => setInputId idx line) ∧
      InputAdded st input idx st' := by
  cases input with
  | none => exact ⟨none, st, rfl, inputAdded_none h⟩
  | some id =>
    cases hlookup : st.idToIdx.lookup id with
    | some idx =>
      refine ⟨some idx, _, ?_, inputAdded_local h hlookup⟩
      simp only [BatchState.addInput, BatchState.inputIdx, hlookup]
      rfl
    | none =>
      have hnot : id ∉ st.idToIdx := AList.lookup_eq_none.mp hlookup
      obtain ⟨ptr, hptr⟩ := (hin id rfl).resolve_left hnot
      have hmem : id ∈ st.globalIdMap := mem_of_lookup hptr
      refine ⟨some st.idGen.fresh.1, _, ?_, inputAdded_global h hnot hptr⟩
      simp only [BatchState.addInput, BatchState.inputIdx, hlookup, lookupAllocation, hptr, addFree,
        if_pos hmem, pure_bind]
      rfl

/-- What a result does: the slot `idx` was not in use. -/
structure ResultAdded (st : BatchState) (result idx : Option Nat) (st' : BatchState) : Prop where
  inv : st'.Inv
  idx_lt : ∀ i, idx = some i → i < st'.idGen.next
  next : st.idGen.next ≤ st'.idGen.next ∧ st'.idGen.next ≤ st.idGen.next + 1
  next_eq : st.idGen.free.Nonempty → st'.idGen.next = st.idGen.next
  isSome : idx.isSome = result.isSome
  mem : ∀ id, id ∈ st'.idToIdx ↔ result = some id ∨ id ∈ st.idToIdx
  globalIdMap : st'.globalIdMap = st.globalIdMap
  idMap : st'.idMap = st.idMap
  hold : ∀ a m final todo ptr, SlotsHold st a m final todo →
    SlotsHold st' (idx.elim a fun idx => Function.update a idx ptr)
      (fun id => if result = some id then some ptr else m id) final todo

/-- There is no result. -/
theorem resultAdded_none (h : st.Inv) : ResultAdded st none none st := by
  refine ⟨h, by simp, ⟨Nat.le_refl _, Nat.le_succ _⟩, fun _ => rfl, rfl, by simp, rfl, rfl,
    fun a m final todo ptr hold => ?_⟩
  simpa using hold

/-- The result gets the smallest free slot. -/
theorem resultAdded_take (h : st.Inv) (hid : id ∉ st.idToIdx) :
    ResultAdded st (some id) (some st.idGen.take.1) { st with
      idGen := st.idGen.take.2
      idToIdx := st.idToIdx.insert id st.idGen.take.1 } := by
  obtain ⟨hunused, -, -⟩ := h.partition.take
  obtain ⟨hlt, hle, hle', hsame⟩ := h.partition.take_next
  have hinv := h.take hid
  generalize st.idGen.take.1 = idx at *
  generalize st.idGen.take.2 = idGen at *
  refine ⟨hinv, ?_, ⟨hle, hle'⟩, hsame, rfl, fun id' => ?_, rfl, rfl,
    fun a m final todo ptr hold => ⟨?_, ?_, fun i hi => ?_⟩⟩
  · rintro _ ⟨⟩
    exact hlt
  · rw [AList.mem_insert, Option.some_inj, eq_comm]
  · intro id' i hid'
    rcases lookup_insert_eq_some.mp hid' with ⟨rfl, rfl⟩ | ⟨hne, hlookup⟩
    · show _ = some (Function.update a i ptr i)
      rw [if_pos rfl, Function.update_self]
    · have hne' : i ≠ idx := by
        rintro rfl
        exact hunused ⟨id', hlookup⟩
      show _ = some (Function.update a idx ptr i)
      rw [if_neg fun hc => hne (Option.some_inj.mp hc).symm, Function.update_of_ne hne',
        hold.inSlot id' i hlookup]
  · intro id' ptr' htodo hnot hglobal
    have hne : id' ≠ id := fun hc => hnot ((AList.mem_insert _).mpr (.inl hc))
    rw [if_neg fun hc => hne (Option.some_inj.mp hc).symm]
    exact hold.inMap id' ptr' htodo (fun hc => hnot ((AList.mem_insert _).mpr (.inr hc))) hglobal
  · have hi : idGen.next ≤ i := hi
    show Function.update a idx ptr i = final i
    rw [Function.update_of_ne (by omega)]
    exact hold.loaded i (by omega)

/-- **The result of an op** is not in use. -/
theorem addResult_spec (h : st.Inv) (line : TraceLine) {result : Option Nat}
    (hnew : ∀ id, result = some id → id ∉ st.idToIdx) :
    ∃ idx st', st.addResult line result = .ok (st', idx.elim line fun idx => setResultId idx line) ∧
      ResultAdded st result idx st' := by
  cases result with
  | none => exact ⟨none, st, rfl, resultAdded_none h⟩
  | some id =>
    refine ⟨some st.idGen.take.1, _, ?_, resultAdded_take h (hnew id rfl)⟩
    exact if_neg (hnew id rfl)

end

end MallocBench.Replay
