import MallocBench.Replay.Deadlock

/-!
# No op and no id is lost

Every op of a replay is at one place at a time: it has not been claimed yet, a worker has it, it
waits in the map or in the queue, or it has been performed. In the same way every id that a batch
has put is to be recorded by a worker, is in the map, or has been taken by a batch. Both are
equations between multisets (`Conserved`), to which a step has to contribute the change at its own
worker and in what is shared (`Moved`). What a worker that fails had in its hands is lost; `Ghost`
keeps account of it, and of how many ops have been claimed.
-/

namespace MallocBench.Replay

open Lib Trace

/-! ## Where the ops and the ids are -/

def MapVal.ops : MapVal → Multiset Op
  | .allocatedPtr _ => 0
  | .idx op => {op}

def MapVal.ids (id : Nat) : MapVal → Multiset Nat
  | .allocatedPtr _ => {id}
  | .idx _ => 0

/-- The ops that wait in the map. -/
def pendingOps (idMap : GlobalIdMap) : Multiset Op := mapSum (fun _ val => val.ops) idMap

/-- The ids whose pointers are in the map. -/
def ptrIds (idMap : GlobalIdMap) : Multiset Nat := mapSum MapVal.ids idMap

def Making.ops (mk : Making) : List Op := mk.made.map Prod.fst ++ mk.todo

def Batch.ops (b : Batch) : List Op := b.todo.map Prod.fst

namespace WorkerPc

/-- The ops that a worker has. -/
def held (ex : Executor) : WorkerPc → Multiset Op
  | .claim t | .clamp t => t.ops
  | .scan t i endIdx => (t.ops ++ ex.opsFrom i endIdx : List Op)
  | .prepared ops => ops
  | .make mk | .load mk _ _ => mk.ops
  | .arrive b _ | .wait b _ _ | .process b => b.ops
  | .push op _ => {op}
  | _ => 0

/-- Those of them that `MakeFromOps` is done with. -/
def made : WorkerPc → Multiset Op
  | .make mk | .load mk _ _ => (mk.made.map Prod.fst : List Op)
  | .arrive b _ | .wait b _ _ | .process b => b.ops
  | _ => 0

/-- The ids that a worker is to record. -/
def toRecord : WorkerPc → Multiset Nat
  | .make mk | .load mk _ _ => mk.idToIdx.keys
  | .arrive b _ | .wait b _ _ | .process b => b.idToIdx.keys
  | .flush records | .push _ records => (records.map Prod.fst : List Nat)
  | .assign id _ _ records => (id :: records.map Prod.fst : List Nat)
  | _ => 0

/-- A worker that has claimed too much, and has not said so yet. -/
def clamping : WorkerPc → Nat
  | .clamp _ => 1
  | _ => 0

end WorkerPc

/-- What the ops take, and what they put. -/
def opTakes (ex : Executor) (ops : Multiset Op) : Multiset Nat :=
  ops.filterMap (opFlow ex.tracefile).takes

def opPuts (ex : Executor) (ops : Multiset Op) : Multiset Nat :=
  ops.filterMap (opFlow ex.tracefile).puts

def Shared.performedOps (m : Shared) : Multiset Op := (m.performed.map Performed.op : List Op)

/-- How many ops have been claimed, and what workers that failed had: ops that had been made, other
ops, and ids to record. -/
structure Ghost where
  claimed : Nat
  lostMade : Multiset Op
  lostOps : Multiset Op
  lostIds : Multiset Nat

/-- A worker that has found no ops in the trace any more, and has none. -/
def WorkerPc.Spent : WorkerPc → Prop
  | .clamp _ => True
  | .prepared ops => ops = []
  | .make mk | .load mk _ _ => mk.ops = []
  | _ => False

/-- A worker that leaves, or has left, without an error. -/
def WorkerPc.Leaving : WorkerPc → Prop
  | .drop | .returned => True
  | _ => False

/-- Every op and every id is at one place, and the index does not wrap around. -/
structure Conserved (ex : Executor) (s : Workers ex) (g : Ghost) : Prop where
  idx : s.shared.idx = g.claimed % 2 ^ 64
  claimed_lt : g.claimed < ex.numOps + kBatchSize + kBatchSize * ∑ i, (s.pc i).clamping
  spent : ∀ i, (s.pc i).Spent → ex.numOps ≤ g.claimed
  leaving : ∀ i, (s.pc i).Leaving → s.shared.done ∨ ex.numOps ≤ g.claimed
  lost : (∀ i, (s.pc i).role ≠ .gone) → g.lostMade = 0 ∧ g.lostOps = 0 ∧ g.lostIds = 0
  ops : s.shared.performedOps + s.shared.queuedOps + pendingOps s.shared.idMap +
    ∑ i, (s.pc i).held ex + g.lostMade + g.lostOps + ex.opsFrom g.claimed ex.numOps =
      ex.opsFrom 0 ex.numOps
  ids : ptrIds s.shared.idMap + ∑ i, (s.pc i).toRecord + g.lostIds +
      opTakes ex (s.shared.performedOps + ∑ i, (s.pc i).made + g.lostMade) =
    opPuts ex (s.shared.performedOps + ∑ i, (s.pc i).made + g.lostMade)

/-- What a step of a worker has to contribute. -/
structure Moved (ex : Executor) (pc : WorkerPc) (m : Shared) (g : Ghost) (pc' : WorkerPc)
    (m' : Shared) (g' : Ghost) : Prop where
  idx : m'.idx = g'.claimed % 2 ^ 64
  claimed : g'.claimed + kBatchSize * pc.clamping ≤ g.claimed + kBatchSize * pc'.clamping ∨
    g'.claimed < ex.numOps + kBatchSize
  mono : ex.numOps - g'.claimed ≤ ex.numOps - g.claimed
  spent : pc'.Spent → ex.numOps ≤ g'.claimed
  leaving : pc'.Leaving → m'.done ∨ ex.numOps ≤ g'.claimed
  done : m.done → m'.done
  lost : pc'.role ≠ .gone → pc.role ≠ .gone ∧
    g'.lostMade = g.lostMade ∧ g'.lostOps = g.lostOps ∧ g'.lostIds = g.lostIds
  ops : m'.performedOps + m'.queuedOps + pendingOps m'.idMap + pc'.held ex + g'.lostMade +
      g'.lostOps + ex.opsFrom g'.claimed ex.numOps =
    m.performedOps + m.queuedOps + pendingOps m.idMap + pc.held ex + g.lostMade +
      g.lostOps + ex.opsFrom g.claimed ex.numOps
  ids : ptrIds m'.idMap + pc'.toRecord + g'.lostIds +
      opTakes ex (m'.performedOps + pc'.made + g'.lostMade) +
      opPuts ex (m.performedOps + pc.made + g.lostMade) =
    ptrIds m.idMap + pc.toRecord + g.lostIds +
      opTakes ex (m.performedOps + pc.made + g.lostMade) +
      opPuts ex (m'.performedOps + pc'.made + g'.lostMade)

/-- The op is one of the replay. -/
def Executor.IsOp (ex : Executor) (op : Op) : Prop := ∃ k, k < ex.numOps ∧ ex.op k = op

section

variable {ex : Executor} {s s' : Workers ex} {g g' : Ghost} {i j : Fin ex.nThreads} {id : Nat}
  {op op' : Op} {idMap : GlobalIdMap} {A B : Multiset Op}

/-! ## Small facts -/

@[simp] theorem opTakes_add : opTakes ex (A + B) = opTakes ex A + opTakes ex B :=
  Multiset.filterMap_add ..

@[simp] theorem opPuts_add : opPuts ex (A + B) = opPuts ex A + opPuts ex B :=
  Multiset.filterMap_add ..

@[simp] theorem opTakes_zero : opTakes ex 0 = 0 := rfl

@[simp] theorem opPuts_zero : opPuts ex 0 = 0 := rfl

theorem mem_opTakes : id ∈ opTakes ex A ↔ ∃ op ∈ A, (opFlow ex.tracefile).takes op = some id :=
  Multiset.mem_filterMap _ _

theorem mem_opPuts : id ∈ opPuts ex A ↔ ∃ op ∈ A, (opFlow ex.tracefile).puts op = some id :=
  Multiset.mem_filterMap _ _

theorem mem_pendingOps : op ∈ pendingOps idMap ↔ ∃ id, idMap.lookup id = some (.idx op) := by
  unfold pendingOps
  rw [mem_mapSum]
  constructor
  · rintro ⟨id, val, hlookup, hop⟩
    cases val with
    | allocatedPtr ptr => simp [MapVal.ops] at hop
    | idx op' =>
      obtain rfl : op = op' := Multiset.mem_singleton.mp hop
      exact ⟨id, hlookup⟩
  · rintro ⟨id, hlookup⟩
    exact ⟨id, _, hlookup, Multiset.mem_singleton_self _⟩

theorem mem_ptrIds : id ∈ ptrIds idMap ↔ ∃ ptr, idMap.lookup id = some (.allocatedPtr ptr) := by
  unfold ptrIds
  rw [mem_mapSum]
  constructor
  · rintro ⟨id', val, hlookup, hid⟩
    cases val with
    | allocatedPtr ptr =>
      obtain rfl : id = id' := Multiset.mem_singleton.mp hid
      exact ⟨ptr, hlookup⟩
    | idx op => simp [MapVal.ids] at hid
  · rintro ⟨ptr, hlookup⟩
    exact ⟨id, _, hlookup, Multiset.mem_singleton_self _⟩

theorem Executor.Traced.opsFrom_nodup (ht : ex.Traced) : (ex.opsFrom 0 ex.numOps).Nodup := by
  refine List.Nodup.map_on (fun x hx y hy heq => ?_) List.nodup_range'
  rw [List.mem_range'_1] at hx hy
  exact ht.op_inj (by omega) (by omega) heq

/-- Of distinct values that are not mapped to the same, distinct ones come out. -/
theorem nodup_filterMap {α β : Type} {f : α → Option β} {t : Multiset α} (h : t.Nodup)
    (hf : ∀ a ∈ t, ∀ b ∈ t, ∀ c, f a = some c → f b = some c → a = b) : (t.filterMap f).Nodup := by
  induction t using Multiset.induction_on with
  | empty => exact Multiset.nodup_zero
  | cons a t ih =>
    obtain ⟨hnot, hnodup⟩ := Multiset.nodup_cons.mp h
    have hrest := ih hnodup fun x hx y hy =>
      hf x (Multiset.mem_cons_of_mem hx) y (Multiset.mem_cons_of_mem hy)
    cases hfa : f a with
    | none => rwa [Multiset.filterMap_cons_none _ _ hfa]
    | some c =>
      rw [Multiset.filterMap_cons_some _ _ _ hfa]
      refine Multiset.nodup_cons.mpr ⟨fun hmem => ?_, hrest⟩
      obtain ⟨b, hb, hfb⟩ := (Multiset.mem_filterMap _ _).mp hmem
      obtain rfl := hf a (Multiset.mem_cons_self a t) b (Multiset.mem_cons_of_mem hb) c hfa hfb
      exact hnot hb

/-! ## A step of one worker -/

/-- **A step of a worker** keeps everything at one place. -/
theorem Conserved.step (h : Conserved ex s g) (hstep : Threads.StepBy (WorkerStep ex) i s s')
    (hmoved : Moved ex (s.pc i) s.shared g (s'.pc i) s'.shared g') : Conserved ex s' g' := by
  have hne : ∀ j, j ≠ i → s'.pc j = s.pc j := fun j => hstep.pc_of_ne
  have hclamping := sum_change WorkerPc.clamping hne
  have hheld := sum_change (WorkerPc.held ex) hne
  have hrecord := sum_change WorkerPc.toRecord hne
  have hmade := sum_change WorkerPc.made hne
  have hmono : ex.numOps ≤ g.claimed → ex.numOps ≤ g'.claimed := by
    have hle := hmoved.mono
    omega
  refine ⟨hmoved.idx, ?_, fun j hj => ?_, fun j hj => ?_, fun hgone => ?_, ?_, ?_⟩
  · have hlt := h.claimed_lt
    have hclaimed := hmoved.claimed
    have hmul := congrArg (kBatchSize * ·) hclamping
    simp only [Nat.mul_add] at hmul
    omega
  · by_cases hji : j = i
    · exact hmoved.spent (hji ▸ hj)
    · exact hmono (h.spent j (hne j hji ▸ hj))
  · by_cases hji : j = i
    · exact hmoved.leaving (hji ▸ hj)
    · exact (h.leaving j (hne j hji ▸ hj)).imp hmoved.done hmono
  · obtain ⟨hpc, hlostMade, hlostOps, hlostIds⟩ := hmoved.lost (hgone i)
    rw [hlostMade, hlostOps, hlostIds]
    refine h.lost fun j => ?_
    by_cases hji : j = i
    · exact hji ▸ hpc
    · exact hne j hji ▸ hgone j
  · -- each op is counted
    ext op
    have hold := congrArg (Multiset.count op) h.ops
    have hops := congrArg (Multiset.count op) hmoved.ops
    have hsum := congrArg (Multiset.count op) hheld
    simp only [Multiset.count_add] at hold hops hsum ⊢
    omega
  · ext id
    have hold := congrArg (Multiset.count id) h.ids
    have hids := congrArg (Multiset.count id) hmoved.ids
    have hsum := congrArg (Multiset.count id) hrecord
    have htakes := congrArg (fun ops => Multiset.count id (opTakes ex ops)) hmade
    have hputs := congrArg (fun ops => Multiset.count id (opPuts ex ops)) hmade
    simp only [opTakes_add, opPuts_add, Multiset.count_add] at hold hids hsum htakes hputs ⊢
    omega

theorem Conserved.init (ex : Executor) : Conserved ex ex.init ⟨0, 0, 0, 0⟩ where
  idx := rfl
  claimed_lt := by
    have hpos : 0 < kBatchSize := by decide
    show 0 < _
    omega
  spent _ hspent := hspent.elim
  leaving _ hleaving := hleaving.elim
  lost _ := ⟨rfl, rfl, rfl⟩
  ops := by simp [Executor.init, Shared.performedOps, pendingOps, WorkerPc.held]
  ids := by simp [Executor.init, Shared.performedOps, ptrIds, WorkerPc.toRecord, WorkerPc.made]

/-! ## What is at one place is not at another -/

namespace Conserved

/-- An op is counted once. -/
theorem count_le (ht : ex.Traced) (h : Conserved ex s g) (op : Op) :
    s.shared.performedOps.count op + Multiset.count op s.shared.queuedOps +
      (pendingOps s.shared.idMap).count op + (∑ i, (s.pc i).held ex).count op +
      g.lostMade.count op + g.lostOps.count op +
      Multiset.count op (ex.opsFrom g.claimed ex.numOps) ≤ 1 := by
  have hone := Multiset.nodup_iff_count_le_one.mp (Multiset.coe_nodup.mpr ht.opsFrom_nodup) op
  rw [← h.ops] at hone
  simpa only [Multiset.count_add] using hone

/-- An op that occurs is one of the replay. -/
theorem exists_index (h : Conserved ex s g)
    (hop : op ∈ s.shared.performedOps + s.shared.queuedOps + pendingOps s.shared.idMap +
      ∑ i, (s.pc i).held ex + g.lostMade + g.lostOps) : ex.IsOp op := by
  have hmem : op ∈ ex.opsFrom 0 ex.numOps := by
    rw [← Multiset.mem_coe, ← h.ops]
    exact Multiset.mem_add.mpr (.inl hop)
  obtain ⟨k, -, hlt, heq⟩ := Executor.mem_opsFrom.mp hmem
  exact ⟨k, hlt, heq⟩

theorem count_held_le (i : Fin ex.nThreads) (op : Op) :
    ((s.pc i).held ex).count op ≤ (∑ i, (s.pc i).held ex).count op :=
  Multiset.count_le_of_le op (Finset.single_le_sum (f := fun i => (s.pc i).held ex)
    (fun _ _ => Multiset.zero_le _) (Finset.mem_univ i))

theorem count_held_two_le (hij : i ≠ j) (op : Op) :
    ((s.pc i).held ex).count op + ((s.pc j).held ex).count op ≤
      (∑ i, (s.pc i).held ex).count op := by
  rw [← Multiset.count_add]
  exact Multiset.count_le_of_le op (Finset.add_le_sum (f := fun i => (s.pc i).held ex)
    (fun _ _ => Multiset.zero_le _) (Finset.mem_univ i) (Finset.mem_univ j) hij)

theorem index_of_held (h : Conserved ex s g) (hop : op ∈ (s.pc i).held ex) :
    ex.IsOp op := by
  refine h.exists_index ?_
  have hsum : op ∈ ∑ i, (s.pc i).held ex := Multiset.mem_sum.mpr ⟨i, Finset.mem_univ i, hop⟩
  simp only [Multiset.mem_add]
  exact .inl (.inl (.inr hsum))

theorem index_of_performed (h : Conserved ex s g) (hop : op ∈ s.shared.performedOps) :
    ex.IsOp op := by
  refine h.exists_index ?_
  simp only [Multiset.mem_add]
  exact .inl (.inl (.inl (.inl (.inl hop))))

theorem index_of_queued (h : Conserved ex s g) (hop : op ∈ s.shared.queuedOps) :
    ex.IsOp op := by
  refine h.exists_index ?_
  simp only [Multiset.mem_add]
  exact .inl (.inl (.inl (.inl (.inr hop))))

theorem index_of_pending (h : Conserved ex s g) (hop : op ∈ pendingOps s.shared.idMap) :
    ex.IsOp op := by
  refine h.exists_index ?_
  simp only [Multiset.mem_add]
  exact .inl (.inl (.inl (.inr hop)))

/-- The ops of a worker are distinct. -/
theorem held_nodup (ht : ex.Traced) (h : Conserved ex s g) (i : Fin ex.nThreads) :
    ((s.pc i).held ex).Nodup := by
  rw [Multiset.nodup_iff_count_le_one]
  intro op
  have hle := h.count_le ht op
  have hheld := count_held_le (s := s) i op
  omega

theorem not_held_of_pending (ht : ex.Traced) (h : Conserved ex s g)
    (hop : op ∈ pendingOps s.shared.idMap) : op ∉ (s.pc i).held ex := by
  intro hheld
  have hle := h.count_le ht op
  have hi := count_held_le (s := s) i op
  have h₁ := Multiset.one_le_count_iff_mem.mpr hop
  have h₂ := Multiset.one_le_count_iff_mem.mpr hheld
  omega

theorem not_held_of_queued (ht : ex.Traced) (h : Conserved ex s g)
    (hop : op ∈ s.shared.queuedOps) : op ∉ (s.pc i).held ex := by
  intro hheld
  have hle := h.count_le ht op
  have hi := count_held_le (s := s) i op
  have h₁ := Multiset.one_le_count_iff_mem.mpr (Multiset.mem_coe.mpr hop)
  have h₂ := Multiset.one_le_count_iff_mem.mpr hheld
  omega

theorem not_performed_of_pending (ht : ex.Traced) (h : Conserved ex s g)
    (hop : op ∈ pendingOps s.shared.idMap) : op ∉ s.shared.performedOps := by
  intro hperf
  have hle := h.count_le ht op
  have h₁ := Multiset.one_le_count_iff_mem.mpr hop
  have h₂ := Multiset.one_le_count_iff_mem.mpr hperf
  omega

/-- No op is with two workers. -/
theorem not_held_of_held (ht : ex.Traced) (h : Conserved ex s g) (hij : i ≠ j)
    (hop : op ∈ (s.pc i).held ex) : op ∉ (s.pc j).held ex := by
  intro hheld
  have hle := h.count_le ht op
  have hboth := count_held_two_le (s := s) hij op
  have h₁ := Multiset.one_le_count_iff_mem.mpr hop
  have h₂ := Multiset.one_le_count_iff_mem.mpr hheld
  omega

/-! ## The ids -/

theorem made_le_held (pc : WorkerPc) : pc.made ≤ pc.held ex := by
  cases pc with
  | make mk | load mk =>
    exact Multiset.coe_le.mpr (List.sublist_append_left _ _).subperm
  | arrive | wait | process => exact le_refl _
  | _ => exact Multiset.zero_le _

/-- An id is counted once. -/
theorem count_id_le (ht : ex.Traced) (h : Conserved ex s g) (id : Nat) :
    (ptrIds s.shared.idMap).count id + (∑ i, (s.pc i).toRecord).count id + g.lostIds.count id +
      (opTakes ex (s.shared.performedOps + ∑ i, (s.pc i).made + g.lostMade)).count id ≤ 1 := by
  have hmade : ∑ i, (s.pc i).made ≤ ∑ i, (s.pc i).held ex :=
    Finset.sum_le_sum fun i _ => made_le_held _
  have hle : s.shared.performedOps + ∑ i, (s.pc i).made + g.lostMade ≤ ex.opsFrom 0 ex.numOps := by
    rw [← h.ops, Multiset.le_iff_count]
    intro op
    have hcount := Multiset.count_le_of_le op hmade
    simp only [Multiset.count_add]
    omega
  have hnodup : (opPuts ex (s.shared.performedOps + ∑ i, (s.pc i).made + g.lostMade)).Nodup := by
    refine nodup_filterMap (Multiset.nodup_of_le hle ht.opsFrom_nodup) fun a ha b hb id hputs hputs' => ?_
    obtain ⟨k, -, hk, rfl⟩ := Executor.mem_opsFrom.mp (Multiset.mem_of_le hle ha)
    obtain ⟨l, -, hl, rfl⟩ := Executor.mem_opsFrom.mp (Multiset.mem_of_le hle hb)
    rw [ht.puts_inj hk hl hputs hputs']
  rw [← h.ids] at hnodup
  have hone := Multiset.nodup_iff_count_le_one.mp hnodup id
  simpa only [Multiset.count_add] using hone

theorem count_toRecord_le (i : Fin ex.nThreads) (id : Nat) :
    ((s.pc i).toRecord).count id ≤ (∑ i, (s.pc i).toRecord).count id :=
  Multiset.count_le_of_le id (Finset.single_le_sum (f := fun i => (s.pc i).toRecord)
    (fun _ _ => Multiset.zero_le _) (Finset.mem_univ i))

/-- An id that is to be recorded has no pointer in the map. -/
theorem not_ptrIds_of_toRecord (ht : ex.Traced) (h : Conserved ex s g)
    (hid : id ∈ (s.pc i).toRecord) : id ∉ ptrIds s.shared.idMap := by
  intro hptr
  have hle := h.count_id_le ht id
  have hi := count_toRecord_le (s := s) i id
  have h₁ := Multiset.one_le_count_iff_mem.mpr hid
  have h₂ := Multiset.one_le_count_iff_mem.mpr hptr
  omega

/-- No id is to be recorded by two workers. -/
theorem not_toRecord_of_toRecord (ht : ex.Traced) (h : Conserved ex s g) (hij : i ≠ j)
    (hid : id ∈ (s.pc i).toRecord) : id ∉ (s.pc j).toRecord := by
  intro hrecord
  have hle := h.count_id_le ht id
  have hsum := Multiset.count_le_of_le id (Finset.add_le_sum (f := fun i => (s.pc i).toRecord)
    (fun _ _ => Multiset.zero_le _) (Finset.mem_univ i) (Finset.mem_univ j) hij)
  rw [Multiset.count_add] at hsum
  have h₁ := Multiset.one_le_count_iff_mem.mpr hid
  have h₂ := Multiset.one_le_count_iff_mem.mpr hrecord
  omega

end Conserved

end

end MallocBench.Replay
