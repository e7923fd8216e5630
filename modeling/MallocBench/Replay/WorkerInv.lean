import MallocBench.Replay.Conserved
import MallocBench.Replay.MakeFromOps

/-!
# What a worker knows

The input of an op that a worker has is put by an op before it in the same batch, or its pointer is
in the map (`Ordered`). `WorkerPc.Local` says this of every place a worker can be at, and follows
the pointers through the slots of the batch (`MakeInv`, `BatchInv`). It speaks of the map only where
the ops that the worker has and the ids that it is to record are concerned, and a step of another
worker leaves the map there as it is (`Frame`).
-/

namespace MallocBench.Replay

open Lib Trace

/-! ## The pointers of a run -/

/-- The pointer of the result is put into its slot. -/
def WritesResult : TraceLine → Prop
  | .malloc malloc => malloc.resultId.isSome → malloc.inputSize.getD 0 ≠ 0
  | .calloc calloc =>
    calloc.resultId.isSome → calloc.inputNmemb.getD 0 ≠ 0 ∧ calloc.inputSize.getD 0 ≠ 0
  | .realloc _ | .free _ | .opNotSet => True

/-- No line that names its result asks for zero bytes. -/
def Executor.Faithful (ex : Executor) : Prop := ∀ line ∈ ex.tracefile, WritesResult line

/-- The id has been put by an op. -/
def PutBy (ex : Executor) (performed : List Performed) (id : Nat) : Prop :=
  ∃ e ∈ performed, (opFlow ex.tracefile).puts e.op = some id

/-- The pointer of the id is what the allocator has returned for it. -/
def Produced (ex : Executor) (performed : List Performed) (id ptr : Nat) : Prop :=
  ∃ e ∈ performed, (opFlow ex.tracefile).puts e.op = some id ∧ (ex.Faithful → e.result = ptr)

/-- Each op comes after the op that has put its input, and was given its pointer. -/
def InOrder (ex : Executor) (performed : List Performed) : Prop :=
  ∀ pre e post, performed = pre ++ e :: post → ∀ id, (opFlow ex.tracefile).takes e.op = some id →
    ∃ e' ∈ pre, (opFlow ex.tracefile).puts e'.op = some id ∧
      (ex.Faithful → e.input = some e'.result)

/-- The input of each op is put by an op before it, or is there. -/
def Ordered (F : Flow Op Nat) (there : Nat → Prop) (ops : List Op) : Prop :=
  ∀ pre op post, ops = pre ++ op :: post → ∀ id, F.takes op = some id →
    (∃ e ∈ pre, F.puts e = some id) ∨ there id

/-- There is a pointer in the map. -/
def HasPtr (idMap : GlobalIdMap) (id : Nat) : Prop :=
  ∃ ptr, idMap.lookup id = some (.allocatedPtr ptr)

section Ordered

variable {F : Flow Op Nat} {there there' : Nat → Prop} {ops : List Op} {op : Op}

theorem ordered_append : Ordered F there (ops ++ [op]) ↔ Ordered F there ops ∧
    ∀ id, F.takes op = some id → (∃ e ∈ ops, F.puts e = some id) ∨ there id :=
  forall_split_append

theorem Ordered.mono (h : Ordered F there ops)
    (hthere : ∀ op ∈ ops, ∀ id, F.takes op = some id → there id → there' id) :
    Ordered F there' ops := by
  intro pre op post heq id hid
  exact (h pre op post heq id hid).imp_right (hthere op (by rw [heq]; simp) id hid)

theorem ordered_of_there (h : ∀ op ∈ ops, ∀ id, F.takes op = some id → there id) :
    Ordered F there ops := fun pre op post heq id hid => .inr (h op (by rw [heq]; simp) id hid)

/-- The input of the first op is there, and then what it puts is there. -/
theorem Ordered.head (h : Ordered F there (op :: ops)) {id : Nat} (hid : F.takes op = some id) :
    there id := by
  rcases h [] op ops rfl id hid with ⟨e, he, -⟩ | hthere
  · simp at he
  · exact hthere

theorem Ordered.tail (h : Ordered F there (op :: ops)) :
    Ordered F (fun id => there id ∨ F.puts op = some id) ops := by
  intro pre e post heq id hid
  rcases h (op :: pre) e post (by rw [heq]; rfl) id hid with ⟨e', he', hputs⟩ | hthere
  · rcases List.mem_cons.mp he' with rfl | he'
    · exact .inr (.inr hputs)
    · exact .inl ⟨e', he', hputs⟩
  · exact .inr (.inl hthere)

end Ordered

/-! ## A worker -/

/-- `MakeFromOps` goes on as if the map had been `g`, and were `γ` now. -/
structure MakeInv (ex : Executor) (m : Shared) (mk : Making) (g γ : GlobalIdMap) : Prop where
  batched : Batched ex.tracefile g (mk.made.map Prod.fst) (mk.state γ) (mk.made.map Prod.snd)
  ordered : Ordered (opFlow ex.tracefile) (HasPtr g) mk.ops
  produced : ∀ id ptr, g.lookup id = some (.allocatedPtr ptr) → Produced ex m.performed id ptr
  agree : ∀ op ∈ mk.todo, ∀ id ptr, (opFlow ex.tracefile).takes op = some id →
    γ.lookup id = some (.allocatedPtr ptr) → m.idMap.lookup id = some (.allocatedPtr ptr)

/-- The slots of a batch give every op the pointer that `ptrs` gives it. -/
structure BatchHolds (ex : Executor) (performed : List Performed) (b : Batch)
    (ptrs : Nat → Option Nat) : Prop where
  produced : ∀ id ptr, ptrs id = some ptr → Produced ex performed id ptr
  run : ∀ results, results.length = b.todo.length →
    (runSlots b.idMap ((b.todo.map Prod.snd).zip results)).1 =
        (runIds ex.tracefile ptrs (b.ops.zip results)).1 ∧
      ∀ id i, b.idToIdx.lookup id = some i →
        (runIds ex.tracefile ptrs (b.ops.zip results)).2 id =
          some ((runSlots b.idMap ((b.todo.map Prod.snd).zip results)).2 i)

/-- A batch whose ops are performed. -/
structure BatchInv (ex : Executor) (performed : List Performed) (b : Batch) : Prop where
  ordered : Ordered (opFlow ex.tracefile) (PutBy ex performed) b.ops
  recorded : ∀ id ∈ b.idToIdx,
    (∃ op ∈ b.ops, (opFlow ex.tracefile).puts op = some id) ∨ PutBy ex performed id
  renamed : ∀ e ∈ b.todo, ∃ i j, e.2 = renameIds i j (e.1.line ex.tracefile)
  holds : ex.Faithful → ∃ ptrs, BatchHolds ex performed b ptrs

/-- What is true of a worker, with what is shared. -/
def WorkerPc.Local (ex : Executor) (m : Shared) : WorkerPc → Prop
  | .claim t | .clamp t | .scan t _ _ => Ordered (opFlow ex.tracefile) (HasPtr m.idMap) t.ops ∧
    ∀ id ∈ t.localAllocations, ∃ op ∈ t.ops, (opFlow ex.tracefile).puts op = some id
  | .prepared ops => Ordered (opFlow ex.tracefile) (HasPtr m.idMap) ops
  | .make mk => ∃ g γ, MakeInv ex m mk g γ
  | .load mk id ptr => (∃ g γ, MakeInv ex m mk g γ) ∧ id ∉ mk.idToIdx ∧
    m.idMap.lookup id = some (.allocatedPtr ptr) ∧
    ∃ op todo, mk.todo = op :: todo ∧ (opFlow ex.tracefile).takes op = some id
  | .arrive b _ | .wait b _ _ | .process b => BatchInv ex m.performed b
  | .flush records => ∀ r ∈ records, Produced ex m.performed r.1 r.2
  | .assign id ptr op records =>
    (∀ r ∈ (id, ptr) :: records, Produced ex m.performed r.1 r.2) ∧
      m.idMap.lookup id = some (.idx op)
  | .push op records => (∀ r ∈ records, Produced ex m.performed r.1 r.2) ∧
    ∀ id, (opFlow ex.tracefile).takes op = some id → HasPtr m.idMap id
  | .failed error _ => error = .allocator
  | _ => True

/-- What is true of what is shared. -/
structure SharedInv (ex : Executor) (m : Shared) : Prop where
  pending : ∀ id op, m.idMap.lookup id = some (.idx op) → (opFlow ex.tracefile).takes op = some id
  ptr : ∀ id ptr, m.idMap.lookup id = some (.allocatedPtr ptr) → Produced ex m.performed id ptr
  queued : ∀ op ∈ m.queuedOps, ∀ id, (opFlow ex.tracefile).takes op = some id → HasPtr m.idMap id
  inOrder : InOrder ex m.performed
  misread : m.misread = false

/-- What a step of a worker at `pc` leaves as it is. -/
structure Frame (ex : Executor) (pc : WorkerPc) (m m' : Shared) : Prop where
  performed : ∃ es, m'.performed = m.performed ++ es
  ptr : ∀ id ptr, m.idMap.lookup id = some (.allocatedPtr ptr) →
    (∀ op ∈ pc.held ex, (opFlow ex.tracefile).takes op ≠ some id) →
    m'.idMap.lookup id = some (.allocatedPtr ptr)
  pending : ∀ id op, m.idMap.lookup id = some (.idx op) → id ∉ pc.toRecord →
    m'.idMap.lookup id = some (.idx op)

section

variable {ex : Executor} {m m' : Shared} {pc pc' : WorkerPc} {performed es : List Performed}
  {op : Op} {id ptr : Nat}

/-! ## More ops are performed -/

theorem PutBy.append (h : PutBy ex performed id) : PutBy ex (performed ++ es) id := by
  obtain ⟨e, he, hputs⟩ := h
  exact ⟨e, List.mem_append_left _ he, hputs⟩

theorem Produced.append (h : Produced ex performed id ptr) :
    Produced ex (performed ++ es) id ptr := by
  obtain ⟨e, he, hputs⟩ := h
  exact ⟨e, List.mem_append_left _ he, hputs⟩

theorem Produced.putBy (h : Produced ex performed id ptr) : PutBy ex performed id := by
  obtain ⟨e, he, hputs, -⟩ := h
  exact ⟨e, he, hputs⟩

theorem BatchInv.append {b : Batch} (h : BatchInv ex performed b) :
    BatchInv ex (performed ++ es) b where
  ordered := h.ordered.mono fun _ _ _ _ => PutBy.append
  recorded id hid := (h.recorded id hid).imp_right PutBy.append
  renamed := h.renamed
  holds hfaithful := by
    obtain ⟨ptrs, hproduced, hrun⟩ := h.holds hfaithful
    exact ⟨ptrs, fun id ptr hptr => (hproduced id ptr hptr).append, hrun⟩

/-! ## The steps of the others -/

theorem Frame.of_eq (hmap : m'.idMap = m.idMap) (hperformed : m'.performed = m.performed) :
    Frame ex pc m m' where
  performed := ⟨[], by rw [hperformed, List.append_nil]⟩
  ptr id ptr h _ := by rw [hmap, h]
  pending id op h _ := by rw [hmap, h]

/-- **The step of another worker** that has other ops and other ids leaves what a worker knows. -/
theorem WorkerPc.Local.frame {pc₁ : WorkerPc} (h : pc₁.Local ex m) (hframe : Frame ex pc m m')
    (hops : ∀ op ∈ pc₁.held ex, ∀ id, (opFlow ex.tracefile).takes op = some id →
      ∀ op' ∈ pc.held ex, (opFlow ex.tracefile).takes op' ≠ some id)
    (hids : ∀ id ∈ pc₁.toRecord, id ∉ pc.toRecord) : pc₁.Local ex m' := by
  obtain ⟨es, hperformed⟩ := hframe.performed
  have hptr : ∀ op ∈ pc₁.held ex, ∀ id ptr, (opFlow ex.tracefile).takes op = some id →
      m.idMap.lookup id = some (.allocatedPtr ptr) →
      m'.idMap.lookup id = some (.allocatedPtr ptr) := fun op hop id ptr hid hlookup =>
    hframe.ptr id ptr hlookup (hops op hop id hid)
  have hthere : ∀ op ∈ pc₁.held ex, ∀ id, (opFlow ex.tracefile).takes op = some id →
      HasPtr m.idMap id → HasPtr m'.idMap id := fun op hop id hid ⟨ptr, hlookup⟩ =>
    ⟨ptr, hptr op hop id ptr hid hlookup⟩
  have hmake : ∀ mk : Making, (∀ op ∈ mk.todo, op ∈ pc₁.held ex) → (∃ g γ, MakeInv ex m mk g γ) →
      ∃ g γ, MakeInv ex m' mk g γ := by
    rintro mk hheld ⟨g, γ, hbatched, hordered, hproduced, hagree⟩
    refine ⟨g, γ, hbatched, hordered, fun id ptr hlookup => ?_, fun op hop id ptr hid hlookup => ?_⟩
    · rw [hperformed]
      exact (hproduced id ptr hlookup).append
    · exact hptr op (hheld op hop) id ptr hid (hagree op hop id ptr hid hlookup)
  have hproduced : ∀ records : List (Nat × Nat),
      (∀ r ∈ records, Produced ex m.performed r.1 r.2) →
      ∀ r ∈ records, Produced ex m'.performed r.1 r.2 := by
    intro records hrecords r hr
    rw [hperformed]
    exact (hrecords r hr).append
  cases pc₁ with
  | claim t | clamp t => exact ⟨h.1.mono hthere, h.2⟩
  | scan t i endIdx =>
    refine ⟨h.1.mono fun op hop => hthere op ?_, h.2⟩
    exact List.mem_append_left _ hop
  | prepared ops => exact Ordered.mono h hthere
  | make mk => exact hmake mk (fun op hop => List.mem_append_right _ hop) h
  | load mk id ptr =>
    obtain ⟨hinv, hnot, hlookup, op, todo, htodo, hid⟩ := h
    have hheld : ∀ op ∈ mk.todo, op ∈ WorkerPc.held ex (.load mk id ptr) := fun op hop =>
      List.mem_append_right _ hop
    refine ⟨hmake mk hheld hinv, hnot, ?_, op, todo, htodo, hid⟩
    exact hptr op (hheld op (by rw [htodo]; exact List.mem_cons_self)) id ptr hid hlookup
  | arrive b | wait b | process b =>
    show BatchInv ex m'.performed b
    rw [hperformed]
    exact BatchInv.append h
  | flush records => exact hproduced records h
  | assign id ptr op records =>
    exact ⟨hproduced _ h.1, hframe.pending id op h.2 (hids id (List.mem_cons_self ..))⟩
  | push op records =>
    exact ⟨hproduced _ h.1, fun id hid => hthere op (Multiset.mem_singleton_self op) id hid (h.2 id hid)⟩
  | failed error stored => exact h
  | _ => trivial

end

end MallocBench.Replay
