import MallocBench.Checker.Reference
import MallocBench.Replay.ErrorExits
import MallocBench.Replay.ReplayRuns

/-!
# Replays behind the checker

The workers of a replay call the allocator through a `MallocRunner` that they share, and that checks
what they get (`CheckedStep`). Until a call fails, a replay is a correct program, whatever the
interleaving of its workers: it releases only blocks that it has been given and still has
(`CheckedReach.inv`, `CheckedReach.next_valid`). So the checker raises no false alarm in a replay
(`replay_passes_iff_serves`), and on the allocator of `allocator_interface.h` the next op of a worker
passes if and only if it fits (`replay_passes_iff_fits`). As that allocator takes nothing back, no
worker fails when its heap has room for all iterations (`replay_passes`).

No lock makes a call of the `MallocRunner` one step. That it is one is an assumption here.
-/

namespace MallocBench.Replay

open Lib Trace Checker

/-- What an op that has been performed has asked for. -/
def Performed.request (ex : Executor) (e : Performed) : RunnerCall :=
  requestOf (e.op.line ex.tracefile) e.input

/-- The workers of a replay, and the `MallocRunner` that they call. -/
structure Checked (ex : Executor) (σ : Type) where
  workers : Workers ex
  runner : Runner σ

/-- A step of worker `i`. A call of the `MallocRunner` is one step. When it fails, it may have
changed the allocator and the blocks of the checker in any way. -/
inductive CheckedStep {σ ε : Type} (ex : Executor) (A : Allocator σ ε) (i : Fin ex.nThreads) :
    Checked ex σ → Checked ex σ → Prop
  | perform {s : Workers ex} {r r' : Runner σ} {b : Batch} {op : Op} {line : TraceLine}
      {todo : List (Op × TraceLine)} {magicBytes : BitVec 64} {result : Nat}
      (hpc : s.pc i = .process b) (htodo : b.todo = (op, line) :: todo)
      (hrun : A.run magicBytes (requestOf line (inputPtr line b.idMap)) r = .ok (result, r')) :
    CheckedStep ex A i ⟨s, r⟩
      ⟨⟨Function.update s.pc i
          (.process { b with todo := todo, idMap := processLine line b.idMap result }),
        { s.shared with
          performed := s.shared.performed ++ [⟨op, inputPtr line b.idMap, result⟩] }⟩, r'⟩
  | performError {s : Workers ex} {r : Runner σ} {b : Batch} {op : Op} {line : TraceLine}
      {todo : List (Op × TraceLine)} {magicBytes : BitVec 64} {error : RunError ε}
      (hpc : s.pc i = .process b) (htodo : b.todo = (op, line) :: todo)
      (hrun : A.run magicBytes (requestOf line (inputPtr line b.idMap)) r = .error error)
      (r' : Runner σ) :
    CheckedStep ex A i ⟨s, r⟩
      ⟨⟨Function.update s.pc i (.failed .allocator false), s.shared⟩, r'⟩
  | other {s s' : Workers ex} {r : Runner σ} (hother : ∀ b, s.pc i = .process b → b.todo = [])
      (hstep : Threads.StepBy (WorkerStep ex) i s s') :
    CheckedStep ex A i ⟨s, r⟩ ⟨s', r⟩

/-- The states that an interleaving of the workers can lead to, with the runner `r₀` at the start. -/
abbrev CheckedReach {σ ε : Type} (ex : Executor) (A : Allocator σ ε) (r₀ : Runner σ) :
    Checked ex σ → Prop :=
  Relation.ReflTransGen (fun c c' => ∃ i, CheckedStep ex A i c c') ⟨ex.init, r₀⟩

/-- The blocks that ops have been given and that none has released. -/
def liveBlocks (ex : Executor) (performed : List Performed) : List (Nat × Nat) :=
  performed.foldl (fun live e => (e.request ex).liveAfter live e.result) []

/-- What is true of the ops that a replay has performed. -/
structure LogInv (ex : Executor) (performed : List Performed) : Prop where
  nodup : (performed.map Performed.op).Nodup
  isOp : ∀ e ∈ performed, ex.IsOp e.op
  inOrder : InOrder ex performed
  input : ∀ e ∈ performed, (opFlow ex.tracefile).takes e.op = none → e.input = none

/-- The pointer has been returned for the id, and no op has taken it yet. -/
def Waiting (ex : Executor) (performed : List Performed) (id ptr : Nat) : Prop :=
  (∃ e ∈ performed, (opFlow ex.tracefile).puts e.op = some id ∧ e.result = ptr) ∧
    ∀ e ∈ performed, (opFlow ex.tracefile).takes e.op ≠ some id

/-- The pointers that wait are those of different blocks. -/
structure Owns (ex : Executor) (performed : List Performed) (live : List (Nat × Nat)) : Prop where
  live : ∀ {id ptr}, Waiting ex performed id ptr → ptr ≠ 0 → ∃ n, (ptr, n) ∈ live
  inj : ∀ {id id' ptr}, Waiting ex performed id ptr → Waiting ex performed id' ptr → ptr ≠ 0 →
    id = id'

section

variable {ex : Executor} {s : Workers ex} {performed : List Performed} {e : Performed}
  {live : List (Nat × Nat)} {line : TraceLine} {input : Option Nat} {id ptr : Nat}

/-! ## Requests -/

/-- The ids of a line do not matter any more when its pointer is known. -/
theorem requestOf_renameIds (i j : Nat) :
    requestOf (renameIds i j line) input = requestOf line input := by
  cases line <;> rfl

theorem requestOf_size : (requestOf line input).size = (requestOf line none).size := by
  cases line with
  | free free => cases input <;> rfl
  | _ => rfl

theorem modest_requestOf (h : Checker.Reference.Modest (requestOf line none)) :
    Checker.Reference.Modest (requestOf line input) := by
  cases line with
  | free free => cases input <;> trivial
  | _ => exact h

theorem allowed_of_sizes
    (h : ∀ line ∈ ex.tracefile, (requestOf line none).size + 15 < 2 ^ 64) (s : Reference) :
    ∀ line ∈ ex.tracefile, ∀ input, Checker.Reference.Allowed s (requestOf line input) := by
  intro line hline input
  unfold Checker.Reference.Allowed
  rw [requestOf_size]
  exact h line hline

/-- The block that is released is that of the input id. -/
theorem requestOf_input (h : (requestOf line input).input ≠ 0) :
    input = some (requestOf line input).input := by
  cases line with
  | malloc malloc | calloc calloc => exact absurd rfl h
  | opNotSet => exact absurd rfl h
  | realloc realloc | free free =>
    cases input with
    | none => exact absurd rfl h
    | some ptr => rfl

/-! ## The log -/

/-- An op without an input is not given a pointer. -/
theorem BatchInv.input_none {b : Batch} {op : Op} {todo : List (Op × TraceLine)}
    (h : BatchInv ex performed b) (htodo : b.todo = (op, line) :: todo)
    (htakes : (opFlow ex.tracefile).takes op = none) : inputPtr line b.idMap = none := by
  obtain ⟨i, j, hline⟩ := h.renamed (op, line) (by rw [htodo]; exact List.mem_cons_self)
  have hnone : idFlow.takes (op.line ex.tracefile) = none := Option.map_eq_none_iff.mp htakes
  have hline' : idFlow.takes line = none := by
    rw [show line = renameIds i j (op.line ex.tracefile) from hline, takes_renameIds, hnone]
    rfl
  rw [inputPtr, show (inputAndResultIds line).1 = none from hline']
  rfl

/-- **The ops that a replay has performed.** -/
theorem logInv (hfits : ex.Fits) (h : ex.Reach s) : LogInv ex s.shared.performed := by
  have hinput : (∃ g, ReplayInv ex s g) ∧ ∀ e ∈ s.shared.performed,
      (opFlow ex.tracefile).takes e.op = none → e.input = none := by
    refine h.induct (fun s => (∃ g, ReplayInv ex s g) ∧ ∀ e ∈ s.shared.performed,
      (opFlow ex.tracefile).takes e.op = none → e.input = none)
        ⟨⟨_, .init ex⟩, fun e he => nomatch he⟩ ?_
    rintro i s s' ⟨⟨g, hinv⟩, hinput⟩ hstep
    obtain ⟨g', -, hinv'⟩ := hinv.step hfits hstep
    refine ⟨⟨g', hinv'⟩, ?_⟩
    rcases hstep.pc_self.performed_cases with heq | ⟨b, op, line, todo, result, hpc, htodo, heq⟩
    · rw [heq]
      exact hinput
    · -- the op that is recorded is the next one of a batch
      have hlocal := hinv.locals i
      rw [hpc] at hlocal
      rw [heq]
      intro e he htakes
      rcases List.mem_append.mp he with he | he
      · exact hinput e he htakes
      · obtain rfl := List.mem_singleton.mp he
        exact BatchInv.input_none hlocal htodo htakes
  obtain ⟨⟨g, hinv⟩, hinput⟩ := hinput
  exact ⟨hinv.nodup_performed hfits, fun e he => hinv.conserved.index_of_performed
    (Multiset.mem_coe.mpr (List.mem_map_of_mem he)), hinv.shared.inOrder, hinput⟩

/-- The op that comes next is the last one of the log when it has been performed, whatever it
returns. -/
theorem logInv_next {i : Fin ex.nThreads} {b : Batch} {op : Op} {todo : List (Op × TraceLine)}
    (hfits : ex.Fits) (h : ex.Reach s) (hpc : s.pc i = .process b)
    (htodo : b.todo = (op, line) :: todo) (result : Nat) :
    LogInv ex (s.shared.performed ++ [⟨op, inputPtr line b.idMap, result⟩]) := by
  have hstep : WorkerStep ex (.process b) s.shared _ _ := .perform b s.shared htodo result
  exact logInv hfits (h.tail ⟨i, .intro hpc hstep⟩)

/-- It asks for what its line in the trace asks for. -/
theorem requestOf_next {i : Fin ex.nThreads} {b : Batch} {op : Op} {todo : List (Op × TraceLine)}
    (hfits : ex.Fits) (h : ex.Reach s) (hpc : s.pc i = .process b)
    (htodo : b.todo = (op, line) :: todo) (input : Option Nat) :
    requestOf line input = requestOf (op.line ex.tracefile) input := by
  obtain ⟨g, hinv⟩ := replayInv hfits h
  have hlocal := hinv.locals i
  rw [hpc] at hlocal
  have hmem : (op, line) ∈ b.todo := by rw [htodo]; exact List.mem_cons_self
  obtain ⟨k, l, hline⟩ := BatchInv.renamed hlocal (op, line) hmem
  rw [show line = renameIds k l (op.line ex.tracefile) from hline, requestOf_renameIds]

namespace LogInv

theorem init (h : LogInv ex (performed ++ [e])) : LogInv ex performed where
  nodup := by
    have hnodup := h.nodup
    rw [List.map_append] at hnodup
    exact hnodup.of_append_left
  isOp e' he' := h.isOp e' (List.mem_append_left _ he')
  inOrder := (forall_split_append.mp h.inOrder).1
  input e' he' := h.input e' (List.mem_append_left _ he')

theorem isOp_last (h : LogInv ex (performed ++ [e])) : ex.IsOp e.op :=
  h.isOp e (List.mem_append_right _ (List.mem_singleton_self e))

/-- **The pointer that the last op has been given** waits for it, and is that of its input id. -/
theorem waiting (h : LogInv ex (performed ++ [e])) (ht : ex.Traced) (hfaithful : ex.Faithful)
    (hinput : e.input = some ptr) : ∃ id, (opFlow ex.tracefile).takes e.op = some id ∧
      Waiting ex performed id ptr := by
  have hlast : e ∈ performed ++ [e] := List.mem_append_right _ (List.mem_singleton_self e)
  cases htakes : (opFlow ex.tracefile).takes e.op with
  | none =>
    rw [h.input e hlast htakes] at hinput
    cases hinput
  | some id =>
    obtain ⟨e', he', hputs, hresult⟩ := (forall_split_append.mp h.inOrder).2 id htakes
    rw [hresult hfaithful] at hinput
    refine ⟨id, rfl, ⟨e', he', hputs, Option.some_inj.mp hinput⟩, fun e'' he'' htakes' => ?_⟩
    -- no other op takes the id, and none is performed twice
    have hsame := ht.takes_unique (h.init.isOp e'' he'') h.isOp_last
      htakes' htakes
    have hnodup := h.nodup
    rw [List.map_append, List.nodup_append] at hnodup
    exact hnodup.2.2 _ (List.mem_map_of_mem he'') _ (List.mem_singleton_self _) hsame

end LogInv

/-! ## The blocks of a replay -/

theorem Waiting.cases (h : Waiting ex (performed ++ [e]) id ptr) :
    (Waiting ex performed id ptr ∧ (opFlow ex.tracefile).takes e.op ≠ some id) ∨
      ((opFlow ex.tracefile).puts e.op = some id ∧ e.result = ptr) := by
  obtain ⟨⟨e', he', hputs⟩, htakes⟩ := h
  rcases List.mem_append.mp he' with he' | he'
  · refine .inl ⟨⟨⟨e', he', hputs⟩, fun e'' he'' => htakes e'' (List.mem_append_left _ he'')⟩, ?_⟩
    exact htakes e (List.mem_append_right _ (List.mem_singleton_self e))
  · obtain rfl := List.mem_singleton.mp he'
    exact .inr hputs

namespace Owns

theorem init : Owns ex [] live where
  live h := by
    obtain ⟨⟨e, he, -⟩, -⟩ := h
    cases he
  inj h := by
    obtain ⟨⟨e, he, -⟩, -⟩ := h
    cases he

/-- **The last op is that of a correct program.** -/
theorem valid (h : Owns ex performed live) (hlog : LogInv ex (performed ++ [e])) (ht : ex.Traced)
    (hfaithful : ex.Faithful) : (e.request ex).Valid live := by
  by_cases hzero : (e.request ex).input = 0
  · exact .inl hzero
  · obtain ⟨id, -, hwaiting⟩ := hlog.waiting ht hfaithful (requestOf_input hzero)
    exact .inr (h.live hwaiting hzero)

/-- What goes on waiting is not released. -/
theorem kept (h : Owns ex performed live) (hlog : LogInv ex (performed ++ [e])) (ht : ex.Traced)
    (hfaithful : ex.Faithful) (hwaiting : Waiting ex performed id ptr)
    (htakes : (opFlow ex.tracefile).takes e.op ≠ some id) (hptr : ptr ≠ 0) :
    ∃ n, (ptr, n) ∈ live.filter (·.1 ≠ (e.request ex).input) := by
  obtain ⟨n, hn⟩ := h.live hwaiting hptr
  refine ⟨n, List.mem_filter.mpr ⟨hn, decide_eq_true fun heq => ?_⟩⟩
  -- it would be the pointer that the op takes
  have hzero : (e.request ex).input ≠ 0 := by
    rw [← heq]
    exact hptr
  obtain ⟨id', htakes', hwaiting'⟩ := hlog.waiting ht hfaithful (requestOf_input hzero)
  obtain rfl : ptr = (requestOf (e.op.line ex.tracefile) e.input).input := heq
  exact htakes (h.inj hwaiting hwaiting' hptr ▸ htakes')

theorem next (h : Owns ex performed live) (hlog : LogInv ex (performed ++ [e])) (ht : ex.Traced)
    (hfaithful : ex.Faithful)
    (hnew : e.result ≠ 0 → ∀ n, (e.result, n) ∉ live.filter (·.1 ≠ (e.request ex).input)) :
    Owns ex (performed ++ [e]) ((e.request ex).liveAfter live e.result) where
  live {id ptr} hwaiting hptr := by
    unfold RunnerCall.liveAfter
    rcases hwaiting.cases with ⟨hold, htakes⟩ | ⟨-, rfl⟩
    · obtain ⟨n, hn⟩ := h.kept hlog ht hfaithful hold htakes hptr
      split_ifs
      · exact ⟨n, hn⟩
      · exact ⟨n, List.mem_cons_of_mem _ hn⟩
    · -- the new block
      rw [if_neg hptr]
      exact ⟨_, List.mem_cons_self⟩
  inj {id id' ptr} hwaiting hwaiting' hptr := by
    rcases hwaiting.cases with ⟨hold, htakes⟩ | ⟨hputs, rfl⟩ <;>
      rcases hwaiting'.cases with ⟨hold', htakes'⟩ | ⟨hputs', hresult⟩
    · exact h.inj hold hold' hptr
    · -- an old block and the new one
      subst hresult
      obtain ⟨n, hn⟩ := h.kept hlog ht hfaithful hold htakes hptr
      exact absurd hn (hnew hptr n)
    · obtain ⟨n, hn⟩ := h.kept hlog ht hfaithful hold' htakes' hptr
      exact absurd hn (hnew hptr n)
    · exact Option.some_inj.mp (hputs.symm.trans hputs')

end Owns

/-! ## On an allocator -/

section

variable {σ ε : Type} {A : Allocator σ ε} {R : σ → List (Nat × Nat) → Prop}
  {Allowed : σ → RunnerCall → Prop} {r₀ : Runner σ} {c c' : Checked ex σ} {i : Fin ex.nThreads}

theorem Executor.IsOp.line_mem {op : Op} (h : ex.IsOp op) :
    op.line ex.tracefile ∈ ex.tracefile := by
  obtain ⟨k, hk, rfl⟩ := h
  have hlt : k % ex.tracefile.length < ex.tracefile.length := Nat.mod_lt k (ex.length_pos hk)
  show ex.tracefile.getD (k % ex.tracefile.length) .opNotSet ∈ ex.tracefile
  rw [List.getD_eq_getElem _ _ hlt]
  exact List.getElem_mem hlt

theorem liveBlocks_append (performed : List Performed) (e : Performed) :
    liveBlocks ex (performed ++ [e]) =
      (e.request ex).liveAfter (liveBlocks ex performed) e.result := by
  unfold liveBlocks
  rw [List.foldl_append]
  rfl

theorem CheckedStep.workers (h : CheckedStep ex A i c c') :
    Threads.StepBy (WorkerStep ex) i c.workers c'.workers := by
  cases h with
  | perform hpc htodo => exact .intro hpc (.perform _ _ htodo _)
  | performError hpc htodo =>
    exact .intro hpc (.performError _ _ (by rw [htodo]; exact List.cons_ne_nil _ _))
  | other _ hstep => exact hstep

theorem role_update_self (pcs : Fin ex.nThreads → WorkerPc) (i : Fin ex.nThreads) (pc : WorkerPc) :
    (Function.update pcs i pc i).role = pc.role := by
  rw [Function.update_self]

/-- Unless a call fails, the runner takes part in a step exactly when an op is performed. -/
theorem CheckedStep.cases (h : CheckedStep ex A i c c') (hno : (c'.workers.pc i).role ≠ .gone) :
    (c'.runner = c.runner ∧ c'.workers.shared.performed = c.workers.shared.performed) ∨
      ∃ b op line todo magicBytes result, c.workers.pc i = .process b ∧
        b.todo = (op, line) :: todo ∧
        A.run magicBytes (requestOf line (inputPtr line b.idMap)) c.runner =
          .ok (result, c'.runner) ∧
        c'.workers.shared.performed =
          c.workers.shared.performed ++ [⟨op, inputPtr line b.idMap, result⟩] := by
  cases h with
  | perform hpc htodo hrun => exact .inr ⟨_, _, _, _, _, _, hpc, htodo, hrun, rfl⟩
  | performError hpc htodo hrun r' =>
    exact (hno (role_update_self ..)).elim
  | other hother hstep =>
    refine .inl ⟨rfl, hstep.pc_self.performed_cases.resolve_right ?_⟩
    rintro ⟨b, op, line, todo, result, hpc, htodo, -⟩
    rw [hother b hpc] at htodo
    cases htodo

theorem CheckedReach.reach (h : CheckedReach ex A r₀ c) : ex.Reach c.workers := by
  induction h with
  | refl => exact .refl
  | tail _ hlast ih =>
    obtain ⟨i, hstep⟩ := hlast
    exact ih.tail ⟨i, hstep.workers⟩

/-- **Until a call fails**, what holds at the start and is kept by every op that is performed holds
of the runner and the ops. -/
theorem CheckedReach.induct (Inv : Runner σ → List Performed → Prop) (hfits : ex.Fits)
    (h : CheckedReach ex A r₀ c) (hnone : ∀ i, (c.workers.pc i).role ≠ .gone) (hinit : Inv r₀ [])
    (hstep : ∀ r r' performed e magicBytes, LogInv ex (performed ++ [e]) → Inv r performed →
      A.run magicBytes (e.request ex) r = .ok (e.result, r') → Inv r' (performed ++ [e])) :
    Inv c.runner c.workers.shared.performed := by
  induction h with
  | refl => exact hinit
  | @tail c c' hreach hlast ih =>
    obtain ⟨i, hby⟩ := hlast
    have hinv := ih fun j hj => hnone j (gone_of_step hby.workers hj)
    rcases hby.cases (hnone i) with ⟨hrunner, hperformed⟩ |
      ⟨b, op, line, todo, magicBytes, result, hpc, htodo, hrun, hperformed⟩
    · rw [hrunner, hperformed]
      exact hinv
    · have hreach' := CheckedReach.reach hreach
      rw [requestOf_next hfits hreach' hpc htodo] at hrun
      rw [hperformed]
      exact hstep _ _ _ _ magicBytes (logInv_next hfits hreach' hpc htodo result) hinv hrun

/-- The ops that have been performed are those of a correct program. -/
structure ProgramInv (ex : Executor) (A : Allocator σ ε) (Allowed : σ → RunnerCall → Prop)
    (r₀ r : Runner σ) (performed : List Performed) : Prop where
  reach : RunnerReach A Allowed r₀ r (liveBlocks ex performed)
  owns : Owns ex performed (liveBlocks ex performed)

theorem ProgramInv.init : ProgramInv ex A Allowed r₀ r₀ [] := ⟨.init, .init⟩

theorem ProgramInv.step {r r' : Runner σ} {magicBytes : BitVec 64}
    (h : ProgramInv ex A Allowed r₀ r performed) (hlog : LogInv ex (performed ++ [e]))
    (ht : ex.Traced) (hfaithful : ex.Faithful) (hc : Contract A R Allowed) (h₀ : Tracks A R r₀ [])
    (hallowed : ∀ s, ∀ line ∈ ex.tracefile, ∀ input, Allowed s (requestOf line input))
    (hrun : A.run magicBytes (e.request ex) r = .ok (e.result, r')) :
    ProgramInv ex A Allowed r₀ r' (performed ++ [e]) := by
  have hvalid := h.owns.valid hlog ht hfaithful
  have hnext : RunnerReach A Allowed r₀ r' ((e.request ex).liveAfter (liveBlocks ex performed)
      e.result) := .request h.reach hvalid (hallowed _ _ hlog.isOp_last.line_mem _) hrun
  constructor
  · rw [liveBlocks_append]
    exact hnext
  · -- the allocator does not give a block that the program still has
    rw [liveBlocks_append]
    refine h.owns.next hlog ht hfaithful fun hne n => ?_
    have hrel := (hnext.tracks hc h₀).rel
    rw [RunnerCall.liveAfter, if_neg hne] at hrel
    exact hc.new_not_mem hrel n

/-- **Until a call fails, a replay is a run of a correct program.** -/
theorem CheckedReach.inv (h : CheckedReach ex A r₀ c) (hnone : ∀ i, (c.workers.pc i).role ≠ .gone)
    (hfits : ex.Fits) (hfaithful : ex.Faithful) (hc : Contract A R Allowed) (h₀ : Tracks A R r₀ [])
    (hallowed : ∀ s, ∀ line ∈ ex.tracefile, ∀ input, Allowed s (requestOf line input)) :
    ProgramInv ex A Allowed r₀ c.runner c.workers.shared.performed :=
  h.induct _ hfits hnone .init fun _ _ _ _ _ hlog hinv hrun =>
    hinv.step hlog hfits.traced hfaithful hc h₀ hallowed hrun

/-- **The next op of a worker** is that of a correct program, too. -/
theorem CheckedReach.next_valid (h : CheckedReach ex A r₀ c)
    (hnone : ∀ i, (c.workers.pc i).role ≠ .gone) (hfits : ex.Fits) (hfaithful : ex.Faithful)
    (hc : Contract A R Allowed) (h₀ : Tracks A R r₀ [])
    (hallowed : ∀ s, ∀ line ∈ ex.tracefile, ∀ input, Allowed s (requestOf line input))
    {b : Batch} {op : Op} {todo : List (Op × TraceLine)}
    (hpc : c.workers.pc i = .process b) (htodo : b.todo = (op, line) :: todo) :
    Tracks A R c.runner (liveBlocks ex c.workers.shared.performed) ∧
      (requestOf line (inputPtr line b.idMap)).Valid
        (liveBlocks ex c.workers.shared.performed) := by
  have hinv := h.inv hnone hfits hfaithful hc h₀ hallowed
  have hlog := logInv_next hfits h.reach hpc htodo 0
  rw [requestOf_next hfits h.reach hpc htodo]
  exact ⟨hinv.reach.tracks hc h₀, hinv.owns.valid hlog hfits.traced hfaithful⟩

theorem not_gone_of_not_failed {s : Workers ex}
    (h : ∀ i error stored, s.pc i ≠ .failed error stored) (i : Fin ex.nThreads) :
    (s.pc i).role ≠ .gone := by
  intro hi
  obtain ⟨error, stored, hpc⟩ := failed_of_gone hi
  exact h i error stored hpc

/-- **The checker raises no false alarm in a replay**, on any allocator that keeps its contract:
whatever the interleaving of the workers, as long as none has failed, the next op of a worker passes
if and only if the allocator serves it. -/
theorem replay_passes_iff_serves {magicBytes : BitVec 64} {b : Batch} {op : Op}
    {todo : List (Op × TraceLine)} (hfits : ex.Fits) (hfaithful : ex.Faithful)
    (hc : Contract A R Allowed) (h₀ : Tracks A R r₀ [])
    (hallowed : ∀ s, ∀ line ∈ ex.tracefile, ∀ input, Allowed s (requestOf line input))
    (h : CheckedReach ex A r₀ c) (hnone : ∀ i error stored, c.workers.pc i ≠ .failed error stored)
    (hpc : c.workers.pc i = .process b) (htodo : b.todo = (op, line) :: todo) :
    (∃ p r', A.run magicBytes (requestOf line (inputPtr line b.idMap)) c.runner = .ok (p, r')) ↔
      ∃ p t, A.serve (requestOf line (inputPtr line b.idMap)) c.runner.allocator = .ok (p, t) ∧
        (requestOf line (inputPtr line b.idMap)).Serves p := by
  obtain ⟨htracks, hvalid⟩ :=
    h.next_valid (not_gone_of_not_failed hnone) hfits hfaithful hc h₀ hallowed hpc htodo
  have hop : ex.IsOp op := (logInv_next hfits h.reach hpc htodo 0).isOp_last
  rw [requestOf_next hfits h.reach hpc htodo] at hvalid ⊢
  exact run_ok_iff hc htracks hvalid (hallowed _ _ hop.line_mem _)

end

/-! ## Two workers that allocate -/

/-- More ops than a batch has, each of which allocates 24 bytes. -/
abbrev mallocs : Executor := twoWorkers (.malloc ⟨none, some 24, none⟩) 600

theorem line_mallocs : ∀ line ∈ mallocs.tracefile, line = .malloc ⟨none, some 24, none⟩ :=
  fun _ hline => List.mem_singleton.mp hline

theorem fits_mallocs : mallocs.Fits where
  rewritten := ⟨mallocs.tracefile, by rfl⟩
  threads := by decide
  bound := by decide

/-- A worker that has an op to perform performs it or fails. -/
theorem WorkerStep.of_process {b : Batch} {pc' : WorkerPc} {m m' : Shared}
    (h : WorkerStep ex (.process b) m pc' m') (htodo : b.todo ≠ []) :
    pc'.role = .gone ∨ m'.performed ≠ [] := by
  cases h with
  | perform => exact .inr (List.append_ne_nil_of_right_ne_nil _ (List.cons_ne_nil _ _))
  | performError => exact .inl rfl
  | processed _ _ hnil => exact absurd hnil htodo

/-- The runner has no part in a run in which nothing has been performed and no worker has failed. -/
theorem checkedReach_of_reach {σ ε : Type} {A : Allocator σ ε} {r₀ : Runner σ} (h : ex.Reach s)
    (hperformed : s.shared.performed = []) (hnone : ∀ i, (s.pc i).role ≠ .gone) :
    CheckedReach ex A r₀ ⟨s, r₀⟩ := by
  induction h with
  | refl => exact .refl
  | @tail s s' _ hlast ih =>
    obtain ⟨i, hstep⟩ := hlast
    have hbefore : s.shared.performed = [] := by
      rcases hstep.pc_self.performed_cases with heq | ⟨_, _, _, _, _, -, -, heq⟩
      · rw [← heq, hperformed]
      · rw [hperformed] at heq
        exact absurd heq.symm (List.append_ne_nil_of_right_ne_nil _ (List.cons_ne_nil _ _))
    refine (ih hbefore fun j hj => hnone j (gone_of_step hstep hj)).tail
      ⟨i, .other (fun b hpc => ?_) hstep⟩
    by_contra htodo
    have hself := hstep.pc_self
    rw [hpc] at hself
    exact (hself.of_process htodo).elim (hnone i) fun h => h hperformed

/-- Both workers have come to their batches, and the first one has been given the start of the
heap. -/
theorem reach_mallocs : ∃ (c : Checked mallocs Reference) (b : Batch) (op : Op)
    (todo : List (Op × TraceLine)) (mem : Mem),
    CheckedReach mallocs (Reference.allocator fun s => s.mem)
      ⟨.init ⟨0x20000000, 4096⟩ fun _ => 0, ∅⟩ c ∧
    (∀ i error stored, c.workers.pc i ≠ .failed error stored) ∧
    c.workers.pc (1 : Fin 2) = .process b ∧
    b.todo = (op, .malloc ⟨none, some 24, none⟩) :: todo ∧
    liveBlocks mallocs c.workers.shared.performed = [(4096, 24)] ∧
    c.runner.allocator = ⟨⟨0x20000000, 4096⟩, 4128, mem⟩ := by
  have hline : inputAndResultIds (.malloc ⟨none, some 24, none⟩) = (none, none) := rfl
  have hbatches : mallocs.Reach (twoStates _ _ _) :=
    reach_barrier (reach_barrier (reach_batches hline) rfl) rfl
  have htodo : ∀ k endIdx, k < endIdx → (mallocs.plainBatch (mallocs.opsFrom k endIdx)).todo =
      (mallocs.op k, .malloc ⟨none, some 24, none⟩) ::
        (mallocs.plainBatch (mallocs.opsFrom (k + 1) endIdx)).todo := by
    intro k endIdx hlt
    unfold Executor.plainBatch
    rw [Executor.opsFrom_cons hlt, List.map_cons, line_twoWorkers]
  obtain ⟨mem, blocks, hrun⟩ : ∃ mem blocks, (Reference.allocator fun s => s.mem).run 7
      (.malloc 24 none) ⟨.init ⟨0x20000000, 4096⟩ fun _ => 0, ∅⟩ =
        .ok (4096, ⟨⟨⟨0x20000000, 4096⟩, 4128, mem⟩, blocks⟩) := ⟨_, _, rfl⟩
  have hreach := (checkedReach_of_reach hbatches rfl fun i => by fin_cases i <;> nofun).tail
    ⟨(0 : Fin 2), .perform rfl (htodo 0 512 (by decide)) hrun⟩
  refine ⟨_, _, _, _, mem, hreach, fun i => ?_, rfl, htodo 512 600 (by decide), rfl, rfl⟩
  fin_cases i <;> nofun

theorem serve_mallocs (mem : Mem) : (Reference.allocator fun s => s.mem).serve
    (.malloc 24 none) ⟨⟨0x20000000, 4096⟩, 4128, mem⟩ =
      .ok (4128, ⟨⟨0x20000000, 4096⟩, 4160, mem⟩) := by
  have hget : (get : Reference.RefM Reference) ⟨⟨0x20000000, 4096⟩, 4128, mem⟩ = .ok (_, _) := rfl
  show Reference.malloc 24 0 _ = _
  unfold Reference.malloc
  rw [if_neg (by decide), bind_of_ok hget]
  dsimp only
  rfl

/-- The second worker is given the block behind that of the first one. -/
theorem replay_passes_iff_serves_malloc : ∃ c : Checked mallocs Reference,
    liveBlocks mallocs c.workers.shared.performed = [(4096, 24)] ∧
      ∃ p r', (Reference.allocator fun s => s.mem).run 7 (.malloc 24 none) c.runner =
        .ok (p, r') := by
  obtain ⟨c, b, op, todo, mem, hreach, hnone, hpc, htodo, hlive, hallocator⟩ := reach_mallocs
  have h₀ : Tracks (Reference.allocator fun s => s.mem) Reference.Gives
      ⟨.init ⟨0x20000000, 4096⟩ fun _ => 0, ∅⟩ [] :=
    ⟨Reference.gives_init (by decide) (by decide) (by decide), filled_nil⟩
  have hserves : ∃ p t, (Reference.allocator fun s => s.mem).serve (.malloc 24 none)
      c.runner.allocator = .ok (p, t) ∧ (RunnerCall.malloc 24 none).Serves p := by
    rw [hallocator]
    exact ⟨4128, _, serve_mallocs mem, .inr ⟨by decide, nofun⟩⟩
  refine ⟨c, hlive, (replay_passes_iff_serves fits_mallocs
    (fun line h => by rw [line_mallocs line h]; exact nofun) Reference.contract h₀
    (allowed_of_sizes fun line h => by rw [line_mallocs line h]; decide) hreach hnone hpc
    htodo).mpr hserves⟩

/-! ## On the allocator of `allocator_interface.h` -/

section

open Checker.Reference

variable {junk : Reference → Mem} {heap : Bench.Heap} {mem₀ : Mem} {c : Checked ex Reference}
  {magicBytes : BitVec 64} {i : Fin ex.nThreads} {b : Batch} {op : Op}
  {todo : List (Op × TraceLine)}

/-- **A replay passes the checker until the heap is full**: whatever the interleaving of the
workers, as long as none has failed, the next op of a worker passes if and only if it fits. It
releases a block that has been given and not released, if it releases one. -/
theorem replay_passes_iff_fits (hfits : ex.Fits) (hfaithful : ex.Faithful)
    (hsizes : ∀ line ∈ ex.tracefile, (requestOf line none).size + 15 < 2 ^ 64)
    (hstart : 0 < heap.heapStart) (haligned : 16 ∣ heap.heapStart)
    (hsmall : heap.maxSize.toNat < 2 ^ 63)
    (h : CheckedReach ex (allocator junk) ⟨Reference.init heap mem₀, ∅⟩ c)
    (hnone : ∀ i error stored, c.workers.pc i ≠ .failed error stored)
    (hpc : c.workers.pc i = .process b) (htodo : b.todo = (op, line) :: todo) :
    ((∃ p r', (allocator junk).run magicBytes (requestOf line (inputPtr line b.idMap)) c.runner =
        .ok (p, r')) ↔ c.runner.allocator.Fits (requestOf line (inputPtr line b.idMap))) ∧
      (requestOf line (inputPtr line b.idMap)).Valid
        (liveBlocks ex c.workers.shared.performed) ∧
      c.runner.allocator.Gives (liveBlocks ex c.workers.shared.performed) := by
  have hallowed := allowed_of_sizes hsizes
  obtain ⟨htracks, hvalid⟩ := h.next_valid (not_gone_of_not_failed hnone) hfits hfaithful contract
    ⟨gives_init hstart haligned hsmall, filled_nil⟩ hallowed hpc htodo
  have hop : ex.IsOp op := (logInv_next hfits h.reach hpc htodo 0).isOp_last
  rw [requestOf_next hfits h.reach hpc htodo] at hvalid ⊢
  exact ⟨run_ok_iff_fits htracks hvalid (hallowed c.runner.allocator _ hop.line_mem _), hvalid,
    htracks.rel⟩

theorem replay_passes_iff_fits_malloc : ∃ c : Checked mallocs Reference,
    (∃ p r', (allocator fun s => s.mem).run 7 (.malloc 24 none) c.runner = .ok (p, r')) ∧
      liveBlocks mallocs c.workers.shared.performed = [(4096, 24)] ∧
      c.runner.allocator.Gives [(4096, 24)] := by
  obtain ⟨c, b, op, todo, mem, hreach, hnone, hpc, htodo, hlive, hallocator⟩ := reach_mallocs
  obtain ⟨hiff, -, hgives⟩ := replay_passes_iff_fits fits_mallocs
    (fun line h => by rw [line_mallocs line h]; exact nofun)
    (fun line h => by rw [line_mallocs line h]; decide)
    (by decide) (by decide) (by decide) hreach hnone hpc htodo
  have hroom : c.runner.allocator.Room 24 := by
    rw [hallocator]
    show 4128 + (24 + 15) / 16 * 16 ≤ 4096 + 536870912
    decide
  exact ⟨c, hiff.mpr (.inr ⟨hroom, nofun⟩), hlive, hlive ▸ hgives⟩

end

/-! ## A heap with enough room -/

/-- The bytes that an op takes from the heap. -/
def lineBytes (line : TraceLine) : Nat := ((requestOf line none).size + 15) / 16 * 16

/-- The lines of all iterations, one after the other. -/
theorem Executor.sum_opsFrom (f : TraceLine → Nat) (n : Nat) :
    ((ex.opsFrom 0 (n * ex.tracefile.length)).map fun op => f (op.line ex.tracefile)).sum =
      n * (ex.tracefile.map f).sum := by
  induction n with
  | zero => rw [Nat.zero_mul, Nat.zero_mul, Executor.opsFrom_nil (Nat.le_refl 0), List.map_nil,
      List.sum_nil]
  | succ n ih =>
    -- the ops of the last iteration are the lines of the trace
    have hiteration : (ex.opsFrom (n * ex.tracefile.length) ((n + 1) * ex.tracefile.length)).map
        (fun op => f (op.line ex.tracefile)) = ex.tracefile.map f := by
      refine List.ext_getElem ?_ fun k h₁ h₂ => ?_
      · rw [List.length_map, List.length_map, Executor.length_opsFrom, Nat.succ_mul]
        omega
      · rw [List.length_map] at h₂
        simp only [Executor.opsFrom, Executor.op, Op.line, List.getElem_map, List.getElem_range',
          Nat.one_mul, Nat.mul_add_mod_self_right, Nat.mod_eq_of_lt h₂]
        rw [List.getD_eq_getElem _ _ h₂]
    rw [← Executor.opsFrom_append (Nat.zero_le _) (Nat.mul_le_mul_right _ (Nat.le_succ n)),
      List.map_append, List.sum_append, ih, hiteration, Nat.succ_mul]

/-- Ops that are all different take no more than the whole replay. -/
theorem LogInv.sum_le (h : LogInv ex performed) (hfits : ex.Fits) (f : TraceLine → Nat) :
    (performed.map fun e => f (e.op.line ex.tracefile)).sum ≤
      ex.numRepetitions * (ex.tracefile.map f).sum := by
  -- as the ops are different, they are a part of all the ops in some order
  have hsubset : performed.map Performed.op ⊆ ex.opsFrom 0 ex.numOps := by
    intro op hop
    obtain ⟨e, he, rfl⟩ := List.mem_map.mp hop
    obtain ⟨k, hk, heq⟩ := h.isOp e he
    exact Executor.mem_opsFrom.mpr ⟨k, Nat.zero_le k, hk, heq⟩
  obtain ⟨ops, hperm, hsublist⟩ := h.nodup.subperm hsubset
  have hsum : ((performed.map Performed.op).map fun op => f (op.line ex.tracefile)).sum =
      (ops.map fun op => f (op.line ex.tracefile)).sum :=
    ((hperm.map _).sum_eq).symm
  have hle := (hsublist.map fun op => f (op.line ex.tracefile)).sum_le_sum fun _ _ => Nat.zero_le _
  rw [hfits.numOps, Executor.sum_opsFrom] at hle
  rw [List.map_map] at hsum
  exact hsum.le.trans hle

section

open Checker.Reference

variable {junk : Reference → Mem} {heap : Bench.Heap} {mem₀ : Mem} {c : Checked ex Reference}
  {magicBytes : BitVec 64} {i : Fin ex.nThreads} {b : Batch} {op : Op}
  {todo : List (Op × TraceLine)}

/-- **What a replay has used up**, until a call fails. -/
theorem CheckedReach.heapEnd
    (h : CheckedReach ex (allocator junk) ⟨Reference.init heap mem₀, ∅⟩ c)
    (hnone : ∀ i, (c.workers.pc i).role ≠ .gone) (hfits : ex.Fits) (hfaithful : ex.Faithful)
    (hsizes : ∀ line ∈ ex.tracefile, (requestOf line none).size + 15 < 2 ^ 64)
    (h₀ : Tracks (allocator junk) Gives ⟨Reference.init heap mem₀, ∅⟩ []) :
    c.runner.allocator.heap = heap ∧ c.runner.allocator.heapEnd = heap.heapStart +
      (c.workers.shared.performed.map fun e => lineBytes (e.op.line ex.tracefile)).sum := by
  have hallowed := allowed_of_sizes hsizes
  refine (h.induct (fun r performed => ProgramInv ex (allocator junk) Allowed
      ⟨Reference.init heap mem₀, ∅⟩ r performed ∧ r.allocator.heap = heap ∧
        r.allocator.heapEnd = heap.heapStart +
          (performed.map fun e => lineBytes (e.op.line ex.tracefile)).sum)
    hfits hnone ⟨.init, rfl, rfl⟩ ?_).2
  rintro r r' performed e magicBytes hlog ⟨hinv, hheap, hend⟩ hrun
  refine ⟨hinv.step hlog hfits.traced hfaithful contract h₀ hallowed hrun, ?_⟩
  have hsize : (e.request ex).size + 15 < 2 ^ 64 := hallowed r.allocator _ hlog.isOp_last.line_mem _
  obtain ⟨hheap', hend'⟩ := run_heapEnd (hinv.reach.tracks contract h₀)
    (hinv.owns.valid hlog hfits.traced hfaithful) hsize hrun
  refine ⟨hheap'.trans hheap, ?_⟩
  have hbytes : (e.request ex).size = (requestOf (e.op.line ex.tracefile) none).size :=
    requestOf_size
  rw [hend', hend, List.map_append, List.sum_append, List.map_singleton, List.sum_singleton,
    hbytes, Nat.add_assoc]
  rfl

/-- The next op of a worker passes when the heap has room for all iterations. -/
theorem CheckedReach.passes
    (h : CheckedReach ex (allocator junk) ⟨Reference.init heap mem₀, ∅⟩ c)
    (hnone : ∀ i, (c.workers.pc i).role ≠ .gone) (hfits : ex.Fits) (hfaithful : ex.Faithful)
    (hsizes : ∀ line ∈ ex.tracefile, (requestOf line none).size + 15 < 2 ^ 64)
    (hmodest : ∀ line ∈ ex.tracefile, Modest (requestOf line none))
    (hroom : ex.numRepetitions * (ex.tracefile.map lineBytes).sum ≤ heap.maxSize.toNat)
    (h₀ : Tracks (allocator junk) Gives ⟨Reference.init heap mem₀, ∅⟩ [])
    (hpc : c.workers.pc i = .process b) (htodo : b.todo = (op, line) :: todo) :
    ∃ p r', (allocator junk).run magicBytes (requestOf line (inputPtr line b.idMap)) c.runner =
      .ok (p, r') := by
  have hallowed := allowed_of_sizes hsizes
  obtain ⟨htracks, hvalid⟩ :=
    h.next_valid hnone hfits hfaithful contract h₀ hallowed hpc htodo
  have hlog := logInv_next hfits h.reach hpc htodo 0
  have hop : ex.IsOp op := hlog.isOp_last
  obtain ⟨hheap, hend⟩ := h.heapEnd hnone hfits hfaithful hsizes h₀
  rw [requestOf_next hfits h.reach hpc htodo] at hvalid ⊢
  refine (run_ok_iff_fits htracks hvalid (hallowed c.runner.allocator _ hop.line_mem _)).mpr ?_
  refine fits_of_room htracks.rel (modest_requestOf (hmodest _ hop.line_mem)) ?_
  -- the op is one of the replay and has not been performed
  have hsum := hlog.sum_le hfits lineBytes
  rw [List.map_append, List.sum_append, List.map_singleton, List.sum_singleton] at hsum
  change _ + lineBytes (op.line ex.tracefile) ≤ _ at hsum
  unfold Reference.Room
  rw [hheap, hend, requestOf_size]
  show heap.heapStart + _ + lineBytes (op.line ex.tracefile) ≤ _
  omega

/-- **No worker fails** when the heap has room for all iterations, as nothing is taken back:
whatever the interleaving of the workers, every op passes the checker. -/
theorem replay_passes (hfits : ex.Fits) (hfaithful : ex.Faithful)
    (hsizes : ∀ line ∈ ex.tracefile, (requestOf line none).size + 15 < 2 ^ 64)
    (hmodest : ∀ line ∈ ex.tracefile, Modest (requestOf line none))
    (hroom : ex.numRepetitions * (ex.tracefile.map lineBytes).sum ≤ heap.maxSize.toNat)
    (hstart : 0 < heap.heapStart) (haligned : 16 ∣ heap.heapStart)
    (hsmall : heap.maxSize.toNat < 2 ^ 63)
    (h : CheckedReach ex (allocator junk) ⟨Reference.init heap mem₀, ∅⟩ c) :
    (∀ i error stored, c.workers.pc i ≠ .failed error stored) ∧
      ∀ i b op line todo magicBytes, c.workers.pc i = .process b → b.todo = (op, line) :: todo →
        ∃ p r', (allocator junk).run magicBytes (requestOf line (inputPtr line b.idMap)) c.runner =
          .ok (p, r') := by
  have h₀ : Tracks (allocator junk) Gives ⟨Reference.init heap mem₀, ∅⟩ [] :=
    ⟨gives_init hstart haligned hsmall, filled_nil⟩
  have hnone : ∀ i, (c.workers.pc i).role ≠ .gone := by
    induction h with
    | refl => exact fun _ => nofun
    | @tail c c' h hlast ih =>
      obtain ⟨i, hby⟩ := hlast
      intro j hj
      obtain rfl : j = i := by
        by_contra hji
        rw [hby.workers.pc_of_ne hji] at hj
        exact ih j hj
      cases hby with
      | perform =>
        cases (role_update_self ..).symm.trans hj
      | performError hpc htodo hrun =>
        obtain ⟨p, r', hok⟩ := CheckedReach.passes h ih hfits hfaithful hsizes hmodest hroom h₀ hpc
          htodo
        cases hrun.symm.trans hok
      | other hother hstep =>
        -- a worker only fails where it calls the allocator
        obtain ⟨g, hinv⟩ := replayInv hfits (CheckedReach.reach h)
        have hself := hstep.pc_self
        have hnext := hself.local_next hfits.traced (hinv.locals j) hinv.shared
          (hinv.conserved.owned hfits.traced j)
        obtain ⟨b, hpc, htodo⟩ := hself.process_of_gone hnext (ih j) hj
        exact htodo (hother b hpc)
  refine ⟨fun i error stored hpc => hnone i (congrArg WorkerPc.role hpc), ?_⟩
  intro i b op line todo magicBytes hpc htodo
  exact h.passes hnone hfits hfaithful hsizes hmodest hroom h₀ hpc htodo

theorem replay_passes_malloc : ∃ c : Checked mallocs Reference, c.runner.allocator.heapEnd = 4128 ∧
    (∀ i error stored, c.workers.pc i ≠ .failed error stored) ∧
      ∃ p r', (allocator fun s => s.mem).run 7 (.malloc 24 none) c.runner = .ok (p, r') := by
  obtain ⟨c, b, op, todo, mem, hreach, -, hpc, htodo, -, hallocator⟩ := reach_mallocs
  have hpasses := replay_passes fits_mallocs
    (fun line h => by rw [line_mallocs line h]; exact nofun)
    (fun line h => by rw [line_mallocs line h]; decide)
    (fun line h => by rw [line_mallocs line h]; exact nofun)
    (by decide) (by decide) (by decide) (by decide) hreach
  exact ⟨c, by rw [hallocator], hpasses.1, hpasses.2 (1 : Fin 2) b op _ todo 7 hpc htodo⟩

end

end

end MallocBench.Replay
