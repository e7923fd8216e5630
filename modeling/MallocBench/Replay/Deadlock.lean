import MallocBench.Replay.OpFlow

/-!
# Who is left waiting

A worker that returns with an error does not arrive at the barrier any more, and does not drop out
of it. So the others are left waiting if one of them waits when it goes, or arrives later. Except
for this, a worker that has not left can always take a step or waits for one that can.

* `NotStuck`: somebody can take a step, and nobody waits for a worker that has returned.
* `RolesInv.careful_iff`: a step leads to such a state exactly if it is careful.
* `stuck_twoWorkers`: a worker is left waiting.
-/

namespace MallocBench.Replay

open Lib Trace

/-- What a worker is to the barrier. -/
def WorkerPc.role : WorkerPc → Role
  | .wait _ _ token | .waitNext token => .waiting token
  | .returned => .dropped
  | .failed _ _ => .gone
  | _ => .running

/-- The worker has returned; the thread around it then stores `done` if there are several. -/
def WorkerPc.Left (ex : Executor) : WorkerPc → Prop
  | .returned => True
  | .failed _ stored => stored = true ∨ ex.nThreads = 1
  | _ => False

theorem failed_of_gone {pc : WorkerPc} (h : pc.role = .gone) :
    ∃ error stored, pc = .failed error stored := by
  cases pc with
  | failed error stored => exact ⟨error, stored, rfl⟩
  | _ => cases h

/-- A pointer is loaded for an op. -/
def WorkerPc.Loads : WorkerPc → Prop
  | .load mk _ _ => mk.todo ≠ []
  | _ => True

/-- A worker that has not returned is able to take a step if there is one, and no worker waits at
the barrier for one that has returned without dropping out of it. -/
structure NotStuck (ex : Executor) (s : Workers ex) : Prop where
  step : (∃ i, ¬ (s.pc i).Left ex) → ∃ i s', Threads.StepBy (WorkerStep ex) i s s'
  barrier : ∀ i j, (s.pc i).role = .gone → (s.pc j).role ≠ .waiting s.shared.barrier.phase

/-- In a step of worker `i` from `s` to `s'`, the worker does not fail while others wait at the
barrier, and does not begin to wait once others have failed. -/
def Careful {ex : Executor} (i : Fin ex.nThreads) (s s' : Workers ex) : Prop :=
  s.shared.barrier.Careful (fun j => (s.pc j).role) (s.pc i).role (s'.pc i).role

section

variable {ex : Executor} {s s' : Workers ex} {i : Fin ex.nThreads} {pc pc' : WorkerPc} {m m' : Shared}

/-! ## The steps -/

theorem WorkerPc.role_range (t : Taking) (first : Nat) :
    (WorkerPc.range ex t first).role = .running := by
  unfold WorkerPc.range
  dsimp only
  split_ifs <;> rfl

/-- What a step of a worker does with the barrier. -/
theorem WorkerStep.roleStep (h : WorkerStep ex pc m pc' m') :
    Barrier.RoleStep pc.role m.barrier pc'.role m'.barrier := by
  cases h with
  | fetchAdd t =>
    have hrole : (if ex.numOps ≤ m.idx then WorkerPc.clamp t else .range ex t m.idx).role =
        .running := by
      split_ifs
      · rfl
      · exact WorkerPc.role_range t _
    rw [hrole]
    exact .run
  | clamp t =>
    rw [WorkerPc.role_range]
    exact .run
  | resume b second token _ h =>
    have hrole : (if second then WorkerPc.process b else .arrive b true).role = .running := by
      split_ifs <;> rfl
    rw [hrole]
    exact .resume h
  | resumeNext token _ h => exact .resume h
  | arrive | arriveNext => exact .arrive
  | drop => exact .drop
  | makeLocalError | lookupNone | addFreeError | addResultError | performError | assignError =>
    exact .leave
  | storeDone => exact .stay
  | _ => exact .run

theorem WorkerStep.loads (h : WorkerStep ex pc m pc' m') : pc'.Loads := by
  cases h with
  | fetchAdd t =>
    split_ifs
    · trivial
    · unfold WorkerPc.range
      dsimp only
      split_ifs <;> trivial
  | clamp t =>
    unfold WorkerPc.range
    dsimp only
    split_ifs <;> trivial
  | resume b second => split_ifs <;> trivial
  | lookup mk _ htodo | lookupPending mk _ htodo =>
    show mk.todo ≠ []
    rw [htodo]
    exact List.cons_ne_nil _ _
  | _ => trivial

/-- **A worker that does not wait** for others and has not returned is able to take a step. -/
theorem WorkerStep.exists_step (hloads : pc.Loads) (hleft : ¬ pc.Left ex)
    (hwait : pc.role ≠ .waiting m.barrier.phase) : ∃ pc' m', WorkerStep ex pc m pc' m' := by
  cases pc with
  | head =>
    by_cases hdone : m.done
    · exact ⟨_, _, .stop m hdone⟩
    · exact ⟨_, _, .loop m hdone⟩
  | takeFromQueue => exact ⟨_, _, .takeFromQueue m⟩
  | claim t =>
    by_cases h : t.remaining = 0
    · exact ⟨_, _, .enough t m h⟩
    · exact ⟨_, _, .fetchAdd t m h⟩
  | clamp t => exact ⟨_, _, .clamp t m⟩
  | scan t k endIdx =>
    by_cases h : k < endIdx
    · exact ⟨_, _, .scan t k endIdx m h rfl⟩
    · exact ⟨_, _, .scanned t k endIdx m h⟩
  | prepared ops => exact ⟨_, _, .start ops m fun _ => 0⟩
  | make mk =>
    cases htodo : mk.todo with
    | nil =>
      by_cases hmade : mk.made = []
      · exact ⟨_, _, .empty mk m htodo hmade⟩
      · exact ⟨_, _, .made mk m htodo hmade⟩
    | cons op todo =>
      by_cases hlocal : ∀ id, (op.uniqueIds ex.tracefile).1 = some id → id ∈ mk.idToIdx
      · cases h : (mk.state m.idMap).addOp op ex.tracefile with
        | ok r => exact ⟨_, _, .makeLocal mk m htodo hlocal h⟩
        | error error => exact ⟨_, _, .makeLocalError mk m htodo hlocal h⟩
      · push Not at hlocal
        obtain ⟨id, hid, hnot⟩ := hlocal
        cases h : m.idMap.lookup id with
        | none => exact ⟨_, _, .lookupNone mk m htodo hid hnot h⟩
        | some val =>
          cases val with
          | allocatedPtr ptr => exact ⟨_, _, .lookup mk m htodo hid hnot h⟩
          | idx op' => exact ⟨_, _, .lookupPending mk m htodo hid hnot h 0⟩
  | load mk id ptr =>
    obtain ⟨op, todo, htodo⟩ := List.exists_cons_of_ne_nil hloads
    cases hfree : Replay.addFree m.idMap id with
    | error error => exact ⟨_, _, .addFreeError mk id ptr m hfree⟩
    | ok idMap =>
      cases h : (mk.loaded ptr idMap).addResult
          (setInputId mk.idGen.fresh.1 (op.line ex.tracefile)) (op.uniqueIds ex.tracefile).2 with
      | ok r => exact ⟨_, _, .addFree mk id ptr m htodo hfree h⟩
      | error error => exact ⟨_, _, .addResultError mk id ptr m htodo hfree h⟩
  | arrive b second => exact ⟨_, _, .arrive b second m⟩
  | wait b second token => exact ⟨_, _, .resume b second token m fun heq => hwait (by rw [← heq]; rfl)⟩
  | process b =>
    cases htodo : b.todo with
    | nil => exact ⟨_, _, .processed b m htodo (List.Perm.refl _)⟩
    | cons entry todo => exact ⟨_, _, .perform b m htodo 0⟩
  | flush records =>
    cases records with
    | nil => exact ⟨_, _, .flushed m⟩
    | cons record records =>
      cases h : m.idMap.lookup record.1 with
      | none => exact ⟨_, _, .insert _ _ records m (AList.lookup_eq_none.mp h)⟩
      | some val =>
        cases val with
        | allocatedPtr ptr' => exact ⟨_, _, .notPending _ _ records m h ⟨0, 0⟩⟩
        | idx op => exact ⟨_, _, .pending _ _ records m h⟩
  | assign id ptr op records =>
    by_cases h : id ∈ m.idMap
    · exact ⟨_, _, .assign id ptr op records m h⟩
    · exact ⟨_, _, .assignError id ptr op records m h⟩
  | push op records => exact ⟨_, _, .push op records m⟩
  | arriveNext => exact ⟨_, _, .arriveNext m⟩
  | waitNext token => exact ⟨_, _, .resumeNext token m fun heq => hwait (by rw [← heq]; rfl)⟩
  | drop => exact ⟨_, _, .drop m⟩
  | returned => exact absurd trivial hleft
  | failed error stored =>
    unfold WorkerPc.Left at hleft
    push Not at hleft
    obtain rfl : stored = false := Bool.eq_false_iff.mpr hleft.1
    exact ⟨_, _, .storeDone error m hleft.2⟩

/-! ## Runs -/

/-- The barrier counts the workers, in every run. -/
structure RolesInv (ex : Executor) (s : Workers ex) : Prop where
  counts : s.shared.barrier.Counts fun i => (s.pc i).role
  loads : ∀ i, (s.pc i).Loads

theorem RolesInv.init (ex : Executor) : RolesInv ex ex.init where
  counts := by
    have hcounts : (Barrier.init (Fintype.card (Fin ex.nThreads))).Counts
        fun i => (ex.init.pc i).role := .init fun _ => rfl
    rw [Fintype.card_fin] at hcounts
    exact hcounts
  loads _ := trivial

theorem RolesInv.step (h : RolesInv ex s) (hstep : Threads.StepBy (WorkerStep ex) i s s') :
    RolesInv ex s' where
  counts := h.counts.step (fun j hj => by rw [hstep.pc_of_ne hj]) hstep.pc_self.roleStep
  loads j := by
    by_cases hj : j = i
    · exact hj ▸ hstep.pc_self.loads
    · rw [hstep.pc_of_ne hj]
      exact h.loads j

theorem rolesInv (h : ex.Reach s) : RolesInv ex s :=
  h.induct _ (.init ex) fun _ _ _ hinv hstep => hinv.step hstep

/-- A worker that is gone or waiting, and not able to take a step, waits for a worker that is gone. -/
theorem RolesInv.notStuck_iff (h : RolesInv ex s) :
    NotStuck ex s ↔ ¬ s.shared.barrier.Forsakes fun i => (s.pc i).role := by
  constructor
  · rintro hstuck ⟨i, j, hi, hj⟩
    exact hstuck.barrier i j hi hj
  · refine fun hno => ⟨fun ⟨i, hi⟩ => ?_, fun i j hi hj => hno ⟨i, j, hi, hj⟩⟩
    by_contra hstuck
    have hblocked : ∀ j, ¬ (s.pc j).Left ex → (s.pc j).role = .waiting s.shared.barrier.phase := by
      intro j hj
      by_contra hwait
      obtain ⟨pc', m', hstep⟩ := WorkerStep.exists_step (h.loads j) hj hwait
      exact hstuck ⟨j, _, Threads.StepBy.intro rfl hstep⟩
    have hrun : ∀ j, (s.pc j).role ≠ .running := by
      intro j hj
      by_cases hleft : (s.pc j).Left ex
      · cases hpc : s.pc j <;> rw [hpc] at hleft hj <;> cases hj <;> exact hleft
      · rw [hblocked j hleft] at hj
        cases hj
    have htoken : ∀ j t, (s.pc j).role = .waiting t → t = s.shared.barrier.phase := by
      intro j t hj
      have hleft : ¬ (s.pc j).Left ex := by
        intro hleft
        cases hpc : s.pc j <;> rw [hpc] at hleft hj <;> first | exact hleft | cases hj
      rw [hblocked j hleft] at hj
      exact (Role.waiting.inj hj).symm
    obtain ⟨j, hj⟩ := h.counts.exists_gone hrun htoken ⟨i, _, hblocked i hi⟩
    exact hno ⟨j, i, hj, hblocked i hi⟩

theorem notStuck_init (ex : Executor) : NotStuck ex ex.init := by
  refine (RolesInv.init ex).notStuck_iff.mpr ?_
  rintro ⟨i, -, hi, -⟩
  cases hi

/-- **A careful step** leaves nobody stuck, and only such a step. -/
theorem RolesInv.careful_iff (h : RolesInv ex s) (hnot : NotStuck ex s)
    (hstep : Threads.StepBy (WorkerStep ex) i s s') : Careful i s s' ↔ NotStuck ex s' := by
  rw [(h.step hstep).notStuck_iff]
  have hne : ∀ j, j ≠ i → (s'.pc j).role = (s.pc j).role := fun j hj => by rw [hstep.pc_of_ne hj]
  unfold Careful
  exact Barrier.forsakes_iff h.counts (h.notStuck_iff.mp hnot) hne hstep.pc_self.roleStep

/-! ## Ops without ids -/

/-- A run of one worker by itself. -/
abbrev WorkerRun (ex : Executor) : WorkerPc × Shared → WorkerPc × Shared → Prop :=
  Relation.ReflTransGen fun a b => WorkerStep ex a.1 a.2 b.1 b.2

theorem WorkerRun.cons {b : WorkerPc × Shared} (h : WorkerStep ex pc m pc' m')
    (hrun : WorkerRun ex (pc', m') b) : WorkerRun ex (pc, m) b :=
  Relation.ReflTransGen.head (r := fun a b : WorkerPc × Shared => WorkerStep ex a.1 a.2 b.1 b.2) h
    hrun

/-- Without more ops in the trace, the ops that the worker has are prepared. -/
theorem rest_plain (t : Taking) (m : Shared) (hremaining : t.remaining ≠ 0) (hle : ex.numOps ≤ m.idx)
    (hlt : ex.numOps + kBatchSize < 2 ^ 64) :
    WorkerRun ex (.claim t, m) (.prepared t.ops, { m with idx := ex.numOps }) := by
  have hrange : WorkerPc.range ex t ex.numOps = .prepared t.ops := by
    have hbatch : t.remaining ≤ kBatchSize := by
      unfold Taking.remaining
      omega
    rw [WorkerPc.range, Nat.mod_eq_of_lt (by omega)]
    exact if_pos (by omega)
  have hclaim : WorkerStep ex (.claim t) m _ _ := .fetchAdd t m hremaining
  rw [if_pos hle] at hclaim
  have hclamp : WorkerStep ex (.clamp t) { m with idx := (m.idx + t.remaining) % 2 ^ 64 } _ _ :=
    .clamp t _
  rw [hrange] at hclamp
  exact .cons hclaim (.cons hclamp .refl)

/-- No line of the trace has ids. -/
def Executor.Plain (ex : Executor) : Prop :=
  ∀ line ∈ ex.tracefile, inputAndResultIds line = (none, none)

/-- The batch of ops without ids. -/
def Executor.plainBatch (ex : Executor) (ops : List Op) : Batch where
  todo := ops.map fun op => (op, op.line ex.tracefile)
  idToIdx := ∅
  idMap _ := 0

section Plain

variable (hplain : ex.Plain)

include hplain

theorem line_plain (op : Op) : inputAndResultIds (op.line ex.tracefile) = (none, none) := by
  unfold Op.line
  rcases lt_or_ge op.lineIdx ex.tracefile.length with hlt | hge
  · rw [List.getD_eq_getElem _ _ hlt]
    exact hplain _ (List.getElem_mem hlt)
  · rw [List.getD_eq_default _ _ hge]
    rfl

theorem uniqueIds_plain (op : Op) : op.uniqueIds ex.tracefile = (none, none) := by
  unfold Op.uniqueIds
  rw [line_plain hplain]
  rfl

/-- Every op can be done. -/
theorem scan_plain (m : Shared) (endIdx : Nat) (t : Taking) (k : Nat) :
    WorkerRun ex (.scan t k endIdx, m)
      (.claim { t with traceOps := t.traceOps ++ ex.opsFrom k endIdx }, m) := by
  induction hd : endIdx - k generalizing t k with
  | zero =>
    rw [Executor.opsFrom_nil (by omega), List.append_nil]
    exact .single (.scanned t k endIdx m (by omega))
  | succ d ih =>
    have hcan : Taking.canDoOpOrQueue ex.tracefile t.localAllocations m.idMap (ex.op k) =
        (true, t.localAllocations, m.idMap) := by
      unfold Taking.canDoOpOrQueue
      rw [uniqueIds_plain hplain]
      rfl
    refine WorkerRun.cons (.scan t k endIdx m (by omega) hcan) ?_
    rw [Executor.opsFrom_cons (by omega), List.append_cons]
    exact ih _ (k + 1) (by omega)

/-- The ops become their lines. -/
theorem make_plain (m : Shared) (todo : List Op) (mk : Making) (htodo : mk.todo = todo) :
    WorkerRun ex (.make mk, m) (.make { mk with
      made := mk.made ++ todo.map fun op => (op, op.line ex.tracefile)
      todo := [] }, m) := by
  induction todo generalizing mk with
  | nil =>
    rw [List.map_nil, List.append_nil, ← htodo]
  | cons op todo ih =>
    have hadd : (mk.state m.idMap).addOp op ex.tracefile =
        .ok (mk.state m.idMap, op.line ex.tracefile) := by
      unfold BatchState.addOp
      rw [uniqueIds_plain hplain]
      rfl
    have hlocal : ∀ id, (op.uniqueIds ex.tracefile).1 = some id → id ∈ mk.idToIdx := by
      rw [uniqueIds_plain hplain]
      exact fun id hid => nomatch hid
    refine WorkerRun.cons (.makeLocal mk m htodo hlocal hadd) ?_
    have hrest := ih (mk.next (mk.state m.idMap) op (op.line ex.tracefile) todo) rfl
    rwa [Making.next, List.append_assoc] at hrest

/-- The first ops that a worker claims. -/
theorem claim_plain (m : Shared) (hdone : m.done = false) (hqueue : m.queuedOps = [])
    (hlt : m.idx < ex.numOps) (hle : m.idx + kBatchSize < 2 ^ 64) :
    WorkerRun ex (.head, m)
      (.claim ⟨[], ex.opsFrom m.idx (min (m.idx + kBatchSize) ex.numOps), ∅⟩,
        { m with idx := m.idx + kBatchSize }) := by
  have hremaining : (⟨[], [], ∅⟩ : Taking).remaining = kBatchSize := rfl
  have hmod : (m.idx + kBatchSize) % 2 ^ 64 = m.idx + kBatchSize := Nat.mod_eq_of_lt hle
  have hrange : (if ex.numOps ≤ m.idx then WorkerPc.clamp ⟨[], [], ∅⟩ else .range ex ⟨[], [], ∅⟩ m.idx) =
      .scan ⟨[], [], ∅⟩ m.idx (min (m.idx + kBatchSize) ex.numOps) := by
    have hpos : 0 < kBatchSize := by decide
    rw [if_neg (Nat.not_le_of_gt hlt), WorkerPc.range, hremaining, hmod]
    exact if_neg (by omega)
  have hclaim : WorkerStep ex (.claim ⟨[], [], ∅⟩) m _ _ := .fetchAdd ⟨[], [], ∅⟩ m (by decide)
  rw [hrange, hremaining, hmod] at hclaim
  have hsame : { m with queuedOps := [] } = m := by rw [← hqueue]
  have htake : WorkerStep ex .takeFromQueue m _ _ := .takeFromQueue m
  rw [hqueue, List.take_nil, List.drop_nil, hsame] at htake
  exact .cons (.loop m (by simp [hdone])) (.cons htake (.cons hclaim (scan_plain hplain _ _ _ _)))

/-- The batch of the ops. -/
theorem prepared_plain (m : Shared) {ops : List Op} (hops : ops ≠ []) :
    WorkerRun ex (.prepared ops, m) (.arrive (ex.plainBatch ops) false, m) := by
  have hmake := make_plain hplain m ops (.start ops fun _ => 0) rfl
  exact .cons (.start ops m fun _ => 0) (hmake.tail (.made _ m rfl (by simpa [Making.start] using hops)))

/-- The ops are performed. -/
theorem perform_plain (ops : List Op) (m : Shared) :
    WorkerRun ex (.process (ex.plainBatch ops), m) (.process (ex.plainBatch []),
      { m with performed := m.performed ++ ops.map fun op => ⟨op, none, 0⟩ }) := by
  induction ops generalizing m with
  | nil =>
    rw [List.map_nil, List.append_nil]
  | cons op ops ih =>
    have hline := line_plain hplain op
    have hslots : processLine (op.line ex.tracefile) (fun _ => 0) 0 = fun _ => 0 := by
      cases hop : op.line ex.tracefile <;> rw [hop] at hline <;>
        simp_all [inputAndResultIds, processLine, doMalloc, doCalloc]
    have hinput : inputPtr (op.line ex.tracefile) (fun _ => 0) = none := by
      unfold inputPtr
      rw [hline]
      rfl
    have hperform : WorkerStep ex (.process (ex.plainBatch (op :: ops))) m
        (.process { ex.plainBatch ops with
          idMap := processLine (op.line ex.tracefile) (fun _ => 0) 0 })
        { m with performed := m.performed ++
          [⟨op, inputPtr (op.line ex.tracefile) fun _ => 0, 0⟩] } := .perform _ m rfl 0
    rw [hslots, hinput] at hperform
    refine WorkerRun.cons hperform ?_
    have hrest := ih { m with performed := m.performed ++ [⟨op, none, 0⟩] }
    rwa [List.append_assoc] at hrest

end Plain

end

/-! ## Two workers -/

/-- A trace of one line, for two workers. -/
def twoWorkers (line : TraceLine) (numRepetitions : Nat) : Executor where
  tracefile := [line]
  numRepetitions := numRepetitions
  nThreads := 2

/-- Frees of no pointer, fewer and more than a batch has. -/
abbrev nullFree : Executor := twoWorkers (.free ⟨none, none, none⟩) 1

abbrev nullFrees : Executor := twoWorkers (.free ⟨none, none, none⟩) 600

/-- Both workers, and what they share. -/
def twoStates (pc₀ pc₁ : WorkerPc) (m : Shared) : Threads (Fin 2) WorkerPc Shared :=
  ⟨![pc₀, pc₁], m⟩

section TwoWorkers

variable {line : TraceLine} {n : Nat} {pc₀ pc₁ pc' : WorkerPc} {m m' : Shared}

theorem step_first (h : WorkerStep (twoWorkers line n) pc₀ m pc' m') :
    Threads.StepBy (WorkerStep (twoWorkers line n)) (0 : Fin 2) (twoStates pc₀ pc₁ m)
      (twoStates pc' pc₁ m') := by
  refine ⟨pc', h, ?_⟩
  ext i
  fin_cases i <;> rfl

theorem step_second (h : WorkerStep (twoWorkers line n) pc₁ m pc' m') :
    Threads.StepBy (WorkerStep (twoWorkers line n)) (1 : Fin 2) (twoStates pc₀ pc₁ m)
      (twoStates pc₀ pc' m') := by
  refine ⟨pc', h, ?_⟩
  ext i
  fin_cases i <;> rfl

theorem reach_first (h : (twoWorkers line n).Reach (twoStates pc₀ pc₁ m))
    (hrun : WorkerRun (twoWorkers line n) (pc₀, m) (pc', m')) : (twoWorkers line n).Reach (twoStates pc' pc₁ m') :=
  h.trans (hrun.lift (fun a => twoStates a.1 pc₁ a.2) fun _ _ hstep => ⟨_, step_first hstep⟩)

theorem reach_second (h : (twoWorkers line n).Reach (twoStates pc₀ pc₁ m))
    (hrun : WorkerRun (twoWorkers line n) (pc₁, m) (pc', m')) : (twoWorkers line n).Reach (twoStates pc₀ pc' m') :=
  h.trans (hrun.lift (fun a => twoStates pc₀ a.1 a.2) fun _ _ hstep => ⟨_, step_second hstep⟩)

/-- Both workers arrive, and both come back. -/
theorem reach_barrier {b₀ b₁ : Batch} {second : Bool} {phase : Nat}
    (h : (twoWorkers line n).Reach (twoStates (.arrive b₀ second) (.arrive b₁ second) m))
    (hbarrier : m.barrier = ⟨2, 2, phase⟩) :
    (twoWorkers line n).Reach (twoStates (if second then .process b₀ else .arrive b₀ true)
      (if second then .process b₁ else .arrive b₁ true) { m with barrier := ⟨2, 2, phase + 1⟩ }) := by
  have harrive : m.barrier.arrive = ⟨2, 1, phase⟩ := by rw [hbarrier]; rfl
  have hfirst : WorkerStep (twoWorkers line n) (.arrive b₀ second) m _ _ := .arrive b₀ second m
  rw [harrive, hbarrier] at hfirst
  have hsecond : WorkerStep (twoWorkers line n) (.arrive b₁ second) { m with barrier := ⟨2, 1, phase⟩ } _ _ :=
    .arrive b₁ second _
  have h₁ := reach_first h (.single hfirst)
  have h₂ := reach_second h₁ (.single hsecond)
  have hphase : phase ≠ phase + 1 := by omega
  have h₃ := reach_first h₂ (.single (.resume b₀ second phase _ hphase))
  exact reach_second h₃ (.single (.resume b₁ second phase _ hphase))

theorem plain_twoWorkers (hline : inputAndResultIds line = (none, none)) :
    (twoWorkers line n).Plain := by
  intro line' hline'
  obtain rfl := List.mem_singleton.mp hline'
  exact hline

theorem reach_heads : (twoWorkers line n).Reach
    (twoStates .head .head ⟨0, false, ∅, [], ⟨2, 2, 0⟩, [], false⟩) := by
  have hinit : (twoWorkers line n).init =
      twoStates .head .head ⟨0, false, ∅, [], ⟨2, 2, 0⟩, [], false⟩ := by
    unfold twoStates Executor.init
    congr
    ext i
    fin_cases i <;> rfl
  rw [← hinit]
  exact .refl

theorem opsFrom_ne_nil {ex : Executor} {i endIdx : Nat} (h : i < endIdx) :
    ex.opsFrom i endIdx ≠ [] := by
  rw [Executor.opsFrom_cons h]
  exact List.cons_ne_nil _ _

theorem numOps_twoWorkers (hn : n < 2 ^ 64) : (twoWorkers line n).numOps = n := by
  show n * 1 % 2 ^ 64 = n
  rw [Nat.mul_one, Nat.mod_eq_of_lt hn]

theorem line_twoWorkers (k : Nat) :
    ((twoWorkers line n).op k).line (twoWorkers line n).tracefile = line := by
  show [line].getD (k % 1) .opNotSet = line
  rw [Nat.mod_one]
  rfl

/-- The first worker claims a whole batch, and the second one the rest. -/
theorem reach_batches (hline : inputAndResultIds line = (none, none)) : (twoWorkers line 600).Reach
    (twoStates
      (.arrive ((twoWorkers line 600).plainBatch ((twoWorkers line 600).opsFrom 0 512)) false)
      (.arrive ((twoWorkers line 600).plainBatch ((twoWorkers line 600).opsFrom 512 600)) false)
      ⟨600, false, ∅, [], ⟨2, 2, 0⟩, [], false⟩) := by
  have hplain : (twoWorkers line 600).Plain := plain_twoWorkers hline
  have hnum : (twoWorkers line 600).numOps = 600 := numOps_twoWorkers (by decide)
  have hlength : ∀ i endIdx, ((twoWorkers line 600).opsFrom i endIdx).length = endIdx - i :=
    fun _ _ => Executor.length_opsFrom
  have hremaining : ∀ i endIdx, (⟨[], (twoWorkers line 600).opsFrom i endIdx, ∅⟩ : Taking).remaining =
      512 - (endIdx - i) := by
    intro i endIdx
    rw [Taking.remaining, hlength]
    rfl
  have hclaim : WorkerRun (twoWorkers line 600)
      (.head, ⟨0, false, ∅, [], ⟨2, 2, 0⟩, [], false⟩) _ :=
    claim_plain hplain _ rfl rfl (by rw [hnum]; decide) (by decide)
  rw [hnum] at hclaim
  have h₂ := reach_first reach_heads hclaim
  have hfull : WorkerStep (twoWorkers line 600) _ _ _ _ :=
    .enough ⟨[], (twoWorkers line 600).opsFrom 0 512, ∅⟩ ⟨512, false, ∅, [], ⟨2, 2, 0⟩, [], false⟩
      (hremaining 0 512)
  have h₃ := reach_first h₂ (.single hfull)
  have h₄ := reach_first h₃ (prepared_plain hplain _ (opsFrom_ne_nil (by decide)))
  have hrest : WorkerRun (twoWorkers line 600)
      (.head, ⟨512, false, ∅, [], ⟨2, 2, 0⟩, [], false⟩) _ :=
    claim_plain hplain _ rfl rfl (by rw [hnum]; decide) (by decide)
  rw [hnum] at hrest
  have h₅ := reach_second h₄ hrest
  have h₆ := reach_second h₅ (rest_plain _ _ (by rw [hremaining]; decide) (by rw [hnum]; decide)
    (by rw [hnum]; decide))
  have h₇ := reach_second h₆ (prepared_plain hplain _ (opsFrom_ne_nil (by decide)))
  rw [hnum] at h₇
  exact h₇

/-- **A worker is left waiting**: the other one has failed in its batch. The trace is accepted, and
no worker is able to take a step. -/
theorem stuck_twoWorkers : rewriteIdsToUnique nullFrees.tracefile = .ok nullFrees.tracefile ∧
    ¬ ∀ s, nullFrees.Reach s → (∃ i, ¬ (s.pc i).Left nullFrees) →
      ∃ i s', Threads.StepBy (WorkerStep nullFrees) i s s' := by
  refine ⟨by rfl, fun hno => ?_⟩
  have hline : inputAndResultIds (.free ⟨none, none, none⟩) = (none, none) := rfl
  have h₂ := reach_barrier (reach_barrier (reach_batches hline) rfl) rfl
  have hne : (nullFrees.plainBatch (nullFrees.opsFrom 0 512)).todo ≠ [] := by
    simpa [Executor.plainBatch] using opsFrom_ne_nil (by decide)
  -- the first worker fails
  have h₃ := reach_first h₂ (.single (.performError _ _ hne))
  have h₄ := reach_first h₃ (.single (.storeDone _ _ (by decide)))
  -- the second one performs its ops and arrives
  have h₅ := reach_second h₄ (perform_plain (plain_twoWorkers rfl) _ _)
  have h₆ := reach_second h₅ (.single (.processed _ _ rfl (List.Perm.refl _)))
  have h₇ := reach_second h₆ (.single (.flushed _))
  have h₈ := reach_second h₇ (.single (.arriveNext _))
  obtain ⟨i, s', hstep⟩ := hno _ h₈ ⟨(1 : Fin 2), id⟩
  have hself := hstep.pc_self
  generalize s'.pc i = pc', s'.shared = m' at hself
  fin_cases i
  · cases hself
  · cases hself with
    | resumeNext token _ h => exact h rfl

end TwoWorkers

end MallocBench.Replay
