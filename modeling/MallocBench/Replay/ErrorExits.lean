import MallocBench.Replay.Deadlock

/-!
# Failures that nobody waits for

A round of a worker has three parts, each of which ends at the barrier: it prepares a batch, it has
nothing to do, and it performs and flushes the batch. The workers go through the parts together
(`RoundInv`). A worker that returns with an error is waited for by those that get through the part
in which it fails, and by nobody else.

* `AllOrNone`: a part of a round fails for all workers or for none.
* `notStuck_of_allOrNone`: then nobody is stuck, and otherwise somebody is, at the next barrier.
-/

namespace MallocBench.Replay

open Lib Trace

/-- The part of a round that ends at the next barrier. -/
def WorkerPc.part : WorkerPc → Nat
  | .arrive _ true | .wait _ true _ => 1
  | .process _ | .flush _ | .assign _ _ _ _ | .push _ _ | .arriveNext | .waitNext _ => 2
  | _ => 0

/-- The worker has got through this part, and the barrier is next. -/
def WorkerPc.Through : WorkerPc → Prop
  | .arrive _ _ | .wait _ _ _ | .arriveNext | .waitNext _ => True
  | _ => False

/-- In a step of worker `i` from `s` to `s'`, the worker returns with an error only if no worker has
got through this part of the round, and it gets through a part only if no worker has returned with
an error. -/
structure AllOrNone {ex : Executor} (i : Fin ex.nThreads) (s s' : Workers ex) : Prop where
  error : ∀ error, s'.pc i = .failed error false →
    ∀ j, (s.pc j).Through → (s.pc j).part ≠ (s.pc i).part
  through : ¬ (s.pc i).Through → (s'.pc i).Through → ∀ j error stored, s.pc j ≠ .failed error stored

section

variable {ex : Executor} {s s' : Workers ex} {i j : Fin ex.nThreads} {pc pc' : WorkerPc}
  {m m' : Shared} {token : Nat}

/-! ## The steps -/

/-- The first part goes on after a range of ops has been claimed. -/
theorem WorkerPc.range_part (t : Taking) (first : Nat) :
    (WorkerPc.range ex t first).part = 0 ∧ ¬ (WorkerPc.range ex t first).Through := by
  unfold WorkerPc.range
  dsimp only
  split_ifs
  · exact ⟨rfl, id⟩
  · exact ⟨rfl, id⟩

theorem WorkerPc.through_of_waiting (h : pc.role = .waiting token) : pc.Through := by
  cases pc with
  | wait b second | waitNext => trivial
  | _ => cases h

/-- A worker goes from part to part when it has waited. -/
theorem WorkerStep.partStep (h : WorkerStep ex pc m pc' m') :
    Barrier.PartStep 3 pc.role pc'.role pc.part pc'.part := by
  cases h with
  | fetchAdd t =>
    refine ⟨fun _ _ => ?_, nofun⟩
    split_ifs
    · rfl
    · exact (WorkerPc.range_part t _).1
  | clamp t => exact ⟨fun _ _ => (WorkerPc.range_part t _).1, nofun⟩
  | resume b second =>
    refine ⟨nofun, fun _ _ => ?_⟩
    cases second <;> rfl
  | resumeNext => exact ⟨nofun, fun _ _ => by simp [WorkerPc.part]⟩
  | arrive b second =>
    refine ⟨fun _ _ => ?_, nofun⟩
    cases second <;> rfl
  | performError | assignError | storeDone | drop =>
    refine ⟨fun _ hrole => ?_, nofun⟩
    obtain hrole | ⟨_, hrole⟩ := hrole <;> cases hrole
  | _ => exact ⟨fun _ _ => rfl, nofun⟩

/-- **How a worker stops**: it drops out, arrives at the barrier when it has got through a part, or
returns with an error from the first part or the last one, before the barrier. -/
theorem WorkerStep.stop_cases (h : WorkerStep ex pc m pc' m') :
    pc'.role = .running ∨ pc'.role = .dropped ∨
      (pc.role = .running ∧ pc.Through ∧ ∃ token, pc'.role = .waiting token) ∨
      (pc.role = .running ∧ pc.part ≠ 1 ∧ ¬ pc.Through ∧ ∃ error, pc' = .failed error false) ∨
      (pc.role = .gone ∧ ∃ error, pc' = .failed error true) := by
  cases h with
  | makeLocalError | lookupNone | addFreeError | addResultError | performError | assignError =>
    exact .inr (.inr (.inr (.inl ⟨rfl, nofun, id, _, rfl⟩)))
  | storeDone error => exact .inr (.inr (.inr (.inr ⟨rfl, error, rfl⟩)))
  | arrive | arriveNext => exact .inr (.inr (.inl ⟨rfl, trivial, _, rfl⟩))
  | drop => exact .inr (.inl rfl)
  | fetchAdd t =>
    refine .inl ?_
    split_ifs
    · rfl
    · exact WorkerPc.role_range _ _
  | clamp t => exact .inl (WorkerPc.role_range _ _)
  | resume b second =>
    refine .inl ?_
    cases second <;> rfl
  | _ => exact .inl rfl

/-- A worker that is gone has returned with an error. -/
theorem WorkerStep.error_of_gone (h : WorkerStep ex pc m pc' m') (hno : pc.role ≠ .gone)
    (hgone : pc'.role = .gone) : ∃ error, pc' = .failed error false := by
  rcases h.stop_cases with hrun | hdrop | ⟨-, -, _, hwait⟩ | ⟨-, -, -, herror⟩ | ⟨hstored, -⟩
  · cases hrun.symm.trans hgone
  · cases hdrop.symm.trans hgone
  · cases hwait.symm.trans hgone
  · exact herror
  · exact absurd hstored hno

theorem WorkerStep.of_error {error : WorkerError} (h : WorkerStep ex pc m pc' m')
    (herror : pc' = .failed error false) : pc.role = .running ∧ pc.part ≠ 1 ∧ ¬ pc.Through := by
  subst herror
  rcases h.stop_cases with hrun | hdrop | ⟨-, -, _, hwait⟩ | ⟨hrun, hpart, hno, -⟩ | ⟨-, _, hstored⟩
  · cases hrun
  · cases hdrop
  · cases hwait
  · exact ⟨hrun, hpart, hno⟩
  · cases hstored

theorem WorkerStep.of_arrived (h : WorkerStep ex pc m pc' m') (hwait : pc'.role = .waiting token) :
    pc.role = .running ∧ pc.Through := by
  rcases h.stop_cases with hrun | hdrop | ⟨hrun, hthrough, -⟩ | ⟨-, -, -, _, rfl⟩ | ⟨-, _, rfl⟩
  · cases hrun.symm.trans hwait
  · cases hdrop.symm.trans hwait
  · exact ⟨hrun, hthrough⟩
  · cases hwait
  · cases hwait

theorem WorkerStep.of_through (h : WorkerStep ex pc m pc' m') (hno : ¬ pc.Through)
    (hthrough : pc'.Through) : pc'.role = .running := by
  cases h with
  | made | flushed => rfl
  | fetchAdd t =>
    split_ifs at hthrough
    · exact hthrough.elim
    · exact ((WorkerPc.range_part t _).2 hthrough).elim
  | clamp t => exact ((WorkerPc.range_part t _).2 hthrough).elim
  | resume | resumeNext | arrive | arriveNext => exact absurd trivial hno
  | _ => exact hthrough.elim

/-- A worker that has got through a part waits, or arrives next. -/
theorem WorkerPc.through_cases (ex : Executor) (h : pc.Through) (m : Shared) :
    (∃ token, pc.role = .waiting token) ∨
    pc.role = .running ∧ ∃ pc', pc'.role = .waiting m.barrier.phase ∧
      WorkerStep ex pc m pc' { m with barrier := m.barrier.arrive } := by
  cases pc with
  | arrive b second => exact .inr ⟨rfl, _, rfl, .arrive b second m⟩
  | arriveNext => exact .inr ⟨rfl, _, rfl, .arriveNext m⟩
  | wait b second token | waitNext token => exact .inl ⟨token, rfl⟩
  | _ => exact h.elim

/-- A worker that has waited has something to do, unless it was in the first part. -/
theorem WorkerStep.of_waiting (h : WorkerStep ex pc m pc' m') (hwait : pc.role = .waiting token)
    (hthrough : pc'.Through) : pc.part = 0 := by
  cases h with
  | resume b second =>
    cases second with
    | false => rfl
    | true => exact hthrough.elim
  | resumeNext => exact hthrough.elim
  | _ => cases hwait

/-! ## Runs -/

/-- The workers are in the same part of the round. -/
structure RoundInv (ex : Executor) (s : Workers ex) : Prop where
  roles : RolesInv ex s
  parts : s.shared.barrier.InStep 3 (fun i => (s.pc i).role) fun i => (s.pc i).part

theorem RoundInv.init (ex : Executor) : RoundInv ex ex.init where
  roles := .init ex
  parts := ⟨fun _ _ => rfl, nofun⟩

theorem RoundInv.step (h : RoundInv ex s) (hstep : Threads.StepBy (WorkerStep ex) i s s') :
    RoundInv ex s' where
  roles := h.roles.step hstep
  parts := by
    have hne : ∀ j, j ≠ i → (s'.pc j).role = (s.pc j).role ∧ (s'.pc j).part = (s.pc j).part :=
      fun j hj => by rw [hstep.pc_of_ne hj]; exact ⟨rfl, rfl⟩
    exact h.parts.step h.roles.counts hne hstep.pc_self.roleStep hstep.pc_self.partStep

/-- Once a worker has failed, those at the barrier are on their way from the part before. -/
def NoneThrough {ex : Executor} (s : Workers ex) : Prop :=
  (∃ i, (s.pc i).role = .gone) → s.shared.barrier.phase % 3 ≠ 1 ∧
    ∀ j, (s.pc j).Through → ∃ token, (s.pc j).role = .waiting token ∧ token ≠ s.shared.barrier.phase

/-- **A part of a round fails as a whole**: nobody gets to the barrier at its end. -/
theorem NoneThrough.step (h : NoneThrough s) (hinv : RoundInv ex s)
    (hstep : Threads.StepBy (WorkerStep ex) i s s') (hcond : AllOrNone i s s') :
    NoneThrough s' := by
  have hself := hstep.pc_self
  by_cases hgone : ∃ j, (s.pc j).role = .gone
  · -- the barrier stays as it is, so those who come to it can only be worker `i`
    obtain ⟨hpart, hothers⟩ := h hgone
    obtain ⟨g, hg⟩ := hgone
    have hphase : s'.shared.barrier.phase = s.shared.barrier.phase :=
      hinv.roles.counts.phase_of_gone hg hself.roleStep
    refine fun _ => ⟨by rw [hphase]; exact hpart, fun j hj => ?_⟩
    rw [hphase]
    by_cases hji : j = i
    · subst hji
      by_cases hthrough : (s.pc j).Through
      · obtain ⟨token, hwait, hne⟩ := hothers j hthrough
        have hfirst := hself.of_waiting hwait hj
        rw [hinv.parts.waiting j token hwait] at hfirst
        have hover := (hinv.roles.counts.token j token hwait).resolve_left hne
        omega
      · obtain ⟨error, stored, hpc⟩ := failed_of_gone hg
        exact absurd hpc (hcond.through hthrough hj g error stored)
    · rw [hstep.pc_of_ne hji] at hj ⊢
      exact hothers j hj
  · -- worker `i` returns with an error
    push Not at hgone
    rintro ⟨g, hg⟩
    obtain rfl : g = i := by
      by_contra hne
      rw [hstep.pc_of_ne hne] at hg
      exact hgone g hg
    obtain ⟨error, herror⟩ := hself.error_of_gone (hgone g) hg
    obtain ⟨hrun, hpart, hno⟩ := hself.of_error herror
    have hrole := hself.roleStep
    rw [hg] at hrole
    rw [hrole.barrier_of_gone, ← hinv.parts.running g hrun]
    refine ⟨hpart, fun j hj => ?_⟩
    have hjg : j ≠ g := by
      rintro rfl
      rw [herror] at hj
      exact hj.elim
    rw [hstep.pc_of_ne hjg] at hj ⊢
    have hne := hcond.error error herror j hj
    rw [hinv.parts.running g hrun] at hne
    cases hj' : (s.pc j).role with
    | running => exact absurd (hinv.parts.running j hj') hne
    | waiting token =>
      refine ⟨token, rfl, ?_⟩
      rintro rfl
      exact hne (hinv.parts.waiting j _ hj')
    | dropped | gone => cases hpc : s.pc j <;> rw [hpc] at hj hj' <;> first | exact hj.elim | cases hj'

/-- The step is careful. -/
theorem NoneThrough.careful (h : NoneThrough s) (hinv : RoundInv ex s)
    (hstep : Threads.StepBy (WorkerStep ex) i s s')
    (hcond : ∀ error, s'.pc i = .failed error false →
      ∀ j, (s.pc j).Through → (s.pc j).part ≠ (s.pc i).part) : Careful i s s' := by
  have hself := hstep.pc_self
  constructor
  · intro hno hgone j hj
    obtain ⟨error, herror⟩ := hself.error_of_gone hno hgone
    obtain ⟨hrun, -, -⟩ := hself.of_error herror
    refine hcond error herror j (WorkerPc.through_of_waiting hj) ?_
    rw [hinv.parts.running i hrun]
    exact hinv.parts.waiting j _ hj
  · rintro ⟨token, hwait⟩ j hj
    obtain ⟨hrun, hthrough⟩ := hself.of_arrived hwait
    obtain ⟨-, hothers⟩ := h ⟨j, hj⟩
    obtain ⟨token', hwait', -⟩ := hothers i hthrough
    cases hrun.symm.trans hwait'

/-- **When a step does not fail as a whole**, somebody is stuck after it, or after the next arrival
at the barrier. -/
theorem RoundInv.allOrNone (hinv : RoundInv ex s) (hstep : Threads.StepBy (WorkerStep ex) i s s')
    (hnot : NotStuck ex s')
    (harrived : ∀ j s'', Threads.StepBy (WorkerStep ex) j s' s'' →
      (s''.pc j).role = .waiting s'.shared.barrier.phase → NotStuck ex s'') : AllOrNone i s s' := by
  have hself := hstep.pc_self
  have hinv' := hinv.step hstep
  -- nobody arrives while somebody is gone
  have hstuck : ∀ j g pc'', (s'.pc g).role = .gone → (s'.pc j).role = .running →
      WorkerStep ex (s'.pc j) s'.shared pc'' { s'.shared with barrier := s'.shared.barrier.arrive } →
      pc''.role = .waiting s'.shared.barrier.phase → False := by
    intro j g pc'' hg hrun hnext hwait
    have hby : Threads.StepBy (WorkerStep ex) j s' _ := .intro rfl hnext
    have hgj : g ≠ j := by
      rintro rfl
      cases hg.symm.trans hrun
    have hwaits : (Function.update s'.pc j pc'' j).role = .waiting s'.shared.barrier.phase := by
      rw [Function.update_self]
      exact hwait
    refine (harrived j _ hby hwaits).barrier g j ?_ ?_
    · rw [hby.pc_of_ne hgj]
      exact hg
    · rw [show s'.shared.barrier.arrive.phase = s'.shared.barrier.phase from
        hinv'.roles.counts.arrived_phase hrun hg _]
      exact hwaits
  constructor
  · intro error herror j hj hpart
    obtain ⟨hrun, -, hno⟩ := hself.of_error herror
    have hgone : (s'.pc i).role = .gone := by rw [herror]; rfl
    have hji : j ≠ i := by
      rintro rfl
      exact hno hj
    have hrole := hself.roleStep
    rw [hgone] at hrole
    rw [hinv.parts.running i hrun, ← hrole.barrier_of_gone, ← hstep.pc_of_ne hji] at hpart
    rw [← hstep.pc_of_ne hji] at hj
    rcases WorkerPc.through_cases ex hj s'.shared with ⟨token, hwait⟩ | ⟨hrun', hnext⟩
    · -- it waits in this phase, as the token is not that of the part before
      rw [hinv'.parts.waiting j token hwait] at hpart
      have htoken := hinv'.roles.counts.token j token hwait
      obtain rfl : token = s'.shared.barrier.phase := by omega
      exact hnot.barrier i j hgone hwait
    · obtain ⟨pc'', hwait, hnext⟩ := hnext
      exact hstuck j i pc'' hgone hrun' hnext hwait
  · intro hno hthrough j error stored hpc
    have hrun := hself.of_through hno hthrough
    have hji : j ≠ i := by
      rintro rfl
      have hrole := hself.roleStep
      rw [hpc, hrun] at hrole
      cases hrole
    rcases WorkerPc.through_cases ex hthrough s'.shared with ⟨token, hwait⟩ | ⟨-, hnext⟩
    · cases hrun.symm.trans hwait
    · obtain ⟨pc'', hwait, hnext⟩ := hnext
      refine hstuck i j pc'' ?_ hrun hnext hwait
      rw [hstep.pc_of_ne hji, hpc]
      rfl

/-- **Nobody is stuck** in a run in which no part of a round fails for some workers only: a worker
that has not returned can take a step or waits for one that can. A step in which a part fails for
some workers only leaves somebody stuck, at the latest when the next worker arrives. -/
theorem notStuck_of_allOrNone {ex : Executor} {s : Workers ex}
    (h : Relation.ReflTransGen
      (fun s s' => ∃ i, Threads.StepBy (WorkerStep ex) i s s' ∧ AllOrNone i s s') ex.init s) :
    NotStuck ex s ∧ ∀ i s', Threads.StepBy (WorkerStep ex) i s s' →
      (AllOrNone i s s' ↔ NotStuck ex s' ∧ ∀ j s'', Threads.StepBy (WorkerStep ex) j s' s'' →
        (s''.pc j).role = .waiting s'.shared.barrier.phase → NotStuck ex s'') := by
  have hnext : ∀ {s s' : Workers ex} {i}, RoundInv ex s → NotStuck ex s → NoneThrough s →
      Threads.StepBy (WorkerStep ex) i s s' → AllOrNone i s s' → NotStuck ex s' :=
    fun hinv hnot hnone hstep hcond =>
      (hinv.roles.careful_iff hnot hstep).mp (hnone.careful hinv hstep hcond.error)
  obtain ⟨hinv, hnot, hnone⟩ : RoundInv ex s ∧ NotStuck ex s ∧ NoneThrough s := by
    induction h with
    | refl => exact ⟨.init ex, notStuck_init ex, fun ⟨_, hi⟩ => nomatch hi⟩
    | tail _ hlast ih =>
      obtain ⟨hinv, hnot, hnone⟩ := ih
      obtain ⟨i, hstep, hcond⟩ := hlast
      exact ⟨hinv.step hstep, hnext hinv hnot hnone hstep hcond, hnone.step hinv hstep hcond⟩
  refine ⟨hnot, fun i s' hstep => ⟨fun hcond => ?_, fun ⟨hnot', harrived⟩ =>
    hinv.allOrNone hstep hnot' harrived⟩⟩
  have hnot' := hnext hinv hnot hnone hstep hcond
  refine ⟨hnot', fun j s'' hstep' hwait => ?_⟩
  -- a worker that arrives does not fail
  have hinv' := hinv.step hstep
  refine (hinv'.roles.careful_iff hnot' hstep').mp
    ((hnone.step hinv hstep hcond).careful hinv' hstep' fun error herror => ?_)
  rw [herror] at hwait
  cases hwait

/-! ## A failure that nobody waits for -/

/-- A worker that is gone stays so. -/
theorem gone_of_step (hstep : Threads.StepBy (WorkerStep ex) i s s') (hj : (s.pc j).role = .gone) :
    (s'.pc j).role = .gone := by
  by_cases hji : j = i
  · have hrole := hstep.pc_self.roleStep
    rw [← hji, hj] at hrole
    exact hrole.gone
  · rw [hstep.pc_of_ne hji]
    exact hj

/-- While no worker has failed, no part of a round has. -/
theorem allOrNone_of_reach (h : ex.Reach s) (hno : ∀ i, (s.pc i).role ≠ .gone) :
    Relation.ReflTransGen
      (fun s s' => ∃ i, Threads.StepBy (WorkerStep ex) i s s' ∧ AllOrNone i s s') ex.init s := by
  induction h with
  | refl => exact .refl
  | tail _ hlast ih =>
    obtain ⟨i, hstep⟩ := hlast
    have hbefore := fun j hj => hno j (gone_of_step hstep hj)
    refine (ih hbefore).tail ⟨i, hstep, fun error herror => ?_, fun _ _ j error stored hpc => ?_⟩
    · exact absurd (congrArg WorkerPc.role herror) (hno i)
    · exact hbefore j (congrArg WorkerPc.role hpc)

/-- Both workers have come through the barrier twice. Then an op of the first one fails, and as the
second one is not through its batch, it is not stuck; nor is anybody when one of its ops fails too. -/
theorem notStuck_of_allOrNone_failed : ∃ (s : Workers nullFrees) (b : Batch), nullFrees.Reach s ∧
    s.pc (0 : Fin 2) = .failed .allocator true ∧ s.pc (1 : Fin 2) = .process b ∧
    NotStuck nullFrees s ∧ ∃ s', Threads.StepBy (WorkerStep nullFrees) (1 : Fin 2) s s' ∧
      s'.pc (1 : Fin 2) = .failed .allocator false ∧ NotStuck nullFrees s' := by
  have hline : inputAndResultIds (.free ⟨none, none, none⟩) = (none, none) := rfl
  have h₂ := reach_barrier (reach_barrier (reach_batches hline) rfl) rfl
  have hne : ∀ {i endIdx}, i < endIdx →
      (nullFrees.plainBatch (nullFrees.opsFrom i endIdx)).todo ≠ [] := fun h => by
    simpa [Executor.plainBatch] using opsFrom_ne_nil h
  have hrun := allOrNone_of_reach h₂
    (Fin.forall_fin_two.mpr ⟨Role.running_ne_gone, Role.running_ne_gone⟩)
  -- the first worker fails while the second one is in its batch
  have hfails : WorkerStep nullFrees (.process (nullFrees.plainBatch (nullFrees.opsFrom 0 512))) _ _ _ :=
    .performError _ ⟨600, false, ∅, [], ⟨2, 2, 2⟩, [], false⟩ (hne (by decide))
  have hstores : WorkerStep nullFrees (.failed .allocator false) _ _ _ :=
    .storeDone .allocator ⟨600, false, ∅, [], ⟨2, 2, 2⟩, [], false⟩ (by decide)
  have hlast : WorkerStep nullFrees (.process (nullFrees.plainBatch (nullFrees.opsFrom 512 600))) _ _ _ :=
    .performError _ ⟨600, true, ∅, [], ⟨2, 2, 2⟩, [], false⟩ (hne (by decide))
  have hrun₁ := hrun.tail ⟨(0 : Fin 2), step_first hfails, fun _ _ j hj => ?_,
    fun _ hthrough => False.elim hthrough⟩
  have hrun₂ := hrun₁.tail ⟨(0 : Fin 2), step_first hstores, fun _ herror => (by cases herror),
    fun _ hthrough => False.elim hthrough⟩
  obtain ⟨hnot, hiff⟩ := notStuck_of_allOrNone hrun₂
  have hboth := (hiff (1 : Fin 2) _ (step_second hlast)).mp ⟨fun _ _ j hj => ?_,
    fun _ hthrough => False.elim hthrough⟩
  · exact ⟨_, _, (h₂.tail ⟨_, step_first hfails⟩).tail ⟨_, step_first hstores⟩, rfl, rfl, hnot, _,
      step_second hlast, rfl, hboth.1⟩
  · fin_cases j <;> exact hj.elim
  · fin_cases j <;> exact hj.elim

end

end MallocBench.Replay
