import MallocBench.Replay.ReplayInv

/-!
# Replays end

What a worker can still do is bounded by where it is and by the ops that it has (`stepsLeft`), and
an op that waits in the map or in the queue, or has not been claimed yet, is worth what a worker may
do for it. Every step uses up some of it (`WorkerStep.stepsLeft`), so an interleaving has at most 24
steps for each op and 8 for each worker (`run_length_le`). A replay without failures that cannot go
on has ended (`returned_of_stuck`).
-/

namespace MallocBench.Replay

open Lib Trace

/-- An upper bound of the steps that a worker at `pc` takes by itself. -/
def WorkerPc.stepsLeft : WorkerPc → Nat
  | .head => 8
  | .takeFromQueue => 7
  | .claim t => 20 * t.ops.length + 6
  | .clamp t => 20 * t.ops.length + 5
  | .scan t i endIdx => 20 * t.ops.length + 22 * (endIdx - i) + 7
  | .prepared ops => 20 * ops.length + 4
  -- the first op that is made pays for the way back to `head`
  | .make mk => 20 * mk.todo.length + mk.made.length + 2 * mk.idToIdx.keys.length +
    if mk.made = [] then 3 else 18
  | .load mk _ _ => 20 * mk.todo.length + mk.made.length + 2 * mk.idToIdx.keys.length +
    if mk.made = [] then 2 else 17
  | .arrive b second => b.todo.length + 2 * b.idToIdx.keys.length + if second then 14 else 16
  | .wait b second _ => b.todo.length + 2 * b.idToIdx.keys.length + if second then 13 else 15
  | .process b => b.todo.length + 2 * b.idToIdx.keys.length + 12
  | .flush records => 2 * records.length + 11
  | .assign _ _ _ records => 2 * records.length + 12
  | .push _ records => 2 * records.length + 32
  | .arriveNext => 10
  | .waitNext _ => 9
  | .drop => 1
  | .returned => 0
  | .failed _ stored => if stored then 0 else 1

/-- What the ops are worth that no worker has. -/
def Shared.stepsLeft (ex : Executor) (m : Shared) (g : Ghost) : Nat :=
  24 * (ex.numOps - g.claimed) + 20 * m.queuedOps.length + 21 * (pendingOps m.idMap).card

/-- There are at most `n` steps left. -/
def StepsLeft (ex : Executor) (s : Workers ex) (n : Nat) : Prop :=
  ∃ g, ReplayInv ex s g ∧ s.shared.stepsLeft ex g + ∑ i, (s.pc i).stepsLeft ≤ n

section

variable {ex : Executor} {s s' : Workers ex} {g g' : Ghost} {i j : Fin ex.nThreads} {pc pc' : WorkerPc}
  {m m' : Shared} {op : Op}

/-! ## The steps -/

/-- An op adds at most one id to those that are to be recorded. -/
theorem OpAdded.length_keys_le {st st' : BatchState} {line : TraceLine}
    (hadd : OpAdded ex.tracefile st op st' line) :
    st'.idToIdx.keys.length ≤ st.idToIdx.keys.length + 1 := by
  have hsub : st'.idToIdx.keys ⊆ ((opFlow ex.tracefile).puts op).toList ++ st.idToIdx.keys := by
    intro id hid
    rcases (hadd.mem id).mp (AList.mem_keys.mpr hid) with hputs | ⟨hold, -⟩
    · exact List.mem_append_left _ (by rw [hputs]; exact List.mem_singleton_self id)
    · exact List.mem_append_right _ (AList.mem_keys.mp hold)
  have hle := (List.subperm_of_subset st'.idToIdx.keys_nodup hsub).length_le
  have hone : ((opFlow ex.tracefile).puts op).toList.length ≤ 1 := by
    cases (opFlow ex.tracefile).puts op <;> simp
  rw [List.length_append] at hle
  omega

/-- The op becomes a line. -/
theorem stepsLeft_next {mk : Making} {todo : List Op} {st : BatchState} {line : TraceLine}
    (htodo : mk.todo = op :: todo) (hkeys : st.idToIdx.keys.length ≤ mk.idToIdx.keys.length + 1)
    (id ptr : Nat) : (WorkerPc.make (mk.next st op line todo)).stepsLeft <
      (WorkerPc.load mk id ptr).stepsLeft := by
  have hmade : (mk.made ++ [(op, line)]).length = mk.made.length + 1 := by simp
  have hne : mk.made ++ [(op, line)] ≠ [] := by simp
  show 20 * todo.length + (mk.made ++ [(op, line)]).length + 2 * st.idToIdx.keys.length +
      (if mk.made ++ [(op, line)] = [] then 3 else 18) <
    20 * mk.todo.length + mk.made.length + 2 * mk.idToIdx.keys.length +
      if mk.made = [] then 2 else 17
  rw [htodo, hmade, if_neg hne, List.length_cons]
  split_ifs <;> omega

theorem stepsLeft_load (mk : Making) (id ptr : Nat) :
    (WorkerPc.load mk id ptr).stepsLeft < (WorkerPc.make mk).stepsLeft := by
  show _ + (if mk.made = [] then 2 else 17) < _ + if mk.made = [] then 3 else 18
  split_ifs <;> omega

/-- **Every step uses up** some of what is left. -/
theorem WorkerStep.stepsLeft (h : WorkerStep ex pc m pc' m') (ht : ex.Traced)
    (hlocal : pc.Local ex m) (hshared : SharedInv ex m) (howned : Owned ex pc m)
    (hbound : ex.numOps + kBatchSize < 2 ^ 64) (hmoved : Moved ex pc m g pc' m' g') :
    m'.stepsLeft ex g' + pc'.stepsLeft < m.stepsLeft ex g + pc.stepsLeft := by
  have hnext := h.local_next ht hlocal hshared howned
  have hmono := hmoved.mono
  unfold Shared.stepsLeft
  cases h with
  | stop | loop | enough | flushed | arriveNext | resumeNext | drop =>
    simp only [WorkerPc.stepsLeft]
    omega
  | takeFromQueue =>
    have hlength : m.queuedOps.length = (m.queuedOps.take kMaxQueuedOpsTaken).length +
        (m.queuedOps.drop kMaxQueuedOpsTaken).length := by
      rw [← List.length_append, List.take_append_drop]
    have hops : (Taking.ops ⟨m.queuedOps.take kMaxQueuedOpsTaken, [], ∅⟩).length =
        (m.queuedOps.take kMaxQueuedOpsTaken).length := by rw [Taking.ops, List.append_nil]
    simp only [WorkerPc.stepsLeft, hops]
    omega
  | fetchAdd t _ hremaining =>
    by_cases hle : ex.numOps ≤ m.idx
    · rw [if_pos hle]
      simp only [WorkerPc.stepsLeft]
      omega
    · rw [if_neg hle] at hmoved ⊢
      have hbatch := remaining_le t
      obtain ⟨-, heq⟩ | ⟨hrange, hlt⟩ : _ ∨ _ :=
        range_cases t m.idx (by omega) hremaining (show m.idx ≤ ex.numOps by omega)
      · omega
      · rw [hrange] at hmoved ⊢
        -- the ops of the range have not been claimed before
        obtain ⟨-, hlostMade, hlostOps, -⟩ := hmoved.lost Role.running_ne_gone
        have hcard := congrArg Multiset.card hmoved.ops
        rw [hlostMade, hlostOps] at hcard
        simp only [Multiset.card_add, WorkerPc.held, Multiset.coe_card, List.length_append,
          Executor.length_opsFrom, Shared.performedOps] at hcard
        simp only [WorkerPc.stepsLeft]
        show 24 * (ex.numOps - g'.claimed) + 20 * m.queuedOps.length + _ + _ < _
        omega
  | clamp t _ =>
    rw [range_numOps t hbound] at hmoved ⊢
    simp only [WorkerPc.stepsLeft]
    omega
  | @scan t i endIdx _ hi canDo localAllocations idMap hcan =>
    rcases canDoOpOrQueue_cases hcan with ⟨rfl, rfl, -⟩ | ⟨rfl, rfl, id, -, -, hnot, rfl⟩
    · have hops : (t.add true localAllocations (ex.op i)).ops = t.ops ++ [ex.op i] :=
        (List.append_assoc ..).symm
      simp only [WorkerPc.stepsLeft, hops, List.length_append, List.length_singleton]
      omega
    · have hpending : pendingOps (m.idMap.insert id (.idx (ex.op i))) =
          {ex.op i} + pendingOps m.idMap := mapSum_insert_new hnot
      have hops : (t.add false t.localAllocations (ex.op i)).ops = t.ops := rfl
      simp only [WorkerPc.stepsLeft, hops, hpending, Multiset.card_add, Multiset.card_singleton]
      omega
  | scanned t i endIdx _ hi =>
    simp only [WorkerPc.stepsLeft]
    omega
  | start ops =>
    simp [WorkerPc.stepsLeft, Making.start]
    omega
  | @makeLocal mk _ op todo _ _ htodo hin hadd =>
    obtain ⟨γ₀, γ, hinv⟩ := hlocal
    obtain ⟨st, line, heq, hadded, -⟩ := hinv.addOp_local ht htodo howned.isOp howned.nodup hin
    obtain ⟨rfl, rfl⟩ := Prod.mk.inj (Except.ok.inj (heq.symm.trans hadd))
    have hload := stepsLeft_load mk 0 0
    have hlt : (WorkerPc.make (mk.next { st with globalIdMap := m.idMap } op line todo)).stepsLeft < _ :=
      stepsLeft_next htodo hadded.length_keys_le 0 0
    omega
  | makeLocalError | lookupNone | addFreeError | addResultError | assignError => cases hnext
  | @lookup mk _ _ _ id ptr | @lookupPending mk _ _ _ _ id _ _ _ _ ptr =>
    have hlt := stepsLeft_load mk id ptr
    show 24 * (ex.numOps - g'.claimed) + 20 * m.queuedOps.length + 21 * (pendingOps m.idMap).card +
      (WorkerPc.load mk id ptr).stepsLeft < _
    omega
  | @addFree mk id ptr _ op todo _ _ idMap htodo hfree hadd =>
    obtain ⟨⟨γ₀, γ, hinv⟩, hnot, hptr, op', todo', htodo', hid⟩ := hlocal
    obtain ⟨rfl, rfl⟩ := List.cons.inj (htodo.symm.trans htodo')
    obtain ⟨st, line, heq, hadded, -⟩ :=
      hinv.addOp_load ht htodo howned.isOp howned.nodup hid hnot hptr idMap
    obtain ⟨rfl, rfl⟩ := Prod.mk.inj (Except.ok.inj (heq.symm.trans hadd))
    have hlt : (WorkerPc.make (mk.next { st with globalIdMap := idMap } op line todo)).stepsLeft < _ :=
      stepsLeft_next htodo hadded.length_keys_le id ptr
    have hpending : pendingOps m.idMap = 0 + pendingOps idMap := by
      rw [addFree_ok hfree]
      exact mapSum_erase hptr
    rw [hpending, zero_add]
    dsimp only
    omega
  | empty mk _ htodo hmade =>
    simp only [WorkerPc.stepsLeft, if_pos hmade]
    omega
  | made mk _ htodo hmade =>
    simp [WorkerPc.stepsLeft, if_neg hmade]
    omega
  | arrive b second | resume b second =>
    cases second <;> simp [WorkerPc.stepsLeft] <;> omega
  | perform b _ htodo =>
    simp only [WorkerPc.stepsLeft, htodo, List.length_cons]
    omega
  | performError b =>
    simp [WorkerPc.stepsLeft]
    omega
  | processed b _ htodo hrecords =>
    have hlength := hrecords.length_eq
    simp [WorkerPc.stepsLeft, Batch.allocationsToRecord, AList.keys, List.keys] at hlength ⊢
    omega
  | insert id ptr records _ hnot =>
    have hpending : pendingOps (m.idMap.insert id (.allocatedPtr ptr)) = 0 + pendingOps m.idMap :=
      mapSum_insert_new hnot
    simp [WorkerPc.stepsLeft, hpending]
    omega
  | pending id ptr records =>
    simp [WorkerPc.stepsLeft]
    omega
  | notPending id ptr records _ hptr =>
    simp [WorkerPc.stepsLeft]
    omega
  | assign id ptr op records =>
    have hpending : pendingOps m.idMap = {op} + pendingOps (m.idMap.erase id) := mapSum_erase hlocal.2
    have hpending' : pendingOps (m.idMap.insert id (.allocatedPtr ptr)) =
        0 + pendingOps (m.idMap.erase id) := mapSum_insert
    simp [WorkerPc.stepsLeft, hpending, hpending']
    omega
  | push op records =>
    simp [WorkerPc.stepsLeft]
    omega
  | storeDone error =>
    simp [WorkerPc.stepsLeft]
    omega

/-! ## Runs -/

/-- **A step of a worker** leaves fewer steps. -/
theorem StepsLeft.step (hfits : ex.Fits) {n : Nat} (h : StepsLeft ex s n)
    (hstep : Threads.StepBy (WorkerStep ex) i s s') : ∃ n' < n, StepsLeft ex s' n' := by
  obtain ⟨g, hinv, hle⟩ := h
  obtain ⟨g', hmoved, hinv'⟩ := hinv.step hfits hstep
  have hlt := hstep.pc_self.stepsLeft hfits.traced (hinv.locals i) hinv.shared
    (hinv.conserved.owned hfits.traced i) hfits.batch_lt hmoved
  have hsum := sum_change WorkerPc.stepsLeft fun j (hj : j ≠ i) => hstep.pc_of_ne hj
  exact ⟨_, by omega, g', hinv', Nat.le_refl _⟩

/-- What is left at the start. -/
theorem StepsLeft.init (ex : Executor) :
    StepsLeft ex ex.init (24 * ex.numOps + 8 * ex.nThreads) := by
  refine ⟨_, .init ex, ?_⟩
  have hsum : ∑ i, (ex.init.pc i).stepsLeft = 8 * ex.nThreads := by
    simp [Executor.init, WorkerPc.stepsLeft, Nat.mul_comm]
  rw [hsum]
  simp [Shared.stepsLeft, Executor.init, pendingOps]

/-- **Every interleaving ends**: it has a bounded number of steps. -/
theorem run_length_le (hfits : ex.Fits) {states : List (Workers ex)}
    (h : Threads.Run (WorkerStep ex) ex.init states) :
    states.length ≤ 24 * (ex.numRepetitions * ex.tracefile.length) + 8 * ex.nThreads := by
  rw [← hfits.numOps]
  exact Threads.Run.length_le (StepsLeft ex) (fun _ _ _ _ hleft => hleft.step hfits) h (.init ex)

theorem returned_of_left (h : pc.Left ex) : pc = .returned ∨ pc.role = .gone := by
  cases pc with
  | returned => exact .inl rfl
  | failed error stored => exact .inr rfl
  | _ => exact h.elim

theorem returned_of_stuck (h : ex.Reach s) (hgone : ∀ i, (s.pc i).role ≠ .gone)
    (hstuck : ¬ ∃ i s', Threads.StepBy (WorkerStep ex) i s s') : ∀ i, s.pc i = .returned := by
  have hnot : NotStuck ex s := (rolesInv h).notStuck_iff.mpr fun ⟨i, _, hi, _⟩ => hgone i hi
  intro i
  by_contra hne
  exact hstuck (hnot.step ⟨i, fun hleft => (returned_of_left hleft).elim hne (hgone i)⟩)

/-- **Unless a worker has failed**, one of them can take a step, or all have returned. -/
theorem exists_step_or_returned (h : ex.Reach s)
    (hfailed : ∀ i error stored, s.pc i ≠ .failed error stored) :
    (∃ i s', Threads.StepBy (WorkerStep ex) i s s') ∨ ∀ i, s.pc i = .returned := by
  refine or_iff_not_imp_left.mpr (returned_of_stuck h fun i hi => ?_)
  obtain ⟨error, stored, hpc⟩ := failed_of_gone hi
  exact hfailed i error stored hpc

/-- A worker waits for the other one, which has found nothing to do and drops out. -/
theorem exists_step_or_returned_drop : ∃ s s' : Workers nullFree,
    (s.pc (0 : Fin 2)).role = .waiting s.shared.barrier.phase ∧ s.pc (1 : Fin 2) = .drop ∧
      (∃ i s'', Threads.StepBy (WorkerStep nullFree) i s s'') ∧
      s'.pc (0 : Fin 2) = s.pc (0 : Fin 2) ∧ s'.pc (1 : Fin 2) = .returned ∧
        ∃ i s'', Threads.StepBy (WorkerStep nullFree) i s' s'' := by
  have hplain : nullFree.Plain := plain_twoWorkers rfl
  have hnum : nullFree.numOps = 1 := numOps_twoWorkers (by decide)
  have hclaim : WorkerRun nullFree (.head, ⟨0, false, ∅, [], ⟨2, 2, 0⟩, [], false⟩) _ :=
    claim_plain hplain _ rfl rfl (by rw [hnum]; decide) (by decide)
  rw [hnum] at hclaim
  have hrest := hclaim.trans (rest_plain _ _ (by rw [Taking.remaining, Executor.length_opsFrom]; decide)
    (by rw [hnum]; decide) (by rw [hnum]; decide))
  have harrive := (hrest.trans (prepared_plain hplain _ (by decide))).tail (c := (_, _))
    (.arrive _ false _)
  -- the other worker has no ops
  have htake : WorkerRun nullFree (.head, ⟨1, false, ∅, [], ⟨2, 1, 0⟩, [], false⟩)
      (.claim ⟨[], [], ∅⟩, _) :=
    .cons (.loop _ Bool.false_ne_true) (.single (.takeFromQueue _))
  have hnone := htake.trans (rest_plain _ _ (by decide) (by rw [hnum]) (by rw [hnum]; decide))
  have hempty := (hnone.tail (c := (_, _)) (.start _ _ fun _ => 0)).tail (c := (_, _))
    (.empty _ _ rfl rfl)
  have hdrop := reach_second (reach_first reach_heads harrive) hempty
  have hleft := reach_second hdrop (.single (.drop _))
  have hstep := (exists_step_or_returned hdrop (Fin.forall_fin_two.mpr
    ⟨fun _ _ h => WorkerPc.noConfusion h, fun _ _ h => WorkerPc.noConfusion h⟩)).resolve_right
      fun h => WorkerPc.noConfusion (h (1 : Fin 2))
  have hstep' := (exists_step_or_returned hleft (Fin.forall_fin_two.mpr
    ⟨fun _ _ h => WorkerPc.noConfusion h, fun _ _ h => WorkerPc.noConfusion h⟩)).resolve_right
      fun h => WorkerPc.noConfusion (h (0 : Fin 2))
  refine ⟨_, _, ?_, ?_, hstep, ?_, ?_, hstep'⟩
  · rfl
  · rfl
  · rfl
  · rfl

/-- A worker only fails where it calls the allocator. -/
theorem WorkerStep.process_of_gone (h : WorkerStep ex pc m pc' m')
    (hnext : pc'.Local ex m') (hpc : pc.role ≠ .gone) (hpc' : pc'.role = .gone) :
    ∃ b, pc = .process b ∧ b.todo ≠ [] := by
  cases h with
  | performError b _ htodo => exact ⟨b, rfl, htodo⟩
  | makeLocalError | lookupNone | addFreeError | addResultError | assignError => cases hnext
  | storeDone => exact absurd rfl hpc
  | fetchAdd t =>
    split_ifs at hpc'
    · cases hpc'
    · rw [WorkerPc.role_range] at hpc'
      cases hpc'
  | clamp t =>
    rw [WorkerPc.role_range] at hpc'
    cases hpc'
  | resume b second => cases second <;> cases hpc'
  | _ => cases hpc'

/-- A worker that is able to take a step is able to take one without failing. -/
theorem exists_step_ok (hfits : ex.Fits) (hinv : ReplayInv ex s g)
    (hgone : ∀ i, (s.pc i).role ≠ .gone) (hstep : Threads.StepBy (WorkerStep ex) i s s') :
    ∃ s', Threads.StepBy (WorkerStep ex) i s s' ∧ ∀ j, (s'.pc j).role ≠ .gone := by
  have hothers : ∀ {s'}, Threads.StepBy (WorkerStep ex) i s s' → (s'.pc i).role ≠ .gone →
      ∀ j, (s'.pc j).role ≠ .gone := by
    intro s' hstep hi j
    by_cases hj : j = i
    · exact hj ▸ hi
    · rw [hstep.pc_of_ne hj]
      exact hgone j
  by_cases hfailed : (s'.pc i).role = .gone
  · have hself := hstep.pc_self
    have hnext := hself.local_next hfits.traced (hinv.locals i) hinv.shared
      (hinv.conserved.owned hfits.traced i)
    obtain ⟨b, hpc, htodo⟩ := hself.process_of_gone hnext (hgone i) hfailed
    obtain ⟨⟨op, line⟩, todo, htodo⟩ := List.exists_cons_of_ne_nil htodo
    have hperform : WorkerStep ex (.process b) s.shared _ _ := .perform b s.shared htodo 0
    refine ⟨_, .intro hpc hperform, hothers (.intro hpc hperform) ?_⟩
    show (Function.update s.pc i (.process _) i).role ≠ .gone
    rw [Function.update_self]
    nofun
  · exact ⟨s', hstep, hothers hstep hfailed⟩

/-- **A replay is able to end**, from every state in which no worker has failed. -/
theorem exists_returned (hfits : ex.Fits) (h : ex.Reach s) (hgone : ∀ i, (s.pc i).role ≠ .gone) :
    ∃ s', ex.Reach s' ∧ ∀ i, s'.pc i = .returned := by
  obtain ⟨g, hinv⟩ := replayInv hfits h
  obtain ⟨n, hn⟩ : ∃ n, StepsLeft ex s n := ⟨_, g, hinv, Nat.le_refl _⟩
  induction n using Nat.strong_induction_on generalizing s g with
  | _ n ih =>
    by_cases hstuck : ∃ i s', Threads.StepBy (WorkerStep ex) i s s'
    · obtain ⟨i, s', hstep⟩ := hstuck
      obtain ⟨s', hstep, hgone'⟩ := exists_step_ok hfits hinv hgone hstep
      obtain ⟨g', -, hinv'⟩ := hinv.step hfits hstep
      obtain ⟨n', hlt, hn'⟩ := hn.step hfits hstep
      exact ih n' hlt (h.tail ⟨i, hstep⟩) hgone' g' hinv' hn'
    · exact ⟨s, h, returned_of_stuck h hgone hstuck⟩

/-- A run in which all workers return. -/
theorem run_length_le_returned : ∃ states, Threads.Run (WorkerStep (mallocFree 2 2))
    (mallocFree 2 2).init states ∧ (∃ s ∈ states, ∀ i, s.pc i = .returned) ∧
      states.length ≤ 24 * (2 * 2) + 8 * 2 := by
  have hfits : (mallocFree 2 2).Fits := fits_mallocFree (by decide) (by decide) (by decide)
  obtain ⟨s, hreach, hreturned⟩ := exists_returned hfits .refl fun _ => nofun
  obtain ⟨states, hrun, hlast⟩ := List.exists_isChain_cons_of_relationReflTransGen hreach
  refine ⟨states, hrun, ⟨s, ?_, hreturned⟩, run_length_le hfits hrun⟩
  have hmem := List.getLast_mem (List.cons_ne_nil (mallocFree 2 2).init states)
  rw [hlast] at hmem
  refine (List.mem_cons.mp hmem).resolve_left ?_
  rintro rfl
  cases hreturned (0 : Fin 2)

end

end MallocBench.Replay
