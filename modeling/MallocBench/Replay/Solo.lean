import MallocBench.Replay.ReplayRuns

/-!
# Replays with one worker

One worker performs the ops in the order of the trace. It has the ops from an index up to the next
one that it has not claimed, in order (`WorkerPc.Solo`), and every op that it claims can be done: the
op that has put its input is performed, or is taken and its result is in `local_allocations`. So no
op is left in the map or in the queue (`solo_prefix`).
-/

namespace MallocBench.Replay

open Lib Trace

/-- What the ops have put and have not taken is in `local_allocations`. -/
def Taking.Keeps (ex : Executor) (t : Taking) : Prop :=
  ∀ op ∈ t.traceOps, ∀ id, (opFlow ex.tracefile).puts op = some id →
    (∀ op' ∈ t.traceOps, (opFlow ex.tracefile).takes op' ≠ some id) → id ∈ t.localAllocations

/-- The worker has the ops from `a` to `b`, in order. -/
def WorkerPc.Solo (ex : Executor) (a b : Nat) : WorkerPc → Prop
  | .claim t | .clamp t => t.queuedOps = [] ∧ t.traceOps = ex.opsFrom a b ∧ t.Keeps ex
  | .scan t i endIdx => t.queuedOps = [] ∧ t.traceOps = ex.opsFrom a i ∧ a ≤ i ∧ i ≤ b ∧
    endIdx = b ∧ t.Keeps ex
  | .prepared ops => ops = ex.opsFrom a b
  | .make mk | .load mk _ _ => mk.ops = ex.opsFrom a b
  | .arrive b' _ | .wait b' _ _ | .process b' => b'.ops = ex.opsFrom a b
  | .assign _ _ _ _ | .push _ _ => False
  | .failed _ _ => True
  | _ => a = b

/-- The ops before `a` have been performed, and nothing waits. -/
structure SoloInv (ex : Executor) (pc : WorkerPc) (m : Shared) (a b : Nat) : Prop where
  performed : m.performed.map Performed.op = ex.opsFrom 0 a
  le : a ≤ b ∧ b ≤ ex.numOps
  solo : pc.Solo ex a b
  next : pc.role ≠ .gone → b = if pc.clamping = 0 then min m.idx ex.numOps else ex.numOps
  queue : m.queuedOps = []
  pending : ∀ id op, m.idMap.lookup id ≠ some (.idx op)

section

variable {ex : Executor} {s s' : Workers ex} {g : Ghost} {i : Fin ex.nThreads} {pc pc' : WorkerPc}
  {m m' : Shared} {a b : Nat}

/-! ## The ops that are taken -/

theorem mem_addResult_of_mem {la : Finset Nat} {input result : Option Nat} {id : Nat} (h : id ∈ la)
    (hinput : input ≠ some id) : id ∈ Taking.addResult (input.elim la la.erase) result := by
  have herase : id ∈ input.elim la la.erase := by
    cases input with
    | none => exact h
    | some id' => exact Finset.mem_erase.mpr ⟨fun heq => hinput (by rw [heq]), h⟩
  cases result with
  | none => exact herase
  | some id' => exact Finset.mem_insert_of_mem herase

/-- One more op is taken. -/
theorem Taking.Keeps.add {t : Taking} (h : t.Keeps ex) (op : Op) :
    (t.add true (addResult (((opFlow ex.tracefile).takes op).elim t.localAllocations
      t.localAllocations.erase) ((opFlow ex.tracefile).puts op)) op).Keeps ex := by
  intro e he id hputs hno
  have he : e ∈ t.traceOps ++ [op] := he
  have hno : ∀ op' ∈ t.traceOps ++ [op], (opFlow ex.tracefile).takes op' ≠ some id := hno
  rcases List.mem_append.mp he with he | he
  · refine mem_addResult_of_mem (h e he id hputs fun op' hop' => ?_) ?_
    · exact hno op' (List.mem_append_left _ hop')
    · exact hno op (List.mem_append_right _ List.mem_cons_self)
  · obtain rfl := List.mem_singleton.mp he
    rw [hputs]
    exact Finset.mem_insert_self _ _

/-- **Every op can be done.** -/
theorem solo_canDo (hfits : ex.Fits) (hone : ex.nThreads = 1) (h : ReplayInv ex s g)
    {t : Taking} {k endIdx : Nat} (hpc : s.pc i = .scan t k endIdx)
    (hsolo : SoloInv ex (s.pc i) s.shared a b) (hk : k < endIdx) {id : Nat}
    (hid : (opFlow ex.tracefile).takes (ex.op k) = some id) :
    id ∈ t.localAllocations ∨ id ∈ s.shared.idMap := by
  have ht := hfits.traced
  have hall : ∀ j : Fin ex.nThreads, j = i := fun j => Fin.ext (by omega)
  have hrole : ∀ j, (s.pc j).role ≠ .gone := by
    intro j
    rw [hall j, hpc]
    exact Role.running_ne_gone
  have hsum : ∀ {M : Type} [AddCommMonoid M] (f : WorkerPc → M), ∑ j, f (s.pc j) = f (s.pc i) :=
    fun f => Fintype.sum_eq_single i fun j hj => absurd (hall j) hj
  obtain ⟨hlostMade, -, hlostIds⟩ := h.conserved.lost hrole
  have hpcsolo := hsolo.solo
  rw [hpc] at hpcsolo
  obtain ⟨-, htrace, hak, hkb, rfl, hkeeps⟩ := hpcsolo
  have hlt : k < ex.numOps := Nat.lt_of_lt_of_le hk hsolo.le.2
  obtain ⟨j, hj, hputs⟩ := ht.produced hlt hid
  -- no op before this one takes what it takes
  have hno : ∀ l, l < k → (opFlow ex.tracefile).takes (ex.op l) ≠ some id := fun l hl htakes =>
    hl.ne (ht.takes_inj (hl.trans hlt) hlt htakes hid)
  by_cases hja : j < a
  · right
    have hids : ptrIds s.shared.idMap + opTakes ex s.shared.performedOps =
        opPuts ex s.shared.performedOps := by
      have hids := h.conserved.ids
      rw [hsum WorkerPc.toRecord, hsum WorkerPc.made, hlostMade, hlostIds, hpc] at hids
      simpa only [WorkerPc.toRecord, WorkerPc.made, add_zero] using hids
    have hput : id ∈ opPuts ex s.shared.performedOps := by
      refine mem_opPuts.mpr ⟨ex.op j, ?_, hputs⟩
      show ex.op j ∈ (s.shared.performed.map Performed.op : List Op)
      rw [hsolo.performed]
      exact Executor.mem_opsFrom.mpr ⟨j, Nat.zero_le j, hja, rfl⟩
    rw [← hids, Multiset.mem_add] at hput
    rcases hput with hptr | htaken
    · obtain ⟨ptr, hptr⟩ := mem_ptrIds.mp hptr
      exact mem_of_lookup hptr
    · obtain ⟨op', hop', htakes⟩ := mem_opTakes.mp htaken
      have hmem : op' ∈ s.shared.performed.map Performed.op := hop'
      rw [hsolo.performed] at hmem
      obtain ⟨l, -, hl, rfl⟩ := Executor.mem_opsFrom.mp hmem
      exact absurd htakes (hno l (by omega))
  · left
    refine hkeeps (ex.op j) ?_ id hputs fun op' hop' htakes => ?_
    · rw [htrace]
      exact Executor.mem_opsFrom.mpr ⟨j, by omega, hj, rfl⟩
    · rw [htrace] at hop'
      obtain ⟨l, -, hl, rfl⟩ := Executor.mem_opsFrom.mp hop'
      exact hno l hl htakes

/-! ## Every state -/

/-- A step that claims and performs nothing. -/
theorem SoloInv.stay (h : SoloInv ex pc m a b) (hrole : pc.role ≠ .gone) (hclamping : pc.clamping = 0)
    (hclamping' : pc'.clamping = 0) (hsolo : pc'.Solo ex a b) (hidx : m'.idx = m.idx)
    (hperformed : m'.performed = m.performed) (hqueue : m'.queuedOps = [])
    (hmap : ∀ id op, m'.idMap.lookup id = some (.idx op) → m.idMap.lookup id = some (.idx op)) :
    SoloInv ex pc' m' a b where
  performed := hperformed ▸ h.performed
  le := h.le
  solo := hsolo
  next _ := by rw [h.next hrole, hclamping, hclamping', hidx]
  queue := hqueue
  pending id op hop := h.pending id op (hmap id op hop)

/-- **A step** of the only worker. -/
theorem SoloInv.step (hfits : ex.Fits) (hone : ex.nThreads = 1) (hinv : ReplayInv ex s g)
    (h : SoloInv ex (s.pc i) s.shared a b) (hstep : Threads.StepBy (WorkerStep ex) i s s') :
    ∃ a' b', SoloInv ex (s'.pc i) s'.shared a' b' := by
  have hcan : ∀ t k endIdx, s.pc i = .scan t k endIdx → k < endIdx → ∀ id,
      (opFlow ex.tracefile).takes (ex.op k) = some id → id ∈ t.localAllocations ∨ id ∈ s.shared.idMap :=
    fun _ _ _ hpc hk _ hid => solo_canDo hfits hone hinv hpc h hk hid
  have hself := hstep.pc_self
  have hnext := hself.local_next hfits.traced (hinv.locals i) hinv.shared
    (hinv.conserved.owned hfits.traced i)
  generalize s.pc i = pc, s.shared = m, s'.pc i = pc', s'.shared = m' at *
  have hsolo := h.solo
  have hqueue := h.queue
  cases hself with
  | stop | loop => exact ⟨a, b, h.stay Role.running_ne_gone rfl rfl hsolo rfl rfl hqueue fun _ _ => id⟩
  | takeFromQueue =>
    obtain rfl : a = b := hsolo
    refine ⟨a, a, h.stay Role.running_ne_gone rfl rfl ?_ rfl rfl ?_ fun _ _ => id⟩
    · rw [hqueue, List.take_nil]
      exact ⟨rfl, (Executor.opsFrom_nil (Nat.le_refl a)).symm, fun op hop => absurd hop List.not_mem_nil⟩
    · rw [hqueue, List.drop_nil]
  | enough t =>
    obtain ⟨hqueued, htrace, -⟩ := hsolo
    refine ⟨a, b, h.stay Role.running_ne_gone rfl rfl ?_ rfl rfl hqueue fun _ _ => id⟩
    show t.ops = _
    rw [Taking.ops, hqueued, htrace]
    rfl
  | fetchAdd t _ hremaining =>
    obtain ⟨hqueued, htrace, hkeeps⟩ := hsolo
    have hb : b = min m.idx ex.numOps := h.next Role.running_ne_gone
    by_cases hle : ex.numOps ≤ m.idx
    · rw [if_pos hle]
      refine ⟨a, b, h.performed, h.le, ⟨hqueued, htrace, hkeeps⟩, fun _ => ?_, hqueue, h.pending⟩
      show b = ex.numOps
      omega
    · rw [if_neg hle]
      have hab := h.le.1
      have hbatch := remaining_le t
      have hbound := hfits.batch_lt
      obtain rfl : b = m.idx := by omega
      obtain ⟨-, heq⟩ | ⟨hrange, hlt⟩ : _ ∨ _ :=
        range_cases t m.idx (by omega) hremaining (show m.idx ≤ ex.numOps by omega)
      · omega
      · rw [hrange]
        refine ⟨a, min (m.idx + t.remaining) ex.numOps, h.performed, ⟨by omega, Nat.min_le_right _ _⟩,
          ⟨hqueued, htrace, hab, by omega, rfl, hkeeps⟩, fun _ => ?_, hqueue, h.pending⟩
        show _ = min ((m.idx + t.remaining) % 2 ^ 64) ex.numOps
        rw [Nat.mod_eq_of_lt (by omega)]
  | clamp t =>
    obtain ⟨hqueued, htrace, -⟩ := hsolo
    have hb : b = ex.numOps := h.next Role.running_ne_gone
    rw [range_numOps t hfits.batch_lt]
    refine ⟨a, b, h.performed, h.le, ?_, fun _ => ?_, hqueue, h.pending⟩
    · show t.ops = _
      rw [Taking.ops, hqueued, htrace]
      rfl
    · show b = min ex.numOps ex.numOps
      rw [hb, Nat.min_self]
  | @scan t k endIdx _ hk canDo localAllocations idMap hcando =>
    obtain ⟨hqueued, htrace, hak, hkb, rfl, hkeeps⟩ := hsolo
    rcases canDoOpOrQueue_cases hcando with ⟨rfl, rfl, rfl, -⟩ | ⟨rfl, rfl, id, hid, hlocal, hnot, rfl⟩
    · refine ⟨a, endIdx, h.stay Role.running_ne_gone rfl rfl ?_ rfl rfl hqueue fun _ _ => id⟩
      refine ⟨hqueued, ?_, by omega, by omega, rfl, hkeeps.add _⟩
      show t.traceOps ++ [ex.op k] = _
      rw [htrace, Executor.opsFrom_snoc hak]
    · exact absurd (hcan t k endIdx rfl hk id hid) (not_or.mpr ⟨hlocal, hnot⟩)
  | scanned t k endIdx _ hk =>
    obtain ⟨hqueued, htrace, hak, hkb, rfl, hkeeps⟩ := hsolo
    obtain rfl : k = endIdx := by omega
    exact ⟨a, k, h.stay Role.running_ne_gone rfl rfl ⟨hqueued, htrace, hkeeps⟩ rfl rfl hqueue fun _ _ => id⟩
  | start | lookup | lookupPending | arrive =>
    exact ⟨a, b, h.stay Role.running_ne_gone rfl rfl hsolo rfl rfl hqueue fun _ _ => id⟩
  | makeLocal mk _ htodo =>
    exact ⟨a, b, h.stay Role.running_ne_gone rfl rfl ((ops_next _ _ htodo).trans hsolo) rfl rfl hqueue fun _ _ => id⟩
  | makeLocalError | lookupNone | addFreeError | addResultError | assignError => cases hnext
  | addFree mk id ptr _ htodo hfree =>
    refine ⟨a, b, h.stay Role.running_ne_gone rfl rfl ((ops_next _ _ htodo).trans hsolo) rfl rfl hqueue ?_⟩
    intro id' op hop
    rw [addFree_ok hfree] at hop
    exact (lookup_erase_eq_some.mp hop).1
  | empty mk _ htodo hmade =>
    have hnil : ex.opsFrom a b = [] := by
      rw [← show mk.ops = _ from hsolo, Making.ops, htodo, hmade]
      rfl
    have hlength := congrArg List.length hnil
    rw [Executor.length_opsFrom, List.length_nil] at hlength
    have hab := h.le.1
    exact ⟨a, b, h.stay Role.running_ne_gone rfl rfl (show a = b by omega) rfl rfl hqueue fun _ _ => id⟩
  | made mk _ htodo hmade =>
    refine ⟨a, b, h.stay Role.running_ne_gone rfl rfl ?_ rfl rfl hqueue fun _ _ => id⟩
    have hops : mk.ops = mk.made.map Prod.fst := by rw [Making.ops, htodo, List.append_nil]
    exact hops.symm.trans hsolo
  | resume b' second =>
    cases second <;> exact ⟨a, b, h.stay Role.waiting_ne_gone rfl rfl hsolo rfl rfl hqueue fun _ _ => id⟩
  | @perform b' _ op line todo htodo result =>
    have hops : op :: todo.map Prod.fst = ex.opsFrom a b := by
      rw [← show b'.ops = _ from hsolo, Batch.ops, htodo, List.map_cons]
    have hlt : a < b := by
      by_contra hno
      rw [Executor.opsFrom_nil (by omega)] at hops
      cases hops
    rw [Executor.opsFrom_cons hlt] at hops
    obtain ⟨rfl, hrest⟩ := List.cons.inj hops
    refine ⟨a + 1, b, ?_, ⟨hlt, h.le.2⟩, hrest, h.next, hqueue, h.pending⟩
    show (m.performed ++ [_]).map Performed.op = _
    rw [List.map_append, h.performed, Executor.opsFrom_snoc (Nat.zero_le a)]
    rfl
  | performError | storeDone =>
    exact ⟨a, b, h.performed, h.le, trivial, fun hrole => absurd rfl hrole, hqueue, h.pending⟩
  | processed b' _ htodo =>
    have hnil : ex.opsFrom a b = [] := by
      rw [← show b'.ops = _ from hsolo, Batch.ops, htodo]
      rfl
    have hlength := congrArg List.length hnil
    rw [Executor.length_opsFrom, List.length_nil] at hlength
    have hab := h.le.1
    exact ⟨a, b, h.stay Role.running_ne_gone rfl rfl (show a = b by omega) rfl rfl hqueue fun _ _ => id⟩
  | insert id ptr records =>
    refine ⟨a, b, h.stay Role.running_ne_gone rfl rfl hsolo rfl rfl hqueue fun id' op hop => ?_⟩
    rcases lookup_insert_eq_some.mp hop with ⟨-, heq⟩ | ⟨-, hop⟩
    · cases heq
    · exact hop
  | pending id ptr records | notPending id ptr records =>
    exact absurd hnext.2 (h.pending id _)
  | assign | push => exact hsolo.elim
  | resumeNext =>
    exact ⟨a, b, h.stay Role.waiting_ne_gone rfl rfl hsolo rfl rfl hqueue fun _ _ => id⟩
  | flushed | arriveNext | drop =>
    exact ⟨a, b, h.stay Role.running_ne_gone rfl rfl hsolo rfl rfl hqueue fun _ _ => id⟩

theorem SoloInv.init (ex : Executor) (i : Fin ex.nThreads) :
    SoloInv ex (ex.init.pc i) ex.init.shared 0 0 where
  performed := (Executor.opsFrom_nil (Nat.le_refl 0)).symm
  le := ⟨Nat.le_refl 0, Nat.zero_le _⟩
  solo := rfl
  next _ := (Nat.zero_min ex.numOps).symm
  queue := rfl
  pending _ _ h := nomatch h

/-- **With one worker the ops are performed in the order of the trace**, also up to a failure: the
lines one after the other, as often as the trace is repeated. Nothing is left waiting. -/
theorem solo_prefix (hfits : ex.Fits) (hone : ex.nThreads = 1) (h : ex.Reach s) :
    (∃ k, k ≤ ex.numRepetitions * ex.tracefile.length ∧
      s.shared.performed.map Performed.op =
        (List.range k).map (fun i => ⟨i % ex.tracefile.length, i / ex.tracefile.length⟩) ∧
      ((∀ i, s.pc i = .returned) → k = ex.numRepetitions * ex.tracefile.length)) ∧
    s.shared.queuedOps = [] ∧ ∀ id op, s.shared.idMap.lookup id ≠ some (.idx op) := by
  have hinv : (∃ g, ReplayInv ex s g) ∧
      ∃ a b, SoloInv ex (s.pc ⟨0, hfits.threads⟩) s.shared a b := by
    refine h.induct (fun s => (∃ g, ReplayInv ex s g) ∧
      ∃ a b, SoloInv ex (s.pc ⟨0, hfits.threads⟩) s.shared a b) ⟨⟨_, .init ex⟩, 0, 0, .init ex _⟩ ?_
    rintro i s s' ⟨⟨g, hinv⟩, a, b, hsolo⟩ hstep
    obtain rfl : i = ⟨0, hfits.threads⟩ := Fin.ext (by omega)
    obtain ⟨g', -, hinv'⟩ := hinv.step hfits hstep
    exact ⟨⟨g', hinv'⟩, hsolo.step hfits hone hinv hstep⟩
  obtain ⟨⟨g, hinv⟩, a, b, hsolo⟩ := hinv
  have hle : a ≤ ex.numOps := hsolo.le.1.trans hsolo.le.2
  rw [← hfits.numOps]
  refine ⟨⟨a, hle, ?_, fun hreturned => ?_⟩, hsolo.queue, hsolo.pending⟩
  · rw [hsolo.performed, Executor.opsFrom, Nat.sub_zero, List.range_eq_range']
    rfl
  · have hcard := congrArg Multiset.card (hinv.performedOps_returned hfits hreturned)
    rw [Shared.performedOps, hsolo.performed,
      Multiset.coe_card, Multiset.coe_card, Executor.length_opsFrom, Executor.length_opsFrom] at hcard
    exact hcard

/-- The lines are a malloc and its free, and they are repeated twice. -/
theorem solo_prefix_mallocFree : ∃ s, (mallocFree 2 1).Reach s ∧
    s.shared.performed.map Performed.op = [⟨0, 0⟩, ⟨1, 0⟩, ⟨0, 1⟩, ⟨1, 1⟩] := by
  have hfits : (mallocFree 2 1).Fits := fits_mallocFree (by decide) (by decide) (by decide)
  obtain ⟨s, hreach, hreturned⟩ := exists_returned hfits .refl fun _ => nofun
  obtain ⟨⟨k, -, hops, hend⟩, -⟩ := solo_prefix hfits rfl hreach
  obtain rfl : k = 4 := hend hreturned
  exact ⟨s, hreach, hops⟩

end

end MallocBench.Replay
