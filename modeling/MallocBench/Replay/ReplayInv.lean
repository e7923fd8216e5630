import MallocBench.Replay.Moves

/-!
# Every state of a replay

What holds in every interleaving of the workers (`replayInv`), for a trace whose ids have been made
unique, as long as the index of the ops does not wrap around.
-/

namespace MallocBench.Replay

open Lib Trace

/-- The ids of the trace have been made unique, there are workers, and the index does not wrap
around. -/
structure Executor.Fits (ex : Executor) : Prop where
  rewritten : ∃ lines, rewriteIdsToUnique lines = .ok ex.tracefile
  threads : 0 < ex.nThreads
  bound : ex.numRepetitions * ex.tracefile.length + kBatchSize * ex.nThreads < 2 ^ 64

/-- Two lines, one of which frees what the other one has allocated. -/
def mallocFree (numRepetitions nThreads : Nat) : Executor where
  tracefile := [.malloc ⟨some 0, some 16, none⟩, .free ⟨some 0, none, none⟩]
  numRepetitions := numRepetitions
  nThreads := nThreads

theorem fits_mallocFree {numRepetitions nThreads : Nat} (hrepetitions : numRepetitions < 2 ^ 32)
    (hthreads : 0 < nThreads) (hlt : nThreads < 2 ^ 32) :
    (mallocFree numRepetitions nThreads).Fits where
  rewritten := ⟨(mallocFree 0 0).tracefile, by rfl⟩
  threads := hthreads
  bound := by
    show numRepetitions * 2 + 512 * nThreads < 2 ^ 64
    omega

/-- A worker that has found the queue empty, and has no ops yet. -/
def WorkerPc.Seen : WorkerPc → Prop
  | .claim t | .clamp t | .scan t _ _ => t.ops = []
  | .prepared ops => ops = []
  | .make mk | .load mk _ _ => mk.ops = []
  | .drop | .returned => True
  | _ => False

/-- What holds in every state. -/
structure ReplayInv (ex : Executor) (s : Workers ex) (g : Ghost) : Prop where
  conserved : Conserved ex s g
  shared : SharedInv ex s.shared
  locals : ∀ i, (s.pc i).Local ex s.shared
  done : s.shared.done → ∃ i, (s.pc i).role = .gone
  queue : s.shared.queuedOps ≠ [] → (∃ i, (s.pc i).role = .gone) ∨ ∃ i, ¬ (s.pc i).Seen

section

variable {ex : Executor} {s s' : Workers ex} {g : Ghost} {i j : Fin ex.nThreads} {pc pc' : WorkerPc}
  {m m' : Shared} {op : Op}

/-! ## Who will look at the queue again -/

theorem WorkerStep.done_cases (h : WorkerStep ex pc m pc' m') :
    m'.done = m.done ∨ pc'.role = .gone := by
  cases h with
  | storeDone => exact .inr rfl
  | _ => exact .inl rfl

theorem WorkerStep.gone (h : WorkerStep ex pc m pc' m') (hgone : pc.role = .gone) :
    pc'.role = .gone := by
  have hrole := h.roleStep
  rw [hgone] at hrole
  generalize pc'.role = r, m.barrier = barrier, m'.barrier = barrier' at hrole ⊢
  cases hrole
  rfl

theorem seen_range {t : Taking} {first : Nat} (h : (WorkerPc.range ex t first).Seen) :
    t.ops = [] := by
  unfold WorkerPc.range at h
  dsimp only at h
  split_ifs at h <;> exact h

/-- A worker finds the queue empty when it takes ops from it. -/
theorem WorkerStep.seen (h : WorkerStep ex pc m pc' m') (hseen : pc'.Seen) :
    pc.Seen ∨ m'.queuedOps = [] ∨ m.done := by
  cases h with
  | stop _ hdone => exact .inr (.inr hdone)
  | takeFromQueue =>
    have hnil : m.queuedOps = [] := by
      rcases hqueue : m.queuedOps with _ | ⟨op, ops⟩
      · rfl
      · rw [hqueue] at hseen
        exact absurd hseen (List.cons_ne_nil _ _)
    refine .inr (.inl ?_)
    rw [hnil, List.drop_nil]
  | enough t => exact .inl hseen
  | fetchAdd t =>
    refine .inl ?_
    split_ifs at hseen
    · exact hseen
    · exact seen_range hseen
  | clamp t => exact .inl (seen_range hseen)
  | @scan t i endIdx _ _ canDo =>
    refine .inl ?_
    cases canDo
    · exact hseen
    · have hops : t.queuedOps ++ (t.traceOps ++ [ex.op i]) = [] := hseen
      simp at hops
  | scanned t => exact .inl hseen
  | start ops => exact .inl hseen
  | makeLocal mk | addFree mk => exact absurd hseen spent_next
  | lookup mk | lookupPending mk => exact .inl hseen
  | empty mk _ htodo hmade =>
    refine .inl ?_
    show mk.ops = []
    rw [Making.ops, htodo, hmade]
    rfl
  | resume b second => split_ifs at hseen <;> exact hseen.elim
  | drop => exact .inl trivial
  | _ => exact hseen.elim

/-- A worker that adds to the queue will look at it again. -/
theorem WorkerStep.queued (h : WorkerStep ex pc m pc' m') (hqueue : m'.queuedOps ≠ []) :
    m.queuedOps ≠ [] ∨ ¬ pc'.Seen := by
  cases h with
  | takeFromQueue =>
    refine .inl fun hnil => hqueue ?_
    rw [hnil, List.drop_nil]
  | push => exact .inr id
  | _ => exact .inl hqueue

/-! ## Every state -/

theorem Executor.Fits.numOps (h : ex.Fits) : ex.numOps = ex.numRepetitions * ex.tracefile.length :=
  Executor.numOps_eq (by have := h.bound; omega)

theorem Executor.Fits.uniqueIds (h : ex.Fits) : UniqueIds ex.tracefile := by
  obtain ⟨lines, hrewritten⟩ := h.rewritten
  exact uniqueIds_of_rewrite hrewritten

theorem Executor.Fits.traced (h : ex.Fits) : ex.Traced :=
  traced_of_uniqueIds h.uniqueIds (by have := h.bound; omega)

theorem Executor.Fits.taken (h : ex.Fits) {i id : Nat} (hi : i < ex.numOps)
    (hputs : (opFlow ex.tracefile).puts (ex.op i) = some id) :
    ∃ j, j < ex.numOps ∧ (opFlow ex.tracefile).takes (ex.op j) = some id := by
  obtain ⟨lines, hrewritten⟩ := h.rewritten
  refine taken_op h.uniqueIds (fun p line id hp hid => ?_) (by have := h.bound; omega) hi hputs
  obtain ⟨q, line', -, hq, htakes⟩ := freed_of_rewrite hrewritten hp hid
  exact ⟨q, line', hq, htakes⟩

theorem Executor.Fits.numOps_lt (h : ex.Fits) : ex.numOps + kBatchSize * ex.nThreads < 2 ^ 64 := by
  rw [h.numOps]
  exact h.bound

theorem Executor.Fits.batch_lt (h : ex.Fits) : ex.numOps + kBatchSize < 2 ^ 64 := by
  have hlt := h.numOps_lt
  have hle : kBatchSize * 1 ≤ kBatchSize * ex.nThreads := Nat.mul_le_mul_left _ h.threads
  omega

/-- Not all workers have claimed too much. -/
theorem clamping_lt (h : (s.pc i).clamping = 0) : ∑ j, (s.pc j).clamping + 1 ≤ ex.nThreads := by
  rw [← Finset.add_sum_erase _ _ (Finset.mem_univ i), h, zero_add]
  have hle : ∀ pc : WorkerPc, pc.clamping ≤ 1 := by
    intro pc
    cases pc <;> first | exact Nat.zero_le 1 | exact Nat.le_refl 1
  have hsum := Finset.sum_le_card_nsmul (Finset.univ.erase i) (fun j => (s.pc j).clamping) 1
    fun j _ => hle _
  rw [Finset.card_erase_of_mem (Finset.mem_univ i), Finset.card_univ, Fintype.card_fin,
    smul_eq_mul, mul_one] at hsum
  have hpos := i.pos
  omega

/-- What a worker has is its own. -/
theorem Conserved.owned (ht : ex.Traced) (h : Conserved ex s g) (i : Fin ex.nThreads) :
    Owned ex (s.pc i) s.shared where
  isOp _ hop := h.index_of_held hop
  nodup := h.held_nodup ht i
  pending _ hop := ⟨h.index_of_pending hop, h.not_held_of_pending ht hop⟩
  queued _ hop := ⟨h.index_of_queued hop, h.not_held_of_queued ht hop⟩
  record _ hid := h.not_ptrIds_of_toRecord ht hid

theorem ReplayInv.init (ex : Executor) : ReplayInv ex ex.init ⟨0, 0, 0, 0⟩ where
  conserved := .init ex
  shared := by
    refine ⟨fun id op h => ?_, fun id ptr h => ?_, fun op hop => absurd hop List.not_mem_nil,
      fun pre e post h => ?_, rfl⟩
    · cases h
    · cases h
    · simp [Executor.init] at h
  locals _ := trivial
  done h := nomatch h
  queue h := absurd rfl h

/-- **A step of a worker** keeps what holds in every state. -/
theorem ReplayInv.step (hfits : ex.Fits) (h : ReplayInv ex s g)
    (hstep : Threads.StepBy (WorkerStep ex) i s s') :
    ∃ g', Moved ex (s.pc i) s.shared g (s'.pc i) s'.shared g' ∧ ReplayInv ex s' g' := by
  have ht := hfits.traced
  have howned := h.conserved.owned ht i
  have hself := hstep.pc_self
  have hlt : (s.pc i).clamping = 0 → g.claimed < 2 ^ 64 := by
    intro hzero
    have hsum := Nat.mul_le_mul_left kBatchSize (clamping_lt hzero)
    have hclaimed := h.conserved.claimed_lt
    have hbound := hfits.numOps_lt
    rw [Nat.mul_add] at hsum
    omega
  obtain ⟨g', hmoved⟩ := hself.moved ht (h.locals i) h.shared howned hfits.batch_lt h.conserved.idx hlt
    (h.conserved.spent i) (h.conserved.leaving i)
  have hgone : (∃ j, (s.pc j).role = .gone) → ∃ j, (s'.pc j).role = .gone := by
    rintro ⟨j, hj⟩
    by_cases hji : j = i
    · subst hji
      exact ⟨j, hself.gone hj⟩
    · exact ⟨j, by rw [hstep.pc_of_ne hji, hj]⟩
  refine ⟨g', hmoved, h.conserved.step hstep hmoved, hself.shared_next ht (h.locals i) h.shared howned,
    fun j => ?_, fun hdone => ?_, fun hqueue => ?_⟩
  · by_cases hj : j = i
    · exact hj ▸ hself.local_next ht (h.locals i) h.shared howned
    · rw [hstep.pc_of_ne hj]
      refine (h.locals j).frame (hself.frame (h.locals i)) (fun op hop id hid op' hop' hid' => ?_)
        fun id hid => h.conserved.not_toRecord_of_toRecord ht hj hid
      obtain rfl := ht.takes_unique (h.conserved.index_of_held hop) (h.conserved.index_of_held hop')
        hid hid'
      exact h.conserved.not_held_of_held ht hj hop hop'
  · rcases hself.done_cases with hsame | hrole
    · exact hgone (h.done (hsame ▸ hdone))
    · exact ⟨i, hrole⟩
  · rcases hself.queued hqueue with hold | hnew
    · rcases h.queue hold with hfailed | ⟨j, hj⟩
      · exact .inl (hgone hfailed)
      · by_cases hji : j = i
        · subst hji
          by_cases hseen : (s'.pc j).Seen
          · rcases hself.seen hseen with hseen | hnil | hdone
            · exact absurd hseen hj
            · exact absurd hnil hqueue
            · exact .inl (hgone (h.done hdone))
          · exact .inr ⟨j, hseen⟩
        · exact .inr ⟨j, by rwa [hstep.pc_of_ne hji]⟩
    · exact .inr ⟨i, hnew⟩

/-- **Every state** that an interleaving leads to. -/
theorem replayInv (hfits : ex.Fits) (h : ex.Reach s) : ∃ g, ReplayInv ex s g := by
  refine h.induct (fun s => ∃ g, ReplayInv ex s g) ⟨_, .init ex⟩ ?_
  rintro i s s' ⟨g, hinv⟩ hstep
  obtain ⟨g', -, hinv'⟩ := hinv.step hfits hstep
  exact ⟨g', hinv'⟩

end

end MallocBench.Replay
