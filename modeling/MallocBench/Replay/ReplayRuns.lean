import MallocBench.Replay.Termination

/-!
# Replays

What a replay does, whatever the interleaving of its workers.

* `performed_nodup`, `performed_once`: no op is performed twice, and when all workers have returned,
  every line has been performed once in every iteration.
* `performed_inOrder`, `performed_producer`: every op comes after the op that has put its input, and
  is given its pointer.
* `failed_allocator`: workers only fail with errors of the allocator.
-/

namespace MallocBench.Replay

open Lib Trace

section

variable {ex : Executor} {s s' : Workers ex} {g : Ghost} {op : Op}

/-! ## What is left at the end -/

/-- The ops of the replay: every line in every iteration. -/
theorem Executor.mem_ops (hfits : ex.Fits) : op ∈ ex.opsFrom 0 ex.numOps ↔
    op.lineIdx < ex.tracefile.length ∧ op.iteration < ex.numRepetitions := by
  rw [Executor.mem_opsFrom, hfits.numOps]
  constructor
  · rintro ⟨k, -, hk, rfl⟩
    have hpos : 0 < ex.tracefile.length := ex.length_pos (hfits.numOps ▸ hk)
    exact ⟨Nat.mod_lt k hpos, Nat.div_lt_of_lt_mul (Nat.mul_comm _ _ ▸ hk)⟩
  · rintro ⟨hline, hiteration⟩
    refine ⟨op.lineIdx + op.iteration * ex.tracefile.length, Nat.zero_le _, ?_, ?_⟩
    · have hle := Nat.mul_le_mul_right ex.tracefile.length (Nat.succ_le_of_lt hiteration)
      rw [Nat.succ_mul] at hle
      omega
    · have hpos : 0 < ex.tracefile.length := by omega
      unfold Executor.op
      rw [Nat.add_mul_mod_self_right, Nat.mod_eq_of_lt hline, Nat.add_mul_div_right _ _ hpos,
        Nat.div_eq_of_lt hline, Nat.zero_add]

/-- When all workers have returned, nothing is left in the queue, and every op has been performed or
waits in the map. -/
theorem ReplayInv.returned (hfits : ex.Fits) (h : ReplayInv ex s g)
    (hreturned : ∀ i, s.pc i = .returned) :
    s.shared.queuedOps = [] ∧
      s.shared.performedOps + pendingOps s.shared.idMap = ex.opsFrom 0 ex.numOps ∧
      ptrIds s.shared.idMap + opTakes ex s.shared.performedOps = opPuts ex s.shared.performedOps := by
  have hrole : ∀ i, (s.pc i).role ≠ .gone := by
    intro i hgone
    rw [hreturned i] at hgone
    cases hgone
  have hqueue : s.shared.queuedOps = [] := by
    by_contra hne
    rcases h.queue hne with ⟨i, hi⟩ | ⟨i, hi⟩
    · exact hrole i hi
    · rw [hreturned i] at hi
      exact hi trivial
  obtain ⟨hlostMade, hlostOps, hlostIds⟩ := h.conserved.lost hrole
  have hclaimed : ex.numOps ≤ g.claimed := by
    have hpc : (s.pc ⟨0, hfits.threads⟩).Leaving := by
      rw [hreturned]
      trivial
    refine (h.conserved.leaving _ hpc).resolve_left fun hdone => ?_
    obtain ⟨i, hi⟩ := h.done hdone
    exact hrole i hi
  have hheld : ∑ i, (s.pc i).held ex = 0 := Finset.sum_eq_zero fun i _ => by rw [hreturned i]; rfl
  have hmade : ∑ i, (s.pc i).made = 0 := Finset.sum_eq_zero fun i _ => by rw [hreturned i]; rfl
  have hrecord : ∑ i, (s.pc i).toRecord = 0 :=
    Finset.sum_eq_zero fun i _ => by rw [hreturned i]; rfl
  have hops := h.conserved.ops
  have hids := h.conserved.ids
  rw [hheld, hlostMade, hlostOps, hqueue, Executor.opsFrom_nil hclaimed] at hops
  rw [hmade, hrecord, hlostMade, hlostIds] at hids
  simp only [Multiset.coe_nil, add_zero] at hops hids
  exact ⟨hqueue, hops, hids⟩

/-- Nothing is left waiting in the map. -/
theorem ReplayInv.pending_nil (hfits : ex.Fits) (h : ReplayInv ex s g)
    (hreturned : ∀ i, s.pc i = .returned) : pendingOps s.shared.idMap = 0 := by
  have ht := hfits.traced
  obtain ⟨-, hops, hids⟩ := h.returned hfits hreturned
  have hno : ∀ k, k < ex.numOps → ex.op k ∉ pendingOps s.shared.idMap := by
    -- the first op that waits, waits for one that has been performed
    intro k
    induction k using Nat.strong_induction_on with
    | _ k ih =>
      intro hk hpending
      obtain ⟨id, hidx⟩ := mem_pendingOps.mp hpending
      have htakes := h.shared.pending id _ hidx
      obtain ⟨j, hj, hputs⟩ := ht.produced hk htakes
      have hperformed : ex.op j ∈ s.shared.performedOps := by
        have hmem : ex.op j ∈ ex.opsFrom 0 ex.numOps :=
          Executor.mem_opsFrom.mpr ⟨j, Nat.zero_le j, hj.trans hk, rfl⟩
        rw [← Multiset.mem_coe, ← hops, Multiset.mem_add] at hmem
        exact hmem.resolve_right (ih j hj (hj.trans hk))
      have hid : id ∈ opPuts ex s.shared.performedOps := mem_opPuts.mpr ⟨_, hperformed, hputs⟩
      rw [← hids, Multiset.mem_add] at hid
      rcases hid with hptr | htaken
      · obtain ⟨ptr, hptr⟩ := mem_ptrIds.mp hptr
        cases hidx.symm.trans hptr
      · obtain ⟨op, hop, htakes'⟩ := mem_opTakes.mp htaken
        obtain rfl := ht.takes_unique (h.conserved.index_of_performed hop) ⟨k, hk, rfl⟩ htakes' htakes
        exact h.conserved.not_performed_of_pending ht hpending hop
  refine Multiset.eq_zero_of_forall_notMem fun op hop => ?_
  obtain ⟨k, hk, rfl⟩ := h.conserved.index_of_pending hop
  exact hno k hk hop

/-- Every op has been performed. -/
theorem ReplayInv.performedOps_returned (hfits : ex.Fits) (h : ReplayInv ex s g)
    (hreturned : ∀ i, s.pc i = .returned) : s.shared.performedOps = ex.opsFrom 0 ex.numOps := by
  obtain ⟨-, hops, -⟩ := h.returned hfits hreturned
  rwa [h.pending_nil hfits hreturned, add_zero] at hops

/-! ## Safety -/

theorem WorkerStep.performed_cases {pc pc' : WorkerPc} {m m' : Shared}
    (h : WorkerStep ex pc m pc' m') : m'.performed = m.performed ∨
      ∃ b op line todo result, pc = .process b ∧ b.todo = (op, line) :: todo ∧
        m'.performed = m.performed ++ [⟨op, inputPtr line b.idMap, result⟩] := by
  cases h with
  | perform b _ htodo result => exact .inr ⟨b, _, _, _, result, rfl, htodo, rfl⟩
  | _ => exact .inl rfl

theorem ReplayInv.nodup_performed (hfits : ex.Fits) (h : ReplayInv ex s g) :
    (s.shared.performed.map Performed.op).Nodup := by
  rw [← Multiset.coe_nodup, Multiset.nodup_iff_count_le_one]
  intro op
  have hle := h.conserved.count_le hfits.traced op
  unfold Shared.performedOps at hle
  omega

/-- **No op is performed twice**, also when the allocator fails, and none that is not one of the
replay. -/
theorem performed_nodup (hfits : ex.Fits) (h : ex.Reach s) :
    (s.shared.performed.map Performed.op).Nodup ∧
      ∀ e ∈ s.shared.performed, e.op.lineIdx < ex.tracefile.length ∧
        e.op.iteration < ex.numRepetitions := by
  obtain ⟨g, hinv⟩ := replayInv hfits h
  refine ⟨hinv.nodup_performed hfits, fun e he => ?_⟩
  have hmem : e.op ∈ s.shared.performedOps := Multiset.mem_coe.mpr (List.mem_map_of_mem he)
  obtain ⟨k, hk, heq⟩ := hinv.conserved.index_of_performed hmem
  exact (Executor.mem_ops hfits).mp (Executor.mem_opsFrom.mpr ⟨k, Nat.zero_le k, hk, heq⟩)

theorem performed_nodup_mallocFree : ∃ s, (mallocFree 2 2).Reach s ∧ (∀ i, s.pc i = .returned) ∧
    (s.shared.performed.map Performed.op).Nodup := by
  have hfits : (mallocFree 2 2).Fits := fits_mallocFree (by decide) (by decide) (by decide)
  obtain ⟨s, hreach, hreturned⟩ := exists_returned hfits .refl fun _ => nofun
  exact ⟨s, hreach, hreturned, (performed_nodup hfits hreach).1⟩

/-- **Every op comes after the op that has put its input**, and is given the pointer that this op
has returned. -/
theorem performed_inOrder (hfits : ex.Fits) (h : ex.Reach s) :
    InOrder ex s.shared.performed := by
  obtain ⟨g, hinv⟩ := replayInv hfits h
  exact hinv.shared.inOrder

theorem performed_inOrder_mallocFree : ∃ s, (mallocFree 2 2).Reach s ∧ (∀ i, s.pc i = .returned) ∧
    InOrder (mallocFree 2 2) s.shared.performed := by
  have hfits : (mallocFree 2 2).Fits := fits_mallocFree (by decide) (by decide) (by decide)
  obtain ⟨s, hreach, hreturned⟩ := exists_returned hfits .refl fun _ => nofun
  exact ⟨s, hreach, hreturned, performed_inOrder hfits hreach⟩

/-- **The pointer that an op frees or reallocates** is the one that was returned, in the same
iteration, for the line that produces its id in the trace as it was before the ids were made unique. -/
theorem performed_producer (hfits : ex.Fits) {lines : List TraceLine}
    (hrewritten : rewriteIdsToUnique lines = .ok ex.tracefile) (h : ex.Reach s)
    {pre post : List Performed} {e : Performed} (heq : s.shared.performed = pre ++ e :: post)
    {line : TraceLine} {k : Nat} (hline : lines[e.op.lineIdx]? = some line)
    (htakes : idFlow.takes line = some k) :
    ∃ q, idFlow.Producer (lines.take e.op.lineIdx) k q ∧ ∃ e' ∈ pre, e'.op = ⟨q, e.op.iteration⟩ ∧
      (ex.Faithful → e.input = some e'.result) := by
  have hbound : ex.numRepetitions * ex.tracefile.length < 2 ^ 64 := by
    have := hfits.bound
    omega
  obtain ⟨g, hinv⟩ := replayInv hfits h
  have hmem : ∀ e ∈ s.shared.performed, ex.IsOp e.op := fun e he =>
    hinv.conserved.index_of_performed (Multiset.mem_coe.mpr (List.mem_map_of_mem he))
  obtain ⟨i, hi, hop⟩ := hmem e (by rw [heq]; simp)
  rw [← hop] at hline ⊢
  obtain ⟨q, hproducer, htakes'⟩ := takes_rewritten hrewritten hbound hi hline htakes
  obtain ⟨hq, line', hgetq, hputsq⟩ := producer_get hproducer
  -- the op of the producer in the same iteration
  have hlast := Nat.mod_lt i (Executor.length_pos hi)
  obtain ⟨hmod, hdiv⟩ := Executor.sameIteration (hq.trans hlast) i
  have hj : q + i / ex.tracefile.length * ex.tracefile.length < ex.numOps := by
    have hdecomp := Nat.div_add_mod i ex.tracefile.length
    rw [Nat.mul_comm] at hdecomp
    omega
  have hputs' := puts_rewritten hrewritten hbound hj (hmod.symm ▸ hgetq) hputsq
  rw [hmod, hdiv] at hputs'
  obtain ⟨e', he', hputs, hinput⟩ := hinv.shared.inOrder pre e post heq _ (hop ▸ htakes')
  obtain ⟨l, hl, hop'⟩ := hmem e' (by rw [heq]; exact List.mem_append_left _ he')
  rw [← hop'] at hputs
  have hlj := hfits.traced.puts_inj hl hj hputs hputs'
  refine ⟨q, hproducer, e', he', ?_, hinput⟩
  rw [← hop', hlj, Executor.op, hmod, hdiv]
  rfl

/-- The free of the second iteration is given what the malloc of the second iteration has returned. -/
theorem performed_producer_mallocFree : ∃ s, (mallocFree 2 2).Reach s ∧ ∃ pre e post,
    s.shared.performed = pre ++ e :: post ∧ e.op = ⟨1, 1⟩ ∧
      ∃ e' ∈ pre, e'.op = ⟨0, 1⟩ ∧ e.input = some e'.result := by
  have hfits : (mallocFree 2 2).Fits := fits_mallocFree (by decide) (by decide) (by decide)
  obtain ⟨s, hreach, hreturned⟩ := exists_returned hfits .refl fun _ => nofun
  obtain ⟨g, hinv⟩ := replayInv hfits hreach
  have hmem : ⟨1, 1⟩ ∈ s.shared.performedOps := by
    rw [hinv.performedOps_returned hfits hreturned]
    exact Executor.mem_opsFrom.mpr ⟨3, by decide, by decide, by decide⟩
  obtain ⟨e, he, hop⟩ := List.mem_map.mp (Multiset.mem_coe.mp hmem)
  obtain ⟨pre, post, heq⟩ := List.append_of_mem he
  have hrewritten : rewriteIdsToUnique (mallocFree 0 0).tracefile = .ok (mallocFree 2 2).tracefile := by
    rfl
  have hline : (mallocFree 0 0).tracefile[e.op.lineIdx]? = some (.free ⟨some 0, none, none⟩) := by
    rw [hop]
    rfl
  have htakes : idFlow.takes (.free ⟨some 0, none, none⟩) = some 0 := rfl
  obtain ⟨q, hproducer, e', he', hop', hinput⟩ :=
    performed_producer hfits hrewritten hreach heq hline htakes
  rw [hop] at hproducer hop'
  obtain rfl : q = 0 := Nat.lt_one_iff.mp hproducer.lt
  refine ⟨s, hreach, pre, e, post, heq, hop, e', he', hop', hinput fun line hline => ?_⟩
  rcases List.mem_cons.mp hline with rfl | hline
  · exact fun _ => by decide
  · obtain rfl := List.mem_singleton.mp hline
    trivial

/-- **Workers only fail with errors of the allocator**, and no slot of the map is read as what it is
not. -/
theorem failed_allocator (hfits : ex.Fits) (h : ex.Reach s) : s.shared.misread = false ∧
    ∀ i error stored, s.pc i = .failed error stored → error = .allocator := by
  obtain ⟨g, hinv⟩ := replayInv hfits h
  refine ⟨hinv.shared.misread, fun i error stored hpc => ?_⟩
  have hlocal := hinv.locals i
  rw [hpc] at hlocal
  exact hlocal

/-- The allocator may fail in place of any op that has been performed. -/
theorem exists_failed {n : Nat} (h : ex.Reach s) (hn : n < s.shared.performed.length) :
    ∃ s' i, ex.Reach s' ∧ s'.pc i = .failed .allocator false ∧ s'.shared.performed.length = n := by
  induction h with
  | refl => cases hn
  | tail hreach hlast ih =>
    obtain ⟨i, hstep⟩ := hlast
    rename_i s s'
    by_cases hlt : n < s.shared.performed.length
    · exact ih hlt
    · -- it is the op of this step
      rcases hstep.pc_self.performed_cases with heq | ⟨b, op, line, todo, result, hpc, htodo, heq⟩
      · rw [heq] at hn
        exact absurd hn hlt
      · rw [heq, List.length_append, List.length_singleton] at hn
        have hfail : WorkerStep ex (.process b) s.shared _ _ :=
          .performError b s.shared (by rw [htodo]; exact List.cons_ne_nil _ _)
        refine ⟨_, i, hreach.tail ⟨i, .intro hpc hfail⟩, Function.update_self .., ?_⟩
        show s.shared.performed.length = n
        omega

/-- The allocator fails after three of four ops. -/
theorem failed_allocator_mallocFree : ∃ s i, (mallocFree 2 2).Reach s ∧
    s.pc i = .failed .allocator false ∧ s.shared.performed.length = 3 ∧
      s.shared.misread = false := by
  have hfits : (mallocFree 2 2).Fits := fits_mallocFree (by decide) (by decide) (by decide)
  obtain ⟨s, hreach, hreturned⟩ := exists_returned hfits .refl fun _ => nofun
  obtain ⟨g, hinv⟩ := replayInv hfits hreach
  have hlength : s.shared.performed.length = 4 := by
    have hcard : (s.shared.performed.map Performed.op).length = ((mallocFree 2 2).opsFrom 0 4).length :=
      congrArg Multiset.card (hinv.performedOps_returned hfits hreturned)
    rwa [List.length_map, Executor.length_opsFrom] at hcard
  have hlt : 3 < s.shared.performed.length := by omega
  obtain ⟨s', i, hreach', hpc, hperformed⟩ := exists_failed hreach hlt
  exact ⟨s', i, hreach', hpc, hperformed, (failed_allocator hfits hreach').1⟩

/-! ## The end of a replay -/

/-- **Every line has been performed once in every iteration** when all workers have returned, and
the map and the queue are empty. -/
theorem performed_once (hfits : ex.Fits) (h : ex.Reach s) (hreturned : ∀ i, s.pc i = .returned) :
    (∀ op, (s.shared.performed.map Performed.op).count op =
        if op.lineIdx < ex.tracefile.length ∧ op.iteration < ex.numRepetitions then 1 else 0) ∧
      s.shared.queuedOps = [] ∧ s.shared.idMap = ∅ := by
  obtain ⟨g, hinv⟩ := replayInv hfits h
  obtain ⟨hqueue, -, -⟩ := hinv.returned hfits hreturned
  have hops := hinv.performedOps_returned hfits hreturned
  have ht := hfits.traced
  refine ⟨fun op => ?_, hqueue, ?_⟩
  · rw [← Multiset.coe_count, show ((s.shared.performed.map Performed.op : List Op) : Multiset Op) =
      ex.opsFrom 0 ex.numOps from hops, Multiset.coe_count,
      ht.opsFrom_nodup.count]
    exact if_congr (Executor.mem_ops hfits) rfl rfl
  · have hmem : ∀ id, id ∉ s.shared.idMap := by
      intro id hid
      obtain ⟨val, hval⟩ := Option.isSome_iff_exists.mp (AList.lookup_isSome.mpr hid)
      cases val with
      | idx op =>
        have hpending := mem_pendingOps.mpr ⟨id, hval⟩
        rw [hinv.pending_nil hfits hreturned] at hpending
        exact absurd hpending (Multiset.notMem_zero _)
      | allocatedPtr ptr =>
        -- the pointer would have been taken
        have hptr : id ∈ ptrIds s.shared.idMap := mem_ptrIds.mpr ⟨ptr, hval⟩
        obtain ⟨e, he, hputs, -⟩ := hinv.shared.ptr id ptr hval
        obtain ⟨i, hi, hop⟩ := hinv.conserved.index_of_performed
          (Multiset.mem_coe.mpr (List.mem_map_of_mem he))
        rw [← hop] at hputs
        obtain ⟨j, hj, htakes⟩ := hfits.taken hi hputs
        have htaken : id ∈ opTakes ex s.shared.performedOps := by
          rw [hops]
          exact mem_opTakes.mpr ⟨_, Executor.mem_opsFrom.mpr ⟨j, Nat.zero_le j, hj, rfl⟩, htakes⟩
        have hle := hinv.conserved.count_id_le ht id
        have h₁ := Multiset.one_le_count_iff_mem.mpr hptr
        have h₂ := Multiset.one_le_count_iff_mem.mpr htaken
        simp only [opTakes_add, Multiset.count_add] at hle
        omega
    exact AList.ext (List.eq_nil_iff_forall_not_mem.mpr fun entry hentry =>
      hmem entry.1 (AList.mem_keys.mp (List.mem_map_of_mem hentry)))

theorem performed_once_mallocFree : ∃ s, (mallocFree 2 2).Reach s ∧
    (s.shared.performed.map Performed.op).count ⟨1, 1⟩ = 1 ∧ s.shared.idMap = ∅ := by
  have hfits : (mallocFree 2 2).Fits := fits_mallocFree (by decide) (by decide) (by decide)
  obtain ⟨s, hreach, hreturned⟩ := exists_returned hfits .refl fun _ => nofun
  obtain ⟨hcount, -, hempty⟩ := performed_once hfits hreach hreturned
  exact ⟨s, hreach, hcount ⟨1, 1⟩, hempty⟩

end

end MallocBench.Replay
