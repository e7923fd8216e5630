import MallocBench.Slab.CheckBins

/-!
# The heap checker along the runs of a program

`mm_checkheap` fails in a reachable heap if and only if a region hangs. With
`malloc`, `calloc` and `free` alone a region hangs through one slip:
`medium_bin_free` takes a block that reaches beyond the first slab for a medium
one when it is the eighth block of its slab and does not start at the end of the
page. Behind a free block that leaves the other slabs to no block.
-/

namespace MallocBench.Slab

open Lib

section

variable {s t : Heap} {A B L : List Region} {r : Region} {strict : Prop} {i : Nat}

/-! ## Freeing a block that is missed -/

/-- `free` of the block at `p` misses that it reaches beyond the first slab, and the
block before it is free. -/
def MissesLarge (s : Heap) (p : Nat) : Prop :=
  (s.mem (ptrGetSlab p)).testBit 2 = false ∧ 1 < s.mem (ptrGetSlab p + 8) % 2 ^ 56 ∧
    p = ptrGetSlab p + offAt s.mem (ptrGetSlab p) 7 ∧ HangingBug s.mem (ptrGetSlab p) 7

instance {m : Nat → Nat} {a i : Nat} : Decidable (HangingBug m a i) :=
  inferInstanceAs (Decidable (_ ∧ _ ∧ _))

instance {s : Heap} {p : Nat} : Decidable (MissesLarge s p) :=
  inferInstanceAs (Decidable (_ ∧ _ ∧ _ ∧ _))

/-- The call is a `free` that meets the slip. -/
def HeapOp.Slips (s : Heap) : HeapOp → Prop
  | .free p => MissesLarge s p
  | _ => False

instance {s : Heap} : (op : HeapOp) → Decidable (op.Slips s)
  | .free p => inferInstanceAs (Decidable (MissesLarge s p))
  | .malloc _ | .calloc _ _ | .write _ _ => inferInstanceAs (Decidable False)

theorem offAt_bounds (m : Nat → Nat) (a i : Nat) : 16 ≤ offAt m a i ∧ offAt m a i ≤ 4096 :=
  ⟨(blockOff_bounds _ _).1, (blockOff_bounds _ _).2.1⟩

/-- The slip, in terms of the regions. -/
theorem missesLarge_iff {x f : Nat} (hinv : HeapInv strict s L) (hu : Used s.mem L x f) :
    MissesLarge s x ↔ ∃ r ∈ L, r.kind = .large ∧ 1 < r.n ∧ x = r.addr + offAt s.mem r.addr 7 ∧
      HangingBug s.mem r.addr 7 := by
  obtain ⟨bins, hslab⟩ := hinv.slab
  constructor
  · rintro ⟨h2, hn, hx, hbug⟩
    obtain ⟨r, hr, hur⟩ := hu
    have hsl := hur.slab (hinv.regions r hr) (hslab.mem_facts hr).2.1
    rw [hsl] at h2 hn hx hbug
    have hk : r.kind = .large := by
      unfold RegionUsed at hur
      cases hk : r.kind with
      | large => rfl
      | packed =>
        rw [(hinv.packed_facts hr hk).2.2.1] at h2
        cases h2
      | free =>
        rw [hk] at hur
        exact hur.elim
      | raw =>
        rw [hk] at hur
        exact hur.elim
    refine ⟨r, hr, hk, ?_, hx, hbug⟩
    rwa [(hinv.large_facts hr hk).2.2.2.1] at hn
  · rintro ⟨r, hr, hk, hn, rfl, hbug⟩
    have hfacts := hinv.large_facts hr hk
    have hb := offAt_bounds s.mem r.addr 7
    have hsl := ptrGetSlab_eq hfacts.2.2.2.2.2.2.1 hb.1 hb.2
    refine ⟨?_, ?_, ?_, ?_⟩
    · rw [hsl]
      exact hfacts.2.2.1
    · rw [hsl, hfacts.2.2.2.1]
      exact hn
    · rw [hsl]
    · rwa [hsl]

theorem missesLarge_null : ¬ MissesLarge s 0 := by
  rintro ⟨-, -, h0, -⟩
  have := (offAt_bounds s.mem (ptrGetSlab 0) 7).1
  omega

/-- The region `r` is a hanging one afterwards if it has several slabs. -/
theorem MediumFreed.hanging_iff (h : MediumFreed False s A r B i t)
    (hnot : ∀ r₀ ∈ A ++ B, ¬ Hanging s.mem r₀) (hbug : HangingBug s.mem r.addr i) :
    ∃ L', HeapInv False t L' ∧ ((∃ r' ∈ L', Hanging t.mem r') ↔ 1 < r.n) := by
  obtain ⟨rfl, hoff, hfree⟩ := hbug
  obtain ⟨n', B', pf, nf, hhang, hc, hcases⟩ := h.blocks
  have hk8 := hc.ok.le
  have hlt := hc.lt
  -- the block is not taken for a large one, so its region keeps its slabs
  obtain ⟨rfl, rfl⟩ := hhang.2 fun hlarge => hoff (hlarge.2.2 rfl)
  have hpf : pf = true := hc.prev.mpr ⟨by omega, hfree⟩
  have hnf : nf = false := by
    by_contra hcon
    have := (hc.next.mp (by simpa using hcon)).1
    omega
  subst hpf hnf
  have hfive : alAt s.mem r.addr 5 = true := by
    rcases hc.ok.coalesced 5 (by omega) with h5 | h6
    · exact h5
    · rw [hfree] at h6
      cases h6
  rcases hcases with ⟨honly, -⟩ | ⟨-, hinv', -, hleft⟩
  · exact absurd (honly 5 hfive) (by decide)
  · refine ⟨_, hinv', ?_⟩
    have hroom : offAt s.mem r.addr 6 + 512 ≤ offAt s.mem r.addr 8 :=
      (hc.ok.step 6 (by omega)).trans (hc.ok.off_le_succ 7)
    obtain ⟨-, hal, hcnt⟩ := hleft.merge hroom
    -- what is left is a free last block
    have hlast : alAt t.mem r.addr (cntAt t.mem r.addr - 1) = false := by
      rw [hal, hcnt, show cntAt s.mem r.addr = 8 by omega]
      rfl
    constructor
    · rintro ⟨r', hr', hhang'⟩
      have hkept : ∀ r₀ ∈ A ++ B', Hanging t.mem r₀ → Hanging s.mem r₀ := by
        rintro r₀ hr₀ ⟨hk₀, hn₀, hal₀⟩
        have hsame := (h.kept r₀ hr₀ (by rw [hk₀]; decide)).sameBlocks hk₀
        refine ⟨hk₀, hn₀, ?_⟩
        unfold cntAt at hal₀ ⊢
        rwa [hsame.offAt, hsame.alAt] at hal₀
      simp only [List.mem_append, List.mem_cons] at hr'
      rcases hr' with hr' | rfl | hr'
      · exact absurd (hkept r' (List.mem_append_left _ hr') hhang')
          (hnot r' (List.mem_append_left _ hr'))
      · exact hhang'.2.1
      · exact absurd (hkept r' (List.mem_append_right _ hr') hhang')
          (hnot r' (List.mem_append_right _ hr'))
    · intro hn
      exact ⟨⟨r.addr, r.n, .large⟩, by simp, rfl, hn, hlast⟩

end

/-! ## Runs -/

section

variable {s t s₀ t₀ : Heap} {L : List Region} {live live' : List (Nat × Nat)} {p : Nat}
  {blocks : List (Block Nat)}

theorem LiveOk.weaken (h : LiveOk True s L live) : LiveOk False s L live :=
  ⟨(heapInv_strict.mp h.inv).1, h.block, h.owner, h.nodup, h.sized⟩

theorem LiveOk.strict (h : LiveOk False s L live) (hnot : ∀ r ∈ L, ¬ Hanging s.mem r) :
    LiveOk True s L live :=
  ⟨heapInv_strict.mpr ⟨h.inv, hnot⟩, h.block, h.owner, h.nodup, h.sized⟩

/-- `free` does not change the extent of the heap. -/
theorem free_extent (h : LiveOk False s L live) (hp : p = 0 ∨ ∃ b ∈ live, b.1 = p)
    (heq : HeapOp.exec live (.free p) s = .ok (live', t)) :
    t.heap = s.heap ∧ t.heapEnd = s.heapEnd := by
  obtain ⟨hstep, hlive⟩ := wp_of_eq (heapFree_spec h hp False.elim) heq
  cases hstep with
  | idle => exact ⟨rfl, rfl⟩
  | freed hf => exact ⟨hf.heap, hf.heapEnd⟩
  | written => exact ⟨rfl, rfl⟩
  | allocated =>
    have hle := List.length_filter_le (fun b : Nat × Nat => b.1 ≠ p) live
    rw [← hlive, List.length_cons] at hle
    omega

/-- The block with the index of the slip is an allocated one. -/
theorem HeapInv.used_seven {A B : List Region} {r : Region} {e : Nat}
    (hinv : HeapInv False s (A ++ r :: B)) (hk : r.kind = .large)
    (hu : Used s.mem (A ++ r :: B) p e) (hp : p = r.addr + offAt s.mem r.addr 7)
    (hoff : offAt s.mem r.addr 7 ≠ 4096) :
    7 < cntAt s.mem r.addr ∧ alAt s.mem r.addr 7 = true := by
  have hr : r ∈ A ++ r :: B := by simp
  have hb := offAt_bounds s.mem r.addr 7
  obtain ⟨hok, -, -, -, -, -, hal, hn⟩ := hinv.large_facts hr hk
  obtain ⟨bins, hslab⟩ := hinv.slab
  have hlt : 7 < cntAt s.mem r.addr := by
    by_contra hge
    exact hoff (hok.stop 7 (by omega)).1
  obtain ⟨r', hr', hur⟩ := hu
  have hsl := hur.slab (hinv.regions r' hr') (hslab.mem_facts hr').2.1
  rw [hp, ptrGetSlab_eq hal hb.1 hb.2] at hsl
  obtain rfl := hslab.tiles.eq_of_addr hr hr' hsl
  unfold RegionUsed at hur
  rw [hk] at hur
  obtain ⟨o, o', ⟨j, hj, hused, rfl, -⟩, hj', -⟩ := hur
  rw [hp] at hj'
  refine ⟨hlt, ?_⟩
  rwa [hok.off_inj hlt hj (Nat.add_left_cancel hj')]

theorem free_hangingBug {b : Nat × Nat} {r : Region} (h : LiveOk True s L live) (hb : b ∈ live)
    (hr : r ∈ L) (hk : r.kind = .large) (hp : b.1 = r.addr + offAt s.mem r.addr 7)
    (hbug : HangingBug s.mem r.addr 7) (heq : HeapOp.exec live (.free b.1) s = .ok (live', t)) :
    ∃ L', LiveOk False t L' live' ∧ ((∃ r' ∈ L', Hanging t.mem r') ↔ 1 < r.n) := by
  obtain ⟨e, hu, -⟩ := h.block b hb
  obtain ⟨A, B, rfl⟩ := List.append_of_mem hr
  obtain ⟨hinv, hnot⟩ := heapInv_strict.mp h.inv
  obtain ⟨hlt, hused⟩ := hinv.used_seven hk hu hp hbug.2.1
  have hge := (offAt_bounds s.mem r.addr 7).1
  -- the general invariant is kept, and `MediumFreed` says what is left of the region
  obtain ⟨hstep, -⟩ := wp_of_eq (heapFree_spec h.weaken (.inr ⟨b, hb, rfl⟩) False.elim) heq
  obtain ⟨-, -, L', hL'⟩ := hstep.liveOk h.weaken
  have hrun : (free b.1 >>= fun _ => pure (live.filter (·.1 ≠ b.1))) s = .ok (live', t) := heq
  obtain ⟨u, t', hexec, hret⟩ := bind_eq_ok hrun
  obtain rfl : t' = t := by
    cases hret
    rfl
  rw [free_eq h.heap_pos (by omega)] at hexec
  have hfreed := wp_of_eq (_intFree_large hinv hk hlt hused hp fun _ => not_false) hexec
  obtain ⟨L₁, hinv₁, hiff⟩ := hfreed.hanging_iff
    (fun r₀ hr₀ => hnot r₀ (mem_insert_region hr₀)) hbug
  obtain rfl := hinv₁.unique hL'.inv
  exact ⟨L₁, hL', hiff⟩

/-- **`free` leaves a region hanging exactly by the slip.** -/
theorem free_hanging_iff (h : LiveOk True s L live) (hp : p = 0 ∨ ∃ b ∈ live, b.1 = p)
    (heq : HeapOp.exec live (.free p) s = .ok (live', t)) :
    ∃ L', LiveOk False t L' live' ∧ ((∃ r ∈ L', Hanging t.mem r) ↔ MissesLarge s p) := by
  by_cases hclean : NoHangingBug s.mem L p
  · -- the strict invariant is kept, and the slip is not met
    obtain ⟨hstep, -⟩ := wp_of_eq (heapFree_spec h hp fun _ => hclean) heq
    obtain ⟨-, -, L', hL'⟩ := hstep.liveOk h
    have hnot := (heapInv_strict.mp hL'.inv).2
    refine ⟨L', hL'.weaken, iff_of_false (fun ⟨r, hr, hh⟩ => hnot r hr hh) fun hmiss => ?_⟩
    rcases hp with rfl | ⟨b, hb, rfl⟩
    · exact missesLarge_null hmiss
    · obtain ⟨e, hu, -⟩ := h.block b hb
      obtain ⟨r, hr, hk, -, hx, hbug⟩ := (missesLarge_iff h.inv hu).mp hmiss
      exact hclean r hr hk 7 hx hbug
  · unfold NoHangingBug at hclean
    push Not at hclean
    obtain ⟨r, hr, hk, i, hpi, hbug⟩ := hclean
    obtain ⟨rfl, -⟩ := id hbug
    have hb := offAt_bounds s.mem r.addr 7
    rcases hp with rfl | ⟨b, hb', rfl⟩
    · omega
    obtain ⟨e, hu, -⟩ := h.block b hb'
    obtain ⟨L', hL', hiff⟩ := free_hangingBug h hb' hr hk hpi hbug heq
    refine ⟨L', hL', hiff.trans ⟨fun hn => ?_, fun hmiss => ?_⟩⟩
    · exact (missesLarge_iff h.inv hu).mpr ⟨r, hr, hk, hn, hpi, hbug⟩
    · -- the slip is met in the region of the block
      obtain ⟨r', hr', hk', hn, hx, -⟩ := (missesLarge_iff h.inv hu).mp hmiss
      obtain ⟨bins, hslab⟩ := h.inv.slab
      have hb₁ := offAt_bounds s.mem r'.addr 7
      have hsl := ptrGetSlab_eq (hslab.mem_facts hr').2.1 hb₁.1 hb₁.2
      rw [← hx, hpi, ptrGetSlab_eq (hslab.mem_facts hr).2.1 hb.1 hb.2] at hsl
      rwa [hslab.tiles.eq_of_addr hr hr' hsl]

/-- The strict invariant holds along every run that does not meet the slip. -/
theorem HeapRun.strict {live₀ : List (Nat × Nat)} {L₀ : List Region}
    (hrun : HeapRun (fun s op => ¬ op.Slips s) s₀ live₀ s live)
    (h₀ : LiveOk True s₀ L₀ live₀) : ∃ L, LiveOk True s L live := by
  induction hrun with
  | refl => exact ⟨L₀, h₀⟩
  | @step s t live live' op _ hop hmiss heq ih =>
    obtain ⟨L, hL⟩ := ih
    cases op with
    | free p =>
      obtain ⟨L', hL', hiff⟩ := free_hanging_iff hL hop heq
      exact ⟨L', hL'.strict fun r hr hhang => hmiss (hiff.mp ⟨r, hr, hhang⟩)⟩
    | malloc size => exact (wp_of_eq (heapOp_spec hL hop fun _ => trivial) heq).2.2
    | calloc nmemb size => exact (wp_of_eq (heapOp_spec hL hop fun _ => trivial) heq).2.2
    | write x v => exact (wp_of_eq (heapOp_spec hL hop fun _ => trivial) heq).2.2

/-- A run on a fresh process that does not meet the slip. -/
theorem heapRun_of_carefulCheck (ops : List HeapOp) (f : List (Nat × Nat) → Heap → Bool)
    (h : replayCheck (fun s live op => op.Allowed live ∧ ¬ op.Slips s) HeapOp.exec ops [] f = true) :
    ∃ t₀ s live, mmInit freshHeap = .ok (true, t₀) ∧
      HeapRun (fun s op => ¬ op.Slips s) t₀ [] s live ∧ f live s = true := by
  obtain ⟨s, live, ⟨t₀, hinit, hrun⟩, hf⟩ := exists_of_replayCheck (P := fun s live =>
    ∃ t₀, mmInit freshHeap = .ok (true, t₀) ∧ HeapRun (fun s op => ¬ op.Slips s) t₀ [] s live) _ _
    (fun t hinit => ⟨t, hinit, .refl⟩)
    (fun s live op live' t ⟨t₀, hinit, hrun⟩ hop hexec => ⟨t₀, hinit, hrun.step hop.1 hop.2 hexec⟩) h
  exact ⟨t₀, s, live, hinit, hrun, hf⟩

/-! ## The verdict along a run -/

/-- **The checker fails exactly when a region hangs**, in every state that a program reaches. -/
theorem progReach_checkheap (h : ProgReach s blocks) (hsize : Countable s) :
    ∃ L, Represents s L blocks ∧
      mmCheckheap s = if ∃ r ∈ L, Hanging s.mem r then .error .assertion else .ok (true, s) := by
  obtain ⟨L, hL⟩ := h.represents
  refine ⟨L, hL, ?_⟩
  split
  · next hhang => exact mmCheckheap_hanging hL.live.inv hhang
  · next hnot =>
    exact mmCheckheap_ok hL.live.inv (fun r hr hhang => hnot ⟨r, hr, hhang⟩) hsize

/-- A `realloc` that moves a block, and the checker's verdict afterwards. -/
theorem progReach_checkheap_moved : ∃ s blocks, ProgReach s blocks ∧
    (∃ b ∈ blocks, b.ptr = 73744 ∧ b.cells.length = 1500) ∧ Countable s ∧
    ∃ L, Represents s L blocks ∧ mmCheckheap s =
      if ∃ r ∈ L, Hanging s.mem r then .error .assertion else .ok (true, s) := by
  obtain ⟨s, blocks, hreach, hcheck⟩ := progReach_of_check
    [.calloc 3 7, .realloc 69680 600, .realloc 73744 1500]
    (fun blocks s => decide ((∃ b ∈ blocks, b.ptr = 73744 ∧ b.cells.length = 1500) ∧ Countable s))
    (by decide +kernel)
  obtain ⟨hmem, hsize⟩ := of_decide_eq_true hcheck
  exact ⟨s, blocks, hreach, hmem, hsize, progReach_checkheap hreach hsize⟩

/-- **A program that does not meet the slip passes the checker**, and the first `free` that
meets it makes the checker fail. -/
theorem heapRun_checkheap (hfresh : Fresh s₀) (hinit : mmInit s₀ = .ok (true, t₀))
    (hrun : HeapRun (fun s op => ¬ op.Slips s) t₀ [] s live) (hsize : Countable s) :
    mmCheckheap s = .ok (true, s) ∧ ∀ p live' t, HeapOp.Allowed live (.free p) →
      HeapOp.exec live (.free p) s = .ok (live', t) →
        (mmCheckheap t = .error .assertion ↔ MissesLarge s p) := by
  obtain ⟨-, -, hready⟩ := wp_of_eq (mmInit_spec hfresh) hinit
  obtain ⟨L, hL⟩ := hrun.strict (liveOk_init hready)
  obtain ⟨hinv, hnot⟩ := heapInv_strict.mp hL.inv
  refine ⟨mmCheckheap_ok hinv hnot hsize, fun p live' t hp heq => ?_⟩
  obtain ⟨L', hL', hiff⟩ := free_hanging_iff hL hp heq
  rw [← hiff]
  constructor
  · intro herr
    by_contra hnot'
    have hsize' : Countable t := by
      obtain ⟨hheap, hend⟩ := free_extent hL.weaken hp heq
      unfold Countable at hsize ⊢
      omega
    rw [mmCheckheap_ok hL'.inv (fun r hr hhang => hnot' ⟨r, hr, hhang⟩) hsize'] at herr
    cases herr
  · exact mmCheckheap_hanging hL'.inv

/-- A block of 4592 bytes that starts in the first of two slabs, with seven blocks before
it: when the last of these is freed first, the checker fails after the block itself is. -/
theorem heapRun_checkheap_slip : ∃ t₀ s live, mmInit freshHeap = .ok (true, t₀) ∧
    HeapRun (fun s op => ¬ op.Slips s) t₀ [] s live ∧ mmCheckheap s = .ok (true, s) ∧
    ∃ live' t, HeapOp.exec live (.free 73232) s = .ok (live', t) ∧
      mmCheckheap t = .error .assertion := by
  obtain ⟨t₀, s, live, hinit, hrun, hcheck⟩ := heapRun_of_carefulCheck
    (.malloc 4592 :: List.replicate 7 (.malloc 512) ++ [.free 72720])
    (fun live s => decide (Countable s ∧ HeapOp.Allowed live (.free 73232) ∧ MissesLarge s 73232))
    (by decide +kernel)
  obtain ⟨hsize, hp, hmiss⟩ := of_decide_eq_true hcheck
  obtain ⟨hok, hfails⟩ := heapRun_checkheap fresh_freshHeap hinit hrun hsize
  obtain ⟨-, -, hready⟩ := wp_of_eq (mmInit_spec fresh_freshHeap) hinit
  obtain ⟨L, hL⟩ := hrun.strict (liveOk_init hready)
  obtain ⟨live', t, hexec, -⟩ := wp_iff.mp (heapFree_spec hL.weaken hp False.elim)
  exact ⟨t₀, s, live, hinit, hrun, hok, live', t, hexec, (hfails _ _ _ hp hexec).mpr hmiss⟩

end

end MallocBench.Slab
