import MallocBench.Slab.CheckSlabs
import MallocBench.Slab.Program

/-!
# The bin walks of the heap checker, and its verdict

The bins hold exactly the nodes that the slab walk has counted, so the checker
accepts a heap that keeps the invariant if and only if no region hangs. A program
meets the failing assertion only by the slip of `medium_bin_free` that leaves a
region hanging.
-/

namespace MallocBench.Slab

open Lib

/-! ## Walking a bin -/

section

variable {s : Heap} {member : Nat → Nat → HeapM Unit} {stop : Nat}

/-- A walk over a linked list whose members pass their assertions counts them. -/
theorem checkBinWalk_spec {C : Cells Nat} {l post : List Nat} {fuel prev x cnt : Nat}
    (hlinks : C.Links s.mem (prev :: l ++ [stop])) (hstop : stop ∉ l)
    (hchain : (prev :: l).IsChain fun x y => wp (member x y) (fun _ t => t = s) s)
    (hv : ∀ y ∈ l, s.Valid (C.next y)) (hx : l ++ [stop] = x :: post)
    (hlen : cnt + l.length < 1000000) (hfuel : l.length < fuel) :
    wp (checkBinWalk stop C.next member fuel prev x cnt)
      (fun n t => t = s ∧ n = cnt + l.length) s := by
  induction l generalizing post fuel prev x cnt with
  | nil =>
    obtain ⟨fuel, rfl⟩ := Nat.exists_eq_succ_of_ne_zero (by omega : fuel ≠ 0)
    obtain ⟨rfl, -⟩ := List.cons.inj hx
    unfold checkBinWalk
    rw [wp_ite, if_pos rfl]
    exact wp_pure.mpr ⟨rfl, rfl⟩
  | cons y l ih =>
    obtain ⟨fuel, rfl⟩ := Nat.exists_eq_succ_of_ne_zero (by omega : fuel ≠ 0)
    obtain ⟨rfl, rfl⟩ := List.cons.inj hx
    obtain ⟨z, post, hz, -⟩ := Cells.exists_succ l stop
    have hrest : C.Links s.mem (y :: l ++ [stop]) := (Cells.links_cons_cons.mp hlinks).2
    have hnext : s.mem (C.next y) = z := by
      rw [List.cons_append, hz] at hrest
      exact (Cells.links_cons_cons.mp hrest).1.1
    have hne : y ≠ stop := by
      rintro rfl
      exact hstop List.mem_cons_self
    obtain ⟨hy, hchain⟩ := List.isChain_cons_cons.mp hchain
    rw [List.length_cons] at hlen hfuel
    unfold checkBinWalk
    rw [wp_ite, if_neg hne]
    refine wp_call hy ?_
    rintro _ t rfl
    rw [wp_bind, wp_mallocAssert, wp_bind, wp_load64, hnext]
    refine ⟨decide_eq_true (by omega), hv y List.mem_cons_self, ?_⟩
    refine wp_mono (ih hrest (fun hm => hstop (List.mem_cons_of_mem _ hm)) hchain
      (fun a ha => hv a (List.mem_cons_of_mem _ ha)) hz (by omega) (by omega)) ?_
    rintro n t' ⟨rfl, rfl⟩
    refine ⟨rfl, ?_⟩
    rw [List.length_cons]
    omega

/-- The same for a null-terminated list. -/
theorem NullLists.checkWalk {K : NullList} {bins : Nat → List Nat} {i fuel : Nat}
    (h : NullLists K s bins) (hi : i < K.num)
    (hmember : ∀ x y, y ∈ bins i → s.mem (K.cells.prev y) = x →
      wp (member x y) (fun _ t => t = s) s)
    (hlen : (bins i).length < 1000000) (hfuel : (bins i).length < fuel) :
    wp (checkBinWalk 0 K.cells.next member fuel (K.hd s.heap i)
        (s.mem (K.cells.next (K.hd s.heap i))) 0)
      (fun n t => t = s ∧ n = (bins i).length) s := by
  obtain ⟨z, post, hz, -⟩ := Cells.exists_succ (bins i) 0
  have hlinks := h.lists.links i hi
  rw [h.first hi hz]
  refine wp_mono (checkBinWalk_spec hlinks (h.zero_not_mem hi) ?_
    (fun y hy => h.valid_next hi (.inr hy)) hz (by omega) hfuel) ?_
  · refine Cells.Links.chain (S := fun _ _ => True) hlinks ?_ (List.pairwise_of_forall fun _ _ => trivial)
      fun x y hy hprev _ => hmember x y hy hprev
    intro y hy
    exact h.good.layout.back_node y (h.lists.node i y hi hy)
  · rintro n t ⟨rfl, rfl⟩
    exact ⟨rfl, Nat.zero_add _⟩

end

/-! ## The nodes and the bins -/

section

variable {s : Heap} {L : List Region} {bins sb mb : Nat → List Nat} {c c₀ : CheckCounts} {i : Nat}
  {r : Region} {x : Nat}

theorem SlabInv.nodup (hslab : SlabInv s L bins) : L.Nodup := by
  refine hslab.tiles.pairwise.imp_of_mem fun {r r'} hr _ hle heq => ?_
  subst heq
  have := Region.addr_lt_stop (hslab.mem_facts hr).1
  omega

theorem nodup_freeNodes (hslab : SlabInv s L bins) : (freeNodes L).Nodup := by
  refine (hslab.nodup.filter _).map_on fun r hr r' hr' heq => ?_
  exact hslab.tiles.eq_of_addr (List.mem_of_mem_filter hr) (List.mem_of_mem_filter hr')
    (Prod.mk.inj heq).1

theorem nodup_smallNodes (hslab : SlabInv s L bins) : (smallNodes s.mem L).Nodup := by
  refine (hslab.nodup.filter _).map_on fun r hr r' hr' heq => ?_
  exact hslab.tiles.eq_of_addr (List.mem_of_mem_filter hr) (List.mem_of_mem_filter hr')
    (Prod.mk.inj heq).1

theorem mem_freeNodes : (x, i) ∈ freeNodes L ↔
    ∃ r ∈ L, r.kind = .free ∧ r.addr = x ∧ slabBinIdx r.n = i := by
  unfold freeNodes
  simp only [List.mem_map, List.mem_filter, decide_eq_true_eq, Prod.mk.injEq, and_assoc]

theorem mem_smallNodes {m : Nat → Nat} : (x, i) ∈ smallNodes m L ↔ PackedFree m L x i := by
  unfold smallNodes PackedFree PackedIn
  simp only [List.mem_map, List.mem_filter, decide_eq_true_eq, Prod.mk.injEq, and_assoc]
  constructor
  · rintro ⟨r, hr, hk, hfree, rfl, hidx⟩
    exact ⟨r, hr, hk, rfl, hfree, hidx⟩
  · rintro ⟨r, hr, hk, rfl, hfree, hidx⟩
    exact ⟨r, hr, hk, hfree, rfl, hidx⟩

theorem mem_blockNodes {m : Nat → Nat} {k : Nat} : (x, i) ∈ blockNodes m r k ↔
    ∃ j, j < k ∧ alAt m r.addr j = false ∧ x = r.addr + offAt m r.addr j ∧
      mediumBinIdx (offAt m r.addr (j + 1) - offAt m r.addr j) = i := by
  unfold blockNodes
  simp only [List.mem_map, List.mem_filter, List.mem_range, Bool.not_eq_true', Prod.mk.injEq,
    and_assoc, @eq_comm _ x]

theorem mem_mediumNodes {m : Nat → Nat} : (x, i) ∈ mediumNodes m L ↔
    ∃ e, FreeBlock m L x e ∧ mediumBinIdx (e - x) = i := by
  unfold mediumNodes
  simp only [List.mem_flatMap, List.mem_filter, decide_eq_true_eq, mem_blockNodes]
  constructor
  · rintro ⟨r, ⟨hr, hk⟩, j, hj, hal, rfl, hidx⟩
    refine ⟨r.addr + offAt m r.addr (j + 1), ⟨r, hr, hk, _, _, ⟨j, hj, hal, rfl, rfl⟩, rfl, rfl⟩, ?_⟩
    rwa [Nat.add_sub_add_left]
  · rintro ⟨e, ⟨r, hr, hk, o, o', ⟨j, hj, hal, rfl, rfl⟩, rfl, rfl⟩, hidx⟩
    rw [Nat.add_sub_add_left] at hidx
    exact ⟨r, ⟨hr, hk⟩, j, hj, hal, rfl, hidx⟩

theorem nodup_mediumNodes (h : HeapInv False s L) : (mediumNodes s.mem L).Nodup := by
  obtain ⟨bins, hslab⟩ := h.slab
  unfold mediumNodes
  refine List.nodup_flatMap.mpr ⟨fun r hr => ?_, ?_⟩
  · -- the blocks of one region have different offsets
    obtain ⟨hr, hk⟩ := List.mem_filter.mp hr
    have hok := (h.regions r hr).large (of_decide_eq_true hk)
    refine (List.nodup_range.filter _).map_on fun j hj j' hj' heq => ?_
    have hj := List.mem_range.mp (List.mem_of_mem_filter hj)
    have hj' := List.mem_range.mp (List.mem_of_mem_filter hj')
    exact hok.off_inj hj hj' (Nat.add_left_cancel (Prod.mk.inj heq).1)
  · refine (hslab.nodup.filter _).imp_of_mem fun {r r'} hr hr' hne => ?_
    obtain ⟨hr, hk⟩ := List.mem_filter.mp hr
    obtain ⟨hr', hk'⟩ := List.mem_filter.mp hr'
    have hok := (h.regions r hr).large (of_decide_eq_true hk)
    have hok' := (h.regions r' hr').large (of_decide_eq_true hk')
    rintro ⟨x, i⟩ hx hx'
    obtain ⟨j, hj, hal, rfl, -⟩ := mem_blockNodes.mp hx
    obtain ⟨j', hj', hal', heq, -⟩ := mem_blockNodes.mp hx'
    -- both blocks lie in the first slab of their region
    have hn := Region.addr_lt_stop (hslab.mem_facts hr).1
    have hn' := Region.addr_lt_stop (hslab.mem_facts hr').1
    have hsize := hok.free_size (hslab.mem_facts hr).1 hj hal
    have hsize' := hok'.free_size (hslab.mem_facts hr').1 hj' hal'
    have hend := hok.page' (j + 1)
    have hend' := hok'.page' (j' + 1)
    exact hne (hslab.tiles.eq_of_mem hr hr' (x := r.addr + offAt s.mem r.addr j)
      ⟨by omega, by omega⟩ ⟨by omega, by omega⟩)

end

/-! ## The three kinds of bins -/

/-- Between two free blocks lies an allocated one. -/
theorem BlocksOk.free_apart {strict : Prop} {off : Nat → Nat} {al : Nat → Bool} {n k i j : Nat}
    (h : BlocksOk strict off al n k) (hij : i < j) (hj : j < k) (hi : al i = false)
    (hfree : al j = false) : off i + 1024 ≤ off j := by
  have hne : j ≠ i + 1 := by
    rintro rfl
    rcases h.coalesced i hj with hal | hal
    · rw [hi] at hal
      cases hal
    · rw [hfree] at hal
      cases hal
  have := h.add_le hij hj
  omega

section

variable {s : Heap} {L : List Region} {bins sb mb : Nat → List Nat} {c : CheckCounts}
  {i x y : Nat}

/-- The checker gives up on bins of 1000000 members; a heap of this size has none. -/
def Countable (s : Heap) : Prop := s.heapEnd < s.heap + 1024 * 1000000

instance {s : Heap} : Decidable (Countable s) := inferInstanceAs (Decidable (_ < _))

theorem checkSlabBinMember_spec (hslab : SlabInv s L bins) (hi : i < 128) (hy : y ∈ bins i)
    (hprev : s.mem (y + 16) = x)
    (hsort : x = slabHd s.heap i ∨ (x ∈ bins i ∧ (i = 127 → s.mem (x + 24) ≤ s.mem (y + 24)))) :
    wp (checkSlabBinMember (slabHd s.heap i) i x y) (fun _ t => t = s) s := by
  obtain ⟨r, hr, hk, rfl, hidx⟩ := (hslab.free.mem_bins i y hi).mp hy
  obtain ⟨hn, hal, -, -, p, hok⟩ := hslab.mem_facts hr
  have hstop := Region.addr_lt_stop hn
  have hv : ∀ k, k < 4 → s.Valid (r.addr + 8 * k) := fun k hk =>
    hslab.valid hr (by omega) (by omega) (by omega)
  unfold checkSlabBinMember
  rw [wp_bind, wp_load64, hprev, wp_bind, wp_mallocAssert]
  refine ⟨hv 2 (by omega), decide_eq_true rfl, ?_⟩
  rw [wp_bind, wp_slabIsFree (by omega), hok.alloc_bit, Region.isAlloc_eq_false.mpr hk, wp_bind,
    wp_mallocAssert]
  refine ⟨hv 0 (by omega), rfl, ?_⟩
  rw [wp_bind, wp_load64, hok.num_slabs hk, wp_bind, wp_mallocAssert]
  refine ⟨hv 3 (by omega), decide_eq_true hidx, ?_⟩
  rw [wp_ite]
  split
  · next hlast =>
    rcases hsort with rfl | ⟨hx, hle⟩
    · exact absurd rfl hlast.2
    · obtain ⟨r', hr', -, rfl, -⟩ := (hslab.free.mem_bins i x hi).mp hx
      have hstop' := Region.addr_lt_stop (hslab.mem_facts hr').1
      have hal' := (hslab.mem_facts hr').2.1
      rw [hok.num_slabs hk] at hle
      rw [wp_bind, wp_load64, wp_mallocAssert]
      exact ⟨hslab.valid hr' (by omega) (by omega) (by omega), decide_eq_true (hle hlast.1), rfl⟩
  · exact wp_pure.mpr rfl

theorem checkSlabBin_spec (hslab : SlabInv s L bins)
    (hc : ∀ i, c.freeSlab i = tally (freeNodes L) i) (hsize : Countable s) (hi : i < 128) :
    wp (checkSlabBin c i) (fun _ t => t = s) s := by
  have hfree := hslab.free
  have hlists := hfree.lists
  have hhd := slabHd_eq (i := i) hlists.pos hlists.base
  have hfuel := hlists.length_lt_walkFuel hslab.brk hi
  have hlen : (bins i).length < 1000000 := by
    unfold Countable at hsize
    unfold Heap.walkFuel at hfuel
    simp only [slabSize] at hfuel
    omega
  have hcnt : c.freeSlab i = (bins i).length := by
    rw [hc]
    refine (length_eq_tally (nodup_freeNodes hslab) (hlists.lists.nodup i hi) fun x => ?_).symm
    rw [hfree.mem_bins i x hi, mem_freeNodes]
  -- the last bin is sorted by the sizes that the members record
  have hsort : (bins i).Pairwise fun x y => i = 127 → s.mem (x + 24) ≤ s.mem (y + 24) := by
    by_cases h127 : i = 127
    · subst h127
      refine hfree.sorted.imp_of_mem fun {x y} hx hy hle _ => ?_
      obtain ⟨r, hr, hk, rfl, -⟩ := (hfree.mem_bins 127 x hi).mp hx
      obtain ⟨r', hr', hk', rfl, -⟩ := (hfree.mem_bins 127 y hi).mp hy
      obtain ⟨-, -, -, -, p, hok⟩ := hslab.mem_facts hr
      obtain ⟨-, -, -, -, p', hok'⟩ := hslab.mem_facts hr'
      rw [hok.num_slabs hk, hok'.num_slabs hk']
      exact hle r hr r' hr' rfl rfl
    · exact List.pairwise_of_forall fun _ _ h => absurd h h127
  have hlinks := hlists.lists.links i hi
  obtain ⟨z, post, hz, -⟩ := Cells.exists_succ (bins i) (slabHd s.heap i)
  have hhead : s.mem (slabBin s.heap i) = z := by
    have hfirst := hlists.lists.first hi hz
    rwa [show slabCells.next (slabHd s.heap i) = slabBin s.heap i from hhd] at hfirst
  have hnot : slabHd s.heap i ∉ bins i :=
    fun hm => hlists.layout.hd_not_node i hi (hlists.lists.node i _ hi hm)
  have hchain := Cells.Links.chain hlinks (fun _ _ => trivial) hsort
    fun x y hy hprev hxy => checkSlabBinMember_spec hslab hi hy hprev hxy
  have hwalk : wp (checkSlabBinWalk (slabHd s.heap i) i s.walkFuel (slabHd s.heap i) z 0)
      (fun n t => t = s ∧ n = 0 + (bins i).length) s :=
    checkBinWalk_spec hlinks hnot hchain (fun y hy => hlists.valid_next hi (.inr hy)) hz
      (by omega) hfuel
  have hvbin : s.Valid (slabBin s.heap i) := by
    have hv := hlists.valid_next hi (.inl rfl)
    rwa [show slabHd s.heap i + 8 = slabBin s.heap i from hhd] at hv
  unfold checkSlabBin
  rw [wp_bind, wp_get]
  dsimp only
  rw [wp_bind, wp_load64, hhead]
  refine ⟨hvbin, wp_call hwalk ?_⟩
  rintro n t ⟨rfl, rfl⟩
  rw [wp_bind, wp_mallocAssert, wp_ite]
  refine ⟨decide_eq_true (by rw [hcnt, Nat.zero_add]), ?_⟩
  split
  · next hlast =>
    rw [wp_mallocAssert]
    subst hlast
    refine ⟨?_, rfl⟩
    have := hfree.skiplist_last
    rw [Bool.not_eq_true']
    exact this
  · next hlast =>
    rw [wp_mallocAssert, Bool.or_eq_true]
    refine ⟨?_, rfl⟩
    rcases List.eq_nil_or_concat (bins i) with hnil | ⟨l, y, hl⟩
    · left
      rw [hnil]
      rfl
    · right
      exact hfree.skiplist i (by simp only [numSlabBins] at hlast; omega) (by rw [hl]; simp)

theorem checkSmallBinMember_spec (hslab : SlabInv s L bins)
    (hreg : ∀ r ∈ L, RegionOk False s.mem r) (hy : PackedFree s.mem L y i)
    (hprev : s.mem (y + 16) = x) : wp (checkSmallBinMember i x y) (fun _ t => t = s) s := by
  obtain ⟨r, hr, hk, rfl, hfree, hidx⟩ := hy
  obtain ⟨hn, hal, -, -, p, hrok⟩ := hslab.mem_facts hr
  have hok := (hreg r hr).packed hk
  have hstop := Region.addr_lt_stop hn
  have hv : ∀ k, k < 4 → s.Valid (r.addr + 8 * k) := fun k hk =>
    hslab.valid hr (by omega) (by omega) (by omega)
  have hpacked : (s.mem r.addr).testBit 2 = true := by
    obtain ⟨-, -, -, hkind⟩ := hrok
    rw [hk] at hkind
    exact hkind.1
  have hsz : mallocAlign + fieldOf (s.mem r.addr) 1 1 * mallocAlign = packedSize s.mem r.addr := by
    unfold packedSize
    simp only [mallocAlign]
    omega
  unfold checkSmallBinMember packedSlabBlockSize
  rw [wp_bind, wp_load64, hprev, wp_bind, wp_mallocAssert]
  refine ⟨hv 2 (by omega), decide_eq_true rfl, ?_⟩
  rw [wp_bind, wp_slabIsPacked (by omega), hpacked, wp_bind, wp_mallocAssert]
  refine ⟨hv 0 (by omega), rfl, ?_⟩
  rw [wp_bind, wp_bind, wp_loadField (by omega) (by omega), wp_pure, hsz, wp_bind, wp_mallocAssert]
  refine ⟨hv 0 (by omega), decide_eq_true hidx, ?_⟩
  rw [wp_bind, wp_loadField (by omega) (by omega), wp_bind, wp_mallocAssert]
  refine ⟨hv 0 (by omega), bne_iff_ne.mpr hok.pos.ne', ?_⟩
  rw [wp_ite]
  split
  · next hs =>
    rw [wp_bind, wp_loadField (by omega) (by omega), wp_mallocAssert]
    refine ⟨hv 0 (by omega), bne_iff_ne.mpr fun h0 => ?_, rfl⟩
    exact (hok.lvl1_zero_iff (by omega) (Nat.mod_lt _ (by decide))).mp h0 hfree
  · next hs =>
    have h48 : 48 < packedSize s.mem r.addr := by
      by_contra hle
      have := packedSizes_two_level hok.size_mem (by omega)
      omega
    rw [wp_bind, wp_load64, wp_mallocAssert]
    exact ⟨hv 3 (by omega), bne_iff_ne.mpr fun h0 => (hok.word_eq_zero_iff h48).mp h0 hfree, rfl⟩

theorem checkSmallBin_spec (hslab : SlabInv s L bins) (hreg : ∀ r ∈ L, RegionOk False s.mem r)
    (hsmall : SmallLists s (PackedFree s.mem L) sb)
    (hc : ∀ i, c.smallbin i = tally (smallNodes s.mem L) i) (hsize : Countable s) (hi : i < 23) :
    wp (checkSmallBin c i) (fun _ t => t = s) s := by
  have hnodup := hsmall.lists.lists.nodup i hi
  have hbase := hslab.free.lists.base
  have hend := (hslab.tiles.aligned (by omega)).1
  -- a slab in the bin has its page for itself
  have hlen : (sb i).length ≤ s.heapEnd / 4096 - s.heap / 4096 := by
    refine length_le_of_spread hnodup (d := 4096) (by decide) (fun x hx => ?_) fun x hx y hy heq => ?_
    · have hb := hsmall.bounds ((hsmall.mem_bins i x hi).mp hx)
      have := hslab.brk
      omega
    · have hb := hsmall.bounds ((hsmall.mem_bins i x hi).mp hx)
      have hb' := hsmall.bounds ((hsmall.mem_bins i y hi).mp hy)
      omega
  have hcnt : c.smallbin i = (sb i).length := by
    rw [hc]
    refine (length_eq_tally (nodup_smallNodes hslab) hnodup fun x => ?_).symm
    rw [hsmall.mem_bins i x hi, mem_smallNodes]
  have hfuel : (sb i).length < s.walkFuel := by
    unfold Heap.walkFuel
    simp only [slabSize]
    omega
  have hwalk := hsmall.lists.checkWalk hi
    (fun x y hy hprev => checkSmallBinMember_spec hslab hreg ((hsmall.mem_bins i y hi).mp hy) hprev)
    (by unfold Countable at hsize; omega) hfuel
  rw [show smallList.cells.next (smallList.hd s.heap i) = smallBin s.heap i from
    smallList_hd s.heap i] at hwalk
  unfold checkSmallBin
  rw [wp_bind, wp_get]
  dsimp only
  rw [wp_bind, wp_load64]
  refine ⟨hsmall.valid_bin hi, wp_call hwalk ?_⟩
  rintro n t ⟨rfl, rfl⟩
  rw [wp_mallocAssert]
  exact ⟨decide_eq_true hcnt, rfl⟩

theorem checkMediumBinMember_spec (hslab : SlabInv s L bins)
    (hreg : ∀ r ∈ L, RegionOk False s.mem r) (hnot : ∀ r ∈ L, ¬ Hanging s.mem r) {e : Nat}
    (hy : FreeBlock s.mem L y e) (hidx : mediumBinIdx (e - y) = i) (hprev : s.mem (y + 8) = x) :
    wp (checkMediumBinMember i x y) (fun _ t => t = s) s := by
  obtain ⟨r, hr, hk, o, o', ⟨j, hj, hfree, rfl, rfl⟩, rfl, rfl⟩ := hy
  obtain ⟨hn, hal, -, -, p, hrok⟩ := hslab.mem_facts hr
  have hok := (hreg r hr).large hk
  have hstop := Region.addr_lt_stop hn
  have hv := hslab.valid hr (le_refl _) (by omega) (by omega)
  have hv' := hslab.valid hr (x := r.addr + 8) (by omega) (by omega) (by omega)
  have hoff := hok.free_size hn hj hfree
  have hpage := hok.page' (j + 1)
  have halign := hok.aligned j
  have hsz : s.mem (r.addr + 8) % 2 ^ 56 = r.n := by
    obtain ⟨-, -, -, hkind⟩ := hrok
    rw [hk] at hkind
    exact hkind.2
  -- a free last block ends with its page, since nothing hangs
  have hend : blockEnd (offAt s.mem r.addr) r.n (cntAt s.mem r.addr) j =
      offAt s.mem r.addr (j + 1) := by
    unfold blockEnd
    split
    · rfl
    · next hlast =>
      have hn1 : r.n = 1 := by
        by_contra hne
        refine hnot r hr ⟨hk, by omega, ?_⟩
        rwa [show cntAt s.mem r.addr - 1 = j by omega]
      rw [hn1, (hok.stop (j + 1) (by omega)).1]
  unfold checkMediumBinMember
  rw [wp_bind, wp_load64, hprev, wp_bind, wp_mallocAssert]
  refine ⟨hslab.valid hr (by omega) (by omega) (by omega), decide_eq_true rfl, ?_⟩
  dsimp only
  rw [blockGetSlab_eq hal (by omega), wp_bind]
  refine wp_mediumBinFindBlockPos hok.largeHeader hj hv rfl ?_
  rw [wp_bind]
  refine wp_mediumBinBlockSize hok.largeHeader hn hj (by omega) hv hv' hsz ?_
  rw [hend, wp_bind, wp_mallocAssert]
  refine ⟨decide_eq_true ?_, ?_⟩
  · rwa [Nat.add_sub_add_left] at hidx
  rw [wp_bind, wp_loadAlloc (by omega), wp_mallocAssert]
  refine ⟨hv', bne_iff_ne.mpr fun h0 => ?_, rfl⟩
  obtain ⟨k, -, hused⟩ := hok.used
  have hbit := testBit_allocByte (s.mem (r.addr + 8)) k
  rw [h0, Nat.zero_testBit] at hbit
  rw [show blockAl (s.mem (r.addr + 8)) k = true from hused] at hbit
  cases hbit

theorem checkMediumBin_spec (h : HeapInv False s L) (hslab : SlabInv s L bins)
    (hnot : ∀ r ∈ L, ¬ Hanging s.mem r) (hmed : MediumLists s (FreeBlock s.mem L) mb)
    (hc : ∀ i, c.mediumbin i = tally (mediumNodes s.mem L) i) (hsize : Countable s) (hi : i < 224) :
    wp (checkMediumBin c i) (fun _ t => t = s) s := by
  have hnodup := hmed.lists.lists.nodup i hi
  have hbase := hslab.free.lists.base
  have hend := (hslab.tiles.aligned (by omega)).1
  -- between two free blocks of a page lies an allocated one
  have hspread : ∀ x ∈ mb i, ∀ y ∈ mb i, x / 1024 = y / 1024 → x = y := by
    intro x hx y hy heq
    obtain ⟨e, ⟨r, hr, hk, o, o', ⟨j, hj, hfree, rfl, rfl⟩, rfl, rfl⟩, -⟩ :=
      (hmed.mem_bins i x hi).mp hx
    obtain ⟨e', ⟨r', hr', hk', o, o', ⟨j', hj', hfree', rfl, rfl⟩, rfl, rfl⟩, -⟩ :=
      (hmed.mem_bins i y hi).mp hy
    have hok := (h.regions r hr).large hk
    have hok' := (h.regions r' hr').large hk'
    have hn := hslab.mem_facts hr
    have hn' := hslab.mem_facts hr'
    have hlt := hok.free_size hn.1 hj hfree
    have hlt' := hok'.free_size hn'.1 hj' hfree'
    have hpage := hok.page' (j + 1)
    have hpage' := hok'.page' (j' + 1)
    obtain rfl := hslab.tiles.eq_of_addr hr hr' (by omega)
    rcases Nat.lt_trichotomy j j' with hlt | rfl | hgt
    · have := hok.free_apart hlt hj' hfree hfree'
      omega
    · rfl
    · have := hok.free_apart hgt hj hfree' hfree
      omega
  have hlen : (mb i).length ≤ s.heapEnd / 1024 - s.heap / 1024 := by
    refine length_le_of_spread hnodup (d := 1024) (by decide) (fun x hx => ?_) hspread
    obtain ⟨e, hx, -⟩ := (hmed.mem_bins i x hi).mp hx
    have hb := hmed.bounds hx
    have := hslab.brk
    omega
  have hcnt : c.mediumbin i = (mb i).length := by
    rw [hc]
    refine (length_eq_tally (nodup_mediumNodes h) hnodup fun x => ?_).symm
    rw [hmed.mem_bins i x hi, mem_mediumNodes]
  have hfuel : (mb i).length < 8 * s.walkFuel := by
    unfold Heap.walkFuel
    simp only [slabSize]
    omega
  have hmember : ∀ x y, y ∈ mb i → s.mem (y + 8) = x →
      wp (checkMediumBinMember i x y) (fun _ t => t = s) s := by
    intro x y hy hprev
    obtain ⟨e, hy, hidx⟩ := (hmed.mem_bins i y hi).mp hy
    exact checkMediumBinMember_spec hslab h.regions hnot hy hidx hprev
  have hwalk := hmed.lists.checkWalk hi hmember (by unfold Countable at hsize; omega) hfuel
  unfold checkMediumBin
  rw [wp_bind, wp_get]
  dsimp only
  rw [wp_bind, wp_load64]
  refine ⟨hmed.valid_bin hi, wp_call hwalk ?_⟩
  rintro n t ⟨rfl, rfl⟩
  rw [wp_bind, wp_mallocAssert, wp_mallocAssert, Bool.or_eq_true]
  refine ⟨decide_eq_true hcnt, ?_, rfl⟩
  rcases List.eq_nil_or_concat (mb i) with hnil | ⟨l, y, hl⟩
  · left
    rw [hnil]
    rfl
  · right
    exact hmed.skiplist i hi (by rw [hl]; simp)

end

/-! ## The verdict -/

section

variable {s t₀ : Heap} {L : List Region} {blocks : List (Block Nat)} {live : List (Nat × Nat)}

theorem mmCheckheap_ok (h : HeapInv False s L) (hnot : ∀ r ∈ L, ¬ Hanging s.mem r)
    (hsize : Countable s) : mmCheckheap s = .ok (true, s) := by
  obtain ⟨bins, hslab⟩ := h.slab
  obtain ⟨mb, hmed⟩ := h.medium
  obtain ⟨sb, hsmall⟩ := h.small
  refine eq_ok_of_wp ?_
  unfold mmCheckheap
  rw [wp_bind, wp_get]
  refine wp_call (checkSlabs_spec hslab h.regions L _ _ true _ (fun r hr => hr) hnot hslab.tiles rfl
    hslab.length_lt_walkFuel) ?_
  rintro c t ⟨rfl, hcounted, hlast⟩
  have hfree : ∀ i, c.freeSlab i = tally (freeNodes L) i := fun i => by
    rw [hcounted.freeSlab, Nat.zero_add]
  have hsmallCnt : ∀ i, c.smallbin i = tally (smallNodes t.mem L) i := fun i => by
    rw [hcounted.smallbin, Nat.zero_add]
  have hmedCnt : ∀ i, c.mediumbin i = tally (mediumNodes t.mem L) i := fun i => by
    rw [hcounted.mediumbin, Nat.zero_add]
  rw [wp_bind, wp_mallocAssert]
  refine ⟨?_, ?_⟩
  · rw [hlast]
    have hbit := and_one_eq_zero_iff (x := t.flags) (by decide)
    cases hflag : t.flags.getLsbD 0 with
    | true =>
      have hne : t.flags &&& 1 ≠ 0 := fun h0 => by
        rw [hbit.mp h0] at hflag
        cases hflag
      simpa using hne
    | false =>
      have heq : t.flags &&& 1 = 0 := hbit.mpr hflag
      simpa using heq
  refine wp_call (wp_forM_checks fun i hi => checkSlabBin_spec hslab hfree hsize
    (List.mem_range.mp hi)) ?_
  rintro _ t' rfl
  refine wp_call (wp_forM_checks fun i hi => checkSmallBin_spec hslab h.regions hsmall hsmallCnt
    hsize (List.mem_range.mp hi)) ?_
  rintro _ t'' rfl
  refine wp_call (wp_forM_checks fun i hi => checkMediumBin_spec h hslab hnot hmed hmedCnt hsize
    (List.mem_range.mp hi)) ?_
  rintro _ t''' rfl
  exact wp_pure.mpr ⟨rfl, rfl⟩

theorem mmCheckheap_hanging (h : HeapInv False s L) (hhang : ∃ r ∈ L, Hanging s.mem r) :
    mmCheckheap s = .error .assertion := by
  obtain ⟨bins, hslab⟩ := h.slab
  have hget : (get : HeapM Heap) s = .ok (s, s) := rfl
  unfold mmCheckheap
  rw [bind_of_ok hget]
  exact bind_of_error (checkSlabs_hanging hslab h.regions L _ _ true _ (fun r hr => hr) hhang
    hslab.tiles hslab.length_lt_walkFuel)

end

end MallocBench.Slab
