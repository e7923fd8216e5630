import MallocBench.Slab.BlockFree

/-!
# The paths of `realloc`

`__int_realloc` looks up the slab, the index and the size of the block, and decides from
them and from the new size what to do (`_intRealloc_eq`). One of the ways is the same for
all kinds of blocks: a nested `malloc`, a copy and a `free` (`reallocMove_spec`). It always
succeeds, and returns another block.
-/

namespace MallocBench.Slab

open Lib

section

variable {s t : Heap} {A B L : List Region} {r : Region} {strict : Prop} {i p e q n size : Nat}

/-! ## What `realloc` looks up -/

/-- `realloc` of a pointer to a non-zero size. -/
theorem realloc_eq (hheap : s.heap ≠ 0) (hp : p ≠ 0) (h0 : alignUp size mallocAlign ≠ 0) :
    realloc p size s = _intRealloc p (alignUp size mallocAlign) s := by
  have hassert : mallocAssert (decide (s.heap ≠ 0)) s = .ok ((), s) :=
    eq_ok_of_wp (wp_mallocAssert.mpr ⟨decide_eq_true hheap, rfl, rfl⟩)
  unfold realloc
  rw [bind_of_ok (show (get : HeapM Heap) s = .ok (s, s) from rfl), bind_of_ok hassert,
    if_neg hp, if_neg h0]

/-- The index and the size of a medium or large block. -/
theorem BlockAt.reads (hinv : HeapInv strict s (A ++ r :: B)) (hb : BlockAt s r i p e) :
    mediumBinFindBlockPos r.addr p s = .ok (i, s) ∧
      mediumBinBlockSize r.addr i s = .ok (e - p, s) := by
  obtain ⟨hok, -, -, hsz, hv, hv', hal, hn⟩ := hinv.large_facts (r := r) (by simp) hb.kind
  refine ⟨eq_ok_of_wp (wp_mediumBinFindBlockPos hok.largeHeader hb.lt hv hb.start ⟨rfl, rfl⟩), ?_⟩
  refine eq_ok_of_wp (wp_mediumBinBlockSize hok.largeHeader hn hb.lt (by omega) hv hv' hsz ⟨?_, rfl⟩)
  have hstart := hb.start
  have hstop := hb.stop
  omega

/-- Medium and large blocks have at least the minimal size. -/
theorem BlockAt.size_ge (hinv : HeapInv strict s (A ++ r :: B)) (hb : BlockAt s r i p e) :
    p + 512 ≤ e := by
  obtain ⟨hok, -, -, -, -, -, -, hn⟩ := hinv.large_facts (r := r) (by simp) hb.kind
  have hge := BlocksOk.blockEnd_ge hok hn hb.lt
  have hstart := hb.start
  have hstop := hb.stop
  omega

/-- The case distinction of `__int_realloc` for medium and large blocks. -/
theorem _intRealloc_eq (hinv : HeapInv strict s (A ++ r :: B)) (hb : BlockAt s r i p e) (size : Nat) :
    _intRealloc p size s =
      (if size < minMediumBlockSz then reallocMove p size size (_intLargeBlockFree r.addr p)
      else if minLargeBlockSz ≤ e - p then
        if e - p < size then reallocLargeGrow r.addr p size (e - p)
        else reallocLargeShrink r.addr p size i (e - p)
      else if size ≤ e - p then reallocMediumShrink r.addr p size i (e - p)
      else reallocMediumGrow r.addr p size i (e - p)) s := by
  obtain ⟨-, -, h2, -⟩ := hinv.large_facts (r := r) (by simp) hb.kind
  have hpacked : slabIsPacked r.addr s = .ok (false, s) := by
    rw [hinv.slabIsPacked_eq, h2]
  obtain ⟨hpos, hsize⟩ := hb.reads hinv
  unfold _intRealloc
  rw [(hb.slab hinv).1, bind_of_ok hpacked, if_neg (by decide)]
  by_cases hsmall : size < minMediumBlockSz
  · rw [if_pos hsmall, if_pos hsmall]
  · rw [if_neg hsmall, if_neg hsmall, bind_of_ok hpos, bind_of_ok hsize]

/-! ## Moving a block -/

/-- What moving the block at `p` does: another block is returned, with the first `n` bytes of
the old one, the old one is freed as `free` does it in the heap in which the new one has been
allocated, and nothing happens to the other blocks. -/
structure Moved (s : Heap) (L : List Region) (p size n q : Nat) (t : Heap) : Prop where
  ne : q ≠ p
  steps : ∃ u, _intMalloc size s = .ok (q, u) ∧
    _intFree p { u with mem := copyRange u.mem q p n } = .ok ((), t)
  block : ∃ L' g, HeapInv False t L' ∧ Used t.mem L' q g ∧ q + size ≤ g ∧
    ∀ y f, Used s.mem L y f → y ≠ p → ∃ f', f ≤ f' ∧ Used t.mem L' y f' ∧ (f' ≤ q ∨ g ≤ y)
  copied : ∀ w, w < n → t.mem (q + w) = s.mem (p + w)
  contents : ∀ y f, Used s.mem L y f → y ≠ p → ∀ w, y ≤ w → w < f → t.mem w = s.mem w

/-- **Moving a block**, whatever its kind. The freeing function is chosen by what was read
before the nested `malloc`. -/
theorem reallocMove_spec {release : HeapM Unit} (hinv : HeapInv False s L)
    (hu : Used s.mem L p e) (h0 : 0 < size) (h16 : size % 16 = 0) (hmax : size + 4111 < 2 ^ 64)
    (hn : n ≤ size) (hne : n ≤ e - p)
    (hrelease : ∀ u L', HeapInv False u L' → Used u.mem L' p e →
      slabClass u.mem (ptrGetSlab p) = slabClass s.mem (ptrGetSlab p) →
      release u = _intFree p u) :
    wp (reallocMove p size n release) (fun q t => Moved s L p size n q t) s := by
  have hbounds := hinv.used_bounds hu
  obtain ⟨q, u, hmalloc, halloc⟩ := wp_iff.mp (_intMalloc_spec hinv h0 h16 hmax)
  have hq0 := halloc.ne_zero
  have hheap := halloc.heap
  have hend := halloc.heapEnd
  obtain ⟨L₁, g, hinv₁, hg, hfresh, hused, -⟩ := halloc.inv
  have hold : ∀ y f, Used s.mem L y f → Used u.mem L₁ y f ∧ y ≠ q := fun y f hy =>
    ⟨(hused y f).mpr (.inl hy), fun hc => hfresh f (hc ▸ hy)⟩
  have huq : Used u.mem L₁ q g := (hused q g).mpr (.inr ⟨rfl, rfl⟩)
  obtain ⟨hup, hpq⟩ := hold p e hu
  obtain ⟨bins₁, hslab₁⟩ := hinv₁.slab
  have hbrk := hslab₁.brk
  have hbq := hinv₁.used_bounds huq
  have hbp := hinv₁.used_bounds hup
  -- the copy only writes to the new block
  have hapart : ∀ y f, Used s.mem L y f → f ≤ q ∨ g ≤ y := fun y f hy =>
    (hinv₁.used_disjoint (hold y f hy).1 huq).resolve_left fun hc => (hold y f hy).2 hc.1
  have hcopy : ∀ w, w < q ∨ g ≤ w → copyRange u.mem q p n w = u.mem w :=
    fun w hw => if_neg (by omega)
  have hmemcpy : memcpy q p n u = .ok ((), { u with mem := copyRange u.mem q p n }) :=
    eq_ok_of_wp (wp_memcpy.mpr ⟨⟨⟨by omega, by omega, by omega⟩, by omega, by omega, by omega⟩,
      rfl, rfl⟩)
  obtain ⟨hinv₂, hused₂⟩ := hinv₁.writeUsed huq hcopy
  have hup₂ := (hused₂ p e).mpr hup
  have huq₂ := (hused₂ q g).mpr huq
  -- the slab of the block is of the same kind as before
  have hclass : slabClass (copyRange u.mem q p n) (ptrGetSlab p) =
      slabClass s.mem (ptrGetSlab p) := by
    rw [← halloc.contents.slab p e hu hpq]
    exact hinv₁.slabClass_write hup huq hcopy
  obtain ⟨_, t, hfree, hfreed⟩ := wp_iff.mp (_intFree_spec hinv₂ hup₂ False.elim)
  obtain ⟨L', hinv', ⟨hkeep, -⟩, -⟩ := hfreed.inv
  obtain ⟨g', hg', huq'⟩ := hkeep q g huq₂ hpq.symm
  refine wp_iff.mpr ⟨q, t, ?_, hpq.symm, ⟨u, hmalloc, hfree⟩, ⟨L', g', hinv', huq', by omega,
    fun y f hy hyp => ?_⟩, fun w hw => ?_, fun y f hy hyp w hw₁ hw₂ => ?_⟩
  · unfold reallocMove
    rw [bind_of_ok hmalloc, if_pos hq0, bind_of_ok hmemcpy,
      bind_of_ok ((hrelease _ _ hinv₂ hup₂ hclass).trans hfree)]
    rfl
  · obtain ⟨f', hf', hy'⟩ := hkeep y f ((hused₂ y f).mpr (hold y f hy).1) hyp
    exact ⟨f', hf', hy', (hinv'.used_disjoint hy' huq').resolve_left fun hc =>
      (hold y f hy).2 hc.1⟩
  · rw [hfreed.contents.contents q g huq₂ hpq.symm _ (by omega) (by omega)]
    show copyRange u.mem q p n (q + w) = _
    unfold copyRange
    rw [if_pos ⟨by omega, by omega⟩, show q + w - q + p = p + w by omega]
    exact halloc.contents.contents p e hu hpq _ (by omega) (by omega)
  · rw [hfreed.contents.contents y f ((hused₂ y f).mpr (hold y f hy).1) hyp w hw₁ hw₂]
    have := hapart y f hy
    exact (hcopy w (by omega)).trans
      (halloc.contents.contents y f hy (hold y f hy).2 w hw₁ hw₂)

/-- A block of a large region is freed by `__int_large_block_free`. -/
theorem largeRelease_eq {u : Heap} (hinv : HeapInv strict u L) (hu : Used u.mem L p e)
    (hclass : slabClass u.mem (ptrGetSlab p) = 0) :
    _intLargeBlockFree (ptrGetSlab p) p u = _intFree p u := by
  obtain ⟨A, r, B, rfl, haddr, hk, -⟩ := hinv.used_slab hu
  rw [_intFree_eq hinv hk haddr, ← haddr, if_neg]
  intro h2
  unfold slabClass packedSize at hclass
  rw [if_pos h2] at hclass
  omega

/-- A block of a packed slab is freed by the function of its class. -/
theorem packedRelease_eq {u : Heap} {szClass : Nat} (hinv : HeapInv strict u L)
    (hu : Used u.mem L p e) (hclass : slabClass u.mem (ptrGetSlab p) = szClassToSize szClass) :
    (if szClass = 0 then _packedFree16 (ptrGetSlab p) p
    else if szClass = 1 then _packedFree32 (ptrGetSlab p) p
    else if szClass = 2 then _packedFree48 (ptrGetSlab p) p
    else _packedFree (ptrGetSlab p) p szClass) u = _intFree p u := by
  obtain ⟨A, r, B, rfl, haddr, hk, -⟩ := hinv.used_slab hu
  unfold szClassToSize slabClass at hclass
  simp only [mallocAlign] at hclass
  rw [haddr] at hclass ⊢
  have h2 : (u.mem r.addr).testBit 2 = true := by
    by_contra h2
    rw [if_neg h2] at hclass
    omega
  have hread : load8 (r.addr + 1) u = .ok (szClass, u) := by
    rw [hinv.szClass_eq]
    rw [if_pos h2, packedSize] at hclass
    rw [show fieldOf (u.mem r.addr) 1 1 = szClass by omega]
  rw [_intFree_eq hinv hk haddr, if_pos h2]
  unfold _intTinyBlockFree
  rw [bind_of_ok hread]

theorem BlockAt.slabClass (hb : BlockAt s r i p e) (hinv : HeapInv strict s (A ++ r :: B)) :
    slabClass s.mem (ptrGetSlab p) = 0 := by
  obtain ⟨-, -, h2, -⟩ := hinv.large_facts (r := r) (by simp) hb.kind
  unfold Slab.slabClass
  rw [(hb.slab hinv).1, if_neg (by rw [h2]; decide)]

/-- Moving a block of a large region. -/
theorem reallocMove_large (hinv : HeapInv False s (A ++ r :: B)) (hb : BlockAt s r i p e)
    (h0 : 0 < size) (h16 : size % 16 = 0) (hmax : size + 4111 < 2 ^ 64) (hn : n ≤ size)
    (hne : n ≤ e - p) :
    wp (reallocMove p size n (_intLargeBlockFree r.addr p))
      (fun q t => Moved s (A ++ r :: B) p size n q t) s := by
  refine reallocMove_spec hinv hb.isUsed h0 h16 hmax hn hne fun u L' hinv' hu hclass => ?_
  rw [← (hb.slab hinv).1]
  exact largeRelease_eq hinv' hu (hclass.trans (hb.slabClass hinv))

end

end MallocBench.Slab
