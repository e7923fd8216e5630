import MallocBench.Slab.HeapBlocks
import MallocBench.Slab.Malloc

/-!
# `malloc` and `free` keep the invariant

`__int_malloc` allocates a block of at least the size asked for, from a packed slab, a
free medium block or a new slab; `__int_free` frees an allocated block.
-/

namespace MallocBench.Slab

open Lib

section

variable {s t u : Heap} {A B L : List Region} {r : Region} {bins : Nat → List Nat} {strict : Prop}
  {x y e f a n p size : Nat}

/-! ## Allocated blocks -/

theorem BlockAllocated.mono {size' : Nat} (h : BlockAllocated strict s L size p t)
    (hle : size' ≤ size) : BlockAllocated strict s L size' p t := by
  obtain ⟨L', e, hinv, he, hrest⟩ := h.inv
  exact ⟨⟨L', e, hinv, by omega, hrest⟩, h.contents, h.heap, h.heapEnd⟩

theorem BlockAllocated.ne_zero (h : BlockAllocated strict s L size p t) : p ≠ 0 := by
  obtain ⟨L', e, hinv, -, -, hused, -⟩ := h.inv
  have := hinv.used_bounds ((hused p e).mpr (.inr ⟨rfl, rfl⟩))
  omega

/-- A block taken from a free medium block. -/
theorem TakenBlock.allocated (h : TakenBlock strict s L size x e t) (hinv : HeapInv strict s L)
    (hx : FreeBlock s.mem L x e) (hle : size ≤ e - x) :
    BlockAllocated strict s L size x t := by
  obtain ⟨e', hused, he'⟩ := h.used
  have hsize := hinv.free_size hx
  refine ⟨⟨L, e', h.inv, ?_, fun f hu => ?_, hused, id⟩, h.contents, h.heap, h.heapEnd.ge⟩
  · split_ifs at he' <;> omega
  · have hbounds := hinv.used_bounds hu
    rcases hinv.used_freeBlock_disjoint hu hx with hd | hd <;> omega

/-- The slab for a new block is taken first, and filled then. -/
theorem RegionsKept.blocksKept_trans {R : List Region} (h₁ : RegionsKept s L t)
    (hinv : HeapInv strict s L) (hsame : SameAlloc L R) (h₂ : RegionsKept t R u) :
    BlocksKept s L p u := by
  obtain ⟨bins, hslab⟩ := hinv.slab
  constructor
  · intro x e hu _ w hw₁ hw₂
    have hu' : Used t.mem R x e := (used_sameAlloc hsame).mpr (h₁.used hu)
    exact (h₂.contents x e hu' w hw₁ hw₂).trans (h₁.contents x e hu w hw₁ hw₂)
  · rintro x e ⟨r, hr, hu⟩ _
    rw [hu.slab (hinv.regions r hr) (hslab.mem_facts hr).2.1]
    have hk := hu.kind_ne
    exact (h₂.header r ((hsame r hk).mpr hr) hk).slabClass.trans (h₁.header r hr hk).slabClass

/-- A block of a new large region. -/
theorem LargeInit.allocated (h : LargeInit strict t A y n B size p u) (hinv : HeapInv strict s L)
    (hkept : RegionsKept s L t)
    (hslab : SlabInv t (A ++ ⟨y, n, .raw⟩ :: B) bins)
    (hoth : ∀ r₀ ∈ A ++ B, RegionOk strict t.mem r₀)
    (hused : ∀ x e, Used t.mem (A ++ B) x e ↔ Used s.mem L x e) (hsame : SameAlloc L (A ++ B))
    (hn : n < 2 ^ 52) (hheap : t.heap = s.heap) (hend : s.heapEnd ≤ t.heapEnd) (h0 : 0 < size) :
    BlockAllocated strict s L size p u := by
  obtain ⟨o, e, off, al, k, rfl, hle, hestop, hre, honly⟩ := h.blocks
  refine ⟨⟨_, y + e, hre.inv, by omega, fun f hu => ?_, fun x f => ?_,
    fun hs => sized_insert.mpr ⟨hs.sameAlloc hsame, fun _ => hn⟩⟩,
    hkept.blocksKept_trans hinv hsame hre.others, hre.heap.trans hheap,
    by rw [hre.heapEnd]; exact hend⟩
  · exact used_ne (r := ⟨y, n, .raw⟩) (p := y + o) hslab hoth ((hused _ _).mpr hu) (by simp)
      (by simp only [Region.stop]; omega) rfl
  · rw [hre.used, hused]
    constructor
    · rintro (hu | ⟨o₁, e₁, hu, rfl, rfl⟩)
      · exact .inl hu
      · obtain ⟨rfl, rfl⟩ := (honly o₁ e₁).mp hu
        exact .inr ⟨rfl, rfl⟩
    · rintro (hu | ⟨rfl, rfl⟩)
      · exact .inl hu
      · exact .inr ⟨o, e, (honly o e).mpr ⟨rfl, rfl⟩, rfl, rfl⟩

/-- The first block of a new packed slab. -/
theorem PackedInit.allocated (h : PackedInit strict t A y B size u) (hinv : HeapInv strict s L)
    (hkept : RegionsKept s L t) (hsize : size ∈ packedSizes)
    (hslab : SlabInv t (A ++ ⟨y, 1, .raw⟩ :: B) bins)
    (hoth : ∀ r₀ ∈ A ++ B, RegionOk strict t.mem r₀)
    (hused : ∀ x e, Used t.mem (A ++ B) x e ↔ Used s.mem L x e) (hsame : SameAlloc L (A ++ B))
    (hheap : t.heap = s.heap) (hend : s.heapEnd ≤ t.heapEnd) :
    BlockAllocated strict s L size (packedBlock y size 0) u := by
  have hfacts := packedSizes_facts hsize
  have hbounds := packedBlock_bounds (a := y) (j := 0) hsize (by omega)
  refine ⟨⟨_, packedBlock y size 0 + size, h.inv, le_refl _, fun f hu => ?_, fun x f => ?_,
    fun hs => sized_insert.mpr ⟨hs.sameAlloc hsame, by rintro ⟨⟩⟩⟩,
    hkept.blocksKept_trans hinv hsame h.others, h.heap.trans hheap,
    by rw [h.heapEnd]; exact hend⟩
  · exact used_ne (r := ⟨y, 1, .raw⟩) (p := packedBlock y size 0) hslab hoth ((hused _ _).mpr hu)
      (by simp only; omega) (by simp only [Region.stop]; omega) rfl
  · rw [h.used, hused, packedUsed_iff, h.size_eq]
    refine or_congr_right ?_
    constructor
    · rintro ⟨j, hj, hf, rfl, rfl⟩
      rw [h.free j (by omega), newFree, decide_eq_true hj, Bool.and_true] at hf
      obtain rfl : j = 0 := by simpa using hf
      exact ⟨rfl, rfl⟩
    · rintro ⟨rfl, rfl⟩
      exact ⟨0, by omega, by rw [h.free 0 (by omega)]; rfl, rfl, rfl⟩

/-! ## `malloc` -/

theorem reqSlabsForSize_eq (h : size + 4111 < 2 ^ 64) : reqSlabsForSize size = (size + 4111) / 4096 := by
  unfold reqSlabsForSize alignUp
  dsimp only [largeSlabHeaderSize, slabSize]
  rw [Nat.mod_eq_of_lt (by omega)]
  omega

/-- The label `alloc_slab` of `__int_malloc`, for a packed slab. -/
theorem mallocSlab_tiny (hinv : HeapInv strict s L) (hsize : size ∈ packedSizes) :
    wp (mallocSlab size) (fun p t => BlockAllocated strict s L size p t) s := by
  obtain ⟨bins, hslab⟩ := hinv.slab
  have hfacts := packedSizes_facts hsize
  have hn : reqSlabsForSize size = 1 := by
    rw [reqSlabsForSize_eq (by omega)]
    omega
  unfold mallocSlab
  rw [hn]
  dsimp only
  refine wp_call (_intAllocSlab_grow hslab (by omega)) fun y t ht => ?_
  obtain ⟨A, B, har, ⟨mb, hmed⟩, hsame, hkept, hused⟩ := hinv.allocated ht.1
  obtain ⟨bins', hslab'⟩ := har.slab
  rw [if_pos (by unfold isTinyBlockSize; simpa using hfacts.2.1)]
  refine wp_mono (_intSlabInitPackedAndAlloc_spec har hmed hsize) fun p u hu => ?_
  obtain ⟨rfl, hinit⟩ := hu
  exact hinit.allocated hinv hkept hsize hslab' har.regions hused hsame ht.1.frame.heap ht.2

/-- The label `alloc_slab` of `__int_malloc`, for a large region. -/
theorem mallocSlab_large (hinv : HeapInv strict s L) (h16 : size % 16 = 0) (h512 : 512 ≤ size)
    (hmax : size + 4111 < 2 ^ 64) :
    wp (mallocSlab size) (fun p t => BlockAllocated strict s L size p t) s := by
  obtain ⟨bins, hslab⟩ := hinv.slab
  unfold mallocSlab
  rw [reqSlabsForSize_eq hmax]
  dsimp only
  refine wp_call (_intAllocSlab_grow hslab (by omega)) fun y t ht => ?_
  obtain ⟨A, B, har, ⟨mb, hmed⟩, hsame, hkept, hused⟩ := hinv.allocated ht.1
  obtain ⟨bins', hslab'⟩ := har.slab
  rw [if_neg (by unfold isTinyBlockSize; simp; omega)]
  refine wp_mono (_intSlabInitLargeAndAlloc_spec har hmed (by omega) h16 h512 ?_) fun p u hu => ?_
  · unfold FitSlabs
    split_ifs <;> omega
  · exact hu.allocated hinv hkept hslab' har.regions hused hsame (by omega) ht.1.frame.heap ht.2 (by omega)

/-- **`__int_malloc`** of a rounded size that leaves room for a slab header. -/
theorem _intMalloc_spec (hinv : HeapInv strict s L) (h0 : 0 < size) (h16 : size % 16 = 0)
    (hmax : size + 4111 < 2 ^ 64) :
    wp (_intMalloc size) (fun p t => BlockAllocated strict s L size p t) s := by
  unfold _intMalloc
  by_cases htiny : size ≤ 496
  · obtain ⟨hmem, hle⟩ := adjTinySize_mem h0 h16 htiny
    rw [if_pos (by unfold isTinyBlockSize; simpa using htiny)]
    refine wp_call (_intFindTinyBlock_spec hinv hmem) fun res t ht => ?_
    cases res with
    | some p =>
      obtain ⟨A, r, B, j, rfl, hk, hsize, hfirst, rfl, htaken⟩ := ht
      exact wp_pure.mpr ((htaken.allocated hinv hk hsize hfirst.lt hfirst.free).mono hle)
    | none =>
      obtain ⟨rfl, -⟩ := ht
      exact wp_mono (mallocSlab_tiny hinv hmem) fun p u hu => hu.mono hle
  rw [if_neg (by unfold isTinyBlockSize; simpa using htiny)]
  by_cases hmedium : size ≤ 4080
  · rw [if_pos (by unfold isMediumBlockSize; simp; omega)]
    refine wp_call (_intFindMediumBlock_spec hinv h16 (by omega) hmedium) fun res t ht => ?_
    cases res with
    | some p =>
      obtain ⟨e, hx, hle, -, htaken⟩ := ht
      exact wp_pure.mpr (htaken.allocated hinv hx hle)
    | none =>
      obtain ⟨-, hinv', sk, rfl⟩ := ht
      refine wp_mono (mallocSlab_large hinv' h16 (by omega) hmax) fun p u hu => ?_
      exact ⟨hu.inv, ⟨hu.contents.contents, hu.contents.slab⟩, hu.heap, hu.heapEnd⟩
  · rw [if_neg (by unfold isMediumBlockSize; simp; omega)]
    exact mallocSlab_large hinv h16 (by omega) hmax

/-! ## `free` -/

/-- Freeing the block at `p` does not meet the large block that `medium_bin_free` fails
to recognise. -/
def NoHangingBug (m : Nat → Nat) (L : List Region) (p : Nat) : Prop :=
  ∀ r ∈ L, r.kind = .large → ∀ i, p = r.addr + offAt m r.addr i → ¬ HangingBug m r.addr i

/-- Freeing a block of a large region frees it. -/
theorem MediumFreed.freed {i : Nat} (h : MediumFreed strict s A r B i t)
    (hinv : HeapInv strict s (A ++ r :: B)) (hk : r.kind = .large) :
    BlockFreed strict s (A ++ r :: B) (r.addr + offAt s.mem r.addr i) t := by
  obtain ⟨bins, hslab⟩ := hinv.slab
  have hoth : ∀ r₀ ∈ A ++ B, RegionOk strict s.mem r₀ :=
    fun r₀ hr₀ => hinv.regions r₀ (mem_insert_region hr₀)
  obtain ⟨n', B', pf, nf, -, hc, hcases⟩ := h.blocks
  have hlt : r.addr + offAt s.mem r.addr i < r.stop := by
    have hend := hc.ok.blockEnd_ge hc.pos hc.lt
    have hend' := hc.ok.blockEnd_le (j := i) hc.pos
    show r.addr + offAt s.mem r.addr i < r.addr + 4096 * r.n
    omega
  have hUr : ∀ x e, RegionUsed s.mem r x e ↔ ∃ o o', UsedAt (offAt s.mem r.addr)
      (alAt s.mem r.addr) r.n (cntAt s.mem r.addr) o o' ∧ x = r.addr + o ∧ e = r.addr + o' := by
    intro x e
    unfold RegionUsed
    rw [hk]
    rfl
  refine ⟨?_, h.contents, h.heap, h.heapEnd⟩
  rcases hcases with ⟨honly, -, L', hinv', hsame, hused⟩ | ⟨-, hinv', hsame, hleft⟩
  · refine ⟨L', hinv', shrunk_region False (V := fun _ _ => False) hslab hoth hUr
      (fun x e => by rw [hused]; simp) ⟨?_, by simp⟩ hlt,
      fun hs => (sized_insert.mp hs).1.sameAlloc hsame⟩
    rintro o e ⟨j, -, hj, rfl, -⟩ hne
    exact absurd (by rw [honly j hj]) hne
  · have hshrunk := hc.shrunk hleft
    refine ⟨_, hinv', shrunk_region True hslab hoth hUr (fun x e => ?_)
      (by simpa using hshrunk) hlt, fun hs => ?_⟩
    · rw [used_insert, used_sameAlloc hsame, used_kept h.kept, true_and]
      rfl
    · obtain ⟨hAB, hr⟩ := sized_insert.mp hs
      have hle : n' ≤ r.n := by
        have := hc.pos
        rcases hc.slabs with rfl | ⟨rfl, -⟩ <;> omega
      exact sized_insert.mpr ⟨hAB.sameAlloc hsame, fun _ => lt_of_le_of_lt hle (hr hk)⟩

/-- **`__int_large_block_free`** of an allocated block. -/
theorem _intLargeBlockFree_spec (hinv : HeapInv strict s (A ++ r :: B)) (hk : r.kind = .large)
    {i : Nat} (hi : i < cntAt s.mem r.addr) (hal : alAt s.mem r.addr i = true)
    (hp : p = r.addr + offAt s.mem r.addr i) (hbug : HangingBug s.mem r.addr i → ¬ strict) :
    wp (_intLargeBlockFree r.addr p) (fun _ t => MediumFreed strict s A r B i t) s := by
  obtain ⟨hok, -, -, -, hv, -⟩ := hinv.large_facts (r := r) (by simp) hk
  unfold _intLargeBlockFree
  rw [wp_bind]
  exact wp_mediumBinFindBlockPos hok.largeHeader hi hv hp (mediumBinFree_spec hinv hk hi hal hbug)

/-- The header of a region can be read. -/
theorem HeapInv.valid_header (hinv : HeapInv strict s (A ++ r :: B)) :
    s.Valid r.addr ∧ r.addr % 8 = 0 := by
  obtain ⟨bins, hslab⟩ := hinv.slab
  obtain ⟨hn, hal, -⟩ := hslab.mem_facts (r := r) (by simp)
  have hlen := Region.addr_lt_stop hn
  exact ⟨hslab.valid (r := r) (by simp) (le_refl _) (by omega) (by omega), by omega⟩

theorem HeapInv.slabIsPacked_eq (hinv : HeapInv strict s (A ++ r :: B)) :
    slabIsPacked r.addr s = .ok ((s.mem r.addr).testBit 2, s) :=
  eq_ok_of_wp ((wp_slabIsPacked hinv.valid_header.2).mpr ⟨hinv.valid_header.1, rfl, rfl⟩)

theorem HeapInv.szClass_eq (hinv : HeapInv strict s (A ++ r :: B)) :
    load8 (r.addr + 1) s = .ok (fieldOf (s.mem r.addr) 1 1, s) :=
  eq_ok_of_wp ((wp_loadField hinv.valid_header.2 (by omega)).mpr ⟨hinv.valid_header.1, rfl, rfl⟩)

/-- `__int_free` finds the slab of the block and what kind of slab it is. -/
theorem _intFree_eq (hinv : HeapInv strict s (A ++ r :: B)) (hk : r.kind ≠ .free)
    (hp : ptrGetSlab p = r.addr) :
    _intFree p s = (if (s.mem r.addr).testBit 2 then _intTinyBlockFree r.addr p
      else _intLargeBlockFree r.addr p) s := by
  obtain ⟨bins, hslab⟩ := hinv.slab
  obtain ⟨-, -, -, -, q, hok⟩ := hslab.mem_facts (r := r) (by simp)
  have halloc : slabIsAlloc r.addr s = .ok (true, s) := by
    refine eq_ok_of_wp ((wp_slabIsAlloc hinv.valid_header.2).mpr ⟨hinv.valid_header.1, ?_, rfl⟩)
    rw [hok.alloc_bit]
    exact Region.isAlloc_eq_true.mpr hk
  have hassert : mallocAssert true s = .ok ((), s) := rfl
  unfold _intFree
  rw [hp, bind_of_ok halloc, bind_of_ok hassert,
    bind_of_ok hinv.slabIsPacked_eq]

theorem wp_intFree {Q : Unit → Heap → Prop} (hinv : HeapInv strict s (A ++ r :: B))
    (hk : r.kind ≠ .free) (hp : ptrGetSlab p = r.addr)
    (h : wp (if (s.mem r.addr).testBit 2 then _intTinyBlockFree r.addr p
      else _intLargeBlockFree r.addr p) Q s) : wp (_intFree p) Q s := by
  rw [wp_iff, _intFree_eq hinv hk hp]
  exact wp_iff.mp h

/-- `__int_free` of a block of a large region. -/
theorem _intFree_large (hinv : HeapInv strict s (A ++ r :: B)) (hk : r.kind = .large) {i : Nat}
    (hi : i < cntAt s.mem r.addr) (hal : alAt s.mem r.addr i = true)
    (hp : p = r.addr + offAt s.mem r.addr i) (hbug : HangingBug s.mem r.addr i → ¬ strict) :
    wp (_intFree p) (fun _ t => MediumFreed strict s A r B i t) s := by
  obtain ⟨hlarge, -, h2, -, -, -, halign, -⟩ := hinv.large_facts (r := r) (by simp) hk
  have hslab := ptrGetSlab_eq halign (BlocksOk.off_ge hlarge i) (BlocksOk.page' hlarge i)
  refine wp_intFree hinv (by rw [hk]; decide) (hp ▸ hslab) ?_
  rw [if_neg (by rw [h2]; decide)]
  exact _intLargeBlockFree_spec hinv hk hi hal hp hbug

/-- **`__int_free`** of an allocated block. -/
theorem _intFree_spec (hinv : HeapInv strict s L) (hu : Used s.mem L p e)
    (hbug : strict → NoHangingBug s.mem L p) :
    wp (_intFree p) (fun _ t => BlockFreed strict s L p t) s := by
  obtain ⟨r, hr, hu⟩ := hu
  obtain ⟨A, B, rfl⟩ := List.append_of_mem hr
  unfold RegionUsed at hu
  cases hk : r.kind with
  | free =>
    rw [hk] at hu
    exact hu.elim
  | packed =>
    rw [hk] at hu
    obtain ⟨hpok, -, h2, -, hal, -⟩ := hinv.packed_facts (r := r) (by simp) hk
    obtain ⟨j, hj, hf, rfl, -⟩ := packedUsed_iff.mp hu
    refine wp_intFree hinv (by rw [hk]; decide) (ptrGetSlab_packedBlock hpok.size_mem hj hal) ?_
    rw [if_pos h2]
    exact wp_mono (_intTinyBlockFree_spec hinv hk rfl hj hf) fun _ t ht =>
      ht.freed hinv hk rfl hj hf
  | large =>
    rw [hk] at hu
    obtain ⟨o, o', ⟨i, hi, hali, rfl, -⟩, rfl, -⟩ := hu
    exact wp_mono (_intFree_large hinv hk hi hali rfl fun hbg hst =>
      hbug hst r (by simp) hk i rfl hbg) fun _ t ht => ht.freed hinv hk
  | raw =>
    rw [hk] at hu
    exact hu.elim

end

end MallocBench.Slab
