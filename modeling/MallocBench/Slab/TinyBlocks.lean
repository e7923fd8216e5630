import MallocBench.Slab.PackedOps

/-!
# Tiny blocks

The entry points for blocks of packed slabs: `__int_find_tiny_block` takes the first
slab of the bin of a size class, and `__int_tiny_block_free` picks the free function of
the class. Here their effect on a packed slab becomes one on the allocated blocks.
-/

namespace MallocBench.Slab

open Lib

/-- A block of at least `size` bytes at `p` has been allocated. -/
structure BlockAllocated (strict : Prop) (s : Heap) (L : List Region) (size p : Nat)
    (t : Heap) : Prop where
  inv : ∃ L' e, HeapInv strict t L' ∧ p + size ≤ e ∧ (∀ f, ¬ Used s.mem L p f) ∧
    (∀ x f, Used t.mem L' x f ↔ Used s.mem L x f ∨ (x = p ∧ f = e)) ∧ (Sized L → Sized L')
  contents : BlocksKept s L p t
  heap : t.heap = s.heap
  heapEnd : s.heapEnd ≤ t.heapEnd

section

variable {s t : Heap} {A B L : List Region} {r : Region} {bins : Nat → List Nat} {strict : Prop}
  {a j n p x e size : Nat} {b : Bool}

/-! ## The blocks of a packed slab after an operation -/

theorem packedBlock_inj {size j j' : Nat} (h0 : 0 < size)
    (h : packedBlock a size j = packedBlock a size j') : j = j' := by
  unfold packedBlock at h
  exact Nat.eq_of_mul_eq_mul_left h0 (by omega)

theorem packedUsed_iff {m : Nat → Nat} : PackedUsed m a x e ↔
    ∃ j, j < packedBlocks (packedSize m a) ∧ freeBit m a j = false ∧
      x = packedBlock a (packedSize m a) j ∧ e = x + packedSize m a := Iff.rfl

theorem packedUsed_taken {m m' : Nat → Nat} {cnt : Nat} (hb : BitChanged m m' a j false cnt)
    (hsize : packedSize m a = n) (hj : j < packedBlocks n) :
    PackedUsed m' a x e ↔ PackedUsed m a x e ∨
      (x = packedBlock a n j ∧ e = packedBlock a n j + n) := by
  rw [packedUsed_iff, packedUsed_iff, packedSize_congr hb.low, hsize, hb.free]
  constructor
  · rintro ⟨i, hi, hf, rfl, rfl⟩
    by_cases hij : i = j
    · subst hij
      exact .inr ⟨rfl, rfl⟩
    · rw [Function.update_of_ne hij] at hf
      exact .inl ⟨i, hi, hf, rfl, rfl⟩
  · rintro (⟨i, hi, hf, rfl, rfl⟩ | ⟨rfl, rfl⟩)
    · refine ⟨i, hi, ?_, rfl, rfl⟩
      by_cases hij : i = j
      · rw [hij, Function.update_self]
      · rw [Function.update_of_ne hij, hf]
    · exact ⟨j, hj, Function.update_self .., rfl, rfl⟩

theorem packedUsed_given {m m' : Nat → Nat} {cnt : Nat} (hb : BitChanged m m' a j true cnt)
    (hsize : packedSize m a = n) (h0 : 0 < n) :
    PackedUsed m' a x e ↔ PackedUsed m a x e ∧ x ≠ packedBlock a n j := by
  rw [packedUsed_iff, packedUsed_iff, packedSize_congr hb.low, hsize, hb.free]
  constructor
  · rintro ⟨i, hi, hf, rfl, rfl⟩
    have hij : i ≠ j := by
      rintro rfl
      rw [Function.update_self] at hf
      cases hf
    rw [Function.update_of_ne hij] at hf
    exact ⟨⟨i, hi, hf, rfl, rfl⟩, fun heq => hij (packedBlock_inj h0 heq)⟩
  · rintro ⟨⟨i, hi, hf, rfl, rfl⟩, hne⟩
    refine ⟨i, hi, ?_, rfl, rfl⟩
    rw [Function.update_of_ne (fun heq => hne (by rw [heq])), hf]

/-- Blocks lie in their slab. -/
theorem packedBlock_bounds (hn : n ∈ packedSizes) (hj : j < packedBlocks n) :
    a + 32 ≤ packedBlock a n j ∧ packedBlock a n j + n ≤ a + 4096 := by
  have hfacts := packedSizes_facts hn
  have hstart : ∀ n ∈ packedSizes, 32 ≤ packedStart n := by decide
  have hmul : n * (j + 1) ≤ n * packedBlocks n := Nat.mul_le_mul_left n hj
  rw [Nat.mul_succ] at hmul
  have := hstart n hn
  unfold packedBlock
  exact ⟨by omega, by omega⟩

theorem ptrGetSlab_packedBlock (hn : n ∈ packedSizes) (hj : j < packedBlocks n)
    (hal : a % 4096 = 0) : ptrGetSlab (packedBlock a n j) = a := by
  have hbounds := packedBlock_bounds (a := a) hn hj
  have := ptrGetSlab_eq (o := packedBlock a n j - a) hal (by omega) (by omega)
  rwa [show a + (packedBlock a n j - a) = packedBlock a n j by omega] at this

theorem regionUsed_packed {m : Nat → Nat} (hk : r.kind = .packed) :
    RegionUsed m r x e ↔ PackedUsed m r.addr x e := by
  unfold RegionUsed
  rw [hk]

/-- The blocks of a packed slab are kept when only its header is written. -/
theorem RegionsKept.packedKept (h : RegionsKept s (A ++ B) t) (hinv : HeapInv strict s (A ++ r :: B))
    (hk : r.kind = .packed) (hlow : ∀ i, i < 16 → (t.mem r.addr).testBit i = (s.mem r.addr).testBit i)
    (hin : ∀ x, r.addr + packedStart (packedSize s.mem r.addr) ≤ x → x < r.addr + 4096 →
      t.mem x = s.mem x) : BlocksKept s (A ++ r :: B) p t := by
  obtain ⟨hok, -, -, -, -, -, -, -⟩ := hinv.packed_facts (r := r) (by simp) hk
  refine h.blocksKept hinv fun x e hu _ => ⟨fun w hw₁ hw₂ => ?_, ?_⟩
  · obtain ⟨j, hj, -, rfl, rfl⟩ := packedUsed_iff.mp ((regionUsed_packed hk).mp hu)
    have hbounds := packedBlock_bounds (a := r.addr) hok.size_mem hj
    have hstart : r.addr + packedStart (packedSize s.mem r.addr) ≤
      packedBlock r.addr (packedSize s.mem r.addr) j := Nat.le_add_right _ _
    exact hin w (by omega) (by omega)
  · unfold slabClass
    rw [hlow 2 (by decide), packedSize_congr hlow]

/-- Taking a block of a packed slab allocates it. -/
theorem PackedTaken.allocated (h : PackedTaken strict s A r B j t)
    (hinv : HeapInv strict s (A ++ r :: B)) (hk : r.kind = .packed)
    (hsize : packedSize s.mem r.addr = n) (hj : j < packedBlocks n)
    (hf : freeBit s.mem r.addr j = true) :
    BlockAllocated strict s (A ++ r :: B) n (packedBlock r.addr n j) t := by
  obtain ⟨hok, -, -, -, -, -, -, hstop⟩ := hinv.packed_facts (r := r) (by simp) hk
  obtain ⟨bins, hslab⟩ := hinv.slab
  have hn : n ∈ packedSizes := hsize ▸ hok.size_mem
  have hfacts := packedSizes_facts hn
  have hbounds := packedBlock_bounds (a := r.addr) hn hj
  refine ⟨⟨_, packedBlock r.addr n j + n, h.repacked.inv, le_refl _, ?_, fun x f => ?_, id⟩,
    h.repacked.others.packedKept hinv hk h.bit.low h.inner, h.repacked.heap, h.repacked.heapEnd.ge⟩
  · intro f hu
    rcases used_insert.mp hu with hu | hu
    · exact used_ne hslab (fun r₀ hr₀ => hinv.regions r₀ (mem_insert_region hr₀)) hu
        (p := packedBlock r.addr n j) (by omega) (by omega) rfl
    · obtain ⟨i, hi, hfi, hx, -⟩ := packedUsed_iff.mp ((regionUsed_packed hk).mp hu)
      rw [hsize] at hx
      rw [← packedBlock_inj (by omega) hx, hf] at hfi
      cases hfi
  · rw [h.repacked.used, used_insert, regionUsed_packed hk, packedUsed_taken h.bit hsize hj, or_assoc]

/-- Giving back a block of a packed slab frees it. -/
theorem PackedGiven.freed (h : PackedGiven strict s A r B j t)
    (hinv : HeapInv strict s (A ++ r :: B)) (hk : r.kind = .packed)
    (hsize : packedSize s.mem r.addr = n) (hj : j < packedBlocks n)
    (hf : freeBit s.mem r.addr j = false) :
    BlockFreed strict s (A ++ r :: B) (packedBlock r.addr n j) t := by
  obtain ⟨hok, -, -, -, -, -, -, hstop⟩ := hinv.packed_facts (r := r) (by simp) hk
  obtain ⟨bins, hslab⟩ := hinv.slab
  have hn : n ∈ packedSizes := hsize ▸ hok.size_mem
  have hfacts := packedSizes_facts hn
  have hbounds := packedBlock_bounds (a := r.addr) hn hj
  have hother : ∀ x e, Used s.mem (A ++ B) x e → x ≠ packedBlock r.addr n j := fun x e hu =>
    used_ne hslab (fun r₀ hr₀ => hinv.regions r₀ (mem_insert_region hr₀)) hu (by omega) (by omega)
  have hpos : 0 < fieldOf (s.mem r.addr) 2 2 := hok.pos
  rcases Nat.lt_or_ge 1 (fieldOf (s.mem r.addr) 2 2) with hcnt | hcnt
  · obtain ⟨hre, hb⟩ := h.kept hcnt
    refine ⟨⟨_, hre.inv, shrunk_of_iff fun x e => ?_, id⟩,
      hre.others.packedKept hinv hk hb.low (h.inner hcnt), hre.heap, hre.heapEnd⟩
    rw [hre.used, used_insert, regionUsed_packed hk, packedUsed_given hb hsize (by omega)]
    constructor
    · rintro (hu | ⟨hu, hne⟩)
      · exact ⟨.inl hu, hother x e hu⟩
      · exact ⟨.inr hu, hne⟩
    · rintro ⟨hu | hu, hne⟩
      · exact .inl hu
      · exact .inr ⟨hu, hne⟩
  · have hone : fieldOf (s.mem r.addr) 2 2 = 1 := by omega
    obtain ⟨-, ⟨L', hinv', hsame, hused⟩, hothers, hheap, hend⟩ := h.gone hone
    have honly : ∀ x e, RegionUsed s.mem r x e → x = packedBlock r.addr n j := by
      intro x e hu
      obtain ⟨i, hi, hfi, rfl, -⟩ := packedUsed_iff.mp ((regionUsed_packed hk).mp hu)
      rw [hok.only (by rw [hsize]; exact hj) hf hone hi hfi, hsize]
    refine ⟨⟨L', hinv', shrunk_of_iff fun x e => ?_, fun hs => (sized_insert.mp hs).1.sameAlloc hsame⟩,
      hothers.blocksKept hinv fun x e hu hne => absurd (honly x e hu) hne, hheap, hend⟩
    rw [hused, used_insert]
    constructor
    · exact fun hu => ⟨.inl hu, hother x e hu⟩
    · rintro ⟨hu | hu, hne⟩
      · exact hu
      · exact absurd (honly x e hu) hne

/-! ## Finding and freeing tiny blocks -/

/-- What `__int_find_tiny_block` returns: the first free block of a packed slab, or
nothing if no slab of the size has one. -/
def FindTinyPost (strict : Prop) (s : Heap) (L : List Region) (size : Nat) :
    Option Nat → Heap → Prop
  | some p, t => ∃ A r B j, L = A ++ r :: B ∧ r.kind = .packed ∧ packedSize s.mem r.addr = size ∧
      FirstFree size (freeBit s.mem r.addr) j ∧ p = packedBlock r.addr size j ∧
      PackedTaken strict s A r B j t
  | none, t => t = s ∧ ∀ r ∈ L, r.kind = .packed → packedSize s.mem r.addr = size →
      ¬ HasFree size (freeBit s.mem r.addr)

/-- `__packed_alloc_16` to `__packed_alloc`, as the size says. -/
theorem packedAlloc_spec (hinv : HeapInv strict s (A ++ r :: B)) (hk : r.kind = .packed)
    (hsize : packedSize s.mem r.addr = n) (hfree : HasFree n (freeBit s.mem r.addr)) :
    wp (if n = 16 then _packedAlloc16 r.addr
      else if n = 32 then _packedAlloc32 r.addr
      else if n = 48 then _packedAlloc48 r.addr
      else _packedAlloc r.addr n) (fun p t => ∃ j, FirstFree n (freeBit s.mem r.addr) j ∧
      p = packedBlock r.addr n j ∧ PackedTaken strict s A r B j t) s := by
  have hfacts := packedSizes_facts (hsize ▸ (hinv.packed_facts (r := r) (by simp) hk).1.size_mem)
  by_cases h16 : n = 16
  · subst h16
    rw [if_pos rfl]
    exact _packedAllocN_spec hinv hk hsize (by omega) hfree
  by_cases h32 : n = 32
  · subst h32
    rw [if_neg h16, if_pos rfl]
    exact _packedAllocN_spec hinv hk hsize (by omega) hfree
  by_cases h48 : n = 48
  · subst h48
    rw [if_neg h16, if_neg h32, if_pos rfl]
    exact _packedAllocN_spec hinv hk hsize (by omega) hfree
  · rw [if_neg h16, if_neg h32, if_neg h48]
    exact _packedAlloc_spec hinv hk hsize (by omega) hfree

/-- **`__int_find_tiny_block`** -/
theorem _intFindTinyBlock_spec (hinv : HeapInv strict s L) (hsize : size ∈ packedSizes) :
    wp (_intFindTinyBlock size) (fun res t => FindTinyPost strict s L size res t) s := by
  have hfacts := packedSizes_facts hsize
  obtain ⟨sb, hsmall⟩ := hinv.small
  unfold _intFindTinyBlock
  rw [wp_bind, wp_mallocAssert]
  refine ⟨by simpa using hfacts.2.1, ?_⟩
  rw [wp_bind, wp_get, wp_bind, wp_load64]
  have hidx : packedBinIdx size < 23 := hfacts.2.2.2.1
  refine ⟨hsmall.valid_bin hidx, ?_⟩
  rcases hsmall.head hidx with ⟨h0, hnone⟩ | ⟨h0, r, hr, hk, haddr, hin⟩
  · rw [h0]
    refine wp_pure.mpr ⟨rfl, fun r hr hk hrs hfree => hnone r.addr ⟨r, hr, hk, rfl, ?_⟩⟩
    unfold PackedIn
    rw [hrs]
    exact ⟨hfree, rfl⟩
  · obtain ⟨A, B, rfl⟩ := List.append_of_mem hr
    rw [← haddr] at h0 hin ⊢
    have hok := (hinv.packed_facts (r := r) (by simp) hk).1
    have hrs : packedSize s.mem r.addr = size := packedBinIdx_inj hok.size_mem hsize hin.2
    rw [wp_ite, if_pos h0]
    refine wp_call (packedAlloc_spec hinv hk hrs (hrs ▸ hin.1)) fun p t ht => ?_
    obtain ⟨j, hfirst, hp, htaken⟩ := ht
    exact wp_pure.mpr ⟨A, r, B, j, rfl, hk, hrs, hfirst, hp, htaken⟩

/-- **`__int_tiny_block_free`** of an allocated block. -/
theorem _intTinyBlockFree_spec (hinv : HeapInv strict s (A ++ r :: B)) (hk : r.kind = .packed)
    (hsize : packedSize s.mem r.addr = n) (hj : j < packedBlocks n)
    (hf : freeBit s.mem r.addr j = false) :
    wp (_intTinyBlockFree r.addr (packedBlock r.addr n j))
      (fun _ t => PackedGiven strict s A r B j t) s := by
  obtain ⟨hok, -, -, hn1, hal, hge, hroom, hstop⟩ := hinv.packed_facts (r := r) (by simp) hk
  unfold _intTinyBlockFree
  rw [wp_bind, wp_loadField (by omega) (by omega)]
  refine ⟨⟨by omega, by omega, by omega⟩, ?_⟩
  have hfree := fun h48 => _packedFreeN_spec hinv hk hsize h48 hj hf
  unfold packedSize at hsize
  by_cases h0 : fieldOf (s.mem r.addr) 1 1 = 0
  · rw [if_pos h0]
    obtain rfl : n = 16 := by omega
    exact hfree (by omega)
  by_cases h1 : fieldOf (s.mem r.addr) 1 1 = 1
  · rw [if_neg h0, if_pos h1]
    obtain rfl : n = 32 := by omega
    exact hfree (by omega)
  by_cases h2 : fieldOf (s.mem r.addr) 1 1 = 2
  · rw [if_neg h0, if_neg h1, if_pos h2]
    obtain rfl : n = 48 := by omega
    exact hfree (by omega)
  · rw [if_neg h0, if_neg h1, if_neg h2]
    exact _packedFree_spec hinv hk hsize (by omega) hj hf

end

end MallocBench.Slab
