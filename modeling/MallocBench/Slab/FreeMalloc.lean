import MallocBench.Slab.ReallocMove

/-!
# Freed storage is found again

A freed block of at most 4080 bytes becomes a free block of its packed slab, part of a free
medium block, or its slab becomes part of a free region. In each case there is room for the
same size again (`Room`), and `malloc` finds it without extending the heap. That the freed block
has the size asked for depends on where `malloc` has put it (`InPlace`): blocks of a packed slab
stay in a slab of the same class as long as they live.
-/

namespace MallocBench.Slab

open Lib

/-- There is room for `size` bytes: a free slab, a free block in a packed slab of the class, or a
free medium block. -/
def Room (m : Nat → Nat) (L : List Region) (size : Nat) : Prop :=
  (∃ f ∈ L, f.kind = .free) ∨
    (size ≤ 496 ∧ ∃ r ∈ L, r.kind = .packed ∧ packedSize m r.addr = adjTinySize size ∧
      HasFree (adjTinySize size) (freeBit m r.addr)) ∨
    (496 < size ∧ ∃ x e, FreeBlock m L x e ∧ x + size ≤ e)

/-- The block at `p` lies where a block of `size` bytes is put: in a packed slab of the class, or
inside the first slab of a large region. -/
def InPlace (m : Nat → Nat) (p size : Nat) : Prop :=
  if size ≤ 496 then slabClass m (ptrGetSlab p) = adjTinySize size
  else size ≤ 4080 → p + size ≤ ptrGetSlab p + 4096

/-- What `malloc` adds to `BlockAllocated`: where the block lies, and that the heap is not
extended when there is room. -/
structure Placed (s : Heap) (L : List Region) (size p : Nat) (t : Heap) : Prop where
  place : InPlace t.mem p size
  heapEnd : size ≤ 4080 → Room s.mem L size → t.heapEnd = s.heapEnd

section

variable {s t : Heap} {A B L : List Region} {r : Region} {live live' : List (Nat × Nat)}
  {strict : Prop} {op : HeapOp} {p e i j n x size : Nat}

/-! ## `malloc` uses the room -/

theorem InPlace.congr {m m' : Nat → Nat} (h : InPlace m p size)
    (hclass : slabClass m' (ptrGetSlab p) = slabClass m (ptrGetSlab p)) : InPlace m' p size := by
  unfold InPlace at *
  rwa [hclass]

/-- A free region is large enough for one slab. -/
theorem _intAllocSlab_room (hinv : HeapInv strict s L) (hfree : ∃ f ∈ L, f.kind = .free) :
    wp (_intAllocSlab 1) (fun _ t => t.heapEnd = s.heapEnd) s := by
  obtain ⟨bins, hslab⟩ := hinv.slab
  obtain ⟨f, hf, hk⟩ := hfree
  refine wp_mono (_intAllocSlab_fit hslab (by decide)) fun y t ht => ?_
  rcases ht with ht | ht
  · exact ht.heapEnd
  · have hsmall := ht.small f hf hk
    have hpos := (hslab.mem_facts hf).1
    omega

/-- A new packed slab. -/
theorem mallocSlab_tiny_placed (hinv : HeapInv strict s L) (hsize : n ∈ packedSizes) :
    wp (mallocSlab n) (fun p t => slabClass t.mem (ptrGetSlab p) = n ∧
      ((∃ f ∈ L, f.kind = .free) → t.heapEnd = s.heapEnd)) s := by
  obtain ⟨bins, hslab⟩ := hinv.slab
  have hfacts := packedSizes_facts hsize
  have hn : reqSlabsForSize n = 1 := by
    rw [reqSlabsForSize_eq (by omega)]
    omega
  unfold mallocSlab
  rw [hn]
  dsimp only
  obtain ⟨y, t, heq, ht, -⟩ := wp_iff.mp (_intAllocSlab_grow hslab (by decide : 0 < 1))
  have hroom := fun hfree => wp_of_eq (_intAllocSlab_room hinv hfree) heq
  obtain ⟨A, B, har, ⟨mb, hmed⟩, -⟩ := hinv.allocated ht
  obtain ⟨bins', hslab'⟩ := har.slab
  have hal := (hslab'.mem_facts (r := ⟨y, 1, .raw⟩) (by simp)).2.1
  rw [wp_iff, bind_of_ok heq, ← wp_iff, if_pos (by unfold isTinyBlockSize; simpa using hfacts.2.1)]
  refine wp_mono (_intSlabInitPackedAndAlloc_spec har hmed hsize) fun p u hu => ?_
  obtain ⟨rfl, hinit⟩ := hu
  obtain ⟨-, -, h2, -⟩ := hinit.inv.packed_facts (r := ⟨y, 1, .packed⟩) (by simp) rfl
  refine ⟨?_, fun hfree => hinit.heapEnd.trans (hroom hfree)⟩
  rw [ptrGetSlab_packedBlock hsize (by omega) hal]
  unfold slabClass
  rw [if_pos h2, hinit.size_eq]

/-- A new region of one slab. -/
theorem mallocSlab_medium_placed (hinv : HeapInv strict s L) (h16 : size % 16 = 0)
    (h512 : 512 ≤ size) (hmax : size ≤ 4080) :
    wp (mallocSlab size) (fun p t => p + size ≤ ptrGetSlab p + 4096 ∧
      ((∃ f ∈ L, f.kind = .free) → t.heapEnd = s.heapEnd)) s := by
  obtain ⟨bins, hslab⟩ := hinv.slab
  have hn : reqSlabsForSize size = 1 := by
    rw [reqSlabsForSize_eq (by omega)]
    omega
  unfold mallocSlab
  rw [hn]
  dsimp only
  obtain ⟨y, t, heq, ht, -⟩ := wp_iff.mp (_intAllocSlab_grow hslab (by decide : 0 < 1))
  have hroom := fun hfree => wp_of_eq (_intAllocSlab_room hinv hfree) heq
  obtain ⟨A, B, har, ⟨mb, hmed⟩, -⟩ := hinv.allocated ht
  obtain ⟨bins', hslab'⟩ := har.slab
  have hal := (hslab'.mem_facts (r := ⟨y, 1, .raw⟩) (by simp)).2.1
  rw [wp_iff, bind_of_ok heq, ← wp_iff, if_neg (by unfold isTinyBlockSize; simp; omega)]
  refine wp_mono (_intSlabInitLargeAndAlloc_spec har hmed (by decide) h16 h512
    (by unfold FitSlabs; rw [if_pos rfl]; omega)) fun p u hu => ?_
  obtain ⟨o, e, off, al, k, rfl, hle, hstop, hre, honly⟩ := hu.blocks
  refine ⟨?_, fun hfree => hre.heapEnd.trans (hroom hfree)⟩
  rw [hre.inv.slab_of_mem (r := ⟨y, 1, .large⟩) ((hre.used _ _).mpr
    (.inr ⟨o, e, (honly o e).mpr ⟨rfl, rfl⟩, rfl, rfl⟩)) (by simp) (Nat.le_add_right _ _)
    (by simp only [Region.stop]; omega)]
  show y + o + size ≤ y + 4096
  omega

/-- **`__int_malloc`** puts the block in its place, and does not extend the heap when there is
room. -/
theorem _intMalloc_placed (hinv : HeapInv strict s L) (h0 : 0 < size) (h16 : size % 16 = 0)
    (hmax : size + 4111 < 2 ^ 64) :
    wp (_intMalloc size) (fun p t => Placed s L size p t) s := by
  by_cases hbig : 4080 < size
  · refine wp_mono (_intMalloc_spec hinv h0 h16 hmax) fun p t _ => ⟨?_, by omega⟩
    unfold InPlace
    rw [if_neg (by omega)]
    omega
  unfold _intMalloc
  by_cases htiny : size ≤ 496
  · obtain ⟨hmem, -⟩ := adjTinySize_mem h0 h16 htiny
    have hplace : ∀ {m p}, slabClass m (ptrGetSlab p) = adjTinySize size → InPlace m p size :=
      fun h => by
        unfold InPlace
        rwa [if_pos htiny]
    rw [if_pos (by unfold isTinyBlockSize; simpa using htiny)]
    refine wp_call (_intFindTinyBlock_spec hinv hmem) fun res t ht => ?_
    cases res with
    | some p =>
      obtain ⟨A, r, B, j, rfl, hk, hsize, hfirst, rfl, htaken⟩ := ht
      obtain ⟨-, -, h2, -, hal, -⟩ := hinv.packed_facts (r := r) (by simp) hk
      refine wp_pure.mpr ⟨hplace ?_, fun _ _ => htaken.repacked.heapEnd⟩
      rw [ptrGetSlab_packedBlock hmem hfirst.lt hal]
      unfold slabClass
      rw [htaken.bit.low 2 (by decide), if_pos h2, packedSize_congr htaken.bit.low, hsize]
    | none =>
      obtain ⟨rfl, hnone⟩ := ht
      refine wp_mono (mallocSlab_tiny_placed hinv hmem) fun p u hu => ⟨hplace hu.1, fun _ hroom => ?_⟩
      rcases hroom with hfree | ⟨-, r, hr, hk, hsize, hfree⟩ | ⟨hlt, -⟩
      · exact hu.2 hfree
      · exact absurd hfree (hnone r hr hk hsize)
      · omega
  · have hplace : ∀ {m p}, p + size ≤ ptrGetSlab p + 4096 → InPlace m p size := fun h => by
      unfold InPlace
      rw [if_neg htiny]
      exact fun _ => h
    rw [if_neg (by unfold isTinyBlockSize; simpa using htiny),
      if_pos (by unfold isMediumBlockSize; simp; omega)]
    refine wp_call (_intFindMediumBlock_spec hinv h16 (by omega) (by omega)) fun res t ht => ?_
    cases res with
    | some x =>
      obtain ⟨e, ⟨r, hr, hk, hx⟩, hle, -, htaken⟩ := ht
      obtain ⟨bins, hslab⟩ := hinv.slab
      obtain ⟨hn, hal, -⟩ := hslab.mem_facts hr
      obtain ⟨h₁, -, h₂, -, h₃, h₄⟩ := hx.bounds ((hinv.regions r hr).large hk) hn
      obtain ⟨e', hused, -⟩ := htaken.used
      refine wp_pure.mpr ⟨hplace ?_, fun _ _ => htaken.heapEnd⟩
      rw [htaken.inv.slab_of_mem ((hused x e').mpr (.inr ⟨rfl, rfl⟩)) hr (by omega) (by omega)]
      omega
    | none =>
      obtain ⟨hnone, hinv', sk, rfl⟩ := ht
      refine wp_mono (mallocSlab_medium_placed hinv' h16 (by omega) (by omega)) fun p u hu =>
        ⟨hplace hu.1, fun _ hroom => ?_⟩
      rcases hroom with hfree | ⟨hle, -⟩ | ⟨-, x, e, hx, hle⟩
      · exact hu.2 hfree
      · omega
      · have := hnone x e hx
        omega

/-! ## `free` makes room -/

/-- The free block around a freed one. -/
theorem MediumFreed.room (h : MediumFreed strict s A r B i t) (hinv : HeapInv strict s (A ++ r :: B))
    (h512 : 512 ≤ size) (hsize : offAt s.mem r.addr i + size ≤ offAt s.mem r.addr (i + 1)) :
    ∃ L', HeapInv strict t L' ∧ ((∃ f ∈ L', f.kind = .free) ∨
      ∃ x e, FreeBlock t.mem L' x e ∧ x + size ≤ e) := by
  obtain ⟨n', B', pf, nf, -, hc, hcases⟩ := h.blocks
  rcases hcases with ⟨-, -, L', hinv', hsame, -⟩ | ⟨-, hinv', -, hleft⟩
  · obtain ⟨f, hf, hk, -⟩ := hinv.gone_free hinv' hsame h.heap h.heapEnd
    exact ⟨L', hinv', .inl ⟨f, hf, hk⟩⟩
  · have hstart : offAt s.mem r.addr (i - pf.toNat) ≤ offAt s.mem r.addr i :=
      hc.ok.off_mono (Nat.sub_le _ _)
    have hstop : offAt s.mem r.addr (i + 1) ≤ offAt s.mem r.addr (i + 1 + nf.toNat) :=
      hc.ok.off_mono (Nat.le_add_right _ _)
    obtain ⟨hoff, hal, hcnt⟩ := hleft.merge (by omega)
    refine ⟨_, hinv', .inr ⟨r.addr + offAt s.mem r.addr (i - pf.toNat),
      r.addr + offAt s.mem r.addr (i + 1 + nf.toNat), ?_, by omega⟩⟩
    rw [freeBlock_insert rfl, hoff, hal, hcnt]
    exact .inr ⟨_, _, hc.merged_freeAt.mpr (.inr ⟨hc.mergedStart_eq.symm, hc.mergedEnd_eq.symm⟩),
      rfl, rfl⟩

/-- The free block of a packed slab, or its free slab. -/
theorem PackedGiven.room (h : PackedGiven strict s A r B j t) (hinv : HeapInv strict s (A ++ r :: B))
    (hk : r.kind = .packed) (hsize : packedSize s.mem r.addr = n) (hj : j < packedBlocks n) :
    ∃ L', HeapInv strict t L' ∧ ((∃ f ∈ L', f.kind = .free) ∨
      ∃ r ∈ L', r.kind = .packed ∧ packedSize t.mem r.addr = n ∧ HasFree n (freeBit t.mem r.addr)) := by
  have hpos : 0 < fieldOf (s.mem r.addr) 2 2 := (hinv.packed_facts (r := r) (by simp) hk).1.pos
  rcases Nat.lt_or_ge 1 (fieldOf (s.mem r.addr) 2 2) with hcnt | hcnt
  · obtain ⟨hre, hb⟩ := h.kept hcnt
    refine ⟨_, hre.inv, .inr ⟨r, by simp, hk, ?_, j, hj, ?_⟩⟩
    · rw [packedSize_congr hb.low, hsize]
    · rw [hb.free, Function.update_self]
  · have hgone := h.gone (by omega)
    obtain ⟨L', hinv', hsame, -⟩ := hgone.inv
    obtain ⟨f, hf, hk, -⟩ := hinv.gone_free hinv' hsame hgone.heap hgone.heapEnd
    exact ⟨L', hinv', .inl ⟨f, hf, hk⟩⟩

/-- **`__int_free`** leaves room for a block of the size of the freed one. -/
theorem _intFree_room (hinv : HeapInv False s L) (hu : Used s.mem L p e) (h0 : 0 < size)
    (h16 : size % 16 = 0) (hle : p + size < e + 16) (hmax : size ≤ 4080)
    (hplace : InPlace s.mem p size) :
    wp (_intFree p) (fun _ t => ∃ L', HeapInv False t L' ∧ Room t.mem L' size) s := by
  obtain ⟨A, r, B, rfl, haddr, -, hu⟩ := hinv.used_slab hu
  unfold InPlace slabClass at hplace
  rw [haddr] at hplace
  unfold RegionUsed at hu
  cases hk : r.kind with
  | free =>
    rw [hk] at hu
    exact hu.elim
  | raw =>
    rw [hk] at hu
    exact hu.elim
  | packed =>
    rw [hk] at hu
    obtain ⟨hok, -, h2, -⟩ := hinv.packed_facts (r := r) (by simp) hk
    obtain ⟨j, hj, hf, rfl, rfl⟩ := packedUsed_iff.mp hu
    have hfacts := packedSizes_facts hok.size_mem
    rw [if_pos h2] at hplace
    have htiny : size ≤ 496 := by omega
    rw [if_pos htiny] at hplace
    refine wp_intFree hinv (by rw [hk]; decide) haddr ?_
    rw [if_pos h2]
    refine wp_mono (_intTinyBlockFree_spec hinv hk rfl hj hf) fun _ t ht => ?_
    obtain ⟨L', hinv', hroom⟩ := ht.room hinv hk hplace (hplace ▸ hj)
    exact ⟨L', hinv', hroom.imp_right fun h => .inl ⟨htiny, h⟩⟩
  | large =>
    rw [hk] at hu
    obtain ⟨hok, -, h2, -, -, -, -, -⟩ := hinv.large_facts (r := r) (by simp) hk
    obtain ⟨o, o', ⟨i, hi, hal, rfl, rfl⟩, rfl, rfl⟩ := hu
    rw [h2, if_neg Bool.false_ne_true] at hplace
    have hmedium : 496 < size := by
      by_contra htiny
      rw [if_pos (by omega)] at hplace
      have hmem := (adjTinySize_mem h0 h16 (by omega : size ≤ 496)).1
      have hfacts := packedSizes_facts hmem
      omega
    rw [if_neg (by omega)] at hplace
    have hsize : offAt s.mem r.addr i + size ≤ offAt s.mem r.addr (i + 1) := by
      have h₁ := BlocksOk.aligned hok i
      have h₂ := BlocksOk.aligned hok (i + 1)
      unfold blockEnd at hle
      split_ifs at hle with hlast
      · omega
      · have hstop := (BlocksOk.stop hok (i + 1) (by omega)).1
        have := hplace hmax
        omega
    refine wp_mono (_intFree_large hinv hk hi hal rfl fun _ => id) fun _ t ht => ?_
    obtain ⟨L', hinv', hroom⟩ := ht.room hinv (by omega) hsize
    exact ⟨L', hinv', hroom.imp_right fun h => .inr ⟨hmedium, h⟩⟩

/-! ## The blocks stay in place -/

/-- Every live block lies where `malloc` puts blocks of its size. -/
def AllInPlace (m : Nat → Nat) (live : List (Nat × Nat)) : Prop :=
  ∀ b ∈ live, InPlace m b.1 ((b.2 + 15) / 16 * 16)

/-- Writes to a block leave all blocks in place. -/
theorem AllInPlace.write {m' : Nat → Nat} (hp : AllInPlace s.mem live) (h : LiveOk strict s L live)
    (hu : Used s.mem L p e) (hm : ∀ w, w < p ∨ e ≤ w → m' w = s.mem w) : AllInPlace m' live := by
  intro b hb
  obtain ⟨f, hub, -⟩ := h.block b hb
  exact (hp b hb).congr (h.inv.slabClass_write hub hu hm)

theorem HeapStep.inPlace (h : LiveOk False s L live) (hp : AllInPlace s.mem live)
    (hs : HeapStep False s L live live' t) : AllInPlace t.mem live' := by
  cases hs with
  | idle => exact hp
  | @allocated size n p u m' hsize h0 hn hmalloc ha hm =>
    subst hn
    have hplaced := wp_of_eq (_intMalloc_placed h.inv (by omega) (by omega) hsize) hmalloc
    have hall : AllInPlace u.mem ((p, size) :: live) := by
      intro b hb
      obtain ⟨L', e, -, -, hfresh, -⟩ := ha.inv
      rcases List.mem_cons.mp hb with rfl | hb
      · exact hplaced.place
      · obtain ⟨f, hu, -⟩ := h.block b hb
        exact (hp b hb).congr (ha.contents.slab _ f hu fun hc => hfresh f (hc ▸ hu))
    obtain ⟨L', hlive⟩ := h.cons ha (by omega : size ≤ (size + 15) / 16 * 16)
    obtain ⟨e, hu, hpe⟩ := hlive.block _ List.mem_cons_self
    simp only at hpe hu
    exact hall.write hlive hu fun w hw => hm w (by omega)
  | freed hf =>
    intro b hb
    obtain ⟨hb, hne⟩ := List.mem_filter.mp hb
    obtain ⟨f, hu, -⟩ := h.block b hb
    exact (hp b hb).congr (hf.contents.slab _ f hu (by simpa using hne))
  | written hu hm => exact hp.write h hu hm

/-- **The blocks stay in place** along every run. -/
theorem HeapRun.inPlace {P : Heap → HeapOp → Prop} {s₀ : Heap} {live₀ : List (Nat × Nat)}
    {L₀ : List Region} (h : HeapRun P s₀ live₀ s live) (h₀ : LiveOk False s₀ L₀ live₀)
    (hp₀ : AllInPlace s₀.mem live₀) : ∃ L, LiveOk False s L live ∧ AllInPlace s.mem live := by
  induction h with
  | refl => exact ⟨L₀, h₀, hp₀⟩
  | step _ hop _ heq ih =>
    obtain ⟨L, hL, hp⟩ := ih
    have hstep := wp_of_eq (heapOp_step hL hop False.elim) heq
    obtain ⟨-, -, L', hL'⟩ := hstep.liveOk hL
    exact ⟨L', hL', hstep.inPlace hL hp⟩

/-! ## `free`, then `malloc` -/

/-- **Freed storage is found again**: `free` of a block that was asked for with 1 to 4080 bytes,
followed by `malloc` of the same size, returns a block of that size and leaves the end of the heap
where it is, which every call of `mem_sbrk` moves. -/
theorem free_malloc (h : HeapReach s live) (hb : (p, size) ∈ live) (h0 : 0 < size)
    (hmax : size ≤ 4080) : ∃ t q u, free p s = .ok ((), t) ∧ malloc size t = .ok (q, u) ∧
      u.brk = s.brk ∧ u.heapEnd = s.heapEnd ∧
      ∃ L e, LiveOk False u L ((q, size) :: live.filter (·.1 ≠ p)) ∧ Used u.mem L q e ∧
        q + size ≤ e := by
  obtain ⟨s₀, t₀, hfresh, heq, hrun⟩ := h
  obtain ⟨-, -, hinit⟩ := wp_of_eq (mmInit_spec hfresh) heq
  obtain ⟨L, hL, hp⟩ := hrun.inPlace (liveOk_init hinit) fun b hb => by cases hb
  obtain ⟨e, hu, hle⟩ := hL.block _ hb
  simp only at hu hle
  have hbounds := hL.inv.used_bounds hu
  obtain ⟨bins, hslab⟩ := hL.inv.slab
  have hsize : NoWrap size := by
    unfold NoWrap
    omega
  have hplace : InPlace s.mem p ((size + 15) / 16 * 16) := hp (p, size) hb
  have hroom := _intFree_room hL.inv hu (by omega) (by omega) (by omega) (by omega) hplace
  obtain ⟨_, t, hfree, hfreed, L₁, hinv₁, hroom⟩ :=
    wp_iff.mp (wp_and (_intFree_spec hL.inv hu False.elim) hroom)
  obtain ⟨L₂, hL₂⟩ := hL.filter hfreed
  obtain ⟨q, u, hmalloc, hplaced⟩ := wp_iff.mp (_intMalloc_placed hinv₁
    (by omega : 0 < (size + 15) / 16 * 16) (by omega) hsize)
  have halloc := wp_of_eq (_intMalloc_spec hL₂.inv (by omega) (by omega) hsize) hmalloc
  obtain ⟨L₃, hL₃⟩ := hL₂.cons halloc (by omega : size ≤ (size + 15) / 16 * 16)
  obtain ⟨f, huq, hqf⟩ := hL₃.block _ List.mem_cons_self
  have hend : u.heapEnd = s.heapEnd :=
    (hplaced.heapEnd (by omega) hroom).trans hfreed.heapEnd
  obtain ⟨bins₃, hslab₃⟩ := hL₃.inv.slab
  refine ⟨t, q, u, ?_, ?_, ?_, hend, L₃, f, hL₃, huq, hqf⟩
  · rw [free_eq hL.heap_pos (by omega), hfree]
  · have halign := alignUp_size hsize
    rw [malloc_eq hL₂.heap_pos (by omega), halign, hmalloc]
  · rw [← hslab.brk, ← hslab₃.brk, hend]

/-- The first of two blocks of a slab is freed and found again. -/
theorem free_malloc_first : ∃ s live, HeapReach s live ∧ (69648, 600) ∈ live ∧
    ∃ t q u, free 69648 s = .ok ((), t) ∧ malloc 600 t = .ok (q, u) ∧ u.brk = s.brk ∧
      u.heapEnd = s.heapEnd ∧ ∃ L e, LiveOk False u L ((q, 600) :: live.filter (·.1 ≠ 69648)) ∧
        Used u.mem L q e ∧ q + 600 ≤ e := by
  obtain ⟨s, live, hreach, hcheck⟩ := heapReach_of_runCheck [.malloc 600, .malloc 700, .malloc 100]
    (fun live _ => decide ((69648, 600) ∈ live)) (by decide +kernel)
  have hmem := of_decide_eq_true hcheck
  exact ⟨s, live, hreach, hmem, free_malloc hreach hmem (by decide) (by decide)⟩

end

end MallocBench.Slab
