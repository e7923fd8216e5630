import MallocBench.Slab.LargeKeep

/-!
# Blocks that `realloc` moves

At five places `__int_realloc` allocates another block, copies and frees the old one. They copy
different numbers of bytes, and what they have read before is out of date once the nested
`malloc` has run: the new block may come from a free block of the slab of the old one. The moved
block has all bytes that fit all the same, and the old one is freed like any other
(`realloc_move`).
-/

namespace MallocBench.Slab

open Lib

/-- What `__int_realloc` reads of a block that is not in a packed slab. -/
structure BlockRead (s : Heap) (ptr blkIdx blkSize : Nat) : Prop where
  packed : slabIsPacked (ptrGetSlab ptr) s = .ok (false, s)
  pos : mediumBinFindBlockPos (ptrGetSlab ptr) ptr s = .ok (blkIdx, s)
  size : mediumBinBlockSize (ptrGetSlab ptr) blkIdx s = .ok (blkSize, s)

/-- A large block is not extended by `remainder` bytes: too much of its last slab would be
wasted, or its region does not end the heap and what follows is not free or too short. -/
def NotExtended (s : Heap) (ptr remainder : Nat) : Prop :=
  alignUp remainder slabSize - remainder ≤ reallocMaxDeadweight →
    ∃ sSize free numSlabs, largeSlabGetSize (ptrGetSlab ptr) s = .ok (sSize, s) ∧
      ptrGetSlab ptr + slabSize * sSize ≠ s.heapEnd ∧
      slabIsFree (ptrGetSlab ptr + slabSize * sSize) s = .ok (free, s) ∧
      load64 (ptrGetSlab ptr + slabSize * sSize + 24) s = .ok (numSlabs, s) ∧
      ¬ (free = true ∧ (remainder + (slabSize - 1)) % 2 ^ 64 / slabSize ≤ numSlabs)

/-- A medium block does not grow into the next one. -/
def NotMerged (s : Heap) (ptr blkIdx remainder : Nat) : Prop :=
  ∃ offsets blockAlloc, mediumBinOffsets (ptrGetSlab ptr) s = .ok (offsets, s) ∧
    load8 (ptrGetSlab ptr + 15) s = .ok (blockAlloc, s) ∧
    ¬ (mediumBinGetOffset offsets (blkIdx + 1) ≠ 0 ∧ blockAlloc.testBit (blkIdx + 1) = false ∧
      remainder ≤ mediumBinGetAdjOffset offsets (blkIdx + 2) -
        mediumBinGetOffset offsets (blkIdx + 1))

/-- The malloc-copy-free paths of `__int_realloc`: what is true on each of them, how many bytes
it copies and what frees the old block. -/
inductive MovePath (s : Heap) (ptr size : Nat) : Nat → HeapM Unit → Prop
  | packed {szClass : Nat} : slabIsPacked (ptrGetSlab ptr) s = .ok (true, s) →
      load8 (ptrGetSlab ptr + 1) s = .ok (szClass, s) →
      ¬ (isTinyBlockSize size = true ∧ adjTinySize size = szClassToSize szClass) →
      MovePath s ptr size (min size (szClassToSize szClass))
        (if szClass = 0 then _packedFree16 (ptrGetSlab ptr) ptr
        else if szClass = 1 then _packedFree32 (ptrGetSlab ptr) ptr
        else if szClass = 2 then _packedFree48 (ptrGetSlab ptr) ptr
        else _packedFree (ptrGetSlab ptr) ptr szClass)
  | mediumToTiny : slabIsPacked (ptrGetSlab ptr) s = .ok (false, s) → size < minMediumBlockSz →
      MovePath s ptr size size (_intLargeBlockFree (ptrGetSlab ptr) ptr)
  | largeGrow {blkIdx blkSize : Nat} : BlockRead s ptr blkIdx blkSize → minMediumBlockSz ≤ size →
      minLargeBlockSz ≤ blkSize → blkSize < size → NotExtended s ptr (size - blkSize) →
      MovePath s ptr size blkSize (_intLargeBlockFree (ptrGetSlab ptr) ptr)
  | largeShrink {blkIdx blkSize : Nat} : BlockRead s ptr blkIdx blkSize → minMediumBlockSz ≤ size →
      minLargeBlockSz ≤ blkSize → size ≤ blkSize → blkSize % slabSize < size →
      reallocMaxDeadweight < (blkSize - size) % slabSize →
      MovePath s ptr size size (_intLargeBlockFree (ptrGetSlab ptr) ptr)
  | mediumGrow {blkIdx blkSize : Nat} : BlockRead s ptr blkIdx blkSize → minMediumBlockSz ≤ size →
      blkSize < minLargeBlockSz → blkSize < size →
      (size ≤ maxMediumBlockSz → NotMerged s ptr blkIdx (size - blkSize)) →
      MovePath s ptr size blkSize (_intLargeBlockFree (ptrGetSlab ptr) ptr)

section

variable {s t : Heap} {L : List Region} {live : List (Nat × Nat)} {strict : Prop}
  {release : HeapM Unit} {p q e n size : Nat}

/-! ## The paths in the code -/

/-- On such a path, `__int_realloc` does nothing else. -/
theorem MovePath.eq (h : MovePath s p size n release) :
    _intRealloc p size s = reallocMove p size n release s := by
  unfold _intRealloc
  cases h with
  | packed hpacked hclass hne =>
    rw [bind_of_ok hpacked, if_pos rfl]
    unfold reallocPacked
    rw [bind_of_ok hclass, if_neg hne]
  | mediumToTiny hpacked hsize =>
    rw [bind_of_ok hpacked, if_neg (by decide), if_pos hsize]
  | largeGrow hread hsize hlarge hgrow hno =>
    rw [bind_of_ok hread.packed, if_neg (by decide), if_neg hsize.not_gt, bind_of_ok hread.pos,
      bind_of_ok hread.size, if_pos hlarge, if_pos hgrow]
    unfold reallocLargeGrow
    split_ifs with hdead
    · obtain ⟨sSize, free, numSlabs, hn, hend, hfree, hnum, hno⟩ := hno hdead
      rw [bind_of_ok hn, bind_of_ok (show (get : HeapM Heap) s = .ok (s, s) from rfl), if_neg hend,
        bind_of_ok hfree, bind_of_ok hnum, if_neg hno]
    · rfl
  | largeShrink hread hsize hlarge hshrink hover hdead =>
    rw [bind_of_ok hread.packed, if_neg (by decide), if_neg hsize.not_gt, bind_of_ok hread.pos,
      bind_of_ok hread.size, if_pos hlarge, if_neg hshrink.not_gt]
    unfold reallocLargeShrink
    rw [if_neg hover.not_ge, if_neg hdead.not_ge,
      if_pos (hdead.trans_le (Nat.mod_le _ _))]
  | mediumGrow hread hsize hmedium hgrow hno =>
    rw [bind_of_ok hread.packed, if_neg (by decide), if_neg hsize.not_gt, bind_of_ok hread.pos,
      bind_of_ok hread.size, if_neg hmedium.not_ge, if_neg hgrow.not_ge]
    unfold reallocMediumGrow
    split_ifs with hmax
    · obtain ⟨offsets, blockAlloc, hoffs, hal, hno⟩ := hno hmax
      rw [bind_of_ok hoffs, bind_of_ok hal, if_neg hno]
    · rfl

theorem load64_readsOnly {a : Nat} : ReadsOnly (load64 a) := by
  intro s v t h
  unfold load64 at h
  rw [bind_of_ok (show (get : HeapM Heap) s = .ok (s, s) from rfl)] at h
  split_ifs at h
  · exact ReadsOnly.pure _ s v t h
  · exact ReadsOnly.throw _ s v t h

theorem load8_readsOnly {a : Nat} : ReadsOnly (load8 a) :=
  .bind load64_readsOnly fun _ => .pure _

theorem slabIsPacked_readsOnly {a : Nat} : ReadsOnly (slabIsPacked a) :=
  .bind load8_readsOnly fun _ => .pure _

theorem slabIsFree_readsOnly {a : Nat} : ReadsOnly (slabIsFree a) :=
  .bind (.bind load8_readsOnly fun _ => .pure _) fun _ => .pure _

theorem largeSlabGetSize_readsOnly {a : Nat} : ReadsOnly (largeSlabGetSize a) :=
  .bind load64_readsOnly fun _ => .pure _

theorem mediumBinOffsets_readsOnly {a : Nat} : ReadsOnly (mediumBinOffsets a) :=
  .bind load64_readsOnly fun _ => .pure _

theorem mediumBinFindBlockPos_readsOnly {a b : Nat} : ReadsOnly (mediumBinFindBlockPos a b) := by
  refine .bind mediumBinOffsets_readsOnly fun mem => ?_
  split
  · exact .pure _
  · exact .throw _

theorem mediumBinBlockSize_readsOnly {a i : Nat} : ReadsOnly (mediumBinBlockSize a i) :=
  .bind mediumBinOffsets_readsOnly fun _ => .ite
    (.bind load8_readsOnly fun _ => .ite (.pure _) (.bind largeSlabGetSize_readsOnly fun _ => .pure _))
    (.pure _)

/-- **There are no other paths on which a block moves.** -/
theorem movePath_of_ne (h : _intRealloc p size s = .ok (q, t)) (hne : q ≠ p) :
    ∃ n release, MovePath s p size n release := by
  unfold _intRealloc at h
  obtain ⟨packed, hpacked, h⟩ := slabIsPacked_readsOnly.bind_eq_ok h
  cases packed with
  | true =>
    rw [if_pos rfl] at h
    obtain ⟨szClass, hclass, h⟩ := load8_readsOnly.bind_eq_ok h
    refine ⟨_, _, .packed hpacked hclass fun hsame => ?_⟩
    dsimp only at h
    rw [if_pos hsame] at h
    exact hne (Returns.pure s q t h)
  | false =>
    rw [if_neg (by decide)] at h
    split_ifs at h with hsmall
    · exact ⟨_, _, .mediumToTiny hpacked hsmall⟩
    obtain ⟨blkIdx, hpos, h⟩ := mediumBinFindBlockPos_readsOnly.bind_eq_ok h
    obtain ⟨blkSize, hsize, h⟩ := mediumBinBlockSize_readsOnly.bind_eq_ok h
    have hread : BlockRead s p blkIdx blkSize := ⟨hpacked, hpos, hsize⟩
    have hsmall : minMediumBlockSz ≤ size := not_lt.mp hsmall
    split_ifs at h with hlarge hgrow hshrink
    · refine ⟨_, _, .largeGrow hread hsmall hlarge hgrow fun hdead => ?_⟩
      unfold reallocLargeGrow at h
      rw [if_pos hdead] at h
      obtain ⟨sSize, hn, h⟩ := largeSlabGetSize_readsOnly.bind_eq_ok h
      rw [bind_of_ok (show (get : HeapM Heap) s = .ok (s, s) from rfl)] at h
      split_ifs at h with hend
      · exact absurd (Returns.bind (fun _ => .bind fun _ => .bind fun _ => .bind fun _ => .pure)
          s q t h) hne
      obtain ⟨free, hfree, h⟩ := slabIsFree_readsOnly.bind_eq_ok h
      obtain ⟨numSlabs, hnum, h⟩ := load64_readsOnly.bind_eq_ok h
      split_ifs at h with hroom
      · exact absurd (Returns.bind (fun _ => .bind fun _ => .pure) s q t h) hne
      · exact ⟨sSize, free, numSlabs, hn, hend, hfree, hnum, hroom⟩
    · unfold reallocLargeShrink at h
      split_ifs at h with hmedium hkeep hdead
      · exact absurd (Returns.bind (fun _ => .bind fun _ => .bind fun _ => .ite
          (.bind fun _ => .bind fun _ => .pure) .pure) s q t h) hne
      · exact absurd (Returns.bind (fun _ => .bind fun _ => .bind fun _ => .bind fun _ => .bind
          fun _ => .pure) s q t h) hne
      · exact ⟨_, _, .largeShrink hread hsmall hlarge (not_lt.mp hgrow) (not_le.mp hmedium)
          (not_le.mp hkeep)⟩
      · exact absurd (Returns.pure s q t h) hne
    · unfold reallocMediumShrink at h
      exact absurd (Returns.bind (fun _ => .bind fun _ => .ite
        (.bind fun _ => .bind fun _ => .bind fun _ => .pure)
        (.ite (.bind fun _ => .bind fun _ => .pure) .pure)) s q t h) hne
    · refine ⟨_, _, .mediumGrow hread hsmall (not_le.mp hlarge) (not_le.mp hshrink) fun hmax => ?_⟩
      unfold reallocMediumGrow at h
      rw [if_pos hmax] at h
      obtain ⟨offsets, hoffs, h⟩ := mediumBinOffsets_readsOnly.bind_eq_ok h
      obtain ⟨blockAlloc, hal, h⟩ := load8_readsOnly.bind_eq_ok h
      split_ifs at h with hroom hrest
      · exact absurd (Returns.bind (fun _ => .bind fun _ => .pure) s q t h) hne
      · exact absurd (Returns.bind (fun _ => .bind fun _ => .bind fun _ => .pure) s q t h) hne
      · exact ⟨offsets, blockAlloc, hoffs, hal, hroom⟩

/-! ## What a path copies, and how it frees -/

/-- Blocks of packed slabs have the size of their class; the others are medium or large. -/
theorem HeapInv.used_cases (hinv : HeapInv strict s L) (hu : Used s.mem L p e) :
    (slabIsPacked (ptrGetSlab p) s = .ok (true, s) ∧ slabClass s.mem (ptrGetSlab p) = e - p ∧
      ∃ szClass, load8 (ptrGetSlab p + 1) s = .ok (szClass, s) ∧ szClassToSize szClass = e - p) ∨
    (slabIsPacked (ptrGetSlab p) s = .ok (false, s) ∧ slabClass s.mem (ptrGetSlab p) = 0 ∧
      ∃ A r B i, L = A ++ r :: B ∧ BlockAt s r i p e) := by
  obtain ⟨A, r, B, rfl, haddr, -, hu⟩ := hinv.used_slab hu
  unfold RegionUsed at hu
  cases hk : r.kind with
  | free =>
    rw [hk] at hu
    exact hu.elim
  | raw =>
    rw [hk] at hu
    exact hu.elim
  | packed =>
    rw [hk] at hu
    obtain ⟨-, -, h2, -⟩ := hinv.packed_facts (r := r) (by simp) hk
    obtain ⟨j, -, -, -, rfl⟩ := packedUsed_iff.mp hu
    rw [haddr]
    refine .inl ⟨h2 ▸ hinv.slabIsPacked_eq, ?_, _, hinv.szClass_eq, ?_⟩
    · unfold slabClass
      rw [if_pos h2, Nat.add_sub_cancel_left]
    · unfold szClassToSize packedSize
      simp only [mallocAlign]
      omega
  | large =>
    rw [hk] at hu
    obtain ⟨o, o', ⟨i, hi, hal, rfl, rfl⟩, hp, he⟩ := hu
    have hb : BlockAt s r i p e := ⟨hk, hi, hal, hp, he⟩
    obtain ⟨-, -, h2, -⟩ := hinv.large_facts (r := r) (by simp) hk
    refine .inr ⟨?_, hb.slabClass hinv, A, r, B, i, rfl, hb⟩
    rw [haddr, hinv.slabIsPacked_eq, h2]

theorem BlockRead.size_eq {blkIdx blkSize : Nat} (h : BlockRead s p blkIdx blkSize)
    (hinv : HeapInv strict s L) (hu : Used s.mem L p e) : blkSize = e - p := by
  rcases hinv.used_cases hu with ⟨hpacked, -⟩ | ⟨-, -, A, r, B, i, rfl, hb⟩
  · cases hpacked.symm.trans h.packed
  · obtain ⟨hpos, hsize⟩ := hb.reads hinv
    rw [← (hb.slab hinv).1] at hpos hsize
    obtain ⟨rfl, -⟩ := Prod.mk.inj (Except.ok.inj (hpos.symm.trans h.pos))
    exact (Prod.mk.inj (Except.ok.inj (hsize.symm.trans h.size))).1.symm

/-- **Every path copies what both blocks have room for, and frees the block as `free` does.** -/
theorem MovePath.facts (h : MovePath s p size n release) (hinv : HeapInv strict s L)
    (hu : Used s.mem L p e) : n = min (e - p) size ∧
      ∀ u L', HeapInv False u L' → Used u.mem L' p e →
        slabClass u.mem (ptrGetSlab p) = slabClass s.mem (ptrGetSlab p) →
        release u = _intFree p u := by
  rcases hinv.used_cases hu with ⟨hpacked, hclass, c, hc, hsize⟩ | ⟨hpacked, hclass, A, r, B, i, rfl, hb⟩
  · cases h with
    | packed _ hread =>
      obtain ⟨rfl, -⟩ := Prod.mk.inj (Except.ok.inj (hc.symm.trans hread))
      refine ⟨by rw [hsize, min_comm], fun u L' hinv' hu' heq => ?_⟩
      exact packedRelease_eq hinv' hu' (by rw [heq, hclass, hsize])
    | mediumToTiny hno => cases hpacked.symm.trans hno
    | largeGrow hread => cases hpacked.symm.trans hread.packed
    | largeShrink hread => cases hpacked.symm.trans hread.packed
    | mediumGrow hread => cases hpacked.symm.trans hread.packed
  · have hge := hb.size_ge hinv
    have hrel : ∀ u L', HeapInv False u L' → Used u.mem L' p e →
        slabClass u.mem (ptrGetSlab p) = slabClass s.mem (ptrGetSlab p) →
        _intLargeBlockFree (ptrGetSlab p) p u = _intFree p u := fun u L' hinv' hu' heq =>
      largeRelease_eq hinv' hu' (heq.trans hclass)
    cases h with
    | packed hno => cases hpacked.symm.trans hno
    | mediumToTiny _ hsize =>
      simp only [minMediumBlockSz] at hsize
      exact ⟨by omega, hrel⟩
    | largeGrow hread _ _ hgrow =>
      obtain rfl := hread.size_eq hinv hu
      exact ⟨by omega, hrel⟩
    | largeShrink hread _ _ hshrink =>
      obtain rfl := hread.size_eq hinv hu
      exact ⟨by omega, hrel⟩
    | mediumGrow hread _ _ hgrow =>
      obtain rfl := hread.size_eq hinv hu
      exact ⟨by omega, hrel⟩

/-! ## `realloc` -/

theorem malloc_eq (hheap : s.heap ≠ 0) (h0 : alignUp size mallocAlign ≠ 0) :
    malloc size s = _intMalloc (alignUp size mallocAlign) s := by
  have hassert : mallocAssert (decide (s.heap ≠ 0)) s = .ok ((), s) :=
    eq_ok_of_wp (wp_mallocAssert.mpr ⟨decide_eq_true hheap, rfl, rfl⟩)
  unfold malloc
  rw [bind_of_ok (show (get : HeapM Heap) s = .ok (s, s) from rfl), bind_of_ok hassert, if_neg h0]

theorem free_eq (hheap : s.heap ≠ 0) (hp : p ≠ 0) : free p s = _intFree p s := by
  have hassert : mallocAssert (decide (s.heap ≠ 0)) s = .ok ((), s) :=
    eq_ok_of_wp (wp_mallocAssert.mpr ⟨decide_eq_true hheap, rfl, rfl⟩)
  unfold free
  rw [bind_of_ok (show (get : HeapM Heap) s = .ok (s, s) from rfl), if_neg hp, bind_of_ok hassert]

/-- The byte at `x`, as `load8` reads it. -/
def memByte (m : Nat → Nat) (x : Nat) : Nat := fieldOf (m (x / 8 * 8)) (x % 8) 1

/-- **Moving a block**: on each of its malloc-copy-free paths, and only there, `realloc` returns
another block. That block has the size asked for and the old contents as far as they fit, the
other blocks are apart from it and unchanged, and the old block is freed as by `free`. -/
theorem realloc_move (h : HeapReach s live) : ∃ L, LiveOk False s L live ∧
    ∀ p e size n, Used s.mem L p e → 0 < size → NoWrap size → n = (size + 15) / 16 * 16 →
      (∀ c release, MovePath s p n c release → ∃ q u t L' g, realloc p size s = .ok (q, t) ∧
        q ≠ p ∧ malloc size s = .ok (q, u) ∧
        free p { u with mem := copyRange u.mem q p c } = .ok ((), t) ∧
        HeapInv False t L' ∧ Used t.mem L' q g ∧ q + size ≤ g ∧
        (∀ k, k < min (e - p) size → memByte t.mem (q + k) = memByte s.mem (p + k)) ∧
        ∀ y f, Used s.mem L y f → y ≠ p →
          (∃ f', f ≤ f' ∧ Used t.mem L' y f' ∧ (f' ≤ q ∨ g ≤ y)) ∧
          ∀ x, y ≤ x → x < f → memByte t.mem x = memByte s.mem x) ∧
      ∀ q t, realloc p size s = .ok (q, t) → q ≠ p → ∃ c release, MovePath s p n c release := by
  obtain ⟨L, hL⟩ := h.liveOk
  refine ⟨L, hL, ?_⟩
  rintro p e size n hu h0 hsize rfl
  have hbounds := hL.inv.used_bounds hu
  have halign := alignUp_size hsize
  have hrun : realloc p size s = _intRealloc p ((size + 15) / 16 * 16) s := by
    rw [realloc_eq hL.heap_pos (by omega) (by rw [halign]; omega), halign]
  refine ⟨fun c release hpath => ?_, fun q t heq hne => movePath_of_ne (hrun ▸ heq) hne⟩
  obtain ⟨hc, hrelease⟩ := hpath.facts hL.inv hu
  obtain ⟨q, t, heq, ht⟩ := wp_iff.mp (reallocMove_spec (n := c) hL.inv hu (by omega) (by omega)
    hsize (by omega) (by omega) hrelease)
  obtain ⟨u, hmalloc, hfree⟩ := ht.steps
  obtain ⟨L', g, hinv, huq, hg, hothers⟩ := ht.block
  have hq := hinv.used_bounds huq
  have hheap : u.heap ≠ 0 := by
    rw [(wp_of_eq (_intMalloc_spec hL.inv (by omega) (by omega) hsize) hmalloc).heap]
    exact hL.heap_pos
  refine ⟨q, u, t, L', g, by rw [hrun, hpath.eq, heq], ht.ne, ?_, ?_, hinv, huq, by omega,
    fun k hk => ?_, fun y f hy hne => ⟨hothers y f hy hne, fun x h₁ h₂ => ?_⟩⟩
  · rw [malloc_eq hL.heap_pos (by rw [halign]; omega), halign, hmalloc]
  · exact (free_eq (s := { u with mem := copyRange u.mem q p c }) hheap (by omega)).trans hfree
  · -- both blocks start at a word
    unfold memByte
    rw [show (q + k) / 8 * 8 = q + k / 8 * 8 by omega, show (p + k) / 8 * 8 = p + k / 8 * 8 by omega,
      show (q + k) % 8 = (p + k) % 8 by omega, ht.copied _ (by omega)]
  · have hyb := hL.inv.used_bounds hy
    unfold memByte
    rw [ht.contents y f hy hne _ (by omega) (by omega)]

/-- The first of two blocks of 600 bytes is moved into the rest of their slab. -/
theorem realloc_move_medium : ∃ s live L e c release, HeapReach s live ∧ (69648, 600) ∈ live ∧
    LiveOk False s L live ∧ Used s.mem L 69648 e ∧ MovePath s 69648 800 c release ∧
    ∃ q u t L' g, realloc 69648 800 s = .ok (q, t) ∧ q ≠ 69648 ∧ malloc 800 s = .ok (q, u) ∧
      free 69648 { u with mem := copyRange u.mem q 69648 c } = .ok ((), t) ∧
      HeapInv False t L' ∧ Used t.mem L' q g ∧ q + 800 ≤ g ∧
      (∀ k, k < min (e - 69648) 800 → memByte t.mem (q + k) = memByte s.mem (69648 + k)) ∧
      ∀ y f, Used s.mem L y f → y ≠ 69648 →
        (∃ f', f ≤ f' ∧ Used t.mem L' y f' ∧ (f' ≤ q ∨ g ≤ y)) ∧
        ∀ x, y ≤ x → x < f → memByte t.mem x = memByte s.mem x := by
  obtain ⟨s, live, hreach, hcheck⟩ := heapReach_of_runCheck [.malloc 600, .malloc 600]
    (fun live s => decide ((69648, 600) ∈ live) &&
      match realloc 69648 800 s with
      | .ok (q, _) => decide (q ≠ 69648)
      | .error _ => false) (by decide +kernel)
  rw [Bool.and_eq_true, decide_eq_true_eq] at hcheck
  obtain ⟨hmem, hcheck⟩ := hcheck
  obtain ⟨L, hL, hmove⟩ := realloc_move hreach
  obtain ⟨e, hu, -⟩ := hL.block _ hmem
  have hspec := hmove 69648 e 800 800 hu (by decide) (by unfold NoWrap; decide) (by decide)
  split at hcheck
  · rename_i q t heq
    obtain ⟨c, release, hpath⟩ := hspec.2 q t heq (of_decide_eq_true hcheck)
    exact ⟨s, live, L, e, c, release, hreach, hmem, hL, hu, hpath, hspec.1 c release hpath⟩
  · cases hcheck

end

end MallocBench.Slab
