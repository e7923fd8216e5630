import Mathlib.Data.Nat.Count
import MallocBench.Lib.Tally
import MallocBench.Slab.BlockLookup
import MallocBench.Slab.Checkheap
import MallocBench.Slab.HeapInv
import MallocBench.Slab.PackedOps

/-!
# The slab walk of the heap checker

What the walk over all slabs counts, and that its assertions hold in a heap that
keeps the invariant. The one thing the invariant allows and the checker does not
is a region of several slabs whose last block is free, `Hanging`.
-/

namespace MallocBench.Slab

open Lib

/-! ## What is counted -/

instance {size : Nat} {f : Nat → Bool} : Decidable (HasFree size f) :=
  inferInstanceAs (Decidable (∃ j, j < packedBlocks size ∧ f j = true))

/-- The free slabs of `L`, with their bins. -/
def freeNodes (L : List Region) : List (Nat × Nat) :=
  (L.filter fun r => r.kind = .free).map fun r => (r.addr, slabBinIdx r.n)

/-- The packed slabs of `L` with free space, with their bins. -/
def smallNodes (m : Nat → Nat) (L : List Region) : List (Nat × Nat) :=
  (L.filter fun r => r.kind = .packed ∧ HasFree (packedSize m r.addr) (freeBit m r.addr)).map
    fun r => (r.addr, packedBinIdx (packedSize m r.addr))

/-- The free ones among the first `k` blocks of the region `r`, with their bins. -/
def blockNodes (m : Nat → Nat) (r : Region) (k : Nat) : List (Nat × Nat) :=
  ((List.range k).filter fun j => !alAt m r.addr j).map fun j =>
    (r.addr + offAt m r.addr j, mediumBinIdx (offAt m r.addr (j + 1) - offAt m r.addr j))

/-- The free blocks of the large regions of `L`, with their bins. -/
def mediumNodes (m : Nat → Nat) (L : List Region) : List (Nat × Nat) :=
  (L.filter fun r => r.kind = .large).flatMap fun r => blockNodes m r (cntAt m r.addr)

/-- The walk over `L` has counted all nodes of `L`. -/
structure Counted (m : Nat → Nat) (L : List Region) (c c' : CheckCounts) : Prop where
  freeSlab : ∀ i, c'.freeSlab i = c.freeSlab i + tally (freeNodes L) i
  smallbin : ∀ i, c'.smallbin i = c.smallbin i + tally (smallNodes m L) i
  mediumbin : ∀ i, c'.mediumbin i = c.mediumbin i + tally (mediumNodes m L) i

/-- The last block of a region of several slabs is free: the region keeps slabs
that no block uses. -/
def Hanging (m : Nat → Nat) (r : Region) : Prop :=
  r.kind = .large ∧ 1 < r.n ∧ alAt m r.addr (cntAt m r.addr - 1) = false

instance {m : Nat → Nat} {r : Region} : Decidable (Hanging m r) :=
  inferInstanceAs (Decidable (_ ∧ _ ∧ _))

section

variable {m : Nat → Nat} {A B L : List Region} {r : Region} {c c' c'' : CheckCounts}

theorem Counted.nil (h₁ : c'.freeSlab = c.freeSlab) (h₂ : c'.smallbin = c.smallbin)
    (h₃ : c'.mediumbin = c.mediumbin) : Counted m [] c c' :=
  ⟨fun i => congrFun h₁ i, fun i => congrFun h₂ i, fun i => congrFun h₃ i⟩

theorem freeNodes_append : freeNodes (A ++ B) = freeNodes A ++ freeNodes B := by
  unfold freeNodes
  rw [List.filter_append, List.map_append]

theorem smallNodes_append : smallNodes m (A ++ B) = smallNodes m A ++ smallNodes m B := by
  unfold smallNodes
  rw [List.filter_append, List.map_append]

theorem mediumNodes_append : mediumNodes m (A ++ B) = mediumNodes m A ++ mediumNodes m B := by
  unfold mediumNodes
  rw [List.filter_append, List.flatMap_append]

theorem Counted.append (h : Counted m A c c') (h' : Counted m B c' c'') :
    Counted m (A ++ B) c c'' := by
  refine ⟨fun i => ?_, fun i => ?_, fun i => ?_⟩
  · rw [h'.freeSlab, h.freeSlab, freeNodes_append, tally_append, Nat.add_assoc]
  · rw [h'.smallbin, h.smallbin, smallNodes_append, tally_append, Nat.add_assoc]
  · rw [h'.mediumbin, h.mediumbin, mediumNodes_append, tally_append, Nat.add_assoc]

/-- What a region of each kind adds. -/
theorem counted_free (hk : r.kind = .free) (h₁ : c'.freeSlab = bumpCnt c.freeSlab (slabBinIdx r.n))
    (h₂ : c'.smallbin = c.smallbin) (h₃ : c'.mediumbin = c.mediumbin) : Counted m [r] c c' := by
  refine ⟨fun i => ?_, fun i => ?_, fun i => ?_⟩
  · rw [h₁, freeNodes, List.filter_cons_of_pos (by simp [hk])]
    show bumpCnt _ _ i = _ + tally [_] i
    rw [tally_singleton, bumpCnt]
    by_cases hi : slabBinIdx r.n = i
    · rw [← hi, Function.update_self, if_pos rfl]
    · rw [Function.update_of_ne (Ne.symm hi), if_neg hi, Nat.add_zero]
  · rw [h₂, smallNodes, List.filter_cons_of_neg (by simp [hk])]
    rfl
  · rw [h₃, mediumNodes, List.filter_cons_of_neg (by simp [hk])]
    rfl

theorem counted_packed (hk : r.kind = .packed) (h₁ : c'.freeSlab = c.freeSlab)
    (h₂ : c'.smallbin = if HasFree (packedSize m r.addr) (freeBit m r.addr) then
      bumpCnt c.smallbin (packedBinIdx (packedSize m r.addr)) else c.smallbin)
    (h₃ : c'.mediumbin = c.mediumbin) : Counted m [r] c c' := by
  refine ⟨fun i => ?_, fun i => ?_, fun i => ?_⟩
  · rw [h₁, freeNodes, List.filter_cons_of_neg (by simp [hk])]
    rfl
  · rw [h₂, smallNodes]
    by_cases hf : HasFree (packedSize m r.addr) (freeBit m r.addr)
    · rw [if_pos hf, List.filter_cons_of_pos (by simp [hk, hf])]
      show bumpCnt _ _ i = _ + tally [_] i
      rw [tally_singleton, bumpCnt]
      by_cases hi : packedBinIdx (packedSize m r.addr) = i
      · rw [← hi, Function.update_self, if_pos rfl]
      · rw [Function.update_of_ne (Ne.symm hi), if_neg hi, Nat.add_zero]
    · rw [if_neg hf, List.filter_cons_of_neg (by simp [hf])]
      rfl
  · rw [h₃, mediumNodes, List.filter_cons_of_neg (by simp [hk])]
    rfl

theorem counted_large (hk : r.kind = .large) (h₁ : c'.freeSlab = c.freeSlab)
    (h₂ : c'.smallbin = c.smallbin) (h₃ : ∀ i, c'.mediumbin i =
      c.mediumbin i + tally (blockNodes m r (cntAt m r.addr)) i) : Counted m [r] c c' := by
  refine ⟨fun i => ?_, fun i => ?_, fun i => ?_⟩
  · rw [h₁, freeNodes, List.filter_cons_of_neg (by simp [hk])]
    rfl
  · rw [h₂, smallNodes, List.filter_cons_of_neg (by simp [hk])]
    rfl
  · rw [h₃, mediumNodes, List.filter_cons_of_pos (by simp [hk])]
    simp

end

/-- The invariant with every last block in use is the strict one. -/
theorem largeOk_strict {m : Nat → Nat} {r : Region} :
    RegionOk True m r ↔ RegionOk False m r ∧ ¬ Hanging m r := by
  unfold RegionOk Hanging
  cases hk : r.kind with
  | free => simp
  | packed => simp
  | raw => simp
  | large =>
    show LargeOk True m r ↔ LargeOk False m r ∧ _
    constructor
    · intro h
      refine ⟨h.weaken, ?_⟩
      rintro ⟨-, hn, hal⟩
      rcases h.last_large hn with hl | hl
      · rw [hl] at hal
        cases hal
      · exact hl.1 trivial
    · rintro ⟨h, hnot⟩
      refine ⟨h.pos, h.le, h.first, h.aligned, h.step, h.page, h.stop, h.last_one, fun hn => ?_,
        h.coalesced, h.used⟩
      left
      by_contra hal
      exact hnot ⟨rfl, hn, by simpa using hal⟩

theorem heapInv_strict {s : Heap} {L : List Region} :
    HeapInv True s L ↔ HeapInv False s L ∧ ∀ r ∈ L, ¬ Hanging s.mem r := by
  constructor
  · intro h
    exact ⟨⟨h.slab, fun r hr => (largeOk_strict.mp (h.regions r hr)).1, h.medium, h.small⟩,
      fun r hr => (largeOk_strict.mp (h.regions r hr)).2⟩
  · rintro ⟨h, hnot⟩
    exact ⟨h.slab, fun r hr => largeOk_strict.mpr ⟨h.regions r hr, hnot r hr⟩, h.medium, h.small⟩

/-! ## Neighbours -/

section

variable {s : Heap} {L : List Region} {bins : Nat → List Nat} {r : Region} {p : Bool}
  {c : CheckCounts}

/-- What comes after the region `r` has recorded its alloc status. -/
def NextOk (s : Heap) (r : Region) : Prop :=
  r.stop = s.heapEnd ∨
    (s.Valid r.stop ∧ r.stop % 8 = 0 ∧ (s.mem r.stop).testBit 1 = r.isAlloc)

theorem wp_nextAdjSlab {Q : Nat → Heap → Prop} (hslab : SlabInv s L bins) (hr : r ∈ L)
    (hk : r.kind ≠ .raw) (hQ : Q r.stop s) : wp (nextAdjSlab r.addr) Q s := by
  obtain ⟨hn, hal, -, -, p, hok⟩ := hslab.mem_facts hr
  have hstop := Region.addr_lt_stop hn
  have hv := hslab.valid hr (le_refl _) (by omega) (by omega)
  unfold nextAdjSlab slabGetSize
  rw [wp_bind, wp_bind, wp_slabIsFree (by omega), hok.alloc_bit]
  refine ⟨hv, ?_⟩
  obtain ⟨-, -, -, hkind⟩ := hok
  rw [wp_ite]
  cases hkr : r.kind with
  | free =>
    rw [hkr] at hkind
    rw [if_pos (by simp [Region.isAlloc, hkr]), wp_load64, hkind.1]
    exact ⟨hslab.valid hr (by omega) (by omega) (by omega), wp_pure.mpr hQ⟩
  | packed =>
    rw [hkr] at hkind
    rw [if_neg (by simp [Region.isAlloc, hkr]), wp_bind, wp_slabIsPacked (by omega), hkind.1]
    refine ⟨hv, ?_⟩
    rw [if_pos rfl, wp_pure, wp_pure, ← hkind.2]
    exact hQ
  | large =>
    rw [hkr] at hkind
    rw [if_neg (by simp [Region.isAlloc, hkr]), wp_bind, wp_slabIsPacked (by omega), hkind.1]
    refine ⟨hv, ?_⟩
    rw [if_neg (by decide), wp_largeSlabGetSize, hkind.2]
    exact ⟨hslab.valid hr (by omega) (by omega) (by omega), wp_pure.mpr hQ⟩
  | raw => exact absurd hkr hk

theorem checkNextPrevAlloc_spec (hslab : SlabInv s L bins) (hr : r ∈ L) (hk : r.kind ≠ .raw)
    (hnext : NextOk s r) : wp (checkNextPrevAlloc r.addr r.isAlloc) (fun _ t => t = s) s := by
  unfold checkNextPrevAlloc
  rw [wp_bind]
  refine wp_nextAdjSlab hslab hr hk ?_
  rw [wp_bind, wp_get, wp_ite]
  split
  · exact wp_pure.mpr rfl
  · rcases hnext with heq | ⟨hv, h8, hbit⟩
    · contradiction
    · rw [wp_bind, wp_load8_flags h8, wp_mallocAssert, testBit_fieldOf]
      refine ⟨hv, ?_, rfl⟩
      simp [hbit]

/-! ## Free slabs -/

theorem checkFreeSlab_spec (hslab : SlabInv s L bins) (hr : r ∈ L) (hk : r.kind = .free)
    (hok : r.Ok s.mem true) (hnext : NextOk s r) :
    wp (checkFreeSlab r.addr c)
      (fun c' t => t = s ∧ Counted s.mem [r] c c' ∧ c'.lastSlabIsAlloc = r.isAlloc) s := by
  obtain ⟨hn, hal, -, -⟩ := hslab.mem_facts hr
  have hstop := Region.addr_lt_stop hn
  have halloc : r.isAlloc = false := Region.isAlloc_eq_false.mpr hk
  have hv := hslab.valid hr (le_refl _) (by omega) (by omega)
  have hfoot : r.addr + slabSize * r.n - 8 = r.stop - 8 := rfl
  unfold checkFreeSlab slabGetSize
  rw [wp_bind, wp_bind, wp_slabIsFree (by omega), hok.alloc_bit, halloc]
  refine ⟨hv, ?_⟩
  rw [if_pos (by decide), wp_load64, hok.num_slabs hk]
  refine ⟨hslab.valid hr (by omega) (by omega) (by omega), ?_⟩
  rw [wp_bind, wp_mallocAssert, wp_bind, wp_load64, hfoot, hok.footer hk, wp_bind, wp_mallocAssert]
  refine ⟨decide_eq_true hn, hslab.valid hr (by omega) (by omega) ?_, decide_eq_true rfl, ?_⟩
  · unfold Region.stop
    omega
  rw [wp_bind, wp_load8_flags (by omega), wp_bind, wp_mallocAssert, testBit_fieldOf]
  refine ⟨hv, by simp [hok.prev_bit], ?_⟩
  have hcheck := checkNextPrevAlloc_spec hslab hr (by rw [hk]; decide) hnext
  rw [halloc] at hcheck
  refine wp_call hcheck fun _ t ht => wp_pure.mpr ⟨ht, counted_free hk rfl rfl rfl, rfl⟩

end

/-! ## Packed slabs -/

section

variable {s : Heap} {L : List Region} {bins : Nat → List Nat} {r : Region} {p : Bool}
  {c : CheckCounts} {a w n size cnt f1 : Nat} {f : Nat → Bool}

theorem popcount_eq (w : Nat) : popcount w = Nat.count (fun i => w.testBit i = true) 64 := by
  unfold popcount
  generalize 64 = n
  induction n with
  | zero => rfl
  | succ n ih =>
    rw [List.range_succ, List.countP_append, ih, Nat.count_succ, List.countP_singleton]

/-- The words of the free vector hold its bits. -/
theorem testBit_word {m : Nat → Nat} {i j : Nat} (hi : i < 4) (hj : j < 64) :
    (m (a + 24 + 8 * i)).testBit j = freeBit m a (64 * i + j) := by
  unfold freeBit
  rw [decide_eq_true (by omega : 64 * i + j < 256), Bool.true_and,
    show (64 * i + j) / 64 = i by omega, show (64 * i + j) % 64 = j by omega]

theorem popcountWords_spec (words : Nat) : ∀ i, i + words ≤ 4 →
    (∀ k, k < words → s.Valid (a + 24 + 8 * (i + k))) →
    wp (popcountWords (a + 24 + 8 * i) words) (fun n t => t = s ∧
      n = Nat.count (fun j => freeBit s.mem a (64 * i + j) = true) (64 * words)) s := by
  induction words with
  | zero => exact fun i _ _ => wp_pure.mpr ⟨rfl, rfl⟩
  | succ words ih =>
    intro i hi hv
    unfold popcountWords
    rw [wp_bind, wp_load64]
    refine ⟨by simpa using hv 0 (by omega), ?_⟩
    refine wp_call (ih (i + 1) (by omega) fun k hk => ?_) ?_
    · have := hv (k + 1) (by omega)
      rwa [show i + 1 + k = i + (k + 1) by omega]
    · rintro n t ⟨rfl, rfl⟩
      refine wp_pure.mpr ⟨rfl, ?_⟩
      have hword : Nat.count (fun k => (t.mem (a + 24 + 8 * i)).testBit k = true) 64 =
          Nat.count (fun k => freeBit t.mem a (64 * i + k) = true) 64 :=
        count_congr fun k hk => by rw [testBit_word (by omega) hk]
      have hrest : Nat.count (fun k => freeBit t.mem a (64 * (i + 1) + k) = true) (64 * words) =
          Nat.count (fun k => freeBit t.mem a (64 * i + (64 + k)) = true) (64 * words) :=
        count_congr fun k _ => by rw [show 64 * (i + 1) + k = 64 * i + (64 + k) by omega]
      rw [show 64 * (words + 1) = 64 + 64 * words by omega, Nat.count_add, popcount_eq, hword, hrest]

/-- The checker counts the allocated blocks as those that are not free. -/
theorem PackedData.blocks_sub_free (h : PackedData size f cnt f1) :
    packedBlocks size - Nat.count (fun j => f j = true) (packedBits size) = cnt := by
  obtain ⟨-, -, -, -, -, hle, -⟩ := packedSizes_facts h.size_mem
  obtain ⟨d, hd⟩ := Nat.exists_eq_add_of_le hle
  -- the bits past the last block are clear
  have htail : Nat.count (fun k => f (packedBlocks size + k) = true) d = 0 := by
    refine Nat.count_iff_forall_not.mpr fun k hk => ?_
    rw [h.high _ (by omega) (by omega)]
    decide
  have hsum : Nat.count (fun j => f j = true) (packedBlocks size) + usedSlots size f =
      packedBlocks size := by
    rw [Nat.count_eq_card_filter_range]
    unfold usedSlots
    have hnot := Finset.card_filter_add_card_filter_not (s := Finset.range (packedBlocks size))
      (fun j => f j = true)
    simpa using hnot
  rw [hd, Nat.count_add, htail, h.cnt_eq]
  omega

theorem checkHighBits_spec (hn : n < 64) (h : ∀ i, n ≤ i → i < 64 → w.testBit i = false) :
    wp (checkHighBits w n) (fun _ t => t = s) s := by
  unfold checkHighBits
  rw [wp_mallocAssert, decide_eq_true_eq]
  refine ⟨BitVec.eq_of_getLsbD_eq fun i hi => ?_, rfl⟩
  rw [BitVec.getLsbD_and, BitVec.getLsbD_not, getLsbD_lowMask hn, BitVec.getLsbD_ofNat]
  rcases Nat.lt_or_ge i n with hlt | hge
  · simp [hlt]
  · simp [h i hge hi]

/-- The summary of a two-level vector is right, and the blocks are counted. -/
theorem checkPacked2lvl_spec {lanes words bits : Nat} (hok : PackedOk s.mem a)
    (hs : packedSize s.mem a ≤ 48) (hal : a % 8 = 0) (hv : ∀ k, k < 7 → s.Valid (a + 8 * k))
    (hlanes : 16 * lanes ≤ packedBits (packedSize s.mem a))
    (hwords : 64 * words = packedBits (packedSize s.mem a))
    (hbits : bits = packedBlocks (packedSize s.mem a)) :
    wp (checkPacked2lvl a lanes words bits) (fun p t => t = s ∧ p = (fieldOf (s.mem a) 2 2,
      decide (HasFree (packedSize s.mem a) (freeBit s.mem a)))) s := by
  have hle := (packedBits_facts (packedSize s.mem a)).2.1
  have hv24 : ∀ i, i < 4 → s.Valid (a + 24 + 8 * i) := by
    intro i hi
    have := hv (i + 3) (by omega)
    rwa [show a + 8 * (i + 3) = a + 24 + 8 * i by omega] at this
  have hf1 : fieldOf (s.mem a) 4 2 < 2 ^ 16 := Nat.mod_lt _ (by decide)
  unfold checkPacked2lvl
  rw [wp_bind, wp_loadField hal (by omega)]
  refine ⟨hv 0 (by omega), wp_call (wp_forM_checks fun i hi => ?_) ?_⟩
  · -- the bit of the summary says whether the lane has a free block
    have hi' : i < lanes := List.mem_range.mp hi
    unfold checkL1Bit
    rw [wp_bind, wp_loadLane hal, wp_mallocAssert]
    refine ⟨hv24 _ (by omega), ?_, rfl⟩
    have hbit := hok.lvl1 hs i (by omega)
    have hlane : fieldOf (s.mem (a + 24 + 8 * (i / 4))) (2 * (i % 4)) 2 = 0 ↔
        ¬ ∃ k, k < 16 ∧ freeBit s.mem a (16 * i + k) = true := by
      constructor
      · rintro h0 ⟨k, hk, hfree⟩
        have htest := testBit_lane (m := s.mem) (a := a) (i := k) (show i < 16 by omega)
        rw [h0, hfree, decide_eq_true hk, Nat.zero_testBit] at htest
        cases htest
      · intro hnone
        refine Nat.eq_of_testBit_eq fun k => ?_
        rw [testBit_lane (by omega), Nat.zero_testBit]
        by_contra hcon
        simp only [Bool.not_eq_false, Bool.and_eq_true, decide_eq_true_eq] at hcon
        exact hnone ⟨k, hcon⟩
    by_cases hex : ∃ k, k < 16 ∧ freeBit s.mem a (16 * i + k) = true
    · rw [hbit.mpr ⟨by omega, hex⟩, decide_eq_false (fun h0 => hlane.mp h0 hex)]
      rfl
    · rw [decide_eq_true (hlane.mpr hex), Bool.eq_false_iff.mpr fun h1 => hex (hbit.mp h1).2]
      rfl
  · rintro _ t rfl
    refine wp_call (popcountWords_spec words 0 (by omega) fun k hk => ?_) ?_
    · simpa using hv24 k (by omega)
    · rintro free t ⟨rfl, rfl⟩
      refine wp_pure.mpr ⟨rfl, Prod.ext ?_ ?_⟩
      · simp only [Nat.mul_zero, Nat.zero_add]
        rw [hwords, hbits, hok.blocks_sub_free]
      · have hzero := hok.lvl1_zero_iff hs hf1
        show (fieldOf _ 4 2 != 0) = decide _
        by_cases hfree : HasFree (packedSize t.mem a) (freeBit t.mem a)
        · rw [decide_eq_true hfree]
          exact bne_iff_ne.mpr fun h0 => hzero.mp h0 hfree
        · rw [decide_eq_false hfree, hzero.mpr hfree]
          rfl

theorem packedSizes_two_level (h : size ∈ packedSizes) (hs : size ≤ 48) :
    size = 16 ∨ size = 32 ∨ size = 48 := by
  obtain ⟨h₁, -, h₂, -⟩ := packedSizes_facts h
  omega

theorem packedBits_one_level (hs : 48 < size) : packedBits size = 64 := by
  unfold packedBits
  rw [if_neg (by omega), if_neg (by omega)]

/-- The one-level vector is zero iff there is no free block. -/
theorem PackedOk.word_eq_zero_iff (hok : PackedOk s.mem a) (hs : 48 < packedSize s.mem a) :
    BitVec.ofNat 64 (s.mem (a + 24)) = 0 ↔ ¬ HasFree (packedSize s.mem a) (freeBit s.mem a) := by
  constructor
  · rintro h0 ⟨j, hj, hfree⟩
    have hle := hok.blocks_le hs
    have hget := getLsbD_word (m := s.mem) (a := a) (i := j)
    rw [h0, hfree, decide_eq_true (by omega : j < 64)] at hget
    simp at hget
  · intro hnone
    refine BitVec.eq_of_getLsbD_eq fun j hj => ?_
    rw [getLsbD_word, decide_eq_true hj, Bool.true_and]
    show _ = (0#64).getLsbD j
    rw [BitVec.getLsbD_zero]
    by_contra hcon
    rw [Bool.not_eq_false] at hcon
    exact hnone ⟨j, hok.lt_of_free (by rwa [packedBits_one_level hs]) hcon, hcon⟩

/-- The one-level vector: no bits past the last block, and the blocks are counted. -/
theorem checkPacked1lvl_spec (hok : PackedOk s.mem a) (hv : s.Valid (a + 24))
    (hsize : packedSize s.mem a = size) (hs : 48 < size) :
    wp (do
        let w ← load64 (a + 24)
        checkHighBits w (packedSlabNBlocks size)
        pure (packedSlabNBlocks size - popcount w, BitVec.ofNat 64 w != 0) : HeapM (Nat × Bool))
      (fun p t => t = s ∧ p = (fieldOf (s.mem a) 2 2,
        decide (HasFree (packedSize s.mem a) (freeBit s.mem a)))) s := by
  subst hsize
  have hbits := packedBits_one_level hs
  have hblocks : packedSlabNBlocks (packedSize s.mem a) = packedBlocks (packedSize s.mem a) := by
    unfold packedBlocks
    rw [if_neg (by omega), if_neg (by omega), if_neg (by omega)]
  have hblt : packedBlocks (packedSize s.mem a) < 64 := by
    obtain ⟨-, -, h16, -⟩ := packedSizes_facts hok.size_mem
    rw [← hblocks, packedSlabNBlocks, Nat.div_lt_iff_lt_mul (by omega)]
    simp only [slabSize, packedSlabHeaderSize]
    omega
  have hword : ∀ j, j < 64 → (s.mem (a + 24)).testBit j = freeBit s.mem a j := fun j hj => by
    simpa using testBit_word (m := s.mem) (a := a) (i := 0) (by omega) hj
  have hcount : Nat.count (fun j => (s.mem (a + 24)).testBit j = true) 64 =
      Nat.count (fun j => freeBit s.mem a j = true) 64 :=
    count_congr fun j hj => by rw [hword j hj]
  rw [wp_bind, wp_load64, hblocks]
  refine ⟨hv, wp_call (checkHighBits_spec hblt fun i h₁ h₂ => ?_) fun _ t ht => ?_⟩
  · rw [hword i h₂]
    exact hok.high i h₁ (by rwa [hbits])
  · have hsub := hok.blocks_sub_free
    rw [hbits] at hsub
    rw [popcount_eq, hcount, hsub]
    refine wp_pure.mpr ⟨ht, Prod.ext rfl ?_⟩
    by_cases hfree : HasFree (packedSize s.mem a) (freeBit s.mem a)
    · rw [decide_eq_true hfree]
      exact bne_iff_ne.mpr fun h0 => (hok.word_eq_zero_iff hs).mp h0 hfree
    · rw [decide_eq_false hfree, (hok.word_eq_zero_iff hs).mpr hfree]
      rfl

/-- The assertions on the free vector, for both layouts. -/
theorem checkVector_spec (hok : PackedOk s.mem a) (hal : a % 8 = 0)
    (hv : ∀ k, k < 7 → s.Valid (a + 8 * k)) (hsize : packedSize s.mem a = size) :
    wp (if size = 16 then checkPacked2lvl a 16 4 252
      else if size = 32 then checkPacked2lvl a 8 2 126
      else if size = 48 then do
        let r ← checkPacked2lvl a 6 2 84
        let w ← load64 (a + 32)
        checkHighBits w ((slabSize - 48) / 48 - 64)
        pure r
      else do
        let w ← load64 (a + 24)
        checkHighBits w (packedSlabNBlocks size)
        pure (packedSlabNBlocks size - popcount w, BitVec.ofNat 64 w != 0))
      (fun p t => t = s ∧ p = (fieldOf (s.mem a) 2 2,
        decide (HasFree (packedSize s.mem a) (freeBit s.mem a)))) s := by
  rcases Nat.lt_or_ge 48 size with hlt | hge
  · rw [if_neg (by omega), if_neg (by omega), if_neg (by omega)]
    exact checkPacked1lvl_spec hok (hv 3 (by omega)) hsize hlt
  · have hs : packedSize s.mem a ≤ 48 := by omega
    rcases packedSizes_two_level (hsize ▸ hok.size_mem) hge with rfl | rfl | rfl
    · rw [if_pos rfl]
      exact checkPacked2lvl_spec hok hs hal hv (by rw [hsize]; decide) (by rw [hsize]; decide)
        (by rw [hsize]; decide)
    · rw [if_neg (by decide), if_pos rfl]
      exact checkPacked2lvl_spec hok hs hal hv (by rw [hsize]; decide) (by rw [hsize]; decide)
        (by rw [hsize]; decide)
    · rw [if_neg (by decide), if_neg (by decide), if_pos rfl]
      refine wp_call (checkPacked2lvl_spec hok hs hal hv (by rw [hsize]; decide)
        (by rw [hsize]; decide) (by rw [hsize]; decide)) ?_
      rintro q t ⟨rfl, rfl⟩
      rw [wp_bind, wp_load64]
      refine ⟨hv 4 (by omega), wp_call (checkHighBits_spec (by decide) fun i h₁ h₂ => ?_) ?_⟩
      · -- bit `i` of the second word is that of block `64 + i`
        have h20 : (slabSize - 48) / 48 - 64 = 20 := by decide
        have hbit := testBit_word (m := t.mem) (a := a) (i := 1) (by omega) h₂
        rw [show a + 24 + 8 * 1 = a + 32 by omega] at hbit
        have hblocks : packedBlocks (packedSize t.mem a) = 84 := by rw [hsize]; rfl
        have hbits : packedBits (packedSize t.mem a) = 128 := by rw [hsize]; rfl
        rw [hbit]
        exact hok.high _ (by omega) (by omega)
      · rintro _ t' rfl
        exact wp_pure.mpr ⟨rfl, rfl⟩

theorem checkPackedSlab_spec (hslab : SlabInv s L bins) (hr : r ∈ L) (hk : r.kind = .packed)
    (hok : PackedOk s.mem r.addr) (hnext : NextOk s r) :
    wp (checkPackedSlab r.addr c)
      (fun c' t => t = s ∧ Counted s.mem [r] c c' ∧ c'.lastSlabIsAlloc = r.isAlloc) s := by
  obtain ⟨hn, hal, -, -⟩ := hslab.mem_facts hr
  have hstop := Region.addr_lt_stop hn
  have halloc : r.isAlloc = true := Region.isAlloc_eq_true.mpr (by rw [hk]; decide)
  have hv : ∀ k, k < 7 → s.Valid (r.addr + 8 * k) := fun k hk =>
    hslab.valid hr (by omega) (by omega) (by omega)
  have hsize : mallocAlign + fieldOf (s.mem r.addr) 1 1 * mallocAlign = packedSize s.mem r.addr := by
    unfold packedSize
    simp only [mallocAlign]
    omega
  have hcheck := checkNextPrevAlloc_spec hslab hr (by rw [hk]; decide) hnext
  rw [halloc] at hcheck
  unfold checkPackedSlab packedSlabBlockSize
  rw [wp_bind, wp_bind, wp_loadField (by omega) (by omega)]
  refine ⟨hv 0 (by omega), ?_⟩
  rw [wp_pure, hsize]
  refine wp_call hcheck ?_
  rintro _ t rfl
  refine wp_call (checkVector_spec hok (by omega) hv rfl) ?_
  rintro q t ⟨rfl, rfl⟩
  rw [wp_bind, wp_loadField (by omega) (by omega)]
  refine ⟨hv 0 (by omega), ?_⟩
  rw [wp_bind, wp_mallocAssert]
  refine ⟨decide_eq_true rfl, wp_pure.mpr ⟨rfl, counted_packed hk rfl ?_ rfl, halloc.symm⟩⟩
  by_cases hfree : HasFree (packedSize t.mem r.addr) (freeBit t.mem r.addr)
  · simp [hfree]
  · simp [hfree]

end

/-! ## Large regions -/

section

variable {s : Heap} {L : List Region} {bins : Nat → List Nat} {r : Region} 
  {c : CheckCounts} {a n k l idx : Nat} {off : Nat → Nat} {al : Nat → Bool}

theorem mallocAssert_ok {b : Bool} (h : b = true) : mallocAssert b s = .ok ((), s) := by
  rw [h]
  rfl

/-- Where the block walk stops: at the last block, or before the large block when
that starts with the second slab. -/
theorem BlocksOk.exists_last {strict : Prop} (h : BlocksOk strict off al n k) (hn : 0 < n) :
    ∃ l, l < k ∧ off (l + 1) = 4096 ∧ off l < 4096 ∧
      (l + 1 = k ∨ (l + 2 = k ∧ 1 < n ∧ al (l + 1) = true)) := by
  have hpos := h.pos
  have hfirst := h.first
  have hpage := h.page (k - 1) (by omega)
  rcases Nat.lt_or_ge (off (k - 1)) 4096 with hlt | hge
  · refine ⟨k - 1, by omega, ?_, hlt, .inl (by omega)⟩
    exact (h.stop _ (by omega)).1
  · have hk2 : 2 ≤ k := by
      by_contra hcon
      rw [show k - 1 = 0 by omega] at hge
      omega
    have hoff := h.step (k - 2) (by omega)
    have hn1 : 1 < n := by
      by_contra hcon
      have := h.last_one (by omega)
      omega
    refine ⟨k - 2, by omega, ?_, ?_, .inr ⟨by omega, hn1, ?_⟩⟩
    · rw [show k - 2 + 1 = k - 1 by omega]
      omega
    · rw [show k - 2 + 1 = k - 1 by omega] at hoff
      omega
    · rw [show k - 2 + 1 = k - 1 by omega]
      exact (h.last_large hn1).resolve_right fun hcon => by omega

theorem blockNodes_succ {m : Nat → Nat} : blockNodes m r (k + 1) = blockNodes m r k ++
    if alAt m r.addr k then [] else
      [(r.addr + offAt m r.addr k, mediumBinIdx (offAt m r.addr (k + 1) - offAt m r.addr k))] := by
  unfold blockNodes
  rw [List.range_succ, List.filter_append, List.map_append]
  congr 1
  cases hal : alAt m r.addr k <;> simp [hal]

/-- The counts before block `k`. -/
def countsTo (m : Nat → Nat) (r : Region) (c : CheckCounts) (k : Nat) : CheckCounts :=
  { c with mediumbin := fun i => c.mediumbin i + tally (blockNodes m r k) i }

theorem countsTo_succ_used {m : Nat → Nat} (h : alAt m r.addr k = true) :
    countsTo m r c (k + 1) = countsTo m r c k := by
  unfold countsTo
  rw [blockNodes_succ, h]
  simp

theorem countsTo_succ_free {m : Nat → Nat} (h : alAt m r.addr k = false) :
    countsTo m r c (k + 1) = { countsTo m r c k with
      mediumbin := bumpCnt (countsTo m r c k).mediumbin
        (mediumBinIdx (offAt m r.addr (k + 1) - offAt m r.addr k)) } := by
  unfold countsTo
  rw [blockNodes_succ, h]
  congr 1
  funext i
  rw [if_neg (by decide), tally_append, tally_singleton, bumpCnt]
  by_cases hi : mediumBinIdx (offAt m r.addr (k + 1) - offAt m r.addr k) = i
  · rw [← hi, Function.update_self, if_pos rfl, Nat.add_assoc]
  · rw [Function.update_of_ne (Ne.symm hi), if_neg hi, Nat.add_zero]

/-- The offset byte of the block after `idx`. -/
theorem nextByte_eq (hal : a % 8 = 0) (hv : s.Valid a) (hidx : idx < 8) :
    (if idx = 7 then pure 0 else blockOffsAt a idx : HeapM Nat) s =
      .ok (offAt s.mem a (idx + 1) / 16 % 256, s) := by
  refine eq_ok_of_wp ?_
  rw [wp_ite]
  split
  · next h7 =>
    subst h7
    refine wp_pure.mpr ⟨?_, rfl⟩
    rw [show offAt s.mem a (7 + 1) = 4096 from blockOff_ge _ (by omega)]
  · unfold blockOffsAt
    rw [Nat.add_assoc, wp_loadField hal (by omega)]
    refine ⟨hv, ?_, rfl⟩
    rw [Nat.add_comm 1 idx]
    exact fieldOf_offset (by omega) (by omega)

theorem checkBlockOffset_eq (hal : a % 8 = 0) (hv : s.Valid a) (hidx : idx < 8)
    (hlt : offAt s.mem a idx < 4096) :
    checkBlockOffset a idx s = .ok (offAt s.mem a idx, s) := by
  refine eq_ok_of_wp ?_
  unfold checkBlockOffset
  rw [wp_ite]
  split
  · next h0 =>
    subst h0
    exact wp_pure.mpr ⟨(blockOff_zero _).symm, rfl⟩
  · unfold blockOffsAt
    rw [wp_bind, show a + 1 + (idx - 1) = a + idx by omega, wp_loadField hal hidx]
    refine ⟨hv, wp_pure.mpr ⟨?_, rfl⟩⟩
    rw [fieldOf_offset (by omega) hidx]
    exact offsetByte_of_lt hlt

/-- The block walk gets to the block at which it stops, and counts on the way. -/
theorem checkBlocks_eq (hok : LargeOk False s.mem r) (hal : r.addr % 8 = 0)
    (hv : s.Valid r.addr) (hl : l < cntAt s.mem r.addr) (hpage : offAt s.mem r.addr (l + 1) = 4096)
    (hlt : offAt s.mem r.addr l < 4096) (fuel : Nat) : ∀ idx, idx ≤ l → l < idx + fuel →
      checkBlocks r.addr n (fieldOf (s.mem (r.addr + 8)) 7 1) fuel idx (countsTo s.mem r c idx) s =
        checkLastBlock r.addr n (fieldOf (s.mem (r.addr + 8)) 7 1) l (countsTo s.mem r c l) s := by
  have hk := hok.le
  induction fuel with
  | zero => intro idx h₁ h₂; omega
  | succ fuel ih =>
    intro idx h₁ h₂
    have hoff : offAt s.mem r.addr idx < 4096 := by
      have := hok.off_mono (i := idx) (j := l) h₁
      omega
    have hb := blockOff_bounds (s.mem r.addr) (idx + 1)
    unfold checkBlocks
    rw [bind_of_ok (nextByte_eq hal hv (by omega))]
    rcases Nat.eq_or_lt_of_le h₁ with rfl | hlt'
    · rw [if_pos (by rw [hpage])]
    · -- the next block starts within the page
      have hnext : offAt s.mem r.addr (idx + 1) < 4096 := by
        have := hok.off_mono (i := idx + 1) (j := l) (by omega)
        omega
      have hbyte := offsetByte_of_lt (w := s.mem r.addr) (j := idx + 1) hnext
      have hstep := hok.step idx (by omega)
      rw [if_neg (by show ¬ blockOff _ _ / 16 % 256 = 0; omega),
        bind_of_ok (checkBlockOffset_eq hal hv (by omega) hoff)]
      dsimp only
      have hmul : offAt s.mem r.addr (idx + 1) / 16 % 256 * mallocAlign =
          offAt s.mem r.addr (idx + 1) := hbyte
      rw [hmul, bind_of_ok (mallocAssert_ok (decide_eq_true (by omega))), bind_of_ok
        (mallocAssert_ok ?_), testBit_allocByte, ← ih (idx + 1) (by omega) (by omega)]
      · congr 1
        cases hfree : blockAl (s.mem (r.addr + 8)) idx with
        | true =>
          rw [countsTo_succ_used hfree]
          rfl
        | false =>
          rw [countsTo_succ_free hfree]
          rfl
      · rw [testBit_allocByte, testBit_allocByte, Bool.or_eq_true]
        exact hok.coalesced idx (by omega)

/-- The bytes after the last block are zero. -/
theorem checkOffsZero_spec (hok : LargeOk False s.mem r) (hal : r.addr % 8 = 0)
    (hv : s.Valid r.addr) (hpage : offAt s.mem r.addr (l + 1) = 4096) :
    wp (((List.range 7).drop (l + 1)).forM (checkOffsZero r.addr)) (fun _ t => t = s) s := by
  refine wp_forM_checks fun idx hidx => ?_
  obtain ⟨i, hi, rfl⟩ := List.mem_iff_getElem.mp hidx
  rw [List.length_drop, List.length_range] at hi
  rw [List.getElem_drop, List.getElem_range]
  have hmono := hok.off_mono (i := l + 1) (j := l + 1 + i + 1) (by omega)
  have hle := hok.page' (l + 1 + i + 1)
  have hbyte : (if l + 1 + i = 7 then pure 0 else blockOffsAt r.addr (l + 1 + i) : HeapM Nat) s =
      .ok (offAt s.mem r.addr (l + 1 + i + 1) / 16 % 256, s) := nextByte_eq hal hv (by omega)
  rw [if_neg (by omega)] at hbyte
  unfold checkOffsZero
  rw [wp_iff, bind_of_ok hbyte, ← wp_iff, wp_mallocAssert]
  refine ⟨decide_eq_true ?_, rfl⟩
  rw [show offAt s.mem r.addr (l + 1 + i + 1) = 4096 by omega]

/-- Nothing hangs: the assertions at the last block hold. -/
theorem checkLastBlock_spec (hok : LargeOk False s.mem r) (hk : r.kind = .large)
    (hn : 0 < r.n) (hnot : ¬ Hanging s.mem r) (hal : r.addr % 8 = 0) (hv : s.Valid r.addr)
    (hl : l < cntAt s.mem r.addr) (hpage : offAt s.mem r.addr (l + 1) = 4096)
    (hlt : offAt s.mem r.addr l < 4096) (hcase : l + 1 = cntAt s.mem r.addr ∨
      (l + 2 = cntAt s.mem r.addr ∧ 1 < r.n ∧ alAt s.mem r.addr (l + 1) = true)) :
    wp (checkLastBlock r.addr r.n (fieldOf (s.mem (r.addr + 8)) 7 1) l (countsTo s.mem r c l))
      (fun c' t => t = s ∧ c' = { countsTo s.mem r c (cntAt s.mem r.addr) with
        lastSlabIsAlloc := true }) s := by
  have hk8 := hok.le
  have hused : 1 < r.n → l + 1 = cntAt s.mem r.addr → alAt s.mem r.addr l = true := by
    intro h1 hlast
    by_contra hcon
    refine hnot ⟨hk, h1, ?_⟩
    rw [← hlast, Nat.add_sub_cancel]
    simpa using hcon
  have hend : l + 1 = cntAt s.mem r.addr → alAt s.mem r.addr (l + 1) = false :=
    fun hlast => (hok.stop _ hlast.ge).2
  unfold checkLastBlock
  simp only [testBit_allocByte]
  rw [wp_bind, wp_mallocAssert]
  refine ⟨?_, ?_⟩
  · rcases hcase with hlast | ⟨-, h1, -⟩
    · have : blockAl (s.mem (r.addr + 8)) (l + 1) = false := hend hlast
      rw [this]
      simp
    · simp [h1]
  rw [wp_bind, wp_mallocAssert]
  refine ⟨?_, ?_⟩
  · rcases hcase with hlast | ⟨-, -, hal'⟩
    · rcases Nat.eq_or_lt_of_le hn with h1 | h1
      · simp [← h1]
      · have : blockAl (s.mem (r.addr + 8)) l = true := hused h1 hlast
        simp [this]
    · have : blockAl (s.mem (r.addr + 8)) (l + 1) = true := hal'
      simp [this]
  -- the counts after block `l` are those after all blocks
  have hcounts : countsTo s.mem r c (cntAt s.mem r.addr) = countsTo s.mem r c (l + 1) := by
    rcases hcase with hlast | ⟨hlast, -, hal'⟩
    · rw [hlast]
    · rw [← hlast, ← countsTo_succ_used hal']
  have hzero := checkOffsZero_spec hok hal hv hpage
  rw [hcounts, wp_bind, wp_ite]
  cases hfree : blockAl (s.mem (r.addr + 8)) l with
  | true =>
    rw [if_pos rfl, wp_pure]
    refine wp_call hzero fun _ t ht => wp_pure.mpr ⟨ht, ?_⟩
    rw [countsTo_succ_used hfree]
  | false =>
    have hone : (r.n == 1 || blockAl (s.mem (r.addr + 8)) (l + 1)) = true := by
      rcases hcase with hlast | ⟨-, -, hal'⟩
      · rcases Nat.eq_or_lt_of_le hn with h1 | h1
        · simp [← h1]
        · have : blockAl (s.mem (r.addr + 8)) l = true := hused h1 hlast
          rw [hfree] at this
          cases this
      · have : blockAl (s.mem (r.addr + 8)) (l + 1) = true := hal'
        simp [this]
    rw [if_neg (by decide), wp_iff, bind_of_ok (checkBlockOffset_eq hal hv (by omega) hlt), ← wp_iff,
      if_pos hone, wp_pure]
    refine wp_call hzero fun _ t ht => wp_pure.mpr ⟨ht, ?_⟩
    rw [countsTo_succ_free hfree, hpage]

/-- Up to the last block the walk over a region is the same, whether it hangs or not. -/
theorem checkLargeSlab_eq (hslab : SlabInv s L bins) (hr : r ∈ L) (hk : r.kind = .large)
    (hok : LargeOk False s.mem r) (hnext : NextOk s r) (hl : l < cntAt s.mem r.addr)
    (hpage : offAt s.mem r.addr (l + 1) = 4096) (hlt : offAt s.mem r.addr l < 4096) :
    checkLargeSlab r.addr c s = checkLastBlock r.addr r.n (fieldOf (s.mem (r.addr + 8)) 7 1) l
      (countsTo s.mem r c l) s := by
  obtain ⟨hn, hal, -, -, p, hrok⟩ := hslab.mem_facts hr
  have hstop := Region.addr_lt_stop hn
  have hv := hslab.valid hr (le_refl _) (by omega) (by omega)
  have hv' := hslab.valid hr (x := r.addr + 8) (by omega) (by omega) (by omega)
  have hk8 := hok.le
  have hcheck := checkNextPrevAlloc_spec hslab hr (by rw [hk]; decide) hnext
  rw [Region.isAlloc_eq_true.mpr (by rw [hk]; decide)] at hcheck
  have hsize : s.mem (r.addr + 8) % 2 ^ 56 = r.n := by
    obtain ⟨-, -, -, hkind⟩ := hrok
    rw [hk] at hkind
    exact hkind.2
  have hpass : checkNextPrevAlloc r.addr true s = .ok ((), s) :=
    eq_ok_of_wp (wp_mono hcheck fun _ _ ht => ⟨rfl, ht⟩)
  have hget : largeSlabGetSize r.addr s = .ok (r.n, s) :=
    eq_ok_of_wp (wp_largeSlabGetSize.mpr ⟨hv', hsize, rfl⟩)
  have halloc : load8 (r.addr + 15) s = .ok (fieldOf (s.mem (r.addr + 8)) 7 1, s) :=
    eq_ok_of_wp ((wp_loadAlloc (by omega)).mpr ⟨hv', rfl, rfl⟩)
  unfold checkLargeSlab
  rw [bind_of_ok hpass, bind_of_ok hget, bind_of_ok halloc,
    ← checkBlocks_eq hok (by omega) hv hl hpage hlt 8 0 (by omega) (by omega)]
  rfl

theorem checkLargeSlab_spec (hslab : SlabInv s L bins) (hr : r ∈ L) (hk : r.kind = .large)
    (hok : LargeOk False s.mem r) (hnext : NextOk s r) (hnot : ¬ Hanging s.mem r) :
    wp (checkLargeSlab r.addr c)
      (fun c' t => t = s ∧ Counted s.mem [r] c c' ∧ c'.lastSlabIsAlloc = r.isAlloc) s := by
  obtain ⟨hn, hal, -, -⟩ := hslab.mem_facts hr
  have hstop := Region.addr_lt_stop hn
  have hv := hslab.valid hr (le_refl _) (by omega) (by omega)
  obtain ⟨l, hl, hpage, hlt, hcase⟩ := hok.exists_last hn
  rw [wp_congr (checkLargeSlab_eq hslab hr hk hok hnext hl hpage hlt)]
  refine wp_mono (checkLastBlock_spec hok hk hn hnot (by omega) hv hl hpage hlt hcase) ?_
  rintro c' t ⟨rfl, rfl⟩
  exact ⟨rfl, counted_large hk rfl rfl fun _ => rfl,
    (Region.isAlloc_eq_true.mpr (by rw [hk]; decide)).symm⟩

/-- A region that hangs fails the assertion on its last block. -/
theorem checkLargeSlab_hanging (hslab : SlabInv s L bins) (hr : r ∈ L)
    (hok : LargeOk False s.mem r) (hnext : NextOk s r) (hhang : Hanging s.mem r) :
    checkLargeSlab r.addr c s = .error .assertion := by
  obtain ⟨hk, h1, hfree⟩ := hhang
  obtain ⟨l, hl, hpage, hlt, hcase⟩ := hok.exists_last (by omega)
  rw [checkLargeSlab_eq hslab hr hk hok hnext hl hpage hlt]
  rcases hcase with hlast | ⟨hlast, -, hal'⟩
  · have hfree' : blockAl (s.mem (r.addr + 8)) l = false := by
      rw [← hlast, Nat.add_sub_cancel] at hfree
      exact hfree
    have hend : blockAl (s.mem (r.addr + 8)) (l + 1) = false := (hok.stop _ hlast.ge).2
    unfold checkLastBlock
    simp only [testBit_allocByte]
    rw [bind_of_ok (mallocAssert_ok (by simp [h1])), hfree', hend]
    refine bind_of_error ?_
    rw [beq_false_of_ne (by omega : r.n ≠ 1)]
    rfl
  · rw [show cntAt s.mem r.addr - 1 = l + 1 by omega, hal'] at hfree
    cases hfree

end

/-! ## The walk -/

section

variable {s : Heap} {A B L : List Region} {bins : Nat → List Nat} {r : Region} {p q : Bool}
  {c : CheckCounts} {a : Nat}

/-- The checks of one slab, as the walk meets it. -/
theorem checkSlab_spec (hslab : SlabInv s L bins) (hr : r ∈ L) (hreg : RegionOk False s.mem r)
    (hok : r.Ok s.mem p) (hp : (p || r.isAlloc) = true) (hnext : NextOk s r)
    (hnot : ¬ Hanging s.mem r) : wp (checkSlab r.addr c)
      (fun c' t => t = s ∧ Counted s.mem [r] c c' ∧ c'.lastSlabIsAlloc = r.isAlloc) s := by
  obtain ⟨hn, hal, -, -⟩ := hslab.mem_facts hr
  have hstop := Region.addr_lt_stop hn
  have hv := hslab.valid hr (le_refl _) (by omega) (by omega)
  unfold checkSlab
  rw [wp_bind, wp_slabIsFree (by omega), hok.alloc_bit]
  refine ⟨hv, ?_⟩
  rw [wp_ite]
  cases hk : r.kind with
  | free =>
    have halloc := Region.isAlloc_eq_false.mpr hk
    rw [halloc, Bool.or_false] at hp
    subst hp
    rw [if_pos (by rw [halloc]; rfl)]
    exact checkFreeSlab_spec hslab hr hk hok hnext
  | packed =>
    obtain ⟨-, -, -, hkind⟩ := hok
    rw [hk] at hkind
    rw [if_neg (by simp [Region.isAlloc, hk]), wp_bind, wp_slabIsPacked (by omega), hkind.1]
    refine ⟨hv, ?_⟩
    rw [if_pos rfl]
    exact checkPackedSlab_spec hslab hr hk (hreg.packed hk) hnext
  | large =>
    obtain ⟨-, -, -, hkind⟩ := hok
    rw [hk] at hkind
    rw [if_neg (by simp [Region.isAlloc, hk]), wp_bind, wp_slabIsPacked (by omega), hkind.1]
    refine ⟨hv, ?_⟩
    rw [if_neg (by decide)]
    exact checkLargeSlab_spec hslab hr hk (hreg.large hk) hnext hnot
  | raw =>
    unfold RegionOk at hreg
    rw [hk] at hreg
    exact hreg.elim

theorem checkSlab_hanging (hslab : SlabInv s L bins) (hr : r ∈ L)
    (hreg : RegionOk False s.mem r) (hnext : NextOk s r) (hhang : Hanging s.mem r) :
    checkSlab r.addr c s = .error .assertion := by
  obtain ⟨hn, hal, -, -, p, hok⟩ := hslab.mem_facts hr
  have hstop := Region.addr_lt_stop hn
  have hv := hslab.valid hr (le_refl _) (by omega) (by omega)
  have hk := hhang.1
  have halloc : (s.mem r.addr).testBit 0 = true := by
    rw [hok.alloc_bit, Region.isAlloc_eq_true, hk]
    decide
  obtain ⟨-, -, -, hkind⟩ := hok
  rw [hk] at hkind
  have hfree : slabIsFree r.addr s = .ok (false, s) :=
    eq_ok_of_wp ((wp_slabIsFree (by omega)).mpr ⟨hv, by rw [halloc]; rfl, rfl⟩)
  have hpacked : slabIsPacked r.addr s = .ok (false, s) :=
    eq_ok_of_wp ((wp_slabIsPacked (by omega)).mpr ⟨hv, hkind.1, rfl⟩)
  unfold checkSlab
  rw [bind_of_ok hfree, if_neg (by decide), bind_of_ok hpacked, if_neg (by decide)]
  exact checkLargeSlab_hanging hslab hr (hreg.large hk) hnext hhang

/-- The first region of a tiling is followed by the next one, or by the end. -/
theorem Tiles.nextOk (hslab : SlabInv s L bins) (hB : ∀ r ∈ B, r ∈ L)
    (h : Tiles s.mem r.stop r.isAlloc B s.heapEnd q) : NextOk s r := by
  cases B with
  | nil => exact .inl h.1
  | cons r' B =>
    obtain ⟨haddr, hok, -, -⟩ := h
    have hr' := hB r' List.mem_cons_self
    obtain ⟨hn, hal, -, -⟩ := hslab.mem_facts hr'
    have hstop := Region.addr_lt_stop hn
    rw [NextOk, ← haddr]
    exact .inr ⟨hslab.valid hr' (le_refl _) (by omega) (by omega), by omega, hok.prev_bit⟩

/-- **The slab walk** counts all free slabs, packed slabs with space and free blocks. -/
theorem checkSlabs_spec (hslab : SlabInv s L bins) (hreg : ∀ r ∈ L, RegionOk False s.mem r) :
    ∀ (B : List Region) (fuel a : Nat) (p : Bool) (c : CheckCounts), (∀ r ∈ B, r ∈ L) →
      (∀ r ∈ B, ¬ Hanging s.mem r) → Tiles s.mem a p B s.heapEnd q → c.lastSlabIsAlloc = p →
      B.length < fuel → wp (checkSlabs fuel a c)
        (fun c' t => t = s ∧ Counted s.mem B c c' ∧ c'.lastSlabIsAlloc = q) s := by
  intro B
  induction B with
  | nil =>
    intro fuel a p c hB hnot htiles hlast hfuel
    obtain ⟨fuel, rfl⟩ := Nat.exists_eq_succ_of_ne_zero (by omega : fuel ≠ 0)
    unfold checkSlabs
    rw [wp_bind, wp_get, wp_ite, if_pos htiles.1]
    exact wp_pure.mpr ⟨rfl, Counted.nil rfl rfl rfl, hlast.trans htiles.2⟩
  | cons r B ih =>
    intro fuel a p c hB hnot htiles hlast hfuel
    rw [List.length_cons] at hfuel
    obtain ⟨fuel, rfl⟩ := Nat.exists_eq_succ_of_ne_zero (by omega : fuel ≠ 0)
    obtain ⟨rfl, hok, hp, htail⟩ := htiles
    have hr := hB r List.mem_cons_self
    have hB' : ∀ r' ∈ B, r' ∈ L := fun r' hr' => hB r' (List.mem_cons_of_mem _ hr')
    have hstop := Region.addr_lt_stop hok.pos
    have hle := htail.le
    have hnext := htail.nextOk hslab hB'
    have hraw : r.kind ≠ .raw := by
      intro hk
      have hr' := hreg r hr
      unfold RegionOk at hr'
      rwa [hk] at hr'
    unfold checkSlabs
    rw [wp_bind, wp_get, wp_ite, if_neg (by omega)]
    refine wp_call (checkSlab_spec hslab hr (hreg r hr) hok hp hnext (hnot r List.mem_cons_self)) ?_
    rintro c₁ t ⟨rfl, hcounted, hlast₁⟩
    rw [wp_bind]
    refine wp_nextAdjSlab hslab hr hraw ?_
    refine wp_mono (ih fuel r.stop r.isAlloc c₁ hB' (fun r' hr' => hnot r' (List.mem_cons_of_mem _ hr'))
      htail hlast₁ (by omega)) ?_
    rintro c₂ t ⟨rfl, hcounted', hlast₂⟩
    exact ⟨rfl, hcounted.append hcounted', hlast₂⟩

/-- The slab walk fails at the first region that hangs. -/
theorem checkSlabs_hanging (hslab : SlabInv s L bins) (hreg : ∀ r ∈ L, RegionOk False s.mem r) :
    ∀ (B : List Region) (fuel a : Nat) (p : Bool) (c : CheckCounts), (∀ r ∈ B, r ∈ L) →
      (∃ r ∈ B, Hanging s.mem r) → Tiles s.mem a p B s.heapEnd q → B.length < fuel →
      checkSlabs fuel a c s = .error .assertion := by
  intro B
  induction B with
  | nil =>
    rintro fuel a p c hB ⟨r, hr, -⟩
    cases hr
  | cons r B ih =>
    intro fuel a p c hB hhang htiles hfuel
    rw [List.length_cons] at hfuel
    obtain ⟨fuel, rfl⟩ := Nat.exists_eq_succ_of_ne_zero (by omega : fuel ≠ 0)
    obtain ⟨rfl, hok, hp, htail⟩ := htiles
    have hr := hB r List.mem_cons_self
    have hB' : ∀ r' ∈ B, r' ∈ L := fun r' hr' => hB r' (List.mem_cons_of_mem _ hr')
    have hstop := Region.addr_lt_stop hok.pos
    have hle := htail.le
    have hnext := htail.nextOk hslab hB'
    have hget : (get : HeapM Heap) s = .ok (s, s) := rfl
    unfold checkSlabs
    rw [bind_of_ok hget, if_neg (by omega)]
    by_cases hhere : Hanging s.mem r
    · exact bind_of_error (checkSlab_hanging hslab hr (hreg r hr) hnext hhere)
    · -- the region passes, and a later one hangs
      have hraw : r.kind ≠ .raw := by
        intro hk
        have hr' := hreg r hr
        unfold RegionOk at hr'
        rwa [hk] at hr'
      obtain ⟨c₁, t, hrun, rfl, -⟩ :=
        wp_iff.mp (checkSlab_spec (c := c) hslab hr (hreg r hr) hok hp hnext hhere)
      have hadj : nextAdjSlab r.addr t = .ok (r.stop, t) :=
        eq_ok_of_wp (wp_nextAdjSlab hslab hr hraw ⟨rfl, rfl⟩)
      rw [bind_of_ok hrun, bind_of_ok hadj]
      refine ih fuel r.stop r.isAlloc c₁ hB' ?_ htail (by omega)
      obtain ⟨r', hr', hhang'⟩ := hhang
      rcases List.mem_cons.mp hr' with rfl | hr'
      · exact absurd hhang' hhere
      · exact ⟨r', hr', hhang'⟩

/-- A tiling has no more regions than slabs. -/
theorem Tiles.length_le {m : Nat → Nat} {e : Nat} (h : Tiles m a p L e q) :
    a + 4096 * L.length ≤ e := by
  induction L generalizing a p with
  | nil => exact h.1.le
  | cons r L ih =>
    obtain ⟨rfl, hok, -, hL⟩ := h
    have hstop := Region.addr_lt_stop hok.pos
    have hrest := ih hL
    calc r.addr + 4096 * (r :: L).length = r.addr + 4096 + 4096 * L.length := by
          rw [List.length_cons, Nat.mul_add, Nat.add_comm (4096 * L.length), Nat.add_assoc]
      _ ≤ r.stop + 4096 * L.length := Nat.add_le_add_right hstop _
      _ ≤ e := hrest

theorem SlabInv.length_lt_walkFuel (hslab : SlabInv s L bins) : L.length < s.walkFuel := by
  have := hslab.tiles.length_le
  unfold Heap.walkFuel
  simp only [slabSize]
  omega

end

end MallocBench.Slab
