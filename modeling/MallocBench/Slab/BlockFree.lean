import MallocBench.Slab.BlockList
import MallocBench.Slab.HeapRuns

/-!
# Freeing medium and large blocks

`medium_bin_free` as an operation on the list of blocks of its region. A block inside the
first slab is freed in the list and merged with its free neighbours (`mediumBinFree_merges`).
A large block, which hangs over the edge of the first slab, also gives back the other slabs
of the region (`free_large_block`). When no allocated block is left, the whole region becomes
part of one free region.
-/

namespace MallocBench.Slab

open Lib

/-- The allocated block from `p` to `e` is block `i` of the region `r`. -/
structure BlockAt (s : Heap) (r : Region) (i p e : Nat) : Prop where
  kind : r.kind = .large
  lt : i < cntAt s.mem r.addr
  used : alAt s.mem r.addr i = true
  start : p = r.addr + offAt s.mem r.addr i
  stop : e = r.addr + blockEnd (offAt s.mem r.addr) r.n (cntAt s.mem r.addr) i

section

variable {s t : Heap} {A B L : List Region} {r : Region} {strict : Prop} {i p e x y size : Nat}
  {live : List (Nat × Nat)} {off : Nat → Nat} {al : Nat → Bool} {k n n' : Nat} {pf nf : Bool}

/-! ## Blocks of large regions -/

theorem BlockAt.isUsed (hb : BlockAt s r i p e) : Used s.mem (A ++ r :: B) p e := by
  refine ⟨r, by simp, ?_⟩
  unfold RegionUsed
  rw [hb.kind]
  exact ⟨_, _, ⟨i, hb.lt, hb.used, rfl, rfl⟩, hb.start, hb.stop⟩

/-- A large block is the last one of a region of several slabs. -/
theorem BlockAt.large (hb : BlockAt s r i p e) (hinv : HeapInv strict s (A ++ r :: B))
    (hlarge : 4096 ≤ e - p) : i + 1 = cntAt s.mem r.addr ∧ 1 < r.n ∧ e = r.stop := by
  obtain ⟨hok, -, -, -, -, -, -, hn⟩ := hinv.large_facts (r := r) (by simp) hb.kind
  have hge := BlocksOk.off_ge hok i
  have hpage := BlocksOk.page' hok (i + 1)
  have hstart := hb.start
  have hstop := hb.stop
  have hlt := hb.lt
  unfold blockEnd at hstop
  split_ifs at hstop with hi
  · omega
  · exact ⟨by omega, by omega, hstop⟩

/-- The slab of a block, and its number of slabs. -/
theorem BlockAt.slab (hb : BlockAt s r i p e) (hinv : HeapInv strict s (A ++ r :: B)) :
    ptrGetSlab p = r.addr ∧ s.mem (ptrGetSlab p + 8) % 2 ^ 56 = r.n := by
  obtain ⟨hlarge, -, -, hsz, -, -, hal, -⟩ := hinv.large_facts (r := r) (by simp) hb.kind
  have hslab := ptrGetSlab_eq hal (BlocksOk.off_ge hlarge i) (BlocksOk.page' hlarge i)
  rw [← hb.start] at hslab
  exact ⟨hslab, by rw [hslab, hsz]⟩

/-- The blocks in front of block `i` have the minimal size. -/
theorem BlockAt.index (hb : BlockAt s r i p e) (hinv : HeapInv strict s (A ++ r :: B)) :
    16 + 512 * i ≤ p - ptrGetSlab p := by
  have hok := (hinv.large_facts (r := r) (by simp) hb.kind).1
  have hstart := hb.start
  have hfirst := BlocksOk.first hok
  rw [(hb.slab hinv).1]
  rcases Nat.eq_zero_or_pos i with rfl | h0
  · omega
  · have := BlocksOk.add_le hok h0 hb.lt
    omega

/-- A block that is not tiny lies in a large region. -/
theorem HeapInv.blockAt (h : HeapInv strict s L) (hu : Used s.mem L p e) (hsize : p + 496 < e) :
    ∃ A r B i, L = A ++ r :: B ∧ BlockAt s r i p e := by
  obtain ⟨r, hr, hu⟩ := hu
  obtain ⟨A, B, rfl⟩ := List.append_of_mem hr
  unfold RegionUsed at hu
  cases hk : r.kind with
  | free =>
    rw [hk] at hu
    exact hu.elim
  | packed =>
    rw [hk] at hu
    have hmem := (h.packed_facts (r := r) (by simp) hk).1.size_mem
    have hfacts := packedSizes_facts hmem
    obtain ⟨j, -, -, rfl, rfl⟩ := packedUsed_iff.mp hu
    omega
  | large =>
    rw [hk] at hu
    obtain ⟨o, o', ⟨i, hi, hal, rfl, rfl⟩, hp, he⟩ := hu
    exact ⟨A, r, B, i, rfl, ⟨hk, hi, hal, hp, he⟩⟩
  | raw =>
    rw [hk] at hu
    exact hu.elim

theorem LiveOk.blockAt (h : LiveOk strict s L live) (hb : (p, size) ∈ live) (hsize : 496 < size) :
    ∃ A r B i e, L = A ++ r :: B ∧ BlockAt s r i p e ∧ p + size ≤ e := by
  obtain ⟨e, hu, hle⟩ := h.block _ hb
  simp only at hu hle
  obtain ⟨A, r, B, i, rfl, hat⟩ := h.inv.blockAt hu (by omega)
  exact ⟨A, r, B, i, e, rfl, hat, hle⟩

/-! ## The region that is given back -/

/-- A stretch of the heap without allocated regions lies in one free region. -/
theorem Tiles.cover_free {m : Nat → Nat} {a b : Nat} {q q' : Bool} (h : Tiles m a q L b q')
    (hx : a ≤ x) (hxy : x < y) (hy : y ≤ b)
    (hno : ∀ r ∈ L, r.kind ≠ .free → r.stop ≤ x ∨ y ≤ r.addr) :
    ∃ f ∈ L, f.kind = .free ∧ f.addr ≤ x ∧ y ≤ f.stop := by
  induction L generalizing a q with
  | nil =>
    have := h.1
    omega
  | cons r L ih =>
    obtain ⟨haddr, hok, -, htail⟩ := h
    rcases Nat.lt_or_ge x r.stop with hlt | hge
    · have hfree : r.kind = .free := by
        by_contra hk
        have := hno r (by simp) hk
        omega
      refine ⟨r, by simp, hfree, by omega, ?_⟩
      by_contra hlt'
      -- the region behind would be allocated
      cases L with
      | nil =>
        have := htail.1
        omega
      | cons r' L =>
        obtain ⟨haddr', hok', hc, -⟩ := htail
        rw [Region.isAlloc_eq_false.mpr hfree, Bool.false_or, Region.isAlloc_eq_true] at hc
        have := hno r' (by simp) hc
        have := Region.addr_lt_stop hok'.pos
        omega
    · obtain ⟨f, hf, hrest⟩ := ih htail hge fun r' hr' => hno r' (List.mem_cons_of_mem _ hr')
      exact ⟨f, List.mem_cons_of_mem _ hf, hrest⟩

/-- A region that has been given back is part of one free region. -/
theorem HeapInv.gone_free {L' : List Region} (hinv : HeapInv strict s (A ++ r :: B))
    (hinv' : HeapInv strict t L') (hsame : SameAlloc (A ++ B) L') (hheap : t.heap = s.heap)
    (hend : t.heapEnd = s.heapEnd) :
    ∃ f ∈ L', f.kind = .free ∧ f.addr ≤ r.addr ∧ r.stop ≤ f.stop := by
  obtain ⟨bins, hslab⟩ := hinv.slab
  obtain ⟨bins', hslab'⟩ := hinv'.slab
  obtain ⟨hn, -, hge, hle, -⟩ := hslab.mem_facts (r := r) (by simp)
  have hlen := Region.addr_lt_stop hn
  exact hslab'.tiles.cover_free (by omega) (by omega) (by omega) fun r₀ hr₀ hk₀ =>
    hslab.addr_ne ((hsame r₀ hk₀).mp hr₀)

/-! ## Freeing a block inside the first slab -/

/-- Where the free space starts when block `i` is freed. -/
def mergedStart (off : Nat → Nat) (al : Nat → Bool) (i : Nat) : Nat :=
  if 0 < i ∧ al (i - 1) = false then off (i - 1) else off i

/-- Where it ends. -/
def mergedEnd (off : Nat → Nat) (al : Nat → Bool) (k i : Nat) : Nat :=
  if i + 1 < k ∧ al (i + 1) = false then off (i + 2) else off (i + 1)

namespace FreeCase

theorem mergedStart_eq (h : FreeCase strict off al n k i pf nf n') :
    mergedStart off al i = off (i - pf.toNat) := by
  unfold mergedStart
  cases pf with
  | false => exact if_neg fun hc => by cases h.prev.mpr hc
  | true => exact if_pos (h.prev.mp rfl)

theorem mergedEnd_eq (h : FreeCase strict off al n k i pf nf n') :
    mergedEnd off al k i = off (i + 1 + nf.toNat) := by
  unfold mergedEnd
  cases nf with
  | false => exact if_neg fun hc => by cases h.next.mpr hc
  | true => exact if_pos (h.next.mp rfl)

/-- The free blocks after merging, in terms of the merged one. -/
theorem merged_freeAt {o o' : Nat} (h : FreeCase strict off al n k i pf nf n') :
    FreeAt (dropAfter off (i - pf.toNat) (pf.toNat + nf.toNat))
        (Function.update (dropAfter al (i - pf.toNat) (pf.toNat + nf.toNat)) (i - pf.toNat) false)
        (k - pf.toNat - nf.toNat) o o' ↔
      (FreeAt off al k o o' ∧ (o' ≤ mergedStart off al i ∨ mergedEnd off al k i ≤ o)) ∨
        (o = mergedStart off al i ∧ o' = mergedEnd off al k i) := by
  have hlt := h.lt
  have hple := h.prev_le
  have hnlt := h.next_lt
  rw [h.merge_freeAt, h.rest, h.mergedStart_eq, h.mergedEnd_eq]
  refine or_congr_left (and_congr_right ?_)
  rintro ⟨j, hj, hfree, rfl, rfl⟩
  rw [← h.ok.lt_iff_off_lt (by omega : i - pf.toNat < k), ← h.ok.lt_iff_off_lt hj]
  have hsize := h.ok.free_size h.pos hj hfree
  constructor
  · rintro (hlt' | hgt)
    · exact .inl (h.ok.off_mono (by omega))
    · exact .inr (h.ok.off_mono (by omega))
  · rintro (hle | hle)
    · refine .inl ?_
      by_contra hge
      have := h.ok.off_mono (i := i - pf.toNat) (j := j) (by omega)
      omega
    · refine .inr ?_
      by_contra hge
      have := h.ok.off_mono (i := j + 1) (j := i + 1 + nf.toNat) (by omega)
      omega

end FreeCase

/-- The free blocks of the heap after a merge in the region `r`. -/
theorem merged_freeBlock {m : Nat → Nat} {bins : Nat → List Nat} (hslab : SlabInv s (A ++ r :: B) bins)
    (hG : BlocksIn (A ++ B) (FreeBlock s.mem (A ++ B))) (hk : r.kind = .large)
    (hkept : ∀ r₀ ∈ A ++ B, r₀.kind ≠ .free → RegionKept s.mem m r₀)
    (hc : FreeCase strict (offAt s.mem r.addr) (alAt s.mem r.addr) r.n (cntAt s.mem r.addr) i pf nf n')
    (hoff : offAt m r.addr = dropAfter (offAt s.mem r.addr) (i - pf.toNat) (pf.toNat + nf.toNat))
    (hal : alAt m r.addr = Function.update (dropAfter (alAt s.mem r.addr) (i - pf.toNat)
      (pf.toNat + nf.toNat)) (i - pf.toNat) false)
    (hcnt : cntAt m r.addr = cntAt s.mem r.addr - pf.toNat - nf.toNat) :
    FreeBlock m (A ++ r :: B) x e ↔ (FreeBlock s.mem (A ++ r :: B) x e ∧
        (e ≤ r.addr + mergedStart (offAt s.mem r.addr) (alAt s.mem r.addr) i ∨
          r.addr + mergedEnd (offAt s.mem r.addr) (alAt s.mem r.addr) (cntAt s.mem r.addr) i ≤ x)) ∨
      (x = r.addr + mergedStart (offAt s.mem r.addr) (alAt s.mem r.addr) i ∧
        e = r.addr + mergedEnd (offAt s.mem r.addr) (alAt s.mem r.addr) (cntAt s.mem r.addr) i) := by
  have hn := Region.addr_lt_stop hc.pos
  have hend : mergedEnd (offAt s.mem r.addr) (alAt s.mem r.addr) (cntAt s.mem r.addr) i ≤ 4096 := by
    rw [hc.mergedEnd_eq]
    exact hc.ok.page' _
  rw [freeBlock_insert hk, freeBlock_insert hk, hoff, hal, hcnt]
  unfold WithFree
  rw [freeBlock_kept hkept]
  constructor
  · rintro (hf | ⟨o, o', hf, rfl, rfl⟩)
    · obtain ⟨r', hr', -, h₁, h₂, h₃⟩ := hG x e hf
      have := hslab.addr_ne hr'
      exact .inl ⟨.inl hf, by omega⟩
    · rcases hc.merged_freeAt.mp hf with ⟨hf, hside⟩ | ⟨rfl, rfl⟩
      · exact .inl ⟨.inr ⟨o, o', hf, rfl, rfl⟩, by omega⟩
      · exact .inr ⟨rfl, rfl⟩
  · rintro (⟨hf | ⟨o, o', hf, rfl, rfl⟩, hside⟩ | ⟨rfl, rfl⟩)
    · exact .inl hf
    · exact .inr ⟨o, o', hc.merged_freeAt.mpr (.inl ⟨hf, by omega⟩), rfl, rfl⟩
    · exact .inr ⟨_, _, hc.merged_freeAt.mpr (.inr ⟨rfl, rfl⟩), rfl, rfl⟩

/-- What freeing block `i` of the region `r` does to the lists of blocks and to the bins. -/
structure FreedInList (strict : Prop) (s : Heap) (A : List Region) (r : Region) (B : List Region)
    (i : Nat) (t : Heap) : Prop where
  /-- the other regions keep their blocks -/
  others : ∀ r₀ ∈ A ++ B, r₀.kind = .large → blocksAt t.mem r₀.addr = blocksAt s.mem r₀.addr
  /-- the block is freed in the list, and the free blocks around it leave their bins for the
  merged one -/
  merged : (∃ j, j ≠ i ∧ alAt s.mem r.addr j = true) → HeapInv strict t (A ++ r :: B) ∧
    blocksAt t.mem r.addr = freeBlock (blocksAt s.mem r.addr) i ∧
    ∀ x e, FreeBlock t.mem (A ++ r :: B) x e ↔ (FreeBlock s.mem (A ++ r :: B) x e ∧
        (e ≤ r.addr + mergedStart (offAt s.mem r.addr) (alAt s.mem r.addr) i ∨
          r.addr + mergedEnd (offAt s.mem r.addr) (alAt s.mem r.addr) (cntAt s.mem r.addr) i ≤ x)) ∨
      (x = r.addr + mergedStart (offAt s.mem r.addr) (alAt s.mem r.addr) i ∧
        e = r.addr + mergedEnd (offAt s.mem r.addr) (alAt s.mem r.addr) (cntAt s.mem r.addr) i)
  /-- the region of the last allocated block is given back -/
  released : (¬ ∃ j, j ≠ i ∧ alAt s.mem r.addr j = true) →
    (∃ u, _intFreeSlab r.addr r.n u = .ok ((), t)) ∧
    ∃ L', HeapInv strict t L' ∧ SameAlloc (A ++ B) L' ∧
      ∃ f ∈ L', f.kind = .free ∧ f.addr ≤ r.addr ∧ r.stop ≤ f.stop

/-- **`medium_bin_free` frees the block in the list**, when the block does not hang over the
edge of the first slab. -/
theorem mediumBinFree_merges (hinv : HeapInv strict s (A ++ r :: B)) (hb : BlockAt s r i p e)
    (hpage : r.n = 1 ∨ i + 1 < cntAt s.mem r.addr) :
    ∃ t, mediumBinFree r.addr i s = .ok ((), t) ∧ FreedInList strict s A r B i t := by
  obtain ⟨hlarge, -, -, -, -, -, -, hn⟩ := hinv.large_facts (r := r) (by simp) hb.kind
  obtain ⟨bins, hslab⟩ := hinv.slab
  have hlast : i + 1 = cntAt s.mem r.addr → r.n = 1 := fun h => hpage.resolve_right (by omega)
  have hbug : HangingBug s.mem r.addr i → ¬ strict := by
    -- a region of one slab has no eighth block
    rintro ⟨rfl, -⟩ -
    have hlt := hb.lt
    have hle := BlocksOk.le hlarge
    have hone := BlocksOk.last_one hlarge (hlast (by omega))
    have hsum := BlocksOk.add_le hlarge (i := 0) (j := 7) (by omega) hlt
    have hge := BlocksOk.off_ge hlarge 0
    rw [show cntAt s.mem r.addr - 1 = 7 by omega] at hone
    omega
  obtain ⟨_, t, heq, ht⟩ := wp_iff.mp (mediumBinFree_spec hinv hb.kind hb.lt hb.used hbug)
  obtain ⟨n', B', pf, nf, hhang, hc, hcases⟩ := ht.blocks
  obtain ⟨rfl, rfl⟩ := hhang.2 fun hlg => by
    have := hlast hlg.2.1
    omega
  refine ⟨t, heq, fun r₀ hr₀ hk₀ =>
    ((ht.kept r₀ hr₀ (by rw [hk₀]; decide)).sameBlocks hk₀).blocksAt_eq, fun hother => ?_,
    fun hnone => ?_⟩
  · rcases hcases with ⟨honly, -⟩ | ⟨-, hinv', -, hleft⟩
    · obtain ⟨j, hne, hj⟩ := hother
      exact absurd (honly j hj) hne
    · have hr : (⟨r.addr, r.n, .large⟩ : Region) = r := by
        rw [← hb.kind]
      rw [hr] at hinv'
      have hsize : offAt s.mem r.addr (i - pf.toNat) + 512 ≤ offAt s.mem r.addr (i + 1 + nf.toNat) := by
        by_contra hsmall
        obtain ⟨rfl, rfl, -, hik, -⟩ := hc.small (by omega)
        have hone := BlocksOk.last_one hlarge (hlast hik)
        have hstop := (BlocksOk.stop hlarge (i + 1) (by omega)).1
        rw [← hik, Nat.add_sub_cancel] at hone
        simp only [Bool.toNat_false, Nat.sub_zero, Nat.add_zero] at hsmall
        omega
      obtain ⟨hoff, hal, hcnt⟩ := hleft.merge hsize
      have hlarge' := (hinv'.large_facts (r := r) (by simp) hb.kind).1
      refine ⟨hinv', ?_, fun x f => merged_freeBlock hslab (blocksIn hslab fun r₀ hr₀ =>
        hinv.regions r₀ (mem_insert_region hr₀)) hb.kind ht.kept hc hoff hal hcnt⟩
      have hno := BlocksOk.noTwoFree hlarge'
      unfold blocksAt
      rw [hoff, hal, hcnt] at hno ⊢
      exact hc.blockList_eq hno
  · rcases hcases with ⟨-, hcall, L', hinv', hsame, -⟩ | ⟨hother, -⟩
    · exact ⟨hcall, L', hinv', hsame, hinv.gone_free hinv' hsame ht.heap ht.heapEnd⟩
    · exact absurd hother hnone

/-- A block of 704 bytes between free blocks of 608 and 512 bytes. -/
theorem mediumBinFree_merges_both : ∃ s t, HeapInv False s [⟨69632, 1, .large⟩] ∧
    blocksAt s.mem 69632 = [(16, false), (624, true), (1328, false), (1840, true), (2352, false)] ∧
    mediumBinFree 69632 1 s = .ok ((), t) ∧ HeapInv False t [⟨69632, 1, .large⟩] ∧
    blocksAt t.mem 69632 = [(16, false), (1840, true), (2352, false)] ∧
    ∀ x e, FreeBlock t.mem [⟨69632, 1, .large⟩] x e ↔
      (FreeBlock s.mem [⟨69632, 1, .large⟩] x e ∧ (e ≤ 69648 ∨ 71472 ≤ x)) ∨
        (x = 69648 ∧ e = 71472) := by
  obtain ⟨s, live, hreach, hcheck⟩ := heapReach_of_runCheck
    [.malloc 600, .malloc 700, .malloc 512, .malloc 512, .free 69648, .free 70960]
    (fun _ s => decide (cntAt s.mem 69632 = 5 ∧ blocksAt s.mem 69632 =
        [(16, false), (624, true), (1328, false), (1840, true), (2352, false)] ∧
      alAt s.mem 69632 1 = true ∧ alAt s.mem 69632 3 = true ∧
      mergedStart (offAt s.mem 69632) (alAt s.mem 69632) 1 = 16 ∧
      mergedEnd (offAt s.mem 69632) (alAt s.mem 69632) (cntAt s.mem 69632) 1 = 1840 ∧
      Tiles s.mem (s.heap + 4096) true [⟨69632, 1, .large⟩] s.heapEnd (s.flags.getLsbD 0)))
    (by decide +kernel)
  obtain ⟨hcnt, hblocks, hal₁, hal₃, hstart, hend, htiles⟩ := of_decide_eq_true hcheck
  obtain ⟨L, hL⟩ := hreach.liveOk
  obtain rfl := hL.inv.eq_of_tiles htiles (by decide)
  have hb : BlockAt s ⟨69632, 1, .large⟩ 1 _ _ := ⟨rfl, by rw [hcnt]; decide, hal₁, rfl, rfl⟩
  obtain ⟨t, heq, hfreed⟩ := mediumBinFree_merges (A := []) (B := []) hL.inv hb (.inl rfl)
  obtain ⟨hinv, hmerged, hfree⟩ := hfreed.merged ⟨3, by decide, hal₃⟩
  rw [hblocks] at hmerged
  rw [hstart, hend] at hfree
  exact ⟨s, t, hL.inv, hblocks, heq, hinv, hmerged, hfree⟩

/-! ## Freeing a large block -/

/-- What freeing the large block `i` of the region `r` does: the first slab becomes a region
of its own, the others become free. The part of the block in the first slab is freed like a
medium block, unless it is too small for one and goes to the allocated block before it. -/
structure FreedLarge (strict : Prop) (s : Heap) (A : List Region) (r : Region) (B : List Region)
    (i : Nat) (t : Heap) : Prop where
  others : ∀ r₀ ∈ A ++ B, r₀.kind = .large → blocksAt t.mem r₀.addr = blocksAt s.mem r₀.addr
  left : (∃ j, j ≠ i ∧ alAt s.mem r.addr j = true) →
    HeapInv strict t (A ++ ⟨r.addr, 1, .large⟩ :: coalesce (r.addr + 4096) (r.n - 1) B) ∧
    blocksAt t.mem r.addr =
      if offAt s.mem r.addr i + 512 ≤ 4096 ∨ alAt s.mem r.addr (i - 1) = false
      then freeBlock (blocksAt s.mem r.addr) i else (blocksAt s.mem r.addr).dropLast
  released : (¬ ∃ j, j ≠ i ∧ alAt s.mem r.addr j = true) →
    ∃ L', HeapInv strict t L' ∧ SameAlloc (A ++ B) L' ∧
      ∃ f ∈ L', f.kind = .free ∧ f.addr ≤ r.addr ∧ r.stop ≤ f.stop

theorem MediumFreed.freedLarge (h : MediumFreed strict s A r B i t)
    (hinv : HeapInv strict s (A ++ r :: B)) (hb : BlockAt s r i p e) (hB : 4096 ≤ e - p)
    (h7 : i = 7 → offAt s.mem r.addr 7 = 4096) : FreedLarge strict s A r B i t := by
  obtain ⟨hlast, hn1, -⟩ := hb.large hinv hB
  obtain ⟨n', B', pf, nf, hhang, hc, hcases⟩ := h.blocks
  obtain ⟨rfl, rfl⟩ := hhang.1 ⟨hn1, hlast, h7⟩
  refine ⟨fun r₀ hr₀ hk₀ =>
    ((h.kept r₀ hr₀ (by rw [hk₀]; decide)).sameBlocks hk₀).blocksAt_eq, fun hother => ?_,
    fun hnone => ?_⟩
  · rcases hcases with ⟨honly, -⟩ | ⟨-, hinv', -, hleft⟩
    · obtain ⟨j, hne, hj⟩ := hother
      exact absurd (honly j hj) hne
    · refine ⟨hinv', ?_⟩
      have hlarge' := (hinv'.large_facts (r := ⟨r.addr, 1, .large⟩) (by simp) rfl).1
      have hno := BlocksOk.noTwoFree hlarge'
      have hstop := (hc.ok.stop (i + 1) (by omega)).1
      have hnf : nf = false := by
        by_contra hne
        have := (hc.next.mp (Bool.eq_true_of_not_eq_false hne)).1
        omega
      subst hnf
      have hprev := hc.prev
      have hpo := hc.prev_off
      have hpage := hc.ok.page' i
      have hfirst := hc.ok.first
      split_ifs with hsize
      · have hmerge : offAt s.mem r.addr (i - pf.toNat) + 512 ≤
            offAt s.mem r.addr (i + 1 + (false).toNat) := by
          simp only [Bool.toNat_false, Nat.add_zero, hstop]
          cases pf with
          | false =>
            simp only [Bool.toNat_false, Nat.sub_zero]
            rcases hsize with hsize | hsize
            · exact hsize
            · rcases Nat.eq_zero_or_pos i with rfl | h0
              · omega
              · cases hprev.mpr ⟨h0, hsize⟩
          | true =>
            have := (hpo rfl).2
            simp only [Bool.toNat_true]
            omega
        obtain ⟨hoff, hal, hcnt⟩ := hleft.merge hmerge
        unfold blocksAt
        simp only at hno
        rw [hoff, hal, hcnt] at hno ⊢
        exact hc.blockList_eq hno
      · rw [not_or] at hsize
        have hpf : pf = false := by
          by_contra hne
          exact hsize.2 (hprev.mp (Bool.eq_true_of_not_eq_false hne)).2
        subst hpf
        obtain ⟨hoff, hal, hcnt⟩ := hleft.absorb (by
          simp only [Bool.toNat_false, Nat.sub_zero, Nat.add_zero]
          omega)
        unfold blocksAt
        rw [hoff, hal, hcnt]
        exact blockList_cutAt hlast
  · rcases hcases with ⟨-, -, L', hinv', hsame, -⟩ | ⟨hother, -⟩
    · exact ⟨L', hinv', hsame, hinv.gone_free hinv' hsame h.heap h.heapEnd⟩
    · exact absurd hother hnone

/-- **Freeing a large block** gives back the slabs after the first, and the first one too
iff no allocated block is left in it. The eighth block of a slab is recognised as a large one
only when it starts at the slab's end. -/
theorem free_large_block (h : HeapReach s live) : ∃ L, LiveOk False s L live ∧
    ∀ A r B i p e, L = A ++ r :: B → BlockAt s r i p e → 4096 ≤ e - p →
      (i = 7 → offAt s.mem r.addr 7 = 4096) →
      ∃ t, free p s = .ok ((), t) ∧ FreedLarge False s A r B i t := by
  obtain ⟨L, hL⟩ := h.liveOk
  refine ⟨L, hL, ?_⟩
  rintro A r B i p e rfl hb hB h7
  obtain ⟨_, t, heq, ht⟩ := wp_iff.mp (wp_free hL.inv hb.isUsed
    (_intFree_large hL.inv hb.kind hb.lt hb.used hb.start fun _ => id))
  exact ⟨t, heq, ht.freedLarge hL.inv hb hB h7⟩

/-- A large block behind an allocated one. -/
theorem free_large_block_second : ∃ s live L, HeapReach s live ∧ (71680, 6144) ∈ live ∧
    LiveOk False s L live ∧ ∃ A r B i e t, BlockAt s r i 71680 e ∧ 4096 ≤ e - 71680 ∧
      free 71680 s = .ok ((), t) ∧ FreedLarge False s A r B i t := by
  obtain ⟨s, live, hreach, hcheck⟩ := heapReach_of_runCheck [.malloc 6144, .malloc 2032]
    (fun live _ => decide ((71680, 6144) ∈ live)) (by decide +kernel)
  have hmem := of_decide_eq_true hcheck
  obtain ⟨L, hL, hfree⟩ := free_large_block hreach
  obtain ⟨A, r, B, i, e, rfl, hb, hle⟩ := hL.blockAt hmem (by decide)
  have hB : 4096 ≤ e - 71680 := by omega
  have hi : 16 + 512 * i ≤ 2048 := hb.index hL.inv
  obtain ⟨t, heq, ht⟩ := hfree A r B i _ e rfl hb hB (by omega)
  exact ⟨s, live, _, hreach, hmem, hL, A, r, B, i, e, t, hb, hB, heq, ht⟩

/-- A large block behind an allocated one: half a slab is left, which is not merged with the
block before it. -/
theorem free_large_block_own : ∃ s live t, HeapReach s live ∧ (71680, 6144) ∈ live ∧
    free 71680 s = .ok ((), t) ∧ blocksAt s.mem 69632 = [(16, true), (2048, true)] ∧
    blocksAt t.mem 69632 = [(16, true), (2048, false)] := by
  obtain ⟨s, live, hreach, hcheck⟩ := heapReach_of_runCheck [.malloc 6144, .malloc 2032]
    (fun live s => decide ((71680, 6144) ∈ live) &&
      match free 71680 s with
      | .ok (_, t) => decide (blocksAt s.mem 69632 = [(16, true), (2048, true)] ∧
          blocksAt t.mem 69632 = [(16, true), (2048, false)])
      | .error _ => false) (by decide +kernel)
  rw [Bool.and_eq_true, decide_eq_true_eq] at hcheck
  obtain ⟨hmem, hcheck⟩ := hcheck
  split at hcheck
  · rename_i t heq
    exact ⟨s, live, t, hreach, hmem, heq, by simpa using hcheck⟩
  · cases hcheck

end

end MallocBench.Slab
