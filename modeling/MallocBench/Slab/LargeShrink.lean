import MallocBench.Slab.Realloc
import MallocBench.Slab.Recut
import MallocBench.Slab.Resize

/-!
# Shrinking a large block

When the new size fits in the part of a large block that lies in the first slab, `realloc`
frees all other slabs of the region and makes the block the last one of a one-slab region.
-/

namespace MallocBench.Slab

open Lib

section

variable {s t : Heap} {A B L : List Region} {r : Region} {strict : Prop} {i p e n size : Nat}
  {live : List (Nat × Nat)}

/-! ## The region gets another number of slabs -/

/-- The region `r`, whose last block starts at `p`, has `n` slabs now. -/
structure LastResized (strict : Prop) (s : Heap) (A : List Region) (r : Region) (B : List Region)
    (i p n : Nat) (B' : List Region) (t : Heap) : Prop where
  inv : HeapInv strict t (A ++ ⟨r.addr, n, .large⟩ :: B')
  block : BlockAt t ⟨r.addr, n, .large⟩ i p (r.addr + 4096 * n)
  used : ∀ x y, Used t.mem (A ++ ⟨r.addr, n, .large⟩ :: B') x y ↔
    (Used s.mem (A ++ r :: B) x y ∧ x ≠ p) ∨ (x = p ∧ y = r.addr + 4096 * n)
  blocks : blocksAt t.mem r.addr = blocksAt s.mem r.addr
  others : ∀ r₀ ∈ A ++ B, r₀.kind = .large → blocksAt t.mem r₀.addr = blocksAt s.mem r₀.addr

/-- A large block is the last one of its region, and changes its size with it. -/
theorem Resized.lastResized {B' : List Region} (h : Resized strict s A r B n B' t)
    (hinv : HeapInv strict s (A ++ r :: B)) (hb : BlockAt s r i p e) (hB : 4096 ≤ e - p)
    (hn : n < 2 ^ 56) (hone : n = 1 → p + 512 ≤ r.addr + 4096) :
    LastResized strict s A r B i p n B' t := by
  obtain ⟨hlast, -, hstop⟩ := hb.large hinv hB
  obtain ⟨hok, -⟩ := hinv.large_facts (r := r) (by simp) hb.kind
  have hok : BlocksOk strict (Slab.offAt s.mem r.addr) (Slab.alAt s.mem r.addr) r.n
    (Slab.cntAt s.mem r.addr) := hok
  obtain ⟨bins, hslab⟩ := hinv.slab
  have hstart := hb.start
  have hi : Slab.cntAt s.mem r.addr - 1 = i := by omega
  obtain ⟨hinv', hused⟩ := h.inv hb.kind hn
    (hok.resize (by rw [hi]; exact hb.used) fun h1 => by rw [hi]; have := hone h1; omega)
  have hoff := h.offAt
  have hal := h.alAt hn
  have hcnt := h.cntAt hn
  have hend : e = r.stop := hstop
  have hin : r.addr + Slab.offAt s.mem r.addr i < r.stop := by omega
  have hiff := fun o o' => hok.resize_usedAt (m := n) (o := o) (e := o') hlast hb.used
  refine ⟨hinv', ⟨rfl, ?_, ?_, ?_, ?_⟩, fun x y => ?_, ?_, fun r₀ hr₀ hk₀ => ?_⟩
  · rw [hcnt]
    exact hb.lt
  · rw [hal, hb.used]
  · rw [hoff, hstart]
  · rw [hoff, hcnt, blockEnd, if_neg (by omega)]
  · rw [hused, used_insert, hstart]
    unfold RegionUsed
    rw [hb.kind]
    constructor
    · rintro (hx | ⟨o, o', ho, rfl, rfl⟩)
      · exact .inl ⟨.inl hx, used_ne hslab (fun r₀ hr₀ => hinv.regions r₀ (mem_insert_region hr₀)) hx
          (by omega) hin⟩
      · rcases (hiff o o').mp ho with ⟨ho, hne⟩ | ⟨rfl, rfl⟩
        · refine .inl ⟨.inr ⟨o, o', ho, rfl, rfl⟩, ?_⟩
          show r.addr + o ≠ _
          omega
        · exact .inr ⟨rfl, rfl⟩
    · rintro (⟨hx | ⟨o, o', ho, rfl, rfl⟩, hne⟩ | ⟨rfl, rfl⟩)
      · exact .inl hx
      · exact .inr ⟨o, o', (hiff o o').mpr (.inl ⟨ho, by omega⟩), rfl, rfl⟩
      · exact .inr ⟨_, _, (hiff _ _).mpr (.inr ⟨rfl, rfl⟩), rfl, rfl⟩
  · unfold blocksAt
    rw [hoff, hal, hcnt]
  · exact ((h.kept r₀ hr₀ (by rw [hk₀]; decide)).sameBlocks hk₀).blocksAt_eq

/-! ## To a medium block -/

/-- The region `r` is cut to its first slab, in which the block `i` at `p` is the last one or
has a free block behind its `n` bytes. -/
structure CutToPage (strict : Prop) (s : Heap) (A : List Region) (r : Region) (B : List Region)
    (i p n : Nat) (t : Heap) : Prop where
  inv : HeapInv strict t (A ++ ⟨r.addr, 1, .large⟩ :: coalesce (r.addr + 4096) (r.n - 1) B)
  /-- the block keeps its index -/
  block : BlockAt t ⟨r.addr, 1, .large⟩ i p
    (if p + n + 512 ≤ r.addr + 4096 then p + n else r.addr + 4096)
  /-- the blocks before it stay, and one free block is appended when there is room for it -/
  blocks : blocksAt t.mem r.addr = blocksAt s.mem r.addr ++
    if p + n + 512 ≤ r.addr + 4096 then [(p + n - r.addr, false)] else []
  used : ∀ x y, Used t.mem (A ++ ⟨r.addr, 1, .large⟩ :: coalesce (r.addr + 4096) (r.n - 1) B) x y ↔
    (Used s.mem (A ++ r :: B) x y ∧ x ≠ p) ∨
      (x = p ∧ y = if p + n + 512 ≤ r.addr + 4096 then p + n else r.addr + 4096)
  free : ∀ x f, FreeBlock t.mem (A ++ ⟨r.addr, 1, .large⟩ :: coalesce (r.addr + 4096) (r.n - 1) B)
    x f ↔ FreeBlock s.mem (A ++ r :: B) x f ∨
      (p + n + 512 ≤ r.addr + 4096 ∧ x = p + n ∧ f = r.addr + 4096)
  others : ∀ r₀ ∈ A ++ B, r₀.kind = .large → blocksAt t.mem r₀.addr = blocksAt s.mem r₀.addr
  contents : ContentsKept s (A ++ r :: B) t
    (A ++ ⟨r.addr, 1, .large⟩ :: coalesce (r.addr + 4096) (r.n - 1) B)
  heapEnd : t.heapEnd = s.heapEnd

/-- `req_slabs_for_size` of the size of a large block is the size of its region. -/
theorem BlockAt.reqSlabs (hb : BlockAt s r i p e) (hinv : HeapInv strict s (A ++ r :: B))
    (hB : 4096 ≤ e - p) (h52 : r.n < 2 ^ 52) (hp : p < r.addr + 4096) :
    reqSlabsForSize (e - p) = r.n := by
  obtain ⟨-, h1, hstop⟩ := hb.large hinv hB
  have h16 := (blockOff_bounds (s.mem r.addr) i).1
  have hstart : p = r.addr + blockOff (s.mem r.addr) i := hb.start
  have hend : e = r.addr + 4096 * r.n := hstop
  rw [reqSlabsForSize_eq (by omega)]
  omega

/-- Appending an offset and linking the block behind it. -/
theorem appendBlock_spec (hinv : HeapInv strict s (A ++ r :: B)) (hb : BlockAt s r i p e)
    (hone : r.n = 1) (hlast : i + 1 = cntAt s.mem r.addr) {o : Nat} (ho : o % 16 = 0)
    (h₁ : offAt s.mem r.addr i + 512 ≤ o) (h₂ : o + 512 ≤ 4096) :
    wp (do
        mediumBinAppendOffset r.addr i o
        mediumBinLink (r.addr + o) (4096 - o))
      (fun _ t => TailSplit strict s A r B i p o t) s := by
  obtain ⟨hok, -, -, -, hv, -, -, -⟩ := hinv.large_facts (r := r) (by simp) hb.kind
  have hok : BlocksOk strict (offAt s.mem r.addr) (alAt s.mem r.addr) r.n (cntAt s.mem r.addr) := hok
  have hnext : offAt s.mem r.addr (i + 1) = 4096 := (hok.stop (i + 1) (by omega)).1
  have hroom := hok.room hb.lt (by omega)
  unfold mediumBinAppendOffset
  simp only [wp_bind, wp_mallocAssume, wp_load64, wp_store64]
  refine ⟨decide_eq_true (by omega), hv, hv, ?_⟩
  -- no block follows, so the alloc bits already are those of the new list
  have hal : Reheaded s (A ++ r :: B) r (offAt s.mem r.addr) (insertAfter (alAt s.mem r.addr) i false)
      s.mem := by
    refine ⟨fun _ => rfl, fun j => ?_, fun _ _ => rfl, rfl, fun _ _ _ _ => rfl⟩
    show alAt s.mem r.addr j = _
    unfold insertAfter
    split_ifs
    · rfl
    · rw [(hok.stop j (by omega)).2]
    · rw [(hok.stop j (by omega)).2, (hok.stop (j - 1) (by omega)).2]
  have hsplit := splitTail_link hinv hb (fun _ => hone) (fun hc => absurd hc (by omega)) ho h₁
    (by rw [hnext]; exact h₂) (hal.word
      (blockOff_appendWord (show i < 7 by omega) ho (by omega) (by omega)
        fun j hj => (hok.stop j (by omega)).1)
      fun j hj => testBit_appendWord_low (by omega) ho (by omega) (by omega))
    fun x hx _ => Function.update_of_ne hx _ _
  rwa [hnext] at hsplit

theorem reallocLargeToMedium_spec (hinv : HeapInv strict s (A ++ r :: B)) (hb : BlockAt s r i p e)
    (hB : 4096 ≤ e - p) (h52 : r.n < 2 ^ 52) (h16 : n % 16 = 0) (h512 : 512 ≤ n)
    (hle : p + n ≤ r.addr + 4096) :
    wp (reallocLargeToMedium r.addr p n i (e - p))
      (fun q t => q = p ∧ CutToPage strict s A r B i p n t) s := by
  obtain ⟨hlast, h1, hstop⟩ := hb.large hinv hB
  have hstart := hb.start
  have hend : e = r.addr + 4096 * r.n := hstop
  have hoff : 16 ≤ offAt s.mem r.addr i ∧ offAt s.mem r.addr i % 16 = 0 :=
    ⟨(blockOff_bounds _ i).1, (blockOff_bounds _ i).2.2⟩
  have hmod : (e - p) % 4096 = 4096 - offAt s.mem r.addr i := by omega
  unfold reallocLargeToMedium
  simp only [slabSize, minMediumBlockSz]
  rw [hmod, hb.reqSlabs hinv hB h52 (by omega),
    show 4096 - (4096 - offAt s.mem r.addr i) = offAt s.mem r.addr i by omega]
  refine wp_trim hinv hb.kind (n := 1) (.inl (by omega)) (by omega) (by omega) (by omega)
    fun u hu hframe hend => ?_
  obtain ⟨hinv', hb', hused, hblocks, hothers⟩ := hu.lastResized hinv hb hB (by decide) fun _ => by omega
  have hcontents := trim_contents hinv hb.kind hinv' hframe
  have hfree := fun x f => hu.freeBlock (x := x) (e := f) hb.kind (by decide)
  have hoffu : offAt u.mem r.addr = offAt s.mem r.addr := hu.offAt
  have hcntu : cntAt u.mem r.addr = cntAt s.mem r.addr := hu.cntAt (by decide)
  rw [wp_ite]
  by_cases hrest : p + n + 512 ≤ r.addr + 4096
  · -- the rest of the slab becomes a free block
    rw [if_pos (by omega), ← bind_assoc]
    have ho : r.addr + (offAt s.mem r.addr i + n) = p + n := by omega
    refine wp_call (appendBlock_spec hinv' hb' rfl ?_ (o := offAt s.mem r.addr i + n) (by omega) ?_
      (by omega)) fun _ t ht => wp_pure.mpr ⟨rfl, ht.recut.inv, ?_, ?_, fun x y => ?_, fun x f => ?_,
        fun r₀ hr₀ hk₀ => ?_, hcontents.trans (ht.recut.contents hinv' rfl) fun y f =>
          ht.sub hb' (by
            show r.addr + _ ≤ _
            omega), ht.recut.heapEnd.trans hend⟩
    · rw [hcntu, hlast]
    · rw [hoffu]
      omega
    · rw [if_pos hrest, ← ho]
      exact ht.block
    · rw [if_pos hrest, ← hblocks, ← ho, Nat.add_sub_cancel_left]
      exact ht.recut.blocks.trans (blockList_append (by rw [hcntu, hlast]))
    · rw [ht.used, hused, if_pos hrest, ← ho]
      tauto
    · have hlast' : offAt u.mem r.addr (i + 1) = 4096 := by
        have hok' := (hinv'.large_facts (r := ⟨r.addr, 1, .large⟩) (by simp) rfl).1
        exact (BlocksOk.stop hok' (i + 1) (by
          show cntAt u.mem r.addr ≤ _
          omega)).1
      rw [ht.free, hfree, hlast', ho]
      exact or_congr_right ⟨fun hx => ⟨hrest, hx⟩, And.right⟩
    · have hr₁ := (sameAlloc_coalesce (A := A) (B := B) (y := r.addr + 4096) (n := r.n - 1) r₀
        (by rw [hk₀]; decide)).mpr hr₀
      exact (ht.recut.others_blocks r₀ hr₁ hk₀).trans (hothers r₀ hr₀ hk₀)
  · -- too little is left: it stays part of the block
    rw [if_neg (by omega), wp_pure]
    refine ⟨rfl, hinv', ?_, ?_, fun x y => ?_, fun x f => ?_, hothers, hcontents, hend⟩
    · rw [if_neg hrest]
      exact hb'
    · rw [if_neg hrest, List.append_nil, hblocks]
    · rw [hused, if_neg hrest, Nat.mul_one]
    · rw [hfree]
      exact ⟨.inl, fun hc => hc.resolve_right fun hc => hrest hc.1⟩

/-- The size that `realloc` works with. -/
theorem realloc_block (h : LiveOk strict s (A ++ r :: B) live) (hb : BlockAt s r i p e)
    (hsize : NoWrap size) (h0 : 0 < size) :
    realloc p size s = _intRealloc p ((size + 15) / 16 * 16) s := by
  have hbounds := h.inv.used_bounds hb.isUsed
  rw [realloc_eq h.heap_pos (by omega) (by rw [alignUp_size hsize]; omega), alignUp_size hsize]

/-- **Shrinking a large block into its first slab.** -/
theorem realloc_large_to_medium (h : HeapReach s live) : ∃ L, LiveOk False s L live ∧
    ∀ A r B i p e size, L = A ++ r :: B → BlockAt s r i p e → 4096 ≤ e - p → 512 ≤ size →
      p + size ≤ r.addr + 4096 →
      ∃ t, realloc p size s = .ok (p, t) ∧
        CutToPage False s A r B i p ((size + 15) / 16 * 16) t ∧
        ∀ w, p ≤ w → w < p + size → t.mem w = s.mem w := by
  obtain ⟨L, hL⟩ := h.liveOk
  refine ⟨L, hL, ?_⟩
  rintro A r B i p e size rfl hb hB h512 hle
  obtain ⟨-, -, hstop⟩ := hb.large hL.inv hB
  obtain ⟨-, -, -, -, -, -, hal, -⟩ := hL.inv.large_facts (r := r) (by simp) hb.kind
  have h52 : r.n < 2 ^ 52 := hL.sized r (by simp) hb.kind
  have hstart := hb.start
  have hend : e = r.addr + 4096 * r.n := hstop
  have hoff : 16 ≤ offAt s.mem r.addr i ∧ offAt s.mem r.addr i % 16 = 0 :=
    ⟨(blockOff_bounds _ i).1, (blockOff_bounds _ i).2.2⟩
  have hmod : (e - p) % 4096 = 4096 - offAt s.mem r.addr i := by omega
  obtain ⟨q, t, heq, rfl, ht⟩ := wp_iff.mp (reallocLargeToMedium_spec hL.inv hb hB h52
    (n := (size + 15) / 16 * 16) (by omega) (by omega) (by omega))
  refine ⟨t, ?_, ht, fun w h₁ h₂ => ?_⟩
  · rw [realloc_block hL hb (by unfold NoWrap; omega) (by omega), _intRealloc_eq hL.inv hb,
      if_neg (by simp only [minMediumBlockSz]; omega), if_pos hB, if_neg (by omega)]
    unfold reallocLargeShrink
    rw [hmod, if_pos (by omega)]
    exact heq
  · refine ht.contents _ _ _ _ hb.isUsed ht.block.isUsed w h₁ (by omega) h₁ ?_
    split_ifs <;> omega

/-- A block of 6144 bytes, half a slab of which is in the first slab, is cut to 1000 bytes. -/
theorem realloc_large_to_medium_first : ∃ s live L, HeapReach s live ∧ (71680, 6144) ∈ live ∧
    LiveOk False s L live ∧ ∃ A r B i e, L = A ++ r :: B ∧ BlockAt s r i 71680 e ∧
      4096 ≤ e - 71680 ∧ 71680 + 1000 ≤ r.addr + 4096 ∧
      ∃ t, realloc 71680 1000 s = .ok (71680, t) ∧ CutToPage False s A r B i 71680 1008 t ∧
        ∀ w, 71680 ≤ w → w < 71680 + 1000 → t.mem w = s.mem w := by
  obtain ⟨s, live, hreach, hcheck⟩ := heapReach_of_runCheck [.malloc 6144]
    (fun live _ => decide ((71680, 6144) ∈ live)) (by decide +kernel)
  have hmem := of_decide_eq_true hcheck
  obtain ⟨L, hL, hcut⟩ := realloc_large_to_medium hreach
  obtain ⟨A, r, B, i, e, rfl, hb, hle⟩ := hL.blockAt hmem (by decide)
  have hB : 4096 ≤ e - 71680 := by omega
  have haddr : r.addr = 69632 := (hb.slab hL.inv).1.symm.trans (by decide)
  have hpage : 71680 + 1000 ≤ r.addr + 4096 := by omega
  exact ⟨s, live, _, hreach, hmem, hL, A, r, B, i, e, rfl, hb, hB, hpage,
    hcut A r B i _ e 1000 rfl hb hB (by decide) hpage⟩

end

end MallocBench.Slab
