import MallocBench.Slab.Contents

/-!
# Freeing medium and large blocks keeps the invariant

`medium_bin_free` on the whole heap: the check for a large block, the coalescing,
and what they leave of the other regions, put together.
-/

namespace MallocBench.Slab

open Lib

section

variable {s t : Heap} {A B L : List Region} {r : Region} {bins mb : Nat → List Nat}
  {F G : Nat → Nat → Prop} {strict : Prop} {w w₂ n k i x y p : Nat}

/-- The block at `p` has been freed; the heap is as it should be. -/
structure BlockFreed (strict : Prop) (s : Heap) (L : List Region) (p : Nat) (t : Heap) : Prop where
  inv : ∃ L', HeapInv strict t L' ∧ Shrunk (Used s.mem L) (Used t.mem L') p ∧ (Sized L → Sized L')
  contents : BlocksKept s L p t
  heap : t.heap = s.heap
  heapEnd : t.heapEnd = s.heapEnd

/-- The slabs of `r`, and the regions behind them, after the check for a large block: of a
block taken for a large one only the first slab is left. -/
def HangingFreed (large : Prop) (r : Region) (B : List Region) (n' : Nat) (B' : List Region) : Prop :=
  (large → n' = 1 ∧ B' = coalesce (r.addr + 4096) (r.n - 1) B) ∧ (¬ large → n' = r.n ∧ B' = B)

/-- The check for a large block leaves the situation of `FreeCase`. -/
theorem freeHangingSlabs_spec {pf : Bool} (hslab : SlabInv s (A ++ r :: B) bins)
    (hk : r.kind = .large) (hmed : MediumLists s F mb) (hF : BlocksIn (A ++ r :: B) F)
    (hhead : ∀ x e, F x e → r.addr ≤ x → x < r.stop → e ≤ r.addr + 4096)
    (hok : BlocksOk strict (blockOff w) (blockAl w₂) r.n k) (hi : i < k)
    (hal : blockAl w₂ i = true) (h0 : w.testBit 0 = true)
    (hpf : pf = true ↔ 0 < i ∧ blockAl w₂ (i - 1) = false)
    (hbug : i = 7 → blockOff w 7 ≠ 4096 → blockAl w₂ 6 = false → ¬ strict) :
    wp (freeHangingSlabs r.addr i (BitVec.ofNat 64 w)
        (((BitVec.ofNat 8 (fieldOf w₂ 7 1)).setWidth 16 <<< 1) ||| 0x201#16) r.n)
      (fun res t => ∃ r' B', r'.n = res.2 ∧ Opened s A r B F r' B' t ∧
        FreeCase strict (blockOff w) (blockAl w₂) r.n k i pf res.1 res.2 ∧
        HangingFreed (1 < r.n ∧ TakenForLarge (blockOff w) k i) r B res.2 B') s := by
  have hmem : r ∈ A ++ r :: B := by simp
  have hr : r.isAlloc = true := Region.isAlloc_eq_true.mpr (by rw [hk]; decide)
  obtain ⟨hn, -, -, -, p, hrok⟩ := hslab.mem_facts hmem
  have hsz : s.mem (r.addr + 8) % 2 ^ 56 = r.n := by
    have := hrok.2.2.2
    rw [hk] at this
    exact this.2
  have hk8 := hok.le
  have hnext := isNextFree_iff hok hn hi
  -- without a large block, nothing has changed
  have hsame : ¬ (1 < r.n ∧ TakenForLarge (blockOff w) k i) →
      ∃ r' B', r'.n = r.n ∧ Opened s A r B F r' B' s ∧
        FreeCase strict (blockOff w) (blockAl w₂) r.n k i pf
          (!(((BitVec.ofNat 8 (fieldOf w₂ 7 1)).setWidth 16 <<< 1) ||| 0x201#16).getLsbD (i + 2) &&
            byteAt (BitVec.ofNat 64 w) ((i + 1) * 8) != 0) r.n ∧
        HangingFreed (1 < r.n ∧ TakenForLarge (blockOff w) k i) r B r.n B' := by
    intro hnot
    refine ⟨r, B, rfl, Opened.refl hslab hr hmed hsz, ⟨hok, hn, hi, hal, hpf, hnext, .inl rfl, ?_⟩,
      fun h => absurd h hnot, fun _ => ⟨rfl, rfl⟩⟩
    intro hlast hn1
    have hi7 : i = 7 ∧ blockOff w 7 ≠ 4096 := by
      by_contra hcon
      refine hnot ⟨hn1, hlast, fun h7 => ?_⟩
      by_contra hne
      exact hcon ⟨h7, hne⟩
    refine ⟨hi7.1, fun hpt => hbug hi7.1 hi7.2 ?_⟩
    have := (hpf.mp hpt).2
    rwa [hi7.1] at this
  unfold freeHangingSlabs
  dsimp only
  rw [wp_ite]
  by_cases hn1 : r.n = 1
  · rw [if_pos hn1]
    refine wp_pure.mpr (hsame fun hcon => ?_)
    omega
  · rw [if_neg hn1, wp_ite]
    by_cases hlarge : TakenForLarge (blockOff w) k i
    · rw [if_pos ((takenForLarge_iff hok hn hi h0).mpr hlarge)]
      have htail := freeTail_spec hslab hk hmed hF hhead (by omega)
      rw [wp_bind] at htail ⊢
      refine wp_mono htail fun _ u hu => ?_
      rw [wp_bind] at hu ⊢
      refine wp_mono hu fun _ u hu => ?_
      rw [wp_bind]
      refine wp_mono hu fun _ u hu => wp_pure.mpr ?_
      refine ⟨_, _, rfl, hu, ⟨hok, hn, hi, hal, hpf, ?_, .inr ⟨rfl, hlarge.1⟩, fun _ h1 => ?_⟩,
        fun _ => ⟨rfl, rfl⟩, fun h => absurd ⟨by omega, hlarge⟩ h⟩
      · constructor
        · intro hf
          cases hf
        · rintro ⟨hlt, -⟩
          have := hlarge.1
          omega
      · exact absurd h1 (by decide)
    · rw [if_neg (fun hcon => hlarge ((takenForLarge_iff hok hn hi h0).mp hcon))]
      exact wp_pure.mpr (hsame fun hcon => hlarge hcon.2)

/-- The facts about a large region that `medium_bin_free` starts from. -/
theorem HeapInv.large_facts (h : HeapInv strict s L) (hr : r ∈ L) (hk : r.kind = .large) :
    LargeOk strict s.mem r ∧ (s.mem r.addr).testBit 0 = true ∧ (s.mem r.addr).testBit 2 = false ∧
      s.mem (r.addr + 8) % 2 ^ 56 = r.n ∧ s.Valid r.addr ∧ s.Valid (r.addr + 8) ∧
      r.addr % 4096 = 0 ∧ 0 < r.n := by
  obtain ⟨bins, hslab⟩ := h.slab
  obtain ⟨hn, hal, -, -, p, hok⟩ := hslab.mem_facts hr
  have hstop := Region.addr_lt_stop hn
  have hlarge := hok.2.2.2
  rw [hk] at hlarge
  refine ⟨(h.regions r hr).large hk, ?_, hlarge.1, hlarge.2,
    hslab.valid hr (le_refl _) (by omega) (by omega), hslab.valid hr (by omega) (by omega) (by omega),
    hal, hn⟩
  rw [hok.alloc_bit, Region.isAlloc_eq_true]
  rw [hk]
  decide

/-- The free blocks of all regions, with those of one region apart. -/
theorem freeBlock_insert {m : Nat → Nat} (hk : r.kind = .large) {x e : Nat} :
    FreeBlock m (A ++ r :: B) x e ↔ WithFree (FreeBlock m (A ++ B)) r.addr
      (FreeAt (offAt m r.addr) (alAt m r.addr) (cntAt m r.addr)) x e := by
  unfold FreeBlock WithFree
  constructor
  · rintro ⟨r₀, hr₀, hk₀, hf⟩
    simp only [List.mem_append, List.mem_cons] at hr₀
    rcases hr₀ with hr₀ | rfl | hr₀
    · exact .inl ⟨r₀, by simp [hr₀], hk₀, hf⟩
    · exact .inr hf
    · exact .inl ⟨r₀, by simp [hr₀], hk₀, hf⟩
  · rintro (⟨r₀, hr₀, hk₀, hf⟩ | hf)
    · exact ⟨r₀, mem_insert_region hr₀, hk₀, hf⟩
    · exact ⟨r, by simp, hk, hf⟩

theorem used_insert {m : Nat → Nat} {x e : Nat} :
    Used m (A ++ r :: B) x e ↔ Used m (A ++ B) x e ∨ RegionUsed m r x e := by
  unfold Used
  constructor
  · rintro ⟨r₀, hr₀, hu⟩
    simp only [List.mem_append, List.mem_cons] at hr₀
    rcases hr₀ with hr₀ | rfl | hr₀
    · exact .inl ⟨r₀, by simp [hr₀], hu⟩
    · exact .inr hu
    · exact .inl ⟨r₀, by simp [hr₀], hu⟩
  · rintro (⟨r₀, hr₀, hu⟩ | hu)
    · exact ⟨r₀, mem_insert_region hr₀, hu⟩
    · exact ⟨r, by simp, hu⟩

theorem packedFree_insert {m : Nat → Nat} (hk : r.kind ≠ .packed) {x i : Nat} :
    PackedFree m (A ++ r :: B) x i ↔ PackedFree m (A ++ B) x i := by
  unfold PackedFree
  constructor
  · rintro ⟨r₀, hr₀, hk₀, hf⟩
    simp only [List.mem_append, List.mem_cons] at hr₀
    rcases hr₀ with hr₀ | rfl | hr₀
    · exact ⟨r₀, by simp [hr₀], hk₀, hf⟩
    · exact absurd hk₀ hk
    · exact ⟨r₀, by simp [hr₀], hk₀, hf⟩
  · rintro ⟨r₀, hr₀, hk₀, hf⟩
    exact ⟨r₀, mem_insert_region hr₀, hk₀, hf⟩

/-- Blocks of other regions do not start in the region `r`. -/
theorem used_ne (hslab : SlabInv s (A ++ r :: B) bins)
    (hok : ∀ r₀ ∈ A ++ B, RegionOk strict s.mem r₀) (hu : Used s.mem (A ++ B) x y)
    (h₁ : r.addr ≤ p) (h₂ : p < r.stop) : x ≠ p := by
  obtain ⟨r₀, hr₀, hu⟩ := hu
  obtain ⟨hn, hal, -⟩ := hslab.mem_facts (mem_insert_region (r := r) hr₀)
  obtain ⟨hx₁, hx₂, hx₃, -⟩ := hu.bounds (hok r₀ hr₀) hn hal
  have := hslab.addr_ne hr₀
  omega

/-- The blocks are kept when the other regions are and so are the blocks of `r`. -/
theorem RegionsKept.blocksKept (h : RegionsKept s (A ++ B) t) (hinv : HeapInv strict s (A ++ r :: B))
    (hr : ∀ x e, RegionUsed s.mem r x e → x ≠ p → (∀ w, x ≤ w → w < e → t.mem w = s.mem w) ∧
      slabClass t.mem r.addr = slabClass s.mem r.addr) : BlocksKept s (A ++ r :: B) p t := by
  obtain ⟨bins, hslab⟩ := hinv.slab
  constructor
  · intro x e hu hne
    rcases used_insert.mp hu with hu | hu
    · exact h.contents x e hu
    · exact (hr x e hu hne).1
  · intro x e hu hne
    rcases used_insert.mp hu with hu | hu
    · exact h.slab hslab (fun _ => mem_insert_region)
        (fun r₀ hr₀ => hinv.regions r₀ (mem_insert_region hr₀)) hu
    · rw [hu.slab (hinv.regions r (by simp)) (hslab.mem_facts (r := r) (by simp)).2.1]
      exact (hr x e hu hne).2

/-- When a region loses the block at `p`, the heap does. -/
theorem shrunk_region {U V : Nat → Nat → Prop} {m' : Nat → Nat} {L' : List Region} {o₀ : Nat}
    (kept : Prop) (hslab : SlabInv s (A ++ r :: B) bins)
    (hok : ∀ r₀ ∈ A ++ B, RegionOk strict s.mem r₀)
    (hU : ∀ x e, RegionUsed s.mem r x e ↔ ∃ o o', U o o' ∧ x = r.addr + o ∧ e = r.addr + o')
    (hU' : ∀ x e, Used m' L' x e ↔ Used s.mem (A ++ B) x e ∨
      (kept ∧ ∃ o o', V o o' ∧ x = r.addr + o ∧ e = r.addr + o'))
    (h : Shrunk U (fun o e => kept ∧ V o e) o₀) (hlt : r.addr + o₀ < r.stop) :
    Shrunk (Used s.mem (A ++ r :: B)) (Used m' L') (r.addr + o₀) := by
  constructor
  · intro x e hu hne
    rcases used_insert.mp hu with hu | hu
    · exact ⟨e, le_refl _, (hU' x e).mpr (.inl hu)⟩
    · obtain ⟨o, o', huo, rfl, rfl⟩ := (hU x e).mp hu
      obtain ⟨e', hle, hkp, hu'⟩ := h.1 o o' huo (fun heq => hne (by rw [heq]))
      exact ⟨r.addr + e', by omega, (hU' _ _).mpr (.inr ⟨hkp, o, e', hu', rfl, rfl⟩)⟩
  · intro x e' hu
    rcases (hU' x e').mp hu with hu | ⟨hkp, o, o', huo, rfl, rfl⟩
    · exact ⟨used_ne hslab hok hu (by omega) hlt, e', used_insert.mpr (.inl hu)⟩
    · obtain ⟨hne, e, he⟩ := h.2 o o' ⟨hkp, huo⟩
      exact ⟨by omega, r.addr + e, used_insert.mpr (.inr ((hU _ _).mpr ⟨o, e, he, rfl, rfl⟩))⟩

/-- The medium bins hold the free blocks of the region `r` and those of the others. -/
theorem HeapInv.large_lists (hinv : HeapInv strict s (A ++ r :: B)) (hk : r.kind = .large) :
    ∃ mb, MediumLists s (WithFree (FreeBlock s.mem (A ++ B)) r.addr
        (FreeAt (offAt s.mem r.addr) (alAt s.mem r.addr) (cntAt s.mem r.addr))) mb ∧
      BlocksIn (A ++ B) (FreeBlock s.mem (A ++ B)) ∧
      BlocksIn (A ++ r :: B) (WithFree (FreeBlock s.mem (A ++ B)) r.addr
        (FreeAt (offAt s.mem r.addr) (alAt s.mem r.addr) (cntAt s.mem r.addr))) ∧
      ∀ y f, WithFree (FreeBlock s.mem (A ++ B)) r.addr
        (FreeAt (offAt s.mem r.addr) (alAt s.mem r.addr) (cntAt s.mem r.addr)) y f →
        FreeBlock s.mem (A ++ B) y f ∨ (r.addr + 16 ≤ y ∧ y + 512 ≤ f ∧ f ≤ r.addr + 4096) := by
  obtain ⟨hok, -, -, -, -, -, -, hn⟩ := hinv.large_facts (r := r) (by simp) hk
  obtain ⟨bins, hslab⟩ := hinv.slab
  obtain ⟨mb, hmed⟩ := hinv.medium
  have hlen := Region.addr_lt_stop hn
  have hG : BlocksIn (A ++ B) (FreeBlock s.mem (A ++ B)) :=
    blocksIn hslab fun r₀ hr₀ => hinv.regions r₀ (mem_insert_region hr₀)
  have hFin : ∀ y f, WithFree (FreeBlock s.mem (A ++ B)) r.addr
      (FreeAt (offAt s.mem r.addr) (alAt s.mem r.addr) (cntAt s.mem r.addr)) y f →
      FreeBlock s.mem (A ++ B) y f ∨ (r.addr + 16 ≤ y ∧ y + 512 ≤ f ∧ f ≤ r.addr + 4096) := by
    rintro y f (hg | ⟨o, o', hf, rfl, rfl⟩)
    · exact .inl hg
    · have hb := BlocksOk.freeAt_bounds hok hn hf
      exact .inr (by omega)
  refine ⟨mb, hmed.congr (fun x e => (freeBlock_insert hk).symm) rfl (le_refl _) rfl
    fun _ _ => rfl, hG, hG.of_or (Region.isAlloc_eq_true.mpr (by rw [hk]; decide)) fun y f hy => ?_,
    hFin⟩
  rcases hFin y f hy with hy | hy
  · exact .inl hy
  · exact .inr ⟨hy.1, hy.2.1, by omega⟩

/-- The block with index `i` in the region `r` is a large block at the last index
whose offset byte is not zero, behind a free block. -/
def HangingBug (m : Nat → Nat) (a i : Nat) : Prop :=
  i = 7 ∧ offAt m a 7 ≠ 4096 ∧ alAt m a 6 = false

/-- What `medium_bin_free` of the block `i` of `r` has done. `n'` slabs of the region are left,
and `B'` are the regions behind it. -/
structure MediumFreed (strict : Prop) (s : Heap) (A : List Region) (r : Region) (B : List Region)
    (i : Nat) (t : Heap) : Prop where
  kept : ∀ r₀ ∈ A ++ B, r₀.kind ≠ .free → RegionKept s.mem t.mem r₀
  blocks : ∃ n' B' pf nf,
    HangingFreed (1 < r.n ∧ TakenForLarge (offAt s.mem r.addr) (cntAt s.mem r.addr) i) r B n' B' ∧
    FreeCase strict (offAt s.mem r.addr) (alAt s.mem r.addr) r.n (cntAt s.mem r.addr) i pf nf n' ∧
    (((∀ j, alAt s.mem r.addr j = true → j = i) ∧ (∃ u, _intFreeSlab r.addr n' u = .ok ((), t)) ∧
        ∃ L', HeapInv strict t L' ∧ SameAlloc (A ++ B) L' ∧
          ∀ x e, Used t.mem L' x e ↔ Used s.mem (A ++ B) x e) ∨
      ((∃ j, j ≠ i ∧ alAt s.mem r.addr j = true) ∧
        HeapInv strict t (A ++ ⟨r.addr, n', .large⟩ :: B') ∧
        SameAlloc (A ++ B) (A ++ B') ∧
        BlocksLeft (offAt s.mem r.addr) (alAt s.mem r.addr) (cntAt s.mem r.addr) i pf nf
          (offAt t.mem r.addr) (alAt t.mem r.addr) (cntAt t.mem r.addr)))
  contents : BlocksKept s (A ++ r :: B) (r.addr + offAt s.mem r.addr i) t
  heap : t.heap = s.heap
  heapEnd : t.heapEnd = s.heapEnd

/-- A word of a block of the region `r` is no link of a free block. -/
theorem usedAt_not_medWord {off : Nat → Nat} {al : Nat → Bool} {o o' : Nat}
    (hslab : SlabInv s (A ++ r :: B) bins) (hG : BlocksIn (A ++ B) G)
    (hok : BlocksOk strict off al n k) (hn : 0 < n) (hu : UsedAt off al n k o o')
    (h₁ : r.addr + o ≤ w) (h₂ : w < r.addr + o') (h₃ : w < r.stop) :
    ¬ MedWord s.heap (WithFree G r.addr (FreeAt off al k)) w := by
  have hge := (hslab.mem_facts (r := r) (by simp)).2.2.1
  rintro (hpage | ⟨y, f, hg | ⟨p, p', hf, rfl, rfl⟩, hw⟩)
  · omega
  · obtain ⟨r₁, hr₁, -, hy₁, hy₂, hy₃⟩ := hG y f hg
    have := hslab.addr_ne hr₁
    omega
  · have := hok.freeAt_usedAt_disjoint hf hu
    have := hok.freeAt_bounds hn hf
    omega

/-- The other blocks keep their contents when a block of the region `r` is freed. -/
theorem mediumFree_contents {r' : Region} {B' : List Region} {pf nf : Bool} {u : Heap}
    (hinv : HeapInv strict s (A ++ r :: B)) (hk : r.kind = .large)
    (hothers : RegionsKept s (A ++ B) t)
    (hop : Opened s A r B (WithFree (FreeBlock s.mem (A ++ B)) r.addr
      (FreeAt (offAt s.mem r.addr) (alAt s.mem r.addr) (cntAt s.mem r.addr))) r' B' u)
    (hc : FreeCase strict (offAt s.mem r.addr) (alAt s.mem r.addr) r.n (cntAt s.mem r.addr) i pf nf
      r'.n)
    (ht : Coalesced strict u A r' B' (FreeBlock s.mem (A ++ B)) (offAt s.mem r.addr)
      (alAt s.mem r.addr) (cntAt s.mem r.addr) i pf nf t) :
    BlocksKept s (A ++ r :: B) (r.addr + offAt s.mem r.addr i) t := by
  obtain ⟨hok, -, h2, -, -, -, -, hn⟩ := hinv.large_facts (r := r) (by simp) hk
  obtain ⟨bins, hslab⟩ := hinv.slab
  obtain ⟨-, -, hG, -, -⟩ := hinv.large_lists hk
  have hheap := hop.frame.heap
  -- another block of `r` is left, so the region is
  refine hothers.blocksKept hinv fun x e hu hne => ?_
  unfold RegionUsed at hu
  rw [hk] at hu
  obtain ⟨o, o', hu, rfl, rfl⟩ := hu
  have hne' : o ≠ offAt s.mem r.addr i := fun h => hne (by rw [h])
  rcases ht.cases with ⟨honly, -⟩ | ⟨-, bins', mb', hslab', hokt, -, hleft, hmem⟩
  · obtain ⟨j, -, hal, rfl, -⟩ := hu
    exact absurd (by rw [honly j hal]) hne'
  rw [hop.addr] at hokt hleft hmem
  obtain ⟨hpos, -, -, -, p, hrok⟩ := hslab'.mem_facts (r := ⟨r'.addr, r'.n, .large⟩) (by simp)
  obtain ⟨e', hle, hu'⟩ := (hc.shrunk hleft).1 o o' hu hne'
  have hb := BlocksOk.usedAt_bounds hok hn hu
  have hend : e' ≤ 4096 * r'.n := (BlocksOk.usedAt_bounds hokt hpos hu').2.2.2.2
  have hle' : r'.n ≤ r.n := by rcases hc.slabs with h | ⟨h, -⟩ <;> omega
  have h2' : (t.mem r.addr).testBit 2 = false := by
    rw [← hop.addr]
    exact hrok.2.2.2.1
  refine ⟨fun w hw₁ hw₂ => ?_, by unfold slabClass; rw [h2', h2]; rfl⟩
  have hwr : w < r.stop := by
    show w < r.addr + 4096 * r.n
    omega
  refine (hmem w (by omega) (by omega) ?_ ?_).trans (hop.inner w (by omega) (by omega) (by omega))
  · rw [hheap]
    exact usedAt_not_medWord hslab hG hok hn hu hw₁ hw₂ hwr
  · rw [hheap]
    exact usedAt_not_medWord hslab hG hokt hpos hu' hw₁ (by omega) hwr

/-- **`medium_bin_free`** of an allocated block. -/
theorem mediumBinFree_spec (hinv : HeapInv strict s (A ++ r :: B)) (hk : r.kind = .large)
    (hi : i < cntAt s.mem r.addr) (hal : alAt s.mem r.addr i = true)
    (hbug : HangingBug s.mem r.addr i → ¬ strict) :
    wp (mediumBinFree r.addr i) (fun _ t => MediumFreed strict s A r B i t) s := by
  have hmem : r ∈ A ++ r :: B := by simp
  obtain ⟨hlarge, h0, h2, hsz, hv₁, hv₂, halign, hn⟩ := hinv.large_facts hmem hk
  obtain ⟨bins, hslab⟩ := hinv.slab
  obtain ⟨sb, hsmall⟩ := hinv.small
  have hsub : ∀ r₀ ∈ A ++ B, r₀ ∈ A ++ r :: B := fun _ => mem_insert_region
  have hoth : ∀ r₀ ∈ A ++ B, RegionOk strict s.mem r₀ :=
    fun r₀ hr₀ => hinv.regions r₀ (mem_insert_region hr₀)
  have hr : r.isAlloc = true := Region.isAlloc_eq_true.mpr (by rw [hk]; decide)
  have hlen := Region.addr_lt_stop hn
  have hok : BlocksOk strict (blockOff (s.mem r.addr)) (blockAl (s.mem (r.addr + 8))) r.n
    (cntAt s.mem r.addr) := hlarge
  have hk8 := hok.le
  obtain ⟨mb, hmed', hG, hF, hFin⟩ := hinv.large_lists hk
  have hhead : ∀ y f, WithFree (FreeBlock s.mem (A ++ B)) r.addr
      (FreeAt (offAt s.mem r.addr) (alAt s.mem r.addr) (cntAt s.mem r.addr)) y f → r.addr ≤ y →
      y < r.stop → f ≤ r.addr + 4096 := by
    intro y f hy h₁ h₂
    rcases hFin y f hy with hy | hy
    · obtain ⟨r', hr', -, hb₁, hb₂, hb₃⟩ := hG y f hy
      have := hslab.addr_ne hr'
      omega
    · exact hy.2.2
  unfold mediumBinFree
  rw [wp_bind, wp_load64]
  refine ⟨hv₁, ?_⟩
  rw [wp_bind, wp_loadAlloc (by omega)]
  refine ⟨hv₂, ?_⟩
  rw [wp_bind, wp_largeSlabGetSize, hsz]
  refine ⟨hv₂, ?_⟩
  refine wp_call (freeHangingSlabs_spec hslab hk hmed' hF hhead hok hi hal h0
    (isPrevFree_iff hok hi) fun h7 hoff h6 => hbug ⟨h7, hoff, h6⟩) fun res u hu => ?_
  obtain ⟨nf, n'⟩ := res
  obtain ⟨r', B', rfl, hop, hc, hhang⟩ := hu
  obtain ⟨mbu, hmedu⟩ := hop.medium
  obtain ⟨binsu, hslabu⟩ := hop.slab
  have hGu : BlocksIn (A ++ B') (FreeBlock s.mem (A ++ B)) := by
    intro x e hx
    obtain ⟨r₀, hr₀, hk₀, hb⟩ := hG x e hx
    exact ⟨r₀, (hop.same r₀ hk₀).mpr hr₀, hk₀, hb⟩
  have hmedu' : MediumLists u (WithFree (FreeBlock s.mem (A ++ B)) r'.addr
      (FreeAt (blockOff (s.mem r.addr)) (blockAl (s.mem (r.addr + 8))) (cntAt s.mem r.addr))) mbu := by
    rw [hop.addr]
    exact hmedu
  have hco := mediumBinCoalesce_spec hslabu hop.alloc hGu hc hmedu'
    (by rw [hop.addr]; exact hop.header) h2 (by rw [hop.addr]; exact hop.size)
  rw [hop.addr] at hco
  refine wp_mono hco fun _ t ht => ?_
  have huheap := hop.frame.heap
  -- the frame of both parts together
  have hframe : MemFrame (fun x => SlabWord s A r B x ∨
      MedWord s.heap (FreeBlock s.mem (A ++ B)) x) (IsHeader (A ++ r :: B)) s t := by
    refine (hop.frame.mono (fun x hx => .inl (.inl hx)) ?_).trans (ht.frame.weaken ?_ ?_)
    · rintro x ⟨r₀, hr₀, hx⟩
      exact ⟨r₀, by simp [hr₀], hx⟩
    · rintro x (hx | hx)
      · rw [huheap] at hx
        exact .inl (.inl (hop.freeWord x hx))
      · rw [huheap] at hx
        exact .inr hx
    · intro x hx
      rcases hop.isHeader x hx with hx | ⟨r₀, hr₀, hx⟩
      · exact .inl (.inl (.inl hx))
      · exact .inr ⟨r₀, by simp [hr₀], hx⟩
  have hsmall' : SmallLists t (PackedFree s.mem (A ++ B)) sb :=
    smallLists_kept hslab hsub hslab.slabWord_avoids hoth (hsmall.congr (fun x i =>
      (packedFree_insert (by rw [hk]; decide)).symm) rfl (le_refl _) fun _ _ => rfl) hframe
  have hothers : RegionsKept s (A ++ B) t := regionsKept hslab hsub hslab.slabWord_avoids hoth
    (hframe.mono (fun x hx => hx.imp_right .inl) fun _ => id)
  have hkept := hothers.header
  refine ⟨hkept, ⟨r'.n, B', _, nf, hhang, hc, ?_⟩,
    mediumFree_contents hinv hk hothers hop hc ht, hframe.heap, ht.heapEnd.trans hop.heapEnd⟩
  rcases ht.cases with ⟨honly, hcall, L', bins', mb', hslab', hsame, hmedt⟩ |
    ⟨hother, bins', mb', hslab', hokt, hmedt, hleft, -⟩
  · -- the region is gone
    obtain ⟨hinv', hused⟩ := heapInv_out ⟨r.addr, r'.n, .large⟩ False hoth hkept
      hslab' (fun r₀ hk₀ => by rw [hsame r₀ hk₀, hop.same r₀ hk₀]; simp) (by rintro ⟨⟩) False.elim
      (hmedt.congr (fun x e => by simp) rfl (le_refl _) rfl fun _ _ => rfl)
      (hsmall'.congr (fun x e => by simp) rfl (le_refl _) fun _ _ => rfl)
    rw [hop.addr] at hcall
    exact .inl ⟨honly, hcall, L', hinv', fun r₀ hk₀ => (hsame r₀ hk₀).trans (hop.same r₀ hk₀),
      fun x e => by rw [hused]; simp⟩
  · -- the region is kept
    rw [hop.addr] at hslab' hokt hmedt hleft
    obtain ⟨hinv', -⟩ := heapInv_out ⟨r.addr, r'.n, .large⟩ True hoth hkept
      hslab' (fun r₀ hk₀ => by
        rw [true_and, ← hop.same r₀ hk₀]
        simp only [List.mem_append, List.mem_cons]
        tauto) (by rintro ⟨⟩) (fun _ => hokt)
      (hmedt.congr (fun x e => by simp) rfl (le_refl _) rfl fun _ _ => rfl)
      (hsmall'.congr (fun x e => by simp) rfl (le_refl _) fun _ _ => rfl)
    exact .inr ⟨hother, hinv', hop.same, hleft⟩

end

end MallocBench.Slab
