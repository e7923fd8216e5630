import MallocBench.Slab.LargeShrink

/-!
# Resizing a medium block

`realloc` of a block below 4096 bytes works on the two packed vectors of its slab: a free
block behind it is moved or absorbed, and what is cut off becomes a free block. Each case
moves the end of the block (`EndMoved`) and leaves everything else in order.

A next block is told by its offset byte and its alloc bit. When the block is shrunk, the code
compares the byte with the slab size, which it never is, so that the header itself is taken
for the next block of the last one.
-/

namespace MallocBench.Slab

open Lib

section

variable {s t : Heap} {A B L : List Region} {r : Region} {strict : Prop} {i p e k v x y z size : Nat}
  {off : Nat → Nat} {al : Nat → Bool} {live : List (Nat × Nat)}

/-- The block `i` of `r` at `p`, which ended at `e`, ends at `v`, and from there to `z` there is
one free block, if there is anything. The blocks of `r` are now `l`. -/
structure EndMoved (strict : Prop) (s : Heap) (A : List Region) (r : Region) (B : List Region)
    (i p e v z : Nat) (l : List (Nat × Bool)) (t : Heap) : Prop where
  inv : HeapInv strict t (A ++ r :: B)
  block : BlockAt t r i p v
  blocks : blocksAt t.mem r.addr = l
  used : ∀ x y, Used t.mem (A ++ r :: B) x y ↔
    (Used s.mem (A ++ r :: B) x y ∧ x ≠ p) ∨ (x = p ∧ y = v)
  /-- with `inv`, also what the medium bins contain -/
  free : ∀ x y, FreeBlock t.mem (A ++ r :: B) x y ↔
    (FreeBlock s.mem (A ++ r :: B) x y ∧ x ≠ e) ∨ (v < z ∧ x = v ∧ y = z)
  others : ∀ r₀ ∈ A ++ B, r₀.kind = .large → blocksAt t.mem r₀.addr = blocksAt s.mem r₀.addr
  contents : ContentsKept s (A ++ r :: B) t (A ++ r :: B)
  state : ∃ m sk, t = { s with mem := m, medSkiplist := sk }
  /-- only the header of `r`, the medium bins and the links of free blocks are written -/
  mem : ∀ x, x ≠ r.addr → x ≠ r.addr + 8 → ¬ MedWord s.heap (FreeBlock s.mem (A ++ r :: B)) x →
    ¬ MedWord s.heap (FreeBlock t.mem (A ++ r :: B)) x → t.mem x = s.mem x

/-! ## The block behind -/

/-- A block below 4096 bytes is followed by another one or by the end of a one-slab region. -/
theorem BlockAt.stop_eq (hb : BlockAt s r i p e) (hinv : HeapInv strict s (A ++ r :: B))
    (hB : e - p < 4096) : e = r.addr + offAt s.mem r.addr (i + 1) ∧
      (i + 1 < cntAt s.mem r.addr ∨ i + 1 = cntAt s.mem r.addr ∧ r.n = 1) := by
  obtain ⟨hok, -, -, -, -, -, -, hn⟩ := hinv.large_facts (r := r) (by simp) hb.kind
  have hok : BlocksOk strict (offAt s.mem r.addr) (alAt s.mem r.addr) r.n (cntAt s.mem r.addr) := hok
  have hstart := hb.start
  have hstop := hb.stop
  have hlt := hb.lt
  have hpage := hok.page' i
  unfold blockEnd at hstop
  by_cases hi : i + 1 < cntAt s.mem r.addr
  · rw [if_pos hi] at hstop
    exact ⟨hstop, .inl hi⟩
  · rw [if_neg hi] at hstop
    have h1 : r.n = 1 := by omega
    refine ⟨?_, .inr ⟨by omega, h1⟩⟩
    rw [hstop, h1, (hok.stop (i + 1) (by omega)).1]

/-- No free block starts where an allocated one does. -/
theorem HeapInv.free_ne_used (hinv : HeapInv strict s L) (hu : Used s.mem L p e)
    (hf : FreeBlock s.mem L x y) : x ≠ p := by
  have hdisj := hinv.used_freeBlock_disjoint hu hf
  have hsize := hinv.free_size hf
  have hbounds := hinv.used_bounds hu
  omega

/-- The block behind, when it is allocated. -/
theorem BlockAt.next_used (hb : BlockAt s r i p e) (hinv : HeapInv strict s (A ++ r :: B))
    (hB : e - p < 4096) (hi : i + 1 < cntAt s.mem r.addr) (hal : alAt s.mem r.addr (i + 1) = true) :
    ∃ f, Used s.mem (A ++ r :: B) e f := by
  obtain ⟨heq, -⟩ := hb.stop_eq hinv hB
  exact ⟨_, BlockAt.isUsed ⟨hb.kind, hi, hal, heq, rfl⟩⟩

/-- The new header and the new bins, put together. -/
theorem endMoved_of_recut (h : Recut strict s A r B off al k t) (hinv : HeapInv strict s (A ++ r :: B))
    (hb : BlockAt s r i p e) (he : e = r.addr + offAt s.mem r.addr (i + 1))
    (hnext : offAt s.mem r.addr (i + 1) < 4096) (hi : i < k) (hal : al i = true)
    (hoff : off i = offAt s.mem r.addr i) (hend : blockEnd off r.n k i = v)
    (hu : ∀ x y, UsedAt off al r.n k x y ↔ (UsedAt (offAt s.mem r.addr) (alAt s.mem r.addr) r.n
      (cntAt s.mem r.addr) x y ∧ x ≠ offAt s.mem r.addr i) ∨ (x = offAt s.mem r.addr i ∧ y = v))
    (hf : ∀ x y, FreeAt off al k x y ↔ (FreeAt (offAt s.mem r.addr) (alAt s.mem r.addr)
      (cntAt s.mem r.addr) x y ∧ x ≠ offAt s.mem r.addr (i + 1)) ∨ (v < z ∧ x = v ∧ y = z)) :
    EndMoved strict s A r B i p e (r.addr + v) (r.addr + z) (blockList off al k) t := by
  obtain ⟨-, -, -, -, -, -, -, hn⟩ := hinv.large_facts (r := r) (by simp) hb.kind
  have hlen := Region.addr_lt_stop hn
  have hpage := (blockOff_bounds (s.mem r.addr) i).2.1
  have hstart := hb.start
  have hbounds := hinv.used_bounds (hb.isUsed (A := A) (B := B))
  have hlt : offAt s.mem r.addr i < 4096 := by omega
  refine ⟨h.inv, h.blockAt hb.kind hi hal (by rw [hoff, hstart]) (by rw [hend]), h.blocks,
    fun x y => ?_, fun x y => ?_, h.others_blocks, h.contents hinv hb.kind, h.state, h.mem⟩
  · rw [hstart]
    exact h.used_iff hinv hb.kind (by omega) hu
  · rw [h.free_iff hinv hb.kind (by omega) hf, he]
    refine or_congr_right ⟨?_, fun ⟨hlt, hx, hy⟩ => ⟨v, z, ⟨by omega, rfl, rfl⟩, hx, hy⟩⟩
    rintro ⟨y, w, ⟨hlt, rfl, rfl⟩, rfl, rfl⟩
    exact ⟨by omega, rfl, rfl⟩

/-! ## What happens to the free block behind -/

/-- The header of `r` after the start of the block `i + 1` has been moved to `v`. -/
theorem Reheaded.moveNext {m : Nat → Nat} (h : Reheaded s L r off al m) (hi : i < 7)
    (hv : 16 ≤ v ∧ v < 4096 ∧ v % 16 = 0) :
    Reheaded s L r (Function.update off (i + 1) v) al
      (Function.update m r.addr (putField (m r.addr) (1 + i) 1 (v / 16))) := by
  refine h.word (fun j => ?_) fun j hj => ?_
  · rw [blockOff_putField hi hv, show blockOff (m r.addr) = off from funext h.off]
  · rw [testBit_putField_low (by omega), h.flags j hj]

section

variable {n : Nat}

/-- What is known of a free block behind the block `i`. -/
theorem BlockAt.free_next (hb : BlockAt s r i p e) (hinv : HeapInv strict s (A ++ r :: B))
    (hi : i + 1 < cntAt s.mem r.addr) (hnext : alAt s.mem r.addr (i + 1) = false) :
    i < 7 ∧ e = r.addr + offAt s.mem r.addr (i + 1) ∧
      offAt s.mem r.addr (i + 1) + 512 ≤ offAt s.mem r.addr (i + 2) ∧
      offAt s.mem r.addr (i + 2) ≤ 4096 ∧
      FreeAt (offAt s.mem r.addr) (alAt s.mem r.addr) (cntAt s.mem r.addr)
        (offAt s.mem r.addr (i + 1)) (offAt s.mem r.addr (i + 2)) := by
  obtain ⟨hok, -, -, -, -, -, -, hn⟩ := hinv.large_facts (r := r) (by simp) hb.kind
  have hok : BlocksOk strict (offAt s.mem r.addr) (alAt s.mem r.addr) r.n (cntAt s.mem r.addr) := hok
  have hk := hok.le
  have hstop := hb.stop
  rw [blockEnd, if_pos hi] at hstop
  exact ⟨by omega, hstop, hok.free_size hn hi hnext, hok.page' _, i + 1, hi, hnext, rfl, rfl⟩

/-- The header and the bins when the free block behind has been unlinked. -/
theorem unlinkNext_spec {m : Nat → Nat} (hinv : HeapInv strict s (A ++ r :: B))
    (hb : BlockAt s r i p e) (hi : i + 1 < cntAt s.mem r.addr)
    (hnext : alAt s.mem r.addr (i + 1) = false) (h : Reheaded s (A ++ r :: B) r off al m)
    (hm : ∀ x, x ≠ r.addr → x ≠ r.addr + 8 → m x = s.mem x) :
    wp (mediumBinUnlink (r.addr + offAt s.mem r.addr (i + 1))) (fun _ t => ∃ m' mb,
      t = { s with mem := m' } ∧ Reheaded s (A ++ r :: B) r off al m' ∧
      MediumLists { s with mem := m' } (WithFree (FreeBlock s.mem (A ++ B)) r.addr fun y f =>
        FreeAt (offAt s.mem r.addr) (alAt s.mem r.addr) (cntAt s.mem r.addr) y f ∧
          y ≠ offAt s.mem r.addr (i + 1)) mb) { s with mem := m } := by
  obtain ⟨-, -, -, -, -, -, -, hn⟩ := hinv.large_facts (r := r) (by simp) hb.kind
  obtain ⟨bins, hslab⟩ := hinv.slab
  obtain ⟨-, -, hG, -, -⟩ := hinv.large_lists hb.kind
  obtain ⟨-, -, hsize, hpage, hfree⟩ := hb.free_next hinv hi hnext
  have hlen := Region.addr_lt_stop hn
  obtain ⟨mb, hlists⟩ := hinv.lists_of_header hb.kind hm
  refine wp_mono (unlinkIn_spec hlists hfree fun y f hy => freeBlock_ne hslab hG hy (by omega)
    (by omega)) fun _ t ⟨m', mb', heq, hmed, hm'⟩ => ⟨m', mb', heq, ?_, hmed⟩
  exact h.links hinv hb.kind fun x hx => hm' x fun hc => hx
    (hc.mono fun y f => (freeBlock_insert hb.kind).mpr)

/-- Linking the free block behind at its new start, after the header has been written. -/
theorem linkMoved_spec {m : Nat → Nat} {mb : Nat → List Nat} (hinv : HeapInv strict s (A ++ r :: B))
    (hb : BlockAt s r i p e) (hi : i + 1 < cntAt s.mem r.addr)
    (hnext : alAt s.mem r.addr (i + 1) = false) (hv : v % 16 = 0)
    (h₁ : offAt s.mem r.addr i + 512 ≤ v) (h₂ : v + 512 ≤ offAt s.mem r.addr (i + 2))
    (h : Reheaded s (A ++ r :: B) r (Function.update (offAt s.mem r.addr) (i + 1) v)
      (alAt s.mem r.addr) m)
    (hmed : MediumLists { s with mem := m } (WithFree (FreeBlock s.mem (A ++ B)) r.addr fun y f =>
      FreeAt (offAt s.mem r.addr) (alAt s.mem r.addr) (cntAt s.mem r.addr) y f ∧
        y ≠ offAt s.mem r.addr (i + 1)) mb) :
    wp (mediumBinLink (r.addr + v) (offAt s.mem r.addr (i + 2) - v)) (fun _ t =>
      EndMoved strict s A r B i p e (r.addr + v) (r.addr + offAt s.mem r.addr (i + 2))
        ((blocksAt s.mem r.addr).set (i + 1) (v, false)) t) { s with mem := m } := by
  obtain ⟨hok, -, -, -, -, -, -, hn⟩ := hinv.large_facts (r := r) (by simp) hb.kind
  have hok : BlocksOk strict (offAt s.mem r.addr) (alAt s.mem r.addr) r.n (cntAt s.mem r.addr) := hok
  obtain ⟨-, he, hsize, hpage, -⟩ := hb.free_next hinv hi hnext
  have hfreeAt := fun y f => hok.moveNext_freeAt (o := y) (e := f) (v := v) hi hb.used hnext
  refine wp_mono (h.link_spec hinv hb.kind (hok.moveNext hi hv h₁ h₂) hmed hfreeAt ?_) fun _ t ht => ?_
  · -- no free block starts at `v`: it lies in the block `i` or in the block behind
    rintro f ⟨⟨j, hj, hfree, hoff, -⟩, hne⟩
    have hjne : j ≠ i := by
      rintro rfl
      rw [hb.used] at hfree
      cases hfree
    have hjne' : j ≠ i + 1 := by
      rintro rfl
      exact hne hoff.symm
    rcases Nat.lt_or_ge j i with hlt | hge
    · have := hok.off_lt hlt hb.lt
      omega
    · have := hok.off_mono (i := i + 2) (j := j) (by omega)
      omega
  · have hset : blockList (Function.update (offAt s.mem r.addr) (i + 1) v) (alAt s.mem r.addr)
        (cntAt s.mem r.addr) = _ := blockList_moveNext
    rw [hnext] at hset
    rw [show blocksAt s.mem r.addr = blockList _ _ _ from rfl, ← hset]
    refine endMoved_of_recut ht hinv hb he (by omega) hb.lt hb.used (Function.update_of_ne (by omega) _ _)
      ?_ (fun y f => hok.moveNext_usedAt hi hb.used hnext) fun y f => (hfreeAt y f).trans
        (or_congr_right ⟨fun hc => ⟨by omega, hc⟩, And.right⟩)
    rw [blockEnd, if_pos hi, Function.update_self]

/-- The header is written first, as when the block is shrunk. -/
theorem moveNext_spec (hinv : HeapInv strict s (A ++ r :: B)) (hb : BlockAt s r i p e)
    (hi : i + 1 < cntAt s.mem r.addr) (hnext : alAt s.mem r.addr (i + 1) = false) (hv : v % 16 = 0)
    (h₁ : offAt s.mem r.addr i + 512 ≤ v) (h₂ : v + 512 ≤ offAt s.mem r.addr (i + 2)) :
    wp (do
        store8 (r.addr + 1 + i) (v / 16)
        mediumBinUnlink (r.addr + offAt s.mem r.addr (i + 1))
        mediumBinLink (r.addr + v) (offAt s.mem r.addr (i + 2) - v)
        pure p)
      (fun q t => q = p ∧ EndMoved strict s A r B i p e (r.addr + v)
        (r.addr + offAt s.mem r.addr (i + 2)) ((blocksAt s.mem r.addr).set (i + 1) (v, false)) t) s := by
  obtain ⟨-, -, -, -, hv', -, hal, -⟩ := hinv.large_facts (r := r) (by simp) hb.kind
  obtain ⟨hi7, -, -, hpage, -⟩ := hb.free_next hinv hi hnext
  rw [show r.addr + 1 + i = r.addr + (1 + i) by omega, wp_bind, wp_storeField (by omega) (by omega)]
  refine ⟨hv', ?_⟩
  refine wp_call (unlinkNext_spec hinv hb hi hnext (Reheaded.self.moveNext hi7 ⟨by omega, by omega, hv⟩)
    fun x hx _ => Function.update_of_ne hx _ _) ?_
  rintro _ _ ⟨m', mb, rfl, hre, hmed⟩
  exact wp_call (linkMoved_spec hinv hb hi hnext hv h₁ h₂ hre hmed) fun _ t ht => wp_pure.mpr ⟨rfl, ht⟩

/-- The block is unlinked first, as when the block in front grows. -/
theorem moveNext_spec' (hinv : HeapInv strict s (A ++ r :: B)) (hb : BlockAt s r i p e)
    (hi : i + 1 < cntAt s.mem r.addr) (hnext : alAt s.mem r.addr (i + 1) = false) (hv : v % 16 = 0)
    (h₁ : offAt s.mem r.addr i + 512 ≤ v) (h₂ : v + 512 ≤ offAt s.mem r.addr (i + 2)) :
    wp (do
        mediumBinUnlink (r.addr + offAt s.mem r.addr (i + 1))
        store8 (r.addr + 1 + i) (v / 16)
        mediumBinLink (r.addr + v) (offAt s.mem r.addr (i + 2) - v)
        pure p)
      (fun q t => q = p ∧ EndMoved strict s A r B i p e (r.addr + v)
        (r.addr + offAt s.mem r.addr (i + 2)) ((blocksAt s.mem r.addr).set (i + 1) (v, false)) t) s := by
  obtain ⟨hok, -, -, -, hv', -, hal, hn⟩ := hinv.large_facts (r := r) (by simp) hb.kind
  obtain ⟨hi7, -, -, hpage, -⟩ := hb.free_next hinv hi hnext
  refine wp_call (unlinkNext_spec hinv hb hi hnext Reheaded.self fun x _ _ => rfl) ?_
  rintro _ _ ⟨m', mb, rfl, hre, hmed⟩
  rw [show r.addr + 1 + i = r.addr + (1 + i) by omega, wp_bind, wp_storeField (by omega) (by omega)]
  refine ⟨hv', ?_⟩
  refine wp_call (linkMoved_spec hinv hb hi hnext hv h₁ h₂ (hre.moveNext hi7 ⟨by omega, by omega, hv⟩)
    (hinv.lists_header hb.kind (fun o o' hf => ?_) hmed fun x hx _ => Function.update_of_ne hx _ _))
    fun _ t ht => wp_pure.mpr ⟨rfl, ht⟩
  have := BlocksOk.freeAt_bounds hok hn hf.1
  omega

/-- The free block behind is absorbed: the block ends where the next one starts, or with the
region. -/
theorem absorbNext_spec (hinv : HeapInv strict s (A ++ r :: B)) (hb : BlockAt s r i p e)
    (hi : i + 1 < cntAt s.mem r.addr) (hnext : alAt s.mem r.addr (i + 1) = false)
    (hv : blockEnd (offAt s.mem r.addr) r.n (cntAt s.mem r.addr) (i + 1) = v) :
    wp (do
        mediumBinUnlink (r.addr + offAt s.mem r.addr (i + 1))
        mediumBinRemoveOffset r.addr i
        pure p)
      (fun q t => q = p ∧ EndMoved strict s A r B i p e (r.addr + v) (r.addr + v)
        ((blocksAt s.mem r.addr).eraseIdx (i + 1)) t) s := by
  obtain ⟨hok, -, -, -, hv₁, hv₂, hal, hn⟩ := hinv.large_facts (r := r) (by simp) hb.kind
  have hok : BlocksOk strict (offAt s.mem r.addr) (alAt s.mem r.addr) r.n (cntAt s.mem r.addr) := hok
  obtain ⟨hi7, he, hsize, hpage, -⟩ := hb.free_next hinv hi hnext
  refine wp_call (unlinkNext_spec hinv hb hi hnext Reheaded.self fun x _ _ => rfl) ?_
  rintro _ _ ⟨m', mb, rfl, hre, hmed⟩
  unfold mediumBinRemoveOffset
  simp only [wp_bind, wp_mallocAssume, wp_load64, wp_store64, wp_pure, wp_loadAlloc (show r.addr % 8 = 0 by omega),
    wp_storeAlloc (show r.addr % 8 = 0 by omega)]
  refine ⟨decide_eq_true hi7, hv₁, hv₁, hv₂, hv₂, trivial, ?_⟩
  have hword : ∀ j, blockOff (removeWord (BitVec.ofNat 64 (m' r.addr)) i).toNat j =
      dropAfter (offAt s.mem r.addr) i 1 j := fun j => by
    rw [blockOff_removeWord hi7, show blockOff (m' r.addr) = _ from funext hre.off]
  have hre₁ := hre.word hword fun j hj => (testBit_removeWord_low hi7 (by omega)).trans (hre.flags j hj)
  have halloc : ∀ j, j < 8 →
      (removeAllocByte (BitVec.ofNat 8 (fieldOf (m' (r.addr + 8)) 7 1)) i).toNat.testBit j =
        dropAfter (alAt s.mem r.addr) i 1 j := fun j hj => by
    show (removeAllocByte _ i).getLsbD j = _
    rw [getLsbD_removeAllocByte (by omega) hj, show blockAl (m' (r.addr + 8)) = _ from funext hre.al]
  have hre₂ := hre₁.alloc halloc fun j hj => by
    rw [dropAfter_gt (by omega)]
    exact (hok.stop (j + 1) (by have := hok.le; omega)).2
  rw [Function.update_of_ne (show r.addr + 8 ≠ r.addr by omega)] at hre₂
  rw [setMem_mem, Function.update_of_ne (by omega)]
  have hbounds : ∀ o o', FreeAt (offAt s.mem r.addr) (alAt s.mem r.addr) (cntAt s.mem r.addr) o o' ∧
      o ≠ offAt s.mem r.addr (i + 1) → 16 ≤ o ∧ o + 512 ≤ o' ∧ o' ≤ 4096 := fun o o' hf => by
    have := hok.freeAt_bounds hn hf.1
    omega
  have hmed₂ : ∀ v w, MediumLists
      { s with mem := Function.update (Function.update m' r.addr v) (r.addr + 8) w } _ mb :=
    fun v w => hinv.lists_header hb.kind hbounds hmed fun x h₁ h₂ =>
      (Function.update_of_ne h₂ _ _).trans (Function.update_of_ne h₁ _ _)
  have hfreeAt := fun y f => hok.absorbNext_freeAt (o := y) (e := f) hi hb.used
  have hrecut := hre₂.recut hinv hb.kind (hok.absorbNext hi hb.used) ((hmed₂ _ _).congr
    (fun y f => withFree_congr hfreeAt) rfl (le_refl _) rfl fun _ _ => rfl) fun _ _ => rfl
  have herase : blockList (dropAfter (offAt s.mem r.addr) i 1) (dropAfter (alAt s.mem r.addr) i 1)
      (cntAt s.mem r.addr - 1) = _ := blockList_dropAfter hi
  rw [show blocksAt s.mem r.addr = blockList _ _ _ from rfl, ← herase]
  refine endMoved_of_recut hrecut hinv hb he (by omega) (by omega) (by rw [dropAfter_le (le_refl _), hb.used])
    (dropAfter_le (le_refl _)) ?_ (fun y f => ?_) fun y f => ?_
  · rw [← hv]
    unfold blockEnd
    by_cases hlt : i + 1 + 1 < cntAt s.mem r.addr
    · rw [if_pos hlt, if_pos (by omega), dropAfter_gt (by omega)]
    · rw [if_neg hlt, if_neg (by omega)]
  · rw [hok.absorbNext_usedAt hi hb.used hnext, hv]
  · rw [hfreeAt]
    exact ⟨.inl, fun hc => hc.resolve_right fun hc => absurd hc.1 (lt_irrefl _)⟩

/-! ## What happens in front of an allocated block -/

/-- The tail of the block is split off. -/
theorem splitBlock_spec (hinv : HeapInv strict s (A ++ r :: B)) (hb : BlockAt s r i p e)
    (hi : i + 1 < cntAt s.mem r.addr) (hnext : alAt s.mem r.addr (i + 1) = true) (hB : e - p < 4096)
    (hv : v % 16 = 0) (h₁ : offAt s.mem r.addr i + 512 ≤ v)
    (h₂ : v + 512 ≤ offAt s.mem r.addr (i + 1)) :
    wp (do
        mediumBinSplitBlock r.addr i v
        mediumBinLink (r.addr + v) (offAt s.mem r.addr (i + 1) - v)
        pure p)
      (fun q t => q = p ∧ EndMoved strict s A r B i p e (r.addr + v) e
        ((blocksAt s.mem r.addr).insertIdx (i + 1) (v, false)) t) s := by
  obtain ⟨hok, -, -, -, hv₁, hv₂, hal, hn⟩ := hinv.large_facts (r := r) (by simp) hb.kind
  have hok : BlocksOk strict (offAt s.mem r.addr) (alAt s.mem r.addr) r.n (cntAt s.mem r.addr) := hok
  have hroom : cntAt s.mem r.addr < 8 := hok.room hb.lt (by omega)
  have hpage := hok.page' (i + 1)
  obtain ⟨he, -⟩ := hb.stop_eq hinv hB
  obtain ⟨f, hu⟩ := hb.next_used (A := A) (B := B) hinv hB hi hnext
  unfold mediumBinSplitBlock mediumBinPushOffset
  simp only [wp_bind, wp_mallocAssume, wp_load64, wp_store64, wp_loadAlloc (show r.addr % 8 = 0 by omega),
    wp_storeAlloc (show r.addr % 8 = 0 by omega)]
  refine ⟨decide_eq_true (by omega), hv₁, hv₁, hv₂, hv₂, ?_⟩
  rw [setMem_mem, Function.update_of_ne (by omega)]
  have hre₁ := (Reheaded.self (s := s) (L := A ++ r :: B) (r := r)).word
    (blockOff_pushWord (show i < 7 by omega) hv (by omega) (by omega)
      ((hok.stop 7 (by omega)).1)) fun j hj => testBit_pushWord_low (by omega) hv (by omega) (by omega)
  have halloc : ∀ j, j < 8 →
      (splitAllocByte (BitVec.ofNat 8 (fieldOf (s.mem (r.addr + 8)) 7 1)) i).toNat.testBit j =
        insertAfter (alAt s.mem r.addr) i false j := fun j hj =>
    getLsbD_splitAllocByte (by omega) hj
  have hre₂ := hre₁.alloc halloc fun j hj => by
    rw [insertAfter_gt (by omega)]
    exact (hok.stop (j - 1) (by omega)).2
  rw [Function.update_of_ne (show r.addr + 8 ≠ r.addr by omega)] at hre₂
  have hins : blockList (insertAfter (offAt s.mem r.addr) i v) (insertAfter (alAt s.mem r.addr) i false)
      (cntAt s.mem r.addr + 1) = _ := blockList_insertAfter hb.lt
  refine wp_mono (splitTail_link hinv hb (fun hc => absurd hc (by omega)) (fun _ => hnext) hv h₁ h₂ hre₂
    fun x hx hx' => (Function.update_of_ne hx' _ _).trans (Function.update_of_ne hx _ _)) fun _ t ht =>
    wp_pure.mpr ⟨rfl, ht.recut.inv, ht.block, ht.recut.blocks.trans hins, ht.used, fun x y => ?_, ht.recut.others_blocks,
      ht.recut.contents hinv hb.kind, ht.recut.state, ht.recut.mem⟩
  rw [ht.free, he]
  constructor
  · rintro (hx | ⟨rfl, rfl⟩)
    · exact .inl ⟨hx, he ▸ hinv.free_ne_used hu hx⟩
    · exact .inr ⟨by omega, rfl, rfl⟩
  · rintro (⟨hx, -⟩ | ⟨-, rfl, rfl⟩)
    · exact .inl hx
    · exact .inr ⟨rfl, rfl⟩

/-- Nothing is done: the block keeps its tail. -/
theorem endMoved_self (hinv : HeapInv strict s (A ++ r :: B)) (hb : BlockAt s r i p e)
    (hB : e - p < 4096) (hi : i + 1 < cntAt s.mem r.addr)
    (hnext : alAt s.mem r.addr (i + 1) = true) :
    EndMoved strict s A r B i p e e e (blocksAt s.mem r.addr) s := by
  obtain ⟨f, hu⟩ := hb.next_used (A := A) (B := B) hinv hB hi hnext
  refine ⟨hinv, hb, rfl, fun x y => ⟨fun hx => ?_, ?_⟩, fun x y => ⟨fun hx =>
    .inl ⟨hx, hinv.free_ne_used hu hx⟩, fun hc => (hc.resolve_right fun hc => lt_irrefl _ hc.1).1⟩,
    fun _ _ _ => rfl, fun x e y f hx hx' w h₁ h₂ h₃ h₄ => rfl, ⟨_, _, rfl⟩, fun _ _ _ _ _ => rfl⟩
  · by_cases hxp : x = p
    · subst hxp
      refine .inr ⟨rfl, ?_⟩
      rcases hinv.used_disjoint hx hb.isUsed with ⟨-, rfl⟩ | hd | hd
      · rfl
      · have := hinv.used_bounds hx
        omega
      · have := hinv.used_bounds hb.isUsed
        omega
    · exact .inl ⟨hx, hxp⟩
  · rintro (⟨hx, -⟩ | ⟨rfl, rfl⟩)
    · exact hx
    · exact hb.isUsed

/-! ## Shrinking -/

/-- The block `i` of `r` at `p` is cut to `n` bytes: the tail goes to the free block behind,
becomes a free block of its own, or stays. -/
def CutBlock (strict : Prop) (s : Heap) (A : List Region) (r : Region) (B : List Region)
    (i p e n : Nat) (t : Heap) : Prop :=
  if alAt s.mem r.addr (i + 1) = false then
    EndMoved strict s A r B i p e (p + n) (r.addr + offAt s.mem r.addr (i + 2))
      ((blocksAt s.mem r.addr).set (i + 1) (p + n - r.addr, false)) t
  else if n + 512 ≤ e - p then
    EndMoved strict s A r B i p e (p + n) e
      ((blocksAt s.mem r.addr).insertIdx (i + 1) (p + n - r.addr, false)) t
  else EndMoved strict s A r B i p e e e (blocksAt s.mem r.addr) t

theorem reallocMediumShrink_spec (hinv : HeapInv strict s (A ++ r :: B)) (hb : BlockAt s r i p e)
    (hB : e - p < 4096) (hi : i + 1 < cntAt s.mem r.addr) (h16 : n % 16 = 0) (h512 : 512 ≤ n)
    (hle : n ≤ e - p) :
    wp (reallocMediumShrink r.addr p n i (e - p))
      (fun q t => q = p ∧ CutBlock strict s A r B i p e n t) s := by
  obtain ⟨hok, -, -, -, hv, hv', hal, hn⟩ := hinv.large_facts (r := r) (by simp) hb.kind
  have hok : BlocksOk strict (offAt s.mem r.addr) (alAt s.mem r.addr) r.n (cntAt s.mem r.addr) := hok
  obtain ⟨he, -⟩ := hb.stop_eq hinv hB
  have hstart := hb.start
  have hpage := hok.page' (i + 1)
  have h₀ : 16 ≤ offAt s.mem r.addr i ∧ offAt s.mem r.addr i % 16 = 0 := ⟨hok.off_ge i, hok.aligned i⟩
  have hoff : offAt s.mem r.addr i / 16 % 256 * 16 = offAt s.mem r.addr i :=
    offsetByte_of_lt (show offAt s.mem r.addr i < 4096 by omega)
  have hpn : p + n - r.addr = offAt s.mem r.addr i + n := by omega
  have hpn' : p + n = r.addr + (offAt s.mem r.addr i + n) := by omega
  unfold reallocMediumShrink CutBlock
  simp only [slabSize, minMediumBlockSz, mallocAlign]
  rw [wp_bind, wp_mediumBinOffsets]
  refine ⟨hv, ?_⟩
  simp only [mediumBinGetOffset_eq, mediumBinGetAdjOffset_eq]
  rw [wp_bind, wp_loadAlloc (by omega), testBit_allocByte, wp_ite, hpn, hpn']
  refine ⟨hv', ?_⟩
  show if blockOff (s.mem r.addr) (i + 1) / 16 % 256 * 16 ≠ 4096 ∧ alAt s.mem r.addr (i + 1) = false
    then wp (do
      store8 (r.addr + 1 + i) ((offAt s.mem r.addr i / 16 % 256 * 16 + n) / 16)
      mediumBinUnlink (r.addr + offAt s.mem r.addr (i + 1) / 16 % 256 * 16)
      mediumBinLink (r.addr + offAt s.mem r.addr i / 16 % 256 * 16 + n)
        (offAt s.mem r.addr (i + 2) - (offAt s.mem r.addr i / 16 % 256 * 16 + n))
      pure p) _ s else _
  rw [hoff]
  by_cases hnext : alAt s.mem r.addr (i + 1) = false
  · -- a free block follows
    rw [if_pos ⟨by omega, hnext⟩, Nat.add_assoc r.addr (offAt s.mem r.addr i) n]
    obtain ⟨-, -, hsize, -, -⟩ := hb.free_next hinv hi hnext
    have hoff₁ : offAt s.mem r.addr (i + 1) / 16 % 256 * 16 = offAt s.mem r.addr (i + 1) :=
      offsetByte_of_lt (show offAt s.mem r.addr (i + 1) < 4096 by
        have := hok.page' (i + 2)
        omega)
    rw [hoff₁]
    simp only [if_pos hnext]
    exact moveNext_spec hinv hb hi hnext (by omega) (by omega) (by omega)
  · -- an allocated block follows
    rw [if_neg fun hc => hnext hc.2]
    simp only [if_neg hnext]
    have hnext : alAt s.mem r.addr (i + 1) = true := by simpa using hnext
    rw [wp_ite]
    by_cases hrest : 512 ≤ e - p - n
    · rw [if_pos hrest]
      simp only [if_pos (show n + 512 ≤ e - p by omega)]
      rw [show p - r.addr + n = offAt s.mem r.addr i + n by omega,
        show e - p - n = offAt s.mem r.addr (i + 1) - (offAt s.mem r.addr i + n) by omega]
      exact splitBlock_spec hinv hb hi hnext hB (by omega) (by omega) (by omega)
    · rw [if_neg hrest, wp_pure]
      simp only [if_neg (show ¬ n + 512 ≤ e - p by omega)]
      exact ⟨trivial, endMoved_self hinv hb hB hi hnext⟩

/-- Behind the last block the header is taken for a block, and unlinking it follows the size of the
region as a pointer. -/
theorem reallocMediumShrink_last (hinv : HeapInv strict s (A ++ r :: B)) (hb : BlockAt s r i p e)
    (hlast : i + 1 = cntAt s.mem r.addr) (h1 : r.n = 1) :
    ¬ ∃ q t, reallocMediumShrink r.addr p n i (e - p) s = .ok (q, t) := by
  obtain ⟨hok, -, -, hsz, hv, hv', hal, hn⟩ := hinv.large_facts (r := r) (by simp) hb.kind
  have hok : BlocksOk strict (offAt s.mem r.addr) (alAt s.mem r.addr) r.n (cntAt s.mem r.addr) := hok
  obtain ⟨hoff, hfree⟩ := hok.stop (i + 1) hlast.ge
  have hoff : blockOff (s.mem r.addr) (i + 1) = 4096 := hoff
  have hfree : blockAl (s.mem (r.addr + 8)) (i + 1) = false := hfree
  have hi : i < 7 := by
    have hone := hok.last_one h1
    have hadd := hok.add_le (i := 0) (j := cntAt s.mem r.addr - 1)
    have hfirst := hok.first
    have hk := hok.le
    have hpos := hok.pos
    by_contra hcon
    have := hadd (by omega) (by omega)
    omega
  rintro ⟨q, t, heq⟩
  have h : wp (reallocMediumShrink r.addr p n i (e - p)) (fun _ u => u = t) s :=
    wp_iff.mpr ⟨q, t, heq, rfl⟩
  unfold reallocMediumShrink mediumBinUnlink at h
  simp only [wp_bind, wp_mediumBinOffsets, mediumBinGetOffset_eq, mediumBinGetAdjOffset_eq,
    wp_loadAlloc (show r.addr % 8 = 0 by omega), testBit_allocByte, hfree, wp_ite, slabSize,
    offsetByte_eq_zero.mpr hoff] at h
  obtain ⟨-, -, h⟩ := h
  rw [if_pos ⟨by decide, trivial⟩, show r.addr + 1 + i = r.addr + (1 + i) by omega,
    wp_storeField (by omega) (by omega)] at h
  simp only [wp_load64, wp_store64, setMem_mem, Nat.add_zero] at h
  obtain ⟨-, -, -, ⟨-, -, halign⟩, -⟩ := h
  rw [Function.update_of_ne (by omega)] at halign
  omega

/-! ## Growing -/

/-- The next block exists, is free and has the bytes that the block at `p` needs for `n`. -/
def GrowsIntoNext (s : Heap) (r : Region) (i p n : Nat) : Prop :=
  i + 1 < cntAt s.mem r.addr ∧ alAt s.mem r.addr (i + 1) = false ∧
    p + n ≤ r.addr + offAt s.mem r.addr (i + 2)

/-- The block `i` of `r` at `p` grows to `n` bytes: it absorbs the free block behind it when less
than 512 bytes of that would be left, and moves its start otherwise. -/
def GrownBlock (strict : Prop) (s : Heap) (A : List Region) (r : Region) (B : List Region)
    (i p e n : Nat) (t : Heap) : Prop :=
  if r.addr + offAt s.mem r.addr (i + 2) < p + n + 512 then
    EndMoved strict s A r B i p e
      (r.addr + blockEnd (offAt s.mem r.addr) r.n (cntAt s.mem r.addr) (i + 1))
      (r.addr + blockEnd (offAt s.mem r.addr) r.n (cntAt s.mem r.addr) (i + 1))
      ((blocksAt s.mem r.addr).eraseIdx (i + 1)) t
  else
    EndMoved strict s A r B i p e (p + n) (r.addr + offAt s.mem r.addr (i + 2))
      ((blocksAt s.mem r.addr).set (i + 1) (p + n - r.addr, false)) t

theorem reallocMediumGrow_spec (hinv : HeapInv False s (A ++ r :: B)) (hb : BlockAt s r i p e)
    (hB : e - p < 4096) (h16 : n % 16 = 0) (hlt : e - p < n) (hmax : n ≤ 4080) :
    wp (reallocMediumGrow r.addr p n i (e - p)) (fun q t =>
      (GrowsIntoNext s r i p n → q = p ∧ GrownBlock False s A r B i p e n t) ∧
      (¬ GrowsIntoNext s r i p n → q ≠ p)) s := by
  obtain ⟨hok, -, -, -, hv, hv', hal, hn⟩ := hinv.large_facts (r := r) (by simp) hb.kind
  have hok : BlocksOk False (offAt s.mem r.addr) (alAt s.mem r.addr) r.n (cntAt s.mem r.addr) := hok
  obtain ⟨he, hcase⟩ := hb.stop_eq hinv hB
  have hstart := hb.start
  have hmove : ¬ GrowsIntoNext s r i p n →
      wp (reallocMove p n (e - p) (_intLargeBlockFree r.addr p)) (fun q t =>
        (GrowsIntoNext s r i p n → q = p ∧ GrownBlock False s A r B i p e n t) ∧
        (¬ GrowsIntoNext s r i p n → q ≠ p)) s := fun hno =>
    wp_mono (reallocMove_large hinv hb (by omega) h16 (by omega) hlt.le (le_refl _)) fun q t ht =>
      ⟨fun hc => absurd hc hno, fun _ => ht.ne⟩
  unfold reallocMediumGrow
  simp only [maxMediumBlockSz, minMediumBlockSz, mallocAlign]
  rw [wp_ite, if_pos (by exact hmax), wp_bind, wp_mediumBinOffsets]
  refine ⟨hv, ?_⟩
  simp only [mediumBinGetOffset_eq, mediumBinGetAdjOffset_eq]
  rw [wp_bind, wp_loadAlloc (by omega), testBit_allocByte, wp_ite]
  refine ⟨hv', ?_⟩
  show if offAt s.mem r.addr (i + 1) / 16 % 256 * 16 ≠ 0 ∧ alAt s.mem r.addr (i + 1) = false ∧
      n - (e - p) ≤ offAt s.mem r.addr (i + 2) - offAt s.mem r.addr (i + 1) / 16 % 256 * 16
    then wp (do
      mediumBinUnlink (r.addr + offAt s.mem r.addr (i + 1) / 16 % 256 * 16)
      if offAt s.mem r.addr (i + 2) - offAt s.mem r.addr (i + 1) / 16 % 256 * 16 - (n - (e - p)) < 512
      then do
        mediumBinRemoveOffset r.addr i
        pure p
      else do
        store8 (r.addr + 1 + i) ((offAt s.mem r.addr (i + 1) / 16 % 256 * 16 + (n - (e - p))) / 16)
        mediumBinLink (r.addr + offAt s.mem r.addr (i + 1) / 16 % 256 * 16 + (n - (e - p)))
          (offAt s.mem r.addr (i + 2) - offAt s.mem r.addr (i + 1) / 16 % 256 * 16 - (n - (e - p)))
        pure p) _ s else _
  by_cases hnext : i + 1 < cntAt s.mem r.addr ∧ alAt s.mem r.addr (i + 1) = false
  swap
  · -- no block follows, or an allocated one
    have hno : ¬ GrowsIntoNext s r i p n := fun hc => hnext ⟨hc.1, hc.2.1⟩
    rw [if_neg]
    · exact hmove hno
    · rintro ⟨h0, hfree, -⟩
      rcases hcase with hi | ⟨hi, -⟩
      · exact hnext ⟨hi, hfree⟩
      · exact h0 (offsetByte_eq_zero.mpr (hok.stop (i + 1) hi.ge).1)
  obtain ⟨hi, hfree⟩ := hnext
  obtain ⟨-, -, hsize, hpage, -⟩ := hb.free_next hinv hi hfree
  have hoff : offAt s.mem r.addr (i + 1) / 16 % 256 * 16 = offAt s.mem r.addr (i + 1) :=
    offsetByte_of_lt (show offAt s.mem r.addr (i + 1) < 4096 by omega)
  have hge := hok.off_ge (i + 1)
  have hstep := hok.step i hi
  have h16' : offAt s.mem r.addr i % 16 = 0 := hok.aligned i
  rw [hoff]
  by_cases hfit : p + n ≤ r.addr + offAt s.mem r.addr (i + 2)
  swap
  · rw [if_neg fun hc => hfit (by omega)]
    exact hmove fun hc => hfit hc.2.2
  have hgrow : GrowsIntoNext s r i p n := ⟨hi, hfree, hfit⟩
  rw [if_pos ⟨by omega, hfree, by omega⟩]
  suffices h : wp _ (fun q t => q = p ∧ GrownBlock False s A r B i p e n t) s from
    wp_mono h fun q t ht => ⟨fun _ => ht, fun hno => absurd hgrow hno⟩
  unfold GrownBlock
  by_cases hrest : r.addr + offAt s.mem r.addr (i + 2) < p + n + 512
  · simp only [if_pos hrest, if_pos (show offAt s.mem r.addr (i + 2) - offAt s.mem r.addr (i + 1) -
      (n - (e - p)) < 512 by omega)]
    exact absorbNext_spec hinv hb hi hfree rfl
  · simp only [if_neg hrest, if_neg (show ¬ offAt s.mem r.addr (i + 2) - offAt s.mem r.addr (i + 1) -
      (n - (e - p)) < 512 by omega)]
    rw [show r.addr + offAt s.mem r.addr (i + 1) + (n - (e - p)) =
        r.addr + (offAt s.mem r.addr i + n) by omega,
      show offAt s.mem r.addr (i + 1) + (n - (e - p)) = offAt s.mem r.addr i + n by omega,
      show offAt s.mem r.addr (i + 2) - offAt s.mem r.addr (i + 1) - (n - (e - p)) =
        offAt s.mem r.addr (i + 2) - (offAt s.mem r.addr i + n) by omega,
      show p + n = r.addr + (offAt s.mem r.addr i + n) by omega, Nat.add_sub_cancel_left]
    exact moveNext_spec' hinv hb hi hfree (by omega) (by omega) (by omega)

end

/-! ## `realloc` -/

/-- **Shrinking a medium block** works exactly when it is not the last block of a one-slab region:
then it stays, only the header, the bins and the links of free blocks are written, and the list of
blocks is the old one with the tail moved to the next free block, split off or kept. -/
theorem realloc_medium_shrink (h : HeapReach s live) : ∃ L, LiveOk False s L live ∧
    ∀ A r B i p e size, L = A ++ r :: B → BlockAt s r i p e → e - p < 4096 → 512 ≤ size →
      size ≤ e - p →
      ((∃ t, realloc p size s = .ok (p, t) ∧ CutBlock False s A r B i p e ((size + 15) / 16 * 16) t ∧
          ∀ w, p ≤ w → w < p + size → t.mem w = s.mem w) ↔
        ¬ (r.n = 1 ∧ i + 1 = cntAt s.mem r.addr)) := by
  obtain ⟨L, hL⟩ := h.liveOk
  refine ⟨L, hL, ?_⟩
  rintro A r B i p e size rfl hb hB h512 hle
  obtain ⟨he, hcase⟩ := hb.stop_eq hL.inv hB
  have hstart := hb.start
  have h16 : offAt s.mem r.addr i % 16 = 0 ∧ offAt s.mem r.addr (i + 1) % 16 = 0 :=
    ⟨(blockOff_bounds _ i).2.2, (blockOff_bounds _ (i + 1)).2.2⟩
  have hrun : realloc p size s =
      reallocMediumShrink r.addr p ((size + 15) / 16 * 16) i (e - p) s := by
    rw [realloc_block hL hb (by unfold NoWrap; omega) (by omega), _intRealloc_eq hL.inv hb,
      if_neg (by simp only [minMediumBlockSz]; omega), if_neg (by simp only [minLargeBlockSz]; omega),
      if_pos (by omega)]
  rw [hrun]
  constructor
  · rintro ⟨t, heq, -⟩ ⟨h1, hlast⟩
    exact reallocMediumShrink_last hL.inv hb hlast h1 ⟨p, t, heq⟩
  · intro hno
    have hi : i + 1 < cntAt s.mem r.addr := hcase.resolve_right fun hc => hno ⟨hc.2, hc.1⟩
    obtain ⟨q, t, heq, rfl, ht⟩ := wp_iff.mp (reallocMediumShrink_spec hL.inv hb hB hi
      (n := (size + 15) / 16 * 16) (by omega) (by omega) (by omega))
    refine ⟨t, heq, ht, fun w h₁ h₂ => ?_⟩
    unfold CutBlock at ht
    split_ifs at ht
    · exact ht.contents _ _ _ _ hb.isUsed ht.block.isUsed w h₁ (by omega) h₁ (by omega)
    · exact ht.contents _ _ _ _ hb.isUsed ht.block.isUsed w h₁ (by omega) h₁ (by omega)
    · exact ht.contents _ _ _ _ hb.isUsed ht.block.isUsed w h₁ (by omega) h₁ (by omega)

/-- The first of two blocks is cut. -/
theorem realloc_medium_shrink_first : ∃ s live L, HeapReach s live ∧ (69648, 1008) ∈ live ∧
    LiveOk False s L live ∧ ∃ A r B i e, L = A ++ r :: B ∧ BlockAt s r i 69648 e ∧ e - 69648 < 4096 ∧
      ((∃ t, realloc 69648 600 s = .ok (69648, t) ∧ CutBlock False s A r B i 69648 e 608 t ∧
          ∀ w, 69648 ≤ w → w < 69648 + 600 → t.mem w = s.mem w) ↔
        ¬ (r.n = 1 ∧ i + 1 = cntAt s.mem r.addr)) := by
  obtain ⟨s, live, hreach, hcheck⟩ := heapReach_of_runCheck [.malloc 1008]
    (fun live s => decide ((69648, 1008) ∈ live ∧ s.mem (ptrGetSlab 69648 + 8) % 2 ^ 56 = 1))
    (by decide +kernel)
  obtain ⟨hmem, hsize⟩ := of_decide_eq_true hcheck
  obtain ⟨L, hL, hcut⟩ := realloc_medium_shrink hreach
  obtain ⟨A, r, B, i, e, rfl, hb, hle⟩ := hL.blockAt hmem (by decide)
  obtain ⟨haddr, hn⟩ := hb.slab hL.inv
  have hr : r.addr = 69632 := haddr.symm.trans (by decide)
  have hB : e - 69648 < 4096 := by
    by_contra hcon
    have h1 := (hb.large hL.inv (by omega)).2.1
    omega
  exact ⟨s, live, _, hreach, hmem, hL, A, r, B, i, e, rfl, hb, hB,
    hcut A r B i _ e 600 rfl hb hB (by decide) (by omega)⟩

/-- A block that fills its slab cannot be cut. -/
theorem realloc_medium_shrink_fails : ∃ s live, HeapReach s live ∧ (69648, 4000) ∈ live ∧
    realloc 69648 3000 s = .error .segfault := by
  obtain ⟨s, live, hreach, hcheck⟩ := heapReach_of_runCheck [.malloc 4000]
    (fun live s => decide ((69648, 4000) ∈ live) &&
      match realloc 69648 3000 s with
      | .error .segfault => true
      | _ => false) (by decide +kernel)
  rw [Bool.and_eq_true, decide_eq_true_eq] at hcheck
  obtain ⟨hmem, hcheck⟩ := hcheck
  split at hcheck
  · rename_i heq
    exact ⟨s, live, hreach, hmem, heq⟩
  · cases hcheck

/-- **Growing a medium block** to at most 4080 bytes: it stays where it is exactly when the next
block is free and has the missing bytes. -/
theorem realloc_medium_grow (h : HeapReach s live) : ∃ L, LiveOk False s L live ∧
    ∀ A r B i p e size, L = A ++ r :: B → BlockAt s r i p e → e - p < 4096 → e - p < size →
      size ≤ 4080 →
      (GrowsIntoNext s r i p size → ∃ t, realloc p size s = .ok (p, t) ∧
        GrownBlock False s A r B i p e ((size + 15) / 16 * 16) t ∧
        ∀ w, p ≤ w → w < e → t.mem w = s.mem w) ∧
      (¬ GrowsIntoNext s r i p size → ∃ q t, realloc p size s = .ok (q, t) ∧ q ≠ p) := by
  obtain ⟨L, hL⟩ := h.liveOk
  refine ⟨L, hL, ?_⟩
  rintro A r B i p e size rfl hb hB hlt hmax
  obtain ⟨hok, -, -, -, -, -, hal, hn⟩ := hL.inv.large_facts (r := r) (by simp) hb.kind
  have hsize := hb.size_ge hL.inv
  have hbounds := hL.inv.used_bounds hb.isUsed
  have h16 : offAt s.mem r.addr (i + 2) % 16 = 0 := (blockOff_bounds _ (i + 2)).2.2
  have hround : GrowsIntoNext s r i p ((size + 15) / 16 * 16) ↔ GrowsIntoNext s r i p size := by
    unfold GrowsIntoNext
    refine and_congr_right fun _ => and_congr_right fun _ => ?_
    omega
  have hrun : realloc p size s =
      reallocMediumGrow r.addr p ((size + 15) / 16 * 16) i (e - p) s := by
    rw [realloc_block hL hb (by unfold NoWrap; omega) (by omega), _intRealloc_eq hL.inv hb,
      if_neg (by simp only [minMediumBlockSz]; omega), if_neg (by simp only [minLargeBlockSz]; omega),
      if_neg (by omega)]
  obtain ⟨q, t, heq, hin, hout⟩ := wp_iff.mp (reallocMediumGrow_spec hL.inv hb hB
    (n := (size + 15) / 16 * 16) (by omega) (by omega) (by omega))
  rw [hround] at hin hout
  rw [hrun, heq]
  refine ⟨fun hc => ?_, fun hc => ⟨q, t, rfl, hout hc⟩⟩
  obtain ⟨rfl, ht⟩ := hin hc
  refine ⟨t, rfl, ht, fun w h₁ h₂ => ?_⟩
  have hend : e ≤ r.addr + offAt s.mem r.addr (i + 2) := by
    have := hc.2.2
    omega
  unfold GrownBlock at ht
  split_ifs at ht
  · refine ht.contents _ _ _ _ hb.isUsed ht.block.isUsed w h₁ h₂ h₁ ?_
    have := BlocksOk.off_le_blockEnd hok hn (j := i + 1)
    show w < r.addr + blockEnd (offAt s.mem r.addr) r.n (cntAt s.mem r.addr) (i + 1)
    have hle : offAt s.mem r.addr (i + 2) ≤
        blockEnd (offAt s.mem r.addr) r.n (cntAt s.mem r.addr) (i + 1) := this
    omega
  · exact ht.contents _ _ _ _ hb.isUsed ht.block.isUsed w h₁ h₂ h₁ (by omega)

/-- The first block of a slab grows into the free rest of it. -/
theorem realloc_medium_grow_first : ∃ s live L, HeapReach s live ∧ (69648, 1008) ∈ live ∧
    LiveOk False s L live ∧ ∃ A r B i, L = A ++ r :: B ∧ BlockAt s r i 69648 70656 ∧
      ∃ t, realloc 69648 1500 s = .ok (69648, t) ∧ GrownBlock False s A r B i 69648 70656 1504 t ∧
        ∀ w, 69648 ≤ w → w < 70656 → t.mem w = s.mem w := by
  obtain ⟨s, live, hreach, hcheck⟩ := heapReach_of_runCheck [.malloc 1008]
    (fun live s => decide ((69648, 1008) ∈ live ∧ cntAt s.mem 69632 = 2 ∧
      offAt s.mem 69632 1 = 1024 ∧ alAt s.mem 69632 1 = false ∧ offAt s.mem 69632 2 = 4096))
    (by decide +kernel)
  obtain ⟨hmem, hcnt, hoff₁, hfree, hoff₂⟩ := of_decide_eq_true hcheck
  obtain ⟨L, hL, hgrow⟩ := realloc_medium_grow hreach
  obtain ⟨A, r, B, i, e, rfl, hb, hle⟩ := hL.blockAt hmem (by decide)
  obtain ⟨haddr, -⟩ := hb.slab hL.inv
  have hr : r.addr = 69632 := haddr.symm.trans (by decide)
  have hstart := hb.start
  have hlt := hb.lt
  have hstop := hb.stop
  rw [hr] at hstart hlt hstop
  have hi : i = 0 := by
    by_contra hne
    obtain rfl : i = 1 := by omega
    omega
  subst hi
  rw [blockEnd, if_pos (by omega), hoff₁] at hstop
  subst hstop
  exact ⟨s, live, _, hreach, hmem, hL, A, r, B, 0, rfl, hb,
    (hgrow A r B 0 _ _ 1500 rfl hb (by decide) (by decide) (by decide)).1
      ⟨by rw [hr]; omega, by rw [hr]; exact hfree, by rw [hr, hoff₂]; decide⟩⟩

end

end MallocBench.Slab
