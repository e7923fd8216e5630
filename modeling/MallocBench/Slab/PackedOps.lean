import MallocBench.Slab.PackedWords
import MallocBench.Slab.Reblock

/-!
# Packed slabs keep the invariant

Allocating a block of a packed slab and freeing one: `__packed_alloc_N`,
`__packed_alloc`, `__packed_free_N` and `__packed_free` on the whole heap. All of
them change one bit of the free vector, and link or unlink the slab when it stops
or starts being full.
-/

namespace MallocBench.Slab

open Lib

section

variable {s t u : Heap} {A B L : List Region} {r : Region} {bins sb : Nat → List Nat}
  {P : Nat → Nat → Prop} {strict : Prop} {m' : Nat → Nat} {a l n i j x e p size : Nat} {b : Bool}

/-! ## One packed slab of the heap -/

/-- The packed slabs in bins, with one slab apart. -/
theorem packedFree_insert_packed {m : Nat → Nat} (hk : r.kind = .packed) :
    PackedFree m (A ++ r :: B) x i ↔
      PackedFree m (A ++ B) x i ∨ (x = r.addr ∧ PackedIn m r.addr i) := by
  unfold PackedFree
  constructor
  · rintro ⟨r₀, hr₀, hk₀, rfl, hf⟩
    simp only [List.mem_append, List.mem_cons] at hr₀
    rcases hr₀ with hr₀ | rfl | hr₀
    · exact .inl ⟨r₀, by simp [hr₀], hk₀, rfl, hf⟩
    · exact .inr ⟨rfl, hf⟩
    · exact .inl ⟨r₀, by simp [hr₀], hk₀, rfl, hf⟩
  · rintro (⟨r₀, hr₀, hf⟩ | ⟨rfl, hf⟩)
    · exact ⟨r₀, mem_insert_region hr₀, hf⟩
    · exact ⟨r, by simp, hk, rfl, hf⟩

/-- Other slabs are at other addresses. -/
theorem packedFree_ne (hslab : SlabInv s (A ++ r :: B) bins)
    (h : PackedFree s.mem (A ++ B) x i) : x ≠ r.addr := by
  obtain ⟨r₀, hr₀, -, rfl, -⟩ := h
  have hn₀ := (hslab.mem_facts (mem_insert_region (r := r) hr₀)).1
  have hn := (hslab.mem_facts (r := r) (by simp)).1
  have hlen := Region.addr_lt_stop hn
  have hlen₀ := Region.addr_lt_stop hn₀
  have := hslab.addr_ne hr₀
  omega

/-- The facts about a packed slab that its operations start from. -/
theorem HeapInv.packed_facts (h : HeapInv strict s L) (hr : r ∈ L) (hk : r.kind = .packed) :
    PackedOk s.mem r.addr ∧ (s.mem r.addr).testBit 0 = true ∧ (s.mem r.addr).testBit 2 = true ∧
      r.n = 1 ∧ r.addr % 4096 = 0 ∧ s.heap + 4096 ≤ r.addr ∧ r.addr + 4096 ≤ s.brk ∧
      r.stop = r.addr + 4096 := by
  obtain ⟨bins, hslab⟩ := h.slab
  obtain ⟨hn, hal, hge, hle, p, hok⟩ := hslab.mem_facts hr
  have hpacked := hok.2.2.2
  rw [hk] at hpacked
  have hbrk := hslab.brk
  have hstop : r.stop = r.addr + 4096 := by
    unfold Region.stop
    rw [hpacked.2]
  refine ⟨(h.regions r hr).packed hk, ?_, hpacked.1, hpacked.2, hal, hge, by omega, hstop⟩
  rw [hok.alloc_bit, Region.isAlloc_eq_true, hk]
  decide

/-- Writes inside a packed slab and to the small bins keep the slab layer, if the
flags stay. -/
theorem SlabInv.of_packed (h : SlabInv s (A ++ r :: B) bins) (hk : r.kind = .packed)
    (hm : ∀ x, ¬ SmallWord s.heap (PackedFree s.mem (A ++ B)) x → x < r.addr ∨ r.stop ≤ x →
      m' x = s.mem x) (hlow : ∀ i, i < 16 → (m' r.addr).testBit i = (s.mem r.addr).testBit i) :
    SlabInv { s with mem := m' } (A ++ r :: B) bins := by
  have hmem : r ∈ A ++ r :: B := by simp
  obtain ⟨a, p, hgap⟩ := SlabInv.split (A := []) h
  -- outside the slab only links of packed slabs are written
  have hcell : ∀ r₀ ∈ A ++ r :: B, ∀ y, r₀.addr ≤ y → y < r₀.stop → r₀.kind ≠ .packed ∨
      (y = r₀.addr ∧ y ≠ r.addr) → m' y = s.mem y := by
    intro r₀ hr₀ y hy₁ hy₂ hy
    obtain ⟨-, -, hge, -, -⟩ := h.mem_facts hr₀
    refine hm y ?_ ?_
    · intro hx
      rcases hx.cases with hpage | ⟨r', hr', hk', hx'⟩
      · omega
      · have hlen := Region.addr_lt_stop (h.mem_facts (mem_insert_region (r := r) hr')).1
        have heq := h.region_eq hr₀ (mem_insert_region hr') (x := y) ⟨hy₁, hy₂⟩ (by omega)
        subst heq
        rcases hy with hk₀ | hy
        · exact hk₀ hk'
        · omega
    · by_contra hcon
      have heq := h.region_eq hr₀ hmem (x := y) ⟨hy₁, hy₂⟩ (by omega)
      subst heq
      rcases hy with hk₀ | hy
      · exact hk₀ hk
      · omega
  have hgap' : Gap { s with mem := m' } [] a p a p (A ++ r :: B) bins := by
    refine hgap.congr rfl rfl rfl rfl rfl (fun y hy₁ hy₂ => hm y ?_ ?_) (fun r₀ hr₀ => ?_)
      fun r₀ hr₀ hk₀ => ?_
    · intro hx
      rcases hx.cases with hpage | ⟨r', hr', -, hx'⟩
      · omega
      · have := (h.mem_facts (mem_insert_region (r := r) hr')).2.2.1
        omega
    · have := (h.mem_facts hmem).2.2.1
      omega
    · have hlen := Region.addr_lt_stop (h.mem_facts (r := r₀) hr₀).1
      refine ⟨fun i hi => ?_, fun hk₀ => ?_, fun hk₀ => ⟨?_, ?_⟩⟩
      · by_cases heq : r₀.addr = r.addr
        · show (m' r₀.addr).testBit i = _
          rw [heq]
          exact hlow i (by omega)
        · exact congrArg (Nat.testBit · i) (hcell r₀ hr₀ _ (le_refl _) (by omega) (.inr ⟨rfl, heq⟩))
      · exact congrArg (· % 2 ^ 56) (hcell r₀ hr₀ _ (by omega) (by omega) (.inl (by simp [hk₀])))
      · exact hcell r₀ hr₀ _ (by omega) (by omega) (.inl (by simp [hk₀]))
      · exact hcell r₀ hr₀ _ (by omega) (by omega) (.inl (by simp [hk₀]))
    · have hlen := Region.addr_lt_stop (h.mem_facts (r := r₀) hr₀).1
      exact ⟨hcell r₀ hr₀ _ (by omega) (by omega) (.inl (by simp [hk₀])),
        hcell r₀ hr₀ _ (by omega) (by omega) (.inl (by simp [hk₀]))⟩
  exact hgap'.join

/-- The heap after an operation inside one packed slab. -/
structure Repacked (strict : Prop) (s : Heap) (A : List Region) (r : Region) (B : List Region)
    (t : Heap) : Prop where
  inv : HeapInv strict t (A ++ r :: B)
  used : ∀ x e, Used t.mem (A ++ r :: B) x e ↔
    Used s.mem (A ++ B) x e ∨ PackedUsed t.mem r.addr x e
  others : RegionsKept s (A ++ B) t
  heap : t.heap = s.heap
  heapEnd : t.heapEnd = s.heapEnd

/-- Writes inside a packed slab and to the small bins: the other regions are kept, and
so are the medium bins. -/
theorem HeapInv.packed_frame (hinv : HeapInv strict s (A ++ r :: B)) (hk : r.kind = .packed)
    (hm : ∀ x, ¬ SmallWord s.heap (PackedFree s.mem (A ++ B)) x → x < r.addr ∨ r.stop ≤ x →
      m' x = s.mem x) :
    RegionsKept s (A ++ B) { s with mem := m' } ∧
      ∃ mb, MediumLists { s with mem := m' } (FreeBlock s.mem (A ++ B)) mb := by
  obtain ⟨bins, hslab⟩ := hinv.slab
  obtain ⟨mb, hmed⟩ := hinv.medium
  have hsub : ∀ r₀ ∈ A ++ B, r₀ ∈ A ++ r :: B := fun _ => mem_insert_region
  have hoth : ∀ r₀ ∈ A ++ B, RegionOk strict s.mem r₀ :=
    fun r₀ hr₀ => hinv.regions r₀ (mem_insert_region hr₀)
  have hframe : MemFrame (fun x => SlabWord s A r B x ∨
      SmallWord s.heap (PackedFree s.mem (A ++ B)) x) (IsHeader (A ++ r :: B)) s
      { s with mem := m' } := by
    refine MemFrame.of_mem rfl (le_refl _) fun x hx => hm x (fun hc => hx (.inr hc)) ?_
    by_contra hcon
    exact hx (.inl (.inl (.inr ⟨⟨r.addr, r.n, .free⟩, by simp, rfl, by
      show r.addr ≤ x
      omega, by
      show x < r.stop
      omega⟩)))
  refine ⟨regionsKept hslab hsub hslab.slabWord_avoids hoth
    (hframe.mono (fun x hx => hx.imp_right .inr) fun _ => id), mb, ?_⟩
  have hfree : ∀ x e, FreeBlock s.mem (A ++ r :: B) x e ↔ FreeBlock s.mem (A ++ B) x e := by
    intro x e
    unfold FreeBlock
    constructor
    · rintro ⟨r₀, hr₀, hk₀, hf⟩
      simp only [List.mem_append, List.mem_cons] at hr₀
      rcases hr₀ with hr₀ | rfl | hr₀
      · exact ⟨r₀, by simp [hr₀], hk₀, hf⟩
      · rw [hk] at hk₀
        cases hk₀
      · exact ⟨r₀, by simp [hr₀], hk₀, hf⟩
    · rintro ⟨r₀, hr₀, hf⟩
      exact ⟨r₀, mem_insert_region hr₀, hf⟩
  exact mediumLists_kept hslab hsub hslab.slabWord_avoids hoth
    (hmed.congr (fun x e => (hfree x e).symm) rfl (le_refl _) rfl fun _ _ => rfl) rfl hframe

/-- **Changing a packed slab**: the header is right again, and the small bins hold the
slab iff it has a free block. -/
theorem HeapInv.repacked (hinv : HeapInv strict s (A ++ r :: B)) (m' : Nat → Nat)
    (hk : r.kind = .packed)
    (hm : ∀ x, ¬ SmallWord s.heap (PackedFree s.mem (A ++ B)) x → x < r.addr ∨ r.stop ≤ x →
      m' x = s.mem x) (hlow : ∀ i, i < 16 → (m' r.addr).testBit i = (s.mem r.addr).testBit i)
    (hok : PackedOk m' r.addr)
    (hsmall : SmallLists { s with mem := m' } (fun x i => PackedFree s.mem (A ++ B) x i ∨
      (x = r.addr ∧ PackedIn m' r.addr i)) sb) : Repacked strict s A r B { s with mem := m' } := by
  obtain ⟨bins, hslab⟩ := hinv.slab
  obtain ⟨hothers, mb, hmed⟩ := hinv.packed_frame hk hm
  obtain ⟨hinv', hused⟩ := heapInv_out r True (t := { s with mem := m' })
    (fun r₀ hr₀ => hinv.regions r₀ (mem_insert_region hr₀)) hothers.header (hslab.of_packed hk hm hlow)
    (fun r₀ hk₀ => by simp only [List.mem_append, List.mem_cons]; tauto) (by rw [hk]; decide)
    (fun _ => by
      unfold RegionOk
      rw [hk]
      exact hok)
    (hmed.congr (fun x e => by simp [hk]) rfl (le_refl _) rfl fun _ _ => rfl)
    (hsmall.congr (fun x i => or_congr_right ⟨by rintro ⟨-, -, rfl, h⟩; exact ⟨rfl, h⟩,
      by rintro ⟨rfl, h⟩; exact ⟨trivial, hk, rfl, h⟩⟩) rfl (le_refl _) fun _ _ => rfl)
  refine ⟨hinv', fun x e => ?_, hothers, rfl, rfl⟩
  rw [hused, true_and]
  unfold RegionUsed
  rw [hk]

/-- The heap after a packed slab has left its bin and has been given back: `called` has the memory
in between. -/
structure Released (strict : Prop) (s : Heap) (A : List Region) (r : Region) (B : List Region)
    (t : Heap) : Prop where
  called : ∃ m sb, SmallLists { s with mem := m } (PackedFree s.mem (A ++ B)) sb ∧
    (∀ i, i < 23 → r.addr ∉ sb i) ∧ _intFreeSlab r.addr 1 { s with mem := m } = .ok ((), t)
  inv : ∃ L', HeapInv strict t L' ∧ SameAlloc (A ++ B) L' ∧
    ∀ x e, Used t.mem L' x e ↔ Used s.mem (A ++ B) x e
  others : RegionsKept s (A ++ B) t
  heap : t.heap = s.heap
  heapEnd : t.heapEnd = s.heapEnd

/-- **Giving back a packed slab** that has left its bin. -/
theorem HeapInv.released (hinv : HeapInv strict s (A ++ r :: B)) (m' : Nat → Nat)
    (hk : r.kind = .packed)
    (hm : ∀ x, ¬ SmallWord s.heap (PackedFree s.mem (A ++ B)) x → x < r.addr ∨ r.stop ≤ x →
      m' x = s.mem x) (hlow : ∀ i, i < 16 → (m' r.addr).testBit i = (s.mem r.addr).testBit i)
    (hsmall : SmallLists { s with mem := m' } (PackedFree s.mem (A ++ B)) sb) :
    wp (_intFreeSlab r.addr 1) (fun _ t => Released strict s A r B t) { s with mem := m' } := by
  obtain ⟨-, -, -, hn1, -⟩ := hinv.packed_facts (r := r) (by simp) hk
  obtain ⟨bins, hslab⟩ := hinv.slab
  obtain ⟨hothers, mb, hmed⟩ := hinv.packed_frame hk hm
  have hkept := hothers.header
  have hslabu := hslab.of_packed hk hm hlow
  have hsub : ∀ r₀ ∈ A ++ B, r₀ ∈ A ++ r :: B := fun _ => mem_insert_region
  have hoth : ∀ r₀ ∈ A ++ B, RegionOk strict s.mem r₀ :=
    fun r₀ hr₀ => hinv.regions r₀ (mem_insert_region hr₀)
  -- the regions and bins seen from the state that the slab is freed in
  have hothu : ∀ r₀ ∈ A ++ B, RegionOk strict m' r₀ := by
    intro r₀ hr₀
    by_cases hk₀ : r₀.kind = .free
    · unfold RegionOk
      rw [hk₀]
      trivial
    · exact (hkept r₀ hr₀ hk₀).ok.mpr (hoth r₀ hr₀)
  have hpacked : ∀ x i, PackedFree m' (A ++ B) x i ↔ PackedFree s.mem (A ++ B) x i := by
    intro x i
    refine exists_congr fun r₀ => and_congr_right fun hr₀ => and_congr_right fun hk₀ =>
      and_congr_right fun hx => ?_
    rw [← hx]
    exact (hkept r₀ hr₀ (by rw [hk₀]; decide)).packedIn hk₀
  have hcall := _intFreeSlab_spec hslabu (Region.isAlloc_eq_true.mpr (by rw [hk]; decide))
  rw [hn1] at hcall
  obtain ⟨_, t, heq, ⟨L', bins', hslab', hsame⟩, hframe, hend⟩ := wp_iff.mp hcall
  have hmf : MemFrame (SlabWord { s with mem := m' } A r B) (IsHeader (A ++ r :: B))
      { s with mem := m' } t := by
    refine hframe.memFrame.mono (fun x hx => .inl (by rwa [hn1])) ?_
    rintro x ⟨r₀, hr₀, hx⟩
    exact ⟨r₀, by simp [hr₀], hx⟩
  have hothers' : RegionsKept { s with mem := m' } (A ++ B) t := regionsKept hslabu hsub
    hslabu.slabWord_avoids hothu (hmf.mono (fun x => .inl) fun _ => id)
  have hmed' := mediumLists_kept hslabu hsub hslabu.slabWord_avoids hothu
    (hmed.congr (fun x e => freeBlock_kept hkept) rfl (le_refl _) rfl fun _ _ => rfl)
    hframe.med (hmf.mono (fun x => .inl) fun _ => id)
  have hsmall' := smallLists_kept hslabu hsub hslabu.slabWord_avoids hothu
    (hsmall.congr (fun x i => hpacked x i) rfl (le_refl _) fun _ _ => rfl)
    (hmf.mono (fun x => .inl) fun _ => id)
  obtain ⟨hinv', hused⟩ := heapInv_out r False (s := { s with mem := m' }) (t := t)
    hothu hothers'.header hslab'
    (fun r₀ hk₀ => by rw [hsame r₀ hk₀]; simp) (by rw [hk]; decide) False.elim
    (hmed'.congr (fun x e => by simp) rfl (le_refl _) rfl fun _ _ => rfl)
    (hsmall'.congr (fun x e => by simp) rfl (le_refl _) fun _ _ => rfl)
  have hleft : ∀ i, i < 23 → r.addr ∉ sb i := fun i hi =>
    hsmall.not_mem (fun i hx => packedFree_ne hslab hx rfl) hi
  refine wp_iff.mpr ⟨(), t, heq, ⟨m', sb, hsmall, hleft, heq⟩,
    ⟨L', hinv', hsame, fun x e => ?_⟩, hothers.trans hothers', hframe.heap, hend⟩
  rw [hused]
  simp only [false_and, or_false]
  exact used_kept hkept

/-! ## Reading and writing the header -/

theorem wp_incAllocCnt {Q : Unit → Heap → Prop} (ha : a % 8 = 0) :
    wp (incAllocCnt a) Q s ↔ s.Valid a ∧
      Q () (s.setMem a (putField (s.mem a) 2 2 (fieldOf (s.mem a) 2 2 + 1))) := by
  unfold incAllocCnt
  rw [wp_bind, wp_loadField ha (by omega), wp_storeField ha (by omega)]
  exact ⟨fun h => h.2, fun h => ⟨h.1, h⟩⟩

theorem lane_addr : a + 24 + 2 * l = a + 24 + 8 * (l / 4) + 2 * (l % 4) := by omega

theorem wp_loadLane {Q : Nat → Heap → Prop} (ha : a % 8 = 0) :
    wp (load16 (a + 24 + 2 * l)) Q s ↔ s.Valid (a + 24 + 8 * (l / 4)) ∧
      Q (fieldOf (s.mem (a + 24 + 8 * (l / 4))) (2 * (l % 4)) 2) s := by
  rw [lane_addr]
  exact wp_loadField (by omega) (by omega)

theorem wp_storeLane {Q : Unit → Heap → Prop} {v : Nat} (ha : a % 8 = 0) :
    wp (store16 (a + 24 + 2 * l) v) Q s ↔ s.Valid (a + 24 + 8 * (l / 4)) ∧
      Q () (s.setMem (a + 24 + 8 * (l / 4))
        (putField (s.mem (a + 24 + 8 * (l / 4))) (2 * (l % 4)) 2 v)) := by
  rw [lane_addr]
  exact wp_storeField (by omega) (by omega)

/-- The slab is unlinked when it is full. -/
theorem unlinkFull_spec (h : SmallLists s P sb) {c : Prop} [Decidable c] (hx : c → P a i) :
    wp (if c then smallBinUnlink a else pure ()) (fun _ t => ∃ m' sb', t = { s with mem := m' } ∧
      SmallLists { s with mem := m' } (fun y j => P y j ∧ ¬ (c ∧ y = a)) sb' ∧
      ∀ x, ¬ SmallWord s.heap P x → m' x = s.mem x) s := by
  rw [wp_ite]
  by_cases hc : c
  · rw [if_pos hc]
    refine wp_mono (h.unlink (hx hc)) fun _ t ht => ?_
    obtain ⟨m', sb', rfl, hsmall, hm⟩ := ht
    exact ⟨m', sb', rfl, hsmall.congr (fun y j => by simp [hc]) rfl (le_refl _) fun _ _ => rfl, hm⟩
  · rw [if_neg hc]
    exact wp_pure.mpr ⟨s.mem, sb, rfl, h.congr (fun y j => by simp [hc]) rfl (le_refl _)
      fun _ _ => rfl, fun _ _ => rfl⟩

/-- The slab is linked when it was full. -/
theorem linkFull_spec (h : SmallLists s P sb) {c : Prop} [Decidable c] (hal : x % 4096 = 0)
    (hge : s.heap + 4096 ≤ x) (hroom : x + 32 ≤ s.brk) (hidx : packedBinIdx size < 23)
    (hfresh : c → ∀ j, ¬ P x j) :
    wp (if c then smallBinLink x size else pure ()) (fun _ t => ∃ m' sb', t = { s with mem := m' } ∧
      SmallLists { s with mem := m' }
        (fun y j => P y j ∨ (c ∧ y = x ∧ j = packedBinIdx size)) sb' ∧
      ∀ z, ¬ SmallWord s.heap (fun y j => P y j ∨ (y = x ∧ j = packedBinIdx size)) z →
        m' z = s.mem z) s := by
  rw [wp_ite]
  by_cases hc : c
  · rw [if_pos hc]
    refine wp_mono (h.link hal hge hroom hidx (hfresh hc)) fun _ t ht => ?_
    obtain ⟨m', sb', rfl, hsmall, hm⟩ := ht
    exact ⟨m', sb', rfl, hsmall.congr (fun y j => by simp [hc]) rfl (le_refl _) fun _ _ => rfl, hm⟩
  · rw [if_neg hc]
    exact wp_pure.mpr ⟨s.mem, sb, rfl, h.congr (fun y j => by simp [hc]) rfl (le_refl _)
      fun _ _ => rfl, fun _ _ => rfl⟩

/-! ## Allocating a block -/

/-- Block `j` of the slab `r` has been allocated. -/
structure PackedTaken (strict : Prop) (s : Heap) (A : List Region) (r : Region) (B : List Region)
    (j : Nat) (t : Heap) : Prop where
  repacked : Repacked strict s A r B t
  /-- the blocks of the slab are not written -/
  inner : ∀ x, r.addr + packedStart (packedSize s.mem r.addr) ≤ x → x < r.addr + 4096 →
    t.mem x = s.mem x
  bit : BitChanged s.mem t.mem r.addr j false (fieldOf (s.mem r.addr) 2 2 + 1)

/-- Block `j` is the first free block. -/
structure FirstFree (size : Nat) (f : Nat → Bool) (j : Nat) : Prop where
  lt : j < packedBlocks size
  free : f j = true
  first : ∀ i, i < j → f i = false

/-- The address of block `j`. -/
def packedBlock (a size j : Nat) : Nat := a + packedStart size + size * j

theorem PackedOk.taken {m m' : Nat → Nat} (h : PackedOk m a)
    (hb : BitChanged m m' a j false (fieldOf (m a) 2 2 + 1))
    (hj : j < packedBlocks (packedSize m a)) (hf : freeBit m a j = true) : PackedOk m' a := by
  unfold PackedOk
  rw [packedSize_congr hb.low, hb.free, hb.cnt]
  exact PackedData.take h hj hf fun h48 => hb.lvl1 h48 (h.lvl1 h48)

/-- The heap after a block has been allocated and the slab has been unlinked if it is
full. -/
theorem packedTaken (hinv : HeapInv strict s (A ++ r :: B)) (hk : r.kind = .packed)
    (hb : BitChanged s.mem m' r.addr j false (fieldOf (s.mem r.addr) 2 2 + 1))
    (hj : j < packedBlocks (packedSize s.mem r.addr)) (hf : freeBit s.mem r.addr j = true)
    {c : Prop} (hc : c ↔ ¬ HasFree (packedSize s.mem r.addr) (freeBit m' r.addr))
    (hm : ∀ x, ¬ SmallWord s.heap (PackedFree s.mem (A ++ r :: B)) x → x ≠ r.addr →
      x < r.addr + 24 ∨ r.addr + 56 ≤ x → m' x = s.mem x)
    (hin : ∀ x, r.addr + packedStart (packedSize s.mem r.addr) ≤ x → x < r.addr + 4096 →
      m' x = s.mem x)
    (hsmall : SmallLists { s with mem := m' }
      (fun y i => PackedFree s.mem (A ++ r :: B) y i ∧ ¬ (c ∧ y = r.addr)) sb) :
    PackedTaken strict s A r B j { s with mem := m' } := by
  obtain ⟨hok, -, -, hn1, -, -, -, hstop⟩ := hinv.packed_facts (r := r) (by simp) hk
  obtain ⟨bins, hslab⟩ := hinv.slab
  refine ⟨hinv.repacked _ hk (fun x hx hout => hm x ?_ ?_ ?_) hb.low (hok.taken hb hj hf)
    (hsmall.congr (fun y i => ?_) rfl (le_refl _) fun _ _ => rfl), hin, hb⟩
  · rintro (hpage | ⟨y, i, hy, hxy⟩)
    · exact hx (.inl hpage)
    · rcases (packedFree_insert_packed hk).mp hy with hy | ⟨rfl, -⟩
      · exact hx (.inr ⟨y, i, hy, hxy⟩)
      · omega
  · omega
  · omega
  · unfold PackedIn
    rw [packedFree_insert_packed hk]
    show _ ∨ (y = r.addr ∧ HasFree (packedSize m' r.addr) _ ∧
      packedBinIdx (packedSize m' r.addr) = i) ↔ _
    rw [packedSize_congr hb.low]
    unfold PackedIn
    constructor
    · rintro (hy | ⟨rfl, hhas, hidx⟩)
      · exact ⟨.inl hy, fun hcon => packedFree_ne hslab hy hcon.2⟩
      · refine ⟨.inr ⟨rfl, ?_, hidx⟩, fun hcon => hc.mp hcon.1 hhas⟩
        obtain ⟨j', hj', hf'⟩ := hhas
        refine ⟨j', hj', ?_⟩
        rw [hb.free] at hf'
        by_cases hjj : j' = j
        · rw [hjj, hf]
        · rwa [Function.update_of_ne hjj] at hf'
    · rintro ⟨hy | ⟨rfl, -, hidx⟩, hnc⟩
      · exact .inl hy
      · refine .inr ⟨rfl, ?_, hidx⟩
        by_contra hnone
        exact hnc ⟨hc.mpr hnone, rfl⟩

/-- Words of a packed slab other than its links are no links. -/
theorem packed_not_smallWord {z : Nat} (hslab : SlabInv s (A ++ r :: B) bins)
    (hz : z = r.addr ∨ (r.addr + 24 ≤ z ∧ z < r.addr + 4096)) :
    ¬ SmallWord s.heap (PackedFree s.mem (A ++ r :: B)) z := by
  obtain ⟨hn, -, hge, -⟩ := hslab.mem_facts (r := r) (by simp)
  have hlen := Region.addr_lt_stop hn
  intro hx
  rcases hx.cases with hpage | ⟨r₀, hr₀, -, hx'⟩
  · omega
  · have hlen₀ := Region.addr_lt_stop (hslab.mem_facts hr₀).1
    have heq := hslab.region_eq (r := r) (by simp) hr₀ (x := z) (by omega) (by omega)
    subst heq
    omega

/-- **`__packed_alloc_N`** of a slab with a free block. -/
theorem _packedAllocN_spec (hinv : HeapInv strict s (A ++ r :: B)) (hk : r.kind = .packed)
    (hsize : packedSize s.mem r.addr = n) (h48 : n ≤ 48) (hfree : HasFree n (freeBit s.mem r.addr)) :
    wp (_packedAllocN n r.addr) (fun p t => ∃ j, FirstFree n (freeBit s.mem r.addr) j ∧
      p = packedBlock r.addr n j ∧ PackedTaken strict s A r B j t) s := by
  obtain ⟨hok, -, -, hn1, hal, hge, hroom, hstop⟩ := hinv.packed_facts (r := r) (by simp) hk
  obtain ⟨bins, hslab⟩ := hinv.slab
  obtain ⟨sb, hsmall⟩ := hinv.small
  have hdata : PackedData n (freeBit s.mem r.addr) (fieldOf (s.mem r.addr) 2 2)
      (fieldOf (s.mem r.addr) 4 2) := hsize ▸ hok
  have hfacts := packedSizes_facts hdata.size_mem
  have hbits := packedBits_facts n
  have hcnt := hdata.cnt_le
  have hv : ∀ x, r.addr ≤ x → x + 8 ≤ r.addr + 4096 → x % 8 = 0 → s.Valid x :=
    fun x _ _ _ => ⟨by omega, by omega, by omega⟩
  have hlt16 : fieldOf (s.mem r.addr) 4 2 < 2 ^ 16 := Nat.mod_lt _ (by decide)
  -- the first lane with a free block
  have hx : BitVec.ofNat 16 (fieldOf (s.mem r.addr) 4 2) ≠ 0 := by
    intro h0
    have := congrArg BitVec.toNat h0
    rw [BitVec.toNat_ofNat, Nat.mod_eq_of_lt hlt16] at this
    exact (hdata.lvl1_zero_iff h48 hlt16).mp this hfree
  unfold _packedAllocN
  rw [wp_bind, wp_loadField (by omega) (by omega)]
  refine ⟨hv _ (le_refl _) (by omega) (by omega), ?_⟩
  dsimp only
  have hl := ctz_toNat_lt hx
  have hlbit := BitVec.getLsbD_true_ctz_of_ne_zero hx
  have hllow := fun i (hi : i < _) => BitVec.getLsbD_false_of_lt_ctz
    (x := BitVec.ofNat 16 (fieldOf (s.mem r.addr) 4 2)) (i := i) hi
  generalize hlv : (BitVec.ofNat 16 (fieldOf (s.mem r.addr) 4 2)).ctz.toNat = l at hl hlbit hllow ⊢
  rw [getLsbD_summary] at hlbit
  obtain ⟨hlb, i₀, hi₀, hf₀⟩ := (hdata.lvl1 h48 l hl).mp hlbit
  rw [wp_bind, wp_loadLane (by omega)]
  refine ⟨hv _ (by omega) (by omega) (by omega), ?_⟩
  -- its first free block
  have hy : BitVec.ofNat 16 (fieldOf (s.mem (r.addr + 24 + 8 * (l / 4))) (2 * (l % 4)) 2) ≠ 0 := by
    intro h0
    have := getLsbD_lane (m := s.mem) (a := r.addr) (i := i₀) hl
    rw [h0, hf₀, decide_eq_true hi₀] at this
    simp at this
  have hi := ctz_toNat_lt hy
  have hibit := BitVec.getLsbD_true_ctz_of_ne_zero hy
  have hilow := fun i (hi : i < _) => BitVec.getLsbD_false_of_lt_ctz
    (x := BitVec.ofNat 16 (fieldOf (s.mem (r.addr + 24 + 8 * (l / 4))) (2 * (l % 4)) 2)) (i := i) hi
  generalize hiv : (BitVec.ofNat 16 (fieldOf (s.mem (r.addr + 24 + 8 * (l / 4)))
    (2 * (l % 4)) 2)).ctz.toNat = i at hi hibit hilow ⊢
  rw [getLsbD_lane hl, decide_eq_true hi, Bool.true_and] at hibit
  have hjlt : 16 * l + i < packedBlocks n := hdata.lt_of_free (by omega) hibit
  have hfirst : FirstFree n (freeBit s.mem r.addr) (16 * l + i) := by
    refine ⟨hjlt, hibit, fun j' hj' => ?_⟩
    by_contra hne
    have hf' := eq_true_of_ne_false hne
    rcases Nat.lt_or_ge (j' / 16) l with hlt | hge'
    · have hzero := hllow (j' / 16) hlt
      rw [getLsbD_summary, ← Bool.not_eq_true, hdata.lvl1 h48 (j' / 16) (by omega)] at hzero
      exact hzero ⟨by omega, j' % 16, by omega, by
        rwa [show 16 * (j' / 16) + j' % 16 = j' by omega]⟩
    · have hzero := hilow (j' - 16 * l) (by omega)
      rw [getLsbD_lane hl, decide_eq_true (by omega), Bool.true_and,
        show 16 * l + (j' - 16 * l) = j' by omega, hf'] at hzero
      cases hzero
  generalize hyv : BitVec.ofNat 16 (fieldOf (s.mem (r.addr + 24 + 8 * (l / 4)))
    (2 * (l % 4)) 2) = y
  generalize hxv : BitVec.ofNat 16 (fieldOf (s.mem r.addr) 4 2) = x
  have hv₂ : ∀ i', i' < 16 → (y ^^^ (1#16 <<< i)).toNat.testBit i' =
      Function.update (freeBit s.mem r.addr) (16 * l + i) false (16 * l + i') := by
    intro i' hi'
    rw [testBit_xor_one hi, ← hyv, getLsbD_lane hl, decide_eq_true hi', Bool.true_and]
    by_cases heq : i' = i
    · subst heq
      rw [hibit, Function.update_self, decide_eq_true rfl]
      rfl
    · rw [Function.update_of_ne (by omega), decide_eq_false heq, Bool.xor_false]
  have hv₁ : ∀ l', l' < 16 → ((x ^^^ ((if y ^^^ (1#16 <<< i) = 0 then 1#16 else 0#16) <<<
      l)).toNat.testBit l' = true ↔ if l' = l then
        ∃ i', i' < 16 ∧ (y ^^^ (1#16 <<< i)).toNat.testBit i' = true
      else (fieldOf (s.mem r.addr) 4 2).testBit l' = true) := by
    intro l' hl'
    by_cases hz : y ^^^ (1#16 <<< i) = 0
    · rw [if_pos hz, testBit_xor_one hl, ← hxv, getLsbD_summary]
      by_cases heq : l' = l
      · subst heq
        rw [if_pos rfl, hlbit, decide_eq_true rfl]
        exact iff_of_false (by simp) (bitVec_eq_zero_iff.mp hz)
      · rw [if_neg heq, decide_eq_false heq, Bool.xor_false]
    · rw [if_neg hz]
      have hsame : (x ^^^ (0#16 <<< l)).toNat.testBit l' = (fieldOf (s.mem r.addr) 4 2).testBit l' := by
        rw [BitVec.zero_shiftLeft, BitVec.xor_zero, ← hxv]
        exact getLsbD_summary
      rw [hsame]
      by_cases heq : l' = l
      · subst heq
        rw [if_pos rfl]
        exact iff_of_true hlbit (by
          by_contra hnone
          exact hz (bitVec_eq_zero_iff.mpr hnone))
      · rw [if_neg heq]
  have hb := bitChanged_lane (m := s.mem) (a := r.addr) (j := 16 * l + i) (l := l) (b := false)
    (fieldOf (s.mem r.addr) 2 2 + 1) (by omega) (by omega) (fun _ => by rw [hsize]; omega)
    (by omega) hv₂ hv₁
  rw [wp_bind, wp_incAllocCnt (by omega)]
  refine ⟨hv _ (le_refl _) (by omega) (by omega), ?_⟩
  rw [wp_bind, wp_storeLane (by omega)]
  refine ⟨hv _ (by omega) (by omega) (by omega), ?_⟩
  rw [wp_bind, wp_storeField (by omega) (by omega)]
  refine ⟨hv _ (le_refl _) (by omega) (by omega), ?_⟩
  simp only [Heap.setMem]
  rw [Function.update_of_ne (show r.addr + 24 + 8 * (l / 4) ≠ r.addr by omega),
    Function.update_of_ne (show r.addr ≠ r.addr + 24 + 8 * (l / 4) by omega), Function.update_self]
  generalize hM : Function.update (Function.update (Function.update s.mem r.addr
    (putField (s.mem r.addr) 2 2 (fieldOf (s.mem r.addr) 2 2 + 1))) (r.addr + 24 + 8 * (l / 4)) _)
      r.addr _ = M at hb ⊢
  have hMout : ∀ z, z ≠ r.addr → z < r.addr + 24 ∨ r.addr + 56 ≤ z → M z = s.mem z := by
    intro z hz hout
    rw [← hM, Function.update_of_ne hz, Function.update_of_ne (by omega), Function.update_of_ne hz]
  have hMin : ∀ z, r.addr + packedStart n ≤ z → M z = s.mem z := by
    intro z hz
    rw [← hM, Function.update_of_ne (by omega), Function.update_of_ne (by omega),
      Function.update_of_ne (by omega)]
  have hsmallM : SmallLists { s with mem := M } (PackedFree s.mem (A ++ r :: B)) sb :=
    hsmall.congr (fun _ _ => Iff.rfl) rfl (le_refl _) fun z hz => by
      by_contra hne
      refine packed_not_smallWord hslab (z := z) ?_ hz
      by_contra hcon
      exact hne (hMout z (by omega) (by omega))
  have hin : PackedFree s.mem (A ++ r :: B) r.addr (packedBinIdx n) :=
    (packedFree_insert_packed hk).mpr (.inr ⟨rfl, by rw [hsize]; exact hfree, by rw [hsize]⟩)
  refine wp_call (unlinkFull_spec (a := r.addr) hsmallM fun _ => hin) fun _ t ht => ?_
  obtain ⟨m', sb', rfl, hsmall', hm'⟩ := ht
  have hsame : SameHeader M m' r.addr :=
    ⟨hm' _ (packed_not_smallWord hslab (.inl rfl)),
      fun z h₁ h₂ => hm' z (packed_not_smallWord hslab (.inr (by omega)))⟩
  have hb' := hb.congr_right hsame
  have hfull : x ^^^ ((if y ^^^ (1#16 <<< i) = 0 then 1#16 else 0#16) <<< l) = 0 ↔
      ¬ HasFree (packedSize s.mem r.addr) (freeBit m' r.addr) := by
    have hdata' := hok.taken hb (by rw [hsize]; exact hjlt) hibit
    unfold PackedOk at hdata'
    rw [packedSize_congr hb.low, hsize] at hdata'
    rw [hsame.freeBit, hsize, ← hdata'.lvl1_zero_iff h48 (Nat.mod_lt _ (by decide)), ← hM,
      Function.update_self, fieldOf_putField_self, ← BitVec.toNat_inj]
    rw [show (256 : Nat) ^ 2 = 2 ^ 16 from rfl, Nat.mod_eq_of_lt (BitVec.isLt _)]
    exact Iff.rfl
  refine wp_pure.mpr ⟨16 * l + i, hfirst, ?_, packedTaken hinv hk hb' (by rw [hsize]; exact hjlt) hibit
    hfull (fun z hz hne hout => (hm' z hz).trans (hMout z hne hout)) (fun z h₁ h₂ => ?_) hsmall'⟩
  · unfold packedBlock packedStart
    rw [if_pos h48, Nat.mul_comm l 16, Nat.mul_comm (16 * l + i) n]
    omega
  · rw [hsize] at h₁
    exact (hm' z (packed_not_smallWord hslab (.inr (by omega)))).trans (hMin z h₁)

/-- **`__packed_alloc`** of a slab with a free block. -/
theorem _packedAlloc_spec (hinv : HeapInv strict s (A ++ r :: B)) (hk : r.kind = .packed)
    (hsize : packedSize s.mem r.addr = n) (h48 : 48 < n) (hfree : HasFree n (freeBit s.mem r.addr)) :
    wp (_packedAlloc r.addr n) (fun p t => ∃ j, FirstFree n (freeBit s.mem r.addr) j ∧
      p = packedBlock r.addr n j ∧ PackedTaken strict s A r B j t) s := by
  obtain ⟨hok, -, -, hn1, hal, hge, hroom, hstop⟩ := hinv.packed_facts (r := r) (by simp) hk
  obtain ⟨bins, hslab⟩ := hinv.slab
  obtain ⟨sb, hsmall⟩ := hinv.small
  have hdata : PackedData n (freeBit s.mem r.addr) (fieldOf (s.mem r.addr) 2 2)
      (fieldOf (s.mem r.addr) 4 2) := hsize ▸ hok
  have hbits : packedBlocks n ≤ 64 := hdata.blocks_le h48
  have hcnt := hdata.cnt_le
  have hv : ∀ x, r.addr ≤ x → x + 8 ≤ r.addr + 4096 → x % 8 = 0 → s.Valid x :=
    fun x _ _ _ => ⟨by omega, by omega, by omega⟩
  -- the first free block
  obtain ⟨j₀, hj₀, hf₀⟩ := hfree
  have hx : BitVec.ofNat 64 (s.mem (r.addr + 24)) ≠ 0 := by
    intro h0
    have := getLsbD_word (m := s.mem) (a := r.addr) (i := j₀)
    rw [h0, hf₀, decide_eq_true (by omega)] at this
    simp at this
  unfold _packedAlloc
  rw [wp_bind, wp_load64]
  refine ⟨hv _ (by omega) (by omega) (by omega), ?_⟩
  dsimp only
  have hj := ctz_toNat_lt hx
  have hbit := BitVec.getLsbD_true_ctz_of_ne_zero hx
  have hlow := fun i (hi : i < _) => BitVec.getLsbD_false_of_lt_ctz
    (x := BitVec.ofNat 64 (s.mem (r.addr + 24))) (i := i) hi
  generalize hjv : (BitVec.ofNat 64 (s.mem (r.addr + 24))).ctz.toNat = j at hj hbit hlow ⊢
  rw [getLsbD_word, decide_eq_true hj, Bool.true_and] at hbit
  have hfirst : FirstFree n (freeBit s.mem r.addr) j := by
    refine ⟨hdata.lt_of_free (by have := (packedBits_facts n).1; omega) hbit, hbit, fun i hi => ?_⟩
    have hzero := hlow i hi
    rwa [getLsbD_word, decide_eq_true (by omega), Bool.true_and] at hzero
  generalize hxv : BitVec.ofNat 64 (s.mem (r.addr + 24)) = x
  have hv₁ : ∀ i, i < 64 → (x ^^^ (1#64 <<< j)).toNat.testBit i =
      Function.update (freeBit s.mem r.addr) j false i := by
    intro i hi
    rw [testBit_xor_one hj, ← hxv, getLsbD_word, decide_eq_true hi, Bool.true_and]
    by_cases heq : i = j
    · subst heq
      rw [hbit, Function.update_self, decide_eq_true rfl]
      rfl
    · rw [Function.update_of_ne heq, decide_eq_false heq, Bool.xor_false]
  have hin : PackedFree s.mem (A ++ r :: B) r.addr (packedBinIdx n) :=
    (packedFree_insert_packed hk).mpr (.inr ⟨rfl, by rw [hsize]; exact ⟨j₀, hj₀, hf₀⟩, by rw [hsize]⟩)
  rw [wp_bind]
  refine wp_mono (unlinkFull_spec (a := r.addr) hsmall fun _ => hin) fun _ t ht => ?_
  obtain ⟨m', sb', rfl, hsmall', hm'⟩ := ht
  have hsame : SameHeader s.mem m' r.addr :=
    ⟨hm' _ (packed_not_smallWord hslab (.inl rfl)),
      fun z h₁ h₂ => hm' z (packed_not_smallWord hslab (.inr (by omega)))⟩
  rw [wp_bind, wp_incAllocCnt (by omega)]
  refine ⟨hv _ (le_refl _) (by omega) (by omega), ?_⟩
  rw [wp_bind, wp_store64]
  refine ⟨hv _ (by omega) (by omega) (by omega), ?_⟩
  simp only [Heap.setMem]
  rw [hsame.1]
  have hb := (bitChanged_word (m := m') (a := r.addr) (j := j) (b := false)
    (fieldOf (s.mem r.addr) 2 2 + 1) (v := (x ^^^ (1#64 <<< j)).toNat)
    (by rw [packedSize_congr (m := s.mem) fun i _ => by rw [hsame.1], hsize]; exact h48) hj
    (by omega) (by rw [hsame.freeBit]; exact hv₁)).congr_left hsame
  rw [hsame.1] at hb
  generalize hM : Function.update (Function.update m' r.addr _) (r.addr + 24) _ = M at hb ⊢
  have hMout : ∀ z, z ≠ r.addr → z < r.addr + 24 ∨ r.addr + 56 ≤ z → M z = m' z := by
    intro z hz hout
    rw [← hM, Function.update_of_ne (by omega), Function.update_of_ne hz]
  have hfull : x ^^^ (1#64 <<< j) = 0 ↔
      ¬ HasFree (packedSize s.mem r.addr) (freeBit M r.addr) := by
    rw [bitVec_eq_zero_iff, hsize, not_iff_not, hb.free]
    constructor
    · rintro ⟨i, hi, hbi⟩
      rw [hv₁ i hi] at hbi
      refine ⟨i, ?_, hbi⟩
      by_cases heq : i = j
      · rw [heq, Function.update_self] at hbi
        cases hbi
      · rw [Function.update_of_ne heq] at hbi
        exact hdata.lt_of_free (by have := (packedBits_facts n).1; omega) hbi
    · rintro ⟨i, hi, hbi⟩
      exact ⟨i, by omega, by rw [hv₁ i (by omega)]; exact hbi⟩
  refine wp_pure.mpr ⟨j, hfirst, ?_, packedTaken hinv hk hb (by rw [hsize]; exact hfirst.lt) hbit
    hfull (fun z hz hne hout => (hMout z hne hout).trans (hm' z hz)) (fun z h₁ h₂ => ?_)
    (hsmall'.congr (fun _ _ => Iff.rfl) rfl (le_refl _) fun z hz => ?_)⟩
  · unfold packedBlock packedStart
    rw [if_neg (by omega), Nat.mul_comm j n]
    omega
  · have hfacts := packedSizes_facts hdata.size_mem
    rw [hsize] at h₁
    rw [← hm' z (packed_not_smallWord hslab (.inr (by omega))), ← hM,
      Function.update_of_ne (by omega), Function.update_of_ne (by omega)]
  · by_contra hne
    refine packed_not_smallWord hslab (z := z) ?_ (hz.mono fun _ _ h => h.1)
    by_contra hcon
    exact hne (hMout z (by omega) (by omega))

/-! ## Freeing a block -/

/-- Block `j` of the slab `r` has been freed: the slab is given back if it was the only
allocated one. -/
structure PackedGiven (strict : Prop) (s : Heap) (A : List Region) (r : Region) (B : List Region)
    (j : Nat) (t : Heap) : Prop where
  kept : 1 < fieldOf (s.mem r.addr) 2 2 → Repacked strict s A r B t ∧
    BitChanged s.mem t.mem r.addr j true (fieldOf (s.mem r.addr) 2 2 - 1)
  /-- the blocks of the slab are not written -/
  inner : 1 < fieldOf (s.mem r.addr) 2 2 → ∀ x, r.addr + packedStart (packedSize s.mem r.addr) ≤ x →
    x < r.addr + 4096 → t.mem x = s.mem x
  gone : fieldOf (s.mem r.addr) 2 2 = 1 → Released strict s A r B t

theorem PackedOk.given {m m' : Nat → Nat} (h : PackedOk m a)
    (hb : BitChanged m m' a j true (fieldOf (m a) 2 2 - 1)) (hcnt : 1 < fieldOf (m a) 2 2)
    (hj : j < packedBlocks (packedSize m a)) (hf : freeBit m a j = false) : PackedOk m' a := by
  unfold PackedOk
  rw [packedSize_congr hb.low, hb.free, hb.cnt]
  exact PackedData.give h hj hf hcnt fun h48 => hb.lvl1 h48 (h.lvl1 h48)

/-- The end of a free: the header has been written, and the slab is given back if no
block of it is allocated. -/
theorem packedGiven (hinv : HeapInv strict s (A ++ r :: B)) (hk : r.kind = .packed)
    (hb : BitChanged s.mem m' r.addr j true (fieldOf (s.mem r.addr) 2 2 - 1))
    (hj : j < packedBlocks (packedSize s.mem r.addr)) (hf : freeBit s.mem r.addr j = false)
    (hm : ∀ x, ¬ SmallWord s.heap (PackedFree s.mem (A ++ B)) x → x < r.addr ∨ r.stop ≤ x →
      m' x = s.mem x)
    (hin : ∀ x, r.addr + packedStart (packedSize s.mem r.addr) ≤ x → x < r.addr + 4096 →
      m' x = s.mem x)
    (hsmall : SmallLists { s with mem := m' } (fun y i => PackedFree s.mem (A ++ B) y i ∨
      (y = r.addr ∧ i = packedBinIdx (packedSize s.mem r.addr))) sb) :
    wp (if fieldOf (s.mem r.addr) 2 2 - 1 = 0 then do
          smallBinUnlink r.addr
          _intFreeSlab r.addr 1
        else pure ()) (fun _ t => PackedGiven strict s A r B j t) { s with mem := m' } := by
  obtain ⟨hok, -, -, hn1, hal, hge, hroom, hstop⟩ := hinv.packed_facts (r := r) (by simp) hk
  obtain ⟨bins, hslab⟩ := hinv.slab
  have hpos : 0 < fieldOf (s.mem r.addr) 2 2 := hok.pos
  have hsize := packedSize_congr hb.low
  rw [wp_ite]
  by_cases h1 : fieldOf (s.mem r.addr) 2 2 = 1
  · -- the last block: the slab leaves its bin and the heap
    rw [if_pos (by omega)]
    refine wp_call (hsmall.unlink (.inr ⟨rfl, rfl⟩)) fun _ t ht => ?_
    obtain ⟨m'', sb', rfl, hsmall', hm''⟩ := ht
    have hout : ∀ x, ¬ SmallWord s.heap (PackedFree s.mem (A ++ B)) x →
        x = r.addr ∨ x < r.addr ∨ r.stop ≤ x → m'' x = m' x := by
      intro x hx hxr
      refine hm'' x ?_
      rintro (hpage | ⟨y, i, hy | ⟨rfl, -⟩, hxy⟩)
      · exact hx (.inl hpage)
      · exact hx (.inr ⟨y, i, hy, hxy⟩)
      · omega
    have hhead : m'' r.addr = m' r.addr := hout _ (fun hx => packed_not_smallWord hslab (.inl rfl)
      (hx.mono fun y i hy => (packedFree_insert_packed hk).mpr (.inl hy))) (.inl rfl)
    refine wp_mono (hinv.released m'' hk
      (fun x hx hxr => (hout x hx (.inr hxr)).trans (hm x hx hxr))
      (fun i hi => by rw [hhead, hb.low i hi])
      (hsmall'.congr (fun y i => ?_) rfl (le_refl _) fun _ _ => rfl)) fun _ t ht =>
        ⟨fun hcon => absurd h1 (by omega), fun hcon => absurd h1 (by omega), fun _ => ht⟩
    constructor
    · exact fun hy => ⟨.inl hy, packedFree_ne hslab hy⟩
    · rintro ⟨hy | hy, hne⟩
      · exact hy
      · exact absurd hy.1 hne
  · rw [if_neg (by omega)]
    refine wp_pure.mpr ⟨fun hcnt => ⟨hinv.repacked _ hk hm hb.low (hok.given hb hcnt hj hf)
      (hsmall.congr (fun y i => or_congr_right (and_congr_right fun _ => ?_)) rfl (le_refl _)
        fun _ _ => rfl), hb⟩, fun _ => hin, fun hcon => absurd hcon h1⟩
    unfold PackedIn
    rw [hsize]
    constructor
    · rintro ⟨-, rfl⟩
      rfl
    · rintro rfl
      exact ⟨⟨j, hj, by rw [hb.free, Function.update_self]⟩, rfl⟩

/-- The state after the slab has been linked, if it was full. -/
theorem linkedFull {P' : Nat → Nat → Prop} (hk : r.kind = .packed) {c : Prop}
    (hc : c ↔ ¬ HasFree (packedSize s.mem r.addr) (freeBit s.mem r.addr))
    (hP : ∀ y i, P' y i ↔ PackedFree s.mem (A ++ r :: B) y i ∨
      (c ∧ y = r.addr ∧ i = packedBinIdx (packedSize s.mem r.addr))) (y i : Nat) :
    P' y i ↔ PackedFree s.mem (A ++ B) y i ∨
      (y = r.addr ∧ i = packedBinIdx (packedSize s.mem r.addr)) := by
  rw [hP, packedFree_insert_packed hk]
  unfold PackedIn
  by_cases hf : HasFree (packedSize s.mem r.addr) (freeBit s.mem r.addr)
  · have hnc : ¬ c := fun h => hc.mp h hf
    constructor
    · rintro ((h | ⟨h₁, -, h₂⟩) | ⟨h, -⟩)
      · exact .inl h
      · exact .inr ⟨h₁, h₂.symm⟩
      · exact absurd h hnc
    · rintro (h | ⟨h₁, h₂⟩)
      · exact .inl (.inl h)
      · exact .inl (.inr ⟨h₁, hf, h₂.symm⟩)
  · have hcc : c := hc.mpr hf
    constructor
    · rintro ((h | ⟨-, h, -⟩) | ⟨-, h⟩)
      · exact .inl h
      · exact absurd h hf
      · exact .inr h
    · rintro (h | h)
      · exact .inl (.inl h)
      · exact .inr ⟨hcc, h⟩

/-- The words written by linking a slab are links of packed slabs. -/
theorem linkFull_frame (hslab : SlabInv s (A ++ r :: B) bins) (hk : r.kind = .packed)
    (hm : ∀ x, ¬ SmallWord s.heap (fun y i => PackedFree s.mem (A ++ r :: B) y i ∨
      (y = r.addr ∧ i = packedBinIdx n)) x → m' x = s.mem x) :
    SameHeader s.mem m' r.addr ∧ (∀ x, r.addr + 24 ≤ x → x < r.addr + 4096 → m' x = s.mem x) ∧
      ∀ x, ¬ SmallWord s.heap (PackedFree s.mem (A ++ B)) x → x < r.addr ∨ r.stop ≤ x →
        m' x = s.mem x := by
  obtain ⟨hn, -, hge, -⟩ := hslab.mem_facts (r := r) (by simp)
  have hlen := Region.addr_lt_stop hn
  have hword : ∀ x, SmallWord s.heap (fun y i => PackedFree s.mem (A ++ r :: B) y i ∨
      (y = r.addr ∧ i = packedBinIdx n)) x →
      SmallWord s.heap (PackedFree s.mem (A ++ B)) x ∨ x = r.addr + 8 ∨ x = r.addr + 16 := by
    rintro x (hpage | ⟨y, i, hy | ⟨rfl, -⟩, hxy⟩)
    · exact .inl (.inl hpage)
    · rcases (packedFree_insert_packed hk).mp hy with hy | ⟨rfl, -⟩
      · exact .inl (.inr ⟨y, i, hy, hxy⟩)
      · exact .inr hxy
    · exact .inr hxy
  have hnot : ∀ x, x = r.addr ∨ (r.addr + 24 ≤ x ∧ x < r.addr + 4096) → m' x = s.mem x := by
    intro x hx
    refine hm x fun hw => ?_
    rcases hword x hw with hw | hw
    · refine packed_not_smallWord hslab (z := x) (by omega) (hw.mono fun y i hy => ?_)
      exact (packedFree_insert_packed hk).mpr (.inl hy)
    · omega
  refine ⟨⟨hnot _ (.inl rfl), fun x h₁ h₂ => hnot x (.inr ⟨h₁, by omega⟩)⟩,
    fun x h₁ h₂ => hnot x (.inr ⟨h₁, h₂⟩), fun x hx hxr => hm x fun hw => ?_⟩
  rcases hword x hw with hw | hw
  · exact hx hw
  · omega

/-- The header words of a slab that is linked are no links. -/
theorem linkedWord {z : Nat} {c : Prop} (hslab : SlabInv s (A ++ r :: B) bins)
    (hz : SmallWord s.heap (fun y i => PackedFree s.mem (A ++ r :: B) y i ∨
      (c ∧ y = r.addr ∧ i = packedBinIdx n)) z) :
    z ≠ r.addr ∧ (z < r.addr + 24 ∨ r.addr + 56 ≤ z) := by
  have hz' : SmallWord s.heap (PackedFree s.mem (A ++ r :: B)) z ∨ z = r.addr + 8 ∨
      z = r.addr + 16 := by
    rcases hz with hpage | ⟨y, i, hy | ⟨-, rfl, -⟩, hxy⟩
    · exact .inl (.inl hpage)
    · exact .inl (.inr ⟨y, i, hy, hxy⟩)
    · exact .inr hxy
  rcases hz' with hz' | hz'
  · have : ¬ (z = r.addr ∨ (r.addr + 24 ≤ z ∧ z < r.addr + 4096)) :=
      fun h => packed_not_smallWord hslab h hz'
    omega
  · omega

theorem packedIdx_eq {st sz j : Nat} (h0 : 0 < sz) : (a + st + sz * j - a - st) / sz = j := by
  rw [show a + st + sz * j - a - st = sz * j by omega, Nat.mul_div_cancel_left _ h0]

/-- **`__packed_free_N`** of an allocated block. -/
theorem _packedFreeN_spec (hinv : HeapInv strict s (A ++ r :: B)) (hk : r.kind = .packed)
    (hsize : packedSize s.mem r.addr = n) (h48 : n ≤ 48) (hj : j < packedBlocks n)
    (hf : freeBit s.mem r.addr j = false) :
    wp (_packedFreeN n r.addr (packedBlock r.addr n j))
      (fun _ t => PackedGiven strict s A r B j t) s := by
  obtain ⟨hok, -, -, hn1, hal, hge, hroom, hstop⟩ := hinv.packed_facts (r := r) (by simp) hk
  obtain ⟨bins, hslab⟩ := hinv.slab
  obtain ⟨sb, hsmall⟩ := hinv.small
  have hdata : PackedData n (freeBit s.mem r.addr) (fieldOf (s.mem r.addr) 2 2)
      (fieldOf (s.mem r.addr) 4 2) := hsize ▸ hok
  have hfacts := packedSizes_facts hdata.size_mem
  have hbits := packedBits_facts n
  have hcnt := hdata.cnt_le
  have hpos := hdata.pos
  have hv : ∀ x, r.addr ≤ x → x + 8 ≤ r.addr + 4096 → x % 8 = 0 → s.Valid x :=
    fun x _ _ _ => ⟨by omega, by omega, by omega⟩
  have hlt16 : fieldOf (s.mem r.addr) 4 2 < 2 ^ 16 := Nat.mod_lt _ (by decide)
  have hidx : (packedBlock r.addr n j - r.addr - packedSlabNHeaderSize n) / n = j := by
    have hst : packedStart n = packedSlabNHeaderSize n := if_pos h48
    unfold packedBlock
    rw [hst]
    exact packedIdx_eq (by omega)
  unfold _packedFreeN
  rw [hidx]
  dsimp only
  have hl : j / 16 < 16 := by omega
  rw [wp_bind, wp_loadField (by omega) (by omega)]
  refine ⟨hv _ (le_refl _) (by omega) (by omega), ?_⟩
  rw [wp_bind, wp_loadLane (by omega)]
  refine ⟨hv _ (by omega) (by omega) (by omega), ?_⟩
  rw [wp_bind, wp_loadField (by omega) (by omega)]
  refine ⟨hv _ (le_refl _) (by omega) (by omega), ?_⟩
  rw [show (fieldOf (s.mem r.addr) 2 2 + 65535) % 65536 = fieldOf (s.mem r.addr) 2 2 - 1 by omega]
  have hfull : BitVec.ofNat 16 (fieldOf (s.mem r.addr) 4 2) = 0 ↔
      ¬ HasFree (packedSize s.mem r.addr) (freeBit s.mem r.addr) := by
    rw [hsize, ← hdata.lvl1_zero_iff h48 hlt16, ← BitVec.toNat_inj, BitVec.toNat_ofNat,
      Nat.mod_eq_of_lt hlt16]
    exact Iff.rfl
  generalize hyv : BitVec.ofNat 16 (fieldOf (s.mem (r.addr + 24 + 8 * (j / 16 / 4)))
    (2 * (j / 16 % 4)) 2) = y
  generalize hxv : BitVec.ofNat 16 (fieldOf (s.mem r.addr) 4 2) = x at hfull ⊢
  have hv₂ : ∀ i', i' < 16 → (y ||| (1#16 <<< (j % 16))).toNat.testBit i' =
      Function.update (freeBit s.mem r.addr) j true (16 * (j / 16) + i') := by
    intro i' hi'
    rw [testBit_or_one (by omega), ← hyv, getLsbD_lane hl, decide_eq_true hi', Bool.true_and]
    by_cases heq : i' = j % 16
    · rw [show 16 * (j / 16) + i' = j by omega, Function.update_self, decide_eq_true heq,
        Bool.or_true]
    · rw [Function.update_of_ne (by omega), decide_eq_false heq, Bool.or_false]
  have hv₁ : ∀ l', l' < 16 → ((x ||| (1#16 <<< (j / 16))).toNat.testBit l' = true ↔
      if l' = j / 16 then ∃ i', i' < 16 ∧ (y ||| (1#16 <<< (j % 16))).toNat.testBit i' = true
      else (fieldOf (s.mem r.addr) 4 2).testBit l' = true) := by
    intro l' hl'
    rw [testBit_or_one hl, ← hxv, getLsbD_summary]
    by_cases heq : l' = j / 16
    · rw [if_pos heq, decide_eq_true heq, Bool.or_true]
      refine iff_of_true rfl ⟨j % 16, by omega, ?_⟩
      rw [hv₂ _ (by omega), show 16 * (j / 16) + j % 16 = j by omega, Function.update_self]
    · rw [if_neg heq, decide_eq_false heq, Bool.or_false]
  refine wp_call (linkFull_spec (x := r.addr) hsmall hal hge (by omega)
    (show packedBinIdx n < 23 by omega) fun hc i hi => ?_) fun _ t ht => ?_
  · rcases (packedFree_insert_packed hk).mp hi with hi | ⟨-, hi⟩
    · exact packedFree_ne hslab hi rfl
    · exact hfull.mp hc hi.1
  obtain ⟨m', sb', rfl, hsmall', hm'⟩ := ht
  obtain ⟨hsame, hkeep, hm⟩ := linkFull_frame hslab hk hm'
  have hb := (bitChanged_lane (m := m') (a := r.addr) (j := j) (l := j / 16) (b := true)
    (fieldOf (s.mem r.addr) 2 2 - 1) rfl (by omega)
    (fun _ => by rw [packedSize_congr (m := s.mem) fun i _ => by rw [hsame.1], hsize]; omega)
    (by omega) (by rw [hsame.freeBit]; exact hv₂) (by rw [hsame.1]; exact hv₁)).congr_left hsame
  rw [wp_bind, wp_storeField (by omega) (by omega)]
  refine ⟨hv _ (le_refl _) (by omega) (by omega), ?_⟩
  rw [wp_bind, wp_storeLane (by omega)]
  refine ⟨hv _ (by omega) (by omega) (by omega), ?_⟩
  rw [wp_bind, wp_storeField (by omega) (by omega)]
  refine ⟨hv _ (le_refl _) (by omega) (by omega), ?_⟩
  simp only [Heap.setMem]
  rw [Function.update_of_ne (show r.addr + 24 + 8 * (j / 16 / 4) ≠ r.addr by omega),
    Function.update_of_ne (show r.addr ≠ r.addr + 24 + 8 * (j / 16 / 4) by omega),
    Function.update_self]
  generalize hM : Function.update (Function.update (Function.update m' r.addr _)
    (r.addr + 24 + 8 * (j / 16 / 4)) _) r.addr _ = M at hb ⊢
  have hMout : ∀ z, z ≠ r.addr → z < r.addr + 24 ∨ r.addr + 56 ≤ z → M z = m' z := by
    intro z hz hout
    rw [← hM, Function.update_of_ne hz, Function.update_of_ne (by omega), Function.update_of_ne hz]
  have hMin : ∀ z, r.addr + packedStart n ≤ z → M z = m' z := by
    intro z hz
    rw [← hM, Function.update_of_ne (by omega), Function.update_of_ne (by omega),
      Function.update_of_ne (by omega)]
  refine packedGiven hinv hk hb (by rw [hsize]; exact hj) hf
    (fun z hz hout => (hMout z (by omega) (by omega)).trans (hm z hz hout))
    (fun z h₁ h₂ => (hMin z (by rwa [hsize] at h₁)).trans (hkeep z (by rw [hsize] at h₁; omega) h₂))
    (hsmall'.congr (fun y i => ((linkedFull hk hfull (fun _ _ => by rw [hsize]) y i).symm))
      rfl (le_refl _) fun z hz => ?_)
  obtain ⟨hz₁, hz₂⟩ := linkedWord hslab hz
  exact hMout z hz₁ hz₂

/-- **`__packed_free`** of an allocated block. -/
theorem _packedFree_spec (hinv : HeapInv strict s (A ++ r :: B)) (hk : r.kind = .packed)
    (hsize : packedSize s.mem r.addr = n) (h48 : 48 < n) (hj : j < packedBlocks n)
    (hf : freeBit s.mem r.addr j = false) :
    wp (_packedFree r.addr (packedBlock r.addr n j) (fieldOf (s.mem r.addr) 1 1))
      (fun _ t => PackedGiven strict s A r B j t) s := by
  obtain ⟨hok, -, -, hn1, hal, hge, hroom, hstop⟩ := hinv.packed_facts (r := r) (by simp) hk
  obtain ⟨bins, hslab⟩ := hinv.slab
  obtain ⟨sb, hsmall⟩ := hinv.small
  have hdata : PackedData n (freeBit s.mem r.addr) (fieldOf (s.mem r.addr) 2 2)
      (fieldOf (s.mem r.addr) 4 2) := hsize ▸ hok
  have hfacts := packedSizes_facts hdata.size_mem
  have hbits : packedBlocks n ≤ 64 := hdata.blocks_le h48
  have hcnt := hdata.cnt_le
  have hpos := hdata.pos
  have hv : ∀ x, r.addr ≤ x → x + 8 ≤ r.addr + 4096 → x % 8 = 0 → s.Valid x :=
    fun x _ _ _ => ⟨by omega, by omega, by omega⟩
  have hclass : szClassToSize (fieldOf (s.mem r.addr) 1 1) = n := by
    rw [← hsize]
    unfold szClassToSize packedSize mallocAlign
    omega
  have hidx : (packedBlock r.addr n j - r.addr - packedSlabHeaderSize) / n = j := by
    have hst : packedStart n = packedSlabHeaderSize := if_neg (by omega)
    unfold packedBlock
    rw [hst]
    exact packedIdx_eq (by omega)
  unfold _packedFree
  rw [hclass]
  dsimp only
  rw [hidx]
  have hj64 : j < 64 := by omega
  rw [wp_bind, wp_loadField (by omega) (by omega)]
  refine ⟨hv _ (le_refl _) (by omega) (by omega), ?_⟩
  rw [wp_bind, wp_load64]
  refine ⟨hv _ (by omega) (by omega) (by omega), ?_⟩
  rw [show (fieldOf (s.mem r.addr) 2 2 + 65535) % 65536 = fieldOf (s.mem r.addr) 2 2 - 1 by omega]
  have hfull : BitVec.ofNat 64 (s.mem (r.addr + 24)) = 0 ↔
      ¬ HasFree (packedSize s.mem r.addr) (freeBit s.mem r.addr) := by
    rw [bitVec_eq_zero_iff, hsize, not_iff_not]
    constructor
    · rintro ⟨i, hi, hbi⟩
      rw [BitVec.testBit_toNat, getLsbD_word, decide_eq_true hi, Bool.true_and] at hbi
      exact ⟨i, hdata.lt_of_free (by have := (packedBits_facts n).1; omega) hbi, hbi⟩
    · rintro ⟨i, hi, hbi⟩
      refine ⟨i, by omega, ?_⟩
      rw [BitVec.testBit_toNat, getLsbD_word, decide_eq_true (by omega), Bool.true_and, hbi]
  generalize hxv : BitVec.ofNat 64 (s.mem (r.addr + 24)) = x at hfull ⊢
  have hv₁ : ∀ i, i < 64 → (x ||| (1#64 <<< j)).toNat.testBit i =
      Function.update (freeBit s.mem r.addr) j true i := by
    intro i hi
    rw [testBit_or_one hj64, ← hxv, getLsbD_word, decide_eq_true hi, Bool.true_and]
    by_cases heq : i = j
    · rw [heq, Function.update_self, decide_eq_true rfl, Bool.or_true]
    · rw [Function.update_of_ne heq, decide_eq_false heq, Bool.or_false]
  refine wp_call (linkFull_spec (x := r.addr) hsmall hal hge (by omega)
    (show packedBinIdx n < 23 by omega) fun hc i hi => ?_) fun _ t ht => ?_
  · rcases (packedFree_insert_packed hk).mp hi with hi | ⟨-, hi⟩
    · exact packedFree_ne hslab hi rfl
    · exact hfull.mp hc hi.1
  obtain ⟨m', sb', rfl, hsmall', hm'⟩ := ht
  obtain ⟨hsame, hkeep, hm⟩ := linkFull_frame hslab hk hm'
  have hb := (bitChanged_word (m := m') (a := r.addr) (j := j) (b := true)
    (fieldOf (s.mem r.addr) 2 2 - 1) (v := (x ||| (1#64 <<< j)).toNat)
    (by rw [packedSize_congr (m := s.mem) fun i _ => by rw [hsame.1], hsize]; exact h48) hj64
    (by omega) (by rw [hsame.freeBit]; exact hv₁)).congr_left hsame
  rw [wp_bind, wp_storeField (by omega) (by omega)]
  refine ⟨hv _ (le_refl _) (by omega) (by omega), ?_⟩
  rw [wp_bind, wp_store64]
  refine ⟨hv _ (by omega) (by omega) (by omega), ?_⟩
  simp only [Heap.setMem]
  generalize hM : Function.update (Function.update m' r.addr _) (r.addr + 24) _ = M at hb ⊢
  have hMout : ∀ z, z ≠ r.addr → z < r.addr + 24 ∨ r.addr + 56 ≤ z → M z = m' z := by
    intro z hz hout
    rw [← hM, Function.update_of_ne (by omega), Function.update_of_ne hz]
  have hMin : ∀ z, r.addr + packedStart n ≤ z → M z = m' z := by
    intro z hz
    rw [← hM, Function.update_of_ne (by omega), Function.update_of_ne (by omega)]
  refine packedGiven hinv hk hb (by rw [hsize]; exact hj) hf
    (fun z hz hout => (hMout z (by omega) (by omega)).trans (hm z hz hout))
    (fun z h₁ h₂ => (hMin z (by rwa [hsize] at h₁)).trans (hkeep z (by rw [hsize] at h₁; omega) h₂))
    (hsmall'.congr (fun y i => ((linkedFull hk hfull (fun _ _ => by rw [hsize]) y i).symm))
      rfl (le_refl _) fun z hz => ?_)
  obtain ⟨hz₁, hz₂⟩ := linkedWord hslab hz
  exact hMout z hz₁ hz₂

end

end MallocBench.Slab
