import MallocBench.Slab.SlabFree
import MallocBench.Lib.Bits

/-!
# Taking slabs

The specifications of `__int_take_slab` and `__int_alloc_slab`: slabs are taken
from the front of a free region, whose rest stays free, or from new memory at
the end of the heap.
-/

namespace MallocBench.Slab

open Lib

/-- What is left of the free region `f` and what follows it, when its first `n`
slabs are taken. -/
def takeRest (f : Region) (n : Nat) (B : List Region) : List Region :=
  if f.n = n then B else ⟨f.addr + 4096 * n, f.n - n, .free⟩ :: B

section

variable {s t : Heap} {A B L : List Region} {a b y k n : Nat} {p q : Bool} {r f : Region}
  {bins : Nat → List Nat}

theorem takeRest_sameAlloc : SameAlloc (A ++ B) (A ++ takeRest f n B) := by
  intro r hr
  unfold takeRest
  split
  · rfl
  · have hne : r ≠ ⟨f.addr + 4096 * n, f.n - n, .free⟩ := by
      rintro rfl
      exact hr rfl
    simp [hne]

theorem slabLinkSmall_eq (hk : 0 < k) (hk' : k ≤ 127) : slabLinkSmall y k = slabLink y k := by
  unfold slabLinkSmall slabLink
  have hidx : slabBinIdxSmall k = slabBinIdx k := by
    rw [slabBinIdx_small hk hk']
    unfold slabBinIdxSmall
    omega
  simp only [hidx, maxSegSlabSz, hk', if_true]

/-! ## The rest of a region -/

theorem linkRemainder_gap (h : Gap s A a p b false B bins) {sz : Nat} (hay : a ≤ y)
    (hal : y % 4096 = 0) (hb : y + 4096 * sz = b) (hn : n < sz) :
    wp (linkRemainder slabLink y sz n) (fun _ t => (∃ bins',
        Gap t A a p (y + 4096 * n) true (⟨y + 4096 * n, sz - n, .free⟩ :: B) bins') ∧
      Frame (FreeWord s.heap (A ++ ⟨y + 4096 * n, sz - n, .free⟩ :: B)) (fun _ => False) s t ∧
      t.heapEnd = s.heapEnd) s := by
  unfold linkRemainder
  simp only [wp_bind, slabSize, wp_store8_flags (show (y + 4096 * n) % 8 = 0 by omega), hb]
  refine ⟨h.tiling.valid (by omega) (by omega) (by omega), ?_⟩
  have h₁ := h.setMem (v := putField (s.mem (y + 4096 * n)) 0 1 2) (by omega)
    (show y + 4096 * n < b by omega)
  refine wp_mono (slabLink_gap (y := y + 4096 * n) (k := sz - n) h₁ (by omega) (by omega) (by omega)
    (by omega)) ?_
  rintro _ _ ⟨m', sk, bins', rfl, hlinked, hm⟩
  have hpos : ∀ r ∈ A ++ ⟨y + 4096 * n, sz - n, .free⟩ :: B, 0 < r.n := by
    intro r hr
    rcases List.mem_append.mp hr with hr | hr
    · exact (h.tiling.mem_outside (List.mem_append_left _ hr)).1
    · rcases List.mem_cons.mp hr with rfl | hr
      · simp only
        omega
      · exact (h.tiling.mem_outside (List.mem_append_right _ hr)).1
  have hhdr : m' (y + 4096 * n) = putField (s.mem (y + 4096 * n)) 0 1 2 := by
    rw [hm _ (hlinked.tiling.not_linkWord_cons (by omega) (by omega) (by simp) (by simp))]
    exact Function.update_self _ _ _
  simp only [wp_store64]
  refine ⟨hlinked.tiling.valid (by omega) (by omega) (by omega),
    hlinked.tiling.valid (by omega) (by omega) (by omega), ⟨bins', ?_⟩, ?_, rfl⟩
  · have hl := (hlinked.setMem (v := sz - n) (x := y + 4096 * n + 24) (by omega) (by omega) (by simp)
      (by simp)).setMem (v := sz - n) (x := b - 8) (by omega) (by omega)
      (show b - 8 ≠ y + 4096 * n + 8 by omega) (show b - 8 ≠ y + 4096 * n + 16 by omega)
    have hstop : b = (⟨y + 4096 * n, sz - n, .free⟩ : Region).stop := by
      simp only [Region.stop]
      omega
    rw [hstop] at hl ⊢
    refine hl.close rfl (by simp only; omega) (by simp only; omega) ⟨by simp only; omega, ?_, ?_, ?_⟩
    · rw [← hstop]
      simp only [setMem_mem]
      rw [Function.update_of_ne (by omega), Function.update_of_ne (by omega), hhdr,
        testBit_putField]
      rfl
    · rw [← hstop]
      simp only [setMem_mem]
      rw [Function.update_of_ne (by omega), Function.update_of_ne (by omega), hhdr,
        testBit_putField]
      rfl
    · rw [← hstop]
      constructor
      · simp only [setMem_mem]
        rw [Function.update_of_ne (by omega), Function.update_self]
      · exact Function.update_self _ _ _
  · refine ⟨rfl, rfl, le_refl _, fun x hx => .inl ?_⟩
    have hxy : x < y + 4096 * n ∨ b ≤ x := by
      by_contra hcon
      exact hx (.inr ⟨⟨y + 4096 * n, sz - n, .free⟩, by simp, rfl, by simp only; omega,
        by simp only [Region.stop]; omega⟩)
    simp only [setMem_mem]
    rw [Function.update_of_ne (by omega), Function.update_of_ne (by omega),
      hm x fun hl => hx (hl.freeWord hpos)]
    exact Function.update_of_ne (by omega) _ _

/-- Both ends of the taking operations: what follows the taken slabs is told. -/
def Took (s : Heap) (A : List Region) (a : Nat) (p : Bool) (f : Region) (n : Nat)
    (B : List Region) (t : Heap) : Prop :=
  (∃ bins', Gap t A a p (f.addr + 4096 * n) true (takeRest f n B) bins') ∧
    Frame (FreeWord s.heap (A ++ takeRest f n B)) (IsHeader B) s t ∧ t.heapEnd = s.heapEnd

theorem took_exact (h : Gap s A a p f.stop false B bins) (hn : f.n = n) :
    wp (markNextPrevAlloc f.addr f.n) (fun _ t => Took s A a p f n B t) s := by
  refine wp_mono (markNextPrevAlloc_gap h rfl) ?_
  rintro _ t ⟨hgap, hframe, hend⟩
  subst hn
  unfold Took takeRest
  rw [if_pos rfl]
  exact ⟨⟨bins, hgap⟩, hframe.mono (fun _ => False.elim) fun _ => id, hend⟩

theorem took_split (h : Gap s A a p f.stop false B bins) (haf : a ≤ f.addr)
    (hal : f.addr % 4096 = 0) (hn : n < f.n) :
    wp (linkRemainder slabLink f.addr f.n n) (fun _ t => Took s A a p f n B t) s := by
  refine wp_mono (linkRemainder_gap h haf hal rfl hn) ?_
  rintro _ t ⟨hgap, hframe, hend⟩
  unfold Took takeRest
  rw [if_neg (by omega)]
  exact ⟨hgap, hframe.mono (fun _ => id) fun _ => False.elim, hend⟩

/-! ## `__int_take_slab` -/

/-- **`__int_take_slab`** takes the first slabs of the free region after the gap. -/
theorem _intTakeSlab_gap (h : Gap s A a p b q (f :: B) bins) (hk : f.kind = .free) (hn : n ≤ f.n) :
    wp (_intTakeSlab f.addr n) (fun _ t => (∃ bins',
        Gap t A a p (f.addr + 4096 * n) true (takeRest f n B) bins') ∧
      Frame (FreeWord s.heap (A ++ f :: B)) (IsHeader B) s t ∧ t.heapEnd = s.heapEnd) s := by
  obtain ⟨hfb, hok, -, -⟩ := h.tiling.drop
  have hle := h.tiling.le
  have hal := h.tiling.aligned
  have hpos := Region.addr_lt_stop hok.pos
  unfold _intTakeSlab
  simp only [wp_bind, wp_load64, wp_mallocAssert, hok.num_slabs hk, hn, decide_true, true_and]
  refine ⟨h.tiling.valid_next (by omega) (by omega) (by omega), ?_⟩
  refine wp_mono (slabUnlink_gap h hk) ?_
  rintro _ _ ⟨m', bins', rfl, hgap, hm⟩
  have hunlink : Frame (FreeWord s.heap (A ++ f :: B)) (IsHeader B) s { s with mem := m' } := by
    refine ⟨rfl, rfl, le_refl _, fun x hx => .inl (hm x fun hl => hx ?_)⟩
    refine (hl.freeWord fun r' hr' => (hgap.tiling.mem_outside hr').1).of_subset fun r' hr' => ?_
    rcases List.mem_append.mp hr' with hm | hm
    · exact List.mem_append_left _ hm
    · exact List.mem_append_right _ (List.mem_cons_of_mem _ hm)
  have hrest : ∀ x, FreeWord s.heap (A ++ takeRest f n B) x → FreeWord s.heap (A ++ f :: B) x := by
    intro x hx
    refine hx.mono fun r' hr' hk' z h₁ h₂ => ?_
    unfold takeRest at hr'
    rcases List.mem_append.mp hr' with hm | hm
    · exact ⟨r', by simp [hm], hk', h₁, h₂⟩
    · split at hm
      · exact ⟨r', by simp [hm], hk', h₁, h₂⟩
      · rcases List.mem_cons.mp hm with rfl | hm
        · simp only [Region.stop] at h₁ h₂
          exact ⟨f, by simp, hk, by omega, by unfold Region.stop; omega⟩
        · exact ⟨r', by simp [hm], hk', h₁, h₂⟩
  have hpost : ∀ t, Took { s with mem := m' } A a p f n B t → (∃ bins',
        Gap t A a p (f.addr + 4096 * n) true (takeRest f n B) bins') ∧
      Frame (FreeWord s.heap (A ++ f :: B)) (IsHeader B) s t ∧ t.heapEnd = s.heapEnd :=
    fun t ht => ⟨ht.1, hunlink.trans (ht.2.1.mono hrest fun _ => id), ht.2.2⟩
  rw [wp_ite]
  by_cases heq : f.n = n
  · rw [if_pos heq]
    exact wp_mono (took_exact hgap heq) fun _ t => hpost t
  · rw [if_neg heq]
    exact wp_mono (took_split hgap (by omega) (by omega) (by omega)) fun _ t => hpost t

/-! ## Allocation from a free region -/

/-- `n` slabs at `y` have been allocated in the heap with regions `L`: a new raw
region, all other allocated regions are kept. -/
structure Allocated (s : Heap) (L : List Region) (n y : Nat) (t : Heap) : Prop where
  inv : ∃ A B bins', SlabInv t (A ++ ⟨y, n, .raw⟩ :: B) bins' ∧ SameAlloc L (A ++ B)
  frame : Frame (fun x => FreeWord s.heap L x ∨ s.heapEnd ≤ x) (IsHeader L) s t

/-- Words of the gap are in no free region. -/
theorem Gap.not_freeWord (h : Gap s A a p b q B bins) {x : Nat} (h₁ : a ≤ x) (h₂ : x < b) :
    ¬ FreeWord s.heap (A ++ B) x := by
  have hge := h.tiling.start_ge
  rintro (hx | ⟨r, hr, -, hx⟩)
  · omega
  · obtain ⟨-, -, -, -, hout⟩ := h.tiling.mem_outside hr
    omega

/-- The slabs of the gap, marked as allocated, become a raw region. -/
theorem Gap.close_raw (h : Gap s A a p (y + 4096 * n) true B bins) (hay : a = y) (hn : 0 < n)
    (h0 : (s.mem y).testBit 0 = true) (h1 : (s.mem y).testBit 1 = p) :
    SlabInv s (A ++ ⟨y, n, .raw⟩ :: B) bins := by
  subst hay
  exact (h.cons_alloc (r := ⟨a, n, .raw⟩) (q := p) rfl (le_refl _) h.tiling.start_aligned
    ⟨hn, h0, h1, trivial⟩).join

/-- The region `f` is unlinked, marked as allocated, and `rest` deals with what
is not taken. -/
theorem allocFree_spec (h : SlabInv s (A ++ f :: B) bins) (hk : f.kind = .free) (h0 : 0 < n)
    {rest : HeapM Unit}
    (hrest : ∀ u a bins', Gap u A a true f.stop false B bins' → a = f.addr →
      wp rest (fun _ t => Took u A a true f n B t) u) (hn : n ≤ f.n) :
    wp (do slabUnlink f.addr; setFlag f.addr 1; rest)
      (fun _ t => Allocated s (A ++ f :: B) n f.addr t ∧ t.heapEnd = s.heapEnd) s := by
  obtain ⟨a, p, hgap⟩ := h.split
  obtain ⟨hfa, hok, hc, -⟩ := hgap.tiling.drop
  obtain rfl : p = true := by simpa [Region.isAlloc_eq_false.mpr hk] using hc
  have hal := hgap.tiling.start_aligned
  have hpos := Region.addr_lt_stop hok.pos
  have hstop : f.stop = f.addr + 4096 * f.n := rfl
  rw [wp_bind]
  refine wp_mono (slabUnlink_gap hgap hk) ?_
  rintro _ _ ⟨m', bins', rfl, hgap', hm⟩
  rw [wp_bind, wp_setFlag (by omega)]
  refine ⟨hgap'.tiling.valid (by omega) (by omega) (by omega), ?_⟩
  have hgap'' := hgap'.setMem (v := setBit (m' f.addr) 1) (x := f.addr) (by omega) (by omega)
  refine wp_mono (hrest _ a bins' hgap'' hfa.symm) ?_
  rintro _ t ⟨⟨bins₂, hgap₂⟩, hframe, hend⟩
  have hsub : ∀ r ∈ A ++ B, r ∈ A ++ f :: B := by
    intro r hr
    rcases List.mem_append.mp hr with hm | hm
    · exact List.mem_append_left _ hm
    · exact List.mem_append_right _ (List.mem_cons_of_mem _ hm)
  -- the header of the taken slabs after the operation
  have hheap : t.heap = s.heap := hframe.heap
  have hkeep : t.mem f.addr = setBit (m' f.addr) 1 := by
    have hnf : ¬ FreeWord t.heap (A ++ takeRest f n B) f.addr :=
      hgap₂.not_freeWord (by omega) (by omega)
    rw [hheap] at hnf
    rcases hframe.mem f.addr hnf with heq | ⟨⟨r, hr, hra⟩, -⟩
    · rw [heq]
      exact Function.update_self _ _ _
    · obtain ⟨-, -, -, -, hout⟩ := hgap'.tiling.mem_outside (r := r) (List.mem_append_right _ hr)
      have := Region.addr_lt_stop (hgap'.tiling.mem_outside (r := r) (List.mem_append_right _ hr)).1
      omega
  have hm0 : m' f.addr = s.mem f.addr := hm _ (hgap'.not_linkWord (by omega) (by omega))
  refine ⟨⟨⟨A, takeRest f n B, bins₂, hgap₂.close_raw hfa.symm h0 ?_ ?_, ?_⟩, ?_⟩, hend⟩
  · rw [hkeep, testBit_setBit (by omega), show Nat.testBit 1 0 = true from rfl, Bool.or_true]
  · rw [hkeep, testBit_setBit (by omega), hm0, hok.prev_bit, Bool.true_or]
  · intro r hr
    have hne : r ≠ f := fun heq => hr (heq ▸ hk)
    rw [takeRest_sameAlloc r hr]
    simp [hne]
  · refine ⟨hheap, hframe.med, hframe.brk, fun x hx => ?_⟩
    have hx' : ¬ FreeWord s.heap (A ++ f :: B) x := fun hf => hx (.inl hf)
    have hxf : x < f.addr ∨ f.stop ≤ x := by
      by_contra hcon
      exact hx' (.inr ⟨f, by simp, hk, by omega, by omega⟩)
    have hlink : ¬ LinkWord s.heap (A ++ B) x := by
      intro hl
      exact hx' ((hl.freeWord fun r hr => (hgap'.tiling.mem_outside hr).1).of_subset hsub)
    have hrem : ¬ FreeWord s.heap (A ++ takeRest f n B) x := by
      intro hf
      refine hx' (hf.mono fun r hr hk' z h₁ h₂ => ?_)
      unfold takeRest at hr
      rcases List.mem_append.mp hr with hm | hm
      · exact ⟨r, by simp [hm], hk', h₁, h₂⟩
      · split at hm
        · exact ⟨r, by simp [hm], hk', h₁, h₂⟩
        · rcases List.mem_cons.mp hm with rfl | hm
          · simp only [Region.stop] at h₁ h₂
            exact ⟨f, by simp, hk, by omega, by omega⟩
          · exact ⟨r, by simp [hm], hk', h₁, h₂⟩
    have hmem : (({ s with mem := m' } : Heap).setMem f.addr (setBit (m' f.addr) 1)).mem x =
        s.mem x := by
      rw [setMem_mem, Function.update_of_ne (by omega)]
      exact hm x hlink
    rcases hframe.mem x hrem with heq | ⟨⟨r, hr, hrx⟩, hsame⟩
    · exact .inl (heq.trans hmem)
    · refine .inr ⟨⟨r, hsub r (List.mem_append_right _ hr), hrx⟩, ?_⟩
      rwa [hmem] at hsame

theorem allocExact_spec (h : SlabInv s (A ++ f :: B) bins) (hk : f.kind = .free) :
    wp (allocExact f.addr f.n)
      (fun _ t => Allocated s (A ++ f :: B) f.n f.addr t ∧ t.heapEnd = s.heapEnd) s := by
  obtain ⟨⟨_, hok⟩, -⟩ := h.tiles.mem (r := f) (by simp)
  exact allocFree_spec h hk hok.pos (fun u a bins' hgap _ => took_exact hgap rfl) (le_refl _)

theorem allocSplit_spec (h : SlabInv s (A ++ f :: B) bins) (hk : f.kind = .free) (h0 : 0 < n)
    (hn : n < f.n) :
    wp (allocSplit slabLink f.addr f.n n)
      (fun _ t => Allocated s (A ++ f :: B) n f.addr t ∧ t.heapEnd = s.heapEnd) s := by
  refine allocFree_spec h hk h0 (fun u a bins' hgap ha => ?_) hn.le
  subst ha
  exact took_split hgap (le_refl _) hgap.tiling.start_aligned hn

theorem allocSplit_small (h0 : n < k) (hk : k ≤ 128) (h1 : 0 < n) :
    allocSplit slabLinkSmall y k n = allocSplit slabLink y k n := by
  unfold allocSplit linkRemainder
  simp only [slabLinkSmall_eq (y := y + slabSize * n) (show 0 < k - n by omega)
    (show k - n ≤ 127 by omega)]

/-- **`__int_take_slab`**: `k` slabs of the free region `f` go to the region `r` before it, whose
size has been written. -/
theorem takeSlabs_spec (h : SlabInv s (A ++ r :: f :: B) bins) (hr : r.kind = .large)
    (hf : f.kind = .free) (hkf : k ≤ f.n) (hn : r.n + k < 2 ^ 56) :
    wp (do largeSlabSetSize r.addr (r.n + k); _intTakeSlab f.addr k)
      (fun _ t => (∃ bins', SlabInv t (A ++ ⟨r.addr, r.n + k, .large⟩ :: takeRest f k B) bins') ∧
        Frame (fun x => FreeWord s.heap (A ++ f :: B) x ∨ x = r.addr + 8) (IsHeader B) s t ∧
        t.mem (r.addr + 8) = sizeWord (s.mem (r.addr + 8)) (r.n + k) ∧
        t.heapEnd = s.heapEnd) s := by
  have halloc : r.isAlloc = true := Region.isAlloc_eq_true.mpr (by rw [hr]; decide)
  obtain ⟨hpos, hal, hge, hle, p, hok⟩ := h.mem_facts (r := r) (by simp)
  have hstop := Region.addr_lt_stop hpos
  have hstop' : r.stop = r.addr + 4096 * r.n := rfl
  have h2 : (s.mem r.addr).testBit 2 = false := by
    have := hok.2.2.2
    rw [hr] at this
    exact this.1
  -- the region becomes raw while its size is changed
  have hraw := h.rewriteMem ⟨r.addr, r.n, .raw⟩
    (Function.update s.mem (r.addr + 8) (sizeWord (s.mem (r.addr + 8)) (r.n + k)))
    halloc rfl rfl rfl (fun q hokq => ⟨hpos, ?_, ?_, trivial⟩)
    (fun x hx => Function.update_of_ne (by omega) _ _)
  · obtain ⟨a, q, hgap⟩ := hraw.split
    obtain ⟨rfl, hokr, hgap'⟩ := hgap.drop_alloc rfl
    rw [show (⟨r.addr, r.n, .raw⟩ : Region).stop = r.stop from rfl] at hgap'
    rw [wp_bind, wp_largeSlabSetSize (by omega)]
    refine ⟨h.valid (r := r) (by simp) (by omega) (by omega) (by omega), ?_⟩
    refine wp_mono (_intTakeSlab_gap hgap' hf hkf) ?_
    rintro _ t ⟨⟨bins', hgap₂⟩, hframe, hend⟩
    have hkeep : ∀ x, r.addr ≤ x → x < r.stop → t.mem x =
        Function.update s.mem (r.addr + 8) (sizeWord (s.mem (r.addr + 8)) (r.n + k)) x := by
      intro x h₁ h₂
      refine (hframe.mem x (hgap'.not_freeWord h₁ h₂)).resolve_right ?_
      rintro ⟨⟨r', hr', hx⟩, -⟩
      obtain ⟨hn', -, -, -, hout⟩ := hgap'.tiling.mem_outside (r := r')
        (List.mem_append_right _ (List.mem_cons_of_mem _ hr'))
      have := Region.addr_lt_stop hn'
      simp only at hout
      omega
    have haddr : f.addr = r.stop := hgap'.tiling.drop.1
    have hstop₂ : f.addr + 4096 * k = (⟨r.addr, r.n + k, .large⟩ : Region).stop := by
      simp only [Region.stop]
      omega
    have hsize : t.mem (r.addr + 8) = sizeWord (s.mem (r.addr + 8)) (r.n + k) := by
      rw [hkeep (r.addr + 8) (by omega) (by omega), Function.update_self]
    rw [hstop₂] at hgap₂
    refine ⟨⟨bins', (hgap₂.cons_alloc (q := q) rfl (le_refl _) hal ⟨?_, ?_, ?_, ?_, ?_⟩).join⟩, ?_,
      hsize, hend⟩
    · simp only
      omega
    · rw [hkeep _ (le_refl _) (by omega), hokr.alloc_bit]
      rfl
    · rw [hkeep _ (le_refl _) (by omega), hokr.prev_bit]
    · rw [hkeep _ (le_refl _) (by omega), Function.update_of_ne (by omega), h2]
    · rw [hsize, sizeWord_mod hn]
    · have hset : Frame (fun x => FreeWord s.heap (A ++ f :: B) x ∨ x = r.addr + 8) (IsHeader B) s
          (s.setMem (r.addr + 8) (sizeWord (s.mem (r.addr + 8)) (r.n + k))) :=
        ⟨rfl, rfl, le_refl _, fun x hx => .inl (Function.update_of_ne (fun hc => hx (.inr hc)) _ _)⟩
      exact hset.trans (hframe.mono (fun _ => .inl) fun _ => id)
  · rw [Function.update_of_ne (by simp), hokq.alloc_bit, halloc]
    rfl
  · rw [Function.update_of_ne (by simp), hokq.prev_bit]

end

end MallocBench.Slab
