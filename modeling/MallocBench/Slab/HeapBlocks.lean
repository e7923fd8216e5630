import MallocBench.Slab.NewSlab
import MallocBench.Slab.MediumAlloc

/-!
# The allocated blocks of the heap

Where the allocated blocks lie: inside the heap, at multiples of 16, and apart from each
other, from the free medium blocks and from every word that the allocator itself uses.
-/

namespace MallocBench.Slab

open Lib

section

variable {s t : Heap} {A B L : List Region} {r : Region} {bins : Nat → List Nat} {strict : Prop}
  {x y e f a : Nat}

theorem packedUsed_disjoint {m : Nat → Nat} (h : PackedUsed m a x e) (h' : PackedUsed m a y f) :
    (x = y ∧ e = f) ∨ e ≤ y ∨ f ≤ x := by
  obtain ⟨i, -, -, rfl, rfl⟩ := h
  obtain ⟨j, -, -, rfl, rfl⟩ := h'
  rcases Nat.lt_trichotomy i j with hij | rfl | hij
  · have : packedSize m a * (i + 1) ≤ packedSize m a * j := Nat.mul_le_mul_left _ hij
    rw [Nat.mul_succ] at this
    exact .inr (.inl (by omega))
  · exact .inl ⟨rfl, rfl⟩
  · have : packedSize m a * (j + 1) ≤ packedSize m a * i := Nat.mul_le_mul_left _ hij
    rw [Nat.mul_succ] at this
    exact .inr (.inr (by omega))

/-- The blocks of one region are apart. -/
theorem RegionUsed.disjoint (h : RegionUsed s.mem r x e) (h' : RegionUsed s.mem r y f)
    (hok : RegionOk strict s.mem r) : (x = y ∧ e = f) ∨ e ≤ y ∨ f ≤ x := by
  unfold RegionUsed at h h'
  unfold RegionOk at hok
  cases hk : r.kind with
  | free =>
    rw [hk] at h
    exact h.elim
  | packed =>
    rw [hk] at h h'
    exact packedUsed_disjoint h h'
  | large =>
    rw [hk] at h h' hok
    obtain ⟨o, o', hu, rfl, rfl⟩ := h
    obtain ⟨p, p', hu', rfl, rfl⟩ := h'
    have := BlocksOk.usedAt_disjoint hok hu hu'
    omega
  | raw =>
    rw [hk] at h
    exact h.elim

namespace HeapInv

/-- Blocks lie in the heap and are aligned. -/
theorem used_bounds (h : HeapInv strict s L) (hu : Used s.mem L x e) :
    s.heap + 4096 + 16 ≤ x ∧ x < e ∧ e ≤ s.heapEnd ∧ x % 16 = 0 := by
  obtain ⟨r, hr, hu⟩ := hu
  obtain ⟨bins, hslab⟩ := h.slab
  obtain ⟨hn, hal, hge, hle, -⟩ := hslab.mem_facts hr
  obtain ⟨h₁, h₂, h₃, h₄⟩ := hu.bounds (h.regions r hr) hn hal
  exact ⟨by omega, h₂, by omega, h₄⟩

/-- **Blocks are apart from each other.** -/
theorem used_disjoint (h : HeapInv strict s L) (hu : Used s.mem L x e) (hu' : Used s.mem L y f) :
    (x = y ∧ e = f) ∨ e ≤ y ∨ f ≤ x := by
  obtain ⟨r, hr, hu⟩ := hu
  obtain ⟨r', hr', hu'⟩ := hu'
  obtain ⟨bins, hslab⟩ := h.slab
  obtain ⟨hn, hal, -⟩ := hslab.mem_facts hr
  obtain ⟨hn', hal', -⟩ := hslab.mem_facts hr'
  obtain ⟨h₁, h₂, h₃, -⟩ := hu.bounds (h.regions r hr) hn hal
  obtain ⟨h₁', h₂', h₃', -⟩ := hu'.bounds (h.regions r' hr') hn' hal'
  by_contra hcon
  -- the larger start is in both regions
  have heq : r = r' := hslab.region_eq hr hr' (x := max x y) (by omega) (by omega)
  subst heq
  exact hcon (hu.disjoint hu' (h.regions r hr))

/-- Blocks are apart from the free blocks. -/
theorem used_freeBlock_disjoint (h : HeapInv strict s L) (hu : Used s.mem L x e)
    (hf : FreeBlock s.mem L y f) : e ≤ y ∨ f ≤ x := by
  obtain ⟨r, hr, hu⟩ := hu
  obtain ⟨r', hr', hk', hf⟩ := hf
  obtain ⟨bins, hslab⟩ := h.slab
  obtain ⟨hn, hal, -⟩ := hslab.mem_facts hr
  obtain ⟨h₁, h₂, h₃, -⟩ := hu.bounds (h.regions r hr) hn hal
  have hok := (h.regions r' hr').large hk'
  obtain ⟨h₁', -, h₂', -, -, h₃'⟩ := hf.bounds hok (hslab.mem_facts hr').1
  by_contra hcon
  have heq : r = r' := hslab.region_eq hr hr' (x := max x y) (by omega) (by omega)
  subst heq
  unfold RegionUsed at hu
  rw [hk'] at hu
  obtain ⟨o, o', hu, rfl, rfl⟩ := hu
  obtain ⟨p, p', hf, rfl, rfl⟩ := hf
  have := BlocksOk.freeAt_usedAt_disjoint hok hf hu
  omega

end HeapInv

/-- A byte that the allocator uses itself: `struct heap`, the headers of all slabs, the
footers of free slabs, and the links of free slabs and free medium blocks. -/
def MetaByte (s : Heap) (L : List Region) (b : Nat) : Prop :=
  (s.heap ≤ b ∧ b < heapStart s.heap) ∨
    (∃ r ∈ L, r.kind = .free ∧ ((r.addr ≤ b ∧ b < r.addr + 32) ∨ (r.stop - 8 ≤ b ∧ b < r.stop))) ∨
    (∃ r ∈ L, r.kind = .packed ∧ r.addr ≤ b ∧ b < r.addr + packedStart (packedSize s.mem r.addr)) ∨
    (∃ r ∈ L, r.kind = .large ∧ r.addr ≤ b ∧ b < r.addr + 16) ∨
    ∃ y f, FreeBlock s.mem L y f ∧ y ≤ b ∧ b < y + 16

/-- **Allocated blocks hold no byte of the allocator.** -/
theorem HeapInv.not_metaByte {b : Nat} (h : HeapInv strict s L) (hu : Used s.mem L x e)
    (hx : x ≤ b) (hb : b < e) : ¬ MetaByte s L b := by
  have hbounds := h.used_bounds hu
  have hfreeD := fun y f (hf : FreeBlock s.mem L y f) => h.used_freeBlock_disjoint hu hf
  obtain ⟨r, hr, hu⟩ := hu
  obtain ⟨bins, hslab⟩ := h.slab
  obtain ⟨hn, hal, -⟩ := hslab.mem_facts hr
  have hin := hu.bounds (h.regions r hr) hn hal
  -- a region that holds the byte is the region of the block
  have heq : ∀ r₀ ∈ L, r₀.addr ≤ b → b < r₀.stop → r₀ = r := fun r₀ hr₀ h₁ h₂ =>
    hslab.region_eq hr₀ hr ⟨h₁, h₂⟩ (by omega)
  rintro (hpage | ⟨r₀, hr₀, hk₀, hb₀⟩ | ⟨r₀, hr₀, hk₀, hb₁, hb₂⟩ | ⟨r₀, hr₀, hk₀, hb₁, hb₂⟩ |
    ⟨y, f, hf, hb₁, hb₂⟩)
  · unfold heapStart at hpage
    simp only [slabSize] at hpage
    omega
  · have hlen := Region.addr_lt_stop (hslab.mem_facts hr₀).1
    obtain rfl := heq r₀ hr₀ (by omega) (by omega)
    unfold RegionUsed at hu
    rw [hk₀] at hu
    exact hu
  · obtain ⟨hok, -, -, -, -, -, -, hstop⟩ := h.packed_facts hr₀ hk₀
    have hfacts := packedSizes_facts hok.size_mem
    obtain rfl := heq r₀ hr₀ hb₁ (by omega)
    obtain ⟨j, -, -, rfl, -⟩ := packedUsed_iff.mp ((regionUsed_packed hk₀).mp hu)
    unfold packedBlock at hx
    omega
  · have hlen := Region.addr_lt_stop (hslab.mem_facts hr₀).1
    obtain rfl := heq r₀ hr₀ hb₁ (by omega)
    omega
  · have := hfreeD y f hf
    have := h.free_size hf
    omega

/-! ## Writing to an allocated block -/

section

variable {m m' : Nat → Nat} {i : Nat}

/-- Only the bits of blocks of the free vector matter. -/
theorem PackedData.congr {size cnt f1 : Nat} {g g' : Nat → Bool} (h : PackedData size g cnt f1)
    (hg : ∀ j, j < packedBits size → g' j = g j) : PackedData size g' cnt f1 := by
  have hfacts := packedSizes_facts h.size_mem
  have hbits := packedBits_facts size
  refine ⟨h.size_mem, fun j hj hj' => by rw [hg j hj', h.high j hj hj'], ?_, h.pos, fun h48 l hl => ?_⟩
  · rw [h.cnt_eq]
    unfold usedSlots
    congr 1
    refine Finset.filter_congr fun j hj => ?_
    rw [Finset.mem_range] at hj
    rw [hg j (by omega)]
  · rw [h.lvl1 h48 l hl]
    refine and_congr_right fun hlb => exists_congr fun i => and_congr_right fun hi => ?_
    rw [hg _ (by omega)]

/-- Two memories agree on the header of a packed slab. -/
def SamePacked (m m' : Nat → Nat) (a : Nat) : Prop :=
  m' a = m a ∧ ∀ j, j < packedBits (packedSize m a) → freeBit m' a j = freeBit m a j

theorem SamePacked.size (h : SamePacked m m' a) : packedSize m' a = packedSize m a := by
  unfold packedSize
  rw [h.1]

theorem SamePacked.ok (h : SamePacked m m' a) (hok : PackedOk m a) : PackedOk m' a := by
  unfold PackedOk
  rw [h.size, h.1]
  exact PackedData.congr hok h.2

theorem SamePacked.hasFree (h : SamePacked m m' a) (hok : PackedOk m a) :
    HasFree (packedSize m' a) (freeBit m' a) ↔ HasFree (packedSize m a) (freeBit m a) := by
  have hfacts := packedSizes_facts hok.size_mem
  rw [h.size]
  refine exists_congr fun j => and_congr_right fun hj => ?_
  rw [h.2 j (by omega)]

theorem SamePacked.used (h : SamePacked m m' a) (hok : PackedOk m a) :
    PackedUsed m' a x e ↔ PackedUsed m a x e := by
  have hfacts := packedSizes_facts hok.size_mem
  rw [packedUsed_iff, packedUsed_iff, h.size]
  refine exists_congr fun j => and_congr_right fun hj => ?_
  rw [h.2 j (by omega)]

/-- Writes to a block of a packed slab keep its header. -/
theorem samePacked_of_used (hok : PackedOk m a) (hu : PackedUsed m a x e)
    (hm : ∀ w, w < x ∨ e ≤ w → m' w = m w) : SamePacked m m' a := by
  obtain ⟨j, hj, -, rfl, rfl⟩ := packedUsed_iff.mp hu
  have hfacts := packedSizes_facts hok.size_mem
  have hbits := packedBits_facts (packedSize m a)
  have hlow : a + packedStart (packedSize m a) ≤ packedBlock a (packedSize m a) j :=
    Nat.le_add_right _ _
  refine ⟨hm _ (by omega), fun i hi => ?_⟩
  unfold freeBit
  rw [hm _ (by omega)]

end

/-- **Writes to an allocated block** change nothing for the allocator. -/
theorem HeapInv.writeUsed {m' : Nat → Nat} (h : HeapInv strict s L) (hu : Used s.mem L x e)
    (hm : ∀ w, w < x ∨ e ≤ w → m' w = s.mem w) :
    HeapInv strict { s with mem := m' } L ∧ ∀ y f, Used m' L y f ↔ Used s.mem L y f := by
  have hbounds := h.used_bounds hu
  have hfreeD := fun y f (hf : FreeBlock s.mem L y f) => h.used_freeBlock_disjoint hu hf
  obtain ⟨r, hr, hu⟩ := hu
  obtain ⟨A, B, rfl⟩ := List.append_of_mem hr
  obtain ⟨bins, hslab⟩ := h.slab
  obtain ⟨mb, hmed⟩ := h.medium
  obtain ⟨sb, hsmall⟩ := h.small
  obtain ⟨hn, hal, hge, hle, -⟩ := hslab.mem_facts (r := r) (by simp)
  have hin := hu.bounds (h.regions r hr) hn hal
  have hout : ∀ w, w < r.addr ∨ r.stop ≤ w → m' w = s.mem w := fun w hw => hm w (by omega)
  unfold RegionUsed at hu
  cases hk : r.kind with
  | free =>
    rw [hk] at hu
    exact hu.elim
  | packed =>
    rw [hk] at hu
    obtain ⟨hok, -, -, -, -, -, -, hstop⟩ := h.packed_facts (r := r) (by simp) hk
    have hsame := samePacked_of_used hok hu hm
    obtain ⟨j, hj, -, rfl, rfl⟩ := packedUsed_iff.mp hu
    have hblock := packedBlock_bounds (a := r.addr) hok.size_mem hj
    have hsmall' : SmallLists { s with mem := m' } (fun y i => PackedFree s.mem (A ++ B) y i ∨
        (y = r.addr ∧ PackedIn m' r.addr i)) sb := by
      refine hsmall.congr (fun y i => ?_) rfl (le_refl _) fun w hw => hm w ?_
      · rw [packedFree_insert_packed hk]
        unfold PackedIn
        rw [hsame.hasFree hok, hsame.size]
      · have : ¬ (w = r.addr ∨ (r.addr + 24 ≤ w ∧ w < r.addr + 4096)) :=
          fun hc => packed_not_smallWord hslab hc hw
        omega
    obtain ⟨hinv, hused, -⟩ := h.repacked m' hk (fun w _ hw => hout w hw)
      (fun i _ => by rw [hsame.1]) (hsame.ok hok) hsmall'
    refine ⟨hinv, fun y f => ?_⟩
    rw [hused, used_insert, regionUsed_packed hk, hsame.used hok]
  | large =>
    rw [hk] at hu
    have har := h.around (by rw [hk]; decide)
    obtain ⟨sb', hsmall'⟩ := har.small
    have hhead : m' r.addr = s.mem r.addr := hm _ (by omega)
    have hhead₂ : m' (r.addr + 8) = s.mem (r.addr + 8) := hm _ (by omega)
    have hblocks : SameBlocks s.mem m' r.addr := ⟨fun i _ => by rw [hhead], hhead₂⟩
    have hlarge := (h.regions r hr).large hk
    have hrok : RegionOk strict m' r := by
      unfold RegionOk
      rw [hk]
      exact hblocks.largeOk.mpr hlarge
    have hmed' : MediumLists { s with mem := m' } (fun y f => FreeBlock s.mem (A ++ B) y f ∨
        (r.kind = .large ∧ FreeIn m' r y f)) mb := by
      refine hmed.congr (fun y f => ?_) rfl (le_refl _) rfl fun w hw => hm w ?_
      · rw [freeBlock_insert hk, WithFree, hk]
        simp only [true_and]
        exact or_congr_right hblocks.freeIn
      · rcases hw with hpage | ⟨y, f, hf, hw⟩
        · omega
        · have := hfreeD y f hf
          have := h.free_size hf
          omega
    have hsmall'' : SmallLists { s with mem := m' } (fun y i => PackedFree s.mem (A ++ B) y i ∨
        (r.kind = .packed ∧ r.addr = y ∧ PackedIn m' y i)) sb' := by
      refine hsmall'.congr (fun y i => by simp [hk]) rfl (le_refl _) fun w hw => hout w ?_
      have := har.smallWord_outside hw
      omega
    obtain ⟨hinv, hused⟩ := har.finish r m' s.medSkiplist
      (by rw [hk]; decide) (by rw [hk]; decide) rfl rfl
      (fun p hp => hp.congr ⟨fun i _ => by rw [hhead], fun _ => by rw [hhead₂],
        fun hf => by rw [hk] at hf; cases hf⟩) hrok (fun w _ _ hw => hout w hw) hmed' hsmall''
    refine ⟨hinv, fun y f => ?_⟩
    rw [hused, used_insert]
    unfold RegionUsed
    rw [hk]
    exact or_congr_right hblocks.usedIn
  | raw =>
    rw [hk] at hu
    exact hu.elim

/-! ## Blocks that are live before and after -/

/-- The words that belong to a block both in `s` and in `t` are the same. -/
def ContentsKept (s : Heap) (L : List Region) (t : Heap) (L' : List Region) : Prop :=
  ∀ x e y f, Used s.mem L x e → Used t.mem L' y f → ∀ w, x ≤ w → w < e → y ≤ w → w < f →
    t.mem w = s.mem w

/-- Allocated blocks hold no word of the slab layer. -/
theorem HeapInv.not_slabWord {w : Nat} (h : HeapInv strict s L) (hu : Used s.mem L x e)
    (hx : x ≤ w) (hw : w < e) : ¬ FreeWord s.heap L w ∧ ¬ IsHeader L w := by
  obtain ⟨r, hr, hu⟩ := hu
  obtain ⟨bins, hslab⟩ := h.slab
  obtain ⟨hn, hal, -⟩ := hslab.mem_facts hr
  obtain ⟨h₁, -, h₃, -⟩ := hu.bounds (h.regions r hr) hn hal
  have hk : r.kind ≠ .free := by
    intro hk
    unfold RegionUsed at hu
    rw [hk] at hu
    exact hu
  exact hslab.inner hr hk (by omega) (by omega)

/-- The region of a block, and its slab. -/
theorem HeapInv.used_slab (h : HeapInv strict s L) (hu : Used s.mem L x e) :
    ∃ A r B, L = A ++ r :: B ∧ ptrGetSlab x = r.addr ∧ r.kind ≠ .free ∧ RegionUsed s.mem r x e := by
  obtain ⟨r, hr, hu⟩ := hu
  obtain ⟨A, B, rfl⟩ := List.append_of_mem hr
  obtain ⟨bins, hslab⟩ := h.slab
  exact ⟨A, r, B, rfl, hu.slab (h.regions r hr) (hslab.mem_facts hr).2.1, hu.kind_ne, hu⟩

/-- The slab of a block that starts in the region `r`. -/
theorem HeapInv.slab_of_mem (h : HeapInv strict s L) (hu : Used s.mem L x e) (hr : r ∈ L)
    (h₁ : r.addr ≤ x) (h₂ : x < r.stop) : ptrGetSlab x = r.addr := by
  obtain ⟨r', hr', hu⟩ := hu
  obtain ⟨bins, hslab⟩ := h.slab
  obtain ⟨hn, hal, -⟩ := hslab.mem_facts hr'
  have hbounds := hu.bounds (h.regions r' hr') hn hal
  obtain rfl := hslab.region_eq hr hr' (x := x) ⟨h₁, h₂⟩ (by omega)
  exact hu.slab (h.regions r hr') hal

/-- Writes to an allocated block do not change the kind of a slab. -/
theorem HeapInv.slabClass_write {m' : Nat → Nat} (h : HeapInv strict s L) (hu : Used s.mem L x e)
    (hu' : Used s.mem L y f) (hm : ∀ w, w < y ∨ f ≤ w → m' w = s.mem w) :
    slabClass m' (ptrGetSlab x) = slabClass s.mem (ptrGetSlab x) := by
  obtain ⟨A, r, B, rfl, haddr, -⟩ := h.used_slab hu
  have hhead : m' r.addr = s.mem r.addr := by
    refine hm _ ?_
    by_contra hc
    exact (h.not_slabWord hu' (w := r.addr) (by omega) (by omega)).2 ⟨r, by simp, rfl⟩
  unfold slabClass packedSize
  rw [haddr, hhead]

/-- Writes to words of the allocator, before or after, keep the contents. -/
theorem ContentsKept.of_frame {L' : List Region} {W H : Nat → Prop} (hinv : HeapInv strict s L)
    (hinv' : HeapInv strict t L') (hf : MemFrame W H s t)
    (hW : ∀ w, W w → FreeWord s.heap L w ∨ FreeWord t.heap L' w ∨ MetaByte s L w)
    (hH : ∀ w, H w → IsHeader L w) : ContentsKept s L t L' := by
  intro x e y f hu hu' w hx he hy hw
  obtain ⟨h₁, h₂⟩ := hinv.not_slabWord hu hx he
  obtain ⟨h₃, -⟩ := hinv'.not_slabWord hu' hy hw
  refine (hf.mem w fun hc => ?_).resolve_right fun hc => h₂ (hH w hc.1)
  rcases hW w hc with hc | hc | hc
  · exact h₁ hc
  · exact h₃ hc
  · exact hinv.not_metaByte hu hx he hc

theorem ContentsKept.trans {u : Heap} {L₁ L₂ : List Region} (h₁ : ContentsKept s L t L₁)
    (h₂ : ContentsKept t L₁ u L₂)
    (hsub : ∀ y f, Used u.mem L₂ y f → ∃ y' f', Used t.mem L₁ y' f' ∧ y' ≤ y ∧ f ≤ f') :
    ContentsKept s L u L₂ := by
  intro x e y f hu hu' w hx he hy hw
  obtain ⟨y', f', hmid, hy', hf'⟩ := hsub y f hu'
  exact (h₂ y' f' y f hmid hu' w (by omega) (by omega) hy hw).trans
    (h₁ x e y' f' hu hmid w hx he (by omega) (by omega))

end

end MallocBench.Slab
