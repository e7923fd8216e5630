import MallocBench.Slab.HeapInv

/-!
# The contents of the blocks

The allocator does not write into the blocks of the program. An operation stays out of most
regions (`RegionsKept`); what it does to the blocks of the region that it works on, it says
itself. Together they give `BlocksKept`: one block comes or goes, the others keep their contents
and stay in a slab of the same kind.
-/

namespace MallocBench.Slab

open Lib

/-- The kind of an allocated slab, as its header says it: the size of its blocks when it is
packed, or 0. -/
def slabClass (m : Nat → Nat) (a : Nat) : Nat :=
  if (m a).testBit 2 then packedSize m a else 0

/-- The blocks other than the one at `p` keep their contents and the kind of their slab. -/
structure BlocksKept (s : Heap) (L : List Region) (p : Nat) (t : Heap) : Prop where
  contents : ∀ x e, Used s.mem L x e → x ≠ p → ∀ w, x ≤ w → w < e → t.mem w = s.mem w
  slab : ∀ x e, Used s.mem L x e → x ≠ p →
    slabClass t.mem (ptrGetSlab x) = slabClass s.mem (ptrGetSlab x)

/-- The regions `R` keep their headers and the contents of their blocks. -/
structure RegionsKept (s : Heap) (R : List Region) (t : Heap) : Prop where
  header : ∀ r ∈ R, r.kind ≠ .free → RegionKept s.mem t.mem r
  contents : ∀ x e, Used s.mem R x e → ∀ w, x ≤ w → w < e → t.mem w = s.mem w

section

variable {s t u : Heap} {A B L R : List Region} {r : Region} {bins : Nat → List Nat}
  {W : Nat → Prop} {strict : Prop} {x e p : Nat}

/-! ## Where blocks lie -/

theorem RegionUsed.kind_ne {m : Nat → Nat} (h : RegionUsed m r x e) : r.kind ≠ .free := by
  intro hk
  unfold RegionUsed at h
  rw [hk] at h
  exact h

/-- Blocks of packed slabs and large regions lie in their regions. -/
theorem RegionUsed.bounds (h : RegionUsed s.mem r x e) (hok : RegionOk strict s.mem r)
    (hn : 0 < r.n) (hal : r.addr % 4096 = 0) : r.addr + 16 ≤ x ∧ x < e ∧ e ≤ r.stop ∧
      x % 16 = 0 := by
  have hstop := Region.addr_lt_stop hn
  unfold RegionUsed at h
  cases hk : r.kind with
  | free =>
    rw [hk] at h
    exact h.elim
  | raw =>
    rw [hk] at h
    exact h.elim
  | packed =>
    rw [hk] at h
    obtain ⟨j, hj, -, rfl, rfl⟩ := h
    obtain ⟨h16, -, hmod, -, -, -, hend, hstart, hsmod, -⟩ :=
      packedSizes_facts (hok.packed hk).size_mem
    have hbits := packedBits_facts (packedSize s.mem r.addr)
    have hmul : packedSize s.mem r.addr * j + packedSize s.mem r.addr ≤
        packedSize s.mem r.addr * packedBlocks (packedSize s.mem r.addr) := by
      rw [← Nat.mul_succ]
      exact Nat.mul_le_mul_left _ hj
    have hmulmod : packedSize s.mem r.addr * j % 16 = 0 := by
      rw [Nat.mul_mod, hmod, Nat.zero_mul, Nat.zero_mod]
    omega
  | large =>
    rw [hk] at h
    obtain ⟨o, o', hu, rfl, rfl⟩ := h
    obtain ⟨h₁, h₂, h₃, h₄, h₅⟩ := (hok.large hk).usedAt_bounds hn hu
    have : r.stop = r.addr + 4096 * r.n := rfl
    omega

theorem ptrGetSlab_eq {a o : Nat} (ha : a % 4096 = 0) (h₁ : 16 ≤ o) (h₂ : o ≤ 4096) :
    ptrGetSlab (a + o) = a := by
  unfold ptrGetSlab alignDown
  simp only [slabSize, mallocAlign]
  omega

/-- The code finds the region of a block. -/
theorem RegionUsed.slab (h : RegionUsed s.mem r x e) (hok : RegionOk strict s.mem r)
    (hal : r.addr % 4096 = 0) : ptrGetSlab x = r.addr := by
  unfold RegionUsed at h
  cases hk : r.kind with
  | free =>
    rw [hk] at h
    exact h.elim
  | raw =>
    rw [hk] at h
    exact h.elim
  | packed =>
    rw [hk] at h
    obtain ⟨j, hj, -, rfl, -⟩ := h
    obtain ⟨h16, -, -, -, -, -, hend, hstart, -⟩ := packedSizes_facts (hok.packed hk).size_mem
    have hbits := packedBits_facts (packedSize s.mem r.addr)
    have hmul : packedSize s.mem r.addr * j ≤
        packedSize s.mem r.addr * packedBlocks (packedSize s.mem r.addr) :=
      Nat.mul_le_mul_left _ hj.le
    rw [Nat.add_assoc]
    exact ptrGetSlab_eq hal (by omega) (by omega)
  | large =>
    rw [hk] at h
    obtain ⟨o, o', ⟨i, -, -, rfl, -⟩, rfl, -⟩ := h
    exact ptrGetSlab_eq hal (BlocksOk.off_ge (hok.large hk) i) (BlocksOk.page' (hok.large hk) i)

/-- Free blocks are apart from the blocks of their region. -/
theorem RegionUsed.not_free {y f : Nat} (h : RegionUsed s.mem r x e) (hok : RegionOk strict s.mem r)
    (hk : r.kind = .large) (hf : FreeIn s.mem r y f) : e ≤ y ∨ f ≤ x := by
  unfold RegionUsed at h
  rw [hk] at h
  obtain ⟨o, o', hu, rfl, rfl⟩ := h
  obtain ⟨p, p', hf, rfl, rfl⟩ := hf
  have := BlocksOk.freeAt_usedAt_disjoint (hok.large hk) hf hu
  omega

/-- The links of packed slabs lie in front of their blocks. -/
theorem RegionUsed.packed_ge (h : RegionUsed s.mem r x e) (hok : RegionOk strict s.mem r)
    (hk : r.kind = .packed) : r.addr + 32 ≤ x := by
  unfold RegionUsed at h
  rw [hk] at h
  obtain ⟨j, -, -, rfl, -⟩ := h
  have hfacts := packedSizes_facts (hok.packed hk).size_mem
  have hbits := packedBits_facts (packedSize s.mem r.addr)
  omega

/-! ## Regions that are kept -/

/-- An operation that stays out of the regions `R`, as in `regionKept`, does not write into
their blocks. -/
theorem regionsKept (hslab : SlabInv s L bins) (hR : ∀ r₀ ∈ R, r₀ ∈ L) (hW : Avoids s R W)
    (hok : ∀ r₀ ∈ R, RegionOk strict s.mem r₀)
    (hf : MemFrame (fun x => W x ∨ MedWord s.heap (FreeBlock s.mem R) x ∨
      SmallWord s.heap (PackedFree s.mem R) x) (IsHeader L) s t) : RegionsKept s R t := by
  refine ⟨fun r₀ => regionKept hslab hR hW hok hf, ?_⟩
  rintro x e ⟨r₀, hr₀, hu⟩ w hw₁ hw₂
  obtain ⟨hn, hal, hge, -⟩ := hslab.mem_facts (hR r₀ hr₀)
  have hstop := Region.addr_lt_stop hn
  have hb := hu.bounds (hok r₀ hr₀) hn hal
  refine (hf.mem w ?_).resolve_right fun hc =>
    hslab.not_header (hR r₀ hr₀) (by omega) (by omega) hc.1
  rintro (hx | (hpage | ⟨y, f, ⟨r₁, hr₁, hk₁, hf₁⟩, hyw⟩) | hx)
  · exact hW.regions r₀ hr₀ hu.kind_ne w (by omega) (by omega) hx
  · omega
  · -- a link of a free block of the same region
    have hb₁ := hf₁.bounds ((hok r₁ hr₁).large hk₁) (hslab.mem_facts (hR r₁ hr₁)).1
    obtain rfl := hslab.region_eq (hR r₀ hr₀) (hR r₁ hr₁) (x := w) (by omega) (by omega)
    have := hu.not_free (hok r₀ hr₀) hk₁ hf₁
    omega
  · rcases hx.cases with hpage | ⟨r₁, hr₁, hk₁, hx₁⟩
    · omega
    · have hstop₁ := Region.addr_lt_stop (hslab.mem_facts (hR r₁ hr₁)).1
      obtain rfl := hslab.region_eq (hR r₀ hr₀) (hR r₁ hr₁) (x := w) (by omega) (by omega)
      have := hu.packed_ge (hok r₀ hr₀) hk₁
      omega

theorem RegionKept.trans {m m' m'' : Nat → Nat} (h₁ : RegionKept m m' r) (h₂ : RegionKept m' m'' r) :
    RegionKept m m'' r :=
  ⟨fun i hi => (h₂.header i hi).trans (h₁.header i hi), fun hk => (h₂.large hk).trans (h₁.large hk),
    fun hk x hx hx' => (h₂.packed hk x hx hx').trans (h₁.packed hk x hx hx')⟩

theorem RegionKept.slabClass {m m' : Nat → Nat} (h : RegionKept m m' r) :
    slabClass m' r.addr = slabClass m r.addr := by
  unfold Slab.slabClass
  rw [h.header 2 (by decide), h.packedSize]

namespace RegionsKept

theorem refl : RegionsKept s R s := ⟨fun _ _ _ => RegionKept.refl, fun _ _ _ _ _ _ => rfl⟩

theorem used (h : RegionsKept s R t) (hu : Used s.mem R x e) : Used t.mem R x e := by
  obtain ⟨r₀, hr₀, hu⟩ := hu
  exact ⟨r₀, hr₀, (h.header r₀ hr₀ hu.kind_ne).used.mpr hu⟩

theorem trans (h₁ : RegionsKept s R t) (h₂ : RegionsKept t R u) : RegionsKept s R u :=
  ⟨fun r₀ hr₀ hk₀ => (h₁.header r₀ hr₀ hk₀).trans (h₂.header r₀ hr₀ hk₀),
    fun x e hu w hw₁ hw₂ => (h₂.contents x e (h₁.used hu) w hw₁ hw₂).trans
      (h₁.contents x e hu w hw₁ hw₂)⟩

/-- Blocks of kept regions. -/
theorem slab (h : RegionsKept s R t) (hslab : SlabInv s L bins) (hR : ∀ r₀ ∈ R, r₀ ∈ L)
    (hok : ∀ r₀ ∈ R, RegionOk strict s.mem r₀) (hu : Used s.mem R x e) :
    Slab.slabClass t.mem (ptrGetSlab x) = Slab.slabClass s.mem (ptrGetSlab x) := by
  obtain ⟨r₀, hr₀, hu⟩ := hu
  rw [hu.slab (hok r₀ hr₀) (hslab.mem_facts (hR r₀ hr₀)).2.1]
  exact (h.header r₀ hr₀ hu.kind_ne).slabClass

end RegionsKept

end

end MallocBench.Slab
