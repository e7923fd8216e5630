import MallocBench.Slab.MediumFree
import MallocBench.Slab.SmallLists
import MallocBench.Slab.Packed
import MallocBench.Slab.Init

/-!
# The invariant of the whole allocator

The slab layer, the headers of the packed slabs and of the large regions, the
small bins and the medium bins. The allocated blocks are what the headers say.

An operation works on one region; the others keep their blocks, since their
headers change in the previous-alloc bit only. `RegionKept` is that relation, and
the word classes say which words an operation may write.
-/

namespace MallocBench.Slab

open Lib

/-! ## Regions and their blocks -/

/-- The header of a region is right for its kind. -/
def RegionOk (strict : Prop) (m : Nat → Nat) (r : Region) : Prop :=
  match r.kind with
  | .free => True
  | .packed => PackedOk m r.addr
  | .large => LargeOk strict m r
  | .raw => False

/-- An allocated block of the region `r` from `x` to `e`. -/
def RegionUsed (m : Nat → Nat) (r : Region) (x e : Nat) : Prop :=
  match r.kind with
  | .packed => PackedUsed m r.addr x e
  | .large => UsedIn m r x e
  | _ => False

/-- An allocated block of the regions `L`. -/
def Used (m : Nat → Nat) (L : List Region) (x e : Nat) : Prop :=
  ∃ r ∈ L, RegionUsed m r x e

/-- The packed slabs of `L` with free space, with their bins. -/
def PackedFree (m : Nat → Nat) (L : List Region) (x i : Nat) : Prop :=
  ∃ r ∈ L, r.kind = .packed ∧ r.addr = x ∧ PackedIn m x i

/-- `__int_slab_init_large_and_alloc` checks that a large region has not too many slabs. -/
def Sized (L : List Region) : Prop := ∀ r ∈ L, r.kind = .large → r.n < 2 ^ 52

/-- **The invariant of the allocator.** -/
structure HeapInv (strict : Prop) (s : Heap) (L : List Region) : Prop where
  slab : ∃ bins, SlabInv s L bins
  regions : ∀ r ∈ L, RegionOk strict s.mem r
  medium : ∃ mb, MediumLists s (FreeBlock s.mem L) mb
  small : ∃ sb, SmallLists s (PackedFree s.mem L) sb

/-- The words that decide which blocks a region has are the same. -/
structure RegionKept (m m' : Nat → Nat) (r : Region) : Prop where
  header : SameButPrev (m r.addr) (m' r.addr)
  large : r.kind = .large → m' (r.addr + 8) = m (r.addr + 8)
  packed : r.kind = .packed → ∀ x, r.addr + 24 ≤ x → x < r.addr + 56 → m' x = m x

namespace RegionKept

variable {m m' : Nat → Nat} {r : Region} {strict : Prop} {x e i : Nat}

theorem refl : RegionKept m m r := ⟨fun _ _ => rfl, fun _ => rfl, fun _ _ _ _ => rfl⟩

theorem sameBlocks (h : RegionKept m m' r) (hk : r.kind = .large) : SameBlocks m m' r.addr :=
  ⟨h.header, h.large hk⟩

theorem field (h : RegionKept m m' r) {k n : Nat} (hk : 0 < k) :
    fieldOf (m' r.addr) k n = fieldOf (m r.addr) k n := by
  refine Nat.eq_of_testBit_eq fun i => ?_
  rw [testBit_fieldOf, testBit_fieldOf, h.header _ (by omega)]

theorem packedSize (h : RegionKept m m' r) : packedSize m' r.addr = packedSize m r.addr := by
  unfold Slab.packedSize
  rw [h.field (by omega)]

theorem freeBit (h : RegionKept m m' r) (hk : r.kind = .packed) :
    freeBit m' r.addr = freeBit m r.addr := by
  funext j
  unfold Slab.freeBit
  by_cases hj : j < 256
  · rw [h.packed hk _ (by omega) (by omega)]
  · simp [hj]

theorem packedIn (h : RegionKept m m' r) (hk : r.kind = .packed) :
    PackedIn m' r.addr i ↔ PackedIn m r.addr i := by
  unfold PackedIn
  rw [h.packedSize, h.freeBit hk]

theorem ok (h : RegionKept m m' r) : RegionOk strict m' r ↔ RegionOk strict m r := by
  unfold RegionOk
  cases hk : r.kind with
  | free => exact Iff.rfl
  | packed =>
    show PackedOk m' r.addr ↔ PackedOk m r.addr
    unfold PackedOk
    rw [h.packedSize, h.freeBit hk, h.field (by omega), h.field (by omega)]
  | large => exact (h.sameBlocks hk).largeOk
  | raw => exact Iff.rfl

theorem used (h : RegionKept m m' r) : RegionUsed m' r x e ↔ RegionUsed m r x e := by
  unfold RegionUsed
  cases hk : r.kind with
  | free => exact Iff.rfl
  | packed =>
    show PackedUsed m' r.addr x e ↔ PackedUsed m r.addr x e
    unfold PackedUsed
    rw [h.packedSize, h.freeBit hk]
  | large => exact (h.sameBlocks hk).usedIn
  | raw => exact Iff.rfl

end RegionKept

theorem RegionOk.not_raw {strict : Prop} {m : Nat → Nat} {r : Region} (h : RegionOk strict m r) :
    r.kind ≠ .raw := by
  intro hk
  unfold RegionOk at h
  rwa [hk] at h

/-- The headers say which regions a heap has. -/
theorem HeapInv.eq_of_tiles {strict : Prop} {s : Heap} {L L' : List Region} {q : Bool}
    (h : HeapInv strict s L) (ht : Tiles s.mem (s.heap + 4096) true L' s.heapEnd q)
    (hraw : ∀ r ∈ L', r.kind ≠ .raw) : L = L' := by
  obtain ⟨bins, hslab⟩ := h.slab
  exact hslab.tiles.unique ht (fun r hr => (h.regions r hr).not_raw) hraw

theorem HeapInv.unique {strict strict' : Prop} {s : Heap} {L L' : List Region}
    (h : HeapInv strict s L) (h' : HeapInv strict' s L') : L = L' := by
  obtain ⟨bins, hslab⟩ := h'.slab
  exact h.eq_of_tiles hslab.tiles fun r hr => (h'.regions r hr).not_raw

/-! ## Word classes -/

section

variable {s t : Heap} {A B L : List Region} {r r₀ : Region} {bins : Nat → List Nat} {strict : Prop}
  {x e i y : Nat}

theorem RegionOk.large (h : RegionOk strict s.mem r) (hk : r.kind = .large) :
    LargeOk strict s.mem r := by
  unfold RegionOk at h
  rwa [hk] at h

theorem RegionOk.packed (h : RegionOk strict s.mem r) (hk : r.kind = .packed) :
    PackedOk s.mem r.addr := by
  unfold RegionOk at h
  rwa [hk] at h

theorem Sized.sameAlloc (h : Sized A) (hs : SameAlloc A B) : Sized B := by
  intro r hr hk
  exact h r ((hs r (by rw [hk]; decide)).mp hr) hk

theorem sized_insert : Sized (A ++ r :: B) ↔ Sized (A ++ B) ∧ (r.kind = .large → r.n < 2 ^ 52) := by
  unfold Sized
  simp only [List.mem_append, List.mem_cons]
  constructor
  · exact fun h => ⟨fun r₀ hr₀ => h r₀ (by tauto), h r (by simp)⟩
  · rintro ⟨h, hr⟩ r₀ (hr₀ | rfl | hr₀)
    · exact h r₀ (.inl hr₀)
    · exact hr
    · exact h r₀ (.inr hr₀)

/-- The blocks of large regions lie in them. -/
theorem blocksIn (hslab : SlabInv s (A ++ r :: B) bins)
    (hok : ∀ r₀ ∈ A ++ B, RegionOk strict s.mem r₀) : BlocksIn (A ++ B) (FreeBlock s.mem (A ++ B)) := by
  rintro x e ⟨r₀, hr₀, hk₀, hf⟩
  have hmem : r₀ ∈ A ++ r :: B := by
    simp only [List.mem_append, List.mem_cons] at hr₀ ⊢
    tauto
  obtain ⟨h₁, -, h₂, -, -, h₃⟩ := hf.bounds ((hok r₀ hr₀).large hk₀) (hslab.mem_facts hmem).1
  exact ⟨r₀, hr₀, by rw [hk₀]; decide, h₁, h₂, h₃⟩

/-- What the words of the medium blocks are. -/
theorem MedWord.cases (hslab : SlabInv s L bins) (hL : ∀ r₀ ∈ A, r₀ ∈ L)
    (hok : ∀ r₀ ∈ A, RegionOk strict s.mem r₀) (hx : MedWord s.heap (FreeBlock s.mem A) x) :
    (s.heap + 2232 ≤ x ∧ x < s.heap + 4024) ∨ ∃ r₀ ∈ A, r₀.kind = .large ∧ r₀.addr + 16 ≤ x ∧
      x < r₀.stop := by
  rcases hx with hpage | ⟨y, f, ⟨r₀, hr₀, hk₀, hf⟩, hxy⟩
  · exact .inl hpage
  · obtain ⟨h₁, -, h₂, -, -, h₃⟩ := hf.bounds ((hok r₀ hr₀).large hk₀)
      (hslab.mem_facts (hL r₀ hr₀)).1
    exact .inr ⟨r₀, hr₀, hk₀, by omega, by omega⟩

/-- What the words of the packed slabs in bins are. -/
theorem SmallWord.cases (hx : SmallWord s.heap (PackedFree s.mem A) x) :
    (s.heap + 2048 ≤ x ∧ x < s.heap + 2232) ∨ ∃ r₀ ∈ A, r₀.kind = .packed ∧
      (x = r₀.addr + 8 ∨ x = r₀.addr + 16) := by
  rcases hx with hpage | ⟨y, i, ⟨r₀, hr₀, hk₀, rfl, -⟩, hxy⟩
  · exact .inl hpage
  · exact .inr ⟨r₀, hr₀, hk₀, hxy⟩

/-- A word of the region `r` of a tiling is in no other region. -/
theorem SlabInv.region_eq (hslab : SlabInv s L bins) (hr : r ∈ L) (hr₀ : r₀ ∈ L)
    (hx : r.addr ≤ x ∧ x < r.stop) (hx₀ : r₀.addr ≤ x ∧ x < r₀.stop) : r = r₀ :=
  hslab.tiles.eq_of_mem hr hr₀ hx hx₀

/-- The words `W` lie outside the allocated regions of `R` and outside the bins of
packed slabs and medium blocks. -/
structure Avoids (s : Heap) (R : List Region) (W : Nat → Prop) : Prop where
  regions : ∀ r ∈ R, r.kind ≠ .free → ∀ x, r.addr ≤ x → x < r.stop → ¬ W x
  page : ∀ x, s.heap + 2048 ≤ x → x < s.heap + 4096 → ¬ W x

theorem mem_insert_region (hr : r₀ ∈ A ++ B) : r₀ ∈ A ++ r :: B := by
  simp only [List.mem_append, List.mem_cons] at hr ⊢
  tauto

/-- The words of the slab layer, when the region `r` may be freed, and those not
yet in the heap. -/
def SlabWord (s : Heap) (A : List Region) (r : Region) (B : List Region) (x : Nat) : Prop :=
  FreeWord s.heap (A ++ ⟨r.addr, r.n, .free⟩ :: B) x ∨ s.heapEnd ≤ x

/-- The slab layer by itself only writes to free slabs, its bins and headers. -/
theorem SlabInv.avoids (hslab : SlabInv s L bins) (hroom : s.heap + 4096 ≤ s.heapEnd) :
    Avoids s L (fun x => FreeWord s.heap L x ∨ s.heapEnd ≤ x) := by
  constructor
  · intro r₀ hr₀ hk₀ x h₁ h₂
    obtain ⟨-, -, hge, hle, -⟩ := hslab.mem_facts hr₀
    rintro ((hpage | ⟨r', hm, hk', hx⟩) | hx)
    · omega
    · exact hk₀ (hslab.region_eq hr₀ hm ⟨h₁, h₂⟩ hx ▸ hk')
    · omega
  · intro x h₁ h₂
    rintro ((hpage | ⟨r', hm, hk', hx⟩) | hx)
    · omega
    · have := (hslab.mem_facts hm).2.2.1
      omega
    · omega

/-- The heap starts with a page for `struct heap`. -/
theorem SlabInv.end_ge (hslab : SlabInv s L bins) : s.heap + 4096 ≤ s.heapEnd :=
  hslab.tiles.le

theorem SlabInv.slabWord_avoids (hslab : SlabInv s (A ++ r :: B) bins) :
    Avoids s (A ++ B) (SlabWord s A r B) := by
  have hend := hslab.end_ge
  have hav := hslab.avoids hend
  constructor
  · intro r₀ hr₀ hk₀ x h₁ h₂
    have hmem := mem_insert_region (r := r) hr₀
    have hnot := hav.regions r₀ hmem hk₀ x h₁ h₂
    rintro ((hpage | ⟨r', hm, hk', hx⟩) | hx)
    · exact hnot (.inl (.inl hpage))
    · simp only [List.mem_append, List.mem_cons] at hm
      rcases hm with hm | rfl | hm
      · exact hnot (.inl (.inr ⟨r', by simp [hm], hk', hx⟩))
      · have := hslab.addr_ne hr₀
        have hx₁ : r.addr ≤ x := hx.1
        have hx₂ : x < r.stop := hx.2
        omega
      · exact hnot (.inl (.inr ⟨r', by simp [hm], hk', hx⟩))
    · exact hnot (.inr hx)
  · intro x h₁ h₂
    have hnot := hav.page x h₁ h₂
    rintro ((hpage | ⟨r', hm, hk', hx⟩) | hx)
    · exact hnot (.inl (.inl hpage))
    · simp only [List.mem_append, List.mem_cons] at hm
      rcases hm with hm | rfl | hm
      · exact hnot (.inl (.inr ⟨r', by simp [hm], hk', hx⟩))
      · have := (hslab.mem_facts (r := r) (by simp)).2.2.1
        have hx₁ : r.addr ≤ x := hx.1
        omega
      · exact hnot (.inl (.inr ⟨r', by simp [hm], hk', hx⟩))
    · exact hnot (.inr hx)

/-- Only the first word of a region is a header. -/
theorem SlabInv.not_header (hslab : SlabInv s L bins) (hr₀ : r₀ ∈ L) (h₁ : r₀.addr < x)
    (h₂ : x < r₀.stop) : ¬ IsHeader L x := by
  rintro ⟨r', hm, rfl⟩
  have hn := Region.addr_lt_stop (hslab.mem_facts hm).1
  have := hslab.region_eq hr₀ hm (x := r'.addr) (by omega) (by omega)
  subst this
  omega

theorem SlabInv.not_header_page (hslab : SlabInv s L bins) (h : x < s.heap + 4096) :
    ¬ IsHeader L x := by
  rintro ⟨r', hm, rfl⟩
  have := (hslab.mem_facts hm).2.2.1
  omega

variable {R : List Region} {W : Nat → Prop}

/-- An operation that stays out of the regions `R` keeps them: it writes to `W`, to
medium blocks and to the links of packed slabs. -/
theorem regionKept (hslab : SlabInv s L bins) (hR : ∀ r₀ ∈ R, r₀ ∈ L) (hW : Avoids s R W)
    (hok : ∀ r₀ ∈ R, RegionOk strict s.mem r₀)
    (hf : MemFrame (fun x => W x ∨ MedWord s.heap (FreeBlock s.mem R) x ∨
      SmallWord s.heap (PackedFree s.mem R) x) (IsHeader L) s t) (hr₀ : r₀ ∈ R)
    (hk₀ : r₀.kind ≠ .free) : RegionKept s.mem t.mem r₀ := by
  have hmem := hR r₀ hr₀
  obtain ⟨hn, -, hge, hle, -⟩ := hslab.mem_facts hmem
  have hstop := Region.addr_lt_stop hn
  have hmed : ∀ x, r₀.addr ≤ x → x < r₀.stop → MedWord s.heap (FreeBlock s.mem R) x →
      r₀.kind = .large ∧ r₀.addr + 16 ≤ x := by
    intro x h₁ h₂ hx
    rcases hx.cases hslab hR hok with hpage | ⟨r', hr', hk', hx₁, hx₂⟩
    · omega
    · have := hslab.region_eq hmem (hR r' hr') ⟨h₁, h₂⟩ (by omega)
      subst this
      exact ⟨hk', hx₁⟩
  have hsmall : ∀ x, r₀.addr ≤ x → x < r₀.stop → SmallWord s.heap (PackedFree s.mem R) x →
      r₀.kind = .packed ∧ (x = r₀.addr + 8 ∨ x = r₀.addr + 16) := by
    intro x h₁ h₂ hx
    rcases hx.cases with hpage | ⟨r', hr', hk', hx'⟩
    · omega
    · have hn' := Region.addr_lt_stop (hslab.mem_facts (hR r' hr')).1
      have := hslab.region_eq hmem (hR r' hr') ⟨h₁, h₂⟩ (by omega)
      subst this
      exact ⟨hk', hx'⟩
  refine ⟨?_, fun hk => ?_, fun hk x h₁ h₂ => ?_⟩
  · have hout := hf.mem r₀.addr (by
      rintro (hx | hx | hx)
      · exact hW.regions r₀ hr₀ hk₀ _ (le_refl _) (by omega) hx
      · have := (hmed _ (le_refl _) (by omega) hx).2
        omega
      · have := (hsmall _ (le_refl _) (by omega) hx).2
        omega)
    rcases hout with he | ⟨-, he⟩
    · rw [he]
      exact fun _ _ => rfl
    · exact he
  · refine (hf.mem (r₀.addr + 8) ?_).resolve_right fun hc =>
      hslab.not_header hmem (by omega) (by omega) hc.1
    rintro (hx | hx | hx)
    · exact hW.regions r₀ hr₀ hk₀ _ (by omega) (by omega) hx
    · have := (hmed _ (by omega) (by omega) hx).2
      omega
    · rw [(hsmall _ (by omega) (by omega) hx).1] at hk
      cases hk
  · refine (hf.mem x ?_).resolve_right fun hc =>
      hslab.not_header hmem (by omega) (by omega) hc.1
    rintro (hx | hx | hx)
    · exact hW.regions r₀ hr₀ hk₀ _ (by omega) (by omega) hx
    · rw [(hmed _ (by omega) (by omega) hx).1] at hk
      cases hk
    · have := (hsmall _ (by omega) (by omega) hx).2
      omega

/-- Operations on large regions keep the small bins. -/
theorem smallLists_kept {sb : Nat → List Nat} (hslab : SlabInv s L bins) (hR : ∀ r₀ ∈ R, r₀ ∈ L)
    (hW : Avoids s R W) (hok : ∀ r₀ ∈ R, RegionOk strict s.mem r₀)
    (hsmall : SmallLists s (PackedFree s.mem R) sb)
    (hf : MemFrame (fun x => W x ∨ MedWord s.heap (FreeBlock s.mem R) x) (IsHeader L) s t) :
    SmallLists t (PackedFree s.mem R) sb := by
  refine hsmall.congr (fun _ _ => Iff.rfl) hf.heap hf.brk fun a ha => ?_
  rcases ha.cases with hpage | ⟨r₀, hr₀, hk₀, hx⟩
  · refine (hf.mem a ?_).resolve_right fun hc => hslab.not_header_page (by omega) hc.1
    rintro (hx | hx)
    · exact hW.page a (by omega) (by omega) hx
    · rcases hx.cases hslab hR hok with hpage' | ⟨r', hr', -, hx₁, -⟩
      · omega
      · have := (hslab.mem_facts (hR r' hr')).2.2.1
        omega
  · obtain ⟨hn, -, hge, -⟩ := hslab.mem_facts (hR r₀ hr₀)
    have hstop := Region.addr_lt_stop hn
    refine (hf.mem a ?_).resolve_right fun hc =>
      hslab.not_header (hR r₀ hr₀) (by omega) (by omega) hc.1
    rintro (hx' | hx')
    · exact hW.regions r₀ hr₀ (by rw [hk₀]; decide) a (by omega) (by omega) hx'
    · rcases hx'.cases hslab hR hok with hpage' | ⟨r', hr', hk', hx₁, hx₂⟩
      · omega
      · have := hslab.region_eq (hR r₀ hr₀) (hR r' hr') (x := a) (by omega) (by omega)
        subst this
        rw [hk₀] at hk'
        cases hk'

/-- Operations on packed slabs keep the medium bins. -/
theorem mediumLists_kept {mb : Nat → List Nat} (hslab : SlabInv s L bins) (hR : ∀ r₀ ∈ R, r₀ ∈ L)
    (hW : Avoids s R W) (hok : ∀ r₀ ∈ R, RegionOk strict s.mem r₀)
    (hmed : MediumLists s (FreeBlock s.mem R) mb) (hsk : t.medSkiplist = s.medSkiplist)
    (hf : MemFrame (fun x => W x ∨ SmallWord s.heap (PackedFree s.mem R) x) (IsHeader L) s t) :
    MediumLists t (FreeBlock s.mem R) mb := by
  refine hmed.congr (fun _ _ => Iff.rfl) hf.heap hf.brk hsk fun a ha => ?_
  rcases ha.cases hslab hR hok with hpage | ⟨r₀, hr₀, hk₀, hx₁, hx₂⟩
  · refine (hf.mem a ?_).resolve_right fun hc => hslab.not_header_page (by omega) hc.1
    rintro (hx | hx)
    · exact hW.page a (by omega) (by omega) hx
    · rcases hx.cases with hpage' | ⟨r', hr', -, hx'⟩
      · omega
      · have := (hslab.mem_facts (hR r' hr')).2.2.1
        omega
  · have hge := (hslab.mem_facts (hR r₀ hr₀)).2.2.1
    refine (hf.mem a ?_).resolve_right fun hc =>
      hslab.not_header (hR r₀ hr₀) (by omega) (by omega) hc.1
    rintro (hx' | hx')
    · exact hW.regions r₀ hr₀ (by rw [hk₀]; decide) a (by omega) (by omega) hx'
    · rcases hx'.cases with hpage' | ⟨r', hr', hk', hx'⟩
      · omega
      · have hn' := Region.addr_lt_stop (hslab.mem_facts (hR r' hr')).1
        have := hslab.region_eq (hR r₀ hr₀) (hR r' hr') (x := a) (by omega) (by omega)
        subst this
        rw [hk₀] at hk'
        cases hk'

/-- The invariant after an operation on one region: the other allocated regions
are kept, and `r'` is what has become of the region, if it still exists. -/
theorem heapInv_out {L' : List Region} (r' : Region) (kept : Prop) {bins' mb' sb' : Nat → List Nat}
    (hok : ∀ r₀ ∈ R, RegionOk strict s.mem r₀)
    (hkept : ∀ r₀ ∈ R, r₀.kind ≠ .free → RegionKept s.mem t.mem r₀)
    (hslab' : SlabInv t L' bins')
    (hL' : ∀ r₀, r₀.kind ≠ .free → (r₀ ∈ L' ↔ r₀ ∈ R ∨ (kept ∧ r₀ = r')))
    (hk' : r'.kind ≠ .free) (hok' : kept → RegionOk strict t.mem r')
    (hmed : MediumLists t (fun x e => FreeBlock s.mem R x e ∨
      (kept ∧ r'.kind = .large ∧ FreeIn t.mem r' x e)) mb')
    (hsmall : SmallLists t (fun x i => PackedFree s.mem R x i ∨
      (kept ∧ r'.kind = .packed ∧ r'.addr = x ∧ PackedIn t.mem x i)) sb') :
    HeapInv strict t L' ∧ ∀ x e, Used t.mem L' x e ↔
      Used s.mem R x e ∨ (kept ∧ RegionUsed t.mem r' x e) := by
  refine ⟨⟨⟨_, hslab'⟩, fun r₀ hr₀ => ?_, ⟨mb', ?_⟩, ⟨sb', ?_⟩⟩, fun x e => ?_⟩
  · by_cases hk₀ : r₀.kind = .free
    · unfold RegionOk
      rw [hk₀]
      trivial
    · rcases (hL' r₀ hk₀).mp hr₀ with hm | ⟨hkp, rfl⟩
      · exact (hkept r₀ hm hk₀).ok.mpr (hok r₀ hm)
      · exact hok' hkp
  · refine hmed.congr (fun x e => ?_) rfl (le_refl _) rfl fun _ _ => rfl
    constructor
    · rintro ⟨r₀, hr₀, hk₀, hf⟩
      have hkf : r₀.kind ≠ .free := by rw [hk₀]; decide
      rcases (hL' r₀ hkf).mp hr₀ with hm | ⟨hkp, rfl⟩
      · exact .inl ⟨r₀, hm, hk₀, ((hkept r₀ hm hkf).sameBlocks hk₀).freeIn.mp hf⟩
      · exact .inr ⟨hkp, hk₀, hf⟩
    · rintro (⟨r₀, hm, hk₀, hf⟩ | ⟨hkp, hk₀, hf⟩)
      · have hkf : r₀.kind ≠ .free := by rw [hk₀]; decide
        exact ⟨r₀, (hL' r₀ hkf).mpr (.inl hm), hk₀,
          ((hkept r₀ hm hkf).sameBlocks hk₀).freeIn.mpr hf⟩
      · exact ⟨r', (hL' r' hk').mpr (.inr ⟨hkp, rfl⟩), hk₀, hf⟩
  · refine hsmall.congr (fun x i => ?_) rfl (le_refl _) fun _ _ => rfl
    constructor
    · rintro ⟨r₀, hr₀, hk₀, rfl, hf⟩
      have hkf : r₀.kind ≠ .free := by rw [hk₀]; decide
      rcases (hL' r₀ hkf).mp hr₀ with hm | ⟨hkp, rfl⟩
      · exact .inl ⟨r₀, hm, hk₀, rfl, ((hkept r₀ hm hkf).packedIn hk₀).mp hf⟩
      · exact .inr ⟨hkp, hk₀, rfl, hf⟩
    · rintro (⟨r₀, hm, hk₀, rfl, hf⟩ | ⟨hkp, hk₀, rfl, hf⟩)
      · have hkf : r₀.kind ≠ .free := by rw [hk₀]; decide
        exact ⟨r₀, (hL' r₀ hkf).mpr (.inl hm), hk₀, rfl,
          ((hkept r₀ hm hkf).packedIn hk₀).mpr hf⟩
      · exact ⟨r', (hL' r' hk').mpr (.inr ⟨hkp, rfl⟩), hk₀, rfl, hf⟩
  · constructor
    · rintro ⟨r₀, hr₀, hu⟩
      have hkf : r₀.kind ≠ .free := by
        intro hk
        unfold RegionUsed at hu
        rw [hk] at hu
        exact hu
      rcases (hL' r₀ hkf).mp hr₀ with hm | ⟨hkp, rfl⟩
      · exact .inl ⟨r₀, hm, (hkept r₀ hm hkf).used.mp hu⟩
      · exact .inr ⟨hkp, hu⟩
    · rintro (⟨r₀, hm, hu⟩ | ⟨hkp, hu⟩)
      · have hkf : r₀.kind ≠ .free := by
          intro hk
          unfold RegionUsed at hu
          rw [hk] at hu
          exact hu
        exact ⟨r₀, (hL' r₀ hkf).mpr (.inl hm), (hkept r₀ hm hkf).used.mpr hu⟩
      · exact ⟨r', (hL' r' hk').mpr (.inr ⟨hkp, rfl⟩), hu⟩

/-- The heap after `mm_init`. -/
theorem heapInv_init (h : Initialised s) : HeapInv strict s [] := by
  have hbase := h.inv.free.lists.base
  have hpos := h.inv.free.lists.pos
  have hroom := h.inv.free.lists.room
  refine ⟨⟨_, h.inv⟩, by simp, ⟨fun _ => [], ?_⟩, fun _ => [], ?_⟩
  · refine ⟨NullLists.empty (NullList.good_medium hbase hpos) hroom fun i hi => ?_, ?_, ?_, ?_, ?_⟩
    · exact h.medium i hi
    · rintro x e ⟨r, hr, -⟩
      cases hr
    · rintro x e e' ⟨r, hr, -⟩
      cases hr
    · refine fun i x _ => iff_of_false (by simp) ?_
      rintro ⟨e, ⟨r, hr, -⟩, -⟩
      cases hr
    · simp
  · refine ⟨NullLists.empty (NullList.good_small hbase hpos) hroom fun i hi => ?_, ?_, ?_⟩
    · show s.mem (smallList.hd s.heap i + 8) = 0
      rw [smallList_hd]
      exact h.small i hi
    · rintro x i ⟨r, hr, -⟩
      cases hr
    · refine fun i x _ => iff_of_false (by simp) ?_
      rintro ⟨r, hr, -⟩
      cases hr

end

end MallocBench.Slab
