import MallocBench.Slab.Reblock
import MallocBench.Slab.SlabSearch

/-!
# The heap around one region

While an operation works on a region, the slab layer and the other regions are as
always; what the region holds is being changed. `Around` is the invariant without the
contents of that region, and `Around.finish` puts the region back.
-/

namespace MallocBench.Slab

open Lib

/-- The regions around `r`, and the small bins without `r`. -/
structure Around (strict : Prop) (s : Heap) (A : List Region) (r : Region) (B : List Region) :
    Prop where
  slab : ∃ bins, SlabInv s (A ++ r :: B) bins
  regions : ∀ r₀ ∈ A ++ B, RegionOk strict s.mem r₀
  small : ∃ sb, SmallLists s (PackedFree s.mem (A ++ B)) sb

section

variable {s t : Heap} {A B L L' : List Region} {r r' : Region} {bins mb sb : Nat → List Nat}
  {strict : Prop} {m m' : Nat → Nat} {sk : Nat → BitVec 32} {n x y e i : Nat}

/-! ## Blocks and kept regions -/

theorem packedFree_kept (h : ∀ r₀ ∈ L, r₀.kind ≠ .free → RegionKept m m' r₀) :
    PackedFree m' L x i ↔ PackedFree m L x i := by
  refine exists_congr fun r₀ => and_congr_right fun hr₀ => and_congr_right fun hk₀ =>
    and_congr_right fun hx => ?_
  rw [← hx]
  exact (h r₀ hr₀ (by rw [hk₀]; decide)).packedIn hk₀

theorem regionOk_kept (h : ∀ r₀ ∈ L, r₀.kind ≠ .free → RegionKept m m' r₀)
    (hok : ∀ r₀ ∈ L, RegionOk strict m r₀) : ∀ r₀ ∈ L, RegionOk strict m' r₀ := by
  intro r₀ hr₀
  by_cases hk₀ : r₀.kind = .free
  · unfold RegionOk
    rw [hk₀]
    trivial
  · exact (h r₀ hr₀ hk₀).ok.mpr (hok r₀ hr₀)

/-- Free regions have no blocks. -/
theorem used_sameAlloc (h : SameAlloc L L') : Used m L' x e ↔ Used m L x e := by
  have hkind : ∀ r₀, RegionUsed m r₀ x e → r₀.kind ≠ .free := by
    intro r₀ hu hk
    unfold RegionUsed at hu
    rw [hk] at hu
    exact hu
  exact ⟨fun ⟨r₀, hr₀, hu⟩ => ⟨r₀, (h r₀ (hkind r₀ hu)).mp hr₀, hu⟩,
    fun ⟨r₀, hr₀, hu⟩ => ⟨r₀, (h r₀ (hkind r₀ hu)).mpr hr₀, hu⟩⟩

theorem freeBlock_sameAlloc (h : SameAlloc L L') : FreeBlock m L' x e ↔ FreeBlock m L x e := by
  have hkind : ∀ {r₀ : Region}, r₀.kind = .large → r₀.kind ≠ .free := by
    intro r₀ hk
    rw [hk]
    decide
  exact ⟨fun ⟨r₀, hr₀, hk, hf⟩ => ⟨r₀, (h r₀ (hkind hk)).mp hr₀, hk, hf⟩,
    fun ⟨r₀, hr₀, hk, hf⟩ => ⟨r₀, (h r₀ (hkind hk)).mpr hr₀, hk, hf⟩⟩

theorem packedFree_sameAlloc (h : SameAlloc L L') : PackedFree m L' x i ↔ PackedFree m L x i := by
  have hkind : ∀ {r₀ : Region}, r₀.kind = .packed → r₀.kind ≠ .free := by
    intro r₀ hk
    rw [hk]
    decide
  exact ⟨fun ⟨r₀, hr₀, hk, hf⟩ => ⟨r₀, (h r₀ (hkind hk)).mp hr₀, hk, hf⟩,
    fun ⟨r₀, hr₀, hk, hf⟩ => ⟨r₀, (h r₀ (hkind hk)).mpr hr₀, hk, hf⟩⟩

theorem regionOk_sameAlloc (h : SameAlloc L L') (hok : ∀ r₀ ∈ L, RegionOk strict m r₀) :
    ∀ r₀ ∈ L', RegionOk strict m r₀ := by
  intro r₀ hr₀
  by_cases hk₀ : r₀.kind = .free
  · unfold RegionOk
    rw [hk₀]
    trivial
  · exact hok r₀ ((h r₀ hk₀).mp hr₀)

/-! ## Opening and closing a region -/

/-- An allocated region is taken out. -/
theorem HeapInv.around (h : HeapInv strict s (A ++ r :: B)) (hk : r.kind ≠ .packed) :
    Around strict s A r B := by
  obtain ⟨sb, hsmall⟩ := h.small
  exact ⟨h.slab, fun r₀ hr₀ => h.regions r₀ (mem_insert_region hr₀), sb,
    hsmall.congr (fun x i => (packedFree_insert hk).symm) rfl (le_refl _) fun _ _ => rfl⟩

/-- Writes to links of blocks and slabs and inside the region `r`, which becomes `r'`, keep
the slab layer. -/
theorem SlabInv.of_blockWord (h : SlabInv s (A ++ r :: B) bins) (hr : r.kind ≠ .free)
    (hr' : r'.kind ≠ .free) (haddr : r'.addr = r.addr) (hn : r'.n = r.n)
    (hoth : ∀ r₀ ∈ A ++ B, RegionOk strict s.mem r₀) (hok : ∀ p, r.Ok s.mem p → r'.Ok m' p)
    (hm : ∀ x, ¬ MedWord s.heap (FreeBlock s.mem (A ++ B)) x →
      ¬ SmallWord s.heap (PackedFree s.mem (A ++ B)) x → x < r.addr ∨ r.stop ≤ x →
      m' x = s.mem x) :
    SlabInv { s with mem := m', medSkiplist := sk } (A ++ r' :: B) bins := by
  have hsub : ∀ r₀ ∈ A ++ B, r₀ ∈ A ++ r :: B := fun _ => mem_insert_region
  -- which words of another region are written
  have hcell : ∀ r₀ ∈ A ++ B, ∀ y, r₀.addr ≤ y → y < r₀.stop → r₀.kind = .free ∨ y = r₀.addr ∨
      (y = r₀.addr + 8 ∧ r₀.kind = .large) → m' y = s.mem y := by
    intro r₀ hr₀ y hy₁ hy₂ hy
    obtain ⟨hn₀, -, hge, -⟩ := h.mem_facts (hsub r₀ hr₀)
    have := h.addr_ne hr₀
    refine hm y (fun hx => ?_) (fun hx => ?_) (by omega)
    · rcases hx.cases h hsub hoth with hpage | ⟨r₁, hr₁, hk₁, hx₁, hx₂⟩
      · omega
      · have heq := h.region_eq (hsub r₀ hr₀) (hsub r₁ hr₁) (x := y) ⟨hy₁, hy₂⟩ (by omega)
        subst heq
        rcases hy with hk | hy | ⟨hy, -⟩
        · rw [hk] at hk₁
          cases hk₁
        · omega
        · omega
    · rcases hx.cases with hpage | ⟨r₁, hr₁, hk₁, hx₁⟩
      · omega
      · have hlen₁ := Region.addr_lt_stop (h.mem_facts (hsub r₁ hr₁)).1
        have heq := h.region_eq (hsub r₀ hr₀) (hsub r₁ hr₁) (x := y) ⟨hy₁, hy₂⟩ (by omega)
        subst heq
        rcases hy with hk | hy | ⟨-, hk⟩
        · rw [hk] at hk₁
          cases hk₁
        · omega
        · rw [hk] at hk₁
          cases hk₁
  refine h.rewrite (Region.isAlloc_eq_true.mpr hr) (Region.isAlloc_eq_true.mpr hr') haddr hn hok rfl
    rfl rfl rfl rfl (fun x h₁ h₂ => hm x (fun hx => ?_) (fun hx => ?_) ?_) (fun r₀ hr₀ => ?_)
    fun r₀ hr₀ hk₀ => ?_
  · rcases hx.cases h hsub hoth with hpage | ⟨r₁, hr₁, -, hx₁, -⟩
    · omega
    · have := (h.mem_facts (hsub r₁ hr₁)).2.2.1
      omega
  · rcases hx.cases with hpage | ⟨r₁, hr₁, -, hx₁⟩
    · omega
    · have := (h.mem_facts (hsub r₁ hr₁)).2.2.1
      omega
  · have := (h.mem_facts (r := r) (by simp)).2.2.1
    omega
  · have hlen := Region.addr_lt_stop (h.mem_facts (hsub r₀ hr₀)).1
    refine ⟨fun i _ => ?_, fun hk => ?_, fun hk => ⟨?_, ?_⟩⟩
    · exact congrArg (Nat.testBit · i) (hcell r₀ hr₀ _ (le_refl _) (by omega) (.inr (.inl rfl)))
    · exact congrArg (· % 2 ^ 56) (hcell r₀ hr₀ _ (by omega) (by omega) (.inr (.inr ⟨rfl, hk⟩)))
    · exact hcell r₀ hr₀ _ (by omega) (by omega) (.inl hk)
    · exact hcell r₀ hr₀ _ (by omega) (by omega) (.inl hk)
  · have hlen := Region.addr_lt_stop (h.mem_facts (hsub r₀ hr₀)).1
    exact ⟨hcell r₀ hr₀ _ (by omega) (by omega) (.inl hk₀),
      hcell r₀ hr₀ _ (by omega) (by omega) (.inl hk₀)⟩

/-- The same writes keep the other regions. -/
theorem Around.regionsKept (h : Around strict s A r B)
    (hm : ∀ x, ¬ MedWord s.heap (FreeBlock s.mem (A ++ B)) x →
      ¬ SmallWord s.heap (PackedFree s.mem (A ++ B)) x → x < r.addr ∨ r.stop ≤ x →
      m' x = s.mem x) : RegionsKept s (A ++ B) { s with mem := m', medSkiplist := sk } := by
  obtain ⟨bins, hslab⟩ := h.slab
  refine Slab.regionsKept hslab (fun _ => mem_insert_region) hslab.slabWord_avoids h.regions
    (MemFrame.of_mem rfl (le_refl _) fun x hx => hm x (fun hc => hx (.inr (.inl hc)))
      (fun hc => hx (.inr (.inr hc))) ?_)
  by_contra hcon
  exact hx (.inl (.inl (.inr ⟨⟨r.addr, r.n, .free⟩, by simp, rfl, by
    show r.addr ≤ x
    omega, by
    show x < r.stop
    omega⟩)))

/-- **The region `r` is filled and becomes `r'`.** -/
theorem Around.finish (h : Around strict s A r B) (r' : Region) (m' : Nat → Nat)
    (sk : Nat → BitVec 32) (hr : r.kind ≠ .free) (hr' : r'.kind ≠ .free)
    (haddr : r'.addr = r.addr) (hn : r'.n = r.n) (hok : ∀ p, r.Ok s.mem p → r'.Ok m' p)
    (hrok : RegionOk strict m' r')
    (hm : ∀ x, ¬ MedWord s.heap (FreeBlock s.mem (A ++ B)) x →
      ¬ SmallWord s.heap (PackedFree s.mem (A ++ B)) x → x < r.addr ∨ r.stop ≤ x →
      m' x = s.mem x)
    (hmed : MediumLists { s with mem := m', medSkiplist := sk } (fun x e =>
      FreeBlock s.mem (A ++ B) x e ∨ (r'.kind = .large ∧ FreeIn m' r' x e)) mb)
    (hsmall : SmallLists { s with mem := m', medSkiplist := sk } (fun x i =>
      PackedFree s.mem (A ++ B) x i ∨ (r'.kind = .packed ∧ r'.addr = x ∧ PackedIn m' x i)) sb) :
    HeapInv strict { s with mem := m', medSkiplist := sk } (A ++ r' :: B) ∧
      ∀ x e, Used m' (A ++ r' :: B) x e ↔ Used s.mem (A ++ B) x e ∨ RegionUsed m' r' x e := by
  obtain ⟨bins, hslab⟩ := h.slab
  obtain ⟨hinv, hused⟩ := heapInv_out r' True
    (t := { s with mem := m', medSkiplist := sk }) h.regions (h.regionsKept hm).header
    (hslab.of_blockWord hr hr' haddr hn h.regions hok hm)
    (fun r₀ hk₀ => by simp only [List.mem_append, List.mem_cons]; tauto) hr' (fun _ => hrok)
    (hmed.congr (fun x e => by simp) rfl (le_refl _) rfl fun _ _ => rfl)
    (hsmall.congr (fun x i => by simp) rfl (le_refl _) fun _ _ => rfl)
  exact ⟨hinv, fun x e => by rw [hused, true_and]⟩

/-- The heap after `__int_alloc_slab`, around the new region. -/
theorem HeapInv.allocated (h : HeapInv strict s L) (ha : Allocated s L n y t) :
    ∃ A B, Around strict t A ⟨y, n, .raw⟩ B ∧ (∃ mb, MediumLists t (FreeBlock t.mem (A ++ B)) mb) ∧
      SameAlloc L (A ++ B) ∧ RegionsKept s L t ∧
      ∀ x e, Used t.mem (A ++ B) x e ↔ Used s.mem L x e := by
  obtain ⟨A, B, bins', hslab', hsame⟩ := ha.inv
  obtain ⟨bins, hslab⟩ := h.slab
  obtain ⟨mb, hmed⟩ := h.medium
  obtain ⟨sb, hsmall⟩ := h.small
  have hav := hslab.avoids hslab.end_ge
  have hf := ha.frame.memFrame
  have hothers : RegionsKept s L t :=
    Slab.regionsKept hslab (fun _ => id) hav h.regions (hf.mono (fun x => .inl) fun _ => id)
  have hkept := hothers.header
  have hmed' := mediumLists_kept hslab (fun _ => id) hav h.regions hmed ha.frame.med
    (hf.mono (fun x => .inl) fun _ => id)
  have hsmall' := smallLists_kept hslab (fun _ => id) hav h.regions hsmall
    (hf.mono (fun x => .inl) fun _ => id)
  refine ⟨A, B, ⟨⟨bins', hslab'⟩, regionOk_sameAlloc hsame (regionOk_kept hkept h.regions), sb, ?_⟩,
    ⟨mb, ?_⟩, hsame, hothers, fun x e => ?_⟩
  · exact hsmall'.congr (fun x i => by rw [packedFree_sameAlloc hsame, packedFree_kept hkept]) rfl
      (le_refl _) fun _ _ => rfl
  · exact hmed'.congr (fun x e => by rw [freeBlock_sameAlloc hsame, freeBlock_kept hkept]) rfl
      (le_refl _) rfl fun _ _ => rfl
  · rw [used_sameAlloc hsame, used_kept hkept]

/-! ## Writing the header of a large region -/

/-- Links of packed slabs are outside the region. -/
theorem Around.smallWord_outside (h : Around strict s A r B)
    (hx : SmallWord s.heap (PackedFree s.mem (A ++ B)) x) : x < r.addr ∨ r.stop ≤ x := by
  obtain ⟨bins, hslab⟩ := h.slab
  rcases hx.cases with hpage | ⟨r₀, hr₀, -, hx₀⟩
  · have := (hslab.mem_facts (r := r) (by simp)).2.2.1
    omega
  · have hlen₀ := Region.addr_lt_stop (hslab.mem_facts (mem_insert_region (r := r) hr₀)).1
    have := hslab.addr_ne hr₀
    omega

/-- They are not written by work on medium blocks. -/
theorem Around.smallWord_not_inner (h : Around strict s A r B)
    (hx : SmallWord s.heap (PackedFree s.mem (A ++ B)) x) :
    ¬ InnerWord s A r B x ∧ x ≠ r.addr ∧ x ≠ r.addr + 8 := by
  obtain ⟨bins, hslab⟩ := h.slab
  have hlen := Region.addr_lt_stop (hslab.mem_facts (r := r) (by simp)).1
  have hsub : ∀ r₀ ∈ A ++ B, r₀ ∈ A ++ r :: B := fun _ => mem_insert_region
  have hxr := h.smallWord_outside hx
  refine ⟨?_, by omega, by omega⟩
  rintro (hc | hc)
  · rcases hc.cases hslab hsub h.regions with hpage' | ⟨r₁, hr₁, hk₁, hx₁, hx₂⟩
    · rcases hx.cases with hpage | ⟨r₀, hr₀, -, hx₀⟩
      · omega
      · have := (hslab.mem_facts (hsub r₀ hr₀)).2.2.1
        omega
    · rcases hx.cases with hpage | ⟨r₀, hr₀, hk₀, hx₀⟩
      · have := (hslab.mem_facts (hsub r₁ hr₁)).2.2.1
        omega
      · have hlen₀ := Region.addr_lt_stop (hslab.mem_facts (hsub r₀ hr₀)).1
        have heq := hslab.region_eq (hsub r₀ hr₀) (hsub r₁ hr₁) (x := x) (by omega) (by omega)
        subst heq
        rw [hk₀] at hk₁
        cases hk₁
  · omega

variable {F : Nat → Nat → Prop} {off : Nat → Nat} {al : Nat → Bool} {k v v₂ : Nat}

/-- **The bins and the header words of a region describe the same blocks**: then the region
is a large one with these blocks. -/
theorem Around.refill (h : Around strict s A r B) (hr : r.kind ≠ .free)
    (hmed : MediumLists { s with mem := m, medSkiplist := sk } F mb)
    (hm : ∀ x, ¬ InnerWord s A r B x → x ≠ r.addr → x ≠ r.addr + 8 → m x = s.mem x)
    (hF : ∀ x e, F x e ↔ WithFree (FreeBlock s.mem (A ++ B)) r.addr (FreeAt off al k) x e)
    (hok : BlocksOk strict off al r.n k) (hoff : ∀ j, blockOff (m r.addr) j = off j)
    (hal : ∀ j, blockAl (m (r.addr + 8)) j = al j)
    (h01 : ∀ j, j < 2 → (m r.addr).testBit j = (s.mem r.addr).testBit j)
    (h2 : (m r.addr).testBit 2 = false) (hsz : m (r.addr + 8) % 2 ^ 56 = r.n) :
    Reblocked strict s A ⟨r.addr, r.n, .large⟩ B off al k
      { s with mem := m, medSkiplist := sk } := by
  obtain ⟨bins, hslab⟩ := h.slab
  obtain ⟨sb, hsmall⟩ := h.small
  obtain ⟨hn, -⟩ := hslab.mem_facts (r := r) (by simp)
  have hlen := Region.addr_lt_stop hn
  have hblocks := largeOk_of (r := ⟨r.addr, r.n, .large⟩) (m := m) hok hn hoff hal
  obtain ⟨hlarge, hoffM, halM, hcntM⟩ := hblocks
  have hFreeIn : ∀ x e, FreeIn m ⟨r.addr, r.n, .large⟩ x e ↔
      ∃ o o', FreeAt off al k o o' ∧ x = r.addr + o ∧ e = r.addr + o' := by
    intro x e
    unfold FreeIn
    rw [hoffM, halM, hcntM]
  have hout : ∀ x, ¬ MedWord s.heap (FreeBlock s.mem (A ++ B)) x → x < r.addr ∨ r.stop ≤ x →
      m x = s.mem x := by
    intro x hx hxr
    refine hm x ?_ (by omega) (by omega)
    rintro (hc | hc)
    · exact hx hc
    · omega
  have hrok : ∀ p, r.Ok s.mem p → Region.Ok m p ⟨r.addr, r.n, .large⟩ := by
    intro p hp
    refine ⟨hn, ?_, ?_, h2, hsz⟩
    · rw [h01 0 (by omega), hp.alloc_bit, Region.isAlloc_eq_true.mpr hr]
      rfl
    · rw [h01 1 (by omega), hp.prev_bit]
  obtain ⟨hinv, hused⟩ := h.finish ⟨r.addr, r.n, .large⟩ m sk hr (by rintro ⟨⟩) rfl rfl hrok hlarge
    (fun x hx _ hxr => hout x hx hxr)
    (hmed.congr (fun x e => by rw [hF, WithFree, hFreeIn]; simp) rfl (le_refl _) rfl
      fun _ _ => rfl)
    (hsmall.congr (fun x i => by simp) rfl (le_refl _) fun x hx => by
      obtain ⟨h₁, h₂, h₃⟩ := h.smallWord_not_inner hx
      exact hm x h₁ h₂ h₃)
  have hothers : RegionsKept s (A ++ B) { s with mem := m, medSkiplist := sk } :=
    h.regionsKept fun x hx _ hxr => hout x hx hxr
  refine ⟨hinv, fun x e => ?_, fun x e => ?_, hothers, rfl, rfl⟩
  · rw [hused]
    show _ ∨ UsedIn m ⟨r.addr, r.n, .large⟩ x e ↔ _
    unfold UsedIn
    rw [hoffM, halM, hcntM]
  · rw [freeBlock_insert rfl, WithFree, WithFree,
      freeBlock_kept hothers.header, hoffM, halM, hcntM]

/-- **Writing both header words of a region**, which becomes a large one. -/
theorem Around.fillLarge (h : Around strict s A r B) (hr : r.kind ≠ .free)
    (hmed : MediumLists { s with mem := m', medSkiplist := sk } F mb)
    (hm : ∀ x, ¬ InnerWord s A r B x → x ≠ r.addr → x ≠ r.addr + 8 → m' x = s.mem x)
    (hF : ∀ x e, F x e ↔ WithFree (FreeBlock s.mem (A ++ B)) r.addr (FreeAt off al k) x e)
    (hok : BlocksOk strict off al r.n k) (hoff : ∀ j, blockOff v j = off j)
    (hal : ∀ j, blockAl v₂ j = al j)
    (h01 : ∀ j, j < 2 → v.testBit j = (s.mem r.addr).testBit j) (h2 : v.testBit 2 = false)
    (hsz : v₂ % 2 ^ 56 = r.n) :
    wp (do store64 r.addr v; store64 (r.addr + 8) v₂)
      (fun _ t => Reblocked strict s A ⟨r.addr, r.n, .large⟩ B off al k t)
      { s with mem := m', medSkiplist := sk } := by
  obtain ⟨bins, hslab⟩ := h.slab
  obtain ⟨hn, halign, hge, hle, -⟩ := hslab.mem_facts (r := r) (by simp)
  have hlen := Region.addr_lt_stop hn
  have hbrk := hslab.brk
  have hG := blocksIn hslab h.regions
  rw [wp_bind, wp_store64]
  refine ⟨hslab.valid (r := r) (by simp) (le_refl _) (by omega) (by omega), ?_⟩
  rw [wp_store64]
  refine ⟨hslab.valid (r := r) (by simp) (by omega) (by omega) (by omega), ?_⟩
  simp only [Heap.setMem]
  generalize hM : Function.update (Function.update m' r.addr v) (r.addr + 8) v₂ = M
  have hM₁ : M r.addr = v := by
    rw [← hM, Function.update_of_ne (by omega), Function.update_self]
  have hM₂ : M (r.addr + 8) = v₂ := by rw [← hM, Function.update_self]
  have hMout : ∀ x, x ≠ r.addr → x ≠ r.addr + 8 → M x = m' x := fun x h₁ h₂ => by
    rw [← hM, Function.update_of_ne h₂, Function.update_of_ne h₁]
  have hinner : ∀ x, MedWord s.heap F x → x ≠ r.addr ∧ x ≠ r.addr + 8 := by
    intro x hx
    have hin : InnerWord s A r B x := hx.innerWord fun y f hy => by
      rcases (hF y f).mp hy with hg | ⟨o, o', hf, rfl, rfl⟩
      · exact .inl hg
      · have := hok.freeAt_bounds hn hf
        exact .inr (by omega)
    exact ⟨fun hc => InnerWord.not_header hslab hG (.inl hc) hin,
      fun hc => InnerWord.not_header hslab hG (.inr hc) hin⟩
  exact h.refill hr
    (hmed.congr (fun _ _ => Iff.rfl) rfl (le_refl _) rfl fun x hx =>
      hMout x (hinner x hx).1 (hinner x hx).2)
    (fun x hx h₁ h₂ => (hMout x h₁ h₂).trans (hm x hx h₁ h₂)) hF hok
    (fun j => by rw [hM₁, hoff]) (fun j => by rw [hM₂, hal]) (fun j hj => by rw [hM₁, h01 j hj])
    (by rw [hM₁, h2]) (by rw [hM₂, hsz])

end

end MallocBench.Slab
