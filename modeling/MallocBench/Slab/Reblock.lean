import MallocBench.Slab.BlockLookup
import MallocBench.Slab.HeapFree

/-!
# Changing the blocks of one region

The operations inside one large region (splitting a block, cutting it, growing it
into the next) work on the medium bins first and write the two header words last.
`reblock_spec` puts the two together: when the bins hold the free blocks that the
new header words describe, the invariant holds again.
-/

namespace MallocBench.Slab

open Lib

section

variable {s t u : Heap} {A B L : List Region} {r : Region} {bins mb : Nat → List Nat}
  {F : Nat → Nat → Prop} {off : Nat → Nat} {al : Nat → Bool} {strict : Prop}
  {n k i o x e p size : Nat}

theorem freeBlock_kept {m m' : Nat → Nat}
    (h : ∀ r₀ ∈ L, r₀.kind ≠ .free → RegionKept m m' r₀) :
    FreeBlock m' L x e ↔ FreeBlock m L x e := by
  constructor
  · rintro ⟨r₀, hr₀, hk₀, hf⟩
    exact ⟨r₀, hr₀, hk₀, ((h r₀ hr₀ (by rw [hk₀]; decide)).sameBlocks hk₀).freeIn.mp hf⟩
  · rintro ⟨r₀, hr₀, hk₀, hf⟩
    exact ⟨r₀, hr₀, hk₀, ((h r₀ hr₀ (by rw [hk₀]; decide)).sameBlocks hk₀).freeIn.mpr hf⟩

theorem used_kept {m m' : Nat → Nat} (h : ∀ r₀ ∈ L, r₀.kind ≠ .free → RegionKept m m' r₀) :
    Used m' L x e ↔ Used m L x e := by
  refine exists_congr fun r₀ => and_congr_right fun hr₀ => ?_
  by_cases hk₀ : r₀.kind = .free
  · unfold RegionUsed
    rw [hk₀]
  · exact (h r₀ hr₀ hk₀).used

/-- The heap after an operation inside one large region that has given it the
blocks `off` and `al`. -/
structure Reblocked (strict : Prop) (s : Heap) (A : List Region) (r : Region) (B : List Region)
    (off : Nat → Nat) (al : Nat → Bool) (k : Nat) (t : Heap) : Prop where
  inv : HeapInv strict t (A ++ r :: B)
  used : ∀ x e, Used t.mem (A ++ r :: B) x e ↔ Used s.mem (A ++ B) x e ∨
    ∃ o o', UsedAt off al r.n k o o' ∧ x = r.addr + o ∧ e = r.addr + o'
  free : ∀ x e, FreeBlock t.mem (A ++ r :: B) x e ↔
    WithFree (FreeBlock s.mem (A ++ B)) r.addr (FreeAt off al k) x e
  others : RegionsKept s (A ++ B) t
  heap : t.heap = s.heap
  heapEnd : t.heapEnd = s.heapEnd

theorem Rewritten.reblocked (hinv : HeapInv strict s (A ++ r :: B)) (hk : r.kind = .large)
    (h : Rewritten strict u A r B F off al k t)
    (hF : ∀ x e, F x e ↔ WithFree (FreeBlock s.mem (A ++ B)) r.addr (FreeAt off al k) x e)
    (hu : ∃ m' sk, u = { s with mem := m', medSkiplist := sk })
    (hm : ∀ x, ¬ MedWord s.heap (FreeBlock s.mem (A ++ B)) x → x < r.addr ∨ r.stop ≤ x →
      u.mem x = s.mem x) : Reblocked strict s A r B off al k t := by
  obtain ⟨m', sk, rfl⟩ := hu
  have hstate := h.state
  have hmem : r ∈ A ++ r :: B := by simp
  have hr : (⟨r.addr, r.n, .large⟩ : Region) = r := by rw [← hk]
  obtain ⟨bins, hslab⟩ := hinv.slab
  obtain ⟨sb, hsmall⟩ := hinv.small
  obtain ⟨bins', hslab'⟩ := h.slab
  obtain ⟨mb', hmed'⟩ := h.medium
  obtain ⟨hn, -⟩ := hslab.mem_facts hmem
  have hlen := Region.addr_lt_stop hn
  have hsub : ∀ r₀ ∈ A ++ B, r₀ ∈ A ++ r :: B := fun _ => mem_insert_region
  have hoth : ∀ r₀ ∈ A ++ B, RegionOk strict s.mem r₀ :=
    fun r₀ hr₀ => hinv.regions r₀ (mem_insert_region hr₀)
  have hframe : MemFrame (fun x => SlabWord s A r B x ∨
      MedWord s.heap (FreeBlock s.mem (A ++ B)) x) (IsHeader (A ++ r :: B)) s t := by
    refine MemFrame.of_mem (by rw [hstate]) (by rw [hstate]) fun x hx => ?_
    have hout : x < r.addr ∨ r.stop ≤ x := by
      by_contra hcon
      exact hx (.inl (.inl (.inr ⟨⟨r.addr, r.n, .free⟩, by simp, rfl, by
        show r.addr ≤ x
        omega, by
        show x < r.stop
        omega⟩)))
    rw [h.mem x (by omega) (by omega)]
    exact hm x (fun hc => hx (.inr hc)) hout
  have hothers : RegionsKept s (A ++ B) t := regionsKept hslab hsub hslab.slabWord_avoids hoth
    (hframe.mono (fun x hx => hx.imp_right .inl) fun _ => id)
  have hkept := hothers.header
  have hsmall' : SmallLists t (PackedFree s.mem (A ++ B)) sb :=
    smallLists_kept hslab hsub hslab.slabWord_avoids hoth (hsmall.congr (fun x i =>
      (packedFree_insert (by rw [hk]; decide)).symm) rfl (le_refl _) fun _ _ => rfl) hframe
  obtain ⟨hinv', hused⟩ := heapInv_out ⟨r.addr, r.n, .large⟩ True hoth hkept
    hslab' (fun r₀ hk₀ => by simp only [List.mem_append, List.mem_cons]; tauto) (by rintro ⟨⟩)
    (fun _ => h.ok)
    (hmed'.congr (fun x e => by rw [hF, WithFree, h.freeIn]; simp) rfl (le_refl _) rfl
      fun _ _ => rfl)
    (hsmall'.congr (fun x e => by simp) rfl (le_refl _) fun _ _ => rfl)
  rw [hr] at hinv' hused
  refine ⟨hinv', fun x e => ?_, fun x e => ?_, hothers, hframe.heap, by rw [hstate]⟩
  · rw [hused]
    unfold RegionUsed
    rw [hk, true_and]
    show _ ∨ UsedIn t.mem r x e ↔ _
    unfold UsedIn
    rw [h.off, h.al, h.cnt]
  · rw [freeBlock_insert hk, WithFree, WithFree, freeBlock_kept hkept, h.off, h.al, h.cnt]

/-- Blocks of other regions do not start in the region `r`. -/
theorem freeBlock_ne (hslab : SlabInv s (A ++ r :: B) bins)
    (hG : BlocksIn (A ++ B) (FreeBlock s.mem (A ++ B))) (hx : FreeBlock s.mem (A ++ B) x e)
    (h₁ : r.addr ≤ p) (h₂ : p < r.stop) : x ≠ p := by
  obtain ⟨r₀, hr₀, -, hx₁, hx₂, hx₃⟩ := hG x e hx
  have := hslab.addr_ne hr₀
  omega

/-! ## Linking and unlinking blocks of one region -/

section

variable {G P : Nat → Nat → Prop} {a o' : Nat}

theorem withFree_congr {P' : Nat → Nat → Prop} (h : ∀ o o', P o o' ↔ P' o o') :
    WithFree G a P x e ↔ WithFree G a P' x e := by
  unfold WithFree
  simp only [h]

theorem unlinkIn_spec (hmed : MediumLists s (WithFree G a P) mb) (hP : P o e)
    (hne : ∀ y f, G y f → y ≠ a + o) :
    wp (mediumBinUnlink (a + o)) (fun _ t => ∃ m' mb', t = { s with mem := m' } ∧
      MediumLists { s with mem := m' } (WithFree G a fun y f => P y f ∧ y ≠ o) mb' ∧
      ∀ x, ¬ MedWord s.heap (WithFree G a P) x → m' x = s.mem x) s := by
  refine wp_mono (hmed.unlink (x := a + o) (.inr ⟨o, e, hP, rfl, rfl⟩)) fun _ t ht => ?_
  obtain ⟨m', mb', rfl, hmed', hm⟩ := ht
  refine ⟨m', mb', rfl, hmed'.congr (fun y f => ?_) rfl (le_refl _) rfl fun _ _ => rfl, hm⟩
  unfold WithFree
  constructor
  · rintro (hg | ⟨z, z', ⟨hp, hz⟩, rfl, rfl⟩)
    · exact ⟨.inl hg, hne y f hg⟩
    · exact ⟨.inr ⟨z, z', hp, rfl, rfl⟩, by omega⟩
  · rintro ⟨hg | ⟨z, z', hp, rfl, rfl⟩, hz⟩
    · exact .inl hg
    · exact .inr ⟨z, z', ⟨hp, by omega⟩, rfl, rfl⟩

theorem linkIn_spec (hmed : MediumLists s (WithFree G a P) mb) (hal : (a + o) % 16 = 0)
    (hge : s.heap + 4096 ≤ a) (hsize : o + 512 ≤ o') (hsize' : o' < o + 4096)
    (hroom : a + o' ≤ s.brk) (hne : ∀ y f, G y f → y ≠ a + o) (hfresh : ∀ f, ¬ P o f) :
    wp (mediumBinLink (a + o) (o' - o)) (fun _ t => ∃ m' sk mb',
      t = { s with mem := m', medSkiplist := sk } ∧
      MediumLists t (WithFree G a fun y f => P y f ∨ (y = o ∧ f = o')) mb' ∧
      ∀ x, ¬ MedWord s.heap (WithFree G a fun y f => P y f ∨ (y = o ∧ f = o')) x →
        m' x = s.mem x) s := by
  have hiff : ∀ y f, WithFree G a (fun y f => P y f ∨ (y = o ∧ f = o')) y f ↔
      WithFree G a P y f ∨ (y = a + o ∧ f = a + o') := by
    intro y f
    unfold WithFree
    constructor
    · rintro (hg | ⟨z, z', hp | ⟨rfl, rfl⟩, rfl, rfl⟩)
      · exact .inl (.inl hg)
      · exact .inl (.inr ⟨z, z', hp, rfl, rfl⟩)
      · exact .inr ⟨rfl, rfl⟩
    · rintro ((hg | ⟨z, z', hp, rfl, rfl⟩) | ⟨rfl, rfl⟩)
      · exact .inl hg
      · exact .inr ⟨z, z', .inl hp, rfl, rfl⟩
      · exact .inr ⟨o, o', .inr ⟨rfl, rfl⟩, rfl, rfl⟩
  have hfresh' : ∀ f, ¬ WithFree G a P (a + o) f := by
    rintro f (hg | ⟨z, z', hp, hz, -⟩)
    · exact hne _ _ hg rfl
    · obtain rfl : o = z := by omega
      exact hfresh z' hp
  rw [show o' - o = a + o' - (a + o) by omega]
  refine wp_mono (hmed.link hal (by omega) (by omega) (by omega) hroom hfresh') fun _ t ht => ?_
  obtain ⟨m', sk, mb', rfl, hmed', hm⟩ := ht
  refine ⟨m', sk, mb', rfl, hmed'.congr hiff rfl (le_refl _) rfl fun _ _ => rfl,
    fun x hx => hm x fun hc => hx (hc.mono fun y f hy => (hiff y f).mpr hy)⟩

end

/-- The words of the medium bins that an operation on the region `r` may write. -/
def InnerWord (s : Heap) (A : List Region) (r : Region) (B : List Region) (x : Nat) : Prop :=
  MedWord s.heap (FreeBlock s.mem (A ++ B)) x ∨ (r.addr + 16 ≤ x ∧ x + 504 ≤ r.stop)

/-- The links of blocks in the region `r` and of the others. -/
theorem MedWord.innerWord (hx : MedWord s.heap F x)
    (hF : ∀ y f, F y f → FreeBlock s.mem (A ++ B) y f ∨
      (r.addr + 16 ≤ y ∧ y + 512 ≤ f ∧ f ≤ r.stop)) : InnerWord s A r B x := by
  rcases hx with hpage | ⟨y, f, hy, hxy⟩
  · exact .inl (.inl hpage)
  · rcases hF y f hy with hG | hin
    · exact .inl (.inr ⟨y, f, hG, hxy⟩)
    · exact .inr (by omega)

theorem MedWord.innerWord_withFree {P : Nat → Nat → Prop}
    (hx : MedWord s.heap (WithFree (FreeBlock s.mem (A ++ B)) r.addr P) x) (hn : 0 < r.n)
    (hP : ∀ o o', P o o' → 16 ≤ o ∧ o + 512 ≤ o' ∧ o' ≤ 4096) : InnerWord s A r B x := by
  have hlen := Region.addr_lt_stop hn
  refine hx.innerWord fun y f hy => ?_
  rcases hy with hg | ⟨o, o', hp, rfl, rfl⟩
  · exact .inl hg
  · have := hP o o' hp
    exact .inr (by omega)

/-- Header words are not among them. -/
theorem InnerWord.not_header (hslab : SlabInv s (A ++ r :: B) bins)
    (hG : BlocksIn (A ++ B) (FreeBlock s.mem (A ++ B))) (hx : x = r.addr ∨ x = r.addr + 8) :
    ¬ InnerWord s A r B x := by
  obtain ⟨hn, -, hge, -⟩ := hslab.mem_facts (r := r) (by simp)
  have hlen := Region.addr_lt_stop hn
  rintro ((hpage | ⟨y, f, hy, hxy⟩) | hin)
  · omega
  · obtain ⟨r₀, hr₀, -, h₁, h₂, h₃⟩ := hG y f hy
    have := hslab.addr_ne hr₀
    omega
  · omega

/-- The slab layer does not depend on them. -/
theorem SlabInv.of_innerWord (hslab : SlabInv s (A ++ r :: B) bins)
    (hG : BlocksIn (A ++ B) (FreeBlock s.mem (A ++ B))) (hr : r.isAlloc = true) {m' : Nat → Nat}
    {sk : Nat → BitVec 32} (hm : ∀ x, ¬ InnerWord s A r B x → m' x = s.mem x) :
    SlabInv { s with mem := m', medSkiplist := sk } (A ++ r :: B) bins := by
  have hlen := Region.addr_lt_stop (hslab.mem_facts (r := r) (by simp)).1
  refine hslab.of_medWord (G := fun y f => FreeBlock s.mem (A ++ B) y f ∨
    (r.addr + 16 ≤ y ∧ y + 512 ≤ f ∧ f ≤ r.stop)) (hG.of_or hr fun _ _ => id) rfl rfl rfl rfl rfl
    fun a ha => hm a fun hc => ha ?_
  rcases hc with (hpage | ⟨y, f, hy, hxy⟩) | ⟨h₁, h₂⟩
  · exact .inl hpage
  · exact .inr ⟨y, f, .inl hy, hxy⟩
  · rcases Nat.lt_or_ge r.stop (a + 512) with hlt | hle
    · exact .inr ⟨a - 8, a + 504, .inr (by omega), .inr (by omega)⟩
    · exact .inr ⟨a, a + 512, .inr (by omega), .inl rfl⟩

/-- **Rewriting the blocks of a region**, after the bins have been brought in line
with the new blocks. -/
theorem reblock_spec (hinv : HeapInv strict s (A ++ r :: B)) (hk : r.kind = .large)
    {m' : Nat → Nat} {sk : Nat → BitVec 32} {v v₂ : Nat}
    (hmed : MediumLists { s with mem := m', medSkiplist := sk } F mb)
    (hm : ∀ x, ¬ InnerWord s A r B x → m' x = s.mem x)
    (hF : ∀ x e, F x e ↔ WithFree (FreeBlock s.mem (A ++ B)) r.addr (FreeAt off al k) x e)
    (hok : BlocksOk strict off al r.n k) (hoff : ∀ j, blockOff v j = off j)
    (hal : ∀ j, j < 8 → v₂.testBit j = al j)
    (h012 : ∀ j, j < 3 → v.testBit j = (s.mem r.addr).testBit j) :
    wp (do store64 r.addr v; store8 (r.addr + 15) v₂)
      (fun _ t => Reblocked strict s A r B off al k t ∧
        ∀ x, x ≠ r.addr → x ≠ r.addr + 8 → t.mem x = m' x)
      { s with mem := m', medSkiplist := sk } := by
  obtain ⟨-, -, h2, hsz, -, -, -, hn⟩ := hinv.large_facts (r := r) (by simp) hk
  obtain ⟨bins, hslab⟩ := hinv.slab
  obtain ⟨-, -, hG, -, -⟩ := hinv.large_lists hk
  have hr : r.isAlloc = true := Region.isAlloc_eq_true.mpr (by rw [hk]; decide)
  have hlen := Region.addr_lt_stop hn
  have hw₁ : m' r.addr = s.mem r.addr := hm _ (InnerWord.not_header hslab hG (.inl rfl))
  have hw₂ : m' (r.addr + 8) = s.mem (r.addr + 8) :=
    hm _ (InnerWord.not_header hslab hG (.inr rfl))
  have hFin : BlocksIn (A ++ r :: B) F := by
    refine hG.of_or hr fun y f hy => ?_
    rcases (hF y f).mp hy with hg | ⟨o, o', hf, rfl, rfl⟩
    · exact .inl hg
    · have := hok.freeAt_bounds hn hf
      exact .inr (by omega)
  refine wp_mono (storeHeader_spec (hslab.of_innerWord hG hr hm) hr hmed hFin hok hoff hal
    (fun j hj => (h012 j (by omega)).trans (congrArg (Nat.testBit · j) hw₁).symm)
    ((h012 2 (by omega)).trans h2) ((congrArg (· % 2 ^ 56) hw₂).trans hsz)) fun _ t ht => ?_
  refine ⟨ht.reblocked hinv hk hF ⟨m', sk, rfl⟩ fun x hx hout => hm x ?_, ht.mem⟩
  rintro (hc | hc)
  · exact hx hc
  · omega

end

end MallocBench.Slab
