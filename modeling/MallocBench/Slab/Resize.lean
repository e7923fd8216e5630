import MallocBench.Slab.Around
import MallocBench.Slab.BlockLookup
import MallocBench.Slab.SlabRuns
import MallocBench.Slab.BlockResize

/-!
# Changing the number of slabs of a region

`realloc` cuts slabs off a large region or adds slabs to it. The first slab with its blocks
stays as it is, up to the size in the header; `Resized` says so, and that the other regions
and the bins are in order. When the last block of the region is a large one, the whole
invariant holds again (`Resized.inv`).
-/

namespace MallocBench.Slab

open Lib

/-- The region `r` now has `n` slabs, and the regions `B'` follow. -/
structure Resized (strict : Prop) (s : Heap) (A : List Region) (r : Region) (B : List Region)
    (n : Nat) (B' : List Region) (t : Heap) : Prop where
  around : Around strict t A ⟨r.addr, n, .large⟩ B'
  medium : ∃ mb, MediumLists t (FreeBlock s.mem (A ++ r :: B)) mb
  same : SameAlloc (A ++ B) (A ++ B')
  kept : ∀ r₀ ∈ A ++ B, r₀.kind ≠ .free → RegionKept s.mem t.mem r₀
  header : t.mem r.addr = s.mem r.addr
  size : t.mem (r.addr + 8) = sizeWord (s.mem (r.addr + 8)) n
  heap : t.heap = s.heap

section

variable {s t : Heap} {A B B' : List Region} {r : Region} {bins : Nat → List Nat} {strict : Prop}
  {off : Nat → Nat} {al : Nat → Bool} {k n n' x y e : Nat} {W : Nat → Prop}

/-- The next region starts where `r` ends. -/
theorem SlabInv.next_addr (h : SlabInv s (A ++ r :: B) bins) :
    ∀ f ∈ B.head?, f.addr = r.stop := by
  intro f hf
  cases B with
  | nil => cases hf
  | cons g B =>
    obtain rfl : g = f := by simpa using hf
    obtain ⟨a, q, -, -, -, -, haddr, -⟩ := Tiles.append_iff.mp h.tiles
    exact haddr

/-- A change of the slab layer that leaves the first slab of `r` and the other regions alone. -/
theorem HeapInv.resized (hinv : HeapInv strict s (A ++ r :: B)) (hk : r.kind = .large)
    (hslab' : SlabInv t (A ++ ⟨r.addr, n, .large⟩ :: B') bins) (hsame : SameAlloc (A ++ B) (A ++ B'))
    (hW : Avoids s (A ++ B) W) (hf : MemFrame W (IsHeader B) s t)
    (hsk : t.medSkiplist = s.medSkiplist)
    (hhead : ∀ x, r.addr ≤ x → x < r.addr + 4096 → x ≠ r.addr + 8 → t.mem x = s.mem x)
    (hsize : t.mem (r.addr + 8) = sizeWord (s.mem (r.addr + 8)) n) :
    Resized strict s A r B n B' t := by
  obtain ⟨bins₀, hslab⟩ := hinv.slab
  obtain ⟨mb, hmed⟩ := hinv.medium
  have har := hinv.around (by rw [hk]; decide)
  obtain ⟨sb, hsmall⟩ := har.small
  have hsub : ∀ r₀ ∈ A ++ B, r₀ ∈ A ++ r :: B := fun _ => mem_insert_region
  have hheader : ∀ x, IsHeader B x → IsHeader (A ++ r :: B) x := by
    rintro x ⟨r₀, hr₀, rfl⟩
    exact ⟨r₀, by simp [hr₀], rfl⟩
  have hf' := hf.mono (fun _ => id) hheader
  have hkept : ∀ r₀ ∈ A ++ B, r₀.kind ≠ .free → RegionKept s.mem t.mem r₀ := fun r₀ hr₀ hk₀ =>
    regionKept hslab hsub hW har.regions (hf'.mono (fun x => .inl) fun _ => id) hr₀ hk₀
  have hsmall' := smallLists_kept hslab hsub hW har.regions hsmall
    (hf'.mono (fun x => .inl) fun _ => id)
  refine ⟨⟨⟨_, hslab'⟩, regionOk_sameAlloc hsame (regionOk_kept hkept har.regions), sb, ?_⟩, ⟨mb, ?_⟩,
    hsame, hkept, hhead _ (le_refl _) (by omega) (by omega), hsize, hf.heap⟩
  · exact hsmall'.congr (fun x i => by rw [packedFree_sameAlloc hsame, packedFree_kept hkept]) rfl
      (le_refl _) fun _ _ => rfl
  · refine hmed.congr (fun _ _ => Iff.rfl) hf.heap hf.brk hsk fun a ha => ?_
    rcases ha with hpage | ⟨x, e, ⟨r₀, hr₀, hk₀, hfree⟩, hxa⟩
    · refine (hf'.mem a (hW.page a (by omega) (by omega))).resolve_right fun hc => ?_
      exact hslab.not_header_page (by omega) hc.1
    · obtain ⟨h₁, -, h₂, -, h₃, h₄⟩ := hfree.bounds ((hinv.regions r₀ hr₀).large hk₀)
        (hslab.mem_facts hr₀).1
      by_cases heq : r₀ = r
      · subst heq
        exact hhead a (by omega) (by omega) (by omega)
      · have hother : r₀ ∈ A ++ B := by
          simp only [List.mem_append, List.mem_cons] at hr₀ ⊢
          tauto
        refine (hf'.mem a (hW.regions r₀ hother (by rw [hk₀]; decide) a (by omega)
          (by omega))).resolve_right fun hc => ?_
        exact hslab.not_header hr₀ (by omega) (by omega) hc.1

namespace Resized

theorem offAt (h : Resized strict s A r B n B' t) : offAt t.mem r.addr = offAt s.mem r.addr := by
  unfold Slab.offAt
  rw [h.header]

theorem alAt (h : Resized strict s A r B n B' t) (hn : n < 2 ^ 56) :
    alAt t.mem r.addr = alAt s.mem r.addr := by
  unfold Slab.alAt
  rw [h.size]
  exact funext (blockAl_sizeWord hn)

theorem cntAt (h : Resized strict s A r B n B' t) (hn : n < 2 ^ 56) :
    cntAt t.mem r.addr = cntAt s.mem r.addr := by
  unfold Slab.cntAt
  rw [h.offAt, h.alAt hn]

/-- The free blocks are those of before. -/
theorem freeBlock (h : Resized strict s A r B n B' t) (hk : r.kind = .large) (hn : n < 2 ^ 56) :
    FreeBlock t.mem (A ++ ⟨r.addr, n, .large⟩ :: B') x e ↔ FreeBlock s.mem (A ++ r :: B) x e := by
  rw [freeBlock_insert rfl, freeBlock_insert hk, WithFree, WithFree, freeBlock_sameAlloc h.same,
    freeBlock_kept h.kept, h.offAt, h.alAt hn, h.cntAt hn]

/-- **The invariant holds again** when the blocks fit the new number of slabs. -/
theorem inv (h : Resized strict s A r B n B' t) (hk : r.kind = .large) (hn : n < 2 ^ 56)
    (hok : BlocksOk strict (Slab.offAt s.mem r.addr) (Slab.alAt s.mem r.addr) n
      (Slab.cntAt s.mem r.addr)) :
    HeapInv strict t (A ++ ⟨r.addr, n, .large⟩ :: B') ∧
      ∀ x e, Used t.mem (A ++ ⟨r.addr, n, .large⟩ :: B') x e ↔ Used s.mem (A ++ B) x e ∨
        UsedIn s.mem ⟨r.addr, n, .large⟩ x e := by
  have hlarge : LargeOk strict t.mem ⟨r.addr, n, .large⟩ := by
    unfold LargeOk
    simp only [h.offAt, h.alAt hn, h.cntAt hn]
    exact hok
  obtain ⟨mb, hmed⟩ := h.medium
  obtain ⟨sb, hsmall⟩ := h.around.small
  obtain ⟨hinv, hused⟩ := h.around.finish ⟨r.addr, n, .large⟩ t.mem t.medSkiplist (by rintro ⟨⟩)
    (by rintro ⟨⟩) rfl rfl (fun _ => id) hlarge (fun _ _ _ _ => rfl)
    (hmed.congr (fun x e => by
      rw [← h.freeBlock hk hn, freeBlock_insert rfl]
      exact or_congr_right ⟨fun hf => hf.2, fun hf => ⟨rfl, hf⟩⟩) rfl (le_refl _) rfl
      fun _ _ => rfl)
    (hsmall.congr (fun x i => by simp) rfl (le_refl _) fun _ _ => rfl)
  refine ⟨hinv, fun x e => ?_⟩
  rw [hused, used_sameAlloc h.same, used_kept h.kept]
  show _ ∨ UsedIn t.mem ⟨r.addr, n, .large⟩ x e ↔ _
  unfold UsedIn
  simp only [h.offAt, h.alAt hn, h.cntAt hn]

end Resized

/-! ## Cutting slabs off -/

/-- **Giving back the last `k` slabs of a region.** -/
theorem trim_spec (hinv : HeapInv strict s (A ++ r :: B)) (hk : r.kind = .large)
    (h0 : SomeFree k B) (hkn : k < r.n) (hy : y = r.addr + 4096 * (r.n - k)) :
    wp (do
        _intFreeRemainderSlab y k
        setFlag y 2
        largeSlabSetSize r.addr (r.n - k))
      (fun _ t => Resized strict s A r B (r.n - k) (coalesce y k B) t ∧
        MemFrame (fun x => FreeWord s.heap (A ++ ⟨y, k, .free⟩ :: B) x ∨ x = r.addr + 8)
          (IsHeader B) s t ∧ t.heapEnd = s.heapEnd) s := by
  obtain ⟨-, -, h2, hsz, hv, hv', hal, hn⟩ := hinv.large_facts (r := r) (by simp) hk
  obtain ⟨bins, hslab⟩ := hinv.slab
  have hr : r.isAlloc = true := Region.isAlloc_eq_true.mpr (by rw [hk]; decide)
  have hstop : r.stop = r.addr + 4096 * r.n := rfl
  have htail : y + 4096 * k = r.stop := by omega
  have hn56 : r.n < 2 ^ 56 := by
    rw [← hsz]
    exact Nat.mod_lt _ (by decide)
  have hfree := freeRemainder_spec hslab hr h0 hkn hy
  rw [wp_bind] at hfree ⊢
  refine wp_mono hfree fun _ t₁ h₁ => wp_call h₁ fun _ t ht => ?_
  obtain ⟨⟨bins', hslab'⟩, hframe, hend⟩ := ht
  have hkeep : ∀ x, r.addr ≤ x → x < y → t.mem x = s.mem x := by
    intro x h₁ h₂
    obtain ⟨hf, hh⟩ := hslab.inner_head (y := y) (k := k) h₁ h₂ htail
    exact (hframe.mem x hf).resolve_right fun hc => hh hc.1
  have hsize : wp (largeSlabSetSize r.addr (r.n - k)) _ t :=
    hslab'.setSize rfl (show r.n - k < 2 ^ 56 by omega)
      (show (t.mem r.addr).testBit 2 = false by rw [hkeep _ (le_refl _) (by omega), h2])
  rw [wp_largeSlabSetSize (show r.addr % 8 = 0 by omega)] at hsize ⊢
  refine ⟨hsize.1, ?_⟩
  obtain ⟨-, -, hslab₂⟩ := hsize
  have hf : MemFrame (fun x => FreeWord s.heap (A ++ ⟨y, k, .free⟩ :: B) x ∨ x = r.addr + 8)
      (IsHeader B) s (t.setMem (r.addr + 8) (sizeWord (t.mem (r.addr + 8)) (r.n - k))) := by
    refine (hframe.memFrame.mono (fun _ => .inl) fun _ => id).trans ?_
    exact MemFrame.of_mem rfl (le_refl _) fun x hx =>
      Function.update_of_ne (fun hc => hx (.inr hc)) _ _
  have hW : Avoids s (A ++ B) (fun x => FreeWord s.heap (A ++ ⟨y, k, .free⟩ :: B) x ∨
      x = r.addr + 8) := by
    have hsub : ∀ x, FreeWord s.heap (A ++ ⟨y, k, .free⟩ :: B) x ∨ x = r.addr + 8 →
        SlabWord s A r B x := by
      rintro x (hx | rfl)
      · exact .inl (hx.of_tail htail (by omega))
      · exact .inl (header_freeWord hn (.inr rfl))
    exact ⟨fun r₀ hr₀ hk₀ x h₁ h₂ hx => hslab.slabWord_avoids.regions r₀ hr₀ hk₀ x h₁ h₂ (hsub x hx),
      fun x h₁ h₂ hx => hslab.slabWord_avoids.page x h₁ h₂ (hsub x hx)⟩
  refine ⟨hinv.resized hk hslab₂ sameAlloc_coalesce hW hf hframe.med (fun x h₁ h₂ h₃ => ?_) ?_, hf,
    hend⟩
  · rw [setMem_mem, Function.update_of_ne h₃, hkeep x h₁ (by omega)]
  · rw [setMem_mem, Function.update_self, hkeep _ (by omega) (by omega)]

/-- What follows the freeing of the last `k` slabs. -/
theorem wp_trim {α : Type} {rest : HeapM α} {Q : α → Heap → Prop}
    (hinv : HeapInv strict s (A ++ r :: B)) (hk : r.kind = .large) (h0 : SomeFree k B)
    (hkn : k < r.n) (hy : y = r.addr + 4096 * (r.n - k)) (hn : n = r.n - k)
    (h : ∀ t, Resized strict s A r B n (coalesce y k B) t →
      MemFrame (fun x => FreeWord s.heap (A ++ ⟨y, k, .free⟩ :: B) x ∨ x = r.addr + 8)
        (IsHeader B) s t → t.heapEnd = s.heapEnd → wp rest Q t) :
    wp (do
        _intFreeRemainderSlab y k
        setFlag y 2
        largeSlabSetSize r.addr n
        rest) Q s := by
  subst hn
  have htrim := trim_spec hinv hk h0 hkn hy
  simp only [wp_bind] at htrim ⊢
  exact wp_mono htrim fun _ _ h₁ => wp_mono h₁ fun _ _ h₂ => wp_mono h₂ fun _ t h₃ =>
    h t h₃.1 h₃.2.1 h₃.2.2

/-- Cutting slabs off keeps the contents of the blocks. -/
theorem trim_contents (hinv : HeapInv strict s (A ++ r :: B)) (hk : r.kind = .large)
    (hinv' : HeapInv strict t (A ++ ⟨r.addr, n, .large⟩ :: coalesce y k B))
    (hf : MemFrame (fun x => FreeWord s.heap (A ++ ⟨y, k, .free⟩ :: B) x ∨ x = r.addr + 8)
      (IsHeader B) s t) :
    ContentsKept s (A ++ r :: B) t (A ++ ⟨r.addr, n, .large⟩ :: coalesce y k B) := by
  -- the freed slabs are part of a free region
  have hhead : ∃ g ∈ coalesce y k B, g.kind = .free ∧ g.addr = y ∧ k ≤ g.n := by
    cases B with
    | nil => exact ⟨⟨y, k, .free⟩, by simp [coalesce_nil], rfl, rfl, le_refl _⟩
    | cons b B =>
      by_cases hb : b.kind = .free
      · exact ⟨⟨y, k + b.n, .free⟩, by simp [coalesce_free hb], rfl, rfl, Nat.le_add_right _ _⟩
      · exact ⟨⟨y, k, .free⟩, by simp [coalesce_alloc hb], rfl, rfl, le_refl _⟩
  obtain ⟨g, hg, hgk, hga, hgn⟩ := hhead
  refine .of_frame hinv hinv' hf (fun x hx => ?_) fun x ⟨r₀, hr₀, hx⟩ => ⟨r₀, by simp [hr₀], hx⟩
  rcases hx with (hx | ⟨r₀, hr₀, hk₀, h₁, h₂⟩) | rfl
  · exact .inl (.inl hx)
  · simp only [List.mem_append, List.mem_cons] at hr₀
    rcases hr₀ with hr₀ | rfl | hr₀
    · exact .inl (.inr ⟨r₀, by simp [hr₀], hk₀, h₁, h₂⟩)
    · refine .inr (.inl (.inr ⟨g, by simp [hg], hgk, ?_, ?_⟩))
      · rw [hga]
        exact h₁
      · have hstop : g.stop = y + 4096 * g.n := by rw [← hga]; rfl
        have : x < y + 4096 * k := h₂
        omega
    · exact .inl (.inr ⟨r₀, by simp [hr₀], hk₀, h₁, h₂⟩)
  · exact .inr (.inr (.inr (.inr (.inr (.inl ⟨r, by simp, hk, by omega, by omega⟩)))))

end

end MallocBench.Slab
