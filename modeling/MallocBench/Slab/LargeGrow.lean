import MallocBench.Slab.LargeShrink

/-!
# Growing a large block

When little of the last slab would be wasted, `realloc` lengthens the region of a large block:
at the end of the heap by extending it, and in front of a free region by taking slabs from
that. Otherwise the block is moved.
-/

namespace MallocBench.Slab

open Lib

section

variable {s t : Heap} {A B L : List Region} {r : Region} {strict : Prop} {i k p e n size : Nat}
  {live : List (Nat × Nat)} {bins : Nat → List Nat}

/-- The regions behind after `k` slabs have been taken from the next one. -/
def takenAfter (k : Nat) : List Region → List Region
  | [] => []
  | f :: B => takeRest f k B

/-- The region `r` can be lengthened by `k` slabs where it is. -/
def Extensible (s : Heap) (r : Region) (B : List Region) (k : Nat) : Prop :=
  r.stop = s.heapEnd ∨ ∃ f ∈ B.head?, f.kind = .free ∧ k ≤ f.n

/-- The region `r` with the block `i` at `p` has `k` more slabs. -/
structure Grown (strict : Prop) (s : Heap) (A : List Region) (r : Region) (B : List Region)
    (i p k : Nat) (t : Heap) : Prop where
  inv : HeapInv strict t (A ++ ⟨r.addr, r.n + k, .large⟩ :: takenAfter k B)
  block : BlockAt t ⟨r.addr, r.n + k, .large⟩ i p (r.stop + 4096 * k)
  used : ∀ x y, Used t.mem (A ++ ⟨r.addr, r.n + k, .large⟩ :: takenAfter k B) x y ↔
    (Used s.mem (A ++ r :: B) x y ∧ x ≠ p) ∨ (x = p ∧ y = r.stop + 4096 * k)
  blocks : blocksAt t.mem r.addr = blocksAt s.mem r.addr
  others : ∀ r₀ ∈ A ++ B, r₀.kind = .large → blocksAt t.mem r₀.addr = blocksAt s.mem r₀.addr
  contents : ContentsKept s (A ++ r :: B) t (A ++ ⟨r.addr, r.n + k, .large⟩ :: takenAfter k B)

/-! ## At the end of the heap -/

theorem SlabInv.stop_eq_end (h : SlabInv s (A ++ r :: B) bins) : r.stop = s.heapEnd ↔ B = [] := by
  obtain ⟨a, q, -, -, -, -, htail⟩ := Tiles.append_iff.mp h.tiles
  constructor
  · intro heq
    cases B with
    | nil => rfl
    | cons b B =>
      obtain ⟨hn, -, -, hle, -⟩ := h.mem_facts (r := b) (by simp)
      have := Region.addr_lt_stop hn
      have := htail.1
      omega
  · rintro rfl
    exact htail.1

/-- The last region is lengthened after the break has been moved. -/
theorem extendLast_inv (h : SlabInv s (A ++ [r]) bins) (hr : r.kind = .large)
    (hn : r.n + k < 2 ^ 56) :
    SlabInv { s with
      mem := Function.update s.mem (r.addr + 8) (sizeWord (s.mem (r.addr + 8)) (r.n + k))
      brk := r.stop + 4096 * k
      heapEnd := r.stop + 4096 * k } (A ++ [⟨r.addr, r.n + k, .large⟩]) bins := by
  have halloc : r.isAlloc = true := Region.isAlloc_eq_true.mpr (by rw [hr]; decide)
  obtain ⟨hpos, hal, -, -, p, hok⟩ := h.mem_facts (r := r) (by simp)
  have hstop : r.stop = r.addr + 4096 * r.n := rfl
  have h2 : (s.mem r.addr).testBit 2 = false := by
    have := hok.2.2.2
    rw [hr] at this
    exact this.1
  have hraw := h.rewriteMem ⟨r.addr, r.n, .raw⟩
    (Function.update s.mem (r.addr + 8) (sizeWord (s.mem (r.addr + 8)) (r.n + k)))
    halloc rfl rfl rfl (fun q hokq => ⟨hpos, ?_, ?_, trivial⟩)
    (fun x hx => Function.update_of_ne (by omega) _ _)
  · obtain ⟨a, q, hgap⟩ := hraw.split
    obtain ⟨rfl, hokr, hgap'⟩ := hgap.drop_alloc rfl
    rw [show (⟨r.addr, r.n, .raw⟩ : Region).stop = r.stop from rfl] at hgap'
    have hflag := hgap'.tiling.right.2
    have hext := hgap'.extend (e := r.stop + 4096 * k) (by omega) (by omega) s.flags
    have hstop₂ : (⟨r.addr, r.n + k, .large⟩ : Region).stop = r.stop + 4096 * k := by
      simp only [Region.stop]
      omega
    rw [← hflag, ← hstop₂] at hext
    rw [← hstop₂]
    refine (hext.cons_alloc (q := q) rfl (le_refl _) hal ⟨?_, hokr.alloc_bit, hokr.prev_bit, ?_, ?_⟩).join
    · simp only
      omega
    · show (Function.update s.mem (r.addr + 8) _ r.addr).testBit 2 = false
      rw [Function.update_of_ne (by omega), h2]
    · show Function.update s.mem (r.addr + 8) _ (r.addr + 8) % 2 ^ 56 = r.n + k
      rw [Function.update_self, sizeWord_mod hn]
  · rw [Function.update_of_ne (by simp), hokq.alloc_bit, halloc]
    rfl
  · rw [Function.update_of_ne (by simp), hokq.prev_bit]

/-- The size word is no word of the other regions. -/
theorem HeapInv.size_avoids (hinv : HeapInv strict s (A ++ r :: B)) :
    Avoids s (A ++ B) (fun x => x = r.addr + 8) := by
  obtain ⟨bins, hslab⟩ := hinv.slab
  obtain ⟨hn, -⟩ := hslab.mem_facts (r := r) (by simp)
  have hsub : ∀ x, x = r.addr + 8 → SlabWord s A r B x := fun x hx =>
    .inl (header_freeWord hn (.inr hx))
  exact ⟨fun r₀ hr₀ hk₀ x h₁ h₂ hx => hslab.slabWord_avoids.regions r₀ hr₀ hk₀ x h₁ h₂ (hsub x hx),
    fun x h₁ h₂ hx => hslab.slabWord_avoids.page x h₁ h₂ (hsub x hx)⟩

/-- A region with more slabs. -/
theorem Resized.grown (h : Resized strict s A r B (r.n + k) (takenAfter k B) t)
    (hinv : HeapInv strict s (A ++ r :: B)) (hb : BlockAt s r i p e) (hB : 4096 ≤ e - p)
    (hn : r.n + k < 2 ^ 56) {W H : Nat → Prop} (hf : MemFrame W H s t)
    (hW : ∀ x, W x → FreeWord s.heap (A ++ r :: B) x ∨ x = r.addr + 8)
    (hH : ∀ x, H x → IsHeader (A ++ r :: B) x) : Grown strict s A r B i p k t := by
  obtain ⟨-, h1, -⟩ := hb.large hinv hB
  have hstop : r.addr + 4096 * (r.n + k) = r.stop + 4096 * k := by
    simp only [Region.stop]
    omega
  obtain ⟨hinv', hb', hused, hblocks, hothers⟩ := h.lastResized hinv hb hB hn fun _ => by omega
  rw [hstop] at hb' hused
  refine ⟨hinv', hb', hused, hblocks, hothers, .of_frame hinv hinv' hf (fun x hx => ?_) hH⟩
  rcases hW x hx with hx | rfl
  · exact .inl hx
  · exact .inr (.inr (.inr (.inr (.inr (.inl ⟨r, by simp, hb.kind, by omega, by omega⟩)))))

theorem extendLast_grown (hinv : HeapInv strict s (A ++ [r])) (hb : BlockAt s r i p e)
    (hB : 4096 ≤ e - p) (hn : r.n + k < 2 ^ 56) :
    Grown strict s A r [] i p k { s with
      mem := Function.update s.mem (r.addr + 8) (sizeWord (s.mem (r.addr + 8)) (r.n + k))
      brk := r.stop + 4096 * k
      heapEnd := r.stop + 4096 * k } := by
  obtain ⟨bins, hslab⟩ := hinv.slab
  have hend := hslab.stop_eq_end.mpr rfl
  have hbrk := hslab.brk
  have hout : ∀ x, x ≠ r.addr + 8 → Function.update s.mem (r.addr + 8)
      (sizeWord (s.mem (r.addr + 8)) (r.n + k)) x = s.mem x := fun x hx =>
    Function.update_of_ne hx _ _
  have hframe : MemFrame (fun x => x = r.addr + 8) (IsHeader []) s { s with
      mem := Function.update s.mem (r.addr + 8) (sizeWord (s.mem (r.addr + 8)) (r.n + k))
      brk := r.stop + 4096 * k
      heapEnd := r.stop + 4096 * k } :=
    MemFrame.of_mem rfl (by
      show s.brk ≤ r.stop + 4096 * k
      omega) hout
  have hres : Resized strict s A r [] _ (takenAfter k []) _ := hinv.resized hb.kind
    (extendLast_inv hslab hb.kind hn) (fun _ _ => Iff.rfl) hinv.size_avoids hframe rfl (fun x _ _ hx => hout x hx)
    (Function.update_self ..)
  exact hres.grown hinv hb hB hn hframe (fun x => .inr) fun x ⟨r₀, hr₀, _⟩ => nomatch hr₀

/-! ## In front of a free region -/

theorem takeSlabs_grown {f : Region} (hinv : HeapInv strict s (A ++ r :: f :: B))
    (hb : BlockAt s r i p e) (hB : 4096 ≤ e - p) (hf : f.kind = .free) (hkf : k ≤ f.n)
    (hn : r.n + k < 2 ^ 56) :
    wp (do largeSlabSetSize r.addr (r.n + k); _intTakeSlab f.addr k)
      (fun _ t => Grown strict s A r (f :: B) i p k t ∧ t.heapEnd = s.heapEnd) s := by
  obtain ⟨bins, hslab⟩ := hinv.slab
  obtain ⟨hn₀, -⟩ := hslab.mem_facts (r := r) (by simp)
  refine wp_mono (takeSlabs_spec hslab hb.kind hf hkf hn) ?_
  rintro _ t ⟨⟨bins', hslab'⟩, hframe, hsize, hend⟩
  have hsub : ∀ x, FreeWord s.heap (A ++ f :: B) x ∨ x = r.addr + 8 →
      SlabWord s A r (f :: B) x := by
    rintro x (hx | hx)
    · exact .inl (hx.of_subset fun r₀ hr₀ => by
        simp only [List.mem_append, List.mem_cons] at hr₀ ⊢
        tauto)
    · exact .inl (header_freeWord hn₀ (.inr hx))
  have hsame : SameAlloc (A ++ f :: B) (A ++ takeRest f k B) := by
    intro r₀ hr₀
    have hne : r₀ ≠ f := fun heq => hr₀ (heq ▸ hf)
    rw [takeRest_sameAlloc r₀ hr₀]
    simp [hne]
  have hheader : ∀ x, IsHeader B x → IsHeader (f :: B) x := fun x ⟨r₀, hr₀, hx⟩ =>
    ⟨r₀, List.mem_cons_of_mem _ hr₀, hx⟩
  have hW : Avoids s (A ++ f :: B) (fun x => FreeWord s.heap (A ++ f :: B) x ∨ x = r.addr + 8) :=
    ⟨fun r₀ hr₀ hk₀ x h₁ h₂ hx => hslab.slabWord_avoids.regions r₀ hr₀ hk₀ x h₁ h₂ (hsub x hx),
      fun x h₁ h₂ hx => hslab.slabWord_avoids.page x h₁ h₂ (hsub x hx)⟩
  have hmem := hframe.memFrame.mono (fun _ => id) hheader
  refine ⟨(show Resized strict s A r (f :: B) _ (takenAfter k (f :: B)) t from hinv.resized hb.kind
    hslab' hsame hW hmem hframe.med (fun x h₁ h₂ h₃ => ?_) hsize).grown hinv hb hB hn hmem (fun x hx => hx.imp_left fun hx =>
      hx.of_subset fun r₀ hr₀ => by
        simp only [List.mem_append, List.mem_cons] at hr₀ ⊢
        tauto) fun x ⟨r₀, hr₀, hx⟩ => ⟨r₀, by simp [List.mem_cons.mp hr₀], hx⟩, hend⟩
  have hlen := Region.addr_lt_stop hn₀
  obtain ⟨hf', hh⟩ := hslab.inner_head (y := r.stop) (k := 0) h₁ (by omega) rfl
  refine (hframe.mem x ?_).resolve_right fun hc => hh (hheader x hc.1)
  rintro (hx | hx)
  · refine hf' (hx.of_subset fun r₀ hr₀ => ?_)
    simp only [List.mem_append, List.mem_cons] at hr₀ ⊢
    tauto
  · exact h₃ hx

/-! ## `realloc` -/

/-- The block of `e - p` bytes is grown where it is: little of the last slab is wasted, and the
region can be lengthened. -/
def GrowsInPlace (s : Heap) (r : Region) (B : List Region) (rem : Nat) : Prop :=
  4096 * ((rem + 4095) / 4096) - rem ≤ 496 ∧ Extensible s r B ((rem + 4095) / 4096)

theorem reallocLargeGrow_spec (hinv : HeapInv False s (A ++ r :: B)) (hb : BlockAt s r i p e)
    (hB : 4096 ≤ e - p) (h52 : r.n < 2 ^ 52) (h16 : n % 16 = 0) (hlt : e - p < n)
    (hmax : n + 4111 < 2 ^ 64) :
    wp (reallocLargeGrow r.addr p n (e - p)) (fun q t =>
      (GrowsInPlace s r B (n - (e - p)) → q = p ∧
        Grown False s A r B i p ((n - (e - p) + 4095) / 4096) t) ∧
      (¬ GrowsInPlace s r B (n - (e - p)) → q ≠ p)) s := by
  obtain ⟨-, -, -, hsz, -, hv', hal, hn⟩ := hinv.large_facts (r := r) (by simp) hb.kind
  obtain ⟨bins, hslab⟩ := hinv.slab
  have hlen := Region.addr_lt_stop hn
  have hbrk := hslab.brk
  have hmove : ¬ GrowsInPlace s r B (n - (e - p)) →
      wp (reallocMove p n (e - p) (_intLargeBlockFree r.addr p)) (fun q t =>
        (GrowsInPlace s r B (n - (e - p)) → q = p ∧
          Grown False s A r B i p ((n - (e - p) + 4095) / 4096) t) ∧
        (¬ GrowsInPlace s r B (n - (e - p)) → q ≠ p)) s := fun hno =>
    wp_mono (reallocMove_large hinv hb (by omega) h16 hmax hlt.le (le_refl _)) fun q t ht =>
      ⟨fun hc => absurd hc hno, fun _ => ht.ne⟩
  unfold reallocLargeGrow
  simp only [slabSize, reallocMaxDeadweight, Nat.reduceSub]
  unfold GrowsInPlace at *
  have hlt64 : n - (e - p) + 4095 < 2 ^ 64 := by omega
  generalize n - (e - p) = rem at *
  have hup : alignUp rem 4096 = 4096 * ((rem + 4095) / 4096) := by
    show (rem + 4095) % 2 ^ 64 - (rem + 4095) % 2 ^ 64 % 4096 = _
    rw [Nat.mod_eq_of_lt hlt64]
    omega
  have hmod : (rem + 4095) % 2 ^ 64 / 4096 = (rem + 4095) / 4096 := by
    rw [Nat.mod_eq_of_lt hlt64]
  rw [hup, hmod, wp_ite]
  have hk : r.n + (rem + 4095) / 4096 < 2 ^ 56 := by omega
  generalize (rem + 4095) / 4096 = k at *
  by_cases hdead : 4096 * k - rem ≤ 496
  swap
  · rw [if_neg hdead]
    exact hmove fun hc => hdead hc.1
  rw [if_pos hdead, wp_bind, wp_largeSlabGetSize]
  refine ⟨hv', ?_⟩
  rw [hsz, show r.addr + 4096 * r.n = r.stop from rfl, wp_bind, wp_get, wp_ite]
  by_cases hend : r.stop = s.heapEnd
  · -- the region ends the heap
    rw [if_pos hend]
    obtain rfl := hslab.stop_eq_end.mp hend
    unfold memSbrk
    simp only [wp_bind, wp_get, wp_set, wp_pure, wp_mallocAssert, wp_modify,
      wp_largeSlabSetSize (show r.addr % 8 = 0 by omega)]
    refine ⟨decide_eq_true hbrk.symm, ⟨hv'.1, ?_, hv'.2.2⟩, fun _ => ⟨trivial, ?_⟩,
      fun hno => absurd ⟨hdead, .inl hend⟩ hno⟩
    · show r.addr + 8 + 8 ≤ s.brk + 4096 * k
      omega
    · have hgrown := extendLast_grown hinv hb hB hk
      rw [hend] at hgrown
      rw [← hbrk]
      exact hgrown
  · rw [if_neg hend]
    cases B with
    | nil => exact absurd (hslab.stop_eq_end.mpr rfl) hend
    | cons f B =>
      obtain ⟨hnf, half, -, hlef, q, hokf⟩ := hslab.mem_facts (r := f) (by simp)
      have hlenf := Region.addr_lt_stop hnf
      have haddr : f.addr = r.stop := hslab.next_addr f rfl
      rw [← haddr, wp_bind, wp_slabIsFree (by omega)]
      refine ⟨hslab.valid (r := f) (by simp) (le_refl _) (by omega) (by omega), ?_⟩
      rw [wp_bind, wp_load64]
      refine ⟨hslab.valid (r := f) (by simp) (by omega) (by omega) (by omega), ?_⟩
      rw [hokf.alloc_bit, wp_ite]
      by_cases hf : f.kind = .free ∧ k ≤ f.n
      · -- the region behind is free and long enough
        rw [if_pos (by rw [Region.isAlloc_eq_false.mpr hf.1, hokf.num_slabs hf.1]; exact ⟨rfl, hf.2⟩),
          ← bind_assoc]
        exact wp_call (takeSlabs_grown hinv hb hB hf.1 hf.2 hk) fun _ t ht => wp_pure.mpr
          ⟨fun _ => ⟨rfl, ht.1⟩, fun hno => absurd ⟨hdead, .inr ⟨f, rfl, hf⟩⟩ hno⟩
      · rw [if_neg]
        · refine hmove fun hc => ?_
          obtain ⟨g, hg, hgf⟩ := hc.2.resolve_left hend
          obtain rfl : f = g := by simpa using hg
          exact hf hgf
        · rintro ⟨hfree, hle⟩
          have hkf : f.kind = .free := Region.isAlloc_eq_false.mp (by simpa using hfree)
          exact hf ⟨hkf, by rwa [hokf.num_slabs hkf] at hle⟩

/-- What `realloc` does with a large block that is to grow. -/
theorem realloc_of_large_grow (hL : LiveOk False s (A ++ r :: B) live) (hb : BlockAt s r i p e)
    (hB : 4096 ≤ e - p) (hlt : e - p < size) (hsize : NoWrap size)
    (hn : n = (size + 15) / 16 * 16) :
    wp (realloc p size) (fun q t =>
      (GrowsInPlace s r B (n - (e - p)) → q = p ∧
        Grown False s A r B i p ((n - (e - p) + 4095) / 4096) t) ∧
      (¬ GrowsInPlace s r B (n - (e - p)) → q ≠ p)) s := by
  have h52 : r.n < 2 ^ 52 := hL.sized r (by simp) hb.kind
  have hrun : realloc p size s = reallocLargeGrow r.addr p n (e - p) s := by
    rw [realloc_block hL hb hsize (by omega), _intRealloc_eq hL.inv hb, ← hn,
      if_neg (by simp only [minMediumBlockSz]; omega), if_pos hB, if_pos (by omega)]
  unfold NoWrap at hsize
  have hspec := reallocLargeGrow_spec hL.inv hb hB h52 (n := n) (by omega) (by omega) (by omega)
  rw [wp_iff] at hspec ⊢
  rwa [hrun]

/-- **Growing a large block**: it stays where it is exactly when little is wasted and its region
can be lengthened. It has then room for the size asked for, and wastes at most 496 bytes beyond
that size rounded up to a multiple of 16. -/
theorem realloc_large_grow (h : HeapReach s live) : ∃ L, LiveOk False s L live ∧
    ∀ A r B i p e size n k, L = A ++ r :: B → BlockAt s r i p e → 4096 ≤ e - p → e - p < size →
      NoWrap size → n = (size + 15) / 16 * 16 → k = (n - (e - p) + 4095) / 4096 →
      (GrowsInPlace s r B (n - (e - p)) → ∃ t, realloc p size s = .ok (p, t) ∧
        Grown False s A r B i p k t ∧ p + n ≤ e + 4096 * k ∧ e + 4096 * k ≤ p + n + 496 ∧
        (∀ w, p ≤ w → w < e → t.mem w = s.mem w) ∧
        ∀ x y, Used s.mem L x y → x ≠ p → y ≤ p ∨ e + 4096 * k ≤ x) ∧
      (¬ GrowsInPlace s r B (n - (e - p)) → ∃ q t, realloc p size s = .ok (q, t) ∧ q ≠ p) := by
  obtain ⟨L, hL⟩ := h.liveOk
  refine ⟨L, hL, ?_⟩
  rintro A r B i p e size n k rfl hb hB hlt hsize hn rfl
  obtain ⟨-, -, rfl⟩ := hb.large hL.inv hB
  obtain ⟨q, t, heq, hin, hout⟩ := wp_iff.mp (realloc_of_large_grow hL hb hB hlt hsize hn)
  rw [heq]
  refine ⟨fun hc => ?_, fun hc => ⟨q, t, rfl, hout hc⟩⟩
  obtain ⟨rfl, ht⟩ := hin hc
  have hdead := hc.1
  have hblock := ht.block.isUsed (A := A) (B := takenAfter ((n - (r.stop - q) + 4095) / 4096) B)
  refine ⟨t, rfl, ht, by omega, by omega, fun w h₁ h₂ => ?_, fun x y hx hne => ?_⟩
  · exact ht.contents _ _ _ _ hb.isUsed hblock w h₁ h₂ h₁ (by omega)
  · have hx' := (ht.used x y).mpr (.inl ⟨hx, hne⟩)
    exact (ht.inv.used_disjoint hx' hblock).resolve_left fun hc => hne hc.1

/-- A block of 8176 bytes at the end of the heap gets another slab. -/
theorem realloc_large_grow_last : ∃ s live L, HeapReach s live ∧ (69648, 8176) ∈ live ∧
    LiveOk False s L live ∧ ∃ A r i, L = A ++ [r] ∧ BlockAt s r i 69648 77824 ∧
      ∃ t, realloc 69648 11776 s = .ok (69648, t) ∧ Grown False s A r [] i 69648 1 t ∧
        69648 + 11776 ≤ 77824 + 4096 ∧ 77824 + 4096 ≤ 69648 + 11776 + 496 ∧
        (∀ w, 69648 ≤ w → w < 77824 → t.mem w = s.mem w) ∧
        ∀ x y, Used s.mem L x y → x ≠ 69648 → y ≤ 69648 ∨ 77824 + 4096 ≤ x := by
  obtain ⟨s, live, hreach, hcheck⟩ := heapReach_of_runCheck [.malloc 8176]
    (fun live s => decide ((69648, 8176) ∈ live ∧ s.mem (ptrGetSlab 69648 + 8) % 2 ^ 56 = 2 ∧
      s.heapEnd = 77824)) (by decide +kernel)
  obtain ⟨hmem, hsize, hend⟩ := of_decide_eq_true hcheck
  obtain ⟨L, hL, hgrow⟩ := realloc_large_grow hreach
  obtain ⟨A, r, B, i, e, rfl, hb, hle⟩ := hL.blockAt hmem (by decide)
  obtain ⟨haddr, hn⟩ := hb.slab hL.inv
  have hr : r.addr = 69632 := haddr.symm.trans (by decide)
  have hn : r.n = 2 := hn.symm.trans hsize
  have hstop : r.stop = 77824 := by rw [Region.stop, hr, hn]
  have he : e = 77824 := (hb.large hL.inv (by omega)).2.2.trans hstop
  subst he
  obtain ⟨bins, hslab⟩ := hL.inv.slab
  obtain rfl : B = [] := hslab.stop_eq_end.mp (hstop.trans hend.symm)
  exact ⟨s, live, _, hreach, hmem, hL, A, r, i, rfl, hb,
    (hgrow A r [] i _ _ 11776 11776 1 rfl hb (by decide) (by decide) (by unfold NoWrap; decide)
      (by decide) (by decide)).1 ⟨by decide, .inl (hstop.trans hend.symm)⟩⟩

/-- The size is rounded up before the deadweight is computed: the block of 8176 bytes that
`realloc` extends for 11761 bytes has 12272 bytes, 511 more than asked for. -/
theorem realloc_large_grow_wastes : ∃ s live t, HeapReach s live ∧ (69648, 8176) ∈ live ∧
    realloc 69648 11761 s = .ok (69648, t) ∧ ∃ L, HeapInv False t L ∧
      ∃ e, Used t.mem L 69648 e ∧ 69648 + 11761 + 496 < e := by
  obtain ⟨s, live, hreach, hcheck⟩ := heapReach_of_runCheck [.malloc 8176]
    (fun live s => decide ((69648, 8176) ∈ live ∧ s.mem (ptrGetSlab 69648 + 8) % 2 ^ 56 = 2 ∧
      s.heapEnd = 77824)) (by decide +kernel)
  obtain ⟨hmem, hsize, hend⟩ := of_decide_eq_true hcheck
  obtain ⟨L, hL⟩ := hreach.liveOk
  obtain ⟨A, r, B, i, e, rfl, hb, hle⟩ := hL.blockAt hmem (by decide)
  obtain ⟨haddr, hn⟩ := hb.slab hL.inv
  have hr : r.addr = 69632 := haddr.symm.trans (by decide)
  have hn : r.n = 2 := hn.symm.trans hsize
  have hstop : r.stop = 77824 := by rw [Region.stop, hr, hn]
  have he : e = 77824 := (hb.large hL.inv (by omega)).2.2.trans hstop
  subst he
  obtain ⟨q, t, heq, hin, -⟩ := wp_iff.mp (realloc_of_large_grow hL hb (by decide)
    (show 77824 - 69648 < 11761 by decide) (by unfold NoWrap; decide) rfl)
  obtain ⟨rfl, ht⟩ := hin ⟨by decide, .inl (hstop.trans hend.symm)⟩
  exact ⟨s, live, t, hreach, hmem, heq, _, ht.inv, _, ht.block.isUsed, by rw [hstop]; decide⟩

end

end MallocBench.Slab
