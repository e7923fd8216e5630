import MallocBench.Slab.ReallocMove
import MallocBench.Slab.LargeGrow
import MallocBench.Slab.MediumRealloc

/-!
# What `realloc` does, on all paths

Whichever way `__int_realloc` takes, a program sees the same (`Reallocated`): one block, where it
was or elsewhere, with the old contents as far as they fit, and all other blocks as before. There
are requests on which it crashes, all of them for less than the block has (`ShrinkCrashes`), and
others that corrupt the heap (`ShrinkCorrupts`). On all others it returns.
-/

namespace MallocBench.Slab

open Lib

/-- The block from `p` to `e` is at `q` now and has `n` bytes, and the others are as before. -/
structure Reallocated (s : Heap) (L : List Region) (p e n q : Nat) (t : Heap) (L' : List Region) :
    Prop where
  inv : HeapInv False t L'
  sized : Sized L → Sized L'
  block : ∃ g, Used t.mem L' q g ∧ q + n ≤ g
  fresh : q ≠ p → ∀ f, ¬ Used s.mem L q f
  keep : ∀ x f, Used s.mem L x f → x ≠ p → ∃ f', f ≤ f' ∧ Used t.mem L' x f'
  old : ∀ x f, Used t.mem L' x f → x = q ∨ (x ≠ p ∧ ∃ f', Used s.mem L x f')
  copied : ∀ w, w < min (e - p) n → t.mem (q + w) = s.mem (p + w)
  contents : ∀ x f, Used s.mem L x f → x ≠ p → ∀ w, x ≤ w → w < f → t.mem w = s.mem w

/-- The slabs of the region at `a`. -/
def numSlabsAt (m : Nat → Nat) (a : Nat) : Nat := m (a + 8) % 2 ^ 56

/-- The end of block `i` of the region at `a`. -/
def blockStop (m : Nat → Nat) (a i : Nat) : Nat :=
  a + blockEnd (offAt m a) (numSlabsAt m a) (cntAt m a) i

/-- A large block from `p` to `e` is to stay with `n` bytes: little more than whole slabs is left. -/
def StaysLarge (p e n : Nat) : Prop :=
  4096 ≤ e - p ∧ (e - p) % 4096 < n ∧ (e - p - n) % 4096 ≤ 496

/-- The block `i` at `p` of the region at `a` cannot be cut to `n` bytes: it is a medium block
without another one behind it, or a large one for which the slabs are counted wrongly, or that
keeps all its slabs at the end of the heap. -/
def ShrinkCrashes (s : Heap) (a i p e n : Nat) : Prop :=
  (e - p < 4096 ∧ i + 1 = cntAt s.mem a) ∨
    (StaysLarge p e n ∧ (reqSlabsForSize n + (e - p - n) / 4096 ≠ numSlabsAt s.mem a ∨
      (e - p < n + 4096 ∧ a + 4096 * numSlabsAt s.mem a = s.heapEnd)))

/-- A large block keeps all its slabs in front of an allocated region, which is then taken for a
free one. -/
def ShrinkCorrupts (s : Heap) (a p e n : Nat) : Prop :=
  StaysLarge p e n ∧ e - p < n + 4096 ∧ a + 4096 * numSlabsAt s.mem a ≠ s.heapEnd ∧
    (s.mem (a + 4096 * numSlabsAt s.mem a)).testBit 0 = true

/-- `realloc` of the medium or large block at `p` to at most its size, with `bad`. -/
def OnShrink (s : Heap) (p n : Nat) (bad : Nat → Nat → Prop) : Prop :=
  (s.mem (ptrGetSlab p)).testBit 2 = false ∧ 512 ≤ n ∧
    ∃ i, i < cntAt s.mem (ptrGetSlab p) ∧ ptrGetSlab p + offAt s.mem (ptrGetSlab p) i = p ∧
      n ≤ blockStop s.mem (ptrGetSlab p) i - p ∧ bad i (blockStop s.mem (ptrGetSlab p) i)

/-- `__int_realloc` crashes. -/
def ReallocCrashes (s : Heap) (p n : Nat) : Prop :=
  OnShrink s p n fun i e => ShrinkCrashes s (ptrGetSlab p) i p e n

/-- `__int_realloc` corrupts the heap. -/
def ReallocCorrupts (s : Heap) (p n : Nat) : Prop :=
  OnShrink s p n fun _ e => ShrinkCorrupts s (ptrGetSlab p) p e n

instance (p e n : Nat) : Decidable (StaysLarge p e n) := inferInstanceAs (Decidable (_ ∧ _))

instance (s : Heap) (a i p e n : Nat) : Decidable (ShrinkCrashes s a i p e n) :=
  inferInstanceAs (Decidable (_ ∨ _))

instance (s : Heap) (a p e n : Nat) : Decidable (ShrinkCorrupts s a p e n) :=
  inferInstanceAs (Decidable (_ ∧ _))

instance (s : Heap) (p n : Nat) (bad : Nat → Nat → Prop) [∀ i e, Decidable (bad i e)] :
    Decidable (OnShrink s p n bad) :=
  inferInstanceAs (Decidable (_ ∧ _))

instance (s : Heap) (p n : Nat) : Decidable (ReallocCrashes s p n) :=
  inferInstanceAs (Decidable (OnShrink _ _ _ _))

instance (s : Heap) (p n : Nat) : Decidable (ReallocCorrupts s p n) :=
  inferInstanceAs (Decidable (OnShrink _ _ _ _))

section

variable {s t : Heap} {A B L L' : List Region} {r : Region} {i p q e v n c : Nat}
  {release : HeapM Unit} {bad : Nat → Nat → Prop}

/-! ## Blocks that move -/

/-- A moved block. -/
theorem Moved.reallocated (h : Moved s L p n c q t) (hinv : HeapInv False s L)
    (hu : Used s.mem L p e) (h0 : 0 < n) (h16 : n % 16 = 0) (hmax : n + 4111 < 2 ^ 64)
    (hc : c = min (e - p) n) : ∃ L', Reallocated s L p e n q t L' := by
  obtain ⟨u, hmalloc, hfree⟩ := h.steps
  have halloc := wp_of_eq (_intMalloc_spec hinv h0 h16 hmax) hmalloc
  obtain ⟨L₁, g, hinv₁, hg, hfresh, hused, hsized⟩ := halloc.inv
  have huq : Used u.mem L₁ q g := (hused q g).mpr (.inr ⟨rfl, rfl⟩)
  have hcopy : ∀ w, w < q ∨ g ≤ w → copyRange u.mem q p c w = u.mem w :=
    fun w hw => if_neg (by omega)
  obtain ⟨hinv₂, hused₂⟩ := hinv₁.writeUsed huq hcopy
  have hold : ∀ x f, Used s.mem L x f → Used (copyRange u.mem q p c) L₁ x f := fun x f hx =>
    (hused₂ x f).mpr ((hused x f).mpr (.inl hx))
  have hfreed := wp_of_eq (_intFree_spec hinv₂ (hold p e hu) False.elim) hfree
  obtain ⟨L', hinv', ⟨hkeep, hused'⟩, hsized'⟩ := hfreed.inv
  obtain ⟨g', hg', huq'⟩ := hkeep q g ((hused₂ q g).mpr huq) h.ne
  refine ⟨L', hinv', hsized' ∘ hsized, ⟨g', huq', by omega⟩, fun _ => hfresh,
    fun x f hx hxp => hkeep x f (hold x f hx) hxp, fun x f hx => ?_,
    fun w hw => h.copied w (hc ▸ hw), h.contents⟩
  obtain ⟨hxp, f', hx'⟩ := hused' x f hx
  rcases (hused x f').mp ((hused₂ x f').mp hx') with hx' | ⟨rfl, -⟩
  · exact .inr ⟨hxp, f', hx'⟩
  · exact .inl rfl

/-- On the malloc-copy-free paths. -/
theorem MovePath.reallocated (h : MovePath s p n c release) (hinv : HeapInv False s L)
    (hu : Used s.mem L p e) (h0 : 0 < n) (h16 : n % 16 = 0) (hmax : n + 4111 < 2 ^ 64) :
    wp (_intRealloc p n) (fun q t => ∃ L', Reallocated s L p e n q t L') s := by
  obtain ⟨hc, hrelease⟩ := h.facts hinv hu
  rw [wp_congr h.eq]
  exact wp_mono (reallocMove_spec hinv hu h0 h16 hmax (by omega) (by omega) hrelease)
    fun q t ht => ht.reallocated hinv hu h0 h16 hmax hc

/-- Whenever another block is returned. -/
theorem reallocated_of_ne (heq : _intRealloc p n s = .ok (q, t)) (hne : q ≠ p)
    (hinv : HeapInv False s L) (hu : Used s.mem L p e) (h0 : 0 < n) (h16 : n % 16 = 0)
    (hmax : n + 4111 < 2 ^ 64) : ∃ L', Reallocated s L p e n q t L' := by
  obtain ⟨c, release, hpath⟩ := movePath_of_ne heq hne
  exact wp_of_eq (hpath.reallocated hinv hu h0 h16 hmax) heq

/-! ## Blocks that stay -/

/-- The block ends at `v` now. -/
theorem reallocated_of_end (hu : Used s.mem L p e) (hinv : HeapInv False t L')
    (hsized : Sized L → Sized L') (hv : p + n ≤ v)
    (hused : ∀ x y, Used t.mem L' x y ↔ (Used s.mem L x y ∧ x ≠ p) ∨ (x = p ∧ y = v))
    (hc : ContentsKept s L t L') : Reallocated s L p e n p t L' := by
  have hself : Used t.mem L' p v := (hused p v).mpr (.inr ⟨rfl, rfl⟩)
  have hother : ∀ x f, Used s.mem L x f → x ≠ p → Used t.mem L' x f := fun x f hx hxp =>
    (hused x f).mpr (.inl ⟨hx, hxp⟩)
  refine ⟨hinv, hsized, ⟨v, hself, hv⟩, fun hne => absurd rfl hne,
    fun x f hx hxp => ⟨f, le_refl f, hother x f hx hxp⟩, fun x f hx => ?_, fun w hw => ?_,
    fun x f hx hxp w h₁ h₂ => hc x f x f hx (hother x f hx hxp) w h₁ h₂ h₁ h₂⟩
  · rcases (hused x f).mp hx with ⟨hx, hxp⟩ | ⟨rfl, -⟩
    · exact .inr ⟨hxp, f, hx⟩
    · exact .inl rfl
  · exact hc p e p v hu hself (p + w) (by omega) (by omega) (by omega) (by omega)

/-- Nothing happens. -/
theorem reallocated_self (hinv : HeapInv False s L) (hu : Used s.mem L p e) (hn : p + n ≤ e) :
    Reallocated s L p e n p s L := by
  refine reallocated_of_end (v := e) hu hinv id hn (fun x y => ?_) fun _ _ _ _ _ _ _ _ _ _ _ => rfl
  constructor
  · intro hx
    by_cases hxp : x = p
    · subst hxp
      refine .inr ⟨rfl, ?_⟩
      have h₁ := hinv.used_bounds hx
      have h₂ := hinv.used_bounds hu
      rcases hinv.used_disjoint hx hu with ⟨-, heq⟩ | hd | hd
      · exact heq
      · omega
      · omega
    · exact .inl ⟨hx, hxp⟩
  · rintro (⟨hx, -⟩ | ⟨rfl, rfl⟩)
    · exact hx
    · exact hu

theorem EndMoved.reallocated {l : List (Nat × Bool)} {z : Nat}
    (h : EndMoved False s A r B i p e v z l t) (hb : BlockAt s r i p e) (hv : p + n ≤ v) :
    Reallocated s (A ++ r :: B) p e n p t (A ++ r :: B) :=
  reallocated_of_end hb.isUsed h.inv id hv h.used h.contents

theorem CutBlock.reallocated (h : CutBlock False s A r B i p e n t) (hb : BlockAt s r i p e)
    (hle : p + n ≤ e) : Reallocated s (A ++ r :: B) p e n p t (A ++ r :: B) := by
  unfold CutBlock at h
  split_ifs at h
  · exact h.reallocated hb (le_refl _)
  · exact h.reallocated hb (le_refl _)
  · exact h.reallocated hb hle

theorem GrownBlock.reallocated (h : GrownBlock False s A r B i p e n t)
    (hinv : HeapInv False s (A ++ r :: B)) (hb : BlockAt s r i p e)
    (hfit : p + n ≤ r.addr + offAt s.mem r.addr (i + 2)) :
    Reallocated s (A ++ r :: B) p e n p t (A ++ r :: B) := by
  obtain ⟨hok, -, -, -, -, -, -, hn⟩ := hinv.large_facts (r := r) (by simp) hb.kind
  have hle : offAt s.mem r.addr (i + 2) ≤
      blockEnd (offAt s.mem r.addr) r.n (cntAt s.mem r.addr) (i + 1) :=
    BlocksOk.off_le_blockEnd hok hn (j := i + 1)
  unfold GrownBlock at h
  split_ifs at h
  · exact h.reallocated hb (by omega)
  · exact h.reallocated hb (le_refl _)

theorem mem_of_takenAfter {k : Nat} (h : r ∈ takenAfter k B) (hk : r.kind = .large) : r ∈ B := by
  cases B with
  | nil => cases h
  | cons f B =>
    have h : r ∈ takeRest f k B := h
    unfold takeRest at h
    split_ifs at h
    · exact List.mem_cons_of_mem _ h
    · rcases List.mem_cons.mp h with rfl | h
      · cases hk
      · exact List.mem_cons_of_mem _ h

theorem Grown.reallocated {k : Nat} (h : Grown False s A r B i p k t) (hb : BlockAt s r i p e)
    (hv : p + n ≤ r.stop + 4096 * k) (hsized : r.n + k < 2 ^ 52) :
    Reallocated s (A ++ r :: B) p e n p t (A ++ ⟨r.addr, r.n + k, .large⟩ :: takenAfter k B) := by
  refine reallocated_of_end hb.isUsed h.inv (fun hL => ?_) hv h.used h.contents
  refine sized_insert.mpr ⟨fun r₀ hr₀ hk₀ => ?_, fun _ => hsized⟩
  refine (sized_insert.mp hL).1 r₀ ?_ hk₀
  rcases List.mem_append.mp hr₀ with hr₀ | hr₀
  · exact List.mem_append_left _ hr₀
  · exact List.mem_append_right _ (mem_of_takenAfter hr₀ hk₀)

theorem CutToPage.reallocated (h : CutToPage False s A r B i p n t) (hb : BlockAt s r i p e)
    (hv : p + n ≤ r.addr + 4096) : Reallocated s (A ++ r :: B) p e n p t
      (A ++ ⟨r.addr, 1, .large⟩ :: coalesce (r.addr + 4096) (r.n - 1) B) := by
  refine reallocated_of_end hb.isUsed h.inv (fun hL => ?_) ?_ h.used h.contents
  · exact sized_insert.mpr ⟨(sized_insert.mp hL).1.sameAlloc sameAlloc_coalesce,
      fun _ => (by decide : 1 < 2 ^ 52)⟩
  · split_ifs
    · exact le_refl _
    · exact hv

theorem KeptInPlace.reallocated (h : KeptInPlace False s A r B i p c t) (hb : BlockAt s r i p e)
    (hv : p + n ≤ r.stop - 4096 * c) : Reallocated s (A ++ r :: B) p e n p t
      (A ++ ⟨r.addr, r.n - c, .large⟩ :: restAfter (r.stop - 4096 * c) c B) := by
  refine reallocated_of_end hb.isUsed h.inv (fun hL => ?_) hv h.used h.contents
  obtain ⟨hAB, hr⟩ := sized_insert.mp hL
  refine sized_insert.mpr ⟨?_, fun _ => (Nat.sub_le _ _).trans_lt (hr hb.kind)⟩
  unfold restAfter
  split_ifs
  · exact hAB
  · exact hAB.sameAlloc sameAlloc_coalesce

/-! ## All paths for a medium or large block -/

/-- What the conditions say of a block of the heap. -/
theorem BlockAt.onShrink (hb : BlockAt s r i p e) (hinv : HeapInv False s (A ++ r :: B)) :
    OnShrink s p n bad ↔ 512 ≤ n ∧ n ≤ e - p ∧ bad i e := by
  obtain ⟨hok, -, h2, hsz, -, -, -, -⟩ := hinv.large_facts (r := r) (by simp) hb.kind
  have hstart := hb.start
  have hstop : blockStop s.mem r.addr i = e := by
    unfold blockStop numSlabsAt
    rw [hsz, hb.stop]
  unfold OnShrink
  rw [(hb.slab hinv).1]
  constructor
  · rintro ⟨-, h512, j, hj, hstart', hle, hbad⟩
    obtain rfl : j = i := BlocksOk.off_inj hok hj hb.lt (by omega)
    rw [hstop] at hle hbad
    exact ⟨h512, hle, hbad⟩
  · rintro ⟨h512, hle, hbad⟩
    refine ⟨h2, h512, i, hb.lt, hstart.symm, ?_⟩
    rw [hstop]
    exact ⟨hle, hbad⟩

theorem BlockAt.numSlabsAt (hb : BlockAt s r i p e) (hinv : HeapInv False s (A ++ r :: B)) :
    numSlabsAt s.mem r.addr = r.n ∧ r.addr + 4096 * numSlabsAt s.mem r.addr = r.stop := by
  have hn : Slab.numSlabsAt s.mem r.addr = r.n :=
    (hinv.large_facts (r := r) (by simp) hb.kind).2.2.2.1
  exact ⟨hn, by rw [hn]; rfl⟩

/-- Without slabs to free, the next region has to be free. -/
theorem BlockAt.someFree (hb : BlockAt s r i p e) (hinv : HeapInv False s (A ++ r :: B))
    (hstays : StaysLarge p e n) (hcrash : ¬ ShrinkCrashes s r.addr i p e n)
    (hcorrupt : ¬ ShrinkCorrupts s r.addr p e n) : SomeFree ((e - p - n) / 4096) B := by
  obtain ⟨-, hnext⟩ := hb.numSlabsAt hinv
  obtain ⟨bins, hslab⟩ := hinv.slab
  by_cases hlt : e - p < n + 4096
  swap
  · exact .inl (by omega)
  have hend : r.stop ≠ s.heapEnd := fun hc => hcrash (.inr ⟨hstays, .inr ⟨hlt, hnext.trans hc⟩⟩)
  cases B with
  | nil => exact absurd (hslab.stop_eq_end.mpr rfl) hend
  | cons f B =>
    obtain ⟨-, -, -, -, q, hokf⟩ := hslab.mem_facts (r := f) (by simp)
    refine .inr ⟨f, rfl, ?_⟩
    by_contra hf
    refine hcorrupt ⟨hstays, hlt, hnext ▸ hend, ?_⟩
    rw [hnext, ← hslab.next_addr f rfl, hokf.alloc_bit]
    exact Region.isAlloc_eq_true.mpr hf

/-- **Every other request returns.** -/
theorem BlockAt.realloc (hb : BlockAt s r i p e) (hinv : HeapInv False s (A ++ r :: B))
    (hsized : Sized (A ++ r :: B)) (h0 : 0 < n) (h16 : n % 16 = 0) (hmax : n + 8207 < 2 ^ 64)
    (hcrash : ¬ ReallocCrashes s p n) (hcorrupt : ¬ ReallocCorrupts s p n) :
    wp (_intRealloc p n) (fun q t => ∃ L', Reallocated s (A ++ r :: B) p e n q t L') s := by
  obtain ⟨hok, -, h2, hsz, -, -, hal, hn⟩ := hinv.large_facts (r := r) (by simp) hb.kind
  have hu : Used s.mem (A ++ r :: B) p e := hb.isUsed
  have hbounds := hinv.used_bounds hu
  have h52 : r.n < 2 ^ 52 := hsized r (by simp) hb.kind
  have hslab := (hb.slab hinv).1
  unfold ReallocCrashes at hcrash
  unfold ReallocCorrupts at hcorrupt
  rw [hb.onShrink hinv, hslab] at hcrash hcorrupt
  -- another block is always one that has been moved
  have hstays : ∀ {P : Nat → Heap → Prop}, wp (_intRealloc p n) P s →
      (∀ t, P p t → ∃ L', Reallocated s (A ++ r :: B) p e n p t L') →
      wp (_intRealloc p n) (fun q t => ∃ L', Reallocated s (A ++ r :: B) p e n q t L') s := by
    intro P h hP
    obtain ⟨q, t, heq, ht⟩ := wp_iff.mp h
    refine wp_iff.mpr ⟨q, t, heq, ?_⟩
    by_cases hq : q = p
    · subst hq
      exact hP t ht
    · exact reallocated_of_ne heq hq hinv hu h0 h16 (by omega)
  by_cases hsmall : n < 512
  · refine MovePath.reallocated (.mediumToTiny ?_ hsmall) hinv hu h0 h16 (by omega)
    rw [hslab, hinv.slabIsPacked_eq, h2]
  have hrun := _intRealloc_eq hinv hb n
  simp only [minMediumBlockSz, minLargeBlockSz, if_neg hsmall] at hrun
  by_cases hlarge : 4096 ≤ e - p
  · rw [if_pos hlarge] at hrun
    obtain ⟨-, h1, hstop⟩ := hb.large hinv hlarge
    have hoff := blockOff_bounds (s.mem r.addr) i
    have hstart : p = r.addr + blockOff (s.mem r.addr) i := hb.start
    have hend : e = r.addr + 4096 * r.n := hstop
    by_cases hgrow : e - p < n
    · rw [if_pos hgrow] at hrun
      refine hstays (P := _) (by
        rw [wp_congr hrun]
        exact reallocLargeGrow_spec hinv hb hlarge h52 h16 hgrow (by omega)) fun t ht => ?_
      have hgrows : GrowsInPlace s r B (n - (e - p)) := by
        by_contra hno
        exact ht.2 hno rfl
      have hdead := hgrows.1
      exact ⟨_, (ht.1 hgrows).2.reallocated hb (by omega) (by omega)⟩
    · rw [if_neg hgrow] at hrun
      unfold reallocLargeShrink at hrun
      simp only [slabSize, reallocMaxDeadweight] at hrun
      by_cases hmedium : n ≤ (e - p) % 4096
      · rw [if_pos hmedium] at hrun
        refine hstays (P := _) (by
          rw [wp_congr hrun]
          exact reallocLargeToMedium_spec hinv hb hlarge h52 h16 (by omega) (by omega)) fun t ht => ?_
        exact ⟨_, ht.2.reallocated hb (by omega)⟩
      · rw [if_neg hmedium] at hrun
        by_cases hdead : (e - p - n) % 4096 ≤ 496
        · rw [if_pos hdead] at hrun
          have hst : StaysLarge p e n := ⟨hlarge, by omega, hdead⟩
          have hcrash' : ¬ ShrinkCrashes s r.addr i p e n := fun hc =>
            hcrash ⟨by omega, by omega, hc⟩
          have hcorrupt' : ¬ ShrinkCorrupts s r.addr p e n := fun hc =>
            hcorrupt ⟨by omega, by omega, hc⟩
          have hcount : reqSlabsForSize n + (e - p - n) / 4096 = r.n := by
            by_contra hne
            exact hcrash' (.inr ⟨hst, .inl ((hb.numSlabsAt hinv).1.symm ▸ hne)⟩)
          refine hstays (P := _) (by
            rw [wp_congr hrun]
            exact reallocLargeKeep_spec hinv hb hlarge (by omega) hcount
              (hb.someFree hinv hst hcrash' hcorrupt')) fun t ht => ?_
          exact ⟨_, ht.2.reallocated hb (by
            have : r.stop = r.addr + 4096 * r.n := rfl
            omega)⟩
        · rw [if_neg hdead, if_pos (by omega)] at hrun
          refine hstays (P := _) (by
            rw [wp_congr hrun]
            exact reallocMove_large hinv hb h0 h16 (by omega) (le_refl _) (by omega)) fun t ht => ?_
          exact absurd rfl ht.ne
  · rw [if_neg hlarge] at hrun
    obtain ⟨he, hcase⟩ := hb.stop_eq hinv (by omega)
    by_cases hshrink : n ≤ e - p
    · rw [if_pos hshrink] at hrun
      have hi : i + 1 < cntAt s.mem r.addr := by
        refine hcase.resolve_right fun hc => hcrash ⟨by omega, hshrink, .inl ⟨by omega, hc.1⟩⟩
      refine hstays (P := _) (by
        rw [wp_congr hrun]
        exact reallocMediumShrink_spec hinv hb (by omega) hi h16 (by omega) hshrink) fun t ht => ?_
      exact ⟨_, ht.2.reallocated hb (by omega)⟩
    · rw [if_neg hshrink] at hrun
      by_cases hmax' : n ≤ 4080
      · refine hstays (P := _) (by
          rw [wp_congr hrun]
          exact reallocMediumGrow_spec hinv hb (by omega) h16 (by omega) hmax') fun t ht => ?_
        have hgrows : GrowsIntoNext s r i p n := by
          by_contra hno
          exact ht.2 hno rfl
        exact ⟨_, (ht.1 hgrows).2.reallocated hinv hb hgrows.2.2⟩
      · -- the block gets too large for a medium one
        unfold reallocMediumGrow at hrun
        simp only [maxMediumBlockSz, if_neg hmax'] at hrun
        refine hstays (P := _) (by
          rw [wp_congr hrun]
          exact reallocMove_large hinv hb h0 h16 (by omega) (by omega) (le_refl _)) fun t ht => ?_
        exact absurd rfl ht.ne

/-- Nothing is to be freed at the end of the heap. -/
theorem reallocLargeKeep_end (hinv : HeapInv False s (A ++ [r]))
    (h0 : (e - p - n) / 4096 = 0) (hcount : reqSlabsForSize n = r.n) :
    ¬ ∃ q t, reallocLargeKeep r.addr p n (e - p) s = .ok (q, t) := by
  rintro ⟨q, t, heq⟩
  have h : wp (reallocLargeKeep r.addr p n (e - p)) (fun _ u => u = t) s :=
    wp_iff.mpr ⟨q, t, heq, rfl⟩
  unfold reallocLargeKeep at h
  simp only [slabSize] at h
  rw [h0, hcount, wp_bind, wp_largeSlabGetSize] at h
  obtain ⟨-, h⟩ := h
  rw [wp_bind, wp_mallocAssert] at h
  exact freeNothing_end hinv h.2

/-- The requests that do not return. -/
theorem BlockAt.crashes (hb : BlockAt s r i p e) (hinv : HeapInv False s (A ++ r :: B))
    (hcrash : ReallocCrashes s p n) : ¬ ∃ q t, _intRealloc p n s = .ok (q, t) := by
  unfold ReallocCrashes at hcrash
  rw [hb.onShrink hinv, (hb.slab hinv).1] at hcrash
  obtain ⟨h512, hle, hcrash⟩ := hcrash
  rw [_intRealloc_eq hinv hb n]
  simp only [minMediumBlockSz, minLargeBlockSz, if_neg (show ¬ n < 512 by omega)]
  rcases hcrash with ⟨hlt, hlast⟩ | ⟨⟨hlarge, hmod, hdead⟩, hcrash⟩
  · obtain ⟨-, hcase⟩ := hb.stop_eq hinv hlt
    have h1 : r.n = 1 := (hcase.resolve_left (by omega)).2
    rw [if_neg (by omega), if_pos hle]
    exact reallocMediumShrink_last hinv hb hlast h1
  · obtain ⟨hn, hnext⟩ := hb.numSlabsAt hinv
    rw [if_pos hlarge, if_neg (by omega)]
    unfold reallocLargeShrink
    simp only [slabSize, reallocMaxDeadweight]
    rw [if_neg (by omega), if_pos hdead]
    by_cases hcount : reqSlabsForSize n + (e - p - n) / 4096 = r.n
    swap
    · rw [(reallocLargeKeep_assertion hinv hb.kind).mpr hcount]
      rintro ⟨q, t, heq⟩
      cases heq
    · obtain ⟨hlt, hend⟩ := hcrash.resolve_left fun hne => hne (hn.symm ▸ hcount)
      rw [hnext] at hend
      obtain ⟨bins, hslab⟩ := hinv.slab
      obtain rfl := hslab.stop_eq_end.mp hend
      exact reallocLargeKeep_end hinv (by omega) (by omega)

/-! ## All blocks -/

/-- **`__int_realloc`** does what it should unless it crashes or corrupts the heap. -/
theorem _intRealloc_spec (hinv : HeapInv False s L) (hsized : Sized L) (hu : Used s.mem L p e)
    (h0 : 0 < n) (h16 : n % 16 = 0) (hmax : n + 8207 < 2 ^ 64) (hcrash : ¬ ReallocCrashes s p n)
    (hcorrupt : ¬ ReallocCorrupts s p n) :
    wp (_intRealloc p n) (fun q t => ∃ L', Reallocated s L p e n q t L') s := by
  rcases hinv.used_cases hu with ⟨hpacked, -, szClass, hclass, hsize⟩ | ⟨-, -, A, r, B, i, rfl, hb⟩
  · by_cases hsame : isTinyBlockSize n = true ∧ adjTinySize n = szClassToSize szClass
    · -- the block is of the right class already
      have hrun : _intRealloc p n s = .ok (p, s) := by
        unfold _intRealloc
        rw [bind_of_ok hpacked, if_pos rfl]
        unfold reallocPacked
        rw [bind_of_ok hclass, if_pos hsame]
        rfl
      have htiny : n ≤ 496 := by
        have := hsame.1
        unfold isTinyBlockSize at this
        simpa using this
      have hle := (adjTinySize_mem h0 h16 htiny).2
      have hbounds := hinv.used_bounds hu
      rw [hsame.2, hsize] at hle
      exact wp_iff.mpr ⟨p, s, hrun, L, reallocated_self hinv hu (by omega)⟩
    · exact (MovePath.packed hpacked hclass hsame).reallocated hinv hu h0 h16 (by omega)
  · exact hb.realloc hinv hsized h0 h16 hmax hcrash hcorrupt

theorem _intRealloc_crashes (hinv : HeapInv False s L) (hu : Used s.mem L p e)
    (hcrash : ReallocCrashes s p n) : ¬ ∃ q t, _intRealloc p n s = .ok (q, t) := by
  rcases hinv.used_cases hu with ⟨-, hclass, -⟩ | ⟨-, -, A, r, B, i, rfl, hb⟩
  · have hbounds := hinv.used_bounds hu
    unfold slabClass at hclass
    rw [hcrash.1, if_neg (by decide)] at hclass
    omega
  · exact hb.crashes hinv hcrash

end

end MallocBench.Slab
