import MallocBench.Slab.LargeShrink

/-!
# Keeping a large block with fewer slabs

When little more than whole slabs is to be given back, `realloc` keeps a large block where it
is and frees the slabs at its end. It computes the number of slabs that are left from the new
size alone, and asserts that this fits the number of slabs cut off; the assertion fails for
blocks that start late in their first slab. And it frees the slabs at the end even when there
are none, which turns the region behind into a free one.
-/

namespace MallocBench.Slab

open Lib

section

variable {s t : Heap} {A B L : List Region} {r : Region} {strict : Prop} {i p e n size : Nat}
  {live : List (Nat × Nat)}

/-! ## Programs without assertions -/

section

variable {a b v k next prev fuel : Nat}

theorem load64_noAssert : NeverRaises .assertion (load64 a) :=
  .bind .get fun _ => .ite (.pure _) (.throw (by decide))

theorem store64_noAssert : NeverRaises .assertion (store64 a v) :=
  .bind .get fun _ => .ite (.set _) (.throw (by decide))

theorem load8_noAssert : NeverRaises .assertion (load8 a) :=
  .bind load64_noAssert fun _ => .pure _

theorem store8_noAssert : NeverRaises .assertion (store8 a v) :=
  .bind load64_noAssert fun _ => store64_noAssert

theorem setFlag_noAssert : NeverRaises .assertion (setFlag a v) :=
  .bind load8_noAssert fun _ => store8_noAssert

theorem clearFlag_noAssert : NeverRaises .assertion (clearFlag a v) :=
  .bind load8_noAssert fun _ => store8_noAssert

theorem slabIsFree_noAssert : NeverRaises .assertion (slabIsFree a) :=
  .bind (.bind load8_noAssert fun _ => .pure _) fun _ => .pure _

theorem slabUnlink_noAssert : NeverRaises .assertion (slabUnlink a) :=
  .bind load64_noAssert fun _ => .bind load64_noAssert fun _ =>
    .bind store64_noAssert fun _ => store64_noAssert

theorem slabLinkLargeWalk_noAssert :
    NeverRaises .assertion (slabLinkLargeWalk b k fuel next prev) := by
  induction fuel generalizing next prev with
  | zero => exact .throw (by decide)
  | succ fuel ih =>
    refine .ite (.pure _) (.bind load64_noAssert fun _ => .ite (.bind load64_noAssert fun _ => ih) ?_)
    exact .pure _

theorem slabLink_noAssert : NeverRaises .assertion (slabLink a k) := by
  refine .bind .get fun _ => .ite ?_ ?_
  · exact .bind (.bind load64_noAssert fun _ => .bind store64_noAssert fun _ =>
      .bind store64_noAssert fun _ => .bind store64_noAssert fun _ => store64_noAssert) fun _ =>
        .bind .get fun _ => .modify _
  · exact .bind .get fun _ => .bind load64_noAssert fun _ => .bind slabLinkLargeWalk_noAssert fun _ =>
      .bind store64_noAssert fun _ => .bind store64_noAssert fun _ =>
        .bind store64_noAssert fun _ => store64_noAssert

theorem _intFreeRemainderSlab_noAssert : NeverRaises .assertion (_intFreeRemainderSlab a k) := by
  refine .bind load8_noAssert fun _ => .bind .get fun _ => .bind ?_ fun _ =>
    .bind slabLink_noAssert fun _ => .bind store8_noAssert fun _ =>
      .bind store64_noAssert fun _ => store64_noAssert
  refine .ite (.bind (.set _) fun _ => .pure _) (.bind slabIsFree_noAssert fun _ => .ite ?_ ?_)
  · exact .bind slabUnlink_noAssert fun _ => .bind load64_noAssert fun _ => .pure _
  · exact .bind clearFlag_noAssert fun _ => .pure _

theorem largeSlabSetSize_noAssert : NeverRaises .assertion (largeSlabSetSize a k) :=
  .bind load8_noAssert fun _ => store64_noAssert

end

/-! ## The assertion -/

/-- The assertion of the branch fails exactly when the numbers of slabs differ. -/
theorem reallocLargeKeep_assertion (hinv : HeapInv strict s (A ++ r :: B)) (hk : r.kind = .large) :
    reallocLargeKeep r.addr p n (e - p) s = .error .assertion ↔
      reqSlabsForSize n + (e - p - n) / 4096 ≠ r.n := by
  obtain ⟨-, -, -, hsz, -, hv', -, -⟩ := hinv.large_facts (r := r) (by simp) hk
  have hsize : largeSlabGetSize r.addr s = .ok (r.n, s) :=
    eq_ok_of_wp (wp_largeSlabGetSize.mpr ⟨hv', hsz, rfl⟩)
  unfold reallocLargeKeep
  rw [bind_of_ok hsize]
  by_cases heq : reqSlabsForSize n + (e - p - n) / 4096 = r.n
  · have hassert : mallocAssert (decide (reqSlabsForSize n + (e - p - n) / slabSize = r.n)) s =
        .ok ((), s) := eq_ok_of_wp (wp_mallocAssert.mpr ⟨decide_eq_true heq, rfl, rfl⟩)
    rw [bind_of_ok hassert]
    refine iff_of_false ?_ fun hne => hne heq
    exact NeverRaises.bind _intFreeRemainderSlab_noAssert (fun _ => .bind setFlag_noAssert fun _ =>
      .bind largeSlabSetSize_noAssert fun _ => .pure _) s
  · have hassert : mallocAssert (decide (reqSlabsForSize n + (e - p - n) / slabSize = r.n)) =
        throw .assertion := by
      rw [decide_eq_false heq]
      rfl
    rw [hassert]
    exact iff_of_true rfl heq

/-- Both counts agree unless the block starts so late in its first slab that the deadweight
does not fit before the end of the slab. -/
theorem BlockAt.count_iff (hb : BlockAt s r i p e) (hinv : HeapInv strict s (A ++ r :: B))
    (hB : 4096 ≤ e - p) (h52 : r.n < 2 ^ 52) (h16 : n % 16 = 0) (hle : n ≤ e - p) :
    reqSlabsForSize n + (e - p - n) / 4096 = r.n ↔ p - r.addr + (e - p - n) % 4096 ≤ 4096 := by
  obtain ⟨-, h1, hstop⟩ := hb.large hinv hB
  have hoff := blockOff_bounds (s.mem r.addr) i
  have hstart : p = r.addr + blockOff (s.mem r.addr) i := hb.start
  have hend : e = r.addr + 4096 * r.n := hstop
  rw [reqSlabsForSize_eq (by omega)]
  omega

/-- **The assertion of `realloc` on a large block** holds exactly when the block starts early
enough in its first slab, or another branch is taken. -/
theorem realloc_large_assertion (h : HeapReach s live) : ∃ L, LiveOk False s L live ∧
    ∀ A r B i p e size, L = A ++ r :: B → BlockAt s r i p e → 4096 ≤ e - p → size % 16 = 0 →
      512 ≤ size → size ≤ e - p →
      (realloc p size s ≠ .error .assertion ↔ size ≤ (e - p) % 4096 ∨
        496 < (e - p - size) % 4096 ∨ p - r.addr + (e - p - size) % 4096 ≤ 4096) := by
  obtain ⟨L, hL⟩ := h.liveOk
  refine ⟨L, hL, ?_⟩
  rintro A r B i p e size rfl hb hB h16 h512 hle
  obtain ⟨-, h1, hstop⟩ := hb.large hL.inv hB
  have h52 : r.n < 2 ^ 52 := hL.sized r (by simp) hb.kind
  have hoff := blockOff_bounds (s.mem r.addr) i
  have hstart : p = r.addr + blockOff (s.mem r.addr) i := hb.start
  have hend : e = r.addr + 4096 * r.n := hstop
  rw [realloc_block hL hb (by unfold NoWrap; omega) (by omega),
    show (size + 15) / 16 * 16 = size by omega, _intRealloc_eq hL.inv hb,
    if_neg (by simp only [minMediumBlockSz]; omega), if_pos hB, if_neg (by omega)]
  unfold reallocLargeShrink
  simp only [slabSize, reallocMaxDeadweight]
  by_cases hmedium : size ≤ (e - p) % 4096
  · -- to a medium block
    rw [if_pos hmedium]
    obtain ⟨q, t, heq, -⟩ := wp_iff.mp (reallocLargeToMedium_spec hL.inv hb hB h52 h16 h512
      (by omega))
    rw [heq]
    exact iff_of_true (by rintro ⟨⟩) (.inl hmedium)
  rw [if_neg hmedium]
  by_cases hkeep : (e - p - size) % 4096 ≤ 496
  · rw [if_pos hkeep, ne_eq, reallocLargeKeep_assertion hL.inv hb.kind, not_not,
      hb.count_iff hL.inv hB h52 h16 hle]
    exact ⟨fun hc => .inr (.inr hc), fun hc => (hc.resolve_left hmedium).resolve_left (by omega)⟩
  · -- the block is moved
    rw [if_neg hkeep, if_pos (by omega)]
    obtain ⟨q, t, heq, -⟩ := wp_iff.mp (reallocMove_large hL.inv hb (by omega) h16 (by omega)
      (le_refl _) hle)
    rw [heq]
    exact iff_of_true (by rintro ⟨⟩) (.inr (.inl (by omega)))

/-- A block of 4096 bytes starts at the end of its first slab, so any deadweight is too much. -/
theorem realloc_large_assertion_fails : ∃ s live, HeapReach s live ∧ (73728, 4096) ∈ live ∧
    realloc 73728 4080 s = .error .assertion := by
  obtain ⟨s, live, hreach, hcheck⟩ := heapReach_of_runCheck [.malloc 4096]
    (fun live s => decide ((73728, 4096) ∈ live) &&
      match realloc 73728 4080 s with
      | .error .assertion => true
      | _ => false) (by decide +kernel)
  rw [Bool.and_eq_true, decide_eq_true_eq] at hcheck
  obtain ⟨hmem, hcheck⟩ := hcheck
  split at hcheck
  · rename_i heq
    exact ⟨s, live, hreach, hmem, heq⟩
  · cases hcheck

/-- The theorem at the same block: 4096 bytes are kept, 4080 are not. -/
theorem realloc_large_assertion_page : ∃ s live L, HeapReach s live ∧ (73728, 4096) ∈ live ∧
    LiveOk False s L live ∧ ∃ A r B i e, L = A ++ r :: B ∧ BlockAt s r i 73728 e ∧
      4096 ≤ e - 73728 ∧ (realloc 73728 4080 s ≠ .error .assertion ↔ 4080 ≤ (e - 73728) % 4096 ∨
        496 < (e - 73728 - 4080) % 4096 ∨ 73728 - r.addr + (e - 73728 - 4080) % 4096 ≤ 4096) := by
  obtain ⟨s, live, hreach, hcheck⟩ := heapReach_of_runCheck [.malloc 4096]
    (fun live _ => decide ((73728, 4096) ∈ live)) (by decide +kernel)
  have hmem := of_decide_eq_true hcheck
  obtain ⟨L, hL, hiff⟩ := realloc_large_assertion hreach
  obtain ⟨A, r, B, i, e, rfl, hb, hle⟩ := hL.blockAt hmem (by decide)
  have hB : 4096 ≤ e - 73728 := by omega
  exact ⟨s, live, _, hreach, hmem, hL, A, r, B, i, e, rfl, hb, hB,
    hiff A r B i _ e 4080 rfl hb hB (by decide) (by decide) (by omega)⟩

/-! ## The slabs at the end -/

/-- The regions behind after `c` slabs have been freed in front of them. -/
def restAfter (y c : Nat) (B : List Region) : List Region :=
  if c = 0 then B else coalesce y c B

theorem coalesce_eq_restAfter {y c : Nat} (h : SomeFree c B) (hB : ∀ f ∈ B.head?, f.addr = y + 4096 * c) :
    coalesce y c B = restAfter y c B := by
  unfold restAfter
  split_ifs with hc
  · subst hc
    obtain ⟨f, hf, hk⟩ := h.resolve_left (lt_irrefl 0)
    cases B with
    | nil => cases hf
    | cons g B =>
      obtain rfl : g = f := by simpa using hf
      have haddr := hB g hf
      rw [coalesce_free hk, Nat.zero_add]
      congr 1
      cases g
      simp_all
  · rfl

/-- The block at `p` is kept, and exactly `c` slabs at the end of the region `r` are freed. -/
structure KeptInPlace (strict : Prop) (s : Heap) (A : List Region) (r : Region) (B : List Region)
    (i p c : Nat) (t : Heap) : Prop where
  inv : HeapInv strict t (A ++ ⟨r.addr, r.n - c, .large⟩ :: restAfter (r.stop - 4096 * c) c B)
  block : BlockAt t ⟨r.addr, r.n - c, .large⟩ i p (r.stop - 4096 * c)
  used : ∀ x y, Used t.mem (A ++ ⟨r.addr, r.n - c, .large⟩ :: restAfter (r.stop - 4096 * c) c B) x y ↔
    (Used s.mem (A ++ r :: B) x y ∧ x ≠ p) ∨ (x = p ∧ y = r.stop - 4096 * c)
  blocks : blocksAt t.mem r.addr = blocksAt s.mem r.addr
  others : ∀ r₀ ∈ A ++ B, r₀.kind = .large → blocksAt t.mem r₀.addr = blocksAt s.mem r₀.addr
  contents : ContentsKept s (A ++ r :: B) t
    (A ++ ⟨r.addr, r.n - c, .large⟩ :: restAfter (r.stop - 4096 * c) c B)
  heapEnd : t.heapEnd = s.heapEnd
  /-- nothing is written behind the heap -/
  past : ∀ x, s.heapEnd ≤ x → t.mem x = s.mem x

theorem reallocLargeKeep_spec (hinv : HeapInv strict s (A ++ r :: B)) (hb : BlockAt s r i p e)
    (hB : 4096 ≤ e - p) (hmod : (e - p) % 4096 < n)
    (hcount : reqSlabsForSize n + (e - p - n) / 4096 = r.n)
    (hfree : SomeFree ((e - p - n) / 4096) B) :
    wp (reallocLargeKeep r.addr p n (e - p))
      (fun q t => q = p ∧ KeptInPlace strict s A r B i p ((e - p - n) / 4096) t) s := by
  obtain ⟨hlast, h1, hstop⟩ := hb.large hinv hB
  obtain ⟨hok, -, -, hsz, -, hv', -, hn⟩ := hinv.large_facts (r := r) (by simp) hb.kind
  have hok : BlocksOk strict (offAt s.mem r.addr) (alAt s.mem r.addr) r.n (cntAt s.mem r.addr) := hok
  obtain ⟨bins, hslab⟩ := hinv.slab
  have hn56 : r.n < 2 ^ 56 := by
    rw [← hsz]
    exact Nat.mod_lt _ (by decide)
  have hstart := hb.start
  have hend : e = r.addr + 4096 * r.n := hstop
  have hend' : r.stop = r.addr + 4096 * r.n := rfl
  have hoff : 16 ≤ offAt s.mem r.addr i ∧ offAt s.mem r.addr i ≤ 4096 :=
    ⟨(blockOff_bounds _ i).1, (blockOff_bounds _ i).2.1⟩
  generalize hc : (e - p - n) / 4096 = c at *
  have hclt : c + 1 < r.n := by omega
  have hreq : reqSlabsForSize n = r.n - c := by omega
  have hy : r.addr + 4096 * (r.n - c) = r.stop - 4096 * c := by omega
  unfold reallocLargeKeep
  simp only [slabSize]
  rw [hc, hreq, hy, wp_bind, wp_largeSlabGetSize]
  refine ⟨hv', ?_⟩
  rw [wp_bind, wp_mallocAssert]
  refine ⟨decide_eq_true (by omega), ?_⟩
  refine wp_trim hinv hb.kind hfree (by omega) hy.symm rfl fun u hu hframe hendu => wp_pure.mpr ⟨rfl, ?_⟩
  have hrest : coalesce (r.stop - 4096 * c) c B = restAfter (r.stop - 4096 * c) c B :=
    coalesce_eq_restAfter hfree fun f hf => by
      rw [hslab.next_addr f hf]
      omega
  obtain ⟨hinv', hb', hused, hblocks, hothers⟩ := hu.lastResized hinv hb hB (by omega) fun _ => by
    omega
  have hcontents := trim_contents hinv hb.kind hinv' hframe
  rw [hrest] at hinv' hcontents hused
  rw [hy] at hb' hused
  refine ⟨hinv', hb', hused, hblocks, hothers, hcontents, hendu, fun x hx => ?_⟩
  -- every word that may be written lies in a region or in the first page
  have hpage := hslab.end_ge
  obtain ⟨-, -, -, hrle, -⟩ := hslab.mem_facts (r := r) (by simp)
  refine (hframe.mem x ?_).resolve_right ?_
  · rintro ((hp | ⟨r₀, hr₀, -, h₁, h₂⟩) | rfl)
    · omega
    · simp only [List.mem_append, List.mem_cons] at hr₀
      rcases hr₀ with hr₀ | rfl | hr₀
      · have := (hslab.mem_facts (r := r₀) (by simp [hr₀])).2.2.2.1
        omega
      · have h₂ : x < r.stop - 4096 * c + 4096 * c := h₂
        omega
      · have := (hslab.mem_facts (r := r₀) (by simp [hr₀])).2.2.2.1
        omega
    · omega
  · rintro ⟨⟨r₀, hr₀, rfl⟩, -⟩
    obtain ⟨hn₀, -, -, hle₀, -⟩ := hslab.mem_facts (r := r₀) (by simp [hr₀])
    have := Region.addr_lt_stop hn₀
    omega

/-- Freeing no slabs in front of an allocated region clears the alloc bit of that region. -/
theorem freeNothing_clears {b : Region} {Q : Nat → Heap → Prop}
    (hinv : HeapInv strict s (A ++ r :: b :: B)) (hk : b.kind ≠ .free)
    (h : wp (do
        _intFreeRemainderSlab b.addr 0
        setFlag b.addr 2
        largeSlabSetSize r.addr n
        pure p) Q s) : ∃ t, Q p t ∧ (t.mem b.addr).testBit 0 = false := by
  obtain ⟨bins, hslab⟩ := hinv.slab
  obtain ⟨hn, hal, -, hle, q, hok⟩ := hslab.mem_facts (r := b) (by simp)
  obtain ⟨hnr, halr, -⟩ := hslab.mem_facts (r := r) (by simp)
  have hlen := Region.addr_lt_stop hn
  have hlenr := Region.addr_lt_stop hnr
  have haddr : b.addr = r.stop := hslab.next_addr b rfl
  have halloc : (s.mem b.addr).testBit 0 = true :=
    hok.alloc_bit.trans (Region.isAlloc_eq_true.mpr hk)
  unfold _intFreeRemainderSlab freeSlabWithNext at h
  simp only [wp_bind, wp_load8_flags (show b.addr % 8 = 0 by omega), slabSize, Nat.mul_zero,
    Nat.add_zero, wp_get, wp_ite, if_neg (show b.addr ≠ s.heapEnd by omega),
    wp_slabIsFree (show b.addr % 8 = 0 by omega), halloc, Bool.not_true, Bool.false_eq_true, if_false,
    wp_clearFlag (show b.addr % 8 = 0 by omega), wp_pure] at h
  obtain ⟨-, -, -, h⟩ := h
  -- whatever the linking does, the flags are stored after it
  obtain ⟨-, u, -, h⟩ := wp_iff.mp h
  simp only [wp_store8_flags (show b.addr % 8 = 0 by omega), wp_store64,
    wp_setFlag (show b.addr % 8 = 0 by omega), wp_largeSlabSetSize (show r.addr % 8 = 0 by omega)] at h
  obtain ⟨-, -, -, -, -, hQ⟩ := h
  refine ⟨_, hQ, ?_⟩
  simp only [setMem_mem]
  rw [Function.update_of_ne (by omega), Function.update_self, testBit_setBit (by omega),
    Function.update_of_ne (by omega), Function.update_of_ne (by omega), Function.update_self,
    testBit_putField, if_neg (by omega), if_pos (by omega), (testBit_and_fe _).1]
  rfl

/-- At the end of the heap there is nothing to read the flags from. -/
theorem freeNothing_end {Q : Nat → Heap → Prop} (hinv : HeapInv strict s (A ++ [r]))
    (h : wp (do
        _intFreeRemainderSlab r.stop 0
        setFlag r.stop 2
        largeSlabSetSize r.addr n
        pure p) Q s) : False := by
  obtain ⟨bins, hslab⟩ := hinv.slab
  have hbrk := hslab.brk
  have hend : r.stop = s.heapEnd := by
    obtain ⟨a, q, -, -, -, -, hstop, -⟩ := Tiles.append_iff.mp hslab.tiles
    exact hstop
  obtain ⟨-, hal, -⟩ := hslab.mem_facts (r := r) (by simp)
  have hstop : r.stop = r.addr + 4096 * r.n := rfl
  unfold _intFreeRemainderSlab at h
  rw [wp_bind, wp_bind, wp_load8_flags (by omega)] at h
  have hv : r.stop + 8 ≤ s.brk := h.1.2.1
  omega

/-- When nothing is cut off in front of an allocated region or the end of the heap, the branch
fails or takes the alloc bit of the region behind. -/
theorem reallocLargeKeep_nothing (hinv : HeapInv strict s (A ++ r :: B)) (hk : r.kind = .large)
    (h0 : (e - p - n) / 4096 = 0) (hcount : reqSlabsForSize n = r.n)
    (hB : ¬ ∃ f ∈ B.head?, f.kind = .free) :
    ¬ ∃ q t, reallocLargeKeep r.addr p n (e - p) s = .ok (q, t) ∧
      HeapInv strict t (A ++ ⟨r.addr, r.n, .large⟩ :: B) := by
  obtain ⟨-, -, -, hsz, -, hv', -, -⟩ := hinv.large_facts (r := r) (by simp) hk
  rintro ⟨q, t, heq, hinv'⟩
  have h : wp (reallocLargeKeep r.addr p n (e - p)) (fun _ u => u = t) s :=
    wp_iff.mpr ⟨q, t, heq, rfl⟩
  unfold reallocLargeKeep at h
  simp only [slabSize] at h
  rw [h0, hcount, wp_bind, wp_largeSlabGetSize] at h
  obtain ⟨-, h⟩ := h
  rw [wp_bind, wp_mallocAssert] at h
  obtain ⟨-, h⟩ := h
  cases B with
  | nil => exact freeNothing_end hinv h
  | cons b B =>
    have hbk : b.kind ≠ .free := fun hc => hB ⟨b, rfl, hc⟩
    obtain ⟨bins, hslab⟩ := hinv.slab
    have haddr : b.addr = r.addr + 4096 * r.n := hslab.next_addr b rfl
    rw [← haddr] at h
    obtain ⟨u, rfl, hbit⟩ := freeNothing_clears hinv hbk h
    obtain ⟨bins', hslab'⟩ := hinv'.slab
    obtain ⟨-, -, -, -, q', hok⟩ := hslab'.mem_facts (r := b) (by simp)
    have halloc := hok.alloc_bit.trans (Region.isAlloc_eq_true.mpr hbk)
    rw [hbit] at halloc
    cases halloc

/-- **Keeping a large block in place** works exactly when there are slabs to free or the region
behind is free already. -/
theorem realloc_large_keep (h : HeapReach s live) : ∃ L, LiveOk False s L live ∧
    ∀ A r B i p e size n, L = A ++ r :: B → BlockAt s r i p e → 4096 ≤ e - p →
      n = (size + 15) / 16 * 16 → size ≤ e - p → 512 ≤ n → (e - p) % 4096 < n →
      (e - p - n) % 4096 ≤ 496 → reqSlabsForSize n + (e - p - n) / 4096 = r.n →
      ((∃ t, realloc p size s = .ok (p, t) ∧
          KeptInPlace False s A r B i p ((e - p - n) / 4096) t ∧
          ∀ w, p ≤ w → w < p + size → t.mem w = s.mem w) ↔
        0 < (e - p - n) / 4096 ∨ ∃ f ∈ B.head?, f.kind = .free) := by
  obtain ⟨L, hL⟩ := h.liveOk
  refine ⟨L, hL, ?_⟩
  rintro A r B i p e size n rfl hb hB rfl hle h512 hmod hdead hcount
  obtain ⟨-, h1, hstop⟩ := hb.large hL.inv hB
  have h52 : r.n < 2 ^ 52 := hL.sized r (by simp) hb.kind
  have hoff := blockOff_bounds (s.mem r.addr) i
  have hstart : p = r.addr + blockOff (s.mem r.addr) i := hb.start
  have hend : e = r.addr + 4096 * r.n := hstop
  have hrun : realloc p size s = reallocLargeKeep r.addr p ((size + 15) / 16 * 16) (e - p) s := by
    rw [realloc_block hL hb (by unfold NoWrap; omega) (by omega), _intRealloc_eq hL.inv hb,
      if_neg (by simp only [minMediumBlockSz]; omega), if_pos hB, if_neg (by omega)]
    unfold reallocLargeShrink
    simp only [slabSize, reallocMaxDeadweight]
    rw [if_neg (by omega), if_pos hdead]
  rw [hrun]
  constructor
  · rintro ⟨t, heq, ht, -⟩
    by_contra hcon
    have h0 : (e - p - (size + 15) / 16 * 16) / 4096 = 0 := by
      by_contra hne
      exact hcon (.inl (Nat.pos_of_ne_zero hne))
    have hinv' := ht.inv
    rw [h0] at hinv'
    exact reallocLargeKeep_nothing hL.inv hb.kind h0 (by omega)
      (fun hf => hcon (.inr hf)) ⟨p, t, heq, hinv'⟩
  · intro hfree
    obtain ⟨q, t, heq, rfl, ht⟩ := wp_iff.mp (reallocLargeKeep_spec hL.inv hb hB hmod hcount hfree)
    refine ⟨t, heq, ht, fun w h₁ h₂ => ht.contents _ _ _ _ hb.isUsed ht.block.isUsed w h₁ (by omega)
      h₁ ?_⟩
    have hend' : r.stop = r.addr + 4096 * r.n := rfl
    omega

/-- A block of two slabs is cut to one. -/
theorem realloc_large_keep_cut : ∃ s live L, HeapReach s live ∧ (73728, 8192) ∈ live ∧
    LiveOk False s L live ∧ ∃ A r B i, L = A ++ r :: B ∧ BlockAt s r i 73728 81920 ∧
      ((∃ t, realloc 73728 4096 s = .ok (73728, t) ∧ KeptInPlace False s A r B i 73728 1 t ∧
          ∀ w, 73728 ≤ w → w < 73728 + 4096 → t.mem w = s.mem w) ↔
        0 < 1 ∨ ∃ f ∈ B.head?, f.kind = .free) := by
  obtain ⟨s, live, hreach, hcheck⟩ := heapReach_of_runCheck [.malloc 8192]
    (fun live s => decide ((73728, 8192) ∈ live ∧ s.mem (ptrGetSlab 73728 + 8) % 2 ^ 56 = 3))
    (by decide +kernel)
  obtain ⟨hmem, hsize⟩ := of_decide_eq_true hcheck
  obtain ⟨L, hL, hiff⟩ := realloc_large_keep hreach
  obtain ⟨A, r, B, i, e, rfl, hb, hle⟩ := hL.blockAt hmem (by decide)
  obtain ⟨haddr, hn⟩ := hb.slab hL.inv
  have hr : r.addr = 69632 := haddr.symm.trans (by decide)
  have hn : r.n = 3 := hn.symm.trans hsize
  have he : e = 81920 := by
    rw [(hb.large hL.inv (by omega)).2.2, Region.stop, hr, hn]
  subst he
  exact ⟨s, live, _, hreach, hmem, hL, A, r, B, i, rfl, hb,
    hiff A r B i _ _ 4096 4096 rfl hb (by decide) rfl (by decide) (by decide) (by decide) (by decide)
      (by rw [hn]; decide)⟩

/-- Asking for the size that the block has already: nothing is to be freed behind it. -/
theorem realloc_large_keep_same : ∃ s live, HeapReach s live ∧ (73728, 4096) ∈ live ∧
    realloc 73728 4096 s = .error .segfault := by
  obtain ⟨s, live, hreach, hcheck⟩ := heapReach_of_runCheck [.malloc 4096]
    (fun live s => decide ((73728, 4096) ∈ live) &&
      match realloc 73728 4096 s with
      | .error .segfault => true
      | _ => false) (by decide +kernel)
  rw [Bool.and_eq_true, decide_eq_true_eq] at hcheck
  obtain ⟨hmem, hcheck⟩ := hcheck
  split at hcheck
  · rename_i heq
    exact ⟨s, live, hreach, hmem, heq⟩
  · cases hcheck

end

end MallocBench.Slab
