import MallocBench.Slab.Init

/-!
# Runs of the slab layer

The slab layer as its callers use it, from `mm_init` on: any sequence of
operations, each with the fix-ups its caller makes, and any writes into the
storage of allocated regions in between. Along every such run the invariant of
the slab layer holds, and no operation that is allowed faults.
-/

namespace MallocBench.Slab

open Lib

/-- An operation of the slab layer. Allocated regions are given by what the
caller knows of them. -/
inductive SlabOp
  /-- `__int_alloc_slab`; the caller marks the slab as packed or writes its size -/
  | alloc (n : Nat) (packed : Bool)
  /-- `__int_take_slab` of `k` slabs after the region `r`, which is lengthened -/
  | take (r : Region) (k : Nat)
  /-- `__int_free_slab` of the region `r` -/
  | free (r : Region)
  /-- `__int_free_remainder_slab` of the last `k` slabs of `r`, and the fix-ups -/
  | freeRemainder (r : Region) (k : Nat)
  /-- a word written by the owner of `r` -/
  | write (r : Region) (x v : Nat)

namespace SlabOp

/-- When the callers may use the operation; `live` are the allocated regions. -/
def Allowed (s : Heap) (live : List Region) : SlabOp → Prop
  | alloc n packed => 0 < n ∧ n < 2 ^ 56 ∧ (packed = true → n = 1)
  | take r k => r ∈ live ∧ r.kind = .large ∧ 0 < k ∧ r.n + k < 2 ^ 56 ∧ r.stop ≠ s.heapEnd ∧
      (s.mem r.stop).testBit 0 = false ∧ k ≤ s.mem (r.stop + 24)
  | free r => r ∈ live
  | freeRemainder r k => r ∈ live ∧ r.kind = .large ∧ 0 < k ∧ k < r.n
  | write r x _ => r ∈ live ∧ r.addr + 16 ≤ x ∧ x + 8 ≤ r.stop ∧ x % 8 = 0

/-- The operation; it returns the allocated regions afterwards. -/
def exec (live : List Region) : SlabOp → HeapM (List Region)
  | alloc n packed => do
    let y ← _intAllocSlab n
    if packed then setFlag y 4
    else do
      clearFlag y 4
      largeSlabSetSize y n
    pure (⟨y, n, if packed then .packed else .large⟩ :: live)
  | take r k => do
    largeSlabSetSize r.addr (r.n + k)
    _intTakeSlab r.stop k
    pure (⟨r.addr, r.n + k, .large⟩ :: live.filter (· ≠ r))
  | free r => do
    _intFreeSlab r.addr r.n
    pure (live.filter (· ≠ r))
  | freeRemainder r k => do
    _intFreeRemainderSlab (r.addr + 4096 * (r.n - k)) k
    setFlag (r.addr + 4096 * (r.n - k)) 2
    largeSlabSetSize r.addr (r.n - k)
    pure (⟨r.addr, r.n - k, .large⟩ :: live.filter (· ≠ r))
  | write _ x v => do
    store64 x v
    pure live

instance (s : Heap) (live : List Region) : (op : SlabOp) → Decidable (op.Allowed s live)
  | alloc _ _ => inferInstanceAs (Decidable (_ ∧ _ ∧ _))
  | take _ _ => inferInstanceAs (Decidable (_ ∧ _ ∧ _ ∧ _ ∧ _ ∧ _ ∧ _))
  | free r => inferInstanceAs (Decidable (r ∈ live))
  | freeRemainder _ _ => inferInstanceAs (Decidable (_ ∧ _ ∧ _ ∧ _))
  | write _ _ _ => inferInstanceAs (Decidable (_ ∧ _ ∧ _ ∧ _))

end SlabOp

/-- The states the slab layer can be in, with the allocated regions. -/
inductive SlabReach : Heap → List Region → Prop
  | init {s t : Heap} : Fresh s → mmInit s = .ok (true, t) → SlabReach t []
  | step {s t : Heap} {live live' : List Region} {op : SlabOp} : SlabReach s live →
      op.Allowed s live → op.exec live s = .ok (live', t) → SlabReach t live'

/-- The invariant holds, and `live` are the allocated regions. -/
def SlabOk (s : Heap) (live : List Region) : Prop :=
  ∃ L bins, SlabInv s L bins ∧ ∀ r, r ∈ live ↔ r ∈ L ∧ r.kind ≠ .free

variable {s t : Heap} {A B L live : List Region} {r : Region} {bins : Nat → List Nat}

/-- The live regions after the region `r` has become `L'`. -/
theorem mem_live_filter (hinv : SlabInv s (A ++ r :: B) bins)
    (hlive : ∀ r', r' ∈ live ↔ r' ∈ A ++ r :: B ∧ r'.kind ≠ .free) {r' : Region} :
    r' ∈ live.filter (· ≠ r) ↔ r' ∈ A ++ B ∧ r'.kind ≠ .free := by
  have hpos := Region.addr_lt_stop (hinv.mem_facts (r := r) (by simp)).1
  have hne : r' ∈ A ++ B → r' ≠ r := by
    rintro hr' rfl
    have := hinv.addr_ne hr'
    omega
  rw [List.mem_filter, hlive]
  constructor
  · rintro ⟨⟨hr', hk⟩, hner⟩
    refine ⟨?_, hk⟩
    have hner' : r' ≠ r := by simpa using hner
    simpa [hner'] using hr'
  · rintro ⟨hr', hk⟩
    refine ⟨⟨?_, hk⟩, by simpa using hne hr'⟩
    rcases List.mem_append.mp hr' with hm | hm
    · exact List.mem_append_left _ hm
    · exact List.mem_append_right _ (List.mem_cons_of_mem _ hm)

/-- The live regions when a region `r'` has been put among those of `A` and `B`. -/
theorem mem_live_cons {r' : Region} {B' : List Region} (hk : r'.kind ≠ .free)
    (hlive : ∀ r₀, r₀ ∈ live ↔ r₀ ∈ A ++ B ∧ r₀.kind ≠ .free) (hB : SameAlloc (A ++ B) (A ++ B')) :
    ∀ r₀, r₀ ∈ r' :: live ↔ r₀ ∈ A ++ r' :: B' ∧ r₀.kind ≠ .free := by
  intro r₀
  rw [List.mem_cons, hlive]
  constructor
  · rintro (rfl | ⟨hr₀, hk₀⟩)
    · exact ⟨by simp, hk⟩
    · refine ⟨?_, hk₀⟩
      rcases List.mem_append.mp ((hB r₀ hk₀).mpr hr₀) with hm | hm
      · exact List.mem_append_left _ hm
      · exact List.mem_append_right _ (List.mem_cons_of_mem _ hm)
  · rintro ⟨hr₀, hk₀⟩
    by_cases heq : r₀ = r'
    · exact .inl heq
    · refine .inr ⟨(hB r₀ hk₀).mp ?_, hk₀⟩
      simpa [heq] using hr₀

/-- Writing the size makes a raw region a large one. -/
theorem SlabInv.setSize (h : SlabInv s (A ++ r :: B) bins) (hr : r.kind = .raw)
    (hn : r.n < 2 ^ 56) (h2 : (s.mem r.addr).testBit 2 = false) :
    wp (largeSlabSetSize r.addr r.n) (fun _ t => t.heapEnd = s.heapEnd ∧
      SlabInv t (A ++ ⟨r.addr, r.n, .large⟩ :: B) bins) s := by
  obtain ⟨hpos, hal, -⟩ := h.mem_facts (r := r) (by simp)
  have hstop := Region.addr_lt_stop hpos
  rw [wp_largeSlabSetSize (by omega)]
  refine ⟨h.valid (r := r) (by simp) (by omega) (by omega) (by omega), rfl, ?_⟩
  refine h.rewriteMem ⟨r.addr, r.n, .large⟩ _ (Region.isAlloc_eq_true.mpr (by rw [hr]; decide)) rfl rfl rfl
    (fun p hok => ?_) (fun x hx => Function.update_of_ne (by omega) _ _)
  have halloc : r.isAlloc = true := Region.isAlloc_eq_true.mpr (by rw [hr]; decide)
  have hne : r.addr ≠ r.addr + 8 := by omega
  refine ⟨hpos, ?_, ?_, ?_, ?_⟩
  · rw [Function.update_of_ne hne, hok.alloc_bit, halloc]
    rfl
  · rw [Function.update_of_ne hne, hok.prev_bit]
  · rw [Function.update_of_ne hne, h2]
  · rw [Function.update_self, sizeWord_mod hn]

/-! ## Every operation keeps the invariant -/

theorem allocOp_spec (h : SlabOk s live) {n : Nat} {packed : Bool} (hn : 0 < n) (hn' : n < 2 ^ 56)
    (hp : packed = true → n = 1) :
    wp (SlabOp.exec live (.alloc n packed)) (fun live' t => SlabOk t live' ∧
      ∃ y, live' = ⟨y, n, if packed then .packed else .large⟩ :: live) s := by
  obtain ⟨L, bins, hinv, hlive⟩ := h
  unfold SlabOp.exec
  rw [wp_bind]
  refine wp_mono (_intAllocSlab_spec hinv hn) ?_
  rintro y t ⟨⟨A, B, bins', hinv', hsame⟩, -⟩
  obtain ⟨-, hal, -, -, p, hok⟩ := hinv'.mem_facts (r := ⟨y, n, .raw⟩) (by simp)
  simp only at hal
  have hvalid := hinv'.valid (r := ⟨y, n, .raw⟩) (by simp) (x := y) (le_refl _)
    (by simp only [Region.stop]; omega) (by omega)
  have hlive' : ∀ r₀, r₀ ∈ live ↔ r₀ ∈ A ++ B ∧ r₀.kind ≠ .free := by
    intro r₀
    rw [hlive]
    constructor
    · rintro ⟨hr₀, hk₀⟩
      exact ⟨(hsame r₀ hk₀).mpr hr₀, hk₀⟩
    · rintro ⟨hr₀, hk₀⟩
      exact ⟨(hsame r₀ hk₀).mp hr₀, hk₀⟩
  have hrefl : SameAlloc (A ++ B) (A ++ B) := fun _ _ => Iff.rfl
  simp only [wp_bind, wp_ite, wp_pure]
  by_cases hpk : packed = true
  · rw [if_pos hpk]
    rw [wp_setFlag (by omega)]
    refine ⟨hvalid, ⟨A ++ ⟨y, n, .packed⟩ :: B, bins', ?_, ?_⟩, y, rfl⟩
    · refine hinv'.rewriteMem ⟨y, n, .packed⟩ _ rfl rfl rfl rfl (fun q hokq => ?_)
        (fun x hx => Function.update_of_ne ?_ _ _)
      · refine ⟨hn, ?_, ?_, ?_, hp hpk⟩
        · rw [Function.update_self, testBit_setBit (by omega), hokq.alloc_bit]
          rfl
        · rw [Function.update_self, testBit_setBit (by omega), hokq.prev_bit,
            show Nat.testBit 4 1 = false from rfl, Bool.or_false]
        · rw [Function.update_self, testBit_setBit (by omega), show Nat.testBit 4 2 = true from rfl,
            Bool.or_true]
      · simp only [Region.stop] at hx
        omega
    · simp only [hpk, if_true]
      exact mem_live_cons (by simp) hlive' hrefl
  · rw [if_neg hpk]
    rw [wp_clearFlag (by omega)]
    refine ⟨hvalid, ?_⟩
    have hraw := hinv'.rewriteMem ⟨y, n, .raw⟩
      (Function.update t.mem y (clearBit (t.mem y) 4)) rfl rfl rfl rfl (fun q hokq => ?_)
      (fun x hx => Function.update_of_ne (by simp only [Region.stop] at hx; omega) _ _)
    · refine wp_mono (hraw.setSize rfl hn' ?_) ?_
      · simp only
        rw [Function.update_self, testBit_clearBit (by omega), show Nat.testBit 4 2 = true from rfl,
          Bool.not_true, Bool.and_false]
      · rintro _ u ⟨-, hinv''⟩
        simp only [hpk]
        exact ⟨⟨_, bins', hinv'', mem_live_cons (by simp) hlive' hrefl⟩, y, rfl⟩
    · refine ⟨hn, ?_, ?_, trivial⟩
      · rw [Function.update_self, testBit_clearBit (by omega), hokq.alloc_bit]
        rfl
      · rw [Function.update_self, testBit_clearBit (by omega), hokq.prev_bit,
          show Nat.testBit 4 1 = false from rfl, Bool.not_false, Bool.and_true]

theorem freeOp_spec (h : SlabOk s live) (hr : r ∈ live) :
    wp (SlabOp.exec live (.free r)) (fun live' t => SlabOk t live') s := by
  obtain ⟨L, bins, hinv, hlive⟩ := h
  obtain ⟨hrL, hk⟩ := (hlive r).mp hr
  obtain ⟨A, B, rfl⟩ := List.append_of_mem hrL
  unfold SlabOp.exec
  rw [wp_bind]
  refine wp_mono (_intFreeSlab_spec hinv (Region.isAlloc_eq_true.mpr hk)) ?_
  rintro _ t ⟨⟨L', bins', hinv', hsame⟩, -⟩
  refine wp_pure.mpr ⟨L', bins', hinv', fun r₀ => ?_⟩
  rw [mem_live_filter hinv hlive]
  constructor
  · rintro ⟨hr₀, hk₀⟩
    exact ⟨(hsame r₀ hk₀).mpr hr₀, hk₀⟩
  · rintro ⟨hr₀, hk₀⟩
    exact ⟨(hsame r₀ hk₀).mp hr₀, hk₀⟩

theorem freeRemainderOp_spec (h : SlabOk s live) {k : Nat} (hr : r ∈ live) (hrk : r.kind = .large)
    (hk : 0 < k) (hkn : k < r.n) :
    wp (SlabOp.exec live (.freeRemainder r k)) (fun live' t => SlabOk t live') s := by
  obtain ⟨L, bins, hinv, hlive⟩ := h
  obtain ⟨A, B, rfl⟩ := List.append_of_mem ((hlive r).mp hr).1
  have halloc : r.isAlloc = true := Region.isAlloc_eq_true.mpr (by rw [hrk]; decide)
  obtain ⟨hpos, hal, hge, hle, p, hok⟩ := hinv.mem_facts (r := r) (by simp)
  obtain ⟨h2, hsize⟩ : (s.mem r.addr).testBit 2 = false ∧ s.mem (r.addr + 8) % 2 ^ 56 = r.n := by
    have := hok.2.2.2
    rwa [hrk] at this
  have hn : r.n < 2 ^ 56 := by omega
  unfold SlabOp.exec
  have hspec := freeRemainder_spec hinv halloc (.inl hk) hkn rfl
  simp only [wp_bind, wp_pure] at hspec ⊢
  refine wp_mono hspec fun _ t ht => wp_mono ht ?_
  rintro _ u ⟨⟨bins', hinv'⟩, hframe, -⟩
  have hkeep : u.mem r.addr = s.mem r.addr := by
    have hB : ∀ r' ∈ B, r.stop ≤ r'.addr := by
      have hp := hinv.tiles.pairwise
      rw [List.pairwise_append, List.pairwise_cons] at hp
      exact hp.2.1.1
    have hA : ∀ r' ∈ A, r'.stop ≤ r.addr := by
      have hp := hinv.tiles.pairwise
      rw [List.pairwise_append] at hp
      exact fun r' hr' => hp.2.2 r' hr' r (by simp)
    have hstop : r.stop = r.addr + 4096 * r.n := rfl
    refine (hframe.mem r.addr ?_).resolve_right ?_
    · rintro (hx | ⟨r', hr', -, h₁, h₂⟩)
      · omega
      · rcases List.mem_append.mp hr' with hm | hm
        · have := hA r' hm
          omega
        · rcases List.mem_cons.mp hm with rfl | hm
          · simp only at h₁
            omega
          · have := hB r' hm
            omega
    · rintro ⟨⟨r', hr', hx⟩, -⟩
      have := hB r' hr'
      omega
  refine wp_mono (hinv'.setSize (r := ⟨r.addr, r.n - k, .raw⟩) rfl (by simp only; omega)
    (by rw [hkeep, h2])) ?_
  rintro _ v ⟨-, hinv''⟩
  exact ⟨_, bins', hinv'', mem_live_cons (by simp)
    (fun r₀ => mem_live_filter hinv hlive) sameAlloc_coalesce⟩

theorem takeOp_spec (h : SlabOk s live) {k : Nat} (hr : r ∈ live) (hrk : r.kind = .large)
    (hn : r.n + k < 2 ^ 56) (hend : r.stop ≠ s.heapEnd)
    (hfree : (s.mem r.stop).testBit 0 = false) (hkn : k ≤ s.mem (r.stop + 24)) :
    wp (SlabOp.exec live (.take r k)) (fun live' t => SlabOk t live') s := by
  obtain ⟨L, bins, hinv, hlive⟩ := h
  obtain ⟨A, B, rfl⟩ := List.append_of_mem ((hlive r).mp hr).1
  have halloc : r.isAlloc = true := Region.isAlloc_eq_true.mpr (by rw [hrk]; decide)
  obtain ⟨a, q, hgap⟩ := hinv.split
  obtain ⟨rfl, -, hgap'⟩ := hgap.drop_alloc halloc
  -- a free region follows
  rcases hgap'.tiling.end_cases with ⟨he, -⟩ | ⟨-, f, B', rfl, hf⟩
  · exact absurd he hend
  obtain ⟨-, hokf, -, -⟩ := hgap'.tiling.drop
  have hfk : f.kind = .free := by
    rw [← Region.isAlloc_eq_false, ← hokf.alloc_bit, hf, hfree]
  have hfn : f.n = s.mem (r.stop + 24) := by
    rw [← hokf.num_slabs hfk, hf]
  have htake := takeSlabs_spec hinv hrk hfk (by omega) hn
  show wp (do
    largeSlabSetSize r.addr (r.n + k)
    _intTakeSlab r.stop k
    pure (⟨r.addr, r.n + k, .large⟩ :: live.filter (· ≠ r))) _ s
  rw [← hf]
  simp only [wp_bind, wp_pure] at htake ⊢
  refine wp_mono htake fun _ _ h₁ => wp_mono h₁ ?_
  rintro _ t ⟨⟨bins', hinv'⟩, -⟩
  refine ⟨_, bins', hinv', mem_live_cons (by simp) (fun r₀ => mem_live_filter hinv hlive) ?_⟩
  intro r₀ hr₀
  have hne : r₀ ≠ f := fun heq => hr₀ (heq ▸ hfk)
  rw [takeRest_sameAlloc r₀ hr₀]
  simp [hne]

theorem writeOp_spec (h : SlabOk s live) {x v : Nat} (hr : r ∈ live) (h₁ : r.addr + 16 ≤ x)
    (h₂ : x + 8 ≤ r.stop) (h8 : x % 8 = 0) :
    wp (SlabOp.exec live (.write r x v)) (fun live' t => SlabOk t live') s := by
  obtain ⟨L, bins, hinv, hlive⟩ := h
  obtain ⟨hrL, hk⟩ := (hlive r).mp hr
  obtain ⟨A, B, rfl⟩ := List.append_of_mem hrL
  have halloc := Region.isAlloc_eq_true.mpr hk
  unfold SlabOp.exec
  simp only [wp_bind, wp_store64, wp_pure]
  refine ⟨hinv.valid (r := r) (by simp) (by omega) h₂ h8, _, bins, ?_, hlive⟩
  refine hinv.rewriteMem r _ halloc halloc rfl rfl (fun p hok => hok.congr ⟨fun i _ => ?_, fun _ => ?_,
    fun hf => absurd hf hk⟩) (fun y hy => Function.update_of_ne (by omega) _ _)
  · rw [Function.update_of_ne (by omega)]
  · rw [Function.update_of_ne (by omega)]

/-- **The step**: an allowed operation succeeds and keeps the invariant. -/
theorem slabOp_spec (h : SlabOk s live) {op : SlabOp} (hop : op.Allowed s live) :
    wp (op.exec live) (fun live' t => SlabOk t live') s := by
  cases op with
  | alloc n packed => exact wp_mono (allocOp_spec h hop.1 hop.2.1 hop.2.2) fun _ _ ht => ht.1
  | take r k =>
    obtain ⟨hr, hrk, hk, hn, hend, hfree, hkn⟩ := hop
    exact takeOp_spec h hr hrk hn hend hfree hkn
  | free r => exact freeOp_spec h hop
  | freeRemainder r k =>
    obtain ⟨hr, hrk, hk, hkn⟩ := hop
    exact freeRemainderOp_spec h hr hrk hk hkn
  | write r x v =>
    obtain ⟨hr, h₁, h₂, h8⟩ := hop
    exact writeOp_spec h hr h₁ h₂ h8

theorem SlabOk.of_reach (h : SlabReach s live) : SlabOk s live := by
  induction h with
  | init hf heq =>
    obtain ⟨-, -, hinit⟩ := wp_of_eq (mmInit_spec hf) heq
    exact ⟨[], fun _ => [], hinit.inv, by simp⟩
  | step _ hop heq ih =>
    have := wp_of_eq (slabOp_spec ih hop) heq
    exact this

/-- **The slab layer along every run**: the regions tile the heap, with no two
free ones adjacent and all footers, previous-alloc bits and `LAST_SLAB_ALLOC`
right; the bins hold exactly the free regions, the last one is sorted, and the
skiplist marks the non-empty ones. The next operation cannot fault. -/
theorem slabReach_inv (h : SlabReach s live) :
    (∃ L bins, SlabInv s L bins ∧ ∀ r, r ∈ live ↔ r ∈ L ∧ r.kind ≠ .free) ∧
      ∀ op : SlabOp, op.Allowed s live → ∃ live' t, op.exec live s = .ok (live', t) := by
  refine ⟨SlabOk.of_reach h, fun op hop => ?_⟩
  obtain ⟨live', t, heq, -⟩ := wp_iff.mp (slabOp_spec (SlabOk.of_reach h) hop)
  exact ⟨live', t, heq⟩

/-- The theorem after the allocation of three slabs. -/
theorem slabReach_inv_alloc : ∃ s y, SlabReach s [⟨y, 3, .large⟩] ∧
    (∃ L bins, SlabInv s L bins ∧ ∀ r, r ∈ [⟨y, 3, .large⟩] ↔ r ∈ L ∧ r.kind ≠ .free) ∧
      ∀ op : SlabOp, op.Allowed s [⟨y, 3, .large⟩] →
        ∃ live' t, op.exec [⟨y, 3, .large⟩] s = .ok (live', t) := by
  obtain ⟨_, t, heq, rfl, -⟩ := wp_iff.mp (mmInit_spec fresh_freshHeap)
  have hinit := SlabReach.init fresh_freshHeap heq
  obtain ⟨_, u, heq', -, y, rfl⟩ := wp_iff.mp
    (allocOp_spec (SlabOk.of_reach hinit) (by decide : 0 < 3) (by decide)
      (by decide : false = true → 3 = 1))
  have hreach := SlabReach.step hinit
    (show SlabOp.Allowed _ _ (.alloc 3 false) from ⟨by decide, by decide, by decide⟩) heq'
  exact ⟨u, y, hreach, slabReach_inv hreach⟩

/-- The state after a run on a fresh process is reached. -/
theorem slabReach_of_runCheck (ops : List SlabOp) (f : List Region → Heap → Bool)
    (h : replayCheck (fun s live op => op.Allowed s live) SlabOp.exec ops [] f = true) :
    ∃ s live, SlabReach s live ∧ f live s = true :=
  exists_of_replayCheck (P := SlabReach) _ _ (fun _ hinit => .init fresh_freshHeap hinit)
    (fun _ _ _ _ _ h hop hexec => h.step hop hexec) h

/-! ## Where slabs come from -/

/-- **Best fit**: `__int_alloc_slab` takes the first `n` slabs of a smallest free
region that has as many. The heap is extended only when there is none, by what the
free region at its end falls short of. -/
theorem intAllocSlab_best_fit {n : Nat} (h : SlabInv s L bins) (h0 : 0 < n) :
    ∃ y t, _intAllocSlab n s = .ok (y, t) ∧
      (∃ A B bins', SlabInv t (A ++ ⟨y, n, .raw⟩ :: B) bins' ∧ SameAlloc L (A ++ B)) ∧
      ((∃ f ∈ L, f.kind = .free ∧ n ≤ f.n) → t.brk = s.brk ∧
        ∃ f ∈ L, f.kind = .free ∧ f.addr = y ∧ n ≤ f.n ∧
          ∀ g ∈ L, g.kind = .free → n ≤ g.n → f.n ≤ g.n) ∧
      ((¬ ∃ f ∈ L, f.kind = .free ∧ n ≤ f.n) → tailFree L < n ∧
        t.brk = s.brk + 4096 * (n - tailFree L) ∧ y = s.brk - 4096 * tailFree L) := by
  obtain ⟨y, t, heq, hfit⟩ := wp_iff.mp (_intAllocSlab_fit h h0)
  have halloc : Allocated s L n y t := hfit.elim BestFit.alloc Extended.alloc
  obtain ⟨A, B, bins', hinv, hsame⟩ := halloc.inv
  have hbrk := h.brk
  have hbrk' := hinv.brk
  refine ⟨y, t, heq, ⟨A, B, bins', hinv, hsame⟩, fun hex => ?_, fun hno => ?_⟩
  · rcases hfit with hfit | hext
    · exact ⟨by rw [← hbrk, ← hbrk', hfit.heapEnd], hfit.best⟩
    · obtain ⟨f, hf, hk, hn⟩ := hex
      have := hext.small f hf hk
      omega
  · rcases hfit with hfit | hext
    · obtain ⟨f, hf, hk, -, hn, -⟩ := hfit.best
      exact absurd ⟨f, hf, hk, hn⟩ hno
    · have hstart := hext.start
      have hend := hext.heapEnd
      have hlt := tailFree_lt h0 hext.small
      refine ⟨hlt, ?_, by omega⟩
      have : 4096 * n = 4096 * tailFree L + 4096 * (n - tailFree L) := by
        rw [← Nat.mul_add, Nat.add_sub_cancel' hlt.le]
      omega

/-- Three free slabs and two free slabs apart from each other: a slab is taken from the two, and
four are got from the end of the heap. -/
theorem intAllocSlab_best_fit_smaller : ∃ s bins, SlabInv s [⟨69632, 3, .free⟩, ⟨81920, 1, .large⟩,
      ⟨86016, 2, .free⟩, ⟨94208, 1, .large⟩] bins ∧
    (∃ t, _intAllocSlab 1 s = .ok (86016, t) ∧ t.brk = 98304) ∧
    ∃ t, _intAllocSlab 4 s = .ok (98304, t) ∧ t.brk = 114688 := by
  obtain ⟨s, live, hreach, hcheck⟩ := slabReach_of_runCheck
    [.alloc 3 false, .alloc 1 false, .alloc 2 false, .alloc 1 false,
      .free ⟨69632, 3, .large⟩, .free ⟨86016, 2, .large⟩]
    (fun live s => decide (s.brk = 98304 ∧ (∀ r ∈ live, r.kind ≠ .raw) ∧
      Tiles s.mem (s.heap + 4096) true [⟨69632, 3, .free⟩, ⟨81920, 1, .large⟩, ⟨86016, 2, .free⟩,
        ⟨94208, 1, .large⟩] s.heapEnd (s.flags.getLsbD 0))) (by decide +kernel)
  obtain ⟨hbrk, hraw, htiles⟩ := of_decide_eq_true hcheck
  obtain ⟨L, bins, hinv, hlive⟩ := SlabOk.of_reach hreach
  obtain rfl := hinv.tiles.unique htiles (fun r hr hk => hraw r ((hlive r).mpr ⟨hr, by simp [hk]⟩) hk)
    (by decide)
  refine ⟨s, bins, hinv, ?_, ?_⟩
  · obtain ⟨y, t, heq, -, hfit, -⟩ := intAllocSlab_best_fit hinv (n := 1) (by decide)
    obtain ⟨hsame, f, hf, hk, rfl, -, hbest⟩ := hfit ⟨⟨86016, 2, .free⟩, by simp, rfl, by decide⟩
    have hle := hbest ⟨86016, 2, .free⟩ (by simp) rfl (by decide)
    obtain rfl : f = ⟨86016, 2, .free⟩ := by
      simp only [List.mem_cons, List.not_mem_nil, or_false] at hf
      rcases hf with rfl | rfl | rfl | rfl <;> simp_all
    exact ⟨t, heq, hsame.trans hbrk⟩
  · obtain ⟨y, t, heq, -, -, hext⟩ := intAllocSlab_best_fit hinv (n := 4) (by decide)
    obtain ⟨-, hgrow, rfl⟩ := hext (by decide)
    refine ⟨t, ?_, hgrow.trans (by rw [hbrk]; decide)⟩
    rw [heq, hbrk]
    rfl

end MallocBench.Slab
