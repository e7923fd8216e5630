import MallocBench.Slab.MallocFree

/-!
# Runs of the allocator

A program that uses the allocator, from `mm_init` on: any sequence of calls of `malloc`,
`calloc` and `free`, and any writes of the program into its blocks in between. Along every
such run the invariant of the whole heap holds, every call returns, and the live blocks
are apart from each other and from the memory that the allocator uses itself.
-/

namespace MallocBench.Slab

open Lib

/-- A call of the allocator, or a byte written by the program. -/
inductive HeapOp
  | malloc (size : Nat)
  | calloc (nmemb size : Nat)
  | free (ptr : Nat)
  | write (x v : Nat)

/-- No computation on a request of `size` bytes wraps: rounding up to 16, adding the slab
header, rounding up to whole slabs. -/
def NoWrap (size : Nat) : Prop := (size + 15) / 16 * 16 + 4111 < 2 ^ 64

namespace HeapOp

/-- The calls a correct program makes; `live` are its blocks, with the sizes it asked
for. -/
def Allowed (live : List (Nat × Nat)) : HeapOp → Prop
  | malloc size => NoWrap size
  | calloc nmemb size => NoWrap (nmemb * size)
  | free ptr => ptr = 0 ∨ ∃ b ∈ live, b.1 = ptr
  | write x _ => ∃ b ∈ live, b.1 ≤ x ∧ x < b.1 + b.2

/-- The call; it returns the live blocks afterwards. -/
def exec (live : List (Nat × Nat)) : HeapOp → HeapM (List (Nat × Nat))
  | malloc size => do
    let ptr ← Slab.malloc size
    pure (if ptr = 0 then live else (ptr, size) :: live)
  | calloc nmemb size => do
    let ptr ← Slab.calloc nmemb size
    pure (if ptr = 0 then live else (ptr, nmemb * size) :: live)
  | free ptr => do
    Slab.free ptr
    pure (live.filter (·.1 ≠ ptr))
  | write x v => do
    store8 x v
    pure live

instance (live : List (Nat × Nat)) : (op : HeapOp) → Decidable (op.Allowed live)
  | malloc _ | calloc _ _ => inferInstanceAs (Decidable (_ < _))
  | free _ => inferInstanceAs (Decidable (_ ∨ _))
  | write x _ => inferInstanceAs (Decidable (∃ b ∈ live, b.1 ≤ x ∧ x < b.1 + b.2))

end HeapOp

/-- The runs in which `P` holds of every call and of the heap it is made in. -/
inductive HeapRun (P : Heap → HeapOp → Prop) (s₀ : Heap) (live₀ : List (Nat × Nat)) :
    Heap → List (Nat × Nat) → Prop
  | refl : HeapRun P s₀ live₀ s₀ live₀
  | step {s t : Heap} {live live' : List (Nat × Nat)} {op : HeapOp} :
      HeapRun P s₀ live₀ s live → op.Allowed live → P s op → op.exec live s = .ok (live', t) →
      HeapRun P s₀ live₀ t live'

/-- The heaps that the program can reach, with its live blocks. -/
def HeapReach (s : Heap) (live : List (Nat × Nat)) : Prop :=
  ∃ s₀ t₀, Fresh s₀ ∧ mmInit s₀ = .ok (true, t₀) ∧ HeapRun (fun _ _ => True) t₀ [] s live

/-! ## The invariant along a run -/

/-- The live blocks are the allocated blocks of the heap. -/
structure LiveOk (strict : Prop) (s : Heap) (L : List Region) (live : List (Nat × Nat)) : Prop where
  inv : HeapInv strict s L
  block : ∀ b ∈ live, ∃ e, Used s.mem L b.1 e ∧ b.1 + b.2 ≤ e
  owner : ∀ x e, Used s.mem L x e → ∃ b ∈ live, b.1 = x
  nodup : (live.map Prod.fst).Nodup
  sized : Sized L

/-- What a call must meet for the strict invariant. -/
def FreesClean (s : Heap) (L : List Region) : HeapOp → Prop
  | .free ptr => NoHangingBug s.mem L ptr
  | _ => True

/-- What a call of a program with the blocks `live`, or a byte that it writes, has done. -/
inductive HeapStep (strict : Prop) (s : Heap) (L : List Region) (live : List (Nat × Nat)) :
    List (Nat × Nat) → Heap → Prop
  /-- nothing was asked for, or `NULL` was freed -/
  | idle : HeapStep strict s L live live s
  /-- `calloc` also writes into the new block -/
  | allocated {size n p : Nat} {u : Heap} {m : Nat → Nat} : NoWrap size → 0 < size →
      n = (size + 15) / 16 * 16 → _intMalloc n s = .ok (p, u) → BlockAllocated strict s L n p u →
      (∀ w, w < p ∨ p + size ≤ w → m w = u.mem w) →
      HeapStep strict s L live ((p, size) :: live) { u with mem := m }
  | freed {p : Nat} {t : Heap} : BlockFreed strict s L p t →
      HeapStep strict s L live (live.filter (·.1 ≠ p)) t
  | written {p e : Nat} {m' : Nat → Nat} : Used s.mem L p e →
      (∀ w, w < p ∨ e ≤ w → m' w = s.mem w) → HeapStep strict s L live live { s with mem := m' }

section

variable {s t : Heap} {A B L : List Region} {live live' : List (Nat × Nat)} {strict : Prop}
  {op : HeapOp} {p e x v size nmemb : Nat} {P : Heap → HeapOp → Prop}

theorem liveOk_init (h : Initialised s) : LiveOk strict s [] [] := by
  refine ⟨heapInv_init h, by simp, ?_, List.nodup_nil, fun r hr => by cases hr⟩
  rintro x e ⟨r, hr, -⟩
  cases hr

theorem LiveOk.heap_pos (h : LiveOk strict s L live) : s.heap ≠ 0 := by
  obtain ⟨bins, hslab⟩ := h.inv.slab
  exact Nat.pos_iff_ne_zero.mp hslab.free.lists.pos

theorem alignUp_size (h : NoWrap size) : alignUp size mallocAlign = (size + 15) / 16 * 16 := by
  unfold NoWrap at h
  unfold alignUp
  dsimp only [mallocAlign]
  rw [Nat.mod_eq_of_lt (by omega)]
  omega

/-- A new block becomes live. -/
theorem LiveOk.cons (h : LiveOk strict s L live) (ha : BlockAllocated strict s L size p t)
    {size' : Nat} (hle : size' ≤ size) : ∃ L', LiveOk strict t L' ((p, size') :: live) := by
  obtain ⟨L', e, hinv, hpe, hfresh, hused, hsized⟩ := ha.inv
  refine ⟨L', hinv, fun b hb => ?_, fun x f hu => ?_, ?_, hsized h.sized⟩
  · rcases List.mem_cons.mp hb with rfl | hb
    · exact ⟨e, (hused _ _).mpr (.inr ⟨rfl, rfl⟩), by simp only; omega⟩
    · obtain ⟨f, hu, hle⟩ := h.block b hb
      exact ⟨f, (hused _ _).mpr (.inl hu), hle⟩
  · rcases (hused x f).mp hu with hu | ⟨rfl, rfl⟩
    · obtain ⟨b, hb, rfl⟩ := h.owner x f hu
      exact ⟨b, List.mem_cons_of_mem _ hb, rfl⟩
    · exact ⟨_, List.mem_cons_self, rfl⟩
  · rw [List.map_cons, List.nodup_cons]
    refine ⟨fun hp => ?_, h.nodup⟩
    obtain ⟨b, hb, rfl⟩ := List.mem_map.mp hp
    obtain ⟨f, hu, -⟩ := h.block b hb
    exact hfresh f hu

/-- A block is no longer live. -/
theorem LiveOk.filter (h : LiveOk strict s L live) (hf : BlockFreed strict s L p t) :
    ∃ L', LiveOk strict t L' (live.filter (·.1 ≠ p)) := by
  obtain ⟨L', hinv, ⟨hkeep, hold⟩, hsized⟩ := hf.inv
  refine ⟨L', hinv, fun b hb => ?_, fun x f hu => ?_, ?_, hsized h.sized⟩
  · obtain ⟨hb, hne⟩ := List.mem_filter.mp hb
    obtain ⟨e, hu, hle⟩ := h.block b hb
    obtain ⟨e', he, hu'⟩ := hkeep _ _ hu (by simpa using hne)
    exact ⟨e', hu', by omega⟩
  · obtain ⟨hne, e, hu⟩ := hold x f hu
    obtain ⟨b, hb, rfl⟩ := h.owner x e hu
    exact ⟨b, List.mem_filter.mpr ⟨hb, by simpa using hne⟩, rfl⟩
  · exact h.nodup.sublist (List.Sublist.map _ List.filter_sublist)

/-- Writes into a live block. -/
theorem LiveOk.write {m' : Nat → Nat} (h : LiveOk strict s L live) (hu : Used s.mem L p e)
    (hm : ∀ w, w < p ∨ e ≤ w → m' w = s.mem w) : LiveOk strict { s with mem := m' } L live := by
  obtain ⟨hinv, hused⟩ := h.inv.writeUsed hu hm
  exact ⟨hinv, fun b hb => (h.block b hb).imp fun f hf => ⟨(hused _ _).mpr hf.1, hf.2⟩,
    fun x f hx => h.owner x f ((hused x f).mp hx), h.nodup, h.sized⟩

/-! ## Every call keeps the invariant -/

/-- **Every step keeps the invariant.** -/
theorem HeapStep.liveOk (h : LiveOk strict s L live) (hs : HeapStep strict s L live live' t) :
    t.heap = s.heap ∧ s.heapEnd ≤ t.heapEnd ∧ ∃ L', LiveOk strict t L' live' := by
  cases hs with
  | idle => exact ⟨rfl, le_refl _, L, h⟩
  | @allocated size n p u m' hsize h0 hn hmalloc ha hm =>
    obtain ⟨L', hlive⟩ := h.cons ha (by omega : size ≤ n)
    obtain ⟨e, hu, hpe⟩ := hlive.block _ List.mem_cons_self
    simp only at hpe hu
    exact ⟨ha.heap, ha.heapEnd, L', hlive.write hu fun w hw => hm w (by omega)⟩
  | freed hf => exact ⟨hf.heap, hf.heapEnd.ge, h.filter hf⟩
  | written hu hm => exact ⟨rfl, le_refl _, L, h.write hu hm⟩

theorem heapMalloc_spec (h : LiveOk strict s L live) (hsize : NoWrap size) :
    wp (HeapOp.exec live (.malloc size)) (fun live' t => HeapStep strict s L live live' t ∧
      (0 < size → ∃ p, live' = (p, size) :: live)) s := by
  show wp (malloc size >>= _) _ s
  unfold malloc
  rw [alignUp_size hsize, wp_bind, wp_bind, wp_get, wp_bind, wp_mallocAssert]
  refine ⟨by simpa using h.heap_pos, ?_⟩
  dsimp only
  have hmax := hsize
  unfold NoWrap at hmax
  rw [wp_ite]
  by_cases h0 : (size + 15) / 16 * 16 = 0
  · rw [if_pos h0]
    exact wp_pure.mpr (wp_pure.mpr ⟨.idle, by omega⟩)
  · rw [if_neg h0]
    obtain ⟨p, t, heq, ht⟩ := wp_iff.mp (_intMalloc_spec h.inv (by omega) (by omega) hmax)
    refine wp_iff.mpr ⟨p, t, heq, wp_pure.mpr ?_⟩
    rw [if_neg ht.ne_zero]
    exact ⟨.allocated (m := t.mem) hsize (by omega) rfl heq ht fun _ _ => rfl, fun _ => ⟨p, rfl⟩⟩

theorem heapCalloc_spec (h : LiveOk strict s L live) (hsize : NoWrap (nmemb * size)) :
    wp (HeapOp.exec live (.calloc nmemb size))
      (fun live' t => HeapStep strict s L live live' t) s := by
  show wp (calloc nmemb size >>= _) _ s
  unfold calloc
  have hmod : nmemb * size % 2 ^ 64 = nmemb * size := by
    unfold NoWrap at hsize
    exact Nat.mod_eq_of_lt (by omega)
  rw [hmod, wp_bind, wp_bind, wp_get, wp_bind, wp_mallocAssert]
  refine ⟨by simpa using h.heap_pos, ?_⟩
  dsimp only
  rw [alignUp_size hsize]
  have hmax := hsize
  unfold NoWrap at hmax
  generalize nmemb * size = size at hsize hmax ⊢
  rw [wp_ite]
  by_cases h0 : (size + 15) / 16 * 16 = 0
  · rw [if_pos h0]
    exact wp_pure.mpr (wp_pure.mpr .idle)
  · rw [if_neg h0]
    obtain ⟨p, t, heq, ht⟩ := wp_iff.mp (_intMalloc_spec h.inv (by omega) (by omega) hmax)
    rw [wp_iff, bind_of_ok heq, ← wp_iff]
    -- the new block is an allocated one already when it is zeroed
    obtain ⟨L', e, hinv, hpe, -, hused, -⟩ := ht.inv
    obtain ⟨h₁, h₂, h₃, h₄⟩ := hinv.used_bounds ((hused p e).mpr (.inr ⟨rfl, rfl⟩))
    obtain ⟨bins', hslab'⟩ := hinv.slab
    have hbrk := hslab'.brk
    rw [wp_bind, wp_memsetZero]
    refine ⟨⟨by omega, by omega, by omega⟩, wp_pure.mpr (wp_pure.mpr ?_)⟩
    rw [if_neg ht.ne_zero]
    refine .allocated hsize (by omega) rfl heq ht fun w hw => ?_
    unfold zeroRange
    rw [if_neg (by omega)]

/-- The checks of `free` pass for an allocated block. -/
theorem wp_free {Q : Unit → Heap → Prop} (hinv : HeapInv strict s L) (hu : Used s.mem L p e)
    (h : wp (_intFree p) Q s) : wp (free p) Q s := by
  obtain ⟨bins, hslab⟩ := hinv.slab
  have hpos := hslab.free.lists.pos
  have hbounds := hinv.used_bounds hu
  unfold free
  rw [wp_bind, wp_get, wp_ite, if_neg (by omega), wp_bind, wp_mallocAssert]
  exact ⟨by simpa using Nat.pos_iff_ne_zero.mp hpos, h⟩

theorem heapFree_spec (h : LiveOk strict s L live) (hp : p = 0 ∨ ∃ b ∈ live, b.1 = p)
    (hclean : strict → NoHangingBug s.mem L p) :
    wp (HeapOp.exec live (.free p)) (fun live' t => HeapStep strict s L live live' t ∧
      live' = live.filter (·.1 ≠ p)) s := by
  show wp (free p >>= _) _ s
  rcases hp with rfl | ⟨b, hb, rfl⟩
  · unfold free
    rw [wp_bind, wp_bind, wp_get, wp_ite, if_pos rfl]
    have hkeep : live.filter (·.1 ≠ 0) = live := by
      refine List.filter_eq_self.mpr fun b hb => ?_
      obtain ⟨e, hu, -⟩ := h.block b hb
      have := h.inv.used_bounds hu
      simp only [ne_eq, decide_not, Bool.not_eq_true', decide_eq_false_iff_not]
      omega
    rw [hkeep]
    exact wp_pure.mpr (wp_pure.mpr ⟨.idle, rfl⟩)
  · obtain ⟨e, hu, -⟩ := h.block b hb
    exact wp_call (wp_free h.inv hu (_intFree_spec h.inv hu hclean)) fun _ t ht =>
      wp_pure.mpr ⟨.freed ht, rfl⟩

theorem heapWrite_spec (h : LiveOk strict s L live) (hx : ∃ b ∈ live, b.1 ≤ x ∧ x < b.1 + b.2) :
    wp (HeapOp.exec live (.write x v)) (fun live' t => HeapStep strict s L live live' t) s := by
  obtain ⟨b, hb, h₁, h₂⟩ := hx
  obtain ⟨e, hu, hle⟩ := h.block b hb
  obtain ⟨hge, -, hend, hal⟩ := h.inv.used_bounds hu
  obtain ⟨bins, hslab⟩ := h.inv.slab
  have hbrk := hslab.brk
  have halign := (hslab.tiles.aligned (by have := hslab.free.lists.base; omega)).1
  have hword : x = x / 8 * 8 + x % 8 := by omega
  show wp (store8 x v >>= _) _ s
  rw [wp_bind, hword, wp_storeField (by omega) (by omega)]
  refine ⟨⟨by omega, by omega, by omega⟩, wp_pure.mpr (.written hu fun w hw => ?_)⟩
  exact Function.update_of_ne (by omega) _ _

/-- **Every call returns, and does what it should.** -/
theorem heapOp_step (h : LiveOk strict s L live) (hop : op.Allowed live)
    (hclean : strict → FreesClean s L op) :
    wp (op.exec live) (fun live' t => HeapStep strict s L live live' t) s := by
  cases op with
  | malloc size => exact wp_mono (heapMalloc_spec h hop) fun _ _ ht => ht.1
  | calloc nmemb size => exact heapCalloc_spec h hop
  | free p => exact wp_mono (heapFree_spec h hop hclean) fun _ _ ht => ht.1
  | write x v => exact heapWrite_spec h hop

theorem heapOp_spec (h : LiveOk strict s L live) (hop : op.Allowed live)
    (hclean : strict → FreesClean s L op) :
    wp (op.exec live) (fun live' t => t.heap = s.heap ∧ s.heapEnd ≤ t.heapEnd ∧
      ∃ L', LiveOk strict t L' live') s :=
  wp_mono (heapOp_step h hop hclean) fun _ _ ht => ht.liveOk h

/-- The invariant holds along every run. -/
theorem HeapRun.liveOk {s₀ : Heap} {live₀ : List (Nat × Nat)} (h : HeapRun P s₀ live₀ s live)
    (hP : ∀ s L op, strict → P s op → FreesClean s L op) {L₀ : List Region}
    (h₀ : LiveOk strict s₀ L₀ live₀) :
    s.heap = s₀.heap ∧ s₀.heapEnd ≤ s.heapEnd ∧ ∃ L, LiveOk strict s L live := by
  induction h with
  | refl => exact ⟨rfl, le_refl _, L₀, h₀⟩
  | step _ hop hp heq ih =>
    obtain ⟨hheap, hle, L, hL⟩ := ih
    obtain ⟨hheap', hle', hL'⟩ := wp_of_eq (heapOp_spec hL hop fun hst => hP _ L _ hst hp) heq
    exact ⟨hheap'.trans hheap, hle.trans hle', hL'⟩

theorem HeapReach.liveOk (h : HeapReach s live) : ∃ L, LiveOk False s L live := by
  obtain ⟨s₀, t₀, hfresh, heq, hrun⟩ := h
  obtain ⟨-, -, hinit⟩ := wp_of_eq (mmInit_spec hfresh) heq
  exact (hrun.liveOk (fun _ _ _ => False.elim) (liveOk_init hinit)).2.2

/-- A heap in which one block has been allocated. -/
theorem heapReach_malloc (h0 : 0 < size) (hsize : NoWrap size) : ∃ s p, HeapReach s [(p, size)] := by
  obtain ⟨_, t, heq, rfl, -, hinit⟩ := wp_iff.mp (mmInit_spec fresh_freshHeap)
  obtain ⟨live', u, hexec, -, hlive⟩ := wp_iff.mp
    (heapMalloc_spec (liveOk_init hinit : LiveOk False _ _ _) hsize)
  obtain ⟨p, rfl⟩ := hlive h0
  exact ⟨u, p, _, t, fresh_freshHeap, heq, .step .refl (show HeapOp.Allowed _ (.malloc size) from hsize) trivial hexec⟩

/-- The heap after a run on a fresh process is reached. -/
theorem heapReach_of_runCheck (ops : List HeapOp) (f : List (Nat × Nat) → Heap → Bool)
    (h : replayCheck (fun _ live op => op.Allowed live) HeapOp.exec ops [] f = true) :
    ∃ s live, HeapReach s live ∧ f live s = true := by
  refine exists_of_replayCheck (P := HeapReach) _ _
    (fun t hinit => ⟨_, t, fresh_freshHeap, hinit, .refl⟩) ?_ h
  rintro s live op live' t ⟨_, _, hfresh, hinit, hrun⟩ hop hexec
  exact ⟨_, _, hfresh, hinit, hrun.step hop trivial hexec⟩

/-! ## Live blocks are safe -/

/-- **Safety**: in every heap that is reached, every allowed call returns, so that no
assertion fires, and the live blocks are aligned, inside the heap, apart from each other
and from the allocator's own memory. -/
theorem heapReach_safe (h : HeapReach s live) :
    (∀ op : HeapOp, op.Allowed live → ∃ live' t, op.exec live s = .ok (live', t)) ∧
      (∀ b ∈ live, b.1 % 16 = 0 ∧ heapStart s.heap ≤ b.1 ∧ b.1 + b.2 ≤ s.heapEnd) ∧
      live.Pairwise (fun b c => b.1 + b.2 ≤ c.1 ∨ c.1 + c.2 ≤ b.1) ∧
      ∃ L, HeapInv False s L ∧
        ∀ b ∈ live, ∀ x, b.1 ≤ x → x < b.1 + b.2 → ¬ MetaByte s L x := by
  obtain ⟨L, hL⟩ := h.liveOk
  refine ⟨fun op hop => ?_, fun b hb => ?_, ?_, L, hL.inv, fun b hb x h₁ h₂ => ?_⟩
  · obtain ⟨live', t, heq, -⟩ := wp_iff.mp (heapOp_spec hL hop False.elim)
    exact ⟨live', t, heq⟩
  · obtain ⟨e, hu, hle⟩ := hL.block b hb
    obtain ⟨hge, -, hend, hal⟩ := hL.inv.used_bounds hu
    refine ⟨hal, ?_, by omega⟩
    unfold heapStart
    simp only [slabSize]
    omega
  · refine (List.pairwise_map.mp hL.nodup).imp_of_mem fun {b c} hb hc hne => ?_
    obtain ⟨e, hu, hle⟩ := hL.block b hb
    obtain ⟨f, hu', hle'⟩ := hL.block c hc
    rcases hL.inv.used_disjoint hu hu' with ⟨heq, -⟩ | hd | hd
    · exact absurd heq hne
    · exact .inl (by omega)
    · exact .inr (by omega)
  · obtain ⟨e, hu, hle⟩ := hL.block b hb
    exact hL.inv.not_metaByte hu h₁ (by omega)

/-- A run of one allocation. -/
theorem heapReach_safe_malloc : ∃ s p, HeapReach s [(p, 100)] ∧
    (∀ op : HeapOp, op.Allowed [(p, 100)] → ∃ live' t, op.exec [(p, 100)] s = .ok (live', t)) ∧
      (∀ b ∈ [(p, 100)], b.1 % 16 = 0 ∧ heapStart s.heap ≤ b.1 ∧ b.1 + b.2 ≤ s.heapEnd) ∧
      [(p, 100)].Pairwise (fun b c => b.1 + b.2 ≤ c.1 ∨ c.1 + c.2 ≤ b.1) ∧
      ∃ L, HeapInv False s L ∧
        ∀ b ∈ [(p, 100)], ∀ x, b.1 ≤ x → x < b.1 + b.2 → ¬ MetaByte s L x := by
  obtain ⟨t, p, hreach⟩ := heapReach_malloc (by decide : 0 < 100) (by unfold NoWrap; decide)
  exact ⟨t, p, hreach, heapReach_safe hreach⟩

/-! ## All blocks freed -/

/-- Every allocated region has an allocated block. -/
theorem HeapInv.used_of_alloc (h : HeapInv strict s L) {r : Region} (hr : r ∈ L)
    (hk : r.kind ≠ .free) : ∃ x e, Used s.mem L x e := by
  have hok := h.regions r hr
  unfold RegionOk at hok
  cases hkind : r.kind with
  | free => exact absurd hkind hk
  | packed =>
    rw [hkind] at hok
    have hpos : 0 < usedSlots (packedSize s.mem r.addr) (freeBit s.mem r.addr) := by
      rw [← hok.cnt_eq]
      exact hok.pos
    obtain ⟨j, hj⟩ := Finset.card_pos.mp hpos
    obtain ⟨hj, hf⟩ := Finset.mem_filter.mp hj
    exact ⟨_, _, r, hr, (regionUsed_packed hkind).mpr
      (packedUsed_iff.mpr ⟨j, Finset.mem_range.mp hj, hf, rfl, rfl⟩)⟩
  | large =>
    rw [hkind] at hok
    obtain ⟨j, hj, hal⟩ := BlocksOk.used hok
    refine ⟨r.addr + offAt s.mem r.addr j,
      r.addr + blockEnd (offAt s.mem r.addr) r.n (cntAt s.mem r.addr) j, r, hr, ?_⟩
    unfold RegionUsed
    rw [hkind]
    exact ⟨_, _, ⟨j, hj, hal, rfl, rfl⟩, rfl, rfl⟩
  | raw =>
    rw [hkind] at hok
    exact hok.elim

/-- Without allocated regions, the heap is empty or one free region. -/
theorem Tiles.all_free {m : Nat → Nat} {a e : Nat} {q : Bool} (h : Tiles m a true L e q)
    (hfree : ∀ r ∈ L, r.kind = .free) :
    (L = [] ∧ a = e) ∨ ∃ n, 0 < n ∧ L = [⟨a, n, .free⟩] ∧ a + 4096 * n = e ∧ q = false := by
  match L, h with
  | [], h => exact .inl ⟨rfl, h.1⟩
  | [r], ⟨haddr, hok, _, hend, hq⟩ =>
    have hk := hfree r (by simp)
    refine .inr ⟨r.n, hok.pos, ?_, ?_, ?_⟩
    · rw [← haddr, ← hk]
    · rw [← haddr]
      exact hend
    · rw [← hq]
      exact Region.isAlloc_eq_false.mpr hk
  | r :: r' :: L, ⟨_, _, _, _, _, hc, _⟩ =>
    rw [Region.isAlloc_eq_false.mpr (hfree r (by simp)),
      Region.isAlloc_eq_false.mpr (hfree r' (by simp))] at hc
    cases hc

/-- **Nothing is leaked**: when the last live block has been freed, the heap is one free
region, and all bins of packed slabs and medium blocks are empty. -/
theorem heapRun_all_freed {live₀ : List (Nat × Nat)} (h : HeapReach s live₀) (h₀ : live₀ ≠ [])
    (hrun : HeapRun (fun _ _ => True) s live₀ t []) :
    ∃ n bins, 0 < n ∧ SlabInv t [⟨heapStart t.heap, n, .free⟩] bins ∧
      heapStart t.heap + 4096 * n = t.heapEnd ∧ t.flags.getLsbD 0 = false ∧
      (∀ i, i < 23 → t.mem (smallBin t.heap i) = 0) ∧
      ∀ i, i < 224 → t.mem (mediumBin t.heap i) = 0 := by
  obtain ⟨L₀, hL₀⟩ := h.liveOk
  obtain ⟨hheap, hend, L, hL⟩ := hrun.liveOk (fun _ _ _ => False.elim) hL₀
  -- the heap had a block
  obtain ⟨b, hb⟩ := List.exists_mem_of_ne_nil _ h₀
  obtain ⟨e, hu, -⟩ := hL₀.block b hb
  have hbounds := hL₀.inv.used_bounds hu
  have hnone : ∀ x e, ¬ Used t.mem L x e := by
    intro x e hu
    obtain ⟨b, hb, -⟩ := hL.owner x e hu
    cases hb
  have hfree : ∀ r ∈ L, r.kind = .free := by
    intro r hr
    by_contra hk
    obtain ⟨x, e, hu⟩ := hL.inv.used_of_alloc hr hk
    exact hnone x e hu
  obtain ⟨bins, hslab⟩ := hL.inv.slab
  obtain ⟨mb, hmed⟩ := hL.inv.medium
  obtain ⟨sb, hsmall⟩ := hL.inv.small
  have hno : ∀ r ∈ L, ∀ k : SlabKind, k ≠ .free → r.kind ≠ k := fun r hr k hk hrk =>
    hk (hrk ▸ hfree r hr)
  rcases hslab.tiles.all_free hfree with ⟨-, hempty⟩ | ⟨n, hn, rfl, hstop, hq⟩
  · omega
  · refine ⟨n, bins, hn, hslab, hstop, hq, fun i hi => ?_, fun i hi => ?_⟩
    · rcases hsmall.head hi with hnil | ⟨-, r, hr, hk, -⟩
      · exact hnil.1
      · exact absurd hk (hno r hr .packed (by decide))
    · rcases hmed.head hi with hnil | ⟨-, e, ⟨r, hr, hk, -⟩, -⟩
      · exact hnil.1
      · exact absurd hk (hno r hr .large (by decide))

/-- A run of one allocation and its free. -/
theorem heapRun_all_freed_one : ∃ s t p, HeapReach s [(p, 100)] ∧ [(p, 100)] ≠ [] ∧
    HeapRun (fun _ _ => True) s [(p, 100)] t [] ∧
    ∃ n bins, 0 < n ∧ SlabInv t [⟨heapStart t.heap, n, .free⟩] bins ∧
      heapStart t.heap + 4096 * n = t.heapEnd ∧ t.flags.getLsbD 0 = false ∧
      (∀ i, i < 23 → t.mem (smallBin t.heap i) = 0) ∧
      ∀ i, i < 224 → t.mem (mediumBin t.heap i) = 0 := by
  obtain ⟨s, p, hreach⟩ := heapReach_malloc (by decide : 0 < 100) (by unfold NoWrap; decide)
  obtain ⟨L, hL⟩ := hreach.liveOk
  have hop : (HeapOp.free p).Allowed [(p, 100)] := .inr ⟨_, List.mem_cons_self, rfl⟩
  obtain ⟨live', t, heq, -, hlive⟩ := wp_iff.mp (heapFree_spec hL hop False.elim)
  have hnil : live' = [] := by
    rw [hlive]
    simp
  subst hnil
  have hrun := HeapRun.step (P := fun _ _ => True) .refl hop trivial heq
  exact ⟨s, t, p, hreach, by simp, hrun, heapRun_all_freed hreach (by simp) hrun⟩

/-! ## Where medium blocks come from -/

/-- **Best fit**: the search for a medium block ends, finds one whenever there is one that is
large enough, takes a smallest such block, and splits off the rest iff the rest is a block.
No skiplist bit of a non-empty bin is lost. -/
theorem _intFindMediumBlock_best_fit (hinv : HeapInv strict s L) (h16 : size % 16 = 0)
    (h512 : 512 ≤ size) (hmax : size ≤ 4080) :
    ∃ res t, _intFindMediumBlock size s = .ok (res, t) ∧
      (res = none ↔ ¬ ∃ x e, FreeBlock s.mem L x e ∧ size ≤ e - x) ∧
      (res = none → ∃ sk, t = { s with medSkiplist := sk }) ∧
      (∀ x, res = some x → ∃ e e', FreeBlock s.mem L x e ∧ size ≤ e - x ∧
        (∀ y f, FreeBlock s.mem L y f → size ≤ f - y → e - x ≤ f - y) ∧
        (if 512 ≤ e - x - size then e' = x + size else e ≤ e') ∧
        (∀ y f, Used t.mem L y f ↔ Used s.mem L y f ∨ (y = x ∧ f = e')) ∧
        ∀ y f, FreeBlock t.mem L y f ↔ (FreeBlock s.mem L y f ∧ y ≠ x) ∨
          (512 ≤ e - x - size ∧ y = x + size ∧ f = e)) ∧
      HeapInv strict t L ∧ ∀ b, b < 224 → t.mem (mediumBin t.heap b) ≠ 0 →
        (t.medSkiplist (b / 32)).getLsbD (b % 32) = true := by
  obtain ⟨res, t, heq, hpost⟩ := wp_iff.mp (_intFindMediumBlock_spec hinv h16 h512 hmax)
  refine ⟨res, t, heq, ?_⟩
  cases res with
  | none =>
    obtain ⟨hnone, ht, hsk⟩ := hpost
    refine ⟨iff_of_true rfl ?_, fun _ => hsk, by simp, ht, fun b => ht.medSkiplist_bit⟩
    rintro ⟨x, e, hx, hle⟩
    have := hnone x e hx
    omega
  | some x =>
    obtain ⟨e, hx, hle, hmin, ht⟩ := hpost
    obtain ⟨e', hused, hsize⟩ := ht.used
    refine ⟨iff_of_false (by simp) fun hno => hno ⟨x, e, hx, hle⟩, by simp, ?_, ht.inv,
      fun b => ht.inv.medSkiplist_bit⟩
    rintro _ ⟨rfl⟩
    exact ⟨e, e', hx, hle, hmin, hsize, hused, ht.free⟩

/-- Free blocks of 1504 and of 1104 bytes: 560 bytes are taken of the second, and the rest of it is
a block. -/
theorem _intFindMediumBlock_best_fit_split : ∃ s L t, HeapInv False s L ∧
    (∀ x e, FreeBlock s.mem L x e ↔ (x = 69648 ∧ e = 71152) ∨ (x = 71664 ∧ e = 72768)) ∧
    _intFindMediumBlock 560 s = .ok (some 71664, t) ∧ HeapInv False t L ∧
    (∀ x e, Used t.mem L x e ↔ Used s.mem L x e ∨ (x = 71664 ∧ e = 72224)) ∧
    ∀ x e, FreeBlock t.mem L x e ↔ (x = 69648 ∧ e = 71152) ∨ (x = 72224 ∧ e = 72768) := by
  obtain ⟨s, live, hreach, hcheck⟩ := heapReach_of_runCheck
    [.malloc 1504, .malloc 512, .malloc 1104, .malloc 512, .free 69648, .free 71664]
    (fun _ s => decide (cntAt s.mem 69632 = 4 ∧
      [0, 1, 2, 3].map (fun i => (offAt s.mem 69632 i, alAt s.mem 69632 i)) =
        [(16, false), (1520, true), (2032, false), (3136, true)] ∧
      Tiles s.mem (s.heap + 4096) true [⟨69632, 1, .large⟩] s.heapEnd (s.flags.getLsbD 0)))
    (by decide +kernel)
  obtain ⟨hcnt, hblocks, htiles⟩ := of_decide_eq_true hcheck
  simp only [List.map_cons, List.map_nil, List.cons.injEq, Prod.mk.injEq, and_true] at hblocks
  obtain ⟨⟨hoff₀, hal₀⟩, ⟨hoff₁, hal₁⟩, ⟨hoff₂, hal₂⟩, hoff₃, hal₃⟩ := hblocks
  obtain ⟨L, hL⟩ := hreach.liveOk
  obtain rfl := hL.inv.eq_of_tiles htiles (by decide)
  have hfree : ∀ x e, FreeBlock s.mem [⟨69632, 1, .large⟩] x e ↔
      (x = 69648 ∧ e = 71152) ∨ (x = 71664 ∧ e = 72768) := by
    intro x e
    constructor
    · rintro ⟨r, hr, -, _, _, ⟨i, hi, hal, rfl, rfl⟩, rfl, rfl⟩
      obtain rfl := List.mem_singleton.mp hr
      rw [hcnt] at hi
      obtain rfl | rfl | rfl | rfl : i = 0 ∨ i = 1 ∨ i = 2 ∨ i = 3 := by omega
      · exact .inl ⟨by rw [hoff₀], by rw [hoff₁]⟩
      · rw [hal₁] at hal
        cases hal
      · exact .inr ⟨by rw [hoff₂], by rw [hoff₃]⟩
      · rw [hal₃] at hal
        cases hal
    · rintro (⟨rfl, rfl⟩ | ⟨rfl, rfl⟩)
      · exact ⟨_, List.mem_singleton_self _, rfl, 16, 1520,
          ⟨0, by rw [hcnt]; decide, hal₀, hoff₀, hoff₁⟩, rfl, rfl⟩
      · exact ⟨_, List.mem_singleton_self _, rfl, 2032, 3136,
          ⟨2, by rw [hcnt]; decide, hal₂, hoff₂, hoff₃⟩, rfl, rfl⟩
  obtain ⟨res, t, heq, hnone, -, hsome, hinv, -⟩ :=
    _intFindMediumBlock_best_fit hL.inv (by decide : 560 % 16 = 0) (by decide) (by decide)
  cases res with
  | none => exact absurd ⟨71664, 72768, (hfree _ _).mpr (by simp), by decide⟩ (hnone.mp rfl)
  | some x =>
    obtain ⟨e, e', hx, -, hbest, htaken⟩ := hsome x rfl
    have hle := hbest 71664 72768 ((hfree _ _).mpr (by simp)) (by decide)
    obtain ⟨rfl, rfl⟩ : x = 71664 ∧ e = 72768 := by
      rcases (hfree x e).mp hx with ⟨rfl, rfl⟩ | h
      · omega
      · exact h
    obtain ⟨hsize, hused, hfree'⟩ := htaken
    obtain rfl : e' = 72224 := hsize
    refine ⟨s, _, t, hL.inv, hfree, heq, hinv, hused, fun y f => (hfree' y f).trans ?_⟩
    rw [hfree]
    omega

end

end MallocBench.Slab
