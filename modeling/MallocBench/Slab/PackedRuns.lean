import MallocBench.Slab.MallocFree

/-!
# Runs of a packed slab

A packed slab from its initialisation on: blocks are allocated while it has free ones, and
allocated blocks are freed in any order, until the last one is freed and the slab is given
back.

- `PackedRun y size s₀`: the runs of the slab at `y`, with its allocated blocks;
- `SlabUsed`: the header says what the allocated blocks are;
- `packedRun_inv`: what holds in every state of a run, and what every next call does.
-/

namespace MallocBench.Slab

open Lib

/-- The dispatch of `__int_find_tiny_block` over the block sizes. -/
def packedAllocBlock (size s : Nat) : HeapM Nat :=
  if size = 16 then _packedAlloc16 s
  else if size = 32 then _packedAlloc32 s
  else if size = 48 then _packedAlloc48 s
  else _packedAlloc s size

/-- An operation on the slab. -/
inductive PackedOp
  | alloc
  | free (p : Nat)

namespace PackedOp

/-- Blocks are allocated from slabs that are in their bin, so not from full ones, and only
allocated blocks are freed. -/
def Allowed (size : Nat) (used : List Nat) : PackedOp → Prop
  | alloc => used ≠ [] ∧ used.length < packedBlocks size
  | free p => p ∈ used

instance (size : Nat) (used : List Nat) : DecidablePred (Allowed size used)
  | alloc => inferInstanceAs (Decidable (_ ∧ _))
  | free _ => inferInstanceAs (Decidable (_ ∈ _))

/-- The call; it returns the allocated blocks afterwards. -/
def exec (y size : Nat) (used : List Nat) : PackedOp → HeapM (List Nat)
  | alloc => do
    let p ← packedAllocBlock size y
    pure (p :: used)
  | free p => do
    _intTinyBlockFree y p
    pure (used.erase p)

end PackedOp

/-- The runs of the slab at `y`. -/
inductive PackedRun (y size : Nat) (s₀ : Heap) : Heap → List Nat → Prop
  | init {t : Heap} {p : Nat} : _intSlabInitPackedAndAlloc y size s₀ = .ok (p, t) →
      PackedRun y size s₀ t [p]
  | step {s t : Heap} {used used' : List Nat} {op : PackedOp} : PackedRun y size s₀ s used →
      op.Allowed size used → op.exec y size used s = .ok (used', t) → PackedRun y size s₀ t used'

/-- The `l`-th level-2 bitvector of the slab at `a`. -/
def lvl2Bitv (m : Nat → Nat) (a l : Nat) : Nat := fieldOf (m (a + 24 + 8 * (l / 4))) (2 * (l % 4)) 2

/-- The allocated blocks of the slab at `y` are `used`. -/
structure SlabUsed (strict : Prop) (A : List Region) (y : Nat) (B : List Region) (size : Nat)
    (s : Heap) (used : List Nat) : Prop where
  inv : HeapInv strict s (A ++ ⟨y, 1, .packed⟩ :: B)
  size_eq : packedSize s.mem y = size
  block : ∀ p, p ∈ used ↔
    ∃ j, j < packedBlocks size ∧ freeBit s.mem y j = false ∧ p = packedBlock y size j
  nodup : used.Nodup

section

variable {s s₀ t : Heap} {A B L : List Region} {strict : Prop} {size y p j : Nat}
  {used : List Nat} {m : Nat → Nat}

/-- A level-1 bit summarises 16 blocks. -/
theorem lvl2Bitv_ne_zero {l : Nat} (hl : l < 16) :
    lvl2Bitv m y l ≠ 0 ↔ ∃ i, i < 16 ∧ freeBit m y (16 * l + i) = true := by
  constructor
  · intro hne
    obtain ⟨i, hi⟩ := Nat.exists_testBit_of_ne_zero hne
    unfold lvl2Bitv at hi
    rw [testBit_lane hl, Bool.and_eq_true, decide_eq_true_eq] at hi
    exact ⟨i, hi⟩
  · rintro ⟨i, hi, hf⟩ h0
    have hbit : (lvl2Bitv m y l).testBit i = true := by
      unfold lvl2Bitv
      rw [testBit_lane hl, hf, decide_eq_true hi]
      rfl
    rw [h0, Nat.zero_testBit] at hbit
    cases hbit

namespace SlabUsed

theorem size_mem (h : SlabUsed strict A y B size s used) : size ∈ packedSizes := by
  have hok := (h.inv.packed_facts (r := ⟨y, 1, .packed⟩) (by simp) rfl).1.size_mem
  rwa [h.size_eq] at hok

theorem data (h : SlabUsed strict A y B size s used) :
    PackedData size (freeBit s.mem y) (fieldOf (s.mem y) 2 2) (fieldOf (s.mem y) 4 2) := by
  have hok := (h.inv.packed_facts (r := ⟨y, 1, .packed⟩) (by simp) rfl).1
  unfold PackedOk at hok
  rwa [h.size_eq] at hok

/-- `alloc_cnt` counts the allocated blocks. -/
theorem cnt_eq (h : SlabUsed strict A y B size s used) : fieldOf (s.mem y) 2 2 = used.length := by
  have hpos := (packedSizes_facts h.size_mem).1
  have himage : used.toFinset = Finset.image (packedBlock y size)
      ((Finset.range (packedBlocks size)).filter fun j => freeBit s.mem y j = false) := by
    ext p
    rw [List.mem_toFinset, h.block, Finset.mem_image]
    constructor
    · rintro ⟨j, hj, hf, rfl⟩
      exact ⟨j, Finset.mem_filter.mpr ⟨Finset.mem_range.mpr hj, hf⟩, rfl⟩
    · rintro ⟨j, hj, rfl⟩
      obtain ⟨hj, hf⟩ := Finset.mem_filter.mp hj
      exact ⟨j, Finset.mem_range.mp hj, hf, rfl⟩
  rw [h.data.cnt_eq, ← List.toFinset_card_of_nodup h.nodup, himage,
    Finset.card_image_of_injective _ fun i j => packedBlock_inj (by omega)]
  rfl

/-- There is a free block iff not all are allocated. -/
theorem hasFree_iff (h : SlabUsed strict A y B size s used) :
    HasFree size (freeBit s.mem y) ↔ used.length < packedBlocks size := by
  rw [← h.cnt_eq, h.data.cnt_eq]
  unfold usedSlots
  constructor
  · rintro ⟨j, hj, hf⟩
    have hlt := Finset.card_lt_card (s := (Finset.range (packedBlocks size)).filter
      fun j => freeBit s.mem y j = false) (t := Finset.range (packedBlocks size)) ?_
    · rwa [Finset.card_range] at hlt
    · refine Finset.filter_ssubset.mpr ⟨j, Finset.mem_range.mpr hj, ?_⟩
      rw [hf]
      decide
  · intro hlt
    by_contra hno
    have hall : (Finset.range (packedBlocks size)).filter (fun j => freeBit s.mem y j = false) =
        Finset.range (packedBlocks size) := by
      refine Finset.filter_true_of_mem fun j hj => ?_
      by_contra hf
      exact hno ⟨j, Finset.mem_range.mp hj, by simpa using hf⟩
    rw [hall, Finset.card_range] at hlt
    exact lt_irrefl _ hlt

/-- The slab is in its bin iff it has a free block. -/
theorem linked_iff (h : SlabUsed strict A y B size s used) :
    ∃ sb, SmallLists s (PackedFree s.mem (A ++ ⟨y, 1, .packed⟩ :: B)) sb ∧
      (y ∈ sb (packedBinIdx size) ↔ HasFree size (freeBit s.mem y)) := by
  obtain ⟨sb, hsmall⟩ := h.inv.small
  have hidx := (packedSizes_facts h.size_mem).2.2.2.1
  refine ⟨sb, hsmall, (hsmall.mem_bins _ _ hidx).trans ?_⟩
  constructor
  · rintro ⟨-, -, -, -, hfree, -⟩
    rwa [h.size_eq] at hfree
  · intro hfree
    exact ⟨⟨y, 1, .packed⟩, by simp, rfl, rfl, by rw [h.size_eq]; exact hfree, by rw [h.size_eq]⟩

/-- Allocating takes the first free block. -/
theorem alloc (h : SlabUsed strict A y B size s used) (hlt : used.length < packedBlocks size) :
    wp (packedAllocBlock size y) (fun p t => ∃ j, FirstFree size (freeBit s.mem y) j ∧
      p = packedBlock y size j ∧ p ∉ used ∧ SlabUsed strict A y B size t (p :: used)) s := by
  have hpos := (packedSizes_facts h.size_mem).1
  refine wp_mono (packedAlloc_spec (r := ⟨y, 1, .packed⟩) h.inv rfl h.size_eq
    (h.hasFree_iff.mpr hlt)) fun p t ht => ?_
  obtain ⟨j, hfirst, rfl, htaken⟩ := ht
  have hfresh : packedBlock y size j ∉ used := by
    intro hp
    obtain ⟨i, -, hf, heq⟩ := (h.block _).mp hp
    obtain rfl := packedBlock_inj (by omega) heq
    rw [hfirst.free] at hf
    cases hf
  have hsize := packedSize_congr htaken.bit.low
  refine ⟨j, hfirst, rfl, hfresh, htaken.repacked.inv, hsize.trans h.size_eq, fun p => ?_,
    List.nodup_cons.mpr ⟨hfresh, h.nodup⟩⟩
  rw [List.mem_cons, h.block, htaken.bit.free]
  constructor
  · rintro (rfl | ⟨i, hi, hf, rfl⟩)
    · exact ⟨j, hfirst.lt, Function.update_self .., rfl⟩
    · refine ⟨i, hi, ?_, rfl⟩
      by_cases hij : i = j
      · rw [hij, Function.update_self]
      · rwa [Function.update_of_ne hij]
  · rintro ⟨i, hi, hf, rfl⟩
    by_cases hij : i = j
    · exact .inl (by rw [hij])
    · rw [Function.update_of_ne hij] at hf
      exact .inr ⟨i, hi, hf, rfl⟩

/-- Freeing gives the slab back iff it was the last block. -/
theorem free (h : SlabUsed strict A y B size s used) (hp : p ∈ used) :
    wp (_intTinyBlockFree y p) (fun _ t =>
      (1 < used.length → SlabUsed strict A y B size t (used.erase p)) ∧
      (used.length = 1 → Released strict s A ⟨y, 1, .packed⟩ B t)) s := by
  have hpos := (packedSizes_facts h.size_mem).1
  obtain ⟨j, hj, hf, rfl⟩ := (h.block p).mp hp
  refine wp_mono (_intTinyBlockFree_spec (r := ⟨y, 1, .packed⟩) h.inv rfl h.size_eq hj hf)
    fun _ t ht => ⟨fun hlen => ?_, fun hlen => ht.gone (h.cnt_eq.trans hlen)⟩
  obtain ⟨hre, hbit⟩ := ht.kept (h.cnt_eq ▸ hlen)
  have hsize := packedSize_congr hbit.low
  refine ⟨hre.inv, hsize.trans h.size_eq, fun p => ?_, h.nodup.erase _⟩
  rw [h.nodup.mem_erase_iff, h.block, hbit.free]
  constructor
  · rintro ⟨hne, i, hi, hf, rfl⟩
    refine ⟨i, hi, ?_, rfl⟩
    rwa [Function.update_of_ne fun hij => hne (by rw [hij])]
  · rintro ⟨i, hi, hf, rfl⟩
    by_cases hij : i = j
    · rw [hij, Function.update_self] at hf
      cases hf
    · rw [Function.update_of_ne hij] at hf
      exact ⟨fun heq => hij (packedBlock_inj (by omega) heq), i, hi, hf, rfl⟩

end SlabUsed

/-- A new slab has one allocated block, its first. -/
theorem PackedInit.slabUsed (h : PackedInit strict s A y B size t) (hsize : size ∈ packedSizes) :
    SlabUsed strict A y B size t [packedBlock y size 0] := by
  obtain ⟨-, -, -, -, hblocks, hbits, -⟩ := packedSizes_facts hsize
  refine ⟨h.inv, h.size_eq, fun p => ?_, List.nodup_singleton _⟩
  rw [List.mem_singleton]
  constructor
  · rintro rfl
    refine ⟨0, by omega, ?_, rfl⟩
    rw [h.free 0 (by omega)]
    rfl
  · rintro ⟨j, hj, hf, rfl⟩
    rw [h.free j (by omega)] at hf
    have hj0 : j = 0 := by
      by_contra hne
      unfold newFree at hf
      simp at hf
      omega
    rw [hj0]

/-! ## Runs -/

/-- The header says what the allocated blocks are, in every state before the slab is given
back. -/
theorem PackedRun.slabUsed (hrun : PackedRun y size s₀ t used) (hsize : size ∈ packedSizes)
    (har : Around strict s₀ A ⟨y, 1, .raw⟩ B)
    (hmed : ∃ mb, MediumLists s₀ (FreeBlock s₀.mem (A ++ B)) mb) (hne : used ≠ []) :
    SlabUsed strict A y B size t used := by
  induction hrun with
  | init heq =>
    obtain ⟨mb, hmed⟩ := hmed
    obtain ⟨rfl, hinit⟩ := wp_of_eq (_intSlabInitPackedAndAlloc_spec har hmed hsize) heq
    exact hinit.slabUsed hsize
  | @step s t used used' op _ hop heq ih =>
    cases op with
    | alloc =>
      have h := ih hop.1
      refine wp_of_eq (Q := fun used' t => SlabUsed strict A y B size t used') ?_ heq
      refine wp_call (h.alloc hop.2) fun p t ht => wp_pure.mpr ?_
      obtain ⟨-, -, -, -, ht⟩ := ht
      exact ht
    | free p =>
      have h := ih (List.ne_nil_of_mem hop)
      refine wp_of_eq (Q := fun used' t => used' ≠ [] → SlabUsed strict A y B size t used') ?_ heq
        hne
      refine wp_call (h.free hop) fun _ t ht => wp_pure.mpr fun hne' => ht.1 ?_
      have := List.length_erase_of_mem hop
      have := List.length_pos_iff.mpr hne'
      omega

/-- **A packed slab is a set of free blocks**: in every state of a run, the header counts the
allocated blocks, the level-1 bits are right and the slab is in its bin iff it has a free
block. The next allocation returns the lowest free block. Freeing a block keeps the slab unless it
was the last one: then the slab leaves its bin and is handed to `__int_free_slab`. -/
theorem packedRun_inv (hinv : HeapInv strict s L) (hsize : size ∈ packedSizes)
    (halloc : _intAllocSlab 1 s = .ok (y, s₀)) (hrun : PackedRun y size s₀ t used)
    (hne : used ≠ []) :
    ∃ A B, HeapInv strict t (A ++ ⟨y, 1, .packed⟩ :: B) ∧ used.Nodup ∧
      (∀ p, p ∈ used ↔
        ∃ j, j < packedBlocks size ∧ freeBit t.mem y j = false ∧ p = packedBlock y size j) ∧
      fieldOf (t.mem y) 2 2 = used.length ∧
      (size ≤ 48 → ∀ l, 16 * l < packedBits size →
        ((fieldOf (t.mem y) 4 2).testBit l = true ↔ lvl2Bitv t.mem y l ≠ 0)) ∧
      (∃ sb, SmallLists t (PackedFree t.mem (A ++ ⟨y, 1, .packed⟩ :: B)) sb ∧
        (y ∈ sb (packedBinIdx size) ↔ HasFree size (freeBit t.mem y))) ∧
      (used.length < packedBlocks size → ∃ j u, packedAllocBlock size y t =
        .ok (packedBlock y size j, u) ∧ FirstFree size (freeBit t.mem y) j ∧
        packedBlock y size j ∉ used ∧ packedBlock y size j + size ≤ y + 4096) ∧
      ∀ p ∈ used, ∃ u, _intTinyBlockFree y p t = .ok ((), u) ∧
        (1 < used.length → HeapInv strict u (A ++ ⟨y, 1, .packed⟩ :: B)) ∧
        (used.length = 1 → Released strict t A ⟨y, 1, .packed⟩ B u) := by
  obtain ⟨bins, hslab⟩ := hinv.slab
  obtain ⟨A, B, har, hmed, -⟩ := hinv.allocated
    (wp_of_eq (_intAllocSlab_grow hslab (by omega)) halloc).1
  have h := hrun.slabUsed hsize har hmed hne
  refine ⟨A, B, h.inv, h.nodup, h.block, h.cnt_eq, fun h48 l hl => ?_, h.linked_iff, fun hlt => ?_,
    fun p hp => ?_⟩
  · have hl16 : l < 16 := by
      have := (packedBits_facts size).2.1
      omega
    rw [h.data.lvl1 h48 l hl16, lvl2Bitv_ne_zero hl16, and_iff_right hl]
  · obtain ⟨p, u, heq, j, hfirst, rfl, hfresh, -⟩ := wp_iff.mp (h.alloc hlt)
    exact ⟨j, u, heq, hfirst, hfresh, (packedBlock_bounds hsize hfirst.lt).2⟩
  · obtain ⟨_, u, heq, hkept, hgone⟩ := wp_iff.mp (h.free hp)
    exact ⟨u, heq, fun hlen => (hkept hlen).inv, hgone⟩

/-! ## Two runs -/

/-- The first slab of a fresh process, and its allocated blocks after `ops`. -/
def packedReplay (size : Nat) (ops : List PackedOp) : HeapM (Nat × List Nat) := do
  let _ ← mmInit
  let y ← _intAllocSlab 1
  let p ← _intSlabInitPackedAndAlloc y size
  let used ← replay (fun _ used op => PackedOp.Allowed size used op) (PackedOp.exec y size)
    .unreachable ops [p]
  pure (y, used)

theorem packedRun_of_replay (ops : List PackedOp)
    (h : (packedReplay size ops freshHeap).toOption.map Prod.fst = some (y, used)) :
    ∃ s s₀ t, HeapInv True s [] ∧ _intAllocSlab 1 s = .ok (y, s₀) ∧ PackedRun y size s₀ t used := by
  obtain ⟨⟨_, t⟩, heq, rfl⟩ := Option.map_eq_some_iff.mp h
  have hok : packedReplay size ops freshHeap = .ok ((y, used), t) := by
    cases hres : packedReplay size ops freshHeap with
    | error e =>
      rw [hres] at heq
      cases heq
    | ok res =>
      rw [hres] at heq
      rw [Option.some_inj.mp heq]
  obtain ⟨b, s, hinit, hok⟩ := bind_eq_ok hok
  obtain ⟨y', s₀, halloc, hok⟩ := bind_eq_ok hok
  obtain ⟨p, t₀, hslab, hok⟩ := bind_eq_ok hok
  obtain ⟨used', t', hreplay, hok⟩ := bind_eq_ok hok
  cases hok
  obtain ⟨-, -, hinit⟩ := wp_of_eq (mmInit_spec fresh_freshHeap) hinit
  exact ⟨s, s₀, t, heapInv_init hinit, halloc, replay_induct (P := PackedRun y size s₀) _ _ _
    (fun _ _ _ _ _ h hop hexec => h.step hop hexec) (.init hslab) hreplay⟩

/-- A full slab, two blocks of which have been freed and the lower one allocated again; and a slab
whose last block is freed after two others. -/
theorem packedRun_inv_refilled :
    (∃ s₀ t, PackedRun 69632 496 s₀ t ([0, 7, 6, 5, 4, 2, 1].map (packedBlock 69632 496)) ∧
      fieldOf (t.mem 69632) 2 2 = 7 ∧
      ∃ u, packedAllocBlock 496 69632 t = .ok (packedBlock 69632 496 3, u)) ∧
    ∃ s₀ t A B u, PackedRun 69632 496 s₀ t [packedBlock 69632 496 1] ∧
      _intTinyBlockFree 69632 (packedBlock 69632 496 1) t = .ok ((), u) ∧
      Released True t A ⟨69632, 1, .packed⟩ B u := by
  constructor
  · obtain ⟨s, s₀, t, hinv, halloc, hrun⟩ : ∃ s s₀ t, HeapInv True s [] ∧
        _intAllocSlab 1 s = .ok (69632, s₀) ∧
        PackedRun 69632 496 s₀ t ([0, 7, 6, 5, 4, 2, 1].map (packedBlock 69632 496)) :=
      packedRun_of_replay (List.replicate 7 .alloc ++ [.free (packedBlock 69632 496 3),
        .free (packedBlock 69632 496 0), .alloc]) (by decide +kernel)
    obtain ⟨A, B, -, -, -, hcnt, -, -, hnext, -⟩ :=
      packedRun_inv hinv (by decide) halloc hrun (by decide)
    obtain ⟨j, u, heq, hfirst, hfresh, -⟩ := hnext (by decide)
    refine ⟨s₀, t, hrun, hcnt, u, ?_⟩
    have hlt : j < 8 := hfirst.lt
    obtain rfl : j = 3 := by
      by_contra hne
      refine hfresh (List.mem_map_of_mem ?_)
      interval_cases j <;> first | exact absurd rfl hne | decide
    exact heq
  · obtain ⟨s, s₀, t, hinv, halloc, hrun⟩ : ∃ s s₀ t, HeapInv True s [] ∧
        _intAllocSlab 1 s = .ok (69632, s₀) ∧
        PackedRun 69632 496 s₀ t [packedBlock 69632 496 1] :=
      packedRun_of_replay [.alloc, .alloc, .free (packedBlock 69632 496 0),
        .free (packedBlock 69632 496 2)] (by decide +kernel)
    obtain ⟨A, B, -, -, -, -, -, -, -, hfree⟩ :=
      packedRun_inv hinv (by decide) halloc hrun (by decide)
    obtain ⟨u, heq, -, hreleased⟩ := hfree _ (List.mem_singleton_self _)
    exact ⟨s₀, t, A, B, u, hrun, heq, hreleased rfl⟩

end

end MallocBench.Slab
