import MallocBench.Slab.SlabSearch

/-!
# The heap after `mm_init`

`mm_init` takes the first page for `struct heap`, empties all bins and leaves a
heap without slabs.
-/

namespace MallocBench.Slab

open Lib

/-- The state of `memlib` before `mm_init`: the break is page-aligned. -/
structure Fresh (s : Heap) : Prop where
  pos : 0 < s.brk
  aligned : s.brk % 4096 = 0
  heap : s.heap ≤ s.brk

/-- A process that has obtained 16 pages before `mm_init`. -/
def freshHeap : Heap := ⟨fun _ => 0xcccccccccccccccc, 65536, 0, fun _ => 0, fun _ => 0, 0, 0⟩

theorem fresh_freshHeap : Fresh freshHeap := ⟨by decide, by decide, by decide⟩

/-- The state after `mm_init`: no slabs, and all bins are empty. -/
structure Initialised (s : Heap) : Prop where
  inv : SlabInv s [] fun _ => []
  small : ∀ i, i < 23 → s.mem (smallBin s.heap i) = 0
  medium : ∀ i, i < 224 → s.mem (mediumBin s.heap i) = 0
  medSkiplist : s.medSkiplist = fun _ => 0
  flags : s.flags = 1
  heapEnd : s.heapEnd = s.heap + 4096

variable {s t : Heap}

/-- The loop of `mm_init` makes every bin a ring of its own. -/
theorem initSlabBins_spec {h : Nat} (hle : s.heap ≤ h) (hbrk : h + 4096 ≤ s.brk)
    (hal : h % 4096 = 0) (hpos : 0 < h) :
    wp ((List.range numSlabBins).forM (initSlabBin h)) (fun _ t =>
      ∃ m', t = { s with mem := m' } ∧ ∀ i, i < 128 →
        m' (slabHd h i + 8) = slabHd h i ∧ m' (slabHd h i + 16) = slabHd h i) s := by
  have hhd := fun i => slabHd_eq (i := i) hpos hal
  refine wp_mono (wp_forM (I := fun l t => ∃ m', t = { s with mem := m' } ∧ ∀ i, i ∈ l →
    m' (slabHd h i + 8) = slabHd h i ∧ m' (slabHd h i + 16) = slabHd h i) ⟨s.mem, rfl, by simp⟩ ?_) ?_
  · rintro l₁ i l₂ _ hl ⟨m', rfl, hm⟩
    have hi : i < 128 := List.mem_range.mp (show i ∈ List.range 128 by rw [← numSlabBins, hl]; simp)
    have hhdi := hhd i
    unfold initSlabBin
    simp only [wp_bind, wp_store64, show slabBinStart (slabBin h i) = slabHd h i from rfl]
    unfold slabBin
    refine ⟨⟨by simp only; omega, by simp only; omega, by omega⟩,
      ⟨by simp only [setMem_heap]; omega, by simp only [setMem_brk]; omega, by omega⟩, _, rfl,
      fun j hj => ?_⟩
    have hhdj := hhd j
    simp only [setMem_mem]
    rcases List.mem_append.mp hj with hj | hj
    · by_cases hji : j = i
      · subst hji
        rw [show slabHd h j + 8 = h + 16 * j by omega, show slabHd h j + 16 = h + 16 * j + 8 by omega,
          Function.update_self, Function.update_of_ne (by omega), Function.update_self]
        exact ⟨rfl, rfl⟩
      · rw [Function.update_of_ne (by omega), Function.update_of_ne (by omega),
          Function.update_of_ne (by omega), Function.update_of_ne (by omega)]
        exact hm j hj
    · obtain rfl := List.mem_singleton.mp hj
      rw [show slabHd h j + 8 = h + 16 * j by omega, show slabHd h j + 16 = h + 16 * j + 8 by omega,
        Function.update_self, Function.update_of_ne (by omega), Function.update_self]
      exact ⟨rfl, rfl⟩
  · rintro _ t ⟨m', rfl, hm⟩
    exact ⟨m', rfl, fun i hi => hm i (List.mem_range.mpr hi)⟩

/-- **`mm_init`** -/
theorem mmInit_spec (h : Fresh s) :
    wp mmInit (fun r t => r = true ∧ t.heap = s.brk ∧ Initialised t) s := by
  have hpos := h.pos
  have hal := h.aligned
  have hheap := h.heap
  unfold mmInit memSbrk
  simp only [wp_bind, wp_get, wp_set, wp_pure, wp_modify, slabSize]
  refine wp_mono (initSlabBins_spec (h := s.brk) hheap (by simp) hal hpos) ?_
  rintro _ _ ⟨m', rfl, hm⟩
  refine ⟨trivial, trivial, ⟨rfl, ⟨rfl, by simp⟩, ⟨?_, by simp, List.Pairwise.nil, by simp, by simp⟩⟩, ?_, ?_,
    rfl, rfl, rfl⟩
  · refine ⟨hal, hpos, le_refl _, ⟨fun i hi => ?_, by simp, by simp, by simp⟩, by simp⟩
    have hhdi := slabHd_eq (i := i) hpos hal
    obtain ⟨h8, h16⟩ := hm i hi
    have hz : ∀ x, x < s.brk + 2048 → zeroRange m' (smallBin s.brk 0) 2024 x = m' x := by
      intro x hx
      unfold zeroRange smallBin
      rw [if_neg (by omega)]
    refine Cells.links_cons_cons.mpr ⟨⟨?_, fun _ => ?_⟩, List.isChain_singleton _⟩
    · simp only [slabCells]
      rw [hz _ (by omega), h8]
    · simp only [slabCells]
      rw [hz _ (by omega), h16]
  · intro i hi
    simp only
    unfold zeroRange smallBin
    rw [if_pos (by omega), if_pos (by omega)]
  · intro i hi
    simp only
    unfold zeroRange smallBin mediumBin
    rw [if_pos (by omega), if_pos (by omega)]

/-! ## Runs on a fresh process -/

section

variable {α ι : Type} (allowed : Heap → α → ι → Prop) [∀ s a i, Decidable (allowed s a i)]
  (exec : α → ι → HeapM α)

/-- `f` holds after `mm_init` and the calls on a fresh process. -/
def replayCheck (calls : List ι) (a : α) (f : α → Heap → Bool) : Bool :=
  match (mmInit >>= fun _ => replay allowed exec .unreachable calls a) freshHeap with
  | .ok (a, s) => f a s
  | .error _ => false

theorem exists_of_replayCheck {P : Heap → α → Prop} {calls : List ι} {a : α}
    {f : α → Heap → Bool} (hinit : ∀ t, mmInit freshHeap = .ok (true, t) → P t a)
    (hstep : ∀ s a i a' t, P s a → allowed s a i → exec a i s = .ok (a', t) → P t a')
    (h : replayCheck allowed exec calls a f = true) : ∃ s a', P s a' ∧ f a' s = true := by
  unfold replayCheck at h
  split at h
  · rename_i a' s heq
    obtain ⟨b, s₀, hrun, hreplay⟩ := bind_eq_ok heq
    obtain ⟨rfl, -, -⟩ := wp_of_eq (mmInit_spec fresh_freshHeap) hrun
    exact ⟨s, a', replay_induct allowed exec _ hstep (hinit s₀ hrun) hreplay, h⟩
  · cases h

end

end MallocBench.Slab
