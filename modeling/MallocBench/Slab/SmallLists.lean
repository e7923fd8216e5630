import MallocBench.Slab.NullLists
import MallocBench.Slab.Tiny

/-!
# The packed slabs with free space and their bins

`SmallLists s P bins` says that the small bins of the state `s` hold exactly the
slabs of `P`, where `P x i` says that the slab `x` belongs in bin `i`.
-/

namespace MallocBench.Slab

open Lib

/-- The small bins hold exactly the slabs `P`. -/
structure SmallLists (s : Heap) (P : Nat → Nat → Prop) (bins : Nat → List Nat) : Prop where
  lists : NullLists smallList s bins
  idx_lt : ∀ x i, P x i → i < 23
  mem_bins : ∀ i x, i < 23 → (x ∈ bins i ↔ P x i)

/-- The words of the small bins and of the links of the slabs `P`. -/
def SmallWord (h : Nat) (P : Nat → Nat → Prop) (a : Nat) : Prop :=
  (h + 2048 ≤ a ∧ a < h + 2232) ∨ ∃ x i, P x i ∧ (a = x + 8 ∨ a = x + 16)

theorem SmallWord.mono {h a : Nat} {P P' : Nat → Nat → Prop} (ha : SmallWord h P a)
    (hP : ∀ x i, P x i → P' x i) : SmallWord h P' a :=
  ha.imp_right fun ⟨x, i, hx, hax⟩ => ⟨x, i, hP x i hx, hax⟩

namespace SmallLists

variable {s t : Heap} {P P' : Nat → Nat → Prop} {bins : Nat → List Nat} {x i : Nat}

theorem mem (h : SmallLists s P bins) (hx : P x i) : x ∈ bins i :=
  (h.mem_bins i x (h.idx_lt x i hx)).mpr hx

theorem not_mem (h : SmallLists s P bins) (hx : ∀ i, ¬ P x i) {j : Nat} (hj : j < 23) :
    x ∉ bins j :=
  fun hmem => hx j ((h.mem_bins j x hj).mp hmem)

/-- The link cells are words of the bins or of slabs in them. -/
theorem cell_smallWord (h : SmallLists s P bins) {a : Nat}
    (ha : smallList.Cell s.heap bins a) : SmallWord s.heap P a := by
  rcases h.lists.cell_cases ha with ⟨i, hi, rfl⟩ | ⟨i, y, hi, hy, hay⟩
  · left
    have hi' : i < 23 := hi
    show s.heap + 2048 ≤ smallList.hd s.heap i + 8 ∧ smallList.hd s.heap i + 8 < s.heap + 2232
    rw [smallList_hd]
    unfold smallBin
    omega
  · exact .inr ⟨y, i, (h.mem_bins i y hi).mp hy, hay⟩

/-- A slab in a bin is a page of the heap. -/
theorem bounds (h : SmallLists s P bins) (hx : P x i) :
    x % 4096 = 0 ∧ s.heap + 4096 ≤ x ∧ x + 32 ≤ s.brk := by
  have hmem := h.mem hx
  have hnode := h.lists.lists.node _ x (h.idx_lt x i hx) hmem
  exact ⟨hnode.1, hnode.2, h.lists.inRange _ x (h.idx_lt x i hx) hmem⟩

theorem unique (h : SmallLists s P bins) {j : Nat} (hi : P x i) (hj : P x j) : i = j :=
  h.lists.lists.disjoint _ _ x (h.idx_lt x i hi) (h.idx_lt x j hj) (h.mem hi) (h.mem hj)

theorem congr (h : SmallLists s P bins) (hP : ∀ x i, P' x i ↔ P x i) (hheap : t.heap = s.heap)
    (hbrk : s.brk ≤ t.brk) (hmem : ∀ a, SmallWord s.heap P a → t.mem a = s.mem a) :
    SmallLists t P' bins :=
  ⟨h.lists.congr hheap hbrk fun a ha => hmem a (h.cell_smallWord ha),
    fun x i hx => h.idx_lt x i ((hP x i).mp hx),
    fun i x hi => (h.mem_bins i x hi).trans (hP x i).symm⟩

theorem valid_bin (h : SmallLists s P bins) (hi : i < 23) : s.Valid (smallBin s.heap i) :=
  smallList_hd s.heap i ▸ h.lists.valid_next hi (.inl rfl)

/-- The head of a bin is a slab of the bin, or null when there is none. -/
theorem head (h : SmallLists s P bins) (hi : i < 23) :
    (s.mem (smallBin s.heap i) = 0 ∧ ∀ x, ¬ P x i) ∨
      (s.mem (smallBin s.heap i) ≠ 0 ∧ P (s.mem (smallBin s.heap i)) i) := by
  cases hb : bins i with
  | nil =>
    refine .inl ⟨?_, fun x hx => ?_⟩
    · have := h.lists.first (i := i) hi (show _ = [0] by rw [hb]; rfl)
      rwa [← smallList_hd]
    · have := h.mem hx
      rw [hb] at this
      cases this
  | cons y l =>
    have hy := h.lists.first (i := i) hi (show _ = y :: (l ++ [0]) by rw [hb]; rfl)
    have hyw : s.mem (smallBin s.heap i) = y := by rwa [← smallList_hd]
    have hmem : y ∈ bins i := by simp [hb]
    rw [hyw]
    refine .inr ⟨?_, (h.mem_bins i y hi).mp hmem⟩
    rintro rfl
    exact h.lists.zero_not_mem hi hmem

/-- `small_bin_unlink` of a slab in a bin. -/
theorem unlink (h : SmallLists s P bins) (hx : P x i) :
    wp (smallBinUnlink x) (fun _ t => ∃ m' bins', t = { s with mem := m' } ∧
      SmallLists { s with mem := m' } (fun y j => P y j ∧ y ≠ x) bins' ∧
      ∀ a, ¬ SmallWord s.heap P a → m' a = s.mem a) s := by
  refine wp_mono (smallBinUnlink_spec h.lists (h.idx_lt x i hx) (h.mem hx)) fun _ t ht => ?_
  obtain ⟨m', bins', rfl, hlists, hmem, hm⟩ := ht
  have hsmall : SmallLists { s with mem := m' } (fun y j => P y j ∧ y ≠ x) bins' :=
    ⟨hlists, fun y j hy => h.idx_lt y j hy.1, fun j y hj => by rw [hmem j y hj, h.mem_bins j y hj]⟩
  refine ⟨m', bins', rfl, hsmall, fun a ha => hm a fun hc => ha ?_⟩
  exact (hsmall.cell_smallWord hc).mono fun y j hy => hy.1

/-- `small_bin_link` of a slab that is in no bin. -/
theorem link (h : SmallLists s P bins) {size : Nat} (hal : x % 4096 = 0)
    (hge : s.heap + 4096 ≤ x) (hroom : x + 32 ≤ s.brk) (hidx : packedBinIdx size < 23)
    (hfresh : ∀ j, ¬ P x j) :
    wp (smallBinLink x size) (fun _ t => ∃ m' bins', t = { s with mem := m' } ∧
      SmallLists { s with mem := m' } (fun y j => P y j ∨ (y = x ∧ j = packedBinIdx size)) bins' ∧
      ∀ a, ¬ SmallWord s.heap (fun y j => P y j ∨ (y = x ∧ j = packedBinIdx size)) a →
        m' a = s.mem a) s := by
  unfold smallBinLink
  rw [wp_bind, wp_get]
  refine wp_mono (_smallBinLink_spec h.lists hidx ⟨hal, hge⟩ hroom fun j hj => h.not_mem hfresh hj)
    fun _ t ht => ?_
  obtain ⟨m', bins', rfl, hlists, hmem, hm⟩ := ht
  have hsmall : SmallLists { s with mem := m' }
      (fun y j => P y j ∨ (y = x ∧ j = packedBinIdx size)) bins' := by
    refine ⟨hlists, ?_, fun j y hj => ?_⟩
    · rintro y j (hy | ⟨-, rfl⟩)
      · exact h.idx_lt y j hy
      · exact hidx
    · rw [hmem j y hj, h.mem_bins j y hj]
      exact or_congr_right and_comm
  exact ⟨m', bins', rfl, hsmall, fun a ha => hm a fun hc => ha (hsmall.cell_smallWord hc)⟩

end SmallLists

end MallocBench.Slab
