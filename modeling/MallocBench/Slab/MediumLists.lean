import MallocBench.Slab.NullLists
import MallocBench.Slab.BlockWords

/-!
# The free medium blocks and their bins

`MediumLists s F bins` says that the medium bins of the state `s` hold exactly
the blocks of `F`, each in the bin of its size, and that the skiplist has the
bits of the non-empty bins. `F x e` is a free block from `x` to `e`; which blocks
are free is decided by the slab headers, not by the bins.
-/

namespace MallocBench.Slab

open Lib

/-- The medium bins hold exactly the free blocks `F`. -/
structure MediumLists (s : Heap) (F : Nat → Nat → Prop) (bins : Nat → List Nat) : Prop where
  lists : NullLists mediumList s bins
  size : ∀ x e, F x e → x + 512 ≤ e ∧ e < x + 4096
  unique : ∀ x e e', F x e → F x e' → e = e'
  mem_bins : ∀ i x, i < 224 → (x ∈ bins i ↔ ∃ e, F x e ∧ mediumBinIdx (e - x) = i)
  skiplist : ∀ i, i < 224 → bins i ≠ [] → (s.medSkiplist (i / 32)).getLsbD (i % 32) = true

/-- The words of the medium bins and of the links of the free blocks `F`. -/
def MedWord (h : Nat) (F : Nat → Nat → Prop) (a : Nat) : Prop :=
  (h + 2232 ≤ a ∧ a < h + 4024) ∨ ∃ x e, F x e ∧ (a = x ∨ a = x + 8)

theorem MedWord.mono {h a : Nat} {F F' : Nat → Nat → Prop} (ha : MedWord h F a)
    (hF : ∀ x e, F x e → F' x e) : MedWord h F' a :=
  ha.imp_right fun ⟨x, e, hx, hax⟩ => ⟨x, e, hF x e hx, hax⟩

theorem mediumList_hd (h i : Nat) : mediumList.hd h i = h + 2232 + 8 * i := rfl

namespace MediumLists

variable {s t : Heap} {F F' : Nat → Nat → Prop} {bins : Nat → List Nat} {x e : Nat}

theorem idx_lt (h : MediumLists s F bins) (hx : F x e) : mediumBinIdx (e - x) < 224 := by
  have := h.size x e hx
  exact mediumBinIdx_lt (by omega) (by omega)

/-- Every free block is in its bin. -/
theorem mem (h : MediumLists s F bins) (hx : F x e) : x ∈ bins (mediumBinIdx (e - x)) :=
  (h.mem_bins _ x (h.idx_lt hx)).mpr ⟨e, hx, rfl⟩

theorem not_mem (h : MediumLists s F bins) (hx : ∀ e, ¬ F x e) {i : Nat} (hi : i < 224) :
    x ∉ bins i := by
  intro hmem
  obtain ⟨e, he, -⟩ := (h.mem_bins i x hi).mp hmem
  exact hx e he

/-- The link cells are words of the bins or of free blocks. -/
theorem cell_medWord (h : MediumLists s F bins) {a : Nat}
    (ha : mediumList.Cell s.heap bins a) : MedWord s.heap F a := by
  rcases h.lists.cell_cases ha with ⟨i, hi, rfl⟩ | ⟨i, y, hi, hy, hay⟩
  · left
    have hi' : i < 224 := hi
    show s.heap + 2232 ≤ mediumBin s.heap i ∧ mediumBin s.heap i < s.heap + 4024
    unfold mediumBin
    omega
  · obtain ⟨e, he, -⟩ := (h.mem_bins i y hi).mp hy
    exact .inr ⟨y, e, he, hay⟩

/-- A free block is aligned and lies in the heap. -/
theorem bounds (h : MediumLists s F bins) (hx : F x e) :
    x % 16 = 0 ∧ s.heap + 4096 ≤ x ∧ x + 32 ≤ s.brk := by
  have hmem := h.mem hx
  have hnode := h.lists.lists.node _ x (h.idx_lt hx) hmem
  exact ⟨hnode.1, hnode.2, h.lists.inRange _ x (h.idx_lt hx) hmem⟩

theorem congr (h : MediumLists s F bins) (hF : ∀ x e, F' x e ↔ F x e) (hheap : t.heap = s.heap)
    (hbrk : s.brk ≤ t.brk) (hmed : t.medSkiplist = s.medSkiplist)
    (hmem : ∀ a, MedWord s.heap F a → t.mem a = s.mem a) : MediumLists t F' bins := by
  refine ⟨h.lists.congr hheap hbrk fun a ha => hmem a (h.cell_medWord ha),
    fun x e hx => h.size x e ((hF x e).mp hx),
    fun x e e' hx hx' => h.unique x e e' ((hF x e).mp hx) ((hF x e').mp hx'),
    fun i x hi => (h.mem_bins i x hi).trans ?_, ?_⟩
  · exact exists_congr fun e => and_congr_left fun _ => (hF x e).symm
  · rw [hmed]
    exact h.skiplist

/-- `medium_bin_unlink` of a free block. -/
theorem unlink (h : MediumLists s F bins) (hx : F x e) :
    wp (mediumBinUnlink x) (fun _ t => ∃ m' bins', t = { s with mem := m' } ∧
      MediumLists { s with mem := m' } (fun y f => F y f ∧ y ≠ x) bins' ∧
      ∀ a, ¬ MedWord s.heap F a → m' a = s.mem a) s := by
  refine wp_mono (mediumBinUnlink_spec h.lists (h.idx_lt hx) (h.mem hx)) fun _ t ht => ?_
  obtain ⟨m', bins', rfl, hlists, hmem, hm⟩ := ht
  have hmed : MediumLists { s with mem := m' } (fun y f => F y f ∧ y ≠ x) bins' := by
    refine ⟨hlists, fun y f hy => h.size y f hy.1, fun y f f' hy hy' => h.unique y f f' hy.1 hy'.1,
      fun i y hi => ?_, fun i hi hne => h.skiplist i hi ?_⟩
    · rw [hmem i y hi, h.mem_bins i y hi]
      constructor
      · rintro ⟨⟨f, hf, hidx⟩, hyx⟩
        exact ⟨f, ⟨hf, hyx⟩, hidx⟩
      · rintro ⟨f, ⟨hf, hyx⟩, hidx⟩
        exact ⟨⟨f, hf, hidx⟩, hyx⟩
    · obtain ⟨y, hy⟩ := List.exists_mem_of_ne_nil _ hne
      exact List.ne_nil_of_mem ((hmem i y hi).mp hy).1
  refine ⟨m', bins', rfl, hmed, fun a ha => hm a fun hc => ha ?_⟩
  exact (hmed.cell_medWord hc).mono fun y f hy => hy.1

/-- `medium_bin_link` of a new free block. -/
theorem link (h : MediumLists s F bins) (hal : x % 16 = 0) (hge : s.heap + 4096 ≤ x)
    (hsize : x + 512 ≤ e) (hsize' : e < x + 4096) (hroom : e ≤ s.brk) (hfresh : ∀ f, ¬ F x f) :
    wp (mediumBinLink x (e - x)) (fun _ t => ∃ m' sk bins',
      t = { s with mem := m', medSkiplist := sk } ∧
      MediumLists t (fun y f => F y f ∨ (y = x ∧ f = e)) bins' ∧
      ∀ a, ¬ MedWord s.heap (fun y f => F y f ∨ (y = x ∧ f = e)) a → m' a = s.mem a) s := by
  have hi : mediumBinIdx (e - x) < 224 := mediumBinIdx_lt (by omega) (by omega)
  refine wp_mono (mediumBinLink_spec h.lists (by omega : 512 ≤ e - x) (by omega) ⟨hal, hge⟩
    (by omega) fun j hj => h.not_mem hfresh hj) fun _ t ht => ?_
  obtain ⟨u, ⟨m', bins', rfl, hlists, hmem, hm⟩, rfl⟩ := ht
  have hmed : MediumLists { s with
      mem := m', medSkiplist := skiplistMark s.medSkiplist (mediumBinIdx (e - x)) }
      (fun y f => F y f ∨ (y = x ∧ f = e)) bins' := by
    refine ⟨hlists.congr rfl (le_refl _) fun _ _ => rfl, ?_, ?_, fun i y hi' => ?_, ?_⟩
    · rintro y f (hy | ⟨rfl, rfl⟩)
      · exact h.size y f hy
      · exact ⟨hsize, hsize'⟩
    · rintro y f f' (hy | ⟨rfl, rfl⟩) (hy' | ⟨hyx, rfl⟩)
      · exact h.unique y f f' hy hy'
      · exact absurd (hyx ▸ hy) (hfresh f)
      · exact absurd hy' (hfresh f')
      · rfl
    · rw [hmem i y hi', h.mem_bins i y hi']
      constructor
      · rintro (⟨f, hf, hidx⟩ | ⟨rfl, rfl⟩)
        · exact ⟨f, .inl hf, hidx⟩
        · exact ⟨e, .inr ⟨rfl, rfl⟩, rfl⟩
      · rintro ⟨f, hf | ⟨rfl, rfl⟩, hidx⟩
        · exact .inl ⟨f, hf, hidx⟩
        · exact .inr ⟨hidx.symm, rfl⟩
    · intro i hi' hne
      show (skiplistMark s.medSkiplist (mediumBinIdx (e - x)) (i / 32)).getLsbD (i % 32) = true
      rw [skiplistMark_bit]
      by_cases hie : i = mediumBinIdx (e - x)
      · rw [decide_eq_true hie, Bool.or_true]
      · obtain ⟨y, hy⟩ := List.exists_mem_of_ne_nil _ hne
        have hy' := ((hmem i y hi').mp hy).resolve_right fun hcon => hie hcon.1
        rw [h.skiplist i hi' (List.ne_nil_of_mem hy'), Bool.true_or]
  exact ⟨m', _, bins', rfl, hmed, fun a ha => hm a fun hc => ha (hmed.cell_medWord hc)⟩

theorem valid_bin (h : MediumLists s F bins) {i : Nat} (hi : i < 224) :
    s.Valid (mediumBin s.heap i) :=
  h.lists.valid_next hi (.inl rfl)

/-- The head of a bin is null, or a free block of the bin's size. -/
theorem head (h : MediumLists s F bins) {i : Nat} (hi : i < 224) :
    (s.mem (mediumBin s.heap i) = 0 ∧ ∀ x e, F x e → mediumBinIdx (e - x) ≠ i) ∨
      (s.mem (mediumBin s.heap i) ≠ 0 ∧
        ∃ e, F (s.mem (mediumBin s.heap i)) e ∧ mediumBinIdx (e - s.mem (mediumBin s.heap i)) = i) := by
  cases hb : bins i with
  | nil =>
    refine .inl ⟨?_, fun x e hx hidx => ?_⟩
    · have := h.lists.first (i := i) hi (show _ = [0] by rw [hb]; rfl)
      rwa [mediumList_hd] at this
    · have := h.mem hx
      rw [hidx, hb] at this
      cases this
  | cons y l =>
    have hy := h.lists.first (i := i) hi (show _ = y :: (l ++ [0]) by rw [hb]; rfl)
    have hyw : s.mem (mediumBin s.heap i) = y := by rwa [mediumList_hd] at hy
    have hmem : y ∈ bins i := by simp [hb]
    rw [hyw]
    refine .inr ⟨?_, (h.mem_bins i y hi).mp hmem⟩
    rintro rfl
    exact h.lists.zero_not_mem hi hmem

/-- The skiplist may lose the bits of empty bins. -/
theorem setSkiplist (h : MediumLists s F bins) {sk : Nat → BitVec 32}
    (hsk : ∀ x e, F x e →
      (sk (mediumBinIdx (e - x) / 32)).getLsbD (mediumBinIdx (e - x) % 32) = true) :
    MediumLists { s with medSkiplist := sk } F bins := by
  refine ⟨h.lists.congr rfl (le_refl _) fun _ _ => rfl, h.size, h.unique, h.mem_bins,
    fun i hi hne => ?_⟩
  obtain ⟨x, hx⟩ := List.exists_mem_of_ne_nil _ hne
  obtain ⟨e, he, rfl⟩ := (h.mem_bins i x hi).mp hx
  exact hsk x e he

theorem skiplist_of_mem (h : MediumLists s F bins) (hx : F x e) :
    (s.medSkiplist (mediumBinIdx (e - x) / 32)).getLsbD (mediumBinIdx (e - x) % 32) = true :=
  h.skiplist _ (h.idx_lt hx) (List.ne_nil_of_mem (h.mem hx))

end MediumLists

end MallocBench.Slab
