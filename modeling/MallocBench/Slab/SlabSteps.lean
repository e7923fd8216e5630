import MallocBench.Slab.SlabInv

/-!
# The steps of slab operations

Every slab operation opens a gap in the tiling, changes the lists and headers,
and closes the gap again. The lemmas here are the steps: unlinking the free
region after the gap, linking a free region at the end of the gap, writing the
previous-alloc bit of what follows the gap. Each says which words it changes.
-/

namespace MallocBench.Slab

open Lib

/-- The words that hold the links of the free regions `L`. -/
def LinkWord (h : Nat) (L : List Region) (x : Nat) : Prop :=
  (h ≤ x ∧ x < h + 2048) ∨ ∃ r ∈ L, r.kind = .free ∧ (x = r.addr + 8 ∨ x = r.addr + 16)

theorem slabBinIdx_lt (n : Nat) : slabBinIdx n < 128 := by
  unfold slabBinIdx
  split <;> simp only [numSlabBins] <;> omega

theorem slabBinIdx_small {n : Nat} (h0 : 0 < n) (h : n ≤ 127) : slabBinIdx n = n - 1 := by
  unfold slabBinIdx
  rw [if_neg (by omega)]
  simp only [numSlabBins]
  omega

theorem slabBinIdx_large {n : Nat} (h : 127 < n) : slabBinIdx n = 127 := by
  unfold slabBinIdx
  rw [if_neg (by omega)]
  simp only [numSlabBins]
  omega

theorem slabBinIdx_eq_last {n : Nat} (h0 : 0 < n) : slabBinIdx n = 127 ↔ 127 < n := by
  rcases Nat.lt_or_ge 127 n with h | h
  · simp [slabBinIdx_large h, h]
  · rw [slabBinIdx_small h0 h]
    omega

section

variable {s t : Heap} {A B : List Region} {a b y k : Nat} {p q : Bool} {r : Region}
  {bins : Nat → List Nat}

/-- The words of the gap can be accessed. -/
theorem Tiling.valid (h : Tiling s A a p b q B) {x : Nat} (h₁ : a ≤ x) (h₂ : x + 8 ≤ b)
    (h8 : x % 8 = 0) : s.Valid x := by
  have := h.start_ge
  have := h.end_le
  have := h.brk
  exact ⟨by omega, by omega, h8⟩

/-- So can those of the region after it. -/
theorem Tiling.valid_next (h : Tiling s A a p b q (r :: B)) {x : Nat} (h₁ : r.addr ≤ x)
    (h₂ : x + 8 ≤ r.stop) (h8 : x % 8 = 0) : s.Valid x := by
  obtain ⟨hb, -, -, hB⟩ := h.drop
  refine hB.valid ?_ h₂ h8
  have := h.le
  omega

theorem Tiling.valid_first (h : Tiling s A a p b q (r :: B)) (h8 : r.addr % 8 = 0) :
    s.Valid r.addr := by
  have := Region.addr_lt_stop h.drop.2.1.pos
  exact h.valid_next (le_refl _) (by omega) h8

/-- The words of the gap are no links. -/
theorem Gap.not_linkWord (h : Gap s A a p b q B bins) {x : Nat} (h₁ : a ≤ x) (h₂ : x < b) :
    ¬ LinkWord s.heap (A ++ B) x := by
  have hge := h.tiling.start_ge
  rintro (hx | ⟨r, hr, -, hx⟩)
  · omega
  · obtain ⟨hn, -, -, -, hout⟩ := h.tiling.mem_outside hr
    have := Region.addr_lt_stop hn
    omega

/-- The slab in the gap is in no bin. -/
theorem Gap.fresh (h : Gap s A a p b q B bins) (h₁ : a ≤ y) (h₂ : y < b) {j : Nat}
    (hj : j < 128) : y ∉ bins j := by
  intro hy
  obtain ⟨r, hr, -, rfl, -⟩ := (h.free.mem_bins j y hj).mp hy
  obtain ⟨hn, -, -, -, hout⟩ := h.tiling.mem_outside hr
  have := Region.addr_lt_stop hn
  omega

/-! ## Unlinking the region after the gap -/

theorem slabUnlink_gap (h : Gap s A a p b q (r :: B) bins) (hk : r.kind = .free) :
    wp (slabUnlink r.addr) (fun _ t => ∃ m' bins', t = { s with mem := m' } ∧
      Gap { s with mem := m' } A a p r.stop false B bins' ∧
      ∀ x, ¬ LinkWord s.heap (A ++ B) x → m' x = s.mem x) s := by
  have hi := slabBinIdx_lt r.n
  obtain ⟨-, hok, -, htil⟩ := h.tiling.drop
  rw [Region.isAlloc_eq_false.mpr hk] at htil
  have hpos := Region.addr_lt_stop hok.pos
  obtain ⟨l₁, l₂, hb⟩ := List.append_of_mem ((h.free.mem_bins _ r.addr hi).mpr
    ⟨r, by simp, hk, rfl, rfl⟩)
  refine wp_mono (slabUnlink_spec h.free.lists hi hb) ?_
  rintro _ _ ⟨m', rfl, hlists, hm⟩
  -- the bins have lost `r.addr` and nothing else
  have hbins : ∀ j x, j < 128 →
      (x ∈ Function.update bins (slabBinIdx r.n) (l₁ ++ l₂) j ↔ x ∈ bins j ∧ x ≠ r.addr) := by
    intro j x hj
    have hnd := h.free.lists.lists.nodup _ hi
    rw [hb] at hnd
    by_cases hji : j = slabBinIdx r.n
    · subst hji
      rw [Function.update_self, hb]
      have hnot := (List.nodup_cons.mp (List.nodup_middle.mp hnd)).1
      constructor
      · intro hx
        refine ⟨?_, fun heq => hnot (heq ▸ hx)⟩
        rcases List.mem_append.mp hx with hx | hx
        · exact List.mem_append_left _ hx
        · exact List.mem_append_right _ (List.mem_cons_of_mem _ hx)
      · rintro ⟨hx, hne⟩
        rcases List.mem_append.mp hx with hx | hx
        · exact List.mem_append_left _ hx
        · rcases List.mem_cons.mp hx with hx | hx
          · exact absurd hx hne
          · exact List.mem_append_right _ hx
    · rw [Function.update_of_ne hji]
      refine ⟨fun hx => ⟨hx, ?_⟩, And.left⟩
      rintro rfl
      exact hji (h.free.lists.lists.disjoint j _ r.addr hj hi hx (by rw [hb]; simp))
  have hmem : ∀ r', r' ∈ A ++ r :: B ∧ r'.addr ≠ r.addr ↔ r' ∈ A ++ B := by
    intro r'
    constructor
    · rintro ⟨hr', hne⟩
      rcases List.mem_append.mp hr' with hm | hm
      · exact List.mem_append_left _ hm
      · rcases List.mem_cons.mp hm with rfl | hm
        · exact absurd rfl hne
        · exact List.mem_append_right _ hm
    · intro hr'
      refine ⟨?_, ?_⟩
      · rcases List.mem_append.mp hr' with hm | hm
        · exact List.mem_append_left _ hm
        · exact List.mem_append_right _ (List.mem_cons_of_mem _ hm)
      · obtain ⟨hn, -, -, -, hout⟩ := htil.mem_outside hr'
        have := Region.addr_lt_stop hn
        have := h.tiling.le
        have := h.tiling.drop.1
        omega
  have hfree : FreeLists { s with mem := m' } (A ++ B)
      (Function.update bins (slabBinIdx r.n) (l₁ ++ l₂)) := by
    refine ⟨hlists, fun j x hj => ?_, ?_, fun j hj hne => ?_, h.free.skiplist_last⟩
    · rw [hbins j x hj, h.free.mem_bins j x hj]
      constructor
      · rintro ⟨⟨r', hr', hk', rfl, hidx⟩, hne⟩
        exact ⟨r', (hmem r').mp ⟨hr', hne⟩, hk', rfl, hidx⟩
      · rintro ⟨r', hr', hk', rfl, hidx⟩
        obtain ⟨hr'', hne⟩ := (hmem r').mpr hr'
        exact ⟨⟨r', hr'', hk', rfl, hidx⟩, hne⟩
    · have hsub : (Function.update bins (slabBinIdx r.n) (l₁ ++ l₂) 127).Sublist (bins 127) := by
        by_cases hji : 127 = slabBinIdx r.n
        · rw [← hji, Function.update_self]
          rw [← hji] at hb
          rw [hb]
          exact (List.sublist_cons_self _ _).append_left _
        · rw [Function.update_of_ne hji]
      refine (h.free.sorted.sublist hsub).imp fun {x z} hxz r₁ h₁ r₂ h₂ => ?_
      exact hxz r₁ ((hmem r₁).mpr h₁).1 r₂ ((hmem r₂).mpr h₂).1
    · refine h.free.skiplist j hj fun hnil => hne ?_
      refine List.eq_nil_iff_forall_not_mem.mpr fun x hx => ?_
      have := ((hbins j x (by omega)).mp hx).1
      rw [hnil] at this
      cases this
  have hframe : ∀ x, ¬ LinkWord s.heap (A ++ B) x → m' x = s.mem x := by
    intro x hx
    refine hm x fun hcell => hx ?_
    exact hfree.cell_cases hcell
  refine ⟨m', _, rfl, ⟨htil.congr rfl rfl rfl rfl ?_, hfree⟩, hframe⟩
  refine htil.agree_of_links fun x => ?_
  by_cases hx : LinkWord s.heap (A ++ B) x
  · rcases hx with hx | hx
    · exact .inr (.inl ⟨hx.1, by omega⟩)
    · exact .inr (.inr (.inl hx))
  · exact .inl (hframe x hx)

/-! ## Linking a region at the end of the gap -/

/-- The region `r`, part of the gap, is in its bin but its header is not yet
written. -/
structure Linked (s : Heap) (A : List Region) (a : Nat) (p : Bool) (b : Nat) (q : Bool)
    (B : List Region) (r : Region) (bins : Nat → List Nat) : Prop where
  tiling : Tiling s A a p b q B
  free : FreeLists s (A ++ r :: B) bins

/-- Words of the gap that are not the links of `r` may be written. -/
theorem Linked.setMem (h : Linked s A a p b q B r bins) {x v : Nat} (h₁ : a ≤ x) (h₂ : x < b)
    (h8 : x ≠ r.addr + 8) (h16 : x ≠ r.addr + 16) : Linked (s.setMem x v) A a p b q B r bins := by
  have hge := h.tiling.start_ge
  have hout : ∀ r ∈ A ++ B, ∀ y, r.addr ≤ y → y < r.stop → (s.setMem x v).mem y = s.mem y := by
    intro r hr y hy₁ hy₂
    obtain ⟨-, -, -, -, hout⟩ := h.tiling.mem_outside hr
    exact Function.update_of_ne (by omega) _ _
  refine ⟨h.tiling.congr rfl rfl rfl rfl fun r' hr' => ?_, h.free.congr rfl (le_refl _) rfl ?_⟩
  · exact Region.Agree.of_eq (h.tiling.mem_outside hr').1 (hout r' hr')
  · intro y hy
    refine Function.update_of_ne ?_ _ _
    rcases h.free.cell_cases hy with hy | ⟨r', hr', -, hy⟩
    · omega
    · have hr'' : r' = r ∨ r' ∈ A ++ B := by
        rcases List.mem_append.mp hr' with hm | hm
        · exact .inr (List.mem_append_left _ hm)
        · exact (List.mem_cons.mp hm).imp_right (List.mem_append_right _)
      rcases hr'' with rfl | hr''
      · omega
      · obtain ⟨hn, -, -, -, hout'⟩ := h.tiling.mem_outside hr''
        have := Region.addr_lt_stop hn
        omega

/-- With its header and footer written, the region becomes part of the tiling. -/
theorem Linked.close (h : Linked s A a p r.stop false B r bins) (hk : r.kind = .free)
    (ha : a ≤ r.addr) (hal : r.addr % 4096 = 0) (hok : r.Ok s.mem true) :
    Gap s A a p r.addr true (r :: B) bins :=
  ⟨Tiling.cons (by rw [Region.isAlloc_eq_false.mpr hk]; exact h.tiling) ha hal hok (by simp),
    h.free⟩

/-- The lists after the insertion of `y` between `l₁` and `l₂`. -/
theorem Gap.insert (h : Gap s A a p b q B bins) (hay : a ≤ y) (hyb : y < b) {i : Nat}
    (hi : i < 128) (hik : slabBinIdx k = i) {l₁ l₂ : List Nat} (hb : bins i = l₁ ++ l₂)
    (hle : i = 127 → ∀ x ∈ l₁, ∀ r ∈ A ++ B, r.addr = x → r.n ≤ k)
    (hge : i = 127 → ∀ x ∈ l₂, ∀ r ∈ A ++ B, r.addr = x → k ≤ r.n)
    (hlists : SlabLists t (Function.update bins i (l₁ ++ y :: l₂)))
    (hskip : ∀ j, j < 127 → (s.slabSkiplist (j / 32)).getLsbD (j % 32) = true ∨ j = i →
      (t.slabSkiplist (j / 32)).getLsbD (j % 32) = true)
    (hlast : (t.slabSkiplist 3).getLsbD 31 = (s.slabSkiplist 3).getLsbD 31) :
    FreeLists t (A ++ ⟨y, k, .free⟩ :: B) (Function.update bins i (l₁ ++ y :: l₂)) := by
  have hbins : ∀ j x, x ∈ Function.update bins i (l₁ ++ y :: l₂) j ↔
      x ∈ bins j ∨ (j = i ∧ x = y) := by
    intro j x
    by_cases hji : j = i
    · subst hji
      rw [Function.update_self, hb]
      simp only [List.mem_append, List.mem_cons, true_and]
      tauto
    · rw [Function.update_of_ne hji]
      simp [hji]
  have hmem : ∀ r', r' ∈ A ++ ⟨y, k, .free⟩ :: B ↔ r' ∈ A ++ B ∨ r' = ⟨y, k, .free⟩ := by
    intro r'
    simp only [List.mem_append, List.mem_cons]
    tauto
  -- a member of an old list is not the new region
  have hold : ∀ j x, j < 128 → x ∈ bins j → ∀ r ∈ A ++ ⟨y, k, .free⟩ :: B, r.addr = x →
      r ∈ A ++ B := by
    intro j x hj hx r hr hrx
    rcases (hmem r).mp hr with hr | rfl
    · exact hr
    · obtain rfl : y = x := hrx
      exact absurd hx (h.fresh hay hyb hj)
  refine ⟨hlists, fun j x hj => ?_, ?_, fun j hj hne => ?_, by rw [hlast, h.free.skiplist_last]⟩
  · rw [hbins, h.free.mem_bins j x hj]
    constructor
    · rintro (⟨r, hr, hrest⟩ | ⟨rfl, rfl⟩)
      · exact ⟨r, (hmem r).mpr (.inl hr), hrest⟩
      · exact ⟨⟨x, k, .free⟩, (hmem _).mpr (.inr rfl), rfl, rfl, hik⟩
    · rintro ⟨r, hr, hk, hrx, hidx⟩
      rcases (hmem r).mp hr with hr | rfl
      · exact .inl ⟨r, hr, hk, hrx, hidx⟩
      · exact .inr ⟨hidx.symm.trans hik, hrx.symm⟩
  · by_cases hji : 127 = i
    · subst hji
      rw [Function.update_self]
      have hs := h.free.sorted
      rw [hb, List.pairwise_append] at hs
      have hin₁ : ∀ x ∈ l₁, x ∈ bins 127 := fun x hx => by
        rw [hb]
        exact List.mem_append_left _ hx
      have hin₂ : ∀ x ∈ l₂, x ∈ bins 127 := fun x hx => by
        rw [hb]
        exact List.mem_append_right _ hx
      have hnew : ∀ r ∈ A ++ ⟨y, k, .free⟩ :: B, r.addr = y → r.n = k := by
        intro r hr hry
        rcases (hmem r).mp hr with hr | rfl
        · obtain ⟨hn, -, -, -, hout⟩ := h.tiling.mem_outside hr
          have := Region.addr_lt_stop hn
          omega
        · rfl
      refine List.pairwise_append.mpr ⟨?_, List.pairwise_cons.mpr ⟨?_, ?_⟩, ?_⟩
      · refine hs.1.imp_of_mem fun {x z} hx hz hxz r hr r' hr' hrx hrz => ?_
        exact hxz r (hold 127 x hi (hin₁ x hx) r hr hrx) r' (hold 127 z hi (hin₁ z hz) r' hr' hrz)
          hrx hrz
      · intro z hz r hr r' hr' hry hrz
        rw [hnew r hr hry]
        exact hge rfl z hz r' (hold 127 z hi (hin₂ z hz) r' hr' hrz) hrz
      · refine hs.2.1.imp_of_mem fun {x z} hx hz hxz r hr r' hr' hrx hrz => ?_
        exact hxz r (hold 127 x hi (hin₂ x hx) r hr hrx) r' (hold 127 z hi (hin₂ z hz) r' hr' hrz)
          hrx hrz
      · intro x hx z hz r hr r' hr' hrx hrz
        have hr₀ := hold 127 x hi (hin₁ x hx) r hr hrx
        rcases List.mem_cons.mp hz with rfl | hz
        · rw [hnew r' hr' hrz]
          exact hle rfl x hx r hr₀ hrx
        · exact hs.2.2 x hx z hz r hr₀ r' (hold 127 z hi (hin₂ z hz) r' hr' hrz) hrx hrz
    · rw [Function.update_of_ne hji]
      refine h.free.sorted.imp_of_mem fun {x z} hx hz hxz r hr r' hr' hrx hrz => ?_
      exact hxz r (hold 127 x (by omega) hx r hr hrx) r' (hold 127 z (by omega) hz r' hr' hrz)
        hrx hrz
  · refine hskip j hj ?_
    by_cases hji : j = i
    · exact .inr hji
    · rw [Function.update_of_ne hji] at hne
      exact .inl (h.free.skiplist j hj hne)

/-- After `slab_link` of the region `r`: the memory and the skiplist have
changed, the region is in its bin. -/
def LinkPost (s : Heap) (A : List Region) (a : Nat) (p : Bool) (b : Nat) (q : Bool)
    (B : List Region) (r : Region) (t : Heap) : Prop :=
  ∃ m' sk bins', t = { s with mem := m', slabSkiplist := sk } ∧ Linked t A a p b q B r bins' ∧
    ∀ x, ¬ LinkWord s.heap (A ++ r :: B) x → m' x = s.mem x

theorem slabLink_gap (h : Gap s A a p b q B bins) (hay : a ≤ y) (hk : 0 < k)
    (hyb : y + 4096 * k = b) (hal : y % 4096 = 0) :
    wp (slabLink y k) (fun _ t => LinkPost s A a p b q B ⟨y, k, .free⟩ t) s := by
  have hge := h.tiling.start_ge
  have hend := h.tiling.end_le
  have hbrk := h.tiling.brk
  have hy : SlabNode s.heap y := ⟨hal, by omega⟩
  have hfresh : ∀ j, j < 128 → y ∉ bins j := fun j hj => h.fresh hay (by omega) hj
  -- what remains once the list of the region's bin has its new member
  have hpost : ∀ m' sk l₁ l₂, bins (slabBinIdx k) = l₁ ++ l₂ →
      FreeLists { s with mem := m', slabSkiplist := sk } (A ++ ⟨y, k, .free⟩ :: B)
        (Function.update bins (slabBinIdx k) (l₁ ++ y :: l₂)) →
      (∀ x, ¬ SlabCell s.heap (Function.update bins (slabBinIdx k) (l₁ ++ y :: l₂)) x →
        m' x = s.mem x) →
      LinkPost s A a p b q B ⟨y, k, .free⟩ { s with mem := m', slabSkiplist := sk } := by
    intro m' sk l₁ l₂ _ hfree hm
    have hframe : ∀ x, ¬ LinkWord s.heap (A ++ ⟨y, k, .free⟩ :: B) x → m' x = s.mem x :=
      fun x hx => hm x fun hcell => hx (hfree.cell_cases hcell)
    refine ⟨m', sk, _, rfl, ⟨h.tiling.congr rfl rfl rfl rfl ?_, hfree⟩, hframe⟩
    refine h.tiling.agree_of_links fun x => ?_
    by_cases hx : LinkWord s.heap (A ++ ⟨y, k, .free⟩ :: B) x
    · rcases hx with hx | ⟨r, hr, hrk, hx⟩
      · exact .inr (.inl ⟨hx.1, by omega⟩)
      · rcases List.mem_append.mp hr with hm' | hm'
        · exact .inr (.inr (.inl ⟨r, List.mem_append_left _ hm', hrk, hx⟩))
        · rcases List.mem_cons.mp hm' with rfl | hm'
          · refine .inr (.inr (.inr ?_))
            simp only at hx
            omega
          · exact .inr (.inr (.inl ⟨r, List.mem_append_right _ hm', hrk, hx⟩))
    · exact .inl (hframe x hx)
  unfold slabLink
  simp only [wp_bind, wp_get, wp_ite, maxSegSlabSz]
  by_cases hsmall : k ≤ 127
  · rw [if_pos hsmall]
    have hidx := slabBinIdx_small hk hsmall
    have hi : slabBinIdx k < 127 := by omega
    refine wp_mono (_slabLink_spec h.free.lists (slabBinIdx_lt k) hy (by omega) hfresh) ?_
    rintro _ _ ⟨m', rfl, hlists, hm⟩
    unfold markSlabSkiplist setSlabSkiplist slabBinSkiplistIdx slabBinSkiplistBit
    simp only [wp_bind, wp_get, wp_modify]
    refine hpost m' _ (bins (slabBinIdx k)) [] (List.append_nil _).symm ?_ hm
    refine h.insert hay (by omega) (slabBinIdx_lt k) rfl (List.append_nil _).symm
      (fun h127 => by omega) (fun h127 => by omega) ?_ (fun j hj hset => ?_) ?_
    · exact ⟨hlists.base, hlists.pos, hlists.room, hlists.lists, hlists.inRange⟩
    · simp only
      rw [← skiplistMark, skiplistMark_bit]
      simpa using hset
    · have := skiplistMark_bit s.slabSkiplist (slabBinIdx k) 127
      simp only
      rw [← skiplistMark, show (3 : Nat) = 127 / 32 from rfl, show (31 : Nat) = 127 % 32 from rfl,
        this]
      simp [show ¬ 127 = slabBinIdx k by omega]
  · rw [if_neg hsmall]
    have hidx := slabBinIdx_large (n := k) (by omega)
    have hnum : ∀ r ∈ A ++ B, r.kind = .free → s.mem (r.addr + 24) = r.n := by
      intro r hr hrk
      rcases List.mem_append.mp hr with hr | hr
      · obtain ⟨⟨_, hok⟩, -⟩ := h.tiling.left.mem hr
        exact hok.num_slabs hrk
      · obtain ⟨⟨_, hok⟩, -⟩ := h.tiling.right.mem hr
        exact hok.num_slabs hrk
    have hregion : ∀ x ∈ bins 127, ∃ r ∈ A ++ B, r.addr = x ∧ s.mem (x + 24) = r.n := by
      intro x hx
      obtain ⟨r, hr, hrk, rfl, -⟩ := (h.free.mem_bins 127 x (by omega)).mp hx
      exact ⟨r, hr, rfl, hnum r hr hrk⟩
    have hsorted : (bins 127).Pairwise fun x z => s.mem (x + 24) ≤ s.mem (z + 24) := by
      refine h.free.sorted.imp_of_mem fun {x z} hx hz hxz => ?_
      obtain ⟨r, hr, hrx, hn⟩ := hregion x hx
      obtain ⟨r', hr', hrz, hn'⟩ := hregion z hz
      rw [hn, hn']
      exact hxz r hr r' hr' hrx hrz
    refine wp_mono (_slabLinkLarge_spec h.free.lists hbrk (n := k) (by omega : 127 < 128) hsorted
      hy (by omega) hfresh) ?_
    rintro _ _ ⟨m', l₁, l₂, rfl, hb, hle, hgt, hlists, hm⟩
    have hlast : numSlabBins - 1 = slabBinIdx k := hidx.symm
    rw [hlast] at hb hlists hm
    refine hpost m' s.slabSkiplist l₁ l₂ hb ?_ hm
    refine h.insert hay (by omega) (slabBinIdx_lt k) rfl hb (fun _ x hx r hr hrx => ?_)
      (fun _ x hx r hr hrx => ?_) hlists (fun j hj hset => ?_) rfl
    · obtain ⟨r', hr', hrx', hn⟩ := hregion x (by rw [← hidx, hb]; exact List.mem_append_left _ hx)
      rw [h.tiling.eq_of_addr hr hr' (hrx.trans hrx'.symm), ← hn]
      exact hle x hx
    · obtain ⟨r', hr', hrx', hn⟩ := hregion x (by rw [← hidx, hb]; exact List.mem_append_right _ hx)
      rw [h.tiling.eq_of_addr hr hr' (hrx.trans hrx'.symm), ← hn]
      exact (hgt x hx).le
    · rcases hset with hset | hset
      · exact hset
      · omega

/-! ## The previous-alloc bit after the gap -/

/-- The words agree but for the previous-alloc bit. -/
def SameButPrev (w w' : Nat) : Prop :=
  ∀ i, i ≠ 1 → w'.testBit i = w.testBit i

theorem SameButPrev.setBit {w : Nat} : SameButPrev w (setBit w 2) := by
  intro i hi
  rw [testBit_setBit (by omega), show (2 : Nat) = 2 ^ 1 from rfl, Nat.testBit_two_pow]
  simp [hi.symm]

theorem SameButPrev.clearBit {w : Nat} : SameButPrev w (clearBit w 2) := by
  intro i hi
  rw [testBit_clearBit (by omega), show (2 : Nat) = 2 ^ 1 from rfl, Nat.testBit_two_pow]
  simp [hi.symm]

/-- The header of the allocated region after the gap gets another previous-alloc
bit. -/
theorem Gap.setHeader (h : Gap s A a p b q (r :: B) bins) (hr : r.isAlloc = true) {w : Nat}
    {q' : Bool} (hw : SameButPrev (s.mem b) w) (h1 : w.testBit 1 = q') :
    Gap (s.setMem b w) A a p b q' (r :: B) bins := by
  obtain ⟨rfl, hok, hgap⟩ := h.drop_alloc hr
  have hpos := Region.addr_lt_stop hok.pos
  have hgap' := hgap.setMem (v := w) h.tiling.le (by omega : r.addr < r.stop)
  refine hgap'.cons_alloc hr h.tiling.le h.tiling.aligned ?_
  obtain ⟨hn, h0, -, hk⟩ := hok
  refine ⟨hn, ?_, ?_, ?_⟩
  · rw [setMem_mem, Function.update_self, hw 0 (by omega), h0]
  · rw [setMem_mem, Function.update_self, h1]
  · cases hkind : r.kind with
    | free => exact absurd hkind (Region.isAlloc_eq_true.mp hr)
    | packed =>
      rw [hkind] at hk
      exact ⟨by rw [setMem_mem, Function.update_self, hw 2 (by omega), hk.1], hk.2⟩
    | large =>
      rw [hkind] at hk
      refine ⟨by rw [setMem_mem, Function.update_self, hw 2 (by omega), hk.1], ?_⟩
      rw [setMem_mem, Function.update_of_ne (by omega)]
      exact hk.2
    | raw => trivial

/-- What a step may do: words in `F` are arbitrary afterwards, words in `H` may
have another previous-alloc bit, all others are kept, and the arrays of the upper
layers too. -/
structure Frame (F H : Nat → Prop) (s t : Heap) : Prop where
  heap : t.heap = s.heap
  med : t.medSkiplist = s.medSkiplist
  brk : s.brk ≤ t.brk
  mem : ∀ x, ¬ F x → t.mem x = s.mem x ∨ (H x ∧ SameButPrev (s.mem x) (t.mem x))

theorem Frame.refl {F H : Nat → Prop} : Frame F H s s :=
  ⟨rfl, rfl, le_refl _, fun _ _ => .inl rfl⟩

theorem Frame.trans {F H : Nat → Prop} {u : Heap} (h₁ : Frame F H s t) (h₂ : Frame F H t u) :
    Frame F H s u := by
  refine ⟨h₂.heap.trans h₁.heap, h₂.med.trans h₁.med, h₁.brk.trans h₂.brk, fun x hx => ?_⟩
  rcases h₁.mem x hx with h₁ | ⟨hH, h₁⟩ <;> rcases h₂.mem x hx with h₂ | ⟨hH', h₂⟩
  · exact .inl (h₂.trans h₁)
  · exact .inr ⟨hH', by rwa [h₁] at h₂⟩
  · exact .inr ⟨hH, by rwa [h₂]⟩
  · exact .inr ⟨hH, fun i hi => (h₂ i hi).trans (h₁ i hi)⟩

theorem Frame.mono {F H F' H' : Nat → Prop} (h : Frame F H s t) (hF : ∀ x, F x → F' x)
    (hH : ∀ x, H x → H' x) : Frame F' H' s t :=
  ⟨h.heap, h.med, h.brk, fun x hx => (h.mem x fun hf => hx (hF x hf)).imp_right
    fun hh => ⟨hH x hh.1, hh.2⟩⟩

/-- The header words of the regions `L`. -/
def IsHeader (L : List Region) (x : Nat) : Prop := ∃ r ∈ L, r.addr = x

theorem Tiling.end_cases (h : Tiling s A a p b q B) :
    (b = s.heapEnd ∧ B = [] ∧ q = s.flags.getLsbD 0) ∨
      (b ≠ s.heapEnd ∧ ∃ r B', B = r :: B' ∧ r.addr = b) := by
  cases B with
  | nil => exact .inl ⟨h.right.1, rfl, h.right.2⟩
  | cons r B' =>
    obtain ⟨hb, hok, -, hB⟩ := h.right
    have := hB.le
    have := Region.addr_lt_stop hok.pos
    exact .inr ⟨by omega, r, B', rfl, hb⟩

/-- The alloc status recorded in the heap when nothing follows the gap. -/
theorem Gap.setFlags (h : Gap s A a p b q [] bins) {f : BitVec 32} :
    Gap { s with flags := f } A a p b (f.getLsbD 0) [] bins :=
  ⟨⟨h.tiling.brk, h.tiling.base, h.tiling.left, h.tiling.le, h.tiling.aligned,
    h.tiling.right.1, rfl⟩, h.free.congr rfl (le_refl _) rfl fun _ _ => rfl⟩

theorem markNextPrevAlloc_gap (h : Gap s A a p b false B bins) {x n : Nat}
    (hx : x + 4096 * n = b) :
    wp (markNextPrevAlloc x n) (fun _ t => Gap t A a p b true B bins ∧
      Frame (fun _ => False) (IsHeader B) s t ∧ t.heapEnd = s.heapEnd) s := by
  unfold markNextPrevAlloc
  simp only [wp_bind, wp_get, wp_ite, wp_set, slabSize, hx]
  rcases h.tiling.end_cases with ⟨hb, rfl, -⟩ | ⟨hb, r, B', rfl, rfl⟩
  · rw [if_pos hb]
    have hflag : (s.flags ||| 1).getLsbD 0 = true := by simp
    refine ⟨?_, ⟨rfl, rfl, le_refl _, fun _ _ => .inl rfl⟩, trivial⟩
    have := h.setFlags (f := s.flags ||| 1)
    rwa [hflag] at this
  · rw [if_neg hb]
    have hal : r.addr % 8 = 0 := by
      have := h.tiling.aligned
      omega
    have hr : r.isAlloc = true := by simpa using h.tiling.drop.2.2.1
    rw [wp_setFlag hal]
    refine ⟨h.tiling.valid_first hal, h.setHeader hr SameButPrev.setBit ?_, ?_, rfl⟩
    · rw [testBit_setBit (by omega), show Nat.testBit 2 1 = true from rfl, Bool.or_true]
    · refine ⟨rfl, rfl, le_refl _, fun y _ => ?_⟩
      by_cases hy : y = r.addr
      · subst hy
        exact .inr ⟨⟨r, by simp, rfl⟩, by
          rw [setMem_mem, Function.update_self]
          exact SameButPrev.setBit⟩
      · exact .inl (Function.update_of_ne hy _ _)

/-- An allocated region after the gap loses its previous-alloc bit. -/
theorem clearFlag_gap (h : Gap s A a p b q (r :: B) bins) (hr : r.isAlloc = true) :
    wp (clearFlag b 2) (fun _ t => Gap t A a p b false (r :: B) bins ∧
      Frame (fun _ => False) (IsHeader (r :: B)) s t ∧ t.heapEnd = s.heapEnd) s := by
  obtain ⟨rfl, -⟩ := h.tiling.drop
  have hal : r.addr % 8 = 0 := by
    have := h.tiling.aligned
    omega
  rw [wp_clearFlag hal]
  refine ⟨h.tiling.valid_first hal, h.setHeader hr SameButPrev.clearBit ?_, ?_, rfl⟩
  · rw [testBit_clearBit (by omega), show Nat.testBit 2 1 = true from rfl]
    simp
  · refine ⟨rfl, rfl, le_refl _, fun y _ => ?_⟩
    by_cases hy : y = r.addr
    · subst hy
      exact .inr ⟨⟨r, by simp, rfl⟩, by
        rw [setMem_mem, Function.update_self]
        exact SameButPrev.clearBit⟩
    · exact .inl (Function.update_of_ne hy _ _)

end

end MallocBench.Slab
