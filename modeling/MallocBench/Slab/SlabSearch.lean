import MallocBench.Slab.SlabAlloc

/-!
# Finding slabs to allocate

The search of `__int_alloc_slab`: the scan of the skiplist, whose current word
is cached in a local and written back around the change of the lists, the walk
over the last bin, and the extension of the heap when no region is large enough.
-/

namespace MallocBench.Slab

open Lib

section

variable {s t : Heap} {A B L : List Region} {a b y k n : Nat} {p q : Bool} {r f : Region}
  {bins : Nat → List Nat}

theorem Allocated.of_skiplist {sk : Nat → BitVec 32}
    (h : Allocated { s with slabSkiplist := sk } L n y t) : Allocated s L n y t :=
  ⟨h.inv, h.frame.heap, h.frame.med, h.frame.brk, h.frame.mem⟩

/-- The skiplist may be replaced by another one that has the needed bits. -/
theorem SlabInv.setSkiplist (h : SlabInv s L bins) {sk : Nat → BitVec 32}
    (hsk : ∀ i, i < 127 → bins i ≠ [] → (sk (i / 32)).getLsbD (i % 32) = true)
    (hlast : (sk 3).getLsbD 31 = false) : SlabInv { s with slabSkiplist := sk } L bins :=
  ⟨h.brk, h.tiles, ⟨h.free.lists.base, h.free.lists.pos, h.free.lists.room, h.free.lists.lists,
    h.free.lists.inRange⟩, h.free.mem_bins, h.free.sorted, hsk, hlast⟩

/-- The first member of a bin, as the allocator reads it. -/
theorem SlabInv.head (h : SlabInv s L bins) {i : Nat} (hi : i < 128) {l : List Nat}
    (hb : bins i = y :: l) : s.mem (slabBin s.heap i) = y ∧ y ≠ slabBinStart (slabBin s.heap i) ∧
      ∃ A f B, L = A ++ f :: B ∧ f.kind = .free ∧ f.addr = y ∧ slabBinIdx f.n = i := by
  have hhd := slabHd_eq (i := i) h.free.lists.pos h.free.lists.base
  have hy : y ∈ bins i := by simp [hb]
  obtain ⟨f, hf, hk, hfy, hidx⟩ := (h.free.mem_bins i y hi).mp hy
  obtain ⟨A, B, hL⟩ := List.append_of_mem hf
  refine ⟨?_, fun heq => ?_, A, f, B, hL, hk, hfy, hidx⟩
  · have := h.free.lists.lists.first hi (show _ = y :: (l ++ [slabHd s.heap i]) by rw [hb]; rfl)
    rw [← this]
    exact congrArg s.mem hhd.symm
  · have hnode := h.free.lists.lists.node i y hi hy
    rw [heq] at hnode
    exact h.free.lists.layout.hd_not_node i hi hnode

theorem SlabInv.head_nil (h : SlabInv s L bins) {i : Nat} (hi : i < 128) (hb : bins i = []) :
    s.mem (slabBin s.heap i) = slabBinStart (slabBin s.heap i) := by
  have hhd := slabHd_eq (i := i) h.free.lists.pos h.free.lists.base
  have := h.free.lists.lists.first hi (show _ = [slabHd s.heap i] by rw [hb]; rfl)
  rw [← show slabHd s.heap i = slabBinStart (slabBin s.heap i) from rfl, ← this]
  exact congrArg s.mem (by unfold slabBin; simp only [slabCells]; omega)

theorem SlabInv.valid_bin (h : SlabInv s L bins) {i : Nat} (hi : i < 128) :
    s.Valid (slabBin s.heap i) := by
  have := h.free.lists.base
  have := h.free.lists.room
  unfold slabBin
  exact ⟨by omega, by omega, by omega⟩

/-- The slabs at `y` are the first `n` of a smallest free region that has as many. -/
structure BestFit (s : Heap) (L : List Region) (n y : Nat) (t : Heap) : Prop where
  alloc : Allocated s L n y t
  best : ∃ f ∈ L, f.kind = .free ∧ f.addr = y ∧ n ≤ f.n ∧
    ∀ g ∈ L, g.kind = .free → n ≤ g.n → f.n ≤ g.n
  heapEnd : t.heapEnd = s.heapEnd

theorem BestFit.of_skiplist {sk : Nat → BitVec 32}
    (h : BestFit { s with slabSkiplist := sk } L n y t) : BestFit s L n y t :=
  ⟨h.alloc.of_skiplist, h.best, h.heapEnd⟩

/-- The length of the free region at the end of the heap, if there is one. -/
def tailFree (L : List Region) : Nat :=
  match L.getLast? with
  | some r => if r.kind = .free then r.n else 0
  | none => 0

theorem tailFree_concat : tailFree (A ++ [f]) = if f.kind = .free then f.n else 0 := by
  unfold tailFree
  rw [List.getLast?_concat]

theorem tailFree_lt (h0 : 0 < n) (h : ∀ g ∈ L, g.kind = .free → g.n < n) : tailFree L < n := by
  unfold tailFree
  split
  · rename_i r hr
    split_ifs with hk
    · exact h r (List.mem_of_getLast? hr) hk
    · exact h0
  · exact h0

/-- The slabs at `y` reach up to the end of the extended heap: no free region has as
many as `n`. -/
structure Extended (s : Heap) (L : List Region) (n y : Nat) (t : Heap) : Prop where
  alloc : Allocated s L n y t
  small : ∀ g ∈ L, g.kind = .free → g.n < n
  start : y + 4096 * tailFree L = s.heapEnd
  heapEnd : t.heapEnd = y + 4096 * n

theorem Extended.of_skiplist {sk : Nat → BitVec 32}
    (h : Extended { s with slabSkiplist := sk } L n y t) : Extended s L n y t :=
  ⟨h.alloc.of_skiplist, h.small, h.start, h.heapEnd⟩

/-! ## The scan of the exact-size bins -/

/-- The invariant of the scan: the local `skiplist` holds the bits still to be
visited, `mask` those of the bins that are too small. -/
structure Scan (s : Heap) (L : List Region) (bins : Nat → List Nat) (req skipIdx binOffset : Nat)
    (mask skiplist : BitVec 32) : Prop where
  inv : SlabInv s L bins
  word : skipIdx < 4
  off : binOffset = 32 * skipIdx
  near : req < binOffset + 32
  done : ∀ i, req ≤ i → i < binOffset → bins i = []
  kept : ∀ j, j < 32 → binOffset + j < 127 → bins (binOffset + j) ≠ [] →
    if req ≤ binOffset + j then skiplist.getLsbD j = true else mask.getLsbD j = true
  ge : ∀ j, skiplist.getLsbD j = true → req ≤ binOffset + j
  last : skipIdx = 3 → mask.getLsbD 31 = false ∧ skiplist.getLsbD 31 = false

variable {req skipIdx binOffset : Nat} {mask skiplist : BitVec 32}

/-- Writing the cached word back. -/
theorem Scan.writeBack (h : Scan s L bins req skipIdx binOffset mask skiplist) :
    SlabInv { s with slabSkiplist := Function.update s.slabSkiplist skipIdx (mask ||| skiplist) }
      L bins := by
  have hoff := h.off
  refine h.inv.setSkiplist (fun i hi hne => ?_) ?_
  · by_cases hw : i / 32 = skipIdx
    · rw [hw, Function.update_self, BitVec.getLsbD_or]
      have hi' : binOffset + i % 32 = i := by omega
      have := h.kept (i % 32) (by omega) (by omega) (by rwa [hi'])
      split at this
      · rw [this, Bool.or_true]
      · rw [this, Bool.true_or]
    · rw [Function.update_of_ne hw]
      exact h.inv.free.skiplist i hi hne
  · by_cases hw : 3 = skipIdx
    · obtain ⟨h₁, h₂⟩ := h.last hw.symm
      rw [← hw, Function.update_self, BitVec.getLsbD_or, h₁, h₂]
      rfl
    · rw [Function.update_of_ne hw]
      exact h.inv.free.skiplist_last

/-- The scan goes on with the next word. -/
theorem Scan.nextWord (h : Scan s L bins req skipIdx binOffset mask 0) (hw : skipIdx + 1 ≠ 4) :
    Scan { s with slabSkiplist := Function.update s.slabSkiplist skipIdx (mask ||| 0) } L bins req
      (skipIdx + 1) (binOffset + 32) 0
      ((Function.update s.slabSkiplist skipIdx (mask ||| 0)) (skipIdx + 1)) := by
  have hoff := h.off
  have hword := h.word
  have hnear := h.near
  have hinv := h.writeBack
  have hreq : ∀ j, j < 32 → req ≤ binOffset + j → binOffset + j < 127 → bins (binOffset + j) = [] := by
    intro j hj hle hlt
    by_contra hne
    have := h.kept j hj hlt hne
    rw [if_pos hle] at this
    simp at this
  have hdone : ∀ i, req ≤ i → i < binOffset + 32 → bins i = [] := by
    intro i hle hlt
    rcases Nat.lt_or_ge i binOffset with hi | hi
    · exact h.done i hle hi
    · have := hreq (i - binOffset) (by omega) (by omega) (by omega)
      rwa [Nat.add_sub_cancel' hi] at this
  refine ⟨hinv, by omega, by omega, by omega, hdone, fun j hj hlt hne => ?_, fun j _ => ?_,
    fun h3 => ⟨by simp, ?_⟩⟩
  · rw [if_pos (by omega)]
    have := hinv.free.skiplist (binOffset + 32 + j) hlt hne
    rwa [show (binOffset + 32 + j) / 32 = skipIdx + 1 by omega,
      show (binOffset + 32 + j) % 32 = j by omega] at this
  · omega
  · rw [h3]
    exact hinv.free.skiplist_last

/-- The scan goes on with the next bit of the word. -/
theorem Scan.nextBit (h : Scan s L bins req skipIdx binOffset mask skiplist) (h0 : skiplist ≠ 0)
    (hempty : bins (binOffset + skiplist.ctz.toNat) = []) :
    Scan s L bins req skipIdx binOffset mask (skiplist &&& (skiplist - 1)) := by
  refine ⟨h.inv, h.word, h.off, h.near, h.done, fun j hj hlt hne => ?_, fun j hj => h.ge j ?_,
    fun h3 => ⟨(h.last h3).1, ?_⟩⟩
  · have hjc : j ≠ skiplist.ctz.toNat := by
      rintro rfl
      exact hne hempty
    have := h.kept j hj hlt hne
    rw [getLsbD_and_sub_one h0]
    simpa [hjc] using this
  · rw [getLsbD_and_sub_one h0] at hj
    exact (Bool.and_eq_true _ _ ▸ hj).1
  · rw [getLsbD_and_sub_one h0, (h.last h3).2, Bool.false_and]

/-- The bin of the lowest bit of the word. -/
theorem Scan.bin_lt (h : Scan s L bins req skipIdx binOffset mask skiplist) (h0 : skiplist ≠ 0) :
    binOffset + skiplist.ctz.toNat < 127 ∧ req ≤ binOffset + skiplist.ctz.toNat := by
  have hbit := BitVec.getLsbD_true_ctz_of_ne_zero h0
  have hlt := ctz_toNat_lt h0
  have hword := h.word
  have hoff := h.off
  refine ⟨?_, h.ge _ hbit⟩
  by_contra hge
  have h3 : skipIdx = 3 := by omega
  have h31 : skiplist.ctz.toNat = 31 := by omega
  rw [h31, (h.last h3).2] at hbit
  exact absurd hbit (by simp)

/-- A free region in the bin of the lowest bit is a smallest one with `n` slabs. -/
theorem Scan.best (h : Scan s L bins req skipIdx binOffset mask skiplist) (h0 : skiplist ≠ 0)
    (hreq : req = n - 1) (hf : f.n = binOffset + skiplist.ctz.toNat + 1) :
    ∀ g ∈ L, g.kind = .free → n ≤ g.n → f.n ≤ g.n := by
  intro g hg hk hn
  have hlt := (h.bin_lt h0).1
  have hoff := h.off
  obtain ⟨⟨_, hok⟩, -⟩ := h.inv.tiles.mem hg
  have hpos := hok.pos
  by_contra hcon
  have hidx := slabBinIdx_small hpos (by omega : g.n ≤ 127)
  have hmem : bins (g.n - 1) ≠ [] := List.ne_nil_of_mem
    ((h.inv.free.mem_bins (g.n - 1) g.addr (by omega)).mpr ⟨g, hg, hk, rfl, hidx⟩)
  have hge : binOffset ≤ g.n - 1 := by
    by_contra hlt'
    exact hmem (h.done _ (by omega) (by omega))
  have hbit := h.kept (g.n - 1 - binOffset) (by
    have := ctz_toNat_lt h0
    omega) (by omega) (by rwa [Nat.add_sub_cancel' hge])
  rw [if_pos (by omega), BitVec.getLsbD_false_of_lt_ctz (by omega)] at hbit
  cases hbit

/-- What the scan returns: an allocation, or nothing when all bins are empty. -/
def ScanPost (s : Heap) (L : List Region) (bins : Nat → List Nat) (n req : Nat) :
    Option Nat → Heap → Prop
  | some y, t => BestFit s L n y t
  | none, t => (∃ sk, t = { s with slabSkiplist := sk }) ∧ SlabInv t L bins ∧
      ∀ i, req ≤ i → i < 127 → bins i = []

theorem ScanPost.of_skiplist {sk : Nat → BitVec 32} {o : Option Nat}
    (h : ScanPost { s with slabSkiplist := sk } L bins n req o t) : ScanPost s L bins n req o t := by
  cases o with
  | some y => exact BestFit.of_skiplist h
  | none =>
    obtain ⟨⟨sk', rfl⟩, h⟩ := h
    exact ⟨⟨sk', rfl⟩, h⟩

theorem allocSlabScan_spec (h0 : 0 < n) (hreq : req = n - 1) (fuel : Nat) :
    ∀ (s : Heap) (skipIdx binOffset : Nat) (mask skiplist : BitVec 32),
      Scan s L bins req skipIdx binOffset mask skiplist →
      4 - skipIdx + (128 - (binOffset + scanPos skiplist)) < fuel →
      wp (allocSlabScan n req fuel skipIdx binOffset mask skiplist)
        (fun o t => ScanPost s L bins n req o t) s := by
  induction fuel with
  | zero => intro s skipIdx binOffset mask skiplist _ hlt; omega
  | succ fuel ih =>
    intro s skipIdx binOffset mask skiplist h hfuel
    have hword := h.word
    have hoff := h.off
    unfold allocSlabScan
    rw [wp_ite]
    by_cases hz : skiplist = 0
    · subst hz
      rw [if_pos rfl]
      unfold setSlabSkiplist
      simp only [wp_bind, wp_modify, wp_ite, wp_pure, wp_get, slabBinsSkiplistSz]
      by_cases hw : skipIdx + 1 = 4
      · rw [if_pos hw]
        refine ⟨⟨_, rfl⟩, h.writeBack, fun i hle hlt => ?_⟩
        by_contra hne
        rcases Nat.lt_or_ge i binOffset with hi | hi
        · exact hne (h.done i hle hi)
        · have := h.kept (i - binOffset) (by omega) (by omega) (by rwa [Nat.add_sub_cancel' hi])
          rw [if_pos (by omega)] at this
          simp at this
      · rw [if_neg hw]
        have hpos : scanPos (0 : BitVec 32) = 32 := if_pos rfl
        rw [hpos] at hfuel
        exact wp_mono (ih _ _ _ _ _ (h.nextWord hw) (by omega)) fun o t ht => ht.of_skiplist
    · rw [if_neg hz]
      obtain ⟨hlt, hge⟩ := h.bin_lt hz
      simp only [wp_bind, wp_get, wp_load64]
      refine ⟨h.inv.valid_bin (by omega), ?_⟩
      rcases hb : bins (binOffset + skiplist.ctz.toNat) with _ | ⟨y, l⟩
      · rw [h.inv.head_nil (by omega) hb]
        simp only [ne_eq, not_true_eq_false, if_false]
        refine ih s _ _ _ _ (h.nextBit hz hb) ?_
        have := scanPos_lt_clear hz
        have := scanPos_le (x := skiplist &&& (skiplist - 1))
        omega
      · obtain ⟨hhead, hne, A, f, B, rfl, hk, rfl, hidx⟩ := h.inv.head (by omega) hb
        rw [hhead]
        simp only [hne, ne_eq, not_false_eq_true, if_true, wp_ite]
        have hfpos : 0 < f.n := by
          obtain ⟨⟨_, hok⟩, -⟩ := h.inv.tiles.mem (r := f) (by simp)
          exact hok.pos
        have hfn : f.n = binOffset + skiplist.ctz.toNat + 1 := by
          rcases Nat.lt_or_ge 127 f.n with hf | hf
          · rw [slabBinIdx_large hf] at hidx
            omega
          · rw [slabBinIdx_small hfpos hf] at hidx
            omega
        rw [← hfn]
        by_cases heq : binOffset + skiplist.ctz.toNat = req
        · rw [if_pos heq]
          have hn : n = f.n := by omega
          simp only [wp_bind, wp_pure]
          have hbest := h.best (f := f) hz hreq hfn
          subst hn
          exact wp_mono (allocExact_spec h.inv hk) fun _ t ht =>
            ⟨ht.1, ⟨f, by simp, hk, rfl, le_refl _, hbest⟩, ht.2⟩
        · rw [if_neg heq, if_pos (by omega)]
          unfold setSlabSkiplist
          simp only [wp_bind, wp_modify, wp_pure]
          rw [allocSplit_small (by omega) (by omega) h0]
          exact wp_mono (allocSplit_spec h.writeBack hk h0 (by omega)) fun _ t ht =>
            ⟨ht.1.of_skiplist, ⟨f, by simp, hk, rfl, by omega, h.best hz hreq hfn⟩, ht.2⟩

/-! ## The last bin and the end of the heap -/

/-- The walk over the last bin takes the first region that is large enough. -/
theorem allocSlabLarge_spec (h : SlabInv s L bins) (h0 : 127 < n) (fuel : Nat) :
    ∀ (l₁ l₂ post : List Nat) (y : Nat), bins 127 = l₁ ++ l₂ →
      l₂ ++ [slabHd s.heap 127] = y :: post → (∀ r ∈ L, r.addr ∈ l₁ → r.n < n) →
      l₂.length < fuel → wp (allocSlabLarge (slabHd s.heap 127) n fuel y)
        (fun o t => match o with
          | some y => BestFit s L n y t
          | none => t = s ∧ ∀ r ∈ L, r.addr ∈ bins 127 → r.n < n) s := by
  induction fuel with
  | zero => intro l₁ l₂ post y _ _ _ hlen; omega
  | succ fuel ih =>
    intro l₁ l₂ post y hb hy hsmall hlen
    unfold allocSlabLarge
    rw [wp_ite]
    cases l₂ with
    | nil =>
      obtain rfl : slabHd s.heap 127 = y := (List.cons.inj hy).1
      rw [if_pos rfl]
      rw [List.append_nil] at hb
      exact wp_pure.mpr ⟨rfl, by rw [hb]; exact hsmall⟩
    | cons z l₂ =>
      obtain ⟨rfl, -⟩ := List.cons.inj hy
      have hz : z ∈ bins 127 := by rw [hb]; simp
      have hne : z ≠ slabHd s.heap 127 := by
        rintro rfl
        exact h.free.lists.layout.hd_not_node 127 (by omega)
          (h.free.lists.lists.node 127 _ (by omega) hz)
      rw [if_neg hne]
      obtain ⟨f, hf, hk, rfl, -⟩ := (h.free.mem_bins 127 z (by omega)).mp hz
      obtain ⟨⟨_, hok⟩, -, hstop⟩ := h.tiles.mem hf
      have hpos := Region.addr_lt_stop hok.pos
      have hnode := h.free.lists.lists.node 127 _ (by omega) hz
      have hbrk := h.brk
      have hbase := h.free.lists.base
      unfold SlabNode at hnode
      have hv24 : s.Valid (f.addr + 24) := ⟨by omega, by omega, by omega⟩
      simp only [wp_bind, wp_load64, wp_ite, wp_pure, hok.num_slabs hk]
      refine ⟨hv24, ?_⟩
      have hbest : ∀ g ∈ L, g.kind = .free → n ≤ g.n → f.n ≤ g.n := by
        intro g hg hkg hng
        have hgm : g.addr ∈ bins 127 := (h.free.mem_bins 127 g.addr (by omega)).mpr
          ⟨g, hg, hkg, rfl, slabBinIdx_large (by omega)⟩
        rw [hb, List.mem_append, List.mem_cons] at hgm
        have hsorted := h.free.sorted
        rw [hb, List.pairwise_append, List.pairwise_cons] at hsorted
        rcases hgm with hgm | hgm | hgm
        · have := hsmall g hg hgm
          omega
        · rw [h.tiles.eq_of_addr hg hf hgm]
        · exact hsorted.2.1.1 _ hgm f hf g hg rfl rfl
      obtain ⟨A, B, rfl⟩ := List.append_of_mem hf
      by_cases heq : f.n = n
      · rw [if_pos heq]
        subst heq
        exact wp_mono (allocExact_spec h hk) fun _ t ht =>
          ⟨ht.1, ⟨f, hf, hk, rfl, le_refl _, hbest⟩, ht.2⟩
      · rw [if_neg heq]
        by_cases hlt : n < f.n
        · rw [if_pos hlt]
          exact wp_mono (allocSplit_spec h hk (by omega) hlt) fun _ t ht =>
            ⟨ht.1, ⟨f, hf, hk, rfl, hlt.le, hbest⟩, ht.2⟩
        · rw [if_neg hlt]
          refine ⟨⟨by omega, by omega, by omega⟩, ?_⟩
          obtain ⟨pre, w, hw, -⟩ := Cells.exists_pred (slabHd s.heap 127) l₁
          obtain ⟨v, post', hv, -⟩ := Cells.exists_succ l₂ (slabHd s.heap 127)
          obtain ⟨hnext, -⟩ := h.free.lists.lists.neighbours h.free.lists.layout (by omega) hb hw hv
          rw [show s.mem (f.addr + 8) = v from hnext]
          refine ih (l₁ ++ [f.addr]) l₂ post' v (by rw [hb]; simp) hv (fun r hr hrl => ?_) ?_
          · rcases List.mem_append.mp hrl with hrl | hrl
            · exact hsmall r hr hrl
            · rw [h.tiles.eq_of_addr hr hf (List.mem_singleton.mp hrl)]
              omega
          · simp only [List.length_cons] at hlen
            omega

/-- What the search for a free region returns. -/
def SearchPost (s : Heap) (L : List Region) (bins : Nat → List Nat) (n : Nat) :
    Option Nat → Heap → Prop
  | some y, t => BestFit s L n y t
  | none, t => (∃ sk, t = { s with slabSkiplist := sk }) ∧ SlabInv t L bins ∧
      ∀ r ∈ L, r.kind = .free → r.n < n

theorem SearchPost.of_skiplist {sk : Nat → BitVec 32} {o : Option Nat}
    (h : SearchPost { s with slabSkiplist := sk } L bins n o t) : SearchPost s L bins n o t := by
  cases o with
  | some y => exact BestFit.of_skiplist h
  | none =>
    obtain ⟨⟨sk', rfl⟩, h⟩ := h
    exact ⟨⟨sk', rfl⟩, h⟩

theorem scan_start (h : SlabInv s L bins) (h0 : 0 < n) (hn : n ≤ 127) :
    Scan s L bins (n - 1) ((n - 1) / 32) (32 * ((n - 1) / 32))
      (((1#32 <<< ((n - 1) % 32)) - 1) &&& s.slabSkiplist ((n - 1) / 32))
      (s.slabSkiplist ((n - 1) / 32) ^^^
        (((1#32 <<< ((n - 1) % 32)) - 1) &&& s.slabSkiplist ((n - 1) / 32))) := by
  have hmask : ∀ j, ((1#32 <<< ((n - 1) % 32)) - 1).getLsbD j = decide (j < (n - 1) % 32) :=
    getLsbD_lowMask (Nat.mod_lt _ (by omega))
  refine ⟨h, by omega, rfl, by omega, fun i h₁ h₂ => by omega, fun j hj hlt hne => ?_,
    fun j hj => ?_, fun h3 => ?_⟩
  · have hbit := h.free.skiplist _ hlt hne
    rw [show (32 * ((n - 1) / 32) + j) / 32 = (n - 1) / 32 by omega,
      show (32 * ((n - 1) / 32) + j) % 32 = j by omega] at hbit
    simp only [BitVec.getLsbD_xor, BitVec.getLsbD_and, hmask, hbit]
    split <;> simp <;> omega
  · simp only [BitVec.getLsbD_xor, BitVec.getLsbD_and, hmask] at hj
    by_contra hlt
    have : j < (n - 1) % 32 := by omega
    simp [this] at hj
  · have := h.free.skiplist_last
    rw [h3]
    simp only [BitVec.getLsbD_xor, BitVec.getLsbD_and, this, Bool.and_false, Bool.xor_false,
      and_self]

theorem allocSlabSmall_spec (h : SlabInv s L bins) (h0 : 0 < n) (hn : n ≤ 127) :
    wp (allocSlabSmall n) (fun o t => SearchPost s L bins n o t) s := by
  unfold allocSlabSmall
  simp only [slabBinIdx_small h0 hn, slabBinSkiplistIdx, slabBinSkiplistBit]
  rw [wp_bind, wp_get, wp_bind, Nat.mul_comm ((n - 1) / 32) 32]
  refine wp_mono (allocSlabScan_spec h0 rfl _ s _ _ _ _ (scan_start h h0 hn) ?_) ?_
  · simp only [numSlabBins, slabBinsSkiplistSz]
    omega
  rintro (_ | y) t ht
  · obtain ⟨⟨sk, rfl⟩, hinv, hempty⟩ := ht
    refine wp_mono (P := fun o t => SearchPost { s with slabSkiplist := sk } L bins n o t) ?_
      fun o t ht => ht.of_skiplist
    have hsmall : ∀ r ∈ L, r.kind = .free → slabBinIdx r.n ≠ 127 → r.n < n := by
      intro r hr hk hidx
      obtain ⟨⟨_, hok⟩, -⟩ := hinv.tiles.mem hr
      have hidx' := slabBinIdx_lt r.n
      have hmem := (hinv.free.mem_bins _ r.addr hidx').mpr ⟨r, hr, hk, rfl, rfl⟩
      by_contra hge
      rcases Nat.lt_or_ge 127 r.n with hlt | hle
      · exact hidx (slabBinIdx_large hlt)
      · rw [slabBinIdx_small hok.pos hle] at hmem
        rw [hempty _ (by omega) (by omega)] at hmem
        cases hmem
    simp only [wp_bind, wp_load64, wp_ite, wp_pure, numSlabBins]
    refine ⟨hinv.valid_bin (by omega : 127 < 128), ?_⟩
    rcases hb : bins 127 with _ | ⟨y, l⟩
    · rw [if_neg (not_not.mpr (hinv.head_nil (by omega : 127 < 128) hb))]
      refine ⟨⟨sk, rfl⟩, hinv, fun r hr hk => hsmall r hr hk fun hidx => ?_⟩
      have hmem := (hinv.free.mem_bins 127 r.addr (by omega)).mpr ⟨r, hr, hk, rfl, hidx⟩
      rw [hb] at hmem
      cases hmem
    · obtain ⟨hhead, hne, A, f, B, rfl, hk, rfl, hidx⟩ := hinv.head (by omega : 127 < 128) hb
      rw [hhead, if_pos hne]
      obtain ⟨⟨_, hok⟩, -, hstop⟩ := hinv.tiles.mem (r := f) (by simp)
      have hpos := Region.addr_lt_stop hok.pos
      have hlarge := (slabBinIdx_eq_last hok.pos).mp hidx
      have hnode := hinv.free.lists.lists.node 127 f.addr (by omega) (by rw [hb]; simp)
      have hbrk := hinv.brk
      unfold SlabNode at hnode
      rw [hok.num_slabs hk]
      refine ⟨⟨by omega, by omega, by omega⟩, ?_⟩
      refine wp_mono (allocSplit_spec hinv hk h0 (by omega)) fun _ t ht =>
        ⟨ht.1, ⟨f, by simp, hk, rfl, by omega, fun g hg hkg hng => ?_⟩, ht.2⟩
      -- all regions that are large enough are in this bin, which is sorted
      have hg127 : slabBinIdx g.n = 127 := by
        by_contra hidx'
        have := hsmall g hg hkg hidx'
        omega
      have hgm := (hinv.free.mem_bins 127 g.addr (by omega)).mpr ⟨g, hg, hkg, rfl, hg127⟩
      have hsorted := hinv.free.sorted
      rw [hb] at hgm hsorted
      rcases List.mem_cons.mp hgm with hgf | hgm
      · rw [hinv.tiles.eq_of_addr hg (by simp) hgf]
      · exact (List.pairwise_cons.mp hsorted).1 _ hgm f (by simp) g hg rfl rfl
  · exact wp_pure.mpr ht

/-! ### The end of the heap -/

/-- New memory after the gap. -/
theorem Gap.extend (h : Gap s A a p b q [] bins) {e : Nat} (he : b ≤ e) (hal : e % 4096 = 0)
    (f : BitVec 32) :
    Gap { s with brk := e, heapEnd := e, flags := f } A a p e (f.getLsbD 0) [] bins := by
  have hend := h.tiling.right.1
  have hbrk := h.tiling.brk
  refine ⟨⟨rfl, h.tiling.base, h.tiling.left, h.tiling.le.trans he, hal, rfl, rfl⟩, ?_⟩
  exact h.free.congr rfl (by simp only; omega) rfl fun _ _ => rfl

/-- The last region is allocated when the flag says so. -/
theorem Gap.tailFree_eq_zero (h : Gap s L a true b q [] bins) : tailFree L = 0 := by
  rcases List.eq_nil_or_concat L with rfl | ⟨A, f, hL⟩
  · rfl
  · rw [List.concat_eq_append] at hL
    subst hL
    obtain ⟨a', p', -, -, -, -, -, hfalloc⟩ := Tiles.append_iff.mp h.tiling.left
    rw [tailFree_concat, if_neg (Region.isAlloc_eq_true.mp hfalloc)]

theorem allocSlabExtend_spec (h : SlabInv s L bins) (h0 : 0 < n)
    (hsmall : ∀ r ∈ L, r.kind = .free → r.n < n) :
    wp (allocSlabExtend n) (fun y t => Extended s L n y t) s := by
  obtain ⟨a, p, hgap⟩ := SlabInv.split (A := L) (B := []) (by simpa using h)
  obtain ⟨hend, hp⟩ := hgap.tiling.right
  have hal := hgap.tiling.aligned
  have hbrk := h.brk
  subst hend
  unfold allocSlabExtend
  simp only [wp_bind, wp_get, wp_ite]
  by_cases hzero : s.flags &&& 1 = 0
  · rw [if_pos hzero]
    have hflag : s.flags.getLsbD 0 = false := (and_one_eq_zero_iff (by omega)).mp hzero
    -- the last region is free
    rcases List.eq_nil_or_concat L with rfl | ⟨A, f, hL⟩
    · rw [hflag] at hp
      exact absurd (hgap.tiling.left.2.trans hp) (by simp)
    rw [List.concat_eq_append] at hL
    subst hL
    rw [hflag] at hp
    subst hp
    obtain ⟨a', p', hA, hfa, hok, hfc, hstop, hfalloc⟩ := Tiles.append_iff.mp hgap.tiling.left
    have hfk : f.kind = .free := Region.isAlloc_eq_false.mp hfalloc
    have hfpos := Region.addr_lt_stop hok.pos
    have hstopf : f.stop = f.addr + 4096 * f.n := rfl
    obtain ⟨a'', p'', hgapf⟩ := SlabInv.split (A := A) (B := [f]) h
    obtain ⟨hfa'', hok'', hc'', -⟩ := hgapf.tiling.drop
    have hfal := hgapf.tiling.aligned
    obtain rfl : p'' = true := by simpa [hfalloc] using hc''
    have hfooter : s.mem (s.heapEnd - 8) = f.n := by
      rw [← hstop]
      exact hok.footer hfk
    unfold prevAdjSlab
    simp only [wp_bind, wp_load64, wp_pure, hfooter, slabSize]
    refine ⟨hgapf.tiling.valid_next (by omega) (by omega) (by omega), ?_⟩
    rw [show s.heapEnd - 4096 * f.n = f.addr by omega]
    refine wp_mono (slabUnlink_gap hgapf hfk) ?_
    rintro _ _ ⟨m', bins', rfl, hgapu, hm⟩
    have hfn := hsmall f (by simp) hfk
    have h24 : m' (f.addr + 24) = f.n := by
      rw [hm _ (hgapu.not_linkWord (by omega) (by omega)), hok.num_slabs hfk]
    have hm0 : m' f.addr = s.mem f.addr := hm _ (hgapu.not_linkWord (by omega) (by omega))
    unfold memSbrk
    simp only [wp_bind, wp_mallocAssert, wp_get, wp_set, wp_pure, wp_modify, h24,
      wp_setFlag (show f.addr % 8 = 0 by omega)]
    refine ⟨hgapu.tiling.valid (by omega) (by omega) (by omega), by simpa using hfn, by simp [hbrk],
      ⟨(hgapu.tiling.valid (x := f.addr) (by omega) (by omega) (by omega)).1,
        by simp only; omega, by omega⟩, ?_⟩
    have hgape := (hgapu.extend (e := f.addr + 4096 * n) (by omega) (by omega)
      (s.flags ||| 1)).setMem (x := f.addr) (v := setBit (m' f.addr) 1) (by omega) (by omega)
    rw [show (s.flags ||| 1).getLsbD 0 = true by simp] at hgape
    have hclosed := hgape.close_raw hfa''.symm h0 ?_ ?_
    · refine ⟨⟨⟨A, [], bins', ?_, ?_⟩, ?_⟩, hsmall, ?_, by simp only [setMem_heapEnd]; omega⟩
      · convert hclosed using 1
        simp only [Heap.setMem]
        congr 1 <;> omega
      · intro r hr
        have hne : r ≠ f := fun heq => hr (heq ▸ hfk)
        simp [hne]
      · refine ⟨rfl, rfl, by simp, fun x hx => .inl ?_⟩
        have hxf : x < f.addr ∨ f.stop ≤ x := by
          by_contra hcon
          exact hx (.inl (.inr ⟨f, by simp, hfk, by omega, by omega⟩))
        simp only [setMem_mem]
        rw [Function.update_of_ne (by omega)]
        refine hm x fun hl => hx (.inl ?_)
        refine (hl.freeWord fun r hr => (hgapu.tiling.mem_outside hr).1).of_subset fun r hr => ?_
        simp only [List.append_nil] at hr
        simp [hr]
      · rw [tailFree_concat, if_pos hfk]
        omega
    · simp only [setMem_mem]
      rw [Function.update_self, testBit_setBit (by omega), show Nat.testBit 1 0 = true from rfl,
        Bool.or_true]
    · simp only [setMem_mem]
      rw [Function.update_self, testBit_setBit (by omega), hm0, hok''.prev_bit, Bool.true_or]
  · rw [if_neg hzero]
    have hflag' : s.flags.getLsbD 0 = true := by
      rw [← Bool.not_eq_false]
      exact fun hf => hzero ((and_one_eq_zero_iff (by omega)).mpr hf)
    obtain rfl : p = true := hp.trans hflag'
    unfold memSbrk
    simp only [wp_bind, wp_mallocAssert, wp_get, wp_set, wp_pure, wp_modify,
      wp_store8_flags (show s.heapEnd % 8 = 0 by omega)]
    have hge := hgap.tiling.start_ge
    refine ⟨by simp [hbrk], ⟨by simp only; omega, by simp only [slabSize]; omega, by omega⟩, ?_⟩
    have hgape := (hgap.extend (e := s.heapEnd + 4096 * n) (by omega) (by omega)
      (s.flags ||| 1)).setMem (x := s.heapEnd) (v := putField (s.mem s.heapEnd) 0 1 3) (by omega)
      (by omega)
    rw [show (s.flags ||| 1).getLsbD 0 = true by simp] at hgape
    have hclosed := hgape.close_raw rfl h0 ?_ ?_
    · refine ⟨⟨⟨L, [], bins, ?_, by simp [SameAlloc]⟩, ?_⟩, hsmall, ?_, rfl⟩
      · convert hclosed using 1
        simp only [Heap.setMem, slabSize]
        congr 1
        omega
      · refine ⟨rfl, rfl, by simp, fun x hx => .inl ?_⟩
        simp only [setMem_mem]
        exact Function.update_of_ne (fun heq => hx (.inr heq.ge)) _ _
      · rw [hgap.tailFree_eq_zero]
        rfl
    · simp only [setMem_mem]
      rw [Function.update_self, testBit_putField]
      rfl
    · simp only [setMem_mem]
      rw [Function.update_self, testBit_putField]
      rfl

/-- **`__int_alloc_slab`** takes the best fit, or extends the heap. -/
theorem _intAllocSlab_fit (h : SlabInv s L bins) (h0 : 0 < n) :
    wp (_intAllocSlab n) (fun y t => BestFit s L n y t ∨ Extended s L n y t) s := by
  unfold _intAllocSlab
  rw [wp_bind, wp_get, wp_bind]
  refine wp_mono (P := fun o t => SearchPost s L bins n o t) ?_ ?_
  · rw [wp_ite]
    by_cases hn : n ≤ maxSegSlabSz
    · rw [if_pos hn]
      exact allocSlabSmall_spec h h0 hn
    · rw [if_neg hn]
      simp only [maxSegSlabSz] at hn
      simp only [wp_bind, wp_load64, numSlabBins]
      refine ⟨h.valid_bin (by omega : 127 < 128), ?_⟩
      obtain ⟨y, post, hy, -⟩ := Cells.exists_succ (bins 127) (slabHd s.heap 127)
      have hhd := slabHd_eq (i := 127) h.free.lists.pos h.free.lists.base
      have hfirst := h.free.lists.lists.first (by omega : 127 < 128) hy
      rw [show slabCells.next (slabHd s.heap 127) = slabBin s.heap 127 by
        unfold slabBin
        simp only [slabCells]
        omega] at hfirst
      rw [show (128 - 1 : Nat) = 127 from rfl, hfirst]
      refine wp_mono (allocSlabLarge_spec h (by omega) s.walkFuel [] (bins 127) post y rfl hy (by simp)
        (h.free.lists.length_lt_walkFuel h.brk (by omega))) ?_
      rintro (_ | z) t ht
      · obtain ⟨rfl, hsmall⟩ := ht
        refine ⟨⟨t.slabSkiplist, rfl⟩, h, fun r hr hk => ?_⟩
        obtain ⟨⟨_, hok⟩, -⟩ := h.tiles.mem hr
        rcases Nat.lt_or_ge 127 r.n with hlt | hle
        · exact hsmall r hr ((h.free.mem_bins 127 r.addr (by omega)).mpr
            ⟨r, hr, hk, rfl, slabBinIdx_large hlt⟩)
        · omega
      · exact ht
  · rintro (_ | y) t ht
    · obtain ⟨⟨sk, rfl⟩, hinv, hsmall⟩ := ht
      exact wp_mono (allocSlabExtend_spec hinv h0 hsmall) fun y t ht => .inr ht.of_skiplist
    · exact wp_pure.mpr (.inl ht)

/-- **`__int_alloc_slab`** -/
theorem _intAllocSlab_spec (h : SlabInv s L bins) (h0 : 0 < n) :
    wp (_intAllocSlab n) (fun y t => Allocated s L n y t) s :=
  wp_mono (_intAllocSlab_fit h h0) fun _ _ ht => ht.elim BestFit.alloc Extended.alloc

/-- The heap does not become smaller. -/
theorem _intAllocSlab_grow (h : SlabInv s L bins) (h0 : 0 < n) :
    wp (_intAllocSlab n) (fun y t => Allocated s L n y t ∧ s.heapEnd ≤ t.heapEnd) s := by
  refine wp_mono (_intAllocSlab_fit h h0) fun y t ht => ?_
  rcases ht with ht | ht
  · exact ⟨ht.alloc, ht.heapEnd.ge⟩
  · refine ⟨ht.alloc, ?_⟩
    have hlt := tailFree_lt h0 ht.small
    have hstart := ht.start
    have hend := ht.heapEnd
    omega

end

end MallocBench.Slab
