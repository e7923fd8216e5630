import MallocBench.Slab.SlabSteps

/-!
# Giving slabs back

The specifications of `__int_free_remainder_slab` and `__int_free_slab`: the
slabs given back become a free region, merged with the free regions on either
side.
-/

namespace MallocBench.Slab

open Lib

/-- The words of the slab bins and of the free regions among `L`. -/
def FreeWord (h : Nat) (L : List Region) (x : Nat) : Prop :=
  (h ≤ x ∧ x < h + 2048) ∨ ∃ r ∈ L, r.kind = .free ∧ r.addr ≤ x ∧ x < r.stop

/-- `n` slabs at `y` become free in front of the regions `B`. -/
def coalesce (y n : Nat) : List Region → List Region
  | [] => [⟨y, n, .free⟩]
  | r :: B => if r.kind = .free then ⟨y, n + r.n, .free⟩ :: B else ⟨y, n, .free⟩ :: r :: B

theorem coalesce_nil {y n : Nat} : coalesce y n [] = [⟨y, n, .free⟩] := rfl

theorem coalesce_free {y n : Nat} {r : Region} {B : List Region} (h : r.kind = .free) :
    coalesce y n (r :: B) = ⟨y, n + r.n, .free⟩ :: B := if_pos h

theorem coalesce_alloc {y n : Nat} {r : Region} {B : List Region} (h : r.kind ≠ .free) :
    coalesce y n (r :: B) = ⟨y, n, .free⟩ :: r :: B := if_neg h

section

variable {s t : Heap} {A B : List Region} {a b y k n : Nat} {p q : Bool} {r : Region}
  {bins : Nat → List Nat}

/-- Words of the gap that are not the links of `r` are no links. -/
theorem Tiling.not_linkWord_cons (h : Tiling s A a p b q B) {x : Nat} (h₁ : a ≤ x) (h₂ : x < b)
    (h8 : x ≠ r.addr + 8) (h16 : x ≠ r.addr + 16) : ¬ LinkWord s.heap (A ++ r :: B) x := by
  have hge := h.start_ge
  rintro (hx | ⟨r', hr', -, hx⟩)
  · omega
  · have hcase : r' = r ∨ r' ∈ A ++ B := by
      rcases List.mem_append.mp hr' with hm | hm
      · exact .inr (List.mem_append_left _ hm)
      · exact (List.mem_cons.mp hm).imp_right (List.mem_append_right _)
    rcases hcase with rfl | hr'
    · omega
    · obtain ⟨hn, -, -, -, hout⟩ := h.mem_outside hr'
      have := Region.addr_lt_stop hn
      omega

theorem LinkWord.freeWord {h : Nat} {L : List Region} {x : Nat} (hL : ∀ r ∈ L, 0 < r.n)
    (hx : LinkWord h L x) : FreeWord h L x := by
  rcases hx with hx | ⟨r, hr, hk, hx⟩
  · exact .inl hx
  · have := Region.addr_lt_stop (hL r hr)
    exact .inr ⟨r, hr, hk, by omega, by omega⟩

theorem FreeWord.mono {h : Nat} {L L' : List Region} {x : Nat} (hx : FreeWord h L x)
    (hL : ∀ r ∈ L, r.kind = .free → ∀ z, r.addr ≤ z → z < r.stop →
      ∃ r' ∈ L', r'.kind = .free ∧ r'.addr ≤ z ∧ z < r'.stop) : FreeWord h L' x := by
  rcases hx with hx | ⟨r, hr, hk, hx₁, hx₂⟩
  · exact .inl hx
  · exact .inr (hL r hr hk x hx₁ hx₂)

theorem FreeWord.of_subset {h : Nat} {L L' : List Region} {x : Nat} (hx : FreeWord h L x)
    (hL : ∀ r ∈ L, r ∈ L') : FreeWord h L' x :=
  hx.mono fun r hr hk _ h₁ h₂ => ⟨r, hL r hr, hk, h₁, h₂⟩

/-- Merging does not add words to the free regions. -/
theorem FreeWord.of_coalesce {h : Nat} {x : Nat} (hB : ∀ r ∈ B.head?, r.addr = y + 4096 * n)
    (hx : FreeWord h (A ++ coalesce y n B) x) : FreeWord h (A ++ ⟨y, n, .free⟩ :: B) x := by
  refine hx.mono fun r hr hk z h₁ h₂ => ?_
  rcases List.mem_append.mp hr with hr | hr
  · exact ⟨r, List.mem_append_left _ hr, hk, h₁, h₂⟩
  · cases B with
    | nil => exact ⟨r, List.mem_append_right _ hr, hk, h₁, h₂⟩
    | cons f B =>
      have hf : f.addr = y + 4096 * n := hB f (by simp)
      by_cases hfk : f.kind = .free
      · rw [coalesce_free hfk] at hr
        rcases List.mem_cons.mp hr with rfl | hr
        · simp only [Region.stop] at h₁ h₂
          rcases Nat.lt_or_ge z f.addr with hz | hz
          · exact ⟨⟨y, n, .free⟩, by simp, rfl, h₁, by simp only [Region.stop]; omega⟩
          · exact ⟨f, by simp, hfk, hz, by unfold Region.stop; omega⟩
        · exact ⟨r, by simp [hr], hk, h₁, h₂⟩
      · rw [coalesce_alloc hfk] at hr
        exact ⟨r, List.mem_append_right _ hr, hk, h₁, h₂⟩

/-! ## Merging with what follows -/

/-- There are slabs to free, or a free region to relink. -/
def SomeFree (n : Nat) (B : List Region) : Prop := 0 < n ∨ ∃ f ∈ B.head?, f.kind = .free

/-- The slabs at `y` are in the lists as a free region, merged with a free
successor; all of the header but the previous-alloc bit is right. -/
structure Freed (s : Heap) (A : List Region) (a y n : Nat) (B : List Region) (prev : Bool)
    (t : Heap) : Prop where
  first : FreeWord s.heap (A ++ ⟨y, n, .free⟩ :: B) y
  linked : ∃ r B' bins', coalesce y n B = r :: B' ∧ r.kind = .free ∧ r.addr = y ∧
    Linked t A a true r.stop false B' r bins' ∧
    (t.mem y).testBit 0 = false ∧ (t.mem y).testBit 1 = prev ∧
    t.mem (y + 24) = r.n ∧ t.mem (r.stop - 8) = r.n ∧ 0 < r.n
  frame : Frame (FreeWord s.heap (A ++ ⟨y, n, .free⟩ :: B)) (IsHeader B) s t
  heapEnd : t.heapEnd = s.heapEnd

/-- The region is linked and its header written. -/
theorem linkHeader_gap (h : Gap s A a true b false B bins) {f : Nat} (hay : a ≤ y) (hn : 0 < n)
    (hyb : y + 4096 * n = b) (hal : y % 4096 = 0) :
    wp (do slabLink y n; store8 y f; store64 (y + 24) n; store64 (b - 8) n)
      (fun _ t => (∃ bins', Linked t A a true b false B ⟨y, n, .free⟩ bins') ∧
        (t.mem y).testBit 0 = f.testBit 0 ∧ (t.mem y).testBit 1 = f.testBit 1 ∧
        t.mem (y + 24) = n ∧ t.mem (b - 8) = n ∧
        Frame (FreeWord s.heap (A ++ ⟨y, n, .free⟩ :: B)) (fun _ => False) s t ∧
        t.heapEnd = s.heapEnd) s := by
  rw [wp_bind]
  refine wp_mono (slabLink_gap h hay hn hyb hal) ?_
  rintro _ _ ⟨m', sk, bins', rfl, hlinked, hm⟩
  have hpos : ∀ r ∈ A ++ ⟨y, n, .free⟩ :: B, 0 < r.n := by
    intro r hr
    rcases List.mem_append.mp hr with hr | hr
    · exact (h.tiling.mem_outside (List.mem_append_left _ hr)).1
    · rcases List.mem_cons.mp hr with rfl | hr
      · exact hn
      · exact (h.tiling.mem_outside (List.mem_append_right _ hr)).1
  simp only [wp_bind, wp_store8_flags (show y % 8 = 0 by omega), wp_store64, setMem_valid]
  refine ⟨h.tiling.valid hay (by omega) (by omega), h.tiling.valid (by omega) (by omega) (by omega),
    h.tiling.valid (by omega) (by omega) (by omega), ⟨bins', ?_⟩, ?_, ?_, ?_, ?_, ?_, rfl⟩
  · exact ((hlinked.setMem hay (by omega) (by simp) (by simp)).setMem (by omega) (by omega)
      (by simp) (by simp)).setMem (by omega) (by omega)
      (show b - 8 ≠ y + 8 by omega) (show b - 8 ≠ y + 16 by omega)
  · simp only [setMem_mem]
    rw [Function.update_of_ne (by omega), Function.update_of_ne (by omega), Function.update_self,
      testBit_putField]
    simp
  · simp only [setMem_mem]
    rw [Function.update_of_ne (by omega), Function.update_of_ne (by omega), Function.update_self,
      testBit_putField]
    simp
  · simp only [setMem_mem]
    rw [Function.update_of_ne (by omega), Function.update_self]
  · exact Function.update_self _ _ _
  · refine ⟨rfl, rfl, le_refl _, fun x hx => .inl ?_⟩
    have hxy : x < y ∨ b ≤ x := by
      by_contra hcon
      exact hx (.inr ⟨⟨y, n, .free⟩, by simp, rfl, by simp only; omega,
        by simp only [Region.stop]; omega⟩)
    rw [setMem_mem, setMem_mem, setMem_mem, Function.update_of_ne (by omega),
      Function.update_of_ne (by omega), Function.update_of_ne (by omega)]
    exact hm x fun hl => hx (hl.freeWord hpos)

/-- What follows the gap after a free successor has been taken into it. -/
def Absorbed (s : Heap) (A : List Region) (a y n : Nat) (B : List Region) (n' next : Nat)
    (t : Heap) : Prop :=
  0 < n' ∧ next = y + 4096 * n' ∧ ∃ B' bins', coalesce y n B = ⟨y, n', .free⟩ :: B' ∧
    Gap t A a true next false B' bins' ∧
    Frame (FreeWord s.heap (A ++ ⟨y, n, .free⟩ :: B)) (IsHeader B) s t ∧ t.heapEnd = s.heapEnd

theorem SomeFree.first (hn : SomeFree n B) {h : Nat}
    (hB : ∀ r ∈ B.head?, r.addr = y + 4096 * n ∧ 0 < r.n) :
    FreeWord h (A ++ ⟨y, n, .free⟩ :: B) y := by
  rcases Nat.eq_zero_or_pos n with rfl | h0
  · obtain ⟨f, hf, hk⟩ := hn.resolve_left (lt_irrefl 0)
    obtain ⟨haddr, hpos⟩ := hB f hf
    obtain ⟨B', rfl⟩ : ∃ B', B = f :: B' := by
      cases B with
      | nil => cases hf
      | cons g B' => exact ⟨B', by rw [Option.mem_some_iff.mp hf]⟩
    have := Region.addr_lt_stop hpos
    exact .inr ⟨f, by simp, hk, by omega, by omega⟩
  · exact .inr ⟨⟨y, n, .free⟩, by simp, rfl, le_refl _, by simp only [Region.stop]; omega⟩

theorem freeSlabWithNext_gap (h : Gap s A a true b true B bins) {f : Nat} (hay : a ≤ y)
    (hn : SomeFree n B) (hyb : y + 4096 * n = b) (hal : y % 4096 = 0) (hf : f.testBit 0 = false) :
    wp (freeSlabWithNext y f n b) (fun _ t => Freed s A a y n B (f.testBit 1) t) s := by
  have hhead : ∀ r ∈ B.head?, r.addr = y + 4096 * n ∧ 0 < r.n := by
    intro r hr
    cases B with
    | nil => cases hr
    | cons f B =>
      obtain rfl : f = r := by simpa using hr
      rw [hyb]
      exact ⟨h.tiling.drop.1, h.tiling.drop.2.1.pos⟩
  have hsub : ∀ x, FreeWord s.heap (A ++ coalesce y n B) x →
      FreeWord s.heap (A ++ ⟨y, n, .free⟩ :: B) x :=
    fun x => FreeWord.of_coalesce fun r hr => (hhead r hr).1
  unfold freeSlabWithNext
  rw [wp_bind, wp_get, wp_bind]
  refine wp_mono (P := fun r t => Absorbed s A a y n B r.1 r.2 t) ?_ ?_
  · rw [wp_ite]
    rcases h.tiling.end_cases with ⟨hb, rfl, -⟩ | ⟨hb, r, B', rfl, rfl⟩
    · rw [if_pos hb]
      simp only [wp_bind, wp_set, wp_pure]
      have hflag : (s.flags &&& ~~~1#32).getLsbD 0 = false := by simp
      have hgap := h.setFlags (f := s.flags &&& ~~~1#32)
      rw [hflag] at hgap
      exact ⟨hn.resolve_right (by simp), hyb.symm, [], bins, rfl, hgap, ⟨rfl, rfl, le_refl _, fun _ _ => .inl rfl⟩, rfl⟩
    · rw [if_neg hb]
      obtain ⟨-, hok, -, -⟩ := h.tiling.drop
      have hral := h.tiling.aligned
      have hpos := Region.addr_lt_stop hok.pos
      simp only [wp_bind, wp_slabIsFree (show r.addr % 8 = 0 by omega), wp_ite]
      refine ⟨h.tiling.valid_first (by omega), ?_⟩
      rw [hok.alloc_bit]
      by_cases hk : r.kind = .free
      · have hfalse : r.isAlloc = false := Region.isAlloc_eq_false.mpr hk
        simp only [hfalse, Bool.not_false, if_true, wp_load64, wp_pure]
        refine wp_mono (slabUnlink_gap h hk) ?_
        rintro _ _ ⟨m', bins', rfl, hgap, hm⟩
        refine ⟨h.tiling.valid_next (by omega) (by omega) (by omega), ?_⟩
        have h24 : m' (r.addr + 24) = r.n := by
          rw [hm _ (hgap.not_linkWord (by have := h.tiling.le; omega) (by omega)),
            hok.num_slabs hk]
        have hstop : r.stop = r.addr + 4096 * r.n := rfl
        simp only [h24, slabSize]
        have hco : coalesce y n (r :: B') = ⟨y, n + r.n, .free⟩ :: B' := coalesce_free hk
        refine ⟨by omega, by omega, B', bins', hco, hgap, ⟨rfl, rfl, le_refl _, fun x hx => ?_⟩,
          rfl⟩
        refine .inl (hm x fun hl => hx ?_)
        refine (hl.freeWord fun r' hr' => (hgap.tiling.mem_outside hr').1).of_subset ?_
        intro r' hr'
        rcases List.mem_append.mp hr' with hm | hm
        · exact List.mem_append_left _ hm
        · exact List.mem_append_right _ (by simp [hm])
      · have htrue : r.isAlloc = true := Region.isAlloc_eq_true.mpr hk
        simp only [htrue, Bool.not_true, Bool.false_eq_true, if_false, wp_pure]
        refine wp_mono (clearFlag_gap h htrue) ?_
        rintro _ t ⟨hgap, hfr, hend⟩
        have hco : coalesce y n (r :: B') = ⟨y, n, .free⟩ :: r :: B' := coalesce_alloc hk
        exact ⟨hn.resolve_right (by simpa using hk), hyb.symm, r :: B', bins, hco, hgap,
          hfr.mono (fun _ => False.elim) (fun _ => id), hend⟩
  · rintro ⟨n', next⟩ s₁ ⟨hn', hnext, B', bins₁, hco, hgap, hframe, hend⟩
    simp only at hn' hnext hco hgap
    subst hnext
    refine wp_mono (linkHeader_gap hgap hay hn' rfl hal) ?_
    rintro _ t ⟨⟨bins', hl⟩, h0, h1, h24, h8, hfr, hend'⟩
    refine ⟨hn.first hhead, ⟨⟨y, n', .free⟩, B', bins', hco, rfl, rfl, hl, ?_, h1, h24, h8, hn'⟩, ?_,
      hend'.trans hend⟩
    · rw [h0, hf]
    · refine hframe.trans (hfr.mono (fun x hx => hsub x ?_) fun _ => False.elim)
      rw [hco, ← hframe.heap]
      exact hx

/-- With the previous-alloc bit right, the freed slabs are part of the tiling. -/
theorem Freed.close (h : Freed s A a y n B true t) (hay : a ≤ y) (hal : y % 4096 = 0) :
    ∃ bins', Gap t A a true y true (coalesce y n B) bins' := by
  obtain ⟨r, B', bins', hco, hk, rfl, hl, h0, h1, h24, h8, hn⟩ := h.linked
  rw [hco]
  refine ⟨bins', hl.close hk hay hal ⟨hn, ?_, h1, ?_⟩⟩
  · rw [h0, Region.isAlloc_eq_false.mpr hk]
  · rw [hk]
    exact ⟨h24, h8⟩

/-- The caller of `__int_free_remainder_slab` sets the previous-alloc bit. -/
theorem Freed.setFlag {f : Bool} (h : Freed s A a y n B f t) (hay : a ≤ y) (hal : y % 4096 = 0) :
    wp (setFlag y 2) (fun _ u => (∃ bins', Gap u A a true y true (coalesce y n B) bins') ∧
      Frame (FreeWord s.heap (A ++ ⟨y, n, .free⟩ :: B)) (IsHeader B) s u ∧
      u.heapEnd = s.heapEnd) t := by
  obtain ⟨r, B', bins', hco, hk, rfl, hl, h0, h1, h24, h8, hn⟩ := h.linked
  have hpos := Region.addr_lt_stop hn
  rw [wp_setFlag (by omega), hco]
  refine ⟨hl.tiling.valid hay (by omega) (by omega), ⟨bins', ?_⟩, ?_, h.heapEnd⟩
  · refine (hl.setMem hay (by omega) (by omega) (by omega)).close hk hay hal ⟨hn, ?_, ?_, ?_⟩
    · rw [setMem_mem, Function.update_self, testBit_setBit (by omega), h0,
        Region.isAlloc_eq_false.mpr hk]
      decide
    · rw [setMem_mem, Function.update_self, testBit_setBit (by omega),
        show Nat.testBit 2 1 = true from rfl, Bool.or_true]
    · rw [hk]
      constructor
      · rw [setMem_mem, Function.update_of_ne (by omega), h24]
      · rw [setMem_mem, Function.update_of_ne (by omega), h8]
  · refine h.frame.trans ⟨rfl, rfl, le_refl _, fun x hx => .inl ?_⟩
    refine Function.update_of_ne ?_ _ _
    rintro rfl
    exact hx h.first

/-! ## `__int_free_remainder_slab` and `__int_free_slab` -/

theorem testBit_and_fe (f : Nat) :
    (f &&& 0xfe).testBit 0 = false ∧ (f &&& 0xfe).testBit 1 = f.testBit 1 := by
  rw [Nat.testBit_and, Nat.testBit_and, show Nat.testBit 0xfe 0 = false from rfl,
    show Nat.testBit 0xfe 1 = true from rfl]
  simp

/-- **`__int_free_remainder_slab`** on the slabs at the end of the gap. -/
theorem _intFreeRemainderSlab_gap (h : Gap s A a true b true B bins) (hay : a ≤ y)
    (hn : SomeFree n B) (hyb : y + 4096 * n = b) (hal : y % 4096 = 0) :
    wp (_intFreeRemainderSlab y n) (fun _ t => ∃ f, Freed s A a y n B f t) s := by
  unfold _intFreeRemainderSlab
  rw [wp_bind, wp_load8_flags (by omega), show y + slabSize * n = b from hyb]
  refine ⟨?_, wp_mono (freeSlabWithNext_gap h hay hn hyb hal (testBit_and_fe _).1)
    fun _ t ht => ⟨_, ht⟩⟩
  rcases Nat.eq_zero_or_pos n with rfl | h0
  · cases B with
    | nil => exact absurd hn (by simp [SomeFree])
    | cons f B =>
      have haddr := h.tiling.drop.1
      rw [show y = f.addr by omega]
      exact h.tiling.valid_first (by omega)
  · exact h.tiling.valid hay (by omega) (by omega)

/-- The allocated regions of `L'` are those of `L`. -/
def SameAlloc (L L' : List Region) : Prop :=
  ∀ r, r.kind ≠ .free → (r ∈ L' ↔ r ∈ L)

theorem sameAlloc_coalesce : SameAlloc (A ++ B) (A ++ coalesce y n B) := by
  intro r hr
  have hne : ∀ m, r ≠ ⟨y, m, .free⟩ := by
    rintro m rfl
    exact hr rfl
  cases B with
  | nil => simp [coalesce_nil, hne]
  | cons f B =>
    by_cases hk : f.kind = .free
    · have hnf : r ≠ f := fun heq => hr (heq ▸ hk)
      simp [coalesce_free hk, hne, hnf]
    · simp [coalesce_alloc hk, hne]

/-- **`__int_free_slab`** on a whole allocated region. -/
theorem _intFreeSlab_spec (h : SlabInv s (A ++ r :: B) bins) (hr : r.isAlloc = true) :
    wp (_intFreeSlab r.addr r.n) (fun _ t => (∃ L' bins', SlabInv t L' bins' ∧
        SameAlloc (A ++ B) L') ∧
      Frame (FreeWord s.heap (A ++ ⟨r.addr, r.n, .free⟩ :: B)) (IsHeader B) s t ∧
      t.heapEnd = s.heapEnd) s := by
  obtain ⟨a, p, hgap⟩ := h.split
  have hal := hgap.tiling.start_aligned
  obtain ⟨rfl, hok, hgap'⟩ := hgap.drop_alloc hr
  have hpos := Region.addr_lt_stop hok.pos
  unfold _intFreeSlab
  rw [wp_bind, wp_load8_flags (by omega)]
  refine ⟨hgap.tiling.valid_first (by omega), ?_⟩
  have hprev : (fieldOf (s.mem r.addr) 0 1).testBit 1 = p := by
    rw [testBit_fieldOf, ← hok.prev_bit]
    simp
  rw [wp_ite, hprev]
  cases p with
  | true =>
    rw [if_pos rfl]
    refine wp_mono (freeSlabWithNext_gap hgap' (le_refl _) (.inl hok.pos) rfl hal
      (testBit_and_fe _).1) ?_
    rintro _ t hfreed
    rw [(testBit_and_fe _).2, hprev] at hfreed
    obtain ⟨bins', hclose⟩ := hfreed.close (le_refl _) hal
    exact ⟨⟨_, bins', hclose.join, sameAlloc_coalesce⟩, hfreed.frame, hfreed.heapEnd⟩
  | false =>
    rw [if_neg (by simp)]
    -- the region before is free
    rcases List.eq_nil_or_concat A with rfl | ⟨A', f, rfl⟩
    · exact absurd hgap.tiling.left.2 (by simp)
    rw [List.concat_eq_append] at *
    obtain ⟨a', p', hA', hfa, hfok, hfc, hstop, hfalloc⟩ := Tiles.append_iff.mp hgap.tiling.left
    have hfk : f.kind = .free := Region.isAlloc_eq_false.mp hfalloc
    obtain rfl : p' = true := by simpa [hfalloc] using hfc
    have hfpos := Region.addr_lt_stop hfok.pos
    have hstopf : f.stop = f.addr + 4096 * f.n := rfl
    obtain ⟨a'', p'', hgapf⟩ := SlabInv.split (A := A') (B := f :: r :: B)
      (by simpa using h)
    obtain ⟨hfa'', hfok'', -⟩ := hgapf.tiling.drop
    have hfal := hgapf.tiling.aligned
    obtain rfl : p'' = true := hfok''.prev_bit.symm.trans hfok.prev_bit
    have hfooter : s.mem (r.addr - 8) = f.n := by
      rw [← hstop]
      exact hfok.footer hfk
    have hf0 : (s.mem f.addr).testBit 0 = false := by rw [hfok.alloc_bit, hfalloc]
    have hf1 : (s.mem f.addr).testBit 1 = true := hfok.prev_bit
    unfold prevAdjSlab
    simp only [wp_bind, wp_load64, wp_pure, hfooter, slabSize]
    refine ⟨hgapf.tiling.valid_next (by omega) (by omega) (by omega), ?_⟩
    rw [show r.addr - 4096 * f.n = f.addr by omega]
    refine wp_mono (slabUnlink_gap hgapf hfk) ?_
    rintro _ _ ⟨m', bins', rfl, hgapu, hm⟩
    obtain ⟨-, -, hgapd⟩ := hgapu.drop_alloc hr
    have hkeep : ∀ x, a'' ≤ x → x < f.stop → m' x = s.mem x := fun x h₁ h₂ =>
      hm x (hgapu.not_linkWord h₁ h₂)
    rw [wp_load8_flags (by omega)]
    refine ⟨hgapu.tiling.valid (by omega) (by omega) (by omega),
      hgapu.tiling.valid (by omega) (by omega) (by omega), ?_⟩
    simp only
    rw [hkeep _ (by omega) (by omega), hkeep _ (by omega) (by omega), hfok.num_slabs hfk,
      show r.addr + 4096 * r.n = r.stop from rfl]
    have hrpos := hok.pos
    have hstopr : r.stop = r.addr + 4096 * r.n := rfl
    refine wp_mono (freeSlabWithNext_gap hgapd (by omega) (.inl (by omega)) (by omega) (by omega) ?_)
      ?_
    · rw [testBit_fieldOf]
      simpa using hf0
    · rintro _ t hfreed
      rw [testBit_fieldOf, show (s.mem f.addr).testBit (8 * 0 + 1) = true from hf1] at hfreed
      obtain ⟨bins₂, hclose⟩ := hfreed.close (by omega) (by omega)
      rw [← hfa''] at hclose
      refine ⟨⟨_, bins₂, hclose.join, ?_⟩, ?_, hfreed.heapEnd⟩
      · intro r' hr'
        have hne : r' ≠ f := fun heq => hr' (heq ▸ hfk)
        rw [sameAlloc_coalesce r' hr']
        simp [hne]
      · have hfree : ∀ x, FreeWord s.heap (A' ++ ⟨f.addr, r.n + f.n, .free⟩ :: B) x →
            FreeWord s.heap ((A' ++ [f]) ++ ⟨r.addr, r.n, .free⟩ :: B) x := by
          intro x hx
          refine hx.mono fun r' hr' hk' z h₁ h₂ => ?_
          rcases List.mem_append.mp hr' with hm | hm
          · exact ⟨r', by simp [hm], hk', h₁, h₂⟩
          · rcases List.mem_cons.mp hm with rfl | hm
            · simp only [Region.stop] at h₁ h₂
              rcases Nat.lt_or_ge z r.addr with hz | hz
              · exact ⟨f, by simp, hfk, h₁, by omega⟩
              · exact ⟨⟨r.addr, r.n, .free⟩, by simp, rfl, hz, by simp only [Region.stop]; omega⟩
            · exact ⟨r', by simp [hm], hk', h₁, h₂⟩
        have hunlink : Frame (FreeWord s.heap ((A' ++ [f]) ++ ⟨r.addr, r.n, .free⟩ :: B))
            (IsHeader B) s { s with mem := m' } := by
          refine ⟨rfl, rfl, le_refl _, fun x hx => .inl (hm x fun hl => hx ?_)⟩
          refine (hl.freeWord fun r' hr' => (hgapu.tiling.mem_outside hr').1).mono ?_
          intro r' hr' hk' z h₁ h₂
          rcases List.mem_append.mp hr' with hm | hm
          · exact ⟨r', by simp [hm], hk', h₁, h₂⟩
          · rcases List.mem_cons.mp hm with rfl | hm
            · exact absurd hk' (Region.isAlloc_eq_true.mp hr)
            · exact ⟨r', by simp [hm], hk', h₁, h₂⟩
        exact hunlink.trans (hfreed.frame.mono hfree fun _ => id)

/-- **`__int_free_remainder_slab`** on the last `k` slabs of an allocated region,
with the caller's fix-up of the previous-alloc bit; the size of what is left is
still to be written. -/
theorem freeRemainder_spec (h : SlabInv s (A ++ r :: B) bins) (hr : r.isAlloc = true)
    (hk : SomeFree k B) (hkn : k < r.n) (hy : y = r.addr + 4096 * (r.n - k)) :
    wp (do _intFreeRemainderSlab y k; setFlag y 2)
      (fun _ t => (∃ bins', SlabInv t (A ++ ⟨r.addr, r.n - k, .raw⟩ :: coalesce y k B) bins') ∧
        Frame (FreeWord s.heap (A ++ ⟨y, k, .free⟩ :: B)) (IsHeader B) s t ∧
        t.heapEnd = s.heapEnd) s := by
  obtain ⟨a, p, hgap⟩ := h.split
  obtain ⟨rfl, -⟩ := hgap.tiling.drop
  have hal := hgap.tiling.start_aligned
  have htr := hgap.truncate hr (j := r.n - k) (by omega) (by omega)
  rw [← hy] at htr
  have hstop : r.stop = r.addr + 4096 * r.n := rfl
  rw [wp_bind]
  refine wp_mono (_intFreeRemainderSlab_gap htr (le_refl _) hk (by omega) (by omega)) ?_
  rintro _ t ⟨f, hfreed⟩
  refine wp_mono (hfreed.setFlag (le_refl _) (by omega)) ?_
  rintro _ u ⟨⟨bins', hgap'⟩, hframe, hend⟩
  refine ⟨⟨bins', by simpa using hgap'.join⟩, hframe.mono (fun x hx => ?_) fun _ => id, hend⟩
  refine hx.mono fun r' hr' hk' z h₁ h₂ => ?_
  have hne : r' ≠ ⟨r.addr, r.n - k, .raw⟩ := by
    rintro rfl
    cases hk'
  refine ⟨r', ?_, hk', h₁, h₂⟩
  simpa [hne] using hr'

end

end MallocBench.Slab
