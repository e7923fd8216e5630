import MallocBench.Slab.LargeFree

/-!
# `medium_bin_free`

The check for a large block in front of the coalescing, and the effect of the
whole function on the regions and their blocks.
-/

namespace MallocBench.Slab

open Lib

/-! ## The check for a large block -/

section

variable {strict : Prop} {w w₂ n k i j : Nat}

/-- What `alloc_bits` says about the block before. -/
theorem allocBits_prev (hi : i < 8) :
    (((BitVec.ofNat 8 (fieldOf w₂ 7 1)).setWidth 16 <<< 1) ||| 0x201#16).getLsbD i =
      (decide (i = 0) || blockAl w₂ (i - 1)) := by
  have hconst : ∀ i : Fin 8, (0x201#16).getLsbD i.val = decide (i.val = 0) := by decide
  rw [BitVec.getLsbD_or, hconst ⟨i, hi⟩, BitVec.getLsbD_shiftLeft, BitVec.getLsbD_setWidth,
    getLsbD_allocByte]
  rcases Nat.eq_zero_or_pos i with rfl | h0
  · simp
  · rw [decide_eq_true (by omega : i < 16), decide_eq_false (by omega : ¬ i < 1),
      decide_eq_true (by omega : i - 1 < 16), decide_eq_false (by omega : ¬ i = 0)]
    simp

/-- What it says about the block after. -/
theorem allocBits_next (hi : i < 8) :
    (((BitVec.ofNat 8 (fieldOf w₂ 7 1)).setWidth 16 <<< 1) ||| 0x201#16).getLsbD (i + 2) =
      (decide (i = 7) || blockAl w₂ (i + 1)) := by
  have hconst : ∀ i : Fin 8, (0x201#16).getLsbD (i.val + 2) = decide (i.val = 7) := by decide
  rw [BitVec.getLsbD_or, hconst ⟨i, hi⟩, BitVec.getLsbD_shiftLeft, BitVec.getLsbD_setWidth,
    getLsbD_allocByte, decide_eq_true (by omega : i + 2 < 16),
    decide_eq_false (by omega : ¬ i + 2 < 1), decide_eq_true (by omega : i + 2 - 1 < 16),
    show i + 2 - 1 = i + 1 by omega]
  simp [Bool.or_comm]

/-- No offset is left in the header word from byte `j` on. -/
theorem ushiftRight_eq_zero_iff (h0 : 0 < j) :
    BitVec.ofNat 64 w >>> (8 * j) = 0 ↔ ∀ j', j ≤ j' → blockOff w j' = 4096 := by
  constructor
  · intro h j' hj'
    rcases Nat.lt_or_ge j' 8 with hlt | hge
    · refine blockOff_of_byte (by omega) hlt (by decide) fun i hi => ?_
      have hbit := congrArg (·.getLsbD (8 * (j' - j) + i)) h
      simp only [BitVec.getLsbD_ushiftRight, BitVec.getLsbD_ofNat] at hbit
      rw [show 8 * j + (8 * (j' - j) + i) = 8 * j' + i by omega,
        decide_eq_true (by omega : 8 * j' + i < 64), Bool.true_and] at hbit
      rw [hbit]
      simp
    · exact blockOff_ge _ hge
  · intro h
    refine BitVec.eq_of_getLsbD_eq fun b hb => ?_
    have hbyte := testBit_offset_byte (w := w) (j := j + b / 8) (i := b % 8) (by omega)
      (Nat.mod_lt _ (by omega))
    rw [h (j + b / 8) (by omega), show 8 * (j + b / 8) + b % 8 = 8 * j + b by omega] at hbyte
    rw [BitVec.getLsbD_ushiftRight, ← hbyte]
    simp

/-- When `medium_bin_free` takes the block for a large one. -/
def TakenForLarge (off : Nat → Nat) (k i : Nat) : Prop :=
  i + 1 = k ∧ (i = 7 → off 7 = 4096)

/-- The condition of `medium_bin_free` on the shifted header word. -/
theorem takenForLarge_iff (h : BlocksOk strict (blockOff w) (blockAl w₂) n k) (hn : 0 < n)
    (hi : i < k) (h0 : w.testBit 0 = true) :
    (BitVec.ofNat 64 w >>> (8 * i) = 0 ∨ (BitVec.ofNat 64 w >>> (8 * i) >>> 8 = 0 ∧
      (((BitVec.ofNat 8 (fieldOf w₂ 7 1)).setWidth 16 <<< 1) ||| 0x201#16).getLsbD (i + 2) =
        false)) ↔ TakenForLarge (blockOff w) k i := by
  have hk8 := h.le
  rw [← BitVec.shiftRight_add, show 8 * i + 8 = 8 * (i + 1) by omega,
    ushiftRight_eq_zero_iff (by omega : 0 < i + 1), allocBits_next (by omega)]
  unfold TakenForLarge
  constructor
  · rintro (hzero | ⟨hafter, hbit⟩)
    · have hi0 : 0 < i := by
        rcases Nat.eq_zero_or_pos i with rfl | hi0
        · have hbit := congrArg (·.getLsbD 0) hzero
          simp only [BitVec.getLsbD_ushiftRight, BitVec.getLsbD_ofNat, Nat.mul_zero, Nat.add_zero,
            h0] at hbit
          cases hbit
        · exact hi0
      have hoff := (ushiftRight_eq_zero_iff hi0).mp hzero
      have := h.eq_last_of_page hi (hoff i (le_refl _))
      refine ⟨by omega, ?_⟩
      rintro rfl
      exact hoff 7 (le_refl _)
    · rw [Bool.or_eq_false_iff, decide_eq_false_iff_not] at hbit
      refine ⟨?_, fun h7 => absurd h7 hbit.1⟩
      by_contra hne
      have := h.free_size hn (by omega : i + 1 < k) hbit.2
      have := hafter (i + 1) (le_refl _)
      have := h.page' (i + 1 + 1)
      omega
  · rintro ⟨hlast, h7⟩
    by_cases hi7 : i = 7
    · left
      subst hi7
      refine (ushiftRight_eq_zero_iff (by omega)).mpr fun j hj => ?_
      rcases Nat.lt_or_ge 7 j with hlt | hge
      · exact blockOff_ge _ hlt
      · rw [show j = 7 by omega, h7 rfl]
    · right
      refine ⟨fun j hj => (h.stop j (by omega)).1, ?_⟩
      rw [decide_eq_false hi7, (h.stop (i + 1) (by omega)).2]
      rfl

/-- Whether the next block is free, as `medium_bin_free` finds out. -/
theorem isNextFree_iff (h : BlocksOk strict (blockOff w) (blockAl w₂) n k) (hn : 0 < n)
    (hi : i < k) :
    ((!(((BitVec.ofNat 8 (fieldOf w₂ 7 1)).setWidth 16 <<< 1) ||| 0x201#16).getLsbD (i + 2)) &&
      byteAt (BitVec.ofNat 64 w) ((i + 1) * 8) != 0) = true ↔
      i + 1 < k ∧ blockAl w₂ (i + 1) = false := by
  have hk8 := h.le
  have hb := blockOff_bounds w (i + 1)
  rw [allocBits_next (by omega), Nat.mul_comm (i + 1) 8, byteAt_word (by omega : 0 < i + 1),
    Bool.and_eq_true, Bool.not_eq_true', Bool.or_eq_false_iff, decide_eq_false_iff_not,
    bne_iff_ne]
  constructor
  · rintro ⟨⟨-, hal⟩, hbyte⟩
    refine ⟨?_, hal⟩
    by_contra hge
    rw [(h.stop (i + 1) (by omega)).1] at hbyte
    exact hbyte rfl
  · rintro ⟨hlt, hal⟩
    have := h.free_size hn hlt hal
    have := h.page' (i + 1 + 1)
    exact ⟨⟨by omega, hal⟩, by omega⟩

/-- Whether the previous block is free. -/
theorem isPrevFree_iff (h : BlocksOk strict (blockOff w) (blockAl w₂) n k) (hi : i < k) :
    (!(((BitVec.ofNat 8 (fieldOf w₂ 7 1)).setWidth 16 <<< 1) ||| 0x201#16).getLsbD i) = true ↔
      0 < i ∧ blockAl w₂ (i - 1) = false := by
  have hk8 := h.le
  rw [allocBits_prev (by omega), Bool.not_eq_true', Bool.or_eq_false_iff, decide_eq_false_iff_not]
  exact and_congr_left fun _ => Nat.pos_iff_ne_zero.symm

end

/-! ## Giving back the slabs of a large block -/

section

variable {s t : Heap} {A B : List Region} {r : Region} {bins mb : Nat → List Nat}
  {F G : Nat → Nat → Prop} {strict : Prop} {k i x y : Nat} {pf : Bool}

/-- The first part of an allocated region is not touched when its tail is freed. -/
theorem SlabInv.inner_head (h : SlabInv s (A ++ r :: B) bins) (h₁ : r.addr ≤ x) (h₂ : x < y)
    (h₃ : y + 4096 * k = r.stop) :
    ¬ FreeWord s.heap (A ++ ⟨y, k, .free⟩ :: B) x ∧ ¬ IsHeader B x := by
  have hge := (h.mem_facts (r := r) (by simp)).2.2.1
  constructor
  · rintro (hx | ⟨r', hm, -, hx⟩)
    · omega
    · simp only [List.mem_append, List.mem_cons] at hm
      rcases hm with hm | rfl | hm
      · have := h.addr_ne (by simp [hm] : r' ∈ A ++ B)
        omega
      · have hx₁ : y ≤ x := hx.1
        omega
      · have := h.addr_ne (by simp [hm] : r' ∈ A ++ B)
        omega
  · rintro ⟨r', hm, rfl⟩
    have hpos := Region.addr_lt_stop (h.mem_facts (r := r') (by simp [hm])).1
    have := h.addr_ne (by simp [hm] : r' ∈ A ++ B)
    omega

/-- A region of several slabs, split in two free ones. -/
theorem FreeWord.of_tail {h : Nat} {z : Nat} (hy : y + 4096 * k = r.stop) (hry : r.addr ≤ y)
    (hz : FreeWord h (A ++ ⟨y, k, .free⟩ :: B) z) :
    FreeWord h (A ++ ⟨r.addr, r.n, .free⟩ :: B) z := by
  refine hz.mono fun r' hr' hk' z h₁ h₂ => ?_
  simp only [List.mem_append, List.mem_cons] at hr'
  rcases hr' with hr' | rfl | hr'
  · exact ⟨r', by simp [hr'], hk', h₁, h₂⟩
  · have h₁' : y ≤ z := h₁
    have h₂' : z < y + 4096 * k := h₂
    refine ⟨⟨r.addr, r.n, .free⟩, by simp, rfl, ?_, ?_⟩
    · show r.addr ≤ z
      omega
    · show z < r.stop
      omega
  · exact ⟨r', by simp [hr'], hk', h₁, h₂⟩

/-- The state after the check for a large block: what is left of the region `r` is
`r'`, followed by the regions `B'`. -/
structure Opened (s : Heap) (A : List Region) (r : Region) (B : List Region)
    (F : Nat → Nat → Prop) (r' : Region) (B' : List Region) (t : Heap) : Prop where
  addr : r'.addr = r.addr
  alloc : r'.isAlloc = true
  slab : ∃ bins', SlabInv t (A ++ r' :: B') bins'
  same : SameAlloc (A ++ B) (A ++ B')
  medium : ∃ mb', MediumLists t F mb'
  header : t.mem r.addr = s.mem r.addr
  size : t.mem (r.addr + 8) % 2 ^ 56 = r'.n
  inner : ∀ x, r.addr ≤ x → x < r.addr + 4096 * r'.n → x ≠ r.addr + 8 → t.mem x = s.mem x
  frame : MemFrame (FreeWord s.heap (A ++ ⟨r.addr, r.n, .free⟩ :: B)) (IsHeader B) s t
  heapEnd : t.heapEnd = s.heapEnd
  freeWord : ∀ x, FreeWord s.heap (A ++ ⟨r'.addr, r'.n, .free⟩ :: B') x →
    FreeWord s.heap (A ++ ⟨r.addr, r.n, .free⟩ :: B) x
  isHeader : ∀ x, IsHeader B' x →
    FreeWord s.heap (A ++ ⟨r.addr, r.n, .free⟩ :: B) x ∨ IsHeader B x

theorem Opened.refl (hslab : SlabInv s (A ++ r :: B) bins) (hr : r.isAlloc = true)
    (hmed : MediumLists s F mb) (hsz : s.mem (r.addr + 8) % 2 ^ 56 = r.n) :
    Opened s A r B F r B s :=
  ⟨rfl, hr, ⟨_, hslab⟩, fun _ _ => Iff.rfl, ⟨_, hmed⟩, rfl, hsz, fun _ _ _ _ => rfl, MemFrame.refl, rfl, fun _ => id,
    fun _ => .inr⟩

/-- Freeing all slabs of a large region but the first. -/
theorem freeTail_spec (hslab : SlabInv s (A ++ r :: B) bins) (hk : r.kind = .large)
    (hmed : MediumLists s F mb) (hF : BlocksIn (A ++ r :: B) F)
    (hhead : ∀ x e, F x e → r.addr ≤ x → x < r.stop → e ≤ r.addr + 4096) (hn : 1 < r.n) :
    wp (do
        largeSlabSetSize r.addr 1
        _intFreeRemainderSlab (r.addr + slabSize) (r.n - 1)
        setFlag (r.addr + slabSize) 2)
      (fun _ t => Opened s A r B F ⟨r.addr, 1, .raw⟩ (coalesce (r.addr + 4096) (r.n - 1) B) t)
      s := by
  have hmem : r ∈ A ++ r :: B := by simp
  have hr : r.isAlloc = true := Region.isAlloc_eq_true.mpr (by rw [hk]; decide)
  obtain ⟨hpos, halign, hge, hend, -⟩ := hslab.mem_facts hmem
  have hstop : r.stop = r.addr + 4096 * r.n := rfl
  have hv : s.Valid (r.addr + 8) := hslab.valid hmem (by omega) (by omega) (by omega)
  rw [wp_bind, wp_largeSlabSetSize (by omega)]
  refine ⟨hv, ?_⟩
  -- the region is raw while its size is wrong
  have hslab₁ : SlabInv (s.setMem (r.addr + 8) (sizeWord (s.mem (r.addr + 8)) 1))
      (A ++ ⟨r.addr, r.n, .raw⟩ :: B) bins := by
    refine hslab.rewriteMem ⟨r.addr, r.n, .raw⟩ _ hr rfl rfl rfl (fun p hok => ?_)
      fun x hx => Function.update_of_ne (by omega) _ _
    refine ⟨hpos, ?_, ?_, trivial⟩
    · show (Function.update s.mem (r.addr + 8) _ r.addr).testBit 0 = true
      rw [Function.update_of_ne (by omega), hok.alloc_bit, hr]
    · show (Function.update s.mem (r.addr + 8) _ r.addr).testBit 1 = p
      rw [Function.update_of_ne (by omega), hok.prev_bit]
  have hmed₁ : MediumLists (s.setMem (r.addr + 8) (sizeWord (s.mem (r.addr + 8)) 1)) F mb := by
    refine hmed.congr (fun _ _ => Iff.rfl) rfl (le_refl _) rfl fun a ha => ?_
    refine Function.update_of_ne ?_ _ _
    rintro rfl
    exact hslab.header_not_medWord hmem hF (.inr rfl) ha
  refine wp_mono (freeRemainder_spec hslab₁ (r := ⟨r.addr, r.n, .raw⟩) (k := r.n - 1)
    (y := r.addr + 4096) rfl (.inl (by omega)) (show r.n - 1 < r.n by omega)
    (show r.addr + 4096 = r.addr + 4096 * (r.n - (r.n - 1)) by omega)) fun _ t ht => ?_
  obtain ⟨⟨bins', hslab'⟩, hframe, hend'⟩ := ht
  rw [show r.n - (r.n - 1) = 1 by omega] at hslab'
  have htail : r.addr + 4096 + 4096 * (r.n - 1) = r.stop := by omega
  -- the words of the first slab, and of other blocks, are not touched
  have hkeep : ∀ x, r.addr ≤ x → x < r.addr + 4096 →
      t.mem x = (s.setMem (r.addr + 8) (sizeWord (s.mem (r.addr + 8)) 1)).mem x := by
    intro x h₁ h₂
    obtain ⟨hf, hh⟩ := hslab.inner_head (y := r.addr + 4096) (k := r.n - 1) h₁ h₂ htail
    exact (hframe.mem x hf).resolve_right fun hc => hh hc.1
  have hkeep₀ : t.mem r.addr = s.mem r.addr := by
    rw [hkeep _ (le_refl _) (by omega)]
    exact Function.update_of_ne (by omega) _ _
  have hmed' : MediumLists t F mb := by
    refine hmed₁.congr (fun _ _ => Iff.rfl) hframe.heap hframe.brk hframe.med fun a ha => ?_
    rcases ha with hpage | ⟨x, e, hx, hxa⟩
    · have hpage' : s.heap + 2232 ≤ a ∧ a < s.heap + 4024 := hpage
      obtain ⟨h₁, h₂⟩ := hslab.inner_page (x := a) (by omega) (by omega)
      refine (hframe.mem a ?_).resolve_right fun hc => h₂ ?_
      · rintro (hx | ⟨r', hm, hk', hx⟩)
        · have hx' : s.heap ≤ a ∧ a < s.heap + 2048 := hx
          omega
        · simp only [List.mem_append, List.mem_cons] at hm
          rcases hm with hm | rfl | hm
          · exact h₁ (.inr ⟨r', by simp [hm], hk', hx⟩)
          · have hx₁ : r.addr + 4096 ≤ a := hx.1
            omega
          · exact h₁ (.inr ⟨r', by simp [hm], hk', hx⟩)
      · obtain ⟨⟨r', hm, hxr⟩, -⟩ := hc
        exact ⟨r', by simp [hm], hxr⟩
    · obtain ⟨r', hr', hk', h₁, h₂, h₃⟩ := hF x e hx
      simp only [List.mem_append, List.mem_cons] at hr'
      by_cases heq : r' = r
      · subst heq
        have := hhead x e hx (by omega) (by omega)
        exact hkeep a (by omega) (by omega)
      · have hother : r' ∈ A ++ B := by
          simp only [List.mem_append]
          tauto
        obtain ⟨hf, hh⟩ := hslab.inner_other hother hk' (x := a) (by omega) (by omega)
        refine (hframe.mem a fun hw => hf ?_).resolve_right fun hc => hh hc.1
        exact FreeWord.of_tail htail (by omega) hw
  refine ⟨rfl, rfl, ⟨_, hslab'⟩, sameAlloc_coalesce, ⟨_, hmed'⟩, hkeep₀, ?_,
    fun x h₁ h₂ h₃ => (hkeep x h₁ h₂).trans (Function.update_of_ne h₃ _ _), ?_, hend', ?_, ?_⟩
  · show t.mem (r.addr + 8) % 2 ^ 56 = 1
    rw [hkeep _ (by omega) (by omega), setMem_mem, Function.update_self, sizeWord_mod (by decide)]
  · refine MemFrame.trans (t := s.setMem (r.addr + 8) (sizeWord (s.mem (r.addr + 8)) 1)) ?_
      (hframe.memFrame.mono (fun x hx => FreeWord.of_tail htail (by omega) hx) fun _ hx => hx)
    refine MemFrame.of_mem rfl (le_refl _) fun x hx => Function.update_of_ne ?_ _ _
    rintro rfl
    exact hx (header_freeWord hpos (.inr rfl))
  · intro x hx
    have hnext : ∀ r' ∈ B.head?, r'.addr = r.addr + 4096 + 4096 * (r.n - 1) := by
      intro r' hr'
      obtain ⟨B', rfl⟩ : ∃ B', B = r' :: B' := by
        cases B with
        | nil => cases hr'
        | cons b B' =>
          obtain rfl : b = r' := by simpa using hr'
          exact ⟨B', rfl⟩
      obtain ⟨_, _, hgap⟩ := hslab.split
      rw [(hgap.tiling.drop.2.2.2).drop.1, htail]
    have hx' := FreeWord.of_coalesce (A := A ++ [⟨r.addr, 1, .free⟩]) (y := r.addr + 4096)
      (n := r.n - 1) (B := B) hnext (by simpa using hx)
    refine hx'.mono fun r' hr' hk' z h₁ h₂ => ?_
    simp only [List.mem_append, List.mem_cons, List.not_mem_nil, or_false] at hr'
    rcases hr' with (hr' | rfl) | rfl | hr'
    · exact ⟨r', by simp [hr'], hk', h₁, h₂⟩
    · refine ⟨⟨r.addr, r.n, .free⟩, by simp, rfl, h₁, ?_⟩
      have h₂' : z < r.addr + 4096 * 1 := h₂
      show z < r.stop
      omega
    · have h₁' : r.addr + 4096 ≤ z := h₁
      have h₂' : z < r.addr + 4096 + 4096 * (r.n - 1) := h₂
      refine ⟨⟨r.addr, r.n, .free⟩, by simp, rfl, ?_, ?_⟩
      · show r.addr ≤ z
        omega
      · show z < r.stop
        omega
    · exact ⟨r', by simp [hr'], hk', h₁, h₂⟩
  · rintro x ⟨r', hr', rfl⟩
    by_cases haddr : r'.addr = r.addr + 4096
    · left
      refine .inr ⟨⟨r.addr, r.n, .free⟩, by simp, rfl, ?_, ?_⟩
      · show r.addr ≤ r'.addr
        omega
      · show r'.addr < r.stop
        omega
    · right
      refine ⟨r', ?_, rfl⟩
      cases B with
      | nil =>
        rw [coalesce_nil, List.mem_singleton] at hr'
        exact absurd (by rw [hr']) haddr
      | cons b B' =>
        by_cases hb : b.kind = .free
        · rw [coalesce_free hb] at hr'
          rcases List.mem_cons.mp hr' with rfl | hr'
          · exact absurd rfl haddr
          · exact List.mem_cons_of_mem _ hr'
        · rw [coalesce_alloc hb] at hr'
          rcases List.mem_cons.mp hr' with rfl | hr'
          · exact absurd rfl haddr
          · exact hr'

end

end MallocBench.Slab
