import MallocBench.Slab.Blocks
import MallocBench.Slab.SlabSteps

/-!
# The header words of a large region

What `mm.c` computes from the two header words, in terms of `blockOff` and
`blockAl`, and what its updates of the words do to the blocks. All equalities are
shown bit by bit.
-/

namespace MallocBench.Slab

open Lib

/-! ## Reading -/

section

variable {w w' i j k n : Nat}

theorem testBit_byteAt (v : BitVec 64) (k i : Nat) :
    (byteAt v k).testBit i = (decide (i < 8) && v.getLsbD (k + i)) := by
  show ((v >>> k) &&& 0xff#64).getLsbD i = _
  rw [BitVec.getLsbD_and, BitVec.getLsbD_ushiftRight, Bool.and_comm]
  congr 1
  show (255 % 2 ^ 64).testBit i = _
  rw [show (255 : Nat) % 2 ^ 64 = 2 ^ 8 - 1 from rfl, Nat.testBit_two_pow_sub_one]

/-- A byte is zero when its bits are. -/
theorem adjOffset_eq {b : Nat} (hb : b < 256) : adjOffset (b * 16) / 16 % 256 = b := by
  unfold adjOffset
  split
  · show 4096 / 16 % 256 = b
    omega
  · omega

theorem fieldOf_lt (w k : Nat) : fieldOf w k 1 < 256 := by
  unfold fieldOf
  omega

/-- The offset byte of block `j`, in terms of its offset. -/
theorem fieldOf_offset (h0 : 0 < j) (hj : j < 8) : fieldOf w j 1 = blockOff w j / 16 % 256 := by
  unfold blockOff
  rw [if_neg (by omega), if_pos hj, adjOffset_eq (fieldOf_lt w j)]

theorem blockOff_bounds (w j : Nat) : 16 ≤ blockOff w j ∧ blockOff w j ≤ 4096 ∧
    blockOff w j % 16 = 0 := by
  have := fieldOf_lt w j
  unfold blockOff adjOffset
  split
  · decide
  · split
    · split
      · decide
      · omega
    · decide

/-- An offset is determined by its byte. -/
theorem eq_of_offset_byte {o o' : Nat} (ho : 16 ≤ o ∧ o ≤ 4096 ∧ o % 16 = 0)
    (ho' : 16 ≤ o' ∧ o' ≤ 4096 ∧ o' % 16 = 0) (h : o / 16 % 256 = o' / 16 % 256) : o = o' := by
  omega

theorem testBit_offset_byte (h0 : 0 < j) (hi : i < 8) :
    (blockOff w j / 16 % 256).testBit i = (BitVec.ofNat 64 w).getLsbD (8 * j + i) := by
  rw [BitVec.getLsbD_ofNat]
  by_cases hj : j < 8
  · rw [← fieldOf_offset h0 hj, testBit_fieldOf, decide_eq_true (by omega : i < 8 * 1),
      decide_eq_true (by omega : 8 * j + i < 64)]
  · rw [decide_eq_false (by omega : ¬ 8 * j + i < 64), Bool.false_and]
    unfold blockOff
    rw [if_neg (by omega), if_neg hj]
    exact Nat.zero_testBit i

/-- `__medium_bin_mem_to_offsets` puts the offset 16 in front. -/
theorem byteAt_offsets (w j : Nat) :
    byteAt (mediumBinMemToOffsets (BitVec.ofNat 64 w)) (8 * j) = blockOff w j / 16 % 256 := by
  refine Nat.eq_of_testBit_eq fun i => ?_
  by_cases hi : i < 8
  · rw [testBit_byteAt, decide_eq_true hi, Bool.true_and]
    unfold mediumBinMemToOffsets
    rw [BitVec.getLsbD_or, BitVec.getLsbD_and]
    rcases Nat.eq_zero_or_pos j with rfl | h0
    · have h1 : ∀ i : Fin 8, (1#64).getLsbD (8 * 0 + i) = Nat.testBit (16 / 16 % 256) i ∧
          (0xffffffffffffff00#64).getLsbD (8 * 0 + i) = false := by decide
      rw [(h1 ⟨i, hi⟩).1, (h1 ⟨i, hi⟩).2]
      simp [blockOff]
    · rw [testBit_offset_byte h0 hi]
      by_cases hj : 8 * j + i < 64
      · have h1 : ∀ b : Fin 64, 8 ≤ b.val → (1#64).getLsbD b = false ∧
            (0xffffffffffffff00#64).getLsbD b = true := by decide
        rw [(h1 ⟨8 * j + i, hj⟩ (by simp; omega)).1, (h1 ⟨8 * j + i, hj⟩ (by simp; omega)).2,
          Bool.false_or, Bool.true_and]
      · rw [BitVec.getLsbD_of_ge _ _ (by omega), BitVec.getLsbD_of_ge _ _ (by omega),
          BitVec.getLsbD_of_ge _ _ (by omega)]
        rfl
  · rw [testBit_byteAt, decide_eq_false hi, Bool.false_and, Nat.testBit_lt_two_pow]
    calc blockOff w j / 16 % 256 < 2 ^ 8 := Nat.mod_lt _ (by decide)
      _ ≤ 2 ^ i := Nat.pow_le_pow_right (by decide) (by omega)

/-- `adj_offset` undoes the truncation to a byte. -/
theorem adjOffset_byteAt (w j : Nat) :
    adjOffset (byteAt (mediumBinMemToOffsets (BitVec.ofNat 64 w)) (8 * j) * 16) = blockOff w j := by
  have hb := blockOff_bounds w j
  rw [byteAt_offsets]
  unfold adjOffset
  split
  · show 4096 = _
    omega
  · omega

/-- A block that starts within the page has its offset in its byte. -/
theorem byteAt_mul (h : blockOff w j < 4096) :
    byteAt (mediumBinMemToOffsets (BitVec.ofNat 64 w)) (8 * j) * 16 = blockOff w j := by
  have := blockOff_bounds w j
  rw [byteAt_offsets]
  omega

/-- The bytes of the header word itself, all but the first. -/
theorem byteAt_word (h0 : 0 < j) :
    byteAt (BitVec.ofNat 64 w) (8 * j) = blockOff w j / 16 % 256 := by
  refine Nat.eq_of_testBit_eq fun i => ?_
  by_cases hi : i < 8
  · rw [testBit_byteAt, decide_eq_true hi, Bool.true_and, testBit_offset_byte h0 hi]
  · rw [testBit_byteAt, decide_eq_false hi, Bool.false_and, Nat.testBit_lt_two_pow]
    calc blockOff w j / 16 % 256 < 2 ^ 8 := Nat.mod_lt _ (by decide)
      _ ≤ 2 ^ i := Nat.pow_le_pow_right (by decide) (by omega)

theorem testBit_allocByte (w j : Nat) : (fieldOf w 7 1).testBit j = blockAl w j := by
  rw [testBit_fieldOf]
  rfl

/-- The alloc bits as `mm.c` handles them, in a byte. -/
theorem getLsbD_allocByte (w j : Nat) :
    (BitVec.ofNat 8 (fieldOf w 7 1)).getLsbD j = blockAl w j := by
  rw [BitVec.getLsbD_ofNat, testBit_allocByte]
  unfold blockAl
  cases decide (j < 8) <;> simp

/-! ## The blocks of new header words -/

theorem blockOff_congr (h0 : 0 < j) (hj : j < 8) (h0' : 0 < k)
    (h : ∀ i, i < 8 → w'.testBit (8 * j + i) = (BitVec.ofNat 64 w).getLsbD (8 * k + i)) :
    blockOff w' j = blockOff w k := by
  refine eq_of_offset_byte (blockOff_bounds w' j) (blockOff_bounds w k) ?_
  refine Nat.eq_of_testBit_eq fun i => ?_
  by_cases hi : i < 8
  · rw [testBit_offset_byte h0 hi, testBit_offset_byte h0' hi, BitVec.getLsbD_ofNat,
      decide_eq_true (by omega : 8 * j + i < 64), Bool.true_and, h i hi]
  · rw [Nat.testBit_lt_two_pow, Nat.testBit_lt_two_pow]
    all_goals calc _ < 2 ^ 8 := Nat.mod_lt _ (by decide)
      _ ≤ 2 ^ i := Nat.pow_le_pow_right (by decide) (by omega)

/-- The block gets the offset `o` when its byte does. -/
theorem blockOff_of_byte {o : Nat} (h0 : 0 < j) (hj : j < 8) (ho : 16 ≤ o ∧ o ≤ 4096 ∧ o % 16 = 0)
    (h : ∀ i, i < 8 → w'.testBit (8 * j + i) = (o / 16 % 256).testBit i) : blockOff w' j = o := by
  refine eq_of_offset_byte (blockOff_bounds w' j) ho ?_
  refine Nat.eq_of_testBit_eq fun i => ?_
  by_cases hi : i < 8
  · rw [testBit_offset_byte h0 hi, BitVec.getLsbD_ofNat,
      decide_eq_true (by omega : 8 * j + i < 64), Bool.true_and, h i hi]
  · rw [Nat.testBit_lt_two_pow, Nat.testBit_lt_two_pow]
    all_goals calc _ < 2 ^ 8 := Nat.mod_lt _ (by decide)
      _ ≤ 2 ^ i := Nat.pow_le_pow_right (by decide) (by omega)

theorem blockOff_zero (w : Nat) : blockOff w 0 = 16 := if_pos rfl

theorem blockOff_ge (w : Nat) (hj : 8 ≤ j) : blockOff w j = 4096 := by
  unfold blockOff
  rw [if_neg (by omega), if_neg (by omega)]

theorem blockAl_ge (w : Nat) (hj : 8 ≤ j) : blockAl w j = false := by
  unfold blockAl
  rw [decide_eq_false (by omega), Bool.false_and]

/-- The alloc bits after a byte has been stored. -/
theorem blockAl_putField (w v j : Nat) :
    blockAl (putField w 7 1 v) j = (decide (j < 8) && v.testBit j) := by
  unfold blockAl
  rw [testBit_putField]
  by_cases hj : j < 8
  · rw [if_neg (by omega), if_pos (by omega), show 56 + j - 8 * 7 = j by omega]
  · simp [hj]

/-- Storing the alloc bits keeps the number of slabs. -/
theorem putField_alloc_mod (w v : Nat) : putField w 7 1 v % 2 ^ 56 = w % 2 ^ 56 := by
  refine Nat.eq_of_testBit_eq fun i => ?_
  rw [Nat.testBit_mod_two_pow, Nat.testBit_mod_two_pow, testBit_putField]
  by_cases hi : i < 56
  · rw [if_pos (by omega)]
  · simp [hi]

theorem blockAl_sizeWord (hn : n < 2 ^ 56) (j : Nat) : blockAl (sizeWord w n) j = blockAl w j := by
  unfold blockAl
  rw [testBit_sizeWord hn]
  by_cases hj : j < 8
  · rw [if_neg (by omega), decide_eq_true (by omega : 56 + j < 64), Bool.true_and]
  · simp [hj]

/-- The previous-alloc bit is not part of the offsets. -/
theorem blockOff_sameButPrev (h : SameButPrev w w') (j : Nat) : blockOff w' j = blockOff w j := by
  rcases Nat.eq_zero_or_pos j with rfl | h0
  · rfl
  rcases Nat.lt_or_ge j 8 with hj | hj
  · refine blockOff_congr h0 hj h0 fun i hi => ?_
    rw [h _ (by omega), BitVec.getLsbD_ofNat, decide_eq_true (by omega), Bool.true_and]
  · rw [blockOff_ge _ hj, blockOff_ge _ hj]

end

/-! ## Masks -/

/-- The mask of the bytes up to `idx`. -/
theorem getLsbD_keepMask {idx b : Nat} (hidx : idx < 8) (hb : b < 64) :
    ((0x100#64 <<< (8 * idx)) - 1).getLsbD b = decide (b < 8 * (idx + 1)) := by
  have h : ∀ idx : Fin 8, ∀ b : Fin 64, ((0x100#64 <<< (8 * idx.val)) - 1).getLsbD b.val =
      decide (b.val < 8 * (idx.val + 1)) := by decide +kernel
  exact h ⟨idx, hidx⟩ ⟨b, hb⟩

/-- The mask of the alloc bits up to `idx`. -/
theorem getLsbD_allocKeepMask {idx b : Nat} (hidx : idx < 8) (hb : b < 8) :
    (BitVec.ofNat 8 ((2 <<< idx) - 1)).getLsbD b = decide (b ≤ idx) := by
  have h : ∀ idx b : Fin 8, (BitVec.ofNat 8 ((2 <<< idx.val) - 1)).getLsbD b.val =
      decide (b.val ≤ idx.val) := by decide +kernel
  exact h ⟨idx, hidx⟩ ⟨b, hb⟩

/-- The mask of the alloc bits before `idx`. -/
theorem getLsbD_allocLowMask {idx b : Nat} (hidx : idx < 8) (hb : b < 8) :
    (BitVec.ofNat 8 ((1 <<< idx) - 1)).getLsbD b = decide (b < idx) := by
  have h : ∀ idx b : Fin 8, (BitVec.ofNat 8 ((1 <<< idx.val) - 1)).getLsbD b.val =
      decide (b.val < idx.val) := by decide +kernel
  exact h ⟨idx, hidx⟩ ⟨b, hb⟩

/-- A bit that is moved down out of a masked word. -/
theorem getLsbD_moved {n : Nat} (x m : BitVec n) {c d b : Nat} (hcd : c ≤ d) :
    ((x &&& (~~~m <<< c)) >>> d).getLsbD b =
      (x.getLsbD (b + d) && (decide (b + d < n) && !m.getLsbD (b + d - c))) := by
  rw [BitVec.getLsbD_ushiftRight, BitVec.getLsbD_and, BitVec.getLsbD_shiftLeft, BitVec.getLsbD_not,
    Nat.add_comm d b]
  by_cases h : b + d < n
  · rw [decide_eq_true (by omega : b + d - c < n), decide_eq_false (by omega : ¬ b + d < c)]
    simp
  · rw [BitVec.getLsbD_of_ge _ _ (by omega), Bool.false_and, Bool.false_and]

/-! ## The words written when a block is freed -/

section

variable {w idx pf nf i : Nat}

/-- The first header word when block `idx` has been merged with `pf` blocks before
and `nf` blocks after it. -/
def mergeWord (mem : BitVec 64) (idx pf nf : Nat) : BitVec 64 :=
  (mem &&& (((0x100#64 <<< (8 * idx)) - 1) >>> (8 * pf))) |||
    ((mem &&& (~~~((0x100#64 <<< (8 * idx)) - 1) <<< (8 * nf))) >>> (8 * (pf + nf)))

/-- The first header word when the last block `idx` has been given to the one
before it. -/
def absorbWord (mem : BitVec 64) (idx : Nat) : BitVec 64 :=
  (mem &&& (((0x100#64 <<< (8 * idx)) - 1) >>> (8 * 0) >>> 8)) |||
    ((mem &&& (~~~((0x100#64 <<< (8 * idx)) - 1) <<< (8 * 0))) >>> (8 * (0 + 0)))

/-- The alloc bits when block `idx` has been freed and merged. -/
def freeAllocByte (blockAlloc : BitVec 8) (idx pf nf : Nat) : BitVec 8 :=
  (blockAlloc &&& (BitVec.ofNat 8 ((2 <<< idx) - 1) >>> 1 >>> pf)) |||
    ((blockAlloc &&& (~~~(BitVec.ofNat 8 ((2 <<< idx) - 1)) <<< nf)) >>> (pf + nf))

theorem getLsbD_mergeWord (hidx : idx < 8) (hpf : pf ≤ idx) (mem : BitVec 64) {b : Nat}
    (hb : b < 64) : (mergeWord mem idx pf nf).getLsbD b =
      if b < 8 * (idx + 1 - pf) then mem.getLsbD b else mem.getLsbD (b + 8 * (pf + nf)) := by
  unfold mergeWord
  rw [BitVec.getLsbD_or, getLsbD_moved _ _ (by omega), BitVec.getLsbD_and,
    BitVec.getLsbD_ushiftRight]
  have hlow : ((0x100#64 <<< (8 * idx)) - 1).getLsbD (8 * pf + b) =
      decide (b < 8 * (idx + 1 - pf)) := by
    by_cases hlt : 8 * pf + b < 64
    · rw [getLsbD_keepMask hidx hlt]
      exact decide_eq_decide.mpr (by omega)
    · rw [BitVec.getLsbD_of_ge _ _ (by omega), decide_eq_false (by omega)]
  have hhigh : (decide (b + 8 * (pf + nf) < 64) &&
      !((0x100#64 <<< (8 * idx)) - 1).getLsbD (b + 8 * (pf + nf) - 8 * nf)) =
        (decide (b + 8 * (pf + nf) < 64) && !decide (b < 8 * (idx + 1 - pf))) := by
    by_cases hlt : b + 8 * (pf + nf) < 64
    · rw [getLsbD_keepMask hidx (by omega)]
      congr 2
      exact decide_eq_decide.mpr (by omega)
    · simp [hlt]
  rw [hlow, hhigh]
  by_cases hb' : b < 8 * (idx + 1 - pf)
  · simp [hb']
  · by_cases hlt : b + 8 * (pf + nf) < 64
    · simp [hb', hlt]
    · rw [BitVec.getLsbD_of_ge _ (b + 8 * (pf + nf)) (by omega)]
      simp [hb']

theorem blockOff_mergeWord (hidx : idx < 8) (hpf : pf ≤ idx) (j : Nat) :
    blockOff (mergeWord (BitVec.ofNat 64 w) idx pf nf).toNat j =
      dropAfter (blockOff w) (idx - pf) (pf + nf) j := by
  rcases Nat.eq_zero_or_pos j with rfl | h0
  · rw [blockOff_zero, dropAfter_le (Nat.zero_le _), blockOff_zero]
  rcases Nat.lt_or_ge j 8 with hj | hj
  · rcases Nat.lt_or_ge (idx - pf) j with hlt | hge
    · rw [dropAfter_gt hlt]
      refine blockOff_congr h0 hj (by omega) fun i hi => ?_
      show BitVec.getLsbD _ _ = _
      rw [getLsbD_mergeWord hidx hpf _ (by omega), if_neg (by omega)]
      congr 1
      omega
    · rw [dropAfter_le hge]
      refine blockOff_congr h0 hj h0 fun i hi => ?_
      show BitVec.getLsbD _ _ = _
      rw [getLsbD_mergeWord hidx hpf _ (by omega), if_pos (by omega)]
  · rw [blockOff_ge _ hj, dropAfter_gt (by omega), blockOff_ge _ (by omega)]

theorem getLsbD_absorbWord (hidx : idx < 8) (mem : BitVec 64) {b : Nat} (hb : b < 64) :
    (absorbWord mem idx).getLsbD b =
      if b < 8 * idx ∨ 8 * (idx + 1) ≤ b then mem.getLsbD b else false := by
  unfold absorbWord
  rw [BitVec.getLsbD_or, getLsbD_moved _ _ (by omega), BitVec.getLsbD_and,
    BitVec.getLsbD_ushiftRight, BitVec.getLsbD_ushiftRight]
  have hlow : ((0x100#64 <<< (8 * idx)) - 1).getLsbD (8 * 0 + (8 + b)) =
      decide (b < 8 * idx) := by
    by_cases hlt : 8 + b < 64
    · rw [getLsbD_keepMask hidx (by omega)]
      exact decide_eq_decide.mpr (by omega)
    · rw [BitVec.getLsbD_of_ge _ _ (by omega), decide_eq_false (by omega)]
  rw [hlow, getLsbD_keepMask hidx (by omega), decide_eq_true (by omega : b + 8 * (0 + 0) < 64)]
  simp only [Nat.add_zero, Nat.mul_zero, Nat.sub_zero]
  by_cases h₁ : b < 8 * idx
  · rw [if_pos (.inl h₁), decide_eq_true h₁, decide_eq_true (by omega)]
    simp
  · rw [decide_eq_false h₁]
    by_cases h₂ : 8 * (idx + 1) ≤ b
    · rw [if_pos (.inr h₂), decide_eq_false (by omega)]
      simp
    · rw [if_neg (by omega), decide_eq_true (by omega)]
      simp

theorem blockOff_absorbWord (hidx : idx < 8) (h0 : 0 < idx)
    (hlast : ∀ j, idx < j → blockOff w j = 4096) (j : Nat) :
    blockOff (absorbWord (BitVec.ofNat 64 w) idx).toNat j = cutAt (blockOff w) idx j := by
  rcases Nat.eq_zero_or_pos j with rfl | hj0
  · rw [blockOff_zero, cutAt_lt h0, blockOff_zero]
  rcases Nat.lt_or_ge j 8 with hj | hj
  · rcases Nat.lt_trichotomy j idx with hlt | rfl | hgt
    · rw [cutAt_lt hlt]
      refine blockOff_congr hj0 hj hj0 fun i hi => ?_
      show BitVec.getLsbD _ _ = _
      rw [getLsbD_absorbWord hidx _ (by omega), if_pos (by omega)]
    · rw [cutAt_ge (le_refl _)]
      refine blockOff_of_byte hj0 hj (by decide) fun i hi => ?_
      show BitVec.getLsbD _ _ = _
      rw [getLsbD_absorbWord hidx _ (by omega), if_neg (by omega)]
      exact (Nat.zero_testBit i).symm
    · rw [cutAt_ge hgt.le, ← hlast j hgt]
      refine blockOff_congr hj0 hj hj0 fun i hi => ?_
      show BitVec.getLsbD _ _ = _
      rw [getLsbD_absorbWord hidx _ (by omega), if_pos (by omega)]
  · rw [blockOff_ge _ hj, cutAt_ge (by omega)]

theorem getLsbD_freeAllocByte (hidx : idx < 8) (hpf : pf ≤ idx) {j : Nat} (hj : j < 8) :
    (freeAllocByte (BitVec.ofNat 8 (fieldOf w 7 1)) idx pf nf).getLsbD j =
      Function.update (dropAfter (blockAl w) (idx - pf) (pf + nf)) (idx - pf) false j := by
  unfold freeAllocByte
  rw [BitVec.getLsbD_or, getLsbD_moved _ _ (by omega), BitVec.getLsbD_and,
    BitVec.getLsbD_ushiftRight, BitVec.getLsbD_ushiftRight, getLsbD_allocByte, getLsbD_allocByte]
  have hlow : (BitVec.ofNat 8 ((2 <<< idx) - 1)).getLsbD (1 + (pf + j)) =
      decide (j < idx - pf) := by
    by_cases hlt : 1 + (pf + j) < 8
    · rw [getLsbD_allocKeepMask hidx hlt]
      exact decide_eq_decide.mpr (by omega)
    · rw [BitVec.getLsbD_of_ge _ _ (by omega), decide_eq_false (by omega)]
  rw [hlow]
  by_cases hlt : j + (pf + nf) < 8
  · rw [getLsbD_allocKeepMask hidx (by omega), decide_eq_true hlt, Bool.true_and]
    rcases Nat.lt_trichotomy j (idx - pf) with h | rfl | h
    · rw [Function.update_of_ne (by omega), dropAfter_le h.le, decide_eq_true h,
        decide_eq_true (by omega)]
      simp
    · rw [Function.update_self, decide_eq_false (by omega), decide_eq_true (by omega)]
      simp
    · rw [Function.update_of_ne (by omega), dropAfter_gt h, decide_eq_false (by omega),
        decide_eq_false (by omega)]
      simp
  · rw [blockAl_ge _ (by omega : 8 ≤ j + (pf + nf)), Bool.false_and, Bool.or_false]
    rcases Nat.lt_trichotomy j (idx - pf) with h | rfl | h
    · rw [Function.update_of_ne (by omega), dropAfter_le h.le, decide_eq_true h, Bool.and_true]
    · rw [Function.update_self, decide_eq_false (by omega), Bool.and_false]
    · rw [Function.update_of_ne (by omega), dropAfter_gt h, decide_eq_false (by omega),
        Bool.and_false, blockAl_ge _ (by omega)]

end

/-! ## The words written when a block is allocated -/

section

variable {w idx o i : Nat}

/-- A bit that is moved up out of a masked word. -/
theorem getLsbD_movedUp {n : Nat} (x m : BitVec n) {c b : Nat} (hb : b < n) :
    ((x &&& ~~~m) <<< c).getLsbD b =
      (decide (c ≤ b) && (x.getLsbD (b - c) && !m.getLsbD (b - c))) := by
  rw [BitVec.getLsbD_shiftLeft, BitVec.getLsbD_and, BitVec.getLsbD_not]
  by_cases h : c ≤ b
  · rw [decide_eq_true hb, decide_eq_true h, decide_eq_false (by omega : ¬ b < c),
      decide_eq_true (by omega : b - c < n)]
    simp
  · rw [decide_eq_false h, decide_eq_true (by omega : b < c)]
    simp

/-- `(offset << 4) << shift_amt` is the byte of the offset in its place. -/
theorem getLsbD_offset (ho : o % 16 = 0) (ho' : o < 4096) {b : Nat} (hb : b < 64) :
    ((BitVec.ofNat 64 o <<< 4) <<< (8 * idx)).getLsbD b =
      (decide (8 * (idx + 1) ≤ b ∧ b < 8 * (idx + 2)) && o.testBit (b - 8 * idx - 4)) := by
  rw [BitVec.getLsbD_shiftLeft, BitVec.getLsbD_shiftLeft, BitVec.getLsbD_ofNat, decide_eq_true hb,
    Bool.true_and]
  by_cases h₁ : 8 * idx + 4 ≤ b
  · rw [decide_eq_false (by omega : ¬ b < 8 * idx),
      decide_eq_false (by omega : ¬ b - 8 * idx < 4), decide_eq_true (by omega : b - 8 * idx < 64),
      decide_eq_true (by omega : b - 8 * idx - 4 < 64)]
    simp only [Bool.not_false, Bool.true_and]
    by_cases h₂ : 8 * (idx + 1) ≤ b
    · by_cases h₃ : b < 8 * (idx + 2)
      · rw [decide_eq_true ⟨h₂, h₃⟩, Bool.true_and]
      · rw [decide_eq_false (by omega), Bool.false_and]
        exact Nat.testBit_lt_two_pow (calc
          o < 2 ^ 12 := ho'
          _ ≤ 2 ^ (b - 8 * idx - 4) := Nat.pow_le_pow_right (by omega) (by omega))
    · rw [decide_eq_false (by omega), Bool.false_and]
      have hmod : (o % 2 ^ 4).testBit (b - 8 * idx - 4) = false := by
        rw [show o % 2 ^ 4 = 0 from ho]
        exact Nat.zero_testBit _
      rwa [Nat.testBit_mod_two_pow, decide_eq_true (by omega), Bool.true_and] at hmod
  · rw [decide_eq_false (by omega : ¬ (8 * (idx + 1) ≤ b ∧ b < 8 * (idx + 2)))]
    by_cases h₂ : b < 8 * idx
    · simp [h₂]
    · have h₃ : b - 8 * idx < 4 := by omega
      simp [h₃]

/-- The first header word after `__medium_bin_push_offset`. -/
def pushWord (mem : BitVec 64) (idx offset : Nat) : BitVec 64 :=
  (mem &&& ((0x100#64 <<< (idx * 8)) - (1 : BitVec 64))) |||
    ((BitVec.ofNat 64 offset <<< 4) <<< (idx * 8)) |||
    ((mem &&& ~~~((0x100#64 <<< (idx * 8)) - (1 : BitVec 64))) <<< 8)

theorem getLsbD_pushWord (hidx : idx < 7) (ho : o % 16 = 0) (hhi : o < 4096) (mem : BitVec 64)
    {b : Nat} (hb : b < 64) : (pushWord mem idx o).getLsbD b =
      if b < 8 * (idx + 1) then mem.getLsbD b
      else if b < 8 * (idx + 2) then o.testBit (b - 8 * idx - 4)
      else mem.getLsbD (b - 8) := by
  unfold pushWord
  rw [Nat.mul_comm idx 8, BitVec.getLsbD_or, BitVec.getLsbD_or, getLsbD_movedUp _ _ hb,
    getLsbD_offset ho hhi hb, BitVec.getLsbD_and, getLsbD_keepMask (by omega) hb,
    getLsbD_keepMask (by omega) (by omega)]
  by_cases h₁ : b < 8 * (idx + 1)
  · rw [if_pos h₁, decide_eq_true h₁, decide_eq_true (by omega : b - 8 < 8 * (idx + 1)),
      decide_eq_false (by omega : ¬ (8 * (idx + 1) ≤ b ∧ b < 8 * (idx + 2)))]
    simp
  · rw [if_neg h₁, decide_eq_false h₁]
    by_cases h₂ : b < 8 * (idx + 2)
    · rw [if_pos h₂, decide_eq_true (by omega : b - 8 < 8 * (idx + 1)),
        decide_eq_true (by omega : 8 * (idx + 1) ≤ b ∧ b < 8 * (idx + 2))]
      simp
    · rw [if_neg h₂, decide_eq_false (by omega : ¬ b - 8 < 8 * (idx + 1)),
        decide_eq_false (by omega : ¬ (8 * (idx + 1) ≤ b ∧ b < 8 * (idx + 2))),
        decide_eq_true (by omega : 8 ≤ b)]
      simp

theorem testBit_pushWord_low (hidx : idx < 7) (ho : o % 16 = 0) (hhi : o < 4096) {j : Nat}
    (hj : j < 8) : (pushWord (BitVec.ofNat 64 w) idx o).toNat.testBit j = w.testBit j := by
  show (pushWord (BitVec.ofNat 64 w) idx o).getLsbD j = _
  rw [getLsbD_pushWord hidx ho hhi _ (by omega), if_pos (by omega), BitVec.getLsbD_ofNat,
    decide_eq_true (by omega), Bool.true_and]

theorem blockOff_pushWord (hidx : idx < 7) (ho : o % 16 = 0) (hlo : 16 ≤ o) (hhi : o < 4096)
    (hlast : blockOff w 7 = 4096) (j : Nat) :
    blockOff (pushWord (BitVec.ofNat 64 w) idx o).toNat j = insertAfter (blockOff w) idx o j := by
  rcases Nat.eq_zero_or_pos j with rfl | h0
  · rw [blockOff_zero, insertAfter_le (Nat.zero_le _), blockOff_zero]
  rcases Nat.lt_or_ge j 8 with hj | hj
  · rcases Nat.lt_trichotomy j (idx + 1) with hlt | heq | hgt
    · rw [insertAfter_le (by omega)]
      refine blockOff_congr h0 hj h0 fun i hi => ?_
      show BitVec.getLsbD _ _ = _
      rw [getLsbD_pushWord hidx ho hhi _ (by omega), if_pos (by omega)]
    · rw [insertAfter_new heq]
      refine blockOff_of_byte h0 hj ⟨hlo, hhi.le, ho⟩ fun i hi => ?_
      show BitVec.getLsbD _ _ = _
      rw [getLsbD_pushWord hidx ho hhi _ (by omega), if_neg (by omega), if_pos (by omega),
        Nat.mod_eq_of_lt (by omega), show o / 16 = o / 2 ^ 4 from rfl, Nat.testBit_div_two_pow]
      congr 1
      omega
    · rw [insertAfter_gt hgt]
      refine blockOff_congr h0 hj (by omega) fun i hi => ?_
      show BitVec.getLsbD _ _ = _
      rw [getLsbD_pushWord hidx ho hhi _ (by omega), if_neg (by omega), if_neg (by omega)]
      congr 1
      omega
  · rw [blockOff_ge _ hj, insertAfter_gt (by omega)]
    rcases Nat.lt_or_ge j 9 with h9 | h9
    · rw [show j - 1 = 7 by omega, hlast]
    · rw [blockOff_ge _ (by omega)]

/-- The alloc bits after a free block has been split and its first part taken. -/
def takeAllocByte (blockAlloc : BitVec 8) (idx : Nat) : BitVec 8 :=
  (blockAlloc &&& BitVec.ofNat 8 ((1 <<< idx) - 1)) ||| BitVec.ofNat 8 (1 <<< idx) |||
    ((blockAlloc &&& ~~~(BitVec.ofNat 8 ((1 <<< idx) - 1))) <<< 1)

theorem getLsbD_takeAllocByte (hidx : idx < 8) (hfree : blockAl w idx = false) {j : Nat}
    (hj : j < 8) : (takeAllocByte (BitVec.ofNat 8 (fieldOf w 7 1)) idx).getLsbD j =
      insertAfter (Function.update (blockAl w) idx true) idx false j := by
  unfold takeAllocByte
  have hone : ∀ idx j : Fin 8, (BitVec.ofNat 8 (1 <<< idx.val)).getLsbD j.val =
      decide (j.val = idx.val) := by decide +kernel
  have hone' : (BitVec.ofNat 8 (1 <<< idx)).getLsbD j = decide (j = idx) := hone ⟨idx, hidx⟩ ⟨j, hj⟩
  rw [BitVec.getLsbD_or, BitVec.getLsbD_or, getLsbD_movedUp _ _ hj, BitVec.getLsbD_and,
    getLsbD_allocLowMask hidx hj, getLsbD_allocLowMask hidx (by omega : j - 1 < 8),
    getLsbD_allocByte, getLsbD_allocByte, hone']
  rcases Nat.lt_trichotomy j idx with h | rfl | h
  · rw [insertAfter_le h.le, Function.update_of_ne h.ne, decide_eq_true h, decide_eq_false h.ne,
      decide_eq_true (by omega : j - 1 < idx)]
    simp
  · rw [insertAfter_le (le_refl _), Function.update_self, decide_eq_true (rfl : j = j)]
    simp
  · rw [decide_eq_false (by omega : ¬ j < idx), decide_eq_false (by omega : ¬ j = idx),
      decide_eq_false (by omega : ¬ j - 1 < idx), decide_eq_true (by omega : 1 ≤ j)]
    by_cases hj' : j = idx + 1
    · rw [insertAfter_new hj', show j - 1 = idx by omega, hfree]
      simp
    · rw [insertAfter_gt (by omega), Function.update_of_ne (by omega)]
      simp

/-- The alloc bits after `__medium_bin_split_block`. -/
def splitAllocByte (blockAlloc : BitVec 8) (idx : Nat) : BitVec 8 :=
  (blockAlloc &&& BitVec.ofNat 8 ((2 <<< idx) - 1)) |||
    ((blockAlloc &&& ~~~(BitVec.ofNat 8 ((2 <<< idx) - 1))) <<< 1)

theorem getLsbD_splitAllocByte (hidx : idx < 8) {j : Nat} (hj : j < 8) :
    (splitAllocByte (BitVec.ofNat 8 (fieldOf w 7 1)) idx).getLsbD j =
      insertAfter (blockAl w) idx false j := by
  unfold splitAllocByte
  rw [BitVec.getLsbD_or, getLsbD_movedUp _ _ hj, BitVec.getLsbD_and,
    getLsbD_allocKeepMask hidx hj, getLsbD_allocKeepMask hidx (by omega : j - 1 < 8),
    getLsbD_allocByte, getLsbD_allocByte]
  rcases Nat.lt_trichotomy j (idx + 1) with h | h | h
  · rw [insertAfter_le (by omega), decide_eq_true (by omega : j ≤ idx),
      decide_eq_true (by omega : j - 1 ≤ idx)]
    simp
  · rw [insertAfter_new h, decide_eq_false (by omega : ¬ j ≤ idx),
      decide_eq_true (by omega : j - 1 ≤ idx)]
    simp
  · rw [insertAfter_gt h, decide_eq_false (by omega : ¬ j ≤ idx),
      decide_eq_false (by omega : ¬ j - 1 ≤ idx), decide_eq_true (by omega : 1 ≤ j)]
    simp

/-- `block_alloc |= 1 << idx` -/
theorem testBit_setAlloc (j : Nat) :
    (fieldOf w 7 1 ||| (1 <<< idx)).testBit j = Function.update (blockAl w) idx true j := by
  rw [Nat.testBit_or, testBit_allocByte, Nat.one_shiftLeft, Nat.testBit_two_pow]
  by_cases h : idx = j
  · rw [h, Function.update_self, decide_eq_true rfl, Bool.or_true]
  · rw [Function.update_of_ne (Ne.symm h), decide_eq_false h, Bool.or_false]

end

/-! ## The words written when a block is resized -/

section

variable {w idx o : Nat}

/-- The first header word after `__medium_bin_append_offset`. -/
def appendWord (mem : BitVec 64) (idx offset : Nat) : BitVec 64 :=
  (mem &&& ((0x100#64 <<< (idx * 8)) - (1 : BitVec 64))) |||
    ((BitVec.ofNat 64 offset <<< 4) <<< (idx * 8))

theorem getLsbD_appendWord (hidx : idx < 7) (ho : o % 16 = 0) (hhi : o < 4096) (mem : BitVec 64)
    {b : Nat} (hb : b < 64) : (appendWord mem idx o).getLsbD b =
      if b < 8 * (idx + 1) then mem.getLsbD b
      else if b < 8 * (idx + 2) then o.testBit (b - 8 * idx - 4)
      else false := by
  unfold appendWord
  rw [Nat.mul_comm idx 8, BitVec.getLsbD_or, getLsbD_offset ho hhi hb, BitVec.getLsbD_and,
    getLsbD_keepMask (by omega) hb]
  by_cases h₁ : b < 8 * (idx + 1)
  · rw [if_pos h₁, decide_eq_true h₁,
      decide_eq_false (by omega : ¬ (8 * (idx + 1) ≤ b ∧ b < 8 * (idx + 2)))]
    simp
  · rw [if_neg h₁, decide_eq_false h₁]
    by_cases h₂ : b < 8 * (idx + 2)
    · rw [if_pos h₂, decide_eq_true (by omega : 8 * (idx + 1) ≤ b ∧ b < 8 * (idx + 2))]
      simp
    · rw [if_neg h₂, decide_eq_false (by omega : ¬ (8 * (idx + 1) ≤ b ∧ b < 8 * (idx + 2)))]
      simp

theorem testBit_appendWord_low (hidx : idx < 7) (ho : o % 16 = 0) (hhi : o < 4096) {j : Nat}
    (hj : j < 8) : (appendWord (BitVec.ofNat 64 w) idx o).toNat.testBit j = w.testBit j := by
  show (appendWord (BitVec.ofNat 64 w) idx o).getLsbD j = _
  rw [getLsbD_appendWord hidx ho hhi _ (by omega), if_pos (by omega), BitVec.getLsbD_ofNat,
    decide_eq_true (by omega), Bool.true_and]

/-- Behind the last block, appending is inserting. -/
theorem blockOff_appendWord (hidx : idx < 7) (ho : o % 16 = 0) (hlo : 16 ≤ o) (hhi : o < 4096)
    (hlast : ∀ j, idx < j → blockOff w j = 4096) (j : Nat) :
    blockOff (appendWord (BitVec.ofNat 64 w) idx o).toNat j = insertAfter (blockOff w) idx o j := by
  rcases Nat.eq_zero_or_pos j with rfl | h0
  · rw [blockOff_zero, insertAfter_le (Nat.zero_le _), blockOff_zero]
  rcases Nat.lt_or_ge j 8 with hj | hj
  · rcases Nat.lt_trichotomy j (idx + 1) with hlt | heq | hgt
    · rw [insertAfter_le (by omega)]
      refine blockOff_congr h0 hj h0 fun i hi => ?_
      show BitVec.getLsbD _ _ = _
      rw [getLsbD_appendWord hidx ho hhi _ (by omega), if_pos (by omega)]
    · rw [insertAfter_new heq]
      refine blockOff_of_byte h0 hj ⟨hlo, hhi.le, ho⟩ fun i hi => ?_
      show BitVec.getLsbD _ _ = _
      rw [getLsbD_appendWord hidx ho hhi _ (by omega), if_neg (by omega), if_pos (by omega),
        Nat.mod_eq_of_lt (by omega), show o / 16 = o / 2 ^ 4 from rfl, Nat.testBit_div_two_pow]
      congr 1
      omega
    · rw [insertAfter_gt hgt, hlast _ (by omega)]
      refine blockOff_of_byte h0 hj (by decide) fun i hi => ?_
      show BitVec.getLsbD _ _ = _
      rw [getLsbD_appendWord hidx ho hhi _ (by omega), if_neg (by omega), if_neg (by omega)]
      exact (Nat.zero_testBit i).symm
  · rw [blockOff_ge _ hj, insertAfter_gt (by omega), hlast _ (by omega)]

/-- The first header word after `__medium_bin_remove_offset`. -/
def removeWord (mem : BitVec 64) (idx : Nat) : BitVec 64 :=
  (mem &&& ((0x100#64 <<< (idx * 8)) - (1 : BitVec 64))) |||
    ((mem >>> 8) &&& ~~~((0x100#64 <<< (idx * 8)) - (1 : BitVec 64)))

theorem getLsbD_removeWord (hidx : idx < 7) (mem : BitVec 64) {b : Nat} (hb : b < 64) :
    (removeWord mem idx).getLsbD b =
      if b < 8 * (idx + 1) then mem.getLsbD b else mem.getLsbD (b + 8) := by
  unfold removeWord
  rw [Nat.mul_comm idx 8, BitVec.getLsbD_or, BitVec.getLsbD_and, BitVec.getLsbD_and,
    BitVec.getLsbD_not, BitVec.getLsbD_ushiftRight, getLsbD_keepMask (by omega) hb,
    decide_eq_true hb, Nat.add_comm 8 b]
  by_cases h₁ : b < 8 * (idx + 1)
  · rw [if_pos h₁, decide_eq_true h₁]
    simp
  · rw [if_neg h₁, decide_eq_false h₁]
    simp

theorem testBit_removeWord_low (hidx : idx < 7) {j : Nat} (hj : j < 8) :
    (removeWord (BitVec.ofNat 64 w) idx).toNat.testBit j = w.testBit j := by
  show (removeWord (BitVec.ofNat 64 w) idx).getLsbD j = _
  rw [getLsbD_removeWord hidx _ (by omega), if_pos (by omega), BitVec.getLsbD_ofNat,
    decide_eq_true (by omega), Bool.true_and]

theorem blockOff_removeWord (hidx : idx < 7) (j : Nat) :
    blockOff (removeWord (BitVec.ofNat 64 w) idx).toNat j = dropAfter (blockOff w) idx 1 j := by
  rcases Nat.eq_zero_or_pos j with rfl | h0
  · rw [blockOff_zero, dropAfter_le (Nat.zero_le _), blockOff_zero]
  rcases Nat.lt_or_ge j 8 with hj | hj
  · rcases Nat.lt_or_ge idx j with hlt | hge
    · rw [dropAfter_gt hlt]
      refine blockOff_congr h0 hj (by omega) fun i hi => ?_
      show BitVec.getLsbD _ _ = _
      rw [getLsbD_removeWord hidx _ (by omega), if_neg (by omega)]
      congr 1
      omega
    · rw [dropAfter_le hge]
      refine blockOff_congr h0 hj h0 fun i hi => ?_
      show BitVec.getLsbD _ _ = _
      rw [getLsbD_removeWord hidx _ (by omega), if_pos (by omega)]
  · rw [blockOff_ge _ hj, dropAfter_gt (by omega), blockOff_ge _ (by omega)]

/-- The alloc bits after `__medium_bin_remove_offset`. -/
def removeAllocByte (blockAlloc : BitVec 8) (idx : Nat) : BitVec 8 :=
  (blockAlloc &&& BitVec.ofNat 8 ((2 <<< idx) - 1)) |||
    ((blockAlloc >>> 1) &&& ~~~(BitVec.ofNat 8 ((2 <<< idx) - 1)))

theorem getLsbD_removeAllocByte (hidx : idx < 8) {j : Nat} (hj : j < 8) :
    (removeAllocByte (BitVec.ofNat 8 (fieldOf w 7 1)) idx).getLsbD j =
      dropAfter (blockAl w) idx 1 j := by
  unfold removeAllocByte
  rw [BitVec.getLsbD_or, BitVec.getLsbD_and, BitVec.getLsbD_and, BitVec.getLsbD_not,
    BitVec.getLsbD_ushiftRight, getLsbD_allocByte, getLsbD_allocByte,
    getLsbD_allocKeepMask hidx hj, decide_eq_true hj, Nat.add_comm 1 j]
  by_cases h : j ≤ idx
  · rw [dropAfter_le h, decide_eq_true h]
    simp
  · rw [dropAfter_gt (by omega), decide_eq_false h]
    simp

/-- The offsets after the byte of block `idx + 1` has been stored. -/
theorem blockOff_putField (hidx : idx < 7) (ho : 16 ≤ o ∧ o < 4096 ∧ o % 16 = 0) (j : Nat) :
    blockOff (putField w (1 + idx) 1 (o / 16)) j = Function.update (blockOff w) (idx + 1) o j := by
  rcases Nat.eq_zero_or_pos j with rfl | h0
  · rw [blockOff_zero, Function.update_of_ne (by omega), blockOff_zero]
  rcases Nat.lt_or_ge j 8 with hj | hj
  · by_cases heq : j = idx + 1
    · subst heq
      rw [Function.update_self]
      refine blockOff_of_byte h0 hj ⟨ho.1, ho.2.1.le, ho.2.2⟩ fun i hi => ?_
      rw [testBit_putField, if_neg (by omega), if_pos (by omega), Nat.mod_eq_of_lt (by omega)]
      congr 1
      omega
    · rw [Function.update_of_ne heq]
      refine blockOff_congr h0 hj h0 fun i hi => ?_
      rw [testBit_putField, BitVec.getLsbD_ofNat, decide_eq_true (by omega), Bool.true_and]
      split_ifs
      · rfl
      · omega
      · rfl
  · rw [blockOff_ge _ hj, Function.update_of_ne (by omega), blockOff_ge _ hj]

end

end MallocBench.Slab
