import Mathlib.Algebra.BigOperators.Group.Finset.Basic
import MallocBench.Slab.LargeFree

/-!
# Looking up a block in its slab header

The index of a block from its address (`medium_bin_find_block_pos`) and its size
from the index (`medium_bin_block_size`). Both are right for every header of the
shape `LargeHeader`; that the blocks have a minimal size does not matter here.
-/

namespace MallocBench.Slab

open Lib

/-- `k` blocks at increasing offsets `off`, nothing after them, and the last one
allocated when it starts at the end of the first of several slabs. -/
structure LargeHeader (off : Nat → Nat) (al : Nat → Bool) (n k : Nat) : Prop where
  pos : 1 ≤ k
  le : k ≤ 8
  off_lt : ∀ i j, i < j → j < k → off i < off j
  page : ∀ j, j < k → off j ≤ 4096
  stop : ∀ j, k ≤ j → off j = 4096 ∧ al j = false
  last : 1 < n → off (k - 1) = 4096 → al (k - 1) = true

theorem BlocksOk.largeHeader {strict : Prop} {off : Nat → Nat} {al : Nat → Bool} {n k : Nat}
    (h : BlocksOk strict off al n k) : LargeHeader off al n k where
  pos := h.pos
  le := h.le
  off_lt _ _ hij hj := h.off_lt hij hj
  page := h.page
  stop := h.stop
  last hn hpage := (h.last_large hn).elim id fun hlast => by omega

namespace LargeHeader

variable {off : Nat → Nat} {al : Nat → Bool} {n k i j : Nat}

theorem off_inj (h : LargeHeader off al n k) (hi : i < k) (hj : j < k) (heq : off i = off j) :
    i = j := by
  rcases Nat.lt_trichotomy i j with hij | hij | hij
  · exact absurd heq (h.off_lt i j hij hj).ne
  · exact hij
  · exact absurd heq.symm (h.off_lt j i hij hi).ne

/-- A block that starts at the end of the first slab is the last one. -/
theorem eq_last (h : LargeHeader off al n k) (hj : j < k) (hpage : off j = 4096) : j = k - 1 := by
  by_contra hne
  have hlt := h.off_lt j (k - 1) (by omega) (by omega)
  have := h.page (k - 1) (by omega)
  omega

/-- The blocks up to `j` fill the region up to where block `j` ends. -/
theorem sum_sizes (h : LargeHeader off al n k) (hj : j ≤ k - 1) :
    ∑ i ∈ Finset.range j, (blockEnd off n k i - off i) = off j - off 0 := by
  induction j with
  | zero => rw [Finset.range_zero, Finset.sum_empty, Nat.sub_self]
  | succ j ih =>
    have hlt := h.off_lt j (j + 1) (by omega) (by omega)
    have hle : off 0 ≤ off j := by
      rcases Nat.eq_zero_or_pos j with rfl | hpos
      · exact le_refl _
      · exact (h.off_lt 0 j hpos (by omega)).le
    rw [Finset.sum_range_succ, ih (by omega), blockEnd, if_pos (by omega)]
    omega

end LargeHeader

section

variable {s : Heap} {a n k j p : Nat}

theorem wp_mediumBinOffsets {Q : BitVec 64 → Heap → Prop} :
    wp (mediumBinOffsets a) Q s ↔
      s.Valid a ∧ Q (mediumBinMemToOffsets (BitVec.ofNat 64 (s.mem a))) s := by
  unfold mediumBinOffsets
  rw [wp_bind, wp_load64, wp_pure]

/-- The eight offset bytes tell the blocks of a slab apart. -/
theorem find_offset (h : LargeHeader (offAt s.mem a) (alAt s.mem a) n k) (hj : j < k) :
    (List.range 8).find? (fun i =>
      byteAt (mediumBinMemToOffsets (BitVec.ofNat 64 (s.mem a))) (8 * i) ==
        offAt s.mem a j / 16 % 256) = some j := by
  have hk := h.le
  rw [List.find?_range_eq_some]
  refine ⟨?_, by simp; omega, fun i hi => ?_⟩
  · rw [byteAt_offsets]
    exact beq_self_eq_true _
  · rw [byteAt_offsets, Bool.not_eq_true']
    refine beq_eq_false_iff_ne.mpr fun heq => ?_
    have := h.off_inj (i := i) (by omega) hj
      (eq_of_offset_byte (blockOff_bounds _ i) (blockOff_bounds _ j) heq)
    omega

/-- **`medium_bin_find_block_pos`** of a block is its index. -/
theorem wp_mediumBinFindBlockPos {Q : Nat → Heap → Prop}
    (h : LargeHeader (offAt s.mem a) (alAt s.mem a) n k) (hj : j < k) (hv : s.Valid a)
    (hp : p = a + offAt s.mem a j) (hQ : Q j s) : wp (mediumBinFindBlockPos a p) Q s := by
  unfold mediumBinFindBlockPos
  rw [wp_bind, wp_mediumBinOffsets]
  refine ⟨hv, ?_⟩
  have hoff : (p - a) / mallocAlign % 256 = offAt s.mem a j / 16 % 256 := by
    rw [hp, Nat.add_sub_cancel_left]
  rw [hoff, find_offset h hj]
  exact wp_pure.mpr hQ

theorem mediumBinGetOffset_eq (w : Nat) :
    mediumBinGetOffset (mediumBinMemToOffsets (BitVec.ofNat 64 w)) j =
      blockOff w j / 16 % 256 * 16 := by
  unfold mediumBinGetOffset
  rw [Nat.mul_comm j 8, byteAt_offsets]

theorem offsetByte_of_lt {w : Nat} (h : blockOff w j < 4096) :
    blockOff w j / 16 % 256 * 16 = blockOff w j := by
  have := blockOff_bounds w j
  omega

theorem offsetByte_eq_zero {w : Nat} : blockOff w j / 16 % 256 * 16 = 0 ↔ blockOff w j = 4096 := by
  have := blockOff_bounds w j
  omega

theorem mediumBinGetAdjOffset_eq (w : Nat) :
    mediumBinGetAdjOffset (mediumBinMemToOffsets (BitVec.ofNat 64 w)) j = blockOff w j := by
  unfold mediumBinGetAdjOffset
  by_cases h8 : j = 8
  · rw [if_pos h8, blockOff_ge w (by omega)]
  · rw [if_neg h8]
    unfold mediumBinGetOffset
    rw [Nat.mul_comm j 8]
    exact adjOffset_byteAt w j

/-- **`medium_bin_block_size`** of a block. -/
theorem wp_mediumBinBlockSize {Q : Nat → Heap → Prop}
    (h : LargeHeader (offAt s.mem a) (alAt s.mem a) n k) (hn : 0 < n) (hj : j < k)
    (hal : a % 8 = 0) (hv : s.Valid a) (hv' : s.Valid (a + 8)) (hsz : s.mem (a + 8) % 2 ^ 56 = n)
    (hQ : Q (blockEnd (offAt s.mem a) n k j - offAt s.mem a j) s) :
    wp (mediumBinBlockSize a j) Q s := by
  have hk := h.le
  have hb := blockOff_bounds (s.mem a) j
  have hb' := blockOff_bounds (s.mem a) (j + 1)
  have hadj : adjOffset (blockOff (s.mem a) j / 16 % 256 * 16) = blockOff (s.mem a) j := by
    unfold adjOffset
    split_ifs with h0
    · show 4096 = _
      omega
    · omega
  unfold mediumBinBlockSize
  rw [wp_bind, wp_mediumBinOffsets]
  refine ⟨hv, ?_⟩
  simp only [mediumBinGetOffset_eq]
  have hnext : (if j = 7 then 0 else blockOff (s.mem a) (j + 1) / 16 % 256 * 16) = 0 ↔
      blockOff (s.mem a) (j + 1) = 4096 := by
    by_cases h7 : j = 7
    · rw [if_pos h7, blockOff_ge _ (by omega : 8 ≤ j + 1)]
      exact iff_of_true rfl rfl
    · rw [if_neg h7]
      exact offsetByte_eq_zero
  rw [wp_ite]
  by_cases hend : blockOff (s.mem a) (j + 1) = 4096
  · rw [if_pos (hnext.mpr hend), wp_bind, wp_loadAlloc hal, hadj]
    refine ⟨hv', ?_⟩
    rw [testBit_allocByte, wp_ite]
    by_cases hlast : j + 1 < k
    · -- the next block is the last one, and starts at the end of the slab
      have hnext : j + 1 = k - 1 := h.eq_last hlast hend
      unfold blockEnd at hQ
      rw [if_pos hlast, show offAt s.mem a (j + 1) = 4096 from hend] at hQ
      have hj7 : decide (j ≠ 7) = true := decide_eq_true (by omega)
      cases hal' : blockAl (s.mem (a + 8)) (j + 1) with
      | true =>
        rw [hj7, Bool.true_and, if_pos rfl]
        exact wp_pure.mpr hQ
      | false =>
        have hn1 : n = 1 := by
          by_contra hne
          have hlarge := h.last (by omega) (hnext ▸ hend)
          rw [← hnext] at hlarge
          cases hlarge.symm.trans hal'
        rw [Bool.and_false, if_neg (by decide), wp_bind, wp_largeSlabGetSize, hsz, hn1]
        exact ⟨hv', wp_pure.mpr hQ⟩
    · have hal' : blockAl (s.mem (a + 8)) (j + 1) = false := (h.stop (j + 1) (by omega)).2
      rw [hal', Bool.and_false, if_neg (by decide), wp_bind, wp_largeSlabGetSize, hsz]
      refine ⟨hv', ?_⟩
      unfold blockEnd at hQ
      rw [if_neg hlast] at hQ
      rw [wp_pure, Nat.mul_comm]
      exact hQ
  · rw [if_neg (fun h0 => hend (hnext.mp h0)), wp_pure]
    have h7 : j ≠ 7 := fun h7 => hend (blockOff_ge _ (by omega))
    have hlast : j + 1 < k := by
      by_contra hcon
      exact hend (h.stop (j + 1) (by omega)).1
    have hlt := h.off_lt j (j + 1) (by omega) hlast
    unfold blockEnd at hQ
    rw [if_pos hlast] at hQ
    rw [if_neg h7]
    have hlt : blockOff (s.mem a) j < blockOff (s.mem a) (j + 1) := hlt
    rw [offsetByte_of_lt (by omega), offsetByte_of_lt (by omega)]
    exact hQ

/-- **Looking up a block**: the index of a block is found from its address, its
size goes to the next block or to the end of the region, and the blocks fill the
region but for the header. -/
theorem largeSlab_blocks (s : Heap) (a n k : Nat)
    (h : LargeHeader (offAt s.mem a) (alAt s.mem a) n k) (hn : 0 < n)
    (hsz : s.mem (a + 8) % 2 ^ 56 = n) (hal : a % 8 = 0) (hv : s.Valid a) (hv' : s.Valid (a + 8)) :
    (∀ j, j < k → mediumBinFindBlockPos a (a + offAt s.mem a j) s = .ok (j, s)) ∧
    (∀ j, j + 1 < k →
      mediumBinBlockSize a j s = .ok (offAt s.mem a (j + 1) - offAt s.mem a j, s)) ∧
    mediumBinBlockSize a (k - 1) s = .ok (4096 * n - offAt s.mem a (k - 1), s) ∧
    ∃ sizes : Nat → Nat, (∀ j, j < k → mediumBinBlockSize a j s = .ok (sizes j, s)) ∧
      ∑ j ∈ Finset.range k, sizes j = n * 4096 - 16 := by
  have hpos := h.pos
  have hsize : ∀ j, j < k → mediumBinBlockSize a j s =
      .ok (blockEnd (offAt s.mem a) n k j - offAt s.mem a j, s) :=
    fun j hj => eq_ok_of_wp (wp_mediumBinBlockSize h hn hj hal hv hv' hsz ⟨rfl, rfl⟩)
  refine ⟨fun j hj => eq_ok_of_wp (wp_mediumBinFindBlockPos h hj hv rfl ⟨rfl, rfl⟩),
    fun j hj => ?_, ?_, _, hsize, ?_⟩
  · rw [hsize j (by omega), blockEnd, if_pos hj]
  · rw [hsize (k - 1) (by omega), blockEnd, if_neg (by omega)]
  · obtain ⟨j, rfl⟩ : ∃ j, k = j + 1 := ⟨k - 1, by omega⟩
    have hfirst : offAt s.mem a 0 = 16 := blockOff_zero _
    have hpage := h.page j (by omega)
    have hge := (blockOff_bounds (s.mem a) j).1
    rw [Finset.sum_range_succ, h.sum_sizes (j := j) (by omega), hfirst, blockEnd, if_neg (by omega)]
    unfold offAt at hpage ⊢
    omega

/-- A region of two slabs: blocks of 1024 and 3056 bytes, and one that starts at the
end of the first slab. -/
def overhang : Heap where
  mem x := if x = 4096 then 1 + 65 * 2 ^ 8 else if x = 4104 then 2 + 5 * 2 ^ 56 else 0
  brk := 12288
  heap := 0
  slabSkiplist _ := 0
  medSkiplist _ := 0
  heapEnd := 12288
  flags := 0

theorem largeSlab_blocks_overhang :
    mediumBinFindBlockPos 4096 8192 overhang = .ok (2, overhang) := by
  have hstop : ∀ j, j < 8 → 3 ≤ j → offAt overhang.mem 4096 j = 4096 ∧
      alAt overhang.mem 4096 j = false := by decide
  have hlt : ∀ j, j < 3 → ∀ i, i < j → offAt overhang.mem 4096 i < offAt overhang.mem 4096 j := by
    decide
  exact (largeSlab_blocks overhang 4096 2 3
    { pos := by decide
      le := by decide
      off_lt := fun i j hij hj => hlt j hj i hij
      page := by decide
      stop := fun j hj => (Nat.lt_or_ge j 8).elim (fun hj8 => hstop j hj8 hj) fun hj8 =>
        ⟨blockOff_ge _ hj8, blockAl_ge _ hj8⟩
      last := fun _ _ => by decide }
    (by decide) (by decide) (by decide) (by decide) (by decide)).1 2 (by decide)

end

end MallocBench.Slab
