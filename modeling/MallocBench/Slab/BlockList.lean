import MallocBench.Lib.FreeList
import MallocBench.Slab.MallocFree

/-!
# The blocks of a large region as a list

The header of a large region is two packed vectors; what they stand for is a list of blocks,
each with its offset in the region and its alloc bit. The vector operations of `mm.c` are
list operations: dropping and inserting entries, setting a bit, and freeing a block with its
free neighbours.
-/

namespace MallocBench.Slab

open Lib FreeCase

/-- The blocks from `a` on, `n` of them. -/
def blockSeg (off : Nat → Nat) (al : Nat → Bool) (a n : Nat) : List (Nat × Bool) :=
  (List.range' a n).map fun j => (off j, al j)

/-- All `k` blocks. -/
def blockList (off : Nat → Nat) (al : Nat → Bool) (k : Nat) : List (Nat × Bool) :=
  blockSeg off al 0 k

/-- The blocks of the region at `a`, with their offsets and alloc bits. -/
def blocksAt (m : Nat → Nat) (a : Nat) : List (Nat × Bool) :=
  blockList (offAt m a) (alAt m a) (cntAt m a)

section

variable {off off' : Nat → Nat} {al al' : Nat → Bool} {a c i k k' n n' v : Nat} {b pf nf : Bool}
  {strict : Prop}

theorem blockSeg_append (off : Nat → Nat) (al : Nat → Bool) (a c n : Nat) :
    blockSeg off al a c ++ blockSeg off al (a + c) n = blockSeg off al a (c + n) := by
  rw [blockSeg, blockSeg, ← List.map_append, List.range'_append_1]
  rfl

theorem blockSeg_one : blockSeg off al a 1 = [(off a, al a)] := rfl

theorem blockSeg_congr (h : ∀ j, a ≤ j → j < a + n → off' j = off (j + c) ∧ al' j = al (j + c)) :
    blockSeg off' al' a n = blockSeg off al (a + c) n := by
  refine List.ext_getElem (by simp [blockSeg]) fun j h₁ h₂ => ?_
  have hj : j < n := by simpa [blockSeg] using h₁
  obtain ⟨ho, ha⟩ := h (a + j) (by omega) (by omega)
  simp only [blockSeg, List.getElem_map, List.getElem_range', one_mul]
  rw [ho, ha, show a + j + c = a + c + j by omega]

theorem length_blockList : (blockList off al k).length = k := by
  simp [blockList, blockSeg]

/-- The list cut after `i` and after `c` more blocks. -/
theorem blockList_split (h : i + c ≤ k) : blockList off al k =
    blockSeg off al 0 i ++ (blockSeg off al i c ++ blockSeg off al (i + c) (k - (i + c))) := by
  have h₁ := blockSeg_append off al i c (k - (i + c))
  have h₂ := blockSeg_append off al 0 i (c + (k - (i + c)))
  rw [Nat.zero_add] at h₂
  rw [h₁, h₂, blockList]
  congr 1
  omega

/-- The list of an ordered region has no two adjacent free blocks. -/
theorem BlocksOk.noTwoFree (h : BlocksOk strict off al n k) : NoTwoFree (blockList off al k) := by
  refine List.isChain_iff_getElem.mpr fun j hj => ?_
  have hj' : j + 1 < k := by simpa [length_blockList] using hj
  simpa [blockList, blockSeg] using h.coalesced j hj'

/-- **Merging is freeing**: dropping the entries of the free neighbours and clearing the bit
frees the block in the list. -/
theorem FreeCase.blockList_eq (h : FreeCase strict off al n k i pf nf n')
    (hno : NoTwoFree (blockList (dropAfter off (i - pf.toNat) (pf.toNat + nf.toNat))
      (Function.update (dropAfter al (i - pf.toNat) (pf.toNat + nf.toNat)) (i - pf.toNat) false)
      (k - pf.toNat - nf.toNat))) :
    blockList (dropAfter off (i - pf.toNat) (pf.toNat + nf.toNat))
      (Function.update (dropAfter al (i - pf.toNat) (pf.toNat + nf.toNat)) (i - pf.toNat) false)
      (k - pf.toNat - nf.toNat) = freeBlock (blockList off al k) i := by
  have hple := h.prev_le
  have hnlt := h.next_lt
  have hp := toNat_le pf
  have hn := toNat_le nf
  -- the new list
  have hnew : blockList (dropAfter off (i - pf.toNat) (pf.toNat + nf.toNat))
      (Function.update (dropAfter al (i - pf.toNat) (pf.toNat + nf.toNat)) (i - pf.toNat) false)
      (k - pf.toNat - nf.toNat) = blockSeg off al 0 (i - pf.toNat) ++ (off (i - pf.toNat), false) ::
        blockSeg off al (i + 1 + nf.toNat) (k - (i + 1 + nf.toNat)) := by
    rw [blockList_split (i := i - pf.toNat) (c := 1) (by omega), blockSeg_one, dropAfter_le (le_refl _),
      Function.update_self]
    refine congrArg₂ (· ++ ·) (blockSeg_congr (c := 0) fun j _ hj => ?_)
      (congrArg₂ (· ++ ·) rfl ?_)
    · rw [Function.update_of_ne (by omega), dropAfter_le (by omega), dropAfter_le (by omega)]
      exact ⟨rfl, rfl⟩
    · rw [blockSeg_congr (c := pf.toNat + nf.toNat) fun j hj _ => ?_]
      · congr 1 <;> omega
      · rw [Function.update_of_ne (by omega), dropAfter_gt (by omega), dropAfter_gt (by omega)]
        exact ⟨rfl, rfl⟩
  -- the old list
  have hold : blockList off al k = blockSeg off al 0 (i - pf.toNat) ++
      (blockSeg off al (i - pf.toNat) pf.toNat ++ (off i, al i) :: blockSeg off al (i + 1) nf.toNat) ++
        blockSeg off al (i + 1 + nf.toNat) (k - (i + 1 + nf.toNat)) := by
    have hrun : blockSeg off al (i - pf.toNat) pf.toNat ++
        (off i, al i) :: blockSeg off al (i + 1) nf.toNat =
          blockSeg off al (i - pf.toNat) (pf.toNat + (1 + nf.toNat)) := by
      rw [← blockSeg_append, ← blockSeg_append, show i - pf.toNat + pf.toNat = i by omega]
      rfl
    rw [hrun, blockList_split (i := i - pf.toNat) (c := pf.toNat + (1 + nf.toNat)) (by omega),
      List.append_assoc, show i - pf.toNat + (pf.toNat + (1 + nf.toNat)) = i + 1 + nf.toNat by omega]
  have hindex : (blockSeg off al 0 (i - pf.toNat)).length +
      (blockSeg off al (i - pf.toNat) pf.toNat).length = i := by
    simp only [blockSeg, List.length_map, List.length_range']
    omega
  rw [hnew] at hno ⊢
  rw [hold]
  obtain ⟨R, hR⟩ : ∃ R, blockSeg off al (i - pf.toNat) pf.toNat ++
      (off i, false) :: blockSeg off al (i + 1) nf.toNat = (off (i - pf.toNat), false) :: R := by
    cases pf with
    | false => exact ⟨_, rfl⟩
    | true => exact ⟨_, by rw [Bool.toNat_true, blockSeg_one, h.prev_free rfl]; rfl⟩
  have hfree : ∀ d ∈ blockSeg off al (i - pf.toNat) pf.toNat ++ blockSeg off al (i + 1) nf.toNat,
      d.2 = false := by
    intro d hd
    rcases List.mem_append.mp hd with hd | hd
    · cases pf with
      | false => cases hd
      | true =>
        obtain rfl := List.mem_singleton.mp hd
        exact h.prev_free rfl
    · cases nf with
      | false => cases hd
      | true =>
        obtain rfl := List.mem_singleton.mp hd
        exact h.next_free rfl
  have heq := freeBlock_eq (b := (off i, al i)) hfree hR hno
  rw [hindex] at heq
  exact heq.symm

/-- A remainder that is no block of its own goes to the block before: the list loses its last
block. -/
theorem blockList_cutAt (h : i + 1 = k) :
    blockList (cutAt off i) (Function.update al i false) (k - 1) = (blockList off al k).dropLast := by
  have hsplit := blockSeg_append off al 0 i 1
  rw [h] at hsplit
  rw [blockList, blockList, ← hsplit, blockSeg_one, List.dropLast_concat,
    show k - 1 = i by omega]
  exact blockSeg_congr (c := 0) fun j _ hj =>
    ⟨cutAt_lt (by omega), Function.update_of_ne (by omega) _ _⟩

theorem SameBlocks.blocksAt_eq {m m' : Nat → Nat} {r : Region} (h : SameBlocks m m' r.addr) :
    blocksAt m' r.addr = blocksAt m r.addr := by
  unfold blocksAt cntAt
  rw [h.offAt, h.alAt]

end

end MallocBench.Slab
