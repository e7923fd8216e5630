import MallocBench.Slab.Access
import MallocBench.Slab.Tiny
import MallocBench.Slab.SlabSteps
import Mathlib.Data.Finset.Card
import Mathlib.Data.Finset.Range
import Mathlib.Data.Finset.Update

/-!
# The blocks of a packed slab

A packed slab holds blocks of one size. Its free vector, read as one sequence of
bits from the third header word on, is the same for the one-level and the
two-level layout; the two-level layout also has the summary `ps_f1`, one bit for
each 16 bits of the vector.
-/

namespace MallocBench.Slab

open Lib

/-! ## Sizes and places of blocks -/

/-- The block sizes in use. -/
def packedSizes : List Nat :=
  [16, 32, 48, 64, 80, 96, 112, 128, 144, 160, 176, 192, 208, 224, 240, 272, 288, 304, 336, 368, 400,
    448, 496]

/-- The number of blocks of a slab. -/
def packedBlocks (size : Nat) : Nat :=
  if size = 16 then 252 else if size = 32 then 126 else if size = 48 then 84
  else packedSlabNBlocks size

/-- Where the first block starts. -/
def packedStart (size : Nat) : Nat :=
  if size ≤ 48 then packedSlabNHeaderSize size else packedSlabHeaderSize

/-- The number of bits in the words of the free vector. -/
def packedBits (size : Nat) : Nat :=
  if size = 16 then 256 else if size ≤ 48 then 128 else 64

/-- `adj_tiny_size` rounds up to a block size. -/
theorem adjTinySize_mem {size : Nat} (h0 : 0 < size) (h16 : size % 16 = 0) (h : size ≤ 496) :
    adjTinySize size ∈ packedSizes ∧ size ≤ adjTinySize size := by
  obtain ⟨q, rfl⟩ : ∃ q, size = 16 * (q + 1) := ⟨size / 16 - 1, by omega⟩
  have hall : ∀ q : Fin 31, adjTinySize (16 * (q.val + 1)) ∈ packedSizes ∧
      16 * (q.val + 1) ≤ adjTinySize (16 * (q.val + 1)) := by decide
  exact hall ⟨q, by omega⟩

/-- The facts about block sizes that the slab layout relies on. -/
theorem packedSizes_facts {size : Nat} (h : size ∈ packedSizes) :
    16 ≤ size ∧ size ≤ 496 ∧ size % 16 = 0 ∧ packedBinIdx size < 23 ∧
      2 ≤ packedBlocks size ∧ packedBlocks size ≤ packedBits size ∧
      packedStart size + size * packedBlocks size ≤ 4096 ∧
      24 + packedBits size / 8 ≤ packedStart size ∧ packedStart size % 16 = 0 ∧
      sizeToSzClass size < 256 ∧ 16 + 16 * sizeToSzClass size = size := by
  have hall : ∀ size ∈ packedSizes, 16 ≤ size ∧ size ≤ 496 ∧ size % 16 = 0 ∧
      packedBinIdx size < 23 ∧ 2 ≤ packedBlocks size ∧ packedBlocks size ≤ packedBits size ∧
      packedStart size + size * packedBlocks size ≤ 4096 ∧
      24 + packedBits size / 8 ≤ packedStart size ∧ packedStart size % 16 = 0 ∧
      sizeToSzClass size < 256 ∧ 16 + 16 * sizeToSzClass size = size := by decide
  exact hall size h

theorem packedBits_facts (size : Nat) :
    64 ≤ packedBits size ∧ packedBits size ≤ 256 ∧ packedBits size % 64 = 0 := by
  unfold packedBits
  by_cases h : size = 16
  · rw [if_pos h]
    decide
  · rw [if_neg h]
    by_cases h' : size ≤ 48
    · rw [if_pos h']
      decide
    · rw [if_neg h']
      decide

/-- Each bin holds slabs of one block size. -/
theorem packedBinIdx_inj {size size' : Nat} (h : size ∈ packedSizes) (h' : size' ∈ packedSizes)
    (heq : packedBinIdx size = packedBinIdx size') : size = size' := by
  have hall : ∀ size ∈ packedSizes, ∀ size' ∈ packedSizes,
      packedBinIdx size = packedBinIdx size' → size = size' := by decide
  exact hall size h size' h' heq

/-! ## The header data -/

/-- The number of allocated blocks, for the free vector `f`. -/
def usedSlots (size : Nat) (f : Nat → Bool) : Nat :=
  ((Finset.range (packedBlocks size)).filter fun j => f j = false).card

/-- The header data of a packed slab is right: the free vector `f`, the count of
allocated blocks and the summary `f1`. -/
structure PackedData (size : Nat) (f : Nat → Bool) (cnt f1 : Nat) : Prop where
  size_mem : size ∈ packedSizes
  /-- there are no blocks past the last -/
  high : ∀ j, packedBlocks size ≤ j → j < packedBits size → f j = false
  cnt_eq : cnt = usedSlots size f
  /-- an empty slab is given back -/
  pos : 0 < cnt
  /-- the summary has the bit of every 16 blocks that are not all allocated -/
  lvl1 : size ≤ 48 → ∀ l, l < 16 →
    (f1.testBit l = true ↔ 16 * l < packedBits size ∧ ∃ i, i < 16 ∧ f (16 * l + i) = true)

/-- There is a free block. -/
def HasFree (size : Nat) (f : Nat → Bool) : Prop :=
  ∃ j, j < packedBlocks size ∧ f j = true

namespace PackedData

variable {size cnt f1 f1' j : Nat} {f : Nat → Bool}

theorem cnt_le (h : PackedData size f cnt f1) : cnt ≤ 256 := by
  have hfacts := packedSizes_facts h.size_mem
  have hbits := packedBits_facts size
  have hcard : usedSlots size f ≤ (Finset.range (packedBlocks size)).card :=
    Finset.card_filter_le _ _
  rw [Finset.card_range, ← h.cnt_eq] at hcard
  omega

/-- The one-level layout has its vector in one word. -/
theorem blocks_le (h : PackedData size f cnt f1) (hs : 48 < size) : packedBlocks size ≤ 64 := by
  have hfacts := packedSizes_facts h.size_mem
  have hbits : packedBits size = 64 := by
    unfold packedBits
    rw [if_neg (by omega), if_neg (by omega)]
  omega

/-- A set bit of the vector is a free block. -/
theorem lt_of_free (h : PackedData size f cnt f1) (hj : j < packedBits size) (hf : f j = true) :
    j < packedBlocks size := by
  by_contra hge
  rw [h.high j (by omega) hj] at hf
  cases hf

/-- The summary is zero iff there is no free block. -/
theorem lvl1_zero_iff (h : PackedData size f cnt f1) (hs : size ≤ 48) (hlt : f1 < 2 ^ 16) :
    f1 = 0 ↔ ¬ HasFree size f := by
  have hfacts := packedSizes_facts h.size_mem
  have hbits := packedBits_facts size
  constructor
  · rintro rfl ⟨j, hj, hf⟩
    have := (h.lvl1 hs (j / 16) (by omega)).mpr ⟨by omega, j % 16, by omega, by
      rw [show 16 * (j / 16) + j % 16 = j by omega, hf]⟩
    simp at this
  · intro hnone
    refine Nat.eq_of_testBit_eq fun l => ?_
    rw [Nat.zero_testBit]
    by_contra hne
    have hl : l < 16 := by
      by_contra hge
      exact hne (Nat.testBit_lt_two_pow (calc
        f1 < 2 ^ 16 := hlt
        _ ≤ 2 ^ l := Nat.pow_le_pow_right (by omega) (by omega)))
    obtain ⟨hlb, i, hi, hf⟩ := (h.lvl1 hs l hl).mp (by simpa using hne)
    exact hnone ⟨16 * l + i, h.lt_of_free (by omega) hf, hf⟩

/-- A free block is allocated. -/
theorem take (h : PackedData size f cnt f1) (hj : j < packedBlocks size) (hf : f j = true)
    (hlvl : size ≤ 48 → ∀ l, l < 16 → (f1'.testBit l = true ↔
      16 * l < packedBits size ∧ ∃ i, i < 16 ∧ Function.update f j false (16 * l + i) = true)) :
    PackedData size (Function.update f j false) (cnt + 1) f1' := by
  refine ⟨h.size_mem, fun i hi hi' => ?_, ?_, Nat.succ_pos _, hlvl⟩
  · rw [Function.update_of_ne (by omega)]
    exact h.high i hi hi'
  · have hins : (Finset.range (packedBlocks size)).filter
        (fun i => Function.update f j false i = false) =
        insert j ((Finset.range (packedBlocks size)).filter fun i => f i = false) := by
      ext i
      simp only [Finset.mem_filter, Finset.mem_range, Finset.mem_insert]
      by_cases hij : i = j
      · subst hij
        simp [hj]
      · rw [Function.update_of_ne hij]
        simp [hij]
    unfold usedSlots
    rw [hins, Finset.card_insert_of_notMem (by simp [hf]), h.cnt_eq]
    rfl

/-- An allocated block is freed, and others are left. -/
theorem give (h : PackedData size f cnt f1) (hj : j < packedBlocks size) (hf : f j = false)
    (hcnt : 1 < cnt) (hlvl : size ≤ 48 → ∀ l, l < 16 → (f1'.testBit l = true ↔
      16 * l < packedBits size ∧ ∃ i, i < 16 ∧ Function.update f j true (16 * l + i) = true)) :
    PackedData size (Function.update f j true) (cnt - 1) f1' := by
  have hfacts := packedSizes_facts h.size_mem
  refine ⟨h.size_mem, fun i hi hi' => ?_, ?_, by omega, hlvl⟩
  · rw [Function.update_of_ne (by omega)]
    exact h.high i hi hi'
  · have hers : (Finset.range (packedBlocks size)).filter
        (fun i => Function.update f j true i = false) =
        ((Finset.range (packedBlocks size)).filter fun i => f i = false).erase j := by
      ext i
      simp only [Finset.mem_filter, Finset.mem_range, Finset.mem_erase]
      by_cases hij : i = j
      · subst hij
        simp
      · rw [Function.update_of_ne hij]
        simp [hij]
    unfold usedSlots
    rw [hers, Finset.card_erase_of_mem (by simp [hj, hf]), h.cnt_eq]
    rfl

/-- When one block is allocated, it is the only one. -/
theorem only (h : PackedData size f cnt f1) (hj : j < packedBlocks size) (hf : f j = false)
    (hcnt : cnt = 1) {i : Nat} (hi : i < packedBlocks size) (hfi : f i = false) : i = j := by
  have hcard : usedSlots size f = 1 := by rw [← h.cnt_eq, hcnt]
  obtain ⟨x, hx⟩ := Finset.card_eq_one.mp hcard
  have hi' : i ∈ ({x} : Finset Nat) := by
    rw [← hx]
    simp [hi, hfi]
  have hj' : j ∈ ({x} : Finset Nat) := by
    rw [← hx]
    simp [hj, hf]
  rw [Finset.mem_singleton] at hi' hj'
  rw [hi', hj']

end PackedData

/-! ## The header words -/

/-- The block size of the packed slab at `a`. -/
def packedSize (m : Nat → Nat) (a : Nat) : Nat := 16 + 16 * fieldOf (m a) 1 1

/-- Bit `j` of the free vector, which has at most 256 bits. -/
def freeBit (m : Nat → Nat) (a j : Nat) : Bool :=
  decide (j < 256) && (m (a + 24 + 8 * (j / 64))).testBit (j % 64)

/-- The header of the packed slab at `a` is right. -/
def PackedOk (m : Nat → Nat) (a : Nat) : Prop :=
  PackedData (packedSize m a) (freeBit m a) (fieldOf (m a) 2 2) (fieldOf (m a) 4 2)

/-- The slab has a free block, and belongs in bin `i`. -/
def PackedIn (m : Nat → Nat) (a i : Nat) : Prop :=
  HasFree (packedSize m a) (freeBit m a) ∧ packedBinIdx (packedSize m a) = i

/-- An allocated block of the packed slab at `a` from `x` to `e`. -/
def PackedUsed (m : Nat → Nat) (a x e : Nat) : Prop :=
  ∃ j, j < packedBlocks (packedSize m a) ∧ freeBit m a j = false ∧
    x = a + packedStart (packedSize m a) + packedSize m a * j ∧ e = x + packedSize m a

end MallocBench.Slab
