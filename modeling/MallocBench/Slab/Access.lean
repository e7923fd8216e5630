import MallocBench.Slab.SlabOps
import Mathlib.Data.Nat.Bitwise
import Mathlib.Tactic.Ring
import Mathlib.Tactic.IntervalCases

/-!
# Symbolic execution of memory accesses

What the accessors of `Heap.lean` and the header accessors of `SlabOps.lean` do
in terms of `wp`, and the bits of a word after a field of it is written.
-/

namespace MallocBench.Slab

open Lib

variable {s : Heap} {a k n v : Nat}

/-! ## Fields of a word -/

theorem testBit_fieldOf (w k n i : Nat) :
    (fieldOf w k n).testBit i = (decide (i < 8 * n) && w.testBit (8 * k + i)) := by
  have h256 : ∀ j, 256 ^ j = 2 ^ (8 * j) := fun j => by
    rw [show (256 : Nat) = 2 ^ 8 from rfl, ← Nat.pow_mul]
  rw [fieldOf, h256, h256, Nat.testBit_mod_two_pow, Nat.testBit_div_two_pow, Nat.add_comm i]

theorem testBit_putField (w k n v i : Nat) :
    (putField w k n v).testBit i =
      if i < 8 * k then w.testBit i
      else if i < 8 * (k + n) then v.testBit (i - 8 * k)
      else w.testBit i := by
  have h256 : ∀ j, 256 ^ j = 2 ^ (8 * j) := fun j => by
    rw [show (256 : Nat) = 2 ^ 8 from rfl, ← Nat.pow_mul]
  have hlow : w % 2 ^ (8 * k) < 2 ^ (8 * k) := Nat.mod_lt _ (Nat.two_pow_pos _)
  have hmid : v % 2 ^ (8 * n) < 2 ^ (8 * n) := Nat.mod_lt _ (Nat.two_pow_pos _)
  rw [putField, h256, h256, h256, Nat.add_comm (w % _), Nat.testBit_two_pow_mul_add _ hlow]
  by_cases h₁ : i < 8 * k
  · simp [h₁]
  · rw [if_neg h₁, if_neg h₁, Nat.add_comm (v % _), Nat.testBit_two_pow_mul_add _ hmid]
    by_cases h₂ : i < 8 * (k + n)
    · rw [if_pos h₂, if_pos (by omega), Nat.testBit_mod_two_pow]
      simp [show i - 8 * k < 8 * n by omega]
    · rw [if_neg h₂, if_neg (by omega), Nat.testBit_div_two_pow]
      congr 1
      omega

theorem testBit_putField_low {w k n v i : Nat} (h : i < 8 * k) :
    (putField w k n v).testBit i = w.testBit i := by
  rw [testBit_putField, if_pos h]

theorem fieldOf_putField_self (w k n v : Nat) :
    fieldOf (putField w k n v) k n = v % 256 ^ n := by
  refine Nat.eq_of_testBit_eq fun i => ?_
  rw [testBit_fieldOf, testBit_putField, show (256 : Nat) ^ n = 2 ^ (8 * n) by
    rw [show (256 : Nat) = 2 ^ 8 from rfl, ← Nat.pow_mul], Nat.testBit_mod_two_pow]
  by_cases h : i < 8 * n
  · rw [if_neg (by omega), if_pos (by omega)]
    simp [h]
  · simp [h]

/-! ## Words -/

@[simp] theorem wp_load64 {Q : Nat → Heap → Prop} :
    wp (load64 a) Q s ↔ s.Valid a ∧ Q (s.mem a) s := by
  unfold load64
  simp only [wp_bind, wp_get, wp_ite, wp_pure, wp_throw]
  split <;> simp_all

@[simp] theorem wp_store64 {Q : Unit → Heap → Prop} :
    wp (store64 a v) Q s ↔ s.Valid a ∧ Q () (s.setMem a v) := by
  unfold store64
  simp only [wp_bind, wp_get, wp_ite, wp_set, wp_throw]
  split <;> simp_all

@[simp] theorem wp_mallocAssert {c : Bool} {Q : Unit → Heap → Prop} :
    wp (mallocAssert c) Q s ↔ c = true ∧ Q () s := by
  unfold mallocAssert
  cases c <;> simp

@[simp] theorem wp_mallocAssume {c : Bool} {Q : Unit → Heap → Prop} :
    wp (mallocAssume c) Q s ↔ c = true ∧ Q () s := by
  unfold mallocAssume
  cases c <;> simp

theorem wp_loadField {Q : Nat → Heap → Prop} (ha : a % 8 = 0) (hk : k < 8) :
    wp (loadField n (a + k)) Q s ↔ s.Valid a ∧ Q (fieldOf (s.mem a) k n) s := by
  unfold loadField
  rw [show (a + k) / 8 * 8 = a by omega, show (a + k) % 8 = k by omega]
  simp only [wp_bind, wp_load64, wp_pure]

theorem wp_storeField {Q : Unit → Heap → Prop} (ha : a % 8 = 0) (hk : k < 8) :
    wp (storeField n (a + k) v) Q s ↔
      s.Valid a ∧ Q () (s.setMem a (putField (s.mem a) k n v)) := by
  unfold storeField
  rw [show (a + k) / 8 * 8 = a by omega, show (a + k) % 8 = k by omega]
  simp only [wp_bind, wp_load64, wp_store64]
  tauto

/-! ## The state after a write -/

theorem wp_memsetZero {ptr size : Nat} {Q : Unit → Heap → Prop} : wp (memsetZero ptr size) Q s ↔
    s.ValidRange ptr size ∧ Q () { s with mem := zeroRange s.mem ptr size } := by
  unfold memsetZero
  rw [wp_bind, wp_get, wp_ite]
  by_cases h : s.ValidRange ptr size <;> simp [h]

theorem wp_memcpy {dst src size : Nat} {Q : Unit → Heap → Prop} : wp (memcpy dst src size) Q s ↔
    (s.ValidRange dst size ∧ s.ValidRange src size) ∧
      Q () { s with mem := copyRange s.mem dst src size } := by
  unfold memcpy
  rw [wp_bind, wp_get, wp_ite]
  by_cases h : s.ValidRange dst size ∧ s.ValidRange src size <;> simp [h]

@[simp] theorem setMem_mem : (s.setMem a v).mem = Function.update s.mem a v := rfl
@[simp] theorem setMem_brk : (s.setMem a v).brk = s.brk := rfl
@[simp] theorem setMem_heap : (s.setMem a v).heap = s.heap := rfl
@[simp] theorem setMem_heapEnd : (s.setMem a v).heapEnd = s.heapEnd := rfl
@[simp] theorem setMem_flags : (s.setMem a v).flags = s.flags := rfl
@[simp] theorem setMem_slabSkiplist : (s.setMem a v).slabSkiplist = s.slabSkiplist := rfl
@[simp] theorem setMem_medSkiplist : (s.setMem a v).medSkiplist = s.medSkiplist := rfl
@[simp] theorem setMem_valid {b : Nat} : (s.setMem a v).Valid b ↔ s.Valid b := Iff.rfl

/-! ## Header fields of a slab -/

/-- `flags & ~bit` in the low byte of a header word -/
def clearBit (w bit : Nat) : Nat := putField w 0 1 (fieldOf w 0 1 &&& (0xff ^^^ bit))

/-- `flags | bit` in the low byte of a header word -/
def setBit (w bit : Nat) : Nat := putField w 0 1 (fieldOf w 0 1 ||| bit)

theorem wp_load8_flags {Q : Nat → Heap → Prop} (ha : a % 8 = 0) :
    wp (load8 a) Q s ↔ s.Valid a ∧ Q (fieldOf (s.mem a) 0 1) s :=
  wp_loadField (k := 0) ha (by omega)

theorem wp_store8_flags {Q : Unit → Heap → Prop} (ha : a % 8 = 0) :
    wp (store8 a v) Q s ↔ s.Valid a ∧ Q () (s.setMem a (putField (s.mem a) 0 1 v)) :=
  wp_storeField (k := 0) ha (by omega)

theorem wp_setFlag {bit : Nat} {Q : Unit → Heap → Prop} (ha : a % 8 = 0) :
    wp (setFlag a bit) Q s ↔ s.Valid a ∧ Q () (s.setMem a (setBit (s.mem a) bit)) := by
  unfold setFlag setBit
  simp only [wp_bind, wp_load8_flags ha, wp_store8_flags ha]
  tauto

theorem wp_clearFlag {bit : Nat} {Q : Unit → Heap → Prop} (ha : a % 8 = 0) :
    wp (clearFlag a bit) Q s ↔ s.Valid a ∧ Q () (s.setMem a (clearBit (s.mem a) bit)) := by
  unfold clearFlag clearBit
  simp only [wp_bind, wp_load8_flags ha, wp_store8_flags ha]
  tauto

theorem wp_slabIsAlloc {Q : Bool → Heap → Prop} (ha : a % 8 = 0) :
    wp (slabIsAlloc a) Q s ↔ s.Valid a ∧ Q ((s.mem a).testBit 0) s := by
  unfold slabIsAlloc
  simp only [wp_bind, wp_load8_flags ha, wp_pure, testBit_fieldOf]
  simp

theorem wp_slabIsFree {Q : Bool → Heap → Prop} (ha : a % 8 = 0) :
    wp (slabIsFree a) Q s ↔ s.Valid a ∧ Q (!(s.mem a).testBit 0) s := by
  unfold slabIsFree
  simp only [wp_bind, wp_slabIsAlloc ha, wp_pure]

theorem wp_slabIsPacked {Q : Bool → Heap → Prop} (ha : a % 8 = 0) :
    wp (slabIsPacked a) Q s ↔ s.Valid a ∧ Q ((s.mem a).testBit 2) s := by
  unfold slabIsPacked
  simp only [wp_bind, wp_load8_flags ha, wp_pure, testBit_fieldOf]
  simp

/-- A byte has no bits from 8 on. -/
theorem testBit_high {bit i : Nat} (hbit : bit < 256) (h : ¬ i < 8) : bit.testBit i = false :=
  Nat.testBit_lt_two_pow (calc
    bit < 2 ^ 8 := hbit
    _ ≤ 2 ^ i := Nat.pow_le_pow_right (by omega) (by omega))

theorem testBit_setBit {w bit i : Nat} (hbit : bit < 256) :
    (setBit w bit).testBit i = (w.testBit i || bit.testBit i) := by
  rw [setBit, testBit_putField]
  by_cases h : i < 8
  · rw [if_neg (by omega), if_pos (by omega), Nat.testBit_or, testBit_fieldOf]
    simp [h]
  · rw [if_neg (by omega), if_neg (by omega), testBit_high hbit h, Bool.or_false]

theorem testBit_clearBit {w bit i : Nat} (hbit : bit < 256) :
    (clearBit w bit).testBit i = (w.testBit i && !bit.testBit i) := by
  rw [clearBit, testBit_putField]
  by_cases h : i < 8
  · rw [if_neg (by omega), if_pos (by omega), Nat.testBit_and, testBit_fieldOf, Nat.testBit_xor]
    have h255 : (0xff : Nat).testBit i = true := by interval_cases i <;> rfl
    simp [h, h255]
  · rw [if_neg (by omega), if_neg (by omega), testBit_high hbit h]
    simp

theorem wp_largeSlabGetSize {Q : Nat → Heap → Prop} :
    wp (largeSlabGetSize a) Q s ↔ s.Valid (a + 8) ∧ Q (s.mem (a + 8) % 2 ^ 56) s := by
  unfold largeSlabGetSize
  simp only [wp_bind, wp_load64, wp_pure,
    show (0x00ffffffffffffff : Nat) = 2 ^ 56 - 1 from rfl, Nat.and_two_pow_sub_one_eq_mod]

/-- The word with the alloc byte of `w` and the size `n`. -/
def sizeWord (w n : Nat) : Nat := (fieldOf w 7 1 <<< 0x38) ||| n

theorem wp_largeSlabSetSize {Q : Unit → Heap → Prop} (ha : a % 8 = 0) :
    wp (largeSlabSetSize a n) Q s ↔
      s.Valid (a + 8) ∧ Q () (s.setMem (a + 8) (sizeWord (s.mem (a + 8)) n)) := by
  unfold largeSlabSetSize sizeWord
  rw [wp_bind, show a + 15 = a + 8 + 7 by omega, wp_loadField (by omega) (by omega)]
  simp only [wp_store64]
  tauto

theorem testBit_sizeWord {w i : Nat} (hn : n < 2 ^ 56) : (sizeWord w n).testBit i =
    if i < 56 then n.testBit i else decide (i < 64) && w.testBit i := by
  rw [sizeWord, Nat.testBit_or, Nat.testBit_shiftLeft, testBit_fieldOf]
  by_cases h : i < 56
  · simp [h]
  · have : n.testBit i = false := Nat.testBit_lt_two_pow (calc
      n < 2 ^ 56 := hn
      _ ≤ 2 ^ i := Nat.pow_le_pow_right (by omega) (by omega))
    rw [this, if_neg h, Bool.or_false, show 8 * 7 + (i - 56) = i by omega]
    by_cases h' : i < 64
    · simp [h', show i - 56 < 8 by omega, show 56 ≤ i by omega]
    · simp [h', show ¬ i - 56 < 8 by omega]

theorem sizeWord_mod {w : Nat} (hn : n < 2 ^ 56) : sizeWord w n % 2 ^ 56 = n := by
  refine Nat.eq_of_testBit_eq fun i => ?_
  rw [Nat.testBit_mod_two_pow, testBit_sizeWord hn]
  by_cases h : i < 56
  · simp [h]
  · have : n.testBit i = false := Nat.testBit_lt_two_pow (calc
      n < 2 ^ 56 := hn
      _ ≤ 2 ^ i := Nat.pow_le_pow_right (by omega) (by omega))
    simp [h, this]

/-! ## Skiplists -/

/-- The skiplist with the bit of bin `i` set. -/
def skiplistMark (sk : Nat → BitVec 32) (i : Nat) : Nat → BitVec 32 :=
  Function.update sk (i / 32) (sk (i / 32) ||| (1#32 <<< (i % 32)))

/-- Setting the bit of bin `i` keeps the other bits. -/
theorem skiplistMark_bit (sk : Nat → BitVec 32) (i j : Nat) :
    (skiplistMark sk i (j / 32)).getLsbD (j % 32) =
      ((sk (j / 32)).getLsbD (j % 32) || decide (j = i)) := by
  unfold skiplistMark
  by_cases hw : j / 32 = i / 32
  · rw [hw, Function.update_self, BitVec.getLsbD_or, BitVec.getLsbD_shiftLeft]
    congr 1
    have hlt : j % 32 < 32 := Nat.mod_lt _ (by omega)
    by_cases hji : j = i
    · subst hji
      simp [hlt]
    · rcases Nat.lt_or_ge (j % 32) (i % 32) with h | h
      · simp [h, hji]
      · simp only [hji, decide_false, hlt, decide_true, Bool.true_and]
        rw [BitVec.getLsbD_one]
        simp
        omega
  · rw [Function.update_of_ne hw]
    have : j ≠ i := fun heq => hw (by rw [heq])
    simp [this]

end MallocBench.Slab
