import Mathlib.Data.Nat.Bitwise

/-!
# Scanning the set bits of a machine word

The lowest set bit of a bit vector is at `ctz`; `x &&& (x - 1)` clears it and
keeps the others. Together they visit the set bits in increasing order.
-/

namespace MallocBench.Lib

/-- The bits of `n - 1` when the lowest set bit of `n` is at `c`. -/
theorem testBit_pred {n c : Nat} (hc : n.testBit c = true)
    (hlow : ∀ i, i < c → n.testBit i = false) (j : Nat) :
    (n - 1).testBit j = if j < c then true else if j = c then false else n.testBit j := by
  have hmod : n % 2 ^ c = 0 := by
    refine Nat.eq_of_testBit_eq fun i => ?_
    rw [Nat.testBit_mod_two_pow, Nat.zero_testBit]
    by_cases hi : i < c
    · simp [hlow i hi]
    · simp [hi]
  -- `n = 2 ^ c * (2 * k + 1)`
  obtain ⟨k, hk⟩ : ∃ k, n / 2 ^ c = 2 * k + 1 := by
    have hodd : (n / 2 ^ c).testBit 0 = true := by
      rw [Nat.testBit_div_two_pow]
      simpa using hc
    rw [Nat.testBit_zero, decide_eq_true_eq] at hodd
    exact ⟨n / 2 ^ c / 2, by omega⟩
  have hn : n = 2 ^ c * (2 * k + 1) := by
    have := Nat.div_add_mod n (2 ^ c)
    rw [hmod, hk] at this
    omega
  have hpos : 0 < 2 ^ c := Nat.two_pow_pos c
  have hsub : n - 1 = 2 ^ c * (2 * k) + (2 ^ c - 1) := by
    rw [hn, Nat.mul_add, Nat.mul_one]
    omega
  rw [hsub, Nat.testBit_two_pow_mul_add _ (by omega)]
  by_cases hj : j < c
  · rw [if_pos hj, if_pos hj, Nat.testBit_two_pow_sub_one]
    simp [hj]
  · rw [if_neg hj, if_neg hj]
    by_cases hjc : j = c
    · subst hjc
      simp
    · rw [if_neg hjc]
      have hnj : n.testBit j = (2 * k + 1).testBit (j - c) := by
        rw [← hk, Nat.testBit_div_two_pow, Nat.sub_add_cancel (by omega)]
      obtain ⟨i, hi⟩ : ∃ i, j - c = i + 1 := ⟨j - c - 1, by omega⟩
      rw [hnj, hi, Nat.testBit_succ, Nat.testBit_succ]
      congr 1
      omega

variable {w : Nat} {x : BitVec w}

theorem toNat_eq_zero_iff : x.toNat = 0 ↔ x = 0 :=
  ⟨fun h => BitVec.eq_of_toNat_eq h, fun h => h ▸ rfl⟩

/-- Clearing bits takes away what they stand for. -/
theorem toNat_and_not (x m : BitVec w) : (x &&& ~~~m).toNat = x.toNat - (x &&& m).toNat := by
  have hdisj : (x &&& ~~~m) &&& (x &&& m) = 0#w := by
    ext i hi
    simp
    grind
  have hor : (x &&& ~~~m) ||| (x &&& m) = x := by
    ext i hi
    simp
    grind
  have hadd := BitVec.toNat_add_of_and_eq_zero hdisj
  rw [BitVec.add_eq_or_of_and_eq_zero _ _ hdisj, hor] at hadd
  omega

theorem ctz_toNat_lt (hx : x ≠ 0) : x.ctz.toNat < w := by
  have h := BitVec.ctz_lt_iff_ne_zero.mpr hx
  rw [BitVec.lt_def] at h
  simpa using h

/-- `x &&& (x - 1)` clears the lowest set bit of `x` and keeps the others. -/
theorem getLsbD_and_sub_one (hx : x ≠ 0) (j : Nat) :
    (x &&& (x - 1)).getLsbD j = (x.getLsbD j && decide (j ≠ x.ctz.toNat)) := by
  have hc : x.toNat.testBit x.ctz.toNat = true := BitVec.getLsbD_true_ctz_of_ne_zero hx
  have hlow : ∀ i, i < x.ctz.toNat → x.toNat.testBit i = false :=
    fun i hi => BitVec.getLsbD_false_of_lt_ctz hi
  have hw := ctz_toNat_lt hx
  have hone : (1 : BitVec w).toNat = 1 := by
    have h2 : 1 < 2 ^ w := Nat.one_lt_two_pow (by omega)
    simp [Nat.mod_eq_of_lt h2]
  have hpos : 0 < x.toNat := by
    rcases Nat.eq_zero_or_pos x.toNat with h | h
    · rw [h] at hc
      simp at hc
    · exact h
  have hsub : (x - 1).toNat = x.toNat - 1 := by
    rw [BitVec.toNat_sub_of_le (by rw [BitVec.le_def, hone]; exact hpos), hone]
  show (x &&& (x - 1)).toNat.testBit j = (x.toNat.testBit j && decide (j ≠ x.ctz.toNat))
  rw [BitVec.toNat_and, Nat.testBit_and, hsub, testBit_pred hc hlow]
  by_cases hj : j < x.ctz.toNat
  · simp [hlow j hj]
  · by_cases hjc : j = x.ctz.toNat
    · simp [hjc]
    · simp [hj, hjc]

/-- `(1 << b) - 1` has the bits below `b`. -/
theorem getLsbD_lowMask {b : Nat} (hb : b < w) (j : Nat) :
    ((1#w <<< b) - 1).getLsbD j = decide (j < b) := by
  have hlt : 2 ^ b < 2 ^ w := Nat.pow_lt_pow_right (by omega) hb
  have hpos : 0 < 2 ^ b := Nat.two_pow_pos b
  have hone : (1 : BitVec w).toNat = 1 := by
    have h2 : 1 < 2 ^ w := Nat.one_lt_two_pow (by omega)
    simp [Nat.mod_eq_of_lt h2]
  have hshift : (1#w <<< b).toNat = 2 ^ b := by
    rw [BitVec.toNat_shiftLeft, show (1#w).toNat = 1 from hone, Nat.shiftLeft_eq, Nat.one_mul,
      Nat.mod_eq_of_lt hlt]
  have hsub : ((1#w <<< b) - 1).toNat = 2 ^ b - 1 := by
    rw [BitVec.toNat_sub_of_le (by rw [BitVec.le_def, hone, hshift]; exact hpos), hone, hshift]
  show ((1#w <<< b) - 1).toNat.testBit j = _
  rw [hsub, Nat.testBit_two_pow_sub_one]

/-- Testing the lowest bit with a mask. -/
theorem and_one_eq_zero_iff (hw : 0 < w) : x &&& 1#w = 0 ↔ x.getLsbD 0 = false := by
  constructor
  · intro h
    have := congrArg (BitVec.getLsbD · 0) h
    simpa [BitVec.getLsbD_and, BitVec.getLsbD_one, hw] using this
  · intro h
    refine BitVec.eq_of_getLsbD_eq fun i hi => ?_
    rw [BitVec.getLsbD_and, BitVec.getLsbD_one]
    by_cases h0 : i = 0
    · subst h0
      simp [h]
    · simp [h0]

/-- How far the scan of `x` has come: the lowest set bit, or the width. -/
def scanPos (x : BitVec w) : Nat := if x = 0 then w else x.ctz.toNat

theorem scanPos_le : scanPos x ≤ w := by
  unfold scanPos
  split
  · exact le_refl _
  · exact (ctz_toNat_lt ‹_›).le

theorem scanPos_lt_clear (hx : x ≠ 0) : scanPos x < scanPos (x &&& (x - 1)) := by
  unfold scanPos
  rw [if_neg hx]
  by_cases h0 : x &&& (x - 1) = 0
  · rw [if_pos h0]
    exact ctz_toNat_lt hx
  · rw [if_neg h0]
    by_contra hle
    have hbit := BitVec.getLsbD_true_ctz_of_ne_zero h0
    rw [getLsbD_and_sub_one hx] at hbit
    simp only [ne_eq, Bool.and_eq_true, decide_eq_true_eq] at hbit
    have := BitVec.getLsbD_false_of_lt_ctz (x := x) (i := (x &&& (x - 1)).ctz.toNat) (by omega)
    rw [this] at hbit
    exact absurd hbit.1 (by simp)

/-! ## Printing -/

/-- A pointer, as `%p` prints it. -/
def formatPtr (ptr : Nat) : String :=
  if ptr = 0 then "(nil)" else "0x" ++ String.ofList (Nat.toDigits 16 ptr)

end MallocBench.Lib
