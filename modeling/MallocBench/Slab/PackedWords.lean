import MallocBench.Lib.Bits
import MallocBench.Slab.Access
import MallocBench.Slab.Packed

/-!
# The header words of a packed slab, bit by bit

What writing the count, a lane of a two-level vector, its summary or the whole
vector does to the data of `PackedOk`. A lane is one of the 16-bit words `ps_f2[l]`.
-/

namespace MallocBench.Slab

open Lib

section

variable {m m' : Nat → Nat} {a l i j k n k' n' v w size : Nat}

/-! ## Fields -/

theorem fieldOf_putField_of_disjoint (h : k' + n' ≤ k ∨ k + n ≤ k') :
    fieldOf (putField w k n v) k' n' = fieldOf w k' n' := by
  refine Nat.eq_of_testBit_eq fun i => ?_
  rw [testBit_fieldOf, testBit_fieldOf, testBit_putField]
  by_cases hi : i < 8 * n'
  · split_ifs with h₁ h₂
    · rfl
    · omega
    · rfl
  · rw [decide_eq_false hi, Bool.false_and, Bool.false_and]

/-! ## The free vector -/

/-- Bits of a lane are bits of the free vector. -/
theorem testBit_lane (hl : l < 16) :
    (fieldOf (m (a + 24 + 8 * (l / 4))) (2 * (l % 4)) 2).testBit i =
      (decide (i < 16) && freeBit m a (16 * l + i)) := by
  rw [testBit_fieldOf]
  unfold freeBit
  by_cases hi : i < 16
  · rw [decide_eq_true (show i < 8 * 2 by omega), decide_eq_true (show 16 * l + i < 256 by omega), show (16 * l + i) / 64 = l / 4 by omega,
      show (16 * l + i) % 64 = 8 * (2 * (l % 4)) + i by omega]
    rfl
  · rw [decide_eq_false (show ¬ i < 8 * 2 by omega)]
    rfl

theorem freeBit_header : freeBit (Function.update m a v) a = freeBit m a := by
  funext j
  unfold freeBit
  rw [Function.update_of_ne (by omega)]

theorem freeBit_storeLane (hl : l < 16) :
    freeBit (Function.update m (a + 24 + 8 * (l / 4))
      (putField (m (a + 24 + 8 * (l / 4))) (2 * (l % 4)) 2 v)) a j =
        if j / 16 = l then v.testBit (j % 16) else freeBit m a j := by
  unfold freeBit
  by_cases hj : j < 256
  · rw [decide_eq_true hj, Bool.true_and, Bool.true_and]
    by_cases hw : j / 64 = l / 4
    · rw [hw, Function.update_self, testBit_putField]
      by_cases hjl : j / 16 = l
      · rw [if_neg (by omega), if_pos (by omega), if_pos hjl]
        congr 1
        omega
      · rw [if_neg hjl]
        split_ifs
        · rfl
        · omega
        · rfl
    · rw [Function.update_of_ne (by omega), if_neg (by omega)]
  · rw [decide_eq_false hj, Bool.false_and, Bool.false_and, if_neg (by omega)]

theorem freeBit_storeWord : freeBit (Function.update m (a + 24) v) a j =
    if j < 64 then v.testBit j else freeBit m a j := by
  unfold freeBit
  by_cases hj : j < 64
  · rw [if_pos hj, decide_eq_true (show j < 256 by omega), show j / 64 = 0 by omega,
      Nat.mul_zero, Nat.add_zero, Function.update_self, Bool.true_and, Nat.mod_eq_of_lt hj]
  · rw [if_neg hj, Function.update_of_ne (by omega)]

theorem getLsbD_lane (hl : l < 16) :
    (BitVec.ofNat 16 (fieldOf (m (a + 24 + 8 * (l / 4))) (2 * (l % 4)) 2)).getLsbD i =
      (decide (i < 16) && freeBit m a (16 * l + i)) := by
  rw [BitVec.getLsbD_ofNat, testBit_lane hl, ← Bool.and_assoc, Bool.and_self]

theorem getLsbD_word : (BitVec.ofNat 64 (m (a + 24))).getLsbD i =
    (decide (i < 64) && freeBit m a i) := by
  rw [BitVec.getLsbD_ofNat]
  unfold freeBit
  by_cases hi : i < 64
  · rw [decide_eq_true hi, decide_eq_true (show i < 256 by omega), show i / 64 = 0 by omega,
      Nat.mul_zero, Nat.add_zero, Nat.mod_eq_of_lt hi]
    rfl
  · rw [decide_eq_false hi, Bool.false_and, Bool.false_and]

theorem getLsbD_summary : (BitVec.ofNat 16 (fieldOf w 4 2)).getLsbD i = (fieldOf w 4 2).testBit i := by
  rw [BitVec.getLsbD_ofNat, testBit_fieldOf]
  by_cases hi : i < 16
  · rw [decide_eq_true hi, Bool.true_and]
  · rw [decide_eq_false hi]
    rfl

/-! ## One bit changes -/

/-- One block of the slab at `a` becomes free (`b`) or allocated, and the count
becomes `cnt`: the header words afterwards. -/
structure BitChanged (m m' : Nat → Nat) (a j : Nat) (b : Bool) (cnt : Nat) : Prop where
  low : ∀ i, i < 16 → (m' a).testBit i = (m a).testBit i
  cnt : fieldOf (m' a) 2 2 = cnt
  free : freeBit m' a = Function.update (freeBit m a) j b
  /-- the summary stays right -/
  lvl1 : packedSize m a ≤ 48 → (∀ l, l < 16 → ((fieldOf (m a) 4 2).testBit l = true ↔
      16 * l < packedBits (packedSize m a) ∧ ∃ i, i < 16 ∧ freeBit m a (16 * l + i) = true)) →
    ∀ l, l < 16 → ((fieldOf (m' a) 4 2).testBit l = true ↔ 16 * l < packedBits (packedSize m a) ∧
      ∃ i, i < 16 ∧ Function.update (freeBit m a) j b (16 * l + i) = true)

/-- The header words of the slab at `a` are the same, the links apart. -/
def SameHeader (m m' : Nat → Nat) (a : Nat) : Prop :=
  m' a = m a ∧ ∀ x, a + 24 ≤ x → x < a + 56 → m' x = m x

theorem SameHeader.freeBit (h : SameHeader m m' a) : freeBit m' a = freeBit m a := by
  funext j
  unfold Slab.freeBit
  by_cases hj : j < 256
  · rw [h.2 _ (by omega) (by omega)]
  · rw [decide_eq_false hj]
    rfl

theorem BitChanged.congr_left {m₀ : Nat → Nat} {b : Bool} {cnt : Nat}
    (h : BitChanged m m' a j b cnt) (hs : SameHeader m₀ m a) : BitChanged m₀ m' a j b cnt := by
  have hf := hs.freeBit
  have hsize : packedSize m a = packedSize m₀ a := by
    unfold packedSize
    rw [hs.1]
  refine ⟨fun i hi => by rw [h.low i hi, hs.1], h.cnt, by rw [h.free, hf], ?_⟩
  have := h.lvl1
  rwa [hsize, hf, hs.1] at this

theorem BitChanged.congr_right {m₂ : Nat → Nat} {b : Bool} {cnt : Nat}
    (h : BitChanged m m' a j b cnt) (hs : SameHeader m' m₂ a) : BitChanged m m₂ a j b cnt :=
  ⟨fun i hi => by rw [hs.1, h.low i hi], by rw [hs.1, h.cnt], by rw [hs.freeBit, h.free],
    by rw [hs.1]; exact h.lvl1⟩

theorem packedSize_congr (h : ∀ i, i < 16 → (m' a).testBit i = (m a).testBit i) :
    packedSize m' a = packedSize m a := by
  unfold packedSize
  have : fieldOf (m' a) 1 1 = fieldOf (m a) 1 1 := by
    refine Nat.eq_of_testBit_eq fun i => ?_
    rw [testBit_fieldOf, testBit_fieldOf]
    by_cases hi : i < 8
    · rw [h _ (by omega)]
    · rw [decide_eq_false (by omega)]
      rfl
  rw [this]

/-- The three writes of `__packed_alloc_N` and `__packed_free_N`. -/
theorem bitChanged_lane (cnt : Nat) {v₁ v₂ : Nat} {b : Bool} (hjl : j / 16 = l) (hj : j < 256)
    (hjb : packedSize m a ≤ 48 → j < packedBits (packedSize m a)) (hcnt : cnt < 2 ^ 16)
    (hv₂ : ∀ i, i < 16 → v₂.testBit i = Function.update (freeBit m a) j b (16 * l + i))
    (hv₁ : ∀ l', l' < 16 → (v₁.testBit l' = true ↔ if l' = l then ∃ i, i < 16 ∧ v₂.testBit i = true
      else (fieldOf (m a) 4 2).testBit l' = true)) :
    BitChanged m (Function.update (Function.update (Function.update m a (putField (m a) 2 2 cnt))
      (a + 24 + 8 * (l / 4)) (putField (m (a + 24 + 8 * (l / 4))) (2 * (l % 4)) 2 v₂))
      a (putField (putField (m a) 2 2 cnt) 4 2 v₁)) a j b cnt := by
  subst hjl
  refine ⟨fun i hi => ?_, ?_, ?_, fun h48 hold l hl => ?_⟩
  · rw [Function.update_self, testBit_putField_low (by omega), testBit_putField_low (by omega)]
  · rw [Function.update_self, fieldOf_putField_of_disjoint (.inl (by omega)), fieldOf_putField_self]
    exact Nat.mod_eq_of_lt hcnt
  · rw [freeBit_header]
    funext i
    have hl : j / 16 < 16 := by omega
    have hstore := freeBit_storeLane (m := Function.update m a (putField (m a) 2 2 cnt)) (a := a)
      (j := i) (v := v₂) hl
    rw [Function.update_of_ne (show a + 24 + 8 * (j / 16 / 4) ≠ a by omega), freeBit_header] at hstore
    rw [hstore]
    split_ifs with hi
    · rw [hv₂ _ (by omega), show 16 * (j / 16) + i % 16 = i by omega]
    · rw [Function.update_of_ne (by omega)]
  · rw [Function.update_self, fieldOf_putField_self, show 256 ^ 2 = 2 ^ 16 from rfl,
      Nat.testBit_mod_two_pow, decide_eq_true hl, Bool.true_and, hv₁ l hl]
    by_cases hlj : l = j / 16
    · subst hlj
      rw [if_pos rfl]
      have := hjb h48
      constructor
      · rintro ⟨i, hi, hbit⟩
        exact ⟨by omega, i, hi, by rw [← hv₂ i hi]; exact hbit⟩
      · rintro ⟨-, i, hi, hbit⟩
        exact ⟨i, hi, by rw [hv₂ i hi]; exact hbit⟩
    · rw [if_neg hlj, hold l hl]
      refine and_congr_right fun _ => exists_congr fun i => and_congr_right fun hi => ?_
      rw [Function.update_of_ne (by omega)]

/-- The two writes of `__packed_alloc` and `__packed_free`. -/
theorem bitChanged_word (cnt : Nat) {v : Nat} {b : Bool} (h48 : 48 < packedSize m a) (hj : j < 64)
    (hcnt : cnt < 2 ^ 16) (hv : ∀ i, i < 64 → v.testBit i = Function.update (freeBit m a) j b i) :
    BitChanged m (Function.update (Function.update m a (putField (m a) 2 2 cnt)) (a + 24) v)
      a j b cnt := by
  have hne : a ≠ a + 24 := by omega
  refine ⟨fun i hi => ?_, ?_, ?_, fun h => absurd h (by omega)⟩
  · rw [Function.update_of_ne hne, Function.update_self, testBit_putField_low (by omega)]
  · rw [Function.update_of_ne hne, Function.update_self, fieldOf_putField_self]
    exact Nat.mod_eq_of_lt hcnt
  · funext i
    rw [freeBit_storeWord, freeBit_header]
    split_ifs with hi
    · exact hv i hi
    · rw [Function.update_of_ne (by omega)]

/-! ## The vectors that are written -/

variable {W : Nat} {x : BitVec W} {c : Nat}

theorem testBit_xor_one (hc : c < W) (i : Nat) :
    (x ^^^ (1#W <<< c)).toNat.testBit i = (x.getLsbD i ^^ decide (i = c)) := by
  show (x ^^^ (1#W <<< c)).getLsbD i = _
  rw [BitVec.getLsbD_xor, BitVec.getLsbD_shiftLeft, BitVec.getLsbD_one]
  congr 1
  by_cases hic : i = c
  · subst hic
    simp [hc]
    omega
  · by_cases hlt : i < c
    · simp [hlt, hic]
    · have : ¬ i - c = 0 := by omega
      simp [hic, this]

theorem testBit_or_one (hc : c < W) (i : Nat) :
    (x ||| (1#W <<< c)).toNat.testBit i = (x.getLsbD i || decide (i = c)) := by
  show (x ||| (1#W <<< c)).getLsbD i = _
  rw [BitVec.getLsbD_or, BitVec.getLsbD_shiftLeft, BitVec.getLsbD_one]
  congr 1
  by_cases hic : i = c
  · subst hic
    simp [hc]
    omega
  · by_cases hlt : i < c
    · simp [hlt, hic]
    · have : ¬ i - c = 0 := by omega
      simp [hic, this]

theorem bitVec_eq_zero_iff : x = 0 ↔ ¬ ∃ i, i < W ∧ x.toNat.testBit i = true := by
  constructor
  · rintro rfl ⟨i, -, hi⟩
    simp at hi
  · intro hnone
    refine BitVec.eq_of_getLsbD_eq fun i hi => ?_
    rw [show (0 : BitVec W).getLsbD i = false from BitVec.getLsbD_zero]
    by_contra hne
    exact hnone ⟨i, hi, eq_true_of_ne_false hne⟩

end

end MallocBench.Slab
