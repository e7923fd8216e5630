import MallocBench.Slab.Around
import MallocBench.Slab.TinyBlocks

/-!
# New slabs

`__int_slab_init_large_and_alloc` and `__int_slab_init_packed_and_alloc` fill a region
that `__int_alloc_slab` has returned, and allocate its first block.
-/

namespace MallocBench.Slab

open Lib

/-! ## The blocks of a new region -/

/-- The offsets of a new region: the second block starts at `o`, or there is none. -/
def newOff (o j : Nat) : Nat := if j = 0 then 16 else if j = 1 then o else 4096

/-- The alloc bits of a new region. -/
def newAl (b₀ b₁ : Bool) (j : Nat) : Bool := if j = 0 then b₀ else if j = 1 then b₁ else false

section

variable {strict : Prop} {n o w b j : Nat}

theorem newBlocks_one : BlocksOk strict (newOff 4096) (newAl true false) n 1 := by
  have hoff : ∀ j, newOff 4096 j = if j = 0 then 16 else 4096 := by
    intro j
    unfold newOff
    by_cases h0 : j = 0
    · rw [if_pos h0, if_pos h0]
    · rw [if_neg h0, if_neg h0, ite_self]
  refine ⟨le_refl _, by omega, rfl, fun j => ?_, fun j hj => by omega, fun j _ => ?_, fun j hj => ?_,
    fun _ => by decide, fun _ => .inl rfl, fun j hj => by omega, 0, by omega, rfl⟩
  · rw [hoff]
    split <;> rfl
  · rw [hoff]
    split <;> omega
  · rw [hoff, if_neg (by omega)]
    refine ⟨rfl, ?_⟩
    unfold newAl
    rw [if_neg (by omega), ite_self]

/-- Two blocks: in one slab the second is free, in several the first. -/
theorem newBlocks_two {b₀ b₁ : Bool} (h16 : o % 16 = 0) (h₁ : 528 ≤ o) (h₂ : o ≤ 4096)
    (hb : b₀ = true ∨ b₁ = true) (hone : n = 1 → o + 512 ≤ 4096) (hlarge : 1 < n → b₁ = true) :
    BlocksOk strict (newOff o) (newAl b₀ b₁) n 2 := by
  refine ⟨by omega, by omega, rfl, fun j => ?_, fun j hj => ?_, fun j _ => ?_, fun j hj => ?_,
    hone, fun hn => .inl (hlarge hn), fun j hj => ?_, ?_⟩
  · unfold newOff
    split
    · rfl
    split
    · exact h16
    · rfl
  · obtain rfl : j = 0 := by omega
    show 16 + 512 ≤ o
    omega
  · unfold newOff
    split
    · omega
    split
    · exact h₂
    · omega
  · unfold newOff newAl
    rw [if_neg (by omega), if_neg (by omega), if_neg (by omega), if_neg (by omega)]
    exact ⟨rfl, rfl⟩
  · obtain rfl : j = 0 := by omega
    exact hb
  · rcases hb with hb | hb
    · exact ⟨0, by omega, hb⟩
    · exact ⟨1, by omega, hb⟩

/-- The first header word of a new region. -/
theorem blockOff_newWord (hb : b < 256) (ho : 16 ≤ o ∧ o ≤ 4096 ∧ o % 16 = 0)
    (hob : o / 16 % 256 = b) : blockOff ((w &&& 0xff) ||| (b <<< 8)) j = newOff o j := by
  have hbit : ∀ i, ((w &&& 0xff) ||| (b <<< 8)).testBit i =
      ((w.testBit i && decide (i < 8)) || (decide (8 ≤ i) && b.testBit (i - 8))) := by
    intro i
    rw [Nat.testBit_or, Nat.testBit_and, Nat.testBit_shiftLeft,
      show (0xff : Nat) = 2 ^ 8 - 1 from rfl, Nat.testBit_two_pow_sub_one]
  rcases Nat.lt_or_ge j 8 with hj | hj
  · rcases Nat.eq_zero_or_pos j with rfl | h0
    · rfl
    · refine blockOff_of_byte h0 hj ?_ fun i hi => ?_
      · unfold newOff
        rw [if_neg (by omega)]
        split
        · exact ho
        · decide
      · rw [hbit, decide_eq_false (by omega), decide_eq_true (by omega), Bool.and_false,
          Bool.false_or, Bool.true_and]
        unfold newOff
        rw [if_neg (by omega)]
        by_cases h1 : j = 1
        · subst h1
          rw [if_pos rfl, hob]
          congr 1
          omega
        · rw [if_neg h1]
          have hlt : b < 2 ^ (8 * j + i - 8) := calc
            b < 2 ^ 8 := hb
            _ ≤ 2 ^ (8 * j + i - 8) := Nat.pow_le_pow_right (by omega) (by omega)
          rw [Nat.testBit_lt_two_pow hlt]
          show false = Nat.testBit 0 i
          rw [Nat.zero_testBit]
  · rw [blockOff_ge _ hj]
    unfold newOff
    rw [if_neg (by omega), if_neg (by omega)]

/-- The second header word of a new region. -/
theorem blockAl_newWord {a : Nat} (hn : n < 2 ^ 56) (ha : a < 4) :
    blockAl (n ||| (a <<< 56)) j = newAl (a.testBit 0) (a.testBit 1) j ∧
      (n ||| (a <<< 56)) % 2 ^ 56 = n := by
  constructor
  · unfold blockAl newAl
    rw [Nat.testBit_or, Nat.testBit_shiftLeft, show 56 + j - 56 = j by omega,
      decide_eq_true (show 56 ≤ 56 + j by omega), Bool.true_and]
    have hlt : n < 2 ^ (56 + j) := calc
      n < 2 ^ 56 := hn
      _ ≤ 2 ^ (56 + j) := Nat.pow_le_pow_right (by omega) (by omega)
    rw [Nat.testBit_lt_two_pow hlt, Bool.false_or]
    by_cases h0 : j = 0
    · subst h0
      simp
    by_cases h1 : j = 1
    · subst h1
      simp
    rw [if_neg h0, if_neg h1]
    have hlt' : a < 2 ^ j := calc
      a < 2 ^ 2 := ha
      _ ≤ 2 ^ j := Nat.pow_le_pow_right (by omega) (by omega)
    rw [Nat.testBit_lt_two_pow hlt', Bool.and_false]
  · refine Nat.eq_of_testBit_eq fun i => ?_
    rw [Nat.testBit_mod_two_pow, Nat.testBit_or, Nat.testBit_shiftLeft]
    by_cases hi : i < 56
    · rw [decide_eq_true hi, decide_eq_false (by omega), Bool.true_and, Bool.false_and, Bool.or_false]
    · rw [decide_eq_false hi, Bool.false_and]
      have hlt : n < 2 ^ i := calc
        n < 2 ^ 56 := hn
        _ ≤ 2 ^ i := Nat.pow_le_pow_right (by omega) (by omega)
      rw [Nat.testBit_lt_two_pow hlt]

/-- The offset byte of a block, as the two cases of the source write it. -/
theorem offsetByte_shift (o : Nat) :
    (o &&& 0xff0) <<< 4 = (o / 16 % 256) <<< 8 ∧ (o / 16) &&& 0xff = o / 16 % 256 := by
  have hmask : ∀ x, x &&& 0xff = x % 256 := fun x => Nat.and_two_pow_sub_one_eq_mod x 8
  refine ⟨?_, hmask _⟩
  rw [← hmask]
  refine Nat.eq_of_testBit_eq fun i => ?_
  rw [Nat.testBit_shiftLeft, Nat.testBit_shiftLeft, Nat.testBit_and, Nat.testBit_and,
    show o / 16 = o >>> 4 from (Nat.shiftRight_eq_div_pow o 4).symm, Nat.testBit_shiftRight,
    show (0xff0 : Nat) = 0xff <<< 4 from rfl, Nat.testBit_shiftLeft]
  by_cases h8 : 8 ≤ i
  · rw [decide_eq_true h8, decide_eq_true (show 4 ≤ i by omega),
      decide_eq_true (show i - 4 ≥ 4 by omega), show 4 + (i - 8) = i - 4 by omega,
      show i - 4 - 4 = i - 8 by omega, Bool.true_and, Bool.true_and, Bool.true_and]
  · rw [decide_eq_false (show ¬ i ≥ 8 by omega), decide_eq_false (show ¬ i - 4 ≥ 4 by omega)]
    simp

end

section

variable {s t : Heap} {A B L : List Region} {r : Region} {bins mb sb : Nat → List Nat}
  {strict : Prop} {n y p size o e k : Nat} {off : Nat → Nat} {al : Nat → Bool}

/-! ## A new large region -/

/-- The region at `y` has become a large one with one allocated block, from `p` on. -/
structure LargeInit (strict : Prop) (s : Heap) (A : List Region) (y n : Nat) (B : List Region)
    (size p : Nat) (t : Heap) : Prop where
  blocks : ∃ o e off al k, p = y + o ∧ o + size ≤ e ∧ e ≤ 4096 * n ∧
    Reblocked strict s A ⟨y, n, .large⟩ B off al k t ∧
    ∀ o₁ e₁, UsedAt off al n k o₁ e₁ ↔ o₁ = o ∧ e₁ = e

theorem usedAt_newOne {o e : Nat} : UsedAt (newOff 4096) (newAl true false) n 1 o e ↔
    o = 16 ∧ e = 4096 * n := by
  constructor
  · rintro ⟨j, hj, -, rfl, rfl⟩
    obtain rfl : j = 0 := by omega
    exact ⟨rfl, rfl⟩
  · rintro ⟨rfl, rfl⟩
    exact ⟨0, by omega, rfl, rfl, rfl⟩

theorem freeAt_newOne {o e : Nat} : ¬ FreeAt (newOff 4096) (newAl true false) 1 o e := by
  rintro ⟨j, hj, hf, -⟩
  obtain rfl : j = 0 := by omega
  cases hf

theorem usedAt_newFirst {o₁ e₁ : Nat} : UsedAt (newOff o) (newAl true false) n 2 o₁ e₁ ↔
    o₁ = 16 ∧ e₁ = o := by
  constructor
  · rintro ⟨j, hj, hal, rfl, rfl⟩
    obtain rfl | rfl : j = 0 ∨ j = 1 := by omega
    · exact ⟨rfl, rfl⟩
    · cases hal
  · rintro ⟨rfl, rfl⟩
    exact ⟨0, by omega, rfl, rfl, rfl⟩

theorem freeAt_newFirst {o₁ e₁ : Nat} : FreeAt (newOff o) (newAl true false) 2 o₁ e₁ ↔
    o₁ = o ∧ e₁ = 4096 := by
  constructor
  · rintro ⟨j, hj, hal, rfl, rfl⟩
    obtain rfl | rfl : j = 0 ∨ j = 1 := by omega
    · cases hal
    · exact ⟨rfl, rfl⟩
  · rintro ⟨rfl, rfl⟩
    exact ⟨1, by omega, rfl, rfl, rfl⟩

theorem usedAt_newSecond {o₁ e₁ : Nat} : UsedAt (newOff o) (newAl false true) n 2 o₁ e₁ ↔
    o₁ = o ∧ e₁ = 4096 * n := by
  constructor
  · rintro ⟨j, hj, hal, rfl, rfl⟩
    obtain rfl | rfl : j = 0 ∨ j = 1 := by omega
    · cases hal
    · exact ⟨rfl, rfl⟩
  · rintro ⟨rfl, rfl⟩
    exact ⟨1, by omega, rfl, rfl, rfl⟩

theorem freeAt_newSecond {o₁ e₁ : Nat} : FreeAt (newOff o) (newAl false true) 2 o₁ e₁ ↔
    o₁ = 16 ∧ e₁ = o := by
  constructor
  · rintro ⟨j, hj, hal, rfl, rfl⟩
    obtain rfl | rfl : j = 0 ∨ j = 1 := by omega
    · exact ⟨rfl, rfl⟩
    · cases hal
  · rintro ⟨rfl, rfl⟩
    exact ⟨0, by omega, rfl, rfl, rfl⟩

/-- The header of the new region is written, after the remainder has been linked. -/
theorem newLarge_spec (h : Around strict s A ⟨y, n, .raw⟩ B) (m' : Nat → Nat)
    (sk : Nat → BitVec 32) {w b a : Nat} (hw : w = clearBit (s.mem y) 4) {P : Nat → Nat → Prop}
    (hmed : MediumLists { s with mem := m', medSkiplist := sk }
      (WithFree (FreeBlock s.mem (A ++ B)) y P) mb)
    (hm : ∀ x, ¬ MedWord s.heap (WithFree (FreeBlock s.mem (A ++ B)) y P) x → x ≠ y →
      m' x = s.mem x)
    (hP : ∀ o₁ e₁, P o₁ e₁ ↔ FreeAt (newOff o) (newAl (a.testBit 0) (a.testBit 1)) k o₁ e₁)
    (hok : BlocksOk strict (newOff o) (newAl (a.testBit 0) (a.testBit 1)) n k)
    (hb : o / 16 % 256 = b) (ho : 16 ≤ o ∧ o ≤ 4096 ∧ o % 16 = 0) (ha : a < 4)
    (hn52 : n < 2 ^ 52) :
    wp (do store64 y ((w &&& 0xff) ||| (b <<< 8)); store64 (y + 8) (n ||| (a <<< 56)))
      (fun _ t => Reblocked strict s A ⟨y, n, .large⟩ B (newOff o)
        (newAl (a.testBit 0) (a.testBit 1)) k t) { s with mem := m', medSkiplist := sk } := by
  obtain ⟨bins, hslab⟩ := h.slab
  obtain ⟨hn, -⟩ := hslab.mem_facts (r := ⟨y, n, .raw⟩) (by simp)
  have hlow : ∀ j, j < 3 → ((w &&& 0xff) ||| (b <<< 8)).testBit j =
      ((s.mem y).testBit j && !Nat.testBit 4 j) := by
    intro j hj
    rw [Nat.testBit_or, Nat.testBit_and, Nat.testBit_shiftLeft, decide_eq_false (by omega),
      Bool.false_and, Bool.or_false, show (0xff : Nat) = 2 ^ 8 - 1 from rfl,
      Nat.testBit_two_pow_sub_one, decide_eq_true (by omega), Bool.and_true, hw,
      testBit_clearBit (by omega)]
  refine h.fillLarge (by rintro ⟨⟩) hmed (fun x hx hxy _ => hm x (fun hc => hx ?_) hxy)
    (fun x e => withFree_congr hP) hok (fun j => blockOff_newWord (by omega) ho hb)
    (fun j => (blockAl_newWord (by omega) ha).1) (fun j hj => ?_) ?_
    (blockAl_newWord (j := 0) (by omega) ha).2
  · refine hc.innerWord_withFree hn fun o₁ o₂ hp => ?_
    have := hok.freeAt_bounds hn ((hP o₁ o₂).mp hp)
    omega
  · rw [hlow j (by omega)]
    have : Nat.testBit 4 j = false := by
      obtain rfl | rfl : j = 0 ∨ j = 1 := by omega
      all_goals rfl
    rw [this, Bool.not_false, Bool.and_true]
  · rw [hlow 2 (by omega), show Nat.testBit 4 2 = true from rfl, Bool.not_true, Bool.and_false]

/-- The number of slabs of a block's region. -/
def FitSlabs (n size : Nat) : Prop :=
  if n = 1 then size ≤ 4080 else 4096 ≤ size ∧ n = size / 4096 + 1

/-- **`__int_slab_init_large_and_alloc`** -/
theorem _intSlabInitLargeAndAlloc_spec (h : Around strict s A ⟨y, n, .raw⟩ B)
    (hmed : MediumLists s (FreeBlock s.mem (A ++ B)) mb) (hn52 : n < 2 ^ 52)
    (h16 : size % 16 = 0) (h512 : 512 ≤ size) (hfit : FitSlabs n size) :
    wp (_intSlabInitLargeAndAlloc y n size) (fun p t => LargeInit strict s A y n B size p t) s := by
  obtain ⟨bins, hslab⟩ := h.slab
  obtain ⟨hn, hal, hge, hle, -⟩ := hslab.mem_facts (r := ⟨y, n, .raw⟩) (by simp)
  have hbrk := hslab.brk
  have hG := blocksIn hslab h.regions
  replace hal : y % 4096 = 0 := hal
  replace hge : s.heap + 4096 ≤ y := hge
  replace hle : y + 4096 * n ≤ s.heapEnd := hle
  replace hn : 0 < n := hn
  have hvalid : s.Valid y := ⟨by omega, by omega, by omega⟩
  -- the header is not a link of a block
  have hnot : ∀ x, MedWord s.heap (FreeBlock s.mem (A ++ B)) x → x ≠ y := fun x hx hxy =>
    InnerWord.not_header hslab hG (.inl hxy) (.inl hx)
  have hmed₀ : MediumLists (s.setMem y (clearBit (s.mem y) 4))
      (WithFree (FreeBlock s.mem (A ++ B)) y fun _ _ => False) mb :=
    hmed.congr (fun x e => by simp [WithFree]) rfl (le_refl _) rfl fun x hx =>
      Function.update_of_ne (hnot x hx) _ _
  have hne : ∀ (o : Nat), o < 4096 * n → ∀ x f, FreeBlock s.mem (A ++ B) x f → x ≠ y + o :=
    fun o ho x f hx => freeBlock_ne (r := ⟨y, n, .raw⟩) hslab hG hx (by simp)
      (by simp only [Region.stop]; omega)
  -- the remainder is linked
  have hlink : ∀ o o', o % 16 = 0 → o + 512 ≤ o' → o' ≤ 4096 → 16 ≤ o →
      wp (mediumBinLink (y + o) (o' - o)) (fun _ t => ∃ m' sk mb',
        t = { s with mem := m', medSkiplist := sk } ∧
        MediumLists t (WithFree (FreeBlock s.mem (A ++ B)) y fun o₁ e₁ => o₁ = o ∧ e₁ = o') mb' ∧
        ∀ x, ¬ MedWord s.heap (WithFree (FreeBlock s.mem (A ++ B)) y
          fun o₁ e₁ => o₁ = o ∧ e₁ = o') x → x ≠ y → m' x = s.mem x)
        (s.setMem y (clearBit (s.mem y) 4)) := by
    intro o o' ho h₁ h₂ h₃
    refine wp_mono (linkIn_spec hmed₀ (by omega) hge h₁ (by omega) (by show y + o' ≤ s.brk; omega)
      (hne o (by omega)) (fun _ => id)) fun _ t ht => ?_
    obtain ⟨m', sk, mb', rfl, hmed', hm'⟩ := ht
    have hiff : ∀ x e, WithFree (FreeBlock s.mem (A ++ B)) y (fun o₁ e₁ => o₁ = o ∧ e₁ = o') x e ↔
        WithFree (FreeBlock s.mem (A ++ B)) y (fun o₁ e₁ => False ∨ (o₁ = o ∧ e₁ = o')) x e :=
      fun x e => withFree_congr fun _ _ => by simp
    refine ⟨m', sk, mb', rfl, hmed'.congr hiff rfl (le_refl _) rfl fun _ _ => rfl,
      fun x hx hxy => ?_⟩
    rw [hm' x fun hc => hx (hc.mono fun y f hy => (hiff y f).mpr hy)]
    exact Function.update_of_ne hxy _ _
  unfold _intSlabInitLargeAndAlloc
  rw [wp_bind, wp_clearFlag (by omega)]
  refine ⟨hvalid, ?_⟩
  rw [wp_bind, wp_load64]
  refine ⟨hvalid, ?_⟩
  rw [show (s.setMem y (clearBit (s.mem y) 4)).mem y = clearBit (s.mem y) 4 from
    Function.update_self ..]
  dsimp only
  rw [wp_bind, wp_mallocAssert]
  refine ⟨decide_eq_true hn52, ?_⟩
  rw [wp_ite]
  unfold FitSlabs at hfit
  by_cases hn1 : n = 1
  · -- one slab: the block is at the start, and the rest is free if it is large enough
    rw [if_pos hn1] at hfit ⊢
    rw [wp_bind, wp_mallocAssert]
    refine ⟨by simpa using hfit, ?_⟩
    dsimp only [largeSlabHeaderSize, minMediumBlockSz, slabSize, mallocAlign]
    rw [(offsetByte_shift (size + 16)).2, wp_bind, wp_ite]
    by_cases hfree : 512 ≤ 4096 - (size + 16)
    · rw [if_pos hfree, if_pos hfree]
      refine wp_mono (hlink (size + 16) 4096 (by omega) (by omega) (by omega) (by omega))
        fun _ t ht => ?_
      obtain ⟨m', sk, mb', rfl, hmed', hm'⟩ := ht
      have hdone := newLarge_spec h _ _ (a := 1) (k := 2) rfl hmed' hm' (fun o₁ e₁ => freeAt_newFirst.symm)
        (newBlocks_two (by omega) (by omega) (by omega) (.inl rfl) (fun _ => by omega)
          (fun hlt => by omega)) rfl (by omega) (by omega) hn52
      rw [wp_bind] at hdone ⊢
      refine wp_mono hdone fun _ t ht => wp_call ht fun _ t ht => wp_pure.mpr ?_
      exact ⟨16, size + 16, _, _, _, rfl, by omega, by omega, ht, fun _ _ => usedAt_newFirst⟩
    · rw [if_neg hfree, if_neg hfree]
      have hdone := newLarge_spec h (s.setMem y (clearBit (s.mem y) 4)).mem
        s.medSkiplist (a := 1) (k := 1) (b := 0) (o := 4096) rfl hmed₀
        (fun x hx hxy => Function.update_of_ne hxy _ _)
        (fun o₁ e₁ => iff_of_false id freeAt_newOne) newBlocks_one rfl (by omega) (by omega) hn52
      rw [show (0 : Nat) <<< 8 = 0 from rfl, Nat.or_zero, wp_bind] at hdone
      rw [wp_pure, wp_bind]
      refine wp_mono hdone fun _ t ht => wp_call ht fun _ t ht => wp_pure.mpr ?_
      exact ⟨16, 4096 * n, _, _, _, rfl, by omega, by omega, ht, fun _ _ => usedAt_newOne⟩
  · -- several slabs: the block ends with them, and the rest is free if it is large enough
    rw [if_neg hn1] at hfit ⊢
    rw [wp_bind, wp_mallocAssert]
    refine ⟨by simpa using hfit.1, ?_⟩
    obtain ⟨hsize, hslabs⟩ := hfit
    dsimp only [largeSlabHeaderSize, minMediumBlockSz, slabSize, mallocAlign]
    have ho : (4096 - size % 4096) % 16 = 0 := by omega
    rw [(offsetByte_shift _).1, wp_ite]
    by_cases hfree : 512 ≤ 4096 - size % 4096 - 16
    · rw [if_pos hfree, wp_bind]
      refine wp_mono (hlink 16 (4096 - size % 4096) (by omega) (by omega) (by omega) (by omega))
        fun _ t ht => ?_
      obtain ⟨m', sk, mb', rfl, hmed', hm'⟩ := ht
      have hdone := newLarge_spec h _ _ (a := 2) (k := 2) rfl hmed' hm'
        (fun o₁ e₁ => freeAt_newSecond.symm)
        (newBlocks_two ho (by omega) (by omega) (.inr rfl) (fun hlt => by omega) (fun _ => rfl)) rfl
        (by omega) (by omega) hn52
      rw [wp_bind] at hdone ⊢
      refine wp_mono hdone fun _ t ht => wp_call ht fun _ t ht => wp_pure.mpr ?_
      exact ⟨4096 - size % 4096, 4096 * n, _, _, _, rfl, by omega, by omega, ht, fun _ _ => usedAt_newSecond⟩
    · rw [if_neg hfree]
      have hdone := newLarge_spec h (s.setMem y (clearBit (s.mem y) 4)).mem
        s.medSkiplist (a := 1) (k := 1) (b := 0) (o := 4096) rfl hmed₀
        (fun x hx hxy => Function.update_of_ne hxy _ _)
        (fun o₁ e₁ => iff_of_false id freeAt_newOne) newBlocks_one rfl (by omega) (by omega) hn52
      rw [show (0 : Nat) <<< 8 = 0 from rfl, Nat.or_zero, wp_bind] at hdone
      rw [wp_bind]
      refine wp_mono hdone fun _ t ht => wp_call ht fun _ t ht => wp_pure.mpr ?_
      exact ⟨16, 4096 * n, _, _, _, rfl, by omega, by omega, ht, fun _ _ => usedAt_newOne⟩

/-! ## A new packed slab -/

/-- The free vector of a new packed slab: all blocks but the first. -/
def newFree (size j : Nat) : Bool := decide (1 ≤ j) && decide (j < packedBlocks size)

theorem newPacked_used (hsize : size ∈ packedSizes) {f : Nat → Bool}
    (hf : ∀ j, j < packedBits size → f j = newFree size j) : usedSlots size f = 1 := by
  have hfacts := packedSizes_facts hsize
  have hone : (Finset.range (packedBlocks size)).filter (fun j => f j = false) = {0} := by
    ext j
    simp only [Finset.mem_filter, Finset.mem_range, Finset.mem_singleton]
    constructor
    · rintro ⟨hj, hfj⟩
      rw [hf j (by omega), newFree, decide_eq_true hj, Bool.and_true] at hfj
      simpa using hfj
    · rintro rfl
      exact ⟨by omega, by rw [hf 0 (by omega)]; rfl⟩
  unfold usedSlots
  rw [hone]
  rfl

/-- The initial summary. -/
theorem testBit_f1InitBitv (hsize : size ∈ packedSizes) (h48 : size ≤ 48) {l : Nat} (hl : l < 16) :
    (f1InitBitv size).testBit l = true ↔
      16 * l < packedBits size ∧ ∃ i, i < 16 ∧ newFree size (16 * l + i) = true := by
  have hall : ∀ size ∈ packedSizes, size ≤ 48 → ∀ l : Fin 16, (f1InitBitv size).testBit l = true ↔
      16 * l.val < packedBits size ∧ ∃ i : Fin 16, newFree size (16 * l + i) = true := by
    decide +kernel
  rw [hall size hsize h48 ⟨l, hl⟩]
  exact and_congr_right fun _ => ⟨fun ⟨i, h⟩ => ⟨i, i.isLt, h⟩, fun ⟨i, hi, h⟩ => ⟨⟨i, hi⟩, h⟩⟩

theorem newPacked_data (hsize : size ∈ packedSizes) {f : Nat → Bool} {f1 : Nat}
    (hf : ∀ j, j < packedBits size → f j = newFree size j)
    (hf1 : size ≤ 48 → f1 = f1InitBitv size) : PackedData size f 1 f1 := by
  have hbits := packedBits_facts size
  refine ⟨hsize, fun j hj hj' => ?_, (newPacked_used hsize hf).symm, by omega, fun h48 l hl => ?_⟩
  · rw [hf j hj', newFree, decide_eq_false (show ¬ j < packedBlocks size by omega), Bool.and_false]
  · rw [hf1 h48, testBit_f1InitBitv hsize h48 hl]
    refine and_congr_right fun hlb => exists_congr fun i => and_congr_right fun hi => ?_
    rw [hf _ (by omega)]

/-- The words of the initial free vector. -/
def initWords (size : Nat) : List Nat :=
  if size ≤ 48 then lvl2InitBitv size else [2 ^ packedSlabNBlocks size - 2]

theorem initWords_facts (hsize : size ∈ packedSizes) :
    (initWords size).length ≤ 4 ∧ 64 * (initWords size).length = packedBits size ∧
      ∀ j, j < packedBits size →
        ((initWords size).getD (j / 64) 0).testBit (j % 64) = newFree size j := by
  have hall : ∀ size ∈ packedSizes, (initWords size).length ≤ 4 ∧
      64 * (initWords size).length = packedBits size ∧ ∀ j : Fin 256, j.val < packedBits size →
        ((initWords size).getD (j / 64) 0).testBit (j % 64) = newFree size j := by decide +kernel
  obtain ⟨h₁, h₂, h₃⟩ := hall size hsize
  have hbits := packedBits_facts size
  exact ⟨h₁, h₂, fun j hj => h₃ ⟨j, by omega⟩ hj⟩

theorem wp_storeLvl2 {Q : Unit → Heap → Prop} : ∀ (ws : List Nat) (a : Nat) (s : Heap),
    (∀ k, k < ws.length → s.Valid (a + 8 * k)) →
    (∀ m', (∀ k, k < ws.length → m' (a + 8 * k) = ws.getD k 0) →
      (∀ x, x < a ∨ a + 8 * ws.length ≤ x → m' x = s.mem x) → Q () { s with mem := m' }) →
    wp (storeLvl2 a ws) Q s := by
  intro ws
  induction ws with
  | nil =>
    intro a s _ hQ
    exact wp_pure.mpr (hQ s.mem (fun k hk => absurd hk (by simp)) fun _ _ => rfl)
  | cons w ws ih =>
    intro a s hv hQ
    unfold storeLvl2
    simp only [List.length_cons] at hv hQ
    rw [wp_bind, wp_store64]
    refine ⟨by simpa using hv 0 (by omega), ih (a + 8) _ (fun k hk => ?_) fun m' hm hout => ?_⟩
    · have := hv (k + 1) (by omega)
      rwa [show a + 8 * (k + 1) = a + 8 + 8 * k by omega] at this
    · refine hQ m' (fun k hk => ?_) fun x hx => ?_
      · cases k with
        | zero =>
          rw [Nat.mul_zero, Nat.add_zero, hout a (by omega)]
          exact Function.update_self ..
        | succ k =>
          rw [show a + 8 * (k + 1) = a + 8 + 8 * k by omega, hm k (by omega)]
          rfl
      · rw [hout x (by omega)]
        exact Function.update_of_ne (by omega) _ _

/-- The region at `y` has become a packed slab with its first block allocated. -/
structure PackedInit (strict : Prop) (s : Heap) (A : List Region) (y : Nat) (B : List Region)
    (size : Nat) (t : Heap) : Prop where
  inv : HeapInv strict t (A ++ ⟨y, 1, .packed⟩ :: B)
  used : ∀ x e, Used t.mem (A ++ ⟨y, 1, .packed⟩ :: B) x e ↔
    Used s.mem (A ++ B) x e ∨ PackedUsed t.mem y x e
  size_eq : packedSize t.mem y = size
  free : ∀ j, j < packedBits size → freeBit t.mem y j = newFree size j
  others : RegionsKept s (A ++ B) t
  heap : t.heap = s.heap
  heapEnd : t.heapEnd = s.heapEnd

/-- The header words of a new packed slab. -/
structure PackedHeader (s : Heap) (y size : Nat) (m : Nat → Nat) : Prop where
  low : ∀ i, i < 2 → (m y).testBit i = (s.mem y).testBit i
  packed : (m y).testBit 2 = true
  szClass : fieldOf (m y) 1 1 = sizeToSzClass size
  cnt : fieldOf (m y) 2 2 = 1
  summary : size ≤ 48 → fieldOf (m y) 4 2 = f1InitBitv size
  words : ∀ k, k < (initWords size).length → m (y + 24 + 8 * k) = (initWords size).getD k 0
  out : ∀ x, x ≠ y → x < y + 24 ∨ y + 56 ≤ x → m x = s.mem x

theorem PackedHeader.freeBit {m : Nat → Nat} {j : Nat} (h : PackedHeader s y size m)
    (hsize : size ∈ packedSizes) (hj : j < packedBits size) : freeBit m y j = newFree size j := by
  obtain ⟨-, hlen, hbit⟩ := initWords_facts hsize
  have hbits := packedBits_facts size
  unfold Slab.freeBit
  rw [decide_eq_true (by omega), Bool.true_and, h.words _ (by omega), hbit j hj]

theorem PackedHeader.size_eq {m : Nat → Nat} (h : PackedHeader s y size m)
    (hsize : size ∈ packedSizes) : packedSize m y = size := by
  have hfacts := packedSizes_facts hsize
  unfold packedSize
  rw [h.szClass]
  omega

/-- The assignments to the header. -/
theorem packedHeader_spec {Q : Unit → Heap → Prop} (hsize : size ∈ packedSizes)
    (hal : y % 8 = 0) (hv : ∀ x, y ≤ x → x + 8 ≤ y + 4096 → x % 8 = 0 → s.Valid x)
    (hQ : ∀ m, PackedHeader s y size m → Q () { s with mem := m }) :
    wp (do
        setFlag y 4
        store8 (y + 1) (sizeToSzClass size)
        store16 (y + 2) 1
        (if size ≤ packedSlab2lvlBitvThresh then do
          store16 (y + 4) (f1InitBitv size)
          storeLvl2 (y + 24) (lvl2InitBitv size)
        else
          store64 (y + 24) (2 ^ packedSlabNBlocks size - 2))) Q s := by
  have hfacts := packedSizes_facts hsize
  have hlen := (initWords_facts hsize).1
  have hvy : s.Valid y := hv y (le_refl _) (by omega) hal
  rw [wp_bind, wp_setFlag hal]
  refine ⟨hvy, ?_⟩
  rw [wp_bind, wp_storeField hal (by omega)]
  refine ⟨hvy, ?_⟩
  rw [wp_bind, wp_storeField hal (by omega)]
  refine ⟨hvy, ?_⟩
  simp only [Heap.setMem, Function.update_self, Function.update_idem]
  -- the first three fields
  generalize hw : putField (putField (setBit (s.mem y) 4) 1 1 (sizeToSzClass size)) 2 2 1 = w
  have hlow : ∀ i, i < 2 → w.testBit i = (s.mem y).testBit i := by
    intro i hi
    rw [← hw, testBit_putField_low (by omega), testBit_putField_low (by omega),
      testBit_setBit (by omega)]
    obtain rfl | rfl : i = 0 ∨ i = 1 := by omega
    · rw [show Nat.testBit 4 0 = false from rfl, Bool.or_false]
    · rw [show Nat.testBit 4 1 = false from rfl, Bool.or_false]
  have hpk : w.testBit 2 = true := by
    rw [← hw, testBit_putField_low (by omega), testBit_putField_low (by omega),
      testBit_setBit (by omega), show Nat.testBit 4 2 = true from rfl, Bool.or_true]
  have hclass : fieldOf w 1 1 = sizeToSzClass size := by
    rw [← hw, fieldOf_putField_of_disjoint (by omega), fieldOf_putField_self]
    exact Nat.mod_eq_of_lt hfacts.2.2.2.2.2.2.2.2.2.1
  have hcnt : fieldOf w 2 2 = 1 := by
    rw [← hw, fieldOf_putField_self]
    rfl
  rw [wp_ite]
  by_cases h48 : size ≤ 48
  · rw [if_pos h48]
    have hwords : initWords size = lvl2InitBitv size := if_pos h48
    rw [wp_bind, wp_storeField hal (by omega)]
    refine ⟨hvy, ?_⟩
    simp only [Heap.setMem, Function.update_self, Function.update_idem]
    refine wp_storeLvl2 _ _ _ (fun k hk => hv _ (by omega) (by rw [← hwords] at hk; omega) (by omega))
      fun m hm hout => hQ m ?_
    have hy : m y = putField w 4 2 (f1InitBitv size) :=
      (hout y (by omega)).trans (Function.update_self ..)
    refine ⟨fun i hi => ?_, ?_, ?_, ?_, fun _ => ?_, by rwa [hwords], fun x hx hxr => ?_⟩
    · rw [hy, testBit_putField_low (by omega), hlow i hi]
    · rw [hy, testBit_putField_low (by omega), hpk]
    · rw [hy, fieldOf_putField_of_disjoint (by omega), hclass]
    · rw [hy, fieldOf_putField_of_disjoint (by omega), hcnt]
    · rw [hy, fieldOf_putField_self]
      have hall : ∀ size ∈ packedSizes, size ≤ 48 → f1InitBitv size % 256 ^ 2 = f1InitBitv size := by
        decide
      exact hall size hsize h48
    · rw [← hwords] at hout
      exact (hout x (by omega)).trans (Function.update_of_ne hx _ _)
  · rw [if_neg h48, wp_store64]
    have hwords : initWords size = [2 ^ packedSlabNBlocks size - 2] := if_neg h48
    refine ⟨hv _ (by omega) (by omega) (by omega), hQ _ ?_⟩
    have hy : Function.update (Function.update s.mem y w) (y + 24) (2 ^ packedSlabNBlocks size - 2) y =
        w := by
      rw [Function.update_of_ne (by omega), Function.update_self]
    refine ⟨fun i hi => ?_, ?_, ?_, ?_, fun h => absurd h h48, fun k hk => ?_, fun x hx hxr => ?_⟩
    · rw [hy, hlow i hi]
    · rw [hy, hpk]
    · rw [hy, hclass]
    · rw [hy, hcnt]
    · rw [hwords] at hk ⊢
      obtain rfl : k = 0 := by simpa using hk
      exact Function.update_self ..
    · exact (Function.update_of_ne (by omega) _ _).trans (Function.update_of_ne hx _ _)

/-- **`__int_slab_init_packed_and_alloc`** -/
theorem _intSlabInitPackedAndAlloc_spec (h : Around strict s A ⟨y, 1, .raw⟩ B)
    (hmed : MediumLists s (FreeBlock s.mem (A ++ B)) mb) (hsize : size ∈ packedSizes) :
    wp (_intSlabInitPackedAndAlloc y size)
      (fun p t => p = packedBlock y size 0 ∧ PackedInit strict s A y B size t) s := by
  obtain ⟨bins, hslab⟩ := h.slab
  obtain ⟨sb, hsmall⟩ := h.small
  obtain ⟨hn, hal, hge, hle, -⟩ := hslab.mem_facts (r := ⟨y, 1, .raw⟩) (by simp)
  have hbrk := hslab.brk
  replace hal : y % 4096 = 0 := hal
  replace hge : s.heap + 4096 ≤ y := hge
  replace hle : y + 4096 * 1 ≤ s.heapEnd := hle
  have hfacts := packedSizes_facts hsize
  have hother : ∀ x i, PackedFree s.mem (A ++ B) x i → x ≠ y :=
    fun x i hx => packedFree_ne (r := ⟨y, 1, .raw⟩) hslab hx
  -- the header words are no links
  have hnot : ∀ x, SmallWord s.heap (PackedFree s.mem (A ++ B)) x → x < y ∨ y + 4096 ≤ x := by
    intro x hx
    rcases hx.cases with hpage | ⟨r₀, hr₀, -, hx₀⟩
    · omega
    · have hlen₀ := Region.addr_lt_stop (hslab.mem_facts (mem_insert_region (r := ⟨y, 1, .raw⟩) hr₀)).1
      have := hslab.addr_ne hr₀
      simp only [Region.stop] at this hlen₀
      omega
  have hrun := packedHeader_spec (s := s) (y := y)
    (Q := fun _ t => wp (do smallBinLink y size; pure (tinyBlockPtr0 y size))
      (fun p t => p = packedBlock y size 0 ∧ PackedInit strict s A y B size t) t)
    hsize (by omega) (fun x h₁ h₂ h₃ => ⟨by omega, by omega, h₃⟩) fun m hm => ?_
  · unfold _intSlabInitPackedAndAlloc
    simp only [wp_bind] at hrun ⊢
    exact hrun
  -- the bins do not notice, and the slab is linked
  have hsmall' : SmallLists { s with mem := m } (PackedFree s.mem (A ++ B)) sb :=
    hsmall.congr (fun _ _ => Iff.rfl) rfl (le_refl _) fun x hx => by
      have := hnot x hx
      exact hm.out x (by omega) (by omega)
  refine wp_call (hsmall'.link hal hge (by show y + 32 ≤ s.brk; omega) hfacts.2.2.2.1
    fun j hj => hother y j hj rfl) fun _ t ht => ?_
  obtain ⟨m', sb', rfl, hlinked, hm'⟩ := ht
  have hsame : ∀ x, x = y ∨ (y + 24 ≤ x ∧ x < y + 4096) → m' x = m x := by
    intro x hx
    refine hm' x ?_
    rintro (hpage | ⟨z, i, hz | ⟨rfl, -⟩, hxz⟩)
    · replace hpage : s.heap + 2048 ≤ x ∧ x < s.heap + 2232 := hpage
      omega
    · have := hnot x (.inr ⟨z, i, hz, hxz⟩)
      omega
    · omega
  have hout : ∀ x, ¬ SmallWord s.heap (PackedFree s.mem (A ++ B)) x → x < y ∨ y + 4096 ≤ x →
      m' x = s.mem x := by
    intro x hx hxr
    refine (hm' x ?_).trans (hm.out x (by omega) (by omega))
    rintro (hpage | ⟨z, i, hz | ⟨rfl, -⟩, hxz⟩)
    · exact hx (.inl hpage)
    · exact hx (.inr ⟨z, i, hz, hxz⟩)
    · omega
  have hsameHeader : SameHeader m m' y :=
    ⟨hsame y (.inl rfl), fun x h₁ h₂ => hsame x (.inr (by omega))⟩
  have hsize' : packedSize m' y = size := by
    rw [packedSize_congr (m := m) fun i _ => by rw [hsameHeader.1], hm.size_eq hsize]
  have hfree : ∀ j, j < packedBits size → freeBit m' y j = newFree size j := fun j hj => by
    rw [hsameHeader.freeBit, hm.freeBit hsize hj]
  have hdata : PackedOk m' y := by
    unfold PackedOk
    rw [hsize', hsameHeader.1, hm.cnt]
    exact newPacked_data hsize hfree hm.summary
  have hin : ∀ i, PackedIn m' y i ↔ i = packedBinIdx size := by
    intro i
    unfold PackedIn
    rw [hsize']
    constructor
    · rintro ⟨-, rfl⟩
      rfl
    · rintro rfl
      refine ⟨⟨1, by omega, ?_⟩, rfl⟩
      rw [hfree 1 (by omega), newFree, decide_eq_true (show 1 < packedBlocks size by omega)]
      rfl
  have hrok : ∀ p, Region.Ok s.mem p ⟨y, 1, .raw⟩ → Region.Ok m' p ⟨y, 1, .packed⟩ := by
    intro p hp
    refine ⟨by omega, ?_, ?_, ?_, rfl⟩
    · show (m' y).testBit 0 = _
      rw [hsameHeader.1, hm.low 0 (by omega), hp.alloc_bit]
      rfl
    · show (m' y).testBit 1 = p
      rw [hsameHeader.1, hm.low 1 (by omega), hp.prev_bit]
    · show (m' y).testBit 2 = true
      rw [hsameHeader.1, hm.packed]
  have hmed' : MediumLists { s with mem := m' } (FreeBlock s.mem (A ++ B)) mb := by
    refine mediumLists_kept hslab (fun _ => mem_insert_region) hslab.slabWord_avoids h.regions hmed rfl
      (MemFrame.of_mem rfl (le_refl _) fun x hx => hout x (fun hc => hx (.inr hc)) ?_)
    by_contra hcon
    exact hx (.inl (.inl (.inr ⟨⟨y, 1, .free⟩, by simp, rfl, by
      show y ≤ x
      omega, by
      show x < y + 4096 * 1
      omega⟩)))
  have hmout : ∀ x, ¬ MedWord s.heap (FreeBlock s.mem (A ++ B)) x →
      ¬ SmallWord s.heap (PackedFree s.mem (A ++ B)) x → x < y ∨ y + 4096 * 1 ≤ x →
      m' x = s.mem x := fun x _ hx hxr => hout x hx (by omega)
  obtain ⟨hinv, hused⟩ := h.finish ⟨y, 1, .packed⟩ m' s.medSkiplist
    (by rintro ⟨⟩) (by rintro ⟨⟩) rfl rfl hrok hdata hmout
    (hmed'.congr (fun x e => by simp) rfl (le_refl _) rfl fun _ _ => rfl)
    (hlinked.congr (fun x i => or_congr_right ⟨by
      rintro ⟨-, rfl, hx⟩
      exact ⟨rfl, (hin i).mp hx⟩, by
      rintro ⟨rfl, rfl⟩
      exact ⟨rfl, rfl, (hin _).mpr rfl⟩⟩) rfl (le_refl _) fun _ _ => rfl)
  refine wp_pure.mpr ⟨?_, hinv, hused, hsize', hfree, h.regionsKept hmout, rfl, rfl⟩
  unfold tinyBlockPtr0 packedBlock packedStart
  by_cases h48 : size ≤ 48
  · rw [if_pos h48, if_pos h48, Nat.mul_zero, Nat.add_zero]
  · rw [if_neg h48, if_neg h48, Nat.mul_zero, Nat.add_zero]

end

end MallocBench.Slab
