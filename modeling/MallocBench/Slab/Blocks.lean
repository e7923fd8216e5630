import MallocBench.Slab.Access
import MallocBench.Slab.Medium

/-!
# The blocks of a large region

A region that is neither free nor packed has between one and eight blocks. The
two header words give the offset and the alloc bit of each; `BlocksOk` says when
they describe a well-formed list of blocks. The second half says how freeing,
allocating and splitting change such a list.

With `strict`, the last block of a region of several slabs is allocated. Without
it, the last block may be a free one that ends with the first slab, while the
region keeps its other slabs.
-/

namespace MallocBench.Slab

/-- The offset of block `j` in the header word `w`, 4096 when there is none. -/
def blockOff (w j : Nat) : Nat :=
  if j = 0 then 16 else if j < 8 then adjOffset (fieldOf w j 1 * 16) else 4096

/-- The alloc bit of block `j` in the second header word `w`. -/
def blockAl (w j : Nat) : Bool := decide (j < 8) && w.testBit (56 + j)

/-- `k` blocks at the offsets `off` with alloc bits `al`, in `n` slabs. -/
structure BlocksOk (strict : Prop) (off : Nat → Nat) (al : Nat → Bool) (n k : Nat) : Prop where
  pos : 1 ≤ k
  le : k ≤ 8
  first : off 0 = 16
  aligned : ∀ j, off j % 16 = 0
  /-- all blocks but the last have at least the minimal size -/
  step : ∀ j, j + 1 < k → off j + 512 ≤ off (j + 1)
  page : ∀ j, j < k → off j ≤ 4096
  stop : ∀ j, k ≤ j → off j = 4096 ∧ al j = false
  /-- so does the last one when the region is a single slab -/
  last_one : n = 1 → off (k - 1) + 512 ≤ 4096
  /-- otherwise it is the large block -/
  last_large : 1 < n → al (k - 1) = true ∨ (¬ strict ∧ off (k - 1) + 512 ≤ 4096)
  /-- no two adjacent blocks are free -/
  coalesced : ∀ j, j + 1 < k → al j = true ∨ al (j + 1) = true
  used : ∃ j, j < k ∧ al j = true

/-- The number of blocks: all of those before the first entry that is neither
within the page nor allocated. -/
def blockCnt (off : Nat → Nat) (al : Nat → Bool) : Nat :=
  (List.range 7).findIdx (fun j => off (j + 1) == 4096 && !al (j + 1)) + 1

/-- The entries up to `i`, and those after the next `c`. -/
def dropAfter {α : Type} (f : Nat → α) (i c : Nat) (j : Nat) : α :=
  if j ≤ i then f j else f (j + c)

/-- The entries with `v` put in after `i`. -/
def insertAfter {α : Type} (f : Nat → α) (i : Nat) (v : α) (j : Nat) : α :=
  if j ≤ i then f j else if j = i + 1 then v else f (j - 1)

/-- The offsets before `i`, and nothing after. -/
def cutAt (f : Nat → Nat) (i j : Nat) : Nat :=
  if j < i then f j else 4096

section

variable {α : Type} {f : Nat → α} {i c j : Nat} {v : α}

theorem cutAt_lt {f : Nat → Nat} (h : j < i) : cutAt f i j = f j := if_pos h

theorem cutAt_ge {f : Nat → Nat} (h : i ≤ j) : cutAt f i j = 4096 := if_neg (by omega)

theorem dropAfter_le (h : j ≤ i) : dropAfter f i c j = f j := if_pos h

theorem dropAfter_gt (h : i < j) : dropAfter f i c j = f (j + c) := if_neg (by omega)

theorem dropAfter_zero : dropAfter f i 0 = f := by
  funext j
  unfold dropAfter
  split <;> rfl

theorem insertAfter_le (h : j ≤ i) : insertAfter f i v j = f j := if_pos h

theorem insertAfter_new (h : j = i + 1) : insertAfter f i v j = v := by
  unfold insertAfter
  rw [if_neg (by omega), if_pos h]

theorem insertAfter_gt (h : i + 1 < j) : insertAfter f i v j = f (j - 1) := by
  unfold insertAfter
  rw [if_neg (by omega), if_neg (by omega)]

end

namespace BlocksOk

variable {strict : Prop} {off : Nat → Nat} {al : Nat → Bool} {n k i j : Nat}

theorem page' (h : BlocksOk strict off al n k) (j : Nat) : off j ≤ 4096 := by
  rcases Nat.lt_or_ge j k with hj | hj
  · exact h.page j hj
  · exact (h.stop j hj).1.le

theorem lt_of_al (h : BlocksOk strict off al n k) (hj : al j = true) : j < k := by
  by_contra hge
  rw [(h.stop j (by omega)).2] at hj
  cases hj

/-- Offsets increase by the minimal block size. -/
theorem add_le (h : BlocksOk strict off al n k) (hij : i < j) (hj : j < k) :
    off i + 512 * (j - i) ≤ off j := by
  induction j with
  | zero => omega
  | succ j ih =>
    have hs := h.step j (by omega)
    rcases Nat.lt_or_ge i j with hlt | hge
    · have := ih hlt (by omega)
      omega
    · obtain rfl : i = j := by omega
      omega

theorem off_lt (h : BlocksOk strict off al n k) (hij : i < j) (hj : j < k) : off i < off j := by
  have := h.add_le hij hj
  omega

theorem off_ge (h : BlocksOk strict off al n k) (j : Nat) : 16 ≤ off j := by
  rcases Nat.lt_or_ge j k with hj | hj
  · rcases Nat.eq_zero_or_pos j with rfl | hpos
    · exact h.first.ge
    · have := h.add_le hpos hj
      have := h.first
      omega
  · rw [(h.stop j hj).1]
    omega

theorem off_inj (h : BlocksOk strict off al n k) (hi : i < k) (hj : j < k) (heq : off i = off j) :
    i = j := by
  rcases Nat.lt_trichotomy i j with hij | hij | hij
  · have := h.off_lt hij hj
    omega
  · exact hij
  · have := h.off_lt hij hi
    omega

/-- Only the last block can start at the end of the page. -/
theorem eq_last_of_page (h : BlocksOk strict off al n k) (hj : j < k) (heq : off j = 4096) :
    j = k - 1 := by
  by_contra hne
  have := h.step j (by omega)
  have := h.page (j + 1) (by omega)
  omega

/-- A free block has at least the minimal size, and ends within the page. -/
theorem free_size (h : BlocksOk strict off al n k) (hn : 0 < n) (hj : j < k) (hal : al j = false) :
    off j + 512 ≤ off (j + 1) := by
  rcases Nat.lt_or_ge (j + 1) k with hlt | hge
  · exact h.step j hlt
  · obtain rfl : j = k - 1 := by omega
    rw [(h.stop (k - 1 + 1) (by omega)).1]
    rcases Nat.lt_or_ge 1 n with hn1 | hn1
    · rcases h.last_large hn1 with hl | hl
      · rw [hl] at hal
        cases hal
      · exact hl.2
    · exact h.last_one (by omega)

theorem off_le_succ (h : BlocksOk strict off al n k) (j : Nat) : off j ≤ off (j + 1) := by
  rcases Nat.lt_or_ge (j + 1) k with hlt | hge
  · exact (h.off_lt (Nat.lt_succ_self j) hlt).le
  · rw [(h.stop (j + 1) hge).1]
    exact h.page' j

/-- A block ends before the next one starts, or with the first page. -/
theorem off_mono (h : BlocksOk strict off al n k) (hij : i ≤ j) : off i ≤ off j :=
  monotone_nat_of_le_succ h.off_le_succ hij

/-- The number of blocks can be read off the header words. -/
theorem cnt (h : BlocksOk strict off al n k) (hn : 0 < n) : blockCnt off al = k := by
  have hpos := h.pos
  have hle := h.le
  have hbefore : ∀ j, j + 1 < k → (off (j + 1) == 4096 && !al (j + 1)) = false := by
    intro j hj
    by_contra hcon
    simp only [Bool.not_eq_false, Bool.and_eq_true, beq_iff_eq, Bool.not_eq_true'] at hcon
    have := h.free_size hn hj hcon.2
    have := h.page' (j + 1 + 1)
    omega
  unfold blockCnt
  rcases Nat.lt_or_ge k 8 with hlt | hge
  · have hidx : (List.range 7).findIdx (fun j => off (j + 1) == 4096 && !al (j + 1)) = k - 1 := by
      refine (List.findIdx_eq (by simp; omega)).mpr ⟨?_, fun j hj => ?_⟩
      · obtain ⟨ho, ha⟩ := h.stop (k - 1 + 1) (by omega)
        simp only [List.getElem_range, ho, ha]
        rfl
      · simp only [List.getElem_range]
        exact hbefore j (by omega)
    omega
  · have hidx : (List.range 7).findIdx (fun j => off (j + 1) == 4096 && !al (j + 1)) = 7 := by
      refine (List.findIdx_eq_length_of_false fun j hj => ?_).trans (by simp)
      exact hbefore j (by simp at hj; omega)
    omega

theorem weaken (h : BlocksOk strict off al n k) : BlocksOk False off al n k :=
  ⟨h.pos, h.le, h.first, h.aligned, h.step, h.page, h.stop, h.last_one,
    fun hn => (h.last_large hn).imp_right fun hl => ⟨not_false, hl.2⟩, h.coalesced, h.used⟩

/-! ## Freeing a block -/

/-- The block `i` is merged with the free blocks around it; `n'` slabs stay. -/
theorem merge (h : BlocksOk strict off al n k) (hi : i < k) {pf nf : Nat} (hpf : pf ≤ 1)
    (hnf : nf ≤ 1) (hpi : pf ≤ i) (hp : pf = 1 ↔ 0 < i ∧ al (i - 1) = false)
    (hn : nf = 1 ↔ i + 1 < k ∧ al (i + 1) = false)
    (hsize : off (i - pf) + 512 ≤ off (i + 1 + nf)) {n' : Nat} (hn' : n' = n ∨ (n' = 1 ∧ i + 1 = k))
    (hlast : i + 1 = k → 1 < n' → ¬ strict)
    (hused : ∃ j, Function.update (dropAfter al (i - pf) (pf + nf)) (i - pf) false j = true) :
    BlocksOk strict (dropAfter off (i - pf) (pf + nf))
      (Function.update (dropAfter al (i - pf) (pf + nf)) (i - pf) false) n' (k - pf - nf) := by
  have hle := h.le
  have hpos := h.pos
  have hkn : pf + nf < k := by
    rcases Nat.eq_zero_or_pos nf with h0 | h0
    · omega
    · have := (hn.mp (by omega)).1
      omega
  have hend : off (i + 1 + nf) ≤ 4096 := h.page' _
  have hnfk : i + nf < k := by
    rcases Nat.eq_zero_or_pos nf with h0 | h0
    · omega
    · have := (hn.mp (by omega)).1
      omega
  -- the neighbours of the merged block are allocated
  have hprev : ∀ j, j + 1 = i - pf → al j = true := by
    intro j hj
    rcases Nat.eq_zero_or_pos pf with h0 | h0
    · subst h0
      by_contra hne
      have := hp.mpr ⟨by omega, by rw [show i - 1 = j by omega]; simpa using hne⟩
      omega
    · have hpf1 : pf = 1 := by omega
      obtain ⟨-, hfree⟩ := hp.mp hpf1
      rcases h.coalesced j (by omega) with hl | hl
      · exact hl
      · rw [show j + 1 = i - 1 by omega, hfree] at hl
        cases hl
  have hnext : i + 1 + nf < k → al (i + 1 + nf) = true := by
    intro hlt
    rcases Nat.eq_zero_or_pos nf with h0 | h0
    · subst h0
      by_contra hne
      have := hn.mpr ⟨by omega, by simpa using hne⟩
      omega
    · have hnf1 : nf = 1 := by omega
      obtain ⟨-, hfree⟩ := hn.mp hnf1
      rcases h.coalesced (i + 1) (by omega) with hl | hl
      · rw [hfree] at hl
        cases hl
      · rw [hnf1]
        exact hl
  refine ⟨by omega, by omega, ?_, fun j => ?_, fun j hj => ?_, fun j hj => ?_, fun j hj => ?_,
    fun hn1 => ?_, fun hn1 => ?_, fun j hj => ?_, ?_⟩
  · simp [dropAfter, h.first]
  · unfold dropAfter
    split <;> exact h.aligned _
  · unfold dropAfter
    split
    · split
      · exact h.step j (by omega)
      · obtain rfl : j = i - pf := by omega
        rwa [show i - pf + 1 + (pf + nf) = i + 1 + nf by omega]
    · rw [if_neg (by omega), show j + 1 + (pf + nf) = j + (pf + nf) + 1 by omega]
      exact h.step _ (by omega)
  · unfold dropAfter
    split <;> exact h.page' _
  · unfold dropAfter
    rw [Function.update_of_ne (by omega), if_neg (by omega), if_neg (by omega)]
    exact h.stop _ (by omega)
  · -- the last block of a single slab
    unfold dropAfter
    by_cases hlt : i + 1 + nf < k
    · have hn1' : n = 1 := by omega
      have := h.last_one hn1'
      split
      · have := h.off_mono (i := k - pf - nf - 1) (j := k - 1) (by omega)
        omega
      · rw [show k - pf - nf - 1 + (pf + nf) = k - 1 by omega]
        exact this
    · rw [show k - pf - nf - 1 = i - pf by omega, if_pos (le_refl _)]
      omega
  · by_cases hlt : i + 1 + nf < k
    · have hn1' : 1 < n := by omega
      rw [Function.update_of_ne (by omega)]
      unfold dropAfter
      rw [if_neg (by omega), if_neg (by omega),
        show k - pf - nf - 1 + (pf + nf) = k - 1 by omega]
      exact h.last_large hn1'
    · right
      rw [show k - pf - nf - 1 = i - pf by omega]
      refine ⟨?_, ?_⟩
      · rcases Nat.eq_zero_or_pos nf with h0 | h0
        · exact hlast (by omega) hn1
        · -- the last block was free already
          have hnf1 : nf = 1 := by omega
          obtain ⟨hlt', hfree⟩ := hn.mp hnf1
          have hn1' : 1 < n := by omega
          rcases h.last_large hn1' with hl | hl
          · rw [show k - 1 = i + 1 by omega, hfree] at hl
            cases hl
          · exact hl.1
      · unfold dropAfter
        rw [if_pos (le_refl _)]
        omega
  · by_cases hji : j = i - pf
    · right
      subst hji
      rw [Function.update_of_ne (by omega)]
      unfold dropAfter
      rw [if_neg (by omega), show i - pf + 1 + (pf + nf) = i + 1 + nf by omega]
      exact hnext (by omega)
    · by_cases hji' : j + 1 = i - pf
      · left
        rw [Function.update_of_ne hji]
        unfold dropAfter
        rw [if_pos (by omega)]
        exact hprev j hji'
      · rw [Function.update_of_ne hji, Function.update_of_ne hji']
        unfold dropAfter
        split
        · rw [if_pos (by omega)]
          exact h.coalesced j (by omega)
        · rw [if_neg (by omega), show j + 1 + (pf + nf) = j + (pf + nf) + 1 by omega]
          exact h.coalesced _ (by omega)
  · obtain ⟨j, hj⟩ := hused
    refine ⟨j, ?_, hj⟩
    have hji : j ≠ i - pf := by
      rintro rfl
      rw [Function.update_self] at hj
      cases hj
    rw [Function.update_of_ne hji] at hj
    rcases Nat.lt_or_ge (i - pf) j with hlt | hge
    · rw [dropAfter_gt hlt] at hj
      have := h.lt_of_al hj
      omega
    · omega

/-- The remainder of a large block that is too small for a block of its own goes
to the allocated block before it. -/
theorem absorb (h : BlocksOk strict off al n k) (hi : i + 1 = k) (h0 : 0 < i)
    (hprev : al (i - 1) = true) (n' : Nat) :
    BlocksOk strict (cutAt off i) (Function.update al i false) n'
      (k - 1) := by
  have hle := h.le
  have hstep := h.step (i - 1) (by omega)
  have hpage := h.page i (by omega)
  rw [show i - 1 + 1 = i by omega] at hstep
  refine ⟨by omega, by omega, ?_, fun j => ?_, fun j hj => ?_, fun j hj => ?_, fun j hj => ?_,
    fun _ => ?_, fun _ => ?_, fun j hj => ?_, ⟨i - 1, by omega, ?_⟩⟩
  · rw [cutAt_lt h0, h.first]
  · unfold cutAt
    split
    · exact h.aligned j
    · rfl
  · rw [cutAt_lt (by omega), cutAt_lt (by omega)]
    exact h.step j (by omega)
  · rw [cutAt_lt (by omega)]
    exact h.page' j
  · rw [cutAt_ge (by omega)]
    refine ⟨rfl, ?_⟩
    by_cases hji : j = i
    · rw [hji, Function.update_self]
    · rw [Function.update_of_ne hji]
      exact (h.stop j (by omega)).2
  · rw [cutAt_lt (by omega), show k - 1 - 1 = i - 1 by omega]
    omega
  · left
    rw [Function.update_of_ne (by omega), show k - 1 - 1 = i - 1 by omega]
    exact hprev
  · rw [Function.update_of_ne (by omega), Function.update_of_ne (by omega)]
    exact h.coalesced j (by omega)
  · rw [Function.update_of_ne (by omega)]
    exact hprev

/-! ## Allocating from a free block -/

/-- The whole free block `i` is allocated. -/
theorem take (h : BlocksOk strict off al n k) (hi : i < k) :
    BlocksOk strict off (Function.update al i true) n k := by
  have hup : ∀ j, al j = true → Function.update al i true j = true := by
    intro j hj
    by_cases hji : j = i
    · rw [hji, Function.update_self]
    · rwa [Function.update_of_ne hji]
  refine ⟨h.pos, h.le, h.first, h.aligned, h.step, h.page, fun j hj => ⟨(h.stop j hj).1, ?_⟩,
    h.last_one, fun hn => (h.last_large hn).imp_left (hup _), fun j hj =>
      (h.coalesced j hj).imp (hup _) (hup _), i, hi, by rw [Function.update_self]⟩
  rw [Function.update_of_ne (by omega)]
  exact (h.stop j hj).2

/-- The block `i` is split at the offset `o`; the second part is free. -/
theorem split (h : BlocksOk strict off al n k) (hi : i < k) (hk : k < 8) {o : Nat}
    (ho : o % 16 = 0) (h₁ : off i + 512 ≤ o) (h₂ : o + 512 ≤ off (i + 1))
    (hnext : i + 1 < k → al (i + 1) = true)
    (hlast : i + 1 = k → 1 < n → ¬ strict) :
    BlocksOk strict (insertAfter off i o) (insertAfter (Function.update al i true) i false) n
      (k + 1) := by
  have hpage := h.page' (i + 1)
  have hal : ∀ j, j ≠ i → Function.update al i true j = al j :=
    fun j hj => Function.update_of_ne hj _ _
  refine ⟨by omega, by omega, ?_, fun j => ?_, fun j hj => ?_, fun j hj => ?_, fun j hj => ?_,
    fun hn1 => ?_, fun hn1 => ?_, fun j hj => ?_, ⟨i, by omega, ?_⟩⟩
  · rw [insertAfter_le (by omega), h.first]
  · rcases Nat.lt_trichotomy j (i + 1) with hlt | heq | hgt
    · rw [insertAfter_le (by omega)]
      exact h.aligned j
    · rw [insertAfter_new heq]
      exact ho
    · rw [insertAfter_gt hgt]
      exact h.aligned _
  · rcases Nat.lt_trichotomy j i with hlt | rfl | hgt
    · rw [insertAfter_le hlt.le, insertAfter_le (j := j + 1) hlt]
      exact h.step j (by omega)
    · rw [insertAfter_le (le_refl _), insertAfter_new rfl]
      exact h₁
    · rw [insertAfter_gt (j := j + 1) (by omega), Nat.add_sub_cancel]
      by_cases hj' : j = i + 1
      · rw [insertAfter_new hj', hj']
        exact h₂
      · rw [insertAfter_gt (by omega)]
        have := h.step (j - 1) (by omega)
        rwa [show j - 1 + 1 = j by omega] at this
  · rcases Nat.lt_trichotomy j (i + 1) with hlt | heq | hgt
    · rw [insertAfter_le (by omega)]
      exact h.page' j
    · rw [insertAfter_new heq]
      omega
    · rw [insertAfter_gt hgt]
      exact h.page' _
  · rw [insertAfter_gt (by omega), insertAfter_gt (by omega), hal _ (by omega)]
    exact h.stop _ (by omega)
  · rw [Nat.add_sub_cancel]
    have := h.last_one hn1
    by_cases hik : k = i + 1
    · rw [insertAfter_new hik]
      omega
    · rw [insertAfter_gt (by omega)]
      exact this
  · rw [Nat.add_sub_cancel]
    by_cases hik : k = i + 1
    · rw [insertAfter_new hik, insertAfter_new hik]
      exact .inr ⟨hlast hik.symm hn1, by omega⟩
    · rw [insertAfter_gt (by omega), insertAfter_gt (by omega), hal _ (by omega)]
      exact h.last_large hn1
  · rcases Nat.lt_trichotomy j i with hlt | rfl | hgt
    · rw [insertAfter_le hlt.le, insertAfter_le (j := j + 1) hlt, hal j (by omega)]
      by_cases hji : j + 1 = i
      · right
        rw [hji, Function.update_self]
      · rw [hal _ hji]
        exact h.coalesced j (by omega)
    · left
      rw [insertAfter_le (le_refl _), Function.update_self]
    · rw [insertAfter_gt (j := j + 1) (by omega), Nat.add_sub_cancel, hal j (by omega)]
      by_cases hj' : j = i + 1
      · right
        rw [hj']
        exact hnext (by omega)
      · rw [insertAfter_gt (by omega), hal _ (by omega)]
        have := h.coalesced (j - 1) (by omega)
        rwa [show j - 1 + 1 = j by omega] at this
  · rw [insertAfter_le (le_refl _), Function.update_self]

/-! ## The free and the allocated blocks -/

end BlocksOk

/-- A free block from `o` to `e`. -/
def FreeAt (off : Nat → Nat) (al : Nat → Bool) (k o e : Nat) : Prop :=
  ∃ j, j < k ∧ al j = false ∧ off j = o ∧ off (j + 1) = e

/-- Where block `j` of a region with `n` slabs ends. -/
def blockEnd (off : Nat → Nat) (n k j : Nat) : Nat :=
  if j + 1 < k then off (j + 1) else 4096 * n

/-- An allocated block from `o` to `e`. -/
def UsedAt (off : Nat → Nat) (al : Nat → Bool) (n k o e : Nat) : Prop :=
  ∃ j, j < k ∧ al j = true ∧ off j = o ∧ blockEnd off n k j = e

namespace BlocksOk

variable {strict : Prop} {off : Nat → Nat} {al : Nat → Bool} {n k i j o e : Nat}

theorem lt_iff_off_lt (h : BlocksOk strict off al n k) (hj : j < k) :
    i < j ↔ off i < off j := by
  refine ⟨fun hij => h.off_lt hij hj, fun hij => ?_⟩
  by_contra hge
  have := h.off_mono (i := j) (j := i) (by omega)
  omega

theorem freeAt_bounds (h : BlocksOk strict off al n k) (hn : 0 < n) (hf : FreeAt off al k o e) :
    16 ≤ o ∧ o % 16 = 0 ∧ o + 512 ≤ e ∧ e ≤ 4096 := by
  obtain ⟨j, hj, hal, rfl, rfl⟩ := hf
  exact ⟨h.off_ge j, h.aligned j, h.free_size hn hj hal, h.page' _⟩

theorem blockEnd_ge (h : BlocksOk strict off al n k) (hn : 0 < n) (hj : j < k) :
    off j + 512 ≤ blockEnd off n k j := by
  unfold blockEnd
  split
  · exact h.step j ‹_›
  · obtain rfl : j = k - 1 := by omega
    rcases Nat.lt_or_ge 1 n with hn1 | hn1
    · have := h.page' (k - 1)
      omega
    · have := h.last_one (by omega)
      omega

theorem blockEnd_le (h : BlocksOk strict off al n k) (hn : 0 < n) : blockEnd off n k j ≤ 4096 * n := by
  unfold blockEnd
  split
  · have := h.page' (j + 1)
    omega
  · omega

theorem off_le_blockEnd (h : BlocksOk strict off al n k) (hn : 0 < n) :
    off (j + 1) ≤ blockEnd off n k j := by
  unfold blockEnd
  split_ifs with hlt
  · exact le_refl _
  · have := h.page' (j + 1)
    omega

theorem usedAt_bounds (h : BlocksOk strict off al n k) (hn : 0 < n) (hu : UsedAt off al n k o e) :
    16 ≤ o ∧ o % 16 = 0 ∧ o ≤ 4096 ∧ o + 512 ≤ e ∧ e ≤ 4096 * n := by
  obtain ⟨j, hj, -, rfl, rfl⟩ := hu
  exact ⟨h.off_ge j, h.aligned j, h.page' j, h.blockEnd_ge hn hj, h.blockEnd_le hn⟩

/-- Two different blocks do not overlap. -/
theorem blockEnd_le_off (h : BlocksOk strict off al n k) (hij : i < j) (hj : j < k) :
    blockEnd off n k i ≤ off j := by
  unfold blockEnd
  rw [if_pos (by omega)]
  exact h.off_mono (by omega)

theorem usedAt_disjoint {o' e' : Nat} (h : BlocksOk strict off al n k)
    (hu : UsedAt off al n k o e) (hu' : UsedAt off al n k o' e') :
    (o = o' ∧ e = e') ∨ e ≤ o' ∨ e' ≤ o := by
  obtain ⟨i, hi, -, rfl, rfl⟩ := hu
  obtain ⟨j, hj, -, rfl, rfl⟩ := hu'
  rcases Nat.lt_trichotomy i j with hij | rfl | hij
  · exact .inr (.inl (h.blockEnd_le_off hij hj))
  · exact .inl ⟨rfl, rfl⟩
  · exact .inr (.inr (h.blockEnd_le_off hij hi))

theorem freeAt_usedAt_disjoint {o' e' : Nat} (h : BlocksOk strict off al n k)
    (hf : FreeAt off al k o e) (hu : UsedAt off al n k o' e') : e ≤ o' ∨ e' ≤ o := by
  obtain ⟨i, hi, hal, rfl, rfl⟩ := hf
  obtain ⟨j, hj, hal', rfl, rfl⟩ := hu
  rcases Nat.lt_trichotomy i j with hij | rfl | hij
  · exact .inl (h.off_mono hij)
  · rw [hal] at hal'
    cases hal'
  · exact .inr (h.blockEnd_le_off hij hi)

theorem freeAt_disjoint {o' e' : Nat} (h : BlocksOk strict off al n k) (hf : FreeAt off al k o e)
    (hf' : FreeAt off al k o' e') : (o = o' ∧ e = e') ∨ e ≤ o' ∨ e' ≤ o := by
  obtain ⟨i, hi, -, rfl, rfl⟩ := hf
  obtain ⟨j, hj, -, rfl, rfl⟩ := hf'
  rcases Nat.lt_trichotomy i j with hij | rfl | hij
  · exact .inr (.inl (h.off_mono hij))
  · exact .inl ⟨rfl, rfl⟩
  · exact .inr (.inr (h.off_mono hij))

/-! ### After freeing -/

theorem merge_freeAt (h : BlocksOk strict off al n k) (hi : i < k)
    {pf nf : Nat} (hpi : pf ≤ i) (hp : pf ≤ 1) (hnk : i + nf < k) (hn : nf ≤ 1) :
    FreeAt (dropAfter off (i - pf) (pf + nf))
        (Function.update (dropAfter al (i - pf) (pf + nf)) (i - pf) false) (k - pf - nf) o e ↔
      (o = off (i - pf) ∧ e = off (i + 1 + nf)) ∨
        (FreeAt off al k o e ∧ (o < off (i - pf) ∨ off (i + nf) < o)) := by
  constructor
  · rintro ⟨j, hj, hfree, rfl, rfl⟩
    rcases Nat.lt_trichotomy j (i - pf) with hlt | rfl | hgt
    · rw [Function.update_of_ne (by omega), dropAfter_le hlt.le] at hfree
      rw [dropAfter_le hlt.le, dropAfter_le (j := j + 1) hlt]
      exact .inr ⟨⟨j, by omega, hfree, rfl, rfl⟩, .inl (h.off_lt hlt (by omega))⟩
    · left
      rw [dropAfter_le (le_refl _), dropAfter_gt (Nat.lt_succ_self _),
        show i - pf + 1 + (pf + nf) = i + 1 + nf by omega]
      exact ⟨rfl, rfl⟩
    · rw [Function.update_of_ne (by omega), dropAfter_gt hgt] at hfree
      rw [dropAfter_gt hgt, dropAfter_gt (j := j + 1) (by omega),
        show j + 1 + (pf + nf) = j + (pf + nf) + 1 by omega]
      exact .inr ⟨⟨j + (pf + nf), by omega, hfree, rfl, rfl⟩,
        .inr (h.off_lt (by omega) (by omega))⟩
  · rintro (⟨rfl, rfl⟩ | ⟨⟨j, hj, hfree, rfl, rfl⟩, hlt⟩)
    · refine ⟨i - pf, by omega, by rw [Function.update_self], dropAfter_le (le_refl _), ?_⟩
      rw [dropAfter_gt (Nat.lt_succ_self _), show i - pf + 1 + (pf + nf) = i + 1 + nf by omega]
    · rcases hlt with hlt | hlt
      · rw [← h.lt_iff_off_lt (by omega)] at hlt
        exact ⟨j, by omega, by rw [Function.update_of_ne (by omega), dropAfter_le hlt.le, hfree],
          dropAfter_le hlt.le, dropAfter_le (j := j + 1) hlt⟩
      · rw [← h.lt_iff_off_lt hj] at hlt
        refine ⟨j - (pf + nf), by omega, ?_, ?_, ?_⟩
        · rw [Function.update_of_ne (by omega), dropAfter_gt (by omega),
            show j - (pf + nf) + (pf + nf) = j by omega, hfree]
        · rw [dropAfter_gt (by omega), show j - (pf + nf) + (pf + nf) = j by omega]
        · rw [dropAfter_gt (by omega), show j - (pf + nf) + 1 + (pf + nf) = j + 1 by omega]

theorem merge_usedAt (h : BlocksOk strict off al n k) (hi : i < k) {pf nf n' : Nat} (hpi : pf ≤ i)
    (hp : pf = 1 → al (i - 1) = false) (hp1 : pf ≤ 1) (hnk : i + nf < k)
    (hn : nf = 1 → al (i + 1) = false) (hn1 : nf ≤ 1) (hn' : n' = n ∨ (n' = 1 ∧ i + 1 = k)) :
    UsedAt (dropAfter off (i - pf) (pf + nf))
        (Function.update (dropAfter al (i - pf) (pf + nf)) (i - pf) false) n' (k - pf - nf) o e ↔
      UsedAt off al n k o e ∧ o ≠ off i := by
  have hdrop : ∀ j, j < k → al j = true → j ≠ i → j < i - pf ∨ i + nf < j := by
    intro j hj hal hji
    by_contra hcon
    rcases Nat.lt_or_ge j i with hlt | hge
    · obtain rfl : j = i - 1 := by omega
      rw [hp (by omega)] at hal
      cases hal
    · obtain rfl : j = i + 1 := by omega
      rw [hn (by omega)] at hal
      cases hal
  constructor
  · rintro ⟨j, hj, hused, rfl, rfl⟩
    rcases Nat.lt_trichotomy j (i - pf) with hlt | rfl | hgt
    · rw [Function.update_of_ne (by omega), dropAfter_le hlt.le] at hused
      rw [dropAfter_le hlt.le]
      refine ⟨⟨j, by omega, hused, rfl, ?_⟩, (h.off_lt (by omega) hi).ne⟩
      unfold blockEnd
      rw [if_pos (by omega), if_pos (by omega), dropAfter_le (j := j + 1) hlt]
    · rw [Function.update_self] at hused
      cases hused
    · rw [Function.update_of_ne (by omega), dropAfter_gt hgt] at hused
      rw [dropAfter_gt hgt]
      refine ⟨⟨j + (pf + nf), by omega, hused, rfl, ?_⟩, (h.off_lt (by omega) (by omega)).ne'⟩
      unfold blockEnd
      by_cases hlt : j + (pf + nf) + 1 < k
      · rw [if_pos hlt, if_pos (by omega), dropAfter_gt (j := j + 1) (by omega),
          show j + 1 + (pf + nf) = j + (pf + nf) + 1 by omega]
      · rw [if_neg hlt, if_neg (by omega)]
        rcases hn' with rfl | ⟨-, hik⟩
        · rfl
        · omega
  · rintro ⟨⟨j, hj, hused, rfl, rfl⟩, hne⟩
    have hji : j ≠ i := fun heq => hne (heq ▸ rfl)
    rcases hdrop j hj hused hji with hlt | hlt
    · refine ⟨j, by omega, by rw [Function.update_of_ne (by omega), dropAfter_le hlt.le, hused],
        dropAfter_le hlt.le, ?_⟩
      unfold blockEnd
      rw [if_pos (by omega), if_pos (by omega), dropAfter_le (j := j + 1) hlt]
    · refine ⟨j - (pf + nf), by omega, ?_, ?_, ?_⟩
      · rw [Function.update_of_ne (by omega), dropAfter_gt (by omega),
          show j - (pf + nf) + (pf + nf) = j by omega, hused]
      · rw [dropAfter_gt (by omega), show j - (pf + nf) + (pf + nf) = j by omega]
      · unfold blockEnd
        by_cases hlt' : j + 1 < k
        · rw [if_pos hlt', if_pos (by omega), dropAfter_gt (by omega),
            show j - (pf + nf) + 1 + (pf + nf) = j + 1 by omega]
        · rw [if_neg hlt', if_neg (by omega)]
          rcases hn' with rfl | ⟨-, hik⟩
          · rfl
          · omega

theorem absorb_freeAt (hi : i + 1 = k) (h0 : 0 < i)
    (hal : al i = true) (hprev : al (i - 1) = true) :
    FreeAt (cutAt off i) (Function.update al i false) (k - 1) o e ↔
      FreeAt off al k o e := by
  constructor
  · rintro ⟨j, hj, hfree, rfl, rfl⟩
    rw [Function.update_of_ne (by omega)] at hfree
    have hji : j ≠ i - 1 := by
      rintro rfl
      rw [hprev] at hfree
      cases hfree
    exact ⟨j, by omega, hfree, (cutAt_lt (by omega)).symm, (cutAt_lt (by omega)).symm⟩
  · rintro ⟨j, hj, hfree, rfl, rfl⟩
    have hji : j ≠ i - 1 := by
      rintro rfl
      rw [hprev] at hfree
      cases hfree
    have hji' : j ≠ i := by
      rintro rfl
      rw [hal] at hfree
      cases hfree
    exact ⟨j, by omega, by rw [Function.update_of_ne hji', hfree], cutAt_lt (by omega),
      cutAt_lt (by omega)⟩

/-- The block before the freed one grows, the others stay as they are. -/
theorem absorb_usedAt (h : BlocksOk strict off al n k) (hi : i + 1 = k) (h0 : 0 < i)
    {n' : Nat} (hn' : 0 < n') :
    (∀ o e, UsedAt off al n k o e → o ≠ off i → ∃ e', e ≤ e' ∧
      UsedAt (cutAt off i) (Function.update al i false) n' (k - 1) o e') ∧
    ∀ o e', UsedAt (cutAt off i) (Function.update al i false) n' (k - 1)
      o e' → o ≠ off i ∧ ∃ e, UsedAt off al n k o e := by
  refine ⟨?_, ?_⟩
  · rintro o e ⟨j, hj, hused, rfl, rfl⟩ hne
    have hji : j ≠ i := fun heq => hne (heq ▸ rfl)
    refine ⟨blockEnd (cutAt off i) n' (k - 1) j, ?_, j, by omega, ?_, ?_,
      rfl⟩
    · unfold blockEnd
      rw [if_pos (by omega)]
      split
      · rw [cutAt_lt (by omega)]
      · have := h.page' (j + 1)
        omega
    · rw [Function.update_of_ne hji, hused]
    · exact cutAt_lt (by omega)
  · rintro o e' ⟨j, hj, hused, rfl, -⟩
    rw [Function.update_of_ne (by omega)] at hused
    rw [cutAt_lt (by omega)]
    exact ⟨(h.off_lt (by omega) (by omega)).ne, _, j, by omega, hused, rfl, rfl⟩

/-! ### After allocating -/

theorem take_freeAt (h : BlocksOk strict off al n k) (hi : i < k) :
    FreeAt off (Function.update al i true) k o e ↔ FreeAt off al k o e ∧ o ≠ off i := by
  constructor
  · rintro ⟨j, hj, hfree, rfl, rfl⟩
    have hji : j ≠ i := by
      rintro rfl
      rw [Function.update_self] at hfree
      cases hfree
    rw [Function.update_of_ne hji] at hfree
    exact ⟨⟨j, hj, hfree, rfl, rfl⟩, fun heq => hji (h.off_inj hj hi heq)⟩
  · rintro ⟨⟨j, hj, hfree, rfl, rfl⟩, hne⟩
    have hji : j ≠ i := fun heq => hne (heq ▸ rfl)
    exact ⟨j, hj, by rw [Function.update_of_ne hji, hfree], rfl, rfl⟩

theorem take_usedAt (h : BlocksOk strict off al n k) (hi : i < k) :
    UsedAt off (Function.update al i true) n k o e ↔
      (UsedAt off al n k o e ∧ o ≠ off i) ∨ (o = off i ∧ e = blockEnd off n k i) := by
  constructor
  · rintro ⟨j, hj, hused, rfl, rfl⟩
    by_cases hji : j = i
    · subst hji
      exact .inr ⟨rfl, rfl⟩
    · rw [Function.update_of_ne hji] at hused
      exact .inl ⟨⟨j, hj, hused, rfl, rfl⟩, fun heq => hji (h.off_inj hj hi heq)⟩
  · rintro (⟨⟨j, hj, hused, rfl, rfl⟩, hne⟩ | ⟨rfl, rfl⟩)
    · have hji : j ≠ i := fun heq => hne (heq ▸ rfl)
      exact ⟨j, hj, by rw [Function.update_of_ne hji, hused], rfl, rfl⟩
    · exact ⟨i, hi, by rw [Function.update_self], rfl, rfl⟩

theorem split_freeAt (h : BlocksOk strict off al n k) (hi : i < k) {v : Nat} (hv : off i < v)
    (hv' : v < off (i + 1)) :
    FreeAt (insertAfter off i v) (insertAfter (Function.update al i true) i false) (k + 1) o e ↔
      (FreeAt off al k o e ∧ o ≠ off i) ∨ (o = v ∧ e = off (i + 1)) := by
  constructor
  · rintro ⟨j, hj, hfree, rfl, rfl⟩
    rcases Nat.lt_trichotomy j i with hlt | rfl | hgt
    · rw [insertAfter_le hlt.le, Function.update_of_ne hlt.ne] at hfree
      rw [insertAfter_le hlt.le, insertAfter_le (j := j + 1) hlt]
      exact .inl ⟨⟨j, by omega, hfree, rfl, rfl⟩, (h.off_lt hlt hi).ne⟩
    · rw [insertAfter_le (le_refl _), Function.update_self] at hfree
      cases hfree
    · by_cases hj' : j = i + 1
      · right
        rw [insertAfter_new hj', insertAfter_gt (j := j + 1) (by omega), Nat.add_sub_cancel, hj']
        exact ⟨rfl, rfl⟩
      · rw [insertAfter_gt (by omega), Function.update_of_ne (by omega)] at hfree
        rw [insertAfter_gt (by omega), insertAfter_gt (j := j + 1) (by omega), Nat.add_sub_cancel]
        refine .inl ⟨⟨j - 1, by omega, hfree, rfl, ?_⟩, (h.off_lt (by omega) (by omega)).ne'⟩
        rw [show j - 1 + 1 = j by omega]
  · rintro (⟨⟨j, hj, hfree, rfl, rfl⟩, hne⟩ | ⟨rfl, rfl⟩)
    · have hji : j ≠ i := fun heq => hne (heq ▸ rfl)
      rcases Nat.lt_or_ge j i with hlt | hge
      · exact ⟨j, by omega, by rw [insertAfter_le hlt.le, Function.update_of_ne hji, hfree],
          insertAfter_le hlt.le, insertAfter_le (j := j + 1) hlt⟩
      · refine ⟨j + 1, by omega, ?_, ?_, ?_⟩
        · rw [insertAfter_gt (by omega), Nat.add_sub_cancel, Function.update_of_ne hji, hfree]
        · rw [insertAfter_gt (by omega), Nat.add_sub_cancel]
        · rw [insertAfter_gt (by omega), show j + 1 + 1 - 1 = j + 1 by omega]
    · exact ⟨i + 1, by omega, insertAfter_new rfl, insertAfter_new rfl, by
        rw [insertAfter_gt (by omega), show i + 1 + 1 - 1 = i + 1 by omega]⟩

/-- The block `i` now ends at `v`. -/
theorem split_usedAt (h : BlocksOk strict off al n k) (hi : i < k) {v : Nat} :
    UsedAt (insertAfter off i v) (insertAfter (Function.update al i true) i false) n (k + 1) o e ↔
      (UsedAt off al n k o e ∧ o ≠ off i) ∨ (o = off i ∧ e = v) := by
  constructor
  · rintro ⟨j, hj, hused, rfl, rfl⟩
    rcases Nat.lt_trichotomy j i with hlt | rfl | hgt
    · rw [insertAfter_le hlt.le, Function.update_of_ne hlt.ne] at hused
      rw [insertAfter_le hlt.le]
      refine .inl ⟨⟨j, by omega, hused, rfl, ?_⟩, (h.off_lt hlt hi).ne⟩
      unfold blockEnd
      rw [if_pos (by omega), if_pos (by omega), insertAfter_le (j := j + 1) hlt]
    · right
      rw [insertAfter_le (le_refl _)]
      refine ⟨rfl, ?_⟩
      unfold blockEnd
      rw [if_pos (by omega), insertAfter_new rfl]
    · by_cases hj' : j = i + 1
      · rw [insertAfter_new hj'] at hused
        cases hused
      · rw [insertAfter_gt (by omega), Function.update_of_ne (by omega)] at hused
        rw [insertAfter_gt (by omega)]
        refine .inl ⟨⟨j - 1, by omega, hused, rfl, ?_⟩, (h.off_lt (by omega) (by omega)).ne'⟩
        unfold blockEnd
        by_cases hlt : j < k
        · rw [if_pos (by omega), if_pos (by omega), insertAfter_gt (j := j + 1) (by omega),
            Nat.add_sub_cancel, show j - 1 + 1 = j by omega]
        · rw [if_neg (by omega), if_neg (by omega)]
  · rintro (⟨⟨j, hj, hused, rfl, rfl⟩, hne⟩ | ⟨rfl, rfl⟩)
    · have hji : j ≠ i := fun heq => hne (heq ▸ rfl)
      rcases Nat.lt_or_ge j i with hlt | hge
      · refine ⟨j, by omega, by rw [insertAfter_le hlt.le, Function.update_of_ne hji, hused],
          insertAfter_le hlt.le, ?_⟩
        unfold blockEnd
        rw [if_pos (by omega), if_pos (by omega), insertAfter_le (j := j + 1) hlt]
      · refine ⟨j + 1, by omega, ?_, ?_, ?_⟩
        · rw [insertAfter_gt (by omega), Nat.add_sub_cancel, Function.update_of_ne hji, hused]
        · rw [insertAfter_gt (by omega), Nat.add_sub_cancel]
        · unfold blockEnd
          by_cases hlt : j + 1 < k
          · rw [if_pos hlt, if_pos (by omega), insertAfter_gt (by omega),
              show j + 1 + 1 - 1 = j + 1 by omega]
          · rw [if_neg hlt, if_neg (by omega)]
    · refine ⟨i, by omega, by rw [insertAfter_le (le_refl _), Function.update_self],
        insertAfter_le (le_refl _), ?_⟩
      unfold blockEnd
      rw [if_pos (by omega), insertAfter_new rfl]

end BlocksOk

end MallocBench.Slab
