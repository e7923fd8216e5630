import MallocBench.Slab.BlockList

/-!
# Resizing a block of a region

What `realloc` does to the two packed vectors of a large region: the block behind is split
off, moved up or down, or dropped. The block at `i` is always an allocated one; the block at
`i + 1` is the free one, before or after.
-/

namespace MallocBench.Slab

section

variable {off : Nat → Nat} {al : Nat → Bool} {strict : Prop} {i j k n m o e v : Nat}

namespace BlocksOk

/-- The number of slabs may change when the last block is allocated. -/
theorem resize (h : BlocksOk strict off al n k) (hlast : al (k - 1) = true)
    (hone : m = 1 → off (k - 1) + 512 ≤ 4096) : BlocksOk strict off al m k :=
  { h with
    last_one := hone
    last_large := fun _ => .inl hlast }

/-- The last block then ends where the region does. -/
theorem resize_usedAt (h : BlocksOk strict off al n k) (hi : i + 1 = k) (hal : al i = true) :
    UsedAt off al m k o e ↔
      (UsedAt off al n k o e ∧ o ≠ off i) ∨ (o = off i ∧ e = 4096 * m) := by
  have hend : ∀ j, j < k → j ≠ i → blockEnd off m k j = blockEnd off n k j := by
    intro j hj hji
    unfold blockEnd
    rw [if_pos (by omega), if_pos (by omega)]
  have hend' : blockEnd off m k i = 4096 * m := if_neg (by omega)
  constructor
  · rintro ⟨j, hj, hused, rfl, rfl⟩
    by_cases hji : j = i
    · subst hji
      exact .inr ⟨rfl, hend'⟩
    · exact .inl ⟨⟨j, hj, hused, rfl, (hend j hj hji).symm⟩,
        fun hc => hji (h.off_inj hj (by omega) hc)⟩
  · rintro (⟨⟨j, hj, hused, rfl, rfl⟩, hne⟩ | ⟨rfl, rfl⟩)
    · exact ⟨j, hj, hused, rfl, hend j hj fun hc => hne (hc ▸ rfl)⟩
    · exact ⟨i, by omega, hal, rfl, hend'⟩

/-! ## A new free block behind -/

/-- The tail of an allocated block is split off. -/
theorem splitTail (h : BlocksOk strict off al n k) (hi : i < k) (hal : al i = true) (hk : k < 8)
    (ho : o % 16 = 0) (h₁ : off i + 512 ≤ o) (h₂ : o + 512 ≤ off (i + 1))
    (hnext : i + 1 < k → al (i + 1) = true) (hlast : i + 1 = k → 1 < n → ¬ strict) :
    BlocksOk strict (insertAfter off i o) (insertAfter al i false) n (k + 1) := by
  have hsplit := h.split hi hk ho h₁ h₂ hnext hlast
  rwa [← hal, Function.update_eq_self] at hsplit

theorem splitTail_freeAt (h : BlocksOk strict off al n k) (hi : i < k) (hal : al i = true)
    (hv : off i < v) (hv' : v < off (i + 1)) :
    FreeAt (insertAfter off i v) (insertAfter al i false) (k + 1) o e ↔
      FreeAt off al k o e ∨ (o = v ∧ e = off (i + 1)) := by
  have hsplit := h.split_freeAt (o := o) (e := e) hi hv hv'
  rw [← hal, Function.update_eq_self] at hsplit
  refine hsplit.trans (or_congr_left ⟨And.left, fun hf => ⟨hf, ?_⟩⟩)
  obtain ⟨j, hj, hfree, rfl, -⟩ := hf
  intro heq
  rw [h.off_inj hj hi heq, hal] at hfree
  cases hfree

theorem splitTail_usedAt (h : BlocksOk strict off al n k) (hi : i < k) (hal : al i = true) :
    UsedAt (insertAfter off i v) (insertAfter al i false) n (k + 1) o e ↔
      (UsedAt off al n k o e ∧ o ≠ off i) ∨ (o = off i ∧ e = v) := by
  have hsplit := h.split_usedAt (o := o) (e := e) hi (v := v)
  rwa [← hal, Function.update_eq_self] at hsplit

/-! ## The free block behind starts elsewhere -/

theorem moveNext (h : BlocksOk strict off al n k) (hi : i + 1 < k) (hv : v % 16 = 0)
    (h₁ : off i + 512 ≤ v) (h₂ : v + 512 ≤ off (i + 2)) :
    BlocksOk strict (Function.update off (i + 1) v) al n k := by
  have hoff : ∀ j, j ≠ i + 1 → Function.update off (i + 1) v j = off j := fun j hj =>
    Function.update_of_ne hj _ _
  have hpage := h.page' (i + 2)
  have hlast : Function.update off (i + 1) v (k - 1) + 512 ≤ 4096 ∨
      Function.update off (i + 1) v (k - 1) = off (k - 1) := by
    by_cases hk : k - 1 = i + 1
    · left
      rw [hk, Function.update_self]
      omega
    · exact .inr (hoff _ hk)
  refine ⟨h.pos, h.le, ?_, fun j => ?_, fun j hj => ?_, fun j hj => ?_, fun j hj => ?_, fun hn => ?_,
    fun hn => ?_, h.coalesced, h.used⟩
  · rw [hoff 0 (by omega), h.first]
  · by_cases hji : j = i + 1
    · rw [hji, Function.update_self, hv]
    · rw [hoff j hji, h.aligned]
  · rcases Nat.lt_trichotomy j i with hlt | rfl | hgt
    · rw [hoff j (by omega), hoff (j + 1) (by omega)]
      exact h.step j hj
    · rw [hoff j (by omega), Function.update_self]
      exact h₁
    · by_cases hji : j = i + 1
      · subst hji
        rw [Function.update_self, hoff _ (by omega)]
        exact h₂
      · rw [hoff j hji, hoff (j + 1) (by omega)]
        exact h.step j hj
  · by_cases hji : j = i + 1
    · rw [hji, Function.update_self]
      omega
    · rw [hoff j hji]
      exact h.page j hj
  · rw [hoff j (by omega)]
    exact h.stop j hj
  · rcases hlast with hle | heq
    · exact hle
    · rw [heq]
      exact h.last_one hn
  · refine (h.last_large hn).imp_right fun ⟨hs, hle⟩ => ⟨hs, ?_⟩
    rcases hlast with hle' | heq
    · exact hle'
    · rw [heq]
      exact hle

theorem moveNext_freeAt (h : BlocksOk strict off al n k) (hi : i + 1 < k) (hal : al i = true)
    (hnext : al (i + 1) = false) :
    FreeAt (Function.update off (i + 1) v) al k o e ↔
      (FreeAt off al k o e ∧ o ≠ off (i + 1)) ∨ (o = v ∧ e = off (i + 2)) := by
  have hoff : ∀ j, j ≠ i + 1 → Function.update off (i + 1) v j = off j := fun j hj =>
    Function.update_of_ne hj _ _
  have hne : ∀ j, al j = false → j ≠ i := by
    rintro j hj rfl
    rw [hal] at hj
    cases hj
  constructor
  · rintro ⟨j, hj, hfree, rfl, rfl⟩
    have hji := hne j hfree
    rw [hoff (j + 1) (by omega)]
    by_cases heq : j = i + 1
    · subst heq
      rw [Function.update_self]
      exact .inr ⟨rfl, rfl⟩
    · rw [hoff j heq]
      exact .inl ⟨⟨j, hj, hfree, rfl, rfl⟩, fun hc => heq (h.off_inj hj hi hc)⟩
  · rintro (⟨⟨j, hj, hfree, rfl, rfl⟩, hj'⟩ | ⟨rfl, rfl⟩)
    · have hji := hne j hfree
      have heq : j ≠ i + 1 := fun hc => hj' (hc ▸ rfl)
      exact ⟨j, hj, hfree, hoff j heq, hoff (j + 1) (by omega)⟩
    · exact ⟨i + 1, hi, hnext, Function.update_self .., hoff _ (by omega)⟩

theorem moveNext_usedAt (h : BlocksOk strict off al n k) (hi : i + 1 < k) (hal : al i = true)
    (hnext : al (i + 1) = false) :
    UsedAt (Function.update off (i + 1) v) al n k o e ↔
      (UsedAt off al n k o e ∧ o ≠ off i) ∨ (o = off i ∧ e = v) := by
  have hoff : ∀ j, j ≠ i + 1 → Function.update off (i + 1) v j = off j := fun j hj =>
    Function.update_of_ne hj _ _
  have hne : ∀ j, al j = true → j ≠ i + 1 := by
    rintro j hj rfl
    rw [hnext] at hj
    cases hj
  have hend : ∀ j, j ≠ i → blockEnd (Function.update off (i + 1) v) n k j = blockEnd off n k j := by
    intro j hj
    unfold blockEnd
    rw [hoff (j + 1) (by omega)]
  have hend' : blockEnd (Function.update off (i + 1) v) n k i = v := by
    unfold blockEnd
    rw [if_pos hi, Function.update_self]
  constructor
  · rintro ⟨j, hj, hused, rfl, rfl⟩
    rw [hoff j (hne j hused)]
    by_cases heq : j = i
    · subst heq
      exact .inr ⟨rfl, hend'⟩
    · exact .inl ⟨⟨j, hj, hused, rfl, (hend j heq).symm⟩,
        fun hc => heq (h.off_inj hj (by omega) hc)⟩
  · rintro (⟨⟨j, hj, hused, rfl, rfl⟩, hj'⟩ | ⟨rfl, rfl⟩)
    · exact ⟨j, hj, hused, hoff j (hne j hused), hend j fun hc => hj' (hc ▸ rfl)⟩
    · exact ⟨i, by omega, hal, hoff i (by omega), hend'⟩

/-! ## The free block behind is absorbed -/

theorem absorbNext (h : BlocksOk strict off al n k) (hi : i + 1 < k) (hal : al i = true) :
    BlocksOk strict (dropAfter off i 1) (dropAfter al i 1) n (k - 1) := by
  have hk := h.le
  refine ⟨by omega, by omega, ?_, fun j => ?_, fun j hj => ?_, fun j hj => ?_, fun j hj => ?_,
    fun hn => ?_, fun hn => ?_, fun j hj => ?_, i, by omega, ?_⟩
  · rw [dropAfter_le (Nat.zero_le _), h.first]
  · unfold dropAfter
    split <;> exact h.aligned _
  · rcases Nat.lt_trichotomy j i with hlt | rfl | hgt
    · rw [dropAfter_le hlt.le, dropAfter_le (j := j + 1) hlt]
      exact h.step j (by omega)
    · rw [dropAfter_le (le_refl _), dropAfter_gt (j := j + 1) (by omega)]
      have h₁ := h.step j (by omega)
      have h₂ := h.off_le_succ (j + 1)
      omega
    · rw [dropAfter_gt hgt, dropAfter_gt (j := j + 1) (by omega)]
      exact h.step (j + 1) (by omega)
  · unfold dropAfter
    split <;> exact h.page' _
  · rw [dropAfter_gt (by omega), dropAfter_gt (by omega)]
    exact h.stop _ (by omega)
  · have hlast := h.last_one hn
    rcases Nat.lt_or_ge i (k - 1 - 1) with hlt | hge
    · rw [dropAfter_gt hlt, show k - 1 - 1 + 1 = k - 1 by omega]
      exact hlast
    · rw [dropAfter_le hge]
      have := h.off_mono (i := k - 1 - 1) (j := k - 1) (by omega)
      omega
  · rcases Nat.lt_or_ge i (k - 1 - 1) with hlt | hge
    · rw [dropAfter_gt hlt, dropAfter_gt hlt, show k - 1 - 1 + 1 = k - 1 by omega]
      exact h.last_large hn
    · rw [show k - 1 - 1 = i by omega, dropAfter_le (f := al) (le_refl _)]
      exact .inl hal
  · rcases Nat.lt_trichotomy j i with hlt | rfl | hgt
    · rw [dropAfter_le hlt.le, dropAfter_le (j := j + 1) hlt]
      exact h.coalesced j (by omega)
    · left
      rw [dropAfter_le (le_refl _), hal]
    · rw [dropAfter_gt hgt, dropAfter_gt (j := j + 1) (by omega)]
      exact h.coalesced (j + 1) (by omega)
  · rw [dropAfter_le (le_refl _), hal]

theorem absorbNext_freeAt (h : BlocksOk strict off al n k) (hi : i + 1 < k) (hal : al i = true) :
    FreeAt (dropAfter off i 1) (dropAfter al i 1) (k - 1) o e ↔
      FreeAt off al k o e ∧ o ≠ off (i + 1) := by
  have hne : ∀ j, al j = false → j ≠ i := by
    rintro j hj rfl
    rw [hal] at hj
    cases hj
  constructor
  · rintro ⟨j, hj, hfree, rfl, rfl⟩
    rcases Nat.lt_or_ge i j with hlt | hge
    · rw [dropAfter_gt hlt] at hfree
      rw [dropAfter_gt hlt, dropAfter_gt (j := j + 1) (by omega)]
      exact ⟨⟨j + 1, by omega, hfree, rfl, rfl⟩, (h.off_lt (by omega) (by omega)).ne'⟩
    · rw [dropAfter_le hge] at hfree
      have hji := hne j hfree
      rw [dropAfter_le hge, dropAfter_le (j := j + 1) (by omega)]
      exact ⟨⟨j, by omega, hfree, rfl, rfl⟩, (h.off_lt (by omega) hi).ne⟩
  · rintro ⟨⟨j, hj, hfree, rfl, rfl⟩, hj'⟩
    have hji := hne j hfree
    have heq : j ≠ i + 1 := fun hc => hj' (hc ▸ rfl)
    rcases Nat.lt_or_ge i j with hlt | hge
    · refine ⟨j - 1, by omega, ?_, ?_, ?_⟩
      · rw [dropAfter_gt (by omega), show j - 1 + 1 = j by omega, hfree]
      · rw [dropAfter_gt (by omega), show j - 1 + 1 = j by omega]
      · rw [dropAfter_gt (by omega), show j - 1 + 1 + 1 = j + 1 by omega]
    · exact ⟨j, by omega, by rw [dropAfter_le hge, hfree], dropAfter_le hge,
        dropAfter_le (by omega)⟩

theorem absorbNext_usedAt (h : BlocksOk strict off al n k) (hi : i + 1 < k) (hal : al i = true)
    (hnext : al (i + 1) = false) :
    UsedAt (dropAfter off i 1) (dropAfter al i 1) n (k - 1) o e ↔
      (UsedAt off al n k o e ∧ o ≠ off i) ∨ (o = off i ∧ e = blockEnd off n k (i + 1)) := by
  have hne : ∀ j, al j = true → j ≠ i + 1 := by
    rintro j hj rfl
    rw [hnext] at hj
    cases hj
  have hlow : ∀ j, j < i → blockEnd (dropAfter off i 1) n (k - 1) j = blockEnd off n k j := by
    intro j hj
    unfold blockEnd
    rw [if_pos (by omega), if_pos (by omega), dropAfter_le (j := j + 1) hj]
  have hhigh : ∀ j, i ≤ j → blockEnd (dropAfter off i 1) n (k - 1) j = blockEnd off n k (j + 1) := by
    intro j hj
    unfold blockEnd
    by_cases hlt : j + 1 + 1 < k
    · rw [if_pos hlt, if_pos (by omega), dropAfter_gt (j := j + 1) (by omega)]
    · rw [if_neg hlt, if_neg (by omega)]
  constructor
  · rintro ⟨j, hj, hused, rfl, rfl⟩
    rcases Nat.lt_trichotomy j i with hlt | rfl | hgt
    · rw [dropAfter_le hlt.le] at hused
      rw [dropAfter_le hlt.le, hlow j hlt]
      exact .inl ⟨⟨j, by omega, hused, rfl, rfl⟩, (h.off_lt hlt (by omega)).ne⟩
    · rw [dropAfter_le (le_refl _), hhigh j (le_refl _)]
      exact .inr ⟨rfl, rfl⟩
    · rw [dropAfter_gt hgt] at hused
      rw [dropAfter_gt hgt, hhigh j hgt.le]
      exact .inl ⟨⟨j + 1, by omega, hused, rfl, rfl⟩, (h.off_lt (by omega) (by omega)).ne'⟩
  · rintro (⟨⟨j, hj, hused, rfl, rfl⟩, hj'⟩ | ⟨rfl, rfl⟩)
    · have heq := hne j hused
      have hji : j ≠ i := fun hc => hj' (hc ▸ rfl)
      rcases Nat.lt_or_ge i j with hlt | hge
      · refine ⟨j - 1, by omega, ?_, ?_, ?_⟩
        · rw [dropAfter_gt (by omega), show j - 1 + 1 = j by omega, hused]
        · rw [dropAfter_gt (by omega), show j - 1 + 1 = j by omega]
        · rw [hhigh _ (by omega), show j - 1 + 1 = j by omega]
      · exact ⟨j, by omega, by rw [dropAfter_le hge, hused], dropAfter_le hge, hlow j (by omega)⟩
    · exact ⟨i, by omega, by rw [dropAfter_le (le_refl _), hal], dropAfter_le (le_refl _),
        hhigh i (le_refl _)⟩

end BlocksOk

/-! ## The same as list operations -/

theorem getElem?_blockList : (blockList off al k)[j]? = if j < k then some (off j, al j) else none := by
  split_ifs with hj
  · simp [blockList, blockSeg, hj]
  · exact List.getElem?_eq_none (by rw [length_blockList]; omega)

theorem blockList_insertAfter (hi : i < k) :
    blockList (insertAfter off i o) (insertAfter al i false) (k + 1) =
      (blockList off al k).insertIdx (i + 1) (o, false) := by
  refine List.ext_getElem? fun j => ?_
  rw [getElem?_blockList, List.getElem?_insertIdx, length_blockList, getElem?_blockList,
    getElem?_blockList]
  rcases Nat.lt_trichotomy j (i + 1) with hlt | rfl | hgt
  · rw [if_pos (by omega), if_pos hlt, if_pos (by omega), insertAfter_le (by omega),
      insertAfter_le (by omega)]
  · rw [if_pos (by omega), if_neg (by omega), if_pos rfl, if_pos (by omega), insertAfter_new rfl,
      insertAfter_new rfl]
  · rw [if_neg (by omega : ¬ j < i + 1), if_neg (by omega : ¬ j = i + 1), insertAfter_gt hgt,
      insertAfter_gt hgt]
    by_cases hj : j < k + 1
    · rw [if_pos hj, if_pos (by omega)]
    · rw [if_neg hj, if_neg (by omega)]

/-- Behind the last block, inserting is appending. -/
theorem blockList_append (hi : i + 1 = k) :
    blockList (insertAfter off i o) (insertAfter al i false) (k + 1) =
      blockList off al k ++ [(o, false)] := by
  rw [blockList_insertAfter (by omega), hi, ← List.insertIdx_length_self, length_blockList]

theorem blockList_moveNext :
    blockList (Function.update off (i + 1) v) al k =
      (blockList off al k).set (i + 1) (v, al (i + 1)) := by
  refine List.ext_getElem? fun j => ?_
  rw [getElem?_blockList, List.getElem?_set, length_blockList, getElem?_blockList]
  by_cases hj : i + 1 = j
  · subst hj
    rw [if_pos rfl, Function.update_self]
  · rw [if_neg hj, Function.update_of_ne (Ne.symm hj)]

theorem blockList_dropAfter (hi : i + 1 < k) :
    blockList (dropAfter off i 1) (dropAfter al i 1) (k - 1) =
      (blockList off al k).eraseIdx (i + 1) := by
  refine List.ext_getElem? fun j => ?_
  rw [getElem?_blockList, List.getElem?_eraseIdx, getElem?_blockList, getElem?_blockList]
  rcases Nat.lt_or_ge i j with hlt | hge
  · rw [if_neg (by omega : ¬ j < i + 1), dropAfter_gt hlt, dropAfter_gt hlt]
    by_cases hj : j < k - 1
    · rw [if_pos hj, if_pos (by omega)]
    · rw [if_neg hj, if_neg (by omega)]
  · rw [if_pos (by omega : j < i + 1), if_pos (by omega), if_pos (by omega), dropAfter_le hge,
      dropAfter_le hge]

end

end MallocBench.Slab
