import MallocBench.Lib.Bits
import MallocBench.Slab.Reblock

/-!
# Allocating medium blocks keeps the invariant

`__int_find_medium_block`: the scan of the medium bins, and what it does with the
block it finds.
-/

namespace MallocBench.Slab

open Lib

section

variable {s t u : Heap} {A B L : List Region} {r : Region} {bins mb : Nat → List Nat}
  {F : Nat → Nat → Prop} {off : Nat → Nat} {al : Nat → Bool} {strict : Prop}
  {n k i o x e p size binIdx : Nat}

/-! ## Taking a block -/

/-- The header writes of a split in `__int_find_medium_block`: the offset of the rest is pushed
behind block `blockPos`, and so are the alloc bits, with that of the block set. -/
def pushTaken (s blockPos offset : Nat) : HeapM Unit := do
  mediumBinPushOffset s blockPos offset
  let byte ← load8 (s + 15)
  let blockAlloc := BitVec.ofNat 8 byte
  let keepMask := BitVec.ofNat 8 ((1 <<< blockPos) - 1)
  store8 (s + 15) ((blockAlloc &&& keepMask) ||| BitVec.ofNat 8 (1 <<< blockPos) |||
    ((blockAlloc &&& ~~~keepMask) <<< 1)).toNat

/-- They are two writes. -/
theorem wp_pushTaken {a : Nat} {Q : Unit → Heap → Prop} (ha : a % 8 = 0) (hi : i < 7)
    (h : wp (do
        store64 a (pushWord (BitVec.ofNat 64 (s.mem a)) i o).toNat
        store8 (a + 15) (takeAllocByte (BitVec.ofNat 8 (fieldOf (s.mem (a + 8)) 7 1)) i).toNat) Q s) :
    wp (pushTaken a i o) Q s := by
  unfold pushTaken mediumBinPushOffset
  simp only [wp_bind, wp_mallocAssume, wp_load64, wp_store64, wp_storeAlloc ha, wp_loadAlloc ha,
    setMem_valid, setMem_mem] at h ⊢
  obtain ⟨hv, hv', hQ⟩ := h
  refine ⟨decide_eq_true hi, hv, hv, hv', hv', ?_⟩
  rw [Function.update_of_ne (show a + 8 ≠ a by omega)] at hQ ⊢
  exact hQ

/-- What `__int_find_medium_block` has done with the free block from `x` to `e`: the
tail is split off if it is large enough for a block. -/
structure TakenBlock (strict : Prop) (s : Heap) (L : List Region) (size x e : Nat)
    (t : Heap) : Prop where
  inv : HeapInv strict t L
  used : ∃ e', (∀ y f, Used t.mem L y f ↔ Used s.mem L y f ∨ (y = x ∧ f = e')) ∧
    if 512 ≤ e - x - size then e' = x + size else e ≤ e'
  free : ∀ y f, FreeBlock t.mem L y f ↔ (FreeBlock s.mem L y f ∧ y ≠ x) ∨
    (512 ≤ e - x - size ∧ y = x + size ∧ f = e)
  contents : BlocksKept s L x t
  heap : t.heap = s.heap
  heapEnd : t.heapEnd = s.heapEnd

/-- The blocks of the heap, when the region `r` loses a free block for an allocated
one. -/
theorem Reblocked.taken (h : Reblocked strict s A r B off al k t)
    (hinv : HeapInv strict s (A ++ r :: B)) (hk : r.kind = .large)
    (hok : BlocksOk strict off al r.n k) {e' : Nat} (hp : r.addr + p < r.stop)
    (hm : ∀ w, w ≠ r.addr → w ≠ r.addr + 8 →
      ¬ MedWord s.heap (WithFree (FreeBlock s.mem (A ++ B)) r.addr (FreeAt (offAt s.mem r.addr)
        (alAt s.mem r.addr) (cntAt s.mem r.addr))) w →
      ¬ MedWord s.heap (WithFree (FreeBlock s.mem (A ++ B)) r.addr (FreeAt off al k)) w →
      t.mem w = s.mem w)
    (hused : ∀ o o', UsedAt off al r.n k o o' ↔ UsedAt (offAt s.mem r.addr) (alAt s.mem r.addr) r.n
      (cntAt s.mem r.addr) o o' ∨ (o = p ∧ o' = e'))
    (hfree : ∀ o o', FreeAt off al k o o' ↔ (FreeAt (offAt s.mem r.addr) (alAt s.mem r.addr)
      (cntAt s.mem r.addr) o o' ∧ o ≠ p) ∨ (512 ≤ e - p - size ∧ o = p + size ∧ o' = e))
    (hsize : if 512 ≤ e - p - size then e' = p + size else e ≤ e') :
    TakenBlock strict s (A ++ r :: B) size (r.addr + p) (r.addr + e) t := by
  obtain ⟨hlarge, -, h2, -, -, -, -, hn⟩ := hinv.large_facts (r := r) (by simp) hk
  obtain ⟨-, -, h2', -⟩ := h.inv.large_facts (r := r) (by simp) hk
  obtain ⟨bins, hslab⟩ := hinv.slab
  obtain ⟨-, -, hG, -, -⟩ := hinv.large_lists hk
  have hsub : r.addr + e - (r.addr + p) - size = e - p - size := by omega
  refine ⟨h.inv, ⟨r.addr + e', fun x f => ?_, ?_⟩, fun x f => ?_,
    h.others.blocksKept hinv fun x f hu _ => ⟨fun w hw₁ hw₂ => ?_, ?_⟩, h.heap, h.heapEnd⟩
  · rw [h.used, used_insert]
    unfold RegionUsed
    rw [hk]
    show _ ↔ (_ ∨ UsedIn s.mem r x f) ∨ _
    unfold UsedIn
    constructor
    · rintro (hu | ⟨o, o', hu, rfl, rfl⟩)
      · exact .inl (.inl hu)
      · rcases (hused o o').mp hu with hu | ⟨rfl, rfl⟩
        · exact .inl (.inr ⟨o, o', hu, rfl, rfl⟩)
        · exact .inr ⟨rfl, rfl⟩
    · rintro ((hu | ⟨o, o', hu, rfl, rfl⟩) | ⟨rfl, rfl⟩)
      · exact .inl hu
      · exact .inr ⟨o, o', (hused o o').mpr (.inl hu), rfl, rfl⟩
      · exact .inr ⟨p, e', (hused p e').mpr (.inr ⟨rfl, rfl⟩), rfl, rfl⟩
  · rw [hsub]
    split_ifs at hsize ⊢ <;> omega
  · rw [h.free, freeBlock_insert hk, hsub]
    constructor
    · rintro (hx | ⟨o, o', hf, rfl, rfl⟩)
      · exact .inl ⟨.inl hx, freeBlock_ne hslab hG hx (by omega) hp⟩
      · rcases (hfree o o').mp hf with ⟨hf, hne⟩ | ⟨hle, rfl, rfl⟩
        · exact .inl ⟨.inr ⟨o, o', hf, rfl, rfl⟩, by omega⟩
        · exact .inr ⟨hle, by omega, rfl⟩
    · rintro (⟨hx | ⟨o, o', hf, rfl, rfl⟩, hne⟩ | ⟨hle, rfl, rfl⟩)
      · exact .inl hx
      · exact .inr ⟨o, o', (hfree o o').mpr (.inl ⟨hf, by omega⟩), rfl, rfl⟩
      · exact .inr ⟨_, _, (hfree _ _).mpr (.inr ⟨hle, rfl, rfl⟩), by omega, rfl⟩
  · unfold RegionUsed at hu
    rw [hk] at hu
    obtain ⟨o, o', hu, rfl, rfl⟩ := hu
    have hb := BlocksOk.usedAt_bounds hlarge hn hu
    have hwr : w < r.stop := by
      show w < r.addr + 4096 * r.n
      omega
    exact hm w (by omega) (by omega) (usedAt_not_medWord hslab hG hlarge hn hu hw₁ hw₂ hwr)
      (usedAt_not_medWord hslab hG hok hn ((hused o o').mpr (.inl hu)) hw₁ hw₂ hwr)
  · unfold slabClass
    rw [h2', h2]
    rfl

theorem blockGetSlab_eq {a : Nat} (ha : a % 4096 = 0) (ho : o < 4096) : blockGetSlab (a + o) = a := by
  unfold blockGetSlab alignDown
  simp only [slabSize]
  omega

/-- A block that can be split has a free entry behind it in the header. -/
theorem BlocksOk.room (h : BlocksOk strict off al n k) (hi : i < k)
    (hsize : off i + 1024 ≤ off (i + 1)) : k < 8 := by
  have hk := h.le
  have hlast := h.page' (k - 1)
  have hfirst := h.first
  by_contra hcon
  have hk8 : k = 8 := by omega
  subst hk8
  -- seven blocks in front of the last, one of them twice the minimal size
  have hbefore : 16 + 512 * i ≤ off i := by
    rcases Nat.eq_zero_or_pos i with rfl | h0
    · omega
    · have := h.add_le h0 hi
      omega
  rcases Nat.lt_or_ge (i + 1) 8 with hlt | hge
  · have hafter : off (i + 1) + 512 * (7 - (i + 1)) ≤ off 7 := by
      rcases Nat.lt_or_ge (i + 1) 7 with h7 | h7
      · exact h.add_le h7 (by omega)
      · rw [show i + 1 = 7 by omega]
        omega
    have := h.page' 7
    omega
  · have := h.page' (i + 1)
    omega

/-- The block is unlinked and found in its header. -/
theorem takeMediumBlock_found (size : Nat) (hinv : HeapInv strict s (A ++ r :: B))
    (hk : r.kind = .large) (hi : i < cntAt s.mem r.addr) (hal : alAt s.mem r.addr i = false) :
    ∃ m mb, mediumBinUnlink (r.addr + offAt s.mem r.addr i) s = .ok ((), { s with mem := m }) ∧
      takeMediumBlock size (mediumBinIdx (offAt s.mem r.addr (i + 1) - offAt s.mem r.addr i))
        (r.addr + offAt s.mem r.addr i) s =
      (if minMediumBlockSz ≤ offAt s.mem r.addr (i + 1) - offAt s.mem r.addr i - size then do
        mediumBinLink (r.addr + offAt s.mem r.addr i + size)
          (offAt s.mem r.addr (i + 1) - offAt s.mem r.addr i - size)
        pushTaken r.addr i (offAt s.mem r.addr i + size)
      else do
        let byte ← load8 (r.addr + 15)
        store8 (r.addr + 15) (byte ||| (1 <<< i))) { s with mem := m } ∧
      MediumLists { s with mem := m } (WithFree (FreeBlock s.mem (A ++ B)) r.addr fun y f =>
        FreeAt (offAt s.mem r.addr) (alAt s.mem r.addr) (cntAt s.mem r.addr) y f ∧
          y ≠ offAt s.mem r.addr i) mb ∧
      (∀ x, ¬ MedWord s.heap (WithFree (FreeBlock s.mem (A ++ B)) r.addr
        (FreeAt (offAt s.mem r.addr) (alAt s.mem r.addr) (cntAt s.mem r.addr))) x → m x = s.mem x) ∧
      ∀ x, ¬ InnerWord s A r B x → m x = s.mem x := by
  obtain ⟨hlarge, -, -, -, hv₁, -, halign, hn⟩ := hinv.large_facts (r := r) (by simp) hk
  have hok : BlocksOk strict (offAt s.mem r.addr) (alAt s.mem r.addr) r.n (cntAt s.mem r.addr) :=
    hlarge
  obtain ⟨bins, hslab⟩ := hinv.slab
  obtain ⟨mb, hmed, hG, -, -⟩ := hinv.large_lists hk
  have hlen := Region.addr_lt_stop hn
  have hb := blockOff_bounds (s.mem r.addr) i
  have hb' := blockOff_bounds (s.mem r.addr) (i + 1)
  have hstep := hok.free_size hn hi hal
  have hpage : offAt s.mem r.addr i < 4096 := by
    have : offAt s.mem r.addr (i + 1) ≤ 4096 := hb'.2.1
    omega
  have hother : ∀ y f, FreeBlock s.mem (A ++ B) y f → y ≠ r.addr + offAt s.mem r.addr i :=
    fun y f hy => freeBlock_ne hslab hG hy (by omega) (by omega)
  obtain ⟨_, _, hunlink, m, mb', rfl, hmed₁, hm₁⟩ := wp_iff.mp
    (unlinkIn_spec hmed ⟨i, hi, hal, rfl, rfl⟩ hother)
  have hm₁' : ∀ x, ¬ InnerWord s A r B x → m x = s.mem x := fun x hx =>
    hm₁ x fun hc => hx (hc.innerWord_withFree hn fun o o' hf => by
      have := hok.freeAt_bounds hn hf
      omega)
  have hw₁ : m r.addr = s.mem r.addr := hm₁' _ (InnerWord.not_header hslab hG (.inl rfl))
  have hw₂ : m (r.addr + 8) = s.mem (r.addr + 8) :=
    hm₁' _ (InnerWord.not_header hslab hG (.inr rfl))
  have hok₁ : BlocksOk strict (offAt m r.addr) (alAt m r.addr) r.n (cntAt s.mem r.addr) := by
    show BlocksOk strict (blockOff (m r.addr)) (blockAl (m (r.addr + 8))) _ _
    rw [hw₁, hw₂]
    exact hok
  have hfind : mediumBinFindBlockPos r.addr (r.addr + offAt s.mem r.addr i) { s with mem := m } =
      .ok (i, { s with mem := m }) := by
    refine eq_ok_of_wp (wp_mediumBinFindBlockPos hok₁.largeHeader hi hv₁ ?_ ⟨rfl, rfl⟩)
    show _ = r.addr + blockOff (m r.addr) i
    rw [hw₁]
  have hblk : mediumBinIdxSize (mediumBinIdx (offAt s.mem r.addr (i + 1) - offAt s.mem r.addr i)) =
      offAt s.mem r.addr (i + 1) - offAt s.mem r.addr i := by
    unfold mediumBinIdxSize mediumBinIdx
    simp only [minMediumBlockSz, mallocAlign, offAt] at hstep ⊢
    omega
  refine ⟨m, mb', hunlink, ?_, hmed₁, hm₁, hm₁'⟩
  unfold takeMediumBlock
  rw [bind_of_ok hunlink, blockGetSlab_eq halign hpage, bind_of_ok hfind, hblk,
    Nat.add_sub_cancel_left]
  rfl

/-- When the rest is large enough it is linked, and the run comes to the push. -/
theorem takeMediumBlock_split (hinv : HeapInv strict s (A ++ r :: B)) (hk : r.kind = .large)
    (hi : i < cntAt s.mem r.addr) (hal : alAt s.mem r.addr i = false) (h16 : size % 16 = 0)
    (hsize : 512 ≤ size)
    (hsplit : offAt s.mem r.addr i + size + 512 ≤ offAt s.mem r.addr (i + 1)) :
    ∃ m sk mb, (do
        mediumBinUnlink (r.addr + offAt s.mem r.addr i)
        mediumBinLink (r.addr + (offAt s.mem r.addr i + size))
          (offAt s.mem r.addr (i + 1) - (offAt s.mem r.addr i + size))) s =
        .ok ((), { s with mem := m, medSkiplist := sk }) ∧
      takeMediumBlock size (mediumBinIdx (offAt s.mem r.addr (i + 1) - offAt s.mem r.addr i))
        (r.addr + offAt s.mem r.addr i) s =
      pushTaken r.addr i (offAt s.mem r.addr i + size) { s with mem := m, medSkiplist := sk } ∧
      MediumLists { s with mem := m, medSkiplist := sk } (WithFree (FreeBlock s.mem (A ++ B)) r.addr
        fun y f => (FreeAt (offAt s.mem r.addr) (alAt s.mem r.addr) (cntAt s.mem r.addr) y f ∧
          y ≠ offAt s.mem r.addr i) ∨
          (y = offAt s.mem r.addr i + size ∧ f = offAt s.mem r.addr (i + 1))) mb ∧
      (∀ x, ¬ MedWord s.heap (WithFree (FreeBlock s.mem (A ++ B)) r.addr
        (FreeAt (offAt s.mem r.addr) (alAt s.mem r.addr) (cntAt s.mem r.addr))) x →
        ¬ MedWord s.heap (WithFree (FreeBlock s.mem (A ++ B)) r.addr fun y f =>
          (FreeAt (offAt s.mem r.addr) (alAt s.mem r.addr) (cntAt s.mem r.addr) y f ∧
            y ≠ offAt s.mem r.addr i) ∨
            (y = offAt s.mem r.addr i + size ∧ f = offAt s.mem r.addr (i + 1))) x →
        m x = s.mem x) ∧
      ∀ x, ¬ InnerWord s A r B x → m x = s.mem x := by
  obtain ⟨hlarge, -, -, -, -, -, halign, hn⟩ := hinv.large_facts (r := r) (by simp) hk
  have hok : BlocksOk strict (offAt s.mem r.addr) (alAt s.mem r.addr) r.n (cntAt s.mem r.addr) :=
    hlarge
  obtain ⟨bins, hslab⟩ := hinv.slab
  obtain ⟨-, -, hG, -, -⟩ := hinv.large_lists hk
  have hlen := Region.addr_lt_stop hn
  have h₀ : 16 ≤ offAt s.mem r.addr i ∧ offAt s.mem r.addr i % 16 = 0 := ⟨hok.off_ge i, hok.aligned i⟩
  have hpage := hok.page' (i + 1)
  obtain ⟨-, -, hge, hstop, -⟩ := hslab.mem_facts (r := r) (by simp)
  have hbrk := hslab.brk
  have hother : ∀ z, 16 ≤ z → z < 4096 → ∀ y f, FreeBlock s.mem (A ++ B) y f → y ≠ r.addr + z :=
    fun z _ _ y f hy => freeBlock_ne hslab hG hy (by omega) (by omega)
  obtain ⟨m', mb', hunlink, hrun, hmed₁, hm₁, hm₁'⟩ :=
    takeMediumBlock_found size hinv hk hi hal
  obtain ⟨_, _, hlink, m₂, sk, mb₂, rfl, hmed₂, hm₂⟩ := wp_iff.mp
    (linkIn_spec hmed₁ (show (r.addr + (offAt s.mem r.addr i + size)) % 16 = 0 by omega) hge
      (show offAt s.mem r.addr i + size + 512 ≤ offAt s.mem r.addr (i + 1) by omega) (by omega)
      (show _ ≤ s.brk by omega)
      (hother _ (by omega) (by omega)) (by
        rintro f ⟨hf, -⟩
        have hbo := hok.freeAt_bounds hn hf
        rcases hok.freeAt_disjoint hf ⟨i, hi, hal, rfl, rfl⟩ with ⟨he, -⟩ | hd | hd <;> omega))
  refine ⟨m₂, sk, mb₂, (bind_of_ok hunlink).trans hlink, ?_, hmed₂, fun x hx hx' => (hm₂ x hx').trans (hm₁ x hx), fun x hx =>
    (hm₂ x fun hc => hx (hc.innerWord_withFree hn fun o o' hf => ?_)).trans (hm₁' x hx)⟩
  · rw [hrun, if_pos (show 512 ≤ _ by omega), Nat.add_assoc r.addr, Nat.sub_sub, bind_of_ok hlink]
  · rcases hf with ⟨hf, -⟩ | ⟨rfl, rfl⟩
    · have := hok.freeAt_bounds hn hf
      omega
    · omega

/-- `__int_find_medium_block` takes `size` bytes of the free block at `x`. -/
theorem takeMediumBlock_spec (hinv : HeapInv strict s L) (hx : FreeBlock s.mem L x e)
    (h16 : size % 16 = 0) (hsize : 512 ≤ size) (hle : size ≤ e - x) :
    wp (takeMediumBlock size (mediumBinIdx (e - x)) x)
      (fun _ t => TakenBlock strict s L size x e t) s := by
  obtain ⟨r, hmem, hk, o, o', ⟨i, hi, hal, rfl, rfl⟩, rfl, rfl⟩ := hx
  obtain ⟨A, B, rfl⟩ := List.append_of_mem hmem
  obtain ⟨hlarge, h0, h2, hsz, hv₁, hv₂, halign, hn⟩ := hinv.large_facts hmem hk
  have hok : BlocksOk strict (blockOff (s.mem r.addr)) (blockAl (s.mem (r.addr + 8))) r.n
    (cntAt s.mem r.addr) := hlarge
  obtain ⟨bins, hslab⟩ := hinv.slab
  obtain ⟨mb, hmed, hG, -, -⟩ := hinv.large_lists hk
  simp only [offAt, alAt] at hal hle hmed ⊢
  rw [Nat.add_sub_add_left] at hle
  have hlen := Region.addr_lt_stop hn
  have hk8 := hok.le
  have hb := blockOff_bounds (s.mem r.addr) i
  have hb' := blockOff_bounds (s.mem r.addr) (i + 1)
  have hstep := hok.free_size hn hi hal
  obtain ⟨-, -, hge, hstop, -⟩ := hslab.mem_facts hmem
  have hbrk := hslab.brk
  have hother : ∀ z, 16 ≤ z → z < 4096 → ∀ y f, FreeBlock s.mem (A ++ B) y f → y ≠ r.addr + z :=
    fun z _ _ y f hy => freeBlock_ne hslab hG hy (by omega) (by omega)
  have hnot : ∀ e', ¬ UsedAt (blockOff (s.mem r.addr)) (blockAl (s.mem (r.addr + 8))) r.n
      (cntAt s.mem r.addr) (blockOff (s.mem r.addr) i) e' := by
    rintro e' ⟨j, hj, hal', hoff, -⟩
    rw [hok.off_inj hj hi hoff, hal] at hal'
    cases hal'
  have hdrop : ∀ (P : Prop) o o', (UsedAt (blockOff (s.mem r.addr)) (blockAl (s.mem (r.addr + 8)))
      r.n (cntAt s.mem r.addr) o o' ∧ o ≠ blockOff (s.mem r.addr) i) ∨ P ↔
      UsedAt (blockOff (s.mem r.addr)) (blockAl (s.mem (r.addr + 8))) r.n (cntAt s.mem r.addr)
        o o' ∨ P := by
    intro P o o'
    refine or_congr_left ⟨And.left, fun hu => ⟨hu, ?_⟩⟩
    rintro rfl
    exact hnot o' hu
  rw [Nat.add_sub_add_left]
  by_cases hsplit : minMediumBlockSz ≤ blockOff (s.mem r.addr) (i + 1) -
      blockOff (s.mem r.addr) i - size
  · -- the rest becomes a free block of its own
    have hsplit' : blockOff (s.mem r.addr) i + size + 512 ≤ blockOff (s.mem r.addr) (i + 1) := by
      simp only [minMediumBlockSz] at hsplit
      omega
    have hroom : cntAt s.mem r.addr < 8 := hok.room hi (by omega)
    have hoff7 : blockOff (s.mem r.addr) 7 = 4096 := (hok.stop 7 (by omega)).1
    obtain ⟨m₂, sk, mb₂, -, hrun, hmed₂, hm₂, hm₂'⟩ :=
      takeMediumBlock_split hinv hk hi hal h16 hsize hsplit'
    simp only [offAt, alAt] at hrun hmed₂ hm₂
    rw [wp_congr hrun]
    have hfree : ∀ o o', FreeAt (insertAfter (blockOff (s.mem r.addr)) i
        (blockOff (s.mem r.addr) i + size)) (insertAfter (Function.update
          (blockAl (s.mem (r.addr + 8))) i true) i false) (cntAt s.mem r.addr + 1) o o' ↔ _ :=
      fun o o' => hok.split_freeAt hi (by omega) (by omega)
    have hused : ∀ o o', UsedAt (insertAfter (blockOff (s.mem r.addr)) i
        (blockOff (s.mem r.addr) i + size)) (insertAfter (Function.update
          (blockAl (s.mem (r.addr + 8))) i true) i false) r.n (cntAt s.mem r.addr + 1) o o' ↔ _ :=
      fun o o' => hok.split_usedAt hi
    have hv₁' : m₂ r.addr = s.mem r.addr := hm₂' _ (InnerWord.not_header hslab hG (.inl rfl))
    have hv₂' : m₂ (r.addr + 8) = s.mem (r.addr + 8) :=
      hm₂' _ (InnerWord.not_header hslab hG (.inr rfl))
    refine wp_pushTaken (by omega) (by omega) ?_
    show wp (do
      store64 r.addr (pushWord (BitVec.ofNat 64 (m₂ r.addr)) i _).toNat
      store8 (r.addr + 15)
        (takeAllocByte (BitVec.ofNat 8 (fieldOf (m₂ (r.addr + 8)) 7 1)) i).toNat) _ _
    rw [hv₁', hv₂']
    have hok' := hok.split hi hroom (o := blockOff (s.mem r.addr) i + size) (by omega) (by omega)
      (by omega) (fun hlt => (hok.coalesced i hlt).resolve_left (by rw [hal]; decide))
      (fun hlast h1 hs => by
        obtain rfl : i = cntAt s.mem r.addr - 1 := by omega
        rcases hok.last_large h1 with ht | ht
        · rw [hal] at ht
          cases ht
        · exact ht.1 hs)
    refine wp_mono (reblock_spec hinv hk hmed₂ hm₂' (fun y f => withFree_congr fun o o' =>
      (hfree o o').symm) hok' (fun j => blockOff_pushWord (by omega) (by omega) (by omega) (by omega)
        hoff7 j) (fun j hj => getLsbD_takeAllocByte (by omega) hal hj)
      (fun j hj => testBit_pushWord_low (by omega) (by omega) (by omega) (by omega))) fun _ t ht => ?_
    exact ht.1.taken hinv hk hok' (by omega)
      (fun w h₁ h₂ hw hw' => (ht.2 w h₁ h₂).trans (hm₂ w hw fun hc => hw' (hc.mono fun y f hy =>
        (withFree_congr fun o o' => (hfree o o').symm).mp hy)))
      (fun o o' => (hused o o').trans (hdrop _ o o'))
      (fun o o' => (hfree o o').trans (or_congr_right ⟨fun h => ⟨by omega, h⟩, And.right⟩))
      (by rw [if_pos (by omega)])
  · -- the block is allocated whole
    obtain ⟨m', mb', -, hrun, hmed₁, hm₁, hm₁'⟩ := takeMediumBlock_found _ hinv hk hi hal
    simp only [offAt, alAt] at hrun hmed₁ hm₁
    rw [wp_congr hrun, if_neg hsplit]
    have hw₁ : m' r.addr = s.mem r.addr := hm₁' _ (InnerWord.not_header hslab hG (.inl rfl))
    have hw₂ : m' (r.addr + 8) = s.mem (r.addr + 8) :=
      hm₁' _ (InnerWord.not_header hslab hG (.inr rfl))
    have hsplit' : ¬ 512 ≤ blockOff (s.mem r.addr) (i + 1) - blockOff (s.mem r.addr) i - size :=
      hsplit
    have hfree : ∀ o o', FreeAt (blockOff (s.mem r.addr)) (Function.update
        (blockAl (s.mem (r.addr + 8))) i true) (cntAt s.mem r.addr) o o' ↔ _ :=
      fun o o' => hok.take_freeAt hi
    have hused : ∀ o o', UsedAt (blockOff (s.mem r.addr)) (Function.update
        (blockAl (s.mem (r.addr + 8))) i true) r.n (cntAt s.mem r.addr) o o' ↔ _ :=
      fun o o' => hok.take_usedAt hi
    have hst := reblock_spec hinv hk
      (show MediumLists { s with mem := m', medSkiplist := s.medSkiplist } _ _ from hmed₁) hm₁' (fun y f =>
      withFree_congr fun o o' => (hfree o o').symm) (hok.take hi) (v := s.mem r.addr)
      (fun _ => rfl) (fun j _ => testBit_setAlloc j) (fun _ _ => rfl)
    rw [wp_bind, wp_store64] at hst
    obtain ⟨-, hst⟩ := hst
    have hsame : Heap.setMem { s with mem := m' } r.addr (s.mem r.addr) = { s with mem := m' } := by
      unfold Heap.setMem
      rw [← hw₁]
      simp only [Function.update_eq_self]
    rw [hsame] at hst
    rw [wp_bind, wp_loadAlloc (by omega)]
    refine ⟨hv₂, ?_⟩
    show wp (store8 (r.addr + 15) (fieldOf (m' (r.addr + 8)) 7 1 ||| 1 <<< i)) _ _
    rw [hw₂]
    refine wp_mono hst fun _ t ht => ?_
    exact ht.1.taken hinv hk (hok.take hi) (by omega)
      (fun w h₁ h₂ hw _ => (ht.2 w h₁ h₂).trans (hm₁ w hw))
      (fun o o' => (hused o o').trans (hdrop _ o o'))
      (fun o o' => (hfree o o').trans ⟨.inl, fun h => h.resolve_right fun hc => hsplit' hc.1⟩)
      (by
        rw [if_neg hsplit']
        have := hok.off_le_blockEnd (j := i) hn
        omega)

/-! ## The scan of the medium bins -/

/-- The skiplist may lose the bits of empty bins. -/
theorem HeapInv.setMedSkiplist (h : HeapInv strict s L) {sk : Nat → BitVec 32}
    (hsk : ∀ x e, FreeBlock s.mem L x e →
      (sk (mediumBinIdx (e - x) / 32)).getLsbD (mediumBinIdx (e - x) % 32) = true) :
    HeapInv strict { s with medSkiplist := sk } L := by
  obtain ⟨bins, hslab⟩ := h.slab
  obtain ⟨mb, hmed⟩ := h.medium
  obtain ⟨sb, hsmall⟩ := h.small
  exact ⟨⟨bins, hslab.of_medWord (G := fun _ _ => False) (fun _ _ hf => hf.elim) rfl rfl rfl rfl rfl
    fun _ _ => rfl⟩, h.regions, ⟨mb, hmed.setSkiplist hsk⟩,
    ⟨sb, hsmall.congr (fun _ _ => Iff.rfl) rfl (le_refl _) fun _ _ => rfl⟩⟩

/-- The invariant of the scan: the local `skiplist` holds the bits still to be
visited, `mask` those of the bins that are too small. -/
structure MedScan (strict : Prop) (s : Heap) (L : List Region) (req skipIdx binOffset : Nat)
    (mask skiplist : BitVec 32) : Prop where
  inv : HeapInv strict s L
  word : skipIdx < 7
  off : binOffset = 32 * skipIdx
  near : req < binOffset + 32
  done : ∀ x e, FreeBlock s.mem L x e → req ≤ mediumBinIdx (e - x) → binOffset ≤ mediumBinIdx (e - x)
  kept : ∀ x e, FreeBlock s.mem L x e → mediumBinIdx (e - x) / 32 = skipIdx →
    if req ≤ mediumBinIdx (e - x) then skiplist.getLsbD (mediumBinIdx (e - x) % 32) = true
    else mask.getLsbD (mediumBinIdx (e - x) % 32) = true
  ge : ∀ j, skiplist.getLsbD j = true → req ≤ binOffset + j

namespace MedScan

variable {req skipIdx binOffset : Nat} {mask skiplist : BitVec 32}

theorem bit (h : MedScan strict s L req skipIdx binOffset mask skiplist)
    (hx : FreeBlock s.mem L x e) (hw : mediumBinIdx (e - x) / 32 = skipIdx) :
    (mask ||| skiplist).getLsbD (mediumBinIdx (e - x) % 32) = true := by
  have := h.kept x e hx hw
  rw [BitVec.getLsbD_or]
  split at this
  · rw [this, Bool.or_true]
  · rw [this, Bool.true_or]

/-- Writing the cached word back. -/
theorem writeBack (h : MedScan strict s L req skipIdx binOffset mask skiplist) :
    HeapInv strict { s with
      medSkiplist := Function.update s.medSkiplist skipIdx (mask ||| skiplist) } L := by
  refine h.inv.setMedSkiplist fun x e hx => ?_
  by_cases hw : mediumBinIdx (e - x) / 32 = skipIdx
  · rw [hw, Function.update_self]
    exact h.bit hx hw
  · obtain ⟨mb, hmed⟩ := h.inv.medium
    rw [Function.update_of_ne hw]
    exact hmed.skiplist_of_mem hx

/-- No bit is left in the word. -/
theorem past (h : MedScan strict s L req skipIdx binOffset mask 0) (hx : FreeBlock s.mem L x e)
    (hreq : req ≤ mediumBinIdx (e - x)) : binOffset + 32 ≤ mediumBinIdx (e - x) := by
  have hge := h.done x e hx hreq
  have hoff := h.off
  by_contra hlt
  have := h.kept x e hx (by omega)
  rw [if_pos hreq] at this
  simp at this

/-- The scan goes on with the next word. -/
theorem nextWord (h : MedScan strict s L req skipIdx binOffset mask 0) (hw : skipIdx + 1 ≠ 7) :
    MedScan strict { s with medSkiplist := Function.update s.medSkiplist skipIdx (mask ||| 0) } L
      req (skipIdx + 1) (binOffset + 32) 0
      ((Function.update s.medSkiplist skipIdx (mask ||| 0)) (skipIdx + 1)) := by
  have hoff := h.off
  have hword := h.word
  have hnear := h.near
  obtain ⟨mb, hmed⟩ := h.inv.medium
  refine ⟨h.writeBack, by omega, by omega, by omega, fun x e hx hreq => h.past hx hreq,
    fun x e hx hidx => ?_, fun j _ => by omega⟩
  rw [if_pos (by omega), Function.update_of_ne (by omega), ← hidx]
  exact hmed.skiplist_of_mem hx

/-- The scan goes on with the next bit of the word. -/
theorem nextBit (h : MedScan strict s L req skipIdx binOffset mask skiplist) (h0 : skiplist ≠ 0)
    (hempty : ∀ x e, FreeBlock s.mem L x e →
      mediumBinIdx (e - x) ≠ binOffset + skiplist.ctz.toNat) :
    MedScan strict s L req skipIdx binOffset mask (skiplist &&& (skiplist - 1)) := by
  have hoff := h.off
  refine ⟨h.inv, h.word, h.off, h.near, h.done, fun x e hx hidx => ?_, fun j hj => h.ge j ?_⟩
  · have hne : mediumBinIdx (e - x) % 32 ≠ skiplist.ctz.toNat := by
      have := hempty x e hx
      omega
    have := h.kept x e hx hidx
    rw [getLsbD_and_sub_one h0]
    simpa [hne] using this
  · rw [getLsbD_and_sub_one h0] at hj
    exact (Bool.and_eq_true _ _ ▸ hj).1

/-- The bin of the lowest bit of the word is the first that can hold a fitting block. -/
theorem lowest (h : MedScan strict s L req skipIdx binOffset mask skiplist) (h0 : skiplist ≠ 0) :
    binOffset + skiplist.ctz.toNat < 224 ∧ req ≤ binOffset + skiplist.ctz.toNat ∧
      (binOffset + skiplist.ctz.toNat) / 32 = skipIdx ∧
      ∀ x e, FreeBlock s.mem L x e → req ≤ mediumBinIdx (e - x) →
        binOffset + skiplist.ctz.toNat ≤ mediumBinIdx (e - x) := by
  have hbit := BitVec.getLsbD_true_ctz_of_ne_zero h0
  have hlt := ctz_toNat_lt h0
  have hword := h.word
  have hoff := h.off
  refine ⟨by omega, h.ge _ hbit, by omega, fun x e hx hreq => ?_⟩
  have hge := h.done x e hx hreq
  by_contra hcon
  have hkept := h.kept x e hx (by omega)
  rw [if_pos hreq, BitVec.getLsbD_false_of_lt_ctz (by omega)] at hkept
  cases hkept

end MedScan

/-- What the search for a block of `size` bytes returns: a block of the smallest
size that is large enough, or nothing when there is none. -/
def FindPost (strict : Prop) (s : Heap) (L : List Region) (size : Nat) : Option Nat → Heap → Prop
  | some x, t => ∃ e, FreeBlock s.mem L x e ∧ size ≤ e - x ∧
      (∀ y f, FreeBlock s.mem L y f → size ≤ f - y → e - x ≤ f - y) ∧
      TakenBlock strict s L size x e t
  | none, t => (∀ x e, FreeBlock s.mem L x e → e - x < size) ∧ HeapInv strict t L ∧
      ∃ sk, t = { s with medSkiplist := sk }

theorem FindPost.of_skiplist {sk : Nat → BitVec 32} {res : Option Nat}
    (h : FindPost strict { s with medSkiplist := sk } L size res t) :
    FindPost strict s L size res t := by
  cases res with
  | some x =>
    obtain ⟨e, hx, hle, hbest, ht⟩ := h
    exact ⟨e, hx, hle, hbest, ht.inv, ht.used, ht.free, ⟨ht.contents.contents, ht.contents.slab⟩,
      ht.heap, ht.heapEnd⟩
  | none =>
    obtain ⟨hnone, hinv, sk', rfl⟩ := h
    exact ⟨hnone, hinv, sk', rfl⟩

/-- The sizes of free blocks are multiples of 16, so the bin index says them. -/
theorem HeapInv.free_size (h : HeapInv strict s L) (hx : FreeBlock s.mem L x e) :
    x + 512 ≤ e ∧ e < x + 4096 ∧ (e - x) % 16 = 0 := by
  obtain ⟨r, hr, hk, hf⟩ := hx
  obtain ⟨hok, -, -, -, -, -, -, hn⟩ := h.large_facts hr hk
  obtain ⟨-, -, h₁, h₂, -⟩ := hf.bounds hok hn
  obtain ⟨o, o', ⟨i, hi, -, rfl, rfl⟩, rfl, rfl⟩ := hf
  have hb := blockOff_bounds (s.mem r.addr) i
  have hb' := blockOff_bounds (s.mem r.addr) (i + 1)
  simp only [offAt] at h₁ h₂ ⊢
  omega

theorem mediumBinIdx_le_iff {a b : Nat} (ha : a % 16 = 0) (hb : b % 16 = 0) (ha' : 512 ≤ a)
    (hb' : 512 ≤ b) : mediumBinIdx a ≤ mediumBinIdx b ↔ a ≤ b := by
  unfold mediumBinIdx
  simp only [minMediumBlockSz, mallocAlign]
  omega

/-- The skiplist word written back after the rest of the block has been linked: the
rest's bin is in another word. -/
theorem MedScan.taken {skipIdx binOffset : Nat} {mask skiplist : BitVec 32} {req : Nat}
    (h : MedScan strict s L req skipIdx binOffset mask skiplist) (hx : FreeBlock s.mem L x e)
    (hidx : mediumBinIdx (e - x) / 32 = skipIdx) (h512 : 512 ≤ size)
    (ht : TakenBlock strict s L size x e t) : TakenBlock strict s L size x e { t with
      medSkiplist := Function.update t.medSkiplist skipIdx (mask ||| skiplist) } := by
  refine ⟨ht.inv.setMedSkiplist fun y f hy => ?_, ht.used, ht.free,
    ⟨ht.contents.contents, ht.contents.slab⟩, ht.heap, ht.heapEnd⟩
  by_cases hw : mediumBinIdx (f - y) / 32 = skipIdx
  · rw [hw, Function.update_self]
    rcases (ht.free y f).mp hy with ⟨hy', -⟩ | ⟨hle, rfl, rfl⟩
    · exact h.bit hy' hw
    · unfold mediumBinIdx at hw hidx
      simp only [minMediumBlockSz, mallocAlign] at hw hidx
      omega
  · obtain ⟨mb, hmed⟩ := ht.inv.medium
    rw [Function.update_of_ne hw]
    exact hmed.skiplist_of_mem hy

/-- What the scan does in the end: it gives up, or takes the smallest block that is large enough.
Until then it only clears skiplist bits. -/
def ScanEnds (strict : Prop) (s : Heap) (L : List Region) (size : Nat)
    (scan : HeapM (Option Nat)) : Prop :=
  (∃ sk, scan s = .ok (none, { s with medSkiplist := sk }) ∧
    HeapInv strict { s with medSkiplist := sk } L ∧ ∀ x e, FreeBlock s.mem L x e → e - x < size) ∨
  ∃ x e sk skipIdx binOffset mask skiplist, FreeBlock s.mem L x e ∧ size ≤ e - x ∧
    (∀ y f, FreeBlock s.mem L y f → size ≤ f - y → e - x ≤ f - y) ∧
    MedScan strict { s with medSkiplist := sk } L (mediumBinIdx size) skipIdx binOffset mask skiplist ∧
    mediumBinIdx (e - x) / 32 = skipIdx ∧
    scan s = (do
      takeMediumBlock size (mediumBinIdx (e - x)) x
      setMedSkiplist skipIdx (mask ||| skiplist)
      pure (some x)) { s with medSkiplist := sk }

theorem findMediumScan_ends (h16 : size % 16 = 0) (h512 : 512 ≤ size) (fuel : Nat) :
    ∀ (s : Heap) (skipIdx binOffset : Nat) (mask skiplist : BitVec 32),
      MedScan strict s L (mediumBinIdx size) skipIdx binOffset mask skiplist →
      7 - skipIdx + (224 - (binOffset + scanPos skiplist)) < fuel →
      ScanEnds strict s L size (findMediumScan size fuel skipIdx binOffset mask skiplist) := by
  induction fuel with
  | zero => intro s skipIdx binOffset mask skiplist _ hlt; omega
  | succ fuel ih =>
    intro s skipIdx binOffset mask skiplist h hfuel
    have hword := h.word
    have hoff := h.off
    have hfit : ∀ y f, FreeBlock s.mem L y f →
        (mediumBinIdx size ≤ mediumBinIdx (f - y) ↔ size ≤ f - y) := fun y f hy => by
      obtain ⟨h₁, h₂, h₃⟩ := h.inv.free_size hy
      exact mediumBinIdx_le_iff h16 h₃ h512 (by omega)
    unfold findMediumScan
    by_cases hz : skiplist = 0
    · subst hz
      rw [if_pos rfl]
      by_cases hw : skipIdx + 1 = 7
      · refine .inl ⟨_, ?_, h.writeBack, fun x e hx => ?_⟩
        · rw [if_pos (show skipIdx + 1 = mediumbinsSkiplistSz from hw)]
          rfl
        · by_contra hge
          have hpast := h.past hx ((hfit x e hx).mpr (by omega))
          obtain ⟨mb, hmed⟩ := h.inv.medium
          have := hmed.idx_lt hx
          omega
      · have hpos : scanPos (0 : BitVec 32) = 32 := if_pos rfl
        rw [hpos] at hfuel
        rw [if_neg (show ¬ skipIdx + 1 = mediumbinsSkiplistSz from hw)]
        exact ih _ _ _ _ _ (h.nextWord hw) (by omega)
    · obtain ⟨hlt, hreq, hdiv, hmin⟩ := h.lowest hz
      obtain ⟨mb, hmed⟩ := h.inv.medium
      have hload : load64 (mediumBin s.heap (binOffset + skiplist.ctz.toNat)) s =
          .ok (s.mem (mediumBin s.heap (binOffset + skiplist.ctz.toNat)), s) :=
        eq_ok_of_wp (wp_load64.mpr ⟨hmed.valid_bin hlt, rfl, rfl⟩)
      unfold ScanEnds
      rw [if_neg hz, bind_of_ok (show (get : HeapM Heap) s = .ok (s, s) from rfl), bind_of_ok hload]
      rcases hmed.head hlt with ⟨hnull, hempty⟩ | ⟨hne, e, hx, hidx⟩
      · rw [hnull, if_neg (by decide)]
        refine ih s _ _ _ _ (h.nextBit hz hempty) ?_
        have := scanPos_lt_clear hz
        have := scanPos_le (x := skiplist &&& (skiplist - 1))
        omega
      · rw [if_pos hne]
        have hle := (hfit _ _ hx).mp (by rw [hidx]; exact hreq)
        refine .inr ⟨_, e, s.medSkiplist, _, _, _, _, hx, hle, fun y f hy hsize => ?_, h,
          hidx.symm ▸ hdiv, hidx.symm ▸ rfl⟩
        have hy' := hmin y f hy ((hfit y f hy).mpr hsize)
        obtain ⟨h₁, h₂, h₃⟩ := h.inv.free_size hx
        obtain ⟨h₄, h₅, h₆⟩ := h.inv.free_size hy
        exact (mediumBinIdx_le_iff h₃ h₆ (by omega) (by omega)).mp (by rw [hidx]; exact hy')

/-- **`__int_find_medium_block`** scans the bins from that of its size on. -/
theorem _intFindMediumBlock_ends (hinv : HeapInv strict s L) (h16 : size % 16 = 0)
    (h512 : 512 ≤ size) (hmax : size ≤ 4080) :
    ScanEnds strict s L size (_intFindMediumBlock size) := by
  obtain ⟨mb, hmed⟩ := hinv.medium
  have hi : mediumBinIdx size < 224 := mediumBinIdx_lt h512 (by omega)
  have hmask : ∀ j, (((1#32 <<< (mediumBinIdx size % 32)) - 1) &&&
      s.medSkiplist (mediumBinIdx size / 32)).getLsbD j =
        (decide (j < mediumBinIdx size % 32) && (s.medSkiplist (mediumBinIdx size / 32)).getLsbD j) := by
    intro j
    rw [BitVec.getLsbD_and, getLsbD_lowMask (by omega)]
  unfold ScanEnds _intFindMediumBlock
  rw [bind_of_ok (show (get : HeapM Heap) s = .ok (s, s) from rfl)]
  refine findMediumScan_ends h16 h512 _ _ _ _ _ _ ⟨hinv, ?_, ?_, ?_, fun x e hx hreq => ?_,
    fun x e hx hidx => ?_, fun j hj => ?_⟩ ?_
  · unfold mediumBinSkiplistIdx
    omega
  · exact Nat.mul_comm _ _
  · unfold mediumBinSkiplistIdx
    omega
  · unfold mediumBinSkiplistIdx
    omega
  · have hbit := hmed.skiplist_of_mem hx
    unfold mediumBinSkiplistIdx at hidx ⊢
    rw [hidx] at hbit
    unfold mediumBinSkiplistBit
    rw [BitVec.getLsbD_xor, hmask, hbit]
    split_ifs with hreq
    · rw [decide_eq_false (by omega)]
      rfl
    · rw [decide_eq_true (by omega)]
      rfl
  · unfold mediumBinSkiplistIdx mediumBinSkiplistBit at *
    rw [BitVec.getLsbD_xor, hmask] at hj
    by_contra hlt
    rw [decide_eq_true (by omega)] at hj
    simp at hj
  · unfold mediumBinSkiplistIdx numMediumbins mediumbinsSkiplistSz
    omega

theorem _intFindMediumBlock_spec (hinv : HeapInv strict s L) (h16 : size % 16 = 0)
    (h512 : 512 ≤ size) (hmax : size ≤ 4080) :
    wp (_intFindMediumBlock size) (fun res t => FindPost strict s L size res t) s := by
  rcases _intFindMediumBlock_ends hinv h16 h512 hmax with ⟨sk, hrun, hinv', hnone⟩ |
    ⟨x, e, sk, skipIdx, binOffset, mask, skiplist, hx, hle, hbest, hscan, hidx, hrun⟩
  · exact wp_iff.mpr ⟨_, _, hrun, hnone, hinv', sk, rfl⟩
  · rw [wp_congr hrun, wp_bind]
    refine wp_mono (takeMediumBlock_spec hscan.inv hx h16 h512 hle) fun _ t ht => ?_
    unfold setMedSkiplist
    simp only [wp_bind, wp_modify, wp_pure]
    have hpost : FindPost strict { s with medSkiplist := sk } L size (some x) _ :=
      ⟨e, hx, hle, hbest, hscan.taken hx hidx h512 ht⟩
    exact hpost.of_skiplist

/-- A non-empty bin has its skiplist bit set. -/
theorem HeapInv.medSkiplist_bit (h : HeapInv strict s L) {b : Nat} (hb : b < 224)
    (hne : s.mem (mediumBin s.heap b) ≠ 0) : (s.medSkiplist (b / 32)).getLsbD (b % 32) = true := by
  obtain ⟨mb, hmed⟩ := h.medium
  rcases hmed.head hb with ⟨h0, -⟩ | ⟨-, e, hx, hidx⟩
  · exact absurd h0 hne
  · have hbit := hmed.skiplist_of_mem hx
    rwa [hidx] at hbit

end

end MallocBench.Slab
