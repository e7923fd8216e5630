import MallocBench.Slab.LargeShrink
import MallocBench.Slab.MediumRealloc

/-!
# The packed header as a list

Four functions put a block into the header of a region or take one out, by shifting offset bytes
and alloc bits. `HeaderEdit` says that a run has replaced the blocks of a header by others and has
lost nothing: the header holds all blocks before and after, and nothing else.

Each of the functions is followed from a reachable heap: the run of its caller comes to it in a
state in which the header is still the reachable one.
-/

namespace MallocBench.Slab

open Lib

/-- The header of the region at `a` holds the blocks `l`, and no offset or alloc bit beyond. -/
structure HeaderHolds (m : Nat → Nat) (a : Nat) (l : List (Nat × Bool)) : Prop where
  blocks : blocksAt m a = l
  rest : ∀ j, l.length ≤ j → offAt m a j = 4096 ∧ alAt m a j = false

/-- A run from `u` to `t` has replaced the blocks `l` of the header at `a` by `l'`. -/
structure HeaderEdit (u : Heap) (a : Nat) (l l' : List (Nat × Bool)) (t : Heap) : Prop where
  before : HeaderHolds u.mem a l
  after : HeaderHolds t.mem a l'
  le : l'.length ≤ 8
  /-- the flags byte -/
  flags : fieldOf (t.mem a) 0 1 = fieldOf (u.mem a) 0 1
  slabs : t.mem (a + 8) % 2 ^ 56 = u.mem (a + 8) % 2 ^ 56
  state : ∃ m, t = { u with mem := m } ∧ ∀ x, x ≠ a → x ≠ a + 8 → m x = u.mem x

/-- A run from `s` is that of `before`, then of `op`, then of `rest`, and `op` replaces the blocks
`l` of the header at `a` by `l'`. -/
def EditsHeader {α : Type} (run : Except Fault (α × Heap)) (before op : HeapM Unit)
    (rest : HeapM α) (a : Nat) (l l' : List (Nat × Bool)) (s : Heap) : Prop :=
  run = (do
    before
    op
    rest) s ∧
    ∃ u t, before s = .ok ((), u) ∧ op u = .ok ((), t) ∧ HeaderEdit u a l l' t

section

variable {s u : Heap} {A B L : List Region} {r : Region} {strict : Prop} {a i k n o p e size : Nat}
  {off : Nat → Nat} {al : Nat → Bool} {m : Nat → Nat} {live : List (Nat × Nat)}

theorem BlocksOk.headerHolds (h : BlocksOk strict (offAt m a) (alAt m a) n k) (hn : 0 < n) :
    HeaderHolds m a (blockList (offAt m a) (alAt m a) k) where
  blocks := by rw [blocksAt, cntAt, h.cnt hn]
  rest j hj := h.stop j (by rwa [length_blockList] at hj)

theorem fieldOf_flags {w w' : Nat} (h : ∀ j, j < 8 → w'.testBit j = w.testBit j) :
    fieldOf w' 0 1 = fieldOf w 0 1 := by
  refine Nat.eq_of_testBit_eq fun j => ?_
  rw [testBit_fieldOf, testBit_fieldOf]
  by_cases hj : j < 8
  · rw [Nat.mul_zero, Nat.zero_add, h j hj]
  · rw [decide_eq_false (by omega), Bool.false_and, Bool.false_and]

/-- The header words `w` and `v` are those of the blocks `off` and `al`. -/
theorem headerEdit_of {w v : Nat} (hok : BlocksOk strict (offAt u.mem a) (alAt u.mem a) n k)
    (hn : 0 < n) {k' : Nat} (hok' : BlocksOk strict off al n k') (hoff : ∀ j, blockOff w j = off j)
    (hal : ∀ j, blockAl v j = al j) (hflags : ∀ j, j < 8 → w.testBit j = (u.mem a).testBit j)
    (hslabs : v % 2 ^ 56 = u.mem (a + 8) % 2 ^ 56) :
    HeaderEdit u a (blockList (offAt u.mem a) (alAt u.mem a) k) (blockList off al k')
      ((u.setMem a w).setMem (a + 8) v) := by
  have hw : ((u.setMem a w).setMem (a + 8) v).mem a = w := by
    rw [setMem_mem, setMem_mem, Function.update_of_ne (by omega), Function.update_self]
  have hw' : ((u.setMem a w).setMem (a + 8) v).mem (a + 8) = v := by
    rw [setMem_mem, Function.update_self]
  have hoff' : offAt ((u.setMem a w).setMem (a + 8) v).mem a = off := by
    unfold offAt
    rw [hw]
    exact funext hoff
  have hal' : alAt ((u.setMem a w).setMem (a + 8) v).mem a = al := by
    unfold alAt
    rw [hw']
    exact funext hal
  have hafter := (hoff'.symm ▸ hal'.symm ▸ hok' : BlocksOk strict _ _ n k').headerHolds hn
  rw [hoff', hal'] at hafter
  refine ⟨hok.headerHolds hn, hafter, ?_, ?_, ?_, _, rfl, fun x hx hx' => ?_⟩
  · rw [length_blockList]
    exact hok'.le
  · rw [hw]
    exact fieldOf_flags hflags
  · rw [hw', hslabs]
  · rw [Function.update_of_ne hx']
    exact Function.update_of_ne hx _ _

/-- A second header word whose alloc byte has been written. -/
theorem blockAl_alloc {w v : Nat} (hok : BlocksOk strict off al n k)
    (hv : ∀ j, j < 8 → v.testBit j = al j) (j : Nat) : blockAl (putField w 7 1 v) j = al j := by
  rw [blockAl_putField]
  by_cases hj : j < 8
  · rw [decide_eq_true hj, Bool.true_and, hv j hj]
  · have := hok.le
    rw [decide_eq_false hj, Bool.false_and, (hok.stop j (by omega)).2]

theorem setMem_self {x v : Nat} (h : u.mem x = v) : u.setMem x v = u := by
  subst h
  unfold Heap.setMem
  rw [Function.update_eq_self]

/-! ## The four functions -/

/-- The blocks of the header of a slab, and what the functions need to run. -/
structure HeaderAt (strict : Prop) (u : Heap) (a n k : Nat) : Prop where
  ok : BlocksOk strict (offAt u.mem a) (alAt u.mem a) n k
  pos : 0 < n
  aligned : a % 8 = 0
  valid : u.Valid a
  valid' : u.Valid (a + 8)

theorem blockList_update (hi : i < k) : blockList off (Function.update al i true) k =
    (blockList off al k).set i (off i, true) := by
  refine List.ext_getElem? fun j => ?_
  rw [getElem?_blockList, List.getElem?_set, length_blockList, getElem?_blockList]
  by_cases hij : i = j
  · subst hij
    rw [if_pos hi, if_pos rfl, if_pos hi, Function.update_self]
  · rw [if_neg hij, Function.update_of_ne (Ne.symm hij)]

/-- **`__medium_bin_push_offset`** and the shift of the alloc bits in `__int_find_medium_block`: the
free block `i` is allocated, and the block that is left of it inserted behind. -/
theorem pushTaken_edit (h : HeaderAt strict u a n k) (hi : i < k) (hal : alAt u.mem a i = false)
    (ho : o % 16 = 0) (h₁ : offAt u.mem a i + 512 ≤ o) (h₂ : o + 512 ≤ offAt u.mem a (i + 1)) :
    ∃ t, pushTaken a i o u = .ok ((), t) ∧
      HeaderEdit u a (blockList (offAt u.mem a) (alAt u.mem a) k)
        (((blockList (offAt u.mem a) (alAt u.mem a) k).set i (offAt u.mem a i, true)).insertIdx (i + 1)
          (o, false)) t := by
  obtain ⟨hok, hn, halign, hv, hv'⟩ := h
  have hroom : k < 8 := hok.room hi (by omega)
  have hpage := hok.page' (i + 1)
  have hoff7 : blockOff (u.mem a) 7 = 4096 := (hok.stop 7 (by omega)).1
  have hok' := hok.split hi hroom ho h₁ h₂
    (fun hlt => (hok.coalesced i hlt).resolve_left (by rw [hal]; decide)) fun hlast h1 hs => by
      obtain rfl : i = k - 1 := by omega
      rcases hok.last_large h1 with ht | ht
      · rw [hal] at ht
        cases ht
      · exact ht.1 hs
  have hrun : wp (pushTaken a i o) (fun _ t => t = (u.setMem a
      (pushWord (BitVec.ofNat 64 (u.mem a)) i o).toNat).setMem (a + 8) (putField (u.mem (a + 8)) 7 1
        (takeAllocByte (BitVec.ofNat 8 (fieldOf (u.mem (a + 8)) 7 1)) i).toNat)) u := by
    refine wp_pushTaken halign (by omega) ?_
    rw [wp_bind, wp_store64]
    refine ⟨hv, (wp_storeAlloc halign).mpr ⟨hv', ?_⟩⟩
    rw [setMem_mem, Function.update_of_ne (by omega)]
  obtain ⟨_, t, heq, rfl⟩ := wp_iff.mp hrun
  refine ⟨_, heq, ?_⟩
  rw [← blockList_update hi, ← blockList_insertAfter hi]
  exact headerEdit_of hok hn hok'
    (fun j => blockOff_pushWord (by omega) ho (by omega) (by omega) hoff7 j)
    (blockAl_alloc hok' fun j hj => getLsbD_takeAllocByte (by omega) hal hj)
    (fun j hj => testBit_pushWord_low (by omega) ho (by omega) hj) (putField_alloc_mod _ _)

/-- **`__medium_bin_split_block`**: a free block is inserted behind the block `i`. -/
theorem mediumBinSplitBlock_edit (h : HeaderAt strict u a n k) (hi : i + 1 < k)
    (hal : alAt u.mem a i = true) (hnext : alAt u.mem a (i + 1) = true) (ho : o % 16 = 0)
    (h₁ : offAt u.mem a i + 512 ≤ o) (h₂ : o + 512 ≤ offAt u.mem a (i + 1)) :
    ∃ t, mediumBinSplitBlock a i o u = .ok ((), t) ∧
      HeaderEdit u a (blockList (offAt u.mem a) (alAt u.mem a) k)
        ((blockList (offAt u.mem a) (alAt u.mem a) k).insertIdx (i + 1) (o, false)) t := by
  obtain ⟨hok, hn, halign, hv, hv'⟩ := h
  have hroom : k < 8 := hok.room (i := i) (by omega) (by omega)
  have hpage := hok.page' (i + 1)
  have hoff7 : blockOff (u.mem a) 7 = 4096 := (hok.stop 7 (by omega)).1
  have hok' := hok.split (show i < k by omega) hroom ho h₁ h₂ (fun _ => hnext) fun hlast =>
    absurd hlast (by omega)
  rw [show Function.update (alAt u.mem a) i true = alAt u.mem a from
    Function.update_eq_self_iff.mpr hal.symm] at hok'
  have hrun : wp (mediumBinSplitBlock a i o) (fun _ t => t = (u.setMem a
      (pushWord (BitVec.ofNat 64 (u.mem a)) i o).toNat).setMem (a + 8) (putField (u.mem (a + 8)) 7 1
        (splitAllocByte (BitVec.ofNat 8 (fieldOf (u.mem (a + 8)) 7 1)) i).toNat)) u := by
    unfold mediumBinSplitBlock mediumBinPushOffset
    simp only [wp_bind, wp_mallocAssume, wp_load64, wp_store64, wp_loadAlloc halign,
      wp_storeAlloc halign]
    refine ⟨decide_eq_true (by omega), hv, hv, hv', hv', ?_⟩
    rw [setMem_mem, Function.update_of_ne (by omega)]
    rfl
  obtain ⟨_, t, heq, rfl⟩ := wp_iff.mp hrun
  refine ⟨_, heq, ?_⟩
  rw [← blockList_insertAfter (by omega)]
  exact headerEdit_of hok hn hok'
    (fun j => blockOff_pushWord (by omega) ho (by omega) (by omega) hoff7 j)
    (blockAl_alloc hok' fun j hj => getLsbD_splitAllocByte (by omega) hj)
    (fun j hj => testBit_pushWord_low (by omega) ho (by omega) hj) (putField_alloc_mod _ _)

/-- **`__medium_bin_append_offset`**: a free block is put behind the last block `i`. -/
theorem mediumBinAppendOffset_edit (h : HeaderAt strict u a 1 k) (hi : i + 1 = k)
    (hal : alAt u.mem a i = true) (ho : o % 16 = 0) (h₁ : offAt u.mem a i + 512 ≤ o)
    (h₂ : o + 512 ≤ 4096) :
    ∃ t, mediumBinAppendOffset a i o u = .ok ((), t) ∧
      HeaderEdit u a (blockList (offAt u.mem a) (alAt u.mem a) k)
        (blockList (offAt u.mem a) (alAt u.mem a) k ++ [(o, false)]) t := by
  obtain ⟨hok, hn, halign, hv, hv'⟩ := h
  have hend : offAt u.mem a (i + 1) = 4096 := (hok.stop (i + 1) (by omega)).1
  have hroom : k < 8 := hok.room (i := i) (by omega) (by omega)
  have hok' := hok.split (show i < k by omega) hroom ho h₁ (by omega) (fun hlt => absurd hlt (by omega))
    fun _ h1 => absurd h1 (by decide)
  rw [show Function.update (alAt u.mem a) i true = alAt u.mem a from
    Function.update_eq_self_iff.mpr hal.symm] at hok'
  have hrun : wp (mediumBinAppendOffset a i o) (fun _ t => t = u.setMem a
      (appendWord (BitVec.ofNat 64 (u.mem a)) i o).toNat) u := by
    unfold mediumBinAppendOffset
    simp only [wp_bind, wp_mallocAssume, wp_load64, wp_store64]
    exact ⟨decide_eq_true (by omega), hv, hv, rfl⟩
  obtain ⟨_, t, heq, rfl⟩ := wp_iff.mp hrun
  refine ⟨_, heq, ?_⟩
  have hedit := headerEdit_of hok hn hok' (v := u.mem (a + 8))
    (fun j => blockOff_appendWord (show i < 7 by omega) ho (by omega) (by omega)
      (fun j hj => (hok.stop j (by omega)).1) j)
    (fun j => ?_) (fun j hj => testBit_appendWord_low (by omega) ho (by omega) hj) rfl
  · rw [blockList_append hi] at hedit
    have hsame : (u.setMem a (appendWord (BitVec.ofNat 64 (u.mem a)) i o).toNat).setMem (a + 8)
        (u.mem (a + 8)) = u.setMem a (appendWord (BitVec.ofNat 64 (u.mem a)) i o).toNat :=
      setMem_self (Function.update_of_ne (by omega) _ _)
    rwa [hsame] at hedit
  · -- no block follows, so the alloc bits already are those of the new list
    show alAt u.mem a j = _
    unfold insertAfter
    split_ifs
    · rfl
    · rw [(hok.stop j (by omega)).2]
    · rw [(hok.stop j (by omega)).2, (hok.stop (j - 1) (by omega)).2]

/-- **`__medium_bin_remove_offset`**: the block behind `i` is deleted. -/
theorem mediumBinRemoveOffset_edit (h : HeaderAt strict u a n k) (hi : i + 1 < k)
    (hal : alAt u.mem a i = true) :
    ∃ t, mediumBinRemoveOffset a i u = .ok ((), t) ∧
      HeaderEdit u a (blockList (offAt u.mem a) (alAt u.mem a) k)
        ((blockList (offAt u.mem a) (alAt u.mem a) k).eraseIdx (i + 1)) t := by
  obtain ⟨hok, hn, halign, hv, hv'⟩ := h
  have hk := hok.le
  have hok' := hok.absorbNext hi hal
  have hrun : wp (mediumBinRemoveOffset a i) (fun _ t => t = (u.setMem a
      (removeWord (BitVec.ofNat 64 (u.mem a)) i).toNat).setMem (a + 8) (putField (u.mem (a + 8)) 7 1
        (removeAllocByte (BitVec.ofNat 8 (fieldOf (u.mem (a + 8)) 7 1)) i).toNat)) u := by
    unfold mediumBinRemoveOffset
    simp only [wp_bind, wp_mallocAssume, wp_load64, wp_store64, wp_loadAlloc halign,
      wp_storeAlloc halign]
    refine ⟨decide_eq_true (by omega), hv, hv, hv', hv', ?_⟩
    rw [setMem_mem, Function.update_of_ne (by omega)]
    rfl
  obtain ⟨_, t, heq, rfl⟩ := wp_iff.mp hrun
  refine ⟨_, heq, ?_⟩
  rw [← blockList_dropAfter hi]
  exact headerEdit_of hok hn hok' (fun j => blockOff_removeWord (by omega) j)
    (blockAl_alloc hok' fun j hj => getLsbD_removeAllocByte (by omega) hj)
    (fun j hj => testBit_removeWord_low (by omega) hj) (putField_alloc_mod _ _)

/-! ## How the callers come to them -/

theorem HeapInv.headerAt (hinv : HeapInv strict s L) (hr : r ∈ L) (hk : r.kind = .large) :
    HeaderAt strict s r.addr r.n (cntAt s.mem r.addr) := by
  obtain ⟨hok, -, -, -, hv, hv', hal, hn⟩ := hinv.large_facts hr hk
  exact ⟨hok, hn, by omega, hv, hv'⟩

/-- The header is the same in another memory. -/
theorem HeaderAt.congr {f : Nat → BitVec 32} (h : HeaderAt strict s a n k)
    (hoff : offAt m a = offAt s.mem a) (hal : alAt m a = alAt s.mem a) :
    HeaderAt strict { s with mem := m, medSkiplist := f } a n k :=
  ⟨hoff.symm ▸ hal.symm ▸ h.ok, h.pos, h.aligned, h.valid, h.valid'⟩

/-- **`__int_find_medium_block`** splits a free block. -/
theorem takeMediumBlock_push (hinv : HeapInv strict s (A ++ r :: B)) (hk : r.kind = .large)
    (hi : i < cntAt s.mem r.addr) (hal : alAt s.mem r.addr i = false) (h16 : size % 16 = 0)
    (hsize : 512 ≤ size)
    (hsplit : offAt s.mem r.addr i + size + 512 ≤ offAt s.mem r.addr (i + 1)) :
    ∃ u t, (do
        mediumBinUnlink (r.addr + offAt s.mem r.addr i)
        mediumBinLink (r.addr + (offAt s.mem r.addr i + size))
          (offAt s.mem r.addr (i + 1) - (offAt s.mem r.addr i + size))) s = .ok ((), u) ∧
      takeMediumBlock size (mediumBinIdx (offAt s.mem r.addr (i + 1) - offAt s.mem r.addr i))
        (r.addr + offAt s.mem r.addr i) s = pushTaken r.addr i (offAt s.mem r.addr i + size) u ∧
      pushTaken r.addr i (offAt s.mem r.addr i + size) u = .ok ((), t) ∧
      HeaderEdit u r.addr (blocksAt s.mem r.addr) (((blocksAt s.mem r.addr).set i
        (offAt s.mem r.addr i, true)).insertIdx (i + 1) (offAt s.mem r.addr i + size, false)) t := by
  obtain ⟨bins, hslab⟩ := hinv.slab
  obtain ⟨-, -, hG, -, -⟩ := hinv.large_lists hk
  have hat := hinv.headerAt (r := r) (by simp) hk
  obtain ⟨m, sk, mb, hlinks, hrun, -, -, hm⟩ := takeMediumBlock_split hinv hk hi hal h16 hsize hsplit
  have hoff : offAt m r.addr = offAt s.mem r.addr := by
    unfold offAt
    rw [hm _ (InnerWord.not_header hslab hG (.inl rfl))]
  have hal' : alAt m r.addr = alAt s.mem r.addr := by
    unfold alAt
    rw [hm _ (InnerWord.not_header hslab hG (.inr rfl))]
  have hedit := pushTaken_edit (hat.congr (f := sk) hoff hal') (o := offAt s.mem r.addr i + size) hi
  simp only [hoff, hal'] at hedit
  obtain ⟨t, heq, hedit⟩ := hedit hal (by have := hat.ok.aligned i; omega) (by omega) (by omega)
  exact ⟨_, t, hlinks, hrun, heq, hedit⟩

/-- The vectors of a header, read. -/
theorem HeaderAt.reads (h : HeaderAt strict s a n k) :
    mediumBinOffsets a s = .ok (mediumBinMemToOffsets (BitVec.ofNat 64 (s.mem a)), s) ∧
      load8 (a + 15) s = .ok (fieldOf (s.mem (a + 8)) 7 1, s) :=
  ⟨eq_ok_of_wp (wp_mediumBinOffsets.mpr ⟨h.valid, rfl, rfl⟩),
    eq_ok_of_wp ((wp_loadAlloc h.aligned).mpr ⟨h.valid', rfl, rfl⟩)⟩

/-- `realloc` of a medium block splits its tail off in front of an allocated block. -/
theorem reallocMediumShrink_split (hinv : HeapInv strict s (A ++ r :: B)) (hb : BlockAt s r i p e)
    (hnext : alAt s.mem r.addr (i + 1) = true) (hn : n + 512 ≤ e - p) :
    reallocMediumShrink r.addr p n i (e - p) s = (do
      mediumBinSplitBlock r.addr i (offAt s.mem r.addr i + n)
      mediumBinLink (r.addr + (offAt s.mem r.addr i + n)) (e - p - n)
      pure p) s := by
  obtain ⟨hoffs, halloc⟩ := (hinv.headerAt (r := r) (by simp) hb.kind).reads
  have hbit : (fieldOf (s.mem (r.addr + 8)) 7 1).testBit (i + 1) = true :=
    (testBit_allocByte _ _).trans hnext
  have hstart := hb.start
  unfold reallocMediumShrink
  rw [bind_of_ok hoffs, bind_of_ok halloc, hbit, if_neg (fun hc => nomatch hc.2),
    if_pos (show 512 ≤ e - p - n by omega), show p - r.addr + n = offAt s.mem r.addr i + n by omega]

/-- `realloc` of a medium block absorbs the free block behind it. -/
theorem reallocMediumGrow_remove (hinv : HeapInv strict s (A ++ r :: B)) (hb : BlockAt s r i p e)
    (hB : e - p < 4096) (hi : i + 1 < cntAt s.mem r.addr)
    (hnext : alAt s.mem r.addr (i + 1) = false) (hlt : e - p < n) (hmax : n ≤ 4080)
    (hfit : p + n ≤ r.addr + offAt s.mem r.addr (i + 2))
    (hrest : r.addr + offAt s.mem r.addr (i + 2) < p + n + 512) :
    ∃ m, mediumBinUnlink (r.addr + offAt s.mem r.addr (i + 1)) s = .ok ((), { s with mem := m }) ∧
      reallocMediumGrow r.addr p n i (e - p) s = (do
        mediumBinRemoveOffset r.addr i
        pure p) { s with mem := m } ∧
      offAt m r.addr = offAt s.mem r.addr ∧ alAt m r.addr = alAt s.mem r.addr := by
  have hat := hinv.headerAt (r := r) (by simp) hb.kind
  obtain ⟨hoffs, halloc⟩ := hat.reads
  have hstep := hat.ok.step i hi
  have hbit : (fieldOf (s.mem (r.addr + 8)) 7 1).testBit (i + 1) = false :=
    (testBit_allocByte _ _).trans hnext
  have hstart := hb.start
  obtain ⟨he, -⟩ := hb.stop_eq hinv hB
  obtain ⟨-, -, hsize, hpage, -⟩ := hb.free_next hinv hi hnext
  have hge : 16 ≤ offAt s.mem r.addr (i + 1) := (blockOff_bounds _ _).1
  have hoff : offAt s.mem r.addr (i + 1) / 16 % 256 * 16 = offAt s.mem r.addr (i + 1) :=
    offsetByte_of_lt (show offAt s.mem r.addr (i + 1) < 4096 by omega)
  obtain ⟨_, _, hunlink, m, mb, rfl, hre, -⟩ := wp_iff.mp
    (unlinkNext_spec hinv hb hi hnext Reheaded.self fun x _ _ => rfl)
  refine ⟨m, hunlink, ?_, funext hre.off, funext hre.al⟩
  unfold reallocMediumGrow
  rw [if_pos (show n ≤ 4080 from hmax), bind_of_ok hoffs, bind_of_ok halloc, hbit]
  simp only [mediumBinGetOffset_eq, mediumBinGetAdjOffset_eq]
  rw [show blockOff (s.mem r.addr) (i + 1) / 16 % 256 * 16 = offAt s.mem r.addr (i + 1) from hoff,
    if_pos ⟨by omega, trivial, show n - (e - p) ≤ offAt s.mem r.addr (i + 2) - _ by omega⟩,
    bind_of_ok hunlink,
    if_pos (show offAt s.mem r.addr (i + 2) - offAt s.mem r.addr (i + 1) - (n - (e - p)) < 512 by
      omega)]

/-- `realloc` of a large block that fits in its first slab with room for a free block. -/
theorem reallocLargeToMedium_append (hinv : HeapInv strict s (A ++ r :: B)) (hb : BlockAt s r i p e)
    (hB : 4096 ≤ e - p) (h52 : r.n < 2 ^ 52) (hfit : p + n + 512 ≤ r.addr + 4096) :
    ∃ u, (do
        _intFreeRemainderSlab (r.addr + 4096) (r.n - 1)
        setFlag (r.addr + 4096) 2
        largeSlabSetSize r.addr 1) s = .ok ((), u) ∧
      reallocLargeToMedium r.addr p n i (e - p) s = (do
        mediumBinAppendOffset r.addr i (offAt s.mem r.addr i + n)
        mediumBinLink (r.addr + (offAt s.mem r.addr i + n)) (4096 - (offAt s.mem r.addr i + n))
        pure p) u ∧
      HeaderAt strict u r.addr 1 (cntAt u.mem r.addr) ∧ i + 1 = cntAt u.mem r.addr ∧
      offAt u.mem r.addr = offAt s.mem r.addr ∧ alAt u.mem r.addr = alAt s.mem r.addr := by
  obtain ⟨hlast, h1, hstop⟩ := hb.large hinv hB
  have hstart := hb.start
  have hend : e = r.addr + 4096 * r.n := hstop
  have hoff : 16 ≤ offAt s.mem r.addr i ∧ offAt s.mem r.addr i % 16 = 0 :=
    ⟨(blockOff_bounds _ i).1, (blockOff_bounds _ i).2.2⟩
  have hmod : (e - p) % 4096 = 4096 - offAt s.mem r.addr i := by omega
  obtain ⟨_, u, hrun, hu, -, -⟩ := wp_iff.mp
    (trim_spec hinv hb.kind (k := r.n - 1) (.inl (by omega)) (by omega) (y := r.addr + 4096)
      (by omega))
  rw [show r.n - (r.n - 1) = 1 by omega] at hrun hu
  have hlr := hu.lastResized hinv hb hB (by decide) fun _ => by omega
  refine ⟨u, hrun, ?_, hlr.inv.headerAt (r := ⟨r.addr, 1, .large⟩) (by simp) rfl, ?_, hu.offAt,
    hu.alAt (by decide)⟩
  · unfold reallocLargeToMedium
    simp only [slabSize, minMediumBlockSz]
    rw [hmod, hb.reqSlabs hinv hB h52 (by omega),
      show 4096 - (4096 - offAt s.mem r.addr i) = offAt s.mem r.addr i by omega]
    simp only [if_pos (show 512 ≤ 4096 - offAt s.mem r.addr i - n by omega)]
    have hcont := bind_of_ok (f := fun _ => do
      mediumBinAppendOffset r.addr i (offAt s.mem r.addr i + n)
      mediumBinLink (r.addr + (offAt s.mem r.addr i + n)) (4096 - (offAt s.mem r.addr i + n))
      pure p) hrun
    simp only [bind_assoc] at hcont
    exact hcont
  · rw [hu.cntAt (by decide), hlast]

/-- **`__int_find_medium_block`** finds no block, or takes a smallest one that is large enough. When
the rest of it is large enough for a block, it is pushed after the block has been unlinked and the
rest linked. -/
def FindsAndPushes (strict : Prop) (s : Heap) (L : List Region) (size : Nat) : Prop :=
  (∃ sk, _intFindMediumBlock size s = .ok (none, { s with medSkiplist := sk }) ∧
    ∀ x e, FreeBlock s.mem L x e → e - x < size) ∨
  ∃ r ∈ L, ∃ i, r.kind = .large ∧ i < cntAt s.mem r.addr ∧ alAt s.mem r.addr i = false ∧
    offAt s.mem r.addr i + size ≤ offAt s.mem r.addr (i + 1) ∧
    (∀ y f, FreeBlock s.mem L y f → size ≤ f - y →
      offAt s.mem r.addr (i + 1) - offAt s.mem r.addr i ≤ f - y) ∧
    (offAt s.mem r.addr i + size + 512 ≤ offAt s.mem r.addr (i + 1) →
      -- the scan clears skiplist bits on its way, and writes the last word back
      ∃ sk word, HeapInv strict { s with medSkiplist := sk } L ∧
        EditsHeader (_intFindMediumBlock size s)
          (do
            mediumBinUnlink (r.addr + offAt s.mem r.addr i)
            mediumBinLink (r.addr + (offAt s.mem r.addr i + size))
              (offAt s.mem r.addr (i + 1) - (offAt s.mem r.addr i + size)))
          (pushTaken r.addr i (offAt s.mem r.addr i + size))
          (do
            setMedSkiplist (mediumBinSkiplistIdx
              (mediumBinIdx (offAt s.mem r.addr (i + 1) - offAt s.mem r.addr i))) word
            pure (some (r.addr + offAt s.mem r.addr i)))
          r.addr (blocksAt s.mem r.addr) (((blocksAt s.mem r.addr).set i
            (offAt s.mem r.addr i, true)).insertIdx (i + 1) (offAt s.mem r.addr i + size, false))
          { s with medSkiplist := sk })

theorem _intFindMediumBlock_push (hinv : HeapInv strict s L) (h16 : size % 16 = 0)
    (h512 : 512 ≤ size) (hmax : size ≤ 4080) : FindsAndPushes strict s L size := by
  rcases _intFindMediumBlock_ends hinv h16 h512 hmax with ⟨sk, hrun, -, hnone⟩ |
    ⟨_, _, sk, skipIdx, binOffset, mask, skiplist, ⟨r, hr, hk, _, _, ⟨i, hi, hal, rfl, rfl⟩, rfl, rfl⟩,
      hle, hbest, hscan, hidx, hrun⟩
  · exact .inl ⟨sk, hrun, hnone⟩
  · obtain ⟨A, B, rfl⟩ := List.append_of_mem hr
    rw [Nat.add_sub_add_left] at hle hrun hbest hidx
    refine .inr ⟨r, hr, i, hk, hi, hal, by omega, hbest, fun hsplit => ?_⟩
    obtain ⟨u, t, hlinks, htake, hpush, hedit⟩ :=
      takeMediumBlock_push hscan.inv hk hi hal h16 h512 hsplit
    subst hidx
    refine ⟨sk, mask ||| skiplist, hscan.inv, ?_, u, t, hlinks, hpush, hedit⟩
    rw [hrun, bind_of_ok hlinks]
    exact bind_congr_run htake

/-- **The packed header**: in a reachable heap, the four functions run to their end when their
callers come to them, and change the header as the list of blocks is to be changed.
`__int_find_medium_block` pushes, and `realloc` splits, appends and removes. -/
theorem headerOps_edit (h : HeapReach s live) : ∃ L, LiveOk False s L live ∧
    (∀ size, size % 16 = 0 → 512 ≤ size → size ≤ 4080 → FindsAndPushes False s L size) ∧
    ∀ r ∈ L, ∀ i p e size n, BlockAt s r i p e → n = (size + 15) / 16 * 16 → 512 ≤ n →
      (e - p < 4096 → alAt s.mem r.addr (i + 1) = true → n + 512 ≤ e - p →
        EditsHeader (realloc p size s) (pure ())
          (mediumBinSplitBlock r.addr i (offAt s.mem r.addr i + n))
          (do
            mediumBinLink (r.addr + (offAt s.mem r.addr i + n)) (e - p - n)
            pure p)
          r.addr (blocksAt s.mem r.addr) ((blocksAt s.mem r.addr).insertIdx (i + 1)
            (offAt s.mem r.addr i + n, false)) s) ∧
      (4096 ≤ e - p → n + 512 ≤ (e - p) % 4096 →
        EditsHeader (realloc p size s)
          (do
            _intFreeRemainderSlab (r.addr + 4096) (r.n - 1)
            setFlag (r.addr + 4096) 2
            largeSlabSetSize r.addr 1)
          (mediumBinAppendOffset r.addr i (offAt s.mem r.addr i + n))
          (do
            mediumBinLink (r.addr + (offAt s.mem r.addr i + n)) (4096 - (offAt s.mem r.addr i + n))
            pure p)
          r.addr (blocksAt s.mem r.addr)
          (blocksAt s.mem r.addr ++ [(offAt s.mem r.addr i + n, false)]) s) ∧
      (e - p < n → n ≤ 4080 → i + 1 < cntAt s.mem r.addr → alAt s.mem r.addr (i + 1) = false →
        p + n ≤ r.addr + offAt s.mem r.addr (i + 2) →
        r.addr + offAt s.mem r.addr (i + 2) < p + n + 512 →
        EditsHeader (realloc p size s) (mediumBinUnlink (r.addr + offAt s.mem r.addr (i + 1)))
          (mediumBinRemoveOffset r.addr i) (pure p)
          r.addr (blocksAt s.mem r.addr) ((blocksAt s.mem r.addr).eraseIdx (i + 1)) s) := by
  obtain ⟨L, hL⟩ := h.liveOk
  refine ⟨L, hL, fun size h16 h512 hmax => _intFindMediumBlock_push hL.inv h16 h512 hmax, ?_⟩
  rintro r hr i p e size n hb rfl h512
  obtain ⟨A, B, rfl⟩ := List.append_of_mem hr
  have hat := hL.inv.headerAt hr hb.kind
  have h52 : r.n < 2 ^ 52 := hL.sized r hr hb.kind
  have hstart := hb.start
  have hoff : 16 ≤ offAt s.mem r.addr i ∧ offAt s.mem r.addr i % 16 = 0 :=
    ⟨hat.ok.off_ge i, hat.ok.aligned i⟩
  have hrun := fun hsize => (realloc_block hL hb hsize (by omega)).trans
    ((_intRealloc_eq hL.inv hb ((size + 15) / 16 * 16)).trans (congrFun (if_neg (by
      simp only [minMediumBlockSz]
      omega)) s))
  refine ⟨fun hB hnext hn => ?_, fun hB hn => ?_, fun hlt hmax hi hnext hfit hrest => ?_⟩
  · obtain ⟨he, -⟩ := hb.stop_eq hL.inv hB
    obtain ⟨t, heq, hedit⟩ := mediumBinSplitBlock_edit hat (o := offAt s.mem r.addr i + (size + 15) / 16 * 16)
      (hat.ok.lt_of_al hnext) hb.used hnext (by omega) (by omega) (by omega)
    refine ⟨?_, s, t, rfl, heq, hedit⟩
    rw [hrun (by unfold NoWrap; omega), if_neg (by simp only [minLargeBlockSz]; omega),
      if_pos (by omega), reallocMediumShrink_split hL.inv hb hnext hn, pure_bind]
  · obtain ⟨-, -, hstop⟩ := hb.large hL.inv hB
    have hend : e = r.addr + 4096 * r.n := hstop
    have hmod : (e - p) % 4096 = 4096 - offAt s.mem r.addr i := by
      have hpage := hat.ok.page' i
      omega
    obtain ⟨u, htrim, hcall, hat', hlast, hoff', hal'⟩ :=
      reallocLargeToMedium_append (n := (size + 15) / 16 * 16) hL.inv hb hB h52 (by omega)
    have hblocks : blocksAt u.mem r.addr = blocksAt s.mem r.addr := by
      unfold blocksAt cntAt
      rw [hoff', hal']
    obtain ⟨t, heq, hedit⟩ := mediumBinAppendOffset_edit hat'
      (o := offAt s.mem r.addr i + (size + 15) / 16 * 16) hlast (by rw [hal', hb.used]) (by omega)
      (by rw [hoff']; omega) (by omega)
    refine ⟨?_, u, t, htrim, heq, hblocks ▸ hedit⟩
    rw [hrun (by unfold NoWrap; omega), if_pos hB, if_neg (by omega), bind_of_ok htrim]
    unfold reallocLargeShrink
    rw [if_pos (show _ ≤ (e - p) % 4096 by omega), hcall]
  · have hB : e - p < 4096 := by omega
    obtain ⟨m, hunlink, hgrow, hoff', hal'⟩ :=
      reallocMediumGrow_remove hL.inv hb hB hi hnext hlt hmax hfit hrest
    obtain ⟨t, heq, hedit⟩ := mediumBinRemoveOffset_edit
      (hat.congr (f := s.medSkiplist) hoff' hal') hi (by rw [hal', hb.used])
    simp only [hoff', hal'] at hedit
    refine ⟨?_, _, t, hunlink, heq, hedit⟩
    rw [hrun (by unfold NoWrap; omega), if_neg (by simp only [minLargeBlockSz]; omega),
      if_neg (by omega), hgrow, bind_of_ok hunlink]

/-- A block of 6144 bytes, half a slab of which is in the first slab, is cut to 1000 bytes. -/
theorem headerOps_edit_append : ∃ s live L, HeapReach s live ∧ LiveOk False s L live ∧
    ∃ r ∈ L, ∃ i,
      EditsHeader (realloc 71680 1000 s)
        (do
          _intFreeRemainderSlab (r.addr + 4096) (r.n - 1)
          setFlag (r.addr + 4096) 2
          largeSlabSetSize r.addr 1)
        (mediumBinAppendOffset r.addr i (offAt s.mem r.addr i + 1008))
        (do
          mediumBinLink (r.addr + (offAt s.mem r.addr i + 1008))
            (4096 - (offAt s.mem r.addr i + 1008))
          pure 71680)
        r.addr (blocksAt s.mem r.addr)
        (blocksAt s.mem r.addr ++ [(offAt s.mem r.addr i + 1008, false)]) s := by
  obtain ⟨s, live, hreach, hcheck⟩ := heapReach_of_runCheck [.malloc 6144]
    (fun live _ => decide ((71680, 6144) ∈ live)) (by decide +kernel)
  have hmem := of_decide_eq_true hcheck
  obtain ⟨L, hL, -, hops⟩ := headerOps_edit hreach
  obtain ⟨A, r, B, i, e, rfl, hb, hle⟩ := hL.blockAt hmem (by decide)
  have haddr : r.addr = 69632 := (hb.slab hL.inv).1.symm.trans (by decide)
  obtain ⟨-, -, hstop⟩ := hb.large hL.inv (by omega)
  have hend : e = r.addr + 4096 * r.n := hstop
  have hedit := (hops r (by simp) i 71680 e 1000 1008 hb (by decide) (by decide)).2.1 (by omega)
    (by omega)
  exact ⟨s, live, _, hreach, hL, r, by simp, i, hedit⟩

end

end MallocBench.Slab
