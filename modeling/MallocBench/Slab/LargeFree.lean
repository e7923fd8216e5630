import MallocBench.Slab.MediumLists
import MallocBench.Slab.SlabFree

/-!
# Freeing a block of a large region

`medium_bin_free` merges the block with the free blocks around it, gives back the
slabs of a large block, and frees the whole region when no block is left. The
other large regions are only touched in the links of their free blocks.
-/

namespace MallocBench.Slab

open Lib

/-! ## The blocks of a region in memory -/

abbrev offAt (m : Nat → Nat) (a : Nat) : Nat → Nat := blockOff (m a)

abbrev alAt (m : Nat → Nat) (a : Nat) : Nat → Bool := blockAl (m (a + 8))

abbrev cntAt (m : Nat → Nat) (a : Nat) : Nat := blockCnt (offAt m a) (alAt m a)

/-- The blocks of a large region are well formed. -/
def LargeOk (strict : Prop) (m : Nat → Nat) (r : Region) : Prop :=
  BlocksOk strict (offAt m r.addr) (alAt m r.addr) r.n (cntAt m r.addr)

/-- A free block of the region `r` from `x` to `e`. -/
def FreeIn (m : Nat → Nat) (r : Region) (x e : Nat) : Prop :=
  ∃ o o', FreeAt (offAt m r.addr) (alAt m r.addr) (cntAt m r.addr) o o' ∧ x = r.addr + o ∧
    e = r.addr + o'

/-- An allocated block of the region `r` from `x` to `e`. -/
def UsedIn (m : Nat → Nat) (r : Region) (x e : Nat) : Prop :=
  ∃ o o', UsedAt (offAt m r.addr) (alAt m r.addr) r.n (cntAt m r.addr) o o' ∧ x = r.addr + o ∧
    e = r.addr + o'

/-- A free block of the large regions among `L`. -/
def FreeBlock (m : Nat → Nat) (L : List Region) (x e : Nat) : Prop :=
  ∃ r ∈ L, r.kind = .large ∧ FreeIn m r x e

/-- The header words agree but for the previous-alloc bit. -/
def SameBlocks (m m' : Nat → Nat) (a : Nat) : Prop :=
  SameButPrev (m a) (m' a) ∧ m' (a + 8) = m (a + 8)

section

variable {m m' : Nat → Nat} {r : Region} {strict : Prop} {x e : Nat}

theorem SameBlocks.offAt (h : SameBlocks m m' r.addr) : offAt m' r.addr = offAt m r.addr :=
  funext fun j => blockOff_sameButPrev h.1 j

theorem SameBlocks.alAt (h : SameBlocks m m' r.addr) : alAt m' r.addr = alAt m r.addr := by
  unfold Slab.alAt
  rw [h.2]

theorem SameBlocks.largeOk (h : SameBlocks m m' r.addr) :
    LargeOk strict m' r ↔ LargeOk strict m r := by
  unfold LargeOk cntAt
  rw [h.offAt, h.alAt]

theorem SameBlocks.freeIn (h : SameBlocks m m' r.addr) : FreeIn m' r x e ↔ FreeIn m r x e := by
  unfold FreeIn cntAt
  rw [h.offAt, h.alAt]

theorem SameBlocks.usedIn (h : SameBlocks m m' r.addr) : UsedIn m' r x e ↔ UsedIn m r x e := by
  unfold UsedIn cntAt
  rw [h.offAt, h.alAt]

/-- A free block lies in the first slab of its region, behind the header. -/
theorem FreeIn.bounds (h : FreeIn m r x e) (hok : LargeOk strict m r) (hn : 0 < r.n) :
    r.addr + 16 ≤ x ∧ x % 16 = r.addr % 16 ∧ x + 512 ≤ e ∧ e < x + 4096 ∧ e ≤ r.addr + 4096 ∧
      e ≤ r.stop := by
  obtain ⟨o, o', hf, rfl, rfl⟩ := h
  obtain ⟨h₁, h₂, h₃, h₄⟩ := hok.freeAt_bounds hn hf
  have := Region.addr_lt_stop hn
  omega

end

/-! ## Words of the medium blocks and the slab layer -/

section

variable {s t : Heap} {A B L : List Region} {r r₀ : Region} {bins : Nat → List Nat}
  {G : Nat → Nat → Prop} {x : Nat}

/-- The blocks `G` lie in allocated regions of `L`, behind the header. -/
def BlocksIn (L : List Region) (G : Nat → Nat → Prop) : Prop :=
  ∀ x e, G x e → ∃ r ∈ L, r.kind ≠ .free ∧ r.addr + 16 ≤ x ∧ x + 512 ≤ e ∧ e ≤ r.stop

/-- The words of an allocated region behind the first are none of the slab layer's. -/
theorem SlabInv.inner (h : SlabInv s L bins) (hr : r ∈ L) (hk : r.kind ≠ .free)
    (h₁ : r.addr + 8 ≤ x) (h₂ : x < r.stop) : ¬ FreeWord s.heap L x ∧ ¬ IsHeader L x := by
  obtain ⟨-, -, hge, -, -⟩ := h.mem_facts hr
  constructor
  · rintro (hx | ⟨r', hr', hk', hx⟩)
    · omega
    · have := h.tiles.eq_of_mem hr hr' (x := x) (by omega) hx
      exact hk (this ▸ hk')
  · rintro ⟨r', hr', rfl⟩
    have hpos := Region.addr_lt_stop (h.mem_facts hr').1
    have := h.tiles.eq_of_mem hr hr' (x := r'.addr) (by omega) (by omega)
    subst this
    omega

/-- So are the words of the first page after the slab bins. -/
theorem SlabInv.inner_page (h : SlabInv s L bins) (h₁ : s.heap + 2048 ≤ x)
    (h₂ : x < s.heap + 4096) : ¬ FreeWord s.heap L x ∧ ¬ IsHeader L x := by
  constructor
  · rintro (hx | ⟨r', hr', hk', hx⟩)
    · omega
    · have := (h.mem_facts hr').2.2.1
      omega
  · rintro ⟨r', hr', rfl⟩
    have := (h.mem_facts hr').2.2.1
    omega

/-- The same when the region `r` is about to be freed. -/
theorem SlabInv.inner_other (h : SlabInv s (A ++ r :: B) bins) (hr : r₀ ∈ A ++ B)
    (hk : r₀.kind ≠ .free) (h₁ : r₀.addr + 8 ≤ x) (h₂ : x < r₀.stop) :
    ¬ FreeWord s.heap (A ++ ⟨r.addr, r.n, .free⟩ :: B) x ∧ ¬ IsHeader B x := by
  have hr' : r₀ ∈ A ++ r :: B := by
    simp only [List.mem_append, List.mem_cons] at hr ⊢
    tauto
  obtain ⟨hf, hh⟩ := h.inner hr' hk h₁ h₂
  constructor
  · rintro (hx | ⟨r', hm, hk', hx⟩)
    · exact hf (.inl hx)
    · simp only [List.mem_append, List.mem_cons] at hm
      rcases hm with hm | rfl | hm
      · exact hf (.inr ⟨r', by simp [hm], hk', hx⟩)
      · have := h.addr_ne hr
        have hx₁ : r.addr ≤ x := hx.1
        have hx₂ : x < r.stop := hx.2
        omega
      · exact hf (.inr ⟨r', by simp [hm], hk', hx⟩)
  · rintro ⟨r', hm, hx⟩
    exact hh ⟨r', by simp [hm], hx⟩

/-- The slab layer does not rely on the words of the medium blocks. -/
theorem SlabInv.of_medWord (h : SlabInv s L bins) (hG : BlocksIn L G) (hheap : t.heap = s.heap)
    (hbrk : t.brk = s.brk) (hend : t.heapEnd = s.heapEnd) (hflags : t.flags = s.flags)
    (hskip : t.slabSkiplist = s.slabSkiplist)
    (hm : ∀ a, ¬ MedWord s.heap G a → t.mem a = s.mem a) : SlabInv t L bins := by
  obtain ⟨a, p, hgap⟩ := SlabInv.split (A := []) h
  -- a word of the medium blocks is an inner word of a large region
  have hcell : ∀ r ∈ L, ∀ y, r.addr ≤ y → y < r.stop → (r.kind = .free ∨ y < r.addr + 16) →
      t.mem y = s.mem y := by
    intro r hr y hy₁ hy₂ hy
    refine hm y ?_
    obtain ⟨-, -, hge, -, -⟩ := h.mem_facts hr
    rintro (hpage | ⟨x, e, hx, hxy⟩)
    · omega
    · obtain ⟨r', hr', hk', h₁, h₂, h₃⟩ := hG x e hx
      have heq : r = r' := h.tiles.eq_of_mem hr hr' (x := y) ⟨hy₁, hy₂⟩ (by omega)
      subst heq
      rcases hy with hk | hlt
      · exact hk' hk
      · omega
  have hgap' : Gap t [] a p a p L bins := by
    refine hgap.congr hheap hbrk hend hflags hskip (fun y hy₁ hy₂ => hm y ?_) (fun r hr => ?_)
      fun r hr hk => ?_
    · rintro (hpage | ⟨x, e, hx, hxy⟩)
      · omega
      · obtain ⟨r', hr', -, h₁, -, -⟩ := hG x e hx
        have := (h.mem_facts hr').2.2.1
        omega
    · have hstop := Region.addr_lt_stop (h.mem_facts hr).1
      refine ⟨fun i _ => ?_, fun _ => ?_, fun hk => ⟨?_, ?_⟩⟩
      · rw [hcell r hr _ (le_refl _) (by omega) (.inr (by omega))]
      · rw [hcell r hr _ (by omega) (by omega) (.inr (by omega))]
      · exact hcell r hr _ (by omega) (by omega) (.inl hk)
      · exact hcell r hr _ (by omega) (by omega) (.inl hk)
    · have hstop := Region.addr_lt_stop (h.mem_facts hr).1
      exact ⟨hcell r hr _ (by omega) (by omega) (.inl hk),
        hcell r hr _ (by omega) (by omega) (.inl hk)⟩
  exact hgap'.join

/-- A step of the slab layer keeps the words of medium blocks in other regions. -/
theorem SlabInv.medWord_kept (h : SlabInv s (A ++ r :: B) bins) (hG : BlocksIn (A ++ B) G)
    (hf : Frame (FreeWord s.heap (A ++ ⟨r.addr, r.n, .free⟩ :: B)) (IsHeader B) s t) {a : Nat}
    (ha : MedWord s.heap G a) : t.mem a = s.mem a := by
  have key : ¬ FreeWord s.heap (A ++ ⟨r.addr, r.n, .free⟩ :: B) a ∧ ¬ IsHeader B a := by
    rcases ha with hpage | ⟨x, e, hx, hxa⟩
    · obtain ⟨h₁, h₂⟩ := h.inner_page (x := a) (by omega) (by omega)
      refine ⟨?_, fun ⟨r', hm, hx⟩ => h₂ ⟨r', by simp [hm], hx⟩⟩
      rintro (hx | ⟨r', hm, hk', hx⟩)
      · omega
      · simp only [List.mem_append, List.mem_cons] at hm
        rcases hm with hm | rfl | hm
        · exact h₁ (.inr ⟨r', by simp [hm], hk', hx⟩)
        · have := (h.mem_facts (r := r) (by simp)).2.2.1
          have hx₁ : r.addr ≤ a := hx.1
          omega
        · exact h₁ (.inr ⟨r', by simp [hm], hk', hx⟩)
    · obtain ⟨r₀, hr₀, hk₀, h₁, h₂, h₃⟩ := hG x e hx
      exact h.inner_other hr₀ hk₀ (by omega) (by omega)
  exact (hf.mem a key.1).resolve_right fun hc => key.2 hc.1

end

/-- `Frame` without the medium skiplist. -/
structure MemFrame (F H : Nat → Prop) (s t : Heap) : Prop where
  heap : t.heap = s.heap
  brk : s.brk ≤ t.brk
  mem : ∀ x, ¬ F x → t.mem x = s.mem x ∨ (H x ∧ SameButPrev (s.mem x) (t.mem x))

namespace MemFrame

variable {F H F' H' : Nat → Prop} {s t u : Heap}

theorem refl : MemFrame F H s s := ⟨rfl, le_refl _, fun _ _ => .inl rfl⟩

theorem trans (h₁ : MemFrame F H s t) (h₂ : MemFrame F H t u) : MemFrame F H s u := by
  refine ⟨h₂.heap.trans h₁.heap, h₁.brk.trans h₂.brk, fun x hx => ?_⟩
  rcases h₁.mem x hx with e₁ | ⟨hH, e₁⟩ <;> rcases h₂.mem x hx with e₂ | ⟨hH', e₂⟩
  · exact .inl (e₂.trans e₁)
  · exact .inr ⟨hH', e₁ ▸ e₂⟩
  · exact .inr ⟨hH, by rw [e₂]; exact e₁⟩
  · exact .inr ⟨hH, fun i hi => (e₂ i hi).trans (e₁ i hi)⟩

theorem mono (h : MemFrame F H s t) (hF : ∀ x, F x → F' x) (hH : ∀ x, H x → H' x) :
    MemFrame F' H' s t :=
  ⟨h.heap, h.brk, fun x hx => (h.mem x fun hf => hx (hF x hf)).imp_right fun ⟨hx, he⟩ => ⟨hH x hx, he⟩⟩

/-- Header words may be given up to the other set. -/
theorem weaken (h : MemFrame F H s t) (hF : ∀ x, F x → F' x) (hH : ∀ x, H x → F' x ∨ H' x) :
    MemFrame F' H' s t := by
  refine ⟨h.heap, h.brk, fun x hx => (h.mem x fun hf => hx (hF x hf)).imp_right ?_⟩
  exact fun ⟨hh, he⟩ => ⟨(hH x hh).resolve_left hx, he⟩

/-- A change of the memory within `F`. -/
theorem of_mem (hheap : t.heap = s.heap) (hbrk : s.brk ≤ t.brk)
    (hm : ∀ x, ¬ F x → t.mem x = s.mem x) : MemFrame F H s t :=
  ⟨hheap, hbrk, fun x hx => .inl (hm x hx)⟩

end MemFrame

theorem Frame.memFrame {F H : Nat → Prop} {s t : Heap} (h : Frame F H s t) : MemFrame F H s t :=
  ⟨h.heap, h.brk, h.mem⟩

/-! ## Merging the freed block -/

/-- The allocated blocks `U` after the one at `o₀` has been freed: it is gone, the
others have not become smaller. -/
def Shrunk (U U' : Nat → Nat → Prop) (o₀ : Nat) : Prop :=
  (∀ o e, U o e → o ≠ o₀ → ∃ e', e ≤ e' ∧ U' o e') ∧ ∀ o e', U' o e' → o ≠ o₀ ∧ ∃ e, U o e

theorem shrunk_of_iff {U U' : Nat → Nat → Prop} {o₀ : Nat}
    (h : ∀ o e, U' o e ↔ U o e ∧ o ≠ o₀) : Shrunk U U' o₀ :=
  ⟨fun o e hu hne => ⟨e, le_refl _, (h o e).mpr ⟨hu, hne⟩⟩,
    fun o e hu => ⟨((h o e).mp hu).2, e, ((h o e).mp hu).1⟩⟩

section

variable {s t : Heap} {A B L : List Region} {r : Region} {bins mb : Nat → List Nat}
  {F G : Nat → Nat → Prop} {w w₂ n k i x : Nat} {off : Nat → Nat} {al : Nat → Bool} {strict : Prop}

/-- The guarded unlink operations of `medium_bin_free`. -/
theorem unlinkIf_spec (h : MediumLists s F mb) {b : Bool} (hx : b = true → ∃ e, F x e) :
    wp (if b then mediumBinUnlink x else pure ()) (fun _ t => ∃ m' mb', t = { s with mem := m' } ∧
      MediumLists { s with mem := m' } (fun y f => F y f ∧ ¬ (b = true ∧ y = x)) mb' ∧
      ∀ a, ¬ MedWord s.heap F a → m' a = s.mem a) s := by
  cases b with
  | false =>
    refine wp_pure.mpr ⟨s.mem, mb, rfl, ?_, fun _ _ => rfl⟩
    exact h.congr (fun y f => by simp) rfl (le_refl _) rfl fun _ _ => rfl
  | true =>
    obtain ⟨e, he⟩ := hx rfl
    refine wp_mono (h.unlink he) fun _ t ht => ?_
    obtain ⟨m', mb', rfl, hmed, hm⟩ := ht
    refine ⟨m', mb', rfl, ?_, hm⟩
    exact hmed.congr (fun y f => by simp) rfl (le_refl _) rfl fun _ _ => rfl

/-- The blocks `off'`, `al'`, `k'` are left when the block `i` of `off`, `al`, `k` has been
freed: it is merged with the free blocks around it, or, when that is too small for a block,
goes to the block before it. -/
structure BlocksLeft (off : Nat → Nat) (al : Nat → Bool) (k i : Nat) (pf nf : Bool)
    (off' : Nat → Nat) (al' : Nat → Bool) (k' : Nat) : Prop where
  merge : off (i - pf.toNat) + 512 ≤ off (i + 1 + nf.toNat) →
    off' = dropAfter off (i - pf.toNat) (pf.toNat + nf.toNat) ∧
    al' = Function.update (dropAfter al (i - pf.toNat) (pf.toNat + nf.toNat)) (i - pf.toNat) false ∧
    k' = k - pf.toNat - nf.toNat
  absorb : off (i + 1 + nf.toNat) < off (i - pf.toNat) + 512 →
    off' = cutAt off i ∧ al' = Function.update al i false ∧ k' = k - 1

/-- The free blocks of the region at `a`, together with the blocks `G`. -/
def WithFree (G : Nat → Nat → Prop) (a : Nat) (P : Nat → Nat → Prop) (x e : Nat) : Prop :=
  G x e ∨ ∃ o o', P o o' ∧ x = a + o ∧ e = a + o'

/-- What freeing the block `i` of the region `r` has done: the region is gone, if it was
the only allocated block, or it is a large region with the blocks that are left. -/
structure Coalesced (strict : Prop) (s : Heap) (A : List Region) (r : Region) (B : List Region)
    (G : Nat → Nat → Prop) (off : Nat → Nat) (al : Nat → Bool) (k i : Nat) (pf nf : Bool)
    (t : Heap) : Prop where
  frame : MemFrame (fun x => FreeWord s.heap (A ++ ⟨r.addr, r.n, .free⟩ :: B) x ∨
    MedWord s.heap G x) (IsHeader B) s t
  heapEnd : t.heapEnd = s.heapEnd
  cases : ((∀ j, al j = true → j = i) ∧ (∃ u, _intFreeSlab r.addr r.n u = .ok ((), t)) ∧
      ∃ L' bins' mb', SlabInv t L' bins' ∧ SameAlloc (A ++ B) L' ∧ MediumLists t G mb') ∨
    ((∃ j, j ≠ i ∧ al j = true) ∧ ∃ bins' mb',
      SlabInv t (A ++ ⟨r.addr, r.n, .large⟩ :: B) bins' ∧
      LargeOk strict t.mem ⟨r.addr, r.n, .large⟩ ∧
      MediumLists t (fun x e => G x e ∨ FreeIn t.mem ⟨r.addr, r.n, .large⟩ x e) mb' ∧
      BlocksLeft off al k i pf nf (offAt t.mem r.addr) (alAt t.mem r.addr) (cntAt t.mem r.addr) ∧
      ∀ x, x ≠ r.addr → x ≠ r.addr + 8 → ¬ MedWord s.heap (WithFree G r.addr (FreeAt off al k)) x →
        ¬ MedWord s.heap (WithFree G r.addr
          (FreeAt (offAt t.mem r.addr) (alAt t.mem r.addr) (cntAt t.mem r.addr))) x →
        t.mem x = s.mem x)

/-- The header words of a large region determine its blocks. -/
theorem largeOk_of {m : Nat → Nat} (h : BlocksOk strict off al r.n k) (hn : 0 < r.n)
    (hoff : ∀ j, offAt m r.addr j = off j) (hal : ∀ j, alAt m r.addr j = al j) :
    LargeOk strict m r ∧ offAt m r.addr = off ∧ alAt m r.addr = al ∧ cntAt m r.addr = k := by
  have ho : offAt m r.addr = off := funext hoff
  have ha : alAt m r.addr = al := funext hal
  have hc : cntAt m r.addr = k := by
    unfold cntAt
    rw [ho, ha]
    exact h.cnt hn
  refine ⟨?_, ho, ha, hc⟩
  unfold LargeOk
  rw [hc, ho, ha]
  exact h

/-- The header words of an allocated region may be rewritten as those of a large
region; the lists do not notice. -/
theorem rewriteHeader {m' : Nat → Nat} (hslab : SlabInv s (A ++ r :: B) bins)
    (hr : r.isAlloc = true) (hmed : MediumLists s F mb) (hF : BlocksIn (A ++ r :: B) F)
    (hm : ∀ x, x ≠ r.addr → x ≠ r.addr + 8 → m' x = s.mem x)
    (h01 : ∀ j, j < 2 → (m' r.addr).testBit j = (s.mem r.addr).testBit j)
    (h2 : (m' r.addr).testBit 2 = false) (hsz : m' (r.addr + 8) % 2 ^ 56 = r.n) :
    SlabInv { s with mem := m' } (A ++ ⟨r.addr, r.n, .large⟩ :: B) bins ∧
      MediumLists { s with mem := m' } F mb := by
  have hmem : r ∈ A ++ r :: B := by simp
  have hge := (hslab.mem_facts hmem).2.2.1
  have hstop := Region.addr_lt_stop (hslab.mem_facts hmem).1
  constructor
  · refine hslab.rewriteMem ⟨r.addr, r.n, .large⟩ _ hr (by rfl) rfl rfl (fun p hok => ?_)
      fun x hx => hm x (by omega) (by omega)
    exact ⟨hok.pos, by rw [h01 0 (by omega), hok.alloc_bit, hr]; rfl,
      by rw [h01 1 (by omega), hok.prev_bit], h2, hsz⟩
  · refine hmed.congr (fun _ _ => Iff.rfl) rfl (le_refl _) rfl fun a ha => ?_
    rcases ha with hpage | ⟨x, e, hx, hxa⟩
    · exact hm a (by omega) (by omega)
    · obtain ⟨r', hr', -, h₁, h₂, h₃⟩ := hF x e hx
      have hr'n := Region.addr_lt_stop (hslab.mem_facts hr').1
      have key : ¬ (r.addr ≤ a ∧ a < r.addr + 16) := by
        intro hcon
        have := hslab.tiles.eq_of_mem hmem hr' (x := a) (by omega) (by omega)
        subst this
        omega
      exact hm a (by omega) (by omega)

/-- The situation of `medium_bin_free` after the check for a large block: the
allocated block `i` is freed, `pf` and `nf` say whether the blocks around it are
free, and `n'` slabs are left. -/
structure FreeCase (strict : Prop) (off : Nat → Nat) (al : Nat → Bool) (n k i : Nat) (pf nf : Bool)
    (n' : Nat) : Prop where
  ok : BlocksOk strict off al n k
  pos : 0 < n
  lt : i < k
  used : al i = true
  prev : pf = true ↔ 0 < i ∧ al (i - 1) = false
  next : nf = true ↔ i + 1 < k ∧ al (i + 1) = false
  slabs : n' = n ∨ (n' = 1 ∧ i + 1 = k)
  /-- a large block keeps its slabs only at the last index -/
  last : i + 1 = k → 1 < n' → i = 7 ∧ (pf = true → ¬ strict)

namespace FreeCase

variable {pf nf : Bool} {n' o e : Nat}

theorem prev_off (h : FreeCase strict off al n k i pf nf n') (hpf : pf = true) :
    0 < i ∧ off (i - 1) + 512 ≤ off i := by
  obtain ⟨h0, hfree⟩ := h.prev.mp hpf
  have := h.lt
  have := h.ok.free_size h.pos (by omega : i - 1 < k) hfree
  rw [show i - 1 + 1 = i by omega] at this
  exact ⟨h0, this⟩

theorem next_off (h : FreeCase strict off al n k i pf nf n') (hnf : nf = true) :
    i + 1 < k ∧ off (i + 1) + 512 ≤ off (i + 2) := by
  obtain ⟨h0, hfree⟩ := h.next.mp hnf
  exact ⟨h0, h.ok.free_size h.pos h0 hfree⟩

/-- Only the last block can leave too small a remainder, after an allocated one. -/
theorem small (h : FreeCase strict off al n k i pf nf n')
    (hsize : off (i + 1 + nf.toNat) - off (i - pf.toNat) < 512) :
    pf = false ∧ nf = false ∧ 0 < i ∧ i + 1 = k ∧ al (i - 1) = true := by
  have hi := h.lt
  have h₁ := h.ok.off_mono (i := i - pf.toNat) (j := i) (by omega)
  have h₂ := h.ok.off_mono (i := i) (j := i + 1) (by omega)
  have h₃ := h.ok.off_mono (i := i + 1) (j := i + 1 + nf.toNat) (by omega)
  have hpf : pf = false := by
    by_contra hne
    have hpf := Bool.eq_true_of_not_eq_false hne
    have := h.prev_off hpf
    rw [hpf] at hsize
    simp only [Bool.toNat_true] at hsize
    omega
  have hnf : nf = false := by
    by_contra hne
    have hnf := Bool.eq_true_of_not_eq_false hne
    have := (h.next_off hnf).2
    rw [hnf] at hsize
    simp only [Bool.toNat_true, show i + 1 + 1 = i + 2 from rfl] at hsize
    omega
  subst hpf hnf
  simp only [Bool.toNat_false, Nat.add_zero, Nat.sub_zero] at hsize
  have hlast : i + 1 = k := by
    by_contra hne
    have := h.ok.step i (by omega)
    omega
  have h0 : 0 < i := by
    rcases Nat.eq_zero_or_pos i with rfl | h0
    · have h16 := h.ok.first
      have hstop := (h.ok.stop 1 (by omega)).1
      rw [hstop, h16] at hsize
      omega
    · exact h0
  refine ⟨rfl, rfl, h0, hlast, ?_⟩
  by_contra hne
  have := h.prev.mpr ⟨h0, by simpa using hne⟩
  cases this

theorem toNat_le (b : Bool) : b.toNat ≤ 1 := by
  cases b <;> decide

theorem prev_le (h : FreeCase strict off al n k i pf nf n') : pf.toNat ≤ i := by
  cases pf with
  | false => exact Nat.zero_le i
  | true => exact (h.prev.mp rfl).1

theorem next_lt (h : FreeCase strict off al n k i pf nf n') : i + nf.toNat < k := by
  cases nf with
  | false => exact h.lt
  | true => exact (h.next.mp rfl).1

theorem prev_free (h : FreeCase strict off al n k i pf nf n') (hpf : pf.toNat = 1) :
    al (i - 1) = false := by
  cases pf with
  | false => cases hpf
  | true => exact (h.prev.mp rfl).2

theorem next_free (h : FreeCase strict off al n k i pf nf n') (hnf : nf.toNat = 1) :
    al (i + 1) = false := by
  cases nf with
  | false => cases hnf
  | true => exact (h.next.mp rfl).2

/-- The blocks after merging, unless none is left. -/
theorem merge (h : FreeCase strict off al n k i pf nf n')
    (hsize : off (i - pf.toNat) + 512 ≤ off (i + 1 + nf.toNat))
    (hused : ∃ j, Function.update (dropAfter al (i - pf.toNat) (pf.toNat + nf.toNat))
      (i - pf.toNat) false j = true) :
    BlocksOk strict (dropAfter off (i - pf.toNat) (pf.toNat + nf.toNat))
      (Function.update (dropAfter al (i - pf.toNat) (pf.toNat + nf.toNat)) (i - pf.toNat) false) n'
      (k - pf.toNat - nf.toNat) := by
  refine h.ok.merge h.lt (toNat_le pf) (toNat_le nf) h.prev_le ?_ ?_ hsize h.slabs (fun hlast hn => ?_)
    hused
  · rw [Bool.toNat_eq_one]
    exact h.prev
  · rw [Bool.toNat_eq_one]
    exact h.next
  · obtain ⟨rfl, hbug⟩ := h.last hlast hn
    refine hbug ?_
    -- the last of eight blocks is too small by itself
    by_contra hpf
    have hpf' : pf = false := by simpa using hpf
    have hnf : nf = false := by
      by_contra hne
      have := (h.next.mp (Bool.eq_true_of_not_eq_false hne)).1
      omega
    subst hpf' hnf
    have := h.ok.add_le (i := 0) (j := 7) (by omega) h.lt
    have := h.ok.first
    have := h.ok.page' (7 + 1 + 0)
    simp only [Bool.toNat_false, Nat.sub_zero] at hsize
    omega

/-- The free blocks after the neighbours have been unlinked. -/
theorem rest (h : FreeCase strict off al n k i pf nf n') :
    (FreeAt off al k o e ∧ ¬ (pf = true ∧ o = off (i - 1)) ∧ ¬ (nf = true ∧ o = off (i + 1))) ↔
      FreeAt off al k o e ∧ (o < off (i - pf.toNat) ∨ off (i + nf.toNat) < o) := by
  refine and_congr_right fun hf => ?_
  obtain ⟨j, hj, hfree, rfl, -⟩ := hf
  have hlt := h.lt
  have hple := h.prev_le
  have hnlt := h.next_lt
  have hji : j ≠ i := by
    rintro rfl
    rw [h.used] at hfree
    cases hfree
  have hoff : ∀ j', j' < k → (off j = off j' ↔ j = j') := fun j' hj' =>
    ⟨fun he => h.ok.off_inj hj hj' he, fun he => he ▸ rfl⟩
  rw [← h.ok.lt_iff_off_lt (by omega : i - pf.toNat < k), ← h.ok.lt_iff_off_lt hj,
    hoff (i - 1) (by omega)]
  have hnext : nf = true ∧ off j = off (i + 1) ↔ nf = true ∧ j = i + 1 := by
    refine and_congr_right fun hnf => hoff _ ?_
    exact (h.next.mp hnf).1
  rw [hnext]
  cases hpf : pf <;> cases hnf : nf <;> simp only [Bool.toNat_false, Bool.toNat_true] <;>
    subst hpf hnf <;> simp <;> omega

theorem merge_freeAt (h : FreeCase strict off al n k i pf nf n') :
    FreeAt (dropAfter off (i - pf.toNat) (pf.toNat + nf.toNat))
        (Function.update (dropAfter al (i - pf.toNat) (pf.toNat + nf.toNat)) (i - pf.toNat) false)
        (k - pf.toNat - nf.toNat) o e ↔
      (FreeAt off al k o e ∧ ¬ (pf = true ∧ o = off (i - 1)) ∧ ¬ (nf = true ∧ o = off (i + 1))) ∨
        (o = off (i - pf.toNat) ∧ e = off (i + 1 + nf.toNat)) := by
  rw [h.ok.merge_freeAt h.lt h.prev_le (toNat_le pf) h.next_lt (toNat_le nf), h.rest, or_comm]

/-- The allocated blocks after merging. -/
theorem merge_shrunk (h : FreeCase strict off al n k i pf nf n') :
    Shrunk (UsedAt off al n k) (UsedAt (dropAfter off (i - pf.toNat) (pf.toNat + nf.toNat))
      (Function.update (dropAfter al (i - pf.toNat) (pf.toNat + nf.toNat)) (i - pf.toNat) false) n'
      (k - pf.toNat - nf.toNat)) (off i) := by
  have hiff := fun o e => h.ok.merge_usedAt (o := o) (e := e) h.lt h.prev_le h.prev_free (toNat_le pf)
    h.next_lt h.next_free (toNat_le nf) h.slabs
  exact ⟨fun o e hu hne => ⟨e, le_refl _, (hiff o e).mpr ⟨hu, hne⟩⟩,
    fun o e hu => ⟨((hiff o e).mp hu).2, e, ((hiff o e).mp hu).1⟩⟩

/-- An alloc bit that is left is that of another block. -/
theorem other_used (h : FreeCase strict off al n k i pf nf n')
    (hused : ∃ j, Function.update (dropAfter al (i - pf.toNat) (pf.toNat + nf.toNat))
      (i - pf.toNat) false j = true) : ∃ j, j ≠ i ∧ al j = true := by
  have hple := h.prev_le
  obtain ⟨j, hj⟩ := hused
  by_cases hji : j = i - pf.toNat
  · rw [hji, Function.update_self] at hj
    cases hj
  · rw [Function.update_of_ne hji] at hj
    unfold dropAfter at hj
    split_ifs at hj with hle
    · exact ⟨j, by omega, hj⟩
    · exact ⟨_, by omega, hj⟩

/-- The other allocated blocks are left. -/
theorem shrunk {off' : Nat → Nat} {al' : Nat → Bool} {k' : Nat}
    (h : FreeCase strict off al n k i pf nf n') (hleft : BlocksLeft off al k i pf nf off' al' k') :
    Shrunk (UsedAt off al n k) (UsedAt off' al' n' k') (off i) := by
  rcases Nat.lt_or_ge (off (i + 1 + nf.toNat)) (off (i - pf.toNat) + 512) with hsize | hsize
  · obtain ⟨rfl, rfl, rfl⟩ := hleft.absorb hsize
    obtain ⟨rfl, rfl, h0, hlast, -⟩ := h.small (by omega)
    have hn' : 0 < n' := by
      have := h.pos
      rcases h.slabs with rfl | ⟨rfl, -⟩ <;> omega
    obtain ⟨h₁, h₂⟩ := h.ok.absorb_usedAt hlast h0 hn'
    exact ⟨h₁, h₂⟩
  · obtain ⟨rfl, rfl, rfl⟩ := hleft.merge hsize
    exact h.merge_shrunk

/-- When no alloc bit is left, the block was the only allocated one, and the free
blocks around it the only free ones. -/
theorem empty (h : FreeCase strict off al n k i pf nf n')
    (hempty : ∀ j, Function.update (dropAfter al (i - pf.toNat) (pf.toNat + nf.toNat))
      (i - pf.toNat) false j = false) :
    (∀ j, al j = true → j = i) ∧ ∀ o e, ¬ (FreeAt off al k o e ∧
      ¬ (pf = true ∧ o = off (i - 1)) ∧ ¬ (nf = true ∧ o = off (i + 1))) := by
  have hlt := h.lt
  have hple := h.prev_le
  have hnlt := h.next_lt
  -- the blocks outside the merged one would be allocated
  have hal : ∀ j, j < k → j < i - pf.toNat ∨ i + nf.toNat < j → al j = false := by
    rintro j hj (hlt' | hgt)
    · have := hempty j
      rwa [Function.update_of_ne (by omega), dropAfter_le hlt'.le] at this
    · have := hempty (j - (pf.toNat + nf.toNat))
      rwa [Function.update_of_ne (by omega), dropAfter_gt (by omega),
        show j - (pf.toNat + nf.toNat) + (pf.toNat + nf.toNat) = j by omega] at this
  constructor
  · intro j hj
    by_contra hne
    have hjk := h.ok.lt_of_al hj
    rcases Nat.lt_or_ge j (i - pf.toNat) with hlt' | hge
    · rw [hal j hjk (.inl hlt')] at hj
      cases hj
    rcases Nat.lt_or_ge (i + nf.toNat) j with hgt | hle
    · rw [hal j hjk (.inr hgt)] at hj
      cases hj
    · rcases Nat.lt_or_gt_of_ne hne with hji | hji
      · rw [show j = i - 1 by have := toNat_le pf; omega,
          h.prev_free (by have := toNat_le pf; omega)] at hj
        cases hj
      · rw [show j = i + 1 by have := toNat_le nf; omega,
          h.next_free (by have := toNat_le nf; omega)] at hj
        cases hj
  · rintro o e hf
    obtain ⟨⟨j, hj, hfree, rfl, -⟩, hside⟩ := h.rest.mp hf
    have hside' : j < i - pf.toNat ∨ i + nf.toNat < j := by
      rw [h.ok.lt_iff_off_lt (by omega : i - pf.toNat < k), h.ok.lt_iff_off_lt hj]
      exact hside
    -- its neighbour on the side of the merged block is free as well
    rcases hside' with hlt' | hgt
    · have hadj := h.ok.coalesced (i - pf.toNat - 1) (by omega)
      rw [hal (i - pf.toNat - 1) (by omega) (.inl (by omega))] at hadj
      rcases hadj with hadj | hadj
      · cases hadj
      · rw [show i - pf.toNat - 1 + 1 = i - pf.toNat by omega] at hadj
        cases pf with
        | false =>
          have := h.prev.mpr ⟨by omega, hal (i - 1) (by omega) (.inl (by simp; omega))⟩
          cases this
        | true =>
          rw [Bool.toNat_true, h.prev_free rfl] at hadj
          cases hadj
    · have hadj := h.ok.coalesced (i + nf.toNat) (by omega)
      rw [hal (i + nf.toNat + 1) (by omega) (.inr (by omega))] at hadj
      rcases hadj with hadj | hadj
      · cases nf with
        | false =>
          have := h.next.mpr ⟨by simp at hgt; omega, hal (i + 1) (by simp at hgt; omega)
            (.inr (by simp))⟩
          cases this
        | true =>
          rw [Bool.toNat_true, h.next_free rfl] at hadj
          cases hadj
      · cases hadj

end FreeCase

/-! ### The stores -/

/-- The alloc byte of a slab. -/
theorem wp_storeAlloc {a v : Nat} {Q : Unit → Heap → Prop} (ha : a % 8 = 0) :
    wp (store8 (a + 15) v) Q s ↔
      s.Valid (a + 8) ∧ Q () (s.setMem (a + 8) (putField (s.mem (a + 8)) 7 1 v)) := by
  rw [show a + 15 = a + 8 + 7 by omega]
  exact wp_storeField (by omega) (by omega)

theorem wp_loadAlloc {a : Nat} {Q : Nat → Heap → Prop} (ha : a % 8 = 0) :
    wp (load8 (a + 15)) Q s ↔ s.Valid (a + 8) ∧ Q (fieldOf (s.mem (a + 8)) 7 1) s := by
  rw [show a + 15 = a + 8 + 7 by omega]
  exact wp_loadField (by omega) (by omega)

/-- The region `r` is a large one with the blocks `off` and `al`; only its header
has been written. -/
structure Rewritten (strict : Prop) (s : Heap) (A : List Region) (r : Region) (B : List Region)
    (F : Nat → Nat → Prop) (off : Nat → Nat) (al : Nat → Bool) (k : Nat) (t : Heap) : Prop where
  state : t = { s with mem := t.mem }
  slab : ∃ bins', SlabInv t (A ++ ⟨r.addr, r.n, .large⟩ :: B) bins'
  medium : ∃ mb', MediumLists t F mb'
  ok : LargeOk strict t.mem ⟨r.addr, r.n, .large⟩
  off : offAt t.mem r.addr = off
  al : alAt t.mem r.addr = al
  cnt : cntAt t.mem r.addr = k
  mem : ∀ x, x ≠ r.addr → x ≠ r.addr + 8 → t.mem x = s.mem x

/-- Writing both header words. -/
theorem storeHeader_spec {v v₂ : Nat} (hslab : SlabInv s (A ++ r :: B) bins)
    (hr : r.isAlloc = true) (hmed : MediumLists s F mb) (hF : BlocksIn (A ++ r :: B) F)
    (hok : BlocksOk strict off al r.n k) (hoff : ∀ j, blockOff v j = off j)
    (hal : ∀ j, j < 8 → v₂.testBit j = al j)
    (h01 : ∀ j, j < 2 → v.testBit j = (s.mem r.addr).testBit j) (h2 : v.testBit 2 = false)
    (hsz : s.mem (r.addr + 8) % 2 ^ 56 = r.n) :
    wp (do store64 r.addr v; store8 (r.addr + 15) v₂)
      (fun _ t => Rewritten strict s A r B F off al k t) s := by
  have hmem : r ∈ A ++ r :: B := by simp
  obtain ⟨hn, halign, hge, -, -⟩ := hslab.mem_facts hmem
  have hstop := Region.addr_lt_stop hn
  have hk8 := hok.le
  have hv₁ : s.Valid r.addr := hslab.valid hmem (le_refl _) (by omega) (by omega)
  have hv₂ : s.Valid (r.addr + 8) := hslab.valid hmem (by omega) (by omega) (by omega)
  simp only [wp_bind, wp_store64, wp_storeAlloc (show r.addr % 8 = 0 by omega), setMem_valid]
  refine ⟨hv₁, hv₂, ?_⟩
  have hne : r.addr + 8 ≠ r.addr := by omega
  -- the two words
  have hm₁ : ((s.setMem r.addr v).setMem (r.addr + 8)
      (putField ((s.setMem r.addr v).mem (r.addr + 8)) 7 1 v₂)).mem r.addr = v := by
    simp only [setMem_mem]
    rw [Function.update_of_ne hne.symm, Function.update_self]
  have hm₂ : ((s.setMem r.addr v).setMem (r.addr + 8)
      (putField ((s.setMem r.addr v).mem (r.addr + 8)) 7 1 v₂)).mem (r.addr + 8) =
        putField (s.mem (r.addr + 8)) 7 1 v₂ := by
    simp only [setMem_mem]
    rw [Function.update_self, Function.update_of_ne hne]
  have hm : ∀ x, x ≠ r.addr → x ≠ r.addr + 8 → ((s.setMem r.addr v).setMem (r.addr + 8)
      (putField ((s.setMem r.addr v).mem (r.addr + 8)) 7 1 v₂)).mem x = s.mem x := by
    intro x h₁ h₂
    simp only [setMem_mem]
    rw [Function.update_of_ne h₂, Function.update_of_ne h₁]
  obtain ⟨hslab', hmed'⟩ := rewriteHeader hslab hr hmed hF hm (by rw [hm₁]; exact h01)
    (by rw [hm₁]; exact h2) (by rw [hm₂, putField_alloc_mod, hsz])
  obtain ⟨hok', ho, ha, hc⟩ := largeOk_of (r := ⟨r.addr, r.n, .large⟩) hok hn
    (m := ((s.setMem r.addr v).setMem (r.addr + 8)
      (putField ((s.setMem r.addr v).mem (r.addr + 8)) 7 1 v₂)).mem)
    (fun j => by simp only [offAt]; rw [hm₁, hoff j]) fun j => by
      simp only [alAt]
      rw [hm₂, blockAl_putField]
      rcases Nat.lt_or_ge j 8 with hj | hj
      · rw [decide_eq_true hj, Bool.true_and, hal j hj]
      · rw [decide_eq_false (by omega), Bool.false_and, (hok.stop j (by omega)).2]
  exact ⟨rfl, ⟨_, hslab'⟩, ⟨_, hmed'⟩, hok', ho, ha, hc, hm⟩

/-! ### Putting the pieces together -/

/-- The words of a free block of the region `r` are words of the region. -/
theorem MedWord.or_inside {h x : Nat} (hx : MedWord h F x)
    (hF : ∀ y f, F y f → G y f ∨ (r.addr ≤ y ∧ y + 512 ≤ f ∧ f ≤ r.stop)) :
    MedWord h G x ∨ (r.addr ≤ x ∧ x < r.stop) := by
  rcases hx with hpage | ⟨y, f, hy, hxy⟩
  · exact .inl (.inl hpage)
  · rcases hF y f hy with hG | hin
    · exact .inl (.inr ⟨y, f, hG, hxy⟩)
    · exact .inr (by omega)

theorem MedWord.or_region {h x : Nat} (hx : MedWord h F x)
    (hF : ∀ y f, F y f → G y f ∨ (r.addr ≤ y ∧ y + 512 ≤ f ∧ f ≤ r.stop)) :
    FreeWord h (A ++ ⟨r.addr, r.n, .free⟩ :: B) x ∨ MedWord h G x := by
  rcases hx.or_inside hF with hG | ⟨h₁, h₂⟩
  · exact .inr hG
  · exact .inl (.inr ⟨⟨r.addr, r.n, .free⟩, by simp, rfl, h₁, h₂⟩)

theorem header_freeWord {h x : Nat} (hn : 0 < r.n) (hx : x = r.addr ∨ x = r.addr + 8) :
    FreeWord h (A ++ ⟨r.addr, r.n, .free⟩ :: B) x := by
  have := Region.addr_lt_stop hn
  refine .inr ⟨⟨r.addr, r.n, .free⟩, by simp, rfl, ?_, ?_⟩
  · show r.addr ≤ x
    omega
  · show x < r.stop
    omega

theorem BlocksIn.of_or (hG : BlocksIn (A ++ B) G) (hr : r.isAlloc = true)
    (hF : ∀ y f, F y f → G y f ∨ (r.addr + 16 ≤ y ∧ y + 512 ≤ f ∧ f ≤ r.stop)) :
    BlocksIn (A ++ r :: B) F := by
  intro y f hy
  rcases hF y f hy with hy | hy
  · obtain ⟨r', hr', hk⟩ := hG y f hy
    refine ⟨r', ?_, hk⟩
    simp only [List.mem_append, List.mem_cons] at hr' ⊢
    tauto
  · exact ⟨r, by simp, Region.isAlloc_eq_true.mp hr, hy⟩

/-- The header words of a region are not words of the medium blocks. -/
theorem SlabInv.header_not_medWord (h : SlabInv s L bins) (hr : r ∈ L) (hF : BlocksIn L F)
    (hx : x = r.addr ∨ x = r.addr + 8) : ¬ MedWord s.heap F x := by
  obtain ⟨hn, -, hge, -, -⟩ := h.mem_facts hr
  have hstop := Region.addr_lt_stop hn
  rintro (hpage | ⟨y, f, hy, hxy⟩)
  · omega
  · obtain ⟨r', hr', -, h₁, h₂, h₃⟩ := hF y f hy
    have := h.tiles.eq_of_mem hr hr' (x := x) (by omega) (by omega)
    subst this
    omega

theorem Rewritten.freeIn (h : Rewritten strict s A r B F off al k t) {x e : Nat} :
    FreeIn t.mem ⟨r.addr, r.n, .large⟩ x e ↔
      ∃ o o', FreeAt off al k o o' ∧ x = r.addr + o ∧ e = r.addr + o' := by
  unfold FreeIn
  rw [h.off, h.al, h.cnt]

/-- The region is kept when its header has been rewritten. -/
theorem Rewritten.coalesced {u : Heap} {off₀ : Nat → Nat} {al₀ : Nat → Bool} {k₀ : Nat}
    {pf nf : Bool} (h : Rewritten strict u A r B F off al k t) (hn : 0 < r.n)
    (hF : ∀ x e, F x e ↔ WithFree G r.addr (FreeAt off al k) x e)
    (hu : ∃ m' sk, u = { s with mem := m', medSkiplist := sk })
    (hm : ∀ x, ¬ (FreeWord s.heap (A ++ ⟨r.addr, r.n, .free⟩ :: B) x ∨ MedWord s.heap G x) →
      u.mem x = s.mem x)
    (hin : ∀ x, ¬ MedWord s.heap (WithFree G r.addr (FreeAt off al k)) x → u.mem x = s.mem x)
    (hother : ∃ j, j ≠ i ∧ al₀ j = true) (hleft : BlocksLeft off₀ al₀ k₀ i pf nf off al k) :
    Coalesced strict s A r B G off₀ al₀ k₀ i pf nf t := by
  obtain ⟨m', sk, rfl⟩ := hu
  have hstate := h.state
  obtain ⟨mb', hmed⟩ := h.medium
  obtain ⟨bins', hslab⟩ := h.slab
  refine ⟨MemFrame.of_mem (by rw [hstate]) (by rw [hstate]) fun x hx => ?_, by rw [hstate], .inr
    ⟨hother, bins', mb', hslab, h.ok, ?_, ?_, fun x h₁ h₂ _ hx => ?_⟩⟩
  · rw [h.mem x, hm x hx]
    · rintro rfl
      exact hx (.inl (header_freeWord hn (.inl rfl)))
    · rintro rfl
      exact hx (.inl (header_freeWord hn (.inr rfl)))
  · refine hmed.congr (fun x e => ?_) rfl (le_refl _) rfl fun _ _ => rfl
    rw [hF, WithFree, h.freeIn]
  · rw [h.off, h.al, h.cnt]
    exact hleft
  · rw [h.off, h.al, h.cnt] at hx
    exact (h.mem x h₁ h₂).trans (hin x hx)

variable {pf nf : Bool}

/-- The free blocks once the neighbours of the freed block have been unlinked. -/
def RestFree (off : Nat → Nat) (al : Nat → Bool) (k i : Nat) (pf nf : Bool) (o o' : Nat) : Prop :=
  FreeAt off al k o o' ∧ ¬ (pf = true ∧ o = off (i - 1)) ∧ ¬ (nf = true ∧ o = off (i + 1))

/-- No block is left: the region is given back. -/
theorem coalesceEmpty_spec (hslab : SlabInv s (A ++ r :: B) bins) (hr : r.isAlloc = true)
    (hG : BlocksIn (A ++ B) G) (hc : FreeCase strict off al n k i pf nf r.n)
    (hmed : MediumLists s (WithFree G r.addr (RestFree off al k i pf nf)) mb)
    (hempty : ∀ j, Function.update (dropAfter al (i - pf.toNat) (pf.toNat + nf.toNat))
      (i - pf.toNat) false j = false) :
    wp (_intFreeSlab r.addr r.n)
      (fun _ t => Coalesced strict s A r B G off al k i pf nf t) s := by
  obtain ⟨honly, hnone⟩ := hc.empty hempty
  obtain ⟨_, t, heq, ⟨L', bins', hinv, hsame⟩, hframe, hend⟩ :=
    wp_iff.mp (_intFreeSlab_spec hslab hr)
  refine wp_iff.mpr ⟨(), t, heq, hframe.memFrame.mono (fun x hx => .inl hx) (fun x hx => hx), hend,
    .inl ⟨honly, ⟨s, heq⟩, L', bins', mb, hinv, hsame, ?_⟩⟩
  refine hmed.congr (fun x e => ?_) hframe.heap hframe.brk hframe.med fun a ha => ?_
  · refine ⟨.inl, fun h => h.resolve_right ?_⟩
    rintro ⟨o, o', hf, -⟩
    exact hnone o o' hf
  · refine hslab.medWord_kept hG hframe (ha.mono fun x e h => h.resolve_right ?_)
    rintro ⟨o, o', hf, -⟩
    exact hnone o o' hf

/-- Too small a remainder goes to the block before. -/
theorem coalesceAbsorb_spec (hslab : SlabInv s (A ++ r :: B) bins) (hr : r.isAlloc = true)
    (hG : BlocksIn (A ++ B) G)
    (hc : FreeCase strict (blockOff w) (blockAl w₂) n k i false false r.n)
    (hmed : MediumLists s (WithFree G r.addr
      (RestFree (blockOff w) (blockAl w₂) k i false false)) mb)
    (hw : s.mem r.addr = w) (h2 : w.testBit 2 = false) (hsz : s.mem (r.addr + 8) % 2 ^ 56 = r.n)
    (h0 : 0 < i) (hlast : i + 1 = k) (hal : blockAl w₂ (i - 1) = true)
    (hsize : blockOff w (i + 1) < blockOff w i + 512) :
    wp (do
        store64 r.addr (absorbWord (BitVec.ofNat 64 w) i).toNat
        store8 (r.addr + 15)
          (freeAllocByte (BitVec.ofNat 8 (fieldOf w₂ 7 1)) i (false).toNat (false).toNat).toNat)
      (fun _ t => Coalesced strict s A r B G (blockOff w) (blockAl w₂) k i false false t) s := by
  have hk8 := hc.ok.le
  have hok := hc.ok.absorb hlast h0 hal r.n
  have hmem : r ∈ A ++ r :: B := by simp
  have hn := (hslab.mem_facts hmem).1
  -- the free blocks stay the same
  have hrest : ∀ o o', RestFree (blockOff w) (blockAl w₂) k i false false o o' ↔
      FreeAt (cutAt (blockOff w) i) (Function.update (blockAl w₂) i false) (k - 1) o o' := by
    intro o o'
    rw [BlocksOk.absorb_freeAt hlast h0 hc.used hal]
    unfold RestFree
    simp
  have hFiff : ∀ x e, WithFree G r.addr (RestFree (blockOff w) (blockAl w₂) k i false false) x e ↔
      WithFree G r.addr (FreeAt (cutAt (blockOff w) i) (Function.update (blockAl w₂) i false)
        (k - 1)) x e := by
    intro x e
    unfold WithFree
    simp only [hrest]
  have hF : BlocksIn (A ++ r :: B)
      (WithFree G r.addr (RestFree (blockOff w) (blockAl w₂) k i false false)) := by
    refine hG.of_or hr fun y f hy => ?_
    rcases (hFiff y f).mp hy with hy | ⟨o, o', hf, rfl, rfl⟩
    · exact .inl hy
    · have hb := hok.freeAt_bounds hn hf
      have := Region.addr_lt_stop hn
      exact .inr (by omega)
  refine wp_mono (storeHeader_spec hslab hr hmed hF hok (fun j => ?_) (fun j hj => ?_)
    (fun j hj => ?_) ?_ hsz) fun _ t ht => ?_
  · exact blockOff_absorbWord (by omega) h0 (fun j hj => (hc.ok.stop j (by omega)).1) j
  · have hbit : (freeAllocByte (BitVec.ofNat 8 (fieldOf w₂ 7 1)) i 0 0).getLsbD j = _ :=
      getLsbD_freeAllocByte (by omega) (Nat.zero_le i) hj
    rw [Nat.sub_zero, Nat.add_zero, dropAfter_zero] at hbit
    exact hbit
  · show BitVec.getLsbD _ _ = _
    rw [getLsbD_absorbWord (by omega) _ (by omega), if_pos (by omega), hw, BitVec.getLsbD_ofNat,
      decide_eq_true (by omega), Bool.true_and]
  · show BitVec.getLsbD _ _ = _
    rw [getLsbD_absorbWord (by omega) _ (by omega), if_pos (by omega), BitVec.getLsbD_ofNat, h2,
      Bool.and_false]
  · refine ht.coalesced hn hFiff ⟨s.mem, s.medSkiplist, rfl⟩ (fun _ _ => rfl) (fun _ _ => rfl)
      ⟨i - 1, by omega, hal⟩ ⟨fun hle => ?_, fun _ => ⟨rfl, rfl, rfl⟩⟩
    simp only [Bool.toNat_false, Nat.sub_zero, Nat.add_zero] at hle
    omega

/-- Otherwise the merged block goes to its bin and the header is rewritten. -/
theorem coalesceMerge_spec (hslab : SlabInv s (A ++ r :: B) bins) (hr : r.isAlloc = true)
    (hG : BlocksIn (A ++ B) G)
    (hc : FreeCase strict (blockOff w) (blockAl w₂) n k i pf nf r.n)
    (hmed : MediumLists s (WithFree G r.addr (RestFree (blockOff w) (blockAl w₂) k i pf nf)) mb)
    (hw : s.mem r.addr = w) (h2 : w.testBit 2 = false) (hsz : s.mem (r.addr + 8) % 2 ^ 56 = r.n)
    (hsize : blockOff w (i - pf.toNat) + 512 ≤ blockOff w (i + 1 + nf.toNat))
    (hused : ∃ j, Function.update (dropAfter (blockAl w₂) (i - pf.toNat) (pf.toNat + nf.toNat))
      (i - pf.toNat) false j = true) :
    wp (do
        mediumBinLink (r.addr + blockOff w (i - pf.toNat))
          (blockOff w (i + 1 + nf.toNat) - blockOff w (i - pf.toNat))
        store64 r.addr (mergeWord (BitVec.ofNat 64 w) i pf.toNat nf.toNat).toNat
        store8 (r.addr + 15)
          (freeAllocByte (BitVec.ofNat 8 (fieldOf w₂ 7 1)) i pf.toNat nf.toNat).toNat)
      (fun _ t => Coalesced strict s A r B G (blockOff w) (blockAl w₂) k i pf nf t) s := by
  have hk8 := hc.ok.le
  have hilt := hc.lt
  have hple := hc.prev_le
  have hok := hc.merge hsize hused
  have hmem : r ∈ A ++ r :: B := by simp
  obtain ⟨hn, halign, hge, hstop, -⟩ := hslab.mem_facts hmem
  have hbrk := hslab.brk
  have hlen := Region.addr_lt_stop hn
  have hstart := blockOff_bounds w (i - pf.toNat)
  have hend := blockOff_bounds w (i + 1 + nf.toNat)
  have hrest : ∀ o o', FreeAt (dropAfter (blockOff w) (i - pf.toNat) (pf.toNat + nf.toNat))
      (Function.update (dropAfter (blockAl w₂) (i - pf.toNat) (pf.toNat + nf.toNat)) (i - pf.toNat)
        false) (k - pf.toNat - nf.toNat) o o' ↔
      RestFree (blockOff w) (blockAl w₂) k i pf nf o o' ∨
        (o = blockOff w (i - pf.toNat) ∧ o' = blockOff w (i + 1 + nf.toNat)) :=
    fun o o' => hc.merge_freeAt
  have hFiff : ∀ x e, (WithFree G r.addr (RestFree (blockOff w) (blockAl w₂) k i pf nf) x e ∨
      (x = r.addr + blockOff w (i - pf.toNat) ∧ e = r.addr + blockOff w (i + 1 + nf.toNat))) ↔
      WithFree G r.addr (FreeAt (dropAfter (blockOff w) (i - pf.toNat) (pf.toNat + nf.toNat))
        (Function.update (dropAfter (blockAl w₂) (i - pf.toNat) (pf.toNat + nf.toNat))
          (i - pf.toNat) false) (k - pf.toNat - nf.toNat)) x e := by
    intro x e
    unfold WithFree
    constructor
    · rintro ((hG | ⟨o, o', hf, hx⟩) | ⟨rfl, rfl⟩)
      · exact .inl hG
      · exact .inr ⟨o, o', (hrest o o').mpr (.inl hf), hx⟩
      · exact .inr ⟨_, _, (hrest _ _).mpr (.inr ⟨rfl, rfl⟩), rfl, rfl⟩
    · rintro (hG | ⟨o, o', hf, rfl, rfl⟩)
      · exact .inl (.inl hG)
      · rcases (hrest o o').mp hf with hf | ⟨rfl, rfl⟩
        · exact .inl (.inr ⟨o, o', hf, rfl, rfl⟩)
        · exact .inr ⟨rfl, rfl⟩
  have hFin : ∀ y f, (WithFree G r.addr (RestFree (blockOff w) (blockAl w₂) k i pf nf) y f ∨
      (y = r.addr + blockOff w (i - pf.toNat) ∧ f = r.addr + blockOff w (i + 1 + nf.toNat))) →
      G y f ∨ (r.addr + 16 ≤ y ∧ y + 512 ≤ f ∧ f ≤ r.stop) := by
    intro y f hy
    rcases (hFiff y f).mp hy with hy | ⟨o, o', hf, rfl, rfl⟩
    · exact .inl hy
    · have hb := hok.freeAt_bounds hn hf
      exact .inr (by omega)
  have hF := hG.of_or hr hFin
  -- the merged block is not in a bin yet
  have hfresh : ∀ f, ¬ WithFree G r.addr (RestFree (blockOff w) (blockAl w₂) k i pf nf)
      (r.addr + blockOff w (i - pf.toNat)) f := by
    rintro f (hg | ⟨o, o', hf, ho, -⟩)
    · obtain ⟨r', hr', -, h₁, h₂, h₃⟩ := hG _ _ hg
      have := hslab.addr_ne hr'
      omega
    · have ho' : o = blockOff w (i - pf.toNat) := by omega
      obtain ⟨⟨j, hj, hfree, hjo, -⟩, hnp, -⟩ := hf
      have hji : j = i - pf.toNat := hc.ok.off_inj hj (by omega) (hjo.trans ho')
      cases pf with
      | false =>
        rw [hji, Bool.toNat_false, Nat.sub_zero, hc.used] at hfree
        cases hfree
      | true =>
        exact hnp ⟨rfl, ho'⟩
  rw [show blockOff w (i + 1 + nf.toNat) - blockOff w (i - pf.toNat) =
    r.addr + blockOff w (i + 1 + nf.toNat) - (r.addr + blockOff w (i - pf.toNat)) by omega]
  refine wp_call (hmed.link (by omega) (by omega) (by omega) (by omega) (by omega) hfresh)
    fun _ u hu => ?_
  obtain ⟨m', sk, mb', rfl, hmed', hm⟩ := hu
  have hslab' : SlabInv { s with mem := m', medSkiplist := sk } (A ++ r :: B) bins :=
    hslab.of_medWord hF rfl rfl rfl rfl rfl hm
  have hma : m' r.addr = s.mem r.addr := hm _ (hslab.header_not_medWord hmem hF (.inl rfl))
  have hma₂ : m' (r.addr + 8) = s.mem (r.addr + 8) :=
    hm _ (hslab.header_not_medWord hmem hF (.inr rfl))
  refine wp_mono (storeHeader_spec hslab' hr hmed' hF hok (fun j => ?_) (fun j hj => ?_)
    (fun j hj => ?_) ?_ (by rw [← hsz]; exact congrArg (· % 2 ^ 56) hma₂)) fun _ t ht => ?_
  · exact blockOff_mergeWord (by omega) hple j
  · exact getLsbD_freeAllocByte (by omega) hple hj
  · show BitVec.getLsbD _ _ = (m' r.addr).testBit j
    rw [getLsbD_mergeWord (by omega) hple _ (by omega), if_pos (by omega), hma, hw,
      BitVec.getLsbD_ofNat, decide_eq_true (by omega), Bool.true_and]
  · show BitVec.getLsbD _ _ = _
    rw [getLsbD_mergeWord (by omega) hple _ (by omega), if_pos (by omega), BitVec.getLsbD_ofNat, h2,
      Bool.and_false]
  · refine ht.coalesced hn hFiff ⟨m', sk, rfl⟩ (fun x hx => hm x fun hmw => hx ?_)
      (fun x hx => hm x fun hmw => hx (hmw.mono fun y f => (hFiff y f).mp)) (hc.other_used hused)
      ⟨fun _ => ⟨rfl, rfl, rfl⟩, fun hlt => absurd hsize (by omega)⟩
    refine hmw.or_region fun y f hy => ?_
    rcases hFin y f hy with hy | hy
    · exact .inl hy
    · exact .inr ⟨by omega, hy.2.1, hy.2.2⟩

/-- The unlinked neighbours are forgotten, the rest is as after the unlinking. -/
theorem Coalesced.of_mem {m' : Nat → Nat}
    (h : Coalesced strict { s with mem := m' } A r B G off al k i pf nf t)
    (hm : ∀ x, ¬ (FreeWord s.heap (A ++ ⟨r.addr, r.n, .free⟩ :: B) x ∨ MedWord s.heap G x) →
      m' x = s.mem x)
    (hin : ∀ x, ¬ MedWord s.heap (WithFree G r.addr (FreeAt off al k)) x → m' x = s.mem x) :
    Coalesced strict s A r B G off al k i pf nf t := by
  refine ⟨MemFrame.trans (t := { s with mem := m' }) ?_ h.frame, h.heapEnd, h.cases.imp_right ?_⟩
  · exact MemFrame.of_mem rfl (le_refl _) hm
  · rintro ⟨hother, bins', mb', hslab, hok, hmed, hleft, hmem⟩
    exact ⟨hother, bins', mb', hslab, hok, hmed, hleft,
      fun x h₁ h₂ hx hx' => (hmem x h₁ h₂ hx hx').trans (hin x hx)⟩

theorem mediumBinCoalesce_spec (hslab : SlabInv s (A ++ r :: B) bins) (hr : r.isAlloc = true)
    (hG : BlocksIn (A ++ B) G)
    (hc : FreeCase strict (blockOff w) (blockAl w₂) n k i pf nf r.n)
    (hmed : MediumLists s (WithFree G r.addr (FreeAt (blockOff w) (blockAl w₂) k)) mb)
    (hw : s.mem r.addr = w) (h2 : w.testBit 2 = false)
    (hsz : s.mem (r.addr + 8) % 2 ^ 56 = r.n) :
    wp (mediumBinCoalesce r.addr i (BitVec.ofNat 64 w) (BitVec.ofNat 8 (fieldOf w₂ 7 1)) pf nf r.n)
      (fun _ t => Coalesced strict s A r B G (blockOff w) (blockAl w₂) k i pf nf t) s := by
  have hk8 := hc.ok.le
  have hmem : r ∈ A ++ r :: B := by simp
  have hn := (hslab.mem_facts hmem).1
  have hlen := Region.addr_lt_stop hn
  have hpage := hc.ok.page'
  unfold mediumBinCoalesce
  -- the ends of the merged block
  have hunl₁ : pf = true → (if pf = true then
      byteAt (mediumBinMemToOffsets (BitVec.ofNat 64 w)) (8 * i - 8) * 16 else
      byteAt (mediumBinMemToOffsets (BitVec.ofNat 64 w)) (8 * i) * 16) = blockOff w (i - 1) := by
    intro h
    obtain ⟨h0, hlt⟩ := hc.prev_off h
    have := hpage i
    rw [if_pos h, show 8 * i - 8 = 8 * (i - 1) by omega, byteAt_mul (by omega)]
  have hunl₂ : nf = true → byteAt (mediumBinMemToOffsets (BitVec.ofNat 64 w)) (8 * i + 8) * 16 =
      blockOff w (i + 1) := by
    intro h
    obtain ⟨h0, hlt⟩ := hc.next_off h
    have := hpage (i + 2)
    rw [show 8 * i + 8 = 8 * (i + 1) by omega, byteAt_mul (by omega)]
  have hstart : adjOffset (if pf = true then
      byteAt (mediumBinMemToOffsets (BitVec.ofNat 64 w)) (8 * i - 8) * 16 else
      byteAt (mediumBinMemToOffsets (BitVec.ofNat 64 w)) (8 * i) * 16) =
        blockOff w (i - pf.toNat) := by
    cases pf with
    | false => exact adjOffset_byteAt w i
    | true =>
      have h0 := (hc.prev_off rfl).1
      rw [if_pos rfl, show 8 * i - 8 = 8 * (i - 1) by omega]
      exact adjOffset_byteAt w (i - 1)
  have hend : adjOffset (if nf = true then
      byteAt (mediumBinMemToOffsets (BitVec.ofNat 64 w)) (8 * i + 16) * 16 else
      byteAt (mediumBinMemToOffsets (BitVec.ofNat 64 w)) (8 * i + 8) * 16) =
        blockOff w (i + 1 + nf.toNat) := by
    cases nf with
    | false => exact adjOffset_byteAt w (i + 1)
    | true => exact adjOffset_byteAt w (i + 2)
  simp only [mallocAlign, minMediumBlockSz, hstart, hend]
  refine wp_call (unlinkIf_spec hmed fun h => ?_) fun _ u hu => ?_
  · obtain ⟨h0, hfree⟩ := hc.prev.mp h
    have hi := hc.lt
    exact ⟨_, .inr ⟨_, _, ⟨i - 1, by omega, hfree, rfl, rfl⟩, by rw [hunl₁ h], rfl⟩⟩
  obtain ⟨m₁, mb₁, rfl, hmed₁, hm₁⟩ := hu
  refine wp_call (unlinkIf_spec hmed₁ fun h => ?_) fun _ u hu => ?_
  · obtain ⟨h0, hfree⟩ := hc.next.mp h
    refine ⟨r.addr + blockOff w (i + 1 + 1), .inr ⟨_, _, ⟨i + 1, h0, hfree, rfl, rfl⟩,
      by rw [hunl₂ h], rfl⟩, ?_⟩
    rintro ⟨hpf, heq⟩
    rw [hunl₁ hpf, hunl₂ h] at heq
    have := hc.ok.off_lt (i := i - 1) (j := i + 1) (by omega) h0
    omega
  obtain ⟨m₂, mb₂, rfl, hmed₂, hm₂⟩ := hu
  -- the state after the neighbours have been unlinked
  have hmed' : MediumLists { s with mem := m₂ }
      (WithFree G r.addr (RestFree (blockOff w) (blockAl w₂) k i pf nf)) mb₂ := by
    refine hmed₂.congr (fun x e => ?_) rfl (le_refl _) rfl fun _ _ => rfl
    unfold WithFree RestFree
    constructor
    · rintro (hg | ⟨o, o', ⟨hf, h₁, h₂⟩, rfl, rfl⟩)
      · obtain ⟨r', hr', -, hb⟩ := hG x e hg
        have hside := hslab.addr_ne hr'
        refine ⟨⟨.inl hg, ?_⟩, ?_⟩
        · rintro ⟨hpf, rfl⟩
          rw [hunl₁ hpf] at hb
          have := (hc.ok.off_ge (i - 1))
          have := (hc.prev_off hpf).2
          have := hpage i
          omega
        · rintro ⟨hnf, rfl⟩
          rw [hunl₂ hnf] at hb
          have := (hc.ok.off_ge (i + 1))
          have := (hc.next_off hnf).2
          have := hpage (i + 2)
          omega
      · refine ⟨⟨.inr ⟨o, o', hf, rfl, rfl⟩, ?_⟩, ?_⟩
        · rintro ⟨hpf, heq⟩
          rw [hunl₁ hpf] at heq
          exact h₁ ⟨hpf, by omega⟩
        · rintro ⟨hnf, heq⟩
          rw [hunl₂ hnf] at heq
          exact h₂ ⟨hnf, by omega⟩
    · rintro ⟨⟨hg | ⟨o, o', hf, rfl, rfl⟩, h₁⟩, h₂⟩
      · exact .inl hg
      · refine .inr ⟨o, o', ⟨hf, ?_, ?_⟩, rfl, rfl⟩
        · rintro ⟨hpf, rfl⟩
          exact h₁ ⟨hpf, by rw [hunl₁ hpf]⟩
        · rintro ⟨hnf, rfl⟩
          exact h₂ ⟨hnf, by rw [hunl₂ hnf]⟩
  have hFin : ∀ y f, WithFree G r.addr (FreeAt (blockOff w) (blockAl w₂) k) y f →
      G y f ∨ (r.addr + 16 ≤ y ∧ y + 512 ≤ f ∧ f ≤ r.stop) := by
    rintro y f (hg | ⟨o, o', hf, rfl, rfl⟩)
    · exact .inl hg
    · have hb := hc.ok.freeAt_bounds hc.pos hf
      exact .inr (by omega)
  have hF := hG.of_or hr hFin
  have hm : ∀ x, ¬ MedWord s.heap (WithFree G r.addr (FreeAt (blockOff w) (blockAl w₂) k)) x →
      m₂ x = s.mem x :=
    fun x hx => (hm₂ x fun hmw => hx (hmw.mono fun y f hy => hy.1)).trans (hm₁ x hx)
  have hslab' : SlabInv { s with mem := m₂ } (A ++ r :: B) bins :=
    hslab.of_medWord hF rfl rfl rfl rfl rfl hm
  have hma : m₂ r.addr = w := (hm _ (hslab.header_not_medWord hmem hF (.inl rfl))).trans hw
  have hma₂ : m₂ (r.addr + 8) % 2 ^ 56 = r.n := by
    rw [hm _ (hslab.header_not_medWord hmem hF (.inr rfl)), hsz]
  have hback : ∀ t, Coalesced strict { s with mem := m₂ } A r B G (blockOff w) (blockAl w₂) k i pf nf t →
      Coalesced strict s A r B G (blockOff w) (blockAl w₂) k i pf nf t := by
    refine fun t ht => ht.of_mem (fun x hx => hm x fun hmw => hx (hmw.or_region fun y f hy => ?_)) hm
    rcases hFin y f hy with hy | hy
    · exact .inl hy
    · exact .inr ⟨by omega, hy.2.1, hy.2.2⟩
  change wp _ _ { s with mem := m₂ }
  by_cases hsmall : blockOff w (i + 1 + nf.toNat) - blockOff w (i - pf.toNat) < 512
  · obtain ⟨rfl, rfl, h0, hlast, hprev⟩ := hc.small hsmall
    have hbit : (BitVec.ofNat 8 (fieldOf w₂ 7 1)).getLsbD (i - 1) = true := by
      rw [getLsbD_allocByte, hprev]
    have hne : freeAllocByte (BitVec.ofNat 8 (fieldOf w₂ 7 1)) i (false).toNat (false).toNat ≠ 0 := by
      intro hzero
      have hb : (freeAllocByte (BitVec.ofNat 8 (fieldOf w₂ 7 1)) i 0 0).getLsbD (i - 1) = _ :=
        getLsbD_freeAllocByte (by omega) (Nat.zero_le i) (by omega)
      rw [Nat.sub_zero, Nat.add_zero, dropAfter_zero, Function.update_of_ne (by omega), hprev] at hb
      rw [show freeAllocByte (BitVec.ofNat 8 (fieldOf w₂ 7 1)) i 0 0 = 0 from hzero] at hb
      simp at hb
    simp only [hsmall, hbit, decide_true, Bool.not_true, Bool.and_true, Bool.and_false, if_true]
    refine wp_bind.mpr (wp_mallocAssert.mpr ⟨by simpa using h0, ?_⟩)
    refine wp_bind.mpr (wp_pure.mpr ?_)
    refine wp_ite.mpr ?_
    split
    · rename_i hzero
      exact absurd hzero hne
    refine wp_bind.mpr (wp_pure.mpr ?_)
    exact wp_mono (coalesceAbsorb_spec hslab' hr hG hc hmed' hma h2 hma₂ h0 hlast hprev
      (by simp only [Bool.toNat_false, Nat.add_zero, Nat.sub_zero] at hsmall; omega))
      fun _ t ht => hback t ht
  · have hsize : blockOff w (i - pf.toNat) + 512 ≤ blockOff w (i + 1 + nf.toNat) := by omega
    simp only [hsmall, decide_false, Bool.not_false, Bool.false_and, if_true, if_false]
    refine wp_bind.mpr (wp_mallocAssert.mpr ⟨by simp, ?_⟩)
    refine wp_bind.mpr (wp_pure.mpr ?_)
    refine wp_ite.mpr ?_
    split
    · rename_i hz
      have hzero : freeAllocByte (BitVec.ofNat 8 (fieldOf w₂ 7 1)) i pf.toNat nf.toNat = 0 := hz
      refine wp_mono (coalesceEmpty_spec hslab' hr hG hc hmed' fun j => ?_) fun _ t ht => hback t ht
      rcases Nat.lt_or_ge j 8 with hj | hj
      · rw [← getLsbD_freeAllocByte (by have := hc.lt; omega) hc.prev_le hj, hzero]
        simp
      · have := hc.lt
        have := hc.prev_le
        rw [Function.update_of_ne (by omega), dropAfter_gt (by omega), blockAl_ge _ (by omega)]
    · rename_i hzero
      refine wp_mono (coalesceMerge_spec hslab' hr hG hc hmed' hma h2 hma₂ hsize ?_)
        fun _ t ht => hback t ht
      by_contra hnone
      refine hzero (BitVec.eq_of_getLsbD_eq fun j hj => ?_)
      show (freeAllocByte (BitVec.ofNat 8 (fieldOf w₂ 7 1)) i pf.toNat nf.toNat).getLsbD j = _
      rw [getLsbD_freeAllocByte (by have := hc.lt; omega) hc.prev_le hj]
      rw [not_exists] at hnone
      simpa using hnone j

end

end MallocBench.Slab
