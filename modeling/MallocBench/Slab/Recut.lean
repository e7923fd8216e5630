import MallocBench.Slab.Around
import MallocBench.Slab.BlockFree
import MallocBench.Slab.BlockResize

/-!
# Resizing a block inside its region

`realloc` writes header words and medium bins in different orders. `Reheaded` says what the
header of the region describes at some point of this, while the bins are at another;
`Recut` is the heap when they agree again. Nothing but the header of the region and the
links of the medium bins has been written then.
-/

namespace MallocBench.Slab

open Lib

section

variable {s t : Heap} {A B L : List Region} {r : Region} {strict : Prop} {mb : Nat → List Nat}
  {off off' : Nat → Nat} {al al' : Nat → Bool} {m m' : Nat → Nat} {sk : Nat → BitVec 32}
  {k i p e o v x y f : Nat} {P : Nat → Nat → Prop}

/-- The header words of `r` in `m` describe the blocks `off` and `al`. -/
structure Reheaded (s : Heap) (L : List Region) (r : Region) (off : Nat → Nat) (al : Nat → Bool)
    (m : Nat → Nat) : Prop where
  off : ∀ j, blockOff (m r.addr) j = off j
  al : ∀ j, blockAl (m (r.addr + 8)) j = al j
  flags : ∀ j, j < 3 → (m r.addr).testBit j = (s.mem r.addr).testBit j
  size : m (r.addr + 8) % 2 ^ 56 = s.mem (r.addr + 8) % 2 ^ 56
  mem : ∀ x, x ≠ r.addr → x ≠ r.addr + 8 → ¬ MedWord s.heap (FreeBlock s.mem L) x → m x = s.mem x

/-- The region `r` has the blocks `off` and `al`, in its header and in the bins. -/
structure Recut (strict : Prop) (s : Heap) (A : List Region) (r : Region) (B : List Region)
    (off : Nat → Nat) (al : Nat → Bool) (k : Nat) (t : Heap) : Prop
    extends Reblocked strict s A r B off al k t where
  offAt : offAt t.mem r.addr = off
  alAt : alAt t.mem r.addr = al
  cntAt : cntAt t.mem r.addr = k
  state : ∃ m sk, t = { s with mem := m, medSkiplist := sk }
  mem : ∀ x, x ≠ r.addr → x ≠ r.addr + 8 → ¬ MedWord s.heap (FreeBlock s.mem (A ++ r :: B)) x →
    ¬ MedWord s.heap (FreeBlock t.mem (A ++ r :: B)) x → t.mem x = s.mem x

/-- The bins do not depend on the header of a region. -/
theorem HeapInv.lists_header (hinv : HeapInv strict s (A ++ r :: B)) (hk : r.kind = .large)
    (hP : ∀ o o', P o o' → 16 ≤ o ∧ o + 512 ≤ o' ∧ o' ≤ 4096)
    (hmed : MediumLists { s with mem := m } (WithFree (FreeBlock s.mem (A ++ B)) r.addr P) mb)
    (hm : ∀ x, x ≠ r.addr → x ≠ r.addr + 8 → m' x = m x) :
    MediumLists { s with mem := m' } (WithFree (FreeBlock s.mem (A ++ B)) r.addr P) mb := by
  obtain ⟨-, -, -, -, -, -, -, hn⟩ := hinv.large_facts (r := r) (by simp) hk
  obtain ⟨bins, hslab⟩ := hinv.slab
  obtain ⟨-, -, hG, -, -⟩ := hinv.large_lists hk
  have hnot : ∀ a, a = r.addr ∨ a = r.addr + 8 → ¬ MedWord s.heap (WithFree
      (FreeBlock s.mem (A ++ B)) r.addr P) a := fun a ha hc =>
    InnerWord.not_header hslab hG ha (hc.innerWord_withFree hn hP)
  exact hmed.congr (fun _ _ => Iff.rfl) rfl (le_refl _) rfl fun a ha => hm a
    (fun hc => hnot a (.inl hc) ha) fun hc => hnot a (.inr hc) ha

/-- The bins when only the header has been written. -/
theorem HeapInv.lists_of_header (hinv : HeapInv strict s (A ++ r :: B)) (hk : r.kind = .large)
    (hm : ∀ x, x ≠ r.addr → x ≠ r.addr + 8 → m x = s.mem x) :
    ∃ mb, MediumLists { s with mem := m } (WithFree (FreeBlock s.mem (A ++ B)) r.addr
      (FreeAt (offAt s.mem r.addr) (alAt s.mem r.addr) (cntAt s.mem r.addr))) mb := by
  obtain ⟨hok, -, -, -, -, -, -, hn⟩ := hinv.large_facts (r := r) (by simp) hk
  obtain ⟨mb, hmed, -⟩ := hinv.large_lists hk
  refine ⟨mb, hinv.lists_header hk (fun o o' hf => ?_) (m := s.mem) hmed hm⟩
  have := BlocksOk.freeAt_bounds hok hn hf
  omega

namespace Reheaded

theorem self : Reheaded s L r (Slab.offAt s.mem r.addr) (Slab.alAt s.mem r.addr) s.mem :=
  ⟨fun _ => rfl, fun _ => rfl, fun _ _ => rfl, rfl, fun _ _ _ _ => rfl⟩

/-- Another first word. -/
theorem word (h : Reheaded s L r off al m) (hoff : ∀ j, blockOff v j = off' j)
    (hflags : ∀ j, j < 3 → v.testBit j = (s.mem r.addr).testBit j) :
    Reheaded s L r off' al (Function.update m r.addr v) := by
  refine ⟨fun j => ?_, fun j => ?_, fun j hj => ?_, ?_, fun x h₁ h₂ h₃ => ?_⟩
  · rw [Function.update_self, hoff]
  · rw [Function.update_of_ne (by omega), h.al]
  · rw [Function.update_self, hflags j hj]
  · rw [Function.update_of_ne (by omega), h.size]
  · rw [Function.update_of_ne h₁, h.mem x h₁ h₂ h₃]

/-- Other alloc bits. -/
theorem alloc (h : Reheaded s L r off al m) (hal : ∀ j, j < 8 → v.testBit j = al' j)
    (hal' : ∀ j, 8 ≤ j → al' j = false) : Reheaded s L r off al'
      (Function.update m (r.addr + 8) (putField (m (r.addr + 8)) 7 1 v)) := by
  refine ⟨fun j => ?_, fun j => ?_, fun j hj => ?_, ?_, fun x h₁ h₂ h₃ => ?_⟩
  · rw [Function.update_of_ne (by omega), h.off]
  · rw [Function.update_self, blockAl_putField]
    by_cases hj : j < 8
    · rw [decide_eq_true hj, Bool.true_and, hal j hj]
    · rw [decide_eq_false hj, Bool.false_and, hal' j (by omega)]
  · rw [Function.update_of_ne (by omega), h.flags j hj]
  · rw [Function.update_self, putField_alloc_mod, h.size]
  · rw [Function.update_of_ne h₂, h.mem x h₁ h₂ h₃]

/-- Writes to the links of the old free blocks. -/
theorem links (h : Reheaded s (A ++ r :: B) r off al m) (hinv : HeapInv strict s (A ++ r :: B))
    (hk : r.kind = .large)
    (hm : ∀ x, ¬ MedWord s.heap (FreeBlock s.mem (A ++ r :: B)) x → m' x = m x) :
    Reheaded s (A ++ r :: B) r off al m' := by
  obtain ⟨hok, -, -, -, -, -, -, hn⟩ := hinv.large_facts (r := r) (by simp) hk
  obtain ⟨bins, hslab⟩ := hinv.slab
  obtain ⟨-, -, hG, -, -⟩ := hinv.large_lists hk
  have hnot : ∀ x, x = r.addr ∨ x = r.addr + 8 →
      ¬ MedWord s.heap (FreeBlock s.mem (A ++ r :: B)) x := fun x hx hc =>
    InnerWord.not_header hslab hG hx ((hc.mono fun y f => (freeBlock_insert hk).mp).innerWord_withFree
      hn fun o o' hf => by
        have := BlocksOk.freeAt_bounds hok hn hf
        omega)
  have h₁ := hm _ (hnot _ (.inl rfl))
  have h₂ := hm _ (hnot _ (.inr rfl))
  refine ⟨fun j => ?_, fun j => ?_, fun j hj => ?_, ?_, fun x hx hx' hx'' => ?_⟩
  · rw [h₁, h.off]
  · rw [h₂, h.al]
  · rw [h₁, h.flags j hj]
  · rw [h₂, h.size]
  · rw [hm x hx'', h.mem x hx hx' hx'']

/-- **Header and bins agree.** -/
theorem recut (h : Reheaded s (A ++ r :: B) r off al m) (hinv : HeapInv strict s (A ++ r :: B))
    (hk : r.kind = .large) (hok : BlocksOk strict off al r.n k)
    (hmed : MediumLists { s with mem := m', medSkiplist := sk }
      (WithFree (FreeBlock s.mem (A ++ B)) r.addr (FreeAt off al k)) mb)
    (hm : ∀ x, ¬ MedWord s.heap (WithFree (FreeBlock s.mem (A ++ B)) r.addr (FreeAt off al k)) x →
      m' x = m x) : Recut strict s A r B off al k { s with mem := m', medSkiplist := sk } := by
  obtain ⟨hold, -, h2, hsz, -, -, -, hn⟩ := hinv.large_facts (r := r) (by simp) hk
  obtain ⟨bins, hslab⟩ := hinv.slab
  obtain ⟨-, -, hG, -, -⟩ := hinv.large_lists hk
  have hr : (⟨r.addr, r.n, .large⟩ : Region) = r := by rw [← hk]
  have hlen := Region.addr_lt_stop hn
  have hinner : ∀ x, MedWord s.heap (FreeBlock s.mem (A ++ r :: B)) x → InnerWord s A r B x :=
    fun x hx => (hx.mono fun y f => (freeBlock_insert hk).mp).innerWord_withFree hn
      fun o o' hf => by
        have := BlocksOk.freeAt_bounds hold hn hf
        omega
  have hinner' : ∀ x, MedWord s.heap (WithFree (FreeBlock s.mem (A ++ B)) r.addr
      (FreeAt off al k)) x → InnerWord s A r B x := fun x hx => hx.innerWord_withFree hn
    fun o o' hf => by
      have := hok.freeAt_bounds hn hf
      omega
  have h₁ : m' r.addr = m r.addr :=
    hm _ fun hc => InnerWord.not_header hslab hG (.inl rfl) (hinner' _ hc)
  have h₂ : m' (r.addr + 8) = m (r.addr + 8) :=
    hm _ fun hc => InnerWord.not_header hslab hG (.inr rfl) (hinner' _ hc)
  have hmem : ∀ x, ¬ InnerWord s A r B x → x ≠ r.addr → x ≠ r.addr + 8 → m' x = s.mem x :=
    fun x hx hx₁ hx₂ => (hm x fun hc => hx (hinner' x hc)).trans
      (h.mem x hx₁ hx₂ fun hc => hx (hinner x hc))
  have har := hinv.around (by rw [hk]; decide)
  have hoff : ∀ j, blockOff (m' r.addr) j = off j := fun j => by rw [h₁, h.off]
  have hal : ∀ j, blockAl (m' (r.addr + 8)) j = al j := fun j => by rw [h₂, h.al]
  have hre := har.refill (by rw [hk]; decide) hmed hmem (fun _ _ => Iff.rfl) hok hoff hal
    (fun j hj => by rw [h₁, h.flags j (by omega)]) (by rw [h₁, h.flags 2 (by omega), h2])
    (by rw [h₂, h.size, hsz])
  rw [hr] at hre
  obtain ⟨-, hoff', hal', hcnt⟩ := largeOk_of (m := m') hok hn hoff hal
  refine ⟨hre, hoff', hal', hcnt, ⟨m', sk, rfl⟩,
    fun x h₁ h₂ h₃ h₄ => (hm x fun hc => h₄ ?_).trans (h.mem x h₁ h₂ h₃)⟩
  exact hc.mono fun y f => (hre.free y f).mpr

/-- **Linking the free block that the header already describes.** -/
theorem link_spec (h : Reheaded s (A ++ r :: B) r off al m) (hinv : HeapInv strict s (A ++ r :: B))
    (hk : r.kind = .large) (hok : BlocksOk strict off al r.n k)
    (hmed : MediumLists { s with mem := m } (WithFree (FreeBlock s.mem (A ++ B)) r.addr P) mb)
    (hP : ∀ y f, FreeAt off al k y f ↔ P y f ∨ (y = o ∧ f = v)) (hnew : ∀ f, ¬ P o f) :
    wp (mediumBinLink (r.addr + o) (v - o))
      (fun _ t => Recut strict s A r B off al k t) { s with mem := m } := by
  obtain ⟨-, -, -, -, -, -, hal, hn⟩ := hinv.large_facts (r := r) (by simp) hk
  obtain ⟨bins, hslab⟩ := hinv.slab
  obtain ⟨-, -, hG, -, -⟩ := hinv.large_lists hk
  have hlen := Region.addr_lt_stop hn
  obtain ⟨-, -, hge, hstop, -⟩ := hslab.mem_facts (r := r) (by simp)
  have hbrk := hslab.brk
  obtain ⟨h16, hmod, hle, hmax⟩ := hok.freeAt_bounds hn ((hP o v).mpr (.inr ⟨rfl, rfl⟩))
  refine wp_mono (linkIn_spec hmed (by omega) hge hle (by omega) (show _ ≤ s.brk by omega)
    (fun y f hy => freeBlock_ne hslab hG hy (by omega) (by omega)) hnew) fun _ t ht => ?_
  obtain ⟨m', sk, mb', rfl, hmed', hm⟩ := ht
  have hiff : ∀ y f, WithFree (FreeBlock s.mem (A ++ B)) r.addr (FreeAt off al k) y f ↔
      WithFree (FreeBlock s.mem (A ++ B)) r.addr (fun y f => P y f ∨ (y = o ∧ f = v)) y f :=
    fun y f => withFree_congr hP
  exact h.recut hinv hk hok (hmed'.congr hiff rfl (le_refl _) rfl fun _ _ => rfl)
    fun x hx => hm x fun hc => hx (hc.mono fun y f => (hiff y f).mpr)

end Reheaded

namespace Recut

/-- Blocks that are live before and after keep their contents. -/
theorem contents (h : Recut strict s A r B off al k t) (hinv : HeapInv strict s (A ++ r :: B))
    (hk : r.kind = .large) : ContentsKept s (A ++ r :: B) t (A ++ r :: B) := by
  intro x e y f hu hu' w hx he hy hw
  obtain ⟨bins, hslab⟩ := hinv.slab
  have hnot := hinv.not_metaByte hu hx he
  have hnot' := h.inv.not_metaByte hu' hy hw
  have hend := hslab.end_ge
  have hstart : heapStart s.heap = s.heap + 4096 := rfl
  have hword : ∀ {u : Heap} {L : List Region}, u.heap = s.heap → ¬ MetaByte u L w →
      ¬ MedWord s.heap (FreeBlock u.mem L) w := by
    rintro u L hu hb (hc | ⟨a, c, hf, hc⟩)
    · exact hb (.inl ⟨by omega, by rw [hu]; omega⟩)
    · exact hb (.inr (.inr (.inr (.inr ⟨a, c, hf, by omega, by omega⟩))))
  refine h.mem w (fun hc => hnot ?_) (fun hc => hnot ?_) (hword rfl hnot) (hword h.heap hnot')
  · exact .inr (.inr (.inr (.inl ⟨r, by simp, hk, by omega, by omega⟩)))
  · exact .inr (.inr (.inr (.inl ⟨r, by simp, hk, by omega, by omega⟩)))

/-- The other regions keep their blocks. -/
theorem others_blocks (h : Recut strict s A r B off al k t) : ∀ r₀ ∈ A ++ B, r₀.kind = .large →
    blocksAt t.mem r₀.addr = blocksAt s.mem r₀.addr := fun r₀ hr₀ hk₀ =>
  ((h.others.header r₀ hr₀ (by rw [hk₀]; decide)).sameBlocks hk₀).blocksAt_eq

theorem blocks (h : Recut strict s A r B off al k t) :
    blocksAt t.mem r.addr = blockList off al k := by
  unfold blocksAt
  rw [h.offAt, h.alAt, h.cntAt]

/-- An allocated block of the new list. -/
theorem blockAt (h : Recut strict s A r B off al k t) (hk : r.kind = .large) (hi : i < k)
    (hal : al i = true) (hp : p = r.addr + off i) (he : e = r.addr + blockEnd off r.n k i) :
    BlockAt t r i p e := by
  refine ⟨hk, ?_, ?_, ?_, ?_⟩
  · rw [h.cntAt]
    exact hi
  · rw [h.alAt, hal]
  · rw [h.offAt, hp]
  · rw [h.offAt, h.cntAt, he]

/-- The live blocks, when the region's block at `o` now ends at `v`. -/
theorem used_iff (h : Recut strict s A r B off al k t) (hinv : HeapInv strict s (A ++ r :: B))
    (hk : r.kind = .large) (ho : r.addr + o < r.stop)
    (hu : ∀ x f, UsedAt off al r.n k x f ↔ (UsedAt (Slab.offAt s.mem r.addr) (Slab.alAt s.mem r.addr)
      r.n (Slab.cntAt s.mem r.addr) x f ∧ x ≠ o) ∨ (x = o ∧ f = v)) :
    Used t.mem (A ++ r :: B) x f ↔ (Used s.mem (A ++ r :: B) x f ∧ x ≠ r.addr + o) ∨
      (x = r.addr + o ∧ f = r.addr + v) := by
  obtain ⟨bins, hslab⟩ := hinv.slab
  rw [h.used, used_insert]
  unfold RegionUsed
  rw [hk]
  constructor
  · rintro (hx | ⟨o, o', hx, rfl, rfl⟩)
    · exact .inl ⟨.inl hx, used_ne hslab (fun r₀ hr₀ => hinv.regions r₀ (mem_insert_region hr₀)) hx
        (by omega) ho⟩
    · rcases (hu o o').mp hx with ⟨hx, hne⟩ | ⟨rfl, rfl⟩
      · exact .inl ⟨.inr ⟨o, o', hx, rfl, rfl⟩, by omega⟩
      · exact .inr ⟨rfl, rfl⟩
  · rintro (⟨hx | ⟨o, o', hx, rfl, rfl⟩, hne⟩ | ⟨rfl, rfl⟩)
    · exact .inl hx
    · exact .inr ⟨o, o', (hu o o').mpr (.inl ⟨hx, by omega⟩), rfl, rfl⟩
    · exact .inr ⟨o, v, (hu o v).mpr (.inr ⟨rfl, rfl⟩), rfl, rfl⟩

/-- The free blocks, when the region's free block at `o` gives way to those of `P`. -/
theorem free_iff (h : Recut strict s A r B off al k t) (hinv : HeapInv strict s (A ++ r :: B))
    (hk : r.kind = .large) (ho : r.addr + o < r.stop)
    (hf : ∀ x f, FreeAt off al k x f ↔ (FreeAt (Slab.offAt s.mem r.addr) (Slab.alAt s.mem r.addr)
      (Slab.cntAt s.mem r.addr) x f ∧ x ≠ o) ∨ P x f) :
    FreeBlock t.mem (A ++ r :: B) x f ↔ (FreeBlock s.mem (A ++ r :: B) x f ∧ x ≠ r.addr + o) ∨
      ∃ y v, P y v ∧ x = r.addr + y ∧ f = r.addr + v := by
  obtain ⟨bins, hslab⟩ := hinv.slab
  obtain ⟨-, -, hG, -, -⟩ := hinv.large_lists hk
  rw [h.free, freeBlock_insert hk]
  constructor
  · rintro (hx | ⟨y, v, hx, rfl, rfl⟩)
    · exact .inl ⟨.inl hx, freeBlock_ne hslab hG hx (by omega) ho⟩
    · rcases (hf y v).mp hx with ⟨hx, hne⟩ | hx
      · exact .inl ⟨.inr ⟨y, v, hx, rfl, rfl⟩, by omega⟩
      · exact .inr ⟨y, v, hx, rfl, rfl⟩
  · rintro (⟨hx | ⟨y, v, hx, rfl, rfl⟩, hne⟩ | ⟨y, v, hx, rfl, rfl⟩)
    · exact .inl hx
    · exact .inr ⟨y, v, (hf y v).mpr (.inl ⟨hx, by omega⟩), rfl, rfl⟩
    · exact .inr ⟨y, v, (hf y v).mpr (.inr hx), rfl, rfl⟩

end Recut

/-! ## Splitting the tail of a block off -/

/-- The block `i` of `r` ends at the offset `o`, and a free block follows. -/
structure TailSplit (strict : Prop) (s : Heap) (A : List Region) (r : Region) (B : List Region)
    (i p o : Nat) (t : Heap) : Prop where
  recut : Recut strict s A r B (insertAfter (offAt s.mem r.addr) i o)
    (insertAfter (alAt s.mem r.addr) i false) (cntAt s.mem r.addr + 1) t
  block : BlockAt t r i p (r.addr + o)
  used : ∀ x f, Used t.mem (A ++ r :: B) x f ↔ (Used s.mem (A ++ r :: B) x f ∧ x ≠ p) ∨
    (x = p ∧ f = r.addr + o)
  free : ∀ x f, FreeBlock t.mem (A ++ r :: B) x f ↔ FreeBlock s.mem (A ++ r :: B) x f ∨
    (x = r.addr + o ∧ f = r.addr + offAt s.mem r.addr (i + 1))

/-- **Linking the tail** of the block `i` after the header has been written. -/
theorem splitTail_link (hinv : HeapInv strict s (A ++ r :: B)) (hb : BlockAt s r i p e)
    (hone : i + 1 = cntAt s.mem r.addr → r.n = 1)
    (hnext : i + 1 < cntAt s.mem r.addr → alAt s.mem r.addr (i + 1) = true) (ho : o % 16 = 0) (h₁ : offAt s.mem r.addr i + 512 ≤ o)
    (h₂ : o + 512 ≤ offAt s.mem r.addr (i + 1))
    (hre : Reheaded s (A ++ r :: B) r (insertAfter (offAt s.mem r.addr) i o)
      (insertAfter (alAt s.mem r.addr) i false) m)
    (hm : ∀ x, x ≠ r.addr → x ≠ r.addr + 8 → m x = s.mem x) :
    wp (mediumBinLink (r.addr + o) (offAt s.mem r.addr (i + 1) - o))
      (fun _ t => TailSplit strict s A r B i p o t) { s with mem := m } := by
  obtain ⟨hok, -, -, -, -, -, -, hn⟩ := hinv.large_facts (r := r) (by simp) hb.kind
  have hok : BlocksOk strict (offAt s.mem r.addr) (alAt s.mem r.addr) r.n (cntAt s.mem r.addr) := hok
  have hlen := Region.addr_lt_stop hn
  have hi := hb.lt
  have hpage := hok.page' (i + 1)
  have hroom := hok.room hi (by omega)
  have hfree := fun y f => hok.splitTail_freeAt (o := y) (e := f) hi hb.used (v := o) (by omega)
    (by omega)
  obtain ⟨mb, hlists⟩ := hinv.lists_of_header hb.kind hm
  refine wp_mono (hre.link_spec hinv hb.kind (hok.splitTail hi hb.used hroom ho h₁ h₂ hnext
    fun h hc => absurd hc (by rw [hone h]; decide)) hlists hfree ?_) fun _ t ht =>
    ⟨ht, ?_, fun x f => ?_, fun x f => ?_⟩
  · rintro f hf
    rcases hok.freeAt_usedAt_disjoint hf ⟨i, hi, hb.used, rfl, rfl⟩ with hd | hd
    · have := hok.freeAt_bounds hn hf
      omega
    · have := hok.off_le_blockEnd (j := i) hn
      omega
  · refine ht.blockAt hb.kind (by omega) ?_ ?_ ?_
    · rw [insertAfter_le (le_refl _), hb.used]
    · rw [insertAfter_le (le_refl _), hb.start]
    · rw [blockEnd, if_pos (by omega), insertAfter_new rfl]
  · rw [hb.start]
    exact ht.used_iff hinv hb.kind (by omega) fun x f => hok.splitTail_usedAt hi hb.used
  · have hiff := ht.free_iff (x := x) (f := f) (o := offAt s.mem r.addr i) hinv hb.kind (by omega)
      (P := fun y v => y = o ∧ v = offAt s.mem r.addr (i + 1)) fun y f => (hfree y f).trans
        (or_congr_left ⟨fun hf => ⟨hf, ?_⟩, And.left⟩)
    · rw [hiff, ← hb.start]
      constructor
      · rintro (⟨hx, -⟩ | ⟨y, v, ⟨rfl, rfl⟩, rfl, rfl⟩)
        · exact .inl hx
        · exact .inr ⟨rfl, rfl⟩
      · rintro (hx | ⟨rfl, rfl⟩)
        · refine .inl ⟨hx, ?_⟩
          have := hinv.used_freeBlock_disjoint hb.isUsed hx
          have := hinv.used_bounds hb.isUsed
          have := hinv.free_size hx
          omega
        · exact .inr ⟨_, _, ⟨rfl, rfl⟩, rfl, rfl⟩
    · obtain ⟨j, hj, hfree, rfl, -⟩ := hf
      intro heq
      rw [hok.off_inj hj hi heq, hb.used] at hfree
      cases hfree

/-- No block has grown. -/
theorem TailSplit.sub (h : TailSplit strict s A r B i p o t) (hb : BlockAt s r i p e)
    (hle : r.addr + o ≤ e) {y f : Nat} (hu : Used t.mem (A ++ r :: B) y f) :
    ∃ y' f', Used s.mem (A ++ r :: B) y' f' ∧ y' ≤ y ∧ f ≤ f' := by
  rcases (h.used y f).mp hu with ⟨hu, -⟩ | ⟨rfl, rfl⟩
  · exact ⟨y, f, hu, le_refl _, le_refl _⟩
  · exact ⟨y, e, hb.isUsed, le_refl _, hle⟩

end

end MallocBench.Slab
