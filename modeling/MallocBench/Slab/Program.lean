import MallocBench.Lib.Block
import MallocBench.Slab.Reallocated

/-!
# Programs on the heap

A program sees its blocks only: what it asked for, and what it last wrote into each byte
(`Lib.Block`). Every call of `malloc`, `calloc`, `realloc` and `free` has an effect on these blocks
that says nothing about slabs and bins (`Call.effect`). The calls on the heap of the allocator have
exactly this effect (`Represents`): whatever the program does, no byte of its blocks is lost or
changed behind its back.
-/

namespace MallocBench.Slab

open Lib

/-- A call of the allocator, or an access of the program to a byte. -/
inductive Call
  | malloc (size : Nat)
  | calloc (nmemb size : Nat)
  | realloc (ptr size : Nat)
  | free (ptr : Nat)
  | write (x v : Nat)
  | read (x : Nat)
  deriving DecidableEq

namespace Call

/-- The call on the heap, and what it returns; 0 where it returns nothing. -/
def exec : Call → HeapM Nat
  | malloc size => Slab.malloc size
  | calloc nmemb size => Slab.calloc nmemb size
  | realloc ptr size => Slab.realloc ptr size
  | free ptr => do
    Slab.free ptr
    pure 0
  | write x v => do
    store8 x v
    pure 0
  | read x => load8 x

/-- The calls of a correct program with these blocks. A block that grows in place keeps its offset
in its first slab, which has to be added to the size. -/
def Allowed (blocks : List (Block Nat)) : Call → Prop
  | malloc size => NoWrap size
  | calloc nmemb size => NoWrap (nmemb * size)
  | realloc ptr size => (ptr = 0 ∨ ∃ b ∈ blocks, b.ptr = ptr) ∧ NoWrap (size + 4096)
  | free ptr => ptr = 0 ∨ ∃ b ∈ blocks, b.ptr = ptr
  | write x _ | read x => ∃ b ∈ blocks, b.ptr ≤ x ∧ x < b.stop

/-- The block that `realloc` makes out of the one at `ptr`. -/
def resized (blocks : List (Block Nat)) (ptr ret size : Nat) : Block Nat :=
  match blocks.find? (·.ptr = ptr) with
  | some b => b.resize ret size
  | none => .fresh ret size

/-- The blocks after the call has returned `ret`. -/
def effect (blocks : List (Block Nat)) (ret : Nat) : Call → List (Block Nat)
  | malloc size => if ret = 0 then blocks else .fresh ret size :: blocks
  | calloc nmemb size => if ret = 0 then blocks else .filled ret (nmemb * size) 0 :: blocks
  | realloc ptr size =>
    if ret = 0 then blocks.filter (·.ptr ≠ ptr)
    else resized blocks ptr ret size :: blocks.filter (·.ptr ≠ ptr)
  | free ptr => blocks.filter (·.ptr ≠ ptr)
  | write x v => blocks.map (·.write x (v % 256))
  | read _ => blocks

/-- What the program is told: a pointer unless it asked for nothing, and the byte it has written. -/
def Returns (blocks : List (Block Nat)) (ret : Nat) : Call → Prop
  | malloc size | realloc _ size => ret = 0 ↔ size = 0
  | calloc nmemb size => ret = 0 ↔ nmemb * size = 0
  | free _ | write _ _ => ret = 0
  | read x => ∀ b ∈ blocks, ∀ v, b.known x = some v → ret = v

/-- The calls that do not return: only those of `realloc`. -/
def Crashes (s : Heap) : Call → Prop
  | realloc ptr size => ptr ≠ 0 ∧ ReallocCrashes s ptr ((size + 15) / 16 * 16)
  | _ => False

/-- The calls that corrupt the heap. -/
def Corrupts (s : Heap) : Call → Prop
  | realloc ptr size => ptr ≠ 0 ∧ ReallocCorrupts s ptr ((size + 15) / 16 * 16)
  | _ => False

instance (blocks : List (Block Nat)) : (c : Call) → Decidable (c.Allowed blocks)
  | malloc _ | calloc _ _ => inferInstanceAs (Decidable (_ < _))
  | realloc _ _ => inferInstanceAs (Decidable ((_ ∨ _) ∧ _ < _))
  | free _ => inferInstanceAs (Decidable (_ ∨ _))
  | write x _ | read x => inferInstanceAs (Decidable (∃ b ∈ blocks, b.ptr ≤ x ∧ x < b.stop))

instance (s : Heap) : (c : Call) → Decidable (c.Corrupts s)
  | realloc _ _ => inferInstanceAs (Decidable (_ ∧ _))
  | malloc _ | calloc _ _ | free _ | write _ _ | read _ => inferInstanceAs (Decidable False)

end Call

/-- The heaps and blocks that a program gets to, from `mm_init` on, without a call that corrupts
the heap. -/
inductive ProgRun (s₀ : Heap) : Heap → List (Block Nat) → Prop
  | init {s : Heap} : mmInit s₀ = .ok (true, s) → ProgRun s₀ s []
  | call {s t : Heap} {blocks : List (Block Nat)} {c : Call} {ret : Nat} :
      ProgRun s₀ s blocks → c.Allowed blocks → ¬ c.Corrupts s → c.exec s = .ok (ret, t) →
      ProgRun s₀ t (c.effect blocks ret)

/-- What can be reached on a fresh process. -/
def ProgReach (s : Heap) (blocks : List (Block Nat)) : Prop := ∃ s₀, Fresh s₀ ∧ ProgRun s₀ s blocks

/-- The blocks without their contents. -/
def extents (blocks : List (Block Nat)) : List (Nat × Nat) :=
  blocks.map fun b => (b.ptr, b.cells.length)

/-- The blocks are the allocated blocks of the heap, with their contents. -/
structure Represents (s : Heap) (L : List Region) (blocks : List (Block Nat)) : Prop where
  live : LiveOk False s L (extents blocks)
  holds : ∀ b ∈ blocks, b.Holds (memByte s.mem)

section

variable {s t u : Heap} {L L' : List Region} {blocks : List (Block Nat)} {b b' : Block Nat}
  {c : Call} {ret p q e n size nmemb x v : Nat} {m' : Nat → Nat}

/-! ## Bytes -/

/-- The bytes of a word. -/
theorem memByte_congr {m : Nat → Nat} (h : m' (x / 8 * 8) = m (x / 8 * 8)) :
    memByte m' x = memByte m x := by
  unfold memByte
  rw [h]

/-- The byte that `store8` writes, and the others. -/
theorem memByte_store (m : Nat → Nat) (x y v : Nat) :
    memByte (Function.update m (x / 8 * 8) (putField (m (x / 8 * 8)) (x % 8) 1 v)) y =
      if x = y then v % 256 else memByte m y := by
  unfold memByte
  by_cases hword : y / 8 * 8 = x / 8 * 8
  · rw [hword, Function.update_self]
    split_ifs with hxy
    · rw [hxy, fieldOf_putField_self, Nat.pow_one]
    · exact fieldOf_putField_of_disjoint (by omega)
  · rw [Function.update_of_ne hword, if_neg (by rintro rfl; exact hword rfl)]

/-- `memset` zeroes its bytes. -/
theorem memByte_zeroRange {m : Nat → Nat} {k : Nat} (hp : p % 8 = 0) (hk : k < size) :
    memByte (zeroRange m p size) (p + k) = 0 := by
  unfold memByte zeroRange
  rw [show (p + k) / 8 * 8 = p + k / 8 * 8 by omega, show (p + k) % 8 = k % 8 by omega,
    if_pos ⟨Nat.le_add_right _ _, by omega⟩]
  unfold fieldOf
  split_ifs with hfull
  · rw [Nat.zero_div, Nat.zero_mod]
  · obtain ⟨d, hd⟩ : ∃ d, p + size - (p + k / 8 * 8) = k % 8 + (d + 1) :=
      ⟨p + size - (p + k / 8 * 8) - k % 8 - 1, by omega⟩
    rw [hd, Nat.pow_add 256 (k % 8), ← Nat.mul_assoc, Nat.mul_right_comm,
      Nat.mul_div_cancel _ (by positivity), Nat.pow_succ, ← Nat.mul_assoc, Nat.pow_one,
      Nat.mul_mod_left]

/-! ## Blocks of the heap -/

theorem mem_extents (hb : b ∈ blocks) : (b.ptr, b.cells.length) ∈ extents blocks :=
  List.mem_map_of_mem hb

theorem extents_filter : extents (blocks.filter (·.ptr ≠ p)) =
    (extents blocks).filter (·.1 ≠ p) := by
  unfold extents
  rw [List.filter_map]
  rfl

theorem extents_write : extents (blocks.map (·.write x v)) = extents blocks := by
  unfold extents
  rw [List.map_map]
  refine List.map_congr_left fun b _ => ?_
  simp

theorem Represents.used (h : Represents s L blocks) (hb : b ∈ blocks) :
    ∃ e, Used s.mem L b.ptr e ∧ b.stop ≤ e := h.live.block _ (mem_extents hb)

theorem Represents.used_of_ptr (h : Represents s L blocks) (hp : ∃ b ∈ blocks, b.ptr = p) :
    ∃ e, Used s.mem L p e := by
  obtain ⟨b, hb, rfl⟩ := hp
  exact (h.used hb).imp fun _ hu => hu.1

/-- Two blocks are one when they start at the same address. -/
theorem Represents.eq_of_ptr (h : Represents s L blocks) (hb : b ∈ blocks) (hb' : b' ∈ blocks)
    (heq : b.ptr = b'.ptr) : b = b' := by
  have hnodup := h.live.nodup
  unfold extents at hnodup
  rw [List.map_map] at hnodup
  exact List.inj_on_of_nodup_map hnodup hb hb' heq

/-- Blocks keep their contents when their words do. -/
theorem Represents.holds_of_words (h : Represents s L blocks) (hb : b ∈ blocks)
    (hm : ∀ e, Used s.mem L b.ptr e → ∀ w, b.ptr ≤ w → w < e → t.mem w = s.mem w) :
    b.Holds (memByte t.mem) := by
  obtain ⟨e, hu, hle⟩ := h.used hb
  have hbounds := h.live.inv.used_bounds hu
  exact (h.holds b hb).congr fun x h₁ h₂ =>
    memByte_congr (hm e hu _ (by omega) (by omega))

/-- Writes into one block leave the contents of the others. -/
theorem Represents.holds_of_write (h : Represents s L blocks) (hu : Used s.mem L p e)
    (hm : ∀ w, w < p ∨ e ≤ w → m' w = s.mem w) (hb : b ∈ blocks) (hne : b.ptr ≠ p) :
    b.Holds (memByte m') := by
  refine h.holds_of_words (t := { s with mem := m' }) hb fun f hf w h₁ h₂ => hm w ?_
  rcases h.live.inv.used_disjoint hf hu with ⟨heq, -⟩ | hd | hd
  · exact absurd heq hne
  · exact .inl (by omega)
  · exact .inr (by omega)

/-! ## What the calls do -/

/-- A new block, which may be filled. -/
theorem Represents.alloc (h : Represents s L blocks) (ha : BlockAllocated False s L n p u)
    (hb : b.ptr = p) (hle : b.cells.length ≤ n) (hholds : b.Holds (memByte m'))
    (hm : ∀ w, w < p ∨ p + b.cells.length ≤ w → m' w = u.mem w) :
    ∃ L', Represents { u with mem := m' } L' (b :: blocks) := by
  subst hb
  obtain ⟨L', hlive⟩ := h.live.cons ha hle
  obtain ⟨e, hu, hpe⟩ := hlive.block _ List.mem_cons_self
  have hfar : ∀ w, w < b.ptr ∨ e ≤ w → m' w = u.mem w := fun w hw => hm w (by
    simp only at hpe
    omega)
  refine ⟨L', hlive.write hu hfar, fun b' hb' => ?_⟩
  rcases List.mem_cons.mp hb' with rfl | hb'
  · exact hholds
  -- the other blocks were there before
  obtain ⟨f, hf, -⟩ := h.used hb'
  have hne : b'.ptr ≠ b.ptr := by
    obtain ⟨L₁, g, -, -, hfresh, -⟩ := ha.inv
    exact fun heq => hfresh f (heq ▸ hf)
  have hold : Represents u L' (Block.fresh b.ptr b.cells.length :: blocks) := by
    refine ⟨?_, fun b₁ hb₁ => ?_⟩
    · unfold extents
      rw [List.map_cons, Block.length_fresh]
      exact hlive
    rcases List.mem_cons.mp hb₁ with rfl | hb₁
    · exact Block.holds_fresh
    · refine h.holds_of_words hb₁ fun f hf w h₁ h₂ => ?_
      refine ha.contents.contents _ f hf ?_ w h₁ h₂
      obtain ⟨L₁, g, -, -, hfresh, -⟩ := ha.inv
      exact fun heq => hfresh f (heq ▸ hf)
  exact hold.holds_of_write hu hfar (List.mem_cons_of_mem _ hb') hne

/-- What a call must do: `ok` of what it returns, and its effect. -/
def CallSpec (s : Heap) (blocks : List (Block Nat)) (c : Call) : Prop :=
  wp c.exec (fun ret t => c.Returns blocks ret ∧ ∃ L', Represents t L' (c.effect blocks ret)) s

theorem malloc_call (h : Represents s L blocks) (hsize : NoWrap size) :
    CallSpec s blocks (.malloc size) := by
  show wp (malloc size) _ s
  have halign := alignUp_size hsize
  rcases Nat.eq_zero_or_pos size with rfl | hpos
  · unfold malloc
    rw [halign, wp_bind, wp_get, wp_bind, wp_mallocAssert]
    refine ⟨by simpa using h.live.heap_pos, wp_pure.mpr ⟨Iff.rfl, L, ?_⟩⟩
    exact h
  · rw [wp_congr (malloc_eq h.live.heap_pos (by rw [halign]; omega)), halign]
    refine wp_mono (_intMalloc_spec h.live.inv (by omega) (by omega) hsize) fun p t ht => ?_
    have hne := ht.ne_zero
    refine ⟨iff_of_false hne (by omega), ?_⟩
    show ∃ L', Represents t L' (if p = 0 then blocks else .fresh p size :: blocks)
    rw [if_neg hne]
    show ∃ L', Represents { t with mem := t.mem } L' (.fresh p size :: blocks)
    refine h.alloc ht rfl ?_ Block.holds_fresh fun _ _ => rfl
    rw [Block.length_fresh]
    omega

theorem calloc_call (h : Represents s L blocks) (hsize : NoWrap (nmemb * size)) :
    CallSpec s blocks (.calloc nmemb size) := by
  show wp (calloc nmemb size) (fun ret t => (ret = 0 ↔ nmemb * size = 0) ∧ ∃ L',
    Represents t L' (if ret = 0 then blocks else .filled ret (nmemb * size) 0 :: blocks)) s
  have halign := alignUp_size hsize
  have hmod : nmemb * size % 2 ^ 64 = nmemb * size := by
    unfold NoWrap at hsize
    exact Nat.mod_eq_of_lt (by omega)
  unfold calloc
  rw [hmod, wp_bind, wp_get, wp_bind, wp_mallocAssert]
  refine ⟨by simpa using h.live.heap_pos, ?_⟩
  dsimp only
  rw [halign]
  generalize nmemb * size = size at hsize ⊢
  rw [wp_ite]
  by_cases h0 : (size + 15) / 16 * 16 = 0
  · rw [if_pos h0]
    exact wp_pure.mpr ⟨iff_of_true rfl (by omega), L, h⟩
  rw [if_neg h0]
  refine wp_call (_intMalloc_spec h.live.inv (by omega) (by omega) hsize) fun p t ht => ?_
  have hne := ht.ne_zero
  -- the new block is an allocated one already when it is zeroed
  obtain ⟨L', e, hinv, hpe, -, hused, -⟩ := ht.inv
  obtain ⟨h₁, h₂, h₃, h₄⟩ := hinv.used_bounds ((hused p e).mpr (.inr ⟨rfl, rfl⟩))
  obtain ⟨bins, hslab⟩ := hinv.slab
  have hbrk := hslab.brk
  rw [wp_bind, wp_memsetZero]
  refine ⟨⟨by omega, by omega, by omega⟩, wp_pure.mpr ⟨iff_of_false hne (by omega), ?_⟩⟩
  rw [if_neg hne]
  refine h.alloc ht rfl ?_ (Block.holds_filled fun k hk => memByte_zeroRange (by omega) hk) fun w hw => ?_
  · rw [Block.length_filled]
    omega
  · rw [Block.length_filled] at hw
    unfold zeroRange
    rw [if_neg (by omega)]

/-- A block goes. -/
theorem Represents.release (h : Represents s L blocks) (hf : BlockFreed False s L p t) :
    ∃ L', Represents t L' (blocks.filter (·.ptr ≠ p)) := by
  obtain ⟨L', hlive⟩ := h.live.filter hf
  rw [← extents_filter] at hlive
  refine ⟨L', hlive, fun b hb => ?_⟩
  obtain ⟨hb, hne⟩ := List.mem_filter.mp hb
  exact h.holds_of_words hb fun e hu => hf.contents.contents _ e hu (by simpa using hne)

/-- There is no block at `NULL`. -/
theorem Represents.filter_null (h : Represents s L blocks) :
    blocks.filter (·.ptr ≠ 0) = blocks := by
  refine List.filter_eq_self.mpr fun b hb => ?_
  obtain ⟨e, hu, -⟩ := h.used hb
  have hbounds := h.live.inv.used_bounds hu
  simp only [ne_eq, decide_not, Bool.not_eq_true', decide_eq_false_iff_not]
  omega

theorem free_call (h : Represents s L blocks) (hp : p = 0 ∨ ∃ b ∈ blocks, b.ptr = p) :
    CallSpec s blocks (.free p) := by
  show wp (free p >>= _) (fun ret t => ret = 0 ∧ ∃ L', Represents t L' (blocks.filter (·.ptr ≠ p))) s
  rcases hp with rfl | hp
  · unfold free
    rw [wp_bind, wp_bind, wp_get, wp_ite, if_pos rfl, h.filter_null]
    exact wp_pure.mpr (wp_pure.mpr ⟨rfl, L, h⟩)
  · obtain ⟨e, hu⟩ := h.used_of_ptr hp
    exact wp_call (wp_free h.live.inv hu (_intFree_spec h.live.inv hu False.elim)) fun _ t ht =>
      wp_pure.mpr ⟨rfl, h.release ht⟩

theorem write_call (h : Represents s L blocks) (hx : ∃ b ∈ blocks, b.ptr ≤ x ∧ x < b.stop) :
    CallSpec s blocks (.write x v) := by
  obtain ⟨b, hb, h₁, h₂⟩ := hx
  obtain ⟨e, hu, hle⟩ := h.used hb
  obtain ⟨hge, -, hend, hal⟩ := h.live.inv.used_bounds hu
  obtain ⟨bins, hslab⟩ := h.live.inv.slab
  have hbrk := hslab.brk
  have halign := (hslab.tiles.aligned (by have := hslab.free.lists.base; omega)).1
  have hword : x = x / 8 * 8 + x % 8 := by omega
  show wp (store8 x v >>= _) (fun ret t => ret = 0 ∧
    ∃ L', Represents t L' (blocks.map (·.write x (v % 256)))) s
  rw [wp_bind, hword, wp_storeField (by omega) (by omega), ← hword]
  have hfar : ∀ w, w < b.ptr ∨ e ≤ w → Function.update s.mem (x / 8 * 8)
      (putField (s.mem (x / 8 * 8)) (x % 8) 1 v) w = s.mem w := fun w hw =>
    Function.update_of_ne (by omega) _ _
  refine ⟨⟨by omega, by omega, by omega⟩, wp_pure.mpr ⟨rfl, L, ?_, fun b' hb' => ?_⟩⟩
  · rw [extents_write]
    exact h.live.write hu hfar
  · obtain ⟨b₀, hb₀, rfl⟩ := List.mem_map.mp hb'
    refine (h.holds b₀ hb₀).write ?_ fun y _ _ hne => ?_
    · exact (memByte_store s.mem x x v).trans (if_pos rfl)
    · exact (memByte_store s.mem x y v).trans (if_neg (Ne.symm hne))

/-- A byte of a block can be read. -/
theorem load8_of_known (h : Represents s L blocks) (hb : b ∈ blocks) (h₁ : b.ptr ≤ x)
    (h₂ : x < b.stop) : load8 x s = .ok (memByte s.mem x, s) := by
  obtain ⟨e, hu, hle⟩ := h.used hb
  obtain ⟨hge, -, hend, hal⟩ := h.live.inv.used_bounds hu
  obtain ⟨bins, hslab⟩ := h.live.inv.slab
  have hbrk := hslab.brk
  have halign := (hslab.tiles.aligned (by have := hslab.free.lists.base; omega)).1
  refine eq_ok_of_wp ?_
  rw [show x = x / 8 * 8 + x % 8 by omega, wp_loadField (by omega) (by omega)]
  refine ⟨⟨by omega, by omega, by omega⟩, ?_, rfl⟩
  unfold memByte
  rw [show (x / 8 * 8 + x % 8) / 8 * 8 = x / 8 * 8 by omega,
    show (x / 8 * 8 + x % 8) % 8 = x % 8 by omega]

theorem read_call (h : Represents s L blocks) (hx : ∃ b ∈ blocks, b.ptr ≤ x ∧ x < b.stop) :
    CallSpec s blocks (.read x) := by
  obtain ⟨b, hb, h₁, h₂⟩ := hx
  refine wp_iff.mpr ⟨_, s, load8_of_known h hb h₁ h₂, fun b' hb' v hv => ?_, L, h⟩
  exact h.holds b' hb' x v hv

/-! ## `realloc` -/

/-- A block is resized. -/
theorem Represents.reallocated (h : Represents s L blocks) (hb : b ∈ blocks)
    (hu : Used s.mem L b.ptr e) (ht : Reallocated s L b.ptr e n q t L') (hsize : size ≤ n)
    (hle : b.stop ≤ e) : Represents t L' (b.resize q size :: blocks.filter (·.ptr ≠ b.ptr)) := by
  obtain ⟨g, hug, hg⟩ := ht.block
  have hother : ∀ {b' : Block Nat}, b' ∈ blocks.filter (·.ptr ≠ b.ptr) → b' ∈ blocks ∧ b'.ptr ≠ b.ptr :=
    fun hb' => by
      obtain ⟨hb', hne⟩ := List.mem_filter.mp hb'
      exact ⟨hb', by simpa using hne⟩
  refine ⟨⟨ht.inv, fun x hx => ?_, fun x f hx => ?_, ?_, ht.sized h.live.sized⟩, fun b' hb' => ?_⟩
  · obtain ⟨b', hb', rfl⟩ := List.mem_map.mp hx
    rcases List.mem_cons.mp hb' with rfl | hb'
    · refine ⟨g, hug, ?_⟩
      rw [Block.length_resize]
      show q + size ≤ g
      omega
    · obtain ⟨hb', hne⟩ := hother hb'
      obtain ⟨f, hf, hle⟩ := h.used hb'
      obtain ⟨f', hf', hu'⟩ := ht.keep _ f hf hne
      exact ⟨f', hu', hle.trans hf'⟩
  · rcases ht.old x f hx with rfl | ⟨hne, f', hf'⟩
    · exact ⟨_, mem_extents List.mem_cons_self, rfl⟩
    · obtain ⟨y, hy, rfl⟩ := h.live.owner x f' hf'
      obtain ⟨b', hb', rfl⟩ := List.mem_map.mp hy
      exact ⟨_, mem_extents (List.mem_cons_of_mem _ (List.mem_filter.mpr ⟨hb', by simpa using hne⟩)), rfl⟩
  · have hnodup := h.live.nodup
    unfold extents at hnodup ⊢
    rw [List.map_map] at hnodup ⊢
    rw [List.map_cons, List.nodup_cons]
    refine ⟨fun hq => ?_, hnodup.sublist (List.Sublist.map _ List.filter_sublist)⟩
    obtain ⟨b', hb', heq⟩ := List.mem_map.mp hq
    obtain ⟨hb', hne⟩ := hother hb'
    have heq : b'.ptr = q := heq
    obtain ⟨f, hf, -⟩ := h.used hb'
    exact ht.fresh (heq ▸ hne) f (heq ▸ hf)
  · rcases List.mem_cons.mp hb' with rfl | hb'
    · have hbounds := h.live.inv.used_bounds hu
      have hbounds' := ht.inv.used_bounds hug
      refine (h.holds b hb).resize fun k hk hks => ?_
      unfold Block.stop at hle
      unfold memByte
      rw [show (q + k) / 8 * 8 = q + k / 8 * 8 by omega, show (q + k) % 8 = k % 8 by omega,
        show (b.ptr + k) / 8 * 8 = b.ptr + k / 8 * 8 by omega,
        show (b.ptr + k) % 8 = k % 8 by omega, ht.copied _ (by omega)]
    · obtain ⟨hb', hne⟩ := hother hb'
      exact h.holds_of_words hb' fun f hf => ht.contents _ f hf hne

theorem Represents.find (h : Represents s L blocks) (hb : b ∈ blocks) :
    blocks.find? (·.ptr = b.ptr) = some b := by
  obtain ⟨b', hb'⟩ := Option.isSome_iff_exists.mp
    (List.find?_isSome.mpr ⟨b, hb, by simp⟩ : (blocks.find? (·.ptr = b.ptr)).isSome)
  have hptr : b'.ptr = b.ptr := by simpa using List.find?_some hb'
  rw [hb', h.eq_of_ptr (List.mem_of_find?_eq_some hb') hb hptr]

/-- `realloc` of `NULL` is `malloc`. -/
theorem realloc_null (size : Nat) : realloc 0 size s = malloc size s := by
  unfold realloc malloc
  simp only [if_pos]

/-- `realloc` to nothing is `free`. -/
theorem realloc_zero (hheap : s.heap ≠ 0) (hp : p ≠ 0) (h0 : alignUp size mallocAlign = 0) :
    realloc p size s = (_intFree p >>= fun _ => pure 0 : HeapM Nat) s := by
  have hassert : mallocAssert (decide (s.heap ≠ 0)) s = .ok ((), s) :=
    eq_ok_of_wp (wp_mallocAssert.mpr ⟨decide_eq_true hheap, rfl, rfl⟩)
  unfold realloc
  rw [bind_of_ok (show (get : HeapM Heap) s = .ok (s, s) from rfl), bind_of_ok hassert, if_neg hp,
    if_pos h0]

theorem alignUp_of_noWrap (hsize : NoWrap (size + 4096)) :
    alignUp size mallocAlign = (size + 15) / 16 * 16 := by
  unfold NoWrap at hsize
  exact alignUp_size (by unfold NoWrap; omega)

theorem realloc_call (h : Represents s L blocks) (hp : p = 0 ∨ ∃ b ∈ blocks, b.ptr = p)
    (hsize : NoWrap (size + 4096)) (hcrash : ¬ Call.Crashes s (.realloc p size))
    (hcorrupt : ¬ Call.Corrupts s (.realloc p size)) : CallSpec s blocks (.realloc p size) := by
  have halign := alignUp_of_noWrap hsize
  have hheap := h.live.heap_pos
  show wp (realloc p size) (fun ret t => (ret = 0 ↔ size = 0) ∧ ∃ L', Represents t L'
    (if ret = 0 then blocks.filter (·.ptr ≠ p)
    else Call.resized blocks p ret size :: blocks.filter (·.ptr ≠ p))) s
  rcases hp with rfl | ⟨b, hb, rfl⟩
  · -- as by `malloc`
    have hnone : ∀ ret, Call.resized blocks 0 ret size = .fresh ret size := fun ret => by
      unfold Call.resized
      rw [List.find?_eq_none.mpr fun b hb => ?_]
      obtain ⟨e, hu, -⟩ := h.used hb
      have hbounds := h.live.inv.used_bounds hu
      simp only [decide_eq_true_eq]
      omega
    rw [wp_congr (realloc_null size), h.filter_null]
    simp only [hnone]
    unfold NoWrap at hsize
    exact malloc_call h (by unfold NoWrap; omega)
  obtain ⟨e, hu, hle⟩ := h.used hb
  have hbounds := h.live.inv.used_bounds hu
  rcases Nat.eq_zero_or_pos size with rfl | hpos
  · rw [wp_congr (realloc_zero hheap (by omega) halign)]
    exact wp_call (_intFree_spec h.live.inv hu False.elim) fun _ t ht =>
      wp_pure.mpr ⟨Iff.rfl, h.release ht⟩
  · have hcrash : ¬ ReallocCrashes s b.ptr ((size + 15) / 16 * 16) := fun hc => hcrash ⟨by omega, hc⟩
    have hcorrupt : ¬ ReallocCorrupts s b.ptr ((size + 15) / 16 * 16) := fun hc =>
      hcorrupt ⟨by omega, hc⟩
    rw [wp_congr (realloc_eq hheap (by omega) (by rw [halign]; omega)), halign]
    unfold NoWrap at hsize
    refine wp_mono (_intRealloc_spec h.live.inv h.live.sized hu (by omega) (by omega) (by omega)
      hcrash hcorrupt) fun q t ⟨L', ht⟩ => ?_
    have hne : q ≠ 0 := by
      obtain ⟨g, hug, -⟩ := ht.block
      have := ht.inv.used_bounds hug
      omega
    refine ⟨iff_of_false hne (by omega), L', ?_⟩
    rw [if_neg hne]
    unfold Call.resized
    rw [h.find hb]
    exact h.reallocated hb hu ht (by omega) hle

/-! ## Along every run -/

/-- **Every call that is allowed returns and has its effect**, unless it crashes or corrupts. -/
theorem call_spec (h : Represents s L blocks) (hallowed : c.Allowed blocks) (hcrash : ¬ c.Crashes s)
    (hcorrupt : ¬ c.Corrupts s) : CallSpec s blocks c := by
  cases c with
  | malloc size => exact malloc_call h hallowed
  | calloc nmemb size => exact calloc_call h hallowed
  | realloc p size => exact realloc_call h hallowed.1 hallowed.2 hcrash hcorrupt
  | free p => exact free_call h hallowed
  | write x v => exact write_call h hallowed
  | read x => exact read_call h hallowed

theorem call_crashes (h : Represents s L blocks) (hallowed : c.Allowed blocks) (hcrash : c.Crashes s) :
    ¬ ∃ ret t, c.exec s = .ok (ret, t) := by
  cases c with
  | realloc p size =>
    obtain ⟨hne, hcrash⟩ := hcrash
    have halign := alignUp_of_noWrap hallowed.2
    have hn : alignUp size mallocAlign ≠ 0 := by
      have := hcrash.2.1
      omega
    obtain ⟨e, hu⟩ := h.used_of_ptr (hallowed.1.resolve_left hne)
    show ¬ ∃ ret t, realloc p size s = .ok (ret, t)
    rw [realloc_eq h.live.heap_pos hne hn, halign]
    exact _intRealloc_crashes h.live.inv hu hcrash
  | _ => exact hcrash.elim

/-- A call that has returned has had its effect. -/
theorem Represents.call (h : Represents s L blocks) (hallowed : c.Allowed blocks)
    (hcorrupt : ¬ c.Corrupts s) (heq : c.exec s = .ok (ret, t)) :
    c.Returns blocks ret ∧ ∃ L', Represents t L' (c.effect blocks ret) := by
  have hspec := call_spec h hallowed (fun hcrash => call_crashes h hallowed hcrash ⟨ret, t, heq⟩)
    hcorrupt
  unfold CallSpec at hspec
  have hcall := wp_of_eq hspec heq
  exact hcall

/-- The heap has the blocks of the program in every state of a run. -/
theorem ProgReach.represents (h : ProgReach s blocks) : ∃ L, Represents s L blocks := by
  obtain ⟨s₀, hfresh, hrun⟩ := h
  induction hrun with
  | init heq =>
    obtain ⟨-, -, hinit⟩ := wp_of_eq (mmInit_spec hfresh) heq
    exact ⟨[], liveOk_init hinit, fun b hb => nomatch hb⟩
  | call _ hallowed hcorrupt heq ih =>
    obtain ⟨L, hL⟩ := ih
    exact (hL.call hallowed hcorrupt heq).2

/-- The memory after a run on a fresh process is reached. -/
theorem progReach_of_check (cs : List Call) (f : List (Block Nat) → Heap → Bool)
    (h : replayCheck (fun s blocks c => Call.Allowed blocks c ∧ ¬ c.Corrupts s)
      (fun blocks c => do
        let ret ← c.exec
        pure (c.effect blocks ret)) cs [] f = true) :
    ∃ s blocks, ProgReach s blocks ∧ f blocks s = true := by
  refine exists_of_replayCheck (P := ProgReach) _ _
    (fun t hinit => ⟨_, fresh_freshHeap, .init hinit⟩) ?_ h
  rintro s blocks c blocks' t ⟨s₀, hfresh, hrun⟩ hc heq
  obtain ⟨ret, u, hexec, heq⟩ := bind_eq_ok heq
  cases heq
  exact ⟨s₀, hfresh, hrun.call hc.1 hc.2 hexec⟩

/-! ## What a program can rely on -/

/-- **A program is safe**: a call returns unless it is one of the requests on which `realloc`
crashes, and the blocks are aligned, inside the heap, apart from each other and from the
allocator's own memory. -/
theorem progReach_safe (h : ProgReach s blocks) :
    (∀ c : Call, c.Allowed blocks → ¬ c.Corrupts s →
      ((∃ ret t, c.exec s = .ok (ret, t)) ↔ ¬ c.Crashes s)) ∧
    (∀ b ∈ blocks, b.ptr % 16 = 0 ∧ heapStart s.heap ≤ b.ptr ∧ b.stop ≤ s.heapEnd) ∧
    blocks.Pairwise (fun b c => b.stop ≤ c.ptr ∨ c.stop ≤ b.ptr) ∧
    ∃ L, HeapInv False s L ∧ ∀ b ∈ blocks, ∀ x, b.ptr ≤ x → x < b.stop → ¬ MetaByte s L x := by
  obtain ⟨L, hL⟩ := h.represents
  refine ⟨fun c hallowed hcorrupt => ⟨fun hret hcrash => call_crashes hL hallowed hcrash hret,
    fun hcrash => ?_⟩, fun b hb => ?_, ?_, L, hL.live.inv, fun b hb x h₁ h₂ => ?_⟩
  · obtain ⟨ret, t, heq, -⟩ := wp_iff.mp (call_spec hL hallowed hcrash hcorrupt)
    exact ⟨ret, t, heq⟩
  · obtain ⟨e, hu, hle⟩ := hL.used hb
    obtain ⟨hge, -, hend, hal⟩ := hL.live.inv.used_bounds hu
    refine ⟨hal, ?_, hle.trans hend⟩
    unfold heapStart
    simp only [slabSize]
    omega
  · have hnodup := hL.live.nodup
    unfold extents at hnodup
    rw [List.map_map] at hnodup
    refine (List.pairwise_map.mp hnodup).imp_of_mem fun {b c} hb hc hne => ?_
    obtain ⟨e, hu, hle⟩ := hL.used hb
    obtain ⟨f, hu', hle'⟩ := hL.used hc
    rcases hL.live.inv.used_disjoint hu hu' with ⟨heq, -⟩ | hd | hd
    · exact absurd heq hne
    · exact .inl (hle.trans hd)
    · exact .inr (hle'.trans hd)
  · obtain ⟨e, hu, hle⟩ := hL.used hb
    exact hL.live.inv.not_metaByte hu h₁ (h₂.trans_le hle)

/-- Zeroed bytes, moved to a medium block that then grows where it is. -/
theorem progReach_safe_grown : ∃ s blocks, ProgReach s blocks ∧
    (∃ b ∈ blocks, b.ptr = 73744 ∧ b.cells.length = 1500) ∧
    (∃ ret t, (Call.realloc 73744 6).exec s = .ok (ret, t)) ∧
    ∀ b ∈ blocks, b.ptr % 16 = 0 ∧ heapStart s.heap ≤ b.ptr ∧ b.stop ≤ s.heapEnd := by
  obtain ⟨s, blocks, hreach, hcheck⟩ := progReach_of_check
    [.calloc 3 7, .write 69685 300, .realloc 69680 600, .write 73744 9, .realloc 73744 1500]
    (fun blocks s => decide ((∃ b ∈ blocks, b.ptr = 73744 ∧ b.cells.length = 1500) ∧
      (Call.realloc 73744 6).Allowed blocks ∧ ¬ (Call.realloc 73744 6).Corrupts s ∧
      ¬ ReallocCrashes s 73744 16)) (by decide +kernel)
  obtain ⟨hmem, hallowed, hcorrupt, hcrash⟩ := of_decide_eq_true hcheck
  obtain ⟨hcall, hinside, -⟩ := progReach_safe hreach
  exact ⟨s, blocks, hreach, hmem, (hcall _ hallowed hcorrupt).mpr fun hc => hcrash hc.2, hinside⟩

/-- **A program sees its own memory**: every byte that it knows is there to be read, and every call
that returns has done to the blocks what it should, and nothing else. -/
theorem progReach_sees (h : ProgReach s blocks) :
    (∀ b ∈ blocks, ∀ x v, b.known x = some v → load8 x s = .ok (v, s)) ∧
    ∀ (c : Call) (ret : Nat) (t : Heap), c.Allowed blocks → ¬ c.Corrupts s →
      c.exec s = .ok (ret, t) → c.Returns blocks ret ∧
        ∀ b ∈ c.effect blocks ret, ∀ x v, b.known x = some v → load8 x t = .ok (v, t) := by
  have hread : ∀ {s blocks L}, Represents s L blocks → ∀ b ∈ blocks, ∀ x v,
      b.known x = some v → load8 x s = .ok (v, s) := by
    intro s blocks L hL b hb x v hv
    obtain ⟨h₁, h₂⟩ := Block.known_bounds hv
    rw [load8_of_known hL hb h₁ h₂, hL.holds b hb x v hv]
  obtain ⟨L, hL⟩ := h.represents
  refine ⟨hread hL, fun c ret t hallowed hcorrupt heq => ?_⟩
  obtain ⟨hret, L', hL'⟩ := hL.call hallowed hcorrupt heq
  exact ⟨hret, hread hL'⟩

/-- A byte that was written before the block moved, grew and moved back. -/
theorem progReach_sees_moved : ∃ s blocks, ProgReach s blocks ∧
    (∃ b ∈ blocks, b.ptr = 69696 ∧ b.cells.length = 6) ∧ load8 69701 s = .ok (44, s) := by
  obtain ⟨s, blocks, hreach, hcheck⟩ := progReach_of_check
    [.calloc 3 7, .write 69685 300, .realloc 69680 600, .write 73744 9, .realloc 73744 1500,
      .realloc 73744 6]
    (fun blocks _ => decide ((∃ b ∈ blocks, b.ptr = 69696 ∧ b.cells.length = 6) ∧
      ∃ b ∈ blocks, b.known 69701 = some 44)) (by decide +kernel)
  obtain ⟨hmem, b, hb, hknown⟩ := of_decide_eq_true hcheck
  exact ⟨s, blocks, hreach, hmem, (progReach_sees hreach).1 b hb _ _ hknown⟩

end

end MallocBench.Slab
