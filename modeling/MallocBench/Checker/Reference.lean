import MallocBench.Bench.Sbrk
import MallocBench.Checker.Contract
import MallocBench.Lib.Bits

/-!
# The allocator of `allocator_interface.h`

The allocator that the benchmark comes with takes every block from the end of its heap and never
takes one back. It keeps the contract of an allocator (`contract`), so a correct program passes the
`CorrectnessChecker` on it until a request does not fit into the heap any more
(`passes_iff_fits`).
-/

namespace MallocBench.Checker

open Lib Bench

/-- `Heap::sbrk`, when no other thread moves the end of the heap. -/
def sbrk (heap : Heap) (heapEnd : Nat) (increment : BitVec 64) : Option Nat × Nat :=
  if increment.msb then (none, heapEnd)
  else if (BitVec.ofInt 64 ((heapEnd : Int) - heap.heapStart) + increment).toNat >
      heap.maxSize.toNat then
    (none, heapEnd)
  else (some heapEnd, heapEnd + increment.toNat)

/-- `g_heap`, with its end, and the memory of the process. -/
structure Reference where
  heap : Heap
  heapEnd : Nat
  mem : Mem

/-- An access outside the memory that is mapped for the heap. -/
inductive ReferenceFault where
  | segfault
deriving DecidableEq, Repr

namespace Reference

/-- The bytes are mapped. -/
def Mapped (s : Reference) (ptr size : Nat) : Prop :=
  s.heap.heapStart ≤ ptr ∧ ptr + size ≤ s.heap.heapStart + s.heap.maxSize.toNat

instance (s : Reference) (ptr size : Nat) : Decidable (s.Mapped ptr size) :=
  inferInstanceAs (Decidable (_ ∧ _))

abbrev RefM := StateT Reference (Except ReferenceFault)

/-- `memset` to zero -/
def memset (ptr size : Nat) : RefM Unit := do
  let s ← get
  if s.Mapped ptr size then set { s with mem := clearBlock s.mem ptr size }
  else throw .segfault

/-- What `memcpy` leaves in a destination. `realloc` may read beyond the old block and into the new
one; a byte that is copied from there is `junk`. -/
def copied (junk : Mem) (mem : Mem) (dst src size : Nat) : Mem := fun a =>
  if dst ≤ a ∧ a < dst + size then
    if dst ≤ src + (a - dst) ∧ src + (a - dst) < dst + size then junk a else mem (src + (a - dst))
  else mem a

/-- `memcpy` -/
def memcpy (junk : Reference → Mem) (dst src size : Nat) : RefM Unit := do
  let s ← get
  if s.Mapped dst size ∧ s.Mapped src size then
    set { s with mem := copied (junk s) s.mem dst src size }
  else throw .segfault

/-- `malloc`; null is 0. The alignment is not looked at. -/
def malloc (size _alignment : Nat) : RefM Nat := do
  if size = 0 then pure 0
  else do
    let s ← get
    let roundUp : BitVec 64 := (BitVec.ofNat 64 size + 0xf) &&& ~~~0xf
    let (ptr, heapEnd) := sbrk s.heap s.heapEnd roundUp
    set { s with heapEnd := heapEnd }
    pure (ptr.getD 0)

/-- `calloc` -/
def calloc (nmemb size : Nat) : RefM Nat := do
  let ptr ← malloc (nmemb * size % 2 ^ 64) 0
  if ptr ≠ 0 then do
    memset ptr (nmemb * size % 2 ^ 64)
    pure ptr
  else pure ptr

/-- `realloc`: it copies as many bytes as the new block has -/
def realloc (junk : Reference → Mem) (ptr size : Nat) : RefM Nat := do
  let newPtr ← malloc size 0
  if ptr ≠ 0 ∧ newPtr ≠ 0 then do
    memcpy junk newPtr ptr size
    pure newPtr
  else pure newPtr

/-- `free` does nothing. -/
def free (_ptr _size _alignment : Nat) : RefM Unit := pure ()

/-- The allocator behind the interface. -/
def allocator (junk : Reference → Mem) : Allocator Reference ReferenceFault where
  malloc := malloc
  calloc := calloc
  realloc := realloc junk
  free := free
  bytes s := s.mem
  write ptr size mem s :=
    { s with mem := fun a => if ptr ≤ a ∧ a < ptr + size then mem a else s.mem a }
  heaps s := [(s.heap.heapStart, s.heapEnd)]

/-- `initialize_heap`: the heap is empty. -/
def init (heap : Heap) (mem : Mem) : Reference := ⟨heap, heap.heapStart, mem⟩

/-- Sizes that can be rounded up. -/
def Allowed (_s : Reference) (req : RunnerCall) : Prop := req.size + 15 < 2 ^ 64

/-- A block of this size fits into the rest of the heap. -/
def Room (s : Reference) (size : Nat) : Prop :=
  s.heapEnd + (size + 15) / 16 * 16 ≤ s.heap.heapStart + s.heap.maxSize.toNat

/-- What the allocator can do for a request: there is room for the block, and the end of the heap
happens to be aligned to what is asked for. -/
def Fits (s : Reference) : RunnerCall → Prop
  | .malloc size alignment => size = 0 ∨
    (s.Room size ∧ ∀ a, alignment = some a → max a (if size ≤ 8 then 8 else 16) ∣ s.heapEnd)
  | .calloc nmemb size => nmemb * size % 2 ^ 64 = 0 ∨ s.Room (nmemb * size % 2 ^ 64)
  | .realloc ptr size => (ptr = 0 ∧ size = 0) ∨ (size ≠ 0 ∧ s.Room size)
  | .free _ _ _ => True

/-- The blocks are in the heap, apart from each other. -/
structure Gives (s : Reference) (live : List (Nat × Nat)) : Prop where
  start : 0 < s.heap.heapStart
  small : s.heap.maxSize.toNat < 2 ^ 63
  aligned : 16 ∣ s.heapEnd
  le : s.heap.heapStart ≤ s.heapEnd
  brk : s.heapEnd ≤ s.heap.heapStart + s.heap.maxSize.toNat
  block : ∀ b ∈ live, b.2 ≠ 0 ∧ 16 ∣ b.1 ∧ s.heap.heapStart ≤ b.1 ∧ b.1 + b.2 ≤ s.heapEnd
  apart : live.Pairwise fun b c => b.1 + b.2 ≤ c.1 ∨ c.1 + c.2 ≤ b.1

section

variable {s t : Reference} {live : List (Nat × Nat)} {size n p : Nat} {mem : Mem}
  {junk : Reference → Mem} {req : RunnerCall}

/-! ## The heap -/

/-- A call of `sbrk` that runs by itself. -/
theorem sbrk_steps (heap : Heap) (m : SbrkShared) (increment : BitVec 64) :
    Relation.ReflTransGen (fun a b => SbrkStep heap a.1 a.2 b.1 b.2) (none, m)
      (none, ⟨(sbrk heap m.heapEnd increment).2,
        m.calls ++ [⟨increment, (sbrk heap m.heapEnd increment).1⟩]⟩) := by
  have hcall : SbrkStep heap none m (some (.entry increment)) m := .call m increment
  refine .head (b := (some (.entry increment), m)) hcall ?_
  unfold sbrk
  by_cases hmsb : increment.msb = true
  · -- `EINVAL`
    rw [if_pos hmsb]
    refine .single (.ret m (.entry increment) false none m.heapEnd ?_)
    simp only [Heap.sbrkStep, if_pos hmsb]
  rw [if_neg hmsb]
  have hentry : SbrkStep heap (some (.entry increment)) m (some (.load increment)) m := by
    refine .goto m _ _ false m.heapEnd ?_
    simp only [Heap.sbrkStep, if_neg hmsb]
  have hload : SbrkStep heap (some (.load increment)) m (some (.test increment m.heapEnd)) m :=
    .goto m _ _ false m.heapEnd rfl
  refine .head (b := (some (.load increment), m)) hentry ?_
  refine .head (b := (some (.test increment m.heapEnd), m)) hload ?_
  split_ifs with htest
  · -- `ENOMEM`
    refine .single (.ret m (.test increment m.heapEnd) false none m.heapEnd ?_)
    simp only [Heap.sbrkStep, if_pos htest]
  · -- no other thread comes between the test and the exchange
    have hgoto : SbrkStep heap (some (.test increment m.heapEnd)) m
        (some (.exchange increment m.heapEnd)) m := by
      refine .goto m _ _ false m.heapEnd ?_
      simp only [Heap.sbrkStep, if_neg htest]
    refine .head (b := (some (.exchange increment m.heapEnd), m)) hgoto
      (.single (.ret m (.exchange increment m.heapEnd) false _ _ ?_))
    simp only [Heap.sbrkStep, and_self, if_true]

/-- The size of a block, rounded up. -/
theorem toNat_roundUp (h : size + 15 < 2 ^ 64) :
    ((BitVec.ofNat 64 size + 0xf) &&& ~~~0xf : BitVec 64).toNat = (size + 15) / 16 * 16 := by
  have hadd : (BitVec.ofNat 64 size + 0xf).toNat = size + 15 := by
    rw [BitVec.toNat_add, BitVec.toNat_ofNat]
    change (size % 2 ^ 64 + 15) % 2 ^ 64 = size + 15
    omega
  have hlow : ((BitVec.ofNat 64 size + 0xf) &&& 0xf).toNat = (size + 15) % 16 := by
    rw [BitVec.toNat_and, hadd]
    exact Nat.and_two_pow_sub_one_eq_mod _ 4
  rw [toNat_and_not, hlow, hadd]
  omega

/-- `sbrk` of a rounded size. -/
theorem sbrk_roundUp (h : s.Gives live) (hsize : size + 15 < 2 ^ 64) :
    sbrk s.heap s.heapEnd ((BitVec.ofNat 64 size + 0xf) &&& ~~~0xf) =
      if s.heapEnd + (size + 15) / 16 * 16 ≤ s.heap.heapStart + s.heap.maxSize.toNat then
        (some s.heapEnd, s.heapEnd + (size + 15) / 16 * 16)
      else (none, s.heapEnd) := by
  have hsmall := h.small
  have hle := h.le
  have hnat := toNat_roundUp hsize
  unfold sbrk
  generalize (BitVec.ofNat 64 size + 0xf) &&& ~~~0xf = increment at hnat
  by_cases hmsb : increment.msb = true
  · -- a negative increment has no room either
    rw [if_pos hmsb, if_neg]
    rw [BitVec.msb_eq_true_iff_two_mul_ge] at hmsb
    omega
  · have htest := sbrk_test hsmall (Bool.eq_false_iff.mpr hmsb) hle h.brk
    rw [if_neg hmsb, htest, hnat]
    split_ifs with h₁ h₂ h₂
    · omega
    · rfl
    · rfl
    · omega

/-- What `malloc` returns. -/
theorem malloc_eq (h : s.Gives live) (hsize : size + 15 < 2 ^ 64) (hne : size ≠ 0) (a : Nat) :
    malloc size a s = if s.heapEnd + (size + 15) / 16 * 16 ≤
        s.heap.heapStart + s.heap.maxSize.toNat then
      .ok (s.heapEnd, { s with heapEnd := s.heapEnd + (size + 15) / 16 * 16 })
    else .ok (0, s) := by
  have hsbrk := sbrk_roundUp h hsize
  unfold malloc
  rw [if_neg hne, bind_of_ok (show (get : RefM Reference) s = .ok (s, s) from rfl)]
  dsimp only
  rw [hsbrk]
  split_ifs <;> rfl

theorem malloc_zero (a : Nat) : malloc 0 a s = .ok (0, s) := rfl

/-! ## The blocks -/

theorem Gives.filter (h : s.Gives live) (f : Nat × Nat → Bool) : s.Gives (live.filter f) where
  start := h.start
  small := h.small
  aligned := h.aligned
  le := h.le
  brk := h.brk
  block b hb := h.block b (List.mem_filter.mp hb).1
  apart := h.apart.sublist List.filter_sublist

theorem Gives.withMem (h : s.Gives live) (mem : Mem) : { s with mem := mem }.Gives live where
  start := h.start
  small := h.small
  aligned := h.aligned
  le := h.le
  brk := h.brk
  block := h.block
  apart := h.apart

/-- A new block at the end of the heap. -/
theorem Gives.cons (h : s.Gives live) (hne : size ≠ 0) (hroom : s.Room size) :
    { s with heapEnd := s.heapEnd + (size + 15) / 16 * 16 }.Gives ((s.heapEnd, size) :: live) where
  start := h.start
  small := h.small
  aligned := (Nat.dvd_add_right h.aligned).mpr (Nat.dvd_mul_left 16 _)
  le := h.le.trans (Nat.le_add_right _ _)
  brk := hroom
  block b hb := by
    rcases List.mem_cons.mp hb with rfl | hb
    · refine ⟨hne, h.aligned, h.le, ?_⟩
      show s.heapEnd + size ≤ s.heapEnd + (size + 15) / 16 * 16
      omega
    · obtain ⟨hb₀, hb₁, hb₂, hb₃⟩ := h.block b hb
      exact ⟨hb₀, hb₁, hb₂, hb₃.trans (Nat.le_add_right _ _)⟩
  apart := List.pairwise_cons.mpr ⟨fun b hb => .inr (h.block b hb).2.2.2, h.apart⟩

theorem gives_init {heap : Heap} (hstart : 0 < heap.heapStart) (haligned : 16 ∣ heap.heapStart)
    (hsmall : heap.maxSize.toNat < 2 ^ 63) : (init heap mem).Gives [] where
  start := hstart
  small := hsmall
  aligned := haligned
  le := Nat.le_refl _
  brk := Nat.le_add_right _ _
  block _ hb := nomatch hb
  apart := List.Pairwise.nil

/-! ## What a request does -/

/-- A request that asks for `size` bytes, copies or clears them, and leaves the other bytes. -/
structure Given (s : Reference) (size p : Nat) (t : Reference) : Prop where
  heap : t.heap = s.heap
  ptr : (p = 0 ∧ t.heapEnd = s.heapEnd ∧ (size = 0 ∨ ¬ s.Room size)) ∨
    (p = s.heapEnd ∧ size ≠ 0 ∧ s.Room size ∧ t.heapEnd = s.heapEnd + (size + 15) / 16 * 16)
  mem : ∀ a, a < s.heapEnd → t.mem a = s.mem a

theorem malloc_given (h : s.Gives live) (hsize : size + 15 < 2 ^ 64) (a : Nat) :
    ∃ p t, malloc size a s = .ok (p, t) ∧ Given s size p t ∧ t.mem = s.mem := by
  by_cases hne : size = 0
  · subst hne
    exact ⟨0, s, malloc_zero a, ⟨rfl, .inl ⟨rfl, rfl, .inl rfl⟩, fun _ _ => rfl⟩, rfl⟩
  rw [malloc_eq h hsize hne]
  split_ifs with hroom
  · exact ⟨_, _, rfl, ⟨rfl, .inr ⟨rfl, hne, hroom, rfl⟩, fun _ _ => rfl⟩, rfl⟩
  · exact ⟨_, _, rfl, ⟨rfl, .inl ⟨rfl, rfl, .inr hroom⟩, fun _ _ => rfl⟩, rfl⟩

/-- The new block is mapped. -/
theorem Given.mapped (hg : Given s size p t) (h : s.Gives live) (hp : p ≠ 0) : t.Mapped p size := by
  rcases hg.ptr with ⟨hzero, -⟩ | ⟨rfl, -, hroom, -⟩
  · exact absurd hzero hp
  · unfold Mapped
    unfold Room at hroom
    have hle := h.le
    rw [hg.heap]
    omega

/-- It is behind all the others. -/
theorem Given.not_lt (hg : Given s size p t) (hp : p ≠ 0) : p = s.heapEnd := by
  rcases hg.ptr with ⟨hzero, -⟩ | ⟨hend, -⟩
  · exact absurd hzero hp
  · exact hend

/-- What is then written into the new block. -/
theorem Given.withMem (hg : Given s size p t) (hmem : ∀ a, a < s.heapEnd → mem a = s.mem a) :
    Given s size p { t with mem := mem } := ⟨hg.heap, hg.ptr, hmem⟩

theorem calloc_given {nmemb : Nat} (h : s.Gives live)
    (hsize : nmemb * size % 2 ^ 64 + 15 < 2 ^ 64) :
    ∃ p t, calloc nmemb size s = .ok (p, t) ∧ Given s (nmemb * size % 2 ^ 64) p t ∧
      (p ≠ 0 → ∀ k, k < nmemb * size % 2 ^ 64 → t.mem (p + k) = 0) := by
  obtain ⟨p, t, hmalloc, hg, hmem⟩ := malloc_given h hsize 0
  unfold calloc
  rw [bind_of_ok hmalloc]
  by_cases hp : p = 0
  · rw [if_neg (not_not_intro hp)]
    exact ⟨p, t, rfl, hg, fun hne => absurd hp hne⟩
  · have hset : memset p (nmemb * size % 2 ^ 64) t =
        .ok ((), { t with mem := clearBlock t.mem p (nmemb * size % 2 ^ 64) }) := by
      unfold memset
      rw [bind_of_ok (show (get : RefM Reference) t = .ok (t, t) from rfl),
        if_pos (hg.mapped h hp)]
      rfl
    rw [if_pos hp, bind_of_ok hset]
    refine ⟨p, _, rfl, hg.withMem fun a ha => ?_, fun _ k hk => ?_⟩
    · have hend := hg.not_lt hp
      unfold clearBlock
      rw [if_neg (by omega), hmem]
    · show clearBlock t.mem p _ (p + k) = 0
      unfold clearBlock
      rw [if_pos ⟨Nat.le_add_right _ _, by omega⟩]

theorem realloc_given (junk : Reference → Mem) {ptr : Nat} (h : s.Gives live)
    (hvalid : ptr = 0 ∨ ∃ n, (ptr, n) ∈ live) (hsize : size + 15 < 2 ^ 64) :
    ∃ p t, realloc junk ptr size s = .ok (p, t) ∧ Given s size p t ∧
      ∀ old, (ptr, old) ∈ live → p ≠ 0 → ∀ k, k < min old size →
        t.mem (p + k) = s.mem (ptr + k) := by
  obtain ⟨p, t, hmalloc, hg, hmem⟩ := malloc_given h hsize 0
  unfold realloc
  rw [bind_of_ok hmalloc]
  by_cases hp : ptr ≠ 0 ∧ p ≠ 0
  · obtain ⟨old, hold⟩ := hvalid.resolve_left hp.1
    have hend := hg.not_lt hp.2
    have hdst := hg.mapped h hp.2
    obtain ⟨-, -, hstart, hstop⟩ := h.block _ hold
    -- the bytes that are read end before those that are written
    have hsrc : t.Mapped ptr size := by
      unfold Mapped at hdst ⊢
      rw [hg.heap] at hdst ⊢
      dsimp only at hstart hstop
      omega
    have hcpy : memcpy junk p ptr size t =
        .ok ((), { t with mem := copied (junk t) t.mem p ptr size }) := by
      unfold memcpy
      rw [bind_of_ok (show (get : RefM Reference) t = .ok (t, t) from rfl), if_pos ⟨hdst, hsrc⟩]
      rfl
    rw [if_pos hp, bind_of_ok hcpy]
    refine ⟨p, _, rfl, hg.withMem fun a ha => ?_, fun old' hold' _ k hk => ?_⟩
    · unfold copied
      rw [if_neg (by omega), hmem]
    · -- the old block is in front of the new one
      have hstop' := (h.block _ hold').2.2.2
      dsimp only at hstop'
      show copied (junk t) t.mem p ptr size (p + k) = _
      unfold copied
      rw [if_pos ⟨Nat.le_add_right _ _, by omega⟩, Nat.add_sub_cancel_left, if_neg (by omega), hmem]
  · -- there is no block to copy, or nowhere to copy it to
    rw [if_neg hp]
    refine ⟨p, t, rfl, hg, fun old hold hne => absurd ⟨fun h0 => ?_, hne⟩ hp⟩
    have hstart := (h.block _ hold).2.2.1
    have hpos := h.start
    dsimp only at hstart
    omega

/-- **Every request returns**, with a block at the end of the heap or with none. -/
theorem serve_given (junk : Reference → Mem) (h : s.Gives live) (hvalid : req.Valid live)
    (hsize : req.size + 15 < 2 ^ 64) :
    ∃ p t, (allocator junk).serve req s = .ok (p, t) ∧ Given s req.size p t ∧
      (∀ nmemb size, req = .calloc nmemb size → p ≠ 0 →
        ∀ k, k < req.size → t.mem (p + k) = 0) ∧
      ∀ ptr size old, req = .realloc ptr size → (ptr, old) ∈ live → p ≠ 0 →
        ∀ k, k < min old size → t.mem (p + k) = s.mem (ptr + k) := by
  cases req with
  | malloc size alignment =>
    obtain ⟨p, t, heq, hg, -⟩ := malloc_given h hsize (alignment.getD 0)
    refine ⟨p, t, heq, hg, ?_, ?_⟩ <;> rintro _ _ <;> intros <;> contradiction
  | calloc nmemb size =>
    obtain ⟨p, t, heq, hg, hclear⟩ := calloc_given h hsize
    refine ⟨p, t, heq, hg, fun _ _ _ => hclear, ?_⟩
    rintro _ _ _ ⟨⟩
  | realloc ptr size =>
    obtain ⟨p, t, heq, hg, hcopy⟩ := realloc_given junk h hvalid hsize
    refine ⟨p, t, heq, hg, ?_, ?_⟩
    · rintro _ _ ⟨⟩
    · rintro _ _ old ⟨⟩
      exact hcopy old
  | free ptr sizeHint alignmentHint =>
    refine ⟨0, s, rfl, ⟨rfl, .inl ⟨rfl, rfl, .inl rfl⟩, fun _ _ => rfl⟩, ?_, ?_⟩
    · rintro _ _ ⟨⟩
    · rintro _ _ _ ⟨⟩

/-- The blocks after a request. -/
theorem Given.gives (hg : Given s size p t) (h : s.Gives live) :
    t.Gives (if p = 0 then live else (p, size) :: live) := by
  obtain ⟨heap, heapEnd, mem⟩ := t
  obtain rfl : heap = s.heap := hg.heap
  have hpos : 0 < s.heapEnd := Nat.lt_of_lt_of_le h.start h.le
  rcases hg.ptr with ⟨hp, hend, -⟩ | ⟨hp, hne, hroom, hend⟩
  · -- no block has been given
    obtain rfl : heapEnd = s.heapEnd := hend
    rw [if_pos hp]
    exact h.withMem mem
  · obtain rfl : heapEnd = _ := hend
    rw [if_neg (by omega), hp]
    exact (h.cons hne hroom).withMem mem

/-- **The allocator keeps its contract.** -/
theorem contract : Contract (allocator junk) Gives Allowed where
  block h hmem := by
    obtain ⟨hne, h16, hstart, hstop⟩ := h.block _ hmem
    have hpos := h.start
    exact ⟨by dsimp only at hstart; omega, hne, h16, _, List.mem_singleton_self _, hstart, hstop⟩
  apart h := h.apart
  write_nil := by
    intro s p mem
    have hmem : (fun a => if p ≤ a ∧ a < p + 0 then mem a else s.mem a) = s.mem :=
      funext fun a => if_neg (by omega)
    show { s with mem := _ } = s
    rw [hmem]
  write := by
    intro s live p n mem h hp hout
    refine ⟨h.withMem _, funext fun a => ?_⟩
    show (if p ≤ a ∧ a < p + n then mem a else s.mem a) = mem a
    split_ifs with hin
    · rfl
    · exact (hout a (by omega)).symm
  nothing := by
    intro s t live req p h hvalid hallowed heq hzero
    obtain ⟨q, u, heq', hg, -⟩ := serve_given junk h hvalid hallowed
    cases heq.symm.trans heq'
    rcases hg.ptr with ⟨hp, -⟩ | ⟨-, hne, -⟩
    · exact hp
    · exact absurd hzero hne
  served := by
    intro s t live req p h hvalid hallowed heq hserves
    obtain ⟨q, u, heq', hg, hclear, hcopy⟩ := serve_given junk h hvalid hallowed
    cases heq.symm.trans heq'
    refine ⟨hg.gives (h.filter _), fun b hb _ x _ hx => ?_, hclear, ?_⟩
    · -- all other blocks are in front of the new one
      exact hg.mem x (Nat.lt_of_lt_of_le hx (h.block b hb).2.2.2)
    · rintro ptr size old rfl hold k hk
      refine hcopy ptr size old rfl hold ?_ k hk
      refine hserves.resolve_left fun hz => ?_
      have hsize : size = 0 := hz.2
      omega

/-! ## What the checker accepts -/

/-- The request is served when it fits. -/
theorem Given.serves_iff (hg : Given s req.size p t) (hpos : 0 < s.heapEnd) :
    req.Serves p ↔ s.Fits req := by
  cases req with
  | malloc size alignment =>
    refine or_congr_right' fun hne => ?_
    rcases hg.ptr with ⟨rfl, -, hfull⟩ | ⟨rfl, -, hroom, -⟩
    · exact iff_of_false (fun hs => hs.1 rfl) fun hf => hfull.resolve_left hne hf.1
    · exact and_congr_left' (iff_of_true (by omega) hroom)
  | calloc nmemb size =>
    refine or_congr_right' fun hne => ?_
    rcases hg.ptr with ⟨rfl, -, hfull⟩ | ⟨rfl, -, hroom, -⟩
    · exact iff_of_false (fun hs => hs rfl) (hfull.resolve_left hne)
    · exact iff_of_true (by omega) hroom
  | realloc ptr size =>
    -- a block that is resized to nothing is not served, however much room there is
    refine or_congr_right ?_
    rcases hg.ptr with ⟨rfl, -, hfull⟩ | ⟨rfl, hne, hroom, -⟩
    · refine iff_of_false (fun hs => hs rfl) fun hf => ?_
      exact hfull.resolve_left hf.1 hf.2
    · exact iff_of_true (by omega) ⟨hne, hroom⟩
  | free ptr sizeHint alignmentHint => exact Iff.rfl

/-- What the checker accepts is what fits. -/
theorem run_ok_iff_fits {r : Runner Reference} {magicBytes : BitVec 64}
    (h : Tracks (allocator junk) Gives r live) (hvalid : req.Valid live)
    (hsize : req.size + 15 < 2 ^ 64) :
    (∃ p r', (allocator junk).run magicBytes req r = .ok (p, r')) ↔ r.allocator.Fits req := by
  have hgives : r.allocator.Gives live := h.rel
  refine (run_ok_iff contract h hvalid hsize).trans ?_
  obtain ⟨p, t, heq, hg, -⟩ := serve_given junk hgives hvalid hsize
  rw [← hg.serves_iff (Nat.lt_of_lt_of_le hgives.start hgives.le)]
  constructor
  · rintro ⟨q, u, heq', hserves⟩
    cases heq.symm.trans heq'
    exact hserves
  · exact fun hserves => ⟨p, t, heq, hserves⟩

/-! ## A request that fits -/

/-- No alignment beyond that of every block, and no block that is resized to nothing. -/
def Modest : RunnerCall → Prop
  | .malloc _ alignment => ∀ a, alignment = some a → a ∣ 16
  | .realloc _ size => size ≠ 0
  | .calloc _ _ | .free _ _ _ => True

/-- A modest request fits when there is room. -/
theorem fits_of_room (h : s.Gives live) (hmodest : Modest req) (hroom : s.Room req.size) :
    s.Fits req := by
  cases req with
  | malloc size alignment =>
    refine .inr ⟨hroom, fun a ha => Dvd.dvd.trans ?_ h.aligned⟩
    have hdvd := hmodest a ha
    split_ifs
    · rcases max_choice a 8 with heq | heq <;> rw [heq]
      · exact hdvd
      · decide
    · rcases max_choice a 16 with heq | heq <;> rw [heq]
      exact hdvd
  | calloc nmemb size => exact .inr hroom
  | realloc ptr size => exact .inr ⟨hmodest, hroom⟩
  | free ptr sizeHint alignmentHint => trivial

/-- Only a request of nothing is served with null. -/
theorem size_of_serves_zero (h : req.Serves 0) : req.size = 0 := by
  cases req with
  | malloc size alignment => exact h.resolve_right fun hno => hno.1 rfl
  | calloc nmemb size => exact h.resolve_right fun hno => hno rfl
  | realloc ptr size => exact (h.resolve_right fun hno => hno rfl).2
  | free ptr sizeHint alignmentHint => rfl

/-- **What a request uses up**, when it passes. -/
theorem run_heapEnd {r r' : Runner Reference} {magicBytes : BitVec 64}
    (h : Tracks (allocator junk) Gives r live) (hvalid : req.Valid live)
    (hsize : req.size + 15 < 2 ^ 64)
    (hrun : (allocator junk).run magicBytes req r = .ok (p, r')) :
    r'.allocator.heap = r.allocator.heap ∧
      r'.allocator.heapEnd = r.allocator.heapEnd + (req.size + 15) / 16 * 16 := by
  obtain ⟨t, heq, hserves, -, mem, hmem⟩ := run_ok contract h hvalid hsize hrun
  obtain ⟨q, u, heq', hg, -⟩ := serve_given junk h.rel hvalid hsize
  cases heq.symm.trans heq'
  rw [hmem]
  refine ⟨hg.heap, ?_⟩
  show t.heapEnd = _
  rcases hg.ptr with ⟨rfl, hend, -⟩ | ⟨-, -, -, hend⟩
  · rw [hend, size_of_serves_zero hserves]
    rfl
  · exact hend

/-! ## Until the heap is full -/

/-- **The checker passes the allocator until its heap is full**: along every run of a correct
program, a request passes if and only if it fits. -/
theorem passes_iff_fits {heap : Heap} {mem₀ : Mem} {r : Runner Reference} {magicBytes : BitVec 64}
    (hstart : 0 < heap.heapStart) (haligned : 16 ∣ heap.heapStart)
    (hsmall : heap.maxSize.toNat < 2 ^ 63)
    (h : RunnerReach (allocator junk) Allowed ⟨init heap mem₀, ∅⟩ r live) (hvalid : req.Valid live)
    (hsize : req.size + 15 < 2 ^ 64) :
    ((∃ p r', (allocator junk).run magicBytes req r = .ok (p, r')) ↔ r.allocator.Fits req) ∧
      r.allocator.Gives live := by
  have htracks := h.tracks contract ⟨gives_init hstart haligned hsmall, filled_nil⟩
  exact ⟨run_ok_iff_fits htracks hvalid hsize, htracks.rel⟩

/-- After 24 bytes at the start of the heap: a block that fits, one that would not be aligned, and
one for which there is no room. -/
theorem passes_iff_fits_malloc : ∃ mem blocks,
    let A := allocator fun s => s.mem
    let r : Runner Reference := ⟨⟨⟨0x20000000, 4096⟩, 4128, mem⟩, blocks⟩
    A.run 7 (.malloc 24 none) ⟨init ⟨0x20000000, 4096⟩ fun _ => 0, ∅⟩ = .ok (4096, r) ∧
      (∃ p r', A.run 7 (.realloc 4096 100) r = .ok (p, r')) ∧
      ¬ (∃ p r', A.run 7 (.malloc 8 (some 64)) r = .ok (p, r')) ∧
      ¬ ∃ p r', A.run 7 (.malloc 0x20000000 none) r = .ok (p, r') := by
  obtain ⟨mem, blocks, hrun⟩ : ∃ mem blocks, (allocator fun s => s.mem).run 7 (.malloc 24 none)
      ⟨init ⟨0x20000000, 4096⟩ fun _ => 0, ∅⟩ =
        .ok (4096, ⟨⟨⟨0x20000000, 4096⟩, 4128, mem⟩, blocks⟩) := ⟨_, _, rfl⟩
  have hreach : RunnerReach (allocator fun s => s.mem) Allowed
      ⟨init ⟨0x20000000, 4096⟩ fun _ => 0, ∅⟩ ⟨⟨⟨0x20000000, 4096⟩, 4128, mem⟩, blocks⟩
        [(4096, 24)] := .request .init (.inl rfl) (show 24 + 15 < 2 ^ 64 by decide) hrun
  refine ⟨mem, blocks, hrun, ?_, fun h => ?_, fun h => ?_⟩
  · exact (passes_iff_fits (by decide) (by decide) (by decide) hreach
      (.inr ⟨24, List.mem_singleton_self _⟩) (by decide)).1.mpr
        (.inr ⟨by decide, show 4128 + (100 + 15) / 16 * 16 ≤ 4096 + 536870912 by decide⟩)
  · rcases (passes_iff_fits (by decide) (by decide) (by decide) hreach
      (.inl rfl) (by decide)).1.mp h with hzero | ⟨-, halign⟩
    · cases hzero
    · exact absurd (halign 64 rfl) (show ¬ (64 ∣ 4128) by decide)
  · rcases (passes_iff_fits (by decide) (by decide) (by decide) hreach
      (.inl rfl) (by decide)).1.mp h with hzero | ⟨hroom, -⟩
    · cases hzero
    · exact absurd hroom
        (show ¬ (4128 + (536870912 + 15) / 16 * 16 ≤ 4096 + 536870912) by decide)

end

end Reference

end MallocBench.Checker
