import MallocBench.Checker.MallocRunner

/-!
# What the checker accepts

An allocator owes something to the program that calls it (`Contract`): the blocks of the program
are aligned, inside a heap and apart from each other; the program may write to them; what it asks
for changes no byte of a block that it keeps. The `CorrectnessChecker` is a program, and it raises
no false alarm: on an allocator that keeps its contract, a request passes the checker if and only
if it has been served (`run_ok_iff`).
-/

namespace MallocBench.Checker

open Lib

/-- The blocks of the program after `ptr` has been returned. -/
def RunnerCall.liveAfter (live : List (Nat × Nat)) (ptr : Nat) (req : RunnerCall) :
    List (Nat × Nat) :=
  if ptr = 0 then live.filter (·.1 ≠ req.input)
  else (ptr, req.size) :: live.filter (·.1 ≠ req.input)

/-- Only blocks of the program are released. -/
def RunnerCall.Valid (live : List (Nat × Nat)) (req : RunnerCall) : Prop :=
  req.input = 0 ∨ ∃ n, (req.input, n) ∈ live

section

variable {σ ε : Type}

/-- What a request that has been served with `p` has done: it has released and given a block, the
other blocks have their contents, and the new one those that it should have. -/
structure Served (A : Allocator σ ε) (R : σ → List (Nat × Nat) → Prop) (s : σ)
    (live : List (Nat × Nat)) (req : RunnerCall) (p : Nat) (t : σ) : Prop where
  rel : R t (req.liveAfter live p)
  kept : ∀ b ∈ live, b.1 ≠ req.input → ∀ x, b.1 ≤ x → x < b.1 + b.2 → A.bytes t x = A.bytes s x
  cleared : ∀ nmemb size, req = .calloc nmemb size → p ≠ 0 →
    ∀ k, k < req.size → A.bytes t (p + k) = 0
  copied : ∀ ptr size old, req = .realloc ptr size → (ptr, old) ∈ live →
    ∀ k, k < min old size → A.bytes t (p + k) = A.bytes s (ptr + k)

/-- What an allocator owes to a program with the blocks `live`, as long as it asks for what is
allowed. `R` connects the states of the allocator to the blocks. -/
structure Contract (A : Allocator σ ε) (R : σ → List (Nat × Nat) → Prop)
    (Allowed : σ → RunnerCall → Prop) : Prop where
  block : ∀ {s live p n}, R s live → (p, n) ∈ live →
    p ≠ 0 ∧ n ≠ 0 ∧ 16 ∣ p ∧ ∃ heap ∈ A.heaps s, heap.1 ≤ p ∧ p + n ≤ heap.2
  apart : ∀ {s live}, R s live → live.Pairwise fun b c => b.1 + b.2 ≤ c.1 ∨ c.1 + c.2 ≤ b.1
  write_nil : ∀ {s p mem}, A.write p 0 mem s = s
  write : ∀ {s live p n} {mem : Mem}, R s live → (p, n) ∈ live →
    (∀ x, x < p ∨ p + n ≤ x → mem x = A.bytes s x) →
    R (A.write p n mem s) live ∧ A.bytes (A.write p n mem s) = mem
  nothing : ∀ {s t live req p}, R s live → req.Valid live → Allowed s req →
    A.serve req s = .ok (p, t) → req.size = 0 → p = 0
  served : ∀ {s t live req p}, R s live → req.Valid live → Allowed s req →
    A.serve req s = .ok (p, t) → req.Serves p → Served A R s live req p t

/-- The map has the blocks `live`, and they hold their patterns. -/
structure Filled (mem : Mem) (blocks : AList fun _ : Nat => AllocatedBlock)
    (live : List (Nat × Nat)) : Prop where
  mem_iff : ∀ p n, (p, n) ∈ live ↔ ∃ b, blocks.lookup p = some b ∧ b.size = n
  magic : ∀ p b, blocks.lookup p = some b → HoldsMagicBytes mem p b.size b.magicBytes

/-- The checker has the blocks that the allocator has given. -/
structure Tracks (A : Allocator σ ε) (R : σ → List (Nat × Nat) → Prop) (r : Runner σ)
    (live : List (Nat × Nat)) : Prop where
  rel : R r.allocator live
  filled : Filled (A.bytes r.allocator) r.allocatedBlocks live

end

/-! ## The map -/

section

variable {mem mem' : Mem} {blocks blocks' : AList fun _ : Nat => AllocatedBlock}
  {live : List (Nat × Nat)} {p n x : Nat} {magicBytes : BitVec 64} {block : AllocatedBlock}

theorem filled_nil : Filled mem ∅ [] where
  mem_iff p n := by
    constructor
    · intro hmem
      cases hmem
    · rintro ⟨b, hb, -⟩
      cases hb
  magic p b hb := nomatch hb

/-- The block at `x` goes; the others keep their bytes. -/
theorem Filled.release (h : Filled mem blocks live)
    (hblocks : ∀ p, blocks'.lookup p = if p = x then none else blocks.lookup p)
    (hkept : ∀ b ∈ live, b.1 ≠ x → ∀ a, b.1 ≤ a → a < b.1 + b.2 → mem' a = mem a) :
    Filled mem' blocks' (live.filter (·.1 ≠ x)) where
  mem_iff p n := by
    rw [List.mem_filter, h.mem_iff, hblocks]
    by_cases hp : p = x
    · simp [hp]
    · simp [hp]
  magic p b hb := by
    rw [hblocks] at hb
    split_ifs at hb with hp
    intro a hlo hhi
    rw [hkept (p, b.size) ((h.mem_iff _ _).mpr ⟨b, hb, rfl⟩) hp a hlo hhi]
    exact h.magic p b hb a hlo hhi

/-- A block is put into the map and filled. -/
theorem Filled.put (h : Filled mem blocks live) (hp : p ∉ blocks)
    (hapart : ∀ b ∈ live, p + block.size ≤ b.1 ∨ b.1 + b.2 ≤ p)
    (hin : HoldsMagicBytes mem' p block.size block.magicBytes)
    (hout : ∀ a, a < p ∨ p + block.size ≤ a → mem' a = mem a) :
    Filled mem' (blocks.insert p block) ((p, block.size) :: live) where
  mem_iff q n := by
    rw [List.mem_cons, h.mem_iff]
    by_cases hq : q = p
    · subst hq
      have hnone : blocks.lookup q = none := AList.lookup_eq_none.mpr hp
      rw [AList.lookup_insert, hnone]
      simp [eq_comm]
    · rw [AList.lookup_insert_ne hq]
      simp [hq]
  magic q b hb := by
    by_cases hq : q = p
    · subst hq
      rw [AList.lookup_insert] at hb
      cases hb
      exact hin
    · rw [AList.lookup_insert_ne hq] at hb
      intro a hlo hhi
      have hout' := hapart (q, b.size) ((h.mem_iff _ _).mpr ⟨b, hb, rfl⟩)
      dsimp only at hout'
      rw [hout a (by omega)]
      exact h.magic q b hb a hlo hhi

/-- A block that is not there is not in the map. -/
theorem Filled.not_mem (h : Filled mem blocks live) (hp : ∀ n, (p, n) ∉ live) : p ∉ blocks := by
  intro hmem
  obtain ⟨b, hb⟩ := Option.isSome_iff_exists.mp (AList.lookup_isSome.mpr hmem)
  exact hp b.size ((h.mem_iff _ _).mpr ⟨b, hb, rfl⟩)

theorem lookup_erase (x p : Nat) :
    (blocks.erase x).lookup p = if p = x then none else blocks.lookup p := by
  split_ifs with hp
  · rw [hp, AList.lookup_erase]
  · exact AList.lookup_erase_ne hp

end

/-! ## The hooks -/

namespace CheckerState

variable {st : CheckerState} {ptr size oldPtr : Nat} {outcome : Outcome} {block : AllocatedBlock}

/-- A block that holds its pattern can be reallocated and released. -/
theorem preRealloc_eq (hlookup : st.allocatedBlocks.lookup ptr = some block)
    (hmagic : HoldsMagicBytes st.mem ptr block.size block.magicBytes) :
    st.preRealloc ptr =
      .ok (block, { st with allocatedBlocks := st.allocatedBlocks.erase ptr }) := by
  unfold preRealloc
  rw [hlookup]
  dsimp only
  rw [checkBlock_ok_iff.mpr hmagic]
  rfl

theorem preRelease_eq (hptr : ptr ≠ 0) (hlookup : st.allocatedBlocks.lookup ptr = some block)
    (hmagic : HoldsMagicBytes st.mem ptr block.size block.magicBytes) :
    st.preRelease ptr = .ok { st with allocatedBlocks := st.allocatedBlocks.erase ptr } := by
  unfold preRelease
  rw [if_neg hptr, hlookup]
  dsimp only
  rw [checkBlock_ok_iff.mpr hmagic]
  rfl

/-- The memory after a block has been resized. -/
def resized (mem : Mem) (ptr size : Nat) (block : AllocatedBlock) : Mem :=
  if block.size < size then fillMagicBytes mem ptr size block.magicBytes else mem

theorem postRealloc_eq (hvalid : validateNewBlock outcome.heaps outcome.ptr size (some 0) = .ok ())
    (hnot : outcome.ptr ∉ st.allocatedBlocks)
    (hmagic : HoldsMagicBytes st.mem outcome.ptr (min block.size size) block.magicBytes) :
    st.postRealloc oldPtr size block outcome = .ok {
      mem := resized st.mem outcome.ptr size block
      allocatedBlocks := st.allocatedBlocks.insert outcome.ptr { block with size := size } } := by
  unfold postRealloc
  rw [hvalid, if_neg hnot, checkBlock_ok_iff.mpr hmagic]
  rfl

/-- The resized block holds the pattern as a whole, and nothing else has changed. -/
theorem resized_apply {mem : Mem} {a : Nat}
    (hmagic : HoldsMagicBytes mem ptr (min block.size size) block.magicBytes) :
    resized mem ptr size block a =
      if ptr ≤ a ∧ a < ptr + size then magicByte block.magicBytes (a - ptr) else mem a := by
  unfold resized
  split_ifs with hgrow hin hin
  · rw [fillMagicBytes_apply, if_pos hin]
  · rw [fillMagicBytes_apply, if_neg hin]
  · exact hmagic a hin.1 (by omega)
  · rfl

end CheckerState

/-! ## A call -/

section

variable {σ ε α : Type} {A : Allocator σ ε} {R : σ → List (Nat × Nat) → Prop}
  {Allowed : σ → RunnerCall → Prop} {r : Runner σ} {s t : σ} {live : List (Nat × Nat)}
  {req : RunnerCall}
  {p ptr size n : Nat} {alignment : Option Nat} {isCalloc : Bool} {magicBytes : BitVec 64}
  {block : AllocatedBlock} {blocks : AList fun _ : Nat => AllocatedBlock}

theorem callAllocator_ok {x : StateT σ (Except ε) α} {a : α} (h : x r.allocator = .ok (a, t)) :
    callAllocator x r = .ok (a, { r with allocator := t }) := by
  unfold callAllocator
  rw [h]

theorem callAllocator_error {x : StateT σ (Except ε) α} {e : ε} (h : x r.allocator = .error e) :
    callAllocator x r = .error (.allocator e) := by
  unfold callAllocator
  rw [h]

theorem preHook_ok {f : CheckerState → Except CheckError (α × CheckerState)} {a : α} {m : Mem}
    (h : f (A.view r) = .ok (a, ⟨m, blocks⟩)) :
    A.preHook f r = .ok (a, ⟨r.allocator, blocks⟩) := by
  unfold Allocator.preHook
  rw [h]

theorem postHook_ok {f : List (Nat × Nat) → CheckerState → Except CheckError CheckerState}
    {st : CheckerState} (h : f (A.heaps r.allocator) (A.view r) = .ok st) :
    A.postHook p n f r = .ok ((), ⟨A.write p n st.mem r.allocator, st.allocatedBlocks⟩) := by
  unfold Allocator.postHook
  rw [h]

theorem postHook_error {f : List (Nat × Nat) → CheckerState → Except CheckError CheckerState}
    {e : CheckError} (h : f (A.heaps r.allocator) (A.view r) = .error e) :
    A.postHook p n f r = .error (.check e) := by
  unfold Allocator.postHook
  rw [h]

/-- A block of the program is in the map. -/
theorem Tracks.lookup (h : Tracks A R r live) (hp : (p, n) ∈ live) :
    ∃ block, r.allocatedBlocks.lookup p = some block ∧ block.size = n ∧
      HoldsMagicBytes (A.bytes r.allocator) p block.size block.magicBytes := by
  obtain ⟨block, hlookup, hsize⟩ := (h.filled.mem_iff p n).mp hp
  exact ⟨block, hlookup, hsize, h.filled.magic p block hlookup⟩

/-- There is no block at null. -/
theorem Contract.null (hc : Contract A R Allowed) (h : R s live) : (0, n) ∉ live :=
  fun hmem => (hc.block h hmem).1 rfl

theorem Tracks.lookup_null (hc : Contract A R Allowed) (h : Tracks A R r live) :
    r.allocatedBlocks.lookup 0 = none :=
  AList.lookup_eq_none.mpr (h.filled.not_mem fun _ => hc.null h.rel)

/-- A new block of the program passes `ValidateNewBlock`. -/
theorem Contract.valid (hc : Contract A R Allowed) (h : R s ((p, n) :: live))
    (halign : ∀ a, alignment = some a → max a (if n ≤ 8 then 8 else 16) ∣ p) :
    validateNewBlock (A.heaps s) p n alignment = .ok () := by
  obtain ⟨hp, -, -, heap, hmem, hstart, hend⟩ := hc.block h List.mem_cons_self
  exact validateNewBlock_ok_iff.mpr ⟨hp, ⟨heap, hmem, hstart, (Nat.mod_le _ _).trans hend⟩, halign⟩

/-- It is apart from the others, so that it is new. -/
theorem Contract.new_apart (hc : Contract A R Allowed) (h : R s ((p, n) :: live)) :
    ∀ b ∈ live, p + n ≤ b.1 ∨ b.1 + b.2 ≤ p :=
  (List.pairwise_cons.mp (hc.apart h)).1

theorem Contract.new_not_mem (hc : Contract A R Allowed) (h : R s ((p, n) :: live)) (m : Nat) :
    (p, m) ∉ live := by
  intro hmem
  have hn := (hc.block h List.mem_cons_self).2.1
  have hm := (hc.block h (List.mem_cons_of_mem _ hmem)).2.1
  have hapart := hc.new_apart h _ hmem
  dsimp only at hapart
  omega

/-- **A block is put into the map**: what the hooks do to a new block. -/
theorem Tracks.put (hc : Contract A R Allowed) (hrel : R t ((p, n) :: live))
    (hfilled : Filled (A.bytes t) blocks live) {mem : Mem}
    (hmem : ∀ a, mem a = if p ≤ a ∧ a < p + n then magicByte magicBytes (a - p) else A.bytes t a) :
    Tracks A R ⟨A.write p n mem t, blocks.insert p ⟨n, magicBytes⟩⟩ ((p, n) :: live) := by
  have hout : ∀ a, a < p ∨ p + n ≤ a → mem a = A.bytes t a := fun a ha => by
    rw [hmem, if_neg (by omega)]
  obtain ⟨hrel', hbytes⟩ := hc.write hrel List.mem_cons_self hout
  refine ⟨hrel', ?_⟩
  show Filled (A.bytes (A.write p n mem t)) _ _
  rw [hbytes]
  have hnot := hfilled.not_mem (hc.new_not_mem hrel)
  exact hfilled.put hnot (hc.new_apart hrel) (fun a hlo hhi => by rw [hmem, if_pos ⟨hlo, hhi⟩]) hout

/-- `PostAlloc` of a block that has been given. -/
theorem postAlloc_given (hc : Contract A R Allowed) (hrel : R t ((p, size) :: live))
    (hfilled : Filled (A.bytes t) blocks live)
    (halign : ∀ a, alignment = some a → max a (if size ≤ 8 then 8 else 16) ∣ p)
    (hclear : isCalloc → ∀ k, k < size → A.bytes t (p + k) = 0) :
    ∃ st : CheckerState, CheckerState.postAlloc ⟨A.bytes t, blocks⟩ size alignment isCalloc
        ⟨p, magicBytes, A.heaps t⟩ = .ok st ∧
      Tracks A R ⟨A.write p size st.mem t, st.allocatedBlocks⟩ ((p, size) :: live) := by
  have hn := (hc.block hrel List.mem_cons_self).2.1
  have hnot := hfilled.not_mem (hc.new_not_mem hrel)
  have hput : Tracks A R ⟨A.write p size (fillMagicBytes (A.bytes t) p size magicBytes) t,
      blocks.insert p ⟨size, magicBytes⟩⟩ ((p, size) :: live) :=
    Tracks.put hc hrel hfilled fun a => fillMagicBytes_apply
  exact ⟨_, (CheckerState.postAlloc_ok_iff hn).mpr ⟨hc.valid hrel halign, hnot, hclear, rfl⟩, hput⟩

/-- `PostAlloc` when nothing has been asked for. -/
theorem postAlloc_nothing {st : CheckerState} {outcome : Outcome} :
    st.postAlloc 0 alignment isCalloc outcome = .ok st := by
  unfold CheckerState.postAlloc
  rw [if_pos rfl]
  rfl

/-- The hook before a block of the program is resized. -/
theorem preHook_realloc (h : Tracks A R r live) (hold : (ptr, n) ∈ live) :
    ∃ block : AllocatedBlock, block.size = n ∧
      HoldsMagicBytes (A.bytes r.allocator) ptr block.size block.magicBytes ∧
      A.preHook (fun st => st.preRealloc ptr) r =
        .ok (block, ⟨r.allocator, r.allocatedBlocks.erase ptr⟩) := by
  obtain ⟨block, hlookup, hsize, hmagic⟩ := h.lookup hold
  exact ⟨block, hsize, hmagic,
    preHook_ok (m := A.bytes r.allocator) (CheckerState.preRealloc_eq hlookup hmagic)⟩

/-- The hook before a block of the program, or none, is released. -/
theorem preHook_release (hc : Contract A R Allowed) (h : Tracks A R r live)
    (hvalid : p = 0 ∨ ∃ n, (p, n) ∈ live) :
    ∃ blocks : AList fun _ : Nat => AllocatedBlock,
      (∀ q, blocks.lookup q = if q = p then none else r.allocatedBlocks.lookup q) ∧
      A.preHook (fun st => do
        let st ← st.preRelease p
        pure ((), st)) r = .ok ((), ⟨r.allocator, blocks⟩) := by
  by_cases hp : p = 0
  · subst hp
    refine ⟨r.allocatedBlocks, fun q => ?_, rfl⟩
    split_ifs with hq
    · rw [hq, h.lookup_null hc]
    · rfl
  · obtain ⟨n, hold⟩ := hvalid.resolve_left hp
    obtain ⟨block, hlookup, -, hmagic⟩ := h.lookup hold
    refine ⟨r.allocatedBlocks.erase p, lookup_erase p, ?_⟩
    have hrelease : (A.view r).preRelease p =
        .ok ⟨A.bytes r.allocator, r.allocatedBlocks.erase p⟩ :=
      CheckerState.preRelease_eq hp hlookup hmagic
    refine preHook_ok (m := A.bytes r.allocator) ?_
    rw [hrelease]
    rfl

/-- The hook after an allocation, whether a block has been given or nothing has been asked for. -/
theorem postHook_alloc (hc : Contract A R Allowed) (hfilled : Filled (A.bytes t) blocks live)
    (hrel : R t (if p = 0 then live else (p, size) :: live)) (hzero : p = 0 ↔ size = 0)
    (halign : ∀ a, alignment = some a → p ≠ 0 → max a (if size ≤ 8 then 8 else 16) ∣ p)
    (hclear : isCalloc → p ≠ 0 → ∀ k, k < size → A.bytes t (p + k) = 0) :
    ∃ r', A.postHook p size
        (fun heaps st => st.postAlloc size alignment isCalloc ⟨p, magicBytes, heaps⟩) ⟨t, blocks⟩ =
          .ok ((), r') ∧
      Tracks A R r' (if p = 0 then live else (p, size) :: live) ∧
      ∃ mem, r'.allocator = A.write p size mem t := by
  by_cases hp : p = 0
  · -- nothing has been asked for, and the hook does nothing
    obtain rfl := hzero.mp hp
    rw [if_pos hp] at hrel ⊢
    refine ⟨_, postHook_ok postAlloc_nothing, ?_, _, rfl⟩
    rw [hc.write_nil]
    exact ⟨hrel, hfilled⟩
  · rw [if_neg hp] at hrel ⊢
    obtain ⟨st, hok, htracks⟩ := postAlloc_given hc hrel hfilled (fun a ha => halign a ha hp)
      fun hcalloc => hclear hcalloc hp
    exact ⟨_, postHook_ok hok, htracks, _, rfl⟩

/-- The hook after a block has been resized. -/
theorem postHook_realloc (hc : Contract A R Allowed) (hfilled : Filled (A.bytes t) blocks live)
    (hrel : R t ((p, size) :: live))
    (hmagic : HoldsMagicBytes (A.bytes t) p (min block.size size) block.magicBytes) :
    ∃ r', A.postHook p size (fun heaps st => st.postRealloc ptr size block ⟨p, magicBytes, heaps⟩)
        ⟨t, blocks⟩ = .ok ((), r') ∧
      Tracks A R r' ((p, size) :: live) ∧ ∃ mem, r'.allocator = A.write p size mem t := by
  have halign : ∀ a, some 0 = some a → max a (if size ≤ 8 then 8 else 16) ∣ p := by
    rintro _ ⟨⟩
    have h16 := (hc.block hrel List.mem_cons_self).2.2.1
    rw [Nat.zero_max]
    split_ifs
    · exact dvd_trans (by decide) h16
    · exact h16
  have hnot := hfilled.not_mem (hc.new_not_mem hrel)
  have hok : CheckerState.postRealloc ⟨A.bytes t, blocks⟩ ptr size block
      ⟨p, magicBytes, A.heaps t⟩ = .ok ⟨CheckerState.resized (A.bytes t) p size block,
        blocks.insert p { block with size := size }⟩ :=
    CheckerState.postRealloc_eq (hc.valid hrel halign) hnot hmagic
  have hput : Tracks A R ⟨A.write p size (CheckerState.resized (A.bytes t) p size block) t,
      blocks.insert p { block with size := size }⟩ ((p, size) :: live) :=
    Tracks.put hc hrel hfilled fun a => CheckerState.resized_apply hmagic
  exact ⟨_, postHook_ok hok, hput, _, rfl⟩

/-! ## No false alarm -/

/-- What has been released is out of the map, before and after. -/
theorem Tracks.released (h : Tracks A R r live) (hs : Served A R r.allocator live req p t)
    (hblocks : ∀ p, blocks.lookup p = if p = req.input then none else r.allocatedBlocks.lookup p) :
    Filled (A.bytes t) blocks (live.filter (·.1 ≠ req.input)) :=
  h.filled.release hblocks hs.kept

theorem Tracks.released_null (hc : Contract A R Allowed) (h : Tracks A R r live)
    (hinput : req.input = 0) (hs : Served A R r.allocator live req p t) :
    Filled (A.bytes t) r.allocatedBlocks (live.filter (·.1 ≠ req.input)) := by
  refine h.released hs fun q => ?_
  split_ifs with hq
  · rw [hq, hinput, h.lookup_null hc]
  · rfl

/-- A request that has been served passes the checker, which then has its block. -/
def Passes (A : Allocator σ ε) (R : σ → List (Nat × Nat) → Prop) (r : Runner σ)
    (live : List (Nat × Nat)) (magicBytes : BitVec 64) (req : RunnerCall) (p : Nat) (t : σ) :
    Prop :=
  ∃ r', A.run magicBytes req r = .ok (p, r') ∧ Tracks A R r' (req.liveAfter live p) ∧
    ∃ mem, r'.allocator = A.write p req.size mem t

theorem malloc_passes (hc : Contract A R Allowed) (h : Tracks A R r live)
    (hcall : A.malloc size (alignment.getD 0) r.allocator = .ok (p, t))
    (hnothing : size = 0 → p = 0) (hserves : (RunnerCall.malloc size alignment).Serves p)
    (hs : Served A R r.allocator live (.malloc size alignment) p t) :
    Passes A R r live magicBytes (.malloc size alignment) p t := by
  have hhook : ∃ r', A.postHook p size
      (fun heaps st => st.postAlloc size alignment false ⟨p, magicBytes, heaps⟩)
        ⟨t, r.allocatedBlocks⟩ = .ok ((), r') ∧
      Tracks A R r' (RunnerCall.liveAfter live p (.malloc size alignment)) ∧
      ∃ mem, r'.allocator = A.write p size mem t := by
    refine postHook_alloc hc (h.released_null hc rfl hs) hs.rel
      ⟨fun hp => hserves.resolve_right fun hne => hne.1 hp, hnothing⟩ (fun a ha hp => ?_)
      fun hf => nomatch hf
    rcases hserves with hsize | hserves
    · exact absurd (hnothing hsize) hp
    · exact hserves.2 a ha
  obtain ⟨r', hhook, htracks⟩ := hhook
  refine ⟨r', ?_, htracks⟩
  show A.runMalloc size alignment magicBytes r = _
  unfold Allocator.runMalloc
  rw [bind_of_ok (callAllocator_ok hcall), if_neg fun hz => hz.2 (hnothing hz.1), bind_of_ok hhook]
  rfl

theorem calloc_passes {nmemb : Nat} (hc : Contract A R Allowed) (h : Tracks A R r live)
    (hcall : A.calloc nmemb size r.allocator = .ok (p, t))
    (hnothing : nmemb * size % 2 ^ 64 = 0 → p = 0)
    (hserves : (RunnerCall.calloc nmemb size).Serves p)
    (hs : Served A R r.allocator live (.calloc nmemb size) p t) :
    Passes A R r live magicBytes (.calloc nmemb size) p t := by
  have hhook : ∃ r', A.postHook p (nmemb * size % 2 ^ 64)
      (fun heaps st => st.postAlloc (nmemb * size % 2 ^ 64) none true ⟨p, magicBytes, heaps⟩)
        ⟨t, r.allocatedBlocks⟩ = .ok ((), r') ∧
      Tracks A R r' (RunnerCall.liveAfter live p (.calloc nmemb size)) ∧
      ∃ mem, r'.allocator = A.write p (nmemb * size % 2 ^ 64) mem t :=
    postHook_alloc hc (h.released_null hc rfl hs) hs.rel
      ⟨fun hp => hserves.resolve_right fun hne => hne hp, hnothing⟩ (fun a ha => nomatch ha)
      fun _ hp => hs.cleared nmemb size rfl hp
  obtain ⟨r', hhook, htracks⟩ := hhook
  refine ⟨r', ?_, htracks⟩
  -- a product that is zero without a factor that is zero is not looked at
  have hzero : ¬ ((nmemb = 0 ∨ size = 0) ∧ p ≠ 0) := by
    rintro ⟨hz, hp⟩
    refine hp (hnothing ?_)
    rw [Nat.mul_eq_zero.mpr hz, Nat.zero_mod]
  show A.runCalloc nmemb size magicBytes r = _
  unfold Allocator.runCalloc
  rw [bind_of_ok (callAllocator_ok hcall), if_neg hzero, bind_of_ok hhook]
  rfl

/-- `realloc` of null is checked like an allocation. -/
theorem realloc_null_passes (hc : Contract A R Allowed) (h : Tracks A R r live)
    (hcall : A.realloc 0 size r.allocator = .ok (p, t)) (hnothing : size = 0 → p = 0)
    (hserves : (RunnerCall.realloc 0 size).Serves p)
    (hs : Served A R r.allocator live (.realloc 0 size) p t) :
    Passes A R r live magicBytes (.realloc 0 size) p t := by
  have hhook : ∃ r', A.postHook p size
      (fun heaps st => st.postAlloc size none false ⟨p, magicBytes, heaps⟩)
        ⟨t, r.allocatedBlocks⟩ = .ok ((), r') ∧
      Tracks A R r' (RunnerCall.liveAfter live p (.realloc 0 size)) ∧
      ∃ mem, r'.allocator = A.write p size mem t :=
    postHook_alloc hc (h.released_null hc rfl hs) hs.rel
      ⟨fun hp => (hserves.resolve_right fun hne => hne hp).2, hnothing⟩ (fun a ha => nomatch ha)
      fun hf => nomatch hf
  obtain ⟨r', hhook, htracks⟩ := hhook
  refine ⟨r', ?_, htracks⟩
  show A.runRealloc 0 size magicBytes r = _
  unfold Allocator.runRealloc
  rw [if_pos rfl, bind_of_ok (callAllocator_ok hcall), bind_of_ok hhook]
  rfl

theorem realloc_passes (hc : Contract A R Allowed) (h : Tracks A R r live) (hptr : ptr ≠ 0)
    (hold : (ptr, n) ∈ live) (hcall : A.realloc ptr size r.allocator = .ok (p, t)) (hp : p ≠ 0)
    (hs : Served A R r.allocator live (.realloc ptr size) p t) :
    Passes A R r live magicBytes (.realloc ptr size) p t := by
  obtain ⟨block, rfl, hmagic, hpre⟩ := preHook_realloc h hold
  -- the part of the pattern that both blocks have
  have hcopy : HoldsMagicBytes (A.bytes t) p (min block.size size) block.magicBytes := by
    refine holdsMagicBytes_iff.mpr fun k hk => ?_
    have hcopied : A.bytes t (p + k) = A.bytes r.allocator (ptr + k) :=
      hs.copied ptr size _ rfl hold k hk
    rw [hcopied, holdsMagicBytes_iff.mp hmagic k (by omega)]
  have hrel : R t ((p, size) :: live.filter (·.1 ≠ ptr)) := by
    have hrel := hs.rel
    rwa [RunnerCall.liveAfter, if_neg hp] at hrel
  have hfilled : Filled (A.bytes t) (r.allocatedBlocks.erase ptr) (live.filter (·.1 ≠ ptr)) :=
    h.released hs (lookup_erase ptr)
  obtain ⟨r', hhook, htracks⟩ := postHook_realloc hc hfilled hrel hcopy
  refine ⟨r', ?_, ?_⟩
  · show A.runRealloc ptr size magicBytes r = _
    unfold Allocator.runRealloc
    rw [if_neg hptr, bind_of_ok hpre,
      bind_of_ok (callAllocator_ok (r := ⟨_, r.allocatedBlocks.erase ptr⟩) hcall), bind_of_ok hhook]
    rfl
  · rw [RunnerCall.liveAfter, if_neg hp]
    exact htracks

theorem free_passes {sizeHint alignmentHint : Option Nat} (hc : Contract A R Allowed)
    (h : Tracks A R r live) (hvalid : (RunnerCall.free ptr sizeHint alignmentHint).Valid live)
    (hcall : A.free ptr (sizeHint.getD 0) (alignmentHint.getD 0) r.allocator = .ok ((), t))
    (hs : Served A R r.allocator live (.free ptr sizeHint alignmentHint) 0 t) :
    Passes A R r live magicBytes (.free ptr sizeHint alignmentHint) 0 t := by
  have hrel : R t (live.filter (·.1 ≠ ptr)) := hs.rel
  obtain ⟨blocks, hblocks, hpre⟩ := preHook_release (p := ptr) hc h hvalid
  have hfilled : Filled (A.bytes t) blocks (live.filter (·.1 ≠ ptr)) := h.released hs hblocks
  have hrun : A.runFree ptr sizeHint alignmentHint r = .ok ((), ⟨t, blocks⟩) := by
    unfold Allocator.runFree
    rw [bind_of_ok hpre]
    exact callAllocator_ok (r := ⟨_, blocks⟩) hcall
  exact ⟨⟨t, blocks⟩, bind_of_ok hrun, ⟨hrel, hfilled⟩, A.bytes t, hc.write_nil.symm⟩

theorem run_passes (hc : Contract A R Allowed) (h : Tracks A R r live) (hvalid : req.Valid live)
    (hallowed : Allowed r.allocator req) (heq : A.serve req r.allocator = .ok (p, t))
    (hserves : req.Serves p) : Passes A R r live magicBytes req p t := by
  have hs := hc.served h.rel hvalid hallowed heq hserves
  have hnothing := hc.nothing h.rel hvalid hallowed heq
  cases req with
  | malloc size alignment => exact malloc_passes hc h heq hnothing hserves hs
  | calloc nmemb size => exact calloc_passes hc h heq hnothing hserves hs
  | realloc ptr size =>
    by_cases hptr : ptr = 0
    · -- null goes another way through the runner
      subst hptr
      exact realloc_null_passes hc h heq hnothing hserves hs
    · obtain ⟨n, hold⟩ := hvalid.resolve_left hptr
      exact realloc_passes hc h hptr hold heq (hserves.resolve_left fun hz => hptr hz.1) hs
  | free ptr sizeHint alignmentHint =>
    obtain ⟨⟨⟩, u, hfree, hret⟩ := bind_eq_ok heq
    cases hret
    exact free_passes hc h hvalid hfree hs

/-! ## What the checker refuses -/

/-- The hook after an allocation refuses null, and an address that is not aligned. -/
theorem postHook_refuses (hsize : size ≠ 0)
    (h : p = 0 ∨ ∃ a, alignment = some a ∧ ¬ max a (if size ≤ 8 then 8 else 16) ∣ p) :
    ∃ e, A.postHook p size
      (fun heaps st => st.postAlloc size alignment isCalloc ⟨p, magicBytes, heaps⟩) r =
        .error (.check e) := by
  cases hpost : (A.view r).postAlloc size alignment isCalloc
      ⟨p, magicBytes, A.heaps r.allocator⟩ with
  | error e => exact ⟨e, postHook_error hpost⟩
  | ok st =>
    obtain ⟨hne, -, halign⟩ :=
      validateNewBlock_ok_iff.mp ((CheckerState.postAlloc_ok_iff hsize).mp hpost).1
    rcases h with hp | ⟨a, ha, hdvd⟩
    · exact absurd hp hne
    · exact absurd (halign a ha) hdvd

/-- **A request that has not been served is refused.** -/
theorem run_refuses (h : Tracks A R r live) (hvalid : req.Valid live)
    (heq : A.serve req r.allocator = .ok (p, t)) (hserves : ¬ req.Serves p) :
    ∃ e, A.run magicBytes req r = .error (.check e) := by
  cases req with
  | malloc size alignment =>
    change A.malloc size (alignment.getD 0) r.allocator = _ at heq
    obtain ⟨hsize, hno⟩ := not_or.mp hserves
    obtain ⟨e, he⟩ : ∃ e, A.postHook p size (fun heaps st =>
        st.postAlloc size alignment false ⟨p, magicBytes, heaps⟩) ⟨t, r.allocatedBlocks⟩ =
          .error (.check e) := by
      refine postHook_refuses hsize ?_
      by_contra hcon
      push Not at hcon
      exact hno hcon
    refine ⟨e, ?_⟩
    show A.runMalloc size alignment magicBytes r = _
    unfold Allocator.runMalloc
    rw [bind_of_ok (callAllocator_ok heq), if_neg fun hz => hsize hz.1, bind_of_error he]
  | calloc nmemb size =>
    change A.calloc nmemb size r.allocator = _ at heq
    obtain ⟨hsize, hno⟩ := not_or.mp hserves
    obtain ⟨e, he⟩ : ∃ e, A.postHook p (nmemb * size % 2 ^ 64) (fun heaps st =>
        st.postAlloc (nmemb * size % 2 ^ 64) none true ⟨p, magicBytes, heaps⟩)
          ⟨t, r.allocatedBlocks⟩ = .error (.check e) :=
      postHook_refuses hsize (.inl (not_not.mp hno))
    refine ⟨e, ?_⟩
    show A.runCalloc nmemb size magicBytes r = _
    unfold Allocator.runCalloc
    rw [bind_of_ok (callAllocator_ok heq), if_neg fun hz => hno hz.2, bind_of_error he]
  | realloc ptr size =>
    change A.realloc ptr size r.allocator = _ at heq
    obtain ⟨hzero, hno⟩ := not_or.mp hserves
    obtain rfl : p = 0 := not_not.mp hno
    show ∃ e, A.runRealloc ptr size magicBytes r = _
    unfold Allocator.runRealloc
    by_cases hptr : ptr = 0
    · subst hptr
      obtain ⟨e, he⟩ : ∃ e, A.postHook 0 size (fun heaps st =>
          st.postAlloc size none false ⟨0, magicBytes, heaps⟩) ⟨t, r.allocatedBlocks⟩ =
            .error (.check e) :=
        postHook_refuses (fun hsize => hzero ⟨rfl, hsize⟩) (.inl rfl)
      refine ⟨e, ?_⟩
      rw [if_pos rfl, bind_of_ok (callAllocator_ok heq), bind_of_error he]
    · -- the old block is in order, but there is no new one
      obtain ⟨n, hold⟩ : ∃ n, (ptr, n) ∈ live := hvalid.resolve_left hptr
      obtain ⟨block, -, -, hpre⟩ := preHook_realloc h hold
      have hpost : A.postHook 0 size (fun heaps st =>
          st.postRealloc ptr size block ⟨0, magicBytes, heaps⟩)
            ⟨t, r.allocatedBlocks.erase ptr⟩ = .error (.check (.nullptrAlloc size)) := by
        refine postHook_error ?_
        unfold CheckerState.postRealloc validateNewBlock
        rw [if_pos rfl]
        rfl
      refine ⟨.nullptrAlloc size, ?_⟩
      rw [if_neg hptr, bind_of_ok hpre,
        bind_of_ok (callAllocator_ok (r := ⟨_, r.allocatedBlocks.erase ptr⟩) heq),
        bind_of_error hpost]
  | free ptr sizeHint alignmentHint => exact absurd trivial hserves

/-- An error of the allocator ends the run. -/
theorem run_stops (hc : Contract A R Allowed) (h : Tracks A R r live) (hvalid : req.Valid live)
    {e : ε}
    (heq : A.serve req r.allocator = .error e) :
    A.run magicBytes req r = .error (.allocator e) := by
  cases req with
  | malloc size alignment => exact bind_of_error (callAllocator_error heq)
  | calloc nmemb size => exact bind_of_error (callAllocator_error heq)
  | realloc ptr size =>
    change A.realloc ptr size r.allocator = _ at heq
    show A.runRealloc ptr size magicBytes r = _
    unfold Allocator.runRealloc
    by_cases hptr : ptr = 0
    · subst hptr
      rw [if_pos rfl, bind_of_error (callAllocator_error heq)]
    · obtain ⟨n, hold⟩ : ∃ n, (ptr, n) ∈ live := hvalid.resolve_left hptr
      obtain ⟨block, -, -, hpre⟩ := preHook_realloc h hold
      rw [if_neg hptr, bind_of_ok hpre, bind_of_error
        (callAllocator_error (r := ⟨_, r.allocatedBlocks.erase ptr⟩) heq)]
  | free ptr sizeHint alignmentHint =>
    change (A.free ptr (sizeHint.getD 0) (alignmentHint.getD 0) >>= _) r.allocator = _ at heq
    have hfree : A.free ptr (sizeHint.getD 0) (alignmentHint.getD 0) r.allocator = .error e := by
      cases hfree : A.free ptr (sizeHint.getD 0) (alignmentHint.getD 0) r.allocator with
      | error e' =>
        rw [bind_of_error hfree] at heq
        cases heq
        rfl
      | ok res =>
        rw [bind_of_ok hfree] at heq
        cases heq
    obtain ⟨blocks, -, hpre⟩ := preHook_release (p := ptr) hc h hvalid
    refine bind_of_error ?_
    unfold Allocator.runFree
    rw [bind_of_ok hpre]
    exact callAllocator_error (r := ⟨_, blocks⟩) hfree

/-- **What the checker accepts**: exactly the requests that the allocator has served. -/
theorem run_ok_iff (hc : Contract A R Allowed) (h : Tracks A R r live) (hvalid : req.Valid live)
    (hallowed : Allowed r.allocator req) : (∃ p r', A.run magicBytes req r = .ok (p, r')) ↔
      ∃ p t, A.serve req r.allocator = .ok (p, t) ∧ req.Serves p := by
  cases heq : A.serve req r.allocator with
  | error e =>
    rw [run_stops hc h hvalid heq]
    refine iff_of_false ?_ ?_ <;> rintro ⟨p, t, hno⟩
    · cases hno
    · cases hno.1
  | ok res =>
    obtain ⟨p, t⟩ := res
    by_cases hserves : req.Serves p
    · have hpasses : Passes A R r live magicBytes req p t :=
        run_passes hc h hvalid hallowed heq hserves
      obtain ⟨r', hrun, -⟩ := hpasses
      exact iff_of_true ⟨p, r', hrun⟩ ⟨p, t, rfl, hserves⟩
    · obtain ⟨e, hrun⟩ : ∃ e, A.run magicBytes req r = .error (.check e) :=
        run_refuses h hvalid heq hserves
      rw [hrun]
      refine iff_of_false ?_ ?_ <;> rintro ⟨q, u, hno⟩
      · cases hno
      · cases hno.1
        exact hserves hno.2

/-- A request that has passed the checker has been served. -/
theorem run_ok (hc : Contract A R Allowed) (h : Tracks A R r live) (hvalid : req.Valid live)
    (hallowed : Allowed r.allocator req) {r' : Runner σ}
    (hrun : A.run magicBytes req r = .ok (p, r')) :
    ∃ t, A.serve req r.allocator = .ok (p, t) ∧ req.Serves p ∧
      Tracks A R r' (req.liveAfter live p) ∧ ∃ mem, r'.allocator = A.write p req.size mem t := by
  obtain ⟨q, t, heq, hserves⟩ := (run_ok_iff hc h hvalid hallowed).mp ⟨p, r', hrun⟩
  have hpasses : Passes A R r live magicBytes req q t :=
    run_passes hc h hvalid hallowed heq hserves
  obtain ⟨u, hrun', htracks⟩ := hpasses
  cases hrun'.symm.trans hrun
  exact ⟨t, heq, hserves, htracks⟩

/-- The runs of a program that asks for what is allowed, and goes on as long as it passes the
checker. -/
inductive RunnerReach (A : Allocator σ ε) (Allowed : σ → RunnerCall → Prop) (r₀ : Runner σ) :
    Runner σ → List (Nat × Nat) → Prop
  | init : RunnerReach A Allowed r₀ r₀ []
  | request {r r' : Runner σ} {live : List (Nat × Nat)} {req : RunnerCall} {p : Nat}
      {magicBytes : BitVec 64} : RunnerReach A Allowed r₀ r live → req.Valid live →
      Allowed r.allocator req → A.run magicBytes req r = .ok (p, r') →
      RunnerReach A Allowed r₀ r' (req.liveAfter live p)

/-- **The checker has the blocks of the program along every run.** -/
theorem RunnerReach.tracks {r₀ : Runner σ} (h : RunnerReach A Allowed r₀ r live)
    (hc : Contract A R Allowed) (h₀ : Tracks A R r₀ []) : Tracks A R r live := by
  induction h with
  | init => exact h₀
  | request _ hvalid hallowed hrun ih =>
    obtain ⟨t, -, -, htracks, -⟩ := run_ok hc ih hvalid hallowed hrun
    exact htracks

end

end MallocBench.Checker
