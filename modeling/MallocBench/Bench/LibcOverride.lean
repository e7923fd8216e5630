import MallocBench.Lib.Bits

/-!
# The libc and C++ overrides

Every allocation function of libc and C++ is overridden by one that passes the request on to
`bench::malloc`. They name the same two 64-bit numbers in different orders; an `EntryPoint` is one
of them, and `requested_call` says what it requests. The allocator behind `bench::malloc` is
arbitrary: it returns a pointer that may depend on all requests so far.
-/

namespace MallocBench.Bench

open Lib

/-- The arguments of `bench::malloc`. -/
structure Request where
  size : BitVec 64
  alignment : BitVec 64
deriving DecidableEq, Repr

/-- `std::bad_alloc` -/
inductive BadAlloc where
  | badAlloc
deriving DecidableEq, Repr

/-- Code that calls `bench::malloc`, with the requests made so far. -/
abbrev BenchM := ExceptT BadAlloc (StateM (List Request))

/-- An allocator, by the pointer that it returns. -/
abbrev Allocator := List Request → Request → BitVec 64

section EntryPoints

variable (alloc : Allocator)

/-- `bench::malloc` -/
def benchMalloc (size : BitVec 64) (alignment : BitVec 64 := 0) : BenchM (BitVec 64) := do
  let requests ← get
  set (requests ++ [⟨size, alignment⟩])
  return alloc requests ⟨size, alignment⟩

/-- `ENOMEM` -/
def enomem : Nat := 12

/-- `posix_memalign_helper`: the result, and what is stored at `ptr`. -/
def posixMemalignHelper (align size : BitVec 64) : BenchM (Nat × Option (BitVec 64)) := do
  let result ← benchMalloc alloc size align
  if result = 0 then return (enomem, none) else return (0, some result)

def _libcMalloc (size : BitVec 64) : BenchM (BitVec 64) := benchMalloc alloc size

def _libcMemalign (align s : BitVec 64) : BenchM (BitVec 64) := benchMalloc alloc s align

def _libcValloc (size : BitVec 64) : BenchM (BitVec 64) := benchMalloc alloc size 4096

/-- `~4096` leaves the low 12 bits. -/
def _libcPvalloc (size : BitVec 64) : BenchM (BitVec 64) :=
  benchMalloc alloc ((size + 4095) &&& ~~~4096) 4096

def _posixMemalign (a s : BitVec 64) : BenchM (Nat × Option (BitVec 64)) :=
  posixMemalignHelper alloc a s

def glibcOverrideMalloc (size : BitVec 64) : BenchM (BitVec 64) := benchMalloc alloc size

def glibcOverrideMemalign (align size : BitVec 64) : BenchM (BitVec 64) :=
  benchMalloc alloc size align

/-- The body of an `operator new` that may throw. -/
def orBadAlloc (request : BenchM (BitVec 64)) : BenchM (BitVec 64) := do
  let res ← request
  if res = 0 then throw .badAlloc else return res

def operatorNew (size : BitVec 64) : BenchM (BitVec 64) := orBadAlloc (benchMalloc alloc size)

def operatorNewArray (size : BitVec 64) : BenchM (BitVec 64) := orBadAlloc (benchMalloc alloc size)

def operatorNewNothrow (size : BitVec 64) : BenchM (BitVec 64) := benchMalloc alloc size

def operatorNewArrayNothrow (size : BitVec 64) : BenchM (BitVec 64) := benchMalloc alloc size

/-- The aligned forms give the alignment first. -/
def operatorNewAligned (size alignment : BitVec 64) : BenchM (BitVec 64) :=
  orBadAlloc (benchMalloc alloc alignment size)

def operatorNewAlignedNothrow (size alignment : BitVec 64) : BenchM (BitVec 64) :=
  benchMalloc alloc alignment size

def operatorNewArrayAligned (size alignment : BitVec 64) : BenchM (BitVec 64) :=
  orBadAlloc (benchMalloc alloc alignment size)

def operatorNewArrayAlignedNothrow (size alignment : BitVec 64) : BenchM (BitVec 64) :=
  benchMalloc alloc alignment size

def malloc (size : BitVec 64) : BenchM (BitVec 64) := benchMalloc alloc size

def memalign (alignment size : BitVec 64) : BenchM (BitVec 64) := benchMalloc alloc size alignment

def alignedAlloc (alignment size : BitVec 64) : BenchM (BitVec 64) :=
  benchMalloc alloc size alignment

def valloc (size : BitVec 64) : BenchM (BitVec 64) := benchMalloc alloc size 4096

def pvalloc (size : BitVec 64) : BenchM (BitVec 64) :=
  benchMalloc alloc ((size + 4095) &&& ~~~4096) 4096

def posixMemalign (alignment size : BitVec 64) : BenchM (Nat × Option (BitVec 64)) :=
  posixMemalignHelper alloc alignment size

end EntryPoints

/-! ## The entry points -/

inductive EntryPoint where
  | libcMalloc | libcMemalign | libcValloc | libcPvalloc | libcPosixMemalign
  | glibcOverrideMalloc | glibcOverrideMemalign
  | operatorNew | operatorNewArray | operatorNewNothrow | operatorNewArrayNothrow
  | operatorNewAligned | operatorNewAlignedNothrow
  | operatorNewArrayAligned | operatorNewArrayAlignedNothrow
  | malloc | memalign | alignedAlloc | valloc | pvalloc | posixMemalign
deriving DecidableEq, Repr

namespace EntryPoint

/-- What a caller knows the function by. -/
inductive Kind where
  | plain
  | aligned
  | page
  | wholePages
deriving DecidableEq, Repr

def kind : EntryPoint → Kind
  | .libcMalloc | .glibcOverrideMalloc | .malloc => .plain
  | .operatorNew | .operatorNewArray | .operatorNewNothrow | .operatorNewArrayNothrow => .plain
  | .libcMemalign | .libcPosixMemalign | .glibcOverrideMemalign => .aligned
  | .memalign | .alignedAlloc | .posixMemalign => .aligned
  | .operatorNewAligned | .operatorNewAlignedNothrow => .aligned
  | .operatorNewArrayAligned | .operatorNewArrayAlignedNothrow => .aligned
  | .libcValloc | .valloc => .page
  | .libcPvalloc | .pvalloc => .wholePages

/-- The `operator new` forms that take an alignment. -/
def isAlignedNew : EntryPoint → Bool
  | .operatorNewAligned | .operatorNewAlignedNothrow => true
  | .operatorNewArrayAligned | .operatorNewArrayAlignedNothrow => true
  | _ => false

/-- Call the function with a size, and with an alignment when it takes one. -/
def call (alloc : Allocator) (size alignment : BitVec 64) : EntryPoint → BenchM Unit
  | .libcMalloc => discard (_libcMalloc alloc size)
  | .libcMemalign => discard (_libcMemalign alloc alignment size)
  | .libcValloc => discard (_libcValloc alloc size)
  | .libcPvalloc => discard (_libcPvalloc alloc size)
  | .libcPosixMemalign => discard (_posixMemalign alloc alignment size)
  | .glibcOverrideMalloc => discard (Bench.glibcOverrideMalloc alloc size)
  | .glibcOverrideMemalign => discard (Bench.glibcOverrideMemalign alloc alignment size)
  | .operatorNew => discard (Bench.operatorNew alloc size)
  | .operatorNewArray => discard (Bench.operatorNewArray alloc size)
  | .operatorNewNothrow => discard (Bench.operatorNewNothrow alloc size)
  | .operatorNewArrayNothrow => discard (Bench.operatorNewArrayNothrow alloc size)
  | .operatorNewAligned => discard (Bench.operatorNewAligned alloc size alignment)
  | .operatorNewAlignedNothrow => discard (Bench.operatorNewAlignedNothrow alloc size alignment)
  | .operatorNewArrayAligned => discard (Bench.operatorNewArrayAligned alloc size alignment)
  | .operatorNewArrayAlignedNothrow =>
    discard (Bench.operatorNewArrayAlignedNothrow alloc size alignment)
  | .malloc => discard (Bench.malloc alloc size)
  | .memalign => discard (Bench.memalign alloc alignment size)
  | .alignedAlloc => discard (Bench.alignedAlloc alloc alignment size)
  | .valloc => discard (Bench.valloc alloc size)
  | .pvalloc => discard (Bench.pvalloc alloc size)
  | .posixMemalign => discard (Bench.posixMemalign alloc alignment size)

/-- The alignment that the caller asks for. -/
def asked (alignment : BitVec 64) : Kind → BitVec 64
  | .plain => 0
  | .aligned => alignment
  | .page | .wholePages => 4096

end EntryPoint

/-! ## What is requested -/

/-- The requests made by the end of a run. -/
def requested {α : Type} (x : BenchM α) (requests : List Request) : List Request :=
  (x.run.run requests).2

section Requested

variable {α : Type} {alloc : Allocator} {size alignment : BitVec 64} {requests : List Request}

@[simp] theorem requested_benchMalloc :
    requested (benchMalloc alloc size alignment) requests = requests ++ [⟨size, alignment⟩] := rfl

/-- A step that requests nothing more. -/
theorem requested_bind {β : Type} {x : BenchM α} {f : α → BenchM β}
    (hf : ∀ a requests, requested (f a) requests = requests) :
    requested (x >>= f) requests = requested x requests := by
  unfold requested
  simp only [ExceptT.run_bind, StateT.run_bind]
  rcases x.run.run requests with ⟨res, after⟩
  cases res with
  | error e => rfl
  | ok a => exact hf a after

theorem requested_map {β : Type} {x : BenchM α} {f : α → β} :
    requested (f <$> x) requests = requested x requests := by
  rw [map_eq_pure_bind]
  exact requested_bind fun a requests => rfl

@[simp] theorem requested_discard {x : BenchM α} :
    requested (discard x) requests = requested x requests :=
  requested_map

@[simp] theorem requested_orBadAlloc {x : BenchM (BitVec 64)} :
    requested (orBadAlloc x) requests = requested x requests := by
  refine requested_bind fun res requests => ?_
  by_cases hres : res = 0
  · rw [if_pos hres]
    rfl
  · rw [if_neg hres]
    rfl

@[simp] theorem requested_posixMemalignHelper :
    requested (posixMemalignHelper alloc alignment size) requests =
      requests ++ [⟨size, alignment⟩] := by
  unfold posixMemalignHelper
  rw [requested_bind, requested_benchMalloc]
  intro res requests
  by_cases hres : res = 0
  · rw [if_pos hres]
    rfl
  · rw [if_neg hres]
    rfl

/-- The request of an entry point. -/
def EntryPoint.request (size alignment : BitVec 64) (e : EntryPoint) : Request :=
  match e.kind with
  | .plain => ⟨size, 0⟩
  | .aligned => if e.isAlignedNew then ⟨alignment, size⟩ else ⟨size, alignment⟩
  | .page => ⟨size, 4096⟩
  | .wholePages => ⟨(size + 4095) &&& ~~~4096, 4096⟩

/-- Every entry point makes one request. -/
theorem requested_call (e : EntryPoint) :
    requested (e.call alloc size alignment) requests = requests ++ [e.request size alignment] := by
  cases e <;> simp [EntryPoint.call, EntryPoint.request, EntryPoint.kind, EntryPoint.isAlignedNew,
    _libcMalloc, _libcMemalign, _libcValloc, _libcPvalloc, _posixMemalign, glibcOverrideMalloc,
    glibcOverrideMemalign, operatorNew, operatorNewArray, operatorNewNothrow,
    operatorNewArrayNothrow, operatorNewAligned, operatorNewAlignedNothrow,
    operatorNewArrayAligned, operatorNewArrayAlignedNothrow, malloc, memalign, alignedAlloc,
    valloc, pvalloc, posixMemalign]

end Requested

/-! ## What should be requested -/

/-- The request of an entry point gets the caller what it asked for. -/
structure Serves (kind : EntryPoint.Kind) (size alignment : BitVec 64) (r : Request) : Prop where
  size_le : size.toNat ≤ r.size.toNat
  alignment_eq : r.alignment = EntryPoint.asked alignment kind
  wholePages : kind = .wholePages → 4096 ∣ r.size.toNat

/-- Rounding up to whole pages does not wrap around. -/
def NoWrap (kind : EntryPoint.Kind) (size : BitVec 64) : Prop :=
  kind = .wholePages → size.toNat + 4095 < 2 ^ 64

/-- When an entry point serves its caller. -/
def EntryPoint.Correct (size alignment : BitVec 64) (e : EntryPoint) : Prop :=
  (e.isAlignedNew = true → size = alignment) ∧
    (e.kind = .wholePages → (size.toNat + 4095) % 8192 = 0)

/-- Without bit 12, a number is one of whole pages and no smaller only if there was nothing to
clear. -/
theorem pvalloc_size {size : BitVec 64} (hwrap : size.toNat + 4095 < 2 ^ 64) :
    size.toNat ≤ ((size + 4095) &&& ~~~4096).toNat ∧
      4096 ∣ ((size + 4095) &&& ~~~4096).toNat ↔ (size.toNat + 4095) % 8192 = 0 := by
  have hsum : (size + 4095).toNat = size.toNat + 4095 := by
    rw [BitVec.toNat_add]
    exact Nat.mod_eq_of_lt hwrap
  rw [toNat_and_not, hsum]
  have hbit : (size + 4095 &&& 4096).toNat = (size.toNat + 4095) / 2 ^ 12 % 2 * 2 ^ 12 := by
    rw [BitVec.toNat_and, hsum]
    show _ &&& 2 ^ 12 = _
    rw [Nat.and_two_pow, Nat.toNat_testBit]
  rw [hbit]
  omega

theorem EntryPoint.kind_of_isAlignedNew {e : EntryPoint} (h : e.isAlignedNew = true) :
    e.kind = .aligned := by
  cases e <;> first | rfl | cases h

theorem serves_iff {e : EntryPoint} {size alignment : BitVec 64} (hwrap : NoWrap e.kind size) :
    Serves e.kind size alignment (e.request size alignment) ↔ e.Correct size alignment := by
  unfold EntryPoint.Correct EntryPoint.request
  cases hk : e.kind with
  | plain =>
    have hnew : e.isAlignedNew ≠ true := fun h => by
      cases hk.symm.trans (EntryPoint.kind_of_isAlignedNew h)
    exact iff_of_true ⟨Nat.le_refl _, rfl, nofun⟩ ⟨fun h => absurd h hnew, nofun⟩
  | page =>
    have hnew : e.isAlignedNew ≠ true := fun h => by
      cases hk.symm.trans (EntryPoint.kind_of_isAlignedNew h)
    exact iff_of_true ⟨Nat.le_refl _, rfl, nofun⟩ ⟨fun h => absurd h hnew, nofun⟩
  | aligned =>
    by_cases hnew : e.isAlignedNew = true
    · -- the two numbers are swapped
      simp only [hnew, if_true]
      refine ⟨fun h => ⟨fun _ => h.alignment_eq, nofun⟩, fun h => ?_⟩
      obtain rfl := h.1 trivial
      exact ⟨Nat.le_refl _, rfl, nofun⟩
    · simp only [hnew]
      exact iff_of_true ⟨Nat.le_refl _, rfl, nofun⟩ ⟨nofun, nofun⟩
  | wholePages =>
    have hnew : e.isAlignedNew ≠ true := fun h => by
      cases hk.symm.trans (EntryPoint.kind_of_isAlignedNew h)
    have hsize := pvalloc_size (hwrap hk)
    constructor
    · exact fun h => ⟨fun h => absurd h hnew, fun _ => hsize.mp ⟨h.size_le, h.wholePages rfl⟩⟩
    · intro h
      obtain ⟨hle, hpages⟩ := hsize.mpr (h.2 rfl)
      exact ⟨hle, rfl, fun _ => hpages⟩

/-- **The overrides**: an entry point makes one request, and serves its caller with it unless it is
an aligned `operator new`, which swaps the size and the alignment, or rounds up to whole pages,
which it does for one size in 8192 only. -/
theorem entryPoint_serves_iff (e : EntryPoint) (alloc : Allocator) (requests : List Request)
    (size alignment : BitVec 64) (hwrap : NoWrap e.kind size) :
    (∃ r, requested (e.call alloc size alignment) requests = requests ++ [r] ∧
      Serves e.kind size alignment r) ↔ e.Correct size alignment := by
  rw [← serves_iff hwrap, requested_call]
  constructor
  · rintro ⟨r, hr, hserves⟩
    cases List.append_cancel_left hr
    exact hserves
  · exact fun h => ⟨_, rfl, h⟩

/-- `pvalloc(4097)` requests two pages. -/
theorem entryPoint_serves_pvalloc :
    ∃ r, requested (EntryPoint.pvalloc.call (fun _ _ => 4096) 4097 0) [] = [] ++ [r] ∧
      Serves .wholePages 4097 0 r :=
  (entryPoint_serves_iff .pvalloc (fun _ _ => 4096) [] 4097 0 fun _ => by decide).mpr
    ⟨fun hnew => absurd hnew (by decide), fun _ => by decide⟩

/-- `new` of 100 bytes aligned to 16 requests 16 bytes, and `pvalloc(1)` requests none. -/
theorem not_entryPoint_serves :
    ¬ (∃ r, requested (EntryPoint.operatorNewAligned.call (fun _ _ => 4096) 100 16) [] = [r] ∧
      Serves .aligned 100 16 r) ∧
    ¬ (∃ r, requested (EntryPoint.pvalloc.call (fun _ _ => 4096) 1 0) [] = [r] ∧
      Serves .wholePages 1 0 r) := by
  constructor
  · rintro ⟨r, hr, hserves⟩
    rw [requested_call] at hr
    cases hr
    exact absurd hserves.size_le (by decide)
  · rintro ⟨r, hr, hserves⟩
    rw [requested_call] at hr
    cases hr
    exact absurd hserves.size_le (by decide)

end MallocBench.Bench
