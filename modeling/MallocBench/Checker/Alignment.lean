import MallocBench.Checker.CorrectnessChecker

/-!
# Which calls are checked for alignment

`ValidateNewBlock` enforces the minimum alignment only when it is given an alignment, which may be
0: an aligned `malloc` gives the requested one, `realloc` of a block gives 0, and the other calls
give none.
-/

namespace MallocBench.Checker

open Lib

/-- A call, without what the allocator does. -/
inductive Request where
  | malloc (size : Nat) (alignment : Option Nat)
  | calloc (nmemb size : Nat)
  | realloc (ptr size : Nat)
deriving DecidableEq, Repr

namespace Request

def call : Request → Outcome → Call
  | .malloc size alignment, outcome => .malloc size alignment outcome
  | .calloc nmemb size, outcome => .calloc nmemb size outcome
  | .realloc ptr size, outcome => .realloc ptr size outcome

/-- The total size. -/
def size : Request → Nat
  | .malloc size _ => size
  | .calloc nmemb size => nmemb * size
  | .realloc _ size => size

def alignment : Request → Option Nat
  | .malloc _ alignment => alignment
  | _ => none

/-- "aligned to 16 bytes, unless the requested size is 8 bytes or smaller, in which case they must
be aligned to 8 bytes" -/
def minAlignment (request : Request) : Nat := if request.size ≤ 8 then 8 else 16

/-- What the pointer has to be aligned to; an alignment of 0 requests nothing. -/
def Aligned (request : Request) (ptr : Nat) : Prop :=
  request.minAlignment ∣ ptr ∧ ∀ a, request.alignment = some a → a ≠ 0 → a ∣ ptr

/-- The calls whose alignment is checked: the larger one of the requested and the minimum alignment
is a multiple of the other. -/
def Checked : Request → Prop
  | .malloc size (some a) =>
    (a ≤ (Request.malloc size (some a)).minAlignment →
      a = 0 ∨ a ∣ (Request.malloc size (some a)).minAlignment) ∧
    ((Request.malloc size (some a)).minAlignment < a →
      (Request.malloc size (some a)).minAlignment ∣ a)
  | .malloc _ none => False
  | .calloc _ _ => False
  | .realloc ptr _ => ptr ≠ 0

end Request

variable {st' : CheckerState} {size ptr : Nat} {outcome : Outcome}

/-- A checker without blocks. -/
def CheckerState.init : CheckerState where
  mem _ := 0
  allocatedBlocks := ∅

/-- A heap that is just the block. -/
def outcomeAt (ptr size : Nat) : Outcome where
  ptr := ptr
  magicBytes := 0
  heaps := [(ptr, ptr + size)]

/-- A first allocation at `ptr` succeeds, when the alignment that is given is kept. -/
theorem postAlloc_first (alignment : Option Nat) (isCalloc : Bool) (hsize : size ≠ 0) (hptr : ptr ≠ 0)
    (halign : ∀ a, alignment = some a → max a (if size ≤ 8 then 8 else 16) ∣ ptr) (mem : Mem)
    (hmem : isCalloc → ∀ i, i < size → mem (ptr + i) = 0) :
    ∃ st', CheckerState.postAlloc { CheckerState.init with mem := mem } size alignment isCalloc
      (outcomeAt ptr size) = .ok st' := by
  refine ⟨_, (CheckerState.postAlloc_ok_iff hsize).mpr ⟨?_, AList.notMem_empty ptr, hmem, rfl⟩⟩
  exact validateNewBlock_ok_iff.mpr ⟨hptr, ⟨_, List.mem_singleton_self _, Nat.le_refl _,
    Nat.mod_le _ _⟩, halign⟩

/-- Without an alignment, any pointer passes. -/
theorem not_aligned_one (request : Request) : ¬ request.Aligned 1 := by
  rintro ⟨hmin, -⟩
  unfold Request.minAlignment at hmin
  split_ifs at hmin <;> omega

/-- A call that is checked returns an aligned pointer. -/
theorem Request.Checked.aligned {request : Request} (h : request.Checked) (hsize : request.size ≠ 0)
    {st : CheckerState} (hstep : st.step (request.call outcome) = .ok st') :
    request.Aligned outcome.ptr := by
  cases request with
  | malloc size alignment =>
    cases alignment with
    | none => exact h.elim
    | some a =>
      have hsize : size ≠ 0 := hsize
      replace hstep : st.malloc size (some a) outcome = .ok st' := hstep
      unfold CheckerState.malloc at hstep
      rw [if_neg fun hc => hsize hc.1, CheckerState.postAlloc_ok_iff hsize] at hstep
      obtain ⟨-, -, hdvd⟩ := validateNewBlock_ok_iff.mp hstep.1
      have hdvd : max a (Request.malloc size (some a)).minAlignment ∣ outcome.ptr := hdvd a rfl
      obtain ⟨hle, hlt⟩ := h
      by_cases hcmp : a ≤ (Request.malloc size (some a)).minAlignment
      · rw [Nat.max_eq_right hcmp] at hdvd
        refine ⟨hdvd, ?_⟩
        rintro _ ⟨⟩ hne
        exact ((hle hcmp).resolve_left hne).trans hdvd
      · rw [Nat.max_eq_left (by omega)] at hdvd
        refine ⟨(hlt (by omega)).trans hdvd, ?_⟩
        rintro _ ⟨⟩ -
        exact hdvd
  | calloc => exact h.elim
  | realloc ptr size =>
    have hptr : ptr ≠ 0 := h
    replace hstep : st.realloc ptr size outcome = .ok st' := hstep
    unfold CheckerState.realloc at hstep
    rw [if_neg hptr] at hstep
    obtain ⟨⟨block, st₁⟩, -, hpost⟩ := exists_of_bind_ok hstep
    obtain ⟨hvalid, -⟩ := CheckerState.postRealloc_ok hpost
    obtain ⟨-, -, hdvd⟩ := validateNewBlock_ok_iff.mp hvalid
    have hdvd : max 0 (Request.realloc ptr size).minAlignment ∣ outcome.ptr := hdvd 0 rfl
    rw [Nat.zero_max] at hdvd
    exact ⟨hdvd, fun a hc => nomatch hc⟩

/-- A call that is not checked can return a pointer that is not aligned. -/
theorem Request.exists_not_aligned (request : Request) (h : ¬ request.Checked)
    (hsize : request.size ≠ 0) : ∃ (st : CheckerState) (outcome : Outcome) (st' : CheckerState),
      st.step (request.call outcome) = .ok st' ∧ ¬ request.Aligned outcome.ptr := by
  cases request with
  | malloc size alignment =>
    have hsize : size ≠ 0 := hsize
    have hmalloc : ∀ outcome, CheckerState.init.step
        ((Request.malloc size alignment).call outcome) =
          CheckerState.init.postAlloc size alignment false outcome := fun outcome =>
      if_neg fun hc => hsize hc.1
    cases alignment with
    | none =>
      obtain ⟨st', hst'⟩ := postAlloc_first none false hsize one_ne_zero (fun a hc => nomatch hc)
        CheckerState.init.mem fun hc => nomatch hc
      exact ⟨_, _, st', (hmalloc _).trans hst', not_aligned_one _⟩
    | some a =>
      -- the larger one of the alignments is not a multiple of the other
      have hmax : ∃ ptr, ptr ≠ 0 ∧ max a (if size ≤ 8 then 8 else 16) ∣ ptr ∧
          ¬ (Request.malloc size (some a)).Aligned ptr := by
        rcases not_and_or.mp h with hle | hlt
        · obtain ⟨hle, hno⟩ := Classical.not_imp.mp hle
          obtain ⟨hzero, hdvd⟩ := not_or.mp hno
          refine ⟨(Request.malloc size (some a)).minAlignment, ?_, ?_, fun hc => hdvd (hc.2 a rfl hzero)⟩
          · unfold Request.minAlignment
            split_ifs <;> decide
          · show max a (Request.malloc size (some a)).minAlignment ∣ _
            rw [Nat.max_eq_right hle]
        · obtain ⟨hlt, hdvd⟩ := Classical.not_imp.mp hlt
          refine ⟨a, by omega, ?_, fun hc => hdvd hc.1⟩
          show max a (Request.malloc size (some a)).minAlignment ∣ _
          rw [Nat.max_eq_left (by omega)]
      obtain ⟨ptr, hptr, hdvd, hno⟩ := hmax
      obtain ⟨st', hst'⟩ := postAlloc_first (some a) false hsize hptr (by rintro _ ⟨⟩; exact hdvd)
        CheckerState.init.mem fun hc => nomatch hc
      exact ⟨_, _, st', (hmalloc _).trans hst', hno⟩
  | calloc nmemb size =>
    obtain ⟨hnmemb, hsize⟩ := Nat.mul_ne_zero_iff.mp hsize
    have hcalloc : ∀ outcome, CheckerState.init.step ((Request.calloc nmemb size).call outcome) =
        CheckerState.postAlloc { CheckerState.init with
          mem := clearBlock CheckerState.init.mem outcome.ptr (nmemb * size % 2 ^ 64) }
          (nmemb * size % 2 ^ 64) none true outcome := fun outcome =>
      if_neg fun hc => hc.1.elim hnmemb hsize
    by_cases htotal : nmemb * size % 2 ^ 64 = 0
    · -- the product overflows to 0, and nothing is checked
      exact ⟨_, outcomeAt 1 0, _, (hcalloc _).trans (if_pos htotal), not_aligned_one _⟩
    · obtain ⟨st', hst'⟩ := postAlloc_first none true htotal one_ne_zero (fun a hc => nomatch hc)
        (clearBlock CheckerState.init.mem 1 (nmemb * size % 2 ^ 64)) fun _ i hi => by
          unfold clearBlock
          rw [if_pos ⟨by omega, by omega⟩]
      exact ⟨_, outcomeAt 1 (nmemb * size % 2 ^ 64), st', (hcalloc _).trans hst', not_aligned_one _⟩
  | realloc ptr size =>
    obtain rfl : ptr = 0 := not_not.mp h
    obtain ⟨st', hst'⟩ := postAlloc_first none false hsize one_ne_zero (fun a hc => nomatch hc)
      CheckerState.init.mem fun hc => nomatch hc
    exact ⟨CheckerState.init, _, st', hst', not_aligned_one _⟩

/-- **Alignment**: every pointer that a call of non-zero size returns is aligned exactly when the
call is checked. -/
theorem aligned_iff (request : Request) (hsize : request.size ≠ 0) :
    (∀ (st : CheckerState) outcome st', st.step (request.call outcome) = .ok st' →
      request.Aligned outcome.ptr) ↔ request.Checked := by
  constructor
  · intro h
    by_contra hno
    obtain ⟨st, outcome, st', hstep, hnot⟩ := request.exists_not_aligned hno hsize
    exact hnot (h st outcome st' hstep)
  · intro h st outcome st' hstep
    exact h.aligned hsize hstep

/-- An aligned `malloc` at address 64. -/
theorem aligned_iff_aligned_malloc : (Request.malloc 100 (some 64)).Aligned 64 := by
  obtain ⟨st', hst'⟩ := postAlloc_first (some 64) false (show 100 ≠ 0 by decide)
    (show 64 ≠ 0 by decide) (by rintro _ ⟨⟩; decide) CheckerState.init.mem fun hc => nomatch hc
  exact (aligned_iff (.malloc 100 (some 64)) (by decide)).mpr ⟨by decide, by decide⟩ CheckerState.init
    (outcomeAt 64 100) st' hst'

/-- A `malloc` of 16 bytes at `0x100001`, in a heap from `0x100000` on. -/
theorem aligned_iff_unaligned : ¬ ∀ (request : Request) (st : CheckerState) outcome st',
    request.size ≠ 0 → st.step (request.call outcome) = .ok st' → request.Aligned outcome.ptr := by
  intro h
  let outcome : Outcome := ⟨0x100001, 0, [(0x100000, 0x101000)]⟩
  have hvalid : validateNewBlock outcome.heaps outcome.ptr 16 none = .ok () := rfl
  have hst' : CheckerState.init.postAlloc 16 none false outcome = .ok _ :=
    (CheckerState.postAlloc_ok_iff (by decide)).mpr
      ⟨hvalid, AList.notMem_empty _, fun hc => absurd hc Bool.false_ne_true, rfl⟩
  have haligned : 16 ∣ 0x100001 := (h (.malloc 16 none) .init outcome _ (by decide) hst').1
  exact absurd haligned (by decide)

end MallocBench.Checker
