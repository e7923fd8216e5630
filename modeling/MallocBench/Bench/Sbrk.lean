import MallocBench.Lib.Consecutive
import MallocBench.Lib.Threads

/-!
# `Heap::sbrk`

The end of a heap is an atomic pointer, moved by compare-and-exchange. A thread reads it, tests
whether the heap would grow too large from there, and tries to move it; a failed exchange, which
may fail for no reason, hands it the current end to test again. Threads are interleaved
arbitrarily. The calls that have returned are recorded in order, and those that were successful
cut the heap into consecutive regions.
-/

namespace MallocBench.Bench

open Lib

/-- What does not change in a `Heap`: `max_size_` and `heap_start_`. -/
structure Heap where
  maxSize : BitVec 64
  heapStart : Nat
deriving DecidableEq, Repr

/-- The next step of a thread in `sbrk`. -/
inductive SbrkPc where
  | entry (increment : BitVec 64)
  | load (increment : BitVec 64)
  | test (increment : BitVec 64) (oldHeapEnd : Nat)
  | exchange (increment : BitVec 64) (oldHeapEnd : Nat)
deriving DecidableEq, Repr

def SbrkPc.increment : SbrkPc → BitVec 64
  | .entry increment | .load increment => increment
  | .test increment _ | .exchange increment _ => increment

/-- How a step goes on: at another step, or by returning a pointer or null. -/
inductive SbrkNext where
  | goto (pc : SbrkPc)
  | ret (ptr : Option Nat)
deriving DecidableEq, Repr

/-- One step of `sbrk`, and the end of the heap after it. `spurious` lets the exchange fail. The
distance to the start is a signed number, and so is the sum, but the limit is unsigned. -/
def Heap.sbrkStep (heap : Heap) (heapEnd : Nat) (spurious : Bool) : SbrkPc → SbrkNext × Nat
  | .entry increment =>
    if increment.msb then (.ret none, heapEnd) else (.goto (.load increment), heapEnd)
  | .load increment => (.goto (.test increment heapEnd), heapEnd)
  | .test increment oldHeapEnd =>
    if (BitVec.ofInt 64 ((oldHeapEnd : Int) - heap.heapStart) + increment).toNat >
        heap.maxSize.toNat then
      (.ret none, heapEnd)
    else (.goto (.exchange increment oldHeapEnd), heapEnd)
  | .exchange increment oldHeapEnd =>
    if heapEnd = oldHeapEnd ∧ spurious = false then
      (.ret (some oldHeapEnd), oldHeapEnd + increment.toNat)
    else (.goto (.test increment heapEnd), heapEnd)

/-- A call that has returned. -/
structure SbrkCall where
  increment : BitVec 64
  ptr : Option Nat
deriving DecidableEq, Repr

/-- `heap_end_`, and the calls that have returned. -/
structure SbrkShared where
  heapEnd : Nat
  calls : List SbrkCall

/-- The regions that the successful calls returned. -/
def regions (calls : List SbrkCall) : List (Nat × Nat) :=
  calls.filterMap fun call => call.ptr.map (·, call.increment.toNat)

/-- A thread calls `sbrk`, or goes on in it. -/
inductive SbrkStep (heap : Heap) : ThreadStep (Option SbrkPc) SbrkShared
  | call (m : SbrkShared) (increment : BitVec 64) :
    SbrkStep heap none m (some (.entry increment)) m
  | goto (m : SbrkShared) (pc pc' : SbrkPc) (spurious : Bool) (heapEnd : Nat)
    (h : heap.sbrkStep m.heapEnd spurious pc = (.goto pc', heapEnd)) :
    SbrkStep heap (some pc) m (some pc') { m with heapEnd := heapEnd }
  | ret (m : SbrkShared) (pc : SbrkPc) (spurious : Bool) (ptr : Option Nat) (heapEnd : Nat)
    (h : heap.sbrkStep m.heapEnd spurious pc = (.ret ptr, heapEnd)) :
    SbrkStep heap (some pc) m none ⟨heapEnd, m.calls ++ [⟨pc.increment, ptr⟩]⟩

/-- An empty heap. -/
def Heap.init (heap : Heap) (ι : Type) : Threads ι (Option SbrkPc) SbrkShared where
  pc _ := none
  shared := ⟨heap.heapStart, []⟩

/-! ## The invariant -/

/-- The regions of the successful calls lead from the start of the heap to its end. -/
structure SbrkInv (heap : Heap) (m : SbrkShared) : Prop where
  consecutive : Consecutive heap.heapStart (regions m.calls) m.heapEnd
  le_max : m.heapEnd ≤ heap.heapStart + heap.maxSize.toNat

/-- What a thread knows: the end it has read is an earlier one, and what it is about to add has
passed the test from there. -/
def SbrkPc.Ok (heap : Heap) (heapEnd : Nat) : SbrkPc → Prop
  | .entry _ => True
  | .load increment => increment.msb = false
  | .test increment oldHeapEnd =>
    increment.msb = false ∧ heap.heapStart ≤ oldHeapEnd ∧ oldHeapEnd ≤ heapEnd
  | .exchange increment oldHeapEnd =>
    increment.msb = false ∧ oldHeapEnd + increment.toNat ≤ heap.heapStart + heap.maxSize.toNat

variable {heap : Heap} {heapEnd heapEnd' : Nat} {pc pc' : SbrkPc} {spurious : Bool}

/-- The end of a heap only moves up. -/
theorem SbrkPc.Ok.mono (h : pc.Ok heap heapEnd) (hle : heapEnd ≤ heapEnd') :
    pc.Ok heap heapEnd' := by
  cases pc with
  | test increment oldHeapEnd => exact ⟨h.1, h.2.1, h.2.2.trans hle⟩
  | _ => exact h

/-- The test is exact: the sum does not wrap around, however large the increment. -/
theorem sbrk_test {increment : BitVec 64} {oldHeapEnd : Nat} (hmax : heap.maxSize.toNat < 2 ^ 63)
    (hinc : increment.msb = false) (hstart : heap.heapStart ≤ oldHeapEnd)
    (hend : oldHeapEnd ≤ heap.heapStart + heap.maxSize.toNat) :
    (BitVec.ofInt 64 ((oldHeapEnd : Int) - heap.heapStart) + increment).toNat =
      oldHeapEnd - heap.heapStart + increment.toNat := by
  have hlt : increment.toNat < 2 ^ 63 := by
    rw [BitVec.msb_eq_false_iff_two_mul_lt] at hinc
    omega
  have hdist : (BitVec.ofInt 64 ((oldHeapEnd : Int) - heap.heapStart)).toNat =
      oldHeapEnd - heap.heapStart := by
    rw [BitVec.toNat_ofInt]
    omega
  rw [BitVec.toNat_add, hdist]
  omega

/-- A step that does not return leaves the end alone, and the thread knows what it has to. -/
theorem sbrkStep_goto (hmax : heap.maxSize.toNat < 2 ^ 63) (hstart : heap.heapStart ≤ heapEnd)
    (hend : heapEnd ≤ heap.heapStart + heap.maxSize.toNat) (hok : pc.Ok heap heapEnd)
    (h : heap.sbrkStep heapEnd spurious pc = (.goto pc', heapEnd')) :
    heapEnd' = heapEnd ∧ pc'.Ok heap heapEnd := by
  cases pc with
  | entry increment =>
    simp only [Heap.sbrkStep] at h
    split at h
    · cases h
    · cases h
      exact ⟨rfl, Bool.eq_false_iff.mpr ‹_›⟩
  | load increment =>
    cases h
    exact ⟨rfl, hok, hstart, le_refl _⟩
  | test increment oldHeapEnd =>
    obtain ⟨hinc, hlo, hhi⟩ := hok
    simp only [Heap.sbrkStep, sbrk_test hmax hinc hlo (hhi.trans hend)] at h
    split at h
    · cases h
    · cases h
      exact ⟨rfl, hinc, by omega⟩
  | exchange increment oldHeapEnd =>
    simp only [Heap.sbrkStep] at h
    split at h
    · cases h
    · cases h
      exact ⟨rfl, hok.1, hstart, le_refl _⟩

/-- A step that returns null leaves the end alone; one that returns a pointer returns the end, and
moves it by the increment. -/
theorem sbrkStep_ret {ptr : Option Nat} (hok : pc.Ok heap heapEnd)
    (h : heap.sbrkStep heapEnd spurious pc = (.ret ptr, heapEnd')) :
    (ptr = none ∧ heapEnd' = heapEnd) ∨
      (ptr = some heapEnd ∧ heapEnd' = heapEnd + pc.increment.toNat ∧
        heapEnd' ≤ heap.heapStart + heap.maxSize.toNat) := by
  cases pc with
  | entry increment =>
    simp only [Heap.sbrkStep] at h
    split at h
    · cases h
      exact .inl ⟨rfl, rfl⟩
    · cases h
  | load increment => cases h
  | test increment oldHeapEnd =>
    simp only [Heap.sbrkStep] at h
    split at h
    · cases h
      exact .inl ⟨rfl, rfl⟩
    · cases h
  | exchange increment oldHeapEnd =>
    simp only [Heap.sbrkStep] at h
    split at h
    · obtain ⟨rfl, -⟩ := ‹heapEnd = oldHeapEnd ∧ _›
      cases h
      exact .inr ⟨rfl, rfl, hok.2⟩
    · cases h

/-- What a step of a thread that is in `sbrk` or not does to the heap. -/
theorem SbrkStep.spec {l l' : Option SbrkPc} {m m' : SbrkShared}
    (hmax : heap.maxSize.toNat < 2 ^ 63) (hinv : SbrkInv heap m)
    (hok : ∀ pc, l = some pc → pc.Ok heap m.heapEnd) (hstep : SbrkStep heap l m l' m') :
    (∀ pc, l' = some pc → pc.Ok heap m'.heapEnd) ∧
      ((m'.heapEnd = m.heapEnd ∧ regions m'.calls = regions m.calls) ∨
        ∃ increment, l' = none ∧ m'.calls = m.calls ++ [⟨increment, some m.heapEnd⟩] ∧
          m'.heapEnd = m.heapEnd + increment.toNat ∧
          m'.heapEnd ≤ heap.heapStart + heap.maxSize.toNat) := by
  cases hstep with
  | call _ increment =>
    refine ⟨fun pc hpc => ?_, .inl ⟨rfl, rfl⟩⟩
    cases hpc
    trivial
  | goto _ pc pc' spurious heapEnd h =>
    obtain ⟨rfl, hok'⟩ := sbrkStep_goto hmax hinv.consecutive.start_le hinv.le_max (hok pc rfl) h
    refine ⟨fun pc'' hpc => ?_, .inl ⟨rfl, rfl⟩⟩
    cases hpc
    exact hok'
  | ret _ pc spurious ptr heapEnd h =>
    refine ⟨nofun, ?_⟩
    rcases sbrkStep_ret (hok pc rfl) h with ⟨rfl, rfl⟩ | ⟨rfl, rfl, hle⟩
    · exact .inl ⟨rfl, by simp [regions]⟩
    · exact .inr ⟨pc.increment, rfl, rfl, rfl, hle⟩

theorem SbrkInv.step {l l' : Option SbrkPc} {m m' : SbrkShared}
    (hmax : heap.maxSize.toNat < 2 ^ 63) (hinv : SbrkInv heap m)
    (hok : ∀ pc, l = some pc → pc.Ok heap m.heapEnd) (hstep : SbrkStep heap l m l' m') :
    SbrkInv heap m' ∧ m.heapEnd ≤ m'.heapEnd := by
  rcases (hstep.spec hmax hinv hok).2 with ⟨hend, hregions⟩ | ⟨increment, -, hcalls, hend, hle⟩
  · refine ⟨⟨?_, hend ▸ hinv.le_max⟩, hend.ge⟩
    rw [hend, hregions]
    exact hinv.consecutive
  · refine ⟨⟨?_, hle⟩, by omega⟩
    have hregions : regions m'.calls = regions m.calls ++ [(m.heapEnd, increment.toNat)] := by
      rw [hcalls]
      simp [regions]
    rw [hregions, hend]
    exact hinv.consecutive.snoc _

theorem sbrkInv_of_reach {ι : Type} [DecidableEq ι] {s : Threads ι (Option SbrkPc) SbrkShared}
    (hmax : heap.maxSize.toNat < 2 ^ 63)
    (h : Threads.Reach (SbrkStep heap) (heap.init ι) s) :
    SbrkInv heap s.shared ∧ ∀ i pc, s.pc i = some pc → pc.Ok heap s.shared.heapEnd := by
  refine h.invariant (P := SbrkInv heap) (Q := fun l m => ∀ pc, l = some pc → pc.Ok heap m.heapEnd)
    ⟨⟨rfl, Nat.le_add_right ..⟩, nofun⟩ fun l m l' m' hinv hok hstep => ?_
  obtain ⟨hinv', hle⟩ := hinv.step hmax hok hstep
  exact ⟨hinv', (hstep.spec hmax hinv hok).1, fun k hk pc hpc => (hk pc hpc).mono hle⟩

/-- **`Heap::sbrk`**, in every interleaving: the regions of the successful calls are disjoint and
fill the heap, which never grows beyond its maximum size; its end is moved only by a step that
returns a pointer. -/
theorem sbrk_regions (ι : Type) [DecidableEq ι] (heap : Heap) (hmax : heap.maxSize.toNat < 2 ^ 63)
    (s : Threads ι (Option SbrkPc) SbrkShared)
    (h : Threads.Reach (SbrkStep heap) (heap.init ι) s) :
    (regions s.shared.calls).Pairwise (fun r r' => Disjoint (interval r) (interval r')) ∧
    (∀ x, (∃ r ∈ regions s.shared.calls, x ∈ interval r) ↔
      x ∈ Set.Ico heap.heapStart s.shared.heapEnd) ∧
    s.shared.heapEnd = heap.heapStart + ((regions s.shared.calls).map Prod.snd).sum ∧
    s.shared.heapEnd ≤ heap.heapStart + heap.maxSize.toNat ∧
    ∀ i s', Threads.StepBy (SbrkStep heap) i s s' → s'.shared.heapEnd ≠ s.shared.heapEnd →
      s'.pc i = none ∧ ∃ increment ptr,
        s'.shared.calls = s.shared.calls ++ [⟨increment, some ptr⟩] := by
  obtain ⟨hinv, hok⟩ := sbrkInv_of_reach hmax h
  refine ⟨hinv.consecutive.pairwise_disjoint, hinv.consecutive.mem_iff, hinv.consecutive.end_eq,
    hinv.le_max, fun i s' hby hne => ?_⟩
  rcases (hby.pc_self.spec hmax hinv (hok i)).2 with ⟨hend, -⟩ | ⟨increment, hpc, hcalls, -⟩
  · exact absurd hend hne
  · exact ⟨hpc, increment, _, hcalls⟩

/-- Two threads that have read the same end: one moves it, and the other one tries again. -/
theorem sbrk_regions_contended :
    (regions [⟨32, some 65536⟩, ⟨16, some 65568⟩]).Pairwise
      (fun r r' => Disjoint (interval r) (interval r')) ∧
    {x | ∃ r ∈ regions [⟨32, some 65536⟩, ⟨16, some 65568⟩], x ∈ interval r} =
      Set.Ico 65536 65584 := by
  let heap : Heap := ⟨4096, 65536⟩
  have hinit : Threads.Reach (SbrkStep heap) (heap.init Bool) (heap.init Bool) := .refl
  have hcalls := (hinit.next true rfl (.call _ 16)).next false rfl (.call _ 32)
  have hread := ((hcalls.next true rfl (.goto _ _ (.load 16) false 65536 rfl)).next true rfl
    (.goto _ _ (.test 16 65536) false 65536 rfl)).next true rfl
    (.goto _ _ (.exchange 16 65536) false 65536 (by decide))
  have hboth := ((hread.next false rfl (.goto _ _ (.load 32) false 65536 rfl)).next false rfl
    (.goto _ _ (.test 32 65536) false 65536 rfl)).next false rfl
    (.goto _ _ (.exchange 32 65536) false 65536 (by decide))
  have hmoved := hboth.next false rfl (.ret _ _ false (some 65536) 65568 (by decide))
  have hagain := (hmoved.next true rfl (.goto _ _ (.test 16 65568) false 65568 (by decide))).next
    true rfl (.goto _ _ (.exchange 16 65568) false 65568 (by decide))
  have hlast := hagain.next true rfl (.ret _ _ false (some 65568) 65584 (by decide))
  obtain ⟨hdisj, hmem, -⟩ := sbrk_regions Bool heap (by decide) _ hlast
  exact ⟨hdisj, Set.ext hmem⟩

end MallocBench.Bench
