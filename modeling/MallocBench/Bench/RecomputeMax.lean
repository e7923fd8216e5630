import MallocBench.Lib.MaxCell

/-!
# `Utiltest::RecomputeMax`

The threads of the utilization test report the number of allocated bytes and the size of the heap,
and keep the largest ones in two atomic cells that they change by exchanges only. The threads are
interleaved arbitrarily; `MaxCells` also records what has been submitted to the cells so far, the
latest first.
-/

namespace MallocBench.Bench

open Lib

/-- `max_allocated_bytes_` and `max_heap_size_` -/
structure MaxCells where
  maxAllocatedBytes : Nat
  maxHeapSize : Nat
  submittedBytes : List Nat
  submittedHeapSizes : List Nat

/-- The next exchange of a thread in `RecomputeMax`. -/
inductive RecomputePc where
  | bytesLoop (totalAllocatedBytes heapSize : Nat)
  | heapLoop (heapSize : Nat)
deriving DecidableEq, Repr

/-- The sizes of the heaps, added up. -/
def heapSizeSum (instances : List Nat) : Nat :=
  instances.foldl (fun heapSize size => (heapSize + size) % 2 ^ 64) 0

/-- The atomic steps of a thread, which is in `RecomputeMax` or not. -/
inductive RecomputeStep : ThreadStep (Option RecomputePc) MaxCells
  | call (m : MaxCells) (totalAllocatedBytes : Nat) (instances : List Nat) :
    RecomputeStep none m (some (.bytesLoop totalAllocatedBytes (heapSizeSum instances)))
      { m with submittedBytes := totalAllocatedBytes :: m.submittedBytes }
  | bytesAgain (m : MaxCells) (totalAllocatedBytes heapSize : Nat)
    (h : m.maxAllocatedBytes > totalAllocatedBytes) :
    RecomputeStep (some (.bytesLoop totalAllocatedBytes heapSize)) m
      (some (.bytesLoop m.maxAllocatedBytes heapSize))
      { m with maxAllocatedBytes := totalAllocatedBytes }
  | bytesDone (m : MaxCells) (totalAllocatedBytes heapSize : Nat)
    (h : ¬ m.maxAllocatedBytes > totalAllocatedBytes) :
    RecomputeStep (some (.bytesLoop totalAllocatedBytes heapSize)) m (some (.heapLoop heapSize))
      { m with
        maxAllocatedBytes := totalAllocatedBytes
        submittedHeapSizes := heapSize :: m.submittedHeapSizes }
  | heapAgain (m : MaxCells) (heapSize : Nat) (h : m.maxHeapSize > heapSize) :
    RecomputeStep (some (.heapLoop heapSize)) m (some (.heapLoop m.maxHeapSize))
      { m with maxHeapSize := heapSize }
  | heapDone (m : MaxCells) (heapSize : Nat) (h : ¬ m.maxHeapSize > heapSize) :
    RecomputeStep (some (.heapLoop heapSize)) m none { m with maxHeapSize := heapSize }

/-- The value that a thread is about to exchange with `max_allocated_bytes_`. -/
def heldBytes : Option RecomputePc → Option Nat
  | some (.bytesLoop totalAllocatedBytes _) => some totalAllocatedBytes
  | _ => none

/-- The value that a thread is about to exchange with `max_heap_size_`. -/
def heldHeapSize : Option RecomputePc → Option Nat
  | some (.heapLoop heapSize) => some heapSize
  | _ => none

/-- No thread is in `RecomputeMax`, and nothing has been submitted yet. -/
def recomputeInit (ι : Type) (maxAllocatedBytes maxHeapSize : Nat) :
    Threads ι (Option RecomputePc) MaxCells where
  pc _ := none
  shared := ⟨maxAllocatedBytes, maxHeapSize, [], []⟩

/-! ## The invariant -/

/-- The largest values are in the cells or in the hands of the threads. -/
structure RecomputeInv {ι : Type} (bytes heapSize : Nat)
    (s : Threads ι (Option RecomputePc) MaxCells) : Prop where
  bytes : Carried (s.shared.submittedBytes ++ [bytes]) s.shared.maxAllocatedBytes
    fun i => heldBytes (s.pc i)
  heap : Carried (s.shared.submittedHeapSizes ++ [heapSize]) s.shared.maxHeapSize
    fun i => heldHeapSize (s.pc i)

variable {ι : Type} [DecidableEq ι] {bytes heapSize : Nat} {i : ι}
  {s s' : Threads ι (Option RecomputePc) MaxCells}

/-- A step exchanges or submits what its own thread holds, and leaves the other threads alone. -/
theorem RecomputeInv.step (h : RecomputeInv bytes heapSize s)
    (hby : Threads.StepBy RecomputeStep i s s') : RecomputeInv bytes heapSize s' := by
  have hstep := hby.pc_self
  have hbytes : ∀ j, j ≠ i → heldBytes (s'.pc j) = heldBytes (s.pc j) :=
    fun j hj => congrArg heldBytes (hby.pc_of_ne hj)
  have hheap : ∀ j, j ≠ i → heldHeapSize (s'.pc j) = heldHeapSize (s.pc j) :=
    fun j hj => congrArg heldHeapSize (hby.pc_of_ne hj)
  obtain ⟨pc, m⟩ := s
  obtain ⟨pc', m'⟩ := s'
  obtain ⟨hb, hh⟩ := h
  dsimp only at hstep hbytes hheap hb hh
  generalize hpc : pc i = p at hstep
  generalize hpc' : pc' i = p' at hstep
  have hbi := congrArg heldBytes hpc
  have hbi' := congrArg heldBytes hpc'
  have hhi := congrArg heldHeapSize hpc
  have hhi' := congrArg heldHeapSize hpc'
  cases hstep with
  | call _ total instances =>
    exact ⟨hb.submit hbi hbi' hbytes, hh.congr (hhi'.trans hhi.symm) hheap⟩
  | bytesAgain _ total heapSize hgt =>
    exact ⟨hb.exchange hbi (hbi'.trans (if_pos hgt).symm) hbytes,
      hh.congr (hhi'.trans hhi.symm) hheap⟩
  | bytesDone _ total heapSize hle =>
    exact ⟨hb.exchange hbi (hbi'.trans (if_neg hle).symm) hbytes, hh.submit hhi hhi' hheap⟩
  | heapAgain _ heapSize hgt =>
    exact ⟨hb.congr (hbi'.trans hbi.symm) hbytes,
      hh.exchange hhi (hhi'.trans (if_pos hgt).symm) hheap⟩
  | heapDone _ heapSize hle =>
    exact ⟨hb.congr (hbi'.trans hbi.symm) hbytes,
      hh.exchange hhi (hhi'.trans (if_neg hle).symm) hheap⟩

theorem recomputeInv_of_reach (h : Threads.Reach RecomputeStep (recomputeInit ι bytes heapSize) s) :
    RecomputeInv bytes heapSize s :=
  h.induct (RecomputeInv bytes heapSize) ⟨.init, .init⟩ fun _ _ _ hinv hby => hinv.step hby

/-- The values that have been submitted, and the initial one. -/
theorem mem_submitted {vs : List Nat} {first : Nat} :
    {v | v ∈ vs ++ [first]} = {v | v ∈ vs ∨ v = first} := by
  ext v
  simp

theorem heldBytes_eq_some {pc : Option RecomputePc} {v : Nat} (h : heldBytes pc = some v) :
    ∃ heapSize, pc = some (.bytesLoop v heapSize) := by
  match pc, h with
  | some (.bytesLoop total heapSize), h => exact ⟨heapSize, by rw [Option.some.inj h]⟩

theorem heldHeapSize_eq_some {pc : Option RecomputePc} {v : Nat} (h : heldHeapSize pc = some v) :
    pc = some (.heapLoop v) := by
  match pc, h with
  | some (.heapLoop heapSize), h => rw [Option.some.inj h]

/-- **`RecomputeMax`**, in every interleaving: the largest value so far is in its cell or held by a
thread that is about to exchange it, and in the cell when no thread is in the loop. -/
theorem recomputeMax_keeps_max (ι : Type) [DecidableEq ι] (bytes heapSize : Nat)
    (s : Threads ι (Option RecomputePc) MaxCells)
    (h : Threads.Reach RecomputeStep (recomputeInit ι bytes heapSize) s) :
    (∃ m, IsGreatest {v | v ∈ s.shared.submittedBytes ∨ v = bytes} m ∧
      (s.shared.maxAllocatedBytes = m ∨ ∃ i heapSize, s.pc i = some (.bytesLoop m heapSize))) ∧
    (∃ m, IsGreatest {v | v ∈ s.shared.submittedHeapSizes ∨ v = heapSize} m ∧
      (s.shared.maxHeapSize = m ∨ ∃ i, s.pc i = some (.heapLoop m))) ∧
    ((∀ i m heapSize, s.pc i ≠ some (.bytesLoop m heapSize)) →
      IsGreatest {v | v ∈ s.shared.submittedBytes ∨ v = bytes} s.shared.maxAllocatedBytes) ∧
    ((∀ i m, s.pc i ≠ some (.heapLoop m)) →
      IsGreatest {v | v ∈ s.shared.submittedHeapSizes ∨ v = heapSize} s.shared.maxHeapSize) := by
  obtain ⟨hb, hh⟩ := recomputeInv_of_reach h
  rw [← mem_submitted, ← mem_submitted]
  refine ⟨?_, ?_, fun hnone => hb.settled fun i => ?_, fun hnone => hh.settled fun i => ?_⟩
  · obtain ⟨m, hm, hcell | ⟨i, hi⟩⟩ := hb.greatest
    · exact ⟨m, hm, .inl hcell⟩
    · exact ⟨m, hm, .inr ⟨i, heldBytes_eq_some hi⟩⟩
  · obtain ⟨m, hm, hcell | ⟨i, hi⟩⟩ := hh.greatest
    · exact ⟨m, hm, .inl hcell⟩
    · exact ⟨m, hm, .inr ⟨i, heldHeapSize_eq_some hi⟩⟩
  · refine Option.eq_none_iff_forall_ne_some.mpr fun v hv => ?_
    obtain ⟨size, hpc⟩ := heldBytes_eq_some hv
    exact hnone i v size hpc
  · exact Option.eq_none_iff_forall_ne_some.mpr fun v hv => hnone i v (heldHeapSize_eq_some hv)

/-- The thread that submits 4 takes the 5 of the other one out of the cell, and puts it back. -/
theorem recomputeMax_keeps_max_exchanged :
    (∃ m, IsGreatest {v | v ∈ [4, 5] ∨ v = 3} m ∧ (4 = m ∨ ∃ (i : Bool) (heapSize : Nat),
      (if i then some (RecomputePc.heapLoop 8) else some (.bytesLoop 5 8)) =
        some (.bytesLoop m heapSize))) ∧
    IsGreatest {v | v ∈ [4, 5] ∨ v = 3} 5 := by
  have hinit : Threads.Reach RecomputeStep (recomputeInit Bool 3 0) (recomputeInit Bool 3 0) :=
    .refl
  have hcalls := (hinit.next true rfl (.call _ 5 [8])).next false rfl (.call _ 4 [8])
  have htaken := (hcalls.next true rfl (.bytesDone _ 5 8 (by decide))).next false rfl
    (.bytesAgain _ 4 8 (by decide))
  have hback := htaken.next false rfl (.bytesDone _ 5 8 (by decide))
  refine ⟨?_, (recomputeMax_keeps_max Bool 3 0 _ hback).2.2.1 ?_⟩
  · obtain ⟨m, hm, hcell | ⟨i, heapSize, hi⟩⟩ := (recomputeMax_keeps_max Bool 3 0 _ htaken).1
    · exact ⟨m, hm, .inl hcell⟩
    · refine ⟨m, hm, .inr ⟨i, heapSize, ?_⟩⟩
      cases i with
      | false => exact hi
      | true => exact hi
  · rintro (_ | _) m heapSize hloop
    · exact RecomputePc.noConfusion (Option.some.inj hloop)
    · exact RecomputePc.noConfusion (Option.some.inj hloop)

/-! ## A thread that is not interrupted -/

/-- The exchanges of one loop. -/
def exchangeLoop (cell value : Nat) : Nat :=
  if cell > value then exchangeLoop value cell else value
termination_by if cell > value then 1 else 0
decreasing_by
  have hgt : cell > value := ‹_›
  rw [if_pos hgt, if_neg (by omega)]
  decide

theorem exchangeLoop_eq_max (cell value : Nat) : exchangeLoop cell value = max cell value := by
  fun_induction exchangeLoop cell value with
  | case1 cell value hgt ih => rw [ih, max_comm]
  | case2 cell value hle => omega

/-- The heap loop of a thread that is alone. -/
theorem reach_heapLoop (pc : ι → Option RecomputePc) (m : MaxCells) (heapSize : Nat)
    (hi : pc i = some (.heapLoop heapSize)) :
    Threads.Reach RecomputeStep ⟨pc, m⟩ ⟨Function.update pc i none,
      { m with maxHeapSize := exchangeLoop m.maxHeapSize heapSize }⟩ := by
  obtain ⟨bytes, cell, submittedBytes, submittedHeapSizes⟩ := m
  dsimp only
  fun_induction exchangeLoop cell heapSize generalizing pc with
  | case1 cell value hgt ih =>
    have hlast := ih (Function.update pc i (some (.heapLoop cell))) (Function.update_self ..)
    rw [Function.update_idem] at hlast
    exact .head ⟨i, .intro hi (.heapAgain _ value hgt)⟩ hlast
  | case2 cell value hle => exact .single ⟨i, .intro hi (.heapDone _ value hle)⟩

/-- The exchanges of a thread that is alone lead to what `exchangeLoop` says. -/
theorem reach_exchangeLoops (pc : ι → Option RecomputePc) (m : MaxCells)
    (totalAllocatedBytes heapSize : Nat)
    (hi : pc i = some (.bytesLoop totalAllocatedBytes heapSize)) :
    Threads.Reach RecomputeStep ⟨pc, m⟩ ⟨Function.update pc i none,
      { m with
        maxAllocatedBytes := exchangeLoop m.maxAllocatedBytes totalAllocatedBytes
        maxHeapSize := exchangeLoop m.maxHeapSize heapSize
        submittedHeapSizes := heapSize :: m.submittedHeapSizes }⟩ := by
  obtain ⟨cell, heapCell, submittedBytes, submittedHeapSizes⟩ := m
  dsimp only
  fun_induction exchangeLoop cell totalAllocatedBytes generalizing pc with
  | case1 cell value hgt ih =>
    have hlast := ih (Function.update pc i (some (.bytesLoop cell heapSize)))
      (Function.update_self ..)
    rw [Function.update_idem] at hlast
    exact .head ⟨i, .intro hi (.bytesAgain _ value heapSize hgt)⟩ hlast
  | case2 cell value hle =>
    have hlast := reach_heapLoop (Function.update pc i (some (.heapLoop heapSize)))
      ⟨value, heapCell, submittedBytes, heapSize :: submittedHeapSizes⟩ heapSize
      (Function.update_self ..)
    rw [Function.update_idem] at hlast
    exact .head ⟨i, .intro hi (.bytesDone _ value heapSize hle)⟩ hlast

end MallocBench.Bench
