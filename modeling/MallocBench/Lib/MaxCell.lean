import Mathlib.Data.Set.Finite.Lemmas
import Mathlib.Order.Bounds.Basic
import MallocBench.Lib.Threads

/-!
# A maximum kept by exchanges

A thread raises a shared cell to its own value by exchanging the two, and starts over with what it
took out when that was larger. In between the cell may hold less than it did before; what is
missing is in the hands of a thread. `Carried` says so, and the three things that can happen to the
cell and the hands keep it.
-/

namespace MallocBench.Lib

universe u v

variable {ι : Type u} {α : Type v} [LinearOrder α]

/-- The largest of the values `vs` is in the cell or held by a thread. -/
structure Carried (vs : List α) (cell : α) (held : ι → Option α) : Prop where
  cell_mem : cell ∈ vs
  held_mem : ∀ i v, held i = some v → v ∈ vs
  le : ∀ v ∈ vs, v ≤ cell ∨ ∃ i w, held i = some w ∧ v ≤ w

namespace Carried

variable {vs : List α} {cell v : α} {held held' : ι → Option α} {i : ι}

theorem init : Carried [cell] cell fun _ : ι => none where
  cell_mem := List.mem_singleton.mpr rfl
  held_mem _ _ h := nomatch h
  le _ hv := .inl (List.mem_singleton.mp hv).le

/-- A thread that holds nothing brings a new value. -/
theorem submit (h : Carried vs cell held) (hi : held i = none) (hi' : held' i = some v)
    (hne : ∀ j, j ≠ i → held' j = held j) : Carried (v :: vs) cell held' where
  cell_mem := List.mem_cons_of_mem _ h.cell_mem
  held_mem j w hj := by
    by_cases hji : j = i
    · subst hji
      cases hi'.symm.trans hj
      exact List.mem_cons_self
    · exact List.mem_cons_of_mem _ (h.held_mem j w (hne j hji ▸ hj))
  le w hw := by
    rcases List.mem_cons.mp hw with rfl | hold
    · exact .inr ⟨i, w, hi', le_refl w⟩
    · rcases h.le w hold with hcell | ⟨j, u, hj, hle⟩
      · exact .inl hcell
      · have hji : j ≠ i := by
          rintro rfl
          cases hi.symm.trans hj
        exact .inr ⟨j, u, (hne j hji).trans hj, hle⟩

/-- A thread exchanges its value with the cell, and keeps what it takes out if that is larger. -/
theorem exchange (h : Carried vs cell held) (hi : held i = some v)
    (hi' : held' i = if v < cell then some cell else none)
    (hne : ∀ j, j ≠ i → held' j = held j) : Carried vs v held' where
  cell_mem := h.held_mem i v hi
  held_mem j w hj := by
    by_cases hji : j = i
    · subst hji
      by_cases hlt : v < cell
      · rw [hi', if_pos hlt] at hj
        cases hj
        exact h.cell_mem
      · rw [hi', if_neg hlt] at hj
        cases hj
    · exact h.held_mem j w (hne j hji ▸ hj)
  le w hw := by
    -- what was in the cell is in the hands of the thread now, or no larger than its value
    have hcell : w ≤ cell → w ≤ v ∨ ∃ j u, held' j = some u ∧ w ≤ u := by
      intro hle
      by_cases hlt : v < cell
      · exact .inr ⟨i, cell, by rw [hi', if_pos hlt], hle⟩
      · exact .inl (hle.trans (not_lt.mp hlt))
    rcases h.le w hw with hle | ⟨j, u, hj, hle⟩
    · exact hcell hle
    · by_cases hji : j = i
      · subst hji
        cases hi.symm.trans hj
        exact .inl hle
      · exact .inr ⟨j, u, (hne j hji).trans hj, hle⟩

/-- A step that touches neither the cell nor what the threads hold. -/
theorem congr (h : Carried vs cell held) (hi : held' i = held i)
    (hne : ∀ j, j ≠ i → held' j = held j) : Carried vs cell held' := by
  have heq : held' = held := funext fun j => by
    by_cases hji : j = i
    · rw [hji, hi]
    · exact hne j hji
  rwa [heq]

/-- The largest value is in the cell or held. -/
theorem greatest (h : Carried vs cell held) :
    ∃ m, IsGreatest {v | v ∈ vs} m ∧ (cell = m ∨ ∃ i, held i = some m) := by
  obtain ⟨m, hm, hmax⟩ := Set.exists_max_image {v | v ∈ vs} id (List.finite_toSet vs)
    ⟨cell, h.cell_mem⟩
  refine ⟨m, ⟨hm, hmax⟩, ?_⟩
  rcases h.le m hm with hle | ⟨i, w, hi, hle⟩
  · exact .inl (le_antisymm (hmax _ h.cell_mem) hle)
  · have heq : w = m := le_antisymm (hmax _ (h.held_mem i w hi)) hle
    exact .inr ⟨i, heq ▸ hi⟩

/-- When nothing is held, the largest value is in the cell. -/
theorem settled (h : Carried vs cell held) (hnone : ∀ i, held i = none) :
    IsGreatest {v | v ∈ vs} cell := by
  obtain ⟨m, hm, hcell | ⟨i, hi⟩⟩ := h.greatest
  · exact hcell ▸ hm
  · cases (hnone i).symm.trans hi

end Carried

end MallocBench.Lib
