import Mathlib

/-!
# Consecutive intervals

A list of intervals, each given by its start and its length, in which every interval starts where
the one before it ends. They are disjoint and fill what lies between the two ends.
-/

namespace MallocBench.Lib

/-- The interval of a start and a length. -/
def interval (r : Nat × Nat) : Set Nat := Set.Ico r.1 (r.1 + r.2)

/-- The intervals lead from `a` to `b`. -/
def Consecutive : Nat → List (Nat × Nat) → Nat → Prop
  | a, [], b => a = b
  | a, r :: rs, b => r.1 = a ∧ Consecutive (a + r.2) rs b

namespace Consecutive

variable {a b : Nat} {rs : List (Nat × Nat)}

theorem snoc (h : Consecutive a rs b) (n : Nat) : Consecutive a (rs ++ [(b, n)]) (b + n) := by
  induction rs generalizing a with
  | nil => exact ⟨h.symm, by rw [show a = b from h]; rfl⟩
  | cons r rs ih => exact ⟨h.1, ih h.2⟩

/-- The end is as far from the start as all lengths together. -/
theorem end_eq (h : Consecutive a rs b) : b = a + (rs.map Prod.snd).sum := by
  induction rs generalizing a with
  | nil => exact (show a = b from h).symm
  | cons r rs ih =>
    rw [ih h.2, List.map_cons, List.sum_cons, Nat.add_assoc]

theorem start_le (h : Consecutive a rs b) : a ≤ b := by
  rw [h.end_eq]
  exact Nat.le_add_right ..

theorem mem_iff (h : Consecutive a rs b) (x : Nat) :
    (∃ r ∈ rs, x ∈ interval r) ↔ x ∈ Set.Ico a b := by
  induction rs generalizing a with
  | nil =>
    obtain rfl : a = b := h
    exact iff_of_false (fun ⟨r, hr, _⟩ => nomatch hr) fun hx => (hx.1.trans_lt hx.2).false
  | cons r rs ih =>
    obtain ⟨rfl, hrest⟩ := h
    have hle := hrest.start_le
    simp only [List.mem_cons, exists_eq_or_imp]
    rw [ih hrest]
    simp only [interval, Set.mem_Ico]
    omega

theorem pairwise_disjoint (h : Consecutive a rs b) :
    rs.Pairwise fun r r' => Disjoint (interval r) (interval r') := by
  induction rs generalizing a with
  | nil => exact .nil
  | cons r rs ih =>
    obtain ⟨rfl, hrest⟩ := h
    refine .cons (fun r' hr' => Set.disjoint_left.mpr fun x hx hx' => ?_) (ih hrest)
    have hin := (hrest.mem_iff x).mp ⟨r', hr', hx'⟩
    exact absurd hx.2 (not_lt.mpr hin.1)

end Consecutive

end MallocBench.Lib
