import Mathlib.Data.List.Nodup
import Mathlib.Data.List.Perm.Subperm
import Mathlib.Data.Nat.Count

/-!
# Counting what the bins should hold

A walk over a structure meets nodes and counts, for each node, the bin it
belongs in. When the bins hold exactly the nodes, the counts are the lengths of
the bins. `length_le_of_spread` bounds how many nodes a range can hold.
-/

namespace MallocBench.Lib

universe u v

variable {α : Type u} {κ : Type v} [DecidableEq κ] {l l₁ l₂ : List (α × κ)} {i : κ}

/-- How many of the nodes `l` belong in bin `i`. -/
def tally (l : List (α × κ)) (i : κ) : Nat := l.countP fun p => p.2 = i

@[simp] theorem tally_nil : tally ([] : List (α × κ)) i = 0 := rfl

theorem tally_append : tally (l₁ ++ l₂) i = tally l₁ i + tally l₂ i := List.countP_append

theorem tally_singleton {x : α} {j : κ} : tally [(x, j)] i = if j = i then 1 else 0 := by
  unfold tally
  rw [List.countP_singleton]
  simp

/-- A bin that holds exactly its nodes has as many members as were counted. -/
theorem length_eq_tally (hl : l.Nodup) {bin : List α} (hbin : bin.Nodup)
    (hmem : ∀ x, x ∈ bin ↔ (x, i) ∈ l) : bin.length = tally l i := by
  have hperm : (bin.map fun x => (x, i)).Perm (l.filter fun p => p.2 = i) := by
    refine (List.perm_ext_iff_of_nodup ?_ (hl.filter _)).mpr ?_
    · exact hbin.map fun x y hxy => (Prod.mk.inj hxy).1
    · rintro ⟨x, j⟩
      simp only [List.mem_map, List.mem_filter, Prod.mk.injEq, decide_eq_true_eq]
      constructor
      · rintro ⟨y, hy, rfl, rfl⟩
        exact ⟨(hmem y).mp hy, rfl⟩
      · rintro ⟨hx, rfl⟩
        exact ⟨x, (hmem x).mpr hx, rfl, rfl⟩
  have hlen := hperm.length_eq
  rw [List.length_map] at hlen
  rw [hlen, tally, List.countP_eq_length_filter]

/-- At most one node fits in each `d` of a range. -/
theorem length_le_of_spread {l : List Nat} (hl : l.Nodup) {a b d : Nat} (hd : 0 < d)
    (hrange : ∀ x ∈ l, a * d ≤ x ∧ x < b * d)
    (hspread : ∀ x ∈ l, ∀ y ∈ l, x / d = y / d → x = y) : l.length ≤ b - a := by
  have hinj : (l.map (· / d)).Nodup := (List.nodup_map_iff_inj_on hl).mpr hspread
  have hsub : l.map (· / d) ⊆ List.range' a (b - a) := by
    intro k hk
    obtain ⟨x, hx, rfl⟩ := List.mem_map.mp hk
    obtain ⟨h₁, h₂⟩ := hrange x hx
    have hge := (Nat.le_div_iff_mul_le hd).mpr h₁
    have hlt := (Nat.div_lt_iff_lt_mul hd).mpr h₂
    rw [List.mem_range'_1]
    omega
  have hle := (List.subperm_of_subset hinj hsub).length_le
  rwa [List.length_map, List.length_range'] at hle

/-- A count depends on the values below its bound. -/
theorem count_congr {P Q : Nat → Prop} [DecidablePred P] [DecidablePred Q] {n : Nat}
    (h : ∀ k, k < n → (P k ↔ Q k)) : Nat.count P n = Nat.count Q n :=
  le_antisymm (Nat.count_mono_left fun k hk => (h k hk).mp)
    (Nat.count_mono_left fun k hk => (h k hk).mpr)

end MallocBench.Lib
