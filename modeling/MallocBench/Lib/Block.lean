import Mathlib.Data.List.Basic

/-!
# Blocks of memory

What a program knows of the memory it has been given: blocks of cells, each at its address. A
cell is known to hold what was last written to it; of the other cells nothing is known. A memory
holds a block (`Block.Holds`) when it has in each cell what is known of it.
-/

namespace MallocBench.Lib

universe u

/-- A block at `ptr`, with what is known of its cells. -/
structure Block (γ : Type u) where
  ptr : Nat
  cells : List (Option γ)
  deriving DecidableEq

namespace Block

variable {γ : Type u} {b : Block γ} {f g : Nat → γ} {k n p q x : Nat} {v : γ}

/-- The end of the block. -/
def stop (b : Block γ) : Nat := b.ptr + b.cells.length

/-- What is known of the cell at `x`. -/
def known (b : Block γ) (x : Nat) : Option γ :=
  if b.ptr ≤ x then b.cells[x - b.ptr]?.join else none

/-- The memory `f` has what is known. -/
def Holds (f : Nat → γ) (b : Block γ) : Prop := ∀ x v, b.known x = some v → f x = v

/-- A new block: nothing is known of its cells. -/
def fresh (p n : Nat) : Block γ := ⟨p, List.replicate n none⟩

/-- A block of which every cell holds `v`. -/
def filled (p n : Nat) (v : γ) : Block γ := ⟨p, List.replicate n (some v)⟩

/-- The block after `v` has been written at `x`. -/
def write (x : Nat) (v : γ) (b : Block γ) : Block γ :=
  if b.ptr ≤ x then ⟨b.ptr, b.cells.set (x - b.ptr) (some v)⟩ else b

/-- The block at `q` with `n` cells: the first ones are those of `b`, as far as they go. -/
def resize (q n : Nat) (b : Block γ) : Block γ :=
  ⟨q, (List.range n).map fun k => b.cells[k]?.join⟩

@[simp] theorem length_fresh : (fresh p n : Block γ).cells.length = n := List.length_replicate

@[simp] theorem length_filled : (filled p n v).cells.length = n := List.length_replicate

@[simp] theorem length_resize : (b.resize q n).cells.length = n := by
  simp [resize]

@[simp] theorem ptr_write : (b.write x v).ptr = b.ptr := by
  unfold write
  split_ifs <;> rfl

@[simp] theorem length_write : (b.write x v).cells.length = b.cells.length := by
  unfold write
  split_ifs
  · exact List.length_set
  · rfl

/-- Only cells of the block are known. -/
theorem known_bounds (h : b.known x = some v) : b.ptr ≤ x ∧ x < b.stop := by
  unfold known at h
  split_ifs at h with hle
  refine ⟨hle, ?_⟩
  by_contra hge
  unfold stop at hge
  rw [List.getElem?_eq_none (by omega)] at h
  cases h

theorem known_add : b.known (b.ptr + k) = b.cells[k]?.join := by
  unfold known
  rw [if_pos (Nat.le_add_right _ _), Nat.add_sub_cancel_left]

/-- A block is held by every memory with the same cells. -/
theorem Holds.congr (h : b.Holds f) (heq : ∀ x, b.ptr ≤ x → x < b.stop → g x = f x) : b.Holds g := by
  intro x v hx
  obtain ⟨h₁, h₂⟩ := known_bounds hx
  rw [heq x h₁ h₂]
  exact h x v hx

theorem holds_fresh : (fresh p n).Holds f := by
  intro x v h
  unfold known fresh at h
  split_ifs at h
  dsimp only at h
  rw [List.getElem?_replicate] at h
  split_ifs at h <;> cases h

theorem holds_filled (h : ∀ k, k < n → f (p + k) = v) : (filled p n v).Holds f := by
  intro x w hx
  obtain ⟨h₁, h₂⟩ := known_bounds hx
  obtain ⟨k, rfl⟩ := Nat.exists_eq_add_of_le h₁
  unfold stop at h₂
  rw [length_filled] at h₂
  rw [known_add] at hx
  have hk : k < n := by omega
  unfold filled at hx
  rw [List.getElem?_replicate, if_pos hk] at hx
  rw [← Option.some.inj hx]
  exact h k hk

theorem known_write {y : Nat} (h₁ : b.ptr ≤ y) (h₂ : y < b.stop) :
    (b.write x v).known y = if x = y then some v else b.known y := by
  unfold stop at h₂
  unfold write known
  by_cases hx : b.ptr ≤ x
  · rw [if_pos hx]
    dsimp only
    rw [if_pos h₁, List.getElem?_set, if_pos h₁]
    by_cases hxy : x = y
    · rw [if_pos hxy, if_pos (by omega), if_pos (by omega)]
      rfl
    · rw [if_neg hxy, if_neg (by omega)]
  · rw [if_neg hx, if_neg (show x ≠ y by omega)]

/-- The cell that is written has the value, the others keep theirs. -/
theorem Holds.write (h : b.Holds f) (hx : g x = v)
    (hg : ∀ y, b.ptr ≤ y → y < b.stop → y ≠ x → g y = f y) : (b.write x v).Holds g := by
  intro y w hy
  obtain ⟨h₁, h₂⟩ := known_bounds hy
  unfold stop at h₂
  rw [ptr_write] at h₁ h₂
  rw [length_write] at h₂
  rw [known_write h₁ h₂] at hy
  split_ifs at hy with hxy
  · rw [← hxy, hx]
    exact Option.some.inj hy
  · rw [hg y h₁ h₂ (Ne.symm hxy)]
    exact h y w hy

/-- A resized block keeps the cells that it has room for. -/
theorem Holds.resize (h : b.Holds f)
    (hg : ∀ k, k < b.cells.length → k < n → g (q + k) = f (b.ptr + k)) : (b.resize q n).Holds g := by
  intro y w hy
  obtain ⟨h₁, h₂⟩ := known_bounds hy
  obtain ⟨k, rfl⟩ := Nat.exists_eq_add_of_le h₁
  unfold stop at h₂
  rw [length_resize] at h₂
  rw [known_add] at hy
  have hk : k < n := by omega
  unfold Block.resize at hy
  rw [List.getElem?_map, List.getElem?_range hk] at hy
  have hb : b.known (b.ptr + k) = some w := known_add.trans hy
  have hstop := (known_bounds hb).2
  unfold stop at hstop
  exact (hg k (by omega) hk).trans (h _ _ hb)

end Block

end MallocBench.Lib
