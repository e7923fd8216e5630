import Mathlib.Data.List.Chain

/-!
# Lists of blocks without adjacent free ones

A block is a position and a flag that is set when it is allocated; it ends where the next
one starts. Freeing a block merges it with the free blocks around it: of a run of free
blocks the first one is kept.
-/

namespace MallocBench.Lib

variable {α : Type} {l P Q R M N : List (α × Bool)} {b c : α × Bool}

/-- No two adjacent blocks are free. -/
def NoTwoFree (l : List (α × Bool)) : Prop := l.IsChain fun b c => b.2 = true ∨ c.2 = true

/-- `b` in front of `l`, merged with the first block if both are free. -/
def consMerged (b : α × Bool) : List (α × Bool) → List (α × Bool)
  | [] => [b]
  | c :: l => if b.2 || c.2 then b :: c :: l else b :: l

/-- All runs of free blocks merged. -/
def mergeFree (l : List (α × Bool)) : List (α × Bool) := l.foldr consMerged []

/-- The block at index `i` freed and merged with its neighbours. -/
def freeBlock (l : List (α × Bool)) (i : Nat) : List (α × Bool) :=
  mergeFree (l.modify i fun b => (b.1, false))

theorem consMerged_of_noTwoFree (h : NoTwoFree (b :: l)) : consMerged b l = b :: l := by
  cases l with
  | nil => rfl
  | cons c l =>
    have hbc := (List.isChain_cons_cons.mp h).1
    exact if_pos (by simpa using hbc)

theorem foldr_consMerged (h : NoTwoFree (P ++ Q)) : P.foldr consMerged Q = P ++ Q := by
  induction P with
  | nil => rfl
  | cons b P ih =>
    rw [List.foldr_cons, ih (List.IsChain.tail h)]
    exact consMerged_of_noTwoFree h

/-- A list in order is not changed. -/
theorem mergeFree_eq_self (h : NoTwoFree l) : mergeFree l = l := by
  rw [mergeFree, foldr_consMerged (Q := []) (by rwa [List.append_nil]), List.append_nil]

/-- A run of free blocks becomes its first block. -/
theorem foldr_consMerged_free (hfree : ∀ c ∈ b :: M, c.2 = false) (h : NoTwoFree (b :: Q)) :
    (b :: M).foldr consMerged Q = b :: Q := by
  induction M generalizing b with
  | nil => exact consMerged_of_noTwoFree h
  | cons c M ih =>
    have hb := hfree b (by simp)
    have hc := hfree c (by simp)
    have hcQ : NoTwoFree (c :: Q) := by
      cases Q with
      | nil => exact List.isChain_singleton c
      | cons d Q =>
        obtain ⟨hbd, hQ⟩ := List.isChain_cons_cons.mp h
        rw [hb] at hbd
        exact List.isChain_cons_cons.mpr ⟨hbd.imp_left (fun ht => by cases ht), hQ⟩
    rw [List.foldr_cons, ih (fun d hd => hfree d (List.mem_cons_of_mem _ hd)) hcQ]
    exact if_neg (by rw [hb, hc]; decide)

theorem modify_append_cons {f : α × Bool → α × Bool} :
    (P ++ b :: R).modify P.length f = P ++ f b :: R := by
  induction P with
  | nil => rfl
  | cons c P ih => exact congrArg (c :: ·) ih

/-- **Freeing a block**: `M` and `N` are the free blocks in front of it and behind it, and
`c` is the first block of the run. -/
theorem freeBlock_eq (hfree : ∀ d ∈ M ++ N, d.2 = false)
    (hc : M ++ (b.1, false) :: N = c :: R) (h : NoTwoFree (P ++ c :: Q)) :
    freeBlock (P ++ (M ++ b :: N) ++ Q) (P.length + M.length) = P ++ c :: Q := by
  have hall : ∀ d ∈ c :: R, d.2 = false := by
    intro d hd
    rw [← hc, List.mem_append, List.mem_cons] at hd
    rcases hd with hd | rfl | hd
    · exact hfree d (List.mem_append_left _ hd)
    · rfl
    · exact hfree d (List.mem_append_right _ hd)
  have hcQ : NoTwoFree (c :: Q) := h.right_of_append
  have hmodify : (P ++ (M ++ b :: N) ++ Q).modify (P.length + M.length) (fun b => (b.1, false)) =
      P ++ (c :: R ++ Q) := by
    rw [show P ++ (M ++ b :: N) ++ Q = (P ++ M) ++ b :: (N ++ Q) by simp,
      ← List.length_append, modify_append_cons, ← hc]
    simp
  rw [freeBlock, hmodify, mergeFree, List.foldr_append, List.foldr_append]
  rw [show Q.foldr consMerged [] = Q from mergeFree_eq_self (List.IsChain.tail hcQ),
    foldr_consMerged_free hall hcQ, foldr_consMerged h]

end MallocBench.Lib
