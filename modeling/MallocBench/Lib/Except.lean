/-!
# Programs that may throw

What the parts of an `Except` program do when the program returns normally.
-/

namespace MallocBench.Lib

universe u v

variable {ε : Type u} {α β : Type v}

theorem exists_of_bind_ok {x : Except ε α} {f : α → Except ε β} {b : β} (h : x >>= f = .ok b) :
    ∃ a, x = .ok a ∧ f a = .ok b := by
  cases x with
  | error error => cases h
  | ok a => exact ⟨a, rfl, h⟩

theorem throw_if_ok_iff {c : Prop} [Decidable c] {e : ε} :
    (if c then throw e else pure () : Except ε Unit) = .ok () ↔ ¬ c := by
  by_cases hc : c
  · rw [if_pos hc]
    exact iff_of_false (fun h => nomatch h) (fun hno => hno hc)
  · rw [if_neg hc]
    exact iff_of_true rfl hc

theorem then_ok_iff {x y : Except ε Unit} :
    (x >>= fun _ => y) = .ok () ↔ x = .ok () ∧ y = .ok () := by
  cases x with
  | error e => exact iff_of_false (fun h => nomatch h) fun h => nomatch h.1
  | ok => exact ⟨fun h => ⟨rfl, h⟩, And.right⟩

theorem forM_ok_iff {f : β → Except ε PUnit} {l : List β} :
    l.forM f = .ok ⟨⟩ ↔ ∀ x ∈ l, f x = .ok ⟨⟩ := by
  induction l with
  | nil => exact iff_of_true rfl fun x hx => nomatch hx
  | cons x l ih =>
    show (f x >>= fun _ => l.forM f) = .ok ⟨⟩ ↔ _
    cases hx : f x with
    | error e =>
      refine iff_of_false (fun hc => nomatch hc) fun hall => ?_
      have hok := hall x (List.mem_cons_self ..)
      rw [hx] at hok
      cases hok
    | ok u =>
      show l.forM f = .ok ⟨⟩ ↔ _
      rw [ih]
      simp [hx]

theorem then_error_iff {x y : Except ε PUnit} {e : ε} :
    (x >>= fun _ => y) = .error e ↔ x = .error e ∨ (x = .ok ⟨⟩ ∧ y = .error e) := by
  cases x with
  | error e' => exact ⟨.inl, fun h => h.elim id fun h => nomatch h.1⟩
  | ok => exact ⟨fun h => .inr ⟨rfl, h⟩, fun h => h.elim (fun h => nomatch h) And.right⟩

theorem throw_if_error_iff {c : Prop} [Decidable c] {e e' : ε} :
    (if c then throw e else pure () : Except ε Unit) = .error e' ↔ c ∧ e = e' := by
  by_cases hc : c
  · rw [if_pos hc]
    exact ⟨fun h => ⟨hc, Except.error.inj h⟩, fun h => congrArg _ h.2⟩
  · rw [if_neg hc]
    exact ⟨(fun h => nomatch h), fun h => absurd h.1 hc⟩

/-- A loop that counts up stops at the first pass that throws. -/
theorem forM_range'_error {f : Nat → Except ε PUnit} {a n : Nat} {e : ε}
    (h : (List.range' a n).forM f = .error e) :
    ∃ i, a ≤ i ∧ i < a + n ∧ f i = .error e ∧ ∀ j, a ≤ j → j < i → f j = .ok ⟨⟩ := by
  induction n generalizing a with
  | zero => cases h
  | succ n ih =>
    rw [List.range'_succ] at h
    change (f a >>= fun _ => (List.range' (a + 1) n).forM f) = .error e at h
    rcases then_error_iff.mp h with hfirst | ⟨hok, hrest⟩
    · exact ⟨a, Nat.le_refl _, by omega, hfirst, fun j hj hj' => by omega⟩
    · obtain ⟨i, hai, hin, herr, hbefore⟩ := ih hrest
      refine ⟨i, by omega, by omega, herr, fun j hj hji => ?_⟩
      rcases Nat.eq_or_lt_of_le hj with rfl | hlt
      · exact hok
      · exact hbefore j hlt hji

end MallocBench.Lib
