import Mathlib.Logic.Function.Basic
import Mathlib.Logic.Relation
import Mathlib.Data.List.Chain

/-!
# Threads that share memory

Any number of threads take turns at atomic steps on what they share. What is true of every
interleaving is shown by invariants: `Threads.Reach.induct` for one about all threads at once,
and `Threads.Reach.invariant` for one that each thread keeps by its own steps and that no step of
another thread breaks.
-/

namespace MallocBench.Lib

universe u v w

/-- The local states of the threads, and what they share. -/
structure Threads (ι : Type u) (L : Type v) (S : Type w) where
  pc : ι → L
  shared : S

/-- What an atomic step may do: the local and the shared state before, and both after. -/
abbrev ThreadStep (L : Type v) (S : Type w) := L → S → L → S → Prop

namespace Threads

variable {ι : Type u} {L : Type v} {S : Type w} [DecidableEq ι] {step : ThreadStep L S}

/-- Thread `i` takes a step. -/
def StepBy (step : ThreadStep L S) (i : ι) (s s' : Threads ι L S) : Prop :=
  ∃ l, step (s.pc i) s.shared l s'.shared ∧ s'.pc = Function.update s.pc i l

/-- The states that an interleaving can lead to. -/
def Reach (step : ThreadStep L S) : Threads ι L S → Threads ι L S → Prop :=
  Relation.ReflTransGen fun s s' => ∃ i, StepBy step i s s'

theorem StepBy.intro {i : ι} {pc : ι → L} {l l' : L} {m m' : S} (hi : pc i = l)
    (hstep : step l m l' m') : StepBy step i ⟨pc, m⟩ ⟨Function.update pc i l', m'⟩ := by
  subst hi
  exact ⟨l', hstep, rfl⟩

theorem StepBy.pc_self {i : ι} {s s' : Threads ι L S} (h : StepBy step i s s') :
    step (s.pc i) s.shared (s'.pc i) s'.shared := by
  obtain ⟨l, hstep, hpc⟩ := h
  rw [hpc, Function.update_self]
  exact hstep

theorem StepBy.pc_of_ne {i j : ι} {s s' : Threads ι L S} (h : StepBy step i s s') (hj : j ≠ i) :
    s'.pc j = s.pc j := by
  obtain ⟨l, -, hpc⟩ := h
  rw [hpc, Function.update_of_ne hj]

theorem Reach.induct (Inv : Threads ι L S → Prop) {init s : Threads ι L S}
    (h : Reach step init s) (hinit : Inv init)
    (hstep : ∀ i s s', Inv s → StepBy step i s s' → Inv s') : Inv s := by
  induction h with
  | refl => exact hinit
  | tail _ hlast ih =>
    obtain ⟨i, hi⟩ := hlast
    exact hstep i _ _ ih hi

/-- One more step, of thread `i`. -/
theorem Reach.next (i : ι) {init : Threads ι L S} {pc : ι → L} {l l' : L} {m m' : S}
    (h : Reach step init ⟨pc, m⟩) (hi : pc i = l) (hstep : step l m l' m') :
    Reach step init ⟨Function.update pc i l', m'⟩ :=
  h.tail ⟨i, .intro hi hstep⟩

/-- One thread runs by itself. -/
theorem Reach.run {i : ι} {pc : ι → L} {a b : L × S} (hi : pc i = a.1)
    (h : Relation.ReflTransGen (fun a b => step a.1 a.2 b.1 b.2) a b) :
    Reach step ⟨pc, a.2⟩ ⟨Function.update pc i b.1, b.2⟩ := by
  induction h with
  | refl =>
    rw [← hi, Function.update_eq_self]
    exact .refl
  | tail _ hlast ih =>
    refine ih.tail ⟨i, _, ?_, (Function.update_idem ..).symm⟩
    show step (Function.update pc i _ i) _ _ _
    rwa [Function.update_self]

/-- The states of a run, one after the other. -/
def Run (step : ThreadStep L S) (s : Threads ι L S) (states : List (Threads ι L S)) : Prop :=
  (s :: states).IsChain fun s s' => ∃ i, StepBy step i s s'

/-- A run is as long as there is something left that every step uses up. -/
theorem Run.length_le (Left : Threads ι L S → Nat → Prop)
    (hstep : ∀ i s s' n, Left s n → StepBy step i s s' → ∃ n' < n, Left s' n')
    {s : Threads ι L S} {states : List (Threads ι L S)} {n : Nat} (h : Run step s states)
    (hleft : Left s n) : states.length ≤ n := by
  induction states generalizing s n with
  | nil => exact Nat.zero_le n
  | cons s' states ih =>
    obtain ⟨⟨i, hi⟩, hrest⟩ := List.isChain_cons_cons.mp h
    obtain ⟨n', hlt, hleft'⟩ := hstep i s s' n hleft hi
    exact Nat.lt_of_le_of_lt (ih hrest hleft') hlt

/-- An invariant of the shared state, and one of each thread with it: a step keeps both, and keeps
that of a thread that does not take it. -/
theorem Reach.invariant {P : S → Prop} {Q : L → S → Prop} {init s : Threads ι L S}
    (h : Reach step init s) (hinit : P init.shared ∧ ∀ i, Q (init.pc i) init.shared)
    (hstep : ∀ l m l' m', P m → Q l m → step l m l' m' → P m' ∧ Q l' m' ∧ ∀ k, Q k m → Q k m') :
    P s.shared ∧ ∀ i, Q (s.pc i) s.shared := by
  refine h.induct (fun s => P s.shared ∧ ∀ i, Q (s.pc i) s.shared) hinit fun i s s' hinv hby => ?_
  obtain ⟨hP, hQ, hothers⟩ := hstep _ _ _ _ hinv.1 (hinv.2 i) hby.pc_self
  refine ⟨hP, fun j => ?_⟩
  by_cases hj : j = i
  · exact hj ▸ hQ
  · rw [hby.pc_of_ne hj]
    exact hothers _ (hinv.2 j)

end Threads

end MallocBench.Lib
