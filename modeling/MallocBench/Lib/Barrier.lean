import Mathlib

/-!
# Barriers

The participants of a barrier arrive at it and wait until all others have arrived in the same
phase. A participant may drop out, and is not waited for any more; one that leaves without dropping
out is waited for forever.

* `sum_change`: a sum over all participants after one of them has changed.
* `Barrier.Counts`: the barrier counts who is missing.
* `Barrier.Counts.exists_gone`: nobody is left waiting unless somebody is gone.
* `Barrier.InStep.step`: all go through the parts of a round together.
* `Barrier.forsakes_iff`: who is waited for in vain, after one more step.
-/

namespace MallocBench.Lib

universe u v w

section Sums

variable {ι : Type u} {L : Type v} {M : Type w} [Fintype ι] [DecidableEq ι] [AddCommMonoid M]
  {l l' : ι → L} {i : ι}

/-- Only participant `i` changes. -/
theorem sum_change (f : L → M) (h : ∀ j, j ≠ i → l' j = l j) :
    ∑ j, f (l' j) + f (l i) = ∑ j, f (l j) + f (l' i) := by
  have hrest : ∑ j ∈ Finset.univ.erase i, f (l' j) = ∑ j ∈ Finset.univ.erase i, f (l j) :=
    Finset.sum_congr rfl fun j hj => by rw [h j (Finset.ne_of_mem_erase hj)]
  rw [← Finset.add_sum_erase _ _ (Finset.mem_univ i), ← Finset.add_sum_erase _ _ (Finset.mem_univ i),
    hrest]
  exact (add_right_comm _ _ _).trans (by rw [add_comm (f (l' i))]; exact add_right_comm _ _ _)

end Sums

/-- What a participant does: it runs, it waits with the token of its arrival, it has dropped out,
or it is gone without having done so. -/
inductive Role where
  | running
  | waiting (token : Nat)
  | dropped
  | gone
deriving DecidableEq, Repr

theorem Role.running_ne_gone : Role.running ≠ .gone := nofun

theorem Role.waiting_ne_gone {token : Nat} : Role.waiting token ≠ .gone := nofun

/-- Who is expected in every phase. -/
def Role.expected : Role → Nat
  | .dropped => 0
  | _ => 1

/-- Who is still to arrive in this phase. -/
def Role.missing (phase : Nat) : Role → Nat
  | .running | .gone => 1
  | .waiting token => if token = phase then 0 else 1
  | .dropped => 0

structure Barrier where
  expected : Nat
  pending : Nat
  phase : Nat
deriving DecidableEq, Repr

namespace Barrier

def init (expected : Nat) : Barrier where
  expected := expected
  pending := expected
  phase := 0

/-- Somebody arrives: the last one starts the next phase, with those that are `expected` then. -/
def arrived (b : Barrier) (expected : Nat) : Barrier :=
  if b.pending = 1 then { expected := expected, pending := expected, phase := b.phase + 1 }
  else { b with expected := expected, pending := b.pending - 1 }

/-- `arrive`; the token is the phase -/
def arrive (b : Barrier) : Barrier := b.arrived b.expected

/-- `arrive_and_drop` -/
def arriveAndDrop (b : Barrier) : Barrier := b.arrived (b.expected - 1)

/-- What a participant does with the barrier: it goes on, arrives, comes back from a phase that is
over, drops out, or goes away. -/
inductive RoleStep : Role → Barrier → Role → Barrier → Prop
  | run {b : Barrier} : RoleStep .running b .running b
  | arrive {b : Barrier} : RoleStep .running b (.waiting b.phase) b.arrive
  | resume {b : Barrier} {token : Nat} (h : token ≠ b.phase) :
    RoleStep (.waiting token) b .running b
  | drop {b : Barrier} : RoleStep .running b .dropped b.arriveAndDrop
  | leave {b : Barrier} : RoleStep .running b .gone b
  | stay {b : Barrier} : RoleStep .gone b .gone b

theorem RoleStep.barrier_of_gone {r : Role} {b b' : Barrier} (h : RoleStep r b .gone b') :
    b' = b := by
  cases h <;> rfl

theorem RoleStep.gone {r' : Role} {b b' : Barrier} (h : RoleStep .gone b r' b') : r' = .gone := by
  cases h
  rfl

variable {ι : Type u} [Fintype ι]

/-- The barrier counts its participants, and a phase does not end before it has begun. -/
structure Counts (b : Barrier) (role : ι → Role) : Prop where
  expected : b.expected = ∑ i, (role i).expected
  pending : b.pending = ∑ i, (role i).missing b.phase
  token : ∀ i t, role i = .waiting t → t = b.phase ∨ t + 1 = b.phase
  pending_pos : 0 < b.expected → 0 < b.pending

namespace Counts

variable {b : Barrier} {role role' : ι → Role} {i j : ι}

theorem init (h : ∀ i : ι, role i = .running) : (Barrier.init (Fintype.card ι)).Counts role where
  expected := by simp [Barrier.init, h, Role.expected]
  pending := by simp [Barrier.init, h, Role.missing]
  token i t hi := nomatch (h i).symm.trans hi
  pending_pos hpos := hpos

/-- Nobody is left waiting unless somebody is gone. -/
theorem exists_gone (h : b.Counts role) (hrun : ∀ i, role i ≠ .running)
    (htoken : ∀ i t, role i = .waiting t → t = b.phase) (hwait : ∃ i t, role i = .waiting t) :
    ∃ j, role j = .gone := by
  obtain ⟨i, t, hi⟩ := hwait
  have hexp : 0 < b.expected := by
    rw [h.expected]
    exact Finset.sum_pos' (fun _ _ => Nat.zero_le _) ⟨i, Finset.mem_univ i, by rw [hi]; exact Nat.one_pos⟩
  have hpending := h.pending_pos hexp
  rw [h.pending] at hpending
  obtain ⟨j, -, hj⟩ := Finset.exists_ne_zero_of_sum_ne_zero hpending.ne'
  refine ⟨j, ?_⟩
  cases hrole : role j with
  | running => exact absurd hrole (hrun j)
  | waiting token => exact absurd (by rw [hrole, Role.missing, if_pos (htoken j token hrole)]) hj
  | dropped => exact absurd (by rw [hrole]; rfl) hj
  | gone => rfl

variable [DecidableEq ι]

/-- Participant `i` changes, and is missing as before. -/
theorem move (h : b.Counts role) (hne : ∀ j, j ≠ i → role' j = role j)
    (hexpected : (role' i).expected = (role i).expected)
    (hmissing : (role' i).missing b.phase = (role i).missing b.phase)
    (htoken : ∀ t, role' i ≠ .waiting t) : b.Counts role' where
  expected := by
    have := sum_change Role.expected hne
    rw [hexpected] at this
    rw [h.expected]
    omega
  pending := by
    have := sum_change (Role.missing b.phase) hne
    rw [hmissing] at this
    rw [h.pending]
    omega
  token j t hj := by
    by_cases hji : j = i
    · exact absurd (hji ▸ hj) (htoken t)
    · exact h.token j t (hne j hji ▸ hj)
  pending_pos := h.pending_pos

/-- A participant that runs arrives, and waits or drops out. -/
theorem arrived (h : b.Counts role) (hne : ∀ j, j ≠ i → role' j = role j) (hi : role i = .running)
    (hi' : role' i = .waiting b.phase ∨ role' i = .dropped) {expected : Nat}
    (hexpected : expected = ∑ j, (role' j).expected) : (b.arrived expected).Counts role' := by
  have hmissing : (role' i).missing b.phase = 0 := by
    rcases hi' with hi' | hi' <;> rw [hi', Role.missing]
    exact if_pos rfl
  have hsum := sum_change (Role.missing b.phase) hne
  rw [hmissing, ← h.pending, hi, add_zero] at hsum
  have hone : Role.missing b.phase .running = 1 := rfl
  have htoken : ∀ j t, role' j = .waiting t → t = b.phase ∨ t + 1 = b.phase := by
    intro j t hj
    by_cases hji : j = i
    · subst hji
      rcases hi' with hi' | hi'
      · exact .inl (Role.waiting.inj (hj.symm.trans hi'))
      · exact nomatch hj.symm.trans hi'
    · exact h.token j t (hne j hji ▸ hj)
  unfold Barrier.arrived
  by_cases hlast : b.pending = 1
  · -- nobody is missing, so everybody is expected again
    rw [if_pos hlast]
    have hnone : ∀ j, (role' j).missing b.phase = 0 := by
      intro j
      have hzero : ∑ j, (role' j).missing b.phase = 0 := by omega
      exact (Finset.sum_eq_zero_iff.mp hzero) j (Finset.mem_univ j)
    have hagain : ∀ j, (role' j).missing (b.phase + 1) = (role' j).expected ∧
        ∀ t, role' j = .waiting t → t + 1 = b.phase + 1 := by
      intro j
      have hj := hnone j
      cases hrole : role' j with
      | running => rw [hrole] at hj; cases hj
      | waiting token =>
        rw [hrole, Role.missing] at hj
        have hphase : token = b.phase := by
          by_contra hno
          rw [if_neg hno] at hj
          cases hj
        subst hphase
        refine ⟨if_neg (by omega), fun t ht => by rw [Role.waiting.inj ht]⟩
      | dropped => exact ⟨rfl, fun t ht => nomatch ht⟩
      | gone => rw [hrole] at hj; cases hj
    refine ⟨hexpected, ?_, fun j t hj => .inr ((hagain j).2 t hj), id⟩
    rw [hexpected]
    exact Finset.sum_congr rfl fun j _ => (hagain j).1.symm
  · rw [if_neg hlast]
    refine ⟨hexpected, ?_, htoken, fun _ => ?_⟩
    · show b.pending - 1 = ∑ j, (role' j).missing b.phase
      omega
    · show 0 < b.pending - 1
      omega

theorem arrive (h : b.Counts role) (hne : ∀ j, j ≠ i → role' j = role j) (hi : role i = .running)
    (hi' : role' i = .waiting b.phase) : b.arrive.Counts role' := by
  refine h.arrived hne hi (.inl hi') ?_
  have hsum := sum_change Role.expected hne
  rw [hi, hi'] at hsum
  rw [h.expected]
  exact (Nat.add_right_cancel hsum).symm

theorem arriveAndDrop (h : b.Counts role) (hne : ∀ j, j ≠ i → role' j = role j)
    (hi : role i = .running) (hi' : role' i = .dropped) : b.arriveAndDrop.Counts role' := by
  refine h.arrived hne hi (.inr hi') ?_
  have hsum := sum_change Role.expected hne
  rw [hi, hi'] at hsum
  have hone : Role.expected .running = 1 := rfl
  have hzero : Role.expected .dropped = 0 := rfl
  rw [h.expected]
  omega

/-- A phase does not end while somebody else is missing. -/
theorem arrived_phase_of_missing (h : b.Counts role) (hi : role i = .running) (hij : i ≠ j)
    (hj : (role j).missing b.phase = 1) (expected : Nat) :
    (b.arrived expected).phase = b.phase := by
  have hpending : 2 ≤ b.pending := by
    rw [h.pending, ← Finset.add_sum_erase _ _ (Finset.mem_univ i),
      ← Finset.add_sum_erase _ _ (Finset.mem_erase.mpr ⟨hij.symm, Finset.mem_univ j⟩), hi, hj]
    have hone : Role.missing b.phase .running = 1 := rfl
    omega
  unfold Barrier.arrived
  rw [if_neg (by omega)]

/-- A phase does not end once somebody is gone. -/
theorem arrived_phase (h : b.Counts role) (hi : role i = .running) (hj : role j = .gone)
    (expected : Nat) : (b.arrived expected).phase = b.phase := by
  have hij : i ≠ j := by
    rintro rfl
    cases hi.symm.trans hj
  exact h.arrived_phase_of_missing hi hij (by rw [hj]; rfl) expected

theorem phase_of_gone (h : b.Counts role) (hj : role j = .gone) {b' : Barrier} {r' : Role}
    (hstep : RoleStep (role i) b r' b') : b'.phase = b.phase := by
  generalize hr : role i = r at hstep
  cases hstep with
  | arrive | drop => exact h.arrived_phase hr hj _
  | _ => rfl

/-- **A step of participant `i`** keeps the count. -/
theorem step (h : b.Counts role) (hne : ∀ j, j ≠ i → role' j = role j) {b' : Barrier}
    (hstep : RoleStep (role i) b (role' i) b') : b'.Counts role' := by
  generalize hr : role i = r, hr' : role' i = r' at hstep
  cases hstep with
  | run => exact h.move hne (by rw [hr, hr']) (by rw [hr, hr']) (by rw [hr']; simp)
  | arrive => exact h.arrive hne hr hr'
  | resume htoken =>
    refine h.move hne (by rw [hr, hr']; rfl) ?_ (by rw [hr']; simp)
    rw [hr, hr', Role.missing, Role.missing, if_neg htoken]
  | drop => exact h.arriveAndDrop hne hr hr'
  | leave => exact h.move hne (by rw [hr, hr']; rfl) (by rw [hr, hr']; rfl) (by rw [hr']; simp)
  | stay => exact h.move hne (by rw [hr, hr']) (by rw [hr, hr']) (by rw [hr']; simp)

end Counts

/-! ## Rounds -/

/-- Every `n` phases are a round. A participant that goes on is in the part of the round that ends
with this phase, and one that waits, in the part that ends with the phase of its token. -/
structure InStep (n : Nat) (b : Barrier) (role : ι → Role) (part : ι → Nat) : Prop where
  running : ∀ i, role i = .running → part i = b.phase % n
  waiting : ∀ i t, role i = .waiting t → part i = t % n

/-- A participant comes to the next part when it has waited. -/
structure PartStep (n : Nat) (r r' : Role) (part part' : Nat) : Prop where
  running : r = .running → (r' = .running ∨ ∃ t, r' = .waiting t) → part' = part
  waiting : ∀ t, r = .waiting t → part' = (part + 1) % n

section InStep

variable [DecidableEq ι] {n : Nat} {b b' : Barrier} {role role' : ι → Role} {part part' : ι → Nat}
  {i : ι}

/-- **All go through the parts of a round together.** -/
theorem InStep.step (h : b.InStep n role part) (hcounts : b.Counts role)
    (hne : ∀ j, j ≠ i → role' j = role j ∧ part' j = part j)
    (hstep : RoleStep (role i) b (role' i) b')
    (hpart : PartStep n (role i) (role' i) (part i) (part' i)) : b'.InStep n role' part' := by
  -- the others, when the phase goes on as long as one of them runs
  have hothers : (∀ j, j ≠ i → role j = .running → b'.phase = b.phase) → ∀ j, j ≠ i →
      (role' j = .running → part' j = b'.phase % n) ∧
        ∀ t, role' j = .waiting t → part' j = t % n := by
    intro hphase j hj
    obtain ⟨hrole, hsame⟩ := hne j hj
    rw [hrole, hsame]
    exact ⟨fun hrun => by rw [hphase j hj hrun]; exact h.running j hrun, h.waiting j⟩
  have hself : (∀ j, j ≠ i → role j = .running → b'.phase = b.phase) →
      (role' i = .running → part' i = b'.phase % n) →
      (∀ t, role' i = .waiting t → part' i = t % n) → b'.InStep n role' part' := by
    refine fun hphase hrun hwait => ⟨fun j hj => ?_, fun j t hj => ?_⟩
    · by_cases hji : j = i
      · exact hji ▸ hrun (hji ▸ hj)
      · exact (hothers hphase j hji).1 hj
    · by_cases hji : j = i
      · exact hji ▸ hwait t (hji ▸ hj)
      · exact (hothers hphase j hji).2 t hj
  have harrived : ∀ expected j, j ≠ i → role i = .running → role j = .running →
      (b.arrived expected).phase = b.phase := fun expected j hj hi hrun =>
    hcounts.arrived_phase_of_missing hi hj.symm (by rw [hrun]; rfl) expected
  generalize hr : role i = r, hr' : role' i = r' at hstep hpart hself harrived
  cases hstep with
  | run =>
    refine hself (fun _ _ _ => rfl) (fun _ => ?_) nofun
    rw [hpart.running rfl (.inl rfl), h.running i hr]
  | arrive =>
    refine hself (fun j hj => harrived _ j hj rfl) nofun fun t ht => ?_
    rw [hpart.running rfl (.inr ⟨_, rfl⟩), h.running i hr, Role.waiting.inj ht]
  | @resume _ token htoken =>
    refine hself (fun _ _ _ => rfl) (fun _ => ?_) nofun
    have hover : token + 1 = b.phase := (hcounts.token i token hr).resolve_left htoken
    rw [hpart.waiting token rfl, h.waiting i token hr, ← hover, Nat.mod_add_mod]
  | drop => exact hself (fun j hj => harrived _ j hj rfl) nofun nofun
  | leave | stay => exact hself (fun _ _ _ => rfl) nofun nofun

end InStep

/-! ## Who is waited for in vain -/

/-- Somebody waits in this phase for somebody who is gone. -/
def Forsakes (b : Barrier) (role : ι → Role) : Prop :=
  ∃ i j, role i = .gone ∧ role j = .waiting b.phase

/-- Nobody goes while others wait, and nobody begins to wait once others are gone. -/
def Careful (b : Barrier) (role : ι → Role) (r r' : Role) : Prop :=
  (r ≠ .gone → r' = .gone → ∀ j, role j ≠ .waiting b.phase) ∧
    ((∃ token, r' = .waiting token) → ∀ j, role j ≠ .gone)

section Forsakes

variable [DecidableEq ι] {b b' : Barrier} {role role' : ι → Role} {i : ι}

/-- **A step is careful** when nobody is waited for in vain after it. -/
theorem forsakes_iff (h : b.Counts role) (hno : ¬ b.Forsakes role)
    (hne : ∀ j, j ≠ i → role' j = role j) (hstep : RoleStep (role i) b (role' i) b') :
    Careful b role (role i) (role' i) ↔ ¬ b'.Forsakes role' := by
  -- who is gone, or waits, after a step that `i` takes from elsewhere
  have hback : ∀ r, role' i ≠ r → ∀ j, role' j = r → role j = r := by
    intro r hr j hj
    have hji : j ≠ i := by
      rintro rfl
      exact hr hj
    rw [← hne j hji]
    exact hj
  have hforth : ∀ r, role i ≠ r → ∀ j, role j = r → role' j = r := by
    intro r hr j hj
    have hji : j ≠ i := by
      rintro rfl
      exact hr hj
    rw [hne j hji]
    exact hj
  generalize hr : role i = r, hr' : role' i = r' at hstep
  cases hstep with
  | run =>
    refine iff_of_true ⟨by simp, by simp⟩ ?_
    rintro ⟨j, k, hj, hk⟩
    exact hno ⟨j, k, hback _ (by simp [hr']) j hj, hback _ (by simp [hr']) k hk⟩
  | arrive =>
    constructor
    · rintro ⟨-, hcareful⟩ ⟨j, -, hj, -⟩
      exact hcareful ⟨_, rfl⟩ j (hback _ (by simp [hr']) j hj)
    · refine fun hno' => ⟨by simp, fun _ j hj => hno' ⟨j, i, hforth _ (by simp [hr]) j hj, ?_⟩⟩
      rw [hr', Barrier.arrive, h.arrived_phase hr hj]
  | resume htoken =>
    refine iff_of_true ⟨by simp, by simp⟩ ?_
    rintro ⟨j, k, hj, hk⟩
    exact hno ⟨j, k, hback _ (by simp [hr']) j hj, hback _ (by simp [hr']) k hk⟩
  | drop =>
    refine iff_of_true ⟨by simp, by simp⟩ ?_
    rintro ⟨j, k, hj, hk⟩
    have hgone := hback _ (by simp [hr']) j hj
    rw [Barrier.arriveAndDrop, h.arrived_phase hr hgone] at hk
    exact hno ⟨j, k, hgone, hback _ (by simp [hr']) k hk⟩
  | leave =>
    constructor
    · rintro ⟨hcareful, -⟩ ⟨-, k, -, hk⟩
      exact hcareful (by simp) rfl k (hback _ (by simp [hr']) k hk)
    · exact fun hno' => ⟨fun _ _ k hk => hno' ⟨i, k, hr', hforth _ (by simp [hr]) k hk⟩, by simp⟩
  | stay =>
    refine iff_of_true ⟨by simp, by simp⟩ ?_
    rintro ⟨-, k, -, hk⟩
    exact hno ⟨i, k, hr, hback _ (by simp [hr']) k hk⟩

end Forsakes

end Barrier

end MallocBench.Lib
