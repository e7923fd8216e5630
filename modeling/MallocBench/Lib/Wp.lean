import Mathlib.Logic.Function.Basic

/-!
# Total-correctness preconditions for state-and-exception programs

A program is a `StateT σ (Except ε)` action: it reads and writes a state `σ`
and either returns a value or stops with an exception. `wp x Q s` says that
running `x` from `s` returns a value and a state satisfying `Q`; it is false
when the run stops with an exception, so a proof of `wp` is also a proof that
no exception is raised.

The rules are equivalences wherever possible, so that `simp only` with them
executes a program symbolically; calls are dealt with by `wp_call`, which
replaces a call by what the callee's specification promises.
-/

namespace MallocBench.Lib

universe u

variable {σ ε α β : Type u}

/-- `x`, run from `s`, returns normally with a value and state in `Q`. -/
def wp (x : StateT σ (Except ε) α) (Q : α → σ → Prop) (s : σ) : Prop :=
  match x s with
  | .ok (a, s') => Q a s'
  | .error _ => False

theorem wp_iff {x : StateT σ (Except ε) α} {Q : α → σ → Prop} {s : σ} :
    wp x Q s ↔ ∃ a s', x s = .ok (a, s') ∧ Q a s' := by
  unfold wp
  cases h : x s with
  | ok p =>
    obtain ⟨a, s'⟩ := p
    constructor
    · exact fun hQ => ⟨a, s', rfl, hQ⟩
    · rintro ⟨a', s'', heq, hQ⟩
      cases heq
      exact hQ
  | error e =>
    constructor
    · exact fun hf => hf.elim
    · rintro ⟨a', s'', heq, -⟩
      cases heq

/-- What a normally returning run returns satisfies its postcondition. -/
theorem wp_of_eq {x : StateT σ (Except ε) α} {Q : α → σ → Prop} {s s' : σ} {a : α}
    (h : wp x Q s) (heq : x s = .ok (a, s')) : Q a s' := by
  rw [wp, heq] at h
  exact h

theorem wp_mono {x : StateT σ (Except ε) α} {P Q : α → σ → Prop} {s : σ}
    (h : wp x P s) (hPQ : ∀ a s', P a s' → Q a s') : wp x Q s := by
  obtain ⟨a, s', heq, hP⟩ := wp_iff.mp h
  exact wp_iff.mpr ⟨a, s', heq, hPQ a s' hP⟩

/-- Two postconditions of one run. -/
theorem wp_and {x : StateT σ (Except ε) α} {P Q : α → σ → Prop} {s : σ} (hP : wp x P s)
    (hQ : wp x Q s) : wp x (fun a s' => P a s' ∧ Q a s') s := by
  obtain ⟨a, s', heq, h⟩ := wp_iff.mp hP
  exact wp_iff.mpr ⟨a, s', heq, h, wp_of_eq hQ heq⟩

@[simp] theorem wp_pure {a : α} {Q : α → σ → Prop} {s : σ} :
    wp (pure a : StateT σ (Except ε) α) Q s ↔ Q a s := Iff.rfl

@[simp] theorem wp_bind {x : StateT σ (Except ε) α} {f : α → StateT σ (Except ε) β}
    {Q : β → σ → Prop} {s : σ} :
    wp (x >>= f) Q s ↔ wp x (fun a s' => wp (f a) Q s') s := by
  show wp (StateT.bind x f) Q s ↔ _
  unfold wp StateT.bind
  cases h : x s with
  | ok p => rfl
  | error e => rfl

@[simp] theorem wp_map {x : StateT σ (Except ε) α} {f : α → β}
    {Q : β → σ → Prop} {s : σ} :
    wp (f <$> x) Q s ↔ wp x (fun a s' => Q (f a) s') s := by
  show wp (StateT.map f x) Q s ↔ _
  unfold wp StateT.map
  cases h : x s with
  | ok p => rfl
  | error e => rfl

@[simp] theorem wp_get {Q : σ → σ → Prop} {s : σ} :
    wp (get : StateT σ (Except ε) σ) Q s ↔ Q s s := Iff.rfl

@[simp] theorem wp_set {t : σ} {Q : PUnit → σ → Prop} {s : σ} :
    wp (set t : StateT σ (Except ε) PUnit) Q s ↔ Q ⟨⟩ t := Iff.rfl

@[simp] theorem wp_modify {f : σ → σ} {Q : PUnit → σ → Prop} {s : σ} :
    wp (modify f : StateT σ (Except ε) PUnit) Q s ↔ Q ⟨⟩ (f s) := Iff.rfl

@[simp] theorem wp_throw {e : ε} {Q : α → σ → Prop} {s : σ} :
    wp (throw e : StateT σ (Except ε) α) Q s ↔ False := Iff.rfl

@[simp] theorem wp_ite {c : Prop} [Decidable c] {x y : StateT σ (Except ε) α}
    {Q : α → σ → Prop} {s : σ} :
    wp (if c then x else y) Q s ↔ if c then wp x Q s else wp y Q s := by
  by_cases h : c
  · rw [if_pos h, if_pos h]
  · rw [if_neg h, if_neg h]

/-- The call rule: a call followed by `f` is replaced by the callee's
specification `P`. -/
theorem wp_call {x : StateT σ (Except ε) α} {f : α → StateT σ (Except ε) β}
    {P : α → σ → Prop} {Q : β → σ → Prop} {s : σ} (hx : wp x P s)
    (hf : ∀ a s', P a s' → wp (f a) Q s') : wp (x >>= f) Q s :=
  wp_bind.mpr (wp_mono hx hf)

/-! ## Runs as equations -/

/-- After `x` has returned, the rest is run. -/
theorem bind_of_ok {x : StateT σ (Except ε) α} {f : α → StateT σ (Except ε) β} {s s' : σ} {a : α}
    (h : x s = .ok (a, s')) : (x >>= f) s = f a s' := by
  show StateT.bind x f s = _
  unfold StateT.bind
  rw [h]
  rfl

/-- After `x` has failed, the rest is not run. -/
theorem bind_of_error {x : StateT σ (Except ε) α} {f : α → StateT σ (Except ε) β} {s : σ} {e : ε}
    (h : x s = .error e) : (x >>= f) s = .error e := by
  show StateT.bind x f s = _
  unfold StateT.bind
  rw [h]
  rfl

/-- Two runs that are the same so far are continued in the same way. -/
theorem bind_congr_run {x y : StateT σ (Except ε) α} {f : α → StateT σ (Except ε) β} {s t : σ}
    (h : x s = y t) : (x >>= f) s = (y >>= f) t := by
  show StateT.bind x f s = StateT.bind y f t
  unfold StateT.bind
  rw [h]

/-- A run that comes to the run of another program. -/
theorem wp_congr {x y : StateT σ (Except ε) α} {Q : α → σ → Prop} {s t : σ} (h : x s = y t) :
    wp x Q s ↔ wp y Q t := by
  unfold wp
  rw [h]

/-- A run whose result is known. -/
theorem eq_ok_of_wp {x : StateT σ (Except ε) α} {s t : σ} {a : α}
    (h : wp x (fun b u => b = a ∧ u = t) s) : x s = .ok (a, t) := by
  obtain ⟨b, u, heq, rfl, rfl⟩ := wp_iff.mp h
  exact heq

theorem bind_eq_ok {x : StateT σ (Except ε) α} {f : α → StateT σ (Except ε) β} {s t : σ} {b : β}
    (h : (x >>= f) s = .ok (b, t)) : ∃ a s', x s = .ok (a, s') ∧ f a s' = .ok (b, t) := by
  cases hx : x s with
  | ok p =>
    obtain ⟨a, s'⟩ := p
    exact ⟨a, s', rfl, (bind_of_ok hx).symm.trans h⟩
  | error e =>
    rw [bind_of_error hx] at h
    cases h

/-- `x` never stops with the exception `e`. -/
def NeverRaises (e : ε) (x : StateT σ (Except ε) α) : Prop :=
  ∀ s, x s ≠ .error e

namespace NeverRaises

variable {e : ε} {x y : StateT σ (Except ε) α} {f : α → StateT σ (Except ε) β}

theorem pure (a : α) : NeverRaises e (pure a : StateT σ (Except ε) α) := by
  rintro s ⟨⟩

theorem get : NeverRaises e (get : StateT σ (Except ε) σ) := by
  rintro s ⟨⟩

theorem set (t : σ) : NeverRaises e (set t : StateT σ (Except ε) PUnit) := by
  rintro s ⟨⟩

theorem modify (g : σ → σ) : NeverRaises e (modify g : StateT σ (Except ε) PUnit) := by
  rintro s ⟨⟩

theorem throw {e' : ε} (h : e' ≠ e) : NeverRaises e (throw e' : StateT σ (Except ε) α) := by
  rintro s ⟨⟩
  exact h rfl

theorem bind (hx : NeverRaises e x) (hf : ∀ a, NeverRaises e (f a)) : NeverRaises e (x >>= f) := by
  intro s
  cases hs : x s with
  | ok p =>
    rw [bind_of_ok hs]
    exact hf p.1 p.2
  | error e' =>
    have herr : (x >>= f) s = .error e' := by
      show StateT.bind x f s = _
      unfold StateT.bind
      rw [hs]
      rfl
    rw [herr]
    rintro ⟨⟩
    exact hx s hs

theorem ite {c : Prop} [Decidable c] (hx : NeverRaises e x) (hy : NeverRaises e y) :
    NeverRaises e (if c then x else y) := by
  split
  · exact hx
  · exact hy

end NeverRaises

/-- `x` does not change the state. -/
def ReadsOnly (x : StateT σ (Except ε) α) : Prop :=
  ∀ s a t, x s = .ok (a, t) → t = s

namespace ReadsOnly

variable {x y : StateT σ (Except ε) α} {f : α → StateT σ (Except ε) β}

theorem pure (a : α) : ReadsOnly (pure a : StateT σ (Except ε) α) := by
  rintro s b t ⟨⟩
  rfl

theorem throw (e : ε) : ReadsOnly (throw e : StateT σ (Except ε) α) := by
  rintro s b t ⟨⟩

theorem bind (hx : ReadsOnly x) (hf : ∀ a, ReadsOnly (f a)) : ReadsOnly (x >>= f) := by
  intro s b t h
  obtain ⟨a, u, hxs, hfu⟩ := bind_eq_ok h
  rw [hf a u b t hfu, hx s a u hxs]

theorem ite {c : Prop} [Decidable c] (hx : ReadsOnly x) (hy : ReadsOnly y) :
    ReadsOnly (if c then x else y) := by
  split
  · exact hx
  · exact hy

/-- What is read, is read from the same state. -/
theorem bind_eq_ok (hx : ReadsOnly x) {s t : σ} {b : β} (h : (x >>= f) s = .ok (b, t)) :
    ∃ a, x s = .ok (a, s) ∧ f a s = .ok (b, t) := by
  obtain ⟨a, u, hxs, hfu⟩ := Lib.bind_eq_ok h
  obtain rfl := hx s a u hxs
  exact ⟨a, hxs, hfu⟩

end ReadsOnly

/-- `x` returns nothing but `a`. -/
def Returns (a : α) (x : StateT σ (Except ε) α) : Prop :=
  ∀ s b t, x s = .ok (b, t) → b = a

namespace Returns

variable {a : α} {x y : StateT σ (Except ε) α}

theorem pure : Returns a (pure a : StateT σ (Except ε) α) := by
  rintro s b t ⟨⟩
  rfl

theorem bind {z : StateT σ (Except ε) β} {f : β → StateT σ (Except ε) α}
    (hf : ∀ b, Returns a (f b)) : Returns a (z >>= f) := by
  intro s b t h
  obtain ⟨c, u, -, hfu⟩ := bind_eq_ok h
  exact hf c u b t hfu

theorem ite {c : Prop} [Decidable c] (hx : Returns a x) (hy : Returns a y) :
    Returns a (if c then x else y) := by
  split
  · exact hx
  · exact hy

end Returns

/-- A loop over a list keeps an invariant that every pass keeps. -/
theorem wp_forM {ι : Type u} {l : List ι} {f : ι → StateT σ (Except ε) PUnit}
    {I : List ι → σ → Prop} {s : σ} (h0 : I [] s)
    (hstep : ∀ l₁ i l₂ t, l = l₁ ++ i :: l₂ → I l₁ t → wp (f i) (fun _ t' => I (l₁ ++ [i]) t') t) :
    wp (l.forM f) (fun _ t => I l t) s := by
  suffices h : ∀ (l₂ l₁ : List ι) (t : σ), l = l₁ ++ l₂ → I l₁ t →
      wp (l₂.forM f) (fun _ t' => I l t') t from h l [] s rfl h0
  intro l₂
  induction l₂ with
  | nil =>
    intro l₁ t hl hI
    rw [List.append_nil] at hl
    subst hl
    exact hI
  | cons i rest ih =>
    intro l₁ t hl hI
    show wp (f i >>= fun _ => rest.forM f) _ t
    exact wp_call (hstep l₁ i rest t hl hI)
      (fun _ t' hI' => ih (l₁ ++ [i]) t' (by rw [hl]; simp) hI')

/-- A loop of checks passes when each of them does. -/
theorem wp_forM_checks {ι : Type u} {l : List ι} {f : ι → StateT σ (Except ε) PUnit} {s : σ}
    (h : ∀ i ∈ l, wp (f i) (fun _ t => t = s) s) : wp (l.forM f) (fun _ t => t = s) s := by
  refine wp_forM (I := fun _ t => t = s) rfl fun l₁ i l₂ t hl hI => ?_
  subst hI
  exact h i (by rw [hl]; simp)

/-! ## Calls in a row -/

section

variable {ι : Type u} (allowed : σ → α → ι → Prop) [∀ s a i, Decidable (allowed s a i)]
  (exec : α → ι → StateT σ (Except ε) α) (stop : ε)

/-- The calls in a row, each made with what the one before has returned; a call that is not allowed
stops the run. -/
def replay : List ι → α → StateT σ (Except ε) α
  | [], a => pure a
  | i :: calls, a => do
    let s ← get
    if allowed s a i then do
      let a' ← exec a i
      replay calls a'
    else throw stop

/-- What every allowed call preserves holds after the calls. -/
theorem replay_induct {P : σ → α → Prop} {calls : List ι} {s t : σ} {a a' : α}
    (hstep : ∀ s a i a' t, P s a → allowed s a i → exec a i s = .ok (a', t) → P t a') (h : P s a)
    (heq : replay allowed exec stop calls a s = .ok (a', t)) : P t a' := by
  induction calls generalizing s a with
  | nil =>
    cases heq
    exact h
  | cons i calls ih =>
    unfold replay at heq
    rw [bind_of_ok (show (get : StateT σ (Except ε) σ) s = .ok (s, s) from rfl)] at heq
    by_cases hallowed : allowed s a i
    · rw [if_pos hallowed] at heq
      obtain ⟨a₁, u, hexec, heq⟩ := bind_eq_ok heq
      exact ih (hstep _ _ _ _ _ h hallowed hexec) heq
    · rw [if_neg hallowed] at heq
      cases heq

end

-- programs are run by the rules only, never by unfolding
attribute [irreducible] wp

end MallocBench.Lib
