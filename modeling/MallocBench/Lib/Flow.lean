import Mathlib.Data.List.Induction

/-!
# What a key holds after a list of events

An event may take what a key holds and may put something under a key, in this order. `Producer`
is the position of the event that put what a key holds now, `Valid` says that events only take
what is there and put where nothing is. `Represents` is what a program knows that keeps a map of
the keys: it holds with the values of the producers, and one lemma carries it over an event.
-/

namespace MallocBench.Lib

universe u v w

/-- What is true of every element and of those before it. -/
theorem forall_split_append {α : Type u} {P : List α → α → Prop} {xs : List α} {x : α} :
    (∀ pre e post, xs ++ [x] = pre ++ e :: post → P pre e) ↔
      (∀ pre e post, xs = pre ++ e :: post → P pre e) ∧ P xs x := by
  constructor
  · intro h
    exact ⟨fun pre e post heq => h pre e (post ++ [x]) (by rw [heq]; simp), h xs x [] rfl⟩
  · rintro ⟨h, hx⟩ pre e post heq
    rcases List.eq_nil_or_concat post with rfl | ⟨post, e', rfl⟩
    · obtain ⟨rfl, ⟨⟩⟩ := List.append_inj' heq rfl
      exact hx
    · have heq : xs ++ [x] = (pre ++ e :: post) ++ [e'] := by simpa using heq
      obtain ⟨rfl, -⟩ := List.append_inj' heq rfl
      exact h pre e post rfl

/-- The key that an event takes from, and the key that it puts to. -/
structure Flow (α : Type u) (κ : Type v) where
  takes : α → Option κ
  puts : α → Option κ

namespace Flow

variable {α : Type u} {κ : Type v} {β : Type w} (F : Flow α κ)

/-- The event at `p` put what the key `k` holds after the events `pre`. -/
def Producer (pre : List α) (k : κ) (p : Nat) : Prop :=
  (∃ e, pre[p]? = some e ∧ F.puts e = some k) ∧
    ∀ c e, p < c → pre[c]? = some e → F.takes e ≠ some k

/-- The key `k` holds something after the events `pre`. -/
def Live (pre : List α) (k : κ) : Prop :=
  ∃ p, F.Producer pre k p

/-- The event `e` may follow the events `pre`: it takes what is there, and puts where nothing is
once it has taken. -/
def Fits (pre : List α) (e : α) : Prop :=
  (∀ k, F.takes e = some k → F.Live pre k) ∧
    ∀ k, F.puts e = some k → F.Live pre k → F.takes e = some k

/-- Each event may follow those before it. -/
def Valid (es : List α) : Prop :=
  ∀ pre e post, es = pre ++ e :: post → F.Fits pre e

variable {F} {pre post es : List α} {e : α} {k : κ} {p q : Nat} {m : κ → Option β} {v : Nat → β}

theorem Producer.lt (h : F.Producer pre k p) : p < pre.length := by
  obtain ⟨⟨e, he, -⟩, -⟩ := h
  exact (List.getElem?_eq_some_iff.mp he).1

theorem not_producer_nil : ¬ F.Producer [] k p := fun h => Nat.not_lt_zero _ h.lt

theorem not_live_nil : ¬ F.Live [] k := fun ⟨_, h⟩ => not_producer_nil h

/-- After one more event. -/
theorem producer_append : F.Producer (pre ++ [e]) k p ↔
    (p = pre.length ∧ F.puts e = some k) ∨ (F.Producer pre k p ∧ F.takes e ≠ some k) := by
  constructor
  · rintro ⟨⟨e', he', hputs⟩, hno⟩
    rcases Nat.lt_trichotomy p pre.length with hlt | rfl | hgt
    · refine .inr ⟨⟨⟨e', ?_, hputs⟩, fun c e'' hc he'' => hno c e'' hc ?_⟩, hno pre.length e hlt ?_⟩
      · rwa [List.getElem?_append_left hlt] at he'
      · rwa [List.getElem?_append_left (List.getElem?_eq_some_iff.mp he'').1]
      · rw [List.getElem?_append_right (Nat.le_refl _), Nat.sub_self]
        rfl
    · rw [List.getElem?_append_right (Nat.le_refl _), Nat.sub_self] at he'
      obtain rfl : e = e' := by simpa using he'
      exact .inl ⟨rfl, hputs⟩
    · have hlen := (List.getElem?_eq_some_iff.mp he').1
      simp only [List.length_append, List.length_singleton] at hlen
      omega
  · rintro (⟨rfl, hputs⟩ | ⟨⟨⟨e', he', hputs⟩, hno⟩, htakes⟩)
    · refine ⟨⟨e, ?_, hputs⟩, fun c e' hc he' => ?_⟩
      · rw [List.getElem?_append_right (Nat.le_refl _), Nat.sub_self]
        rfl
      · have hlen := (List.getElem?_eq_some_iff.mp he').1
        simp only [List.length_append, List.length_singleton] at hlen
        omega
    · have hlt := (List.getElem?_eq_some_iff.mp he').1
      refine ⟨⟨e', by rwa [List.getElem?_append_left hlt], hputs⟩, fun c e'' hc he'' => ?_⟩
      rcases Nat.lt_or_ge c pre.length with hlt' | hge
      · exact hno c e'' hc (by rwa [List.getElem?_append_left hlt'] at he'')
      · rw [List.getElem?_append_right hge] at he''
        have hlen := (List.getElem?_eq_some_iff.mp he'').1
        simp only [List.length_singleton] at hlen
        obtain rfl : c = pre.length := by omega
        rw [Nat.sub_self] at he''
        obtain rfl : e = e'' := by simpa using he''
        exact htakes

theorem live_append : F.Live (pre ++ [e]) k ↔
    F.puts e = some k ∨ (F.Live pre k ∧ F.takes e ≠ some k) := by
  constructor
  · rintro ⟨p, hp⟩
    rcases producer_append.mp hp with ⟨-, hputs⟩ | ⟨hp, htakes⟩
    · exact .inl hputs
    · exact .inr ⟨⟨p, hp⟩, htakes⟩
  · rintro (hputs | ⟨⟨p, hp⟩, htakes⟩)
    · exact ⟨pre.length, producer_append.mpr (.inl ⟨rfl, hputs⟩)⟩
    · exact ⟨p, producer_append.mpr (.inr ⟨hp, htakes⟩)⟩

theorem valid_nil : F.Valid [] := fun pre e post h => by simp at h

theorem valid_append : F.Valid (pre ++ [e]) ↔ F.Valid pre ∧ F.Fits pre e := by
  constructor
  · intro h
    refine ⟨fun pre' e' post' heq => h pre' e' (post' ++ [e]) (by rw [heq]; simp), h pre e [] rfl⟩
  · rintro ⟨h, he⟩ pre' e' post' heq
    rcases List.eq_nil_or_concat post' with rfl | ⟨post, e'', rfl⟩
    · obtain ⟨rfl, rfl⟩ : pre = pre' ∧ e = e' := by simpa using List.append_inj' heq rfl
      exact he
    · have heq' : pre ++ [e] = (pre' ++ e' :: post) ++ [e''] := by simpa using heq
      obtain ⟨rfl, -⟩ := List.append_inj' heq' rfl
      exact h pre' e' post rfl

/-- Validity of a prefix. -/
theorem Valid.prefix (h : F.Valid (pre ++ post)) : F.Valid pre := fun pre' e post' heq =>
  h pre' e (post' ++ post) (by rw [heq]; simp)

/-- A key has one producer. -/
theorem Valid.producer_unique (h : F.Valid es) (hp : F.Producer es k p) (hq : F.Producer es k q) :
    p = q := by
  induction es using List.reverseRecOn with
  | nil => exact absurd hp not_producer_nil
  | append_singleton pre e ih =>
    obtain ⟨hpre, -, hfresh⟩ := valid_append.mp h
    rcases producer_append.mp hp with ⟨rfl, hputs⟩ | ⟨hp, htakes⟩ <;>
      rcases producer_append.mp hq with ⟨rfl, hputs'⟩ | ⟨hq, htakes'⟩
    · rfl
    · exact absurd (hfresh k hputs ⟨q, hq⟩) htakes'
    · exact absurd (hfresh k hputs' ⟨p, hp⟩) htakes
    · exact ih hpre hp hq

/-! ## Programs that keep a map of the keys -/

variable (F) in
/-- The map `m` holds what the keys hold after `pre`, when the event at `p` puts `v p`. -/
def Represents (pre : List α) (v : Nat → β) (m : κ → Option β) : Prop :=
  ∀ k b, m k = some b ↔ ∃ p, F.Producer pre k p ∧ v p = b

theorem represents_nil : F.Represents [] v fun _ => none := fun k b => by
  refine iff_of_false (by simp) ?_
  rintro ⟨p, hp, -⟩
  exact not_producer_nil hp

theorem Represents.isSome (h : F.Represents pre v m) : (∃ b, m k = some b) ↔ F.Live pre k := by
  constructor
  · rintro ⟨b, hb⟩
    obtain ⟨p, hp, -⟩ := (h k b).mp hb
    exact ⟨p, hp⟩
  · rintro ⟨p, hp⟩
    exact ⟨v p, (h k (v p)).mpr ⟨p, hp, rfl⟩⟩

theorem Represents.congr {v' : Nat → β} (h : F.Represents pre v m)
    (hv : ∀ p, p < pre.length → v' p = v p) : F.Represents pre v' m := fun k b => by
  rw [h k b]
  refine exists_congr fun p => and_congr_right fun hp => ?_
  rw [hv p hp.lt]

/-- **One more event**: what it takes is gone, and what it puts is there. -/
theorem Represents.append (h : F.Represents pre v m) (he : F.Fits pre e) {m' : κ → Option β}
    (hputs : ∀ k, F.puts e = some k → m' k = some (v pre.length))
    (htakes : ∀ k, F.takes e = some k → F.puts e ≠ some k → m' k = none)
    (hrest : ∀ k, F.takes e ≠ some k → F.puts e ≠ some k → m' k = m k) :
    F.Represents (pre ++ [e]) v m' := by
  intro k b
  by_cases hp : F.puts e = some k
  · rw [hputs k hp]
    constructor
    · intro heq
      exact ⟨pre.length, producer_append.mpr (.inl ⟨rfl, hp⟩), by simpa using heq⟩
    · rintro ⟨p, hprod, rfl⟩
      rcases producer_append.mp hprod with ⟨rfl, -⟩ | ⟨hprod, ht⟩
      · rfl
      · exact absurd (he.2 k hp ⟨p, hprod⟩) ht
  · by_cases ht : F.takes e = some k
    · rw [htakes k ht hp]
      refine iff_of_false (by simp) ?_
      rintro ⟨p, hprod, -⟩
      rcases producer_append.mp hprod with ⟨-, hp'⟩ | ⟨-, ht'⟩
      · exact hp hp'
      · exact ht' ht
    · rw [hrest k ht hp, h k b]
      refine exists_congr fun p => and_congr_left fun _ => ?_
      rw [producer_append]
      exact ⟨fun hprod => .inr ⟨hprod, ht⟩, fun hprod => (hprod.resolve_left fun hc => hp hc.2).1⟩

end Flow

end MallocBench.Lib
