import Mathlib.Data.Finset.Max
import Mathlib.Data.List.Perm.Subperm
import MallocBench.Lib.Maps

/-!
# Reusing the smallest id

Ids are given out from 0 on; an id that has been given back is given out again before new ones,
the smallest first. `Partition` says that the ids below `next` are divided between the pool and
those in use, and `Numbers` that those in use are those of the keys of a map.
-/

namespace MallocBench.Lib

universe u v

/-- The ids from `next` on have never been given out, those in `free` have been given back. -/
structure IdPool where
  next : Nat
  free : Finset Nat
deriving DecidableEq

namespace IdPool

/-- No id has been given out. -/
def empty : IdPool := { next := 0, free := ∅ }

/-- An id that has never been given out. -/
def fresh (pool : IdPool) : Nat × IdPool :=
  (pool.next, { pool with next := pool.next + 1 })

/-- The smallest id that is free. -/
def take (pool : IdPool) : Nat × IdPool :=
  if h : pool.free.Nonempty then
    (pool.free.min' h, { pool with free := pool.free.erase (pool.free.min' h) })
  else pool.fresh

/-- An id is given back. -/
def give (pool : IdPool) (id : Nat) : IdPool :=
  { pool with free := insert id pool.free }

/-- The ids given out so far are either free or in use. -/
structure Partition (pool : IdPool) (used : Nat → Prop) : Prop where
  lt_next : ∀ i, i < pool.next ↔ i ∈ pool.free ∨ used i
  disjoint : ∀ i, i ∈ pool.free → ¬ used i

variable {pool : IdPool} {used used' : Nat → Prop} {i id : Nat}

@[simp] theorem give_next : (pool.give id).next = pool.next := rfl

@[simp] theorem mem_give : i ∈ (pool.give id).free ↔ i = id ∨ i ∈ pool.free := Finset.mem_insert

namespace Partition

theorem empty (h : ∀ i, ¬ used i) : Partition empty used :=
  ⟨fun i => by simp [IdPool.empty, h i], fun i hi => by simp [IdPool.empty] at hi⟩

theorem congr (h : Partition pool used) (hused : ∀ i, used' i ↔ used i) : Partition pool used' :=
  ⟨fun i => by rw [h.lt_next, hused], fun i hi => by rw [hused]; exact h.disjoint i hi⟩

theorem used_lt (h : Partition pool used) (hi : used i) : i < pool.next :=
  (h.lt_next i).mpr (.inr hi)

theorem next_unused (h : Partition pool used) : ¬ used pool.next := fun hc =>
  Nat.lt_irrefl _ (h.used_lt hc)

/-- An id that has never been given out is used now. -/
theorem fresh (h : Partition pool used) :
    Partition pool.fresh.2 fun i => used i ∨ i = pool.fresh.1 := by
  refine ⟨fun i => ?_, fun i hi => ?_⟩
  · show i < pool.next + 1 ↔ i ∈ pool.free ∨ used i ∨ i = pool.next
    rw [Nat.lt_succ_iff_lt_or_eq, h.lt_next, or_assoc]
  · have hi : i ∈ pool.free := hi
    rintro (hu | rfl)
    · exact h.disjoint i hi hu
    · exact Nat.lt_irrefl _ ((h.lt_next _).mpr (.inl hi))

/-- **Taking an id**: it was not in use, and all smaller ones are. -/
theorem take (h : Partition pool used) : ¬ used pool.take.1 ∧ (∀ j, j < pool.take.1 → used j) ∧
    Partition pool.take.2 fun i => used i ∨ i = pool.take.1 := by
  unfold IdPool.take
  split_ifs with hne
  · have hmem := pool.free.min'_mem hne
    refine ⟨h.disjoint _ hmem, fun j hj => ?_, fun i => ?_, fun i hi => ?_⟩
    · have hlt := (h.lt_next j).mp (Nat.lt_trans hj ((h.lt_next _).mpr (.inl hmem)))
      exact hlt.resolve_left fun hc => Nat.not_lt.mpr (pool.free.min'_le j hc) hj
    · rw [Finset.mem_erase]
      show i < pool.next ↔ _
      rw [h.lt_next]
      constructor
      · rintro (hf | hu)
        · by_cases heq : i = pool.free.min' hne
          · exact .inr (.inr heq)
          · exact .inl ⟨heq, hf⟩
        · exact .inr (.inl hu)
      · rintro (⟨-, hf⟩ | hu | heq)
        · exact .inl hf
        · exact .inr hu
        · exact .inl (heq ▸ hmem)
    · obtain ⟨hne', hf⟩ := Finset.mem_erase.mp hi
      rintro (hu | heq)
      · exact h.disjoint i hf hu
      · exact hne' heq
  · refine ⟨h.next_unused, fun j hj => ?_, h.fresh⟩
    have hempty : pool.free = ∅ := Finset.not_nonempty_iff_eq_empty.mp hne
    have := (h.lt_next j).mp hj
    rw [hempty] at this
    simpa using this

/-- The id that is taken is at most the next new one. -/
theorem take_next (h : Partition pool used) :
    pool.take.1 < pool.take.2.next ∧ pool.next ≤ pool.take.2.next ∧
      pool.take.2.next ≤ pool.next + 1 ∧ (pool.free.Nonempty → pool.take.2.next = pool.next) := by
  unfold IdPool.take
  split_ifs with hne
  · exact ⟨(h.lt_next _).mpr (.inl (pool.free.min'_mem hne)), Nat.le_refl _, Nat.le_succ _, fun _ => rfl⟩
  · exact ⟨Nat.lt_succ_self _, Nat.le_succ _, Nat.le_refl _, fun hc => absurd hc hne⟩

/-- An id in use is given back. -/
theorem give (h : Partition pool used) (hid : used id) :
    Partition (pool.give id) fun i => used i ∧ i ≠ id := by
  refine ⟨fun i => ?_, fun i hi => ?_⟩
  · rw [give_next, mem_give, h.lt_next]
    by_cases heq : i = id
    · subst heq
      exact iff_of_true (.inr hid) (.inl (.inl rfl))
    · simp [heq]
  · rintro ⟨hu, hne⟩
    exact h.disjoint i ((mem_give.mp hi).resolve_left hne) hu

end Partition

/-! ## Numbering the keys of a map -/

section

variable {κ : Type u} [DecidableEq κ] {ids : AList fun _ : κ => Nat} {x k : κ}

/-- The ids in use are those of the keys, and no two keys have the same. -/
structure Numbers (pool : IdPool) (ids : AList fun _ : κ => Nat) : Prop where
  partition : pool.Partition fun i => ∃ k, ids.lookup k = some i
  inj : ∀ k k' i, ids.lookup k = some i → ids.lookup k' = some i → k = k'

namespace Numbers

theorem empty : Numbers IdPool.empty (∅ : AList fun _ : κ => Nat) := by
  refine ⟨.empty fun i => ?_, fun k k' i hk => ?_⟩
  · rintro ⟨k, hk⟩
    simp at hk
  · simp at hk

/-- A key gives its id back. -/
theorem erase (h : Numbers pool ids) (hk : ids.lookup k = some i) :
    Numbers (pool.give i) (ids.erase k) := by
  refine ⟨(h.partition.give ⟨k, hk⟩).congr fun j => ?_, fun k₁ k₂ j h₁ h₂ => ?_⟩
  · simp only [lookup_erase_eq_some]
    constructor
    · rintro ⟨x, hx, hne⟩
      exact ⟨⟨x, hx⟩, fun hc => hne (h.inj x k j hx (by rw [hk, hc]))⟩
    · rintro ⟨⟨x, hx⟩, hne⟩
      refine ⟨x, hx, ?_⟩
      rintro rfl
      rw [hk] at hx
      exact hne (by simpa using hx.symm)
  · exact h.inj k₁ k₂ j (lookup_erase_eq_some.mp h₁).1 (lookup_erase_eq_some.mp h₂).1

/-- A new key gets an id that is not in use. -/
theorem take (h : Numbers pool ids) (hk : k ∉ ids) :
    Numbers pool.take.2 (ids.insert k pool.take.1) := by
  obtain ⟨hunused, -, hpool⟩ := h.partition.take
  generalize pool.take.1 = id at *
  refine ⟨hpool.congr fun i => ?_, fun k₁ k₂ i h₁ h₂ => ?_⟩
  · simp only [lookup_insert_eq_some]
    constructor
    · rintro ⟨x, ⟨-, rfl⟩ | ⟨-, hx⟩⟩
      · exact .inr rfl
      · exact .inl ⟨x, hx⟩
    · rintro (⟨x, hx⟩ | rfl)
      · refine ⟨x, .inr ⟨?_, hx⟩⟩
        rintro rfl
        exact hk (mem_of_lookup hx)
      · exact ⟨k, .inl ⟨rfl, rfl⟩⟩
  · rcases lookup_insert_eq_some.mp h₁ with ⟨rfl, rfl⟩ | ⟨-, hold₁⟩ <;>
      rcases lookup_insert_eq_some.mp h₂ with ⟨rfl, heq⟩ | ⟨-, hold₂⟩
    · rfl
    · exact absurd ⟨_, hold₂⟩ hunused
    · subst heq
      exact absurd ⟨_, hold₁⟩ hunused
    · exact h.inj k₁ k₂ i hold₁ hold₂

theorem nodup (h : Numbers pool ids) : (ids.entries.map Sigma.snd).Nodup := by
  refine List.Nodup.map_on ?_ ids.nodupKeys.nodup
  rintro ⟨k, i⟩ hk ⟨k', i'⟩ hk' rfl
  rw [h.inj k k' i (AList.mem_lookup_iff.mpr hk) (AList.mem_lookup_iff.mpr hk')]

/-- All ids below the one that is taken are in use, so there are as many keys. -/
theorem take_le_length (h : Numbers pool ids) : pool.take.1 ≤ ids.keys.length := by
  obtain ⟨-, hused, -⟩ := h.partition.take
  have hsub : List.range pool.take.1 ⊆ ids.entries.map Sigma.snd := by
    intro j hj
    obtain ⟨k, hk⟩ := hused j (List.mem_range.mp hj)
    exact List.mem_map.mpr ⟨⟨k, j⟩, AList.mem_lookup_iff.mp hk, rfl⟩
  have hle := (List.nodup_range.subperm hsub).length_le
  rw [List.length_range, List.length_map] at hle
  exact hle.trans_eq (List.length_map ..).symm

end Numbers

end

end IdPool

end MallocBench.Lib
