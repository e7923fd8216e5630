import Mathlib

/-!
# Maps

What is found in a map after an insertion or a removal, and what its entries weigh together.
-/

namespace MallocBench.Lib

universe u v w

variable {κ : Type u} {β : Type v}

section Lookup

variable [DecidableEq κ] {m : AList fun _ : κ => β} {x k : κ} {a b : β}

theorem mem_of_lookup (h : m.lookup k = some b) : k ∈ m :=
  AList.lookup_isSome.mp (by rw [h]; rfl)

theorem lookup_erase_eq_some : (m.erase k).lookup x = some a ↔ m.lookup x = some a ∧ x ≠ k := by
  by_cases hne : x = k
  · subst hne
    simp
  · rw [AList.lookup_erase_ne hne]
    simp [hne]

theorem lookup_insert_eq_some : (m.insert k b).lookup x = some a ↔
    (x = k ∧ a = b) ∨ (x ≠ k ∧ m.lookup x = some a) := by
  by_cases hne : x = k
  · subst hne
    simp [eq_comm]
  · rw [AList.lookup_insert_ne hne]
    simp [hne]

theorem erase_of_notMem (h : k ∉ m) : m.erase k = m :=
  AList.ext (List.kerase_of_notMem_keys h)

end Lookup

/-! ## Sums -/

section Sum

variable {M : Type w} [AddCommMonoid M]

/-- The weights of the entries, added up. -/
def mapSum (weight : κ → β → M) (m : AList fun _ : κ => β) : M :=
  (m.entries.map fun entry => weight entry.1 entry.2).sum

@[simp] theorem mapSum_empty (weight : κ → β → M) :
    mapSum weight (∅ : AList fun _ : κ => β) = 0 := rfl

variable [DecidableEq κ] {weight : κ → β → M} {m : AList fun _ : κ => β} {k : κ} {b : β}

/-- What is inserted takes the place of what was there. -/
theorem mapSum_insert : mapSum weight (m.insert k b) = weight k b + mapSum weight (m.erase k) := by
  show ((m.insert k b).entries.map _).sum = _ + ((m.entries.kerase k).map _).sum
  rw [AList.entries_insert, List.map_cons, List.sum_cons]

/-- A new key adds its weight. -/
theorem mapSum_insert_new (h : k ∉ m) :
    mapSum weight (m.insert k b) = weight k b + mapSum weight m := by
  rw [mapSum_insert, erase_of_notMem h]

/-- A key that is removed takes its weight along. -/
theorem mapSum_erase (h : m.lookup k = some b) :
    mapSum weight m = weight k b + mapSum weight (m.erase k) := by
  obtain ⟨b', before, after, -, hentries, herase⟩ :=
    List.exists_of_kerase (AList.mem_keys.mp (mem_of_lookup h))
  have hb : b' = b := by
    have hlookup : m.entries.dlookup k = some b' := by
      refine (List.mem_dlookup_iff m.nodupKeys).mpr ?_
      rw [hentries]
      exact List.mem_append_right _ List.mem_cons_self
    exact Option.some.inj (hlookup.symm.trans h)
  subst hb
  show (m.entries.map _).sum = _ + ((m.entries.kerase k).map _).sum
  rw [herase, hentries]
  simp only [List.map_append, List.map_cons, List.sum_append, List.sum_cons]
  exact add_left_comm ..

end Sum

/-- What is in a sum of multisets comes from an entry. -/
theorem mem_mapSum {α : Type w} [DecidableEq κ] {weight : κ → β → Multiset α}
    {m : AList fun _ : κ => β} {x : α} :
    x ∈ mapSum weight m ↔ ∃ k b, m.lookup k = some b ∧ x ∈ weight k b := by
  have hlist : ∀ l : List (Multiset α), x ∈ l.sum ↔ ∃ s ∈ l, x ∈ s := by
    intro l
    induction l with
    | nil => simp
    | cons s l ih => simp [ih]
  unfold mapSum
  rw [hlist]
  constructor
  · rintro ⟨_, hmem, hx⟩
    obtain ⟨⟨k, b⟩, hentry, rfl⟩ := List.mem_map.mp hmem
    exact ⟨k, b, AList.mem_lookup_iff.mpr hentry, hx⟩
  · rintro ⟨k, b, hlookup, hx⟩
    exact ⟨_, List.mem_map.mpr ⟨⟨k, b⟩, AList.mem_lookup_iff.mp hlookup, rfl⟩, hx⟩

end MallocBench.Lib
