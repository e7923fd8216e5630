import MallocBench.Lib.Links
import MallocBench.Slab.Access
import MallocBench.Slab.Medium
import MallocBench.Slab.Tiny
import Mathlib.Data.List.Perm.Subperm

/-!
# The small and medium bins as linked lists

Both are arrays of null-terminated lists whose first node points back to a
header, placed so that the bin is the header's `next` field: the list of packed
slabs of one size class with room left, and the list of free medium blocks of
one size. The two kinds share everything but the place of the links.
-/

namespace MallocBench.Slab

open Lib

/-- A family of null-terminated lists in the heap: where its links are, how many
lists there are, the headers and the possible nodes. -/
structure NullList where
  cells : Cells Nat
  num : Nat
  /-- header `i`, for the heap at the first argument -/
  hd : Nat → Nat → Nat
  node : Nat → Nat → Prop

/-- The links of packed slabs: `next_p` and `prev_p`. -/
def smallList : NullList where
  cells := ⟨(· + 8), (· + 16), (· ≠ 0)⟩
  num := 23
  hd h i := smallBin h i - 8
  node h x := x % 4096 = 0 ∧ h + 4096 ≤ x

/-- The links of free medium blocks: `next` and `prev`. -/
def mediumList : NullList where
  cells := ⟨fun x => x, (· + 8), (· ≠ 0)⟩
  num := 224
  hd h i := mediumBin h i
  node h x := x % 16 = 0 ∧ h + 4096 ≤ x

namespace NullList

/-- The lists of kind `K` of the heap at `h`, with the members `bins`. -/
abbrev InMem (K : NullList) (h : Nat) (m : Nat → Nat) (bins : Nat → List Nat) : Prop :=
  Bins K.cells (· < K.num) (K.hd h) (fun _ => 0) (K.node h) m bins

/-- A link cell. -/
abbrev Cell (K : NullList) (h : Nat) (bins : Nat → List Nat) (x : Nat) : Prop :=
  Bins.Cell K.cells (· < K.num) (K.hd h) (fun _ => 0) bins x

/-- The cells do not overlap, and lie in the heap. -/
structure Good (K : NullList) (h : Nat) : Prop where
  layout : Layout K.cells (· < K.num) (K.hd h) (fun _ => 0) (K.node h)
  back : ∀ x, K.cells.back x ↔ x ≠ 0
  /-- the bin array lies in the first page -/
  hd_next : ∀ i, i < K.num → h ≤ K.cells.next (K.hd h i) ∧
    K.cells.next (K.hd h i) + 8 ≤ h + 4096 ∧ K.cells.next (K.hd h i) % 8 = 0
  node_next : ∀ x, K.node h x → x ≤ K.cells.next x ∧ K.cells.next x ≤ x + 16 ∧
    K.cells.next x % 8 = 0
  node_prev : ∀ x, K.node h x → x ≤ K.cells.prev x ∧ K.cells.prev x ≤ x + 16 ∧
    K.cells.prev x % 8 = 0
  node_ge : ∀ x, K.node h x → h + 4096 ≤ x

theorem good_small {h : Nat} (hbase : h % 4096 = 0) (hpos : 0 < h) : smallList.Good h := by
  have hhd : ∀ i, smallList.hd h i + 8 = h + 2048 + 8 * i := by
    intro i
    simp only [smallList, smallBin]
    omega
  refine ⟨⟨?_, ?_, ?_, ?_, ?_, ?_, ?_, ?_, ?_, ?_, ?_⟩, fun x => Iff.rfl, ?_, ?_, ?_, ?_⟩
  · exact fun a b hab => Nat.add_right_cancel (m := 8) hab
  · exact fun a b hab => Nat.add_right_cancel (m := 16) hab
  · intro a b ha hb
    show a + 8 ≠ b + 16
    simp only [smallList] at ha hb
    omega
  · intro i b hi hb
    show smallList.hd h i + 8 ≠ b + 16
    have := hhd i
    simp only [smallList] at hi hb this ⊢
    omega
  · exact fun a i _ _ hback => absurd rfl hback
  · exact fun i j _ _ hback => absurd rfl hback
  · intro i j _ _ hij
    have := hhd i
    have := hhd j
    omega
  · intro i hi hn
    have := hhd i
    simp only [smallList] at hi hn this
    omega
  · intro i hi hn
    simp only [smallList] at hn
    omega
  · exact fun i j _ _ hback => absurd rfl hback
  · intro a ha
    simp only [smallList] at ha
    show a ≠ 0
    omega
  · intro i hi
    show h ≤ smallList.hd h i + 8 ∧ smallList.hd h i + 8 + 8 ≤ h + 4096 ∧ _
    rw [show smallList.cells.next (smallList.hd h i) = smallList.hd h i + 8 from rfl, hhd i]
    simp only [smallList] at hi
    omega
  · intro x hx
    simp only [smallList] at hx ⊢
    omega
  · intro x hx
    simp only [smallList] at hx ⊢
    omega
  · exact fun x hx => hx.2

theorem good_medium {h : Nat} (hbase : h % 4096 = 0) (hpos : 0 < h) : mediumList.Good h := by
  have hhd : ∀ i, mediumList.hd h i = h + 2232 + 8 * i := fun i => rfl
  refine ⟨⟨?_, ?_, ?_, ?_, ?_, ?_, ?_, ?_, ?_, ?_, ?_⟩, fun x => Iff.rfl, ?_, ?_, ?_, ?_⟩
  · exact fun a b hab => hab
  · exact fun a b hab => Nat.add_right_cancel (m := 8) hab
  · intro a b ha hb
    show a ≠ b + 8
    simp only [mediumList] at ha hb
    omega
  · intro i b hi hb
    show mediumList.hd h i ≠ b + 8
    rw [hhd]
    simp only [mediumList] at hi hb
    omega
  · exact fun a i _ _ hback => absurd rfl hback
  · exact fun i j _ _ hback => absurd rfl hback
  · intro i j _ _ hij
    rw [hhd, hhd] at hij
    omega
  · intro i hi hn
    rw [hhd] at hn
    simp only [mediumList] at hi hn
    omega
  · intro i hi hn
    simp only [mediumList] at hn
    omega
  · exact fun i j _ _ hback => absurd rfl hback
  · intro a ha
    simp only [mediumList] at ha
    show a ≠ 0
    omega
  · intro i hi
    rw [show mediumList.cells.next (mediumList.hd h i) = mediumList.hd h i from rfl, hhd i]
    simp only [mediumList] at hi
    omega
  · intro x hx
    simp only [mediumList] at hx ⊢
    omega
  · intro x hx
    simp only [mediumList] at hx ⊢
    omega
  · exact fun x hx => hx.2

end NullList

/-- The lists of kind `K` in the state `s`; `inRange` keeps the links of members
in the heap. -/
structure NullLists (K : NullList) (s : Heap) (bins : Nat → List Nat) : Prop where
  good : K.Good s.heap
  room : s.heap + 4096 ≤ s.brk
  lists : K.InMem s.heap s.mem bins
  inRange : ∀ i x, i < K.num → x ∈ bins i → x + 32 ≤ s.brk

namespace NullLists

variable {K : NullList} {s t : Heap} {bins : Nat → List Nat} {i y : Nat}

/-- Empty lists. -/
theorem empty (hgood : K.Good s.heap) (hroom : s.heap + 4096 ≤ s.brk)
    (h0 : ∀ i, i < K.num → s.mem (K.cells.next (K.hd s.heap i)) = 0) :
    NullLists K s fun _ => [] := by
  refine ⟨hgood, hroom, ⟨fun i hi => ?_, by simp, by simp, by simp⟩, by simp⟩
  refine Cells.links_cons_cons.mpr ⟨⟨h0 i hi, fun hb => ?_⟩, List.isChain_singleton _⟩
  exact absurd rfl ((hgood.back 0).mp hb)

theorem valid_next (h : NullLists K s bins) {x : Nat} (hi : i < K.num)
    (hx : x = K.hd s.heap i ∨ x ∈ bins i) : s.Valid (K.cells.next x) := by
  rcases hx with rfl | hx
  · obtain ⟨h₁, h₂, h₃⟩ := h.good.hd_next i hi
    have := h.room
    exact ⟨h₁, by omega, h₃⟩
  · have hn := h.lists.node i x hi hx
    obtain ⟨h₁, h₂, h₃⟩ := h.good.node_next x hn
    have := h.good.node_ge x hn
    have := h.inRange i x hi hx
    exact ⟨by omega, by omega, h₃⟩

theorem valid_prev (h : NullLists K s bins) {x : Nat} (hi : i < K.num) (hx : x ∈ bins i) :
    s.Valid (K.cells.prev x) := by
  have hn := h.lists.node i x hi hx
  obtain ⟨h₁, h₂, h₃⟩ := h.good.node_prev x hn
  have := h.good.node_ge x hn
  have := h.inRange i x hi hx
  exact ⟨by omega, by omega, h₃⟩

/-- Link cells are bins, or links of members. -/
theorem cell_cases (h : NullLists K s bins) {a : Nat} (ha : K.Cell s.heap bins a) :
    (∃ i, i < K.num ∧ a = K.cells.next (K.hd s.heap i)) ∨
      ∃ i y, i < K.num ∧ y ∈ bins i ∧ (a = K.cells.next y ∨ a = K.cells.prev y) := by
  obtain ⟨i, hi, ⟨y, rfl | hy, rfl⟩ | ⟨y, rfl | hy, hb, rfl⟩⟩ := ha
  · exact .inl ⟨i, hi, rfl⟩
  · exact .inr ⟨i, y, hi, hy, .inl rfl⟩
  · exact absurd rfl ((h.good.back 0).mp hb)
  · exact .inr ⟨i, y, hi, hy, .inr rfl⟩

theorem congr (h : NullLists K s bins) (hheap : t.heap = s.heap) (hbrk : s.brk ≤ t.brk)
    (hcell : ∀ a, K.Cell s.heap bins a → t.mem a = s.mem a) : NullLists K t bins := by
  refine ⟨?_, ?_, ?_, fun i x hi hx => (h.inRange i x hi hx).trans hbrk⟩
  · rw [hheap]
    exact h.good
  · rw [hheap]
    exact h.room.trans hbrk
  · rw [hheap]
    exact h.lists.congr hcell

/-- The end of a list is no member. -/
theorem zero_not_mem (h : NullLists K s bins) (hi : i < K.num) : 0 ∉ bins i := by
  intro h0
  have := h.good.node_ge 0 (h.lists.node i 0 hi h0)
  omega

/-- The bin holds the first member, or 0. -/
theorem first (h : NullLists K s bins) (hi : i < K.num) {z : Nat} {post : List Nat}
    (hz : bins i ++ [0] = z :: post) : s.mem (K.cells.next (K.hd s.heap i)) = z :=
  h.lists.first hi hz

/-! ## The two edits -/

/-- The lists after `y` has been taken out between `x` and `z`. -/
theorem unlinked (h : NullLists K s bins) (hi : i < K.num) {l₁ l₂ pre post : List Nat}
    {x z : Nat} (hb : bins i = l₁ ++ y :: l₂) (hx : K.hd s.heap i :: l₁ = pre ++ [x])
    (hz : l₂ ++ [0] = z :: post) {m' : Nat → Nat} (hmx : m' (K.cells.next x) = z)
    (hmz : z ≠ 0 → m' (K.cells.prev z) = x)
    (hag : ∀ a, a ≠ K.cells.next x → (z ≠ 0 → a ≠ K.cells.prev z) → m' a = s.mem a) :
    NullLists K { s with mem := m' } (Function.update bins i (l₁ ++ l₂)) ∧
      ∀ a, ¬ K.Cell s.heap (Function.update bins i (l₁ ++ l₂)) a → m' a = s.mem a := by
  have hsub : ∀ a, a ∈ l₁ ++ l₂ → a ∈ bins i := by
    intro a ha
    rw [hb]
    simp only [List.mem_append, List.mem_cons] at ha ⊢
    tauto
  have hxm : x = K.hd s.heap i ∨ x ∈ l₁ := by
    have : x ∈ K.hd s.heap i :: l₁ := by rw [hx]; simp
    exact List.mem_cons.mp this
  have hzm : z = 0 ∨ z ∈ l₂ := by
    have : z ∈ l₂ ++ [0] := by rw [hz]; simp
    rcases List.mem_append.mp this with hm | hm
    · exact .inr hm
    · exact .inl (List.mem_singleton.mp hm)
  refine ⟨⟨h.good, h.room, ?_, fun j a hj ha => ?_⟩, fun a ha => hag a ?_ fun hz0 => ?_⟩
  · exact h.lists.unlink h.good.layout hi hb hx hz hmx (fun hb => hmz ((h.good.back z).mp hb))
      (fun a h₁ h₂ => hag a h₁ fun hz0 => h₂ ((h.good.back z).mpr hz0))
  · by_cases hji : j = i
    · subst hji
      rw [Function.update_self] at ha
      exact h.inRange j a hj (hsub a ha)
    · rw [Function.update_of_ne hji] at ha
      exact h.inRange j a hj ha
  · rintro rfl
    refine ha ⟨i, hi, .inl ⟨x, ?_, rfl⟩⟩
    rw [Function.update_self]
    exact hxm.imp_right (List.mem_append_left _)
  · rintro rfl
    refine ha ⟨i, hi, .inr ⟨z, ?_, (h.good.back z).mpr hz0, rfl⟩⟩
    rw [Function.update_self]
    exact hzm.imp_right (List.mem_append_right _)

/-- The lists after the new node `y` has been put in front of `z`. -/
theorem pushed (h : NullLists K s bins) (hi : i < K.num) {post : List Nat} {z : Nat}
    (hz : bins i ++ [0] = z :: post) (hy : K.node s.heap y) (hroom : y + 32 ≤ s.brk)
    (hfresh : ∀ j, j < K.num → y ∉ bins j) {m' : Nat → Nat}
    (hmx : m' (K.cells.next (K.hd s.heap i)) = y) (hmz : z ≠ 0 → m' (K.cells.prev z) = y)
    (hmn : m' (K.cells.next y) = z) (hmp : m' (K.cells.prev y) = K.hd s.heap i)
    (hag : ∀ a, a ≠ K.cells.next (K.hd s.heap i) → (z ≠ 0 → a ≠ K.cells.prev z) →
      a ≠ K.cells.next y → a ≠ K.cells.prev y → m' a = s.mem a) :
    NullLists K { s with mem := m' } (Function.update bins i (y :: bins i)) ∧
      ∀ a, ¬ K.Cell s.heap (Function.update bins i (y :: bins i)) a → m' a = s.mem a := by
  have hzm : z = 0 ∨ z ∈ bins i := by
    have : z ∈ bins i ++ [0] := by rw [hz]; simp
    rcases List.mem_append.mp this with hm | hm
    · exact .inr hm
    · exact .inl (List.mem_singleton.mp hm)
  have hback : K.cells.back y := h.good.layout.back_node y hy
  refine ⟨⟨h.good, h.room, ?_, fun j a hj ha => ?_⟩, fun a ha => hag a ?_ (fun hz0 => ?_) ?_ ?_⟩
  · exact h.lists.link h.good.layout hi (List.nil_append _).symm (List.nil_append [_]).symm hz hy hfresh hmx
      (fun hb => hmz ((h.good.back z).mp hb)) hmn hmp
      (fun a h₁ h₂ h₃ h₄ => hag a h₁ (fun hz0 => h₂ ((h.good.back z).mpr hz0)) h₃ h₄)
  · by_cases hji : j = i
    · subst hji
      rw [Function.update_self] at ha
      rcases List.mem_cons.mp ha with rfl | ha
      · exact hroom
      · exact h.inRange j a hj ha
    · rw [Function.update_of_ne hji] at ha
      exact h.inRange j a hj ha
  · rintro rfl
    exact ha ⟨i, hi, .inl ⟨_, .inl rfl, rfl⟩⟩
  · rintro rfl
    refine ha ⟨i, hi, .inr ⟨z, ?_, (h.good.back z).mpr hz0, rfl⟩⟩
    rw [Function.update_self]
    exact hzm.imp_right (List.mem_cons_of_mem _)
  · rintro rfl
    exact ha ⟨i, hi, .inl ⟨y, by rw [Function.update_self]; simp, rfl⟩⟩
  · rintro rfl
    exact ha ⟨i, hi, .inr ⟨y, by rw [Function.update_self]; simp, hback, rfl⟩⟩

/-- The cells around a new node do not overlap. -/
theorem cells_fresh (h : NullLists K s bins) (hi : i < K.num) {x : Nat}
    (hx : x = K.hd s.heap i ∨ x ∈ bins i) (hy : K.node s.heap y)
    (hfresh : ∀ j, j < K.num → y ∉ bins j) : K.cells.next x ≠ K.cells.next y ∧
      K.cells.next x ≠ K.cells.prev y := by
  have hxy : x ≠ y := by
    rintro rfl
    rcases hx with rfl | hx
    · exact h.good.layout.hd_not_node i hi hy
    · exact hfresh i hi hx
  refine ⟨fun heq => hxy (h.good.layout.next_inj _ _ heq), ?_⟩
  rcases hx with rfl | hx
  · exact h.good.layout.hd_next_ne_prev i y hi hy
  · exact h.good.layout.next_ne_prev x y (h.lists.node i x hi hx) hy

theorem prev_fresh (h : NullLists K s bins) (hi : i < K.num) {z : Nat} (hz : z ∈ bins i)
    (hy : K.node s.heap y) (hfresh : ∀ j, j < K.num → y ∉ bins j) :
    K.cells.prev z ≠ K.cells.next y ∧ K.cells.prev z ≠ K.cells.prev y := by
  refine ⟨(h.good.layout.next_ne_prev y z hy (h.lists.node i z hi hz)).symm, fun heq => ?_⟩
  have := h.good.layout.prev_inj _ _ heq
  exact hfresh i hi (this ▸ hz)

end NullLists

/-- The spec shared by the two unlink operations: `y` leaves its list. -/
def UnlinkPost (K : NullList) (s : Heap) (bins : Nat → List Nat) (y : Nat) (t : Heap) : Prop :=
  ∃ m' bins', t = { s with mem := m' } ∧ NullLists K { s with mem := m' } bins' ∧
    (∀ j x, j < K.num → (x ∈ bins' j ↔ x ∈ bins j ∧ x ≠ y)) ∧
    ∀ a, ¬ K.Cell s.heap bins' a → m' a = s.mem a

/-- The spec shared by the two link operations: `y` is put in front of list `i`. -/
def LinkedPost (K : NullList) (s : Heap) (bins : Nat → List Nat) (y i : Nat) (t : Heap) : Prop :=
  ∃ m' bins', t = { s with mem := m' } ∧ NullLists K { s with mem := m' } bins' ∧
    (∀ j x, j < K.num → (x ∈ bins' j ↔ x ∈ bins j ∨ (j = i ∧ x = y))) ∧
    ∀ a, ¬ K.Cell s.heap bins' a → m' a = s.mem a

section

variable {K : NullList} {s : Heap} {bins : Nat → List Nat} {i y : Nat}

theorem NullLists.unlinkPost (h : NullLists K s bins) (hi : i < K.num)
    {l₁ l₂ pre post : List Nat} {x z : Nat} (hb : bins i = l₁ ++ y :: l₂)
    (hx : K.hd s.heap i :: l₁ = pre ++ [x]) (hz : l₂ ++ [0] = z :: post) {m' : Nat → Nat}
    (hmx : m' (K.cells.next x) = z) (hmz : z ≠ 0 → m' (K.cells.prev z) = x)
    (hag : ∀ a, a ≠ K.cells.next x → (z ≠ 0 → a ≠ K.cells.prev z) → m' a = s.mem a) :
    UnlinkPost K s bins y { s with mem := m' } := by
  obtain ⟨hlists, hm⟩ := h.unlinked hi hb hx hz hmx hmz hag
  refine ⟨m', _, rfl, hlists, fun j a hj => ?_, hm⟩
  by_cases hji : j = i
  · subst hji
    have hnd := h.lists.nodup j hj
    rw [hb] at hnd
    have hnot := (List.nodup_cons.mp (List.nodup_middle.mp hnd)).1
    rw [Function.update_self, hb]
    simp only [List.mem_append, List.mem_cons] at hnot ⊢
    constructor
    · intro ha
      exact ⟨by tauto, fun heq => hnot (heq ▸ ha)⟩
    · rintro ⟨ha, hne⟩
      tauto
  · rw [Function.update_of_ne hji]
    refine ⟨fun ha => ⟨ha, ?_⟩, And.left⟩
    rintro rfl
    exact hji (h.lists.disjoint j i a hj hi ha (by rw [hb]; simp))

theorem NullLists.linkedPost (h : NullLists K s bins) (m' : Nat → Nat) (hi : i < K.num)
    {post : List Nat} {z : Nat} (hz : bins i ++ [0] = z :: post) (hy : K.node s.heap y)
    (hroom : y + 32 ≤ s.brk) (hfresh : ∀ j, j < K.num → y ∉ bins j)
    (hmx : m' (K.cells.next (K.hd s.heap i)) = y) (hmz : z ≠ 0 → m' (K.cells.prev z) = y)
    (hmn : m' (K.cells.next y) = z) (hmp : m' (K.cells.prev y) = K.hd s.heap i)
    (hag : ∀ a, a ≠ K.cells.next (K.hd s.heap i) → (z ≠ 0 → a ≠ K.cells.prev z) →
      a ≠ K.cells.next y → a ≠ K.cells.prev y → m' a = s.mem a) :
    LinkedPost K s bins y i { s with mem := m' } := by
  obtain ⟨hlists, hm⟩ := h.pushed hi hz hy hroom hfresh hmx hmz hmn hmp hag
  refine ⟨m', _, rfl, hlists, fun j a hj => ?_, hm⟩
  by_cases hji : j = i
  · subst hji
    rw [Function.update_self]
    simp only [List.mem_cons, true_and]
    tauto
  · rw [Function.update_of_ne hji]
    simp [hji]

/-- The neighbours of a member, as the unlink operations read them. -/
theorem NullLists.member (h : NullLists K s bins) (hi : i < K.num) (hy : y ∈ bins i) :
    ∃ l₁ l₂ pre post x z, bins i = l₁ ++ y :: l₂ ∧ K.hd s.heap i :: l₁ = pre ++ [x] ∧
      l₂ ++ [0] = z :: post ∧ s.mem (K.cells.next y) = z ∧ s.mem (K.cells.prev y) = x ∧
      (x = K.hd s.heap i ∨ x ∈ bins i) ∧ (z = 0 ∨ z ∈ bins i) := by
  obtain ⟨l₁, l₂, hb⟩ := List.append_of_mem hy
  obtain ⟨pre, x, hx, hxm⟩ := Cells.exists_pred (K.hd s.heap i) l₁
  obtain ⟨z, post, hz, hzm⟩ := Cells.exists_succ l₂ 0
  obtain ⟨hn, hp⟩ := h.lists.neighbours h.good.layout hi hb hx hz
  refine ⟨l₁, l₂, pre, post, x, z, hb, hx, hz, hn, hp, hxm.imp_right fun hm => ?_,
    hzm.imp_right fun hm => ?_⟩
  · rw [hb]
    exact List.mem_append_left _ hm
  · rw [hb]
    exact List.mem_append_right _ (List.mem_cons_of_mem _ hm)

/-! ## The operations of `mm.c` -/

theorem smallList_hd (h i : Nat) : smallList.hd h i + 8 = smallBin h i := by
  simp only [smallList, smallBin]
  omega

/-- **`small_bin_unlink`** -/
theorem smallBinUnlink_spec (h : NullLists smallList s bins) (hi : i < 23) (hy : y ∈ bins i) :
    wp (smallBinUnlink y) (fun _ t => UnlinkPost smallList s bins y t) s := by
  obtain ⟨l₁, l₂, pre, post, x, z, hb, hx, hz, hn, hp, hxm, hzm⟩ := h.member hi hy
  have hvx : s.Valid (x + 8) := h.valid_next hi hxm
  have hvn : s.Valid (y + 8) := h.valid_next hi (.inr hy)
  have hvp : s.Valid (y + 16) := h.valid_prev hi hy
  replace hn : s.mem (y + 8) = z := hn
  replace hp : s.mem (y + 16) = x := hp
  unfold smallBinUnlink
  simp only [wp_bind, wp_load64, wp_store64, wp_ite, wp_pure, hn, hp]
  refine ⟨hvn, hvp, hvx, ?_⟩
  by_cases hz0 : z ≠ 0
  · have hzb : z ∈ bins i := hzm.resolve_left hz0
    have hne : x + 8 ≠ z + 16 := h.lists.next_cell_ne_prev_cell h.good.layout hi hi hxm
      (.inr hzb) ((h.good.back z).mpr hz0)
    rw [if_pos hz0]
    refine ⟨h.valid_prev hi hzb, h.unlinkPost hi hb hx hz ?_ (fun _ => ?_) fun a h₁ h₂ => ?_⟩
    · show Function.update (Function.update s.mem (x + 8) z) (z + 16) x (x + 8) = z
      rw [Function.update_of_ne hne, Function.update_self]
    · exact Function.update_self _ _ _
    · have h₁' : a ≠ x + 8 := h₁
      have h₂' : a ≠ z + 16 := h₂ hz0
      show Function.update (Function.update s.mem (x + 8) z) (z + 16) x a = s.mem a
      rw [Function.update_of_ne h₂', Function.update_of_ne h₁']
  · rw [if_neg hz0]
    refine h.unlinkPost hi hb hx hz ?_ (fun h0 => absurd h0 hz0) fun a h₁ _ => ?_
    · exact Function.update_self _ _ _
    · exact Function.update_of_ne h₁ _ _

/-- **`__small_bin_link`** -/
theorem _smallBinLink_spec (h : NullLists smallList s bins) (hi : i < 23)
    (hy : smallList.node s.heap y) (hroom : y + 32 ≤ s.brk)
    (hfresh : ∀ j, j < 23 → y ∉ bins j) :
    wp (_smallBinLink (smallBin s.heap i) y) (fun _ t => LinkedPost smallList s bins y i t) s := by
  obtain ⟨z, post, hz, hzm⟩ := Cells.exists_succ (bins i) 0
  have hhd := smallList_hd s.heap i
  obtain ⟨hyn, hyp⟩ := h.cells_fresh hi (.inl rfl) hy hfresh
  replace hyn : smallBin s.heap i ≠ y + 8 := hhd ▸ hyn
  replace hyp : smallBin s.heap i ≠ y + 16 := hhd ▸ hyp
  have hfirst : s.mem (smallBin s.heap i) = z := hhd ▸ h.first hi hz
  have hvb : s.Valid (smallBin s.heap i) := hhd ▸ h.valid_next hi (.inl rfl)
  obtain ⟨hn₁, hn₂, hn₃⟩ := h.good.node_next y hy
  obtain ⟨hp₁, hp₂, hp₃⟩ := h.good.node_prev y hy
  have hge := h.good.node_ge y hy
  have hvn : s.Valid (y + 8) := ⟨by omega, by omega, hn₃⟩
  have hvp : s.Valid (y + 16) := ⟨by omega, by omega, hp₃⟩
  have hstart : smallBinStart (smallBin s.heap i) = smallList.hd s.heap i := rfl
  unfold _smallBinLink
  simp only [wp_bind, wp_load64, wp_store64, wp_ite, wp_pure, hfirst, hstart]
  refine ⟨hvb, hvp, hvn, hvb, ?_⟩
  by_cases hz0 : z ≠ 0
  · have hzb : z ∈ bins i := hzm.resolve_left hz0
    have hne : smallBin s.heap i ≠ z + 16 := hhd ▸ h.lists.next_cell_ne_prev_cell h.good.layout
      hi hi (.inl rfl) (.inr hzb) ((h.good.back z).mpr hz0)
    obtain ⟨hzn, hzp⟩ : z + 16 ≠ y + 8 ∧ z + 16 ≠ y + 16 := h.prev_fresh hi hzb hy hfresh
    rw [if_pos hz0]
    refine ⟨h.valid_prev hi hzb, h.linkedPost _ hi hz hy hroom hfresh ?_ (fun _ => ?_) ?_ ?_
      fun a h₁ h₂ h₃ h₄ => ?_⟩
    · show ((((s.setMem (y + 16) _).setMem (y + 8) z).setMem _ y).setMem (z + 16) y).mem
        (smallList.hd s.heap i + 8) = y
      simp only [setMem_mem, hhd]
      rw [Function.update_of_ne hne, Function.update_self]
    · exact Function.update_self _ _ _
    · show ((((s.setMem (y + 16) _).setMem (y + 8) z).setMem _ y).setMem (z + 16) y).mem (y + 8) = z
      simp only [setMem_mem]
      rw [Function.update_of_ne hzn.symm, Function.update_of_ne hyn.symm, Function.update_self]
    · show ((((s.setMem (y + 16) _).setMem (y + 8) z).setMem _ y).setMem (z + 16) y).mem (y + 16) = _
      simp only [setMem_mem]
      rw [Function.update_of_ne hzp.symm, Function.update_of_ne hyp.symm,
        Function.update_of_ne (by omega), Function.update_self]
    · have h₁' : a ≠ smallBin s.heap i := hhd ▸ h₁
      have h₂' : a ≠ z + 16 := h₂ hz0
      have h₃' : a ≠ y + 8 := h₃
      have h₄' : a ≠ y + 16 := h₄
      simp only [setMem_mem]
      rw [Function.update_of_ne h₂', Function.update_of_ne h₁', Function.update_of_ne h₃',
        Function.update_of_ne h₄']
  · rw [if_neg hz0]
    refine h.linkedPost _ hi hz hy hroom hfresh ?_ (fun h0 => absurd h0 hz0) ?_ ?_
      fun a h₁ _ h₃ h₄ => ?_
    · show (((s.setMem (y + 16) _).setMem (y + 8) z).setMem _ y).mem (smallList.hd s.heap i + 8) = y
      simp only [setMem_mem, hhd]
      rw [Function.update_self]
    · show (((s.setMem (y + 16) _).setMem (y + 8) z).setMem _ y).mem (y + 8) = z
      simp only [setMem_mem]
      rw [Function.update_of_ne hyn.symm, Function.update_self]
    · show (((s.setMem (y + 16) _).setMem (y + 8) z).setMem _ y).mem (y + 16) = _
      simp only [setMem_mem]
      rw [Function.update_of_ne hyp.symm, Function.update_of_ne (by omega), Function.update_self]
    · have h₁' : a ≠ smallBin s.heap i := hhd ▸ h₁
      have h₃' : a ≠ y + 8 := h₃
      have h₄' : a ≠ y + 16 := h₄
      simp only [setMem_mem]
      rw [Function.update_of_ne h₁', Function.update_of_ne h₃', Function.update_of_ne h₄']

/-- **`medium_bin_unlink`** -/
theorem mediumBinUnlink_spec (h : NullLists mediumList s bins) (hi : i < 224) (hy : y ∈ bins i) :
    wp (mediumBinUnlink y) (fun _ t => UnlinkPost mediumList s bins y t) s := by
  obtain ⟨l₁, l₂, pre, post, x, z, hb, hx, hz, hn, hp, hxm, hzm⟩ := h.member hi hy
  have hvx : s.Valid x := h.valid_next hi hxm
  have hvn : s.Valid y := h.valid_next hi (.inr hy)
  have hvp : s.Valid (y + 8) := h.valid_prev hi hy
  replace hn : s.mem y = z := hn
  replace hp : s.mem (y + 8) = x := hp
  unfold mediumBinUnlink
  simp only [wp_bind, wp_load64, wp_store64, wp_ite, wp_pure, hn, hp]
  refine ⟨hvn, hvp, hvx, ?_⟩
  by_cases hz0 : z ≠ 0
  · have hzb : z ∈ bins i := hzm.resolve_left hz0
    have hne : x ≠ z + 8 := h.lists.next_cell_ne_prev_cell h.good.layout hi hi hxm
      (.inr hzb) ((h.good.back z).mpr hz0)
    rw [if_pos hz0]
    refine ⟨h.valid_prev hi hzb, h.unlinkPost hi hb hx hz ?_ (fun _ => ?_) fun a h₁ h₂ => ?_⟩
    · show Function.update (Function.update s.mem x z) (z + 8) x x = z
      rw [Function.update_of_ne hne, Function.update_self]
    · exact Function.update_self _ _ _
    · have h₁' : a ≠ x := h₁
      have h₂' : a ≠ z + 8 := h₂ hz0
      show Function.update (Function.update s.mem x z) (z + 8) x a = s.mem a
      rw [Function.update_of_ne h₂', Function.update_of_ne h₁']
  · rw [if_neg hz0]
    refine h.unlinkPost hi hb hx hz ?_ (fun h0 => absurd h0 hz0) fun a h₁ _ => ?_
    · exact Function.update_self _ _ _
    · exact Function.update_of_ne h₁ _ _

theorem mediumBinIdx_lt {size : Nat} (h₁ : 512 ≤ size) (h₂ : size < 4096) :
    mediumBinIdx size < 224 := by
  unfold mediumBinIdx
  simp only [minMediumBlockSz, mallocAlign]
  omega

/-- **`medium_bin_link`** -/
theorem mediumBinLink_spec (h : NullLists mediumList s bins) {size : Nat} (h₁ : 512 ≤ size)
    (h₂ : size < 4096) (hy : mediumList.node s.heap y) (hroom : y + 32 ≤ s.brk)
    (hfresh : ∀ j, j < 224 → y ∉ bins j) :
    wp (mediumBinLink y size) (fun _ t => ∃ u,
      LinkedPost mediumList s bins y (mediumBinIdx size) u ∧
      t = { u with medSkiplist := skiplistMark s.medSkiplist (mediumBinIdx size) }) s := by
  have hi := mediumBinIdx_lt h₁ h₂
  obtain ⟨z, post, hz, hzm⟩ := Cells.exists_succ (bins (mediumBinIdx size)) 0
  have hhd : mediumList.hd s.heap (mediumBinIdx size) = mediumBin s.heap (mediumBinIdx size) := rfl
  obtain ⟨hyn, hyp⟩ : mediumBin s.heap (mediumBinIdx size) ≠ y ∧
    mediumBin s.heap (mediumBinIdx size) ≠ y + 8 := h.cells_fresh hi (.inl rfl) hy hfresh
  have hfirst : s.mem (mediumBin s.heap (mediumBinIdx size)) = z := h.first hi hz
  have hvb : s.Valid (mediumBin s.heap (mediumBinIdx size)) := h.valid_next hi (.inl rfl)
  have hge := h.good.node_ge y hy
  obtain ⟨hn₁, hn₂, hn₃⟩ := h.good.node_next y hy
  obtain ⟨hp₁, hp₂, hp₃⟩ := h.good.node_prev y hy
  have hvn : s.Valid y := ⟨by omega, by omega, hn₃⟩
  have hvp : s.Valid (y + 8) := ⟨by omega, by omega, hp₃⟩
  have hidx : (size - minMediumBlockSz) / mallocAlign = mediumBinIdx size := rfl
  unfold mediumBinLink mediumBinStart mediumBinSkiplistIdx mediumBinSkiplistBit setMedSkiplist
  simp only [wp_bind, wp_get, wp_load64, wp_store64, wp_ite, wp_pure, wp_modify, hfirst, hidx]
  refine ⟨hvb, hvn, hvp, ?_⟩
  by_cases hz0 : z ≠ 0
  · have hzb : z ∈ bins (mediumBinIdx size) := hzm.resolve_left hz0
    have hne : mediumBin s.heap (mediumBinIdx size) ≠ z + 8 :=
      h.lists.next_cell_ne_prev_cell h.good.layout hi hi (.inl rfl) (.inr hzb)
        ((h.good.back z).mpr hz0)
    obtain ⟨hzn, hzp⟩ : z + 8 ≠ y ∧ z + 8 ≠ y + 8 := h.prev_fresh hi hzb hy hfresh
    rw [if_pos hz0]
    refine ⟨h.valid_prev hi hzb, hvb, _, h.linkedPost ((((s.setMem y z).setMem (y + 8) _).setMem
      (z + 8) y).setMem _ y).mem hi hz hy hroom hfresh ?_ (fun _ => ?_) ?_ ?_
      fun a h₁ h₂ h₃ h₄ => ?_, rfl⟩
    · exact Function.update_self _ _ _
    · show ((((s.setMem y z).setMem (y + 8) _).setMem (z + 8) y).setMem _ y).mem (z + 8) = y
      simp only [setMem_mem]
      rw [Function.update_of_ne hne.symm, Function.update_self]
    · show ((((s.setMem y z).setMem (y + 8) _).setMem (z + 8) y).setMem _ y).mem y = z
      simp only [setMem_mem]
      rw [Function.update_of_ne hyn.symm, Function.update_of_ne hzn.symm,
        Function.update_of_ne (by omega), Function.update_self]
    · show ((((s.setMem y z).setMem (y + 8) _).setMem (z + 8) y).setMem _ y).mem (y + 8) = _
      simp only [setMem_mem]
      rw [Function.update_of_ne hyp.symm, Function.update_of_ne hzp.symm, Function.update_self, hhd]
    · have h₁' : a ≠ mediumBin s.heap (mediumBinIdx size) := h₁
      have h₂' : a ≠ z + 8 := h₂ hz0
      have h₃' : a ≠ y := h₃
      have h₄' : a ≠ y + 8 := h₄
      simp only [setMem_mem]
      rw [Function.update_of_ne h₁', Function.update_of_ne h₂', Function.update_of_ne h₄',
        Function.update_of_ne h₃']
  · rw [if_neg hz0]
    refine ⟨hvb, _, h.linkedPost (((s.setMem y z).setMem (y + 8) _).setMem _ y).mem hi hz hy
      hroom hfresh ?_ (fun h0 => absurd h0 hz0) ?_ ?_ fun a h₁ _ h₃ h₄ => ?_, rfl⟩
    · exact Function.update_self _ _ _
    · show (((s.setMem y z).setMem (y + 8) _).setMem _ y).mem y = z
      simp only [setMem_mem]
      rw [Function.update_of_ne hyn.symm, Function.update_of_ne (by omega), Function.update_self]
    · show (((s.setMem y z).setMem (y + 8) _).setMem _ y).mem (y + 8) = _
      simp only [setMem_mem]
      rw [Function.update_of_ne hyp.symm, Function.update_self, hhd]
    · have h₁' : a ≠ mediumBin s.heap (mediumBinIdx size) := h₁
      have h₃' : a ≠ y := h₃
      have h₄' : a ≠ y + 8 := h₄
      simp only [setMem_mem]
      rw [Function.update_of_ne h₁', Function.update_of_ne h₄', Function.update_of_ne h₃']

end

end MallocBench.Slab
