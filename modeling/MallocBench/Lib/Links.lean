import Mathlib.Data.List.Chain
import Mathlib.Data.List.Nodup
import Mathlib.Logic.Function.Basic

/-!
# Doubly linked lists in a memory

A memory maps cells to values; a node owns a `next` cell and, unless it is a
null node, a `prev` cell. `Cells.Links` says that a path of nodes is linked
both ways. A list with a header is the path `hd :: l ++ [tl]`: a ring when the
header is also the end, a null-terminated list when the end is a null node.

`Bins` is a family of such lists that share one memory; `Layout` collects what
keeps their cells apart. The two edits, `Bins.unlink` and `Bins.link`, change
the cells of the two neighbours (and of the node) and leave a family again.
-/

namespace MallocBench.Lib

universe u v

/-- Where the nodes of a list keep their links. -/
structure Cells (α : Type u) where
  next : α → α
  prev : α → α
  /-- the nodes that have a `prev` cell; a null node has none -/
  back : α → Prop

namespace Cells

variable {α : Type u} {C : Cells α} {m m' : α → α}

/-- Consecutive nodes of the path are linked both ways. -/
def Links (C : Cells α) (m : α → α) (l : List α) : Prop :=
  l.IsChain fun a b => m (C.next a) = b ∧ (C.back b → m (C.prev b) = a)

/-- Links depend on the `next` cells of all nodes but the last and the `prev`
cells of all nodes but the first. -/
theorem Links.congr {l : List α} (h : C.Links m l)
    (hag : ∀ a b, [a, b] <:+: l →
      m' (C.next a) = m (C.next a) ∧ (C.back b → m' (C.prev b) = m (C.prev b))) :
    C.Links m' l := by
  refine List.isChain_iff_forall_rel_of_append_cons_cons.mpr fun a b l₁ l₂ hl => ?_
  have hab := List.isChain_iff_forall_rel_of_append_cons_cons.mp h hl
  obtain ⟨hn, hp⟩ := hag a b ⟨l₁, l₂, by rw [hl]; simp⟩
  exact ⟨hn.trans hab.1, fun hb => (hp hb).trans (hab.2 hb)⟩

theorem links_split {l₁ l₂ : List α} {x : α} :
    C.Links m (l₁ ++ x :: l₂) ↔ C.Links m (l₁ ++ [x]) ∧ C.Links m (x :: l₂) :=
  List.isChain_split

theorem links_cons_cons {a b : α} {l : List α} :
    C.Links m (a :: b :: l) ↔
      (m (C.next a) = b ∧ (C.back b → m (C.prev b) = a)) ∧ C.Links m (b :: l) :=
  List.isChain_cons_cons

/-- The node of a path that follows `x` and precedes `z`. -/
theorem Links.middle {l₁ l₂ : List α} {x y z : α} (h : C.Links m (l₁ ++ x :: y :: z :: l₂)) :
    m (C.next y) = z ∧ (C.back y → m (C.prev y) = x) := by
  have hxy := (links_cons_cons.mp (links_split.mp h).2)
  exact ⟨(links_cons_cons.mp hxy.2).1.1, hxy.1.2⟩

/-- A relation that follows from the links, and from an order of the list, holds between
neighbours. -/
theorem Links.chain {R S : α → α → Prop} {hd tl : α} {l : List α}
    (h : C.Links m (hd :: l ++ [tl])) (hback : ∀ y ∈ l, C.back y) (hS : l.Pairwise S)
    (hR : ∀ x y, y ∈ l → m (C.prev y) = x → (x = hd ∨ (x ∈ l ∧ S x y)) → R x y) :
    (hd :: l).IsChain R := by
  refine List.isChain_iff_forall_rel_of_append_cons_cons.mpr fun x y l₁ l₂ hl => ?_
  rw [hl, List.append_assoc] at h
  have hlink := List.isChain_iff_forall_rel_of_append_cons_cons.mp h rfl
  cases l₁ with
  | nil =>
    obtain ⟨rfl, rfl⟩ := List.cons.inj hl
    have hy : y ∈ y :: l₂ := List.mem_cons_self
    exact hR hd y hy (hlink.2 (hback y hy)) (.inl rfl)
  | cons z l₁ =>
    obtain ⟨rfl, rfl⟩ := List.cons.inj hl
    have hy : y ∈ l₁ ++ x :: y :: l₂ := by simp
    have hxy : S x y := (List.pairwise_cons.mp (List.pairwise_append.mp hS).2.1).1 y
      List.mem_cons_self
    exact hR x y hy (hlink.2 (hback y hy)) (.inr ⟨by simp, hxy⟩)

/-- Two adjacent nodes of `l` are members of it. -/
theorem mem_of_adjacent {a b : α} {l : List α} (h : [a, b] <:+: l) : a ∈ l ∧ b ∈ l := by
  obtain ⟨s, t, rfl⟩ := h
  exact ⟨by simp, by simp⟩

/-- The first of two adjacent nodes is not the last of the path. -/
theorem mem_left_of_adjacent {a b x : α} {l : List α} (h : [a, b] <:+: l ++ [x]) : a ∈ l := by
  obtain ⟨s, t, h⟩ := h
  rcases List.eq_nil_or_concat t with rfl | ⟨t', y, rfl⟩
  · have hx : (s ++ [a]) ++ [b] = l ++ [x] := by simpa using h
    have := (List.append_inj_left' hx rfl)
    rw [← this]
    simp
  · have hx : (s ++ [a, b] ++ t') ++ [y] = l ++ [x] := by simpa using h
    have := (List.append_inj_left' hx rfl)
    rw [← this]
    simp

/-- The second of two adjacent nodes is not the first of the path. -/
theorem mem_right_of_adjacent {a b x : α} {l : List α} (h : [a, b] <:+: x :: l) : b ∈ l := by
  obtain ⟨s, t, h⟩ := h
  rcases s with _ | ⟨s₀, s'⟩
  · obtain ⟨-, rfl⟩ := List.cons.inj h
    simp
  · obtain ⟨-, rfl⟩ := List.cons.inj h
    simp

/-- The last node of a nonempty path. -/
theorem exists_pred (a : α) (l : List α) :
    ∃ pre x, a :: l = pre ++ [x] ∧ (x = a ∨ x ∈ l) := by
  rcases List.eq_nil_or_concat l with rfl | ⟨l', x, rfl⟩
  · exact ⟨[], a, rfl, .inl rfl⟩
  · exact ⟨a :: l', x, by simp, .inr (by simp)⟩

/-- The first node of a nonempty path. -/
theorem exists_succ (l : List α) (b : α) :
    ∃ z post, l ++ [b] = z :: post ∧ (z = b ∨ z ∈ l) := by
  cases l with
  | nil => exact ⟨b, [], rfl, .inl rfl⟩
  | cons z l' => exact ⟨z, l' ++ [b], rfl, .inr (by simp)⟩

end Cells

open Cells

/-! ## Families of lists -/

section Family

variable {ι : Type v} {α : Type u}

/-- The static part of a family of lists with indices `I`, headers `hd` and
ends `tl`, whose members are among the nodes `N`: no two cells coincide. -/
structure Layout (C : Cells α) (I : ι → Prop) (hd tl : ι → α) (N : α → Prop) : Prop where
  next_inj : ∀ a b, C.next a = C.next b → a = b
  prev_inj : ∀ a b, C.prev a = C.prev b → a = b
  next_ne_prev : ∀ a b, N a → N b → C.next a ≠ C.prev b
  hd_next_ne_prev : ∀ i b, I i → N b → C.next (hd i) ≠ C.prev b
  next_ne_tl_prev : ∀ a i, N a → I i → C.back (tl i) → C.next a ≠ C.prev (tl i)
  hd_next_ne_tl_prev : ∀ i j, I i → I j → C.back (tl j) → C.next (hd i) ≠ C.prev (tl j)
  hd_inj : ∀ i j, I i → I j → hd i = hd j → i = j
  hd_not_node : ∀ i, I i → ¬ N (hd i)
  tl_not_node : ∀ i, I i → ¬ N (tl i)
  tl_inj : ∀ i j, I i → I j → C.back (tl i) → tl i = tl j → i = j
  back_node : ∀ a, N a → C.back a

/-- A family of lists in the memory `m`. -/
structure Bins (C : Cells α) (I : ι → Prop) (hd tl : ι → α) (N : α → Prop) (m : α → α)
    (bins : ι → List α) : Prop where
  links : ∀ i, I i → C.Links m (hd i :: bins i ++ [tl i])
  node : ∀ i x, I i → x ∈ bins i → N x
  nodup : ∀ i, I i → (bins i).Nodup
  disjoint : ∀ i j x, I i → I j → x ∈ bins i → x ∈ bins j → i = j

variable {C : Cells α} {I : ι → Prop} {hd tl : ι → α} {N : α → Prop} {m m' : α → α}
  {bins : ι → List α}

namespace Bins

/-- The cells of a family: `next` of headers and members, `prev` of members and
ends. -/
def Cell (C : Cells α) (I : ι → Prop) (hd tl : ι → α) (bins : ι → List α) (a : α) : Prop :=
  ∃ i, I i ∧ ((∃ x, (x = hd i ∨ x ∈ bins i) ∧ a = C.next x) ∨
    (∃ x, (x = tl i ∨ x ∈ bins i) ∧ C.back x ∧ a = C.prev x))

/-- A family is kept by writes outside its cells. -/
theorem congr (h : Bins C I hd tl N m bins)
    (hag : ∀ a, Cell C I hd tl bins a → m' a = m a) : Bins C I hd tl N m' bins := by
  refine ⟨fun i hi => ?_, h.node, h.nodup, h.disjoint⟩
  refine (h.links i hi).congr fun a b hab => ⟨?_, fun hb => ?_⟩
  · refine hag _ ⟨i, hi, .inl ⟨a, ?_, rfl⟩⟩
    exact List.mem_cons.mp (mem_left_of_adjacent hab)
  · refine hag _ ⟨i, hi, .inr ⟨b, ?_, hb, rfl⟩⟩
    have : b ∈ bins i ++ [tl i] := mem_right_of_adjacent hab
    rcases List.mem_append.mp this with hm | hm
    · exact .inr hm
    · exact .inl (List.mem_singleton.mp hm)

/-- The `next` cell of the header holds the first node. -/
theorem first (h : Bins C I hd tl N m bins) {i : ι} (hi : I i) {z : α} {post : List α}
    (hz : bins i ++ [tl i] = z :: post) : m (C.next (hd i)) = z := by
  have hl := h.links i hi
  rw [List.cons_append, hz] at hl
  exact (links_cons_cons.mp hl).1.1

/-- The `prev` cell of the end, if it has one, holds the last node. -/
theorem last (h : Bins C I hd tl N m bins) {i : ι} (hi : I i) {x : α} {pre : List α}
    (hx : hd i :: bins i = pre ++ [x]) (hb : C.back (tl i)) : m (C.prev (tl i)) = x := by
  have hl := h.links i hi
  rw [hx, List.append_assoc, List.singleton_append] at hl
  exact (links_cons_cons.mp (links_split.mp hl).2).1.2 hb

/-- The cells of a member hold its neighbours. -/
theorem neighbours (h : Bins C I hd tl N m bins) (L : Layout C I hd tl N) {i : ι} (hi : I i)
    {l₁ l₂ pre post : List α} {x y z : α} (hb : bins i = l₁ ++ y :: l₂)
    (hx : hd i :: l₁ = pre ++ [x]) (hz : l₂ ++ [tl i] = z :: post) :
    m (C.next y) = z ∧ m (C.prev y) = x := by
  have hl := h.links i hi
  have hpath : hd i :: bins i ++ [tl i] = pre ++ x :: y :: z :: post := by
    rw [hb, show hd i :: (l₁ ++ y :: l₂) ++ [tl i] = (hd i :: l₁) ++ y :: (l₂ ++ [tl i]) by simp,
      hx, hz]
    simp
  rw [hpath] at hl
  have hy := hl.middle
  exact ⟨hy.1, hy.2 (L.back_node y (h.node i y hi (by rw [hb]; simp)))⟩

/-! ### No two cells coincide -/

theorem next_cell_inj (h : Bins C I hd tl N m bins) (L : Layout C I hd tl N) {i j : ι} {a x : α}
    (hi : I i) (hj : I j) (ha : a = hd i ∨ a ∈ bins i) (hx : x = hd j ∨ x ∈ bins j)
    (heq : C.next a = C.next x) : a = x ∧ i = j := by
  obtain rfl := L.next_inj a x heq
  refine ⟨rfl, ?_⟩
  rcases ha with ha | ha <;> rcases hx with hx | hx
  · exact L.hd_inj i j hi hj (ha.symm.trans hx)
  · exact absurd (ha ▸ h.node j a hj hx) (L.hd_not_node i hi)
  · exact absurd (hx ▸ h.node i a hi ha) (L.hd_not_node j hj)
  · exact h.disjoint i j a hi hj ha hx

theorem prev_cell_inj (h : Bins C I hd tl N m bins) (L : Layout C I hd tl N) {i j : ι} {b z : α}
    (hi : I i) (hj : I j) (hb : b = tl i ∨ b ∈ bins i) (hz : z = tl j ∨ z ∈ bins j)
    (hback : C.back b) (heq : C.prev b = C.prev z) : b = z ∧ i = j := by
  obtain rfl := L.prev_inj b z heq
  refine ⟨rfl, ?_⟩
  rcases hb with hb | hb <;> rcases hz with hz | hz
  · exact L.tl_inj i j hi hj (hb ▸ hback) (hb.symm.trans hz)
  · exact absurd (hb ▸ h.node j b hj hz) (L.tl_not_node i hi)
  · exact absurd (hz ▸ h.node i b hi hb) (L.tl_not_node j hj)
  · exact h.disjoint i j b hi hj hb hz

theorem next_cell_ne_prev_cell (h : Bins C I hd tl N m bins) (L : Layout C I hd tl N)
    {i j : ι} {a z : α} (hi : I i) (hj : I j) (ha : a = hd i ∨ a ∈ bins i)
    (hz : z = tl j ∨ z ∈ bins j) (hback : C.back z) : C.next a ≠ C.prev z := by
  rcases ha with rfl | ha <;> rcases hz with rfl | hz
  · exact L.hd_next_ne_tl_prev i j hi hj hback
  · exact L.hd_next_ne_prev i z hi (h.node j z hj hz)
  · exact L.next_ne_tl_prev a j (h.node i a hi ha) hj hback
  · exact L.next_ne_prev a z (h.node i a hi ha) (h.node j z hj hz)

theorem nodup_hd (h : Bins C I hd tl N m bins) (L : Layout C I hd tl N) {i : ι} (hi : I i) :
    (hd i :: bins i).Nodup :=
  List.nodup_cons.mpr ⟨fun hm => L.hd_not_node i hi (h.node i _ hi hm), h.nodup i hi⟩

theorem nodup_tl (h : Bins C I hd tl N m bins) (L : Layout C I hd tl N) {i : ι} (hi : I i) :
    (bins i ++ [tl i]).Nodup := by
  refine List.nodup_append.mpr ⟨h.nodup i hi, List.nodup_singleton _, ?_⟩
  rintro a ha b hb rfl
  rw [List.mem_singleton] at hb
  exact L.tl_not_node i hi (hb ▸ h.node i a hi ha)

/-- Links between nodes of list `j` survive writes to the `next` cell of `x` and
the `prev` cell of `z`, unless they are the links that leave `x` or enter `z`. -/
theorem links_keep (h : Bins C I hd tl N m bins) (L : Layout C I hd tl N) {i j : ι} {x z : α}
    (hi : I i) (hj : I j) (hx : x = hd i ∨ x ∈ bins i) (hz : z = tl i ∨ z ∈ bins i)
    (hag : ∀ a, Cell C I hd tl bins a → a ≠ C.next x → (C.back z → a ≠ C.prev z) → m' a = m a)
    {l : List α} (hl : C.Links m l)
    (hnodes : ∀ a b, [a, b] <:+: l → (a = hd j ∨ a ∈ bins j) ∧ (b = tl j ∨ b ∈ bins j))
    (hne : ∀ a b, [a, b] <:+: l → j = i → a ≠ x ∧ b ≠ z) : C.Links m' l := by
  refine hl.congr fun a b hab => ?_
  obtain ⟨ha, hb⟩ := hnodes a b hab
  have hab' := hne a b hab
  refine ⟨?_, fun hback => ?_⟩
  · refine hag _ ⟨j, hj, .inl ⟨a, ha, rfl⟩⟩ (fun heq => ?_) (fun hbz => ?_)
    · obtain ⟨hax, hji⟩ := h.next_cell_inj L hj hi ha hx heq
      exact (hab' hji).1 hax
    · exact h.next_cell_ne_prev_cell L hj hi ha hz hbz
  · refine hag _ ⟨j, hj, .inr ⟨b, hb, hback, rfl⟩⟩ (fun heq => ?_) (fun hbz heq => ?_)
    · exact h.next_cell_ne_prev_cell L hi hj hx hb hback heq.symm
    · obtain ⟨hbz', hji⟩ := h.prev_cell_inj L hj hi hb hz hback heq
      exact (hab' hji).2 hbz'

/-- The list at another index survives such writes as a whole. -/
theorem links_other (h : Bins C I hd tl N m bins) (L : Layout C I hd tl N) {i j : ι} {x z : α}
    (hi : I i) (hj : I j) (hji : j ≠ i) (hx : x = hd i ∨ x ∈ bins i)
    (hz : z = tl i ∨ z ∈ bins i)
    (hag : ∀ a, Cell C I hd tl bins a → a ≠ C.next x → (C.back z → a ≠ C.prev z) → m' a = m a) :
    C.Links m' (hd j :: bins j ++ [tl j]) := by
  refine h.links_keep L hi hj hx hz hag (h.links j hj) (fun a b hab => ⟨?_, ?_⟩)
    (fun a b _ heq => absurd heq hji)
  · exact List.mem_cons.mp (mem_left_of_adjacent hab)
  · have : b ∈ bins j ++ [tl j] := mem_right_of_adjacent hab
    rcases List.mem_append.mp this with hm | hm
    · exact .inr hm
    · exact .inl (List.mem_singleton.mp hm)

/-- The part of list `i` up to `x` survives such writes. -/
theorem links_before (h : Bins C I hd tl N m bins) (L : Layout C I hd tl N) {i : ι} {x z : α}
    (hi : I i) {l₁ l₂ pre post : List α} (hb : bins i = l₁ ++ l₂)
    (hx : hd i :: l₁ = pre ++ [x]) (hz : l₂ ++ [tl i] = post) (hzm : z ∈ post)
    (hag : ∀ a, Cell C I hd tl bins a → a ≠ C.next x → (C.back z → a ≠ C.prev z) → m' a = m a)
    (hl : C.Links m (pre ++ [x])) : C.Links m' (pre ++ [x]) := by
  have hnd := h.nodup_hd L hi
  have hnt := h.nodup_tl L hi
  have hxm : x ∈ hd i :: l₁ := by rw [hx]; simp
  have hzm' : z ∈ l₂ ++ [tl i] := hz ▸ hzm
  have hx' : x = hd i ∨ x ∈ bins i := by
    rw [hb]
    rcases List.mem_cons.mp hxm with hm | hm
    · exact .inl hm
    · exact .inr (List.mem_append_left _ hm)
  have hz' : z = tl i ∨ z ∈ bins i := by
    rw [hb]
    rcases List.mem_append.mp hzm' with hm | hm
    · exact .inr (List.mem_append_right _ hm)
    · exact .inl (List.mem_singleton.mp hm)
  refine h.links_keep L hi hi hx' hz' hag hl (fun a b hab => ?_) (fun a b hab _ => ?_)
  · rw [← hx] at hab
    have hm := mem_of_adjacent hab
    have hbm : b ∈ l₁ := mem_right_of_adjacent hab
    refine ⟨?_, .inr (by rw [hb]; exact List.mem_append_left _ hbm)⟩
    rcases List.mem_cons.mp hm.1 with hm | hm
    · exact .inl hm
    · exact .inr (by rw [hb]; exact List.mem_append_left _ hm)
  · constructor
    · -- `a` comes before the last node `x` of a path without repetitions
      rintro rfl
      have ha := mem_left_of_adjacent hab
      rw [hb, show hd i :: (l₁ ++ l₂) = (hd i :: l₁) ++ l₂ from rfl, hx, List.append_assoc] at hnd
      exact (List.nodup_append.mp hnd).2.2 a ha a (by simp) rfl
    · -- `b` is among `l₁`, `z` among what follows
      rintro rfl
      rw [← hx] at hab
      have hbm : b ∈ l₁ := mem_right_of_adjacent hab
      rw [hb, List.append_assoc] at hnt
      exact (List.nodup_append.mp hnt).2.2 b hbm b hzm' rfl

/-- The part of list `i` from `z` on survives such writes. -/
theorem links_after (h : Bins C I hd tl N m bins) (L : Layout C I hd tl N) {i : ι} {x z : α}
    (hi : I i) {l₁ l₂ pre post : List α} (hb : bins i = l₁ ++ l₂)
    (hx : hd i :: l₁ = pre) (hxm : x ∈ pre) (hz : l₂ ++ [tl i] = z :: post)
    (hag : ∀ a, Cell C I hd tl bins a → a ≠ C.next x → (C.back z → a ≠ C.prev z) → m' a = m a)
    (hl : C.Links m (z :: post)) : C.Links m' (z :: post) := by
  have hnd := h.nodup_hd L hi
  have hnt := h.nodup_tl L hi
  have hzm : z ∈ l₂ ++ [tl i] := by rw [hz]; simp
  have hxm' : x ∈ hd i :: l₁ := hx ▸ hxm
  have hx' : x = hd i ∨ x ∈ bins i := by
    rw [hb]
    rcases List.mem_cons.mp hxm' with hm | hm
    · exact .inl hm
    · exact .inr (List.mem_append_left _ hm)
  have hz' : z = tl i ∨ z ∈ bins i := by
    rw [hb]
    rcases List.mem_append.mp hzm with hm | hm
    · exact .inr (List.mem_append_right _ hm)
    · exact .inl (List.mem_singleton.mp hm)
  refine h.links_keep L hi hi hx' hz' hag hl (fun a b hab => ?_) (fun a b hab _ => ?_)
  · rw [← hz] at hab
    have hm := mem_of_adjacent hab
    have ham : a ∈ l₂ := mem_left_of_adjacent hab
    refine ⟨.inr (by rw [hb]; exact List.mem_append_right _ ham), ?_⟩
    rcases List.mem_append.mp hm.2 with hm | hm
    · exact .inr (by rw [hb]; exact List.mem_append_right _ hm)
    · exact .inl (List.mem_singleton.mp hm)
  · constructor
    · -- `a` is among `l₂`, `x` among what precedes
      rintro rfl
      rw [← hz] at hab
      have ham : a ∈ l₂ := mem_left_of_adjacent hab
      rw [hb, show hd i :: (l₁ ++ l₂) = (hd i :: l₁) ++ l₂ from rfl] at hnd
      exact (List.nodup_append.mp hnd).2.2 a hxm' a ham rfl
    · -- `b` comes after the first node `z` of a path without repetitions
      rintro rfl
      have hbm : b ∈ post := mem_right_of_adjacent hab
      rw [hb, List.append_assoc, hz] at hnt
      exact (List.nodup_cons.mp (List.nodup_append.mp hnt).2.1).1 hbm

variable [DecidableEq ι]

/-- **Unlinking**: writing `next` of the predecessor `x` and `prev` of the
successor `z` takes `y` out of its list. -/
theorem unlink (h : Bins C I hd tl N m bins) (L : Layout C I hd tl N) {i : ι} (hi : I i)
    {l₁ l₂ pre post : List α} {x y z : α} (hb : bins i = l₁ ++ y :: l₂)
    (hx : hd i :: l₁ = pre ++ [x]) (hz : l₂ ++ [tl i] = z :: post)
    (hmx : m' (C.next x) = z) (hmz : C.back z → m' (C.prev z) = x)
    (hag : ∀ a, a ≠ C.next x → (C.back z → a ≠ C.prev z) → m' a = m a) :
    Bins C I hd tl N m' (Function.update bins i (l₁ ++ l₂)) := by
  have hag' : ∀ a, Cell C I hd tl bins a → a ≠ C.next x → (C.back z → a ≠ C.prev z) →
      m' a = m a := fun a _ => hag a
  have hxm : x = hd i ∨ x ∈ bins i := by
    have : x ∈ hd i :: l₁ := by rw [hx]; simp
    rw [hb]
    simp only [List.mem_cons, List.mem_append] at this ⊢
    tauto
  have hzm : z = tl i ∨ z ∈ bins i := by
    have : z ∈ l₂ ++ [tl i] := by rw [hz]; simp
    rw [hb]
    simp only [List.mem_cons, List.mem_append, List.not_mem_nil, or_false] at this ⊢
    tauto
  have hsub : ∀ a, a ∈ l₁ ++ l₂ → a ∈ bins i := by
    intro a ha
    rw [hb]
    simp only [List.mem_append, List.mem_cons] at ha ⊢
    tauto
  refine ⟨fun j hj => ?_, fun j a hj ha => ?_, fun j hj => ?_, fun j k a hj hk haj hak => ?_⟩
  · by_cases hji : j = i
    · subst hji
      rw [Function.update_self]
      have hpath : hd j :: (l₁ ++ l₂) ++ [tl j] = pre ++ x :: z :: post := by
        rw [show hd j :: (l₁ ++ l₂) ++ [tl j] = (hd j :: l₁) ++ (l₂ ++ [tl j]) by simp, hx, hz]
        simp
      have hold := h.links j hj
      rw [hb, show hd j :: (l₁ ++ y :: l₂) ++ [tl j] = (hd j :: l₁) ++ y :: (l₂ ++ [tl j]) by simp,
        hx, hz, List.append_assoc, List.singleton_append] at hold
      obtain ⟨hpre, hrest⟩ := links_split.mp hold
      rw [hpath]
      refine links_split.mpr ⟨?_, links_cons_cons.mpr ⟨⟨hmx, hmz⟩, ?_⟩⟩
      · exact h.links_before L hj hb hx rfl (by rw [List.cons_append, hz]; simp) hag' hpre
      · refine h.links_after L hj (show bins j = (l₁ ++ [y]) ++ l₂ by rw [hb]; simp) rfl ?_ hz hag'
          (links_cons_cons.mp (links_cons_cons.mp hrest).2).2
        rw [← List.cons_append, hx]
        simp
    · rw [Function.update_of_ne hji]
      exact h.links_other L hi hj hji hxm hzm hag'
  · by_cases hji : j = i
    · subst hji
      rw [Function.update_self] at ha
      exact h.node j a hj (hsub a ha)
    · rw [Function.update_of_ne hji] at ha
      exact h.node j a hj ha
  · by_cases hji : j = i
    · subst hji
      rw [Function.update_self]
      have hnd := h.nodup j hj
      rw [hb] at hnd
      exact hnd.sublist ((List.sublist_cons_self _ _).append_left _)
    · rw [Function.update_of_ne hji]
      exact h.nodup j hj
  · refine h.disjoint j k a hj hk ?_ ?_
    · by_cases hji : j = i
      · subst hji
        rw [Function.update_self] at haj
        exact hsub a haj
      · rwa [Function.update_of_ne hji] at haj
    · by_cases hki : k = i
      · subst hki
        rw [Function.update_self] at hak
        exact hsub a hak
      · rwa [Function.update_of_ne hki] at hak

/-- **Linking**: a new node `y` between the neighbours `x` and `z`. -/
theorem link (h : Bins C I hd tl N m bins) (L : Layout C I hd tl N) {i : ι} (hi : I i)
    {l₁ l₂ pre post : List α} {x y z : α} (hb : bins i = l₁ ++ l₂)
    (hx : hd i :: l₁ = pre ++ [x]) (hz : l₂ ++ [tl i] = z :: post)
    (hy : N y) (hfresh : ∀ j, I j → y ∉ bins j)
    (hmx : m' (C.next x) = y) (hmz : C.back z → m' (C.prev z) = y)
    (hmn : m' (C.next y) = z) (hmp : m' (C.prev y) = x)
    (hag : ∀ a, a ≠ C.next x → (C.back z → a ≠ C.prev z) → a ≠ C.next y → a ≠ C.prev y →
      m' a = m a) :
    Bins C I hd tl N m' (Function.update bins i (l₁ ++ y :: l₂)) := by
  -- the cells of `y` are new to the family
  have hnew : ∀ a, Cell C I hd tl bins a → a ≠ C.next y ∧ a ≠ C.prev y := by
    rintro a ⟨j, hj, ⟨n, hn, rfl⟩ | ⟨n, hn, hback, rfl⟩⟩
    · constructor
      · intro heq
        obtain rfl := L.next_inj _ _ heq
        rcases hn with rfl | hn
        · exact L.hd_not_node j hj hy
        · exact hfresh j hj hn
      · rcases hn with rfl | hn
        · exact L.hd_next_ne_prev j y hj hy
        · exact L.next_ne_prev n y (h.node j n hj hn) hy
    · constructor
      · rcases hn with rfl | hn
        · exact fun heq => L.next_ne_tl_prev y j hy hj hback heq.symm
        · exact fun heq => L.next_ne_prev y n hy (h.node j n hj hn) heq.symm
      · intro heq
        obtain rfl := L.prev_inj _ _ heq
        rcases hn with rfl | hn
        · exact L.tl_not_node j hj hy
        · exact hfresh j hj hn
  have hag' : ∀ a, Cell C I hd tl bins a → a ≠ C.next x → (C.back z → a ≠ C.prev z) →
      m' a = m a := fun a ha h₁ h₂ => hag a h₁ h₂ (hnew a ha).1 (hnew a ha).2
  have hxm : x = hd i ∨ x ∈ bins i := by
    have : x ∈ hd i :: l₁ := by rw [hx]; simp
    rw [hb]
    simp only [List.mem_cons, List.mem_append] at this ⊢
    tauto
  have hzm : z = tl i ∨ z ∈ bins i := by
    have : z ∈ l₂ ++ [tl i] := by rw [hz]; simp
    rw [hb]
    simp only [List.mem_cons, List.mem_append, List.not_mem_nil, or_false] at this ⊢
    tauto
  have hsub : ∀ a, a ∈ l₁ ++ y :: l₂ → a = y ∨ a ∈ bins i := by
    intro a ha
    rw [hb]
    simp only [List.mem_append, List.mem_cons] at ha ⊢
    tauto
  refine ⟨fun j hj => ?_, fun j a hj ha => ?_, fun j hj => ?_, fun j k a hj hk haj hak => ?_⟩
  · by_cases hji : j = i
    · subst hji
      rw [Function.update_self]
      have hpath : hd j :: (l₁ ++ y :: l₂) ++ [tl j] = pre ++ x :: y :: z :: post := by
        rw [show hd j :: (l₁ ++ y :: l₂) ++ [tl j] = (hd j :: l₁) ++ y :: (l₂ ++ [tl j]) by simp,
          hx, hz]
        simp
      have hold := h.links j hj
      rw [hb, show hd j :: (l₁ ++ l₂) ++ [tl j] = (hd j :: l₁) ++ (l₂ ++ [tl j]) by simp,
        hx, hz, List.append_assoc, List.singleton_append] at hold
      obtain ⟨hpre, hrest⟩ := links_split.mp hold
      rw [hpath]
      refine links_split.mpr ⟨?_, links_cons_cons.mpr ⟨⟨hmx, fun _ => hmp⟩,
        links_cons_cons.mpr ⟨⟨hmn, hmz⟩, ?_⟩⟩⟩
      · exact h.links_before L hj hb hx hz (by simp) hag' hpre
      · exact h.links_after L hj hb hx (by simp) hz hag' (links_cons_cons.mp hrest).2
    · rw [Function.update_of_ne hji]
      exact h.links_other L hi hj hji hxm hzm hag'
  · by_cases hji : j = i
    · subst hji
      rw [Function.update_self] at ha
      rcases hsub a ha with rfl | ha
      · exact hy
      · exact h.node j a hj ha
    · rw [Function.update_of_ne hji] at ha
      exact h.node j a hj ha
  · by_cases hji : j = i
    · subst hji
      rw [Function.update_self]
      have hnd := h.nodup j hj
      have hyj := hfresh j hj
      rw [hb] at hnd hyj
      exact List.nodup_middle.mpr (List.nodup_cons.mpr ⟨hyj, hnd⟩)
    · rw [Function.update_of_ne hji]
      exact h.nodup j hj
  · have hcase : ∀ k, I k → a ∈ Function.update bins i (l₁ ++ y :: l₂) k →
        (k = i ∧ a = y) ∨ a ∈ bins k := by
      intro k hk ha
      by_cases hki : k = i
      · subst hki
        rw [Function.update_self] at ha
        rcases hsub a ha with ha | ha
        · exact .inl ⟨rfl, ha⟩
        · exact .inr ha
      · rw [Function.update_of_ne hki] at ha
        exact .inr ha
    rcases hcase j hj haj with ⟨rfl, rfl⟩ | hj' <;> rcases hcase k hk hak with ⟨rfl, hk'⟩ | hk'
    · rfl
    · exact absurd hk' (hfresh k hk)
    · exact absurd (hk' ▸ hj') (hfresh j hj)
    · exact h.disjoint j k a hj hk hj' hk'

end Bins

end Family

end MallocBench.Lib
