import MallocBench.Lib.Links
import MallocBench.Slab.Access
import Mathlib.Data.List.Perm.Subperm

/-!
# The slab bins as linked lists

The bins of free slabs are rings: `__slab_bin_start` places a bin in such a way
that its `head` and `tail` are the `next` and `prev` fields of a slab. The
lemmas here say what `slab_unlink`, `__slab_link` and `__slab_link_large` do to
the lists, and which words of the memory they leave alone.
-/

namespace MallocBench.Slab

open Lib

/-! ## Cells and layout -/

/-- The links of a free slab. -/
def slabCells : Cells Nat := ⟨(· + 8), (· + 16), fun _ => True⟩

/-- The header of the ring of slab bin `i`. -/
def slabHd (h i : Nat) : Nat := slabBinStart (slabBin h i)

/-- The addresses of slabs. -/
def SlabNode (h x : Nat) : Prop := x % 4096 = 0 ∧ h + 4096 ≤ x

/-- The slab bins of the heap at `h`, with the members `bins`. -/
abbrev SlabBins (h : Nat) (m : Nat → Nat) (bins : Nat → List Nat) : Prop :=
  Bins slabCells (· < 128) (slabHd h) (slabHd h) (SlabNode h) m bins

/-- A link cell of the slab bins. -/
abbrev SlabCell (h : Nat) (bins : Nat → List Nat) (a : Nat) : Prop :=
  Bins.Cell slabCells (· < 128) (slabHd h) (slabHd h) bins a

theorem slabHd_eq {h i : Nat} (hpos : 0 < h) (hbase : h % 4096 = 0) :
    slabHd h i + 8 = h + 16 * i := by
  unfold slabHd slabBinStart slabBin
  omega

theorem slabLayout {h : Nat} (hbase : h % 4096 = 0) (hpos : 0 < h) :
    Layout slabCells (· < 128) (slabHd h) (slabHd h) (SlabNode h) := by
  have hd := fun i => slabHd_eq (i := i) hpos hbase
  constructor
  · exact fun a b hab => Nat.add_right_cancel (m := 8) hab
  · exact fun a b hab => Nat.add_right_cancel (m := 16) hab
  · intro a b ha hb
    show a + 8 ≠ b + 16
    unfold SlabNode at ha hb
    omega
  · intro i b hi hb
    show slabHd h i + 8 ≠ b + 16
    have := hd i
    unfold SlabNode at hb
    omega
  · intro a i ha hi _
    show a + 8 ≠ slabHd h i + 16
    have := hd i
    unfold SlabNode at ha
    omega
  · intro i j hi hj _
    show slabHd h i + 8 ≠ slabHd h j + 16
    have := hd i
    have := hd j
    omega
  · intro i j hi hj hij
    have := hd i
    have := hd j
    omega
  · intro i hi hn
    have := hd i
    unfold SlabNode at hn
    omega
  · intro i hi hn
    have := hd i
    unfold SlabNode at hn
    omega
  · intro i j hi hj _ hij
    have := hd i
    have := hd j
    omega
  · exact fun _ _ => trivial

/-- The memory in which the slab bins live: a heap page, then slabs. -/
structure SlabLists (s : Heap) (bins : Nat → List Nat) : Prop where
  base : s.heap % 4096 = 0
  pos : 0 < s.heap
  room : s.heap + 4096 ≤ s.brk
  lists : SlabBins s.heap s.mem bins
  inRange : ∀ i x, i < 128 → x ∈ bins i → x + 4096 ≤ s.brk

namespace SlabLists

variable {s : Heap} {bins : Nat → List Nat}

theorem layout (h : SlabLists s bins) :
    Layout slabCells (· < 128) (slabHd s.heap) (slabHd s.heap) (SlabNode s.heap) :=
  slabLayout h.base h.pos

theorem valid_next (h : SlabLists s bins) {i x : Nat} (hi : i < 128)
    (hx : x = slabHd s.heap i ∨ x ∈ bins i) : s.Valid (x + 8) := by
  have hb := h.base
  have hr := h.room
  rcases hx with rfl | hx
  · have := slabHd_eq (i := i) h.pos h.base
    exact ⟨by omega, by omega, by omega⟩
  · have hn := h.lists.node i x hi hx
    have := h.inRange i x hi hx
    unfold SlabNode at hn
    exact ⟨by omega, by omega, by omega⟩

theorem valid_prev (h : SlabLists s bins) {i x : Nat} (hi : i < 128)
    (hx : x = slabHd s.heap i ∨ x ∈ bins i) : s.Valid (x + 16) := by
  have hb := h.base
  have hr := h.room
  rcases hx with rfl | hx
  · have := slabHd_eq (i := i) h.pos h.base
    exact ⟨by omega, by omega, by omega⟩
  · have hn := h.lists.node i x hi hx
    have := h.inRange i x hi hx
    unfold SlabNode at hn
    exact ⟨by omega, by omega, by omega⟩

/-- Link cells lie in the bin array or at offset 8 or 16 of a slab in a bin. -/
theorem cell_cases (h : SlabLists s bins) {a : Nat} (ha : SlabCell s.heap bins a) :
    (s.heap ≤ a ∧ a < s.heap + 2048) ∨
      ∃ i x, i < 128 ∧ x ∈ bins i ∧ (a = x + 8 ∨ a = x + 16) := by
  obtain ⟨i, hi, ⟨x, hx | hx, rfl⟩ | ⟨x, hx | hx, -, rfl⟩⟩ := ha
  · have := slabHd_eq (i := i) h.pos h.base
    refine .inl ?_
    simp only [slabCells, hx]
    omega
  · exact .inr ⟨i, x, hi, hx, .inl rfl⟩
  · have := slabHd_eq (i := i) h.pos h.base
    refine .inl ?_
    simp only [slabCells, hx]
    omega
  · exact .inr ⟨i, x, hi, hx, .inr rfl⟩

/-- Members and headers have cells apart from those of a slab in no bin. -/
theorem ne_fresh (h : SlabLists s bins) {i x y : Nat} (hi : i < 128)
    (hx : x = slabHd s.heap i ∨ x ∈ bins i) (hy : SlabNode s.heap y)
    (hfresh : ∀ j, j < 128 → y ∉ bins j) : x ≠ y ∧ x + 8 ≠ y + 16 ∧ x + 16 ≠ y + 8 := by
  rcases hx with rfl | hx
  · have := slabHd_eq (i := i) h.pos h.base
    unfold SlabNode at hy
    omega
  · have hn := h.lists.node i x hi hx
    unfold SlabNode at hn hy
    refine ⟨?_, by omega, by omega⟩
    rintro rfl
    exact hfresh i hi hx

/-- The lists after writing the four link cells around a new member `y`. -/
theorem linked (h : SlabLists s bins) {i y : Nat} (hi : i < 128) {l₁ l₂ pre post : List Nat}
    {x z : Nat} (hb : bins i = l₁ ++ l₂) (hx : slabHd s.heap i :: l₁ = pre ++ [x])
    (hz : l₂ ++ [slabHd s.heap i] = z :: post) (hy : SlabNode s.heap y) (hroom : y + 4096 ≤ s.brk)
    (hfresh : ∀ j, j < 128 → y ∉ bins j) {m' : Nat → Nat} (hmx : m' (x + 8) = y)
    (hmz : m' (z + 16) = y) (hmn : m' (y + 8) = z) (hmp : m' (y + 16) = x)
    (hag : ∀ a, a ≠ x + 8 → a ≠ z + 16 → a ≠ y + 8 → a ≠ y + 16 → m' a = s.mem a) :
    SlabLists { s with mem := m' } (Function.update bins i (l₁ ++ y :: l₂)) ∧
      ∀ a, ¬ SlabCell s.heap (Function.update bins i (l₁ ++ y :: l₂)) a → m' a = s.mem a := by
  have hxm : x = slabHd s.heap i ∨ x ∈ l₁ := by
    have : x ∈ slabHd s.heap i :: l₁ := by rw [hx]; simp
    exact List.mem_cons.mp this
  have hzm : z = slabHd s.heap i ∨ z ∈ l₂ := by
    have : z ∈ l₂ ++ [slabHd s.heap i] := by rw [hz]; simp
    rcases List.mem_append.mp this with hm | hm
    · exact .inr hm
    · exact .inl (List.mem_singleton.mp hm)
  refine ⟨⟨h.base, h.pos, h.room, ?_, fun j a hj ha => ?_⟩, fun a ha => hag a ?_ ?_ ?_ ?_⟩
  · exact h.lists.link h.layout hi hb hx hz hy hfresh hmx (fun _ => hmz) hmn hmp
      (fun a h₁ h₂ h₃ h₄ => hag a h₁ (h₂ trivial) h₃ h₄)
  · by_cases hji : j = i
    · subst hji
      rw [Function.update_self] at ha
      rcases List.mem_append.mp ha with ha | ha
      · exact h.inRange j a hj (by rw [hb]; exact List.mem_append_left _ ha)
      · rcases List.mem_cons.mp ha with rfl | ha
        · exact hroom
        · exact h.inRange j a hj (by rw [hb]; exact List.mem_append_right _ ha)
    · rw [Function.update_of_ne hji] at ha
      exact h.inRange j a hj ha
  · rintro rfl
    refine ha ⟨i, hi, .inl ⟨x, ?_, rfl⟩⟩
    rw [Function.update_self]
    exact hxm.imp_right (List.mem_append_left _)
  · rintro rfl
    refine ha ⟨i, hi, .inr ⟨z, ?_, trivial, rfl⟩⟩
    rw [Function.update_self]
    exact hzm.imp_right fun hm => List.mem_append_right _ (List.mem_cons_of_mem _ hm)
  · rintro rfl
    exact ha ⟨i, hi, .inl ⟨y, by rw [Function.update_self]; simp, rfl⟩⟩
  · rintro rfl
    exact ha ⟨i, hi, .inr ⟨y, by rw [Function.update_self]; simp, trivial, rfl⟩⟩

/-- A bin has fewer members than the heap has slabs. -/
theorem length_lt_walkFuel (h : SlabLists s bins) (hend : s.heapEnd = s.brk) {i : Nat}
    (hi : i < 128) : (bins i).length < s.walkFuel := by
  have hinj : ((bins i).map (· / 4096)).Nodup := by
    refine (List.nodup_map_iff_inj_on (h.lists.nodup i hi)).mpr fun x hx y hy hxy => ?_
    have hx' := h.lists.node i x hi hx
    have hy' := h.lists.node i y hi hy
    unfold SlabNode at hx' hy'
    omega
  have hsub : (bins i).map (· / 4096) ⊆
      List.range' (s.heap / 4096) ((s.heapEnd - s.heap) / 4096) := by
    intro k hk
    obtain ⟨x, hx, rfl⟩ := List.mem_map.mp hk
    have hn := h.lists.node i x hi hx
    have hr := h.inRange i x hi hx
    have hb := h.base
    unfold SlabNode at hn
    rw [List.mem_range'_1]
    omega
  have hle := (List.subperm_of_subset hinj hsub).length_le
  rw [List.length_map, List.length_range'] at hle
  unfold Heap.walkFuel
  simp only [slabSize]
  omega

end SlabLists

/-! ## Unlinking -/

/-- **`slab_unlink`** takes a slab out of its bin. -/
theorem slabUnlink_spec {s : Heap} {bins : Nat → List Nat} (h : SlabLists s bins) {i y : Nat}
    (hi : i < 128) {l₁ l₂ : List Nat} (hb : bins i = l₁ ++ y :: l₂) :
    wp (slabUnlink y) (fun _ t => ∃ m', t = { s with mem := m' } ∧
      SlabLists { s with mem := m' } (Function.update bins i (l₁ ++ l₂)) ∧
      ∀ a, ¬ SlabCell s.heap (Function.update bins i (l₁ ++ l₂)) a → m' a = s.mem a) s := by
  obtain ⟨pre, x, hx, hxm⟩ := Cells.exists_pred (slabHd s.heap i) l₁
  obtain ⟨z, post, hz, hzm⟩ := Cells.exists_succ l₂ (slabHd s.heap i)
  obtain ⟨hyn, hyp⟩ : s.mem (y + 8) = z ∧ s.mem (y + 16) = x :=
    h.lists.neighbours h.layout hi hb hx hz
  replace hxm : x = slabHd s.heap i ∨ x ∈ l₁ ++ l₂ := hxm.imp_right (List.mem_append_left _)
  replace hzm : z = slabHd s.heap i ∨ z ∈ l₁ ++ l₂ := hzm.imp_right (List.mem_append_right _)
  have hsub : ∀ a, a ∈ l₁ ++ l₂ → a ∈ bins i := by
    intro a ha
    rw [hb]
    simp only [List.mem_append, List.mem_cons] at ha ⊢
    tauto
  have hym : y ∈ bins i := by rw [hb]; simp
  have hxm' := hxm.imp_right (hsub x)
  have hzm' := hzm.imp_right (hsub z)
  have hne : x + 8 ≠ z + 16 :=
    h.lists.next_cell_ne_prev_cell h.layout hi hi hxm' hzm' trivial
  unfold slabUnlink
  simp only [wp_bind, wp_load64, wp_store64, setMem_valid]
  rw [hyn, hyp]
  refine ⟨h.valid_next hi (.inr hym), h.valid_prev hi (.inr hym), h.valid_next hi hxm',
    h.valid_prev hi hzm', _, rfl, ?_, ?_⟩
  · refine ⟨h.base, h.pos, h.room, ?_, fun j a hj ha => ?_⟩
    · refine h.lists.unlink h.layout hi hb hx hz ?_ (fun _ => ?_) (fun a h₁ h₂ => ?_)
      · simp only [slabCells, setMem_mem]
        rw [Function.update_of_ne hne, Function.update_self]
      · simp only [slabCells, setMem_mem]
        rw [Function.update_self]
      · have hx8 : a ≠ x + 8 := h₁
        have hz16 : a ≠ z + 16 := h₂ trivial
        simp only [setMem_mem]
        rw [Function.update_of_ne hz16, Function.update_of_ne hx8]
    · by_cases hji : j = i
      · subst hji
        rw [Function.update_self] at ha
        exact h.inRange j a hj (hsub a ha)
      · rw [Function.update_of_ne hji] at ha
        exact h.inRange j a hj ha
  · intro a ha
    simp only [setMem_mem]
    rw [Function.update_of_ne, Function.update_of_ne]
    · rintro rfl
      exact ha ⟨i, hi, .inl ⟨x, by rwa [Function.update_self], rfl⟩⟩
    · rintro rfl
      exact ha ⟨i, hi, .inr ⟨z, by rwa [Function.update_self], trivial, rfl⟩⟩

/-! ## Linking -/

/-- **`__slab_link`** appends a slab to a bin. -/
theorem _slabLink_spec {s : Heap} {bins : Nat → List Nat} (h : SlabLists s bins) {i y : Nat}
    (hi : i < 128) (hy : SlabNode s.heap y) (hroom : y + 4096 ≤ s.brk)
    (hfresh : ∀ j, j < 128 → y ∉ bins j) :
    wp (_slabLink (slabBin s.heap i) y) (fun _ t => ∃ m', t = { s with mem := m' } ∧
      SlabLists { s with mem := m' } (Function.update bins i (bins i ++ [y])) ∧
      ∀ a, ¬ SlabCell s.heap (Function.update bins i (bins i ++ [y])) a → m' a = s.mem a) s := by
  obtain ⟨pre, x, hx, hxm⟩ := Cells.exists_pred (slabHd s.heap i) (bins i)
  have hhd : slabBin s.heap i + 8 = slabHd s.heap i + 16 := by
    have := slabHd_eq (i := i) h.pos h.base
    unfold slabBin
    omega
  have hlast : s.mem (slabHd s.heap i + 16) = x := h.lists.last hi hx trivial
  obtain ⟨hxy, hxy8, hxy16⟩ := h.ne_fresh hi hxm hy hfresh
  obtain ⟨hhy, hhy8, hhy16⟩ := h.ne_fresh hi (.inl rfl) hy hfresh
  have hne : x + 8 ≠ slabHd s.heap i + 16 :=
    h.lists.next_cell_ne_prev_cell h.layout hi hi hxm (.inl rfl) trivial
  have hvy : s.Valid (y + 8) ∧ s.Valid (y + 16) := by
    have hb := h.base
    unfold SlabNode at hy
    exact ⟨⟨by omega, by omega, by omega⟩, ⟨by omega, by omega, by omega⟩⟩
  unfold _slabLink
  simp only [wp_bind, wp_load64, wp_store64, setMem_valid,
    show slabBinStart (slabBin s.heap i) = slabHd s.heap i from rfl]
  rw [hhd, hlast]
  refine ⟨h.valid_prev hi (.inl rfl), hvy.1, hvy.2, h.valid_prev hi (.inl rfl),
    h.valid_next hi hxm, _, rfl, ?_⟩
  refine h.linked hi (List.append_nil _).symm hx (show [] ++ _ = _ from rfl) hy hroom hfresh ?_ ?_ ?_ ?_ ?_
  · simp
  · simp [hne.symm]
  · simp only [setMem_mem]
    rw [Function.update_of_ne (by omega), Function.update_of_ne (by omega),
      Function.update_of_ne (by omega), Function.update_self]
  · simp only [setMem_mem]
    rw [Function.update_of_ne (by omega), Function.update_of_ne (by omega), Function.update_self]
  · intro a h₁ h₂ h₃ h₄
    simp [h₁, h₂, h₃, h₄]

/-- The walk of `__slab_link_large` stops between the regions of at most
`nSlabs` slabs and the larger ones. -/
theorem slabLinkLargeWalk_spec {s : Heap} {bins : Nat → List Nat} (h : SlabLists s bins)
    {i n : Nat} (hi : i < 128) (hsorted : (bins i).Pairwise fun x y => s.mem (x + 24) ≤ s.mem (y + 24))
    (fuel : Nat) : ∀ (l₁ l₂ pre post : List Nat) (x z : Nat), bins i = l₁ ++ l₂ →
      slabHd s.heap i :: l₁ = pre ++ [x] → l₂ ++ [slabHd s.heap i] = z :: post →
      (∀ y ∈ l₂, n < s.mem (y + 24)) → l₁.length < fuel →
      wp (slabLinkLargeWalk (slabHd s.heap i) n fuel z x) (fun p t => t = s ∧
        ∃ l₁' l₂' pre' post', bins i = l₁' ++ l₂' ∧ slabHd s.heap i :: l₁' = pre' ++ [p.2] ∧
          l₂' ++ [slabHd s.heap i] = p.1 :: post' ∧ (∀ y ∈ l₁', s.mem (y + 24) ≤ n) ∧
          ∀ y ∈ l₂', n < s.mem (y + 24)) s := by
  induction fuel with
  | zero => intro l₁ l₂ pre post x z _ _ _ _ hlen; omega
  | succ fuel ih =>
    intro l₁ l₂ pre post x z hb hx hz hgt hlen
    unfold slabLinkLargeWalk
    rcases List.eq_nil_or_concat l₁ with rfl | ⟨l₀, y, rfl⟩
    · -- the walk has reached the header
      have hxe : x = slabHd s.heap i := by
        have := List.append_inj_left' (show [] ++ _ = _ from hx) rfl
        subst this
        simpa using hx.symm
      simp only [hxe, if_true, wp_pure, true_and]
      exact ⟨[], l₂, [], post, hb, rfl, hz, by simp, hgt⟩
    · have hxy : x = y := by
        have : (slabHd s.heap i :: l₀) ++ [y] = pre ++ [x] := by simpa using hx
        exact (List.singleton_inj.mp (List.append_inj_right' this rfl)).symm
      subst hxy
      have hxm : x ∈ bins i := by rw [hb]; simp
      have hxh : x ≠ slabHd s.heap i := by
        rintro rfl
        exact h.layout.hd_not_node i hi (h.lists.node i _ hi hxm)
      obtain ⟨pre₀, w, hw, -⟩ := Cells.exists_pred (slabHd s.heap i) l₀
      have hb' : bins i = l₀ ++ x :: l₂ := by rw [hb]; simp
      obtain ⟨-, hprev⟩ := h.lists.neighbours h.layout hi hb' hw hz
      have hv24 : s.Valid (x + 24) := by
        have hn := h.lists.node i x hi hxm
        have := h.inRange i x hi hxm
        have hbase := h.base
        unfold SlabNode at hn
        exact ⟨by omega, by omega, by omega⟩
      simp only [hxh, if_false, wp_bind, wp_load64, wp_ite, wp_pure]
      refine ⟨hv24, ?_⟩
      by_cases hlt : n < s.mem (x + 24)
      · rw [if_pos hlt]
        refine ⟨h.valid_prev hi (.inr hxm), ?_⟩
        rw [show s.mem (x + 16) = w from hprev]
        refine ih l₀ (x :: l₂) pre₀ (l₂ ++ [slabHd s.heap i]) w x hb' hw rfl ?_ ?_
        · intro y hy
          rcases List.mem_cons.mp hy with rfl | hy
          · exact hlt
          · exact hgt y hy
        · simp only [List.concat_eq_append, List.length_append, List.length_singleton] at hlen
          omega
      · rw [if_neg hlt]
        refine ⟨trivial, l₀.concat x, l₂, pre, post, hb, hx, hz, fun y hy => ?_, hgt⟩
        rw [hb', List.pairwise_append] at hsorted
        simp only [List.concat_eq_append, List.mem_append, List.mem_singleton] at hy
        rcases hy with hy | rfl
        · have := hsorted.2.2 y hy x (by simp)
          omega
        · omega

/-- **`__slab_link_large`** inserts a region before the larger ones. -/
theorem _slabLinkLarge_spec {s : Heap} {bins : Nat → List Nat} (h : SlabLists s bins)
    (hend : s.heapEnd = s.brk) {i n y : Nat} (hi : i < 128)
    (hsorted : (bins i).Pairwise fun x y => s.mem (x + 24) ≤ s.mem (y + 24))
    (hy : SlabNode s.heap y) (hroom : y + 4096 ≤ s.brk) (hfresh : ∀ j, j < 128 → y ∉ bins j) :
    wp (_slabLinkLarge (slabBin s.heap i) y n) (fun _ t => ∃ m' l₁ l₂, t = { s with mem := m' } ∧
      bins i = l₁ ++ l₂ ∧ (∀ x ∈ l₁, s.mem (x + 24) ≤ n) ∧ (∀ x ∈ l₂, n < s.mem (x + 24)) ∧
      SlabLists { s with mem := m' } (Function.update bins i (l₁ ++ y :: l₂)) ∧
      ∀ a, ¬ SlabCell s.heap (Function.update bins i (l₁ ++ y :: l₂)) a → m' a = s.mem a) s := by
  obtain ⟨pre, x, hx, hxm⟩ := Cells.exists_pred (slabHd s.heap i) (bins i)
  have hhd : slabBin s.heap i + 8 = slabHd s.heap i + 16 := by
    have := slabHd_eq (i := i) h.pos h.base
    unfold slabBin
    omega
  have hlast : s.mem (slabHd s.heap i + 16) = x := h.lists.last hi hx trivial
  have hvy : s.Valid (y + 8) ∧ s.Valid (y + 16) := by
    have hb := h.base
    unfold SlabNode at hy
    exact ⟨⟨by omega, by omega, by omega⟩, ⟨by omega, by omega, by omega⟩⟩
  unfold _slabLinkLarge
  simp only [wp_bind, wp_get, wp_load64]
  rw [hhd, hlast]
  refine ⟨h.valid_prev hi (.inl rfl), ?_⟩
  refine wp_mono (slabLinkLargeWalk_spec h hi hsorted s.walkFuel (bins i) [] pre [] x _
    (List.append_nil _).symm hx rfl (by simp) (h.length_lt_walkFuel hend hi)) ?_
  rintro ⟨z, w⟩ t ⟨ht, l₁, l₂, pre', post', hb, hw, hz, hle, hgt⟩
  subst t
  have hwm : w = slabHd s.heap i ∨ w ∈ bins i := by
    have : w ∈ slabHd s.heap i :: l₁ := by rw [hw]; simp
    rw [hb]
    exact (List.mem_cons.mp this).imp_right (List.mem_append_left _)
  have hzm : z = slabHd s.heap i ∨ z ∈ bins i := by
    have : z ∈ l₂ ++ [slabHd s.heap i] := by rw [hz]; simp
    rw [hb]
    rcases List.mem_append.mp this with hm | hm
    · exact .inr (List.mem_append_right _ hm)
    · exact .inl (List.mem_singleton.mp hm)
  obtain ⟨hwy, hwy8, hwy16⟩ := h.ne_fresh hi hwm hy hfresh
  obtain ⟨hzy, hzy8, hzy16⟩ := h.ne_fresh hi hzm hy hfresh
  have hne : w + 8 ≠ z + 16 := h.lists.next_cell_ne_prev_cell h.layout hi hi hwm hzm trivial
  simp only [wp_store64, setMem_valid]
  refine ⟨hvy.1, hvy.2, h.valid_prev hi hzm, h.valid_next hi hwm, _, l₁, l₂, rfl, hb, hle, hgt, ?_⟩
  refine h.linked hi hb hw hz hy hroom hfresh ?_ ?_ ?_ ?_ ?_
  · simp
  · simp [hne.symm]
  · simp only [setMem_mem]
    rw [Function.update_of_ne (by omega), Function.update_of_ne (by omega),
      Function.update_of_ne (by omega), Function.update_self]
  · simp only [setMem_mem]
    rw [Function.update_of_ne (by omega), Function.update_of_ne (by omega), Function.update_self]
  · intro a h₁ h₂ h₃ h₄
    simp [h₁, h₂, h₃, h₄]

end MallocBench.Slab
