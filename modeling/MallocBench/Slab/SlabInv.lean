import MallocBench.Slab.SlabLists

/-!
# The invariant of the slab layer

The heap after its first page is tiled by regions: runs of slabs that are free,
or allocated as a packed slab or a large region. A region is `raw` between its
allocation and the caller setting its size. `Tiles` walks the regions with the
alloc status of the predecessor, as the previous-alloc bits record it.

The operations take regions out of the tiling, rewrite them and put them back.
`Gap` is the invariant with the words from `a` to `b` left out of the tiling;
`SlabInv` is the case without a gap.
-/

namespace MallocBench.Slab

open Lib

/-! ## Regions -/

inductive SlabKind
  | free
  | packed
  | large
  | raw
  deriving DecidableEq, Repr

/-- A run of `n` slabs. -/
structure Region where
  addr : Nat
  n : Nat
  kind : SlabKind
  deriving DecidableEq, Repr

namespace Region

def stop (r : Region) : Nat := r.addr + 4096 * r.n

def isAlloc (r : Region) : Bool := r.kind != .free

/-- What the words of a region hold that the slab layer relies on, when `p` is
the alloc status of the region before it. -/
def Ok (m : Nat → Nat) (p : Bool) (r : Region) : Prop :=
  0 < r.n ∧ (m r.addr).testBit 0 = r.isAlloc ∧ (m r.addr).testBit 1 = p ∧
    match r.kind with
    | .free => m (r.addr + 24) = r.n ∧ m (r.stop - 8) = r.n
    | .packed => (m r.addr).testBit 2 = true ∧ r.n = 1
    | .large => (m r.addr).testBit 2 = false ∧ m (r.addr + 8) % 2 ^ 56 = r.n
    | .raw => True

/-- Two memories agree on what the slab layer relies on in a region. -/
structure Agree (m m' : Nat → Nat) (r : Region) : Prop where
  header : ∀ i, i < 3 → (m' r.addr).testBit i = (m r.addr).testBit i
  size : r.kind = .large → m' (r.addr + 8) % 2 ^ 56 = m (r.addr + 8) % 2 ^ 56
  free : r.kind = .free →
    m' (r.addr + 24) = m (r.addr + 24) ∧ m' (r.stop - 8) = m (r.stop - 8)

variable {m m' : Nat → Nat} {p : Bool} {r : Region}

theorem isAlloc_eq_false : r.isAlloc = false ↔ r.kind = .free := by
  unfold isAlloc
  cases r.kind <;> decide

theorem isAlloc_eq_true : r.isAlloc = true ↔ r.kind ≠ .free := by
  unfold isAlloc
  cases r.kind <;> decide

theorem addr_lt_stop (h : 0 < r.n) : r.addr + 4096 ≤ r.stop := by
  unfold stop
  omega

theorem Agree.refl : Agree m m r := ⟨fun _ _ => rfl, fun _ => rfl, fun _ => ⟨rfl, rfl⟩⟩

/-- Memories that agree on all words of a region agree on the region. -/
theorem Agree.of_eq (hn : 0 < r.n) (h : ∀ x, r.addr ≤ x → x < r.stop → m' x = m x) :
    Agree m m' r := by
  have := addr_lt_stop hn
  refine ⟨fun i _ => by rw [h r.addr (by omega) (by omega)],
    fun _ => by rw [h (r.addr + 8) (by omega) (by omega)],
    fun _ => ⟨h _ (by omega) (by omega), h _ (by omega) (by omega)⟩⟩

theorem Ok.congr (h : r.Ok m p) (hag : r.Agree m m') : r.Ok m' p := by
  obtain ⟨hn, h0, h1, hk⟩ := h
  have := addr_lt_stop hn
  refine ⟨hn, by rw [hag.header 0 (by omega), h0], by rw [hag.header 1 (by omega), h1], ?_⟩
  cases hkind : r.kind with
  | free =>
    rw [hkind] at hk
    have hf := hag.free hkind
    exact ⟨by rw [hf.1, hk.1], by rw [hf.2, hk.2]⟩
  | packed =>
    rw [hkind] at hk
    exact ⟨by rw [hag.header 2 (by omega), hk.1], hk.2⟩
  | large =>
    rw [hkind] at hk
    exact ⟨by rw [hag.header 2 (by omega), hk.1], by rw [hag.size hkind, hk.2]⟩
  | raw => trivial

theorem Ok.pos (h : r.Ok m p) : 0 < r.n := h.1

theorem Ok.alloc_bit (h : r.Ok m p) : (m r.addr).testBit 0 = r.isAlloc := h.2.1

theorem Ok.prev_bit (h : r.Ok m p) : (m r.addr).testBit 1 = p := h.2.2.1

theorem Ok.num_slabs (h : r.Ok m p) (hk : r.kind = .free) : m (r.addr + 24) = r.n := by
  have := h.2.2.2
  rw [hk] at this
  exact this.1

theorem Ok.footer (h : r.Ok m p) (hk : r.kind = .free) : m (r.stop - 8) = r.n := by
  have := h.2.2.2
  rw [hk] at this
  exact this.2

/-- The headers say which region starts at an address. -/
theorem Ok.unique {p' : Bool} {r' : Region} (h : r.Ok m p) (h' : r'.Ok m p')
    (haddr : r.addr = r'.addr) (hk : r.kind ≠ .raw) (hk' : r'.kind ≠ .raw) : r = r' := by
  obtain ⟨-, h0, -, hr⟩ := h
  obtain ⟨-, h0', -, hr'⟩ := h'
  obtain ⟨a, n, kind⟩ := r
  obtain ⟨a', n', kind'⟩ := r'
  obtain rfl : a = a' := haddr
  have halloc : (⟨a, n, kind⟩ : Region).isAlloc = (⟨a, n', kind'⟩ : Region).isAlloc :=
    h0.symm.trans h0'
  -- the alloc bit tells free regions apart, and the packed bit the others
  cases kind <;> cases kind' <;> simp_all [Region.isAlloc]

instance (m : Nat → Nat) (p : Bool) : (r : Region) → Decidable (r.Ok m p)
  | ⟨_, _, .free⟩ | ⟨_, _, .packed⟩ | ⟨_, _, .large⟩ =>
    inferInstanceAs (Decidable (_ ∧ _ ∧ _ ∧ _ ∧ _))
  | ⟨_, _, .raw⟩ => inferInstanceAs (Decidable (_ ∧ _ ∧ _ ∧ True))

end Region

/-! ## Tilings -/

/-- The regions `L` tile the heap from `a` to `e`, no two free regions are
adjacent, and every previous-alloc bit is right; `p` and `q` are the alloc status
of what comes before `a` and before `e`. -/
def Tiles (m : Nat → Nat) : Nat → Bool → List Region → Nat → Bool → Prop
  | a, p, [], e, q => a = e ∧ p = q
  | a, p, r :: L, e, q =>
    r.addr = a ∧ r.Ok m p ∧ (p || r.isAlloc) = true ∧ Tiles m r.stop r.isAlloc L e q

namespace Tiles

variable {m m' : Nat → Nat} {a e : Nat} {p q : Bool} {A B L : List Region} {r : Region}

theorem append_iff :
    Tiles m a p (A ++ B) e q ↔ ∃ x y, Tiles m a p A x y ∧ Tiles m x y B e q := by
  induction A generalizing a p with
  | nil =>
    constructor
    · exact fun h => ⟨a, p, ⟨rfl, rfl⟩, h⟩
    · rintro ⟨x, y, ⟨rfl, rfl⟩, h⟩
      exact h
  | cons r A ih =>
    simp only [List.cons_append, Tiles, ih]
    constructor
    · rintro ⟨ha, hok, hc, x, y, hA, hB⟩
      exact ⟨x, y, ⟨ha, hok, hc, hA⟩, hB⟩
    · rintro ⟨x, y, ⟨ha, hok, hc, hA⟩, hB⟩
      exact ⟨ha, hok, hc, x, y, hA, hB⟩

theorem le (h : Tiles m a p L e q) : a ≤ e := by
  induction L generalizing a p with
  | nil => exact h.1.le
  | cons r L ih =>
    obtain ⟨rfl, hok, -, hL⟩ := h
    have := ih hL
    have := Region.addr_lt_stop hok.pos
    omega

/-- Every region of a tiling has its header, and lies between the ends. -/
theorem mem (h : Tiles m a p L e q) (hr : r ∈ L) :
    (∃ p', r.Ok m p') ∧ a ≤ r.addr ∧ r.stop ≤ e := by
  induction L generalizing a p with
  | nil => cases hr
  | cons r' L ih =>
    obtain ⟨rfl, hok, -, hL⟩ := h
    have := Region.addr_lt_stop hok.pos
    rcases List.mem_cons.mp hr with rfl | hr
    · exact ⟨⟨p, hok⟩, le_refl _, hL.le⟩
    · obtain ⟨hok', h₁, h₂⟩ := ih hL hr
      exact ⟨hok', by omega, h₂⟩

theorem aligned (h : Tiles m a p L e q) (ha : a % 4096 = 0) :
    e % 4096 = 0 ∧ ∀ r ∈ L, r.addr % 4096 = 0 := by
  induction L generalizing a p with
  | nil => exact ⟨by rw [← h.1, ha], by simp⟩
  | cons r L ih =>
    obtain ⟨rfl, hok, -, hL⟩ := h
    obtain ⟨he, hL'⟩ := ih hL (by unfold Region.stop; omega)
    refine ⟨he, fun r' hr' => ?_⟩
    rcases List.mem_cons.mp hr' with rfl | hr'
    · exact ha
    · exact hL' r' hr'

theorem pairwise (h : Tiles m a p L e q) : L.Pairwise fun r r' => r.stop ≤ r'.addr := by
  induction L generalizing a p with
  | nil => exact List.Pairwise.nil
  | cons r L ih =>
    obtain ⟨rfl, hok, -, hL⟩ := h
    exact List.pairwise_cons.mpr ⟨fun r' hr' => (hL.mem hr').2.1, ih hL⟩

/-- Two regions of a tiling that share a word are the same. -/
theorem eq_of_mem {r' : Region} {x : Nat} (h : Tiles m a p L e q) (hr : r ∈ L) (hr' : r' ∈ L)
    (hx : r.addr ≤ x ∧ x < r.stop) (hx' : r'.addr ≤ x ∧ x < r'.stop) : r = r' := by
  have hp := h.pairwise
  by_contra hne
  obtain ⟨i, hi, rfl⟩ := List.mem_iff_getElem.mp hr
  obtain ⟨j, hj, rfl⟩ := List.mem_iff_getElem.mp hr'
  rcases Nat.lt_trichotomy i j with hij | rfl | hij
  · have := List.pairwise_iff_getElem.mp hp i j hi hj hij
    omega
  · exact hne rfl
  · have := List.pairwise_iff_getElem.mp hp j i hj hi hij
    omega

/-- Regions of a tiling with one address are the same. -/
theorem eq_of_addr {r' : Region} (h : Tiles m a p L e q) (hr : r ∈ L) (hr' : r' ∈ L)
    (haddr : r.addr = r'.addr) : r = r' := by
  obtain ⟨⟨_, hok⟩, -, -⟩ := h.mem hr
  obtain ⟨⟨_, hok'⟩, -, -⟩ := h.mem hr'
  have := Region.addr_lt_stop hok.pos
  have := Region.addr_lt_stop hok'.pos
  exact h.eq_of_mem hr hr' (x := r.addr) (by omega) (by omega)

theorem congr (h : Tiles m a p L e q) (hag : ∀ r ∈ L, r.Agree m m') : Tiles m' a p L e q := by
  induction L generalizing a p with
  | nil => exact h
  | cons r L ih =>
    obtain ⟨ha, hok, hc, hL⟩ := h
    exact ⟨ha, hok.congr (hag r (by simp)), hc, ih hL fun r' hr' => hag r' (by simp [hr'])⟩

/-- A heap has one tiling. -/
theorem unique {L' : List Region} {p' q' : Bool} (h : Tiles m a p L e q) (h' : Tiles m a p' L' e q')
    (hk : ∀ r ∈ L, r.kind ≠ .raw) (hk' : ∀ r ∈ L', r.kind ≠ .raw) : L = L' := by
  induction L generalizing a p p' L' with
  | nil =>
    cases L' with
    | nil => rfl
    | cons r' L' =>
      obtain ⟨haddr, hok, -, htail⟩ := h'
      have hstop := Region.addr_lt_stop hok.pos
      have hle := htail.le
      have hend := h.1
      omega
  | cons r L ih =>
    obtain ⟨haddr, hok, -, htail⟩ := h
    have hstop := Region.addr_lt_stop hok.pos
    have hle := htail.le
    cases L' with
    | nil =>
      have hend := h'.1
      omega
    | cons r' L' =>
      obtain ⟨haddr', hok', -, htail'⟩ := h'
      obtain rfl := hok.unique hok' (haddr.trans haddr'.symm) (hk r List.mem_cons_self)
        (hk' r' List.mem_cons_self)
      rw [ih htail htail' (fun r hr => hk r (List.mem_cons_of_mem _ hr))
        fun r hr => hk' r (List.mem_cons_of_mem _ hr)]

instance decidable (m : Nat → Nat) :
    (L : List Region) → (a : Nat) → (p : Bool) → (e : Nat) → (q : Bool) → Decidable (Tiles m a p L e q)
  | [], _, _, _, _ => inferInstanceAs (Decidable (_ ∧ _))
  | r :: L, _, _, e, q =>
    have := decidable m L r.stop r.isAlloc e q
    inferInstanceAs (Decidable (_ ∧ _ ∧ _ ∧ _))

end Tiles

/-! ## The invariant -/

/-- The bins of free regions, for the regions `L`. -/
structure FreeLists (s : Heap) (L : List Region) (bins : Nat → List Nat) : Prop where
  /-- the bins are rings of slabs -/
  lists : SlabLists s bins
  /-- they hold exactly the free regions, each in the bin of its size -/
  mem_bins : ∀ i x, i < 128 →
    (x ∈ bins i ↔ ∃ r ∈ L, r.kind = .free ∧ r.addr = x ∧ slabBinIdx r.n = i)
  /-- the last bin is sorted by size -/
  sorted : (bins 127).Pairwise fun x y =>
    ∀ r ∈ L, ∀ r' ∈ L, r.addr = x → r'.addr = y → r.n ≤ r'.n
  /-- the skiplist has the bit of every non-empty bin but the last -/
  skiplist : ∀ i, i < 127 → bins i ≠ [] → (s.slabSkiplist (i / 32)).getLsbD (i % 32) = true
  skiplist_last : (s.slabSkiplist 3).getLsbD 31 = false

/-- **The invariant of the slab layer.** -/
structure SlabInv (s : Heap) (L : List Region) (bins : Nat → List Nat) : Prop where
  brk : s.heapEnd = s.brk
  /-- the regions tile the heap, and `LAST_SLAB_ALLOC` is right -/
  tiles : Tiles s.mem (s.heap + 4096) true L s.heapEnd (s.flags.getLsbD 0)
  free : FreeLists s L bins

/-- A tiling that leaves out the words from `a` to `b`: `A` tiles the heap up to
`a`, `B` from `b` on, and `q` is the alloc status `B` has recorded. -/
structure Tiling (s : Heap) (A : List Region) (a : Nat) (p : Bool) (b : Nat) (q : Bool)
    (B : List Region) : Prop where
  brk : s.heapEnd = s.brk
  base : s.heap % 4096 = 0
  left : Tiles s.mem (s.heap + 4096) true A a p
  le : a ≤ b
  aligned : b % 4096 = 0
  right : Tiles s.mem b q B s.heapEnd (s.flags.getLsbD 0)

/-- The invariant with the words from `a` to `b` left out. -/
structure Gap (s : Heap) (A : List Region) (a : Nat) (p : Bool) (b : Nat) (q : Bool)
    (B : List Region) (bins : Nat → List Nat) : Prop where
  tiling : Tiling s A a p b q B
  free : FreeLists s (A ++ B) bins

namespace Tiling

variable {s t : Heap} {A B : List Region} {a b : Nat} {p q : Bool} {r : Region}

theorem start_aligned (h : Tiling s A a p b q B) : a % 4096 = 0 := by
  refine (h.left.aligned ?_).1
  have := h.base
  omega

theorem start_ge (h : Tiling s A a p b q B) : s.heap + 4096 ≤ a := h.left.le

theorem end_le (h : Tiling s A a p b q B) : b ≤ s.heapEnd := h.right.le

/-- The regions lie outside the gap. -/
theorem mem_outside (h : Tiling s A a p b q B) (hr : r ∈ A ++ B) :
    0 < r.n ∧ r.addr % 4096 = 0 ∧ s.heap + 4096 ≤ r.addr ∧ r.stop ≤ s.heapEnd ∧
      (r.stop ≤ a ∨ b ≤ r.addr) := by
  have hbase := h.base
  have hab := h.le
  have hend := h.end_le
  have hstart := h.start_ge
  rcases List.mem_append.mp hr with hr | hr
  · obtain ⟨⟨_, hok⟩, h₁, h₂⟩ := h.left.mem hr
    exact ⟨hok.pos, (h.left.aligned (by omega)).2 r hr, h₁, by omega, .inl h₂⟩
  · obtain ⟨⟨_, hok⟩, h₁, h₂⟩ := h.right.mem hr
    exact ⟨hok.pos, (h.right.aligned h.aligned).2 r hr, by omega, h₂, .inr h₁⟩

/-- Two regions that share a word are the same. -/
theorem eq_of_mem {r' : Region} {x : Nat} (h : Tiling s A a p b q B) (hr : r ∈ A ++ B)
    (hr' : r' ∈ A ++ B) (hx : r.addr ≤ x ∧ x < r.stop) (hx' : r'.addr ≤ x ∧ x < r'.stop) :
    r = r' := by
  have hab := h.le
  rcases List.mem_append.mp hr with hA | hB <;> rcases List.mem_append.mp hr' with hA' | hB'
  · exact h.left.eq_of_mem hA hA' hx hx'
  · have := (h.left.mem hA).2.2
    have := (h.right.mem hB').2.1
    omega
  · have := (h.left.mem hA').2.2
    have := (h.right.mem hB).2.1
    omega
  · exact h.right.eq_of_mem hB hB' hx hx'

theorem eq_of_addr {r' : Region} (h : Tiling s A a p b q B) (hr : r ∈ A ++ B)
    (hr' : r' ∈ A ++ B) (haddr : r.addr = r'.addr) : r = r' := by
  have := Region.addr_lt_stop (h.mem_outside hr).1
  have := Region.addr_lt_stop (h.mem_outside hr').1
  exact h.eq_of_mem hr hr' (x := r.addr) (by omega) (by omega)

theorem congr (h : Tiling s A a p b q B) (hheap : t.heap = s.heap) (hbrk : t.brk = s.brk)
    (hend : t.heapEnd = s.heapEnd) (hflags : t.flags = s.flags)
    (hag : ∀ r ∈ A ++ B, r.Agree s.mem t.mem) : Tiling t A a p b q B := by
  refine ⟨?_, ?_, ?_, h.le, h.aligned, ?_⟩
  · rw [hend, hbrk, h.brk]
  · rw [hheap, h.base]
  · rw [hheap]
    exact h.left.congr fun r hr => hag r (List.mem_append_left _ hr)
  · rw [hend, hflags]
    exact h.right.congr fun r hr => hag r (List.mem_append_right _ hr)

/-- Writing link cells of free regions, or in the gap, does not touch the tiling. -/
theorem agree_of_links (h : Tiling s A a p b q B) {m' : Nat → Nat}
    (hm : ∀ x, m' x = s.mem x ∨ (s.heap ≤ x ∧ x < s.heap + 4096) ∨
      (∃ r ∈ A ++ B, r.kind = .free ∧ (x = r.addr + 8 ∨ x = r.addr + 16)) ∨ (a ≤ x ∧ x < b)) :
    ∀ r ∈ A ++ B, r.Agree s.mem m' := by
  intro r hr
  obtain ⟨hn, hal, hge, hle, hout⟩ := h.mem_outside hr
  have hstop := Region.addr_lt_stop hn
  -- a word of `r` that is not one of its link cells
  have key : ∀ x, r.addr ≤ x → x < r.stop → x % 4096 ≠ 16 → (x % 4096 = 8 → x = r.addr + 8 ∧ r.kind ≠ .free) →
      m' x = s.mem x := by
    intro x h₁ h₂ h16 h8
    rcases hm x with hx | hx | ⟨r', hr', hk', hx⟩ | hx
    · exact hx
    · omega
    · obtain ⟨hn', hal', -⟩ := h.mem_outside hr'
      have hstop' := Region.addr_lt_stop hn'
      rcases hx with hx | hx
      · obtain ⟨hx8, hk⟩ := h8 (by omega)
        obtain rfl := h.eq_of_addr hr hr' (by omega)
        exact absurd hk' hk
      · omega
    · omega
  have hmod : r.stop % 4096 = 0 := by
    unfold Region.stop
    omega
  refine ⟨fun i _ => ?_, fun hk => ?_, fun hk => ⟨?_, ?_⟩⟩
  · rw [key r.addr (le_refl _) (by omega) (by omega) (by omega)]
  · rw [key (r.addr + 8) (by omega) (by omega) (by omega) (fun _ => ⟨rfl, by rw [hk]; decide⟩)]
  · exact key _ (by omega) (by omega) (by omega) (by omega)
  · exact key _ (by omega) (by omega) (by omega) (by omega)

/-- An allocated region may be taken out of the tiling as it is. -/
theorem drop (h : Tiling s A a p b q (r :: B)) :
    r.addr = b ∧ r.Ok s.mem q ∧ (q || r.isAlloc) = true ∧
      Tiling s A a p r.stop r.isAlloc B := by
  obtain ⟨hb, hok, hc, hB⟩ := h.right
  have hal := h.aligned
  have hstop := Region.addr_lt_stop hok.pos
  have hle := h.le
  exact ⟨hb, hok, hc, h.brk, h.base, h.left, by omega, by unfold Region.stop; omega, hB⟩

/-- A region may be put into the gap. -/
theorem cons (h : Tiling s A a p r.stop r.isAlloc B) (ha : a ≤ r.addr)
    (hal : r.addr % 4096 = 0) (hok : r.Ok s.mem q) (hc : (q || r.isAlloc) = true) :
    Tiling s A a p r.addr q (r :: B) :=
  ⟨h.brk, h.base, h.left, ha, hal, rfl, hok, hc, h.right⟩

end Tiling

namespace FreeLists

variable {s t : Heap} {A B L : List Region} {r : Region} {bins : Nat → List Nat}

/-- Link cells lie in the bin array or inside free regions. -/
theorem cell_cases (h : FreeLists s L bins) {x : Nat} (hx : SlabCell s.heap bins x) :
    (s.heap ≤ x ∧ x < s.heap + 2048) ∨
      ∃ r ∈ L, r.kind = .free ∧ (x = r.addr + 8 ∨ x = r.addr + 16) := by
  rcases h.lists.cell_cases hx with hx | ⟨i, y, hi, hy, hx⟩
  · exact .inl hx
  · obtain ⟨r, hr, hk, rfl, -⟩ := (h.mem_bins i y hi).mp hy
    exact .inr ⟨r, hr, hk, hx⟩

theorem congr (h : FreeLists s L bins) (hheap : t.heap = s.heap) (hbrk : s.brk ≤ t.brk)
    (hskip : t.slabSkiplist = s.slabSkiplist)
    (hcell : ∀ x, SlabCell s.heap bins x → t.mem x = s.mem x) : FreeLists t L bins := by
  refine ⟨⟨?_, ?_, ?_, ?_, ?_⟩, h.mem_bins, h.sorted, ?_, ?_⟩
  · rw [hheap, h.lists.base]
  · rw [hheap]
    exact h.lists.pos
  · rw [hheap]
    exact h.lists.room.trans hbrk
  · rw [hheap]
    exact h.lists.lists.congr hcell
  · exact fun i x hi hx => (h.lists.inRange i x hi hx).trans hbrk
  · rw [hskip]
    exact h.skiplist
  · rw [hskip]
    exact h.skiplist_last

/-- The lists depend on the free regions only. -/
theorem of_mem_iff {L' : List Region} (h : FreeLists s L bins)
    (hL : ∀ r, r.kind = .free → (r ∈ L' ↔ r ∈ L)) (hfree : ∀ i x, i < 128 → x ∈ bins i →
      ∀ r ∈ L', r.addr = x → r.kind = .free) : FreeLists s L' bins := by
  refine ⟨h.lists, fun i x hi => (h.mem_bins i x hi).trans ?_, ?_, h.skiplist, h.skiplist_last⟩
  · refine exists_congr fun r => ⟨?_, ?_⟩
    · rintro ⟨hr, hk, hrest⟩
      exact ⟨(hL r hk).mpr hr, hk, hrest⟩
    · rintro ⟨hr, hk, hrest⟩
      exact ⟨(hL r hk).mp hr, hk, hrest⟩
  · refine h.sorted.imp_of_mem fun {x y} hx hy hxy r hr r' hr' hrx hry => ?_
    have hk := hfree 127 x (by omega) hx r hr hrx
    have hk' := hfree 127 y (by omega) hy r' hr' hry
    exact hxy r ((hL r hk).mp hr) r' ((hL r' hk').mp hr') hrx hry

end FreeLists

theorem SlabInv.split {s : Heap} {A B : List Region} {bins : Nat → List Nat}
    (h : SlabInv s (A ++ B) bins) : ∃ a p, Gap s A a p a p B bins := by
  obtain ⟨a, p, hA, hB⟩ := Tiles.append_iff.mp h.tiles
  have hbase := h.free.lists.base
  exact ⟨a, p, ⟨h.brk, hbase, hA, le_refl _, (hA.aligned (by omega)).1, hB⟩, h.free⟩

namespace Gap

variable {s t : Heap} {A B : List Region} {a b : Nat} {p q : Bool} {r : Region}
  {bins : Nat → List Nat}

theorem join (h : Gap s A a p a p B bins) : SlabInv s (A ++ B) bins :=
  ⟨h.tiling.brk, Tiles.append_iff.mpr ⟨a, p, h.tiling.left, h.tiling.right⟩, h.free⟩

/-- The free regions have their links, and the tiling what it relies on. -/
theorem congr (h : Gap s A a p b q B bins) (hheap : t.heap = s.heap) (hbrk : t.brk = s.brk)
    (hend : t.heapEnd = s.heapEnd) (hflags : t.flags = s.flags)
    (hskip : t.slabSkiplist = s.slabSkiplist)
    (hpage : ∀ x, s.heap ≤ x → x < s.heap + 2048 → t.mem x = s.mem x)
    (hag : ∀ r ∈ A ++ B, r.Agree s.mem t.mem) (hlinks : ∀ r ∈ A ++ B, r.kind = .free →
      t.mem (r.addr + 8) = s.mem (r.addr + 8) ∧ t.mem (r.addr + 16) = s.mem (r.addr + 16)) :
    Gap t A a p b q B bins := by
  refine ⟨h.tiling.congr hheap hbrk hend hflags hag, h.free.congr hheap hbrk.ge hskip ?_⟩
  intro x hx
  rcases h.free.cell_cases hx with hx | ⟨r, hr, hk, rfl | rfl⟩
  · exact hpage x hx.1 hx.2
  · exact (hlinks r hr hk).1
  · exact (hlinks r hr hk).2

/-- Words inside the gap may be written. -/
theorem setMem (h : Gap s A a p b q B bins) {x v : Nat} (h₁ : a ≤ x) (h₂ : x < b) :
    Gap (s.setMem x v) A a p b q B bins := by
  have hstart := h.tiling.start_ge
  have hout : ∀ r ∈ A ++ B, ∀ y, r.addr ≤ y → y < r.stop → (s.setMem x v).mem y = s.mem y := by
    intro r hr y hy₁ hy₂
    obtain ⟨-, -, -, -, hout⟩ := h.tiling.mem_outside hr
    exact Function.update_of_ne (by omega) _ _
  refine h.congr rfl rfl rfl rfl rfl (fun y hy₁ hy₂ => ?_) (fun r hr => ?_) (fun r hr hk => ?_)
  · exact Function.update_of_ne (by omega) _ _
  · exact Region.Agree.of_eq (h.tiling.mem_outside hr).1 (hout r hr)
  · have := Region.addr_lt_stop (h.tiling.mem_outside hr).1
    exact ⟨hout r hr _ (by omega) (by omega), hout r hr _ (by omega) (by omega)⟩

/-- An allocated region may be taken out of the tiling as it is. -/
theorem drop_alloc (h : Gap s A a p b q (r :: B) bins) (hr : r.isAlloc = true) :
    r.addr = b ∧ r.Ok s.mem q ∧ Gap s A a p r.stop true B bins := by
  obtain ⟨hb, hok, -, htil⟩ := h.tiling.drop
  have hk : r.kind ≠ .free := Region.isAlloc_eq_true.mp hr
  rw [hr] at htil
  refine ⟨hb, hok, htil, h.free.of_mem_iff (fun r' hk' => ?_) fun i x hi hx r' hr' hx' => ?_⟩
  · have hne : r' ≠ r := fun heq => hk (heq ▸ hk')
    simp [hne]
  · obtain ⟨r₀, hr₀, hk₀, hx₀, -⟩ := (h.free.mem_bins i x hi).mp hx
    have hr'' : r' ∈ A ++ r :: B := by
      rcases List.mem_append.mp hr' with hm | hm
      · exact List.mem_append_left _ hm
      · exact List.mem_append_right _ (List.mem_cons_of_mem _ hm)
    rw [h.tiling.eq_of_addr hr'' hr₀ (hx'.trans hx₀.symm)]
    exact hk₀

/-- An allocated region may be put into the gap. -/
theorem cons_alloc (h : Gap s A a p r.stop true B bins) (hr : r.isAlloc = true)
    (ha : a ≤ r.addr) (hal : r.addr % 4096 = 0) (hok : r.Ok s.mem q) :
    Gap s A a p r.addr q (r :: B) bins := by
  have hk : r.kind ≠ .free := Region.isAlloc_eq_true.mp hr
  have htil : Tiling s A a p r.addr q (r :: B) :=
    Tiling.cons (by rw [hr]; exact h.tiling) ha hal hok (by simp [hr])
  refine ⟨htil, h.free.of_mem_iff (fun r' hk' => ?_) fun i x hi hx r' hr' hx' => ?_⟩
  · have hne : r' ≠ r := fun heq => hk (heq ▸ hk')
    simp [hne]
  · obtain ⟨r₀, hr₀, hk₀, hx₀, -⟩ := (h.free.mem_bins i x hi).mp hx
    have hr₀' : r₀ ∈ A ++ r :: B := by
      rcases List.mem_append.mp hr₀ with hm | hm
      · exact List.mem_append_left _ hm
      · exact List.mem_append_right _ (List.mem_cons_of_mem _ hm)
    rw [htil.eq_of_addr hr' hr₀' (hx'.trans hx₀.symm)]
    exact hk₀

/-- The front of an allocated region stays in the tiling, its end is given up. -/
theorem truncate (h : Gap s A a p a p (r :: B) bins) (hr : r.isAlloc = true) {j : Nat}
    (hj : 0 < j) (hjn : j ≤ r.n) :
    Gap s (A ++ [⟨r.addr, j, .raw⟩]) (r.addr + 4096 * j) true r.stop true B bins := by
  obtain ⟨ha, hok, hgap⟩ := h.drop_alloc hr
  have hc : (p || r.isAlloc) = true := by simp [hr]
  refine ⟨⟨hgap.tiling.brk, hgap.tiling.base, ?_, ?_, hgap.tiling.aligned, hgap.tiling.right⟩, ?_⟩
  · refine Tiles.append_iff.mpr ⟨a, p, hgap.tiling.left, ha, ⟨hj, ?_, hok.prev_bit, trivial⟩, ?_,
      rfl, rfl⟩
    · rw [hok.alloc_bit, hr]
      rfl
    · simp [Region.isAlloc]
  · unfold Region.stop
    omega
  · refine hgap.free.of_mem_iff (fun r' hk' => ?_) fun i x hi hx r' hr' hx' => ?_
    · have hne : r' ≠ ⟨r.addr, j, .raw⟩ := by
        rintro rfl
        cases hk'
      simp [hne]
    · obtain ⟨r₀, hr₀, hk₀, hx₀, -⟩ := (hgap.free.mem_bins i x hi).mp hx
      rcases List.mem_append.mp hr' with hm | hm
      · rcases List.mem_append.mp hm with hm | hm
        · rw [hgap.tiling.eq_of_addr (List.mem_append_left _ hm) hr₀ (hx'.trans hx₀.symm)]
          exact hk₀
        · -- no free region starts where the allocated one does
          obtain rfl := List.mem_singleton.mp hm
          obtain ⟨hn₀, -, -, -, hout⟩ := hgap.tiling.mem_outside hr₀
          have := Region.addr_lt_stop hn₀
          have := Region.addr_lt_stop hok.pos
          simp only at hx'
          omega
      · rw [hgap.tiling.eq_of_addr (List.mem_append_right _ hm) hr₀ (hx'.trans hx₀.symm)]
        exact hk₀

end Gap

/-- A region occurs once in a tiling. -/
theorem SlabInv.addr_ne {s : Heap} {A B : List Region} {r r' : Region}
    {bins : Nat → List Nat} (h : SlabInv s (A ++ r :: B) bins) (hr' : r' ∈ A ++ B) :
    r'.stop ≤ r.addr ∨ r.stop ≤ r'.addr := by
  have hp := h.tiles.pairwise
  rw [List.pairwise_append, List.pairwise_cons] at hp
  rcases List.mem_append.mp hr' with hm | hm
  · exact .inl (hp.2.2 r' hm r (by simp))
  · exact .inr (hp.2.1.1 r' hm)

theorem SlabInv.mem_facts {s : Heap} {L : List Region} {bins : Nat → List Nat}
    (h : SlabInv s L bins) {r : Region} (hr : r ∈ L) : 0 < r.n ∧ r.addr % 4096 = 0 ∧
      s.heap + 4096 ≤ r.addr ∧ r.stop ≤ s.heapEnd ∧ ∃ p, r.Ok s.mem p := by
  obtain ⟨⟨p, hok⟩, h₁, h₂⟩ := h.tiles.mem hr
  have hbase := h.free.lists.base
  exact ⟨hok.pos, (h.tiles.aligned (by omega)).2 r hr, h₁, h₂, p, hok⟩

/-- The words of a region can be accessed. -/
theorem SlabInv.valid {s : Heap} {L : List Region} {bins : Nat → List Nat}
    (h : SlabInv s L bins) {r : Region} (hr : r ∈ L) {x : Nat} (h₁ : r.addr ≤ x)
    (h₂ : x + 8 ≤ r.stop) (h8 : x % 8 = 0) : s.Valid x := by
  obtain ⟨-, -, hge, hle, -⟩ := h.mem_facts hr
  have := h.brk
  exact ⟨by omega, by omega, h8⟩

/-- An allocated region may be rewritten, and its kind changed. -/
theorem SlabInv.rewrite {s t : Heap} {A B : List Region} {r r' : Region}
    {bins : Nat → List Nat} (h : SlabInv s (A ++ r :: B) bins) (hr : r.isAlloc = true)
    (hr' : r'.isAlloc = true) (haddr : r'.addr = r.addr) (hn : r'.n = r.n)
    (hok : ∀ p, r.Ok s.mem p → r'.Ok t.mem p) (hheap : t.heap = s.heap) (hbrk : t.brk = s.brk)
    (hend : t.heapEnd = s.heapEnd) (hflags : t.flags = s.flags)
    (hskip : t.slabSkiplist = s.slabSkiplist)
    (hpage : ∀ x, s.heap ≤ x → x < s.heap + 2048 → t.mem x = s.mem x)
    (hag : ∀ r ∈ A ++ B, r.Agree s.mem t.mem) (hlinks : ∀ r ∈ A ++ B, r.kind = .free →
      t.mem (r.addr + 8) = s.mem (r.addr + 8) ∧ t.mem (r.addr + 16) = s.mem (r.addr + 16)) :
    SlabInv t (A ++ r' :: B) bins := by
  obtain ⟨a, p, hgap⟩ := h.split
  have ha := hgap.tiling.drop.1
  have hal := hgap.tiling.aligned
  obtain ⟨-, hok₀, hgap'⟩ := hgap.drop_alloc hr
  have hstop : r.stop = r'.stop := by
    unfold Region.stop
    rw [haddr, hn]
  have hgap'' := hgap'.congr hheap hbrk hend hflags hskip hpage hag hlinks
  rw [hstop] at hgap''
  have := hgap''.cons_alloc (q := p) hr' (by omega) (by omega) (hok p hok₀)
  rw [show r'.addr = a by omega] at this
  exact this.join

/-- The special case of writes inside the region. -/
theorem SlabInv.rewriteMem {s : Heap} {A B : List Region} {r : Region}
    {bins : Nat → List Nat} (h : SlabInv s (A ++ r :: B) bins) (r' : Region) (m' : Nat → Nat)
    (hr : r.isAlloc = true) (hr' : r'.isAlloc = true) (haddr : r'.addr = r.addr) (hn : r'.n = r.n)
    (hok : ∀ p, r.Ok s.mem p → r'.Ok m' p)
    (hm : ∀ x, x < r.addr ∨ r.stop ≤ x → m' x = s.mem x) :
    SlabInv { s with mem := m' } (A ++ r' :: B) bins := by
  have hout : ∀ r₀ ∈ A ++ B, ∀ x, r₀.addr ≤ x → x < r₀.stop → m' x = s.mem x := by
    intro r₀ hr₀ x h₁ h₂
    have := h.addr_ne hr₀
    exact hm x (by omega)
  have hmem : ∀ r₀ ∈ A ++ B, r₀ ∈ A ++ r :: B := by
    intro r₀ hr₀
    rcases List.mem_append.mp hr₀ with hm | hm
    · exact List.mem_append_left _ hm
    · exact List.mem_append_right _ (List.mem_cons_of_mem _ hm)
  refine h.rewrite hr hr' haddr hn hok rfl rfl rfl rfl rfl (fun x h₁ h₂ => hm x ?_)
    (fun r₀ hr₀ => ?_) (fun r₀ hr₀ hk => ?_)
  · obtain ⟨-, -, hge, -⟩ := h.mem_facts (r := r) (by simp)
    omega
  · exact Region.Agree.of_eq (h.mem_facts (hmem r₀ hr₀)).1 (hout r₀ hr₀)
  · have := Region.addr_lt_stop (h.mem_facts (hmem r₀ hr₀)).1
    exact ⟨hout r₀ hr₀ _ (by omega) (by omega), hout r₀ hr₀ _ (by omega) (by omega)⟩

end MallocBench.Slab
