import Mathlib.Data.List.AList
import Mathlib.Tactic.IntervalCases
import MallocBench.Lib.Bits
import MallocBench.Lib.Except

/-!
# Magic bytes

The checker fills an allocated block with the bytes of a random 64-bit pattern, and checks later
that they are still there. Both go through the block in words of 8 bytes, and through the bytes
that are left. `fillMagicBytes_apply` and `checkMagicBytes_ok_iff` say what they do byte by byte.
-/

namespace MallocBench.Checker

open Lib

/-- Memory, by the byte. -/
abbrev Mem := Nat → BitVec 8

/-- Read a little-endian word. -/
def load64 (mem : Mem) (a : Nat) : BitVec 64 :=
  mem (a + 7) ++ mem (a + 6) ++ mem (a + 5) ++ mem (a + 4) ++ mem (a + 3) ++ mem (a + 2) ++
    mem (a + 1) ++ mem a

/-- Write a little-endian word. -/
def store64 (mem : Mem) (a : Nat) (val : BitVec 64) : Mem := fun b =>
  if a ≤ b ∧ b < a + 8 then val.extractLsb' (8 * (b - a)) 8 else mem b

/-- Write a byte. -/
def store8 (mem : Mem) (a : Nat) (val : BitVec 8) : Mem := fun b => if b = a then val else mem b

/-- `FillMagicBytes` -/
def fillMagicBytes (mem : Mem) (ptr size : Nat) (magicBytes : BitVec 64) : Mem :=
  let i := size / 8
  let mem := (List.range i).foldl (fun mem i => store64 mem (ptr + 8 * i) magicBytes) mem
  (List.range' (8 * i) (size - 8 * i)).foldl
    (fun mem j => store8 mem (ptr + j) ((magicBytes >>> (8 * (j - 8 * i))).setWidth 8)) mem

/-- `CheckMagicBytes`: the offset of a byte that differs. -/
def checkMagicBytes (mem : Mem) (ptr size : Nat) (magicBytes : BitVec 64) : Except Nat Unit := do
  let i := size / 8
  (List.range i).forM fun i =>
    let val := load64 mem (ptr + 8 * i)
    if val ≠ magicBytes then throw (i * 8 + (val ^^^ magicBytes).ctz.toNat / 8) else pure ()
  (List.range' (8 * i) (size - 8 * i)).forM fun j =>
    if mem (ptr + j) ≠ (magicBytes >>> (8 * (j - 8 * i))).setWidth 8 then throw j else pure ()

/-- The byte of the pattern at position `j` of a block. -/
def magicByte (magicBytes : BitVec 64) (j : Nat) : BitVec 8 :=
  magicBytes.extractLsb' (8 * (j % 8)) 8

variable {mem : Mem} {ptr size a n : Nat} {magicBytes v : BitVec 64}

/-! ## Words -/

theorem load64_eq_iff : load64 mem a = v ↔ ∀ k, k < 8 → mem (a + k) = v.extractLsb' (8 * k) 8 := by
  constructor
  · rintro rfl k hk
    unfold load64
    interval_cases k <;> ext i hi <;> simp <;> grind
  · intro h
    unfold load64
    rw [h 7 (by omega), h 6 (by omega), h 5 (by omega), h 4 (by omega), h 3 (by omega),
      h 2 (by omega), h 1 (by omega), show mem a = _ from h 0 (by omega)]
    ext i hi
    simp
    grind

/-- A byte that is left is one of the pattern. -/
theorem magicByte_tail {j : Nat} (hj : 8 * (size / 8) ≤ j) (hlt : j < size) :
    (magicBytes >>> (8 * (j - 8 * (size / 8)))).setWidth 8 = magicByte magicBytes j := by
  have hmod : j % 8 = j - 8 * (size / 8) := by omega
  unfold magicByte
  rw [hmod]
  ext i hi
  simp

/-! ## Filling -/

theorem store64_apply {b : Nat} : store64 mem a v b =
    if a ≤ b ∧ b < a + 8 then v.extractLsb' (8 * (b - a)) 8 else mem b := rfl

theorem store8_apply {b : Nat} {val : BitVec 8} :
    store8 mem a val b = if b = a then val else mem b := rfl

theorem fill_words : (List.range n).foldl (fun mem i => store64 mem (ptr + 8 * i) magicBytes) mem a =
    if ptr ≤ a ∧ a < ptr + 8 * n then magicByte magicBytes (a - ptr) else mem a := by
  induction n with
  | zero => rw [if_neg (by omega)]; rfl
  | succ n ih =>
    rw [List.range_succ, List.foldl_append]
    show store64 _ (ptr + 8 * n) magicBytes a = _
    rw [store64_apply]
    by_cases hin : ptr + 8 * n ≤ a ∧ a < ptr + 8 * n + 8
    · have hmod : a - (ptr + 8 * n) = (a - ptr) % 8 := by omega
      rw [if_pos hin, if_pos (by omega), magicByte, hmod]
    · rw [if_neg hin, ih]
      by_cases hin' : ptr ≤ a ∧ a < ptr + 8 * n
      · rw [if_pos hin', if_pos (by omega)]
      · rw [if_neg hin', if_neg (by omega)]

theorem fill_tail {f : Nat → BitVec 8} {start : Nat} :
    (List.range' start n).foldl (fun mem j => store8 mem (ptr + j) (f j)) mem a =
      if ptr + start ≤ a ∧ a < ptr + start + n then f (a - ptr) else mem a := by
  induction n with
  | zero => rw [if_neg (by omega)]; rfl
  | succ n ih =>
    rw [List.range'_concat, List.foldl_append, Nat.one_mul]
    show store8 _ (ptr + (start + n)) (f (start + n)) a = _
    rw [store8_apply]
    by_cases heq : a = ptr + (start + n)
    · subst heq
      rw [if_pos rfl, if_pos (by omega), Nat.add_sub_cancel_left]
    · rw [if_neg heq, ih]
      by_cases hin : ptr + start ≤ a ∧ a < ptr + start + n
      · rw [if_pos hin, if_pos (by omega)]
      · rw [if_neg hin, if_neg (by omega)]

/-- **`FillMagicBytes`** writes the pattern into the block and nothing else. -/
theorem fillMagicBytes_apply : fillMagicBytes mem ptr size magicBytes a =
    if ptr ≤ a ∧ a < ptr + size then magicByte magicBytes (a - ptr) else mem a := by
  unfold fillMagicBytes
  rw [fill_tail, fill_words]
  by_cases htail : ptr + 8 * (size / 8) ≤ a ∧ a < ptr + 8 * (size / 8) + (size - 8 * (size / 8))
  · rw [if_pos htail, if_pos (by omega), magicByte_tail (by omega) (by omega)]
  · rw [if_neg htail]
    by_cases hin : ptr ≤ a ∧ a < ptr + 8 * (size / 8)
    · rw [if_pos hin, if_pos (by omega)]
    · rw [if_neg hin, if_neg (by omega)]

/-! ## Checking -/

/-- The block holds the pattern. -/
def HoldsMagicBytes (mem : Mem) (ptr size : Nat) (magicBytes : BitVec 64) : Prop :=
  ∀ a, ptr ≤ a → a < ptr + size → mem a = magicByte magicBytes (a - ptr)

/-- **`CheckMagicBytes`** succeeds when the block holds the pattern. -/
theorem checkMagicBytes_ok_iff : checkMagicBytes mem ptr size magicBytes = .ok () ↔
    HoldsMagicBytes mem ptr size magicBytes := by
  unfold checkMagicBytes
  refine then_ok_iff.trans ?_
  rw [forM_ok_iff, forM_ok_iff]
  simp only [throw_if_ok_iff, not_not, List.mem_range, List.mem_range'_1, load64_eq_iff]
  constructor
  · rintro ⟨hwords, htail⟩ a hlo hhi
    by_cases hword : (a - ptr) / 8 < size / 8
    · have h := hwords ((a - ptr) / 8) hword ((a - ptr) % 8) (Nat.mod_lt _ (by decide))
      have ha : ptr + 8 * ((a - ptr) / 8) + (a - ptr) % 8 = a := by omega
      rwa [ha] at h
    · have h := htail (a - ptr) ⟨by omega, by omega⟩
      rw [magicByte_tail (by omega) (by omega), Nat.add_sub_cancel' hlo] at h
      exact h
  · intro h
    refine ⟨fun i hi k hk => ?_, fun j hj => ?_⟩
    · rw [h (ptr + 8 * i + k) (by omega) (by omega), magicByte]
      have hmod : (ptr + 8 * i + k - ptr) % 8 = k := by omega
      rw [hmod]
    · rw [h (ptr + j) (by omega) (by omega), magicByte_tail (by omega) (by omega),
        Nat.add_sub_cancel_left]

/-! ## Where the pattern is broken -/

/-- The lowest bit in which two words differ is in the lowest byte in which they differ. -/
theorem byte_ctz (h : v ≠ magicBytes) : (v ^^^ magicBytes).ctz.toNat / 8 < 8 ∧
    v.extractLsb' (8 * ((v ^^^ magicBytes).ctz.toNat / 8)) 8 ≠
      magicBytes.extractLsb' (8 * ((v ^^^ magicBytes).ctz.toNat / 8)) 8 ∧
    ∀ k, k < (v ^^^ magicBytes).ctz.toNat / 8 →
      v.extractLsb' (8 * k) 8 = magicBytes.extractLsb' (8 * k) 8 := by
  have hx : v ^^^ magicBytes ≠ 0 := fun h0 => h (BitVec.xor_eq_zero_iff.mp h0)
  have hlt := ctz_toNat_lt hx
  have hbit := BitVec.getLsbD_true_ctz_of_ne_zero hx
  have hlow := fun i hi => BitVec.getLsbD_false_of_lt_ctz (x := v ^^^ magicBytes) (i := i) hi
  generalize (v ^^^ magicBytes).ctz.toNat = c at hlt hbit hlow ⊢
  simp only [BitVec.getLsbD_xor] at hbit hlow
  refine ⟨by omega, fun heq => ?_, fun k hk => ?_⟩
  · -- the bytes differ in bit `c % 8`
    have hbyte := congrArg (BitVec.getLsbD · (c % 8)) heq
    simp only [BitVec.getLsbD_extractLsb', show c % 8 < 8 by omega, decide_true, Bool.true_and,
      show 8 * (c / 8) + c % 8 = c by omega] at hbyte
    rw [hbyte, Bool.xor_self] at hbit
    cases hbit
  · refine BitVec.eq_of_getLsbD_eq fun i hi => ?_
    simp only [BitVec.getLsbD_extractLsb', hi, decide_true, Bool.true_and]
    exact bne_eq_false_iff_eq.mp (hlow _ (by omega))

/-- The byte at position `j` is the first one of the block that is not of the pattern. -/
structure FirstDirty (mem : Mem) (ptr size : Nat) (magicBytes : BitVec 64) (j : Nat) : Prop where
  lt : j < size
  dirty : mem (ptr + j) ≠ magicByte magicBytes j
  clean : ∀ i, i < j → mem (ptr + i) = magicByte magicBytes i

theorem FirstDirty.unique {j i : Nat} (h : FirstDirty mem ptr size magicBytes j)
    (h' : FirstDirty mem ptr size magicBytes i) : j = i := by
  rcases Nat.lt_trichotomy j i with hlt | heq | hgt
  · exact absurd (h'.clean j hlt) h.dirty
  · exact heq
  · exact absurd (h.clean i hgt) h'.dirty

/-- The words before word `i` hold the pattern. -/
theorem clean_words {i : Nat} (h : ∀ k, k < i → load64 mem (ptr + 8 * k) = magicBytes) {j : Nat}
    (hj : j < 8 * i) : mem (ptr + j) = magicByte magicBytes j := by
  have hword := load64_eq_iff.mp (h (j / 8) (by omega)) (j % 8) (by omega)
  rwa [show ptr + 8 * (j / 8) + j % 8 = ptr + j by omega] at hword

/-- **`CheckMagicBytes`** reports the first byte that differs. -/
theorem checkMagicBytes_error {j : Nat} (h : checkMagicBytes mem ptr size magicBytes = .error j) :
    FirstDirty mem ptr size magicBytes j := by
  unfold checkMagicBytes at h
  rcases then_error_iff.mp h with hword | ⟨hwords, htail⟩
  · rw [List.range_eq_range'] at hword
    obtain ⟨i, -, hi, herr, hbefore⟩ := forM_range'_error hword
    obtain ⟨hne, rfl⟩ := throw_if_error_iff.mp herr
    obtain ⟨hk, hdirty, hclean⟩ := byte_ctz hne
    generalize (load64 mem (ptr + 8 * i) ^^^ magicBytes).ctz.toNat / 8 = k at hk hdirty hclean ⊢
    have hbyte := fun k hk => load64_eq_iff.mp (rfl : load64 mem (ptr + 8 * i) = _) k hk
    have hprev : ∀ k, k < i → load64 mem (ptr + 8 * k) = magicBytes := fun k hk =>
      not_not.mp (throw_if_ok_iff.mp (hbefore k (Nat.zero_le _) hk))
    have hmagic : ∀ k', k' < 8 → magicByte magicBytes (i * 8 + k') =
        magicBytes.extractLsb' (8 * k') 8 := fun k' hk' => by
      unfold magicByte
      rw [show (i * 8 + k') % 8 = k' by omega]
    refine ⟨by omega, ?_, fun j hj => ?_⟩
    · rw [hmagic k hk, show ptr + (i * 8 + k) = ptr + 8 * i + k by omega, hbyte k hk]
      exact hdirty
    · rcases Nat.lt_or_ge j (8 * i) with hlt | hge
      · exact clean_words hprev hlt
      · obtain ⟨k', rfl⟩ : ∃ k', j = i * 8 + k' := ⟨j - i * 8, by omega⟩
        rw [hmagic k' (by omega), show ptr + (i * 8 + k') = ptr + 8 * i + k' by omega,
          hbyte k' (by omega)]
        exact hclean k' (by omega)
  · obtain ⟨i, hlo, hhi, herr, hbefore⟩ := forM_range'_error htail
    obtain ⟨hdirty, rfl⟩ := throw_if_error_iff.mp herr
    rw [forM_ok_iff] at hwords
    have hall : ∀ k, k < size / 8 → load64 mem (ptr + 8 * k) = magicBytes := fun k hk =>
      not_not.mp (throw_if_ok_iff.mp (hwords k (List.mem_range.mpr hk)))
    rw [magicByte_tail hlo (by omega)] at hdirty
    refine ⟨by omega, hdirty, fun j hj => ?_⟩
    rcases Nat.lt_or_ge j (8 * (size / 8)) with hlt | hge
    · exact clean_words hall hlt
    · have hok := not_not.mp (throw_if_ok_iff.mp (hbefore j hge hj))
      rwa [magicByte_tail hge (by omega)] at hok

/-- What the check accepts, byte by byte from the start of the block. -/
theorem holdsMagicBytes_iff : HoldsMagicBytes mem ptr size magicBytes ↔
    ∀ i, i < size → mem (ptr + i) = magicByte magicBytes i := by
  constructor
  · intro h i hi
    have := h (ptr + i) (by omega) (by omega)
    rwa [Nat.add_sub_cancel_left] at this
  · intro h a hlo hhi
    have := h (a - ptr) (by omega)
    rwa [Nat.add_sub_cancel' hlo] at this

/-- **Magic bytes**: what has been filled passes every shorter check; the check passes exactly
when all bytes are those of the pattern, and otherwise it reports the first one that is not. -/
theorem magicBytes_exact (mem : Mem) (ptr size : Nat) (magicBytes : BitVec 64) :
    (∀ n, n ≤ size →
      checkMagicBytes (fillMagicBytes mem ptr size magicBytes) ptr n magicBytes = .ok ()) ∧
    (checkMagicBytes mem ptr size magicBytes = .ok () ↔
      ∀ i, i < size → mem (ptr + i) = magicBytes.extractLsb' (8 * (i % 8)) 8) ∧
    ∀ j, checkMagicBytes mem ptr size magicBytes = .error j ↔
      j < size ∧ mem (ptr + j) ≠ magicBytes.extractLsb' (8 * (j % 8)) 8 ∧
        ∀ i, i < j → mem (ptr + i) = magicBytes.extractLsb' (8 * (i % 8)) 8 := by
  refine ⟨fun n hn => checkMagicBytes_ok_iff.mpr fun a hlo hhi => ?_,
    checkMagicBytes_ok_iff.trans holdsMagicBytes_iff, fun j => ⟨fun h => ?_, ?_⟩⟩
  · rw [fillMagicBytes_apply, if_pos ⟨hlo, by omega⟩]
  · have hdirty := checkMagicBytes_error h
    exact ⟨hdirty.lt, hdirty.dirty, hdirty.clean⟩
  · rintro ⟨hlt, hne, hclean⟩
    have hdirty : FirstDirty mem ptr size magicBytes j := ⟨hlt, hne, hclean⟩
    cases hres : checkMagicBytes mem ptr size magicBytes with
    | ok u => exact absurd (holdsMagicBytes_iff.mp (checkMagicBytes_ok_iff.mp hres) j hlt) hne
    | error i => rw [hdirty.unique (checkMagicBytes_error hres)]

theorem magicBytes_exact_nine :
    checkMagicBytes (fillMagicBytes (fun _ => 0) 16 11 0x0807060504030201) 16 9
      0x0807060504030201 = .ok () :=
  (magicBytes_exact (fun _ => 0) 16 11 0x0807060504030201).1 9 (by decide)

end MallocBench.Checker
