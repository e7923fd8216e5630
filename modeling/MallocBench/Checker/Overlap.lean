import MallocBench.Checker.CorrectnessChecker
import MallocBench.Lib.Maps

/-!
# Overlapping blocks are found

The checker does not compare the range of a new block with those it has. But a block that is
allocated or reallocated ends up filled with its pattern as a whole, and overwrites whatever it
overlaps.

- `Released`, `Put`: every call takes at most one block out of the map, whose pattern is intact,
  and then puts at most one block into it, which holds its pattern.
- `Detected`: of two live blocks that overlap one is dirty. A dirty block stays dirty as long as it
  is live, since a block that writes to it leaves a byte of its own pattern there.
- `overlap_detected`: so two blocks that overlap cannot both be released.
-/

namespace MallocBench.Checker

open Lib

/-! ## What it is for -/

/-- The block `block` at `ptr` is live. -/
def CheckerState.Live (st : CheckerState) (ptr : Nat) (block : AllocatedBlock) : Prop :=
  st.allocatedBlocks.lookup ptr = some block

/-- The byte at `a` is in both blocks. -/
def Shared (p : Nat) (b : AllocatedBlock) (q : Nat) (c : AllocatedBlock) (a : Nat) : Prop :=
  (p ≤ a ∧ a < p + b.size) ∧ q ≤ a ∧ a < q + c.size

/-- Live blocks that overlap have patterns that differ on a byte that they share. -/
def CheckerState.PatternsDiffer (st : CheckerState) : Prop :=
  ∀ p b q c, p ≠ q → st.Live p b → st.Live q c → (∃ a, Shared p b q c a) →
    ∃ a, Shared p b q c a ∧ magicByte b.magicBytes (a - p) ≠ magicByte c.magicBytes (a - q)

/-- The block that a call frees or reallocates. -/
def Call.released : Call → Option Nat
  | .realloc ptr _ _ => if ptr = 0 then none else some ptr
  | .free ptr => if ptr = 0 then none else some ptr
  | _ => none

variable {st st₁ st' : CheckerState} {call : Call} {calls : List Call} {p q : Nat}
  {b c : AllocatedBlock}

/-! ## What a call does -/

/-- A block is taken out of the map, and holds its pattern. -/
def Released (st : CheckerState) (ptr : Option Nat) (st₁ : CheckerState) : Prop :=
  match ptr with
  | none => st₁ = st
  | some ptr => ∃ block, st.Live ptr block ∧
    HoldsMagicBytes st.mem ptr block.size block.magicBytes ∧
    st₁ = { st with allocatedBlocks := st.allocatedBlocks.erase ptr }

/-- A block is put into the map and filled. -/
def Put (st₁ st' : CheckerState) : Prop :=
  st' = st₁ ∨ ∃ ptr block, ptr ∉ st₁.allocatedBlocks ∧
    st'.allocatedBlocks = st₁.allocatedBlocks.insert ptr block ∧
    ∀ a, st'.mem a = if ptr ≤ a ∧ a < ptr + block.size then magicByte block.magicBytes (a - ptr)
      else st₁.mem a

namespace CheckerState

theorem postAlloc_put {mem : Mem} {size : Nat} {alignment : Option Nat} {isCalloc : Bool}
    {outcome : Outcome} (hmem : ∀ a, ¬ (outcome.ptr ≤ a ∧ a < outcome.ptr + size) → mem a = st.mem a)
    (h : { st with mem := mem }.postAlloc size alignment isCalloc outcome = .ok st') : Put st st' := by
  by_cases hsize : size = 0
  · refine .inl ?_
    have hsame : mem = st.mem := funext fun a => hmem a (by omega)
    unfold postAlloc at h
    rw [if_pos hsize, hsame] at h
    exact (Except.ok.inj h).symm
  · obtain ⟨-, hnot, -, rfl⟩ := (postAlloc_ok_iff hsize).mp h
    refine .inr ⟨outcome.ptr, { size := size, magicBytes := outcome.magicBytes }, hnot, rfl, fun a => ?_⟩
    show fillMagicBytes mem outcome.ptr size outcome.magicBytes a = _
    rw [fillMagicBytes_apply]
    by_cases hin : outcome.ptr ≤ a ∧ a < outcome.ptr + size
    · rw [if_pos hin, if_pos hin]
    · rw [if_neg hin, if_neg hin, hmem a hin]

/-- A block that is reallocated is filled with its pattern as a whole: what is copied is the
pattern, and a block that grows is filled. -/
theorem realloc_put {ptr size : Nat} {outcome : Outcome} (hptr : ptr ≠ 0)
    (h : st.realloc ptr size outcome = .ok st') :
    ∃ st₁, Released st (some ptr) st₁ ∧ Put st₁ st' := by
  unfold realloc at h
  rw [if_neg hptr] at h
  obtain ⟨⟨block, st₁⟩, hpre, hpost⟩ := exists_of_bind_ok h
  obtain ⟨hlive, hholds, rfl⟩ := preRealloc_ok hpre
  obtain ⟨-, hnot, rfl⟩ := postRealloc_ok hpost
  refine ⟨_, ⟨block, hlive, hholds, rfl⟩, .inr ⟨outcome.ptr, _, hnot, rfl, fun a => ?_⟩⟩
  have hcopy : ∀ a, outcome.ptr ≤ a ∧ a < outcome.ptr + min block.size size →
      copyBlock st.mem outcome.ptr ptr (min block.size size) a =
        magicByte block.magicBytes (a - outcome.ptr) := by
    intro a hin
    unfold copyBlock
    rw [if_pos hin, hholds _ (by omega) (by omega), Nat.add_sub_cancel_left]
  show (if block.size < size then fillMagicBytes _ outcome.ptr size block.magicBytes else _) a = _
  split_ifs with hgrow hin hin
  · rw [fillMagicBytes_apply, if_pos hin]
  · have hin : ¬ (outcome.ptr ≤ a ∧ a < outcome.ptr + size) := hin
    rw [fillMagicBytes_apply, if_neg hin]
    exact if_neg (by omega)
  · have hmin : min block.size size = size := by omega
    exact hcopy a (by rw [hmin]; exact hin)
  · have hin : ¬ (outcome.ptr ≤ a ∧ a < outcome.ptr + size) := hin
    exact if_neg (by omega)

end CheckerState

/-- **One call.** -/
theorem step_ok (h : st.step call = .ok st') :
    ∃ st₁, Released st call.released st₁ ∧ Put st₁ st' := by
  cases call with
  | malloc size alignment outcome =>
    refine ⟨st, rfl, ?_⟩
    replace h : st.malloc size alignment outcome = .ok st' := h
    unfold CheckerState.malloc at h
    split_ifs at h
    exact CheckerState.postAlloc_put (fun _ _ => rfl) h
  | calloc nmemb size outcome =>
    refine ⟨st, rfl, ?_⟩
    replace h : st.calloc nmemb size outcome = .ok st' := h
    unfold CheckerState.calloc at h
    split_ifs at h
    exact CheckerState.postAlloc_put (fun a hout => if_neg hout) h
  | realloc ptr size outcome =>
    replace h : st.realloc ptr size outcome = .ok st' := h
    by_cases hptr : ptr = 0
    · refine ⟨st, by simp [Call.released, hptr, Released], ?_⟩
      unfold CheckerState.realloc at h
      rw [if_pos hptr] at h
      exact CheckerState.postAlloc_put (fun _ _ => rfl) h
    · obtain ⟨st₁, hreleased, hput⟩ := CheckerState.realloc_put hptr h
      exact ⟨st₁, by simpa [Call.released, hptr] using hreleased, hput⟩
  | free ptr =>
    replace h : st.preRelease ptr = .ok st' := h
    by_cases hptr : ptr = 0
    · refine ⟨st, by simp [Call.released, hptr, Released], .inl ?_⟩
      unfold CheckerState.preRelease at h
      rw [if_pos hptr] at h
      exact (Except.ok.inj h).symm
    · obtain ⟨block, hlive, hholds, rfl⟩ := CheckerState.preRelease_ok hptr h
      exact ⟨_, by simpa [Call.released, hptr] using ⟨block, hlive, hholds, rfl⟩, .inl rfl⟩

/-! ## Dirty blocks -/

/-- The block does not hold its pattern. -/
def CheckerState.Dirty (st : CheckerState) (ptr : Nat) (block : AllocatedBlock) : Prop :=
  ¬ HoldsMagicBytes st.mem ptr block.size block.magicBytes

/-- Of two live blocks that overlap one is dirty. -/
def CheckerState.Detected (st : CheckerState) : Prop :=
  ∀ p b q c, p ≠ q → st.Live p b → st.Live q c → (∃ a, Shared p b q c a) →
    st.Dirty p b ∨ st.Dirty q c

theorem Released.live {ptr : Option Nat} (h : Released st ptr st₁) :
    st₁.Live p b ↔ st.Live p b ∧ ptr ≠ some p := by
  cases ptr with
  | none =>
    obtain rfl : st₁ = st := h
    simp
  | some ptr =>
    obtain ⟨block, -, -, rfl⟩ := h
    show (st.allocatedBlocks.erase ptr).lookup p = some b ↔ _
    by_cases heq : p = ptr
    · subst heq
      rw [AList.lookup_erase]
      exact iff_of_false (fun hc => nomatch hc) fun hc => hc.2 rfl
    · rw [AList.lookup_erase_ne heq]
      exact (and_iff_left fun hc => heq (Option.some_inj.mp hc).symm).symm

theorem Released.mem {ptr : Option Nat} (h : Released st ptr st₁) : st₁.mem = st.mem := by
  cases ptr with
  | none =>
    obtain rfl : st₁ = st := h
    rfl
  | some ptr =>
    obtain ⟨block, -, -, rfl⟩ := h
    rfl

/-- Live blocks stay live when a block is put. -/
theorem Put.live (h : Put st₁ st') (hlive : st₁.Live p b) : st'.Live p b := by
  rcases h with rfl | ⟨ptr, block, hnot, hblocks, -⟩
  · exact hlive
  · have hne : p ≠ ptr := by
      rintro rfl
      exact hnot (AList.lookup_isSome.mp (by rw [show _ = some b from hlive]; rfl))
    show st'.allocatedBlocks.lookup p = some b
    rw [hblocks, AList.lookup_insert_ne hne]
    exact hlive

/-- A block that overlaps the one that is put is dirty. -/
theorem dirty_of_shared (hdiffer : st'.PatternsDiffer) (hne : p ≠ q) (hp : st'.Live p b)
    (hq : st'.Live q c) (hshared : ∃ a, Shared p b q c a)
    (hholds : HoldsMagicBytes st'.mem q c.size c.magicBytes) : st'.Dirty p b := by
  obtain ⟨a, ⟨⟨hlo, hhi⟩, hlo', hhi'⟩, hbyte⟩ := hdiffer p b q c hne hp hq hshared
  intro hc
  rw [← hc a hlo hhi, ← hholds a hlo' hhi'] at hbyte
  exact hbyte rfl

theorem Put.dirty (h : Put st₁ st') (hdiffer : st'.PatternsDiffer) (hlive : st₁.Live p b)
    (hdirty : st₁.Dirty p b) : st'.Dirty p b := by
  have hlive' := h.live hlive
  rcases h with rfl | ⟨ptr, block, hnot, hblocks, hmem⟩
  · exact hdirty
  have hne : p ≠ ptr := by
    rintro rfl
    exact hnot (AList.lookup_isSome.mp (by rw [show _ = some b from hlive]; rfl))
  have hput : st'.Live ptr block := by
    show st'.allocatedBlocks.lookup ptr = some block
    rw [hblocks, AList.lookup_insert]
  have hholds : HoldsMagicBytes st'.mem ptr block.size block.magicBytes := fun a hlo hhi => by
    rw [hmem, if_pos ⟨hlo, hhi⟩]
  by_cases hshared : ∃ a, Shared p b ptr block a
  · exact dirty_of_shared hdiffer hne hlive' hput hshared hholds
  · -- nothing of the block is written
    intro hc
    refine hdirty fun a hlo hhi => ?_
    rw [← hc a hlo hhi, hmem, if_neg fun hin => hshared ⟨a, ⟨hlo, hhi⟩, hin⟩]

/-- **Step**: a dirty block stays dirty until it is released. -/
theorem dirty_step (h : st.step call = .ok st') (hdiffer : st'.PatternsDiffer)
    (hlive : st.Live p b) (hdirty : st.Dirty p b) :
    call.released ≠ some p ∧ st'.Live p b ∧ st'.Dirty p b := by
  obtain ⟨st₁, hreleased, hput⟩ := step_ok h
  have hne : call.released ≠ some p := by
    intro heq
    rw [heq] at hreleased
    obtain ⟨block, hlive', hholds, -⟩ := hreleased
    obtain rfl : b = block := Option.some_inj.mp (hlive.symm.trans hlive')
    exact hdirty hholds
  have hlive₁ : st₁.Live p b := hreleased.live.mpr ⟨hlive, hne⟩
  have hdirty₁ : st₁.Dirty p b := by
    unfold CheckerState.Dirty
    rw [hreleased.mem]
    exact hdirty
  exact ⟨hne, hput.live hlive₁, hput.dirty hdiffer hlive₁ hdirty₁⟩

/-- A block that is live after a block has been put was live before, or holds its pattern. -/
theorem Put.live_cases (h : Put st₁ st') (hlive : st'.Live p b) :
    st₁.Live p b ∨ HoldsMagicBytes st'.mem p b.size b.magicBytes := by
  rcases h with rfl | ⟨ptr, block, -, hblocks, hmem⟩
  · exact .inl hlive
  · have hlive : (st₁.allocatedBlocks.insert ptr block).lookup p = some b := by
      rw [← hblocks]
      exact hlive
    rcases lookup_insert_eq_some.mp hlive with ⟨rfl, rfl⟩ | ⟨-, hlive⟩
    · exact .inr fun a hlo hhi => by rw [hmem, if_pos ⟨hlo, hhi⟩]
    · exact .inl hlive

theorem Shared.symm {a : Nat} (h : Shared p b q c a) : Shared q c p b a := ⟨h.2, h.1⟩

/-- **Step**: of two live blocks that overlap one is dirty. -/
theorem detected_step (h : st.step call = .ok st') (hdiffer : st'.PatternsDiffer)
    (hst : st.Detected) : st'.Detected := by
  obtain ⟨st₁, hreleased, hput⟩ := step_ok h
  intro p b q c hne hp hq hshared
  rcases hput.live_cases hq with hq₁ | hholds
  · rcases hput.live_cases hp with hp₁ | hholds
    · obtain ⟨hp₀, -⟩ := hreleased.live.mp hp₁
      obtain ⟨hq₀, -⟩ := hreleased.live.mp hq₁
      rcases hst p b q c hne hp₀ hq₀ hshared with hdirty | hdirty
      · exact .inl (hput.dirty hdiffer hp₁ (by rw [CheckerState.Dirty, hreleased.mem]; exact hdirty))
      · exact .inr (hput.dirty hdiffer hq₁ (by rw [CheckerState.Dirty, hreleased.mem]; exact hdirty))
    · obtain ⟨a, ha⟩ := hshared
      exact .inr (dirty_of_shared hdiffer hne.symm hq hp ⟨a, ha.symm⟩ hholds)
  · exact .inl (dirty_of_shared hdiffer hne hp hq hshared hholds)

/-! ## The run -/

/-- In all states of the run that starts in `st`, overlapping blocks have different patterns. -/
def DifferAlong (st : CheckerState) (calls : List Call) : Prop :=
  ∀ pre post st', calls = pre ++ post → st.run pre = .ok st' → st'.PatternsDiffer

theorem run_cons (h : st.run (call :: calls) = .ok st') :
    ∃ st₁, st.step call = .ok st₁ ∧ st₁.run calls = .ok st' :=
  exists_of_bind_ok h

theorem DifferAlong.tail (h : DifferAlong st (call :: calls)) (hstep : st.step call = .ok st₁) :
    DifferAlong st₁ calls := by
  intro pre post st' hcalls hrun
  refine h (call :: pre) post st' (by rw [hcalls, List.cons_append]) ?_
  show (st.step call >>= fun st => st.run pre) = .ok st'
  rw [hstep]
  exact hrun

theorem DifferAlong.head (h : DifferAlong st calls) : st.PatternsDiffer :=
  h [] calls st rfl rfl

theorem detected_run (hdiffer : DifferAlong st calls) (h : st.run calls = .ok st')
    (hst : st.Detected) : st'.Detected := by
  induction calls generalizing st with
  | nil =>
    obtain rfl := Except.ok.inj h
    exact hst
  | cons call calls ih =>
    obtain ⟨st₁, hstep, hrun⟩ := run_cons h
    have htail := hdiffer.tail hstep
    exact ih htail hrun (detected_step hstep htail.head hst)

/-- A dirty block is not released in a run without errors. -/
theorem dirty_run (hdiffer : DifferAlong st calls) (h : st.run calls = .ok st')
    (hlive : st.Live p b) (hdirty : st.Dirty p b) : ∀ call ∈ calls, call.released ≠ some p := by
  induction calls generalizing st with
  | nil => exact fun call hc => nomatch hc
  | cons call calls ih =>
    obtain ⟨st₁, hstep, hrun⟩ := run_cons h
    have htail := hdiffer.tail hstep
    obtain ⟨hne, hlive₁, hdirty₁⟩ := dirty_step hstep htail.head hlive hdirty
    intro call' hcall'
    rcases List.mem_cons.mp hcall' with rfl | hmem
    · exact hne
    · exact ih htail hrun hlive₁ hdirty₁ call' hmem

theorem run_append {pre post : List Call} (h : st.run (pre ++ post) = .ok st') :
    ∃ st₁, st.run pre = .ok st₁ ∧ st₁.run post = .ok st' := by
  unfold CheckerState.run at h
  rw [List.foldlM_append] at h
  exact exists_of_bind_ok h

theorem DifferAlong.drop {pre post : List Call} (h : DifferAlong st (pre ++ post))
    (hrun : st.run pre = .ok st₁) : DifferAlong st₁ post := by
  intro pre' post' st' hpost hrun'
  refine h (pre ++ pre') post' st' (by rw [hpost, List.append_assoc]) ?_
  unfold CheckerState.run at hrun hrun' ⊢
  rw [List.foldlM_append, hrun]
  exact hrun'

/-- **Overlaps are found**: when two live blocks overlap at some moment, their patterns differ on a
shared byte, and both are freed or reallocated later, some call of the run returns an error. -/
theorem overlap_detected {pre post : List Call} (hempty : st.allocatedBlocks = ∅)
    (hdiffer : DifferAlong st (pre ++ post)) (hrun : st.run pre = .ok st₁)
    (hne : p ≠ q) (hp : st₁.Live p b) (hq : st₁.Live q c) (hshared : ∃ a, Shared p b q c a)
    (hpreleased : ∃ call ∈ post, call.released = some p)
    (hqreleased : ∃ call ∈ post, call.released = some q) :
    ∃ error, st.run (pre ++ post) = .error error := by
  cases hall : st.run (pre ++ post) with
  | error error => exact ⟨error, rfl⟩
  | ok st' =>
    obtain ⟨st₂, hrun₂, hrest⟩ := run_append hall
    obtain rfl : st₁ = st₂ := Except.ok.inj (hrun.symm.trans hrun₂)
    have hstart : st.Detected := fun p b q c _ hlive => by
      rw [CheckerState.Live, hempty, AList.lookup_empty] at hlive
      cases hlive
    have hprefix : DifferAlong st pre := fun pre' post' st' hpre =>
      hdiffer pre' (post' ++ post) st' (by rw [hpre, List.append_assoc])
    have hdrop := hdiffer.drop hrun
    rcases detected_run hprefix hrun hstart p b q c hne hp hq hshared with hdirty | hdirty
    · obtain ⟨call, hmem, hreleased⟩ := hpreleased
      exact absurd hreleased (dirty_run hdrop hrest hp hdirty call hmem)
    · obtain ⟨call, hmem, hreleased⟩ := hqreleased
      exact absurd hreleased (dirty_run hdrop hrest hq hdirty call hmem)

/-- Frees put no block into the map. -/
theorem free_live {ptr : Nat} (h : st.step (.free ptr) = .ok st') (hlive : st'.Live p b) :
    st.Live p b := by
  replace h : st.preRelease ptr = .ok st' := h
  by_cases hptr : ptr = 0
  · unfold CheckerState.preRelease at h
    rw [if_pos hptr] at h
    obtain rfl := Except.ok.inj h
    exact hlive
  · obtain ⟨block, hblock, hholds, rfl⟩ := CheckerState.preRelease_ok hptr h
    have hreleased : Released st (some ptr) _ := ⟨block, hblock, hholds, rfl⟩
    exact (hreleased.live.mp hlive).1

theorem frees_live (hfrees : ∀ call ∈ calls, ∃ ptr, call = .free ptr) (h : st.run calls = .ok st')
    (hlive : st'.Live p b) : st.Live p b := by
  induction calls generalizing st with
  | nil =>
    obtain rfl := Except.ok.inj h
    exact hlive
  | cons call calls ih =>
    obtain ⟨st₁, hstep, hrun⟩ := run_cons h
    obtain ⟨ptr, rfl⟩ := hfrees call (List.mem_cons_self ..)
    exact free_live hstep (ih (fun call hc => hfrees call (List.mem_cons_of_mem _ hc)) hrun)

/-- Two blocks of 16 bytes that share 8. -/
theorem overlap_detected_two : ∃ error, CheckerState.run { mem := fun _ => 0, allocatedBlocks := ∅ }
    ([.malloc 16 none ⟨16, 1, [(16, 64)]⟩, .malloc 16 none ⟨24, 2, [(16, 64)]⟩] ++
      [.free 16, .free 24]) = .error error := by
  have hrun : CheckerState.run { mem := fun _ => 0, allocatedBlocks := ∅ }
      [.malloc 16 none ⟨16, 1, [(16, 64)]⟩, .malloc 16 none ⟨24, 2, [(16, 64)]⟩] = .ok {
        mem := fillMagicBytes (fillMagicBytes (fun _ => 0) 16 16 1) 24 16 2
        allocatedBlocks := (AList.insert 16 ⟨16, 1⟩ ∅).insert 24 ⟨16, 2⟩ } := by
    rfl
  have hdiffer : ∀ st : CheckerState, (∀ p b, st.Live p b →
      (p = 16 ∧ b = ⟨16, 1⟩) ∨ p = 24 ∧ b = ⟨16, 2⟩) → st.PatternsDiffer := by
    intro st hblocks p b q c hne hp hq _
    rcases hblocks p b hp with ⟨rfl, rfl⟩ | ⟨rfl, rfl⟩ <;>
      rcases hblocks q c hq with ⟨rfl, rfl⟩ | ⟨rfl, rfl⟩
    · exact absurd rfl hne
    · exact ⟨24, ⟨by decide, by decide⟩, by decide⟩
    · exact ⟨24, ⟨by decide, by decide⟩, by decide⟩
    · exact absurd rfl hne
  refine overlap_detected rfl (fun pre post st' hcalls hpre => hdiffer st' fun p b hlive => ?_) hrun
    (show 16 ≠ 24 by decide) (b := ⟨16, 1⟩) (c := ⟨16, 2⟩) rfl rfl
    ⟨24, ⟨by decide, by decide⟩, by decide⟩ ⟨.free 16, by simp, rfl⟩ ⟨.free 24, by simp, rfl⟩
  rcases pre with _ | ⟨first, _ | ⟨second, pre⟩⟩
  · obtain rfl := Except.ok.inj hpre
    simp [CheckerState.Live] at hlive
  · obtain ⟨rfl, -⟩ := List.cons.inj hcalls
    obtain rfl := Except.ok.inj hpre
    rcases lookup_insert_eq_some.mp hlive with hnew | ⟨-, hold⟩
    · exact .inl hnew
    · simp at hold
  · obtain ⟨rfl, htail⟩ := List.cons.inj hcalls
    obtain ⟨rfl, hpost⟩ := List.cons.inj htail
    have hpre : CheckerState.run { mem := fun _ => 0, allocatedBlocks := ∅ }
        ([.malloc 16 none ⟨16, 1, [(16, 64)]⟩, .malloc 16 none ⟨24, 2, [(16, 64)]⟩] ++ pre) =
          .ok st' := hpre
    obtain ⟨st₁, hrun₁, hrest⟩ := run_append hpre
    obtain rfl := Except.ok.inj (hrun.symm.trans hrun₁)
    have hfrees : ∀ call ∈ pre, ∃ ptr, call = .free ptr := by
      intro call hc
      have hmem : call ∈ [Call.free 16, Call.free 24] := by
        rw [show [Call.free 16, Call.free 24] = pre ++ post from hpost]
        exact List.mem_append_left _ hc
      exact (List.mem_pair.mp hmem).elim (fun h => ⟨16, h⟩) fun h => ⟨24, h⟩
    have hlive := frees_live hfrees hrest hlive
    rcases lookup_insert_eq_some.mp hlive with hnew | ⟨-, hold⟩
    · exact .inr hnew
    · rcases lookup_insert_eq_some.mp hold with hnew | ⟨-, hold⟩
      · exact .inl hnew
      · simp at hold

end MallocBench.Checker
