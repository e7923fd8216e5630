import Mathlib.Algebra.Group.Nat.Defs
import Mathlib.Data.List.AList
import MallocBench.Trace.TraceLine

/-!
# Making the ids of a trace unique

`RewriteIdsToUnique` numbers the results of a trace in line order and replaces each input id by
the number of the line that produced it. Ids may be used again once they have been released.
The map from the ids in use to their numbers represents the flow of ids (`RewriteState.Inv`),
and this decides each line (`rewriteLine_spec`).
-/

namespace MallocBench.Trace

open Lib

/-! ## The code -/

/-- The errors of `RewriteIdsToUnique`. -/
inductive RewriteError where
  | duplicateResultId (id : Nat)
  | unknownIdRealloced (id : Nat)
  | unknownIdFreed (id : Nat)
  | opNotSet
  | notAllFreed
deriving DecidableEq, Repr

def RewriteError.message : RewriteError → String
  | duplicateResultId id => s!"Duplicate result ID {id}"
  | unknownIdRealloced id => s!"Unknown ID being realloc-ed: {id}"
  | unknownIdFreed id => s!"Unknown ID being freed: {id}"
  | .opNotSet => "Op not set in tracefile"
  | notAllFreed => "Not all allocations freed in tracefile"

/-- `next_id`, and `new_id_map` from the ids in use to their new ids and sizes -/
structure RewriteState where
  nextId : Nat
  newIdMap : AList fun _ : Nat => Nat × Nat

/-- An id is inserted into the map with the next new id. -/
def RewriteState.insertResult (st : RewriteState) (resultId size : Nat) :
    Except RewriteError RewriteState :=
  if resultId ∈ st.newIdMap then throw (.duplicateResultId resultId)
  else pure { nextId := st.nextId + 1, newIdMap := st.newIdMap.insert resultId (st.nextId, size) }

/-- An id is looked up and removed. -/
def RewriteState.release (st : RewriteState) (inputId : Nat) (error : RewriteError) :
    Except RewriteError (Nat × RewriteState) :=
  match st.newIdMap.lookup inputId with
  | none => throw error
  | some entry => pure (entry.1, { st with newIdMap := st.newIdMap.erase inputId })

/-- The loop body of `RewriteIdsToUnique` -/
def rewriteLine (st : RewriteState) : TraceLine → Except RewriteError (RewriteState × TraceLine)
  | .malloc malloc =>
    match malloc.resultId with
    | none => pure (st, .malloc malloc)
    | some id => do
      let st' ← st.insertResult id (malloc.inputSize.getD 0)
      pure (st', .malloc { malloc with resultId := some st.nextId })
  | .calloc calloc =>
    match calloc.resultId with
    | none => pure (st, .calloc calloc)
    | some id => do
      let st' ← st.insertResult id (calloc.inputNmemb.getD 0 * calloc.inputSize.getD 0 % 2 ^ 64)
      pure (st', .calloc { calloc with resultId := some st.nextId })
  | .realloc realloc => do
    let (realloc, st) ← match realloc.inputId with
      | none => pure (realloc, st)
      | some id => do
        let (newId, st) ← st.release id (.unknownIdRealloced id)
        pure ({ realloc with inputId := some newId }, st)
    let st' ← st.insertResult (realloc.resultId.getD 0) (realloc.inputSize.getD 0)
    pure (st', .realloc { realloc with resultId := some st.nextId })
  | .free free =>
    match free.inputId with
    | none => pure (st, .free free)
    | some id => do
      let (newId, st) ← st.release id (.unknownIdFreed id)
      pure (st, .free { free with inputId := some newId })
  | .opNotSet => throw .opNotSet

def rewriteLines (st : RewriteState) : List TraceLine →
    Except RewriteError (RewriteState × List TraceLine)
  | [] => pure (st, [])
  | line :: lines => do
    let (st, line) ← rewriteLine st line
    let (st, lines) ← rewriteLines st lines
    pure (st, line :: lines)

/-- `RewriteIdsToUnique` -/
def rewriteIdsToUnique (lines : List TraceLine) : Except RewriteError (List TraceLine) := do
  let (st, lines) ← rewriteLines { nextId := 0, newIdMap := ∅ } lines
  if st.newIdMap.keys.isEmpty then pure lines else throw .notAllFreed

/-! ## What it is for -/

/-- Every line has its op set, every input id is live, no result id is live already, and no id is
live at the end. -/
structure Accepted (lines : List TraceLine) : Prop where
  opSet : ∀ line ∈ lines, line ≠ .opNotSet
  valid : idFlow.Valid lines
  freed : ∀ id, ¬ idFlow.Live lines id

/-- The new id of the result of the line at `p`: the number of results before it. -/
def newId (lines : List TraceLine) (p : Nat) : Nat :=
  (lines.take p).countP fun line => (idFlow.puts line).isSome

/-- `out` is the line at position `pre.length`, its result id replaced by the number of results
before it and its input id by the number of the line that produced it. -/
def RenamedLine (lines pre : List TraceLine) (line out : TraceLine) : Prop :=
  ∃ p, (∀ id, idFlow.takes line = some id → idFlow.Producer pre id p) ∧
    out = renameIds (newId lines p) (newId lines pre.length) line

/-- The lines `out` are the lines of a trace with new ids. -/
def Renamed (lines out : List TraceLine) : Prop :=
  out.length = lines.length ∧ ∀ pre line post, lines = pre ++ line :: post →
    ∃ line', out[pre.length]? = some line' ∧ RenamedLine lines pre line line'

/-! ## One line -/

section

variable {st : RewriteState} {lines pre post out : List TraceLine} {line : TraceLine} {id n : Nat}

/-- The map after the line has released its input id. -/
def RewriteState.released (st : RewriteState) (line : TraceLine) : AList fun _ : Nat => Nat × Nat :=
  match idFlow.takes line with
  | none => st.newIdMap
  | some id => st.newIdMap.erase id

/-- The state after the line has been rewritten. -/
def RewriteState.after (st : RewriteState) (line : TraceLine) (size : Nat) : RewriteState where
  nextId := st.nextId + if (idFlow.puts line).isSome then 1 else 0
  newIdMap := match idFlow.puts line with
    | none => st.released line
    | some id => (st.released line).insert id (st.nextId, size)

theorem insertResult_of_notMem {size : Nat} (h : id ∉ st.newIdMap) : st.insertResult id size =
    .ok { nextId := st.nextId + 1, newIdMap := st.newIdMap.insert id (st.nextId, size) } :=
  if_neg h

theorem insertResult_of_mem {size : Nat} (h : id ∈ st.newIdMap) :
    st.insertResult id size = .error (.duplicateResultId id) :=
  if_pos h

theorem release_of_lookup {entry : Nat × Nat} {error : RewriteError}
    (h : st.newIdMap.lookup id = some entry) :
    st.release id error = .ok (entry.1, { st with newIdMap := st.newIdMap.erase id }) := by
  unfold RewriteState.release
  rw [h]
  rfl

theorem release_of_none {error : RewriteError} (h : st.newIdMap.lookup id = none) :
    st.release id error = .error error := by
  unfold RewriteState.release
  rw [h]
  rfl

/-- A line that fits is renamed. -/
theorem rewriteLine_ok (hop : line ≠ .opNotSet)
    (htakes : ∀ id, idFlow.takes line = some id → ∃ size, st.newIdMap.lookup id = some (n, size))
    (hputs : ∀ id, idFlow.puts line = some id → id ∉ st.released line) :
    ∃ size, rewriteLine st line = .ok (st.after line size, renameIds n st.nextId line) := by
  cases line with
  | malloc malloc =>
    obtain ⟨_ | id, size, al⟩ := malloc
    · exact ⟨0, rfl⟩
    · refine ⟨size.getD 0, ?_⟩
      have hid : id ∉ st.newIdMap := hputs id rfl
      simp only [rewriteLine, insertResult_of_notMem hid]
      rfl
  | calloc calloc =>
    obtain ⟨_ | id, nmemb, size⟩ := calloc
    · exact ⟨0, rfl⟩
    · refine ⟨nmemb.getD 0 * size.getD 0 % 2 ^ 64, ?_⟩
      have hid : id ∉ st.newIdMap := hputs id rfl
      simp only [rewriteLine, insertResult_of_notMem hid]
      rfl
  | realloc realloc =>
    obtain ⟨resultId, _ | inputId, size⟩ := realloc
    · refine ⟨size.getD 0, ?_⟩
      have hid : resultId.getD 0 ∉ st.newIdMap := hputs _ rfl
      simp only [rewriteLine, pure_bind, insertResult_of_notMem hid]
      rfl
    · refine ⟨size.getD 0, ?_⟩
      obtain ⟨size', hlookup⟩ := htakes inputId rfl
      have hid : resultId.getD 0 ∉ st.newIdMap.erase inputId := hputs _ rfl
      have hins : RewriteState.insertResult { st with newIdMap := st.newIdMap.erase inputId }
          (resultId.getD 0) (size.getD 0) = .ok _ := insertResult_of_notMem hid
      simp only [rewriteLine, release_of_lookup hlookup]
      show (do
        let st' ← RewriteState.insertResult { st with newIdMap := st.newIdMap.erase inputId }
          (resultId.getD 0) (size.getD 0)
        pure (st', _) : Except RewriteError (RewriteState × TraceLine)) = _
      rw [hins]
      rfl
  | free free =>
    obtain ⟨_ | inputId, sizeHint, alHint⟩ := free
    · exact ⟨0, rfl⟩
    · obtain ⟨size', hlookup⟩ := htakes inputId rfl
      refine ⟨0, ?_⟩
      simp only [rewriteLine, release_of_lookup hlookup]
      rfl
  | opNotSet => exact absurd rfl hop

/-- Any other line is an error. -/
theorem rewriteLine_error (h : line = .opNotSet ∨
    (∃ id, idFlow.takes line = some id ∧ st.newIdMap.lookup id = none) ∨
    ∃ id, idFlow.puts line = some id ∧ id ∈ st.released line) :
    ∃ error, rewriteLine st line = .error error := by
  cases line with
  | malloc malloc =>
    obtain ⟨id, hid, hmem⟩ : ∃ id, malloc.resultId = some id ∧ id ∈ st.newIdMap := by
      simpa [idFlow, inputAndResultIds, RewriteState.released] using h
    refine ⟨.duplicateResultId id, ?_⟩
    simp only [rewriteLine, hid, insertResult_of_mem hmem]
    rfl
  | calloc calloc =>
    obtain ⟨id, hid, hmem⟩ : ∃ id, calloc.resultId = some id ∧ id ∈ st.newIdMap := by
      simpa [idFlow, inputAndResultIds, RewriteState.released] using h
    refine ⟨.duplicateResultId id, ?_⟩
    simp only [rewriteLine, hid, insertResult_of_mem hmem]
    rfl
  | realloc realloc =>
    obtain ⟨resultId, _ | inputId, size⟩ := realloc
    · have hmem : resultId.getD 0 ∈ st.newIdMap := by
        simpa [idFlow, inputAndResultIds, RewriteState.released] using h
      refine ⟨.duplicateResultId (resultId.getD 0), ?_⟩
      simp only [rewriteLine, pure_bind, insertResult_of_mem hmem]
      rfl
    · cases hlookup : st.newIdMap.lookup inputId with
      | none =>
        refine ⟨.unknownIdRealloced inputId, ?_⟩
        simp only [rewriteLine, release_of_none hlookup]
        rfl
      | some entry =>
        have hmem : resultId.getD 0 ∈ st.newIdMap.erase inputId := by
          simpa [idFlow, inputAndResultIds, RewriteState.released, hlookup] using h
        have hins : RewriteState.insertResult { st with newIdMap := st.newIdMap.erase inputId }
            (resultId.getD 0) (size.getD 0) = .error _ := insertResult_of_mem hmem
        refine ⟨.duplicateResultId (resultId.getD 0), ?_⟩
        simp only [rewriteLine, release_of_lookup hlookup]
        show (do
          let st' ← RewriteState.insertResult { st with newIdMap := st.newIdMap.erase inputId }
            (resultId.getD 0) (size.getD 0)
          pure (st', _) : Except RewriteError (RewriteState × TraceLine)) = _
        rw [hins]
        rfl
  | free free =>
    obtain ⟨id, hid, hlookup⟩ : ∃ id, free.inputId = some id ∧ st.newIdMap.lookup id = none := by
      simpa [idFlow, inputAndResultIds] using h
    refine ⟨.unknownIdFreed id, ?_⟩
    simp only [rewriteLine, hid, release_of_none hlookup]
    rfl
  | opNotSet => exact ⟨_, rfl⟩

/-! ## The whole trace -/

/-- The state represents the flow of ids, under their new numbers. -/
structure RewriteState.Inv (st : RewriteState) (lines pre : List TraceLine) : Prop where
  nextId : st.nextId = newId lines pre.length
  represents : idFlow.Represents pre (newId lines) fun id => (st.newIdMap.lookup id).map Prod.fst

/-- The line `line` may follow the lines `pre`. -/
def LineOk (pre : List TraceLine) (line : TraceLine) : Prop :=
  line ≠ .opNotSet ∧ idFlow.Fits pre line

theorem newId_succ : newId (pre ++ line :: post) (pre.length + 1) =
    newId (pre ++ line :: post) pre.length + if (idFlow.puts line).isSome then 1 else 0 := by
  unfold newId
  rw [List.take_append_of_le_length (le_refl _), List.take_length, List.take_append,
    List.take_of_length_le (by omega), Nat.add_sub_cancel_left, List.take_succ_cons, List.take_zero,
    List.countP_append, List.countP_singleton]

namespace RewriteState.Inv

theorem mem_iff (h : st.Inv lines pre) : id ∈ st.newIdMap ↔ idFlow.Live pre id := by
  rw [← h.represents.isSome, ← AList.lookup_isSome, Option.isSome_iff_exists]
  simp

/-- What is left after the input id has been released. -/
theorem mem_released (h : st.Inv lines pre) :
    id ∈ st.released line ↔ idFlow.Live pre id ∧ idFlow.takes line ≠ some id := by
  unfold RewriteState.released
  split
  · rename_i heq
    rw [h.mem_iff, heq]
    simp
  · rename_i id' heq
    rw [AList.mem_erase, h.mem_iff, heq, and_comm]
    simp [eq_comm]

theorem lookup_released (hne : idFlow.takes line ≠ some id) :
    (st.released line).lookup id = st.newIdMap.lookup id := by
  unfold RewriteState.released
  split
  · rfl
  · rename_i id' heq
    exact AList.lookup_erase_ne fun hc => hne (by rw [heq, hc])

/-- **One line**: it is rewritten when it fits, and an error otherwise. -/
theorem after (h : st.Inv (pre ++ line :: post) pre) (hfits : idFlow.Fits pre line) (size : Nat) :
    (st.after line size).Inv (pre ++ line :: post) (pre ++ [line]) := by
  refine ⟨?_, h.represents.append hfits (fun id hid => ?_) (fun id hid hne => ?_) fun id hne hne' => ?_⟩
  · rw [List.length_append, List.length_singleton, newId_succ, ← h.nextId]
    rfl
  · simp only [RewriteState.after, hid, AList.lookup_insert, Option.map_some, h.nextId]
  · have hnone : (st.released line).lookup id = none := by
      rw [AList.lookup_eq_none, h.mem_released]
      exact fun hc => hc.2 hid
    simp only [RewriteState.after]
    split
    · rw [hnone]
      rfl
    · rename_i id' heq
      rw [AList.lookup_insert_ne fun hc => hne (by rw [heq, hc]), hnone]
      rfl
  · simp only [RewriteState.after]
    split
    · rw [lookup_released hne]
    · rename_i id' heq
      rw [AList.lookup_insert_ne fun hc => hne' (by rw [heq, hc]), lookup_released hne]

theorem rewriteLine_spec (h : st.Inv (pre ++ line :: post) pre) :
    (LineOk pre line → ∃ st' line', rewriteLine st line = .ok (st', line') ∧
      st'.Inv (pre ++ line :: post) (pre ++ [line]) ∧
      RenamedLine (pre ++ line :: post) pre line line') ∧
    (¬ LineOk pre line → ∃ error, rewriteLine st line = .error error) := by
  constructor
  · rintro ⟨hop, hfits⟩
    obtain ⟨p, hp⟩ : ∃ p, ∀ id, idFlow.takes line = some id → idFlow.Producer pre id p := by
      cases htakes : idFlow.takes line with
      | none => exact ⟨0, fun id hc => nomatch hc⟩
      | some id =>
        obtain ⟨p, hp⟩ := hfits.1 id htakes
        refine ⟨p, fun id' hid => ?_⟩
        obtain rfl : id = id' := by simpa using hid
        exact hp
    have htakes : ∀ id, idFlow.takes line = some id →
        ∃ size, st.newIdMap.lookup id = some (newId (pre ++ line :: post) p, size) := by
      intro id hid
      have hentry := (h.represents id (newId (pre ++ line :: post) p)).mpr ⟨p, hp id hid, rfl⟩
      obtain ⟨⟨n, size⟩, hlookup, heq⟩ := Option.map_eq_some_iff.mp hentry
      exact ⟨size, by rw [hlookup, ← heq]⟩
    have hputs : ∀ id, idFlow.puts line = some id → id ∉ st.released line := by
      intro id hid hmem
      obtain ⟨hlive, hne⟩ := h.mem_released.mp hmem
      exact hne (hfits.2 id hid hlive)
    obtain ⟨size, heq⟩ := rewriteLine_ok hop htakes hputs
    refine ⟨_, _, heq, h.after hfits size, p, hp, ?_⟩
    rw [h.nextId]
  · intro hno
    refine rewriteLine_error ?_
    by_contra hcon
    push Not at hcon
    obtain ⟨hop, htakes, hputs⟩ := hcon
    refine hno ⟨hop, fun id hid => ?_, fun id hid hlive => ?_⟩
    · rw [← h.mem_iff, ← AList.lookup_isSome, Option.isSome_iff_ne_none]
      exact htakes id hid
    · by_contra hne
      exact hputs id hid (h.mem_released.mpr ⟨hlive, hne⟩)

end RewriteState.Inv

/-- **All lines from the state after `pre`.** -/
theorem rewriteLines_spec (post : List TraceLine) : ∀ {pre : List TraceLine} {st : RewriteState},
    st.Inv (pre ++ post) pre →
    ((∀ mid line rest, post = mid ++ line :: rest → LineOk (pre ++ mid) line) →
      ∃ st' out, rewriteLines st post = .ok (st', out) ∧ st'.Inv (pre ++ post) (pre ++ post) ∧
        out.length = post.length ∧ ∀ mid line rest, post = mid ++ line :: rest →
          ∃ line', out[mid.length]? = some line' ∧
            RenamedLine (pre ++ post) (pre ++ mid) line line') ∧
    (¬ (∀ mid line rest, post = mid ++ line :: rest → LineOk (pre ++ mid) line) →
      ∃ error, rewriteLines st post = .error error) := by
  induction post with
  | nil =>
    intro pre st h
    rw [List.append_nil] at h ⊢
    exact ⟨fun _ => ⟨st, [], rfl, h, rfl, fun mid line rest hc => by simp at hc⟩,
      fun hno => absurd (fun mid line rest hc => by simp at hc) hno⟩
  | cons line post ih =>
    intro pre st h
    obtain ⟨hok, herr⟩ := h.rewriteLine_spec
    by_cases hline : LineOk pre line
    swap
    · refine ⟨fun hall => absurd (by simpa using hall [] line post rfl) hline, fun _ => ?_⟩
      obtain ⟨error, heq⟩ := herr hline
      refine ⟨error, ?_⟩
      simp only [rewriteLines, heq]
      rfl
    obtain ⟨st₁, line', heq, h₁, hren⟩ := hok hline
    rw [show pre ++ line :: post = (pre ++ [line]) ++ post by simp] at h₁ hren ⊢
    obtain ⟨hok', herr'⟩ := ih h₁
    have hiff : (∀ mid l rest, line :: post = mid ++ l :: rest → LineOk (pre ++ mid) l) ↔
        ∀ mid l rest, post = mid ++ l :: rest → LineOk (pre ++ [line] ++ mid) l := by
      constructor
      · intro hall mid l rest hc
        simpa using hall (line :: mid) l rest (by rw [hc, List.cons_append])
      · rintro hall (_ | ⟨l', mid⟩) l rest hc
        · obtain ⟨rfl, -⟩ := List.cons.inj hc
          simpa using hline
        · obtain ⟨rfl, htail⟩ := List.cons.inj (show line :: post = l' :: (mid ++ l :: rest) from hc)
          simpa using hall mid l rest htail
    rw [hiff]
    constructor
    · intro hall
      obtain ⟨st₂, out, heq', h₂, hlen, hout⟩ := hok' hall
      refine ⟨st₂, line' :: out, ?_, h₂, by simp [hlen], ?_⟩
      · simp only [rewriteLines, heq]
        show (do
          let (st, lines) ← rewriteLines st₁ post
          pure (st, line' :: lines) : Except RewriteError _) = _
        rw [heq']
        rfl
      · rintro (_ | ⟨l', mid⟩) l rest hc
        · obtain ⟨rfl, -⟩ := List.cons.inj hc
          exact ⟨line', rfl, by simpa using hren⟩
        · obtain ⟨rfl, htail⟩ := List.cons.inj (show line :: post = l' :: (mid ++ l :: rest) from hc)
          obtain ⟨l'', hget, hren'⟩ := hout mid l rest htail
          exact ⟨l'', by simpa using hget, by simpa using hren'⟩
    · intro hno
      obtain ⟨error, heq'⟩ := herr' hno
      refine ⟨error, ?_⟩
      simp only [rewriteLines, heq]
      show (do
        let (st, lines) ← rewriteLines st₁ post
        pure (st, line' :: lines) : Except RewriteError _) = _
      rw [heq']
      rfl

/-- The lines fit exactly when their ops are set and the ids flow. -/
theorem lineOk_iff : (∀ pre line post, lines = pre ++ line :: post → LineOk pre line) ↔
    (∀ line ∈ lines, line ≠ .opNotSet) ∧ idFlow.Valid lines := by
  constructor
  · intro h
    refine ⟨fun line hline => ?_, fun pre line post heq => (h pre line post heq).2⟩
    obtain ⟨pre, post, heq⟩ := List.append_of_mem hline
    exact (h pre line post heq).1
  · rintro ⟨hop, hvalid⟩ pre line post heq
    exact ⟨hop line (by rw [heq]; simp), hvalid pre line post heq⟩

/-- A trace whose ids flow is renamed, and any other is an error. -/
theorem rewriteIdsToUnique_cases (lines : List TraceLine) :
    (Accepted lines ∧ ∃ out, rewriteIdsToUnique lines = .ok out ∧ Renamed lines out) ∨
      (¬ Accepted lines ∧ ∃ error, rewriteIdsToUnique lines = .error error) := by
  have hinit : RewriteState.Inv { nextId := 0, newIdMap := ∅ } ([] ++ lines) [] := by
    refine ⟨by simp [newId], ?_⟩
    have hnil : idFlow.Represents [] (newId ([] ++ lines)) fun _ => none := Flow.represents_nil
    simpa using hnil
  obtain ⟨hok, herr⟩ := rewriteLines_spec lines hinit
  simp only [List.nil_append] at hok herr
  unfold rewriteIdsToUnique
  by_cases hall : ∀ pre line post, lines = pre ++ line :: post → LineOk pre line
  · obtain ⟨st, out, heq, hinv, hlen, hout⟩ := hok hall
    obtain ⟨hop, hvalid⟩ := lineOk_iff.mp hall
    have hempty : st.newIdMap.keys.isEmpty = true ↔ ∀ id, ¬ idFlow.Live lines id := by
      rw [List.isEmpty_iff, List.eq_nil_iff_forall_not_mem]
      exact forall_congr' fun id => not_congr (AList.mem_keys.symm.trans hinv.mem_iff)
    rw [heq]
    by_cases hkeys : st.newIdMap.keys.isEmpty = true
    · exact .inl ⟨⟨hop, hvalid, hempty.mp hkeys⟩, out, if_pos hkeys, hlen, hout⟩
    · exact .inr ⟨fun h => hkeys (hempty.mpr h.freed), .notAllFreed, if_neg hkeys⟩
  · obtain ⟨error, heq⟩ := herr hall
    rw [heq]
    exact .inr ⟨fun h => hall (lineOk_iff.mpr ⟨h.opSet, h.valid⟩), error, rfl⟩

theorem renamed_of_ok (h : rewriteIdsToUnique lines = .ok out) :
    Accepted lines ∧ Renamed lines out := by
  rcases rewriteIdsToUnique_cases lines with ⟨hacc, out', heq, hren⟩ | ⟨-, error, heq⟩
  · obtain rfl : out' = out := Except.ok.inj (heq.symm.trans h)
    exact ⟨hacc, hren⟩
  · cases heq.symm.trans h

/-- **`RewriteIdsToUnique`** succeeds exactly on the traces whose ids flow and are all released, and
then numbers the results and replaces the ids by these numbers. -/
theorem rewriteIdsToUnique_spec (lines : List TraceLine) :
    ((∃ out, rewriteIdsToUnique lines = .ok out) ↔ Accepted lines) ∧
      ∀ out, rewriteIdsToUnique lines = .ok out → Renamed lines out := by
  refine ⟨⟨fun ⟨out, h⟩ => (renamed_of_ok h).1, fun hacc => ?_⟩, fun out h => (renamed_of_ok h).2⟩
  rcases rewriteIdsToUnique_cases lines with ⟨-, out, heq, -⟩ | ⟨hno, -⟩
  · exact ⟨out, heq⟩
  · exact absurd hacc hno

/-- The id 7 is used twice, once as input and result of the same line. -/
example : rewriteIdsToUnique
    [.malloc ⟨some 7, some 16, none⟩, .realloc ⟨some 7, some 7, some 32⟩, .free ⟨some 7, none, none⟩,
      .calloc ⟨some 7, some 2, some 8⟩, .free ⟨some 7, none, none⟩] = .ok
    [.malloc ⟨some 0, some 16, none⟩, .realloc ⟨some 1, some 0, some 32⟩, .free ⟨some 1, none, none⟩,
      .calloc ⟨some 2, some 2, some 8⟩, .free ⟨some 2, none, none⟩] := by decide

end

end MallocBench.Trace
