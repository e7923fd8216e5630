import MallocBench.Trace.LogBounds

/-!
# The ids of a trace that is read from a log

The id of a pointer is that of the line that allocated it (`IdsOf`), whatever process the line is
of. So the lines that are kept name the right ids.

`openLog_traceOf`: the trace of a log of one process is that of its lines, when the last line ends.
-/

namespace MallocBench.Trace

open Lib

variable {recognise : List Char → Option (Except ReadError LogEntry)} {maxOps : Nat}
  {order : HashOrder} {text : List Char} {trace : Tracefile} {st st' : ReadState}
  {done : List (List Char)} {entry : LogEntry} {pre post es : List LogEntry} {line : TraceLine}
  {lines : List TraceLine} {ids ids' : Nat → Nat} {pid : Int} {id ptr p : Nat}

/-! ## The ids of the pointers -/

/-- The live pointers have the ids of the lines that allocated them. -/
structure IdsOf (es : List LogEntry) (ids : Nat → Nat) (st : ReadState) : Prop where
  numbered : st.Numbered
  represents : logFlow.Represents es ids fun ptr => st.idMap.lookup ptr

/-- The line of the trace for `entry`: its input is the id of the line that allocated the pointer. -/
def LineOf (ids : Nat → Nat) (pre : List LogEntry) (entry : LogEntry) (line : TraceLine) : Prop :=
  ∃ input, line = entry.op.line input (ids pre.length) ∧ (entry.op.input = none → input = none) ∧
    ∀ ptr, entry.op.input = some ptr → ∃ p, logFlow.Producer pre ptr p ∧ input = some (ids p)

/-- One line of the trace for each of the log. -/
def LinesOf (ids : Nat → Nat) (es : List LogEntry) (lines : List TraceLine) : Prop :=
  lines.length = es.length ∧ ∀ pre entry post, es = pre ++ entry :: post →
    ∃ line, lines[pre.length]? = some line ∧ LineOf ids pre entry line

theorem LineOf.congr (h : LineOf ids pre entry line) (hids : ∀ p, p ≤ pre.length → ids' p = ids p) :
    LineOf ids' pre entry line := by
  obtain ⟨input, rfl, hnone, hsome⟩ := h
  refine ⟨input, by rw [hids _ (Nat.le_refl _)], hnone, fun ptr hptr => ?_⟩
  obtain ⟨p, hp, rfl⟩ := hsome ptr hptr
  exact ⟨p, hp, by rw [hids p hp.lt.le]⟩

theorem LinesOf.append (h : LinesOf ids es lines) (hline : LineOf ids' es entry line)
    (hids : ∀ p, p < es.length → ids' p = ids p) : LinesOf ids' (es ++ [entry]) (lines ++ [line]) := by
  refine ⟨by simp [h.1], fun pre e post heq => ?_⟩
  rcases List.eq_nil_or_concat post with rfl | ⟨post, e', rfl⟩
  · obtain ⟨rfl, ⟨⟩⟩ := List.append_inj' heq rfl
    refine ⟨line, ?_, hline⟩
    rw [← h.1, List.getElem?_append_right (Nat.le_refl _), Nat.sub_self]
    rfl
  · have heq : es ++ [entry] = (pre ++ e :: post) ++ [e'] := by simpa using heq
    obtain ⟨rfl, -⟩ := List.append_inj' heq rfl
    obtain ⟨line', hget, hline'⟩ := h.2 pre e post rfl
    have hlt : pre.length < (pre ++ e :: post).length := by simp
    refine ⟨line', ?_, hline'.congr fun p hp => hids p (Nat.lt_of_le_of_lt hp hlt)⟩
    rw [List.getElem?_append_left (by rw [h.1]; exact hlt), hget]

theorem idsOf_nil : IdsOf [] ids .init := by
  refine ⟨.empty, ?_⟩
  have hnil : logFlow.Represents [] ids fun _ => none := Flow.represents_nil
  simpa [ReadState.init] using hnil

namespace IdsOf

theorem mem_iff (h : IdsOf es ids st) : ptr ∈ st.idMap ↔ logFlow.Live es ptr := by
  rw [← h.represents.isSome, ← AList.lookup_isSome, Option.isSome_iff_exists]

/-- **One line**: its input is live and its result is not, it has the ids of its pointers, and the
result has a new one. -/
theorem fits (h : IdsOf es ids st) (hread : ReadState.OpRead st entry.op st' line) :
    logFlow.Fits es entry := by
  refine ⟨fun ptr hptr => h.mem_iff.mp (hread.input ptr hptr), fun ptr hptr hlive => ?_⟩
  by_contra hne
  exact hread.result ptr hptr (ReadState.mem_afterInput.mpr ⟨h.mem_iff.mpr hlive, hne⟩)

theorem append (h : IdsOf es ids st) (hread : ReadState.OpRead st entry.op st' line) :
    IdsOf (es ++ [entry])
      (Function.update ids es.length (st.afterInput entry.op.input).pool.take.1) st' := by
  refine ⟨hread.numbered h.numbered, ?_⟩
  have hpre : logFlow.Represents es
      (Function.update ids es.length (st.afterInput entry.op.input).pool.take.1)
      fun ptr => st.idMap.lookup ptr :=
    h.represents.congr fun p hp => Function.update_of_ne (Nat.ne_of_lt hp) _ _
  rw [hread.state]
  refine hpre.append (h.fits hread) (fun ptr hptr => ?_) (fun ptr hptr hne => ?_)
    fun ptr hne hne' => ReadState.lookup_after hne hne'
  · rw [Function.update_self, ReadState.after, show entry.op.result = some ptr from hptr]
    exact AList.lookup_insert _
  · have hnot : ptr ∉ (st.afterInput entry.op.input).idMap := fun hc =>
      (ReadState.mem_afterInput.mp hc).2 hptr
    rw [ReadState.after]
    cases hresult : entry.op.result with
    | none => exact AList.lookup_eq_none.mpr hnot
    | some ptr' =>
      refine (AList.lookup_insert_ne fun hc => hne ?_).trans (AList.lookup_eq_none.mpr hnot)
      rw [hc]
      exact hresult

theorem lineOf (h : IdsOf es ids st) (hread : ReadState.OpRead st entry.op st' line) :
    LineOf (Function.update ids es.length (st.afterInput entry.op.input).pool.take.1) es entry
      line := by
  refine ⟨_, by rw [hread.line, Function.update_self], fun hnone => by rw [hnone]; rfl,
    fun ptr hptr => ?_⟩
  obtain ⟨id, hid⟩ := Option.isSome_iff_exists.mp (AList.lookup_isSome.mpr (hread.input ptr hptr))
  obtain ⟨p, hp, rfl⟩ := (h.represents ptr id).mp hid
  refine ⟨p, hp, ?_⟩
  rw [hptr, Function.update_of_ne (Nat.ne_of_lt hp.lt)]
  exact hid

end IdsOf

theorem keep_idsOf (h : IdsOf es ids st) : IdsOf es ids (st.keep pid line) :=
  ⟨ReadState.keep_numbered h.numbered, by simpa using h.represents⟩

/-! ## One process -/

/-- When all lines are of one process, all are kept. -/
theorem Run.linesOf (h : Run recognise maxOps done st)
    (hpid : ∀ entry ∈ logEntries recognise done, entry.pid = pid) :
    ∃ ids, IdsOf (logEntries recognise done) ids st ∧
      LinesOf ids (logEntries recognise done) st.lines := by
  induction h with
  | init =>
    exact ⟨fun _ => 0, idsOf_nil, rfl, fun pre entry post hc => by simp [logEntries] at hc⟩
  | skip _ _ hrec ih =>
    rw [logEntries_skip hrec] at hpid ⊢
    exact ih hpid
  | @read done st st' line entry traceLine hrun _ hrec hop ih =>
    rw [logEntries_read hrec] at hpid ⊢
    obtain ⟨ids, hids, hlines⟩ := ih fun e he => hpid e (List.mem_append_left _ he)
    have hread := ReadState.readOp_ok hop
    have hkept : st'.requiredPid.getD entry.pid = entry.pid := by
      rw [hread.state, ReadState.after_rest.2.1, hrun.requiredPid]
      cases hes : logEntries recognise done with
      | nil => rfl
      | cons first es =>
        rw [hes] at hpid
        exact (hpid first (by simp)).trans (hpid entry (by simp)).symm
    refine ⟨_, keep_idsOf (hids.append hread), ?_⟩
    rw [ReadState.keep, if_pos hkept]
    refine (hread.state ▸ ReadState.after_rest.1 : st'.lines = st.lines) ▸ ?_
    exact hlines.append (hids.lineOf hread) fun p hp => Function.update_of_ne (Nat.ne_of_lt hp) _ _

/-- The lines that are read are recognised completely, or not at all. -/
theorem Run.recognised (h : Run recognise maxOps done st) :
    done.filterMap recognise = (logEntries recognise done).map Except.ok := by
  induction h with
  | init => rfl
  | skip _ _ hrec ih => rw [logEntries_skip hrec, List.filterMap_append, ih]; simp [hrec]
  | read _ _ hrec _ ih => rw [logEntries_read hrec, List.filterMap_append, ih]; simp [hrec]

/-- All lines of a text, with one that does not end. -/
def textLines (text : List Char) : List (List Char) :=
  (getlines text).1 ++ if (getlines text).2 = [] then [] else [(getlines text).2]

/-- `lines` are the lines for the recognised lines of the text, and one free for each pointer that
is still live. -/
def TraceOf (recognise : List Char → Option (Except ReadError LogEntry)) (text : List Char)
    (lines : List TraceLine) : Prop :=
  ∃ es ids opLines frees ptrs, (textLines text).filterMap recognise = es.map Except.ok ∧
    lines = opLines ++ frees ∧ LinesOf ids es opLines ∧
    ptrs.Nodup ∧ (∀ ptr, ptr ∈ ptrs ↔ logFlow.Live es ptr) ∧
    List.Forall₂ (fun ptr line => ∃ p, logFlow.Producer es ptr p ∧ line = freeLine (ids p)) ptrs frees

/-- The last line ends, is not recognised or frees the last pointer. -/
def LastLineFits (recognise : List Char → Option (Except ReadError LogEntry)) (text : List Char) :
    Prop :=
  (getlines text).2 = [] ∨ recognise (getlines text).2 = none ∨
    ∃ entry ptr, recognise (getlines text).2 = some (.ok entry) ∧ entry.op = .free ptr ∧ ptr ≠ 0 ∧
      ∀ ptr', logFlow.Live (logEntries recognise (getlines text).1) ptr' ↔ ptr' = ptr

/-- The frees at the end are those of the live pointers. -/
theorem IdsOf.frees (h : IdsOf es ids st) (order : HashOrder) :
    ((order.entries st.idMap).map Prod.fst).Nodup ∧
    (∀ ptr, ptr ∈ (order.entries st.idMap).map Prod.fst ↔ logFlow.Live es ptr) ∧
    ∀ ptr id, (ptr, id) ∈ order.entries st.idMap ↔ st.idMap.lookup ptr = some id := by
  have hmem : ∀ ptr id, (ptr, id) ∈ order.entries st.idMap ↔ st.idMap.lookup ptr = some id := by
    intro ptr id
    rw [(order.perm st.idMap).mem_iff, List.mem_map]
    constructor
    · rintro ⟨⟨ptr', id'⟩, hentry, heq⟩
      obtain ⟨rfl, rfl⟩ := Prod.mk.inj heq
      exact AList.mem_lookup_iff.mpr hentry
    · intro hlookup
      exact ⟨⟨ptr, id⟩, AList.mem_lookup_iff.mp hlookup, rfl⟩
  refine ⟨?_, fun ptr => ?_, hmem⟩
  · rw [((order.perm st.idMap).map Prod.fst).nodup_iff, List.map_map]
    exact st.idMap.nodupKeys
  · rw [← h.mem_iff, ← AList.lookup_isSome, Option.isSome_iff_exists, List.mem_map]
    constructor
    · rintro ⟨⟨ptr, id⟩, hentry, rfl⟩
      exact ⟨id, (hmem ptr id).mp hentry⟩
    · rintro ⟨id, hid⟩
      exact ⟨(ptr, id), (hmem ptr id).mpr hid, rfl⟩

theorem getlines_length (text : List Char) : (getlines text).1.length ≤ text.length := by
  induction text with
  | nil => exact Nat.le_refl _
  | cons c text ih =>
    unfold getlines
    generalize getlines text = r at ih ⊢
    obtain ⟨lines, rest⟩ := r
    by_cases hc : c = '\n'
    · simp only [if_pos hc]
      exact Nat.succ_le_succ ih
    · simp only [if_neg hc]
      cases lines with
      | nil => exact Nat.zero_le _
      | cons line lines => exact Nat.le_succ_of_le ih

/-- A limit that the text cannot reach does not stop the loop. -/
theorem openLog_unlimited (hunlimited : 2 * text.length < maxOps)
    (h : openLog recognise order maxOps text = .ok trace) :
    ∃ st, ReadState.init.readLines recognise maxOps 0 (getlines text).1 = .ok st ∧
      Run recognise maxOps (getlines text).1 st := by
  obtain ⟨pre, post, st, hst, hlines, hrun, hstop, -, -⟩ := openLog_run h
  have hlen := getlines_length text
  have hlive := hrun.length
  have hallocs : allocs (logEntries recognise pre) ≤ pre.length :=
    List.countP_le_length.trans (List.length_filterMap_le ..)
  rw [hlines, List.length_append] at hlen
  obtain rfl := hstop.resolve_right (by omega)
  exact ⟨st, hst, by rw [hlines, List.append_nil]; exact hrun⟩

/-- The result of a line is in the line of the trace. -/
theorem LinesOf.puts (h : LinesOf ids es lines) (hget : es[p]? = some entry)
    (hputs : logFlow.puts entry = some ptr) :
    ∃ line, lines[p]? = some line ∧ idFlow.puts line = some (ids p) := by
  obtain ⟨hp, hget⟩ := List.getElem?_eq_some_iff.mp hget
  obtain ⟨line, hline, input, rfl, -⟩ := h.2 (es.take p) entry (es.drop (p + 1)) (by
    rw [← hget, List.getElem_cons_drop, List.take_append_drop])
  rw [List.length_take_of_le hp.le] at hline
  refine ⟨_, hline, ?_⟩
  rw [LogOp.puts_line, show entry.op.result = some ptr from hputs]
  rfl

/-- **A last line that does not end** is part of the trace only if it frees the pointer that the
hash map lists first. -/
theorem last_line_freed (h : IdsOf es ids st) (hlines : LinesOf ids es st.lines)
    {opLines frees : List TraceLine} (hops : LinesOf ids' (es ++ [entry]) opLines)
    (heq : st.lines ++ (order.entries st.idMap).map (fun entry => freeLine entry.2) =
      opLines ++ frees) :
    ∃ ptr, entry.op = .free ptr ∧ ptr ≠ 0 ∧ logFlow.Live es ptr ∧
      (order.entries st.idMap).head?.map Prod.fst = some ptr := by
  obtain ⟨line, hline, input, rfl, hnone, hsome⟩ := hops.2 es entry [] rfl
  have hlt : es.length < opLines.length := (List.getElem?_eq_some_iff.mp hline).1
  have hhead : ((order.entries st.idMap).map fun entry => freeLine entry.2)[0]? =
      some (entry.op.line input (ids' es.length)) := by
    have happend : (opLines ++ frees)[es.length]? = opLines[es.length]? := List.getElem?_append_left hlt
    rw [← hline, ← happend, ← heq, ← hlines.1,
      List.getElem?_append_right (Nat.le_refl _), Nat.sub_self]
  cases hentries : order.entries st.idMap with
  | nil =>
    rw [hentries] at hhead
    cases hhead
  | cons first rest =>
    obtain ⟨q, i⟩ := first
    rw [hentries] at hhead
    have hfree : freeLine i = entry.op.line input (ids' es.length) := Option.some_inj.mp hhead
    obtain ⟨ptr, hop, rfl⟩ : ∃ ptr, entry.op = .free ptr ∧ input = some i := by
      cases hop : entry.op with
      | free ptr =>
        rw [hop] at hfree
        refine ⟨ptr, rfl, ?_⟩
        injection hfree with hfree
        injection hfree with hfree
        exact hfree.symm
      | _ =>
        rw [hop] at hfree
        cases hfree
    have hinput : entry.op.input = some ptr := by
      by_cases hptr : ptr = 0
      · have hnull : entry.op.input = none := by rw [hop, hptr]; rfl
        cases hnone hnull
      · rw [hop]
        exact if_pos hptr
    have hptr : ptr ≠ 0 := by
      rintro rfl
      rw [hop] at hinput
      cases hinput
    obtain ⟨p, hprod, hid⟩ := hsome ptr hinput
    -- the ids of the results are those in the lines of the trace
    have hsame : ids' p = ids p := by
      obtain ⟨⟨e, he, hputs⟩, -⟩ := hprod
      obtain ⟨l, hl, hputs₁⟩ := hlines.puts he hputs
      have he' : (es ++ [entry])[p]? = some e := by
        rw [List.getElem?_append_left (List.getElem?_eq_some_iff.mp he).1, he]
      obtain ⟨l', hl', hputs₂⟩ := hops.puts he' hputs
      have hp : p < st.lines.length := (List.getElem?_eq_some_iff.mp hl).1
      have hp' : p < opLines.length := (List.getElem?_eq_some_iff.mp hl').1
      obtain rfl : l = l' := by
        rw [← Option.some_inj, ← hl, ← hl', ← List.getElem?_append_left hp, heq,
          List.getElem?_append_left hp']
      rw [hputs₁] at hputs₂
      exact (Option.some_inj.mp hputs₂).symm
    have hlookup : st.idMap.lookup ptr = some i :=
      (h.represents ptr i).mpr ⟨p, hprod, by rw [← hsame]; exact (Option.some_inj.mp hid).symm⟩
    have hfirst : st.idMap.lookup q = some i :=
      ((h.frees order).2.2 q i).mp (by rw [hentries]; exact List.mem_cons_self ..)
    exact ⟨ptr, hop, hptr, ⟨p, hprod⟩, congrArg some (h.numbered.inj q ptr i hfirst hlookup)⟩

/-- The hash map lists the pointer `ptr` first. -/
def HashOrder.first (ptr : Nat) : HashOrder where
  entries m := (m.entries.map fun entry => (entry.1, entry.2)).filter (·.1 = ptr) ++
    (m.entries.map fun entry => (entry.1, entry.2)).filter (¬ ·.1 = ptr)
  perm m := by
    simpa using List.filter_append_perm (fun entry : Nat × Nat => decide (entry.1 = ptr))
      (m.entries.map fun entry => (entry.1, entry.2))

theorem HashOrder.head?_first {m : PtrIds} (hmem : ptr ∈ m) :
    ((HashOrder.first ptr).entries m).head?.map Prod.fst = some ptr := by
  obtain ⟨id, hid⟩ := Option.isSome_iff_exists.mp (AList.lookup_isSome.mpr hmem)
  have hentry : (ptr, id) ∈ (m.entries.map fun entry => (entry.1, entry.2)).filter (·.1 = ptr) :=
    List.mem_filter.mpr ⟨List.mem_map.mpr ⟨⟨ptr, id⟩, AList.mem_lookup_iff.mp hid, rfl⟩, by simp⟩
  unfold HashOrder.first
  cases hfirst : (m.entries.map fun entry => (entry.1, entry.2)).filter (·.1 = ptr) with
  | nil =>
    rw [hfirst] at hentry
    cases hentry
  | cons first rest =>
    have hmem : first ∈ (m.entries.map fun entry => (entry.1, entry.2)).filter (·.1 = ptr) := by
      rw [hfirst]
      exact List.mem_cons_self ..
    simp only [hfirst, List.cons_append, List.head?_cons, Option.map_some]
    exact congrArg some (by simpa using (List.mem_filter.mp hmem).2)

theorem filterMap_textLines (hrest : (getlines text).2 ≠ []) :
    (textLines text).filterMap recognise =
      (getlines text).1.filterMap recognise ++ (recognise (getlines text).2).toList := by
  unfold textLines
  rw [if_neg hrest, List.filterMap_append]
  cases hrec : recognise (getlines text).2 <;> simp [hrec]

/-- The last line is part of the trace. -/
theorem traceOf_of_lastLineFits (order : HashOrder)
    (hrun : Run recognise maxOps (getlines text).1 st)
    (h : IdsOf (logEntries recognise (getlines text).1) ids st)
    (hlines : LinesOf ids (logEntries recognise (getlines text).1) st.lines)
    (hlast : LastLineFits recognise text) : TraceOf recognise text
      (st.lines ++ (order.entries st.idMap).map fun entry => freeLine entry.2) := by
  obtain ⟨hnodup, hmem, hentries⟩ := h.frees order
  by_cases hno : (getlines text).2 = [] ∨ recognise (getlines text).2 = none
  · have hall : (textLines text).filterMap recognise =
        (logEntries recognise (getlines text).1).map Except.ok := by
      rw [← hrun.recognised]
      by_cases hrest : (getlines text).2 = []
      · rw [textLines, if_pos hrest, List.append_nil]
      · rw [filterMap_textLines hrest, hno.resolve_left hrest, Option.toList_none, List.append_nil]
    refine ⟨_, ids, st.lines, _, _, hall, rfl, hlines, hnodup, hmem, ?_⟩
    rw [List.forall₂_map_left_iff, List.forall₂_map_right_iff, List.forall₂_same]
    rintro ⟨ptr, id⟩ hentry
    obtain ⟨p, hp, rfl⟩ := (h.represents ptr id).mp ((hentries ptr id).mp hentry)
    exact ⟨p, hp, rfl⟩
  · rw [not_or] at hno
    obtain ⟨entry, ptr, hrec, hop, hptr, honly⟩ := (hlast.resolve_left hno.1).resolve_left hno.2
    have hinput : entry.op.input = some ptr := by rw [hop]; exact if_pos hptr
    have hputs : logFlow.puts entry = none := by
      show entry.op.result = none
      rw [hop]
      rfl
    obtain ⟨i, hi⟩ : ∃ i, order.entries st.idMap = [(ptr, i)] := by
      have hperm : ((order.entries st.idMap).map Prod.fst).Perm [ptr] :=
        (List.perm_ext_iff_of_nodup hnodup (List.nodup_singleton ptr)).mpr fun ptr' => by
          rw [hmem, honly, List.mem_singleton]
      obtain ⟨⟨ptr', i⟩, hi, rfl⟩ := List.map_eq_singleton_iff.mp (List.perm_singleton.mp hperm)
      exact ⟨i, hi⟩
    obtain ⟨p, hp, rfl⟩ := (h.represents ptr i).mp ((hentries ptr i).mp (by rw [hi]; simp))
    rw [hi]
    refine ⟨logEntries recognise (getlines text).1 ++ [entry], ids, st.lines ++ [freeLine (ids p)], [],
      [], ?_, by simp, hlines.append ⟨some (ids p), ?_, ?_, ?_⟩ fun _ _ => rfl, List.nodup_nil,
      fun ptr' => ?_, .nil⟩
    · rw [filterMap_textLines hno.1, hrun.recognised, hrec, List.map_append]
      rfl
    · rw [hop]
      rfl
    · rw [hinput]
      exact fun hc => nomatch hc
    · intro ptr' hptr'
      obtain rfl : ptr = ptr' := Option.some_inj.mp (hinput.symm.trans hptr')
      exact ⟨p, hp, rfl⟩
    · rw [Flow.live_append, hputs, honly]
      refine iff_of_false (by simp) ?_
      rintro (hc | ⟨rfl, hne⟩)
      · cases hc
      · exact hne hinput

/-- **The trace of a log** of one process, when the limit is not reached: it has a line for every
recognised line, whatever the order of the hash map, exactly when a last line that does not end
adds nothing. -/
theorem openLog_traceOf (hpid : ∀ line ∈ textLines text, ∀ entry,
      recognise line = some (.ok entry) → entry.pid = pid)
    (hunlimited : 2 * text.length < maxOps)
    (hopen : ∃ order trace, openLog recognise order maxOps text = .ok trace) :
    (∀ order trace, openLog recognise order maxOps text = .ok trace →
      TraceOf recognise text trace.lines) ↔ LastLineFits recognise text := by
  obtain ⟨order₀, trace₀, hopen⟩ := hopen
  obtain ⟨st, hst, hrun⟩ := openLog_unlimited hunlimited hopen
  obtain ⟨ids, hids, hlines⟩ := hrun.linesOf fun entry hentry => by
    obtain ⟨line, hline, hrec⟩ := mem_logEntries.mp hentry
    exact hpid line (List.mem_append_left _ hline) entry hrec
  have htrace : ∀ order trace, openLog recognise order maxOps text = .ok trace →
      trace.lines = st.lines ++ (order.entries st.idMap).map fun entry => freeLine entry.2 := by
    intro order trace h
    rw [openLog_ok order hst] at h
    rw [← Except.ok.inj h]
  constructor
  · intro hall
    by_cases hno : (getlines text).2 = [] ∨ recognise (getlines text).2 = none
    · exact hno.elim .inl fun hnone => .inr (.inl hnone)
    rw [not_or] at hno
    obtain ⟨result, hrec⟩ := Option.ne_none_iff_exists'.mp hno.2
    have hlast : ∀ order : HashOrder, ∃ entry ptr, result = .ok entry ∧ entry.op = .free ptr ∧
        ptr ≠ 0 ∧ logFlow.Live (logEntries recognise (getlines text).1) ptr ∧
        (order.entries st.idMap).head?.map Prod.fst = some ptr := by
      intro order
      obtain ⟨es, ids', opLines, frees, ptrs, hes, heq, hops, -⟩ :=
        hall order _ (openLog_ok order hst)
      rw [filterMap_textLines hno.1, hrun.recognised, hrec, Option.toList_some] at hes
      obtain ⟨es', last, rfl, hes', hlast⟩ := List.map_eq_append_iff.mp hes.symm
      obtain ⟨entry, rfl, rfl⟩ := List.map_eq_singleton_iff.mp hlast
      obtain rfl := List.map_injective_iff.mpr (fun _ _ => Except.ok.inj) hes'
      obtain ⟨ptr, hop, hptr, hlive, hhead⟩ := last_line_freed hids hlines hops heq
      exact ⟨entry, ptr, rfl, hop, hptr, hlive, hhead⟩
    obtain ⟨entry, ptr, rfl, hop, hptr, hlive, -⟩ := hlast order₀
    refine .inr (.inr ⟨entry, ptr, hrec, hop, hptr, fun ptr' => ⟨fun hlive' => ?_, ?_⟩⟩)
    · obtain ⟨entry', ptr'', heq, hop', -, -, hhead⟩ := hlast (.first ptr')
      rw [HashOrder.head?_first (hids.mem_iff.mpr hlive')] at hhead
      obtain rfl := Except.ok.inj heq
      rw [hop] at hop'
      injection hop' with hop'
      rw [hop']
      exact Option.some_inj.mp hhead
    · rintro rfl
      exact hlive
  · intro hlast order trace h
    rw [htrace order trace h]
    exact traceOf_of_lastLineFits order hrun hids hlines hlast

/-- A block that is moved, and one at its old place that is freed. -/
def reusedLog : List Char :=
  ("--1-- malloc(8) = 0x10\n--1-- realloc(0x10,16) = 0x20\n" ++
    "--1-- malloc(8) = 0x10\n--1-- free(0x10)\n").toList

/-- Lines that end are in the trace. -/
theorem openLog_traceOf_terminated : ∃ trace,
    openLog sampleFields default 500 reusedLog = .ok trace ∧
      TraceOf sampleFields reusedLog trace.lines := by
  have hpids : ∀ line ∈ textLines reusedLog,
      (sampleFields line).all (fun result => result.toOption.all (·.pid == 1)) = true := by
    decide +kernel
  have hpid : ∀ line ∈ textLines reusedLog, ∀ entry,
      sampleFields line = some (.ok entry) → entry.pid = 1 := by
    intro line hline entry hrec
    have hall := hpids line hline
    rw [hrec] at hall
    exact eq_of_beq hall
  have hopen : openLog sampleFields default 500 reusedLog = .ok
      { lines := [.malloc ⟨some 0, some 8, none⟩, .realloc ⟨some 0, some 0, some 16⟩,
          .malloc ⟨some 1, some 8, none⟩, freeLine 1, freeLine 0]
        maxSimultaneousAllocs := some 2 } := by
    decide +kernel
  exact ⟨_, hopen, (openLog_traceOf hpid (by decide +kernel) ⟨default, _, hopen⟩).mpr
    (.inl (by decide +kernel)) default _ hopen⟩

/-- A line that does not end is not. -/
theorem openLog_traceOf_unterminated : ¬ ∀ maxOps text trace, 2 * text.length < maxOps →
    (∀ line ∈ textLines text, ∀ entry, sampleFields line = some (.ok entry) → entry.pid = 1) →
    openLog sampleFields default maxOps text = .ok trace →
    TraceOf sampleFields text trace.lines := by
  intro h
  have hlines : textLines "--1-- malloc(8) = 0x10".toList = ["--1-- malloc(8) = 0x10".toList] := by
    decide
  have hpid : ∀ line ∈ textLines "--1-- malloc(8) = 0x10".toList, ∀ entry,
      sampleFields line = some (.ok entry) → entry.pid = 1 := by
    intro line hline entry hrec
    rw [hlines] at hline
    obtain rfl := List.mem_singleton.mp hline
    rw [sampleFields, if_pos rfl] at hrec
    obtain rfl := Except.ok.inj (Option.some_inj.mp hrec)
    rfl
  obtain ⟨es, ids, opLines, frees, ptrs, hes, heq, hops, -⟩ :=
    h 50 "--1-- malloc(8) = 0x10".toList { lines := [], maxSimultaneousAllocs := some 0 } (by decide)
      hpid rfl
  obtain rfl : opLines = [] := (List.append_eq_nil_iff.mp heq.symm).1
  obtain rfl : es = [] := List.eq_nil_of_length_eq_zero hops.1.symm
  rw [hlines] at hes
  cases hes

end MallocBench.Trace
