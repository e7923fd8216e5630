import MallocBench.Trace.LogFlow

/-!
# A log of several processes

The lines of other processes are dropped, but the ids of their pointers are taken and given back
all the same. `openLog_accepted`: `RewriteIdsToUnique` accepts the trace when no dropped line frees
a pointer of the process that is kept, or the other way round, and when no pointer of another
process is live at the end.
-/

namespace MallocBench.Trace

open Lib

variable {recognise : List Char → Option (Except ReadError LogEntry)} {maxOps : Nat}
  {order : HashOrder} {text : List Char} {trace : Tracefile} {st st' : ReadState}
  {done : List (List Char)} {entry : LogEntry} {post es : List LogEntry} {line : TraceLine}
  {lines : List TraceLine} {ids ids' : Nat → Nat} {pid : Int} {id ptr p : Nat}

/-- A pointer that a line takes was put by a line of the process `pid` exactly when the line that
takes it is of this process. -/
def SameProcess (pid : Int) (es : List LogEntry) : Prop :=
  ∀ pre entry post, es = pre ++ entry :: post → ∀ ptr p e, logFlow.takes entry = some ptr →
    logFlow.Producer pre ptr p → pre[p]? = some e → (e.pid = pid ↔ entry.pid = pid)

/-- The lines that are read: the process of the first one frees its own pointers, no other process
does, and no pointer of another process is live at the end. -/
def Separate (es : List LogEntry) : Prop :=
  ∀ first, es.head? = some first → SameProcess first.pid es ∧
    ∀ ptr p e, logFlow.Producer es ptr p → es[p]? = some e → e.pid = first.pid

/-- The ids of the trace: those are live whose pointer was put by the process `pid`. -/
structure TraceFlow (pid : Int) (es : List LogEntry) (ids : Nat → Nat) (lines : List TraceLine) :
    Prop where
  opSet : ∀ line ∈ lines, line ≠ .opNotSet
  valid : idFlow.Valid lines
  live : ∀ id, idFlow.Live lines id ↔ ∃ ptr p e, logFlow.Producer es ptr p ∧ es[p]? = some e ∧
    e.pid = pid ∧ ids p = id

theorem SameProcess.prefix (h : SameProcess pid (es ++ post)) : SameProcess pid es :=
  fun pre entry rest heq => h pre entry (rest ++ post) (by rw [heq]; simp)

theorem getElem?_append_of_some {α : Type} {l₁ l₂ : List α} {a : α} (h : l₁[p]? = some a) :
    (l₁ ++ l₂)[p]? = some a := by
  rw [List.getElem?_append_left (List.getElem?_eq_some_iff.mp h).1, h]

/-- A line of another process. -/
theorem TraceFlow.drop (h : TraceFlow pid es ids lines) (hsame : SameProcess pid (es ++ [entry]))
    (hpid : entry.pid ≠ pid) (hids : ∀ p, p < es.length → ids' p = ids p) :
    TraceFlow pid (es ++ [entry]) ids' lines := by
  refine ⟨h.opSet, h.valid, fun id => ?_⟩
  rw [h.live]
  constructor
  · rintro ⟨ptr, p, e, hprod, he, hepid, rfl⟩
    refine ⟨ptr, p, e, Flow.producer_append.mpr (.inr ⟨hprod, fun htakes => ?_⟩),
      getElem?_append_of_some he, hepid, hids p hprod.lt⟩
    exact hpid ((hsame es entry [] rfl ptr p e htakes hprod he).mp hepid)
  · rintro ⟨ptr, p, e, hprod, he, hepid, rfl⟩
    rcases Flow.producer_append.mp hprod with ⟨rfl, -⟩ | ⟨hprod, -⟩
    · rw [List.getElem?_append_right (Nat.le_refl _), Nat.sub_self] at he
      obtain rfl : entry = e := by simpa using he
      exact absurd hepid hpid
    · rw [List.getElem?_append_left hprod.lt] at he
      exact ⟨ptr, p, e, hprod, he, hepid, (hids p hprod.lt).symm⟩

/-- The ids that a line of the trace takes and puts. -/
theorem takes_of_read (hread : ReadState.OpRead st entry.op st' line) :
    idFlow.takes line = some id ↔ ∃ ptr, entry.op.input = some ptr ∧ st.idMap.lookup ptr = some id := by
  rw [hread.line, LogOp.takes_line fun hnone => by rw [hnone]; rfl, Option.bind_eq_some_iff]

theorem puts_of_read (hread : ReadState.OpRead st entry.op st' line) :
    idFlow.puts line = some id ↔ (∃ ptr, entry.op.result = some ptr) ∧
      (st.afterInput entry.op.input).pool.take.1 = id := by
  rw [hread.line, LogOp.puts_line, Option.map_eq_some_iff, exists_and_right]

/-- The id of the result is in use only if it is that of the input. -/
theorem IdsOf.new_id (h : IdsOf es ids st) (hread : ReadState.OpRead st entry.op st' line)
    (hlookup : st.idMap.lookup ptr = some (st.afterInput entry.op.input).pool.take.1) :
    entry.op.input = some ptr := by
  by_contra hne
  obtain ⟨hunused, -⟩ := (h.numbered.afterInput hread.input).partition.take
  exact hunused ⟨ptr, by rw [ReadState.lookup_afterInput hne, hlookup]⟩

/-- A line of the process. -/
theorem TraceFlow.keep (h : TraceFlow pid es ids lines) (hst : IdsOf es ids st)
    (hread : ReadState.OpRead st entry.op st' line) (hsame : SameProcess pid (es ++ [entry]))
    (hpid : entry.pid = pid) : TraceFlow pid (es ++ [entry])
      (Function.update ids es.length (st.afterInput entry.op.input).pool.take.1) (lines ++ [line]) := by
  have hids : ∀ p, p < es.length → Function.update ids es.length
      (st.afterInput entry.op.input).pool.take.1 p = ids p := fun p hp =>
    Function.update_of_ne (Nat.ne_of_lt hp) _ _
  refine ⟨fun l hl => ?_, Flow.valid_append.mpr ⟨h.valid, fun id hid => ?_, fun id hid hlive => ?_⟩,
    fun id => ?_⟩
  · rcases List.mem_append.mp hl with hmem | hmem
    · exact h.opSet l hmem
    · rw [List.mem_singleton.mp hmem, hread.line]
      exact LogOp.line_ne_opNotSet
  · obtain ⟨ptr, hptr, hlookup⟩ := (takes_of_read hread).mp hid
    obtain ⟨p, hprod, rfl⟩ := (hst.represents ptr id).mp hlookup
    obtain ⟨⟨e, he, hputs⟩, hno⟩ := hprod
    exact (h.live _).mpr ⟨ptr, p, e, ⟨⟨e, he, hputs⟩, hno⟩, he,
      (hsame es entry [] rfl ptr p e hptr ⟨⟨e, he, hputs⟩, hno⟩ he).mpr hpid, rfl⟩
  · obtain ⟨-, rfl⟩ := (puts_of_read hread).mp hid
    obtain ⟨ptr, p, e, hprod, -, -, hid'⟩ := (h.live _).mp hlive
    have hlookup := (hst.represents ptr _).mpr ⟨p, hprod, hid'⟩
    exact (takes_of_read hread).mpr ⟨ptr, hst.new_id hread hlookup, hlookup⟩
  · rw [Flow.live_append, h.live, puts_of_read hread]
    constructor
    · rintro (⟨⟨ptr, hptr⟩, rfl⟩ | ⟨⟨ptr, p, e, hprod, he, hepid, rfl⟩, htakes⟩)
      · refine ⟨ptr, es.length, entry, Flow.producer_append.mpr (.inl ⟨rfl, hptr⟩), ?_, hpid,
          Function.update_self ..⟩
        rw [List.getElem?_append_right (Nat.le_refl _), Nat.sub_self]
        rfl
      · refine ⟨ptr, p, e, Flow.producer_append.mpr (.inr ⟨hprod, fun hptr => htakes ?_⟩),
          getElem?_append_of_some he, hepid, hids p hprod.lt⟩
        exact (takes_of_read hread).mpr ⟨ptr, hptr, (hst.represents ptr _).mpr ⟨p, hprod, rfl⟩⟩
    · rintro ⟨ptr, p, e, hprod, he, hepid, rfl⟩
      rcases Flow.producer_append.mp hprod with ⟨rfl, hputs⟩ | ⟨hprod, htakes⟩
      · rw [Function.update_self]
        exact .inl ⟨⟨ptr, hputs⟩, rfl⟩
      · rw [List.getElem?_append_left hprod.lt] at he
        rw [hids p hprod.lt]
        refine .inr ⟨⟨ptr, p, e, hprod, he, hepid, rfl⟩, fun hid => htakes ?_⟩
        -- two live pointers have different ids
        obtain ⟨ptr', hptr', hlookup⟩ := (takes_of_read hread).mp hid
        rw [hst.numbered.inj ptr ptr' (ids p) ((hst.represents ptr _).mpr ⟨p, hprod, rfl⟩) hlookup]
        exact hptr'

/-- **The run**, when the process of the first line only frees its own pointers. -/
theorem Run.traceFlow (h : Run recognise maxOps done st)
    (hfirst : ∀ first, (logEntries recognise done).head? = some first → first.pid = pid)
    (hsame : SameProcess pid (logEntries recognise done)) :
    ∃ ids, IdsOf (logEntries recognise done) ids st ∧
      TraceFlow pid (logEntries recognise done) ids st.lines := by
  induction h with
  | init =>
    refine ⟨fun _ => 0, idsOf_nil, by simp [ReadState.init], Flow.valid_nil, fun id => ?_⟩
    refine iff_of_false Flow.not_live_nil ?_
    rintro ⟨ptr, p, e, hprod, -⟩
    exact Flow.not_producer_nil hprod
  | skip _ _ hrec ih =>
    rw [logEntries_skip hrec] at hfirst hsame ⊢
    exact ih hfirst hsame
  | @read done st st' line entry traceLine hrun _ hrec hop ih =>
    rw [logEntries_read hrec] at hfirst hsame ⊢
    have hread := ReadState.readOp_ok hop
    obtain ⟨hlines, hreq, -⟩ : st'.lines = st.lines ∧ st'.requiredPid = st.requiredPid ∧ _ :=
      hread.state ▸ ReadState.after_rest
    obtain ⟨ids, hids, hflow⟩ := ih (fun first hf => hfirst first (by simp [hf])) hsame.prefix
    refine ⟨_, keep_idsOf (hids.append hread), ?_⟩
    have hkept : st'.requiredPid.getD entry.pid = entry.pid ↔ entry.pid = pid := by
      rw [hreq, hrun.requiredPid]
      cases hes : logEntries recognise done with
      | nil =>
        rw [hes] at hfirst
        exact iff_of_true rfl (hfirst entry rfl)
      | cons first es =>
        rw [hes] at hfirst
        rw [← hfirst first rfl]
        exact eq_comm
    unfold ReadState.keep
    split_ifs with hc
    · rw [hlines]
      exact hflow.keep hids hread hsame (hkept.mp hc)
    · rw [hlines]
      exact hflow.drop hsame (fun hpid => hc (hkept.mpr hpid)) fun p hp =>
        Function.update_of_ne (Nat.ne_of_lt hp) _ _

/-- Frees of distinct live ids. -/
theorem valid_frees (hvalid : idFlow.Valid lines) {freed : List Nat} (hnodup : freed.Nodup)
    (hlive : ∀ id ∈ freed, idFlow.Live lines id) : idFlow.Valid (lines ++ freed.map freeLine) ∧
      ∀ id, idFlow.Live (lines ++ freed.map freeLine) id ↔ idFlow.Live lines id ∧ id ∉ freed := by
  induction freed using List.reverseRecOn with
  | nil => simpa using hvalid
  | append_singleton freed id ih =>
    obtain ⟨hnodup, -, hdisjoint⟩ := List.nodup_append.mp hnodup
    obtain ⟨ihvalid, ihlive⟩ := ih hnodup fun id hid => hlive id (List.mem_append_left _ hid)
    have hnot : id ∉ freed := fun hc => hdisjoint id hc id (by simp) rfl
    rw [List.map_append, ← List.append_assoc]
    refine ⟨Flow.valid_append.mpr ⟨ihvalid, fun id' hid' => ?_, fun id' hid' => nomatch hid'⟩,
      fun id' => ?_⟩
    · obtain rfl : id = id' := Option.some_inj.mp hid'
      exact (ihlive id).mpr ⟨hlive id (by simp), hnot⟩
    · refine Flow.live_append.trans ?_
      have hputs : idFlow.puts (freeLine id) ≠ some id' := fun hc => nomatch hc
      have htakes : idFlow.takes (freeLine id) = some id' ↔ id = id' := Option.some_inj
      rw [ihlive, ne_eq, htakes, List.mem_append, List.mem_singleton, eq_comm (b := id')]
      tauto

/-- **`RewriteIdsToUnique` accepts the trace** when the process that is kept is separate from the
others in the lines that are read. -/
theorem openLog_accepted (h : openLog recognise order maxOps text = .ok trace)
    (hseparate : Separate (logEntries recognise (linesRead recognise maxOps [] (getlines text).1))) :
    Accepted trace.lines := by
  obtain ⟨done, post, st, -, -, hrun, -, hread, rfl⟩ := openLog_run h
  rw [hread] at hseparate
  obtain ⟨pid, hfirst, hsame, hlive⟩ : ∃ pid, (∀ first, (logEntries recognise done).head? = some first →
      first.pid = pid) ∧ SameProcess pid (logEntries recognise done) ∧
      ∀ ptr p e, logFlow.Producer (logEntries recognise done) ptr p →
        (logEntries recognise done)[p]? = some e → e.pid = pid := by
    cases hes : logEntries recognise done with
    | nil =>
      exact ⟨0, fun first hc => (nomatch hc), fun pre entry post hc => by simp at hc,
        fun ptr p e hc => absurd hc Flow.not_producer_nil⟩
    | cons first es =>
      rw [hes] at hseparate
      obtain ⟨hsame, hlive⟩ := hseparate first rfl
      exact ⟨first.pid, fun first' heq => by rw [Option.some_inj.mp heq], hsame, hlive⟩
  obtain ⟨ids, hids, hflow⟩ := hrun.traceFlow hfirst hsame
  obtain ⟨-, -, hentries⟩ := hids.frees order
  have hmap : (order.entries st.idMap).map (fun entry => freeLine entry.2) =
      ((order.entries st.idMap).map Prod.snd).map freeLine := by
    rw [List.map_map]
    rfl
  have hmem : ∀ id, id ∈ (order.entries st.idMap).map Prod.snd ↔ idFlow.Live st.lines id := by
    intro id
    rw [hflow.live, List.mem_map]
    constructor
    · rintro ⟨⟨ptr, i⟩, hentry, rfl⟩
      obtain ⟨p, hprod, rfl⟩ := (hids.represents ptr i).mp ((hentries ptr i).mp hentry)
      obtain ⟨e, he, -⟩ := hprod.1
      exact ⟨ptr, p, e, hprod, he, hlive ptr p e hprod he, rfl⟩
    · rintro ⟨ptr, p, e, hprod, -, -, rfl⟩
      exact ⟨(ptr, ids p), (hentries ptr _).mpr ((hids.represents ptr _).mpr ⟨p, hprod, rfl⟩), rfl⟩
  have hnodup : ((order.entries st.idMap).map Prod.snd).Nodup := by
    rw [((order.perm st.idMap).map Prod.snd).nodup_iff, List.map_map]
    exact hids.numbered.nodup
  obtain ⟨hvalid, hfreed⟩ := valid_frees hflow.valid hnodup fun id hid => (hmem id).mp hid
  rw [hmap]
  refine ⟨fun line hline => ?_, hvalid, fun id hc => ?_⟩
  · rcases List.mem_append.mp hline with hline | hline
    · exact hflow.opSet line hline
    · obtain ⟨id, -, rfl⟩ := List.mem_map.mp hline
      exact TraceLine.noConfusion
  · obtain ⟨hid, hnot⟩ := (hfreed id).mp hc
    exact hnot ((hmem id).mpr hid)

/-- Another process allocates a block of its own and frees it. -/
def mixedLog : List Char :=
  ("--1-- malloc(8) = 0x10\n--2-- malloc(8) = 0x30\n--1-- realloc(0x10,16) = 0x20\n" ++
    "--2-- free(0x30)\n--1-- malloc(8) = 0x10\n").toList

/-- Its lines are dropped, and the trace is accepted. -/
theorem openLog_accepted_mixed : ∃ trace, openLog sampleFields default 50 mixedLog = .ok trace ∧
    trace.lines = [.malloc ⟨some 0, some 8, none⟩, .realloc ⟨some 0, some 0, some 16⟩,
      .malloc ⟨some 1, some 8, none⟩, freeLine 1, freeLine 0] ∧ Accepted trace.lines := by
  have hread : logEntries sampleFields (linesRead sampleFields 50 [] (getlines mixedLog).1) =
      [⟨1, .malloc 8 16⟩, ⟨2, .malloc 8 48⟩, ⟨1, .realloc 16 16 32⟩, ⟨2, .free 48⟩,
        ⟨1, .malloc 8 16⟩] := by
    decide +kernel
  have h : openLog sampleFields default 50 mixedLog = .ok
      { lines := [.malloc ⟨some 0, some 8, none⟩, .realloc ⟨some 0, some 0, some 16⟩,
          .malloc ⟨some 1, some 8, none⟩, freeLine 1, freeLine 0]
        maxSimultaneousAllocs := some 2 } := by
    decide +kernel
  refine ⟨_, h, rfl, openLog_accepted h ?_⟩
  rw [hread]
  rintro _ ⟨⟩
  refine ⟨fun pre entry post heq ptr p e htakes hprod he => ?_, fun ptr p e hprod he => ?_⟩
  · -- whoever frees a pointer has allocated it
    have hown : ∀ e ∈ pre ++ entry :: post, ∀ e' ∈ pre ++ entry :: post,
        logFlow.takes e' ≠ none → logFlow.puts e = logFlow.takes e' → (e.pid = 1 ↔ e'.pid = 1) := by
      rw [← heq]
      decide
    obtain ⟨⟨e', he', hputs⟩, -⟩ := hprod
    obtain rfl := Option.some_inj.mp (he'.symm.trans he)
    exact hown e' (List.mem_append_left _ (List.mem_of_getElem? he)) entry (by simp)
      (by rw [htakes]; simp) (hputs.trans htakes.symm)
  · obtain ⟨⟨e', he', hputs⟩, hno⟩ := hprod
    obtain rfl := Option.some_inj.mp (he'.symm.trans he)
    have hp := (List.getElem?_eq_some_iff.mp he).1
    -- the block of the other process is the one that its `free` takes
    obtain rfl | rfl | rfl | rfl | rfl : p = 0 ∨ p = 1 ∨ p = 2 ∨ p = 3 ∨ p = 4 := by
      simp only [List.length_cons, List.length_nil] at hp
      omega
    all_goals obtain rfl := Option.some_inj.mp he
    · rfl
    · exact absurd hputs (hno 3 _ (by decide) rfl)
    · rfl
    · cases hputs
    · rfl

/-- Another process frees a pointer: its id is used again while it is live. -/
theorem openLog_accepted_other : ¬ ∀ text trace,
    openLog sampleFields default 50 text = .ok trace → Accepted trace.lines := by
  intro h
  have hopen : openLog sampleFields default 50
      "--1-- malloc(8) = 0x10\n--2-- free(0x10)\n--1-- malloc(8) = 0x10\n".toList = .ok
      { lines := [.malloc ⟨some 0, some 8, none⟩, .malloc ⟨some 0, some 8, none⟩, freeLine 0]
        maxSimultaneousAllocs := some 1 } := by
    rfl
  obtain ⟨-, hvalid, -⟩ := h _ _ hopen
  have hfits := hvalid [.malloc ⟨some 0, some 8, none⟩] (.malloc ⟨some 0, some 8, none⟩) [freeLine 0] rfl
  have hlive : idFlow.Live [.malloc ⟨some 0, some 8, none⟩] 0 :=
    ⟨0, ⟨_, rfl, rfl⟩, fun c e hc he => by
      have hlt := (List.getElem?_eq_some_iff.mp he).1
      simp only [List.length_singleton] at hlt
      omega⟩
  exact nomatch hfits.2 0 rfl hlive

end MallocBench.Trace
