import MallocBench.Replay.Batch
import MallocBench.Replay.Executor

/-!
# The ops of a replay

In a trace whose ids have been made unique, every id is put by one line and taken by at most one
line after it (`UniqueIds`). The unique ids of the ops of a replay are the ids of their lines in
their iterations, so the same is true of the ops (`Executor.Traced`), as long as their number fits
into 64 bits.
-/

namespace MallocBench.Replay

open Lib Trace

/-! ## The ops between two indices -/

def Executor.opsFrom (ex : Executor) (i endIdx : Nat) : List Op :=
  (List.range' i (endIdx - i)).map ex.op

section

variable {ex : Executor} {op : Op}

theorem Executor.mem_opsFrom {i endIdx : Nat} :
    op ∈ ex.opsFrom i endIdx ↔ ∃ k, i ≤ k ∧ k < endIdx ∧ ex.op k = op := by
  unfold Executor.opsFrom
  rw [List.mem_map]
  constructor
  · rintro ⟨k, hk, rfl⟩
    rw [List.mem_range'_1] at hk
    exact ⟨k, hk.1, by omega, rfl⟩
  · rintro ⟨k, hle, hlt, rfl⟩
    exact ⟨k, List.mem_range'_1.mpr ⟨hle, by omega⟩, rfl⟩

@[simp] theorem Executor.length_opsFrom {i endIdx : Nat} :
    (ex.opsFrom i endIdx).length = endIdx - i := by
  simp [Executor.opsFrom]

/-- The ops up to an index in between, and the ops from there. -/
theorem Executor.opsFrom_append {i k endIdx : Nat} (hik : i ≤ k) (hk : k ≤ endIdx) :
    ex.opsFrom i k ++ ex.opsFrom k endIdx = ex.opsFrom i endIdx := by
  unfold Executor.opsFrom
  rw [← List.map_append]
  have hstart : k = i + (k - i) := by omega
  conv_lhs => rw [show List.range' k (endIdx - k) = List.range' (i + (k - i)) (endIdx - k) by
    rw [← hstart]]
  rw [List.range'_append_1]
  congr 2
  omega

theorem Executor.opsFrom_cons {i endIdx : Nat} (h : i < endIdx) :
    ex.opsFrom i endIdx = ex.op i :: ex.opsFrom (i + 1) endIdx := by
  unfold Executor.opsFrom
  rw [show endIdx - i = (endIdx - (i + 1)) + 1 by omega, List.range'_succ, List.map_cons]

theorem Executor.opsFrom_snoc {i endIdx : Nat} (h : i ≤ endIdx) :
    ex.opsFrom i (endIdx + 1) = ex.opsFrom i endIdx ++ [ex.op endIdx] := by
  unfold Executor.opsFrom
  rw [show endIdx + 1 - i = (endIdx - i) + 1 by omega, List.range'_1_concat, List.map_append,
    List.map_singleton, show i + (endIdx - i) = endIdx by omega]

theorem Executor.opsFrom_nil {i endIdx : Nat} (h : endIdx ≤ i) : ex.opsFrom i endIdx = [] := by
  unfold Executor.opsFrom
  rw [Nat.sub_eq_zero_of_le h]
  rfl

end

/-! ## The ids of the lines -/

/-- Every id is put by one line, and taken by at most one line after it. -/
structure UniqueIds (lines : List TraceLine) : Prop where
  puts_lt : ∀ {p : Nat} {line id}, lines[p]? = some line → idFlow.puts line = some id → id < lines.length
  puts_inj : ∀ {p q : Nat} {line line' id}, lines[p]? = some line → lines[q]? = some line' →
    idFlow.puts line = some id → idFlow.puts line' = some id → p = q
  takes_inj : ∀ {p q : Nat} {line line' id}, lines[p]? = some line → lines[q]? = some line' →
    idFlow.takes line = some id → idFlow.takes line' = some id → p = q
  produced : ∀ {p : Nat} {line id}, lines[p]? = some line → idFlow.takes line = some id →
    ∃ q line', q < p ∧ lines[q]? = some line' ∧ idFlow.puts line' = some id

section UniqueIds

variable {lines out : List TraceLine} {line line' : TraceLine} {p q i j id : Nat}

theorem puts_renameIds : idFlow.puts (renameIds i j line) = (idFlow.puts line).map fun _ => j := by
  cases line <;> rfl

theorem takes_renameIds : idFlow.takes (renameIds i j line) = (idFlow.takes line).map fun _ => i := by
  cases line <;> rfl

theorem newId_mono (h : p ≤ q) : newId lines p ≤ newId lines q :=
  (List.take_sublist_take_left h).countP_le

theorem newId_lt (hp : lines[p]? = some line) (hputs : (idFlow.puts line).isSome) (h : p < q) :
    newId lines p < newId lines q := by
  have hsucc : newId lines (p + 1) = newId lines p + 1 := by
    unfold newId
    rw [List.take_add_one, hp, List.countP_append]
    simp [hputs]
  have hmono : newId lines (p + 1) ≤ newId lines q := newId_mono h
  omega

theorem newId_lt_length (hp : lines[p]? = some line) : newId lines p < lines.length := by
  have hlt := (List.getElem?_eq_some_iff.mp hp).1
  have hle : newId lines p ≤ (lines.take p).length := List.countP_le_length
  rw [List.length_take] at hle
  omega

/-- The number of a result says which line it is of. -/
theorem newId_inj (hp : lines[p]? = some line) (hputs : (idFlow.puts line).isSome)
    (hq : lines[q]? = some line') (hputs' : (idFlow.puts line').isSome)
    (h : newId lines p = newId lines q) : p = q := by
  rcases Nat.lt_trichotomy p q with hlt | heq | hgt
  · exact absurd h (newId_lt hp hputs hlt).ne
  · exact heq
  · exact absurd h (newId_lt hq hputs' hgt).ne'

/-- A line of the new trace, and the line that it was. -/
theorem renamed_get (h : Renamed lines out) (hp : out[p]? = some line') :
    ∃ line q, lines[p]? = some line ∧
      (∀ id, idFlow.takes line = some id → idFlow.Producer (lines.take p) id q) ∧
      line' = renameIds (newId lines q) (newId lines p) line := by
  have hlt : p < lines.length := h.1 ▸ (List.getElem?_eq_some_iff.mp hp).1
  have hsplit : lines = lines.take p ++ lines[p] :: lines.drop (p + 1) := by
    rw [List.getElem_cons_drop, List.take_append_drop]
  have hlen : (lines.take p).length = p := List.length_take_of_le hlt.le
  obtain ⟨line'', hget, q, hq, hline⟩ := h.2 _ _ _ hsplit
  rw [hlen] at hget hline
  obtain rfl : line'' = line' := Option.some_inj.mp (hget.symm.trans hp)
  exact ⟨lines[p], q, List.getElem?_eq_getElem hlt, hq, hline⟩

/-- What a line of the new trace puts. -/
theorem renamed_puts (h : Renamed lines out) (hp : out[p]? = some line')
    (hputs : idFlow.puts line' = some id) :
    ∃ line, lines[p]? = some line ∧ (idFlow.puts line).isSome ∧ id = newId lines p := by
  obtain ⟨line, q, hget, -, rfl⟩ := renamed_get h hp
  rw [puts_renameIds, Option.map_eq_some_iff] at hputs
  obtain ⟨k, hk, rfl⟩ := hputs
  exact ⟨line, hget, by rw [hk]; rfl, rfl⟩

/-- What a line of the new trace takes is of the producer of its old id. -/
theorem renamed_takes (h : Renamed lines out) (hp : out[p]? = some line')
    (htakes : idFlow.takes line' = some id) :
    ∃ line k q, lines[p]? = some line ∧ idFlow.takes line = some k ∧
      idFlow.Producer (lines.take p) k q ∧ id = newId lines q := by
  obtain ⟨line, q, hget, hq, rfl⟩ := renamed_get h hp
  rw [takes_renameIds, Option.map_eq_some_iff] at htakes
  obtain ⟨k, hk, rfl⟩ := htakes
  exact ⟨line, k, q, hget, hk, hq k hk, rfl⟩

/-- A producer is a line. -/
theorem producer_get {k : Nat} (h : idFlow.Producer (lines.take p) k q) :
    q < p ∧ ∃ line, lines[q]? = some line ∧ idFlow.puts line = some k := by
  obtain ⟨⟨line, hget, hputs⟩, -⟩ := h
  have hlt := (List.getElem?_eq_some_iff.mp hget).1
  rw [List.length_take] at hlt
  rw [List.getElem?_take_of_lt (by omega)] at hget
  exact ⟨by omega, line, hget, hputs⟩

/-- **The new ids are unique.** -/
theorem uniqueIds_of_rewrite (h : rewriteIdsToUnique lines = .ok out) : UniqueIds out := by
  obtain ⟨-, hren⟩ := renamed_of_ok h
  refine ⟨fun hp hputs => ?_, fun hp hq hputs hputs' => ?_, fun hp hq htakes htakes' => ?_,
    fun hp htakes => ?_⟩
  · obtain ⟨line, hget, -, rfl⟩ := renamed_puts hren hp hputs
    rw [hren.1]
    exact newId_lt_length hget
  · obtain ⟨line, hget, hsome, rfl⟩ := renamed_puts hren hp hputs
    obtain ⟨line', hget', hsome', heq⟩ := renamed_puts hren hq hputs'
    exact newId_inj hget hsome hget' hsome' heq
  · rename_i p q _ _ _
    obtain ⟨line, k, a, hget, hk, ha, rfl⟩ := renamed_takes hren hp htakes
    obtain ⟨line', k', a', hget', hk', ha', heq⟩ := renamed_takes hren hq htakes'
    obtain ⟨hap, producer, hgeta, hputsa⟩ := producer_get ha
    obtain ⟨haq, producer', hgeta', hputsa'⟩ := producer_get ha'
    obtain rfl : a = a' := newId_inj hgeta (by rw [hputsa]; rfl) hgeta' (by rw [hputsa']; rfl) heq
    obtain rfl : producer = producer' := Option.some_inj.mp (hgeta.symm.trans hgeta')
    obtain rfl : k = k' := Option.some_inj.mp (hputsa.symm.trans hputsa')
    -- the earlier of the two lines would have taken it
    rcases Nat.lt_trichotomy p q with hlt | heq | hgt
    · exact absurd hk (ha'.2 p line hap (by rwa [List.getElem?_take_of_lt hlt]))
    · exact heq
    · exact absurd hk' (ha.2 q line' haq (by rwa [List.getElem?_take_of_lt hgt]))
  · obtain ⟨line, k, q, hget, hk, hq, rfl⟩ := renamed_takes hren hp htakes
    obtain ⟨hlt, producer, hgetq, hputsq⟩ := producer_get hq
    have hlt' : q < out.length := by
      have := (List.getElem?_eq_some_iff.mp hp).1
      omega
    obtain ⟨producer', r, hget', -, hline⟩ := renamed_get hren (List.getElem?_eq_getElem hlt')
    obtain rfl : producer = producer' := Option.some_inj.mp (hgetq.symm.trans hget')
    refine ⟨q, _, hlt, List.getElem?_eq_getElem hlt', ?_⟩
    rw [hline, puts_renameIds, hputsq]
    rfl

/-- What a line of the new trace puts is taken by a line after it. -/
theorem freed_of_rewrite (h : rewriteIdsToUnique lines = .ok out) (hp : out[p]? = some line')
    (hputs : idFlow.puts line' = some id) :
    ∃ q line'', p < q ∧ out[q]? = some line'' ∧ idFlow.takes line'' = some id := by
  obtain ⟨haccepted, hren⟩ := renamed_of_ok h
  obtain ⟨line, hget, hsome, rfl⟩ := renamed_puts hren hp hputs
  obtain ⟨k, hk⟩ := Option.isSome_iff_exists.mp hsome
  have htaken : ∃ c, p < c ∧ ∃ e, lines[c]? = some e ∧ idFlow.takes e = some k := by
    by_contra hno
    push Not at hno
    exact haccepted.freed k ⟨p, ⟨line, hget, hk⟩, fun c e hc => hno c hc e⟩
  -- the first line that takes it
  obtain ⟨hpc, e, hc, htakes⟩ := Nat.find_spec htaken
  have hfirst := fun c hlt => Nat.find_min htaken (m := c) hlt
  generalize Nat.find htaken = c at hpc hc hfirst
  have hlt : c < out.length := hren.1.symm ▸ (List.getElem?_eq_some_iff.mp hc).1
  obtain ⟨e', q, hc', hproducer, hline⟩ := renamed_get hren (List.getElem?_eq_getElem hlt)
  obtain rfl : e = e' := Option.some_inj.mp (hc.symm.trans hc')
  have hp' : idFlow.Producer (lines.take c) k p := by
    refine ⟨⟨line, by rwa [List.getElem?_take_of_lt hpc], hk⟩, fun d e' hd he' htakes' => ?_⟩
    have hdc : d < c := by
      have := (List.getElem?_eq_some_iff.mp he').1
      rw [List.length_take] at this
      omega
    exact hfirst d hdc ⟨hd, e', by rwa [List.getElem?_take_of_lt hdc] at he', htakes'⟩
  have hvalid : idFlow.Valid (lines.take c) := by
    have hsplit : idFlow.Valid (lines.take c ++ lines.drop c) := by
      rw [List.take_append_drop]
      exact haccepted.valid
    exact hsplit.prefix
  obtain rfl : q = p := hvalid.producer_unique (hproducer k htakes) hp'
  refine ⟨c, _, hpc, List.getElem?_eq_getElem hlt, ?_⟩
  rw [hline, takes_renameIds, htakes]
  rfl

end UniqueIds

/-! ## The ids of the ops -/

/-- Every unique id is put by one op, and taken by at most one op after it. -/
structure Executor.Traced (ex : Executor) : Prop where
  op_inj : ∀ {i j}, i < ex.numOps → j < ex.numOps → ex.op i = ex.op j → i = j
  puts_inj : ∀ {i j id}, i < ex.numOps → j < ex.numOps →
    (opFlow ex.tracefile).puts (ex.op i) = some id →
    (opFlow ex.tracefile).puts (ex.op j) = some id → i = j
  takes_inj : ∀ {i j id}, i < ex.numOps → j < ex.numOps →
    (opFlow ex.tracefile).takes (ex.op i) = some id →
    (opFlow ex.tracefile).takes (ex.op j) = some id → i = j
  produced : ∀ {i id}, i < ex.numOps → (opFlow ex.tracefile).takes (ex.op i) = some id →
    ∃ j, j < i ∧ (opFlow ex.tracefile).puts (ex.op j) = some id

section Traced

variable {ex : Executor} {i j id : Nat}

/-- The number of ops fits into 64 bits. -/
theorem Executor.numOps_eq (h : ex.numRepetitions * ex.tracefile.length < 2 ^ 64) :
    ex.numOps = ex.numRepetitions * ex.tracefile.length := Nat.mod_eq_of_lt h

/-- The line of an op. -/
theorem Executor.op_line (hpos : 0 < ex.tracefile.length) (i : Nat) :
    ex.tracefile[i % ex.tracefile.length]? = some ((ex.op i).line ex.tracefile) := by
  have hlt := Nat.mod_lt i hpos
  unfold Executor.op Op.line
  rw [List.getD_eq_getElem _ _ hlt, List.getElem?_eq_getElem hlt]

/-- A unique id is the id of the line, in the iteration of the op. -/
theorem uniqueId_op (h : ex.numRepetitions * ex.tracefile.length < 2 ^ 64) (hi : i < ex.numOps)
    (hid : id < ex.tracefile.length) :
    uniqueId id (ex.op i).iteration ex.tracefile = id + i / ex.tracefile.length * ex.tracefile.length := by
  rw [Executor.numOps_eq h] at hi
  have hdiv : i / ex.tracefile.length < ex.numRepetitions :=
    Nat.div_lt_of_lt_mul (by rwa [Nat.mul_comm])
  have hle : (i / ex.tracefile.length + 1) * ex.tracefile.length ≤
      ex.numRepetitions * ex.tracefile.length := Nat.mul_le_mul_right _ hdiv
  rw [Nat.add_mul, Nat.one_mul] at hle
  exact Nat.mod_eq_of_lt (show id + i / ex.tracefile.length * ex.tracefile.length < 2 ^ 64 by omega)

/-- Of a number in a base, the last digit and the rest. -/
theorem digits_inj {a b k l n : Nat} (ha : a < n) (hb : b < n) (h : a + k * n = b + l * n) :
    a = b ∧ k = l := by
  have hpos : 0 < n := by omega
  have hmod := congrArg (· % n) h
  have hdiv := congrArg (· / n) h
  simp only [Nat.add_mul_mod_self_right, Nat.mod_eq_of_lt ha, Nat.mod_eq_of_lt hb] at hmod
  simp only [Nat.add_mul_div_right _ _ hpos, Nat.div_eq_of_lt ha, Nat.div_eq_of_lt hb,
    Nat.zero_add] at hdiv
  exact ⟨hmod, hdiv⟩

theorem Executor.length_pos (hi : i < ex.numOps) : 0 < ex.tracefile.length := by
  by_contra hzero
  have hnil : ex.numOps = 0 := by
    unfold Executor.numOps
    rw [Nat.eq_zero_of_not_pos hzero]
    rfl
  omega

/-- The ids of a line are below the number of lines, also those that it takes. -/
theorem UniqueIds.takes_lt {lines : List TraceLine} (hids : UniqueIds lines) {p : Nat}
    {line : TraceLine} (hp : lines[p]? = some line) (htakes : idFlow.takes line = some id) :
    id < lines.length := by
  obtain ⟨q, line', -, hq, hputs⟩ := hids.produced hp htakes
  exact hids.puts_lt hq hputs

/-- What an op puts is what its line puts, in its iteration. -/
theorem puts_op (hids : UniqueIds ex.tracefile)
    (h : ex.numRepetitions * ex.tracefile.length < 2 ^ 64) (hi : i < ex.numOps) :
    (opFlow ex.tracefile).puts (ex.op i) = some id ↔ ∃ line k,
      ex.tracefile[i % ex.tracefile.length]? = some line ∧ idFlow.puts line = some k ∧
      k < ex.tracefile.length ∧ id = k + i / ex.tracefile.length * ex.tracefile.length := by
  have hline := Executor.op_line (Executor.length_pos hi) i
  constructor
  · intro hputs
    obtain ⟨k, hk, hid⟩ := Option.map_eq_some_iff.mp hputs
    have hlt := hids.puts_lt hline hk
    exact ⟨_, k, hline, hk, hlt, hid.symm.trans (uniqueId_op h hi hlt)⟩
  · rintro ⟨line, k, hget, hk, hlt, rfl⟩
    obtain rfl := Option.some_inj.mp (hline.symm.trans hget)
    exact Option.map_eq_some_iff.mpr ⟨k, hk, uniqueId_op h hi hlt⟩

theorem takes_op (hids : UniqueIds ex.tracefile)
    (h : ex.numRepetitions * ex.tracefile.length < 2 ^ 64) (hi : i < ex.numOps) :
    (opFlow ex.tracefile).takes (ex.op i) = some id ↔ ∃ line k,
      ex.tracefile[i % ex.tracefile.length]? = some line ∧ idFlow.takes line = some k ∧
      k < ex.tracefile.length ∧ id = k + i / ex.tracefile.length * ex.tracefile.length := by
  have hline := Executor.op_line (Executor.length_pos hi) i
  constructor
  · intro htakes
    obtain ⟨k, hk, hid⟩ := Option.map_eq_some_iff.mp htakes
    have hlt := hids.takes_lt hline hk
    exact ⟨_, k, hline, hk, hlt, hid.symm.trans (uniqueId_op h hi hlt)⟩
  · rintro ⟨line, k, hget, hk, hlt, rfl⟩
    obtain rfl := Option.some_inj.mp (hline.symm.trans hget)
    exact Option.map_eq_some_iff.mpr ⟨k, hk, uniqueId_op h hi hlt⟩

/-- The op of a line in the iteration of another op. -/
theorem Executor.sameIteration {p : Nat} (hp : p < ex.tracefile.length) (i : Nat) :
    (p + i / ex.tracefile.length * ex.tracefile.length) % ex.tracefile.length = p ∧
      (p + i / ex.tracefile.length * ex.tracefile.length) / ex.tracefile.length =
        i / ex.tracefile.length := by
  rw [Nat.add_mul_mod_self_right, Nat.mod_eq_of_lt hp,
    Nat.add_mul_div_right _ _ (Nat.zero_lt_of_lt hp), Nat.div_eq_of_lt hp, Nat.zero_add]
  exact ⟨rfl, rfl⟩

/-- What an op puts is taken by an op, if what a line puts is taken by a line. -/
theorem taken_op (hids : UniqueIds ex.tracefile)
    (hfreed : ∀ (p : Nat) line id, ex.tracefile[p]? = some line → idFlow.puts line = some id →
      ∃ (q : Nat) (line' : TraceLine), ex.tracefile[q]? = some line' ∧ idFlow.takes line' = some id)
    (h : ex.numRepetitions * ex.tracefile.length < 2 ^ 64) (hi : i < ex.numOps)
    (hputs : (opFlow ex.tracefile).puts (ex.op i) = some id) :
    ∃ j, j < ex.numOps ∧ (opFlow ex.tracefile).takes (ex.op j) = some id := by
  obtain ⟨line, k, hline, hk, hlt, rfl⟩ := (puts_op hids h hi).mp hputs
  obtain ⟨q, line', hq, htakes⟩ := hfreed _ line k hline hk
  have hqlt : q < ex.tracefile.length := (List.getElem?_eq_some_iff.mp hq).1
  obtain ⟨hmod, hdiv⟩ := Executor.sameIteration hqlt i
  have hj : q + i / ex.tracefile.length * ex.tracefile.length < ex.numOps := by
    rw [Executor.numOps_eq h] at hi ⊢
    have hiteration : i / ex.tracefile.length < ex.numRepetitions :=
      Nat.div_lt_of_lt_mul (Nat.mul_comm _ _ ▸ hi)
    have hle := Nat.mul_le_mul_right ex.tracefile.length (Nat.succ_le_of_lt hiteration)
    rw [Nat.succ_mul] at hle
    omega
  refine ⟨_, hj, (takes_op hids h hj).mpr ⟨line', k, ?_, htakes, hlt, ?_⟩⟩
  · rw [hmod]
    exact hq
  · rw [hdiv]

/-- **The ops of a replay of a trace with unique ids.** -/
theorem traced_of_uniqueIds (hids : UniqueIds ex.tracefile)
    (h : ex.numRepetitions * ex.tracefile.length < 2 ^ 64) : ex.Traced := by
  have hindex : ∀ {i j}, i % ex.tracefile.length = j % ex.tracefile.length →
      i / ex.tracefile.length = j / ex.tracefile.length → i = j := by
    intro i j hmod hdiv
    rw [← Nat.div_add_mod i ex.tracefile.length, ← Nat.div_add_mod j ex.tracefile.length, hmod, hdiv]
  refine ⟨fun _ _ heq => ?_, fun hi hj hputs hputs' => ?_, fun hi hj htakes htakes' => ?_,
    fun hi htakes => ?_⟩
  · have hop := Op.mk.inj heq
    exact hindex hop.1 hop.2
  · obtain ⟨line, k, hline, hk, hlt, rfl⟩ := (puts_op hids h hi).mp hputs
    obtain ⟨line', l, hline', hl, hlt', heq⟩ := (puts_op hids h hj).mp hputs'
    obtain ⟨rfl, hdiv⟩ := digits_inj hlt hlt' heq
    exact hindex (hids.puts_inj hline hline' hk hl) hdiv
  · obtain ⟨line, k, hline, hk, hlt, rfl⟩ := (takes_op hids h hi).mp htakes
    obtain ⟨line', l, hline', hl, hlt', heq⟩ := (takes_op hids h hj).mp htakes'
    obtain ⟨rfl, hdiv⟩ := digits_inj hlt hlt' heq
    exact hindex (hids.takes_inj hline hline' hk hl) hdiv
  · rename_i i id
    obtain ⟨line, k, hline, hk, hlt, rfl⟩ := (takes_op hids h hi).mp htakes
    obtain ⟨q, line', hqp, hq, hputs⟩ := hids.produced hline hk
    -- the producer in the same iteration
    have hdecomp := Nat.div_add_mod i ex.tracefile.length
    have hqlt : q < ex.tracefile.length := (List.getElem?_eq_some_iff.mp hq).1
    obtain ⟨hmod, hdiv⟩ := Executor.sameIteration hqlt i
    have hlt' : q + i / ex.tracefile.length * ex.tracefile.length < i := by
      rw [Nat.mul_comm]
      omega
    refine ⟨_, hlt', (puts_op hids h (hlt'.trans hi)).mpr ⟨line', k, ?_, hputs, hlt, ?_⟩⟩
    · rw [hmod]
      exact hq
    · rw [hdiv]

/-! ## The ids before they were made unique -/

section Rewritten

variable {lines : List TraceLine} {line : TraceLine} {k : Nat}
  (hrewritten : rewriteIdsToUnique lines = .ok ex.tracefile)
  (h : ex.numRepetitions * ex.tracefile.length < 2 ^ 64) (hi : i < ex.numOps)
  (hline : lines[i % ex.tracefile.length]? = some line)

include hrewritten h hi hline

/-- What an op puts is the number of its line, in its iteration. -/
theorem puts_rewritten (hputs : idFlow.puts line = some k) : (opFlow ex.tracefile).puts (ex.op i) =
    some (newId lines (i % ex.tracefile.length) + i / ex.tracefile.length * ex.tracefile.length) := by
  obtain ⟨-, hren⟩ := renamed_of_ok hrewritten
  have hget := Executor.op_line (Executor.length_pos hi) i
  obtain ⟨line', q, hline', -, hrenamed⟩ := renamed_get hren hget
  obtain rfl : line = line' := Option.some_inj.mp (hline.symm.trans hline')
  have hlt := newId_lt_length hline
  rw [← hren.1] at hlt
  refine (puts_op (uniqueIds_of_rewrite hrewritten) h hi).mpr ⟨_, _, hget, ?_, hlt, rfl⟩
  rw [hrenamed, puts_renameIds, hputs]
  rfl

/-- What an op takes is the number of the line that produces its id. -/
theorem takes_rewritten (htakes : idFlow.takes line = some k) :
    ∃ q, idFlow.Producer (lines.take (i % ex.tracefile.length)) k q ∧
      (opFlow ex.tracefile).takes (ex.op i) =
        some (newId lines q + i / ex.tracefile.length * ex.tracefile.length) := by
  obtain ⟨-, hren⟩ := renamed_of_ok hrewritten
  have hget := Executor.op_line (Executor.length_pos hi) i
  obtain ⟨line', q, hline', hproducer, hrenamed⟩ := renamed_get hren hget
  obtain rfl : line = line' := Option.some_inj.mp (hline.symm.trans hline')
  obtain ⟨-, line'', hgetq, -⟩ := producer_get (hproducer k htakes)
  have hlt := newId_lt_length hgetq
  rw [← hren.1] at hlt
  refine ⟨q, hproducer k htakes,
    (takes_op (uniqueIds_of_rewrite hrewritten) h hi).mpr ⟨_, _, hget, ?_, hlt, rfl⟩⟩
  rw [hrenamed, takes_renameIds, htakes]
  rfl

end Rewritten

end Traced

end MallocBench.Replay
