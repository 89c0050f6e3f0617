/-
Epoch seconds in the graph, and back.

`_fact_node` writes a bound as its whole epoch second and "no bound" as 0 or 9999999999;
`find_existing` reads a bound back only if it is truthy and, for the upper one, below the
sentinel. The two agree on every bound but the epoch itself, upper bounds from the
sentinel on, and instants that `fromtimestamp` refuses (`read_back_iff`).
-/

import ContextMemory.Ingestion.Fixture

namespace ContextMemory

/-! ### One bound -/

namespace DateTime

/-- `fromtimestamp` accepts the whole second: it lies in the years 1 to 9999. -/
def Readable (dt : DateTime) : Prop :=
  -62135596800 ≤ dt.timestamp ∧ dt.timestamp ≤ 253402300799

instance (dt : DateTime) : Decidable dt.Readable := inferInstanceAs (Decidable (_ ∧ _))

/-- A readable time comes back as the whole second that it was stored as. -/
theorem fromTimestamp_timestamp {dt : DateTime} (h : dt.Readable) :
    fromTimestamp dt.timestamp = some ⟨dt.timestamp * 1000000, 0⟩ := by
  unfold fromTimestamp
  exact if_pos h

/-- A time outside the years 1 to 9999 is not read back at all. -/
theorem fromTimestamp_of_not_readable {dt : DateTime} (h : ¬ dt.Readable) :
    fromTimestamp dt.timestamp = none := by
  unfold fromTimestamp
  exact if_neg h

/-- A whole second comes back as the same instant, or not at all. -/
theorem read_instant_iff {dt : DateTime} (hwhole : dt.WholeSecond) :
    (∃ read, fromTimestamp dt.timestamp = some read ∧ read.micros = dt.micros) ↔ dt.Readable := by
  constructor
  · rintro ⟨read, hread, -⟩
    by_contra hnot
    rw [fromTimestamp_of_not_readable hnot] at hread
    cases hread
  · intro h
    exact ⟨_, fromTimestamp_timestamp h, hwhole⟩

end DateTime

/-- The instants of an optional bound agree. -/
def SameBound (a b : Option DateTime) : Prop := a.map (·.micros) = b.map (·.micros)

/-- A lower bound that survives: it is not the epoch. -/
def LowerReadable (bound : Option DateTime) : Prop :=
  ∀ dt, bound = some dt → dt.timestamp ≠ 0 ∧ dt.Readable

/-- An upper bound that survives: it is not the epoch, and lies before the sentinel. -/
def UpperReadable (bound : Option DateTime) : Prop :=
  ∀ dt, bound = some dt → dt.timestamp ≠ 0 ∧ dt.timestamp < openSentinel ∧ dt.Readable

/-- A lower bound survives exactly if it is readable and not the second zero,
which stands for a missing one. -/
theorem read_validFrom_iff {bound : Option DateTime}
    (hwhole : ∀ dt, bound = some dt → dt.WholeSecond) :
    (∃ read, readValidFrom (some (.int ((bound.map (·.timestamp)).getD 0))) = some read ∧
      SameBound read bound) ↔ LowerReadable bound := by
  cases bound with
  | none => simp [readValidFrom, Scalar.truthy, SameBound, LowerReadable]
  | some dt =>
      have hiff := DateTime.read_instant_iff (hwhole dt rfl)
      by_cases hzero : dt.timestamp = 0
      · simp [readValidFrom, Scalar.truthy, SameBound, LowerReadable, hzero]
      · simp only [readValidFrom, Scalar.truthy, SameBound, LowerReadable, readInstant, Scalar.pyInt,
          Option.map_some, Option.getD_some, Option.bind_some, Option.some.injEq, bne_iff_ne, ne_eq,
          hzero, not_false_eq_true, if_true, forall_eq', true_and]
        rw [← hiff]
        constructor
        · rintro ⟨read, hread, hsame⟩
          obtain ⟨instant, hinstant, rfl⟩ := Option.map_eq_some_iff.mp hread
          exact ⟨instant, hinstant, by simpa using hsame⟩
        · rintro ⟨instant, hinstant, hsame⟩
          exact ⟨some instant, by rw [hinstant]; rfl, by simpa using hsame⟩

/-- An upper bound survives exactly if it is readable, not the second zero, and
before the sentinel. -/
theorem read_validTo_iff {bound : Option DateTime}
    (hwhole : ∀ dt, bound = some dt → dt.WholeSecond) :
    (∃ read, readValidTo (some (.int ((bound.map (·.timestamp)).getD openSentinel))) = some read ∧
      SameBound read bound) ↔ UpperReadable bound := by
  cases bound with
  | none => simp [readValidTo, Scalar.truthy, Scalar.pyInt, SameBound, UpperReadable, openSentinel]
  | some dt =>
      have hiff := DateTime.read_instant_iff (hwhole dt rfl)
      by_cases hzero : dt.timestamp = 0
      · simp [readValidTo, Scalar.truthy, SameBound, UpperReadable, hzero]
      · by_cases hopen : dt.timestamp < openSentinel
        · simp only [readValidTo, Scalar.truthy, SameBound, UpperReadable, Scalar.pyInt,
            Option.map_some, Option.getD_some, Option.some.injEq, bne_iff_ne, ne_eq,
            hzero, not_false_eq_true, if_true, forall_eq', true_and, hopen]
          rw [← hiff]
          constructor
          · rintro ⟨read, hread, hsame⟩
            obtain ⟨instant, hinstant, rfl⟩ := Option.map_eq_some_iff.mp hread
            exact ⟨instant, hinstant, by simpa using hsame⟩
          · rintro ⟨instant, hinstant, hsame⟩
            exact ⟨some instant, by rw [hinstant]; rfl, by simpa using hsame⟩
        · simp [readValidTo, Scalar.truthy, Scalar.pyInt, SameBound, UpperReadable, hzero, hopen]

/-! ### The whole fact -/

/-- The fact as read says what the candidate says. -/
structure ReadsBack (candidate : ExtractedMemoryCandidate) (predicateKey : String)
    (state : FactState) : Prop where
  factId : state.factId = candidate.candidateId
  predicateKey : state.predicateKey = predicateKey
  text : state.text = candidate.text
  observedAt : state.observedAt.micros = candidate.temporal.observedAt.micros
  validFrom : SameBound state.validFrom candidate.temporal.validFrom
  validTo : SameBound state.validTo candidate.temporal.validTo

/-- Times that survive the trip. -/
structure Encodable (temporal : TemporalBounds) : Prop where
  observedAt : temporal.observedAt.Readable
  validFrom : LowerReadable temporal.validFrom
  validTo : UpperReadable temporal.validTo

structure WholeSeconds (temporal : TemporalBounds) : Prop where
  observedAt : temporal.observedAt.WholeSecond
  validFrom : ∀ dt, temporal.validFrom = some dt → dt.WholeSecond
  validTo : ∀ dt, temporal.validTo = some dt → dt.WholeSecond

section Fact

variable {allocator : GraphIdAllocator} {chunk : Chunk} {now : DateTime}
  {candidate : ExtractedMemoryCandidate} {subject : Nat} {predicateKey : String}

/-- The vertex the node of a new fact leaves. -/
def factVertex (allocator : GraphIdAllocator) (chunk : Chunk) (now : DateTime)
    (candidate : ExtractedMemoryCandidate) : Vertex :=
  Vertex.merge none .fact (factNode allocator chunk now candidate).properties

/-- The node of a fact has the fields that the builder gave it. -/
theorem factVertex_props {key : String} {value : Scalar}
    (h : (key, some value) ∈ factFields chunk candidate now) :
    (factVertex allocator chunk now candidate).props key = some value :=
  merge_factNode h

/-- So the row that the lookup returns has these values, bound by bound. -/
theorem factVertex_factRow : (factVertex allocator chunk now candidate).factRow =
    ⟨some (.str ("fact:" ++ candidate.candidateId)), some (.str candidate.text),
      some (.int candidate.temporal.observedAt.timestamp),
      some (.int ((candidate.temporal.validFrom.map (·.timestamp)).getD 0)),
      some (.int ((candidate.temporal.validTo.map (·.timestamp)).getD openSentinel))⟩ := by
  simp only [Vertex.factRow, FactRow.mk.injEq]
  refine ⟨factVertex_props ?_, factVertex_props ?_, factVertex_props ?_, factVertex_props ?_,
    factVertex_props ?_⟩ <;> simp [factFields]

/-- The node of a new fact is a current one of its context and predicate, so the
lookup finds it. -/
theorem factVertex_isCurrentFact (hpredicate : candidate.predicateKey = some predicateKey) :
    (factVertex allocator chunk now candidate).isCurrentFact chunk.contextId predicateKey = true := by
  have hcurrent : (factVertex allocator chunk now candidate).props "is_current" =
      some (.bool true) := factVertex_props (by simp [factFields])
  have hkey : (factVertex allocator chunk now candidate).props "predicate_key" =
      some (.str predicateKey) := by
    simp only [factVertex, Vertex.merge, Properties.assign, lookup_factNode_predicate, hpredicate,
      Option.map_some, Option.some_or]
  have hcontext : (factVertex allocator chunk now candidate).props "context_id" =
      some (.str chunk.contextId) := by
    simp only [factVertex, Vertex.merge, Properties.assign, lookup_factNode_context, Option.some_or]
  simp only [Vertex.isCurrentFact, decide_eq_true_eq]
  exact ⟨Finset.mem_insert_self _ _, hcontext, hkey, hcurrent⟩

/-- What decoding the row of a new fact comes to: its three times are read one
by one. -/
theorem decodeRow_factVertex {state : FactState} :
    decodeRow subject predicateKey (factVertex allocator chunk now candidate).factRow = some state ↔
      ∃ observedAt validFrom validTo,
        DateTime.fromTimestamp candidate.temporal.observedAt.timestamp = some observedAt ∧
        readValidFrom (some (.int ((candidate.temporal.validFrom.map (·.timestamp)).getD 0))) =
          some validFrom ∧
        readValidTo (some (.int ((candidate.temporal.validTo.map
          (·.timestamp)).getD openSentinel))) = some validTo ∧
        FactState.make ⟨candidate.candidateId, subject, predicateKey, candidate.text, observedAt,
          validFrom, validTo⟩ = .ok state := by
  have hkey : ("fact:" ++ candidate.candidateId != "") = true := by
    rw [bne_iff_ne]
    exact key_ne (by simp)
  have htext : (candidate.text != "") = true := by
    rw [bne_iff_ne]
    exact candidate.text_ne
  have hoption : ∀ result : Except Exn FactState, result.toOption = some state ↔
      result = .ok state := by
    intro result
    cases result with
    | error e => simp [Except.toOption]
    | ok made => simp [Except.toOption]
  rw [factVertex_factRow]
  simp only [decodeRow, Scalar.truthy, hkey, htext, Bool.and_self, if_true, Scalar.pyStr,
    readInstant, Scalar.pyInt, Option.bind_eq_bind, Option.bind_some, Option.bind_eq_some_iff,
    removePrefix_append, hoption]
  constructor
  · rintro ⟨observedAt, hobserved, validFrom, hfrom, validTo, hto, hmake⟩
    exact ⟨observedAt, validFrom, validTo, hobserved, hfrom, hto, hmake⟩
  · rintro ⟨observedAt, validFrom, validTo, hobserved, hfrom, hto, hmake⟩
    exact ⟨observedAt, hobserved, validFrom, hfrom, validTo, hto, hmake⟩

/-- Bounds that came back as they were are still in order. -/
theorem make_of_bounds {records : List ContextRecord}
    (hvalid : validateCandidate candidate records = .ok ()) (hkey : predicateKey ≠ "")
    {observedAt : DateTime} {validFrom validTo : Option DateTime}
    (hfrom : SameBound validFrom candidate.temporal.validFrom)
    (hto : SameBound validTo candidate.temporal.validTo) :
    FactState.make ⟨candidate.candidateId, subject, predicateKey, candidate.text, observedAt,
      validFrom, validTo⟩ = .ok ⟨candidate.candidateId, subject, predicateKey, candidate.text,
        observedAt, validFrom, validTo⟩ := by
  have hne : ¬ (candidate.candidateId = "" ∨ predicateKey = "" ∨ candidate.text = "") := by
    simp [candidate.candidateId_ne, candidate.text_ne, hkey]
  unfold FactState.make
  rw [if_neg hne]
  cases validFrom with
  | none => rfl
  | some lower =>
      cases validTo with
      | none => rfl
      | some upper =>
          obtain ⟨lower', hlower', hl⟩ := Option.map_eq_some_iff.mp hfrom.symm
          obtain ⟨upper', hupper', hu⟩ := Option.map_eq_some_iff.mp hto.symm
          have hle : lower'.micros ≤ upper'.micros :=
            validateCandidate_bounds hvalid hlower' hupper'
          dsimp only at hl hu
          have hlt : ¬ upper < lower := by
            rw [DateTime.lt_def]
            omega
          simp only [hlt, if_false]

/-- **Round trip.** Let a graph hold the node of a new fact and an `ABOUT` edge
from it. The lookup for that subject and predicate finds the row of the node,
and what it reads from the row is the fact as it was extracted if and only if
its times are encodable. The second zero and the sentinel are the two values
that the encoding of a bound gives to something else. -/
theorem read_back_iff (allocator : GraphIdAllocator) (chunk : Chunk) (now : DateTime) (g : Graph)
    {records : List ContextRecord} {e : Edge}
    (hvalid : validateCandidate candidate records = .ok ()) (hwhole : WholeSeconds candidate.temporal)
    (hpredicate : candidate.predicateKey = some predicateKey) (hkey : predicateKey ≠ "")
    (hnode : g.nodes (factGraphId allocator chunk.contextId candidate.candidateId) =
      some (factVertex allocator chunk now candidate))
    (hedge : e ∈ g.edges) (habout : e.type = .about) (hdestination : e.destination = subject)
    (hsource : e.source = factGraphId allocator chunk.contextId candidate.candidateId) :
    (factVertex allocator chunk now candidate).factRow ∈
        g.findExistingRows chunk.contextId subject predicateKey ∧
      ((∃ state ∈ findExisting .complete g chunk.contextId subject predicateKey,
          decodeRow subject predicateKey (factVertex allocator chunk now candidate).factRow =
            some state ∧ ReadsBack candidate predicateKey state) ↔
        Encodable candidate.temporal) := by
  have hrow : (factVertex allocator chunk now candidate).factRow ∈
      g.findExistingRows chunk.contextId subject predicateKey := by
    rw [Graph.mem_findExistingRows]
    exact ⟨e, hedge, habout, hdestination, _, hsource ▸ hnode, factVertex_isCurrentFact hpredicate,
      rfl⟩
  refine ⟨hrow, ?_⟩
  constructor
  · rintro ⟨state, -, hdecode, hreads⟩
    obtain ⟨observedAt, validFrom, validTo, hobserved, hfrom, hto, hmake⟩ :=
      decodeRow_factVertex.mp hdecode
    obtain rfl := FactState.make_eq_ok hmake
    exact ⟨(DateTime.read_instant_iff hwhole.observedAt).mp ⟨_, hobserved, hreads.observedAt⟩,
      (read_validFrom_iff hwhole.validFrom).mp ⟨_, hfrom, hreads.validFrom⟩,
      (read_validTo_iff hwhole.validTo).mp ⟨_, hto, hreads.validTo⟩⟩
  · rintro ⟨hobserved, hfrom, hto⟩
    obtain ⟨observedAt, hat, hsame⟩ := (DateTime.read_instant_iff hwhole.observedAt).mpr hobserved
    obtain ⟨validFrom, hreadFrom, hsameFrom⟩ := (read_validFrom_iff hwhole.validFrom).mpr hfrom
    obtain ⟨validTo, hreadTo, hsameTo⟩ := (read_validTo_iff hwhole.validTo).mpr hto
    have hdecode : decodeRow subject predicateKey
        (factVertex allocator chunk now candidate).factRow = some ⟨candidate.candidateId, subject,
          predicateKey, candidate.text, observedAt, validFrom, validTo⟩ :=
      decodeRow_factVertex.mpr ⟨observedAt, validFrom, validTo, hat, hreadFrom, hreadTo,
        make_of_bounds hvalid hkey hsameFrom hsameTo⟩
    refine ⟨_, ?_, hdecode, ⟨rfl, rfl, rfl, hsame, hsameFrom, hsameTo⟩⟩
    exact List.mem_filterMap.mpr ⟨_, hrow, hdecode⟩

end Fact

/-! ### The epoch -/

/-- The fact of the first turn, true until `validTo`. -/
def bostonCandidate (validTo : Option DateTime) : ExtractedMemoryCandidate where
  candidateId := "boston"
  text := "Max lives in Boston."
  memoryType := .semantic
  scopeType := .chat
  scopeId := "chat"
  sourceSpan := ⟨"boston", 0, 20⟩
  confidence := 1
  temporal := ⟨nine, none, validTo⟩
  predicateKey := some "lives_in"
  candidateId_ne := (bostonDraft validTo).candidateId_ne
  text_ne := (bostonDraft validTo).text_ne
  scopeId_ne := officeBatch.contextId_ne
  confidence_unit := (bostonDraft validTo).confidence_unit

/-- A graph with this fact alone, about the entity 7. -/
def bostonGraph (validTo : Option DateTime) : Graph where
  nodes := Function.update (fun _ => none) bostonFact (some (factVertex numberingAllocator
    ((bostonCall nine ten).chunk fixtureDeployment) nine (bostonCandidate validTo)))
  edges := [⟨.about, bostonFact, 7, 1, fun _ => none⟩]
  edges_nodup := List.nodup_singleton _

/-- The graph of the example has the node of its one fact. -/
theorem bostonGraph_nodes (validTo : Option DateTime) : (bostonGraph validTo).nodes
    (factGraphId numberingAllocator ((bostonCall nine ten).chunk fixtureDeployment).contextId
      (bostonCandidate validTo).candidateId) = some (factVertex numberingAllocator
        ((bostonCall nine ten).chunk fixtureDeployment) nine (bostonCandidate validTo)) := by
  have hid : factGraphId numberingAllocator
      ((bostonCall nine ten).chunk fixtureDeployment).contextId
      (bostonCandidate validTo).candidateId = bostonFact := rfl
  rw [hid]
  simp only [bostonGraph, Function.update_self]

theorem bostonCandidate_valid {validTo : DateTime} :
    validateCandidate (bostonCandidate (some validTo)) [bostonRecord nine] = .ok () := rfl

theorem bostonCandidate_whole {validTo : DateTime} (h : validTo.WholeSecond) :
    WholeSeconds (bostonCandidate (some validTo)).temporal := by
  have hnine : nine.WholeSecond := by decide
  constructor
  · exact hnine
  · intro dt hdt
    cases hdt
  · intro dt hdt
    cases hdt
    exact h

/-- An end in 2026 survives. -/
theorem read_back_june :
    ∃ state ∈ findExisting .complete (bostonGraph (some ⟨1780272000000000, 0⟩)) "chat" 7 "lives_in",
      ReadsBack (bostonCandidate (some ⟨1780272000000000, 0⟩)) "lives_in" state := by
  have hencodable : Encodable (bostonCandidate (some ⟨1780272000000000, 0⟩)).temporal := by
    constructor
    · decide
    · intro dt hdt
      cases hdt
    · intro dt hdt
      cases hdt
      decide
  obtain ⟨state, hstate, -, hreads⟩ := (read_back_iff numberingAllocator
    ((bostonCall nine ten).chunk fixtureDeployment) nine (bostonGraph (some ⟨1780272000000000, 0⟩))
    bostonCandidate_valid (bostonCandidate_whole (by decide)) rfl (by simp) (bostonGraph_nodes _)
    List.mem_cons_self rfl rfl rfl).2.mpr hencodable
  exact ⟨state, hstate, hreads⟩

/-- An end at the epoch comes back as no end. -/
theorem read_back_epoch :
    ¬ ∀ (allocator : GraphIdAllocator) (chunk : Chunk) (now : DateTime) (g : Graph)
      (candidate : ExtractedMemoryCandidate) (records : List ContextRecord) (e : Edge)
      (subject : Nat) (predicateKey : String),
      validateCandidate candidate records = .ok () → WholeSeconds candidate.temporal →
      candidate.predicateKey = some predicateKey → predicateKey ≠ "" →
      g.nodes (factGraphId allocator chunk.contextId candidate.candidateId) =
        some (factVertex allocator chunk now candidate) →
      e ∈ g.edges → e.type = .about → e.destination = subject →
      e.source = factGraphId allocator chunk.contextId candidate.candidateId →
      ∃ state ∈ findExisting .complete g chunk.contextId subject predicateKey,
        ReadsBack candidate predicateKey state := by
  intro h
  obtain ⟨state, hstate, hreads⟩ := h numberingAllocator
    ((bostonCall nine ten).chunk fixtureDeployment) nine (bostonGraph (some ⟨0, 0⟩))
    (bostonCandidate (some ⟨0, 0⟩)) [bostonRecord nine] _ 7 "lives_in" bostonCandidate_valid
    (bostonCandidate_whole (by decide)) rfl (by simp) (bostonGraph_nodes _) List.mem_cons_self rfl
    rfl rfl
  have hopen : ∀ state ∈ findExisting .complete (bostonGraph (some ⟨0, 0⟩)) "chat" 7 "lives_in",
      state.validTo = none := by
    decide +kernel
  have hvalidTo := hreads.validTo
  rw [hopen state hstate] at hvalidTo
  cases hvalidTo

end ContextMemory
