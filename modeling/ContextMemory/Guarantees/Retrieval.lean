/-
What a question gets to see.

The expansion asks of a fact that it is valid and known in the second of the question, and of
nothing else. The range that Phase 0 resolves is dropped, so it holds only where that second
lies in it (`retained_in_range_iff`). Facts of the same turn come from the embedding table,
which knows no supersession (`prompt_valid`). The structural channel is fed by a query whose
only column the transport cannot decode (`path_count_zero`).
-/

import ContextMemory.Retrieval.Engine
import ContextMemory.Guarantees.Visibility

namespace ContextMemory

open Faulty Manifest

/-! ### The resolved range -/

/-- A stored time of a fact, in seconds. -/
def Vertex.time? (v : Vertex) (key : String) : Option Rat := (v.props key).bind Scalar.number?

/-- Some instant, in microseconds, lies in the validity of a fact and in a range. -/
def Vertex.MeetsRange (v : Vertex) (range : DateRange) : Prop :=
  ∃ x : Rat, (∀ a, v.time? "valid_from" = some a → a * 1000000 ≤ x) ∧
    (∀ b, v.time? "valid_to" = some b → x ≤ b * 1000000) ∧
    (∀ start, range.validFrom = some start → (start.micros : Rat) ≤ x) ∧
    ∀ stop, range.validTo = some stop → x ≤ (stop.micros : Rat)

/-- A second lies in a range. -/
def DateRange.Contains (range : DateRange) (second : Int) : Prop :=
  (∀ start, range.validFrom = some start → start.micros ≤ second * 1000000) ∧
    ∀ stop, range.validTo = some stop → second * 1000000 ≤ stop.micros

/-- Every fact that an expansion with these bounds retains meets them. -/
def RetainedInRange (config : RetrievalConfig) (bounds : DateRange) (query : DateTime) : Prop :=
  ∀ (e : Expander) (allocator : GraphIdAllocator) (g : Graph) (contextId : String)
    (seeds seeds' : List ScoredFact) (data : List GraphDatum), e.Sound allocator g →
    e.expand config contextId seeds bounds query = .ok (seeds', data) →
    ∀ factId ∈ seeds'.map ScoredFact.factId, ∀ v,
      g.nodes (factGraphId allocator contextId factId) = some v → v.MeetsRange bounds

/-- A fact that is valid in one second only. -/
def momentary (second : Int) : Vertex where
  labels := {.fact}
  props key := [("valid_from", Scalar.int second), ("valid_to", .int second)].lookup key

theorem momentary_meets {second : Int} {range : DateRange}
    (h : (momentary second).MeetsRange range) : range.Contains second := by
  obtain ⟨x, hfrom, hto, hstart, hstop⟩ := h
  have hlower : ((second * 1000000 : Int) : Rat) ≤ x := by
    have hbound := hfrom second rfl
    rwa [Rat.intCast_mul]
  have hupper : x ≤ ((second * 1000000 : Int) : Rat) := by
    have hbound := hto second rfl
    rwa [Rat.intCast_mul]
  constructor
  · intro start hsome
    exact Rat.intCast_le_intCast.mp ((hstart start hsome).trans hupper)
  · intro stop hsome
    exact Rat.intCast_le_intCast.mp (hlower.trans (hstop stop hsome))

/-- The graph of that fact alone. -/
def momentaryGraph (second : Int) : Graph where
  nodes id := if id = factGraphId numberingAllocator "chat" "boston" then some (momentary second)
    else none

theorem momentaryGraph_node (second : Int) : (momentaryGraph second).nodes
    (factGraphId numberingAllocator "chat" "boston") = some (momentary second) := by
  simp only [momentaryGraph, if_true]

/-- Whatever the bounds, the expansion keeps a fact that is valid in the second
of the query. -/
theorem momentary_retained (config : RetrievalConfig) (bounds : DateRange) (query : DateTime) :
    ∃ seeds' data, ((momentaryGraph query.timestamp).expander 256 numberingAllocator).expand config
        "chat" bostonSeed bounds query = .ok (seeds', data) ∧
      "boston" ∈ seeds'.map ScoredFact.factId := by
  have hcomplete := (momentaryGraph query.timestamp).expander_complete (show 0 < 256 by decide)
    numberingAllocator
  have hnode := momentaryGraph_node query.timestamp
  have hvisible : visible query.timestamp (chatTtlLimit config query)
      ((momentary query.timestamp).nodeRow none) = .ok true := by
    rw [visible_eq_true]
    simp [Vertex.nodeRow, momentary, isAfter, isBefore, Scalar.number?, List.lookup_cons]
  obtain ⟨seeds', data, h⟩ :
      ∃ seeds' data, ((momentaryGraph query.timestamp).expander 256 numberingAllocator).expand config
        "chat" bostonSeed bounds query = .ok (seeds', data) := by
    apply hcomplete.toSound.expand_ok
    intro fact hfact v hv
    rw [List.mem_singleton.mp hfact] at hv
    obtain rfl : momentary query.timestamp = v := Option.some.inj (hnode.symm.trans hv)
    exact ⟨true, hvisible⟩
  exact ⟨seeds', data, h, (hcomplete.retained_iff h (by decide) hnode).mpr hvisible⟩

theorem retainedInRange_iff (config : RetrievalConfig) (bounds : DateRange) (query : DateTime) :
    RetainedInRange config bounds query ↔ bounds.Contains query.timestamp := by
  constructor
  · intro hall
    obtain ⟨seeds', data, h, hmem⟩ := momentary_retained config bounds query
    apply momentary_meets
    exact hall _ numberingAllocator _ "chat" bostonSeed seeds' data
      ((momentaryGraph query.timestamp).expander_complete (by decide) _).toSound h "boston" hmem _
      (momentaryGraph_node query.timestamp)
  · rintro ⟨hstart, hstop⟩ e allocator g contextId seeds seeds' data hs h factId hmem v hv
    obtain ⟨v', hv', hvisible⟩ := hs.retained h hmem
    obtain rfl : v = v' := Option.some.inj (hv.symm.trans hv')
    obtain ⟨hfrom, hto, -⟩ := visible_eq_true.mp hvisible
    -- the second of the query is the common instant
    refine ⟨((query.timestamp * 1000000 : Int) : Rat), ?_, ?_, ?_, ?_⟩
    · intro a ha
      have hle : a ≤ (query.timestamp : Rat) := isAfter_eq_false hfrom ha
      rw [Rat.intCast_mul]
      exact Rat.mul_le_mul_of_nonneg_right hle (by decide)
    · intro b hb
      have hle : (query.timestamp : Rat) ≤ b := isBefore_eq_false hto hb
      rw [Rat.intCast_mul]
      exact Rat.mul_le_mul_of_nonneg_right hle (by decide)
    · intro start hsome
      exact Rat.intCast_le_intCast.mpr (hstart start hsome)
    · intro stop hsome
      exact Rat.intCast_le_intCast.mpr (hstop stop hsome)

/-- **Phase 0.** Whatever the model answers, the facts retained for a question
all meet the resolved and buffered range exactly if the second of the question
lies in it. The expansion is handed the range and does not read it; what keeps
the facts in it is that they are valid at the second of the question. -/
theorem retained_in_range_iff (config : RetrievalConfig) (answer : Except Exn (Option DateRange))
    (questionDate : DateTime) :
    RetainedInRange config (resolveTemporal config answer) questionDate ↔
      (resolveTemporal config answer).Contains questionDate.timestamp :=
  retainedInRange_iff config _ questionDate

/-- A question of February about the time up to January 10: a fact of February
is retained. -/
theorem retained_out_of_range : ¬∀ (config : RetrievalConfig)
    (answer : Except Exn (Option DateRange)) (questionDate : DateTime),
    RetainedInRange config (resolveTemporal config answer) questionDate := by
  intro hall
  -- 2026-01-10 and 2026-02-01
  have hrange := (retainedInRange_iff _ _ _).mp
    (hall {} (.ok (some ⟨none, some ⟨1768003200000000, 0⟩⟩)) ⟨1769904000000000, 0⟩)
  have hstop := hrange.2 ⟨1768176000000000, 0⟩ (by decide)
  exact absurd hstop (by decide)

/-! ### The prompt -/

/-- By its node, a fact is valid and known at an instant. -/
structure Vertex.ValidAt (v : Vertex) (t : DateTime) : Prop where
  validFrom : ∀ x, v.time? "valid_from" = some x → x * 1000000 ≤ t.micros
  validTo : ∀ x, v.time? "valid_to" = some x → t.micros ≤ x * 1000000
  observedAt : ∀ x, v.time? "observed_at" = some x → x * 1000000 ≤ t.micros
  supersededAt : ∀ x, v.time? "superseded_at" = some x → t.micros ≤ x * 1000000

/-- No stored time of a fact falls between an instant and its whole second. -/
def Vertex.Sharp (v : Vertex) (t : DateTime) : Prop :=
  ∀ key x, v.time? key = some x → (x ≤ t.timestamp → x * 1000000 ≤ t.micros) ∧
    (t.timestamp ≤ x → t.micros ≤ x * 1000000)

theorem Vertex.sharp_of_wholeSecond {t : DateTime} (h : t.WholeSecond) (v : Vertex) :
    v.Sharp t := by
  intro key x _
  unfold DateTime.WholeSecond at h
  rw [← h, Rat.intCast_mul]
  constructor
  · intro hle
    exact Rat.mul_le_mul_of_nonneg_right hle (by decide)
  · intro hle
    exact Rat.mul_le_mul_of_nonneg_right hle (by decide)

/-- What the filter lets through is valid at the instant, not only in its
second. -/
theorem Vertex.Sharp.validAt {v : Vertex} {t : DateTime} (h : v.Sharp t) {ttlLimit : Int}
    (hvisible : visible t.timestamp ttlLimit (v.nodeRow none) = .ok true) : v.ValidAt t := by
  obtain ⟨hfrom, hto, hobserved, hsuperseded, -⟩ := visible_eq_true.mp hvisible
  constructor
  · intro x hx
    exact (h _ x hx).1 (isAfter_eq_false hfrom hx)
  · intro x hx
    exact (h _ x hx).2 (isBefore_eq_false hto hx)
  · intro x hx
    exact (h _ x hx).1 (isAfter_eq_false hobserved hx)
  · intro x hx
    exact (h _ x hx).2 (isBefore_eq_false hsuperseded hx)

/-- A row the sibling query can return: an active embedding of the turn of an anchor, with an
active search row. Neither table knows when a fact ended. -/
structure SiblingOf (s : Stores) (contextId anchor sibling rawText : String) : Prop where
  turn : ∃ key key' row row', s.embeddings key = some row ∧ s.embeddings key' = some row' ∧
    key.contextId = contextId ∧ key.subjectKind = .fact ∧ key.subjectId = anchor ∧
    key'.contextId = contextId ∧ key'.subjectKind = .fact ∧ key'.subjectId = sibling ∧
    row'.sourceChunkId = row.sourceChunkId ∧ row'.isActive = true
  text : ∃ row, s.searchIndex sibling = some row ∧ row.isActive = true ∧ row.rawText = rawText

/-- An engine over the stores: what it reads is there. -/
structure RetrievalEngine.Reads (engine : RetrievalEngine) (d : Deployment) (s : Stores) :
    Prop where
  expander : engine.expander.Sound d.allocator s.graphStore.graph
  siblings : ∀ {vector contextId factIds rows},
    engine.siblingRows vector contextId factIds = .ok rows → ∀ row ∈ rows,
      row.subjectId ∉ factIds ∧ ∃ anchor ∈ factIds,
        SiblingOf s contextId anchor row.subjectId row.rawText

/-- Every fact with an embedding has a node. -/
def EmbeddedStored (d : Deployment) (s : Stores) : Prop :=
  ∀ key row, s.embeddings key = some row → key.subjectKind = .fact → ∃ v,
    s.graphStore.graph.nodes (factGraphId d.allocator key.contextId key.subjectId) = some v

/-- A plan that was written completely has left a node for each of its
candidates. -/
theorem WroteAll.fact_node {d : Deployment} {call : Call} {s : Stores}
    {extraction : ExtractionResult} {plan : GraphWritePlan} {turn : GraphNode} {gs : List Gathered}
    (hplan : PlannedFrom d call s extraction plan turn gs) {t t' : GraphStore}
    (h : WroteAll plan t t') {c : ExtractedMemoryCandidate} (hc : c ∈ extraction.accepted) :
    ∃ v, t'.graph.nodes (factGraphId d.allocator call.batch.contextId c.candidateId) = some v := by
  obtain ⟨m, done, hsome, hall⟩ := h
  obtain ⟨x, hx, rfl, n, hn, hnid⟩ := hplan.fact_node hc
  have hdone : GraphRecord.node n ∈ done :=
    hall _ (GraphWritePlan.mem_records.mpr (Or.inl ⟨n, hn, rfl⟩))
  rw [hsome.state_eq, ← hnid]
  refine ⟨_, writeRecords_nodes_of_mem hdone ?_⟩
  intro k hk hsame
  exact GraphWritePlan.node_eq (hsome.sound _ hk) (hsome.sound _ hdone) hsame

theorem embeddedStored_step {d : Deployment} {w : World Stores} (hw : Sourced d w.stores)
    (h : EmbeddedStored d w.stores) (t : Step) : EmbeddedStored d (step d w t).stores := by
  intro key row hrow hkind
  -- a row that was there before has its node still
  have hbefore : w.stores.embeddings key = some row → ∃ v,
      (step d w t).stores.graphStore.graph.nodes
        (factGraphId d.allocator key.contextId key.subjectId) = some v := by
    intro hold
    obtain ⟨v, hv⟩ := h key row hold hkind
    obtain ⟨v', hv', -⟩ := (step_kept hw t).node hv
    exact ⟨v', hv'⟩
  cases t with
  | ingest call faults =>
      rcases @runRecord_effect d call w faults with hsame | ⟨chunks, jobs, hput, heffect⟩
      · have hstores : (step d w (.ingest call faults)).stores = w.stores := hsame
        rw [hstores] at hrow
        exact hbefore hrow
      · change Effect d call _ (step d w (.ingest call faults)).stores at heffect
        cases heffect with
        | extracted audit hs' =>
            rw [hs'] at hrow
            exact hbefore hrow
        | planned audit hextract hbuild hs' =>
            rw [hs'] at hrow
            exact hbefore hrow
        | wrote audit hextract hbuild hwrote hs' =>
            rw [hs'] at hrow
            exact hbefore hrow
        | indexed audit hextract hbuild hwrote hvectors hindexed hs' =>
            rcases hindexed.embedding_new hrow with hold | ⟨item, hitem, rfl, -⟩
            · exact hbefore hold
            · obtain ⟨turn, gs, hplan⟩ := (hw.put hput).planned hbuild
              rw [hs']
              exact WroteAll.fact_node hplan hwrote (List.of_mem_zip hitem).1
  | restart => exact hbefore hrow
  | operator chunkId state error =>
      simp only [step] at hrow hbefore ⊢
      split at hrow <;> simp_all

theorem embeddedStored_run (d : Deployment) (steps : List Step) :
    EmbeddedStored d (run d .initial steps).stores := by
  have hboth := run_invariant (d := d)
    (P := fun w => Sourced d w.stores ∧ EmbeddedStored d w.stores)
    (w := .initial) ⟨sourced_initial d, fun key row hrow => by cases hrow⟩
    (fun w t hw => ⟨sourced_step hw.1 t, embeddedStored_step hw.1 hw.2 t⟩) steps
  exact hboth.2

/-- **The prompt.** After any run, and for any question at an instant that no
stored time of the context falls short of by less than a second: if no fact of a
turn has ended, or is still to come, while another fact of the turn is valid, or
if siblings are switched off, then every fact in the reader's prompt is valid
and known at that instant. The ranked facts pass the bitemporal filter; a
sibling is taken for its turn and passes none. -/
theorem prompt_valid (d : Deployment) (steps : List Step) {engine : RetrievalEngine}
    (hreads : engine.Reads d (run d .initial steps).stores) {contextId question : String}
    {t : DateTime} {topK : Option Int} {context : ReaderContext} {answer : String}
    (hsharp : ∀ factId v, (run d .initial steps).stores.graphStore.graph.nodes
      (factGraphId d.allocator contextId factId) = some v → v.Sharp t)
    (hturn : 0 < engine.config.siblingFactLimit → ∀ anchor sibling rawText v v',
      SiblingOf (run d .initial steps).stores contextId anchor sibling rawText →
      (run d .initial steps).stores.graphStore.graph.nodes
        (factGraphId d.allocator contextId anchor) = some v → v.ValidAt t →
      (run d .initial steps).stores.graphStore.graph.nodes
        (factGraphId d.allocator contextId sibling) = some v' → v'.ValidAt t)
    (h : engine.retrieveAndAnswer contextId question t topK = .ok (.answered context answer)) :
    ∀ factId ∈ context.topFacts.map ScoredFact.factId ++ context.siblings.map Prod.fst, ∃ v,
      (run d .initial steps).stores.graphStore.graph.nodes
        (factGraphId d.allocator contextId factId) = some v ∧ v.ValidAt t := by
  obtain ⟨seeds, facts, bounds, data, hexpand, hfacts, hsiblings⟩ := RetrievalEngine.answered h
  have htop : ∀ factId ∈ context.topFacts.map ScoredFact.factId, ∃ v,
      (run d .initial steps).stores.graphStore.graph.nodes
        (factGraphId d.allocator contextId factId) = some v ∧ v.ValidAt t := by
    intro factId hmem
    obtain ⟨fact, hfact, rfl⟩ := List.mem_map.mp hmem
    obtain ⟨v, hv, hvisible⟩ := hreads.expander.retained hexpand (hfacts fact hfact)
    exact ⟨v, hv, (hsharp _ v hv).validAt hvisible⟩
  intro factId hmem
  rcases List.mem_append.mp hmem with hmem | hmem
  · exact htop factId hmem
  · obtain ⟨sibling, hsibling, rfl⟩ := List.mem_map.mp hmem
    obtain ⟨hlimit, vector, rows, hrows, row, hrow, rfl⟩ := hsiblings sibling hsibling
    obtain ⟨-, anchor, hanchor, hof⟩ := hreads.siblings hrows row hrow
    obtain ⟨v, hv, hvalid⟩ := htop anchor hanchor
    obtain ⟨_, key', _, row', -, hrow', -, -, -, rfl, hkind, hid, -⟩ := hof.turn
    obtain ⟨v', hv'⟩ := embeddedStored_run d steps key' row' hrow' hkind
    rw [hid] at hv'
    exact ⟨v', hv', hturn hlimit anchor row.subjectId row.rawText v v' hof hv hvalid hv'⟩

/-- The first turn of the move with a second fact, which the move does not touch. -/
def nameDraft : ExtractionDraft where
  candidateId := "name"
  text := "Max"
  sourceStart := 0
  sourceEnd := 3
  confidence := 1
  text_ne := max_ne
  confidence_unit := seattleDraft.confidence_unit
  scopeId_ne := seattleDraft.scopeId_ne

def turnSteps : List Step :=
  [.ingest ⟨fixtureEnv 1767258001 [bostonDraft none, nameDraft], moveBatch nine ten,
      bostonRecord nine⟩ [],
    .ingest (seattleCall nine ten) []]

def eleven : DateTime := ⟨1767265200000000, 0⟩

/-- What the run leaves of the two facts of the first turn. -/
theorem turn_times :
    (∃ v, (run fixtureDeployment .initial turnSteps).stores.graphStore.graph.nodes
        (factGraphId fixtureDeployment.allocator "chat" "name") = some v ∧
      v.Times 0 openSentinel 1767258000 openSentinel ∧ v.props "memory_scope" = none) ∧
    ∃ v, (run fixtureDeployment .initial turnSteps).stores.graphStore.graph.nodes
        (factGraphId fixtureDeployment.allocator "chat" "boston") = some v ∧
      v.Times 0 openSentinel 1767258000 1767261600 := by
  obtain ⟨hname, hscope, hboston⟩ :
      (run fixtureDeployment .initial turnSteps).stores.graphStore.graph.times?
        (factGraphId fixtureDeployment.allocator "chat" "name") =
        some (0, openSentinel, 1767258000, openSentinel) ∧
      ((run fixtureDeployment .initial turnSteps).stores.graphStore.graph.nodes
          (factGraphId fixtureDeployment.allocator "chat" "name")).map
        (·.props "memory_scope") = some none ∧
      (run fixtureDeployment .initial turnSteps).stores.graphStore.graph.times?
        (factGraphId fixtureDeployment.allocator "chat" "boston") =
        some (0, openSentinel, 1767258000, 1767261600) := by
    decide +kernel
  obtain ⟨v, hv, htimes⟩ := Graph.times?_eq_some hname
  obtain ⟨v', hv', htimes'⟩ := Graph.times?_eq_some hboston
  rw [hv, Option.map_some, Option.some.injEq] at hscope
  exact ⟨⟨v, hv, htimes, hscope⟩, v', hv', htimes'⟩

theorem turn_sibling : SiblingOf (run fixtureDeployment .initial turnSteps).stores "chat" "name"
    "boston" "Max lives in Boston." := by
  have hrows : ((run fixtureDeployment .initial turnSteps).stores.embeddings
        ⟨"chat", .fact, "name", "fixture", "1"⟩).map Embedding.sourceChunkId =
        some (chunkIdFor fixtureDeployment.sha256 "chat" "boston") ∧
      ((run fixtureDeployment .initial turnSteps).stores.embeddings
        ⟨"chat", .fact, "boston", "fixture", "1"⟩).map (fun row => (row.sourceChunkId, row.isActive)) =
        some (chunkIdFor fixtureDeployment.sha256 "chat" "boston", true) ∧
      ((run fixtureDeployment .initial turnSteps).stores.searchIndex "boston").map
        (fun row => (row.isActive, row.rawText)) = some (true, "Max lives in Boston.") := by
    decide +kernel
  obtain ⟨hname, hboston, htext⟩ := hrows
  obtain ⟨row, hrow, hchunk⟩ := Option.map_eq_some_iff.mp hname
  obtain ⟨row', hrow', hsame⟩ := Option.map_eq_some_iff.mp hboston
  obtain ⟨found, hfound, htext⟩ := Option.map_eq_some_iff.mp htext
  obtain ⟨hchunk', hactive⟩ := Prod.mk.inj hsame
  exact ⟨⟨_, _, row, row', hrow, hrow', rfl, rfl, rfl, rfl, rfl, rfl, hchunk'.trans hchunk.symm,
    hactive⟩, found, hfound, Prod.mk.inj htext⟩

/-- An engine that seeds the second fact, and whose sibling query finds the first. -/
noncomputable def turnEngine (limit : Int) : RetrievalEngine where
  config := { siblingFactLimit := limit }
  casefold := asciiTables.casefold
  embed _ := .ok [1]
  temporalAnswer _ _ := .ok none
  rewriterAnswer _ := .ok none
  semanticRows _ _ _ := .ok [("name", some 0)]
  keywordRows _ _ _ := .ok []
  rawTexts _ _ := .ok []
  siblingRows _ contextId factIds :=
    .ok (if contextId = "chat" ∧ factIds = ["name"] then
      [⟨"boston", "Max lives in Boston.", 0, 0, 0⟩] else [])
  expander := fixtureExpander turnSteps
  promptTemplate := id
  reader _ _ := .ok "Boston"

theorem turnEngine_reads (limit : Int) :
    (turnEngine limit).Reads fixtureDeployment (run fixtureDeployment .initial turnSteps).stores where
  expander := (fixtureExpander_complete turnSteps).toSound
  siblings := by
    intro vector contextId factIds rows h row hrow
    cases h
    split at hrow
    · rename_i hasked
      obtain ⟨rfl, rfl⟩ := hasked
      rw [List.mem_singleton.mp hrow]
      exact ⟨by decide, "name", List.mem_singleton_self _, turn_sibling⟩
    · cases hrow

def nameSeed : ScoredFact := { factId := "name", text := "", semanticScore := 1, semanticRank := some 1 }

theorem turnEngine_seed (limit : Int) (expanded : QueryRewriterOutput) (topK : Int) :
    (turnEngine limit).seed "chat" "Where does Max live?" expanded topK = .ok [nameSeed] := by
  have hfirst : (enumerate [("name", some (0 : Rat))]).foldl seedSemantic [] = [nameSeed] := by
    decide +kernel
  unfold RetrievalEngine.seed turnEngine
  simp only [Fallible.ok_bind, hfirst]
  split <;> rfl

theorem turnEngine_answers (limit : Int) : ∃ ranked answer,
    (turnEngine limit).retrieveAndAnswer "chat" "Where does Max live?" eleven none =
      .ok (.answered ((turnEngine limit).readerContext "chat" "Where does Max live?" ranked 20)
        answer) ∧ ranked.map ScoredFact.factId = ["name"] := by
  obtain ⟨⟨v, hv, htimes, hscope⟩, -⟩ := turn_times
  have hcomplete := fixtureExpander_complete turnSteps
  obtain ⟨facts, data, hexpand⟩ : ∃ facts data, (turnEngine limit).expander.expand
      (turnEngine limit).config "chat" [nameSeed] {} eleven = .ok (facts, data) := by
    apply hcomplete.toSound.expand_ok
    intro fact hfact v' hv'
    rw [List.mem_singleton.mp hfact] at hv'
    dsimp only [nameSeed] at hv'
    obtain rfl : v = v' := Option.some.inj (hv.symm.trans hv')
    exact htimes.visible_ok _ _
  have hname : "name" ∈ facts.map ScoredFact.factId := by
    rw [hcomplete.retained_iff hexpand (by decide) hv, htimes.visible_iff, hscope]
    exact ⟨by decide, by decide, by decide, by decide, fun hset => by cases hset⟩
  have hids : facts.map ScoredFact.factId = ["name"] := by
    rcases Expander.expand_eq_ok hexpand with ⟨-, rfl⟩ | ⟨kept, -, rfl, -⟩
    · cases hname
    · have hsub := (origins_prune kept [nameSeed]).map Prod.fst
      rw [List.map_map] at hsub
      rcases List.sublist_singleton.mp hsub with hnil | hsame
      · exact absurd (List.map_eq_nil_iff.mp hnil) (by rintro h; rw [h] at hname; cases hname)
      · exact hsame
  have hsure : ∀ seed ∈ [nameSeed], (3 / 10 : Rat) ≤ seed.semanticScore := by
    decide +kernel
  have hne : facts ≠ [] := by
    rintro rfl
    cases hname
  obtain ⟨ranked, answer, hanswered, hperm⟩ :=
    @RetrievalEngine.answers (turnEngine limit) "chat" "Where does Max live?"
      (show (3 : Int) ≠ 0 by decide) (show (0 : Int) < 60 by decide) (fun _ _ => ⟨_, rfl⟩) eleven none
      [nameSeed] facts data (turnEngine_seed limit _ _) hsure hexpand hne
  refine ⟨ranked, answer, hanswered, ?_⟩
  rw [hids] at hperm
  exact List.perm_singleton.mp hperm

theorem pyTake_name {ranked : List ScoredFact} (h : ranked.map ScoredFact.factId = ["name"]) :
    (pyTake 20 ranked).map ScoredFact.factId = ["name"] := by
  have hlength : ranked.length ≤ (20 : Int).toNat := by
    rw [← List.length_map (f := ScoredFact.factId), h]
    decide
  rw [pyTake, if_pos (by decide), List.take_of_length_le hlength]
  exact h

/-- At eleven the reader is told that Max lives in Boston. -/
theorem prompt_superseded : ¬∀ (d : Deployment) (steps : List Step) (engine : RetrievalEngine)
    (contextId question : String) (t : DateTime) (topK : Option Int) (context : ReaderContext)
    (answer : String), engine.Reads d (run d .initial steps).stores →
    engine.retrieveAndAnswer contextId question t topK = .ok (.answered context answer) →
    ∀ factId ∈ context.topFacts.map ScoredFact.factId ++ context.siblings.map Prod.fst, ∃ v,
      (run d .initial steps).stores.graphStore.graph.nodes
        (factGraphId d.allocator contextId factId) = some v ∧ v.ValidAt t := by
  intro hall
  obtain ⟨ranked, answer, hanswered, hids⟩ := turnEngine_answers 20
  have hsibling : "boston" ∈ ((turnEngine 20).readerContext "chat" "Where does Max live?" ranked
      20).siblings.map Prod.fst := by
    have hselected : selectSiblings (turnEngine 20).config
        [⟨"boston", "Max lives in Boston.", 0, 0, 0⟩] = [("boston", "Max lives in Boston.")] := by
      decide +kernel
    have hfacts : (turnEngine 20).siblingFacts "chat" ["name"] "Where does Max live?" =
        .ok [("boston", "Max lives in Boston.")] := by
      rw [← hselected]
      rfl
    simp only [RetrievalEngine.readerContext, pyTake_name hids, hfacts]
    decide
  obtain ⟨v, hv, hvalid⟩ := hall fixtureDeployment turnSteps (turnEngine 20) "chat"
    "Where does Max live?" eleven none _ answer (turnEngine_reads 20) hanswered "boston"
    (List.mem_append_right _ hsibling)
  obtain ⟨-, v', hv', htimes⟩ := turn_times
  obtain rfl : v = v' := Option.some.inj (hv.symm.trans hv')
  have hlate := hvalid.supersededAt 1767261600 (by simp [Vertex.time?, htimes.supersededAt, Scalar.number?])
  exact absurd hlate (by decide +kernel)

/-- With siblings switched off, the same request shows a fact that is still
valid. -/
theorem prompt_valid_no_siblings : ∃ context answer,
    (turnEngine 0).retrieveAndAnswer "chat" "Where does Max live?" eleven none =
      .ok (.answered context answer) ∧ context.topFacts ≠ [] ∧
    ∀ factId ∈ context.topFacts.map ScoredFact.factId ++ context.siblings.map Prod.fst, ∃ v,
      (run fixtureDeployment .initial turnSteps).stores.graphStore.graph.nodes
        (factGraphId fixtureDeployment.allocator "chat" factId) = some v ∧ v.ValidAt eleven := by
  obtain ⟨ranked, answer, hanswered, hids⟩ := turnEngine_answers 0
  refine ⟨_, answer, hanswered, ?_, prompt_valid fixtureDeployment turnSteps (turnEngine_reads 0)
    ?_ ?_ hanswered⟩
  · intro hnil
    have hcontext := pyTake_name hids
    rw [show pyTake 20 ranked = [] from hnil] at hcontext
    cases hcontext
  · intro factId v _
    exact Vertex.sharp_of_wholeSecond (by decide) v
  · intro hlimit
    exact absurd hlimit (by simp [turnEngine])

/-! ### The structural channel -/

/-- The endpoint answers a query with a path of at least one edge that starts or ends at an
entity, among rows of the right width. -/
def QueryService.AnswersPath (service : QueryService) (cypher entity : String) : Prop :=
  ∃ columns rows next, service.page cypher (.obj []) none service.defaultPageSize =
      .ok ⟨columns, rows, next⟩ ∧ (∀ row ∈ rows, row.length = columns.length) ∧
    ∃ row ∈ rows, ∃ path, HttpQueryValue.path path ∈ row ∧ path.relationships ≠ [] ∧
      ∃ node, (path.nodes.head? = some node ∨ path.nodes.getLast? = some node) ∧
        node.properties.lookup "logical_key" = some (.str entity)

/-- Such an answer is refused as a whole. -/
theorem QueryService.AnswersPath.read_error {service : QueryService} {cypher entity : String}
    (h : service.AnswersPath cypher entity) (cellId : String) :
    HydraHttpTransport.read ⟨cellId, service.respond⟩ cypher (.obj []) none =
      .error unsupportedValue := by
  obtain ⟨columns, rows, next, hpage, hwidth, row, hrow, path, hpath, -⟩ := h
  rw [HydraHttpTransport.read_firstPage none hpage]
  apply (decodeRows_spec hwidth).2
  intro hfree
  have hnone := hfree row hrow
  rw [HttpQueryValue.anyPath_of_mem hpath] at hnone
  cases hnone

/-- What a live structural channel does for a fact: the answer to the path query is decoded, a
path is counted, and the structural score is positive. -/
structure StructurallyLive (e : Expander) (config : RetrievalConfig) (cypher : String)
    (data : List GraphDatum) (factId : String) : Prop where
  decoded : ∃ rows, e.hydra.read cypher (.obj []) none = .ok rows
  counted : ∃ datum ∈ data, datum.factId = factId ∧ 1 ≤ datum.pathCount
  scored : ∀ casefold terms fact fact', fact.factId = factId →
    scoreFact config casefold terms data fact = .ok fact' → 0 < fact'.structuralScore

/-- Without a path the structural score is zero. -/
theorem scoreFact_structuralScore {config : RetrievalConfig} (hcap : 0 < config.structuralPathCap)
    {data : List GraphDatum} (hdata : ∀ datum ∈ data, datum.pathCount = 0)
    {casefold : String → String} {terms : List String} {fact fact' : ScoredFact}
    (h : scoreFact config casefold terms data fact = .ok fact') : fact'.structuralScore = 0 := by
  have hzero : ((Ordered.find GraphDatum.factId fact.factId data).getD
      ⟨fact.factId, none, 1, 0, 0⟩).pathCount = 0 := by
    cases hfind : Ordered.find GraphDatum.factId fact.factId data with
    | none => rfl
    | some datum => exact hdata datum (Ordered.find_eq_some hfind).1
  have hmin : min (0 : Int) config.structuralPathCap = 0 := by omega
  simp only [scoreFact, hzero, Nat.cast_zero, hmin, pyDiv] at h
  split at h
  · cases h
  · rename_i hdiv
    split at hdiv
    · cases hdiv
    · cases hdiv
      cases h
      simp

/-- **The structural channel** is never live. Whatever the endpoint answers to
the path query with a path in it, in particular one that starts or ends at the
entity of a retained fact, is refused: the read fails, the expansion goes on
without paths, no path is counted for any fact, and where the path cap is
positive no fact has a structural score. -/
theorem path_count_zero {e : Expander} {service : QueryService} {cellId : String}
    (hhydra : e.hydra = ⟨cellId, service.respond⟩) {config : RetrievalConfig} {contextId : String}
    {seeds seeds' : List ScoredFact} {bounds : DateRange} {query : DateTime}
    {data : List GraphDatum} {kept : List RawNode}
    (hexpand : e.expand config contextId seeds bounds query = .ok (seeds', data))
    (hkept : keepVisible query.timestamp (chatTtlLimit config query) (e.rawNodes contextId seeds) =
      .ok kept) {factId entity : String} (hfact : factId ∈ seeds'.map ScoredFact.factId)
    (hpath : service.AnswersPath
      (pathCypher (e.entities (e.rawNodes contextId seeds) kept) config.graphMaxHops) entity) :
    ¬StructurallyLive e config
        (pathCypher (e.entities (e.rawNodes contextId seeds) kept) config.graphMaxHops) data factId ∧
      (∀ datum ∈ data, datum.pathCount = 0) ∧ (0 < config.structuralPathCap →
        ∀ casefold terms fact fact', scoreFact config casefold terms data fact = .ok fact' →
          fact'.structuralScore = 0) := by
  have hread := hpath.read_error cellId
  rw [← hhydra] at hread
  have hstats : e.pathStats config (e.rawNodes contextId seeds) kept = fun _ => none := by
    unfold Expander.pathStats
    split
    · rfl
    · rw [hread]
  have hzero : ∀ datum ∈ data, datum.pathCount = 0 := by
    intro datum hdatum
    rcases Expander.expand_eq_ok hexpand with ⟨-, rfl⟩ | ⟨kept', hkept', -, hdata⟩
    · cases hfact
    · obtain rfl : kept' = kept := Except.ok.inj (hkept'.symm.trans hkept)
      have hne : seeds' ≠ [] := by
        rintro rfl
        cases hfact
      rw [hdata hne, hstats] at hdatum
      obtain ⟨fact, -, rfl⟩ := List.mem_map.mp hdatum
      rfl
  refine ⟨?_, hzero, ?_⟩
  · rintro ⟨⟨rows, hrows⟩, -, -⟩
    rw [hread] at hrows
    cases hrows
  · intro hcap casefold terms fact fact' h
    exact scoreFact_structuralScore hcap hzero h

/-- The endpoint of a graph that answers any other query with one path. -/
noncomputable def Graph.pathEndpoint (g : Graph) (path : QueryPath) : QueryService where
  defaultPageSize := 256
  page query parameters cursor pageSize :=
    match (g.endpoint 256).page query parameters cursor pageSize with
    | .ok page => .ok page
    | .error _ => .ok ⟨["path"], [[.path path]], none⟩

theorem Graph.fetchNode_pathEndpoint (g : Graph) (path : QueryPath) (id : Nat) :
    fetchNode ⟨"cell-0", (g.pathEndpoint path).respond⟩ id = some ((g.nodeRows id).take 256) := by
  obtain ⟨next, hpage⟩ := g.endpoint_page (show 0 < 256 by decide) id
  apply fetchNode_eq
  · simp only [Graph.pathEndpoint, hpage]
    rfl

theorem Graph.pathEndpoint_page (g : Graph) (path : QueryPath) (entities : List String)
    (maxHops : Int) : (g.pathEndpoint path).page (pathCypher entities maxHops) (.obj []) none 256 =
      .ok ⟨["path"], [[.path path]], none⟩ := by
  have hnone : ¬∃ id, nodeCypher id = pathCypher entities maxHops := by
    rintro ⟨id, hid⟩
    exact nodeCypher_ne_pathCypher id entities maxHops hid
  simp only [Graph.pathEndpoint, Graph.endpoint, dif_neg hnone]

/-- Max and what is known of his home. -/
def maxPath : QueryPath where
  nodes := [⟨1, ["Entity"], [("logical_key", .str "entity:max")]⟩,
    ⟨2, ["Fact"], [("logical_key", .str "fact:seattle")]⟩]
  relationships := [⟨some 3, "ABOUT", 2, 1, []⟩]

theorem Graph.pathEndpoint_answers (g : Graph) (entities : List String) (maxHops : Int) :
    (g.pathEndpoint maxPath).AnswersPath (pathCypher entities maxHops) "entity:max" := by
  refine ⟨_, _, _, g.pathEndpoint_page maxPath entities maxHops, ?_, _, List.mem_singleton_self _,
    maxPath, List.mem_singleton_self _, by decide, _, Or.inl rfl, by decide⟩
  intro row hrow
  rw [List.mem_singleton.mp hrow]
  rfl

def seattleSeed : List ScoredFact := [{ factId := "seattle", text := "" }]

noncomputable def pathExpander : Expander :=
  { fixtureExpander (moveSteps nine ten) with
    hydra := ⟨"cell-0", ((run fixtureDeployment .initial
      (moveSteps nine ten)).stores.graphStore.graph.pathEndpoint maxPath).respond⟩ }

/-- The node of the second fact, as the expansion sees it at eleven. -/
theorem pathExpander_raw : ∃ row : FactNodeRow,
    pathExpander.rawNodes "chat" seattleSeed = [("fact:seattle", row)] ∧
      row.entityKey = some (.str "entity:max") ∧
      visible eleven.timestamp (chatTtlLimit {} eleven) row = .ok true := by
  have hrows : ((run fixtureDeployment .initial (moveSteps nine ten)).stores.graphStore.graph.nodeRows
        (factGraphId fixtureDeployment.allocator "chat" "seattle")).map (fun row =>
          (row.entityKey, (visible eleven.timestamp (chatTtlLimit {} eleven) row).toOption)) =
      [(some (.str "entity:max"), some true)] := by
    decide +kernel
  obtain ⟨row, rest, hcons, hrow, hrest⟩ := List.map_eq_cons_iff.mp hrows
  obtain rfl := List.map_eq_nil_iff.mp hrest
  obtain ⟨hentity, hvisible⟩ := Prod.mk.inj hrow
  refine ⟨row, ?_, hentity, ?_⟩
  · have hfetch := (run fixtureDeployment .initial
      (moveSteps nine ten)).stores.graphStore.graph.fetchNode_pathEndpoint maxPath
        (factGraphId fixtureDeployment.allocator "chat" "seattle")
    rw [hcons] at hfetch
    have hids : pathExpander.graphIds "chat" seattleSeed =
        [("fact:seattle", factGraphId fixtureDeployment.allocator "chat" "seattle")] := rfl
    unfold Expander.rawNodes
    rw [hids]
    simp only [List.map_cons, List.map_nil]
    rw [show pathExpander.hydra = ⟨"cell-0", ((run fixtureDeployment .initial
      (moveSteps nine ten)).stores.graphStore.graph.pathEndpoint maxPath).respond⟩ from rfl, hfetch]
    rfl
  · cases hcase : visible eleven.timestamp (chatTtlLimit {} eleven) row with
    | error error =>
        rw [hcase] at hvisible
        cases hvisible
    | ok b =>
        rw [hcase] at hvisible
        cases hvisible
        rfl

/-- The expansion of that fact. -/
theorem expand_pathExpander : ∃ seeds' data kept,
    pathExpander.expand {} "chat" seattleSeed {} eleven = .ok (seeds', data) ∧
      keepVisible eleven.timestamp (chatTtlLimit {} eleven)
        (pathExpander.rawNodes "chat" seattleSeed) = .ok kept ∧
      "seattle" ∈ seeds'.map ScoredFact.factId ∧
      entityKeyOf (pathExpander.rawNodes "chat" seattleSeed) "fact:seattle" = some "entity:max" ∧
      QueryService.AnswersPath ((run fixtureDeployment .initial
        (moveSteps nine ten)).stores.graphStore.graph.pathEndpoint maxPath)
        (pathCypher (pathExpander.entities (pathExpander.rawNodes "chat" seattleSeed) kept) 3)
        "entity:max" := by
  obtain ⟨row, hraw, hentity, hvisible⟩ := pathExpander_raw
  have hkept : keepVisible eleven.timestamp (chatTtlLimit {} eleven) [("fact:seattle", row)] =
      .ok [("fact:seattle", row)] := by
    simp only [keepVisible, hvisible]
    rfl
  have hkey : entityKeyOf [("fact:seattle", row)] "fact:seattle" = some "entity:max" := by
    simp [entityKeyOf, hentity]
  have hmem : "seattle" ∈ (Expander.prune [("fact:seattle", row)] seattleSeed).map
      ScoredFact.factId := by
    rw [mem_prune]
    exact ⟨List.mem_singleton_self _, _, List.mem_singleton_self _, rfl⟩
  have hne : Expander.prune [("fact:seattle", row)] seattleSeed ≠ [] := by
    intro hnil
    rw [hnil] at hmem
    cases hmem
  obtain ⟨data, hexpand⟩ : ∃ data, pathExpander.expand {} "chat" seattleSeed {} eleven =
      .ok (Expander.prune [("fact:seattle", row)] seattleSeed, data) := by
    unfold Expander.expand
    rw [if_neg (by decide)]
    simp only [hraw, hkept, if_neg hne]
    exact ⟨_, rfl⟩
  rw [hraw]
  exact ⟨_, data, _, hexpand, hkept, hmem, hkey, Graph.pathEndpoint_answers _ _ _⟩

/-- Max, the fact that he lives in Seattle, and the edge between them: the path
is not counted. -/
theorem path_not_counted : ¬∀ (e : Expander) (service : QueryService) (cellId : String)
    (config : RetrievalConfig) (contextId : String) (seeds seeds' : List ScoredFact)
    (bounds : DateRange) (query : DateTime) (data : List GraphDatum) (kept : List RawNode)
    (factId entity : String), e.hydra = ⟨cellId, service.respond⟩ →
    e.expand config contextId seeds bounds query = .ok (seeds', data) →
    keepVisible query.timestamp (chatTtlLimit config query) (e.rawNodes contextId seeds) =
      .ok kept → factId ∈ seeds'.map ScoredFact.factId →
    entityKeyOf (e.rawNodes contextId seeds) ("fact:" ++ factId) = some entity →
    service.AnswersPath
      (pathCypher (e.entities (e.rawNodes contextId seeds) kept) config.graphMaxHops) entity →
    StructurallyLive e config
      (pathCypher (e.entities (e.rawNodes contextId seeds) kept) config.graphMaxHops) data factId := by
  intro hall
  obtain ⟨seeds', data, kept, hexpand, hkept, hmem, hkey, hanswers⟩ := expand_pathExpander
  obtain ⟨rows, hrows⟩ := (hall pathExpander _ "cell-0" {} "chat" seattleSeed seeds' {} eleven data
    kept "seattle" "entity:max" rfl hexpand hkept hmem hkey hanswers).decoded
  have hread := hanswers.read_error "cell-0"
  rw [show (⟨"cell-0", _⟩ : HydraHttpTransport) = pathExpander.hydra from rfl] at hread
  cases hread.symm.trans hrows

/-- The same request, through the theorem. -/
theorem path_count_zero_seattle : ∃ seeds' data,
    pathExpander.expand {} "chat" seattleSeed {} eleven = .ok (seeds', data) ∧
      "seattle" ∈ seeds'.map ScoredFact.factId ∧
      entityKeyOf (pathExpander.rawNodes "chat" seattleSeed) "fact:seattle" = some "entity:max" ∧
      ∀ datum ∈ data, datum.pathCount = 0 := by
  obtain ⟨seeds', data, kept, hexpand, hkept, hmem, hkey, hanswers⟩ := expand_pathExpander
  exact ⟨seeds', data, hexpand, hmem, hkey,
    (path_count_zero (e := pathExpander) rfl hexpand hkept hmem hanswers).2.1⟩

end ContextMemory
