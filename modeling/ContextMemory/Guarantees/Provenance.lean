/-
Where the facts of the graph come from.

`Sourced` is what every reachable store satisfies: the graph is covered by the manifest,
the registry holds only entities it made itself, and a registered fact carries the id
allocated for its key, the chunk it was extracted from and that chunk's instant in whole
seconds. A closed fact keeps all of this, because the lookup only ever finds facts that
are there: the node that closes a prior fact is merged into the node of that very fact
(`Sourced.prior`).
-/

import ContextMemory.Ingestion.Pipeline
import ContextMemory.Guarantees.Immutability

namespace ContextMemory

open Faulty Manifest

/-- A number that is `==` to an integer reads back as that integer. -/
theorem Scalar.pyInt_of_pyEq {a : Scalar} {n m : Int} (h : a.pyEq (.int n) = true)
    (hm : a.pyInt = some m) : m = n := by
  rw [Scalar.pyEq_iff] at h
  cases a with
  | str value => simp [Scalar.compared] at h
  | int value =>
      simp only [Scalar.compared, Sum.inr.injEq, Rat.intCast_inj] at h
      simp only [Scalar.pyInt, Option.some.injEq] at hm
      omega
  | float value =>
      simp only [Scalar.compared, Sum.inr.injEq] at h
      subst h
      simpa [Scalar.pyInt] using hm.symm
  | bool value =>
      have hcast : ((if value then 1 else 0 : Int) : Rat) = n := by
        cases value <;> simpa [Scalar.compared] using h
      rw [Rat.intCast_inj] at hcast
      simp only [Scalar.pyInt, Option.some.injEq] at hm
      omega

/-! ### Sourced stores -/

/-- A profile the registry made: its id is the one allocated for its name, and it has no
aliases. -/
def OwnProfile (d : Deployment) (p : EntityProfile) : Prop :=
  p.graphId = d.allocator.allocateGraphId "entity" p.contextId ("entity:" ++ p.canonicalName) ∧
    p.aliases = []

/-- The registered properties of a fact, and the stored chunk it was extracted from. -/
structure FactAt (d : Deployment) (chunks : ChunkTable) (id : Nat) (p : Properties)
    (contextId factId : String) (chunk : Chunk) : Prop where
  id_eq : id = factGraphId d.allocator contextId factId
  context : p.lookup "context_id" = some (.str contextId)
  key : p.lookup "logical_key" = some (.str ("fact:" ++ factId))
  source : p.lookup "source_chunk_id" = some (.str chunk.chunkId)
  stored : chunks chunk.chunkId = some chunk
  observed : p.lookup "observed_at" = some (.int chunk.occurredAt.timestamp)
  created : ∃ seconds, p.lookup "created_at" = some (.int seconds)

structure Sourced (d : Deployment) (s : Stores) : Prop where
  covered : Covered s.graphStore
  own : ∀ p ∈ s.profiles, OwnProfile d p
  chunk_id : ∀ {id chunk}, s.chunks id = some chunk → chunk.chunkId = id
  fact : ∀ {id p}, s.graphStore.manifest.entry id = some (.node .fact id p) →
    ∃ contextId factId chunk, FactAt d s.chunks id p contextId factId chunk
  vertex : ∀ {id v}, s.graphStore.graph.nodes id = some v → .fact ∈ v.labels →
    ∃ chunkId, v.props "source_chunk_id" = some (.str chunkId)

theorem sourced_initial (d : Deployment) : Sourced d {} where
  covered := covered_empty
  own p hp := by cases hp
  chunk_id h := by cases h
  fact h := by cases h
  vertex h := by cases h

section Step

variable {d : Deployment} {call : Call} {s : Stores}

/-- The vertex of a fact and the registered fact, side by side. -/
theorem Sourced.entry_of_vertex (hs : Sourced d s) {id : Nat} {v : Vertex}
    (hv : s.graphStore.graph.nodes id = some v) (hfact : NodeLabel.fact ∈ v.labels) :
    ∃ p contextId factId chunk, s.graphStore.manifest.entry id = some (.node .fact id p) ∧
      FactAt d s.chunks id p contextId factId chunk ∧ KeepsValues v.props p.lookup ∧
      v.props "source_chunk_id" = some (.str chunk.chunkId) := by
  obtain ⟨label, p, hentry, hlabels, hvalues⟩ := hs.covered.node hv
  rw [hlabels, Finset.mem_singleton] at hfact
  subst hfact
  obtain ⟨contextId, factId, chunk, hat⟩ := hs.fact hentry
  obtain ⟨chunkId, hsource⟩ := hs.vertex hv (by rw [hlabels]; exact Finset.mem_singleton_self _)
  have hregistered : p.lookup "source_chunk_id" = some (.str chunkId) :=
    hvalues.str (by simp [mutableProperties]) hsource
  refine ⟨p, contextId, factId, chunk, hentry, hat, hvalues, ?_⟩
  rw [hsource, ← hregistered, hat.source]

/-- **The prior fact.** What an update closes is the node the lookup found: a
current fact of the same context and predicate, registered with the chunk it
came from. -/
theorem Sourced.prior (hs : Sourced d s) {contextId : String} {x : Gathered} {u : Update}
    {subject : EntityProfile} {predicateKey : String}
    (h : Builder.Decided s.graphStore.graph contextId x u subject predicateKey) :
    ∃ e ∈ s.graphStore.graph.edges, e.type = .about ∧ e.destination = subject.graphId ∧
      e.source = factGraphId d.allocator contextId u.prior.factId ∧ ∃ v p chunk,
      s.graphStore.graph.nodes e.source = some v ∧
      v.isCurrentFact contextId predicateKey = true ∧
      s.graphStore.manifest.entry e.source = some (.node .fact e.source p) ∧
      FactAt d s.chunks e.source p contextId u.prior.factId chunk ∧
      v.props "source_chunk_id" = some (.str chunk.chunkId) ∧
      v.props "logical_key" = some (.str ("fact:" ++ u.prior.factId)) ∧
      u.prior.observedAt.micros = chunk.occurredAt.timestamp * 1000000 := by
  obtain ⟨e, he, htype, hdestination, v, hv, hcurrent, ⟨logicalKey, key, hlogical, hstr, hprior⟩,
    observedAt, seconds, hobserved, hseconds, hmicros⟩ := h.vertex
  obtain ⟨hfact, hctx, -, -⟩ : NodeLabel.fact ∈ v.labels ∧
      v.props "context_id" = some (.str contextId) ∧
      v.props "predicate_key" = some (.str predicateKey) ∧
      v.props "is_current" = some (.bool true) := by
    simpa [Vertex.isCurrentFact] using hcurrent
  obtain ⟨p, contextId', factId, chunk, hentry, hat, hvalues, hsource⟩ :=
    hs.entry_of_vertex hv hfact
  -- the row's context and key are the registered ones
  have hcontext : contextId' = contextId := by
    have := hvalues.str (by simp [mutableProperties]) hctx
    rw [hat.context] at this
    simpa using this
  subst hcontext
  have hscalar : logicalKey = .str ("fact:" ++ factId) := by
    obtain ⟨b, hb, heq⟩ := hvalues "logical_key" logicalKey (by simp [mutableProperties]) hlogical
    rw [hat.key] at hb
    cases hb
    exact Scalar.pyEq_str (Scalar.pyEq_symm heq)
  subst hscalar
  have hkey : u.prior.factId = factId := by
    cases hstr
    rw [hprior, removePrefix_append]
  have hinstant : seconds = chunk.occurredAt.timestamp := by
    obtain ⟨b, hb, heq⟩ :=
      hvalues "observed_at" observedAt (by simp [mutableProperties]) hobserved
    rw [hat.observed] at hb
    cases hb
    exact Scalar.pyInt_of_pyEq heq hseconds
  subst hkey
  exact ⟨e, he, htype, hdestination, hat.id_eq, v, p, chunk, hv, hcurrent, hentry, hat, hsource,
    hlogical, by rw [hmicros, hinstant]⟩

/-! ### Plans -/

/-- What a plan was assembled from, and that each finding is sound. -/
structure PlannedFrom (d : Deployment) (call : Call) (s : Stores) (extraction : ExtractionResult)
    (plan : GraphWritePlan) (turn : GraphNode) (gs : List Gathered) : Prop where
  turn_ok : turnNode d.allocator (call.chunk d) = .ok turn
  gather_ok : ((call.builder d).gather s.graphStore.graph call.batch.contextId 0 s.profiles
    extraction.accepted).1 = .ok gs
  candidates : gs.map (·.candidate) = extraction.accepted
  mention : ∀ x ∈ gs, ∀ m ∈ x.mentions,
    OwnProfile d m.profile ∧ m.profile.contextId = call.batch.contextId
  update : ∀ x ∈ gs, ∀ u ∈ x.updates, ∃ subject predicateKey,
    Builder.Decided s.graphStore.graph call.batch.contextId x u subject predicateKey
  plan_ok : assemble d.allocator (call.chunk d) call.env.now turn gs = .ok plan

theorem Sourced.planned (hs : Sourced d s) {extraction : ExtractionResult} {plan : GraphWritePlan}
    {profiles : Profiles} (h : call.build d s extraction = (.ok plan, profiles)) :
    ∃ turn gs, PlannedFrom d call s extraction plan turn gs := by
  obtain ⟨turn, gs, hturn, hgather, hplan⟩ := Builder.build_eq_ok h
  obtain ⟨hcandidates, hsound⟩ := (Builder.gather_spec hs.own hgather).2 gs rfl
  exact ⟨turn, gs, hturn, congrArg Prod.fst hgather, hcandidates, fun x hx => (hsound x hx).mention,
    fun x hx => (hsound x hx).update, hplan⟩

/-- Building a plan, whether it succeeds or not, leaves the registry its own. -/
theorem Sourced.build_own (hs : Sourced d s) (extraction : ExtractionResult) :
    ∀ p ∈ (call.build d s extraction).2, OwnProfile d p := by
  unfold Call.build Builder.build
  split
  · exact hs.own
  · split
    · rename_i hgather
      exact (Builder.gather_spec hs.own hgather).1
    · rename_i hgather
      exact (Builder.gather_spec hs.own hgather).1

variable {extraction : ExtractionResult} {plan : GraphWritePlan} {turn : GraphNode}
  {gs : List Gathered}

theorem PlannedFrom.mem_nodes (h : PlannedFrom d call s extraction plan turn gs) {n : GraphNode}
    (hn : GraphRecord.node n ∈ plan.records) :
    n ∈ nodeWrites d.allocator (call.chunk d) call.env.now turn gs := by
  rcases GraphWritePlan.mem_records.mp hn with ⟨k, hk, heq⟩ | ⟨e, -, heq⟩
  · cases heq
    rw [(assemble_eq_ok h.plan_ok).2.1] at hk
    exact Ordered.mem_of_mem_ofAssignments hk
  · cases heq

theorem PlannedFrom.mem_relationships (h : PlannedFrom d call s extraction plan turn gs)
    {e : GraphRelationship} (he : GraphRecord.relationship e ∈ plan.records) :
    e ∈ relationshipWrites d.allocator (call.chunk d) call.env.now turn gs := by
  rcases GraphWritePlan.mem_records.mp he with ⟨k, -, heq⟩ | ⟨k, hk, heq⟩
  · cases heq
  · cases heq
    rw [(assemble_eq_ok h.plan_ok).2.2] at hk
    exact Ordered.mem_of_mem_ofAssignments hk

/-- A `Fact` node of the plan is born from a candidate or closes a prior fact. -/
theorem PlannedFrom.fact_cases (h : PlannedFrom d call s extraction plan turn gs) {n : GraphNode}
    (hn : GraphRecord.node n ∈ plan.records) (hlabel : n.label = .fact) :
    ∃ x ∈ gs, n = factNode d.allocator (call.chunk d) call.env.now x.candidate ∨
      ∃ u ∈ x.updates, n = closedNode d.allocator call.batch.contextId u := by
  obtain ⟨index, -, -, hturn, -⟩ := turnNode_eq_ok h.turn_ok
  exact fact_mem_nodeWrites hturn (h.mem_nodes hn) hlabel

/-- A candidate of the plan was extracted from the chunk. -/
theorem PlannedFrom.candidate_mem (h : PlannedFrom d call s extraction plan turn gs)
    {x : Gathered} (hx : x ∈ gs) : x.candidate ∈ extraction.accepted := by
  rw [← h.candidates]
  exact List.mem_map_of_mem hx

end Step

/-- An accepted candidate is observed when its record occurred. -/
theorem Call.accepted_observedAt {d : Deployment} {call : Call} {extraction : ExtractionResult}
    (h : call.extract d = .ok extraction) {c : ExtractedMemoryCandidate}
    (hc : c ∈ extraction.accepted) : c.temporal.observedAt = call.record.occurredAt := by
  obtain ⟨drafts, -, haccepted⟩ := extractChunk_eq_ok h
  rw [haccepted] at hc
  exact ContextMemory.accepted_observedAt hc

/-- An accepted candidate has the id, the predicate and the bounds of a draft of
the extractor. -/
theorem Call.accepted_draft {d : Deployment} {call : Call} {extraction : ExtractionResult}
    (h : call.extract d = .ok extraction) {c : ExtractedMemoryCandidate}
    (hc : c ∈ extraction.accepted) : ∃ drafts, call.env.extractor.extract call.record = .ok drafts ∧
      ∃ draft ∈ drafts, draft.candidateId = c.candidateId ∧ draft.predicateKey = c.predicateKey ∧
        c.temporal = ⟨call.record.occurredAt, draft.validFrom, draft.validTo⟩ := by
  obtain ⟨drafts, hdrafts, haccepted⟩ := extractChunk_eq_ok h
  rw [haccepted] at hc
  obtain ⟨draft, hdraft, hresolve, -⟩ := mem_acceptedDrafts hc
  obtain ⟨hid, -, htemporal, -, hpredicate⟩ := resolveDraft_eq_ok hresolve
  exact ⟨drafts, hdrafts, draft, hdraft, hid.symm, hpredicate.symm, htemporal⟩

/-! ### Writes keep a store sourced -/

/-- A registered node: as it was, or a node of the plan merged over it. -/
theorem register_node_cases {m m' : Manifest} {plan : GraphWritePlan}
    (h : m.register plan = .ok m') {id : Nat} {label : NodeLabel} {p : Properties}
    (hentry : m'.entry id = some (.node label id p)) :
    m.entry id = some (.node label id p) ∨ ∃ n, GraphRecord.node n ∈ plan.records ∧
      n.graphId = id ∧ n.label = label ∧ ((m.entry id = none ∧ p = n.properties) ∨
        ∃ old, m.entry id = some (.node label id old) ∧ Compatible old n.properties ∧
          p = old.merge n.properties) := by
  by_cases hid : id ∈ plan.records.map (·.graphId)
  · obtain ⟨r, hr, rfl⟩ := List.mem_map.mp hid
    cases r with
    | node n =>
        refine Or.inr ⟨n, hr, rfl, ?_⟩
        rcases register_node h hr with ⟨hnone, hafter⟩ | ⟨old, hsome, hcompatible, hafter⟩
        · rw [show m'.entry n.graphId = _ from hentry] at hafter
          cases hafter
          exact ⟨rfl, Or.inl ⟨hnone, rfl⟩⟩
        · rw [show m'.entry n.graphId = _ from hentry] at hafter
          cases hafter
          exact ⟨rfl, Or.inr ⟨old, hsome, hcompatible, rfl⟩⟩
    | relationship e =>
        have hafter := (register_relationship h hr).2
        rw [show m'.entry e.graphId = _ from hentry] at hafter
        cases hafter
  · exact Or.inl (by rw [← (register_entry h).2 id hid, hentry])

section Write

variable {d : Deployment} {call : Call} {s : Stores} {extraction : ExtractionResult}
  {plan : GraphWritePlan} {turn : GraphNode} {gs : List Gathered} {m : Manifest}

/-- The chunk of the call is stored, at the instant of its record. -/
def ChunkStored (d : Deployment) (call : Call) (chunks : ChunkTable) : Prop :=
  ∃ stored, chunks (call.chunk d).chunkId = some stored ∧
    stored.occurredAt.micros = call.record.occurredAt.micros

/-- The properties of a fact's birth, merged over whatever was there. -/
theorem factAt_birth (hs : Sourced d s) (hextract : call.extract d = .ok extraction)
    (hstored : ChunkStored d call s.chunks) {c : ExtractedMemoryCandidate}
    (hc : c ∈ extraction.accepted) {p : Properties} (hp : ∀ key value,
      (factNode d.allocator (call.chunk d) call.env.now c).properties.lookup key = some value →
        p.lookup key = some value) :
    ∃ stored, FactAt d s.chunks (factGraphId d.allocator call.batch.contextId c.candidateId) p
      call.batch.contextId c.candidateId stored ∧ stored.chunkId = (call.chunk d).chunkId := by
  obtain ⟨stored, hrow, hinstant⟩ := hstored
  have hid : stored.chunkId = (call.chunk d).chunkId := hs.chunk_id hrow
  have hseconds : stored.occurredAt.timestamp = c.temporal.observedAt.timestamp := by
    rw [Call.accepted_observedAt hextract hc, DateTime.timestamp, DateTime.timestamp, hinstant]
  refine ⟨stored, ⟨rfl, hp _ _ ?_, hp _ _ ?_, hp _ _ ?_, by rw [hid, hrow], hp _ _ ?_,
    call.env.now.timestamp, hp _ _ (lookup_factNode ?_)⟩, hid⟩
  · exact lookup_factNode_context c
  · exact lookup_factNode (by simp [factFields])
  · rw [hid]
    exact lookup_factNode (by simp [factFields])
  · rw [hseconds]
    exact lookup_factNode (by simp [factFields])
  · simp [factFields]

/-- Closing a prior fact keeps where it came from. -/
theorem factAt_closed (hs : Sourced d s) {contextId : String} {x : Gathered} {u : Update}
    {subject : EntityProfile} {predicateKey : String}
    (h : Builder.Decided s.graphStore.graph contextId x u subject predicateKey) :
    ∃ old chunk, s.graphStore.manifest.entry (factGraphId d.allocator contextId u.prior.factId) =
        some (.node .fact (factGraphId d.allocator contextId u.prior.factId) old) ∧
      FactAt d s.chunks (factGraphId d.allocator contextId u.prior.factId)
        (old.merge (closedNode d.allocator contextId u).properties) contextId u.prior.factId chunk := by
  obtain ⟨e, -, -, -, hid, v, old, chunk, -, -, hentry, hat, -⟩ := hs.prior h
  rw [hid] at hentry hat
  have hkept : ∀ key, key ∉ ["context_id", "logical_key", "is_current", "superseded_at", "valid_to"] →
      (old.merge (closedNode d.allocator contextId u).properties).lookup key = old.lookup key := by
    intro key hkey
    rw [Properties.lookup_merge, lookup_closedNode_of_not_mem hkey, Option.none_or]
  refine ⟨old, chunk, hentry, rfl, ?_, ?_, ?_, hat.stored, ?_, ?_⟩
  · rw [Properties.lookup_merge, lookup_closedNode_context]
    rfl
  · have hkey : (closedNode d.allocator contextId u).properties.lookup "logical_key" =
        some (.str ("fact:" ++ u.prior.factId)) := lookup_closedNode (by simp [closedFields])
    rw [Properties.lookup_merge, hkey]
    rfl
  · rw [hkept _ (by simp), hat.source]
  · rw [hkept _ (by simp), hat.observed]
  · obtain ⟨seconds, hcreated⟩ := hat.created
    exact ⟨seconds, by rw [hkept _ (by simp), hcreated]⟩

/-- **One write** of a plan of the pipeline keeps the store sourced. -/
theorem Sourced.wrote (hs : Sourced d s) (hplan : PlannedFrom d call s extraction plan turn gs)
    (hextract : call.extract d = .ok extraction) (hstored : ChunkStored d call s.chunks)
    {graphStore : GraphStore} (h : Wrote plan s.graphStore graphStore) :
    Sourced d { s with graphStore } := by
  have hcovered : Covered graphStore := (wrote_kept hs.covered h).1
  rcases h with rfl | ⟨m, done, hsome⟩
  · exact ⟨hs.covered, hs.own, hs.chunk_id, hs.fact, hs.vertex⟩
  have hmanifest : graphStore.manifest = m := by rw [hsome.state_eq]
  have hgraph : graphStore.graph = s.graphStore.graph.writeRecords done := by rw [hsome.state_eq]
  refine ⟨hcovered, hs.own, hs.chunk_id, fun {id p} hentry => ?_, fun {id v} hv hlabel => ?_⟩
  · change graphStore.manifest.entry id = _ at hentry
    rw [hmanifest] at hentry
    rcases register_node_cases hsome.registered hentry with hold | ⟨n, hn, rfl, hlabel, hcases⟩
    · exact hs.fact hold
    · obtain ⟨x, hx, rfl | ⟨u, hu, rfl⟩⟩ := hplan.fact_cases hn hlabel
      · -- a fact is born: its node has every field itself
        have hwins : ∀ key value, (factNode d.allocator (call.chunk d) call.env.now
            x.candidate).properties.lookup key = some value → p.lookup key = some value := by
          intro key value hvalue
          rcases hcases with ⟨-, rfl⟩ | ⟨old, -, -, rfl⟩
          · exact hvalue
          · rw [Properties.lookup_merge, hvalue]
            rfl
        obtain ⟨stored, hat, -⟩ :=
          factAt_birth hs hextract hstored (hplan.candidate_mem hx) hwins
        exact ⟨_, _, stored, hat⟩
      · -- a prior fact is closed: it was registered, and the rest of it is kept
        obtain ⟨subject, predicateKey, hdecided⟩ := hplan.update x hx u hu
        obtain ⟨old, chunk, hold, hat⟩ := factAt_closed hs hdecided
        rcases hcases with ⟨hnone, -⟩ | ⟨old', hold', -, rfl⟩
        · cases hnone.symm.trans hold
        · cases hold.symm.trans hold'
          exact ⟨_, _, chunk, hat⟩
  · change graphStore.graph.nodes id = _ at hv
    rw [hgraph] at hv
    rcases writeRecords_nodes_cases hsome.sound s.graphStore.graph id with hsame |
      ⟨n, hn, rfl, hmerged⟩
    · exact hs.vertex (hsame ▸ hv) hlabel
    · rw [hmerged] at hv
      cases hv
      have hfact : n.label = .fact := by
        obtain ⟨label, p, -, hlabels, -⟩ := hcovered.node (by rw [hgraph]; exact hmerged)
        rw [hlabels, Finset.mem_singleton] at hlabel
        have hmem : n.label ∈ (Vertex.merge (s.graphStore.graph.nodes n.graphId) n.label
            n.properties).labels := Finset.mem_insert_self _ _
        rw [hlabels, Finset.mem_singleton] at hmem
        rw [hmem, hlabel]
      obtain ⟨x, hx, rfl | ⟨u, hu, rfl⟩⟩ := hplan.fact_cases (hsome.sound _ hn) hfact
      · refine ⟨(call.chunk d).chunkId, ?_⟩
        have hsource : (factNode d.allocator (call.chunk d) call.env.now
            x.candidate).properties.lookup "source_chunk_id" =
              some (.str (call.chunk d).chunkId) := lookup_factNode (by simp [factFields])
        simp only [Vertex.merge, Properties.assign, hsource, Option.some_or]
      · obtain ⟨subject, predicateKey, hdecided⟩ := hplan.update x hx u hu
        obtain ⟨e, -, -, -, hid, v, -, chunk, hv, -, -, -, hsource, -⟩ := hs.prior hdecided
        refine ⟨chunk.chunkId, ?_⟩
        rw [hid] at hv
        have hold : s.graphStore.graph.nodes (closedNode d.allocator call.batch.contextId u).graphId =
            some v := hv
        simp only [Vertex.merge, Properties.assign, hold, Option.getD_some]
        rw [lookup_closedNode_of_not_mem (by simp), hsource]
        rfl

/-- Whatever an attempt leaves is sourced. -/
theorem Sourced.effect (hs : Sourced d s) (hstored : ChunkStored d call s.chunks) {s' : Stores}
    (h : Effect d call s s') : Sourced d s' := by
  have hown : ∀ p ∈ s'.profiles, OwnProfile d p := by
    rcases h.profiles with hsame | ⟨extraction, -, hsame⟩
    · rw [hsame]
      exact hs.own
    · rw [hsame]
      exact hs.build_own extraction
  obtain ⟨hchunks, hgraph⟩ := h.graph
  rcases hgraph with hsame | ⟨extraction, plan, profiles, hextract, hbuild, hwrote⟩
  · refine ⟨?_, hown, ?_, ?_, ?_⟩
    · rw [hsame]
      exact hs.covered
    · rw [hchunks]
      exact hs.chunk_id
    · rw [hsame, hchunks]
      exact hs.fact
    · rw [hsame]
      exact hs.vertex
  · obtain ⟨turn, gs, hplan⟩ := hs.planned hbuild
    have hnext := hs.wrote hplan hextract hstored hwrote
    refine ⟨hnext.covered, hown, ?_, ?_, hnext.vertex⟩
    · rw [hchunks]
      exact hnext.chunk_id
    · rw [hchunks]
      exact hnext.fact

end Write

/-! ### Runs -/

section Runs

variable {d : Deployment} {call : Call}

/-- An accepted chunk is stored, and every chunk stored before it still is. -/
theorem put_stored {chunks chunks' : ChunkTable} {jobs jobs' : JobTable}
    (h : chunks.put jobs (call.chunk d) = .ok (chunks', jobs')) :
    ChunkStored d call chunks' ∧ ∀ {id chunk}, chunks id = some chunk → chunks' id = some chunk := by
  rcases ChunkTable.put_eq_ok h with ⟨stored, hrow, hsame, rfl, -⟩ | ⟨hnone, -, rfl, -⟩
  · exact ⟨⟨stored, hrow, sameChunk_occurredAt hsame⟩, fun hrow => hrow⟩
  · refine ⟨⟨call.chunk d, Function.update_self _ _ _, rfl⟩, fun {id chunk} hrow => ?_⟩
    have hne : id ≠ (call.chunk d).chunkId := by
      rintro rfl
      cases hnone.symm.trans hrow
    rw [Function.update_of_ne hne]
    exact hrow

theorem Sourced.put {s : Stores} (hs : Sourced d s) {chunks : ChunkTable} {jobs jobs' : JobTable}
    (h : s.chunks.put jobs (call.chunk d) = .ok (chunks, jobs')) :
    Sourced d { s with chunks } := by
  obtain ⟨-, hkept⟩ := put_stored h
  refine ⟨hs.covered, hs.own, fun {id chunk} hrow => ?_, fun {id p} hentry => ?_, hs.vertex⟩
  · rcases ChunkTable.put_eq_ok h with ⟨stored, -, -, rfl, -⟩ | ⟨-, -, rfl, -⟩
    · exact hs.chunk_id hrow
    · by_cases hid : id = (call.chunk d).chunkId
      · subst hid
        have hself : call.chunk d = chunk := by simpa using hrow
        rw [hself]
      · exact hs.chunk_id (by simpa [Function.update_of_ne hid] using hrow)
  · obtain ⟨contextId, factId, chunk, hat⟩ := hs.fact hentry
    exact ⟨contextId, factId, chunk, { hat with stored := hkept hat.stored }⟩

/-- **Provenance.** Every step keeps the stores sourced, so every reachable
store is. -/
theorem sourced_step {w : World Stores} (hw : Sourced d w.stores) (t : Step) :
    Sourced d (step d w t).stores := by
  cases t with
  | ingest call faults =>
      rcases @runRecord_effect d call w faults with hsame | ⟨chunks, jobs, hput, heffect⟩
      · change Sourced d (call.runRecord d w faults).state.stores
        rw [hsame]
        exact hw
      · exact (hw.put hput).effect (put_stored hput).1 heffect
  | restart => exact ⟨hw.covered, by simp [step], hw.chunk_id, hw.fact, hw.vertex⟩
  | operator chunkId state error =>
      simp only [step]
      split <;> exact hw

theorem sourced_run (d : Deployment) (steps : List Step) :
    Sourced d (run d .initial steps).stores :=
  run_invariant (P := fun w => Sourced d w.stores) (sourced_initial d)
    (fun _ t hw => sourced_step hw t) steps

/-- A step that wrote to the graph: the plan it wrote, from the stores it started from. -/
structure Written (d : Deployment) (w w' : World Stores) (call : Call)
    (extraction : ExtractionResult) (plan : GraphWritePlan) (turn : GraphNode)
    (gs : List Gathered) : Prop where
  extract_ok : call.extract d = .ok extraction
  planned : PlannedFrom d call w.stores extraction plan turn gs
  wrote : Wrote plan w.stores.graphStore w'.stores.graphStore
  stored : ChunkStored d call w'.stores.chunks

/-- Everything a step does to chunks and graph: chunks are only added, and the
graph is left alone unless a call wrote its plan. -/
theorem step_cases {w : World Stores} (hw : Sourced d w.stores) (t : Step) :
    (∀ {id chunk}, w.stores.chunks id = some chunk →
        (step d w t).stores.chunks id = some chunk) ∧
      ((step d w t).stores.graphStore = w.stores.graphStore ∨
        ∃ call faults extraction plan turn gs, t = .ingest call faults ∧
          Written d w (step d w t) call extraction plan turn gs) := by
  cases t with
  | ingest call faults =>
      rcases @runRecord_effect d call w faults with hsame | ⟨chunks, jobs, hput, heffect⟩
      · have hstores : (step d w (.ingest call faults)).stores = w.stores := hsame
        rw [hstores]
        exact ⟨fun hrow => hrow, Or.inl rfl⟩
      · obtain ⟨hchunks, hgraph⟩ := heffect.graph
        obtain ⟨hstored, hkept⟩ := put_stored hput
        have hchunks' : (step d w (.ingest call faults)).stores.chunks = chunks := hchunks
        refine ⟨fun hrow => by rw [hchunks']; exact hkept hrow, ?_⟩
        rcases hgraph with hsame | ⟨extraction, plan, profiles, hextract, hbuild, hwrote⟩
        · exact Or.inl hsame
        · obtain ⟨turn, gs, hplan⟩ := (hw.put hput).planned hbuild
          refine Or.inr ⟨call, faults, extraction, plan, turn, gs, rfl, hextract, ?_, hwrote, ?_⟩
          · exact ⟨hplan.turn_ok, hplan.gather_ok, hplan.candidates, hplan.mention, hplan.update,
              hplan.plan_ok⟩
          · rw [hchunks']
            exact hstored
  | restart => exact ⟨fun hrow => hrow, Or.inl rfl⟩
  | operator chunkId state error =>
      simp only [step]
      split <;> exact ⟨fun hrow => hrow, Or.inl rfl⟩

/-- A chunk that is stored after a step was stored before, or is the chunk of
the call. -/
theorem chunk_of_step {w : World Stores} (t : Step) {id : String} {chunk : Chunk}
    (h : (step d w t).stores.chunks id = some chunk) :
    w.stores.chunks id = some chunk ∨ ∃ call faults, t = .ingest call faults ∧
      chunk = call.chunk d := by
  cases t with
  | ingest call faults =>
      rcases @runRecord_effect d call w faults with hsame | ⟨chunks, jobs, hput, heffect⟩
      · have hstores : (step d w (.ingest call faults)).stores = w.stores := hsame
        rw [hstores] at h
        exact Or.inl h
      · have hchunks : (step d w (.ingest call faults)).stores.chunks = chunks := heffect.graph.1
        rw [hchunks] at h
        rcases ChunkTable.put_eq_ok hput with ⟨-, -, -, rfl, -⟩ | ⟨-, -, rfl, -⟩
        · exact Or.inl h
        · by_cases hid : id = (call.chunk d).chunkId
          · subst hid
            rw [Function.update_self] at h
            exact Or.inr ⟨call, faults, rfl, (Option.some.inj h).symm⟩
          · rw [Function.update_of_ne hid] at h
            exact Or.inl h
  | restart => exact Or.inl h
  | operator chunkId state error =>
      simp only [step] at h
      split at h <;> exact Or.inl h

/-- A node after a step: as it was, or a node of the written plan merged over
it. -/
theorem vertex_cases {w : World Stores} (hw : Sourced d w.stores) {t : Step} {id : Nat}
    {v' : Vertex} (hv' : (step d w t).stores.graphStore.graph.nodes id = some v') :
    w.stores.graphStore.graph.nodes id = some v' ∨ ∃ call faults extraction plan turn gs m done n,
      t = .ingest call faults ∧ Written d w (step d w t) call extraction plan turn gs ∧
      WroteSome plan w.stores.graphStore (step d w t).stores.graphStore m done ∧
      GraphRecord.node n ∈ done ∧ n.graphId = id ∧ v'.labels = {n.label} ∧
      v' = Vertex.merge (w.stores.graphStore.graph.nodes id) n.label n.properties := by
  have hcovered := (sourced_step hw t).covered
  obtain ⟨-, hcases⟩ := step_cases hw t
  rcases hcases with hsame | ⟨call, faults, extraction, plan, turn, gs, rfl, hwritten⟩
  · rw [hsame] at hv'
    exact Or.inl hv'
  rcases hwritten.wrote with hsame | ⟨m, done, hsome⟩
  · rw [hsame] at hv'
    exact Or.inl hv'
  have hgraph : (step d w (.ingest call faults)).stores.graphStore.graph =
      w.stores.graphStore.graph.writeRecords done := by rw [hsome.state_eq]
  rcases writeRecords_nodes_cases hsome.sound w.stores.graphStore.graph id with hold |
    ⟨n, hn, rfl, hmerged⟩
  · rw [hgraph, hold] at hv'
    exact Or.inl hv'
  have hvertex : v' = Vertex.merge (w.stores.graphStore.graph.nodes n.graphId) n.label
      n.properties := by
    rw [hgraph, hmerged] at hv'
    exact (Option.some.inj hv').symm
  -- a node has one label, and that of the record is among those of the merged vertex
  have hlabels : v'.labels = {n.label} := by
    obtain ⟨label, p, -, hlabels, -⟩ := hcovered.node hv'
    have hmem : n.label ∈ v'.labels := by
      rw [hvertex]
      exact Finset.mem_insert_self _ _
    rw [hlabels, Finset.mem_singleton] at hmem
    rw [hlabels, hmem]
  exact Or.inr ⟨call, faults, extraction, plan, turn, gs, m, done, n, rfl, hwritten, hsome, hn, rfl,
    hlabels, hvertex⟩

/-- A fact node after a step: as it was, or merged with its birth values or with
the values that close it. -/
theorem fact_vertex_cases {w : World Stores} (hw : Sourced d w.stores) {t : Step} {id : Nat}
    {v' : Vertex} (hv' : (step d w t).stores.graphStore.graph.nodes id = some v')
    (hlabel : NodeLabel.fact ∈ v'.labels) :
    w.stores.graphStore.graph.nodes id = some v' ∨ ∃ call faults extraction plan turn gs m done,
      t = .ingest call faults ∧ Written d w (step d w t) call extraction plan turn gs ∧
      WroteSome plan w.stores.graphStore (step d w t).stores.graphStore m done ∧ ∃ x ∈ gs,
      (GraphRecord.node (factNode d.allocator (call.chunk d) call.env.now x.candidate) ∈ done ∧
        id = factGraphId d.allocator call.batch.contextId x.candidate.candidateId ∧
        v' = Vertex.merge (w.stores.graphStore.graph.nodes id) .fact
          (factNode d.allocator (call.chunk d) call.env.now x.candidate).properties) ∨
      ∃ u ∈ x.updates, id = factGraphId d.allocator call.batch.contextId u.prior.factId ∧
        v' = Vertex.merge (w.stores.graphStore.graph.nodes id) .fact
          (closedNode d.allocator call.batch.contextId u).properties := by
  rcases vertex_cases hw hv' with hold | ⟨call, faults, extraction, plan, turn, gs, m, done, n,
    rfl, hwritten, hsome, hn, rfl, hlabels, hvertex⟩
  · exact Or.inl hold
  have hfact : n.label = .fact := by
    rw [hlabels, Finset.mem_singleton] at hlabel
    exact hlabel.symm
  refine Or.inr ⟨call, faults, extraction, plan, turn, gs, m, done, rfl, hwritten, hsome, ?_⟩
  obtain ⟨x, hx, rfl | ⟨u, hu, rfl⟩⟩ := hwritten.planned.fact_cases (hsome.sound _ hn) hfact
  · exact ⟨x, hx, Or.inl ⟨hn, rfl, hvertex⟩⟩
  · exact ⟨x, hx, Or.inr ⟨u, hu, rfl, hvertex⟩⟩

/-- What a step keeps of the graph. -/
theorem step_kept {w : World Stores} (hw : Sourced d w.stores) (t : Step) :
    Kept w.stores.graphStore (step d w t).stores.graphStore := by
  rcases (step_cases hw t).2 with hsame | ⟨call, faults, extraction, plan, turn, gs, -, hwritten⟩
  · rw [hsame]
    exact Kept.refl _
  · exact (wrote_kept hw.covered hwritten.wrote).2

end Runs

end ContextMemory
