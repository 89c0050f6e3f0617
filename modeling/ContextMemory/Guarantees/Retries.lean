/-
How often a retried chunk has its facts.

Every identity of a fact (graph id, manifest key, embedding key, search key) comes from its
candidate id, and the production extractor draws new ids in every attempt. So an attempt
adds one fact for each accepted item to whatever the attempts before it left, and the chunk
has each fact once exactly when they left nothing (`facts_once_iff`).
-/

import Mathlib.Data.Set.Card
import ContextMemory.Guarantees.Supersession
import ContextMemory.Guarantees.Completion
import ContextMemory.Guarantees.Reextraction

namespace ContextMemory

open Faulty Manifest

/-! ### The facts of a chunk -/

/-- The `Fact` nodes of a chunk. -/
def graphFacts (s : Stores) (chunkId : String) : Set Nat :=
  {id | ∃ v, s.graphStore.graph.nodes id = some v ∧ NodeLabel.fact ∈ v.labels ∧
    v.props "source_chunk_id" = some (.str chunkId)}

/-- The fact embeddings of a chunk. -/
def embeddedFacts (s : Stores) (chunkId : String) : Set EmbeddingKey :=
  {key | key.subjectKind = .fact ∧ ∃ row, s.embeddings key = some row ∧ row.sourceChunkId = chunkId}

/-- The facts of a chunk that the search index has. -/
def indexedFacts (d : Deployment) (s : Stores) (contextId chunkId : String) : Set String :=
  {factId | (∃ row, s.searchIndex factId = some row ∧ row.contextId = contextId) ∧
    factGraphId d.allocator contextId factId ∈ graphFacts s chunkId}

/-- Ids that nothing stored has. -/
structure FreshIds (d : Deployment) (s : Stores) (contextId : String) (ids : List String) :
    Prop where
  nodup : ids.Nodup
  node : ∀ id ∈ ids, s.graphStore.graph.nodes (factGraphId d.allocator contextId id) = none
  embedding : ∀ key row, s.embeddings key = some row → key.subjectId ∉ ids
  search : ∀ id ∈ ids, s.searchIndex id = none

/-- Adding a list of new members leaves as many as it has exactly if there were
none. -/
theorem encard_union_list {α : Type} {old : Set α} {xs : List α} (hnodup : xs.Nodup)
    (hnew : ∀ x ∈ xs, x ∉ old) : (old ∪ {x | x ∈ xs}).encard = xs.length ↔ old = ∅ := by
  classical
  have hlist : ({x | x ∈ xs} : Set α).encard = xs.length := by
    have hset : {x | x ∈ xs} = (xs.toFinset : Set α) := by
      ext x
      simp
    rw [hset, Set.encard_coe_eq_coe_finsetCard, List.toFinset_card_of_nodup hnodup]
  have hdisjoint : Disjoint old {x | x ∈ xs} :=
    Set.disjoint_left.mpr fun x hold hx => hnew x hx hold
  rw [Set.encard_union_eq hdisjoint, hlist, ← Set.encard_eq_zero]
  constructor
  · intro h
    have hzero : old.encard + (xs.length : ℕ∞) = 0 + xs.length := by rw [h, zero_add]
    exact (WithTop.add_right_inj (ENat.natCast_ne_top xs.length)).mp hzero
  · intro h
    rw [h, zero_add]

/-! ### What an attempt adds -/

section Attempt

variable {d : Deployment} {call : Call} {s : Stores} {extraction : ExtractionResult}
  {plan : GraphWritePlan} {turn : GraphNode} {gs : List Gathered}

/-- The node a plan has at the id of a fact: the birth of a candidate, or the
closing of a fact that the graph holds. -/
theorem PlannedFrom.node_at_fact (hs : Sourced d s)
    (h : PlannedFrom d call s extraction plan turn gs) {n : GraphNode}
    (hn : n ∈ nodeWrites d.allocator (call.chunk d) call.env.now turn gs) {factId : String}
    (hid : n.graphId = factGraphId d.allocator call.batch.contextId factId) :
    (∃ x ∈ gs, n = factNode d.allocator (call.chunk d) call.env.now x.candidate) ∨
      ∃ v, s.graphStore.graph.nodes n.graphId = some v := by
  have hkind : ∀ kind contextId key, kind ≠ "fact" →
      n.graphId ≠ d.allocator.allocateGraphId kind contextId key := by
    intro kind contextId key hne heq
    exact hne (d.allocator.injective (heq.symm.trans hid)).1
  rcases mem_nodeWrites hn with rfl | rfl | rfl | ⟨x, hx, hfact | ⟨m, hm, hn⟩ | ⟨u, hu, rfl⟩⟩
  · exact absurd rfl (hkind _ _ _ (by decide))
  · obtain ⟨index, -, hturn, -⟩ := turnNode_eq_ok h.turn_ok
    exact absurd hturn (hkind _ _ _ (by decide))
  · exact absurd rfl (hkind _ _ _ (by decide))
  · exact Or.inl ⟨x, hx, hfact⟩
  · obtain ⟨hown, haliases⟩ := (h.mention x hx m hm).1
    rcases hn with rfl | ⟨r, hr, -⟩
    · exact absurd hown (hkind _ _ _ (by decide))
    · rw [aliasRecords, haliases] at hr
      cases hr
  · obtain ⟨subject, predicateKey, hdecided⟩ := h.update x hx u hu
    obtain ⟨e, -, -, -, hsource, v, -, -, hv, -⟩ := hs.prior hdecided
    refine Or.inr ⟨v, ?_⟩
    rw [← hv, hsource]
    rfl

/-- A new candidate has its fact once its plan is written. -/
theorem WroteAll.birth (hs : Sourced d s) (hplan : PlannedFrom d call s extraction plan turn gs)
    {t : GraphStore} (h : WroteAll plan s.graphStore t) {c : ExtractedMemoryCandidate}
    (hc : c ∈ extraction.accepted) (hnew : s.graphStore.graph.nodes
      (factGraphId d.allocator call.batch.contextId c.candidateId) = none) :
    ∃ v, t.graph.nodes (factGraphId d.allocator call.batch.contextId c.candidateId) = some v ∧
      NodeLabel.fact ∈ v.labels ∧
      v.props "source_chunk_id" = some (.str (call.chunk d).chunkId) := by
  obtain ⟨m, done, hsome, hall⟩ := h
  obtain ⟨x, hx, rfl, n, hn, hnid⟩ := hplan.fact_node hc
  have hrecord : GraphRecord.node n ∈ plan.records :=
    GraphWritePlan.mem_records.mpr (Or.inl ⟨n, hn, rfl⟩)
  have hmerged := writeRecords_nodes_of_mem (g := s.graphStore.graph) (hall _ hrecord)
    fun k hk hsame => GraphWritePlan.node_eq (hsome.sound _ hk) hrecord hsame
  rcases hplan.node_at_fact hs (hplan.mem_nodes hrecord) hnid with ⟨x', hx', rfl⟩ | ⟨v, hv⟩
  · rw [hsome.state_eq, ← hnid]
    refine ⟨_, hmerged, Finset.mem_insert_self _ _, merge_factNode ?_⟩
    simp [factFields]
  · rw [hnid, hnew] at hv
    cases hv

/-- A call that completed its job has finished, from the stores it found and
with its chunk stored. -/
theorem finished_of_done {w : World Stores} {faults : List (Fault Exn)}
    (hopen : ¬ w.jobs.Done (call.chunk d).chunkId)
    (hdone : (step d w (.ingest call faults)).jobs.Done (call.chunk d).chunkId) :
    ∃ chunks jobs extraction plan vectors,
      w.stores.chunks.put w.jobs (call.chunk d) = .ok (chunks, jobs) ∧
      Finished d call { w.stores with chunks } (step d w (.ingest call faults)).stores extraction
        plan vectors := by
  rcases @runRecord_ran d call w faults with ⟨-, hjobs⟩ | ⟨chunks, jobs, hput, -, haccounted⟩
  · rw [show (step d w (.ingest call faults)).jobs = w.jobs from hjobs] at hdone
    exact absurd hdone hopen
  · rcases haccounted _ hdone with hbefore | ⟨-, extraction, plan, vectors, hfinished⟩
    · exact absurd hbefore hopen
    · exact ⟨chunks, jobs, extraction, plan, vectors, hput, hfinished⟩

variable {w : World Stores} {faults : List (Fault Exn)} {vectors : List (List Rat)}
  {chunks : ChunkTable} {jobs : JobTable}

/-- The nodes: those of before, and one for each accepted candidate. -/
theorem graphFacts_finished (hw : Sourced d w.stores)
    (hput : w.stores.chunks.put w.jobs (call.chunk d) = .ok (chunks, jobs))
    (h : Finished d call { w.stores with chunks } (step d w (.ingest call faults)).stores extraction
      plan vectors)
    (hfresh : FreshIds d w.stores call.batch.contextId
      (extraction.accepted.map (·.candidateId))) :
    graphFacts (step d w (.ingest call faults)).stores (call.chunk d).chunkId =
      graphFacts w.stores (call.chunk d).chunkId ∪
        {id | id ∈ (extraction.accepted.map (·.candidateId)).map
          (factGraphId d.allocator call.batch.contextId)} := by
  apply Set.Subset.antisymm
  · rintro id ⟨v, hv, hlabel, hsource⟩
    rcases fact_vertex_cases hw hv hlabel with hold |
      ⟨call', faults', extraction', plan', turn, gs, m, done, ht, hwritten, -, x, hx, hcase⟩
    · exact Or.inl ⟨v, hold, hlabel, hsource⟩
    · cases ht
      have hsame : extraction' = extraction :=
        Except.ok.inj (hwritten.extract_ok.symm.trans h.extract_ok)
      subst hsame
      rcases hcase with ⟨-, rfl, -⟩ | ⟨u, hu, rfl, hmerged⟩
      · exact Or.inr (List.mem_map_of_mem (List.mem_map_of_mem (hwritten.planned.candidate_mem hx)))
      · -- a closed fact keeps the chunk it came from
        obtain ⟨subject, predicateKey, hdecided⟩ := hwritten.planned.update x hx u hu
        obtain ⟨e, -, -, -, hid, v₀, p, chunk, hv₀, hcurrent, -, -, hsource₀, -⟩ :=
          hw.prior hdecided
        rw [hid] at hv₀
        have hfact : NodeLabel.fact ∈ v₀.labels := by
          simp only [Vertex.isCurrentFact, decide_eq_true_eq] at hcurrent
          tauto
        refine Or.inl ⟨v₀, hv₀, hfact, ?_⟩
        rw [← hsource, hmerged, hv₀]
        exact (merge_closedNode_of_not_mem (by simp)).symm
  · rintro id (⟨v, hv, hlabel, hsource⟩ | hid)
    · obtain ⟨v', hv', hlabels, hvalues⟩ := (step_kept hw (.ingest call faults)).node hv
      exact ⟨v', hv', hlabels ▸ hlabel, hvalues.str (by simp [mutableProperties]) hsource⟩
    · obtain ⟨factId, hfactId, rfl⟩ := List.mem_map.mp hid
      obtain ⟨c, hc, rfl⟩ := List.mem_map.mp hfactId
      obtain ⟨profiles, hbuild, -⟩ := h.build_ok
      obtain ⟨turn, gs, hplan⟩ := (hw.put hput).planned hbuild
      exact WroteAll.birth (hw.put hput) hplan h.written hc (hfresh.node _ hfactId)

/-- The embeddings likewise. -/
theorem embeddedFacts_finished
    (h : Finished d call { w.stores with chunks } (step d w (.ingest call faults)).stores extraction
      plan vectors) (hembed : call.env.embedder.OnePerText)
    (hfresh : FreshIds d w.stores call.batch.contextId
      (extraction.accepted.map (·.candidateId))) :
    embeddedFacts (step d w (.ingest call faults)).stores (call.chunk d).chunkId =
      embeddedFacts w.stores (call.chunk d).chunkId ∪
        {key | key ∈ extraction.accepted.map call.embeddingKey} := by
  apply Set.Subset.antisymm
  · rintro key ⟨hkind, row, hrow, hsource⟩
    rcases h.indexed.embedding_new hrow with hold | ⟨item, hitem, rfl, -⟩
    · exact Or.inl ⟨hkind, row, hold, hsource⟩
    · exact Or.inr (List.mem_map_of_mem (List.of_mem_zip hitem).1)
  · rintro key (⟨hkind, row, hrow, hsource⟩ | hkey)
    · exact ⟨hkind, row, h.indexed.embedding_kept hrow, hsource⟩
    · obtain ⟨c, hc, rfl⟩ := List.mem_map.mp hkey
      obtain ⟨⟨row, hrow, -⟩, -⟩ := (h.delivered hembed).rows c hc
      refine ⟨rfl, row, hrow, ?_⟩
      rcases h.indexed.embedding_new hrow with hold | ⟨item, hitem, -, rfl⟩
      · exact absurd (List.mem_map_of_mem hc) (hfresh.embedding _ _ hold)
      · rfl

/-- The search index has a row of the context for each accepted candidate. -/
theorem search_finished
    (h : Finished d call { w.stores with chunks } (step d w (.ingest call faults)).stores extraction
      plan vectors) (hembed : call.env.embedder.OnePerText)
    (hfresh : FreshIds d w.stores call.batch.contextId
      (extraction.accepted.map (·.candidateId))) {factId : String}
    (hid : factId ∈ extraction.accepted.map (·.candidateId)) :
    ∃ row, (step d w (.ingest call faults)).stores.searchIndex factId = some row ∧
      row.contextId = call.batch.contextId := by
  obtain ⟨c, hc, rfl⟩ := List.mem_map.mp hid
  obtain ⟨-, row, hrow⟩ := (h.delivered hembed).rows c hc
  refine ⟨row, hrow, ?_⟩
  have hnone : w.stores.searchIndex c.candidateId = none := hfresh.search _ hid
  rcases h.indexed.search_new hrow with hold | ⟨item, hitem, -, -, -, hctx⟩
  · rw [hnone] at hold
    cases hold
  · exact hctx hnone

/-- **Counting.** After an attempt that finished with new ids, the chunk has as
many facts as the attempt accepted, in all three stores, exactly if it had none
before. -/
theorem counts_finished (hw : Sourced d w.stores)
    (hput : w.stores.chunks.put w.jobs (call.chunk d) = .ok (chunks, jobs))
    (h : Finished d call { w.stores with chunks } (step d w (.ingest call faults)).stores extraction
      plan vectors) (hembed : call.env.embedder.OnePerText)
    (hfresh : FreshIds d w.stores call.batch.contextId
      (extraction.accepted.map (·.candidateId))) :
    ((graphFacts (step d w (.ingest call faults)).stores (call.chunk d).chunkId).encard =
          extraction.accepted.length ∧
        (embeddedFacts (step d w (.ingest call faults)).stores (call.chunk d).chunkId).encard =
          extraction.accepted.length ∧
        (indexedFacts d (step d w (.ingest call faults)).stores call.batch.contextId
          (call.chunk d).chunkId).encard = extraction.accepted.length) ↔
      graphFacts w.stores (call.chunk d).chunkId = ∅ ∧
        embeddedFacts w.stores (call.chunk d).chunkId = ∅ := by
  have hids : ∀ id ∈ (extraction.accepted.map (·.candidateId)).map
      (factGraphId d.allocator call.batch.contextId),
      id ∉ graphFacts w.stores (call.chunk d).chunkId := by
    rintro id hid ⟨v, hv, -⟩
    obtain ⟨factId, hfactId, rfl⟩ := List.mem_map.mp hid
    rw [hfresh.node _ hfactId] at hv
    cases hv
  have hgraph := encard_union_list
    (hfresh.nodup.map (factGraphId_injective d.allocator call.batch.contextId)) hids
  rw [← graphFacts_finished hw hput h hfresh, List.length_map, List.length_map] at hgraph
  have hkeys : (extraction.accepted.map call.embeddingKey).Nodup := by
    apply List.Nodup.of_map EmbeddingKey.subjectId
    rw [List.map_map]
    exact hfresh.nodup
  have hkeysNew : ∀ key ∈ extraction.accepted.map call.embeddingKey,
      key ∉ embeddedFacts w.stores (call.chunk d).chunkId := by
    rintro key hkey ⟨-, row, hrow, -⟩
    obtain ⟨c, hc, rfl⟩ := List.mem_map.mp hkey
    exact hfresh.embedding _ row hrow (List.mem_map_of_mem hc)
  have hembedded := encard_union_list hkeys hkeysNew
  rw [← embeddedFacts_finished h hembed hfresh, List.length_map] at hembedded
  -- with no older facts, the search index has just the new ones
  have hindexed : graphFacts w.stores (call.chunk d).chunkId = ∅ →
      (indexedFacts d (step d w (.ingest call faults)).stores call.batch.contextId
        (call.chunk d).chunkId).encard = extraction.accepted.length := by
    intro hempty
    have hset : indexedFacts d (step d w (.ingest call faults)).stores call.batch.contextId
        (call.chunk d).chunkId = ∅ ∪ {id | id ∈ extraction.accepted.map (·.candidateId)} := by
      rw [Set.empty_union]
      ext factId
      have hmem : factGraphId d.allocator call.batch.contextId factId ∈
          graphFacts (step d w (.ingest call faults)).stores (call.chunk d).chunkId ↔
          factId ∈ extraction.accepted.map (·.candidateId) := by
        rw [graphFacts_finished hw hput h hfresh, hempty, Set.empty_union]
        exact List.mem_map_of_injective (factGraphId_injective d.allocator call.batch.contextId)
      exact ⟨fun hfact => hmem.mp hfact.2,
        fun hid => ⟨search_finished h hembed hfresh hid, hmem.mpr hid⟩⟩
    have hcount := (encard_union_list hfresh.nodup
      fun id _ => Set.notMem_empty id).mpr rfl
    rw [hset, hcount, List.length_map]
  constructor
  · rintro ⟨hg, he, -⟩
    exact ⟨hgraph.mp hg, hembedded.mp he⟩
  · rintro ⟨hg, he⟩
    exact ⟨hgraph.mpr hg, hembedded.mpr he, hindexed hg⟩

end Attempt

/-! ### The items of a response -/

/-- How many items of the response are accepted for the record; a blank record is not asked
about. -/
def itemCount (batch : ContextBatch) (record : ContextRecord) (response : FactExtractionResponse) :
    Nat :=
  if isBlank record.content then 0
  else (acceptedDrafts batch record
    (draftsOf record.content (fun _ => "") 0 response.facts)).length

/-- An item resolves, whatever id it drew, to a candidate with its own span and
time. -/
theorem resolveDraft_item (batch : ContextBatch) (record : ContextRecord) (content : String)
    {item : ExtractedFactItem} (h : strip item.text ≠ "") (uuid4 : String) :
    ∃ c, resolveDraft batch record (item.draft content uuid4 h) = .ok c ∧
      c.sourceSpan = ⟨record.recordId, (quoteSpan content item.quote).1,
        (quoteSpan content item.quote).2⟩ ∧
      c.temporal = ⟨record.occurredAt, none, none⟩ :=
  ⟨_, rfl, rfl, rfl⟩

/-- A candidate is validated by its span and its time. -/
theorem validateCandidate_congr {c c' : ExtractedMemoryCandidate} (hspan : c.sourceSpan = c'.sourceSpan)
    (htemporal : c.temporal = c'.temporal) (records : List ContextRecord) :
    validateCandidate c records = validateCandidate c' records := by
  unfold validateCandidate
  rw [hspan, htemporal]

/-- The id that was drawn has no say in whether an item is accepted. -/
theorem accepted_item (batch : ContextBatch) (record : ContextRecord) (content : String)
    {item : ExtractedFactItem} (h : strip item.text ≠ "") (uuid4 uuid4' : String) :
    (assessDraft batch record (item.draft content uuid4 h)).toOption.isSome =
      (assessDraft batch record (item.draft content uuid4' h)).toOption.isSome := by
  obtain ⟨c, hc, hspan, htemporal⟩ := resolveDraft_item batch record content h uuid4
  obtain ⟨c', hc', hspan', htemporal'⟩ := resolveDraft_item batch record content h uuid4'
  have hvalid := validateCandidate_congr (hspan.trans hspan'.symm) (htemporal.trans htemporal'.symm)
    batch.records
  simp only [assessDraft, hc, hc', hvalid]
  cases validateCandidate c' batch.records <;> rfl

theorem length_accepted_draftsOf (batch : ContextBatch) (record : ContextRecord) (content : String)
    (ids ids' : Nat → String) (i j : Nat) (items : List ExtractedFactItem) :
    (acceptedDrafts batch record (draftsOf content ids i items)).length =
      (acceptedDrafts batch record (draftsOf content ids' j items)).length := by
  induction items generalizing i j with
  | nil => rfl
  | cons item rest ih =>
      unfold draftsOf
      split
      · exact ih i j
      · rename_i htext
        have hsame := accepted_item batch record content htext (ids i) (ids' j)
        have hrest := ih (i + 1) (j + 1)
        unfold acceptedDrafts at hrest ⊢
        rw [List.filterMap_cons, List.filterMap_cons]
        cases hfirst : (assessDraft batch record (item.draft content (ids i) htext)).toOption with
        | none =>
            have hnone : (assessDraft batch record
                (item.draft content (ids' j) htext)).toOption = none := by
              apply Option.not_isSome_iff_eq_none.mp
              rw [← hsame, hfirst]
              simp
            rw [hnone]
            exact hrest
        | some c =>
            rw [hfirst] at hsame
            obtain ⟨c', hc'⟩ := Option.isSome_iff_exists.mp hsame.symm
            rw [hc']
            simp only [List.length_cons, hrest]

/-- The extraction of a record that the model answered accepts the items of the
response. -/
theorem length_accepted_extract {llm : LLMExtractor} {session : LLMSession} {batch : ContextBatch}
    {record : ContextRecord} {response : FactExtractionResponse}
    (h : llm.complete session record = .ok response) :
    (acceptedDrafts batch record (llm.extract session record)).length =
      itemCount batch record response := by
  unfold LLMExtractor.extract itemCount
  split
  · rfl
  · rw [h]
    exact length_accepted_draftsOf batch record record.content _ _ 0 0 response.facts

/-! ### Retries -/

/-- The chunk of the record has one fact for each accepted item of the response: in the graph, in
the embeddings and in the search index. -/
def FactsOnce (d : Deployment) (s : Stores) (batch : ContextBatch) (record : ContextRecord)
    (response : FactExtractionResponse) : Prop :=
  let chunkId := chunkIdFor d.sha256 batch.contextId record.recordId
  (graphFacts s chunkId).encard = itemCount batch record response ∧
    (embeddedFacts s chunkId).encard = itemCount batch record response ∧
    (indexedFacts d s batch.contextId chunkId).encard = itemCount batch record response

/-- An attempt that got no record into the graph brought no embedding and no row
of the search index either. -/
theorem untouched_of_unwritten {d : Deployment} {call : Call} {w w' : World Stores}
    {faults : List (Fault Exn)} (hw : Sourced d w.stores) (hstep : step d w (.ingest call faults) = w')
    (h : w'.stores.graphStore.written = w.stores.graphStore.written) :
    w'.stores.graphStore.graph = w.stores.graphStore.graph ∧
      (∀ key row, w'.stores.embeddings key = some row → w.stores.embeddings key = some row) ∧
      ∀ id row, w'.stores.searchIndex id = some row → w.stores.searchIndex id = some row := by
  have hrun : (call.runRecord d w faults).state = w' := hstep
  have heffect := @runRecord_effect d call w faults
  rw [hrun] at heffect
  rcases heffect with hsame | ⟨chunks, jobs, hput, heffect⟩
  · rw [hsame]
    exact ⟨rfl, fun _ _ hrow => hrow, fun _ _ hrow => hrow⟩
  · have hnil {plan : GraphWritePlan} {m : Manifest} {done : List GraphRecord}
        (hsome : WroteSome plan w.stores.graphStore w'.stores.graphStore m done) : done = [] := by
      rw [hsome.state_eq] at h
      exact List.append_right_eq_self.mp h
    cases heffect with
    | extracted audit hs' =>
        rw [hs']
        exact ⟨rfl, fun _ _ hrow => hrow, fun _ _ hrow => hrow⟩
    | planned audit hextract hbuild hs' =>
        rw [hs']
        exact ⟨rfl, fun _ _ hrow => hrow, fun _ _ hrow => hrow⟩
    | @wrote _ plan _ graphStore audit hextract hbuild hwrote hs' =>
        refine ⟨?_, fun _ _ hrow => by rwa [hs'] at hrow, fun _ _ hrow => by rwa [hs'] at hrow⟩
        obtain rfl : w'.stores.graphStore = graphStore := congrArg Stores.graphStore hs'
        rcases hwrote with hsame | ⟨m, done, hsome⟩
        · rw [hsame]
        · rw [hsome.state_eq, hnil hsome]
          rfl
    | @indexed extraction plan _ graphStore vectors audit hextract hbuild hwrote hvectors hindexed hs' =>
        obtain rfl : w'.stores.graphStore = graphStore := congrArg Stores.graphStore hs'
        obtain ⟨m, done, hsome, hall⟩ := hwrote
        obtain rfl := hnil hsome
        obtain ⟨turn, gs, hplan⟩ := (hw.put hput).planned hbuild
        -- An accepted candidate would have got its node into the graph.
        have hnone {item : ExtractedMemoryCandidate × List Rat}
            (hitem : item ∈ extraction.accepted.zip vectors) : False := by
          obtain ⟨x, hx, -, n, hn, -⟩ := hplan.fact_node (List.of_mem_zip hitem).1
          exact absurd (hall _ (GraphWritePlan.mem_records.mpr (.inl ⟨n, hn, rfl⟩))) List.not_mem_nil
        refine ⟨by rw [hsome.state_eq]; rfl, fun key row hrow => ?_, fun id row hrow => ?_⟩
        · exact (hindexed.embedding_new hrow).resolve_right fun ⟨_, hitem, _⟩ => hnone hitem
        · exact (hindexed.search_new hrow).resolve_right fun ⟨_, hitem, _⟩ => hnone hitem

theorem FreshIds.sublist {d : Deployment} {s : Stores} {contextId : String} {ids ids' : List String}
    (h : FreshIds d s contextId ids) (hsub : ids'.Sublist ids) : FreshIds d s contextId ids' where
  nodup := h.nodup.sublist hsub
  node id hid := h.node id (hsub.subset hid)
  embedding key row hrow hmem := h.embedding key row hrow (hsub.subset hmem)
  search id hid := h.search id (hsub.subset hid)

/-- **Retries.** After any run (the failed attempts of this chunk among it), let
an attempt with the production extractor complete the chunk, the ids it draws
being new. Then the chunk has one fact for each accepted item exactly if nothing
of it was in the graph or embedded before. The ids are drawn anew in each
attempt and every key derives from them, so nothing that a failed attempt left
is ever found again. -/
theorem facts_once_iff (d : Deployment) (steps : List Step) (env : Env) (llm : LLMExtractor)
    (session : ContextRecord → LLMSession) (route : Route) {batch : ContextBatch}
    {record : ContextRecord} (hmem : record ∈ batch.records) {response : FactExtractionResponse}
    (hresponse : llm.complete (session record) record = .ok response)
    (hembed : env.embedder.OnePerText) (faults : List (Fault Exn))
    (hfresh : FreshIds d (run d .initial steps).stores batch.contextId
      ((llm.extract (session record) record).map (·.candidateId)))
    (hopen : ¬ (run d .initial steps).jobs.Done
      (chunkIdFor d.sha256 batch.contextId record.recordId))
    (hdone : (run d .initial (steps ++
        [.ingest (llmCall env llm session route batch record) faults])).jobs.Done
      (chunkIdFor d.sha256 batch.contextId record.recordId)) :
    FactsOnce d (run d .initial (steps ++
        [.ingest (llmCall env llm session route batch record) faults])).stores batch record
        response ↔
      graphFacts (run d .initial steps).stores
          (chunkIdFor d.sha256 batch.contextId record.recordId) = ∅ ∧
        embeddedFacts (run d .initial steps).stores
          (chunkIdFor d.sha256 batch.contextId record.recordId) = ∅ := by
  rw [run_append, run_singleton] at hdone ⊢
  have hcall := @finished_of_done d (llmCall env llm session route batch record)
    (run d .initial steps) faults hopen hdone
  obtain ⟨chunks, jobs, extraction, plan, vectors, hput, hfinished⟩ := hcall
  have haccepted : extraction.accepted =
      acceptedDrafts batch record (llm.extract (session record) record) := by
    obtain ⟨drafts, hdrafts, haccepted⟩ := extractChunk_eq_ok hfinished.extract_ok
    have hextract : (llm.via session batch route).extract record = .ok drafts := hdrafts
    rw [llm.via_extract session hmem route] at hextract
    cases hextract
    exact haccepted
  have hcount : extraction.accepted.length = itemCount batch record response := by
    rw [haccepted]
    exact length_accepted_extract hresponse
  have hnew : FreshIds d (run d .initial steps).stores batch.contextId
      (extraction.accepted.map (·.candidateId)) := by
    rw [haccepted]
    exact hfresh.sublist (acceptedDrafts_ids batch record _)
  have hiff := counts_finished (sourced_run d steps) hput hfinished hembed hnew
  rw [hcount] at hiff
  unfold FactsOnce
  exact hiff

/-! ### One turn, twice -/

/-- The model answers, and the extraction draws this id. -/
def answered (uuid4 : String) : LLMSession where
  provider _ _ := .ok ⟨some bostonAnswer, some "stop"⟩
  uuid4 _ := uuid4

/-- The schema accepts the answer. -/
theorem fixtureLlm_parse : fixtureLlm.client.parse fixtureLlm.schema
    ⟨some bostonAnswer, some "stop"⟩ = .ok bostonResponse := by
  decide +kernel

theorem fixtureLlm_answered (uuid4 : String) (record : ContextRecord) :
    fixtureLlm.complete (answered uuid4) record = .ok bostonResponse :=
  LLMClient.structuredCompletion_of_answer _ _ _ rfl fixtureLlm_parse

/-- An attempt at the first turn that draws this id. -/
abbrev bostonAttempt (env : Env) (uuid4 : String) (faults : List (Fault Exn)) : Step :=
  .ingest (llmCall env fixtureLlm (fun _ => answered uuid4) .direct (moveBatch nine ten)
    (bostonRecord nine)) faults

/-- The chunk of the first turn. -/
abbrev bostonChunkId : String :=
  chunkIdFor fixtureDeployment.sha256 (moveBatch nine ten).contextId (bostonRecord nine).recordId

def embedderDown : Env :=
  { fixtureEnv 1767258001 [] with
    embedder := { modelName := "fixture", embed := fun _ => .error (.provider "503") } }

/-- The draft of the one item, under the id that was drawn. -/
def itemDraft (candidateId : String) (h : candidateId ≠ "") : ExtractionDraft where
  candidateId := candidateId
  text := "Max lives in Boston."
  sourceStart := 0
  sourceEnd := 20
  confidence := 1
  memoryType := some .semantic
  scopeType := some .user
  scopeId := some "user"
  entities := seattleDraft.entities
  candidateId_ne := h
  text_ne := (bostonRecord nine).content_ne
  confidence_unit := seattleDraft.confidence_unit
  scopeId_ne := (bostonRecord nine).actorRole_ne

theorem extract_first : fixtureLlm.extract (answered "0a1b2c3d4e5f") (bostonRecord nine) =
    [itemDraft "cand-0a1b2c3d4e5f" (by decide)] := by
  decide +kernel

theorem extract_second : fixtureLlm.extract (answered "5f4e3d2c1b0a") (bostonRecord nine) =
    [itemDraft "cand-5f4e3d2c1b0a" (by decide)] := by
  decide +kernel

/-- An attempt whose extractor hands over these drafts. -/
abbrev handing (env : Env) (drafts : List ExtractionDraft) (faults : List (Fault Exn)) : Step :=
  .ingest ⟨{ env with extractor := { extract := fun _ => .ok drafts } }, moveBatch nine ten,
    bostonRecord nine⟩ faults

/-- All a run sees of the extraction is its drafts. -/
theorem step_bostonAttempt (w : World Stores) (env : Env) {uuid4 : String} (faults : List (Fault Exn))
    {drafts : List ExtractionDraft}
    (h : fixtureLlm.extract (answered uuid4) (bostonRecord nine) = drafts) :
    step fixtureDeployment w (bostonAttempt env uuid4 faults) =
      step fixtureDeployment w (handing env drafts faults) := by
  have hrun := runRecord_of_extract fixtureDeployment env (moveBatch nine ten) (bostonRecord nine)
    (x := fixtureLlm.via (fun _ => answered uuid4) (moveBatch nine ten) .direct)
    (y := { extract := fun _ => .ok drafts }) rfl rfl (congrArg Except.ok h)
  exact congrArg (fun p => (p w faults).state) hrun

theorem graphFacts_of_empty {s : Stores} {chunkId : String} (h : s.graphStore.graph = {}) :
    graphFacts s chunkId = ∅ := by
  refine Set.eq_empty_of_forall_notMem fun id ⟨v, hv, _⟩ => ?_
  rw [h] at hv
  cases hv

theorem embeddedFacts_of_empty {s : Stores} {chunkId : String}
    (h : ∀ key row, s.embeddings key ≠ some row) : embeddedFacts s chunkId = ∅ :=
  Set.eq_empty_of_forall_notMem fun key ⟨_, row, hrow, _⟩ => h key row hrow

/-- An attempt that the graph refuses at its first write. -/
def refusedAttempt : Step :=
  bostonAttempt (fixtureEnv 1767258001 []) "0a1b2c3d4e5f"
    (List.replicate 4 .none ++ [.refuse (.provider "reset")])

/-- The first attempt is refused, the second completes. -/
def refusedSteps : List Step :=
  [refusedAttempt] ++ [bostonAttempt (fixtureEnv 1767258002 []) "5f4e3d2c1b0a" []]

theorem run_refused : run fixtureDeployment .initial [refusedAttempt] =
    step fixtureDeployment .initial (handing (fixtureEnv 1767258001 [])
      [itemDraft "cand-0a1b2c3d4e5f" (by decide)]
      (List.replicate 4 .none ++ [.refuse (.provider "reset")])) := by
  rw [run_singleton, refusedAttempt, step_bostonAttempt _ _ _ extract_first]

/-- It leaves its job to be retried. -/
theorem refused_job : ((run fixtureDeployment .initial [refusedAttempt]).jobs bostonChunkId).map
    (·.state) = some .retryableFailed := by
  rw [run_refused]
  decide +kernel

theorem refused_unwritten : (run fixtureDeployment .initial [refusedAttempt]).stores.graphStore.written =
    [] := by
  rw [run_refused]
  decide +kernel

theorem refused_untouched :
    (run fixtureDeployment .initial [refusedAttempt]).stores.graphStore.graph = {} ∧
      (∀ key row, (run fixtureDeployment .initial [refusedAttempt]).stores.embeddings key ≠ some row) ∧
      ∀ id row, (run fixtureDeployment .initial [refusedAttempt]).stores.searchIndex id ≠ some row := by
  have hunwritten := refused_unwritten
  have hstep := (run_singleton fixtureDeployment .initial refusedAttempt).symm
  generalize run fixtureDeployment .initial [refusedAttempt] = w at hunwritten hstep ⊢
  obtain ⟨hgraph, hembeddings, hsearch⟩ :=
    untouched_of_unwritten (sourced_initial fixtureDeployment) hstep hunwritten
  refine ⟨hgraph, fun key row hrow => ?_, fun id row hrow => ?_⟩
  · cases hembeddings key row hrow
  · cases hsearch id row hrow

theorem refused_done :
    (run fixtureDeployment .initial refusedSteps).jobs.Done bostonChunkId := by
  rw [refusedSteps, run_append, run_refused, run_singleton, step_bostonAttempt _ _ _ extract_second,
    JobTable.done_iff]
  decide +kernel

/-- A refused attempt and one that completes: the chunk has its fact once. -/
theorem facts_once_boston :
    ((run fixtureDeployment .initial [refusedAttempt]).jobs bostonChunkId).map (·.state) =
        some .retryableFailed ∧
      FactsOnce fixtureDeployment (run fixtureDeployment .initial refusedSteps).stores
        (moveBatch nine ten) (bostonRecord nine) bostonResponse := by
  obtain ⟨hgraph, hembeddings, hsearch⟩ := refused_untouched
  have hfresh : FreshIds fixtureDeployment (run fixtureDeployment .initial [refusedAttempt]).stores
      (moveBatch nine ten).contextId
      ((fixtureLlm.extract (answered "5f4e3d2c1b0a") (bostonRecord nine)).map (·.candidateId)) :=
    { nodup := by rw [extract_second]; simp
      node := fun id _ => by rw [hgraph]
      embedding := fun key row hrow => absurd hrow (hembeddings key row)
      search := fun id _ => Option.eq_none_iff_forall_ne_some.mpr (hsearch id) }
  have hopen : ¬ (run fixtureDeployment .initial [refusedAttempt]).jobs.Done bostonChunkId := by
    rw [JobTable.done_iff, refused_job]
    decide
  have hiff := facts_once_iff fixtureDeployment [refusedAttempt] (fixtureEnv 1767258002 []) fixtureLlm
    (fun _ => answered "5f4e3d2c1b0a") .direct List.mem_cons_self
    (fixtureLlm_answered _ (bostonRecord nine)) (fun _ h => by cases h) [] hfresh hopen refused_done
  exact ⟨refused_job, hiff.mpr ⟨graphFacts_of_empty hgraph, embeddedFacts_of_empty hembeddings⟩⟩

/-- The first attempt fails after the graph write, the second completes. -/
def retriedSteps : List Step :=
  [bostonAttempt embedderDown "0a1b2c3d4e5f" [],
    bostonAttempt (fixtureEnv 1767258002 []) "5f4e3d2c1b0a" []]

theorem mem_graphFacts {s : Stores} {id : Nat} {chunkId : String}
    (h : (s.graphStore.graph.nodes id).any (fun v => decide (NodeLabel.fact ∈ v.labels ∧
      v.props "source_chunk_id" = some (.str chunkId))) = true) : id ∈ graphFacts s chunkId := by
  obtain ⟨v, hv, hfact⟩ := (Option.any_eq_true _ _).mp h
  exact ⟨v, hv, of_decide_eq_true hfact⟩

theorem run_retriedSteps : run fixtureDeployment .initial retriedSteps =
    run fixtureDeployment .initial
      [handing embedderDown [itemDraft "cand-0a1b2c3d4e5f" (by decide)] [],
        handing (fixtureEnv 1767258002 []) [itemDraft "cand-5f4e3d2c1b0a" (by decide)] []] := by
  unfold retriedSteps run
  rw [List.foldl_cons, List.foldl_cons, List.foldl_cons, List.foldl_cons,
    step_bostonAttempt _ _ _ extract_first, step_bostonAttempt _ _ _ extract_second]

theorem retried_done : (run fixtureDeployment .initial retriedSteps).jobs.Done bostonChunkId := by
  rw [run_retriedSteps, JobTable.done_iff]
  decide +kernel

theorem retried_first : factGraphId fixtureDeployment.allocator "chat" "cand-0a1b2c3d4e5f" ∈
    graphFacts (run fixtureDeployment .initial retriedSteps).stores bostonChunkId := by
  rw [run_retriedSteps]
  exact mem_graphFacts (by decide +kernel)

theorem retried_second : factGraphId fixtureDeployment.allocator "chat" "cand-5f4e3d2c1b0a" ∈
    graphFacts (run fixtureDeployment .initial retriedSteps).stores bostonChunkId := by
  rw [run_retriedSteps]
  exact mem_graphFacts (by decide +kernel)

theorem itemCount_boston : itemCount (moveBatch nine ten) (bostonRecord nine) bostonResponse = 1 := by
  decide +kernel

/-- The same response, one accepted item, two attempts: two facts. -/
theorem retry_duplicates_fact :
    fixtureLlm.complete (answered "0a1b2c3d4e5f") (bostonRecord nine) = .ok bostonResponse ∧
      fixtureLlm.complete (answered "5f4e3d2c1b0a") (bostonRecord nine) = .ok bostonResponse ∧
      itemCount (moveBatch nine ten) (bostonRecord nine) bostonResponse = 1 ∧
      (run fixtureDeployment .initial retriedSteps).jobs.Done bostonChunkId ∧
      ¬ FactsOnce fixtureDeployment (run fixtureDeployment .initial retriedSteps).stores
        (moveBatch nine ten) (bostonRecord nine) bostonResponse := by
  refine ⟨fixtureLlm_answered _ _, fixtureLlm_answered _ _, itemCount_boston, retried_done, ?_⟩
  intro honce
  have hgraph := honce.1
  rw [itemCount_boston] at hgraph
  obtain ⟨id, hid⟩ := Set.encard_eq_one.mp hgraph
  have hboth : ∀ {a b}, a ∈ graphFacts (run fixtureDeployment .initial retriedSteps).stores
      bostonChunkId → b ∈ graphFacts (run fixtureDeployment .initial retriedSteps).stores
      bostonChunkId → a = b := by
    intro a b ha hb
    rw [hid, Set.mem_singleton_iff] at ha hb
    rw [ha, hb]
  have hsame := factGraphId_injective _ _ (hboth retried_first retried_second)
  exact absurd hsame (by decide)

end ContextMemory
