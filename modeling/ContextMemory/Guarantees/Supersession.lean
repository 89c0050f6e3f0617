/-
What a `SUPERSEDES` edge connects.

The classifier only lets a fact supersede one that was observed strictly before it, of
the same subject and predicate. What it is given for the prior fact, though, came back
through the graph: the observation in whole seconds, and the subject and predicate of
the query. So an edge goes to an earlier record as long as dropping the fraction of a
second does not put a fact before a record it is not before (`supersedes_earlier`), and
it stays with one subject as long as every current fact is found only through the entity
it was ingested with (`supersedes_same_subject`).
-/

import Mathlib.Logic.Relation
import ContextMemory.Ingestion.Fixture
import ContextMemory.Guarantees.Provenance

namespace ContextMemory

open Faulty Manifest

/-- The node of a fact and the stored chunk it was extracted from. -/
structure FactOf (s : Stores) (id : Nat) (chunk : Chunk) : Prop where
  vertex : ∃ v, s.graphStore.graph.nodes id = some v ∧ .fact ∈ v.labels ∧
    v.props "source_chunk_id" = some (.str chunk.chunkId)
  stored : s.chunks chunk.chunkId = some chunk

/-- A `SUPERSEDES` edge from `a` to `b`. -/
def Graph.Supersedes (g : Graph) (a b : Nat) : Prop :=
  ∃ e ∈ g.edges, e.type = .supersedes ∧ e.source = a ∧ e.destination = b

theorem FactOf.unique {s : Stores} {id : Nat} {chunk chunk' : Chunk} (h : FactOf s id chunk)
    (h' : FactOf s id chunk') : chunk = chunk' := by
  obtain ⟨v, hv, -, hsource⟩ := h.vertex
  obtain ⟨v', hv', -, hsource'⟩ := h'.vertex
  obtain rfl : v = v' := Option.some.inj (hv.symm.trans hv')
  have hid : chunk.chunkId = chunk'.chunkId := by
    rw [hsource] at hsource'
    simpa using hsource'
  have hrow := h'.stored
  rw [← hid, h.stored] at hrow
  exact Option.some.inj hrow

/-- The stored chunk a fact node names. -/
def Stores.chunkOfFact (s : Stores) (id : Nat) : Option Chunk :=
  match (s.graphStore.graph.nodes id).bind (·.props "source_chunk_id") with
  | some (.str chunkId) => s.chunks chunkId
  | _ => none

theorem FactOf.chunkOfFact_eq {s : Stores} {id : Nat} {chunk : Chunk} (h : FactOf s id chunk) :
    s.chunkOfFact id = some chunk := by
  obtain ⟨v, hv, -, hsource⟩ := h.vertex
  unfold Stores.chunkOfFact
  rw [hv, Option.bind_some, hsource]
  exact h.stored

/-! ### The edges of the builder -/

theorem plainEdge_edgeKey (allocator : GraphIdAllocator) (type : RelationshipType)
    (kind contextId head tail : String) (source destination : GraphNode) (hhead : head ≠ "") :
    (plainEdge allocator type kind contextId head tail source destination hhead).edgeKey =
      some ⟨type, source.graphId, destination.graphId,
        allocator.allocateGraphId kind contextId (head ++ tail)⟩ := by
  have hnone : ∀ key, key ≠ "context_id" → (plainEdge allocator type kind contextId head tail source
      destination hhead).properties.lookup key = none := by
    intro key hkey
    refine (lookup_fields_of_not_mem (by simp)).trans ?_
    rw [Finmap.lookup_eq_none, Finmap.mem_singleton]
    exact hkey
  unfold GraphRelationship.edgeKey shadowedId
  rw [hnone "source_id" (by simp), hnone "destination_id" (by simp)]
  rfl

theorem factNode_mem_nodeWrites {allocator : GraphIdAllocator} {chunk : Chunk} {now : DateTime}
    {turn : GraphNode} {gs : List Gathered} {x : Gathered} (hx : x ∈ gs) :
    factNode allocator chunk now x.candidate ∈ nodeWrites allocator chunk now turn gs := by
  unfold nodeWrites gatheredNodes
  refine List.mem_append_right _ (List.mem_flatMap.mpr ⟨x, hx, ?_⟩)
  exact List.mem_append_left _ List.mem_cons_self

/-- The plan has a node under the id of each accepted candidate. -/
theorem PlannedFrom.fact_node {d : Deployment} {call : Call} {s : Stores}
    {extraction : ExtractionResult} {plan : GraphWritePlan} {turn : GraphNode} {gs : List Gathered}
    (h : PlannedFrom d call s extraction plan turn gs) {c : ExtractedMemoryCandidate}
    (hc : c ∈ extraction.accepted) : ∃ x ∈ gs, x.candidate = c ∧ ∃ n ∈ plan.nodes,
      n.graphId = factGraphId d.allocator call.batch.contextId c.candidateId := by
  rw [← h.candidates] at hc
  obtain ⟨x, hx, rfl⟩ := List.mem_map.mp hc
  have hid : factGraphId d.allocator call.batch.contextId x.candidate.candidateId ∈
      plan.nodes.map GraphNode.graphId := by
    rw [(assemble_eq_ok h.plan_ok).2.1, Ordered.mem_keys_ofAssignments]
    exact List.mem_map_of_mem (f := GraphNode.graphId) (factNode_mem_nodeWrites hx)
  obtain ⟨n, hn, hnid⟩ := List.mem_map.mp hid
  exact ⟨x, hx, rfl, n, hn, hnid⟩

theorem closedNode_mem_nodeWrites {allocator : GraphIdAllocator} {chunk : Chunk} {now : DateTime}
    {turn : GraphNode} {gs : List Gathered} {x : Gathered} (hx : x ∈ gs) {u : Update}
    (hu : u ∈ x.updates) :
    closedNode allocator chunk.contextId u ∈ nodeWrites allocator chunk now turn gs := by
  unfold nodeWrites gatheredNodes
  refine List.mem_append_right _ (List.mem_flatMap.mpr ⟨x, hx, ?_⟩)
  exact List.mem_append_right _ (List.mem_map.mpr ⟨u, hu, rfl⟩)

section Written

variable {d : Deployment} {w w' : World Stores} {call : Call} {extraction : ExtractionResult}
  {plan : GraphWritePlan} {turn : GraphNode} {gs : List Gathered}

/-- A `SUPERSEDES` edge after a write: it was there, or it is one of the updates
of the plan, and then all nodes of the plan were written and both its ends are
facts. -/
theorem Written.supersedes_cases (h : Written d w w' call extraction plan turn gs) {a b : Nat}
    (hedge : w'.stores.graphStore.graph.Supersedes a b) :
    w.stores.graphStore.graph.Supersedes a b ∨ ∃ m done, WroteSome plan w.stores.graphStore
        w'.stores.graphStore m done ∧ (∀ n ∈ plan.nodes, GraphRecord.node n ∈ done) ∧
      ∃ x ∈ gs, ∃ u ∈ x.updates,
        a = factGraphId d.allocator call.batch.contextId x.candidate.candidateId ∧
        b = factGraphId d.allocator call.batch.contextId u.prior.factId ∧
        w'.stores.graphStore.graph.hasLabel a .fact = true := by
  obtain ⟨e, he, htype, rfl, rfl⟩ := hedge
  rcases h.wrote with hsame | ⟨m, done, hsome⟩
  · rw [hsame] at he
    exact Or.inl ⟨e, he, htype, rfl, rfl⟩
  have hgraph : w'.stores.graphStore.graph = w.stores.graphStore.graph.writeRecords done := by
    rw [hsome.state_eq]
  have hthere : (w.stores.graphStore.graph.writeRecords done).edge e.key = some e.props := by
    rw [← hgraph]
    exact Graph.edge_of_mem he
  rcases writeRecords_edge_cases hsome.sound w.stores.graphStore.graph e.key with hold |
    ⟨r, hr, hkey, -⟩
  · rw [hold] at hthere
    obtain ⟨e', he', hkey', -⟩ := Graph.exists_mem_of_edge hthere
    have hends : e'.type = e.type ∧ e'.source = e.source ∧ e'.destination = e.destination := by
      simpa [Edge.key] using And.intro (congrArg EdgeKey.type hkey')
        (And.intro (congrArg EdgeKey.source hkey') (congrArg EdgeKey.destination hkey'))
    exact Or.inl ⟨e', he', hends.1.trans htype, hends.2.1, hends.2.2⟩
  · have hrtype : r.relationshipType = .supersedes := (edgeKey_id hkey).2.symm.trans htype
    obtain ⟨x, hx, u, hu, rfl⟩ := supersedes_mem_relationshipWrites
      (h.planned.mem_relationships (hsome.sound _ hr)) hrtype
    have hends := hkey.symm.trans (plainEdge_edgeKey _ _ _ _ _ _ _ _ _)
    obtain ⟨key, hkey', hsource, -⟩ := hsome.linked hr
    obtain rfl : e.key = key := Option.some.inj (hkey.symm.trans hkey')
    have hsourceId := congrArg EdgeKey.source (Option.some.inj hends)
    have hdestId := congrArg EdgeKey.destination (Option.some.inj hends)
    exact Or.inr ⟨m, done, hsome, fun n hn => hsome.nodes_before hr hn, x, hx, u, hu, hsourceId,
      hdestId, hsource⟩

/-- The vertex of a fact that a plan writes to, once all its nodes are written:
it holds the birth values of a candidate, or the values that close it. -/
theorem Written.plan_vertex (hw : Sourced d w.stores)
    (h : Written d w w' call extraction plan turn gs) {m : Manifest} {done : List GraphRecord}
    (hsome : WroteSome plan w.stores.graphStore w'.stores.graphStore m done)
    (hall : ∀ n ∈ plan.nodes, GraphRecord.node n ∈ done) {n : GraphNode}
    (hn : n ∈ nodeWrites d.allocator (call.chunk d) call.env.now turn gs) {v : Vertex}
    (hv : w'.stores.graphStore.graph.nodes n.graphId = some v)
    (hlabel : NodeLabel.fact ∈ v.labels) : ∃ x ∈ gs,
      (n.graphId = factGraphId d.allocator call.batch.contextId x.candidate.candidateId ∧
        v = Vertex.merge (w.stores.graphStore.graph.nodes n.graphId) .fact
          (factNode d.allocator (call.chunk d) call.env.now x.candidate).properties) ∨
      ∃ u ∈ x.updates, n.graphId = factGraphId d.allocator call.batch.contextId u.prior.factId ∧
        v = Vertex.merge (w.stores.graphStore.graph.nodes n.graphId) .fact
          (closedNode d.allocator call.batch.contextId u).properties := by
  -- the last assignment to this id is in the plan
  have hid : n.graphId ∈ plan.nodes.map GraphNode.graphId := by
    rw [(assemble_eq_ok h.planned.plan_ok).2.1, Ordered.mem_keys_ofAssignments]
    exact List.mem_map.mpr ⟨n, hn, rfl⟩
  obtain ⟨k, hk, hkid⟩ := List.mem_map.mp hid
  have hgraph : w'.stores.graphStore.graph = w.stores.graphStore.graph.writeRecords done := by
    rw [hsome.state_eq]
  have hmerged := writeRecords_nodes_of_mem (g := w.stores.graphStore.graph) (hall k hk)
    fun j hj heq => plan.node_eq (hsome.sound _ hj) (hsome.sound _ (hall k hk)) heq
  rw [← hgraph, hkid, hv] at hmerged
  have hcovered : Covered w'.stores.graphStore := (wrote_kept hw.covered h.wrote).1
  have hfact : k.label = .fact := by
    obtain ⟨label, p, -, hlabels, -⟩ := hcovered.node hv
    have hmem : k.label ∈ v.labels := by
      rw [Option.some.inj hmerged]
      exact Finset.mem_insert_self _ _
    rw [hlabels, Finset.mem_singleton] at hlabel hmem
    rw [hmem, hlabel]
  obtain ⟨x, hx, rfl | ⟨u, hu, rfl⟩⟩ := h.planned.fact_cases (hsome.sound _ (hall k hk)) hfact
  · exact ⟨x, hx, Or.inl ⟨hkid.symm, Option.some.inj hmerged⟩⟩
  · exact ⟨x, hx, Or.inr ⟨u, hu, hkid.symm, Option.some.inj hmerged⟩⟩

/-- The vertex of a candidate's fact once all nodes of its plan are written: it
has the values of a fact node for that candidate id, or it was there and was
closed by the same plan. -/
theorem Written.fact_vertex (hw : Sourced d w.stores)
    (h : Written d w w' call extraction plan turn gs) {m : Manifest} {done : List GraphRecord}
    (hsome : WroteSome plan w.stores.graphStore w'.stores.graphStore m done)
    (hall : ∀ n ∈ plan.nodes, GraphRecord.node n ∈ done) {x : Gathered} (hx : x ∈ gs) {v : Vertex}
    (hv : w'.stores.graphStore.graph.nodes
      (factGraphId d.allocator call.batch.contextId x.candidate.candidateId) = some v)
    (hlabel : NodeLabel.fact ∈ v.labels) :
    (∃ x' ∈ gs, x'.candidate.candidateId = x.candidate.candidateId ∧ ∀ key value,
        (factNode d.allocator (call.chunk d) call.env.now x'.candidate).properties.lookup key =
          some value → v.props key = some value) ∨
      ∃ v₀, w.stores.graphStore.graph.nodes
          (factGraphId d.allocator call.batch.contextId x.candidate.candidateId) = some v₀ ∧
        ∀ key, key ∉ ["context_id", "logical_key", "is_current", "superseded_at", "valid_to"] →
          v.props key = v₀.props key := by
  obtain ⟨x', hx', ⟨hid, hvertex⟩ | ⟨u, hu, hid, hvertex⟩⟩ :=
    h.plan_vertex hw hsome hall (factNode_mem_nodeWrites hx) hv hlabel
  · refine Or.inl ⟨x', hx', ?_, fun key value hvalue => ?_⟩
    · exact (factGraphId_injective _ _ hid).symm
    · rw [hvertex]
      simp only [Vertex.merge, Properties.assign, hvalue, Option.some_or]
  · obtain ⟨subject, predicateKey, hdecided⟩ := h.planned.update x' hx' u hu
    obtain ⟨e, -, -, -, hsource, v₀, -, -, hv₀, -⟩ := hw.prior hdecided
    have hsame : e.source = (factNode d.allocator (call.chunk d) call.env.now
        x.candidate).graphId := hsource.trans hid.symm
    rw [hsame] at hv₀
    refine Or.inr ⟨v₀, hv₀, fun key hkey => ?_⟩
    rw [hvertex, hv₀]
    exact merge_closedNode_of_not_mem hkey

end Written

/-! ### Chronology -/

theorem FactOf.step {d : Deployment} {w : World Stores} (hw : Sourced d w.stores) (t : Step)
    {id : Nat} {chunk : Chunk} (h : FactOf w.stores id chunk) :
    FactOf (step d w t).stores id chunk := by
  obtain ⟨v, hv, hlabel, hsource⟩ := h.vertex
  obtain ⟨v', hv', hlabels, hvalues⟩ := (step_kept hw t).node hv
  refine ⟨⟨v', hv', hlabels ▸ hlabel, hvalues.str (by simp [mutableProperties]) hsource⟩, ?_⟩
  exact (step_cases hw t).1 h.stored

/-- A record comes after every fact whose whole second it comes after, and reuses no id of
another chunk's fact. -/
structure OnTime (d : Deployment) (w : World Stores) (call : Call) : Prop where
  after : ∀ id v predicateKey chunk, w.stores.graphStore.graph.nodes id = some v →
    v.isCurrentFact call.batch.contextId predicateKey = true → FactOf w.stores id chunk →
    chunk.occurredAt.timestamp * 1000000 < call.record.occurredAt.micros →
    chunk.occurredAt < call.record.occurredAt
  own : ∀ drafts, call.env.extractor.extract call.record = .ok drafts → ∀ draft ∈ drafts,
    ∀ v, w.stores.graphStore.graph.nodes
      (factGraphId d.allocator call.batch.contextId draft.candidateId) = some v →
    v.props "source_chunk_id" = some (.str (call.chunk d).chunkId)

def StepOnTime (d : Deployment) (w : World Stores) : Step → Prop
  | .ingest call _ => OnTime d w call
  | _ => True

/-- Every `SUPERSEDES` edge goes to a fact of a record that occurred strictly earlier. -/
def SupersedesEarlier (s : Stores) : Prop :=
  ∀ a b, s.graphStore.graph.Supersedes a b → ∃ newer older, FactOf s a newer ∧ FactOf s b older ∧
    older.occurredAt < newer.occurredAt

theorem supersedesEarlier_step {d : Deployment} {w : World Stores} (hw : Sourced d w.stores)
    (h : SupersedesEarlier w.stores) {t : Step} (ht : StepOnTime d w t) :
    SupersedesEarlier (step d w t).stores := by
  intro a b hedge
  have hold : w.stores.graphStore.graph.Supersedes a b → ∃ newer older,
      FactOf (step d w t).stores a newer ∧ FactOf (step d w t).stores b older ∧
        older.occurredAt < newer.occurredAt := by
    intro hbefore
    obtain ⟨newer, older, hnewer, holder, hlt⟩ := h a b hbefore
    exact ⟨newer, older, hnewer.step hw t, holder.step hw t, hlt⟩
  obtain ⟨-, hcases⟩ := step_cases hw t
  rcases hcases with hsame | ⟨call, faults, extraction, plan, turn, gs, rfl, hwritten⟩
  · rw [hsame] at hedge
    exact hold hedge
  rcases hwritten.supersedes_cases hedge with hbefore |
    ⟨m, done, hsome, hall, x, hx, u, hu, rfl, rfl, hlabel⟩
  · exact hold hbefore
  obtain ⟨subject, predicateKey, hdecided⟩ := hwritten.planned.update x hx u hu
  have haccepted := hwritten.planned.candidate_mem hx
  have hobserved := Call.accepted_observedAt hwritten.extract_ok haccepted
  -- the prior fact: found in the graph, with the whole second of its chunk
  obtain ⟨e, -, -, -, hid, v, p, older, hv, hcurrent, -, hat, hsource, -, hmicros⟩ :=
    hw.prior hdecided
  have hfact : NodeLabel.fact ∈ v.labels := by
    have := hcurrent
    simp only [Vertex.isCurrentFact, decide_eq_true_eq] at this
    exact this.1
  have holder : FactOf w.stores e.source older := ⟨⟨v, hv, hfact, hsource⟩, hat.stored⟩
  have hlt : older.occurredAt < call.record.occurredAt := by
    refine ht.after e.source v predicateKey older hv hcurrent holder ?_
    rw [← hmicros, ← hobserved]
    exact hdecided.decision.1
  -- the new fact: its vertex names the chunk of this call
  obtain ⟨v', hv', hlabel'⟩ := Graph.hasLabel_iff.mp hlabel
  have hnew : v'.props "source_chunk_id" = some (.str (call.chunk d).chunkId) := by
    rcases hwritten.fact_vertex hw hsome hall hx hv' hlabel' with ⟨x', -, -, hvalues⟩ |
      ⟨v₀, hv₀, hkept⟩
    · exact hvalues _ _ (lookup_factNode (by simp [factFields]))
    · obtain ⟨drafts, hdrafts, draft, hdraft, hcandidate, -⟩ :=
        Call.accepted_draft hwritten.extract_ok haccepted
      rw [hkept _ (by simp)]
      rw [← hcandidate] at hv₀
      exact ht.own drafts hdrafts draft hdraft v₀ hv₀
  obtain ⟨newer, hrow, hinstant⟩ := hwritten.stored
  have hchunk : newer.chunkId = (call.chunk d).chunkId :=
    (sourced_step hw (.ingest call faults)).chunk_id hrow
  refine ⟨newer, older, ⟨⟨v', hv', hlabel', by rw [hchunk]; exact hnew⟩, by rw [hchunk, hrow]⟩, ?_, ?_⟩
  · rw [← hid]
    exact holder.step hw _
  · rw [DateTime.lt_def, hinstant]
    exact hlt

theorem SupersedesEarlier.path {s : Stores} (h : SupersedesEarlier s) {a b : Nat}
    (hpath : Relation.TransGen s.graphStore.graph.Supersedes a b) :
    ∃ newer older, FactOf s a newer ∧ FactOf s b older ∧ older.occurredAt < newer.occurredAt := by
  induction hpath with
  | single hedge => exact h a _ hedge
  | tail _ hedge ih =>
      obtain ⟨newer, middle, hnewer, hmiddle, hlt⟩ := ih
      obtain ⟨middle', older, hmiddle', holder, hlt'⟩ := h _ _ hedge
      obtain rfl := hmiddle.unique hmiddle'
      refine ⟨newer, older, hnewer, holder, ?_⟩
      rw [DateTime.lt_def] at hlt hlt' ⊢
      omega

/-- **Chronology.** In every run whose calls are on time, every `SUPERSEDES`
edge goes to a fact of a record that occurred strictly earlier, and there is no
cycle of such edges. A call is on time if what the graph tells it of a prior
fact, in whole seconds, orders the two records as their own timestamps do. -/
theorem supersedes_earlier (d : Deployment) (steps : List Step)
    (h : Meets d (StepOnTime d) .initial steps) :
    SupersedesEarlier (run d .initial steps).stores ∧
      ∀ a, ¬ Relation.TransGen (run d .initial steps).stores.graphStore.graph.Supersedes a a := by
  have hrun : Sourced d (run d .initial steps).stores ∧
      SupersedesEarlier (run d .initial steps).stores := by
    refine run_meets (P := fun w => Sourced d w.stores ∧ SupersedesEarlier w.stores)
      ⟨sourced_initial d, ?_⟩ h fun w t hw ht => ?_
    · rintro a b ⟨e, he, -⟩
      cases he
    · exact ⟨sourced_step hw.1 t, supersedesEarlier_step hw.1 hw.2 ht⟩
  refine ⟨hrun.2, fun a hcycle => ?_⟩
  obtain ⟨newer, older, hnewer, holder, hlt⟩ := hrun.2.path hcycle
  obtain rfl := hnewer.unique holder
  rw [DateTime.lt_def] at hlt
  omega

/-- Both turns just past nine: the gate compares the second with nine sharp, and
the edge connects two facts of one instant. -/
theorem supersedes_same_instant :
    ¬ ∀ d steps, SupersedesEarlier (run d .initial steps).stores := by
  intro h
  have hearlier : SupersedesEarlier (moveStores justPastNine justPastNine) :=
    h fixtureDeployment (moveSteps _ _)
  obtain ⟨hedge, hinstants⟩ : (moveStores justPastNine justPastNine).graphStore.graph.Supersedes
        seattleFact bostonFact ∧
      ((moveStores justPastNine justPastNine).chunkOfFact seattleFact).map
        (·.occurredAt) = some justPastNine ∧
      ((moveStores justPastNine justPastNine).chunkOfFact bostonFact).map
        (·.occurredAt) = some justPastNine := by
    unfold Graph.Supersedes
    decide +kernel
  obtain ⟨newer, older, hnewer, holder, hlt⟩ := hearlier seattleFact bostonFact hedge
  rw [hnewer.chunkOfFact_eq, holder.chunkOfFact_eq] at hinstants
  have hequal : newer.occurredAt = justPastNine ∧ older.occurredAt = justPastNine := by
    simpa using hinstants
  rw [hequal.1, hequal.2, DateTime.lt_def] at hlt
  omega

/-- The second turn of the chat is about a fact no node has yet. -/
theorem seattle_unwritten {v : Vertex} : (step fixtureDeployment .initial
    (.ingest (bostonCall nine ten) [])).stores.graphStore.graph.nodes
      (factGraphId fixtureDeployment.allocator (seattleCall nine ten).batch.contextId
        seattleDraft.candidateId) ≠ some v := by
  intro hv
  have hnone : ((step fixtureDeployment .initial
      (.ingest (bostonCall nine ten) [])).stores.graphStore.graph.nodes
        (factGraphId fixtureDeployment.allocator (seattleCall nine ten).batch.contextId
          seattleDraft.candidateId)).isNone = true := by
    decide +kernel
  rw [hv] at hnone
  cases hnone

/-- With an hour between the turns the second supersedes the first. -/
theorem seattle_supersedes_boston :
    (moveStores nine ten).graphStore.graph.Supersedes seattleFact bostonFact := by
  unfold Graph.Supersedes
  decide +kernel

/-- With an hour between the turns the run is on time, and the edge goes to the
earlier one. -/
theorem supersedes_earlier_hourly :
    (moveStores nine ten).graphStore.graph.Supersedes seattleFact bostonFact ∧
      SupersedesEarlier (moveStores nine ten) := by
  have hmeets : Meets fixtureDeployment (StepOnTime fixtureDeployment) .initial
      (moveSteps nine ten) := by
    refine ⟨OnTime.mk ?_ ?_, OnTime.mk ?_ ?_, trivial⟩
    · intro id v _ chunk hv
      cases hv
    · intro drafts _ draft _ v hv
      cases hv
    · intro id v _ chunk _ _ hfact _
      rcases chunk_of_step _ hfact.stored with hnone | ⟨call, faults, hcall, rfl⟩
      · cases hnone
      · cases hcall
        decide
    · intro drafts hdrafts draft hdraft v hv
      cases hdrafts
      rw [List.mem_singleton.mp hdraft] at hv
      exact absurd hv seattle_unwritten
  exact ⟨seattle_supersedes_boston, (supersedes_earlier fixtureDeployment _ hmeets).1⟩

/-! ### Subjects -/

/-- The subject each fact of a call is ingested with, as pairs of graph ids. -/
def Call.subjects (d : Deployment) (call : Call) (s : Stores) : List (Nat × Nat) :=
  match call.extract d with
  | .error _ => []
  | .ok extraction =>
    match ((call.builder d).gather s.graphStore.graph call.batch.contextId 0 s.profiles
        extraction.accepted).1 with
    | .error _ => []
    | .ok gs => gs.filterMap fun x => x.subject.map fun subject =>
        (factGraphId d.allocator call.batch.contextId x.candidate.candidateId, subject.graphId)

def stepSubjects (d : Deployment) (w : World Stores) : Step → List (Nat × Nat)
  | .ingest call _ => call.subjects d w.stores
  | _ => []

/-- The subjects of all facts ingested in a run. -/
def subjects (d : Deployment) : World Stores → List Step → List (Nat × Nat)
  | _, [] => []
  | w, t :: rest => stepSubjects d w t ++ subjects d (step d w t) rest

theorem subjects_append_singleton (d : Deployment) (w : World Stores) (steps : List Step)
    (t : Step) : subjects d w (steps ++ [t]) =
      subjects d w steps ++ stepSubjects d (run d w steps) t := by
  induction steps generalizing w with
  | nil => simp [subjects, run]
  | cons t' rest ih =>
      rw [List.cons_append, subjects, subjects, ih, List.append_assoc]
      rfl

/-- Current facts are found only through the subject they were ingested with, and a candidate
id names one fact: no two drafts share it, and the predicate of a fact that has it is theirs. -/
structure OneSubject (d : Deployment) (known : List (Nat × Nat)) (w : World Stores)
    (call : Call) : Prop where
  found : ∀ e ∈ w.stores.graphStore.graph.edges, e.type = .about → ∀ v predicateKey,
    w.stores.graphStore.graph.nodes e.source = some v →
    v.isCurrentFact call.batch.contextId predicateKey = true → (e.source, e.destination) ∈ known
  distinct : ∀ drafts, call.env.extractor.extract call.record = .ok drafts →
    (drafts.map (·.candidateId)).Nodup
  predicate : ∀ drafts, call.env.extractor.extract call.record = .ok drafts → ∀ draft ∈ drafts,
    ∀ v, w.stores.graphStore.graph.nodes
      (factGraphId d.allocator call.batch.contextId draft.candidateId) = some v →
    v.props "predicate_key" = draft.predicateKey.map .str

def StepOneSubject (d : Deployment) (known : List (Nat × Nat)) (w : World Stores) : Step → Prop
  | .ingest call _ => OneSubject d known w call
  | _ => True

/-- Both ends of every `SUPERSEDES` edge have one predicate and one subject. -/
def SupersedesWithin (known : List (Nat × Nat)) (g : Graph) : Prop :=
  ∀ a b, g.Supersedes a b → ∃ subject predicateKey va vb, (a, subject) ∈ known ∧
    (b, subject) ∈ known ∧ g.nodes a = some va ∧ g.nodes b = some vb ∧
    va.props "predicate_key" = some (.str predicateKey) ∧
    vb.props "predicate_key" = some (.str predicateKey)

/-- A string value of a node outside the mutable properties survives every step. -/
theorem step_keeps_str {d : Deployment} {w : World Stores} (hw : Sourced d w.stores) (t : Step)
    {id : Nat} {v : Vertex} {key value : String} (hkey : key ∉ mutableProperties)
    (hv : w.stores.graphStore.graph.nodes id = some v) (hvalue : v.props key = some (.str value)) :
    ∃ v', (step d w t).stores.graphStore.graph.nodes id = some v' ∧
      v'.props key = some (.str value) := by
  obtain ⟨v', hv', -, hvalues⟩ := (step_kept hw t).node hv
  exact ⟨v', hv', hvalues.str hkey hvalue⟩

theorem Written.subject_mem {d : Deployment} {w w' : World Stores} {call : Call}
    {extraction : ExtractionResult} {plan : GraphWritePlan} {turn : GraphNode} {gs : List Gathered}
    (h : Written d w w' call extraction plan turn gs) {x : Gathered} (hx : x ∈ gs)
    {subject : EntityProfile} (hsubject : x.subject = some subject) :
    (factGraphId d.allocator call.batch.contextId x.candidate.candidateId, subject.graphId) ∈
      call.subjects d w.stores := by
  unfold Call.subjects
  rw [h.extract_ok]
  dsimp only
  rw [h.planned.gather_ok]
  exact List.mem_filterMap.mpr ⟨x, hx, by rw [hsubject]; rfl⟩

/-- With distinct draft ids, the id of a candidate determines what was gathered
for it. -/
theorem Written.candidate_eq {d : Deployment} {w w' : World Stores} {call : Call}
    {extraction : ExtractionResult} {plan : GraphWritePlan} {turn : GraphNode} {gs : List Gathered}
    (h : Written d w w' call extraction plan turn gs)
    (hdistinct : ∀ drafts, call.env.extractor.extract call.record = .ok drafts →
      (drafts.map (·.candidateId)).Nodup) {x y : Gathered} (hx : x ∈ gs) (hy : y ∈ gs)
    (hid : x.candidate.candidateId = y.candidate.candidateId) : x.candidate = y.candidate := by
  obtain ⟨drafts, hdrafts, haccepted⟩ := extractChunk_eq_ok h.extract_ok
  have hnodup : (extraction.accepted.map (·.candidateId)).Nodup := by
    rw [haccepted]
    exact (acceptedDrafts_ids _ _ drafts).nodup (hdistinct drafts hdrafts)
  exact List.inj_on_of_nodup_map hnodup (h.planned.candidate_mem hx) (h.planned.candidate_mem hy) hid

theorem supersedesWithin_step {d : Deployment} {known : List (Nat × Nat)} {w : World Stores}
    (hw : Sourced d w.stores) (h : SupersedesWithin known w.stores.graphStore.graph) {t : Step}
    (ht : StepOneSubject d known w t) :
    SupersedesWithin (known ++ stepSubjects d w t) (step d w t).stores.graphStore.graph := by
  intro a b hedge
  have hmutable : "predicate_key" ∉ mutableProperties := by simp [mutableProperties]
  have hold : w.stores.graphStore.graph.Supersedes a b → ∃ subject predicateKey va vb,
      (a, subject) ∈ known ++ stepSubjects d w t ∧ (b, subject) ∈ known ++ stepSubjects d w t ∧
      (step d w t).stores.graphStore.graph.nodes a = some va ∧
      (step d w t).stores.graphStore.graph.nodes b = some vb ∧
      va.props "predicate_key" = some (.str predicateKey) ∧
      vb.props "predicate_key" = some (.str predicateKey) := by
    intro hbefore
    obtain ⟨subject, predicateKey, va, vb, ha, hb, hva, hvb, hpa, hpb⟩ := h a b hbefore
    obtain ⟨va', hva', hpa'⟩ := step_keeps_str hw t hmutable hva hpa
    obtain ⟨vb', hvb', hpb'⟩ := step_keeps_str hw t hmutable hvb hpb
    exact ⟨subject, predicateKey, va', vb', List.mem_append_left _ ha, List.mem_append_left _ hb,
      hva', hvb', hpa', hpb'⟩
  obtain ⟨-, hcases⟩ := step_cases hw t
  rcases hcases with hsame | ⟨call, faults, extraction, plan, turn, gs, rfl, hwritten⟩
  · rw [hsame] at hedge
    exact hold hedge
  rcases hwritten.supersedes_cases hedge with hbefore |
    ⟨m, done, hsome, hall, x, hx, u, hu, rfl, rfl, hlabel⟩
  · exact hold hbefore
  obtain ⟨subject, predicateKey, hdecided⟩ := hwritten.planned.update x hx u hu
  obtain ⟨e, he, htype, hdestination, hid, v, p, older, hv, hcurrent, -⟩ := hw.prior hdecided
  -- the prior fact was found through the subject it was ingested with
  have hprior : (e.source, e.destination) ∈ known :=
    ht.found e he htype v predicateKey hv hcurrent
  have hpredicate : v.props "predicate_key" = some (.str predicateKey) := by
    have := hcurrent
    simp only [Vertex.isCurrentFact, decide_eq_true_eq] at this
    exact this.2.2.1
  obtain ⟨vb, hvb, hpb⟩ := step_keeps_str hw (.ingest call faults) hmutable hv hpredicate
  -- the new fact carries the predicate of its candidate
  obtain ⟨va, hva, hlabel'⟩ := Graph.hasLabel_iff.mp hlabel
  have hpa : va.props "predicate_key" = some (.str predicateKey) := by
    rcases hwritten.fact_vertex hw hsome hall hx hva hlabel' with ⟨x', hx', hsameId, hvalues⟩ |
      ⟨v₀, hv₀, hkept⟩
    · refine hvalues _ _ ?_
      rw [lookup_factNode_predicate, hwritten.candidate_eq ht.distinct hx' hx hsameId,
        hdecided.predicate_eq]
      rfl
    · obtain ⟨drafts, hdrafts, draft, hdraft, hcandidate, hsamePredicate, -⟩ :=
        Call.accepted_draft hwritten.extract_ok (hwritten.planned.candidate_mem hx)
      rw [hkept _ (by simp)]
      rw [← hcandidate] at hv₀
      rw [ht.predicate drafts hdrafts draft hdraft v₀ hv₀, hsamePredicate, hdecided.predicate_eq]
      rfl
  refine ⟨subject.graphId, predicateKey, va, vb, ?_, ?_, hva, hid ▸ hvb, hpa, hpb⟩
  · exact List.mem_append_right _ (hwritten.subject_mem hx hdecided.subject_eq)
  · rw [← hid, ← hdestination]
    exact List.mem_append_left _ hprior

/-- **Subjects.** In every run whose calls find current facts only through their
own subject, every `SUPERSEDES` edge connects two facts of one predicate and one
subject. The condition is needed: the lookup follows any `ABOUT` edge and gives
the entity that was asked for out as the subject of what it finds. -/
theorem supersedes_same_subject (d : Deployment) (steps : List Step)
    (h : ∀ earlier t later, steps = earlier ++ t :: later →
      StepOneSubject d (subjects d .initial earlier) (run d .initial earlier) t) :
    SupersedesWithin (subjects d .initial steps) (run d .initial steps).stores.graphStore.graph := by
  suffices hdone : ∀ done rest, steps = done ++ rest → SupersedesWithin
      (subjects d .initial done) (run d .initial done).stores.graphStore.graph from
    hdone steps [] (List.append_nil steps).symm
  intro done
  induction done using List.reverseRecOn with
  | nil =>
      rintro rest - a b ⟨e, he, -⟩
      cases he
  | append_singleton done t ih =>
      intro rest hsplit
      have hsplit' : steps = done ++ t :: rest := by
        rw [hsplit, List.append_assoc]
        rfl
      rw [subjects_append_singleton, run_append]
      exact supersedesWithin_step (sourced_run d done) (ih (t :: rest) hsplit')
        (h done t rest hsplit')

/-- Bob's new fact supersedes the fact that Alice works with Bob, in which Bob
is only mentioned. -/
theorem supersedes_mentioned :
    ¬ ∀ d steps, SupersedesWithin (subjects d .initial steps)
      (run d .initial steps).stores.graphStore.graph := by
  intro h
  have hwithin := h fixtureDeployment officeSteps
  obtain ⟨hedge, hdiffer⟩ : (run fixtureDeployment .initial
        officeSteps).stores.graphStore.graph.Supersedes bobFact aliceFact ∧
      ∀ p ∈ subjects fixtureDeployment .initial officeSteps,
        ∀ q ∈ subjects fixtureDeployment .initial officeSteps,
        p.1 = bobFact → q.1 = aliceFact → p.2 ≠ q.2 := by
    unfold Graph.Supersedes
    decide +kernel
  obtain ⟨subject, _, _, _, hbob, halice, -⟩ := hwithin bobFact aliceFact hedge
  exact hdiffer _ hbob _ halice rfl rfl rfl

/-- Both facts about Max have one entity: the run meets the condition. -/
theorem supersedes_same_subject_max :
    (moveStores nine ten).graphStore.graph.Supersedes seattleFact bostonFact ∧
      SupersedesWithin (subjects fixtureDeployment .initial (moveSteps nine ten))
        (run fixtureDeployment .initial (moveSteps nine ten)).stores.graphStore.graph := by
  have hdistinct : ∀ draft : ExtractionDraft, ∀ drafts,
      (.ok [draft] : Except Exn (List ExtractionDraft)) = .ok drafts →
      (drafts.map (·.candidateId)).Nodup := by
    intro draft drafts hdrafts
    cases hdrafts
    simp
  have hfirst : OneSubject fixtureDeployment [] .initial (bostonCall nine ten) := by
    refine ⟨fun e he => ?_, hdistinct _, fun drafts _ draft _ v hv => ?_⟩
    · cases he
    · cases hv
  have hsecond : OneSubject fixtureDeployment
      (subjects fixtureDeployment .initial [.ingest (bostonCall nine ten) []])
      (step fixtureDeployment .initial (.ingest (bostonCall nine ten) [])) (seattleCall nine ten) := by
    refine ⟨fun e he htype v _ _ _ => ?_, hdistinct _, fun drafts hdrafts draft hdraft v hv => ?_⟩
    · have hfound : ∀ e ∈ (step fixtureDeployment .initial
          (.ingest (bostonCall nine ten) [])).stores.graphStore.graph.edges, e.type = .about →
          (e.source, e.destination) ∈
            subjects fixtureDeployment .initial [.ingest (bostonCall nine ten) []] := by
        decide +kernel
      exact hfound e he htype
    · cases hdrafts
      rw [List.mem_singleton.mp hdraft] at hv
      exact absurd hv seattle_unwritten
  refine ⟨seattle_supersedes_boston, supersedes_same_subject fixtureDeployment _ ?_⟩
  intro earlier t later hsplit
  rcases earlier with - | ⟨t₁, - | ⟨t₂, rest⟩⟩
  · cases hsplit
    exact hfirst
  · cases hsplit
    rw [run_singleton]
    exact hsecond
  · exact absurd (congrArg List.length hsplit) (by simp [moveSteps])

end ContextMemory
