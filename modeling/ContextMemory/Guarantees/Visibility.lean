/-
Which facts the expansion lets through, against what the pipeline stored.

The writer and the reader of a fact node agree on the names of its four times and on nothing
else: the scope is written as `scope_type` and read as `memory_scope`, so no fact ever
expires (`chat_removed_iff`). All comparisons are inclusive, so a fact is still there in the
second in which its successor was observed, and only then (`supersedes_not_both`).
-/

import ContextMemory.Retrieval.Expansion
import ContextMemory.Guarantees.Closure
import ContextMemory.Guarantees.Validity

namespace ContextMemory

open Faulty Manifest

/-! ### Stored times -/

/-- The filter on a node with four stored seconds. -/
theorem Vertex.Times.visible_iff {v : Vertex} {validFrom validTo observedAt supersededAt : Int}
    (h : v.Times validFrom validTo observedAt supersededAt) {query ttlLimit : Int} :
    visible query ttlLimit (v.nodeRow none) = .ok true ↔ validFrom ≤ query ∧ query ≤ validTo ∧
      observedAt ≤ query ∧ query ≤ supersededAt ∧
      (v.props "memory_scope" = some (.str "chat") → ttlLimit ≤ observedAt) := by
  rw [visible_eq_true]
  simp only [Vertex.nodeRow, h.validFrom, h.validTo, h.observedAt, h.supersededAt, isAfter_int,
    isBefore_int, Except.ok.injEq, decide_eq_false_iff_not, not_lt]

/-- Stored seconds can be compared. -/
theorem Vertex.Times.visible_ok {v : Vertex} {validFrom validTo observedAt supersededAt : Int}
    (h : v.Times validFrom validTo observedAt supersededAt) (query ttlLimit : Int) :
    ∃ b, visible query ttlLimit (v.nodeRow none) = .ok b := by
  simp only [visible, Vertex.nodeRow, h.validFrom, h.validTo, h.observedAt, h.supersededAt,
    isAfter_int, isBefore_int, bind, Except.bind, pure, Except.pure]
  repeat' split
  all_goals exact ⟨_, rfl⟩

/-- A fact as the pipeline stores it: with its four times, and without the property that the
expansion reads for its scope. -/
structure Vertex.Stored (v : Vertex) : Prop where
  times : ∃ validFrom validTo observedAt supersededAt,
    v.Times validFrom validTo observedAt supersededAt
  scope : v.props "memory_scope" = none

def Graph.FactsStored (g : Graph) : Prop :=
  ∀ id v, g.nodes id = some v → NodeLabel.fact ∈ v.labels → v.Stored

theorem factsStored_step {d : Deployment} {w : World Stores} (hw : Sourced d w.stores)
    (h : w.stores.graphStore.graph.FactsStored) (t : Step) :
    (step d w t).stores.graphStore.graph.FactsStored := by
  intro id v' hv' hlabel
  -- a node that was there before had the label already
  have hbefore : ∀ v, w.stores.graphStore.graph.nodes id = some v → v.Stored := by
    intro v hv
    obtain ⟨v₁, hv₁, hlabels, -⟩ := (step_kept hw t).node hv
    obtain rfl : v₁ = v' := Option.some.inj (hv₁.symm.trans hv')
    exact h id v hv (hlabels ▸ hlabel)
  rcases fact_vertex_cases hw hv' hlabel with hold | ⟨call, faults, extraction, plan, turn, gs, m,
    done, rfl, hwritten, -, x, hx, ⟨-, rfl, hvertex⟩ | ⟨u, hu, rfl, hvertex⟩⟩
  · exact hbefore v' hold
  · rw [hvertex]
    refine ⟨⟨(x.candidate.temporal.validFrom.map (·.timestamp)).getD 0,
      (x.candidate.temporal.validTo.map (·.timestamp)).getD openSentinel,
      x.candidate.temporal.observedAt.timestamp, openSentinel, ⟨?_, ?_, ?_, ?_⟩⟩, ?_⟩
    · exact merge_factNode (by simp [factFields])
    · exact merge_factNode (by simp [factFields])
    · exact merge_factNode (by simp [factFields])
    · exact merge_factNode (by simp [factFields])
    · rw [merge_factNode_of_not_mem (by simp [factFields])]
      cases hold : w.stores.graphStore.graph.nodes
          (factGraphId d.allocator call.batch.contextId x.candidate.candidateId) with
      | none => rfl
      | some v => exact (hbefore v hold).scope
  · obtain ⟨subject, predicateKey, hdecided⟩ := hwritten.planned.update x hx u hu
    obtain ⟨e, -, -, -, hid, v, -, -, hv, -⟩ := hw.prior hdecided
    rw [hid] at hv
    obtain ⟨⟨validFrom, validTo, observedAt, supersededAt, htimes⟩, hscope⟩ := hbefore v hv
    rw [hvertex, hv]
    refine ⟨⟨validFrom, (u.decision.priorValidTo.map (·.timestamp)).getD openSentinel, observedAt,
      (u.decision.priorSupersededAt.map (·.timestamp)).getD openSentinel, ⟨?_, ?_, ?_, ?_⟩⟩, ?_⟩
    · rw [merge_closedNode_of_not_mem (by simp)]
      exact htimes.validFrom
    · exact merge_closedNode (by simp [closedFields])
    · rw [merge_closedNode_of_not_mem (by simp)]
      exact htimes.observedAt
    · exact merge_closedNode (by simp [closedFields])
    · rw [merge_closedNode_of_not_mem (by simp)]
      exact hscope

theorem factsStored_run (d : Deployment) (steps : List Step) :
    (run d .initial steps).stores.graphStore.graph.FactsStored := by
  have hboth := run_invariant (d := d)
    (P := fun w => Sourced d w.stores ∧ w.stores.graphStore.graph.FactsStored)
    (w := .initial) ⟨sourced_initial d, fun id v hv => by cases hv⟩
    (fun w t hw => ⟨sourced_step hw.1 t, factsStored_step hw.1 hw.2 t⟩) steps
  exact hboth.2

/-- The four stored seconds of a node. -/
def Graph.times? (g : Graph) (id : Nat) : Option (Int × Int × Int × Int) :=
  match g.nodes id with
  | none => none
  | some v =>
      match v.props "valid_from", v.props "valid_to", v.props "observed_at",
          v.props "superseded_at" with
      | some (.int validFrom), some (.int validTo), some (.int observedAt),
          some (.int supersededAt) => some (validFrom, validTo, observedAt, supersededAt)
      | _, _, _, _ => none

theorem Graph.times?_eq_some {g : Graph} {id : Nat} {validFrom validTo observedAt supersededAt : Int}
    (h : g.times? id = some (validFrom, validTo, observedAt, supersededAt)) :
    ∃ v, g.nodes id = some v ∧ v.Times validFrom validTo observedAt supersededAt := by
  unfold Graph.times? at h
  split at h
  · cases h
  · rename_i v hv
    split at h
    · rename_i hfrom hto hobserved hsuperseded
      cases h
      exact ⟨v, hv, hfrom, hto, hobserved, hsuperseded⟩
    · cases h

/-- An expander over the graph that a run of the fixture leaves. -/
noncomputable def fixtureExpander (steps : List Step) : Expander :=
  (run fixtureDeployment .initial steps).stores.graphStore.graph.expander 256
    fixtureDeployment.allocator

theorem fixtureExpander_complete (steps : List Step) :
    (fixtureExpander steps).Complete fixtureDeployment.allocator
      (run fixtureDeployment .initial steps).stores.graphStore.graph :=
  Graph.expander_complete _ (by decide) _

/-! ### Chat scope -/

section Chat

variable {d : Deployment} {steps : List Step} {e : Expander} {config : RetrievalConfig}
  {contextId factId : String} {seeds seeds' : List ScoredFact} {bounds : DateRange}
  {query : DateTime} {data : List GraphDatum} {v : Vertex}
  {validFrom validTo observedAt supersededAt : Int}

/-- **Expiry.** After any run, a seeded fact is removed exactly if the query
lies outside its validity or outside the time it was known. This holds of a chat
fact that is older than the TTL as of any other: the scope is stored under
another name than the one that is read, so the TTL removes nothing. -/
theorem chat_removed_iff
    (hc : e.Complete d.allocator (run d .initial steps).stores.graphStore.graph)
    (hv : (run d .initial steps).stores.graphStore.graph.nodes
      (factGraphId d.allocator contextId factId) = some v)
    (hlabel : NodeLabel.fact ∈ v.labels) (htimes : v.Times validFrom validTo observedAt supersededAt)
    (hseed : factId ∈ seeds.map ScoredFact.factId)
    (h : e.expand config contextId seeds bounds query = .ok (seeds', data)) :
    factId ∉ seeds'.map ScoredFact.factId ↔ query.timestamp < validFrom ∨
      validTo < query.timestamp ∨ query.timestamp < observedAt ∨
      supersededAt < query.timestamp := by
  have hscope : v.props "memory_scope" = none := (factsStored_run d steps _ v hv hlabel).scope
  rw [hc.retained_iff h hseed hv, htimes.visible_iff]
  simp only [hscope, reduceCtorEq, false_implies, and_true]
  omega

end Chat

/-- Max lives in Boston, said in chat scope. -/
def chatCall : Call :=
  ⟨fixtureEnv 1767258001 [{ bostonDraft none with scopeType := some .chat }], moveBatch nine ten,
    bostonRecord nine⟩

def chatSteps : List Step := [.ingest chatCall []]

/-- What one chat fact of the fixture has in the graph. -/
theorem chat_boston : ∃ v,
    (run fixtureDeployment .initial chatSteps).stores.graphStore.graph.nodes
      (factGraphId fixtureDeployment.allocator "chat" "boston") = some v ∧
      NodeLabel.fact ∈ v.labels ∧ v.props "scope_type" = some (.str "chat") ∧
      v.Times 0 openSentinel 1767258000 openSentinel := by
  have hstored :
      (run fixtureDeployment .initial chatSteps).stores.graphStore.graph.times? bostonFact =
        some (0, openSentinel, 1767258000, openSentinel) ∧
      ((run fixtureDeployment .initial chatSteps).stores.graphStore.graph.nodes bostonFact).map
        (fun v => (decide (NodeLabel.fact ∈ v.labels), v.props "scope_type")) =
          some (true, some (.str "chat")) := by
    decide +kernel
  have hid : factGraphId fixtureDeployment.allocator "chat" "boston" = bostonFact := rfl
  obtain ⟨v, hv, htimes⟩ := Graph.times?_eq_some hstored.1
  have hrest := hstored.2
  rw [hv, Option.map_some, Option.some.injEq, Prod.mk.injEq, decide_eq_true_eq] at hrest
  exact ⟨v, by rw [hid]; exact hv, hrest.1, hrest.2, htimes⟩

def bostonSeed : List ScoredFact := [{ factId := "boston", text := "" }]

/-- The expansion of that seed returns, whatever is asked. -/
theorem expand_chat (query : DateTime) : ∃ seeds' data,
    (fixtureExpander chatSteps).expand {} "chat" bostonSeed {} query = .ok (seeds', data) := by
  obtain ⟨v, hv, -, -, htimes⟩ := chat_boston
  apply (fixtureExpander_complete chatSteps).toSound.expand_ok
  intro fact hfact v' hv'
  rw [List.mem_singleton.mp hfact] at hv'
  dsimp only at hv'
  obtain rfl : v = v' := Option.some.inj (hv.symm.trans hv')
  exact htimes.visible_ok _ _

/-- Two days later the fact is still there, under a TTL of one day. -/
theorem chat_not_removed : ¬∀ (d : Deployment) (steps : List Step) (e : Expander)
    (config : RetrievalConfig) (contextId factId : String) (seeds seeds' : List ScoredFact)
    (bounds : DateRange) (query : DateTime) (data : List GraphDatum) (v : Vertex)
    (validFrom validTo observedAt supersededAt : Int),
    e.Complete d.allocator (run d .initial steps).stores.graphStore.graph →
    (run d .initial steps).stores.graphStore.graph.nodes
      (factGraphId d.allocator contextId factId) = some v →
    NodeLabel.fact ∈ v.labels → v.props "scope_type" = some (.str "chat") →
    v.Times validFrom validTo observedAt supersededAt →
    (observedAt + config.chatTtlHours * 3600) * 1000000 < query.micros →
    factId ∈ seeds.map ScoredFact.factId →
    e.expand config contextId seeds bounds query = .ok (seeds', data) →
    factId ∉ seeds'.map ScoredFact.factId := by
  intro hall
  obtain ⟨v, hv, hlabel, hchat, htimes⟩ := chat_boston
  have hcomplete := fixtureExpander_complete chatSteps
  obtain ⟨seeds', data, h⟩ := expand_chat ⟨1767430800000000, 0⟩
  have hmem : "boston" ∈ bostonSeed.map ScoredFact.factId := by decide
  have hgone := hall fixtureDeployment chatSteps _ {} "chat" "boston" bostonSeed seeds' {}
    ⟨1767430800000000, 0⟩ data v _ _ _ _ hcomplete hv hlabel hchat htimes (by decide) hmem h
  apply hgone
  rw [hcomplete.retained_iff h hmem hv, htimes.visible_iff]
  have hscope := (factsStored_run fixtureDeployment chatSteps _ v hv hlabel).scope
  refine ⟨by decide, by decide, by decide, by decide, fun hset => ?_⟩
  rw [hscope] at hset
  cases hset

/-- Past the sentinel the bitemporal filter removes the chat fact. -/
theorem chat_removed_late : ∃ v seeds' data,
    (run fixtureDeployment .initial chatSteps).stores.graphStore.graph.nodes
      (factGraphId fixtureDeployment.allocator "chat" "boston") = some v ∧
      v.props "scope_type" = some (.str "chat") ∧
      (fixtureExpander chatSteps).expand {} "chat" bostonSeed {} ⟨10000000000000000, 0⟩ =
        .ok (seeds', data) ∧ "boston" ∉ seeds'.map ScoredFact.factId := by
  obtain ⟨v, hv, hlabel, hchat, htimes⟩ := chat_boston
  have hcomplete := fixtureExpander_complete chatSteps
  obtain ⟨seeds', data, h⟩ := expand_chat ⟨10000000000000000, 0⟩
  refine ⟨v, seeds', data, hv, hchat, h, ?_⟩
  apply (chat_removed_iff hcomplete hv hlabel htimes (by decide) h).mpr
  exact Or.inr (Or.inl (by decide))

/-! ### Successive versions -/

/-- What a call has to keep clear of: it brings no closed fact back, gives no fact the id of
another chunk's, and does not repeat, within its own second, a fact that is still current. -/
structure Decisive (d : Deployment) (w : World Stores) (call : Call) : Prop where
  notReborn : NotReborn d w call
  own : ∀ drafts, call.env.extractor.extract call.record = .ok drafts → ∀ draft ∈ drafts,
    ∀ v, w.stores.graphStore.graph.nodes
      (factGraphId d.allocator call.batch.contextId draft.candidateId) = some v →
    v.props "source_chunk_id" = some (.str (call.chunk d).chunkId)
  whole : ∀ drafts, call.env.extractor.extract call.record = .ok drafts → ∀ draft ∈ drafts,
    ∀ v, w.stores.graphStore.graph.nodes
      (factGraphId d.allocator call.batch.contextId draft.candidateId) = some v →
    v.props "is_current" = some (.bool true) → call.record.occurredAt.WholeSecond

def StepDecisive (d : Deployment) (w : World Stores) : Step → Prop
  | .ingest call _ => Decisive d w call
  | _ => True

/-- The superseded end of an edge ended in the second in which the other end was observed. -/
structure Graph.Relieved (g : Graph) (a b : Nat) (second : Int) : Prop where
  newer : ∃ v, g.nodes a = some v ∧ NodeLabel.fact ∈ v.labels ∧
    v.props "observed_at" = some (.int second)
  older : ∃ v, g.nodes b = some v ∧ NodeLabel.fact ∈ v.labels ∧
    v.props "superseded_at" = some (.int second) ∧ v.props "is_current" = some (.bool false)

section Relieved

variable {d : Deployment} {w : World Stores}

/-- A fact that is not current is not touched by a step that brings none back. -/
theorem closed_kept (hw : Sourced d w.stores) {t : Step} (ht : StepDecisive d w t) {id : Nat}
    {v : Vertex} (hv : w.stores.graphStore.graph.nodes id = some v)
    (hlabel : NodeLabel.fact ∈ v.labels) (hclosed : v.props "is_current" = some (.bool false)) :
    (step d w t).stores.graphStore.graph.nodes id = some v := by
  obtain ⟨v', hv', hlabels, -⟩ := (step_kept hw t).node hv
  rcases fact_vertex_cases hw hv' (hlabels ▸ hlabel) with hold | ⟨call, faults, extraction, plan,
    turn, gs, m, done, rfl, hwritten, hsome, x, hx, ⟨hn, rfl, -⟩ | ⟨u, hu, rfl, -⟩⟩
  · rw [hv', ← hold, hv]
  · exact absurd hclosed (ht.notReborn.born_over hw hwritten hsome hx hn hv)
  · obtain ⟨subject, predicateKey, hdecided⟩ := hwritten.planned.update x hx u hu
    obtain ⟨e, -, -, -, hid, v₀, -, -, hv₀, hcurrent, -⟩ := hw.prior hdecided
    rw [hid] at hv₀
    obtain rfl : v = v₀ := Option.some.inj (hv.symm.trans hv₀)
    simp [Vertex.isCurrentFact, hclosed] at hcurrent

/-- Edges that were there stay relieved. -/
theorem Graph.Relieved.step (hw : Sourced d w.stores) {t : Step} (ht : StepDecisive d w t)
    {a b : Nat} {second : Int} (h : w.stores.graphStore.graph.Relieved a b second)
    (hfacts : (ContextMemory.step d w t).stores.graphStore.graph.FactsStored) :
    (ContextMemory.step d w t).stores.graphStore.graph.Relieved a b second := by
  obtain ⟨v, hv, hlabel, hobserved⟩ := h.newer
  obtain ⟨v', hv', hlabels, hvalues⟩ := (step_kept hw t).node hv
  obtain ⟨u, hu, hfact, hsuperseded, hclosed⟩ := h.older
  refine ⟨⟨v', hv', hlabels ▸ hlabel, ?_⟩, u, closed_kept hw ht hu hfact hclosed, hfact,
    hsuperseded, hclosed⟩
  -- the observation time is kept up to `==`, and stored as an integer
  obtain ⟨value, hvalue, heq⟩ := hvalues "observed_at" _ (by simp [mutableProperties]) hobserved
  obtain ⟨_, _, observedAt, _, htimes⟩ := (hfacts a v' hv' (hlabels ▸ hlabel)).times
  rw [htimes.observedAt, Option.some.injEq] at hvalue
  subst hvalue
  rw [Scalar.pyEq_int heq]
  exact htimes.observedAt

variable {w' : World Stores} {call : Call} {extraction : ExtractionResult} {plan : GraphWritePlan}
  {turn : GraphNode} {gs : List Gathered}

/-- The stored chunk that a draft's fact was extracted from is that of the call. -/
theorem Decisive.chunk_eq (hd : Decisive d w call) (hkept : ∀ {id chunk},
      w.stores.chunks id = some chunk → w'.stores.chunks id = some chunk)
    (h : Written d w w' call extraction plan turn gs) {x : Gathered} (hx : x ∈ gs) {v : Vertex}
    (hv : w.stores.graphStore.graph.nodes
      (factGraphId d.allocator call.batch.contextId x.candidate.candidateId) = some v)
    {chunk : Chunk} (hsource : v.props "source_chunk_id" = some (.str chunk.chunkId))
    (hstored : w.stores.chunks chunk.chunkId = some chunk) :
    chunk.occurredAt.micros = call.record.occurredAt.micros := by
  obtain ⟨drafts, hdrafts, draft, hdraft, hcandidate, -⟩ :=
    Call.accepted_draft h.extract_ok (h.planned.candidate_mem hx)
  have hown := hd.own drafts hdrafts draft hdraft v
  rw [hcandidate] at hown
  have hid : chunk.chunkId = (call.chunk d).chunkId := by
    have hboth := hsource.symm.trans (hown hv)
    simpa using hboth
  obtain ⟨stored, hrow, hinstant⟩ := h.stored
  have hsame : chunk = stored := by
    have hlater := hkept hstored
    rw [hid, hrow] at hlater
    exact (Option.some.inj hlater).symm
  rw [hsame]
  exact hinstant

/-- The newer end of an edge that a call writes is observed in the second of its
record. -/
theorem Decisive.newer (hd : Decisive d w call) (hw : Sourced d w.stores)
    (hfacts : w.stores.graphStore.graph.FactsStored)
    (hkept : ∀ {id chunk}, w.stores.chunks id = some chunk → w'.stores.chunks id = some chunk)
    (h : Written d w w' call extraction plan turn gs) {m : Manifest} {done : List GraphRecord}
    (hsome : WroteSome plan w.stores.graphStore w'.stores.graphStore m done)
    (hall : ∀ n ∈ plan.nodes, GraphRecord.node n ∈ done) {x : Gathered} (hx : x ∈ gs) {v : Vertex}
    (hv : w'.stores.graphStore.graph.nodes
      (factGraphId d.allocator call.batch.contextId x.candidate.candidateId) = some v)
    (hlabel : NodeLabel.fact ∈ v.labels) :
    v.props "observed_at" = some (.int call.record.occurredAt.timestamp) := by
  obtain ⟨x', hx', ⟨-, hvertex⟩ | ⟨u, hu, hid, hvertex⟩⟩ :=
    h.plan_vertex hw hsome hall (factNode_mem_nodeWrites hx) hv hlabel
  · have hobserved := Call.accepted_observedAt h.extract_ok (h.planned.candidate_mem hx')
    rw [hvertex]
    exact merge_factNode (by simp [factFields, hobserved])
  · -- the fact was there, and the same plan closes it
    obtain ⟨subject, predicateKey, hdecided⟩ := h.planned.update x' hx' u hu
    obtain ⟨e, -, -, -, hsource, v₀, p, chunk, hv₀, hcurrent, -, hat, hchunk, -⟩ := hw.prior hdecided
    have hsame : e.source = factGraphId d.allocator call.batch.contextId x.candidate.candidateId :=
      hsource.trans hid.symm
    rw [hsame] at hv₀
    have hfact : NodeLabel.fact ∈ v₀.labels := by
      simp only [Vertex.isCurrentFact, decide_eq_true_eq] at hcurrent
      exact hcurrent.1
    obtain ⟨_, _, observedAt, _, htimes⟩ := (hfacts _ v₀ hv₀ hfact).times
    have hsecond : observedAt = call.record.occurredAt.timestamp := by
      rw [observedAt_eq hw hv₀ hfact htimes.observedAt hchunk hat.stored, DateTime.timestamp,
        DateTime.timestamp, hd.chunk_eq hkept h hx hv₀ hchunk hat.stored]
    have hold : v.props "observed_at" = v₀.props "observed_at" := by
      rw [hvertex]
      show (Vertex.merge (w.stores.graphStore.graph.nodes (factGraphId d.allocator
        call.batch.contextId x.candidate.candidateId)) _ _).props _ = _
      rw [hv₀]
      exact merge_closedNode_of_not_mem (by simp)
    rw [hold, htimes.observedAt, hsecond]

/-- The older end of an edge that a call writes ends in the second of its
record. -/
theorem Decisive.older (hd : Decisive d w call) (hw : Sourced d w.stores)
    (hkept : ∀ {id chunk}, w.stores.chunks id = some chunk → w'.stores.chunks id = some chunk)
    (h : Written d w w' call extraction plan turn gs) {m : Manifest} {done : List GraphRecord}
    (hsome : WroteSome plan w.stores.graphStore w'.stores.graphStore m done)
    (hall : ∀ n ∈ plan.nodes, GraphRecord.node n ∈ done) {x : Gathered} (hx : x ∈ gs) {u : Update}
    (hu : u ∈ x.updates) : ∃ v, w'.stores.graphStore.graph.nodes
        (factGraphId d.allocator call.batch.contextId u.prior.factId) = some v ∧
      NodeLabel.fact ∈ v.labels ∧
      v.props "superseded_at" = some (.int call.record.occurredAt.timestamp) ∧
      v.props "is_current" = some (.bool false) := by
  obtain ⟨subject, predicateKey, hdecided⟩ := h.planned.update x hx u hu
  obtain ⟨e, -, -, -, hsource, v₀, p, chunk, hv₀, hcurrent, -, hat, hchunk, -, hmicros⟩ :=
    hw.prior hdecided
  rw [hsource] at hv₀
  obtain ⟨hfact, -, -, htrue⟩ : NodeLabel.fact ∈ v₀.labels ∧
      v₀.props "context_id" = some (.str call.batch.contextId) ∧
      v₀.props "predicate_key" = some (.str predicateKey) ∧
      v₀.props "is_current" = some (.bool true) := by
    simpa [Vertex.isCurrentFact] using hcurrent
  obtain ⟨v, hv, hlabels, -⟩ := (wrote_kept hw.covered h.wrote).2.node hv₀
  have hlabel : NodeLabel.fact ∈ v.labels := hlabels ▸ hfact
  refine ⟨v, hv, hlabel, ?_⟩
  have hclosing : closedNode d.allocator call.batch.contextId u ∈
      nodeWrites d.allocator (call.chunk d) call.env.now turn gs := closedNode_mem_nodeWrites hx hu
  obtain ⟨x', hx', ⟨hid, -⟩ | ⟨u', hu', -, hvertex⟩⟩ :=
    h.plan_vertex hw hsome hall hclosing hv hlabel
  · -- a candidate of the call with the id of the fact it closes: the gate lets none through
    exfalso
    have hid' : factGraphId d.allocator call.batch.contextId u.prior.factId =
        factGraphId d.allocator call.batch.contextId x'.candidate.candidateId := hid
    rw [hid'] at hv₀
    have hinstant := hd.chunk_eq hkept h hx' hv₀ hchunk hat.stored
    obtain ⟨drafts, hdrafts, draft, hdraft, hcandidate, -⟩ :=
      Call.accepted_draft h.extract_ok (h.planned.candidate_mem hx')
    have hwhole : call.record.occurredAt.WholeSecond := by
      have hrule := hd.whole drafts hdrafts draft hdraft v₀
      rw [hcandidate] at hrule
      exact hrule hv₀ htrue
    have hgate : u.prior.observedAt.micros < call.record.occurredAt.micros := by
      have hbefore := hdecided.decision.1
      rwa [Call.accepted_observedAt h.extract_ok (h.planned.candidate_mem hx)] at hbefore
    unfold DateTime.WholeSecond DateTime.timestamp at hwhole
    unfold DateTime.timestamp at hmicros
    rw [hinstant] at hmicros
    omega
  · obtain ⟨subject', predicateKey', hdecided'⟩ := h.planned.update x' hx' u' hu'
    have hinstant : u'.decision.priorSupersededAt = some call.record.occurredAt := by
      rw [hdecided'.decision.2.1, Call.accepted_observedAt h.extract_ok
        (h.planned.candidate_mem hx')]
    rw [hvertex]
    exact ⟨merge_closedNode (by simp [closedFields, hinstant]),
      merge_closedNode (by simp [closedFields])⟩

end Relieved

/-- Every `SUPERSEDES` edge is relieved in some second. -/
def SupersedesRelieved (g : Graph) : Prop :=
  ∀ a b, g.Supersedes a b → ∃ second, g.Relieved a b second

/-- **One step** leaves every edge relieved. -/
theorem supersedesRelieved_step {d : Deployment} {w : World Stores} (hw : Sourced d w.stores)
    (hfacts : w.stores.graphStore.graph.FactsStored)
    (h : SupersedesRelieved w.stores.graphStore.graph) {t : Step} (ht : StepDecisive d w t) :
    SupersedesRelieved (step d w t).stores.graphStore.graph := by
  intro a b hedge
  have hold : w.stores.graphStore.graph.Supersedes a b →
      ∃ second, (step d w t).stores.graphStore.graph.Relieved a b second := by
    intro hbefore
    obtain ⟨second, hrelieved⟩ := h a b hbefore
    exact ⟨second, hrelieved.step hw ht (factsStored_step hw hfacts t)⟩
  obtain ⟨hkept, hsame | ⟨call, faults, extraction, plan, turn, gs, rfl, hwritten⟩⟩ := step_cases hw t
  · rw [hsame] at hedge
    exact hold hedge
  · rcases hwritten.supersedes_cases hedge with hbefore | ⟨m, done, hsome, hall, x, hx, u, hu, rfl,
      rfl, hlabel⟩
    · exact hold hbefore
    · obtain ⟨v, hv, hfact⟩ := Graph.hasLabel_iff.mp hlabel
      exact ⟨call.record.occurredAt.timestamp,
        ⟨v, hv, hfact, ht.newer hw hfacts hkept hwritten hsome hall hx hv hfact⟩,
        ht.older hw hkept hwritten hsome hall hx hu⟩

/-- **Versions.** In every run whose calls are decisive, and for every query,
the expansion does not retain both ends of a `SUPERSEDES` edge, unless the query
falls into the very second in which the superseding fact was observed. Both
comparisons of the filter are strict, and the old fact ends in the second in
which the new one begins. -/
theorem supersedes_not_both (d : Deployment) (steps : List Step)
    (h : Meets d (StepDecisive d) .initial steps) {e : Expander}
    (hs : e.Sound d.allocator (run d .initial steps).stores.graphStore.graph)
    {config : RetrievalConfig} {contextId newer older : String} {seeds seeds' : List ScoredFact}
    {bounds : DateRange} {query : DateTime} {data : List GraphDatum}
    (hexpand : e.expand config contextId seeds bounds query = .ok (seeds', data))
    (hedge : (run d .initial steps).stores.graphStore.graph.Supersedes
      (factGraphId d.allocator contextId newer) (factGraphId d.allocator contextId older))
    {v : Vertex} {second : Int} (hv : (run d .initial steps).stores.graphStore.graph.nodes
      (factGraphId d.allocator contextId newer) = some v)
    (hsecond : v.props "observed_at" = some (.int second)) (hquery : query.timestamp ≠ second) :
    ¬(newer ∈ seeds'.map ScoredFact.factId ∧ older ∈ seeds'.map ScoredFact.factId) := by
  have hnone : SupersedesRelieved World.initial.stores.graphStore.graph := by
    rintro a b ⟨edge, hmem, -⟩
    cases hmem
  have hempty : World.initial.stores.graphStore.graph.FactsStored := fun id v hv => by cases hv
  have hrun := run_meets (P := fun w => Sourced d w.stores ∧
    w.stores.graphStore.graph.FactsStored ∧ SupersedesRelieved w.stores.graphStore.graph)
    ⟨sourced_initial d, hempty, hnone⟩ h
    fun w t hw ht => ⟨sourced_step hw.1 t, factsStored_step hw.1 hw.2.1 t,
      supersedesRelieved_step hw.1 hw.2.1 hw.2.2 ht⟩
  obtain ⟨at', ⟨v₁, hv₁, -, hobserved⟩, v₂, hv₂, -, hsuperseded, -⟩ := hrun.2.2 _ _ hedge
  obtain rfl : v = v₁ := Option.some.inj (hv.symm.trans hv₁)
  rintro ⟨hnewer, holder⟩
  obtain ⟨v', hv', hseen⟩ := hs.retained hexpand hnewer
  obtain rfl : v = v' := Option.some.inj (hv.symm.trans hv')
  obtain ⟨v'', hv'', hseen'⟩ := hs.retained hexpand holder
  obtain rfl : v₂ = v'' := Option.some.inj (hv₂.symm.trans hv'')
  obtain ⟨-, -, hafter, -⟩ := visible_eq_true.mp hseen
  obtain ⟨-, -, -, hbefore, -⟩ := visible_eq_true.mp hseen'
  simp only [Vertex.nodeRow, hobserved, hsuperseded, isAfter_int, isBefore_int, Except.ok.injEq,
    decide_eq_false_iff_not, not_lt] at hafter hbefore
  have hat : second = at' := by simpa using hsecond.symm.trans hobserved
  omega

/-! ### The hour of the move -/

def moveSeeds : List ScoredFact :=
  [{ factId := "boston", text := "" }, { factId := "seattle", text := "" }]

/-- Both facts of the move, as stored at the end. -/
theorem move_times :
    (∃ v, (run fixtureDeployment .initial (moveSteps nine ten)).stores.graphStore.graph.nodes
        (factGraphId fixtureDeployment.allocator "chat" "boston") = some v ∧
      v.Times 0 openSentinel 1767258000 1767261600 ∧ v.props "memory_scope" = none) ∧
    ∃ v, (run fixtureDeployment .initial (moveSteps nine ten)).stores.graphStore.graph.nodes
        (factGraphId fixtureDeployment.allocator "chat" "seattle") = some v ∧
      v.Times 0 openSentinel 1767261600 openSentinel ∧ v.props "memory_scope" = none := by
  obtain ⟨hboston, hscope₁, hseattle, hscope₂⟩ :
      (run fixtureDeployment .initial (moveSteps nine ten)).stores.graphStore.graph.times?
          (factGraphId fixtureDeployment.allocator "chat" "boston") =
        some (0, openSentinel, 1767258000, 1767261600) ∧
      ((run fixtureDeployment .initial (moveSteps nine ten)).stores.graphStore.graph.nodes
          (factGraphId fixtureDeployment.allocator "chat" "boston")).map
        (·.props "memory_scope") = some none ∧
      (run fixtureDeployment .initial (moveSteps nine ten)).stores.graphStore.graph.times?
          (factGraphId fixtureDeployment.allocator "chat" "seattle") =
        some (0, openSentinel, 1767261600, openSentinel) ∧
      ((run fixtureDeployment .initial (moveSteps nine ten)).stores.graphStore.graph.nodes
          (factGraphId fixtureDeployment.allocator "chat" "seattle")).map
        (·.props "memory_scope") = some none := by
    decide +kernel
  obtain ⟨v₁, hv₁, htimes₁⟩ := Graph.times?_eq_some hboston
  obtain ⟨v₂, hv₂, htimes₂⟩ := Graph.times?_eq_some hseattle
  rw [hv₁, Option.map_some, Option.some.injEq] at hscope₁
  rw [hv₂, Option.map_some, Option.some.injEq] at hscope₂
  exact ⟨⟨v₁, hv₁, htimes₁, hscope₁⟩, v₂, hv₂, htimes₂, hscope₂⟩

theorem move_supersedes : (run fixtureDeployment .initial
    (moveSteps nine ten)).stores.graphStore.graph.Supersedes
      (factGraphId fixtureDeployment.allocator "chat" "seattle")
      (factGraphId fixtureDeployment.allocator "chat" "boston") := by
  have hedge := seattle_supersedes_boston
  unfold moveStores seattleFact bostonFact at hedge
  exact hedge

theorem expand_move (query : DateTime) : ∃ seeds' data,
    (fixtureExpander (moveSteps nine ten)).expand {} "chat" moveSeeds {} query =
      .ok (seeds', data) := by
  obtain ⟨⟨v₁, hv₁, htimes₁, -⟩, v₂, hv₂, htimes₂, -⟩ := move_times
  apply (fixtureExpander_complete (moveSteps nine ten)).toSound.expand_ok
  intro fact hfact v hv
  simp only [moveSeeds, List.mem_cons, List.not_mem_nil, or_false] at hfact
  rcases hfact with rfl | rfl
  · dsimp only at hv
    obtain rfl : v₁ = v := Option.some.inj (hv₁.symm.trans hv)
    exact htimes₁.visible_ok _ _
  · dsimp only at hv
    obtain rfl : v₂ = v := Option.some.inj (hv₂.symm.trans hv)
    exact htimes₂.visible_ok _ _

/-- At ten sharp both versions are retained. -/
theorem supersedes_both : ¬∀ (d : Deployment) (steps : List Step) (e : Expander)
    (config : RetrievalConfig) (contextId newer older : String) (seeds seeds' : List ScoredFact)
    (bounds : DateRange) (query : DateTime) (data : List GraphDatum),
    e.Sound d.allocator (run d .initial steps).stores.graphStore.graph →
    e.expand config contextId seeds bounds query = .ok (seeds', data) →
    (run d .initial steps).stores.graphStore.graph.Supersedes
      (factGraphId d.allocator contextId newer) (factGraphId d.allocator contextId older) →
    ¬(newer ∈ seeds'.map ScoredFact.factId ∧ older ∈ seeds'.map ScoredFact.factId) := by
  intro hall
  obtain ⟨⟨v₁, hv₁, htimes₁, hscope₁⟩, v₂, hv₂, htimes₂, hscope₂⟩ := move_times
  have hcomplete := fixtureExpander_complete (moveSteps nine ten)
  obtain ⟨seeds', data, h⟩ := expand_move ten
  apply hall fixtureDeployment (moveSteps nine ten) _ {} "chat" "seattle" "boston" moveSeeds seeds' {}
    ten data hcomplete.toSound h move_supersedes
  constructor
  · rw [hcomplete.retained_iff h (by decide) hv₂, htimes₂.visible_iff, hscope₂]
    decide
  · rw [hcomplete.retained_iff h (by decide) hv₁, htimes₁.visible_iff, hscope₁]
    decide

/-- A second later only the new version is. -/
theorem supersedes_not_both_move : Meets fixtureDeployment (StepDecisive fixtureDeployment) .initial
      (moveSteps nine ten) ∧ ∃ seeds' data,
    (fixtureExpander (moveSteps nine ten)).expand {} "chat" moveSeeds {} ⟨1767261601000000, 0⟩ =
      .ok (seeds', data) ∧
    ¬("seattle" ∈ seeds'.map ScoredFact.factId ∧ "boston" ∈ seeds'.map ScoredFact.factId) := by
  have hmeets : Meets fixtureDeployment (StepDecisive fixtureDeployment) .initial
      (moveSteps nine ten) := by
    refine ⟨Decisive.mk ?_ ?_ ?_, Decisive.mk ?_ ?_ ?_, trivial⟩
    · intro drafts _ draft _ v p hv
      cases hv
    · intro drafts _ draft _ v hv
      cases hv
    · intro drafts _ draft _ v hv
      cases hv
    all_goals
      intro drafts hdrafts draft hdraft v
      cases hdrafts
      rw [List.mem_singleton.mp hdraft]
    · intro p hv
      exact absurd hv seattle_unwritten
    · intro hv
      exact absurd hv seattle_unwritten
    · intro hv
      exact absurd hv seattle_unwritten
  obtain ⟨-, v₂, hv₂, htimes₂, -⟩ := move_times
  have hcomplete := fixtureExpander_complete (moveSteps nine ten)
  obtain ⟨seeds', data, h⟩ := expand_move ⟨1767261601000000, 0⟩
  exact ⟨hmeets, seeds', data, h, supersedes_not_both fixtureDeployment (moveSteps nine ten) hmeets
    hcomplete.toSound h move_supersedes hv₂ htimes₂.observedAt (by decide)⟩

end ContextMemory
