/-
Plans are closed, and their writes can be repeated.

Every record of a plan has an id of its own kind, so records that share an id have one label,
and the endpoints an edge names are nodes of the plan with the labels it names (`Closed`).
Statements go out nodes first. On any graph they all succeed, and a write that was cut off
after any statement and is then run from the start leaves what one write leaves
(`plan_closed_and_replayable`).
-/

import ContextMemory.Ingestion.Fixture
import ContextMemory.Ingestion.Planning

namespace ContextMemory

/-! ### Kinds -/

/-- The kind under which the id of a node is allocated. -/
def nodeKind : NodeLabel → String
  | .session => "session"
  | .turn => "turn"
  | .fact => "fact"
  | .entity => "entity"
  | .alias => "alias"

/-- The kind under which the id of an edge is allocated. -/
def edgeKind : RelationshipType → String
  | .hasTurn => "has_turn"
  | .extractedFrom => "extracted_from"
  | .about => "about"
  | .hasAlias => "has_alias"
  | .supersedes => "supersedes"
  | .relatesTo => "relates_to"
  | .statedBy => "stated_by"
  | .mergedInto => "merged_into"

theorem nodeKind_injective {a b : NodeLabel} (h : nodeKind a = nodeKind b) : a = b := by
  cases a <;> cases b <;> first | rfl | exact absurd h (by decide)

theorem nodeKind_ne_edgeKind (label : NodeLabel) (type : RelationshipType) :
    nodeKind label ≠ edgeKind type := by
  cases label <;> cases type <;> decide

/-- Names that a row keeps for itself. -/
def reservedNames : List String := ["id", "ID", "Id", "iD", "source_id", "destination_id"]

/-- The id of a record is allocated under a kind, and its properties carry the context and none
of the names of a row. -/
structure Placed (allocator : GraphIdAllocator) (contextId kind : String) (r : GraphRecord) :
    Prop where
  id : ∃ key, r.graphId = allocator.allocateGraphId kind contextId key
  context : r.properties.lookup "context_id" = some (.str contextId)
  plain : ∀ name ∈ reservedNames, r.properties.lookup name = none

/-- The properties of a record are a context and keyword arguments of other
names. -/
theorem placed_scalarProperties {allocator : GraphIdAllocator} {contextId kind : String}
    {r : GraphRecord} {fields : List (String × Option Scalar)} (keys : List String)
    (hid : ∃ key, r.graphId = allocator.allocateGraphId kind contextId key)
    (hprops : r.properties.map = addFields (Finmap.singleton "context_id" (.str contextId)) fields)
    (hkeys : fields.map (·.1) = keys) (hfree : ∀ name ∈ "context_id" :: reservedNames, name ∉ keys) :
    Placed allocator contextId kind r := by
  refine ⟨hid, ?_, fun name hname => ?_⟩
  · rw [Properties.lookup, hprops]
    exact (lookup_fields_of_not_mem (hkeys ▸ hfree _ List.mem_cons_self)).trans
      Finmap.lookup_singleton_eq
  · rw [Properties.lookup, hprops]
    refine (lookup_fields_of_not_mem (hkeys ▸ hfree _ (List.mem_cons_of_mem _ hname))).trans ?_
    rw [Finmap.lookup_eq_none, Finmap.mem_singleton]
    rintro rfl
    exact absurd hname (by decide)

/-- Mentions of entities of the context. -/
def OwnMentions (allocator : GraphIdAllocator) (contextId : String) (gs : List Gathered) : Prop :=
  ∀ x ∈ gs, ∀ m ∈ x.mentions, m.profile.contextId = contextId ∧
    ∃ key, m.profile.graphId = allocator.allocateGraphId "entity" contextId key

section Assembled

variable {allocator : GraphIdAllocator} {chunk : Chunk} {now : DateTime} {turn : GraphNode}
  {gs : List Gathered}

theorem turnNode_placed (h : turnNode allocator chunk = .ok turn) :
    Placed allocator chunk.contextId "turn" (.node turn) := by
  unfold turnNode at h
  cases hindex : turnIndex chunk.metadata with
  | error e =>
      rw [hindex] at h
      cases h
  | ok index =>
      rw [hindex] at h
      cases h
      exact placed_scalarProperties ["logical_key", "chunk_id", "content_hash", "source_record_id",
        "occurred_at", "actor_role", "actor_id", "turn_index", "session_id"] ⟨_, rfl⟩ rfl rfl
        (by decide)

theorem plainEdge_placed (type : RelationshipType) (kind contextId head tail : String)
    (source destination : GraphNode) (hhead : head ≠ "") : Placed allocator contextId kind
      (.relationship (plainEdge allocator type kind contextId head tail source destination hhead)) :=
  placed_scalarProperties [] ⟨_, rfl⟩ rfl rfl (by decide)

/-- Every node of a plan. -/
theorem nodeWrites_placed (hturn : turnNode allocator chunk = .ok turn)
    (hown : OwnMentions allocator chunk.contextId gs) {n : GraphNode}
    (h : n ∈ nodeWrites allocator chunk now turn gs) :
    Placed allocator chunk.contextId (nodeKind n.label) (.node n) := by
  rcases mem_nodeWrites h with rfl | rfl | rfl |
    ⟨x, hx, rfl | ⟨m, hm, rfl | ⟨r, hr, rfl⟩⟩ | ⟨u, -, rfl⟩⟩
  · exact placed_scalarProperties ["logical_key", "session_id"] ⟨_, rfl⟩ rfl rfl (by decide)
  · obtain ⟨-, -, -, hlabel, -⟩ := turnNode_eq_ok hturn
    rw [hlabel]
    exact turnNode_placed hturn
  · exact placed_scalarProperties ["logical_key", "canonical_name", "entity_type"] ⟨_, rfl⟩ rfl rfl
      (by decide)
  · exact placed_scalarProperties factKeys ⟨_, rfl⟩ rfl rfl (by decide)
  · obtain ⟨hctx, hid⟩ := hown x hx m hm
    rw [← hctx]
    exact placed_scalarProperties ["logical_key", "canonical_name", "entity_type"] (hctx ▸ hid)
      rfl rfl
      (by decide)
  · obtain ⟨hctx, -⟩ := hown x hx m hm
    obtain ⟨name, -, rfl⟩ := List.mem_map.mp hr
    rw [← hctx]
    exact placed_scalarProperties ["logical_key", "canonical_alias", "entity_graph_id"] ⟨_, rfl⟩
      rfl rfl (by decide)
  · exact placed_scalarProperties ["logical_key", "is_current", "superseded_at", "valid_to"] ⟨_, rfl⟩
      rfl rfl (by decide)

/-- Every edge of a plan. -/
theorem relationshipWrites_placed (hown : OwnMentions allocator chunk.contextId gs)
    {e : GraphRelationship} (h : e ∈ relationshipWrites allocator chunk now turn gs) :
    Placed allocator chunk.contextId (edgeKind e.relationshipType) (.relationship e) := by
  rcases mem_relationshipWrites h with rfl |
    ⟨x, hx, rfl | rfl | ⟨m, hm, rfl | ⟨r, hr, rfl⟩⟩ | ⟨u, -, rfl⟩⟩
  · exact plainEdge_placed _ _ _ _ _ _ _ _
  · exact plainEdge_placed _ _ _ _ _ _ _ _
  · exact plainEdge_placed _ _ _ _ _ _ _ _
  · exact placed_scalarProperties ["surface"] ⟨_, rfl⟩ rfl rfl (by decide)
  · obtain ⟨hctx, -⟩ := hown x hx m hm
    obtain ⟨name, -, rfl⟩ := List.mem_map.mp hr
    rw [← hctx]
    exact placed_scalarProperties [] ⟨_, rfl⟩ rfl rfl (by decide)
  · exact plainEdge_placed _ _ _ _ _ _ _ _

/-! ### Endpoints -/

/-- A node of the plan with the id and the label. -/
def HasNode (nodes : List GraphNode) (id : Nat) (label : NodeLabel) : Prop :=
  ∃ n ∈ nodes, n.graphId = id ∧ n.label = label

theorem mem_nodeWrites_gathered {x : Gathered} (hx : x ∈ gs) {n : GraphNode}
    (h : n ∈ gatheredNodes allocator chunk now x) : n ∈ nodeWrites allocator chunk now turn gs :=
  List.mem_append_right _ (List.mem_flatMap.mpr ⟨x, hx, h⟩)

/-- Both endpoints of an edge are assigned. -/
theorem relationshipWrites_endpoints (hturn : turnNode allocator chunk = .ok turn)
    {e : GraphRelationship} (h : e ∈ relationshipWrites allocator chunk now turn gs) :
    HasNode (nodeWrites allocator chunk now turn gs) e.sourceId e.sourceLabel ∧
      HasNode (nodeWrites allocator chunk now turn gs) e.destinationId e.destinationLabel := by
  have hfixed : ∀ n ∈ [sessionNode allocator chunk, turn, speakerEntityNode allocator chunk],
      n ∈ nodeWrites allocator chunk now turn gs := fun n hn => List.mem_append_left _ hn
  have hfact : ∀ x ∈ gs, factNode allocator chunk now x.candidate ∈
      nodeWrites allocator chunk now turn gs :=
    fun x hx => mem_nodeWrites_gathered hx List.mem_cons_self
  have hmention : ∀ x ∈ gs, ∀ m ∈ x.mentions, ∀ n ∈ entityNode m.profile ::
      (aliasRecords allocator m.profile).map (·.1), n ∈ nodeWrites allocator chunk now turn gs := by
    intro x hx m hm n hn
    refine mem_nodeWrites_gathered hx (List.mem_cons_of_mem _ (List.mem_append_left _ ?_))
    exact List.mem_flatMap.mpr ⟨m, hm, hn⟩
  obtain ⟨-, -, -, hlabel, -⟩ := turnNode_eq_ok hturn
  rcases mem_relationshipWrites h with rfl |
    ⟨x, hx, rfl | rfl | ⟨m, hm, rfl | ⟨r, hr, rfl⟩⟩ | ⟨u, hu, rfl⟩⟩
  · exact ⟨⟨_, hfixed _ (by simp), rfl, rfl⟩, ⟨_, hfixed _ (by simp), rfl, rfl⟩⟩
  · exact ⟨⟨_, hfact x hx, rfl, rfl⟩, ⟨_, hfixed turn (by simp), rfl, rfl⟩⟩
  · exact ⟨⟨_, hfact x hx, rfl, rfl⟩, ⟨_, hfixed _ (by simp), rfl, rfl⟩⟩
  · exact ⟨⟨_, hfact x hx, rfl, rfl⟩, ⟨_, hmention x hx m hm _ List.mem_cons_self, rfl, rfl⟩⟩
  · have hnode := hmention x hx m hm r.1 (List.mem_cons_of_mem _ (List.mem_map_of_mem hr))
    obtain ⟨name, -, rfl⟩ := List.mem_map.mp hr
    exact ⟨⟨_, hmention x hx m hm _ List.mem_cons_self, rfl, rfl⟩, ⟨_, hnode, rfl, rfl⟩⟩
  · refine ⟨⟨_, hfact x hx, rfl, rfl⟩, ⟨closedNode allocator chunk.contextId u, ?_, rfl, rfl⟩⟩
    exact mem_nodeWrites_gathered hx
      (List.mem_cons_of_mem _ (List.mem_append_right _ (List.mem_map_of_mem hu)))

/-- Every relationship of the plan connects nodes of the plan, with the labels it names. -/
structure Closed (plan : GraphWritePlan) : Prop where
  source : ∀ e ∈ plan.relationships, HasNode plan.nodes e.sourceId e.sourceLabel
  destination : ∀ e ∈ plan.relationships, HasNode plan.nodes e.destinationId e.destinationLabel

/-- The records of a plan are its own kind of records, and its relationships are closed. -/
structure Sealed (allocator : GraphIdAllocator) (plan : GraphWritePlan) : Prop where
  node : ∀ n ∈ plan.nodes, Placed allocator plan.contextId (nodeKind n.label) (.node n)
  relationship : ∀ e ∈ plan.relationships,
    Placed allocator plan.contextId (edgeKind e.relationshipType) (.relationship e)
  closed : Closed plan

theorem sealed_assemble (hturn : turnNode allocator chunk = .ok turn)
    (hown : OwnMentions allocator chunk.contextId gs) {plan : GraphWritePlan}
    (h : assemble allocator chunk now turn gs = .ok plan) : Sealed allocator plan := by
  obtain ⟨hctx, hnodes, hedges⟩ := assemble_eq_ok h
  have hnode : ∀ n ∈ plan.nodes, n ∈ nodeWrites allocator chunk now turn gs := by
    rw [hnodes]
    exact fun n hn => Ordered.mem_of_mem_ofAssignments hn
  have hedge : ∀ e ∈ plan.relationships, e ∈ relationshipWrites allocator chunk now turn gs := by
    rw [hedges]
    exact fun e he => Ordered.mem_of_mem_ofAssignments he
  -- the node that is left under an id has the label of every node assigned to it
  have hleft : ∀ {id label}, HasNode (nodeWrites allocator chunk now turn gs) id label →
      HasNode plan.nodes id label := by
    rintro id label ⟨n, hn, rfl, rfl⟩
    have hid : n.graphId ∈ plan.nodes.map (·.graphId) := by
      rw [hnodes]
      exact Ordered.mem_keys_ofAssignments.mpr (List.mem_map_of_mem hn)
    obtain ⟨k, hk, hsame⟩ := List.mem_map.mp hid
    refine ⟨k, hk, hsame, ?_⟩
    obtain ⟨key, hkey⟩ := (nodeWrites_placed hturn hown hn).id
    obtain ⟨key', hkey'⟩ := (nodeWrites_placed hturn hown (hnode k hk)).id
    have hkind := (allocator.injective (hkey'.symm.trans (hsame.trans hkey))).1
    exact nodeKind_injective hkind
  refine ⟨fun n hn => ?_, fun e he => ?_, ⟨fun e he => ?_, fun e he => ?_⟩⟩
  · rw [hctx]
    exact nodeWrites_placed hturn hown (hnode n hn)
  · rw [hctx]
    exact relationshipWrites_placed hown (hedge e he)
  · exact hleft (relationshipWrites_endpoints hturn (hedge e he)).1
  · exact hleft (relationshipWrites_endpoints hturn (hedge e he)).2

/-- Nothing that was gathered makes the constructor of the plan raise. -/
theorem assemble_ok (now : DateTime) (hcontext : chunk.contextId ≠ "")
    (hturn : turnNode allocator chunk = .ok turn) (hown : OwnMentions allocator chunk.contextId gs) :
    ∃ plan, assemble allocator chunk now turn gs = .ok plan := by
  have hnode := fun n (hn : n ∈ Ordered.ofAssignments GraphNode.graphId
    (nodeWrites allocator chunk now turn gs)) =>
      nodeWrites_placed hturn hown (Ordered.mem_of_mem_ofAssignments hn)
  have hedge := fun e (he : e ∈ Ordered.ofAssignments GraphRelationship.graphId
    (relationshipWrites allocator chunk now turn gs)) =>
      relationshipWrites_placed hown (Ordered.mem_of_mem_ofAssignments he)
  unfold assemble GraphWritePlan.ofRecords
  rw [dif_pos hcontext, dif_pos (key_ne (by simp)), dif_pos, dif_pos]
  · exact ⟨_, rfl⟩
  · intro r hr
    rcases List.mem_append.mp hr with hr | hr
    · obtain ⟨n, hn, rfl⟩ := List.mem_map.mp hr
      exact (hnode n hn).context
    · obtain ⟨e, he, rfl⟩ := List.mem_map.mp hr
      exact (hedge e he).context
  · unfold planRecords
    rw [List.map_append, List.map_map, List.map_map]
    refine List.Nodup.append (Ordered.nodup_ofAssignments _) (Ordered.nodup_ofAssignments _) ?_
    intro id hnodeId hedgeId
    obtain ⟨n, hn, rfl⟩ := List.mem_map.mp hnodeId
    obtain ⟨e, he, hsame⟩ := List.mem_map.mp hedgeId
    obtain ⟨key, hkey⟩ := (hnode n hn).id
    obtain ⟨key', hkey'⟩ := (hedge e he).id
    have hkind := (allocator.injective (hkey.symm.trans (Eq.trans hsame.symm hkey'))).1
    exact nodeKind_ne_edgeKind _ _ hkind

end Assembled

/-! ### Writing -/

/-- The statements of `write`, in order. -/
def statements (plan : GraphWritePlan) : List Statement := (groupWrites plan).map (·.statement)

/-- Statements one after another; the first that fails ends them. -/
def Graph.executeAll : Graph → List Statement → Except Exn Graph
  | g, [] => .ok g
  | g, statement :: rest =>
      match g.execute statement with
      | .ok g => g.executeAll rest
      | .error e => .error e

theorem executeAll_append {g g' : Graph} {first : List Statement} (rest : List Statement)
    (h : g.executeAll first = .ok g') : g.executeAll (first ++ rest) = g'.executeAll rest := by
  induction first generalizing g with
  | nil =>
      cases h
      rfl
  | cons statement first ih =>
      simp only [Graph.executeAll, List.cons_append] at h ⊢
      split at h
      · exact ih h
      · cases h

theorem Graph.ext_nodes_edges {g g' : Graph} (hnodes : g.nodes = g'.nodes)
    (hedges : g.edges = g'.edges) : g = g' := by
  cases g
  cases g'
  simp only at hnodes hedges
  subst hnodes hedges
  rfl

section Writing

variable {allocator : GraphIdAllocator} {plan : GraphWritePlan} {g : Graph}

/-- The row of a relationship carries the endpoints of the record. -/
theorem Placed.edgeKey {contextId kind : String} {e : GraphRelationship}
    (h : Placed allocator contextId kind (.relationship e)) :
    e.edgeKey = some ⟨e.relationshipType, e.sourceId, e.destinationId, e.graphId⟩ := by
  have hsource : e.properties.lookup "source_id" = none := h.plain _ (by decide)
  have hdestination : e.properties.lookup "destination_id" = none := h.plain _ (by decide)
  simp only [GraphRelationship.edgeKey, shadowedId, hsource, hdestination]

theorem Placed.not_setsId {contextId kind : String} {r : GraphRecord}
    (h : Placed allocator contextId kind r) : setsId r.properties.names = false := by
  have hfree : ∀ name ∈ reservedNames, name ∉ r.properties.names :=
    fun name hname => Properties.lookup_eq_none.mp (h.plain name hname)
  simp only [setsId, decide_eq_false_iff_not, not_or]
  exact ⟨hfree _ (by decide), hfree _ (by decide), hfree _ (by decide), hfree _ (by decide)⟩

/-- With the nodes of the plan written, its relationships are linked. -/
theorem Sealed.linked (h : Sealed allocator plan) {done : List GraphRecord}
    (hsound : ∀ r ∈ done, r ∈ plan.records) (hnodes : ∀ n ∈ plan.nodes, GraphRecord.node n ∈ done)
    {e : GraphRelationship} (he : e ∈ plan.relationships) : (g.writeRecords done).Linked e := by
  have hlabel : ∀ {id label}, HasNode plan.nodes id label →
      (g.writeRecords done).hasLabel id label = true := by
    rintro id label ⟨n, hn, rfl, rfl⟩
    refine Graph.hasLabel_iff.mpr ⟨_, writeRecords_nodes_of_mem (hnodes n hn) ?_, ?_⟩
    · exact fun m hm hsame => GraphWritePlan.node_eq (hsound _ hm) (hsound _ (hnodes n hn)) hsame
    · exact Finset.mem_insert_self _ _
  exact ⟨_, (h.relationship e he).edgeKey, hlabel (h.closed.source e he),
    hlabel (h.closed.destination e he)⟩

/-- The row of a linked relationship finds its endpoints. -/
theorem Placed.rowKey {contextId kind : String} {e : GraphRelationship}
    (h : Placed allocator contextId kind (.relationship e)) (hlinked : g.Linked e) :
    g.rowKey e.relationshipType e.sourceLabel e.destinationLabel
        ⟨e.graphId, e.sourceId, e.destinationId, e.properties⟩ =
      some ⟨e.relationshipType, e.sourceId, e.destinationId, e.graphId⟩ := by
  obtain ⟨key, hkey, hsource, hdestination⟩ := hlinked
  obtain rfl := Option.some.inj (h.edgeKey.symm.trans hkey)
  have hsourceId : e.properties.lookup "source_id" = none := h.plain _ (by decide)
  have hdestinationId : e.properties.lookup "destination_id" = none := h.plain _ (by decide)
  simp only [Graph.rowKey, RelationshipRow.sourceId, RelationshipRow.destinationId, shadowedId,
    hsourceId, hdestinationId, hsource, hdestination, Bool.and_self, if_true]

theorem mapM_isSome {α β : Type} {f : α → Option β} {xs : List α}
    (h : ∀ x ∈ xs, ∃ y, f x = some y) : ∃ ys, xs.mapM f = some ys := by
  induction xs with
  | nil => exact ⟨[], rfl⟩
  | cons x xs ih =>
      obtain ⟨y, hy⟩ := h x List.mem_cons_self
      obtain ⟨ys, hys⟩ := ih fun z hz => h z (List.mem_cons_of_mem _ hz)
      exact ⟨y :: ys, by simp [List.mapM_cons, hy, hys]⟩

/-- A statement whose endpoints are there is executed. -/
theorem Sealed.execute (h : Sealed allocator plan) {w : GroupWrite} (hw : w ∈ groupWrites plan)
    (hlinked : ∀ e, GraphRecord.relationship e ∈ w.records → g.Linked e) :
    g.execute w.statement = .ok (g.writeRecords w.records) := by
  suffices hok : ∃ g', g.execute w.statement = .ok g' by
    obtain ⟨g', hg'⟩ := hok
    rw [hg', execute_groupWrite hw hg']
  rcases mem_groupWrites hw with ⟨group, hgroup, rfl⟩ | ⟨group, hgroup, rfl⟩
  · obtain ⟨n, hn, hkey⟩ := Ordered.exists_mem_of_group hgroup
    have hnames : setsId group.1.2 = false := by
      rw [← hkey]
      exact (h.node n hn).not_setsId
    simp only [nodeWrite, Graph.execute, hnames]
    exact ⟨_, rfl⟩
  · obtain ⟨e, he, hkey⟩ := Ordered.exists_mem_of_group hgroup
    have hnames : setsId group.1.2.2.2 = false := by
      rw [← hkey]
      exact (h.relationship e he).not_setsId
    have hrows : ∃ keyed, (relationshipRows group.2).mapM (fun row =>
        (g.rowKey group.1.1 group.1.2.1 group.1.2.2.1 row).map fun key => (key, row.properties)) =
          some keyed := by
      refine mapM_isSome fun row hrow => ?_
      obtain ⟨d, hd, rfl⟩ := List.mem_map.mp hrow
      obtain ⟨hmem, hgroupKey⟩ := (Ordered.mem_group hgroup).mp hd
      rw [← hgroupKey]
      exact ⟨_, congrArg (Option.map _)
        ((h.relationship d hmem).rowKey (hlinked d (List.mem_map_of_mem hd)))⟩
    obtain ⟨keyed, hkeyed⟩ := hrows
    simp only [relationshipWrite, Graph.execute, hnames, hkeyed]
    exact ⟨_, rfl⟩

/-- Any first part of the statements, on any graph. -/
theorem Sealed.executeAll (h : Sealed allocator plan) (g : Graph) {sent rest : List GroupWrite}
    (hsplit : groupWrites plan = sent ++ rest) :
    g.executeAll (sent.map (·.statement)) = .ok (g.writeRecords (sent.flatMap (·.records))) := by
  induction sent using List.reverseRecOn generalizing rest with
  | nil => rfl
  | append_singleton sent w ih =>
      have hsplit' : groupWrites plan = sent ++ w :: rest := by simpa using hsplit
      have hw : w ∈ groupWrites plan := by
        rw [hsplit']
        simp
      have hsound : ∀ r ∈ sent.flatMap (·.records), r ∈ plan.records := by
        intro r hr
        obtain ⟨v, hv, hrv⟩ := List.mem_flatMap.mp hr
        refine groupWrites_sound ?_ hrv
        rw [hsplit']
        exact List.mem_append_left _ hv
      have hlinked : ∀ e, GraphRecord.relationship e ∈ w.records →
          (g.writeRecords (sent.flatMap (·.records))).Linked e := by
        intro e he
        have hmem : e ∈ plan.relationships := by
          rcases GraphWritePlan.mem_records.mp (groupWrites_sound hw he) with ⟨n, -, hn⟩ | ⟨d, hd, hr⟩
          · cases hn
          · cases hr
            exact hd
        refine h.linked hsound (fun n hn => ?_) hmem
        -- the nodes went before `w`, whose records are relationships
        have hfirst := nodes_first hsplit
          (List.mem_flatMap.mpr ⟨w, List.mem_append_right _ (List.mem_singleton_self w), he⟩) hn
        rw [List.flatMap_append, List.flatMap_singleton] at hfirst
        rcases List.mem_append.mp hfirst with hfirst | hfirst
        · exact hfirst
        · rcases mem_groupWrites hw with ⟨group, -, rfl⟩ | ⟨group, -, rfl⟩
          · obtain ⟨k, -, hk⟩ := List.mem_map.mp he
            cases hk
          · obtain ⟨k, -, hk⟩ := List.mem_map.mp hfirst
            cases hk
      rw [List.map_append, executeAll_append _ (ih hsplit')]
      simp only [List.map_singleton, Graph.executeAll, h.execute hw hlinked]
      rw [List.flatMap_append, List.flatMap_singleton, Graph.writeRecords, Graph.writeRecords,
        Graph.writeRecords, List.foldl_append]

/-- A record that was written is absorbed. -/
theorem writeRecord_absorbed {done : List GraphRecord} (hsound : ∀ r ∈ done, r ∈ plan.records)
    {r : GraphRecord} (hr : r ∈ done) : (g.writeRecords done).writeRecord r = g.writeRecords done := by
  cases r with
  | node n =>
      have hnode := writeRecords_nodes_of_mem (g := g) hr
        fun m hm hsame => GraphWritePlan.node_eq (hsound _ hm) (hsound _ hr) hsame
      refine Graph.ext_nodes_edges ?_ rfl
      refine Function.update_eq_self_iff.mpr ?_
      rw [hnode, Vertex.merge_merge]
  | relationship e =>
      simp only [Graph.writeRecord]
      split
      · rename_i key hkey
        have hedge := writeRecords_edge_of_mem (g := g) hr hkey
          fun d hd hdkey => GraphWritePlan.relationship_eq (hsound _ hd) (hsound _ hr) hdkey hkey
        obtain ⟨d, hd, hdkey, hprops⟩ := Graph.exists_mem_of_edge hedge
        have hmerged : (g.writeRecords done).mergedEdge key e.properties = d := by
          rw [Graph.mergedEdge, hedge, Option.getD_some, Properties.assign_assign, ← hprops, ← hdkey]
          rfl
        refine Graph.ext_nodes_edges rfl ?_
        change Ordered.upsert Edge.key _ _ = _
        rw [hmerged]
        exact Ordered.upsert_of_mem (g.writeRecords done).edges_nodup hd
      · rfl

/-- Writing the records once more changes nothing. -/
theorem writeRecords_again {done : List GraphRecord} (hsound : ∀ r ∈ done, r ∈ plan.records) :
    (g.writeRecords done).writeRecords done = g.writeRecords done := by
  suffices H : ∀ part, (∀ r ∈ part, r ∈ done) →
      (g.writeRecords done).writeRecords part = g.writeRecords done from H done fun r hr => hr
  intro part hpart
  induction part with
  | nil => rfl
  | cons r rest ih =>
      have hstep : (g.writeRecords done).writeRecords (r :: rest) =
          ((g.writeRecords done).writeRecord r).writeRecords rest := rfl
      rw [hstep, writeRecord_absorbed hsound (hpart r List.mem_cons_self)]
      exact ih fun s hs => hpart s (List.mem_cons_of_mem _ hs)

/-- A graph that holds what the plan says. -/
structure Applied (plan : GraphWritePlan) (g : Graph) : Prop where
  node : ∀ n ∈ plan.nodes, ∃ v, g.nodes n.graphId = some v ∧ n.label ∈ v.labels ∧
    ∀ key value, n.properties.lookup key = some value → v.props key = some value
  relationship : ∀ e ∈ plan.relationships, ∃ d ∈ g.edges,
    d.key = ⟨e.relationshipType, e.sourceId, e.destinationId, e.graphId⟩ ∧
    ∀ key value, e.properties.lookup key = some value → d.props key = some value

theorem Sealed.applied (h : Sealed allocator plan) {done : List GraphRecord}
    (hdone : ∀ r, r ∈ done ↔ r ∈ plan.records) : Applied plan (g.writeRecords done) := by
  have hassign : ∀ (p : Properties) (old : String → Option Scalar) key value,
      p.lookup key = some value → p.assign old key = some value := by
    intro p old key value hvalue
    rw [Properties.assign, hvalue, Option.some_or]
  constructor
  · intro n hn
    have hmem : GraphRecord.node n ∈ done :=
      (hdone _).mpr (GraphWritePlan.mem_records.mpr (Or.inl ⟨n, hn, rfl⟩))
    refine ⟨_, writeRecords_nodes_of_mem hmem ?_, Finset.mem_insert_self _ _, hassign _ _⟩
    exact fun m hm hsame => GraphWritePlan.node_eq ((hdone _).mp hm) ((hdone _).mp hmem) hsame
  · intro e he
    have hmem : GraphRecord.relationship e ∈ done :=
      (hdone _).mpr (GraphWritePlan.mem_records.mpr (Or.inr ⟨e, he, rfl⟩))
    have hkey := (h.relationship e he).edgeKey
    have hedge := writeRecords_edge_of_mem (g := g) hmem hkey fun d hd hdkey =>
      GraphWritePlan.relationship_eq ((hdone _).mp hd) ((hdone _).mp hmem) hdkey hkey
    obtain ⟨d, hd, hdkey, hprops⟩ := Graph.exists_mem_of_edge hedge
    exact ⟨d, hd, hdkey, fun key value hvalue => by rw [hprops]; exact hassign _ _ key value hvalue⟩

/-- The whole write on any graph, also after any part of it. -/
theorem Sealed.write (h : Sealed allocator plan) (g : Graph) :
    ∃ g', g.executeAll (statements plan) = .ok g' ∧ Applied plan g' ∧
      ∀ k, g.executeAll ((statements plan).take k ++ statements plan) = .ok g' := by
  have hwhole := fun g => h.executeAll g (List.append_nil (groupWrites plan)).symm
  refine ⟨_, hwhole g, h.applied fun r => mem_flatMap_groupWrites, fun k => ?_⟩
  have hsplit : groupWrites plan = (groupWrites plan).take k ++ (groupWrites plan).drop k :=
    (List.take_append_drop k _).symm
  have hpart := h.executeAll g hsplit
  have htake : (statements plan).take k = ((groupWrites plan).take k).map (·.statement) :=
    List.map_take.symm
  rw [htake, executeAll_append _ hpart]
  refine (hwhole _).trans (congrArg Except.ok ?_)
  -- what the part wrote is written once more, and then the rest
  have hsound : ∀ r ∈ ((groupWrites plan).take k).flatMap (·.records), r ∈ plan.records := by
    intro r hr
    obtain ⟨w, hw, hrw⟩ := List.mem_flatMap.mp hr
    exact groupWrites_sound (List.mem_of_mem_take hw) hrw
  have hrecords : (groupWrites plan).flatMap (·.records) =
      ((groupWrites plan).take k).flatMap (·.records) ++
        ((groupWrites plan).drop k).flatMap (·.records) := by
    rw [← List.flatMap_append, ← hsplit]
  have happend : ∀ (g : Graph) (a b : List GraphRecord),
      g.writeRecords (a ++ b) = (g.writeRecords a).writeRecords b :=
    fun g a b => List.foldl_append
  rw [hrecords, happend, happend, writeRecords_again hsound]

end Writing

/-! ### Built plans -/

/-- The resolver returns entities of the context, with ids allocated for entities. -/
def Callables.ResolvesIn (c : Callables) (allocator : GraphIdAllocator) (contextId : String) : Prop :=
  ∀ i j surface entityType p, c.resolve i j contextId surface entityType = some p →
    p.contextId = contextId ∧ ∃ key, p.graphId = allocator.allocateGraphId "entity" contextId key

section Built

variable {allocator : GraphIdAllocator} {chunk : Chunk}

/-- A turn index that is a scalar, `null` or absent makes a turn node. -/
theorem turnNode_ok (allocator : GraphIdAllocator)
    (hindex : ∀ text, chunk.metadata.lookup "turn_index" ≠ some (.compound text)) :
    ∃ turn, turnNode allocator chunk = .ok turn := by
  have hok : ∃ index, turnIndex chunk.metadata = .ok index := by
    unfold turnIndex
    split
    · exact ⟨_, rfl⟩
    · exact ⟨_, rfl⟩
    · exact ⟨_, rfl⟩
    · rename_i text htext
      exact absurd htext (hindex text)
  obtain ⟨index, hindex⟩ := hok
  rw [turnNode, hindex]
  exact ⟨_, rfl⟩

/-- What is gathered for a build. -/
theorem Callables.gathered {c : Callables} {records : List ContextRecord}
    {accepted : List ExtractedMemoryCandidate}
    (hvalid : ∀ candidate ∈ accepted, validateCandidate candidate records = .ok ())
    (hresolve : c.ResolvesIn allocator chunk.contextId) :
    ∃ gs, c.gather chunk.contextId 0 accepted = .ok gs ∧
      OwnMentions allocator chunk.contextId gs := by
  obtain ⟨gs, hgs, -, hall⟩ := Callables.gather_ok c chunk.contextId 0 hvalid
  refine ⟨gs, hgs, fun x hx m hm => ?_⟩
  obtain ⟨k, hk⟩ := hall x hx
  rw [(Callables.gatherOne_eq_ok hk).2.1] at hm
  obtain ⟨j, surface, entityType, hp⟩ := Callables.mem_resolveMentions hm
  exact hresolve k j surface entityType m.profile hp

end Built

/-- The plans of the pipeline are closed as well. -/
theorem Builder.build_closed {b : Builder} {g : Graph} {profiles profiles' : Profiles}
    {chunk : Chunk} {extraction : ExtractionResult} {plan : GraphWritePlan}
    (hall : ∀ p ∈ profiles, b.registry.Allocated p)
    (h : b.build g profiles chunk extraction = (.ok plan, profiles')) : Closed plan := by
  obtain ⟨turn, gs, hturn, hgather, hplan⟩ := Builder.build_eq_ok h
  have hsound := ((Builder.gather_spec hall hgather).2 gs rfl).2
  refine (sealed_assemble hturn (fun x hx m hm => ?_) hplan).closed
  obtain ⟨hallocated, hctx⟩ := (hsound x hx).mention m hm
  exact ⟨hctx, _, hctx ▸ hallocated.1⟩

/-- Plan closure and crash-safe write: for accepted candidates, `build` raises
nothing and returns a closed plan; its statements succeed on any graph and leave
everything the plan says, and so does the whole write after any part of it. An
entity that is answered is one of the context; the classifier and the lookup may
answer anything. -/
theorem plan_closed_and_replayable (allocator : GraphIdAllocator) (chunk : Chunk)
    (hcontext : chunk.contextId ≠ "")
    (hindex : ∀ text, chunk.metadata.lookup "turn_index" ≠ some (.compound text))
    (accepted : List ExtractedMemoryCandidate) (records : List ContextRecord)
    (hvalid : ∀ candidate ∈ accepted, validateCandidate candidate records = .ok ())
    (c : Callables) (hresolve : c.ResolvesIn allocator chunk.contextId) (now : DateTime) :
    ∃ plan, c.build allocator chunk now accepted = .ok plan ∧
      (plan.records.map (·.graphId)).Nodup ∧ Closed plan ∧
      ∀ g : Graph, ∃ g', g.executeAll (statements plan) = .ok g' ∧ Applied plan g' ∧
        ∀ k, g.executeAll ((statements plan).take k ++ statements plan) = .ok g' := by
  obtain ⟨turn, hturn⟩ := turnNode_ok allocator hindex
  obtain ⟨gs, hgs, hown⟩ := Callables.gathered hvalid hresolve
  obtain ⟨plan, hplan⟩ := assemble_ok now hcontext hturn hown
  have hsealed := sealed_assemble hturn hown hplan
  refine ⟨plan, ?_, plan.ids_nodup, hsealed.closed, hsealed.write⟩
  rw [Callables.build, hturn]
  dsimp only
  rw [hgs]
  exact hplan

/-! ### Max moves once more -/

def seattleChunk : Chunk := (seattleCall nine ten).chunk fixtureDeployment

/-- Max moved to Seattle, from `validFrom` on if that is known. -/
def seattleCandidate (validFrom : Option DateTime) : ExtractedMemoryCandidate where
  candidateId := "seattle"
  text := "Max moved to Seattle."
  memoryType := .episodic
  scopeType := .chat
  scopeId := "chat"
  sourceSpan := ⟨"seattle", 0, 21⟩
  confidence := 1
  temporal := ⟨ten, validFrom, none⟩
  entities := seattleDraft.entities
  predicateKey := some "lives_in"
  candidateId_ne := seattleDraft.candidateId_ne
  text_ne := seattleDraft.text_ne
  scopeId_ne := officeBatch.contextId_ne
  confidence_unit := seattleDraft.confidence_unit

def maxProfile : EntityProfile where
  graphId := numberingAllocator.allocateGraphId "entity" "chat" "entity:max"
  contextId := "chat"
  canonicalName := "max"
  contextId_ne := officeBatch.contextId_ne

/-- Max is known to live in Boston, and every new fact about him is a change of state. -/
def movingCallables : Callables where
  resolve _ _ _ _ _ := some maxProfile
  classify := some fun _ _ newFact _ => {
    relation := .stateChange
    reason := "model-confirmed state change"
    priorSupersededAt := some newFact.observedAt
    priorValidTo := some (newFact.validFrom.getD newFact.observedAt) }
  findExistingFacts := some fun _ _ subjectId predicateKey =>
    [⟨"boston", subjectId, predicateKey, "Max lives in Boston.", nine, none, none⟩]

theorem movingCallables_resolvesIn : movingCallables.ResolvesIn numberingAllocator "chat" := by
  intro i j surface entityType p h
  cases h
  exact ⟨rfl, _, rfl⟩

/-- A turn about the move, whose plan also closes the fact about Boston. The
plan is closed, the prior fact's node included. -/
theorem plan_closed_and_replayable_seattle :
    movingCallables.ResolvesIn numberingAllocator "chat" ∧
      ∃ plan, movingCallables.build numberingAllocator seattleChunk ten [seattleCandidate none] =
          .ok plan ∧ Closed plan := by
  have hvalid : ∀ candidate ∈ [seattleCandidate none],
      validateCandidate candidate [seattleRecord ten] = .ok () := by
    intro candidate hmem
    rw [List.mem_singleton.mp hmem]
    rfl
  obtain ⟨plan, hplan, -, hclosed, -⟩ := plan_closed_and_replayable numberingAllocator seattleChunk
    (by decide) (fun text => by simp [seattleChunk, seattleCall, seattleRecord, Call.chunk,
      chunkFromRecord]) [seattleCandidate none] [seattleRecord ten] hvalid movingCallables
    movingCallables_resolvesIn ten
  exact ⟨movingCallables_resolvesIn, plan, hplan, hclosed⟩

end ContextMemory
