/-
`GraphWriter.write` (`ingestion/graph_writer.py`).

A plan is registered in the manifest, then written one statement per group of
records that share label (or type and endpoint labels) and property names. The
sequence of statements is not atomic: a failure leaves any prefix of it in the graph.

Whatever prefix ran, its effect is that of writing the records of its groups one by
one (`writeRecord`). That is the form in which everything else reasons about it.
-/

import ContextMemory.Lib.Program
import ContextMemory.Persistence.Manifest
import ContextMemory.Client.Hydra

namespace ContextMemory

open Faulty

/-! ### Statements -/

/-- The grouping key of a node. -/
def nodeGroup (n : GraphNode) : NodeLabel × Finset String := (n.label, n.properties.names)

/-- The grouping key of a relationship. -/
def relationshipGroup (e : GraphRelationship) :
    RelationshipType × NodeLabel × NodeLabel × Finset String :=
  (e.relationshipType, e.sourceLabel, e.destinationLabel, e.properties.names)

/-- `_node_rows`. -/
def nodeRows (nodes : List GraphNode) : List NodeRow :=
  nodes.map fun n => ⟨n.graphId, n.properties⟩

/-- `_relationship_rows`. -/
def relationshipRows (relationships : List GraphRelationship) : List RelationshipRow :=
  relationships.map fun e => ⟨e.graphId, e.sourceId, e.destinationId, e.properties⟩

/-- One `transport.write` call and the records its rows were made from. -/
structure GroupWrite where
  statement : Statement
  records : List GraphRecord

def nodeWrite (group : (NodeLabel × Finset String) × List GraphNode) : GroupWrite where
  statement := .mergeNodes group.1.1 group.1.2 (nodeRows group.2)
  records := group.2.map .node

def relationshipWrite (group : (RelationshipType × NodeLabel × NodeLabel × Finset String) ×
    List GraphRelationship) : GroupWrite where
  statement := .mergeRelationships group.1.1 group.1.2.1 group.1.2.2.1 group.1.2.2.2
    (relationshipRows group.2)
  records := group.2.map .relationship

/-- The statements of a plan in the order they are sent: nodes first. -/
def groupWrites (plan : GraphWritePlan) : List GroupWrite :=
  (Ordered.groups nodeGroup plan.nodes).map nodeWrite ++
    (Ordered.groups relationshipGroup plan.relationships).map relationshipWrite

/-! ### Writing -/

/-- The two stores of a graph write. `written` is what the service has executed so far. -/
structure GraphStore where
  manifest : Manifest := .empty
  graph : Graph := {}
  written : List GraphRecord := []

namespace GraphStore

def register (s : GraphStore) (plan : GraphWritePlan) : Except Exn (Unit × GraphStore) :=
  (s.manifest.register plan).map fun m => ((), { s with manifest := m })

def send (s : GraphStore) (w : GroupWrite) : Except Exn (Unit × GraphStore) :=
  (s.graph.execute w.statement).map fun g =>
    ((), { s with graph := g, written := s.written ++ w.records })

end GraphStore

/-- `GraphWriter.write`; the bookmarks it returns are read by nobody. -/
def writePlan (plan : GraphWritePlan) : Prog GraphStore Exn Unit := do
  Prog.op fun s => s.register plan
  Prog.forEach (fun w => Prog.op fun s => s.send w) (groupWrites plan)

/-! ### Statements as record writes -/

/-- The edge a relationship is written to, with the endpoints its row really carries. -/
def GraphRelationship.edgeKey (e : GraphRelationship) : Option EdgeKey :=
  match shadowedId e.properties "source_id" e.sourceId,
      shadowedId e.properties "destination_id" e.destinationId with
  | some source, some destination => some ⟨e.relationshipType, source, destination, e.graphId⟩
  | _, _ => none

/-- The effect of one record on the graph. -/
def Graph.writeRecord (g : Graph) : GraphRecord → Graph
  | .node n => g.mergeNode n.label ⟨n.graphId, n.properties⟩
  | .relationship e =>
      match e.edgeKey with
      | some key => g.mergeEdge key e.properties
      | none => g

def Graph.writeRecords (g : Graph) (records : List GraphRecord) : Graph :=
  records.foldl Graph.writeRecord g

theorem mem_groupWrites {plan : GraphWritePlan} {w : GroupWrite} (h : w ∈ groupWrites plan) :
    (∃ group ∈ Ordered.groups nodeGroup plan.nodes, w = nodeWrite group) ∨
      ∃ group ∈ Ordered.groups relationshipGroup plan.relationships,
        w = relationshipWrite group := by
  rcases List.mem_append.mp h with h | h
  · obtain ⟨group, hgroup, rfl⟩ := List.mem_map.mp h
    exact Or.inl ⟨group, hgroup, rfl⟩
  · obtain ⟨group, hgroup, rfl⟩ := List.mem_map.mp h
    exact Or.inr ⟨group, hgroup, rfl⟩

/-- Every record sent is a record of the plan. -/
theorem groupWrites_sound {plan : GraphWritePlan} {w : GroupWrite} (h : w ∈ groupWrites plan)
    {r : GraphRecord} (hr : r ∈ w.records) : r ∈ plan.records := by
  rw [GraphWritePlan.mem_records]
  rcases mem_groupWrites h with ⟨group, hgroup, rfl⟩ | ⟨group, hgroup, rfl⟩
  · obtain ⟨n, hn, rfl⟩ := List.mem_map.mp hr
    exact Or.inl ⟨n, ((Ordered.mem_group hgroup).mp hn).1, rfl⟩
  · obtain ⟨e, he, rfl⟩ := List.mem_map.mp hr
    exact Or.inr ⟨e, ((Ordered.mem_group hgroup).mp he).1, rfl⟩

/-- Every record of the plan is sent. -/
theorem groupWrites_complete {plan : GraphWritePlan} {r : GraphRecord} (h : r ∈ plan.records) :
    ∃ w ∈ groupWrites plan, r ∈ w.records := by
  rcases GraphWritePlan.mem_records.mp h with ⟨n, hn, rfl⟩ | ⟨e, he, rfl⟩
  · obtain ⟨group, hgroup, -, hmem⟩ : ∃ g ∈ Ordered.groups nodeGroup plan.nodes,
      g.1 = nodeGroup n ∧ n ∈ g.2 := Ordered.exists_group hn
    exact ⟨nodeWrite group, List.mem_append_left _ (List.mem_map_of_mem hgroup),
      List.mem_map_of_mem hmem⟩
  · obtain ⟨group, hgroup, -, hmem⟩ : ∃ g ∈ Ordered.groups relationshipGroup plan.relationships,
      g.1 = relationshipGroup e ∧ e ∈ g.2 := Ordered.exists_group he
    exact ⟨relationshipWrite group, List.mem_append_right _ (List.mem_map_of_mem hgroup),
      List.mem_map_of_mem hmem⟩

theorem mem_flatMap_groupWrites {plan : GraphWritePlan} {r : GraphRecord} :
    r ∈ (groupWrites plan).flatMap (·.records) ↔ r ∈ plan.records := by
  rw [List.mem_flatMap]
  constructor
  · rintro ⟨w, hw, hr⟩
    exact groupWrites_sound hw hr
  · exact groupWrites_complete

theorem execute_nodeWrite {g g' : Graph}
    {group : (NodeLabel × Finset String) × List GraphNode}
    (hlabel : ∀ n ∈ group.2, n.label = group.1.1)
    (h : g.execute (nodeWrite group).statement = .ok g') :
    g' = g.writeRecords (nodeWrite group).records := by
  obtain ⟨⟨label, names⟩, nodes⟩ := group
  simp only [nodeWrite, Graph.execute] at h
  split at h
  · cases h
  · cases h
    simp only [nodeWrite, nodeRows, Graph.writeRecords, List.foldl_map]
    induction nodes generalizing g with
    | nil => rfl
    | cons n rest ih =>
        have hn : n.label = label := hlabel n List.mem_cons_self
        simp only [List.foldl_cons, Graph.writeRecord, hn]
        exact ih fun m hm => hlabel m (List.mem_cons_of_mem _ hm)

/-- The keys a relationship statement resolved are those of its records. -/
theorem rowKey_eq_some {g : Graph} {e : GraphRelationship} {sourceLabel destinationLabel : NodeLabel}
    {key : EdgeKey} (h : g.rowKey e.relationshipType sourceLabel destinationLabel
      ⟨e.graphId, e.sourceId, e.destinationId, e.properties⟩ = some key) :
    e.edgeKey = some key ∧ g.hasLabel key.source sourceLabel = true ∧
      g.hasLabel key.destination destinationLabel = true := by
  unfold Graph.rowKey at h
  split at h
  · rename_i source destination hsource hdestination
    split at h
    · rename_i hends
      cases h
      simp only [RelationshipRow.sourceId, RelationshipRow.destinationId] at hsource hdestination
      rw [Bool.and_eq_true] at hends
      exact ⟨by simp only [GraphRelationship.edgeKey, hsource, hdestination], hends.1, hends.2⟩
    · cases h
  · cases h

theorem execute_relationshipWrite {g g' : Graph}
    {group : (RelationshipType × NodeLabel × NodeLabel × Finset String) × List GraphRelationship}
    (htype : ∀ e ∈ group.2, e.relationshipType = group.1.1)
    (h : g.execute (relationshipWrite group).statement = .ok g') :
    g' = g.writeRecords (relationshipWrite group).records ∧
      ∀ e ∈ group.2, ∃ key, e.edgeKey = some key ∧ g.hasLabel key.source group.1.2.1 = true ∧
        g.hasLabel key.destination group.1.2.2.1 = true := by
  obtain ⟨⟨type, sourceLabel, destinationLabel, names⟩, edges⟩ := group
  simp only [relationshipWrite, Graph.execute] at h
  split at h
  · cases h
  · split at h
    · cases h
    · rename_i keyed hkeyed
      cases h
      -- the keys are resolved against the graph before the statement, so that one stays fixed
      suffices H : ∀ (start : Graph), List.foldl (fun g kp => g.mergeEdge kp.1 kp.2) start keyed =
          start.writeRecords (edges.map .relationship) ∧ ∀ e ∈ edges, ∃ key, e.edgeKey = some key ∧
            g.hasLabel key.source sourceLabel = true ∧
            g.hasLabel key.destination destinationLabel = true from H g
      induction edges generalizing keyed with
      | nil =>
          simp only [relationshipRows, List.map_nil, List.mapM_nil] at hkeyed
          cases hkeyed
          exact fun start => ⟨rfl, by simp⟩
      | cons e rest ih =>
          intro start
          simp only [relationshipRows, List.map_cons, List.mapM_cons, Option.bind_eq_bind,
            Option.bind_eq_some_iff, Option.map_eq_some_iff] at hkeyed
          obtain ⟨kp, ⟨key, hkey, rfl⟩, keyed', hrest, hpure⟩ := hkeyed
          cases hpure
          have he : e.relationshipType = type := htype e List.mem_cons_self
          rw [← he] at hkey
          obtain ⟨hedge, hsource, hdestination⟩ := rowKey_eq_some hkey
          have hwrite : start.writeRecord (.relationship e) = start.mergeEdge key e.properties := by
            simp only [Graph.writeRecord, hedge]
          obtain ⟨hfold, hall⟩ := ih (fun d hd => htype d (List.mem_cons_of_mem _ hd)) keyed' hrest
            (start.mergeEdge key e.properties)
          refine ⟨?_, fun d hd => ?_⟩
          · simp only [List.foldl_cons, hfold, Graph.writeRecords, List.map_cons, hwrite]
          · rcases List.mem_cons.mp hd with rfl | hd
            · exact ⟨key, hedge, hsource, hdestination⟩
            · exact hall d hd

/-- **Statements.** An executed statement wrote exactly the records of its
group. -/
theorem execute_groupWrite {plan : GraphWritePlan} {w : GroupWrite} (hw : w ∈ groupWrites plan)
    {g g' : Graph} (h : g.execute w.statement = .ok g') : g' = g.writeRecords w.records := by
  rcases mem_groupWrites hw with ⟨group, hgroup, rfl⟩ | ⟨group, hgroup, rfl⟩
  · refine execute_nodeWrite (fun n hn => ?_) h
    exact congrArg Prod.fst ((Ordered.mem_group hgroup).mp hn).2
  · refine (execute_relationshipWrite (fun e he => ?_) h).1
    exact congrArg Prod.fst ((Ordered.mem_group hgroup).mp he).2

/-! ### What a list of record writes leaves -/

section Records

variable {g : Graph} {records : List GraphRecord}

theorem writeRecord_nodes_of_ne {r : GraphRecord} {id : Nat}
    (h : ∀ n, r = .node n → n.graphId ≠ id) : (g.writeRecord r).nodes id = g.nodes id := by
  cases r with
  | node n => exact Graph.mergeNode_nodes_of_ne g n.label (Ne.symm (h n rfl))
  | relationship e =>
      simp only [Graph.writeRecord]
      split <;> rfl

/-- A node no record is for is left alone. -/
theorem writeRecords_nodes_of_not_mem {id : Nat}
    (h : ∀ n, GraphRecord.node n ∈ records → n.graphId ≠ id) :
    (g.writeRecords records).nodes id = g.nodes id := by
  induction records generalizing g with
  | nil => rfl
  | cons r rest ih =>
      have hrest : (g.writeRecords (r :: rest)).nodes id = (g.writeRecord r).nodes id :=
        ih fun n hn => h n (List.mem_cons_of_mem _ hn)
      rw [hrest]
      exact writeRecord_nodes_of_ne fun n hn => h n (hn ▸ List.mem_cons_self)

theorem Vertex.merge_merge (old : Option Vertex) (label : NodeLabel) (properties : Properties) :
    Vertex.merge (some (Vertex.merge old label properties)) label properties =
      Vertex.merge old label properties := by
  simp only [Vertex.merge, Option.getD_some, Properties.assign_assign, Finset.insert_idem]

/-- A node some record is for carries that record's label and properties;
writing it twice is writing it once. -/
theorem writeRecords_nodes_of_mem {n : GraphNode} (hmem : GraphRecord.node n ∈ records)
    (huniq : ∀ m, GraphRecord.node m ∈ records → m.graphId = n.graphId → m = n) :
    (g.writeRecords records).nodes n.graphId =
      some (Vertex.merge (g.nodes n.graphId) n.label n.properties) := by
  induction records generalizing g with
  | nil => cases hmem
  | cons r rest ih =>
      have huniq' : ∀ m, GraphRecord.node m ∈ rest → m.graphId = n.graphId → m = n :=
        fun m hm => huniq m (List.mem_cons_of_mem _ hm)
      have hstep : g.writeRecords (r :: rest) = (g.writeRecord r).writeRecords rest := rfl
      rw [hstep]
      by_cases hr : r = .node n
      · subst hr
        have hself : (g.writeRecord (.node n)).nodes n.graphId =
            some (Vertex.merge (g.nodes n.graphId) n.label n.properties) :=
          Graph.mergeNode_nodes_self g n.label ⟨n.graphId, n.properties⟩
        by_cases hrest : GraphRecord.node n ∈ rest
        · rw [ih hrest huniq', hself, Vertex.merge_merge]
        · rw [writeRecords_nodes_of_not_mem, hself]
          intro m hm heq
          exact hrest (huniq' m hm heq ▸ hm)
      · have hrest : GraphRecord.node n ∈ rest := by
          rcases List.mem_cons.mp hmem with h | h
          · exact absurd h.symm hr
          · exact h
        rw [ih hrest huniq', writeRecord_nodes_of_ne]
        intro m hm heq
        refine hr ?_
        rw [hm, huniq m (hm ▸ List.mem_cons_self) heq]

theorem writeRecord_edge_of_ne {r : GraphRecord} {key : EdgeKey}
    (h : ∀ e, r = .relationship e → e.edgeKey ≠ some key) :
    (g.writeRecord r).edge key = g.edge key := by
  cases r with
  | node n => rfl
  | relationship e =>
      simp only [Graph.writeRecord]
      split
      · rename_i key' hkey
        refine Graph.mergeEdge_edge_of_ne g e.properties fun heq => h e rfl ?_
        rw [hkey, heq]
      · rfl

theorem writeRecords_edge_of_not_mem {key : EdgeKey}
    (h : ∀ e, GraphRecord.relationship e ∈ records → e.edgeKey ≠ some key) :
    (g.writeRecords records).edge key = g.edge key := by
  induction records generalizing g with
  | nil => rfl
  | cons r rest ih =>
      have hrest : (g.writeRecords (r :: rest)).edge key = (g.writeRecord r).edge key :=
        ih fun e he => h e (List.mem_cons_of_mem _ he)
      rw [hrest]
      exact writeRecord_edge_of_ne fun e he => h e (he ▸ List.mem_cons_self)

theorem writeRecords_edge_of_mem {e : GraphRelationship} {key : EdgeKey}
    (hmem : GraphRecord.relationship e ∈ records) (hkey : e.edgeKey = some key)
    (huniq : ∀ d, GraphRecord.relationship d ∈ records → d.edgeKey = some key → d = e) :
    (g.writeRecords records).edge key =
      some (e.properties.assign ((g.edge key).getD fun _ => none)) := by
  induction records generalizing g with
  | nil => cases hmem
  | cons r rest ih =>
      have huniq' : ∀ d, GraphRecord.relationship d ∈ rest → d.edgeKey = some key → d = e :=
        fun d hd => huniq d (List.mem_cons_of_mem _ hd)
      have hstep : g.writeRecords (r :: rest) = (g.writeRecord r).writeRecords rest := rfl
      rw [hstep]
      by_cases hr : r = .relationship e
      · subst hr
        have hself : (g.writeRecord (.relationship e)).edge key =
            some (e.properties.assign ((g.edge key).getD fun _ => none)) := by
          simp only [Graph.writeRecord, hkey]
          exact Graph.mergeEdge_edge_self g key e.properties
        by_cases hrest : GraphRecord.relationship e ∈ rest
        · rw [ih hrest huniq', hself, Option.getD_some, Properties.assign_assign]
        · rw [writeRecords_edge_of_not_mem, hself]
          intro d hd heq
          exact hrest (huniq' d hd heq ▸ hd)
      · have hrest : GraphRecord.relationship e ∈ rest := by
          rcases List.mem_cons.mp hmem with h | h
          · exact absurd h.symm hr
          · exact h
        rw [ih hrest huniq', writeRecord_edge_of_ne]
        intro d hd heq
        refine hr ?_
        rw [hd, huniq d (hd ▸ List.mem_cons_self) heq]

end Records

theorem edgeKey_id {e : GraphRelationship} {key : EdgeKey} (h : e.edgeKey = some key) :
    key.id = e.graphId ∧ key.type = e.relationshipType := by
  unfold GraphRelationship.edgeKey at h
  split at h
  · cases h
    exact ⟨rfl, rfl⟩
  · cases h

/-- Within a plan, the id of a node determines it, and so does the key of an
edge. -/
theorem GraphWritePlan.node_eq {plan : GraphWritePlan} {n m : GraphNode}
    (hn : GraphRecord.node n ∈ plan.records) (hm : GraphRecord.node m ∈ plan.records)
    (h : n.graphId = m.graphId) : n = m :=
  GraphRecord.node.inj (plan.record_eq_of_graphId_eq hn hm h)

theorem GraphWritePlan.relationship_eq {plan : GraphWritePlan} {d e : GraphRelationship}
    {key : EdgeKey} (hd : GraphRecord.relationship d ∈ plan.records)
    (he : GraphRecord.relationship e ∈ plan.records) (hdkey : d.edgeKey = some key)
    (hekey : e.edgeKey = some key) : d = e := by
  have hid : d.graphId = e.graphId := (edgeKey_id hdkey).1.symm.trans (edgeKey_id hekey).1
  exact GraphRecord.relationship.inj (plan.record_eq_of_graphId_eq hd he hid)

/-- A relationship was in a group only if every node group comes before it. -/
theorem nodes_first {plan : GraphWritePlan} {sent rest : List GroupWrite}
    (hsplit : groupWrites plan = sent ++ rest) {e : GraphRelationship}
    (he : GraphRecord.relationship e ∈ sent.flatMap (·.records)) {n : GraphNode}
    (hn : n ∈ plan.nodes) : GraphRecord.node n ∈ sent.flatMap (·.records) := by
  obtain ⟨w, hw, hew⟩ := List.mem_flatMap.mp he
  have hnot : w ∉ (Ordered.groups nodeGroup plan.nodes).map nodeWrite := by
    intro hmem
    obtain ⟨group, -, rfl⟩ := List.mem_map.mp hmem
    obtain ⟨m, -, hm⟩ := List.mem_map.mp hew
    cases hm
  have hall : ∀ v ∈ (Ordered.groups nodeGroup plan.nodes).map nodeWrite, v ∈ sent := by
    rcases List.append_eq_append_iff.mp hsplit with ⟨more, hmore, -⟩ | ⟨more, hmore, -⟩
    · intro v hv
      rw [hmore]
      exact List.mem_append_left _ hv
    · refine absurd ?_ hnot
      rw [hmore]
      exact List.mem_append_left _ hw
  obtain ⟨group, hgroup, -, hmem⟩ : ∃ g ∈ Ordered.groups nodeGroup plan.nodes,
    g.1 = nodeGroup n ∧ n ∈ g.2 := Ordered.exists_group hn
  exact List.mem_flatMap.mpr ⟨nodeWrite group, hall _ (List.mem_map_of_mem hgroup),
    List.mem_map_of_mem hmem⟩

/-! ### Endpoints -/

/-- Both ends of a relationship are there, with their labels. -/
def Graph.Linked (g : Graph) (e : GraphRelationship) : Prop :=
  ∃ key, e.edgeKey = some key ∧ g.hasLabel key.source e.sourceLabel = true ∧
    g.hasLabel key.destination e.destinationLabel = true

theorem Graph.hasLabel_iff {g : Graph} {id : Nat} {label : NodeLabel} :
    g.hasLabel id label = true ↔ ∃ v, g.nodes id = some v ∧ label ∈ v.labels := by
  unfold Graph.hasLabel
  split
  · rename_i v hv
    simp [hv]
  · rename_i hv
    simp [hv]

theorem hasLabel_writeRecord {g : Graph} {id : Nat} {label : NodeLabel}
    (h : g.hasLabel id label = true) (r : GraphRecord) :
    (g.writeRecord r).hasLabel id label = true := by
  rw [Graph.hasLabel_iff] at h ⊢
  obtain ⟨v, hv, hlabel⟩ := h
  cases r with
  | relationship e =>
      refine ⟨v, ?_, hlabel⟩
      rw [writeRecord_nodes_of_ne (by simp)]
      exact hv
  | node n =>
      by_cases hid : id = n.graphId
      · subst hid
        refine ⟨_, Graph.mergeNode_nodes_self g n.label ⟨n.graphId, n.properties⟩, ?_⟩
        simp only [Vertex.merge, hv, Option.getD_some]
        exact Finset.mem_insert_of_mem hlabel
      · exact ⟨v, (Graph.mergeNode_nodes_of_ne g n.label hid).trans hv, hlabel⟩

/-- Writing only adds labels. -/
theorem hasLabel_writeRecords {g : Graph} {id : Nat} {label : NodeLabel}
    (h : g.hasLabel id label = true) (records : List GraphRecord) :
    (g.writeRecords records).hasLabel id label = true := by
  induction records generalizing g with
  | nil => exact h
  | cons r rest ih => exact ih (hasLabel_writeRecord h r)

theorem Graph.Linked.writeRecords {g : Graph} {e : GraphRelationship} (h : g.Linked e)
    (records : List GraphRecord) : (g.writeRecords records).Linked e := by
  obtain ⟨key, hkey, hsource, hdestination⟩ := h
  exact ⟨key, hkey, hasLabel_writeRecords hsource records,
    hasLabel_writeRecords hdestination records⟩

theorem linked_of_execute {plan : GraphWritePlan} {w : GroupWrite} (hw : w ∈ groupWrites plan)
    {g g' : Graph} (h : g.execute w.statement = .ok g') {e : GraphRelationship}
    (he : GraphRecord.relationship e ∈ w.records) : g.Linked e := by
  rcases mem_groupWrites hw with ⟨group, -, rfl⟩ | ⟨group, hgroup, rfl⟩
  · obtain ⟨n, -, hn⟩ := List.mem_map.mp he
    cases hn
  · obtain ⟨d, hd, hrecord⟩ := List.mem_map.mp he
    cases hrecord
    obtain ⟨-, hends⟩ := execute_relationshipWrite
      (fun e he => congrArg Prod.fst ((Ordered.mem_group hgroup).mp he).2) h
    obtain ⟨key, hkey, hsource, hdestination⟩ := hends e hd
    have hgroupKey := ((Ordered.mem_group hgroup).mp hd).2
    rw [← hgroupKey] at hsource hdestination
    exact ⟨key, hkey, hsource, hdestination⟩

/-! ### The rule for a graph write -/

/-- `J sent` speaks of the store after registration, with the groups `sent`
written. -/
theorem triple_writePlan {plan : GraphWritePlan} {P C : GraphStore → Prop}
    (J : List GroupWrite → GraphStore → Prop) (hP : ∀ s, P s → C s)
    (hregister : ∀ s m, P s → s.manifest.register plan = .ok m → J [] { s with manifest := m })
    (hsend : ∀ s sent w rest g, groupWrites plan = sent ++ w :: rest → J sent s →
      s.graph.execute w.statement = .ok g →
      J (sent ++ [w]) { s with graph := g, written := s.written ++ w.records })
    (hC : ∀ s sent, J sent s → C s) :
    Triple P (writePlan plan) (fun _ => J (groupWrites plan)) C := by
  refine Triple.bind (R := fun _ => J []) ?_ fun _ => ?_
  · refine Triple.op hP fun s value s' hs heq => ?_
    unfold GraphStore.register at heq
    cases hm : s.manifest.register plan with
    | error e =>
        rw [hm] at heq
        cases heq
    | ok m =>
        rw [hm] at heq
        cases heq
        exact ⟨hregister s m hs hm, hC _ [] (hregister s m hs hm)⟩
  · refine Triple.forEach J (groupWrites plan) fun sent w rest hsplit => ?_
    refine Triple.op (fun s hs => hC s _ hs) fun s value s' hs heq => ?_
    unfold GraphStore.send at heq
    cases hg : s.graph.execute w.statement with
    | error e =>
        rw [hg] at heq
        cases heq
    | ok g =>
        rw [hg] at heq
        cases heq
        have hnext := hsend s sent w rest g hsplit hs hg
        exact ⟨hnext, hC _ _ hnext⟩

/-- The store after the plan was registered and the records `done` of it were written. -/
structure WroteSome (plan : GraphWritePlan) (s s' : GraphStore) (m : Manifest)
    (done : List GraphRecord) : Prop where
  registered : s.manifest.register plan = .ok m
  sound : ∀ r ∈ done, r ∈ plan.records
  nodes_before : ∀ {e n}, GraphRecord.relationship e ∈ done → n ∈ plan.nodes →
    GraphRecord.node n ∈ done
  linked : ∀ {e}, GraphRecord.relationship e ∈ done → s'.graph.Linked e
  state_eq : s' = ⟨m, s.graph.writeRecords done, s.written ++ done⟩

/-- Everything a graph write can do to the store, wherever it stops: nothing, or register
the plan and write some of its records. -/
def Wrote (plan : GraphWritePlan) (s s' : GraphStore) : Prop :=
  s' = s ∨ ∃ m done, WroteSome plan s s' m done

/-- A write that returned: every record of the plan was written. -/
def WroteAll (plan : GraphWritePlan) (s s' : GraphStore) : Prop :=
  ∃ m done, WroteSome plan s s' m done ∧ ∀ r ∈ plan.records, r ∈ done

theorem WroteAll.wrote {plan : GraphWritePlan} {s s' : GraphStore} (h : WroteAll plan s s') :
    Wrote plan s s' := by
  obtain ⟨m, done, hsome, -⟩ := h
  exact Or.inr ⟨m, done, hsome⟩

/-- One more group of a plan under way. -/
theorem WroteSome.send {plan : GraphWritePlan} {s t : GraphStore} {m : Manifest}
    {sent rest : List GroupWrite} {w : GroupWrite} {g : Graph}
    (h : WroteSome plan s t m (sent.flatMap (·.records)))
    (hsplit : groupWrites plan = sent ++ w :: rest) (hg : t.graph.execute w.statement = .ok g) :
    WroteSome plan s { t with graph := g, written := t.written ++ w.records } m
      ((sent ++ [w]).flatMap (·.records)) := by
  have hw : w ∈ groupWrites plan := by
    rw [hsplit]
    simp
  have hflat : (sent ++ [w]).flatMap (·.records) = sent.flatMap (·.records) ++ w.records := by
    simp
  have hgraph : g = t.graph.writeRecords w.records := execute_groupWrite hw hg
  refine ⟨h.registered, fun r hr => ?_, fun {e n} he hn => ?_, fun {e} he => ?_, ?_⟩
  · rw [hflat] at hr
    rcases List.mem_append.mp hr with hr | hr
    · exact h.sound r hr
    · exact groupWrites_sound hw hr
  · have hsplit' : groupWrites plan = (sent ++ [w]) ++ rest := by rw [hsplit, List.append_assoc]; rfl
    exact nodes_first hsplit' he hn
  · rw [hflat] at he
    rw [hgraph]
    rcases List.mem_append.mp he with he | he
    · exact (h.linked he).writeRecords _
    · exact (linked_of_execute hw hg he).writeRecords _
  · rw [hflat, hgraph, h.state_eq]
    simp only [Graph.writeRecords, List.foldl_append, List.append_assoc]

theorem triple_writePlan_wrote (plan : GraphWritePlan) (s : GraphStore) :
    Triple (fun t => t = s) (writePlan plan) (fun _ t => WroteAll plan s t) (Wrote plan s) := by
  refine (triple_writePlan (P := fun t => t = s) (C := Wrote plan s)
    (fun sent t => ∃ m, WroteSome plan s t m (sent.flatMap (·.records))) ?_ ?_ ?_ ?_).weaken
    (fun _ h => h) (fun _ t ht => ?_) fun _ h => h
  · exact fun t ht => Or.inl ht
  · rintro t m rfl hm
    exact ⟨m, hm, by simp, by simp, by simp, by simp [Graph.writeRecords]⟩
  · rintro t sent w rest g hsplit ⟨m, hsome⟩ hg
    exact ⟨m, hsome.send hsplit hg⟩
  · rintro t sent ⟨m, hsome⟩
    exact Or.inr ⟨m, _, hsome⟩
  · obtain ⟨m, hsome⟩ := ht
    exact ⟨m, _, hsome, fun r => mem_flatMap_groupWrites.mpr⟩

theorem writePlan_wrote (plan : GraphWritePlan) (s : GraphStore) (faults : List (Fault Exn)) :
    Wrote plan s (writePlan plan s faults).state := by
  have h := triple_writePlan_wrote plan s s faults rfl
  unfold Holds at h
  split at h
  · exact h.wrote
  · exact h
  · exact h

/-- A plan the manifest refuses changes nothing. -/
theorem writePlan_refused {plan : GraphWritePlan} {s : GraphStore} {e : Exn}
    (h : s.manifest.register plan = .error e) (faults : List (Fault Exn)) :
    (writePlan plan s faults).state = s := by
  rcases writePlan_wrote plan s faults with hs | ⟨m, done, hsome⟩
  · exact hs
  · cases h.symm.trans hsome.registered

end ContextMemory
