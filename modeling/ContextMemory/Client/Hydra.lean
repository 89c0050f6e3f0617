/-
The graph service behind `HydraHttpTransport` (`client/hydradb_http.py`, and the
vendored `hydradb` where it decides what a statement does).

Two statements are written and one query is read:

* `UNWIND $rows AS row MERGE (n {id: row.id}) SET n:Label, n.p = row.p, ...`
* `UNWIND $rows AS row MATCH (s:S {id: row.source_id}), (d:D {id: row.destination_id})
  MERGE (s)-[r:T {id: row.id}]->(d) SET r.p = row.p, ...`
* `_FIND_EXISTING_CYPHER` of `ingestion/fact_lookup.py`.

A statement is one transaction of the service. It is refused as a whole if it would
set `id`, or if an endpoint is missing or lacks its label. Labels are only added, and
`SET` assigns the listed names and no others. A row map is `{"id": .., **properties}`,
so a property named like an endpoint field replaces the endpoint.
-/

import Mathlib.Logic.Function.Basic
import ContextMemory.Lib.Ordered
import ContextMemory.Core.Graph

namespace ContextMemory

structure Vertex where
  labels : Finset NodeLabel := ∅
  props : String → Option Scalar := fun _ => none

structure Edge where
  type : RelationshipType
  source : Nat
  destination : Nat
  id : Nat
  props : String → Option Scalar := fun _ => none

/-- What a relationship is matched on. -/
structure EdgeKey where
  type : RelationshipType
  source : Nat
  destination : Nat
  id : Nat
deriving DecidableEq

def Edge.key (e : Edge) : EdgeKey := ⟨e.type, e.source, e.destination, e.id⟩

/-- The stored graph; relationships stand in the order they were created. -/
structure Graph where
  nodes : Nat → Option Vertex := fun _ => none
  edges : List Edge := []
  edges_nodup : (edges.map Edge.key).Nodup := by exact List.nodup_nil

/-- `SET x.p = row.p` for the names of a property map. -/
def Properties.assign (p : Properties) (props : String → Option Scalar) : String → Option Scalar :=
  fun key => (p.lookup key).or (props key)

theorem Properties.assign_assign (p : Properties) (props : String → Option Scalar) :
    p.assign (p.assign props) = p.assign props := by
  funext key
  simp only [Properties.assign]
  cases p.lookup key <;> rfl

structure NodeRow where
  id : Nat
  properties : Properties
deriving DecidableEq

structure RelationshipRow where
  id : Nat
  source : Nat
  destination : Nat
  properties : Properties
deriving DecidableEq

/-- A write statement with its rows. -/
inductive Statement where
  | mergeNodes (label : NodeLabel) (names : Finset String) (rows : List NodeRow)
  | mergeRelationships (type : RelationshipType) (sourceLabel destinationLabel : NodeLabel)
      (names : Finset String) (rows : List RelationshipRow)

/-- `row.field`, where the properties may shadow the row's own entry. -/
def shadowedId (properties : Properties) (field : String) (own : Nat) : Option Nat :=
  match properties.lookup field with
  | none => some own
  | some (.int n) => if 0 ≤ n then some n.toNat else none
  | some _ => none

def RelationshipRow.sourceId (row : RelationshipRow) : Option Nat :=
  shadowedId row.properties "source_id" row.source

def RelationshipRow.destinationId (row : RelationshipRow) : Option Nat :=
  shadowedId row.properties "destination_id" row.destination

/-- Names for which `SET` would assign the identity. -/
def setsId (names : Finset String) : Bool :=
  decide ("id" ∈ names ∨ "ID" ∈ names ∨ "Id" ∈ names ∨ "iD" ∈ names)

/-- The vertex `MERGE ... SET` leaves at an id. -/
def Vertex.merge (old : Option Vertex) (label : NodeLabel) (properties : Properties) : Vertex :=
  let v := old.getD {}
  ⟨insert label v.labels, properties.assign v.props⟩

/-- The columns `_FIND_EXISTING_CYPHER` returns. -/
structure FactRow where
  logicalKey : Option Scalar
  text : Option Scalar
  observedAt : Option Scalar
  validFrom : Option Scalar
  validTo : Option Scalar
deriving DecidableEq

/-- `(f:Fact {context_id: .., predicate_key: .., is_current: true})`. -/
def Vertex.isCurrentFact (v : Vertex) (contextId predicateKey : String) : Bool :=
  decide (NodeLabel.fact ∈ v.labels ∧ v.props "context_id" = some (.str contextId) ∧
    v.props "predicate_key" = some (.str predicateKey) ∧ v.props "is_current" = some (.bool true))

def Vertex.factRow (v : Vertex) : FactRow where
  logicalKey := v.props "logical_key"
  text := v.props "text"
  observedAt := v.props "observed_at"
  validFrom := v.props "valid_from"
  validTo := v.props "valid_to"

namespace Graph

def hasLabel (g : Graph) (id : Nat) (label : NodeLabel) : Bool :=
  match g.nodes id with
  | some v => decide (label ∈ v.labels)
  | none => false

def mergeNode (g : Graph) (label : NodeLabel) (row : NodeRow) : Graph :=
  let vertex := Vertex.merge (g.nodes row.id) label row.properties
  { g with nodes := Function.update g.nodes row.id (some vertex) }

/-- The properties of a relationship, if it exists. -/
def edge (g : Graph) (key : EdgeKey) : Option (String → Option Scalar) :=
  (Ordered.find Edge.key key g.edges).map Edge.props

/-- The relationship `MERGE ... SET` leaves under a key. -/
def mergedEdge (g : Graph) (key : EdgeKey) (properties : Properties) : Edge :=
  ⟨key.type, key.source, key.destination, key.id,
    properties.assign ((g.edge key).getD fun _ => none)⟩

/-- `MERGE (s)-[r:T {id}]->(d) SET ...` between existing endpoints. -/
def mergeEdge (g : Graph) (key : EdgeKey) (properties : Properties) : Graph :=
  { g with
    edges := Ordered.upsert Edge.key (g.mergedEdge key properties) g.edges
    edges_nodup := Ordered.nodup_upsert g.edges_nodup }

/-- The edge key a row asks for, if its endpoints are there. -/
def rowKey (g : Graph) (type : RelationshipType) (sourceLabel destinationLabel : NodeLabel)
    (row : RelationshipRow) : Option EdgeKey :=
  match row.sourceId, row.destinationId with
  | some source, some destination =>
      if g.hasLabel source sourceLabel && g.hasLabel destination destinationLabel then
        some ⟨type, source, destination, row.id⟩
      else none
  | _, _ => none

/-- One statement of the service. -/
def execute (g : Graph) : Statement → Except Exn Graph
  | .mergeNodes label names rows =>
      if setsId names then .error (.provider "UNWIND vertex SET cannot update node id")
      else .ok (rows.foldl (fun g row => g.mergeNode label row) g)
  | .mergeRelationships type sourceLabel destinationLabel names rows =>
      if setsId names then .error (.provider "UNWIND relationship SET cannot update relationship id")
      else
        match rows.mapM fun row =>
            (g.rowKey type sourceLabel destinationLabel row).map fun key => (key, row.properties) with
        | none => .error (.provider "MATCH endpoint vertex does not exist or lacks its label")
        | some keyed => .ok (keyed.foldl (fun g kp => g.mergeEdge kp.1 kp.2) g)

/-! ### One record at a time -/

@[simp] theorem mergeNode_nodes_self (g : Graph) (label : NodeLabel) (row : NodeRow) :
    (g.mergeNode label row).nodes row.id =
      some (Vertex.merge (g.nodes row.id) label row.properties) :=
  Function.update_self _ _ _

theorem mergeNode_nodes_of_ne (g : Graph) (label : NodeLabel) {row : NodeRow} {id : Nat}
    (h : id ≠ row.id) : (g.mergeNode label row).nodes id = g.nodes id :=
  Function.update_of_ne h _ _

@[simp] theorem mergeNode_edge (g : Graph) (label : NodeLabel) (row : NodeRow) (key : EdgeKey) :
    (g.mergeNode label row).edge key = g.edge key := rfl

@[simp] theorem mergeEdge_nodes (g : Graph) (key : EdgeKey) (properties : Properties) :
    (g.mergeEdge key properties).nodes = g.nodes := rfl

theorem mergeEdge_edge_self (g : Graph) (key : EdgeKey) (properties : Properties) :
    (g.mergeEdge key properties).edge key =
      some (properties.assign ((g.edge key).getD fun _ => none)) := by
  have hfind : Ordered.find Edge.key (g.mergedEdge key properties).key
      (Ordered.upsert Edge.key (g.mergedEdge key properties) g.edges) =
        some (g.mergedEdge key properties) := Ordered.find_upsert_self _ _
  exact congrArg (Option.map Edge.props) hfind

theorem mergeEdge_edge_of_ne (g : Graph) {key other : EdgeKey} (properties : Properties)
    (h : other ≠ key) : (g.mergeEdge key properties).edge other = g.edge other := by
  have hfind : Ordered.find Edge.key other
      (Ordered.upsert Edge.key (g.mergedEdge key properties) g.edges) =
        Ordered.find Edge.key other g.edges := Ordered.find_upsert_of_ne h
  exact congrArg (Option.map Edge.props) hfind

/-- A stored relationship is found under its own key. -/
theorem edge_of_mem {g : Graph} {e : Edge} (h : e ∈ g.edges) : g.edge e.key = some e.props := by
  rw [edge, Ordered.find_of_mem g.edges_nodup h]
  rfl

theorem exists_mem_of_edge {g : Graph} {key : EdgeKey} {props : String → Option Scalar}
    (h : g.edge key = some props) : ∃ e ∈ g.edges, e.key = key ∧ e.props = props := by
  obtain ⟨e, he, rfl⟩ := Option.map_eq_some_iff.mp h
  obtain ⟨hmem, hkey⟩ := Ordered.find_eq_some he
  exact ⟨e, hmem, hkey, rfl⟩

/-! ### Reading -/

/-- All rows of `_FIND_EXISTING_CYPHER`: one per `ABOUT` edge into the subject. -/
def findExistingRows (g : Graph) (contextId : String) (subjectId : Nat) (predicateKey : String) :
    List FactRow :=
  g.edges.filterMap fun e =>
    if e.type = .about ∧ e.destination = subjectId then
      match g.nodes e.source with
      | some v =>
          if v.isCurrentFact contextId predicateKey then some v.factRow else none
      | none => none
    else none

theorem mem_findExistingRows {g : Graph} {contextId predicateKey : String} {subjectId : Nat}
    {row : FactRow} : row ∈ g.findExistingRows contextId subjectId predicateKey ↔
      ∃ e ∈ g.edges, e.type = .about ∧ e.destination = subjectId ∧ ∃ v, g.nodes e.source = some v ∧
        v.isCurrentFact contextId predicateKey = true ∧ row = v.factRow := by
  unfold findExistingRows
  rw [List.mem_filterMap]
  constructor
  · rintro ⟨e, he, h⟩
    split at h
    · rename_i hedge
      split at h
      · rename_i v hv
        split at h
        · rename_i hcurrent
          cases h
          exact ⟨e, he, hedge.1, hedge.2, v, hv, hcurrent, rfl⟩
        · cases h
      · cases h
    · cases h
  · rintro ⟨e, he, htype, hdest, v, hv, hcurrent, rfl⟩
    refine ⟨e, he, ?_⟩
    rw [if_pos ⟨htype, hdest⟩, hv]
    simp only [hcurrent, if_true]

end Graph

end ContextMemory
