/-
`HydrationManager.hydrate_context` (`hydration.py`), the half that fills the
`EntityNameIndex` (`db/embedding_index.py`) from the graph.

The rows come through `HydraHttpTransport.read`. A read that fails, and a row whose id or
name is no text, ends the loop with what was indexed before it.
-/

import ContextMemory.Ingestion.FactLookup

namespace ContextMemory

/-! ### The index -/

structure IndexedEntity where
  entityId : String
  name : String
  entityType : Option Scalar
  haystackId : String
  embedding : List Rat
deriving DecidableEq

/-- `EntityNameIndex.add`; `encode` is the sentence model. -/
def EntityNameIndex.add (encode : String → List Rat) (entityId name : Scalar)
    (entityType : Option Scalar) (haystackId : String) (index : List IndexedEntity) :
    Except Exn (List IndexedEntity) :=
  match entityId, name with
  | .str entityId, .str name =>
      if entityId = "" then .error (.valueError "entity_id must be a non-empty string")
      else if haystackId = "" then .error (.valueError "haystack_id must be a non-empty string")
      else if name = "" then .error (.valueError "name must be a non-empty string")
      else .ok (Ordered.upsert IndexedEntity.entityId
        ⟨entityId, name, entityType, haystackId, encode name⟩ index)
  | .str entityId, _ =>
      if entityId = "" then .error (.valueError "entity_id must be a non-empty string")
      else if haystackId = "" then .error (.valueError "haystack_id must be a non-empty string")
      else .error (.valueError "name must be a non-empty string")
  | _, _ => .error (.valueError "entity_id must be a non-empty string")

/-! ### The entities of a context -/

/-- The columns of the hydration query. -/
structure EntityRow where
  id : Option Scalar
  name : Option Scalar
  type : Option Scalar
deriving DecidableEq

/-- `(e:Entity {context_id: ..})`. -/
def Vertex.isEntityOf (v : Vertex) (contextId : String) : Bool :=
  decide (NodeLabel.entity ∈ v.labels ∧ v.props "context_id" = some (.str contextId))

def Vertex.entityRow (v : Vertex) : EntityRow where
  id := v.props "logical_key"
  name := v.props "canonical_name"
  type := v.props "entity_type"

/-- The rows are those of the entities of a context, in some order. -/
def Graph.IsEntityRows (g : Graph) (contextId : String) (rows : List EntityRow) : Prop :=
  ∀ row, row ∈ rows ↔ ∃ id v, g.nodes id = some v ∧ v.isEntityOf contextId = true ∧
    row = v.entityRow

def hydrateCypher : String :=
  "\n        MATCH (e:Entity \x7bcontext_id: $context_id\x7d) \n" ++
  "        RETURN e.logical_key as id, e.canonical_name as name, e.entity_type as type\n        "

def hydrateParameters (contextId : String) : Json := .obj [("context_id", .str contextId)]

def entityColumns : List String := ["id", "name", "type"]

def EntityRow.properties (row : EntityRow) : List (Option Scalar) := [row.id, row.name, row.type]

def EntityRow.cells (row : EntityRow) : List HttpQueryValue := row.properties.map propertyCell

def EntityRow.ofResult (row : ResultRow) : EntityRow := ⟨row.get "id", row.get "name", row.get "type"⟩

theorem EntityRow.ofResult_ofColumns (row : EntityRow) :
    EntityRow.ofResult (ResultRow.ofColumns entityColumns (row.properties.map propertyJson)) =
      row := by
  obtain ⟨id, name, type⟩ := row
  simp [EntityRow.ofResult, ResultRow.get, ResultRow.ofColumns, entityColumns,
    EntityRow.properties, List.lookup_cons]

/-! ### Hydration -/

section Hydrate

variable (encode : String → List Rat) (contextId : String)

/-- One turn of the loop. -/
def hydrateRow (row : EntityRow) (index : List IndexedEntity) :
    Except Exn (List IndexedEntity) :=
  let indexUnder (entityId : Option Scalar) : Except Exn (List IndexedEntity) :=
    match entityId, row.name with
    | some entityId, some name =>
        if entityId.truthy && name.truthy then
          EntityNameIndex.add encode entityId name row.type contextId index
        else .ok index
    | _, _ => .ok index
  match row.id with
  | some (.str id) => indexUnder (some (.str (removePrefix "entity:" id)))
  | some other =>
      if other.truthy then .error (.provider "object has no attribute 'startswith'")
      else indexUnder (some other)
  | none => indexUnder none

/-- The loop, which an exception ends. -/
def hydrateRows : List EntityRow → List IndexedEntity → List IndexedEntity
  | [], index => index
  | row :: rest, index =>
      match hydrateRow encode contextId row index with
      | .ok index => hydrateRows rest index
      | .error _ => index

/-- `hydrate_context`, from the entity query on. -/
def hydrateEntities (transport : HydraHttpTransport) (index : List IndexedEntity) :
    List IndexedEntity :=
  match transport.read hydrateCypher (hydrateParameters contextId) none with
  | .ok rows => hydrateRows encode contextId (rows.map EntityRow.ofResult) index
  | .error _ => index

/-- Hydration sees the entities of the first page, and no others. -/
theorem hydrateEntities_eq {service : QueryService} {cellId : String} {rows : List EntityRow}
    {next : Option Nat} (h : service.page hydrateCypher (hydrateParameters contextId) none
      service.defaultPageSize = .ok ⟨entityColumns, rows.map EntityRow.cells, next⟩)
    (index : List IndexedEntity) :
    hydrateEntities encode contextId ⟨cellId, service.respond⟩ index =
      hydrateRows encode contextId rows index := by
  have hdecoded : decodeRows entityColumns (rows.map EntityRow.cells) = .ok (rows.map fun row =>
      ResultRow.ofColumns entityColumns (row.properties.map propertyJson)) :=
    decodeRows_map (fun row => decodeResultRow_properties rfl) rows
  rw [hydrateEntities, HydraHttpTransport.read_firstPage none h]
  simp only [hdecoded, List.map_map, Function.comp_def, EntityRow.ofResult_ofColumns, List.map_id']

end Hydrate

end ContextMemory
