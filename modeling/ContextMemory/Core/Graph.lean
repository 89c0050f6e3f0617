/-
The validated records of a graph write (`core/graph.py`).

A property map is unordered and has identifier-safe keys, both by construction; a
`GraphWritePlan` is one whose constructor accepted it: record ids are pairwise
distinct over nodes and relationships together, and every record carries the
plan's `context_id`.

`payloadHash` stands for the SHA-256 of the canonical JSON text of a record. The
digest is represented by what it digests, so it is collision-free by construction:
label or type, endpoints, id and the property map, whose order `sort_keys` erases.
-/

import ContextMemory.Core.Models

namespace ContextMemory

/-! ### Labels and property maps -/

/-- `NODE_LABELS`. -/
inductive NodeLabel where
  | session | turn | fact | entity | «alias»
deriving DecidableEq, Repr

/-- `RELATIONSHIP_TYPES`. -/
inductive RelationshipType where
  | hasTurn | extractedFrom | about | hasAlias | supersedes | relatesTo | statedBy | mergedInto
deriving DecidableEq, Repr

/-- `key.replace("_", "").isalnum()`. Letters and digits outside ASCII are not told
apart from other characters there: all of them are let through. -/
def identifierSafe (key : String) : Bool :=
  let rest := key.toList.filter (· ≠ '_')
  rest ≠ [] && rest.all fun c => c.isAlphanum || 128 ≤ c.toNat

abbrev PropertyMap := Finmap (fun _ : String => Scalar)

/-- The properties of a record. -/
structure Properties where
  map : PropertyMap
  safe : ∀ k ∈ map, identifierSafe k = true
deriving DecidableEq

namespace Properties

def lookup (p : Properties) (key : String) : Option Scalar := p.map.lookup key

/-- The property names; `tuple(sorted(properties))` is this set in order. -/
def names (p : Properties) : Finset String := p.map.keys

theorem mem_names {p : Properties} {key : String} : key ∈ p.names ↔ ∃ v, p.lookup key = some v := by
  rw [names, Finmap.mem_keys, Finmap.mem_iff]
  rfl

theorem lookup_eq_none {p : Properties} {key : String} : p.lookup key = none ↔ key ∉ p.names := by
  rw [names, Finmap.mem_keys, lookup, Finmap.lookup_eq_none]

@[ext] theorem ext {p q : Properties} (h : ∀ k, p.lookup k = q.lookup k) : p = q := by
  obtain ⟨m, hm⟩ := p
  obtain ⟨n, hn⟩ := q
  have : m = n := Finmap.ext_lookup h
  subst this
  rfl

/-- `{**old, **new}`: the new values win, no key is dropped. -/
def merge (old new : Properties) : Properties where
  map := new.map ∪ old.map
  safe k hk := by
    rcases Finmap.mem_union.mp hk with h | h
    · exact new.safe k h
    · exact old.safe k h

theorem lookup_merge (old new : Properties) (key : String) :
    (old.merge new).lookup key = (new.lookup key).or (old.lookup key) := by
  unfold merge lookup
  by_cases h : key ∈ new.map
  · obtain ⟨v, hv⟩ := Finmap.mem_iff.mp h
    simp [Finmap.lookup_union_left h, hv]
  · simp [Finmap.lookup_union_right h, Finmap.lookup_eq_none.mpr h]

end Properties

/-- The keyword arguments of `_scalar_properties`, `None` values dropped. -/
def addFields (map : PropertyMap) (fields : List (String × Option Scalar)) : PropertyMap :=
  fields.foldl (fun m field => match field.2 with
    | none => m
    | some value => m.insert field.1 value) map

/-- The value a keyword list gives a key. -/
def fieldValue (fields : List (String × Option Scalar)) (key : String) : Option Scalar :=
  (fields.find? (·.1 = key)).bind (·.2)

theorem mem_addFields {fields : List (String × Option Scalar)} {map : PropertyMap} {key : String}
    (h : key ∈ addFields map fields) : key ∈ map ∨ key ∈ fields.map (·.1) := by
  induction fields generalizing map with
  | nil => exact Or.inl h
  | cons field rest ih =>
      obtain ⟨name, value⟩ := field
      cases value with
      | none =>
          rcases ih h with hm | hr
          · exact Or.inl hm
          · exact Or.inr (List.mem_cons_of_mem _ hr)
      | some value =>
          rcases ih h with hm | hr
          · rcases Finmap.mem_insert.mp hm with rfl | hm
            · exact Or.inr List.mem_cons_self
            · exact Or.inl hm
          · exact Or.inr (List.mem_cons_of_mem _ hr)

/-- With distinct keywords, a key reads its own argument, else what was there. -/
theorem lookup_addFields {fields : List (String × Option Scalar)} {map : PropertyMap} {key : String}
    (hnd : (fields.map (·.1)).Nodup) :
    (addFields map fields).lookup key = (fieldValue fields key).or (map.lookup key) := by
  induction fields generalizing map with
  | nil => rfl
  | cons field rest ih =>
      obtain ⟨name, value⟩ := field
      obtain ⟨hnot, hrest⟩ := List.nodup_cons.mp hnd
      have hstep : addFields map ((name, value) :: rest) =
          addFields (match value with | none => map | some v => map.insert name v) rest := by
        cases value <;> rfl
      rw [hstep, ih hrest]
      by_cases hk : name = key
      · subst hk
        have hnone : rest.find? (·.1 = name) = none := by
          rw [List.find?_eq_none]
          intro entry hentry heq
          exact hnot (List.mem_map.mpr ⟨entry, hentry, by simpa using heq⟩)
        cases value <;> simp [fieldValue, hnone, Finmap.lookup_insert]
      · have hfv : fieldValue ((name, value) :: rest) key = fieldValue rest key := by
          simp [fieldValue, hk]
        cases value with
        | none => rw [hfv]
        | some v => rw [hfv, Finmap.lookup_insert_of_ne _ (Ne.symm hk)]

/-- A keyword list whose keywords are identifier-safe, whatever the values. -/
theorem fieldsSafe {fields : List (String × Option Scalar)} (keys : List String)
    (hkeys : fields.map (·.1) = keys) (hsafe : keys.all identifierSafe = true) :
    ∀ f ∈ fields, identifierSafe f.1 = true := by
  intro f hf
  rw [List.all_eq_true] at hsafe
  exact hsafe f.1 (hkeys ▸ List.mem_map_of_mem hf)

/-- `_scalar_properties(context_id, **fields)`. -/
def scalarProperties (contextId : String) (fields : List (String × Option Scalar))
    (hsafe : ∀ f ∈ fields, identifierSafe f.1 = true) : Properties where
  map := addFields (Finmap.singleton "context_id" (.str contextId)) fields
  safe k hk := by
    rcases mem_addFields hk with h | h
    · rw [Finmap.mem_singleton] at h
      subst h
      decide
    · obtain ⟨field, hmem, rfl⟩ := List.mem_map.mp h
      exact hsafe field hmem

/-- A keyword argument is read back. -/
theorem lookup_fields_of_mem {map : PropertyMap} {fields : List (String × Option Scalar)}
    (hnd : (fields.map (·.1)).Nodup) {key : String} {value : Scalar}
    (h : (key, some value) ∈ fields) : (addFields map fields).lookup key = some value := by
  have hfound : fields.find? (·.1 = key) = some (key, some value) := by
    cases hf : fields.find? (·.1 = key) with
    | none => exact absurd (by simp) (List.find?_eq_none.mp hf _ h)
    | some field =>
        have hkey : field.1 = key := by simpa using List.find?_some hf
        rw [List.inj_on_of_nodup_map hnd (List.mem_of_find?_eq_some hf) h hkey]
  rw [lookup_addFields hnd, fieldValue, hfound]
  rfl

/-- A name that is not a keyword argument has the value it had. -/
theorem lookup_fields_of_not_mem {map : PropertyMap} {fields : List (String × Option Scalar)}
    {key : String} (h : key ∉ fields.map (·.1)) :
    (addFields map fields).lookup key = map.lookup key := by
  induction fields generalizing map with
  | nil => rfl
  | cons field rest ih =>
      rw [List.map_cons, List.mem_cons, not_or] at h
      obtain ⟨name, value⟩ := field
      have hrest := @ih (match value with | none => map | some v => map.insert name v) h.2
      cases value with
      | none => exact hrest
      | some v => exact hrest.trans (Finmap.lookup_insert_of_ne _ h.1)

/-- Fields other than `context_id` leave it as it was given. -/
theorem lookup_context_scalarProperties {contextId : String}
    {fields : List (String × Option Scalar)} {hsafe : ∀ f ∈ fields, identifierSafe f.1 = true}
    (h : "context_id" ∉ fields.map (·.1)) :
    (scalarProperties contextId fields hsafe).lookup "context_id" = some (.str contextId) :=
  (lookup_fields_of_not_mem h).trans Finmap.lookup_singleton_eq

/-! ### Records and plans -/

@[ext] structure GraphNode where
  graphId : Nat
  label : NodeLabel
  logicalKey : String
  properties : Properties
  logicalKey_ne : logicalKey ≠ ""

instance : DecidableEq GraphNode := fun _ _ => decidable_of_iff' _ GraphNode.ext_iff

@[ext] structure GraphRelationship where
  graphId : Nat
  relationshipType : RelationshipType
  logicalKey : String
  sourceId : Nat
  destinationId : Nat
  sourceLabel : NodeLabel
  destinationLabel : NodeLabel
  properties : Properties
  logicalKey_ne : logicalKey ≠ ""

instance : DecidableEq GraphRelationship := fun _ _ => decidable_of_iff' _ GraphRelationship.ext_iff

/-- `GraphNode | GraphRelationship`. -/
inductive GraphRecord where
  | node (node : GraphNode)
  | relationship (relationship : GraphRelationship)
deriving DecidableEq

namespace GraphRecord

def graphId : GraphRecord → Nat
  | .node n => n.graphId
  | .relationship r => r.graphId

def logicalKey : GraphRecord → String
  | .node n => n.logicalKey
  | .relationship r => r.logicalKey

def properties : GraphRecord → Properties
  | .node n => n.properties
  | .relationship r => r.properties

end GraphRecord

/-- The JSON object a manifest row stores: `_payload`, and what `payload_hash` digests. -/
inductive Payload where
  | node (label : NodeLabel) (id : Nat) (properties : Properties)
  | relationship (type : RelationshipType) (id source destination : Nat)
      (sourceLabel destinationLabel : NodeLabel) (properties : Properties)
deriving DecidableEq

def GraphRecord.payload : GraphRecord → Payload
  | .node n => .node n.label n.graphId n.properties
  | .relationship r => .relationship r.relationshipType r.graphId r.sourceId r.destinationId
      r.sourceLabel r.destinationLabel r.properties

/-- The digest of a canonical payload text. -/
structure PayloadHash where
  digested : Payload
deriving DecidableEq

/-- `GraphWritePlan.payload_hash`, and `_hash` on a merged payload. -/
def payloadHash (payload : Payload) : PayloadHash := ⟨payload⟩

/-- `GraphWritePlan.records`. -/
def planRecords (nodes : List GraphNode) (relationships : List GraphRelationship) :
    List GraphRecord :=
  nodes.map .node ++ relationships.map .relationship

@[ext] structure GraphWritePlan where
  contextId : String
  planKey : String
  nodes : List GraphNode
  relationships : List GraphRelationship
  contextId_ne : contextId ≠ ""
  planKey_ne : planKey ≠ ""
  ids_nodup : ((planRecords nodes relationships).map (·.graphId)).Nodup
  context_ok : ∀ r ∈ planRecords nodes relationships,
    r.properties.lookup "context_id" = some (.str contextId)

instance : DecidableEq GraphWritePlan := fun _ _ => decidable_of_iff' _ GraphWritePlan.ext_iff

namespace GraphWritePlan

def records (plan : GraphWritePlan) : List GraphRecord := planRecords plan.nodes plan.relationships

/-- The constructor with the checks of `__post_init__`. -/
def ofRecords (contextId planKey : String) (nodes : List GraphNode)
    (relationships : List GraphRelationship) : Except Exn GraphWritePlan :=
  if hctx : contextId ≠ "" then
    if hkey : planKey ≠ "" then
      if hids : ((planRecords nodes relationships).map (·.graphId)).Nodup then
        if hrecords : ∀ r ∈ planRecords nodes relationships,
            r.properties.lookup "context_id" = some (.str contextId) then
          .ok ⟨contextId, planKey, nodes, relationships, hctx, hkey, hids, hrecords⟩
        else .error (.contractValidation "graph_plan" "records must use plan context_id")
      else .error (.contractValidation "graph_plan" "graph IDs must be globally unique")
    else .error (.contractValidation "graph_plan.plan_key" "must be a non-empty string")
  else .error (.contractValidation "graph_plan.context_id" "must be a non-empty string")

theorem ofRecords_eq_ok {contextId planKey : String} {nodes : List GraphNode}
    {relationships : List GraphRelationship} {plan : GraphWritePlan}
    (h : ofRecords contextId planKey nodes relationships = .ok plan) :
    plan.contextId = contextId ∧ plan.planKey = planKey ∧ plan.nodes = nodes ∧
      plan.relationships = relationships := by
  unfold ofRecords at h
  split at h
  · split at h
    · split at h
      · split at h
        · cases h
          exact ⟨rfl, rfl, rfl, rfl⟩
        · cases h
      · cases h
    · cases h
  · cases h

theorem mem_records {plan : GraphWritePlan} {r : GraphRecord} : r ∈ plan.records ↔
    (∃ n ∈ plan.nodes, r = .node n) ∨ ∃ e ∈ plan.relationships, r = .relationship e := by
  simp only [records, planRecords, List.mem_append, List.mem_map]
  constructor
  · rintro (⟨n, hn, rfl⟩ | ⟨e, he, rfl⟩)
    · exact Or.inl ⟨n, hn, rfl⟩
    · exact Or.inr ⟨e, he, rfl⟩
  · rintro (⟨n, hn, rfl⟩ | ⟨e, he, rfl⟩)
    · exact Or.inl ⟨n, hn, rfl⟩
    · exact Or.inr ⟨e, he, rfl⟩

/-- Two records of one plan with one id are the same record. -/
theorem record_eq_of_graphId_eq {plan : GraphWritePlan} {r s : GraphRecord} (hr : r ∈ plan.records)
    (hs : s ∈ plan.records) (h : r.graphId = s.graphId) : r = s :=
  List.inj_on_of_nodup_map plan.ids_nodup hr hs h

end GraphWritePlan

end ContextMemory
