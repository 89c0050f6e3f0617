/-
The calls that `GraphWriter.write` makes of its transport (`ingestion/graph_writer.py`).

A call is a Cypher text, its rows and an idempotency key. The key is a SHA-256 over the ids of the
plan, the phase and the JSON text of the rows; it is represented by what it digests, as a
`PayloadHash` is. Texts are UTF-8 there, which loses nothing. `json.dumps` is `JsonText.write`,
with the text of a floating point number as a parameter.
-/

import Mathlib.Data.Finset.Sort
import Mathlib.Data.String.Basic
import ContextMemory.Lib.JsonText
import ContextMemory.Ingestion.GraphWriter

namespace ContextMemory

open JsonText (Value Numbers utf16)

/-! ### Cypher texts -/

def NodeLabel.text : NodeLabel → String
  | .session => "Session"
  | .turn => "Turn"
  | .fact => "Fact"
  | .entity => "Entity"
  | .alias => "Alias"

def RelationshipType.text : RelationshipType → String
  | .hasTurn => "HAS_TURN"
  | .extractedFrom => "EXTRACTED_FROM"
  | .about => "ABOUT"
  | .hasAlias => "HAS_ALIAS"
  | .supersedes => "SUPERSEDES"
  | .relatesTo => "RELATES_TO"
  | .statedBy => "STATED_BY"
  | .mergedInto => "MERGED_INTO"

/-- `tuple(sorted(names))`. -/
def sortedNames (names : Finset String) : List String := names.sort (· ≤ ·)

/-- `_node_query`. -/
def nodeQuery (label : NodeLabel) (propertyNames : List String) : String :=
  let assignments := ", ".intercalate (propertyNames.map fun name => "n." ++ name ++ " = row." ++ name)
  "UNWIND $rows AS row MERGE (n \x7bid: row.id\x7d) SET n:" ++ label.text ++ ", " ++ assignments

/-- `_relationship_query`. -/
def relationshipQuery (type : RelationshipType) (sourceLabel destinationLabel : NodeLabel)
    (propertyNames : List String) : String :=
  let assignments := ", ".intercalate (propertyNames.map fun name => "r." ++ name ++ " = row." ++ name)
  "UNWIND $rows AS row MATCH (s:" ++ sourceLabel.text ++ " \x7bid: row.source_id\x7d), (d:" ++
    destinationLabel.text ++ " \x7bid: row.destination_id\x7d) MERGE (s)-[r:" ++ type.text ++
    " \x7bid: row.id\x7d]->(d) SET " ++ assignments

/-! ### Rows -/

/-- A row of `_node_rows`; a property named `id` takes the place of the id. -/
def NodeRow.dict (row : NodeRow) : PropertyMap :=
  row.properties.map ∪ Finmap.singleton "id" (.int row.id)

/-- A row of `_relationship_rows`. -/
def RelationshipRow.dict (row : RelationshipRow) : PropertyMap :=
  row.properties.map ∪ (Finmap.singleton "id" (.int row.id) ∪
    (Finmap.singleton "source_id" (.int row.source) ∪
      Finmap.singleton "destination_id" (.int row.destination)))

/-- A scalar as a JSON value. -/
def Scalar.json : Scalar → Value Rat
  | .str value => .str (value.toList.flatMap utf16)
  | .int value => .scalar (.int value)
  | .float value => .scalar (.float value)
  | .bool value => .scalar (.bool value)

/-- A row as a JSON object, with `sort_keys`. -/
def rowJson (row : PropertyMap) : Value Rat :=
  .obj ((sortedNames row.keys).filterMap fun name =>
    (row.lookup name).map fun value => (name.toList.flatMap utf16, value.json))

/-! ### Calls -/

namespace Statement

def cypher : Statement → String
  | .mergeNodes label names _ => nodeQuery label (sortedNames names)
  | .mergeRelationships type sourceLabel destinationLabel names _ =>
      relationshipQuery type sourceLabel destinationLabel (sortedNames names)

def rowDicts : Statement → List PropertyMap
  | .mergeNodes _ _ rows => rows.map NodeRow.dict
  | .mergeRelationships _ _ _ _ rows => rows.map RelationshipRow.dict

/-- The phase that goes into the key. -/
def phase : Statement → String
  | .mergeNodes label names _ =>
      "node-" ++ label.text ++ "-" ++ "-".intercalate (sortedNames names)
  | .mergeRelationships type sourceLabel destinationLabel names _ =>
      "relationship-" ++ type.text ++ "-" ++ sourceLabel.text ++ "-" ++ destinationLabel.text ++
        "-" ++ "-".intercalate (sortedNames names)

end Statement

/-- `context-memory-` and the digest of a text. -/
structure IdempotencyKey where
  digested : String
deriving DecidableEq

/-- `_key`. -/
def idempotencyKey (num : Numbers Rat) (plan : GraphWritePlan) (phase : String)
    (rows : List PropertyMap) : IdempotencyKey :=
  ⟨plan.contextId ++ "\x00" ++ plan.planKey ++ "\x00" ++ phase ++ "\x00" ++
    String.ofList (JsonText.write num (.arr (rows.map rowJson)))⟩

/-- A `transport.write` call. -/
structure TransportWrite where
  cypher : String
  rows : List PropertyMap
  key : IdempotencyKey

def transportWrite (num : Numbers Rat) (plan : GraphWritePlan) (s : Statement) : TransportWrite where
  cypher := s.cypher
  rows := s.rowDicts
  key := idempotencyKey num plan s.phase s.rowDicts

/-- The calls for a plan, in their order. -/
def transportWrites (num : Numbers Rat) (plan : GraphWritePlan) : List TransportWrite :=
  (groupWrites plan).map fun w => transportWrite num plan w.statement

/-- The loops of `write`: the calls that are made and the bookmarks, or the exception that ends
them. The transport gives its answers in turn. -/
def sendAll (answers : Nat → Except Exn (Option String)) :
    Nat → List TransportWrite → List TransportWrite × Except Exn (List String)
  | _, [] => ([], .ok [])
  | n, w :: rest =>
      match answers n with
      | .error e => ([w], .error e)
      | .ok bookmark =>
          let (sent, result) := sendAll answers (n + 1) rest
          (w :: sent, result.map fun bookmarks => (bookmark.filter (· ≠ "")).toList ++ bookmarks)

/-- A run of `GraphWriter.write`, with what its two stores answer. -/
def GraphWriter.write (num : Numbers Rat) (registered : Except Exn Unit)
    (answers : Nat → Except Exn (Option String)) (plan : GraphWritePlan) :
    List TransportWrite × Except Exn (List String) :=
  match registered with
  | .error e => ([], .error e)
  | .ok () => sendAll answers 0 (transportWrites num plan)

end ContextMemory
