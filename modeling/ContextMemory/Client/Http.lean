/-
`HydraHttpTransport` (`client/hydradb_http.py`) and the query endpoint it talks to
(`hydradb/src/client/http.rs`, `paginate_query_batch_result`).

The endpoint answers with one page of typed cells and a `next_cursor` while rows remain.
The transport sends neither a page size nor a cursor, and decodes every kind of cell but
a path.
-/

import ContextMemory.Lib.Ordered
import ContextMemory.Core.Models

namespace ContextMemory

/-- A JSON value, and what Python makes of it: a number, a text, a list or a dict. -/
inductive Json where
  | null
  | bool (value : Bool)
  | int (value : Int)
  | float (value : Rat)
  | str (value : String)
  | arr (items : List Json)
  | obj (fields : List (String × Json))

/-- `isinstance(value, str)`. -/
def Json.str? : Json → Option String
  | .str value => some value
  | _ => none

/-- The scalar a cell holds; `None` is no scalar, and no property is a list or a dict. -/
def Json.scalar? : Json → Option Scalar
  | .bool value => some (.bool value)
  | .int value => some (.int value)
  | .float value => some (.float value)
  | .str value => some (.str value)
  | _ => none

/-- `mapping.get(key)`. -/
def Json.get : Json → String → Option Json
  | .obj fields, key => fields.lookup key
  | _, _ => none

/-! ### Typed cells -/

structure QueryPathNode where
  id : Nat
  labels : List String
  properties : List (String × Scalar)

structure QueryPathRelationship where
  id : Option Nat
  edgeType : String
  src : Nat
  dst : Nat
  properties : List (String × Scalar)

structure QueryPath where
  nodes : List QueryPathNode
  relationships : List QueryPathRelationship

/-- A cell of a result (`HttpQueryValue`). -/
inductive HttpQueryValue where
  | null
  | vertexId (value : Nat)
  | integer (value : Nat)
  | signedInteger (value : Int)
  | float (value : Rat)
  | boolean (value : Bool)
  | string (value : String)
  | list (items : List HttpQueryValue)
  | path (value : QueryPath)

/-- A property of a path element is tagged from outside. -/
def Scalar.toTagged : Scalar → Json
  | .str value => .obj [("String", .str value)]
  | .int value => if 0 ≤ value then .obj [("Integer", .int value)]
      else .obj [("SignedInteger", .int value)]
  | .float value => .obj [("Float", .float value)]
  | .bool value => .obj [("Bool", .bool value)]

def propertiesJson (properties : List (String × Scalar)) : Json :=
  .obj (properties.map fun p => (p.1, p.2.toTagged))

def QueryPathNode.toJson (node : QueryPathNode) : Json :=
  .obj [("id", .int node.id), ("labels", .arr (node.labels.map .str)),
    ("properties", propertiesJson node.properties)]

def QueryPathRelationship.toJson (r : QueryPathRelationship) : Json :=
  .obj [("id", (r.id.map fun (n : Nat) => Json.int n).getD .null), ("edge_type", .str r.edgeType),
    ("src", .int r.src), ("dst", .int r.dst), ("properties", propertiesJson r.properties)]

def QueryPath.toJson (path : QueryPath) : Json :=
  .obj [("nodes", .arr (path.nodes.map QueryPathNode.toJson)),
    ("relationships", .arr (path.relationships.map QueryPathRelationship.toJson))]

/-- A tagged cell, with its content if it has one. -/
def tagged (type : String) (value : Json) : Json := .obj [("type", .str type), ("value", value)]

mutual

/-- The cell as it goes over the wire. -/
def HttpQueryValue.toJson : HttpQueryValue → Json
  | .null => .obj [("type", .str "null")]
  | .vertexId value => tagged "vertex_id" (.int value)
  | .integer value => tagged "integer" (.int value)
  | .signedInteger value => tagged "signed_integer" (.int value)
  | .float value => tagged "float" (.float value)
  | .boolean value => tagged "boolean" (.bool value)
  | .string value => tagged "string" (.str value)
  | .list items => tagged "list" (.arr (HttpQueryValue.listToJson items))
  | .path value => tagged "path" value.toJson

def HttpQueryValue.listToJson : List HttpQueryValue → List Json
  | [] => []
  | item :: rest => item.toJson :: HttpQueryValue.listToJson rest

end

/-! ### Decoding -/

def untypedValue : Exn := .runtimeError "HydraDB returned an untyped query value"
def unsupportedValue : Exn := .runtimeError "HydraDB returned an unsupported query value"

/-- The tags whose content is taken as it is. -/
def plainTypes : List String :=
  ["vertex_id", "integer", "signed_integer", "float", "boolean", "string"]

mutual

/-- `_decode_value`. -/
def decodeValue : Json → Except Exn Json
  | .obj fields =>
      match fields.lookup "type" with
      | some (.str type) =>
          if type = "null" then .ok .null
          else if type ∈ plainTypes then .ok ((fields.lookup "value").getD .null)
          else if type = "list" then decodeListField fields
          else .error unsupportedValue
      -- a list or a dict cannot be looked up in a set
      | some (.arr _) => .error (.provider "unhashable type: 'list'")
      | some (.obj _) => .error (.provider "unhashable type: 'dict'")
      | _ => .error unsupportedValue
  | _ => .error untypedValue

/-- The items under `value`, if that is a list. -/
def decodeListField : List (String × Json) → Except Exn Json
  | [] => .error unsupportedValue
  | (key, value) :: rest =>
      if key = "value" then
        match value with
        | .arr items => (decodeItems items).map .arr
        | _ => .error unsupportedValue
      else decodeListField rest

def decodeItems : List Json → Except Exn (List Json)
  | [] => .ok []
  | item :: rest =>
      match decodeValue item with
      | .error e => .error e
      | .ok value => (decodeItems rest).map (value :: ·)

end

/-! ### The query endpoint -/

/-- One page of a result, with the cursor of the next one while rows remain. -/
structure QueryPage where
  columns : List String
  rows : List (List HttpQueryValue)
  nextCursor : Option Nat

/-- The endpoint of one graph state. -/
structure QueryService where
  defaultPageSize : Nat
  page : (query : String) → (parameters : Json) → (cursor : Option Nat) → (pageSize : Nat) →
    Except Exn QueryPage

/-- `paginate_query_batch_result`. -/
def paginate (columns : List String) (rows : List (List HttpQueryValue)) (cursor : Option Nat)
    (pageSize : Nat) : Except Exn QueryPage :=
  let offset := cursor.getD 0
  if pageSize = 0 then .error (.runtimeError "batch page size must be greater than zero")
  else if rows.length < offset then
    .error (.runtimeError "batch cursor offset exceeds result length")
  else
    let stop := min (offset + pageSize) rows.length
    .ok ⟨columns, (rows.drop offset).take (stop - offset),
      if stop < rows.length then some stop else none⟩

/-- An optional counter of the request body. -/
def optionalCount (payload : Json) (field : String) : Except Exn (Option Nat) :=
  match payload.get field with
  | none | some .null => .ok none
  | some (.int (.ofNat n)) => .ok (some n)
  | _ => .error (.runtimeError "HydraDB returned HTTP 400")

def QueryPage.toJson (page : QueryPage) : Json :=
  .obj [("columns", .arr (page.columns.map .str)),
    ("rows", .arr (page.rows.map fun row => .arr (HttpQueryValue.listToJson row))),
    ("next_cursor", (page.nextCursor.map fun (n : Nat) => Json.int n).getD .null)]

/-- `POST /v1/graphs/{graph_id}/query`. The page size falls back to the configured one. -/
def QueryService.respond (service : QueryService) (payload : Json) : Except Exn Json :=
  match payload.get "cell_id", payload.get "query" with
  | some (.str _), some (.str query) => do
      let pageSize ← optionalCount payload "page_size"
      let cursor ← optionalCount payload "cursor"
      let page ← service.page query ((payload.get "parameters").getD (.obj [])) cursor
        (pageSize.getD service.defaultPageSize)
      .ok page.toJson
  | _, _ => .error (.runtimeError "HydraDB returned HTTP 400")

/-- The pages a reader gets that follows the cursors, from `cursor` on. -/
inductive QueryService.Serves (service : QueryService) (query : String) (parameters : Json)
    (columns : List String) : Option Nat → List (List (List HttpQueryValue)) → Prop where
  | last {cursor rows} (page : service.page query parameters cursor service.defaultPageSize =
        .ok ⟨columns, rows, none⟩)
      (bounded : rows.length ≤ service.defaultPageSize)
      (width : ∀ row ∈ rows, row.length = columns.length) :
      Serves service query parameters columns cursor [rows]
  | more {cursor next rows rest} (page : service.page query parameters cursor
        service.defaultPageSize = .ok ⟨columns, rows, some next⟩)
      (bounded : rows.length ≤ service.defaultPageSize)
      (width : ∀ row ∈ rows, row.length = columns.length)
      (served : Serves service query parameters columns (some next) rest) :
      Serves service query parameters columns cursor (rows :: rest)

/-! ### The transport -/

/-- A row as `read` returns it: a dict from the column names. -/
abbrev ResultRow := String → Option Json

/-- `{column: value for ..}`: of two columns with one name the later one stays. -/
def ResultRow.ofColumns (columns : List String) (values : List Json) : ResultRow :=
  fun name => (columns.zip values).reverse.lookup name

/-- `row.get(name)`, for a property. -/
def ResultRow.get (row : ResultRow) (name : String) : Option Scalar :=
  (row name).bind Json.scalar?

def invalidRows : Exn := .runtimeError "HydraDB returned invalid query rows"
def malformedRow : Exn := .runtimeError "HydraDB returned a malformed query row"

/-- `type(error).__name__`; a foreign exception's own name is not kept. -/
def Exn.typeName : Exn → String
  | .contractValidation .. => "ContractValidationError"
  | .immutableRecordConflict _ => "ImmutableRecordConflictError"
  | .graphPayloadConflict _ => "GraphPayloadConflictError"
  | .illegalJobTransition _ => "IllegalJobTransitionError"
  | .valueError _ => "ValueError"
  | .runtimeError _ => "HydraHttpError"
  | .provider _ => "Exception"

/-- A `runtimeError` of the requester is a `HydraHttpError`. -/
structure HydraHttpTransport where
  cellId : String
  requester : Json → Except Exn Json

namespace HydraHttpTransport

/-- The payload of `_query`, as the endpoint parses it. -/
def payload (transport : HydraHttpTransport) (cypher : String) (parameters : Json)
    (queryId bookmark : Option String) : Json :=
  .obj ([("cell_id", .str transport.cellId), ("query", .str cypher), ("parameters", parameters)] ++
    (queryId.map fun id => ("query_id", Json.str id)).toList ++
    (bookmark.map fun mark => ("bookmark", Json.str mark)).toList)

/-- `_query`. -/
def query (transport : HydraHttpTransport) (cypher : String) (parameters : Json)
    (queryId bookmark : Option String) : Except Exn Json :=
  match transport.requester (transport.payload cypher parameters queryId bookmark) with
  | .ok response => .ok response
  | .error (.runtimeError message) => .error (.runtimeError message)
  | .error e => .error (.runtimeError ("local HydraDB request failed: " ++ e.typeName))

/-- One row of the response. -/
def decodeResultRow (columns : List String) : Json → Except Exn ResultRow
  | .arr values =>
      if values.length ≠ columns.length then .error malformedRow
      else (decodeItems values).map (ResultRow.ofColumns columns)
  | _ => .error malformedRow

/-- What `read` makes of a response. -/
def decodeResponse (response : Json) : Except Exn (List ResultRow) :=
  match response.get "columns", response.get "rows" with
  | some (.arr columns), some (.arr rows) =>
      match columns.mapM Json.str? with
      | some columns => rows.mapM (decodeResultRow columns)
      | none => .error invalidRows
  | _, _ => .error invalidRows

/-- `read`. -/
def read (transport : HydraHttpTransport) (cypher : String) (parameters : Json)
    (bookmark : Option String) : Except Exn (List ResultRow) :=
  match transport.query cypher parameters none bookmark with
  | .ok response => decodeResponse response
  | .error e => .error e

end HydraHttpTransport

/-! ### What is decoded -/

mutual

/-- A path stands in the cell, in a list if not at the top. -/
def HttpQueryValue.hasPath : HttpQueryValue → Bool
  | .list items => HttpQueryValue.anyPath items
  | .path _ => true
  | _ => false

def HttpQueryValue.anyPath : List HttpQueryValue → Bool
  | [] => false
  | item :: rest => item.hasPath || HttpQueryValue.anyPath rest

end

theorem HttpQueryValue.anyPath_of_mem {path : QueryPath} {row : List HttpQueryValue}
    (h : .path path ∈ row) : HttpQueryValue.anyPath row = true := by
  induction row with
  | nil => cases h
  | cons cell rest ih =>
      rcases List.mem_cons.mp h with rfl | hrest
      · rfl
      · rw [HttpQueryValue.anyPath, ih hrest, Bool.or_true]

theorem decodeItems_cons_of_ok {item value : Json} {rest : List Json}
    (h : decodeValue item = .ok value) :
    decodeItems (item :: rest) = (decodeItems rest).map (value :: ·) := by
  simp only [decodeItems, h]

theorem decodeItems_cons_of_error {item : Json} {rest : List Json} {e : Exn}
    (h : decodeValue item = .error e) : decodeItems (item :: rest) = .error e := by
  simp only [decodeItems, h]

theorem decodeValue_list (items : List Json) :
    decodeValue (tagged "list" (.arr items)) = (decodeItems items).map .arr := by
  simp [decodeValue, tagged, plainTypes, decodeListField]

mutual

/-- Every kind of cell is decoded but a path, which fails the whole response. -/
theorem decodeValue_toJson : ∀ v : HttpQueryValue,
    (v.hasPath = true → decodeValue v.toJson = .error unsupportedValue) ∧
      (v.hasPath = false → ∃ value, decodeValue v.toJson = .ok value)
  | .null => ⟨fun h => (by cases h), fun _ => ⟨.null, rfl⟩⟩
  | .vertexId value => ⟨fun h => (by cases h), fun _ => ⟨.int value, rfl⟩⟩
  | .integer value => ⟨fun h => (by cases h), fun _ => ⟨.int value, rfl⟩⟩
  | .signedInteger value => ⟨fun h => (by cases h), fun _ => ⟨.int value, rfl⟩⟩
  | .float value => ⟨fun h => (by cases h), fun _ => ⟨.float value, rfl⟩⟩
  | .boolean value => ⟨fun h => (by cases h), fun _ => ⟨.bool value, rfl⟩⟩
  | .string value => ⟨fun h => (by cases h), fun _ => ⟨.str value, rfl⟩⟩
  | .path value => ⟨fun _ => rfl, fun h => (by cases h)⟩
  | .list items => by
      simp only [HttpQueryValue.toJson, HttpQueryValue.hasPath, decodeValue_list]
      constructor
      · intro h
        rw [(decodeItems_listToJson items).1 h]
        rfl
      · intro h
        obtain ⟨values, hvalues⟩ := (decodeItems_listToJson items).2 h
        exact ⟨.arr values, by rw [hvalues]; rfl⟩

theorem decodeItems_listToJson : ∀ items : List HttpQueryValue,
    (HttpQueryValue.anyPath items = true →
      decodeItems (HttpQueryValue.listToJson items) = .error unsupportedValue) ∧
      (HttpQueryValue.anyPath items = false →
        ∃ values, decodeItems (HttpQueryValue.listToJson items) = .ok values)
  | [] => ⟨fun h => (by cases h), fun _ => ⟨[], rfl⟩⟩
  | item :: rest => by
      simp only [HttpQueryValue.listToJson, HttpQueryValue.anyPath]
      cases hhere : item.hasPath with
      | true =>
          have hitem := (decodeValue_toJson item).1 hhere
          simp [decodeItems_cons_of_error hitem]
      | false =>
          obtain ⟨value, hvalue⟩ := (decodeValue_toJson item).2 hhere
          rw [decodeItems_cons_of_ok hvalue, Bool.false_or]
          constructor
          · intro h
            rw [(decodeItems_listToJson rest).1 h]
            rfl
          · intro h
            obtain ⟨values, hvalues⟩ := (decodeItems_listToJson rest).2 h
            exact ⟨value :: values, by rw [hvalues]; rfl⟩

end

@[simp] theorem HttpQueryValue.length_listToJson : ∀ items : List HttpQueryValue,
    (HttpQueryValue.listToJson items).length = items.length
  | [] => rfl
  | _ :: rest => congrArg (· + 1) (HttpQueryValue.length_listToJson rest)

/-- `_decode_value` over the rows of a page. -/
def decodeRows (columns : List String) (rows : List (List HttpQueryValue)) :
    Except Exn (List ResultRow) :=
  rows.mapM fun row => HydraHttpTransport.decodeResultRow columns
    (.arr (HttpQueryValue.listToJson row))

/-- No cell of the rows holds a path. -/
def PathFree (rows : List (List HttpQueryValue)) : Prop :=
  ∀ row ∈ rows, HttpQueryValue.anyPath row = false

instance (rows : List (List HttpQueryValue)) : Decidable (PathFree rows) :=
  inferInstanceAs (Decidable (∀ row ∈ rows, HttpQueryValue.anyPath row = false))

section Rows

variable {columns : List String}

theorem decodeResultRow_eq {row : List HttpQueryValue} (h : row.length = columns.length) :
    HydraHttpTransport.decodeResultRow columns (.arr (HttpQueryValue.listToJson row)) =
      (decodeItems (HttpQueryValue.listToJson row)).map (ResultRow.ofColumns columns) := by
  rw [HydraHttpTransport.decodeResultRow, HttpQueryValue.length_listToJson,
    if_neg (not_not.mpr h)]

theorem decodeResultRow_ok {row : List HttpQueryValue} (h : row.length = columns.length)
    (hfree : HttpQueryValue.anyPath row = false) :
    ∃ decoded, HydraHttpTransport.decodeResultRow columns
      (.arr (HttpQueryValue.listToJson row)) = .ok decoded := by
  obtain ⟨values, hvalues⟩ := (decodeItems_listToJson row).2 hfree
  exact ⟨ResultRow.ofColumns columns values, by rw [decodeResultRow_eq h, hvalues]; rfl⟩

theorem decodeResultRow_error {row : List HttpQueryValue} (h : row.length = columns.length)
    (hpath : HttpQueryValue.anyPath row = true) :
    HydraHttpTransport.decodeResultRow columns (.arr (HttpQueryValue.listToJson row)) =
      .error unsupportedValue := by
  rw [decodeResultRow_eq h, (decodeItems_listToJson row).1 hpath]
  rfl

theorem decodeRows_cons_of_ok {row : List HttpQueryValue} {rows : List (List HttpQueryValue)}
    {decoded : ResultRow} (h : HydraHttpTransport.decodeResultRow columns
      (.arr (HttpQueryValue.listToJson row)) = .ok decoded) :
    decodeRows columns (row :: rows) = (decodeRows columns rows).map (decoded :: ·) := by
  rw [decodeRows, List.mapM_cons, h]
  rfl

/-- Rows without a path are decoded one for one, and a path anywhere fails them
all. -/
theorem decodeRows_spec {rows : List (List HttpQueryValue)}
    (h : ∀ row ∈ rows, row.length = columns.length) :
    (PathFree rows → ∃ decoded, decodeRows columns rows = .ok decoded ∧
      decoded.length = rows.length) ∧
      (¬PathFree rows → decodeRows columns rows = .error unsupportedValue) := by
  induction rows with
  | nil => exact ⟨fun _ => ⟨[], rfl, rfl⟩, fun hpath => absurd (by simp [PathFree]) hpath⟩
  | cons row rows ih =>
      obtain ⟨hfree, hpath⟩ := ih fun r hr => h r (List.mem_cons_of_mem _ hr)
      have hwidth : row.length = columns.length := h row List.mem_cons_self
      have hsplit : PathFree (row :: rows) ↔ HttpQueryValue.anyPath row = false ∧ PathFree rows :=
        List.forall_mem_cons
      cases hrow : HttpQueryValue.anyPath row with
      | true =>
          refine ⟨fun hall => ?_, fun _ => ?_⟩
          · rw [(hsplit.mp hall).1] at hrow
            cases hrow
          · rw [decodeRows, List.mapM_cons, decodeResultRow_error hwidth hrow]
            rfl
      | false =>
          obtain ⟨decoded, hdecoded⟩ := decodeResultRow_ok hwidth hrow
          rw [decodeRows_cons_of_ok hdecoded]
          constructor
          · intro hall
            obtain ⟨rest, hrest, hlength⟩ := hfree (hsplit.mp hall).2
            rw [hrest]
            exact ⟨decoded :: rest, rfl, congrArg (· + 1) hlength⟩
          · intro hall
            rw [hpath fun hrows => hall (hsplit.mpr ⟨hrow, hrows⟩)]
            rfl

/-- Rows that are each decoded to their dict are decoded to the dicts. -/
theorem decodeRows_map {α : Type} {cells : α → List HttpQueryValue} {dict : α → ResultRow}
    (h : ∀ x, HydraHttpTransport.decodeResultRow columns
      (.arr (HttpQueryValue.listToJson (cells x))) = .ok (dict x)) (xs : List α) :
    decodeRows columns (xs.map cells) = .ok (xs.map dict) := by
  induction xs with
  | nil => rfl
  | cons x xs ih =>
      rw [List.map_cons, decodeRows_cons_of_ok (h x), ih]
      rfl

end Rows

/-! ### Properties as cells -/

/-- A property of the graph as a cell of a result. -/
def Scalar.cell : Scalar → HttpQueryValue
  | .str value => .string value
  | .int (.ofNat n) => .integer n
  | .int (.negSucc n) => .signedInteger (.negSucc n)
  | .float value => .float value
  | .bool value => .boolean value

def propertyCell : Option Scalar → HttpQueryValue
  | some value => value.cell
  | none => .null

/-- What a property cell is decoded to. -/
def propertyJson : Option Scalar → Json
  | none => .null
  | some (.str value) => .str value
  | some (.int value) => .int value
  | some (.float value) => .float value
  | some (.bool value) => .bool value

@[simp] theorem decodeValue_propertyCell (p : Option Scalar) :
    decodeValue (propertyCell p).toJson = .ok (propertyJson p) := by
  match p with
  | none => rfl
  | some (.str _) => rfl
  | some (.int (.ofNat _)) => rfl
  | some (.int (.negSucc _)) => rfl
  | some (.float _) => rfl
  | some (.bool _) => rfl

@[simp] theorem scalar?_propertyJson (p : Option Scalar) : (propertyJson p).scalar? = p := by
  match p with
  | none => rfl
  | some (.str _) => rfl
  | some (.int _) => rfl
  | some (.float _) => rfl
  | some (.bool _) => rfl

theorem decodeItems_propertyCells : ∀ ps : List (Option Scalar),
    decodeItems (HttpQueryValue.listToJson (ps.map propertyCell)) = .ok (ps.map propertyJson)
  | [] => rfl
  | p :: ps => by
      rw [List.map_cons, HttpQueryValue.listToJson,
        decodeItems_cons_of_ok (decodeValue_propertyCell p), decodeItems_propertyCells ps]
      rfl

/-- A row of properties is decoded to its dict. -/
theorem decodeResultRow_properties {columns : List String} {ps : List (Option Scalar)}
    (h : ps.length = columns.length) :
    HydraHttpTransport.decodeResultRow columns
      (.arr (HttpQueryValue.listToJson (ps.map propertyCell))) =
        .ok (ResultRow.ofColumns columns (ps.map propertyJson)) := by
  rw [decodeResultRow_eq (by rw [List.length_map, h]), decodeItems_propertyCells]
  rfl

/-! ### One read -/

/-- `read` asks once, so it sees the page the endpoint starts with. -/
theorem HydraHttpTransport.read_firstPage {service : QueryService} {cellId cypher : String}
    {parameters : Json} {page : QueryPage} (bookmark : Option String)
    (h : service.page cypher parameters none service.defaultPageSize = .ok page) :
    HydraHttpTransport.read ⟨cellId, service.respond⟩ cypher parameters bookmark =
      decodeRows page.columns page.rows := by
  have hrespond : service.respond (HydraHttpTransport.payload ⟨cellId, service.respond⟩ cypher
      parameters none bookmark) = .ok page.toJson := by
    cases bookmark with
    | none =>
        show (service.page cypher parameters none service.defaultPageSize).bind _ = _
        rw [h]
        rfl
    | some mark =>
        show (service.page cypher parameters none service.defaultPageSize).bind _ = _
        rw [h]
        rfl
  have hcolumns : (page.columns.map Json.str).mapM Json.str? = some page.columns := by
    induction page.columns with
    | nil => rfl
    | cons column columns ih =>
        rw [List.map_cons, List.mapM_cons, ih]
        rfl
  have hrows : HydraHttpTransport.decodeResponse page.toJson =
      decodeRows page.columns page.rows := by
    show (match (page.columns.map Json.str).mapM Json.str? with
      | some columns => (page.rows.map fun row => Json.arr (HttpQueryValue.listToJson row)).mapM
          (HydraHttpTransport.decodeResultRow columns)
      | none => .error invalidRows) = _
    rw [hcolumns]
    exact List.mapM_map
  simp only [HydraHttpTransport.read, HydraHttpTransport.query, hrespond, hrows]

namespace QueryService

variable {service : QueryService} {query : String} {parameters : Json} {columns : List String}
  {cursor : Option Nat} {pages : List (List (List HttpQueryValue))}

/-- The first page, as the endpoint answers it. -/
theorem Serves.first (h : service.Serves query parameters columns cursor pages) :
    ∃ first rest next, pages = first :: rest ∧
      service.page query parameters cursor service.defaultPageSize =
        .ok ⟨columns, first, next⟩ := by
  cases h with
  | last page _ _ => exact ⟨_, _, _, rfl, page⟩
  | more page _ _ _ => exact ⟨_, _, _, rfl, page⟩

theorem Serves.width (h : service.Serves query parameters columns cursor pages) :
    ∀ row ∈ pages.flatten, row.length = columns.length := by
  induction h with
  | last page bounded width =>
      intro row hrow
      rw [List.flatten_singleton] at hrow
      exact width row hrow
  | more page bounded width served ih =>
      intro row hrow
      rw [List.flatten_cons, List.mem_append] at hrow
      rcases hrow with hrow | hrow
      · exact width row hrow
      · exact ih row hrow

/-- A read returns the whole result exactly if its first page holds all of it
and no path stands in it. -/
theorem Serves.read_complete (h : service.Serves query parameters columns none pages)
    (cellId : String) (bookmark : Option String) :
    (∃ rows, decodeRows columns pages.flatten = .ok rows ∧
      HydraHttpTransport.read ⟨cellId, service.respond⟩ query parameters bookmark = .ok rows) ↔
      pages.tail.flatten = [] ∧ PathFree pages.flatten := by
  have hwidth := h.width
  obtain ⟨first, rest, next, rfl, hpage⟩ := h.first
  rw [HydraHttpTransport.read_firstPage bookmark hpage]
  rw [List.flatten_cons] at hwidth ⊢
  obtain ⟨hall, hallpath⟩ := decodeRows_spec hwidth
  have hfirstwidth : ∀ row ∈ first, row.length = columns.length :=
    fun row hrow => hwidth row (List.mem_append_left _ hrow)
  obtain ⟨hfirst, -⟩ := decodeRows_spec hfirstwidth
  constructor
  · rintro ⟨rows, hdecoded, hread⟩
    have hfree : PathFree (first ++ rest.flatten) := by
      by_contra hpath
      rw [hallpath hpath] at hdecoded
      cases hdecoded
    refine ⟨?_, hfree⟩
    obtain ⟨all, hok, hlength⟩ := hall hfree
    obtain ⟨some', hok', hlength'⟩ := hfirst fun row hrow => hfree row (List.mem_append_left _ hrow)
    have hsame : all = some' := by
      rw [hok] at hdecoded
      rw [hok'] at hread
      cases hdecoded
      cases hread
      rfl
    rw [hsame, hlength', List.length_append] at hlength
    exact List.eq_nil_of_length_eq_zero (by simp only [List.tail_cons]; omega)
  · rintro ⟨hnone, hfree⟩
    have hempty : rest.flatten = [] := hnone
    rw [hempty, List.append_nil] at hfree ⊢
    obtain ⟨rows, hok, -⟩ := hfirst hfree
    exact ⟨rows, hok, hok⟩

end QueryService

/-! ### Offset cursors -/

theorem paginate_eq {columns : List String} {rows : List (List HttpQueryValue)} {pageSize : Nat}
    (hsize : 0 < pageSize) {cursor : Option Nat} (h : cursor.getD 0 ≤ rows.length) :
    paginate columns rows cursor pageSize =
      .ok ⟨columns, (rows.drop (cursor.getD 0)).take pageSize,
        if cursor.getD 0 + pageSize < rows.length then some (cursor.getD 0 + pageSize)
        else none⟩ := by
  have hnonzero : pageSize ≠ 0 := by omega
  have hinside : ¬rows.length < cursor.getD 0 := by omega
  simp only [paginate, if_neg hnonzero, if_neg hinside]
  by_cases hmore : cursor.getD 0 + pageSize < rows.length
  · rw [min_eq_left hmore.le, if_pos hmore, Nat.add_sub_cancel_left]
  · rw [min_eq_right (by omega), if_neg hmore, if_neg (lt_irrefl _)]
    have hlast : (rows.drop (cursor.getD 0)).take pageSize = rows.drop (cursor.getD 0) :=
      List.take_of_length_le (by rw [List.length_drop]; omega)
    rw [hlast, List.take_of_length_le (by rw [List.length_drop])]

/-- `paginate_query_batch_result` serves its rows page by page. -/
theorem QueryService.serves_paginate {service : QueryService} {query : String} {parameters : Json}
    {columns : List String} {rows : List (List HttpQueryValue)}
    (hsize : 0 < service.defaultPageSize)
    (hwidth : ∀ row ∈ rows, row.length = columns.length)
    (hpage : ∀ cursor, service.page query parameters cursor service.defaultPageSize =
      paginate columns rows cursor service.defaultPageSize)
    {cursor : Option Nat} (h : cursor.getD 0 ≤ rows.length) :
    ∃ rest, service.Serves query parameters columns cursor
        ((rows.drop (cursor.getD 0)).take service.defaultPageSize :: rest) ∧
      rest.flatten = (rows.drop (cursor.getD 0)).drop service.defaultPageSize := by
  -- by the number of rows left behind the cursor
  induction hleft : rows.length - cursor.getD 0 using Nat.strong_induction_on
    generalizing cursor with
  | _ left ih =>
      have hhere := hpage cursor
      rw [paginate_eq hsize h] at hhere
      have hwide : ∀ row ∈ (rows.drop (cursor.getD 0)).take service.defaultPageSize,
          row.length = columns.length :=
        fun row hrow => hwidth row (List.mem_of_mem_drop (List.mem_of_mem_take hrow))
      have hbound : ((rows.drop (cursor.getD 0)).take service.defaultPageSize).length ≤
          service.defaultPageSize := List.length_take_le _ _
      by_cases hmore : cursor.getD 0 + service.defaultPageSize < rows.length
      · rw [if_pos hmore] at hhere
        have hnext : (some (cursor.getD 0 + service.defaultPageSize)).getD 0 ≤ rows.length := hmore.le
        obtain ⟨rest, hrest, hflatten⟩ := ih _ (by simp only [Option.getD_some]; omega) hnext rfl
        refine ⟨_, .more hhere hbound hwide hrest, ?_⟩
        rw [List.flatten_cons, hflatten, List.take_append_drop, Option.getD_some, List.drop_drop]
      · rw [if_neg hmore] at hhere
        refine ⟨[], .last hhere hbound hwide, ?_⟩
        rw [List.drop_drop, List.flatten_nil, List.drop_eq_nil_of_le (by omega)]

end ContextMemory
