/-
`HydraFactLookup.find_existing` (`ingestion/fact_lookup.py`).

The lookup reads the current facts with an `ABOUT` edge into the queried entity and
hands them to the classifier as facts *of* that entity and predicate. The service may
answer with fewer rows than match (it returns the first page) or fail, which counts as
no prior fact. Times come back as the whole epoch seconds the graph stores.
-/

import ContextMemory.Client.Hydra
import ContextMemory.Client.Http
import ContextMemory.Ingestion.Resolution

namespace ContextMemory

/-- The epoch second the graph stores for "no upper bound". -/
def openSentinel : Int := 9999999999

/-- `text.removeprefix(head)`. -/
def removePrefix (head text : String) : String :=
  if head.toList.isPrefixOf text.toList then String.ofList (text.toList.drop head.toList.length)
  else text

theorem removePrefix_append (head text : String) : removePrefix head (head ++ text) = text := by
  have hstarts : head.toList.isPrefixOf (head ++ text).toList = true := by
    rw [String.toList_append, List.isPrefixOf_iff_prefix]
    exact List.prefix_append _ _
  rw [removePrefix, if_pos hstarts, String.toList_append, List.drop_left, String.ofList_toList]

/-- `str(value)`. The pipeline stores no float under a name that is read this way. -/
def Scalar.pyStr : Scalar → Option String
  | .str value => some value
  | .int value => some (toString value)
  | .bool value => some (if value then "True" else "False")
  | .float _ => none

/-- `datetime.fromtimestamp(int(value), tz=utc)`. -/
def readInstant (value : Scalar) : Option DateTime := value.pyInt.bind DateTime.fromTimestamp

/-- `valid_from` of a row: a falsy value is no bound. -/
def readValidFrom : Option Scalar → Option (Option DateTime)
  | none => some none
  | some value => if value.truthy then (readInstant value).map some else some none

/-- `valid_to` of a row: the sentinel is no bound either. -/
def readValidTo : Option Scalar → Option (Option DateTime)
  | none => some none
  | some value =>
      if value.truthy then
        match value.pyInt with
        | none => none
        | some seconds =>
            if seconds < openSentinel then (DateTime.fromTimestamp seconds).map some else some none
      else some none

/-- The body of the loop over rows; `none` is a row that is skipped. -/
def decodeRow (subjectEntityId : Nat) (predicateKey : String) (row : FactRow) : Option FactState :=
  match row.logicalKey, row.text, row.observedAt with
  | some logicalKey, some text, some observedAt =>
      if logicalKey.truthy && text.truthy then do
        let key ← logicalKey.pyStr
        let text ← text.pyStr
        let observedAt ← readInstant observedAt
        let validFrom ← readValidFrom row.validFrom
        let validTo ← readValidTo row.validTo
        (FactState.make ⟨removePrefix "fact:" key, subjectEntityId, predicateKey, text, observedAt,
          validFrom, validTo⟩).toOption
      else none
  | _, _, _ => none

/-- What the service answers to one query, out of the rows that match. -/
structure LookupService where
  answer : List FactRow → Except Exn (List FactRow)
  sound : ∀ {rows answered}, answer rows = .ok answered → ∀ row ∈ answered, row ∈ rows

/-- A service that returns every row. -/
def LookupService.complete : LookupService where
  answer rows := .ok rows
  sound h row hrow := by
    cases h
    exact hrow

/-- `find_existing`. -/
def findExisting (service : LookupService) (g : Graph) (contextId : String) (subjectEntityId : Nat)
    (predicateKey : String) : List FactState :=
  match service.answer (g.findExistingRows contextId subjectEntityId predicateKey) with
  | .error _ => []
  | .ok rows => rows.filterMap (decodeRow subjectEntityId predicateKey)

/-! ### What a decoded row says -/

theorem readInstant_eq_some {value : Scalar} {dt : DateTime} (h : readInstant value = some dt) :
    ∃ seconds, value.pyInt = some seconds ∧ dt.micros = seconds * 1000000 := by
  obtain ⟨seconds, hint, hdt⟩ := Option.bind_eq_some_iff.mp h
  exact ⟨seconds, hint, DateTime.fromTimestamp_eq_some hdt⟩

/-- The decoded fact carries the queried subject and predicate, whatever the row
was. -/
theorem decodeRow_eq_some {subjectEntityId : Nat} {predicateKey : String} {row : FactRow}
    {state : FactState} (h : decodeRow subjectEntityId predicateKey row = some state) :
    state.subjectEntityId = subjectEntityId ∧ state.predicateKey = predicateKey ∧
      (∃ logicalKey key, row.logicalKey = some logicalKey ∧ logicalKey.pyStr = some key ∧
        state.factId = removePrefix "fact:" key) ∧
      ∃ observedAt seconds, row.observedAt = some observedAt ∧ observedAt.pyInt = some seconds ∧
        state.observedAt.micros = seconds * 1000000 := by
  unfold decodeRow at h
  split at h
  · rename_i logicalKey text observedAt hkey htext hobserved
    split at h
    · simp only [Option.bind_eq_bind, Option.bind_eq_some_iff] at h
      obtain ⟨key, hstr, text', -, at', hat, validFrom, -, validTo, -, hmake⟩ := h
      obtain ⟨seconds, hseconds, hmicros⟩ := readInstant_eq_some hat
      generalize hraw : (FactState.mk (removePrefix "fact:" key) subjectEntityId predicateKey text'
        at' validFrom validTo) = raw at hmake
      cases hok : raw.make with
      | error e =>
          rw [hok] at hmake
          cases hmake
      | ok made =>
          rw [hok] at hmake
          cases hmake
          rw [FactState.make_eq_ok hok, ← hraw]
          exact ⟨rfl, rfl, ⟨logicalKey, key, hkey, hstr, rfl⟩, observedAt, seconds, hobserved,
            hseconds, hmicros⟩
    · cases h
  · cases h

/-- Every fact found is a decoded row of the graph. -/
theorem mem_findExisting {service : LookupService} {g : Graph} {contextId predicateKey : String}
    {subjectEntityId : Nat} {state : FactState}
    (h : state ∈ findExisting service g contextId subjectEntityId predicateKey) :
    ∃ row ∈ g.findExistingRows contextId subjectEntityId predicateKey,
      decodeRow subjectEntityId predicateKey row = some state := by
  unfold findExisting at h
  split at h
  · cases h
  · rename_i rows hanswer
    obtain ⟨row, hrow, hdecode⟩ := List.mem_filterMap.mp h
    exact ⟨row, service.sound hanswer row hrow, hdecode⟩

/-! ### The lookup over the transport -/

/-- `_FIND_EXISTING_CYPHER`. -/
def findExistingCypher : String :=
  "\nMATCH (f:Fact \x7bcontext_id: $context_id, predicate_key: $predicate_key, " ++
  "is_current: true\x7d)-[:ABOUT]->(e \x7bid: $subject_id\x7d)\n" ++
  "RETURN f.logical_key AS logical_key, f.text AS text, f.observed_at AS observed_at,\n" ++
  "       f.valid_from AS valid_from, f.valid_to AS valid_to\n"

def findExistingParameters (contextId : String) (subjectEntityId : Nat) (predicateKey : String) :
    Json :=
  .obj [("context_id", .str contextId), ("predicate_key", .str predicateKey),
    ("subject_id", .int subjectEntityId)]

def factColumns : List String := ["logical_key", "text", "observed_at", "valid_from", "valid_to"]

def FactRow.properties (row : FactRow) : List (Option Scalar) :=
  [row.logicalKey, row.text, row.observedAt, row.validFrom, row.validTo]

/-- A row as the endpoint sends it. -/
def FactRow.cells (row : FactRow) : List HttpQueryValue := row.properties.map propertyCell

/-- A row as the loop reads it. -/
def FactRow.ofResult (row : ResultRow) : FactRow where
  logicalKey := row.get "logical_key"
  text := row.get "text"
  observedAt := row.get "observed_at"
  validFrom := row.get "valid_from"
  validTo := row.get "valid_to"

/-- `find_existing`, with the transport it reads through. -/
def findExistingOver (transport : HydraHttpTransport) (contextId : String) (subjectEntityId : Nat)
    (predicateKey : String) : List FactState :=
  match transport.read findExistingCypher
      (findExistingParameters contextId subjectEntityId predicateKey) none with
  | .error _ => []
  | .ok rows => rows.filterMap fun row =>
      decodeRow subjectEntityId predicateKey (FactRow.ofResult row)

/-- The rows of the lookup go over the wire unchanged. -/
theorem FactRow.ofResult_ofColumns (row : FactRow) :
    FactRow.ofResult (ResultRow.ofColumns factColumns (row.properties.map propertyJson)) = row := by
  obtain ⟨logicalKey, text, observedAt, validFrom, validTo⟩ := row
  simp [FactRow.ofResult, ResultRow.get, ResultRow.ofColumns, factColumns, FactRow.properties,
    List.lookup_cons]

/-- The lookup sees the rows of the first page, and no others. -/
theorem findExistingOver_eq {service : QueryService} {cellId contextId predicateKey : String}
    {subjectEntityId : Nat} {rows : List FactRow} {next : Option Nat}
    (h : service.page findExistingCypher
      (findExistingParameters contextId subjectEntityId predicateKey) none service.defaultPageSize =
        .ok ⟨factColumns, rows.map FactRow.cells, next⟩) :
    findExistingOver ⟨cellId, service.respond⟩ contextId subjectEntityId predicateKey =
      rows.filterMap (decodeRow subjectEntityId predicateKey) := by
  have hdecoded : decodeRows factColumns (rows.map FactRow.cells) =
      .ok (rows.map fun row => ResultRow.ofColumns factColumns (row.properties.map propertyJson)) :=
    decodeRows_map (fun row => decodeResultRow_properties rfl) rows
  rw [findExistingOver, HydraHttpTransport.read_firstPage none h]
  simp only [hdecoded, List.filterMap_map, Function.comp_def, FactRow.ofResult_ofColumns]

end ContextMemory
