/-
The LongMemEval source adapter (`ingestion/sources/longmemeval.py`).

A payload holds parallel arrays of session ids, dates and sessions. The sessions are put in the
order of their dates and become one batch of records, one for each turn with content.
`datetime.strptime` is a parameter.
-/

import ContextMemory.Ingestion.Contract

namespace ContextMemory

/-- A batch with its own metadata, which the pipeline does not read. -/
structure SourceBatch extends ContextBatch where
  metadata : Metadata

namespace LongMemEval

/-! ### Fields -/

/-- `_text`. -/
def text (value : Option Json) (fieldName : String) : Except Exn NonEmptyText :=
  requiredText value fieldName

/-- `_list`. -/
def list (value : Option Json) (fieldName : String) : Except Exn (List Json) :=
  match value with
  | some (.arr items) => .ok items
  | _ => .error (.contractValidation fieldName "must be an array")

def timestampFormat : String := "%Y/%m/%d (%a) %H:%M"

section Adapt

variable (strptime : String → Option Int)

/-- `parse_longmemeval_timestamp`: what the clock shows is taken for UTC. -/
def parseTimestamp (value : Json) (fieldName : String) : Except Exn DateTime :=
  match value with
  | .str value =>
      match strptime value with
      | some micros => .ok ⟨micros, 0⟩
      | none => .error (.contractValidation fieldName ("must match '" ++ timestampFormat ++ "'"))
  | _ => .error (.contractValidation fieldName "must be a LongMemEval timestamp string")

/-! ### Sessions -/

/-- A member of `parsed_sessions`. -/
structure ParsedSession where
  occurredAt : DateTime
  index : Nat
  sourceSessionId : String
  rawDate : String
  turns : List Json

def ParsedSession.sessionId (session : ParsedSession) : String :=
  session.sourceSessionId ++ ":source-" ++ DateTime.pad 4 session.index

/-- `<=` on the tuples. The indices differ, so nothing after them is compared. -/
def ParsedSession.before (a b : ParsedSession) : Bool :=
  decide (a.occurredAt < b.occurredAt) ||
    (decide (a.occurredAt ≤ b.occurredAt) && decide (a.index ≤ b.index))

/-- A turn of the first loop. -/
def parseSession (index : Nat) (rawSessionId rawDate rawSession : Json) :
    Except Exn ParsedSession := do
  let position := "[" ++ toString index ++ "]"
  let sourceSessionId ← text (some rawSessionId) ("longmemeval.haystack_session_ids" ++ position)
  let occurredAt ← parseTimestamp strptime rawDate ("longmemeval.haystack_dates" ++ position)
  let date ← text (some rawDate) ("longmemeval.haystack_dates" ++ position)
  let turns ← list (some rawSession) ("longmemeval.haystack_sessions" ++ position)
  .ok ⟨occurredAt, index, sourceSessionId, date, turns⟩

/-! ### Turns -/

def recordMetadata (session : ParsedSession) (turnIndex : Nat) : Metadata :=
  List.toFinmap [⟨"source_session_id", .scalar (.str session.sourceSessionId)⟩,
    ⟨"source_occurred_at", .scalar (.str session.rawDate)⟩,
    ⟨"source_time_precision", .scalar (.str "minute")⟩,
    ⟨"source_timezone", .scalar (.str "unknown")⟩,
    ⟨"timestamp_normalization", .scalar (.str "assumed_utc_for_benchmark_ordering_only")⟩,
    ⟨"source_index", .scalar (.int session.index)⟩,
    ⟨"turn_index", .scalar (.int turnIndex)⟩]

def record (session : ParsedSession) (turnIndex : Nat)
    (role content : NonEmptyText) : ContextRecord where
  recordId := session.sessionId ++ ":turn-" ++ DateTime.pad 4 turnIndex
  sessionId := some session.sessionId
  actorRole := some role
  occurredAt := session.occurredAt
  content := content
  metadata := recordMetadata session turnIndex
  recordId_ne := by simp
  content_ne := content.ne
  sessionId_ne := by simp [ParsedSession.sessionId]
  actorId_ne := none_ne_empty
  actorRole_ne := role.some_ne
  metadata_allowed := by simp [evaluationOnlyFields, recordMetadata, Finmap.mem_list_toFinmap]

/-- A turn of the inner loop: a record, or nothing if the content is empty. -/
def adaptTurn (session : ParsedSession) (turnIndex : Nat) (turn : Json) :
    Except Exn (Option ContextRecord) :=
  let position := "[" ++ toString session.index ++ "][" ++ toString turnIndex ++ "]"
  match turn with
  | .obj _ => do
      let role ← text (turn.get "role") ("longmemeval.turn" ++ position ++ ".role")
      if role.1 ≠ "user" ∧ role.1 ≠ "assistant" then
        .error (.contractValidation ("longmemeval.turn" ++ position ++ ".role")
          "must be user or assistant")
      else
        match turn.get "content" with
        | some (.str "") => .ok none
        | content => do
            let content ← text content ("longmemeval.turn" ++ position ++ ".content")
            .ok (some (record session turnIndex role content))
  | _ => .error (.contractValidation ("longmemeval.haystack_sessions" ++ position) "must be an object")

def adaptSession (session : ParsedSession) : Except Exn (List (Option ContextRecord)) :=
  session.turns.zipIdx.mapM fun turn => adaptTurn session turn.2 turn.1

/-! ### The batch -/

/-- `adapt_longmemeval_instance`. -/
def adaptInstance (payload : Json) (ingestionId : String) : Except Exn SourceBatch := do
  let questionId ← text (payload.get "question_id") "longmemeval.question_id"
  let sessionIds ← list (payload.get "haystack_session_ids") "longmemeval.haystack_session_ids"
  let sessionDates ← list (payload.get "haystack_dates") "longmemeval.haystack_dates"
  let sessions ← list (payload.get "haystack_sessions") "longmemeval.haystack_sessions"
  if sessionIds.length ≠ sessionDates.length ∨ sessionDates.length ≠ sessions.length then
    .error (.contractValidation "longmemeval"
      "session IDs, dates, and sessions must have equal lengths")
  else do
    let parsed ← (sessionIds.zip (sessionDates.zip sessions)).zipIdx.mapM fun session =>
      parseSession strptime session.2 session.1.1 session.1.2.1 session.1.2.2
    let outcomes ← (parsed.mergeSort ParsedSession.before).mapM adaptSession
    let records := outcomes.flatten.filterMap id
    let skippedEmptyTurnCount := outcomes.flatten.countP fun outcome => outcome.isNone
    if records = [] then
      .error (.contractValidation "longmemeval.haystack_sessions" "must contain at least one turn")
    else do
      let ingestionId ← text (some (.str ingestionId)) "ingestion_id"
      let source ← SourceDescriptor.make "longmemeval" questionId
      let batch ← ContextBatch.make ingestionId ("longmemeval:" ++ questionId) source records
      .ok { batch with
        metadata := List.toFinmap [⟨"source_empty_turn_count",
          .scalar (.int skippedEmptyTurnCount)⟩] }

end Adapt

end LongMemEval

end ContextMemory
