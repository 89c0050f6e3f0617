/-
`MemoryEngine` (`engine.py`) and the chat adapter (`ingestion/sources/chat.py`).

`add_turn_async` files a turn in `conversation_buffer`, one statement that reads the next index
and one that inserts the row, each committed by itself; then it makes a batch of the turn and
hands it to the executor. Calls of several threads share the connection, which runs one statement
at a time, so their statements interleave (`TurnTable`). The UUIDs and what retrieval answers are
arguments.
-/

import Mathlib.Logic.Function.Basic
import ContextMemory.Ingestion.Contract

namespace ContextMemory

namespace MemoryEngine

/-! ### Turns -/

/-- A `datetime`: what a clock shows, or an instant with its offset. -/
inductive Timestamp where
  | naive (micros : Int)
  | aware (instant : DateTime)
deriving DecidableEq

/-- The arguments of `add_turn_async`. -/
structure Turn where
  contextId : String
  sessionId : String
  role : String
  content : String
  timestamp : Timestamp
deriving DecidableEq

def Turn.conversation (turn : Turn) : String × String := (turn.contextId, turn.sessionId)

/-! ### The chat adapter -/

/-- `adapt_chat_turn`. -/
def adaptChatTurn (turn : Turn) (recordUuid ingestionId : String) : Except Exn ContextBatch := do
  let contextId ← requiredText (some (.str turn.contextId)) "chat.context_id"
  let sessionId ← requiredText (some (.str turn.sessionId)) "chat.session_id"
  let role ← requiredText (some (.str turn.role)) "chat.role"
  if role.1 ≠ "user" ∧ role.1 ≠ "assistant" then
    .error (.contractValidation "chat.role" "must be user or assistant")
  else do
    let content ← requiredText (some (.str turn.content)) "chat.content"
    match turn.timestamp with
    | .naive _ => .error (.contractValidation "record.occurred_at" "must include a UTC offset")
    | .aware occurredAt => do
        let record : ContextRecord := {
          recordId := "rec-" ++ recordUuid
          sessionId := some sessionId
          actorRole := some role
          actorId := some role
          occurredAt := occurredAt
          content := content
          metadata := Finmap.singleton "source_type" (.scalar (.str "interactive_chat"))
          recordId_ne := by simp
          content_ne := content.ne
          sessionId_ne := sessionId.some_ne
          actorId_ne := role.some_ne
          actorRole_ne := role.some_ne
          metadata_allowed := by simp [evaluationOnlyFields] }
        let ingestionId ← requiredText (some (.str ingestionId)) "ingestion_id"
        let source ← SourceDescriptor.make "chat" "live"
        ContextBatch.make ingestionId contextId source [record]

/-! ### The buffer -/

/-- A row of `conversation_buffer`; rows stand in the order of their `buffer_id`. -/
structure BufferRow where
  contextId : String
  sessionId : String
  turnIndex : Nat
  role : String
  content : String
  createdAt : Timestamp
deriving DecidableEq

def BufferRow.conversation (row : BufferRow) : String × String := (row.contextId, row.sessionId)

def indices (rows : List BufferRow) (conversation : String × String) : List Nat :=
  (rows.filter fun row => row.conversation = conversation).map (·.turnIndex)

/-- `COALESCE(MAX(turn_index), -1) + 1`. -/
def nextIndex (rows : List BufferRow) (conversation : String × String) : Nat :=
  match (indices rows conversation).max? with
  | none => 0
  | some index => index + 1

/-- The largest `INTEGER`. -/
def maxInteger : Nat := 2147483647

def hasNul (text : String) : Bool := text.toList.contains (Char.ofNat 0)

def nulRefused : Exn := .provider "PostgreSQL text fields cannot contain NUL (0x00) bytes"

/-- The `SELECT`. -/
def selectTurnIndex (rows : List BufferRow) (conversation : String × String) : Except Exn Nat :=
  if hasNul conversation.1 || hasNul conversation.2 then .error nulRefused
  else if maxInteger < nextIndex rows conversation then .error (.provider "integer out of range")
  else .ok (nextIndex rows conversation)

/-- The texts of a turn can be stored. -/
def Turn.storable (turn : Turn) : Bool :=
  !hasNul turn.contextId && !hasNul turn.sessionId && !hasNul turn.role && !hasNul turn.content

def Turn.row (turn : Turn) (turnIndex : Nat) : BufferRow :=
  ⟨turn.contextId, turn.sessionId, turnIndex, turn.role, turn.content, turn.timestamp⟩

/-- The `INSERT`. -/
def insertTurn (rows : List BufferRow) (turn : Turn) (turnIndex : Nat) :
    Except Exn (List BufferRow) :=
  if turn.storable then .ok (rows ++ [turn.row turnIndex]) else .error nulRefused

/-! ### Calls -/

/-- The buffer, and the batches handed to the executor. -/
structure EngineState where
  rows : List BufferRow := []
  submitted : List ContextBatch := []

/-- What `uuid.uuid4` returns in one call. -/
structure Uuids where
  record : String
  ingestion : String

/-- `add_turn_async`. -/
def addTurnAsync (s : EngineState) (turn : Turn) (uuids : Uuids) : Except Exn Unit × EngineState :=
  match selectTurnIndex s.rows turn.conversation with
  | .error e => (.error e, s)
  | .ok turnIndex =>
    match insertTurn s.rows turn turnIndex with
    | .error e => (.error e, s)
    | .ok rows =>
      match adaptChatTurn turn uuids.record ("ingest-" ++ uuids.ingestion) with
      | .error e => (.error e, { s with rows })
      | .ok batch => (.ok (), { rows, submitted := s.submitted ++ [batch] })

/-- The arguments of `generate_reply`, the time it starts and what `search_memories` does. -/
structure ReplyCall where
  contextId : String
  sessionId : String
  userMessage : String
  now : DateTime
  answer : Except Exn String
  userUuids : Uuids
  assistantUuids : Uuids

def ReplyCall.userTurn (call : ReplyCall) : Turn :=
  ⟨call.contextId, call.sessionId, "user", call.userMessage, .aware call.now⟩

def ReplyCall.assistantTurn (call : ReplyCall) (reply : String) : Turn :=
  ⟨call.contextId, call.sessionId, "assistant", reply, .aware call.now⟩

/-- `generate_reply`. -/
def generateReply (s : EngineState) (call : ReplyCall) : Except Exn String × EngineState :=
  match addTurnAsync s call.userTurn call.userUuids with
  | (.error e, s) => (.error e, s)
  | (.ok (), s) =>
    match call.answer with
    | .error e => (.error e, s)
    | .ok reply =>
      match addTurnAsync s (call.assistantTurn reply) call.assistantUuids with
      | (.error e, s) => (.error e, s)
      | (.ok (), s) => (.ok reply, s)

/-! ### Threads -/

/-- How far a call of `add_turn_async` has come. -/
inductive Progress where
  | waiting
  | read (turnIndex : Nat)
  | failed
  | inserted
deriving DecidableEq

/-- The table while several calls run; `ι` names the calls. -/
structure TurnTable (ι : Type) where
  rows : List BufferRow := []
  progress : ι → Progress := fun _ => .waiting

/-- A statement of one of the calls. -/
inductive Statement (ι : Type) where
  | select (i : ι)
  | insert (i : ι)
deriving DecidableEq

section Threads

variable {ι : Type} [DecidableEq ι] (calls : ι → Turn)

/-- A call selects first, and inserts if that returned. -/
def execute (s : TurnTable ι) : Statement ι → Option (TurnTable ι)
  | .select i =>
      match s.progress i with
      | .waiting =>
          match selectTurnIndex s.rows (calls i).conversation with
          | .ok turnIndex => some { s with progress := Function.update s.progress i (.read turnIndex) }
          | .error _ => some { s with progress := Function.update s.progress i .failed }
      | _ => none
  | .insert i =>
      match s.progress i with
      | .read turnIndex =>
          match insertTurn s.rows (calls i) turnIndex with
          | .ok rows => some ⟨rows, Function.update s.progress i .inserted⟩
          | .error _ => some { s with progress := Function.update s.progress i .failed }
      | _ => none

/-- The statements one after another; `none` if a call makes one out of its turn. -/
def executeAll (s : TurnTable ι) : List (Statement ι) → Option (TurnTable ι)
  | [] => some s
  | statement :: rest => (execute calls s statement).bind fun s => executeAll s rest

end Threads

end MemoryEngine

end ContextMemory
