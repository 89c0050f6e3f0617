/-
The domain models of the ingestion contract (`core/models.py`, `core/errors.py`,
`core/validation.py`, the memory vocabularies of `core/enums.py`).

A model whose constructor validates carries the validated facts as fields, so a
value of the type is a value the constructor accepted. The functions that build
one from unchecked input return the error the constructor raises.

SHA-256 is a parameter of the definitions that hash.
-/

import Mathlib.Data.Finmap
import Mathlib.Algebra.Order.Ring.Rat
import ContextMemory.Core.Time

namespace ContextMemory

/-! ### Errors -/

/-- The exceptions the ingestion code tells apart. `provider` stands for whatever
a driver, a service or a model client raises. -/
inductive Exn where
  | contractValidation (field message : String)
  | immutableRecordConflict (message : String)
  | graphPayloadConflict (message : String)
  | illegalJobTransition (message : String)
  | valueError (message : String)
  | runtimeError (message : String)
  | provider (message : String)
deriving DecidableEq, Repr

/-- `str(error)`. -/
def Exn.str : Exn → String
  | .contractValidation field message => field ++ ": " ++ message
  | .immutableRecordConflict message => message
  | .graphPayloadConflict message => message
  | .illegalJobTransition message => message
  | .valueError message => message
  | .runtimeError message => message
  | .provider message => message

/-! ### Scalars and metadata -/

/-- The scalar property values: `SCALAR = (str, int, float, bool)`. -/
inductive Scalar where
  | str (value : String)
  | int (value : Int)
  | float (value : Rat)
  | bool (value : Bool)
deriving DecidableEq, Repr

namespace Scalar

/-- The number a scalar stands for in a comparison; `bool` is a subclass of `int`. -/
def number? : Scalar → Option Rat
  | .str _ => none
  | .int value => some value
  | .float value => some value
  | .bool value => some (if value then 1 else 0)

/-- Python's `==` on scalars: `1 == 1.0 == True`. -/
def pyEq : Scalar → Scalar → Bool
  | .str a, .str b => a == b
  | a, b => match a.number?, b.number? with
    | some x, some y => x == y
    | _, _ => false

/-- Python's truth value of a scalar. -/
def truthy : Scalar → Bool
  | .str value => value != ""
  | .int value => value != 0
  | .float value => value != 0
  | .bool value => value

/-- `int(value)` on a scalar; a string has to be a decimal numeral. -/
def pyInt : Scalar → Option Int
  | .str value => value.toInt?
  | .int value => some value
  | .float value => some (value.num.tdiv value.den)
  | .bool value => some (if value then 1 else 0)

/-- What `==` compares: a text, or a number. -/
def compared : Scalar → String ⊕ Rat
  | .str value => .inl value
  | .int value => .inr value
  | .float value => .inr value
  | .bool value => .inr (if value then 1 else 0)

theorem pyEq_iff {a b : Scalar} : a.pyEq b = true ↔ a.compared = b.compared := by
  cases a <;> cases b <;> simp [pyEq, number?, compared]

theorem pyEq_refl (a : Scalar) : pyEq a a = true := pyEq_iff.mpr rfl

theorem pyEq_symm {a b : Scalar} (h : pyEq a b = true) : pyEq b a = true :=
  pyEq_iff.mpr (pyEq_iff.mp h).symm

theorem pyEq_trans {a b c : Scalar} (hab : pyEq a b = true) (hbc : pyEq b c = true) :
    pyEq a c = true :=
  pyEq_iff.mpr ((pyEq_iff.mp hab).trans (pyEq_iff.mp hbc))

/-- Strings are told apart by `==`. -/
theorem pyEq_str {a : Scalar} {s : String} (h : pyEq (.str s) a = true) : a = .str s := by
  cases a <;> simp_all [pyEq, number?]

theorem pyEq_int {x y : Int} (h : pyEq (.int x) (.int y) = true) : x = y := by
  simpa [pyEq, number?] using h

end Scalar

/-- A metadata value: JSON `null`, a scalar, or an array or object (kept as its text). -/
inductive MetaValue where
  | null
  | scalar (value : Scalar)
  | compound (text : String)
deriving DecidableEq, Repr

abbrev Metadata := Finmap (fun _ : String => MetaValue)

/-- `EVALUATION_ONLY_FIELDS`. -/
def evaluationOnlyFields : List String :=
  ["question_id", "question_type", "has_answer", "_abs", "answer", "answer_session_ids"]

/-! ### Records, batches and chunks -/

structure SourceDescriptor where
  sourceType : String
  sourceExternalId : String
deriving DecidableEq

/-- One source record; `content_type` is always `text/plain`. -/
structure ContextRecord where
  recordId : String
  occurredAt : DateTime
  content : String
  sessionId : Option String := none
  actorId : Option String := none
  actorRole : Option String := none
  metadata : Metadata := ∅
  recordId_ne : recordId ≠ "" := by decide
  content_ne : content ≠ "" := by decide
  sessionId_ne : sessionId ≠ some "" := by decide
  actorId_ne : actorId ≠ some "" := by decide
  actorRole_ne : actorRole ≠ some "" := by decide
  metadata_allowed : ∀ k ∈ evaluationOnlyFields, k ∉ metadata := by decide
deriving DecidableEq

structure ContextBatch where
  ingestionId : String
  contextId : String
  source : SourceDescriptor
  records : List ContextRecord
  ingestionId_ne : ingestionId ≠ "" := by decide
  contextId_ne : contextId ≠ "" := by decide
  records_ne : records ≠ [] := by decide
  recordIds_nodup : (records.map (·.recordId)).Nodup := by decide

/-- The immutable evidence chunk of one record. -/
structure Chunk where
  chunkId : String
  contextId : String
  source : SourceDescriptor
  sourceRecordId : String
  rawText : String
  contentHash : String
  occurredAt : DateTime
  sessionId : Option String
  actorId : Option String
  actorRole : Option String
  metadata : Metadata
deriving DecidableEq

section Hashing

variable (sha256 : String → String)

/-- `content_hash`. -/
def contentHash (content : String) : String := "sha256:" ++ sha256 content

/-- `chunk_id_for`: stable identity of a record inside its context. -/
def chunkIdFor (contextId recordId : String) : String :=
  "chunk:" ++ sha256 (contextId ++ "\u0000" ++ recordId)

/-- `chunk_from_record`. -/
def chunkFromRecord (batch : ContextBatch) (record : ContextRecord) : Chunk where
  chunkId := chunkIdFor sha256 batch.contextId record.recordId
  contextId := batch.contextId
  source := batch.source
  sourceRecordId := record.recordId
  rawText := record.content
  contentHash := contentHash sha256 record.content
  occurredAt := record.occurredAt
  sessionId := record.sessionId
  actorId := record.actorId
  actorRole := record.actorRole
  metadata := record.metadata

end Hashing

/-! ### Candidates -/

inductive MemoryType where
  | episodic | semantic | procedural
deriving DecidableEq, Repr

def MemoryType.value : MemoryType → String
  | .episodic => "episodic"
  | .semantic => "semantic"
  | .procedural => "procedural"

inductive MemoryScope where
  | chat | session | user
deriving DecidableEq, Repr

def MemoryScope.value : MemoryScope → String
  | .chat => "chat"
  | .session => "session"
  | .user => "user"

inductive Action where
  | add | update | delete
deriving DecidableEq, Repr

/-- The span is checked against its record by `validateCandidate`, not here. -/
structure SourceSpan where
  sourceRecordId : String
  sourceStart : Int
  sourceEnd : Int
deriving DecidableEq

structure TemporalBounds where
  observedAt : DateTime
  validFrom : Option DateTime := none
  validTo : Option DateTime := none
deriving DecidableEq

structure EntityCandidate where
  surface : String
  entityType : Option String := none
  surface_ne : surface ≠ "" := by decide
deriving DecidableEq

structure ExtractedMemoryCandidate where
  candidateId : String
  text : String
  memoryType : MemoryType
  scopeType : MemoryScope
  scopeId : String
  sourceSpan : SourceSpan
  confidence : Rat
  temporal : TemporalBounds
  entities : List EntityCandidate := []
  action : Action := .add
  predicateKey : Option String := none
  candidateId_ne : candidateId ≠ "" := by decide
  text_ne : text ≠ "" := by decide
  scopeId_ne : scopeId ≠ "" := by decide
  confidence_unit : 0 ≤ confidence ∧ confidence ≤ 1 := by decide
deriving DecidableEq

/-- What an extractor hands over; the extraction service applies the defaults. -/
structure ExtractionDraft where
  candidateId : String
  text : String
  sourceStart : Int
  sourceEnd : Int
  confidence : Rat
  memoryType : Option MemoryType := none
  scopeType : Option MemoryScope := none
  scopeId : Option String := none
  validFrom : Option DateTime := none
  validTo : Option DateTime := none
  entities : List EntityCandidate := []
  action : Action := .add
  predicateKey : Option String := none
  candidateId_ne : candidateId ≠ "" := by decide
  text_ne : text ≠ "" := by decide
  confidence_unit : 0 ≤ confidence ∧ confidence ≤ 1 := by decide
  scopeId_ne : scopeId ≠ some "" := by decide
deriving DecidableEq

/-- `validate_candidate`: the checks on spans, source time and world validity, in
the source's order. `text`, `scope_id` and `confidence` are checked again there;
a candidate already carries those facts. -/
def validateCandidate (candidate : ExtractedMemoryCandidate) (records : List ContextRecord) :
    Except Exn Unit :=
  match records.find? (·.recordId = candidate.sourceSpan.sourceRecordId) with
  | none => .error (.contractValidation "candidate.source_record_id"
      "does not identify a record in this batch")
  | some source =>
    let span := candidate.sourceSpan
    if ¬(0 ≤ span.sourceStart ∧ span.sourceStart < span.sourceEnd ∧
        span.sourceEnd ≤ source.content.length) then
      .error (.contractValidation "candidate.source_span"
        "must be a non-empty Unicode code-point span")
    else if candidate.temporal.observedAt.micros ≠ source.occurredAt.micros then
      .error (.contractValidation "candidate.observed_at" "must equal source record occurred_at")
    else
      match candidate.temporal.validFrom, candidate.temporal.validTo with
      | some validFrom, some validTo =>
          if validTo < validFrom then
            .error (.contractValidation "candidate.valid_from" "must not be later than valid_to")
          else .ok ()
      | _, _ => .ok ()

/-- What `validateCandidate` establishes of a candidate's world validity. -/
theorem validateCandidate_bounds {candidate : ExtractedMemoryCandidate}
    {records : List ContextRecord} (h : validateCandidate candidate records = .ok ())
    {validFrom validTo : DateTime} (hfrom : candidate.temporal.validFrom = some validFrom)
    (hto : candidate.temporal.validTo = some validTo) : validFrom ≤ validTo := by
  unfold validateCandidate at h
  split at h
  · cases h
  · rw [hfrom, hto] at h
    dsimp only at h
    split at h
    · cases h
    · split at h
      · cases h
      · split at h
        · cases h
        · rename_i hlt
          exact Int.not_lt.mp hlt

end ContextMemory
