/-
`ExtractionService` (`ingestion/extraction.py`) and the audit tables it writes
(`PostgresExtractionStore`).

An extractor hands over untrusted drafts. The service applies the defaults, validates
each draft against its record and keeps the rejected ones with their reason: a bad
draft never fails the turn.
-/

import Mathlib.Logic.Function.Basic
import ContextMemory.Core.Models

namespace ContextMemory

structure RejectedExtraction where
  candidateId : String
  reason : String
  draft : ExtractionDraft
deriving DecidableEq

structure ExtractionResult where
  attemptId : String
  accepted : List ExtractedMemoryCandidate
  rejected : List RejectedExtraction
deriving DecidableEq

/-! ### Drafts to candidates -/

/-- `draft.scope_type or (SESSION if record.session_id else CHAT)`. -/
def draftScopeType (record : ContextRecord) (draft : ExtractionDraft) : MemoryScope :=
  draft.scopeType.getD (if record.sessionId.isSome then .session else .chat)

/-- `draft.scope_id or (record.session_id if scope is SESSION else batch.context_id)`. -/
def draftScopeId (batch : ContextBatch) (record : ContextRecord) (draft : ExtractionDraft) :
    Option String :=
  draft.scopeId.or
    (if draftScopeType record draft = .session then record.sessionId else some batch.contextId)

theorem draftScopeId_ne {batch : ContextBatch} {record : ContextRecord} {draft : ExtractionDraft}
    {scopeId : String} (h : draftScopeId batch record draft = some scopeId) : scopeId ≠ "" := by
  rintro rfl
  unfold draftScopeId at h
  cases hscope : draft.scopeId with
  | some value =>
      rw [hscope, Option.some_or] at h
      exact draft.scopeId_ne (hscope.trans h)
  | none =>
      rw [hscope, Option.none_or] at h
      split at h
      · exact record.sessionId_ne h
      · exact batch.contextId_ne (Option.some.inj h)

/-- `_resolve_draft`. -/
def resolveDraft (batch : ContextBatch) (record : ContextRecord) (draft : ExtractionDraft) :
    Except Exn ExtractedMemoryCandidate :=
  if draft.memoryType = some .episodic then
    .error (.valueError
      "episodic is reserved for the immutable raw chunk, not an extracted candidate")
  else
    match hscope : draftScopeId batch record draft with
    | none => .error (.valueError "session scope requires a session_id")
    | some scopeId => .ok {
        candidateId := draft.candidateId
        text := draft.text
        memoryType := draft.memoryType.getD .semantic
        scopeType := draftScopeType record draft
        scopeId := scopeId
        sourceSpan := ⟨record.recordId, draft.sourceStart, draft.sourceEnd⟩
        confidence := draft.confidence
        temporal := ⟨record.occurredAt, draft.validFrom, draft.validTo⟩
        entities := draft.entities
        action := draft.action
        predicateKey := draft.predicateKey
        candidateId_ne := draft.candidateId_ne
        text_ne := draft.text_ne
        scopeId_ne := draftScopeId_ne hscope
        confidence_unit := draft.confidence_unit }

/-- The body of the `try`: resolve, then validate. -/
def assessDraft (batch : ContextBatch) (record : ContextRecord) (draft : ExtractionDraft) :
    Except Exn ExtractedMemoryCandidate :=
  match resolveDraft batch record draft with
  | .error e => .error e
  | .ok candidate =>
      match validateCandidate candidate batch.records with
      | .error e => .error e
      | .ok () => .ok candidate

/-- The accepted candidates, in draft order. -/
def acceptedDrafts (batch : ContextBatch) (record : ContextRecord) (drafts : List ExtractionDraft) :
    List ExtractedMemoryCandidate :=
  drafts.filterMap fun draft => (assessDraft batch record draft).toOption

/-- The rejected drafts with their reasons, in draft order. -/
def rejectedDrafts (batch : ContextBatch) (record : ContextRecord) (drafts : List ExtractionDraft) :
    List RejectedExtraction :=
  drafts.filterMap fun draft =>
    match assessDraft batch record draft with
    | .error e => some ⟨draft.candidateId, e.str, draft⟩
    | .ok _ => none

theorem resolveDraft_eq_ok {batch : ContextBatch} {record : ContextRecord} {draft : ExtractionDraft}
    {candidate : ExtractedMemoryCandidate} (h : resolveDraft batch record draft = .ok candidate) :
    candidate.candidateId = draft.candidateId ∧ candidate.text = draft.text ∧
      candidate.temporal = ⟨record.occurredAt, draft.validFrom, draft.validTo⟩ ∧
      candidate.entities = draft.entities ∧ candidate.predicateKey = draft.predicateKey := by
  unfold resolveDraft at h
  split at h
  · cases h
  · split at h
    · cases h
    · cases h
      exact ⟨rfl, rfl, rfl, rfl, rfl⟩

/-- What an accepted candidate is: its draft, resolved and valid for the record. -/
theorem mem_acceptedDrafts {batch : ContextBatch} {record : ContextRecord}
    {drafts : List ExtractionDraft} {candidate : ExtractedMemoryCandidate}
    (h : candidate ∈ acceptedDrafts batch record drafts) :
    ∃ draft ∈ drafts, resolveDraft batch record draft = .ok candidate ∧
      validateCandidate candidate batch.records = .ok () := by
  obtain ⟨draft, hdraft, hok⟩ := List.mem_filterMap.mp h
  refine ⟨draft, hdraft, ?_⟩
  unfold assessDraft at hok
  cases hresolve : resolveDraft batch record draft with
  | error e =>
      rw [hresolve] at hok
      cases hok
  | ok resolved =>
      rw [hresolve] at hok
      dsimp only at hok
      cases hvalid : validateCandidate resolved batch.records with
      | error e =>
          rw [hvalid] at hok
          cases hok
      | ok u =>
          rw [hvalid] at hok
          cases hok
          exact ⟨rfl, hvalid⟩

/-- Every accepted candidate is observed when its record occurred. -/
theorem accepted_observedAt {batch : ContextBatch} {record : ContextRecord}
    {drafts : List ExtractionDraft} {candidate : ExtractedMemoryCandidate}
    (h : candidate ∈ acceptedDrafts batch record drafts) :
    candidate.temporal.observedAt = record.occurredAt := by
  obtain ⟨draft, -, hresolve, -⟩ := mem_acceptedDrafts h
  rw [(resolveDraft_eq_ok hresolve).2.2.1]

/-- Accepting drafts keeps their ids, in order. -/
theorem acceptedDrafts_ids (batch : ContextBatch) (record : ContextRecord)
    (drafts : List ExtractionDraft) : ((acceptedDrafts batch record drafts).map
      (·.candidateId)).Sublist (drafts.map (·.candidateId)) := by
  induction drafts with
  | nil => exact List.Sublist.slnil
  | cons draft rest ih =>
      have hrest : acceptedDrafts batch record (draft :: rest) =
          (assessDraft batch record draft).toOption.toList ++ acceptedDrafts batch record rest := by
        simp only [acceptedDrafts, List.filterMap_cons]
        cases (assessDraft batch record draft).toOption <;> rfl
      rw [hrest, List.map_append, List.map_cons]
      cases hok : (assessDraft batch record draft).toOption with
      | none => exact ih.cons _
      | some candidate =>
          have hmem : candidate ∈ acceptedDrafts batch record [draft] := by
            simp [acceptedDrafts, hok]
          obtain ⟨draft', hdraft', hresolve, -⟩ := mem_acceptedDrafts hmem
          obtain rfl := List.mem_singleton.mp hdraft'
          have hid := (resolveDraft_eq_ok hresolve).1
          simp only [Option.toList_some, List.map_cons, List.map_nil, List.singleton_append, hid]
          exact ih.cons_cons _

/-! ### The service -/

/-- What the extractor is, and what it answers this time. -/
structure Extractor where
  name : String := "llm-extractor"
  version : String := "v1"
  extract : ContextRecord → Except Exn (List ExtractionDraft)

/-- `_attempt_id`; `reprDrafts` is Python's `repr` of the drafts. -/
def attemptIdFor (sha256 : String → String) (reprDrafts : List ExtractionDraft → String)
    (chunk : Chunk) (name version : String) (drafts : List ExtractionDraft) : String :=
  "extract:" ++ sha256 (chunk.chunkId ++ "\u0000" ++ chunk.contentHash ++ "\u0000" ++ name ++
    "\u0000" ++ version ++ "\u0000" ++ reprDrafts drafts)

def allowedExtractors : List (String × String) :=
  [("deterministic-fixture", "v1"), ("llm-extractor", "v1")]

/-- `ExtractionService.extract` up to the audit write. -/
def extractChunk (sha256 : String → String) (reprDrafts : List ExtractionDraft → String)
    (extractor : Extractor) (batch : ContextBatch) (record : ContextRecord) (chunk : Chunk) :
    Except Exn ExtractionResult :=
  if chunk.contextId ≠ batch.contextId ∨ chunk.sourceRecordId ≠ record.recordId then
    .error (.valueError "chunk must be the immutable chunk for the supplied record and context")
  else if (extractor.name, extractor.version) ∉ allowedExtractors then
    .error (.valueError
      "extraction accepts only deterministic-fixture or llm-extractor v1 output")
  else
    match extractor.extract record with
    | .error e => .error e
    | .ok drafts => .ok {
        attemptId := attemptIdFor sha256 reprDrafts chunk extractor.name extractor.version drafts
        accepted := acceptedDrafts batch record drafts
        rejected := rejectedDrafts batch record drafts }

theorem extractChunk_eq_ok {sha256 : String → String} {reprDrafts : List ExtractionDraft → String}
    {extractor : Extractor} {batch : ContextBatch} {record : ContextRecord} {chunk : Chunk}
    {result : ExtractionResult}
    (h : extractChunk sha256 reprDrafts extractor batch record chunk = .ok result) :
    ∃ drafts, extractor.extract record = .ok drafts ∧
      result.accepted = acceptedDrafts batch record drafts := by
  unfold extractChunk at h
  split at h
  · cases h
  · split at h
    · cases h
    · split at h
      · cases h
      · rename_i drafts hdrafts
        cases h
        exact ⟨drafts, hdrafts, rfl⟩

/-! ### The audit trail -/

structure ExtractionAttempt where
  chunkId : String
  contextId : String
  extractorName : String
  extractorVersion : String
  inputContentHash : String
  acceptedCount : Nat
  rejectedCount : Nat
deriving DecidableEq

/-- `extraction_attempts`, `extracted_memory_candidates`, `rejected_extraction_candidates`. -/
structure ExtractionAudit where
  attempts : String → Option ExtractionAttempt := fun _ => none
  candidates : String × String → Option ExtractedMemoryCandidate := fun _ => none
  rejected : String × Nat → Option RejectedExtraction := fun _ => none

/-- `INSERT ... ON CONFLICT DO NOTHING`. -/
def insertOnce {κ ν : Type} [DecidableEq κ] (table : κ → Option ν) (key : κ) (row : ν) :
    κ → Option ν :=
  if (table key).isSome then table else Function.update table key (some row)

/-- `PostgresExtractionStore.record`. -/
def ExtractionAudit.record (audit : ExtractionAudit) (chunk : Chunk) (name version : String)
    (result : ExtractionResult) : ExtractionAudit where
  attempts := insertOnce audit.attempts result.attemptId
    ⟨chunk.chunkId, chunk.contextId, name, version, chunk.contentHash, result.accepted.length,
      result.rejected.length⟩
  candidates := result.accepted.foldl
    (fun table c => insertOnce table (result.attemptId, c.candidateId) c) audit.candidates
  rejected := result.rejected.zipIdx.foldl
    (fun table r => insertOnce table (result.attemptId, r.2) r.1) audit.rejected

end ContextMemory
