/-
The checks of the ingestion contract on what an adapter hands over (`core/models.py`, and the
`_text` of each adapter).
-/

import ContextMemory.Client.Http

namespace ContextMemory

abbrev NonEmptyText := {value : String // value ≠ ""}

theorem NonEmptyText.ne (text : NonEmptyText) : text.1 ≠ "" := text.2

theorem NonEmptyText.some_ne (text : NonEmptyText) : some text.1 ≠ some "" := by
  simpa using text.2

/-- A text that is missing is not empty. -/
theorem none_ne_empty : (none : Option String) ≠ some "" := by decide

/-- `_required_text`, and the `_text` of the adapters. -/
def requiredText (value : Option Json) (fieldName : String) : Except Exn NonEmptyText :=
  match value with
  | some (.str value) =>
      if h : value ≠ "" then .ok ⟨value, h⟩
      else .error (.contractValidation fieldName "must be a non-empty string")
  | _ => .error (.contractValidation fieldName "must be a non-empty string")

/-- The `SourceDescriptor` constructor. -/
def SourceDescriptor.make (sourceType sourceExternalId : String) : Except Exn SourceDescriptor :=
  if sourceType = "" then
    .error (.contractValidation "batch.source_type" "must be a non-empty string")
  else if sourceExternalId = "" then
    .error (.contractValidation "batch.source_external_id" "must be a non-empty string")
  else .ok ⟨sourceType, sourceExternalId⟩

def duplicateRecordId : Exn := .contractValidation "batch.records" "contains duplicate record_id"

/-- The `ContextBatch` constructor. -/
def ContextBatch.make (ingestionId contextId : String) (source : SourceDescriptor)
    (records : List ContextRecord) : Except Exn ContextBatch :=
  if hingestion : ingestionId ≠ "" then
    if hcontext : contextId ≠ "" then
      if hrecords : records ≠ [] then
        if hids : (records.map (·.recordId)).Nodup then
          .ok ⟨ingestionId, contextId, source, records, hingestion, hcontext, hrecords, hids⟩
        else .error duplicateRecordId
      else .error (.contractValidation "batch.records" "must be a non-empty array")
    else .error (.contractValidation "batch.context_id" "must be a non-empty string")
  else .error (.contractValidation "batch.ingestion_id" "must be a non-empty string")

theorem requiredText_eq_ok {value : Option Json} {fieldName : String} {v : NonEmptyText}
    (h : requiredText value fieldName = .ok v) : value = some (.str v.1) := by
  unfold requiredText at h
  split at h
  · split at h
    · cases h
      rfl
    · cases h
  · cases h

theorem requiredText_str {value : String} (h : value ≠ "") (fieldName : String) :
    requiredText (some (.str value)) fieldName = .ok ⟨value, h⟩ := by
  rw [requiredText, dif_pos h]

variable {ingestionId contextId : String} {source : SourceDescriptor} {records : List ContextRecord}

theorem ContextBatch.make_eq_ok {batch : ContextBatch}
    (h : ContextBatch.make ingestionId contextId source records = .ok batch) :
    batch.contextId = contextId ∧ batch.records = records := by
  unfold ContextBatch.make at h
  split at h
  · split at h
    · split at h
      · split at h
        · cases h
          exact ⟨rfl, rfl⟩
        · cases h
      · cases h
    · cases h
  · cases h

/-- A batch of one record is made. -/
theorem ContextBatch.make_singleton (hingestion : ingestionId ≠ "") (hcontext : contextId ≠ "")
    (source : SourceDescriptor) (record : ContextRecord) : ∃ batch : ContextBatch,
    ContextBatch.make ingestionId contextId source [record] = .ok batch ∧
      batch.contextId = contextId ∧ batch.records = [record] := by
  have hids : ([record].map (·.recordId)).Nodup := List.nodup_singleton _
  rw [ContextBatch.make, dif_pos hingestion, dif_pos hcontext, dif_pos (List.cons_ne_nil _ _),
    dif_pos hids]
  exact ⟨_, rfl, rfl, rfl⟩

end ContextMemory
