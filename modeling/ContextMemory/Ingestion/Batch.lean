/-
`IngestionOrchestrator.run_batch` (`ingestion/orchestrator.py`): one `run_record` after
another, in the order of `batch.records`.

`run_chunk` turns every error of its stages into a result. What `run_record` does before
it (storing the chunk, finding its job) has no handler of its own, so an error there is
the end of the comprehension and of the batch.
-/

import ContextMemory.Ingestion.Pipeline

namespace ContextMemory

open Faulty

structure BatchRunResult where
  contextId : String
  results : List ChunkRunResult
deriving DecidableEq

def BatchRunResult.completedCount (result : BatchRunResult) : Nat :=
  result.results.countP fun r => r.state = .completed

section Running

variable (d : Deployment) (env : ContextRecord → Env)

end Running

/-- The batch of one of the records alone. -/
def ContextBatch.only (batch : ContextBatch) (record : ContextRecord) : ContextBatch :=
  { batch with records := [record], records_ne := by simp, recordIds_nodup := by simp }

/-! ### A record in a batch of its own -/

section Alone

variable {batch : ContextBatch} {record : ContextRecord}

/-- A record is found by its id: no other record of the batch has it. -/
theorem ContextBatch.find_record (h : record ∈ batch.records) :
    batch.records.find? (·.recordId = record.recordId) = some record := by
  cases hfind : batch.records.find? (·.recordId = record.recordId) with
  | none =>
      have hne := List.find?_eq_none.mp hfind record h
      simp at hne
  | some found =>
      have hid : found.recordId = record.recordId := by simpa using List.find?_some hfind
      exact congrArg some (List.inj_on_of_nodup_map batch.recordIds_nodup
        (List.mem_of_find?_eq_some hfind) h hid)

end Alone

/-! ### When a record returns -/

section Returning

variable {d : Deployment} {call : Call} {w : World Stores} {fs : List (Fault Exn)}

/-- A `put` that returned was accepted by the store's check. -/
theorem putChunk_eq_ok {w' : World Stores} {fs' : List (Fault Exn)}
    (h : call.putChunk d w fs = ⟨.ok (), w', fs'⟩) :
    ∃ chunks jobs, w.stores.chunks.put w.jobs (call.chunk d) = .ok (chunks, jobs) ∧
      w' = ⟨jobs, { w.stores with chunks }⟩ := by
  have hop := Prog.op_eq_ok h
  cases hput : w.stores.chunks.put w.jobs (call.chunk d) with
  | error e =>
      rw [hput] at hop
      cases hop
  | ok out =>
      rw [hput] at hop
      cases hop
      exact ⟨out.1, out.2, rfl, rfl⟩

end Returning

end ContextMemory
