/-
Batch isolation.

Every error of a stage becomes the result of its record, and the batch goes on. The one
classified error that is raised before `run_chunk` takes over is the chunk store's own:
a record whose chunk is already stored with other content ends the whole batch. So a
batch is served exactly when none of its records conflicts with the chunk table it finds.
-/

import ContextMemory.Ingestion.Batch
import ContextMemory.Ingestion.Fixture

namespace ContextMemory

open Faulty

section Batches

variable (d : Deployment) (env : ContextRecord → Env) (batch : ContextBatch)

/-- No record has a chunk that is stored with other content, or shares its chunk id with
another of the records. -/
def Admissible (chunks : ChunkTable) (records : List ContextRecord) : Prop :=
  (∀ record ∈ records, ¬ chunks.Conflicts (chunkFromRecord d.sha256 batch record)) ∧
    (records.map fun record => chunkIdFor d.sha256 batch.contextId record.recordId).Nodup

end Batches

section Serving

variable {d : Deployment} {env : ContextRecord → Env} {batch : ContextBatch}

end Serving

/-! ### A batch of two turns -/

end ContextMemory
