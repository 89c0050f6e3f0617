/-
The SQL tables beside the manifest (`persistence/postgres.py`): evidence chunks,
embeddings and the full-text search index.

A table is a partial function from its key. Each operation is one transaction, so it
either raises and changes nothing or returns with its row in the table; no operation
deletes a row.
-/

import ContextMemory.Core.Jobs

namespace ContextMemory

/-! ### Evidence chunks -/

/-- Python's `==` on metadata values. -/
def MetaValue.pyEq : MetaValue → MetaValue → Bool
  | .null, .null => true
  | .scalar a, .scalar b => a.pyEq b
  | .compound a, .compound b => a == b
  | _, _ => false

/-- The values two metadata objects have at a key are `==`. -/
def sameMetaAt (a b : Metadata) (key : String) : Bool :=
  match a.lookup key, b.lookup key with
  | some x, some y => x.pyEq y
  | _, _ => false

/-- Python's `==` on two metadata objects. -/
def sameMetadata (a b : Metadata) : Bool :=
  decide (a.keys = b.keys ∧ ∀ key ∈ a.keys, sameMetaAt a b key = true)

/-- The comparison `PostgresChunkStore.put` makes with the stored row; instants are equal
when they are the same instant. -/
def sameChunk (existing chunk : Chunk) : Bool :=
  existing.contextId = chunk.contextId && existing.source = chunk.source &&
    existing.sourceRecordId = chunk.sourceRecordId && existing.sessionId = chunk.sessionId &&
    existing.actorId = chunk.actorId && existing.actorRole = chunk.actorRole &&
    existing.rawText = chunk.rawText && existing.contentHash = chunk.contentHash &&
    existing.occurredAt.micros = chunk.occurredAt.micros &&
    sameMetadata existing.metadata chunk.metadata

theorem MetaValue.pyEq_refl (a : MetaValue) : a.pyEq a = true := by
  cases a with
  | null => rfl
  | scalar value => exact Scalar.pyEq_refl value
  | compound text => simp [MetaValue.pyEq]

/-- A chunk is the same evidence as itself. -/
theorem sameChunk_refl (chunk : Chunk) : sameChunk chunk chunk = true := by
  have hmeta : sameMetadata chunk.metadata chunk.metadata = true := by
    simp only [sameMetadata, true_and, decide_eq_true_eq]
    intro key hkey
    obtain ⟨value, hvalue⟩ := Option.isSome_iff_exists.mp (Finmap.lookup_isSome.mpr hkey)
    rw [sameMetaAt, hvalue]
    exact MetaValue.pyEq_refl value
  simp [sameChunk, hmeta]

/-- `evidence_chunks`, by its primary key. -/
abbrev ChunkTable := String → Option Chunk

namespace ChunkTable

/-- `get`. -/
def get (chunks : ChunkTable) (contextId chunkId : String) : Option Chunk :=
  (chunks chunkId).filter fun chunk => chunk.contextId = contextId

/-- `put`: the chunk and its job row are inserted in one transaction. -/
def put (chunks : ChunkTable) (jobs : JobTable) (chunk : Chunk) :
    Except Exn (ChunkTable × JobTable) :=
  match chunks.get chunk.contextId chunk.chunkId with
  | some existing =>
      if sameChunk existing chunk then .ok (chunks, jobs)
      else .error (.immutableRecordConflict
        ("chunk_id " ++ chunk.chunkId ++ " has different immutable content"))
  | none =>
      if (chunks chunk.chunkId).isSome then
        .error (.provider "duplicate key value violates unique constraint evidence_chunks_pkey")
      else if (jobs chunk.chunkId).isSome then
        .error (.provider "duplicate key value violates unique constraint on ingestion_jobs")
      else .ok (Function.update chunks chunk.chunkId (some chunk),
        Function.update jobs chunk.chunkId (some (pendingJob chunk.chunkId chunk.contextId)))

/-- What an accepted `put` did: the stored chunk is the same evidence, and it
was stored already or is new together with its job row. -/
theorem put_eq_ok {chunks chunks' : ChunkTable} {jobs jobs' : JobTable} {chunk : Chunk}
    (h : chunks.put jobs chunk = .ok (chunks', jobs')) :
    (∃ existing, chunks chunk.chunkId = some existing ∧ sameChunk existing chunk = true ∧
        chunks' = chunks ∧ jobs' = jobs) ∨
      (chunks chunk.chunkId = none ∧ jobs chunk.chunkId = none ∧
        chunks' = Function.update chunks chunk.chunkId (some chunk) ∧
        jobs' = Function.update jobs chunk.chunkId
          (some (pendingJob chunk.chunkId chunk.contextId))) := by
  unfold put at h
  split at h
  · rename_i existing hget
    split at h
    · rename_i hsame
      cases h
      obtain ⟨hrow, -⟩ := Option.filter_eq_some_iff.mp hget
      exact Or.inl ⟨existing, hrow, hsame, rfl, rfl⟩
    · cases h
  · split at h
    · cases h
    · rename_i hchunk
      split at h
      · cases h
      · rename_i hjob
        cases h
        exact Or.inr ⟨by simpa using hchunk, by simpa using hjob, rfl, rfl⟩

/-- The row of this chunk in its context holds other evidence. -/
def Conflicts (chunks : ChunkTable) (chunk : Chunk) : Prop :=
  ∃ existing, chunks.get chunk.contextId chunk.chunkId = some existing ∧
    sameChunk existing chunk = false

/-- What an accepted `put` leaves in the chunk's own row. -/
theorem put_stored {chunks chunks' : ChunkTable} {jobs jobs' : JobTable} {chunk : Chunk}
    (h : chunks.put jobs chunk = .ok (chunks', jobs')) :
    ∃ stored, chunks' chunk.chunkId = some stored ∧ sameChunk stored chunk = true := by
  rcases put_eq_ok h with ⟨existing, hrow, hsame, rfl, -⟩ | ⟨-, -, rfl, -⟩
  · exact ⟨existing, hrow, hsame⟩
  · exact ⟨chunk, Function.update_self _ _ _, sameChunk_refl chunk⟩

end ChunkTable

/-- The same evidence occurred at the same instant. -/
theorem sameChunk_occurredAt {existing chunk : Chunk} (h : sameChunk existing chunk = true) :
    existing.occurredAt.micros = chunk.occurredAt.micros := by
  simp only [sameChunk, Bool.and_eq_true, decide_eq_true_eq] at h
  exact h.1.2

/-! ### Embeddings -/

inductive SubjectKind where
  | fact | chunk
deriving DecidableEq, Repr

def SubjectKind.value : SubjectKind → String
  | .fact => "fact"
  | .chunk => "chunk"

/-- The unique key of `memory_embeddings`. -/
structure EmbeddingKey where
  contextId : String
  subjectKind : SubjectKind
  subjectId : String
  modelName : String
  modelVersion : String
deriving DecidableEq

structure Embedding where
  key : EmbeddingKey
  sourceChunkId : String
  values : List Rat
  embeddedContentHash : String
  isActive : Bool := true
deriving DecidableEq

/-- The `Embedding` constructor on a subject of the pipeline: its ids are non-empty, the
embedder's own data has to be checked. -/
def Embedding.make (embedding : Embedding) : Except Exn Embedding :=
  if embedding.key.modelName = "" then
    .error (.contractValidation "embedding.model_name" "must be a non-empty string")
  else if embedding.key.modelVersion = "" then
    .error (.contractValidation "embedding.model_version" "must be a non-empty string")
  else if embedding.values = [] then
    .error (.contractValidation "embedding.values" "must be a non-empty vector of numbers")
  else .ok embedding

abbrev EmbeddingTable := EmbeddingKey → Option Embedding

/-- `PostgresEmbeddingStore.put`. -/
def EmbeddingTable.put (table : EmbeddingTable) (embedding : Embedding) :
    Except Exn EmbeddingTable :=
  match table embedding.key with
  | some existing =>
      if existing.embeddedContentHash ≠ embedding.embeddedContentHash then
        .error (.immutableRecordConflict ("embedding for " ++ embedding.key.subjectKind.value ++ ":" ++
          embedding.key.subjectId ++ " model " ++ embedding.key.modelName ++ "/" ++
          embedding.key.modelVersion ++ " has a different embedded_content_hash"))
      else .ok table
  | none => .ok (Function.update table embedding.key (some embedding))

theorem Embedding.make_eq_ok {embedding embedding' : Embedding}
    (h : embedding.make = .ok embedding') : embedding' = embedding := by
  unfold Embedding.make at h
  split at h
  · cases h
  · split at h
    · cases h
    · split at h
      · cases h
      · cases h
        rfl

/-- An accepted embedding: it is stored now, or one with its key and hash was
before. -/
theorem EmbeddingTable.put_eq_ok {table table' : EmbeddingTable} {embedding : Embedding}
    (h : table.put embedding = .ok table') :
    (∃ existing, table embedding.key = some existing ∧
        existing.embeddedContentHash = embedding.embeddedContentHash ∧ table' = table) ∨
      (table embedding.key = none ∧
        table' = Function.update table embedding.key (some embedding)) := by
  unfold EmbeddingTable.put at h
  split at h
  · rename_i existing hrow
    split at h
    · cases h
    · rename_i hhash
      cases h
      exact Or.inl ⟨existing, hrow, not_not.mp hhash, rfl⟩
  · rename_i hrow
    cases h
    exact Or.inr ⟨hrow, rfl⟩

/-- Stored embeddings stay as they are. -/
theorem EmbeddingTable.put_keeps {table table' : EmbeddingTable} {embedding row : Embedding}
    {key : EmbeddingKey} (h : table.put embedding = .ok table') (hrow : table key = some row) :
    table' key = some row := by
  rcases put_eq_ok h with ⟨existing, -, -, rfl⟩ | ⟨hnone, rfl⟩
  · exact hrow
  · have hne : key ≠ embedding.key := by
      rintro rfl
      rw [hnone] at hrow
      cases hrow
    rw [Function.update_of_ne hne]
    exact hrow

/-! ### The search index -/

structure SearchRow where
  contextId : String
  rawText : String
  isActive : Bool
deriving DecidableEq

/-- `fact_search_index`, by fact id. -/
abbrev SearchTable := String → Option SearchRow

/-- `PostgresSearchIndexStore.put`: a conflicting row keeps its context. -/
def SearchTable.put (table : SearchTable) (contextId factId rawText : String) : SearchTable :=
  Function.update table factId (some (match table factId with
    | some existing => { existing with rawText, isActive := true }
    | none => ⟨contextId, rawText, true⟩))

theorem SearchTable.put_self (table : SearchTable) (contextId factId rawText : String) :
    ∃ row, table.put contextId factId rawText factId = some row ∧ row.rawText = rawText ∧
      row.isActive = true ∧ row.contextId = ((table factId).map SearchRow.contextId).getD contextId := by
  refine ⟨_, Function.update_self _ _ _, ?_⟩
  cases table factId with
  | none => exact ⟨rfl, rfl, rfl⟩
  | some existing => exact ⟨rfl, rfl, rfl⟩

theorem SearchTable.put_of_ne (table : SearchTable) (contextId rawText : String)
    {factId other : String} (h : other ≠ factId) :
    table.put contextId factId rawText other = table other :=
  Function.update_of_ne h _ _

end ContextMemory
