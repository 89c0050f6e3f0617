/-
One Postgres database under all contexts: what the operations of the chunk, graph-id,
manifest, embedding and search-index stores do to it, whoever issues them
(`persistence/postgres.py`, `db/migrations`).

Each operation is one transaction. A constraint that does not hold raises and leaves the
database as it was.
-/

import ContextMemory.Lib.Ordered
import ContextMemory.Persistence.Manifest
import ContextMemory.Persistence.Tables

namespace ContextMemory

/-! ### Graph ids -/

/-- The unique key of `graph_id_registry`. -/
structure RegistryKey where
  nodeKind : String
  contextId : String
  logicalKey : String
deriving DecidableEq

/-- `graph_id_registry`, in the order of its rows, with its identity sequence. -/
structure GraphIdRegistry where
  rows : List (RegistryKey × Nat)
  next : Nat
  keys_nodup : (rows.map Prod.fst).Nodup
  ids_nodup : (rows.map Prod.snd).Nodup
  below : ∀ row ∈ rows, row.2 < next

namespace GraphIdRegistry

def empty : GraphIdRegistry := ⟨[], 1, List.nodup_nil, List.nodup_nil, by simp⟩

/-- The sequence moves on; a conflicting `INSERT` has drawn from it as well. -/
def draw (r : GraphIdRegistry) : GraphIdRegistry where
  rows := r.rows
  next := r.next + 1
  keys_nodup := r.keys_nodup
  ids_nodup := r.ids_nodup
  below row hrow := Nat.lt_succ_of_lt (r.below row hrow)

/-- A new key gets the next id. -/
def insert (r : GraphIdRegistry) (key : RegistryKey) (hkey : key ∉ r.rows.map Prod.fst) :
    GraphIdRegistry where
  rows := r.rows ++ [(key, r.next)]
  next := r.next + 1
  keys_nodup := by
    rw [List.map_append]
    apply r.keys_nodup.append (List.nodup_singleton _)
    intro k hk hlast
    rw [List.mem_singleton] at hlast
    obtain rfl : k = key := hlast
    exact hkey hk
  ids_nodup := by
    rw [List.map_append]
    apply r.ids_nodup.append (List.nodup_singleton _)
    intro id hid hlast
    rw [List.mem_singleton] at hlast
    obtain ⟨row, hrow, rfl⟩ := List.mem_map.mp hid
    have hlt := r.below row hrow
    omega
  below := by
    intro row hrow
    rcases List.mem_append.mp hrow with hrow | hrow
    · exact Nat.lt_succ_of_lt (r.below row hrow)
    · rw [List.mem_singleton.mp hrow]
      exact Nat.lt_succ_self _

/-- `allocate_graph_id`. -/
def allocateGraphId (r : GraphIdRegistry) (key : RegistryKey) : Nat × GraphIdRegistry :=
  match h : Ordered.find Prod.fst key r.rows with
  | some row => (row.2, r.draw)
  | none => (r.next, r.insert key (Ordered.find_eq_none.mp h))

/-- What an allocation does to the rows: nothing to a key that has one. -/
theorem rows_allocateGraphId (r : GraphIdRegistry) (key : RegistryKey) :
    (r.allocateGraphId key).2.rows =
      if key ∈ r.rows.map Prod.fst then r.rows else r.rows ++ [(key, r.next)] := by
  unfold allocateGraphId
  split
  · rename_i row h
    have hmem : key ∈ r.rows.map Prod.fst := by
      obtain ⟨hrow, rfl⟩ := Ordered.find_eq_some h
      exact List.mem_map_of_mem hrow
    rw [if_pos hmem]
    rfl
  · rename_i h
    rw [if_neg (Ordered.find_eq_none.mp h)]
    rfl

/-- The answer is the id in the row of the key. -/
theorem allocateGraphId_mem (r : GraphIdRegistry) (key : RegistryKey) :
    (key, (r.allocateGraphId key).1) ∈ (r.allocateGraphId key).2.rows := by
  unfold allocateGraphId
  split
  · rename_i row h
    obtain ⟨hrow, rfl⟩ := Ordered.find_eq_some h
    exact hrow
  · exact List.mem_append_right _ (List.mem_singleton_self _)

theorem mem_allocateGraphId {r : GraphIdRegistry} {row : RegistryKey × Nat}
    (h : row ∈ r.rows) (key : RegistryKey) : row ∈ (r.allocateGraphId key).2.rows := by
  rw [r.rows_allocateGraphId key]
  split
  · exact h
  · exact List.mem_append_left _ h

end GraphIdRegistry

/-! ### The database -/

structure Database where
  chunks : ChunkTable := fun _ => none
  jobs : JobTable := fun _ => none
  registry : GraphIdRegistry := .empty
  manifest : Manifest := .empty
  embeddings : EmbeddingTable := fun _ => none
  searchIndex : SearchTable := fun _ => none

/-- `PostgresEmbeddingStore.put`, under the reference of a row to its evidence chunk. -/
def Database.putEmbedding (db : Database) (embedding : Embedding) : Except Exn EmbeddingTable :=
  if db.embeddings embedding.key = none ∧ db.chunks embedding.sourceChunkId = none then
    .error (.provider "insert violates foreign key constraint on source_chunk_id")
  else db.embeddings.put embedding

/-- `PostgresEmbeddingStore.deactivate`. -/
def EmbeddingTable.deactivate (table : EmbeddingTable) (contextId : String) (kind : SubjectKind)
    (subjectId : String) : EmbeddingTable := fun key =>
  (table key).map fun row =>
    if key.contextId = contextId ∧ key.subjectKind = kind ∧ key.subjectId = subjectId then
      { row with isActive := false }
    else row

/-- An operation of one of the five stores. -/
inductive StoreOp where
  | putChunk (chunk : Chunk)
  | allocateGraphId (key : RegistryKey)
  | register (plan : GraphWritePlan)
  | putEmbedding (embedding : Embedding)
  | deactivate (contextId : String) (kind : SubjectKind) (subjectId : String)
  | putSearch (contextId factId rawText : String)

/-- The context an operation is issued for. -/
def StoreOp.contextId : StoreOp → String
  | .putChunk chunk => chunk.contextId
  | .allocateGraphId key => key.contextId
  | .register plan => plan.contextId
  | .putEmbedding embedding => embedding.key.contextId
  | .deactivate contextId _ _ => contextId
  | .putSearch contextId _ _ => contextId

namespace Database

/-- One operation. -/
def exec (db : Database) : StoreOp → Except Exn Database
  | .putChunk chunk => (db.chunks.put db.jobs chunk).map fun out =>
      { db with chunks := out.1, jobs := out.2 }
  | .allocateGraphId key => .ok { db with registry := (db.registry.allocateGraphId key).2 }
  | .register plan => (db.manifest.register plan).map fun manifest => { db with manifest }
  | .putEmbedding embedding => (db.putEmbedding embedding).map fun embeddings =>
      { db with embeddings }
  | .deactivate contextId kind subjectId =>
      .ok { db with embeddings := db.embeddings.deactivate contextId kind subjectId }
  | .putSearch contextId factId rawText =>
      .ok { db with searchIndex := db.searchIndex.put contextId factId rawText }

/-- The database after an operation, whether it raised or not. -/
def step (db : Database) (op : StoreOp) : Database :=
  match db.exec op with
  | .ok db' => db'
  | .error _ => db

def run (db : Database) (ops : List StoreOp) : Database := ops.foldl step db

/-- What holds and is kept by every operation of a list holds at the end. -/
theorem run_invariant {P : Database → Prop} {ops : List StoreOp} {db : Database} (h : P db)
    (hstep : ∀ db op, op ∈ ops → P db → P (db.step op)) : P (db.run ops) := by
  induction ops generalizing db with
  | nil => exact h
  | cons op rest ih =>
      apply ih (hstep db op List.mem_cons_self h)
      intro db op hop
      exact hstep db op (List.mem_cons_of_mem _ hop)

end Database

/-! ### One operation -/

section Steps

variable {db : Database}

theorem step_putChunk_of_some {chunk existing : Chunk} (h : db.chunks chunk.chunkId = some existing) :
    db.step (.putChunk chunk) = db := by
  simp only [Database.step, Database.exec]
  cases hput : db.chunks.put db.jobs chunk with
  | error e => rfl
  | ok out =>
      obtain ⟨chunks, jobs⟩ := out
      rcases ChunkTable.put_eq_ok hput with ⟨_, -, -, rfl, rfl⟩ | ⟨hnone, -⟩
      · rfl
      · rw [hnone] at h
        cases h

theorem step_putChunk_of_none {chunk : Chunk} (h : db.chunks chunk.chunkId = none)
    (hjob : db.jobs chunk.chunkId = none) : db.step (.putChunk chunk) =
      { db with
        chunks := Function.update db.chunks chunk.chunkId (some chunk)
        jobs := Function.update db.jobs chunk.chunkId
          (some (pendingJob chunk.chunkId chunk.contextId)) } := by
  simp [Database.step, Database.exec, ChunkTable.put, ChunkTable.get, h, hjob, Except.map]

theorem step_putEmbedding_of_some {embedding existing : Embedding}
    (h : db.embeddings embedding.key = some existing) : db.step (.putEmbedding embedding) = db := by
  simp only [Database.step, Database.exec, Database.putEmbedding, h, reduceCtorEq, false_and,
    if_false]
  cases hput : db.embeddings.put embedding with
  | error e => rfl
  | ok table =>
      rcases EmbeddingTable.put_eq_ok hput with ⟨_, -, -, rfl⟩ | ⟨hnone, -⟩
      · rfl
      · rw [hnone] at h
        cases h

theorem step_putEmbedding_of_none {embedding : Embedding} (h : db.embeddings embedding.key = none) :
    db.step (.putEmbedding embedding) = if db.chunks embedding.sourceChunkId = none then db
      else { db with embeddings := Function.update db.embeddings embedding.key (some embedding) } := by
  simp only [Database.step, Database.exec, Database.putEmbedding, h, true_and]
  by_cases hmissing : db.chunks embedding.sourceChunkId = none
  · simp [hmissing, Except.map]
  · simp [hmissing, EmbeddingTable.put, h, Except.map]

end Steps

/-- Only `putSearch` touches the search index. -/
theorem searchIndex_step (db : Database) (op : StoreOp) :
    (db.step op).searchIndex = db.searchIndex ∨ ∃ contextId factId rawText,
      op = .putSearch contextId factId rawText ∧
        (db.step op).searchIndex = db.searchIndex.put contextId factId rawText := by
  cases op with
  | putChunk chunk =>
      simp only [Database.step, Database.exec]
      cases db.chunks.put db.jobs chunk <;> exact Or.inl rfl
  | register plan =>
      simp only [Database.step, Database.exec]
      cases db.manifest.register plan <;> exact Or.inl rfl
  | putEmbedding embedding =>
      simp only [Database.step, Database.exec]
      cases db.putEmbedding embedding <;> exact Or.inl rfl
  | allocateGraphId key => exact Or.inl rfl
  | deactivate contextId kind subjectId => exact Or.inl rfl
  | putSearch contextId factId rawText => exact Or.inr ⟨contextId, factId, rawText, rfl, rfl⟩

theorem Database.run_append (db : Database) (earlier later : List StoreOp) :
    db.run (earlier ++ later) = (db.run earlier).run later :=
  List.foldl_append

/-- The keys a list of operations asks graph ids for. -/
def allocations (ops : List StoreOp) : List RegistryKey :=
  ops.filterMap fun op => match op with
    | .allocateGraphId key => some key
    | _ => none

/-- The registry depends on nothing but these. -/
theorem registry_run (db : Database) (ops : List StoreOp) : (db.run ops).registry =
    (allocations ops).foldl (fun r key => (r.allocateGraphId key).2) db.registry := by
  induction ops generalizing db with
  | nil => rfl
  | cons op rest ih =>
      show ((db.step op).run rest).registry = _
      rw [ih]
      cases op with
      | allocateGraphId key => rfl
      | putChunk chunk =>
          simp only [Database.step, Database.exec]
          cases db.chunks.put db.jobs chunk <;> rfl
      | register plan =>
          simp only [Database.step, Database.exec]
          cases db.manifest.register plan <;> rfl
      | putEmbedding embedding =>
          simp only [Database.step, Database.exec]
          cases db.putEmbedding embedding <;> rfl
      | deactivate contextId kind subjectId => rfl
      | putSearch contextId factId rawText => rfl

/-! ### What stays -/

/-- No row is ever deleted, or given to another context. -/
structure Database.Keeps (db db' : Database) : Prop where
  chunks : ∀ {id chunk}, db.chunks id = some chunk → db'.chunks id = some chunk
  keys : ∀ {key}, key ∈ db.registry.rows.map Prod.fst → key ∈ db'.registry.rows.map Prod.fst
  rows : ∀ {key row}, db.manifest.rows key = some row →
    ∃ row', db'.manifest.rows key = some row' ∧ row'.graphId = row.graphId
  embeddings : ∀ {key row}, db.embeddings key = some row → ∃ row', db'.embeddings key = some row' ∧
    row'.embeddedContentHash = row.embeddedContentHash
  searchIndex : ∀ {factId row}, db.searchIndex factId = some row →
    ∃ row', db'.searchIndex factId = some row' ∧ row'.contextId = row.contextId

theorem Database.Keeps.refl (db : Database) : db.Keeps db where
  chunks h := h
  keys h := h
  rows h := ⟨_, h, rfl⟩
  embeddings h := ⟨_, h, rfl⟩
  searchIndex h := ⟨_, h, rfl⟩

theorem Database.Keeps.trans {db₁ db₂ db₃ : Database} (h : db₁.Keeps db₂) (h' : db₂.Keeps db₃) :
    db₁.Keeps db₃ where
  chunks hrow := h'.chunks (h.chunks hrow)
  keys hkey := h'.keys (h.keys hkey)
  rows hrow := by
    obtain ⟨row', hrow', hid⟩ := h.rows hrow
    obtain ⟨row'', hrow'', hid'⟩ := h'.rows hrow'
    exact ⟨row'', hrow'', hid'.trans hid⟩
  embeddings hrow := by
    obtain ⟨row', hrow', hhash⟩ := h.embeddings hrow
    obtain ⟨row'', hrow'', hhash'⟩ := h'.embeddings hrow'
    exact ⟨row'', hrow'', hhash'.trans hhash⟩
  searchIndex hrow := by
    obtain ⟨row', hrow', hctx⟩ := h.searchIndex hrow
    obtain ⟨row'', hrow'', hctx'⟩ := h'.searchIndex hrow'
    exact ⟨row'', hrow'', hctx'.trans hctx⟩

theorem Database.step_keeps (db : Database) (op : StoreOp) : db.Keeps (db.step op) := by
  have hrefl := Database.Keeps.refl db
  cases op with
  | putChunk chunk =>
      simp only [Database.step, Database.exec]
      cases hput : db.chunks.put db.jobs chunk with
      | error e => exact hrefl
      | ok out =>
          obtain ⟨chunks, jobs⟩ := out
          refine ⟨?_, hrefl.keys, hrefl.rows, hrefl.embeddings, hrefl.searchIndex⟩
          intro id stored hstored
          rcases ChunkTable.put_eq_ok hput with ⟨_, -, -, rfl, rfl⟩ | ⟨hnone, -, rfl, rfl⟩
          · exact hstored
          · have hne : id ≠ chunk.chunkId := by
              rintro rfl
              rw [hnone] at hstored
              cases hstored
            exact (Function.update_of_ne hne _ _).trans hstored
  | allocateGraphId key =>
      refine ⟨hrefl.chunks, ?_, hrefl.rows, hrefl.embeddings, hrefl.searchIndex⟩
      intro k hk
      obtain ⟨row, hrow, rfl⟩ := List.mem_map.mp hk
      exact List.mem_map_of_mem (GraphIdRegistry.mem_allocateGraphId hrow key)
  | register plan =>
      simp only [Database.step, Database.exec]
      cases hregister : db.manifest.register plan with
      | error e => exact hrefl
      | ok m =>
          refine ⟨hrefl.chunks, hrefl.keys, ?_, hrefl.embeddings, hrefl.searchIndex⟩
          intro key row hrow
          exact Manifest.registerRecords_kept hregister hrow
  | putEmbedding embedding =>
      cases hfound : db.embeddings embedding.key with
      | some existing =>
          rw [step_putEmbedding_of_some hfound]
          exact hrefl
      | none =>
          rw [step_putEmbedding_of_none hfound]
          split
          · exact hrefl
          · refine ⟨hrefl.chunks, hrefl.keys, hrefl.rows, ?_, hrefl.searchIndex⟩
            intro key row hrow
            have hne : key ≠ embedding.key := by
              rintro rfl
              rw [hfound] at hrow
              cases hrow
            exact ⟨row, (Function.update_of_ne hne _ _).trans hrow, rfl⟩
  | deactivate contextId kind subjectId =>
      refine ⟨hrefl.chunks, hrefl.keys, hrefl.rows, ?_, hrefl.searchIndex⟩
      intro key row hrow
      have hrow' : (db.step (.deactivate contextId kind subjectId)).embeddings key =
          (some row).map _ := congrArg (Option.map _) hrow
      refine ⟨_, hrow', ?_⟩
      dsimp only
      split <;> rfl
  | putSearch contextId factId rawText =>
      refine ⟨hrefl.chunks, hrefl.keys, hrefl.rows, hrefl.embeddings, ?_⟩
      intro id row hrow
      by_cases hid : id = factId
      · subst hid
        refine ⟨{ row with rawText, isActive := true }, ?_, rfl⟩
        simp only [Database.step, Database.exec, SearchTable.put, Function.update_self, hrow]
      · exact ⟨row, (db.searchIndex.put_of_ne contextId rawText hid).trans hrow, rfl⟩

theorem Database.run_keeps (db : Database) (ops : List StoreOp) : db.Keeps (db.run ops) := by
  induction ops generalizing db with
  | nil => exact Database.Keeps.refl db
  | cons op rest ih => exact (db.step_keeps op).trans (ih (db.step op))

end ContextMemory
