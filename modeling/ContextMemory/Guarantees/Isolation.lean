/-
Contexts that share one database.

Chunks, graph ids, manifest rows and embeddings are found by keys that name their context, so
the operations of another context change nothing that can be read under it; only the graph
ids it gets from the common sequence are others. A search row is found by the fact id alone:
two contexts are isolated exactly if no fact id is indexed for both (`isolated_iff`).

The proof is a simulation between the run and the run of one context alone, whose plans
carry the ids it would have got (`Alike`).
-/

import ContextMemory.Persistence.Renaming
import ContextMemory.Persistence.Database
import ContextMemory.Ingestion.Fixture

namespace ContextMemory

/-! ### Two runs -/

/-- An operation with other ids in its plan. -/
def StoreOp.rename (σ : Equiv.Perm Nat) : StoreOp → StoreOp
  | .register plan => .register (plan.rename σ)
  | op => op

@[simp] theorem StoreOp.contextId_rename (σ : Equiv.Perm Nat) (op : StoreOp) :
    (op.rename σ).contextId = op.contextId := by
  cases op <;> rfl


/-- The chunk that an operation names. -/
def StoreOp.chunkId? : StoreOp → Option String
  | .putChunk chunk => some chunk.chunkId
  | .putEmbedding embedding => some embedding.sourceChunkId
  | _ => none

/-- What the callers of the stores promise of an operation: a chunk has the id of its record, an
embedding refers to a chunk of its context, and the ids of a plan were allocated for its
context. -/
def StoreOp.Issued (sha256 : String → String) (db : Database) : StoreOp → Prop
  | .putChunk chunk => chunk.chunkId = chunkIdFor sha256 chunk.contextId chunk.sourceRecordId
  | .register plan => ∀ r ∈ plan.records, ∃ key, (key, r.graphId) ∈ db.registry.rows ∧
      key.contextId = plan.contextId
  | .putEmbedding embedding => ∃ recordId,
      embedding.sourceChunkId = chunkIdFor sha256 embedding.key.contextId recordId
  | _ => True

/-- Every operation of a list is issued in the database it meets. -/
def Database.Issues (sha256 : String → String) : Database → List StoreOp → Prop
  | _, [] => True
  | db, op :: rest => op.Issued sha256 db ∧ Issues sha256 (db.step op) rest

/-- One context in a common database and alone in one of its own. -/
structure Alike (σ : Equiv.Perm Nat) (contextId : String) (db db' : Database) : Prop where
  chunks : ∀ id, db'.chunks id = db.chunks.get contextId id
  jobs : ∀ id, db'.jobs id = (db.jobs id).filter fun job => job.contextId = contextId
  registry : db'.registry.rows.map Prod.fst =
    (db.registry.rows.map Prod.fst).filter fun key => key.contextId = contextId
  manifest : db.manifest.Alike σ contextId db'.manifest
  embeddings : ∀ key, db'.embeddings key =
    if key.contextId = contextId then db.embeddings key else none
  searchIndex : ∀ factId, db'.searchIndex factId =
    (db.searchIndex factId).filter fun row => row.contextId = contextId

theorem alike_empty (σ : Equiv.Perm Nat) (contextId : String) : Alike σ contextId {} {} where
  chunks _ := rfl
  jobs _ := rfl
  registry := rfl
  manifest := ⟨fun _ _ => rfl, fun _ _ => rfl⟩
  embeddings key := by split <;> rfl
  searchIndex _ := rfl

/-- What a database of two contexts is like, after operations as they are issued: `named` says
which chunk ids were named for which context, `indexed` which fact ids were indexed. -/
structure Shared (A B : String) (named indexed : String → String → Prop) (db : Database) : Prop where
  chunk : ∀ {id chunk}, db.chunks id = some chunk →
    (chunk.contextId = A ∨ chunk.contextId = B) ∧ named chunk.contextId id
  job : ∀ {id job}, db.jobs id = some job →
    ∃ chunk, db.chunks id = some chunk ∧ chunk.contextId = job.contextId
  row : ∀ {key row}, db.manifest.rows key = some row →
    ∃ k, (k, row.graphId) ∈ db.registry.rows ∧ k.contextId = key.contextId
  search : ∀ {factId row}, db.searchIndex factId = some row → indexed row.contextId factId

/-- A put indexes its fact for its context, or leaves the fact to the context it
had. -/
theorem SearchTable.put_indexed {indexed : String → String → Prop} {table : SearchTable}
    (h : ∀ factId row, table factId = some row → indexed row.contextId factId)
    {contextId factId rawText : String} (hput : indexed contextId factId) :
    ∀ id row, table.put contextId factId rawText id = some row → indexed row.contextId id := by
  intro id row hrow
  by_cases hid : id = factId
  · subst hid
    rw [SearchTable.put, Function.update_self, Option.some.injEq] at hrow
    cases hold : table id with
    | none =>
        rw [hold] at hrow
        rw [← hrow]
        exact hput
    | some existing =>
        rw [hold] at hrow
        rw [← hrow]
        exact h id existing hold
  · rw [SearchTable.put_of_ne _ _ _ hid] at hrow
    exact h id row hrow

section Steps

variable {sha256 : String → String} {A B : String} {named indexed : String → String → Prop}
  {db db' : Database} {op : StoreOp}

theorem Shared.step (h : Shared A B named indexed db) (hissued : op.Issued sha256 db)
    (hctx : op.contextId = A ∨ op.contextId = B) (hnamed : ∀ id ∈ op.chunkId?, named op.contextId id)
    (hindexed : ∀ contextId factId text, op = .putSearch contextId factId text →
      indexed contextId factId) : Shared A B named indexed (db.step op) := by
  cases op with
  | putChunk chunk =>
      simp only [Database.step, Database.exec]
      cases hput : db.chunks.put db.jobs chunk with
      | error e => exact h
      | ok out =>
          obtain ⟨chunks, jobs⟩ := out
          rcases ChunkTable.put_eq_ok hput with ⟨_, -, -, rfl, rfl⟩ | ⟨hnone, -, rfl, rfl⟩
          · exact h
          · refine ⟨?_, ?_, h.row, h.search⟩
            · intro id stored hstored
              by_cases hid : id = chunk.chunkId
              · subst hid
                simp only [Except.map, Function.update_self, Option.some.injEq] at hstored
                subst hstored
                exact ⟨hctx, hnamed chunk.chunkId rfl⟩
              · simp only [Except.map, Function.update_of_ne hid] at hstored
                exact h.chunk hstored
            · intro id job hjob
              by_cases hid : id = chunk.chunkId
              · subst hid
                simp only [Except.map, Function.update_self, Option.some.injEq] at hjob
                subst hjob
                exact ⟨chunk, Function.update_self _ _ _, rfl⟩
              · simp only [Except.map, Function.update_of_ne hid] at hjob
                obtain ⟨stored, hstored, hsame⟩ := h.job hjob
                exact ⟨stored, (Function.update_of_ne hid _ _).trans hstored, hsame⟩
  | allocateGraphId key =>
      refine ⟨h.chunk, h.job, ?_, h.search⟩
      intro k row hrow
      obtain ⟨owner, howner, hsame⟩ := h.row hrow
      exact ⟨owner, GraphIdRegistry.mem_allocateGraphId howner key, hsame⟩
  | register plan =>
      simp only [Database.step, Database.exec]
      cases hregister : db.manifest.register plan with
      | error e => exact h
      | ok m =>
          refine ⟨h.chunk, h.job, ?_, h.search⟩
          intro key row hrow
          rcases Manifest.registerRecords_row hregister hrow with hold | ⟨r, hr, rfl, hid⟩
          · exact h.row hold
          · rw [hid]
            exact hissued r hr
  | putEmbedding embedding =>
      simp only [Database.step, Database.exec]
      cases db.putEmbedding embedding with
      | error e => exact h
      | ok embeddings => exact ⟨h.chunk, h.job, h.row, h.search⟩
  | deactivate contextId kind subjectId => exact ⟨h.chunk, h.job, h.row, h.search⟩
  | putSearch contextId factId rawText =>
      refine ⟨h.chunk, h.job, h.row, ?_⟩
      intro id row hrow
      exact SearchTable.put_indexed (fun _ _ hrow => h.search hrow)
        (hindexed contextId factId rawText rfl) id row hrow

/-- A chunk under an id that the first context named belongs to it. -/
theorem Shared.own_chunk (h : Shared A B named indexed db)
    (hdisjoint : ∀ id, named A id → ¬named B id) {id : String} (hmine : named A id) {chunk : Chunk}
    (hrow : db.chunks id = some chunk) : chunk.contextId = A := by
  obtain ⟨hctx | hctx, hnamed⟩ := h.chunk hrow
  · exact hctx
  · rw [hctx] at hnamed
    exact absurd hnamed (hdisjoint id hmine)

theorem Shared.job_none (h : Shared A B named indexed db) {id : String}
    (hrow : db.chunks id = none) : db.jobs id = none := by
  by_contra hsome
  obtain ⟨job, hjob⟩ := Option.ne_none_iff_exists'.mp hsome
  obtain ⟨stored, hstored, -⟩ := h.job hjob
  rw [hrow] at hstored
  cases hstored

/-- An id that was allocated for a context owns no row of another. -/
theorem Shared.own_row (h : Shared A B named indexed db) {key : RegistryKey} {id : Nat}
    (hid : (key, id) ∈ db.registry.rows) {k : ManifestKey} (howner : db.manifest.owner id = some k) :
    k.contextId = key.contextId := by
  obtain ⟨row, hrow, rfl⟩ := db.manifest.owner_iff.mp howner
  obtain ⟨key', hkey', hsame⟩ := h.row hrow
  have heq : key' = key :=
    congrArg Prod.fst (List.inj_on_of_nodup_map db.registry.ids_nodup hkey' hid rfl)
  rw [← hsame, heq]

/-- **Its own operation** does the same to a context in both databases. -/
theorem Alike.own_step {σ : Equiv.Perm Nat} (h : Alike σ A db db')
    (hs : Shared A B named indexed db) (hissued : op.Issued sha256 db) (hctx : op.contextId = A)
    (hdisjoint : ∀ id, named A id → ¬named B id) (hnamed : ∀ id ∈ op.chunkId?, named op.contextId id)
    (hfacts : ∀ factId contextId, indexed A factId → indexed contextId factId → contextId = A)
    (hindexed : ∀ contextId factId text, op = .putSearch contextId factId text →
      indexed contextId factId) : Alike σ A (db.step op) (db'.step (op.rename σ)) := by
  cases op with
  | putChunk chunk =>
      have hmine : chunk.contextId = A := hctx
      have hid : named A chunk.chunkId := hctx ▸ hnamed chunk.chunkId rfl
      show Alike σ A (db.step (.putChunk chunk)) (db'.step (.putChunk chunk))
      cases hrow : db.chunks chunk.chunkId with
      | some existing =>
          have hown : existing.contextId = A := hs.own_chunk hdisjoint hid hrow
          have hrow' : db'.chunks chunk.chunkId = some existing := by
            rw [h.chunks, ChunkTable.get, hrow, Option.filter_some, if_pos (by simpa using hown)]
          rw [step_putChunk_of_some hrow, step_putChunk_of_some hrow']
          exact h
      | none =>
          have hjob : db.jobs chunk.chunkId = none := hs.job_none hrow
          have hrow' : db'.chunks chunk.chunkId = none := by rw [h.chunks, ChunkTable.get, hrow]; rfl
          have hjob' : db'.jobs chunk.chunkId = none := by rw [h.jobs, hjob]; rfl
          rw [step_putChunk_of_none hrow hjob, step_putChunk_of_none hrow' hjob']
          refine ⟨?_, ?_, h.registry, h.manifest, h.embeddings, h.searchIndex⟩
          · intro id
            by_cases hsame : id = chunk.chunkId
            · subst hsame
              simp only [ChunkTable.get, Function.update_self, Option.filter_some]
              rw [if_pos (by simpa using hmine)]
            · simp only [ChunkTable.get, Function.update_of_ne hsame]
              exact h.chunks id
          · intro id
            by_cases hsame : id = chunk.chunkId
            · subst hsame
              simp [Option.filter_some, pendingJob, hmine]
            · simp only [Function.update_of_ne hsame]
              exact h.jobs id
  | allocateGraphId key =>
      refine ⟨h.chunks, h.jobs, ?_, h.manifest, h.embeddings, h.searchIndex⟩
      have hkey : key.contextId = A := hctx
      show ((db'.registry.allocateGraphId key).2.rows).map Prod.fst =
        (((db.registry.allocateGraphId key).2.rows).map Prod.fst).filter _
      have hmem : key ∈ db'.registry.rows.map Prod.fst ↔ key ∈ db.registry.rows.map Prod.fst := by
        rw [h.registry, List.mem_filter]
        simp [hkey]
      rw [GraphIdRegistry.rows_allocateGraphId, GraphIdRegistry.rows_allocateGraphId]
      by_cases hknown : key ∈ db.registry.rows.map Prod.fst
      · rw [if_pos hknown, if_pos (hmem.mpr hknown)]
        exact h.registry
      · rw [if_neg hknown, if_neg (mt hmem.mp hknown), List.map_append, List.map_append,
          List.filter_append, h.registry]
        simp [hkey]
  | register plan =>
      have hplan : plan.contextId = A := hctx
      have hown : ∀ r ∈ plan.records, ∀ key, db.manifest.owner r.graphId = some key →
          key.contextId = A := by
        intro r hr key hkey
        obtain ⟨owner, howner, hsame⟩ := hissued r hr
        rw [hs.own_row howner hkey, hsame, hplan]
      obtain ⟨herror, hok⟩ := h.manifest.registerRecords hown
      have hrecords := plan.records_rename σ
      simp only [StoreOp.rename, Database.step, Database.exec, Manifest.register, hrecords]
      rw [show (plan.rename σ).contextId = A from hplan, hplan]
      cases hregister : Manifest.registerRecords A db.manifest plan.records with
      | error e =>
          rw [herror e hregister]
          exact h
      | ok m =>
          obtain ⟨m', hregister', halike⟩ := hok m hregister
          rw [hregister']
          exact ⟨h.chunks, h.jobs, h.registry, halike, h.embeddings, h.searchIndex⟩
  | putEmbedding embedding =>
      have hkey : embedding.key.contextId = A := hctx
      have hrow' := h.embeddings embedding.key
      rw [if_pos hkey] at hrow'
      show Alike σ A (db.step (.putEmbedding embedding)) (db'.step (.putEmbedding embedding))
      cases hrow : db.embeddings embedding.key with
      | some existing =>
          rw [step_putEmbedding_of_some hrow, step_putEmbedding_of_some (hrow'.trans hrow)]
          exact h
      | none =>
          have hfound : db'.chunks embedding.sourceChunkId = none ↔
              db.chunks embedding.sourceChunkId = none := by
            have hid : named A embedding.sourceChunkId := hctx ▸ hnamed embedding.sourceChunkId rfl
            rw [h.chunks, ChunkTable.get]
            cases hchunkRow : db.chunks embedding.sourceChunkId with
            | none => simp
            | some chunk =>
                have hmine := hs.own_chunk hdisjoint hid hchunkRow
                simp [hmine]
          rw [step_putEmbedding_of_none hrow, step_putEmbedding_of_none (hrow'.trans hrow)]
          by_cases hmissing : db.chunks embedding.sourceChunkId = none
          · rw [if_pos hmissing, if_pos (hfound.mpr hmissing)]
            exact h
          · rw [if_neg hmissing, if_neg (mt hfound.mp hmissing)]
            refine ⟨h.chunks, h.jobs, h.registry, h.manifest, ?_, h.searchIndex⟩
            intro key
            by_cases hsame : key = embedding.key
            · subst hsame
              simp only [Function.update_self, if_pos hkey]
            · simp only [Function.update_of_ne hsame]
              exact h.embeddings key
  | deactivate contextId kind subjectId =>
      refine ⟨h.chunks, h.jobs, h.registry, h.manifest, ?_, h.searchIndex⟩
      intro key
      show EmbeddingTable.deactivate db'.embeddings contextId kind subjectId key = if _ then
        EmbeddingTable.deactivate db.embeddings contextId kind subjectId key else none
      simp only [EmbeddingTable.deactivate, h.embeddings key]
      by_cases hkey : key.contextId = A
      · rw [if_pos hkey, if_pos hkey]
      · rw [if_neg hkey, if_neg hkey]
        rfl
  | putSearch contextId factId rawText =>
      obtain rfl : contextId = A := hctx
      refine ⟨h.chunks, h.jobs, h.registry, h.manifest, h.embeddings, ?_⟩
      intro id
      show db'.searchIndex.put contextId factId rawText id =
        (db.searchIndex.put contextId factId rawText id).filter _
      by_cases hid : id = factId
      · subst hid
        have hmine : ∀ row, db.searchIndex id = some row → row.contextId = contextId :=
          fun row hrow => hfacts id _ (hindexed contextId id rawText rfl) (hs.search hrow)
        have hrow' : db'.searchIndex id = db.searchIndex id := by
          rw [h.searchIndex id]
          cases hrow : db.searchIndex id with
          | none => rfl
          | some row => simp [hmine row hrow]
        simp only [SearchTable.put, Function.update_self, hrow']
        cases hrow : db.searchIndex id with
        | none => simp [Option.filter_some]
        | some row => simp [Option.filter_some, hmine row hrow]
      · rw [SearchTable.put_of_ne _ _ _ hid, SearchTable.put_of_ne _ _ _ hid]
        exact h.searchIndex id

/-- **An operation of the other context** does nothing to it. -/
theorem Alike.other_step {σ : Equiv.Perm Nat} (h : Alike σ A db db')
    (hs : Shared A B named indexed db) (hctx : op.contextId ≠ A)
    (hfacts : ∀ factId contextId, indexed A factId → indexed contextId factId → contextId = A)
    (hindexed : ∀ contextId factId text, op = .putSearch contextId factId text →
      indexed contextId factId) : Alike σ A (db.step op) db' := by
  cases op with
  | putChunk chunk =>
      have hother : chunk.contextId ≠ A := hctx
      cases hrow : db.chunks chunk.chunkId with
      | some existing =>
          rw [step_putChunk_of_some hrow]
          exact h
      | none =>
          have hjob : db.jobs chunk.chunkId = none := hs.job_none hrow
          rw [step_putChunk_of_none hrow hjob]
          refine ⟨?_, ?_, h.registry, h.manifest, h.embeddings, h.searchIndex⟩
          · intro id
            rw [h.chunks id]
            by_cases hsame : id = chunk.chunkId
            · subst hsame
              simp [ChunkTable.get, hrow, hother, Option.filter_some]
            · simp only [ChunkTable.get, Function.update_of_ne hsame]
          · intro id
            rw [h.jobs id]
            by_cases hsame : id = chunk.chunkId
            · subst hsame
              simp [hjob, pendingJob, hother, Option.filter_some]
            · simp only [Function.update_of_ne hsame]
  | allocateGraphId key =>
      have hother : key.contextId ≠ A := hctx
      refine ⟨h.chunks, h.jobs, ?_, h.manifest, h.embeddings, h.searchIndex⟩
      show _ = (((db.registry.allocateGraphId key).2.rows).map Prod.fst).filter _
      rw [GraphIdRegistry.rows_allocateGraphId, h.registry]
      split
      · rfl
      · rw [List.map_append, List.filter_append]
        simp [hother]
  | register plan =>
      have hother : plan.contextId ≠ A := hctx
      simp only [Database.step, Database.exec]
      cases hregister : db.manifest.register plan with
      | error e => exact h
      | ok m =>
          refine ⟨h.chunks, h.jobs, h.registry, ⟨?_, h.manifest.other⟩, h.embeddings, h.searchIndex⟩
          intro key hkey
          rw [h.manifest.own key hkey]
          have hne : key.contextId ≠ plan.contextId := by
            rw [hkey]
            exact hother.symm
          show _ = (m.rows key).map _
          rw [Manifest.registerRecords_frame hregister hne]
  | putEmbedding embedding =>
      have hother : embedding.key.contextId ≠ A := hctx
      cases hrow : db.embeddings embedding.key with
      | some existing =>
          rw [step_putEmbedding_of_some hrow]
          exact h
      | none =>
          rw [step_putEmbedding_of_none hrow]
          split
          · exact h
          · refine ⟨h.chunks, h.jobs, h.registry, h.manifest, ?_, h.searchIndex⟩
            intro key
            rw [h.embeddings key]
            by_cases hsame : key = embedding.key
            · subst hsame
              rw [if_neg hother, if_neg hother]
            · simp only [Function.update_of_ne hsame]
  | deactivate contextId kind subjectId =>
      have hother : contextId ≠ A := hctx
      refine ⟨h.chunks, h.jobs, h.registry, h.manifest, ?_, h.searchIndex⟩
      intro key
      show _ = if _ then EmbeddingTable.deactivate db.embeddings contextId kind subjectId key else none
      rw [h.embeddings key]
      by_cases hkey : key.contextId = A
      · have hne : ¬(key.contextId = contextId ∧ key.subjectKind = kind ∧ key.subjectId = subjectId) := by
          rintro ⟨rfl, -⟩
          exact hother hkey
        rw [if_pos hkey, if_pos hkey]
        simp [EmbeddingTable.deactivate, hne]
      · rw [if_neg hkey, if_neg hkey]
  | putSearch contextId factId rawText =>
      have hother : contextId ≠ A := hctx
      refine ⟨h.chunks, h.jobs, h.registry, h.manifest, h.embeddings, ?_⟩
      intro id
      show _ = (db.searchIndex.put contextId factId rawText id).filter _
      rw [h.searchIndex id]
      by_cases hid : id = factId
      · subst hid
        simp only [SearchTable.put, Function.update_self]
        cases hrow : db.searchIndex id with
        | none => simp [Option.filter_some, hother]
        | some row =>
            have hforeign : row.contextId ≠ A := by
              intro hmine
              have hsearch := hs.search hrow
              rw [hmine] at hsearch
              exact hother (hfacts id contextId hsearch (hindexed contextId id rawText rfl))
            simp [Option.filter_some, hforeign]
      · rw [SearchTable.put_of_ne _ _ _ hid]

end Steps

/-! ### What can be read -/

def opsOf (contextId : String) (ops : List StoreOp) : List StoreOp :=
  ops.filter fun op => op.contextId = contextId

/-- The same can be read under a context in two databases, up to the names of graph ids. -/
structure SameView (σ : Equiv.Perm Nat) (contextId : String) (db db' : Database) : Prop where
  chunks : ∀ id, db'.chunks.get contextId id = db.chunks.get contextId id
  registry : (db'.registry.rows.filter fun row => row.1.contextId = contextId) =
    (db.registry.rows.filter fun row => row.1.contextId = contextId).map fun row => (row.1, σ row.2)
  manifest : ∀ key, key.contextId = contextId →
    db'.manifest.rows key = (db.manifest.rows key).map (ManifestRow.rename σ)
  embeddings : ∀ key, key.contextId = contextId → db'.embeddings key = db.embeddings key
  searchIndex : ∀ factId, ((db'.searchIndex factId).filter fun row => row.contextId = contextId) =
    (db.searchIndex factId).filter fun row => row.contextId = contextId

/-- What an operation put can be read under its context. -/
def StoreOp.Readable (db : Database) : StoreOp → Prop
  | .putChunk chunk => ∃ stored, db.chunks.get chunk.contextId chunk.chunkId = some stored ∧
      sameChunk stored chunk = true
  | .allocateGraphId key => key ∈ db.registry.rows.map Prod.fst
  | .register plan => ∀ r ∈ plan.records, ∃ row,
      db.manifest.rows (r.manifestKey plan.contextId) = some row ∧ row.graphId = r.graphId
  | .putEmbedding embedding => ∃ row, db.embeddings embedding.key = some row ∧
      row.embeddedContentHash = embedding.embeddedContentHash
  | .deactivate _ _ _ => True
  | .putSearch contextId factId _ => ∃ row, db.searchIndex factId = some row ∧
      row.contextId = contextId

/-- The first context reads what it would read if the second had issued nothing, and whatever the
second put it can read. -/
structure Isolated (A B : String) (ops : List StoreOp) : Prop where
  sameView : ∃ σ : Equiv.Perm Nat, SameView σ A (Database.run {} ops)
    (Database.run {} ((opsOf A ops).map (StoreOp.rename σ)))
  readable : ∀ earlier op later, ops = earlier ++ op :: later → op.contextId = B →
    (∃ db, (Database.run {} earlier).exec op = .ok db) → op.Readable (Database.run {} ops)

/-- Lists of pairs with the same first components, whose second ones are
distinct, differ by a permutation of the latter. -/
theorem exists_renaming {κ : Type} {xs ys : List (κ × Nat)} (hkeys : ys.map Prod.fst = xs.map Prod.fst)
    (hxs : (xs.map Prod.snd).Nodup) (hys : (ys.map Prod.snd).Nodup) :
    ∃ σ : Equiv.Perm Nat, ys = xs.map fun row => (row.1, σ row.2) := by
  have hlength : ys.length = xs.length := by simpa using congrArg List.length hkeys
  obtain ⟨σ, hσ⟩ := Equiv.Perm.exists_extending_pair
    (fun i : Fin xs.length => (xs.map Prod.snd).get (i.cast (by simp)))
    (fun i : Fin xs.length => (ys.map Prod.snd).get (i.cast (by simp [hlength])))
    (fun i j hij => by simpa using List.nodup_iff_injective_get.mp hxs hij)
    (fun i j hij => by simpa using List.nodup_iff_injective_get.mp hys hij)
  refine ⟨σ, List.ext_getElem (by simpa using hlength) ?_⟩
  intro i hi hi'
  have hx : i < xs.length := by simpa using hi'
  have hid := hσ ⟨i, hx⟩
  have hkey : (ys.map Prod.fst)[i]? = (xs.map Prod.fst)[i]? := by rw [hkeys]
  simp only [List.getElem?_map, List.getElem?_eq_getElem hi, List.getElem?_eq_getElem hx,
    Option.map_some, Option.some.injEq] at hkey
  rw [List.getElem_map]
  apply Prod.ext
  · exact hkey
  · simpa using hid.symm

theorem allocations_rename (σ : Equiv.Perm Nat) (ops : List StoreOp) :
    allocations (ops.map (StoreOp.rename σ)) = allocations ops := by
  unfold allocations
  rw [List.filterMap_map]
  congr 1
  funext op
  cases op <;> rfl

/-! ### Readable for good -/

theorem StoreOp.Readable.mono {db db' : Database} {op : StoreOp} (h : op.Readable db)
    (hkeeps : db.Keeps db') : op.Readable db' := by
  cases op with
  | putChunk chunk =>
      obtain ⟨stored, hstored, hsame⟩ := h
      obtain ⟨hrow, hctx⟩ := Option.filter_eq_some_iff.mp hstored
      exact ⟨stored, Option.filter_eq_some_iff.mpr ⟨hkeeps.chunks hrow, hctx⟩, hsame⟩
  | allocateGraphId key => exact hkeeps.keys h
  | register plan =>
      intro r hr
      obtain ⟨row, hrow, hid⟩ := h r hr
      obtain ⟨row', hrow', hid'⟩ := hkeeps.rows hrow
      exact ⟨row', hrow', hid'.trans hid⟩
  | putEmbedding embedding =>
      obtain ⟨row, hrow, hhash⟩ := h
      obtain ⟨row', hrow', hhash'⟩ := hkeeps.embeddings hrow
      exact ⟨row', hrow', hhash'.trans hhash⟩
  | deactivate contextId kind subjectId => trivial
  | putSearch contextId factId rawText =>
      obtain ⟨row, hrow, hctx⟩ := h
      obtain ⟨row', hrow', hctx'⟩ := hkeeps.searchIndex hrow
      exact ⟨row', hrow', hctx'.trans hctx⟩

/-- What an accepted operation put can be read right after it, if no other
context has a search row under its fact id. -/
theorem readable_of_exec {db db' : Database} {op : StoreOp} (h : db.exec op = .ok db')
    (hsearch : ∀ contextId factId text row, op = .putSearch contextId factId text →
      db.searchIndex factId = some row → row.contextId = contextId) : op.Readable db' := by
  cases op with
  | putChunk chunk =>
      obtain ⟨⟨chunks, jobs⟩, hput, rfl⟩ := Fallible.map_eq_ok.mp h
      rcases ChunkTable.put_eq_ok hput with ⟨existing, hrow, hsame, rfl, rfl⟩ | ⟨-, -, rfl, rfl⟩
      · refine ⟨existing, Option.filter_eq_some_iff.mpr ⟨hrow, ?_⟩, hsame⟩
        simp only [sameChunk, Bool.and_eq_true, decide_eq_true_eq] at hsame
        simp [hsame]
      · refine ⟨chunk, Option.filter_eq_some_iff.mpr ⟨Function.update_self _ _ _, by simp⟩, ?_⟩
        exact sameChunk_refl chunk
  | allocateGraphId key =>
      cases h
      exact List.mem_map.mpr ⟨_, db.registry.allocateGraphId_mem key, rfl⟩
  | register plan =>
      obtain ⟨m, hregister, rfl⟩ := Fallible.map_eq_ok.mp h
      intro r hr
      exact Manifest.registerRecords_stored hregister hr
  | putEmbedding embedding =>
      obtain ⟨table, hput, rfl⟩ := Fallible.map_eq_ok.mp h
      unfold Database.putEmbedding at hput
      split at hput
      · cases hput
      · rcases EmbeddingTable.put_eq_ok hput with ⟨existing, hrow, hhash, rfl⟩ | ⟨-, rfl⟩
        · exact ⟨existing, hrow, hhash⟩
        · exact ⟨embedding, Function.update_self _ _ _, rfl⟩
  | deactivate contextId kind subjectId => trivial
  | putSearch contextId factId rawText =>
      cases h
      refine ⟨_, Function.update_self _ _ _, ?_⟩
      cases hrow : db.searchIndex factId with
      | none => rfl
      | some row => exact hsearch contextId factId rawText row rfl hrow

/-! ### Isolation -/

section Runs

variable {sha256 : String → String} {A B : String} {named indexed : String → String → Prop}

/-- A database that operations of two contexts work on stays shared. -/
theorem Shared.run {ops : List StoreOp} {db : Database} (h : Shared A B named indexed db)
    (hissues : db.Issues sha256 ops) (hctx : ∀ op ∈ ops, op.contextId = A ∨ op.contextId = B)
    (hnamed : ∀ op ∈ ops, ∀ id ∈ op.chunkId?, named op.contextId id)
    (hindexed : ∀ contextId factId text, .putSearch contextId factId text ∈ ops →
      indexed contextId factId) : Shared A B named indexed (db.run ops) := by
  induction ops generalizing db with
  | nil => exact h
  | cons op rest ih =>
      obtain ⟨hissued, hissues⟩ := hissues
      apply ih _ hissues
      · intro next hnext
        exact hctx next (List.mem_cons_of_mem _ hnext)
      · intro next hnext
        exact hnamed next (List.mem_cons_of_mem _ hnext)
      · intro contextId factId text hmem
        exact hindexed contextId factId text (List.mem_cons_of_mem _ hmem)
      · apply h.step hissued (hctx op List.mem_cons_self) (hnamed op List.mem_cons_self)
        rintro contextId factId text rfl
        exact hindexed contextId factId text List.mem_cons_self

/-- **The simulation.** A run is, for one context, like the run of its
operations alone. -/
theorem Alike.run (hdisjoint : ∀ id, named A id → ¬named B id)
    (hfacts : ∀ factId contextId, indexed A factId → indexed contextId factId → contextId = A)
    {σ : Equiv.Perm Nat} {ops : List StoreOp} {db db' : Database} (h : Alike σ A db db')
    (hs : Shared A B named indexed db) (hissues : db.Issues sha256 ops)
    (hctx : ∀ op ∈ ops, op.contextId = A ∨ op.contextId = B)
    (hnamed : ∀ op ∈ ops, ∀ id ∈ op.chunkId?, named op.contextId id)
    (hindexed : ∀ contextId factId text, .putSearch contextId factId text ∈ ops →
      indexed contextId factId) :
    Alike σ A (db.run ops) (db'.run ((opsOf A ops).map (StoreOp.rename σ))) := by
  induction ops generalizing db db' with
  | nil => exact h
  | cons op rest ih =>
      obtain ⟨hissued, hissues⟩ := hissues
      have hhere : ∀ contextId factId text, op = .putSearch contextId factId text →
          indexed contextId factId := by
        rintro contextId factId text rfl
        exact hindexed contextId factId text List.mem_cons_self
      have hnext := hs.step hissued (hctx op List.mem_cons_self) (hnamed op List.mem_cons_self) hhere
      have hrest : ∀ next ∈ rest, next.contextId = A ∨ next.contextId = B :=
        fun next hmem => hctx next (List.mem_cons_of_mem _ hmem)
      have hnames : ∀ next ∈ rest, ∀ id ∈ next.chunkId?, named next.contextId id :=
        fun next hmem => hnamed next (List.mem_cons_of_mem _ hmem)
      have hlater : ∀ contextId factId text, .putSearch contextId factId text ∈ rest →
          indexed contextId factId :=
        fun contextId factId text hmem => hindexed contextId factId text (List.mem_cons_of_mem _ hmem)
      by_cases hown : op.contextId = A
      · have hops : opsOf A (op :: rest) = op :: opsOf A rest :=
          List.filter_cons_of_pos (by simpa using hown)
        rw [hops, List.map_cons]
        exact ih (h.own_step hs hissued hown hdisjoint (hnamed op List.mem_cons_self) hfacts hhere)
          hnext hissues hrest hnames hlater
      · have hops : opsOf A (op :: rest) = opsOf A rest :=
          List.filter_cons_of_neg (by simpa using hown)
        rw [hops]
        exact ih (h.other_step hs hown hfacts hhere) hnext hissues hrest hnames hlater

/-- Alike databases give the same view, with a renaming that fits their
registries. -/
theorem Alike.sameView {σ : Equiv.Perm Nat} {db db' : Database} (h : Alike σ A db db')
    (hregistry : db'.registry.rows =
      (db.registry.rows.filter fun row => row.1.contextId = A).map fun row => (row.1, σ row.2)) :
    SameView σ A db db' where
  chunks id := by
    rw [ChunkTable.get, h.chunks id, ChunkTable.get, Option.filter_filter]
    simp
  registry := by
    rw [hregistry, List.filter_map]
    congr 1
    rw [List.filter_filter]
    simp
  manifest := h.manifest.own
  embeddings key hkey := by rw [h.embeddings key, if_pos hkey]
  searchIndex factId := by
    rw [h.searchIndex factId, Option.filter_filter]
    simp

/-- Every search row belongs to a context that indexed the fact. -/
theorem search_run {ops : List StoreOp} (hindexed : ∀ contextId factId text,
    .putSearch contextId factId text ∈ ops → indexed contextId factId) :
    ∀ factId row, (Database.run {} ops).searchIndex factId = some row →
      indexed row.contextId factId := by
  apply Database.run_invariant
    (P := fun db => ∀ factId row, db.searchIndex factId = some row → indexed row.contextId factId)
  · intro factId row hrow
    cases hrow
  · intro db op hop h
    rcases searchIndex_step db op with hsame | ⟨contextId, factId, rawText, rfl, hput⟩
    · rw [hsame]
      exact h
    · rw [hput]
      exact SearchTable.put_indexed h (hindexed contextId factId rawText hop)

/-- A search row that was put is readable at the end, if only its context
indexed the fact. -/
theorem putSearch_readable {ops : List StoreOp} {contextId factId rawText : String}
    (hmem : .putSearch contextId factId rawText ∈ ops)
    (honly : ∀ other text, .putSearch other factId text ∈ ops → other = contextId) :
    ∃ row, (Database.run {} ops).searchIndex factId = some row ∧ row.contextId = contextId := by
  obtain ⟨earlier, later, rfl⟩ := List.mem_iff_append.mp hmem
  have hhere : (StoreOp.putSearch contextId factId rawText).Readable
      ((Database.run {} earlier).step (.putSearch contextId factId rawText)) := by
    refine @readable_of_exec (Database.run {} earlier) _ _ rfl ?_
    intro contextId' factId' text row heq hrow
    cases heq
    obtain ⟨text', htext'⟩ := @search_run
      (fun context fact => ∃ text, .putSearch context fact text ∈ earlier) earlier
      (fun context fact text h => ⟨text, h⟩) factId row hrow
    exact honly _ text' (List.mem_append_left _ htext')
  rw [Database.run_append]
  exact hhere.mono (Database.run_keeps _ later)

/-- What the first context reads, if no fact id is indexed for both. -/
theorem sameView_run {ops : List StoreOp} (hctx : ∀ op ∈ ops, op.contextId = A ∨ op.contextId = B)
    (hchunk : ∀ op ∈ ops, ∀ op' ∈ ops, op.contextId = A → op'.contextId = B →
      ∀ id ∈ op.chunkId?, id ∉ op'.chunkId?)
    (hissues : Database.Issues sha256 {} ops)
    (hfacts : ∀ factId text text', .putSearch A factId text ∈ ops →
      .putSearch B factId text' ∉ ops) :
    ∃ σ : Equiv.Perm Nat, SameView σ A (Database.run {} ops)
      (Database.run {} ((opsOf A ops).map (StoreOp.rename σ))) := by
  let put : String → String → Prop := fun context fact => ∃ text, .putSearch context fact text ∈ ops
  have hput : ∀ contextId factId text, .putSearch contextId factId text ∈ ops →
      put contextId factId := fun contextId factId text h => ⟨text, h⟩
  have honly : ∀ factId contextId, put A factId → put contextId factId → contextId = A := by
    rintro factId contextId ⟨text, hA⟩ ⟨text', hother⟩
    rcases hctx _ hother with hsame | hsame
    · exact hsame
    · obtain rfl : contextId = B := hsame
      exact absurd hother (hfacts factId text text' hA)
  let names : String → String → Prop := fun context id =>
    ∃ op ∈ ops, op.contextId = context ∧ id ∈ op.chunkId?
  have hdisjoint : ∀ id, names A id → ¬names B id := by
    rintro id ⟨op, hop, hA, hid⟩ ⟨op', hop', hB, hid'⟩
    exact hchunk op hop op' hop' hA hB id hid hid'
  have hempty : Shared A B names put {} := by
    constructor <;> intros <;> contradiction
  have hrun : ∀ σ, Alike σ A (Database.run {} ops)
      (Database.run {} ((opsOf A ops).map (StoreOp.rename σ))) := fun σ =>
    (alike_empty σ A).run hdisjoint honly hempty hissues hctx
      (fun op hop id hid => ⟨op, hop, rfl, hid⟩) hput
  -- the registry of the context alone does not depend on the renaming
  have hregistry : ∀ σ, (Database.run {} ((opsOf A ops).map (StoreOp.rename σ))).registry =
      (Database.run {} ((opsOf A ops).map (StoreOp.rename (.refl Nat)))).registry := by
    intro σ
    rw [registry_run, registry_run, allocations_rename, allocations_rename]
  have hkeys := (hrun (.refl Nat)).registry
  obtain ⟨σ, hσ⟩ := @exists_renaming RegistryKey
    ((Database.run {} ops).registry.rows.filter fun row => row.1.contextId = A)
    (Database.run {} ((opsOf A ops).map (StoreOp.rename (.refl Nat)))).registry.rows
    (by rw [hkeys, List.filter_map]; rfl)
    ((Database.run {} ops).registry.ids_nodup.sublist (List.filter_sublist.map _))
    (Database.run {} ((opsOf A ops).map (StoreOp.rename (.refl Nat)))).registry.ids_nodup
  refine ⟨σ, (hrun σ).sameView ?_⟩
  rw [hregistry σ]
  exact hσ

/-- A fact id that both contexts index belongs to one of them: the other loses
its row. -/
theorem Isolated.facts_disjoint (hAB : A ≠ B) {ops : List StoreOp} (h : Isolated A B ops)
    (factId text text' : String) (hA : .putSearch A factId text ∈ ops) :
    .putSearch B factId text' ∉ ops := by
  intro hB
  obtain ⟨⟨σ, hview⟩, hreadable⟩ := h
  -- the row belongs to the second context, so the first does not see it
  obtain ⟨earlier, later, hsplit⟩ := List.mem_iff_append.mp hB
  obtain ⟨row, hrow, hrowB⟩ := hreadable earlier _ later hsplit rfl ⟨_, rfl⟩
  -- alone it would
  have hmem : StoreOp.putSearch A factId text ∈ (opsOf A ops).map (StoreOp.rename σ) :=
    List.mem_map.mpr ⟨_, List.mem_filter.mpr ⟨hA, by simp [StoreOp.contextId]⟩, rfl⟩
  have honly : ∀ other text, .putSearch other factId text ∈ (opsOf A ops).map (StoreOp.rename σ) →
      other = A := by
    intro other text hother
    obtain ⟨op, hop, hsame⟩ := List.mem_map.mp hother
    have hown := (List.mem_filter.mp hop).2
    rw [decide_eq_true_eq, ← StoreOp.contextId_rename σ op, hsame] at hown
    exact hown
  obtain ⟨row', hrow', hrowA⟩ := putSearch_readable hmem honly
  have hsame := hview.searchIndex factId
  rw [hrow, hrow'] at hsame
  simp [Option.filter_some, hrowA, hrowB, Ne.symm hAB] at hsame

/-- Whatever the second context put it can read, if no fact id is indexed for
both. -/
theorem readable_run {ops : List StoreOp}
    (hctx : ∀ op ∈ ops, op.contextId = A ∨ op.contextId = B)
    (hfacts : ∀ factId text text', .putSearch A factId text ∈ ops →
      .putSearch B factId text' ∉ ops) {earlier later : List StoreOp} {op : StoreOp}
    (hsplit : ops = earlier ++ op :: later) (hop : op.contextId = B) {db : Database}
    (hexec : (Database.run {} earlier).exec op = .ok db) : op.Readable (Database.run {} ops) := by
  subst hsplit
  have hnow : op.Readable db := by
    apply readable_of_exec hexec
    rintro contextId factId text row rfl hrow
    obtain rfl : contextId = B := hop
    obtain ⟨text', htext'⟩ := @search_run
      (fun context fact => ∃ text, .putSearch context fact text ∈ earlier) earlier
      (fun context fact text h => ⟨text, h⟩) factId row hrow
    rcases hctx _ (List.mem_append_left _ htext') with hsame | hsame
    · have hput : StoreOp.putSearch A factId text' ∈ earlier := by
        rw [show A = row.contextId from hsame.symm]
        exact htext'
      exact absurd (List.mem_append_right _ List.mem_cons_self)
        (hfacts factId text' text (List.mem_append_left _ hput))
    · exact hsame
  have hstep : (Database.run {} earlier).step op = db := by
    simp only [Database.step, hexec]
  rw [Database.run_append]
  show op.Readable (((Database.run {} earlier).step op).run later)
  rw [hstep]
  exact hnow.mono (Database.run_keeps db later)

/-- **Isolation.** Two contexts issue operations in any order, and the chunk ids
they name, which are digests, do not collide. They are isolated exactly if no
fact id is put into the search index for both: the first one reads what it would
read alone, up to the graph ids it got, and the second one finds whatever it
put. The search index is the one store where two contexts may name one row. -/
theorem isolated_iff (hAB : A ≠ B) {ops : List StoreOp}
    (hctx : ∀ op ∈ ops, op.contextId = A ∨ op.contextId = B)
    (hchunk : ∀ op ∈ ops, ∀ op' ∈ ops, op.contextId = A → op'.contextId = B →
      ∀ id ∈ op.chunkId?, id ∉ op'.chunkId?)
    (hissues : Database.Issues sha256 {} ops) :
    Isolated A B ops ↔ ∀ factId text text', .putSearch A factId text ∈ ops →
      .putSearch B factId text' ∉ ops := by
  constructor
  · intro h
    exact h.facts_disjoint hAB
  · intro hfacts
    refine ⟨sameView_run hctx hchunk hissues hfacts, ?_⟩
    rintro earlier op later hsplit hop ⟨db, hexec⟩
    exact readable_run hctx hfacts hsplit hop hexec

end Runs

/-! ### A chat and a mailbox -/

/-- The chunk ids of the two contexts never collide. -/
theorem chat_ne_mail (r r' : String) : chunkIdFor fixtureDeployment.sha256 "chat" r ≠
    chunkIdFor fixtureDeployment.sha256 "mail" r' := by
  have hdigest : ∀ entry ∈ knownDigests, entry.2.toList.head? ≠ some 'm' := by decide +kernel
  have hkey : ∀ entry ∈ knownDigests, entry.1.toList.head? ≠ some 'm' := by decide +kernel
  have hmail : ("mail" ++ "\u0000" ++ r').toList.head? = some 'm' := by
    rw [String.toList_append, String.toList_append]
    rfl
  have hchat : ("chat" ++ "\u0000" ++ r).toList.head? ≠ some 'm' := by
    rw [String.toList_append, String.toList_append]
    simp
  have hunknown : knownDigests.lookup ("mail" ++ "\u0000" ++ r') = none := by
    rw [List.lookup_eq_none_iff]
    intro entry hentry
    simp only [bne_iff_ne, ne_eq]
    intro hsame
    exact hkey entry hentry (hsame ▸ hmail)
  have hchat' : (fixtureDeployment.sha256 ("chat" ++ "\u0000" ++ r)).toList.head? ≠ some 'm' := by
    show ((knownDigests.lookup ("chat" ++ "\u0000" ++ r)).getD _).toList.head? ≠ some 'm'
    cases hfound : knownDigests.lookup ("chat" ++ "\u0000" ++ r) with
    | none => exact hchat
    | some digest =>
        obtain ⟨before, after, hsplit, -⟩ := List.lookup_eq_some_iff.mp hfound
        exact hdigest _ (hsplit ▸ List.mem_append_right _ List.mem_cons_self)
  intro h
  have hsame := (String.append_right_inj _).mp h
  apply hchat'
  rw [hsame]
  show ((knownDigests.lookup ("mail" ++ "\u0000" ++ r')).getD _).toList.head? = some 'm'
  rw [hunknown]
  exact hmail

/-- Both index a fact `f1`. -/
def sharedFact : List StoreOp :=
  [.putSearch "chat" "f1" "Max lives in Boston.", .putSearch "mail" "f1" "Ann lives in Rome."]

/-- The mailbox writes its text into the row of the chat, and does not find it. -/
theorem shared_fact_leaks : ¬∀ (sha256 : String → String) (A B : String) (ops : List StoreOp),
    A ≠ B → (∀ r r', chunkIdFor sha256 A r ≠ chunkIdFor sha256 B r') →
    (∀ op ∈ ops, op.contextId = A ∨ op.contextId = B) → Database.Issues sha256 {} ops →
    Isolated A B ops := by
  intro hall
  have hctx : ∀ op ∈ sharedFact, op.contextId = "chat" ∨ op.contextId = "mail" := by
    intro op hop
    simp only [sharedFact, List.mem_cons, List.not_mem_nil, or_false] at hop
    rcases hop with rfl | rfl
    · exact Or.inl rfl
    · exact Or.inr rfl
  have h := hall fixtureDeployment.sha256 "chat" "mail" sharedFact (by decide) chat_ne_mail hctx
    ⟨trivial, trivial, trivial⟩
  exact h.facts_disjoint (by decide) "f1" "Max lives in Boston." "Ann lives in Rome."
    List.mem_cons_self (List.mem_cons_of_mem _ List.mem_cons_self)

def oneFactProperties (contextId text : String) : Properties :=
  scalarProperties contextId [("text", some (.str text))] fun field hfield => by
    have hsafe : identifierSafe "text" = true := by decide
    rw [List.mem_singleton.mp hfield]
    exact hsafe

theorem oneFactProperties_context (contextId text : String) :
    (oneFactProperties contextId text).lookup "context_id" = some (.str contextId) :=
  lookup_context_scalarProperties (by simp)

/-- A plan for one fact of a context. -/
def oneFactPlan (contextId logicalKey text : String) (graphId : Nat) (hcontext : contextId ≠ "")
    (hkey : logicalKey ≠ "") : GraphWritePlan where
  contextId := contextId
  planKey := "plan"
  nodes := [⟨graphId, .fact, logicalKey, oneFactProperties contextId text, hkey⟩]
  relationships := []
  contextId_ne := hcontext
  planKey_ne := by decide
  ids_nodup := List.nodup_singleton graphId
  context_ok r hr := by
    obtain rfl := List.mem_singleton.mp hr
    exact oneFactProperties_context contextId text

theorem chatContext_ne : "chat" ≠ "" := by decide

/-- A chat with a stored turn and its fact, and a mailbox with a fact of another id; both register
what they write, each under the id that it was given. -/
def twoContexts : List StoreOp :=
  [.allocateGraphId ⟨"fact", "chat", "fact:boston"⟩,
    .allocateGraphId ⟨"fact", "mail", "fact:f1"⟩,
    .register (oneFactPlan "mail" "fact:f1" "Ann lives in Rome." 2 (by decide) (by decide)),
    .register (oneFactPlan "chat" "fact:boston" "Max lives in Boston." 1 chatContext_ne (by decide)),
    .putChunk ((bostonCall nine ten).chunk fixtureDeployment),
    .putEmbedding ⟨⟨"chat", .fact, "boston", "fixture", "1"⟩,
      chunkIdFor fixtureDeployment.sha256 "chat" "boston", [1], "sha256:boston", true⟩,
    .putSearch "chat" "boston" "Max lives in Boston.",
    .putSearch "mail" "f1" "Ann lives in Rome."]

/-- Two contexts that register and write facts of their own. Their fact ids
differ, so they are isolated. -/
theorem isolated_twoContexts : Isolated "chat" "mail" twoContexts := by
  have hallocated : ∀ row ∈ [((⟨"fact", "chat", "fact:boston"⟩ : RegistryKey), 1),
      (⟨"fact", "mail", "fact:f1"⟩, 2)], row ∈ (Database.run {} (twoContexts.take 2)).registry.rows := by
    decide +kernel
  have hissues : Database.Issues fixtureDeployment.sha256 {} twoContexts := by
    refine ⟨trivial, trivial, ?_, ?_, rfl, ⟨"boston", rfl⟩, trivial, trivial, trivial⟩
    · intro r hr
      obtain rfl := List.mem_singleton.mp hr
      exact ⟨_, hallocated _ (List.mem_cons_of_mem _ List.mem_cons_self), rfl⟩
    · intro r hr
      obtain rfl := List.mem_singleton.mp hr
      exact ⟨_, hallocated _ List.mem_cons_self, rfl⟩
  have hctx : ∀ op ∈ twoContexts, op.contextId = "chat" ∨ op.contextId = "mail" := by
    decide +kernel
  have hchunk : ∀ op ∈ twoContexts, ∀ op' ∈ twoContexts, op.contextId = "chat" →
      op'.contextId = "mail" → ∀ id ∈ op.chunkId?, id ∉ op'.chunkId? := by
    intro op _ op' hop' _ hmail id _ hid
    have hnone : ∀ op' ∈ twoContexts, op'.contextId = "mail" → op'.chunkId? = none := by
      decide +kernel
    rw [hnone op' hop' hmail] at hid
    cases hid
  refine (isolated_iff (by decide) hctx hchunk hissues).mpr ?_
  intro factId text text' hA hB
  simp only [twoContexts, List.mem_cons, reduceCtorEq, StoreOp.putSearch.injEq, String.reduceEq,
    List.not_mem_nil, false_or, or_false, false_and, true_and] at hA hB
  have hsame : "boston" = "f1" := hA.1.symm.trans hB.1
  exact absurd hsame (by decide)

/-! ### The registry of the pipeline -/

/-- An allocator that answers as the registry does, and elsewhere as another one above it. -/
def GraphIdRegistry.allocator (r : GraphIdRegistry) (base : GraphIdAllocator) : GraphIdAllocator where
  allocateGraphId kind contextId key :=
    match Ordered.find Prod.fst ⟨kind, contextId, key⟩ r.rows with
    | some row => row.2
    | none => r.next + base.allocateGraphId kind contextId key
  injective := by
    intro kind kind' ctx ctx' key key' h
    cases hfind : Ordered.find Prod.fst (⟨kind, ctx, key⟩ : RegistryKey) r.rows with
    | none =>
        cases hfind' : Ordered.find Prod.fst (⟨kind', ctx', key'⟩ : RegistryKey) r.rows with
        | none =>
            simp only [hfind, hfind'] at h
            exact base.injective (Nat.add_left_cancel h)
        | some row' =>
            simp only [hfind, hfind'] at h
            have hbelow := r.below row' (Ordered.find_eq_some hfind').1
            omega
    | some row =>
        obtain ⟨hrow, hkey⟩ := Ordered.find_eq_some hfind
        cases hfind' : Ordered.find Prod.fst (⟨kind', ctx', key'⟩ : RegistryKey) r.rows with
        | none =>
            simp only [hfind, hfind'] at h
            have hbelow := r.below row hrow
            omega
        | some row' =>
            obtain ⟨hrow', hkey'⟩ := Ordered.find_eq_some hfind'
            simp only [hfind, hfind'] at h
            have hsame := List.inj_on_of_nodup_map r.ids_nodup hrow hrow' h
            rw [hsame] at hkey
            have heq := hkey.symm.trans hkey'
            simpa using heq

/-- The fixed table of graph ids that a deployment reads is what any run of
allocations leaves. -/
theorem GraphIdRegistry.allocator_agrees (r : GraphIdRegistry) (base : GraphIdAllocator)
    {key : RegistryKey} {id : Nat} (h : (key, id) ∈ r.rows) :
    (r.allocator base).allocateGraphId key.nodeKind key.contextId key.logicalKey = id := by
  have hfind : Ordered.find Prod.fst (⟨key.nodeKind, key.contextId, key.logicalKey⟩ : RegistryKey)
      r.rows = some (key, id) := Ordered.find_of_mem r.keys_nodup h
  simp only [GraphIdRegistry.allocator, hfind]

end ContextMemory
