/-
The ingestion pipeline: `run_record` of `ingestion/orchestrator.py` with its stages on
the stores.

A call reads a deployment (the hash, the Unicode tables and the graph-id table, fixed
for good) and the world as it answers during this one call: the extractor, the clock,
the models, the lookups and the embedder. Whatever goes wrong around the store
operations is the fault script of the call.

`Effect` lists everything one attempt can leave in the stores, wherever it stops. Every
invariant of the pipeline is proved by cases on it.
-/

import ContextMemory.Persistence.Tables
import ContextMemory.Ingestion.PlanBuilder
import ContextMemory.Ingestion.GraphWriter
import ContextMemory.Ingestion.Orchestrator

namespace ContextMemory

open Faulty

/-! ### Stores and calls -/

/-- Everything the stages work on; `profiles` lives in the process, the rest is durable. -/
structure Stores where
  chunks : ChunkTable := fun _ => none
  audit : ExtractionAudit := {}
  graphStore : GraphStore := {}
  embeddings : EmbeddingTable := fun _ => none
  searchIndex : SearchTable := fun _ => none
  profiles : Profiles := []

structure Deployment where
  sha256 : String → String
  reprDrafts : List ExtractionDraft → String
  unicode : UnicodeTables
  allocator : GraphIdAllocator

/-- `Embedder`, with the defaults `getattr` falls back to. -/
structure Embedder where
  modelName : String := "unknown"
  modelVersion : String := "1"
  embed : String → Except Exn (List Rat)
  embedBatch : Option (List String → Except Exn (List (List Rat))) := none

/-- The vectors of `texts`: one batch if there is a batch call and something to embed. -/
def Embedder.embedAll (embedder : Embedder) (texts : List String) :
    Except Exn (List (List Rat)) :=
  match embedder.embedBatch, texts with
  | some batch, _ :: _ => batch texts
  | _, _ => texts.mapM embedder.embed

/-- The outside world during one call. -/
structure Env where
  extractor : Extractor
  now : DateTime
  temporal : Option TemporalServices := none
  nameIndex : Option (String → String → String → Except Exn (List String)) := none
  model : Option (String → String → List EntityProfile → Except Exn (Option Nat)) := none
  outage : (i j : Nat) → Option Exn := fun _ _ => none
  embedder : Embedder

/-- One `run_record(batch, record)` call. -/
structure Call where
  env : Env
  batch : ContextBatch
  record : ContextRecord

namespace Call

variable (d : Deployment) (call : Call)

def chunk : Chunk := chunkFromRecord d.sha256 call.batch call.record

def builder : Builder where
  registry := ⟨d.unicode, d.allocator, call.env.nameIndex, call.env.model⟩
  temporal := call.env.temporal
  outage := call.env.outage
  now := call.env.now

/-- What the extraction service returns, or raises, in this call. -/
def extract : Except Exn ExtractionResult :=
  extractChunk d.sha256 d.reprDrafts call.env.extractor call.batch call.record (call.chunk d)

/-- The plan of an extraction result, from the graph and the registry as they are. -/
def build (s : Stores) (extraction : ExtractionResult) : Except Exn GraphWritePlan × Profiles :=
  (call.builder d).build s.graphStore.graph s.profiles (call.chunk d) extraction

def embeddingKey (candidate : ExtractedMemoryCandidate) : EmbeddingKey :=
  ⟨call.batch.contextId, .fact, candidate.candidateId, call.env.embedder.modelName,
    call.env.embedder.modelVersion⟩

/-- The embedding row of a candidate. -/
def embedding (candidate : ExtractedMemoryCandidate) (values : List Rat) : Embedding where
  key := call.embeddingKey candidate
  sourceChunkId := (call.chunk d).chunkId
  values := values
  embeddedContentHash := "sha256:" ++ d.sha256 candidate.text

/-! ### The stages -/

/-- `extraction_store.record(...)`. -/
def recordExtraction (extraction : ExtractionResult) (s : Stores) : Stores :=
  let extractor := call.env.extractor
  let audit := s.audit.record (call.chunk d) extractor.name extractor.version extraction
  { s with audit }

def extractionStage : Prog Stores Exn ExtractionResult :=
  Prog.op fun s => (call.extract d).map fun extraction =>
    (extraction, call.recordExtraction d extraction s)

def graphPlanStage (extraction : ExtractionResult) : Prog Stores Exn GraphWritePlan :=
  Prog.ofState fun s =>
    ((call.build d s extraction).1, { s with profiles := (call.build d s extraction).2 })

def graphWriteStage (plan : GraphWritePlan) : Prog Stores Exn Unit :=
  Prog.zoom Stores.graphStore (fun s graphStore => { s with graphStore }) (writePlan plan)

/-- `embedding_store.put(Embedding(...))`. -/
def putEmbedding (candidate : ExtractedMemoryCandidate) (values : List Rat) (s : Stores) :
    Except Exn (Unit × Stores) :=
  match (call.embedding d candidate values).make with
  | .error e => .error e
  | .ok embedding => (s.embeddings.put embedding).map fun embeddings => ((), { s with embeddings })

/-- `search_index_store.put(...)`. -/
def putSearch (candidate : ExtractedMemoryCandidate) (s : Stores) : Stores :=
  { s with searchIndex :=
      s.searchIndex.put call.batch.contextId candidate.candidateId candidate.text }

/-- The body of the loop over `zip(extraction.accepted, vectors)`. -/
def indexFact (item : ExtractedMemoryCandidate × List Rat) : Prog Stores Exn Unit := do
  Prog.op fun s => call.putEmbedding d item.1 item.2 s
  Prog.op fun s => .ok ((), call.putSearch item.1 s)

def embeddingsStage (extraction : ExtractionResult) : Prog Stores Exn Unit := do
  let vectors ← Prog.ofState fun s =>
    (call.env.embedder.embedAll (extraction.accepted.map (·.text)), s)
  Prog.forEach (call.indexFact d) (extraction.accepted.zip vectors)

def verificationStage : Prog Stores Exn Unit :=
  Prog.op fun s =>
    match s.chunks.get (call.chunk d).contextId (call.chunk d).chunkId with
    | some stored =>
        if stored.contentHash = (call.chunk d).contentHash then .ok ((), s)
        else .error (.runtimeError
          ("post-write verification failed for chunk " ++ (call.chunk d).chunkId))
    | none => .error (.runtimeError
        ("post-write verification failed for chunk " ++ (call.chunk d).chunkId))

def stages : Stages Stores ExtractionResult GraphWritePlan where
  extraction := call.extractionStage d
  graphPlan := call.graphPlanStage d
  graphWrite := graphWriteStage
  embeddings := call.embeddingsStage d
  verification := call.verificationStage d
  acceptedCount extraction := extraction.accepted.length

/-- `chunk_store.put(chunk)`. -/
def putChunk : Prog (World Stores) Exn Unit :=
  Prog.op fun w => (w.stores.chunks.put w.jobs (call.chunk d)).map fun out =>
    ((), ⟨out.2, { w.stores with chunks := out.1 }⟩)

/-- `job_store.seed(..)`. -/
def seedJob : Prog (World Stores) Exn IngestionJob :=
  Prog.op fun w =>
    let out := w.jobs.seed (call.chunk d).chunkId (call.chunk d).contextId
    .ok (out.1, { w with jobs := out.2 })

/-- `job_store.get(..)`, seeded if it is missing. -/
def currentJob : Prog (World Stores) Exn IngestionJob := do
  let found : Option IngestionJob ← Prog.op fun w => .ok (w.jobs (call.chunk d).chunkId, w)
  found.elim (call.seedJob d) pure

/-- `run_record`. -/
def runRecord : Prog (World Stores) Exn ChunkRunResult := do
  call.putChunk d
  let job ← call.currentJob d
  runChunk (call.stages d) (call.chunk d).chunkId job.state

end Call

/-! ### Runs -/

/-- One thing that happens to the system. -/
inductive Step where
  /-- A `run_record` call and what goes wrong around it. -/
  | ingest (call : Call) (faults : List (Fault Exn))
  /-- A new process: the registry starts empty. -/
  | restart
  /-- A job transition by an operator. -/
  | operator (chunkId : String) (state : IngestionJobState) (error : Option String)

def step (d : Deployment) (w : World Stores) : Step → World Stores
  | .ingest call faults => (call.runRecord d w faults).state
  | .restart => { w with stores := { w.stores with profiles := [] } }
  | .operator chunkId state error =>
      match w.jobs.transition chunkId state error with
      | .ok (_, jobs) => { w with jobs }
      | .error _ => w

def World.initial : World Stores := ⟨fun _ => none, {}⟩

def run (d : Deployment) (w : World Stores) (steps : List Step) : World Stores :=
  steps.foldl (step d) w

theorem run_singleton (d : Deployment) (w : World Stores) (t : Step) :
    run d w [t] = step d w t := rfl

/-- Every step of a run meets a condition on the world it starts from. -/
def Meets (d : Deployment) (C : World Stores → Step → Prop) : World Stores → List Step → Prop
  | _, [] => True
  | w, t :: rest => C w t ∧ Meets d C (step d w t) rest

/-- What every step keeps that meets the condition holds at the end of the run. -/
theorem run_meets {d : Deployment} {C : World Stores → Step → Prop} {P : World Stores → Prop}
    {steps : List Step} {w : World Stores} (hw : P w) (h : Meets d C w steps)
    (hstep : ∀ w t, P w → C w t → P (step d w t)) : P (run d w steps) := by
  induction steps generalizing w with
  | nil => exact hw
  | cons t rest ih => exact ih (hstep w t hw h.1) h.2

theorem meets_trivial (d : Deployment) (w : World Stores) (steps : List Step) :
    Meets d (fun _ _ => True) w steps := by
  induction steps generalizing w with
  | nil => trivial
  | cons t rest ih => exact ⟨trivial, ih _⟩

/-- An invariant of every step is one of every run. -/
theorem run_invariant {d : Deployment} {P : World Stores → Prop} {w : World Stores} (hw : P w)
    (hstep : ∀ w t, P w → P (step d w t)) (steps : List Step) : P (run d w steps) :=
  run_meets hw (meets_trivial d w steps) fun w t hP _ => hstep w t hP

theorem run_append (d : Deployment) (w : World Stores) (earlier later : List Step) :
    run d w (earlier ++ later) = run d (run d w earlier) later := by
  simp only [run, List.foldl_append]

theorem Meets.append {d : Deployment} {C : World Stores → Step → Prop} {w : World Stores}
    {earlier later : List Step} (h : Meets d C w (earlier ++ later)) :
    Meets d C w earlier ∧ Meets d C (run d w earlier) later := by
  induction earlier generalizing w with
  | nil => exact ⟨trivial, h⟩
  | cons t rest ih =>
      obtain ⟨hrest, hlater⟩ := ih h.2
      exact ⟨⟨h.1, hrest⟩, hlater⟩

/-! ### What indexing leaves -/

section Effects

variable (d : Deployment) (call : Call)

/-- How the embedding and search rows can differ after some of `items` were indexed. -/
structure Indexed (items : List (ExtractedMemoryCandidate × List Rat)) (s s' : Stores) : Prop where
  embedding_kept : ∀ {key row}, s.embeddings key = some row → s'.embeddings key = some row
  embedding_new : ∀ {key row}, s'.embeddings key = some row → s.embeddings key = some row ∨
    ∃ item ∈ items, key = call.embeddingKey item.1 ∧ row = call.embedding d item.1 item.2
  search_kept : ∀ {id row}, s.searchIndex id = some row →
    ∃ row', s'.searchIndex id = some row' ∧ row'.contextId = row.contextId
  search_new : ∀ {id row}, s'.searchIndex id = some row → s.searchIndex id = some row ∨
    ∃ item ∈ items, id = item.1.candidateId ∧ row.rawText = item.1.text ∧ row.isActive = true ∧
      (s.searchIndex id = none → row.contextId = call.batch.contextId)

/-- Both rows of a fact are there. -/
def HasRows (c : ExtractedMemoryCandidate) (s : Stores) : Prop :=
  (∃ row, s.embeddings (call.embeddingKey c) = some row ∧
      row.embeddedContentHash = "sha256:" ++ d.sha256 c.text) ∧
    ∃ row, s.searchIndex c.candidateId = some row

variable {d call} {items : List (ExtractedMemoryCandidate × List Rat)} {s s' s'' : Stores}

theorem Indexed.refl (items : List (ExtractedMemoryCandidate × List Rat)) (s : Stores) :
    Indexed d call items s s where
  embedding_kept h := h
  embedding_new h := Or.inl h
  search_kept h := ⟨_, h, rfl⟩
  search_new h := Or.inl h

theorem Indexed.trans (h : Indexed d call items s s') (h' : Indexed d call items s' s'') :
    Indexed d call items s s'' where
  embedding_kept hrow := h'.embedding_kept (h.embedding_kept hrow)
  embedding_new hrow := by
    rcases h'.embedding_new hrow with hold | hnew
    · exact h.embedding_new hold
    · exact Or.inr hnew
  search_kept hrow := by
    obtain ⟨row', hrow', hctx'⟩ := h.search_kept hrow
    obtain ⟨row'', hrow'', hctx''⟩ := h'.search_kept hrow'
    exact ⟨row'', hrow'', hctx''.trans hctx'⟩
  search_new := by
    intro id row hrow
    rcases h'.search_new hrow with hold | ⟨item, hitem, rfl, htext, hactive, hctx⟩
    · exact h.search_new hold
    · refine Or.inr ⟨item, hitem, rfl, htext, hactive, fun hnone => ?_⟩
      -- a row that appeared in between was written by this call as well
      cases hmid : s'.searchIndex item.1.candidateId with
      | none => exact hctx hmid
      | some row' =>
          obtain ⟨row'', hrow'', hctx''⟩ := h'.search_kept hmid
          obtain rfl : row = row'' := Option.some.inj (hrow.symm.trans hrow'')
          rcases h.search_new hmid with hold | ⟨-, -, -, -, -, hfirst⟩
          · rw [hnone] at hold
            cases hold
          · exact hctx''.trans (hfirst hnone)

theorem HasRows.mono {c : ExtractedMemoryCandidate} {other : Call} (h : HasRows d call c s)
    (hs : Indexed d other items s s') : HasRows d call c s' := by
  obtain ⟨⟨row, hrow, hhash⟩, found, hfound⟩ := h
  obtain ⟨found', hfound', -⟩ := hs.search_kept hfound
  exact ⟨⟨row, hs.embedding_kept hrow, hhash⟩, found', hfound'⟩

theorem putEmbedding_eq_ok {item : ExtractedMemoryCandidate × List Rat} (hitem : item ∈ items)
    (h : call.putEmbedding d item.1 item.2 s = .ok ((), s')) :
    Indexed d call items s s' ∧ s' = { s with embeddings := s'.embeddings } ∧
      ∃ row, s'.embeddings (call.embeddingKey item.1) = some row ∧
        row.embeddedContentHash = "sha256:" ++ d.sha256 item.1.text := by
  unfold Call.putEmbedding at h
  split at h
  · cases h
  · rename_i embedding hmake
    obtain rfl := Embedding.make_eq_ok hmake
    cases hput : s.embeddings.put (call.embedding d item.1 item.2) with
    | error e =>
        rw [hput] at h
        cases h
    | ok embeddings =>
        rw [hput] at h
        cases h
        refine ⟨⟨fun hrow => EmbeddingTable.put_keeps hput hrow, fun {key row} hrow => ?_,
          fun hrow => ⟨_, hrow, rfl⟩, fun hrow => Or.inl hrow⟩, rfl, ?_⟩
        · rcases EmbeddingTable.put_eq_ok hput with ⟨existing, -, -, rfl⟩ | ⟨-, rfl⟩
          · exact Or.inl hrow
          · dsimp only at hrow
            by_cases hkey : key = (call.embedding d item.1 item.2).key
            · subst hkey
              rw [Function.update_self] at hrow
              exact Or.inr ⟨item, hitem, rfl, (Option.some.inj hrow).symm⟩
            · rw [Function.update_of_ne hkey] at hrow
              exact Or.inl hrow
        · rcases EmbeddingTable.put_eq_ok hput with ⟨existing, hrow, hhash, rfl⟩ | ⟨-, rfl⟩
          · exact ⟨existing, hrow, hhash⟩
          · exact ⟨_, Function.update_self _ _ _, rfl⟩

theorem putSearch_indexed {item : ExtractedMemoryCandidate × List Rat} (hitem : item ∈ items)
    (s : Stores) : Indexed d call items s (call.putSearch item.1 s) ∧
      ∃ row, (call.putSearch item.1 s).searchIndex item.1.candidateId = some row := by
  obtain ⟨put, hself, htext, hactive, hcontext⟩ := SearchTable.put_self s.searchIndex
    call.batch.contextId item.1.candidateId item.1.text
  have hother : ∀ {id}, id ≠ item.1.candidateId →
      (call.putSearch item.1 s).searchIndex id = s.searchIndex id :=
    fun hne => SearchTable.put_of_ne _ _ _ hne
  refine ⟨⟨fun hrow => hrow, fun hrow => Or.inl hrow, fun {id row} hrow => ?_,
    fun {id row} hrow => ?_⟩, put, hself⟩
  · by_cases hid : id = item.1.candidateId
    · subst hid
      rw [hrow] at hcontext
      exact ⟨put, hself, hcontext⟩
    · exact ⟨row, (hother hid).trans hrow, rfl⟩
  · by_cases hid : id = item.1.candidateId
    · subst hid
      obtain rfl := Option.some.inj (hself.symm.trans hrow)
      refine Or.inr ⟨item, hitem, rfl, htext, hactive, fun hnone => ?_⟩
      rw [hcontext, hnone]
      rfl
    · rw [hother hid] at hrow
      exact Or.inl hrow

/-! ### What an attempt leaves -/

variable (d call)

/-- Everything one attempt can leave in the stores it started from. -/
inductive Effect (s : Stores) : Stores → Prop where
  | extracted {s' : Stores} (audit : ExtractionAudit) : s' = { s with audit } → Effect s s'
  | planned {s' : Stores} {extraction : ExtractionResult} {result : Except Exn GraphWritePlan}
      {profiles : Profiles} (audit : ExtractionAudit) : call.extract d = .ok extraction →
      call.build d s extraction = (result, profiles) → s' = { s with audit, profiles } →
      Effect s s'
  | wrote {s' : Stores} {extraction : ExtractionResult} {plan : GraphWritePlan}
      {profiles : Profiles} {graphStore : GraphStore} (audit : ExtractionAudit) :
      call.extract d = .ok extraction → call.build d s extraction = (.ok plan, profiles) →
      Wrote plan s.graphStore graphStore → s' = { s with audit, profiles, graphStore } → Effect s s'
  | indexed {s' : Stores} {extraction : ExtractionResult} {plan : GraphWritePlan}
      {profiles : Profiles} {graphStore : GraphStore} {vectors : List (List Rat)}
      (audit : ExtractionAudit) : call.extract d = .ok extraction →
      call.build d s extraction = (.ok plan, profiles) → WroteAll plan s.graphStore graphStore →
      call.env.embedder.embedAll (extraction.accepted.map (·.text)) = .ok vectors →
      Indexed d call (extraction.accepted.zip vectors) s s' →
      s' = ⟨s.chunks, audit, graphStore, s'.embeddings, s'.searchIndex, profiles⟩ → Effect s s'

/-- What an attempt leaves that returned `COMPLETED`. -/
structure Finished (s s' : Stores) (extraction : ExtractionResult) (plan : GraphWritePlan)
    (vectors : List (List Rat)) : Prop where
  extract_ok : call.extract d = .ok extraction
  build_ok : ∃ profiles, call.build d s extraction = (.ok plan, profiles) ∧ s'.profiles = profiles
  written : WroteAll plan s.graphStore s'.graphStore
  embed_ok : call.env.embedder.embedAll (extraction.accepted.map (·.text)) = .ok vectors
  chunks_eq : s'.chunks = s.chunks
  indexed : Indexed d call (extraction.accepted.zip vectors) s s'
  rows : ∀ item ∈ extraction.accepted.zip vectors, HasRows d call item.1 s'

variable {d call}

theorem triple_extraction (s : Stores) :
    Triple (fun t => t = s) (call.extractionStage d)
      (fun extraction t => call.extract d = .ok extraction ∧ ∃ audit, t = { s with audit })
      (fun t => ∃ audit, t = { s with audit }) := by
  refine Triple.op (fun t ht => ⟨s.audit, ht⟩) fun t extraction t' ht heq => ?_
  subst ht
  cases hextract : call.extract d with
  | error e =>
      rw [hextract] at heq
      cases heq
  | ok result =>
      rw [hextract] at heq
      cases heq
      exact ⟨⟨rfl, _, rfl⟩, _, rfl⟩

theorem triple_graphPlan (s : Stores) (extraction : ExtractionResult) :
    Triple (fun t => ∃ audit, t = { s with audit }) (call.graphPlanStage d extraction)
      (fun plan t => ∃ audit profiles, call.build d s extraction = (.ok plan, profiles) ∧
        t = { s with audit, profiles })
      (fun t => ∃ audit result profiles, call.build d s extraction = (result, profiles) ∧
        t = { s with audit, profiles }) := by
  -- the plan reads neither the audit trail nor the clock of the stores
  refine Triple.ofState ?_ ?_
  · rintro t plan t' ⟨audit, rfl⟩ heq
    obtain ⟨hplan, rfl⟩ := Prod.mk.inj heq
    exact ⟨audit, _, Prod.ext hplan rfl, rfl⟩
  · rintro t e t' ⟨audit, rfl⟩ heq
    obtain ⟨hplan, rfl⟩ := Prod.mk.inj heq
    exact ⟨audit, _, _, Prod.ext hplan rfl, rfl⟩

theorem triple_graphWrite (s : Stores) (plan : GraphWritePlan) :
    Triple (fun t => t = s) (Call.graphWriteStage plan)
      (fun _ t => ∃ graphStore, WroteAll plan s.graphStore graphStore ∧ t = { s with graphStore })
      (fun t => ∃ graphStore, Wrote plan s.graphStore graphStore ∧ t = { s with graphStore }) := by
  refine Triple.zoom (triple_writePlan_wrote plan s.graphStore) ?_ ?_ ?_
  · rintro t rfl
    rfl
  · rintro t graphStore _ rfl hwrote
    exact ⟨graphStore, hwrote, rfl⟩
  · rintro t graphStore rfl hwrote
    exact ⟨graphStore, hwrote, rfl⟩

/-- Only the two index tables differ. -/
def SameBut (s t : Stores) : Prop :=
  t = ⟨s.chunks, s.audit, s.graphStore, t.embeddings, t.searchIndex, s.profiles⟩

theorem SameBut.refl (s : Stores) : SameBut s s := rfl

theorem SameBut.trans {s t u : Stores} (h : SameBut s t) (h' : SameBut t u) : SameBut s u := by
  unfold SameBut at h h' ⊢
  rw [h', h]

theorem triple_indexFact (s : Stores) {item : ExtractedMemoryCandidate × List Rat}
    (hitem : item ∈ items) (done : List (ExtractedMemoryCandidate × List Rat)) :
    Triple (fun t => SameBut s t ∧ Indexed d call items s t ∧ ∀ i ∈ done, HasRows d call i.1 t)
      (call.indexFact d item)
      (fun _ t => SameBut s t ∧ Indexed d call items s t ∧
        ∀ i ∈ done ++ [item], HasRows d call i.1 t)
      (fun t => SameBut s t ∧ Indexed d call items s t) := by
  refine Triple.bind (R := fun _ t => SameBut s t ∧ Indexed d call items s t ∧
    (∀ i ∈ done, HasRows d call i.1 t) ∧ ∃ row, t.embeddings (call.embeddingKey item.1) = some row ∧
      row.embeddedContentHash = "sha256:" ++ d.sha256 item.1.text) ?_ fun _ => ?_
  · refine Triple.op (fun t ht => ⟨ht.1, ht.2.1⟩) ?_
    rintro t ⟨⟩ t' ⟨hsame, hindexed, hdone⟩ heq
    obtain ⟨hindexed', hsame', hrow⟩ := putEmbedding_eq_ok hitem heq
    have hsame'' : SameBut s t' := hsame.trans (by
      unfold SameBut
      rw [hsame'])
    refine ⟨⟨hsame'', hindexed.trans hindexed', fun i hi => ?_, hrow⟩, hsame'',
      hindexed.trans hindexed'⟩
    exact (hdone i hi).mono hindexed'
  · refine Triple.op (fun t ht => ⟨ht.1, ht.2.1⟩) ?_
    rintro t ⟨⟩ t' ⟨hsame, hindexed, hdone, hrow⟩ heq
    cases heq
    have hput : Indexed d call items t (call.putSearch item.1 t) ∧ ∃ row,
        (call.putSearch item.1 t).searchIndex item.1.candidateId = some row :=
      putSearch_indexed hitem t
    obtain ⟨hindexed', hfound⟩ := hput
    have hsame' : SameBut s (call.putSearch item.1 t) := hsame.trans rfl
    refine ⟨⟨hsame', hindexed.trans hindexed', fun i hi => ?_⟩, hsame', hindexed.trans hindexed'⟩
    rcases List.mem_append.mp hi with hi | hi
    · exact (hdone i hi).mono hindexed'
    · rw [List.mem_singleton.mp hi]
      exact ⟨hrow, hfound⟩

theorem triple_embeddings (s : Stores) (extraction : ExtractionResult) :
    Triple (fun t => t = s) (call.embeddingsStage d extraction)
      (fun _ t => ∃ vectors,
        call.env.embedder.embedAll (extraction.accepted.map (·.text)) = .ok vectors ∧
        SameBut s t ∧ Indexed d call (extraction.accepted.zip vectors) s t ∧
        ∀ item ∈ extraction.accepted.zip vectors, HasRows d call item.1 t)
      (fun t => t = s ∨ ∃ vectors,
        call.env.embedder.embedAll (extraction.accepted.map (·.text)) = .ok vectors ∧
        SameBut s t ∧ Indexed d call (extraction.accepted.zip vectors) s t) := by
  refine Triple.bind (R := fun vectors t => t = s ∧
    call.env.embedder.embedAll (extraction.accepted.map (·.text)) = .ok vectors) ?_ fun vectors => ?_
  · refine Triple.ofState ?_ ?_
    · rintro t vectors t' rfl heq
      obtain ⟨hvectors, rfl⟩ := Prod.mk.inj heq
      exact ⟨rfl, hvectors⟩
    · rintro t e t' rfl heq
      obtain ⟨-, rfl⟩ := Prod.mk.inj heq
      exact Or.inl rfl
  · intro t fs ht
    obtain ⟨rfl, hvectors⟩ := ht
    have hloop := Triple.forEach (f := call.indexFact d)
      (fun done u => SameBut t u ∧ Indexed d call (extraction.accepted.zip vectors) t u ∧
        ∀ item ∈ done, HasRows d call item.1 u) (extraction.accepted.zip vectors)
      fun done item rest hsplit => triple_indexFact t (by rw [hsplit]; simp) done
    refine hloop.weaken (fun _ h => h) (fun _ u hu => ?_) (fun u hu => ?_) t fs
      ⟨SameBut.refl t, Indexed.refl _ t, by simp⟩
    · exact ⟨vectors, hvectors, hu.1, hu.2.1, hu.2.2⟩
    · exact Or.inr ⟨vectors, hvectors, hu.1, hu.2⟩

theorem triple_verification (s : Stores) :
    Triple (fun t => t = s) (call.verificationStage d) (fun _ t => t = s) (fun t => t = s) := by
  refine Triple.op (fun t ht => ht) fun t _ t' ht heq => ?_
  have hsame : t' = t := by
    split at heq
    · split at heq
      · cases heq
        rfl
      · cases heq
    · cases heq
  exact ⟨hsame.trans ht, hsame.trans ht⟩

/-- A stage keeps whatever is known about the job table. -/
theorem triple_onStores_of {α : Type} {P : Stores → Prop} {Q : α → Stores → Prop}
    {C D : Stores → Prop} {K : JobTable → Prop} {p : Prog Stores Exn α} (h : Triple P p Q C)
    (hC : ∀ t, C t → D t) :
    Triple (fun w => P w.stores ∧ K w.jobs) (onStores p) (fun a w => Q a w.stores ∧ K w.jobs)
      (fun w => D w.stores ∧ K w.jobs) := by
  apply triple_onStores h
  · intro w hw
    exact hw.1
  · intro w t a hw hQ
    exact ⟨hQ, hw.2⟩
  · intro w t hw ht
    exact ⟨hC t ht, hw.2⟩

/-- No job is complete that was not complete in `before`. -/
def Within (before jobs : JobTable) : Prop := ∀ id, jobs.Done id → before.Done id

/-- A job transition does not touch the stores, and completes a job only as
`COMPLETED`. -/
theorem triple_transition_stores {P C : Stores → Prop} {before : JobTable} {chunkId : String}
    {state : IngestionJobState} {error : Option String} (hstate : state ≠ .completed)
    (hC : ∀ t, P t → C t) :
    Triple (fun w => P w.stores ∧ Within before w.jobs) (transition chunkId state error)
      (fun _ (w : World Stores) => P w.stores ∧ Within before w.jobs)
      (fun w => C w.stores ∧ Within before w.jobs) := by
  apply triple_transition
  · intro w hw
    exact ⟨hC _ hw.1, hw.2⟩
  · intro w job hw _ _
    have hwithin : Within before (Function.update w.jobs chunkId (some (job.advance state error))) :=
      fun id hid => hw.2 id (JobTable.Done.of_update hstate hid)
    exact ⟨⟨hw.1, hwithin⟩, hC _ hw.1, hwithin⟩

/-- After a complete graph write. -/
def WrittenTo (d : Deployment) (call : Call) (s : Stores) (extraction : ExtractionResult)
    (plan : GraphWritePlan) (t : Stores) : Prop :=
  call.extract d = .ok extraction ∧ ∃ audit profiles graphStore,
    call.build d s extraction = (.ok plan, profiles) ∧ WroteAll plan s.graphStore graphStore ∧
      t = { s with audit, profiles, graphStore }

theorem WrittenTo.effect {s t : Stores} {extraction : ExtractionResult} {plan : GraphWritePlan}
    (h : WrittenTo d call s extraction plan t) : Effect d call s t := by
  obtain ⟨hextract, audit, profiles, graphStore, hbuild, hwrote, ht⟩ := h
  exact .wrote audit hextract hbuild hwrote.wrote ht

theorem triple_writeTo (s : Stores) (extraction : ExtractionResult) (plan : GraphWritePlan)
    (hextract : call.extract d = .ok extraction) :
    Triple (fun t => ∃ audit profiles, call.build d s extraction = (.ok plan, profiles) ∧
        t = { s with audit, profiles }) (Call.graphWriteStage plan)
      (fun _ t => WrittenTo d call s extraction plan t) (Effect d call s) := by
  refine Triple.of_state fun t ht => ?_
  obtain ⟨audit, profiles, hbuild, rfl⟩ := ht
  refine (triple_graphWrite _ plan).weaken (fun _ h => h) ?_ ?_
  · rintro _ t ⟨graphStore, hwrote, rfl⟩
    exact ⟨hextract, audit, profiles, graphStore, hbuild, hwrote, rfl⟩
  · rintro t ⟨graphStore, hwrote, rfl⟩
    exact .wrote audit hextract hbuild hwrote rfl

theorem triple_indexTo (s : Stores) (extraction : ExtractionResult) (plan : GraphWritePlan) :
    Triple (fun t => WrittenTo d call s extraction plan t) (call.embeddingsStage d extraction)
      (fun _ t => ∃ vectors, Finished d call s t extraction plan vectors ∧ Effect d call s t)
      (Effect d call s) := by
  refine Triple.of_state fun t ht => ?_
  have heffect := ht.effect
  obtain ⟨hextract, audit, profiles, graphStore, hbuild, hwrote, rfl⟩ := ht
  have hend : ∀ {u vectors},
      call.env.embedder.embedAll (extraction.accepted.map (·.text)) = .ok vectors →
      SameBut { s with audit, profiles, graphStore } u →
      Indexed d call (extraction.accepted.zip vectors) { s with audit, profiles, graphStore } u →
      Effect d call s u ∧ Indexed d call (extraction.accepted.zip vectors) s u := by
    intro u vectors hvectors hsame hindexed
    have hindexed' : Indexed d call (extraction.accepted.zip vectors) s u :=
      ⟨hindexed.embedding_kept, hindexed.embedding_new, hindexed.search_kept, hindexed.search_new⟩
    exact ⟨.indexed audit hextract hbuild hwrote hvectors hindexed' hsame, hindexed'⟩
  refine (triple_embeddings _ extraction).weaken (fun _ h => h) ?_ ?_
  · rintro _ u ⟨vectors, hvectors, hsame, hindexed, hrows⟩
    obtain ⟨heffect', hindexed'⟩ := hend hvectors hsame hindexed
    have hu : u.graphStore = graphStore ∧ u.profiles = profiles ∧ u.chunks = s.chunks := by
      unfold SameBut at hsame
      rw [hsame]
      exact ⟨rfl, rfl, rfl⟩
    refine ⟨vectors, ⟨hextract, ⟨profiles, hbuild, hu.2.1⟩, ?_, hvectors, hu.2.2, hindexed', hrows⟩,
      heffect'⟩
    rw [hu.1]
    exact hwrote
  · rintro u (rfl | ⟨vectors, hvectors, hsame, hindexed⟩)
    · exact heffect
    · exact (hend hvectors hsame hindexed).1

/-- Every complete job was complete before, or is the job of a call that finished. -/
def Accounted (d : Deployment) (call : Call) (s : Stores) (before : JobTable) (chunkId : String)
    (w : World Stores) : Prop :=
  ∀ id, w.jobs.Done id → before.Done id ∨ id = chunkId ∧
    ∃ extraction plan vectors, Finished d call s w.stores extraction plan vectors

theorem Within.accounted {s : Stores} {before : JobTable} {chunkId : String} {w : World Stores}
    (h : Within before w.jobs) : Accounted d call s before chunkId w :=
  fun id hid => Or.inl (h id hid)

/-- **One pass over the stages.** Wherever it stops, the stores are an effect of
the call and every complete job is accounted for; a pass that returns has
finished the chunk. -/
theorem triple_runStages (s : Stores) (before : JobTable) (chunkId : String) :
    Triple (fun w => w.stores = s ∧ Within before w.jobs) (runStages (call.stages d) chunkId)
      (fun _ w => Effect d call s w.stores ∧ Accounted d call s before chunkId w ∧
        ∃ extraction plan vectors, Finished d call s w.stores extraction plan vectors)
      (fun w => Effect d call s w.stores ∧ Accounted d call s before chunkId w) := by
  have hexit : ∀ w : World Stores, Effect d call s w.stores ∧ Within before w.jobs →
      Effect d call s w.stores ∧ Accounted d call s before chunkId w :=
    fun w hw => ⟨hw.1, hw.2.accounted⟩
  refine Triple.bind ((triple_onStores_of (D := Effect d call s) (triple_extraction s) ?_).weaken
    (fun _ h => h) (fun _ _ h => h) hexit) fun extraction => ?_
  · rintro t ⟨audit, rfl⟩
    exact .extracted audit rfl
  refine Triple.of_state fun w hw => ?_
  obtain ⟨⟨hextract, hstart⟩, hwithin⟩ := hw
  refine Triple.bind (R := fun plan w => (∃ audit profiles,
    call.build d s extraction = (.ok plan, profiles) ∧ w.stores = { s with audit, profiles }) ∧
      Within before w.jobs)
    ((triple_onStores_of (D := Effect d call s) (triple_graphPlan s extraction) ?_).weaken
      (fun t ht => ht ▸ ⟨hstart, hwithin⟩) (fun _ _ h => h) hexit) fun plan => ?_
  · rintro t ⟨audit, result, profiles, hbuild, rfl⟩
    exact .planned audit hextract hbuild rfl
  refine Triple.bind ((triple_onStores_of (triple_writeTo s extraction plan hextract)
    fun _ h => h).weaken (fun _ h => h) (fun _ _ h => h) hexit) fun _ => ?_
  have hwritten : ∀ t, WrittenTo d call s extraction plan t → Effect d call s t :=
    fun t ht => ht.effect
  refine Triple.bind ((triple_transition_stores (by simp) hwritten).weaken (fun _ h => h)
    (fun _ _ h => h) hexit) fun _ => ?_
  refine Triple.bind ((triple_onStores_of (triple_indexTo s extraction plan)
    fun _ h => h).weaken (fun _ h => h) (fun _ _ h => h) hexit) fun _ => ?_
  have hkeep : ∀ t, (∃ vectors, Finished d call s t extraction plan vectors ∧ Effect d call s t) →
      Effect d call s t := fun t ⟨_, _, heffect⟩ => heffect
  refine Triple.bind ((triple_transition_stores (by simp) hkeep).weaken (fun _ h => h)
    (fun _ _ h => h) hexit) fun _ => ?_
  refine Triple.bind (R := fun _ w => (∃ vectors, Finished d call s w.stores extraction plan vectors ∧
    Effect d call s w.stores) ∧ Within before w.jobs) (Triple.of_state fun w hw => ?_) fun _ => ?_
  · refine (triple_onStores_of (D := fun t => t = w.stores) (K := Within before)
      (triple_verification w.stores) fun _ h => h).weaken (fun t ht => by rw [ht]; exact ⟨rfl, hw.2⟩)
      (fun _ u hu => ?_) fun u hu => hexit u ?_
    · rw [hu.1]
      exact ⟨hw.1, hu.2⟩
    · rw [hu.1]
      exact ⟨hkeep _ hw.1, hu.2⟩
  -- only here a job becomes complete, and the call has finished
  refine Triple.bind (R := fun _ w => Effect d call s w.stores ∧
    Accounted d call s before chunkId w ∧ ∃ vectors, Finished d call s w.stores extraction plan
      vectors) ?_ fun _ => Triple.pure fun w hw => ?_
  · apply triple_transition
    · intro w hw
      exact hexit w ⟨hkeep _ hw.1, hw.2⟩
    · rintro w job ⟨⟨vectors, hfinished, heffect⟩, hwithin⟩ - -
      have haccounted : Accounted d call s before chunkId { w with
          jobs := Function.update w.jobs chunkId (some (job.advance .completed none)) } := by
        intro id hid
        by_cases hsame : id = chunkId
        · exact Or.inr ⟨hsame, extraction, plan, vectors, hfinished⟩
        · obtain ⟨row, hrow, hstate⟩ := hid
          refine Or.inl (hwithin id ⟨row, ?_, hstate⟩)
          exact (Function.update_of_ne hsame _ _).symm.trans hrow
      exact ⟨⟨heffect, haccounted, vectors, hfinished⟩, heffect, haccounted⟩
  · obtain ⟨heffect, haccounted, vectors, hfinished⟩ := hw
    exact ⟨heffect, haccounted, extraction, plan, vectors, hfinished⟩

/-- The handlers keep what holds of the stores and of the complete jobs. -/
theorem triple_onError (s : Stores) (before : JobTable) (chunkId : String) (e : Exn) :
    Triple (fun w => Effect d call s w.stores ∧ Accounted d call s before chunkId w)
      (onError chunkId e)
      (fun result w => result.state ≠ .completed ∧ Effect d call s w.stores ∧
        Accounted d call s before chunkId w)
      (fun w => Effect d call s w.stores ∧ Accounted d call s before chunkId w) := by
  have hfailed : ∀ b : Bool, (if b = true then IngestionJobState.terminalFailed
      else .retryableFailed) ≠ .completed := by decide
  refine Triple.bind (triple_safeTransition ?_) fun _ => Triple.pure fun w hw => ⟨hfailed _, hw⟩
  intro w job hw _ _
  exact ⟨hw.1, fun id hid => hw.2 id (JobTable.Done.of_update (hfailed _) hid)⟩

/-- **One attempt.** Wherever it stops, the stores are an effect of the call and
every complete job is accounted for. -/
theorem triple_attempt (s : Stores) (before : JobTable) (chunkId : String)
    (state : IngestionJobState) :
    Triple (fun w => w.stores = s ∧ Within before w.jobs)
      (runChunk (call.stages d) chunkId state)
      (fun _ w => Effect d call s w.stores ∧ Accounted d call s before chunkId w)
      (fun w => Effect d call s w.stores ∧ Accounted d call s before chunkId w) := by
  by_cases hres : Resumable state
  · rw [runChunk_of_resumable _ chunkId hres]
    apply Triple.catchAll (R := fun w => Effect d call s w.stores ∧
      Accounted d call s before chunkId w)
    · apply (triple_runStages s before chunkId).weaken (fun _ h => h) _ fun _ h => h
      intro result w hw
      exact ⟨hw.1, hw.2.1⟩
    · intro e
      apply (triple_onError s before chunkId e).weaken (fun _ h => h) _ fun _ h => h
      intro result w hw
      exact hw.2
    · exact fun _ h => h
  · obtain ⟨result, heq, -⟩ := runChunk_of_not_resumable (call.stages d) chunkId hres
    rw [heq]
    exact Triple.pure fun w hw => ⟨.extracted s.audit hw.1, hw.2.accounted⟩

/-- Reading the job row, or seeding it, leaves the stores alone and completes
nothing. -/
theorem triple_currentJob {P : Stores → Prop} {before : JobTable} :
    Triple (fun w => P w.stores ∧ Within before w.jobs) (call.currentJob d)
      (fun _ w => P w.stores ∧ Within before w.jobs)
      (fun w => P w.stores ∧ Within before w.jobs) := by
  refine Triple.bind (R := fun _ w => P w.stores ∧ Within before w.jobs)
    (Triple.op (fun w hw => hw) fun w found w' hw heq => ?_) fun found => ?_
  · cases heq
    exact ⟨hw, hw⟩
  · cases found with
    | some job => exact Triple.pure fun w hw => hw
    | none =>
        have hseed : Triple (fun w => P w.stores ∧ Within before w.jobs) (call.seedJob d)
            (fun _ w => P w.stores ∧ Within before w.jobs)
            (fun w => P w.stores ∧ Within before w.jobs) := by
          refine Triple.op (fun w hw => hw) fun w job w' hw heq => ?_
          have hwithin : Within before (w.jobs.seed (call.chunk d).chunkId
              (call.chunk d).contextId).2 := by
            intro id hid
            unfold JobTable.seed at hid
            split at hid
            · exact hw.2 id hid
            · exact hw.2 id (JobTable.Done.of_update (by simp [pendingJob]) hid)
          cases heq
          exact ⟨⟨hw.1, hwithin⟩, hw.1, hwithin⟩
        exact hseed

/-- What a call left: the chunk was refused or not reached and nothing happened, or it is stored
and the rest is an effect of the call, with every complete job accounted for. -/
def Ran (d : Deployment) (call : Call) (w w' : World Stores) : Prop :=
  (w'.stores = w.stores ∧ w'.jobs = w.jobs) ∨
    ∃ chunks jobs, w.stores.chunks.put w.jobs (call.chunk d) = .ok (chunks, jobs) ∧
      Effect d call { w.stores with chunks } w'.stores ∧
      Accounted d call { w.stores with chunks } w.jobs (call.chunk d).chunkId w'

/-- **One call.** -/
theorem triple_runRecord (w : World Stores) :
    Triple (fun v => v = w) (call.runRecord d) (fun _ v => Ran d call w v) (Ran d call w) := by
  refine Triple.bind (R := fun _ v => ∃ chunks jobs,
    w.stores.chunks.put w.jobs (call.chunk d) = .ok (chunks, jobs) ∧
      v.stores = { w.stores with chunks } ∧ Within w.jobs v.jobs) ?_ fun _ => ?_
  · refine Triple.op (fun v hv => Or.inl (by rw [hv]; exact ⟨rfl, rfl⟩)) fun v _ v' hv heq => ?_
    subst hv
    cases hput : v.stores.chunks.put v.jobs (call.chunk d) with
    | error e =>
        rw [hput] at heq
        cases heq
    | ok out =>
        obtain ⟨chunks, jobs⟩ := out
        have hwithin : Within v.jobs jobs := by
          intro id hid
          rcases ChunkTable.put_eq_ok hput with ⟨-, -, -, -, rfl⟩ | ⟨-, -, -, rfl⟩
          · exact hid
          · exact JobTable.Done.of_update (by simp [pendingJob]) hid
        rw [hput] at heq
        cases heq
        exact ⟨⟨chunks, jobs, rfl, rfl, hwithin⟩,
          Or.inr ⟨chunks, jobs, hput, .extracted _ rfl, hwithin.accounted⟩⟩
  · refine Triple.of_state fun v hv => ?_
    obtain ⟨chunks, jobs, hput, hstores, hwithin⟩ := hv
    have hread : Triple (fun u => u = v) (call.currentJob d)
        (fun _ u => u.stores = v.stores ∧ Within w.jobs u.jobs)
        (fun u => u.stores = v.stores ∧ Within w.jobs u.jobs) :=
      (triple_currentJob (P := fun t => t = v.stores)).weaken
        (fun u hu => by rw [hu]; exact ⟨rfl, hwithin⟩) (fun _ _ h => h) fun _ h => h
    refine Triple.bind (hread.weaken (fun _ h => h) (fun _ _ h => h) fun u hu => ?_) fun job => ?_
    · exact Or.inr ⟨chunks, jobs, hput, .extracted _ (hu.1.trans hstores), hu.2.accounted⟩
    · refine (triple_attempt v.stores w.jobs _ job.state).weaken (fun _ h => h) (fun _ u hu => ?_)
        fun u hu => ?_
      · exact Or.inr ⟨chunks, jobs, hput, hstores ▸ hu.1, hstores ▸ hu.2⟩
      · exact Or.inr ⟨chunks, jobs, hput, hstores ▸ hu.1, hstores ▸ hu.2⟩

theorem runRecord_ran (w : World Stores) (faults : List (Fault Exn)) :
    Ran d call w (call.runRecord d w faults).state :=
  (triple_runRecord w w faults rfl).always

theorem runRecord_effect (w : World Stores) (faults : List (Fault Exn)) :
    (call.runRecord d w faults).state.stores = w.stores ∨
      ∃ chunks jobs, w.stores.chunks.put w.jobs (call.chunk d) = .ok (chunks, jobs) ∧
        Effect d call { w.stores with chunks } (call.runRecord d w faults).state.stores := by
  rcases @runRecord_ran d call w faults with ⟨hsame, -⟩ | ⟨chunks, jobs, hput, heffect, -⟩
  · exact Or.inl hsame
  · exact Or.inr ⟨chunks, jobs, hput, heffect⟩

end Effects

/-- What an effect can do to the graph store, with the plan it came from. -/
theorem Effect.graph {d : Deployment} {call : Call} {s s' : Stores} (h : Effect d call s s') :
    s'.chunks = s.chunks ∧ (s'.graphStore = s.graphStore ∨ ∃ extraction plan profiles,
      call.extract d = .ok extraction ∧ call.build d s extraction = (.ok plan, profiles) ∧
        Wrote plan s.graphStore s'.graphStore) := by
  cases h with
  | extracted audit hs' =>
      rw [hs']
      exact ⟨rfl, Or.inl rfl⟩
  | planned audit hextract hbuild hs' =>
      rw [hs']
      exact ⟨rfl, Or.inl rfl⟩
  | wrote audit hextract hbuild hwrote hs' =>
      rw [hs']
      exact ⟨rfl, Or.inr ⟨_, _, _, hextract, hbuild, hwrote⟩⟩
  | indexed audit hextract hbuild hwrote hvectors hindexed hs' =>
      rw [hs']
      exact ⟨rfl, Or.inr ⟨_, _, _, hextract, hbuild, hwrote.wrote⟩⟩

/-- The registry after an effect: as it was, or as building a plan left it. -/
theorem Effect.profiles {d : Deployment} {call : Call} {s s' : Stores} (h : Effect d call s s') :
    s'.profiles = s.profiles ∨ ∃ extraction, call.extract d = .ok extraction ∧
      s'.profiles = (call.build d s extraction).2 := by
  cases h with
  | extracted audit hs' =>
      rw [hs']
      exact Or.inl rfl
  | planned audit hextract hbuild hs' =>
      rw [hs']
      exact Or.inr ⟨_, hextract, (congrArg Prod.snd hbuild).symm⟩
  | wrote audit hextract hbuild hwrote hs' =>
      rw [hs']
      exact Or.inr ⟨_, hextract, (congrArg Prod.snd hbuild).symm⟩
  | indexed audit hextract hbuild hwrote hvectors hindexed hs' =>
      rw [hs']
      exact Or.inr ⟨_, hextract, (congrArg Prod.snd hbuild).symm⟩

end ContextMemory
