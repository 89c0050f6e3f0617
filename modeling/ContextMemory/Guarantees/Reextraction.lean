/-
What a retry does with the production extractor.

`LLMExtractor` ends every exception of its call, so a provider failure is not an error of
the chunk: the chunk goes on as one without facts (`failed_extraction_is_empty`). A run
extracts again as long as the job is not complete. `PrefetchingExtractor` does the same to any
extractor it wraps, and hands over what waits under the record's id whatever record it was
(`extractAnswers_transparent_iff`).
-/

import ContextMemory.Ingestion.LlmExtractor
import ContextMemory.Ingestion.Batch
import ContextMemory.Ingestion.Fixture

namespace ContextMemory

open Faulty

/-! ### Which extraction a run reports -/

section Reporting

variable {d : Deployment} {call : Call}

/-- A result reports no facts, or those of this run's own extraction; it completes the chunk
only in the second case, unless the chunk was complete. -/
def Reports (d : Deployment) (call : Call) (currentState : IngestionJobState)
    (result : ChunkRunResult) : Prop :=
  (result.acceptedFactCount = 0 ∧ (result.state = .completed → currentState = .completed)) ∨
    ∃ extraction, call.extract d = .ok extraction ∧
      result.acceptedFactCount = extraction.accepted.length

/-- A pass over the stages reports the extraction it made. -/
theorem triple_runStages_reports (chunkId : String) (currentState : IngestionJobState) :
    Triple (fun _ => True) (runStages (call.stages d) chunkId)
      (fun result _ => Reports d call currentState result) (fun _ => True) := by
  have hextraction : Triple (fun _ => True) (onStores (call.stages d).extraction)
      (fun extraction _ => call.extract d = .ok extraction) (fun _ => True) := by
    refine Triple.of_state fun w _ => ?_
    refine triple_onStores (triple_extraction w.stores) ?_ ?_ ?_
    · rintro v rfl
      rfl
    · intro v s extraction _ h
      exact h.1
    · exact fun _ _ _ _ => trivial
  refine Triple.bind hextraction fun extraction => ?_
  -- the other stages have no say in the count
  intro w fs hextract
  refine Triple.bind (Triple.trivial _) (fun plan => ?_) w fs trivial
  refine Triple.bind (Triple.trivial _) fun _ => ?_
  refine Triple.bind (Triple.trivial _) fun _ => ?_
  refine Triple.bind (Triple.trivial _) fun _ => ?_
  refine Triple.bind (Triple.trivial _) fun _ => ?_
  refine Triple.bind (Triple.trivial _) fun _ => ?_
  refine Triple.bind (Triple.trivial _) fun _ => Triple.pure fun v _ => ?_
  exact Or.inr ⟨extraction, hextract, rfl⟩

theorem triple_runChunk_reports (chunkId : String) (currentState : IngestionJobState) :
    Triple (fun _ => True) (runChunk (call.stages d) chunkId currentState)
      (fun result _ => Reports d call currentState result) (fun _ => True) := by
  by_cases hres : Resumable currentState
  · rw [runChunk_of_resumable _ chunkId hres]
    refine Triple.catchAll (triple_runStages_reports chunkId currentState) (fun e => ?_)
      fun _ h => h
    refine Triple.bind (Triple.trivial _) fun _ => Triple.pure fun v _ => Or.inl ⟨rfl, ?_⟩
    intro hstate
    dsimp only at hstate
    split at hstate <;> cases hstate
  · cases currentState with
    | completed => exact Triple.pure fun _ _ => Or.inl ⟨rfl, fun _ => rfl⟩
    | terminalFailed => exact Triple.pure fun _ _ => Or.inl ⟨rfl, fun h => h⟩
    | manualRepair => exact Triple.pure fun _ _ => Or.inl ⟨rfl, fun h => h⟩
    | pendingGraph => exact absurd (by simp [Resumable]) hres
    | pendingEmbeddings => exact absurd (by simp [Resumable]) hres
    | verifying => exact absurd (by simp [Resumable]) hres
    | retryableFailed => exact absurd (by simp [Resumable]) hres

/-- The job that `run_record` finds is the stored one, or a new one. -/
theorem currentJob_eq_ok {w w' : World Stores} {fs fs' : List (Fault Exn)} {job : IngestionJob}
    (h : call.currentJob d w fs = ⟨.ok job, w', fs'⟩) :
    w.jobs (call.chunk d).chunkId = some job ∨
      (w.jobs (call.chunk d).chunkId = none ∧ job.state = .pendingGraph) := by
  obtain ⟨found, v, gs, hread, hrest⟩ := Prog.bind_eq_ok h
  have hop := Prog.op_eq_ok hread
  cases hop
  cases hjob : w.jobs (call.chunk d).chunkId with
  | some row =>
      rw [hjob] at hrest
      cases hrest
      exact Or.inl rfl
  | none =>
      rw [hjob] at hrest
      change call.seedJob d w gs = _ at hrest
      have hseed := Prog.op_eq_ok hrest
      refine Or.inr ⟨rfl, ?_⟩
      simp only [JobTable.seed, hjob] at hseed
      cases hseed
      rfl

/-- Storing a chunk completes no job and resets none. -/
theorem putChunk_done {w w' : World Stores} {fs fs' : List (Fault Exn)}
    (h : call.putChunk d w fs = ⟨.ok (), w', fs'⟩) (id : String) :
    w'.jobs.Done id ↔ w.jobs.Done id := by
  obtain ⟨chunks, jobs, hput, rfl⟩ := putChunk_eq_ok h
  rcases ChunkTable.put_eq_ok hput with ⟨-, -, -, -, rfl⟩ | ⟨-, hnone, -, rfl⟩
  · rfl
  · constructor
    · exact JobTable.Done.of_update (by simp [pendingJob])
    · rintro ⟨row, hrow, hstate⟩
      have hne : id ≠ (call.chunk d).chunkId := by
        rintro rfl
        rw [hnone] at hrow
        cases hrow
      exact ⟨row, (Function.update_of_ne hne _ _).trans hrow, hstate⟩

/-- **A run that completes a chunk extracted it.** -/
theorem runRecord_reports {w w' : World Stores} {fs fs' : List (Fault Exn)}
    {result : ChunkRunResult} (h : call.runRecord d w fs = ⟨.ok result, w', fs'⟩) :
    (result.acceptedFactCount = 0 ∧
        (result.state = .completed → w.jobs.Done (call.chunk d).chunkId)) ∨
      ∃ extraction, call.extract d = .ok extraction ∧
        result.acceptedFactCount = extraction.accepted.length := by
  obtain ⟨u, w₁, fs₁, hput, hrest⟩ := Prog.bind_eq_ok h
  obtain ⟨job, w₂, fs₂, hjob, hchunk⟩ := Prog.bind_eq_ok hrest
  have hreports : Reports d call job.state result := by
    have := @triple_runChunk_reports d call (call.chunk d).chunkId job.state
      w₂ fs₂ trivial
    rw [hchunk] at this
    exact this
  rcases hreports with ⟨hcount, hstate⟩ | hown
  · refine Or.inl ⟨hcount, fun hcompleted => ?_⟩
    rw [← putChunk_done hput]
    rcases currentJob_eq_ok hjob with hrow | ⟨-, hpending⟩
    · exact ⟨job, hrow, hstate hcompleted⟩
    · rw [hstate hcompleted] at hpending
      cases hpending
  · exact Or.inr hown

/-- A run on a complete job calls nothing of the outside world. -/
theorem runRecord_of_done {w : World Stores} {batch : ContextBatch} {record : ContextRecord}
    (h : w.jobs.Done (chunkIdFor d.sha256 batch.contextId record.recordId)) (env env' : Env)
    (fs : List (Fault Exn)) :
    (Call.mk env batch record).runRecord d w fs = (Call.mk env' batch record).runRecord d w fs := by
  apply Prog.bind_congr
  intro u w₁ fs₁ hput
  apply Prog.bind_congr
  intro job w₂ fs₂ hjob
  have hdone := (putChunk_done hput _).mpr h
  obtain ⟨row, hrow, hstate⟩ := hdone
  have hcompleted : job.state = .completed := by
    rcases currentJob_eq_ok hjob with hfound | ⟨hnone, -⟩
    · obtain rfl := Option.some.inj (hfound.symm.trans hrow)
      exact hstate
    · cases hnone.symm.trans hrow
  rw [hcompleted]
  rfl

end Reporting

/-! ### A failed call -/

section FailedCalls

variable (d : Deployment)

/-- An extractor that finds nothing in any record. -/
def noFacts : Extractor where
  name := "llm-extractor"
  version := "v1"
  extract _ := .ok []

/-- What the extractor answers for the record is all a run sees of it. -/
theorem runRecord_of_extract (env : Env) (batch : ContextBatch) (record : ContextRecord)
    {x y : Extractor} (hname : x.name = y.name) (hversion : x.version = y.version)
    (hextract : x.extract record = y.extract record) :
    (Call.mk { env with extractor := x } batch record).runRecord d =
      (Call.mk { env with extractor := y } batch record).runRecord d := by
  have hservice : (Call.mk { env with extractor := x } batch record).extract d =
      (Call.mk { env with extractor := y } batch record).extract d := by
    simp only [Call.extract, extractChunk, hname, hversion, hextract]
    rfl
  have hstages : (Call.mk { env with extractor := x } batch record).stages d =
      (Call.mk { env with extractor := y } batch record).stages d := by
    simp only [Call.stages, Call.extractionStage, Call.recordExtraction, hservice, hname, hversion]
    rfl
  unfold Call.runRecord
  rw [hstages]
  rfl

/-- The call of a record with the production extractor. -/
def llmCall (env : Env) (llm : LLMExtractor) (session : ContextRecord → LLMSession) (route : Route)
    (batch : ContextBatch) (record : ContextRecord) : Call :=
  ⟨{ env with extractor := llm.via session batch route }, batch, record⟩

/-- **A failed call is an empty extraction.** Directly or behind the prefetching
cache, the chunk runs as one without facts, and may so be completed. A later run
extracts again unless the job is complete: whoever completes a job extracted it,
and a run on a complete job calls nothing. The extractor catches what its
retries leave, so the orchestrator never sees the failure. -/
theorem failed_extraction_is_empty (env : Env) (llm : LLMExtractor)
    (session : ContextRecord → LLMSession) (route : Route) {batch : ContextBatch}
    {record : ContextRecord} (hmem : record ∈ batch.records) {e : Exn}
    (hfail : llm.complete (session record) record = .error e) (w : World Stores)
    (fs : List (Fault Exn)) :
    (llmCall env llm session route batch record).runRecord d w fs =
        (Call.mk { env with extractor := noFacts } batch record).runRecord d w fs ∧
      (∀ result w' fs', (llmCall env llm session route batch record).runRecord d w fs =
        ⟨.ok result, w', fs'⟩ → result.acceptedFactCount = 0) ∧
      ∀ (later : World Stores) (gs : List (Fault Exn)),
        (later.jobs.Done (chunkIdFor d.sha256 batch.contextId record.recordId) →
          ∀ env₁ env₂ : Env, (Call.mk env₁ batch record).runRecord d later gs =
            (Call.mk env₂ batch record).runRecord d later gs) ∧
        (¬ later.jobs.Done (chunkIdFor d.sha256 batch.contextId record.recordId) →
          ∀ (env' : Env) (result : ChunkRunResult) (w' : World Stores) (fs' : List (Fault Exn)),
            (Call.mk env' batch record).runRecord d later gs = ⟨.ok result, w', fs'⟩ →
            result.state = .completed → ∃ extraction,
              (Call.mk env' batch record).extract d = .ok extraction ∧
              result.acceptedFactCount = extraction.accepted.length) := by
  have hempty : (llm.via session batch route).extract record = .ok [] := by
    rw [llm.via_extract session hmem route, llm.extract_of_failed hfail]
  have hsame : (llmCall env llm session route batch record).runRecord d =
      (Call.mk { env with extractor := noFacts } batch record).runRecord d := by
    apply runRecord_of_extract d env batch record
    · cases route <;> rfl
    · cases route <;> rfl
    · exact hempty
  refine ⟨by rw [hsame], ?_, fun later gs => ⟨?_, ?_⟩⟩
  · intro result w' fs' hrun
    rw [hsame] at hrun
    rcases runRecord_reports hrun with ⟨hcount, -⟩ | ⟨extraction, hextract, hcount⟩
    · exact hcount
    · obtain ⟨drafts, hdrafts, haccepted⟩ := extractChunk_eq_ok hextract
      cases hdrafts
      rw [hcount, haccepted]
      rfl
  · intro hdone env₁ env₂
    exact runRecord_of_done hdone env₁ env₂ gs
  · intro hopen env' result w' fs' hrun hstate
    rcases runRecord_reports hrun with ⟨-, hdone⟩ | hown
    · exact absurd (hdone hstate) hopen
    · exact hown

end FailedCalls

/-! ### An extractor to run -/

/-- The answer of the model to the first turn. -/
def bostonAnswer : String :=
  "\x7b\"facts\": [\x7b\"text\": \"Max lives in Boston.\", \"entities\": [\"Max\"], " ++
    "\"confidence\": 1.0\x7d]\x7d"

def bostonResponse : FactExtractionResponse :=
  ⟨[{ text := "Max lives in Boston.", entities := ["Max"], confidence := 1 }]⟩

/-- A client whose JSON library and schema know this one answer. -/
def fixtureLlm : LLMExtractor where
  client := { model := "fixture", json := ⟨fun text => text = bostonAnswer, fun _ _ => none⟩ }
  settings := { systemPrompt := "Extract facts." }
  schema := {
    name := "_FactExtractionResponse"
    typedef := "class FactExtractionResponse"
    jsonSchema := ""
    modelValidateJson := fun text => if text = bostonAnswer then .ok bostonResponse
      else .error (.valueError "Invalid JSON") }

def timedOut : LLMSession where
  provider _ _ := .error ⟨"Request timed out.", false⟩
  uuid4 _ := "3f444b0a3014"

theorem fixtureLlm_timedOut (record : ContextRecord) :
    fixtureLlm.complete timedOut record = .error (.provider "Request timed out.") := rfl

/-- The first turn, while the provider times out. -/
def timedOutCall (route : Route) : Call :=
  llmCall (fixtureEnv 1767258001 []) fixtureLlm (fun _ => timedOut) route (moveBatch nine ten)
    (bostonRecord nine)

/-- The model times out for the first turn. The run is the one of an extractor
that finds no facts. -/
theorem failed_extraction_is_empty_boston :
    bostonRecord nine ∈ (moveBatch nine ten).records ∧
      fixtureLlm.complete timedOut (bostonRecord nine) = .error (.provider "Request timed out.") ∧
      (timedOutCall .direct).runRecord fixtureDeployment .initial [] =
        (Call.mk { fixtureEnv 1767258001 [] with extractor := noFacts } (moveBatch nine ten)
          (bostonRecord nine)).runRecord fixtureDeployment .initial [] :=
  ⟨List.mem_cons_self, fixtureLlm_timedOut _, (failed_extraction_is_empty fixtureDeployment
    (fixtureEnv 1767258001 []) fixtureLlm (fun _ => timedOut) .direct List.mem_cons_self
    (fixtureLlm_timedOut (bostonRecord nine)) .initial []).1⟩

/-- The provider times out, and the job is complete when the run returns: the
turn is lost, directly and behind the cache. -/
theorem failed_extraction_completed :
    fixtureLlm.complete timedOut (bostonRecord nine) = .error (.provider "Request timed out.") ∧
      ((timedOutCall .direct).runRecord fixtureDeployment .initial []).state.jobs.Done
        (chunkIdFor fixtureDeployment.sha256 "chat" "boston") ∧
      ((timedOutCall .prefetched).runRecord fixtureDeployment .initial []).state.jobs.Done
        (chunkIdFor fixtureDeployment.sha256 "chat" "boston") := by
  refine ⟨fixtureLlm_timedOut _, ?_, ?_⟩
  · rw [JobTable.done_iff]
    decide +kernel
  · rw [JobTable.done_iff]
    decide +kernel

/-! ### Behind the cache -/

/-- A prefetching extractor answers as the extractor it wraps exactly when, at
each `extract`, the record that waits under the id (if one does) was extracted
to the drafts of the record asked for. A record whose extraction raised waits
with no drafts, so what the wrapped extractor would raise again comes out as an
empty answer. -/
theorem extractAnswers_transparent_iff (inner : ContextRecord → Except Exn (List ExtractionDraft))
    (calls : List ExtractorCall) :
    (∀ answer ∈ extractAnswers inner (fun _ => none) calls, answer.2 = inner answer.1) ↔
      ∀ before record after, calls = before ++ .extract record :: after →
        ∀ waited, waiting record.recordId before = some waited →
          inner record = .ok (match inner waited with | .ok drafts => drafts | .error _ => []) := by
  have hcached : ∀ waited, cachedDrafts inner waited =
      match inner waited with | .ok drafts => drafts | .error _ => [] := by
    intro waited
    unfold cachedDrafts
    cases inner waited <;> rfl
  constructor
  · intro h before record after hcalls waited hwaited
    have hanswer := h _ ((mem_extractAnswers _).mpr ⟨before, record, after, hcalls, rfl⟩)
    simp only [extractCached_of_waiting, hwaited] at hanswer
    rw [← hcached]
    exact hanswer.symm
  · intro h answer hanswer
    obtain ⟨before, record, after, hcalls, rfl⟩ := (mem_extractAnswers _).mp hanswer
    simp only [extractCached_of_waiting]
    cases hwaited : waiting record.recordId before with
    | none => rfl
    | some waited =>
        rw [h before record after hcalls waited hwaited, ← hcached]

/-- An extractor that always raises, behind the cache: the prefetched turn is
extracted to no drafts, and nothing is raised. -/
theorem prefetched_failure_not_raised :
    extractAnswers (fun _ => .error (.provider "Request timed out.")) (fun _ => none)
        [.prefetch [bostonRecord nine] [bostonRecord nine] (List.Perm.refl _),
          .extract (bostonRecord nine)] =
      [(bostonRecord nine, .ok [])] ∧
    ¬ ∀ (inner : ContextRecord → Except Exn (List ExtractionDraft)) (calls : List ExtractorCall),
      ∀ answer ∈ extractAnswers inner (fun _ => none) calls, answer.2 = inner answer.1 := by
  have hrun : extractAnswers (fun _ => .error (.provider "Request timed out.")) (fun _ => none)
        [.prefetch [bostonRecord nine] [bostonRecord nine] (List.Perm.refl _),
          .extract (bostonRecord nine)] =
      [(bostonRecord nine, .ok [])] := by decide +kernel
  refine ⟨hrun, fun h => ?_⟩
  have hraised := h (fun _ => .error (.provider "Request timed out."))
    [.prefetch [bostonRecord nine] [bostonRecord nine] (List.Perm.refl _),
      .extract (bostonRecord nine)] (bostonRecord nine, .ok []) (hrun ▸ List.mem_cons_self)
  cases hraised

end ContextMemory
