/-
`IngestionOrchestrator.run_chunk` (`ingestion/orchestrator.py`).

The orchestrator drives one chunk through its stages and the job row through its
states. It is generic here in the stages and in the stores they work on: what it
does to the job row is the same whatever they are. Every attempt replays the whole
chunk from the top.
-/

import ContextMemory.Lib.Program
import ContextMemory.Core.Jobs

namespace ContextMemory

open Faulty

/-- The durable job table beside everything the stages work on. -/
structure World (σ : Type) where
  jobs : JobTable
  stores : σ

/-- The stages of one attempt, as they behave this time. -/
structure Stages (σ ε π : Type) where
  extraction : Prog σ Exn ε
  graphPlan : ε → Prog σ Exn π
  graphWrite : π → Prog σ Exn Unit
  embeddings : ε → Prog σ Exn Unit
  verification : Prog σ Exn Unit
  acceptedCount : ε → Nat

structure ChunkRunResult where
  chunkId : String
  state : IngestionJobState
  acceptedFactCount : Nat := 0
  error : Option String := none
deriving DecidableEq

/-- `isinstance(error, _TERMINAL_ERROR_TYPES)`. -/
def Exn.isTerminal : Exn → Bool
  | .contractValidation _ _ | .immutableRecordConflict _ | .graphPayloadConflict _ => true
  | _ => false

section Orchestrator

variable {σ ε π : Type}

/-- A stage runs on the stores; it never sees the job table. -/
def onStores {α : Type} (p : Prog σ Exn α) : Prog (World σ) Exn α :=
  Prog.zoom World.stores (fun w s => { w with stores := s }) p

/-- `job_store.transition(chunk_id, state, error=...)`. -/
def transition (chunkId : String) (state : IngestionJobState) (error : Option String := none) :
    Prog (World σ) Exn Unit :=
  Prog.op fun w => (w.jobs.transition chunkId state error).map fun out => ((), { w with jobs := out.2 })

/-- `_safe_transition`: whatever the store raises is dropped. -/
def safeTransition (chunkId : String) (state : IngestionJobState) (error : String) :
    Prog (World σ) Exn Unit :=
  Prog.catchAll (transition chunkId state (some error)) fun _ => pure ()

/-- The body of the `try` in `run_chunk`. -/
def runStages (stages : Stages σ ε π) (chunkId : String) : Prog (World σ) Exn ChunkRunResult := do
  let extraction ← onStores stages.extraction
  let plan ← onStores (stages.graphPlan extraction)
  onStores (stages.graphWrite plan)
  transition chunkId .pendingEmbeddings
  onStores (stages.embeddings extraction)
  transition chunkId .verifying
  onStores stages.verification
  transition chunkId .completed
  pure { chunkId, state := .completed, acceptedFactCount := stages.acceptedCount extraction }

/-- The two `except` clauses of `run_chunk`. -/
def onError (chunkId : String) (error : Exn) : Prog (World σ) Exn ChunkRunResult :=
  let failed : IngestionJobState := if error.isTerminal then .terminalFailed else .retryableFailed
  do
    safeTransition chunkId failed error.str
    pure { chunkId, state := failed, error := some error.str }

def blockedMessage : String := "blocked: requires manual repair, not auto-retried"

/-- `run_chunk`. -/
def runChunk (stages : Stages σ ε π) (chunkId : String) (currentState : IngestionJobState) :
    Prog (World σ) Exn ChunkRunResult :=
  match currentState with
  | .completed => pure { chunkId, state := .completed }
  | .terminalFailed => pure { chunkId, state := .terminalFailed, error := some blockedMessage }
  | .manualRepair => pure { chunkId, state := .manualRepair, error := some blockedMessage }
  | .pendingGraph | .pendingEmbeddings | .verifying | .retryableFailed =>
      Prog.catchAll (runStages stages chunkId) (onError chunkId)

/-- The states in which `run_chunk` starts the stages. -/
def Resumable (state : IngestionJobState) : Prop :=
  state = .pendingGraph ∨ state = .pendingEmbeddings ∨ state = .verifying ∨ state = .retryableFailed

instance (state : IngestionJobState) : Decidable (Resumable state) :=
  inferInstanceAs (Decidable (_ ∨ _ ∨ _ ∨ _))

theorem runChunk_of_resumable (stages : Stages σ ε π) (chunkId : String)
    {currentState : IngestionJobState} (h : Resumable currentState) :
    runChunk stages chunkId currentState =
      Prog.catchAll (runStages stages chunkId) (onError chunkId) := by
  rcases h with rfl | rfl | rfl | rfl <;> rfl

theorem runChunk_of_not_resumable (stages : Stages σ ε π) (chunkId : String)
    {currentState : IngestionJobState} (h : ¬ Resumable currentState) :
    ∃ result, runChunk stages chunkId currentState = pure result ∧ result.state = currentState := by
  cases currentState with
  | completed => exact ⟨_, rfl, rfl⟩
  | terminalFailed => exact ⟨_, rfl, rfl⟩
  | manualRepair => exact ⟨_, rfl, rfl⟩
  | pendingGraph => exact absurd (by simp [Resumable]) h
  | pendingEmbeddings => exact absurd (by simp [Resumable]) h
  | verifying => exact absurd (by simp [Resumable]) h
  | retryableFailed => exact absurd (by simp [Resumable]) h

variable {P : World σ → Prop} {C : World σ → Prop}

theorem triple_onStores {α : Type} {p : Prog σ Exn α} {Q : α → World σ → Prop}
    {P' : σ → Prop} {Q' : α → σ → Prop} {C' : σ → Prop} (hp : Triple P' p Q' C')
    (hP : ∀ w, P w → P' w.stores) (hQ : ∀ w s a, P w → Q' a s → Q a { w with stores := s })
    (hC : ∀ w s, P w → C' s → C { w with stores := s }) : Triple P (onStores p) Q C :=
  Triple.zoom hp hP hQ hC

/-- A stored transition advanced a row legally; every other exit left the table
alone. -/
theorem triple_transition {chunkId : String} {state : IngestionJobState} {error : Option String}
    {Q : Unit → World σ → Prop} (hC : ∀ w, P w → C w)
    (hQ : ∀ w job, P w → w.jobs chunkId = some job →
      isLegalJobTransition job.state state job.lastVerifiedState = true →
      Q () { w with jobs := Function.update w.jobs chunkId (some (job.advance state error)) } ∧
      C { w with jobs := Function.update w.jobs chunkId (some (job.advance state error)) }) :
    Triple P (transition chunkId state error) Q C := by
  refine Triple.op hC fun w value w' hw heq => ?_
  cases htr : w.jobs.transition chunkId state error with
  | error refused =>
      rw [htr] at heq
      cases heq
  | ok out =>
      obtain ⟨next, jobs'⟩ := out
      rw [htr] at heq
      cases heq
      obtain ⟨job, hjob, hlegal, rfl, rfl⟩ := JobTable.transition_eq_ok htr
      exact hQ w job hw hjob hlegal

theorem triple_safeTransition {chunkId : String} {state : IngestionJobState} {error : String}
    (hP : ∀ w job, P w → w.jobs chunkId = some job →
      isLegalJobTransition job.state state job.lastVerifiedState = true →
      P { w with jobs := Function.update w.jobs chunkId (some (job.advance state (some error))) }) :
    Triple P (safeTransition chunkId state error) (fun _ => P) P := by
  refine Triple.catchAll (R := P) ?_ (fun _ => Triple.pure fun w hw => hw) fun w hw => hw
  refine triple_transition (fun w hw => hw) fun w job hw hjob hlegal => ?_
  have := hP w job hw hjob hlegal
  exact ⟨this, this⟩

end Orchestrator

end ContextMemory
