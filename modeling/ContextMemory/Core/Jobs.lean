/-
The recovery state machine of an ingestion job (`core/enums.py` and
`PostgresJobStore` in `persistence/postgres.py`).

A job row carries its state and `last_verified_state`, the non-terminal state it
last left. Whether a transition is legal depends on both: a job that failed
retryably resumes from what it had reached, so the table alone does not say where
a replay may go.
-/

import Mathlib.Logic.Function.Basic
import ContextMemory.Core.Models

namespace ContextMemory

inductive IngestionJobState where
  | pendingGraph | pendingEmbeddings | verifying | completed
  | retryableFailed | terminalFailed | manualRepair
deriving DecidableEq, Repr

namespace IngestionJobState

def value : IngestionJobState → String
  | .pendingGraph => "pending_graph"
  | .pendingEmbeddings => "pending_embeddings"
  | .verifying => "verifying"
  | .completed => "completed"
  | .retryableFailed => "retryable_failed"
  | .terminalFailed => "terminal_failed"
  | .manualRepair => "manual_repair"

/-- The position in `_FORWARD_ORDER`; `none` for the states outside it. -/
def forwardIndex : IngestionJobState → Option Nat
  | .pendingGraph => some 0
  | .pendingEmbeddings => some 1
  | .verifying => some 2
  | .completed => some 3
  | _ => none

/-- `_FAILURE_TRANSITIONS`. -/
def isFailure : IngestionJobState → Bool
  | .retryableFailed | .terminalFailed | .manualRepair => true
  | _ => false

/-- `_NON_TERMINAL_STATES`. -/
def isNonTerminal : IngestionJobState → Bool
  | .pendingGraph | .pendingEmbeddings | .verifying => true
  | _ => false

/-- `new in _FORWARD_ORDER and index(new) >= index(start)`. -/
def atOrAfter (new start : IngestionJobState) : Bool :=
  match new.forwardIndex, start.forwardIndex with
  | some n, some s => s ≤ n
  | _, _ => false

end IngestionJobState

/-- `is_legal_job_transition`. -/
def isLegalJobTransition (current new : IngestionJobState)
    (lastVerifiedState : Option IngestionJobState) : Bool :=
  match current with
  | .completed => false
  | .pendingGraph | .pendingEmbeddings | .verifying => new.isFailure || new.atOrAfter current
  | .retryableFailed =>
      new = .terminalFailed || new = .manualRepair ||
        new.atOrAfter (lastVerifiedState.getD .pendingGraph)
  | .terminalFailed => new = .manualRepair
  | .manualRepair => new.isNonTerminal || new = .terminalFailed

/-- One row of `ingestion_jobs`. -/
structure IngestionJob where
  jobId : String
  chunkId : String
  contextId : String
  state : IngestionJobState
  attemptCount : Nat := 0
  lastVerifiedState : Option IngestionJobState := none
  lastError : Option String := none
deriving DecidableEq

/-- `ingestion_jobs`, by its unique `chunk_id`. -/
abbrev JobTable := String → Option IngestionJob

/-- The row a chunk starts with. -/
def pendingJob (chunkId contextId : String) : IngestionJob where
  jobId := "job:" ++ chunkId
  chunkId := chunkId
  contextId := contextId
  state := .pendingGraph

/-- The row `transition` writes over `job`. -/
def IngestionJob.advance (job : IngestionJob) (newState : IngestionJobState) (error : Option String) :
    IngestionJob :=
  { job with
    state := newState
    attemptCount := if newState = .retryableFailed then job.attemptCount + 1 else job.attemptCount
    lastVerifiedState := if job.state.isFailure then job.lastVerifiedState else some job.state
    lastError := error }

@[simp] theorem IngestionJob.advance_state (job : IngestionJob) (newState : IngestionJobState)
    (error : Option String) : (job.advance newState error).state = newState := rfl

namespace JobTable

/-- `PostgresJobStore.seed`: `ON CONFLICT (chunk_id) DO NOTHING`, then the row is read back. -/
def seed (jobs : JobTable) (chunkId contextId : String) : IngestionJob × JobTable :=
  match jobs chunkId with
  | some job => (job, jobs)
  | none =>
      let job := pendingJob chunkId contextId
      (job, Function.update jobs chunkId (some job))

/-- `PostgresJobStore.transition`. -/
def transition (jobs : JobTable) (chunkId : String) (newState : IngestionJobState)
    (error : Option String) : Except Exn (IngestionJob × JobTable) :=
  match jobs chunkId with
  | none => .error (.illegalJobTransition ("no ingestion job for chunk_id " ++ chunkId))
  | some job =>
      if isLegalJobTransition job.state newState job.lastVerifiedState then
        let next := job.advance newState error
        .ok (next, Function.update jobs chunkId (some next))
      else
        .error (.illegalJobTransition ("chunk " ++ chunkId ++ ": " ++ job.state.value ++ " -> " ++
          newState.value ++ " is not a legal transition"))

/-- What a stored transition did, guard included. -/
theorem transition_eq_ok {jobs jobs' : JobTable} {chunkId : String} {newState : IngestionJobState}
    {error : Option String} {next : IngestionJob}
    (h : transition jobs chunkId newState error = .ok (next, jobs')) :
    ∃ job, jobs chunkId = some job ∧
      isLegalJobTransition job.state newState job.lastVerifiedState = true ∧
      next = job.advance newState error ∧ jobs' = Function.update jobs chunkId (some next) := by
  unfold transition at h
  split at h
  · cases h
  · rename_i job hjob
    split at h
    · rename_i hlegal
      cases h
      exact ⟨job, hjob, hlegal, rfl, rfl⟩
    · cases h

theorem transition_of_legal {jobs : JobTable} {chunkId : String} {newState : IngestionJobState}
    {error : Option String} {job : IngestionJob} (hjob : jobs chunkId = some job)
    (hlegal : isLegalJobTransition job.state newState job.lastVerifiedState = true) :
    transition jobs chunkId newState error =
      .ok (job.advance newState error,
        Function.update jobs chunkId (some (job.advance newState error))) := by
  simp only [transition, hjob, hlegal, if_true]

theorem transition_of_illegal {jobs : JobTable} {chunkId : String} {newState : IngestionJobState}
    (error : Option String) {job : IngestionJob} (hjob : jobs chunkId = some job)
    (hlegal : isLegalJobTransition job.state newState job.lastVerifiedState = false) :
    ∃ message, transition jobs chunkId newState error = .error (.illegalJobTransition message) := by
  simp only [transition, hjob, hlegal]
  exact ⟨_, rfl⟩

/-- The job of a chunk is stored in `COMPLETED`. -/
def Done (jobs : JobTable) (chunkId : String) : Prop :=
  ∃ job, jobs chunkId = some job ∧ job.state = .completed

theorem done_iff {jobs : JobTable} {chunkId : String} :
    jobs.Done chunkId ↔ (jobs chunkId).map (·.state) = some .completed := by
  simp [Done]

/-- A row that is not in `COMPLETED` completes no chunk. -/
theorem Done.of_update {jobs : JobTable} {chunkId id : String} {job : IngestionJob}
    (hjob : job.state ≠ .completed) (h : Done (Function.update jobs chunkId (some job)) id) :
    jobs.Done id := by
  obtain ⟨row, hrow, hstate⟩ := h
  by_cases hid : id = chunkId
  · rw [hid, Function.update_self] at hrow
    cases hrow
    exact absurd hstate hjob
  · rw [Function.update_of_ne hid] at hrow
    exact ⟨row, hrow, hstate⟩

end JobTable

/-- `COMPLETED` is absorbing: no transition leaves it. -/
theorem isLegalJobTransition_completed (new : IngestionJobState)
    (lastVerifiedState : Option IngestionJobState) :
    isLegalJobTransition .completed new lastVerifiedState = false := rfl

end ContextMemory
