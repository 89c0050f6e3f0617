/-
Which failed attempts the job row knows about.

`run_chunk` computes the state it reports by itself and records it with `_safe_transition`,
which drops whatever the store raises. `RETRYABLE_FAILED` to itself is not a legal
transition, and a replay re-enters a non-terminal state only when the graph is written
(`PENDING_EMBEDDINGS`): a retry that fails before that leaves the row of the failure before
(`failures_accounted_iff`).
-/

import ContextMemory.Ingestion.Recovery

namespace ContextMemory

open Faulty

section Accounting

variable {σ ε π : Type} {chunkId : String}

/-- The row in `w` accounts for a result that reports a failure, if `job` was the row before. -/
def FailureRecorded (chunkId : String) (job : IngestionJob) (result : ChunkRunResult) (w : World σ) :
    Prop :=
  result.state = .retryableFailed ∨ result.state = .terminalFailed →
    ∀ message, result.error = some message →
      ∃ row, w.jobs chunkId = some row ∧ row.state = result.state ∧
        row.lastError = some message ∧
        (result.state = .retryableFailed → row.attemptCount = job.attemptCount + 1)

/-- When the stages raise, the job store answers the recording call, `COMPLETED` is not stored,
and a retryable failure of a `RETRYABLE_FAILED` job came after the row had been moved on. A
blocked job was blocked with the text of the refusal. -/
def Recordable (chunkId : String) (w : World σ) (job : IngestionJob) (a : Attempt σ ε π) : Prop :=
  (job.state = .terminalFailed → job.lastError = some blockedMessage) ∧
    (Resumable job.state → ∀ error raised faults,
      runStages a.stages chunkId w a.faults = ⟨.raised error, raised, faults⟩ →
      faults.head? ≠ some .die →
        (∀ refusal, faults.head? ≠ some (.refuse refusal)) ∧ ¬ raised.jobs.Done chunkId ∧
          (error.isTerminal = true ∨ job.state ≠ .retryableFailed ∨
            raised.jobs chunkId ≠ some job))

/-- Attempts one after another that all report `RETRYABLE_FAILED` and can be recorded. -/
def FailInARow (chunkId : String) : World σ → List (Attempt σ ε π) → Prop
  | _, [] => True
  | w, a :: rest =>
      (∃ job result message, w.jobs chunkId = some job ∧
        (runChunk a.stages chunkId job.state w a.faults).exit = .ok result ∧
        result.state = .retryableFailed ∧ result.error = some message ∧
        Recordable chunkId w job a) ∧
      FailInARow chunkId (attempt chunkId w a) rest

/-! ### The row when the stages raise -/

/-- The row while the stages run: as it was, or moved on, and with the old count. -/
def Moved (chunkId : String) (job : IngestionJob) (w : World σ) : Prop :=
  ∃ row, w.jobs chunkId = some row ∧ row.attemptCount = job.attemptCount ∧
    (row = job ∨ row.state = .pendingEmbeddings ∨ row.state = .verifying ∨ row.state = .completed)

theorem triple_runStages_moved (stages : Stages σ ε π) (job : IngestionJob) :
    Triple (Moved chunkId job) (runStages stages chunkId) (fun _ => Moved chunkId job)
      (Moved chunkId job) := by
  refine triple_runStages_row (fun w s hw => hw) fun w row state hstate hw hrow _ => ?_
  obtain ⟨row', hrow', hcount, -⟩ := hw
  obtain rfl : row = row' := Option.some.inj (hrow.symm.trans hrow')
  refine ⟨_, Function.update_self _ _ _, ?_, Or.inr hstate⟩
  rcases hstate with rfl | rfl | rfl <;> exact hcount

/-- From a row the stages run on, the failed states can be reached, except from
`COMPLETED` and from `RETRYABLE_FAILED` to itself. -/
theorem legal_failure_iff {row : IngestionJob} {terminal : Bool}
    (h : Resumable row.state ∨ row.state = .completed) :
    isLegalJobTransition row.state (if terminal then .terminalFailed else .retryableFailed)
        row.lastVerifiedState = true ↔
      row.state ≠ .completed ∧ (terminal = true ∨ row.state ≠ .retryableFailed) := by
  rcases h with (h | h | h | h) | h <;> cases terminal <;>
    simp [h, isLegalJobTransition, IngestionJobState.isFailure, IngestionJobState.atOrAfter,
      IngestionJobState.forwardIndex]

/-! ### The recording call -/

/-- The row after a recording call that the store answered. -/
def recorded (chunkId : String) (state : IngestionJobState) (error : String) (w : World σ)
    (row : IngestionJob) : World σ :=
  if isLegalJobTransition row.state state row.lastVerifiedState then
    { w with jobs := Function.update w.jobs chunkId (some (row.advance state (some error))) }
  else w

/-- `_safe_transition`, whatever happens to its call. -/
theorem safeTransition_eq (state : IngestionJobState) (error : String) {w : World σ}
    {row : IngestionJob} (hrow : w.jobs chunkId = some row) (faults : List (Fault Exn)) :
    safeTransition chunkId state error w faults =
      match faults.head? with
      | some .die => ⟨.died, w, faults.tail⟩
      | some (.refuse _) => ⟨.ok (), w, faults.tail⟩
      | _ => ⟨.ok (), recorded chunkId state error w row, faults.tail⟩ := by
  have hstore : w.jobs.transition chunkId state (some error) =
      if isLegalJobTransition row.state state row.lastVerifiedState then
        .ok (row.advance state (some error),
          Function.update w.jobs chunkId (some (row.advance state (some error))))
      else .error (.illegalJobTransition ("chunk " ++ chunkId ++ ": " ++ row.state.value ++
        " -> " ++ state.value ++ " is not a legal transition")) := by
    simp only [JobTable.transition, hrow]
  unfold safeTransition transition Prog.catchAll Prog.op recorded
  cases hlegal : isLegalJobTransition row.state state row.lastVerifiedState with
  | true =>
      rw [hlegal, if_pos rfl] at hstore
      rcases faults with - | ⟨- | - | - | -, rest⟩ <;> simp only [hstore] <;> rfl
  | false =>
      rw [hlegal, if_neg Bool.false_ne_true] at hstore
      rcases faults with - | ⟨- | - | - | -, rest⟩ <;> simp only [hstore] <;> rfl

/-- The handler's result is that of the error, unless the process dies in it. -/
theorem onError_eq (error : Exn) {w : World σ} {row : IngestionJob}
    (hrow : w.jobs chunkId = some row) (faults : List (Fault Exn)) :
    onError chunkId error w faults =
      let failed : IngestionJobState :=
        if error.isTerminal then .terminalFailed else .retryableFailed
      match faults.head? with
      | some .die => ⟨.died, w, faults.tail⟩
      | some (.refuse _) => ⟨.ok { chunkId, state := failed, error := some error.str }, w, faults.tail⟩
      | _ => ⟨.ok { chunkId, state := failed, error := some error.str },
          recorded chunkId failed error.str w row, faults.tail⟩ := by
  unfold onError
  simp only [Bind.bind, Prog.bind, safeTransition_eq _ _ hrow faults]
  rcases faults with - | ⟨- | - | - | -, rest⟩ <;> rfl

/-! ### One attempt -/

/-- Stages that return have completed the chunk. -/
theorem triple_runStages_completed (stages : Stages σ ε π) (chunkId : String) :
    Triple (fun _ => True) (runStages stages chunkId)
      (fun result _ => result.state = .completed) (fun _ => True) := by
  refine Triple.bind (Triple.trivial _) fun extraction => ?_
  refine Triple.bind (Triple.trivial _) fun plan => ?_
  refine Triple.bind (Triple.trivial _) fun _ => ?_
  refine Triple.bind (Triple.trivial _) fun _ => ?_
  refine Triple.bind (Triple.trivial _) fun _ => ?_
  refine Triple.bind (Triple.trivial _) fun _ => ?_
  refine Triple.bind (Triple.trivial _) fun _ => ?_
  exact Triple.bind (Triple.trivial _) fun _ => Triple.pure fun _ _ => rfl

/-- A result that reports no failure needs no account. -/
theorem accounted_of_completed {job : IngestionJob} {result : ChunkRunResult} {w : World σ}
    (h : result.state = .completed ∨ result.state = .manualRepair) :
    FailureRecorded chunkId job result w := by
  intro hfailed
  rcases h with h | h <;> rcases hfailed with hfailed | hfailed <;>
    exact absurd (h.symm.trans hfailed) (by decide)

/-- The state an error is reported with. -/
abbrev failedState (error : Exn) : IngestionJobState :=
  if error.isTerminal then .terminalFailed else .retryableFailed

section Handler

variable {job row : IngestionJob} {error : Exn} {w : World σ}

/-- A row that was not moved to the failed state does not account for the error. -/
theorem not_accounted_of_unrecorded (hrow : w.jobs chunkId = some row)
    (hcount : row.attemptCount = job.attemptCount)
    (hrunning : Resumable row.state ∨ row.state = .completed) :
    ¬ FailureRecorded chunkId job
      { chunkId, state := failedState error, error := some error.str } w := by
  intro h
  cases hterminal : error.isTerminal with
  | true =>
      obtain ⟨row', hrow', hstate, -⟩ := h (Or.inr (by simp [hterminal])) _ rfl
      obtain rfl : row = row' := Option.some.inj (hrow.symm.trans hrow')
      simp only [failedState, hterminal, if_true] at hstate
      rcases hrunning with (h | h | h | h) | h <;> simp [hstate] at h
  | false =>
      obtain ⟨row', hrow', -, -, hnext⟩ := h (Or.inl (by simp [hterminal])) _ rfl
      obtain rfl : row = row' := Option.some.inj (hrow.symm.trans hrow')
      have hadded := hnext (by simp [hterminal])
      omega

/-- A call that the store answers is on record exactly when the transition is
legal. -/
theorem accounted_recorded_iff (hrow : w.jobs chunkId = some row)
    (hcount : row.attemptCount = job.attemptCount)
    (hrunning : Resumable row.state ∨ row.state = .completed) :
    FailureRecorded chunkId job { chunkId, state := failedState error, error := some error.str }
        (recorded chunkId (failedState error) error.str w row) ↔
      isLegalJobTransition row.state (failedState error) row.lastVerifiedState = true := by
  constructor
  · intro h
    by_contra hlegal
    rw [recorded, if_neg hlegal] at h
    exact not_accounted_of_unrecorded hrow hcount hrunning h
  · intro hlegal
    rw [recorded, if_pos hlegal]
    intro _ message hmessage
    refine ⟨_, Function.update_self _ _ _, rfl, hmessage, fun hretryable => ?_⟩
    simp only at hretryable
    simp [IngestionJob.advance, hretryable, hcount]

/-- What the handler leaves accounts for the error exactly when the store took
the transition. -/
theorem accounted_onError_iff (hres : Resumable job.state) (hrow : w.jobs chunkId = some row)
    (hcount : row.attemptCount = job.attemptCount)
    (hmoved : row = job ∨ row.state = .pendingEmbeddings ∨ row.state = .verifying ∨
      row.state = .completed) (faults : List (Fault Exn)) :
    (∀ result, (onError chunkId error w faults).exit = .ok result →
        FailureRecorded chunkId job result (onError chunkId error w faults).state) ↔
      (faults.head? ≠ some .die →
        (∀ refusal, faults.head? ≠ some (.refuse refusal)) ∧ ¬ w.jobs.Done chunkId ∧
          (error.isTerminal = true ∨ job.state ≠ .retryableFailed ∨
            w.jobs chunkId ≠ some job)) := by
  have hrunning : Resumable row.state ∨ row.state = .completed := by
    rcases hmoved with rfl | h | h | h
    · exact Or.inl hres
    · exact Or.inl (Or.inr (Or.inl h))
    · exact Or.inl (Or.inr (Or.inr (Or.inl h)))
    · exact Or.inr h
  have hdone : w.jobs.Done chunkId ↔ row.state = .completed := by
    rw [JobTable.done_iff, hrow, Option.map_some, Option.some_inj]
  have huntouched : (job.state ≠ .retryableFailed ∨ w.jobs chunkId ≠ some job) ↔
      row.state ≠ .retryableFailed := by
    rw [hrow, ne_eq (some row), Option.some_inj]
    constructor
    · rintro h hstate
      rcases hmoved with rfl | hmoved | hmoved | hmoved
      · exact h.elim (fun hne => hne hstate) fun hne => hne rfl
      · rw [hmoved] at hstate
        cases hstate
      · rw [hmoved] at hstate
        cases hstate
      · rw [hmoved] at hstate
        cases hstate
    · intro hne
      by_cases heq : row = job
      · exact Or.inl (heq ▸ hne)
      · exact Or.inr heq
  have hanswered : FailureRecorded chunkId job
        { chunkId, state := failedState error, error := some error.str }
        (recorded chunkId (failedState error) error.str w row) ↔
      ¬ w.jobs.Done chunkId ∧ (error.isTerminal = true ∨ job.state ≠ .retryableFailed ∨
        w.jobs chunkId ≠ some job) := by
    rw [accounted_recorded_iff hrow hcount hrunning, legal_failure_iff hrunning, hdone, huntouched]
  have hrefused : ¬ FailureRecorded chunkId job
      { chunkId, state := failedState error, error := some error.str } w :=
    not_accounted_of_unrecorded hrow hcount hrunning
  rw [onError_eq error hrow]
  rcases faults with - | ⟨- | refusal | - | -, rest⟩
  · simpa using hanswered
  · simpa using hanswered
  · simpa using hrefused
  · simpa using hanswered
  · simp

end Handler

/-- One attempt on a stored row accounts for the failure it reports exactly when
it is recordable. -/
theorem accounted_attempt_iff {w : World σ} {job : IngestionJob} (hjob : w.jobs chunkId = some job)
    (a : Attempt σ ε π) :
    (∀ result, (runChunk a.stages chunkId job.state w a.faults).exit = .ok result →
        FailureRecorded chunkId job result (attempt chunkId w a)) ↔ Recordable chunkId w job a := by
  simp only [attempt, hjob, Recordable]
  by_cases hres : Resumable job.state
  · have hopen : job.state ≠ .terminalFailed := by
      rcases hres with h | h | h | h <;> simp [h]
    simp only [hopen, hres, false_imp_iff, true_and, true_imp_iff]
    have hmoved := triple_runStages_moved a.stages job w a.faults ⟨job, hjob, rfl, Or.inl rfl⟩
    have hreturned := triple_runStages_completed a.stages chunkId w a.faults trivial
    rw [runChunk_of_resumable a.stages chunkId hres]
    generalize hout : runStages a.stages chunkId w a.faults = out at hmoved hreturned
    obtain ⟨exit, raised, faults⟩ := out
    cases exit with
    | ok returned =>
        rw [Prog.catchAll_ok hout]
        refine ⟨fun _ error raised faults heq => ?_, fun _ result hresult => ?_⟩
        · cases heq
        · cases hresult
          exact accounted_of_completed (Or.inl hreturned)
    | raised error =>
        obtain ⟨row, hrow, hcount, hmoved⟩ := hmoved
        rw [Prog.catchAll_raised hout, accounted_onError_iff hres hrow hcount hmoved]
        constructor
        · rintro h error' raised' faults' heq
          cases heq
          exact h
        · intro h
          exact h error raised faults rfl
    | died =>
        simp only [Prog.catchAll, hout]
        refine ⟨fun _ error raised faults heq => ?_, fun _ result hresult => ?_⟩
        · cases heq
        · cases hresult
  · simp only [hres, false_imp_iff, and_true]
    cases hstate : job.state with
    | terminalFailed =>
        constructor
        · intro h _
          obtain ⟨row, hrow, -, hlast, -⟩ := h _ rfl (Or.inr rfl) _ rfl
          obtain rfl : job = row := Option.some.inj (hjob.symm.trans hrow)
          exact hlast
        · intro h result hresult
          cases hresult
          intro _ message hmessage
          cases hmessage
          exact ⟨job, hjob, hstate, h rfl, fun hretryable => by cases hretryable⟩
    | completed =>
        refine ⟨fun _ h => (by cases h), fun _ result hresult => ?_⟩
        cases hresult
        exact accounted_of_completed (Or.inl rfl)
    | manualRepair =>
        refine ⟨fun _ h => (by cases h), fun _ result hresult => ?_⟩
        cases hresult
        exact accounted_of_completed (Or.inr rfl)
    | pendingGraph => exact absurd (Or.inl hstate) hres
    | pendingEmbeddings => exact absurd (Or.inr (Or.inl hstate)) hres
    | verifying => exact absurd (Or.inr (Or.inr (Or.inl hstate))) hres
    | retryableFailed => exact absurd (Or.inr (Or.inr (Or.inr hstate))) hres

/-! ### Failures in a row -/

/-- Each recordable failure of a row adds one to its count. -/
theorem failInARow_counted {w : World σ} {job : IngestionJob} (hjob : w.jobs chunkId = some job)
    {attempts : List (Attempt σ ε π)} (h : FailInARow chunkId w attempts) :
    ∃ row, (runHistory chunkId w attempts).jobs chunkId = some row ∧
      row.attemptCount = job.attemptCount + attempts.length := by
  induction attempts generalizing w job with
  | nil => exact ⟨job, hjob, rfl⟩
  | cons a rest ih =>
      obtain ⟨⟨job', result, message, hjob', hexit, hfailed, hmessage, hrecordable⟩, hrest⟩ := h
      obtain rfl : job = job' := Option.some.inj (hjob.symm.trans hjob')
      obtain ⟨next, hnext, -, -, hadded⟩ :=
        (accounted_attempt_iff hjob a).mpr hrecordable result hexit (Or.inl hfailed) message hmessage
      obtain ⟨row, hrow, hcount⟩ := ih hnext hrest
      refine ⟨row, hrow, ?_⟩
      rw [hcount, hadded hfailed, List.length_cons]
      omega

/-- A failure that `run_chunk` reports is in the job row (state, error and
count) exactly when it is recordable, and recordable failures in a row are
counted. A retry that fails before a stage was stored is not: the row is in
`RETRYABLE_FAILED` already, and the transition onto itself is refused in
silence. -/
theorem failures_accounted_iff {w : World σ} {job : IngestionJob}
    (hjob : w.jobs chunkId = some job) :
    (∀ a : Attempt σ ε π,
      (∀ result, (runChunk a.stages chunkId job.state w a.faults).exit = .ok result →
        FailureRecorded chunkId job result (attempt chunkId w a)) ↔ Recordable chunkId w job a) ∧
    ∀ attempts : List (Attempt σ ε π), FailInARow chunkId w attempts →
      ∃ row, (runHistory chunkId w attempts).jobs chunkId = some row ∧
        row.attemptCount = job.attemptCount + attempts.length :=
  ⟨accounted_attempt_iff hjob, fun _ h => failInARow_counted hjob h⟩

end Accounting

/-! ### Two failures -/

def extractionFails (message : String) : Attempt Unit Unit Unit :=
  ⟨{ idleStages with extraction := Prog.ofState fun s => (.error (.provider message), s) }, []⟩

/-- An attempt that writes the graph and whose embeddings then raise. -/
def embeddingsFail (message : String) : Attempt Unit Unit Unit :=
  ⟨{ idleStages with
      embeddings := fun _ => Prog.ofState fun s => (.error (.provider message), s) }, []⟩

/-- An extraction that fails, then embeddings that fail: both are counted. -/
theorem failures_accounted_iff_two :
    freshWorld.jobs "chunk" = some (pendingJob "chunk" "context") ∧
      ∃ row, (runHistory "chunk" freshWorld [extractionFails "reset", embeddingsFail "timeout"]).jobs
        "chunk" = some row ∧ row.attemptCount = 0 + 2 := by
  have hfresh : freshWorld.jobs "chunk" = some (pendingJob "chunk" "context") := rfl
  refine ⟨hfresh, (failures_accounted_iff hfresh).2
    [extractionFails "reset", embeddingsFail "timeout"]
    ⟨⟨_, { chunkId := "chunk", state := .retryableFailed, error := some "reset" }, "reset",
        hfresh, rfl, rfl, rfl, ?_⟩,
      ⟨_, { chunkId := "chunk", state := .retryableFailed, error := some "timeout" }, "timeout",
        rfl, rfl, rfl, rfl, ?_⟩, trivial⟩⟩
  · refine ⟨fun h => (by cases h), fun _ error raised faults heq _ => ?_⟩
    cases heq
    refine ⟨?_, ?_, Or.inr (Or.inl (by decide))⟩
    · exact fun refusal => (Option.some_ne_none (Fault.refuse refusal)).symm
    · rw [JobTable.done_iff]
      decide
  · refine ⟨fun h => (by cases h), fun _ error raised faults heq _ => ?_⟩
    cases heq
    refine ⟨?_, ?_, Or.inr (Or.inr ?_)⟩
    · exact fun refusal => (Option.some_ne_none (Fault.refuse refusal)).symm
    · rw [JobTable.done_iff]
      decide
    · decide

/-- The extraction fails twice: the second failure is reported and not recorded. -/
theorem second_failure_not_recorded :
    ((runHistory "chunk" freshWorld [extractionFails "reset", extractionFails "timeout"]).jobs
        "chunk").map (fun row => (row.attemptCount, row.lastError)) = some (1, some "reset") ∧
      (runChunk (extractionFails "timeout").stages "chunk" .retryableFailed
        (runHistory "chunk" freshWorld [extractionFails "reset"]) []).exit =
        .ok { chunkId := "chunk", state := .retryableFailed, error := some "timeout" } ∧
      ¬ ∀ (history : List (Attempt Unit Unit Unit)) (job : IngestionJob) (a : Attempt Unit Unit Unit),
        (runHistory "chunk" freshWorld history).jobs "chunk" = some job →
        ∀ result, (runChunk a.stages "chunk" job.state
            (runHistory "chunk" freshWorld history) a.faults).exit = .ok result →
          FailureRecorded "chunk" job result
            (attempt "chunk" (runHistory "chunk" freshWorld history) a) := by
  refine ⟨by decide, by decide, fun h => ?_⟩
  obtain ⟨row, hrow, -, hlast, -⟩ :=
    h [extractionFails "reset"] _ (extractionFails "timeout") rfl _ rfl (Or.inl rfl) _ rfl
  have hleft : ((attempt "chunk" (runHistory "chunk" freshWorld [extractionFails "reset"])
      (extractionFails "timeout")).jobs "chunk").map (·.lastError) = some (some "reset") := by decide
  rw [hrow, Option.map_some, hlast] at hleft
  exact absurd hleft (by decide)

end ContextMemory
