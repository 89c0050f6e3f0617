/-
Recovery of one chunk: which job rows a replay can still complete.

An attempt may stop anywhere, so between attempts the row is in any state some
prefix of the stages leaves. The replay re-issues `PENDING_EMBEDDINGS`, then
`VERIFYING`, then `COMPLETED`. A row that got as far as `VERIFYING`, or failed from
there, refuses the first of these, and then every later replay as well: `Stuck`.
Those rows are the only ones (`replay_completes_iff`).
-/

import ContextMemory.Ingestion.Orchestrator

namespace ContextMemory

open Faulty

/-- One attempt: the stages as they behave this time and what goes wrong around them. -/
structure Attempt (σ ε π : Type) where
  stages : Stages σ ε π
  faults : List (Fault Exn)

section Recovery

variable {σ ε π : Type}

/-- `run_chunk` from the stored state of the job, as `run_record` calls it. -/
def attempt (chunkId : String) (w : World σ) (a : Attempt σ ε π) : World σ :=
  match w.jobs chunkId with
  | none => w
  | some job => (runChunk a.stages chunkId job.state w a.faults).state

/-- Any number of attempts, each stopping wherever it stops. -/
def runHistory (chunkId : String) (w : World σ) (history : List (Attempt σ ε π)) : World σ :=
  history.foldl (attempt chunkId) w

/-- Every stage returns when nothing fails around it. -/
structure StagesSucceed (stages : Stages σ ε π) (s : σ) where
  extracted : ε
  plan : π
  afterExtraction : σ
  afterPlan : σ
  afterWrite : σ
  afterEmbeddings : σ
  afterVerification : σ
  extraction_ok : stages.extraction s [] = ⟨.ok extracted, afterExtraction, []⟩
  graphPlan_ok : stages.graphPlan extracted afterExtraction [] = ⟨.ok plan, afterPlan, []⟩
  graphWrite_ok : stages.graphWrite plan afterPlan [] = ⟨.ok (), afterWrite, []⟩
  embeddings_ok : stages.embeddings extracted afterWrite [] = ⟨.ok (), afterEmbeddings, []⟩
  verification_ok : stages.verification afterEmbeddings [] = ⟨.ok (), afterVerification, []⟩

/-- The rows no replay gets past. -/
def Stuck (job : IngestionJob) : Prop :=
  job.state = .verifying ∨
    (job.state = .retryableFailed ∧ job.lastVerifiedState = some .verifying)

instance (job : IngestionJob) : Decidable (Stuck job) :=
  inferInstanceAs (Decidable (_ ∨ (_ ∧ _)))

/-! ### The rows a history can leave -/

/-- `last_verified_state` only ever names a state the row has left for another. -/
def Tracked (job : IngestionJob) : Prop :=
  job.lastVerifiedState = none ∨ job.lastVerifiedState = some .pendingGraph ∨
    job.lastVerifiedState = some .pendingEmbeddings ∨ job.lastVerifiedState = some .verifying

def JobTracked (chunkId : String) (w : World σ) : Prop :=
  ∃ job, w.jobs chunkId = some job ∧ Tracked job

theorem tracked_advance {job : IngestionJob} {state : IngestionJobState} {error : Option String}
    (h : Tracked job) (hlegal : isLegalJobTransition job.state state job.lastVerifiedState = true) :
    Tracked (job.advance state error) := by
  cases hstate : job.state with
  | pendingGraph => simp [Tracked, IngestionJob.advance, hstate, IngestionJobState.isFailure]
  | pendingEmbeddings => simp [Tracked, IngestionJob.advance, hstate, IngestionJobState.isFailure]
  | verifying => simp [Tracked, IngestionJob.advance, hstate, IngestionJobState.isFailure]
  | completed =>
      rw [hstate, isLegalJobTransition_completed] at hlegal
      cases hlegal
  | retryableFailed => simpa [Tracked, IngestionJob.advance, hstate, IngestionJobState.isFailure] using h
  | terminalFailed => simpa [Tracked, IngestionJob.advance, hstate, IngestionJobState.isFailure] using h
  | manualRepair => simpa [Tracked, IngestionJob.advance, hstate, IngestionJobState.isFailure] using h

theorem jobTracked_update {chunkId : String} {w : World σ} {job : IngestionJob}
    {state : IngestionJobState} {error : Option String} (hw : JobTracked chunkId w)
    (hjob : w.jobs chunkId = some job)
    (hlegal : isLegalJobTransition job.state state job.lastVerifiedState = true) :
    JobTracked chunkId
      { w with jobs := Function.update w.jobs chunkId (some (job.advance state error)) } := by
  obtain ⟨job', hjob', htracked⟩ := hw
  obtain rfl : job = job' := Option.some.inj (hjob.symm.trans hjob')
  exact ⟨_, Function.update_self _ _ _, tracked_advance htracked hlegal⟩

theorem triple_stage {α : Type} {P : World σ → Prop} {p : Prog σ Exn α}
    (hP : ∀ w s, P w → P { w with stores := s }) : Triple P (onStores p) (fun _ => P) P :=
  triple_onStores (Triple.trivial p) (fun _ _ => trivial) (fun w s _ hw _ => hP w s hw)
    (fun w s hw _ => hP w s hw)

/-- A property of the job row that the stages' own transitions keep survives the
stages, wherever they stop. -/
theorem triple_runStages_row {P : World σ → Prop} {stages : Stages σ ε π} {chunkId : String}
    (hstores : ∀ w s, P w → P { w with stores := s })
    (hjobs : ∀ w job state, state = .pendingEmbeddings ∨ state = .verifying ∨ state = .completed →
      P w → w.jobs chunkId = some job →
      isLegalJobTransition job.state state job.lastVerifiedState = true →
      P { w with jobs := Function.update w.jobs chunkId (some (job.advance state none)) }) :
    Triple P (runStages stages chunkId) (fun _ => P) P := by
  have stage : ∀ {α : Type} (p : Prog σ Exn α), Triple P (onStores p) (fun _ => P) P :=
    fun p => triple_stage hstores
  have move : ∀ state, state = .pendingEmbeddings ∨ state = .verifying ∨ state = .completed →
      Triple P (transition chunkId state) (fun _ => P) P := fun state hstate =>
    triple_transition (fun w hw => hw) fun w job hw hjob hlegal =>
      ⟨hjobs w job state hstate hw hjob hlegal, hjobs w job state hstate hw hjob hlegal⟩
  refine Triple.bind (stage _) fun e => ?_
  refine Triple.bind (stage _) fun p => ?_
  refine Triple.bind (stage _) fun _ => ?_
  refine Triple.bind (move _ (Or.inl rfl)) fun _ => ?_
  refine Triple.bind (stage _) fun _ => ?_
  refine Triple.bind (move _ (Or.inr (Or.inl rfl))) fun _ => ?_
  refine Triple.bind (stage _) fun _ => ?_
  exact Triple.bind (move _ (Or.inr (Or.inr rfl))) fun _ => Triple.pure fun w hw => hw

/-- A property of the job row that every legal transition keeps survives the
whole call, wherever it stops. -/
theorem triple_runChunk {P : World σ → Prop} {stages : Stages σ ε π} {chunkId : String}
    {currentState : IngestionJobState} (hstores : ∀ w s, P w → P { w with stores := s })
    (hjobs : ∀ w job state error, P w → w.jobs chunkId = some job →
      isLegalJobTransition job.state state job.lastVerifiedState = true →
      P { w with jobs := Function.update w.jobs chunkId (some (job.advance state error)) }) :
    Triple P (runChunk stages chunkId currentState) (fun _ => P) P := by
  have handled : ∀ e, Triple P (onError chunkId e) (fun _ => P) P := fun e =>
    Triple.bind (triple_safeTransition fun w job hw hjob hlegal =>
      hjobs w job _ _ hw hjob hlegal) fun _ => Triple.pure fun w hw => hw
  by_cases hres : Resumable currentState
  · rw [runChunk_of_resumable stages chunkId hres]
    refine Triple.catchAll (R := P) ?_ handled fun w hw => hw
    exact triple_runStages_row hstores fun w job state _ hw hjob hlegal =>
      hjobs w job state none hw hjob hlegal
  · obtain ⟨result, heq, -⟩ := runChunk_of_not_resumable stages chunkId hres
    rw [heq]
    exact Triple.pure fun w hw => hw

theorem jobTracked_attempt {chunkId : String} {w : World σ} (a : Attempt σ ε π)
    (h : JobTracked chunkId w) : JobTracked chunkId (attempt chunkId w a) := by
  obtain ⟨job, hjob, htracked⟩ := h
  simp only [attempt, hjob]
  have hkeeps : Triple (JobTracked chunkId) (runChunk a.stages chunkId job.state)
      (fun _ => JobTracked chunkId) (JobTracked chunkId) :=
    triple_runChunk (fun w s hw => hw)
      fun w job state error hw hjob hlegal => jobTracked_update hw hjob hlegal
  exact (hkeeps w a.faults ⟨job, hjob, htracked⟩).always

/-- Every row a history leaves is tracked. -/
theorem jobTracked_runHistory {chunkId : String} (history : List (Attempt σ ε π)) {w : World σ}
    (h : JobTracked chunkId w) : JobTracked chunkId (runHistory chunkId w history) := by
  induction history generalizing w with
  | nil => exact h
  | cons a rest ih => exact ih (jobTracked_attempt a h)

/-! ### One attempt in which every stage succeeds -/

theorem onStores_nil {α : Type} {p : Prog σ Exn α} {w : World σ} {a : α} {s : σ}
    (h : p w.stores [] = ⟨.ok a, s, []⟩) :
    onStores p w [] = ⟨.ok a, { w with stores := s }, []⟩ := by
  simp only [onStores, Prog.zoom, h]

theorem transition_nil {chunkId : String} {state : IngestionJobState} (error : Option String)
    (w : World σ) {job : IngestionJob} (hjob : w.jobs chunkId = some job)
    (hlegal : isLegalJobTransition job.state state job.lastVerifiedState = true) :
    transition chunkId state error w [] =
      ⟨.ok (), { w with jobs := Function.update w.jobs chunkId (some (job.advance state error)) },
        []⟩ := by
  simp only [transition, Prog.op_nil, JobTable.transition_of_legal hjob hlegal]
  rfl

theorem transition_nil_refused {chunkId : String} {state : IngestionJobState}
    (error : Option String) (w : World σ) {job : IngestionJob} (hjob : w.jobs chunkId = some job)
    (hlegal : isLegalJobTransition job.state state job.lastVerifiedState = false) :
    ∃ message, transition chunkId state error w [] =
      ⟨.raised (.illegalJobTransition message), w, []⟩ := by
  obtain ⟨message, heq⟩ := JobTable.transition_of_illegal error hjob hlegal
  refine ⟨message, ?_⟩
  simp only [transition, Prog.op_nil, heq]
  rfl

/-- A row that accepts `PENDING_EMBEDDINGS` again is carried on to `COMPLETED`. -/
theorem runStages_completes {stages : Stages σ ε π} {chunkId : String} {w : World σ}
    {job : IngestionJob} (hjob : w.jobs chunkId = some job) (hs : StagesSucceed stages w.stores)
    (hlegal : isLegalJobTransition job.state .pendingEmbeddings job.lastVerifiedState = true) :
    ∃ job', runStages stages chunkId w [] =
      ⟨.ok { chunkId, state := .completed, acceptedFactCount := stages.acceptedCount hs.extracted },
        { jobs := Function.update w.jobs chunkId (some job'), stores := hs.afterVerification }, []⟩ ∧
      job'.state = .completed := by
  let embedding := job.advance .pendingEmbeddings none
  let verifying := embedding.advance .verifying none
  refine ⟨verifying.advance .completed none, ?_, rfl⟩
  unfold runStages
  rw [Prog.bind_ok (onStores_nil hs.extraction_ok), Prog.bind_ok (onStores_nil hs.graphPlan_ok),
    Prog.bind_ok (onStores_nil hs.graphWrite_ok),
    Prog.bind_ok (transition_nil none ⟨w.jobs, hs.afterWrite⟩ hjob hlegal),
    Prog.bind_ok (onStores_nil hs.embeddings_ok),
    Prog.bind_ok (transition_nil none ⟨Function.update w.jobs chunkId (some embedding),
      hs.afterEmbeddings⟩ (Function.update_self _ _ _) rfl),
    Prog.bind_ok (onStores_nil hs.verification_ok),
    Prog.bind_ok (transition_nil none ⟨Function.update (Function.update w.jobs chunkId
      (some embedding)) chunkId (some verifying), hs.afterVerification⟩
      (Function.update_self _ _ _) rfl)]
  simp only [Function.update_idem, Prog.pure_apply]

/-- A row that refuses it fails the attempt with every stage done up to the
graph write. -/
theorem runStages_refused {stages : Stages σ ε π} {chunkId : String} {w : World σ}
    {job : IngestionJob} (hjob : w.jobs chunkId = some job) (hs : StagesSucceed stages w.stores)
    (hlegal : isLegalJobTransition job.state .pendingEmbeddings job.lastVerifiedState = false) :
    ∃ message, runStages stages chunkId w [] =
      ⟨.raised (.illegalJobTransition message), { w with stores := hs.afterWrite }, []⟩ := by
  obtain ⟨message, heq⟩ := transition_nil_refused none ⟨w.jobs, hs.afterWrite⟩ hjob hlegal
  refine ⟨message, ?_⟩
  unfold runStages
  rw [Prog.bind_ok (onStores_nil hs.extraction_ok), Prog.bind_ok (onStores_nil hs.graphPlan_ok),
    Prog.bind_ok (onStores_nil hs.graphWrite_ok)]
  exact Prog.bind_raised heq

/-- Of the rows a history leaves, exactly the stuck ones refuse
`PENDING_EMBEDDINGS`. -/
theorem legal_pendingEmbeddings_iff {job : IngestionJob} (htracked : Tracked job)
    (hres : Resumable job.state) :
    isLegalJobTransition job.state .pendingEmbeddings job.lastVerifiedState = true ↔
      ¬ Stuck job := by
  rcases hres with hstate | hstate | hstate | hstate
  · simp [Stuck, hstate, isLegalJobTransition, IngestionJobState.atOrAfter,
      IngestionJobState.forwardIndex]
  · simp [Stuck, hstate, isLegalJobTransition, IngestionJobState.atOrAfter,
      IngestionJobState.forwardIndex]
  · simp [Stuck, hstate, isLegalJobTransition, IngestionJobState.atOrAfter,
      IngestionJobState.forwardIndex, IngestionJobState.isFailure]
  · rcases htracked with h | h | h | h <;>
      simp [Stuck, hstate, h, isLegalJobTransition, IngestionJobState.atOrAfter,
        IngestionJobState.forwardIndex]

theorem onError_state {chunkId : String} {error : Exn} {w w' : World σ}
    (hterminal : error.isTerminal = false)
    (h : safeTransition chunkId .retryableFailed error.str w [] = ⟨.ok (), w', []⟩) :
    (onError chunkId error w []).state = w' := by
  simp only [onError, hterminal]
  exact congrArg Outcome.state (Prog.bind_ok h)

/-- What the error handler leaves of a row that refused: still not completed. -/
theorem onError_not_completed {chunkId : String} {error : Exn} {w : World σ} {job : IngestionJob}
    (hterminal : error.isTerminal = false) (hjob : w.jobs chunkId = some job)
    (hne : job.state ≠ .completed) :
    ∃ job', (onError chunkId error w []).state.jobs chunkId = some job' ∧
      job'.state ≠ .completed := by
  cases hlegal : isLegalJobTransition job.state .retryableFailed job.lastVerifiedState with
  | true =>
      refine ⟨job.advance .retryableFailed (some error.str), ?_, by simp⟩
      rw [onError_state hterminal
        (Prog.catchAll_ok (transition_nil (some error.str) w hjob hlegal))]
      exact Function.update_self _ _ _
  | false =>
      obtain ⟨refusal, hrefused⟩ := transition_nil_refused (some error.str) w hjob hlegal
      refine ⟨job, ?_, hne⟩
      rw [onError_state hterminal (Prog.catchAll_raised hrefused)]
      exact hjob

/-- **Recovery.** Take any history of attempts on a chunk, whatever was injected
into them, and any row it leaves that `run_chunk` still takes up. A further
attempt in which every stage succeeds stores `COMPLETED` exactly when the row is
not stuck. A stuck row was last verified in `VERIFYING`: the attempt asks for
`PENDING_EMBEDDINGS`, the transition is refused, and `_safe_transition` swallows
the refusal, so that no number of further attempts helps. -/
theorem replay_completes_iff {chunkId contextId : String} {start : World σ}
    (hstart : start.jobs chunkId = some (pendingJob chunkId contextId))
    (history : List (Attempt σ ε π)) {job : IngestionJob}
    (hjob : (runHistory chunkId start history).jobs chunkId = some job)
    (hres : Resumable job.state) (stages : Stages σ ε π)
    (hs : StagesSucceed stages (runHistory chunkId start history).stores) :
    (∃ job', (attempt chunkId (runHistory chunkId start history)
        ⟨stages, []⟩).jobs chunkId = some job' ∧ job'.state = .completed) ↔ ¬ Stuck job := by
  have htracked : Tracked job := by
    have hinit : JobTracked chunkId start := ⟨_, hstart, Or.inl rfl⟩
    obtain ⟨job', hjob', h⟩ := jobTracked_runHistory history hinit
    rwa [Option.some.inj (hjob'.symm.trans hjob)] at h
  generalize runHistory chunkId start history = w at hjob hs
  rw [← legal_pendingEmbeddings_iff htracked hres]
  simp only [attempt, hjob, runChunk_of_resumable stages chunkId hres]
  constructor
  · rintro ⟨job', hjob', hcompleted⟩
    by_contra hlegal
    obtain ⟨message, heq⟩ := runStages_refused hjob hs (Bool.not_eq_true _ ▸ hlegal)
    rw [Prog.catchAll_raised heq] at hjob'
    have hne : job.state ≠ .completed := by
      rcases hres with h | h | h | h <;> simp [h]
    have hleft : ∃ job'', (onError chunkId (.illegalJobTransition message)
        ⟨w.jobs, hs.afterWrite⟩ []).state.jobs chunkId = some job'' ∧ job''.state ≠ .completed :=
      onError_not_completed rfl hjob hne
    obtain ⟨job'', hjob'', hnot⟩ := hleft
    exact hnot (Option.some.inj (hjob''.symm.trans hjob') ▸ hcompleted)
  · intro hlegal
    obtain ⟨job', heq, hcompleted⟩ := runStages_completes hjob hs hlegal
    rw [Prog.catchAll_ok heq]
    exact ⟨job', Function.update_self _ _ _, hcompleted⟩

/-! ### A stuck row stays stuck -/

/-- Stuck, or given up on. -/
def JobLost (chunkId : String) (w : World σ) : Prop :=
  ∃ job, w.jobs chunkId = some job ∧ (Stuck job ∨ job.state = .terminalFailed)

theorem not_legal_of_lost {job : IngestionJob} (h : Stuck job ∨ job.state = .terminalFailed) :
    isLegalJobTransition job.state .pendingEmbeddings job.lastVerifiedState = false := by
  rcases h with (h | ⟨h, hlast⟩) | h
  · simp [h, isLegalJobTransition, IngestionJobState.atOrAfter, IngestionJobState.forwardIndex,
      IngestionJobState.isFailure]
  · simp [h, hlast, isLegalJobTransition, IngestionJobState.atOrAfter,
      IngestionJobState.forwardIndex]
  · simp [h, isLegalJobTransition]

theorem lost_advance {job : IngestionJob} {state : IngestionJobState} {error : Option String}
    (h : Stuck job ∨ job.state = .terminalFailed)
    (hstate : state = .retryableFailed ∨ state = .terminalFailed)
    (hlegal : isLegalJobTransition job.state state job.lastVerifiedState = true) :
    Stuck (job.advance state error) ∨ (job.advance state error).state = .terminalFailed := by
  rcases hstate with rfl | rfl
  · rcases h with (h | ⟨h, hlast⟩) | h
    · exact Or.inl (Or.inr ⟨rfl, by simp [IngestionJob.advance, h, IngestionJobState.isFailure]⟩)
    · simp [h, hlast, isLegalJobTransition, IngestionJobState.atOrAfter,
        IngestionJobState.forwardIndex] at hlegal
    · simp [h, isLegalJobTransition] at hlegal
  · exact Or.inr rfl

/-- No attempt, whatever its stages and faults, gets a stuck row moving again. -/
theorem lost_attempt {chunkId : String} {w : World σ} (a : Attempt σ ε π)
    (h : JobLost chunkId w) : JobLost chunkId (attempt chunkId w a) := by
  obtain ⟨job, hjob, hlost⟩ := h
  simp only [attempt, hjob]
  have stage : ∀ {α : Type} (p : Prog σ Exn α),
      Triple (JobLost chunkId) (onStores p) (fun _ => JobLost chunkId) (JobLost chunkId) :=
    fun p => triple_stage fun w s hw => hw
  have move : Triple (JobLost chunkId) (transition chunkId .pendingEmbeddings)
      (fun _ (_ : World σ) => False) (JobLost chunkId) := by
    refine triple_transition (fun w hw => hw) fun w job hw hjob hlegal => ?_
    obtain ⟨job', hjob', hlost'⟩ := hw
    obtain rfl : job = job' := Option.some.inj (hjob.symm.trans hjob')
    rw [not_legal_of_lost hlost'] at hlegal
    cases hlegal
  have handled : ∀ e, Triple (JobLost chunkId) (onError chunkId e)
      (fun _ (w : World σ) => JobLost chunkId w) (JobLost chunkId) := by
    intro e
    refine Triple.bind (triple_safeTransition fun w job hw hjob hlegal => ?_)
      fun _ => Triple.pure fun w hw => hw
    obtain ⟨job', hjob', hlost'⟩ := hw
    obtain rfl : job = job' := Option.some.inj (hjob.symm.trans hjob')
    refine ⟨_, Function.update_self _ _ _, lost_advance hlost' ?_ hlegal⟩
    cases e.isTerminal <;> simp
  have hkeeps : Triple (JobLost chunkId) (runChunk a.stages chunkId job.state)
      (fun _ => JobLost chunkId) (JobLost chunkId) := by
    by_cases hres : Resumable job.state
    · rw [runChunk_of_resumable a.stages chunkId hres]
      refine Triple.catchAll (R := JobLost chunkId) ?_ handled fun w hw => hw
      refine Triple.bind (stage _) fun e => Triple.bind (stage _) fun p => ?_
      exact Triple.bind (stage _) fun _ => Triple.bind move fun _ w fs hfalse => hfalse.elim
    · obtain ⟨result, heq, -⟩ := runChunk_of_not_resumable a.stages chunkId hres
      rw [heq]
      exact Triple.pure fun w hw => hw
  exact (hkeeps w a.faults ⟨job, hjob, hlost⟩).always

/-- From a stuck row on, no history ever stores `COMPLETED`. -/
theorem lost_runHistory {chunkId : String} (history : List (Attempt σ ε π)) {w : World σ}
    (h : JobLost chunkId w) : JobLost chunkId (runHistory chunkId w history) := by
  induction history generalizing w with
  | nil => exact h
  | cons a rest ih => exact ih (lost_attempt a h)

end Recovery

/-! ### The failing history -/

/-- Stages with nothing to do: whatever goes wrong is the job row's. -/
def idleStages : Stages Unit Unit Unit where
  extraction := pure ()
  graphPlan _ := pure ()
  graphWrite _ := pure ()
  embeddings _ := pure ()
  verification := pure ()
  acceptedCount _ := 0

def idleStages_succeed (s : Unit) : StagesSucceed idleStages s :=
  ⟨(), (), (), (), (), (), (), rfl, rfl, rfl, rfl, rfl⟩

/-- A chunk that has just been put: its row is `PENDING_GRAPH`. -/
def freshWorld : World Unit :=
  ⟨Function.update (fun _ => none) "chunk" (some (pendingJob "chunk" "context")), ()⟩

/-- The process dies after `VERIFYING` was stored, before `COMPLETED` is. -/
def diesVerifying : Attempt Unit Unit Unit := ⟨idleStages, [.none, .none, .die]⟩

/-- After a failed graph write the row is not stuck, and an attempt in which
every stage succeeds completes the job. -/
theorem replay_completes_iff_after_graph_failure :
    (∃ job', (attempt "chunk" (runHistory "chunk" freshWorld
        [⟨idleStages, [.refuse (.provider "connection reset")]⟩])
        ⟨idleStages, []⟩).jobs "chunk" = some job' ∧ job'.state = .completed) ∧
      Resumable .retryableFailed :=
  have hput : freshWorld.jobs "chunk" = some (pendingJob "chunk" "context") := rfl
  ⟨(replay_completes_iff hput _ rfl (by decide) idleStages (idleStages_succeed _)).mpr (by decide),
    by decide⟩

/-- One crash between `VERIFYING` and `COMPLETED`, and the replay in which every
stage succeeds ends in `RETRYABLE_FAILED`. -/
theorem replay_stuck_after_verifying :
    ¬ ∀ (history : List (Attempt Unit Unit Unit)) (job : IngestionJob),
      (runHistory "chunk" freshWorld history).jobs "chunk" = some job → Resumable job.state →
      ∃ job', (attempt "chunk" (runHistory "chunk" freshWorld history)
        ⟨idleStages, []⟩).jobs "chunk" = some job' ∧ job'.state = .completed := by
  intro h
  obtain ⟨job', hjob', hcompleted⟩ := h [diesVerifying] _ rfl (by decide)
  have hleft : ((attempt "chunk" (runHistory "chunk" freshWorld [diesVerifying])
      ⟨idleStages, []⟩).jobs "chunk").map (·.state) = some .retryableFailed := by decide
  rw [hjob', Option.map_some, hcompleted] at hleft
  cases hleft

end ContextMemory
