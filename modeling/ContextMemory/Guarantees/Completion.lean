/-
What a completed job stands for.

The table of legal transitions lets a job skip ahead, so `COMPLETED` says nothing by
itself. What it stands for comes from the order in `run_chunk`: the pipeline stores it
only after everything of one extraction was delivered, and nothing is taken back
afterwards. An operator who stores it by hand is the one exception.
-/

import ContextMemory.Lib.Fallible
import ContextMemory.Ingestion.Fixture
import ContextMemory.Guarantees.Provenance

namespace ContextMemory

open Faulty

/-! ### What stays -/

/-- One extraction result of a call has been delivered: every record of the plan built from it
was written, and every fact accepted in it has both rows. -/
structure Delivered (d : Deployment) (call : Call) (before : Stores) (s : Stores)
    (extraction : ExtractionResult) (plan : GraphWritePlan) : Prop where
  extract_ok : call.extract d = .ok extraction
  build_ok : ∃ profiles, call.build d before extraction = (.ok plan, profiles)
  written : ∀ r ∈ plan.records, r ∈ s.graphStore.written
  rows : ∀ c ∈ extraction.accepted, HasRows d call c s

/-- Nothing written or indexed is taken back. -/
structure Grows (d : Deployment) (s s' : Stores) : Prop where
  written : ∀ r ∈ s.graphStore.written, r ∈ s'.graphStore.written
  rows : ∀ call c, HasRows d call c s → HasRows d call c s'

section Growth

variable {d : Deployment} {call : Call} {s s' : Stores}

theorem Delivered.grow {before : Stores} {extraction : ExtractionResult} {plan : GraphWritePlan}
    (h : Delivered d call before s extraction plan) (hs : Grows d s s') :
    Delivered d call before s' extraction plan :=
  ⟨h.extract_ok, h.build_ok, fun r hr => hs.written r (h.written r hr),
    fun c hc => hs.rows call c (h.rows c hc)⟩

theorem Wrote.written {plan : GraphWritePlan} {t t' : GraphStore} (h : Wrote plan t t') :
    ∀ r ∈ t.written, r ∈ t'.written := by
  intro r hr
  rcases h with rfl | ⟨m, done, hsome⟩
  · exact hr
  · rw [hsome.state_eq]
    exact List.mem_append_left _ hr

theorem Effect.grows (h : Effect d call s s') : Grows d s s' := by
  cases h with
  | extracted audit hs' =>
      rw [hs']
      exact ⟨fun _ hr => hr, fun _ _ hc => hc⟩
  | planned audit hextract hbuild hs' =>
      rw [hs']
      exact ⟨fun _ hr => hr, fun _ _ hc => hc⟩
  | wrote audit hextract hbuild hwrote hs' =>
      rw [hs']
      exact ⟨hwrote.written, fun _ _ hc => hc⟩
  | indexed audit hextract hbuild hwrote hvectors hindexed hs' =>
      constructor
      · rw [hs']
        exact hwrote.wrote.written
      · intro other c hc
        exact hc.mono hindexed

theorem step_grows (d : Deployment) (w : World Stores) (t : Step) :
    Grows d w.stores (step d w t).stores := by
  have hrefl : Grows d w.stores w.stores := ⟨fun _ hr => hr, fun _ _ hc => hc⟩
  cases t with
  | ingest call faults =>
      rcases @runRecord_effect d call w faults with hsame | ⟨chunks, jobs, -, heffect⟩
      · have hstores : (step d w (.ingest call faults)).stores = w.stores := hsame
        rw [hstores]
        exact hrefl
      · exact ⟨heffect.grows.written, heffect.grows.rows⟩
  | restart => exact ⟨hrefl.written, hrefl.rows⟩
  | operator chunkId state error =>
      simp only [step]
      split <;> exact hrefl

end Growth

/-! ### Vectors -/

/-- `embed_batch` returns one vector for each text. -/
def Embedder.OnePerText (embedder : Embedder) : Prop :=
  ∀ batch, embedder.embedBatch = some batch → ∀ texts vectors, batch texts = .ok vectors →
    vectors.length = texts.length

theorem Embedder.length_embedAll {embedder : Embedder} (h : embedder.OnePerText)
    {texts : List String} {vectors : List (List Rat)}
    (hvectors : embedder.embedAll texts = .ok vectors) : vectors.length = texts.length := by
  unfold Embedder.embedAll at hvectors
  split at hvectors
  · rename_i batch _ _ hbatch
    exact h batch hbatch _ _ hvectors
  · exact Fallible.length_mapM hvectors

/-! ### Completed jobs -/

/-- A finished call has delivered its extraction. -/
theorem Finished.delivered {d : Deployment} {call : Call} {s s' : Stores}
    {extraction : ExtractionResult} {plan : GraphWritePlan} {vectors : List (List Rat)}
    (h : Finished d call s s' extraction plan vectors) (hembed : call.env.embedder.OnePerText) :
    Delivered d call s s' extraction plan := by
  have hlength : vectors.length = extraction.accepted.length := by
    have := Embedder.length_embedAll hembed h.embed_ok
    rwa [List.length_map] at this
  constructor
  · exact h.extract_ok
  · obtain ⟨profiles, hbuild, -⟩ := h.build_ok
    exact ⟨profiles, hbuild⟩
  · intro r hr
    obtain ⟨m, done, hsome, hall⟩ := h.written
    rw [hsome.state_eq]
    exact List.mem_append_right _ (hall r hr)
  · intro c hc
    -- with as many vectors as facts, the zip reaches every fact
    have hzip : c ∈ (extraction.accepted.zip vectors).map Prod.fst := by
      rw [List.map_fst_zip (by omega)]
      exact hc
    obtain ⟨item, hitem, rfl⟩ := List.mem_map.mp hzip
    exact h.rows item hitem

/-- The job of a chunk stands for a delivered extraction of a call of the run. -/
def Justified (d : Deployment) (steps : List Step) (chunkId : String) : Prop :=
  ∃ earlier call faults later extraction plan, steps = earlier ++ .ingest call faults :: later ∧
    (call.chunk d).chunkId = chunkId ∧
    Delivered d call (run d .initial earlier).stores (run d .initial steps).stores extraction plan

theorem Justified.snoc {d : Deployment} {steps : List Step} {chunkId : String}
    (h : Justified d steps chunkId) (t : Step) : Justified d (steps ++ [t]) chunkId := by
  obtain ⟨earlier, call, faults, later, extraction, plan, hsplit, hchunk, hdelivered⟩ := h
  refine ⟨earlier, call, faults, later ++ [t], extraction, plan, ?_, hchunk, ?_⟩
  · rw [hsplit, List.append_assoc, List.cons_append]
  · rw [run_append, run_singleton]
    exact hdelivered.grow (step_grows d _ t)

/-- **One step** leaves every complete job justified. -/
theorem justified_snoc {d : Deployment} {steps : List Step} {t : Step}
    (h : ∀ chunkId, (run d .initial steps).jobs.Done chunkId → Justified d steps chunkId)
    (hop : ∀ chunkId error, t ≠ .operator chunkId .completed error)
    (hembed : ∀ call faults, t = .ingest call faults → call.env.embedder.OnePerText)
    (chunkId : String) (hdone : (run d .initial (steps ++ [t])).jobs.Done chunkId) :
    Justified d (steps ++ [t]) chunkId := by
  have hold : (run d .initial steps).jobs.Done chunkId → Justified d (steps ++ [t]) chunkId :=
    fun hbefore => (h chunkId hbefore).snoc t
  rw [run_append, run_singleton] at hdone
  cases t with
  | ingest call faults =>
      rcases @runRecord_ran d call (run d .initial steps) faults with ⟨-, hjobs⟩ |
        ⟨chunks, jobs, -, -, haccounted⟩
      · have hsame : (step d (run d .initial steps) (.ingest call faults)).jobs =
            (run d .initial steps).jobs := hjobs
        rw [hsame] at hdone
        exact hold hdone
      · rcases haccounted chunkId hdone with hbefore | ⟨hid, extraction, plan, vectors, hfinished⟩
        · exact hold hbefore
        · refine ⟨steps, call, faults, [], extraction, plan, rfl, hid.symm, ?_⟩
          have hdelivered := hfinished.delivered (hembed call faults rfl)
          rw [run_append, run_singleton]
          exact ⟨hdelivered.extract_ok, hdelivered.build_ok, hdelivered.written, hdelivered.rows⟩
  | restart => exact hold hdone
  | operator id state error =>
      simp only [step] at hdone
      split at hdone
      · rename_i job jobs hmove
        obtain ⟨row, -, -, rfl, rfl⟩ := JobTable.transition_eq_ok hmove
        apply hold
        apply JobTable.Done.of_update _ hdone
        intro hcompleted
        rw [IngestionJob.advance_state] at hcompleted
        exact hop id error (by rw [hcompleted])
      · exact hold hdone

/-- **Completion.** In every run in which no operator stores `COMPLETED`, a
completed job stands for one extraction of its chunk: every record of the plan
built from it was written, and every fact accepted in it has an embedding row
and a search-index row. Faults and crashes may fall between any two store
operations. An operator who stores `COMPLETED` by hand is outside it, since
nothing is delivered then. -/
theorem completed_delivered (d : Deployment) (steps : List Step)
    (hop : ∀ chunkId error, .operator chunkId .completed error ∉ steps)
    (hembed : ∀ call faults, .ingest call faults ∈ steps → call.env.embedder.OnePerText)
    (chunkId : String) (hdone : (run d .initial steps).jobs.Done chunkId) :
    ∃ earlier call faults later extraction plan, steps = earlier ++ .ingest call faults :: later ∧
      (call.chunk d).chunkId = chunkId ∧ Delivered d call (run d .initial earlier).stores
        (run d .initial steps).stores extraction plan := by
  suffices hall : ∀ chunkId, (run d .initial steps).jobs.Done chunkId →
      Justified d steps chunkId from hall chunkId hdone
  clear hdone chunkId
  induction steps using List.reverseRecOn with
  | nil =>
      rintro chunkId ⟨job, hjob, -⟩
      cases hjob
  | append_singleton steps t ih =>
      apply justified_snoc
      · apply ih
        · intro chunkId error hmem
          exact hop chunkId error (List.mem_append_left _ hmem)
        · intro call faults hmem
          exact hembed call faults (List.mem_append_left _ hmem)
      · rintro chunkId error rfl
        exact hop chunkId error (List.mem_append_right _ List.mem_cons_self)
      · rintro call faults rfl
        exact hembed call faults (List.mem_append_right _ List.mem_cons_self)

/-- One call without faults completes its job, and everything is there. -/
theorem completed_delivered_boston :
    ∃ extraction plan, Delivered fixtureDeployment (bostonCall nine ten) {}
      (run fixtureDeployment .initial [.ingest (bostonCall nine ten) []]).stores extraction plan := by
  have hdone : (run fixtureDeployment .initial [.ingest (bostonCall nine ten) []]).jobs.Done
      ((bostonCall nine ten).chunk fixtureDeployment).chunkId := by
    have hstate : ((run fixtureDeployment .initial [.ingest (bostonCall nine ten) []]).jobs
        ((bostonCall nine ten).chunk fixtureDeployment).chunkId).map (·.state) =
        some .completed := by
      decide +kernel
    exact Option.map_eq_some_iff.mp hstate
  obtain ⟨earlier, call, faults, later, extraction, plan, hsplit, -, hdelivered⟩ :=
    completed_delivered fixtureDeployment _ (by simp) (by
      intro call faults hmem batch hbatch
      cases List.mem_singleton.mp hmem
      cases hbatch) _ hdone
  rcases earlier with - | ⟨t, rest⟩
  · cases hsplit
    exact ⟨extraction, plan, hdelivered⟩
  · cases rest <;> cases hsplit

/-- Every plan has a record: the session node is always there. -/
theorem Delivered.written_ne_nil {d : Deployment} {call : Call} {before s : Stores}
    {extraction : ExtractionResult} {plan : GraphWritePlan}
    (h : Delivered d call before s extraction plan) : s.graphStore.written ≠ [] := by
  obtain ⟨profiles, hbuild⟩ := h.build_ok
  obtain ⟨turn, gs, -, -, hplan⟩ := Builder.build_eq_ok hbuild
  have hsession : (sessionNode d.allocator (call.chunk d)).graphId ∈
      plan.nodes.map GraphNode.graphId := by
    rw [(assemble_eq_ok hplan).2.1, Ordered.mem_keys_ofAssignments]
    exact List.mem_map_of_mem (List.mem_append_left _ List.mem_cons_self)
  obtain ⟨n, hn, -⟩ := List.mem_map.mp hsession
  intro hnil
  have hwritten := h.written (.node n) (List.mem_append_left _ (List.mem_map_of_mem hn))
  rw [hnil] at hwritten
  cases hwritten

/-- The process dies right after the chunk was put, and an operator marks the
job completed: nothing was written. -/
theorem operator_completes_nothing :
    ¬ ∀ (d : Deployment) (steps : List Step),
      (∀ call faults, .ingest call faults ∈ steps → call.env.embedder.OnePerText) →
      ∀ chunkId, (run d .initial steps).jobs.Done chunkId → ∃ call before extraction plan,
        (call.chunk d).chunkId = chunkId ∧
        Delivered d call before (run d .initial steps).stores extraction plan := by
  intro h
  let chunkId := "chunk:c8b9e898e07b4365a59bc9f9d2e5c5bc20b1ead05f34640bb2cd1fa359765187"
  let steps : List Step := [.ingest (bostonCall nine ten) [.none, .die],
    .operator chunkId .completed none]
  have hend : ((run fixtureDeployment .initial steps).jobs chunkId).map (·.state) =
      some .completed ∧ (run fixtureDeployment .initial steps).stores.graphStore.written.length = 0 := by
    decide +kernel
  obtain ⟨call, before, extraction, plan, -, hdelivered⟩ := h fixtureDeployment steps (by
    intro call faults hmem batch hbatch
    simp only [steps, List.mem_cons, Step.ingest.injEq, List.not_mem_nil, or_false,
      reduceCtorEq] at hmem
    rw [hmem.1] at hbatch
    cases hbatch) chunkId (Option.map_eq_some_iff.mp hend.1)
  exact hdelivered.written_ne_nil (List.length_eq_zero_iff.mp hend.2)

end ContextMemory
