/-
What happens to a fact that was superseded.

Closing a fact writes three properties over its node: `is_current`, `superseded_at` and
`valid_to`. A replay of the chunk the fact came from writes its birth values again, and
the manifest lets exactly these three change in either direction. What stops the replay
is `created_at`: the node is refused unless the clock stands at the second of the first
registration (`closed_forever`).

A correction decides nothing about world validity, yet the closing node carries a
`valid_to` all the same, the open sentinel (`correction_keeps_iff_open`).
-/

import ContextMemory.Guarantees.Supersession

namespace ContextMemory

open Faulty Manifest

/-! ### Closed facts stay closed -/

/-- The values of a closed fact. -/
structure Vertex.Closed (v : Vertex) : Prop where
  isCurrent : v.props "is_current" = some (.bool false)
  supersededAt : v.props "superseded_at" ≠ some (.int openSentinel)

/-- No draft's fact is closed and registered in the clock second of the call. -/
def NotReborn (d : Deployment) (w : World Stores) (call : Call) : Prop :=
  ∀ drafts, call.env.extractor.extract call.record = .ok drafts → ∀ draft ∈ drafts,
    ∀ v p, w.stores.graphStore.graph.nodes
        (factGraphId d.allocator call.batch.contextId draft.candidateId) = some v →
      v.props "is_current" = some (.bool false) →
      w.stores.graphStore.manifest.entry
        (factGraphId d.allocator call.batch.contextId draft.candidateId) = some (.node .fact
          (factGraphId d.allocator call.batch.contextId draft.candidateId) p) →
      p.lookup "created_at" ≠ some (.int call.env.now.timestamp)

/-- The call brings no closed fact back, and the record does not occur at the sentinel. -/
structure NoRebirth (d : Deployment) (w : World Stores) (call : Call) : Prop where
  instant : call.record.occurredAt.timestamp ≠ openSentinel
  registered : NotReborn d w call

def StepNoRebirth (d : Deployment) (w : World Stores) : Step → Prop
  | .ingest call _ => NoRebirth d w call
  | _ => True

/-- The manifest refuses the birth values over a closed fact, unless the clock
stands at the second of its first registration. -/
theorem NotReborn.born_over {d : Deployment} {w w' : World Stores} {call : Call}
    (h : NotReborn d w call) (hw : Sourced d w.stores) {extraction : ExtractionResult}
    {plan : GraphWritePlan} {turn : GraphNode} {gs : List Gathered} {m : Manifest}
    {done : List GraphRecord} (hwritten : Written d w w' call extraction plan turn gs)
    (hsome : WroteSome plan w.stores.graphStore w'.stores.graphStore m done) {x : Gathered}
    (hx : x ∈ gs) (hn : GraphRecord.node
      (factNode d.allocator (call.chunk d) call.env.now x.candidate) ∈ done) {v : Vertex}
    (hv : w.stores.graphStore.graph.nodes
      (factGraphId d.allocator call.batch.contextId x.candidate.candidateId) = some v) :
    v.props "is_current" ≠ some (.bool false) := by
  intro hclosed
  have hcreated : (factNode d.allocator (call.chunk d) call.env.now
      x.candidate).properties.lookup "created_at" = some (.int call.env.now.timestamp) :=
    lookup_factNode (by simp [factFields])
  rcases register_node hsome.registered (hsome.sound _ hn) with ⟨hnone, -⟩ |
    ⟨old, hentry, hcompatible, -⟩
  · obtain ⟨label, p, hentry, -⟩ := hw.covered.node hv
    cases hnone.symm.trans hentry
  · obtain ⟨_, _, _, hat⟩ := hw.fact hentry
    obtain ⟨seconds, hseconds⟩ := hat.created
    have hsame : seconds = call.env.now.timestamp := Scalar.pyEq_int
      (hcompatible "created_at" _ _ (by simp [mutableProperties]) hseconds hcreated)
    obtain ⟨drafts, hdrafts, draft, hdraft, hcandidate, -⟩ :=
      Call.accepted_draft hwritten.extract_ok (hwritten.planned.candidate_mem hx)
    have hrefused := h drafts hdrafts draft hdraft v old
    rw [hcandidate] at hrefused
    exact hrefused hv hclosed hentry (hsame ▸ hseconds)

/-- A fact node after a step: as it was, closed by the step, or born over one
that was not closed. -/
theorem fact_vertex_step {d : Deployment} {w : World Stores} (hw : Sourced d w.stores) {t : Step}
    (ht : StepNoRebirth d w t) {id : Nat} {v' : Vertex}
    (hv' : (step d w t).stores.graphStore.graph.nodes id = some v')
    (hlabel : NodeLabel.fact ∈ v'.labels) :
    w.stores.graphStore.graph.nodes id = some v' ∨ v'.Closed ∨
      (v'.props "is_current" = some (.bool true) ∧
        ∀ v, w.stores.graphStore.graph.nodes id = some v →
          v.props "is_current" ≠ some (.bool false)) := by
  rcases fact_vertex_cases hw hv' hlabel with hold | ⟨call, faults, extraction, plan, turn, gs, m,
    done, rfl, hwritten, hsome, x, hx, ⟨hn, rfl, hvertex⟩ | ⟨u, hu, rfl, hvertex⟩⟩
  · exact Or.inl hold
  · have hborn : v'.props "is_current" = some (.bool true) := by
      rw [hvertex]
      exact merge_factNode (by simp [factFields])
    exact Or.inr (Or.inr ⟨hborn, fun v hv =>
      NotReborn.born_over ht.registered hw hwritten hsome hx hn hv⟩)
  · -- a closing node writes the instant of the record
    obtain ⟨subject, predicateKey, hdecided⟩ := hwritten.planned.update x hx u hu
    have hinstant : u.decision.priorSupersededAt = some call.record.occurredAt := by
      rw [hdecided.decision.2.1, Call.accepted_observedAt hwritten.extract_ok
        (hwritten.planned.candidate_mem hx)]
    have hcurrent : (closedNode d.allocator call.batch.contextId u).properties.lookup
        "is_current" = some (.bool false) := lookup_closedNode (by simp [closedFields])
    have hsuperseded : (closedNode d.allocator call.batch.contextId u).properties.lookup
        "superseded_at" = some (.int call.record.occurredAt.timestamp) :=
      lookup_closedNode (by simp [closedFields, hinstant])
    refine Or.inr (Or.inl ⟨?_, ?_⟩)
    · rw [hvertex]
      simp only [Vertex.merge, Properties.assign, hcurrent, Option.some_or]
    · rw [hvertex]
      simp only [Vertex.merge, Properties.assign, hsuperseded, Option.some_or]
      intro heq
      exact ht.instant (by simpa using heq)

/-- A fact that is not current is closed. -/
def ClosedProperly (g : Graph) : Prop :=
  ∀ id v, g.nodes id = some v → NodeLabel.fact ∈ v.labels →
    v.props "is_current" = some (.bool false) → v.Closed

theorem closedProperly_step {d : Deployment} {w : World Stores} (hw : Sourced d w.stores)
    (h : ClosedProperly w.stores.graphStore.graph) {t : Step} (ht : StepNoRebirth d w t) :
    ClosedProperly (step d w t).stores.graphStore.graph := by
  intro id v' hv' hlabel hclosed
  rcases fact_vertex_step hw ht hv' hlabel with hold | hnow | ⟨hborn, -⟩
  · exact h id v' hold hlabel hclosed
  · exact hnow
  · rw [hclosed] at hborn
    cases hborn

/-- **One step** leaves a closed fact closed. -/
theorem closed_step {d : Deployment} {w : World Stores} (hw : Sourced d w.stores) {t : Step}
    (ht : StepNoRebirth d w t) {id : Nat}
    (h : ∃ v, w.stores.graphStore.graph.nodes id = some v ∧ NodeLabel.fact ∈ v.labels ∧ v.Closed) :
    ∃ v', (step d w t).stores.graphStore.graph.nodes id = some v' ∧
      NodeLabel.fact ∈ v'.labels ∧ v'.Closed := by
  obtain ⟨v, hv, hlabel, hclosed⟩ := h
  obtain ⟨v', hv', hlabels, -⟩ := (step_kept hw t).node hv
  rw [← hlabels] at hlabel
  refine ⟨v', hv', hlabel, ?_⟩
  rcases fact_vertex_step hw ht hv' hlabel with hold | hnow | ⟨-, hnot⟩
  · obtain rfl : v = v' := Option.some.inj (hv.symm.trans hold)
    exact hclosed
  · exact hnow
  · exact absurd hclosed.isCurrent (hnot v hv)

/-- **Closed for good.** Take any run whose calls bring no closed fact back, and
any point of it. A fact that is not current there is not current at the end, and
its `superseded_at` is not the open sentinel. A call brings a fact back if it
writes the birth values of its node again, which the manifest takes for a change
of mutable properties when the creation times agree. -/
theorem closed_forever (d : Deployment) (earlier later : List Step)
    (h : Meets d (StepNoRebirth d) .initial (earlier ++ later)) {id : Nat} {v : Vertex}
    (hv : (run d .initial earlier).stores.graphStore.graph.nodes id = some v)
    (hlabel : NodeLabel.fact ∈ v.labels) (hclosed : v.props "is_current" = some (.bool false)) :
    ∃ v', (run d .initial (earlier ++ later)).stores.graphStore.graph.nodes id = some v' ∧
      v'.props "is_current" = some (.bool false) ∧
      v'.props "superseded_at" ≠ some (.int openSentinel) := by
  obtain ⟨hearlier, hlater⟩ := h.append
  have hproper : ClosedProperly (run d .initial earlier).stores.graphStore.graph := by
    have hrun := run_meets (P := fun w => Sourced d w.stores ∧
      ClosedProperly w.stores.graphStore.graph) ⟨sourced_initial d, fun id v hv => by cases hv⟩
      hearlier fun w t hw ht => ⟨sourced_step hw.1 t, closedProperly_step hw.1 hw.2 ht⟩
    exact hrun.2
  have hrun := run_meets (P := fun w => Sourced d w.stores ∧ ∃ v,
    w.stores.graphStore.graph.nodes id = some v ∧ NodeLabel.fact ∈ v.labels ∧ v.Closed)
    ⟨sourced_run d earlier, v, hv, hlabel, hproper id v hv hlabel hclosed⟩ hlater
    fun w t hw ht => ⟨sourced_step hw.1 t, closed_step hw.1 ht hw.2⟩
  rw [run_append]
  obtain ⟨-, v', hv', -, hstill⟩ := hrun
  exact ⟨v', hv', hstill.isCurrent, hstill.supersededAt⟩

/-- The two turns, each with the clock at `now`. -/
def bostonAt (now : Int) : Call :=
  ⟨fixtureEnv now [bostonDraft none], moveBatch nine ten, bostonRecord nine⟩

def seattleAt (now : Int) : Call :=
  ⟨fixtureEnv now [seattleDraft], moveBatch nine ten, seattleRecord ten⟩

/-- The first turn, refused right after its graph write; the second turn, which closes its
fact; and the retry of the first, all but the last with the clock at `first`. -/
def retrySteps (first last : Int) : List Step :=
  [.ingest (bostonAt first) (List.replicate 12 .none ++ [.refuse (.provider "reset")]),
    .ingest (seattleAt first) [], .ingest (bostonAt last) []]

/-- All calls in one second: the fact that the second turn closed is current
again after the retry, and open again. -/
theorem closed_reopened :
    storedOfBoston (run fixtureDeployment .initial ((retrySteps 1767265200 1767265200).take 2))
        "is_current" = some (.bool false) ∧
      storedOfBoston (run fixtureDeployment .initial (retrySteps 1767265200 1767265200)) "is_current" =
        some (.bool true) ∧
      storedOfBoston (run fixtureDeployment .initial (retrySteps 1767265200 1767265200)) "superseded_at" =
        some (.int openSentinel) := by
  decide +kernel

/-- The `created_at` the manifest holds for a fact. -/
def Manifest.createdAt (m : Manifest) (id : Nat) : Option Scalar :=
  match m.entry id with
  | some (.node _ _ p) => p.lookup "created_at"
  | _ => none

/-- A retry in another second is refused, and the fact stays closed. -/
theorem closed_forever_retried :
    ∃ v', (run fixtureDeployment .initial ((retrySteps 1767265200 1767265201).take 2 ++
        (retrySteps 1767265200 1767265201).drop 2)).stores.graphStore.graph.nodes bostonFact = some v' ∧
      v'.props "is_current" = some (.bool false) ∧
      v'.props "superseded_at" ≠ some (.int openSentinel) := by
  have hnine : nine.timestamp ≠ openSentinel ∧ ten.timestamp ≠ openSentinel := by decide
  have hmeets : Meets fixtureDeployment (StepNoRebirth fixtureDeployment) .initial
      ((retrySteps 1767265200 1767265201).take 2 ++ (retrySteps 1767265200 1767265201).drop 2) := by
    refine ⟨NoRebirth.mk hnine.1 ?_, NoRebirth.mk hnine.2 ?_, NoRebirth.mk hnine.1 ?_, trivial⟩
    · intro drafts _ draft _ v p hv
      cases hv
    · intro drafts hdrafts draft hdraft v p hv
      cases hdrafts
      rw [List.mem_singleton.mp hdraft] at hv
      have hnone : ((step fixtureDeployment .initial (.ingest (bostonAt 1767265200)
          (List.replicate 12 .none ++ [.refuse (.provider "reset")]))).stores.graphStore.graph.nodes
          (factGraphId fixtureDeployment.allocator (seattleAt 1767265200).batch.contextId
            seattleDraft.candidateId)).isNone = true := by
        decide +kernel
      rw [hv] at hnone
      cases hnone
    · intro drafts hdrafts draft hdraft v p _ _ hentry
      cases hdrafts
      rw [List.mem_singleton.mp hdraft] at hentry
      have hcreated : (step fixtureDeployment (step fixtureDeployment .initial
          (.ingest (bostonAt 1767265200) (List.replicate 12 .none ++
            [.refuse (.provider "reset")]))) (.ingest (seattleAt 1767265200)
            [])).stores.graphStore.manifest.createdAt (factGraphId fixtureDeployment.allocator
            (bostonAt 1767265201).batch.contextId (bostonDraft none).candidateId) =
          some (.int 1767265200) := by
        decide +kernel
      unfold Manifest.createdAt at hcreated
      rw [hentry] at hcreated
      intro hnow
      exact absurd (hcreated.symm.trans hnow) (by decide)
  obtain ⟨hclosed, hfact⟩ : storedOfBoston (run fixtureDeployment .initial
        ((retrySteps 1767265200 1767265201).take 2)) "is_current" = some (.bool false) ∧
      (run fixtureDeployment .initial
        ((retrySteps 1767265200 1767265201).take 2)).stores.graphStore.graph.hasLabel bostonFact .fact = true := by
    decide +kernel
  obtain ⟨v, hv, hcurrent⟩ := Option.bind_eq_some_iff.mp hclosed
  obtain ⟨v', hv', hlabel⟩ := Graph.hasLabel_iff.mp hfact
  obtain rfl : v = v' := Option.some.inj (hv.symm.trans hv')
  exact closed_forever fixtureDeployment _ _ hmeets hv hlabel hcurrent

/-! ### Corrections and world validity -/

/-- **Corrections.** In any reachable state, let a call classify a candidate as
a correction of a prior fact, and let the node that closes the prior fact be
written, wherever the write stops afterwards. Then the prior fact keeps every
property but `is_current` and `superseded_at` if and only if its stored
`valid_to` was the open sentinel. The builder has no other value for `valid_to`
than what the decision carries, and a correction carries none. -/
theorem correction_keeps_iff_open (d : Deployment) (steps : List Step) (call : Call)
    {extraction : ExtractionResult} {gs : List Gathered} {plan : GraphWritePlan}
    {profiles : Profiles} {x : Gathered} {u : Update} {faults : List (Fault Exn)}
    {done : List GraphRecord}
    (hgather : ((call.builder d).gather (run d .initial steps).stores.graphStore.graph
      call.batch.contextId 0 (run d .initial steps).stores.profiles extraction.accepted).1 = .ok gs)
    (hbuild : call.build d (run d .initial steps).stores extraction = (.ok plan, profiles))
    (hx : x ∈ gs) (hu : u ∈ x.updates) (hcorrection : u.decision.relation = .correction)
    (hwritten : (writePlan plan (run d .initial steps).stores.graphStore faults).state.written =
      (run d .initial steps).stores.graphStore.written ++ done)
    (hdone : GraphRecord.node (closedNode d.allocator call.batch.contextId u) ∈ done) :
    ∃ v v', (run d .initial steps).stores.graphStore.graph.nodes
        (factGraphId d.allocator call.batch.contextId u.prior.factId) = some v ∧
      (writePlan plan (run d .initial steps).stores.graphStore faults).state.graph.nodes
        (factGraphId d.allocator call.batch.contextId u.prior.factId) = some v' ∧
      v.props "is_current" = some (.bool true) ∧ v'.props "is_current" = some (.bool false) ∧
      ((∀ key, key ∉ ["is_current", "superseded_at"] → v'.props key = v.props key) ↔
        v.props "valid_to" = some (.int openSentinel)) := by
  have hs := sourced_run d steps
  generalize run d .initial steps = w at hgather hbuild hwritten hs
  obtain ⟨turn, gs', hplan⟩ := hs.planned hbuild
  obtain rfl : gs' = gs := Except.ok.inj (hplan.gather_ok.symm.trans hgather)
  obtain ⟨subject, predicateKey, hdecided⟩ := hplan.update x hx u hu
  obtain ⟨e, -, -, -, hid, v, p, older, hv, hcurrent, -, hat, -, hkey, -⟩ := hs.prior hdecided
  rw [hid] at hv
  simp only [Vertex.isCurrentFact, decide_eq_true_eq] at hcurrent
  -- the record was written, so the vertex is the merged one
  obtain ⟨v', hv', hvertex⟩ : ∃ v', (writePlan plan w.stores.graphStore faults).state.graph.nodes
      (factGraphId d.allocator call.batch.contextId u.prior.factId) = some v' ∧
      v' = Vertex.merge (some v) .fact
        (closedNode d.allocator call.batch.contextId u).properties := by
    rcases writePlan_wrote plan w.stores.graphStore faults with hsame | ⟨m, done', hsome⟩
    · rw [hsame] at hwritten
      have hnil : done = [] := by simpa using hwritten
      rw [hnil] at hdone
      cases hdone
    · have hrecords : done' = done := by
        rw [hsome.state_eq] at hwritten
        simpa using hwritten
      subst hrecords
      refine ⟨_, ?_, rfl⟩
      rw [hsome.state_eq, ← hv]
      refine writeRecords_nodes_of_mem hdone fun k hk heq => ?_
      exact plan.node_eq (hsome.sound _ hk) (hsome.sound _ hdone) heq
  have hvalid : (closedNode d.allocator call.batch.contextId u).properties.lookup "valid_to" =
      some (.int openSentinel) :=
    lookup_closedNode (by simp [closedFields, hdecided.decision.2.2 hcorrection])
  have hclosed : (closedNode d.allocator call.batch.contextId u).properties.lookup "is_current" =
      some (.bool false) := lookup_closedNode (by simp [closedFields])
  have hprops : ∀ key, v'.props key =
      ((closedNode d.allocator call.batch.contextId u).properties.lookup key).or (v.props key) := by
    intro key
    rw [hvertex]
    rfl
  refine ⟨v, v', hv, hv', hcurrent.2.2.2, by rw [hprops, hclosed]; rfl, fun hkept => ?_,
    fun hopen key hne => ?_⟩
  · rw [← hkept "valid_to" (by simp), hprops, hvalid]
    rfl
  · rw [hprops]
    by_cases hmem : key ∈ ["context_id", "logical_key", "is_current", "superseded_at", "valid_to"]
    · have hcases : key = "context_id" ∨ key = "logical_key" ∨ key = "valid_to" := by
        simp at hmem hne
        tauto
      rcases hcases with rfl | rfl | rfl
      · rw [lookup_closedNode_context, hcurrent.2.1]
        rfl
      · have hsame : (closedNode d.allocator call.batch.contextId u).properties.lookup
            "logical_key" = some (.str ("fact:" ++ u.prior.factId)) :=
          lookup_closedNode (by simp [closedFields])
        rw [hsame, hkey]
        rfl
      · rw [hvalid, hopen]
        rfl
    · rw [lookup_closedNode_of_not_mem hmem, Option.none_or]

/-- The plan of a call, with each correction of the fact `factId` whose closing node the write
of the plan sends. -/
def corrections (d : Deployment) (s : Stores) (call : Call) (faults : List (Fault Exn))
    (factId : String) : List (ExtractionResult × List Gathered × GraphWritePlan × Gathered × Update) :=
  match call.extract d with
  | .error _ => []
  | .ok extraction =>
    match ((call.builder d).gather s.graphStore.graph call.batch.contextId 0 s.profiles
        extraction.accepted).1, (call.build d s extraction).1 with
    | .ok gs, .ok plan => gs.flatMap fun x =>
        (x.updates.filter fun u => u.decision.relation = .correction ∧ u.prior.factId = factId ∧
          GraphRecord.node (closedNode d.allocator call.batch.contextId u) ∉ s.graphStore.written ∧
          GraphRecord.node (closedNode d.allocator call.batch.contextId u) ∈
            (writePlan plan s.graphStore faults).state.written).map fun u =>
          (extraction, gs, plan, x, u)
    | _, _ => []

theorem exists_correction {d : Deployment} {s : Stores} {call : Call} {faults : List (Fault Exn)}
    {factId : String} (h : corrections d s call faults factId ≠ []) :
    ∃ extraction gs plan profiles x u done,
      ((call.builder d).gather s.graphStore.graph call.batch.contextId 0 s.profiles
        extraction.accepted).1 = .ok gs ∧
      call.build d s extraction = (.ok plan, profiles) ∧ x ∈ gs ∧ u ∈ x.updates ∧
      u.decision.relation = .correction ∧ u.prior.factId = factId ∧
      (writePlan plan s.graphStore faults).state.written = s.graphStore.written ++ done ∧
      GraphRecord.node (closedNode d.allocator call.batch.contextId u) ∈ done := by
  obtain ⟨site, hsite⟩ := List.exists_mem_of_ne_nil _ h
  unfold corrections at hsite
  split at hsite
  · cases hsite
  · rename_i extraction hextract
    split at hsite
    · rename_i gs plan hgather hplan
      obtain ⟨x, hx, hsite⟩ := List.mem_flatMap.mp hsite
      obtain ⟨u, hu, -⟩ := List.mem_map.mp hsite
      obtain ⟨hu, hfilter⟩ := List.mem_filter.mp hu
      simp only [decide_eq_true_eq] at hfilter
      obtain ⟨hcorrection, hprior, hnew, hwritten⟩ := hfilter
      rcases writePlan_wrote plan s.graphStore faults with hsame | ⟨m, done, hsome⟩
      · rw [hsame] at hwritten
        exact absurd hwritten hnew
      · have hdone : (writePlan plan s.graphStore faults).state.written =
            s.graphStore.written ++ done := by rw [hsome.state_eq]
        rw [hdone] at hwritten
        exact ⟨extraction, gs, plan, _, x, u, done, hgather, Prod.ext hplan rfl, hx, hu,
          hcorrection, hprior, hdone, (List.mem_append.mp hwritten).resolve_left hnew⟩
    · cases hsite

/-- The first turn without an end: the write of the correction leaves its
`valid_to` alone. -/
theorem correction_keeps_open :
    ∃ plan v v', (run fixtureDeployment .initial
        [.ingest (bostonCall nine ten) []]).stores.graphStore.graph.nodes bostonFact = some v ∧
      (writePlan plan (run fixtureDeployment .initial
        [.ingest (bostonCall nine ten) []]).stores.graphStore []).state.graph.nodes bostonFact =
        some v' ∧
      v'.props "is_current" = some (.bool false) ∧ v'.props "valid_to" = v.props "valid_to" := by
  have hsite : corrections fixtureDeployment (run fixtureDeployment .initial
      [.ingest (bostonCall nine ten) []]).stores (seattleCall nine ten) [] "boston" ≠ [] := by
    rw [← List.length_pos_iff]
    decide +kernel
  obtain ⟨extraction, gs, plan, profiles, x, u, done, hgather, hbuild, hx, hu, hcorrection, hprior,
    hwritten, hdone⟩ := exists_correction hsite
  obtain ⟨v, v', hv, hv', -, hclosed, hiff⟩ := correction_keeps_iff_open fixtureDeployment _ _
    hgather hbuild hx hu hcorrection hwritten hdone
  have hid : factGraphId fixtureDeployment.allocator (seattleCall nine ten).batch.contextId
      "boston" = bostonFact := rfl
  rw [hprior, hid] at hv hv'
  have hopen : storedOfBoston (run fixtureDeployment .initial [.ingest (bostonCall nine ten) []])
      "valid_to" = some (.int openSentinel) := by
    decide +kernel
  obtain ⟨v₀, hv₀, hvalid⟩ := Option.bind_eq_some_iff.mp hopen
  obtain rfl : v = v₀ := Option.some.inj (hv.symm.trans hv₀)
  exact ⟨plan, v, v', hv, hv', hclosed, hiff.mpr hvalid _ (by simp)⟩

/-- The first turn with an end of its world validity, 2026-06-01. -/
def untilJune : Call :=
  ⟨fixtureEnv 1767258001 [bostonDraft (some ⟨1780272000000000, 0⟩)], moveBatch nine ten,
    bostonRecord nine⟩

/-- The second turn is a correction of the first, and rewrites its `valid_to`. -/
theorem correction_rewrites_validity :
    storedOfBoston (run fixtureDeployment .initial [.ingest untilJune []]) "valid_to" =
        some (.int 1780272000) ∧
      storedOfBoston (run fixtureDeployment .initial
        [.ingest untilJune [], .ingest (seattleCall nine ten) []]) "valid_to" =
        some (.int openSentinel) ∧
      storedOfBoston (run fixtureDeployment .initial
        [.ingest untilJune [], .ingest (seattleCall nine ten) []]) "is_current" =
        some (.bool false) ∧
      (∀ i j old new, (seattleCall nine ten).env.temporal.map (·.classifyUpdate i j old new) =
        some (.ok .correction)) := by
  rw [← and_assoc, ← and_assoc]
  refine ⟨?_, fun i j old new => rfl⟩
  decide +kernel

end ContextMemory
