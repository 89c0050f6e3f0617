/-
`GraphPlanBuilder.build` (`ingestion/graph_plan_builder.py`).

`build` does two things at once, and they are told apart here. It *gathers*: candidate
by candidate, the mentions are resolved (which grows the entity registry), the current
facts of the subject are looked up and the temporal model is asked about each. And it
*assembles* nodes and edges, each assigned to a dictionary under its graph id, so a
later record replaces an earlier one with the same id. Gathering reads the graph as it
is before the plan is written; assembling depends on nothing else but the clock.
-/

import ContextMemory.Core.Graph
import ContextMemory.Ingestion.Extraction
import ContextMemory.Ingestion.FactLookup

namespace ContextMemory

/-! ### What a plan is built with -/

/-- The classifier's model and the fact lookup, as they answer during one build: to the
`j`-th question about the `i`-th candidate, and to the lookup for the `i`-th candidate. -/
structure TemporalServices where
  classifyUpdate : (i j : Nat) → FactState → FactState → Except Exn TemporalRelation
  lookup : Nat → LookupService := fun _ => .complete

structure Builder where
  registry : EntityRegistry
  /-- `update_classifier` and `find_existing_facts`: both or neither are used. -/
  temporal : Option TemporalServices := none
  /-- The graph-id table fails at the `j`-th mention of the `i`-th candidate. -/
  outage : (i j : Nat) → Option Exn := fun _ _ => none
  now : DateTime

/-- A resolved mention of an entity. -/
structure Mention where
  surface : String
  profile : EntityProfile
deriving DecidableEq

/-- A prior fact together with the decision that closes it. -/
structure Update where
  prior : FactState
  decision : TemporalUpdateDecision
deriving DecidableEq

/-- What the loop over `extraction.accepted` finds out about one candidate. -/
structure Gathered where
  candidate : ExtractedMemoryCandidate
  mentions : List Mention
  updates : List Update
deriving DecidableEq

/-- The entity a fact is about: the first one resolved. -/
def Gathered.subject (g : Gathered) : Option EntityProfile := g.mentions.head?.map (·.profile)

/-- `value or default` on an optional text. -/
def orText (value : Option String) (default : String) : String :=
  (value.filter (· ≠ "")).getD default

/-! ### Gathering -/

namespace Builder

variable (b : Builder)

/-- The loop over `candidate.entities`, from the `j`-th mention on. -/
def resolveMentions (i : Nat) (contextId : String) :
    (j : Nat) → Profiles → List EntityCandidate → Except Exn (List Mention) × Profiles
  | _, profiles, [] => (.ok [], profiles)
  | j, profiles, entity :: rest =>
      match b.outage i j with
      | some e => (.error e, profiles)
      | none =>
        match b.registry.resolveEntity profiles contextId entity.surface
            (orText entity.entityType "other") with
        | (.error e, profiles) => (.error e, profiles)
        | (.ok resolved, profiles) =>
          match resolveMentions i contextId (j + 1) profiles rest with
          | (.error e, profiles) => (.error e, profiles)
          | (.ok mentions, profiles) =>
              -- an unresolved mention is skipped, never forced into an edge
              (.ok ((resolved.map (Mention.mk entity.surface)).toList ++ mentions), profiles)

/-- The loop over `existing_facts`, from the `j`-th on: the decisions that update. -/
def classifyAll (classifyUpdate : Nat → FactState → FactState → Except Exn TemporalRelation)
    (newFact : FactState) : (j : Nat) → List FactState → Except Exn (List Update)
  | _, [] => .ok []
  | j, prior :: rest =>
      match classify (classifyUpdate j) newFact prior with
      | .error e => .error e
      | .ok decision =>
        match classifyAll classifyUpdate newFact (j + 1) rest with
        | .error e => .error e
        | .ok updates => .ok (if decision.isUpdate then ⟨prior, decision⟩ :: updates else updates)

/-- `new_fact_state`. -/
def newFactState (candidate : ExtractedMemoryCandidate) (subject : EntityProfile)
    (predicateKey : String) : FactState where
  factId := candidate.candidateId
  subjectEntityId := subject.graphId
  predicateKey := predicateKey
  text := candidate.text
  observedAt := candidate.temporal.observedAt
  validFrom := candidate.temporal.validFrom
  validTo := candidate.temporal.validTo

/-- The block under `if candidate.action != "DELETE" and ...`. -/
def findUpdates (g : Graph) (i : Nat) (contextId : String) (candidate : ExtractedMemoryCandidate)
    (mentions : List Mention) : Except Exn (List Update) :=
  match mentions.head?, candidate.predicateKey, b.temporal with
  | some subject, some predicateKey, some temporal =>
      if candidate.action = .delete ∨ predicateKey = "" then .ok []
      else
        match (newFactState candidate subject.profile predicateKey).make with
        | .error e => .error e
        | .ok newFact =>
            classifyAll (temporal.classifyUpdate i) newFact 0
              (findExisting (temporal.lookup i) g contextId subject.profile.graphId predicateKey)
  | _, _, _ => .ok []

/-- The loop over `extraction.accepted`, from the `i`-th candidate on. -/
def gather (g : Graph) (contextId : String) :
    (i : Nat) → Profiles → List ExtractedMemoryCandidate → Except Exn (List Gathered) × Profiles
  | _, profiles, [] => (.ok [], profiles)
  | i, profiles, candidate :: rest =>
      match b.resolveMentions i contextId 0 profiles candidate.entities with
      | (.error e, profiles) => (.error e, profiles)
      | (.ok mentions, profiles) =>
        match b.findUpdates g i contextId candidate mentions with
        | .error e => (.error e, profiles)
        | .ok updates =>
          match gather g contextId (i + 1) profiles rest with
          | (.error e, profiles) => (.error e, profiles)
          | (.ok gathered, profiles) => (.ok (⟨candidate, mentions, updates⟩ :: gathered), profiles)

end Builder

/-! ### The records -/

theorem key_ne {head tail : String} (h : head ≠ "") : head ++ tail ≠ "" := by
  intro heq
  have hlist : head.toList ++ tail.toList = [] := by
    rw [← String.toList_append, heq]
    rfl
  apply h
  rw [← String.ofList_toList (s := head), (List.append_eq_nil_iff.mp hlist).1]

section Records

variable (allocator : GraphIdAllocator)

/-- `_session_node`: the same for every turn of the session. -/
def sessionNode (chunk : Chunk) : GraphNode where
  graphId := allocator.allocateGraphId "session" chunk.contextId
    ("session:" ++ orText chunk.sessionId "unknown")
  label := .session
  logicalKey := "session:" ++ orText chunk.sessionId "unknown"
  properties := scalarProperties chunk.contextId
    [("logical_key", some (.str ("session:" ++ orText chunk.sessionId "unknown"))),
      ("session_id", some (.str (orText chunk.sessionId "unknown")))]
    (fieldsSafe ["logical_key", "session_id"] rfl rfl)
  logicalKey_ne := key_ne (by simp)

/-- `metadata.get("turn_index", 0)` as a property; a compound value is not one. -/
def turnIndex (metadata : Metadata) : Except Exn (Option Scalar) :=
  match metadata.lookup "turn_index" with
  | none => .ok (some (.int 0))
  | some .null => .ok none
  | some (.scalar value) => .ok (some value)
  | some (.compound _) =>
      .error (.contractValidation "graph_node.properties" "property values must be scalar")

def turnFields (chunk : Chunk) (index : Option Scalar) : List (String × Option Scalar) :=
  [("logical_key", some (.str ("turn:" ++ chunk.chunkId))),
    ("chunk_id", some (.str chunk.chunkId)),
    ("content_hash", some (.str chunk.contentHash)),
    ("source_record_id", some (.str chunk.sourceRecordId)),
    ("occurred_at", some (.str chunk.occurredAt.isoformat)),
    ("actor_role", chunk.actorRole.map .str),
    ("actor_id", chunk.actorId.map .str),
    ("turn_index", index),
    ("session_id", some (.str (orText chunk.sessionId "unknown")))]

/-- `_turn_node`. -/
def turnNode (chunk : Chunk) : Except Exn GraphNode :=
  (turnIndex chunk.metadata).map fun index => {
    graphId := allocator.allocateGraphId "turn" chunk.contextId ("turn:" ++ chunk.chunkId)
    label := .turn
    logicalKey := "turn:" ++ chunk.chunkId
    properties := scalarProperties chunk.contextId (turnFields chunk index)
      (fieldsSafe ["logical_key", "chunk_id", "content_hash", "source_record_id", "occurred_at",
        "actor_role", "actor_id", "turn_index", "session_id"] rfl rfl)
    logicalKey_ne := key_ne (by simp) }

/-- An edge with no property but its context. -/
def plainEdge (type : RelationshipType) (kind contextId head tail : String)
    (source destination : GraphNode) (hhead : head ≠ "") : GraphRelationship where
  graphId := allocator.allocateGraphId kind contextId (head ++ tail)
  relationshipType := type
  logicalKey := head ++ tail
  sourceId := source.graphId
  destinationId := destination.graphId
  sourceLabel := source.label
  destinationLabel := destination.label
  properties := scalarProperties contextId [] (fieldsSafe [] rfl rfl)
  logicalKey_ne := key_ne hhead

/-- `_has_turn_edge`; its session key falls back to the context, not to `unknown`. -/
def hasTurnEdge (chunk : Chunk) (session turn : GraphNode) : GraphRelationship :=
  plainEdge allocator .hasTurn "has_turn" chunk.contextId "has_turn:"
    (orText chunk.sessionId ("context:" ++ chunk.contextId) ++ ":" ++ chunk.chunkId)
    session turn (by simp)

/-- `_speaker_entity_node`: a key namespace of its own, apart from `entity:`. -/
def speakerEntityNode (chunk : Chunk) : GraphNode where
  graphId := allocator.allocateGraphId "entity" chunk.contextId
    ("speaker:" ++ orText chunk.actorRole "unknown")
  label := .entity
  logicalKey := "speaker:" ++ orText chunk.actorRole "unknown"
  properties := scalarProperties chunk.contextId
    [("logical_key", some (.str ("speaker:" ++ orText chunk.actorRole "unknown"))),
      ("canonical_name", some (.str (orText chunk.actorRole "unknown"))),
      ("entity_type", some (.str "speaker"))]
    (fieldsSafe ["logical_key", "canonical_name", "entity_type"] rfl rfl)
  logicalKey_ne := key_ne (by simp)

/-- The id of the node of a fact. -/
def factGraphId (contextId factId : String) : Nat :=
  allocator.allocateGraphId "fact" contextId ("fact:" ++ factId)

def factFields (chunk : Chunk) (candidate : ExtractedMemoryCandidate) (now : DateTime) :
    List (String × Option Scalar) :=
  [("logical_key", some (.str ("fact:" ++ candidate.candidateId))),
    ("text", some (.str candidate.text)),
    ("speaker", chunk.actorRole.map .str),
    ("session_id", some (.str (orText chunk.sessionId "unknown"))),
    ("memory_type", some (.str candidate.memoryType.value)),
    ("scope_type", some (.str candidate.scopeType.value)),
    ("scope_id", some (.str candidate.scopeId)),
    ("predicate_key", candidate.predicateKey.map .str),
    ("source_chunk_id", some (.str chunk.chunkId)),
    ("source_start", some (.int candidate.sourceSpan.sourceStart)),
    ("source_end", some (.int candidate.sourceSpan.sourceEnd)),
    ("content_hash", some (.str chunk.contentHash)),
    ("confidence", some (.float candidate.confidence)),
    ("observed_at", some (.int candidate.temporal.observedAt.timestamp)),
    ("superseded_at", some (.int openSentinel)),
    ("valid_from", some (.int ((candidate.temporal.validFrom.map (·.timestamp)).getD 0))),
    ("valid_to", some (.int ((candidate.temporal.validTo.map (·.timestamp)).getD openSentinel))),
    ("created_at", some (.int now.timestamp)),
    ("is_current", some (.bool true))]

def factKeys : List String :=
  ["logical_key", "text", "speaker", "session_id", "memory_type", "scope_type", "scope_id",
    "predicate_key", "source_chunk_id", "source_start", "source_end", "content_hash", "confidence",
    "observed_at", "superseded_at", "valid_from", "valid_to", "created_at", "is_current"]

/-- `_fact_node`: the full node with its birth values. -/
def factNode (chunk : Chunk) (now : DateTime) (candidate : ExtractedMemoryCandidate) :
    GraphNode where
  graphId := factGraphId allocator chunk.contextId candidate.candidateId
  label := .fact
  logicalKey := "fact:" ++ candidate.candidateId
  properties := scalarProperties chunk.contextId (factFields chunk candidate now)
    (fieldsSafe factKeys rfl rfl)
  logicalKey_ne := key_ne (by simp)

/-- `_extracted_from_edge`. -/
def extractedFromEdge (chunk : Chunk) (candidate : ExtractedMemoryCandidate)
    (fact turn : GraphNode) : GraphRelationship :=
  plainEdge allocator .extractedFrom "extracted_from" chunk.contextId "extracted_from:"
    (candidate.candidateId ++ ":" ++ chunk.chunkId) fact turn (by simp)

/-- `_stated_by_edge`. -/
def statedByEdge (chunk : Chunk) (candidate : ExtractedMemoryCandidate)
    (fact speaker : GraphNode) : GraphRelationship :=
  plainEdge allocator .statedBy "stated_by" chunk.contextId "stated_by:"
    (candidate.candidateId ++ ":" ++ toString speaker.graphId) fact speaker (by simp)

/-- `_entity_node`. -/
def entityNode (profile : EntityProfile) : GraphNode where
  graphId := profile.graphId
  label := .entity
  logicalKey := "entity:" ++ profile.canonicalName
  properties := scalarProperties profile.contextId
    [("logical_key", some (.str ("entity:" ++ profile.canonicalName))),
      ("canonical_name", some (.str profile.canonicalName)),
      ("entity_type", some (.str profile.entityType))]
    (fieldsSafe ["logical_key", "canonical_name", "entity_type"] rfl rfl)
  logicalKey_ne := key_ne (by simp)

/-- `_about_edge`. -/
def aboutEdge (contextId : String) (candidate : ExtractedMemoryCandidate) (fact : GraphNode)
    (mention : Mention) : GraphRelationship where
  graphId := allocator.allocateGraphId "about" contextId
    ("about:" ++ (candidate.candidateId ++ ":" ++ toString mention.profile.graphId))
  relationshipType := .about
  logicalKey := "about:" ++ (candidate.candidateId ++ ":" ++ toString mention.profile.graphId)
  sourceId := fact.graphId
  destinationId := mention.profile.graphId
  sourceLabel := .fact
  destinationLabel := .entity
  properties := scalarProperties contextId [("surface", some (.str mention.surface))]
    (fieldsSafe ["surface"] rfl rfl)
  logicalKey_ne := key_ne (by simp)

/-- `_alias_records`. -/
def aliasRecords (profile : EntityProfile) : List (GraphNode × GraphRelationship) :=
  profile.aliases.map fun «alias» =>
    let key := «alias» ++ ":" ++ toString profile.graphId
    let node : GraphNode := {
      graphId := allocator.allocateGraphId "alias" profile.contextId ("alias:" ++ key)
      label := .alias
      logicalKey := "alias:" ++ key
      properties := scalarProperties profile.contextId
        [("logical_key", some (.str ("alias:" ++ key))),
          ("canonical_alias", some (.str «alias»)),
          ("entity_graph_id", some (.int profile.graphId))]
        (fieldsSafe ["logical_key", "canonical_alias", "entity_graph_id"] rfl rfl)
      logicalKey_ne := key_ne (by simp) }
    (node, plainEdge allocator .hasAlias "has_alias" profile.contextId "has_alias:"
      (toString profile.graphId ++ ":" ++ «alias») (entityNode profile) node (by simp))

def closedFields (update : Update) : List (String × Option Scalar) :=
  [("logical_key", some (.str ("fact:" ++ update.prior.factId))),
    ("is_current", some (.bool false)),
    ("superseded_at", some (.int
      ((update.decision.priorSupersededAt.map (·.timestamp)).getD openSentinel))),
    ("valid_to", some (.int ((update.decision.priorValidTo.map (·.timestamp)).getD openSentinel)))]

/-- The node under "Update old fact": `valid_to` is written whatever was decided. -/
def closedNode (contextId : String) (update : Update) : GraphNode where
  graphId := factGraphId allocator contextId update.prior.factId
  label := .fact
  logicalKey := "fact:" ++ update.prior.factId
  properties := scalarProperties contextId (closedFields update)
    (fieldsSafe ["logical_key", "is_current", "superseded_at", "valid_to"] rfl rfl)
  logicalKey_ne := key_ne (by simp)

/-- The edge under "Create SUPERSEDES edge". -/
def supersedesEdge (contextId : String) (candidate : ExtractedMemoryCandidate) (fact : GraphNode)
    (update : Update) : GraphRelationship :=
  plainEdge allocator .supersedes "supersedes" contextId "supersedes:"
    (candidate.candidateId ++ ":" ++ update.prior.factId) fact
    (closedNode allocator contextId update) (by simp)

/-! ### Assembling -/

/-- The assignments to `nodes` for one candidate. -/
def gatheredNodes (chunk : Chunk) (now : DateTime) (g : Gathered) : List GraphNode :=
  factNode allocator chunk now g.candidate ::
    (g.mentions.flatMap fun m => entityNode m.profile ::
        (aliasRecords allocator m.profile).map (·.1)) ++
    g.updates.map (closedNode allocator chunk.contextId)

/-- All assignments to `nodes`, in order. -/
def nodeWrites (chunk : Chunk) (now : DateTime) (turn : GraphNode) (gs : List Gathered) :
    List GraphNode :=
  [sessionNode allocator chunk, turn, speakerEntityNode allocator chunk] ++
    gs.flatMap (gatheredNodes allocator chunk now)

/-- The assignments to `relationships` for one candidate. -/
def gatheredRelationships (chunk : Chunk) (now : DateTime) (turn : GraphNode) (g : Gathered) :
    List GraphRelationship :=
  let fact := factNode allocator chunk now g.candidate
  extractedFromEdge allocator chunk g.candidate fact turn ::
    statedByEdge allocator chunk g.candidate fact (speakerEntityNode allocator chunk) ::
    (g.mentions.flatMap fun m => aboutEdge allocator chunk.contextId g.candidate fact m ::
        (aliasRecords allocator m.profile).map (·.2)) ++
    g.updates.map (supersedesEdge allocator chunk.contextId g.candidate fact)

/-- All assignments to `relationships`, in order. -/
def relationshipWrites (chunk : Chunk) (now : DateTime) (turn : GraphNode) (gs : List Gathered) :
    List GraphRelationship :=
  hasTurnEdge allocator chunk (sessionNode allocator chunk) turn ::
    gs.flatMap (gatheredRelationships allocator chunk now turn)

/-- The plan of a chunk from what was gathered about its candidates. -/
def assemble (chunk : Chunk) (now : DateTime) (turn : GraphNode) (gs : List Gathered) :
    Except Exn GraphWritePlan :=
  GraphWritePlan.ofRecords chunk.contextId ("plan:" ++ chunk.chunkId)
    (Ordered.ofAssignments GraphNode.graphId (nodeWrites allocator chunk now turn gs))
    (Ordered.ofAssignments GraphRelationship.graphId
      (relationshipWrites allocator chunk now turn gs))

end Records

/-- `build`; the second component is what the registry holds afterwards. -/
def Builder.build (b : Builder) (g : Graph) (profiles : Profiles) (chunk : Chunk)
    (extraction : ExtractionResult) : Except Exn GraphWritePlan × Profiles :=
  match turnNode b.registry.allocator chunk with
  | .error e => (.error e, profiles)
  | .ok turn =>
    match b.gather g chunk.contextId 0 profiles extraction.accepted with
    | (.error e, profiles) => (.error e, profiles)
    | (.ok gs, profiles) => (assemble b.registry.allocator chunk b.now turn gs, profiles)

/-! ### What was gathered -/

namespace Builder

variable {b : Builder} {g : Graph} {contextId : String}

/-- The profiles are the registry's own before and after, and so are the
mentions' ones. -/
theorem resolveMentions_spec {i j : Nat} {profiles profiles' : Profiles}
    {entities : List EntityCandidate} {result : Except Exn (List Mention)}
    (hall : ∀ p ∈ profiles, b.registry.Allocated p)
    (h : b.resolveMentions i contextId j profiles entities = (result, profiles')) :
    (∀ p ∈ profiles', b.registry.Allocated p) ∧ ∀ mentions, result = .ok mentions →
      ∀ m ∈ mentions, b.registry.Allocated m.profile ∧ m.profile.contextId = contextId := by
  induction entities generalizing j profiles profiles' result with
  | nil =>
      cases h
      refine ⟨hall, fun mentions hok m hm => ?_⟩
      cases hok
      cases hm
  | cons entity rest ih =>
      simp only [resolveMentions] at h
      split at h
      · cases h
        exact ⟨hall, fun mentions hok => by cases hok⟩
      · split at h
        · rename_i hresolve
          cases h
          exact ⟨(EntityRegistry.resolveEntity_allocated hall hresolve).1,
            fun mentions hok => by cases hok⟩
        · rename_i resolved profiles₁ hresolve
          obtain ⟨hall₁, hprofile⟩ := EntityRegistry.resolveEntity_allocated hall hresolve
          split at h
          · rename_i hrest
            cases h
            exact ⟨(ih hall₁ hrest).1, fun mentions hok => by cases hok⟩
          · rename_i mentions₁ profiles₂ hrest
            obtain ⟨hall₂, hmentions⟩ := ih hall₁ hrest
            cases h
            refine ⟨hall₂, fun mentions hok m hm => ?_⟩
            cases hok
            rcases List.mem_append.mp hm with hm | hm
            · rw [Option.mem_toList, Option.map_eq_some_iff] at hm
              obtain ⟨p, hp, rfl⟩ := hm
              exact hprofile p (congrArg Except.ok hp)
            · exact hmentions mentions₁ rfl m hm

theorem mem_classifyAll
    {classifyUpdate : Nat → FactState → FactState → Except Exn TemporalRelation}
    {newFact : FactState} {j : Nat} {priors : List FactState} {updates : List Update}
    (h : classifyAll classifyUpdate newFact j priors = .ok updates) {u : Update}
    (hu : u ∈ updates) :
    u.prior ∈ priors ∧ u.decision.isUpdate = true ∧
      ∃ k, classify (classifyUpdate k) newFact u.prior = .ok u.decision := by
  induction priors generalizing j updates with
  | nil =>
      cases h
      cases hu
  | cons prior rest ih =>
      simp only [classifyAll] at h
      split at h
      · cases h
      · rename_i decision hdecision
        split at h
        · cases h
        · rename_i updates' hrest
          cases h
          have hlater : u ∈ updates' → u.prior ∈ prior :: rest ∧ u.decision.isUpdate = true ∧
              ∃ k, classify (classifyUpdate k) newFact u.prior = .ok u.decision := by
            intro hmem
            obtain ⟨hprior, hupdate, hk⟩ := ih hrest hmem
            exact ⟨List.mem_cons_of_mem _ hprior, hupdate, hk⟩
          split at hu
          · rename_i hupdate
            rcases List.mem_cons.mp hu with rfl | hu
            · exact ⟨List.mem_cons_self, hupdate, j, hdecision⟩
            · exact hlater hu
          · exact hlater hu

/-- How one update came about: the subject and the predicate that were looked up, the
prior fact the lookup gave for them and the classifier's decision on the two. -/
structure Decided (g : Graph) (contextId : String) (x : Gathered) (u : Update)
    (subject : EntityProfile) (predicateKey : String) : Prop where
  subject_eq : x.subject = some subject
  predicate_eq : x.candidate.predicateKey = some predicateKey
  found : ∃ service, u.prior ∈ findExisting service g contextId subject.graphId predicateKey
  classified : ∃ model,
    classify model (newFactState x.candidate subject predicateKey) u.prior = .ok u.decision
  update : u.decision.isUpdate = true

theorem mem_findUpdates {i : Nat} {candidate : ExtractedMemoryCandidate} {mentions : List Mention}
    {updates : List Update} (h : b.findUpdates g i contextId candidate mentions = .ok updates)
    {u : Update} (hu : u ∈ updates) :
    ∃ subject predicateKey,
      Decided g contextId ⟨candidate, mentions, updates⟩ u subject predicateKey := by
  unfold findUpdates at h
  split at h
  · rename_i subject predicateKey temporal hsubject hpredicate _
    split at h
    · cases h
      cases hu
    · split at h
      · cases h
      · rename_i newFact hmake
        obtain ⟨hprior, hupdate, k, hk⟩ := mem_classifyAll h hu
        rw [FactState.make_eq_ok hmake] at hk
        refine ⟨subject.profile, predicateKey, ?_, hpredicate, ⟨_, hprior⟩, ⟨_, hk⟩, hupdate⟩
        simp only [Gathered.subject, hsubject, Option.map_some]
  · cases h
    cases hu

/-- What `gather` returns about one candidate. -/
structure Sound (b : Builder) (g : Graph) (contextId : String) (x : Gathered) : Prop where
  mention : ∀ m ∈ x.mentions, b.registry.Allocated m.profile ∧ m.profile.contextId = contextId
  update : ∀ u ∈ x.updates, ∃ subject predicateKey, Decided g contextId x u subject predicateKey

/-- **Gathering.** One finding per candidate, in order, and each of them sound. -/
theorem gather_spec {i : Nat} {profiles profiles' : Profiles}
    {candidates : List ExtractedMemoryCandidate} {result : Except Exn (List Gathered)}
    (hall : ∀ p ∈ profiles, b.registry.Allocated p)
    (h : b.gather g contextId i profiles candidates = (result, profiles')) :
    (∀ p ∈ profiles', b.registry.Allocated p) ∧ ∀ gs, result = .ok gs →
      gs.map (·.candidate) = candidates ∧ ∀ x ∈ gs, Sound b g contextId x := by
  induction candidates generalizing i profiles profiles' result with
  | nil =>
      cases h
      refine ⟨hall, fun gs hok => ?_⟩
      cases hok
      exact ⟨rfl, by simp⟩
  | cons candidate rest ih =>
      simp only [gather] at h
      split at h
      · rename_i hmentions
        cases h
        exact ⟨(resolveMentions_spec hall hmentions).1, fun gs hok => by cases hok⟩
      · rename_i mentions profiles₁ hmentions
        obtain ⟨hall₁, hmention⟩ := resolveMentions_spec hall hmentions
        split at h
        · cases h
          exact ⟨hall₁, fun gs hok => by cases hok⟩
        · rename_i updates hupdates
          split at h
          · rename_i hrest
            cases h
            exact ⟨(ih hall₁ hrest).1, fun gs hok => by cases hok⟩
          · rename_i gathered profiles₂ hrest
            obtain ⟨hall₂, hsound⟩ := ih hall₁ hrest
            obtain ⟨hcandidates, hgathered⟩ := hsound gathered rfl
            cases h
            refine ⟨hall₂, fun gs hok => ?_⟩
            cases hok
            refine ⟨by rw [List.map_cons, hcandidates], fun x hx => ?_⟩
            rcases List.mem_cons.mp hx with rfl | hx
            · exact ⟨hmention mentions rfl, fun u hu => mem_findUpdates hupdates hu⟩
            · exact hgathered x hx

/-- The prior fact of an update, as it stands in the graph: a current fact with
an `ABOUT` edge into the subject that was looked up. -/
theorem Decided.vertex {x : Gathered} {u : Update} {subject : EntityProfile}
    {predicateKey : String} (h : Decided g contextId x u subject predicateKey) :
    ∃ e ∈ g.edges, e.type = .about ∧ e.destination = subject.graphId ∧ ∃ v,
      g.nodes e.source = some v ∧ v.isCurrentFact contextId predicateKey = true ∧
      (∃ logicalKey key, v.props "logical_key" = some logicalKey ∧ logicalKey.pyStr = some key ∧
        u.prior.factId = removePrefix "fact:" key) ∧
      ∃ observedAt seconds, v.props "observed_at" = some observedAt ∧
        observedAt.pyInt = some seconds ∧ u.prior.observedAt.micros = seconds * 1000000 := by
  obtain ⟨service, hfound⟩ := h.found
  obtain ⟨row, hrow, hdecode⟩ := mem_findExisting hfound
  obtain ⟨e, he, htype, hdestination, v, hv, hcurrent, rfl⟩ := Graph.mem_findExistingRows.mp hrow
  obtain ⟨-, -, hkey, hobserved⟩ := decodeRow_eq_some hdecode
  exact ⟨e, he, htype, hdestination, v, hv, hcurrent, hkey, hobserved⟩

/-- What an update decided: the gate on time, and what it closes. -/
theorem Decided.decision {x : Gathered} {u : Update} {subject : EntityProfile}
    {predicateKey : String} (h : Decided g contextId x u subject predicateKey) :
    u.prior.observedAt < x.candidate.temporal.observedAt ∧
      u.decision.priorSupersededAt = some x.candidate.temporal.observedAt ∧
      (u.decision.relation = .correction → u.decision.priorValidTo = none) := by
  obtain ⟨model, hclassify⟩ := h.classified
  obtain ⟨htime, -, -, -, hsuperseded, hvalid⟩ := classify_isUpdate hclassify h.update
  refine ⟨htime, hsuperseded, fun hcorrection => ?_⟩
  rw [hvalid, if_pos hcorrection]

end Builder

/-! ### What a plan holds -/

section Plans

variable {allocator : GraphIdAllocator} {chunk : Chunk} {now : DateTime} {turn : GraphNode}
  {gs : List Gathered}

theorem turnNode_eq_ok (h : turnNode allocator chunk = .ok turn) :
    ∃ index, turnIndex chunk.metadata = .ok index ∧
      turn.graphId = allocator.allocateGraphId "turn" chunk.contextId ("turn:" ++ chunk.chunkId) ∧
      turn.label = .turn ∧ turn.logicalKey = "turn:" ++ chunk.chunkId ∧
      turn.properties.names ⊆ insert "context_id" ((turnFields chunk index).map (·.1)).toFinset := by
  unfold turnNode at h
  cases hindex : turnIndex chunk.metadata with
  | error e =>
      rw [hindex] at h
      cases h
  | ok index =>
      rw [hindex] at h
      cases h
      refine ⟨index, rfl, rfl, rfl, rfl, fun key hkey => ?_⟩
      rw [Properties.names, Finmap.mem_keys] at hkey
      rcases mem_addFields hkey with hm | hm
      · rw [(Finmap.mem_singleton _ _ _).mp hm]
        exact Finset.mem_insert_self _ _
      · exact Finset.mem_insert_of_mem (List.mem_toFinset.mpr hm)

/-- Different facts have different ids. -/
theorem factGraphId_injective (allocator : GraphIdAllocator) (contextId : String) :
    Function.Injective (factGraphId allocator contextId) := by
  intro a b h
  obtain ⟨-, -, hkey⟩ := allocator.injective h
  exact (String.append_right_inj "fact:").mp hkey

/-- What an assembled plan is. -/
theorem assemble_eq_ok {plan : GraphWritePlan}
    (h : assemble allocator chunk now turn gs = .ok plan) :
    plan.contextId = chunk.contextId ∧
      plan.nodes = Ordered.ofAssignments GraphNode.graphId (nodeWrites allocator chunk now turn gs) ∧
      plan.relationships = Ordered.ofAssignments GraphRelationship.graphId
        (relationshipWrites allocator chunk now turn gs) := by
  obtain ⟨hctx, -, hnodes, hedges⟩ := GraphWritePlan.ofRecords_eq_ok h
  exact ⟨hctx, hnodes, hedges⟩

/-- The nodes a plan can hold. -/
theorem mem_nodeWrites {n : GraphNode} (h : n ∈ nodeWrites allocator chunk now turn gs) :
    n = sessionNode allocator chunk ∨ n = turn ∨ n = speakerEntityNode allocator chunk ∨
      ∃ x ∈ gs, n = factNode allocator chunk now x.candidate ∨
        (∃ m ∈ x.mentions, n = entityNode m.profile ∨
          ∃ r ∈ aliasRecords allocator m.profile, n = r.1) ∨
        ∃ u ∈ x.updates, n = closedNode allocator chunk.contextId u := by
  unfold nodeWrites at h
  rw [List.mem_append, List.mem_flatMap] at h
  rcases h with h | ⟨x, hx, hn⟩
  · have hfixed : n = sessionNode allocator chunk ∨ n = turn ∨
        n = speakerEntityNode allocator chunk := by simpa using h
    tauto
  · refine Or.inr (Or.inr (Or.inr ⟨x, hx, ?_⟩))
    unfold gatheredNodes at hn
    rcases List.mem_append.mp hn with hn | hn
    · rcases List.mem_cons.mp hn with hn | hn
      · exact Or.inl hn
      · obtain ⟨m, hm, hn⟩ := List.mem_flatMap.mp hn
        refine Or.inr (Or.inl ⟨m, hm, ?_⟩)
        rcases List.mem_cons.mp hn with hn | hn
        · exact Or.inl hn
        · obtain ⟨r, hr, rfl⟩ := List.mem_map.mp hn
          exact Or.inr ⟨r, hr, rfl⟩
    · obtain ⟨u, hu, rfl⟩ := List.mem_map.mp hn
      exact Or.inr (Or.inr ⟨u, hu, rfl⟩)

/-- The relationships of a candidate. -/
theorem mem_gatheredRelationships {x : Gathered} {e : GraphRelationship}
    (h : e ∈ gatheredRelationships allocator chunk now turn x) :
    e = extractedFromEdge allocator chunk x.candidate
        (factNode allocator chunk now x.candidate) turn ∨
      e = statedByEdge allocator chunk x.candidate
        (factNode allocator chunk now x.candidate) (speakerEntityNode allocator chunk) ∨
      (∃ m ∈ x.mentions, e = aboutEdge allocator chunk.contextId x.candidate
          (factNode allocator chunk now x.candidate) m ∨
        ∃ r ∈ aliasRecords allocator m.profile, e = r.2) ∨
      ∃ u ∈ x.updates, e = supersedesEdge allocator chunk.contextId x.candidate
        (factNode allocator chunk now x.candidate) u := by
  unfold gatheredRelationships at h
  rcases List.mem_append.mp h with he | he
  · rcases List.mem_cons.mp he with he | he
    · exact Or.inl he
    · rcases List.mem_cons.mp he with he | he
      · exact Or.inr (Or.inl he)
      · obtain ⟨m, hm, he⟩ := List.mem_flatMap.mp he
        refine Or.inr (Or.inr (Or.inl ⟨m, hm, ?_⟩))
        rcases List.mem_cons.mp he with he | he
        · exact Or.inl he
        · obtain ⟨r, hr, rfl⟩ := List.mem_map.mp he
          exact Or.inr ⟨r, hr, rfl⟩
  · obtain ⟨u, hu, rfl⟩ := List.mem_map.mp he
    exact Or.inr (Or.inr (Or.inr ⟨u, hu, rfl⟩))

/-- The relationships a plan can hold. -/
theorem mem_relationshipWrites {e : GraphRelationship}
    (h : e ∈ relationshipWrites allocator chunk now turn gs) :
    e = hasTurnEdge allocator chunk (sessionNode allocator chunk) turn ∨
      ∃ x ∈ gs, e = extractedFromEdge allocator chunk x.candidate
          (factNode allocator chunk now x.candidate) turn ∨
        e = statedByEdge allocator chunk x.candidate
          (factNode allocator chunk now x.candidate) (speakerEntityNode allocator chunk) ∨
        (∃ m ∈ x.mentions, e = aboutEdge allocator chunk.contextId x.candidate
            (factNode allocator chunk now x.candidate) m ∨
          ∃ r ∈ aliasRecords allocator m.profile, e = r.2) ∨
        ∃ u ∈ x.updates, e = supersedesEdge allocator chunk.contextId x.candidate
          (factNode allocator chunk now x.candidate) u := by
  unfold relationshipWrites at h
  rw [List.mem_cons, List.mem_flatMap] at h
  rcases h with h | ⟨x, hx, he⟩
  · exact Or.inl h
  · exact Or.inr ⟨x, hx, mem_gatheredRelationships he⟩

/-- A `Fact` node of a plan is the birth of a candidate or the closing of a
prior fact. -/
theorem fact_mem_nodeWrites (hturn : turn.label = .turn) {n : GraphNode}
    (h : n ∈ nodeWrites allocator chunk now turn gs) (hlabel : n.label = .fact) :
    ∃ x ∈ gs, n = factNode allocator chunk now x.candidate ∨
      ∃ u ∈ x.updates, n = closedNode allocator chunk.contextId u := by
  rcases mem_nodeWrites h with rfl | rfl | rfl | ⟨x, hx, rfl | ⟨m, -, rfl | ⟨r, hr, rfl⟩⟩ | hclosed⟩
  · cases hlabel
  · rw [hturn] at hlabel
    cases hlabel
  · cases hlabel
  · exact ⟨x, hx, Or.inl rfl⟩
  · cases hlabel
  · obtain ⟨name, -, rfl⟩ := List.mem_map.mp hr
    cases hlabel
  · exact ⟨x, hx, Or.inr hclosed⟩

/-- A `SUPERSEDES` edge of a plan comes from an update. -/
theorem supersedes_mem_relationshipWrites {e : GraphRelationship}
    (h : e ∈ relationshipWrites allocator chunk now turn gs)
    (htype : e.relationshipType = .supersedes) :
    ∃ x ∈ gs, ∃ u ∈ x.updates, e = supersedesEdge allocator chunk.contextId x.candidate
      (factNode allocator chunk now x.candidate) u := by
  rcases mem_relationshipWrites h with rfl | ⟨x, hx, rfl | rfl | ⟨m, -, rfl | ⟨r, hr, rfl⟩⟩ | hupdate⟩
  · cases htype
  · cases htype
  · cases htype
  · cases htype
  · obtain ⟨name, -, rfl⟩ := List.mem_map.mp hr
    cases htype
  · exact ⟨x, hx, hupdate⟩

/-! ### The values of fact nodes -/

theorem factKeys_nodup {candidate : ExtractedMemoryCandidate} :
    ((factFields chunk candidate now).map (·.1)).Nodup := by
  change factKeys.Nodup
  simp [factKeys]

theorem lookup_factNode {candidate : ExtractedMemoryCandidate} {key : String} {value : Scalar}
    (h : (key, some value) ∈ factFields chunk candidate now) :
    (factNode allocator chunk now candidate).properties.lookup key = some value :=
  lookup_fields_of_mem factKeys_nodup h

theorem lookup_factNode_predicate (candidate : ExtractedMemoryCandidate) :
    (factNode allocator chunk now candidate).properties.lookup "predicate_key" =
      candidate.predicateKey.map .str := by
  refine (lookup_addFields factKeys_nodup).trans ?_
  cases hpredicate : candidate.predicateKey with
  | some predicateKey => simp [factFields, fieldValue, hpredicate]
  | none =>
      have habsent : (Finmap.singleton "context_id" (Scalar.str chunk.contextId) :
          PropertyMap).lookup "predicate_key" = none := by
        rw [Finmap.lookup_eq_none, Finmap.mem_singleton]
        simp
      simp [factFields, fieldValue, hpredicate, habsent]

theorem lookup_factNode_context (candidate : ExtractedMemoryCandidate) :
    (factNode allocator chunk now candidate).properties.lookup "context_id" =
      some (.str chunk.contextId) :=
  (lookup_fields_of_not_mem (by simp [factFields])).trans Finmap.lookup_singleton_eq

theorem lookup_closedNode_context (contextId : String) (u : Update) :
    (closedNode allocator contextId u).properties.lookup "context_id" = some (.str contextId) :=
  (lookup_fields_of_not_mem (by simp [closedFields])).trans Finmap.lookup_singleton_eq

theorem lookup_closedNode {contextId : String} {u : Update} {key : String} {value : Scalar}
    (h : (key, some value) ∈ closedFields u) :
    (closedNode allocator contextId u).properties.lookup key = some value :=
  lookup_fields_of_mem (by simp [closedFields]) h

theorem lookup_closedNode_of_not_mem {contextId : String} {u : Update} {key : String}
    (h : key ∉ ["context_id", "logical_key", "is_current", "superseded_at", "valid_to"]) :
    (closedNode allocator contextId u).properties.lookup key = none := by
  rw [List.mem_cons, not_or] at h
  refine (lookup_fields_of_not_mem (by simpa [closedFields] using h.2)).trans ?_
  rw [Finmap.lookup_eq_none, Finmap.mem_singleton]
  exact h.1

/-- The values a fact node leaves in the graph, whatever was there. -/
theorem merge_factNode {candidate : ExtractedMemoryCandidate} {old : Option Vertex} {key : String}
    {value : Scalar} (h : (key, some value) ∈ factFields chunk candidate now) :
    (Vertex.merge old .fact (factNode allocator chunk now candidate).properties).props key =
      some value := by
  have hvalue : (factNode allocator chunk now candidate).properties.lookup key = some value :=
    lookup_factNode h
  simp only [Vertex.merge, Properties.assign, hvalue, Option.some_or]

/-- A name that a fact is not born with keeps its value. -/
theorem merge_factNode_of_not_mem {candidate : ExtractedMemoryCandidate} {old : Option Vertex}
    {key : String} (h : key ∉ "context_id" :: (factFields chunk candidate now).map (·.1)) :
    (Vertex.merge old .fact (factNode allocator chunk now candidate).properties).props key =
      (old.getD {}).props key := by
  rw [List.mem_cons, not_or] at h
  have hnone : (factNode allocator chunk now candidate).properties.lookup key = none := by
    refine (lookup_fields_of_not_mem h.2).trans ?_
    rw [Finmap.lookup_eq_none, Finmap.mem_singleton]
    exact h.1
  simp only [Vertex.merge, Properties.assign, hnone, Option.none_or]

/-- The values a closing node leaves in the graph. -/
theorem merge_closedNode {contextId : String} {u : Update} {old : Option Vertex} {key : String}
    {value : Scalar} (h : (key, some value) ∈ closedFields u) :
    (Vertex.merge old .fact (closedNode allocator contextId u).properties).props key =
      some value := by
  have hvalue : (closedNode allocator contextId u).properties.lookup key = some value :=
    lookup_closedNode h
  simp only [Vertex.merge, Properties.assign, hvalue, Option.some_or]

/-- Everything else a closed fact keeps. -/
theorem merge_closedNode_of_not_mem {contextId : String} {u : Update} {v : Vertex} {key : String}
    (h : key ∉ ["context_id", "logical_key", "is_current", "superseded_at", "valid_to"]) :
    (Vertex.merge (some v) .fact (closedNode allocator contextId u).properties).props key =
      v.props key := by
  have hvalue : (closedNode allocator contextId u).properties.lookup key = none :=
    lookup_closedNode_of_not_mem h
  simp only [Vertex.merge, Properties.assign, hvalue, Option.none_or, Option.getD_some]

end Plans

/-- What `build` returned, taken apart. -/
theorem Builder.build_eq_ok {b : Builder} {g : Graph} {profiles profiles' : Profiles}
    {chunk : Chunk} {extraction : ExtractionResult} {plan : GraphWritePlan}
    (h : b.build g profiles chunk extraction = (.ok plan, profiles')) :
    ∃ turn gs, turnNode b.registry.allocator chunk = .ok turn ∧
      b.gather g chunk.contextId 0 profiles extraction.accepted = (.ok gs, profiles') ∧
      assemble b.registry.allocator chunk b.now turn gs = .ok plan := by
  unfold build at h
  split at h
  · cases h
  · rename_i turn hturn
    split at h
    · cases h
    · rename_i gs profiles₁ hgather
      obtain ⟨hplan, rfl⟩ := Prod.mk.inj h
      exact ⟨turn, gs, hturn, hgather, hplan⟩

end ContextMemory
