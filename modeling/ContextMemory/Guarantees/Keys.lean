/-
Logical keys.

A key is a tag and what the record is made for, joined by colons. Keys are the identity of a
record, for the graph and for the manifest, but not every two records with one key are made for
the same thing: a missing session has the key of a session named `unknown`, and of two ids joined
by a colon a piece can move from one to the other. `NodeSubject.Collides` and
`EdgeSubject.Collides` are all the ways this happens (`logical_keys_iff`).
-/

import ContextMemory.Lib.Separator
import ContextMemory.Guarantees.Plans

namespace ContextMemory

/-- A text that is there; `or` passes over an empty one. -/
def named (text : Option String) : Option String := text.filter (· ≠ "")

/-! ### Nodes -/

/-- What a node is made for. -/
inductive NodeSubject where
  | session (sessionId : Option String)
  | turn (chunkId : String)
  | fact (factId : String)
  | speaker (role : Option String)
  | entity (graphId : Nat) (canonicalName : String)
  | alias (name : String) (entityId : Nat)
deriving DecidableEq

/-- The nodes that the builder makes in a context. -/
inductive MakesNode (allocator : GraphIdAllocator) (contextId : String) :
    NodeSubject → GraphNode → Prop where
  | session {chunk : Chunk} : chunk.contextId = contextId →
      MakesNode allocator contextId (.session (named chunk.sessionId)) (sessionNode allocator chunk)
  | turn {chunk : Chunk} {node : GraphNode} : chunk.contextId = contextId →
      turnNode allocator chunk = .ok node →
      MakesNode allocator contextId (.turn chunk.chunkId) node
  | speaker {chunk : Chunk} : chunk.contextId = contextId →
      MakesNode allocator contextId (.speaker (named chunk.actorRole))
        (speakerEntityNode allocator chunk)
  | fact {chunk : Chunk} {now : DateTime} {candidate : ExtractedMemoryCandidate} :
      chunk.contextId = contextId →
      MakesNode allocator contextId (.fact candidate.candidateId)
        (factNode allocator chunk now candidate)
  | closed {update : Update} :
      MakesNode allocator contextId (.fact update.prior.factId)
        (closedNode allocator contextId update)
  | entity {profile : EntityProfile} : profile.contextId = contextId →
      MakesNode allocator contextId (.entity profile.graphId profile.canonicalName)
        (entityNode profile)
  | alias {profile : EntityProfile} {records : GraphNode × GraphRelationship} {name : String} :
      profile.contextId = contextId → records ∈ aliasRecords allocator profile →
      records.1.properties.lookup "canonical_alias" = some (.str name) →
      MakesNode allocator contextId (.alias name profile.graphId) records.1

namespace NodeSubject

def head : NodeSubject → String
  | .session _ => "session:"
  | .turn _ => "turn:"
  | .fact _ => "fact:"
  | .speaker _ => "speaker:"
  | .entity _ _ => "entity:"
  | .alias _ _ => "alias:"

def tail : NodeSubject → String
  | .session sessionId => sessionId.getD "unknown"
  | .turn chunkId => chunkId
  | .fact factId => factId
  | .speaker role => role.getD "unknown"
  | .entity _ canonicalName => canonicalName
  | .alias name entityId => name ++ ":" ++ toString entityId

/-- The same thing; an entity is its graph id, whatever its name. -/
def Same : NodeSubject → NodeSubject → Prop
  | .entity graphId _, .entity graphId' _ => graphId = graphId'
  | s, s' => s = s'

/-- One of two texts is missing and the other one is the text that stands for a missing one. -/
def Defaulted (default : String) (text text' : Option String) : Prop :=
  (text = none ∧ text' = some default) ∨ (text = some default ∧ text' = none)

/-- Different things under one key. -/
def Collides : NodeSubject → NodeSubject → Prop
  | .session sessionId, .session sessionId' => Defaulted "unknown" sessionId sessionId'
  | .speaker role, .speaker role' => Defaulted "unknown" role role'
  | .entity graphId canonicalName, .entity graphId' canonicalName' =>
      canonicalName = canonicalName' ∧ graphId ≠ graphId'
  | _, _ => False

theorem isHead (s : NodeSubject) : Separator.IsHead s.head := by
  cases s with
  | session _ => exact ⟨"session".toList, by simp, by simp [head]⟩
  | turn _ => exact ⟨"turn".toList, by simp, by simp [head]⟩
  | fact _ => exact ⟨"fact".toList, by simp, by simp [head]⟩
  | speaker _ => exact ⟨"speaker".toList, by simp, by simp [head]⟩
  | entity _ _ => exact ⟨"entity".toList, by simp, by simp [head]⟩
  | «alias» _ _ => exact ⟨"alias".toList, by simp, by simp [head]⟩

/-- Two texts with a default, as texts. -/
theorem getD_eq_iff {default : String} {text text' : Option String} :
    text.getD default = text'.getD default ↔ text = text' ∨ Defaulted default text text' := by
  cases text <;> cases text' <;> simp [Defaulted, eq_comm]

/-- Texts that are equal as texts are equal unless one is the default of the
other. -/
theorem defaulted_iff {default : String} {text text' : Option String} :
    (text = text' ∨ Defaulted default text text' → text = text') ↔
      ¬ Defaulted default text text' := by
  constructor
  · intro h hdefault
    have hsame := h (Or.inr hdefault)
    subst hsame
    rcases hdefault with ⟨hnone, hsome⟩ | ⟨hsome, hnone⟩
    · rw [hnone] at hsome
      cases hsome
    · rw [hnone] at hsome
      cases hsome
  · rintro h (hsame | hdefault)
    · exact hsame
    · exact absurd hdefault h

end NodeSubject

section Aliases

variable {allocator : GraphIdAllocator} {profile : EntityProfile}
  {records : GraphNode × GraphRelationship}

theorem aliasRecords_named (h : records ∈ aliasRecords allocator profile) :
    ∃ name, records.1.properties.lookup "canonical_alias" = some (.str name) := by
  obtain ⟨name, -, rfl⟩ := List.mem_map.mp h
  exact ⟨name, lookup_fields_of_mem (by simp) (by simp)⟩

/-- The keys and the ends of the records of an alias. -/
theorem aliasRecords_spec {name : String} (h : records ∈ aliasRecords allocator profile)
    (hname : records.1.properties.lookup "canonical_alias" = some (.str name)) :
    records.1.logicalKey = "alias:" ++ (name ++ ":" ++ toString profile.graphId) ∧
      records.2.logicalKey = "has_alias:" ++ (toString profile.graphId ++ ":" ++ name) ∧
      records.2.sourceId = profile.graphId ∧
      records.2.destinationId = allocator.allocateGraphId "alias" profile.contextId
        ("alias:" ++ (name ++ ":" ++ toString profile.graphId)) := by
  obtain ⟨surface, -, rfl⟩ := List.mem_map.mp h
  have hlookup : some (Scalar.str surface) = some (.str name) :=
    (lookup_fields_of_mem (by simp) (by simp)).symm.trans hname
  cases hlookup
  exact ⟨rfl, rfl, rfl, rfl⟩

end Aliases

/-- The key of a node. -/
theorem MakesNode.logicalKey {allocator : GraphIdAllocator} {contextId : String} {s : NodeSubject}
    {n : GraphNode} (h : MakesNode allocator contextId s n) :
    n.logicalKey = s.head ++ s.tail := by
  cases h with
  | session => rfl
  | turn _ hturn =>
      obtain ⟨-, -, -, -, hkey, -⟩ := turnNode_eq_ok hturn
      exact hkey
  | speaker => rfl
  | fact => rfl
  | closed => rfl
  | entity => rfl
  | «alias» _ hmem hname => exact (aliasRecords_spec hmem hname).1

/-- Two nodes with one key. -/
theorem NodeSubject.same_iff (s s' : NodeSubject) :
    (s.head = s'.head → s.tail = s'.tail → s.Same s') ↔ ¬ s.Collides s' := by
  cases s with
  | session sessionId =>
      cases s' with
      | session sessionId' =>
          simp only [head, tail, getD_eq_iff, Same, Collides, session.injEq, true_implies]
          exact defaulted_iff
      | _ => simp [head, Collides]
  | turn chunkId =>
      cases s' with
      | turn chunkId' => simp [tail, Same, Collides]
      | _ => simp [head, Collides]
  | fact factId =>
      cases s' with
      | fact factId' => simp [tail, Same, Collides]
      | _ => simp [head, Collides]
  | speaker role =>
      cases s' with
      | speaker role' =>
          simp only [head, tail, getD_eq_iff, Same, Collides, speaker.injEq, true_implies]
          exact defaulted_iff
      | _ => simp [head, Collides]
  | entity graphId canonicalName =>
      cases s' with
      | entity graphId' canonicalName' => simp [head, tail, Same, Collides]
      | _ => simp [head, Collides]
  | «alias» name entityId =>
      cases s' with
      | «alias» name' entityId' =>
          simp only [tail, Same, Collides, alias.injEq, not_false_eq_true, iff_true]
          exact fun _ h => Separator.text_number h
      | _ => simp [head, Collides]

/-! ### Relationships -/

/-- What an edge is made for. -/
inductive EdgeSubject where
  | hasTurn (sessionId : Option String) (chunkId : String)
  | extractedFrom (factId chunkId : String)
  | statedBy (factId : String) (speakerId : Nat)
  | about (factId : String) (entityId : Nat)
  | hasAlias (entityId : Nat) (name : String)
  | supersedes (factId priorId : String)
deriving DecidableEq

/-- The edges that the builder makes in a context. -/
inductive MakesEdge (allocator : GraphIdAllocator) (contextId : String) :
    EdgeSubject → GraphRelationship → Prop where
  | hasTurn {chunk : Chunk} {turn : GraphNode} : chunk.contextId = contextId →
      turnNode allocator chunk = .ok turn →
      MakesEdge allocator contextId (.hasTurn (named chunk.sessionId) chunk.chunkId)
        (hasTurnEdge allocator chunk (sessionNode allocator chunk) turn)
  | extractedFrom {chunk : Chunk} {turn : GraphNode} {now : DateTime}
      {candidate : ExtractedMemoryCandidate} : chunk.contextId = contextId →
      turnNode allocator chunk = .ok turn →
      MakesEdge allocator contextId (.extractedFrom candidate.candidateId chunk.chunkId)
        (extractedFromEdge allocator chunk candidate (factNode allocator chunk now candidate) turn)
  | statedBy {chunk : Chunk} {now : DateTime} {candidate : ExtractedMemoryCandidate} :
      chunk.contextId = contextId →
      MakesEdge allocator contextId
        (.statedBy candidate.candidateId (speakerEntityNode allocator chunk).graphId)
        (statedByEdge allocator chunk candidate (factNode allocator chunk now candidate)
          (speakerEntityNode allocator chunk))
  | about {chunk : Chunk} {now : DateTime} {candidate : ExtractedMemoryCandidate}
      {mention : Mention} : chunk.contextId = contextId →
      MakesEdge allocator contextId (.about candidate.candidateId mention.profile.graphId)
        (aboutEdge allocator contextId candidate (factNode allocator chunk now candidate) mention)
  | hasAlias {profile : EntityProfile} {records : GraphNode × GraphRelationship} {name : String} :
      profile.contextId = contextId → records ∈ aliasRecords allocator profile →
      records.1.properties.lookup "canonical_alias" = some (.str name) →
      MakesEdge allocator contextId (.hasAlias profile.graphId name) records.2
  | supersedes {chunk : Chunk} {now : DateTime} {candidate : ExtractedMemoryCandidate}
      {update : Update} : chunk.contextId = contextId →
      MakesEdge allocator contextId (.supersedes candidate.candidateId update.prior.factId)
        (supersedesEdge allocator contextId candidate (factNode allocator chunk now candidate) update)

namespace EdgeSubject

def head : EdgeSubject → String
  | .hasTurn _ _ => "has_turn:"
  | .extractedFrom _ _ => "extracted_from:"
  | .statedBy _ _ => "stated_by:"
  | .about _ _ => "about:"
  | .hasAlias _ _ => "has_alias:"
  | .supersedes _ _ => "supersedes:"

/-- The key of a turn's session falls back to the context. -/
def tail (contextId : String) : EdgeSubject → String
  | .hasTurn sessionId chunkId => sessionId.getD ("context:" ++ contextId) ++ ":" ++ chunkId
  | .extractedFrom factId chunkId => factId ++ ":" ++ chunkId
  | .statedBy factId speakerId => factId ++ ":" ++ toString speakerId
  | .about factId entityId => factId ++ ":" ++ toString entityId
  | .hasAlias entityId name => toString entityId ++ ":" ++ name
  | .supersedes factId priorId => factId ++ ":" ++ priorId

def ends (allocator : GraphIdAllocator) (contextId : String) : EdgeSubject → Nat × Nat
  | .hasTurn sessionId chunkId =>
      (allocator.allocateGraphId "session" contextId ("session:" ++ sessionId.getD "unknown"),
        allocator.allocateGraphId "turn" contextId ("turn:" ++ chunkId))
  | .extractedFrom factId chunkId => (factGraphId allocator contextId factId,
      allocator.allocateGraphId "turn" contextId ("turn:" ++ chunkId))
  | .statedBy factId speakerId => (factGraphId allocator contextId factId, speakerId)
  | .about factId entityId => (factGraphId allocator contextId factId, entityId)
  | .hasAlias entityId name => (entityId, allocator.allocateGraphId "alias" contextId
      ("alias:" ++ (name ++ ":" ++ toString entityId)))
  | .supersedes factId priorId =>
      (factGraphId allocator contextId factId, factGraphId allocator contextId priorId)

/-- A piece of one id moves over the colon to the other one. -/
def Shifted (first second first' second' : String) : Prop :=
  Separator.Moved first second first' second' ∨ Separator.Moved first' second' first second

/-- Different ends under one key. -/
def Collides (contextId : String) : EdgeSubject → EdgeSubject → Prop
  | .hasTurn sessionId chunkId, .hasTurn sessionId' chunkId' =>
      (chunkId = chunkId' ∧
        NodeSubject.Defaulted ("context:" ++ contextId) sessionId sessionId') ∨
      Shifted (sessionId.getD ("context:" ++ contextId)) chunkId
        (sessionId'.getD ("context:" ++ contextId)) chunkId'
  | .extractedFrom factId chunkId, .extractedFrom factId' chunkId' =>
      Shifted factId chunkId factId' chunkId'
  | .supersedes factId priorId, .supersedes factId' priorId' =>
      Shifted factId priorId factId' priorId'
  | _, _ => False

theorem isHead (s : EdgeSubject) : Separator.IsHead s.head := by
  cases s with
  | hasTurn _ _ => exact ⟨"has_turn".toList, by simp, by simp [head]⟩
  | extractedFrom _ _ => exact ⟨"extracted_from".toList, by simp, by simp [head]⟩
  | statedBy _ _ => exact ⟨"stated_by".toList, by simp, by simp [head]⟩
  | about _ _ => exact ⟨"about".toList, by simp, by simp [head]⟩
  | hasAlias _ _ => exact ⟨"has_alias".toList, by simp, by simp [head]⟩
  | supersedes _ _ => exact ⟨"supersedes".toList, by simp, by simp [head]⟩

end EdgeSubject

section Edges

variable {allocator : GraphIdAllocator} {contextId : String} {s : EdgeSubject}
  {e : GraphRelationship}

/-- The key and the ends of an edge. -/
theorem MakesEdge.spec (h : MakesEdge allocator contextId s e) :
    e.logicalKey = s.head ++ s.tail contextId ∧
      (e.sourceId, e.destinationId) = s.ends allocator contextId := by
  cases h with
  | hasTurn hctx hturn =>
      subst hctx
      obtain ⟨-, -, hid, -⟩ := turnNode_eq_ok hturn
      exact ⟨rfl, Prod.ext rfl hid⟩
  | extractedFrom hctx hturn =>
      subst hctx
      obtain ⟨-, -, hid, -⟩ := turnNode_eq_ok hturn
      exact ⟨rfl, Prod.ext rfl hid⟩
  | statedBy hctx =>
      subst hctx
      exact ⟨rfl, rfl⟩
  | about hctx =>
      subst hctx
      exact ⟨rfl, rfl⟩
  | hasAlias hctx hmem hname =>
      subst hctx
      obtain ⟨-, hkey, hsource, hdestination⟩ := aliasRecords_spec hmem hname
      exact ⟨hkey, Prod.ext hsource hdestination⟩
  | supersedes hctx =>
      subst hctx
      exact ⟨rfl, rfl⟩

end Edges

namespace EdgeSubject

variable {allocator : GraphIdAllocator} {contextId : String}

theorem turnId_injective {chunkId chunkId' : String}
    (h : allocator.allocateGraphId "turn" contextId ("turn:" ++ chunkId) =
      allocator.allocateGraphId "turn" contextId ("turn:" ++ chunkId')) : chunkId = chunkId' :=
  (String.append_right_inj "turn:").mp (allocator.injective h).2.2

theorem Shifted.ne {first second first' second' : String}
    (h : Shifted first second first' second') : second ≠ second' := by
  rcases h with h | h
  · exact h.ne
  · exact h.ne.symm

/-- Two ids joined. -/
theorem joined_iff {first second first' second' : String} :
    first ++ ":" ++ second = first' ++ ":" ++ second' ↔
      (first = first' ∧ second = second') ∨ Shifted first second first' second' :=
  Separator.text_text

/-- Two edges with one key between two ids, the second of which tells the end
apart. -/
theorem ends_iff {first second first' second' : String} {ends ends' : Nat × Nat}
    (hsame : first = first' → second = second' → ends = ends')
    (hsecond : ends = ends' → second = second') :
    (first ++ ":" ++ second = first' ++ ":" ++ second' → ends = ends') ↔
      ¬ Shifted first second first' second' := by
  rw [joined_iff]
  constructor
  · exact fun h hshift => hshift.ne (hsecond (h (Or.inr hshift)))
  · rintro h (⟨hfirst, hsecond⟩ | hshift)
    · exact hsame hfirst hsecond
    · exact absurd hshift h

/-- Two turns of sessions. -/
theorem hasTurn_iff (sessionId sessionId' : Option String) (chunkId chunkId' : String) :
    (sessionId.getD ("context:" ++ contextId) ++ ":" ++ chunkId =
        sessionId'.getD ("context:" ++ contextId) ++ ":" ++ chunkId' →
      (EdgeSubject.hasTurn sessionId chunkId).ends allocator contextId =
        (EdgeSubject.hasTurn sessionId' chunkId').ends allocator contextId) ↔
      ¬ ((chunkId = chunkId' ∧
          NodeSubject.Defaulted ("context:" ++ contextId) sessionId sessionId') ∨
        Shifted (sessionId.getD ("context:" ++ contextId)) chunkId
          (sessionId'.getD ("context:" ++ contextId)) chunkId') := by
  rw [joined_iff, NodeSubject.getD_eq_iff]
  constructor
  · rintro h (⟨hchunk, hdefault⟩ | hshift)
    · -- the node of a missing session is the one of `unknown`, not of the context
      have hends := (Prod.mk.inj (h (Or.inl ⟨Or.inr hdefault, hchunk⟩))).1
      have hsession := (String.append_right_inj "session:").mp (allocator.injective hends).2.2
      have hne : "unknown" ≠ "context:" ++ contextId := by
        intro heq
        have hlist := congrArg String.toList heq
        simp at hlist
      rcases hdefault with ⟨rfl, rfl⟩ | ⟨rfl, rfl⟩
      · exact hne hsession
      · exact hne hsession.symm
    · exact hshift.ne (turnId_injective (Prod.mk.inj (h (Or.inr hshift))).2)
  · rintro h (⟨hsession | hdefault, hchunk⟩ | hshift)
    · rw [hsession, hchunk]
    · exact absurd (Or.inl ⟨hchunk, hdefault⟩) h
    · exact absurd (Or.inr hshift) h

/-- Two edges with one key. -/
theorem same_iff (allocator : GraphIdAllocator) (contextId : String) (s s' : EdgeSubject) :
    (s.head = s'.head → s.tail contextId = s'.tail contextId →
      s.ends allocator contextId = s'.ends allocator contextId) ↔ ¬ s.Collides contextId s' := by
  cases s with
  | hasTurn sessionId chunkId =>
      cases s' with
      | hasTurn sessionId' chunkId' =>
          simp only [head, tail, Collides, true_implies]
          exact hasTurn_iff sessionId sessionId' chunkId chunkId'
      | _ => simp [head, Collides]
  | extractedFrom factId chunkId =>
      cases s' with
      | extractedFrom factId' chunkId' =>
          simp only [head, tail, Collides, true_implies]
          refine ends_iff (fun hfact hchunk => by rw [hfact, hchunk]) fun hends => ?_
          exact turnId_injective (Prod.mk.inj hends).2
      | _ => simp [head, Collides]
  | statedBy factId speakerId =>
      cases s' with
      | statedBy factId' speakerId' =>
          simp only [head, tail, Collides, true_implies, not_false_eq_true, iff_true]
          intro hkey
          obtain ⟨rfl, rfl⟩ := Separator.text_number hkey
          rfl
      | _ => simp [head, Collides]
  | about factId entityId =>
      cases s' with
      | about factId' entityId' =>
          simp only [head, tail, Collides, true_implies, not_false_eq_true, iff_true]
          intro hkey
          obtain ⟨rfl, rfl⟩ := Separator.text_number hkey
          rfl
      | _ => simp [head, Collides]
  | hasAlias entityId name =>
      cases s' with
      | hasAlias entityId' name' =>
          simp only [head, tail, Collides, true_implies, not_false_eq_true, iff_true]
          intro hkey
          obtain ⟨rfl, rfl⟩ := Separator.number_text hkey
          rfl
      | _ => simp [head, Collides]
  | supersedes factId priorId =>
      cases s' with
      | supersedes factId' priorId' =>
          simp only [head, tail, Collides, true_implies]
          refine ends_iff (fun hfact hprior => by rw [hfact, hprior]) fun hends => ?_
          exact factGraphId_injective _ _ (Prod.mk.inj hends).2
      | _ => simp [head, Collides]

end EdgeSubject

/-! ### Records of a plan -/

section Plans

variable {allocator : GraphIdAllocator} {chunk : Chunk} {now : DateTime} {turn : GraphNode}
  {gs : List Gathered}

/-- Every node of a plan is made for something. -/
theorem nodeWrites_made (hturn : turnNode allocator chunk = .ok turn)
    (hown : OwnMentions allocator chunk.contextId gs) {n : GraphNode}
    (h : n ∈ nodeWrites allocator chunk now turn gs) :
    ∃ s, MakesNode allocator chunk.contextId s n := by
  rcases mem_nodeWrites h with rfl | rfl | rfl |
    ⟨x, hx, rfl | ⟨m, hm, rfl | ⟨r, hr, rfl⟩⟩ | ⟨u, -, rfl⟩⟩
  · exact ⟨_, .session rfl⟩
  · exact ⟨_, .turn rfl hturn⟩
  · exact ⟨_, .speaker rfl⟩
  · exact ⟨_, .fact rfl⟩
  · exact ⟨_, .entity (hown x hx m hm).1⟩
  · obtain ⟨name, hname⟩ := aliasRecords_named hr
    exact ⟨_, .alias (hown x hx m hm).1 hr hname⟩
  · exact ⟨_, .closed⟩

/-- Every relationship of a plan is made for something. -/
theorem relationshipWrites_made (hturn : turnNode allocator chunk = .ok turn)
    (hown : OwnMentions allocator chunk.contextId gs) {e : GraphRelationship}
    (h : e ∈ relationshipWrites allocator chunk now turn gs) :
    ∃ s, MakesEdge allocator chunk.contextId s e := by
  rcases mem_relationshipWrites h with rfl |
    ⟨x, hx, rfl | rfl | ⟨m, hm, rfl | ⟨r, hr, rfl⟩⟩ | ⟨u, -, rfl⟩⟩
  · exact ⟨_, .hasTurn rfl hturn⟩
  · exact ⟨_, .extractedFrom rfl hturn⟩
  · exact ⟨_, .statedBy rfl⟩
  · exact ⟨_, .about rfl⟩
  · obtain ⟨name, hname⟩ := aliasRecords_named hr
    exact ⟨_, .hasAlias (hown x hx m hm).1 hr hname⟩
  · exact ⟨_, .supersedes rfl⟩

end Plans

/-- Logical keys: in one context, two nodes with one key are made for the same
thing, and two relationships with one key have the same ends, if and only if
they do not collide. The collisions are few and each is a case of
`NodeSubject.Collides` or `EdgeSubject.Collides`: a missing session against one
that has the name of the default, and parts with a separator in them. -/
theorem logical_keys_iff (allocator : GraphIdAllocator) (contextId : String) :
    (∀ s s' n n', MakesNode allocator contextId s n → MakesNode allocator contextId s' n' →
      ((n.logicalKey = n'.logicalKey → s.Same s') ↔ ¬ s.Collides s')) ∧
    ∀ s s' e e', MakesEdge allocator contextId s e → MakesEdge allocator contextId s' e' →
      ((e.logicalKey = e'.logicalKey →
        e.sourceId = e'.sourceId ∧ e.destinationId = e'.destinationId) ↔
        ¬ s.Collides contextId s') := by
  constructor
  · intro s s' n n' h h'
    rw [← NodeSubject.same_iff, h.logicalKey, h'.logicalKey]
    constructor
    · exact fun hkey hhead htail => hkey (by rw [hhead, htail])
    · intro hsame hkey
      obtain ⟨hhead, htail⟩ := Separator.head_text s.isHead s'.isHead hkey
      exact hsame hhead htail
  · intro s s' e e' h h'
    obtain ⟨hkey, hends⟩ := h.spec
    obtain ⟨hkey', hends'⟩ := h'.spec
    rw [← EdgeSubject.same_iff allocator, ← hends, ← hends', hkey, hkey', Prod.mk.injEq]
    constructor
    · exact fun hsame hhead htail => hsame (by rw [hhead, htail])
    · intro hsame heq
      obtain ⟨hhead, htail⟩ := Separator.head_text s.isHead s'.isHead heq
      exact hsame hhead htail

/-! ### Sessions of the move -/

/-- The turn of the move in a session, or in none. -/
def movedIn (sessionId : Option String) : Chunk := { seattleChunk with sessionId := sessionId }

theorem movedIn_session (sessionId : Option String) :
    MakesNode numberingAllocator "chat" (.session (named sessionId))
      (sessionNode numberingAllocator (movedIn sessionId)) :=
  @MakesNode.session numberingAllocator "chat" (movedIn sessionId) rfl

/-- A turn without a session and one in the session `monday` do not collide. So
their session nodes have different keys. -/
theorem logical_keys_iff_monday :
    (sessionNode numberingAllocator (movedIn none)).logicalKey ≠
      (sessionNode numberingAllocator (movedIn (some "monday"))).logicalKey := by
  have hapart : ¬ (NodeSubject.session (named none)).Collides (.session (named (some "monday"))) := by
    rintro (⟨-, h⟩ | ⟨h, -⟩)
    · exact absurd h (by decide)
    · exact absurd h (by decide)
  intro hkey
  have hsame := ((logical_keys_iff numberingAllocator "chat").1 _ _ _ _ (movedIn_session none)
    (movedIn_session (some "monday"))).mpr hapart hkey
  cases hsame

/-- A turn without a session and a turn of the session `unknown` have one
session node. -/
theorem missing_session_is_unknown :
    ∃ s s', MakesNode numberingAllocator "chat" s (sessionNode numberingAllocator (movedIn none)) ∧
      MakesNode numberingAllocator "chat" s'
        (sessionNode numberingAllocator (movedIn (some "unknown"))) ∧
      (sessionNode numberingAllocator (movedIn none)).logicalKey =
        (sessionNode numberingAllocator (movedIn (some "unknown"))).logicalKey ∧ ¬ s.Same s' := by
  refine ⟨_, _, movedIn_session none, movedIn_session (some "unknown"), rfl, fun hsame => ?_⟩
  cases hsame

end ContextMemory
