/-
The order in which a turn's facts are listed.

Each candidate assigns its records to the dictionaries of a plan, so of two candidates that
assign different records to one id the later one decides. The plan is the same for every order
exactly if no two candidates do (`plan_order_iff`): they agree on the entities they mention, on
how they close a prior fact, close none of each other's facts and share no `supersedes:` key.
-/

import ContextMemory.Lib.Fallible
import ContextMemory.Lib.Separator
import ContextMemory.Guarantees.Plans

namespace ContextMemory

/-! ### Callables that are functions -/

/-- The callables are functions of their arguments. -/
structure Callables.Functional (c : Callables) : Prop where
  resolve : ∀ i j, c.resolve i j = c.resolve 0 0
  classify : ∀ f, c.classify = some f → ∀ i j, f i j = f 0 0
  findExistingFacts : ∀ f, c.findExistingFacts = some f → ∀ i, f i = f 0

namespace Callables

variable {c : Callables} {contextId : String}

/-- What the callables find out about a candidate. -/
def finding (c : Callables) (contextId : String) (candidate : ExtractedMemoryCandidate) :
    Gathered :=
  match c.gatherOne contextId 0 candidate with
  | .ok x => x
  | .error _ => ⟨candidate, [], []⟩

theorem Functional.resolveMentions (h : c.Functional) (i j : Nat) (entities : List EntityCandidate) :
    c.resolveMentions i contextId j entities = c.resolveMentions 0 contextId 0 entities := by
  have hall : ∀ j j', c.resolveMentions i contextId j entities =
      c.resolveMentions 0 contextId j' entities := by
    induction entities with
    | nil => exact fun _ _ => rfl
    | cons entity rest ih =>
        intro j j'
        simp only [Callables.resolveMentions]
        rw [h.resolve i j, h.resolve 0 j', ih (j + 1) (j' + 1)]
  exact hall j 0

theorem Functional.gatherOne (h : c.Functional) (i : Nat) (candidate : ExtractedMemoryCandidate) :
    c.gatherOne contextId i candidate = c.gatherOne contextId 0 candidate := by
  unfold Callables.gatherOne
  rw [h.resolveMentions i 0]
  dsimp only
  congr 1
  unfold findUpdates
  split
  · rename_i subject predicateKey classify findExisting _ _ hclassify hfind
    rw [h.findExistingFacts _ hfind i,
      funext fun j => (h.classify _ hclassify i j).trans (h.classify _ hclassify 0 j).symm]
  · rfl

/-- The findings about accepted candidates, whatever their order. -/
theorem Functional.gather (h : c.Functional) {records : List ContextRecord}
    {accepted : List ExtractedMemoryCandidate}
    (hvalid : ∀ candidate ∈ accepted, validateCandidate candidate records = .ok ()) (i : Nat) :
    c.gather contextId i accepted = .ok (accepted.map (c.finding contextId)) := by
  induction accepted generalizing i with
  | nil => rfl
  | cons candidate rest ih =>
      obtain ⟨updates, hone⟩ :=
        gatherOne_ok c contextId 0 (hvalid _ List.mem_cons_self)
      have hfinding : c.finding contextId candidate = ⟨candidate,
          c.resolveMentions 0 contextId 0 candidate.entities, updates⟩ := by
        rw [finding, hone]
      rw [Callables.gather, h.gatherOne i, hone]
      dsimp only
      rw [ih (fun d hd => hvalid d (List.mem_cons_of_mem _ hd)) (i + 1), List.map_cons, hfinding]
      rfl

theorem finding_candidate (c : Callables) (contextId : String)
    (candidate : ExtractedMemoryCandidate) : (c.finding contextId candidate).candidate = candidate := by
  unfold finding
  split
  · rename_i x hx
    exact (gatherOne_eq_ok hx).1
  · rfl

theorem finding_mentions {allocator : GraphIdAllocator} (hresolve : c.ResolvesIn allocator contextId)
    (accepted : List ExtractedMemoryCandidate) :
    OwnMentions allocator contextId (accepted.map (c.finding contextId)) := by
  intro x hx m hm
  obtain ⟨candidate, -, rfl⟩ := List.mem_map.mp hx
  unfold finding at hm
  split at hm
  · rename_i x hx
    rw [(gatherOne_eq_ok hx).2.1] at hm
    obtain ⟨j, surface, entityType, hp⟩ := mem_resolveMentions hm
    exact hresolve 0 j surface entityType m.profile hp
  · cases hm

end Callables

/-! ### What two candidates may share -/

/-- The epochs an update writes on the prior fact. -/
def Update.closing (u : Update) : Int × Int :=
  ((u.decision.priorSupersededAt.map (·.timestamp)).getD openSentinel,
    (u.decision.priorValidTo.map (·.timestamp)).getD openSentinel)

/-- The last mention of an entity. -/
def Gathered.mentionOf (x : Gathered) (id : Nat) : Option Mention :=
  Ordered.last (fun m => m.profile.graphId) id x.mentions

/-- The last update of a prior fact. -/
def Gathered.updateOf (x : Gathered) (factId : String) : Option Update :=
  Ordered.last (fun u => u.prior.factId) factId x.updates

/-- Two candidates do not write different records under one id. -/
structure Agreeing (x x' : Gathered) : Prop where
  /-- An entity both mention has one name and one type. -/
  entity : ∀ id m m', x.mentionOf id = some m → x'.mentionOf id = some m' →
    m.profile.canonicalName = m'.profile.canonicalName ∧ m.profile.entityType = m'.profile.entityType
  /-- A prior fact both close is closed with the same values. -/
  closing : ∀ factId u u', x.updateOf factId = some u → x'.updateOf factId = some u' →
    u.closing = u'.closing
  /-- The other's own fact is closed only if the other closes it too. -/
  own : ∀ u, x.updateOf x'.candidate.candidateId = some u →
    x'.updateOf x'.candidate.candidateId ≠ none
  /-- No `supersedes:` key is shared. -/
  keys : ∀ u ∈ x.updates, ∀ u' ∈ x'.updates,
    x.candidate.candidateId ++ ":" ++ u.prior.factId ≠
      x'.candidate.candidateId ++ ":" ++ u'.prior.factId

section Records

variable {allocator : GraphIdAllocator} {chunk : Chunk} {now : DateTime}

def mentionNodes (allocator : GraphIdAllocator) (x : Gathered) : List GraphNode :=
  x.mentions.flatMap fun m => entityNode m.profile :: (aliasRecords allocator m.profile).map (·.1)

theorem gatheredNodes_eq (x : Gathered) : gatheredNodes allocator chunk now x =
    [factNode allocator chunk now x.candidate] ++ (mentionNodes allocator x ++
      x.updates.map (closedNode allocator chunk.contextId)) := by
  simp [gatheredNodes, mentionNodes]

/-- Two alias records with one id are the same. -/
theorem aliasRecords_unique {p p' : EntityProfile} (hctx : p.contextId = p'.contextId)
    {r r' : GraphNode × GraphRelationship} (hr : r ∈ aliasRecords allocator p)
    (hr' : r' ∈ aliasRecords allocator p') :
    (r.1.graphId = r'.1.graphId → r.1 = r'.1) ∧ (r.2.graphId = r'.2.graphId → r.2 = r'.2) := by
  obtain ⟨name, -, rfl⟩ := List.mem_map.mp hr
  obtain ⟨name', -, rfl⟩ := List.mem_map.mp hr'
  constructor
  · intro hid
    have hkey := (allocator.injective hid).2.2
    obtain ⟨rfl, hgraph⟩ := Separator.text_number (by simpa using hkey)
    simp only [hctx, hgraph]
  · intro hid
    have hkey := (allocator.injective hid).2.2
    obtain ⟨hgraph, rfl⟩ := Separator.number_text (by simpa using hkey)
    simp only [plainEdge, entityNode, hctx, hgraph]

variable {turn : GraphNode} {gs : List Gathered} {x : Gathered}

theorem gatheredNodes_placed (hturn : turnNode allocator chunk = .ok turn)
    (hown : OwnMentions allocator chunk.contextId gs) (hx : x ∈ gs) {n : GraphNode}
    (h : n ∈ gatheredNodes allocator chunk now x) :
    Placed allocator chunk.contextId (nodeKind n.label) (.node n) :=
  nodeWrites_placed hturn hown (mem_nodeWrites_gathered hx h)

/-- The label of a node under an id of a kind. -/
theorem Placed.label_eq {contextId kind key : String} {n : GraphNode}
    (h : Placed allocator contextId (nodeKind n.label) (.node n))
    (hid : n.graphId = allocator.allocateGraphId kind contextId key) : nodeKind n.label = kind := by
  obtain ⟨key', hkey'⟩ := h.id
  exact (allocator.injective (hkey'.symm.trans hid)).1

theorem mem_mentionNodes {n : GraphNode} (h : n ∈ mentionNodes allocator x) :
    (∃ m ∈ x.mentions, n = entityNode m.profile) ∨
      ∃ m ∈ x.mentions, ∃ r ∈ aliasRecords allocator m.profile, n = r.1 := by
  obtain ⟨m, hm, hn⟩ := List.mem_flatMap.mp h
  rcases List.mem_cons.mp hn with hn | hn
  · exact Or.inl ⟨m, hm, hn⟩
  · obtain ⟨r, hr, rfl⟩ := List.mem_map.mp hn
    exact Or.inr ⟨m, hm, r, hr, rfl⟩

/-- What a candidate leaves under the id of a fact: its closing, or its birth. -/
theorem last_gatheredNodes_fact (hturn : turnNode allocator chunk = .ok turn)
    (hown : OwnMentions allocator chunk.contextId gs) (hx : x ∈ gs) (factId : String) :
    Ordered.last GraphNode.graphId (factGraphId allocator chunk.contextId factId)
        (gatheredNodes allocator chunk now x) =
      ((x.updateOf factId).map (closedNode allocator chunk.contextId)).or
        (if x.candidate.candidateId = factId then some (factNode allocator chunk now x.candidate)
          else none) := by
  have hmentions : Ordered.last GraphNode.graphId (factGraphId allocator chunk.contextId factId)
      (mentionNodes allocator x) = none := by
    refine Ordered.last_eq_none.mpr fun n hn hid => ?_
    have hmem : n ∈ gatheredNodes allocator chunk now x := by
      rw [gatheredNodes_eq]
      simp [hn]
    have hkind := (gatheredNodes_placed hturn hown hx hmem).label_eq hid
    rcases mem_mentionNodes hn with ⟨m, -, rfl⟩ | ⟨m, -, r, hr, rfl⟩
    · exact absurd hkind (by simp [entityNode, nodeKind])
    · obtain ⟨name, -, rfl⟩ := List.mem_map.mp hr
      exact absurd hkind (by simp [nodeKind])
  have hupdates : Ordered.last GraphNode.graphId (factGraphId allocator chunk.contextId factId)
      (x.updates.map (closedNode allocator chunk.contextId)) =
        (x.updateOf factId).map (closedNode allocator chunk.contextId) :=
    Ordered.last_map fun u _ => ⟨fun h => factGraphId_injective _ _ h, fun h => h ▸ rfl⟩
  have hbirth : Ordered.last GraphNode.graphId (factGraphId allocator chunk.contextId factId)
      [factNode allocator chunk now x.candidate] =
        if x.candidate.candidateId = factId then some (factNode allocator chunk now x.candidate)
          else none := by
    rw [Ordered.last_singleton]
    refine if_congr ⟨fun h => factGraphId_injective _ _ h, fun h => h ▸ rfl⟩ rfl rfl
  rw [gatheredNodes_eq, Ordered.last_append, Ordered.last_append, hmentions, hupdates, hbirth,
    Option.or_none]

/-- What a candidate leaves under the id of an entity: its last mention. -/
theorem last_gatheredNodes_entity (hturn : turnNode allocator chunk = .ok turn)
    (hown : OwnMentions allocator chunk.contextId gs) (hx : x ∈ gs) {id : Nat} {key : String}
    (hid : id = allocator.allocateGraphId "entity" chunk.contextId key) :
    Ordered.last GraphNode.graphId id (gatheredNodes allocator chunk now x) =
      (x.mentionOf id).map fun m => entityNode m.profile := by
  -- records of the other kinds have other ids
  have hother : ∀ n ∈ gatheredNodes allocator chunk now x, nodeKind n.label ≠ "entity" →
      n.graphId ≠ id := by
    intro n hn hkind hsame
    exact hkind ((gatheredNodes_placed hturn hown hx hn).label_eq (hsame.trans hid))
  rw [gatheredNodes_eq] at hother ⊢
  have hupdates : Ordered.last GraphNode.graphId id
      (x.updates.map (closedNode allocator chunk.contextId)) = none := by
    refine Ordered.last_eq_none.mpr fun n hn => hother n (by simp [hn]) ?_
    obtain ⟨u, -, rfl⟩ := List.mem_map.mp hn
    simp [closedNode, nodeKind]
  have hbirth : Ordered.last GraphNode.graphId id [factNode allocator chunk now x.candidate] =
      none := by
    refine Ordered.last_eq_none.mpr fun n hn => hother n (List.mem_append_left _ hn) ?_
    rw [List.mem_singleton.mp hn]
    simp [factNode, nodeKind]
  have hmentions : Ordered.last GraphNode.graphId id (mentionNodes allocator x) =
      (x.mentionOf id).map fun m => entityNode m.profile := by
    have haliases : ∀ m ∈ x.mentions, ∀ n ∈ (aliasRecords allocator m.profile).map (·.1),
        n.graphId ≠ id := by
      intro m hm n hn
      refine hother n ?_ ?_
      · have hmem : n ∈ mentionNodes allocator x :=
          List.mem_flatMap.mpr ⟨m, hm, List.mem_cons_of_mem _ hn⟩
        simp [hmem]
      · obtain ⟨r, hr, rfl⟩ := List.mem_map.mp hn
        obtain ⟨name, -, rfl⟩ := List.mem_map.mp hr
        simp [nodeKind]
    rw [mentionNodes, Ordered.last_flatMap_cons haliases]
    exact Ordered.last_map fun m _ => Iff.rfl
  rw [Ordered.last_append, Ordered.last_append, hupdates, hbirth, hmentions, Option.none_or,
    Option.or_none]

/-! ### Nodes of two candidates -/

theorem closedNode_eq {u u' : Update} (hprior : u.prior.factId = u'.prior.factId)
    (hclosing : u.closing = u'.closing) (contextId : String) :
    closedNode allocator contextId u = closedNode allocator contextId u' := by
  obtain ⟨hsuperseded, hvalid⟩ := Prod.mk.inj hclosing
  simp only [closedNode, closedFields, hprior, hsuperseded, hvalid]

/-- Different values are different properties. -/
theorem closing_eq {u u' : Update} {contextId : String}
    (h : closedNode allocator contextId u = closedNode allocator contextId u') :
    u.closing = u'.closing := by
  have hlookup : ∀ (u : Update), (closedNode allocator contextId u).properties.lookup
      "superseded_at" = some (.int u.closing.1) ∧ (closedNode allocator contextId u).properties.lookup
      "valid_to" = some (.int u.closing.2) := by
    intro u
    exact ⟨lookup_fields_of_mem (by simp [closedFields]) (by simp [closedFields, Update.closing]),
      lookup_fields_of_mem (by simp [closedFields]) (by simp [closedFields, Update.closing])⟩
  obtain ⟨hsuperseded, hvalid⟩ := hlookup u
  rw [h, (hlookup u').1] at hsuperseded
  rw [h, (hlookup u').2] at hvalid
  exact Prod.ext (by simpa using hsuperseded.symm) (by simpa using hvalid.symm)

/-- A closed fact has no text, and a new one has. -/
theorem closedNode_ne_factNode (contextId : String) (u : Update)
    (candidate : ExtractedMemoryCandidate) :
    closedNode allocator contextId u ≠ factNode allocator chunk now candidate := by
  intro h
  have htext := congrArg (fun n : GraphNode => n.properties.lookup "text") h
  have hborn : (factNode allocator chunk now candidate).properties.lookup "text" =
      some (.str candidate.text) :=
    lookup_fields_of_mem factKeys_nodup (by simp [factFields])
  have hclosed : (closedNode allocator contextId u).properties.lookup "text" = none := by
    refine (lookup_fields_of_not_mem (by simp [closedFields])).trans ?_
    rw [Finmap.lookup_eq_none, Finmap.mem_singleton]
    decide
  rw [hclosed, hborn] at htext
  cases htext

theorem entityNode_eq {p p' : EntityProfile} (hid : p.graphId = p'.graphId)
    (hctx : p.contextId = p'.contextId) (hname : p.canonicalName = p'.canonicalName)
    (htype : p.entityType = p'.entityType) : entityNode p = entityNode p' := by
  simp only [entityNode, hid, hctx, hname, htype]

theorem name_type_of_entityNode {p p' : EntityProfile} (h : entityNode p = entityNode p') :
    p.canonicalName = p'.canonicalName ∧ p.entityType = p'.entityType := by
  have hlookup : ∀ p : EntityProfile, (entityNode p).properties.lookup "canonical_name" =
      some (.str p.canonicalName) ∧ (entityNode p).properties.lookup "entity_type" =
      some (.str p.entityType) := by
    intro p
    exact ⟨lookup_fields_of_mem (by simp) (by simp), lookup_fields_of_mem (by simp) (by simp)⟩
  obtain ⟨hname, htype⟩ := hlookup p
  rw [h, (hlookup p').1] at hname
  rw [h, (hlookup p').2] at htype
  exact ⟨by simpa using hname.symm, by simpa using htype.symm⟩

variable {x' : Gathered}

/-- Candidates that agree leave the same node under an id. -/
theorem Agreeing.nodes (hturn : turnNode allocator chunk = .ok turn)
    (hown : OwnMentions allocator chunk.contextId gs) (hx : x ∈ gs) (hx' : x' ∈ gs)
    (hne : x.candidate.candidateId ≠ x'.candidate.candidateId) (h : Agreeing x x')
    (h' : Agreeing x' x) {k : Nat} {n n' : GraphNode}
    (hn : Ordered.last GraphNode.graphId k (gatheredNodes allocator chunk now x) = some n)
    (hn' : Ordered.last GraphNode.graphId k (gatheredNodes allocator chunk now x') = some n') :
    n = n' := by
  obtain ⟨hmem, hid⟩ := Ordered.last_eq_some hn
  obtain ⟨hmem', hid'⟩ := Ordered.last_eq_some hn'
  -- under the id of a fact
  have hfact : ∀ factId, k = factGraphId allocator chunk.contextId factId → n = n' := by
    rintro factId rfl
    rw [last_gatheredNodes_fact hturn hown hx] at hn
    rw [last_gatheredNodes_fact hturn hown hx'] at hn'
    cases hu : x.updateOf factId with
    | some u =>
        rw [hu] at hn
        cases hn
        cases hu' : x'.updateOf factId with
        | some u' =>
            rw [hu'] at hn'
            cases hn'
            refine closedNode_eq ?_ (h.closing factId u u' hu hu') _
            exact (Ordered.last_eq_some hu).2.trans (Ordered.last_eq_some hu').2.symm
        | none =>
            rw [hu', Option.map_none, Option.none_or] at hn'
            split at hn'
            · rename_i hsame
              rw [← hsame] at hu hu'
              exact absurd hu' (h.own u hu)
            · cases hn'
    | none =>
        rw [hu, Option.map_none, Option.none_or] at hn
        split at hn
        · rename_i hsame
          cases hu' : x'.updateOf factId with
          | some u' =>
              rw [← hsame] at hu hu'
              exact absurd hu (h'.own u' hu')
          | none =>
              rw [hu', Option.map_none, Option.none_or] at hn'
              split at hn'
              · rename_i hsame'
                exact absurd (hsame.trans hsame'.symm) hne
              · cases hn'
        · cases hn
  rw [gatheredNodes_eq] at hmem
  rcases List.mem_append.mp hmem with hmem | hmem
  · rw [List.mem_singleton.mp hmem] at hid
    exact hfact _ hid.symm
  rcases List.mem_append.mp hmem with hmem | hmem
  · rcases mem_mentionNodes hmem with ⟨m, hm, rfl⟩ | ⟨m, hm, r, hr, rfl⟩
    · -- under the id of an entity
      obtain ⟨-, key, hkey⟩ := hown x hx m hm
      have hk : k = allocator.allocateGraphId "entity" chunk.contextId key := hid.symm.trans hkey
      rw [last_gatheredNodes_entity hturn hown hx hk, Option.map_eq_some_iff] at hn
      rw [last_gatheredNodes_entity hturn hown hx' hk, Option.map_eq_some_iff] at hn'
      obtain ⟨l, hl, hsame⟩ := hn
      obtain ⟨l', hl', rfl⟩ := hn'
      obtain ⟨hname, htype⟩ := h.entity k l l' hl hl'
      obtain ⟨hlmem, hlid⟩ := Ordered.last_eq_some hl
      obtain ⟨hlmem', hlid'⟩ := Ordered.last_eq_some hl'
      rw [← hsame]
      exact entityNode_eq (hlid.trans hlid'.symm)
        ((hown x hx l hlmem).1.trans (hown x' hx' l' hlmem').1.symm) hname htype
    · -- under the id of an alias, which says what the node is
      have hkind : nodeKind n'.label = "alias" := by
        have hplaced := gatheredNodes_placed hturn hown hx' hmem'
        obtain ⟨hctx, -⟩ := hown x hx m hm
        obtain ⟨name, -, rfl⟩ := List.mem_map.mp hr
        have hk : n'.graphId = allocator.allocateGraphId "alias" chunk.contextId
            ("alias:" ++ (name ++ ":" ++ toString m.profile.graphId)) := by
          rw [← hctx]
          exact hid'.trans hid.symm
        exact hplaced.label_eq hk
      rw [gatheredNodes_eq] at hmem'
      rcases List.mem_append.mp hmem' with hmem' | hmem'
      · rw [List.mem_singleton.mp hmem'] at hkind
        exact absurd hkind (by simp [factNode, nodeKind])
      rcases List.mem_append.mp hmem' with hmem' | hmem'
      · rcases mem_mentionNodes hmem' with ⟨m', -, rfl⟩ | ⟨m', hm', r', hr', rfl⟩
        · exact absurd hkind (by simp [entityNode, nodeKind])
        · have hctx := (hown x hx m hm).1.trans (hown x' hx' m' hm').1.symm
          exact (aliasRecords_unique hctx hr hr').1 (hid.trans hid'.symm)
      · obtain ⟨u, -, rfl⟩ := List.mem_map.mp hmem'
        exact absurd hkind (by simp [closedNode, nodeKind])
  · obtain ⟨u, -, rfl⟩ := List.mem_map.mp hmem
    exact hfact _ hid.symm

/-- If two candidates leave the same node under every id, they agree on entities
and closings. -/
theorem agree_of_nodes (hturn : turnNode allocator chunk = .ok turn)
    (hown : OwnMentions allocator chunk.contextId gs) (hx : x ∈ gs) (hx' : x' ∈ gs)
    (h : ∀ k n n', Ordered.last GraphNode.graphId k (gatheredNodes allocator chunk now x) = some n →
      Ordered.last GraphNode.graphId k (gatheredNodes allocator chunk now x') = some n' → n = n') :
    (∀ id m m', x.mentionOf id = some m → x'.mentionOf id = some m' →
      m.profile.canonicalName = m'.profile.canonicalName ∧
        m.profile.entityType = m'.profile.entityType) ∧
    (∀ factId u u', x.updateOf factId = some u → x'.updateOf factId = some u' →
      u.closing = u'.closing) ∧
    ∀ u, x.updateOf x'.candidate.candidateId = some u →
      x'.updateOf x'.candidate.candidateId ≠ none := by
  refine ⟨fun id m m' hm hm' => ?_, fun factId u u' hu hu' => ?_, fun u hu hnone => ?_⟩
  · obtain ⟨hmem, hid⟩ := Ordered.last_eq_some hm
    obtain ⟨-, key, hkey⟩ := hown x hx m hmem
    have hk : id = allocator.allocateGraphId "entity" chunk.contextId key := hid.symm.trans hkey
    refine name_type_of_entityNode (h id _ _ ?_ ?_)
    · rw [last_gatheredNodes_entity hturn hown hx hk, hm, Option.map_some]
    · rw [last_gatheredNodes_entity hturn hown hx' hk, hm', Option.map_some]
  · have hleft := @last_gatheredNodes_fact allocator chunk now turn gs x hturn hown hx factId
    have hright := @last_gatheredNodes_fact allocator chunk now turn gs x' hturn hown hx' factId
    rw [hu, Option.map_some, Option.some_or] at hleft
    rw [hu', Option.map_some, Option.some_or] at hright
    exact closing_eq (h _ _ _ hleft hright)
  · have hleft := @last_gatheredNodes_fact allocator chunk now turn gs x hturn hown hx
      x'.candidate.candidateId
    have hright := @last_gatheredNodes_fact allocator chunk now turn gs x' hturn hown hx'
      x'.candidate.candidateId
    rw [hu, Option.map_some, Option.some_or] at hleft
    rw [hnone, Option.map_none, Option.none_or, if_pos rfl] at hright
    exact closedNode_ne_factNode _ _ _ (h _ _ _ hleft hright)

/-! ### Edges of two candidates -/

theorem gatheredRelationships_placed (hown : OwnMentions allocator chunk.contextId gs) (hx : x ∈ gs)
    {e : GraphRelationship} (h : e ∈ gatheredRelationships allocator chunk now turn x) :
    Placed allocator chunk.contextId (edgeKind e.relationshipType) (.relationship e) :=
  relationshipWrites_placed hown (List.mem_cons_of_mem _ (List.mem_flatMap.mpr ⟨x, hx, h⟩))

theorem edgeKind_injective {a b : RelationshipType} (h : edgeKind a = edgeKind b) : a = b := by
  cases a <;> cases b <;> first | rfl | exact absurd h (by decide)

/-- Edges under one id have one type. -/
theorem type_eq_of_graphId {e e' : GraphRelationship} {contextId : String}
    (h : Placed allocator contextId (edgeKind e.relationshipType) (.relationship e))
    (h' : Placed allocator contextId (edgeKind e'.relationshipType) (.relationship e'))
    (hid : e.graphId = e'.graphId) : e.relationshipType = e'.relationshipType := by
  obtain ⟨key, hkey⟩ := h.id
  obtain ⟨key', hkey'⟩ := h'.id
  exact edgeKind_injective (allocator.injective (hkey.symm.trans (Eq.trans hid hkey'))).1

theorem aliasRecords_type {p : EntityProfile} {r : GraphNode × GraphRelationship}
    (h : r ∈ aliasRecords allocator p) : r.2.relationshipType = .hasAlias := by
  obtain ⟨name, -, rfl⟩ := List.mem_map.mp h
  rfl

/-- What an edge of a candidate is, by its type. -/
structure EdgeOf (allocator : GraphIdAllocator) (chunk : Chunk) (now : DateTime) (turn : GraphNode)
    (x : Gathered) (e : GraphRelationship) : Prop where
  extractedFrom : e.relationshipType = .extractedFrom → e = extractedFromEdge allocator chunk
    x.candidate (factNode allocator chunk now x.candidate) turn
  statedBy : e.relationshipType = .statedBy → e = statedByEdge allocator chunk x.candidate
    (factNode allocator chunk now x.candidate) (speakerEntityNode allocator chunk)
  about : e.relationshipType = .about → ∃ m ∈ x.mentions, e = aboutEdge allocator chunk.contextId
    x.candidate (factNode allocator chunk now x.candidate) m
  hasAlias : e.relationshipType = .hasAlias → ∃ m ∈ x.mentions,
    ∃ r ∈ aliasRecords allocator m.profile, e = r.2
  supersedes : e.relationshipType = .supersedes → ∃ u ∈ x.updates, e = supersedesEdge allocator
    chunk.contextId x.candidate (factNode allocator chunk now x.candidate) u

theorem edgeOf_gatheredRelationships {e : GraphRelationship}
    (h : e ∈ gatheredRelationships allocator chunk now turn x) :
    EdgeOf allocator chunk now turn x e := by
  rcases mem_gatheredRelationships h with rfl | rfl | ⟨m, hm, rfl | ⟨r, hr, rfl⟩⟩ | ⟨u, hu, rfl⟩
  · exact ⟨fun _ => rfl, nofun, nofun, nofun, nofun⟩
  · exact ⟨nofun, fun _ => rfl, nofun, nofun, nofun⟩
  · exact ⟨nofun, nofun, fun _ => ⟨m, hm, rfl⟩, nofun, nofun⟩
  · refine ⟨?_, ?_, ?_, fun _ => ⟨m, hm, r, hr, rfl⟩, ?_⟩ <;>
      · intro hother
        rw [aliasRecords_type hr] at hother
        cases hother
  · exact ⟨nofun, nofun, nofun, nofun, fun _ => ⟨u, hu, rfl⟩⟩

/-- Candidates that agree leave the same edge under an id. -/
theorem Agreeing.relationships (hown : OwnMentions allocator chunk.contextId gs) (hx : x ∈ gs)
    (hx' : x' ∈ gs) (hne : x.candidate.candidateId ≠ x'.candidate.candidateId) (h : Agreeing x x')
    {e e' : GraphRelationship} (he : e ∈ gatheredRelationships allocator chunk now turn x)
    (he' : e' ∈ gatheredRelationships allocator chunk now turn x') (hid : e.graphId = e'.graphId) :
    e = e' := by
  have htype := type_eq_of_graphId (gatheredRelationships_placed hown hx he)
    (gatheredRelationships_placed hown hx' he') hid
  have hother := edgeOf_gatheredRelationships he'
  have hkey : ∀ {kind key key' : String}, allocator.allocateGraphId kind chunk.contextId key =
      allocator.allocateGraphId kind chunk.contextId key' → key = key' :=
    fun hsame => (allocator.injective hsame).2.2
  -- the id of an edge names the fact it starts at, except for the edge of an alias
  rcases mem_gatheredRelationships he with rfl | rfl | ⟨m, hm, rfl | ⟨r, hr, rfl⟩⟩ | ⟨u, hu, rfl⟩
  · cases hother.extractedFrom htype.symm
    exact absurd (Separator.text_common ((String.append_right_inj _).mp (hkey hid))) hne
  · cases hother.statedBy htype.symm
    exact absurd (Separator.text_common ((String.append_right_inj _).mp (hkey hid))) hne
  · obtain ⟨m', -, rfl⟩ := hother.about htype.symm
    exact absurd (Separator.text_number ((String.append_right_inj _).mp (hkey hid))).1 hne
  · obtain ⟨m', hm', r', hr', rfl⟩ := hother.hasAlias (htype.symm.trans (aliasRecords_type hr))
    have hctx := (hown x hx m hm).1.trans (hown x' hx' m' hm').1.symm
    exact (aliasRecords_unique hctx hr hr').2 hid
  · obtain ⟨u', hu', rfl⟩ := hother.supersedes htype.symm
    exact absurd ((String.append_right_inj _).mp (hkey hid)) (h.keys u hu u' hu')

/-- If two candidates leave the same edge under every id, they share no
`supersedes:` key. -/
theorem keys_of_relationships (hown : OwnMentions allocator chunk.contextId gs) (hx : x ∈ gs)
    (hx' : x' ∈ gs) (hne : x.candidate.candidateId ≠ x'.candidate.candidateId)
    (h : ∀ k e e', Ordered.last GraphRelationship.graphId k
        (gatheredRelationships allocator chunk now turn x) = some e →
      Ordered.last GraphRelationship.graphId k
        (gatheredRelationships allocator chunk now turn x') = some e' → e = e') {u u' : Update}
    (hu : u ∈ x.updates) (hu' : u' ∈ x'.updates) :
    x.candidate.candidateId ++ ":" ++ u.prior.factId ≠
      x'.candidate.candidateId ++ ":" ++ u'.prior.factId := by
  intro hkey
  -- the last edge under the key of one candidate starts at its fact
  have hleft : ∀ {x : Gathered}, x ∈ gs → ∀ {u : Update}, u ∈ x.updates → ∃ e,
      Ordered.last GraphRelationship.graphId (allocator.allocateGraphId "supersedes" chunk.contextId
        ("supersedes:" ++ (x.candidate.candidateId ++ ":" ++ u.prior.factId)))
        (gatheredRelationships allocator chunk now turn x) = some e ∧
      e.sourceId = factGraphId allocator chunk.contextId x.candidate.candidateId := by
    intro x hx u hu
    have hmem : supersedesEdge allocator chunk.contextId x.candidate
        (factNode allocator chunk now x.candidate) u ∈
          gatheredRelationships allocator chunk now turn x :=
      List.mem_append_right _ (List.mem_map_of_mem hu)
    cases hlast : Ordered.last GraphRelationship.graphId (allocator.allocateGraphId "supersedes"
        chunk.contextId ("supersedes:" ++ (x.candidate.candidateId ++ ":" ++ u.prior.factId)))
        (gatheredRelationships allocator chunk now turn x) with
    | none => exact absurd rfl (Ordered.last_eq_none.mp hlast _ hmem)
    | some e =>
        refine ⟨e, rfl, ?_⟩
        obtain ⟨he, hid⟩ := Ordered.last_eq_some hlast
        have htype := type_eq_of_graphId (gatheredRelationships_placed hown hx he)
          (gatheredRelationships_placed hown hx hmem) hid
        obtain ⟨u, -, rfl⟩ := (edgeOf_gatheredRelationships he).supersedes htype
        rfl
  obtain ⟨e, he, hsource⟩ := hleft hx hu
  obtain ⟨e', he', hsource'⟩ := hleft hx' hu'
  rw [hkey] at he
  rw [h _ e e' he he', hsource'] at hsource
  exact hne (factGraphId_injective _ _ hsource).symm

/-- Two candidates leave the same records under every id exactly if they agree. -/
theorem agreeing_iff (now : DateTime) (hturn : turnNode allocator chunk = .ok turn)
    (hown : OwnMentions allocator chunk.contextId gs) (hx : x ∈ gs) (hx' : x' ∈ gs)
    (hne : x.candidate.candidateId ≠ x'.candidate.candidateId) :
    ((∀ k n n', Ordered.last GraphNode.graphId k (gatheredNodes allocator chunk now x) = some n →
        Ordered.last GraphNode.graphId k (gatheredNodes allocator chunk now x') = some n' →
        n = n') ∧
      ∀ k e e', Ordered.last GraphRelationship.graphId k
          (gatheredRelationships allocator chunk now turn x) = some e →
        Ordered.last GraphRelationship.graphId k
          (gatheredRelationships allocator chunk now turn x') = some e' → e = e') ↔
      Agreeing x x' ∧ Agreeing x' x := by
  constructor
  · rintro ⟨hnodes, hedges⟩
    obtain ⟨hentity, hclosing, hownFact⟩ := agree_of_nodes hturn hown hx hx' hnodes
    obtain ⟨hentity', hclosing', hownFact'⟩ := agree_of_nodes hturn hown hx' hx
      fun k n n' hn hn' => (hnodes k n' n hn' hn).symm
    have hkeys : ∀ u ∈ x.updates, ∀ u' ∈ x'.updates,
        x.candidate.candidateId ++ ":" ++ u.prior.factId ≠
          x'.candidate.candidateId ++ ":" ++ u'.prior.factId :=
      fun u hu u' hu' => keys_of_relationships hown hx hx' hne hedges hu hu'
    exact ⟨⟨hentity, hclosing, hownFact, hkeys⟩,
      ⟨hentity', hclosing', hownFact', fun u' hu' u hu => (hkeys u hu u' hu').symm⟩⟩
  · rintro ⟨h, h'⟩
    refine ⟨fun k n n' hn hn' => h.nodes hturn hown hx hx' hne h' hn hn', fun k e e' he he' => ?_⟩
    obtain ⟨hmem, hid⟩ := Ordered.last_eq_some he
    obtain ⟨hmem', hid'⟩ := Ordered.last_eq_some he'
    exact h.relationships hown hx hx' hne hmem hmem' (hid.trans hid'.symm)

end Records

/-! ### Orders -/

/-- The same nodes and the same relationships. -/
def SameRecords (p p' : GraphWritePlan) : Prop :=
  (∀ n, n ∈ p.nodes ↔ n ∈ p'.nodes) ∧ ∀ e, e ∈ p.relationships ↔ e ∈ p'.relationships

/-- What `build` returns for accepted candidates. -/
theorem Callables.build_eq (allocator : GraphIdAllocator) {chunk : Chunk} (now : DateTime)
    {turn : GraphNode} {c : Callables} {records : List ContextRecord}
    {accepted : List ExtractedMemoryCandidate} (hcontext : chunk.contextId ≠ "")
    (hturn : turnNode allocator chunk = .ok turn)
    (hvalid : ∀ candidate ∈ accepted, validateCandidate candidate records = .ok ())
    (hfunctional : c.Functional) (hresolve : c.ResolvesIn allocator chunk.contextId) :
    ∃ plan, c.build allocator chunk now accepted = .ok plan ∧
      plan.nodes = Ordered.ofAssignments GraphNode.graphId
        ([sessionNode allocator chunk, turn, speakerEntityNode allocator chunk] ++
          accepted.flatMap fun d => gatheredNodes allocator chunk now (c.finding chunk.contextId d)) ∧
      plan.relationships = Ordered.ofAssignments GraphRelationship.graphId
        ([hasTurnEdge allocator chunk (sessionNode allocator chunk) turn] ++ accepted.flatMap
          fun d => gatheredRelationships allocator chunk now turn (c.finding chunk.contextId d)) := by
  obtain ⟨plan, hplan⟩ := assemble_ok now hcontext hturn (Callables.finding_mentions hresolve accepted)
  obtain ⟨-, hnodes, hedges⟩ := assemble_eq_ok hplan
  refine ⟨plan, ?_, ?_, ?_⟩
  · rw [Callables.build, hturn]
    dsimp only
    rw [hfunctional.gather hvalid]
    exact hplan
  · rw [hnodes, nodeWrites, List.flatMap_map]
  · rw [hedges, relationshipWrites, List.flatMap_map]
    rfl

/-- When two builds hold the same records. -/
theorem Callables.sameRecords_iff (allocator : GraphIdAllocator) {chunk : Chunk} (now : DateTime)
    {turn : GraphNode} {c : Callables} {records : List ContextRecord}
    {accepted accepted' : List ExtractedMemoryCandidate} (hcontext : chunk.contextId ≠ "")
    (hturn : turnNode allocator chunk = .ok turn)
    (hvalid : ∀ candidate ∈ accepted, validateCandidate candidate records = .ok ())
    (hvalid' : ∀ candidate ∈ accepted', validateCandidate candidate records = .ok ())
    (hfunctional : c.Functional) (hresolve : c.ResolvesIn allocator chunk.contextId) :
    (∃ plan plan', c.build allocator chunk now accepted = .ok plan ∧
        c.build allocator chunk now accepted' = .ok plan' ∧ SameRecords plan' plan) ↔
      (∀ n, n ∈ Ordered.ofAssignments GraphNode.graphId
          ([sessionNode allocator chunk, turn, speakerEntityNode allocator chunk] ++
            accepted'.flatMap fun d =>
              gatheredNodes allocator chunk now (c.finding chunk.contextId d)) ↔
        n ∈ Ordered.ofAssignments GraphNode.graphId
          ([sessionNode allocator chunk, turn, speakerEntityNode allocator chunk] ++
            accepted.flatMap fun d =>
              gatheredNodes allocator chunk now (c.finding chunk.contextId d))) ∧
      ∀ e, e ∈ Ordered.ofAssignments GraphRelationship.graphId
          ([hasTurnEdge allocator chunk (sessionNode allocator chunk) turn] ++ accepted'.flatMap
            fun d => gatheredRelationships allocator chunk now turn
              (c.finding chunk.contextId d)) ↔
        e ∈ Ordered.ofAssignments GraphRelationship.graphId
          ([hasTurnEdge allocator chunk (sessionNode allocator chunk) turn] ++ accepted.flatMap
            fun d => gatheredRelationships allocator chunk now turn
              (c.finding chunk.contextId d)) := by
  obtain ⟨plan, hplan, hnodes, hedges⟩ :=
    Callables.build_eq allocator now hcontext hturn hvalid hfunctional hresolve
  obtain ⟨plan', hplan', hnodes', hedges'⟩ :=
    Callables.build_eq allocator now hcontext hturn hvalid' hfunctional hresolve
  rw [← hnodes, ← hnodes', ← hedges, ← hedges']
  constructor
  · rintro ⟨p, p', hp, hp', hsame⟩
    cases hp.symm.trans hplan
    cases hp'.symm.trans hplan'
    exact hsame
  · exact fun hsame => ⟨plan, plan', hplan, hplan', hsame⟩

/-- The order of the candidates: `build` yields the same nodes and the same
relationships for every order of accepted candidates with distinct ids if and
only if any two of them agree. Where two write one id, the later one wins; so
agreement is about the ids that two candidates share, the entities and the prior
facts foremost. -/
theorem plan_order_iff (allocator : GraphIdAllocator) (chunk : Chunk)
    (hcontext : chunk.contextId ≠ "")
    (hindex : ∀ text, chunk.metadata.lookup "turn_index" ≠ some (.compound text))
    (accepted : List ExtractedMemoryCandidate) (records : List ContextRecord)
    (hvalid : ∀ candidate ∈ accepted, validateCandidate candidate records = .ok ())
    (hids : (accepted.map (·.candidateId)).Nodup) (c : Callables) (hfunctional : c.Functional)
    (hresolve : c.ResolvesIn allocator chunk.contextId) (now : DateTime) :
    (∀ accepted' : List ExtractedMemoryCandidate, accepted'.Perm accepted → ∃ plan plan',
        c.build allocator chunk now accepted = .ok plan ∧
        c.build allocator chunk now accepted' = .ok plan' ∧ SameRecords plan' plan) ↔
      ∀ d ∈ accepted, ∀ d' ∈ accepted, d ≠ d' →
        Agreeing (c.finding chunk.contextId d) (c.finding chunk.contextId d') := by
  obtain ⟨turn, hturn⟩ := turnNode_ok allocator hindex
  have hown := Callables.finding_mentions hresolve accepted
  have hmem : ∀ d ∈ accepted,
      c.finding chunk.contextId d ∈ accepted.map (c.finding chunk.contextId) :=
    fun d hd => List.mem_map_of_mem hd
  have hdiffer : ∀ d ∈ accepted, ∀ d' ∈ accepted, d ≠ d' →
      (c.finding chunk.contextId d).candidate.candidateId ≠
        (c.finding chunk.contextId d').candidate.candidateId := by
    intro d hd d' hd' hne hsame
    rw [Callables.finding_candidate, Callables.finding_candidate] at hsame
    exact hne (List.inj_on_of_nodup_map hids hd hd' hsame)
  -- both dictionaries, over all orders and over all pairs
  have hnodes := @Ordered.ofAssignments_perm_iff _ _ _ GraphNode.graphId _
    (fun d => gatheredNodes allocator chunk now (c.finding chunk.contextId d))
    [sessionNode allocator chunk, turn, speakerEntityNode allocator chunk] accepted
  have hedges := @Ordered.ofAssignments_perm_iff _ _ _ GraphRelationship.graphId _
    (fun d => gatheredRelationships allocator chunk now turn (c.finding chunk.contextId d))
    [hasTurnEdge allocator chunk (sessionNode allocator chunk) turn] accepted
  refine (forall₂_congr fun accepted' hperm => Callables.sameRecords_iff allocator now hcontext
    hturn hvalid (fun d hd => hvalid d (hperm.mem_iff.mp hd)) hfunctional hresolve).trans ?_
  rw [forall₂_and, hnodes, hedges]
  have hpair := fun d hd d' hd' (hne : d ≠ d') =>
    agreeing_iff now hturn hown (hmem d hd) (hmem d' hd') (hdiffer d hd d' hd' hne)
  constructor
  · rintro ⟨hagree, hagree'⟩ d hd d' hd' hne
    exact ((hpair d hd d' hd' hne).mp ⟨hagree d hd d' hd', hagree' d hd d' hd'⟩).1
  · intro h
    refine ⟨fun d hd d' hd' k n n' hn hn' => ?_, fun d hd d' hd' k e e' he he' => ?_⟩
    · by_cases hne : d = d'
      · subst hne
        exact Option.some.inj (hn.symm.trans hn')
      · exact ((hpair d hd d' hd' hne).mpr ⟨h d hd d' hd' hne, h d' hd' d hd (Ne.symm hne)⟩).1 k n n'
          hn hn'
    · by_cases hne : d = d'
      · subst hne
        exact Option.some.inj (he.symm.trans he')
      · exact ((hpair d hd d' hd' hne).mpr ⟨h d hd d' hd' hne, h d' hd' d hd (Ne.symm hne)⟩).2 k e e'
          he he'

/-! ### Two facts of the move -/

/-- A second fact of the turn of the move. -/
def homeCandidate (validFrom : Option DateTime) : ExtractedMemoryCandidate :=
  { seattleCandidate validFrom with
    candidateId := "home"
    text := "Max lives in Seattle."
    candidateId_ne := by decide
    text_ne := by decide }

theorem movingCallables_functional : movingCallables.Functional where
  resolve _ _ := rfl
  classify _ hf _ _ := by
    cases hf
    rfl
  findExistingFacts _ hf _ := by
    cases hf
    rfl

/-- Boston, closed when the turn of the move was observed. -/
def bostonUpdate : Update where
  prior := ⟨"boston", maxProfile.graphId, "lives_in", "Max lives in Boston.", nine, none, none⟩
  decision := {
    relation := .stateChange
    reason := "model-confirmed state change"
    priorSupersededAt := some ten
    priorValidTo := some ten }

theorem finding_move : ∀ d ∈ [seattleCandidate none, homeCandidate none],
    movingCallables.finding "chat" d = ⟨d, [⟨"Max", maxProfile⟩], [bostonUpdate]⟩ := by
  decide +kernel

/-- Two candidates of one turn that both close the fact about Boston, at one
time. They agree, so every order of them gives the same nodes and relationships. -/
theorem plan_order_iff_move :
    movingCallables.Functional ∧ movingCallables.ResolvesIn numberingAllocator "chat" ∧
      ∀ accepted' : List ExtractedMemoryCandidate,
        accepted'.Perm [seattleCandidate none, homeCandidate none] → ∃ plan plan',
          movingCallables.build numberingAllocator seattleChunk ten
            [seattleCandidate none, homeCandidate none] = .ok plan ∧
          movingCallables.build numberingAllocator seattleChunk ten accepted' = .ok plan' ∧
          SameRecords plan' plan := by
  refine ⟨movingCallables_functional, movingCallables_resolvesIn, ?_⟩
  have hvalid : ∀ candidate ∈ [seattleCandidate none, homeCandidate none],
      validateCandidate candidate [seattleRecord ten] = .ok () := by
    intro candidate hmem
    rcases List.mem_pair.mp hmem with rfl | rfl
    · rfl
    · rfl
  refine (plan_order_iff numberingAllocator seattleChunk (by decide)
    (fun text => by simp [seattleChunk, seattleCall, seattleRecord, Call.chunk, chunkFromRecord])
    _ _ hvalid (by decide) movingCallables movingCallables_functional movingCallables_resolvesIn
    ten).mpr ?_
  intro d hd d' hd' hne
  have hids : d.candidateId ≠ d'.candidateId ∧ d'.candidateId ≠ "boston" := by
    rcases List.mem_pair.mp hd with rfl | rfl <;> rcases List.mem_pair.mp hd' with rfl | rfl
    · exact absurd rfl hne
    · decide
    · decide
    · exact absurd rfl hne
  have hchat : seattleChunk.contextId = "chat" := rfl
  rw [hchat, finding_move d hd, finding_move d' hd']
  -- both mention Max and close Boston, at ten
  refine ⟨fun id m m' hm hm' => ?_, fun factId u u' hu hu' => ?_, fun u hu => ?_,
    fun u hu u' hu' => ?_⟩
  · rw [List.mem_singleton.mp (Ordered.last_eq_some hm).1,
      List.mem_singleton.mp (Ordered.last_eq_some hm').1]
    exact ⟨rfl, rfl⟩
  · rw [List.mem_singleton.mp (Ordered.last_eq_some hu).1,
      List.mem_singleton.mp (Ordered.last_eq_some hu').1]
  · obtain ⟨hmem, hid⟩ := Ordered.last_eq_some hu
    rw [List.mem_singleton.mp hmem] at hid
    exact absurd hid.symm hids.2
  · rw [List.mem_singleton.mp hu, List.mem_singleton.mp hu']
    exact fun hsame => hids.1 (Separator.text_common hsame)

/-- Until when the plan says that Boston was true. -/
def bostonUntil (plan : GraphWritePlan) : List (Option Scalar) :=
  (plan.nodes.filter fun n => n.graphId = factGraphId numberingAllocator "chat" "boston").map
    fun n => n.properties.lookup "valid_to"

theorem bostonUntil_subset {plan plan' : GraphWritePlan} (h : SameRecords plan' plan) :
    bostonUntil plan ⊆ bostonUntil plan' := by
  refine List.map_subset _ fun n hn => ?_
  rw [List.mem_filter] at hn ⊢
  exact ⟨(h.1 n).mpr hn.1, hn.2⟩

/-- The fact of the turn that the model lists last says until when Max lived in
Boston. -/
theorem later_fact_decides :
    (∀ candidate ∈ [seattleCandidate none, homeCandidate (some nine)],
      validateCandidate candidate [seattleRecord ten] = .ok ()) ∧
    movingCallables.Functional ∧ movingCallables.ResolvesIn numberingAllocator "chat" ∧
    ∃ plan plan', movingCallables.build numberingAllocator seattleChunk ten
        [seattleCandidate none, homeCandidate (some nine)] = .ok plan ∧
      movingCallables.build numberingAllocator seattleChunk ten
        [homeCandidate (some nine), seattleCandidate none] = .ok plan' ∧
      ¬ SameRecords plan' plan := by
  have hbuilds : (movingCallables.build numberingAllocator seattleChunk ten
        [seattleCandidate none, homeCandidate (some nine)]).map bostonUntil =
          .ok [some (.int nine.timestamp)] ∧
      (movingCallables.build numberingAllocator seattleChunk ten
        [homeCandidate (some nine), seattleCandidate none]).map bostonUntil =
          .ok [some (.int ten.timestamp)] := by
    decide +kernel
  obtain ⟨plan, hplan, hnine⟩ := Fallible.map_eq_ok.mp hbuilds.1
  obtain ⟨plan', hplan', hten⟩ := Fallible.map_eq_ok.mp hbuilds.2
  refine ⟨fun candidate hmem => ?_, movingCallables_functional, movingCallables_resolvesIn, plan,
    plan', hplan, hplan', fun hsame => ?_⟩
  · rcases List.mem_pair.mp hmem with rfl | rfl
    · rfl
    · rfl
  · have hsubset := bostonUntil_subset hsame
    rw [hnine, hten] at hsubset
    exact absurd hsubset (by decide)

end ContextMemory
