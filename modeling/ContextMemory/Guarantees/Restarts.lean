/-
Entities across restarts.

The id of an entity and its row in the manifest are durable; the rest of its profile is the
registry's, and the registry starts empty in every process. Its `entity_type` is that of the
first mention in the process, so the node built for one name is the same in every process
only if these first mentions agree (`entity_payloads_stable`).
-/

import ContextMemory.Lib.Fallible
import ContextMemory.Guarantees.Entities
import ContextMemory.Guarantees.Provenance

namespace ContextMemory

open Faulty Manifest

/-! ### The types of registered entities -/

/-- The profile has the type given to its name. -/
def OfType (types : String → String → String) (p : EntityProfile) : Prop :=
  p.entityType = types p.contextId p.canonicalName

/-- The profiles of a registry: its own, one per id, each of the type given to its name. -/
structure TypedProfiles (registry : EntityRegistry) (types : String → String → String)
    (profiles : Profiles) : Prop where
  allocated : ∀ p ∈ profiles, registry.Allocated p
  typed : ∀ p ∈ profiles, OfType types p
  ids_nodup : (profiles.map (·.graphId)).Nodup

/-- A mention of the name makes no new profile any more. -/
def Settled (registry : EntityRegistry) (profiles : Profiles) (contextId name : String) : Prop :=
  ∃ p ∈ profiles, (p.contextId = contextId ∧ registry.canonicalize p.canonicalName = .ok name) ∨
    p.graphId = registry.entityId contextId name

/-- The first mention of a name, in the process (`start` is what it has registered) and in the
list, carries the type given to it. With a name index a mention can be the first to make the
entity without being the first in the list. -/
def FirstMentions (registry : EntityRegistry) (types : String → String → String)
    (start : Profiles) (contextId : String) (mentions : List EntityCandidate) : Prop :=
  ∀ before entity after, mentions = before ++ entity :: after →
    ∀ name, registry.canonicalize entity.surface = .ok name →
      (∀ p ∈ start, p.contextId = contextId → p.canonicalName ≠ name) →
      (registry.nameIndex = none → ∀ e ∈ before, registry.canonicalize e.surface ≠ .ok name) →
      orText entity.entityType "other" = types contextId name

section Mentions

variable {registry : EntityRegistry} {types : String → String → String}
  {profiles profiles' : Profiles} {contextId surface entityType : String}

theorem Settled.mono {name : String} (h : Settled registry profiles contextId name)
    (hsub : profiles ⊆ profiles') : Settled registry profiles' contextId name := by
  obtain ⟨p, hp, hmatch⟩ := h
  exact ⟨p, hsub hp, hmatch⟩

/-- Registering a profile without a conflict keeps the others. -/
theorem TypedProfiles.subset_upsert (h : TypedProfiles registry types profiles) {p : EntityProfile}
    (hregistered : ∀ existing, Ordered.find EntityProfile.graphId p.graphId profiles =
      some existing → existing = p) :
    profiles ⊆ Ordered.upsert EntityProfile.graphId p profiles := by
  intro q hq
  by_cases hid : q.graphId = p.graphId
  · have hfind : Ordered.find EntityProfile.graphId p.graphId profiles = some q := by
      rw [← hid]
      exact Ordered.find_of_mem h.ids_nodup hq
    rw [hregistered q hfind]
    exact Ordered.mem_upsert_self p profiles
  · exact Ordered.mem_upsert_of_ne hq hid

/-- A profile made for a surface that was settled is registered already. -/
theorem TypedProfiles.mem_of_settled (h : TypedProfiles registry types profiles)
    {p : EntityProfile}
    (hmade : EntityRegistry.MadeFor registry profiles contextId surface entityType p)
    (hsettled : Settled registry profiles contextId p.canonicalName) : p ∈ profiles := by
  obtain ⟨q, hq, ⟨hctx, hname⟩ | hid⟩ := hsettled
  · exact absurd hname (hmade.unmatched q hq hctx)
  · have hsame : q.graphId = p.graphId := by
      rw [hid, hmade.allocated.1, hmade.context]
      rfl
    have hfind : Ordered.find EntityProfile.graphId p.graphId profiles = some q := by
      rw [← hsame]
      exact Ordered.find_of_mem h.ids_nodup hq
    exact hmade.registered q hfind ▸ hq

/-- Without a name index, a mention that was resolved is settled. -/
theorem settled_of_resolve (hall : ∀ p ∈ profiles, registry.Allocated p)
    (hindex : registry.nameIndex = none) {r : EntityResolution} {name : String}
    (hname : registry.canonicalize surface = .ok name)
    (h : registry.resolve profiles contextId surface entityType = (.ok r, profiles')) :
    Settled registry profiles' contextId name := by
  have haliased : registry.aliased profiles contextId name = [] := by
    rw [EntityRegistry.aliased, List.filter_eq_nil_iff]
    intro p hp
    simp [(hall p (List.mem_of_mem_filter hp)).2]
  have hmatch : ∀ p ∈ registry.canonicals profiles contextId name,
      Settled registry profiles contextId name := by
    intro p hp
    rw [EntityRegistry.canonicals, List.mem_filter, List.mem_filter] at hp
    obtain ⟨⟨hmem, hctx⟩, hcanonical⟩ := hp
    refine ⟨p, hmem, Or.inl ⟨by simpa using hctx, ?_⟩⟩
    cases hform : registry.canonicalize p.canonicalName with
    | error e =>
        rw [hform] at hcanonical
        simp [Except.toOption] at hcanonical
    | ok form =>
        rw [hform] at hcanonical
        simp only [Except.toOption, Option.some.injEq, decide_eq_true_eq] at hcanonical
        rw [hcanonical]
  have hcall := call_unindexed hindex profiles ⟨contextId, surface, entityType, [], none⟩
  change registry.resolve profiles contextId surface entityType = _ at hcall
  rw [h] at hcall
  dsimp only at hcall
  rw [hname] at hcall
  dsimp only at hcall
  rw [haliased] at hcall
  split at hcall
  · rename_i p hone
    cases hcall
    exact hmatch p (hone ▸ List.mem_cons_self)
  · rename_i hnil _
    cases hnil
  · split at hcall
    · -- nothing is shown, so the entity was made
      unfold EntityRegistry.resolveNew at hcall
      dsimp only at hcall
      split at hcall
      · cases hcall
      · rename_i p hnew
        split at hcall
        · cases hcall
        · rename_i registered hregister
          cases hcall
          refine ⟨p, ?_, Or.inr (EntityRegistry.newProfile_eq_ok hnew).1⟩
          rw [(EntityRegistry.register_eq_ok hregister).1]
          exact Ordered.mem_upsert_self p profiles
    · -- without candidate ids, what is shown has matched
      rename_i hshown
      rw [(Prod.mk.inj hcall).2]
      cases hmatches : registry.canonicals profiles contextId name with
      | nil =>
          refine absurd ?_ hshown
          rw [EntityRegistry.shown, hmatches, haliased]
          rfl
      | cons p rest => exact hmatch p (hmatches ▸ List.mem_cons_self)

/-- One mention: the profiles stay typed, and none is lost. -/
theorem TypedProfiles.resolveEntity (h : TypedProfiles registry types profiles)
    {result : Except Exn (Option EntityProfile)}
    (hfirst : ∀ name, registry.canonicalize surface = .ok name →
      ¬ Settled registry profiles contextId name → entityType = types contextId name)
    (hresolve : registry.resolveEntity profiles contextId surface entityType =
      (result, profiles')) :
    TypedProfiles registry types profiles' ∧ profiles ⊆ profiles' ∧
      (∀ p, result = .ok (some p) → p ∈ profiles') ∧
      (registry.nameIndex = none → ∀ entity, result = .ok entity → ∀ name,
        registry.canonicalize surface = .ok name → Settled registry profiles' contextId name) := by
  obtain ⟨hresult, rfl⟩ := Prod.mk.inj hresolve
  have hentity : ∀ entity, result = .ok entity → ∃ r,
      (registry.resolve profiles contextId surface entityType).1 = .ok r ∧ r.entity = entity := by
    intro entity hok
    rw [← hresult] at hok
    exact Fallible.map_eq_ok.mp hok
  have hsettled : registry.nameIndex = none → ∀ entity, result = .ok entity → ∀ name,
      registry.canonicalize surface = .ok name →
      Settled registry (registry.resolve profiles contextId surface entityType).2 contextId name := by
    intro hindex entity hok name hname
    obtain ⟨r, hr, -⟩ := hentity entity hok
    exact settled_of_resolve h.allocated hindex hname (Prod.ext hr rfl)
  rcases EntityRegistry.resolve_cases (Prod.mk.eta (p := registry.resolve profiles contextId surface
    entityType)).symm with ⟨hsame, hold⟩ | ⟨p, r, hr, hp, hmade, hsame⟩
  · rw [hsame] at hsettled ⊢
    refine ⟨h, List.Subset.refl _, fun p hok => ?_, hsettled⟩
    obtain ⟨r, hr, hp⟩ := hentity (some p) hok
    exact (hold r p hr hp).1
  · have htyped : OfType types p := by
      by_cases hknown : Settled registry profiles contextId p.canonicalName
      · exact h.typed p (h.mem_of_settled hmade hknown)
      · rw [OfType, hmade.type, hmade.context]
        exact hfirst p.canonicalName hmade.name hknown
    rw [hsame] at hsettled ⊢
    refine ⟨⟨?_, ?_, Ordered.nodup_upsert h.ids_nodup⟩, h.subset_upsert hmade.registered, ?_, hsettled⟩
    · intro q hq
      rcases Ordered.mem_of_mem_upsert hq with rfl | hq
      · exact hmade.allocated
      · exact h.allocated q hq
    · intro q hq
      rcases Ordered.mem_of_mem_upsert hq with rfl | hq
      · exact htyped
      · exact h.typed q hq
    · intro q hok
      obtain ⟨r', hr', hq⟩ := hentity (some q) hok
      obtain rfl : r = r' := Except.ok.inj (hr.symm.trans hr')
      obtain rfl : p = q := Option.some.inj (hp.symm.trans hq)
      exact Ordered.mem_upsert_self p profiles

/-- How far the mentions of a chunk are resolved: the registry has grown from `start`, and what
was mentioned is settled. -/
structure Progress (registry : EntityRegistry) (types : String → String → String)
    (start : Profiles) (contextId : String) (done : List EntityCandidate) (profiles : Profiles) :
    Prop where
  typed : TypedProfiles registry types profiles
  grown : start ⊆ profiles
  settled : registry.nameIndex = none → ∀ e ∈ done, ∀ name,
    registry.canonicalize e.surface = .ok name → Settled registry profiles contextId name

variable {start : Profiles} {done : List EntityCandidate}

/-- The next mention: if it makes an entity, it is the first one of it. -/
theorem Progress.next (h : Progress registry types start contextId done profiles)
    {entity : EntityCandidate} {later : List EntityCandidate}
    (hfirst : FirstMentions registry types start contextId (done ++ entity :: later))
    {result : Except Exn (Option EntityProfile)}
    (hresolve : registry.resolveEntity profiles contextId entity.surface
      (orText entity.entityType "other") = (result, profiles')) :
    TypedProfiles registry types profiles' ∧ ∀ resolved, result = .ok resolved →
      Progress registry types start contextId (done ++ [entity]) profiles' ∧
        ∀ p, resolved = some p → OfType types p := by
  have hnew : ∀ name, registry.canonicalize entity.surface = .ok name →
      ¬ Settled registry profiles contextId name →
      orText entity.entityType "other" = types contextId name := by
    intro name hname hunsettled
    refine hfirst done entity later rfl name hname (fun p hp hctx hsame => ?_) ?_
    · refine hunsettled ⟨p, h.grown hp, Or.inr ?_⟩
      rw [(h.typed.allocated p (h.grown hp)).1, hctx, hsame]
      rfl
    · exact fun hindex e he hsame => hunsettled (h.settled hindex e he name hsame)
  obtain ⟨htyped, hsub, hmem, hsettled⟩ := h.typed.resolveEntity hnew hresolve
  refine ⟨htyped, fun resolved hok => ⟨⟨htyped, fun p hp => hsub (h.grown hp), ?_⟩, ?_⟩⟩
  · intro hindex e he name hname
    rcases List.mem_append.mp he with he | he
    · exact (h.settled hindex e he name hname).mono hsub
    · rw [List.mem_singleton.mp he] at hname
      exact hsettled hindex resolved hok name hname
  · rintro p rfl
    exact htyped.typed p (hmem p hok)

variable {b : Builder}

/-- The mentions of one candidate. -/
theorem Progress.resolveMentions {i j : Nat} {entities later : List EntityCandidate}
    (h : Progress b.registry types start contextId done profiles)
    (hfirst : FirstMentions b.registry types start contextId (done ++ (entities ++ later)))
    {result : Except Exn (List Mention)}
    (hresolve : b.resolveMentions i contextId j profiles entities = (result, profiles')) :
    TypedProfiles b.registry types profiles' ∧ ∀ mentions, result = .ok mentions →
      Progress b.registry types start contextId (done ++ entities) profiles' ∧
        ∀ m ∈ mentions, OfType types m.profile := by
  induction entities generalizing done j profiles profiles' result with
  | nil =>
      cases hresolve
      refine ⟨h.typed, fun mentions hok => ?_⟩
      cases hok
      exact ⟨by simpa using h, by simp⟩
  | cons entity rest ih =>
      simp only [Builder.resolveMentions] at hresolve
      split at hresolve
      · cases hresolve
        exact ⟨h.typed, fun mentions hok => by cases hok⟩
      · split at hresolve
        · rename_i hentity
          cases hresolve
          exact ⟨(h.next hfirst hentity).1, fun mentions hok => by cases hok⟩
        · rename_i resolved profiles₁ hentity
          obtain ⟨-, hok⟩ := h.next hfirst hentity
          obtain ⟨hprogress, hprofile⟩ := hok resolved rfl
          have hfirst' : FirstMentions b.registry types start contextId
              ((done ++ [entity]) ++ (rest ++ later)) := by
            simpa using hfirst
          split at hresolve
          · rename_i hrest
            cases hresolve
            exact ⟨(ih hprogress hfirst' hrest).1, fun mentions hok => by cases hok⟩
          · rename_i mentions₁ profiles₂ hrest
            obtain ⟨htyped, hmentions⟩ := ih hprogress hfirst' hrest
            obtain ⟨hprogress', htypes⟩ := hmentions mentions₁ rfl
            cases hresolve
            refine ⟨htyped, fun mentions hok => ?_⟩
            cases hok
            refine ⟨by simpa using hprogress', fun m hm => ?_⟩
            rcases List.mem_append.mp hm with hm | hm
            · rw [Option.mem_toList, Option.map_eq_some_iff] at hm
              obtain ⟨p, hp, rfl⟩ := hm
              exact hprofile p hp
            · exact htypes m hm

/-- All candidates: the entities of the plan and of the registry have the given
types. -/
theorem Progress.gather {g : Graph} {i : Nat} {candidates : List ExtractedMemoryCandidate}
    (h : Progress b.registry types start contextId done profiles)
    (hfirst : FirstMentions b.registry types start contextId
      (done ++ candidates.flatMap (·.entities)))
    {result : Except Exn (List Gathered)}
    (hgather : b.gather g contextId i profiles candidates = (result, profiles')) :
    TypedProfiles b.registry types profiles' ∧ ∀ gs, result = .ok gs →
      ∀ x ∈ gs, ∀ m ∈ x.mentions, OfType types m.profile := by
  induction candidates generalizing done i profiles profiles' result with
  | nil =>
      cases hgather
      refine ⟨h.typed, fun gs hok => ?_⟩
      cases hok
      simp
  | cons candidate rest ih =>
      rw [List.flatMap_cons] at hfirst
      simp only [Builder.gather] at hgather
      split at hgather
      · rename_i hmentions
        cases hgather
        exact ⟨(h.resolveMentions hfirst hmentions).1, fun gs hok => by cases hok⟩
      · rename_i mentions profiles₁ hmentions
        obtain ⟨htyped₁, hok⟩ := h.resolveMentions hfirst hmentions
        obtain ⟨hprogress, htypes⟩ := hok mentions rfl
        split at hgather
        · cases hgather
          exact ⟨htyped₁, fun gs hok => by cases hok⟩
        · have hfirst' : FirstMentions b.registry types start contextId
              ((done ++ candidate.entities) ++ rest.flatMap (·.entities)) := by
            simpa using hfirst
          split at hgather
          · rename_i hrest
            cases hgather
            exact ⟨(ih hprogress hfirst' hrest).1, fun gs hok => by cases hok⟩
          · rename_i gathered profiles₂ hrest
            obtain ⟨htyped₂, hgathered⟩ := ih hprogress hfirst' hrest
            cases hgather
            refine ⟨htyped₂, fun gs hok x hx => ?_⟩
            cases hok
            rcases List.mem_cons.mp hx with rfl | hx
            · exact htypes
            · exact hgathered gathered rfl x hx

end Mentions

/-! ### Entity nodes -/

section Nodes

variable {d : Deployment} {types : String → String → String} {contextId : String}

/-- An `Entity` node of a plan: of a typed profile, or of the speaker. -/
inductive EntityNode (d : Deployment) (types : String → String → String) (contextId : String) :
    GraphNode → Prop
  | entity {p : EntityProfile} : OwnProfile d p → OfType types p → p.contextId = contextId →
      EntityNode d types contextId (entityNode p)
  | speaker {chunk : Chunk} : chunk.contextId = contextId →
      EntityNode d types contextId (speakerEntityNode d.allocator chunk)

/-- The keys of `Entity` nodes. -/
def IsEntityKey (key : String) : Prop := ∃ rest, key = "entity:" ++ rest ∨ key = "speaker:" ++ rest

/-- The other keys differ in their first two letters. -/
theorem not_isEntityKey {key : String}
    (h : key.toList.take 2 ≠ ['e', 'n'] ∧ key.toList.take 2 ≠ ['s', 'p']) : ¬ IsEntityKey key := by
  rintro ⟨rest, rfl | rfl⟩
  · simp at h
  · simp at h

theorem EntityNode.key {n : GraphNode} (h : EntityNode d types contextId n) :
    IsEntityKey n.logicalKey := by
  cases h with
  | entity _ _ _ => exact ⟨_, Or.inl rfl⟩
  | speaker _ => exact ⟨_, Or.inr rfl⟩

theorem EntityNode.graphId_eq {n : GraphNode} (h : EntityNode d types contextId n) :
    n.graphId = d.allocator.allocateGraphId "entity" contextId n.logicalKey := by
  cases h with
  | entity hown _ hctx =>
      rw [← hctx]
      exact hown.1
  | speaker hctx =>
      rw [← hctx]
      rfl

/-- There is one node for a key. -/
theorem EntityNode.unique {n n' : GraphNode} (h : EntityNode d types contextId n)
    (h' : EntityNode d types contextId n') (hkey : n.logicalKey = n'.logicalKey) : n = n' := by
  cases h with
  | @entity p hown htyped hctx =>
      cases h' with
      | @entity q hown' htyped' hctx' =>
          have hname : p.canonicalName = q.canonicalName := by simpa [entityNode] using hkey
          have hcontext : p.contextId = q.contextId := hctx.trans hctx'.symm
          have hid : p.graphId = q.graphId := by rw [hown.1, hown'.1, hcontext, hname]
          have htype : p.entityType = q.entityType := by rw [htyped, htyped', hcontext, hname]
          have haliases : p.aliases = q.aliases := hown.2.trans hown'.2.symm
          have hsame : p = q := by
            cases p
            cases q
            simp only at hname hcontext hid htype haliases
            subst hname hcontext hid htype haliases
            rfl
          rw [hsame]
      | speaker hctx' =>
          have hlist := congrArg String.toList hkey
          simp [entityNode, speakerEntityNode] at hlist
  | @speaker chunk hctx =>
      cases h' with
      | entity hown' htyped' hctx' =>
          have hlist := congrArg String.toList hkey
          simp [entityNode, speakerEntityNode] at hlist
      | @speaker chunk' hctx' =>
          have hrole : orText chunk.actorRole "unknown" = orText chunk'.actorRole "unknown" := by
            simpa [speakerEntityNode] using hkey
          have hcontext : chunk.contextId = chunk'.contextId := hctx.trans hctx'.symm
          simp only [speakerEntityNode, hrole, hcontext]

/-! ### Registered rows -/

/-- Every row has the id allocated for its key; those of kind `entity` are `Entity` nodes, and so
are those with the key of one. -/
structure EntityRows (d : Deployment) (types : String → String → String) (m : Manifest) : Prop where
  row : ∀ key row, m.rows key = some row → ∃ kind,
    row.graphId = d.allocator.allocateGraphId kind key.contextId key.logicalKey ∧
    (kind = "entity" → key.kind = .node ∧ ∃ n, EntityNode d types key.contextId n ∧
      n.logicalKey = key.logicalKey ∧ row.payload = (GraphRecord.node n).payload) ∧
    (key.kind = .node → IsEntityKey key.logicalKey → kind = "entity")

/-- A record of a plan: an `Entity` node, or a record of another kind and key. -/
def Shaped (d : Deployment) (types : String → String → String) (contextId : String)
    (r : GraphRecord) : Prop :=
  (∃ n, r = .node n ∧ EntityNode d types contextId n) ∨
    ∃ kind, r.graphId = d.allocator.allocateGraphId kind contextId r.logicalKey ∧
      kind ≠ "entity" ∧ (r.kind = .node → ¬ IsEntityKey r.logicalKey)

/-- An `Entity` node is never refused, and its row is the node's own. -/
theorem EntityRows.registerRecord_entity {m : Manifest} (h : EntityRows d types m) {n : GraphNode}
    (hn : EntityNode d types contextId n) :
    ∃ m', registerRecord contextId m (.node n) = .ok m' ∧
      m'.rows = Function.update m.rows ((GraphRecord.node n).manifestKey contextId)
        (some ⟨n.graphId, (GraphRecord.node n).payload⟩) := by
  cases hrow : m.rows ((GraphRecord.node n).manifestKey contextId) with
  | some existing =>
      obtain ⟨kind, hid, hentity, hkind⟩ := h.row _ _ hrow
      obtain ⟨-, n', hn', hkey, hpayload⟩ := hentity (hkind rfl hn.key)
      obtain rfl : n' = n := hn'.unique hn hkey
      have hgraph : existing.graphId = n'.graphId := by
        rw [hid, hkind rfl hn.key, hn.graphId_eq]
        rfl
      refine ⟨m, ?_, ?_⟩
      · unfold registerRecord
        split
        · rename_i found hfound
          obtain rfl : existing = found := Option.some.inj (hrow.symm.trans hfound)
          rw [if_pos ⟨hgraph, by rw [hpayload]⟩]
        · rename_i hnone
          rw [hrow] at hnone
          cases hnone
      · have hsame : existing = ⟨n'.graphId, (GraphRecord.node n').payload⟩ := by
          rw [← hgraph, ← hpayload]
        rw [← hsame]
        exact (Function.update_eq_self_iff.mpr hrow.symm).symm
  | none =>
      have hfree : m.owner n.graphId = none := by
        by_contra howned
        obtain ⟨key, hkey⟩ := Option.ne_none_iff_exists'.mp howned
        obtain ⟨row, hrow', hid⟩ := m.owner_iff.mp hkey
        obtain ⟨kind, halloc, hentity, -⟩ := h.row _ _ hrow'
        rw [hid, hn.graphId_eq] at halloc
        obtain ⟨hkind, hctx, hlogical⟩ := d.allocator.injective halloc
        obtain ⟨hnode, -⟩ := hentity hkind.symm
        have hsame : key = (GraphRecord.node n).manifestKey contextId := by
          cases key
          simp only at hnode hctx hlogical
          rw [hnode, ← hctx, ← hlogical]
          rfl
        rw [hsame, hrow] at hrow'
        cases hrow'
      refine ⟨m.insert _ ⟨n.graphId, (GraphRecord.node n).payload⟩ hrow hfree
        ⟨(GraphRecord.node n).payload_kind, (GraphRecord.node n).payload_id⟩, ?_, rfl⟩
      unfold registerRecord
      split
      · rename_i found hfound
        rw [hrow] at hfound
        cases hfound
      · rw [dif_pos (show m.owner (GraphRecord.node n).graphId = none from hfree)]
        rfl

theorem EntityRows.registerRecord {m m' : Manifest} (h : EntityRows d types m) {r : GraphRecord}
    (hr : Shaped d types contextId r) (hm : registerRecord contextId m r = .ok m') :
    EntityRows d types m' := by
  refine ⟨fun key row hrow => ?_⟩
  rcases hr with ⟨n, rfl, hn⟩ | ⟨kind, hid, hkind, hkey⟩
  · obtain ⟨m'', hm'', hrows⟩ := h.registerRecord_entity hn
    obtain rfl : m' = m'' := Except.ok.inj (hm.symm.trans hm'')
    rw [hrows] at hrow
    by_cases hsame : key = (GraphRecord.node n).manifestKey contextId
    · subst hsame
      rw [Function.update_self] at hrow
      cases hrow
      exact ⟨"entity", hn.graphId_eq, fun _ => ⟨rfl, n, hn, rfl, rfl⟩, fun _ _ => rfl⟩
    · rw [Function.update_of_ne hsame] at hrow
      exact h.row key row hrow
  · obtain ⟨payload, hrows, -, -⟩ := registerRecord_eq_ok hm
    rw [hrows] at hrow
    by_cases hsame : key = r.manifestKey contextId
    · subst hsame
      rw [Function.update_self] at hrow
      cases hrow
      exact ⟨kind, hid, fun hentity => absurd hentity hkind,
        fun hnode hentity => absurd hentity (hkey hnode)⟩
    · rw [Function.update_of_ne hsame] at hrow
      exact h.row key row hrow

/-- The loop of `register` refuses the records, and the one it refuses is an `Entity` node. -/
def entityRefused (contextId : String) : Manifest → List GraphRecord → Bool
  | _, [] => false
  | m, r :: rest =>
      match Manifest.registerRecord contextId m r with
      | .ok m' => entityRefused contextId m' rest
      | .error _ => match r with
        | .node n => n.label = .entity
        | .relationship _ => false

/-- The records of another kind are not `Entity` nodes. -/
def Labelled (d : Deployment) (types : String → String → String) (contextId : String)
    (r : GraphRecord) : Prop :=
  ∀ n, r = .node n → n.label = .entity → EntityNode d types contextId n

/-- Shaped records are not refused for an `Entity` node, and what they leave are
rows again. -/
theorem EntityRows.registerRecords {m : Manifest} (h : EntityRows d types m)
    {records : List GraphRecord} (hr : ∀ r ∈ records, Shaped d types contextId r)
    (hlabel : ∀ r ∈ records, Labelled d types contextId r) :
    entityRefused contextId m records = false ∧
      ∀ m', registerRecords contextId m records = .ok m' → EntityRows d types m' := by
  induction records generalizing m with
  | nil =>
      refine ⟨rfl, fun m' hm => ?_⟩
      cases hm
      exact h
  | cons r rest ih =>
      simp only [entityRefused, Manifest.registerRecords]
      cases hm : Manifest.registerRecord contextId m r with
      | ok m₁ =>
          exact ih (h.registerRecord (hr r List.mem_cons_self) hm)
            (fun s hs => hr s (List.mem_cons_of_mem _ hs))
            fun s hs => hlabel s (List.mem_cons_of_mem _ hs)
      | error e =>
          refine ⟨?_, fun m' hm' => by cases hm'⟩
          cases r with
          | relationship e => rfl
          | node n =>
              simp only [decide_eq_false_iff_not]
              intro hentity
              have hn := hlabel _ List.mem_cons_self n rfl hentity
              obtain ⟨m', hm', -⟩ := h.registerRecord_entity hn
              rw [hm] at hm'
              cases hm'

/-- The records of an assembled plan. -/
theorem shaped_assemble {chunk : Chunk} {now : DateTime} {turn : GraphNode} {gs : List Gathered}
    {plan : GraphWritePlan} (hturn : turnNode d.allocator chunk = .ok turn)
    (hown : ∀ x ∈ gs, ∀ m ∈ x.mentions,
      OwnProfile d m.profile ∧ m.profile.contextId = chunk.contextId)
    (htyped : ∀ x ∈ gs, ∀ m ∈ x.mentions, OfType types m.profile)
    (h : assemble d.allocator chunk now turn gs = .ok plan) {r : GraphRecord}
    (hr : r ∈ plan.records) :
    Shaped d types chunk.contextId r ∧ Labelled d types chunk.contextId r := by
  obtain ⟨-, hnodes, hedges⟩ := assemble_eq_ok h
  obtain ⟨-, -, hturnId, hturnLabel, hturnKey, -⟩ := turnNode_eq_ok hturn
  have other : ∀ (n : GraphNode) (kind : String), n.graphId =
      d.allocator.allocateGraphId kind chunk.contextId n.logicalKey → kind ≠ "entity" →
      ¬ IsEntityKey n.logicalKey → n.label ≠ .entity →
      Shaped d types chunk.contextId (.node n) ∧ Labelled d types chunk.contextId (.node n) := by
    intro n kind hid hkind hkey hlabel
    refine ⟨Or.inr ⟨kind, hid, hkind, fun _ => hkey⟩, ?_⟩
    rintro n' hn' hentity
    cases hn'
    exact absurd hentity hlabel
  have entity : ∀ n : GraphNode, EntityNode d types chunk.contextId n →
      Shaped d types chunk.contextId (.node n) ∧ Labelled d types chunk.contextId (.node n) := by
    intro n hn
    refine ⟨Or.inl ⟨n, rfl, hn⟩, ?_⟩
    rintro n' hn' -
    cases hn'
    exact hn
  have edge : ∀ (e : GraphRelationship) (kind : String), e.graphId =
      d.allocator.allocateGraphId kind chunk.contextId e.logicalKey → kind ≠ "entity" →
      Shaped d types chunk.contextId (.relationship e) ∧
        Labelled d types chunk.contextId (.relationship e) := by
    intro e kind hid hkind
    refine ⟨Or.inr ⟨kind, hid, hkind, fun hnode => ?_⟩, ?_⟩
    · cases hnode
    · rintro n' hn' -
      cases hn'
  have noAlias : ∀ x ∈ gs, ∀ m ∈ x.mentions, aliasRecords d.allocator m.profile = [] := by
    intro x hx m hm
    rw [aliasRecords, (hown x hx m hm).1.2, List.map_nil]
  rcases GraphWritePlan.mem_records.mp hr with ⟨n, hn, rfl⟩ | ⟨e, he, rfl⟩
  · rw [hnodes] at hn
    rcases mem_nodeWrites (Ordered.mem_of_mem_ofAssignments hn) with rfl | rfl | rfl |
      ⟨x, hx, rfl | ⟨m, hm, rfl | ⟨record, hrecord, rfl⟩⟩ | ⟨u, -, rfl⟩⟩
    · exact other _ "session" rfl (by decide) (not_isEntityKey (by simp [sessionNode]))
        (by simp [sessionNode])
    · refine other n "turn" (by rw [hturnId, hturnKey]) (by decide) ?_ (by simp [hturnLabel])
      exact not_isEntityKey (by simp [hturnKey])
    · exact entity _ (.speaker rfl)
    · exact other _ "fact" rfl (by decide) (not_isEntityKey (by simp [factNode])) (by simp [factNode])
    · exact entity _ (.entity (hown x hx m hm).1 (htyped x hx m hm) (hown x hx m hm).2)
    · rw [noAlias x hx m hm] at hrecord
      cases hrecord
    · exact other _ "fact" rfl (by decide) (not_isEntityKey (by simp [closedNode])) (by simp [closedNode])
  · rw [hedges] at he
    rcases mem_relationshipWrites (Ordered.mem_of_mem_ofAssignments he) with rfl |
      ⟨x, hx, rfl | rfl | ⟨m, hm, rfl | ⟨record, hrecord, rfl⟩⟩ | ⟨u, -, rfl⟩⟩
    · exact edge _ "has_turn" rfl (by decide)
    · exact edge _ "extracted_from" rfl (by decide)
    · exact edge _ "stated_by" rfl (by decide)
    · exact edge _ "about" rfl (by decide)
    · rw [noAlias x hx m hm] at hrecord
      cases hrecord
    · exact edge _ "supersedes" rfl (by decide)

end Nodes

/-! ### Runs -/

/-- The plan of a call on the stores it meets. -/
def Call.plan (d : Deployment) (call : Call) (s : Stores) : Except Exn GraphWritePlan :=
  match call.extract d with
  | .error e => .error e
  | .ok extraction => (call.build d s extraction).1

/-- The first mentions of a step carry the type given to their name. -/
def TypedMentions (d : Deployment) (types : String → String → String) (w : World Stores) :
    Step → Prop
  | .ingest call _ => ∀ extraction, call.extract d = .ok extraction →
      FirstMentions (call.builder d).registry types w.stores.profiles call.batch.contextId
        (extraction.accepted.flatMap (·.entities))
  | _ => True

/-- What is kept over restarts, and what is rebuilt after each. -/
structure Stable (d : Deployment) (types : String → String → String) (s : Stores) : Prop where
  own : ∀ p ∈ s.profiles, OwnProfile d p
  typed : ∀ p ∈ s.profiles, OfType types p
  ids_nodup : (s.profiles.map (·.graphId)).Nodup
  rows : EntityRows d types s.graphStore.manifest

theorem stable_initial (d : Deployment) (types : String → String → String) :
    Stable d types World.initial.stores where
  own p hp := by cases hp
  typed p hp := by cases hp
  ids_nodup := List.nodup_nil
  rows := ⟨fun key row hrow => by cases hrow⟩

section Runs

variable {d : Deployment} {types : String → String → String} {call : Call} {s : Stores}

/-- Building a plan: its records are shaped, and the registry stays typed. -/
theorem Stable.build (hs : Stable d types s) {extraction : ExtractionResult}
    (hfirst : FirstMentions (call.builder d).registry types s.profiles call.batch.contextId
      (extraction.accepted.flatMap (·.entities))) :
    TypedProfiles (call.builder d).registry types (call.build d s extraction).2 ∧
      ∀ plan, (call.build d s extraction).1 = .ok plan → plan.contextId = call.batch.contextId ∧
        ∀ r ∈ plan.records, Shaped d types call.batch.contextId r ∧
          Labelled d types call.batch.contextId r := by
  have hstart : TypedProfiles (call.builder d).registry types s.profiles :=
    ⟨hs.own, hs.typed, hs.ids_nodup⟩
  have hprogress : Progress (call.builder d).registry types s.profiles call.batch.contextId []
      s.profiles := ⟨hstart, List.Subset.refl _, fun _ e he => by cases he⟩
  unfold Call.build Builder.build
  split
  · exact ⟨hstart, fun plan hplan => by cases hplan⟩
  · rename_i turn hturn
    split
    · rename_i hgather
      exact ⟨(hprogress.gather hfirst hgather).1, fun plan hplan => by cases hplan⟩
    · rename_i gs profiles hgather
      obtain ⟨htyped, hmentions⟩ := hprogress.gather hfirst hgather
      refine ⟨htyped, fun plan hplan => ⟨(assemble_eq_ok hplan).1, fun r hr => ?_⟩⟩
      have hsound := ((Builder.gather_spec hs.own hgather).2 gs rfl).2
      exact shaped_assemble hturn (fun x hx => (hsound x hx).mention) (hmentions gs rfl) hplan hr

/-- A step that meets the condition keeps what is stable. -/
theorem Stable.step {w : World Stores} (hw : Stable d types w.stores) (t : Step)
    (ht : TypedMentions d types w t) : Stable d types (step d w t).stores := by
  cases t with
  | ingest call faults =>
      rcases @runRecord_effect d call w faults with hsame | ⟨chunks, jobs, -, heffect⟩
      · have hstores : (ContextMemory.step d w (.ingest call faults)).stores = w.stores := hsame
        rw [hstores]
        exact hw
      · have hs : Stable d types { w.stores with chunks } := ⟨hw.own, hw.typed, hw.ids_nodup, hw.rows⟩
        have hprofiles : TypedProfiles (call.builder d).registry types
            (call.runRecord d w faults).state.stores.profiles := by
          rcases heffect.profiles with hsame | ⟨extraction, hextract, hbuilt⟩
          · rw [hsame]
            exact ⟨hs.own, hs.typed, hs.ids_nodup⟩
          · rw [hbuilt]
            exact (hs.build (ht extraction hextract)).1
        refine ⟨hprofiles.allocated, hprofiles.typed, hprofiles.ids_nodup, ?_⟩
        rcases heffect.graph.2 with hsame | ⟨extraction, plan, profiles, hextract, hbuild, hwrote⟩
        · have hgraph : (ContextMemory.step d w (.ingest call faults)).stores.graphStore =
              w.stores.graphStore := hsame
          rw [hgraph]
          exact hw.rows
        · rcases hwrote with hsame | ⟨m, done, hsome⟩
          · have hgraph : (ContextMemory.step d w (.ingest call faults)).stores.graphStore =
                w.stores.graphStore := hsame
            rw [hgraph]
            exact hw.rows
          · have hmanifest : (ContextMemory.step d w (.ingest call faults)).stores.graphStore =
                _ := hsome.state_eq
            obtain ⟨hctx, hshaped⟩ :=
              (hs.build (ht extraction hextract)).2 plan (congrArg Prod.fst hbuild)
            have hregistered := hsome.registered
            rw [Manifest.register, hctx] at hregistered
            rw [hmanifest]
            exact (hw.rows.registerRecords (fun r hr => (hshaped r hr).1)
              fun r hr => (hshaped r hr).2).2 m hregistered
  | restart =>
      exact ⟨fun p hp => (by cases hp), fun p hp => (by cases hp), List.nodup_nil, hw.rows⟩
  | operator chunkId state error =>
      simp only [ContextMemory.step]
      split
      · exact hw
      · exact hw

theorem Stable.run {w : World Stores} {steps : List Step} (hw : Stable d types w.stores)
    (h : Meets d (TypedMentions d types) w steps) : Stable d types (run d w steps).stores :=
  run_meets (P := fun w => Stable d types w.stores) hw h fun _ t hw ht => hw.step t ht

theorem Stable.plan (hs : Stable d types s) {plan : GraphWritePlan}
    (hfirst : ∀ extraction, call.extract d = .ok extraction →
      FirstMentions (call.builder d).registry types s.profiles call.batch.contextId
        (extraction.accepted.flatMap (·.entities)))
    (hplan : call.plan d s = .ok plan) : plan.contextId = call.batch.contextId ∧
      ∀ r ∈ plan.records, Shaped d types plan.contextId r ∧ Labelled d types plan.contextId r := by
  unfold Call.plan at hplan
  split at hplan
  · cases hplan
  · rename_i extraction hextract
    obtain ⟨hctx, hshaped⟩ := (hs.build (hfirst extraction hextract)).2 plan hplan
    exact ⟨hctx, hctx ▸ hshaped⟩

end Runs

/-- A plan of a run, and the stores it was built on. -/
def PlanOf (d : Deployment) (steps : List Step) (s : Stores) (plan : GraphWritePlan) : Prop :=
  ∃ before call faults after, steps = before ++ Step.ingest call faults :: after ∧
    s = (run d .initial before).stores ∧ call.plan d s = .ok plan

/-- The payload of an entity is stable over restarts: in a run whose first
mentions carry one type for each name, no plan is refused for an `Entity` node,
and the `Entity` nodes of any two plans that have one context and one key are
equal. The registry lives in the process and takes the type of the first
mention, while the manifest outlives both; so what is asked for is asked of each
process anew. -/
theorem entity_payloads_stable (d : Deployment) (types : String → String → String)
    (steps : List Step) (h : Meets d (TypedMentions d types) .initial steps) :
    (∀ s plan, PlanOf d steps s plan →
      entityRefused plan.contextId s.graphStore.manifest plan.records = false) ∧
    ∀ s plan s' plan', PlanOf d steps s plan → PlanOf d steps s' plan' →
      plan.contextId = plan'.contextId → ∀ n ∈ plan.nodes, ∀ n' ∈ plan'.nodes,
      n.label = .entity → n'.label = .entity → n.logicalKey = n'.logicalKey → n = n' := by
  have hplan : ∀ s plan, PlanOf d steps s plan → EntityRows d types s.graphStore.manifest ∧
      ∀ r ∈ plan.records, Shaped d types plan.contextId r ∧ Labelled d types plan.contextId r := by
    rintro s plan ⟨before, call, faults, after, rfl, rfl, hbuilt⟩
    obtain ⟨hbefore, hcall, -⟩ := h.append
    have hs := (stable_initial d types).run hbefore
    exact ⟨hs.rows, (hs.plan hcall hbuilt).2⟩
  refine ⟨fun s plan hs => ?_, ?_⟩
  · obtain ⟨hrows, hshaped⟩ := hplan s plan hs
    exact (hrows.registerRecords (fun r hr => (hshaped r hr).1) fun r hr => (hshaped r hr).2).1
  · intro s plan s' plan' hs hs' hctx n hn n' hn' hlabel hlabel' hkey
    have node : ∀ {s plan} {n : GraphNode}, PlanOf d steps s plan → n ∈ plan.nodes →
        n.label = .entity → EntityNode d types plan.contextId n := by
      intro s plan n hs hn hlabel
      have hrecord := GraphWritePlan.mem_records.mpr (Or.inl ⟨n, hn, rfl⟩)
      exact ((hplan s plan hs).2 _ hrecord).2 n rfl hlabel
    exact (node hs hn hlabel).unique (hctx ▸ node hs' hn' hlabel') hkey

/-! ### Max, before and after a restart -/

/-- The first turn calls Max by one type, and the second, in a new process, by another. -/
def typedCall (first second : String) : Call × Call :=
  (⟨fixtureEnv 1767258001 [{ bostonDraft none with
      entities := [{ surface := "Max", entityType := first, surface_ne := max_ne }] }], moveBatch nine ten,
    bostonRecord nine⟩,
   ⟨fixtureEnv 1767261601 [{ seattleDraft with
      entities := [{ surface := "Max", entityType := second, surface_ne := max_ne }] }], moveBatch nine ten,
    seattleRecord ten⟩)

def typedSteps (first second : String) : List Step :=
  [.ingest (typedCall first second).1 [], .restart, .ingest (typedCall first second).2 []]

/-- The mentions of a call, as types. -/
def Call.mentionedTypes (d : Deployment) (call : Call) : Option (List String) :=
  (call.extract d).toOption.map fun extraction =>
    (extraction.accepted.flatMap (·.entities)).map fun e => orText e.entityType "other"

/-- If every mention has one type, so have the first ones. -/
theorem typedMentions_of_mentionedTypes {d : Deployment} {call : Call} {type : String}
    {mentioned : List String} (h : call.mentionedTypes d = some mentioned)
    (hall : ∀ t ∈ mentioned, t = type) (w : World Stores) (faults : List (Fault Exn)) :
    TypedMentions d (fun _ _ => type) w (.ingest call faults) := by
  intro extraction hextract before entity after hsplit name hname hnew hfirst
  rw [Call.mentionedTypes, hextract] at h
  obtain rfl := Option.some.inj h
  refine hall _ (List.mem_map.mpr ⟨entity, ?_, rfl⟩)
  rw [hsplit]
  simp

/-- Two processes that meet the same name with the same type, one after the
other. The second one's plan names the node of the first, and is not refused. -/
theorem entity_payloads_stable_person :
    Meets fixtureDeployment (TypedMentions fixtureDeployment fun _ _ => "person") .initial
        (typedSteps "person" "person") ∧
      ∀ s plan, PlanOf fixtureDeployment (typedSteps "person" "person") s plan →
        entityRefused plan.contextId s.graphStore.manifest plan.records = false := by
  have hmeets : Meets fixtureDeployment (TypedMentions fixtureDeployment fun _ _ => "person")
      .initial (typedSteps "person" "person") := by
    have htypes : (typedCall "person" "person").1.mentionedTypes fixtureDeployment =
          some ["person"] ∧
        (typedCall "person" "person").2.mentionedTypes fixtureDeployment = some ["person"] := by
      decide +kernel
    exact ⟨typedMentions_of_mentionedTypes htypes.1 (by simp) _ _, trivial,
      typedMentions_of_mentionedTypes htypes.2 (by simp) _ _, trivial⟩
  exact ⟨hmeets, (entity_payloads_stable fixtureDeployment _ _ hmeets).1⟩

/-- The loop of `register` refuses the plan of the call for an `Entity` node. -/
def Call.refusedEntity (d : Deployment) (call : Call) (s : Stores) : Bool :=
  match call.plan d s with
  | .error _ => false
  | .ok plan => entityRefused plan.contextId s.graphStore.manifest plan.records

/-- Max is a pet, and after a restart a person: the plan of the second turn is
refused, and its job is failed for good. -/
theorem entity_refused_after_restart :
    ((run fixtureDeployment .initial (typedSteps "pet" "person")).jobs
        ((typedCall "pet" "person").2.chunk fixtureDeployment).chunkId).map (·.state) =
        some .terminalFailed ∧
      ¬ ∀ s plan, PlanOf fixtureDeployment (typedSteps "pet" "person") s plan →
        entityRefused plan.contextId s.graphStore.manifest plan.records = false := by
  have hrefused : (typedCall "pet" "person").2.refusedEntity fixtureDeployment
      (run fixtureDeployment .initial ((typedSteps "pet" "person").take 2)).stores = true := by
    decide +kernel
  refine ⟨by decide +kernel, fun h => ?_⟩
  unfold Call.refusedEntity at hrefused
  split at hrefused
  · cases hrefused
  · rename_i plan hplan
    rw [h _ plan ⟨_, _, [], [], rfl, rfl, hplan⟩] at hrefused
    cases hrefused

end ContextMemory
