/-
From the name index back to the registry.

Hydration files an entity under its logical key without the `entity:` in front, which is
its name; `resolve` reads what the index returns with `int`. So a registered entity gets
before the model exactly if some returned name is the text of its graph id, whoever that
name belongs to (`candidates_mapped_iff`).
-/

import ContextMemory.Ingestion.Fixture
import ContextMemory.Retrieval.Indexes
import ContextMemory.Guarantees.Provenance
import ContextMemory.Guarantees.Tenants

namespace ContextMemory

open Faulty

/-! ### Entities of the graph -/

/-- The id of an `Entity` node is the one allocated for its context and its logical key. -/
def EntityIds (d : Deployment) (g : Graph) : Prop :=
  ∀ id v, g.nodes id = some v → NodeLabel.entity ∈ v.labels → ∃ contextId key,
    v.props "context_id" = some (.str contextId) ∧ v.props "logical_key" = some (.str key) ∧
    id = d.allocator.allocateGraphId "entity" contextId key

theorem lookup_entityNode (p : EntityProfile) :
    (entityNode p).properties.lookup "context_id" = some (.str p.contextId) ∧
      (entityNode p).properties.lookup "logical_key" =
        some (.str ("entity:" ++ p.canonicalName)) :=
  ⟨(lookup_fields_of_not_mem (by simp)).trans Finmap.lookup_singleton_eq,
    lookup_fields_of_mem (by simp) (by simp)⟩

theorem lookup_speakerEntityNode (allocator : GraphIdAllocator) (chunk : Chunk) :
    (speakerEntityNode allocator chunk).properties.lookup "context_id" =
        some (.str chunk.contextId) ∧
      (speakerEntityNode allocator chunk).properties.lookup "logical_key" =
        some (.str (speakerEntityNode allocator chunk).logicalKey) :=
  ⟨(lookup_fields_of_not_mem (by simp)).trans Finmap.lookup_singleton_eq,
    lookup_fields_of_mem (by simp) (by simp [speakerEntityNode])⟩

section Graphs

variable {d : Deployment}

/-- An `Entity` node of a plan is that of a profile or of the speaker. -/
theorem PlannedFrom.entity_cases {call : Call} {s : Stores} {extraction : ExtractionResult}
    {plan : GraphWritePlan} {turn : GraphNode} {gs : List Gathered}
    (h : PlannedFrom d call s extraction plan turn gs) {n : GraphNode}
    (hn : GraphRecord.node n ∈ plan.records) (hlabel : n.label = .entity) :
    (∃ p, OwnProfile d p ∧ n = entityNode p) ∨ n = speakerEntityNode d.allocator (call.chunk d) := by
  rcases mem_nodeWrites (h.mem_nodes hn) with rfl | rfl | rfl | ⟨x, hx, rfl |
    ⟨m, hm, rfl | ⟨r, hr, rfl⟩⟩ | ⟨u, -, rfl⟩⟩
  · cases hlabel
  · obtain ⟨-, -, -, hturn, -⟩ := turnNode_eq_ok h.turn_ok
    rw [hturn] at hlabel
    cases hlabel
  · exact Or.inr rfl
  · cases hlabel
  · exact Or.inl ⟨m.profile, (h.mention x hx m hm).1, rfl⟩
  · obtain ⟨name, -, rfl⟩ := List.mem_map.mp hr
    cases hlabel
  · cases hlabel

theorem entityIds_step {w : World Stores} (hw : Sourced d w.stores)
    (hids : EntityIds d w.stores.graphStore.graph) (t : Step) :
    EntityIds d (step d w t).stores.graphStore.graph := by
  intro id v hv hentity
  rcases vertex_cases hw hv with hold | ⟨call, faults, extraction, plan, turn, gs, m, done, n, rfl,
    hwritten, hsome, hn, rfl, hlabels, hvertex⟩
  · exact hids id v hold hentity
  have hlabel : n.label = .entity := by
    rw [hlabels, Finset.mem_singleton] at hentity
    exact hentity.symm
  -- the keys of the written node win over those of the one that was there
  have hprops : ∀ key value, n.properties.lookup key = some value → v.props key = some value := by
    intro key value hvalue
    rw [hvertex, Vertex.merge]
    simp only [Properties.assign, hvalue, Option.some_or]
  rcases hwritten.planned.entity_cases (hsome.sound _ hn) hlabel with ⟨p, hown, rfl⟩ | rfl
  · obtain ⟨hctx, hkey⟩ := lookup_entityNode p
    exact ⟨p.contextId, _, hprops _ _ hctx, hprops _ _ hkey, hown.1⟩
  · obtain ⟨hctx, hkey⟩ := lookup_speakerEntityNode d.allocator (call.chunk d)
    exact ⟨(call.chunk d).contextId, _, hprops _ _ hctx, hprops _ _ hkey, rfl⟩

theorem entityIds_run (d : Deployment) (steps : List Step) :
    EntityIds d (run d .initial steps).stores.graphStore.graph := by
  refine (run_invariant (P := fun w => Sourced d w.stores ∧ EntityIds d w.stores.graphStore.graph)
    ⟨sourced_initial d, fun id v hv => by cases hv⟩ (fun w t hw => ?_) steps).2
  exact ⟨sourced_step hw.1 t, entityIds_step hw.1 hw.2 t⟩

end Graphs

/-! ### What the index returned -/

/-- The entity under a graph id is among the found ones: a candidate is filed under its key. -/
def Returned (g : Graph) (contextId : String) (found : List NameCandidate) (id : Nat) : Prop :=
  ∃ v key, g.nodes id = some v ∧ v.isEntityOf contextId = true ∧
    v.props "logical_key" = some (.str key) ∧ ∃ c ∈ found, c.entityId = removePrefix "entity:" key

/-- The node of a registered entity was written. -/
def Stored (g : Graph) (p : EntityProfile) : Prop :=
  ∃ v, g.nodes p.graphId = some v ∧ v.isEntityOf p.contextId = true

/-- A registered entity is returned exactly if its name is. -/
theorem returned_iff {d : Deployment} {g : Graph} (hids : EntityIds d g) {p : EntityProfile}
    (hown : OwnProfile d p) (found : List NameCandidate) :
    Returned g p.contextId found p.graphId ↔
      Stored g p ∧ ∃ c ∈ found, c.entityId = p.canonicalName := by
  have hkey : ∀ v, g.nodes p.graphId = some v → v.isEntityOf p.contextId = true →
      v.props "logical_key" = some (.str ("entity:" ++ p.canonicalName)) := by
    intro v hv hentity
    have hlabel : NodeLabel.entity ∈ v.labels := by
      simp only [Vertex.isEntityOf, decide_eq_true_eq] at hentity
      exact hentity.1
    obtain ⟨contextId, key, -, hlogical, hid⟩ := hids _ v hv hlabel
    obtain ⟨-, -, rfl⟩ := d.allocator.injective (hid.symm.trans hown.1)
    exact hlogical
  constructor
  · rintro ⟨v, key, hv, hentity, hlogical, c, hc, hfiled⟩
    rw [hkey v hv hentity] at hlogical
    cases hlogical
    exact ⟨⟨v, hv, hentity⟩, c, hc, by rw [hfiled, removePrefix_append]⟩
  · rintro ⟨⟨v, hv, hentity⟩, c, hc, hfiled⟩
    exact ⟨v, _, hv, hentity, hkey v hv hentity, c, hc, by rw [hfiled, removePrefix_append]⟩

/-! ### What the registry makes of it -/

/-- The ids `resolve` reads from the answer of the index. -/
def readIds (unicode : UnicodeTables) (found : List NameCandidate) : List Int :=
  found.filterMap fun c => intText unicode c.entityId

theorem mem_readIds {unicode : UnicodeTables} {found : List NameCandidate} {i : Int} :
    i ∈ readIds unicode found ↔ ∃ c ∈ found, intText unicode c.entityId = some i := by
  rw [readIds, List.mem_filterMap]

/-- A candidate id adds its profile to the shortlist, if there is one in the
context. -/
theorem mem_ids_listed {profiles : Profiles} {contextId : String}
    (hcontext : ∀ p ∈ profiles, ∀ q ∈ profiles, p.graphId = q.graphId → p.contextId = q.contextId)
    (acc : Profiles) (i : Int) {id : Nat} :
    id ∈ List.map EntityProfile.graphId
        (match profiles.find? (fun p => (p.graphId : Int) = i) with
        | some p => if p.contextId = contextId then Ordered.upsert EntityProfile.graphId p acc else acc
        | none => acc) ↔
      id ∈ acc.map (·.graphId) ∨
        ((id : Int) = i ∧ ∃ p ∈ profiles, p.graphId = id ∧ p.contextId = contextId) := by
  split
  · rename_i p hfind
    have hp := List.mem_of_find?_eq_some hfind
    have hid : (p.graphId : Int) = i := by simpa using List.find?_some hfind
    split
    · rename_i hctx
      rw [Ordered.mem_keys_upsert, or_comm]
      refine or_congr_right ⟨?_, fun h => by have hi := h.1; omega⟩
      rintro rfl
      exact ⟨hid, p, hp, rfl, hctx⟩
    · rename_i hctx
      rw [iff_self_or]
      rintro ⟨hi, q, hq, hqid, hqctx⟩
      exact absurd ((hcontext p hp q hq (by omega)).trans hqctx) hctx
  · rename_i hfind
    rw [List.find?_eq_none] at hfind
    rw [iff_self_or]
    rintro ⟨hi, q, hq, hqid, -⟩
    exact absurd (by simpa [hqid] using hi) (hfind q hq)

/-- The ids on a shortlist without a match are those of the candidates that are
registered. -/
theorem mem_ids_shortlist {profiles : Profiles} {contextId : String}
    (hcontext : ∀ p ∈ profiles, ∀ q ∈ profiles, p.graphId = q.graphId → p.contextId = q.contextId)
    (ids : List Int) {id : Nat} :
    id ∈ (EntityRegistry.shortlist profiles [] [] contextId ids).map (·.graphId) ↔
      (id : Int) ∈ ids ∧ ∃ p ∈ profiles, p.graphId = id ∧ p.contextId = contextId := by
  have hfold : ∀ (ids : List Int) (acc : Profiles),
      id ∈ (ids.foldl (fun acc (i : Int) =>
        match profiles.find? (fun p => (p.graphId : Int) = i) with
        | some p => if p.contextId = contextId then Ordered.upsert EntityProfile.graphId p acc else acc
        | none => acc) acc).map (·.graphId) ↔
      id ∈ acc.map (·.graphId) ∨
        ((id : Int) ∈ ids ∧ ∃ p ∈ profiles, p.graphId = id ∧ p.contextId = contextId) := by
    intro ids
    induction ids with
    | nil => simp
    | cons i ids ih =>
        intro acc
        rw [List.foldl_cons, ih, mem_ids_listed hcontext acc i, List.mem_cons, or_and_right, or_assoc]
  exact (hfold ids []).trans (by simp)

/-! ### The candidates of a surface -/

section Resolve

variable (d : Deployment) (steps : List Step) (num : Numerics) (transport : HydraHttpTransport)
  (earlier : List IndexedEntity)
  (model : Option (String → String → List EntityProfile → Except Exn (Option Nat)))
  (contextId : String)

/-- What `find_candidates` answers after the context was hydrated. -/
def foundIn (surface entityType : String) : Except Exn (List NameCandidate) :=
  EntityNameIndex.findCandidates num surface entityType contextId 5 (3 / 4)
    (hydrateEntities num.encode contextId transport earlier)

/-- The registry of the deployment over that index. -/
def indexedRegistry : EntityRegistry where
  unicode := d.unicode
  allocator := d.allocator
  nameIndex := some fun surface entityType haystackId =>
    (EntityNameIndex.findCandidates num surface entityType haystackId 5 (3 / 4)
      (hydrateEntities num.encode contextId transport earlier)).map fun found =>
        found.map (·.entityId)
  model := model

/-- The profiles registered in the context. -/
def registeredIn : Profiles :=
  (run d .initial steps).stores.profiles.filter fun p => p.contextId = contextId

/-- The surface has a canonical form, which no registered entity of the context has. -/
def Unmatched (surface canonical : String) : Prop :=
  canonicalizeEntitySurface d.unicode surface = .ok canonical ∧
    ∀ p ∈ registeredIn d steps contextId,
      canonicalizeEntitySurface d.unicode p.canonicalName ≠ .ok canonical

/-- What `resolve` puts before the model. -/
def listedFor (found : List NameCandidate) : Profiles :=
  EntityRegistry.shortlist (run d .initial steps).stores.profiles [] [] contextId
    (readIds d.unicode found)

variable {d steps num transport earlier model contextId} {surface canonical : String}
  {found : List NameCandidate}

/-- `resolve` on an unmatched surface. -/
theorem resolve_unmatched (entityType : String) (h : Unmatched d steps contextId surface canonical)
    (hfound : foundIn num transport earlier contextId surface entityType = .ok found) :
    (indexedRegistry d num transport earlier model contextId).resolve
        (run d .initial steps).stores.profiles contextId surface entityType =
      match listedFor d steps contextId found with
      | [] => (indexedRegistry d num transport earlier model contextId).resolveNew
          (run d .initial steps).stores.profiles contextId canonical entityType
      | listed => (EntityRegistry.resolveModel model contextId surface listed,
          (run d .initial steps).stores.profiles) := by
  have hids : (indexedRegistry d num transport earlier model contextId).candidates contextId surface
      entityType [] = .ok (readIds d.unicode found) := by
    rw [foundIn] at hfound
    simp only [EntityRegistry.candidates, indexedRegistry, hfound, Except.map, readIds,
      List.filterMap_map, Function.comp_def]
  have hcanonicals : (registeredIn d steps contextId).filter (fun p =>
      (canonicalizeEntitySurface d.unicode p.canonicalName).toOption = some canonical) = [] := by
    rw [List.filter_eq_nil_iff]
    intro p hp heq
    refine h.2 p hp ?_
    cases hname : canonicalizeEntitySurface d.unicode p.canonicalName with
    | error e => simp [hname, Except.toOption] at heq
    | ok name => simpa [hname, Except.toOption] using heq
  have haliases : (registeredIn d steps contextId).filter (fun p => p.aliases.any fun a =>
      (canonicalizeEntitySurface d.unicode a).toOption = some canonical) = [] := by
    rw [List.filter_eq_nil_iff]
    intro p hp
    simp [((sourced_run d steps).own p (List.mem_of_mem_filter hp)).2]
  rw [registeredIn] at hcanonicals haliases
  unfold EntityRegistry.resolve
  rw [hids]
  dsimp only
  rw [show (indexedRegistry d num transport earlier model contextId).unicode = d.unicode from rfl,
    h.1]
  dsimp only
  rw [hcanonicals, haliases]
  rfl

variable (d steps contextId found)

/-- The entities put before the model are the registered ones that were returned. -/
def Mapped : Prop :=
  ∀ id : Nat, id ∈ (listedFor d steps contextId found).map (·.graphId) ↔
    ∃ p ∈ registeredIn d steps contextId, p.graphId = id ∧
      Returned (run d .initial steps).stores.graphStore.graph contextId found id

/-- For every registered entity: some returned name is the text of its graph id exactly if its
own name was returned. -/
def NamesReadBack : Prop :=
  ∀ p ∈ registeredIn d steps contextId,
    (∃ c ∈ found, intText d.unicode c.entityId = some (p.graphId : Int)) ↔
      Stored (run d .initial steps).stores.graphStore.graph p ∧
        ∃ c ∈ found, c.entityId = p.canonicalName

variable {d steps contextId found}

theorem mem_registeredIn {p : EntityProfile} : p ∈ registeredIn d steps contextId ↔
    p ∈ (run d .initial steps).stores.profiles ∧ p.contextId = contextId := by
  simp [registeredIn]

/-- The registry has what the index returned, up to the reading of names as
numbers. -/
theorem mapped_iff : Mapped d steps contextId found ↔ NamesReadBack d steps contextId found := by
  have hsourced := sourced_run d steps
  have hcontext : ∀ p ∈ (run d .initial steps).stores.profiles,
      ∀ q ∈ (run d .initial steps).stores.profiles, p.graphId = q.graphId →
        p.contextId = q.contextId := by
    intro p hp q hq hid
    rw [(hsourced.own p hp).1, (hsourced.own q hq).1] at hid
    exact (d.allocator.injective hid).2.1
  have hlisted : ∀ id : Nat, id ∈ (listedFor d steps contextId found).map (·.graphId) ↔
      (∃ c ∈ found, intText d.unicode c.entityId = some (id : Int)) ∧
        ∃ p ∈ registeredIn d steps contextId, p.graphId = id := by
    intro id
    rw [listedFor, mem_ids_shortlist hcontext, mem_readIds]
    simp only [mem_registeredIn, and_assoc, and_comm]
  have hreturned : ∀ p ∈ registeredIn d steps contextId,
      (Returned (run d .initial steps).stores.graphStore.graph contextId found p.graphId ↔
        Stored (run d .initial steps).stores.graphStore.graph p ∧
          ∃ c ∈ found, c.entityId = p.canonicalName) := by
    intro p hp
    obtain ⟨hregistered, rfl⟩ := mem_registeredIn.mp hp
    exact returned_iff (entityIds_run d steps) (hsourced.own p hregistered) found
  constructor
  · intro hmapped p hp
    rw [← hreturned p hp]
    have hid := hmapped p.graphId
    rw [hlisted] at hid
    constructor
    · intro hread
      obtain ⟨q, -, -, hq⟩ := hid.mp ⟨hread, p, hp, rfl⟩
      exact hq
    · intro hfound
      exact (hid.mpr ⟨p, hp, rfl, hfound⟩).1
  · intro hback id
    rw [hlisted]
    constructor
    · rintro ⟨hread, p, hp, rfl⟩
      exact ⟨p, hp, rfl, (hreturned p hp).mpr ((hback p hp).mp hread)⟩
    · rintro ⟨p, hp, rfl, hfound⟩
      exact ⟨(hback p hp).mpr ((hreturned p hp).mp hfound), p, hp, rfl⟩

/-- **Hydrated candidates.** After any run, with any hydrated index, the
entities `resolve` puts before the model for an unmatched surface are the
registered ones the index returned, exactly if for each registered entity the
text of its graph id is a returned name whenever its own name is, and only then.
The index returns names and `resolve` reads them as numbers; what is not a
number is dropped in silence. -/
theorem candidates_mapped_iff (d : Deployment) (steps : List Step) (num : Numerics)
    (transport : HydraHttpTransport) (earlier : List IndexedEntity)
    (model : Option (String → String → List EntityProfile → Except Exn (Option Nat)))
    (contextId surface entityType canonical : String) (found : List NameCandidate)
    (h : Unmatched d steps contextId surface canonical)
    (hfound : foundIn num transport earlier contextId surface entityType = .ok found) :
    (indexedRegistry d num transport earlier model contextId).resolve
        (run d .initial steps).stores.profiles contextId surface entityType =
      (match listedFor d steps contextId found with
      | [] => (indexedRegistry d num transport earlier model contextId).resolveNew
          (run d .initial steps).stores.profiles contextId canonical entityType
      | listed => (EntityRegistry.resolveModel model contextId surface listed,
          (run d .initial steps).stores.profiles)) ∧
    (Mapped d steps contextId found ↔ NamesReadBack d steps contextId found) :=
  ⟨resolve_unmatched entityType h hfound, mapped_iff⟩

end Resolve

/-! ### Ally -/

/-- The names that begin with an A are alike. -/
def initialNumerics : Numerics where
  encode text := if text.toList.head?.map Char.toLower = some 'a' then [1] else [0]
  normalize vector := vector
  dot u v := (u.zipWith (· * ·) v).sum
  argsort scores := List.range scores.length
  float text := .error (.valueError ("could not convert string to float: '" ++ text ++ "'"))

/-- The entities of the office conversation, as the graph has them. -/
def officeRows : List EntityRow :=
  [⟨some (.str "entity:alice"), some (.str "alice"), some (.str "other")⟩,
    ⟨some (.str "entity:bob"), some (.str "bob"), some (.str "other")⟩,
    ⟨some (.str "entity:carol"), some (.str "carol"), some (.str "other")⟩,
    ⟨some (.str "speaker:user"), some (.str "user"), some (.str "speaker")⟩]

def officeTransport : HydraHttpTransport := ⟨"cell-0", (entityService officeRows).respond⟩

def officeFound : List NameCandidate := [⟨"alice", "alice", some (.str "other"), 1, true⟩]

theorem officeFound_eq :
    foundIn initialNumerics officeTransport [] "chat" "Ally" "other" = .ok officeFound := by
  decide +kernel

theorem ally_unmatched : Unmatched fixtureDeployment officeSteps "chat" "Ally" "ally" := by
  unfold Unmatched
  decide +kernel

/-- The node under an id, if it is an entity of the context with these columns. -/
def Graph.hasEntityRow (g : Graph) (contextId : String) (id : Nat) (row : EntityRow) : Bool :=
  (g.nodes id).any fun v => v.isEntityOf contextId && decide (row = v.entityRow)

theorem Graph.hasEntityRow_iff {g : Graph} {contextId : String} {id : Nat} {row : EntityRow} :
    g.hasEntityRow contextId id row = true ↔
      ∃ v, g.nodes id = some v ∧ v.isEntityOf contextId = true ∧ row = v.entityRow := by
  simp [Graph.hasEntityRow, Option.any_eq_true]

theorem officeRows_stored : ∀ row ∈ officeRows,
    ∃ key, row.id = some (.str key) ∧ (run fixtureDeployment .initial
      officeSteps).stores.graphStore.graph.hasEntityRow "chat"
        (numberingAllocator.allocateGraphId "entity" "chat" key) row = true := by
  intro row hrow
  simp only [officeRows, List.mem_cons, List.not_mem_nil, or_false] at hrow
  rcases hrow with rfl | rfl | rfl | rfl
  · exact ⟨_, rfl, by decide +kernel⟩
  · exact ⟨_, rfl, by decide +kernel⟩
  · exact ⟨_, rfl, by decide +kernel⟩
  · exact ⟨_, rfl, by decide +kernel⟩

/-- Alice is found for Ally, and the model is not asked about her. -/
theorem found_not_listed : ¬∀ (d : Deployment) (steps : List Step) (num : Numerics)
    (rows : List EntityRow) (contextId surface entityType canonical : String)
    (found : List NameCandidate),
    (∀ row ∈ rows, ∃ id v, (run d .initial steps).stores.graphStore.graph.nodes id = some v ∧
      v.isEntityOf contextId = true ∧ row = v.entityRow) →
    Unmatched d steps contextId surface canonical →
    foundIn num ⟨"cell-0", (entityService rows).respond⟩ [] contextId surface entityType =
      .ok found →
    Mapped d steps contextId found := by
  intro h
  have hrows : ∀ row ∈ officeRows, ∃ id v, (run fixtureDeployment .initial
      officeSteps).stores.graphStore.graph.nodes id = some v ∧ v.isEntityOf "chat" = true ∧
      row = v.entityRow := by
    intro row hrow
    obtain ⟨key, -, hstored⟩ := officeRows_stored row hrow
    exact ⟨_, Graph.hasEntityRow_iff.mp hstored⟩
  have hback := mapped_iff.mp (h fixtureDeployment officeSteps initialNumerics officeRows "chat" "Ally"
    "other" "ally" officeFound hrows ally_unmatched officeFound_eq)
  -- Alice is registered, written and found, and no name found is a number
  obtain ⟨p, hp, hname, hid⟩ : ∃ p ∈ registeredIn fixtureDeployment officeSteps "chat",
      p.canonicalName = "alice" ∧
        p.graphId = numberingAllocator.allocateGraphId "entity" "chat" "entity:alice" := by
    decide +kernel
  obtain ⟨key, hkey, hstored⟩ := officeRows_stored _ List.mem_cons_self
  cases hkey
  obtain ⟨v, hv, hentity, -⟩ := Graph.hasEntityRow_iff.mp hstored
  have hctx : p.contextId = "chat" := (mem_registeredIn.mp hp).2
  have hread := (hback p hp).mpr ⟨⟨v, by rw [hid, hv], by rw [hctx, hentity]⟩, _,
    List.mem_cons_self, hname.symm⟩
  obtain ⟨c, hc, htext⟩ := hread
  rw [List.mem_singleton.mp hc] at htext
  have hnone : intText fixtureDeployment.unicode "alice" = none := by decide +kernel
  rw [hnone] at htext
  cases htext

/-- Ally, as the theorem has it. -/
theorem candidates_mapped_iff_ally :
    (indexedRegistry fixtureDeployment initialNumerics officeTransport [] none "chat").resolve
        (run fixtureDeployment .initial officeSteps).stores.profiles "chat" "Ally" "other" =
      (match listedFor fixtureDeployment officeSteps "chat" officeFound with
      | [] => (indexedRegistry fixtureDeployment initialNumerics officeTransport [] none
          "chat").resolveNew (run fixtureDeployment .initial officeSteps).stores.profiles "chat" "ally"
          "other"
      | listed => (EntityRegistry.resolveModel none "chat" "Ally" listed,
          (run fixtureDeployment .initial officeSteps).stores.profiles)) ∧
    (Mapped fixtureDeployment officeSteps "chat" officeFound ↔
      NamesReadBack fixtureDeployment officeSteps "chat" officeFound) :=
  candidates_mapped_iff fixtureDeployment officeSteps initialNumerics officeTransport [] none "chat"
    "Ally" "other" "ally" officeFound ally_unmatched officeFound_eq

end ContextMemory
