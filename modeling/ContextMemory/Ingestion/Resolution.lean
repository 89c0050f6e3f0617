/-
Entity resolution and temporal update decisions (`core/resolution.py`,
`ingestion/resolution.py`).

The Unicode tables behind `unicodedata.normalize` and `str.casefold`, the Tier-2
name index, the two language models and the graph-id table are parameters. The
graph-id table hands out one id per (kind, context, key) for good, so it is a
function, and an injective one.
-/

import ContextMemory.Lib.Ordered
import ContextMemory.Core.Models

namespace ContextMemory

/-! ### Graph ids -/

/-- `allocate_graph_id`: what `graph_id_registry` answers, whenever it is first asked. -/
structure GraphIdAllocator where
  allocateGraphId : (nodeKind contextId logicalKey : String) → Nat
  injective : ∀ {kind kind' ctx ctx' key key'},
    allocateGraphId kind ctx key = allocateGraphId kind' ctx' key' →
      kind = kind' ∧ ctx = ctx' ∧ key = key'

/-! ### Surfaces -/

/-- The Unicode tables of the standard library. -/
structure UnicodeTables where
  nfkc : String → String
  casefold : String → String
  /-- `unicodedata.decimal`. -/
  decimal : Char → Option Nat := fun c => if c.isDigit then some (c.toNat - '0'.toNat) else none

/-- `str.isspace` on one character. -/
def pySpace (c : Char) : Bool :=
  let n := c.toNat
  (9 ≤ n && n ≤ 13) || (28 ≤ n && n ≤ 32) || n = 0x85 || n = 0xA0 || n = 0x1680 ||
    (0x2000 ≤ n && n ≤ 0x200A) || n = 0x2028 || n = 0x2029 || n = 0x202F || n = 0x205F || n = 0x3000

/-- `not text.strip()`. -/
def isBlank (text : String) : Bool := text.toList.all pySpace

/-- `text.strip()`. -/
def strip (text : String) : String :=
  String.ofList ((text.toList.dropWhile pySpace).reverse.dropWhile pySpace).reverse

/-- `re.sub(r"\s+", " ", text)`. -/
def collapseSpace : List Char → List Char
  | [] => []
  | c :: cs =>
      if pySpace c then
        match cs with
        | [] => [' ']
        | d :: _ => if pySpace d then collapseSpace cs else ' ' :: collapseSpace cs
      else c :: collapseSpace cs

/-- The digits of `int(text)`, after some; an underscore stands between two digits. -/
def digitsFrom (unicode : UnicodeTables) : (value : Nat) → List Char → Option Nat
  | value, [] => some value
  | value, '_' :: c :: rest =>
      (unicode.decimal c).bind fun d => digitsFrom unicode (value * 10 + d) rest
  | value, c :: rest => (unicode.decimal c).bind fun d => digitsFrom unicode (value * 10 + d) rest

/-- `sys.int_info.default_max_str_digits`. -/
def maxStrDigits : Nat := 4300

def natText (unicode : UnicodeTables) (text : List Char) : Option Nat :=
  if maxStrDigits < text.countP (fun c => c ≠ '_') then none
  else
    match text with
    | [] => none
    | c :: rest => (unicode.decimal c).bind fun d => digitsFrom unicode d rest

/-- `int(text)`; `none` if it raises a `ValueError`. -/
def intText (unicode : UnicodeTables) (text : String) : Option Int :=
  match (strip text).toList with
  | '-' :: rest => (natText unicode rest).map fun n => -(n : Int)
  | '+' :: rest => (natText unicode rest).map Int.ofNat
  | rest => (natText unicode rest).map Int.ofNat

/-- `canonicalize_entity_surface`. -/
def canonicalizeEntitySurface (unicode : UnicodeTables) (surface : String) : Except Exn String :=
  if isBlank surface then .error (.contractValidation "entity.surface" "must be a non-empty string")
  else .ok (unicode.casefold
    (String.ofList (collapseSpace (strip (unicode.nfkc surface)).toList)))

/-! ### Entities -/

@[ext] structure EntityProfile where
  graphId : Nat
  contextId : String
  canonicalName : String
  entityType : String := "other"
  aliases : List String := []
  contextId_ne : contextId ≠ "" := by decide
  canonicalName_ne : isBlank canonicalName = false := by decide
  entityType_ne : entityType ≠ "" := by decide
  aliases_ne : ∀ a ∈ aliases, isBlank a = false := by decide

instance : DecidableEq EntityProfile := fun _ _ => decidable_of_iff' _ EntityProfile.ext_iff

inductive ResolutionStatus where
  | exactCanonical | exactAlias | modelResolved | newEntity | unresolved
deriving DecidableEq, Repr

structure EntityResolution where
  status : ResolutionStatus
  entity : Option EntityProfile
  reason : String
deriving DecidableEq

/-- What an `EntityRegistry` is constructed with. -/
structure EntityRegistry where
  unicode : UnicodeTables
  allocator : GraphIdAllocator
  /-- `find_candidates(query_name, entity_type, haystack_id)`: the entity ids it returns. -/
  nameIndex : Option (String → String → String → Except Exn (List String)) := none
  model : Option (String → String → List EntityProfile → Except Exn (Option Nat)) := none

/-- `self._profiles`, in insertion order. -/
abbrev Profiles := List EntityProfile

namespace EntityRegistry

/-- `register`. -/
def register (profiles : Profiles) (profile : EntityProfile) : Except Exn Profiles :=
  match Ordered.find EntityProfile.graphId profile.graphId profiles with
  | some existing =>
      if existing ≠ profile then
        .error (.valueError ("graph ID " ++ toString profile.graphId ++
          " has conflicting entity content"))
      else .ok (Ordered.upsert EntityProfile.graphId profile profiles)
  | none => .ok (Ordered.upsert EntityProfile.graphId profile profiles)

theorem blank_not_mem_nil : ∀ a ∈ ([] : List String), isBlank a = false :=
  List.forall_mem_nil _

/-- The `EntityProfile` constructor on a fresh entity, with its checks in order. -/
def newProfile (graphId : Nat) (contextId canonical entityType : String) :
    Except Exn EntityProfile :=
  if hctx : contextId ≠ "" then
    if hname : isBlank canonical = false then
      if htype : entityType ≠ "" then
        .ok { graphId, contextId, canonicalName := canonical, entityType, contextId_ne := hctx,
              canonicalName_ne := hname, entityType_ne := htype, aliases_ne := blank_not_mem_nil }
      else .error (.contractValidation "entity.entity_type" "must be non-empty")
    else .error (.contractValidation "entity.surface" "must be a non-empty string")
  else .error (.contractValidation "entity.context_id" "must be non-empty")

/-- The bounded shortlist put before the model: matches first, then the candidate ids. -/
def shortlist (profiles canonicals aliases : Profiles) (contextId : String)
    (candidateIds : List Int) : Profiles :=
  let matched := (canonicals ++ aliases).foldl
    (fun acc p => Ordered.upsert EntityProfile.graphId p acc) []
  candidateIds.foldl (fun acc (i : Int) =>
    match profiles.find? (fun p => (p.graphId : Int) = i) with
    | some p => if p.contextId = contextId then Ordered.upsert EntityProfile.graphId p acc else acc
    | none => acc) matched

/-- `candidate_ids`, completed from the name index when the caller gave none. -/
def candidates (registry : EntityRegistry) (contextId surface entityType : String)
    (candidateIds : List Int) : Except Exn (List Int) :=
  match registry.nameIndex, candidateIds with
  | some find, [] => (find surface entityType contextId).map fun ids =>
      ids.filterMap (intText registry.unicode)
  | _, _ => .ok candidateIds

/-- The last branch of `resolve`: nothing in the context matches, so a new entity is made. -/
def resolveNew (registry : EntityRegistry) (profiles : Profiles)
    (contextId canonical entityType : String) : Except Exn EntityResolution × Profiles :=
  let graphId := registry.allocator.allocateGraphId "entity" contextId ("entity:" ++ canonical)
  match newProfile graphId contextId canonical entityType with
  | .error e => (.error e, profiles)
  | .ok profile =>
      match register profiles profile with
      | .error e => (.error e, profiles)
      | .ok profiles' =>
          (.ok ⟨.newEntity, some profile, "no candidate in active context"⟩, profiles')

/-- The branch of `resolve` that asks the model. -/
def resolveModel (model : Option (String → String → List EntityProfile → Except Exn (Option Nat)))
    (contextId surface : String) (listed : Profiles) : Except Exn EntityResolution :=
  match model with
  | none => .ok ⟨.unresolved, none, "ambiguous candidate set requires model"⟩
  | some ask =>
      match ask contextId surface listed with
      | .error e => .error e
      | .ok selected =>
          match selected.bind fun i => Ordered.find EntityProfile.graphId i listed with
          | none => .ok ⟨.unresolved, none,
              "model abstained or selected outside bounded candidates"⟩
          | some p => .ok ⟨.modelResolved, some p, "model selected bounded candidate"⟩

/-- `resolve`; the second component is what the registry holds afterwards. -/
def resolve (registry : EntityRegistry) (profiles : Profiles) (contextId surface : String)
    (entityType : String := "other") (candidateIds : List Int := []) :
    Except Exn EntityResolution × Profiles :=
  match registry.candidates contextId surface entityType candidateIds with
  | .error e => (.error e, profiles)
  | .ok ids =>
    match canonicalizeEntitySurface registry.unicode surface with
    | .error e => (.error e, profiles)
    | .ok canonical =>
      let inContext := profiles.filter fun p => p.contextId = contextId
      let canonicals := inContext.filter fun p =>
        (canonicalizeEntitySurface registry.unicode p.canonicalName).toOption = some canonical
      let aliases := inContext.filter fun p => p.aliases.any fun a =>
        (canonicalizeEntitySurface registry.unicode a).toOption = some canonical
      match canonicals, aliases with
      | [p], _ => (.ok ⟨.exactCanonical, some p, "exact canonical match"⟩, profiles)
      | _, [p] => (.ok ⟨.exactAlias, some p, "exact alias match"⟩, profiles)
      | _, _ =>
        match shortlist profiles canonicals aliases contextId ids with
        | [] => registry.resolveNew profiles contextId canonical entityType
        | listed => (resolveModel registry.model contextId surface listed, profiles)

/-- `resolve_entity`, the callable the plan builder is given. -/
def resolveEntity (registry : EntityRegistry) (profiles : Profiles)
    (contextId surface entityType : String) : Except Exn (Option EntityProfile) × Profiles :=
  let out := registry.resolve profiles contextId surface entityType
  (out.1.map (·.entity), out.2)

/-! ### What a resolved profile is -/

/-- A profile the registry made itself: its id is the one allocated for its own key. -/
def Allocated (registry : EntityRegistry) (p : EntityProfile) : Prop :=
  p.graphId = registry.allocator.allocateGraphId "entity" p.contextId ("entity:" ++ p.canonicalName)
    ∧ p.aliases = []

theorem newProfile_eq_ok {graphId : Nat} {contextId canonical entityType : String}
    {p : EntityProfile} (h : newProfile graphId contextId canonical entityType = .ok p) :
    p.graphId = graphId ∧ p.contextId = contextId ∧ p.canonicalName = canonical ∧
      p.entityType = entityType ∧ p.aliases = [] := by
  unfold newProfile at h
  split at h
  · split at h
    · split at h
      · cases h
        exact ⟨rfl, rfl, rfl, rfl, rfl⟩
      · cases h
    · cases h
  · cases h

theorem register_eq_ok {profiles profiles' : Profiles} {p : EntityProfile}
    (h : register profiles p = .ok profiles') :
    profiles' = Ordered.upsert EntityProfile.graphId p profiles ∧
      ∀ existing, Ordered.find EntityProfile.graphId p.graphId profiles = some existing →
        existing = p := by
  unfold register at h
  split at h
  · rename_i existing hfind
    split at h
    · cases h
    · rename_i hsame
      cases h
      refine ⟨rfl, fun other hother => ?_⟩
      rw [← Option.some.inj (hfind.symm.trans hother)]
      exact not_not.mp hsame
  · rename_i hfind
    cases h
    refine ⟨rfl, fun other hother => ?_⟩
    rw [hfind] at hother
    cases hother

theorem mem_shortlist {profiles canonicals aliases : Profiles} {contextId : String}
    {candidateIds : List Int} {p : EntityProfile}
    (hsub : ∀ q ∈ canonicals ++ aliases, q ∈ profiles ∧ q.contextId = contextId)
    (h : p ∈ shortlist profiles canonicals aliases contextId candidateIds) :
    p ∈ profiles ∧ p.contextId = contextId := by
  have hmatched : ∀ (qs acc : Profiles), (∀ q ∈ acc, q ∈ profiles ∧ q.contextId = contextId) →
      (∀ q ∈ qs, q ∈ profiles ∧ q.contextId = contextId) →
      ∀ q ∈ qs.foldl (fun acc p => Ordered.upsert EntityProfile.graphId p acc) acc,
        q ∈ profiles ∧ q.contextId = contextId := by
    intro qs
    induction qs with
    | nil => exact fun acc hacc _ => hacc
    | cons q qs ih =>
        intro acc hacc hqs
        refine ih _ (fun r hr => ?_) fun r hr => hqs r (List.mem_cons_of_mem _ hr)
        rcases Ordered.mem_of_mem_upsert hr with rfl | hr
        · exact hqs r List.mem_cons_self
        · exact hacc r hr
  have hids : ∀ (ids : List Int) (acc : Profiles),
      (∀ q ∈ acc, q ∈ profiles ∧ q.contextId = contextId) →
      ∀ q ∈ ids.foldl (fun acc (i : Int) =>
        match profiles.find? (fun p => (p.graphId : Int) = i) with
        | some p => if p.contextId = contextId then Ordered.upsert EntityProfile.graphId p acc else acc
        | none => acc) acc, q ∈ profiles ∧ q.contextId = contextId := by
    intro ids
    induction ids with
    | nil => exact fun acc hacc => hacc
    | cons i ids ih =>
        intro acc hacc
        refine ih _ fun r hr => ?_
        dsimp only at hr
        split at hr
        · rename_i q hq
          split at hr
          · rename_i hctx
            rcases Ordered.mem_of_mem_upsert hr with rfl | hr
            · exact ⟨List.mem_of_find?_eq_some hq, hctx⟩
            · exact hacc r hr
          · exact hacc r hr
        · exact hacc r hr
  exact hids candidateIds _ (hmatched _ [] (by simp) hsub) p h

theorem upsert_ne_nil (p : EntityProfile) (profiles : Profiles) :
    Ordered.upsert EntityProfile.graphId p profiles ≠ [] := by
  intro h
  have hmem : p ∈ Ordered.upsert EntityProfile.graphId p profiles :=
    Ordered.mem_upsert_self p profiles
  rw [h] at hmem
  cases hmem

/-- Whatever matches is on the shortlist. -/
theorem shortlist_eq_nil {profiles canonicals aliases : Profiles} {contextId : String}
    {candidateIds : List Int}
    (h : shortlist profiles canonicals aliases contextId candidateIds = []) :
    canonicals ++ aliases = [] := by
  have hids : ∀ (ids : List Int) (acc : Profiles), acc ≠ [] → ids.foldl (fun acc (i : Int) =>
      match profiles.find? (fun p => (p.graphId : Int) = i) with
      | some p => if p.contextId = contextId then Ordered.upsert EntityProfile.graphId p acc else acc
      | none => acc) acc ≠ [] := by
    intro ids
    induction ids with
    | nil => exact fun acc hacc => hacc
    | cons i ids ih =>
        intro acc hacc
        refine ih _ ?_
        dsimp only
        split
        · split
          · exact upsert_ne_nil _ _
          · exact hacc
        · exact hacc
  have hmatched : ∀ (qs acc : Profiles), acc ≠ [] →
      qs.foldl (fun acc p => Ordered.upsert EntityProfile.graphId p acc) acc ≠ [] := by
    intro qs
    induction qs with
    | nil => exact fun acc hacc => hacc
    | cons q qs ih => exact fun acc _ => ih _ (upsert_ne_nil q acc)
  cases hmatches : canonicals ++ aliases with
  | nil => rfl
  | cons p rest =>
      rw [shortlist, hmatches, List.foldl_cons] at h
      exact absurd h (hids candidateIds _ (hmatched rest _ (upsert_ne_nil p [])))

/-- A profile made for a surface: of the asked type, and without a match or a conflict among the
registered ones. -/
structure MadeFor (registry : EntityRegistry) (profiles : Profiles)
    (contextId surface entityType : String) (p : EntityProfile) : Prop where
  context : p.contextId = contextId
  allocated : registry.Allocated p
  name : canonicalizeEntitySurface registry.unicode surface = .ok p.canonicalName
  type : p.entityType = entityType
  unmatched : ∀ q ∈ profiles, q.contextId = contextId →
    canonicalizeEntitySurface registry.unicode q.canonicalName ≠ .ok p.canonicalName
  registered : ∀ existing, Ordered.find EntityProfile.graphId p.graphId profiles = some existing →
    existing = p

/-- What `resolve` leaves and returns: the old profiles, or one new entity made
for this context; the entity returned is a profile of the asked context that is
registered now. -/
theorem resolve_cases {registry : EntityRegistry} {profiles profiles' : Profiles}
    {contextId surface entityType : String} {candidateIds : List Int}
    {result : Except Exn EntityResolution}
    (h : registry.resolve profiles contextId surface entityType candidateIds = (result, profiles')) :
    (profiles' = profiles ∧ ∀ r p, result = .ok r → r.entity = some p →
        p ∈ profiles ∧ p.contextId = contextId) ∨
      ∃ p r, result = .ok r ∧ r.entity = some p ∧
        MadeFor registry profiles contextId surface entityType p ∧
        profiles' = Ordered.upsert EntityProfile.graphId p profiles := by
  unfold resolve at h
  split at h
  · cases h
    exact Or.inl ⟨rfl, by simp⟩
  · rename_i ids _
    split at h
    · cases h
      exact Or.inl ⟨rfl, by simp⟩
    · rename_i canonical hcanonical
      dsimp only at h
      generalize hcan : (profiles.filter fun p => p.contextId = contextId).filter (fun p =>
        (canonicalizeEntitySurface registry.unicode p.canonicalName).toOption = some canonical)
        = canonicals at h
      generalize hali : (profiles.filter fun p => p.contextId = contextId).filter (fun p =>
        p.aliases.any fun a =>
          (canonicalizeEntitySurface registry.unicode a).toOption = some canonical)
        = aliases at h
      have hcanonicals : ∀ q ∈ canonicals, q ∈ profiles ∧ q.contextId = contextId := by
        intro q hq
        rw [← hcan] at hq
        simpa using (List.mem_filter.mp hq).1
      have haliases : ∀ q ∈ aliases, q ∈ profiles ∧ q.contextId = contextId := by
        intro q hq
        rw [← hali] at hq
        simpa using (List.mem_filter.mp hq).1
      split at h
      · cases h
        refine Or.inl ⟨rfl, fun r p hr hp => ?_⟩
        cases hr
        cases hp
        exact hcanonicals _ List.mem_cons_self
      · cases h
        refine Or.inl ⟨rfl, fun r p hr hp => ?_⟩
        cases hr
        cases hp
        exact haliases _ List.mem_cons_self
      · split at h
        · -- nothing matched: the entity is new
          rename_i hshort
          have hnone := (List.append_eq_nil_iff.mp (shortlist_eq_nil hshort)).1
          rw [← hcan, List.filter_eq_nil_iff] at hnone
          unfold resolveNew at h
          dsimp only at h
          split at h
          · cases h
            exact Or.inl ⟨rfl, by simp⟩
          · rename_i p hp
            obtain ⟨hid, hctx, hname, htype, haliases⟩ := newProfile_eq_ok hp
            split at h
            · cases h
              exact Or.inl ⟨rfl, by simp⟩
            · rename_i profiles'' hreg
              cases h
              obtain ⟨hupsert, hregistered⟩ := register_eq_ok hreg
              refine Or.inr ⟨p, _, rfl, rfl, ⟨hctx, ⟨?_, haliases⟩, ?_, htype, ?_, hregistered⟩,
                hupsert⟩
              · rw [hid, hctx, hname]
              · rw [hname]
                exact hcanonical
              · intro q hq hqctx hqname
                refine hnone q (List.mem_filter.mpr ⟨hq, by simpa using hqctx⟩) ?_
                rw [hqname, hname]
                simp [Except.toOption]
        · -- the model chose from the shortlist, or did not
          rename_i listed hlisted
          cases h
          refine Or.inl ⟨rfl, fun r p hr hp => ?_⟩
          unfold resolveModel at hr
          split at hr
          · cases hr
            cases hp
          · split at hr
            · cases hr
            · split at hr
              · cases hr
                cases hp
              · rename_i q hq
                cases hr
                cases hp
                obtain ⟨i, -, hfind⟩ := Option.bind_eq_some_iff.mp hq
                refine mem_shortlist (fun q hq => ?_) (Ordered.find_eq_some hfind).1
                rcases List.mem_append.mp hq with hq | hq
                · exact hcanonicals q hq
                · exact haliases q hq

/-- The registry's own profiles stay its own, and only such profiles are
returned. -/
theorem resolveEntity_allocated {registry : EntityRegistry} {profiles profiles' : Profiles}
    {contextId surface entityType : String} {result : Except Exn (Option EntityProfile)}
    (hall : ∀ p ∈ profiles, registry.Allocated p)
    (h : registry.resolveEntity profiles contextId surface entityType = (result, profiles')) :
    (∀ p ∈ profiles', registry.Allocated p) ∧
      ∀ p, result = .ok (some p) → registry.Allocated p ∧ p.contextId = contextId := by
  unfold resolveEntity at h
  dsimp only at h
  obtain ⟨rfl, rfl⟩ := Prod.mk.inj h
  have hentity : ∀ p, ((registry.resolve profiles contextId surface entityType).1.map
      (·.entity)) = .ok (some p) → ∃ r,
        (registry.resolve profiles contextId surface entityType).1 = .ok r ∧ r.entity = some p := by
    intro p hp
    cases hres : (registry.resolve profiles contextId surface entityType).1 with
    | error e =>
        rw [hres] at hp
        cases hp
    | ok r =>
        rw [hres] at hp
        exact ⟨r, rfl, Except.ok.inj hp⟩
  rcases resolve_cases (Prod.mk.eta (p := registry.resolve profiles contextId surface
    entityType)).symm with ⟨hsame, hold⟩ | ⟨q, r, hr, hq, hmade, hsame⟩
  · rw [hsame]
    refine ⟨hall, fun p hp => ?_⟩
    obtain ⟨r, hr, hent⟩ := hentity p hp
    obtain ⟨hmem, hctx⟩ := hold r p hr hent
    exact ⟨hall p hmem, hctx⟩
  · rw [hsame]
    refine ⟨fun p hp => ?_, fun p hp => ?_⟩
    · rcases Ordered.mem_of_mem_upsert hp with rfl | hp
      · exact hmade.allocated
      · exact hall p hp
    · obtain ⟨r', hr', hent⟩ := hentity p hp
      obtain rfl : r = r' := Except.ok.inj (hr.symm.trans hr')
      obtain rfl : q = p := Option.some.inj (hq.symm.trans hent)
      exact ⟨hmade.allocated, hmade.context⟩

end EntityRegistry

/-! ### Temporal decisions -/

inductive TemporalRelation where
  | correction | stateChange | noUpdate | unresolved
deriving DecidableEq, Repr

structure FactState where
  factId : String
  subjectEntityId : Nat
  predicateKey : String
  text : String
  observedAt : DateTime
  validFrom : Option DateTime := none
  validTo : Option DateTime := none
deriving DecidableEq

/-- The `FactState` constructor; instants here always carry their offset. -/
def FactState.make (state : FactState) : Except Exn FactState :=
  if state.factId = "" ∨ state.predicateKey = "" ∨ state.text = "" then
    .error (.contractValidation "fact_state" "fact_id, predicate_key, and text must be non-empty")
  else
    match state.validFrom, state.validTo with
    | some validFrom, some validTo =>
        if validTo < validFrom then
          .error (.contractValidation "fact_state.valid_from" "must not be later than valid_to")
        else .ok state
    | _, _ => .ok state

theorem FactState.make_eq_ok {state state' : FactState} (h : state.make = .ok state') :
    state' = state := by
  unfold FactState.make at h
  split at h
  · cases h
  · split at h
    · split at h
      · cases h
      · cases h
        rfl
    · cases h
      rfl

structure TemporalUpdateDecision where
  relation : TemporalRelation
  reason : String
  priorSupersededAt : Option DateTime := none
  priorValidTo : Option DateTime := none
deriving DecidableEq

/-- `decision.relation in (CORRECTION, STATE_CHANGE)`. -/
def TemporalUpdateDecision.isUpdate (decision : TemporalUpdateDecision) : Bool :=
  decision.relation = .correction || decision.relation = .stateChange

/-- `TemporalUpdateClassifier.classify`; `model` is `classify_update`. -/
def classify (model : FactState → FactState → Except Exn TemporalRelation)
    (newFact priorFact : FactState) : Except Exn TemporalUpdateDecision :=
  if newFact.observedAt ≤ priorFact.observedAt then
    .ok ⟨.noUpdate, "out-of-order or equal observation time", none, none⟩
  else if newFact.subjectEntityId ≠ priorFact.subjectEntityId then
    .ok ⟨.noUpdate, "different subject entity", none, none⟩
  else if newFact.predicateKey ≠ priorFact.predicateKey then
    .ok ⟨.noUpdate, "different predicate key", none, none⟩
  else
    match model newFact priorFact with
    | .error e => .error e
    | .ok .correction =>
        .ok ⟨.correction, "model-confirmed correction", some newFact.observedAt, none⟩
    | .ok .stateChange =>
        .ok ⟨.stateChange, "model-confirmed state change", some newFact.observedAt,
          some (newFact.validFrom.getD newFact.observedAt)⟩
    | .ok .noUpdate => .ok ⟨.noUpdate, "model found no update", none, none⟩
    | .ok .unresolved => .ok ⟨.unresolved, "model abstained", none, none⟩

/-- Everything an update decision says: the gates it passed and what it closes. -/
theorem classify_isUpdate {model : FactState → FactState → Except Exn TemporalRelation}
    {newFact priorFact : FactState} {decision : TemporalUpdateDecision}
    (h : classify model newFact priorFact = .ok decision) (hupdate : decision.isUpdate = true) :
    priorFact.observedAt < newFact.observedAt ∧
      newFact.subjectEntityId = priorFact.subjectEntityId ∧
      newFact.predicateKey = priorFact.predicateKey ∧
      model newFact priorFact = .ok decision.relation ∧
      decision.priorSupersededAt = some newFact.observedAt ∧
      decision.priorValidTo = (if decision.relation = .correction then none
        else some (newFact.validFrom.getD newFact.observedAt)) := by
  unfold classify at h
  split at h
  · cases h
    cases hupdate
  · rename_i htime
    split at h
    · cases h
      cases hupdate
    · rename_i hsubject
      split at h
      · cases h
        cases hupdate
      · rename_i hpredicate
        have hlt : priorFact.observedAt < newFact.observedAt := Int.not_le.mp htime
        cases hanswer : model newFact priorFact with
        | error e =>
            rw [hanswer] at h
            cases h
        | ok relation =>
            rw [hanswer] at h
            cases relation <;> cases h
            · exact ⟨hlt, not_not.mp hsubject, not_not.mp hpredicate, rfl, rfl, rfl⟩
            · exact ⟨hlt, not_not.mp hsubject, not_not.mp hpredicate, rfl, rfl, rfl⟩
            · cases hupdate
            · cases hupdate

end ContextMemory
