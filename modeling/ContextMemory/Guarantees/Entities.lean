/-
What the entity registry promises.

All contexts share one map of profiles. A registry that made its own profiles holds at most
one per context and canonical form, under the id allocated for that pair, so a call for one
context sees nothing of the others (`resolution_isolated`).
-/

import ContextMemory.Ingestion.Fixture

namespace ContextMemory

/-! ### Calls on a registry -/

/-- The arguments of one `resolve` call. -/
structure ResolveCall where
  contextId : String
  surface : String
  entityType : String := "other"
  candidateIds : List Int := []
  model : Option (String → String → List EntityProfile → Except Exn (Option Nat)) := none

namespace EntityRegistry

/-- `effective_model`: the model of the call before that of the registry. -/
def withModel (registry : EntityRegistry)
    (model : Option (String → String → List EntityProfile → Except Exn (Option Nat))) :
    EntityRegistry :=
  { registry with model := model.or registry.model }

def call (registry : EntityRegistry) (profiles : Profiles) (c : ResolveCall) :
    Except Exn EntityResolution × Profiles :=
  (registry.withModel c.model).resolve profiles c.contextId c.surface c.entityType c.candidateIds

end EntityRegistry

/-- A call of a run, with the profiles it found and what it gave. -/
structure ResolveStep where
  before : Profiles
  call : ResolveCall
  result : Except Exn EntityResolution

/-- The calls one after another on one registry. -/
def EntityRegistry.resolveAll (registry : EntityRegistry) :
    Profiles → List ResolveCall → List ResolveStep
  | _, [] => []
  | profiles, c :: calls =>
      ⟨profiles, c, (registry.call profiles c).1⟩ ::
        registry.resolveAll (registry.call profiles c).2 calls

section Registry

variable (registry : EntityRegistry)

abbrev EntityRegistry.canonicalize (surface : String) : Except Exn String :=
  canonicalizeEntitySurface registry.unicode surface

/-- The canonical form of a canonical form is itself. -/
def EntityRegistry.Idempotent : Prop :=
  ∀ surface canonical, registry.canonicalize surface = .ok canonical →
    registry.canonicalize canonical = .ok canonical

/-- The id of the entity of a canonical form. -/
def EntityRegistry.entityId (contextId canonical : String) : Nat :=
  registry.allocator.allocateGraphId "entity" contextId ("entity:" ++ canonical)

def EntityRegistry.canonicals (profiles : Profiles) (contextId canonical : String) : Profiles :=
  (profiles.filter fun p => p.contextId = contextId).filter fun p =>
    (registry.canonicalize p.canonicalName).toOption = some canonical

/-- The profiles one of whose aliases matches. -/
def EntityRegistry.aliased (profiles : Profiles) (contextId canonical : String) : Profiles :=
  (profiles.filter fun p => p.contextId = contextId).filter fun p =>
    p.aliases.any fun a => (registry.canonicalize a).toOption = some canonical

/-- The shortlist shown to the model. -/
def EntityRegistry.shown (profiles : Profiles) (c : ResolveCall) (canonical : String) : Profiles :=
  EntityRegistry.shortlist profiles (registry.canonicals profiles c.contextId canonical)
    (registry.aliased profiles c.contextId canonical) c.contextId c.candidateIds

/-- What a call may return for a surface with this canonical form. -/
inductive Bounded (s : ResolveStep) (canonical : String) : EntityResolution → Prop
  | exactCanonical {p reason} : p ∈ s.before → p.contextId = s.call.contextId →
      registry.canonicalize p.canonicalName = .ok canonical →
      Bounded s canonical ⟨.exactCanonical, some p, reason⟩
  | exactAlias {p a reason} : p ∈ s.before → p.contextId = s.call.contextId → a ∈ p.aliases →
      registry.canonicalize a = .ok canonical → Bounded s canonical ⟨.exactAlias, some p, reason⟩
  | modelResolved {p reason} : p.contextId = s.call.contextId →
      p ∈ registry.shown s.before s.call canonical →
      Bounded s canonical ⟨.modelResolved, some p, reason⟩
  | newEntity {p reason} : p.contextId = s.call.contextId → p.canonicalName = canonical →
      p.graphId = registry.entityId s.call.contextId canonical → (∀ q ∈ s.before, q.graphId ≠ p.graphId) →
      Bounded s canonical ⟨.newEntity, some p, reason⟩
  | unresolved {reason} : Bounded s canonical ⟨.unresolved, none, reason⟩

/-- What a call may raise: it was given an empty text, or the model raised. -/
def Refused (c : ResolveCall) (e : Exn) : Prop :=
  ((isBlank c.surface = true ∨ c.contextId = "" ∨ c.entityType = "") ∧
      ∃ field message, e = .contractValidation field message) ∨
    ∃ ask listed, c.model.or registry.model = some ask ∧ ask c.contextId c.surface listed = .error e

/-! ### The profiles a registry makes -/

/-- The profiles are the registry's own, in canonical form and each under its own id. -/
structure Consistent (profiles : Profiles) : Prop where
  allocated : ∀ p ∈ profiles, registry.Allocated p
  canonical : ∀ p ∈ profiles, registry.canonicalize p.canonicalName = .ok p.canonicalName
  ids_nodup : (profiles.map (·.graphId)).Nodup

theorem consistent_nil : Consistent registry [] := ⟨by simp, by simp, by simp⟩

variable {registry} {profiles : Profiles}

/-- At most one profile of a context has a canonical form. -/
theorem Consistent.eq_of_name (h : Consistent registry profiles) {p q : EntityProfile}
    (hp : p ∈ profiles) (hq : q ∈ profiles) (hctx : p.contextId = q.contextId)
    (hname : p.canonicalName = q.canonicalName) : p = q := by
  refine List.inj_on_of_nodup_map h.ids_nodup hp hq ?_
  rw [(h.allocated p hp).1, (h.allocated q hq).1, hctx, hname]

theorem Consistent.aliased_eq_nil (h : Consistent registry profiles) (contextId canonical : String) :
    registry.aliased profiles contextId canonical = [] := by
  rw [EntityRegistry.aliased, List.filter_eq_nil_iff]
  intro p hp
  simp [(h.allocated p (List.mem_of_mem_filter hp)).2]

theorem Consistent.mem_canonicals (h : Consistent registry profiles) {contextId canonical : String}
    {p : EntityProfile} : p ∈ registry.canonicals profiles contextId canonical ↔
      p ∈ profiles ∧ p.contextId = contextId ∧ p.canonicalName = canonical := by
  rw [EntityRegistry.canonicals, List.mem_filter, List.mem_filter]
  constructor
  · rintro ⟨⟨hp, hctx⟩, hname⟩
    rw [h.canonical p hp] at hname
    exact ⟨hp, by simpa using hctx, by simpa [Except.toOption] using hname⟩
  · rintro ⟨hp, hctx, hname⟩
    rw [h.canonical p hp]
    exact ⟨⟨hp, by simpa using hctx⟩, by simpa [Except.toOption] using hname⟩

/-- A canonical form has no match, or one. -/
theorem Consistent.canonicals_cases (h : Consistent registry profiles)
    (contextId canonical : String) :
    registry.canonicals profiles contextId canonical = [] ∨
      ∃ p ∈ profiles, p.contextId = contextId ∧ p.canonicalName = canonical ∧
        registry.canonicals profiles contextId canonical = [p] := by
  have hnodup : (registry.canonicals profiles contextId canonical).Nodup :=
    ((h.ids_nodup.of_map _).filter _).filter _
  match hmatches : registry.canonicals profiles contextId canonical with
  | [] => exact Or.inl rfl
  | [p] =>
      have hp := h.mem_canonicals.mp (hmatches ▸ List.mem_cons_self)
      exact Or.inr ⟨p, hp.1, hp.2.1, hp.2.2, rfl⟩
  | p :: q :: rest =>
      have hp := h.mem_canonicals.mp (hmatches ▸ List.mem_cons_self : p ∈ _)
      have hq := h.mem_canonicals.mp
        (hmatches ▸ List.mem_cons_of_mem _ List.mem_cons_self : q ∈ _)
      have heq := h.eq_of_name hp.1 hq.1 (hp.2.1.trans hq.2.1.symm) (hp.2.2.trans hq.2.2.symm)
      rw [hmatches, heq] at hnodup
      exact absurd List.mem_cons_self (List.nodup_cons.mp hnodup).1

/-! ### One call -/

/-- `resolve` without a name index. -/
theorem call_unindexed (hindex : registry.nameIndex = none) (profiles : Profiles)
    (c : ResolveCall) :
    registry.call profiles c =
      match registry.canonicalize c.surface with
      | .error e => (.error e, profiles)
      | .ok canonical =>
        match registry.canonicals profiles c.contextId canonical,
          registry.aliased profiles c.contextId canonical with
        | [p], _ => (.ok ⟨.exactCanonical, some p, "exact canonical match"⟩, profiles)
        | _, [p] => (.ok ⟨.exactAlias, some p, "exact alias match"⟩, profiles)
        | _, _ =>
          match registry.shown profiles c canonical with
          | [] => registry.resolveNew profiles c.contextId canonical c.entityType
          | listed => (EntityRegistry.resolveModel (c.model.or registry.model) c.contextId c.surface
              listed, profiles) := by
  have hids : (registry.withModel c.model).candidates c.contextId c.surface c.entityType
      c.candidateIds = .ok c.candidateIds := by
    simp [EntityRegistry.candidates, EntityRegistry.withModel, hindex]
  unfold EntityRegistry.call EntityRegistry.resolve
  rw [hids]
  rfl

/-- The call on consistent profiles: a match, or the model on the shortlist, or
a new entity. -/
theorem Consistent.call_eq (h : Consistent registry profiles) (hindex : registry.nameIndex = none)
    (c : ResolveCall) :
    registry.call profiles c =
      match registry.canonicalize c.surface with
      | .error e => (.error e, profiles)
      | .ok canonical =>
        match registry.canonicals profiles c.contextId canonical with
        | p :: _ => (.ok ⟨.exactCanonical, some p, "exact canonical match"⟩, profiles)
        | [] =>
          match registry.shown profiles c canonical with
          | [] => registry.resolveNew profiles c.contextId canonical c.entityType
          | listed => (EntityRegistry.resolveModel (c.model.or registry.model) c.contextId c.surface
              listed, profiles) := by
  rw [call_unindexed hindex]
  cases registry.canonicalize c.surface with
  | error e => rfl
  | ok canonical =>
      dsimp only
      rw [h.aliased_eq_nil]
      rcases h.canonicals_cases c.contextId canonical with hnone | ⟨p, -, -, -, hone⟩
      · rw [hnone]
      · rw [hone]

/-- A form without a match has no profile under its id. -/
theorem Consistent.entityId_fresh (h : Consistent registry profiles) {contextId canonical : String}
    (hnone : registry.canonicals profiles contextId canonical = []) {p : EntityProfile}
    (hp : p ∈ profiles) : p.graphId ≠ registry.entityId contextId canonical := by
  intro heq
  rw [(h.allocated p hp).1] at heq
  obtain ⟨-, hctx, hkey⟩ := registry.allocator.injective heq
  have hname : p.canonicalName = canonical := by simpa using hkey
  have hmem := h.mem_canonicals.mpr ⟨hp, hctx, hname⟩
  rw [hnone] at hmem
  exact absurd hmem List.not_mem_nil

theorem upsert_of_fresh {p : EntityProfile} (h : ∀ q ∈ profiles, q.graphId ≠ p.graphId) :
    Ordered.upsert EntityProfile.graphId p profiles = profiles ++ [p] := by
  induction profiles with
  | nil => rfl
  | cons q rest ih =>
      rw [Ordered.upsert, if_neg (h q List.mem_cons_self),
        ih fun r hr => h r (List.mem_cons_of_mem _ hr)]
      rfl

/-- A new entity is registered without a conflict, after all the others. -/
theorem Consistent.resolveNew_eq (h : Consistent registry profiles)
    {contextId canonical : String} (entityType : String)
    (hnone : registry.canonicals profiles contextId canonical = []) :
    registry.resolveNew profiles contextId canonical entityType =
      match EntityRegistry.newProfile (registry.entityId contextId canonical) contextId canonical
          entityType with
      | .error e => (.error e, profiles)
      | .ok p => (.ok ⟨.newEntity, some p, "no candidate in active context"⟩, profiles ++ [p]) := by
  unfold EntityRegistry.resolveNew
  dsimp only
  rw [← EntityRegistry.entityId]
  cases hnew : EntityRegistry.newProfile (registry.entityId contextId canonical) contextId canonical
      entityType with
  | error e => rfl
  | ok p =>
      have hid := (EntityRegistry.newProfile_eq_ok hnew).1
      have hfresh : ∀ q ∈ profiles, q.graphId ≠ p.graphId := fun q hq =>
        hid ▸ h.entityId_fresh hnone hq
      have hfind : Ordered.find EntityProfile.graphId p.graphId profiles = none := by
        rw [Ordered.find_eq_none, List.mem_map]
        rintro ⟨q, hq, heq⟩
        exact hfresh q hq heq
      simp only [EntityRegistry.register, hfind, upsert_of_fresh hfresh]

/-- The entity made for a canonical form keeps the profiles consistent. -/
theorem Consistent.append (h : Consistent registry profiles)
    {contextId canonical entityType : String} {p : EntityProfile}
    (hcanonical : registry.canonicalize canonical = .ok canonical)
    (hnone : registry.canonicals profiles contextId canonical = [])
    (hnew : EntityRegistry.newProfile (registry.entityId contextId canonical) contextId canonical
      entityType = .ok p) : Consistent registry (profiles ++ [p]) := by
  obtain ⟨hid, hctx, hname, -, haliases⟩ := EntityRegistry.newProfile_eq_ok hnew
  refine ⟨?_, ?_, ?_⟩
  · intro q hq
    rcases List.mem_append.mp hq with hq | hq
    · exact h.allocated q hq
    · rw [List.mem_singleton.mp hq]
      exact ⟨by rw [hid, hctx, hname]; rfl, haliases⟩
  · intro q hq
    rcases List.mem_append.mp hq with hq | hq
    · exact h.canonical q hq
    · rw [List.mem_singleton.mp hq, hname]
      exact hcanonical
  · rw [List.map_append, List.nodup_append]
    refine ⟨h.ids_nodup, by simp, ?_⟩
    rintro id hid' other hother rfl
    obtain ⟨q, hq, heq⟩ := List.mem_map.mp hid'
    rw [List.map_singleton, List.mem_singleton] at hother
    exact h.entityId_fresh hnone hq (heq.trans (hother.trans hid))

theorem canonicalize_eq_error {surface : String} {e : Exn}
    (h : registry.canonicalize surface = .error e) :
    isBlank surface = true ∧ ∃ field message, e = .contractValidation field message := by
  unfold EntityRegistry.canonicalize canonicalizeEntitySurface at h
  split at h
  · rename_i hblank
    cases h
    exact ⟨hblank, _, _, rfl⟩
  · cases h

theorem not_blank_of_canonicalize {surface canonical : String}
    (h : registry.canonicalize surface = .ok canonical) : isBlank surface = false := by
  unfold EntityRegistry.canonicalize canonicalizeEntitySurface at h
  split at h
  · cases h
  · rename_i hblank
    simpa using hblank

theorem newProfile_eq_error {graphId : Nat} {contextId canonical entityType : String} {e : Exn}
    (h : EntityRegistry.newProfile graphId contextId canonical entityType = .error e)
    (hname : isBlank canonical = false) :
    (contextId = "" ∨ entityType = "") ∧ ∃ field message, e = .contractValidation field message := by
  unfold EntityRegistry.newProfile at h
  split at h
  · split at h
    · cases h
    · rename_i htype
      cases h
      exact ⟨Or.inr (not_not.mp htype), _, _, rfl⟩
  · rename_i hctx
    cases h
    exact ⟨Or.inl (not_not.mp hctx), _, _, rfl⟩

theorem resolveModel_eq_error
    {model : Option (String → String → List EntityProfile → Except Exn (Option Nat))}
    {contextId surface : String} {listed : Profiles} {e : Exn}
    (h : EntityRegistry.resolveModel model contextId surface listed = .error e) :
    ∃ ask listed, model = some ask ∧ ask contextId surface listed = .error e := by
  unfold EntityRegistry.resolveModel at h
  split at h
  · cases h
  · rename_i ask
    split at h
    · rename_i e' hask
      cases h
      exact ⟨ask, listed, rfl, hask⟩
    · split at h <;> cases h

/-- The model's choice is of the shortlist. -/
theorem resolveModel_eq_ok
    {model : Option (String → String → List EntityProfile → Except Exn (Option Nat))}
    {contextId surface : String} {listed : Profiles} {r : EntityResolution}
    (h : EntityRegistry.resolveModel model contextId surface listed = .ok r) :
    (∃ p ∈ listed, ∃ reason, r = ⟨.modelResolved, some p, reason⟩) ∨
      ∃ reason, r = ⟨.unresolved, none, reason⟩ := by
  unfold EntityRegistry.resolveModel at h
  split at h
  · cases h
    exact Or.inr ⟨_, rfl⟩
  · split at h
    · cases h
    · split at h
      · cases h
        exact Or.inr ⟨_, rfl⟩
      · rename_i p hchosen
        cases h
        obtain ⟨i, -, hfind⟩ := Option.bind_eq_some_iff.mp hchosen
        exact Or.inl ⟨p, (Ordered.find_eq_some hfind).1, _, rfl⟩

/-- Everything a call on consistent profiles can do. -/
theorem Consistent.call_cases (h : Consistent registry profiles)
    (hindex : registry.nameIndex = none) (hidem : registry.Idempotent) (c : ResolveCall) :
    (∃ e, registry.call profiles c = (.error e, profiles) ∧ Refused registry c e) ∨
    ∃ canonical, registry.canonicalize c.surface = .ok canonical ∧
      ((∃ p ∈ profiles, p.contextId = c.contextId ∧ p.canonicalName = canonical ∧
          registry.call profiles c =
            (.ok ⟨.exactCanonical, some p, "exact canonical match"⟩, profiles)) ∨
        (∃ r, registry.canonicals profiles c.contextId canonical = [] ∧
          registry.shown profiles c canonical ≠ [] ∧ EntityRegistry.resolveModel
            (c.model.or registry.model) c.contextId c.surface
            (registry.shown profiles c canonical) = .ok r ∧
          registry.call profiles c = (.ok r, profiles)) ∨
        ∃ p, registry.canonicals profiles c.contextId canonical = [] ∧
          EntityRegistry.newProfile (registry.entityId c.contextId canonical) c.contextId canonical
            c.entityType = .ok p ∧
          registry.call profiles c = (.ok ⟨.newEntity, some p, "no candidate in active context"⟩,
            profiles ++ [p])) := by
  have hcall := h.call_eq hindex c
  cases hsurface : registry.canonicalize c.surface with
  | error e =>
      rw [hsurface] at hcall
      obtain ⟨hblank, hcontract⟩ := canonicalize_eq_error hsurface
      exact Or.inl ⟨e, hcall, Or.inl ⟨Or.inl hblank, hcontract⟩⟩
  | ok canonical =>
      have hcanonical := hidem c.surface canonical hsurface
      rw [hsurface] at hcall
      dsimp only at hcall
      rcases h.canonicals_cases c.contextId canonical with hnone | ⟨p, hp, hctx, hname, hone⟩
      · rw [hnone] at hcall
        dsimp only at hcall
        cases hshown : registry.shown profiles c canonical with
        | nil =>
            rw [hshown] at hcall
            dsimp only at hcall
            rw [h.resolveNew_eq c.entityType hnone] at hcall
            cases hnew : EntityRegistry.newProfile (registry.entityId c.contextId canonical)
                c.contextId canonical c.entityType with
            | error e =>
                rw [hnew] at hcall
                obtain ⟨hempty, hcontract⟩ :=
                  newProfile_eq_error hnew (not_blank_of_canonicalize hcanonical)
                exact Or.inl ⟨e, hcall, Or.inl ⟨Or.inr hempty, hcontract⟩⟩
            | ok p =>
                rw [hnew] at hcall
                exact Or.inr ⟨canonical, rfl, Or.inr (Or.inr ⟨p, hnone, hnew, hcall⟩)⟩
        | cons first rest =>
            rw [hshown] at hcall
            dsimp only at hcall
            cases hmodel : EntityRegistry.resolveModel (c.model.or registry.model) c.contextId
                c.surface (first :: rest) with
            | error e =>
                rw [hmodel] at hcall
                refine Or.inl ⟨e, hcall, Or.inr ?_⟩
                exact resolveModel_eq_error hmodel
            | ok r =>
                rw [hmodel] at hcall
                refine Or.inr ⟨canonical, rfl, Or.inr (Or.inl ⟨r, hnone, ?_, ?_, hcall⟩)⟩
                · rw [hshown]
                  exact List.cons_ne_nil _ _
                · rw [hshown]
                  exact hmodel
      · rw [hone] at hcall
        exact Or.inr ⟨canonical, rfl, Or.inl ⟨p, hp, hctx, hname, hcall⟩⟩

/-- A call leaves the profiles consistent. -/
theorem Consistent.call (h : Consistent registry profiles) (hindex : registry.nameIndex = none)
    (hidem : registry.Idempotent) (c : ResolveCall) :
    Consistent registry (registry.call profiles c).2 := by
  rcases h.call_cases hindex hidem c with ⟨e, heq, -⟩ | ⟨canonical, hsurface,
    ⟨p, -, -, -, heq⟩ | ⟨r, -, -, -, heq⟩ | ⟨p, hnone, hnew, heq⟩⟩
  · rw [heq]
    exact h
  · rw [heq]
    exact h
  · rw [heq]
    exact h
  · rw [heq]
    exact h.append (hidem c.surface canonical hsurface) hnone hnew

/-- What a call returns or raises is bounded. -/
theorem Consistent.call_bounded (h : Consistent registry profiles)
    (hindex : registry.nameIndex = none) (hidem : registry.Idempotent) (c : ResolveCall) :
    (∀ r, (registry.call profiles c).1 = .ok r → ∃ canonical,
        registry.canonicalize c.surface = .ok canonical ∧
        Bounded registry ⟨profiles, c, (registry.call profiles c).1⟩ canonical r) ∧
      ∀ e, (registry.call profiles c).1 = .error e → Refused registry c e := by
  rcases h.call_cases hindex hidem c with ⟨e, heq, hrefused⟩ | ⟨canonical, hsurface,
    ⟨p, hp, hctx, hname, heq⟩ | ⟨r, -, -, hmodel, heq⟩ | ⟨p, hnone, hnew, heq⟩⟩
  · rw [heq]
    refine ⟨fun r hr => (by cases hr), fun e' he => ?_⟩
    cases he
    exact hrefused
  · rw [heq]
    refine ⟨fun r hr => ?_, fun e he => (by cases he)⟩
    cases hr
    exact ⟨canonical, hsurface, .exactCanonical hp hctx (hname ▸ h.canonical p hp)⟩
  · rw [heq]
    refine ⟨fun r' hr => ?_, fun e he => (by cases he)⟩
    cases hr
    refine ⟨canonical, hsurface, ?_⟩
    rcases resolveModel_eq_ok hmodel with ⟨p, hp, reason, rfl⟩ | ⟨reason, rfl⟩
    · refine .modelResolved ?_ hp
      refine (EntityRegistry.mem_shortlist (fun q hq => ?_) hp).2
      rw [h.aliased_eq_nil, List.append_nil] at hq
      exact ⟨(h.mem_canonicals.mp hq).1, (h.mem_canonicals.mp hq).2.1⟩
    · exact .unresolved
  · rw [heq]
    refine ⟨fun r hr => ?_, fun e he => (by cases he)⟩
    cases hr
    obtain ⟨hid, hctx, hname, -, -⟩ := EntityRegistry.newProfile_eq_ok hnew
    refine ⟨canonical, hsurface, .newEntity hctx hname hid fun q hq => ?_⟩
    rw [hid]
    exact h.entityId_fresh hnone hq

/-- A call without candidate ids that returns has found or made the entity of
its surface. -/
theorem Consistent.call_without_candidates (h : Consistent registry profiles)
    (hindex : registry.nameIndex = none) (hidem : registry.Idempotent) {c : ResolveCall}
    (hids : c.candidateIds = []) {canonical : String}
    (hsurface : registry.canonicalize c.surface = .ok canonical) {r : EntityResolution}
    (hr : (registry.call profiles c).1 = .ok r) :
    ∃ p, r.entity = some p ∧ p.graphId = registry.entityId c.contextId canonical := by
  rcases h.call_cases hindex hidem c with ⟨e, heq, -⟩ | ⟨canonical', hsurface', hcases⟩
  · rw [heq] at hr
    cases hr
  · obtain rfl : canonical = canonical' := Except.ok.inj (hsurface.symm.trans hsurface')
    rcases hcases with ⟨p, hp, hctx, hname, heq⟩ | ⟨r', hnone, hshown, -, -⟩ | ⟨p, -, hnew, heq⟩
    · rw [heq] at hr
      cases hr
      refine ⟨p, rfl, ?_⟩
      rw [(h.allocated p hp).1, hctx, hname]
      rfl
    · refine absurd ?_ hshown
      rw [EntityRegistry.shown, hnone, h.aliased_eq_nil, hids]
      rfl
    · rw [heq] at hr
      cases hr
      exact ⟨p, rfl, (EntityRegistry.newProfile_eq_ok hnew).1⟩

/-! ### The view of one context -/

/-- The profiles of a context. -/
def view (contextId : String) (profiles : Profiles) : Profiles :=
  profiles.filter fun p => p.contextId = contextId

theorem Consistent.view (h : Consistent registry profiles) (contextId : String) :
    Consistent registry (view contextId profiles) where
  allocated p hp := h.allocated p (List.mem_of_mem_filter hp)
  canonical p hp := h.canonical p (List.mem_of_mem_filter hp)
  ids_nodup := h.ids_nodup.sublist (List.filter_sublist.map _)

theorem canonicals_view (contextId canonical : String) :
    registry.canonicals (view contextId profiles) contextId canonical =
      registry.canonicals profiles contextId canonical := by
  simp [EntityRegistry.canonicals, view, List.filter_filter]

/-- The profile under an id, seen in a context. -/
theorem find_view (hnodup : (profiles.map (·.graphId)).Nodup) (contextId : String) (id : Int) :
    (view contextId profiles).find? (fun p => (p.graphId : Int) = id) =
      (profiles.find? fun p => (p.graphId : Int) = id).filter fun p => p.contextId = contextId := by
  induction profiles with
  | nil => rfl
  | cons p rest ih =>
      obtain ⟨hfresh, hrest⟩ := List.nodup_cons.mp hnodup
      have hrest' := ih hrest
      by_cases hid : (p.graphId : Int) = id
      · -- no later profile has the id
        have hnone : rest.find? (fun q => (q.graphId : Int) = id) = none := by
          rw [List.find?_eq_none]
          intro q hq heq
          refine hfresh (List.mem_map.mpr ⟨q, hq, ?_⟩)
          have : (q.graphId : Int) = p.graphId := (by simpa using heq : (q.graphId : Int) = id).trans hid.symm
          exact Int.ofNat.inj this
        by_cases hctx : p.contextId = contextId
        · simp [view, hid, hctx, Option.filter]
        · rw [hnone] at hrest'
          rw [view, List.filter_cons_of_neg (by simpa using hctx), ← view, hrest']
          simp [hid, hctx, Option.filter]
      · by_cases hctx : p.contextId = contextId
        · simpa [view, hid, hctx] using hrest'
        · simpa [view, hid, hctx] using hrest'

theorem Consistent.shown_view (h : Consistent registry profiles) (c : ResolveCall)
    (canonical : String) :
    registry.shown (ContextMemory.view c.contextId profiles) c canonical =
      registry.shown profiles c canonical := by
  unfold EntityRegistry.shown EntityRegistry.shortlist
  rw [canonicals_view, h.aliased_eq_nil, (h.view c.contextId).aliased_eq_nil]
  dsimp only
  congr 1
  funext acc id
  rw [find_view h.ids_nodup]
  cases profiles.find? fun p => (p.graphId : Int) = id with
  | none => rfl
  | some p =>
      by_cases hctx : p.contextId = c.contextId
      · simp [hctx, Option.filter]
      · simp [hctx, Option.filter]

/-- A call sees the profiles of its own context only. -/
theorem Consistent.call_view (h : Consistent registry profiles)
    (hindex : registry.nameIndex = none) (c : ResolveCall) :
    registry.call (ContextMemory.view c.contextId profiles) c =
      ((registry.call profiles c).1, ContextMemory.view c.contextId (registry.call profiles c).2) := by
  rw [h.call_eq hindex, (h.view c.contextId).call_eq hindex]
  cases registry.canonicalize c.surface with
  | error e => rfl
  | ok canonical =>
      dsimp only
      rw [canonicals_view, h.shown_view]
      rcases h.canonicals_cases c.contextId canonical with hnone | ⟨p, -, -, -, hone⟩
      · rw [hnone]
        dsimp only
        cases registry.shown profiles c canonical with
        | nil =>
            dsimp only
            rw [h.resolveNew_eq c.entityType hnone, (h.view c.contextId).resolveNew_eq c.entityType
              ((canonicals_view c.contextId canonical).trans hnone)]
            cases hnew : EntityRegistry.newProfile (registry.entityId c.contextId canonical)
                c.contextId canonical c.entityType with
            | error e => rfl
            | ok p =>
                have hctx := (EntityRegistry.newProfile_eq_ok hnew).2.1
                simp [ContextMemory.view, hctx]
        | cons first rest => rfl
      · rw [hone]

/-- A call for another context leaves the view alone. -/
theorem Consistent.view_call_of_ne (h : Consistent registry profiles)
    (hindex : registry.nameIndex = none) (hidem : registry.Idempotent) {c : ResolveCall}
    {contextId : String} (hne : c.contextId ≠ contextId) :
    ContextMemory.view contextId (registry.call profiles c).2 =
      ContextMemory.view contextId profiles := by
  rcases h.call_cases hindex hidem c with ⟨e, heq, -⟩ | ⟨canonical, -,
    ⟨p, -, -, -, heq⟩ | ⟨r, -, -, -, heq⟩ | ⟨p, -, hnew, heq⟩⟩
  · rw [heq]
  · rw [heq]
  · rw [heq]
  · have hctx := (EntityRegistry.newProfile_eq_ok hnew).2.1
    rw [heq]
    simp [ContextMemory.view, hctx, hne]

/-! ### Runs -/

/-- Every call of a run is made on consistent profiles. -/
theorem Consistent.of_mem_resolveAll (h : Consistent registry profiles)
    (hindex : registry.nameIndex = none) (hidem : registry.Idempotent) {calls : List ResolveCall}
    {s : ResolveStep} (hs : s ∈ registry.resolveAll profiles calls) :
    Consistent registry s.before ∧ s.result = (registry.call s.before s.call).1 := by
  induction calls generalizing profiles with
  | nil => cases hs
  | cons c calls ih =>
      rcases List.mem_cons.mp hs with rfl | hs
      · exact ⟨h, rfl⟩
      · exact ih (h.call hindex hidem c) hs

/-- What a run answers to the calls for a context: each call with its result. -/
def answersFor (contextId : String) (steps : List ResolveStep) :
    List (ResolveCall × Except Exn EntityResolution) :=
  (steps.filter fun s => s.call.contextId = contextId).map fun s => (s.call, s.result)

/-- The calls for a context are answered from its own view, whatever comes in
between. -/
theorem Consistent.answersFor_resolveAll (h : Consistent registry profiles)
    (hindex : registry.nameIndex = none) (hidem : registry.Idempotent) (contextId : String)
    (calls : List ResolveCall) :
    answersFor contextId (registry.resolveAll profiles calls) =
      (registry.resolveAll (ContextMemory.view contextId profiles)
        (calls.filter fun c => c.contextId = contextId)).map fun s => (s.call, s.result) := by
  induction calls generalizing profiles with
  | nil => rfl
  | cons c calls ih =>
      have hrest := ih (h.call hindex hidem c)
      unfold answersFor at hrest ⊢
      by_cases hctx : c.contextId = contextId
      · subst hctx
        rw [EntityRegistry.resolveAll, List.filter_cons_of_pos (by simp),
          List.filter_cons_of_pos (by simp), EntityRegistry.resolveAll, List.map_cons, List.map_cons,
          h.call_view hindex c, hrest]
      · rw [EntityRegistry.resolveAll, List.filter_cons_of_neg (by simpa using hctx),
          List.filter_cons_of_neg (by simpa using hctx), hrest,
          h.view_call_of_ne hindex hidem hctx]

end Registry

/-- Resolution is bounded and isolated: over any run of calls, what is returned
is bounded and no conflict is raised, the answers for a context are those of the
run of its own calls, and without candidate ids the surfaces of one canonical
form resolve to one entity. The model may answer anything, the id of an entity
of another context among it. -/
theorem resolution_isolated (registry : EntityRegistry) (hindex : registry.nameIndex = none)
    (hidem : registry.Idempotent) (calls : List ResolveCall) :
    (∀ s ∈ registry.resolveAll [] calls,
      (∀ r, s.result = .ok r → ∃ canonical,
        registry.canonicalize s.call.surface = .ok canonical ∧ Bounded registry s canonical r) ∧
      ∀ e, s.result = .error e → Refused registry s.call e) ∧
    (∀ contextId, answersFor contextId (registry.resolveAll [] calls) =
      answersFor contextId
        (registry.resolveAll [] (calls.filter fun c => c.contextId = contextId))) ∧
    ∀ s ∈ registry.resolveAll [] calls, ∀ t ∈ registry.resolveAll [] calls,
      s.call.contextId = t.call.contextId → s.call.candidateIds = [] → t.call.candidateIds = [] →
      ∀ canonical, registry.canonicalize s.call.surface = .ok canonical →
        registry.canonicalize t.call.surface = .ok canonical →
      ∀ r r', s.result = .ok r → t.result = .ok r' →
        ∃ p q, r.entity = some p ∧ r'.entity = some q ∧ p.graphId = q.graphId := by
  have hnil := consistent_nil registry
  refine ⟨fun s hs => ?_, fun contextId => ?_, ?_⟩
  · obtain ⟨hbefore, hresult⟩ := hnil.of_mem_resolveAll hindex hidem hs
    have hbounded := hbefore.call_bounded hindex hidem s.call
    rw [← hresult] at hbounded
    exact hbounded
  · rw [hnil.answersFor_resolveAll hindex hidem, hnil.answersFor_resolveAll hindex hidem,
      List.filter_filter]
    simp
  · intro s hs t ht hctx hsids htids canonical hscanonical htcanonical r r' hr hr'
    obtain ⟨hsbefore, hsresult⟩ := hnil.of_mem_resolveAll hindex hidem hs
    obtain ⟨htbefore, htresult⟩ := hnil.of_mem_resolveAll hindex hidem ht
    obtain ⟨p, hp, hpid⟩ := hsbefore.call_without_candidates hindex hidem hsids hscanonical
      (hsresult.symm.trans hr)
    obtain ⟨q, hq, hqid⟩ := htbefore.call_without_candidates hindex hidem htids htcanonical
      (htresult.symm.trans hr')
    exact ⟨p, q, hp, hq, by rw [hpid, hqid, hctx]⟩

/-- Tables that know two names: all surfaces but those of the long one are case variants of the
short one. -/
def maxRegistry : EntityRegistry where
  unicode :=
    { nfkc := id
      casefold := fun surface => if surface = "Maximilian" ∨ surface = "maximilian" then "maximilian"
        else "max" }
  allocator := numberingAllocator

theorem maxRegistry_idempotent : maxRegistry.Idempotent := by
  intro surface canonical h
  have hmax : maxRegistry.canonicalize "max" = .ok "max" := by decide
  have hmaximilian : maxRegistry.canonicalize "maximilian" = .ok "maximilian" := by decide
  unfold EntityRegistry.canonicalize canonicalizeEntitySurface at h
  split at h
  · cases h
  · obtain rfl := Except.ok.inj h
    dsimp only [maxRegistry]
    split
    · exact hmaximilian
    · exact hmax

/-- A model that takes the first candidate it is shown. -/
def takesFirst (_contextId _surface : String) (listed : List EntityProfile) :
    Except Exn (Option Nat) :=
  .ok (listed.head?.map EntityProfile.graphId)

/-- The name is mentioned in two contexts, and in the first of them once more; then its long form, with
the entity of the short one as a candidate, once with a model and once without. -/
def maxCalls : List ResolveCall :=
  [{ contextId := "chat", surface := "Max" }, { contextId := "office", surface := "MAX" },
    { contextId := "chat", surface := "max" },
    { contextId := "chat", surface := "Maximilian",
      candidateIds := [maxRegistry.entityId "office" "max", maxRegistry.entityId "chat" "max"]
      model := some takesFirst },
    { contextId := "chat", surface := "Maximilian",
      candidateIds := [maxRegistry.entityId "chat" "max"] }]

/-- A name in two contexts, and then its long form with the short one's entity
as a candidate. With a model it is resolved, and without one it stays open. -/
theorem resolution_isolated_max :
    (maxRegistry.resolveAll [] maxCalls).map (fun s => s.result.toOption.map fun r =>
      (r.status, r.entity.map EntityProfile.contextId)) =
      [some (.newEntity, some "chat"), some (.newEntity, some "office"),
        some (.exactCanonical, some "chat"), some (.modelResolved, some "chat"),
        some (.unresolved, none)] ∧
    (∀ s ∈ maxRegistry.resolveAll [] maxCalls, ∀ r, s.result = .ok r → ∃ canonical,
      maxRegistry.canonicalize s.call.surface = .ok canonical ∧ Bounded maxRegistry s canonical r) ∧
    answersFor "chat" (maxRegistry.resolveAll [] maxCalls) =
      answersFor "chat" (maxRegistry.resolveAll []
        (maxCalls.filter fun c => c.contextId = "chat")) := by
  obtain ⟨hbounded, hisolated, -⟩ :=
    resolution_isolated maxRegistry rfl maxRegistry_idempotent maxCalls
  exact ⟨by decide +kernel, fun s hs => (hbounded s hs).1, hisolated "chat"⟩

end ContextMemory
