/-
Graph ids under other names.

The ids of a plan come from a common sequence, so what a context registers is determined up
to a permutation of ids. Registration only compares ids: with other ids it accepts and
refuses the same records and leaves the same rows (`Alike.registerRecords`), and it never
touches a row of another context.
-/

import Mathlib.Logic.Equiv.Fintype
import ContextMemory.Lib.Fallible
import ContextMemory.Persistence.Manifest

namespace ContextMemory

/-! ### Renaming graph ids -/

section Renaming

variable (σ : Equiv.Perm Nat)

def Payload.rename : Payload → Payload
  | .node label id properties => .node label (σ id) properties
  | .relationship type id source destination sourceLabel destinationLabel properties =>
      .relationship type (σ id) (σ source) (σ destination) sourceLabel destinationLabel properties

def ManifestRow.rename (row : ManifestRow) : ManifestRow := ⟨σ row.graphId, row.payload.rename σ⟩

def GraphNode.rename (n : GraphNode) : GraphNode := { n with graphId := σ n.graphId }

def GraphRelationship.rename (e : GraphRelationship) : GraphRelationship :=
  { e with graphId := σ e.graphId, sourceId := σ e.sourceId, destinationId := σ e.destinationId }

def GraphRecord.rename : GraphRecord → GraphRecord
  | .node n => .node (n.rename σ)
  | .relationship e => .relationship (e.rename σ)

@[simp] theorem GraphRecord.graphId_rename (r : GraphRecord) : (r.rename σ).graphId = σ r.graphId := by
  cases r <;> rfl

@[simp] theorem GraphRecord.kind_rename (r : GraphRecord) : (r.rename σ).kind = r.kind := by
  cases r <;> rfl

@[simp] theorem GraphRecord.logicalKey_rename (r : GraphRecord) :
    (r.rename σ).logicalKey = r.logicalKey := by
  cases r <;> rfl

@[simp] theorem GraphRecord.properties_rename (r : GraphRecord) :
    (r.rename σ).properties = r.properties := by
  cases r <;> rfl

@[simp] theorem GraphRecord.payload_rename (r : GraphRecord) :
    (r.rename σ).payload = r.payload.rename σ := by
  cases r <;> rfl

@[simp] theorem GraphRecord.manifestKey_rename (r : GraphRecord) (contextId : String) :
    (r.rename σ).manifestKey contextId = r.manifestKey contextId := by
  simp [GraphRecord.manifestKey]

@[simp] theorem Payload.rename_inj {p q : Payload} : p.rename σ = q.rename σ ↔ p = q := by
  cases p <;> cases q <;> simp [Payload.rename]

theorem planRecords_rename (nodes : List GraphNode) (relationships : List GraphRelationship) :
    planRecords (nodes.map (GraphNode.rename σ)) (relationships.map (GraphRelationship.rename σ)) =
      (planRecords nodes relationships).map (GraphRecord.rename σ) := by
  simp [planRecords, GraphRecord.rename, Function.comp_def]

/-- The plan with other ids. -/
def GraphWritePlan.rename (plan : GraphWritePlan) : GraphWritePlan where
  contextId := plan.contextId
  planKey := plan.planKey
  nodes := plan.nodes.map (GraphNode.rename σ)
  relationships := plan.relationships.map (GraphRelationship.rename σ)
  contextId_ne := plan.contextId_ne
  planKey_ne := plan.planKey_ne
  ids_nodup := by
    rw [planRecords_rename, List.map_map]
    have hids := plan.ids_nodup.map σ.injective
    rw [List.map_map] at hids
    convert hids using 2
    funext r
    exact r.graphId_rename σ
  context_ok := by
    intro r hr
    rw [planRecords_rename] at hr
    obtain ⟨r', hr', rfl⟩ := List.mem_map.mp hr
    rw [GraphRecord.properties_rename]
    exact plan.context_ok r' hr'

theorem GraphWritePlan.records_rename (plan : GraphWritePlan) :
    (plan.rename σ).records = plan.records.map (GraphRecord.rename σ) :=
  planRecords_rename σ plan.nodes plan.relationships

end Renaming

/-! ### Registration, row by row -/

namespace Manifest

/-- The row an accepted record leaves at its key, from the row that was there and from whether
its graph id is free. -/
def newRow (existing : Option ManifestRow) (free : Bool) (r : GraphRecord) : Except Exn ManifestRow :=
  match existing with
  | some row =>
      if row.graphId = r.graphId ∧ row.payload = r.payload then .ok row
      else if r.kind = .node ∧ row.graphId = r.graphId then
        match mergeMutableOnly row.payload r.payload with
        | some merged => .ok { row with payload := merged }
        | none => .error (conflict r)
      else .error (conflict r)
  | none =>
      if free then .ok ⟨r.graphId, r.payload⟩
      else .error (.provider "duplicate key value violates unique constraint on graph_id")

theorem registerRecord_rows (contextId : String) (m : Manifest) (r : GraphRecord) :
    (registerRecord contextId m r).map Manifest.rows =
      (newRow (m.rows (r.manifestKey contextId)) (m.owner r.graphId).isNone r).map fun row =>
        Function.update m.rows (r.manifestKey contextId) (some row) := by
  unfold registerRecord
  split
  · rename_i existing hrow
    have hnew : newRow (m.rows (r.manifestKey contextId)) (m.owner r.graphId).isNone r =
        newRow (some existing) (m.owner r.graphId).isNone r := by rw [hrow]
    rw [hnew, newRow]
    by_cases hsame : existing.graphId = r.graphId ∧ existing.payload = r.payload
    · rw [if_pos hsame, if_pos ⟨hsame.1, congrArg payloadHash hsame.2⟩]
      simp only [Except.map]
      rw [Function.update_eq_self_iff.mpr hrow.symm]
    · rw [if_neg hsame, if_neg fun h => hsame ⟨h.1, congrArg PayloadHash.digested h.2⟩]
      split
      · split
        · rename_i merged hmerge
          simp only [hmerge]
          rfl
        · rename_i hmerge
          simp only [hmerge]
          rfl
      · rfl
  · rename_i hrow
    have hnew : newRow (m.rows (r.manifestKey contextId)) (m.owner r.graphId).isNone r =
        newRow none (m.owner r.graphId).isNone r := by rw [hrow]
    rw [hnew, newRow]
    by_cases hid : m.owner r.graphId = none
    · rw [dif_pos hid, if_pos (Option.isNone_iff_eq_none.mpr hid)]
      rfl
    · rw [dif_neg hid, if_neg (by simpa using hid)]
      rfl

theorem mergeMutableOnly_rename (σ : Equiv.Perm Nat) (existing new : Payload) :
    mergeMutableOnly (existing.rename σ) (new.rename σ) =
      (mergeMutableOnly existing new).map (Payload.rename σ) := by
  cases existing with
  | relationship => cases new <;> rfl
  | node label id old =>
      cases new with
      | relationship => rfl
      | node label' id' properties =>
          simp only [Payload.rename, mergeMutableOnly]
          split
          · rfl
          · split <;> rfl

theorem conflict_rename (σ : Equiv.Perm Nat) (r : GraphRecord) : conflict (r.rename σ) = conflict r := by
  simp [conflict]

/-- Registration only compares ids, so other ids get other rows of the same
shape. -/
theorem newRow_rename (σ : Equiv.Perm Nat) (existing : Option ManifestRow) (free : Bool)
    (r : GraphRecord) : newRow (existing.map (ManifestRow.rename σ)) free (r.rename σ) =
      (newRow existing free r).map (ManifestRow.rename σ) := by
  cases existing with
  | none =>
      simp only [Option.map_none, newRow, GraphRecord.graphId_rename, GraphRecord.payload_rename]
      split <;> rfl
  | some row =>
      simp only [Option.map_some, newRow, ManifestRow.rename, GraphRecord.graphId_rename,
        GraphRecord.payload_rename, GraphRecord.kind_rename, Payload.rename_inj,
        EmbeddingLike.apply_eq_iff_eq, mergeMutableOnly_rename, conflict_rename]
      split
      · rfl
      · split
        · cases mergeMutableOnly row.payload r.payload <;> rfl
        · rfl

/-- One context in a common manifest and alone in one of its own. -/
structure Alike (σ : Equiv.Perm Nat) (contextId : String) (m m' : Manifest) : Prop where
  own : ∀ key, key.contextId = contextId → m'.rows key = (m.rows key).map (ManifestRow.rename σ)
  other : ∀ key, key.contextId ≠ contextId → m'.rows key = none

section Alike

variable {σ : Equiv.Perm Nat} {contextId : String} {m m₁ m' : Manifest}

/-- Ids that no other context has are taken in both, or free in both. -/
theorem Alike.owner (h : Alike σ contextId m m') {id : Nat}
    (hown : ∀ key, m.owner id = some key → key.contextId = contextId) :
    (m'.owner (σ id)).isNone = (m.owner id).isNone := by
  have hiff : m'.owner (σ id) = none ↔ m.owner id = none := by
    rw [← not_iff_not, ← ne_eq, ← ne_eq, Option.ne_none_iff_exists', Option.ne_none_iff_exists']
    constructor
    · rintro ⟨key, hkey⟩
      obtain ⟨row', hrow', hid⟩ := m'.owner_iff.mp hkey
      by_cases hctx : key.contextId = contextId
      · rw [h.own key hctx] at hrow'
        obtain ⟨row, hrow, rfl⟩ := Option.map_eq_some_iff.mp hrow'
        exact ⟨key, m.owner_iff.mpr ⟨row, hrow, σ.injective hid⟩⟩
      · rw [h.other key hctx] at hrow'
        cases hrow'
    · rintro ⟨key, hkey⟩
      obtain ⟨row, hrow, rfl⟩ := m.owner_iff.mp hkey
      have hrow' := h.own key (hown key hkey)
      rw [hrow] at hrow'
      exact ⟨key, m'.owner_iff.mpr ⟨_, hrow', rfl⟩⟩
  rw [Bool.eq_iff_iff, Option.isNone_iff_eq_none, Option.isNone_iff_eq_none]
  exact hiff

/-- What a record of the context does to both. -/
theorem Alike.registerRecord (h : Alike σ contextId m m') {r : GraphRecord}
    (hown : ∀ key, m.owner r.graphId = some key → key.contextId = contextId) :
    (∀ e, registerRecord contextId m r = .error e →
        registerRecord contextId m' (r.rename σ) = .error e) ∧
      ∀ m₁, registerRecord contextId m r = .ok m₁ → ∃ m₁',
        registerRecord contextId m' (r.rename σ) = .ok m₁' ∧ Alike σ contextId m₁ m₁' := by
  have hleft := registerRecord_rows contextId m r
  have hright := registerRecord_rows contextId m' (r.rename σ)
  rw [GraphRecord.manifestKey_rename, h.own _ rfl, GraphRecord.graphId_rename, h.owner hown,
    newRow_rename] at hright
  cases hnew : newRow (m.rows (r.manifestKey contextId)) (m.owner r.graphId).isNone r with
  | error e =>
      rw [hnew] at hleft hright
      have hfailed := Fallible.map_eq_error.mp hleft
      constructor
      · intro e' he
        cases hfailed.symm.trans he
        exact Fallible.map_eq_error.mp hright
      · intro m₁ hm₁
        cases hfailed.symm.trans hm₁
  | ok row =>
      rw [hnew] at hleft hright
      obtain ⟨m₁, hm₁, hrows⟩ := Fallible.map_eq_ok.mp hleft
      obtain ⟨m₁', hm₁', hrows'⟩ := Fallible.map_eq_ok.mp hright
      dsimp only at hrows hrows'
      constructor
      · intro e he
        cases hm₁.symm.trans he
      · intro m₂ hm₂
        cases hm₁.symm.trans hm₂
        refine ⟨m₁', hm₁', ?_, ?_⟩
        · intro key hkey
          rw [hrows, hrows']
          by_cases hsame : key = r.manifestKey contextId
          · rw [hsame, Function.update_self, Function.update_self]
            rfl
          · rw [Function.update_of_ne hsame, Function.update_of_ne hsame]
            exact h.own key hkey
        · intro key hkey
          have hne : key ≠ r.manifestKey contextId := by
            rintro rfl
            exact hkey rfl
          rw [hrows', Function.update_of_ne hne]
          exact h.other key hkey

/-- Registering a record makes nobody else the owner of an id. -/
theorem registerRecord_owner {r : GraphRecord} (h : registerRecord contextId m r = .ok m₁) {id : Nat}
    (hown : ∀ key, m.owner id = some key → key.contextId = contextId) :
    ∀ key, m₁.owner id = some key → key.contextId = contextId := by
  intro key hkey
  obtain ⟨row, hrow, hid⟩ := m₁.owner_iff.mp hkey
  by_contra hctx
  rw [registerRecord_frame h hctx] at hrow
  exact hctx (hown key (m.owner_iff.mpr ⟨row, hrow, hid⟩))

theorem Alike.registerRecords (h : Alike σ contextId m m') {records : List GraphRecord}
    (hown : ∀ r ∈ records, ∀ key, m.owner r.graphId = some key → key.contextId = contextId) :
    (∀ e, registerRecords contextId m records = .error e →
        registerRecords contextId m' (records.map (GraphRecord.rename σ)) = .error e) ∧
      ∀ m₁, registerRecords contextId m records = .ok m₁ → ∃ m₁',
        registerRecords contextId m' (records.map (GraphRecord.rename σ)) = .ok m₁' ∧
        Alike σ contextId m₁ m₁' := by
  induction records generalizing m m' with
  | nil =>
      constructor
      · intro e he
        cases he
      · intro m₁ hm₁
        cases hm₁
        exact ⟨m', rfl, h⟩
  | cons r rest ih =>
      obtain ⟨herror, hok⟩ := h.registerRecord (hown r List.mem_cons_self)
      simp only [List.map_cons, Manifest.registerRecords]
      cases hfirst : Manifest.registerRecord contextId m r with
      | error e =>
          rw [herror e hfirst]
          constructor
          · intro e' he'
            exact he'
          · intro m₁ hm₁
            cases hm₁
      | ok m₂ =>
          obtain ⟨m₂', hfirst', halike⟩ := hok m₂ hfirst
          rw [hfirst']
          apply ih halike
          intro s hs
          exact registerRecord_owner hfirst (hown s (List.mem_cons_of_mem _ hs))

end Alike

end Manifest

end ContextMemory
