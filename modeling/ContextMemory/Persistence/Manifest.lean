/-
`PostgresGraphManifestStore` (`persistence/postgres.py`, table
`graph_write_manifests`).

The manifest is the only guard before a graph write that is not atomic: `register`
runs in one transaction and refuses a plan whose records differ from what was
registered, up to the three mutable properties of a node. Its two constraints are
part of the type: one row per (kind, context, key), and one row per graph id.

Seen by graph id, a registered record is *absorbed*: a relationship is what it was,
a node keeps its label and merges the new properties over the old ones.
-/

import Mathlib.Logic.Function.Basic
import ContextMemory.Core.Graph

namespace ContextMemory

inductive RecordKind where
  | node | relationship
deriving DecidableEq, Repr

def RecordKind.value : RecordKind → String
  | .node => "node"
  | .relationship => "relationship"

/-- The primary key of `graph_write_manifests`. -/
structure ManifestKey where
  kind : RecordKind
  contextId : String
  logicalKey : String
deriving DecidableEq

/-- A row; `payload_hash` is the hash of `payload` and is not kept beside it. -/
structure ManifestRow where
  graphId : Nat
  payload : Payload
deriving DecidableEq

namespace Payload

def kind : Payload → RecordKind
  | .node _ _ _ => .node
  | .relationship _ _ _ _ _ _ _ => .relationship

def id : Payload → Nat
  | .node _ id _ => id
  | .relationship _ id _ _ _ _ _ => id

end Payload

def GraphRecord.kind : GraphRecord → RecordKind
  | .node _ => .node
  | .relationship _ => .relationship

def GraphRecord.manifestKey (r : GraphRecord) (contextId : String) : ManifestKey :=
  ⟨r.kind, contextId, r.logicalKey⟩

@[simp] theorem GraphRecord.payload_kind (r : GraphRecord) : r.payload.kind = r.kind := by
  cases r <;> rfl

@[simp] theorem GraphRecord.payload_id (r : GraphRecord) : r.payload.id = r.graphId := by
  cases r <;> rfl

structure Manifest where
  rows : ManifestKey → Option ManifestRow
  /-- The unique index on `graph_id`. -/
  owner : Nat → Option ManifestKey
  owner_iff : ∀ {id key}, owner id = some key ↔ ∃ row, rows key = some row ∧ row.graphId = id
  row_ok : ∀ {key row}, rows key = some row →
    row.payload.kind = key.kind ∧ row.payload.id = row.graphId

namespace Manifest

def empty : Manifest where
  rows _ := none
  owner _ := none
  owner_iff := by simp
  row_ok := by simp

/-- `INSERT` of a row whose key and graph id are both free. -/
def insert (m : Manifest) (key : ManifestKey) (row : ManifestRow) (hkey : m.rows key = none)
    (hid : m.owner row.graphId = none)
    (hok : row.payload.kind = key.kind ∧ row.payload.id = row.graphId) : Manifest where
  rows := Function.update m.rows key (some row)
  owner := Function.update m.owner row.graphId (some key)
  owner_iff := by
    intro id k
    by_cases hk : k = key
    · subst hk
      rw [Function.update_self]
      by_cases hi : id = row.graphId
      · subst hi
        simp
      · rw [Function.update_of_ne hi]
        constructor
        · intro h
          obtain ⟨row', hrow', -⟩ := m.owner_iff.mp h
          rw [hkey] at hrow'
          cases hrow'
        · rintro ⟨row', hrow', rfl⟩
          exact absurd (by rw [Option.some.inj hrow']) hi
    · rw [Function.update_of_ne hk]
      by_cases hi : id = row.graphId
      · subst hi
        rw [Function.update_self]
        constructor
        · intro h
          exact absurd (Option.some.inj h).symm hk
        · intro h
          rw [m.owner_iff.mpr h] at hid
          cases hid
      · rw [Function.update_of_ne hi]
        exact m.owner_iff
  row_ok := by
    intro k row' h
    by_cases hk : k = key
    · subst hk
      rw [Function.update_self] at h
      cases h
      exact hok
    · rw [Function.update_of_ne hk] at h
      exact m.row_ok h

/-- `UPDATE` of the payload of an existing row. -/
def setPayload (m : Manifest) (key : ManifestKey) (row : ManifestRow) (payload : Payload)
    (hrow : m.rows key = some row)
    (hok : payload.kind = key.kind ∧ payload.id = row.graphId) : Manifest where
  rows := Function.update m.rows key (some { row with payload })
  owner := m.owner
  owner_iff := by
    intro id k
    rw [m.owner_iff]
    by_cases hk : k = key
    · subst hk
      rw [Function.update_self, hrow]
      simp
    · rw [Function.update_of_ne hk]
  row_ok := by
    intro k row' h
    by_cases hk : k = key
    · subst hk
      rw [Function.update_self] at h
      cases h
      exact hok
    · rw [Function.update_of_ne hk] at h
      exact m.row_ok h

/-! ### Registration -/

/-- `NODE_MUTABLE_PROPERTIES`. -/
def mutableProperties : List String := ["is_current", "superseded_at", "valid_to"]

/-- The test of one key in `_merge_mutable_only`. -/
def agreesAt (old new : Properties) (key : String) : Bool :=
  match old.lookup key, new.lookup key with
  | some a, some b => a.pyEq b || mutableProperties.contains key
  | _, _ => true

/-- `_merge_mutable_only`; `none` is a real conflict. -/
def mergeMutableOnly (existing new : Payload) : Option Payload :=
  match existing, new with
  | .node label id old, .node label' _ properties =>
      if label ≠ label' then none
      else if ∀ key ∈ properties.names, agreesAt old properties key = true then
        some (.node label id (old.merge properties))
      else none
  | _, _ => none

theorem mergeMutableOnly_ok {existing new merged : Payload}
    (h : mergeMutableOnly existing new = some merged) :
    merged.kind = existing.kind ∧ merged.id = existing.id := by
  unfold mergeMutableOnly at h
  split at h
  · split at h
    · cases h
    · split at h
      · cases h
        exact ⟨rfl, rfl⟩
      · cases h
  · cases h

def conflict (r : GraphRecord) : Exn :=
  .graphPayloadConflict (r.kind.value ++ " " ++ r.logicalKey ++
    " has a different immutable graph payload")

/-- One turn of the loop in `register`. -/
def registerRecord (contextId : String) (m : Manifest) (r : GraphRecord) : Except Exn Manifest :=
  match hrow : m.rows (r.manifestKey contextId) with
  | some existing =>
      if existing.graphId = r.graphId ∧ payloadHash existing.payload = payloadHash r.payload then
        .ok m
      else if r.kind = .node ∧ existing.graphId = r.graphId then
        match hmerge : mergeMutableOnly existing.payload r.payload with
        | some merged => .ok (m.setPayload (r.manifestKey contextId) existing merged hrow (by
            obtain ⟨hkind, hid⟩ := m.row_ok hrow
            obtain ⟨hkind', hid'⟩ := mergeMutableOnly_ok hmerge
            exact ⟨hkind'.trans hkind, hid'.trans hid⟩))
        | none => .error (conflict r)
      else .error (conflict r)
  | none =>
      if hid : m.owner r.graphId = none then
        .ok (m.insert (r.manifestKey contextId) ⟨r.graphId, r.payload⟩ hrow hid
          ⟨r.payload_kind, r.payload_id⟩)
      else .error (.provider "duplicate key value violates unique constraint on graph_id")

def registerRecords (contextId : String) : Manifest → List GraphRecord → Except Exn Manifest
  | m, [] => .ok m
  | m, r :: rest =>
      match registerRecord contextId m r with
      | .error e => .error e
      | .ok m' => registerRecords contextId m' rest

/-- `register`: one transaction, so an error leaves the manifest it started from. -/
def register (m : Manifest) (plan : GraphWritePlan) : Except Exn Manifest :=
  registerRecords plan.contextId m plan.records

/-! ### Registration, seen by graph id -/

/-- The payload registered for a graph id. -/
def entry (m : Manifest) (id : Nat) : Option Payload :=
  (m.owner id).bind fun key => (m.rows key).map (·.payload)

theorem entry_eq_some {m : Manifest} {id : Nat} {payload : Payload} :
    m.entry id = some payload ↔ ∃ key, m.rows key = some ⟨id, payload⟩ := by
  simp only [entry, Option.bind_eq_some_iff, Option.map_eq_some_iff]
  constructor
  · rintro ⟨key, howner, row, hrow, rfl⟩
    obtain ⟨row', hrow', rfl⟩ := m.owner_iff.mp howner
    obtain rfl : row = row' := Option.some.inj (hrow.symm.trans hrow')
    exact ⟨key, hrow⟩
  · rintro ⟨key, hrow⟩
    exact ⟨key, m.owner_iff.mpr ⟨_, hrow, rfl⟩, _, hrow, rfl⟩

theorem entry_eq_none {m : Manifest} {id : Nat} : m.entry id = none ↔ m.owner id = none := by
  constructor
  · intro h
    by_contra hne
    obtain ⟨key, hkey⟩ := Option.ne_none_iff_exists'.mp hne
    obtain ⟨row, hrow, rfl⟩ := m.owner_iff.mp hkey
    rw [entry_eq_some.mpr ⟨key, hrow⟩] at h
    cases h
  · intro h
    rw [entry, h]
    rfl

/-- Outside the mutable properties, the values both maps have are `==`. -/
def Compatible (old new : Properties) : Prop :=
  ∀ key a b, key ∉ mutableProperties → old.lookup key = some a → new.lookup key = some b →
    a.pyEq b = true

theorem compatible_iff {old new : Properties} :
    (∀ key ∈ new.names, agreesAt old new key = true) ↔ Compatible old new := by
  constructor
  · intro h key a b hmut ha hb
    have hkey := h key (Properties.mem_names.mpr ⟨b, hb⟩)
    rw [agreesAt, ha, hb] at hkey
    simpa [hmut] using hkey
  · intro h key hkey
    obtain ⟨b, hb⟩ := Properties.mem_names.mp hkey
    unfold agreesAt
    rw [hb]
    cases ha : old.lookup key with
    | none => rfl
    | some a =>
        by_cases hmut : key ∈ mutableProperties
        · simp [hmut]
        · simp [h key a b hmut ha hb]

theorem compatible_refl (properties : Properties) : Compatible properties properties := by
  intro key a b _ ha hb
  rw [Option.some.inj (ha.symm.trans hb)]
  exact Scalar.pyEq_refl b

/-- What registering `r` makes of the payload its graph id had before. -/
def Absorbs (before : Option Payload) (r : GraphRecord) (after : Payload) : Prop :=
  match r with
  | .node n => (before = none ∧ after = r.payload) ∨
      ∃ old, before = some (.node n.label n.graphId old) ∧ Compatible old n.properties ∧
        after = .node n.label n.graphId (old.merge n.properties)
  | .relationship _ => (before = none ∨ before = some r.payload) ∧ after = r.payload

theorem merge_self (properties : Properties) : properties.merge properties = properties := by
  ext1 key
  rw [Properties.lookup_merge, Option.or_self]

theorem mergeMutableOnly_eq_some {existing merged : Payload} {n : GraphNode}
    (h : mergeMutableOnly existing (GraphRecord.node n).payload = some merged) :
    ∃ old, existing = .node n.label existing.id old ∧ Compatible old n.properties ∧
      merged = .node n.label existing.id (old.merge n.properties) := by
  cases existing with
  | relationship => cases h
  | node label id old =>
      simp only [mergeMutableOnly, GraphRecord.payload] at h
      split at h
      · cases h
      · rename_i hlabel
        obtain rfl : label = n.label := not_not.mp hlabel
        split at h
        · rename_i hcompatible
          cases h
          exact ⟨old, rfl, compatible_iff.mp hcompatible, rfl⟩
        · cases h

theorem entry_of_rows_update {m m' : Manifest} {key : ManifestKey} {id : Nat} {payload : Payload}
    (hrows : m'.rows = Function.update m.rows key (some ⟨id, payload⟩))
    (hold : ∀ row, m.rows key = some row → row.graphId = id) :
    m'.entry id = some payload ∧ ∀ i, i ≠ id → m'.entry i = m.entry i := by
  refine ⟨entry_eq_some.mpr ⟨key, by rw [hrows, Function.update_self]⟩, fun i hi => ?_⟩
  refine Option.ext fun payload' => ?_
  rw [entry_eq_some, entry_eq_some, hrows]
  constructor
  · rintro ⟨k, hk⟩
    by_cases hkey : k = key
    · subst hkey
      rw [Function.update_self] at hk
      exact absurd (congrArg ManifestRow.graphId (Option.some.inj hk)).symm hi
    · rw [Function.update_of_ne hkey] at hk
      exact ⟨k, hk⟩
  · rintro ⟨k, hk⟩
    by_cases hkey : k = key
    · subst hkey
      exact absurd (hold _ hk) hi
    · exact ⟨k, by rw [Function.update_of_ne hkey]; exact hk⟩

/-- What an accepted record did: one row was written at its key, by absorption. -/
theorem registerRecord_eq_ok {contextId : String} {m m' : Manifest} {r : GraphRecord}
    (h : registerRecord contextId m r = .ok m') :
    ∃ payload, m'.rows = Function.update m.rows (r.manifestKey contextId)
        (some ⟨r.graphId, payload⟩) ∧
      (∀ row, m.rows (r.manifestKey contextId) = some row → row.graphId = r.graphId) ∧
      Absorbs (m.entry r.graphId) r payload := by
  unfold registerRecord at h
  split at h
  · rename_i existing hrow
    have hentry : existing.graphId = r.graphId → m.entry r.graphId = some existing.payload := by
      intro hid
      rw [← hid]
      exact entry_eq_some.mpr ⟨_, hrow⟩
    have hsame : existing.graphId = r.graphId →
        ∀ row, m.rows (r.manifestKey contextId) = some row → row.graphId = r.graphId := by
      intro hid row hrow'
      rw [← hid, Option.some.inj (hrow.symm.trans hrow')]
    split at h
    · rename_i heq
      obtain ⟨hid, hhash⟩ := heq
      have hpayload : existing.payload = r.payload := congrArg PayloadHash.digested hhash
      cases h
      refine ⟨r.payload, ?_, hsame hid, ?_⟩
      · rw [← hid, ← hpayload, Function.update_eq_self_iff.mpr hrow.symm]
      · rw [hentry hid, hpayload]
        cases r with
        | node n => exact Or.inr ⟨n.properties, rfl, compatible_refl _,
            by rw [merge_self]; rfl⟩
        | relationship e => exact ⟨Or.inr rfl, rfl⟩
    · split at h
      · rename_i hnode
        obtain ⟨hkind, hid⟩ := hnode
        split at h
        · rename_i merged hmerge
          cases h
          cases r with
          | relationship e => cases hkind
          | node n =>
              obtain ⟨old, hold, hcompatible, rfl⟩ := mergeMutableOnly_eq_some hmerge
              have hpid : existing.payload.id = n.graphId := (m.row_ok hrow).2.trans hid
              refine ⟨.node n.label existing.payload.id (old.merge n.properties), ?_, hsame hid,
                Or.inr ⟨old, ?_, hcompatible, ?_⟩⟩
              · rw [← hid]
                rfl
              · rw [hentry hid, hold, hpid]
              · rw [hpid]
        · cases h
      · cases h
  · rename_i hrow
    split at h
    · rename_i hid
      cases h
      have hnone : m.entry r.graphId = none := entry_eq_none.mpr hid
      refine ⟨r.payload, rfl, fun row hrow' => ?_, ?_⟩
      · rw [hrow] at hrow'
        cases hrow'
      · rw [hnone]
        cases r with
        | node n => exact Or.inl ⟨rfl, rfl⟩
        | relationship e => exact ⟨Or.inl rfl, rfl⟩
    · cases h

theorem registerRecord_entry {contextId : String} {m m' : Manifest} {r : GraphRecord}
    (h : registerRecord contextId m r = .ok m') :
    (∃ payload, m'.entry r.graphId = some payload ∧ Absorbs (m.entry r.graphId) r payload) ∧
      ∀ i, i ≠ r.graphId → m'.entry i = m.entry i := by
  obtain ⟨payload, hrows, hold, habsorbs⟩ := registerRecord_eq_ok h
  obtain ⟨hself, hother⟩ := entry_of_rows_update hrows hold
  exact ⟨⟨payload, hself, habsorbs⟩, hother⟩

/-- **Registration.** With distinct ids, every record of an accepted list was
absorbed into what its id had before the list, and no other id changed. -/
theorem registerRecords_entry {contextId : String} {records : List GraphRecord} {m m' : Manifest}
    (hids : (records.map (·.graphId)).Nodup) (h : registerRecords contextId m records = .ok m') :
    (∀ r ∈ records, ∃ payload, m'.entry r.graphId = some payload ∧
        Absorbs (m.entry r.graphId) r payload) ∧
      ∀ i, i ∉ records.map (·.graphId) → m'.entry i = m.entry i := by
  induction records generalizing m with
  | nil =>
      cases h
      exact ⟨by simp, fun _ _ => rfl⟩
  | cons r rest ih =>
      obtain ⟨hnot, hrest⟩ := List.nodup_cons.mp hids
      simp only [registerRecords] at h
      split at h
      · cases h
      · rename_i m₁ hfirst
        obtain ⟨⟨payload, hself, habsorbs⟩, hother⟩ := registerRecord_entry hfirst
        obtain ⟨hmem, hframe⟩ := ih hrest h
        constructor
        · intro s hs
          rcases List.mem_cons.mp hs with rfl | hs
          · exact ⟨payload, (hframe _ hnot).trans hself, habsorbs⟩
          · have hne : s.graphId ≠ r.graphId := by
              intro heq
              exact hnot (List.mem_map.mpr ⟨s, hs, heq⟩)
            rw [← hother _ hne]
            exact hmem s hs
        · intro i hi
          rw [List.map_cons, List.mem_cons, not_or] at hi
          rw [hframe i hi.2, hother i hi.1]

theorem register_entry {m m' : Manifest} {plan : GraphWritePlan} (h : m.register plan = .ok m') :
    (∀ r ∈ plan.records, ∃ payload, m'.entry r.graphId = some payload ∧
        Absorbs (m.entry r.graphId) r payload) ∧
      ∀ i, i ∉ plan.records.map (·.graphId) → m'.entry i = m.entry i :=
  registerRecords_entry plan.ids_nodup h

/-! ### Rows -/

section Rows

variable {contextId : String} {m m₁ : Manifest}

/-- A record registered for a context leaves the rows of the others. -/
theorem registerRecord_frame {r : GraphRecord} (h : registerRecord contextId m r = .ok m₁)
    {key : ManifestKey} (hkey : key.contextId ≠ contextId) : m₁.rows key = m.rows key := by
  obtain ⟨payload, hrows, -⟩ := registerRecord_eq_ok h
  have hne : key ≠ r.manifestKey contextId := by
    rintro rfl
    exact hkey rfl
  rw [hrows, Function.update_of_ne hne]

theorem registerRecords_frame {records : List GraphRecord}
    (h : registerRecords contextId m records = .ok m₁) {key : ManifestKey}
    (hkey : key.contextId ≠ contextId) : m₁.rows key = m.rows key := by
  induction records generalizing m with
  | nil =>
      cases h
      rfl
  | cons r rest ih =>
      simp only [registerRecords] at h
      split at h
      · cases h
      · rename_i m₂ hfirst
        rw [ih h, registerRecord_frame hfirst hkey]

/-- A row after registration was there before, or has the id of a record with
its key. -/
theorem registerRecords_row {records : List GraphRecord}
    (h : registerRecords contextId m records = .ok m₁) {key : ManifestKey} {row : ManifestRow}
    (hrow : m₁.rows key = some row) : m.rows key = some row ∨
      ∃ r ∈ records, key = r.manifestKey contextId ∧ row.graphId = r.graphId := by
  induction records generalizing m with
  | nil =>
      cases h
      exact Or.inl hrow
  | cons r rest ih =>
      simp only [registerRecords] at h
      split at h
      · cases h
      · rename_i m₂ hfirst
        obtain ⟨payload, hrows, -⟩ := registerRecord_eq_ok hfirst
        rcases ih h with hold | ⟨s, hs, hsame⟩
        · by_cases hkey : key = r.manifestKey contextId
          · rw [hrows, hkey, Function.update_self] at hold
            cases hold
            exact Or.inr ⟨r, List.mem_cons_self, hkey, rfl⟩
          · rw [hrows, Function.update_of_ne hkey] at hold
            exact Or.inl hold
        · exact Or.inr ⟨s, List.mem_cons_of_mem _ hs, hsame⟩

/-- A row keeps its graph id. -/
theorem registerRecords_kept {records : List GraphRecord}
    (h : registerRecords contextId m records = .ok m₁) {key : ManifestKey} {row : ManifestRow}
    (hrow : m.rows key = some row) : ∃ row', m₁.rows key = some row' ∧ row'.graphId = row.graphId := by
  induction records generalizing m row with
  | nil =>
      cases h
      exact ⟨row, hrow, rfl⟩
  | cons r rest ih =>
      simp only [registerRecords] at h
      split at h
      · cases h
      · rename_i m₂ hfirst
        obtain ⟨payload, hrows, hold, -⟩ := registerRecord_eq_ok hfirst
        by_cases hkey : key = r.manifestKey contextId
        · subst hkey
          obtain ⟨row', hrow', hid⟩ := ih h (by rw [hrows, Function.update_self])
          exact ⟨row', hrow', hid.trans (hold row hrow).symm⟩
        · exact ih h (by rw [hrows, Function.update_of_ne hkey]; exact hrow)

/-- Every registered record has its row. -/
theorem registerRecords_stored {records : List GraphRecord}
    (h : registerRecords contextId m records = .ok m₁) {r : GraphRecord} (hr : r ∈ records) :
    ∃ row, m₁.rows (r.manifestKey contextId) = some row ∧ row.graphId = r.graphId := by
  induction records generalizing m with
  | nil => cases hr
  | cons s rest ih =>
      simp only [registerRecords] at h
      split at h
      · cases h
      · rename_i m₂ hfirst
        rcases List.mem_cons.mp hr with rfl | hrest
        · obtain ⟨payload, hrows, -⟩ := registerRecord_eq_ok hfirst
          obtain ⟨row, hrow, hid⟩ := registerRecords_kept h (by rw [hrows, Function.update_self])
          exact ⟨row, hrow, hid⟩
        · exact ih h hrest

end Rows

end Manifest

end ContextMemory
