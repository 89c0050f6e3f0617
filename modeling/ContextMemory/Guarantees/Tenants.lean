/-
Contexts that share the in-process indexes.

An entry is found by its bare id, so a context keeps what was indexed for it as long as no
other context brings an entry of the same id (`hydration_isolated`). All vectors stand in one
matrix, so they must also have one length.
-/

import ContextMemory.Guarantees.Reading
import ContextMemory.Retrieval.Indexes

namespace ContextMemory

/-! ### What a call brings -/

namespace HydrateCall

/-- The rows of facts the database returned. -/
def factRows (call : HydrateCall) : List EmbeddingRow :=
  match call.facts with
  | .ok rows => rows
  | .error _ => []

def entityRows (call : HydrateCall) : List EntityRow :=
  match call.transport.read hydrateCypher (hydrateParameters call.contextId) none with
  | .ok rows => rows.map EntityRow.ofResult
  | .error _ => []

def factIds (call : HydrateCall) : List String := call.factRows.map (·.subjectId)

def entityIds (call : HydrateCall) : List String := call.entityRows.filterMap EntityRow.key?

end HydrateCall

/-- The entity of a row is indexed under the context. -/
def Present (contextId : String) (row : EntityRow) (index : List IndexedEntity) : Prop :=
  ∃ e ∈ index, e.haystackId = contextId ∧ row.key? = some e.entityId ∧
    row.name = some (.str e.name) ∧ row.type = e.entityType

/-- Calls whose contexts keep apart. -/
structure Separate (num : Numerics) (calls : List HydrateCall) : Prop where
  /-- Two contexts share the id of no fact and of no entity. -/
  apart : ∀ c ∈ calls, ∀ c' ∈ calls, c.contextId ≠ c'.contextId →
    c.factIds.Disjoint c'.factIds ∧ c.entityIds.Disjoint c'.entityIds
  /-- All vectors have one length. -/
  length : ∃ n, ∀ c ∈ calls, ∀ row ∈ c.factRows, ∀ v, num.vectorOf row.embedding = .ok v →
    (num.normalize v).length = n
  /-- Every entity has an id and a name, and so has the context. -/
  named : ∀ c ∈ calls, ∀ row ∈ c.entityRows, row.key? ≠ none ∧ c.contextId ≠ ""
  /-- The entities a call returns under one id are one entity. -/
  agree : ∀ c ∈ calls, ∀ row ∈ c.entityRows, ∀ row' ∈ c.entityRows, row.key? = row'.key? →
    row.name = row'.name ∧ row.type = row'.type

/-! ### One call -/

section Facts

variable {num : Numerics} {contextId : String}

theorem addVector_eq_ok {factId : String} {vector : List Rat} {index index' : List IndexedFact}
    (h : EmbeddingIndex.addVector num factId vector contextId index = .ok index') :
    index' = Ordered.upsert IndexedFact.factId ⟨factId, contextId, num.normalize vector⟩ index := by
  unfold EmbeddingIndex.addVector at h
  split at h
  · cases h
  · split at h
    · cases h
    · cases h
      rfl

/-- The facts after a call: those before it, and rows of the call. -/
theorem mem_hydrateFacts {rows : List EmbeddingRow} {index : List IndexedFact} {e : IndexedFact}
    (h : e ∈ (hydrateFacts num contextId rows index).2) :
    e ∈ index ∨ e.haystackId = contextId ∧ ∃ row ∈ rows, e.factId = row.subjectId ∧
      ∃ v, num.vectorOf row.embedding = .ok v ∧ e.embedding = num.normalize v := by
  induction rows generalizing index with
  | nil => exact Or.inl h
  | cons row rest ih =>
      simp only [hydrateFacts] at h
      split at h
      · exact Or.inl h
      · rename_i v hv
        split at h
        · exact Or.inl h
        · rename_i index' hadd
          rcases ih h with hmem | ⟨hctx, row', hrow', hfact⟩
          · rw [addVector_eq_ok hadd] at hmem
            rcases Ordered.mem_of_mem_upsert hmem with rfl | hmem
            · exact Or.inr ⟨rfl, row, List.mem_cons_self, rfl, v, hv, rfl⟩
            · exact Or.inl hmem
          · exact Or.inr ⟨hctx, row', List.mem_cons_of_mem _ hrow', hfact⟩

/-- A call whose ids no other context holds leaves the facts of the others
alone. -/
theorem filter_hydrateFacts {rows : List EmbeddingRow} {index : List IndexedFact} {other : String}
    (hother : contextId ≠ other)
    (hfree : ∀ e ∈ index, e.haystackId = other → ∀ row ∈ rows, e.factId ≠ row.subjectId) :
    (hydrateFacts num contextId rows index).2.filter (fun e => e.haystackId = other) =
      index.filter fun e => e.haystackId = other := by
  induction rows generalizing index with
  | nil => rfl
  | cons row rest ih =>
      simp only [hydrateFacts]
      split
      · rfl
      · rename_i v hv
        split
        · rfl
        · rename_i index' hadd
          obtain rfl := addVector_eq_ok hadd
          rw [ih, Ordered.filter_upsert]
          · simpa using hother
          · intro e he hsame
            have hne := fun hctx => hfree e he hctx row List.mem_cons_self hsame
            simpa using hne
          · intro e he hctx row' hrow'
            rcases Ordered.mem_of_mem_upsert he with rfl | he
            · exact absurd hctx hother
            · exact hfree e he hctx row' (List.mem_cons_of_mem _ hrow')

end Facts

section Entities

variable {encode : String → List Rat} {contextId : String}

/-- A row that an entity was made of has an id and a name. -/
theorem add_eq_ok {entityId name : Scalar} {entityType : Option Scalar}
    {index index' : List IndexedEntity}
    (h : EntityNameIndex.add encode entityId name entityType contextId index = .ok index') :
    ∃ id text, entityId = .str id ∧ name = .str text ∧ id ≠ "" ∧ text ≠ "" ∧
      index' = Ordered.upsert IndexedEntity.entityId ⟨id, text, entityType, contextId, encode text⟩
        index := by
  unfold EntityNameIndex.add at h
  split at h
  · rename_i id text
    split at h
    · cases h
    · rename_i hid
      split at h
      · cases h
      · split at h
        · cases h
        · rename_i htext
          cases h
          exact ⟨id, text, rfl, rfl, hid, htext, rfl⟩
  · split at h
    · cases h
    · split at h <;> cases h
  · cases h

/-- One row that does not raise is left out, or indexed under its id. -/
theorem hydrateRow_eq_ok {row : EntityRow} {index index' : List IndexedEntity}
    (h : hydrateRow encode contextId row index = .ok index') :
    index' = index ∨ ∃ key name, row.key? = some key ∧ row.name = some (.str name) ∧
      index' = Ordered.upsert IndexedEntity.entityId ⟨key, name, row.type, contextId, encode name⟩
        index := by
  obtain ⟨rowId, rowName, rowType⟩ := row
  -- the id under which the row would be indexed
  have added : ∀ entityId name : Scalar, rowName = some name →
      (∀ id, entityId = .str id → ∃ key, rowId = some (.str key) ∧ id = removePrefix "entity:" key) →
      (if entityId.truthy && name.truthy then
        EntityNameIndex.add encode entityId name rowType contextId index else .ok index) =
        .ok index' →
      index' = index ∨ ∃ key name, (EntityRow.mk rowId rowName rowType).key? = some key ∧
        rowName = some (.str name) ∧ index' = Ordered.upsert IndexedEntity.entityId
          ⟨key, name, rowType, contextId, encode name⟩ index := by
    intro entityId name hname hid hadd
    split at hadd
    · obtain ⟨id, text, rfl, rfl, hne, htext, rfl⟩ := add_eq_ok hadd
      obtain ⟨key, rfl, rfl⟩ := hid id rfl
      subst hname
      exact Or.inr ⟨_, text, by simp [EntityRow.key?, hne, htext], rfl, rfl⟩
    · cases hadd
      exact Or.inl rfl
  simp only [hydrateRow] at h
  cases rowId with
  | none =>
      cases h
      exact Or.inl rfl
  | some entityId =>
      cases rowName with
      | none =>
          split at h
          · cases h
            exact Or.inl rfl
          · split at h
            · cases h
            · cases h
              exact Or.inl rfl
          · cases h
            exact Or.inl rfl
      | some name =>
          cases entityId with
          | str id => exact added _ name rfl (fun id' hid' => ⟨id, rfl, by cases hid'; rfl⟩) h
          | int _ | float _ | bool _ =>
              -- an id that is no text is false here, or the row raises
              dsimp only at h
              split at h
              · cases h
              · rename_i hfalse
                rw [if_neg (by simp [hfalse])] at h
                cases h
                exact Or.inl rfl

/-- The entities after a call: those before it, and rows of the call. -/
theorem mem_hydrateRows {rows : List EntityRow} {index : List IndexedEntity} {e : IndexedEntity}
    (h : e ∈ hydrateRows encode contextId rows index) :
    e ∈ index ∨ e.haystackId = contextId ∧ ∃ row ∈ rows, row.key? = some e.entityId := by
  induction rows generalizing index with
  | nil => exact Or.inl h
  | cons row rest ih =>
      simp only [hydrateRows] at h
      split at h
      · rename_i index' hrow
        rcases ih h with hmem | ⟨hctx, row', hrow', hkey⟩
        · rcases hydrateRow_eq_ok hrow with rfl | ⟨key, name, hkey, -, rfl⟩
          · exact Or.inl hmem
          · rcases Ordered.mem_of_mem_upsert hmem with rfl | hmem
            · exact Or.inr ⟨rfl, row, List.mem_cons_self, hkey⟩
            · exact Or.inl hmem
        · exact Or.inr ⟨hctx, row', List.mem_cons_of_mem _ hrow', hkey⟩
      · exact Or.inl h

/-- A call whose ids no other context holds leaves the entities of the others
alone. -/
theorem filter_hydrateRows {rows : List EntityRow} {index : List IndexedEntity} {other : String}
    (hother : contextId ≠ other)
    (hfree : ∀ e ∈ index, e.haystackId = other → ∀ row ∈ rows, row.key? ≠ some e.entityId) :
    (hydrateRows encode contextId rows index).filter (fun e => e.haystackId = other) =
      index.filter fun e => e.haystackId = other := by
  induction rows generalizing index with
  | nil => rfl
  | cons row rest ih =>
      have hrest : ∀ e ∈ index, e.haystackId = other → ∀ row ∈ rest, row.key? ≠ some e.entityId :=
        fun e he hctx row' hrow' => hfree e he hctx row' (List.mem_cons_of_mem _ hrow')
      simp only [hydrateRows]
      split
      · rename_i index' hrow
        rcases hydrateRow_eq_ok hrow with rfl | ⟨key, name, hkey, -, rfl⟩
        · exact ih hrest
        · rw [ih, Ordered.filter_upsert]
          · simpa using hother
          · intro e he hsame
            have hne : e.haystackId ≠ other :=
              fun hctx => hfree e he hctx row List.mem_cons_self (hsame ▸ hkey)
            simpa using hne
          · intro e he hctx row' hrow'
            rcases Ordered.mem_of_mem_upsert he with rfl | he
            · exact absurd hctx hother
            · exact hrest e he hctx row' hrow'
      · rfl

/-- An entity stays if the later rows of its id are the same entity. -/
theorem Present.hydrateRows {row : EntityRow} {rows : List EntityRow}
    {index : List IndexedEntity} (h : Present contextId row index)
    (hagree : ∀ row' ∈ rows, row.key? = row'.key? → row.name = row'.name ∧ row.type = row'.type) :
    Present contextId row (hydrateRows encode contextId rows index) := by
  induction rows generalizing index with
  | nil => exact h
  | cons row' rest ih =>
      have hrest := fun r hr => hagree r (List.mem_cons_of_mem _ hr)
      simp only [ContextMemory.hydrateRows]
      split
      · rename_i index' hrow
        rcases hydrateRow_eq_ok hrow with rfl | ⟨key, name, hkey, hname, rfl⟩
        · exact ih h hrest
        · refine ih ?_ hrest
          obtain ⟨e, he, hctx, hid, htext, htype⟩ := h
          by_cases hsame : e.entityId = key
          · obtain ⟨hnames, htypes⟩ := hagree row' List.mem_cons_self (by rw [hid, hkey, hsame])
            exact ⟨_, Ordered.mem_upsert_self _ _, rfl, by rw [hid, hsame], hnames.trans hname, htypes⟩
          · exact ⟨e, Ordered.mem_upsert_of_ne he hsame, hctx, hid, htext, htype⟩
      · exact h

/-- Rows with ids and names that agree are all indexed. -/
theorem present_hydrateRows {rows : List EntityRow} (hcontext : contextId ≠ "")
    (hnamed : ∀ row ∈ rows, row.key? ≠ none)
    (hagree : ∀ row ∈ rows, ∀ row' ∈ rows, row.key? = row'.key? →
      row.name = row'.name ∧ row.type = row'.type)
    (index : List IndexedEntity) {row : EntityRow} (hrow : row ∈ rows) :
    Present contextId row (hydrateRows encode contextId rows index) := by
  induction rows generalizing index with
  | nil => cases hrow
  | cons first rest ih =>
      obtain ⟨key, hkey⟩ := Option.ne_none_iff_exists'.mp (hnamed first List.mem_cons_self)
      obtain ⟨entry, hid, hctx, hname, htype, hadd⟩ :=
        hydrateRow_of_key encode hcontext hkey index
      rw [ContextMemory.hydrateRows, hadd]
      rcases List.mem_cons.mp hrow with rfl | hrow
      · have hpresent : Present contextId row (Ordered.upsert IndexedEntity.entityId entry index) :=
          ⟨entry, Ordered.mem_upsert_self _ _, hctx, by rw [hkey, hid], hname, htype⟩
        exact hpresent.hydrateRows fun row' hrow' =>
          hagree row List.mem_cons_self row' (List.mem_cons_of_mem _ hrow')
      · exact ih (fun r hr => hnamed r (List.mem_cons_of_mem _ hr))
          (fun r hr r' hr' => hagree r (List.mem_cons_of_mem _ hr) r' (List.mem_cons_of_mem _ hr'))
          _ hrow

end Entities

/-! ### Runs -/

section Runs

variable {num : Numerics}

/-- `hydrate_context` in terms of what it brings. -/
theorem hydrateContext_cases (num : Numerics) (call : HydrateCall) (s : Indexes) :
    ((hydrateContext num call s).2.facts =
        (hydrateFacts num call.contextId call.factRows s.facts).2) ∧
      ((hydrateContext num call s).2.entities =
          hydrateRows num.encode call.contextId call.entityRows s.entities ∨
        (hydrateContext num call s).1 ≠ .ok () ∧
          (hydrateContext num call s).2.entities = s.entities) := by
  unfold hydrateContext HydrateCall.factRows
  split
  · rename_i e hfacts
    exact ⟨by simp [hfacts, hydrateFacts], Or.inr ⟨by simp, rfl⟩⟩
  · rename_i rows hfacts
    split
    · rename_i e facts hloop
      exact ⟨by simp [hfacts, hloop], Or.inr ⟨by simp, rfl⟩⟩
    · rename_i facts hloop
      refine ⟨by simp [hfacts, hloop], Or.inl ?_⟩
      dsimp only
      unfold hydrateEntities HydrateCall.entityRows
      cases call.transport.read hydrateCypher (hydrateParameters call.contextId) none with
      | ok rows => rfl
      | error e => rfl

/-- Where the entries come from: calls for their own context. -/
structure Brought (calls : List HydrateCall) (n : Nat) (s : Indexes) : Prop where
  fact : ∀ e ∈ s.facts, e.embedding.length = n ∧
    ∃ c ∈ calls, c.contextId = e.haystackId ∧ e.factId ∈ c.factIds
  entity : ∀ e ∈ s.entities, ∃ c ∈ calls, c.contextId = e.haystackId ∧ e.entityId ∈ c.entityIds

theorem brought_empty (calls : List HydrateCall) (n : Nat) : Brought calls n {} where
  fact e he := by cases he
  entity e he := by cases he

variable {calls : List HydrateCall} {n : Nat} {s : Indexes} {call : HydrateCall}

theorem Brought.hydrateContext (h : Brought calls n s) (hcall : call ∈ calls)
    (hlength : ∀ row ∈ call.factRows, ∀ v, num.vectorOf row.embedding = .ok v →
      (num.normalize v).length = n) :
    Brought calls n (hydrateContext num call s).2 := by
  obtain ⟨hfacts, hentities⟩ := hydrateContext_cases num call s
  constructor
  · intro e he
    rw [hfacts] at he
    rcases mem_hydrateFacts he with he | ⟨hctx, row, hrow, hid, v, hv, hvector⟩
    · exact h.fact e he
    · refine ⟨by rw [hvector, hlength row hrow v hv], call, hcall, hctx.symm, ?_⟩
      exact List.mem_map.mpr ⟨row, hrow, hid.symm⟩
  · intro e he
    rcases hentities with hentities | ⟨-, hentities⟩
    · rw [hentities] at he
      rcases mem_hydrateRows he with he | ⟨hctx, row, hrow, hkey⟩
      · exact h.entity e he
      · exact ⟨call, hcall, hctx.symm, List.mem_filterMap.mpr ⟨row, hrow, hkey⟩⟩
    · rw [hentities] at he
      exact h.entity e he

/-- The indexes after any part of the calls. -/
theorem Brought.hydrateAll (h : Brought calls n s) {part : List HydrateCall} (hpart : part ⊆ calls)
    (hlength : ∀ c ∈ calls, ∀ row ∈ c.factRows, ∀ v, num.vectorOf row.embedding = .ok v →
      (num.normalize v).length = n) :
    Brought calls n (hydrateAll num part s) := by
  induction part generalizing s with
  | nil => exact h
  | cons c rest ih =>
      have hc := hpart List.mem_cons_self
      exact ih (h.hydrateContext hc (hlength c hc)) fun x hx => hpart (List.mem_cons_of_mem _ hx)

/-- What the two indexes answer for a context is the same. -/
def SameAnswers (num : Numerics) (contextId : String) (s s' : Indexes) : Prop :=
  (∀ queryName entityType topK threshold,
    EntityNameIndex.findCandidates num queryName entityType contextId topK threshold s'.entities =
      EntityNameIndex.findCandidates num queryName entityType contextId topK threshold s.entities) ∧
  ∀ queryText topK, EmbeddingIndex.search num queryText contextId topK s'.facts =
    EmbeddingIndex.search num queryText contextId topK s.facts

/-- One more call leaves what the other contexts get. -/
theorem Brought.sameAnswers (h : Brought calls n s) (hcall : call ∈ calls)
    (hlength : ∀ row ∈ call.factRows, ∀ v, num.vectorOf row.embedding = .ok v →
      (num.normalize v).length = n)
    (hapart : ∀ c ∈ calls, c.contextId ≠ call.contextId →
      c.factIds.Disjoint call.factIds ∧ c.entityIds.Disjoint call.entityIds)
    {other : String} (hother : call.contextId ≠ other) :
    SameAnswers num other s (ContextMemory.hydrateContext num call s).2 := by
  obtain ⟨hfacts, hentities⟩ := hydrateContext_cases num call s
  have hafter := h.hydrateContext hcall hlength
  constructor
  · intro queryName entityType topK threshold
    have hsame : (ContextMemory.hydrateContext num call s).2.entities.filter
        (fun e => e.haystackId = other) = s.entities.filter fun e => e.haystackId = other := by
      rcases hentities with hentities | ⟨-, hentities⟩
      · rw [hentities]
        refine filter_hydrateRows hother fun e he hctx row hrow hkey => ?_
        obtain ⟨c, hc, hcctx, hid⟩ := h.entity e he
        have hne : c.contextId ≠ call.contextId := by
          rw [hcctx, hctx]
          exact Ne.symm hother
        exact (hapart c hc hne).2 hid (List.mem_filterMap.mpr ⟨row, hrow, hkey⟩)
      · rw [hentities]
    unfold EntityNameIndex.findCandidates
    rw [hsame]
  · intro queryText topK
    have hsame : (ContextMemory.hydrateContext num call s).2.facts.filter
        (fun e => e.haystackId = other) = s.facts.filter fun e => e.haystackId = other := by
      rw [hfacts]
      refine filter_hydrateFacts hother fun e he hctx row hrow hid => ?_
      obtain ⟨-, c, hc, hcctx, hmem⟩ := h.fact e he
      have hne : c.contextId ≠ call.contextId := by
        rw [hcctx, hctx]
        exact Ne.symm hother
      exact (hapart c hc hne).1 hmem (List.mem_map.mpr ⟨row, hrow, hid.symm⟩)
    unfold EmbeddingIndex.search
    rw [hsame, EmbeddingIndex.stackable_of_length fun e he => (hafter.fact e he).1,
      EmbeddingIndex.stackable_of_length fun e he => (h.fact e he).1]

end Runs

/-- Hydration keeps contexts apart: over any sequence of calls that are
separate, each leaves what the indexes answer for the other contexts, and one
that returns has indexed every entity the graph returned. The entries are kept
under the bare id of an entity or a fact, so two contexts that have an id in
common are not separate. -/
theorem hydration_isolated (num : Numerics) (calls : List HydrateCall)
    (h : Separate num calls) (before : List HydrateCall) (call : HydrateCall)
    (after : List HydrateCall) (hcalls : calls = before ++ call :: after) :
    (∀ other, call.contextId ≠ other → SameAnswers num other (hydrateAll num before {})
      (hydrateContext num call (hydrateAll num before {})).2) ∧
    ((hydrateContext num call (hydrateAll num before {})).1 = .ok () →
      ∀ row ∈ call.entityRows, Present call.contextId row
        (hydrateContext num call (hydrateAll num before {})).2.entities) := by
  obtain ⟨n, hlength⟩ := h.length
  have hcall : call ∈ calls := by
    rw [hcalls]
    simp
  have hbefore : before ⊆ calls := by
    rw [hcalls]
    exact List.subset_append_left _ _
  have hbrought := (brought_empty calls n).hydrateAll hbefore hlength
  constructor
  · intro other hother
    exact hbrought.sameAnswers hcall (hlength call hcall)
      (fun c hc hne => h.apart c hc call hcall hne) hother
  · intro hok row hrow
    rcases (hydrateContext_cases num call (hydrateAll num before {})).2 with
      hentities | ⟨hfailed, -⟩
    · rw [hentities]
      exact present_hydrateRows (h.named call hcall row hrow).2
        (fun r hr => (h.named call hcall r hr).1) (h.agree call hcall) _ hrow
    · exact absurd hok hfailed

/-! ### Two contexts -/

/-- Vectors of one coordinate: every text has the same one. -/
def unitNumerics : Numerics where
  encode _ := [1]
  normalize vector := vector
  dot u v := (u.zipWith (· * ·) v).sum
  argsort scores := List.range scores.length
  float text := .error (.valueError ("could not convert string to float: '" ++ text ++ "'"))

/-- A graph that returns the given entities, as a first page. -/
def entityService (rows : List EntityRow) : QueryService where
  defaultPageSize := 256
  page _ _ cursor pageSize := paginate entityColumns (rows.map EntityRow.cells) cursor pageSize

/-- A context with one fact, and one person in its graph. -/
def hydratePerson (contextId factId name : String) : HydrateCall where
  contextId := contextId
  facts := .ok [⟨factId, .values [1]⟩]
  transport := ⟨"cell-0", (entityService [⟨some (.str ("entity:" ++ name)), some (.str name),
    some (.str "person")⟩]).respond⟩

theorem entityRows_ann : (hydratePerson "home" "f1" "ann").entityRows =
    [⟨some (.str "entity:ann"), some (.str "ann"), some (.str "person")⟩] := by
  decide +kernel

theorem entityRows_bob : (hydratePerson "work" "f2" "bob").entityRows =
    [⟨some (.str "entity:bob"), some (.str "bob"), some (.str "person")⟩] := by
  decide +kernel

theorem separate_ann_bob : Separate unitNumerics
    [hydratePerson "home" "f1" "ann", hydratePerson "work" "f2" "bob"] where
  apart := by
    have hids : (hydratePerson "home" "f1" "ann").entityIds = ["ann"] ∧
        (hydratePerson "work" "f2" "bob").entityIds = ["bob"] := by
      rw [HydrateCall.entityIds, HydrateCall.entityIds, entityRows_ann, entityRows_bob]
      decide
    have hfacts : (hydratePerson "home" "f1" "ann").factIds = ["f1"] ∧
        (hydratePerson "work" "f2" "bob").factIds = ["f2"] := ⟨rfl, rfl⟩
    intro c hc c' hc' hne
    simp only [List.mem_cons, List.not_mem_nil, or_false] at hc hc'
    rcases hc with rfl | rfl <;> rcases hc' with rfl | rfl
    · exact absurd rfl hne
    · simp [hids.1, hids.2, hfacts.1, hfacts.2]
    · simp [hids.1, hids.2, hfacts.1, hfacts.2]
    · exact absurd rfl hne
  length := by
    refine ⟨1, fun c hc row hrow v hv => ?_⟩
    have hvector : row.embedding = .values [1] := by
      simp only [List.mem_cons, List.not_mem_nil, or_false] at hc
      rcases hc with rfl | rfl <;> rw [List.mem_singleton.mp hrow]
    rw [hvector] at hv
    cases hv
    rfl
  named := by
    intro c hc row hrow
    simp only [List.mem_cons, List.not_mem_nil, or_false] at hc
    rcases hc with rfl | rfl
    · rw [entityRows_ann, List.mem_singleton] at hrow
      subst hrow
      decide
    · rw [entityRows_bob, List.mem_singleton] at hrow
      subst hrow
      decide
  agree := by
    intro c hc row hrow row' hrow' _
    simp only [List.mem_cons, List.not_mem_nil, or_false] at hc
    rcases hc with rfl | rfl
    · rw [entityRows_ann, List.mem_singleton] at hrow hrow'
      rw [hrow, hrow']
      exact ⟨rfl, rfl⟩
    · rw [entityRows_bob, List.mem_singleton] at hrow hrow'
      rw [hrow, hrow']
      exact ⟨rfl, rfl⟩

/-- Hydrating the context of Bob leaves that of Ann. -/
theorem hydration_isolated_ann_bob :
    Separate unitNumerics [hydratePerson "home" "f1" "ann", hydratePerson "work" "f2" "bob"] ∧
      SameAnswers unitNumerics "home"
        (hydrateAll unitNumerics [hydratePerson "home" "f1" "ann"] {})
        (hydrateContext unitNumerics (hydratePerson "work" "f2" "bob")
          (hydrateAll unitNumerics [hydratePerson "home" "f1" "ann"] {})).2 :=
  ⟨separate_ann_bob, (hydration_isolated unitNumerics _ separate_ann_bob
    [hydratePerson "home" "f1" "ann"] _ [] rfl).1 "home" (by decide)⟩

/-- Both contexts know a Max: after the second is hydrated, the first has none. -/
theorem shared_name_taken_over :
    EntityNameIndex.findCandidates unitNumerics "Max" "person" "home" 5 1
        (hydrateAll unitNumerics [hydratePerson "home" "f1" "max"] {}).entities =
      .ok [⟨"max", "max", some (.str "person"), 1, true⟩] ∧
    EntityNameIndex.findCandidates unitNumerics "Max" "person" "home" 5 1
        (hydrateContext unitNumerics (hydratePerson "work" "f2" "max")
          (hydrateAll unitNumerics [hydratePerson "home" "f1" "max"] {})).2.entities = .ok [] ∧
    ¬ SameAnswers unitNumerics "home"
      (hydrateAll unitNumerics [hydratePerson "home" "f1" "max"] {})
      (hydrateContext unitNumerics (hydratePerson "work" "f2" "max")
        (hydrateAll unitNumerics [hydratePerson "home" "f1" "max"] {})).2 := by
  have hfound : EntityNameIndex.findCandidates unitNumerics "Max" "person" "home" 5 1
        (hydrateAll unitNumerics [hydratePerson "home" "f1" "max"] {}).entities =
      .ok [⟨"max", "max", some (.str "person"), 1, true⟩] := by decide +kernel
  have hlost : EntityNameIndex.findCandidates unitNumerics "Max" "person" "home" 5 1
        (hydrateContext unitNumerics (hydratePerson "work" "f2" "max")
          (hydrateAll unitNumerics [hydratePerson "home" "f1" "max"] {})).2.entities = .ok [] := by
    decide +kernel
  refine ⟨hfound, hlost, fun hsame => ?_⟩
  have hanswer := hsame.1 "Max" "person" 5 1
  rw [hfound, hlost] at hanswer
  cases hanswer

end ContextMemory
