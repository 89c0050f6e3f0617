/-
What a reader of the graph gets to see.

`read` sends no cursor and looks at no `next_cursor`, so its answer is the first page. Where
that is the whole result, the two readers built on it see everything: `find_existing` every
current fact of a subject and predicate, `hydrate_context` every entity of a context.
-/

import ContextMemory.Retrieval.Hydration

namespace ContextMemory

/-! ### Entities -/

/-- The id a well-formed entity row is indexed under. -/
def EntityRow.key? (row : EntityRow) : Option String :=
  match row.id, row.name with
  | some (.str id), some (.str name) =>
      if removePrefix "entity:" id ≠ "" ∧ name ≠ "" then some (removePrefix "entity:" id) else none
  | _, _ => none

/-- A row with an id and a name is indexed. -/
theorem hydrateRow_of_key (encode : String → List Rat) {contextId key : String} {row : EntityRow}
    (hcontext : contextId ≠ "") (hkey : row.key? = some key) (index : List IndexedEntity) :
    ∃ entry : IndexedEntity, entry.entityId = key ∧ entry.haystackId = contextId ∧
      row.name = some (.str entry.name) ∧ row.type = entry.entityType ∧
      hydrateRow encode contextId row index =
        .ok (Ordered.upsert IndexedEntity.entityId entry index) := by
  obtain ⟨id, name, type⟩ := row
  unfold EntityRow.key? at hkey
  split at hkey
  · rename_i id' name' hid hname
    cases hid
    cases hname
    split at hkey
    · rename_i hne
      cases hkey
      refine ⟨⟨removePrefix "entity:" id', name', type, contextId, encode name'⟩, rfl, rfl, rfl, rfl,
        ?_⟩
      simp [hydrateRow, Scalar.truthy, EntityNameIndex.add, hne.1, hne.2, hcontext]
    · cases hkey
  · cases hkey

/-- Hydration adds the keys of its rows to those of the index. -/
theorem mem_keys_hydrateRows (encode : String → List Rat) {contextId : String}
    (hcontext : contextId ≠ "") {rows : List EntityRow} (hrows : ∀ row ∈ rows, row.key? ≠ none)
    (index : List IndexedEntity) (k : String) :
    k ∈ (hydrateRows encode contextId rows index).map IndexedEntity.entityId ↔
      k ∈ index.map IndexedEntity.entityId ∨ ∃ row ∈ rows, row.key? = some k := by
  induction rows generalizing index with
  | nil => simp [hydrateRows]
  | cons row rows ih =>
      obtain ⟨key, hkey⟩ := Option.ne_none_iff_exists'.mp (hrows row List.mem_cons_self)
      obtain ⟨entry, hentry, -, -, -, hrow⟩ := hydrateRow_of_key encode hcontext hkey index
      rw [hydrateRows, hrow]
      dsimp only
      rw [ih (fun r hr => hrows r (List.mem_cons_of_mem _ hr)), Ordered.mem_keys_upsert, hentry]
      constructor
      · rintro ((rfl | h) | ⟨r, hr, hk⟩)
        · exact Or.inr ⟨row, List.mem_cons_self, hkey⟩
        · exact Or.inl h
        · exact Or.inr ⟨r, List.mem_cons_of_mem _ hr, hk⟩
      · rintro (h | ⟨r, hr, hk⟩)
        · exact Or.inl (Or.inr h)
        · rcases List.mem_cons.mp hr with rfl | hr
          · rw [hkey] at hk
            exact Or.inl (Or.inl (Option.some.inj hk).symm)
          · exact Or.inr ⟨r, hr, hk⟩

/-! ### First pages -/

/-- Rows that come in pages start with the first page. -/
theorem first_eq_take {α β : Type} {f : α → β} {xs : List α} {first : List β}
    {rest : List (List β)} (h : (first :: rest).flatten = xs.map f) :
    first = (xs.take first.length).map f := by
  rw [List.map_take, ← h, List.flatten_cons, List.take_left]

theorem filterMap_take_eq_iff {α β : Type} {f : α → Option β} (xs : List α) (n : Nat) :
    (xs.take n).filterMap f = xs.filterMap f ↔ (xs.drop n).filterMap f = [] := by
  have hsplit : xs.filterMap f = (xs.take n).filterMap f ++ (xs.drop n).filterMap f := by
    rw [← List.filterMap_append, List.take_append_drop]
  rw [hsplit]
  exact List.self_eq_append_right

/-! ### Complete reads -/

section Complete

variable (service : QueryService) (cellId : String)

/-- The lookup finds every current fact exactly if none stands behind the first
page. -/
theorem findExistingOver_complete {g : Graph} {contextId predicateKey : String} {subjectId : Nat}
    {pages : List (List (List HttpQueryValue))}
    (h : service.Serves findExistingCypher
      (findExistingParameters contextId subjectId predicateKey) factColumns none pages)
    (hrows : pages.flatten = (g.findExistingRows contextId subjectId predicateKey).map
      FactRow.cells) :
    findExistingOver ⟨cellId, service.respond⟩ contextId subjectId predicateKey =
        (g.findExistingRows contextId subjectId predicateKey).filterMap
          (decodeRow subjectId predicateKey) ↔
      ((g.findExistingRows contextId subjectId predicateKey).drop
        (pages.headD []).length).filterMap (decodeRow subjectId predicateKey) = [] := by
  obtain ⟨first, rest, next, rfl, hpage⟩ := h.first
  rw [first_eq_take hrows] at hpage
  rw [findExistingOver_eq hpage]
  exact filterMap_take_eq_iff _ _

/-- Hydration indexes every entity exactly if none of those behind the first
page is new. -/
theorem hydrateEntities_complete {g : Graph} {contextId : String} (encode : String → List Rat)
    {rows : List EntityRow} {pages : List (List (List HttpQueryValue))}
    (hcontext : contextId ≠ "") (hentities : g.IsEntityRows contextId rows)
    (hkeys : ∀ row ∈ rows, row.key? ≠ none)
    (h : service.Serves hydrateCypher (hydrateParameters contextId) entityColumns none pages)
    (hrows : pages.flatten = rows.map EntityRow.cells) :
    (∀ id v, g.nodes id = some v → v.isEntityOf contextId = true →
      ∃ entry ∈ hydrateEntities encode contextId ⟨cellId, service.respond⟩ [],
        v.entityRow.key? = some entry.entityId) ↔
      ∀ row ∈ rows.drop (pages.headD []).length,
        ∃ earlier ∈ rows.take (pages.headD []).length, earlier.key? = row.key? := by
  obtain ⟨first, rest, next, rfl, hpage⟩ := h.first
  rw [first_eq_take hrows] at hpage
  have hindexed : ∀ k, (∃ entry ∈ hydrateEntities encode contextId ⟨cellId, service.respond⟩ [],
      some k = some entry.entityId) ↔ ∃ row ∈ rows.take first.length, row.key? = some k := by
    intro k
    have htaken : ∀ row ∈ rows.take first.length, row.key? ≠ none :=
      fun row hrow => hkeys row (List.mem_of_mem_take hrow)
    have hmem := mem_keys_hydrateRows encode hcontext htaken [] k
    rw [List.map_nil, List.mem_map] at hmem
    rw [hydrateEntities_eq encode contextId hpage]
    simpa [eq_comm] using hmem
  constructor
  · intro hall row hrow
    obtain ⟨k, hk⟩ := Option.ne_none_iff_exists'.mp (hkeys row (List.mem_of_mem_drop hrow))
    obtain ⟨id, v, hv, hentity, rfl⟩ := (hentities row).mp (List.mem_of_mem_drop hrow)
    have hseen := hall id v hv hentity
    rw [hk] at hseen ⊢
    exact (hindexed k).mp hseen
  · intro hdropped id v hv hentity
    have hrow : v.entityRow ∈ rows := (hentities _).mpr ⟨id, v, hv, hentity, rfl⟩
    obtain ⟨k, hk⟩ := Option.ne_none_iff_exists'.mp (hkeys _ hrow)
    rw [hk]
    apply (hindexed k).mpr
    rw [← List.take_append_drop first.length rows, List.mem_append] at hrow
    rcases hrow with hrow | hrow
    · exact ⟨_, hrow, hk⟩
    · obtain ⟨earlier, hearlier, hkey⟩ := hdropped _ hrow
      exact ⟨earlier, hearlier, hkey.trans hk⟩

/-- A read returns the whole of a paged result exactly if the first page holds
all of it and no path. So do the lookup of current facts and the hydration of
entities, as far as a row that stands behind the first page could have told them
anything. One request is sent and its cursor is not looked at. -/
theorem read_complete_iff_first_page (g : Graph) (encode : String → List Rat) :
    (∀ query parameters columns pages, service.Serves query parameters columns none pages →
      ∀ bookmark, (∃ rows, decodeRows columns pages.flatten = .ok rows ∧
        HydraHttpTransport.read ⟨cellId, service.respond⟩ query parameters bookmark = .ok rows) ↔
        pages.tail.flatten = [] ∧ PathFree pages.flatten) ∧
    (∀ contextId subjectId predicateKey pages,
      service.Serves findExistingCypher (findExistingParameters contextId subjectId predicateKey)
        factColumns none pages →
      pages.flatten = (g.findExistingRows contextId subjectId predicateKey).map FactRow.cells →
      (findExistingOver ⟨cellId, service.respond⟩ contextId subjectId predicateKey =
          (g.findExistingRows contextId subjectId predicateKey).filterMap
            (decodeRow subjectId predicateKey) ↔
        ((g.findExistingRows contextId subjectId predicateKey).drop
          (pages.headD []).length).filterMap (decodeRow subjectId predicateKey) = [])) ∧
    ∀ contextId rows pages, contextId ≠ "" → g.IsEntityRows contextId rows →
      (∀ row ∈ rows, row.key? ≠ none) →
      service.Serves hydrateCypher (hydrateParameters contextId) entityColumns none pages →
      pages.flatten = rows.map EntityRow.cells →
      ((∀ id v, g.nodes id = some v → v.isEntityOf contextId = true →
        ∃ entry ∈ hydrateEntities encode contextId ⟨cellId, service.respond⟩ [],
          v.entityRow.key? = some entry.entityId) ↔
        ∀ row ∈ rows.drop (pages.headD []).length,
          ∃ earlier ∈ rows.take (pages.headD []).length, earlier.key? = row.key?) := by
  refine ⟨?_, ?_, ?_⟩
  · intro query parameters columns pages h bookmark
    exact h.read_complete cellId bookmark
  · intro contextId subjectId predicateKey pages h hrows
    exact findExistingOver_complete service cellId h hrows
  · intro contextId rows pages hcontext hentities hkeys h hrows
    exact hydrateEntities_complete service cellId encode hcontext hentities hkeys h hrows

end Complete

/-! ### A small graph -/

def smallEntity (key name : String) : Vertex where
  labels := {.entity}
  props property := [("context_id", Scalar.str "ctx"), ("logical_key", .str key),
    ("canonical_name", .str name), ("entity_type", .str "person")].lookup property

def smallFact (key text predicateKey : String) : Vertex where
  labels := {.fact}
  props property := [("context_id", Scalar.str "ctx"), ("logical_key", .str key), ("text", .str text),
    ("predicate_key", .str predicateKey), ("is_current", .bool true),
    ("observed_at", .int 9)].lookup property

/-- Ann twice under one key, Bob, and five current facts about Ann, one of which has no text. -/
def smallVertices : List (Nat × Vertex) :=
  [(1, smallEntity "entity:ann" "ann"), (2, smallEntity "entity:bob" "bob"),
    (3, smallEntity "entity:ann" "anna"), (4, smallFact "fact:f1" "Ann lives in Rome" "lives_in"),
    (5, smallFact "fact:f2" "Ann lives in Oslo" "lives_in"), (6, smallFact "fact:f3" "" "lives_in"),
    (7, smallFact "fact:f4" "Ann likes tea" "likes"), (8, smallFact "fact:f5" "Ann likes rain" "likes")]

def smallGraph : Graph where
  nodes id := smallVertices.lookup id
  edges := [4, 5, 6, 7, 8].map fun id => { type := .about, source := id, destination := 1, id := id + 6 }
  edges_nodup := by decide

def smallEntityRows : List EntityRow :=
  (smallVertices.take 3).map fun vertex => vertex.2.entityRow

/-- An endpoint for the two queries on it, with pages of two rows; only the lookup has a predicate. -/
def smallService : QueryService where
  defaultPageSize := 2
  page _ parameters cursor pageSize :=
    match parameters.get "predicate_key" with
    | some (.str predicateKey) =>
        paginate factColumns ((smallGraph.findExistingRows "ctx" 1 predicateKey).map FactRow.cells)
          cursor pageSize
    | _ => paginate entityColumns (smallEntityRows.map EntityRow.cells) cursor pageSize

/-- The rows of a lookup in pages of two. -/
def smallPages (rows : List (List HttpQueryValue)) : List (List (List HttpQueryValue)) :=
  [rows.take 2, rows.drop 2]

theorem smallService_facts : smallService.Serves findExistingCypher
    (findExistingParameters "ctx" 1 "lives_in") factColumns none
    (smallPages ((smallGraph.findExistingRows "ctx" 1 "lives_in").map FactRow.cells)) := by
  have hfirst : smallService.page findExistingCypher (findExistingParameters "ctx" 1 "lives_in") none 2 =
      .ok ⟨factColumns,
        ((smallGraph.findExistingRows "ctx" 1 "lives_in").map FactRow.cells).take 2, some 2⟩ := rfl
  have hsecond : smallService.page findExistingCypher (findExistingParameters "ctx" 1 "lives_in")
      (some 2) 2 = .ok ⟨factColumns,
        ((smallGraph.findExistingRows "ctx" 1 "lives_in").map FactRow.cells).drop 2, none⟩ := rfl
  exact .more hfirst (by decide) (by decide) (.last hsecond (by decide) (by decide))

theorem smallService_likes : smallService.Serves findExistingCypher
    (findExistingParameters "ctx" 1 "likes") factColumns none
    [(smallGraph.findExistingRows "ctx" 1 "likes").map FactRow.cells] := by
  have hpage : smallService.page findExistingCypher (findExistingParameters "ctx" 1 "likes") none 2 =
      .ok ⟨factColumns, (smallGraph.findExistingRows "ctx" 1 "likes").map FactRow.cells, none⟩ := rfl
  exact .last hpage (by decide) (by decide)

theorem smallService_entities : smallService.Serves hydrateCypher (hydrateParameters "ctx")
    entityColumns none (smallPages (smallEntityRows.map EntityRow.cells)) := by
  have hfirst : smallService.page hydrateCypher (hydrateParameters "ctx") none 2 =
      .ok ⟨entityColumns, (smallEntityRows.map EntityRow.cells).take 2, some 2⟩ := rfl
  have hsecond : smallService.page hydrateCypher (hydrateParameters "ctx") (some 2) 2 =
      .ok ⟨entityColumns, (smallEntityRows.map EntityRow.cells).drop 2, none⟩ := rfl
  exact .more hfirst (by decide) (by decide) (.last hsecond (by decide) (by decide))

theorem smallGraph_entityRows : smallGraph.IsEntityRows "ctx" smallEntityRows := by
  have hrows : ∀ vertex ∈ smallVertices, vertex.2.isEntityOf "ctx" = true →
      vertex.2.entityRow ∈ smallEntityRows := by decide
  have hvertices : ∀ row ∈ smallEntityRows, ∃ id ∈ [1, 2, 3], (smallGraph.nodes id).any (fun v =>
      v.isEntityOf "ctx" && decide (row = v.entityRow)) = true := by decide
  intro row
  constructor
  · intro hrow
    obtain ⟨id, -, hany⟩ := hvertices row hrow
    obtain ⟨v, hv, hboth⟩ := (Option.any_eq_true _ _).mp hany
    obtain ⟨hentity, hsame⟩ := Bool.and_eq_true_iff.mp hboth
    exact ⟨id, v, hv, hentity, of_decide_eq_true hsame⟩
  · rintro ⟨id, v, hv, hentity, rfl⟩
    obtain ⟨before, after, hsplit, -⟩ := List.lookup_eq_some_iff.mp hv
    refine hrows (id, v) ?_ hentity
    rw [hsplit]
    exact List.mem_append_right before List.mem_cons_self

/-- Of two pages the second is not read. What the lookup and the hydration lose
with it, a row without a text and one more name of an entity, they would not
have used; and one page is read whole. -/
theorem read_complete_small :
    (∃ rows, decodeRows factColumns
        [(smallGraph.findExistingRows "ctx" 1 "likes").map FactRow.cells].flatten = .ok rows ∧
      HydraHttpTransport.read ⟨"cell-0", smallService.respond⟩ findExistingCypher
        (findExistingParameters "ctx" 1 "likes") none = .ok rows) ∧
    (¬∃ rows, decodeRows factColumns (smallPages ((smallGraph.findExistingRows "ctx" 1 "lives_in").map
        FactRow.cells)).flatten = .ok rows ∧
      HydraHttpTransport.read ⟨"cell-0", smallService.respond⟩ findExistingCypher
        (findExistingParameters "ctx" 1 "lives_in") none = .ok rows) ∧
    findExistingOver ⟨"cell-0", smallService.respond⟩ "ctx" 1 "lives_in" =
      (smallGraph.findExistingRows "ctx" 1 "lives_in").filterMap (decodeRow 1 "lives_in") ∧
    ∀ id v, smallGraph.nodes id = some v → v.isEntityOf "ctx" = true →
      ∃ entry ∈ hydrateEntities (fun _ => []) "ctx" ⟨"cell-0", smallService.respond⟩ [],
        v.entityRow.key? = some entry.entityId := by
  obtain ⟨hread, hlookup, hhydrate⟩ :=
    read_complete_iff_first_page smallService "cell-0" smallGraph fun _ => []
  refine ⟨?_, ?_, ?_, ?_⟩
  · exact (hread _ _ _ _ smallService_likes none).mpr ⟨rfl, by decide⟩
  · exact fun h => absurd ((hread _ _ _ _ smallService_facts none).mp h).1 (by decide)
  · exact (hlookup _ _ _ _ smallService_facts rfl).mpr rfl
  · exact (hhydrate "ctx" smallEntityRows _ (by decide) smallGraph_entityRows (by decide)
      smallService_entities rfl).mpr (by decide)

/-- One row more than a page holds. -/
def longRows : List (List HttpQueryValue) := List.replicate 257 [.integer 0]

def longService : QueryService where
  defaultPageSize := 256
  page _ _ cursor pageSize := paginate ["n"] longRows cursor pageSize

/-- The last of 257 rows is never read. -/
theorem read_incomplete_long : ¬∀ (service : QueryService) (query : String) (parameters : Json)
    (columns : List String) (pages : List (List (List HttpQueryValue))),
    service.Serves query parameters columns none pages →
      ∃ rows, decodeRows columns pages.flatten = .ok rows ∧
        HydraHttpTransport.read ⟨"cell-0", service.respond⟩ query parameters none = .ok rows := by
  intro hall
  have hwidth : ∀ row ∈ longRows, row.length = ["n"].length := by
    intro row hrow
    rw [List.eq_of_mem_replicate hrow]
    rfl
  have hpage : ∀ cursor, longService.page "MATCH (n) RETURN n.n AS n" (.obj []) cursor
      longService.defaultPageSize = paginate ["n"] longRows cursor longService.defaultPageSize := by
    intro cursor
    simp only [longService]
  have hstart : (none : Option Nat).getD 0 ≤ longRows.length := Nat.zero_le _
  obtain ⟨rest, hserves, hrest⟩ :=
    QueryService.serves_paginate (show 0 < longService.defaultPageSize by decide) hwidth hpage hstart
  have hcomplete := (hserves.read_complete "cell-0" none).mp (hall _ _ _ _ _ hserves)
  have hlost : rest.flatten.length = 1 := by
    rw [hrest, List.length_drop, List.length_drop, longRows, List.length_replicate]
    rfl
  rw [List.tail_cons] at hcomplete
  rw [hcomplete.1] at hlost
  cases hlost

end ContextMemory
