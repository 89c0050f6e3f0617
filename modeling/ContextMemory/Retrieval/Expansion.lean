/-
`HybridRetrievalEngine._hydradb_graph_expansion` (`retrieval.py`, Phase 2).

Each seeded fact is fetched from the graph by its registered id, the rows are filtered by
the four times of the fact and by the chat TTL, and a seed without a row that passes is
removed. The path query then counts, for each fact left, the paths that end at its entity.

The fetches run concurrently, so their rows come in any order. An order comparison of a
text with a number raises and ends the request. A failed fetch or path query does not.
-/

import ContextMemory.Ingestion.PlanBuilder

namespace ContextMemory

/-! ### Seeds -/

/-- A seeded fact; scores are exact. -/
structure ScoredFact where
  factId : String
  text : String
  semanticScore : Rat := 0
  keywordScore : Rat := 0
  structuralScore : Rat := 0
  entityBoost : Rat := 0
  compositeScore : Rat := 0
  speaker : Option String := none
  observedAt : Option Int := none
  semanticRank : Option Nat := none
  keywordRank : Option Nat := none
deriving DecidableEq

/-- `f"fact:{fid}"`. -/
def ScoredFact.key (fact : ScoredFact) : String := "fact:" ++ fact.factId

structure DateRange where
  validFrom : Option DateTime := none
  validTo : Option DateTime := none
deriving DecidableEq

/-- The settings of the engine that decide something, with their defaults. -/
structure RetrievalConfig where
  topK : Int := 20
  siblingFactLimit : Int := 20
  siblingContinuityPenalty : Rat := 1 / 10
  siblingRelevanceRatio : Rat := 4 / 5
  overfetchMultiplier : Int := 4
  overfetchFloor : Int := 60
  chatTtlHours : Int := 24
  temporalBufferDays : Int := 2
  graphMaxHops : Int := 3
  structuralPathCap : Int := 3
  entityBoostCap : Rat := 1 / 2
  rrfK : Int := 60
  abstentionSemanticThreshold : Rat := 3 / 10
  abstentionMessage : String := "I don't have that information in my memory."

/-! ### Nodes -/

/-- The columns of the node query. -/
structure FactNodeRow where
  text : Option Scalar
  speaker : Option Scalar
  validFrom : Option Scalar
  validTo : Option Scalar
  observedAt : Option Scalar
  supersededAt : Option Scalar
  memoryScope : Option Scalar
  entityKey : Option Scalar
deriving DecidableEq

def nodeColumns : List String :=
  ["text", "speaker", "valid_from", "valid_to", "observed_at", "superseded_at", "memory_scope",
    "entity_key"]

/-- The node query behind the id. -/
def nodeCypherTail : String :=
  "\x7d)\n                OPTIONAL MATCH (f)-[:ABOUT]->(e)\n                RETURN\n" ++
  "                    f.text AS text,\n                    f.speaker AS speaker,\n" ++
  "                    f.valid_from AS valid_from,\n                    f.valid_to AS valid_to,\n" ++
  "                    f.observed_at AS observed_at,\n" ++
  "                    f.superseded_at AS superseded_at,\n" ++
  "                    f.memory_scope AS memory_scope,\n" ++
  "                    e.logical_key AS entity_key\n                "

/-- The node query; the id is inlined. -/
def nodeCypher (graphId : Nat) : String :=
  "\n                MATCH (f \x7bid: " ++ (toString graphId ++ nodeCypherTail)

def FactNodeRow.properties (row : FactNodeRow) : List (Option Scalar) :=
  [row.text, row.speaker, row.validFrom, row.validTo, row.observedAt, row.supersededAt,
    row.memoryScope, row.entityKey]

def FactNodeRow.cells (row : FactNodeRow) : List HttpQueryValue := row.properties.map propertyCell

def FactNodeRow.ofResult (row : ResultRow) : FactNodeRow where
  text := row.get "text"
  speaker := row.get "speaker"
  validFrom := row.get "valid_from"
  validTo := row.get "valid_to"
  observedAt := row.get "observed_at"
  supersededAt := row.get "superseded_at"
  memoryScope := row.get "memory_scope"
  entityKey := row.get "entity_key"

theorem FactNodeRow.ofResult_ofColumns (row : FactNodeRow) :
    FactNodeRow.ofResult (ResultRow.ofColumns nodeColumns (row.properties.map propertyJson)) =
      row := by
  obtain ⟨text, speaker, validFrom, validTo, observedAt, supersededAt, scope, entity⟩ := row
  simp [FactNodeRow.ofResult, ResultRow.get, ResultRow.ofColumns, nodeColumns,
    FactNodeRow.properties, List.lookup_cons]

/-- The row of a node and one entity it is about. -/
def Vertex.nodeRow (v : Vertex) (entityKey : Option Scalar) : FactNodeRow where
  text := v.props "text"
  speaker := v.props "speaker"
  validFrom := v.props "valid_from"
  validTo := v.props "valid_to"
  observedAt := v.props "observed_at"
  supersededAt := v.props "superseded_at"
  memoryScope := v.props "memory_scope"
  entityKey := entityKey

/-- The rows of the node query: one per `ABOUT` edge, or one without an entity. -/
def Graph.nodeRows (g : Graph) (id : Nat) : List FactNodeRow :=
  match g.nodes id with
  | none => []
  | some v =>
      match g.edges.filter fun e => e.type = .about ∧ e.source = id with
      | [] => [v.nodeRow none]
      | edges => edges.map fun e =>
          v.nodeRow ((g.nodes e.destination).bind fun entity => entity.props "logical_key")

theorem Graph.mem_nodeRows {g : Graph} {id : Nat} {row : FactNodeRow} (h : row ∈ g.nodeRows id) :
    ∃ v entityKey, g.nodes id = some v ∧ row = v.nodeRow entityKey := by
  unfold Graph.nodeRows at h
  split at h
  · cases h
  · rename_i v hv
    split at h
    · rw [List.mem_singleton] at h
      exact ⟨v, none, hv, h⟩
    · obtain ⟨e, -, rfl⟩ := List.mem_map.mp h
      exact ⟨v, _, hv, rfl⟩

theorem Graph.nodeRows_ne_nil {g : Graph} {id : Nat} {v : Vertex} (h : g.nodes id = some v) :
    g.nodeRows id ≠ [] := by
  unfold Graph.nodeRows
  rw [h]
  dsimp only
  split
  · exact List.cons_ne_nil _ _
  · rename_i edges hedges
    exact fun hnil => hedges (List.map_eq_nil_iff.mp hnil)

/-- `_fetch_node`; a failed read is no rows. -/
def fetchNode (hydra : HydraHttpTransport) (graphId : Nat) : Option (List FactNodeRow) :=
  match hydra.read (nodeCypher graphId) (.obj []) none with
  | .ok rows => some (rows.map FactNodeRow.ofResult)
  | .error _ => none

/-- What the endpoint answers to the node query is what the loop sees of its
first page. -/
theorem fetchNode_eq {service : QueryService} {cellId : String} {graphId : Nat}
    {rows : List FactNodeRow} {next : Option Nat}
    (h : service.page (nodeCypher graphId) (.obj []) none service.defaultPageSize =
      .ok ⟨nodeColumns, rows.map FactNodeRow.cells, next⟩) :
    fetchNode ⟨cellId, service.respond⟩ graphId = some rows := by
  have hdecoded : decodeRows nodeColumns (rows.map FactNodeRow.cells) = .ok (rows.map fun row =>
      ResultRow.ofColumns nodeColumns (row.properties.map propertyJson)) :=
    decodeRows_map (fun row => decodeResultRow_properties rfl) rows
  rw [fetchNode, HydraHttpTransport.read_firstPage none h]
  simp only [hdecoded, List.map_map, Function.comp_def, FactNodeRow.ofResult_ofColumns,
    List.map_id']

/-! ### The filter -/

/-- The `TypeError` of comparing a text with a number. -/
def incomparable (operator : String) : Exn :=
  .provider ("'" ++ operator ++ "' not supported between instances of 'str' and 'int'")

/-- `bound is not None and bound > second`. -/
def isAfter (bound : Option Scalar) (second : Int) : Except Exn Bool :=
  match bound with
  | none => .ok false
  | some value =>
      match value.number? with
      | some x => .ok (decide ((second : Rat) < x))
      | none => .error (incomparable ">")

/-- `bound is not None and bound < second`. -/
def isBefore (bound : Option Scalar) (second : Int) : Except Exn Bool :=
  match bound with
  | none => .ok false
  | some value =>
      match value.number? with
      | some x => .ok (decide (x < (second : Rat)))
      | none => .error (incomparable "<")

@[simp] theorem isAfter_int (n second : Int) :
    isAfter (some (.int n)) second = .ok (decide (second < n)) := by
  simp only [isAfter, Scalar.number?, Rat.intCast_lt_intCast]

@[simp] theorem isBefore_int (n second : Int) :
    isBefore (some (.int n)) second = .ok (decide (n < second)) := by
  simp only [isBefore, Scalar.number?, Rat.intCast_lt_intCast]

/-- A number that is not after a second is at most it. -/
theorem isAfter_eq_false {bound : Option Scalar} {second : Int}
    (h : isAfter bound second = .ok false) {x : Rat} (hx : bound.bind Scalar.number? = some x) :
    x ≤ second := by
  obtain ⟨value, rfl, hvalue⟩ := Option.bind_eq_some_iff.mp hx
  simpa [isAfter, hvalue] using h

theorem isBefore_eq_false {bound : Option Scalar} {second : Int}
    (h : isBefore bound second = .ok false) {x : Rat} (hx : bound.bind Scalar.number? = some x) :
    second ≤ x := by
  obtain ⟨value, rfl, hvalue⟩ := Option.bind_eq_some_iff.mp hx
  simpa [isBefore, hvalue] using h

/-- One turn of the filter, in the order of its `continue`s. -/
def visible (query ttlLimit : Int) (row : FactNodeRow) : Except Exn Bool := do
  if ← isAfter row.validFrom query then return false
  if ← isBefore row.validTo query then return false
  if ← isAfter row.observedAt query then return false
  if ← isBefore row.supersededAt query then return false
  if row.memoryScope = some (.str "chat") then
    if ← isBefore row.observedAt ttlLimit then return false
  return true

/-- `int((query_epoch - timedelta(hours=ttl)).timestamp())`. -/
def chatTtlLimit (config : RetrievalConfig) (query : DateTime) : Int :=
  DateTime.timestamp { query with micros := query.micros - config.chatTtlHours * 3600000000 }

theorem visible_eq_true {query ttlLimit : Int} {row : FactNodeRow} :
    visible query ttlLimit row = .ok true ↔
      isAfter row.validFrom query = .ok false ∧ isBefore row.validTo query = .ok false ∧
      isAfter row.observedAt query = .ok false ∧ isBefore row.supersededAt query = .ok false ∧
      (row.memoryScope = some (.str "chat") → isBefore row.observedAt ttlLimit = .ok false) := by
  unfold visible
  rcases isAfter row.validFrom query with e | ⟨_ | _⟩ <;>
    rcases isBefore row.validTo query with e | ⟨_ | _⟩ <;>
      rcases isAfter row.observedAt query with e | ⟨_ | _⟩ <;>
        rcases isBefore row.supersededAt query with e | ⟨_ | _⟩ <;>
          simp [bind, Except.bind, pure, Except.pure]
  by_cases hscope : row.memoryScope = some (.str "chat")
  · rcases isBefore row.observedAt ttlLimit with e | ⟨_ | _⟩ <;> simp [hscope]
  · simp [hscope]

/-! ### Paths -/

/-- A code unit as `\uXXXX`. -/
def unicodeEscape (n : Nat) : String :=
  let digits := Nat.toDigits 16 n
  "\\u" ++ String.ofList (List.replicate (4 - digits.length) '0' ++ digits)

/-- One character of `json.dumps` of a text. -/
def dumpsChar (c : Char) : String :=
  if c = '"' then "\\\""
  else if c = '\\' then "\\\\"
  else if c = '\n' then "\\n"
  else if c = '\r' then "\\r"
  else if c = '\t' then "\\t"
  else if c.toNat = 8 then "\\b"
  else if c.toNat = 12 then "\\f"
  else if 32 ≤ c.toNat ∧ c.toNat ≤ 126 then c.toString
  else if c.toNat < 65536 then unicodeEscape c.toNat
  else unicodeEscape (55296 + (c.toNat - 65536) / 1024) ++
    unicodeEscape (56320 + (c.toNat - 65536) % 1024)

/-- `json.dumps(text)`. -/
def dumps (text : String) : String :=
  "\"" ++ String.join (text.toList.map dumpsChar) ++ "\""

/-- The path query up to the entities. -/
def pathCypherHead : String :=
  "\n                CALL algo.MSpaths(\x7b\n                    sourceLabel: 'Entity',\n" ++
  "                    sourceProperty: 'logical_key',\n                    sourceValues: ["

def pathCypher (entities : List String) (maxHops : Int) : String :=
  pathCypherHead ++ (String.intercalate ", " (entities.map dumps) ++ "],\n" ++
  "                    relTypes: ['ABOUT'],\n                    maxLen: " ++ toString maxHops ++
  "\n                \x7d) YIELD path\n                RETURN path\n                ")

/-- What the path loop keeps for a fact. -/
structure PathStat where
  count : Nat
  hops : Nat
deriving DecidableEq

abbrev PathStats := String → Option PathStat

/-- `node.get("logical_key") if isinstance(node, dict) else None`. -/
def pathNodeKey (node : Json) : Json := (node.get "logical_key").getD .null

/-- The hops and the two ends of a path of three elements or more. -/
def pathEnds : Option Json → Except Exn (Option (Nat × Json × Json))
  | none => .ok none
  | some (.arr items) =>
      match items.head?, items.getLast? with
      | some first, some last =>
          if 3 ≤ items.length then
            .ok (some (items.length / 2, pathNodeKey first, pathNodeKey last))
          else .ok none
      | _, _ => .ok none
  -- a text has a length too, and its characters are no dicts
  | some (.str _) => .ok none
  | some (.obj fields) => if 3 ≤ fields.length then .error (.provider "KeyError: 0") else .ok none
  | some _ => .error (.provider "object has no len()")

/-- One more path at the entity `key`, for each fact of it. -/
def countKey (facts : String → List String) (hops : Nat) (key : Json) (stats : PathStats) :
    Except Exn PathStats :=
  match key with
  | .str entity => .ok ((facts entity).foldl (fun stats fact =>
      Function.update stats fact (some (match stats fact with
        | some old => ⟨old.count + 1, min old.hops hops⟩
        | none => ⟨1, hops⟩))) stats)
  | .arr _ | .obj _ => .error (.provider "unhashable type")
  | _ => .ok stats

/-- The loop over the paths, which an exception ends. -/
def countPaths (facts : String → List String) : List ResultRow → PathStats → PathStats
  | [], stats => stats
  | row :: rest, stats =>
      match pathEnds (row "path") with
      | .error _ => stats
      | .ok none => countPaths facts rest stats
      | .ok (some (hops, first, last)) =>
          match countKey facts hops first stats with
          | .error _ => stats
          | .ok stats =>
              match countKey facts hops last stats with
              | .error _ => stats
              | .ok stats => countPaths facts rest stats

/-! ### The expansion -/

/-- What the expansion reads from: the graph, the id registry of Postgres, and the two orders
that the interpreter is free in. -/
structure Expander where
  hydra : HydraHttpTransport
  registry : (contextId : String) → (keys : List String) → Except Exn (List (String × Nat))
  completion : List (String × Option (List FactNodeRow)) → List (String × Option (List FactNodeRow))
  completion_perm : ∀ fetched, (completion fetched).Perm fetched
  iteration : List String → List String
  iteration_perm : ∀ entities, (iteration entities).Perm entities

/-- A row of the graph under the key of its fact. -/
abbrev RawNode := String × FactNodeRow

namespace Expander

variable (e : Expander)

/-- `graph_id_by_fact_key`; a failed lookup leaves it empty. -/
def graphIds (contextId : String) (seeds : List ScoredFact) : List (String × Nat) :=
  match e.registry contextId (seeds.map ScoredFact.key) with
  | .ok rows => Ordered.ofAssignments Prod.fst rows
  | .error _ => []

/-- `raw_nodes`, in the order in which the fetches complete. -/
def rawNodes (contextId : String) (seeds : List ScoredFact) : List RawNode :=
  let fetched := (e.graphIds contextId seeds).map fun entry =>
    (entry.1, fetchNode e.hydra entry.2)
  (e.completion fetched).flatMap fun fetch => (fetch.2.getD []).map fun row => (fetch.1, row)

end Expander

/-- `entity_key_by_fact`: the last row with an entity decides. -/
def entityKeyOf (raw : List RawNode) (factKey : String) : Option String :=
  raw.reverse.findSome? fun node =>
    match node.2.entityKey with
    | some (.str key) => if node.1 = factKey ∧ key ≠ "" then some key else none
    | _ => none

/-- The rows that pass the filter. -/
def keepVisible (query ttlLimit : Int) : List RawNode → Except Exn (List RawNode)
  | [] => .ok []
  | node :: rest =>
      match visible query ttlLimit node.2 with
      | .error e => .error e
      | .ok false => keepVisible query ttlLimit rest
      | .ok true => (keepVisible query ttlLimit rest).map (node :: ·)

/-- Text, speaker and observation time of a seed, from a row of its node. -/
def ScoredFact.refresh (fact : ScoredFact) (row : FactNodeRow) : ScoredFact :=
  { fact with
    text := ((row.text.filter Scalar.truthy).bind Scalar.pyStr).getD fact.text
    speaker := ((row.speaker.filter Scalar.truthy).bind Scalar.pyStr).or fact.speaker
    observedAt := (row.observedAt.bind Scalar.pyInt).or fact.observedAt }

def refreshSeeds (seeds : List ScoredFact) (node : RawNode) : List ScoredFact :=
  seeds.map fun fact => if fact.key = node.1 then fact.refresh node.2 else fact

/-- `entity_to_facts`: a fact stands there once per row of it. -/
def entityToFacts (raw kept : List RawNode) (entity : String) : List String :=
  (kept.map Prod.fst).filter fun key => entityKeyOf raw key = some entity

/-- What the expansion hands to the scoring. -/
structure GraphDatum where
  factId : String
  entityKey : Option String
  hopCount : Nat
  pathCount : Nat
  entityFactCount : Nat
deriving DecidableEq

def graphDatum (raw kept : List RawNode) (stats : PathStats) (fact : ScoredFact) : GraphDatum where
  factId := fact.factId
  entityKey := entityKeyOf raw fact.key
  hopCount := ((stats fact.key).map PathStat.hops).getD 1
  pathCount := ((stats fact.key).map PathStat.count).getD 0
  entityFactCount := ((entityKeyOf raw fact.key).map fun entity =>
    (entityToFacts raw kept entity).length).getD 0

namespace Expander

variable (e : Expander) (config : RetrievalConfig)

/-- `entities`. -/
def entities (raw kept : List RawNode) : List String :=
  e.iteration (kept.filterMap fun node => entityKeyOf raw node.1).eraseDups

/-- The path query; whatever it raises is logged and dropped. -/
def pathStats (raw kept : List RawNode) : PathStats :=
  if e.entities raw kept = [] then fun _ => none
  else
    match e.hydra.read (pathCypher (e.entities raw kept) config.graphMaxHops) (.obj []) none with
    | .ok rows => countPaths (entityToFacts raw kept) rows fun _ => none
    | .error _ => fun _ => none

/-- The seeds that stay, with what their rows say. -/
def prune (kept : List RawNode) (seeds : List ScoredFact) : List ScoredFact :=
  (kept.foldl refreshSeeds seeds).filter fun fact => fact.key ∈ kept.map Prod.fst

/-- `_hydradb_graph_expansion`. The temporal bounds are not looked at. -/
def expand (contextId : String) (seeds : List ScoredFact) (_temporalBounds : DateRange)
    (queryEpoch : DateTime) : Except Exn (List ScoredFact × List GraphDatum) :=
  if seeds = [] then .ok ([], [])
  else
    let raw := e.rawNodes contextId seeds
    match keepVisible queryEpoch.timestamp (chatTtlLimit config queryEpoch) raw with
    | .error error => .error error
    | .ok kept =>
        let seeds := prune kept seeds
        if seeds = [] then .ok ([], [])
        else .ok (seeds, seeds.map (graphDatum raw kept (e.pathStats config raw kept)))

end Expander

/-! ### What is retained -/

theorem keepVisible_eq_ok {query ttlLimit : Int} {raw kept : List RawNode}
    (h : keepVisible query ttlLimit raw = .ok kept) :
    ∀ node, node ∈ kept ↔ node ∈ raw ∧ visible query ttlLimit node.2 = .ok true := by
  induction raw generalizing kept with
  | nil =>
      cases h
      simp
  | cons first rest ih =>
      intro node
      unfold keepVisible at h
      split at h
      · cases h
      · rename_i hhere
        rw [ih h node, List.mem_cons]
        constructor
        · rintro ⟨hmem, hvisible⟩
          exact ⟨Or.inr hmem, hvisible⟩
        · rintro ⟨rfl | hmem, hvisible⟩
          · rw [hhere] at hvisible
            cases hvisible
          · exact ⟨hmem, hvisible⟩
      · rename_i hhere
        cases hrest : keepVisible query ttlLimit rest with
        | error e =>
            rw [hrest] at h
            cases h
        | ok others =>
            rw [hrest] at h
            cases h
            rw [List.mem_cons, List.mem_cons, ih hrest node]
            constructor
            · rintro (rfl | ⟨hmem, hvisible⟩)
              · exact ⟨Or.inl rfl, hhere⟩
              · exact ⟨Or.inr hmem, hvisible⟩
            · rintro ⟨rfl | hmem, hvisible⟩
              · exact Or.inl rfl
              · exact Or.inr ⟨hmem, hvisible⟩

theorem keepVisible_total {query ttlLimit : Int} {raw : List RawNode}
    (h : ∀ node ∈ raw, ∃ b, visible query ttlLimit node.2 = .ok b) :
    ∃ kept, keepVisible query ttlLimit raw = .ok kept := by
  induction raw with
  | nil => exact ⟨[], rfl⟩
  | cons node rest ih =>
      obtain ⟨kept, hkept⟩ := ih fun other hother => h other (List.mem_cons_of_mem _ hother)
      obtain ⟨b, hb⟩ := h node List.mem_cons_self
      unfold keepVisible
      rw [hb]
      cases b with
      | false => exact ⟨kept, hkept⟩
      | true => exact ⟨node :: kept, by rw [hkept]; rfl⟩

/-- What the seeding says of a fact for good. -/
def ScoredFact.origin (fact : ScoredFact) : String × Rat := (fact.factId, fact.semanticScore)

theorem factIds_of_origins {facts seeds : List ScoredFact}
    (h : facts.map ScoredFact.origin = seeds.map ScoredFact.origin) :
    facts.map ScoredFact.factId = seeds.map ScoredFact.factId := by
  have hids := congrArg (List.map Prod.fst) h
  rwa [List.map_map, List.map_map] at hids

/-- Refreshing seeds changes no origin. -/
theorem origins_refresh (kept : List RawNode) (seeds : List ScoredFact) :
    (kept.foldl refreshSeeds seeds).map ScoredFact.origin = seeds.map ScoredFact.origin := by
  induction kept generalizing seeds with
  | nil => rfl
  | cons node rest ih =>
      rw [List.foldl_cons, ih, refreshSeeds, List.map_map]
      apply List.map_congr_left
      intro fact _
      dsimp only [Function.comp]
      split <;> rfl

theorem mem_prune {kept : List RawNode} {seeds : List ScoredFact} {factId : String} :
    factId ∈ (Expander.prune kept seeds).map ScoredFact.factId ↔
      factId ∈ seeds.map ScoredFact.factId ∧ ∃ node ∈ kept, node.1 = "fact:" ++ factId := by
  rw [← factIds_of_origins (origins_refresh kept seeds)]
  simp only [Expander.prune, List.mem_map, List.mem_filter, decide_eq_true_eq]
  constructor
  · rintro ⟨fact, ⟨hmem, node, hnode, hkey⟩, rfl⟩
    exact ⟨⟨fact, hmem, rfl⟩, node, hnode, hkey⟩
  · rintro ⟨⟨fact, hmem, rfl⟩, node, hnode, hkey⟩
    exact ⟨fact, ⟨hmem, node, hnode, hkey⟩, rfl⟩

theorem mem_rawNodes {e : Expander} {contextId : String} {seeds : List ScoredFact}
    {node : RawNode} : node ∈ e.rawNodes contextId seeds ↔ ∃ graphId rows,
      (node.1, graphId) ∈ e.graphIds contextId seeds ∧ fetchNode e.hydra graphId = some rows ∧
      node.2 ∈ rows := by
  unfold Expander.rawNodes
  simp only [List.mem_flatMap, (e.completion_perm _).mem_iff, List.mem_map]
  constructor
  · rintro ⟨fetch, ⟨entry, hentry, rfl⟩, row, hrow, rfl⟩
    cases hfetch : fetchNode e.hydra entry.2 with
    | none =>
        rw [hfetch] at hrow
        cases hrow
    | some rows =>
        rw [hfetch] at hrow
        exact ⟨entry.2, rows, hentry, hfetch, hrow⟩
  · rintro ⟨graphId, rows, hentry, hfetch, hrow⟩
    refine ⟨_, ⟨_, hentry, rfl⟩, node.2, ?_, rfl⟩
    rw [hfetch]
    exact hrow

theorem origins_prune (kept : List RawNode) (seeds : List ScoredFact) :
    ((Expander.prune kept seeds).map ScoredFact.origin).Sublist (seeds.map ScoredFact.origin) := by
  rw [← origins_refresh kept seeds]
  exact List.filter_sublist.map _

/-- What a successful expansion kept, and how. -/
theorem Expander.expand_eq_ok {e : Expander} {config : RetrievalConfig} {contextId : String}
    {seeds seeds' : List ScoredFact} {bounds : DateRange} {query : DateTime}
    {data : List GraphDatum}
    (h : e.expand config contextId seeds bounds query = .ok (seeds', data)) :
    seeds = [] ∧ seeds' = [] ∨ ∃ kept, keepVisible query.timestamp (chatTtlLimit config query)
        (e.rawNodes contextId seeds) = .ok kept ∧ seeds' = Expander.prune kept seeds ∧
      (seeds' ≠ [] → data = seeds'.map (graphDatum (e.rawNodes contextId seeds) kept
        (e.pathStats config (e.rawNodes contextId seeds) kept))) := by
  unfold Expander.expand at h
  split at h
  · rename_i hempty
    cases h
    exact Or.inl ⟨hempty, rfl⟩
  · dsimp only at h
    split at h
    · cases h
    · rename_i kept hkept
      refine Or.inr ⟨kept, hkept, ?_⟩
      split at h
      · rename_i hnone
        cases h
        exact ⟨hnone.symm, fun hne => absurd rfl hne⟩
      · cases h
        exact ⟨rfl, fun _ => rfl⟩

/-- **Retention.** A seed stays exactly if a row of its node passes the filter. -/
theorem Expander.expand_retains {e : Expander} {config : RetrievalConfig} {contextId : String}
    {seeds seeds' : List ScoredFact} {bounds : DateRange} {query : DateTime}
    {data : List GraphDatum} (h : e.expand config contextId seeds bounds query = .ok (seeds', data))
    (factId : String) : factId ∈ seeds'.map ScoredFact.factId ↔
      factId ∈ seeds.map ScoredFact.factId ∧ ∃ graphId rows row,
        ("fact:" ++ factId, graphId) ∈ e.graphIds contextId seeds ∧
        fetchNode e.hydra graphId = some rows ∧ row ∈ rows ∧
        visible query.timestamp (chatTtlLimit config query) row = .ok true := by
  rcases Expander.expand_eq_ok h with ⟨hempty, rfl⟩ | ⟨kept, hkept, rfl, -⟩
  · simp [hempty]
  · rw [mem_prune]
    apply and_congr_right
    intro _
    constructor
    · rintro ⟨node, hnode, hkey⟩
      obtain ⟨hraw, hvisible⟩ := (keepVisible_eq_ok hkept node).mp hnode
      obtain ⟨graphId, rows, hid, hfetch, hrow⟩ := mem_rawNodes.mp hraw
      rw [hkey] at hid
      exact ⟨graphId, rows, node.2, hid, hfetch, hrow, hvisible⟩
    · rintro ⟨graphId, rows, row, hid, hfetch, hrow, hvisible⟩
      refine ⟨("fact:" ++ factId, row), (keepVisible_eq_ok hkept _).mpr ⟨?_, hvisible⟩, rfl⟩
      exact mem_rawNodes.mpr ⟨graphId, rows, hid, hfetch, hrow⟩

/-! ### Reading a graph -/

/-- Whatever the expander reads is in the graph, under the ids of the allocator. -/
structure Expander.Sound (e : Expander) (allocator : GraphIdAllocator) (g : Graph) : Prop where
  registry : ∀ {contextId keys rows}, e.registry contextId keys = .ok rows → ∀ row ∈ rows,
    row.1 ∈ keys ∧ row.2 = allocator.allocateGraphId "fact" contextId row.1
  node : ∀ {id rows}, fetchNode e.hydra id = some rows → ∀ row ∈ rows, row ∈ g.nodeRows id

/-- No read fails, and a node that is there is found. -/
structure Expander.Complete (e : Expander) (allocator : GraphIdAllocator) (g : Graph) : Prop
    extends e.Sound allocator g where
  registered : ∀ contextId keys, ∃ rows, e.registry contextId keys = .ok rows ∧ ∀ key ∈ keys,
    g.nodes (allocator.allocateGraphId "fact" contextId key) ≠ none → key ∈ rows.map Prod.fst
  fetched : ∀ id, g.nodes id ≠ none → ∃ rows, fetchNode e.hydra id = some rows ∧ rows ≠ []

section Retained

variable {e : Expander} {allocator : GraphIdAllocator} {g : Graph} {config : RetrievalConfig}
  {contextId : String} {seeds seeds' : List ScoredFact} {bounds : DateRange} {query : DateTime}
  {data : List GraphDatum}

theorem Expander.Sound.graphIds (hs : e.Sound allocator g) {entry : String × Nat}
    (h : entry ∈ e.graphIds contextId seeds) : ∃ fact ∈ seeds, entry.1 = fact.key ∧
      entry.2 = factGraphId allocator contextId fact.factId := by
  unfold Expander.graphIds at h
  split at h
  · rename_i rows hrows
    obtain ⟨hkey, hid⟩ := hs.registry hrows _ (Ordered.mem_of_mem_ofAssignments h)
    obtain ⟨fact, hfact, hsame⟩ := List.mem_map.mp hkey
    refine ⟨fact, hfact, hsame.symm, ?_⟩
    rw [hid, ← hsame]
    rfl
  · cases h

theorem Expander.Sound.graphId_eq (hs : e.Sound allocator g) {factId : String} {graphId : Nat}
    (h : ("fact:" ++ factId, graphId) ∈ e.graphIds contextId seeds) :
    graphId = factGraphId allocator contextId factId := by
  obtain ⟨fact, -, hkey, hid⟩ := hs.graphIds h
  have hsame : factId = fact.factId := (String.append_right_inj _).mp hkey
  rw [hsame]
  exact hid

/-- Where the times of every seeded node can be compared, the expansion returns. -/
theorem Expander.Sound.expand_ok (hs : e.Sound allocator g)
    (hseeds : ∀ fact ∈ seeds, ∀ v, g.nodes (factGraphId allocator contextId fact.factId) = some v →
      ∃ b, visible query.timestamp (chatTtlLimit config query) (v.nodeRow none) = .ok b) :
    ∃ seeds' data, e.expand config contextId seeds bounds query = .ok (seeds', data) := by
  have hraw : ∀ node ∈ e.rawNodes contextId seeds,
      ∃ b, visible query.timestamp (chatTtlLimit config query) node.2 = .ok b := by
    intro node hnode
    obtain ⟨graphId, rows, hid, hfetch, hrow⟩ := mem_rawNodes.mp hnode
    obtain ⟨fact, hfact, -, hgraph⟩ := hs.graphIds hid
    obtain ⟨v, entityKey, hv, hsame⟩ := Graph.mem_nodeRows (hs.node hfetch _ hrow)
    rw [hsame]
    exact hseeds fact hfact v (hgraph ▸ hv)
  obtain ⟨kept, hkept⟩ := keepVisible_total hraw
  unfold Expander.expand
  split
  · exact ⟨_, _, rfl⟩
  · simp only [hkept]
    split <;> exact ⟨_, _, rfl⟩

/-- A retained fact has a node, and its times pass the filter. -/
theorem Expander.Sound.retained (hs : e.Sound allocator g)
    (h : e.expand config contextId seeds bounds query = .ok (seeds', data)) {factId : String}
    (hmem : factId ∈ seeds'.map ScoredFact.factId) :
    ∃ v, g.nodes (factGraphId allocator contextId factId) = some v ∧
      visible query.timestamp (chatTtlLimit config query) (v.nodeRow none) = .ok true := by
  obtain ⟨-, graphId, rows, row, hid, hfetch, hrow, hvisible⟩ :=
    (Expander.expand_retains h factId).mp hmem
  obtain ⟨v, entityKey, hv, rfl⟩ := Graph.mem_nodeRows (hs.node hfetch row hrow)
  rw [hs.graphId_eq hid] at hv
  exact ⟨v, hv, hvisible⟩

/-- With complete reads, a seed with a node stays exactly if its times pass the
filter. -/
theorem Expander.Complete.retained_iff (hc : e.Complete allocator g)
    (h : e.expand config contextId seeds bounds query = .ok (seeds', data)) {factId : String}
    (hseed : factId ∈ seeds.map ScoredFact.factId) {v : Vertex}
    (hv : g.nodes (factGraphId allocator contextId factId) = some v) :
    factId ∈ seeds'.map ScoredFact.factId ↔
      visible query.timestamp (chatTtlLimit config query) (v.nodeRow none) = .ok true := by
  constructor
  · intro hmem
    obtain ⟨v', hv', hvisible⟩ := hc.toSound.retained h hmem
    obtain rfl : v = v' := Option.some.inj (hv.symm.trans hv')
    exact hvisible
  · intro hvisible
    have hnode : g.nodes (factGraphId allocator contextId factId) ≠ none := by simp [hv]
    have hasked : "fact:" ++ factId ∈ seeds.map ScoredFact.key := by
      obtain ⟨fact, hfact, rfl⟩ := List.mem_map.mp hseed
      exact List.mem_map.mpr ⟨fact, hfact, rfl⟩
    obtain ⟨registered, hregistry, hkeys⟩ := hc.registered contextId (seeds.map ScoredFact.key)
    have hkey : "fact:" ++ factId ∈ (e.graphIds contextId seeds).map Prod.fst := by
      rw [Expander.graphIds, hregistry]
      exact Ordered.mem_keys_ofAssignments.mpr (hkeys _ hasked hnode)
    obtain ⟨⟨key, graphId⟩, hentry, rfl⟩ := List.mem_map.mp hkey
    obtain rfl := hc.toSound.graphId_eq hentry
    obtain ⟨rows, hfetch, hrows⟩ := hc.fetched _ hnode
    obtain ⟨row, hrow⟩ := List.exists_mem_of_ne_nil rows hrows
    obtain ⟨v', entityKey, hv', rfl⟩ := Graph.mem_nodeRows (hc.node hfetch row hrow)
    obtain rfl : v = v' := Option.some.inj (hv.symm.trans hv')
    exact (Expander.expand_retains h factId).mpr
      ⟨hseed, _, rows, _, hentry, hfetch, hrow, hvisible⟩

end Retained

/-! ### An endpoint of a graph -/

theorem nodeCypher_injective {m n : Nat} (h : nodeCypher m = nodeCypher n) : m = n := by
  have hrepr : m.repr = n.repr :=
    (String.append_left_inj _).mp ((String.append_right_inj _).mp h)
  have hdigits : Nat.toDigits 10 m = Nat.toDigits 10 n := by
    rw [← Nat.toList_repr, ← Nat.toList_repr, hrepr]
  rw [← Nat.ofDigitChars_ten_toDigits (n := m), hdigits, Nat.ofDigitChars_ten_toDigits]

/-- The path query is no node query. -/
theorem nodeCypher_ne_pathCypher (id : Nat) (entities : List String) (maxHops : Int) :
    nodeCypher id ≠ pathCypher entities maxHops := by
  have hfirst : ∀ {a : String} (b : String) {c : Char}, a.toList[17]? = some c →
      (a ++ b).toList[17]? = some c := by
    intro a b c h
    have hlength := (List.getElem?_eq_some_iff.mp h).1
    rw [String.toList_append, List.getElem?_append_left hlength, h]
  intro h
  have hnode : (nodeCypher id).toList[17]? = some 'M' := by
    unfold nodeCypher
    apply hfirst
    decide +kernel
  have hpath : (pathCypher entities maxHops).toList[17]? = some 'C' := by
    unfold pathCypher
    apply hfirst
    decide +kernel
  rw [h, hpath] at hnode
  cases hnode

open Classical in
/-- An endpoint that knows the node query, in pages of `pageSize` rows. -/
noncomputable def Graph.endpoint (g : Graph) (pageSize : Nat) : QueryService where
  defaultPageSize := pageSize
  page query _ cursor pageSize :=
    if h : ∃ id, nodeCypher id = query then
      paginate nodeColumns ((g.nodeRows h.choose).map FactNodeRow.cells) cursor pageSize
    else .error (.runtimeError "HydraDB returned HTTP 400")

/-- The expander over that endpoint and a registry without gaps. -/
noncomputable def Graph.expander (g : Graph) (pageSize : Nat) (allocator : GraphIdAllocator) :
    Expander where
  hydra := ⟨"cell-0", (g.endpoint pageSize).respond⟩
  registry contextId keys :=
    .ok (keys.map fun key => (key, allocator.allocateGraphId "fact" contextId key))
  completion := id
  completion_perm := List.Perm.refl
  iteration := id
  iteration_perm := List.Perm.refl

/-- The first page of a node query. -/
theorem Graph.endpoint_page (g : Graph) {pageSize : Nat} (hsize : 0 < pageSize) (id : Nat) :
    ∃ next, (g.endpoint pageSize).page (nodeCypher id) (.obj []) none pageSize =
      .ok ⟨nodeColumns, ((g.nodeRows id).take pageSize).map FactNodeRow.cells, next⟩ := by
  have hfound : ∃ id', nodeCypher id' = nodeCypher id := ⟨id, rfl⟩
  have hchosen : hfound.choose = id := nodeCypher_injective hfound.choose_spec
  have hpage : (g.endpoint pageSize).page (nodeCypher id) (.obj []) none pageSize =
      paginate nodeColumns ((g.nodeRows id).map FactNodeRow.cells) none pageSize := by
    simp only [Graph.endpoint, dif_pos hfound, hchosen]
  rw [paginate_eq hsize (Nat.zero_le _), Option.getD_none, List.drop_zero, ← List.map_take] at hpage
  exact ⟨_, hpage⟩

theorem Graph.fetchNode_endpoint (g : Graph) {pageSize : Nat} (hsize : 0 < pageSize) (id : Nat) :
    fetchNode ⟨"cell-0", (g.endpoint pageSize).respond⟩ id =
      some ((g.nodeRows id).take pageSize) := by
  obtain ⟨next, hpage⟩ := g.endpoint_page hsize id
  exact fetchNode_eq hpage

theorem Graph.expander_complete (g : Graph) {pageSize : Nat} (hsize : 0 < pageSize)
    (allocator : GraphIdAllocator) : (g.expander pageSize allocator).Complete allocator g where
  registry := by
    intro contextId keys rows h row hrow
    cases h
    obtain ⟨key, hkey, rfl⟩ := List.mem_map.mp hrow
    exact ⟨hkey, rfl⟩
  node := by
    intro id rows h row hrow
    have hfetch := g.fetchNode_endpoint hsize id
    cases h.symm.trans hfetch
    exact List.mem_of_mem_take hrow
  registered := by
    intro contextId keys
    refine ⟨_, rfl, fun key hkey _ => ?_⟩
    rw [List.map_map]
    exact List.mem_map.mpr ⟨key, hkey, rfl⟩
  fetched := by
    intro id hnode
    obtain ⟨v, hv⟩ := Option.ne_none_iff_exists'.mp hnode
    refine ⟨_, g.fetchNode_endpoint hsize id, ?_⟩
    intro hnil
    rcases List.take_eq_nil_iff.mp hnil with hzero | hnone
    · omega
    · exact Graph.nodeRows_ne_nil hv hnone

end ContextMemory
