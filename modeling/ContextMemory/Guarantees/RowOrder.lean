/-
What the expansion says of the graph.

A fact that is about several entities has a row for each, and the rows are folded into one entity,
the one of the last row. So the order of the rows decides, unless they all name the same entity
(`row_order_irrelevant_iff`).
-/

import ContextMemory.Retrieval.Fusion
import ContextMemory.Guarantees.Scheduling

namespace ContextMemory

/-! ### The entities of a fact -/

/-- The entity that a row names for a fact. -/
def nameIn (factKey : String) (node : RawNode) : Option String :=
  match node.2.entityKey with
  | some (.str key) => if node.1 = factKey ∧ key ≠ "" then some key else none
  | _ => none

/-- The entities that the rows of a fact name, in their order. -/
def namesOf (raw : List RawNode) (factKey : String) : List String := raw.filterMap (nameIn factKey)

/-- The rows of a fact name one entity at most. -/
def OneEntity (raw : List RawNode) (factKey : String) : Prop :=
  ∀ a ∈ namesOf raw factKey, ∀ b ∈ namesOf raw factKey, a = b

section Names

variable {raw raw' : List RawNode} {factKey : String}

theorem entityKeyOf_eq_getLast? (raw : List RawNode) (factKey : String) :
    entityKeyOf raw factKey = (namesOf raw factKey).getLast? := by
  have hfind : entityKeyOf raw factKey = raw.reverse.findSome? (nameIn factKey) := rfl
  rw [hfind, ← List.head?_filterMap, List.filterMap_reverse, List.head?_reverse]
  rfl

/-- With one entity at most, the order of the rows does not matter. -/
theorem OneEntity.entityKeyOf (h : OneEntity raw factKey) (hperm : raw'.Perm raw) :
    entityKeyOf raw' factKey = entityKeyOf raw factKey := by
  have hnames : (namesOf raw' factKey).Perm (namesOf raw factKey) := hperm.filterMap _
  rw [entityKeyOf_eq_getLast?, entityKeyOf_eq_getLast?]
  cases hraw : namesOf raw factKey with
  | nil =>
      rw [hraw] at hnames
      rw [hnames.eq_nil]
  | cons a rest =>
      have hsame : namesOf raw factKey = List.replicate (namesOf raw factKey).length a :=
        List.eq_replicate_of_mem fun b hb => h b hb a (hraw ▸ List.mem_cons_self)
      rw [hsame] at hnames
      rw [← hraw, List.perm_replicate.mp hnames, ← hsame]

theorem nameIn_of_ne {node : RawNode} (h : node.1 ≠ factKey) : nameIn factKey node = none := by
  unfold nameIn
  split
  · exact if_neg fun hand => h hand.1
  · rfl

theorem namesOf_append (before after : List RawNode) :
    namesOf (before ++ after) factKey = namesOf before factKey ++ namesOf after factKey :=
  List.filterMap_append

theorem namesOf_of_not_mem (h : factKey ∉ raw.map Prod.fst) : namesOf raw factKey = [] := by
  refine List.filterMap_eq_nil_iff.mpr fun node hnode => nameIn_of_ne ?_
  rintro rfl
  exact h (List.mem_map_of_mem hnode)

/-- The rows of one fact. -/
def blockOf (factKey : String) (rows : List FactNodeRow) : List RawNode :=
  rows.map fun row => (factKey, row)

/-- Some order of the rows puts any named entity last. -/
theorem exists_last {rows : List FactNodeRow} {name : String}
    (h : name ∈ namesOf (blockOf factKey rows) factKey) :
    ∃ rows', rows'.Perm rows ∧ ∃ names, namesOf (blockOf factKey rows') factKey = names ++ [name] := by
  obtain ⟨node, hnode, hname⟩ := List.mem_filterMap.mp h
  obtain ⟨row, hrow, rfl⟩ := List.mem_map.mp hnode
  refine ⟨rows.erase row ++ [row], ?_, namesOf (blockOf factKey (rows.erase row)) factKey, ?_⟩
  · exact List.perm_append_comm.trans (List.perm_cons_erase hrow).symm
  · rw [blockOf, List.map_append, namesOf_append]
    refine congrArg _ ?_
    simp only [namesOf, List.map_cons, List.map_nil, List.filterMap_cons, hname, List.filterMap_nil]

end Names

/-! ### Rows in another order -/

section Blocks

variable {e : Expander} {contextId : String} {seeds : List ScoredFact}

/-- The merged rows of one fact stand together. -/
theorem exists_block {factKey : String}
    (h : factKey ∈ (e.rawNodes contextId seeds).map Prod.fst) :
    ∃ before rows after, e.rawNodes contextId seeds = before ++ blockOf factKey rows ++ after ∧
      factKey ∉ before.map Prod.fst ∧ factKey ∉ after.map Prod.fst := by
  obtain ⟨node, hnode, rfl⟩ := List.mem_map.mp h
  unfold Expander.rawNodes at hnode ⊢
  dsimp only at hnode ⊢
  generalize hfetched : ((e.graphIds contextId seeds).map fun entry =>
    (entry.1, fetchNode e.hydra entry.2)) = fetched at hnode ⊢
  have hnodup : ((e.completion fetched).map Prod.fst).Nodup := by
    rw [((e.completion_perm fetched).map Prod.fst).nodup_iff, ← hfetched, List.map_map]
    exact graphIds_nodup
  obtain ⟨fetch, hfetch, hin⟩ := List.mem_flatMap.mp hnode
  obtain ⟨row, -, rfl⟩ := List.mem_map.mp hin
  obtain ⟨before, after, hsplit⟩ := List.append_of_mem hfetch
  rw [hsplit, List.map_append, List.map_cons] at hnodup
  obtain ⟨-, htail, hdisjoint⟩ := List.nodup_append.mp hnodup
  have hkeys : ∀ fetches : List (String × Option (List FactNodeRow)),
      fetch.1 ∉ fetches.map Prod.fst → fetch.1 ∉ (fetches.flatMap fun fetch =>
        (fetch.2.getD []).map fun row => (fetch.1, row)).map Prod.fst := by
    intro fetches hnot hmem
    obtain ⟨node, hnode, hkey⟩ := List.mem_map.mp hmem
    obtain ⟨other, hother, hin⟩ := List.mem_flatMap.mp hnode
    obtain ⟨row, -, rfl⟩ := List.mem_map.mp hin
    exact hnot (hkey ▸ List.mem_map_of_mem hother)
  refine ⟨_, fetch.2.getD [], _, ?_, hkeys before ?_, hkeys after (List.nodup_cons.mp htail).1⟩
  · rw [hsplit, List.flatMap_append, List.flatMap_cons, ← List.append_assoc]
    rfl
  · exact fun hmem => hdisjoint _ hmem _ List.mem_cons_self rfl

end Blocks

section Reordered

variable {before after : List RawNode} {factKey : String} {rows rows' : List FactNodeRow}

theorem block_perm (hperm : rows'.Perm rows) :
    (before ++ blockOf factKey rows' ++ after).Perm (before ++ blockOf factKey rows ++ after) :=
  ((hperm.map _).append_left before).append_right after

/-- The keys of the rows that pass stay in their order. -/
theorem keys_filter_block (hperm : rows'.Perm rows) (p : RawNode → Bool) :
    ((before ++ blockOf factKey rows' ++ after).filter p).map Prod.fst =
      ((before ++ blockOf factKey rows ++ after).filter p).map Prod.fst := by
  have hblock : ∀ rows : List FactNodeRow, ((blockOf factKey rows).filter p).map Prod.fst =
      List.replicate ((blockOf factKey rows).filter p).length factKey := by
    intro rows
    refine List.eq_replicate_iff.mpr ⟨List.length_map _, fun key hkey => ?_⟩
    obtain ⟨node, hnode, rfl⟩ := List.mem_map.mp hkey
    obtain ⟨row, -, rfl⟩ := List.mem_map.mp (List.mem_filter.mp hnode).1
    rfl
  have hlength : ((blockOf factKey rows').filter p).length =
      ((blockOf factKey rows).filter p).length := ((hperm.map _).filter p).length_eq
  simp only [List.filter_append, List.map_append, hblock, hlength]

end Reordered

section Expanded

variable {e : Expander} {config : RetrievalConfig} {raw raw' kept kept' : List RawNode}
  {seeds facts : List ScoredFact} {query : DateTime} {data : List GraphDatum}

/-- What the rows became. -/
theorem expandRows_eq_ok (h : e.expandRows config raw seeds query = .ok (facts, data)) :
    ∃ kept, keepVisible query.timestamp (chatTtlLimit config query) raw = .ok kept ∧
      facts = Expander.prune kept seeds ∧
      data = facts.map (graphDatum raw kept (e.pathStats config raw kept)) := by
  unfold Expander.expandRows at h
  split at h
  · cases h
  · rename_i kept hkept
    dsimp only at h
    split at h
    · rename_i hnone
      cases h
      exact ⟨kept, hkept, hnone.symm, rfl⟩
    · cases h
      exact ⟨kept, hkept, rfl, rfl⟩

theorem expandRows_of_kept
    (hkept : keepVisible query.timestamp (chatTtlLimit config query) raw = .ok kept) :
    e.expandRows config raw seeds query = .ok (Expander.prune kept seeds,
      (Expander.prune kept seeds).map (graphDatum raw kept (e.pathStats config raw kept))) := by
  unfold Expander.expandRows
  rw [hkept]
  dsimp only
  split
  · rename_i hnone
    rw [hnone]
    rfl
  · rfl

/-- Which seeds stay depends on the keys of the rows that pass. -/
theorem bares_prune_eq (kept : List RawNode) (seeds : List ScoredFact) :
    (Expander.prune kept seeds).map ScoredFact.bare =
      (seeds.map ScoredFact.bare).filter fun fact => fact.key ∈ kept.map Prod.fst := by
  rw [← bares_refresh kept seeds, List.filter_map]
  rfl

theorem key_mem_of_mem_prune {fact : ScoredFact} (h : fact ∈ Expander.prune kept seeds) :
    fact.key ∈ kept.map Prod.fst := by
  simpa using (List.mem_filter.mp h).2

section Same

variable (hkeys : kept'.map Prod.fst = kept.map Prod.fst)
  (hentities : ∀ key ∈ kept.map Prod.fst, entityKeyOf raw' key = entityKeyOf raw key)

include hkeys hentities

/-- The facts of an entity, where the retained ones keep theirs. -/
theorem entityToFacts_congr : entityToFacts raw' kept' = entityToFacts raw kept := by
  funext entity
  unfold entityToFacts
  rw [hkeys]
  exact List.filter_congr fun key hkey => by rw [hentities key hkey]

theorem pathStats_congr : e.pathStats config raw' kept' = e.pathStats config raw kept := by
  have hsame : e.entities raw' kept' = e.entities raw kept := by
    have hkept : ∀ raw kept : List RawNode, (kept.filterMap fun node => entityKeyOf raw node.1) =
        (kept.map Prod.fst).filterMap (entityKeyOf raw) := by
      intro raw kept
      rw [List.filterMap_map]
      rfl
    unfold Expander.entities
    rw [hkept, hkept, hkeys]
    exact congrArg (fun names => e.iteration names.eraseDups)
      (List.filterMap_congr fun key hkey => hentities key hkey)
  unfold Expander.pathStats
  rw [hsame, entityToFacts_congr hkeys hentities]

theorem graphDatum_congr {stats : PathStats} {fact : ScoredFact}
    (hfact : fact.key ∈ kept.map Prod.fst) :
    graphDatum raw' kept' stats fact = graphDatum raw kept stats fact := by
  unfold graphDatum
  rw [hentities _ hfact, entityToFacts_congr hkeys hentities]

end Same

/-- **Rows in another order.** Where the retained facts keep their entities, the
data about them is the same, and so is what is ranked. -/
theorem expandRows_reordered (hperm : raw'.Perm raw)
    (hkept : keepVisible query.timestamp (chatTtlLimit config query) raw = .ok kept)
    (hkeys : (raw'.filter fun node => visible query.timestamp (chatTtlLimit config query) node.2 =
        .ok true).map Prod.fst = kept.map Prod.fst)
    (hentities : ∀ key ∈ kept.map Prod.fst, entityKeyOf raw' key = entityKeyOf raw key)
    (h : e.expandRows config raw seeds query = .ok (facts, data)) :
    ∃ facts', e.expandRows config raw' seeds query = .ok (facts', data) ∧
      facts'.map ScoredFact.bare = facts.map ScoredFact.bare := by
  obtain ⟨kept', hkept'⟩ : ∃ kept', keepVisible query.timestamp (chatTtlLimit config query) raw' =
      .ok kept' := keepVisible_returns.mpr fun node hnode =>
    keepVisible_returns.mp ⟨kept, hkept⟩ node (hperm.mem_iff.mp hnode)
  rw [← keepVisible_eq_filter hkept'] at hkeys
  rw [expandRows_of_kept hkept] at h
  cases h
  have hbares : (Expander.prune kept' seeds).map ScoredFact.bare =
      (Expander.prune kept seeds).map ScoredFact.bare := by
    rw [bares_prune_eq, bares_prune_eq, hkeys]
  refine ⟨Expander.prune kept' seeds, ?_, hbares⟩
  rw [expandRows_of_kept hkept', pathStats_congr hkeys hentities]
  generalize e.pathStats config raw kept = stats
  have hbare : ∀ (raw kept : List RawNode) (facts : List ScoredFact),
      facts.map (graphDatum raw kept stats) =
        (facts.map ScoredFact.bare).map (graphDatum raw kept stats) := by
    intro raw kept facts
    rw [List.map_map]
    rfl
  refine congrArg (fun data => Except.ok (_, data)) ?_
  rw [hbare, hbares, ← hbare]
  exact List.map_congr_left fun fact hfact =>
    graphDatum_congr hkeys hentities (key_mem_of_mem_prune hfact)

end Expanded

/-! ### When the order matters -/

/-- Whatever the order of the rows of one fact, the data about every fact is the same, and so are
the boosts and the ranking that are made of it. -/
def RowOrderIrrelevant (e : Expander) (config : RetrievalConfig) (raw : List RawNode)
    (seeds : List ScoredFact) (query : DateTime) (facts : List ScoredFact)
    (data : List GraphDatum) : Prop :=
  ∀ (before after : List RawNode) (factKey : String) (rows rows' : List FactNodeRow),
    raw = before ++ blockOf factKey rows ++ after → rows'.Perm rows →
    ∃ facts', e.expandRows config (before ++ blockOf factKey rows' ++ after) seeds query =
        .ok (facts', data) ∧
      ∀ (engine : RetrievalEngine) (question : String) (expanded : QueryRewriterOutput),
        (engine.rank question facts' data expanded).map (List.map ScoredFact.bare) =
          (engine.rank question facts data expanded).map (List.map ScoredFact.bare)

section Order

variable {e : Expander} {config : RetrievalConfig} {contextId : String}
  {seeds facts : List ScoredFact} {query : DateTime} {data : List GraphDatum}

/-- A key of the rows is the key of a seed. -/
theorem Expander.Answers.mem_keys (h : e.Answers) {key : String}
    (hkey : key ∈ (e.rawNodes contextId seeds).map Prod.fst) : key ∈ seeds.map ScoredFact.key := by
  obtain ⟨node, hnode, rfl⟩ := List.mem_map.mp hkey
  obtain ⟨graphId, rows, hid, -, -⟩ := mem_rawNodes.mp hnode
  exact h.graphIds hid

/-- A key of the rows that pass is the key of a retained fact. -/
theorem Expander.Answers.mem_prune (h : e.Answers) {kept : List RawNode}
    (hkept : keepVisible query.timestamp (chatTtlLimit config query)
      (e.rawNodes contextId seeds) = .ok kept) {key : String} (hkey : key ∈ kept.map Prod.fst) :
    ∃ fact ∈ Expander.prune kept seeds, fact.key = key := by
  obtain ⟨node, hnode, rfl⟩ := List.mem_map.mp hkey
  have hraw := ((keepVisible_eq_ok hkept node).mp hnode).1
  obtain ⟨seed, hseed, hsame⟩ := List.mem_map.mp (h.mem_keys (List.mem_map_of_mem hraw))
  have hid : seed.factId ∈ (Expander.prune kept seeds).map ScoredFact.factId :=
    ContextMemory.mem_prune.mpr ⟨List.mem_map_of_mem hseed, node, hnode, hsame.symm⟩
  obtain ⟨fact, hfact, hfactId⟩ := List.mem_map.mp hid
  refine ⟨fact, hfact, ?_⟩
  rw [ScoredFact.key, hfactId]
  exact hsame

theorem rowOrderIrrelevant_of_one (hanswers : e.Answers)
    (h : e.expandRows config (e.rawNodes contextId seeds) seeds query = .ok (facts, data))
    (hone : ∀ fact ∈ facts, OneEntity (e.rawNodes contextId seeds) fact.key) :
    RowOrderIrrelevant e config (e.rawNodes contextId seeds) seeds query facts data := by
  intro before after factKey rows rows' hraw hperm
  obtain ⟨kept, hkept, rfl, -⟩ := expandRows_eq_ok h
  have hall : (before ++ blockOf factKey rows' ++ after).Perm (e.rawNodes contextId seeds) := by
    rw [hraw]
    exact block_perm hperm
  obtain ⟨facts', hexpand, hbares⟩ := expandRows_reordered hall hkept
    (by rw [keys_filter_block hperm, ← hraw, ← keepVisible_eq_filter hkept])
    (fun key hkey => by
      obtain ⟨fact, hfact, rfl⟩ := hanswers.mem_prune hkept hkey
      exact (hone fact hfact).entityKeyOf hall) h
  refine ⟨facts', hexpand, fun engine question expanded => ?_⟩
  rw [← engine.rank_bare, ← engine.rank_bare, hbares]

/-- Two entities are told apart by their order. -/
theorem one_of_rowOrderIrrelevant
    (h : e.expandRows config (e.rawNodes contextId seeds) seeds query = .ok (facts, data))
    (horder : RowOrderIrrelevant e config (e.rawNodes contextId seeds) seeds query facts data) :
    ∀ fact ∈ facts, OneEntity (e.rawNodes contextId seeds) fact.key := by
  intro fact hfact a ha b hb
  -- both are the entity of the last row, once their rows are put last
  suffices hlast : ∀ name ∈ namesOf (e.rawNodes contextId seeds) fact.key,
      entityKeyOf (e.rawNodes contextId seeds) fact.key = some name by
    exact Option.some.inj ((hlast a ha).symm.trans (hlast b hb))
  intro name hname
  obtain ⟨kept, hkept, rfl, hdata⟩ := expandRows_eq_ok h
  have hin : fact.key ∈ (e.rawNodes contextId seeds).map Prod.fst := by
    by_contra hnot
    rw [namesOf_of_not_mem hnot] at hname
    cases hname
  obtain ⟨before, rows, after, hraw, hbefore, hafter⟩ := exists_block hin
  have hblock : ∀ rows, namesOf (before ++ blockOf fact.key rows ++ after) fact.key =
      namesOf (blockOf fact.key rows) fact.key := by
    intro rows
    rw [namesOf_append, namesOf_append, namesOf_of_not_mem hbefore, namesOf_of_not_mem hafter,
      List.nil_append, List.append_nil]
  rw [hraw, hblock] at hname
  obtain ⟨rows', hperm, names, hnames⟩ := exists_last hname
  obtain ⟨facts', hexpand, -⟩ := horder before after fact.key rows rows' hraw hperm
  obtain ⟨kept', -, -, hdata'⟩ := expandRows_eq_ok hexpand
  have hdatum : (fact.factId, entityKeyOf (e.rawNodes contextId seeds) fact.key) ∈
      data.map fun datum => (datum.factId, datum.entityKey) := by
    rw [hdata, List.map_map]
    exact List.mem_map.mpr ⟨fact, hfact, rfl⟩
  rw [hdata', List.map_map] at hdatum
  obtain ⟨fact', -, hsame⟩ := List.mem_map.mp hdatum
  obtain ⟨hid, hentity⟩ := Prod.mk.inj hsame
  have hkey : fact'.key = fact.key := congrArg ("fact:" ++ ·) hid
  change entityKeyOf _ fact'.key = _ at hentity
  rw [← hentity, hkey, entityKeyOf_eq_getLast?, hblock, hnames, List.getLast?_concat]

/-- The expansion is what is made of the fetched rows; without seeds there are
none. -/
theorem Expander.Answers.expand_eq (h : e.Answers) (bounds : DateRange) :
    e.expand config contextId seeds bounds query =
      e.expandRows config (e.rawNodes contextId seeds) seeds query := by
  rw [Expander.expand_eq]
  split
  · rename_i hnone
    subst hnone
    have hraw : e.rawNodes contextId [] = [] := by
      refine List.eq_nil_iff_forall_not_mem.mpr fun node hnode => ?_
      have hkey := h.mem_keys (List.mem_map_of_mem hnode)
      cases hkey
    rw [hraw]
    rfl
  · rfl

end Order

/-- Row order: permuting the rows of one fact changes neither the data about a
fact nor a boost nor the ranking, exactly if the rows of every retained fact
name one entity at most. The row that comes last gives a fact its entity, and
the counts and the boost are looked up by that entity. -/
theorem row_order_irrelevant_iff (e : Expander) (hanswers : e.Answers) (config : RetrievalConfig)
    (contextId : String) (seeds : List ScoredFact) (bounds : DateRange) (query : DateTime)
    {facts : List ScoredFact} {data : List GraphDatum}
    (h : e.expand config contextId seeds bounds query = .ok (facts, data)) :
    RowOrderIrrelevant e config (e.rawNodes contextId seeds) seeds query facts data ↔
      ∀ fact ∈ facts, OneEntity (e.rawNodes contextId seeds) fact.key := by
  rw [hanswers.expand_eq] at h
  exact ⟨one_of_rowOrderIrrelevant h, rowOrderIrrelevant_of_one hanswers h⟩

/-! ### A trip to Boston -/

/-- A fact about the entities with the given names. -/
def aboutGraph (names : List String) : Graph where
  nodes id :=
    if h : id < names.length then
      some ⟨{.entity}, fun key => if key = "logical_key" then some (.str names[id]) else none⟩
    else some ⟨{.fact}, fun _ => none⟩
  edges := (List.range names.length).map fun id => ⟨.about, bostonFact, id, id, fun _ => none⟩
  edges_nodup := by
    rw [List.map_map]
    refine List.nodup_range.map fun a b h => ?_
    exact congrArg EdgeKey.destination h

def tripSeed : List ScoredFact := [{ factId := "boston", text := "" }]

/-- A row without times. -/
def aboutRow (name : String) : FactNodeRow :=
  ⟨none, none, none, none, none, none, none, some (.str name)⟩

noncomputable def aboutExpander (names : List String) : Expander :=
  (aboutGraph names).expander 256 numberingAllocator

theorem aboutExpander_answers (names : List String) : (aboutExpander names).Answers := by
  intro contextId keys rows h row hrow
  cases h
  obtain ⟨key, hkey, rfl⟩ := List.mem_map.mp hrow
  exact hkey

theorem aboutExpander_rawNodes {names : List String}
    (h : (aboutGraph names).nodeRows bostonFact = names.map aboutRow) (hshort : names.length ≤ 256) :
    (aboutExpander names).rawNodes "chat" tripSeed = blockOf "fact:boston" (names.map aboutRow) := by
  have hids : (aboutExpander names).graphIds "chat" tripSeed = [("fact:boston", bostonFact)] := rfl
  have hfetch := (aboutGraph names).fetchNode_endpoint (by decide : 0 < 256) bostonFact
  rw [h, List.take_of_length_le (by rwa [List.length_map])] at hfetch
  unfold Expander.rawNodes
  rw [hids]
  simp only [List.map_cons, List.map_nil]
  rw [show (aboutExpander names).hydra = ⟨"cell-0", ((aboutGraph names).endpoint 256).respond⟩
    from rfl, hfetch]
  show [("fact:boston", some (names.map aboutRow))].flatMap _ = _
  rw [List.flatMap_cons, List.flatMap_nil, List.append_nil]
  rfl

theorem keepVisible_about (names : List String) (query ttlLimit : Int) :
    keepVisible query ttlLimit (blockOf "fact:boston" (names.map aboutRow)) =
      .ok (blockOf "fact:boston" (names.map aboutRow)) := by
  induction names with
  | nil => rfl
  | cons name rest ih =>
      have hrest : keepVisible query ttlLimit (blockOf "fact:boston" ((name :: rest).map aboutRow)) =
          (keepVisible query ttlLimit (blockOf "fact:boston" (rest.map aboutRow))).map
            (("fact:boston", aboutRow name) :: ·) := rfl
      rw [hrest, ih]
      rfl

/-- The expansion of the fact about these entities. -/
theorem expand_about {names : List String} (hne : names ≠ [])
    (h : (aboutGraph names).nodeRows bostonFact = names.map aboutRow) (hshort : names.length ≤ 256)
    (config : RetrievalConfig) (bounds : DateRange) (query : DateTime) : ∃ facts data,
      (aboutExpander names).expand config "chat" tripSeed bounds query = .ok (facts, data) ∧
      ∃ fact ∈ facts, fact.key = "fact:boston" := by
  have hkept := keepVisible_about names query.timestamp (chatTtlLimit config query)
  rw [← aboutExpander_rawNodes h hshort] at hkept
  refine ⟨_, _, ((aboutExpander_answers names).expand_eq bounds).trans (expandRows_of_kept hkept), ?_⟩
  obtain ⟨name, rest, rfl⟩ := List.exists_cons_of_ne_nil hne
  refine (aboutExpander_answers _).mem_prune hkept ?_
  rw [aboutExpander_rawNodes h hshort]
  exact List.mem_cons_self

/-- A fact about Max and Boston: with its rows the other way round, its entity
is another one. -/
theorem row_order_matters : ¬∀ (e : Expander) (config : RetrievalConfig) (contextId : String)
    (seeds facts : List ScoredFact) (bounds : DateRange) (query : DateTime) (data : List GraphDatum),
    e.Answers → e.expand config contextId seeds bounds query = .ok (facts, data) →
    RowOrderIrrelevant e config (e.rawNodes contextId seeds) seeds query facts data := by
  intro hall
  have hrows : (aboutGraph ["entity:max", "entity:boston"]).nodeRows bostonFact =
      ["entity:max", "entity:boston"].map aboutRow := by
    decide +kernel
  obtain ⟨facts, data, hexpand, fact, hfact, hkey⟩ := expand_about (by decide) hrows (by decide) {} {} ten
  have horder := hall _ {} "chat" tripSeed facts {} ten data (aboutExpander_answers _) hexpand
  rw [(aboutExpander_answers _).expand_eq] at hexpand
  have hone := one_of_rowOrderIrrelevant hexpand horder fact hfact
  rw [hkey, aboutExpander_rawNodes hrows (by decide)] at hone
  exact absurd (hone "entity:max" (by decide) "entity:boston" (by decide)) (by decide)

/-- A fact about Max alone. -/
theorem row_order_irrelevant_iff_max : ∃ facts data,
    (aboutExpander ["entity:max"]).expand {} "chat" tripSeed {} ten = .ok (facts, data) ∧
      facts ≠ [] ∧ RowOrderIrrelevant (aboutExpander ["entity:max"]) {}
        ((aboutExpander ["entity:max"]).rawNodes "chat" tripSeed) tripSeed ten facts data := by
  have hrows : (aboutGraph ["entity:max"]).nodeRows bostonFact = ["entity:max"].map aboutRow := by
    decide +kernel
  obtain ⟨facts, data, hexpand, fact, hfact, hkey⟩ := expand_about (by decide) hrows (by decide) {} {} ten
  refine ⟨facts, data, hexpand, List.ne_nil_of_mem hfact,
    (row_order_irrelevant_iff _ (aboutExpander_answers _) {} "chat" tripSeed {} ten hexpand).mpr ?_⟩
  intro other _ a ha b hb
  rw [aboutExpander_rawNodes hrows (by decide)] at ha hb
  have hmax : ∀ name ∈ namesOf (blockOf "fact:boston" (["entity:max"].map aboutRow)) other.key,
      name = "entity:max" := by
    intro name hname
    obtain ⟨node, hnode, hin⟩ := List.mem_filterMap.mp hname
    rw [List.mem_singleton.mp hnode] at hin
    simp only [nameIn, aboutRow] at hin
    split at hin
    · exact (Option.some.inj hin).symm
    · cases hin
  rw [hmax a ha, hmax b hb]

end ContextMemory
