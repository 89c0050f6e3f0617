/-
Concurrent expansion.

The nodes of the seeds are fetched by a pool of workers and their rows are merged as the fetches
complete. The rows of one fact stay together and in order, so the merged rows differ from those of
fetches made one after another only in the order of the facts (`Ordered.SameByKey`), and nothing
that the expansion returns depends on that order (`concurrent_expansion_eq_sequential`).
-/

import ContextMemory.Lib.Fallible
import ContextMemory.Ingestion.Fixture
import ContextMemory.Retrieval.Expansion

namespace ContextMemory

namespace Expander

variable (e : Expander) (config : RetrievalConfig)

/-- The expansion with a pool of `workers` threads; a pool without a thread is refused. -/
def expandPooled (workers : Int) (contextId : String) (seeds : List ScoredFact)
    (temporalBounds : DateRange) (queryEpoch : DateTime) :
    Except Exn (List ScoredFact × List GraphDatum) :=
  if seeds = [] then .ok ([], [])
  else if workers ≤ 0 then .error (.valueError "max_workers must be greater than 0")
  else e.expand config contextId seeds temporalBounds queryEpoch

/-- The rows of one seed, if the registry maps its key and the fetch succeeds. -/
def rowsOf (contextId : String) (seeds : List ScoredFact) (fact : ScoredFact) :
    List FactNodeRow :=
  match Ordered.find Prod.fst fact.key (e.graphIds contextId seeds) with
  | none => []
  | some entry => (fetchNode e.hydra entry.2).getD []

/-- The rows of the seeds, fetched one after another. -/
def rowsInOrder (contextId : String) (seeds : List ScoredFact) : List RawNode :=
  seeds.flatMap fun fact => (e.rowsOf contextId seeds fact).map fun row => (fact.key, row)

/-- What is made of the fetched rows. -/
def expandRows (raw : List RawNode) (seeds : List ScoredFact) (queryEpoch : DateTime) :
    Except Exn (List ScoredFact × List GraphDatum) :=
  match keepVisible queryEpoch.timestamp (chatTtlLimit config queryEpoch) raw with
  | .error error => .error error
  | .ok kept =>
      let seeds := prune kept seeds
      if seeds = [] then .ok ([], [])
      else .ok (seeds, seeds.map (graphDatum raw kept (e.pathStats config raw kept)))

def expandSequential (contextId : String) (seeds : List ScoredFact) (queryEpoch : DateTime) :
    Except Exn (List ScoredFact × List GraphDatum) :=
  if seeds = [] then .ok ([], [])
  else e.expandRows config (e.rowsInOrder contextId seeds) seeds queryEpoch

/-- A row of the seed passes all time checks. -/
def retains (contextId : String) (seeds : List ScoredFact) (queryEpoch : DateTime)
    (fact : ScoredFact) : Bool :=
  (e.rowsOf contextId seeds fact).any fun row =>
    visible queryEpoch.timestamp (chatTtlLimit config queryEpoch) row = .ok true

theorem expand_eq (contextId : String) (seeds : List ScoredFact) (bounds : DateRange)
    (queryEpoch : DateTime) : e.expand config contextId seeds bounds queryEpoch =
      if seeds = [] then .ok ([], [])
      else e.expandRows config (e.rawNodes contextId seeds) seeds queryEpoch := rfl

end Expander

/-! ### Merged rows -/

section Merged

variable {e : Expander} {contextId : String} {seeds : List ScoredFact}

theorem seedKeys_nodup (hseeds : (seeds.map ScoredFact.factId).Nodup) :
    (seeds.map ScoredFact.key).Nodup := by
  have hkeys : seeds.map ScoredFact.key = (seeds.map ScoredFact.factId).map ("fact:" ++ ·) := by
    rw [List.map_map]
    rfl
  rw [hkeys]
  exact hseeds.map fun a b h => (String.append_right_inj _).mp h

theorem graphIds_nodup : ((e.graphIds contextId seeds).map Prod.fst).Nodup := by
  unfold Expander.graphIds
  split
  · exact Ordered.nodup_ofAssignments _
  · exact List.nodup_nil

/-- The registry answers for the keys it was asked for. -/
def Expander.Answers (e : Expander) : Prop :=
  ∀ contextId keys rows, e.registry contextId keys = .ok rows → ∀ row ∈ rows, row.1 ∈ keys

theorem Expander.Answers.graphIds (h : e.Answers) {entry : String × Nat}
    (hentry : entry ∈ e.graphIds contextId seeds) : entry.1 ∈ seeds.map ScoredFact.key := by
  unfold Expander.graphIds at hentry
  split at hentry
  · rename_i rows hrows
    exact h _ _ _ hrows _ (Ordered.mem_of_mem_ofAssignments hentry)
  · cases hentry

/-- The rows of a key in the merged rows. -/
theorem filter_rawNodes (key : String) :
    (e.rawNodes contextId seeds).filter (fun node => node.1 = key) =
      match Ordered.find Prod.fst key (e.graphIds contextId seeds) with
      | none => []
      | some entry => ((fetchNode e.hydra entry.2).getD []).map fun row => (key, row) := by
  unfold Expander.rawNodes
  dsimp only
  generalize hfetched : ((e.graphIds contextId seeds).map fun entry =>
    (entry.1, fetchNode e.hydra entry.2)) = fetched
  have hkeys : fetched.map Prod.fst = (e.graphIds contextId seeds).map Prod.fst := by
    rw [← hfetched, List.map_map]
    rfl
  have hnodup : (fetched.map Prod.fst).Nodup := hkeys ▸ graphIds_nodup
  have hperm := e.completion_perm fetched
  have hfind : Ordered.find Prod.fst key fetched =
      (Ordered.find Prod.fst key (e.graphIds contextId seeds)).map fun entry =>
        (entry.1, fetchNode e.hydra entry.2) := by
    rw [← hfetched, Ordered.find, List.find?_map]
    rfl
  rw [Ordered.filter_flatMap ((hperm.map Prod.fst).nodup_iff.mpr hnodup), Ordered.find_perm hperm hnodup,
    hfind]
  · cases hentry : Ordered.find Prod.fst key (e.graphIds contextId seeds) with
    | none => rfl
    | some entry =>
        obtain ⟨-, rfl⟩ := Ordered.find_eq_some hentry
        rfl
  · intro fetch _ node hnode
    obtain ⟨row, -, rfl⟩ := List.mem_map.mp hnode
    rfl

/-- And the rows of a key in the rows of the seeds. -/
theorem filter_rowsInOrder (hseeds : (seeds.map ScoredFact.factId).Nodup) (h : e.Answers)
    (key : String) : (e.rowsInOrder contextId seeds).filter (fun node => node.1 = key) =
      match Ordered.find Prod.fst key (e.graphIds contextId seeds) with
      | none => []
      | some entry => ((fetchNode e.hydra entry.2).getD []).map fun row => (key, row) := by
  unfold Expander.rowsInOrder
  rw [Ordered.filter_flatMap (seedKeys_nodup hseeds)]
  · cases hfact : Ordered.find ScoredFact.key key seeds with
    | none =>
        have hnone : Ordered.find Prod.fst key (e.graphIds contextId seeds) = none := by
          rw [Ordered.find_eq_none] at hfact ⊢
          intro hkey
          obtain ⟨entry, hentry, rfl⟩ := List.mem_map.mp hkey
          exact hfact (h.graphIds hentry)
        rw [hnone]
        rfl
    | some fact =>
        obtain ⟨-, rfl⟩ := Ordered.find_eq_some hfact
        simp only [Option.map_some, Option.getD_some, Expander.rowsOf]
        cases Ordered.find Prod.fst fact.key (e.graphIds contextId seeds) with
        | none => rfl
        | some entry => rfl
  · intro fact _ node hnode
    obtain ⟨row, -, rfl⟩ := List.mem_map.mp hnode
    rfl

/-- The merged rows are the rows of the seeds, up to the order of the facts. -/
theorem rawNodes_sameByKey (hseeds : (seeds.map ScoredFact.factId).Nodup) (h : e.Answers) :
    Ordered.SameByKey Prod.fst (e.rawNodes contextId seeds) (e.rowsInOrder contextId seeds) :=
  fun key => (filter_rawNodes key).trans (filter_rowsInOrder hseeds h key).symm

end Merged

/-! ### What the rows are used for -/

section Uses

variable {raw raw' kept kept' : List RawNode}

theorem keepVisible_eq_filter {query ttlLimit : Int} (h : keepVisible query ttlLimit raw = .ok kept) :
    kept = raw.filter fun node => visible query ttlLimit node.2 = .ok true := by
  induction raw generalizing kept with
  | nil =>
      cases h
      rfl
  | cons node rest ih =>
      unfold keepVisible at h
      split at h
      · cases h
      · rename_i hnode
        rw [List.filter_cons_of_neg (by simp [hnode])]
        exact ih h
      · rename_i hnode
        obtain ⟨others, hothers, rfl⟩ := Fallible.map_eq_ok.mp h
        rw [List.filter_cons_of_pos (by simp [hnode]), ih hothers]

/-- The filter returns exactly if the checks of every row do. -/
theorem keepVisible_returns {query ttlLimit : Int} :
    (∃ kept, keepVisible query ttlLimit raw = .ok kept) ↔
      ∀ node ∈ raw, ∃ b, visible query ttlLimit node.2 = .ok b := by
  constructor
  · rintro ⟨kept, h⟩
    induction raw generalizing kept with
    | nil => exact fun node hnode => by cases hnode
    | cons first rest ih =>
        unfold keepVisible at h
        intro node hnode
        split at h
        · cases h
        · rename_i hfirst
          rcases List.mem_cons.mp hnode with rfl | hnode
          · exact ⟨false, hfirst⟩
          · exact ih kept h node hnode
        · rename_i hfirst
          obtain ⟨others, hothers, -⟩ := Fallible.map_eq_ok.mp h
          rcases List.mem_cons.mp hnode with rfl | hnode
          · exact ⟨true, hfirst⟩
          · exact ih others hothers node hnode
  · exact keepVisible_total

/-- The entity of a fact is found in its own rows. -/
theorem entityKeyOf_eq (h : Ordered.SameByKey Prod.fst raw raw') :
    entityKeyOf raw = entityKeyOf raw' := by
  funext factKey
  have hown : ∀ raw : List RawNode, entityKeyOf raw factKey =
      entityKeyOf (raw.filter fun node => node.1 = factKey) factKey := by
    intro raw
    unfold entityKeyOf
    rw [← List.filter_reverse]
    refine Ordered.findSome?_filter_key (fun node hnode => ?_) raw.reverse
    split
    · rw [if_neg fun hand => hnode hand.1]
    · rfl
  rw [hown raw, h factKey, ← hown raw']

/-- A seed is refreshed by its own rows, in their order. -/
theorem refreshSeeds_eq (kept : List RawNode) (seeds : List ScoredFact) :
    kept.foldl refreshSeeds seeds = seeds.map fun fact =>
      (kept.filter fun node => node.1 = fact.key).foldl (fun fact node => fact.refresh node.2) fact := by
  induction kept generalizing seeds with
  | nil => simp
  | cons node rest ih =>
      rw [List.foldl_cons, ih, refreshSeeds, List.map_map]
      refine List.map_congr_left fun fact _ => ?_
      by_cases hkey : fact.key = node.1
      · have hsame : (fact.refresh node.2).key = fact.key := rfl
        simp only [Function.comp_apply, if_pos hkey, hsame]
        rw [List.filter_cons_of_pos (by simp [hkey]), List.foldl_cons]
      · simp only [Function.comp_apply, if_neg hkey]
        rw [List.filter_cons_of_neg (by simpa using Ne.symm hkey)]

theorem prune_eq (h : Ordered.SameByKey Prod.fst kept kept') (seeds : List ScoredFact) :
    Expander.prune kept seeds = Expander.prune kept' seeds := by
  have hkeys : ∀ key, key ∈ kept.map Prod.fst ↔ key ∈ kept'.map Prod.fst :=
    fun key => (h.perm.map Prod.fst).mem_iff
  unfold Expander.prune
  rw [refreshSeeds_eq, refreshSeeds_eq]
  simp only [h _, hkeys]

/-- The facts of an entity, in any order. -/
theorem entityToFacts_perm (hraw : Ordered.SameByKey Prod.fst raw raw') (hkept : kept.Perm kept')
    (entity : String) :
    (entityToFacts raw kept entity).Perm (entityToFacts raw' kept' entity) := by
  unfold entityToFacts
  rw [entityKeyOf_eq hraw]
  exact (hkept.map Prod.fst).filter _

end Uses

/-! ### Paths -/

section Paths

variable {facts facts' : String → List String}

/-- Counting for two facts commutes. -/
theorem countKey_eq (hfacts : ∀ entity, (facts entity).Perm (facts' entity)) (hops : Nat)
    (key : Json) (stats : PathStats) : countKey facts hops key stats = countKey facts' hops key stats := by
  cases key with
  | str entity =>
      refine congrArg Except.ok ((hfacts entity).foldl_eq' (fun a _ b _ stats => ?_) stats)
      by_cases hab : a = b
      · rw [hab]
      · rw [Function.update_of_ne hab, Function.update_of_ne (Ne.symm hab),
          Function.update_comm hab]
  | _ => rfl

theorem countPaths_eq (hfacts : ∀ entity, (facts entity).Perm (facts' entity))
    (rows : List ResultRow) (stats : PathStats) :
    countPaths facts rows stats = countPaths facts' rows stats := by
  induction rows generalizing stats with
  | nil => rfl
  | cons row rest ih =>
      unfold countPaths
      simp only [countKey_eq hfacts, ih]

/-- The answer to the path query depends on the set of the entities. -/
def Expander.SetPaths (e : Expander) (config : RetrievalConfig) : Prop :=
  ∀ entities entities' : List String, entities.Perm entities' →
    e.hydra.read (pathCypher entities config.graphMaxHops) (.obj []) none =
      e.hydra.read (pathCypher entities' config.graphMaxHops) (.obj []) none

variable {e : Expander} {config : RetrievalConfig} {raw raw' kept kept' : List RawNode}

theorem entities_perm (hraw : Ordered.SameByKey Prod.fst raw raw') (hkept : kept.Perm kept') :
    (e.entities raw kept).Perm (e.entities raw' kept') := by
  have hdistinct : ((kept.filterMap fun node => entityKeyOf raw node.1).eraseDups).Perm
      (kept'.filterMap fun node => entityKeyOf raw' node.1).eraseDups := by
    rw [List.perm_ext_iff_of_nodup (Ordered.nodup_eraseDups _) (Ordered.nodup_eraseDups _)]
    intro entity
    rw [List.mem_eraseDups, List.mem_eraseDups, entityKeyOf_eq hraw]
    exact (hkept.filterMap _).mem_iff
  exact ((e.iteration_perm _).trans hdistinct).trans (e.iteration_perm _).symm

theorem pathStats_eq (hpaths : e.SetPaths config) (hraw : Ordered.SameByKey Prod.fst raw raw')
    (hkept : kept.Perm kept') : e.pathStats config raw kept = e.pathStats config raw' kept' := by
  have hentities : (e.entities raw kept).Perm (e.entities raw' kept') := entities_perm hraw hkept
  unfold Expander.pathStats
  rw [hpaths _ _ hentities]
  have hnil : e.entities raw kept = [] ↔ e.entities raw' kept' = [] :=
    ⟨fun h => List.nil_perm.mp (h ▸ hentities), fun h => List.perm_nil.mp (h ▸ hentities)⟩
  by_cases hempty : e.entities raw kept = []
  · rw [if_pos hempty, if_pos (hnil.mp hempty)]
  · rw [if_neg hempty, if_neg fun h => hempty (hnil.mpr h)]
    cases e.hydra.read (pathCypher (e.entities raw' kept') config.graphMaxHops) (.obj []) none with
    | error error => rfl
    | ok rows => exact countPaths_eq (entityToFacts_perm hraw hkept) rows _

end Paths

/-! ### Both expansions -/

section Expansions

variable {e : Expander} {config : RetrievalConfig} {raw raw' : List RawNode}
  {seeds : List ScoredFact} {query : DateTime}

theorem expandRows_returns : (∃ result, e.expandRows config raw seeds query = .ok result) ↔
    ∀ node ∈ raw, ∃ b, visible query.timestamp (chatTtlLimit config query) node.2 = .ok b := by
  rw [← keepVisible_returns]
  unfold Expander.expandRows
  constructor
  · rintro ⟨result, h⟩
    split at h
    · cases h
    · rename_i kept hkept
      exact ⟨kept, hkept⟩
  · rintro ⟨kept, hkept⟩
    rw [hkept]
    dsimp only
    split
    · exact ⟨_, rfl⟩
    · exact ⟨_, rfl⟩

/-- What is made of the rows does not depend on the order of the facts. -/
theorem expandRows_eq (hpaths : e.SetPaths config) (hraw : Ordered.SameByKey Prod.fst raw raw')
    {result : List ScoredFact × List GraphDatum}
    (h : e.expandRows config raw seeds query = .ok result) :
    e.expandRows config raw' seeds query = .ok result := by
  have hreturns : ∃ kept', keepVisible query.timestamp (chatTtlLimit config query) raw' = .ok kept' :=
    keepVisible_returns.mpr fun node hnode =>
      expandRows_returns.mp ⟨result, h⟩ node (hraw.perm.mem_iff.mpr hnode)
  obtain ⟨kept', hkept'⟩ := hreturns
  unfold Expander.expandRows at h ⊢
  split at h
  · cases h
  · rename_i kept hkept
    have hsame : Ordered.SameByKey Prod.fst kept kept' := by
      rw [keepVisible_eq_filter hkept, keepVisible_eq_filter hkept']
      exact hraw.filter _
    have hdatum : graphDatum raw kept (e.pathStats config raw kept) =
        graphDatum raw' kept' (e.pathStats config raw' kept') := by
      funext fact
      have hlength : ∀ entity, (entityToFacts raw kept entity).length =
          (entityToFacts raw' kept' entity).length :=
        fun entity => (entityToFacts_perm hraw hsame.perm entity).length_eq
      simp only [graphDatum, entityKeyOf_eq hraw, pathStats_eq hpaths hraw hsame.perm, hlength]
    rw [hkept']
    dsimp only at h ⊢
    rw [← prune_eq hsame seeds, ← hdatum]
    exact h

theorem factIds_prune (kept : List RawNode) (seeds : List ScoredFact) :
    (Expander.prune kept seeds).map ScoredFact.factId =
      (seeds.filter fun fact => fact.key ∈ kept.map Prod.fst).map ScoredFact.factId := by
  have hids : ∀ facts : List ScoredFact,
      (facts.filter fun fact => fact.key ∈ kept.map Prod.fst).map ScoredFact.factId =
        (facts.map ScoredFact.factId).filter fun id => "fact:" ++ id ∈ kept.map Prod.fst := by
    intro facts
    rw [List.filter_map]
    rfl
  unfold Expander.prune
  rw [hids, hids, factIds_of_origins (origins_refresh kept seeds)]

/-- A seed is under a key of the kept rows exactly if one of its own rows
passed. -/
theorem mem_kept_iff {contextId : String} {kept : List RawNode} {fact : ScoredFact}
    (hfact : fact ∈ seeds) (hkept : keepVisible query.timestamp (chatTtlLimit config query)
      (e.rowsInOrder contextId seeds) = .ok kept) :
    fact.key ∈ kept.map Prod.fst ↔ e.retains config contextId seeds query fact = true := by
  have hrows : ∀ other : ScoredFact, other.key = fact.key →
      e.rowsOf contextId seeds other = e.rowsOf contextId seeds fact := by
    intro other hkey
    rw [Expander.rowsOf, Expander.rowsOf, hkey]
  rw [Expander.retains, List.any_eq_true]
  constructor
  · intro hkey
    obtain ⟨node, hnode, hsame⟩ := List.mem_map.mp hkey
    obtain ⟨hraw, hvisible⟩ := (keepVisible_eq_ok hkept node).mp hnode
    obtain ⟨other, -, hmem⟩ := List.mem_flatMap.mp hraw
    obtain ⟨row, hrow, rfl⟩ := List.mem_map.mp hmem
    exact ⟨row, hrows other hsame ▸ hrow, decide_eq_true hvisible⟩
  · rintro ⟨row, hrow, hvisible⟩
    refine List.mem_map.mpr ⟨(fact.key, row), (keepVisible_eq_ok hkept _).mpr ⟨?_, ?_⟩, rfl⟩
    · exact List.mem_flatMap.mpr ⟨fact, hfact, List.mem_map.mpr ⟨row, hrow, rfl⟩⟩
    · exact of_decide_eq_true hvisible

/-- The seeds that stay, in their order. -/
theorem factIds_expandRows {contextId : String} {seeds' : List ScoredFact} {data : List GraphDatum}
    (h : e.expandRows config (e.rowsInOrder contextId seeds) seeds query = .ok (seeds', data)) :
    seeds'.map ScoredFact.factId =
      (seeds.filter (e.retains config contextId seeds query)).map ScoredFact.factId := by
  unfold Expander.expandRows at h
  split at h
  · cases h
  · rename_i kept hkept
    have hpruned : seeds' = Expander.prune kept seeds := by
      dsimp only at h
      split at h
      · rename_i hnone
        cases h
        exact hnone.symm
      · cases h
        rfl
    rw [hpruned, factIds_prune]
    refine congrArg (List.map ScoredFact.factId) (List.filter_congr fun fact hfact => ?_)
    rw [Bool.eq_iff_iff, decide_eq_true_iff]
    exact mem_kept_iff hfact hkept

end Expansions

/-- Concurrent expansion: with a pool of at least one worker, the expansion
returns exactly if the checks of every fetched row do. Whatever the order in
which the fetches complete, it returns what fetches made one after another give:
the seeds that the registry maps, whose fetch succeeded and one of whose rows
passes, in their order, and the same data about them. -/
theorem concurrent_expansion_eq_sequential (e : Expander) (config : RetrievalConfig)
    (workers : Int) (contextId : String) (seeds : List ScoredFact)
    (hseeds : (seeds.map ScoredFact.factId).Nodup) (bounds : DateRange) (query : DateTime)
    (hanswers : e.Answers) (hpaths : e.SetPaths config) :
    ((∃ result, e.expandPooled config workers contextId seeds bounds query = .ok result) ↔
      seeds = [] ∨ (0 < workers ∧ ∀ fact ∈ seeds, ∀ row ∈ e.rowsOf contextId seeds fact,
        ∃ b, visible query.timestamp (chatTtlLimit config query) row = .ok b)) ∧
    (0 < workers → ∀ result, e.expandPooled config workers contextId seeds bounds query = .ok result ↔
      e.expandSequential config contextId seeds query = .ok result) ∧
    ∀ seeds' data, e.expandPooled config workers contextId seeds bounds query = .ok (seeds', data) →
      seeds'.map ScoredFact.factId =
        (seeds.filter (e.retains config contextId seeds query)).map ScoredFact.factId := by
  have hsame : Ordered.SameByKey Prod.fst (e.rawNodes contextId seeds)
      (e.rowsInOrder contextId seeds) := rawNodes_sameByKey hseeds hanswers
  have hrows : (∀ node ∈ e.rowsInOrder contextId seeds,
        ∃ b, visible query.timestamp (chatTtlLimit config query) node.2 = .ok b) ↔
      ∀ fact ∈ seeds, ∀ row ∈ e.rowsOf contextId seeds fact,
        ∃ b, visible query.timestamp (chatTtlLimit config query) row = .ok b := by
    constructor
    · intro h fact hfact row hrow
      exact h (fact.key, row) (List.mem_flatMap.mpr ⟨fact, hfact, List.mem_map_of_mem hrow⟩)
    · intro h node hnode
      obtain ⟨fact, hfact, hmem⟩ := List.mem_flatMap.mp hnode
      obtain ⟨row, hrow, rfl⟩ := List.mem_map.mp hmem
      exact h fact hfact row hrow
  have hboth : ∀ result, e.expandRows config (e.rawNodes contextId seeds) seeds query = .ok result ↔
      e.expandRows config (e.rowsInOrder contextId seeds) seeds query = .ok result :=
    fun result => ⟨expandRows_eq hpaths hsame, expandRows_eq hpaths fun key => (hsame key).symm⟩
  by_cases hempty : seeds = []
  · simp only [Expander.expandPooled, Expander.expandSequential, if_pos hempty]
    refine ⟨⟨fun _ => Or.inl hempty, fun _ => ⟨_, rfl⟩⟩, fun _ _ => trivial, fun seeds' data h => ?_⟩
    cases h
    rw [hempty]
    rfl
  by_cases hworkers : workers ≤ 0
  · simp only [Expander.expandPooled, if_neg hempty, if_pos hworkers]
    refine ⟨⟨?_, ?_⟩, fun hpos => ?_, ?_⟩
    · rintro ⟨result, h⟩
      cases h
    · rintro (h | ⟨hpos, -⟩)
      · exact absurd h hempty
      · omega
    · omega
    · intro seeds' data h
      cases h
  · simp only [Expander.expandPooled, Expander.expandSequential, if_neg hempty, if_neg hworkers,
      Expander.expand_eq]
    refine ⟨?_, fun _ => hboth, fun seeds' data h => factIds_expandRows ((hboth _).mp h)⟩
    rw [exists_congr hboth, expandRows_returns, hrows]
    constructor
    · exact fun h => Or.inr ⟨by omega, h⟩
    · rintro (h | ⟨-, h⟩)
      · exact absurd h hempty
      · exact h

/-! ### Two cities -/

/-- The endpoint sees the query as it was sent. -/
theorem QueryService.respond_payload (service : QueryService) (cellId query : String) :
    service.respond (HydraHttpTransport.payload ⟨cellId, service.respond⟩ query (.obj []) none none) =
      (service.page query (.obj []) none service.defaultPageSize).map QueryPage.toJson := by
  show (service.page query (.obj []) none service.defaultPageSize).bind _ = _
  cases service.page query (.obj []) none service.defaultPageSize <;> rfl

/-- What the endpoint answers decides what is read. -/
theorem HydraHttpTransport.read_congr {service : QueryService} {cellId query query' : String}
    (h : service.page query (.obj []) none service.defaultPageSize =
      service.page query' (.obj []) none service.defaultPageSize) :
    HydraHttpTransport.read ⟨cellId, service.respond⟩ query (.obj []) none =
      HydraHttpTransport.read ⟨cellId, service.respond⟩ query' (.obj []) none := by
  simp only [HydraHttpTransport.read, HydraHttpTransport.query, service.respond_payload, h]

theorem HydraHttpTransport.read_refused {service : QueryService} {cellId query message : String}
    (h : service.page query (.obj []) none service.defaultPageSize =
      .error (.runtimeError message)) :
    HydraHttpTransport.read ⟨cellId, service.respond⟩ query (.obj []) none =
      .error (.runtimeError message) := by
  simp only [HydraHttpTransport.read, HydraHttpTransport.query, service.respond_payload, h,
    Except.map]

/-- A fact that was observed at an instant and holds from then on. -/
def datedVertex (observedAt : Int) : Vertex where
  labels := {.fact}
  props property := [("valid_from", Scalar.int 0), ("valid_to", .int openSentinel),
    ("observed_at", .int observedAt), ("superseded_at", .int openSentinel)].lookup property

/-- Boston was observed at nine, Seattle at eleven. -/
def datedGraph : Graph where
  nodes id :=
    if id = bostonFact then some (datedVertex 1767258000)
    else if id = seattleFact then some (datedVertex 1767265200)
    else none

/-- An expander whose fetches complete last in, first out. -/
noncomputable def reversingExpander : Expander :=
  { datedGraph.expander 256 numberingAllocator with
    completion := List.reverse
    completion_perm := List.reverse_perm }

def citySeeds : List ScoredFact :=
  [{ factId := "boston", text := "" }, { factId := "seattle", text := "" }]

theorem reversingExpander_answers : reversingExpander.Answers := by
  intro contextId keys rows h row hrow
  cases h
  obtain ⟨key, hkey, rfl⟩ := List.mem_map.mp hrow
  exact hkey

theorem reversingExpander_setPaths (config : RetrievalConfig) :
    reversingExpander.SetPaths config := by
  intro entities entities' _
  have hother : ∀ entities, ¬ ∃ id, nodeCypher id = pathCypher entities config.graphMaxHops :=
    fun entities ⟨id, h⟩ => nodeCypher_ne_pathCypher id _ _ h
  refine HydraHttpTransport.read_congr ?_
  simp only [Graph.endpoint, dif_neg (hother _)]

/-- At ten, Boston is visible and Seattle is not. -/
theorem datedVertex_visible :
    visible ten.timestamp (chatTtlLimit {} ten) ((datedVertex 1767258000).nodeRow none) = .ok true ∧
      visible ten.timestamp (chatTtlLimit {} ten) ((datedVertex 1767265200).nodeRow none) =
        .ok false := by
  decide

theorem reversingExpander_rows : ∀ fact ∈ citySeeds, reversingExpander.rowsOf "chat" citySeeds fact =
    [(datedVertex (if fact.factId = "boston" then 1767258000 else 1767265200)).nodeRow none] := by
  have hfetch : ∀ id, fetchNode reversingExpander.hydra id = some ((datedGraph.nodeRows id).take 256) :=
    datedGraph.fetchNode_endpoint (by decide)
  intro fact hfact
  rcases List.mem_cons.mp hfact with rfl | hfact
  · have hboston : datedGraph.nodeRows bostonFact = [(datedVertex 1767258000).nodeRow none] := by
      decide +kernel
    show (fetchNode reversingExpander.hydra bostonFact).getD [] = _
    rw [hfetch, hboston]
    rfl
  · obtain rfl := List.mem_singleton.mp hfact
    have hseattle : datedGraph.nodeRows seattleFact = [(datedVertex 1767265200).nodeRow none] := by
      decide +kernel
    show (fetchNode reversingExpander.hydra seattleFact).getD [] = _
    rw [hfetch, hseattle]
    rfl

/-- Both fetches complete, and of the two seeds the one that was observed is
left. -/
theorem concurrent_expansion_eq_sequential_cities :
    reversingExpander.Answers ∧ reversingExpander.SetPaths {} ∧ ∃ seeds data,
      reversingExpander.expandPooled {} 8 "chat" citySeeds {} ten = .ok (seeds, data) ∧
      reversingExpander.expandSequential {} "chat" citySeeds ten = .ok (seeds, data) ∧
      seeds.map ScoredFact.factId = ["boston"] := by
  obtain ⟨hreturns, hsame, hfacts⟩ := concurrent_expansion_eq_sequential reversingExpander {} 8 "chat"
    citySeeds (by decide) {} ten reversingExpander_answers (reversingExpander_setPaths {})
  have hrows : ∀ fact ∈ citySeeds, ∀ row ∈ reversingExpander.rowsOf "chat" citySeeds fact,
      ∃ b, visible ten.timestamp (chatTtlLimit {} ten) row = .ok b := by
    intro fact hfact row hrow
    rw [reversingExpander_rows fact hfact] at hrow
    rw [List.mem_singleton.mp hrow]
    split
    · exact ⟨true, datedVertex_visible.1⟩
    · exact ⟨false, datedVertex_visible.2⟩
  obtain ⟨⟨seeds, data⟩, hresult⟩ := hreturns.mpr (Or.inr ⟨by decide, hrows⟩)
  refine ⟨reversingExpander_answers, reversingExpander_setPaths {}, seeds, data, hresult,
    (hsame (by decide) _).mp hresult, ?_⟩
  rw [hfacts seeds data hresult]
  have hretains : ∀ fact ∈ citySeeds, reversingExpander.retains {} "chat" citySeeds ten fact =
      decide (fact.factId = "boston") := by
    intro fact hfact
    unfold Expander.retains
    rw [reversingExpander_rows fact hfact]
    split
    · rename_i hboston
      simp only [List.any_cons, List.any_nil, datedVertex_visible.1, hboston, decide_true, Bool.or_false]
    · rename_i hboston
      simp only [List.any_cons, List.any_nil, datedVertex_visible.2, hboston, Except.ok.injEq,
        Bool.false_eq_true, decide_false, Bool.or_false]
  rw [List.filter_congr hretains]
  rfl

end ContextMemory
