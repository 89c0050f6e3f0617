/-
What the expansion counts in the graph.

A fact is filed under one entity, the one of its last row, and once for each of its rows that
passes. So the number of facts of an entity is right only where the rows too many make up for the
facts that are filed elsewhere, and a path is counted once only for a fact with one row and only
if it does not end where it starts. The number of hops is always right
(`graph_counts_exact_iff`).
-/

import Mathlib.Algebra.BigOperators.Group.List.Lemmas
import Mathlib.Tactic.Ring
import ContextMemory.Guarantees.RowOrder

namespace ContextMemory

/-! ### The counts as they are meant -/

/-- The facts that are about an entity. -/
def factsAbout (raw : List RawNode) (facts : List ScoredFact) (entity : String) : List ScoredFact :=
  facts.filter fun fact => entity ∈ namesOf raw fact.key

def pathOf (row : ResultRow) : List Json :=
  match row "path" with
  | some (.arr items) => items
  | _ => []

/-- A node of a path is the entity. -/
def isEntity (entity : String) (node : Json) : Bool :=
  match pathNodeKey node with
  | .str key => key = entity
  | _ => false

/-- A path of at least three elements starts at the entity. -/
def startsAt (entity : String) (row : ResultRow) : Bool :=
  3 ≤ (pathOf row).length && (pathOf row).head?.any (isEntity entity)

def endsAt (entity : String) (row : ResultRow) : Bool :=
  3 ≤ (pathOf row).length && (pathOf row).getLast?.any (isEntity entity)

def pathsAt (entity : String) (paths : List ResultRow) : List ResultRow :=
  paths.filter fun row => startsAt entity row || endsAt entity row

def pathHops (row : ResultRow) : Nat := (pathOf row).length / 2

/-- What the data about a fact of an entity should say. -/
structure GraphDatum.Exact (datum : GraphDatum) (raw : List RawNode) (facts : List ScoredFact)
    (paths : List ResultRow) (entity : String) : Prop where
  entityFactCount : datum.entityFactCount = (factsAbout raw facts entity).length
  pathCount : datum.pathCount = (pathsAt entity paths).length
  hopCount : datum.hopCount = (((pathsAt entity paths).map pathHops).min?).getD 1

/-! ### The answers of the graph -/

/-- A key can be looked up in a dict. -/
def hashable : Json → Bool
  | .arr _ | .obj _ => false
  | _ => true

/-- The path of a row is a list, whose ends have keys that can be looked up. -/
def WellFormedPath (row : ResultRow) : Prop :=
  match row "path" with
  | none => True
  | some (.arr items) => ∀ node ∈ items.head?.toList ++ items.getLast?.toList,
      hashable (pathNodeKey node) = true
  | _ => False

/-- The counts that are made of the answer to the path query. -/
def statsOf (raw kept : List RawNode) : Except Exn (List ResultRow) → PathStats
  | .ok rows => countPaths (entityToFacts raw kept) rows fun _ => none
  | .error _ => fun _ => none

/-- The expansion, from the rows of the nodes and the answer to the path query. -/
def expandAnswers (config : RetrievalConfig) (raw : List RawNode)
    (answer : Except Exn (List ResultRow)) (seeds : List ScoredFact) (query : DateTime) :
    Except Exn (List ScoredFact × List GraphDatum) :=
  (keepVisible query.timestamp (chatTtlLimit config query) raw).map fun kept =>
    (Expander.prune kept seeds,
      (Expander.prune kept seeds).map (graphDatum raw kept (statsOf raw kept answer)))

/-- Whatever the expander reads is such an answer. From here on the counts are
made of the rows and of one answer to the path query, and no transport is in
sight. -/
theorem Expander.expandRows_eq_answers (e : Expander) (config : RetrievalConfig)
    (raw : List RawNode) (seeds : List ScoredFact) (query : DateTime) :
    ∃ answer, e.expandRows config raw seeds query = expandAnswers config raw answer seeds query := by
  cases hkept : keepVisible query.timestamp (chatTtlLimit config query) raw with
  | error error =>
      refine ⟨.error error, ?_⟩
      simp only [Expander.expandRows, expandAnswers, hkept]
      rfl
  | ok kept =>
      have hstats : ∃ answer, e.pathStats config raw kept = statsOf raw kept answer := by
        unfold Expander.pathStats
        split
        · exact ⟨.ok [], rfl⟩
        · refine ⟨e.hydra.read (pathCypher (e.entities raw kept) config.graphMaxHops) (.obj []) none, ?_⟩
          cases e.hydra.read (pathCypher (e.entities raw kept) config.graphMaxHops) (.obj []) none with
          | ok rows => rfl
          | error error => rfl
      obtain ⟨answer, hanswer⟩ := hstats
      refine ⟨answer, ?_⟩
      rw [expandRows_of_kept hkept, hanswer, expandAnswers, hkept]
      rfl

/-! ### Counting paths -/

/-- `n` more paths of `hops` hops. -/
def addPaths (n hops : Nat) (stat : Option PathStat) : Option PathStat :=
  if n = 0 then stat
  else some (match stat with
    | some old => ⟨old.count + n, min old.hops hops⟩
    | none => ⟨n, hops⟩)

@[simp] theorem addPaths_zero (hops : Nat) (stat : Option PathStat) :
    addPaths 0 hops stat = stat := rfl

/-- Filing paths of one length twice files their sum. The smallest number of
hops stays what it is. -/
theorem addPaths_addPaths (m n hops : Nat) (stat : Option PathStat) :
    addPaths m hops (addPaths n hops stat) = addPaths (n + m) hops stat := by
  by_cases hn : n = 0
  · rw [hn, addPaths_zero, Nat.zero_add]
  by_cases hm : m = 0
  · rw [hm, addPaths_zero, Nat.add_zero]
  have hsum : n + m ≠ 0 := by omega
  unfold addPaths
  rw [if_neg hn, if_neg hm, if_neg hsum]
  cases stat with
  | none => simp
  | some old => simp [Nat.add_assoc]

section Paths

variable {facts : String → List String} {factKey : String}

/-- Filing a path under a list of facts files it under each as often as the list
names it. The list has a fact once for each of its rows, which is how a path
comes to count twice. -/
theorem foldl_update (hops : Nat) (keys : List String) (stats : PathStats) :
    keys.foldl (fun stats fact => Function.update stats fact (some (match stats fact with
        | some old => ⟨old.count + 1, min old.hops hops⟩
        | none => ⟨1, hops⟩))) stats factKey =
      addPaths (keys.count factKey) hops (stats factKey) := by
  induction keys generalizing stats with
  | nil => rfl
  | cons key rest ih =>
      rw [List.foldl_cons, ih]
      by_cases hkey : key = factKey
      · subst hkey
        rw [Function.update_self, List.count_cons_self, Nat.add_comm, ← addPaths_addPaths]
        rfl
      · rw [Function.update_of_ne (Ne.symm hkey), List.count_cons_of_ne hkey]

/-- How often a fact is filed under a key. -/
def filedUnder (facts : String → List String) (factKey : String) : Json → Nat
  | .str entity => (facts entity).count factKey
  | _ => 0

/-- One end of a path is filed under the facts of its entity, and under none if
the key is no name. A key that cannot be looked up in a dict is excluded: there
the source raises. -/
theorem countKey_spec {key : Json} (h : hashable key = true) (hops : Nat) (stats : PathStats) :
    ∃ stats', countKey facts hops key stats = .ok stats' ∧ ∀ factKey,
      stats' factKey = addPaths (filedUnder facts factKey key) hops (stats factKey) := by
  cases key with
  | str entity => exact ⟨_, rfl, fun factKey => foldl_update hops _ stats⟩
  | arr items => cases h
  | obj fields => cases h
  | null => exact ⟨stats, rfl, fun _ => rfl⟩
  | bool value => exact ⟨stats, rfl, fun _ => rfl⟩
  | int value => exact ⟨stats, rfl, fun _ => rfl⟩
  | float value => exact ⟨stats, rfl, fun _ => rfl⟩

/-- How often a path is counted for a fact. -/
def countedFor (facts : String → List String) (factKey : String) (row : ResultRow) : Nat :=
  if 3 ≤ (pathOf row).length then
    (((pathOf row).head?.map fun node => filedUnder facts factKey (pathNodeKey node)).getD 0) +
      (((pathOf row).getLast?.map fun node => filedUnder facts factKey (pathNodeKey node)).getD 0)
  else 0

/-- A path that is too short is skipped. The counts go on from where they were. -/
theorem countPaths_skip {row : ResultRow} (h : pathEnds (row "path") = .ok none)
    (rest : List ResultRow) (stats : PathStats) :
    countPaths facts (row :: rest) stats = countPaths facts rest stats := by
  rw [countPaths, h]

/-- A path with two ends is filed under the facts of the first, and then under
those of the last. Nothing keeps the two from being one entity. -/
theorem countPaths_step {row : ResultRow} {hops : Nat} {first last : Json}
    {stats stats₁ stats₂ : PathStats} (h : pathEnds (row "path") = .ok (some (hops, first, last)))
    (hfirst : countKey facts hops first stats = .ok stats₁)
    (hlast : countKey facts hops last stats₁ = .ok stats₂) (rest : List ResultRow) :
    countPaths facts (row :: rest) stats = countPaths facts rest stats₂ := by
  rw [countPaths, h]
  simp only [hfirst, hlast]

/-- One row of the answer: it raises nothing if it is well formed, and files its
path as often as `countedFor` says. -/
theorem countPaths_cons {row : ResultRow} (h : WellFormedPath row) (rest : List ResultRow)
    (stats : PathStats) : ∃ stats',
      countPaths facts (row :: rest) stats = countPaths facts rest stats' ∧ ∀ factKey,
        stats' factKey = addPaths (countedFor facts factKey row) (pathHops row) (stats factKey) := by
  unfold WellFormedPath at h
  unfold countedFor pathHops pathOf
  split at h
  · rename_i hnone
    refine ⟨stats, countPaths_skip (by rw [hnone]; rfl) rest stats, fun _ => ?_⟩
    rw [hnone]
    rfl
  · rename_i items hpath
    simp only [hpath]
    by_cases hlong : 3 ≤ items.length
    · obtain ⟨first, hfirst⟩ : ∃ first, items.head? = some first := by
        cases items with
        | nil => cases hlong
        | cons first rest => exact ⟨first, rfl⟩
      obtain ⟨last, hlast⟩ : ∃ last, items.getLast? = some last := by
        cases hlast : items.getLast? with
        | none =>
            rw [List.getLast?_eq_none_iff.mp hlast] at hlong
            cases hlong
        | some last => exact ⟨last, rfl⟩
      rw [hfirst, hlast] at h
      obtain ⟨stats₁, hcount₁, hstats₁⟩ : ∃ stats₁, countKey facts _ _ _ = .ok stats₁ ∧ _ :=
        countKey_spec (h first (by simp)) (items.length / 2) stats
      obtain ⟨stats₂, hcount₂, hstats₂⟩ : ∃ stats₂, countKey facts _ _ _ = .ok stats₂ ∧ _ :=
        countKey_spec (h last (by simp)) (items.length / 2) stats₁
      have hends : pathEnds (row "path") =
          .ok (some (items.length / 2, pathNodeKey first, pathNodeKey last)) := by
        simp only [hpath, pathEnds, hfirst, hlast, if_pos hlong]
      refine ⟨stats₂, countPaths_step hends hcount₁ hcount₂ rest, fun factKey => ?_⟩
      rw [hstats₂, hstats₁, addPaths_addPaths, if_pos hlong, hfirst, hlast]
      rfl
    · have hends : pathEnds (row "path") = .ok none := by
        rw [hpath]
        unfold pathEnds
        dsimp only
        split
        · rw [if_neg hlong]
        · rfl
      refine ⟨stats, countPaths_skip hends rest stats, fun factKey => ?_⟩
      rw [if_neg hlong, addPaths_zero]
  · cases h

/-- A whole answer of well-formed paths is counted row by row. The induction is
on the rows, and what it carries is the statistics of one fact. -/
theorem countPaths_eq_foldl {paths : List ResultRow} (h : ∀ row ∈ paths, WellFormedPath row)
    (stats : PathStats) (factKey : String) : countPaths facts paths stats factKey =
      paths.foldl (fun stat row => addPaths (countedFor facts factKey row) (pathHops row) stat)
        (stats factKey) := by
  induction paths generalizing stats with
  | nil => rfl
  | cons row rest ih =>
      obtain ⟨stats', hcount, hstats⟩ := countPaths_cons (h row List.mem_cons_self) rest stats
      rw [hcount, ih (fun row hrow => h row (List.mem_cons_of_mem _ hrow)), List.foldl_cons, hstats]

end Paths

section Filed

variable {facts : String → List String} {factKey entity : String} {rows : Nat}
  (hfiled : ∀ other, (facts other).count factKey = if other = entity then rows else 0)

include hfiled

/-- Where the facts are filed under one entity, an end of a path counts for each
row of the fact if it is that entity, and not at all otherwise. -/
theorem filedUnder_eq (node : Json) :
    filedUnder facts factKey (pathNodeKey node) = rows * (isEntity entity node).toNat := by
  unfold isEntity
  cases pathNodeKey node with
  | str key =>
      rw [filedUnder, hfiled]
      by_cases hkey : key = entity
      · simp [hkey]
      · simp [hkey]
  | _ => simp [filedUnder]

/-- A path is counted at both ends, and for each row of the fact. So a path from
the entity to itself counts twice for every row. -/
theorem countedFor_eq (row : ResultRow) : countedFor facts factKey row =
    rows * ((startsAt entity row).toNat + (endsAt entity row).toNat) := by
  unfold countedFor startsAt endsAt
  by_cases hlong : 3 ≤ (pathOf row).length
  · rw [if_pos hlong, decide_eq_true hlong, Bool.true_and, Bool.true_and, Nat.mul_add]
    congr 1
    · cases (pathOf row).head? with
      | none => rfl
      | some node => exact filedUnder_eq hfiled node
    · cases (pathOf row).getLast? with
      | none => rfl
      | some node => exact filedUnder_eq hfiled node
  · rw [if_neg hlong, decide_eq_false hlong]
    rfl

variable (hrows : 0 < rows)

/-- The number of the counts is the number of rows times the number of path ends
at the entity. By induction on the paths, from any statistics. -/
theorem foldl_count (paths : List ResultRow) (stat : Option PathStat) :
    (((paths.foldl (fun stat row => addPaths (countedFor facts factKey row) (pathHops row) stat)
      stat).map PathStat.count).getD 0) = ((stat.map PathStat.count).getD 0) +
        rows * ((paths.map fun row => (startsAt entity row).toNat + (endsAt entity row).toNat).sum) := by
  induction paths generalizing stat with
  | nil => simp
  | cons row rest ih =>
      have hstep : ((addPaths (countedFor facts factKey row) (pathHops row) stat).map
          PathStat.count).getD 0 = ((stat.map PathStat.count).getD 0) +
            rows * ((startsAt entity row).toNat + (endsAt entity row).toNat) := by
        rw [← countedFor_eq hfiled]
        unfold addPaths
        split
        · omega
        · cases stat with
          | none => simp
          | some old => rfl
      rw [List.foldl_cons, ih, hstep, List.map_cons, List.sum_cons]
      ring

include hrows

/-- And the smallest number of hops is that of the paths at the entity. Counting
one of them too often does not change it. -/
theorem foldl_hops (paths : List ResultRow) (stat : Option PathStat) :
    ((paths.foldl (fun stat row => addPaths (countedFor facts factKey row) (pathHops row) stat)
      stat).map PathStat.hops) =
        ((stat.map PathStat.hops).toList ++ (pathsAt entity paths).map pathHops).min? := by
  induction paths generalizing stat with
  | nil => cases stat <;> rfl
  | cons row rest ih =>
      rw [List.foldl_cons, ih, countedFor_eq hfiled]
      by_cases hat : (startsAt entity row || endsAt entity row) = true
      · have hne : rows * ((startsAt entity row).toNat + (endsAt entity row).toNat) ≠ 0 := by
          have hpos : 0 < (startsAt entity row).toNat + (endsAt entity row).toNat := by
            cases hstart : startsAt entity row <;> cases hend : endsAt entity row <;> simp_all
          exact (Nat.mul_pos hrows hpos).ne'
        rw [pathsAt, pathsAt, List.filter_cons_of_pos (by simpa using hat), addPaths.eq_def,
          if_neg hne]
        cases stat with
        | none => rfl
        | some old => rfl
      · have hzero : rows * ((startsAt entity row).toNat + (endsAt entity row).toNat) = 0 := by
          rw [Bool.or_eq_true, not_or, Bool.not_eq_true, Bool.not_eq_true] at hat
          rw [hat.1, hat.2]
          rfl
        rw [hzero, addPaths_zero, pathsAt, pathsAt,
          List.filter_cons_of_neg (by simpa using hat)]

end Filed

/-! ### Counting facts -/

/-- The rows of a fact that passed. -/
def passedRows (kept : List RawNode) (factKey : String) : Nat := (kept.map Prod.fst).count factKey

/-- The facts that are filed under an entity. -/
def filedFacts (raw : List RawNode) (facts : List ScoredFact) (entity : String) : List ScoredFact :=
  facts.filter fun fact => entityKeyOf raw fact.key = some entity

/-- The rows that the facts filed under an entity have too many. -/
def surplusRows (raw kept : List RawNode) (facts : List ScoredFact) (entity : String) : Nat :=
  ((filedFacts raw facts entity).map fun fact => passedRows kept fact.key - 1).sum

/-- The facts about an entity that are filed under another one. -/
def filedElsewhere (raw : List RawNode) (facts : List ScoredFact) (entity : String) :
    List ScoredFact :=
  (factsAbout raw facts entity).filter fun fact => entityKeyOf raw fact.key ≠ some entity

section Facts

variable {raw kept : List RawNode} {entity : String}

/-- A fact stands under its entity once for each of its rows that passed, and
under no other entity. -/
theorem count_entityToFacts {factKey : String} (h : entityKeyOf raw factKey = some entity)
    (other : String) : (entityToFacts raw kept other).count factKey =
      if other = entity then passedRows kept factKey else 0 := by
  unfold entityToFacts
  by_cases hother : other = entity
  · rw [if_pos hother, List.count_filter (by simp [h, hother])]
    rfl
  · rw [if_neg hother, List.count_eq_zero]
    intro hmem
    have hsame := of_decide_eq_true (List.mem_filter.mp hmem).2
    rw [h] at hsame
    exact hother (Option.some.inj hsame).symm

/-- A fact that is filed under an entity is about it. The converse fails: a fact
may name the entity in a row that is not its last. -/
theorem filed_about {factKey : String} (h : entityKeyOf raw factKey = some entity) :
    entity ∈ namesOf raw factKey := by
  rw [entityKeyOf_eq_getLast?] at h
  exact List.mem_of_getLast? h

variable {seeds : List ScoredFact} (hseeds : (seeds.map ScoredFact.factId).Nodup)
  (hkeys : ∀ node ∈ kept, node.1 ∈ seeds.map ScoredFact.key)

include hseeds

/-- The retained facts have distinct keys, as the seeds have. -/
theorem prune_keys_nodup : ((Expander.prune kept seeds).map ScoredFact.key).Nodup := by
  refine seedKeys_nodup (hseeds.sublist ?_)
  rw [factIds_prune]
  exact List.filter_sublist.map _

include hkeys

/-- The keys of the rows that pass are the keys of the retained facts, up to
order and repetition. A seed without a row that passes is dropped. -/
theorem keys_prune_perm :
    ((Expander.prune kept seeds).map ScoredFact.key).Perm (kept.map Prod.fst).dedup := by
  refine (List.perm_ext_iff_of_nodup (prune_keys_nodup hseeds) (List.nodup_dedup _)).mpr ?_
  intro key
  rw [List.mem_dedup]
  constructor
  · intro hkey
    obtain ⟨fact, hfact, rfl⟩ := List.mem_map.mp hkey
    exact key_mem_of_mem_prune hfact
  · intro hkey
    obtain ⟨node, hnode, rfl⟩ := List.mem_map.mp hkey
    obtain ⟨seed, hseed, hsame⟩ := List.mem_map.mp (hkeys node hnode)
    have hid : seed.factId ∈ (Expander.prune kept seeds).map ScoredFact.factId :=
      mem_prune.mpr ⟨List.mem_map_of_mem hseed, node, hnode, hsame.symm⟩
    obtain ⟨fact, hfact, hfactId⟩ := List.mem_map.mp hid
    refine List.mem_map.mpr ⟨fact, hfact, ?_⟩
    rw [ScoredFact.key, hfactId]
    exact hsame

/-- The facts of an entity are counted with their rows. What is counted is the
list of rows, not the set of facts. -/
theorem length_entityToFacts : (entityToFacts raw kept entity).length =
    ((filedFacts raw (Expander.prune kept seeds) entity).map fun fact =>
      passedRows kept fact.key).sum := by
  have hperm := keys_prune_perm hseeds hkeys
  have hfiled : ((filedFacts raw (Expander.prune kept seeds) entity).map fun fact =>
      passedRows kept fact.key) = (((Expander.prune kept seeds).map ScoredFact.key).filter
        fun key => entityKeyOf raw key = some entity).map (passedRows kept) := by
    rw [List.filter_map, List.map_map]
    rfl
  rw [hfiled, ((hperm.filter _).map _).sum_eq]
  unfold passedRows entityToFacts
  rw [List.sum_map_count_dedup_filter_eq_countP, List.countP_eq_length_filter]

/-- Filed and about: the two numbers are equal exactly where the rows too many
are as many as the facts filed elsewhere. The errors have opposite signs, and
may cancel. -/
theorem entityFactCount_iff : (entityToFacts raw kept entity).length =
      (factsAbout raw (Expander.prune kept seeds) entity).length ↔
    surplusRows raw kept (Expander.prune kept seeds) entity =
      (filedElsewhere raw (Expander.prune kept seeds) entity).length := by
  have hpositive : ∀ fact ∈ filedFacts raw (Expander.prune kept seeds) entity,
      0 < passedRows kept fact.key := by
    intro fact hfact
    exact List.count_pos_iff.mpr (key_mem_of_mem_prune (List.mem_filter.mp hfact).1)
  have hsum : ∀ facts : List ScoredFact, (∀ fact ∈ facts, 0 < passedRows kept fact.key) →
      (facts.map fun fact => passedRows kept fact.key).sum =
        (facts.map fun fact => passedRows kept fact.key - 1).sum + facts.length := by
    intro facts hall
    induction facts with
    | nil => rfl
    | cons fact rest ih =>
        have hfirst := hall fact List.mem_cons_self
        have hrest := ih fun other hother => hall other (List.mem_cons_of_mem _ hother)
        simp only [List.map_cons, List.sum_cons, List.length_cons]
        omega
  have habout : (factsAbout raw (Expander.prune kept seeds) entity).length =
      (filedFacts raw (Expander.prune kept seeds) entity).length +
        (filedElsewhere raw (Expander.prune kept seeds) entity).length := by
    have hfiled : filedFacts raw (Expander.prune kept seeds) entity =
        (factsAbout raw (Expander.prune kept seeds) entity).filter fun fact =>
          entityKeyOf raw fact.key = some entity := by
      unfold filedFacts factsAbout
      rw [List.filter_filter]
      refine List.filter_congr fun fact _ => ?_
      by_cases hfact : entityKeyOf raw fact.key = some entity
      · simp [hfact, filed_about hfact]
      · simp [hfact]
    rw [hfiled, filedElsewhere]
    have hsplit := List.length_eq_length_filter_add
      (l := factsAbout raw (Expander.prune kept seeds) entity)
      fun fact => decide (entityKeyOf raw fact.key = some entity)
    simpa using hsplit
  rw [length_entityToFacts hseeds hkeys, hsum _ hpositive, habout, surplusRows]
  omega

end Facts

/-! ### When the counts are exact -/

/-- A path starts and ends at the entity. -/
def closedAt (entity : String) (row : ResultRow) : Bool := startsAt entity row && endsAt entity row

/-- The path ends at an entity are the paths at it and, once more, those that
start and end there. -/
theorem sum_ends (entity : String) (paths : List ResultRow) :
    (paths.map fun row => (startsAt entity row).toNat + (endsAt entity row).toNat).sum =
      (pathsAt entity paths).length + (paths.filter (closedAt entity)).length := by
  induction paths with
  | nil => rfl
  | cons row rest ih =>
      rw [List.map_cons, List.sum_cons, ih]
      unfold pathsAt closedAt
      cases hstart : startsAt entity row <;> cases hend : endsAt entity row <;>
        simp [hstart, hend] <;> omega

/-- Counting each path for every row and at both ends is right in two cases: no
path is at the entity, or the fact has one row and no path is there at both
ends. -/
theorem pathCount_iff {rows : Nat} (hrows : 0 < rows) (entity : String) (paths : List ResultRow) :
    rows * ((paths.map fun row => (startsAt entity row).toNat + (endsAt entity row).toNat).sum) =
        (pathsAt entity paths).length ↔
      pathsAt entity paths = [] ∨ (rows = 1 ∧ ∀ row ∈ paths, closedAt entity row = false) := by
  have hclosed : (∀ row ∈ paths, closedAt entity row = false) ↔
      (paths.filter (closedAt entity)).length = 0 := by
    rw [List.length_eq_zero_iff, List.filter_eq_nil_iff]
    simp
  have hle : (paths.filter (closedAt entity)).length ≤ (pathsAt entity paths).length := by
    refine List.Sublist.length_le (List.monotone_filter_right paths fun row hrow => ?_)
    unfold closedAt at hrow
    rw [Bool.and_eq_true] at hrow
    rw [hrow.1, Bool.true_or]
  rw [sum_ends, hclosed, ← List.length_eq_zero_iff]
  generalize (pathsAt entity paths).length = some_at at hle ⊢
  generalize (paths.filter (closedAt entity)).length = twice at hle ⊢
  constructor
  · intro h
    rcases Nat.eq_zero_or_pos some_at with hzero | hpos
    · exact Or.inl hzero
    · have hone : rows = 1 := by
        by_contra hmany
        have htwo : 2 * (some_at + twice) ≤ rows * (some_at + twice) :=
          Nat.mul_le_mul_right _ (by omega)
        omega
      rw [hone] at h
      exact Or.inr ⟨hone, by omega⟩
  · rintro (hzero | ⟨hone, hnone⟩)
    · have htwice : twice = 0 := by omega
      rw [hzero, htwice]
      rfl
    · rw [hone, hnone]
      omega

/-- The rows that pass the filter. -/
def passingRows (config : RetrievalConfig) (query : DateTime) (raw : List RawNode) : List RawNode :=
  raw.filter fun node =>
    visible query.timestamp (chatTtlLimit config query) node.2 = .ok true

/-- Graph counts: the data about a retained fact with an entity is exact if and
only if the rows that the facts filed under it have too many are as many as the
facts about it that are filed elsewhere, and, where a path was returned at the
entity, the fact has one row and no path starts and ends there. A fact is filed
under the entity of its last row, once for each of its rows; a path is counted
at each of its ends. -/
theorem graph_counts_exact_iff (config : RetrievalConfig) (raw : List RawNode)
    (answer : Except Exn (List ResultRow)) (seeds : List ScoredFact) (query : DateTime)
    (hseeds : (seeds.map ScoredFact.factId).Nodup)
    (hkeys : ∀ node ∈ raw, node.1 ∈ seeds.map ScoredFact.key)
    (hpaths : ∀ row ∈ answer.toOption.getD [], WellFormedPath row)
    {facts : List ScoredFact} {data : List GraphDatum}
    (h : expandAnswers config raw answer seeds query = .ok (facts, data)) {datum : GraphDatum}
    (hdatum : datum ∈ data) {entity : String} (hentity : datum.entityKey = some entity) :
    datum.Exact raw facts (answer.toOption.getD []) entity ↔
      surplusRows raw (passingRows config query raw) facts entity =
        (filedElsewhere raw facts entity).length ∧
      (pathsAt entity (answer.toOption.getD []) = [] ∨
        (passedRows (passingRows config query raw) ("fact:" ++ datum.factId) = 1 ∧
          ∀ row ∈ answer.toOption.getD [], closedAt entity row = false)) := by
  obtain ⟨kept, hkept, hresult⟩ := Fallible.map_eq_ok.mp h
  cases hresult
  have hpassing : passingRows config query raw = kept := (keepVisible_eq_filter hkept).symm
  rw [hpassing]
  obtain ⟨fact, hfact, rfl⟩ := List.mem_map.mp hdatum
  change entityKeyOf raw fact.key = some entity at hentity
  have hkeys' : ∀ node ∈ kept, node.1 ∈ seeds.map ScoredFact.key := fun node hnode =>
    hkeys node ((keepVisible_eq_ok hkept node).mp hnode).1
  have hrows : 0 < passedRows kept fact.key := List.count_pos_iff.mpr (key_mem_of_mem_prune hfact)
  have hstats : statsOf raw kept answer fact.key = (answer.toOption.getD []).foldl
      (fun stat row => addPaths (countedFor (entityToFacts raw kept) fact.key row) (pathHops row)
        stat) none := by
    cases answer with
    | error error => rfl
    | ok rows => exact countPaths_eq_foldl hpaths _ _
  have hcount : (graphDatum raw kept (statsOf raw kept answer) fact).entityFactCount =
      (entityToFacts raw kept entity).length := by
    simp only [graphDatum, hentity, Option.map_some, Option.getD_some]
  have hfiled : ∀ other, (entityToFacts raw kept other).count fact.key =
      if other = entity then passedRows kept fact.key else 0 := count_entityToFacts hentity
  have hpath : (graphDatum raw kept (statsOf raw kept answer) fact).pathCount =
      passedRows kept fact.key * (((answer.toOption.getD []).map fun row =>
        (startsAt entity row).toNat + (endsAt entity row).toNat).sum) := by
    have hfold := foldl_count hfiled (answer.toOption.getD []) none
    rw [← hstats] at hfold
    exact hfold.trans (Nat.zero_add _)
  have hhops : (graphDatum raw kept (statsOf raw kept answer) fact).hopCount =
      (((pathsAt entity (answer.toOption.getD [])).map pathHops).min?).getD 1 := by
    have hfold := foldl_hops hfiled hrows (answer.toOption.getD []) none
    rw [← hstats] at hfold
    exact congrArg (Option.getD · 1) hfold
  rw [← entityFactCount_iff hseeds hkeys', ← hcount]
  change _ ↔ _ ∧ (_ ∨ (passedRows kept fact.key = 1 ∧ _))
  rw [← pathCount_iff hrows, ← hpath]
  exact ⟨fun hexact => ⟨hexact.entityFactCount, hexact.pathCount⟩,
    fun hexact => ⟨hexact.1, hexact.2, hhops⟩⟩

/-- The expansion of the one fact about the entities with the given names
retains it, with the statistics that are made of all its rows. -/
theorem expandAnswers_about (names : List String) (answer : Except Exn (List ResultRow)) :
    expandAnswers {} (blockOf "fact:boston" (names.map aboutRow)) answer tripSeed ten =
      .ok (Expander.prune (blockOf "fact:boston" (names.map aboutRow)) tripSeed,
        (Expander.prune (blockOf "fact:boston" (names.map aboutRow)) tripSeed).map
          (graphDatum (blockOf "fact:boston" (names.map aboutRow))
            (blockOf "fact:boston" (names.map aboutRow))
            (statsOf (blockOf "fact:boston" (names.map aboutRow))
              (blockOf "fact:boston" (names.map aboutRow)) answer))) := by
  rw [expandAnswers, keepVisible_about]
  rfl

/-- All rows of that fact have its key, which is the key of the one seed. -/
theorem about_keys (names : List String) : ∀ node ∈ blockOf "fact:boston" (names.map aboutRow),
    node.1 ∈ tripSeed.map ScoredFact.key := by
  intro node hnode
  obtain ⟨row, -, rfl⟩ := List.mem_map.mp hnode
  exact List.mem_singleton_self _

/-- One fact about Max and Boston counts as two. It has two rows, and both are
filed under the entity of the second. -/
theorem graph_counts_wrong : ¬∀ (config : RetrievalConfig) (raw : List RawNode)
    (answer : Except Exn (List ResultRow)) (seeds : List ScoredFact) (query : DateTime)
    (facts : List ScoredFact) (data : List GraphDatum) (datum : GraphDatum) (entity : String),
    (seeds.map ScoredFact.factId).Nodup → (∀ node ∈ raw, node.1 ∈ seeds.map ScoredFact.key) →
    (∀ row ∈ answer.toOption.getD [], WellFormedPath row) →
    expandAnswers config raw answer seeds query = .ok (facts, data) → datum ∈ data →
    datum.entityKey = some entity → datum.Exact raw facts (answer.toOption.getD []) entity := by
  intro hall
  have hfact : tripSeed.head (by decide) ∈ Expander.prune (blockOf "fact:boston"
      (["entity:max", "entity:boston"].map aboutRow)) tripSeed := by
    decide +kernel
  have hexact := hall {} (blockOf "fact:boston" (["entity:max", "entity:boston"].map aboutRow))
    (.ok []) tripSeed ten _ _ _ "entity:boston" (by decide) (about_keys _)
    (fun row hrow => absurd hrow List.not_mem_nil) (expandAnswers_about _ _)
    (List.mem_map_of_mem hfact) (by decide +kernel)
  exact absurd hexact.entityFactCount (by decide +kernel)

/-- Max and the fact about him. -/
def maxRow : ResultRow := fun name => if name = "path" then
    some (.arr [.obj [("logical_key", .str "entity:max")], .null,
      .obj [("logical_key", .str "fact:boston")]])
  else none

/-- A fact about Max alone, on one path: one fact, one path, one hop. Here both
sides of the equivalence hold. -/
theorem graph_counts_exact_iff_max : ∃ datum, expandAnswers {} (blockOf "fact:boston"
      (["entity:max"].map aboutRow)) (.ok [maxRow]) tripSeed ten = .ok (tripSeed, [datum]) ∧
    datum.Exact (blockOf "fact:boston" (["entity:max"].map aboutRow)) tripSeed [maxRow]
      "entity:max" := by
  have hprune : Expander.prune (blockOf "fact:boston" (["entity:max"].map aboutRow)) tripSeed =
      tripSeed := by
    decide +kernel
  have hexpand := expandAnswers_about ["entity:max"] (.ok [maxRow])
  rw [hprune] at hexpand
  refine ⟨_, hexpand, (graph_counts_exact_iff {} (blockOf "fact:boston"
    (["entity:max"].map aboutRow)) (.ok [maxRow]) tripSeed ten (by decide) (about_keys _) ?_ hexpand
    List.mem_cons_self (by decide +kernel)).mpr ⟨by decide +kernel, Or.inr ⟨by decide +kernel, ?_⟩⟩⟩
  · intro row hrow
    rw [List.mem_singleton.mp hrow]
    show ∀ node ∈ [Json.obj [("logical_key", .str "entity:max")],
      .obj [("logical_key", .str "fact:boston")]], hashable (pathNodeKey node) = true
    intro node hnode
    rcases List.mem_cons.mp hnode with rfl | hnode
    · rfl
    · rw [List.mem_singleton.mp hnode]
      rfl
  · intro row hrow
    rw [List.mem_singleton.mp hrow]
    decide +kernel

end ContextMemory
