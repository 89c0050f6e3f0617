/-
The requests on a cell as operations on a set of edges.

What a caller sees of a cell is a set of edges and, for each idempotency key, what the request with
it was answered (`CellGraph`). A store keeps a changelog, counters, segments and tombstones beside
that; every request that it accepts does to what is seen what the operation says, and leaves a
coherent store.
-/

import ContextMemory.Guarantees.Topology
import ContextMemory.Lib.Fallible

namespace ContextMemory.Topology

open SortedMap (get erase insert Sorted)

/-! ### What a caller sees -/

/-- What a request was answered, without the sequences. -/
inductive Outcome where
  | written (existed : List Bool)
  | deleted (deleted : List Bool)
  | added (inserted alreadyExisted : Nat)
  | compacted
deriving DecidableEq, Repr

def Response.outcome : Response → Outcome
  | .commit result => .written [result.alreadyExisted]
  | .delete result => .deleted [result.deleted]
  | .commits result => .written (result.results.map CommitResult.alreadyExisted)
  | .deletes result => .deleted (result.results.map DeleteResult.deleted)
  | .imported result => .added result.inserted result.alreadyExisted
  | .compacted _ => .compacted

/-- The edges of a cell, and the answers that it remembers. -/
@[ext] structure CellGraph where
  edges : Finset EdgeKey
  created : String → Option (EdgeKey × Bool)
  deleted : String → Option (EdgeKey × Bool)
  imported : String → Option (Nat × Nat × Nat)
  appended : String → Option (Nat × Nat × Nat)
  compacted : CompactionKey → Option Nat

namespace CellGraph

def empty : CellGraph := ⟨∅, fun _ => none, fun _ => none, fun _ => none, fun _ => none, fun _ => none⟩

/-- The edge is there afterwards; the answer says whether it was before. -/
def write (m : EdgeMutation) (g : CellGraph) : Option (Bool × CellGraph) :=
  match g.created m.idempotencyKey with
  | some (edge, existed) => if edge = m.edge then some (existed, g) else none
  | none =>
      let existed := decide (m.edge ∈ g.edges)
      some (existed, { g with
        edges := g.edges ∪ [m.edge].toFinset
        created := Function.update g.created m.idempotencyKey (some (m.edge, existed)) })

/-- The edge is not there afterwards; the answer says whether it was before. -/
def delete (m : EdgeMutation) (g : CellGraph) : Option (Bool × CellGraph) :=
  match g.deleted m.idempotencyKey with
  | some (edge, deleted) => if edge = m.edge then some (deleted, g) else none
  | none =>
      let deleted := decide (m.edge ∈ g.edges)
      some (deleted, { g with
        edges := g.edges \ [m.edge].toFinset
        deleted := Function.update g.deleted m.idempotencyKey (some (m.edge, deleted)) })

/-- One mutation after the other. -/
def each (f : EdgeMutation → CellGraph → Option (Bool × CellGraph)) :
    List EdgeMutation → CellGraph → Option (List Bool × CellGraph)
  | [], g => some ([], g)
  | m :: ms, g => (f m g).bind fun first =>
      (each f ms first.2).map fun rest => (first.1 :: rest.1, rest.2)

/-- How many of some edges are new, and how many are not. -/
def counts (keys : List EdgeKey) (g : CellGraph) : Nat × Nat :=
  ((keys.toFinset \ g.edges).card, keys.length - (keys.toFinset \ g.edges).card)

/-- Edges are there afterwards, by an import. -/
def addImported (key : String) (fingerprint : Nat) (keys : List EdgeKey) (g : CellGraph) :
    Option (Outcome × CellGraph) :=
  match g.imported key with
  | some (stored, counts) =>
      if stored = fingerprint then some (.added counts.1 counts.2, g) else none
  | none => some (.added (g.counts keys).1 (g.counts keys).2, { g with
      edges := g.edges ∪ keys.toFinset
      imported := Function.update g.imported key (some (fingerprint, g.counts keys)) })

/-- Edges are there afterwards, by a segment. -/
def addAppended (key : String) (fingerprint : Nat) (keys : List EdgeKey) (g : CellGraph) :
    Option (Outcome × CellGraph) :=
  match g.appended key with
  | some (stored, counts) =>
      if stored = fingerprint then some (.added counts.1 counts.2, g) else none
  | none => some (.added (g.counts keys).1 (g.counts keys).2, { g with
      edges := g.edges ∪ keys.toFinset
      appended := Function.update g.appended key (some (fingerprint, g.counts keys)) })

/-- Nothing is seen of a compaction. -/
def compact (key : CompactionKey) (through : Nat) (g : CellGraph) : Option (Outcome × CellGraph) :=
  match g.compacted key with
  | some stored => if stored = through then some (.compacted, g) else none
  | none => some (.compacted, { g with compacted := Function.update g.compacted key (some through) })

/-- What a request means; nothing where its key was used for another request. -/
def perform (S : Setting) (g : CellGraph) : Request → Option (Outcome × CellGraph)
  | .writeEdge m => (g.write m).map fun r => (.written [r.1], r.2)
  | .deleteEdge m => (g.delete m).map fun r => (.deleted [r.1], r.2)
  | .writeEdgeMutationsBatch ms => (each write ms g).map fun r => (.written r.1, r.2)
  | .deleteEdgeMutationsBatch ms => (each delete ms g).map fun r => (.deleted r.1, r.2)
  | .bulkImportEdges edgeType edges key _ =>
      g.addImported key (Store.bulkImportFingerprint S.cellId edgeType (Store.importEdges edgeType edges))
        (Store.importEdges edgeType edges)
  | .appendSegment edgeType src dsts key =>
      let keys := Store.importEdges edgeType (dsts.map fun dst => (src, dst))
      g.addAppended key (Store.bulkImportFingerprint S.cellId edgeType keys) keys
  | .compactSegments edgeType src through key _ => g.compact ⟨edgeType, src, key⟩ through

end CellGraph

namespace Store

variable {S : Setting} {floors : List String} {s s' start : Store} {m : EdgeMutation}

/-- What a caller sees of a store. -/
def graph (s : Store) : CellGraph where
  edges := s.edges
  created key := (get key s.created).map fun r => (r.1, r.2.alreadyExisted)
  deleted key := (get key s.deleted).map fun r => (r.1, r.2.deleted)
  imported key := (get key s.imported).map fun r => (r.1, r.2.inserted, r.2.alreadyExisted)
  appended key := (get key s.appended).map fun r => (r.1, r.2.inserted, r.2.alreadyExisted)
  compacted key := (get key s.compacted).map SegmentCompactionResult.compactedThroughEpoch

/-! ### Answers -/

theorem get_map_insert {κ α β : Type} [LinearOrder κ] {l : List (κ × α)} (h : Sorted l) (k : κ) (v : α)
    (f : α → β) : (fun k' => (get k' (insert k v l)).map f) =
      Function.update (fun k' => (get k' l).map f) k (some (f v)) := by
  funext k'
  rw [h.get_insert, Function.update_apply]
  split <;> rfl

theorem graph_recordCommit (h : Sorted s.created) (result : CommitResult) :
    (s.recordCommit m result).graph = { s.graph with
      created := Function.update s.graph.created m.idempotencyKey
        (some (m.edge, result.alreadyExisted)) } :=
  CellGraph.ext rfl (get_map_insert h _ _ _) rfl rfl rfl rfl

theorem graph_recordDelete (h : Sorted s.deleted) (result : DeleteResult) :
    (s.recordDelete m result).graph = { s.graph with
      deleted := Function.update s.graph.deleted m.idempotencyKey (some (m.edge, result.deleted)) } :=
  CellGraph.ext rfl rfl (get_map_insert h _ _ _) rfl rfl rfl

theorem recordDelete_lowerIn (edges : List EdgeKey) (result : DeleteResult) :
    (s.lowerIn S edges).recordDelete m result = (s.recordDelete m result).lowerIn S edges := by
  unfold lowerIn
  split <;> rfl

theorem lowerIn_sequence (edges : List EdgeKey) : (s.lowerIn S edges).sequence = s.sequence := by
  unfold lowerIn
  split <;> rfl

theorem graph_withSequence (n : Nat) : ({ s with sequence := n } : Store).graph = s.graph := rfl

theorem graph_lowerIn (edges : List EdgeKey) : (s.lowerIn S edges).graph = s.graph := by
  unfold lowerIn
  split <;> rfl

/-- A first answer does not touch the others. -/
theorem get_insert_new {κ α : Type} [LinearOrder κ] {l l' : List (κ × α)} (h : Sorted l') {k : κ} {v : α}
    (hkey : get k l' = none) (hsub : ∀ k v, get k l = some v → get k l' = some v) (k' : κ) (v' : α)
    (hget : get k' l = some v') : get k' (insert k v l') = some v' := by
  have hget' := hsub k' v' hget
  rw [h.get_insert, if_neg, hget']
  rintro rfl
  rw [hkey] at hget'
  cases hget'

theorem Pending.recordCommit (hp : start.Pending S s) (hkey : get m.idempotencyKey s.created = none)
    (result : CommitResult) : start.Pending S (s.recordCommit m result) :=
  { hp with
    ordered := { hp.ordered with created := hp.ordered.created.insert }
    past := ⟨hp.past.segments, hp.past.tombstones⟩
    logs := hp.logs.congr rfl rfl rfl rfl
    remembers := { hp.remembers with
      created := get_insert_new hp.ordered.created hkey hp.remembers.created } }

theorem Pending.recordDelete (hp : start.Pending S s) (hkey : get m.idempotencyKey s.deleted = none)
    (result : DeleteResult) : start.Pending S (s.recordDelete m result) :=
  { hp with
    ordered := { hp.ordered with deleted := hp.ordered.deleted.insert }
    past := ⟨hp.past.segments, hp.past.tombstones⟩
    logs := hp.logs.congr rfl rfl rfl rfl
    remembers := { hp.remembers with
      deleted := get_insert_new hp.ordered.deleted hkey hp.remembers.deleted } }

theorem commit_eq_ok (h : s.commit = .ok s') : s' = { s with sequence := s.sequence + 1 } := by
  unfold commit at h
  split at h
  · exact (Except.ok.inj h).symm
  · cases h

theorem nextEpoch_eq_ok {key reason : String} {epoch : Nat} (h : s.nextEpoch key reason = .ok epoch) :
    epoch = s.sequence + 1 := by
  unfold nextEpoch at h
  split at h
  · exact (Except.ok.inj h).symm
  · cases h

/-- A transaction that leaves the edges as they were. -/
theorem Pending.commit_same (hstart : start.Coherent S) (hp : start.Pending S s)
    (hedges : s.edges = start.edges) (hs' : s' = { s with sequence := s.sequence + 1 }) :
    start.Commits S s' := by
  refine hp.commit hstart hs' hp.ordered.degreeOut hp.ordered.degreeIn (fun v => ?_) fun hpolicy v => ?_
  · rw [hp.degreeOut, hedges, hstart.degreeOut]
  · rw [hp.degreeIn, hedges, hstart.degreeIn hpolicy]

/-- What a retry is answered. -/
theorem write_of_some {edge : EdgeKey} {result : CommitResult}
    (h : get m.idempotencyKey s.created = some (edge, result)) (hedge : edge = m.edge) :
    s.graph.write m = some (result.alreadyExisted, s.graph) := by
  simp [CellGraph.write, graph, h, hedge]

theorem delete_of_some {edge : EdgeKey} {result : DeleteResult}
    (h : get m.idempotencyKey s.deleted = some (edge, result)) (hedge : edge = m.edge) :
    s.graph.delete m = some (result.deleted, s.graph) := by
  simp [CellGraph.delete, graph, h, hedge]

/-- A write that is answered for the first time; `mid` has the edge and no
answer yet. -/
theorem write_of_none {mid : Store} {r : CommitResult}
    (h : get m.idempotencyKey s.created = none) (hsorted : Sorted mid.created)
    (hmid : mid.graph = { s.graph with edges := s.edges ∪ [m.edge].toFinset })
    (hexisted : r.alreadyExisted = decide (m.edge ∈ s.edges)) :
    s.graph.write m = some (r.alreadyExisted, (mid.recordCommit m r).graph) := by
  have hnone : s.graph.created m.idempotencyKey = none := by simp [graph, h]
  rw [graph_recordCommit hsorted, hmid, CellGraph.write, hnone, hexisted]
  rfl

theorem delete_of_none {mid : Store} {r : DeleteResult}
    (h : get m.idempotencyKey s.deleted = none) (hsorted : Sorted mid.deleted)
    (hmid : mid.graph = { s.graph with edges := s.edges \ [m.edge].toFinset })
    (hdeleted : r.deleted = decide (m.edge ∈ s.edges)) :
    s.graph.delete m = some (r.deleted, (mid.recordDelete m r).graph) := by
  have hnone : s.graph.deleted m.idempotencyKey = none := by simp [graph, h]
  rw [graph_recordDelete hsorted, hmid, CellGraph.delete, hnone, hdeleted]
  rfl

/-- Nothing changes for an edge that is there. -/
theorem graph_union_self (h : m.edge ∈ s.edges) :
    s.graph = { s.graph with edges := s.edges ∪ [m.edge].toFinset } := by
  refine CellGraph.ext (Finset.union_eq_left.mpr fun e he => ?_).symm rfl rfl rfl rfl rfl
  rw [List.mem_toFinset, List.mem_singleton] at he
  exact he ▸ h

theorem graph_sdiff_self (h : m.edge ∉ s.edges) :
    s.graph = { s.graph with edges := s.edges \ [m.edge].toFinset } := by
  refine CellGraph.ext (Finset.sdiff_eq_self_of_disjoint ?_).symm rfl rfl rfl rfl rfl
  rw [List.toFinset_cons, List.toFinset_nil, insert_empty_eq]
  exact Finset.disjoint_singleton_right.mpr h

/-- A key without an answer in what is seen has none in the store. -/
theorem get_of_graph {κ α β : Type} [LinearOrder κ] {l l' : List (κ × α)} {f : α → β}
    (h : (fun k => (get k l').map f) = fun k => (get k l).map f) {k : κ} (hkey : get k l = none) :
    get k l' = none := by
  have heq := congrFun h k
  rw [hkey] at heq
  exact Option.map_eq_none_iff.mp heq

/-! ### Single edges -/

/-- What `write_edge` does. -/
theorem writeEdge_spec (h : s.Coherent S) {result : CommitResult}
    (hok : s.writeEdge S floors m = .ok (result, s')) :
    s.graph.write m = some (result.alreadyExisted, s'.graph) ∧ (s' = s ∨ s.Commits S s') := by
  unfold writeEdge at hok
  obtain ⟨-, -, hok⟩ := Fallible.bind_eq_ok hok
  obtain ⟨-, -, hok⟩ := Fallible.bind_eq_ok hok
  split at hok
  · rename_i edge stored hget
    split at hok
    · rename_i hedge
      cases hok
      exact ⟨write_of_some hget hedge, .inl rfl⟩
    · cases hok
  · rename_i hnone
    split at hok
    · rename_i existing hexisting
      obtain ⟨s₁, hcommit, hok⟩ := Fallible.bind_eq_ok hok
      cases hok
      have hmem : m.edge ∈ s.edges :=
        h.past.edgeEpochAt_isSome.mp (Option.isSome_iff_exists.mpr ⟨_, hexisting⟩)
      have hp := (Pending.begin h).recordCommit hnone ⟨existing, true⟩
      refine ⟨?_, .inr (hp.commit_same h rfl (commit_eq_ok hcommit))⟩
      rw [write_of_none hnone h.ordered.created (graph_union_self hmem) (r := ⟨existing, true⟩)
        (decide_eq_true hmem).symm, commit_eq_ok hcommit]
      rfl
    · rename_i hexisting
      obtain ⟨epoch, hepoch, hok⟩ := Fallible.bind_eq_ok hok
      obtain ⟨s₁, hcommit, hok⟩ := Fallible.bind_eq_ok hok
      cases hok
      have hnew : m.edge ∉ s.edges := fun hmem => by
        have hsome := h.past.edgeEpochAt_isSome.mpr hmem
        rw [hexisting] at hsome
        cases hsome
      obtain rfl := nextEpoch_eq_ok hepoch
      obtain ⟨hp, hedges, -⟩ := (Pending.begin h).put floors hnew rfl
      refine ⟨?_, .inr ?_⟩
      · rw [write_of_none hnone hp.ordered.created (CellGraph.ext hedges rfl rfl rfl rfl rfl)
          (r := ⟨s.sequence + 1, false⟩) (decide_eq_false hnew).symm, commit_eq_ok hcommit]
        rfl
      · have hfresh : false = true → s.sequence = 0 := fun h => by cases h
        exact (hp.recordCommit hnone ⟨s.sequence + 1, false⟩).commit_added h (List.nodup_singleton _)
          (fun e he => List.mem_singleton.mp he ▸ hnew) hedges hfresh (commit_eq_ok hcommit)

/-- An edge that `mid` has lost is no longer counted, and the answer says that
it was there. -/
theorem Pending.removed (h : s.Coherent S) {mid : Store} (hp : s.Pending S mid)
    (hkey : get m.idempotencyKey s.deleted = none) (hmem : m.edge ∈ s.edges)
    (hmid : mid.graph = { s.graph with edges := s.edges \ [m.edge].toFinset }) {n : Nat}
    (hcommit : (((mid.lowerOut [m.edge]).lowerIn S [m.edge]).recordDelete m ⟨n, true⟩).commit = .ok s') :
    s.graph.delete m = some (true, s'.graph) ∧ s.Commits S s' := by
  have hs' := commit_eq_ok hcommit
  rw [recordDelete_lowerIn, lowerIn_sequence] at hs'
  have hgraph : s'.graph = (mid.recordDelete m ⟨n, true⟩).graph := by
    rw [hs', graph_withSequence, graph_lowerIn]
    rfl
  refine ⟨?_, ?_⟩
  · rw [delete_of_none hkey hp.ordered.deleted hmid (r := ⟨n, true⟩) (decide_eq_true hmem).symm,
      hgraph]
  · have hkey' := get_of_graph (congrArg CellGraph.deleted hmid) hkey
    exact (hp.recordDelete hkey' ⟨n, true⟩).commit_removed h [m.edge] (List.nodup_singleton _)
      (fun e he => List.mem_singleton.mp he ▸ hmem) (fun _ => rfl) (congrArg CellGraph.edges hmid) hs'

/-- What `delete_edge` does where the edge has no key. -/
theorem deleteSegmentEdge_spec (h : s.Coherent S) (hkey : get m.idempotencyKey s.deleted = none)
    (hown : m.edge ∉ s.ownEdges) {result : DeleteResult}
    (hok : s.deleteSegmentEdge S floors m = .ok (result, s')) :
    s.graph.delete m = some (result.deleted, s'.graph) ∧ s.Commits S s' := by
  have habsent : m.edge ∉ s.edges → ∀ s₁ : Store, (s.recordDelete m ⟨s.sequence, false⟩).commit = .ok s₁ →
      s.graph.delete m = some (false, s₁.graph) ∧ s.Commits S s₁ := by
    intro hnot s₁ hcommit
    have hp := (Pending.begin h).recordDelete hkey ⟨s.sequence, false⟩
    refine ⟨?_, hp.commit_same h rfl (commit_eq_ok hcommit)⟩
    rw [delete_of_none hkey h.ordered.deleted (graph_sdiff_self hnot)
      (r := ⟨s.sequence, false⟩) (decide_eq_false hnot).symm, commit_eq_ok hcommit]
    rfl
  have hsegments : m.edge ∈ s.edges ↔ m.edge ∈ s.segmentEdges := by
    rw [mem_edges, or_iff_right hown]
  unfold deleteSegmentEdge at hok
  split at hok
  · rename_i hnone
    obtain ⟨s₁, hcommit, hok⟩ := Fallible.bind_eq_ok hok
    cases hok
    refine habsent (fun hmem => ?_) _ hcommit
    rw [hsegments] at hmem
    split at hnone
    · rename_i hpolicy
      rw [mem_segmentEdges, h.outbound hpolicy] at hmem
      obtain ⟨g, hg, -⟩ := hmem
      cases hg
    · rw [← h.past.segmentRecordAt_isSome, hnone] at hmem
      cases hmem
  · rename_i segmentSequence hrecord
    split at hrecord
    · cases hrecord
    · rename_i hpolicy
      have hmem : m.edge ∈ s.segmentEdges :=
        h.past.segmentRecordAt_isSome.mp (Option.isSome_iff_exists.mpr ⟨_, hrecord⟩)
      split at hok
      · -- What hides the edge would have hidden its record.
        rename_i hhidden
        obtain ⟨epoch, hget, hnot⟩ := (Option.any_eq_true _ _).mp hhidden
        have hvisible := h.past.segmentRecordAt_visible hrecord
        rw [hget] at hvisible
        rw [hvisible] at hnot
        cases hnot
      · obtain ⟨epoch, hepoch, hok⟩ := Fallible.bind_eq_ok hok
        obtain ⟨s₁, hcommit, hok⟩ := Fallible.bind_eq_ok hok
        cases hok
        obtain rfl := nextEpoch_eq_ok hepoch
        obtain ⟨hp, hedges, -⟩ := (Pending.begin h).hide floors hmem rfl
        refine hp.removed h hkey (hsegments.mpr hmem) (CellGraph.ext hedges rfl rfl rfl rfl rfl)
          (n := s.sequence + 1) ?_
        rw [lowerIn, if_neg hpolicy]
        exact hcommit

/-- What `delete_edge` does. -/
theorem deleteEdge_spec (h : s.Coherent S) {result : DeleteResult}
    (hok : s.deleteEdge S floors m = .ok (result, s')) :
    s.graph.delete m = some (result.deleted, s'.graph) ∧ (s' = s ∨ s.Commits S s') := by
  unfold deleteEdge at hok
  obtain ⟨-, -, hok⟩ := Fallible.bind_eq_ok hok
  obtain ⟨-, -, hok⟩ := Fallible.bind_eq_ok hok
  split at hok
  · rename_i edge stored hget
    split at hok
    · rename_i hedge
      cases hok
      exact ⟨delete_of_some hget hedge, .inl rfl⟩
    · cases hok
  · rename_i hkey
    split at hok
    · rename_i hown
      obtain ⟨epoch, hepoch, hok⟩ := Fallible.bind_eq_ok hok
      obtain ⟨s₁, hcommit, hok⟩ := Fallible.bind_eq_ok hok
      cases hok
      obtain rfl := nextEpoch_eq_ok hepoch
      have hmem : m.edge ∈ s.edges := mem_edges.mpr (.inl (mem_ownEdges.mpr hown))
      obtain ⟨hp, hedges, -⟩ := (Pending.begin h).drop floors (mem_ownEdges.mpr hown) (.inl rfl) rfl
      obtain ⟨hdelete, hcommits⟩ := hp.removed h hkey hmem (CellGraph.ext hedges rfl rfl rfl rfl rfl)
        (n := s.sequence + 1) hcommit
      exact ⟨hdelete, .inr hcommits⟩
    · rename_i hown
      obtain ⟨hdelete, hcommits⟩ := deleteSegmentEdge_spec h hkey (fun hmem => hown (mem_ownEdges.mp hmem)) hok
      exact ⟨hdelete, .inr hcommits⟩

/-! ### Batches of writes -/

/-- What the loop of a batch of writes keeps. -/
structure WriteBatch.Sound (S : Setting) (start : Store) (b : WriteBatch) : Prop where
  pending : start.Pending S b.store
  nodup : b.inserted.Nodup
  new : ∀ e ∈ b.inserted, e ∉ start.edges
  edges : b.store.edges = start.edges ∪ b.inserted.toFinset
  segments : b.store.segmentEdges ⊆ start.segmentEdges
  sorted : Sorted b.known
  known : ∀ e epoch, get e b.known = some epoch → e ∈ b.store.edges

theorem WriteBatch.Sound.answer {b : WriteBatch} (hb : b.Sound S start)
    (hkey : get m.idempotencyKey b.store.created = none) (hmem : m.edge ∈ b.store.edges) (result : CommitResult) : (b.answer m result).Sound S start where
  pending := hb.pending.recordCommit hkey result
  nodup := hb.nodup
  new := hb.new
  edges := hb.edges
  segments := hb.segments
  sorted := hb.sorted.insert
  known := fun e epoch hknown => by
    rw [WriteBatch.answer, hb.sorted.get_insert] at hknown
    split at hknown
    · rename_i heq
      exact heq ▸ hmem
    · exact hb.known e epoch hknown

/-- The loop has put an edge. -/
theorem WriteBatch.Sound.inserted {b : WriteBatch} (hb : b.Sound S start) (hnew : m.edge ∉ b.store.edges)
    (hp : start.Pending S s) (hedges : s.edges = b.store.edges ∪ [m.edge].toFinset)
    (hsegments : s.segmentEdges ⊆ b.store.segmentEdges) :
    ({ b with store := s, inserted := b.inserted ++ [m.edge] } : WriteBatch).Sound S start where
  pending := hp
  nodup := by
    refine List.Nodup.append hb.nodup (List.nodup_singleton _) ?_
    rw [List.disjoint_singleton]
    intro hmem
    rw [hb.edges] at hnew
    exact hnew (Finset.mem_union_right _ (List.mem_toFinset.mpr hmem))
  new := fun e he => by
    rcases List.mem_append.mp he with he | he
    · exact hb.new e he
    · rw [List.mem_singleton.mp he]
      rw [hb.edges] at hnew
      exact fun hmem => hnew (Finset.mem_union_left _ hmem)
  edges := by rw [hedges, hb.edges, List.toFinset_append, Finset.union_assoc]
  segments := hsegments.trans hb.segments
  sorted := hb.sorted
  known := fun e epoch hknown => by
    rw [hedges]
    exact Finset.mem_union_left _ (hb.known e epoch hknown)

/-- One mutation of a batch does what a write does. -/
theorem writeMutation_spec (h : start.Coherent S) {b b' : WriteBatch} (hb : b.Sound S start)
    (hok : writeMutation S floors start b m = .ok b') :
    b'.Sound S start ∧ ∃ result, b'.results = b.results ++ [result] ∧
      b.store.graph.write m = some (result.alreadyExisted, b'.store.graph) := by
  have hsorted := hb.pending.ordered.created
  unfold writeMutation at hok
  split at hok
  · rename_i edge stored hget
    split at hok
    · rename_i hedge
      cases hok
      exact ⟨⟨hb.pending, hb.nodup, hb.new, hb.edges, hb.segments, hb.sorted, hb.known⟩, stored, rfl,
        write_of_some hget hedge⟩
    · cases hok
  · rename_i hkey
    have hexisting : ∀ epoch, m.edge ∈ b.store.edges →
        (b.answer m ⟨epoch, true⟩).Sound S start ∧ ∃ result,
          (b.answer m ⟨epoch, true⟩).results = b.results ++ [result] ∧
          b.store.graph.write m =
            some (result.alreadyExisted, (b.answer m ⟨epoch, true⟩).store.graph) :=
      fun epoch hmem => ⟨hb.answer hkey hmem _, _, rfl,
        write_of_none hkey hsorted (graph_union_self hmem) (decide_eq_true hmem).symm⟩
    split at hok
    · rename_i epoch hknown
      cases hok
      exact hexisting epoch (hb.known _ _ hknown)
    · split at hok
      · rename_i hown
        cases hok
        exact hexisting _ (mem_edges.mpr (.inl (mem_ownEdges.mpr hown)))
      · rename_i hown
        split at hok
        · rename_i epoch hsegment
          cases hok
          refine hexisting _ ?_
          rw [hb.edges]
          exact Finset.mem_union_left _ (mem_edges.mpr (.inr
            (h.past.segmentEpoch_isSome.mp (Option.isSome_iff_exists.mpr ⟨_, hsegment⟩))))
        · rename_i hsegment
          cases hok
          have hnew : m.edge ∉ b.store.edges := by
            rw [mem_edges, mem_ownEdges, not_or]
            refine ⟨hown, fun hmem => ?_⟩
            have hsome := h.past.segmentEpoch_isSome.mpr (hb.segments hmem)
            rw [hsegment] at hsome
            cases hsome
          obtain ⟨hp, hedges, hsegments⟩ := hb.pending.put floors hnew rfl
          have hwritten := hb.inserted hnew hp hedges hsegments
          have hmem : m.edge ∈ b.store.edges ∪ [m.edge].toFinset :=
            Finset.mem_union_right _ (List.mem_toFinset.mpr List.mem_cons_self)
          rw [← hedges] at hmem
          exact ⟨hwritten.answer hkey hmem ⟨start.sequence + 1, false⟩, _, rfl,
            write_of_none hkey hp.ordered.created (CellGraph.ext hedges rfl rfl rfl rfl rfl)
              (decide_eq_false hnew).symm⟩

/-- The loop of a batch writes one mutation after the other. -/
theorem writeMutations_spec (h : start.Coherent S) {ms : List EdgeMutation} {b b' : WriteBatch}
    (hb : b.Sound S start) (hok : writeMutations S floors start b ms = .ok b') :
    b'.Sound S start ∧ ∃ results, b'.results = b.results ++ results ∧
      CellGraph.each CellGraph.write ms b.store.graph =
        some (results.map CommitResult.alreadyExisted, b'.store.graph) := by
  induction ms generalizing b with
  | nil =>
      cases hok
      exact ⟨hb, [], (List.append_nil _).symm, rfl⟩
  | cons m ms ih =>
      obtain ⟨mid, hmid, hok⟩ := Fallible.bind_eq_ok hok
      obtain ⟨hmidSound, result, hresults, hwrite⟩ := writeMutation_spec h hb hmid
      obtain ⟨hb', results, hresults', heach⟩ := ih hmidSound hok
      refine ⟨hb', result :: results, ?_, ?_⟩
      · rw [hresults', hresults, List.append_assoc, List.singleton_append]
      · rw [CellGraph.each, hwrite, Option.bind_some, heach]
        rfl

/-- What `write_edge_mutations_batch` does. -/
theorem writeEdgeMutationsBatch_spec (h : s.Coherent S) {ms : List EdgeMutation}
    {result : EdgeMutationBatchResult}
    (hok : s.writeEdgeMutationsBatch S floors ms = .ok (result, s')) :
    CellGraph.each CellGraph.write ms s.graph =
      some (result.results.map CommitResult.alreadyExisted, s'.graph) ∧ (s' = s ∨ s.Commits S s') := by
  unfold writeEdgeMutationsBatch at hok
  split at hok
  · rename_i hempty
    cases hok
    rw [List.isEmpty_iff.mp hempty]
    exact ⟨rfl, .inl rfl⟩
  · obtain ⟨-, -, hok⟩ := Fallible.bind_eq_ok hok
    obtain ⟨-, -, hok⟩ := Fallible.bind_eq_ok hok
    split at hok
    · cases hok
    · obtain ⟨commitEpoch, -, hok⟩ := Fallible.bind_eq_ok hok
      obtain ⟨b, hloop, hok⟩ := Fallible.bind_eq_ok hok
      obtain ⟨s₁, hcommit, hok⟩ := Fallible.bind_eq_ok hok
      cases hok
      have hstart : (⟨s, [], [], []⟩ : WriteBatch).Sound S s :=
        ⟨Pending.begin h, List.nodup_nil, fun e he => (by cases he), by simp, subset_rfl, .nil,
          fun e epoch hknown => (by cases hknown)⟩
      obtain ⟨hb, results, hresults, heach⟩ := writeMutations_spec h hstart hloop
      refine ⟨?_, .inr ?_⟩
      · rw [heach, hresults, commit_eq_ok hcommit]
        rfl
      · have hfresh : false = true → s.sequence = 0 := fun h => by cases h
        exact hb.pending.commit_added h hb.nodup hb.new hb.edges hfresh (commit_eq_ok hcommit)

/-! ### Batches of deletes -/

/-- What the loop of a batch of deletes keeps. -/
structure DeleteBatch.Sound (S : Setting) (start : Store) (b : DeleteBatch) : Prop where
  pending : start.Pending S b.store
  nodup : b.deletedOut.Nodup
  old : ∀ e ∈ b.deletedOut, e ∈ start.edges
  edges : b.store.edges = start.edges \ b.deletedOut.toFinset
  segments : b.store.segmentEdges ⊆ start.segmentEdges
  reverse : S.writesReverseIndex = true → b.deletedIn = b.deletedOut

theorem DeleteBatch.Sound.answer {b : DeleteBatch} (hb : b.Sound S start)
    (hkey : get m.idempotencyKey b.store.deleted = none) (result : DeleteResult) :
    (b.answer m result).Sound S start :=
  ⟨hb.pending.recordDelete hkey result, hb.nodup, hb.old, hb.edges, hb.segments, hb.reverse⟩

/-- The loop has taken an edge away. -/
theorem DeleteBatch.Sound.deleted {b : DeleteBatch} (hb : b.Sound S start) (hmem : m.edge ∈ b.store.edges)
    (hp : start.Pending S s) (hedges : s.edges = b.store.edges \ [m.edge].toFinset)
    (hsegments : s.segmentEdges ⊆ b.store.segmentEdges) {deletedIn : List EdgeKey}
    (hin : S.writesReverseIndex = true → deletedIn = b.deletedIn ++ [m.edge]) :
    (DeleteBatch.mk s (b.deletedOut ++ [m.edge]) deletedIn b.results).Sound S start where
  pending := hp
  nodup := by
    refine List.Nodup.append hb.nodup (List.nodup_singleton _) ?_
    rw [List.disjoint_singleton]
    intro hgone
    rw [hb.edges] at hmem
    exact (Finset.mem_sdiff.mp hmem).2 (List.mem_toFinset.mpr hgone)
  old := fun e he => by
    rcases List.mem_append.mp he with he | he
    · exact hb.old e he
    · rw [List.mem_singleton.mp he]
      rw [hb.edges] at hmem
      exact (Finset.mem_sdiff.mp hmem).1
  edges := by rw [hedges, hb.edges, List.toFinset_append, sdiff_sdiff, Finset.sup_eq_union]
  segments := hsegments.trans hb.segments
  reverse := fun hpolicy => by rw [hin hpolicy, hb.reverse hpolicy]

/-- One mutation of a batch does what a delete does. -/
theorem deleteMutation_spec (h : start.Coherent S) {b b' : DeleteBatch} (hb : b.Sound S start)
    (hother : m.edge ∉ b.deletedOut) (hok : deleteMutation S floors start b m = .ok b') :
    b'.Sound S start ∧ (∀ e ∈ b'.deletedOut, e ∈ b.deletedOut ∨ e = m.edge) ∧
      ∃ result, b'.results = b.results ++ [result] ∧
        b.store.graph.delete m = some (result.deleted, b'.store.graph) := by
  have hsorted := hb.pending.ordered.deleted
  have hmem_last : ∀ e ∈ b.deletedOut ++ [m.edge], e ∈ b.deletedOut ∨ e = m.edge := fun e he =>
    (List.mem_append.mp he).imp_right List.mem_singleton.mp
  unfold deleteMutation at hok
  split at hok
  · rename_i edge stored hget
    split at hok
    · rename_i hedge
      cases hok
      exact ⟨⟨hb.pending, hb.nodup, hb.old, hb.edges, hb.segments, hb.reverse⟩, fun e he => .inl he,
        stored, rfl, delete_of_some hget hedge⟩
    · cases hok
  · rename_i hkey
    dsimp only at hok
    split at hok
    · rename_i hown
      cases hok
      have hmem : m.edge ∈ b.store.edges := mem_edges.mpr (.inl (mem_ownEdges.mpr hown))
      have hin : (if S.writesReverseIndex then erase m.edge.reverse b.store.inEdges
            else b.store.inEdges) = erase m.edge.reverse b.store.inEdges ∨
          S.writesReverseIndex = false ∧ (if S.writesReverseIndex then
            erase m.edge.reverse b.store.inEdges else b.store.inEdges) = b.store.inEdges := by
        cases S.writesReverseIndex <;> simp
      obtain ⟨hp, hedges, hsegments⟩ := hb.pending.drop floors (mem_ownEdges.mpr hown) hin rfl
      refine ⟨(hb.deleted hmem hp hedges hsegments fun hpolicy => if_pos hpolicy).answer hkey
        ⟨start.sequence + 1, true⟩, hmem_last, _, rfl, ?_⟩
      exact delete_of_none hkey hp.ordered.deleted (CellGraph.ext hedges rfl rfl rfl rfl rfl)
        (decide_eq_true hmem).symm
    · rename_i hown
      have hown' : m.edge ∉ b.store.ownEdges := fun hmem => hown (mem_ownEdges.mp hmem)
      split at hok
      · rename_i habsent
        cases hok
        have hnot : m.edge ∉ b.store.edges := by
          rw [mem_edges, not_or]
          refine ⟨hown', fun hmem => ?_⟩
          rw [Bool.or_eq_true] at habsent
          rcases habsent with hpolicy | hnone
          · rw [mem_segmentEdges, hb.pending.outbound hpolicy] at hmem
            obtain ⟨g, hg, -⟩ := hmem
            cases hg
          · have hsome := h.past.segmentEpoch_isSome.mpr (hb.segments hmem)
            rw [Option.isNone_iff_eq_none.mp hnone] at hsome
            cases hsome
        exact ⟨hb.answer hkey _, fun e he => .inl he, _, rfl,
          delete_of_none hkey hsorted (graph_sdiff_self hnot) (decide_eq_false hnot).symm⟩
      · rename_i hpresent
        cases hok
        rw [Bool.or_eq_true, not_or, Bool.not_eq_true, Bool.not_eq_true] at hpresent
        obtain ⟨hpolicy, hsome⟩ := hpresent
        have hmem : m.edge ∈ b.store.edges := by
          rw [hb.edges, Finset.mem_sdiff, List.mem_toFinset]
          refine ⟨mem_edges.mpr (.inr (h.past.segmentEpoch_isSome.mp ?_)), hother⟩
          rw [← Option.not_isNone, hsome]
          rfl
        have hsegment : m.edge ∈ b.store.segmentEdges := (mem_edges.mp hmem).resolve_left hown'
        obtain ⟨hp, hedges, hsegments⟩ := hb.pending.hide floors hsegment rfl
        have hin : S.writesReverseIndex = true → b.deletedIn = b.deletedIn ++ [m.edge] := fun h => by
          rw [hpolicy] at h
          cases h
        refine ⟨(hb.deleted hmem hp hedges hsegments hin).answer hkey ⟨start.sequence + 1, true⟩,
          hmem_last, _, rfl, ?_⟩
        exact delete_of_none hkey hp.ordered.deleted (CellGraph.ext hedges rfl rfl rfl rfl rfl)
          (decide_eq_true hmem).symm

/-- The loop of a batch deletes one mutation after the other. -/
theorem deleteMutations_spec (h : start.Coherent S) {ms : List EdgeMutation} {b b' : DeleteBatch}
    (hb : b.Sound S start) (hnodup : (ms.map EdgeMutation.edge).Nodup)
    (hother : ∀ m ∈ ms, m.edge ∉ b.deletedOut) (hok : deleteMutations S floors start b ms = .ok b') :
    b'.Sound S start ∧ ∃ results, b'.results = b.results ++ results ∧
      CellGraph.each CellGraph.delete ms b.store.graph =
        some (results.map DeleteResult.deleted, b'.store.graph) := by
  induction ms generalizing b with
  | nil =>
      cases hok
      exact ⟨hb, [], (List.append_nil _).symm, rfl⟩
  | cons m ms ih =>
      obtain ⟨mid, hmid, hok⟩ := Fallible.bind_eq_ok hok
      obtain ⟨hhead, hrest⟩ := List.nodup_cons.mp hnodup
      obtain ⟨hmidSound, hgone, result, hresults, hdelete⟩ :=
        deleteMutation_spec h hb (hother m List.mem_cons_self) hmid
      have hother' : ∀ m' ∈ ms, m'.edge ∉ mid.deletedOut := fun m' hm' hmem => by
        rcases hgone _ hmem with hmem | heq
        · exact hother m' (List.mem_cons_of_mem _ hm') hmem
        · exact hhead (heq ▸ List.mem_map_of_mem hm')
      obtain ⟨hb', results, hresults', heach⟩ := ih hmidSound hrest hother' hok
      refine ⟨hb', result :: results, ?_, ?_⟩
      · rw [hresults', hresults, List.append_assoc, List.singleton_append]
      · rw [CellGraph.each, hdelete, Option.bind_some, heach]
        rfl

/-- Mutations of which no two are about one edge. -/
theorem repeatedEdge_eq_none {ms : List EdgeMutation} {seen : List (EdgeKey × String)}
    (hseen : Sorted seen) (h : repeatedEdge ms seen = none) :
    (ms.map EdgeMutation.edge).Nodup ∧ ∀ m ∈ ms, get m.edge seen = none := by
  induction ms generalizing seen with
  | nil => exact ⟨List.nodup_nil, fun m hm => by cases hm⟩
  | cons m ms ih =>
      unfold repeatedEdge at h
      split at h
      · cases h
      · rename_i hnone
        obtain ⟨hnodup, hother⟩ := ih hseen.insert h
        have hne : ∀ m' ∈ ms, m'.edge ≠ m.edge ∧ get m'.edge seen = none := fun m' hm' => by
          have hget := hother m' hm'
          rw [hseen.get_insert] at hget
          split at hget
          · cases hget
          · exact ⟨‹_›, hget⟩
        refine ⟨List.nodup_cons.mpr ⟨fun hmem => ?_, hnodup⟩, fun m' hm' => ?_⟩
        · obtain ⟨m', hm', heq⟩ := List.mem_map.mp hmem
          exact (hne m' hm').1 heq
        · rcases List.mem_cons.mp hm' with rfl | hm'
          · exact hnone
          · exact (hne m' hm').2

/-- What `delete_edge_mutations_batch` does. -/
theorem deleteEdgeMutationsBatch_spec (h : s.Coherent S) {ms : List EdgeMutation}
    {result : EdgeDeleteBatchResult}
    (hok : s.deleteEdgeMutationsBatch S floors ms = .ok (result, s')) :
    CellGraph.each CellGraph.delete ms s.graph =
      some (result.results.map DeleteResult.deleted, s'.graph) ∧ (s' = s ∨ s.Commits S s') := by
  unfold deleteEdgeMutationsBatch at hok
  split at hok
  · rename_i hempty
    cases hok
    rw [List.isEmpty_iff.mp hempty]
    exact ⟨rfl, .inl rfl⟩
  · obtain ⟨-, -, hok⟩ := Fallible.bind_eq_ok hok
    obtain ⟨-, -, hok⟩ := Fallible.bind_eq_ok hok
    split at hok
    · cases hok
    · rename_i hrepeated
      obtain ⟨commitEpoch, -, hok⟩ := Fallible.bind_eq_ok hok
      obtain ⟨b, hloop, hok⟩ := Fallible.bind_eq_ok hok
      obtain ⟨s₁, hcommit, hok⟩ := Fallible.bind_eq_ok hok
      cases hok
      have hstart : (⟨s, [], [], []⟩ : DeleteBatch).Sound S s :=
        ⟨Pending.begin h, List.nodup_nil, fun e he => (by cases he), by simp, subset_rfl, fun _ => rfl⟩
      obtain ⟨hb, results, hresults, heach⟩ := deleteMutations_spec h hstart
        (repeatedEdge_eq_none .nil hrepeated).1 (fun m _ => List.not_mem_nil) hloop
      have hs' := commit_eq_ok hcommit
      rw [lowerIn_sequence] at hs'
      have hgraph : s'.graph = b.store.graph := by
        rw [hs', graph_withSequence, graph_lowerIn]
        rfl
      refine ⟨?_, .inr ?_⟩
      · rw [heach, hresults, hgraph]
        rfl
      · exact hb.pending.commit_removed h b.deletedIn hb.nodup hb.old hb.reverse hb.edges hs'

/-! ### Imports -/

theorem importEdges_nodup (edgeType : String) (edges : List (Nat × Nat)) :
    (importEdges edgeType edges).Nodup := List.nodup_dedup _

theorem mem_importEdges {edgeType : String} {edges : List (Nat × Nat)} {e : EdgeKey} :
    e ∈ importEdges edgeType edges ↔ e.edgeType = edgeType ∧ (e.src, e.dst) ∈ edges := by
  rw [importEdges, List.mem_dedup, List.mem_insertionSort, List.mem_map]
  constructor
  · rintro ⟨⟨src, dst⟩, hmem, rfl⟩
    exact ⟨rfl, hmem⟩
  · rintro ⟨rfl, hmem⟩
    exact ⟨_, hmem, rfl⟩

/-- The edges of an import that are not there. -/
def newEdges (s : Store) (keys : List EdgeKey) : List EdgeKey := keys.filter fun e => e ∉ s.edges

theorem mem_newEdges {keys : List EdgeKey} {e : EdgeKey} :
    e ∈ s.newEdges keys ↔ e ∈ keys ∧ e ∉ s.edges := by
  rw [newEdges, List.mem_filter, decide_eq_true_eq]

theorem newEdges_nodup {keys : List EdgeKey} (h : keys.Nodup) : (s.newEdges keys).Nodup := h.filter _

theorem newEdges_counts {keys : List EdgeKey} (hnodup : keys.Nodup) :
    s.graph.counts keys = ((s.newEdges keys).length, keys.length - (s.newEdges keys).length) := by
  have hnew : keys.toFinset \ s.graph.edges = (s.newEdges keys).toFinset := by
    ext e
    rw [Finset.mem_sdiff, List.mem_toFinset, List.mem_toFinset, mem_newEdges]
    rfl
  rw [CellGraph.counts, hnew, List.toFinset_card_of_nodup (newEdges_nodup hnodup)]

theorem union_newEdges (keys : List EdgeKey) :
    s.edges ∪ (s.newEdges keys).toFinset = s.edges ∪ keys.toFinset := by
  ext e
  rw [Finset.mem_union, Finset.mem_union, List.mem_toFinset, List.mem_toFinset, mem_newEdges]
  tauto

/-- An import whose caller says that no edge is there trusts the caller. -/
theorem missingEdges_eq (h : s.Coherent S) {policy : DuplicatePolicy} {keys : List EdgeKey}
    (htrusted : policy = .trustNoExisting → ∀ e ∈ keys, e ∉ s.edges) :
    s.missingEdges policy keys = s.newEdges keys := by
  unfold missingEdges newEdges
  split
  · refine List.filter_congr fun e _ => ?_
    have hown := mem_ownEdges (s := s) (e := e)
    have hsegment := h.past.mem_segmentNeighbors (e := e)
    rw [Bool.eq_iff_iff, decide_eq_true_eq, mem_edges, hown, ← hsegment]
    simp
  · rename_i htrust
    refine (List.filter_eq_self.mpr fun e he => ?_).symm
    rw [decide_eq_true_eq]
    cases policy with
    | trustNoExisting => exact htrusted rfl e he
    | checkExisting =>
        rw [h.fresh (by_contra fun hne => htrust ⟨rfl, hne⟩)]
        exact Finset.notMem_empty e

/-- Edges that are put one after the other. -/
theorem Pending.putAll (hp : start.Pending S s) (floors : List String) {edgeType : String}
    {added : List EdgeKey} (hnodup : added.Nodup) (htype : ∀ e ∈ added, e.edgeType = edgeType)
    (hnew : ∀ e ∈ added, e ∉ s.edges) (hs' : s' = added.foldl (fun s e =>
      (s.markTopologyChange floors edgeType (start.sequence + 1) [(e.src, e.dst, true)]).putOutEdge S e)
      s) : start.Pending S s' ∧ s'.graph = { s.graph with edges := s.edges ∪ added.toFinset } := by
  induction added generalizing s with
  | nil =>
      subst hs'
      refine ⟨hp, CellGraph.ext ?_ rfl rfl rfl rfl rfl⟩
      rw [List.toFinset_nil, Finset.union_empty]
      rfl
  | cons e rest ih =>
      obtain ⟨hhead, hrest⟩ := List.nodup_cons.mp hnodup
      obtain rfl := htype e List.mem_cons_self
      obtain ⟨hput, hedges, -⟩ := hp.put floors (hnew e List.mem_cons_self) rfl
      have hnew' : ∀ e' ∈ rest, e' ∉ ((s.markTopologyChange floors e.edgeType (start.sequence + 1)
          [(e.src, e.dst, true)]).putOutEdge S e).edges := by
        intro e' he'
        rw [hedges, Finset.mem_union, List.mem_toFinset, List.mem_singleton, not_or]
        exact ⟨hnew e' (List.mem_cons_of_mem _ he'), fun heq => hhead (heq ▸ he')⟩
      obtain ⟨hp', hgraph⟩ := ih hput hrest
        (fun e' he' => htype e' (List.mem_cons_of_mem _ he')) hnew' hs'
      refine ⟨hp', hgraph.trans (CellGraph.ext ?_ rfl rfl rfl rfl rfl)⟩
      dsimp only
      rw [hedges, List.toFinset_cons, List.toFinset_cons, List.toFinset_nil, Finset.union_assoc]
      rfl

/-- The mark after an import says nothing new. -/
theorem Pending.remark (hp : start.Pending S s) (edgeType : String) :
    start.Pending S (s.markTopologyChange floors edgeType (start.sequence + 1) []) where
  ordered := hp.ordered.mark floors edgeType _ [] true
  apart := hp.apart
  outbound := hp.outbound
  reverse := hp.reverse
  sequence := hp.sequence
  past := ⟨hp.past.segments, hp.past.tombstones⟩
  logs := hp.logs.mark hp.ordered floors edgeType [] true (fun e he => by cases he)
    (fun e => by rw [if_neg List.not_mem_nil]; rfl) rfl rfl rfl
  remembers := { hp.remembers with }
  degreeOut := hp.degreeOut
  degreeIn := hp.degreeIn

theorem graph_recordImport (h : Sorted s.imported) (key : String) (fingerprint : Nat)
    (result : BulkImportResult) :
    ({ s with imported := insert key (fingerprint, result) s.imported } : Store).graph =
      { s.graph with
        imported := Function.update s.graph.imported key
          (some (fingerprint, result.inserted, result.alreadyExisted)) } :=
  CellGraph.ext rfl rfl rfl (get_map_insert h _ _ _) rfl rfl

/-- An import that is answered for the first time; `mid` has the edges and no
answer yet. -/
theorem addImported_of_none {mid : Store} {key : String} {keys : List EdgeKey} {fingerprint : Nat}
    {r : BulkImportResult} (h : get key s.imported = none) (hsorted : Sorted mid.imported)
    (hmid : mid.graph = { s.graph with edges := s.edges ∪ keys.toFinset })
    (hcounts : s.graph.counts keys = (r.inserted, r.alreadyExisted)) :
    s.graph.addImported key fingerprint keys = some (.added r.inserted r.alreadyExisted,
      ({ mid with imported := insert key (fingerprint, r) mid.imported } : Store).graph) := by
  have hnone : s.graph.imported key = none := by simp [graph, h]
  rw [graph_recordImport hsorted, hmid, CellGraph.addImported, hnone, hcounts]
  rfl

theorem Pending.recordImport (hp : start.Pending S s) {key : String} (hkey : get key s.imported = none)
    (result : Nat × BulkImportResult) :
    start.Pending S { s with imported := insert key result s.imported } :=
  { hp with
    ordered := { hp.ordered with imported := hp.ordered.imported.insert }
    past := ⟨hp.past.segments, hp.past.tombstones⟩
    logs := hp.logs.congr rfl rfl rfl rfl
    remembers := { hp.remembers with
      imported := get_insert_new hp.ordered.imported hkey hp.remembers.imported } }

/-- What an import writes. -/
theorem import_pending (floors : List String) (h : s.Coherent S) {edgeType : String} {keys : List EdgeKey}
    (hnodup : keys.Nodup) (htype : ∀ e ∈ keys, e.edgeType = edgeType) {missing : List EdgeKey}
    (hmissing : missing = s.newEdges keys) {key reason : String} {epoch : Nat}
    (hepoch : s.importEpoch missing key reason = .ok epoch) :
    s.Pending S (s.importMissing S floors edgeType epoch missing) ∧
      (s.importMissing S floors edgeType epoch missing).graph =
        { s.graph with edges := s.edges ∪ missing.toFinset } := by
  unfold importEpoch at hepoch
  unfold importMissing
  split at hepoch
  · rename_i hempty
    obtain rfl := List.isEmpty_iff.mp hempty
    refine ⟨Pending.begin h, CellGraph.ext ?_ rfl rfl rfl rfl rfl⟩
    rw [List.toFinset_nil, Finset.union_empty]
    rfl
  · rename_i hsome
    obtain rfl := nextEpoch_eq_ok hepoch
    have hnew : ∀ e ∈ missing, e ∈ keys ∧ e ∉ s.edges := fun e he => mem_newEdges.mp (hmissing ▸ he)
    obtain ⟨hp, hgraph⟩ := (Pending.begin h).putAll floors (hmissing ▸ newEdges_nodup hnodup)
      (fun e he => htype e (hnew e he).1) (fun e he => (hnew e he).2) rfl
    dsimp only
    rw [if_neg hsome]
    exact ⟨hp.remark edgeType, hgraph⟩

/-- What `bulk_import_edges_with_options` does. -/
theorem bulkImportEdges_spec (h : s.Coherent S) {edgeType key : String} {edges : List (Nat × Nat)}
    {policy : DuplicatePolicy} {result : BulkImportResult}
    (htrusted : policy = .trustNoExisting → get key s.imported = none →
      ∀ e ∈ importEdges edgeType edges, e ∉ s.edges)
    (hok : s.bulkImportEdges S floors edgeType edges key policy = .ok (result, s')) :
    s.graph.addImported key (bulkImportFingerprint S.cellId edgeType (importEdges edgeType edges))
        (importEdges edgeType edges) = some (.added result.inserted result.alreadyExisted, s'.graph) ∧
      (s' = s ∨ s.Commits S s') := by
  unfold bulkImportEdges at hok
  obtain ⟨-, -, hok⟩ := Fallible.bind_eq_ok hok
  obtain ⟨-, -, hok⟩ := Fallible.bind_eq_ok hok
  obtain ⟨-, -, hok⟩ := Fallible.bind_eq_ok hok
  dsimp only at hok
  split at hok
  · rename_i fingerprint stored hget
    split at hok
    · rename_i hsame
      cases hok
      refine ⟨?_, .inl rfl⟩
      simp [CellGraph.addImported, graph, hget, hsame]
    · cases hok
  · rename_i hkey
    obtain ⟨epoch, hepoch, hok⟩ := Fallible.bind_eq_ok hok
    obtain ⟨s₁, hcommit, hok⟩ := Fallible.bind_eq_ok hok
    cases hok
    have hnodup := importEdges_nodup edgeType edges
    have hmissing := missingEdges_eq h (htrusted · hkey)
    rw [hmissing] at hcommit hepoch ⊢
    obtain ⟨hp, hgraph⟩ := import_pending floors h hnodup
      (fun e he => (mem_importEdges.mp he).1) rfl hepoch
    generalize s.importMissing S floors edgeType epoch (s.newEdges (importEdges edgeType edges)) =
      marked at hp hgraph hcommit
    have hs' := commit_eq_ok hcommit
    rw [union_newEdges] at hgraph
    refine ⟨?_, .inr ?_⟩
    · rw [addImported_of_none hkey hp.ordered.imported hgraph (r := ⟨epoch, epoch, _, _⟩)
        (newEdges_counts hnodup), hs']
      rfl
    · have hkey' := get_of_graph (congrArg CellGraph.imported hgraph) hkey
      refine (hp.recordImport hkey' (_, ⟨epoch, epoch, _, _⟩)).commit_added h (newEdges_nodup hnodup)
        (fun e he => (mem_newEdges.mp he).2) ?_ of_decide_eq_true hs'
      rw [union_newEdges]
      exact congrArg CellGraph.edges hgraph

/-! ### Appends -/

theorem graph_recordAppend (h : Sorted s.appended) (key : String) (fingerprint : Nat)
    (result : BulkImportResult) :
    ({ s with appended := insert key (fingerprint, result) s.appended } : Store).graph =
      { s.graph with
        appended := Function.update s.graph.appended key
          (some (fingerprint, result.inserted, result.alreadyExisted)) } :=
  CellGraph.ext rfl rfl rfl rfl (get_map_insert h _ _ _) rfl

theorem addAppended_of_none {mid : Store} {key : String} {keys : List EdgeKey} {fingerprint : Nat}
    {r : BulkImportResult} (h : get key s.appended = none) (hsorted : Sorted mid.appended)
    (hmid : mid.graph = { s.graph with edges := s.edges ∪ keys.toFinset })
    (hcounts : s.graph.counts keys = (r.inserted, r.alreadyExisted)) :
    s.graph.addAppended key fingerprint keys = some (.added r.inserted r.alreadyExisted,
      ({ mid with appended := insert key (fingerprint, r) mid.appended } : Store).graph) := by
  have hnone : s.graph.appended key = none := by simp [graph, h]
  rw [graph_recordAppend hsorted, hmid, CellGraph.addAppended, hnone, hcounts]
  rfl

theorem Pending.recordAppend (hp : start.Pending S s) {key : String} (hkey : get key s.appended = none)
    (result : Nat × BulkImportResult) :
    start.Pending S { s with appended := insert key result s.appended } :=
  { hp with
    ordered := { hp.ordered with appended := hp.ordered.appended.insert }
    past := ⟨hp.past.segments, hp.past.tombstones⟩
    logs := hp.logs.congr rfl rfl rfl rfl
    remembers := { hp.remembers with
      appended := get_insert_new hp.ordered.appended hkey hp.remembers.appended } }

theorem ensureOutbound_eq_ok {u : Unit} (h : ensureOutbound S = .ok u) : S.writesReverseIndex = false := by
  unfold ensureOutbound at h
  split at h
  · cases h
  · rename_i hpolicy
    exact Bool.not_eq_true _ ▸ hpolicy

theorem raiseDegrees_outbound (hpolicy : S.writesReverseIndex = false) (fresh : Bool)
    (edges : List EdgeKey) : s.raiseDegrees S fresh edges =
      { s with degreeOut := raise fresh (edges.map EdgeKey.source) s.degreeOut } := by
  rw [raiseDegrees, hpolicy]
  rfl

/-- What an append writes, before it counts. -/
theorem append_pending (floors : List String) (h : s.Coherent S)
    (hpolicy : S.writesReverseIndex = false) {edgeType : String} {src : Nat} {keys : List EdgeKey}
    (hsource : ∀ e ∈ keys, e.source = ⟨edgeType, src⟩) (segmentId : String) {key reason : String}
    {epoch : Nat} (hepoch : s.importEpoch (s.newEdges keys) key reason = .ok epoch) :
    ∃ mid, s.Pending S mid ∧ mid.graph = { s.graph with edges := s.edges ∪ keys.toFinset } ∧
      s.appendMissing floors edgeType src epoch segmentId (s.newEdges keys) =
        mid.raiseDegrees S (s.sequence = 0) (s.newEdges keys) := by
  unfold importEpoch at hepoch
  unfold appendMissing
  split at hepoch
  · rename_i hempty
    have hnil : s.newEdges keys = [] := List.isEmpty_iff.mp hempty
    refine ⟨s, Pending.begin h, CellGraph.ext ?_ rfl rfl rfl rfl rfl, ?_⟩
    · dsimp only
      rw [← union_newEdges, hnil, List.toFinset_nil, Finset.union_empty]
      rfl
    · rw [if_pos hempty, hnil, raiseDegrees_outbound hpolicy]
      rfl
  · rename_i hsome
    obtain rfl := nextEpoch_eq_ok hepoch
    obtain ⟨hp, hedges⟩ := Pending.append floors h hpolicy (s.newEdges keys) segmentId
      (fun e he => hsource e (mem_newEdges.mp he).1) (fun e he => (mem_newEdges.mp he).2) rfl
    rw [union_newEdges] at hedges
    refine ⟨_, hp, CellGraph.ext hedges rfl rfl rfl rfl rfl, ?_⟩
    rw [if_neg hsome, raiseDegrees_outbound hpolicy]
    rfl

/-- What `bulk_append_out_adjacency_segment_trusted` does. -/
theorem appendSegment_spec (h : s.Coherent S) {edgeType key : String} {src : Nat} {dsts : List Nat}
    {result : BulkImportResult}
    (hok : s.appendSegment S floors edgeType src dsts key = .ok (result, s')) :
    (let keys := importEdges edgeType (dsts.map fun dst => (src, dst))
     s.graph.addAppended key (bulkImportFingerprint S.cellId edgeType keys) keys) =
        some (.added result.inserted result.alreadyExisted, s'.graph) ∧
      (s' = s ∨ s.Commits S s') := by
  unfold appendSegment at hok
  obtain ⟨-, -, hok⟩ := Fallible.bind_eq_ok hok
  obtain ⟨-, -, hok⟩ := Fallible.bind_eq_ok hok
  obtain ⟨_, houtbound, hok⟩ := Fallible.bind_eq_ok hok
  obtain ⟨-, -, hok⟩ := Fallible.bind_eq_ok hok
  dsimp only at hok
  split at hok
  · rename_i fingerprint stored hget
    split at hok
    · rename_i hsame
      cases hok
      refine ⟨?_, .inl rfl⟩
      simp [CellGraph.addAppended, graph, hget, hsame]
    · cases hok
  · rename_i hkey
    obtain ⟨epoch, hepoch, hok⟩ := Fallible.bind_eq_ok hok
    obtain ⟨s₁, hcommit, hok⟩ := Fallible.bind_eq_ok hok
    cases hok
    have hpolicy := ensureOutbound_eq_ok houtbound
    have hnodup := importEdges_nodup edgeType (dsts.map fun dst => (src, dst))
    have hsource : ∀ e ∈ importEdges edgeType (dsts.map fun dst => (src, dst)),
        e.source = ⟨edgeType, src⟩ := fun e he => by
      obtain ⟨htype, hmem⟩ := mem_importEdges.mp he
      obtain ⟨dst, -, hpair⟩ := List.mem_map.mp hmem
      rw [EdgeKey.source, htype, (Prod.mk.inj hpair).1]
    generalize importEdges edgeType (dsts.map fun dst => (src, dst)) = keys at *
    have hmissing : (keys.filter fun e => e.dst ∉ s.outNeighbors ⟨edgeType, src⟩ s.sequence) =
        s.newEdges keys := by
      refine List.filter_congr fun e he => ?_
      rw [← hsource e he, decide_eq_decide, h.past.mem_outNeighbors]
    rw [hmissing] at hcommit hepoch ⊢
    obtain ⟨mid, hp, hgraph, hwritten⟩ := append_pending floors h hpolicy hsource key hepoch
    rw [hwritten] at hcommit
    refine ⟨?_, .inr ?_⟩
    · rw [addAppended_of_none hkey hp.ordered.appended hgraph (r := ⟨epoch, epoch, _, _⟩)
        (newEdges_counts hnodup), commit_eq_ok hcommit]
      rfl
    · have hkey' := get_of_graph (congrArg CellGraph.appended hgraph) hkey
      refine (hp.recordAppend hkey' (_, ⟨epoch, epoch, _, _⟩)).commit_added h (newEdges_nodup hnodup)
        (fun e he => (mem_newEdges.mp he).2) ?_ of_decide_eq_true (commit_eq_ok hcommit)
      rw [union_newEdges]
      exact congrArg CellGraph.edges hgraph

/-! ### Compactions -/

theorem Pending.recordCompaction (hp : start.Pending S s) {key : CompactionKey}
    (hkey : get key s.compacted = none) (result : SegmentCompactionResult) :
    start.Pending S { s with compacted := insert key result s.compacted } :=
  { hp with
    ordered := { hp.ordered with compacted := hp.ordered.compacted.insert }
    past := ⟨hp.past.segments, hp.past.tombstones⟩
    logs := hp.logs.congr rfl rfl rfl rfl
    remembers := { hp.remembers with
      compacted := get_insert_new hp.ordered.compacted hkey hp.remembers.compacted } }

theorem ensureReached_eq_ok {through : Nat} {u : Unit} (h : s.ensureReached S through = .ok u) :
    through ≤ s.sequence := by
  unfold ensureReached at h
  split at h
  · cases h
  · exact Nat.not_lt.mp ‹_›

/-- What `compact_out_adjacency_segments` does. -/
theorem compactSegments_spec (h : s.Coherent S) {edgeType key : String} {src through : Nat}
    {artifact : Option Nat} {result : SegmentCompactionResult}
    (hok : s.compactSegments S edgeType src through key artifact = .ok (result, s')) :
    s.graph.compact ⟨edgeType, src, key⟩ through = some (.compacted, s'.graph) ∧
      (s' = s ∨ s.Commits S s') := by
  unfold compactSegments at hok
  obtain ⟨-, -, hok⟩ := Fallible.bind_eq_ok hok
  obtain ⟨-, -, hok⟩ := Fallible.bind_eq_ok hok
  dsimp only at hok
  split at hok
  · rename_i stored hget
    split at hok
    · rename_i hsame
      cases hok
      refine ⟨?_, .inl rfl⟩
      simp [CellGraph.compact, graph, hget, hsame]
    · cases hok
  · rename_i hkey
    obtain ⟨_, hreached, hok⟩ := Fallible.bind_eq_ok hok
    obtain ⟨-, -, hok⟩ := Fallible.bind_eq_ok hok
    obtain ⟨s₁, hcommit, hok⟩ := Fallible.bind_eq_ok hok
    cases hok
    obtain ⟨hp, hedges⟩ := Pending.compact h ⟨edgeType, src⟩ through (ensureReached_eq_ok hreached)
      ("compact-" ++ key) rfl
    have hgraph : s'.graph = { s.graph with
        compacted := Function.update s.graph.compacted ⟨edgeType, src, key⟩ (some through) } := by
      rw [commit_eq_ok hcommit]
      exact CellGraph.ext hedges rfl rfl rfl rfl (get_map_insert h.ordered.compacted _ _ _)
    refine ⟨?_, .inr ?_⟩
    · have hnone : s.graph.compacted ⟨edgeType, src, key⟩ = none := by simp [graph, hkey]
      rw [hgraph, CellGraph.compact, hnone]
    · have hs' := commit_eq_ok hcommit
      refine (hp.recordCompaction hkey _).commit h hs' h.ordered.degreeOut.insert
        h.ordered.degreeIn (fun v => ?_) fun hpolicy v => ?_
      · rw [readCounter_insert h.ordered.degreeOut]
        refine Eq.trans ?_ (congrArg (degree EdgeKey.source v) hedges.symm)
        split
        · rename_i heq
          rw [heq, h.past.card_outNeighbors]
        · exact h.degreeOut v
      · exact (h.degreeIn hpolicy v).trans (congrArg (degree EdgeKey.destination v) hedges.symm)

/-! ### Requests -/

/-- The caller of an import that looks for no edge says that none of its edges is there. A retry
says nothing. -/
def Trusted (s : Store) : Request → Prop
  | .bulkImportEdges edgeType edges key .trustNoExisting =>
      get key s.imported = none → ∀ e ∈ importEdges edgeType edges, e ∉ s.edges
  | _ => True

/-- **A request does what it means** and is one transaction, or it is a retry
that changes nothing. -/
theorem perform_spec (h : s.Coherent S) {request : Request} (htrusted : s.Trusted request)
    {response : Response} (hok : perform S floors s request = .ok (response, s')) :
    s.graph.perform S request = some (response.outcome, s'.graph) ∧ (s' = s ∨ s.Commits S s') := by
  cases request with
  | writeEdge m =>
      obtain ⟨⟨result, s₁⟩, hrun, heq⟩ := Fallible.map_eq_ok.mp hok
      obtain ⟨rfl, rfl⟩ := Prod.mk.inj heq
      obtain ⟨hwrite, hcommits⟩ := writeEdge_spec h hrun
      exact ⟨by rw [CellGraph.perform, hwrite]; rfl, hcommits⟩
  | deleteEdge m =>
      obtain ⟨⟨result, s₁⟩, hrun, heq⟩ := Fallible.map_eq_ok.mp hok
      obtain ⟨rfl, rfl⟩ := Prod.mk.inj heq
      obtain ⟨hdelete, hcommits⟩ := deleteEdge_spec h hrun
      exact ⟨by rw [CellGraph.perform, hdelete]; rfl, hcommits⟩
  | writeEdgeMutationsBatch ms =>
      obtain ⟨⟨result, s₁⟩, hrun, heq⟩ := Fallible.map_eq_ok.mp hok
      obtain ⟨rfl, rfl⟩ := Prod.mk.inj heq
      obtain ⟨heach, hcommits⟩ := writeEdgeMutationsBatch_spec h hrun
      exact ⟨by rw [CellGraph.perform, heach]; rfl, hcommits⟩
  | deleteEdgeMutationsBatch ms =>
      obtain ⟨⟨result, s₁⟩, hrun, heq⟩ := Fallible.map_eq_ok.mp hok
      obtain ⟨rfl, rfl⟩ := Prod.mk.inj heq
      obtain ⟨heach, hcommits⟩ := deleteEdgeMutationsBatch_spec h hrun
      exact ⟨by rw [CellGraph.perform, heach]; rfl, hcommits⟩
  | bulkImportEdges edgeType edges key policy =>
      obtain ⟨⟨result, s₁⟩, hrun, heq⟩ := Fallible.map_eq_ok.mp hok
      obtain ⟨rfl, rfl⟩ := Prod.mk.inj heq
      exact bulkImportEdges_spec h (fun htrust => by subst htrust; exact htrusted) hrun
  | appendSegment edgeType src dsts key =>
      obtain ⟨⟨result, s₁⟩, hrun, heq⟩ := Fallible.map_eq_ok.mp hok
      obtain ⟨rfl, rfl⟩ := Prod.mk.inj heq
      exact appendSegment_spec h hrun
  | compactSegments edgeType src through key artifact =>
      obtain ⟨⟨result, s₁⟩, hrun, heq⟩ := Fallible.map_eq_ok.mp hok
      obtain ⟨rfl, rfl⟩ := Prod.mk.inj heq
      exact compactSegments_spec h hrun

end Store

end ContextMemory.Topology
