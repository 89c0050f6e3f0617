/-
What the requests on a cell do to its edges.

A store is coherent when its families agree (`Coherent`): no edge is both a key and visible in a
segment, the degrees count the edges, and the edges by destination are the edges. A transaction
keeps that while it runs, up to the degrees, and logs what it changes (`Pending`); what it commits is
coherent again (`Commits`).
-/

import ContextMemory.Hydra.Bulk
import Mathlib.Data.List.TakeWhile

namespace ContextMemory.Topology

open SortedMap (get erase insert Sorted)

/-- The entry of the changelog about an edge. -/
def EdgeKey.logKey (e : EdgeKey) (sequence : Nat) : XlogKey := ⟨e.edgeType, sequence, e.src, e.dst⟩

theorem EdgeKey.logKey_injective {e e' : EdgeKey} {n m : Nat} (h : e.logKey n = e'.logKey m) :
    e = e' := by
  obtain ⟨htype, -, hsrc, hdst⟩ := XlogKey.mk.inj h
  exact EdgeKey.mk.injEq .. ▸ ⟨htype, hsrc, hdst⟩

theorem EdgeKey.reverse_injective : Function.Injective EdgeKey.reverse := by
  intro e e' h
  obtain ⟨htype, hdst, hsrc⟩ := EdgeKey.mk.inj h
  exact EdgeKey.mk.injEq .. ▸ ⟨htype, hsrc, hdst⟩

/-- Segments of one source are ordered by their sequences. -/
theorem SegmentKey.sequence_le {k k' : SegmentKey} (htype : k.edgeType = k'.edgeType)
    (hsrc : k.src = k'.src) (h : k < k') : k.storageSequence ≤ k'.storageSequence := by
  have hlt : k.tuple < k'.tuple := h
  simp only [tuple, Prod.Lex.toLex_lt_toLex, htype, hsrc, lt_self_iff_false, true_and, false_or] at hlt
  omega

namespace Store

variable {S : Setting} {s s' start : Store} {e e' : EdgeKey} {n : Nat}

/-! ### Edges -/

/-- The edges that have a key of their own. -/
def ownEdges (s : Store) : Finset EdgeKey := (s.outEdges.map Prod.fst).toFinset

/-- No tombstone hides the edge in a segment. -/
def VisibleIn (s : Store) (g : SegmentKey × List Nat) (e : EdgeKey) : Prop :=
  g.1.edgeType = e.edgeType ∧ g.1.src = e.src ∧ e.dst ∈ g.2 ∧
    segmentEdgeVisible g.1.storageSequence (get e s.tombstones) = true

/-- The edges that some segment shows. -/
def segmentEdges (s : Store) : Finset EdgeKey :=
  (s.segments.flatMap fun g => (g.2.map (EdgeKey.mk g.1.edgeType g.1.src)).filter fun e =>
    segmentEdgeVisible g.1.storageSequence (get e s.tombstones)).toFinset

def edges (s : Store) : Finset EdgeKey := s.ownEdges ∪ s.segmentEdges

theorem mem_ownEdges : e ∈ s.ownEdges ↔ (get e s.outEdges).isSome = true := by
  rw [SortedMap.isSome_get_iff, ownEdges, List.mem_toFinset, List.mem_map]
  constructor
  · rintro ⟨⟨e', ⟨⟩⟩, hmem, rfl⟩
    exact ⟨(), hmem⟩
  · rintro ⟨⟨⟩, hmem⟩
    exact ⟨_, hmem, rfl⟩

theorem mem_segmentEdges : e ∈ s.segmentEdges ↔ ∃ g ∈ s.segments, s.VisibleIn g e := by
  simp only [segmentEdges, List.mem_toFinset, List.mem_flatMap, List.mem_filter, List.mem_map]
  constructor
  · rintro ⟨g, hg, ⟨dst, hdst, rfl⟩, hvisible⟩
    exact ⟨g, hg, rfl, rfl, hdst, hvisible⟩
  · rintro ⟨g, hg, htype, hsrc, hdst, hvisible⟩
    refine ⟨g, hg, ⟨e.dst, hdst, ?_⟩, hvisible⟩
    rw [htype, hsrc]

theorem mem_edges : e ∈ s.edges ↔ e ∈ s.ownEdges ∨ e ∈ s.segmentEdges := Finset.mem_union

/-! ### Reading at the last sequence -/

/-- Nothing in the store is later than a sequence. -/
structure Past (n : Nat) (s : Store) : Prop where
  segments : ∀ g ∈ s.segments, g.1.storageSequence ≤ n
  tombstones : ∀ t ∈ s.tombstones, t.2 ≤ n

theorem Past.tombstoneAt (h : s.Past n) (e : EdgeKey) : s.tombstoneAt e n = get e s.tombstones := by
  unfold Store.tombstoneAt
  cases hget : get e s.tombstones with
  | none => rfl
  | some epoch =>
      have hle := h.tombstones _ (SortedMap.mem_of_get hget)
      exact if_pos (decide_eq_true hle)

theorem Past.mem_segmentsAt (h : s.Past n) {v : VertexKey} {g : SegmentKey × List Nat} :
    g ∈ s.segmentsAt v n ↔ g ∈ s.segments ∧ g.1.edgeType = v.edgeType ∧ g.1.src = v.vertex := by
  unfold segmentsAt
  rw [List.takeWhile_eq_self_iff.mpr fun g hg => decide_eq_true
    (h.segments g (List.mem_filter.mp hg).1), List.mem_filter, decide_eq_true_eq]

/-- What a read of the segments of a source returns. -/
theorem Past.mem_outSegmentEdges (h : s.Past n) {v : VertexKey} {dst sequence : Nat} :
    (dst, sequence) ∈ s.outSegmentEdges v n ↔
      ∃ g ∈ s.segments, g.1.storageSequence = sequence ∧ s.VisibleIn g ⟨v.edgeType, v.vertex, dst⟩ := by
  simp only [outSegmentEdges, visibleIn, List.mem_flatMap, List.mem_map, List.mem_filter,
    h.mem_segmentsAt, h.tombstoneAt]
  constructor
  · rintro ⟨g, ⟨hg, htype, hsrc⟩, dst', ⟨hdst, hvisible⟩, heq⟩
    obtain ⟨rfl, rfl⟩ := Prod.mk.inj heq
    rw [htype, hsrc] at hvisible
    exact ⟨g, hg, rfl, htype, hsrc, hdst, hvisible⟩
  · rintro ⟨g, hg, rfl, htype, hsrc, hdst, hvisible⟩
    refine ⟨g, ⟨hg, htype, hsrc⟩, dst, ⟨hdst, ?_⟩, rfl⟩
    rw [htype, hsrc]
    exact hvisible

/-- A destination is read from the segments of a source when the edge is visible
in one. -/
theorem Past.mem_segmentNeighbors (h : s.Past n) :
    e.dst ∈ (s.outSegmentEdges e.source n).map Prod.fst ↔ e ∈ s.segmentEdges := by
  rw [mem_segmentEdges, List.mem_map]
  constructor
  · rintro ⟨⟨dst, sequence⟩, hmem, heq⟩
    obtain ⟨g, hg, -, hvisible⟩ := h.mem_outSegmentEdges.mp hmem
    dsimp only at heq
    subst heq
    exact ⟨g, hg, hvisible⟩
  · rintro ⟨g, hg, hvisible⟩
    exact ⟨(e.dst, g.1.storageSequence), h.mem_outSegmentEdges.mpr ⟨g, hg, rfl, hvisible⟩, rfl⟩

theorem Past.segmentEpoch_isSome (h : s.Past n) :
    (s.segmentEpoch e n).isSome = true ↔ e ∈ s.segmentEdges := by
  rw [← h.mem_segmentNeighbors, segmentEpoch, List.isSome_max?_iff, ne_eq, List.map_eq_nil_iff,
    List.filter_eq_nil_iff, List.mem_map]
  simp only [decide_eq_true_eq, not_forall, not_not, exists_prop]

theorem Past.segmentRecordAt_isSome (h : s.Past n) :
    (s.segmentRecordAt e n).isSome = true ↔ e ∈ s.segmentEdges := by
  rw [mem_segmentEdges, segmentRecordAt, List.getLast?_isSome, ne_eq, List.map_eq_nil_iff,
    List.filter_eq_nil_iff]
  simp only [h.mem_segmentsAt, h.tombstoneAt, Bool.and_eq_true, List.contains_iff_mem, not_forall,
    not_not, exists_prop]
  constructor
  · rintro ⟨g, ⟨hg, htype, hsrc⟩, hdst, hvisible⟩
    exact ⟨g, hg, htype, hsrc, hdst, hvisible⟩
  · rintro ⟨g, hg, htype, hsrc, hdst, hvisible⟩
    exact ⟨g, ⟨hg, htype, hsrc⟩, hdst, hvisible⟩

/-- A record that was found is not hidden. -/
theorem Past.segmentRecordAt_visible (h : s.Past n) {sequence : Nat}
    (hrecord : s.segmentRecordAt e n = some sequence) :
    segmentEdgeVisible sequence (get e s.tombstones) = true := by
  obtain ⟨g, hg, rfl⟩ := List.mem_map.mp (List.mem_of_getLast? hrecord)
  have hvisible := (Bool.and_eq_true_iff.mp (List.mem_filter.mp hg).2).2
  rwa [h.tombstoneAt] at hvisible

theorem Past.edgeEpochAt_isSome (h : s.Past n) : (s.edgeEpochAt e n).isSome = true ↔ e ∈ s.edges := by
  rw [mem_edges, mem_ownEdges]
  unfold edgeEpochAt
  split
  · simp [*]
  · simp [*, h.segmentEpoch_isSome]

theorem Past.mem_outNeighbors (h : s.Past n) :
    e.dst ∈ s.outNeighbors e.source n ↔ e ∈ s.edges := by
  rw [outNeighbors, List.mem_toFinset, List.mem_append, h.mem_segmentNeighbors, mem_edges, ownEdges,
    List.mem_toFinset, List.mem_map, List.mem_map]
  refine or_congr ⟨?_, ?_⟩ Iff.rfl
  · rintro ⟨e', hmem, hdst⟩
    obtain ⟨hmem, hsource⟩ := List.mem_filter.mp hmem
    refine ⟨e', hmem, ?_⟩
    have htype := congrArg VertexKey.edgeType (of_decide_eq_true hsource)
    have hsrc := congrArg VertexKey.vertex (of_decide_eq_true hsource)
    exact EdgeKey.mk.injEq .. ▸ ⟨htype, hsrc, hdst⟩
  · rintro ⟨e', hmem, rfl⟩
    exact ⟨e', List.mem_filter.mpr ⟨hmem, decide_eq_true rfl⟩, rfl⟩

/-! ### Counters -/

theorem readCounter_insert {counters : List (VertexKey × Nat)} (h : Sorted counters) {v v' : VertexKey}
    {count : Nat} : readCounter v' (insert v count counters) =
      if v' = v then count else readCounter v' counters := by
  unfold readCounter
  rw [h.get_insert]
  split <;> rfl

/-- Counters that are set one after the other, each from what it was at first. -/
theorem readCounter_foldl (f : VertexKey → Nat → Nat) (vertices : List VertexKey)
    (hnodup : vertices.Nodup) {counters : List (VertexKey × Nat)} (h : Sorted counters) :
    Sorted (vertices.foldl (fun c v => insert v (f v (readCounter v c)) c) counters) ∧
      ∀ v, readCounter v (vertices.foldl (fun c v => insert v (f v (readCounter v c)) c) counters) =
        if v ∈ vertices then f v (readCounter v counters) else readCounter v counters := by
  induction vertices generalizing counters with
  | nil => exact ⟨h, fun v => (if_neg List.not_mem_nil).symm⟩
  | cons head rest ih =>
      obtain ⟨hhead, hrest⟩ := List.nodup_cons.mp hnodup
      obtain ⟨hsorted, hread⟩ := ih hrest (h.insert (k := head) (v := f head (readCounter head counters)))
      refine ⟨hsorted, fun v => ?_⟩
      rw [List.foldl_cons, hread v, readCounter_insert h]
      by_cases hv : v = head
      · subst hv
        rw [if_neg hhead, if_pos rfl, if_pos List.mem_cons_self]
      · rw [if_neg hv]
        simp only [List.mem_cons, hv, false_or]

theorem Sorted_raise {counters : List (VertexKey × Nat)} (h : Sorted counters) (fresh : Bool)
    (vertices : List VertexKey) : Sorted (raise fresh vertices counters) :=
  (readCounter_foldl (fun v count => (if fresh then 0 else count) + vertices.count v) _
    (List.nodup_dedup _) h).1

theorem Sorted_lower {counters : List (VertexKey × Nat)} (h : Sorted counters)
    (vertices : List VertexKey) : Sorted (lower vertices counters) :=
  (readCounter_foldl (fun v count => count - vertices.count v) _ (List.nodup_dedup _) h).1

theorem readCounter_raise {counters : List (VertexKey × Nat)} (h : Sorted counters) {fresh : Bool}
    (hfresh : fresh = true → ∀ v, readCounter v counters = 0) (vertices : List VertexKey)
    (v : VertexKey) :
    readCounter v (raise fresh vertices counters) = readCounter v counters + vertices.count v := by
  unfold raise
  rw [(readCounter_foldl (fun v count => (if fresh then 0 else count) + vertices.count v) _
    (List.nodup_dedup _) h).2]
  have hbase : (if fresh then 0 else readCounter v counters) = readCounter v counters := by
    split
    · rename_i hyes
      exact (hfresh hyes v).symm
    · rfl
  split
  · rw [hbase]
  · rename_i hnot
    rw [List.count_eq_zero_of_not_mem fun hmem => hnot (List.mem_dedup.mpr hmem), Nat.add_zero]

theorem readCounter_lower {counters : List (VertexKey × Nat)} (h : Sorted counters)
    (vertices : List VertexKey) (v : VertexKey) :
    readCounter v (lower vertices counters) = readCounter v counters - vertices.count v := by
  unfold lower
  rw [(readCounter_foldl (fun v count => count - vertices.count v) _ (List.nodup_dedup _) h).2]
  split
  · rfl
  · rename_i hnot
    rw [List.count_eq_zero_of_not_mem fun hmem => hnot (List.mem_dedup.mpr hmem), Nat.sub_zero]

/-- How many edges have a vertex at one end. -/
def degree (f : EdgeKey → VertexKey) (v : VertexKey) (edges : Finset EdgeKey) : Nat :=
  (edges.filter fun e => f e = v).card

theorem degree_toFinset {f : EdgeKey → VertexKey} {v : VertexKey} {list : List EdgeKey}
    (hnodup : list.Nodup) : degree f v list.toFinset = (list.map f).count v := by
  have hfilter : (list.toFinset.filter fun e => f e = v) = (list.filter fun e => f e == v).toFinset := by
    ext e
    simp
  rw [degree, hfilter, List.toFinset_card_of_nodup (hnodup.filter _), List.count, List.countP_map,
    List.countP_eq_length_filter]
  rfl

/-- Edges that are new each count once more. -/
theorem degree_union {f : EdgeKey → VertexKey} {v : VertexKey} (edges : Finset EdgeKey)
    {added : List EdgeKey} (hnodup : added.Nodup) (hnew : ∀ e ∈ added, e ∉ edges) :
    degree f v (edges ∪ added.toFinset) = degree f v edges + (added.map f).count v := by
  rw [← degree_toFinset hnodup, degree, Finset.filter_union, Finset.card_union_of_disjoint]
  · rfl
  · refine Finset.disjoint_filter_filter (Finset.disjoint_left.mpr fun e he hadded => ?_)
    exact hnew e (List.mem_toFinset.mp hadded) he

/-- Edges that are gone each count once less. -/
theorem degree_sdiff {f : EdgeKey → VertexKey} {v : VertexKey} {edges : Finset EdgeKey}
    {removed : List EdgeKey} (hnodup : removed.Nodup) (hold : ∀ e ∈ removed, e ∈ edges) :
    degree f v (edges \ removed.toFinset) = degree f v edges - (removed.map f).count v := by
  have hsplit : edges = (edges \ removed.toFinset) ∪ removed.toFinset :=
    (Finset.sdiff_union_of_subset fun e he => hold e (List.mem_toFinset.mp he)).symm
  have hcount := degree_union (f := f) (v := v) (edges \ removed.toFinset) hnodup fun e he hmem => (Finset.mem_sdiff.mp hmem).2 (List.mem_toFinset.mpr he)
  rw [← hsplit] at hcount
  omega

/-! ### Coherent stores -/

/-- Every family is in the order of its keys. -/
structure Ordered (s : Store) : Prop where
  outEdges : Sorted s.outEdges
  inEdges : Sorted s.inEdges
  segments : Sorted s.segments
  tombstones : Sorted s.tombstones
  degreeOut : Sorted s.degreeOut
  degreeIn : Sorted s.degreeIn
  xlog : Sorted s.xlog
  xlogLow : Sorted s.xlogLow
  matrixDirty : Sorted s.matrixDirty
  created : Sorted s.created
  deleted : Sorted s.deleted
  imported : Sorted s.imported
  appended : Sorted s.appended
  compacted : Sorted s.compacted

/-- The families that hold the edges agree. -/
structure Agrees (S : Setting) (s : Store) : Prop where
  ordered : s.Ordered
  apart : Disjoint s.ownEdges s.segmentEdges
  outbound : S.writesReverseIndex = true → s.segments = []
  reverse : S.writesReverseIndex = true →
    ∀ e, (get e.reverse s.inEdges).isSome = true ↔ e ∈ s.ownEdges

/-- A store between two transactions. -/
structure Coherent (S : Setting) (s : Store) : Prop extends s.Agrees S where
  past : s.Past s.sequence
  xlogPast : ∀ k, s.sequence < k.sequence → get k s.xlog = none
  degreeOut : ∀ v, readCounter v s.degreeOut = degree EdgeKey.source v s.edges
  degreeIn : S.writesReverseIndex = true →
    ∀ v, readCounter v s.degreeIn = degree EdgeKey.destination v s.edges
  fresh : s.sequence = 0 → s.edges = ∅

theorem Coherent.empty (S : Setting) : Coherent S Store.empty where
  ordered := by
    constructor <;> exact List.Pairwise.nil
  apart := Finset.disjoint_left.mpr fun e he => by cases he
  outbound _ := rfl
  reverse _ e := ⟨fun h => (by cases h), fun h => (by cases h)⟩
  past := ⟨fun g hg => (by cases hg), fun t ht => (by cases ht)⟩
  xlogPast _ _ := rfl
  degreeOut _ := rfl
  degreeIn _ _ := rfl
  fresh _ := rfl

theorem degree_empty (f : EdgeKey → VertexKey) (v : VertexKey) : degree f v ∅ = 0 := rfl

theorem Coherent.degreeOut_fresh (h : s.Coherent S) (hs : s.sequence = 0) (v : VertexKey) :
    readCounter v s.degreeOut = 0 := by
  rw [h.degreeOut, h.fresh hs, degree_empty]

theorem Coherent.degreeIn_fresh (h : s.Coherent S) (hpolicy : S.writesReverseIndex = true)
    (hs : s.sequence = 0) (v : VertexKey) : readCounter v s.degreeIn = 0 := by
  rw [h.degreeIn hpolicy, h.fresh hs, degree_empty]

/-! ### Transactions -/

/-- The changelog says what a transaction on `start` has changed so far: its entries, at the next
sequence, tell which edges there are, and an edge without one is as it was. -/
structure Logs (start s : Store) : Prop where
  state : ∀ e present, get (e.logKey (start.sequence + 1)) s.xlog = some present →
    present = decide (e ∈ s.edges)
  kept : ∀ e, get (e.logKey (start.sequence + 1)) s.xlog = none → (e ∈ s.edges ↔ e ∈ start.edges)
  older : ∀ k, k.sequence ≠ start.sequence + 1 → get k s.xlog = get k start.xlog
  floor : ∀ edgeType, get edgeType s.xlogLow = get edgeType start.xlogLow ∨
    get edgeType start.xlogLow = none ∧ get edgeType s.xlogLow = some (start.sequence + 1)
  dirty : ∀ e, (e ∈ s.edges ↔ e ∈ start.edges) ∨
    get e.edgeType s.matrixDirty = some (start.sequence + 1)
  marked : ∀ edgeType, get edgeType s.matrixDirty = get edgeType start.matrixDirty ∨
    get edgeType s.matrixDirty = some (start.sequence + 1)

/-- The answers that were stored stay. -/
structure Remembers (start s : Store) : Prop where
  created : ∀ key answer, get key start.created = some answer → get key s.created = some answer
  deleted : ∀ key answer, get key start.deleted = some answer → get key s.deleted = some answer
  imported : ∀ key answer, get key start.imported = some answer → get key s.imported = some answer
  appended : ∀ key answer, get key start.appended = some answer → get key s.appended = some answer
  compacted : ∀ key answer, get key start.compacted = some answer → get key s.compacted = some answer

theorem Remembers.refl (s : Store) : s.Remembers s :=
  ⟨fun _ _ => id, fun _ _ => id, fun _ _ => id, fun _ _ => id, fun _ _ => id⟩

theorem Remembers.trans {mid : Store} (h : start.Remembers mid) (h' : mid.Remembers s) :
    start.Remembers s :=
  ⟨fun key answer hget => h'.created key answer (h.created key answer hget),
    fun key answer hget => h'.deleted key answer (h.deleted key answer hget),
    fun key answer hget => h'.imported key answer (h.imported key answer hget),
    fun key answer hget => h'.appended key answer (h.appended key answer hget),
    fun key answer hget => h'.compacted key answer (h.compacted key answer hget)⟩

/-- A transaction that began on `start`, before it counts. -/
structure Pending (S : Setting) (start s : Store) : Prop extends s.Agrees S where
  sequence : s.sequence = start.sequence
  past : s.Past (start.sequence + 1)
  logs : start.Logs s
  remembers : start.Remembers s
  degreeOut : s.degreeOut = start.degreeOut
  degreeIn : s.degreeIn = start.degreeIn

/-- What a transaction on `start` committed. -/
structure Commits (S : Setting) (start s : Store) : Prop where
  coherent : s.Coherent S
  sequence : s.sequence = start.sequence + 1
  logs : start.Logs s
  remembers : start.Remembers s

theorem Pending.begin (h : start.Coherent S) : start.Pending S start where
  toAgrees := h.toAgrees
  sequence := rfl
  past := ⟨fun g hg => (h.past.segments g hg).trans (Nat.le_succ _),
    fun t ht => (h.past.tombstones t ht).trans (Nat.le_succ _)⟩
  logs :=
    { state := fun e _ hsome => by
        rw [h.xlogPast _ (Nat.lt_succ_self _)] at hsome
        cases hsome
      kept := fun _ _ => Iff.rfl
      older := fun _ _ => rfl
      floor := fun _ => .inl rfl
      dirty := fun _ => .inl Iff.rfl
      marked := fun _ => .inl rfl }
  remembers := .refl start
  degreeOut := rfl
  degreeIn := rfl

/-- Nothing that the logs are about changes. -/
theorem Logs.congr (h : start.Logs s) (hedges : s'.edges = s.edges) (hxlog : s'.xlog = s.xlog)
    (hlow : s'.xlogLow = s.xlogLow) (hdirty : s'.matrixDirty = s.matrixDirty) : start.Logs s' := by
  obtain ⟨hstate, hkept, holder, hfloor, hedge, hmarked⟩ := h
  constructor <;> simpa only [hedges, hxlog, hlow, hdirty]

/-- What is marked for edges of one type that all come or all go. -/
theorem Logs.mark {s' : Store} (h : start.Logs s) (ho : s.Ordered) (floors : List String)
    (edgeType : String) (changed : List EdgeKey) (present : Bool)
    (htype : ∀ e ∈ changed, e.edgeType = edgeType)
    (hedges : ∀ e, e ∈ s'.edges ↔ if e ∈ changed then present = true else e ∈ s.edges)
    (hxlog : s'.xlog = (s.markTopologyChange floors edgeType (start.sequence + 1)
      (changed.map fun e => (e.src, e.dst, present))).xlog)
    (hlow : s'.xlogLow = (s.markTopologyChange floors edgeType (start.sequence + 1)
      (changed.map fun e => (e.src, e.dst, present))).xlogLow)
    (hdirty : s'.matrixDirty = insert edgeType (start.sequence + 1) s.matrixDirty) :
    start.Logs s' := by
  have hkeys : s'.xlog = (changed.map fun e => e.logKey (start.sequence + 1)).foldl
      (fun log k => insert k present log) s.xlog := by
    rw [hxlog, markTopologyChange, List.foldl_map, List.foldl_map]
    refine List.foldl_ext _ _ _ fun log e he => ?_
    rw [EdgeKey.logKey, htype e he]
  have hget : ∀ k, get k s'.xlog = if k ∈ changed.map (fun e => e.logKey (start.sequence + 1)) then
      some present else get k s.xlog := by
    rw [hkeys]
    exact (ho.xlog.foldl_insert _).2
  have hmem : ∀ e, e.logKey (start.sequence + 1) ∈
      changed.map (fun e => e.logKey (start.sequence + 1)) ↔ e ∈ changed := by
    intro e
    rw [List.mem_map]
    constructor
    · rintro ⟨e', he', hkey⟩
      exact EdgeKey.logKey_injective hkey ▸ he'
    · exact fun he => ⟨e, he, rfl⟩
  refine ⟨fun e state hstate => ?_, fun e hnone => ?_, fun k hk => ?_, fun t => ?_, fun e => ?_,
    fun t => ?_⟩
  · rw [hget] at hstate
    by_cases he : e ∈ changed
    · rw [if_pos ((hmem e).mpr he)] at hstate
      obtain rfl := Option.some.inj hstate
      have hiff := hedges e
      rw [if_pos he] at hiff
      simp [hiff]
    · rw [if_neg fun h => he ((hmem e).mp h)] at hstate
      have hiff := hedges e
      rw [if_neg he] at hiff
      simp [h.state e state hstate, hiff]
  · rw [hget] at hnone
    by_cases he : e ∈ changed
    · rw [if_pos ((hmem e).mpr he)] at hnone
      cases hnone
    · rw [if_neg fun h => he ((hmem e).mp h)] at hnone
      have hiff := hedges e
      rw [if_neg he] at hiff
      exact hiff.trans (h.kept e hnone)
  · rw [hget, if_neg, h.older k hk]
    intro hmem
    obtain ⟨e, -, rfl⟩ := List.mem_map.mp hmem
    exact hk rfl
  · rw [hlow, markTopologyChange]
    dsimp only
    split
    · exact h.floor t
    · rename_i hset
      rw [ho.xlogLow.get_insert]
      split
      · rename_i heq
        subst heq
        have hnone : get t s.xlogLow = none := by
          rw [Bool.or_eq_true, not_or] at hset
          exact Option.not_isSome_iff_eq_none.mp hset.2
        refine .inr ⟨?_, rfl⟩
        rcases h.floor t with hsame | ⟨hnone', -⟩
        · rw [← hsame]
          exact hnone
        · exact hnone'
      · exact h.floor t
  · rw [hdirty, ho.matrixDirty.get_insert]
    split
    · exact .inr rfl
    · rename_i hne
      have hiff := hedges e
      rw [if_neg fun he => hne (htype e he)] at hiff
      exact (h.dirty e).imp_left hiff.trans
  · rw [hdirty, ho.matrixDirty.get_insert]
    split
    · exact .inr rfl
    · exact h.marked t

/-! ### What a transaction does -/

theorem Ordered.mark (h : s.Ordered) (floors : List String) (edgeType : String) (epoch : Nat)
    (changed : List EdgeKey) (present : Bool) :
    (s.markTopologyChange floors edgeType epoch
      (changed.map fun e => (e.src, e.dst, present))).Ordered := by
  refine { h with matrixDirty := h.matrixDirty.insert, xlogLow := ?_, xlog := ?_ }
  · unfold markTopologyChange
    dsimp only
    rw [List.foldl_map, ← List.foldl_map (f := fun e : EdgeKey => XlogKey.mk edgeType epoch e.src e.dst)
      (g := fun log k => insert k present log)]
    exact (h.xlog.foldl_insert _).1
  · unfold markTopologyChange
    dsimp only
    split
    · exact h.xlogLow
    · exact h.xlogLow.insert

section Parts

variable (floors : List String)

/-- A new edge gets a key. -/
theorem Pending.put (hp : start.Pending S s) (hnew : e ∉ s.edges) (hs' : s' =
    (s.markTopologyChange floors e.edgeType (start.sequence + 1) [(e.src, e.dst, true)]).putOutEdge S e) :
    start.Pending S s' ∧ s'.edges = s.edges ∪ [e].toFinset ∧ s'.segmentEdges ⊆ s.segmentEdges := by
  have ho := hp.ordered.mark floors e.edgeType (start.sequence + 1) [e] true
  have hown : ∀ e', e' ∈ s'.ownEdges ↔ e' = e ∨ e' ∈ s.ownEdges := by
    intro e'
    have hget : get e' s'.outEdges = if e' = e then some () else get e' s.outEdges := by
      rw [hs']
      exact hp.ordered.outEdges.get_insert
    rw [mem_ownEdges, mem_ownEdges, hget]
    split <;> simp [*]
  have hsegments : s'.segmentEdges = s.segmentEdges := by rw [hs']; rfl
  have hedges : ∀ e', e' ∈ s'.edges ↔ e' = e ∨ e' ∈ s.edges := by
    intro e'
    rw [mem_edges, mem_edges, hown, hsegments, or_assoc]
  rw [mem_edges, not_or] at hnew
  refine ⟨⟨⟨?_, ?_, ?_, ?_⟩, ?_, ?_, ?_, ?_, ?_, ?_⟩, ?_, hsegments.le⟩
  · rw [hs']
    refine { ho with outEdges := hp.ordered.outEdges.insert, inEdges := ?_ }
    unfold putOutEdge
    dsimp only
    split
    · exact hp.ordered.inEdges.insert
    · exact hp.ordered.inEdges
  · refine Finset.disjoint_left.mpr fun e' he' => ?_
    rw [hsegments]
    rcases (hown e').mp he' with rfl | he'
    · exact hnew.2
    · exact Finset.disjoint_left.mp hp.apart he'
  · rw [hs']
    exact hp.outbound
  · intro hpolicy e'
    have hget : get e'.reverse s'.inEdges =
        if e'.reverse = e.reverse then some () else get e'.reverse s.inEdges := by
      rw [hs', putOutEdge]
      dsimp only
      rw [if_pos hpolicy]
      exact hp.ordered.inEdges.get_insert
    rw [hown, hget]
    by_cases he' : e' = e
    · simp [he']
    · rw [if_neg fun h => he' (EdgeKey.reverse_injective h), hp.reverse hpolicy]
      simp [he']
  · rw [hs']
    exact hp.sequence
  · rw [hs']
    exact ⟨hp.past.segments, hp.past.tombstones⟩
  · refine hp.logs.mark hp.ordered floors e.edgeType [e] true (by simp) (fun e' => ?_)
      (by rw [hs']; rfl) (by rw [hs']; rfl) (by rw [hs']; rfl)
    rw [hedges]
    by_cases he' : e' = e <;> simp [he']
  · rw [hs']
    exact { hp.remembers with }
  · rw [hs']
    exact hp.degreeOut
  · rw [hs']
    exact hp.degreeIn
  · ext e'
    rw [hedges]
    simp

/-- The logs of a transaction that took an edge away. -/
theorem Pending.logs_gone (hp : start.Pending S s)
    (hedges : ∀ e', e' ∈ s'.edges ↔ e' ≠ e ∧ e' ∈ s.edges)
    (hxlog : s'.xlog = (s.markTopologyChange floors e.edgeType (start.sequence + 1)
      [(e.src, e.dst, false)]).xlog)
    (hlow : s'.xlogLow = (s.markTopologyChange floors e.edgeType (start.sequence + 1)
      [(e.src, e.dst, false)]).xlogLow)
    (hdirty : s'.matrixDirty = insert e.edgeType (start.sequence + 1) s.matrixDirty) :
    start.Logs s' := by
  refine hp.logs.mark hp.ordered floors e.edgeType [e] false (by simp) (fun e' => ?_) hxlog hlow hdirty
  rw [hedges]
  by_cases he' : e' = e <;> simp [he']

/-- An edge loses its key. -/
theorem Pending.drop (hp : start.Pending S s) (he : e ∈ s.ownEdges) {inEdges : List (EdgeKey × Unit)}
    (hin : inEdges = erase e.reverse s.inEdges ∨ S.writesReverseIndex = false ∧ inEdges = s.inEdges)
    (hs' : s' = { s.markTopologyChange floors e.edgeType (start.sequence + 1) [(e.src, e.dst, false)] with
      outEdges := erase e s.outEdges, inEdges := inEdges }) :
    start.Pending S s' ∧ s'.edges = s.edges \ [e].toFinset ∧ s'.segmentEdges ⊆ s.segmentEdges := by
  have ho := hp.ordered.mark floors e.edgeType (start.sequence + 1) [e] false
  have hown : ∀ e', e' ∈ s'.ownEdges ↔ e' ≠ e ∧ e' ∈ s.ownEdges := by
    intro e'
    have hget : get e' s'.outEdges = if e' = e then none else get e' s.outEdges := by
      rw [hs']
      exact hp.ordered.outEdges.get_erase
    rw [mem_ownEdges, mem_ownEdges, hget]
    split <;> simp [*]
  have hsegments : s'.segmentEdges = s.segmentEdges := by rw [hs']; rfl
  have hnot : e ∉ s.segmentEdges := Finset.disjoint_left.mp hp.apart he
  have hedges : ∀ e', e' ∈ s'.edges ↔ e' ≠ e ∧ e' ∈ s.edges := by
    intro e'
    rw [mem_edges, mem_edges, hown, hsegments]
    by_cases he' : e' = e
    · simp [he', hnot]
    · simp [he']
  refine ⟨⟨⟨?_, ?_, ?_, ?_⟩, ?_, ?_, ?_, ?_, ?_, ?_⟩, ?_, hsegments.le⟩
  · rw [hs']
    refine { ho with outEdges := hp.ordered.outEdges.erase, inEdges := ?_ }
    rcases hin with rfl | ⟨-, rfl⟩
    · exact hp.ordered.inEdges.erase
    · exact hp.ordered.inEdges
  · refine Finset.disjoint_left.mpr fun e' he' => ?_
    rw [hsegments]
    exact Finset.disjoint_left.mp hp.apart ((hown e').mp he').2
  · rw [hs']
    exact hp.outbound
  · intro hpolicy e'
    rcases hin with rfl | ⟨hpolicy', -⟩
    · have hget : get e'.reverse s'.inEdges =
          if e'.reverse = e.reverse then none else get e'.reverse s.inEdges := by
        rw [hs']
        exact hp.ordered.inEdges.get_erase
      rw [hown, hget]
      by_cases he' : e' = e
      · simp [he']
      · rw [if_neg fun h => he' (EdgeKey.reverse_injective h), hp.reverse hpolicy]
        simp [he']
    · rw [hpolicy] at hpolicy'
      cases hpolicy'
  · rw [hs']
    exact hp.sequence
  · rw [hs']
    exact ⟨hp.past.segments, hp.past.tombstones⟩
  · exact hp.logs_gone floors hedges (by rw [hs']) (by rw [hs']) (by rw [hs']; rfl)
  · rw [hs']
    exact { hp.remembers with }
  · rw [hs']
    exact hp.degreeOut
  · rw [hs']
    exact hp.degreeIn
  · ext e'
    rw [hedges]
    simp [and_comm]

/-- A tombstone hides an edge in every segment so far. -/
theorem Pending.hide (hp : start.Pending S s) (he : e ∈ s.segmentEdges)
    (hs' : s' = { s.markTopologyChange floors e.edgeType (start.sequence + 1) [(e.src, e.dst, false)] with
      tombstones := insert e (start.sequence + 1) s.tombstones }) :
    start.Pending S s' ∧ s'.edges = s.edges \ [e].toFinset ∧ s'.segmentEdges ⊆ s.segmentEdges := by
  have ho := hp.ordered.mark floors e.edgeType (start.sequence + 1) [e] false
  have hown : s'.ownEdges = s.ownEdges := by rw [hs']; rfl
  have hget : ∀ e', get e' s'.tombstones =
      if e' = e then some (start.sequence + 1) else get e' s.tombstones := by
    intro e'
    rw [hs']
    exact hp.ordered.tombstones.get_insert
  have hsegments : ∀ e', e' ∈ s'.segmentEdges ↔ e' ≠ e ∧ e' ∈ s.segmentEdges := by
    intro e'
    rw [mem_segmentEdges, mem_segmentEdges, show s'.segments = s.segments by rw [hs']; rfl]
    by_cases he' : e' = e
    · subst he'
      simp only [ne_eq, not_true_eq_false, false_and, iff_false, not_exists, not_and]
      rintro g hg ⟨-, -, -, hvisible⟩
      have hle := hp.past.segments g hg
      rw [hget, if_pos rfl] at hvisible
      exact absurd (of_decide_eq_true hvisible) (by omega)
    · simp only [ne_eq, he', not_false_eq_true, true_and, VisibleIn, hget, if_false]
  have hnot : e ∉ s.ownEdges := Finset.disjoint_right.mp hp.apart he
  have hedges : ∀ e', e' ∈ s'.edges ↔ e' ≠ e ∧ e' ∈ s.edges := by
    intro e'
    rw [mem_edges, mem_edges, hown, hsegments]
    by_cases he' : e' = e
    · simp [he', hnot]
    · simp [he']
  refine ⟨⟨⟨?_, ?_, ?_, ?_⟩, ?_, ?_, ?_, ?_, ?_, ?_⟩, ?_, fun e' he' => ((hsegments e').mp he').2⟩
  · rw [hs']
    exact { ho with tombstones := hp.ordered.tombstones.insert }
  · refine Finset.disjoint_left.mpr fun e' he' => ?_
    rw [hsegments]
    exact fun h => Finset.disjoint_left.mp hp.apart (hown ▸ he') h.2
  · rw [hs']
    exact hp.outbound
  · rw [hown, hs']
    exact hp.reverse
  · rw [hs']
    exact hp.sequence
  · rw [hs']
    refine ⟨hp.past.segments, fun t ht => ?_⟩
    rcases SortedMap.mem_insert.mp ht with rfl | ⟨ht, -⟩
    · exact le_rfl
    · exact hp.past.tombstones t ht
  · exact hp.logs_gone floors hedges (by rw [hs']) (by rw [hs']) (by rw [hs']; rfl)
  · rw [hs']
    exact { hp.remembers with }
  · rw [hs']
    exact hp.degreeOut
  · rw [hs']
    exact hp.degreeIn
  · ext e'
    rw [hedges]
    simp [and_comm]

/-- A segment shows edges that were not there. -/
theorem Pending.append (hstart : start.Coherent S) (hpolicy : S.writesReverseIndex = false)
    {v : VertexKey} (missing : List EdgeKey) (segmentId : String) (hsource : ∀ e ∈ missing, e.source = v)
    (hnew : ∀ e ∈ missing, e ∉ start.edges) (hs' : s' =
      { start.markTopologyChange floors v.edgeType (start.sequence + 1)
          (missing.map fun e => (e.src, e.dst, true)) with
        tombstones := missing.foldl (fun tombstones e => erase e tombstones) start.tombstones
        segments := insert ⟨v.edgeType, v.vertex, start.sequence + 1, segmentId⟩
          (missing.map EdgeKey.dst) start.segments }) :
    start.Pending S s' ∧ s'.edges = start.edges ∪ missing.toFinset := by
  have hp := Pending.begin hstart
  have ho := hp.ordered.mark floors v.edgeType (start.sequence + 1) missing true
  have htype : ∀ e ∈ missing, e.edgeType = v.edgeType := fun e he => by rw [← hsource e he]; rfl
  have hsrc : ∀ e ∈ missing, e.src = v.vertex := fun e he => by rw [← hsource e he]; rfl
  have hown : s'.ownEdges = start.ownEdges := by rw [hs']; rfl
  have hget : ∀ e, get e s'.tombstones = if e ∈ missing then none else get e start.tombstones := by
    intro e
    rw [hs']
    exact (hp.ordered.tombstones.foldl_erase _).2 e
  have hmem : ∀ g, g ∈ s'.segments ↔ g = (⟨v.edgeType, v.vertex, start.sequence + 1, segmentId⟩,
      missing.map EdgeKey.dst) ∨ g ∈ start.segments := by
    intro g
    rw [hs', SortedMap.mem_insert]
    refine or_congr Iff.rfl ⟨And.left, fun hg => ⟨hg, fun hkey => ?_⟩⟩
    have hle := hstart.past.segments g hg
    rw [hkey] at hle
    exact absurd hle (Nat.not_succ_le_self _)
  have hsegments : ∀ e, e ∈ s'.segmentEdges ↔ e ∈ missing ∨ e ∈ start.segmentEdges := by
    intro e
    rw [mem_segmentEdges, mem_segmentEdges]
    constructor
    · rintro ⟨g, hg, htype', hsrc', hdst, hvisible⟩
      by_cases he : e ∈ missing
      · exact .inl he
      · rw [hget, if_neg he] at hvisible
        rcases (hmem g).mp hg with rfl | hg
        · obtain ⟨e', he', hdst'⟩ := List.mem_map.mp hdst
          have heq : e' = e := EdgeKey.mk.injEq .. ▸
            ⟨(htype e' he').trans htype', (hsrc e' he').trans hsrc', hdst'⟩
          exact absurd (heq ▸ he') he
        · exact .inr ⟨g, hg, htype', hsrc', hdst, hvisible⟩
    · intro h
      by_cases he : e ∈ missing
      · refine ⟨_, (hmem _).mpr (.inl rfl), (htype e he).symm, (hsrc e he).symm,
          List.mem_map_of_mem he, ?_⟩
        rw [hget, if_pos he]
        rfl
      · obtain ⟨g, hg, htype', hsrc', hdst, hvisible⟩ := h.resolve_left he
        refine ⟨g, (hmem g).mpr (.inr hg), htype', hsrc', hdst, ?_⟩
        rw [hget, if_neg he]
        exact hvisible
  have hedges : ∀ e, e ∈ s'.edges ↔ e ∈ missing ∨ e ∈ start.edges := by
    intro e
    rw [mem_edges, mem_edges, hown, hsegments]
    tauto
  refine ⟨⟨⟨?_, ?_, ?_, ?_⟩, ?_, ?_, ?_, ?_, ?_, ?_⟩, ?_⟩
  · rw [hs']
    exact { ho with
      tombstones := (hp.ordered.tombstones.foldl_erase _).1
      segments := hp.ordered.segments.insert }
  · refine Finset.disjoint_left.mpr fun e he => ?_
    rw [hsegments, not_or]
    rw [hown] at he
    exact ⟨fun hmissing => hnew e hmissing (mem_edges.mpr (.inl he)),
      Finset.disjoint_left.mp hp.apart he⟩
  · intro h
    rw [hpolicy] at h
    cases h
  · intro h
    rw [hpolicy] at h
    cases h
  · rw [hs']
    rfl
  · refine ⟨fun g hg => ?_, fun t ht => ?_⟩
    · rcases (hmem g).mp hg with rfl | hg
      · exact le_rfl
      · exact hp.past.segments g hg
    · refine hp.past.tombstones t ?_
      have hsome : get t.1 s'.tombstones = some t.2 := by
        rw [hs'] at ht ⊢
        exact (hp.ordered.tombstones.foldl_erase _).1.get_of_mem ht
      rw [hget] at hsome
      split at hsome
      · cases hsome
      · exact SortedMap.mem_of_get hsome
  · refine hp.logs.mark hp.ordered floors v.edgeType missing true htype (fun e => ?_) (by rw [hs'])
      (by rw [hs']) (by rw [hs']; rfl)
    rw [hedges]
    by_cases he : e ∈ missing <;> simp [he]
  · rw [hs']
    exact { hp.remembers with }
  · rw [hs']
    rfl
  · rw [hs']
    rfl
  · ext e
    rw [hedges, Finset.mem_union, List.mem_toFinset, or_comm]

end Parts

/-! ### Commits -/

/-- A transaction whose counters count its edges. -/
theorem Pending.commit (hstart : start.Coherent S) (hp : start.Pending S s)
    {degreeOut degreeIn : List (VertexKey × Nat)} (hs' : s' =
      { s with degreeOut := degreeOut, degreeIn := degreeIn, sequence := s.sequence + 1 })
    (hout : Sorted degreeOut) (hin : Sorted degreeIn)
    (hcountOut : ∀ v, readCounter v degreeOut = degree EdgeKey.source v s.edges)
    (hcountIn : S.writesReverseIndex = true →
      ∀ v, readCounter v degreeIn = degree EdgeKey.destination v s.edges) :
    start.Commits S s' where
  coherent :=
    { ordered := by rw [hs']; exact { hp.ordered with degreeOut := hout, degreeIn := hin }
      apart := by rw [hs']; exact hp.apart
      outbound := by rw [hs']; exact hp.outbound
      reverse := by rw [hs']; exact hp.reverse
      past := by
        rw [hs', hp.sequence]
        exact ⟨hp.past.segments, hp.past.tombstones⟩
      xlogPast := fun k hk => by
        rw [hs'] at hk ⊢
        dsimp only at hk
        rw [hp.sequence] at hk
        rw [hp.logs.older k hk.ne']
        exact hstart.xlogPast k (Nat.lt_of_succ_lt hk)
      degreeOut := by rw [hs']; exact hcountOut
      degreeIn := by rw [hs']; exact hcountIn
      fresh := fun h => by rw [hs'] at h; cases h }
  sequence := by rw [hs', ← hp.sequence]
  logs := by
    rw [hs']
    exact ⟨hp.logs.state, hp.logs.kept, hp.logs.older, hp.logs.floor, hp.logs.dirty, hp.logs.marked⟩
  remembers := by
    rw [hs']
    exact { hp.remembers with }

/-- Edges that came are counted. -/
theorem Pending.commit_added (hstart : start.Coherent S) (hp : start.Pending S s)
    {added : List EdgeKey} (hnodup : added.Nodup) (hnew : ∀ e ∈ added, e ∉ start.edges)
    (hedges : s.edges = start.edges ∪ added.toFinset) {fresh : Bool}
    (hfresh : fresh = true → start.sequence = 0)
    (hs' : s' = { s.raiseDegrees S fresh added with sequence := s.sequence + 1 }) :
    start.Commits S s' := by
  have hs'' : s' =
      { s with
        degreeOut := raise fresh (added.map EdgeKey.source) s.degreeOut
        degreeIn := if S.writesReverseIndex then
          raise fresh (added.map EdgeKey.destination) s.degreeIn else s.degreeIn
        sequence := s.sequence + 1 } := by
    rw [hs', raiseDegrees]
  refine hp.commit hstart hs'' (Sorted_raise hp.ordered.degreeOut _ _) ?_ (fun v => ?_) fun hpolicy v => ?_
  · split
    · exact Sorted_raise hp.ordered.degreeIn _ _
    · exact hp.ordered.degreeIn
  · have hzero : fresh = true → ∀ v, readCounter v s.degreeOut = 0 := fun h v => by
      rw [hp.degreeOut]
      exact hstart.degreeOut_fresh (hfresh h) v
    rw [readCounter_raise hp.ordered.degreeOut hzero, hp.degreeOut, hstart.degreeOut, hedges,
      degree_union _ hnodup hnew]
  · have hzero : fresh = true → ∀ v, readCounter v s.degreeIn = 0 := fun h v => by
      rw [hp.degreeIn]
      exact hstart.degreeIn_fresh hpolicy (hfresh h) v
    rw [if_pos hpolicy, readCounter_raise hp.ordered.degreeIn hzero, hp.degreeIn,
      hstart.degreeIn hpolicy, hedges, degree_union _ hnodup hnew]

/-- Edges that went are counted. -/
theorem Pending.commit_removed (hstart : start.Coherent S) (hp : start.Pending S s)
    {removed : List EdgeKey} (removedIn : List EdgeKey) (hnodup : removed.Nodup) (hold : ∀ e ∈ removed, e ∈ start.edges)
    (hin : S.writesReverseIndex = true → removedIn = removed)
    (hedges : s.edges = start.edges \ removed.toFinset)
    (hs' : s' = { (s.lowerOut removed).lowerIn S removedIn with sequence := s.sequence + 1 }) :
    start.Commits S s' := by
  have hs'' : s' =
      { s with
        degreeOut := lower (removed.map EdgeKey.source) s.degreeOut
        degreeIn := if S.writesReverseIndex then
          lower (removedIn.map EdgeKey.destination) s.degreeIn else s.degreeIn
        sequence := s.sequence + 1 } := by
    rw [hs', lowerIn]
    split <;> rfl
  refine hp.commit hstart hs'' (Sorted_lower hp.ordered.degreeOut _) ?_ (fun v => ?_) fun hpolicy v => ?_
  · split
    · exact Sorted_lower hp.ordered.degreeIn _
    · exact hp.ordered.degreeIn
  · rw [readCounter_lower hp.ordered.degreeOut, hp.degreeOut, hstart.degreeOut, hedges,
      degree_sdiff hnodup hold]
  · rw [if_pos hpolicy, hin hpolicy, readCounter_lower hp.ordered.degreeIn, hp.degreeIn,
      hstart.degreeIn hpolicy, hedges, degree_sdiff hnodup hold]

/-! ### Compaction -/

/-- A prefix that stops at the first failure, where a failure is followed by
failures only. -/
theorem mem_takeWhile {α : Type*} {p : α → Bool} {l : List α} {x : α}
    (h : l.Pairwise fun a b => p b = true → p a = true) :
    x ∈ l.takeWhile p ↔ x ∈ l ∧ p x = true := by
  induction h with
  | nil => simp
  | @cons a rest hhead _ ih =>
      by_cases ha : p a = true
      · rw [List.takeWhile_cons_of_pos ha, List.mem_cons, ih, List.mem_cons]
        constructor
        · rintro (rfl | ⟨hx, hp⟩)
          · exact ⟨.inl rfl, ha⟩
          · exact ⟨.inr hx, hp⟩
        · rintro ⟨rfl | hx, hp⟩
          · exact .inl rfl
          · exact .inr ⟨hx, hp⟩
      · rw [List.takeWhile_cons_of_neg ha]
        refine iff_of_false List.not_mem_nil fun ⟨hx, hp⟩ => ?_
        rcases List.mem_cons.mp hx with rfl | hx
        · exact ha hp
        · exact ha (hhead x hx hp)

/-- The segments of one source are in the order of their sequences. -/
theorem mem_segmentsAt (h : Sorted s.segments) {v : VertexKey} {g : SegmentKey × List Nat} :
    g ∈ s.segmentsAt v n ↔ g ∈ s.segments ∧ g.1.edgeType = v.edgeType ∧ g.1.src = v.vertex ∧
      g.1.storageSequence ≤ n := by
  have hpairwise : (s.segments.filter fun g => g.1.edgeType = v.edgeType ∧ g.1.src = v.vertex).Pairwise
      fun a b => decide (b.1.storageSequence ≤ n) = true → decide (a.1.storageSequence ≤ n) = true := by
    refine (List.pairwise_filter.mpr (List.Pairwise.imp ?_ h))
    intro a b hlt ha hb hle
    obtain ⟨hatype, hasrc⟩ := of_decide_eq_true ha
    obtain ⟨hbtype, hbsrc⟩ := of_decide_eq_true hb
    have hsequence := SegmentKey.sequence_le (hatype.trans hbtype.symm) (hasrc.trans hbsrc.symm) hlt
    exact decide_eq_true (hsequence.trans (of_decide_eq_true hle))
  rw [segmentsAt, mem_takeWhile hpairwise, List.mem_filter, decide_eq_true_eq, decide_eq_true_eq,
    and_assoc, and_assoc]

/-- The destinations that a compaction keeps. -/
theorem mem_liveDestinations (h : Sorted s.segments) {v : VertexKey} {through dst : Nat} :
    dst ∈ s.liveDestinations v through ↔ ∃ g ∈ s.segments, g.1.edgeType = v.edgeType ∧
      g.1.src = v.vertex ∧ g.1.storageSequence ≤ through ∧ dst ∈ g.2 ∧
      segmentEdgeVisible g.1.storageSequence
        (s.tombstoneAt ⟨v.edgeType, v.vertex, dst⟩ through) = true := by
  simp only [liveDestinations, sourceSegments, Finset.mem_sort, List.mem_toFinset, List.mem_flatMap,
    mem_segmentsAt h, visibleIn, List.mem_filter]
  constructor
  · rintro ⟨g, ⟨hg, htype, hsrc, hle⟩, hdst, hvisible⟩
    rw [htype, hsrc] at hvisible
    exact ⟨g, hg, htype, hsrc, hle, hdst, hvisible⟩
  · rintro ⟨g, hg, htype, hsrc, hle, hdst, hvisible⟩
    refine ⟨g, ⟨hg, htype, hsrc, hle⟩, hdst, ?_⟩
    rw [htype, hsrc]
    exact hvisible

/-- The tombstones that a compaction drops. -/
theorem get_compacted_tombstones (h : Sorted s.tombstones) (v : VertexKey) (through : Nat) (e : EdgeKey) :
    get e ((s.spentTombstones v through).foldl (fun tombstones e => erase e tombstones) s.tombstones) =
      if e.source = v ∧ (s.tombstoneAt e through).isSome = true then none else get e s.tombstones := by
  rw [(h.foldl_erase _).2]
  refine if_congr ?_ rfl rfl
  rw [spentTombstones, List.mem_map, tombstoneAt, Option.isSome_filter]
  constructor
  · rintro ⟨⟨e', epoch⟩, hmem, rfl⟩
    obtain ⟨hmem, hcond⟩ := List.mem_filter.mp hmem
    obtain ⟨hsource, hle⟩ := of_decide_eq_true hcond
    refine ⟨hsource, ?_⟩
    rw [h.get_of_mem hmem]
    exact decide_eq_true hle
  · rintro ⟨hsource, hany⟩
    obtain ⟨epoch, hget, hle⟩ := (Option.any_eq_true _ _).mp hany
    exact ⟨(e, epoch), List.mem_filter.mpr ⟨SortedMap.mem_of_get hget,
      decide_eq_true ⟨hsource, of_decide_eq_true hle⟩⟩, rfl⟩

/-- The segments that a compaction leaves, with the one that it writes. -/
theorem mem_compactedSegments (h : Sorted s.segments) (v : VertexKey) (through : Nat)
    (segmentId : String) (g : SegmentKey × List Nat) :
    g ∈ s.compactedSegments v through segmentId ↔
      g = (⟨v.edgeType, v.vertex, through, segmentId⟩, s.liveDestinations v through) ∧
          s.liveDestinations v through ≠ [] ∨
        g ∈ s.segments ∧
          ¬ (g.1.edgeType = v.edgeType ∧ g.1.src = v.vertex ∧ g.1.storageSequence ≤ through) := by
  have hremaining : ∀ g, g ∈ (s.sourceSegments v through).foldl
      (fun segments g => erase g.1 segments) s.segments ↔ g ∈ s.segments ∧
        ¬ (g.1.edgeType = v.edgeType ∧ g.1.src = v.vertex ∧ g.1.storageSequence ≤ through) := by
    intro g
    have herase := h.foldl_erase ((s.sourceSegments v through).map Prod.fst)
    rw [List.foldl_map] at herase
    have hget := herase.2 g.1
    constructor
    · intro hmem
      rw [herase.1.get_of_mem hmem] at hget
      split at hget
      · cases hget
      · rename_i hnot
        refine ⟨SortedMap.mem_of_get hget.symm, fun hsource => hnot ?_⟩
        exact List.mem_map_of_mem ((mem_segmentsAt h).mpr ⟨SortedMap.mem_of_get hget.symm, hsource⟩)
    · rintro ⟨hmem, hnot⟩
      refine SortedMap.mem_of_get (hget.trans ?_)
      rw [if_neg, h.get_of_mem hmem]
      intro hsource
      obtain ⟨g', hg', hkey⟩ := List.mem_map.mp hsource
      exact hnot (hkey ▸ ((mem_segmentsAt h).mp hg').2)
  unfold compactedSegments
  cases s.liveDestinations v through with
  | nil => simp [hremaining]
  | cons dst rest =>
      simp only [List.isEmpty_cons, Bool.false_eq_true, if_false, SortedMap.mem_insert, hremaining,
        ne_eq, reduceCtorEq, not_false_eq_true, and_true]
      refine or_congr Iff.rfl ⟨And.left, fun hmem => ⟨hmem, fun hkey => hmem.2 ?_⟩⟩
      rw [hkey]
      exact ⟨rfl, rfl, le_rfl⟩

/-- What a compaction leaves of a tombstone. -/
def leftOf (through : Nat) (tombstone : Option Nat) : Option Nat :=
  if (tombstone.filter fun epoch => decide (epoch ≤ through)).isSome then none else tombstone

theorem segmentEdgeVisible_later {through sequence : Nat} (tombstone : Option Nat)
    (h : through < sequence) :
    segmentEdgeVisible sequence (leftOf through tombstone) = segmentEdgeVisible sequence tombstone := by
  cases tombstone with
  | none => rfl
  | some epoch =>
      by_cases hle : epoch ≤ through
      · simp [leftOf, segmentEdgeVisible, hle, hle.trans_lt h]
      · simp [leftOf, hle]

/-- A later tombstone hides the compacted segment, as it hides what was
compacted. -/
theorem segmentEdgeVisible_compacted {through sequence : Nat} (tombstone : Option Nat)
    (h : sequence ≤ through) :
    segmentEdgeVisible sequence tombstone = true ↔
      segmentEdgeVisible sequence (tombstone.filter fun epoch => decide (epoch ≤ through)) = true ∧
        segmentEdgeVisible through (leftOf through tombstone) = true := by
  cases tombstone with
  | none => simp [segmentEdgeVisible, leftOf]
  | some epoch =>
      by_cases hle : epoch ≤ through
      · simp [leftOf, segmentEdgeVisible, hle]
      · simp [leftOf, segmentEdgeVisible, hle]
        omega

/-- A compaction shows the edges that were shown. -/
theorem compacted_segmentEdges (ho : s.Ordered) (v : VertexKey) (through : Nat) (segmentId : String)
    (hsegments : s'.segments = s.compactedSegments v through segmentId)
    (htombstones : s'.tombstones =
      (s.spentTombstones v through).foldl (fun tombstones e => erase e tombstones) s.tombstones) :
    s'.segmentEdges = s.segmentEdges := by
  have hmem := fun g => hsegments ▸ mem_compactedSegments ho.segments v through segmentId g
  have hget := fun e => htombstones ▸ get_compacted_tombstones ho.tombstones v through e
  ext e
  rw [mem_segmentEdges, mem_segmentEdges]
  by_cases hv : e.source = v
  · subst hv
    have hleft : get e s'.tombstones = leftOf through (get e s.tombstones) := by
      rw [hget, leftOf, tombstoneAt]
      simp
    constructor
    · rintro ⟨g, hg, htype, hsrc, hdst, hvisible⟩
      rw [hleft] at hvisible
      rcases (hmem g).mp hg with ⟨rfl, -⟩ | ⟨hg, hnot⟩
      · obtain ⟨g, hg, htype, hsrc, hle, hdst, hvisible'⟩ := (mem_liveDestinations ho.segments).mp hdst
        exact ⟨g, hg, htype, hsrc, hdst,
          (segmentEdgeVisible_compacted _ hle).mpr ⟨hvisible', hvisible⟩⟩
      · have hlater : through < g.1.storageSequence :=
          not_le.mp fun hle => hnot ⟨htype, hsrc, hle⟩
        rw [segmentEdgeVisible_later _ hlater] at hvisible
        exact ⟨g, hg, htype, hsrc, hdst, hvisible⟩
    · rintro ⟨g, hg, htype, hsrc, hdst, hvisible⟩
      by_cases hle : g.1.storageSequence ≤ through
      · obtain ⟨hvisible, hvisible'⟩ := (segmentEdgeVisible_compacted _ hle).mp hvisible
        have hlive : e.dst ∈ s.liveDestinations e.source through :=
          (mem_liveDestinations ho.segments).mpr ⟨g, hg, htype, hsrc, hle, hdst, hvisible⟩
        refine ⟨_, (hmem _).mpr (.inl ⟨rfl, List.ne_nil_of_mem hlive⟩), rfl, rfl, hlive, ?_⟩
        rw [hleft]
        exact hvisible'
      · refine ⟨g, (hmem g).mpr (.inr ⟨hg, fun h => hle h.2.2⟩), htype, hsrc, hdst, ?_⟩
        rw [hleft, segmentEdgeVisible_later _ (not_le.mp hle)]
        exact hvisible
  · have hsame : get e s'.tombstones = get e s.tombstones := by
      rw [hget, if_neg fun h => hv h.1]
    have hother : ∀ g : SegmentKey × List Nat, g.1.edgeType = e.edgeType → g.1.src = e.src →
        ¬ (g.1.edgeType = v.edgeType ∧ g.1.src = v.vertex ∧ g.1.storageSequence ≤ through) :=
      fun g htype hsrc h => hv (VertexKey.mk.injEq .. ▸ ⟨htype ▸ h.1, hsrc ▸ h.2.1⟩)
    constructor
    · rintro ⟨g, hg, htype, hsrc, hdst, hvisible⟩
      rw [hsame] at hvisible
      rcases (hmem g).mp hg with ⟨rfl, -⟩ | ⟨hg, -⟩
      · exact absurd (VertexKey.mk.injEq .. ▸ ⟨htype.symm, hsrc.symm⟩) hv
      · exact ⟨g, hg, htype, hsrc, hdst, hvisible⟩
    · rintro ⟨g, hg, htype, hsrc, hdst, hvisible⟩
      refine ⟨g, (hmem g).mpr (.inr ⟨hg, hother g htype hsrc⟩), htype, hsrc, hdst, ?_⟩
      rw [hsame]
      exact hvisible

theorem Past.card_outNeighbors (h : s.Past n) (v : VertexKey) :
    (s.outNeighbors v n).card = degree EdgeKey.source v s.edges := by
  have himage : s.outNeighbors v n = (s.edges.filter fun e => e.source = v).image EdgeKey.dst := by
    ext dst
    rw [Finset.mem_image]
    constructor
    · intro hdst
      exact ⟨⟨v.edgeType, v.vertex, dst⟩,
        Finset.mem_filter.mpr ⟨h.mem_outNeighbors.mp hdst, rfl⟩, rfl⟩
    · rintro ⟨e, he, rfl⟩
      obtain ⟨hmem, rfl⟩ := Finset.mem_filter.mp he
      exact h.mem_outNeighbors.mpr hmem
  rw [himage, degree]
  refine Finset.card_image_of_injOn fun e he e' he' hdst => ?_
  have hsource := (Finset.mem_filter.mp he).2.trans (Finset.mem_filter.mp he').2.symm
  obtain ⟨htype, hsrc⟩ := VertexKey.mk.inj hsource
  exact EdgeKey.mk.injEq .. ▸ ⟨htype, hsrc, hdst⟩

/-- The segments of a source become one. -/
theorem Pending.compact (h : start.Coherent S) (v : VertexKey) (through : Nat)
    (hthrough : through ≤ start.sequence) (segmentId : String) (hs' : s' = { start with
      segments := start.compactedSegments v through segmentId
      tombstones := (start.spentTombstones v through).foldl
        (fun tombstones e => erase e tombstones) start.tombstones }) :
    start.Pending S s' ∧ s'.edges = start.edges := by
  have hp := Pending.begin h
  have ho := h.ordered
  have hmem : ∀ g, g ∈ s'.segments ↔ g ∈ start.compactedSegments v through segmentId := by
    rw [hs']
    exact fun g => Iff.rfl
  have hown : s'.ownEdges = start.ownEdges := by rw [hs']; rfl
  have hshown : s'.segmentEdges = start.segmentEdges :=
    compacted_segmentEdges ho v through segmentId (by rw [hs']) (by rw [hs'])
  have hedges : s'.edges = start.edges := by rw [edges, hshown, hown, edges]
  have htombstones := ho.tombstones.foldl_erase (start.spentTombstones v through)
  refine ⟨⟨⟨?_, ?_, ?_, ?_⟩, ?_, ?_, ?_, ?_, ?_, ?_⟩, hedges⟩
  · rw [hs']
    refine { ho with segments := ?_, tombstones := htombstones.1 }
    have hremaining := (ho.segments.foldl_erase ((start.sourceSegments v through).map Prod.fst)).1
    rw [List.foldl_map] at hremaining
    unfold compactedSegments
    dsimp only
    split
    · exact hremaining
    · exact hremaining.insert
  · rw [hown, hshown]
    exact h.apart
  · intro hpolicy
    have hempty := h.outbound hpolicy
    refine List.eq_nil_iff_forall_not_mem.mpr fun g hg => ?_
    rcases (mem_compactedSegments ho.segments v through segmentId g).mp ((hmem g).mp hg) with
      ⟨-, hlive⟩ | ⟨hg, -⟩
    · obtain ⟨dst, hdst⟩ := List.exists_mem_of_ne_nil _ hlive
      obtain ⟨g, hg, -⟩ := (mem_liveDestinations ho.segments).mp hdst
      rw [hempty] at hg
      cases hg
    · rw [hempty] at hg
      cases hg
  · intro hpolicy e
    rw [hown, show s'.inEdges = start.inEdges by rw [hs']]
    exact h.reverse hpolicy e
  · rw [hs']
  · refine ⟨fun g hg => ?_, fun t ht => ?_⟩
    · rcases (mem_compactedSegments ho.segments v through segmentId g).mp ((hmem g).mp hg) with
        ⟨rfl, -⟩ | ⟨hg, -⟩
      · exact hthrough.trans (Nat.le_succ _)
      · exact hp.past.segments g hg
    · rw [hs'] at ht
      have hget := htombstones.2 t.1
      rw [htombstones.1.get_of_mem (v := t.2) ht] at hget
      split at hget
      · cases hget
      · exact hp.past.tombstones t (SortedMap.mem_of_get hget.symm)
  · exact hp.logs.congr hedges (by rw [hs']) (by rw [hs']) (by rw [hs'])
  · rw [hs']
    exact { hp.remembers with }
  · rw [hs']
  · rw [hs']

end Store

end ContextMemory.Topology
