/-
The edges of one cell as a graph shard stores them (`hydradb/src/shard/write.rs`,
`shard/maintenance.rs`, `codec.rs`).

An edge is a key of its own, or a destination in a segment of its source that no later tombstone
hides. Beside the edges a shard keeps the degrees of the vertices, the edges by destination (where
the index policy asks for them), a changelog of the edges, and for every request that named an
idempotency key its result. Each request is one transaction that commits at the next sequence.

A family of keys is a list in the order of its keys. The process caches which edge types have a
floor in the changelog; a request is given that cache as it is. Vertices, properties and
relationships are not part of the store here, nor are the checks of authority and of memory.
-/

import ContextMemory.Hydra.LeaseRecord
import ContextMemory.Lib.SortedMap
import Mathlib.Data.List.Dedup
import Mathlib.Data.List.Sort
import Mathlib.Data.Prod.Lex
import Mathlib.Data.Finset.Card
import Mathlib.Data.Finset.Sort
import Mathlib.Data.String.Basic

namespace ContextMemory.Topology

open SortedMap (get erase insert)

def u64Max : Nat := 2 ^ 64 - 1

/-- `saturating_add(1)` of a `u64`. -/
def saturatingSucc (n : Nat) : Nat := min (n + 1) u64Max

/-- The errors of the requests and of the index, of those of `GraphError`. -/
inductive GraphError where
  | invalidKeyComponent (component value : String)
  | admissionRejected (operation : String) (actual limit : Nat)
  | idempotencyConflict (operation idempotencyKey reason : String)
  | corruptValue (key reason : String)
  | unsupportedQuery (dialect feature : String)
  | snapshotAhead (cellId : String) (readEpoch currentEpoch : Nat)
  | sparseKernel (backend reason : String)
  | conditionalWriteConflict (operation key : String)
deriving DecidableEq, Repr

def validateComponent (component value : String) : Except GraphError Unit :=
  if Lease.isComponent value then .ok () else .error (.invalidKeyComponent component value)

def ensureLimit (operation : String) (actual limit : Nat) : Except GraphError Unit :=
  if limit < actual then .error (.admissionRejected operation actual limit) else .ok ()

/-! ### Keys -/

/-- An edge, in the order of `keys::out_edge`. -/
structure EdgeKey where
  edgeType : String
  src : Nat
  dst : Nat
deriving Repr

/-- A vertex in its part of a degree, in the order of `keys::degree_out`. -/
structure VertexKey where
  edgeType : String
  vertex : Nat
deriving Repr

/-- `keys::out_segment`. -/
structure SegmentKey where
  edgeType : String
  src : Nat
  storageSequence : Nat
  segmentId : String
deriving Repr

/-- `keys::xlog_entry`. -/
structure XlogKey where
  edgeType : String
  sequence : Nat
  src : Nat
  dst : Nat
deriving Repr

/-- The idempotency key of a compaction, whose operation names the edge type and the source. -/
structure CompactionKey where
  edgeType : String
  src : Nat
  idempotencyKey : String
deriving Repr

namespace EdgeKey

def tuple (e : EdgeKey) : String ×ₗ ℕ ×ₗ ℕ := toLex (e.edgeType, toLex (e.src, e.dst))

theorem tuple_injective : Function.Injective tuple := by
  rintro ⟨_, _, _⟩ ⟨_, _, _⟩ h
  simpa [tuple] using h

instance instLinearOrder : LinearOrder EdgeKey := LinearOrder.lift' tuple tuple_injective

/-- The edge as `keys::in_edge` has it. -/
def reverse (e : EdgeKey) : EdgeKey := ⟨e.edgeType, e.dst, e.src⟩

def source (e : EdgeKey) : VertexKey := ⟨e.edgeType, e.src⟩

def destination (e : EdgeKey) : VertexKey := ⟨e.edgeType, e.dst⟩

end EdgeKey

namespace VertexKey

def tuple (v : VertexKey) : String ×ₗ ℕ := toLex (v.edgeType, v.vertex)

theorem tuple_injective : Function.Injective tuple := by
  rintro ⟨_, _⟩ ⟨_, _⟩ h
  simpa [tuple] using h

instance instLinearOrder : LinearOrder VertexKey := LinearOrder.lift' tuple tuple_injective

end VertexKey

namespace SegmentKey

def tuple (k : SegmentKey) : String ×ₗ ℕ ×ₗ ℕ ×ₗ String :=
  toLex (k.edgeType, toLex (k.src, toLex (k.storageSequence, k.segmentId)))

theorem tuple_injective : Function.Injective tuple := by
  rintro ⟨_, _, _, _⟩ ⟨_, _, _, _⟩ h
  simpa [tuple] using h

instance instLinearOrder : LinearOrder SegmentKey := LinearOrder.lift' tuple tuple_injective

end SegmentKey

namespace XlogKey

def tuple (k : XlogKey) : String ×ₗ ℕ ×ₗ ℕ ×ₗ ℕ :=
  toLex (k.edgeType, toLex (k.sequence, toLex (k.src, k.dst)))

theorem tuple_injective : Function.Injective tuple := by
  rintro ⟨_, _, _, _⟩ ⟨_, _, _, _⟩ h
  simpa [tuple] using h

instance instLinearOrder : LinearOrder XlogKey := LinearOrder.lift' tuple tuple_injective

end XlogKey

namespace CompactionKey

def tuple (k : CompactionKey) : String ×ₗ ℕ ×ₗ String :=
  toLex (k.edgeType, toLex (k.src, k.idempotencyKey))

theorem tuple_injective : Function.Injective tuple := by
  rintro ⟨_, _, _⟩ ⟨_, _, _⟩ h
  simpa [tuple] using h

instance instLinearOrder : LinearOrder CompactionKey := LinearOrder.lift' tuple tuple_injective

end CompactionKey

/-! ### Requests and results -/

structure EdgeMutation where
  edge : EdgeKey
  idempotencyKey : String
deriving Repr

structure CommitResult where
  epoch : Nat
  alreadyExisted : Bool
deriving DecidableEq, Repr

structure DeleteResult where
  epoch : Nat
  deleted : Bool
deriving DecidableEq, Repr

structure BulkImportResult where
  startEpoch : Nat
  endEpoch : Nat
  inserted : Nat
  alreadyExisted : Nat
deriving DecidableEq, Repr

structure EdgeMutationBatchResult where
  startEpoch : Nat
  endEpoch : Nat
  inserted : Nat
  alreadyExisted : Nat
  results : List CommitResult
deriving DecidableEq, Repr

structure EdgeDeleteBatchResult where
  startEpoch : Nat
  endEpoch : Nat
  deleted : Nat
  alreadyDeleted : Nat
  results : List DeleteResult
deriving DecidableEq, Repr

structure SegmentCompactionResult where
  compactedThroughEpoch : Nat
  sourceSegments : Nat
  deletedSegmentKeys : Nat
  deletedTombstoneKeys : Nat
  inputEdges : Nat
  outputEdges : Nat
deriving DecidableEq, Repr

/-- `BulkImportDuplicatePolicy`. -/
inductive DuplicatePolicy where
  | checkExisting
  | trustNoExisting
deriving DecidableEq, Repr

structure Setting where
  cellId : String
  writesReverseIndex : Bool
  maxBulkImportEdges : Nat
  maxArtifactBuildEdges : Nat
deriving DecidableEq, Repr

/-! ### The store -/

structure Store where
  sequence : Nat
  outEdges : List (EdgeKey × Unit)
  inEdges : List (EdgeKey × Unit)
  segments : List (SegmentKey × List Nat)
  tombstones : List (EdgeKey × Nat)
  degreeOut : List (VertexKey × Nat)
  degreeIn : List (VertexKey × Nat)
  xlog : List (XlogKey × Bool)
  xlogLow : List (String × Nat)
  matrixDirty : List (String × Nat)
  created : List (String × EdgeKey × CommitResult)
  deleted : List (String × EdgeKey × DeleteResult)
  imported : List (String × Nat × BulkImportResult)
  appended : List (String × Nat × BulkImportResult)
  compacted : List (CompactionKey × SegmentCompactionResult)
deriving DecidableEq, Repr

namespace Store

def empty : Store := ⟨0, [], [], [], [], [], [], [], [], [], [], [], [], [], []⟩

/-- `commit_txn_strict`. -/
def commit (s : Store) : Except GraphError Store :=
  if s.sequence < u64Max then .ok { s with sequence := s.sequence + 1 }
  else .error (.corruptValue "storage_sequence" "SlateDB storage sequence overflow")

/-- The sequence that a transaction commits at. -/
def nextEpoch (s : Store) (key reason : String) : Except GraphError Nat :=
  if s.sequence < u64Max then .ok (s.sequence + 1) else .error (.corruptValue key reason)

/-! ### Reading -/

/-- A deletion hides the segments up to its own sequence. -/
def segmentEdgeVisible (edgeEpoch : Nat) (tombstoneEpoch : Option Nat) : Bool :=
  tombstoneEpoch.all fun epoch => decide (epoch < edgeEpoch)

def tombstoneAt (s : Store) (e : EdgeKey) (readEpoch : Nat) : Option Nat :=
  (get e s.tombstones).filter fun epoch => decide (epoch ≤ readEpoch)

/-- The segments of a source, up to the first that is later than `readEpoch`. -/
def segmentsAt (s : Store) (v : VertexKey) (readEpoch : Nat) : List (SegmentKey × List Nat) :=
  (s.segments.filter fun g => g.1.edgeType = v.edgeType ∧ g.1.src = v.vertex).takeWhile
    fun g => decide (g.1.storageSequence ≤ readEpoch)

/-- The destinations of a segment that no tombstone hides. -/
def visibleIn (s : Store) (readEpoch : Nat) (g : SegmentKey × List Nat) : List Nat :=
  g.2.filter fun dst =>
    segmentEdgeVisible g.1.storageSequence (s.tombstoneAt ⟨g.1.edgeType, g.1.src, dst⟩ readEpoch)

/-- The entries that `out_segment_edges_for_src_txn` collects. -/
def outSegmentEdges (s : Store) (v : VertexKey) (readEpoch : Nat) : List (Nat × Nat) :=
  (s.segmentsAt v readEpoch).flatMap fun g =>
    (s.visibleIn readEpoch g).map fun dst => (dst, g.1.storageSequence)

/-- The latest sequence of a destination among them. -/
def segmentEpoch (s : Store) (e : EdgeKey) (readEpoch : Nat) : Option Nat :=
  (((s.outSegmentEdges e.source readEpoch).filter fun entry => entry.1 = e.dst).map Prod.snd).max?

/-- `edge_epoch_at_txn`. -/
def edgeEpochAt (s : Store) (e : EdgeKey) (readEpoch : Nat) : Option Nat :=
  if (get e s.outEdges).isSome then some readEpoch else s.segmentEpoch e readEpoch

/-- `out_neighbors_for_src_txn`. -/
def outNeighbors (s : Store) (v : VertexKey) (readEpoch : Nat) : Finset Nat :=
  (((s.outEdges.filter fun e => e.1.source = v).map fun e => e.1.dst) ++
    (s.outSegmentEdges v readEpoch).map Prod.fst).toFinset

/-- `edge_exists_in_storage_snapshot`. -/
def edgeExists (s : Store) (e : EdgeKey) (readEpoch : Nat) : Bool :=
  (get e s.outEdges).isSome || (s.segmentsAt e.source readEpoch).any fun g =>
    g.2.contains e.dst && segmentEdgeVisible g.1.storageSequence (s.tombstoneAt e readEpoch)

/-- `in_neighbors_in_storage_snapshot`, of the edges by destination. -/
def inNeighbors (s : Store) (v : VertexKey) : Finset Nat :=
  ((s.inEdges.filter fun e => e.1.source = v).map fun e => e.1.dst).toFinset

/-- `read_counter_txn`. -/
def readCounter (v : VertexKey) (counters : List (VertexKey × Nat)) : Nat := (get v counters).getD 0

/-! ### The parts of a transaction -/

/-- `mark_topology_change_txn`. The first change of an edge type sets the floor of its changelog,
unless the cache says that there is one. -/
def markTopologyChange (floors : List String) (edgeType : String) (epoch : Nat)
    (changes : List (Nat × Nat × Bool)) (s : Store) : Store :=
  { s with
    matrixDirty := insert edgeType epoch s.matrixDirty
    xlogLow :=
      if changes.isEmpty || floors.contains edgeType || (get edgeType s.xlogLow).isSome then s.xlogLow
      else insert edgeType epoch s.xlogLow
    xlog := changes.foldl
      (fun log change => insert ⟨edgeType, epoch, change.1, change.2.1⟩ change.2.2 log) s.xlog }

def putOutEdge (S : Setting) (e : EdgeKey) (s : Store) : Store :=
  { s with
    outEdges := insert e () s.outEdges
    inEdges := if S.writesReverseIndex then insert e.reverse () s.inEdges else s.inEdges }

/-- Counters go up by the number of times that a vertex is listed; those of a fresh cell are not
read. -/
def raise (fresh : Bool) (vertices : List VertexKey) (counters : List (VertexKey × Nat)) :
    List (VertexKey × Nat) :=
  vertices.dedup.foldl (fun counters v =>
    insert v ((if fresh then 0 else readCounter v counters) + vertices.count v) counters) counters

/-- Counters go down, and stop at zero. -/
def lower (vertices : List VertexKey) (counters : List (VertexKey × Nat)) : List (VertexKey × Nat) :=
  vertices.dedup.foldl (fun counters v =>
    insert v (readCounter v counters - vertices.count v) counters) counters

def raiseDegrees (S : Setting) (fresh : Bool) (edges : List EdgeKey) (s : Store) : Store :=
  { s with
    degreeOut := raise fresh (edges.map EdgeKey.source) s.degreeOut
    degreeIn :=
      if S.writesReverseIndex then raise fresh (edges.map EdgeKey.destination) s.degreeIn
      else s.degreeIn }

/-! ### Single edges -/

def recordCommit (m : EdgeMutation) (result : CommitResult) (s : Store) : Store :=
  { s with created := insert m.idempotencyKey (m.edge, result) s.created }

def recordDelete (m : EdgeMutation) (result : DeleteResult) (s : Store) : Store :=
  { s with deleted := insert m.idempotencyKey (m.edge, result) s.deleted }

def differentEdge : String := "this key already stored a result for a different edge"

/-- `write_edge`, without metadata. -/
def writeEdge (S : Setting) (floors : List String) (m : EdgeMutation) (s : Store) :
    Except GraphError (CommitResult × Store) := do
  validateComponent "edge_type" m.edge.edgeType
  validateComponent "idempotency_key" m.idempotencyKey
  match get m.idempotencyKey s.created with
  | some (edge, result) =>
      if edge = m.edge then return (result, s)
      else throw (.idempotencyConflict "create" m.idempotencyKey differentEdge)
  | none =>
      match s.edgeEpochAt m.edge s.sequence with
      | some existing =>
          let result : CommitResult := ⟨existing, true⟩
          return (result, ← (s.recordCommit m result).commit)
      | none =>
          let epoch ← s.nextEpoch "storage_sequence" "epoch overflow"
          let result : CommitResult := ⟨epoch, false⟩
          let marked := s.markTopologyChange floors m.edge.edgeType epoch [(m.edge.src, m.edge.dst, true)]
          let written := (marked.putOutEdge S m.edge).raiseDegrees S false [m.edge]
          return (result, ← (written.recordCommit m result).commit)

/-- `out_segment_edge_record_at`, of which the sequence is used: the last of the segments. -/
def segmentRecordAt (s : Store) (e : EdgeKey) (readEpoch : Nat) : Option Nat :=
  (((s.segmentsAt e.source readEpoch).filter fun g =>
    g.2.contains e.dst &&
      segmentEdgeVisible g.1.storageSequence (s.tombstoneAt e readEpoch)).map
        fun g => g.1.storageSequence).getLast?

def lowerOut (edges : List EdgeKey) (s : Store) : Store :=
  { s with degreeOut := lower (edges.map EdgeKey.source) s.degreeOut }

def lowerIn (S : Setting) (edges : List EdgeKey) (s : Store) : Store :=
  if S.writesReverseIndex then
    { s with degreeIn := lower (edges.map EdgeKey.destination) s.degreeIn }
  else s

/-- What `delete_edge` does to an edge that has no key of its own: nothing, or it hides the edge. -/
def deleteSegmentEdge (S : Setting) (floors : List String) (m : EdgeMutation) (s : Store) :
    Except GraphError (DeleteResult × Store) := do
  let absent : DeleteResult := ⟨s.sequence, false⟩
  match if S.writesReverseIndex then none else s.segmentRecordAt m.edge s.sequence with
  | none => return (absent, ← (s.recordDelete m absent).commit)
  | some segmentSequence =>
      if (get m.edge s.tombstones).any fun epoch => !segmentEdgeVisible segmentSequence (some epoch) then
        return (absent, ← (s.recordDelete m absent).commit)
      else
        let epoch ← s.nextEpoch "storage_sequence" "epoch overflow"
        let result : DeleteResult := ⟨epoch, true⟩
        let marked := s.markTopologyChange floors m.edge.edgeType epoch [(m.edge.src, m.edge.dst, false)]
        let hidden := { marked with tombstones := insert m.edge epoch marked.tombstones }
        return (result, ← ((hidden.lowerOut [m.edge]).recordDelete m result).commit)

/-- `delete_edge`, without metadata. It deletes the edge by destination under any policy. -/
def deleteEdge (S : Setting) (floors : List String) (m : EdgeMutation) (s : Store) :
    Except GraphError (DeleteResult × Store) := do
  validateComponent "edge_type" m.edge.edgeType
  validateComponent "idempotency_key" m.idempotencyKey
  match get m.idempotencyKey s.deleted with
  | some (edge, result) =>
      if edge = m.edge then return (result, s)
      else throw (.idempotencyConflict "delete" m.idempotencyKey differentEdge)
  | none =>
      if (get m.edge s.outEdges).isSome then
        let epoch ← s.nextEpoch ("cell/" ++ S.cellId ++ "/storage_sequence")
          "SlateDB storage sequence overflow"
        let result : DeleteResult := ⟨epoch, true⟩
        let marked := s.markTopologyChange floors m.edge.edgeType epoch [(m.edge.src, m.edge.dst, false)]
        let erased :=
          { marked with
            outEdges := erase m.edge marked.outEdges
            inEdges := erase m.edge.reverse marked.inEdges }
        return (result, ← (((erased.lowerOut [m.edge]).lowerIn S [m.edge]).recordDelete m result).commit)
      else s.deleteSegmentEdge S floors m

end Store

end ContextMemory.Topology
