/-
Requests on many edges of a cell (`hydradb/src/shard/write.rs`), the compaction of segments
(`shard/maintenance.rs`), and requests as one type.

A batch is one transaction. It reads the segments of a source once, before it hides any of them,
and changes each degree once, at its end.
-/

import ContextMemory.Hydra.Topology
import ContextMemory.Lib.Decimal
import Mathlib.Algebra.GroupWithZero.Nat

namespace ContextMemory.Topology

open SortedMap (get erase insert)

namespace Store

/-! ### Batches of mutations -/

/-- The state of a loop over mutations. -/
structure WriteBatch where
  store : Store
  known : List (EdgeKey × Nat)
  inserted : List EdgeKey
  results : List CommitResult

def WriteBatch.answer (b : WriteBatch) (m : EdgeMutation) (result : CommitResult) : WriteBatch :=
  { b with
    store := b.store.recordCommit m result
    known := insert m.edge result.epoch b.known
    results := b.results ++ [result] }

/-- One mutation of `write_edge_mutations_batch`; `start` is the store that the transaction began on. -/
def writeMutation (S : Setting) (floors : List String) (start : Store) (b : WriteBatch)
    (m : EdgeMutation) : Except GraphError WriteBatch :=
  match get m.idempotencyKey b.store.created with
  | some (edge, result) =>
      if edge = m.edge then .ok { b with results := b.results ++ [result] }
      else .error (.idempotencyConflict "create" m.idempotencyKey differentEdge)
  | none =>
      match get m.edge b.known with
      | some epoch => .ok (b.answer m ⟨epoch, true⟩)
      | none =>
          if (get m.edge b.store.outEdges).isSome then .ok (b.answer m ⟨start.sequence, true⟩)
          else
            match start.segmentEpoch m.edge start.sequence with
            | some epoch => .ok (b.answer m ⟨epoch, true⟩)
            | none =>
                let marked := b.store.markTopologyChange floors m.edge.edgeType (start.sequence + 1)
                  [(m.edge.src, m.edge.dst, true)]
                let written := { b with
                  store := marked.putOutEdge S m.edge
                  inserted := b.inserted ++ [m.edge] }
                .ok (written.answer m ⟨start.sequence + 1, false⟩)

def writeMutations (S : Setting) (floors : List String) (start : Store) :
    WriteBatch → List EdgeMutation → Except GraphError WriteBatch
  | b, [] => .ok b
  | b, m :: ms => do
      let b' ← writeMutation S floors start b m
      writeMutations S floors start b' ms

def validateMutation (m : EdgeMutation) : Except GraphError Unit := do
  validateComponent "edge_type" m.edge.edgeType
  validateComponent "idempotency_key" m.idempotencyKey

/-- The first idempotency key that a batch repeats. -/
def repeatedKey : List EdgeMutation → List String → Option String
  | [], _ => none
  | m :: ms, seen =>
      if seen.contains m.idempotencyKey then some m.idempotencyKey
      else repeatedKey ms (m.idempotencyKey :: seen)

def repeatedInBatch : String := "the same key appears twice in one batch"

/-- The result of a batch of writes; `nextEpoch` stands in where nothing was inserted. -/
def writeSummary (sequence nextEpoch : Nat) (results : List CommitResult) : EdgeMutationBatchResult :=
  let insertedEpochs := (results.filter fun result => !result.alreadyExisted).map CommitResult.epoch
  { startEpoch := insertedEpochs.min?.getD sequence
    endEpoch := insertedEpochs.max?.getD nextEpoch
    inserted := (results.filter fun result => !result.alreadyExisted).length
    alreadyExisted := (results.filter fun result => result.alreadyExisted).length
    results := results }

/-- `write_edge_mutations_batch`, without labels of the end points. -/
def writeEdgeMutationsBatch (S : Setting) (floors : List String) (ms : List EdgeMutation) (s : Store) :
    Except GraphError (EdgeMutationBatchResult × Store) := do
  if ms.isEmpty then return (⟨s.sequence, s.sequence, 0, 0, []⟩, s)
  ensureLimit "write_edge_mutations_batch" ms.length S.maxBulkImportEdges
  ms.forM validateMutation
  match repeatedKey ms [] with
  | some key => throw (.idempotencyConflict "create" key repeatedInBatch)
  | none =>
      let commitEpoch ← s.nextEpoch "write_edge_mutations_batch"
        "SlateDB storage sequence overflow during edge mutation batch"
      let b ← writeMutations S floors s ⟨s, [], [], []⟩ ms
      let nextEpoch := if b.inserted.isEmpty then s.sequence else commitEpoch
      return (writeSummary s.sequence nextEpoch b.results,
        ← (b.store.raiseDegrees S false b.inserted).commit)

structure DeleteBatch where
  store : Store
  deletedOut : List EdgeKey
  deletedIn : List EdgeKey
  results : List DeleteResult

def DeleteBatch.answer (b : DeleteBatch) (m : EdgeMutation) (result : DeleteResult) : DeleteBatch :=
  { b with store := b.store.recordDelete m result, results := b.results ++ [result] }

/-- One mutation of `delete_edge_mutations_batch`. -/
def deleteMutation (S : Setting) (floors : List String) (start : Store) (b : DeleteBatch)
    (m : EdgeMutation) : Except GraphError DeleteBatch :=
  match get m.idempotencyKey b.store.deleted with
  | some (edge, result) =>
      if edge = m.edge then .ok { b with results := b.results ++ [result] }
      else .error (.idempotencyConflict "delete" m.idempotencyKey differentEdge)
  | none =>
      let marked := b.store.markTopologyChange floors m.edge.edgeType (start.sequence + 1)
        [(m.edge.src, m.edge.dst, false)]
      if (get m.edge b.store.outEdges).isSome then
        let erased := { b with
          store := { marked with
            outEdges := erase m.edge marked.outEdges
            inEdges :=
              if S.writesReverseIndex then erase m.edge.reverse marked.inEdges else marked.inEdges }
          deletedOut := b.deletedOut ++ [m.edge]
          deletedIn := if S.writesReverseIndex then b.deletedIn ++ [m.edge] else b.deletedIn }
        .ok (erased.answer m ⟨start.sequence + 1, true⟩)
      else if S.writesReverseIndex || (start.segmentEpoch m.edge start.sequence).isNone then
        .ok (b.answer m ⟨start.sequence, false⟩)
      else
        let hidden := { b with
          store := { marked with tombstones := insert m.edge (start.sequence + 1) marked.tombstones }
          deletedOut := b.deletedOut ++ [m.edge] }
        .ok (hidden.answer m ⟨start.sequence + 1, true⟩)

def deleteMutations (S : Setting) (floors : List String) (start : Store) :
    DeleteBatch → List EdgeMutation → Except GraphError DeleteBatch
  | b, [] => .ok b
  | b, m :: ms => do
      let b' ← deleteMutation S floors start b m
      deleteMutations S floors start b' ms

/-- `validate_edge_mutations_for_cell`; `seen` are the keys so far. -/
def validateMutations : List EdgeMutation → List String → Except GraphError Unit
  | [], _ => .ok ()
  | m :: ms, seen => do
      validateMutation m
      if seen.contains m.idempotencyKey then
        throw (.idempotencyConflict "create" m.idempotencyKey repeatedInBatch)
      validateMutations ms (m.idempotencyKey :: seen)

/-- `validate_unique_delete_mutation_identities`: the keys of the first two mutations of one edge. -/
def repeatedEdge : List EdgeMutation → List (EdgeKey × String) → Option (String × String)
  | [], _ => none
  | m :: ms, seen =>
      match get m.edge seen with
      | some first => some (first, m.idempotencyKey)
      | none => repeatedEdge ms (insert m.edge m.idempotencyKey seen)

/-- The result of a batch of deletes. -/
def deleteSummary (sequence nextEpoch : Nat) (results : List DeleteResult) : EdgeDeleteBatchResult :=
  let deletedEpochs := (results.filter fun result => result.deleted).map DeleteResult.epoch
  { startEpoch := deletedEpochs.min?.getD sequence
    endEpoch := deletedEpochs.max?.getD nextEpoch
    deleted := (results.filter fun result => result.deleted).length
    alreadyDeleted := (results.filter fun result => !result.deleted).length
    results := results }

/-- `delete_edge_mutations_batch`. -/
def deleteEdgeMutationsBatch (S : Setting) (floors : List String) (ms : List EdgeMutation) (s : Store) :
    Except GraphError (EdgeDeleteBatchResult × Store) := do
  if ms.isEmpty then return (⟨s.sequence, s.sequence, 0, 0, []⟩, s)
  ensureLimit "delete_edge_mutations_batch" ms.length S.maxBulkImportEdges
  validateMutations ms []
  match repeatedEdge ms [] with
  | some (first, second) =>
      throw (.idempotencyConflict "delete" (first ++ "," ++ second)
        "two keys in one batch delete the same edge")
  | none =>
      let commitEpoch ← s.nextEpoch "storage_sequence"
        "SlateDB storage sequence overflow during edge delete batch"
      let b ← deleteMutations S floors s ⟨s, [], [], []⟩ ms
      let nextEpoch := if b.deletedOut.isEmpty then s.sequence else commitEpoch
      return (deleteSummary s.sequence nextEpoch b.results,
        ← ((b.store.lowerOut b.deletedOut).lowerIn S b.deletedIn).commit)

/-! ### Imports -/

def fnvOffset : Nat := 0xcbf29ce484222325

def fnvPrime : Nat := 0x100000001b3

/-- A step of the hash for each byte. -/
def fnvUpdate (hash : Nat) (bytes : List Nat) : Nat :=
  bytes.foldl (fun hash byte => (hash ^^^ byte) * fnvPrime % 2 ^ 64) hash

def bytesOfText (text : String) : List Nat :=
  text.toList.flatMap fun c => (String.utf8EncodeChar c).map UInt8.toNat

/-- `to_be_bytes` of a `u64`. -/
def beBytes (n : Nat) : List Nat := (List.range 8).map fun k => n / 256 ^ (7 - k) % 256

/-- `bulk_import_fingerprint`. -/
def bulkImportFingerprint (cellId edgeType : String) (edges : List EdgeKey) : Nat :=
  fnvUpdate fnvOffset (bytesOfText cellId ++ [0] ++ bytesOfText edgeType ++ [0] ++
    edges.flatMap fun e => beBytes e.src ++ beBytes e.dst)

/-- `sort_unstable` and `dedup` of the edges of an import. -/
def importEdges (edgeType : String) (edges : List (Nat × Nat)) : List EdgeKey :=
  ((edges.map fun e => (⟨edgeType, e.1, e.2⟩ : EdgeKey)).insertionSort (· ≤ ·)).dedup

def differentPayload : String := "this key already stored a result for a different payload"

/-- The edges of an import that it has to write. A fresh store holds no edge, and none is looked for. -/
def missingEdges (policy : DuplicatePolicy) (edges : List EdgeKey) (s : Store) : List EdgeKey :=
  if policy = .checkExisting ∧ s.sequence ≠ 0 then
    edges.filter fun e => !(get e s.outEdges).isSome &&
      !((s.outSegmentEdges e.source s.sequence).map Prod.fst).contains e.dst
  else edges

/-- The sequence of an import that has some edges to write. -/
def importEpoch (missing : List EdgeKey) (key reason : String) (s : Store) : Except GraphError Nat :=
  if missing.isEmpty then .ok s.sequence else s.nextEpoch key reason

/-- The edges of an import get their keys, and their edge type its mark. -/
def importMissing (S : Setting) (floors : List String) (edgeType : String) (epoch : Nat)
    (missing : List EdgeKey) (s : Store) : Store :=
  let written := missing.foldl (fun s e =>
    (s.markTopologyChange floors edgeType epoch [(e.src, e.dst, true)]).putOutEdge S e) s
  if missing.isEmpty then written else written.markTopologyChange floors edgeType epoch []

/-- `bulk_import_edges_with_options`. -/
def bulkImportEdges (S : Setting) (floors : List String) (edgeType : String)
    (edges : List (Nat × Nat)) (idempotencyKey : String) (policy : DuplicatePolicy) (s : Store) :
    Except GraphError (BulkImportResult × Store) := do
  validateComponent "edge_type" edgeType
  validateComponent "idempotency_key" idempotencyKey
  ensureLimit "bulk_import_edges" edges.length S.maxBulkImportEdges
  let keys := importEdges edgeType edges
  let fingerprint := bulkImportFingerprint S.cellId edgeType keys
  match get idempotencyKey s.imported with
  | some (stored, result) =>
      if stored = fingerprint then return (result, s)
      else throw (.idempotencyConflict "bulk-import" idempotencyKey differentPayload)
  | none =>
      let missing := s.missingEdges policy keys
      let epoch ← s.importEpoch missing "bulk_import"
        "SlateDB storage sequence overflow during bulk import"
      let result : BulkImportResult :=
        ⟨epoch, epoch, missing.length, keys.length - missing.length⟩
      let counted :=
        (s.importMissing S floors edgeType epoch missing).raiseDegrees S (s.sequence = 0) missing
      return (result, ← { counted with
        imported := insert idempotencyKey (fingerprint, result) counted.imported }.commit)

/-- The edges of an append become a segment, which no tombstone hides. -/
def appendMissing (floors : List String) (edgeType : String) (src : Nat) (epoch : Nat)
    (segmentId : String) (missing : List EdgeKey) (s : Store) : Store :=
  if missing.isEmpty then s else
    let marked := s.markTopologyChange floors edgeType epoch
      (missing.map fun e => (e.src, e.dst, true))
    { marked with
      tombstones := missing.foldl (fun tombstones e => erase e tombstones) marked.tombstones
      segments := insert ⟨edgeType, src, epoch, segmentId⟩ (missing.map EdgeKey.dst) marked.segments
      degreeOut := raise (s.sequence = 0) (missing.map EdgeKey.source) marked.degreeOut }

/-- An append asks for the policy that keeps no edges by destination. -/
def ensureOutbound (S : Setting) : Except GraphError Unit :=
  if S.writesReverseIndex then
    .error (.unsupportedQuery "GraphWrite" "segment trusted append requires outbound-only index policy")
  else .ok ()

/-- `bulk_append_out_adjacency_segment_trusted`. -/
def appendSegment (S : Setting) (floors : List String) (edgeType : String) (src : Nat)
    (dsts : List Nat) (idempotencyKey : String) (s : Store) :
    Except GraphError (BulkImportResult × Store) := do
  validateComponent "edge_type" edgeType
  validateComponent "idempotency_key" idempotencyKey
  ensureOutbound S
  ensureLimit "bulk_append_out_adjacency_segment_trusted" dsts.length S.maxBulkImportEdges
  let keys := importEdges edgeType (dsts.map fun dst => (src, dst))
  let fingerprint := bulkImportFingerprint S.cellId edgeType keys
  match get idempotencyKey s.appended with
  | some (stored, result) =>
      if stored = fingerprint then return (result, s)
      else throw (.idempotencyConflict "bulk-import" idempotencyKey differentPayload)
  | none =>
      let missing := keys.filter fun e => e.dst ∉ s.outNeighbors ⟨edgeType, src⟩ s.sequence
      let epoch ← s.importEpoch missing "segment_import"
        "SlateDB storage sequence overflow during segment import"
      let result : BulkImportResult :=
        ⟨epoch, epoch, missing.length, keys.length - missing.length⟩
      let written := s.appendMissing floors edgeType src epoch idempotencyKey missing
      return (result, ← { written with
        appended := insert idempotencyKey (fingerprint, result) written.appended }.commit)

/-! ### Compaction -/

/-- The segments of a source that a compaction through an epoch takes together. -/
def sourceSegments (v : VertexKey) (through : Nat) (s : Store) : List (SegmentKey × List Nat) :=
  s.segmentsAt v through

/-- What is left of them: the destinations that no tombstone hides. -/
def liveDestinations (v : VertexKey) (through : Nat) (s : Store) : List Nat :=
  (((s.sourceSegments v through).flatMap fun g => s.visibleIn through g).toFinset).sort (· ≤ ·)

/-- The segments after a compaction: one in place of those that it takes. -/
def compactedSegments (v : VertexKey) (through : Nat) (segmentId : String) (s : Store) :
    List (SegmentKey × List Nat) :=
  let remaining := (s.sourceSegments v through).foldl (fun segments g => erase g.1 segments) s.segments
  if (s.liveDestinations v through).isEmpty then remaining
  else insert ⟨v.edgeType, v.vertex, through, segmentId⟩ (s.liveDestinations v through) remaining

/-- The tombstones that a compaction deletes. -/
def spentTombstones (v : VertexKey) (through : Nat) (s : Store) : List EdgeKey :=
  (s.tombstones.filter fun t => t.1.source = v ∧ t.2 ≤ through).map Prod.fst

/-- `keys::out_segment_src_prefix`. -/
def outSegmentSrcPrefix (cellId : String) (v : VertexKey) : String :=
  "cell/" ++ cellId ++ "/seg/out/" ++ v.edgeType ++ "/" ++ String.ofList (Decimal.padded 20 v.vertex) ++ "/"

/-- The check that a compaction makes of the artifact it found. -/
def checkArtifact (S : Setting) (v : VertexKey) (through : Nat) :
    Option Nat → Except GraphError Unit
  | none => .error (.corruptValue (outSegmentSrcPrefix S.cellId v)
      "cannot compact adjacency segments without a matrix artifact")
  | some baseEpoch =>
      if baseEpoch = through then .ok ()
      else .error (.corruptValue (outSegmentSrcPrefix S.cellId v)
        ("latest matrix artifact is at epoch " ++ toString baseEpoch ++ ", expected " ++ toString through))

/-- A compaction does not go past the last sequence. -/
def ensureReached (S : Setting) (through : Nat) (s : Store) : Except GraphError Unit :=
  if s.sequence < through then .error (.snapshotAhead S.cellId through s.sequence) else .ok ()

/-- `compact_out_adjacency_segments`; `artifact` is the base of the latest matrix artifact that was
found up to the epoch. The compacted segment has the sequence of the compaction, not that of its
commit. -/
def compactSegments (S : Setting) (edgeType : String) (src through : Nat) (idempotencyKey : String)
    (artifact : Option Nat) (s : Store) : Except GraphError (SegmentCompactionResult × Store) := do
  validateComponent "edge_type" edgeType
  validateComponent "idempotency_key" idempotencyKey
  let v : VertexKey := ⟨edgeType, src⟩
  match get ⟨edgeType, src, idempotencyKey⟩ s.compacted with
  | some result =>
      if result.compactedThroughEpoch = through then return (result, s)
      else throw (.idempotencyConflict "segment-compact" idempotencyKey
        "a stored result for this key compacted through a different epoch")
  | none =>
      s.ensureReached S through
      checkArtifact S v through artifact
      let sources := s.sourceSegments v through
      let spent := s.spentTombstones v through
      let result : SegmentCompactionResult :=
        ⟨through, sources.length, sources.length, spent.length,
          (sources.map fun g => g.2.length).sum, (s.liveDestinations v through).length⟩
      let written := { s with
        segments := s.compactedSegments v through ("compact-" ++ idempotencyKey)
        tombstones := spent.foldl (fun tombstones e => erase e tombstones) s.tombstones
        degreeOut := insert v (s.outNeighbors v s.sequence).card s.degreeOut
        compacted := insert ⟨edgeType, src, idempotencyKey⟩ result s.compacted }
      return (result, ← written.commit)

end Store

/-! ### Requests -/

inductive Request where
  | writeEdge (m : EdgeMutation)
  | deleteEdge (m : EdgeMutation)
  | writeEdgeMutationsBatch (ms : List EdgeMutation)
  | deleteEdgeMutationsBatch (ms : List EdgeMutation)
  | bulkImportEdges (edgeType : String) (edges : List (Nat × Nat)) (idempotencyKey : String)
      (policy : DuplicatePolicy)
  | appendSegment (edgeType : String) (src : Nat) (dsts : List Nat) (idempotencyKey : String)
  | compactSegments (edgeType : String) (src through : Nat) (idempotencyKey : String)
      (artifact : Option Nat)

inductive Response where
  | commit (result : CommitResult)
  | delete (result : DeleteResult)
  | commits (result : EdgeMutationBatchResult)
  | deletes (result : EdgeDeleteBatchResult)
  | imported (result : BulkImportResult)
  | compacted (result : SegmentCompactionResult)
deriving DecidableEq, Repr

/-- What a request does to the store, and its response. -/
def perform (S : Setting) (floors : List String) (s : Store) :
    Request → Except GraphError (Response × Store)
  | .writeEdge m => (s.writeEdge S floors m).map fun r => (.commit r.1, r.2)
  | .deleteEdge m => (s.deleteEdge S floors m).map fun r => (.delete r.1, r.2)
  | .writeEdgeMutationsBatch ms =>
      (s.writeEdgeMutationsBatch S floors ms).map fun r => (.commits r.1, r.2)
  | .deleteEdgeMutationsBatch ms =>
      (s.deleteEdgeMutationsBatch S floors ms).map fun r => (.deletes r.1, r.2)
  | .bulkImportEdges edgeType edges idempotencyKey policy =>
      (s.bulkImportEdges S floors edgeType edges idempotencyKey policy).map fun r => (.imported r.1, r.2)
  | .appendSegment edgeType src dsts idempotencyKey =>
      (s.appendSegment S floors edgeType src dsts idempotencyKey).map fun r => (.imported r.1, r.2)
  | .compactSegments edgeType src through idempotencyKey artifact =>
      (s.compactSegments S edgeType src through idempotencyKey artifact).map fun r => (.compacted r.1, r.2)

/-- A request, with the cache of floors of the process that serves it. -/
structure Call where
  floors : List String
  request : Request

/-- A request that is refused changes nothing. -/
def serve (S : Setting) (s : Store) (call : Call) : Option Response × Store :=
  match perform S call.floors s call.request with
  | .ok (response, s') => (some response, s')
  | .error _ => (none, s)

/-- What the requests are answered, and the store after them. -/
def run (S : Setting) : Store → List Call → List (Option Response) × Store
  | s, [] => ([], s)
  | s, call :: calls =>
      let first := serve S s call
      let rest := run S first.2 calls
      (first.1 :: rest.1, rest.2)

end ContextMemory.Topology
