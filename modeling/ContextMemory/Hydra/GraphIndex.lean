/-
The published index of the edges of a cell (`hydradb/src/engine/index_store.rs`,
`engine/artifact_build.rs`, `shard/xlog.rs`).

The index of an edge type is a compressed adjacency at a sequence: a payload under the digest of its
bytes, and a manifest that names the current one. A build takes a snapshot. It scans the edges there,
or it patches the payload of the current manifest with the changelog since; then it replaces the
manifest, on the condition that no other build did in the meantime. Collections delete the part of a
changelog that the current manifest has used, and the payloads of earlier manifests.

Requests, commits of other cells, purges of a changelog, builds and collections take turns. A task
stops wherever it waits for the store or the object store; permits, authority and the caches of
generations are not modelled, and a manifest is kept as what its text decodes to.
-/

import ContextMemory.Hydra.Bulk
import ContextMemory.Hydra.Csc

namespace ContextMemory.Topology

open SortedMap (get erase insert)

/-! ### The scan of the edges -/

structure MatrixRows where
  rows : List (Nat × List Nat)
  rawEdges : Nat
deriving DecidableEq, Repr

namespace MatrixRows

def push (src dst : Nat) (m : MatrixRows) : MatrixRows :=
  ⟨insert src ((get src m.rows).getD [] ++ [dst]) m.rows, saturatingSucc m.rawEdges⟩

/-- The loops of `current_matrix_rows`: an edge is pushed, then counted. -/
def pushAll (S : Setting) : List (Nat × Nat) → MatrixRows → Except GraphError MatrixRows
  | [], m => .ok m
  | edge :: edges, m => do
      ensureLimit "build_matrix_tiles_edges" (m.push edge.1 edge.2).rawEdges S.maxArtifactBuildEdges
      pushAll S edges (m.push edge.1 edge.2)

def normalize (m : MatrixRows) : List (Nat × List Nat) :=
  (m.rows.map fun row => (row.1, SortedMap.ascending row.2.toFinset)).filter fun row => !row.2.isEmpty

end MatrixRows

namespace Store

/-- The scan of the edges that have a key of their own. -/
def ownPairs (edgeType : String) (s : Store) : List (Nat × Nat) :=
  (s.outEdges.filter fun e => e.1.edgeType = edgeType).map fun e => (e.1.src, e.1.dst)

/-- The scan of the segments, less what is later or hidden. -/
def segmentPairs (edgeType : String) (baseEpoch : Nat) (s : Store) : List (Nat × Nat) :=
  (s.segments.filter fun g => g.1.edgeType = edgeType ∧ g.1.storageSequence ≤ baseEpoch).flatMap
    fun g => (s.visibleIn baseEpoch g).map fun dst => (g.1.src, dst)

def currentMatrixRows (S : Setting) (edgeType : String) (baseEpoch : Nat) (s : Store) :
    Except GraphError MatrixRows := do
  let rows ← MatrixRows.pushAll S (s.ownPairs edgeType) ⟨[], 0⟩
  MatrixRows.pushAll S (s.segmentPairs edgeType baseEpoch) rows

def canonicalAdjacencyAt (S : Setting) (edgeType : String) (readEpoch : Nat) (s : Store) :
    Except GraphError Adjacency := do
  let rows ← s.currentMatrixRows S edgeType readEpoch
  return rows.normalize.map fun row => (row.1, row.2.toFinset)

end Store

/-! ### The changelog -/

/-- `GraphTopologyOverlay`, with its two levels of keys as one. -/
abbrev Overlay := List ((ℕ ×ₗ ℕ) × Bool)

def Overlay.set (src dst : Nat) (present : Bool) (overlay : Overlay) : Overlay :=
  insert (toLex (src, dst)) present overlay

inductive XlogDelta where
  | complete (overlay : Overlay)
  | uninitialized
  | coverageGap (lowWater : Nat)
deriving DecidableEq

def xlogGcMaxDeletes : Nat := 100000

namespace Store

/-- The entries of an edge type from one sequence on and before another. -/
def xlogRange (edgeType : String) (first upper : Nat) (s : Store) : List (XlogKey × Bool) :=
  s.xlog.filter fun entry =>
    entry.1.edgeType = edgeType ∧ first ≤ entry.1.sequence ∧ entry.1.sequence < upper

/-- `xlog_delta_since`. -/
def xlogDeltaSince (edgeType : String) (previousBase baseSequence : Nat) (s : Store) : XlogDelta :=
  match get edgeType s.xlogLow with
  | none => .uninitialized
  | some low =>
      if saturatingSucc previousBase < low then .coverageGap low
      else .complete
        ((s.xlogRange edgeType (saturatingSucc previousBase) (saturatingSucc baseSequence)).foldl
          (fun overlay entry => Overlay.set entry.1.src entry.1.dst entry.2 overlay) [])

/-- The entries that a published base has used, as many as one pass deletes. -/
def deadEntries (edgeType : String) (low through : Nat) (s : Store) : List XlogKey :=
  (((s.xlog.filter fun entry => entry.1.edgeType = edgeType ∧ low ≤ entry.1.sequence).takeWhile
    fun entry => decide (entry.1.sequence ≤ through)).take xlogGcMaxDeletes).map Prod.fst

/-- The floor after a pass: where a full pass ended, or behind what the base has used. -/
def nextLow (dead : List XlogKey) (low through : Nat) : Nat :=
  if xlogGcMaxDeletes ≤ dead.length then (dead.getLast?.map XlogKey.sequence).getD low
  else saturatingSucc through

end Store

/-! ### Generations -/

structure IndexSetting extends Setting where
  storePath : String
  digest : List UInt8 → String

structure GraphIndexGeneration where
  cellId : String
  edgeType : String
  baseSequence : Nat
  lastWalId : Nat
  edgeCount : Nat
  checksum : Nat
  generation : String
deriving DecidableEq, Repr

/-- The path of a payload, less what all payloads of a cell share. -/
structure PayloadKey where
  edgeType : String
  baseSequence : Nat
  generation : String
deriving Repr

namespace PayloadKey

def tuple (k : PayloadKey) : String ×ₗ ℕ ×ₗ String :=
  toLex (k.edgeType, toLex (k.baseSequence, k.generation))

theorem tuple_injective : Function.Injective tuple := by
  rintro ⟨_, _, _⟩ ⟨_, _, _⟩ h
  simpa [tuple] using h

instance instLinearOrder : LinearOrder PayloadKey := LinearOrder.lift' tuple tuple_injective

end PayloadKey

def GraphIndexGeneration.payloadKey (g : GraphIndexGeneration) : PayloadKey :=
  ⟨g.edgeType, g.baseSequence, g.generation⟩

/-- `graph_index_generation_path`. -/
def graphIndexGenerationPath (S : IndexSetting) (k : PayloadKey) : String :=
  S.storePath ++ "/_graph_index/" ++ S.cellId ++ "/" ++ k.edgeType ++ "/generations/" ++
    String.ofList (Decimal.padded 20 k.baseSequence) ++ "-" ++ k.generation ++ ".csc"

/-- `graph_index_manifest_path`. -/
def graphIndexManifestPath (S : IndexSetting) (edgeType : String) : String :=
  S.storePath ++ "/_graph_index/" ++ S.cellId ++ "/" ++ edgeType ++ "/current"

/-- What both builds do with their adjacency: a generation and its payload. -/
def proposeGeneration (S : IndexSetting) (edgeType : String) (baseSequence lastWalId : Nat)
    (adjacency : Adjacency) : Except GraphError (GraphIndexGeneration × List UInt8) := do
  let csc ← graphblasCscFromAdjacency adjacency
  ensureLimit "build_graph_index_edges" csc.indices.length S.maxArtifactBuildEdges
  let checksum := graphblasCscChecksum csc
  let payload := encodeGraphIndexCsc baseSequence lastWalId checksum csc
  return (⟨S.cellId, edgeType, baseSequence, lastWalId, csc.indices.length, checksum,
    S.digest payload⟩, payload)

/-- `build_graph_index`, from its snapshot to its payload. -/
def buildGraphIndex (S : IndexSetting) (edgeType : String) (lastWalId : Nat) (snapshot : Store) :
    Except GraphError (GraphIndexGeneration × List UInt8) := do
  let adjacency ← snapshot.canonicalAdjacencyAt S.toSetting edgeType snapshot.sequence
  proposeGeneration S edgeType snapshot.sequence lastWalId adjacency

/-- `graph_index_csc`. -/
def graphIndexCsc (S : IndexSetting) (payloads : List (PayloadKey × List UInt8))
    (g : GraphIndexGeneration) : Except GraphError (Option GraphBlasCsc) :=
  match get g.payloadKey payloads with
  | none => .ok none
  | some value => do
      let csc ← decodeGraphIndexCsc (graphIndexGenerationPath S g.payloadKey) value g.baseSequence
        g.lastWalId g.checksum
      if csc.indices.length = g.edgeCount then return some csc
      else throw (.corruptValue (graphIndexGenerationPath S g.payloadKey)
        "index edge count does not match manifest")

/-- An entry of the delta; a source that is left without a destination goes. -/
def applyEntry (adjacency : Adjacency) (entry : (ℕ ×ₗ ℕ) × Bool) : Adjacency :=
  let src := (ofLex entry.1).1
  let dst := (ofLex entry.1).2
  if entry.2 then insert src (Insert.insert dst ((get src adjacency).getD ∅)) adjacency
  else
    match get src adjacency with
    | none => adjacency
    | some destinations =>
        if destinations.erase dst = ∅ then erase src adjacency
        else insert src (destinations.erase dst) adjacency

def applyOverlay (adjacency : Adjacency) (overlay : Overlay) : Adjacency :=
  overlay.foldl applyEntry adjacency

/-- A patch declines where there is nothing to patch, or no changelog to patch it with. -/
inductive Patched where
  | proposed (generation : GraphIndexGeneration) (payload : List UInt8) (deltaEdges : Nat)
  | declined
deriving DecidableEq, Repr

/-- `build_graph_index_incremental`, from the manifest it read to its payload. -/
def patchGraphIndex (S : IndexSetting) (payloads : List (PayloadKey × List UInt8)) (edgeType : String)
    (lastWalId : Nat) (snapshot : Store) (previous : GraphIndexGeneration) :
    Except GraphError Patched :=
  match snapshot.xlogDeltaSince edgeType previous.baseSequence snapshot.sequence with
  | .uninitialized => .ok .declined
  | .coverageGap _ => .ok .declined
  | .complete overlay => do
      match ← graphIndexCsc S payloads previous with
      | none => return .declined
      | some csc =>
          let adjacency ← csc.toAdjacency
          let proposal ← proposeGeneration S edgeType snapshot.sequence lastWalId
            (applyOverlay adjacency overlay)
          return .proposed proposal.1 proposal.2 overlay.length

/-! ### Collections -/

/-- `gc_topology_changelog_to`. A floor that is not there is repaired at the current sequence. -/
def Store.gcTopologyChangelogTo (g : GraphIndexGeneration) (s : Store) :
    Except GraphError (Nat × Store) :=
  match get g.edgeType s.xlogLow with
  | none => do return (0, ← { s with xlogLow := insert g.edgeType s.sequence s.xlogLow }.commit)
  | some low =>
      let dead := s.deadEntries g.edgeType low g.baseSequence
      if g.baseSequence < low ∨ dead = [] then .ok (0, s)
      else do
        let next := nextLow dead low g.baseSequence
        let collected := { s with
          xlog := dead.foldl (fun log k => erase k log) s.xlog
          xlogLow := if low < next then insert g.edgeType next s.xlogLow else s.xlogLow }
        return (dead.length, ← collected.commit)

/-- The payloads of an edge type that are older than the current one, the latest first. -/
def olderPayloads (current : GraphIndexGeneration) (payloads : List (PayloadKey × List UInt8)) :
    List PayloadKey :=
  ((payloads.map Prod.fst).filter fun k =>
    k.edgeType = current.edgeType ∧ k.baseSequence < current.baseSequence).insertionSort fun k k' =>
      k'.baseSequence < k.baseSequence ∨
        k.baseSequence = k'.baseSequence ∧ k.generation ≤ k'.generation

/-! ### The world -/

/-- A manifest at its path; the version is what a conditional replacement compares. -/
structure Manifest where
  version : Nat
  generation : GraphIndexGeneration
deriving DecidableEq, Repr

inductive GraphIndexBuildPath where
  | full (edges : Nat)
  | incremental (deltaEdges : Nat)
  | current
deriving DecidableEq, Repr

/-- A task, by where it waits. A proposal has the number of edges of its delta, if it has one. -/
inductive Task where
  | building (edgeType : String) (lastWalId : Nat) (snapshot : Store)
  | reading (edgeType : String) (lastWalId : Nat) (snapshot : Store)
  | patching (edgeType : String) (lastWalId : Nat) (snapshot : Store) (previous : GraphIndexGeneration)
  | proposing (proposed : GraphIndexGeneration) (delta : Option Nat) (attempts : Nat)
  | replacing (proposed : GraphIndexGeneration) (delta : Option Nat) (attempts : Nat)
      (version : Option Nat)
  | collecting (current : GraphIndexGeneration)
  | pruning (current : GraphIndexGeneration) (retain : Nat)
  | finished (result : Except GraphError (Option (GraphIndexGeneration × GraphIndexBuildPath)))

structure World where
  store : Store
  manifests : List (String × Manifest)
  payloads : List (PayloadKey × List UInt8)
  tasks : List Task

inductive Event where
  | request (call : Call)
  | elsewhere
  | purge (edgeType : String) (dropped : List XlogKey)
  | build (edgeType : String) (lastWalId : Nat)
  | patch (edgeType : String) (lastWalId : Nat)
  | collect (edgeType : String)
  | prune (edgeType : String) (retain : Nat)
  | resume (task : Nat)

def indexPublishAttempts : Nat := 8

/-- How a build that published, or met a later index, was made. -/
def buildPath (delta : Option Nat) (published : GraphIndexGeneration) : GraphIndexBuildPath :=
  match delta with
  | none => .full published.edgeCount
  | some deltaEdges => .incremental deltaEdges

/-- The order in which indexes replace each other. -/
def supersedes (published proposed : GraphIndexGeneration) : Bool :=
  decide (proposed.baseSequence < published.baseSequence ∨
    published.baseSequence = proposed.baseSequence ∧ proposed.lastWalId ≤ published.lastWalId)

namespace World

/-- `PutMode::Create`: what is at the path stays. -/
def putPayload (g : GraphIndexGeneration) (payload : List UInt8) (w : World) : World :=
  { w with
    payloads :=
      if (get g.payloadKey w.payloads).isSome then w.payloads
      else insert g.payloadKey payload w.payloads }

def putManifest (g : GraphIndexGeneration) (version : Option Nat) (w : World) : World :=
  { w with manifests := insert g.edgeType ⟨(version.map (· + 1)).getD 0, g⟩ w.manifests }

def manifestVersion (edgeType : String) (w : World) : Option Nat :=
  (get edgeType w.manifests).map Manifest.version

/-- A task that goes on, to where it waits next. -/
def resume (S : IndexSetting) (w : World) : Task → World × Task
  | .building edgeType lastWalId snapshot =>
      match buildGraphIndex S edgeType lastWalId snapshot with
      | .error e => (w, .finished (.error e))
      | .ok proposal =>
          (w.putPayload proposal.1 proposal.2, .proposing proposal.1 none indexPublishAttempts)
  | .reading edgeType lastWalId snapshot =>
      match get edgeType w.manifests with
      | none => (w, .finished (.ok none))
      | some manifest =>
          if snapshot.sequence ≤ manifest.generation.baseSequence then
            (w, .finished (.ok (some (manifest.generation, .current))))
          else (w, .patching edgeType lastWalId snapshot manifest.generation)
  | .patching edgeType lastWalId snapshot previous =>
      match patchGraphIndex S w.payloads edgeType lastWalId snapshot previous with
      | .error e => (w, .finished (.error e))
      | .ok .declined => (w, .finished (.ok none))
      | .ok (.proposed generation payload deltaEdges) =>
          (w.putPayload generation payload, .proposing generation (some deltaEdges) indexPublishAttempts)
  | .proposing proposed _ 0 =>
      (w, .finished (.error (.conditionalWriteConflict "publish_graph_index"
        (graphIndexManifestPath S proposed.edgeType))))
  | .proposing proposed delta (attempts + 1) =>
      match get proposed.edgeType w.manifests with
      | none => (w, .replacing proposed delta attempts none)
      | some manifest =>
          if supersedes manifest.generation proposed then
            (w, .finished (.ok (some (manifest.generation, buildPath delta manifest.generation))))
          else (w, .replacing proposed delta attempts (some manifest.version))
  | .replacing proposed delta attempts version =>
      if w.manifestVersion proposed.edgeType = version then
        (w.putManifest proposed version, .finished (.ok (some (proposed, buildPath delta proposed))))
      else (w, .proposing proposed delta attempts)
  | .collecting current =>
      match w.store.gcTopologyChangelogTo current with
      | .error e => (w, .finished (.error e))
      | .ok collected => ({ w with store := collected.2 }, .finished (.ok none))
  | .pruning current retain =>
      ({ w with
        payloads := ((olderPayloads current w.payloads).drop retain).foldl
          (fun payloads k => erase k payloads) w.payloads },
        .finished (.ok none))
  | .finished result => (w, .finished result)

/-- A task on an edge type begins, when the name is one. -/
def start (edgeType : String) (task : Task) (w : World) : World :=
  { w with
    tasks := w.tasks ++ [match validateComponent "edge_type" edgeType with
      | .error e => .finished (.error e)
      | .ok _ => task] }

/-- A task that begins with the current manifest has nothing to do without one. -/
def startAt (edgeType : String) (task : GraphIndexGeneration → Task) (w : World) : World :=
  w.start edgeType (((get edgeType w.manifests).map fun manifest => task manifest.generation).getD
    (.finished (.ok none)))

/-- An operator takes the floor of a changelog away, and any entries of it. -/
def purged (edgeType : String) (dropped : List XlogKey) (s : Store) : Store :=
  { s with
    xlogLow := erase edgeType s.xlogLow
    xlog := s.xlog.filter fun entry => ¬(entry.1.edgeType = edgeType ∧ entry.1 ∈ dropped) }

def step (S : IndexSetting) (w : World) : Event → Option World
  | .request call => some { w with store := (serve S.toSetting w.store call).2 }
  | .elsewhere => w.store.commit.toOption.map fun store => { w with store }
  | .purge edgeType dropped =>
      (purged edgeType dropped w.store).commit.toOption.map fun store => { w with store }
  | .build edgeType lastWalId => some (w.start edgeType (.building edgeType lastWalId w.store))
  | .patch edgeType lastWalId => some (w.start edgeType (.reading edgeType lastWalId w.store))
  | .collect edgeType => some (w.startAt edgeType .collecting)
  | .prune edgeType retain => some (w.startAt edgeType (.pruning · retain))
  | .resume task =>
      w.tasks[task]?.map fun t =>
        let resumed := w.resume S t
        { resumed.1 with tasks := resumed.1.tasks.set task resumed.2 }

end World

end ContextMemory.Topology
