/-
The adjacency of an edge type in compressed form (`hydradb/src/sparse_kernel/mod.rs`), and the
payload of an index that holds it (`hydradb/src/engine/index_store.rs`, `engine.rs`).

A compressed adjacency has the vertices in their order, for each vertex where its row ends, and the
rows end to end, with a vertex by its place. The payload is a magic, three words of identity, and the
three lists, each after its length; every number is eight bytes.
-/

import ContextMemory.Hydra.Topology
import ContextMemory.Lib.Words

namespace ContextMemory.Topology

open SortedMap (get insert)
open Words (leBytes ofLeBytes slice runningSums)

/-- The destinations of each source that has some, in the order of the sources. -/
abbrev Adjacency := List (Nat × Finset Nat)

structure GraphBlasCsc where
  vertices : List Nat
  pointers : List Nat
  indices : List Nat
deriving DecidableEq, Repr

/-! ### Compression -/

def graphblasIndexMax : Nat := 2 ^ 60 - 1

/-- `graphblas_vertices_from_adjacency`. -/
def graphblasVertices (adjacency : Adjacency) : Except GraphError (List Nat) :=
  let vertices := adjacency.foldl (fun vertices row => Insert.insert row.1 vertices ∪ row.2) ∅
  if graphblasIndexMax < vertices.card then
    .error (.sparseKernel "SuiteSparseGraphBlas"
      (toString vertices.card ++ " local vertices exceed GraphBLAS index limit"))
  else .ok (SortedMap.ascending vertices)

/-- `csc_vertex_ordinal`; the search is for a member of a sorted list. -/
def cscVertexOrdinal (vertices : List Nat) (vertex : Nat) (role : String) : Except GraphError Nat :=
  match vertices.idxOf? vertex with
  | some ordinal => .ok ordinal
  | none => .error (.sparseKernel "SuiteSparseGraphBlas"
      ("missing CSC ordinal for " ++ role ++ " vertex " ++ toString vertex))

/-- The first loop over the rows: how long the row of each vertex is, after a zero. -/
def countRows (vertices : List Nat) : Adjacency → List Nat → Except GraphError (List Nat)
  | [], counts => .ok counts
  | row :: rows, counts => do
      let ordinal ← cscVertexOrdinal vertices row.1 "source"
      countRows vertices rows (counts.modify (ordinal + 1) (· + row.2.card))

/-- A row is written from an offset on. -/
def fillRow (vertices : List Nat) : List Nat → Nat → List Nat → Except GraphError (List Nat × Nat)
  | [], offset, indices => .ok (indices, offset)
  | dst :: dsts, offset, indices => do
      let ordinal ← cscVertexOrdinal vertices dst "destination"
      fillRow vertices dsts (offset + 1) (indices.set offset ordinal)

/-- The second loop over the rows. -/
def fillRows (vertices : List Nat) : Adjacency → List Nat → List Nat → Except GraphError (List Nat)
  | [], _, indices => .ok indices
  | row :: rows, offsets, indices => do
      let ordinal ← cscVertexOrdinal vertices row.1 "source"
      let filled ← fillRow vertices (SortedMap.ascending row.2) (offsets.getD ordinal 0) indices
      fillRows vertices rows (offsets.set ordinal filled.2) filled.1

/-- `graphblas_csc_from_adjacency`. -/
def graphblasCscFromAdjacency (adjacency : Adjacency) : Except GraphError GraphBlasCsc := do
  let vertices ← graphblasVertices adjacency
  let counts ← countRows vertices adjacency (List.replicate (vertices.length + 1) 0)
  let pointers := runningSums 0 counts
  let indices ← fillRows vertices adjacency (pointers.take vertices.length)
    (List.replicate (pointers.getLast?.getD 0) 0)
  return ⟨vertices, pointers, indices⟩

/-! ### The adjacency of a compressed one -/

/-- The destinations of a row. -/
def rowNeighbors (vertices : List Nat) : List Nat → Finset Nat → Except GraphError (Finset Nat)
  | [], neighbors => .ok neighbors
  | destination :: row, neighbors =>
      match vertices[destination]? with
      | some vertex => rowNeighbors vertices row (Insert.insert vertex neighbors)
      | none => .error (.sparseKernel "CanonicalAdjacency"
          ("destination ordinal " ++ toString destination ++ " is out of bounds"))

/-- The loop over the vertices, from a place on. -/
def adjacencyRows (csc : GraphBlasCsc) : Nat → List Nat → Adjacency → Except GraphError Adjacency
  | _, [], adjacency => .ok adjacency
  | ordinal, source :: sources, adjacency =>
      match slice csc.indices (csc.pointers.getD ordinal 0) (csc.pointers.getD (ordinal + 1) 0) with
      | none => .error (.sparseKernel "CanonicalAdjacency"
          ("source row " ++ toString ordinal ++ " exceeds the index array"))
      | some row =>
          if row.isEmpty then adjacencyRows csc (ordinal + 1) sources adjacency
          else do
            let neighbors ← rowNeighbors csc.vertices row ∅
            adjacencyRows csc (ordinal + 1) sources (insert source neighbors adjacency)

/-- `GraphBlasCsc::to_adjacency`. -/
def GraphBlasCsc.toAdjacency (csc : GraphBlasCsc) : Except GraphError Adjacency :=
  if csc.pointers.length ≠ csc.vertices.length + 1 then
    .error (.sparseKernel "CanonicalAdjacency" "pointer count does not match the vertex dictionary")
  else adjacencyRows csc 0 csc.vertices []

/-! ### Payloads -/

/-- `checksum_u64`. -/
def checksumU64 (hash value : Nat) : Nat :=
  (leBytes 8 value).foldl (fun hash byte => (hash ^^^ byte.toNat) * 0x100000001b3 % 2 ^ 64) hash

/-- `graphblas_csc_checksum`. -/
def graphblasCscChecksum (csc : GraphBlasCsc) : Nat :=
  (0x01 :: csc.vertices ++ 0x02 :: csc.pointers ++ 0x03 :: csc.indices).foldl checksumU64
    0xcbf29ce484222325

def indexCscMagic : List UInt8 := "hydradb-index-csc-v1".toList.map (fun c => UInt8.ofNat c.toNat) ++ [0]

/-- `encode_index_u64s`. -/
def encodeIndexU64s (values : List Nat) : List UInt8 :=
  leBytes 8 values.length ++ values.flatMap (leBytes 8)

/-- `encode_graph_index_csc`. -/
def encodeGraphIndexCsc (baseSequence lastWalId checksum : Nat) (csc : GraphBlasCsc) : List UInt8 :=
  indexCscMagic ++ leBytes 8 baseSequence ++ leBytes 8 lastWalId ++ leBytes 8 checksum ++
    encodeIndexU64s csc.vertices ++ encodeIndexU64s csc.pointers ++ encodeIndexU64s csc.indices

/-- `decode_index_u64`: the word at a cursor, and the cursor after it. -/
def decodeIndexU64 (key : String) (value : List UInt8) (field : String) (cursor : Nat) :
    Except GraphError (Nat × Nat) :=
  match slice value cursor (cursor + 8) with
  | some bytes => .ok (ofLeBytes bytes, cursor + 8)
  | none => .error (.corruptValue key ("truncated " ++ field))

/-- `chunks_exact`, each chunk as a word. -/
def wordsOf : Nat → List UInt8 → List Nat
  | 0, _ => []
  | count + 1, bytes => ofLeBytes (bytes.take 8) :: wordsOf count (bytes.drop 8)

/-- `decode_index_u64s`. -/
def decodeIndexU64s (key : String) (value : List UInt8) (field : String) (cursor : Nat) :
    Except GraphError (List Nat × Nat) := do
  let len ← decodeIndexU64 key value field cursor
  if u64Max < len.1 * 8 then .error (.corruptValue key (field ++ " byte length overflow"))
  else if u64Max < len.2 + len.1 * 8 then .error (.corruptValue key (field ++ " cursor overflow"))
  else
    match slice value len.2 (len.2 + len.1 * 8) with
    | some bytes => .ok (wordsOf len.1 bytes, len.2 + len.1 * 8)
    | none => .error (.corruptValue key ("truncated " ++ field))

/-- What a value has to meet, or it is corrupt. -/
def require (key : String) (holds : Bool) (reason : String) : Except GraphError Unit :=
  if holds then .ok () else .error (.corruptValue key reason)

/-- Every two neighbours of a list are related. -/
def neighborsAll (related : Nat → Nat → Bool) (l : List Nat) : Bool :=
  (l.zip l.tail).all fun window => related window.1 window.2

/-- `validate_graphblas_csc_artifact`. -/
def validateGraphblasCsc (key : String) (csc : GraphBlasCsc) : Except GraphError Unit := do
  require key (csc.pointers.length = csc.vertices.length + 1)
    "CSC pointer count does not match vertex count"
  require key (csc.pointers.head? = some 0) "CSC first pointer must be zero"
  require key (neighborsAll (fun a b => a ≤ b) csc.pointers) "CSC pointers must be monotonic"
  require key (csc.pointers.getLast?.getD 0 = csc.indices.length)
    "CSC edge count does not match index count"
  match csc.indices.find? fun index => csc.vertices.length ≤ index with
  | some index =>
      throw (.corruptValue key ("CSC index " ++ toString index ++ " exceeds vertex count"))
  | none =>
      require key (neighborsAll (fun a b => a < b) csc.vertices) "CSC vertices must be sorted and unique"

/-- `decode_graph_index_csc`. -/
def decodeGraphIndexCsc (key : String) (value : List UInt8)
    (expectedSequence expectedWalId expectedChecksum : Nat) : Except GraphError GraphBlasCsc := do
  require key (indexCscMagic.isPrefixOf value) "expected hydradb index CSC v1 payload"
  let baseSequence ← decodeIndexU64 key value "base_sequence" indexCscMagic.length
  let lastWalId ← decodeIndexU64 key value "last_wal_id" baseSequence.2
  let checksum ← decodeIndexU64 key value "checksum" lastWalId.2
  require key ((baseSequence.1, lastWalId.1, checksum.1) =
    (expectedSequence, expectedWalId, expectedChecksum)) "index CSC identity does not match manifest"
  let vertices ← decodeIndexU64s key value "vertices" checksum.2
  let pointers ← decodeIndexU64s key value "pointers" vertices.2
  let indices ← decodeIndexU64s key value "indices" pointers.2
  let csc : GraphBlasCsc := ⟨vertices.1, pointers.1, indices.1⟩
  require key (indices.2 = value.length) "trailing bytes in index CSC payload"
  validateGraphblasCsc key csc
  require key (graphblasCscChecksum csc = checksum.1) "index CSC checksum mismatch"
  return csc

end ContextMemory.Topology
