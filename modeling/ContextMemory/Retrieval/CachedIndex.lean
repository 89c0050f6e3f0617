/-
`EmbeddingIndex` (`db/embedding_index.py`) with its cache.

The vectors and the haystacks of the facts stand in two dictionaries. A search works on lists and
a matrix made of them, which it makes anew if the index is dirty. `EmbeddingIndex.search` is what
it computes from the entries.
-/

import ContextMemory.Retrieval.Indexes

namespace ContextMemory

/-- The attributes of an `EmbeddingIndex`; dictionaries in insertion order. -/
structure CachedIndex where
  embeddings : List (String × List Rat) := []
  haystacks : List (String × String) := []
  factIds : List String := []
  factHaystacks : List String := []
  matrix : Option (List (List Rat)) := none
  dirty : Bool := true

namespace CachedIndex

variable (num : Numerics)

/-- The last lines of `add` and `add_vector`. -/
def store (factId : String) (vector : List Rat) (haystackId : String) (c : CachedIndex) :
    CachedIndex :=
  { c with
    embeddings := Ordered.upsert Prod.fst (factId, vector) c.embeddings
    haystacks := Ordered.upsert Prod.fst (factId, haystackId) c.haystacks
    dirty := true }

/-- `add`. -/
def add (factId text haystackId : String) (c : CachedIndex) : Except Exn CachedIndex :=
  if factId = "" then .error (.valueError "fact_id must be a non-empty string")
  else if haystackId = "" then .error (.valueError "haystack_id must be a non-empty string")
  else (num.encodeText text).map fun vector => c.store factId vector haystackId

/-- `add_vector`. -/
def addVector (factId : String) (vector : List Rat) (haystackId : String) (c : CachedIndex) :
    Except Exn CachedIndex :=
  if factId = "" then .error (.valueError "fact_id must be a non-empty string")
  else if haystackId = "" then .error (.valueError "haystack_id must be a non-empty string")
  else .ok (c.store factId (num.normalize vector) haystackId)

/-- `remove`. -/
def remove (factId : String) (c : CachedIndex) : CachedIndex :=
  { c with
    embeddings := c.embeddings.filter fun e => e.1 ≠ factId
    haystacks := c.haystacks.filter fun e => e.1 ≠ factId
    dirty := if (c.embeddings.lookup factId).isSome then true else c.dirty }

/-- `clear`. -/
def clear : CachedIndex where

/-- `self._haystacks[fid]`. -/
def haystackOf (c : CachedIndex) (factId : String) : Except Exn String :=
  match c.haystacks.lookup factId with
  | some haystackId => .ok haystackId
  | none => .error (.provider ("KeyError: " ++ factId))

/-- `np.stack`, of one array at least. -/
def stack (vectors : List (List Rat)) : Except Exn (List (List Rat)) :=
  match vectors with
  | [] => .error (.valueError "need at least one array to stack")
  | first :: rest =>
      if rest.all fun v => v.length == first.length then .ok vectors
      else .error (.valueError "all input arrays must have the same shape")

/-- `_rebuild`. -/
def rebuild (c : CachedIndex) : Except Exn Unit × CachedIndex :=
  let c := { c with factIds := c.embeddings.map Prod.fst }
  match c.factIds.mapM c.haystackOf with
  | .error e => (.error e, c)
  | .ok factHaystacks =>
    let c := { c with factHaystacks }
    if c.factIds = [] then (.ok (), { c with matrix := some [], dirty := false })
    else
      match stack (c.embeddings.map Prod.snd) with
      | .error e => (.error e, c)
      | .ok matrix => (.ok (), { c with matrix := some matrix, dirty := false })

/-- `xs[mask]`. -/
def masked {α : Type} (mask : List Bool) (xs : List α) : List α :=
  ((xs.zip mask).filter fun x => x.2).map Prod.fst

/-- The end of `search`, on what the cache holds. -/
def searchCached (queryText haystackId : String) (topK : Int) (c : CachedIndex) :
    Except Exn (List (String × Rat)) :=
  match c.matrix with
  | none => .ok []
  | some matrix =>
    if c.factIds = [] then .ok []
    else
      let mask := c.factHaystacks.map fun h => h == haystackId
      if mask.any id then
        let scopedIds := masked mask c.factIds
        if mask.length ≠ matrix.length then
          .error (.provider "boolean index did not match indexed array along axis 0")
        else
          let scopedMatrix := masked mask matrix
          (num.encodeText queryText).bind fun query =>
            if scopedMatrix.all fun row => row.length == query.length then
              let scores := scopedMatrix.map fun row => num.dot row query
              .ok ((pyTake topK (num.argsort scores).reverse).filterMap fun i =>
                match scopedIds[i]?, scores[i]? with
                | some factId, some score => some (factId, score)
                | _, _ => none)
            else
              .error (.valueError "matmul: Input operand 1 has a mismatch in its core dimension 0")
      else .ok []

/-- `search`. -/
def search (queryText haystackId : String) (topK : Int) (c : CachedIndex) :
    Except Exn (List (String × Rat)) × CachedIndex :=
  if haystackId = "" then (.error (.valueError "haystack_id must be a non-empty string"), c)
  else if c.dirty then
    match c.rebuild with
    | (.error e, c) => (.error e, c)
    | (.ok (), c) => (c.searchCached num queryText haystackId topK, c)
  else (c.searchCached num queryText haystackId topK, c)

end CachedIndex

/-! ### Sequences of calls -/

inductive IndexCall where
  | add (factId text haystackId : String)
  | addVector (factId : String) (vector : List Rat) (haystackId : String)
  | remove (factId : String)
  | clear
  | search (queryText haystackId : String) (topK : Int)

/-- What a call leaves, whether it raises or not. -/
def CachedIndex.call (num : Numerics) (c : CachedIndex) : IndexCall → CachedIndex
  | .add factId text haystackId => (c.add num factId text haystackId).toOption.getD c
  | .addVector factId vector haystackId => (c.addVector num factId vector haystackId).toOption.getD c
  | .remove factId => c.remove factId
  | .clear => CachedIndex.clear
  | .search queryText haystackId topK => (c.search num queryText haystackId topK).2

end ContextMemory
