/-
The in-process indexes (`db/embedding_index.py`) and `hydrate_context` (`hydration.py`), which
fills them for one context.

Both indexes hold their entries in dictionaries keyed by the bare id of a fact or an entity;
the context (`haystack_id`) is a value of the entry and not a part of its key. The matrix of
an `EmbeddingIndex` is rebuilt whenever an entry was added since the last search, so it is a
function of the entries. The sentence model and the floating-point operations are parameters.
-/

import ContextMemory.Retrieval.Engine
import ContextMemory.Retrieval.Hydration

namespace ContextMemory

/-- The numeric code under the indexes. -/
structure Numerics where
  /-- `model.encode(text, normalize_embeddings=True)`. -/
  encode : String → List Rat
  /-- `_normalize_vector`. -/
  normalize : List Rat → List Rat
  /-- `np.dot`. -/
  dot : List Rat → List Rat → Rat
  /-- `np.argsort`; the order of equal scores is not specified. -/
  argsort : List Rat → List Nat
  /-- `float(text)`. -/
  float : String → Except Exn Rat

/-- `encode_text`. -/
def Numerics.encodeText (num : Numerics) (text : String) : Except Exn (List Rat) :=
  if text = "" then .error (.valueError "text must be a non-empty string")
  else .ok (num.encode text)

/-! ### Facts -/

structure IndexedFact where
  factId : String
  haystackId : String
  embedding : List Rat
deriving DecidableEq

namespace EmbeddingIndex

/-- `add_vector`. -/
def addVector (num : Numerics) (factId : String) (vector : List Rat) (haystackId : String)
    (index : List IndexedFact) : Except Exn (List IndexedFact) :=
  if factId = "" then .error (.valueError "fact_id must be a non-empty string")
  else if haystackId = "" then .error (.valueError "haystack_id must be a non-empty string")
  else .ok (Ordered.upsert IndexedFact.factId ⟨factId, haystackId, num.normalize vector⟩ index)

/-- The vectors have one length, so that `np.stack` makes a matrix of them. -/
def stackable : List IndexedFact → Bool
  | [] => true
  | e :: rest => rest.all fun e' => e'.embedding.length == e.embedding.length

/-- The end of `search`: the scores of the facts of one context. -/
def scored (num : Numerics) (queryText : String) (topK : Int) (own : List IndexedFact) :
    Except Exn (List (String × Rat)) :=
  match own with
  | [] => .ok []
  | first :: _ => (num.encodeText queryText).bind fun query =>
      if query.length = first.embedding.length then
        let scores := own.map fun e => num.dot e.embedding query
        let ranked := own.zipWith (fun e score => (e.factId, score)) scores
        .ok ((pyTake topK (num.argsort scores).reverse).filterMap fun i => ranked[i]?)
      else .error (.valueError "matmul: Input operand 1 has a mismatch in its core dimension 0")

/-- `search`. The matrix is made of the entries of every context. -/
def search (num : Numerics) (queryText haystackId : String) (topK : Int)
    (index : List IndexedFact) : Except Exn (List (String × Rat)) :=
  if haystackId = "" then .error (.valueError "haystack_id must be a non-empty string")
  else if stackable index then
    scored num queryText topK (index.filter fun e => e.haystackId = haystackId)
  else .error (.valueError "all input arrays must have the same shape")

/-- A search over vectors of one length sees the entries of its own context. -/
theorem search_of_stackable {num : Numerics} {queryText haystackId : String} {topK : Int}
    {index : List IndexedFact} (hne : haystackId ≠ "") (h : stackable index = true) :
    search num queryText haystackId topK index =
      scored num queryText topK (index.filter fun e => e.haystackId = haystackId) := by
  rw [search, if_neg hne, if_pos h]

theorem length_eq_of_stackable {index : List IndexedFact} (h : stackable index = true)
    {a b : IndexedFact} (ha : a ∈ index) (hb : b ∈ index) :
    a.embedding.length = b.embedding.length := by
  cases index with
  | nil => cases ha
  | cons first rest =>
      simp only [stackable, List.all_eq_true, beq_iff_eq] at h
      have hfirst : ∀ e ∈ first :: rest, e.embedding.length = first.embedding.length := by
        intro e he
        rcases List.mem_cons.mp he with rfl | he
        · rfl
        · exact h e he
      rw [hfirst a ha, hfirst b hb]

theorem stackable_of_length {index : List IndexedFact} {n : Nat}
    (h : ∀ e ∈ index, e.embedding.length = n) : stackable index = true := by
  cases index with
  | nil => rfl
  | cons e rest =>
      simp only [stackable, List.all_eq_true, beq_iff_eq]
      intro e' he'
      rw [h e' (List.mem_cons_of_mem _ he'), h e List.mem_cons_self]

end EmbeddingIndex

/-! ### Entities -/

/-- One entry of the answer of `find_candidates`. -/
structure NameCandidate where
  entityId : String
  name : String
  entityType : Option Scalar
  similarity : Rat
  typeMatch : Bool
deriving DecidableEq

/-- The sort key `(-type_match, -similarity)`: `a` may stand before `b`. -/
def NameCandidate.before (a b : NameCandidate) : Bool :=
  if a.typeMatch = b.typeMatch then decide (b.similarity ≤ a.similarity) else a.typeMatch

/-- `find_candidates`. -/
def EntityNameIndex.findCandidates (num : Numerics) (queryName entityType haystackId : String)
    (topK : Int) (threshold : Rat) (index : List IndexedEntity) :
    Except Exn (List NameCandidate) :=
  if haystackId = "" then .error (.valueError "haystack_id must be a non-empty string")
  else (num.encodeText queryName).map fun query =>
    let own := index.filter fun e => e.haystackId = haystackId
    let candidates := own.filterMap fun e =>
      let similarity := num.dot query e.embedding
      if threshold ≤ similarity then
        some ⟨e.entityId, e.name, e.entityType, similarity, e.entityType == some (.str entityType)⟩
      else none
    pyTake topK (candidates.mergeSort NameCandidate.before)

/-! ### Hydration -/

/-- An embedding as the driver hands it over: the text of pgvector, or its values. -/
inductive EmbeddingCell where
  | text (text : String)
  | values (values : List Rat)

/-- `text.strip("[]")`. -/
def stripBrackets (text : String) : String :=
  let bracket (c : Char) : Bool := c = '[' || c = ']'
  String.ofList (((text.toList.dropWhile bracket).reverse.dropWhile bracket).reverse)

def Numerics.vectorOf (num : Numerics) : EmbeddingCell → Except Exn (List Rat)
  | .text text => ((stripBrackets text).splitOn ",").mapM num.float
  | .values values => .ok values

/-- A `(subject_id, embedding)` row. -/
structure EmbeddingRow where
  subjectId : String
  embedding : EmbeddingCell

/-- Both indexes of a `HydrationManager`. -/
structure Indexes where
  facts : List IndexedFact := []
  entities : List IndexedEntity := []

/-- One `hydrate_context` call, with what the two databases answer it. -/
structure HydrateCall where
  contextId : String
  facts : Except Exn (List EmbeddingRow)
  transport : HydraHttpTransport

/-- The loop over the rows of facts; an exception leaves it and the call. -/
def hydrateFacts (num : Numerics) (contextId : String) :
    List EmbeddingRow → List IndexedFact → Except Exn Unit × List IndexedFact
  | [], index => (.ok (), index)
  | row :: rest, index =>
      match num.vectorOf row.embedding with
      | .error e => (.error e, index)
      | .ok vector =>
        match EmbeddingIndex.addVector num row.subjectId vector contextId index with
        | .error e => (.error e, index)
        | .ok index => hydrateFacts num contextId rest index

/-- `hydrate_context`. -/
def hydrateContext (num : Numerics) (call : HydrateCall) (s : Indexes) :
    Except Exn Unit × Indexes :=
  match call.facts with
  | .error e => (.error e, s)
  | .ok rows =>
    match hydrateFacts num call.contextId rows s.facts with
    | (.error e, facts) => (.error e, { s with facts })
    | (.ok (), facts) =>
        (.ok (), ⟨facts, hydrateEntities num.encode call.contextId call.transport s.entities⟩)

/-- What the indexes hold after some calls, each of which may have raised. -/
def hydrateAll (num : Numerics) (calls : List HydrateCall) (s : Indexes) : Indexes :=
  calls.foldl (fun s call => (hydrateContext num call s).2) s

end ContextMemory
