/-
A cell over its requests.

In every run from the empty store the reads of a cell agree with each other, the requests do to what
is seen what they mean, and a request that is sent again is answered as it was the first time.
-/

import ContextMemory.Guarantees.Requests

namespace ContextMemory.Topology

open SortedMap (get erase insert Sorted)

/-- A sequence of requests on what a caller sees, each with its outcome; one that is refused changes
nothing. -/
inductive CellGraph.Runs (S : Setting) : CellGraph → List (Request × Option Outcome) → CellGraph → Prop
  | nil (g : CellGraph) : Runs S g [] g
  | refused {g g' : CellGraph} {request : Request} {rest : List (Request × Option Outcome)} :
      Runs S g rest g' → Runs S g ((request, none) :: rest) g'
  | accepted {g mid g' : CellGraph} {request : Request} {outcome : Outcome}
      {rest : List (Request × Option Outcome)} :
      g.perform S request = some (outcome, mid) → Runs S mid rest g' →
        Runs S g ((request, some outcome) :: rest) g'

/-- The callers of a run may be trusted. -/
def TrustedRun (S : Setting) : Store → List Call → Prop
  | _, [] => True
  | s, call :: calls => s.Trusted call.request ∧ TrustedRun S (serve S s call).2 calls

/-- The requests of a run, with what they were answered. -/
def outcomes (S : Setting) (s : Store) (calls : List Call) : List (Request × Option Outcome) :=
  List.zipWith (fun call response => (call.request, response.map Response.outcome)) calls
    (run S s calls).1

namespace Store

variable {S : Setting} {s : Store} {call : Call} {calls : List Call}

/-! ### Runs -/

/-- What one request keeps. -/
theorem serve_spec (h : s.Coherent S) (htrusted : s.Trusted call.request) :
    (serve S s call).2.Coherent S ∧ s.Remembers (serve S s call).2 := by
  unfold serve
  split
  · rename_i response s' hok
    rcases (perform_spec h htrusted hok).2 with rfl | hcommits
    · exact ⟨h, .refl _⟩
    · exact ⟨hcommits.coherent, hcommits.remembers⟩
  · exact ⟨h, .refl s⟩

/-- What a run keeps, and what it means. -/
theorem run_spec (h : s.Coherent S) (htrusted : TrustedRun S s calls) :
    (run S s calls).2.Coherent S ∧ s.Remembers (run S s calls).2 ∧
      CellGraph.Runs S s.graph (outcomes S s calls) (run S s calls).2.graph := by
  induction calls generalizing s with
  | nil => exact ⟨h, .refl s, .nil _⟩
  | cons call calls ih =>
      obtain ⟨hcall, hcalls⟩ := htrusted
      obtain ⟨hcoherent, hremembers⟩ := serve_spec h hcall
      obtain ⟨hcoherent', hremembers', hruns⟩ := ih hcoherent hcalls
      refine ⟨hcoherent', hremembers.trans hremembers', ?_⟩
      have hlist : outcomes S s (call :: calls) =
          (call.request, (serve S s call).1.map Response.outcome) ::
            outcomes S (serve S s call).2 calls := rfl
      rw [hlist]
      change CellGraph.Runs S s.graph _ (run S (serve S s call).2 calls).2.graph
      unfold serve at hruns ⊢
      split at hruns
      · rename_i response s' hok
        exact .accepted (perform_spec h hcall hok).1 hruns
      · exact .refused hruns

theorem graph_empty : Store.empty.graph = CellGraph.empty := by
  refine CellGraph.ext ?_ rfl rfl rfl rfl rfl
  exact Finset.eq_empty_of_forall_notMem fun e he => by cases he

end Store

/-- A cell that keeps its edges by source only. -/
def outbound : Setting := ⟨"cell-a", false, 8, 8⟩

/-- An import that trusts its caller, an edge, a segment, a tombstone in it, and the compaction. -/
def importThenCompact : List Call :=
  [⟨[], .bulkImportEdges "KNOWS" [(1, 2)] "import" .trustNoExisting⟩,
    ⟨[], .writeEdge ⟨⟨"KNOWS", 1, 2⟩, "write"⟩⟩,
    ⟨["KNOWS"], .appendSegment "KNOWS" 1 [4, 3, 2] "append"⟩,
    ⟨["KNOWS"], .deleteEdge ⟨⟨"KNOWS", 1, 3⟩, "delete"⟩⟩,
    ⟨["KNOWS"], .compactSegments "KNOWS" 1 4 "compact" (some 4)⟩]

/-- The import comes first, so it names no edge that is there. -/
theorem importThenCompact_trusted : TrustedRun outbound Store.empty importThenCompact :=
  ⟨fun _ e _ he => (by cases he), trivial, trivial, trivial, trivial, trivial⟩

/-! ### Reads -/

namespace Store

variable {S : Setting} {s : Store} {e : EdgeKey} {n : Nat}

/-- A lookup at the sequence of the store finds exactly its edges: what the
records and blocks say at that point is what the cell has. -/
theorem Past.edgeExists_iff (h : s.Past n) : s.edgeExists e n = true ↔ e ∈ s.edges := by
  rw [edgeExists, Bool.or_eq_true, List.any_eq_true, mem_edges, mem_ownEdges, mem_segmentEdges]
  refine or_congr Iff.rfl ?_
  simp only [Bool.and_eq_true, List.contains_iff_mem, h.tombstoneAt]
  constructor
  · rintro ⟨g, hg, hdst, hvisible⟩
    obtain ⟨hg, htype, hsrc⟩ := h.mem_segmentsAt.mp hg
    exact ⟨g, hg, htype, hsrc, hdst, hvisible⟩
  · rintro ⟨g, hg, htype, hsrc, hdst, hvisible⟩
    exact ⟨g, h.mem_segmentsAt.mpr ⟨hg, htype, hsrc⟩, hdst, hvisible⟩

/-- The edges by destination are the edges. -/
theorem Coherent.mem_inNeighbors (h : s.Coherent S) (hpolicy : S.writesReverseIndex = true) :
    e.src ∈ s.inNeighbors e.destination ↔ e ∈ s.edges := by
  have hown : e ∈ s.edges ↔ e ∈ s.ownEdges := by
    rw [mem_edges, or_iff_left_iff_imp, mem_segmentEdges, h.outbound hpolicy]
    rintro ⟨g, hg, -⟩
    cases hg
  rw [hown, ← h.reverse hpolicy, SortedMap.isSome_get_iff, inNeighbors, List.mem_toFinset,
    List.mem_map]
  constructor
  · rintro ⟨⟨e', u⟩, hmem, hsrc⟩
    obtain ⟨hmem, hsource⟩ := List.mem_filter.mp hmem
    obtain ⟨htype, hdst⟩ := VertexKey.mk.inj (of_decide_eq_true hsource)
    have heq : e' = e.reverse := EdgeKey.mk.injEq .. ▸ ⟨htype, hdst, hsrc⟩
    exact ⟨u, heq ▸ hmem⟩
  · rintro ⟨u, hmem⟩
    exact ⟨_, List.mem_filter.mpr ⟨hmem, decide_eq_true rfl⟩, rfl⟩

/-- How many edges come to a vertex is how many sources it has. -/
theorem Coherent.card_inNeighbors (h : s.Coherent S) (hpolicy : S.writesReverseIndex = true)
    (v : VertexKey) : (s.inNeighbors v).card = degree EdgeKey.destination v s.edges := by
  have himage : s.inNeighbors v = (s.edges.filter fun e => e.destination = v).image EdgeKey.src := by
    ext src
    rw [Finset.mem_image]
    constructor
    · intro hsrc
      exact ⟨⟨v.edgeType, src, v.vertex⟩,
        Finset.mem_filter.mpr ⟨(h.mem_inNeighbors hpolicy).mp hsrc, rfl⟩, rfl⟩
    · rintro ⟨e, he, rfl⟩
      obtain ⟨hmem, rfl⟩ := Finset.mem_filter.mp he
      exact (h.mem_inNeighbors hpolicy).mpr hmem
  rw [himage, degree]
  refine Finset.card_image_of_injOn fun e he e' he' hsrc => ?_
  have hdestination := (Finset.mem_filter.mp he).2.trans (Finset.mem_filter.mp he').2.symm
  obtain ⟨htype, hdst⟩ := VertexKey.mk.inj hdestination
  exact EdgeKey.mk.injEq .. ▸ ⟨htype, hsrc, hdst⟩

end Store

/-- **Reads agree.** In every store that a run of trusted callers reaches, an
edge that a lookup finds is one that the neighbours of its source show, the
degree that is kept for a vertex is how many neighbours it has, and where the
edges are kept by destination too, so it is for the vertices that edges come to.
A trusted import names no edge that is there: it is counted without being looked
up. -/
theorem reads_agree (S : Setting) (calls : List Call) (htrusted : TrustedRun S Store.empty calls) :
    let s := (run S Store.empty calls).2
    (∀ e : EdgeKey, s.edgeExists e s.sequence = true ↔ e.dst ∈ s.outNeighbors e.source s.sequence) ∧
    (∀ v, Store.readCounter v s.degreeOut = (s.outNeighbors v s.sequence).card) ∧
    (S.writesReverseIndex = true →
      (∀ e : EdgeKey,
        e.src ∈ s.inNeighbors e.destination ↔ e.dst ∈ s.outNeighbors e.source s.sequence) ∧
      (∀ v, Store.readCounter v s.degreeIn = (s.inNeighbors v).card)) := by
  intro s
  have h : s.Coherent S := (Store.run_spec (.empty S) htrusted).1
  refine ⟨fun e => ?_, fun v => ?_, fun hpolicy => ⟨fun e => ?_, fun v => ?_⟩⟩
  · rw [h.past.edgeExists_iff, h.past.mem_outNeighbors]
  · rw [h.degreeOut, h.past.card_outNeighbors]
  · rw [h.mem_inNeighbors hpolicy, h.past.mem_outNeighbors]
  · rw [h.degreeIn hpolicy, h.card_inNeighbors hpolicy]

/-- A run of imports, a write, a deletion and a compaction. The degree that is
kept for a vertex is the number of its neighbours. -/
theorem reads_agree_compacted :
    (run outbound Store.empty importThenCompact).2.degreeOut = [(⟨"KNOWS", 1⟩, 2)] ∧
      (let s := (run outbound Store.empty importThenCompact).2
       Store.readCounter ⟨"KNOWS", 1⟩ s.degreeOut = (s.outNeighbors ⟨"KNOWS", 1⟩ s.sequence).card) :=
  ⟨by decide, (reads_agree outbound importThenCompact importThenCompact_trusted).2.1 ⟨"KNOWS", 1⟩⟩

/-- **Requests refine their meaning.** In every run of trusted callers from the
empty store, what the callers are answered and the edges that the cell has are
those of the requests' meaning. The meaning knows a set of edges and the answers
that it gave, and nothing of keys, blocks and epochs. -/
theorem requests_refine (S : Setting) (calls : List Call) (htrusted : TrustedRun S Store.empty calls) :
    CellGraph.Runs S CellGraph.empty (outcomes S Store.empty calls)
      (run S Store.empty calls).2.graph := by
  have hruns := (Store.run_spec (.empty S) htrusted).2.2
  rwa [Store.graph_empty] at hruns

/-- The same run against its meaning. Each answer is the one that the set of
edges gives. -/
theorem requests_refine_compacted :
    ((outcomes outbound Store.empty importThenCompact).map Prod.snd =
      [some (.added 1 0), some (.written [true]), some (.added 2 1), some (.deleted [true]),
        some .compacted]) ∧
      CellGraph.Runs outbound CellGraph.empty (outcomes outbound Store.empty importThenCompact)
        (run outbound Store.empty importThenCompact).2.graph :=
  ⟨by decide, requests_refine outbound importThenCompact importThenCompact_trusted⟩

/-! ### Retries -/

/-- What a batch is told when it is sent again: the sequence, if it changed nothing. -/
def EdgeMutationBatchResult.again (sequence : Nat) (r : EdgeMutationBatchResult) :
    EdgeMutationBatchResult :=
  if r.inserted = 0 then { r with startEpoch := sequence, endEpoch := sequence } else r

def EdgeDeleteBatchResult.again (sequence : Nat) (r : EdgeDeleteBatchResult) : EdgeDeleteBatchResult :=
  if r.deleted = 0 then { r with startEpoch := sequence, endEpoch := sequence } else r

/-- What a request is answered when it is sent again. -/
def Response.again (sequence : Nat) : Response → Response
  | .commits r => .commits (r.again sequence)
  | .deletes r => .deletes (r.again sequence)
  | r => r

/-- The answer of a request is stored under its key, or those of its mutations are under theirs. -/
def Answered (S : Setting) (s : Store) : Request → Response → Prop
  | .writeEdge m, .commit result => get m.idempotencyKey s.created = some (m.edge, result)
  | .deleteEdge m, .delete result => get m.idempotencyKey s.deleted = some (m.edge, result)
  | .writeEdgeMutationsBatch ms, .commits result =>
      List.Forall₂ (fun m r => get m.idempotencyKey s.created = some (m.edge, r)) ms result.results
  | .deleteEdgeMutationsBatch ms, .deletes result =>
      List.Forall₂ (fun m r => get m.idempotencyKey s.deleted = some (m.edge, r)) ms result.results
  | .bulkImportEdges edgeType edges key _, .imported result =>
      get key s.imported = some (Store.bulkImportFingerprint S.cellId edgeType
        (Store.importEdges edgeType edges), result)
  | .appendSegment edgeType src dsts key, .imported result =>
      get key s.appended = some (Store.bulkImportFingerprint S.cellId edgeType
        (Store.importEdges edgeType (dsts.map fun dst => (src, dst))), result)
  | .compactSegments edgeType src through key _, .compacted result =>
      get ⟨edgeType, src, key⟩ s.compacted = some result ∧ result.compactedThroughEpoch = through
  | _, _ => False

/-- An answer that a store keeps is kept by every later one. This is what a
retry lives on. -/
theorem Answered.later {S : Setting} {s s' : Store} (hs : s.Remembers s') {request : Request}
    {response : Response} (h : Answered S s request response) : Answered S s' request response := by
  unfold Answered at h ⊢
  split at h
  · exact hs.created _ _ h
  · exact hs.deleted _ _ h
  · exact h.imp fun m r hget => hs.created _ _ hget
  · exact h.imp fun m r hget => hs.deleted _ _ hget
  · exact hs.imported _ _ h
  · exact hs.appended _ _ h
  · exact ⟨hs.compacted _ _ h.1, h.2⟩
  · exact h.elim

namespace Store

variable {S : Setting} {floors floors' : List String} {s s' s₂ : Store} {m : EdgeMutation}

theorem get_insert_self {κ α : Type} [LinearOrder κ] {l : List (κ × α)} (h : Sorted l) (k : κ) (v : α) :
    get k (insert k v l) = some v := by
  rw [h.get_insert, if_pos rfl]

/-- A write leaves its answer under its key, whether the edge was new, there
already, or answered before. -/
theorem writeEdge_answers (h : s.Ordered) {result : CommitResult}
    (hok : s.writeEdge S floors m = .ok (result, s')) :
    get m.idempotencyKey s'.created = some (m.edge, result) := by
  unfold writeEdge at hok
  obtain ⟨-, -, hok⟩ := Fallible.bind_eq_ok hok
  obtain ⟨-, -, hok⟩ := Fallible.bind_eq_ok hok
  split at hok
  · rename_i edge stored hget
    split at hok
    · rename_i hedge
      cases hok
      exact hedge ▸ hget
    · cases hok
  · split at hok
    · obtain ⟨s₁, hcommit, hok⟩ := Fallible.bind_eq_ok hok
      cases hok
      rw [commit_eq_ok hcommit]
      exact get_insert_self h.created _ _
    · obtain ⟨epoch, -, hok⟩ := Fallible.bind_eq_ok hok
      obtain ⟨s₁, hcommit, hok⟩ := Fallible.bind_eq_ok hok
      cases hok
      rw [commit_eq_ok hcommit]
      exact get_insert_self h.created _ _

/-- Where the answer is kept, a repeated write returns it and leaves the store
as it is. The checks that come before the lookup passed the first time and read
nothing of the store. -/
theorem writeEdge_again {result : CommitResult} (hok : s.writeEdge S floors m = .ok (result, s'))
    (hanswer : get m.idempotencyKey s₂.created = some (m.edge, result)) :
    s₂.writeEdge S floors' m = .ok (result, s₂) := by
  unfold writeEdge at hok ⊢
  obtain ⟨_, htype, hok⟩ := Fallible.bind_eq_ok hok
  obtain ⟨_, hkey, hok⟩ := Fallible.bind_eq_ok hok
  rw [htype, Fallible.ok_bind, hkey, Fallible.ok_bind, hanswer]
  exact if_pos rfl

/-- A deletion that hits a block leaves its answer under its key, like one that
hits a record. -/
theorem deleteSegmentEdge_answers (h : s.Ordered) {result : DeleteResult}
    (hok : s.deleteSegmentEdge S floors m = .ok (result, s')) :
    get m.idempotencyKey s'.deleted = some (m.edge, result) := by
  unfold deleteSegmentEdge at hok
  split at hok
  · obtain ⟨s₁, hcommit, hok⟩ := Fallible.bind_eq_ok hok
    cases hok
    rw [commit_eq_ok hcommit]
    exact get_insert_self h.deleted _ _
  · split at hok
    · obtain ⟨s₁, hcommit, hok⟩ := Fallible.bind_eq_ok hok
      cases hok
      rw [commit_eq_ok hcommit]
      exact get_insert_self h.deleted _ _
    · obtain ⟨epoch, -, hok⟩ := Fallible.bind_eq_ok hok
      obtain ⟨s₁, hcommit, hok⟩ := Fallible.bind_eq_ok hok
      cases hok
      rw [commit_eq_ok hcommit]
      exact get_insert_self h.deleted _ _

theorem lowerIn_deleted (edges : List EdgeKey) : (s.lowerIn S edges).deleted = s.deleted := by
  unfold lowerIn
  split <;> rfl

/-- A deletion leaves its answer under its key, in the branch for records as in
the one for blocks. -/
theorem deleteEdge_answers (h : s.Ordered) {result : DeleteResult}
    (hok : s.deleteEdge S floors m = .ok (result, s')) :
    get m.idempotencyKey s'.deleted = some (m.edge, result) := by
  unfold deleteEdge at hok
  obtain ⟨-, -, hok⟩ := Fallible.bind_eq_ok hok
  obtain ⟨-, -, hok⟩ := Fallible.bind_eq_ok hok
  split at hok
  · rename_i edge stored hget
    split at hok
    · rename_i hedge
      cases hok
      exact hedge ▸ hget
    · cases hok
  · split at hok
    · obtain ⟨epoch, -, hok⟩ := Fallible.bind_eq_ok hok
      obtain ⟨s₁, hcommit, hok⟩ := Fallible.bind_eq_ok hok
      cases hok
      rw [commit_eq_ok hcommit]
      dsimp only [recordDelete]
      rw [lowerIn_deleted]
      exact get_insert_self h.deleted _ _
    · exact deleteSegmentEdge_answers h hok

/-- Where the answer is kept, a repeated deletion returns it and leaves the
store as it is. -/
theorem deleteEdge_again {result : DeleteResult} (hok : s.deleteEdge S floors m = .ok (result, s'))
    (hanswer : get m.idempotencyKey s₂.deleted = some (m.edge, result)) :
    s₂.deleteEdge S floors' m = .ok (result, s₂) := by
  unfold deleteEdge at hok ⊢
  obtain ⟨_, htype, hok⟩ := Fallible.bind_eq_ok hok
  obtain ⟨_, hkey, hok⟩ := Fallible.bind_eq_ok hok
  rw [htype, Fallible.ok_bind, hkey, Fallible.ok_bind, hanswer]
  exact if_pos rfl

/-! #### Batches -/

/-- A mutation's answer is in the table `answers` when its step is over, beside
those that were. -/
theorem writeMutation_answers {start : Store} {b b' : WriteBatch}
    (hok : writeMutation S floors start b m = .ok b') : ∃ r, b'.results = b.results ++ [r] ∧
      (b'.store.created = b.store.created ∧ get m.idempotencyKey b.store.created = some (m.edge, r) ∨
        get m.idempotencyKey b.store.created = none ∧
          b'.store.created = insert m.idempotencyKey (m.edge, r) b.store.created) := by
  unfold writeMutation at hok
  split at hok
  · rename_i edge stored hget
    split at hok
    · rename_i hedge
      cases hok
      exact ⟨stored, rfl, .inl ⟨rfl, hedge ▸ hget⟩⟩
    · cases hok
  · rename_i hnone
    split at hok
    · cases hok
      exact ⟨_, rfl, .inr ⟨hnone, rfl⟩⟩
    · split at hok
      · cases hok
        exact ⟨_, rfl, .inr ⟨hnone, rfl⟩⟩
      · split at hok
        · cases hok
          exact ⟨_, rfl, .inr ⟨hnone, rfl⟩⟩
        · cases hok
          exact ⟨_, rfl, .inr ⟨hnone, rfl⟩⟩

/-- One step of a batch of deletions adds one result. The answer was kept
before, or it is kept now. -/
theorem deleteMutation_answers {start : Store} {b b' : DeleteBatch}
    (hok : deleteMutation S floors start b m = .ok b') : ∃ r, b'.results = b.results ++ [r] ∧
      (b'.store.deleted = b.store.deleted ∧ get m.idempotencyKey b.store.deleted = some (m.edge, r) ∨
        get m.idempotencyKey b.store.deleted = none ∧
          b'.store.deleted = insert m.idempotencyKey (m.edge, r) b.store.deleted) := by
  unfold deleteMutation at hok
  split at hok
  · rename_i edge stored hget
    split at hok
    · rename_i hedge
      cases hok
      exact ⟨stored, rfl, .inl ⟨rfl, hedge ▸ hget⟩⟩
    · cases hok
  · rename_i hnone
    dsimp only at hok
    split at hok
    · cases hok
      exact ⟨_, rfl, .inr ⟨hnone, rfl⟩⟩
    · split at hok
      · cases hok
        exact ⟨_, rfl, .inr ⟨hnone, rfl⟩⟩
      · cases hok
        exact ⟨_, rfl, .inr ⟨hnone, rfl⟩⟩

/-- A step of a loop that answers one mutation: its answer is in the table of
answers afterwards, and so are those that were. -/
theorem answers_step {ρ : Type} {table table' : List (String × EdgeKey × ρ)} (h : Sorted table) {r : ρ}
    (hstep : table' = table ∧ get m.idempotencyKey table = some (m.edge, r) ∨
      get m.idempotencyKey table = none ∧ table' = insert m.idempotencyKey (m.edge, r) table) :
    Sorted table' ∧ get m.idempotencyKey table' = some (m.edge, r) ∧
      ∀ key answer, get key table = some answer → get key table' = some answer := by
  rcases hstep with ⟨rfl, hget⟩ | ⟨hnone, rfl⟩
  · exact ⟨h, hget, fun _ _ => id⟩
  · exact ⟨h.insert, get_insert_self h _ _, get_insert_new h hnone fun _ _ => id⟩

/-- After a batch of writes every mutation's answer is kept, and no older one is
lost. By induction on the mutations, with the batch generalized. -/
theorem writeMutations_answers {start : Store} {ms : List EdgeMutation} {b b' : WriteBatch}
    (h : Sorted b.store.created) (hok : writeMutations S floors start b ms = .ok b') :
    ∃ results, b'.results = b.results ++ results ∧
      (∀ key answer, get key b.store.created = some answer → get key b'.store.created = some answer) ∧
      List.Forall₂ (fun m r => get m.idempotencyKey b'.store.created = some (m.edge, r)) ms results := by
  induction ms generalizing b with
  | nil =>
      cases hok
      exact ⟨[], (List.append_nil _).symm, fun _ _ => id, .nil⟩
  | cons m ms ih =>
      obtain ⟨mid, hmid, hok⟩ := Fallible.bind_eq_ok hok
      obtain ⟨r, hr, hstep⟩ := writeMutation_answers hmid
      obtain ⟨hsorted, hhead, hkept⟩ := answers_step h hstep
      obtain ⟨results, hresults, hkept', hall⟩ := ih hsorted hok
      refine ⟨r :: results, ?_, fun key answer hget => hkept' key answer (hkept key answer hget),
        .cons (hkept' _ _ hhead) hall⟩
      rw [hresults, hr, List.append_assoc, List.singleton_append]

/-- After a batch of deletions every mutation's answer is kept, and no older one
is lost. -/
theorem deleteMutations_answers {start : Store} {ms : List EdgeMutation} {b b' : DeleteBatch}
    (h : Sorted b.store.deleted) (hok : deleteMutations S floors start b ms = .ok b') :
    ∃ results, b'.results = b.results ++ results ∧
      (∀ key answer, get key b.store.deleted = some answer → get key b'.store.deleted = some answer) ∧
      List.Forall₂ (fun m r => get m.idempotencyKey b'.store.deleted = some (m.edge, r)) ms results := by
  induction ms generalizing b with
  | nil =>
      cases hok
      exact ⟨[], (List.append_nil _).symm, fun _ _ => id, .nil⟩
  | cons m ms ih =>
      obtain ⟨mid, hmid, hok⟩ := Fallible.bind_eq_ok hok
      obtain ⟨r, hr, hstep⟩ := deleteMutation_answers hmid
      obtain ⟨hsorted, hhead, hkept⟩ := answers_step h hstep
      obtain ⟨results, hresults, hkept', hall⟩ := ih hsorted hok
      refine ⟨r :: results, ?_, fun key answer hget => hkept' key answer (hkept key answer hget),
        .cons (hkept' _ _ hhead) hall⟩
      rw [hresults, hr, List.append_assoc, List.singleton_append]

/-- A batch of which every mutation was answered changes nothing in its loop. -/
theorem writeMutations_again {start : Store} {ms : List EdgeMutation} {results : List CommitResult}
    {b : WriteBatch} (h : List.Forall₂
      (fun m r => get m.idempotencyKey b.store.created = some (m.edge, r)) ms results) :
    writeMutations S floors start b ms = .ok { b with results := b.results ++ results } := by
  induction ms generalizing b results with
  | nil =>
      cases h
      rw [List.append_nil]
      rfl
  | cons m ms ih =>
      obtain ⟨r, rest, hhead, hrest, rfl⟩ := List.forall₂_cons_left_iff.mp h
      have hstep : writeMutation S floors start b m = .ok { b with results := b.results ++ [r] } := by
        unfold writeMutation
        rw [hhead]
        exact if_pos rfl
      have hloop := ih (b := { b with results := b.results ++ [r] }) hrest
      rw [writeMutations, hstep, Fallible.ok_bind, hloop, List.append_assoc, List.singleton_append]

/-- Where all answers are kept, a repeated batch of deletions adds them to its
results and touches nothing. -/
theorem deleteMutations_again {start : Store} {ms : List EdgeMutation} {results : List DeleteResult}
    {b : DeleteBatch} (h : List.Forall₂
      (fun m r => get m.idempotencyKey b.store.deleted = some (m.edge, r)) ms results) :
    deleteMutations S floors start b ms = .ok { b with results := b.results ++ results } := by
  induction ms generalizing b results with
  | nil =>
      cases h
      rw [List.append_nil]
      rfl
  | cons m ms ih =>
      obtain ⟨r, rest, hhead, hrest, rfl⟩ := List.forall₂_cons_left_iff.mp h
      have hstep : deleteMutation S floors start b m = .ok { b with results := b.results ++ [r] } := by
        unfold deleteMutation
        rw [hhead]
        exact if_pos rfl
      have hloop := ih (b := { b with results := b.results ++ [r] }) hrest
      rw [deleteMutations, hstep, Fallible.ok_bind, hloop, List.append_assoc, List.singleton_append]

/-- A batch of writes that returns has left an answer for each of its mutations,
in the order of its results. -/
theorem writeEdgeMutationsBatch_answers (h : s.Ordered) {ms : List EdgeMutation}
    {result : EdgeMutationBatchResult}
    (hok : s.writeEdgeMutationsBatch S floors ms = .ok (result, s')) :
    List.Forall₂ (fun m r => get m.idempotencyKey s'.created = some (m.edge, r)) ms result.results := by
  unfold writeEdgeMutationsBatch at hok
  split at hok
  · rename_i hempty
    cases hok
    rw [List.isEmpty_iff.mp hempty]
    exact .nil
  · obtain ⟨-, -, hok⟩ := Fallible.bind_eq_ok hok
    obtain ⟨-, -, hok⟩ := Fallible.bind_eq_ok hok
    split at hok
    · cases hok
    · obtain ⟨commitEpoch, -, hok⟩ := Fallible.bind_eq_ok hok
      obtain ⟨b, hloop, hok⟩ := Fallible.bind_eq_ok hok
      obtain ⟨s₁, hcommit, hok⟩ := Fallible.bind_eq_ok hok
      cases hok
      obtain ⟨results, hresults, -, hall⟩ := writeMutations_answers h.created hloop
      rw [commit_eq_ok hcommit, hresults]
      exact hall

/-- A batch of deletions that returns has left an answer for each of its
mutations, in the order of its results. -/
theorem deleteEdgeMutationsBatch_answers (h : s.Ordered) {ms : List EdgeMutation}
    {result : EdgeDeleteBatchResult}
    (hok : s.deleteEdgeMutationsBatch S floors ms = .ok (result, s')) :
    List.Forall₂ (fun m r => get m.idempotencyKey s'.deleted = some (m.edge, r)) ms result.results := by
  unfold deleteEdgeMutationsBatch at hok
  split at hok
  · rename_i hempty
    cases hok
    rw [List.isEmpty_iff.mp hempty]
    exact .nil
  · obtain ⟨-, -, hok⟩ := Fallible.bind_eq_ok hok
    obtain ⟨-, -, hok⟩ := Fallible.bind_eq_ok hok
    split at hok
    · cases hok
    · obtain ⟨commitEpoch, -, hok⟩ := Fallible.bind_eq_ok hok
      obtain ⟨b, hloop, hok⟩ := Fallible.bind_eq_ok hok
      obtain ⟨s₁, hcommit, hok⟩ := Fallible.bind_eq_ok hok
      cases hok
      obtain ⟨results, hresults, -, hall⟩ := deleteMutations_answers h.deleted hloop
      rw [commit_eq_ok hcommit, hresults]
      dsimp only
      rw [lowerIn_deleted]
      exact hall

theorem raiseDegrees_nil (fresh : Bool) : s.raiseDegrees S fresh [] = s := by
  cases s
  unfold raiseDegrees
  split <;> rfl

theorem lower_nil : (s.lowerOut []).lowerIn S [] = s := by
  cases s
  unfold lowerIn
  split <;> rfl

theorem nextEpoch_of_lt (h : s.sequence < u64Max) (key reason : String) :
    s.nextEpoch key reason = .ok (s.sequence + 1) := if_pos h

theorem commit_of_lt (h : s.sequence < u64Max) :
    s.commit = .ok { s with sequence := s.sequence + 1 } := if_pos h

/-- The summary of a batch that is sent again at another sequence. -/
theorem writeSummary_again (sequence sequence' nextEpoch : Nat) (results : List CommitResult) :
    writeSummary sequence' sequence' results =
      (writeSummary sequence nextEpoch results).again sequence' := by
  unfold writeSummary EdgeMutationBatchResult.again
  dsimp only
  cases hinserted : results.filter fun result => !result.alreadyExisted with
  | nil => rfl
  | cons result inserted =>
      rw [if_neg (by rw [List.length_cons]; exact Nat.succ_ne_zero _)]
      rfl

/-- The same for a batch of deletions. Its epochs are kept only where it deleted
something. -/
theorem deleteSummary_again (sequence sequence' nextEpoch : Nat) (results : List DeleteResult) :
    deleteSummary sequence' sequence' results =
      (deleteSummary sequence nextEpoch results).again sequence' := by
  unfold deleteSummary EdgeDeleteBatchResult.again
  dsimp only
  cases hdeleted : results.filter fun result => result.deleted with
  | nil => rfl
  | cons result deleted =>
      rw [if_neg (by rw [List.length_cons]; exact Nat.succ_ne_zero _)]
      rfl

/-- A batch that is sent again commits, but changes nothing. -/
theorem writeEdgeMutationsBatch_again {ms : List EdgeMutation} {result : EdgeMutationBatchResult}
    (hok : s.writeEdgeMutationsBatch S floors ms = .ok (result, s')) (hroom : s₂.sequence < u64Max)
    (hanswers : List.Forall₂ (fun m r => get m.idempotencyKey s₂.created = some (m.edge, r)) ms
      result.results) :
    ∃ n, s₂.writeEdgeMutationsBatch S floors' ms =
      .ok (result.again s₂.sequence, { s₂ with sequence := n }) := by
  unfold writeEdgeMutationsBatch at hok ⊢
  split at hok
  · rename_i hempty
    cases hok
    rw [if_pos hempty]
    exact ⟨s₂.sequence, rfl⟩
  · rename_i hsome
    obtain ⟨_, hlimit, hok⟩ := Fallible.bind_eq_ok hok
    obtain ⟨_, hvalid, hok⟩ := Fallible.bind_eq_ok hok
    rw [if_neg hsome, hlimit, Fallible.ok_bind, hvalid, Fallible.ok_bind]
    split at hok
    · cases hok
    · obtain ⟨commitEpoch, -, hok⟩ := Fallible.bind_eq_ok hok
      obtain ⟨b, hloop, hok⟩ := Fallible.bind_eq_ok hok
      obtain ⟨s₁, hcommit, hok⟩ := Fallible.bind_eq_ok hok
      cases hok
      have hagain : writeMutations S floors' s₂ ⟨s₂, [], [], []⟩ ms =
          .ok ⟨s₂, [], [], [] ++ b.results⟩ := writeMutations_again hanswers
      rw [nextEpoch_of_lt hroom, Fallible.ok_bind, hagain, Fallible.ok_bind,
        raiseDegrees_nil, commit_of_lt hroom, ← writeSummary_again]
      exact ⟨_, rfl⟩

/-- A batch of deletions that is sent again finds all its answers, and only the
commit of the retry moves the sequence. -/
theorem deleteEdgeMutationsBatch_again {ms : List EdgeMutation} {result : EdgeDeleteBatchResult}
    (hok : s.deleteEdgeMutationsBatch S floors ms = .ok (result, s')) (hroom : s₂.sequence < u64Max)
    (hanswers : List.Forall₂ (fun m r => get m.idempotencyKey s₂.deleted = some (m.edge, r)) ms
      result.results) :
    ∃ n, s₂.deleteEdgeMutationsBatch S floors' ms =
      .ok (result.again s₂.sequence, { s₂ with sequence := n }) := by
  unfold deleteEdgeMutationsBatch at hok ⊢
  split at hok
  · rename_i hempty
    cases hok
    rw [if_pos hempty]
    exact ⟨s₂.sequence, rfl⟩
  · rename_i hsome
    obtain ⟨_, hlimit, hok⟩ := Fallible.bind_eq_ok hok
    obtain ⟨_, hvalid, hok⟩ := Fallible.bind_eq_ok hok
    rw [if_neg hsome, hlimit, Fallible.ok_bind, hvalid, Fallible.ok_bind]
    split at hok
    · cases hok
    · obtain ⟨commitEpoch, -, hok⟩ := Fallible.bind_eq_ok hok
      obtain ⟨b, hloop, hok⟩ := Fallible.bind_eq_ok hok
      obtain ⟨s₁, hcommit, hok⟩ := Fallible.bind_eq_ok hok
      cases hok
      have hagain : deleteMutations S floors' s₂ ⟨s₂, [], [], []⟩ ms =
          .ok ⟨s₂, [], [], [] ++ b.results⟩ := deleteMutations_again hanswers
      rw [nextEpoch_of_lt hroom, Fallible.ok_bind, hagain, Fallible.ok_bind, lower_nil,
        commit_of_lt hroom, ← deleteSummary_again]
      exact ⟨_, rfl⟩

/-! #### Imports and compactions -/

theorem importMissing_imported (edgeType : String) (epoch : Nat) (missing : List EdgeKey) :
    (s.importMissing S floors edgeType epoch missing).imported = s.imported := by
  have hloop : (missing.foldl (fun s e =>
      (s.markTopologyChange floors edgeType epoch [(e.src, e.dst, true)]).putOutEdge S e) s).imported =
      s.imported := by
    induction missing generalizing s with
    | nil => rfl
    | cons e rest ih => exact ih
  unfold importMissing
  dsimp only
  split
  · exact hloop
  · exact hloop

theorem appendMissing_appended (edgeType : String) (src epoch : Nat) (segmentId : String)
    (missing : List EdgeKey) :
    (s.appendMissing floors edgeType src epoch segmentId missing).appended = s.appended := by
  unfold appendMissing
  split <;> rfl

/-- An import leaves its answer under its key, beside the fingerprint of its
edges. -/
theorem bulkImportEdges_answers (h : s.Ordered) {edgeType key : String} {edges : List (Nat × Nat)}
    {policy : DuplicatePolicy} {result : BulkImportResult}
    (hok : s.bulkImportEdges S floors edgeType edges key policy = .ok (result, s')) :
    get key s'.imported =
      some (bulkImportFingerprint S.cellId edgeType (importEdges edgeType edges), result) := by
  unfold bulkImportEdges at hok
  obtain ⟨-, -, hok⟩ := Fallible.bind_eq_ok hok
  obtain ⟨-, -, hok⟩ := Fallible.bind_eq_ok hok
  obtain ⟨-, -, hok⟩ := Fallible.bind_eq_ok hok
  dsimp only at hok
  split at hok
  · rename_i fingerprint stored hget
    split at hok
    · rename_i hsame
      cases hok
      exact hsame ▸ hget
    · cases hok
  · obtain ⟨epoch, -, hok⟩ := Fallible.bind_eq_ok hok
    obtain ⟨s₁, hcommit, hok⟩ := Fallible.bind_eq_ok hok
    cases hok
    rw [commit_eq_ok hcommit]
    dsimp only [raiseDegrees]
    rw [importMissing_imported]
    exact get_insert_self h.imported _ _

/-- An import that is sent again has the fingerprint of the first one, so it is
answered and imports nothing. -/
theorem bulkImportEdges_again {edgeType key : String} {edges : List (Nat × Nat)}
    {policy : DuplicatePolicy} {result : BulkImportResult}
    (hok : s.bulkImportEdges S floors edgeType edges key policy = .ok (result, s'))
    (hanswer : get key s₂.imported =
      some (bulkImportFingerprint S.cellId edgeType (importEdges edgeType edges), result)) :
    s₂.bulkImportEdges S floors' edgeType edges key policy = .ok (result, s₂) := by
  unfold bulkImportEdges at hok ⊢
  obtain ⟨_, htype, hok⟩ := Fallible.bind_eq_ok hok
  obtain ⟨_, hkey, hok⟩ := Fallible.bind_eq_ok hok
  obtain ⟨_, hlimit, hok⟩ := Fallible.bind_eq_ok hok
  rw [htype, Fallible.ok_bind, hkey, Fallible.ok_bind, hlimit, Fallible.ok_bind]
  dsimp only
  rw [hanswer]
  exact if_pos rfl

/-- An append leaves its answer under its key, beside the fingerprint of its
edges. -/
theorem appendSegment_answers (h : s.Ordered) {edgeType key : String} {src : Nat} {dsts : List Nat}
    {result : BulkImportResult}
    (hok : s.appendSegment S floors edgeType src dsts key = .ok (result, s')) :
    get key s'.appended = some (bulkImportFingerprint S.cellId edgeType
      (importEdges edgeType (dsts.map fun dst => (src, dst))), result) := by
  unfold appendSegment at hok
  obtain ⟨-, -, hok⟩ := Fallible.bind_eq_ok hok
  obtain ⟨-, -, hok⟩ := Fallible.bind_eq_ok hok
  obtain ⟨-, -, hok⟩ := Fallible.bind_eq_ok hok
  obtain ⟨-, -, hok⟩ := Fallible.bind_eq_ok hok
  dsimp only at hok
  split at hok
  · rename_i fingerprint stored hget
    split at hok
    · rename_i hsame
      cases hok
      exact hsame ▸ hget
    · cases hok
  · obtain ⟨epoch, -, hok⟩ := Fallible.bind_eq_ok hok
    obtain ⟨s₁, hcommit, hok⟩ := Fallible.bind_eq_ok hok
    cases hok
    rw [commit_eq_ok hcommit]
    dsimp only
    rw [appendMissing_appended]
    exact get_insert_self h.appended _ _

/-- An append that is sent again has the fingerprint of the first one, so it is
answered and appends nothing. -/
theorem appendSegment_again {edgeType key : String} {src : Nat} {dsts : List Nat}
    {result : BulkImportResult}
    (hok : s.appendSegment S floors edgeType src dsts key = .ok (result, s'))
    (hanswer : get key s₂.appended = some (bulkImportFingerprint S.cellId edgeType
      (importEdges edgeType (dsts.map fun dst => (src, dst))), result)) :
    s₂.appendSegment S floors' edgeType src dsts key = .ok (result, s₂) := by
  unfold appendSegment at hok ⊢
  obtain ⟨_, htype, hok⟩ := Fallible.bind_eq_ok hok
  obtain ⟨_, hkey, hok⟩ := Fallible.bind_eq_ok hok
  obtain ⟨_, hpolicy, hok⟩ := Fallible.bind_eq_ok hok
  obtain ⟨_, hlimit, hok⟩ := Fallible.bind_eq_ok hok
  rw [htype, Fallible.ok_bind, hkey, Fallible.ok_bind, hpolicy, Fallible.ok_bind, hlimit,
    Fallible.ok_bind]
  dsimp only
  rw [hanswer]
  exact if_pos rfl

/-- A compaction leaves its answer under its key and its source, and the answer
names the epoch that was asked for. -/
theorem compactSegments_answers (h : s.Ordered) {edgeType key : String} {src through : Nat}
    {artifact : Option Nat} {result : SegmentCompactionResult}
    (hok : s.compactSegments S edgeType src through key artifact = .ok (result, s')) :
    get ⟨edgeType, src, key⟩ s'.compacted = some result ∧ result.compactedThroughEpoch = through := by
  unfold compactSegments at hok
  obtain ⟨-, -, hok⟩ := Fallible.bind_eq_ok hok
  obtain ⟨-, -, hok⟩ := Fallible.bind_eq_ok hok
  dsimp only at hok
  split at hok
  · rename_i stored hget
    split at hok
    · rename_i hsame
      cases hok
      exact ⟨hget, hsame⟩
    · cases hok
  · obtain ⟨-, -, hok⟩ := Fallible.bind_eq_ok hok
    obtain ⟨-, -, hok⟩ := Fallible.bind_eq_ok hok
    obtain ⟨s₁, hcommit, hok⟩ := Fallible.bind_eq_ok hok
    cases hok
    rw [commit_eq_ok hcommit]
    exact ⟨get_insert_self h.compacted _ _, rfl⟩

/-- A compaction that is sent again with one epoch is answered and moves
nothing. -/
theorem compactSegments_again {edgeType key : String} {src through : Nat} {artifact : Option Nat}
    {result : SegmentCompactionResult}
    (hok : s.compactSegments S edgeType src through key artifact = .ok (result, s'))
    (hanswer : get ⟨edgeType, src, key⟩ s₂.compacted = some result)
    (hthrough : result.compactedThroughEpoch = through) :
    s₂.compactSegments S edgeType src through key artifact = .ok (result, s₂) := by
  unfold compactSegments at hok ⊢
  obtain ⟨_, htype, hok⟩ := Fallible.bind_eq_ok hok
  obtain ⟨_, hkey, hok⟩ := Fallible.bind_eq_ok hok
  rw [htype, Fallible.ok_bind, hkey, Fallible.ok_bind]
  dsimp only
  rw [hanswer]
  exact if_pos hthrough

end Store

namespace Store

variable {S : Setting} {floors floors' : List String} {s s' s₂ : Store} {request : Request}
  {response : Response}

/-- What a request is answered is stored. -/
theorem perform_answers (h : s.Ordered) (hok : perform S floors s request = .ok (response, s')) :
    Answered S s' request response := by
  cases request with
  | writeEdge m =>
      obtain ⟨⟨result, s₁⟩, hrun, heq⟩ := Fallible.map_eq_ok.mp hok
      obtain ⟨rfl, rfl⟩ := Prod.mk.inj heq
      exact writeEdge_answers h hrun
  | deleteEdge m =>
      obtain ⟨⟨result, s₁⟩, hrun, heq⟩ := Fallible.map_eq_ok.mp hok
      obtain ⟨rfl, rfl⟩ := Prod.mk.inj heq
      exact deleteEdge_answers h hrun
  | writeEdgeMutationsBatch ms =>
      obtain ⟨⟨result, s₁⟩, hrun, heq⟩ := Fallible.map_eq_ok.mp hok
      obtain ⟨rfl, rfl⟩ := Prod.mk.inj heq
      exact writeEdgeMutationsBatch_answers h hrun
  | deleteEdgeMutationsBatch ms =>
      obtain ⟨⟨result, s₁⟩, hrun, heq⟩ := Fallible.map_eq_ok.mp hok
      obtain ⟨rfl, rfl⟩ := Prod.mk.inj heq
      exact deleteEdgeMutationsBatch_answers h hrun
  | bulkImportEdges edgeType edges key policy =>
      obtain ⟨⟨result, s₁⟩, hrun, heq⟩ := Fallible.map_eq_ok.mp hok
      obtain ⟨rfl, rfl⟩ := Prod.mk.inj heq
      exact bulkImportEdges_answers h hrun
  | appendSegment edgeType src dsts key =>
      obtain ⟨⟨result, s₁⟩, hrun, heq⟩ := Fallible.map_eq_ok.mp hok
      obtain ⟨rfl, rfl⟩ := Prod.mk.inj heq
      exact appendSegment_answers h hrun
  | compactSegments edgeType src through key artifact =>
      obtain ⟨⟨result, s₁⟩, hrun, heq⟩ := Fallible.map_eq_ok.mp hok
      obtain ⟨rfl, rfl⟩ := Prod.mk.inj heq
      exact compactSegments_answers h hrun

/-- A request whose answer is stored is answered that. -/
theorem perform_again (hok : perform S floors s request = .ok (response, s'))
    (hanswered : Answered S s₂ request response) (hroom : s₂.sequence < u64Max) :
    ∃ n, perform S floors' s₂ request =
      .ok (response.again s₂.sequence, { s₂ with sequence := n }) := by
  cases request with
  | writeEdge m =>
      obtain ⟨⟨result, s₁⟩, hrun, heq⟩ := Fallible.map_eq_ok.mp hok
      obtain ⟨rfl, rfl⟩ := Prod.mk.inj heq
      exact ⟨s₂.sequence, Fallible.map_eq_ok.mpr ⟨_, writeEdge_again hrun hanswered, rfl⟩⟩
  | deleteEdge m =>
      obtain ⟨⟨result, s₁⟩, hrun, heq⟩ := Fallible.map_eq_ok.mp hok
      obtain ⟨rfl, rfl⟩ := Prod.mk.inj heq
      exact ⟨s₂.sequence, Fallible.map_eq_ok.mpr ⟨_, deleteEdge_again hrun hanswered, rfl⟩⟩
  | writeEdgeMutationsBatch ms =>
      obtain ⟨⟨result, s₁⟩, hrun, heq⟩ := Fallible.map_eq_ok.mp hok
      obtain ⟨rfl, rfl⟩ := Prod.mk.inj heq
      obtain ⟨n, hagain⟩ := writeEdgeMutationsBatch_again hrun hroom hanswered
      exact ⟨n, Fallible.map_eq_ok.mpr ⟨_, hagain, rfl⟩⟩
  | deleteEdgeMutationsBatch ms =>
      obtain ⟨⟨result, s₁⟩, hrun, heq⟩ := Fallible.map_eq_ok.mp hok
      obtain ⟨rfl, rfl⟩ := Prod.mk.inj heq
      obtain ⟨n, hagain⟩ := deleteEdgeMutationsBatch_again hrun hroom hanswered
      exact ⟨n, Fallible.map_eq_ok.mpr ⟨_, hagain, rfl⟩⟩
  | bulkImportEdges edgeType edges key policy =>
      obtain ⟨⟨result, s₁⟩, hrun, heq⟩ := Fallible.map_eq_ok.mp hok
      obtain ⟨rfl, rfl⟩ := Prod.mk.inj heq
      exact ⟨s₂.sequence, Fallible.map_eq_ok.mpr ⟨_, bulkImportEdges_again hrun hanswered, rfl⟩⟩
  | appendSegment edgeType src dsts key =>
      obtain ⟨⟨result, s₁⟩, hrun, heq⟩ := Fallible.map_eq_ok.mp hok
      obtain ⟨rfl, rfl⟩ := Prod.mk.inj heq
      exact ⟨s₂.sequence, Fallible.map_eq_ok.mpr ⟨_, appendSegment_again hrun hanswered, rfl⟩⟩
  | compactSegments edgeType src through key artifact =>
      obtain ⟨⟨result, s₁⟩, hrun, heq⟩ := Fallible.map_eq_ok.mp hok
      obtain ⟨rfl, rfl⟩ := Prod.mk.inj heq
      exact ⟨s₂.sequence, Fallible.map_eq_ok.mpr
        ⟨_, compactSegments_again hrun hanswered.1 hanswered.2, rfl⟩⟩

end Store

theorem run_append (S : Setting) (s : Store) (calls calls' : List Call) :
    (run S s (calls ++ calls')).2 = (run S (run S s calls).2 calls').2 := by
  induction calls generalizing s with
  | nil => rfl
  | cons call calls ih => exact ih _

/-- A run is trusted exactly if its first part is, and the rest from where that
part ends. -/
theorem TrustedRun_append (S : Setting) (s : Store) (calls calls' : List Call) :
    TrustedRun S s (calls ++ calls') ↔ TrustedRun S s calls ∧ TrustedRun S (run S s calls).2 calls' := by
  induction calls generalizing s with
  | nil => exact (and_iff_right trivial).symm
  | cons call calls ih => exact (and_congr Iff.rfl (ih _)).trans and_assoc.symm

/-- **A request that is sent again is answered again.** Where a run of trusted
callers accepted a request, the store that the run reaches answers it as it did
then, whatever came between, and nothing but the sequence changes. Only a batch
that changed nothing is told the sequence anew (`Response.again`): its epochs
are not stored. The sequence has room for the commit of the retry. -/
theorem retry_answered (S : Setting) (before after : List Call) (call : Call) (floors : List String)
    (htrusted : TrustedRun S Store.empty (before ++ call :: after)) (response : Response)
    (haccepted : (serve S (run S Store.empty before).2 call).1 = some response)
    (hroom : (run S Store.empty (before ++ call :: after)).2.sequence < u64Max) :
    let s := (run S Store.empty (before ++ call :: after)).2
    ∃ n, serve S s ⟨floors, call.request⟩ =
      (some (response.again s.sequence), { s with sequence := n }) := by
  intro s
  obtain ⟨hbefore, hcall, hafter⟩ := (TrustedRun_append _ _ _ _).mp htrusted
  have hcoherent := (Store.run_spec (.empty S) hbefore).1
  have hs : s = (run S (serve S (run S Store.empty before).2 call).2 after).2 := run_append _ _ _ _
  have hserve := Store.serve_spec hcoherent hcall
  have hlater := (Store.run_spec hserve.1 hafter).2.1
  rw [← hs] at hlater
  unfold serve at haccepted hlater
  split at haccepted
  · rename_i response₁ s₁ hok
    obtain rfl := Option.some.inj haccepted
    rw [hok] at hlater
    have hanswered := (Store.perform_answers hcoherent.ordered hok).later hlater
    obtain ⟨n, hagain⟩ := Store.perform_again hok hanswered hroom
    refine ⟨n, ?_⟩
    unfold serve
    rw [hagain]
  · cases haccepted

/-- A batch that found its edge there is sent again after the edge was deleted.
It is answered as at first, with the sequence of the retry for its epochs, and
the edge stays deleted. -/
theorem retry_answered_deleted :
    let write : Call := ⟨[], .writeEdge ⟨⟨"KNOWS", 1, 2⟩, "write"⟩⟩
    let batch : Call := ⟨[], .writeEdgeMutationsBatch [⟨⟨"KNOWS", 1, 2⟩, "batch"⟩]⟩
    let delete : Call := ⟨["KNOWS"], .deleteEdge ⟨⟨"KNOWS", 1, 2⟩, "delete"⟩⟩
    let s := (run outbound Store.empty [write, batch, delete]).2
    s.edges = ∅ ∧ s.sequence = 3 ∧ ∃ n, serve outbound s batch =
      (some (.commits ⟨3, 3, 0, 1, [⟨1, true⟩]⟩), { s with sequence := n }) := by
  refine ⟨by decide, by decide, ?_⟩
  exact retry_answered outbound [⟨[], .writeEdge ⟨⟨"KNOWS", 1, 2⟩, "write"⟩⟩]
    [⟨["KNOWS"], .deleteEdge ⟨⟨"KNOWS", 1, 2⟩, "delete"⟩⟩]
    ⟨[], .writeEdgeMutationsBatch [⟨⟨"KNOWS", 1, 2⟩, "batch"⟩]⟩ []
    ⟨trivial, trivial, trivial, trivial⟩ (.commits ⟨1, 1, 0, 1, [⟨1, true⟩]⟩)
    (by decide) (by decide)

end ContextMemory.Topology
