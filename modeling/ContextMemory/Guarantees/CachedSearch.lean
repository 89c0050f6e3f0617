/-
The cache of an `EmbeddingIndex`.

Whatever was called, the dictionaries and a cache that is not dirty hold the entries of the index
(`Represents.run`), so a search answers as over the entries themselves (`Represents.search`): with
the best of the entries of its context (`cached_search`).
-/

import ContextMemory.Lib.Top
import ContextMemory.Retrieval.CachedIndex

namespace ContextMemory

/-! ### The entries -/

/-- What a call makes of the entries. -/
def IndexCall.on (num : Numerics) (index : List IndexedFact) : IndexCall → List IndexedFact
  | .add factId text haystackId =>
      if factId = "" ∨ haystackId = "" ∨ text = "" then index
      else Ordered.upsert IndexedFact.factId ⟨factId, haystackId, num.encode text⟩ index
  | .addVector factId vector haystackId =>
      if factId = "" ∨ haystackId = "" then index
      else Ordered.upsert IndexedFact.factId ⟨factId, haystackId, num.normalize vector⟩ index
  | .remove factId => index.filter fun e => e.factId ≠ factId
  | .clear => []
  | .search _ _ _ => index

def storedFacts (num : Numerics) (calls : List IndexCall) : List IndexedFact :=
  calls.foldl (IndexCall.on num) []

def ownFacts (haystackId : String) (index : List IndexedFact) : List IndexedFact :=
  index.filter fun e => e.haystackId = haystackId

/-! ### The cache holds the entries -/

namespace CachedIndex

/-- The lists and the matrix of a search are those of the entries. -/
structure Caches (c : CachedIndex) (index : List IndexedFact) : Prop where
  factIds : c.factIds = index.map IndexedFact.factId
  factHaystacks : c.factHaystacks = index.map IndexedFact.haystackId
  matrix : c.matrix = some (index.map IndexedFact.embedding)
  stackable : EmbeddingIndex.stackable index = true

/-- The dictionaries are those of the entries, and so is a cache that is not dirty. -/
structure Represents (c : CachedIndex) (index : List IndexedFact) : Prop where
  embeddings : c.embeddings = index.map fun e => (e.factId, e.embedding)
  haystacks : c.haystacks = index.map fun e => (e.factId, e.haystackId)
  distinct : (index.map IndexedFact.factId).Nodup
  cached : c.dirty = false → c.Caches index

variable {num : Numerics} {c : CachedIndex} {index : List IndexedFact}

theorem represents_new : Represents {} [] where
  embeddings := rfl
  haystacks := rfl
  distinct := List.nodup_nil
  cached h := by cases h

/-- Storing an entry in the cache is replacing it in the index, under its fact
id. -/
theorem Represents.store (h : c.Represents index) (factId : String) (vector : List Rat)
    (haystackId : String) : (c.store factId vector haystackId).Represents
      (Ordered.upsert IndexedFact.factId ⟨factId, haystackId, vector⟩ index) where
  embeddings := by
    have hkey : ∀ e : IndexedFact, (e.factId, e.embedding).1 = e.factId := fun _ => rfl
    rw [← Ordered.upsert_map hkey, ← h.embeddings]
    rfl
  haystacks := by
    have hkey : ∀ e : IndexedFact, (e.factId, e.haystackId).1 = e.factId := fun _ => rfl
    rw [← Ordered.upsert_map hkey, ← h.haystacks]
    rfl
  distinct := Ordered.nodup_upsert h.distinct
  cached hdirty := by cases hdirty

/-- The cache has a vector under exactly the fact ids of the index. -/
theorem isSome_lookup_iff (h : c.Represents index) (factId : String) :
    (c.embeddings.lookup factId).isSome = true ↔ factId ∈ index.map IndexedFact.factId := by
  rw [h.embeddings, List.lookup_isSome_iff]
  constructor
  · rintro ⟨entry, hentry, hkey⟩
    obtain ⟨e, he, rfl⟩ := List.mem_map.mp hentry
    exact beq_iff_eq.mp hkey ▸ List.mem_map_of_mem he
  · intro hmem
    obtain ⟨e, he, rfl⟩ := List.mem_map.mp hmem
    exact ⟨_, List.mem_map_of_mem he, beq_self_eq_true _⟩

/-- Removing an entry from the cache removes it from the index. -/
theorem Represents.remove (h : c.Represents index) (factId : String) :
    (c.remove factId).Represents (index.filter fun e => e.factId ≠ factId) where
  embeddings := by
    rw [CachedIndex.remove, h.embeddings, List.filter_map]
    rfl
  haystacks := by
    rw [CachedIndex.remove, h.haystacks, List.filter_map]
    rfl
  distinct := h.distinct.sublist (List.filter_sublist.map _)
  cached hdirty := by
    simp only [CachedIndex.remove] at hdirty
    split at hdirty
    · cases hdirty
    · -- the id was not there, and the entries stay
      rename_i hnone
      have hnot := fun hmem => hnone ((isSome_lookup_iff h factId).mpr hmem)
      have hall : index.filter (fun e => e.factId ≠ factId) = index := by
        refine List.filter_eq_self.mpr fun e he => ?_
        rw [decide_eq_true_iff]
        rintro rfl
        exact hnot (List.mem_map_of_mem he)
      rw [hall]
      obtain ⟨hids, hhaystacks, hmatrix, hstack⟩ := h.cached hdirty
      exact ⟨hids, hhaystacks, hmatrix, hstack⟩

/-! ### Rebuilding -/

/-- Each fact of the index has its context in the cache. The lookup that the
source leaves unguarded does not raise. -/
theorem haystackOf_mem (h : c.Represents index) {e : IndexedFact} (he : e ∈ index) :
    c.haystackOf e.factId = .ok e.haystackId := by
  rw [haystackOf, h.haystacks, Ordered.lookup_view _ h.distinct he]

/-- Stacking the vectors works exactly if they are of one length, as in the
index without a cache. -/
theorem stack_eq (hne : index ≠ []) : stack (index.map IndexedFact.embedding) =
    if EmbeddingIndex.stackable index then .ok (index.map IndexedFact.embedding)
    else .error (.valueError "all input arrays must have the same shape") := by
  cases index with
  | nil => exact absurd rfl hne
  | cons e rest =>
      simp only [List.map_cons, stack, List.all_map, EmbeddingIndex.stackable]
      rfl

/-- Rebuilding makes a cache of the entries, unless their vectors differ in
length. -/
theorem Represents.rebuild (h : c.Represents index) (hdirty : c.dirty = true) :
    ∃ c', c'.Represents index ∧
      (EmbeddingIndex.stackable index = true → c.rebuild = (.ok (), c') ∧ c'.Caches index) ∧
      (EmbeddingIndex.stackable index = false →
        c.rebuild = (.error (.valueError "all input arrays must have the same shape"), c')) := by
  have hids : c.embeddings.map Prod.fst = index.map IndexedFact.factId := by
    rw [h.embeddings, List.map_map]
    rfl
  have hvectors : c.embeddings.map Prod.snd = index.map IndexedFact.embedding := by
    rw [h.embeddings, List.map_map]
    rfl
  let filled : CachedIndex := { c with
    factIds := index.map IndexedFact.factId
    factHaystacks := index.map IndexedFact.haystackId }
  have hhaystacks : (index.map IndexedFact.factId).mapM
      { c with factIds := index.map IndexedFact.factId : CachedIndex }.haystackOf =
        .ok (index.map IndexedFact.haystackId) := by
    rw [List.mapM_map]
    exact Fallible.mapM_eq_map fun e he => haystackOf_mem h he
  have hcaches : EmbeddingIndex.stackable index = true →
      { filled with matrix := some (index.map IndexedFact.embedding), dirty := false }.Caches index :=
    fun hstack => ⟨rfl, rfl, rfl, hstack⟩
  unfold CachedIndex.rebuild
  dsimp only
  rw [hids, hhaystacks]
  dsimp only
  cases hstack : EmbeddingIndex.stackable index with
  | true =>
      refine ⟨{ filled with matrix := some (index.map IndexedFact.embedding), dirty := false },
        ⟨h.embeddings, h.haystacks, h.distinct, fun _ => hcaches hstack⟩, fun _ => ⟨?_, hcaches hstack⟩,
        fun hfalse => by cases hfalse⟩
      split
      · rename_i hnil
        rw [List.map_eq_nil_iff] at hnil
        subst hnil
        rfl
      · rename_i hne
        rw [hvectors, stack_eq fun hnil => hne (congrArg _ hnil), hstack, if_pos rfl]
  | false =>
      refine ⟨filled, ⟨h.embeddings, h.haystacks, h.distinct, fun hclean => ?_⟩, ?_, fun _ => ?_⟩
      · exact absurd (hdirty.symm.trans hclean) (by decide)
      · intro htrue
        cases htrue
      · have hne : index ≠ [] := by
          rintro rfl
          cases hstack
        rw [if_neg fun hnil => hne (List.map_eq_nil_iff.mp hnil), hvectors, stack_eq hne, hstack]
        rfl

/-! ### Searching -/

/-- A mask that is made of the entries keeps what they are mapped to. -/
theorem masked_map {α β : Type} (p : α → Bool) (f : α → β) (xs : List α) :
    masked (xs.map p) (xs.map f) = (xs.filter p).map f := by
  induction xs with
  | nil => rfl
  | cons x xs ih =>
      simp only [masked, List.map_cons, List.zip_cons_cons] at ih ⊢
      cases hx : p x with
      | true => rw [List.filter_cons_of_pos rfl, List.filter_cons_of_pos hx, List.map_cons, ih,
          List.map_cons]
      | false => rw [List.filter_cons_of_neg Bool.false_ne_true,
          List.filter_cons_of_neg (Bool.eq_false_iff.mp hx), ih]

/-- The rows of one length fit a query if the first one does. -/
theorem all_fit (hstack : EmbeddingIndex.stackable index = true) {haystackId : String}
    {first : IndexedFact} {rest : List IndexedFact} (hown : ownFacts haystackId index = first :: rest)
    (n : Nat) : (((first :: rest).map IndexedFact.embedding).all fun row => row.length == n) =
      decide (n = first.embedding.length) := by
  have hlengths : ∀ e ∈ first :: rest, e.embedding.length = first.embedding.length := by
    have hmem : ∀ e ∈ first :: rest, e ∈ index := fun e he => (List.mem_filter.mp (hown ▸ he)).1
    exact fun e he => EmbeddingIndex.length_eq_of_stackable hstack (hmem e he)
      (hmem first List.mem_cons_self)
  rw [Bool.eq_iff_iff, List.all_eq_true, decide_eq_true_iff]
  constructor
  · intro hall
    exact (beq_iff_eq.mp (hall _ (List.mem_map_of_mem List.mem_cons_self))).symm
  · rintro rfl row hrow
    obtain ⟨e, he, rfl⟩ := List.mem_map.mp hrow
    exact beq_iff_eq.mpr (hlengths e he)

/-- A cache answers from the entries of the context. -/
theorem Caches.searchCached (h : c.Caches index) (queryText haystackId : String) (topK : Int) :
    c.searchCached num queryText haystackId topK =
      EmbeddingIndex.scored num queryText topK (ownFacts haystackId index) := by
  have hmask : c.factHaystacks.map (fun h => h == haystackId) =
      index.map fun e => decide (e.haystackId = haystackId) := by
    rw [h.factHaystacks, List.map_map]
    rfl
  have hlength : (index.map fun e => decide (e.haystackId = haystackId)).length =
      (index.map IndexedFact.embedding).length := by rw [List.length_map, List.length_map]
  unfold CachedIndex.searchCached
  rw [h.matrix, h.factIds]
  dsimp only
  rw [hmask, if_neg (not_not.mpr hlength), masked_map, masked_map, ← ownFacts]
  cases hown : ownFacts haystackId index with
  | nil =>
      have hnone : (index.map fun e => decide (e.haystackId = haystackId)).any id = false := by
        rw [List.any_map, List.any_eq_false]
        exact List.filter_eq_nil_iff.mp hown
      rw [hnone, if_neg Bool.false_ne_true, ite_self]
      rfl
  | cons first rest =>
      have hfirst : first ∈ ownFacts haystackId index := hown ▸ List.mem_cons_self
      have hsome : (index.map fun e => decide (e.haystackId = haystackId)).any id = true := by
        rw [List.any_map, List.any_eq_true]
        exact ⟨first, List.mem_filter.mp hfirst⟩
      have hne : index ≠ [] := by
        rintro rfl
        cases hown
      rw [if_neg fun hnil => hne (List.map_eq_nil_iff.mp hnil), hsome, if_pos rfl,
        EmbeddingIndex.scored]
      refine congrArg _ (funext fun query => ?_)
      rw [all_fit h.stackable hown]
      simp only [decide_eq_true_eq, List.map_map, Function.comp_def]
      refine if_congr Iff.rfl (congrArg Except.ok (List.filterMap_congr fun i _ => ?_)) rfl
      rw [List.getElem?_zipWith, List.getElem?_map, List.getElem?_map]
      cases (first :: rest)[i]? <;> rfl

/-- **Refinement.** A search answers as over the entries, and the cache still
holds them. -/
theorem Represents.search (h : c.Represents index) (queryText haystackId : String) (topK : Int) :
    (c.search num queryText haystackId topK).1 =
        EmbeddingIndex.search num queryText haystackId topK index ∧
      (c.search num queryText haystackId topK).2.Represents index := by
  unfold CachedIndex.search EmbeddingIndex.search
  by_cases hhaystack : haystackId = ""
  · rw [if_pos hhaystack, if_pos hhaystack]
    exact ⟨rfl, h⟩
  rw [if_neg hhaystack, if_neg hhaystack]
  cases hdirty : c.dirty with
  | false =>
      have hcaches := h.cached hdirty
      rw [if_neg Bool.false_ne_true, if_pos hcaches.stackable]
      exact ⟨hcaches.searchCached queryText haystackId topK, h⟩
  | true =>
      obtain ⟨c', hc', hgood, hbad⟩ := h.rebuild hdirty
      rw [if_pos rfl]
      cases hstack : EmbeddingIndex.stackable index with
      | true =>
          obtain ⟨hrebuild, hcaches⟩ := hgood hstack
          rw [hrebuild, if_pos rfl]
          exact ⟨hcaches.searchCached queryText haystackId topK, hc'⟩
      | false =>
          rw [hbad hstack, if_neg Bool.false_ne_true]
          exact ⟨rfl, hc'⟩

/-! ### Runs -/

/-- Every call does to the cache what it does to the index. -/
theorem Represents.call (h : c.Represents index) (call : IndexCall) :
    (c.call num call).Represents (call.on num index) := by
  cases call with
  | add factId text haystackId =>
      simp only [CachedIndex.call, CachedIndex.add, IndexCall.on, Numerics.encodeText]
      by_cases hid : factId = ""
      · rw [if_pos hid, if_pos (Or.inl hid)]
        exact h
      by_cases hhaystack : haystackId = ""
      · rw [if_neg hid, if_pos hhaystack, if_pos (Or.inr (Or.inl hhaystack))]
        exact h
      by_cases htext : text = ""
      · rw [if_neg hid, if_neg hhaystack, if_pos htext, if_pos (Or.inr (Or.inr htext))]
        exact h
      · rw [if_neg hid, if_neg hhaystack, if_neg htext, if_neg (by tauto)]
        exact h.store factId (num.encode text) haystackId
  | addVector factId vector haystackId =>
      simp only [CachedIndex.call, CachedIndex.addVector, IndexCall.on]
      by_cases hid : factId = ""
      · rw [if_pos hid, if_pos (Or.inl hid)]
        exact h
      by_cases hhaystack : haystackId = ""
      · rw [if_neg hid, if_pos hhaystack, if_pos (Or.inr hhaystack)]
        exact h
      · rw [if_neg hid, if_neg hhaystack, if_neg (by tauto)]
        exact h.store factId (num.normalize vector) haystackId
  | remove factId => exact h.remove factId
  | clear => exact represents_new
  | search queryText haystackId topK => exact (h.search queryText haystackId topK).2

/-- And so does every run of calls, by induction on them. -/
theorem Represents.run (h : c.Represents index) (calls : List IndexCall) :
    (calls.foldl (CachedIndex.call num) c).Represents (calls.foldl (IndexCall.on num) index) := by
  induction calls generalizing c index with
  | nil => exact h
  | cons call rest ih => exact ih (h.call call)

end CachedIndex

/-! ### The best of a context -/

/-- `np.argsort` arranges the places of the scores, the lowest score first. -/
structure Numerics.Sorts (num : Numerics) : Prop where
  perm : ∀ scores, (num.argsort scores).Perm (List.range scores.length)
  sorted : ∀ scores, (num.argsort scores).Pairwise fun i j =>
    ∀ a ∈ scores[i]?, ∀ b ∈ scores[j]?, a ≤ b

/-- The score of every entry for a question. -/
def scoresOf (num : Numerics) (queryText : String) (own : List IndexedFact) :
    List (String × Rat) :=
  own.map fun e => (e.factId, num.dot e.embedding (num.encode queryText))

/-- What the search of a context gives, whose entries are `own`. -/
structure Answered (num : Numerics) (queryText haystackId : String) (k : Nat)
    (own : List IndexedFact) (result : Except Exn (List (String × Rat))) : Prop where
  best : haystackId ≠ "" → queryText ≠ "" → ∃ answer, result = .ok answer ∧
    (answer.map Prod.fst).Nodup ∧ Ranked.IsTop Prod.snd k (scoresOf num queryText own) answer
  nothing : haystackId ≠ "" → own = [] → result = .ok []
  noHaystack : haystackId = "" →
    result = .error (.valueError "haystack_id must be a non-empty string")
  noQuery : haystackId ≠ "" → own ≠ [] → queryText = "" →
    result = .error (.valueError "text must be a non-empty string")

theorem pyTake_natCast {α : Type} (k : Nat) (xs : List α) : pyTake (k : Int) xs = xs.take k := by
  rw [pyTake, if_pos (Int.natCast_nonneg k), Int.toNat_natCast]

/-- The places of the scores, read from the back, give the best. -/
theorem isTop_of_argsort {xs : List (String × Rat)} {order : List Nat}
    (hperm : order.Perm (List.range xs.length))
    (hsorted : order.Pairwise fun i j =>
      ∀ a ∈ (xs.map Prod.snd)[i]?, ∀ b ∈ (xs.map Prod.snd)[j]?, a ≤ b) (k : Nat) :
    Ranked.IsTop Prod.snd k xs ((pyTake (k : Int) order.reverse).filterMap fun i => xs[i]?) := by
  have hbound : ∀ i ∈ order, i < xs.length := fun i hi => List.mem_range.mp (hperm.subset hi)
  have hread : ∀ i ∈ order, xs[i]? = some (xs.getD i default) := by
    intro i hi
    rw [List.getD_eq_getElem?_getD, List.getElem?_eq_getElem (hbound i hi), Option.getD_some]
  have hall : (List.range xs.length).map (fun i => xs.getD i default) = xs := by
    apply List.ext_getElem (by simp)
    intro i hi hi'
    simp [List.getD_eq_getElem?_getD, List.getElem?_eq_getElem hi']
  have hanswer : (pyTake (k : Int) order.reverse).filterMap (fun i => xs[i]?) =
      (order.reverse.map fun i => xs.getD i default).take k := by
    rw [pyTake_natCast, ← List.map_take, ← List.filterMap_eq_map]
    refine List.filterMap_congr fun i hi => ?_
    exact hread i (List.mem_reverse.mp (List.mem_of_mem_take hi))
  rw [hanswer]
  apply Ranked.isTop_take
  · have harranged := (order.reverse_perm.trans hperm).map fun i => xs.getD i default
    rwa [hall] at harranged
  · rw [List.pairwise_map, List.pairwise_reverse]
    refine hsorted.imp_of_mem fun {i j} hi hj hle => ?_
    have hscore : ∀ i ∈ order, (xs.getD i default).2 ∈ (xs.map Prod.snd)[i]? := by
      intro i hi
      rw [List.getElem?_map, hread i hi]
      rfl
    exact hle _ (hscore i hi) _ (hscore j hj)

section OneDimension

variable {num : Numerics} {d : Nat}

/-- The vectors that a call stores have one length. -/
def IndexCall.OfLength (d : Nat) : IndexCall → Prop
  | .addVector _ vector _ => vector.length = d
  | _ => True

/-- A call that adds a vector of the right length keeps all lengths. -/
theorem lengths_on (hencode : ∀ text, (num.encode text).length = d)
    (hnormalize : ∀ vector, (num.normalize vector).length = vector.length)
    {index : List IndexedFact} (hindex : ∀ e ∈ index, e.embedding.length = d) {call : IndexCall}
    (hcall : call.OfLength d) : ∀ e ∈ call.on num index, e.embedding.length = d := by
  cases call with
  | add factId text haystackId =>
      simp only [IndexCall.on]
      split
      · exact hindex
      · intro e he
        rcases Ordered.mem_of_mem_upsert he with rfl | he
        · exact hencode text
        · exact hindex e he
  | addVector factId vector haystackId =>
      simp only [IndexCall.on]
      split
      · exact hindex
      · intro e he
        rcases Ordered.mem_of_mem_upsert he with rfl | he
        · exact (hnormalize vector).trans hcall
        · exact hindex e he
  | remove factId => exact fun e he => hindex e (List.mem_of_mem_filter he)
  | clear => exact fun e he => by cases he
  | search queryText haystackId topK => exact hindex

/-- After calls with vectors of one length, all entries have it. -/
theorem lengths_stored (hencode : ∀ text, (num.encode text).length = d)
    (hnormalize : ∀ vector, (num.normalize vector).length = vector.length)
    {calls : List IndexCall} (hcalls : ∀ call ∈ calls, call.OfLength d) :
    ∀ e ∈ storedFacts num calls, e.embedding.length = d := by
  have hfold : ∀ index : List IndexedFact, (∀ e ∈ index, e.embedding.length = d) →
      ∀ e ∈ calls.foldl (IndexCall.on num) index, e.embedding.length = d := by
    induction calls with
    | nil => exact fun index hindex => hindex
    | cons call rest ih =>
        intro index hindex
        refine ih (fun other hother => hcalls other (List.mem_cons_of_mem _ hother)) _ ?_
        exact lengths_on hencode hnormalize hindex (hcalls call List.mem_cons_self)
  exact hfold [] fun e he => by cases he

/-- Scoring entries of the query's length returns, with the best of their
scores. -/
theorem exists_scored (hsorts : num.Sorts) {queryText : String} (hquery : queryText ≠ "")
    {own : List IndexedFact}
    (hlengths : ∀ e ∈ own, e.embedding.length = (num.encode queryText).length) (k : Nat) :
    ∃ answer, EmbeddingIndex.scored num queryText k own = .ok answer ∧
      Ranked.IsTop Prod.snd k (scoresOf num queryText own) answer := by
  cases own with
  | nil => exact ⟨[], rfl, (Nat.min_zero k).symm, List.Pairwise.nil, [], List.Perm.refl [],
      fun y hy => by cases hy⟩
  | cons first rest =>
      let scores := (first :: rest).map fun e => num.dot e.embedding (num.encode queryText)
      have hranked : (first :: rest).zipWith (fun e score => (e.factId, score)) scores =
          scoresOf num queryText (first :: rest) := by
        rw [List.zipWith_map_right, List.zipWith_self, scoresOf]
      have hscores : (scoresOf num queryText (first :: rest)).map Prod.snd = scores := by
        rw [scoresOf, List.map_map]
        rfl
      have hlength : (num.encode queryText).length = first.embedding.length :=
        (hlengths first List.mem_cons_self).symm
      have htop : Ranked.IsTop Prod.snd k (scoresOf num queryText (first :: rest))
          ((pyTake (k : Int) (num.argsort scores).reverse).filterMap fun i =>
            (scoresOf num queryText (first :: rest))[i]?) := by
        apply isTop_of_argsort
        · rw [← List.length_map Prod.snd, hscores]
          exact hsorts.perm scores
        · rw [hscores]
          exact hsorts.sorted scores
      refine ⟨_, ?_, htop⟩
      rw [EmbeddingIndex.scored, Numerics.encodeText, if_neg hquery, Except.bind, if_pos hlength]
      dsimp only
      rw [hranked]

/-- Over vectors of the length of a question, a search gives the best. -/
theorem answered_search (hsorts : num.Sorts) (hencode : ∀ text, (num.encode text).length = d)
    {index : List IndexedFact} (hlengths : ∀ e ∈ index, e.embedding.length = d)
    (hdistinct : (index.map IndexedFact.factId).Nodup) (queryText haystackId : String) (k : Nat) :
    Answered num queryText haystackId k (ownFacts haystackId index)
      (EmbeddingIndex.search num queryText haystackId k index) := by
  have hscored : haystackId ≠ "" → EmbeddingIndex.search num queryText haystackId k index =
      EmbeddingIndex.scored num queryText k (ownFacts haystackId index) := fun hne =>
    EmbeddingIndex.search_of_stackable hne (EmbeddingIndex.stackable_of_length hlengths)
  constructor
  · intro hhaystack hquery
    have hids : ((scoresOf num queryText (ownFacts haystackId index)).map Prod.fst).Nodup := by
      rw [scoresOf, List.map_map]
      exact hdistinct.sublist (List.filter_sublist.map _)
    have hown : ∀ e ∈ ownFacts haystackId index,
        e.embedding.length = (num.encode queryText).length := by
      intro e he
      rw [hlengths e (List.mem_filter.mp he).1, hencode]
    obtain ⟨answer, hanswer, htop⟩ := exists_scored hsorts hquery hown k
    exact ⟨answer, (hscored hhaystack).trans hanswer, htop.nodup_map hids, htop⟩
  · intro hhaystack hnone
    rw [hscored hhaystack, hnone]
    rfl
  · intro hhaystack
    rw [EmbeddingIndex.search, if_pos hhaystack]
  · intro hhaystack hown hquery
    obtain ⟨first, rest, hcons⟩ := List.exists_cons_of_ne_nil hown
    rw [hscored hhaystack, hcons, EmbeddingIndex.scored, Numerics.encodeText, if_pos hquery]
    rfl

/-- **Brute force.** Whatever was called before, a search of vectors of one
length gives the best of the entries that its context holds. An addition marks
the cached matrix as dirty and the next search makes it anew, so no answer
depends on what was searched before. -/
theorem cached_search (hsorts : num.Sorts) (hencode : ∀ text, (num.encode text).length = d)
    (hnormalize : ∀ vector, (num.normalize vector).length = vector.length)
    (calls : List IndexCall) (hcalls : ∀ call ∈ calls, call.OfLength d)
    (queryText haystackId : String) (k : Nat) :
    Answered num queryText haystackId k (ownFacts haystackId (storedFacts num calls))
      ((calls.foldl (CachedIndex.call num) {}).search num queryText haystackId k).1 := by
  have hrun : (calls.foldl (CachedIndex.call num) {}).Represents (storedFacts num calls) :=
    CachedIndex.represents_new.run calls
  rw [(hrun.search queryText haystackId k).1]
  exact answered_search hsorts hencode (lengths_stored hencode hnormalize hcalls) hrun.distinct
    queryText haystackId k

end OneDimension

/-! ### Two directions -/

/-- Texts that begin with an a point one way, the others another. -/
def planeNumerics : Numerics where
  encode text := if text.toList.head? = some 'a' then [1, 0] else [0, 1]
  normalize vector := vector
  dot u v := (u.zipWith (· * ·) v).sum
  argsort scores :=
    (List.range scores.length).mergeSort fun i j => decide (scores.getD i 0 ≤ scores.getD j 0)
  float text := .error (.valueError ("could not convert string to float: '" ++ text ++ "'"))

/-- The sort of the example is a sort: a permutation, in order of the scores. -/
theorem planeNumerics_sorts : planeNumerics.Sorts where
  perm _ := List.mergeSort_perm _ _
  sorted scores := by
    have hsorted : (planeNumerics.argsort scores).Pairwise fun i j =>
        decide (scores.getD i 0 ≤ scores.getD j 0) = true := by
      apply List.pairwise_mergeSort
      · intro i j k hij hjk
        exact decide_eq_true ((of_decide_eq_true hij).trans (of_decide_eq_true hjk))
      · intro i j
        rw [Bool.or_eq_true, decide_eq_true_iff, decide_eq_true_iff]
        exact le_total _ _
    refine hsorted.imp fun {i j} hle a ha b hb => ?_
    rw [List.getD_eq_getElem?_getD, List.getD_eq_getElem?_getD, Option.mem_def.mp ha,
      Option.mem_def.mp hb] at hle
    exact of_decide_eq_true hle

/-- The first fact moves to another context, between two searches. -/
def planeCalls : List IndexCall :=
  [.addVector "boston" [1, 0] "chat", .addVector "paris" [0, 1] "chat", .search "art" "chat" 10,
    .addVector "boston" [0, 1] "diary", .add "rome" "arrived in Rome" "chat"]

/-- The first fact moves to another context between two searches. The second one
finds the best of what is left. -/
theorem cached_search_plane :
    ownFacts "chat" (storedFacts planeNumerics planeCalls) =
        [⟨"paris", "chat", [0, 1]⟩, ⟨"rome", "chat", [1, 0]⟩] ∧
      Answered planeNumerics "art" "chat" 1 (ownFacts "chat" (storedFacts planeNumerics planeCalls))
        ((planeCalls.foldl (CachedIndex.call planeNumerics) {}).search planeNumerics "art" "chat"
          (1 : Nat)).1 := by
  have hencode : ∀ text, (planeNumerics.encode text).length = 2 := by
    intro text
    simp only [planeNumerics]
    split <;> rfl
  have hcalls : ∀ call ∈ planeCalls, call.OfLength 2 := by
    intro call hcall
    simp only [planeCalls, List.mem_cons, List.not_mem_nil, or_false] at hcall
    rcases hcall with rfl | rfl | rfl | rfl | rfl <;> trivial
  refine ⟨by decide +kernel, ?_⟩
  exact cached_search planeNumerics_sorts hencode (fun _ => rfl) planeCalls hcalls "art" "chat" 1

end ContextMemory
