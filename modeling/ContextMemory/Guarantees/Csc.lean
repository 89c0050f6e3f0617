/-
Compressed adjacencies and their payloads (`hydradb/src/sparse_kernel/mod.rs`,
`hydradb/src/engine/index_store.rs`).

A compressed adjacency is a partition of its indices into one block for each vertex, in the order of
the vertices: the block of a vertex holds the places of its destinations, and the pointers are where
the blocks begin. The two loops that build it and the one that reads it back each keep that picture
while they go through the rows in their own order.
-/

import ContextMemory.Hydra.Csc
import ContextMemory.Lib.Fallible

namespace ContextMemory.Topology

open SortedMap (get insert Sorted)
open Words (leBytes ofLeBytes slice runningSums start)

/-! ### Blocks of a compressed adjacency -/

/-- The vertices of an adjacency, as the source of a row or as a destination. -/
def vertexSet (adjacency : Adjacency) : Finset Nat :=
  adjacency.foldl (fun vertices row => Insert.insert row.1 vertices ∪ row.2) ∅

def rowOf (adjacency : Adjacency) (source : Nat) : Finset Nat := (get source adjacency).getD ∅

/-- The places of the vertices of a row. -/
def places (vertices : List Nat) (row : Finset Nat) : List Nat :=
  (row.sort (· ≤ ·)).map vertices.idxOf

/-- The blocks of an adjacency, end to end in the order of these vertices. -/
def layOut (adjacency : Adjacency) (vertices : List Nat) : GraphBlasCsc where
  vertices := vertices
  pointers := 0 :: runningSums 0 (vertices.map fun v => (rowOf adjacency v).card)
  indices := vertices.flatMap fun v => places vertices (rowOf adjacency v)

@[simp] theorem layOut_vertices (adjacency : Adjacency) (vertices : List Nat) :
    (layOut adjacency vertices).vertices = vertices := rfl

/-- What an adjacency is compressed to. -/
def compressed (adjacency : Adjacency) : GraphBlasCsc :=
  layOut adjacency ((vertexSet adjacency).sort (· ≤ ·))

/-- The vertices are listed once each, and the rows are between them. -/
structure Lists (vertices : List Nat) (adjacency : Adjacency) : Prop where
  nodup : vertices.Nodup
  members : ∀ row ∈ adjacency, row.1 ∈ vertices ∧ ∀ dst ∈ row.2, dst ∈ vertices

variable {adjacency rows : Adjacency} {row : Nat × Finset Nat} {vertices : List Nat} {v : Nat}

theorem mem_vertexSet : v ∈ vertexSet adjacency ↔ ∃ row ∈ adjacency, v = row.1 ∨ v ∈ row.2 := by
  have hfold : ∀ (rows : Adjacency) (known : Finset Nat),
      v ∈ rows.foldl (fun vertices row => Insert.insert row.1 vertices ∪ row.2) known ↔
        v ∈ known ∨ ∃ row ∈ rows, v = row.1 ∨ v ∈ row.2 := by
    intro rows
    induction rows with
    | nil => simp
    | cons row rows ih =>
        intro known
        rw [List.foldl_cons, ih, Finset.mem_union, Finset.mem_insert, List.exists_mem_cons_iff]
        grind
  rw [vertexSet, hfold]
  simp

theorem rowOf_cons : rowOf (row :: rows) v = if row.1 = v then row.2 else rowOf rows v := by
  by_cases h : row.1 = v
  · simp [rowOf, SortedMap.get, h]
  · simp [rowOf, SortedMap.get, h]

theorem get_cons : get v (row :: rows) = if row.1 = v then some row.2 else get v rows := by
  by_cases h : row.1 = v
  · simp [SortedMap.get, h]
  · simp [SortedMap.get, h]

/-- The source of the first row has no other row. -/
theorem get_head (hsorted : Sorted (row :: rows)) : get row.1 rows = none :=
  SortedMap.get_eq_none_iff.mpr fun other hother =>
    ((List.pairwise_cons.mp hsorted).1 other hother).ne'

theorem length_places (row : Finset Nat) : (places vertices row).length = row.card := by
  rw [places, List.length_map, Finset.length_sort]

theorem cscVertexOrdinal_of_mem (hv : v ∈ vertices) (role : String) :
    cscVertexOrdinal vertices v role = .ok (vertices.idxOf v) := by
  have hplace : vertices.idxOf? v = some (vertices.idxOf v) := by
    induction vertices with
    | nil => cases hv
    | cons w vertices ih =>
        by_cases hw : w = v
        · simp [List.idxOf?_cons, hw]
        · have hrest := (List.mem_cons.mp hv).resolve_left (Ne.symm hw)
          simp [List.idxOf?_cons, hw, List.idxOf_cons_ne, ih hrest]
  rw [cscVertexOrdinal, hplace]

/-! ### The loops that compress -/

theorem countRows_eq (hvertices : vertices.Nodup) (hsorted : Sorted rows)
    (hsources : ∀ row ∈ rows, row.1 ∈ vertices) (count : Nat → Nat) :
    countRows vertices rows (0 :: vertices.map count) =
      .ok (0 :: vertices.map fun v => count v + (rowOf rows v).card) := by
  induction rows generalizing count with
  | nil => rfl
  | cons row rows ih =>
      have hsource := hsources row List.mem_cons_self
      have hrest := ih (List.pairwise_cons.mp hsorted).2
        (fun other hother => hsources other (List.mem_cons_of_mem _ hother))
        (Function.update count row.1 (count row.1 + row.2.card))
      rw [countRows, cscVertexOrdinal_of_mem hsource, Fallible.ok_bind, List.modify_succ_cons,
        Words.modify_map hvertices hsource, hrest]
      congr 3
      funext v
      rw [rowOf_cons]
      by_cases hv : row.1 = v
      · rw [if_pos hv, ← hv, Function.update_self, rowOf, get_head hsorted]
        rfl
      · rw [if_neg hv, Function.update_of_ne (Ne.symm hv)]

/-- A row is written in the place of as many indices. -/
theorem fillRow_eq (dsts : List Nat) (hdsts : ∀ dst ∈ dsts, dst ∈ vertices) (pre before post : List Nat)
    (hlength : before.length = dsts.length) :
    fillRow vertices dsts pre.length (pre ++ (before ++ post)) =
      .ok (pre ++ (dsts.map vertices.idxOf ++ post), pre.length + dsts.length) := by
  induction dsts generalizing pre before with
  | nil =>
      rw [List.eq_nil_of_length_eq_zero hlength]
      rfl
  | cons dst dsts ih =>
      obtain ⟨old, before, rfl⟩ := List.exists_cons_of_length_eq_add_one hlength
      have hrest := ih (fun d hd => hdsts d (List.mem_cons_of_mem _ hd))
        (pre ++ [vertices.idxOf dst]) before (Nat.succ.inj hlength)
      rw [fillRow, cscVertexOrdinal_of_mem (hdsts dst List.mem_cons_self), Fallible.ok_bind]
      simpa [List.set_append_right, Nat.add_assoc, Nat.add_comm 1] using hrest

/-- The rows are written in their blocks, which the other vertices keep as they
were. -/
theorem fillRows_eq (hvertices : vertices.Nodup) (hsorted : Sorted rows)
    (hmembers : ∀ row ∈ rows, row.1 ∈ vertices ∧ ∀ dst ∈ row.2, dst ∈ vertices)
    {size : Nat → Nat} (hsize : ∀ row ∈ rows, size row.1 = row.2.card)
    {content : Nat → List Nat} (hcontent : ∀ v, (content v).length = size v)
    {offset : Nat → Nat} (hoffset : ∀ row ∈ rows, offset row.1 = start size vertices row.1) :
    fillRows vertices rows (vertices.map offset) (vertices.flatMap content) =
      .ok (vertices.flatMap fun v => ((get v rows).map (places vertices)).getD (content v)) := by
  induction rows generalizing content offset with
  | nil => rfl
  | cons row rows ih =>
      obtain ⟨hsource, hdsts⟩ := hmembers row List.mem_cons_self
      have hown := hsize row List.mem_cons_self
      have hlater : ∀ other ∈ rows, other.1 ≠ row.1 := fun other hother =>
        ((List.pairwise_cons.mp hsorted).1 other hother).ne'
      obtain ⟨pre, post, hsplit⟩ := List.append_of_mem hsource
      have hnodup := hvertices
      rw [hsplit, List.nodup_append, List.nodup_cons] at hnodup
      obtain ⟨-, ⟨hpost, -⟩, hdisjoint⟩ := hnodup
      have hpre : row.1 ∉ pre := fun h => hdisjoint _ h _ List.mem_cons_self rfl
      have hwhere : offset row.1 = (pre.flatMap content).length := by
        rw [hoffset row List.mem_cons_self, hsplit, Words.start_append hpre,
          Words.length_flatMap hcontent]
      have hfill : fillRow vertices (row.2.sort (· ≤ ·)) (offset row.1) (vertices.flatMap content) =
          .ok (vertices.flatMap (Function.update content row.1 (places vertices row.2)),
            offset row.1 + row.2.card) := by
        have hlength : (content row.1).length = (row.2.sort (· ≤ ·)).length := by
          rw [hcontent, hown, Finset.length_sort]
        have hwrite := fillRow_eq _ (fun dst hdst => hdsts dst ((Finset.mem_sort _).mp hdst))
          (pre.flatMap content) (content row.1) (post.flatMap content) hlength
        rw [← Words.flatMap_append_cons, ← hsplit] at hwrite
        rw [hwhere, hwrite, Finset.length_sort, hsplit, Words.flatMap_update _ _ hpre hpost]
        rfl
      have hcontent' : ∀ v,
          (Function.update content row.1 (places vertices row.2) v).length = size v := by
        intro v
        by_cases hv : v = row.1
        · rw [hv, Function.update_self, length_places, hown]
        · rw [Function.update_of_ne hv, hcontent]
      have hoffset' : ∀ other ∈ rows,
          Function.update offset row.1 (offset row.1 + row.2.card) other.1 =
            start size vertices other.1 := by
        intro other hother
        rw [Function.update_of_ne (hlater other hother),
          hoffset other (List.mem_cons_of_mem _ hother)]
      have hrest := ih (List.pairwise_cons.mp hsorted).2
        (fun other hother => hmembers other (List.mem_cons_of_mem _ hother))
        (fun other hother => hsize other (List.mem_cons_of_mem _ hother)) hcontent' hoffset'
      rw [fillRows, cscVertexOrdinal_of_mem hsource, Fallible.ok_bind, SortedMap.ascending_eq_sort,
        Words.getD_map hsource, hfill, Fallible.ok_bind, Words.set_map hvertices hsource, hrest]
      congr 2
      funext v
      rw [get_cons]
      by_cases hv : row.1 = v
      · rw [if_pos hv, ← hv, get_head hsorted, Option.map_none, Option.getD_none,
          Function.update_self]
        rfl
      · rw [if_neg hv, Function.update_of_ne (Ne.symm hv)]

/-- The loops leave every block in its place. -/
theorem fill_eq (h : Lists vertices adjacency) (hsorted : Sorted adjacency) :
    (do
      let counts ← countRows vertices adjacency (List.replicate (vertices.length + 1) 0)
      let pointers := runningSums 0 counts
      let indices ← fillRows vertices adjacency (pointers.take vertices.length)
        (List.replicate (pointers.getLast?.getD 0) 0)
      return (⟨vertices, pointers, indices⟩ : GraphBlasCsc)) =
      Except.ok (ε := GraphError) (layOut adjacency vertices) := by
  have hzeros : List.replicate (vertices.length + 1) 0 = 0 :: vertices.map fun _ => 0 := by
    rw [List.replicate_succ, List.map_const']
  have hcounts := countRows_eq h.nodup hsorted (fun row hrow => (h.members row hrow).1) fun _ => 0
  simp only [Nat.zero_add] at hcounts
  have hspace : List.replicate ((0 :: runningSums 0
      (vertices.map fun v => (rowOf adjacency v).card)).getLast?.getD 0) 0 =
        vertices.flatMap fun v => List.replicate (rowOf adjacency v).card 0 := by
    rw [Words.getLast?_runningSums, Words.flatMap_replicate, Option.getD_some, Nat.zero_add]
  have hstarts : vertices.map (start (fun v => (rowOf adjacency v).card) vertices) =
      (0 :: runningSums 0 (vertices.map fun v => (rowOf adjacency v).card)).take vertices.length := by
    simpa only [Nat.zero_add] using Words.map_start h.nodup 0
  have hrows : ∀ row ∈ adjacency, (rowOf adjacency row.1).card = row.2.card := by
    intro row hrow
    rw [rowOf, hsorted.get_of_mem hrow, Option.getD_some]
  have hlengths : ∀ v, ((fun v => List.replicate (rowOf adjacency v).card 0) v).length =
      (rowOf adjacency v).card := fun v => List.length_replicate
  have hoffsets : ∀ row ∈ adjacency, start (fun v => (rowOf adjacency v).card) vertices row.1 =
      start (fun v => (rowOf adjacency v).card) vertices row.1 := fun _ _ => rfl
  have hfill := fillRows_eq h.nodup hsorted h.members hrows hlengths hoffsets
  have hblocks : (vertices.flatMap fun v => ((get v adjacency).map (places vertices)).getD
      (List.replicate (rowOf adjacency v).card 0)) =
        vertices.flatMap fun v => places vertices (rowOf adjacency v) := by
    refine List.flatMap_congr fun v _ => ?_
    cases hrow : get v adjacency with
    | none => simp [rowOf, hrow, places]
    | some row => simp [rowOf, hrow]
  rw [hzeros, hcounts, Fallible.ok_bind, runningSums, Nat.zero_add]
  dsimp only
  rw [hspace, ← hstarts, hfill, Fallible.ok_bind, hblocks]
  rfl

/-- The vertices of an adjacency list it. -/
theorem lists_vertexSet (adjacency : Adjacency) :
    Lists ((vertexSet adjacency).sort (· ≤ ·)) adjacency where
  nodup := Finset.sort_nodup _ _
  members row hrow :=
    ⟨(Finset.mem_sort _).mpr (mem_vertexSet.mpr ⟨row, hrow, .inl rfl⟩), fun _ hdst =>
      (Finset.mem_sort _).mpr (mem_vertexSet.mpr ⟨row, hrow, .inr hdst⟩)⟩

/-- An adjacency is compressed to its blocks. -/
theorem graphblasCscFromAdjacency_eq (hsorted : Sorted adjacency)
    (hbound : (vertexSet adjacency).card ≤ graphblasIndexMax) :
    graphblasCscFromAdjacency adjacency = .ok (compressed adjacency) := by
  have hvertices : graphblasVertices adjacency = .ok ((vertexSet adjacency).sort (· ≤ ·)) :=
    (if_neg (Nat.not_lt.mpr hbound)).trans (congrArg Except.ok (SortedMap.ascending_eq_sort _))
  rw [graphblasCscFromAdjacency, hvertices, Fallible.ok_bind]
  exact fill_eq (lists_vertexSet adjacency) hsorted

theorem compressed_of_ok (hsorted : Sorted adjacency) {csc : GraphBlasCsc}
    (hok : graphblasCscFromAdjacency adjacency = .ok csc) : csc = compressed adjacency := by
  obtain ⟨vertices, hvertices, -⟩ := Fallible.bind_eq_ok hok
  have hbound : (vertexSet adjacency).card ≤ graphblasIndexMax := by
    by_contra hmore
    rw [show graphblasVertices adjacency = _ from if_pos (not_le.mp hmore)] at hvertices
    cases hvertices
  rw [graphblasCscFromAdjacency_eq hsorted hbound] at hok
  exact (Except.ok.inj hok).symm

/-! ### The loop that reads a compressed adjacency back -/

theorem rowNeighbors_eq (dsts : List Nat) (hdsts : ∀ dst ∈ dsts, dst ∈ vertices)
    (neighbors : Finset Nat) :
    rowNeighbors vertices (dsts.map vertices.idxOf) neighbors = .ok (neighbors ∪ dsts.toFinset) := by
  induction dsts generalizing neighbors with
  | nil => rw [List.toFinset_nil, Finset.union_empty, List.map_nil, rowNeighbors]
  | cons dst dsts ih =>
      rw [List.map_cons, rowNeighbors, List.getElem?_idxOf (hdsts dst List.mem_cons_self)]
      dsimp only
      rw [ih fun d hd => hdsts d (List.mem_cons_of_mem _ hd), List.toFinset_cons,
        Finset.insert_union, Finset.union_insert]

theorem rowNeighbors_places {row : Finset Nat} (hrow : ∀ dst ∈ row, dst ∈ vertices) :
    rowNeighbors vertices (places vertices row) ∅ = .ok row := by
  rw [places, rowNeighbors_eq _ fun dst hdst => hrow dst ((Finset.mem_sort _).mp hdst),
    Finset.sort_toFinset, Finset.empty_union]

/-- The row of a vertex is the block between its pointers. -/
theorem slice_layOut (adjacency : Adjacency) {pre post : List Nat} {source : Nat}
    (hsplit : vertices = pre ++ source :: post) :
    slice (layOut adjacency vertices).indices ((layOut adjacency vertices).pointers.getD pre.length 0)
      ((layOut adjacency vertices).pointers.getD (pre.length + 1) 0) =
        some (places vertices (rowOf adjacency source)) := by
  obtain ⟨size, hsize⟩ : ∃ size : Nat → Nat, ∀ v, size v = (rowOf adjacency v).card := ⟨_, fun _ => rfl⟩
  have hpointers : (layOut adjacency vertices).pointers = 0 :: runningSums 0 (vertices.map size) := by
    rw [layOut, List.map_congr_left fun v _ => (hsize v).symm]
  have hlength : ∀ v, (places vertices (rowOf adjacency v)).length = size v := fun v => by
    rw [length_places, hsize]
  have hbegin := Words.getElem?_runningSums 0 (pre.map size) ((source :: post).map size)
  have hend := Words.getElem?_runningSums 0 ((pre ++ [source]).map size) (post.map size)
  have hall : (pre ++ [source]).map size ++ post.map size = vertices.map size := by
    rw [hsplit, ← List.map_append, List.append_assoc]
    rfl
  have hsum : ((pre ++ [source]).map size).sum =
      (pre.map size).sum + (places vertices (rowOf adjacency source)).length := by
    rw [List.map_append, List.sum_append, hlength]
    rfl
  rw [← List.map_append, ← hsplit, List.length_map, Nat.zero_add] at hbegin
  rw [hall, List.length_map, List.length_append, hsum, Nat.zero_add] at hend
  have hindices : (layOut adjacency vertices).indices =
      (pre.flatMap fun v => places vertices (rowOf adjacency v)) ++
        places vertices (rowOf adjacency source) ++
          post.flatMap fun v => places vertices (rowOf adjacency v) := by
    rw [List.append_assoc, ← Words.flatMap_append_cons, ← hsplit]
    rfl
  rw [hpointers, List.getD_eq_getElem?_getD, List.getD_eq_getElem?_getD, hbegin]
  rw [show pre.length + 1 = pre.length + [source].length from rfl, hend, hindices,
    Option.getD_some, Option.getD_some, ← Words.length_flatMap hlength]
  exact Words.slice_append ..

theorem Lists.rowOf_subset (h : Lists vertices adjacency) (source : Nat) :
    ∀ dst ∈ rowOf adjacency source, dst ∈ vertices := by
  intro dst hdst
  cases hget : get source adjacency with
  | none =>
      rw [rowOf, hget] at hdst
      exact absurd hdst (Finset.notMem_empty _)
  | some row =>
      rw [rowOf, hget] at hdst
      exact (h.members _ (SortedMap.mem_of_get hget)).2 dst hdst

/-- The rows from a place on are put over the ones before. -/
theorem adjacencyRows_eq (h : Lists vertices adjacency)
    {pre sources : List Nat} (hsplit : vertices = pre ++ sources) {known : Adjacency}
    (hknown : Sorted known) :
    ∃ result, adjacencyRows (layOut adjacency vertices) pre.length sources known = .ok result ∧
      Sorted result ∧ ∀ v, get v result =
        if v ∈ sources ∧ rowOf adjacency v ≠ ∅ then some (rowOf adjacency v) else get v known := by
  induction sources generalizing pre known with
  | nil => exact ⟨known, rfl, hknown, fun v => (if_neg fun hv => List.not_mem_nil hv.1).symm⟩
  | cons source sources ih =>
      have hslice := slice_layOut adjacency hsplit
      have hnext : vertices = (pre ++ [source]) ++ sources := by
        rw [hsplit, List.append_cons]
      have hplace : (pre ++ [source]).length = pre.length + 1 := List.length_append
      by_cases hempty : rowOf adjacency source = ∅
      · obtain ⟨result, hresult, hsorted', hget⟩ := ih hnext hknown
        refine ⟨result, ?_, hsorted', fun v => ?_⟩
        · rw [adjacencyRows, hslice, hempty, ← hplace, places, Finset.sort_empty]
          exact hresult
        · rw [hget]
          by_cases hv : v = source
          · rw [hv, if_neg (fun hmem => hmem.2 hempty), if_neg (fun hmem => hmem.2 hempty)]
          · simp only [List.mem_cons, hv, false_or]
      · obtain ⟨result, hresult, hsorted', hget⟩ := ih hnext
          (hknown.insert (k := source) (v := rowOf adjacency source))
        refine ⟨result, ?_, hsorted', fun v => ?_⟩
        · have hsome : ¬(places vertices (rowOf adjacency source)).isEmpty = true := by
            rw [List.isEmpty_iff, ← List.length_eq_zero_iff, length_places, Finset.card_eq_zero]
            exact hempty
          rw [adjacencyRows, hslice]
          dsimp only
          rw [if_neg hsome, layOut_vertices, rowNeighbors_places (h.rowOf_subset source), Fallible.ok_bind, ← hplace]
          exact hresult
        · rw [hget, hknown.get_insert]
          by_cases hv : v = source
          · simp [hv, hempty]
          · simp only [List.mem_cons, hv, false_or, if_false]

/-- The vertices that have a row are the ones whose row has a destination, or is
empty. -/
theorem get_filter (h : Lists vertices adjacency) (hsorted : Sorted adjacency) :
    get v (adjacency.filter fun row => row.2.Nonempty) =
      if v ∈ vertices ∧ rowOf adjacency v ≠ ∅ then some (rowOf adjacency v) else none := by
  have hfilter : Sorted (adjacency.filter fun row => row.2.Nonempty) :=
    hsorted.sublist List.filter_sublist
  ext row
  rw [hfilter.get_eq_some_iff, List.mem_filter, decide_eq_true_eq, ← hsorted.get_eq_some_iff]
  cases hget : get v adjacency with
  | none => simp [rowOf, hget]
  | some own =>
      have hmem := (h.members _ (SortedMap.mem_of_get hget)).1
      simp only [rowOf, hget, Option.getD_some, Option.some.injEq, Option.ite_none_right_eq_some,
        Finset.nonempty_iff_ne_empty]
      constructor
      · rintro ⟨rfl, hne⟩
        exact ⟨⟨hmem, hne⟩, rfl⟩
      · rintro ⟨⟨-, hne⟩, rfl⟩
        exact ⟨rfl, hne⟩

theorem toAdjacency_layOut (h : Lists vertices adjacency) (hsorted : Sorted adjacency) :
    (layOut adjacency vertices).toAdjacency =
      .ok (adjacency.filter fun row => row.2.Nonempty) := by
  have hpointers : (layOut adjacency vertices).pointers.length =
      (layOut adjacency vertices).vertices.length + 1 := by
    rw [layOut, List.length_cons, Words.length_runningSums, List.length_map]
  obtain ⟨result, hresult, hsorted', hget⟩ :=
    adjacencyRows_eq h (List.nil_append vertices).symm (List.Pairwise.nil : Sorted ([] : Adjacency))
  have hrows : result = adjacency.filter fun row => row.2.Nonempty := by
    have hfilter : Sorted (adjacency.filter fun row => row.2.Nonempty) :=
      hsorted.sublist List.filter_sublist
    refine hsorted'.ext hfilter fun v => ?_
    rw [hget, get_filter h hsorted]
    rfl
  rw [GraphBlasCsc.toAdjacency, if_neg (not_not.mpr hpointers), ← hrows]
  exact hresult

/-! ### Validation -/

theorem require_eq_ok {key reason : String} {holds : Bool} :
    require key holds reason = .ok () ↔ holds = true := by
  cases holds with
  | false => exact ⟨(nomatch ·), (nomatch ·)⟩
  | true => exact ⟨fun _ => rfl, fun _ => rfl⟩

theorem neighborsAll_iff {related : Nat → Nat → Bool} {l : List Nat} :
    neighborsAll related l = true ↔ l.IsChain fun a b => related a b = true := by
  induction l with
  | nil => exact ⟨fun _ => .nil, fun _ => rfl⟩
  | cons a l ih =>
      cases l with
      | nil => exact ⟨fun _ => .singleton a, fun _ => rfl⟩
      | cons b l =>
          rw [List.isChain_cons_cons, ← ih, neighborsAll, List.tail_cons, List.zip_cons_cons,
            List.all_cons, Bool.and_eq_true]
          rfl

/-- What the checks ask of a compressed adjacency. -/
structure WellFormed (csc : GraphBlasCsc) : Prop where
  count : csc.pointers.length = csc.vertices.length + 1
  first : csc.pointers.head? = some 0
  ascending : csc.pointers.IsChain (· ≤ ·)
  total : csc.pointers.getLast?.getD 0 = csc.indices.length
  bounded : ∀ index ∈ csc.indices, index < csc.vertices.length
  sorted : csc.vertices.IsChain (· < ·)

theorem validateGraphblasCsc_eq_ok {key : String} {csc : GraphBlasCsc} :
    validateGraphblasCsc key csc = .ok () ↔ WellFormed csc := by
  constructor
  · intro h
    obtain ⟨_, hcount, h⟩ := Fallible.bind_eq_ok h
    obtain ⟨_, hfirst, h⟩ := Fallible.bind_eq_ok h
    obtain ⟨_, hascending, h⟩ := Fallible.bind_eq_ok h
    obtain ⟨_, htotal, h⟩ := Fallible.bind_eq_ok h
    split at h
    · cases h
    · rename_i hbounded
      exact {
        count := of_decide_eq_true (require_eq_ok.mp hcount)
        first := of_decide_eq_true (require_eq_ok.mp hfirst)
        ascending := by simpa using neighborsAll_iff.mp (require_eq_ok.mp hascending)
        total := of_decide_eq_true (require_eq_ok.mp htotal)
        bounded := by simpa using hbounded
        sorted := by simpa using neighborsAll_iff.mp (require_eq_ok.mp h) }
  · intro h
    have hascending : neighborsAll (fun a b => a ≤ b) csc.pointers = true :=
      neighborsAll_iff.mpr (by simpa using h.ascending)
    have hbounded : (csc.indices.find? fun index => csc.vertices.length ≤ index) = none := by
      simpa using h.bounded
    have hsorted : neighborsAll (fun a b => a < b) csc.vertices = true :=
      neighborsAll_iff.mpr (by simpa using h.sorted)
    rw [validateGraphblasCsc, require_eq_ok.mpr (decide_eq_true h.count),
      Fallible.ok_bind, require_eq_ok.mpr (decide_eq_true h.first), Fallible.ok_bind,
      require_eq_ok.mpr hascending, Fallible.ok_bind, require_eq_ok.mpr (decide_eq_true h.total),
      Fallible.ok_bind, hbounded]
    exact require_eq_ok.mpr hsorted

theorem mem_places {row : Finset Nat} (hrow : ∀ dst ∈ row, dst ∈ vertices) {index : Nat}
    (h : index ∈ places vertices row) : index < vertices.length := by
  obtain ⟨dst, hdst, rfl⟩ := List.mem_map.mp h
  exact List.idxOf_lt_length_of_mem (hrow dst ((Finset.mem_sort _).mp hdst))

theorem index_layOut (h : Lists vertices adjacency) {index : Nat}
    (hindex : index ∈ (layOut adjacency vertices).indices) : index < vertices.length := by
  obtain ⟨source, -, hplace⟩ := List.mem_flatMap.mp hindex
  exact mem_places (h.rowOf_subset source) hplace

/-- The pointers end at the number of indices. -/
theorem getLast?_layOut (adjacency : Adjacency) (vertices : List Nat) :
    (layOut adjacency vertices).pointers.getLast? =
      some (layOut adjacency vertices).indices.length := by
  have hlength : (vertices.flatMap fun v => places vertices (rowOf adjacency v)).length =
      (vertices.map fun v => (rowOf adjacency v).card).sum :=
    Words.length_flatMap fun v => length_places (rowOf adjacency v)
  rw [layOut, Words.getLast?_runningSums, Nat.zero_add, ← hlength]

theorem wellFormed_layOut (h : Lists vertices adjacency) (hvertices : vertices.Pairwise (· < ·)) :
    WellFormed (layOut adjacency vertices) where
  count := by rw [layOut, List.length_cons, Words.length_runningSums, List.length_map]
  first := rfl
  ascending := Words.isChain_runningSums 0 _
  total := by rw [getLast?_layOut, Option.getD_some]
  bounded _ hindex := index_layOut h hindex
  sorted := hvertices.isChain

/-! ### Words of a payload -/

theorem length_flatMap_leBytes (values : List Nat) :
    (values.flatMap (leBytes 8)).length = values.length * 8 := by
  rw [List.length_flatMap, List.map_congr_left fun v _ => Words.length_leBytes 8 v, List.map_const',
    List.sum_replicate_nat]

theorem length_encodeIndexU64s (values : List Nat) :
    (encodeIndexU64s values).length = 8 + values.length * 8 := by
  rw [encodeIndexU64s, List.length_append, Words.length_leBytes, length_flatMap_leBytes]

theorem wordsOf_flatMap {values : List Nat} (hvalues : ∀ n ∈ values, n < 2 ^ 64) :
    wordsOf values.length (values.flatMap (leBytes 8)) = values := by
  induction values with
  | nil => rfl
  | cons n values ih =>
      have hbytes : (leBytes 8 n).length = 8 := Words.length_leBytes 8 n
      rw [List.length_cons, wordsOf, List.flatMap_cons, List.take_left' hbytes,
        List.drop_left' hbytes, ih fun m hm => hvalues m (List.mem_cons_of_mem _ hm),
        Words.ofLeBytes_leBytes (hvalues n List.mem_cons_self)]

/-- Bytes are those of the words that are read from them. -/
theorem flatMap_wordsOf {count : Nat} {bytes : List UInt8} (hlength : bytes.length = count * 8) :
    (wordsOf count bytes).flatMap (leBytes 8) = bytes ∧ (wordsOf count bytes).length = count ∧
      ∀ n ∈ wordsOf count bytes, n < 2 ^ 64 := by
  induction count generalizing bytes with
  | zero =>
      rw [Nat.zero_mul, List.length_eq_zero_iff] at hlength
      exact ⟨hlength.symm, rfl, fun n hn => by cases hn⟩
  | succ count ih =>
      have hfirst : (bytes.take 8).length = 8 := by
        rw [List.length_take]
        omega
      have hrest : (bytes.drop 8).length = count * 8 := by
        rw [List.length_drop]
        omega
      obtain ⟨hbytes, hcount, hbound⟩ := ih hrest
      have hword := Words.leBytes_ofLeBytes (bytes.take 8)
      have hlt := Words.ofLeBytes_lt (bytes.take 8)
      rw [hfirst] at hword hlt
      refine ⟨?_, congrArg Nat.succ hcount, fun n hn => ?_⟩
      · rw [wordsOf, List.flatMap_cons, hword, hbytes, List.take_append_drop]
      · rcases List.mem_cons.mp hn with rfl | hn
        · exact hlt
        · exact hbound n hn

variable {key field : String} {pre post : List UInt8}

/-- A word is read from its bytes, and from no others. -/
theorem decodeIndexU64_eq_ok {n next : Nat} :
    decodeIndexU64 key (pre ++ post) field pre.length = .ok (n, next) ↔
      ∃ rest, post = leBytes 8 n ++ rest ∧ n < 2 ^ 64 ∧ next = (pre ++ leBytes 8 n).length := by
  unfold decodeIndexU64
  constructor
  · intro h
    split at h
    · rename_i bytes hslice
      obtain ⟨hlength, rest, hpost⟩ := Words.slice_append_eq_some.mp hslice
      cases h
      have hword := Words.leBytes_ofLeBytes bytes
      have hlt := Words.ofLeBytes_lt bytes
      rw [hlength] at hword hlt
      refine ⟨rest, ?_, hlt, ?_⟩
      · rw [hword, hpost]
      · rw [List.length_append, Words.length_leBytes]
    · cases h
  · rintro ⟨rest, rfl, hlt, rfl⟩
    have hslice : slice (pre ++ (leBytes 8 n ++ rest)) pre.length (pre.length + 8) =
        some (leBytes 8 n) :=
      Words.slice_append_eq_some.mpr ⟨Words.length_leBytes 8 n, rest, rfl⟩
    rw [hslice]
    dsimp only
    rw [Words.ofLeBytes_leBytes hlt, List.length_append, Words.length_leBytes]

/-- A list of words, where lengths are sizes in memory. -/
theorem decodeIndexU64s_eq_ok {values : List Nat} {next : Nat} (hsize : (pre ++ post).length ≤ u64Max) :
    decodeIndexU64s key (pre ++ post) field pre.length = .ok (values, next) ↔
      ∃ rest, post = encodeIndexU64s values ++ rest ∧ (∀ n ∈ values, n < 2 ^ 64) ∧
        next = (pre ++ encodeIndexU64s values).length := by
  constructor
  · intro h
    obtain ⟨⟨len, next⟩, hlen, h⟩ := Fallible.bind_eq_ok h
    obtain ⟨rest, rfl, -, rfl⟩ := decodeIndexU64_eq_ok.mp hlen
    dsimp only at h
    split at h
    · cases h
    split at h
    · cases h
    rw [← List.append_assoc] at h
    split at h
    · rename_i bytes hslice
      obtain ⟨hlength, rest', hrest⟩ := Words.slice_append_eq_some.mp hslice
      cases h
      obtain ⟨hbytes, hcount, hbound⟩ := flatMap_wordsOf hlength
      have hencoded : encodeIndexU64s (wordsOf len bytes) = leBytes 8 len ++ bytes := by
        rw [encodeIndexU64s, hbytes, hcount]
      refine ⟨rest', ?_, hbound, ?_⟩
      · rw [hencoded, hrest, List.append_assoc]
      · have htotal : (pre ++ leBytes 8 len ++ bytes).length =
            (pre ++ leBytes 8 len).length + bytes.length := List.length_append
        rw [hencoded, ← List.append_assoc, htotal, hlength]
    · cases h
  · rintro ⟨rest, rfl, hbound, rfl⟩
    have hlengths : pre.length + (8 + values.length * 8) + rest.length ≤ u64Max := by
      rwa [List.length_append, List.length_append, length_encodeIndexU64s, ← Nat.add_assoc] at hsize
    have hlen : decodeIndexU64 key (pre ++ (encodeIndexU64s values ++ rest)) field pre.length =
        .ok (values.length, (pre ++ leBytes 8 values.length).length) :=
      decodeIndexU64_eq_ok.mpr ⟨values.flatMap (leBytes 8) ++ rest, by
        rw [encodeIndexU64s, List.append_assoc], by
        rw [u64Max] at hlengths
        omega, rfl⟩
    have hslice : slice (pre ++ (encodeIndexU64s values ++ rest))
        (pre ++ leBytes 8 values.length).length
        ((pre ++ leBytes 8 values.length).length + values.length * 8) =
          some (values.flatMap (leBytes 8)) := by
      rw [encodeIndexU64s, List.append_assoc, ← List.append_assoc pre]
      exact Words.slice_append_eq_some.mpr ⟨length_flatMap_leBytes values, rest, rfl⟩
    have hcursor : (pre ++ leBytes 8 values.length).length = pre.length + 8 := by
      rw [List.length_append, Words.length_leBytes]
    have hend : (pre ++ encodeIndexU64s values).length = pre.length + 8 + values.length * 8 := by
      rw [List.length_append, length_encodeIndexU64s, Nat.add_assoc]
    rw [decodeIndexU64s, hlen, Fallible.ok_bind, if_neg (by omega), if_neg (by omega), hslice]
    dsimp only
    rw [wordsOf_flatMap hbound, hcursor, hend]

theorem decodeIndexU64_at {value : List UInt8} {n : Nat} (hvalue : value = pre ++ (leBytes 8 n ++ post))
    (hn : n < 2 ^ 64) :
    decodeIndexU64 key value field pre.length = .ok (n, (pre ++ leBytes 8 n).length) := by
  rw [hvalue]
  exact decodeIndexU64_eq_ok.mpr ⟨post, rfl, hn, rfl⟩

theorem decodeIndexU64s_at {value : List UInt8} {values : List Nat} (hsize : value.length ≤ u64Max)
    (hvalue : value = pre ++ (encodeIndexU64s values ++ post)) (hvalues : ∀ n ∈ values, n < 2 ^ 64) :
    decodeIndexU64s key value field pre.length =
      .ok (values, (pre ++ encodeIndexU64s values).length) := by
  rw [hvalue] at hsize ⊢
  exact (decodeIndexU64s_eq_ok hsize).mpr ⟨post, rfl, hvalues, rfl⟩

/-! ### Payloads -/

/-- A value holds a compressed adjacency under an identity: it is what is written for it, its words
fit, and it passes the checks. -/
structure Holds (value : List UInt8) (baseSequence lastWalId checksum : Nat) (csc : GraphBlasCsc) :
    Prop where
  written : value = encodeGraphIndexCsc baseSequence lastWalId checksum csc
  identity : ∀ n ∈ [baseSequence, lastWalId, checksum], n < 2 ^ 64
  words : ∀ n ∈ csc.vertices ++ csc.pointers ++ csc.indices, n < 2 ^ 64
  wellFormed : WellFormed csc
  checksum_eq : graphblasCscChecksum csc = checksum

variable {value : List UInt8} {baseSequence lastWalId checksum : Nat} {csc : GraphBlasCsc}

theorem Holds.fits (h : Holds value baseSequence lastWalId checksum csc) :
    (∀ n ∈ csc.vertices, n < 2 ^ 64) ∧ (∀ n ∈ csc.pointers, n < 2 ^ 64) ∧
      ∀ n ∈ csc.indices, n < 2 ^ 64 := by
  refine ⟨fun n hn => h.words n ?_, fun n hn => h.words n ?_, fun n hn => h.words n ?_⟩
  · exact List.mem_append_left _ (List.mem_append_left _ hn)
  · exact List.mem_append_left _ (List.mem_append_right _ hn)
  · exact List.mem_append_right _ hn

theorem holds_of_decode (hsize : value.length ≤ u64Max)
    (h : decodeGraphIndexCsc key value baseSequence lastWalId checksum = .ok csc) :
    Holds value baseSequence lastWalId checksum csc := by
  obtain ⟨_, hmagic, h⟩ := Fallible.bind_eq_ok h
  obtain ⟨rest, rfl⟩ := List.isPrefixOf_iff_prefix.mp (require_eq_ok.mp hmagic)
  obtain ⟨⟨base, next⟩, hbase, h⟩ := Fallible.bind_eq_ok h
  obtain ⟨rest, rfl, hbase, rfl⟩ := decodeIndexU64_eq_ok.mp hbase
  obtain ⟨⟨wal, next⟩, hwal, h⟩ := Fallible.bind_eq_ok h
  rw [← List.append_assoc] at hwal h hsize
  obtain ⟨rest, rfl, hwal, rfl⟩ := decodeIndexU64_eq_ok.mp hwal
  obtain ⟨⟨sum, next⟩, hsum, h⟩ := Fallible.bind_eq_ok h
  rw [← List.append_assoc] at hsum h hsize
  obtain ⟨rest, rfl, hsum, rfl⟩ := decodeIndexU64_eq_ok.mp hsum
  obtain ⟨_, hidentity, hlists⟩ := Fallible.bind_eq_ok h
  clear h
  obtain ⟨rfl, rfl, rfl⟩ : base = baseSequence ∧ wal = lastWalId ∧ sum = checksum := by
    simpa using of_decide_eq_true (require_eq_ok.mp hidentity)
  rw [← List.append_assoc] at hlists hsize
  obtain ⟨⟨vertices, next⟩, hvertices, hlists⟩ := Fallible.bind_eq_ok hlists
  obtain ⟨rest, rfl, verticesFit, rfl⟩ := (decodeIndexU64s_eq_ok hsize).mp hvertices
  rw [← List.append_assoc] at hlists hsize
  obtain ⟨⟨pointers, next⟩, hpointers, hlists⟩ := Fallible.bind_eq_ok hlists
  obtain ⟨rest, rfl, pointersFit, rfl⟩ := (decodeIndexU64s_eq_ok hsize).mp hpointers
  rw [← List.append_assoc] at hlists hsize
  obtain ⟨⟨indices, next⟩, hindices, hlists⟩ := Fallible.bind_eq_ok hlists
  obtain ⟨rest, rfl, indicesFit, rfl⟩ := (decodeIndexU64s_eq_ok hsize).mp hindices
  obtain ⟨_, hend, hlists⟩ := Fallible.bind_eq_ok hlists
  obtain ⟨_, hvalid, hlists⟩ := Fallible.bind_eq_ok hlists
  obtain ⟨_, hchecksum, hlists⟩ := Fallible.bind_eq_ok hlists
  cases hlists
  have hnone : rest = [] := by
    have hlength := of_decide_eq_true (require_eq_ok.mp hend)
    rw [← List.append_assoc] at hlength
    exact List.eq_nil_of_length_eq_zero (Nat.left_eq_add.mp (hlength.trans List.length_append))
  exact {
    written := by
      rw [hnone]
      simp only [encodeGraphIndexCsc, List.append_assoc, List.append_nil]
    identity := by
      rintro n hn
      simp only [List.mem_cons, List.not_mem_nil, or_false] at hn
      rcases hn with rfl | rfl | rfl <;> assumption
    words := by
      intro n hn
      rw [List.mem_append, List.mem_append] at hn
      rcases hn with (hn | hn) | hn
      · exact verticesFit n hn
      · exact pointersFit n hn
      · exact indicesFit n hn
    wellFormed := validateGraphblasCsc_eq_ok.mp hvalid
    checksum_eq := of_decide_eq_true (require_eq_ok.mp hchecksum) }

theorem decode_of_holds (hsize : value.length ≤ u64Max)
    (h : Holds value baseSequence lastWalId checksum csc) :
    decodeGraphIndexCsc key value baseSequence lastWalId checksum = .ok csc := by
  have hwritten := h.written
  have hidentity := h.identity
  have hmagic : indexCscMagic.isPrefixOf value = true := by
    rw [hwritten]
    simp only [encodeGraphIndexCsc, List.append_assoc]
    exact List.isPrefixOf_iff_prefix.mpr (List.prefix_append ..)
  have hbase : value = indexCscMagic ++ (leBytes 8 baseSequence ++ (leBytes 8 lastWalId ++
      (leBytes 8 checksum ++ (encodeIndexU64s csc.vertices ++ (encodeIndexU64s csc.pointers ++
        (encodeIndexU64s csc.indices ++ [])))))) := by
    rw [hwritten]
    simp only [encodeGraphIndexCsc, List.append_assoc, List.append_nil]
  have hwal := hbase.trans (List.append_assoc ..).symm
  have hsum := hwal.trans (List.append_assoc ..).symm
  have hvertices := hsum.trans (List.append_assoc ..).symm
  have hpointers := hvertices.trans (List.append_assoc ..).symm
  have hindices := hpointers.trans (List.append_assoc ..).symm
  have hlength := congrArg List.length (hindices.trans (List.append_assoc ..).symm)
  rw [List.append_nil] at hlength
  obtain ⟨verticesFit, pointersFit, indicesFit⟩ := h.fits
  rw [decodeGraphIndexCsc, require_eq_ok.mpr hmagic, Fallible.ok_bind,
    decodeIndexU64_at hbase (hidentity _ (by simp)), Fallible.ok_bind,
    decodeIndexU64_at hwal (hidentity _ (by simp)), Fallible.ok_bind,
    decodeIndexU64_at hsum (hidentity _ (by simp)), Fallible.ok_bind,
    require_eq_ok.mpr (decide_eq_true rfl), Fallible.ok_bind,
    decodeIndexU64s_at hsize hvertices verticesFit, Fallible.ok_bind,
    decodeIndexU64s_at hsize hpointers pointersFit, Fallible.ok_bind,
    decodeIndexU64s_at hsize hindices indicesFit, Fallible.ok_bind,
    require_eq_ok.mpr (decide_eq_true hlength.symm), Fallible.ok_bind,
    validateGraphblasCsc_eq_ok.mpr h.wellFormed, Fallible.ok_bind,
    require_eq_ok.mpr (decide_eq_true h.checksum_eq), Fallible.ok_bind]
  rfl

theorem length_encodeGraphIndexCsc (baseSequence lastWalId checksum : Nat) (csc : GraphBlasCsc) :
    (encodeGraphIndexCsc baseSequence lastWalId checksum csc).length =
      indexCscMagic.length + 48 +
        (csc.vertices.length + csc.pointers.length + csc.indices.length) * 8 := by
  simp only [encodeGraphIndexCsc, List.length_append, Words.length_leBytes, length_encodeIndexU64s]
  omega

theorem append_leBytes_inj {n n' : Nat} {rest rest' : List UInt8} (hn : n < 2 ^ 64) (hn' : n' < 2 ^ 64)
    (h : leBytes 8 n ++ rest = leBytes 8 n' ++ rest') : n = n' ∧ rest = rest' := by
  obtain ⟨hword, hrest⟩ := List.append_inj h (by rw [Words.length_leBytes, Words.length_leBytes])
  refine ⟨?_, hrest⟩
  have hread : ofLeBytes (leBytes 8 n) = n := Words.ofLeBytes_leBytes hn
  have hread' : ofLeBytes (leBytes 8 n') = n' := Words.ofLeBytes_leBytes hn'
  rw [← hread, ← hread', hword]

theorem append_encodeIndexU64s_inj {values values' : List Nat} {rest rest' : List UInt8}
    (hsize : (encodeIndexU64s values ++ rest).length ≤ u64Max) (hvalues : ∀ n ∈ values, n < 2 ^ 64)
    (hvalues' : ∀ n ∈ values', n < 2 ^ 64)
    (h : encodeIndexU64s values ++ rest = encodeIndexU64s values' ++ rest') :
    values = values' ∧ rest = rest' := by
  have hread : decodeIndexU64s "" (encodeIndexU64s values ++ rest) "" ([] : List UInt8).length =
      .ok (values, ([] ++ encodeIndexU64s values).length) := decodeIndexU64s_at hsize rfl hvalues
  have hread' : decodeIndexU64s "" (encodeIndexU64s values ++ rest) "" ([] : List UInt8).length =
      .ok (values', ([] ++ encodeIndexU64s values').length) := decodeIndexU64s_at hsize h hvalues'
  obtain ⟨heq, -⟩ := Prod.mk.inj (Except.ok.inj (hread.symm.trans hread'))
  rw [heq] at h
  exact ⟨heq, List.append_cancel_left h⟩

/-- A value holds one adjacency. -/
theorem Holds.unique {baseSequence' lastWalId' checksum' : Nat} {csc' : GraphBlasCsc}
    (hsize : value.length ≤ u64Max) (h : Holds value baseSequence lastWalId checksum csc)
    (h' : Holds value baseSequence' lastWalId' checksum' csc') : csc = csc' := by
  have heq := h.written.symm.trans h'.written
  simp only [encodeGraphIndexCsc, List.append_assoc] at heq
  replace heq := List.append_cancel_left heq
  obtain ⟨-, heq⟩ := append_leBytes_inj (h.identity _ (by simp)) (h'.identity _ (by simp)) heq
  obtain ⟨-, heq⟩ := append_leBytes_inj (h.identity _ (by simp)) (h'.identity _ (by simp)) heq
  obtain ⟨-, heq⟩ := append_leBytes_inj (h.identity _ (by simp)) (h'.identity _ (by simp)) heq
  obtain ⟨verticesFit, pointersFit, indicesFit⟩ := h.fits
  obtain ⟨verticesFit', pointersFit', indicesFit'⟩ := h'.fits
  have hlength := hsize
  rw [h.written, length_encodeGraphIndexCsc] at hlength
  have hparts : (encodeIndexU64s csc.vertices ++ (encodeIndexU64s csc.pointers ++
      encodeIndexU64s csc.indices)).length ≤ u64Max := by
    simp only [List.length_append, length_encodeIndexU64s]
    omega
  obtain ⟨hvertices, heq⟩ := append_encodeIndexU64s_inj hparts verticesFit verticesFit' heq
  have hparts' := hparts
  rw [List.length_append] at hparts'
  obtain ⟨hpointers, heq⟩ := append_encodeIndexU64s_inj (by omega) pointersFit pointersFit' heq
  rw [← List.append_nil (encodeIndexU64s csc.indices),
    ← List.append_nil (encodeIndexU64s csc'.indices)] at heq
  rw [List.length_append] at hparts'
  obtain ⟨hindices, -⟩ := append_encodeIndexU64s_inj
    (by rw [List.append_nil]; omega) indicesFit indicesFit' heq
  cases csc
  cases csc'
  exact GraphBlasCsc.mk.injEq .. ▸ ⟨hvertices, hpointers, hindices⟩

/-- A payload is accepted just where it is the one that is written for a well
formed adjacency with its checksum. So a reader accepts nothing that no writer
could have made, short of two payloads of one checksum. -/
theorem payload_exact (key : String) (value : List UInt8) (baseSequence lastWalId checksum : Nat)
    (csc : GraphBlasCsc) (hsize : value.length ≤ u64Max) :
    decodeGraphIndexCsc key value baseSequence lastWalId checksum = .ok csc ↔
      Holds value baseSequence lastWalId checksum csc :=
  ⟨holds_of_decode hsize, decode_of_holds hsize⟩

theorem checksumU64_lt {hash : Nat} (hhash : hash < 2 ^ 64) (value : Nat) :
    checksumU64 hash value < 2 ^ 64 := by
  have hfold : ∀ (bytes : List UInt8) (hash : Nat), hash < 2 ^ 64 →
      bytes.foldl (fun hash byte => (hash ^^^ byte.toNat) * 0x100000001b3 % 2 ^ 64) hash < 2 ^ 64 := by
    intro bytes
    induction bytes with
    | nil => exact fun _ h => h
    | cons byte bytes ih => exact fun hash _ => ih _ (Nat.mod_lt _ (by decide))
  exact hfold _ hash hhash

theorem graphblasCscChecksum_lt (csc : GraphBlasCsc) : graphblasCscChecksum csc < 2 ^ 64 := by
  have hfold : ∀ (words : List Nat) (hash : Nat), hash < 2 ^ 64 →
      words.foldl checksumU64 hash < 2 ^ 64 := by
    intro words
    induction words with
    | nil => exact fun _ h => h
    | cons n words ih => exact fun hash h => ih _ (checksumU64_lt h n)
  exact hfold _ _ (by decide)

theorem identity_lt (h : baseSequence < 2 ^ 64 ∧ lastWalId < 2 ^ 64) (csc : GraphBlasCsc) :
    ∀ n ∈ [baseSequence, lastWalId, graphblasCscChecksum csc], n < 2 ^ 64 := by
  intro n hn
  simp only [List.mem_cons, List.not_mem_nil, or_false] at hn
  rcases hn with rfl | rfl | rfl
  · exact h.1
  · exact h.2
  · exact graphblasCscChecksum_lt csc

/-- The pointers of a well formed adjacency are places in its indices, or the
end of them. -/
theorem WellFormed.pointer_le (h : WellFormed csc) {k : Nat} (hk : k < csc.pointers.length) :
    csc.pointers[k] ≤ csc.indices.length := by
  have hpairs := List.isChain_iff_pairwise.mp h.ascending
  have hlast := h.total
  rw [List.getLast?_eq_getElem?, List.getElem?_eq_getElem (by omega), Option.getD_some] at hlast
  rw [← hlast]
  rcases Nat.lt_or_ge k (csc.pointers.length - 1) with hlt | hge
  · exact List.pairwise_iff_getElem.mp hpairs _ _ hk (by omega) hlt
  · have heq : k = csc.pointers.length - 1 := by omega
    subst heq
    exact le_rfl

theorem rowNeighbors_total {row : List Nat} (hrow : ∀ index ∈ row, index < vertices.length)
    {neighbors : Finset Nat} (hneighbors : neighbors ⊆ vertices.toFinset) :
    ∃ result, rowNeighbors vertices row neighbors = .ok result ∧ neighbors ⊆ result ∧
      (row ≠ [] → result.Nonempty) ∧ result ⊆ vertices.toFinset := by
  induction row generalizing neighbors with
  | nil => exact ⟨neighbors, rfl, Finset.Subset.refl _, fun h => absurd rfl h, hneighbors⟩
  | cons index row ih =>
      obtain ⟨vertex, hvertex⟩ : ∃ vertex, vertices[index]? = some vertex :=
        ⟨_, List.getElem?_eq_getElem (hrow index List.mem_cons_self)⟩
      have hmember : vertex ∈ vertices.toFinset :=
        List.mem_toFinset.mpr (List.mem_of_getElem? hvertex)
      obtain ⟨result, hresult, hsub, -, hwithin⟩ := ih
        (fun i hi => hrow i (List.mem_cons_of_mem _ hi)) (Finset.insert_subset hmember hneighbors)
      refine ⟨result, ?_, (Finset.subset_insert _ _).trans hsub,
        fun _ => ⟨_, hsub (Finset.mem_insert_self _ _)⟩, hwithin⟩
      rw [rowNeighbors, hvertex]
      exact hresult

/-- A row of an adjacency between these vertices. -/
def Between (vertices : List Nat) (row : Nat × Finset Nat) : Prop :=
  row.1 ∈ vertices ∧ row.2.Nonempty ∧ row.2 ⊆ vertices.toFinset

theorem adjacencyRows_total (h : WellFormed csc) {ordinal : Nat} {sources : List Nat}
    (hplace : ordinal + sources.length = csc.vertices.length) (hsources : sources ⊆ csc.vertices)
    {known : Adjacency} (hknown : Sorted known) (hrows : ∀ row ∈ known, Between csc.vertices row) :
    ∃ result, adjacencyRows csc ordinal sources known = .ok result ∧ Sorted result ∧
      ∀ row ∈ result, Between csc.vertices row := by
  induction sources generalizing ordinal known with
  | nil => exact ⟨known, rfl, hknown, hrows⟩
  | cons source sources ih =>
      rw [List.length_cons] at hplace
      have hbegin : ordinal < csc.pointers.length := by
        have hcount := h.count
        omega
      have hend : ordinal + 1 < csc.pointers.length := by
        have hcount := h.count
        omega
      have hle : csc.pointers.getD ordinal 0 ≤ csc.pointers.getD (ordinal + 1) 0 ∧
          csc.pointers.getD (ordinal + 1) 0 ≤ csc.indices.length := by
        rw [List.getD_eq_getElem?_getD, List.getD_eq_getElem?_getD, List.getElem?_eq_getElem hbegin,
          List.getElem?_eq_getElem hend, Option.getD_some, Option.getD_some]
        exact ⟨List.pairwise_iff_getElem.mp (List.isChain_iff_pairwise.mp h.ascending) _ _ _ _
          (Nat.lt_succ_self _), h.pointer_le hend⟩
      obtain ⟨row, hslice, hrow⟩ := Words.slice_total hle.1 hle.2
      have hrest := List.subset_of_cons_subset hsources
      have hnext : ordinal + 1 + sources.length = csc.vertices.length := by omega
      rw [adjacencyRows, hslice]
      dsimp only
      split
      · exact ih hnext hrest hknown hrows
      · rename_i hsome
        obtain ⟨neighbors, hneighbors, -, hnonempty, hwithin⟩ := rowNeighbors_total
          (fun index hindex => h.bounded index (hrow hindex)) (Finset.empty_subset _)
        rw [hneighbors, Fallible.ok_bind]
        refine ih hnext hrest hknown.insert fun entry hentry => ?_
        rcases SortedMap.mem_insert.mp hentry with rfl | ⟨hentry, -⟩
        · exact ⟨hsources List.mem_cons_self, hnonempty (by simpa using hsome), hwithin⟩
        · exact hrows entry hentry

/-! ### Main results -/

theorem words_compressed (hvertices : ∀ v ∈ vertexSet adjacency, v < 2 ^ 64)
    (hsize : (encodeGraphIndexCsc baseSequence lastWalId checksum (compressed adjacency)).length ≤
      u64Max) :
    ∀ n ∈ (compressed adjacency).vertices ++ (compressed adjacency).pointers ++
      (compressed adjacency).indices, n < 2 ^ 64 := by
  have hwellFormed : WellFormed (compressed adjacency) :=
    wellFormed_layOut (lists_vertexSet adjacency) (Finset.sortedLT_sort _).pairwise
  rw [length_encodeGraphIndexCsc, u64Max] at hsize
  intro n hn
  rw [List.mem_append, List.mem_append] at hn
  rcases hn with (hn | hn) | hn
  · exact hvertices n ((Finset.mem_sort _).mp hn)
  · obtain ⟨k, hk, rfl⟩ := List.getElem_of_mem hn
    have hpointer := hwellFormed.pointer_le hk
    omega
  · have hindex := hwellFormed.bounded n hn
    omega

/-- An adjacency is compressed, written, read and expanded again to itself, less
the sources without a destination. The rows are sorted and their vertices have
eight bytes; the other hypotheses say that the numbers of the format have room. -/
theorem csc_round_trip (key : String) (adjacency : Adjacency) (baseSequence lastWalId : Nat)
    (hsorted : Sorted adjacency) (hbound : (vertexSet adjacency).card ≤ graphblasIndexMax)
    (hvertices : ∀ v ∈ vertexSet adjacency, v < 2 ^ 64)
    (hidentity : baseSequence < 2 ^ 64 ∧ lastWalId < 2 ^ 64) :
    ∃ csc, graphblasCscFromAdjacency adjacency = .ok csc ∧
      csc.toAdjacency = .ok (adjacency.filter fun row => row.2.Nonempty) ∧
      ∀ value, value =
        encodeGraphIndexCsc baseSequence lastWalId (graphblasCscChecksum csc) csc →
        value.length ≤ u64Max →
          decodeGraphIndexCsc key value baseSequence lastWalId (graphblasCscChecksum csc) = .ok csc := by
  refine ⟨compressed adjacency, graphblasCscFromAdjacency_eq hsorted hbound,
    toAdjacency_layOut (lists_vertexSet adjacency) hsorted, fun value hvalue hsize => ?_⟩
  exact decode_of_holds hsize {
    written := hvalue
    identity := identity_lt hidentity _
    words := words_compressed hvertices (hvalue ▸ hsize)
    wellFormed := wellFormed_layOut (lists_vertexSet adjacency) (Finset.sortedLT_sort _).pairwise
    checksum_eq := rfl }

/-- Two sources with their destinations, and one that has none. -/
def triangle : Adjacency := [(1, {2, 3}), (3, {1}), (5, ∅)]

/-- Two sources with their destinations come back, and one that has none does
not. All hypotheses are evaluated. -/
theorem csc_round_trip_triangle : ∃ csc, graphblasCscFromAdjacency triangle = .ok csc ∧
    csc.toAdjacency = .ok (triangle.filter fun row => row.2.Nonempty) ∧
      ∀ value, value = encodeGraphIndexCsc 7 9 (graphblasCscChecksum csc) csc →
        value.length ≤ u64Max →
          decodeGraphIndexCsc "index" value 7 9 (graphblasCscChecksum csc) = .ok csc :=
  csc_round_trip "index" triangle 7 9 (by unfold SortedMap.Sorted; decide) (by decide) (by decide)
    (by decide)

/-- A payload that is accepted expands, to rows between its vertices. The checks
of the decoder are what the expansion relies on: no offset of an accepted
payload leads out of it. -/
theorem accepted_expands (key : String) (value : List UInt8) (baseSequence lastWalId checksum : Nat)
    (csc : GraphBlasCsc) (hsize : value.length ≤ u64Max)
    (h : decodeGraphIndexCsc key value baseSequence lastWalId checksum = .ok csc) :
    ∃ adjacency, csc.toAdjacency = .ok adjacency ∧ Sorted adjacency ∧
      ∀ row ∈ adjacency, Between csc.vertices row := by
  have hwellFormed := (holds_of_decode hsize h).wellFormed
  rw [GraphBlasCsc.toAdjacency, if_neg (not_not.mpr hwellFormed.count)]
  exact adjacencyRows_total hwellFormed (Nat.zero_add _) (List.Subset.refl _) List.Pairwise.nil
    fun row hrow => by cases hrow

def pair : GraphBlasCsc := ⟨[1, 2], [0, 1, 1], [1]⟩

def pairPayload : List UInt8 := encodeGraphIndexCsc 7 9 (graphblasCscChecksum pair) pair

theorem pairPayload_length : pairPayload.length ≤ u64Max := by
  rw [pairPayload, length_encodeGraphIndexCsc]
  decide

theorem pairPayload_holds : Holds pairPayload 7 9 (graphblasCscChecksum pair) pair where
  written := rfl
  identity := identity_lt ⟨by decide, by decide⟩ pair
  words := by decide
  wellFormed := ⟨rfl, rfl, by decide, rfl, by decide, by decide⟩
  checksum_eq := rfl

/-- The payload of one edge is accepted, so it expands. Its row is between the
two vertices that the payload lists. -/
theorem accepted_expands_pair : ∃ adjacency, pair.toAdjacency = .ok adjacency ∧ Sorted adjacency ∧
    ∀ row ∈ adjacency, Between pair.vertices row :=
  accepted_expands "index" pairPayload 7 9 (graphblasCscChecksum pair) pair pairPayload_length
    (decode_of_holds pairPayload_length pairPayload_holds)

/-- The payload of one edge between two vertices. It is accepted, and it is the
one that is written. -/
theorem payload_exact_pair :
    decodeGraphIndexCsc "index" pairPayload 7 9 (graphblasCscChecksum pair) = .ok pair ↔
      Holds pairPayload 7 9 (graphblasCscChecksum pair) pair :=
  payload_exact "index" pairPayload 7 9 (graphblasCscChecksum pair) pair pairPayload_length

end ContextMemory.Topology
