/-
What the index of an edge type holds.

An adjacency describes the edges of a type when it has just those, and no source without one
(`Describes`); it is then determined by them. The scan of a build describes the edges of its
snapshot, and so does the patch of an adjacency that describes earlier edges, where the changelog has
all that happened since.
-/

import ContextMemory.Hydra.GraphIndex
import ContextMemory.Guarantees.Csc
import ContextMemory.Guarantees.Topology
import ContextMemory.Lib.Changelog

namespace ContextMemory.Topology

open SortedMap (get erase insert Sorted)

variable {S : IndexSetting} {edgeType : String} {edges : Finset EdgeKey} {adjacency : Adjacency}

/-! ### Adjacencies of edges -/

structure Describes (edgeType : String) (edges : Finset EdgeKey) (adjacency : Adjacency) : Prop where
  sorted : Sorted adjacency
  nonempty : ∀ row ∈ adjacency, row.2.Nonempty
  mem : ∀ src dst, dst ∈ rowOf adjacency src ↔ (⟨edgeType, src, dst⟩ : EdgeKey) ∈ edges

/-- Without empty rows a source has a row when it has a destination. -/
theorem get_of_nonempty (h : ∀ row ∈ adjacency, row.2.Nonempty) (src : Nat) :
    get src adjacency = if rowOf adjacency src = ∅ then none else some (rowOf adjacency src) := by
  cases hget : get src adjacency with
  | none => simp [rowOf, hget]
  | some row =>
      have hrow := h _ (SortedMap.mem_of_get hget)
      rw [rowOf, hget, Option.getD_some, if_neg hrow.ne_empty]

theorem Describes.unique {adjacency' : Adjacency} (h : Describes edgeType edges adjacency)
    (h' : Describes edgeType edges adjacency') : adjacency = adjacency' := by
  have hrows : ∀ src, rowOf adjacency src = rowOf adjacency' src := by
    intro src
    ext dst
    rw [h.mem, h'.mem]
  refine h.sorted.ext h'.sorted fun src => ?_
  rw [get_of_nonempty h.nonempty, get_of_nonempty h'.nonempty, hrows]

theorem Describes.filter (h : Describes edgeType edges adjacency) :
    (adjacency.filter fun row => row.2.Nonempty) = adjacency :=
  List.filter_eq_self.mpr fun row hrow => decide_eq_true (h.nonempty row hrow)

/-! ### The scan -/

namespace MatrixRows

/-- The destinations that were pushed for a source. -/
def of (m : MatrixRows) (src : Nat) : List Nat := (get src m.rows).getD []

theorem mem_of_push {m : MatrixRows} (h : Sorted m.rows) {src dst : Nat} (v d : Nat) :
    d ∈ (m.push src dst).of v ↔ d ∈ m.of v ∨ (v, d) = (src, dst) := by
  rw [of, push, h.get_insert]
  by_cases hv : v = src
  · rw [if_pos hv, Option.getD_some, List.mem_append, List.mem_singleton, hv, Prod.mk.injEq]
    simp [of]
  · rw [if_neg hv, Prod.mk.injEq]
    simp [of, hv]

theorem pushAll_spec {S : Setting} {pairs : List (Nat × Nat)} {m m' : MatrixRows}
    (h : Sorted m.rows) (hok : pushAll S pairs m = .ok m') :
    Sorted m'.rows ∧ ∀ v d, d ∈ m'.of v ↔ d ∈ m.of v ∨ (v, d) ∈ pairs := by
  induction pairs generalizing m with
  | nil =>
      cases hok
      exact ⟨h, fun v d => by simp⟩
  | cons edge pairs ih =>
      obtain ⟨_, -, hrest⟩ := Fallible.bind_eq_ok hok
      obtain ⟨hsorted, hmem⟩ := ih (m := m.push edge.1 edge.2) h.insert hrest
      refine ⟨hsorted, fun v d => ?_⟩
      rw [hmem, mem_of_push h, List.mem_cons, or_assoc]

theorem mem_of {m : MatrixRows} (h : Sorted m.rows) (v d : Nat) :
    d ∈ m.of v ↔ ∃ row ∈ m.rows, row.1 = v ∧ d ∈ row.2 := by
  constructor
  · intro hd
    cases hget : get v m.rows with
    | none =>
        rw [of, hget] at hd
        cases hd
    | some row =>
        rw [of, hget] at hd
        exact ⟨_, SortedMap.mem_of_get hget, rfl, hd⟩
  · rintro ⟨row, hrow, rfl, hd⟩
    rw [of, h.get_of_mem hrow]
    exact hd

/-- The adjacency that the rows are read as. -/
def toAdjacency (m : MatrixRows) : Adjacency := m.normalize.map fun row => (row.1, row.2.toFinset)

theorem toAdjacency_eq (m : MatrixRows) : m.toAdjacency =
    (m.rows.filter fun row => !row.2.isEmpty).map fun row => (row.1, row.2.toFinset) := by
  have hempty : ∀ row : Nat × List Nat,
      (!(row.2.toFinset.sort (· ≤ ·)).isEmpty) = !row.2.isEmpty := by
    intro row
    rw [Bool.eq_iff_iff]
    simp [← List.length_eq_zero_iff (l := row.2.toFinset.sort _), Finset.length_sort]
  rw [toAdjacency, normalize, List.filter_map, List.map_map]
  simp only [Function.comp_def, SortedMap.ascending_eq_sort, hempty, Finset.sort_toFinset]

end MatrixRows

theorem mem_rowOf (h : Sorted adjacency) (v d : Nat) :
    d ∈ rowOf adjacency v ↔ ∃ row ∈ adjacency, row.1 = v ∧ d ∈ row.2 := by
  constructor
  · intro hd
    cases hget : get v adjacency with
    | none =>
        rw [rowOf, hget] at hd
        exact absurd hd (Finset.notMem_empty d)
    | some row =>
        rw [rowOf, hget] at hd
        exact ⟨_, SortedMap.mem_of_get hget, rfl, hd⟩
  · rintro ⟨row, hrow, rfl, hd⟩
    rw [rowOf, h.get_of_mem hrow]
    exact hd

/-- The rows of a scan describe what was pushed. -/
theorem MatrixRows.describes {m : MatrixRows} (h : Sorted m.rows)
    (hedges : ∀ v d, d ∈ m.of v ↔ (⟨edgeType, v, d⟩ : EdgeKey) ∈ edges) :
    Describes edgeType edges m.toAdjacency := by
  have hsorted : Sorted m.toAdjacency := by
    rw [toAdjacency_eq]
    exact List.pairwise_map.mpr (h.sublist List.filter_sublist)
  refine ⟨hsorted, fun row hrow => ?_, fun v d => ?_⟩
  · rw [toAdjacency_eq, List.mem_map] at hrow
    obtain ⟨pushed, hpushed, rfl⟩ := hrow
    simpa using (List.mem_filter.mp hpushed).2
  · rw [mem_rowOf hsorted, ← hedges, mem_of h, toAdjacency_eq]
    constructor
    · rintro ⟨row, hrow, rfl, hd⟩
      obtain ⟨pushed, hpushed, rfl⟩ := List.mem_map.mp hrow
      exact ⟨pushed, (List.mem_filter.mp hpushed).1, rfl, List.mem_toFinset.mp hd⟩
    · rintro ⟨row, hrow, rfl, hd⟩
      have hsome : (!row.2.isEmpty) = true := by
        cases hdsts : row.2 with
        | nil =>
            rw [hdsts] at hd
            cases hd
        | cons => rfl
      exact ⟨_, List.mem_map.mpr ⟨row, List.mem_filter.mpr ⟨hrow, hsome⟩, rfl⟩, rfl,
        List.mem_toFinset.mpr hd⟩

namespace Store

variable {s : Store} {n : Nat}

theorem mem_ownPairs (src dst : Nat) :
    (src, dst) ∈ s.ownPairs edgeType ↔ (⟨edgeType, src, dst⟩ : EdgeKey) ∈ s.ownEdges := by
  rw [ownPairs, ownEdges, List.mem_toFinset, List.mem_map, List.mem_map]
  constructor
  · rintro ⟨e, he, heq⟩
    obtain ⟨hmem, htype⟩ := List.mem_filter.mp he
    obtain ⟨rfl, rfl⟩ := Prod.mk.inj heq
    refine ⟨e, hmem, ?_⟩
    rw [← of_decide_eq_true htype]
  · rintro ⟨e, he, heq⟩
    refine ⟨e, List.mem_filter.mpr ⟨he, decide_eq_true (by rw [heq])⟩, ?_⟩
    rw [heq]

theorem Past.mem_segmentPairs (h : s.Past n) (src dst : Nat) :
    (src, dst) ∈ s.segmentPairs edgeType n ↔ (⟨edgeType, src, dst⟩ : EdgeKey) ∈ s.segmentEdges := by
  rw [mem_segmentEdges, segmentPairs, List.mem_flatMap]
  constructor
  · rintro ⟨g, hg, hpair⟩
    obtain ⟨hmem, htype⟩ := List.mem_filter.mp hg
    obtain ⟨dst', hdst, heq⟩ := List.mem_map.mp hpair
    obtain ⟨rfl, rfl⟩ := Prod.mk.inj heq
    obtain ⟨hlisted, hvisible⟩ := List.mem_filter.mp hdst
    rw [h.tombstoneAt, (of_decide_eq_true htype).1] at hvisible
    exact ⟨g, hmem, (of_decide_eq_true htype).1, rfl, hlisted, hvisible⟩
  · rintro ⟨g, hmem, htype, hsrc, hlisted, hvisible⟩
    refine ⟨g, List.mem_filter.mpr ⟨hmem, decide_eq_true ⟨htype, h.segments g hmem⟩⟩,
      List.mem_map.mpr ⟨dst, List.mem_filter.mpr ⟨hlisted, ?_⟩, ?_⟩⟩
    · rw [h.tombstoneAt, htype, hsrc]
      exact hvisible
    · exact congrArg (·, dst) hsrc

/-- **The scan.** It describes the edges of the store. -/
theorem Past.canonicalAdjacency (h : s.Past n) {S : Setting}
    (hok : s.canonicalAdjacencyAt S edgeType n = .ok adjacency) :
    Describes edgeType s.edges adjacency := by
  obtain ⟨rows, hrows, hok⟩ := Fallible.bind_eq_ok hok
  obtain ⟨own, hown, hsegments⟩ := Fallible.bind_eq_ok hrows
  cases hok
  obtain ⟨hsorted, hfirst⟩ := MatrixRows.pushAll_spec (m := ⟨[], 0⟩) List.Pairwise.nil hown
  obtain ⟨hsorted', hsecond⟩ := MatrixRows.pushAll_spec hsorted hsegments
  refine MatrixRows.describes hsorted' fun v d => ?_
  rw [hsecond, hfirst, mem_ownPairs, h.mem_segmentPairs, mem_edges]
  simp [MatrixRows.of, SortedMap.get]

end Store

/-! ### Patches -/

theorem rowOf_insert (h : Sorted adjacency) (src v : Nat) (row : Finset Nat) :
    rowOf (insert src row adjacency) v = if v = src then row else rowOf adjacency v := by
  rw [rowOf, h.get_insert]
  split <;> rfl

theorem rowOf_erase (h : Sorted adjacency) (src v : Nat) :
    rowOf (erase src adjacency) v = if v = src then ∅ else rowOf adjacency v := by
  rw [rowOf, h.get_erase]
  split <;> rfl

/-- A row is put in for a source that differs from its own in one destination at
most. -/
theorem insert_row_spec (h : Sorted adjacency) (hrows : ∀ row ∈ adjacency, row.2.Nonempty)
    {src dst : Nat} {present : Bool} {row : Finset Nat} (hne : row.Nonempty)
    (hrow : ∀ d, d ∈ row ↔ if d = dst then present = true else d ∈ rowOf adjacency src) :
    Sorted (insert src row adjacency) ∧ (∀ row' ∈ insert src row adjacency, row'.2.Nonempty) ∧
      ∀ v d, d ∈ rowOf (insert src row adjacency) v ↔
        if v = src ∧ d = dst then present = true else d ∈ rowOf adjacency v := by
  refine ⟨h.insert, fun row' hrow' => ?_, fun v d => ?_⟩
  · rcases SortedMap.mem_insert.mp hrow' with rfl | ⟨hrow', -⟩
    · exact hne
    · exact hrows row' hrow'
  · rw [rowOf_insert h]
    by_cases hv : v = src
    · simp only [hv, if_true, hrow, true_and]
    · simp [hv]

/-- An entry puts its edge into the state that it has, and leaves the others. -/
theorem applyEntry_spec (h : Sorted adjacency) (hrows : ∀ row ∈ adjacency, row.2.Nonempty)
    (src dst : Nat) (present : Bool) :
    Sorted (applyEntry adjacency (toLex (src, dst), present)) ∧
      (∀ row ∈ applyEntry adjacency (toLex (src, dst), present), row.2.Nonempty) ∧
      ∀ v d, d ∈ rowOf (applyEntry adjacency (toLex (src, dst), present)) v ↔
        if v = src ∧ d = dst then present = true else d ∈ rowOf adjacency v := by
  cases present with
  | true =>
      have hrow : ∀ d, d ∈ Insert.insert dst (rowOf adjacency src) ↔
          if d = dst then true = true else d ∈ rowOf adjacency src := by
        intro d
        rw [Finset.mem_insert]
        by_cases hd : d = dst <;> simp [hd]
      exact insert_row_spec h hrows ⟨dst, Finset.mem_insert_self _ _⟩ hrow
  | false =>
      cases hget : get src adjacency with
      | none =>
          have heq : applyEntry adjacency (toLex (src, dst), false) = adjacency := by
            simp [applyEntry, hget]
          rw [heq]
          refine ⟨h, hrows, fun v d => ?_⟩
          split
          · rename_i hkey
            rw [hkey.1, rowOf, hget]
            simp
          · rfl
      | some row =>
          have hrow : rowOf adjacency src = row := by rw [rowOf, hget, Option.getD_some]
          by_cases hempty : row.erase dst = ∅
          · have heq : applyEntry adjacency (toLex (src, dst), false) = erase src adjacency := by
              simp [applyEntry, hget, hempty]
            rw [heq]
            refine ⟨h.erase, fun row hrow => hrows row (SortedMap.mem_erase.mp hrow).1, fun v d => ?_⟩
            rw [rowOf_erase h]
            by_cases hv : v = src
            · have hgone : ¬d = dst → d ∉ row := fun hne hd =>
                Finset.notMem_empty d (hempty ▸ Finset.mem_erase.mpr ⟨hne, hd⟩)
              rw [if_pos hv, hv, hrow]
              simpa using hgone
            · simp [hv]
          · have heq : applyEntry adjacency (toLex (src, dst), false) =
                insert src (row.erase dst) adjacency := by
              simp [applyEntry, hget, hempty]
            have hleft : ∀ d, d ∈ row.erase dst ↔
                if d = dst then false = true else d ∈ rowOf adjacency src := by
              intro d
              rw [Finset.mem_erase, hrow]
              by_cases hd : d = dst <;> simp [hd]
            rw [heq]
            exact insert_row_spec h hrows (Finset.nonempty_iff_ne_empty.mpr hempty) hleft

/-- A delta puts every edge into the state that it has for it. -/
theorem applyOverlay_spec (h : Sorted adjacency) (hrows : ∀ row ∈ adjacency, row.2.Nonempty)
    {overlay : Overlay} (hoverlay : Sorted overlay) :
    Sorted (applyOverlay adjacency overlay) ∧
      (∀ row ∈ applyOverlay adjacency overlay, row.2.Nonempty) ∧
      ∀ v d, d ∈ rowOf (applyOverlay adjacency overlay) v ↔
        (get (toLex (v, d)) overlay).getD (decide (d ∈ rowOf adjacency v)) = true := by
  induction overlay generalizing adjacency with
  | nil => exact ⟨h, hrows, fun v d => (decide_eq_true_iff).symm⟩
  | cons entry overlay ih =>
      obtain ⟨hhead, htail⟩ := List.pairwise_cons.mp hoverlay
      obtain ⟨key, present⟩ := entry
      obtain ⟨⟨src, dst⟩, rfl⟩ := toLex.surjective key
      obtain ⟨hsorted, hnonempty, hentry⟩ := applyEntry_spec h hrows src dst present
      obtain ⟨hsorted', hnonempty', hrest⟩ := ih hsorted hnonempty htail
      refine ⟨hsorted', hnonempty', fun v d => ?_⟩
      rw [applyOverlay, List.foldl_cons]
      refine (hrest v d).trans ?_
      by_cases hkey : (v, d) = (src, dst)
      · obtain ⟨rfl, rfl⟩ := Prod.mk.inj hkey
        have hnone : get (toLex (v, d)) overlay = none :=
          SortedMap.get_eq_none_iff.mpr fun e he => (hhead e he).ne'
        have hsome : get (toLex (v, d)) ((toLex (v, d), present) :: overlay) = some present :=
          hoverlay.get_of_mem List.mem_cons_self
        rw [hnone, hsome, Option.getD_none, Option.getD_some, decide_eq_true_iff, hentry]
        simp
      · have hget : get (toLex (v, d)) ((toLex (src, dst), present) :: overlay) =
            get (toLex (v, d)) overlay := by
          have hne : (src, dst) ≠ (v, d) := Ne.symm hkey
          simp [SortedMap.get, hne]
        have hsame : d ∈ rowOf (applyEntry adjacency (toLex (src, dst), present)) v ↔
            d ∈ rowOf adjacency v := by
          rw [hentry, if_neg fun heq => hkey (Prod.ext heq.1 heq.2)]
        rw [hget]
        simp only [hsame]

/-! ### The changelog -/

/-- The entries of an edge type, as entries of a log of states. -/
def entriesOf (entries : List (XlogKey × Bool)) : List (Changelog.Entry (ℕ ×ₗ ℕ) Bool) :=
  entries.map fun entry => ⟨entry.1.sequence, toLex (entry.1.src, entry.1.dst), entry.2⟩

/-- Which edges of a type there were. -/
def statesOf (edgeType : String) (past : Nat → Finset EdgeKey) (n : Nat) (pair : ℕ ×ₗ ℕ) : Bool :=
  decide ((⟨edgeType, (ofLex pair).1, (ofLex pair).2⟩ : EdgeKey) ∈ past n)

/-- The changelog of an edge type has all that a commit changed. -/
def LoggedAt (past : Nat → Finset EdgeKey) (edgeType : String) (s : Store) (n : Nat) : Prop :=
  Changelog.Logged (statesOf edgeType past)
    (entriesOf (s.xlog.filter fun entry => entry.1.edgeType = edgeType)) n

/-- The changelog of an edge type has all that happened since a sequence. -/
def Covered (past : Nat → Finset EdgeKey) (edgeType : String) (since : Nat) (s : Store) : Prop :=
  ∀ n, since ≤ n → n < s.sequence → LoggedAt past edgeType s n

/-- The overlay of a scan has what the entries resolve to. -/
theorem overlay_eq (entries : List (XlogKey × Bool)) :
    Sorted (entries.foldl (fun overlay entry =>
        Overlay.set entry.1.src entry.1.dst entry.2 overlay) []) ∧
      ∀ pair, get pair (entries.foldl (fun overlay entry =>
        Overlay.set entry.1.src entry.1.dst entry.2 overlay) []) =
          Changelog.resolve (entriesOf entries) pair := by
  induction entries using List.reverseRecOn with
  | nil => exact ⟨List.Pairwise.nil, fun pair => rfl⟩
  | append_singleton entries entry ih =>
      obtain ⟨hsorted, hget⟩ := ih
      have hresolve : Changelog.resolve (entriesOf (entries ++ [entry])) =
          Function.update (Changelog.resolve (entriesOf entries))
            (toLex (entry.1.src, entry.1.dst)) (some entry.2) := by
        rw [entriesOf, List.map_append, Changelog.resolve, List.foldl_append]
        rfl
      rw [List.foldl_append]
      refine ⟨hsorted.insert, fun pair => ?_⟩
      rw [hresolve, List.foldl_cons, List.foldl_nil, Overlay.set, hsorted.get_insert, hget]
      by_cases hpair : pair = toLex (entry.1.src, entry.1.dst)
      · rw [if_pos hpair, hpair, Function.update_self]
      · rw [if_neg hpair, Function.update_of_ne hpair]

/-- The entries of an edge type are in the order of their sequences. -/
theorem XlogKey.sequence_le {k k' : XlogKey} (htype : k.edgeType = k'.edgeType) (h : k < k') :
    k.sequence ≤ k'.sequence := by
  have hlt : k.tuple < k'.tuple := h
  simp only [tuple, Prod.Lex.toLex_lt_toLex, htype, lt_self_iff_false, true_and, false_or] at hlt
  omega

theorem saturatingSucc_of_lt {n : Nat} (h : n < u64Max) : saturatingSucc n = n + 1 :=
  Nat.min_eq_left h

/-- **The patch.** What describes the edges at a sequence since when the
changelog has everything is patched to what describes them now. -/
theorem Describes.patched {past : Nat → Finset EdgeKey} {since : Nat} {s : Store}
    (h : Describes edgeType (past since) adjacency) (hxlog : Sorted s.xlog) (hle : since < s.sequence)
    (hfits : s.sequence < u64Max) (hcovered : Covered past edgeType since s) {overlay : Overlay}
    (hdelta : s.xlogDeltaSince edgeType since s.sequence = .complete overlay) :
    Describes edgeType (past s.sequence) (applyOverlay adjacency overlay) := by
  have hoverlay : (s.xlogRange edgeType (since + 1) (s.sequence + 1)).foldl
      (fun overlay entry => Overlay.set entry.1.src entry.1.dst entry.2 overlay) [] = overlay := by
    rw [Store.xlogDeltaSince, saturatingSucc_of_lt (hle.trans hfits), saturatingSucc_of_lt hfits] at hdelta
    split at hdelta
    · cases hdelta
    · split at hdelta
      · cases hdelta
      · exact XlogDelta.complete.inj hdelta
  obtain ⟨hsorted, hget⟩ := overlay_eq (s.xlogRange edgeType (since + 1) (s.sequence + 1))
  rw [hoverlay] at hsorted hget
  have hrange : ∀ e ∈ entriesOf (s.xlogRange edgeType (since + 1) (s.sequence + 1)),
      since < e.sequence ∧ e.sequence ≤ s.sequence := by
    intro e he
    obtain ⟨entry, hentry, rfl⟩ := List.mem_map.mp he
    obtain ⟨-, hfirst, hupper⟩ := of_decide_eq_true (List.mem_filter.mp hentry).2
    exact ⟨hfirst, Nat.le_of_lt_succ hupper⟩
  have hordered : (entriesOf (s.xlogRange edgeType (since + 1) (s.sequence + 1))).Pairwise
      fun e e' => e.sequence ≤ e'.sequence := by
    have hxlog' : Sorted (s.xlogRange edgeType (since + 1) (s.sequence + 1)) :=
      hxlog.sublist List.filter_sublist
    refine List.pairwise_map.mpr (List.Pairwise.imp_of_mem (fun {a b} ha hb hlt => ?_) hxlog')
    have htype : a.1.edgeType = edgeType := (of_decide_eq_true (List.mem_filter.mp ha).2).1
    have htype' : b.1.edgeType = edgeType := (of_decide_eq_true (List.mem_filter.mp hb).2).1
    exact XlogKey.sequence_le (htype.trans htype'.symm) hlt
  have hlogged : ∀ k, since ≤ k → k < s.sequence → Changelog.Logged (statesOf edgeType past)
      (entriesOf (s.xlogRange edgeType (since + 1) (s.sequence + 1))) k := by
    intro k hfirst hlast
    refine (hcovered k hfirst hlast).congr (fun e hsequence => ?_) rfl rfl
    simp only [entriesOf, Store.xlogRange, List.mem_map, List.mem_filter, decide_eq_true_eq]
    constructor
    · rintro ⟨entry, ⟨hentry, htype, -⟩, rfl⟩
      exact ⟨entry, ⟨hentry, htype⟩, rfl⟩
    · rintro ⟨entry, ⟨hentry, htype⟩, rfl⟩
      dsimp only at hsequence
      exact ⟨entry, ⟨hentry, htype, by omega, by omega⟩, rfl⟩
  obtain ⟨hsorted', hnonempty, hmem⟩ := applyOverlay_spec h.sorted h.nonempty hsorted
  refine ⟨hsorted', hnonempty, fun v d => ?_⟩
  have hbefore : decide (d ∈ rowOf adjacency v) = statesOf edgeType past since (toLex (v, d)) := by
    rw [statesOf, decide_eq_decide]
    exact h.mem v d
  rw [hmem, hget, hbefore, Changelog.replay hle.le hordered hrange hlogged, statesOf,
    decide_eq_true_iff]
  rfl

/-! ### What commits log -/

section Commits

variable {past : Nat → Finset EdgeKey} {s s' : Store}

theorem mem_entriesOf {entry : Changelog.Entry (ℕ ×ₗ ℕ) Bool} :
    entry ∈ entriesOf (s.xlog.filter fun e => e.1.edgeType = edgeType) ↔
      ((⟨edgeType, (ofLex entry.key).1, (ofLex entry.key).2⟩ : EdgeKey).logKey entry.sequence,
        entry.state) ∈ s.xlog := by
  simp only [entriesOf, List.mem_map, List.mem_filter, decide_eq_true_eq]
  constructor
  · rintro ⟨⟨k, present⟩, ⟨hmem, rfl⟩, rfl⟩
    exact hmem
  · intro hmem
    exact ⟨_, ⟨hmem, rfl⟩, rfl⟩

/-- A transaction logs what it changed. -/
theorem Store.Logs.loggedAt (h : s.Logs s') (hxlog : Sorted s'.xlog)
    (hbefore : past s.sequence = s.edges) (hafter : past (s.sequence + 1) = s'.edges) :
    LoggedAt past edgeType s' s.sequence := by
  constructor
  · intro entry hentry hsequence
    rw [mem_entriesOf, hsequence] at hentry
    rw [statesOf, hafter]
    exact h.state _ _ (hxlog.get_of_mem hentry)
  · intro pair hnone
    have hget : get ((⟨edgeType, (ofLex pair).1, (ofLex pair).2⟩ : EdgeKey).logKey (s.sequence + 1))
        s'.xlog = none := by
      rw [SortedMap.get_eq_none_iff]
      rintro ⟨k, present⟩ he rfl
      exact hnone ⟨s.sequence + 1, pair, present⟩ (mem_entriesOf.mpr he) rfl rfl
    rw [statesOf, statesOf, hbefore, hafter, decide_eq_decide]
    exact h.kept _ hget

/-- Later edges and entries do not matter for what was logged. -/
theorem LoggedAt.congr {past' : Nat → Finset EdgeKey} {n : Nat} (h : LoggedAt past edgeType s n)
    (hxlog : ∀ k present, k.edgeType = edgeType → k.sequence = n + 1 →
      ((k, present) ∈ s'.xlog ↔ (k, present) ∈ s.xlog))
    (hbefore : past' n = past n) (hafter : past' (n + 1) = past (n + 1)) :
    LoggedAt past' edgeType s' n := by
  refine Changelog.Logged.congr h (fun entry hsequence => ?_) ?_ ?_
  · rw [mem_entriesOf, mem_entriesOf]
    exact hxlog _ _ rfl hsequence
  · funext pair
    rw [statesOf, statesOf, hbefore]
  · funext pair
    rw [statesOf, statesOf, hafter]

end Commits

/-! ### Payloads -/

/-- The vertices and the sequence are numbers of eight bytes, and the sequence is not the last. -/
structure Fits (s : Store) : Prop where
  sequence : s.sequence < u64Max
  edges : ∀ e ∈ s.edges, e.src < 2 ^ 64 ∧ e.dst < 2 ^ 64

/-- A payload has the edges of a type at a sequence. -/
def PayloadOf (past : Nat → Finset EdgeKey) (edgeType : String) (baseSequence : Nat)
    (value : List UInt8) : Prop :=
  ∃ adjacency lastWalId checksum, Describes edgeType (past baseSequence) adjacency ∧
    Holds value baseSequence lastWalId checksum (compressed adjacency)

variable {past : Nat → Finset EdgeKey} {value : List UInt8} {baseSequence lastWalId checksum : Nat}

/-- A payload that is accepted under some identity expands to the edges it was
written for. -/
theorem PayloadOf.expands (h : PayloadOf past edgeType baseSequence value)
    (hsize : value.length ≤ u64Max) {key : String} {base lastWalId checksum : Nat} {csc : GraphBlasCsc}
    (hok : decodeGraphIndexCsc key value base lastWalId checksum = .ok csc) :
    ∃ adjacency, csc.toAdjacency = .ok adjacency ∧
      Describes edgeType (past baseSequence) adjacency := by
  obtain ⟨adjacency, _, _, hdescribes, hholds⟩ := h
  obtain rfl := Holds.unique hsize (holds_of_decode hsize hok) hholds
  refine ⟨adjacency, ?_, hdescribes⟩
  rw [compressed, toAdjacency_layOut (lists_vertexSet adjacency) hdescribes.sorted,
    hdescribes.filter]

theorem Describes.vertices_lt (h : Describes edgeType edges adjacency)
    (hedges : ∀ e ∈ edges, e.src < 2 ^ 64 ∧ e.dst < 2 ^ 64) : ∀ v ∈ vertexSet adjacency, v < 2 ^ 64 := by
  have hlt : ∀ row ∈ adjacency, ∀ dst ∈ row.2, row.1 < 2 ^ 64 ∧ dst < 2 ^ 64 := by
    intro row hrow dst hdst
    exact hedges _ ((h.mem row.1 dst).mp ((mem_rowOf h.sorted _ _).mpr ⟨row, hrow, rfl, hdst⟩))
  intro v hv
  obtain ⟨row, hrow, rfl | hdst⟩ := mem_vertexSet.mp hv
  · obtain ⟨dst, hdst⟩ := h.nonempty row hrow
    exact (hlt row hrow dst hdst).1
  · exact (hlt row hrow v hdst).2

/-- What is proposed for an adjacency: a generation of its own, and a payload
that holds it. -/
theorem proposeGeneration_spec (h : Describes edgeType edges adjacency)
    (hedges : ∀ e ∈ edges, e.src < 2 ^ 64 ∧ e.dst < 2 ^ 64)
    {proposal : GraphIndexGeneration × List UInt8}
    (hok : proposeGeneration S edgeType baseSequence lastWalId adjacency = .ok proposal) :
    (proposal.1.edgeType = edgeType ∧ proposal.1.baseSequence = baseSequence ∧
      proposal.1.lastWalId = lastWalId ∧ proposal.1.generation = S.digest proposal.2 ∧
        proposal.1.edgeCount = (compressed adjacency).indices.length) ∧
      (baseSequence < 2 ^ 64 → lastWalId < 2 ^ 64 → proposal.2.length ≤ u64Max →
        Holds proposal.2 baseSequence lastWalId proposal.1.checksum (compressed adjacency)) := by
  obtain ⟨csc, hcsc, hok⟩ := Fallible.bind_eq_ok hok
  obtain ⟨_, -, hok⟩ := Fallible.bind_eq_ok hok
  obtain rfl := compressed_of_ok h.sorted hcsc
  cases hok
  refine ⟨⟨rfl, rfl, rfl, rfl, rfl⟩, fun hbase hwal hsize => ?_⟩
  exact {
    written := rfl
    identity := identity_lt ⟨hbase, hwal⟩ _
    words := words_compressed (h.vertices_lt hedges) hsize
    wellFormed := wellFormed_layOut (lists_vertexSet adjacency) (Finset.sortedLT_sort _).pairwise
    checksum_eq := rfl }

/-- A generation has the identity that its payload was written with. -/
def Named (S : IndexSetting) (g : GraphIndexGeneration) : Prop :=
  ∃ value, S.digest value = g.generation ∧ (value.length ≤ u64Max →
    ∃ csc, Holds value g.baseSequence g.lastWalId g.checksum csc ∧ csc.indices.length = g.edgeCount)

/-- Two payloads have one digest. -/
def Collision (S : IndexSetting) : Prop :=
  ∃ value value', S.digest value = S.digest value' ∧ value ≠ value'

/-- The payload at the path of a generation is read, unless it is another with
the same digest. -/
theorem Named.read {g : GraphIndexGeneration} (h : Named S g)
    {payloads : List (PayloadKey × List UInt8)} (hvalue : get g.payloadKey payloads = some value)
    (hdigest : S.digest value = g.generation) (hsize : value.length ≤ u64Max) :
    (∃ csc, graphIndexCsc S payloads g = .ok (some csc)) ∨ Collision S := by
  obtain ⟨written, hwritten, hread⟩ := h
  by_cases heq : written = value
  · subst heq
    obtain ⟨csc, hholds, hcount⟩ := hread hsize
    refine .inl ⟨csc, ?_⟩
    unfold graphIndexCsc
    rw [hvalue]
    dsimp only
    rw [decode_of_holds hsize hholds, Fallible.ok_bind, if_pos hcount]
    rfl
  · exact .inr ⟨written, value, hwritten.trans hdigest.symm, heq⟩

/-- A full build proposes what its snapshot has. -/
theorem buildGraphIndex_spec {snapshot : Store} (h : snapshot.Past snapshot.sequence)
    {proposal : GraphIndexGeneration × List UInt8}
    (hok : buildGraphIndex S edgeType lastWalId snapshot = .ok proposal) :
    ∃ adjacency, Describes edgeType snapshot.edges adjacency ∧
      proposeGeneration S edgeType snapshot.sequence lastWalId adjacency = .ok proposal := by
  obtain ⟨adjacency, hadjacency, hok⟩ := Fallible.bind_eq_ok hok
  exact ⟨adjacency, h.canonicalAdjacency hadjacency, hok⟩

/-- What is read behind a generation: the edges of its type at its sequence. -/
theorem graphIndexCsc_spec {payloads : List (PayloadKey × List UInt8)} {g : GraphIndexGeneration}
    (hpayloads : ∀ value, get g.payloadKey payloads = some value →
      PayloadOf past g.edgeType g.baseSequence value ∧ value.length ≤ u64Max)
    {csc : GraphBlasCsc} (hok : graphIndexCsc S payloads g = .ok (some csc)) :
    ∃ adjacency, csc.toAdjacency = .ok adjacency ∧
      Describes g.edgeType (past g.baseSequence) adjacency := by
  unfold graphIndexCsc at hok
  split at hok
  · cases hok
  · rename_i value hvalue
    obtain ⟨csc', hcsc, hok⟩ := Fallible.bind_eq_ok hok
    split at hok
    · cases hok
      obtain ⟨hpayload, hsize⟩ := hpayloads value hvalue
      exact hpayload.expands hsize hcsc
    · cases hok

/-- A patch that proposes something proposes what its snapshot has, and it does
where the payload is read and a full build would not be refused. -/
theorem patchGraphIndex_spec {snapshot : Store} {payloads : List (PayloadKey × List UInt8)}
    {previous : GraphIndexGeneration} (hxlog : Sorted snapshot.xlog)
    (hsnapshot : past snapshot.sequence = snapshot.edges) (htype : previous.edgeType = edgeType)
    (hlater : previous.baseSequence < snapshot.sequence) (hfits : Fits snapshot)
    (hcovered : ∀ overlay, snapshot.xlogDeltaSince edgeType previous.baseSequence snapshot.sequence =
      .complete overlay → Covered past edgeType previous.baseSequence snapshot)
    (hpayloads : ∀ value, get previous.payloadKey payloads = some value →
      PayloadOf past previous.edgeType previous.baseSequence value ∧ value.length ≤ u64Max) :
    patchGraphIndex S payloads edgeType lastWalId snapshot previous = .ok .declined ∨
      (∃ e, graphIndexCsc S payloads previous = .error e ∧
        patchGraphIndex S payloads edgeType lastWalId snapshot previous = .error e) ∨
      ∃ adjacency deltaEdges, Describes edgeType snapshot.edges adjacency ∧
        patchGraphIndex S payloads edgeType lastWalId snapshot previous =
          (proposeGeneration S edgeType snapshot.sequence lastWalId adjacency).map fun proposal =>
            .proposed proposal.1 proposal.2 deltaEdges := by
  unfold patchGraphIndex
  cases hdelta : snapshot.xlogDeltaSince edgeType previous.baseSequence snapshot.sequence with
  | uninitialized => exact .inl rfl
  | coverageGap low => exact .inl rfl
  | complete overlay =>
      cases hcsc : graphIndexCsc S payloads previous with
      | error e => exact .inr (.inl ⟨e, rfl, rfl⟩)
      | ok read =>
          cases read with
          | none => exact .inl rfl
          | some csc =>
              obtain ⟨adjacency, hadjacency, hdescribes⟩ := graphIndexCsc_spec hpayloads hcsc
              rw [htype] at hdescribes
              have hpatched := hdescribes.patched hxlog hlater hfits.sequence (hcovered overlay hdelta) hdelta
              rw [hsnapshot] at hpatched
              refine .inr (.inr ⟨applyOverlay adjacency overlay, overlay.length, hpatched, ?_⟩)
              dsimp only [Fallible.ok_bind]
              rw [hadjacency, Fallible.ok_bind]
              cases proposeGeneration S edgeType snapshot.sequence lastWalId
                (applyOverlay adjacency overlay) with
              | error e => rfl
              | ok proposal => rfl

end ContextMemory.Topology
