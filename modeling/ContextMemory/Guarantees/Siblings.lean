/-
The neighbors that the third phase adds.

A neighbor has a row for each of its anchors, and the loop keeps the best pairing of those that
clear their own bar (`KeepsBest`). What is selected are the best neighbors by it, and the order of
the rows decides between equal scores alone (`siblings_exact`).
-/

import ContextMemory.Lib.Top
import ContextMemory.Retrieval.Engine

namespace ContextMemory

/-! ### The best pairing -/

/-- A pairing clears the bar that its anchor sets. -/
def SiblingRow.Clears (config : RetrievalConfig) (row : SiblingRow) : Prop :=
  config.siblingRelevanceRatio * (1 - row.anchorQueryDistance) < row.score config

instance (config : RetrievalConfig) (row : SiblingRow) : Decidable (row.Clears config) :=
  inferInstanceAs (Decidable (_ < _))

/-- The pairings of a neighbor that clear their bars. -/
def pairings (config : RetrievalConfig) (rows : List SiblingRow) (factId : String) :
    List SiblingRow :=
  rows.filter fun row => row.subjectId = factId ∧ row.Clears config

/-- The neighbors that have such a pairing. -/
def eligible (config : RetrievalConfig) (rows : List SiblingRow) : List String :=
  ((rows.filter fun row => row.Clears config).map SiblingRow.subjectId).eraseDups

/-- The highest score among the pairings of a neighbor. -/
def bestScore (config : RetrievalConfig) (rows : List SiblingRow) (factId : String) : Rat :=
  ((pairings config rows factId).map (SiblingRow.score config)).max?.getD 0

/-- A pairing that no other of its neighbor surpasses. -/
def IsBest (config : RetrievalConfig) (rows : List SiblingRow) (row : SiblingRow) : Prop :=
  row ∈ pairings config rows row.subjectId ∧
    ∀ other ∈ pairings config rows row.subjectId, other.score config ≤ row.score config

section Pairings

variable {config : RetrievalConfig} {rows rows' : List SiblingRow} {row : SiblingRow}
  {factId : String}

theorem mem_pairings : row ∈ pairings config rows factId ↔
    row ∈ rows ∧ row.subjectId = factId ∧ row.Clears config := by
  rw [pairings, List.mem_filter, decide_eq_true_iff]

/-- A neighbor is eligible exactly if one of its pairings clears the bar. -/
theorem mem_eligible : factId ∈ eligible config rows ↔ ∃ row, row ∈ pairings config rows factId := by
  rw [eligible, List.mem_eraseDups, List.mem_map]
  constructor
  · rintro ⟨row, hrow, rfl⟩
    obtain ⟨hmem, hclears⟩ := List.mem_filter.mp hrow
    exact ⟨row, mem_pairings.mpr ⟨hmem, rfl, of_decide_eq_true hclears⟩⟩
  · rintro ⟨row, hrow⟩
    obtain ⟨hmem, hid, hclears⟩ := mem_pairings.mp hrow
    exact ⟨row, List.mem_filter.mpr ⟨hmem, decide_eq_true hclears⟩, hid⟩

theorem nodup_eligible : (eligible config rows).Nodup := Ordered.nodup_eraseDups _

/-- The best pairing of a neighbor has its best score. The kept score is a
maximum over the pairings, whichever comes first. -/
theorem IsBest.score_eq (h : IsBest config rows row) :
    bestScore config rows row.subjectId = row.score config := by
  have hmax : ((pairings config rows row.subjectId).map (SiblingRow.score config)).max? =
      some (row.score config) := by
    rw [List.max?_eq_some_iff]
    refine ⟨List.mem_map_of_mem h.1, fun score hscore => ?_⟩
    obtain ⟨other, hother, rfl⟩ := List.mem_map.mp hscore
    exact h.2 other hother
  rw [bestScore, hmax, Option.getD_some]

/-- A best pairing is one in every order of the rows. -/
theorem IsBest.perm (h : IsBest config rows row) (hperm : rows.Perm rows') :
    IsBest config rows' row := by
  have hpairings : ∀ {other}, other ∈ pairings config rows' row.subjectId ↔
      other ∈ pairings config rows row.subjectId := fun {other} => by
    rw [mem_pairings, mem_pairings, hperm.mem_iff]
  exact ⟨hpairings.mpr h.1, fun other hother => h.2 other (hpairings.mp hother)⟩

end Pairings

/-! ### The loop -/

/-- What the loop holds after some rows. -/
structure KeepsBest (config : RetrievalConfig) (rows : List SiblingRow)
    (best : List BestSibling) : Prop where
  distinct : (best.map BestSibling.factId).Nodup
  isBest : ∀ sibling ∈ best, ∃ row, IsBest config rows row ∧
    sibling = ⟨row.subjectId, row.score config, row.rawText⟩
  complete : ∀ factId ∈ eligible config rows, factId ∈ best.map BestSibling.factId

section Loop

variable {config : RetrievalConfig} {rows : List SiblingRow} {best : List BestSibling}
  {row : SiblingRow}

theorem mem_pairings_append {other : SiblingRow} {factId : String} :
    other ∈ pairings config (rows ++ [row]) factId ↔ other ∈ pairings config rows factId ∨
      (other = row ∧ row.subjectId = factId ∧ row.Clears config) := by
  simp only [mem_pairings, List.mem_append, List.mem_singleton]
  constructor
  · rintro ⟨hmem | rfl, hrest⟩
    · exact Or.inl ⟨hmem, hrest⟩
    · exact Or.inr ⟨rfl, hrest⟩
  · rintro (⟨hmem, hrest⟩ | ⟨rfl, hrest⟩)
    · exact ⟨Or.inl hmem, hrest⟩
    · exact ⟨Or.inr rfl, hrest⟩

/-- A best pairing stays one if the new row does not surpass it. -/
theorem IsBest.append {old : SiblingRow} (h : IsBest config rows old)
    (hnew : row.subjectId = old.subjectId → row.Clears config →
      row.score config ≤ old.score config) : IsBest config (rows ++ [row]) old := by
  refine ⟨mem_pairings_append.mpr (Or.inl h.1), fun other hother => ?_⟩
  rcases mem_pairings_append.mp hother with hother | ⟨rfl, hid, hclears⟩
  · exact h.2 other hother
  · exact hnew hid hclears

/-- The new row is the best pairing if it surpasses the others. -/
theorem isBest_new (hclears : row.Clears config)
    (hbest : ∀ other ∈ pairings config rows row.subjectId, other.score config ≤ row.score config) :
    IsBest config (rows ++ [row]) row := by
  refine ⟨mem_pairings_append.mpr (Or.inr ⟨rfl, rfl, hclears⟩), fun other hother => ?_⟩
  rcases mem_pairings_append.mp hother with hother | ⟨rfl, -, -⟩
  · exact hbest other hother
  · exact le_rfl

/-- One more row makes at most its own neighbor eligible. -/
theorem eligible_append {factId : String} (h : factId ∈ eligible config (rows ++ [row])) :
    factId ∈ eligible config rows ∨ (factId = row.subjectId ∧ row.Clears config) := by
  obtain ⟨other, hother⟩ := mem_eligible.mp h
  rcases mem_pairings_append.mp hother with hother | ⟨-, hid, hclears⟩
  · exact Or.inl (mem_eligible.mpr ⟨other, hother⟩)
  · exact Or.inr ⟨hid.symm, hclears⟩

/-- A row that surpasses what is held for its neighbor is written. -/
theorem KeepsBest.write (h : KeepsBest config rows best) (hclears : row.Clears config)
    (hbest : ∀ other ∈ pairings config rows row.subjectId, other.score config ≤ row.score config) :
    KeepsBest config (rows ++ [row])
      (Ordered.upsert BestSibling.factId ⟨row.subjectId, row.score config, row.rawText⟩ best) where
  distinct := Ordered.nodup_upsert h.distinct
  isBest sibling hsibling := by
    rcases (Ordered.mem_upsert_iff h.distinct).mp hsibling with rfl | ⟨hmem, hne⟩
    · exact ⟨row, isBest_new hclears hbest, rfl⟩
    · obtain ⟨old, hold, rfl⟩ := h.isBest sibling hmem
      exact ⟨old, hold.append fun hid => absurd hid.symm hne, rfl⟩
  complete factId hfact := by
    rw [Ordered.mem_keys_upsert]
    rcases eligible_append hfact with hold | ⟨rfl, -⟩
    · exact Or.inr (h.complete factId hold)
    · exact Or.inl rfl

/-- A row that surpasses nothing is left. -/
theorem KeepsBest.skip (h : KeepsBest config rows best)
    (hheld : row.Clears config → ∃ old ∈ best, old.factId = row.subjectId ∧
      row.score config ≤ old.score) : KeepsBest config (rows ++ [row]) best where
  distinct := h.distinct
  isBest sibling hsibling := by
    obtain ⟨kept, hkept, rfl⟩ := h.isBest sibling hsibling
    refine ⟨kept, hkept.append fun hid hclears => ?_, rfl⟩
    obtain ⟨old, hold, hsame, hle⟩ := hheld hclears
    rwa [List.inj_on_of_nodup_map h.distinct hold hsibling (hsame.trans hid)] at hle
  complete factId hfact := by
    rcases eligible_append hfact with hold | ⟨rfl, hclears⟩
    · exact h.complete factId hold
    · obtain ⟨old, hold, hsame, -⟩ := hheld hclears
      exact hsame ▸ List.mem_map_of_mem hold

/-- One row. -/
theorem KeepsBest.keepBest (h : KeepsBest config rows best) (row : SiblingRow) :
    KeepsBest config (rows ++ [row]) (keepBest config best row) := by
  unfold ContextMemory.keepBest
  dsimp only
  by_cases hclears : row.Clears config
  · rw [if_neg (not_le.mpr hclears)]
    cases hfind : Ordered.find BestSibling.factId row.subjectId best with
    | none =>
        -- nothing is held for the neighbor, so no earlier pairing of it cleared its bar
        refine h.write hclears fun other hother => ?_
        exact absurd (h.complete _ (mem_eligible.mpr ⟨other, hother⟩)) (Ordered.find_eq_none.mp hfind)
    | some old =>
        obtain ⟨hold, hid⟩ := Ordered.find_eq_some hfind
        dsimp only
        split
        · rename_i hlt
          obtain ⟨kept, hkept, rfl⟩ := h.isBest old hold
          have hsame : kept.subjectId = row.subjectId := hid
          exact h.write hclears fun other hother => (hkept.2 other (hsame ▸ hother)).trans hlt.le
        · rename_i hle
          exact h.skip fun _ => ⟨old, hold, hid, not_lt.mp hle⟩
  · rw [if_pos (not_lt.mp hclears)]
    exact h.skip fun habsurd => absurd habsurd hclears

/-- **The loop.** It ends with the best pairing of every neighbor. -/
theorem keepsBest_foldl (config : RetrievalConfig) (rows : List SiblingRow) :
    KeepsBest config rows (rows.foldl (ContextMemory.keepBest config) []) := by
  induction rows using List.reverseRecOn with
  | nil =>
      refine ⟨List.nodup_nil, ?_, ?_⟩
      · intro sibling hsibling
        cases hsibling
      · intro factId hfact
        cases hfact
  | append_singleton rows row ih =>
      rw [List.foldl_append]
      exact ih.keepBest row

end Loop

/-! ### The selection -/

/-- The best neighbors are selected, each with the text of a best pairing. -/
structure SelectsBest (config : RetrievalConfig) (rows : List SiblingRow)
    (selected : List (String × String)) : Prop where
  top : Ranked.IsTop (bestScore config rows) config.siblingFactLimit.toNat (eligible config rows)
    (selected.map Prod.fst)
  text : ∀ sibling ∈ selected, ∃ row, IsBest config rows row ∧
    sibling = (row.subjectId, row.rawText)

/-- Best pairings with one score are of one neighbor and have one text. -/
def Untied (config : RetrievalConfig) (rows : List SiblingRow) : Prop :=
  ∀ a b, IsBest config rows a → IsBest config rows b → a.score config = b.score config →
    a.subjectId = b.subjectId ∧ a.rawText = b.rawText

section Selection

variable {config : RetrievalConfig} {rows rows' : List SiblingRow}

/-- What is selected is the best of the eligible neighbors, each with the text
of a best pairing of its own. -/
theorem selectSiblings_selectsBest (hlimit : 0 ≤ config.siblingFactLimit)
    (rows : List SiblingRow) : SelectsBest config rows (selectSiblings config rows) := by
  have hbest := keepsBest_foldl config rows
  let best := rows.foldl (keepBest config) []
  let ranked := best.mergeSort fun a b => decide (b.score ≤ a.score)
  have hselected : selectSiblings config rows =
      (ranked.take config.siblingFactLimit.toNat).map fun x => (x.factId, x.text) := by
    rw [selectSiblings, pyTake, if_pos hlimit]
  have hsorted : ranked.Pairwise fun a b => decide (b.score ≤ a.score) = true := by
    apply List.pairwise_mergeSort
    · intro a b c hab hbc
      exact decide_eq_true ((of_decide_eq_true hbc).trans (of_decide_eq_true hab))
    · intro a b
      rw [Bool.or_eq_true, decide_eq_true_iff, decide_eq_true_iff]
      exact le_total _ _
  have htop : Ranked.IsTop BestSibling.score config.siblingFactLimit.toNat best
      (ranked.take config.siblingFactLimit.toNat) :=
    Ranked.isTop_take (List.mergeSort_perm _ _) (hsorted.imp of_decide_eq_true)
  have hscore : ∀ x ∈ best, bestScore config rows x.factId = x.score := by
    intro x hx
    obtain ⟨row, hrow, rfl⟩ := hbest.isBest x hx
    exact hrow.score_eq
  have hids : (best.map BestSibling.factId).Perm (eligible config rows) := by
    rw [List.perm_ext_iff_of_nodup hbest.distinct nodup_eligible]
    intro factId
    refine ⟨fun hmem => ?_, hbest.complete factId⟩
    obtain ⟨x, hx, rfl⟩ := List.mem_map.mp hmem
    obtain ⟨row, hrow, rfl⟩ := hbest.isBest x hx
    exact mem_eligible.mpr ⟨row, hrow.1⟩
  constructor
  · rw [hselected, List.map_map]
    exact ((htop.congr hscore).map).perm hids
  · intro sibling hsibling
    rw [hselected] at hsibling
    obtain ⟨x, hx, rfl⟩ := List.mem_map.mp hsibling
    obtain ⟨row, hrow, rfl⟩ := hbest.isBest x (htop.mem hx)
    exact ⟨row, hrow, rfl⟩

/-- The eligible neighbors are the same in every order of the rows. -/
theorem eligible_perm (hperm : rows.Perm rows') :
    (eligible config rows).Perm (eligible config rows') := by
  rw [List.perm_ext_iff_of_nodup nodup_eligible nodup_eligible]
  intro factId
  simp only [mem_eligible, mem_pairings, hperm.mem_iff]

/-- An eligible neighbor has a best pairing. -/
theorem exists_isBest {factId : String} (h : factId ∈ eligible config rows) :
    ∃ row, IsBest config rows row ∧ row.subjectId = factId := by
  have hbest := keepsBest_foldl config rows
  obtain ⟨x, hx, rfl⟩ := List.mem_map.mp (hbest.complete factId h)
  obtain ⟨row, hrow, rfl⟩ := hbest.isBest x hx
  exact ⟨row, hrow, rfl⟩

/-- Its best score does not depend on the order of the rows. -/
theorem bestScore_perm (hperm : rows.Perm rows') {factId : String}
    (h : factId ∈ eligible config rows) :
    bestScore config rows factId = bestScore config rows' factId := by
  obtain ⟨row, hrow, rfl⟩ := exists_isBest h
  exact hrow.score_eq.trans (hrow.perm hperm).score_eq.symm

/-- Without ties, a score belongs to one neighbor. -/
theorem Untied.injective (h : Untied config rows) {a b : String} (ha : a ∈ eligible config rows)
    (hb : b ∈ eligible config rows) (hsame : bestScore config rows a = bestScore config rows b) :
    a = b := by
  obtain ⟨row, hrow, rfl⟩ := exists_isBest ha
  obtain ⟨other, hother, rfl⟩ := exists_isBest hb
  rw [hrow.score_eq, hother.score_eq] at hsame
  exact (h row other hrow hother hsame).1

/-- **Neighboring turns.** The selected neighbors are the best of those that
have a pairing above its bar. Rows in another order select neighbors of the same
scores, and the same ones if no best pairings of two neighbors tie. A neighbor
may be paired with several of the ranked facts, and its best pairing counts. -/
theorem siblings_exact (config : RetrievalConfig) (hlimit : 0 ≤ config.siblingFactLimit)
    (rows : List SiblingRow) :
    SelectsBest config rows (selectSiblings config rows) ∧
      ∀ rows', rows'.Perm rows →
        (selectSiblings config rows').map (fun sibling => bestScore config rows sibling.1) =
            (selectSiblings config rows).map (fun sibling => bestScore config rows sibling.1) ∧
          (Untied config rows → selectSiblings config rows' = selectSiblings config rows) := by
  have h := selectSiblings_selectsBest hlimit rows
  refine ⟨h, fun rows' hperm => ?_⟩
  have h' := selectSiblings_selectsBest hlimit rows'
  have heligible : (eligible config rows').Perm (eligible config rows) := eligible_perm hperm
  have htop' : Ranked.IsTop (bestScore config rows) config.siblingFactLimit.toNat
      (eligible config rows') ((selectSiblings config rows').map Prod.fst) :=
    h'.top.congr fun factId hmem => (bestScore_perm hperm hmem).symm
  constructor
  · have hscores := htop'.scores_eq h.top heligible
    rwa [List.map_map, List.map_map] at hscores
  · intro huntied
    have hids : (selectSiblings config rows').map Prod.fst =
        (selectSiblings config rows).map Prod.fst := by
      refine htop'.eq_of_injective h.top heligible fun a ha b hb hsame => ?_
      exact huntied.injective (heligible.mem_iff.mp ha) (heligible.mem_iff.mp hb) hsame
    refine Ranked.eq_of_map_eq hids fun sibling hsibling sibling' hsibling' hid => ?_
    obtain ⟨row, hrow, rfl⟩ := h'.text sibling hsibling
    obtain ⟨other, hother, rfl⟩ := h.text sibling' hsibling'
    have hrow := hrow.perm hperm
    have hsame : row.score config = other.score config := by
      rw [← hrow.score_eq, ← hother.score_eq]
      exact congrArg _ hid
    obtain ⟨-, htext⟩ := huntied row other hrow hother hsame
    exact Prod.ext hid htext

end Selection

/-- A neighbor that clears the bar of one of two anchors, and one that clears none. -/
def marketRows : List SiblingRow :=
  [⟨"fact-relevant", "User sold 20 potted herb plants", 1 / 10, 7 / 20, 3 / 10⟩,
    ⟨"fact-unrelated", "The weather was nice that day", 2 / 5, 17 / 20, 1 / 20⟩,
    ⟨"fact-relevant", "User sold 20 potted herb plants", 2 / 5, 7 / 20, 1 / 20⟩]

/-- A neighbor that clears the bar of one of two anchors, and one that clears
none. The first one is selected, whatever the order of the rows. -/
theorem siblings_exact_market :
    selectSiblings {} marketRows = [("fact-relevant", "User sold 20 potted herb plants")] ∧
      SelectsBest {} marketRows (selectSiblings {} marketRows) ∧
      ∀ rows', rows'.Perm marketRows →
        (selectSiblings {} rows').map (fun sibling => bestScore {} marketRows sibling.1) =
            (selectSiblings {} marketRows).map (fun sibling => bestScore {} marketRows sibling.1) ∧
          (Untied {} marketRows → selectSiblings {} rows' = selectSiblings {} marketRows) :=
  ⟨by decide +kernel, siblings_exact {} (by decide) marketRows⟩

end ContextMemory
