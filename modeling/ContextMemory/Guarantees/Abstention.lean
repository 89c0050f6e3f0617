/-
The decision to abstain.

It looks at the winner of the fusion only: a weak winner hides a strong fact
(`no_false_abstention_iff`), and a winner from the vector search is never weak, since its score is
not the similarity (`abstains_without_evidence_iff`).
-/

import Mathlib.Tactic.Positivity
import ContextMemory.Guarantees.Ranking

namespace ContextMemory

/-! ### Abstention -/

/-- A fact speaks for itself: by its vector, its words or its place in the graph. -/
def Strong (config : RetrievalConfig) (fact : ScoredFact) : Prop :=
  config.abstentionSemanticThreshold ≤ fact.semanticScore ∨
    config.abstentionSemanticThreshold ≤ fact.keywordScore ∨ 0 < fact.structuralScore

instance (config : RetrievalConfig) (fact : ScoredFact) : Decidable (Strong config fact) :=
  inferInstanceAs (Decidable (_ ∨ _ ∨ _))

/-- A fact with a property weighs more than all facts without it, or as much and comes first. -/
def LedBy (config : RetrievalConfig) (scored : List ScoredFact) (p : ScoredFact → Prop) : Prop :=
  ∃ fact ∈ scored, p fact ∧ ∀ other ∈ scored, ¬p other →
    Ranked.InFront (byScore (weight config scored)) scored fact other

instance (config : RetrievalConfig) (scored : List ScoredFact) (p : ScoredFact → Prop)
    [DecidablePred p] : Decidable (LedBy config scored p) :=
  inferInstanceAs (Decidable (∃ fact ∈ scored, p fact ∧ ∀ other ∈ scored, ¬p other →
    Ranked.InFront (byScore (weight config scored)) scored fact other))

section Abstention

variable {engine : RetrievalEngine} {contextId question : String}
  {expanded : QueryRewriterOutput} {facts : List ScoredFact} {data : List GraphDatum} {topK : Int}

/-- A structural score is not negative, whatever the cap. A negative cap divides
by itself, so the score is then that of the hops alone. -/
theorem structuralScoreOf_nonneg (config : RetrievalConfig) (datum : GraphDatum) :
    0 ≤ structuralScoreOf config datum := by
  have hhops : (0 : Rat) ≤ 1 / (if datum.hopCount = 0 then 1 else (datum.hopCount : Rat)) := by
    split
    · norm_num
    · positivity
  unfold structuralScoreOf
  rcases le_or_gt 0 config.structuralPathCap with hcap | hcap
  · have hcount : (0 : Rat) ≤ (min (datum.pathCount : Int) config.structuralPathCap : Int) := by
      exact_mod_cast le_min (Int.natCast_nonneg _) hcap
    have hcap' : (0 : Rat) ≤ config.structuralPathCap := by exact_mod_cast hcap
    positivity
  · -- a negative cap is the smaller one, and divides by itself
    have hmin : min (datum.pathCount : Int) config.structuralPathCap = config.structuralPathCap :=
      min_eq_right (hcap.le.trans (Int.natCast_nonneg _))
    have hne : (config.structuralPathCap : Rat) ≠ 0 := by exact_mod_cast hcap.ne
    rw [hmin, mul_div_assoc, div_self hne, mul_one]
    exact hhops

/-- A fact is weak exactly if it fails the three tests of the engine. The last
test is for zero: a structural score is positive or it is nothing. -/
theorem weak_iff {config : RetrievalConfig} {fact : ScoredFact} (h : 0 ≤ fact.structuralScore) :
    ¬Strong config fact ↔ fact.semanticScore < config.abstentionSemanticThreshold ∧
      fact.keywordScore < config.abstentionSemanticThreshold ∧ fact.structuralScore = 0 := by
  simp only [Strong, not_or, not_le, not_lt]
  exact and_congr_right fun _ => and_congr_right fun _ => ⟨fun hle => le_antisymm hle h, le_of_eq⟩

/-- **Abstention.** The engine abstains exactly if a weak fact leads, or there
is none at all. What the reader would say does not come into it: the check is
made before the reader is asked. -/
theorem synthesize_abstains_iff (hids : (facts.map ScoredFact.factId).Nodup) {message : String} :
    engine.synthesize contextId question facts data topK expanded = .ok (.abstained message) ↔
      message = engine.config.abstentionMessage ∧
      ¬DividesByZero engine.config (engine.scored question data expanded facts) ∧
      (facts = [] ∨ LedBy engine.config (engine.scored question data expanded facts)
        fun fact => ¬Strong engine.config fact) := by
  by_cases hzero : DividesByZero engine.config (engine.scored question data expanded facts)
  · obtain ⟨error, herror⟩ := RetrievalEngine.rank_raises hids hzero
    unfold RetrievalEngine.synthesize
    rw [herror]
    constructor
    · intro h
      cases h
    · rintro ⟨-, hnot, -⟩
      exact absurd hzero hnot
  · have hrank := RetrievalEngine.rank_eq hids hzero
    have hnonneg : ∀ fact ∈ engine.scored question data expanded facts, 0 ≤ fact.structuralScore := by
      intro fact hfact
      obtain ⟨seed, -, rfl⟩ := List.mem_map.mp hfact
      exact structuralScoreOf_nonneg _ _
    have hempty : facts = [] ↔ engine.scored question data expanded facts = [] := by
      rw [RetrievalEngine.scored, List.map_eq_nil_iff]
    have hids' : ((engine.scored question data expanded facts).map ScoredFact.factId).Nodup := by
      rw [engine.ids_scored]
      exact hids
    rw [hempty]
    generalize engine.scored question data expanded facts = scored at *
    have hsaid : engine.synthesize contextId question facts data topK expanded =
          .ok (.abstained message) ↔ message = engine.config.abstentionMessage ∧
        abstains engine.config ((scored.mergeSort (byScore (weight engine.config scored))).map
          (ScoredFact.withWeight engine.config scored)) = true := by
      unfold RetrievalEngine.synthesize
      rw [hrank, Fallible.ok_bind]
      split
      · rename_i habstains
        rw [habstains, and_iff_left rfl]
        constructor
        · intro h
          cases h
          rfl
        · rintro rfl
          rfl
      · rename_i hanswers
        constructor
        · intro h
          obtain ⟨answer, -, h⟩ := Fallible.bind_eq_ok h
          cases h
        · rintro ⟨-, habstains⟩
          exact absurd habstains hanswers
    rw [hsaid, and_iff_right hzero]
    refine and_congr_right fun _ => ?_
    unfold LedBy
    rw [← Ranked.head_mergeSort_iff (byScore_trans _) (byScore_total _) (nodup_of_ids hids')]
    cases hsorted : scored.mergeSort (byScore (weight engine.config scored)) with
    | nil =>
        have hnil : scored = [] := by
          have hperm := List.mergeSort_perm scored (byScore (weight engine.config scored))
          rw [hsorted] at hperm
          exact List.nil_perm.mp hperm
        exact ⟨fun _ => Or.inl hnil, fun _ => rfl⟩
    | cons best rest =>
        have hmem : best ∈ scored := List.mem_mergeSort.mp (hsorted ▸ List.mem_cons_self)
        have hne : scored ≠ [] := List.ne_nil_of_mem hmem
        have hweak : abstains engine.config ((best :: rest).map
            (ScoredFact.withWeight engine.config scored)) = true ↔ ¬Strong engine.config best := by
          rw [weak_iff (hnonneg best hmem)]
          simp only [List.map_cons, abstains, decide_eq_true_eq]
          rfl
        rw [hweak]
        constructor
        · exact fun h => Or.inr ⟨best, rest, rfl, h⟩
        · rintro (h | ⟨best', rest', hcons, h⟩)
          · exact absurd h hne
          · cases hcons
            exact h

/-- One of two kinds leads: where there is a fact at all, no fact without the
property leads exactly if one with it does. The head of the sorted facts decides
it. -/
theorem not_ledBy_not_iff {config : RetrievalConfig} {scored : List ScoredFact}
    (hids : (scored.map ScoredFact.factId).Nodup) (hne : scored ≠ []) {p : ScoredFact → Prop} :
    (¬LedBy config scored fun fact => ¬p fact) ↔ LedBy config scored p := by
  unfold LedBy
  rw [← Ranked.head_mergeSort_iff (byScore_trans _) (byScore_total _) (nodup_of_ids hids),
    ← Ranked.head_mergeSort_iff (byScore_trans _) (byScore_total _) (nodup_of_ids hids)]
  cases hsorted : scored.mergeSort (byScore (weight config scored)) with
  | nil =>
      have hperm := List.mergeSort_perm scored (byScore (weight config scored))
      rw [hsorted] at hperm
      exact absurd (List.nil_perm.mp hperm) hne
  | cons best rest => simp

/-- No false abstention: with a strong fact among the retained ones, the engine
does not abstain exactly if scoring divides by zero or a strong fact leads. Only
the fact that wins the fusion is looked at, so a weak fact with an entity boost
in front of a strong one is enough to abstain. The scores are exact fractions
here, and floats in the source. -/
theorem no_false_abstention_iff (engine : RetrievalEngine) (contextId question : String)
    (facts : List ScoredFact) (hids : (facts.map ScoredFact.factId).Nodup) (data : List GraphDatum)
    (topK : Int) (expanded : QueryRewriterOutput) :
    ((∃ fact ∈ engine.scored question data expanded facts, Strong engine.config fact) →
      ∀ message, engine.synthesize contextId question facts data topK expanded ≠
        .ok (.abstained message)) ↔
    ((∃ fact ∈ engine.scored question data expanded facts, Strong engine.config fact) →
      DividesByZero engine.config (engine.scored question data expanded facts) ∨
      LedBy engine.config (engine.scored question data expanded facts) (Strong engine.config)) := by
  refine imp_congr_right fun hstrong => ?_
  obtain ⟨fact, hfact, -⟩ := hstrong
  have hids' : ((engine.scored question data expanded facts).map ScoredFact.factId).Nodup := by
    rw [engine.ids_scored]
    exact hids
  have hne : facts ≠ [] := by
    rintro rfl
    cases hfact
  have hled : (¬LedBy engine.config (engine.scored question data expanded facts)
        fun fact => ¬Strong engine.config fact) ↔
      LedBy engine.config (engine.scored question data expanded facts) (Strong engine.config) :=
    not_ledBy_not_iff hids' (List.ne_nil_of_mem hfact)
  constructor
  · intro h
    by_cases hzero : DividesByZero engine.config (engine.scored question data expanded facts)
    · exact Or.inl hzero
    · refine Or.inr (hled.mp fun hweak => ?_)
      exact h _ ((synthesize_abstains_iff hids).mpr ⟨rfl, hzero, Or.inr hweak⟩)
  · intro h message hsaid
    obtain ⟨-, hzero, hnone | hweak⟩ := (synthesize_abstains_iff hids).mp hsaid
    · exact hne hnone
    · rcases h with h | h
      · exact hzero h
      · exact hled.mpr h hweak

end Abstention

/-- The word found first is a strong one; the other fact is about Max. -/
def wordFacts : List ScoredFact :=
  [{ factId := "lease", text := "", keywordScore := 1 / 2, keywordRank := some 1 },
    { factId := "max", text := "", keywordScore := 1 / 5, keywordRank := some 2 }]

def wordData : List GraphDatum := [⟨"lease", none, 1, 0, 0⟩, ⟨"max", some "entity:max", 1, 0, 1⟩]

/-- The boost of Max wins the fusion, and the engine abstains with a strong fact
behind it. The word that was found first has a keyword score above the
threshold, and is not looked at. -/
theorem false_abstention : ¬∀ (engine : RetrievalEngine) (contextId question : String)
    (facts : List ScoredFact) (data : List GraphDatum) (topK : Int) (expanded : QueryRewriterOutput),
    (facts.map ScoredFact.factId).Nodup →
    (∃ fact ∈ engine.scored question data expanded facts, Strong engine.config fact) →
    ∀ message, engine.synthesize contextId question facts data topK expanded ≠
      .ok (.abstained message) := by
  intro hall
  have hscored : ∃ fact ∈ (searchingEngine [] []).scored "Where does Max live?" wordData ⟨[], []⟩
      wordFacts, Strong {} fact := by
    decide +kernel
  have hled : LedBy {} ((searchingEngine [] []).scored "Where does Max live?" wordData ⟨[], []⟩
      wordFacts) fun fact => ¬Strong {} fact := by
    decide +kernel
  have hzero : ∀ fact ∈ (searchingEngine [] []).scored "Where does Max live?" wordData ⟨[], []⟩
      wordFacts, ¬(({} : RetrievalConfig).structuralPathCap = 0 ∨ ∃ rank ∈ ranksIn
        ((searchingEngine [] []).scored "Where does Max live?" wordData ⟨[], []⟩ wordFacts) fact,
          ({} : RetrievalConfig).rrfK + (rank : Int) = 0) := by
    decide +kernel
  refine hall (searchingEngine [] []) "chat" "Where does Max live?" wordFacts wordData 20 ⟨[], []⟩
    (by decide) hscored _ ((synthesize_abstains_iff (by decide)).mpr ⟨rfl, ?_, Or.inr hled⟩)
  rintro ⟨fact, hfact, h⟩
  exact hzero fact hfact h

/-- Without the graph data there is no boost: the strong fact leads, and the
reader is asked. -/
theorem no_false_abstention_iff_lease :
    (∃ fact ∈ (searchingEngine [] []).scored "Where does Max live?" [] ⟨[], []⟩ wordFacts,
      Strong {} fact) ∧
    ∀ message, (searchingEngine [] []).synthesize "chat" "Where does Max live?" wordFacts [] 20
      ⟨[], []⟩ ≠ .ok (.abstained message) := by
  have hscored : ∃ fact ∈ (searchingEngine [] []).scored "Where does Max live?" [] ⟨[], []⟩
      wordFacts, Strong {} fact := by
    decide +kernel
  have hled : LedBy {} ((searchingEngine [] []).scored "Where does Max live?" [] ⟨[], []⟩
      wordFacts) (Strong {}) := by
    decide +kernel
  exact ⟨hscored, (no_false_abstention_iff (searchingEngine [] []) "chat" "Where does Max live?"
    wordFacts (by decide) [] 20 ⟨[], []⟩).mpr (fun _ => Or.inr hled) hscored⟩

/-! ### Evidence from the vector search -/

/-- No retained fact is similar to the question, found by its words, or on a path. -/
def NoEvidence (config : RetrievalConfig) (rows : List (String × Option Rat))
    (scored : List ScoredFact) : Prop :=
  ∀ fact ∈ scored, (∀ row ∈ rows, row.1 = fact.factId →
      1 - row.2.getD 0 < config.abstentionSemanticThreshold) ∧
    fact.keywordScore < config.abstentionSemanticThreshold ∧ fact.structuralScore = 0

/-- The facts of the vector search score at least a third, and the others nothing. -/
def ScoredBy (rows : List (String × Option Rat)) (fact : ScoredFact) : Prop :=
  (fact.factId ∈ rows.map Prod.fst → 1 / 3 ≤ fact.semanticScore) ∧
    (fact.factId ∉ rows.map Prod.fst → fact.semanticScore = 0)

section Evidence

variable {rows : List (String × Option Rat)}

/-- Numbering the rows of a search keeps what is read off them, their ids among
it. -/
theorem ids_enumerate {α κ : Type} (key : α → κ) (items : List α) :
    (enumerate items).map (fun item => key item.1) = items.map key := by
  rw [enumerate, List.map_map]
  change items.zipIdx.map (key ∘ Prod.fst) = _
  rw [← List.map_map, List.zipIdx_map_fst]

/-- After the vector search the seeds are those that were there before and those
that its rows name. -/
theorem ids_seedSemantic (items : List ((String × Option Rat) × Nat)) (facts : List ScoredFact)
    (factId : String) : factId ∈ (items.foldl seedSemantic facts).map ScoredFact.factId ↔
      factId ∈ facts.map ScoredFact.factId ∨ factId ∈ items.map fun item => item.1.1 := by
  induction items generalizing facts with
  | nil => simp
  | cons item rest ih =>
      obtain ⟨⟨found, distance⟩, position⟩ := item
      have hstep : factId ∈ (seedSemantic facts ((found, distance), position)).map
          ScoredFact.factId ↔ factId = found ∨ factId ∈ facts.map ScoredFact.factId := by
        unfold seedSemantic
        dsimp only
        split
        · rw [Ordered.mem_keys_upsert]
        · rename_i fact hfind
          rw [Ordered.mem_keys_upsert, (Ordered.find_eq_some hfind).2]
      rw [List.foldl_cons, ih, hstep, List.map_cons, List.mem_cons]
      tauto

/-- The transform of a distance in `[0, 2]` is at least a third. So is that of a
missing distance, which counts as zero. -/
theorem third_le {distance : Option Rat} (h : ∀ d, distance = some d → 0 ≤ d ∧ d ≤ 2) :
    1 / 3 ≤ 1 / (1 + distance.getD 0) := by
  have hrange : 0 ≤ distance.getD 0 ∧ distance.getD 0 ≤ 2 := by
    cases distance with
    | none => norm_num
    | some d => exact h d rfl
  exact one_div_le_one_div_of_le (by linarith [hrange.1]) (by linarith [hrange.2])

/-- The facts that the vector search seeds score at least a third, if its rows
have distances in `[0, 2]`. By induction on the rows: a later row of one id can
only raise its score. -/
theorem seedSemantic_score (hrows : ∀ row ∈ rows, ∀ d, row.2 = some d → 0 ≤ d ∧ d ≤ 2) :
    ∀ fact ∈ (enumerate rows).foldl seedSemantic [], 1 / 3 ≤ fact.semanticScore := by
  refine List.foldlRecOn (motive := fun facts : List ScoredFact => ∀ fact ∈ facts,
    1 / 3 ≤ fact.semanticScore) (enumerate rows) seedSemantic (fun fact hfact => by cases hfact) ?_
  intro facts ih item hitem fact hfact
  obtain ⟨⟨factId, distance⟩, position⟩ := item
  have hrow : (factId, distance) ∈ rows := by
    have hmem := List.mem_map_of_mem (f := fun item => item.1) hitem
    rwa [show (fun item : (String × Option Rat) × Nat => item.1) = fun item => id item.1 from rfl,
      ids_enumerate, List.map_id] at hmem
  have hscore := third_le (hrows _ hrow)
  unfold seedSemantic at hfact
  dsimp only at hfact
  split at hfact
  · rcases Ordered.mem_of_mem_upsert hfact with rfl | hold
    · exact hscore
    · exact ih fact hold
  · rcases Ordered.mem_of_mem_upsert hfact with rfl | hold
    · exact hscore.trans (le_max_right _ _)
    · exact ih fact hold

/-- A row of the full-text search does not change what the vector search said.
It sets the keyword score, or seeds a fact whose semantic score is zero. -/
theorem seedKeyword_scoredBy {facts : List ScoredFact}
    (hids : ∀ factId ∈ rows.map Prod.fst, factId ∈ facts.map ScoredFact.factId)
    (h : ∀ fact ∈ facts, ScoredBy rows fact) (item : (String × String × Rat) × Nat) :
    (∀ factId ∈ rows.map Prod.fst, factId ∈ (seedKeyword facts item).map ScoredFact.factId) ∧
      ∀ fact ∈ seedKeyword facts item, ScoredBy rows fact := by
  obtain ⟨⟨found, rawText, rank⟩, position⟩ := item
  unfold seedKeyword
  dsimp only
  split
  · rename_i hfind
    refine ⟨fun factId hid => Ordered.mem_keys_upsert.mpr (Or.inr (hids factId hid)), ?_⟩
    intro fact hfact
    rcases Ordered.mem_of_mem_upsert hfact with rfl | hold
    · exact ⟨fun hid => absurd (hids _ hid) (Ordered.find_eq_none.mp hfind), fun _ => rfl⟩
    · exact h fact hold
  · rename_i seed hfind
    refine ⟨fun factId hid => Ordered.mem_keys_upsert.mpr (Or.inr (hids factId hid)), ?_⟩
    intro fact hfact
    rcases Ordered.mem_of_mem_upsert hfact with rfl | hold
    · exact h seed (Ordered.find_eq_some hfind).1
    · exact h fact hold

/-- All seeds of a request are scored by its vector rows, those of the full-text
search among them. -/
theorem seed_scoredBy {engine : RetrievalEngine} {contextId question : String}
    {expanded : QueryRewriterOutput} {topK : Int} {seeds : List ScoredFact} {vector : List Rat}
    (hembed : engine.embed question = .ok vector)
    (hsearch : engine.semanticRows vector contextId (max (topK * engine.config.overfetchMultiplier)
      engine.config.overfetchFloor) = .ok rows)
    (hrows : ∀ row ∈ rows, ∀ d, row.2 = some d → 0 ≤ d ∧ d ≤ 2)
    (hseed : engine.seed contextId question expanded topK = .ok seeds) :
    ∀ fact ∈ seeds, ScoredBy rows fact := by
  obtain ⟨vector', rows', accepted, hembed', hsearch', rfl⟩ := seed_eq_ok hseed
  obtain rfl : vector = vector' := Except.ok.inj (hembed.symm.trans hembed')
  obtain rfl : rows = rows' := Except.ok.inj (hsearch.symm.trans hsearch')
  have hids : ∀ factId, factId ∈ ((enumerate rows).foldl seedSemantic []).map ScoredFact.factId ↔
      factId ∈ rows.map Prod.fst := by
    intro factId
    rw [ids_seedSemantic, ids_enumerate Prod.fst, List.map_nil]
    simp
  refine (List.foldlRecOn (motive := fun facts : List ScoredFact =>
    (∀ factId ∈ rows.map Prod.fst, factId ∈ facts.map ScoredFact.factId) ∧
      ∀ fact ∈ facts, ScoredBy rows fact) (enumerate accepted) seedKeyword ⟨?_, ?_⟩ ?_).2
  · exact fun factId hid => (hids factId).mpr hid
  · intro fact hfact
    exact ⟨fun _ => seedSemantic_score hrows fact hfact,
      fun hnot => absurd ((hids _).mp (List.mem_map_of_mem hfact)) hnot⟩
  · exact fun facts ih item _ => seedKeyword_scoredBy ih.1 ih.2 item

section Engine

variable {engine : RetrievalEngine} {contextId question : String} {questionDate : DateTime}
  {topK : Option Int} {vector : List Rat} {seeds facts : List ScoredFact} {data : List GraphDatum}
  (hthreshold : engine.config.abstentionSemanticThreshold = 3 / 10)
  (hembed : engine.embed question = .ok vector)
  (hsearch : engine.semanticRows vector contextId (max (topK.getD engine.config.topK *
    engine.config.overfetchMultiplier) engine.config.overfetchFloor) = .ok rows)
  (hrows : ∀ row ∈ rows, ∀ d, row.2 = some d → 0 ≤ d ∧ d ≤ 2)
  (hseed : engine.seed contextId question (rewriteQuery question (engine.rewriterAnswer question))
    (topK.getD engine.config.topK) = .ok seeds)
  (hexpand : engine.expander.expand engine.config contextId seeds
    (resolveTemporal engine.config (engine.temporalAnswer question questionDate)) questionDate =
      .ok (facts, data))

/-- The facts as they are fused in a request. -/
def RetrievalEngine.fusedFacts (engine : RetrievalEngine) (contextId question : String)
    (facts : List ScoredFact) (data : List GraphDatum) : List ScoredFact :=
  engine.scored question data (rewriteQuery question (engine.rewriterAnswer question))
    (engine.fillTexts contextId facts)

include hembed hsearch hrows hseed hexpand

/-- So are the facts that are fused. The expansion drops facts and fills in
texts, and the structural score is another field. -/
theorem fusedFacts_scoredBy : ∀ fact ∈ engine.fusedFacts contextId question facts data,
    ScoredBy rows fact := by
  intro fact hfact
  obtain ⟨seed, hmem, rfl⟩ := List.mem_map.mp hfact
  have hbare : seed.bare ∈ (engine.fillTexts contextId facts).map ScoredFact.bare :=
    List.mem_map_of_mem hmem
  rw [engine.bares_fillTexts] at hbare
  obtain ⟨origin, horigin, hsame⟩ := List.mem_map.mp ((bares_expand hexpand).subset hbare)
  have hscored := seed_scoredBy hembed hsearch hrows hseed origin horigin
  change ScoredBy rows origin.bare at hscored
  rw [hsame] at hscored
  exact hscored

include hthreshold

/-- Without evidence, a fact is strong exactly if the vector search found it. A
third is above the shipped threshold, and nothing is not. -/
theorem strong_iff_found (hnone : NoEvidence engine.config rows
      (engine.fusedFacts contextId question facts data)) {fact : ScoredFact}
    (hfact : fact ∈ engine.fusedFacts contextId question facts data) :
    Strong engine.config fact ↔ fact.factId ∈ rows.map Prod.fst := by
  obtain ⟨hfound, hother⟩ := fusedFacts_scoredBy hembed hsearch hrows hseed hexpand fact hfact
  obtain ⟨-, hkeyword, hstructural⟩ := hnone fact hfact
  constructor
  · intro hstrong
    by_contra hnot
    rcases hstrong with h | h | h
    · rw [hother hnot, hthreshold] at h
      norm_num at h
    · exact absurd hkeyword (not_lt.mpr h)
    · rw [hstructural] at h
      exact lt_irrefl _ h
  · intro hid
    refine Or.inl ?_
    rw [hthreshold]
    exact le_trans (by norm_num) (hfound hid)

/-- A request without evidence abstains exactly if nothing was retained, or a
fact that the vector search did not find leads. The threshold is the shipped
one. -/
theorem retrieve_abstains_iff (hnone : NoEvidence engine.config rows
      (engine.fusedFacts contextId question facts data)) :
    engine.retrieveAndAnswer contextId question questionDate topK =
        .ok (.abstained engine.config.abstentionMessage) ↔
      facts = [] ∨ (¬DividesByZero engine.config (engine.fusedFacts contextId question facts data) ∧
        LedBy engine.config (engine.fusedFacts contextId question facts data)
          fun fact => fact.factId ∉ rows.map Prod.fst) := by
  have hids : ((engine.fillTexts contextId facts).map ScoredFact.factId).Nodup := by
    obtain ⟨n, m, hseeded⟩ := scored_seeded hseed hexpand
    have hnd := hseeded.ids_nodup
    rwa [engine.ids_scored] at hnd
  have hempty : engine.fillTexts contextId facts = [] ↔ facts = [] := by
    have hbares := engine.bares_fillTexts contextId facts
    rw [← List.map_eq_nil_iff (f := ScoredFact.bare), hbares, List.map_eq_nil_iff]
  have hled : (LedBy engine.config (engine.fusedFacts contextId question facts data)
        fun fact => ¬Strong engine.config fact) ↔
      LedBy engine.config (engine.fusedFacts contextId question facts data)
        fun fact => fact.factId ∉ rows.map Prod.fst := by
    have hkind : ∀ fact ∈ engine.fusedFacts contextId question facts data,
        (¬Strong engine.config fact ↔ fact.factId ∉ rows.map Prod.fst) := fun fact hfact =>
      not_congr (strong_iff_found hthreshold hembed hsearch hrows hseed hexpand hnone hfact)
    refine exists_congr fun fact => and_congr_right fun hfact => and_congr (hkind fact hfact) ?_
    exact forall₂_congr fun other hother => imp_congr (not_congr (hkind other hother)) Iff.rfl
  have hrequest : engine.retrieveAndAnswer contextId question questionDate topK =
      engine.synthesize contextId question (engine.fillTexts contextId facts) data
        (topK.getD engine.config.topK) (rewriteQuery question (engine.rewriterAnswer question)) := by
    unfold RetrievalEngine.retrieveAndAnswer
    simp only [hseed, hexpand, Fallible.ok_bind]
  rw [hrequest, synthesize_abstains_iff hids, and_iff_right rfl, hempty]
  change _ ∧ (_ ∨ LedBy engine.config (engine.fusedFacts contextId question facts data) _) ↔ _
  rw [hled]
  constructor
  · rintro ⟨hzero, hnil | hlead⟩
    · exact Or.inl hnil
    · exact Or.inr ⟨hzero, hlead⟩
  · rintro (hnil | ⟨hzero, hlead⟩)
    · refine ⟨?_, Or.inl hnil⟩
      rintro ⟨fact, hfact, -⟩
      rw [RetrievalEngine.scored, hempty.mpr hnil] at hfact
      cases hfact
    · exact ⟨hzero, Or.inr hlead⟩

end Engine

end Evidence

/-- Abstention without evidence: for the shipped threshold, a request whose
retained facts are neither similar to the question nor found by their words nor
on a path abstains exactly if nothing was retained, or nothing is divided by
zero and a fact that the vector search did not find leads. What the vector
search finds scores at least a third, whatever the distance, and the threshold
lies below that. -/
theorem abstains_without_evidence_iff (engine : RetrievalEngine) (contextId question : String)
    (questionDate : DateTime) (topK : Option Int)
    (hthreshold : engine.config.abstentionSemanticThreshold = 3 / 10)
    {vector : List Rat} (hembed : engine.embed question = .ok vector)
    {rows : List (String × Option Rat)}
    (hsearch : engine.semanticRows vector contextId (max (topK.getD engine.config.topK *
      engine.config.overfetchMultiplier) engine.config.overfetchFloor) = .ok rows)
    (hrows : ∀ row ∈ rows, ∀ d, row.2 = some d → 0 ≤ d ∧ d ≤ 2) {seeds : List ScoredFact}
    (hseed : engine.seed contextId question (rewriteQuery question (engine.rewriterAnswer question))
      (topK.getD engine.config.topK) = .ok seeds)
    {facts : List ScoredFact} {data : List GraphDatum}
    (hexpand : engine.expander.expand engine.config contextId seeds
      (resolveTemporal engine.config (engine.temporalAnswer question questionDate)) questionDate =
        .ok (facts, data)) :
    (NoEvidence engine.config rows (engine.fusedFacts contextId question facts data) →
      engine.retrieveAndAnswer contextId question questionDate topK =
        .ok (.abstained engine.config.abstentionMessage)) ↔
    (NoEvidence engine.config rows (engine.fusedFacts contextId question facts data) →
      facts = [] ∨ (¬DividesByZero engine.config (engine.fusedFacts contextId question facts data) ∧
        LedBy engine.config (engine.fusedFacts contextId question facts data)
          fun fact => fact.factId ∉ rows.map Prod.fst)) :=
  imp_congr_right fun hnone =>
    retrieve_abstains_iff hthreshold hembed hsearch hrows hseed hexpand hnone

/-- Filling in texts leaves the facts of such an engine as they are. -/
theorem searchingEngine_fillTexts (semantic : List (String × Option Rat))
    (keyword : List (String × String × Option Rat)) (contextId : String) (facts : List ScoredFact) :
    (searchingEngine semantic keyword).fillTexts contextId facts = facts := by
  unfold RetrievalEngine.fillTexts
  dsimp only
  split <;> rfl

/-- What such a request fuses, where no path is counted: facts of the seeds,
with their keyword scores and without a structural one. -/
theorem fusedFacts_timeless {semantic : List (String × Option Rat)}
    {keyword : List (String × String × Option Rat)} {contextId question : String}
    {seeds facts : List ScoredFact} {data : List GraphDatum}
    (hbares : facts.map ScoredFact.bare = seeds.map ScoredFact.bare)
    (hpaths : ∀ fact ∈ facts, (datumOf data fact).pathCount = 0) {fact : ScoredFact}
    (hfact : fact ∈ (searchingEngine semantic keyword).fusedFacts contextId question facts data) :
    fact.structuralScore = 0 ∧ ∃ seed ∈ seeds, seed.factId = fact.factId ∧
      seed.keywordScore = fact.keywordScore := by
  obtain ⟨kept, hkept, rfl⟩ := List.mem_map.mp hfact
  rw [searchingEngine_fillTexts] at hkept
  refine ⟨?_, ?_⟩
  · change structuralScoreOf _ (datumOf data kept) = 0
    simp [structuralScoreOf, hpaths kept hkept, searchingEngine]
  · have hbare : kept.bare ∈ seeds.map ScoredFact.bare := hbares ▸ List.mem_map_of_mem hkept
    obtain ⟨seed, hseed, heq⟩ := List.mem_map.mp hbare
    have hids : seed.bare.factId = kept.bare.factId := by rw [heq]
    have hscores : seed.bare.keywordScore = kept.bare.keywordScore := by rw [heq]
    exact ⟨seed, hseed, hids, hscores⟩

/-- A fact at a right angle to the question reaches the reader. Its distance is
one, which scores a half. -/
theorem answers_without_evidence : ¬∀ (engine : RetrievalEngine) (contextId question : String)
    (questionDate : DateTime) (topK : Option Int) (vector : List Rat)
    (rows : List (String × Option Rat)) (seeds facts : List ScoredFact) (data : List GraphDatum),
    engine.config.abstentionSemanticThreshold = 3 / 10 → engine.embed question = .ok vector →
    engine.semanticRows vector contextId (max (topK.getD engine.config.topK *
      engine.config.overfetchMultiplier) engine.config.overfetchFloor) = .ok rows →
    (∀ row ∈ rows, ∀ d, row.2 = some d → 0 ≤ d ∧ d ≤ 2) →
    engine.seed contextId question (rewriteQuery question (engine.rewriterAnswer question))
      (topK.getD engine.config.topK) = .ok seeds →
    engine.expander.expand engine.config contextId seeds
      (resolveTemporal engine.config (engine.temporalAnswer question questionDate)) questionDate =
        .ok (facts, data) →
    NoEvidence engine.config rows (engine.fusedFacts contextId question facts data) →
    engine.retrieveAndAnswer contextId question questionDate topK =
      .ok (.abstained engine.config.abstentionMessage) := by
  intro hall
  have hseed := searchingEngine_seed [("boston", some 1)] [] "chat"
    (by decide : searchQuery "Where does Max live?" ⟨["Where does Max live?"], []⟩ ≠ "") 20
  obtain ⟨facts, data, hexpand, hbares, hpaths⟩ := expand_timeless {} "chat"
    ((enumerate [("boston", some 1)]).foldl seedSemantic []) {} ten
  have hdistance : ∀ row ∈ [("boston", some (1 : Rat))], ∀ d, row.2 = some d → 0 ≤ d ∧ d ≤ 2 := by
    intro row hrow d hd
    rw [List.mem_singleton.mp hrow] at hd
    cases hd
    norm_num
  have hseeds : ∀ seed ∈ (enumerate [("boston", some (1 : Rat))]).foldl seedSemantic [],
      seed.factId = "boston" ∧ seed.keywordScore = 0 := by
    decide +kernel
  have hnone : NoEvidence {} [("boston", some 1)]
      ((searchingEngine [("boston", some 1)] []).fusedFacts "chat" "Where does Max live?" facts data) := by
    intro fact hfact
    obtain ⟨hstructural, seed, hmem, -, hkeyword⟩ := fusedFacts_timeless hbares hpaths hfact
    refine ⟨fun row hrow _ => ?_, ?_, hstructural⟩
    · rw [List.mem_singleton.mp hrow]
      norm_num
    · rw [← hkeyword, (hseeds seed hmem).2]
      norm_num
  have hsaid := hall (searchingEngine [("boston", some 1)] []) "chat" "Where does Max live?" ten none
    [1] [("boston", some 1)] _ facts data rfl rfl rfl hdistance hseed hexpand hnone
  have hiff : (searchingEngine [("boston", some 1)] []).retrieveAndAnswer "chat"
      "Where does Max live?" ten none = _ ↔ _ :=
    retrieve_abstains_iff rfl rfl rfl hdistance hseed hexpand hnone
  rcases hiff.mp hsaid with rfl | ⟨-, fact, hfact, hnot, -⟩
  · exact absurd hbares (by decide +kernel)
  · obtain ⟨-, seed, hmem, hid, -⟩ := fusedFacts_timeless hbares hpaths hfact
    rw [← hid, (hseeds seed hmem).1] at hnot
    exact hnot (by decide)

/-- A word that says little is no evidence either, and there the engine
abstains. The vector search returned nothing, so the fact that leads is one it
did not find. -/
theorem abstains_without_evidence_iff_word :
    (searchingEngine [] [("boston", "Max lives in Boston.", some (1 / 5))]).retrieveAndAnswer "chat"
        "Where does Max live?" ten none =
      .ok (.abstained "I don't have that information in my memory.") := by
  have hseed := searchingEngine_seed [] [("boston", "Max lives in Boston.", some (1 / 5))] "chat"
    (by decide : searchQuery "Where does Max live?" ⟨["Where does Max live?"], []⟩ ≠ "") 20
  have hseeds : ∀ seed ∈ (enumerate (acceptedRows [("boston", "Max lives in Boston.",
      some (1 / 5))])).foldl seedKeyword ((enumerate []).foldl seedSemantic []),
        seed.keywordScore < 3 / 10 := by
    decide +kernel
  obtain ⟨facts, data, hexpand, hbares, hpaths⟩ := expand_timeless {} "chat"
    ((enumerate (acceptedRows [("boston", "Max lives in Boston.", some (1 / 5))])).foldl seedKeyword
      ((enumerate []).foldl seedSemantic [])) {} ten
  refine (abstains_without_evidence_iff (searchingEngine [] [("boston", "Max lives in Boston.",
    some (1 / 5))]) "chat" "Where does Max live?" ten none rfl rfl rfl (fun row hrow => by cases hrow)
    hseed hexpand).mpr ?_ ?_
  · intro _
    obtain ⟨n, m, hseeded⟩ := scored_seeded hseed hexpand
    have hzero : ¬DividesByZero {} _ := hseeded.not_dividesByZero (by decide) (by decide)
    cases facts with
    | nil => exact Or.inl rfl
    | cons fact rest =>
        refine Or.inr ⟨hzero, ?_⟩
        obtain ⟨fused, hfused⟩ : ∃ fused, fused ∈ (searchingEngine [] [("boston",
            "Max lives in Boston.", some (1 / 5))]).fusedFacts "chat" "Where does Max live?"
              (fact :: rest) data := by
          rw [RetrievalEngine.fusedFacts, searchingEngine_fillTexts]
          exact ⟨_, List.mem_map_of_mem List.mem_cons_self⟩
        exact ⟨fused, hfused, List.not_mem_nil, fun other _ hother => absurd List.not_mem_nil hother⟩
  · intro fact hfact
    obtain ⟨hstructural, seed, hmem, -, hkeyword⟩ := fusedFacts_timeless hbares hpaths hfact
    refine ⟨fun row hrow _ => absurd hrow List.not_mem_nil, ?_, hstructural⟩
    rw [← hkeyword]
    exact hseeds seed hmem

end ContextMemory
