/-
Phase 3 of `retrieval.py` in closed form.

The rank of a fact in a channel is the number of facts in front of it there, plus one
(`channelRank_eq`), and its composite score is a sum of four terms, one for each channel it has a
rank in (`weight`). The ranking is the facts by weight (`rank_eq`), unless a division by zero ends
the request (`rank_raises`).
-/

import ContextMemory.Lib.Ranked
import ContextMemory.Retrieval.Engine

namespace ContextMemory

/-! ### What is only shown -/

/-- A fact without what is only shown to the reader. -/
def ScoredFact.bare (fact : ScoredFact) : ScoredFact :=
  { fact with text := "", speaker := none, observedAt := none }

theorem bares_refresh (kept : List RawNode) (seeds : List ScoredFact) :
    (kept.foldl refreshSeeds seeds).map ScoredFact.bare = seeds.map ScoredFact.bare := by
  induction kept generalizing seeds with
  | nil => rfl
  | cons node rest ih =>
      rw [List.foldl_cons, ih, refreshSeeds, List.map_map]
      refine List.map_congr_left fun fact _ => ?_
      dsimp only [Function.comp]
      split <;> rfl

/-- The expansion keeps some of the seeds, in their order. -/
theorem bares_prune (kept : List RawNode) (seeds : List ScoredFact) :
    ((Expander.prune kept seeds).map ScoredFact.bare).Sublist (seeds.map ScoredFact.bare) := by
  rw [← bares_refresh kept seeds]
  exact List.filter_sublist.map _

theorem bares_expand {e : Expander} {config : RetrievalConfig} {contextId : String}
    {seeds facts : List ScoredFact} {bounds : DateRange} {query : DateTime} {data : List GraphDatum}
    (h : e.expand config contextId seeds bounds query = .ok (facts, data)) :
    (facts.map ScoredFact.bare).Sublist (seeds.map ScoredFact.bare) := by
  rcases Expander.expand_eq_ok h with ⟨-, rfl⟩ | ⟨kept, -, rfl, -⟩
  · exact List.nil_sublist _
  · exact bares_prune kept seeds

theorem RetrievalEngine.bares_fillTexts (engine : RetrievalEngine) (contextId : String)
    (facts : List ScoredFact) :
    (engine.fillTexts contextId facts).map ScoredFact.bare = facts.map ScoredFact.bare := by
  have hfold : ∀ (rows : List (String × String)) (facts : List ScoredFact),
      (rows.foldl (fun facts row => facts.map fun fact =>
        if fact.factId = row.1 then { fact with text := row.2 } else fact) facts).map
          ScoredFact.bare = facts.map ScoredFact.bare := by
    intro rows
    induction rows with
    | nil => exact fun _ => rfl
    | cons row rest ih =>
        intro facts
        rw [List.foldl_cons, ih, List.map_map]
        refine List.map_congr_left fun fact _ => ?_
        dsimp only [Function.comp]
        split <;> rfl
  unfold fillTexts
  dsimp only
  split
  · rfl
  · split
    · rfl
    · exact hfold _ _

section Bare

variable {config : RetrievalConfig}

theorem scoreFact_bare (casefold : String → String) (terms : List String) (data : List GraphDatum)
    (fact : ScoredFact) : scoreFact config casefold terms data fact.bare =
      (scoreFact config casefold terms data fact).map ScoredFact.bare := by
  unfold scoreFact
  dsimp only [ScoredFact.bare]
  split <;> rfl

theorem channelRank_bare {score : ScoredFact → Rat} (hscore : ∀ fact, score fact.bare = score fact)
    (facts : List ScoredFact) (factId : String) :
    channelRank score (facts.map ScoredFact.bare) factId = channelRank score facts factId := by
  have hkept : (facts.map ScoredFact.bare).filter (fun fact => 0 < score fact) =
      (facts.filter fun fact => 0 < score fact).map ScoredFact.bare := by
    rw [List.filter_map]
    simp only [Function.comp_def, hscore]
  have hsorted : ((facts.filter fun fact => 0 < score fact).mergeSort
        fun a b => decide (score b ≤ score a)).map ScoredFact.bare =
      ((facts.filter fun fact => 0 < score fact).map ScoredFact.bare).mergeSort
        fun a b => decide (score b ≤ score a) :=
    List.map_mergeSort fun a _ b _ => by rw [hscore, hscore]
  unfold channelRank
  dsimp only
  rw [hkept, ← hsorted, List.findIdx?_map]
  rfl

theorem fuse_bare (facts : List ScoredFact) (fact : ScoredFact) :
    fuse config (facts.map ScoredFact.bare) fact.bare =
      (fuse config facts fact).map ScoredFact.bare := by
  unfold fuse
  rw [channelRank_bare fun _ => rfl, channelRank_bare fun _ => rfl]
  change (do
    let semantic ← rrfTerm config fact.semanticRank
    let keyword ← rrfTerm config fact.keywordRank
    let structural ← rrfTerm config (channelRank ScoredFact.structuralScore facts fact.factId)
    let entity ← rrfTerm config (channelRank ScoredFact.entityBoost facts fact.factId)
    pure { fact.bare with compositeScore := semantic + keyword + structural + entity }) = _
  rcases rrfTerm config fact.semanticRank with _ | _
  · rfl
  rcases rrfTerm config fact.keywordRank with _ | _
  · rfl
  rcases rrfTerm config (channelRank ScoredFact.structuralScore facts fact.factId) with _ | _
  · rfl
  rcases rrfTerm config (channelRank ScoredFact.entityBoost facts fact.factId) with _ | _
  · rfl
  · rfl

/-- The ranking does not look at what is only shown. -/
theorem RetrievalEngine.rank_bare (engine : RetrievalEngine) (question : String)
    (facts : List ScoredFact) (data : List GraphDatum) (expanded : QueryRewriterOutput) :
    engine.rank question (facts.map ScoredFact.bare) data expanded =
      (engine.rank question facts data expanded).map (List.map ScoredFact.bare) := by
  unfold rank
  dsimp only
  rw [Fallible.mapM_comm (scoreFact_bare _ _ _)]
  rcases facts.mapM (scoreFact engine.config engine.casefold
    (queryEntityTerms engine.casefold question expanded) data) with error | scored
  · rfl
  change ((scored.map ScoredFact.bare).mapM (fuse engine.config (scored.map ScoredFact.bare)) >>=
    _) = Except.map _ (scored.mapM (fuse engine.config scored) >>= _)
  rw [Fallible.mapM_comm (fuse_bare scored)]
  rcases scored.mapM (fuse engine.config scored) with error | fused
  · rfl
  · refine congrArg Except.ok (Eq.symm ?_)
    exact List.map_mergeSort fun _ _ _ _ => rfl

end Bare

/-! ### Orders by a score -/

/-- The better score first. -/
def byScore {α : Type} (score : α → Rat) (a b : α) : Bool := decide (score b ≤ score a)

theorem byScore_trans {α : Type} (score : α → Rat) (a b c : α) (hab : byScore score a b = true)
    (hbc : byScore score b c = true) : byScore score a c = true := by
  simp only [byScore, decide_eq_true_eq] at *
  exact hbc.trans hab

theorem byScore_total {α : Type} (score : α → Rat) (a b : α) :
    (byScore score a b || byScore score b a) = true := by
  simp only [byScore, Bool.or_eq_true, decide_eq_true_eq]
  exact le_total _ _

/-- The rank of a fact in a channel, by counting. -/
def channelPlace (score : ScoredFact → Rat) (facts : List ScoredFact) (fact : ScoredFact) :
    Option Nat :=
  if 0 < score fact then some (Ranked.place (byScore score) facts fact + 1) else none

theorem nodup_of_ids {facts : List ScoredFact} (h : (facts.map ScoredFact.factId).Nodup) :
    facts.Nodup := List.Nodup.of_map _ h

/-- Searching for the id of a member finds the member. -/
theorem findIdx?_id {facts : List ScoredFact} (hids : (facts.map ScoredFact.factId).Nodup)
    {fact : ScoredFact} (hfact : fact ∈ facts) :
    facts.findIdx? (fun other => other.factId = fact.factId) = some (facts.idxOf fact) := by
  have hlt : facts.idxOf fact < facts.length := List.idxOf_lt_length_of_mem hfact
  rw [List.findIdx?_eq_some_iff_getElem]
  refine ⟨hlt, by rw [List.getElem_idxOf]; simp, fun j hj => ?_⟩
  have hj' : j < facts.length := hj.trans hlt
  simp only [decide_eq_true_eq]
  intro hsame
  have hmember : facts[j] = fact :=
    List.inj_on_of_nodup_map hids (List.getElem_mem hj') hfact hsame
  have hindex := (nodup_of_ids hids).idxOf_getElem j hj'
  rw [hmember] at hindex
  exact absurd hindex (Nat.ne_of_gt hj)

theorem channelRank_eq (score : ScoredFact → Rat) {facts : List ScoredFact}
    (hids : (facts.map ScoredFact.factId).Nodup) {fact : ScoredFact} (hfact : fact ∈ facts) :
    channelRank score facts fact.factId = channelPlace score facts fact := by
  have hpart : (facts.filter fun other => 0 < score other).Sublist facts := List.filter_sublist
  have hids' := hids.sublist (hpart.map ScoredFact.factId)
  have hperm := List.mergeSort_perm (facts.filter fun other => 0 < score other) (byScore score)
  have hsorted : ((((facts.filter fun other => 0 < score other).mergeSort (byScore score)).map
      ScoredFact.factId)).Nodup := (hperm.map _).nodup_iff.mpr hids'
  unfold channelRank channelPlace
  change Option.map _ (((facts.filter fun other => 0 < score other).mergeSort
    (byScore score)).findIdx? fun other => other.factId = fact.factId) = _
  by_cases hpos : 0 < score fact
  · have hmem : fact ∈ facts.filter fun other => 0 < score other := by simp [hfact, hpos]
    rw [if_pos hpos, findIdx?_id hsorted (hperm.mem_iff.mpr hmem),
      Ranked.idxOf_mergeSort (byScore_trans score) (byScore_total score) (nodup_of_ids hids') hmem,
      Ranked.place_filter _ (by simpa using hpos)]
    · rfl
    · intro other hother
      simp only [byScore, decide_eq_true_eq] at hother ⊢
      exact hpos.trans_le hother
  · rw [if_neg hpos, List.findIdx?_eq_none_iff.mpr, Option.map_none]
    intro other hother
    have hother' := List.mem_filter.mp (hperm.mem_iff.mp hother)
    simp only [decide_eq_false_iff_not]
    intro hsame
    rw [List.inj_on_of_nodup_map hids hother'.1 hfact hsame] at hother'
    exact hpos (by simpa using hother'.2)

/-! ### Scores -/

/-- What the graph says of a fact; without an entry, nothing. -/
def datumOf (data : List GraphDatum) (fact : ScoredFact) : GraphDatum :=
  (Ordered.find GraphDatum.factId fact.factId data).getD ⟨fact.factId, none, 1, 0, 0⟩

/-- The structural score of a datum. -/
def structuralScoreOf (config : RetrievalConfig) (datum : GraphDatum) : Rat :=
  1 / (if datum.hopCount = 0 then 1 else (datum.hopCount : Rat)) *
    (min (datum.pathCount : Int) config.structuralPathCap : Int) / config.structuralPathCap

/-- A long token of the entity is one of the terms. -/
def mentionsEntity (casefold : String → String) (terms : List String) (entityKey : Option String) :
    Bool :=
  (longTokens (casefold (afterColon (entityKey.getD "")))).any fun token => decide (token ∈ terms)

/-- The entity boost of a datum. -/
def entityBoostOf (config : RetrievalConfig) (casefold : String → String) (terms : List String)
    (datum : GraphDatum) : Rat :=
  if 0 < datum.entityFactCount ∧ mentionsEntity casefold terms datum.entityKey then
    min (config.entityBoostCap / (max datum.entityFactCount 1 : Nat)) config.entityBoostCap
  else 0

namespace RetrievalEngine

variable (engine : RetrievalEngine) (question : String) (data : List GraphDatum)
  (expanded : QueryRewriterOutput)

/-- A fact with its structural score and its entity boost. -/
def withScores (fact : ScoredFact) : ScoredFact :=
  { fact with
    structuralScore := structuralScoreOf engine.config (datumOf data fact)
    entityBoost := entityBoostOf engine.config engine.casefold
      (queryEntityTerms engine.casefold question expanded) (datumOf data fact) }

/-- The facts as they are fused. -/
def scored (facts : List ScoredFact) : List ScoredFact :=
  facts.map (engine.withScores question data expanded)

theorem scoreFact_eq (hcap : engine.config.structuralPathCap ≠ 0) (fact : ScoredFact) :
    scoreFact engine.config engine.casefold (queryEntityTerms engine.casefold question expanded)
      data fact = .ok (engine.withScores question data expanded fact) := by
  have hne : (engine.config.structuralPathCap : Rat) ≠ 0 := by exact_mod_cast hcap
  unfold scoreFact
  simp only [pyDiv, if_neg hne]
  rfl

theorem ids_scored (facts : List ScoredFact) :
    (engine.scored question data expanded facts).map ScoredFact.factId =
      facts.map ScoredFact.factId := by
  rw [scored, List.map_map]
  rfl

end RetrievalEngine

/-! ### Fusion -/

/-- What one channel adds to the composite score. -/
def rrfWeight (config : RetrievalConfig) : Option Nat → Rat
  | none => 0
  | some rank => 1 / (config.rrfK + rank : Int)

/-- The composite score of a fact among the scored ones. -/
def weight (config : RetrievalConfig) (facts : List ScoredFact) (fact : ScoredFact) : Rat :=
  rrfWeight config fact.semanticRank + rrfWeight config fact.keywordRank +
    rrfWeight config (channelPlace ScoredFact.structuralScore facts fact) +
    rrfWeight config (channelPlace ScoredFact.entityBoost facts fact)

/-- The ranks of a fact in the channels it has one in. -/
def ranksIn (facts : List ScoredFact) (fact : ScoredFact) : List Nat :=
  fact.semanticRank.toList ++ fact.keywordRank.toList ++
    (channelPlace ScoredFact.structuralScore facts fact).toList ++
    (channelPlace ScoredFact.entityBoost facts fact).toList

def ScoredFact.withWeight (config : RetrievalConfig) (facts : List ScoredFact)
    (fact : ScoredFact) : ScoredFact :=
  { fact with compositeScore := weight config facts fact }

/-- Scoring the facts divides by zero. -/
def DividesByZero (config : RetrievalConfig) (scored : List ScoredFact) : Prop :=
  ∃ fact ∈ scored, config.structuralPathCap = 0 ∨
    ∃ rank ∈ ranksIn scored fact, config.rrfK + (rank : Int) = 0

theorem rrfTerm_eq {config : RetrievalConfig} {place : Option Nat}
    (h : ∀ rank ∈ place.toList, config.rrfK + (rank : Int) ≠ 0) :
    rrfTerm config place = .ok (rrfWeight config place) := by
  cases place with
  | none => rfl
  | some rank =>
      have hne : config.rrfK + (rank : Int) ≠ 0 := h rank (by simp)
      exact if_neg (by exact_mod_cast hne)

theorem rrfTerm_raises {config : RetrievalConfig} {place : Option Nat} {rank : Nat}
    (hrank : rank ∈ place.toList) (h : config.rrfK + (rank : Int) = 0) :
    ∃ e, rrfTerm config place = .error e := by
  rw [Option.mem_toList] at hrank
  subst hrank
  exact ⟨_, if_pos (by rw [h]; rfl)⟩

section Fuse

variable {config : RetrievalConfig} {facts : List ScoredFact} {fact : ScoredFact}
  (hids : (facts.map ScoredFact.factId).Nodup) (hfact : fact ∈ facts)

include hids hfact

theorem fuse_eq (h : ∀ rank ∈ ranksIn facts fact, config.rrfK + (rank : Int) ≠ 0) :
    fuse config facts fact = .ok (fact.withWeight config facts) := by
  simp only [ranksIn, List.mem_append, or_imp, forall_and] at h
  obtain ⟨⟨⟨hsemantic, hkeyword⟩, hstructural⟩, hentity⟩ := h
  unfold fuse
  rw [rrfTerm_eq hsemantic, rrfTerm_eq hkeyword, channelRank_eq _ hids hfact,
    rrfTerm_eq hstructural, channelRank_eq _ hids hfact, rrfTerm_eq hentity]
  rfl

theorem fuse_raises {rank : Nat} (hrank : rank ∈ ranksIn facts fact)
    (h : config.rrfK + (rank : Int) = 0) : ∃ e, fuse config facts fact = .error e := by
  cases hfuse : fuse config facts fact with
  | error e => exact ⟨e, rfl⟩
  | ok fused =>
      unfold fuse at hfuse
      obtain ⟨_, hsemantic, hfuse⟩ := Fallible.bind_eq_ok hfuse
      obtain ⟨_, hkeyword, hfuse⟩ := Fallible.bind_eq_ok hfuse
      obtain ⟨_, hstructural, hfuse⟩ := Fallible.bind_eq_ok hfuse
      obtain ⟨_, hentity, -⟩ := Fallible.bind_eq_ok hfuse
      rw [channelRank_eq _ hids hfact] at hstructural hentity
      have hraises : ∀ {place : Option Nat} {x : Rat}, rank ∈ place.toList →
          rrfTerm config place = .ok x → False := by
        intro place x hplace hok
        obtain ⟨e, he⟩ := rrfTerm_raises hplace h
        rw [he] at hok
        cases hok
      simp only [ranksIn, List.mem_append] at hrank
      rcases hrank with ((hrank | hrank) | hrank) | hrank
      · exact (hraises hrank hsemantic).elim
      · exact (hraises hrank hkeyword).elim
      · exact (hraises hrank hstructural).elim
      · exact (hraises hrank hentity).elim

end Fuse

namespace RetrievalEngine

variable {engine : RetrievalEngine} {question : String} {data : List GraphDatum}
  {expanded : QueryRewriterOutput} {facts : List ScoredFact}

/-- **The ranking.** Without a division by zero, the scored facts by weight. -/
theorem rank_eq (hids : (facts.map ScoredFact.factId).Nodup)
    (h : ¬DividesByZero engine.config (engine.scored question data expanded facts)) :
    engine.rank question facts data expanded =
      .ok (((engine.scored question data expanded facts).mergeSort (byScore (weight engine.config
        (engine.scored question data expanded facts)))).map
          (ScoredFact.withWeight engine.config (engine.scored question data expanded facts))) := by
  generalize hscored : engine.scored question data expanded facts = scored at h ⊢
  have hids' : (scored.map ScoredFact.factId).Nodup := by
    rw [← hscored, ids_scored]
    exact hids
  have hscores : facts.mapM (scoreFact engine.config engine.casefold
      (queryEntityTerms engine.casefold question expanded) data) = .ok scored := by
    rw [← hscored]
    refine Fallible.mapM_eq_map fun fact hfact => scoreFact_eq _ _ _ _ ?_ fact
    intro hcap
    refine h ⟨engine.withScores question data expanded fact, ?_, Or.inl hcap⟩
    rw [← hscored]
    exact List.mem_map_of_mem hfact
  have hfused : scored.mapM (fuse engine.config scored) =
      .ok (scored.map (ScoredFact.withWeight engine.config scored)) :=
    Fallible.mapM_eq_map fun fact hfact => fuse_eq hids' hfact fun rank hrank hzero =>
      h ⟨fact, hfact, Or.inr ⟨rank, hrank, hzero⟩⟩
  unfold rank
  simp only [hscores, hfused, Fallible.ok_bind]
  refine congrArg Except.ok (Eq.symm ?_)
  exact List.map_mergeSort fun _ _ _ _ => rfl

/-- With one, nothing is ranked. -/
theorem rank_raises (hids : (facts.map ScoredFact.factId).Nodup)
    (h : DividesByZero engine.config (engine.scored question data expanded facts)) :
    ∃ e, engine.rank question facts data expanded = .error e := by
  cases hrank : engine.rank question facts data expanded with
  | error e => exact ⟨e, rfl⟩
  | ok ranked =>
      obtain ⟨fact, hfact, hzero⟩ := h
      unfold rank at hrank
      obtain ⟨scored, hscored, hrank⟩ := Fallible.bind_eq_ok hrank
      obtain ⟨fused, hfused, -⟩ := Fallible.bind_eq_ok hrank
      by_cases hcap : engine.config.structuralPathCap = 0
      · -- the first score already divides by the cap
        obtain ⟨seed, hseed, -⟩ := List.mem_map.mp hfact
        have hraises : scoreFact engine.config engine.casefold
            (queryEntityTerms engine.casefold question expanded) data seed =
              .error (.provider "ZeroDivisionError") := by
          unfold scoreFact
          simp only [pyDiv, hcap, Int.cast_zero, if_true]
        obtain ⟨e, he⟩ := Fallible.mapM_raises hseed hraises
        rw [he] at hscored
        cases hscored
      · have hsame : scored = engine.scored question data expanded facts := by
          have hall : facts.mapM (scoreFact engine.config engine.casefold
              (queryEntityTerms engine.casefold question expanded) data) =
                .ok (engine.scored question data expanded facts) :=
            Fallible.mapM_eq_map fun seed _ => scoreFact_eq engine question data expanded hcap seed
          rw [hscored] at hall
          exact Except.ok.inj hall
        subst hsame
        obtain ⟨rank, hmem, hrrf⟩ := hzero.resolve_left hcap
        obtain ⟨e, he⟩ := fuse_raises (by rw [ids_scored]; exact hids) hfact hmem hrrf
        obtain ⟨e', he'⟩ := Fallible.mapM_raises hfact he
        rw [he'] at hfused
        cases hfused

end RetrievalEngine

end ContextMemory
