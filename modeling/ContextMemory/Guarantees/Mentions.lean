/-
Which entities a question is taken to mention.

Names and questions are cut into runs of lower-case ASCII letters and digits, and runs of one or
two characters are dropped. A name that stands in a question as whole words brings its runs with
it, so it is found if it has a run at all that is long enough; but only the entity of a fact's last
row is looked at (`entity_boost_reaches_iff`).
-/

import ContextMemory.Lib.Runs
import ContextMemory.Guarantees.RowOrder
import ContextMemory.Guarantees.Ranking

namespace ContextMemory

open Runs

/-! ### Terms -/

/-- `[a-z0-9]`. -/
def isTokenChar (c : Char) : Bool := ('a' ≤ c && c ≤ 'z') || ('0' ≤ c && c ≤ '9')

/-- A long token is a run of more than two characters. -/
theorem mem_longTokens {text token : String} : token ∈ longTokens text ↔
    2 < token.length ∧ IsRun isTokenChar text.toList token.toList := by
  have hsplit : longTokens text = ((text.toList.splitOnP fun c => !isTokenChar c).map
      String.ofList).filter (2 < ·.length) := rfl
  rw [hsplit, List.mem_filter, and_comm, decide_eq_true_eq]
  refine and_congr_right fun _ => ?_
  rw [← mem_splitOnP_iff, List.mem_map]
  constructor
  · rintro ⟨run, hrun, rfl⟩
    rwa [String.toList_ofList]
  · exact fun h => ⟨_, h, String.ofList_toList⟩

/-- `str.casefold` folds character by character. -/
structure Casefolds (casefold : String → String) : Prop where
  append : ∀ a b, casefold (a ++ b) = casefold a ++ casefold b
  space : casefold " " = " "

/-- The texts that a question is searched in. -/
def queryTexts (question : String) (expanded : QueryRewriterOutput) : List String :=
  question :: (expanded.synonyms ++ expanded.decomposedQueries)

section Terms

variable {casefold : String → String} (hfold : Casefolds casefold)

include hfold

theorem isRun_join (texts : List String) (first : String) (run : List Char) :
    IsRun isTokenChar (casefold (String.intercalate " " (first :: texts))).toList run ↔
      ∃ text ∈ first :: texts, IsRun isTokenChar (casefold text).toList run := by
  induction texts generalizing first with
  | nil => simp [String.intercalate_singleton]
  | cons text rest ih =>
      have hjoin : (casefold (first ++ " " ++ String.intercalate " " (text :: rest))).toList =
          (casefold first).toList ++ ' ' :: (casefold (String.intercalate " " (text :: rest))).toList := by
        rw [hfold.append, hfold.append, hfold.space, String.toList_append, String.toList_append,
          List.append_assoc]
        rfl
      rw [String.intercalate_cons_cons, hjoin,
        isRun_append_cons (by decide : isTokenChar ' ' = false), ih]
      simp only [List.exists_mem_cons_iff]

/-- A term is a run of one of the texts. -/
theorem mem_queryEntityTerms {question token : String} {expanded : QueryRewriterOutput} :
    token ∈ queryEntityTerms casefold question expanded ↔ 2 < token.length ∧
      ∃ text ∈ queryTexts question expanded, IsRun isTokenChar (casefold text).toList token.toList := by
  have hterms : queryEntityTerms casefold question expanded =
      longTokens (casefold (String.intercalate " " (queryTexts question expanded))) := by
    rw [queryEntityTerms, List.append_assoc]
    rfl
  rw [hterms, mem_longTokens, queryTexts, isRun_join hfold]

end Terms

/-! ### Mentions -/

/-- A name stands in a text as a sequence of whole words. -/
def OccursIn (isWord : Char → Bool) (name text : List Char) : Prop :=
  name ≠ [] ∧ ∃ before after, text = before ++ name ++ after ∧
    Runs.Edge isWord before.getLast? ∧ Runs.Edge isWord after.head?

/-- The question mentions the entity with this key. -/
def Mentions (isWord : Char → Bool) (casefold : String → String) (question entityKey : String) :
    Prop :=
  OccursIn isWord (casefold (afterColon entityKey)).toList (casefold question).toList

/-- A long run of the name is a run of the question or of one of its rewritings. -/
def SharesRun (casefold : String → String) (question : String) (expanded : QueryRewriterOutput)
    (entityKey : String) : Prop :=
  ∃ run, 2 < run.length ∧ IsRun isTokenChar (casefold (afterColon entityKey)).toList run ∧
    ∃ text ∈ queryTexts question expanded, IsRun isTokenChar (casefold text).toList run

/-- The name has a long run. -/
def HasLongRun (casefold : String → String) (entityKey : String) : Prop :=
  ∃ run, 2 < run.length ∧ IsRun isTokenChar (casefold (afterColon entityKey)).toList run

section Mentioned

variable {casefold : String → String} {question entityKey : String} {expanded : QueryRewriterOutput}

/-- The gate of the entity boost. -/
theorem mentionsEntity_iff (hfold : Casefolds casefold) :
    mentionsEntity casefold (queryEntityTerms casefold question expanded) (some entityKey) = true ↔
      SharesRun casefold question expanded entityKey := by
  unfold mentionsEntity SharesRun
  rw [Option.getD_some, List.any_eq_true]
  constructor
  · rintro ⟨token, htoken, hterm⟩
    obtain ⟨hlong, hrun⟩ := mem_longTokens.mp htoken
    exact ⟨token.toList, by rwa [String.length_toList], hrun,
      ((mem_queryEntityTerms hfold).mp (of_decide_eq_true hterm)).2⟩
  · rintro ⟨run, hlong, hrun, htext⟩
    have hlength : 2 < (String.ofList run).length := by rwa [String.length_ofList]
    refine ⟨String.ofList run, mem_longTokens.mpr ⟨hlength, by rwa [String.toList_ofList]⟩, ?_⟩
    rw [decide_eq_true_eq]
    exact (mem_queryEntityTerms hfold).mpr ⟨hlength, by rwa [String.toList_ofList]⟩

/-- A mentioned name brings its runs into the question. -/
theorem Mentions.sharesRun_iff {isWord : Char → Bool}
    (hword : ∀ c, isTokenChar c = true → isWord c = true)
    (h : Mentions isWord casefold question entityKey) :
    SharesRun casefold question expanded entityKey ↔ HasLongRun casefold entityKey := by
  have hedge : ∀ {next}, Runs.Edge isWord next → Runs.Edge isTokenChar next := by
    intro next hnext c hc
    by_contra htoken
    have hfalse := hnext c hc
    rw [hword c (Bool.eq_true_of_not_eq_false htoken)] at hfalse
    cases hfalse
  constructor
  · rintro ⟨run, hlong, hrun, -⟩
    exact ⟨run, hlong, hrun⟩
  · rintro ⟨run, hlong, hrun⟩
    obtain ⟨-, before, after, htext, hbefore, hafter⟩ := h
    refine ⟨run, hlong, hrun, question, List.mem_cons_self, ?_⟩
    rw [htext]
    exact hrun.of_occurs (hedge hbefore) (hedge hafter)

end Mentioned

/-! ### The boost -/

theorem entityBoostOf_pos_iff {config : RetrievalConfig} (hcap : 0 < config.entityBoostCap)
    {casefold : String → String} {terms : List String} {datum : GraphDatum} :
    0 < entityBoostOf config casefold terms datum ↔
      0 < datum.entityFactCount ∧ mentionsEntity casefold terms datum.entityKey = true := by
  unfold entityBoostOf
  split
  · rename_i hgate
    have hcount : (0 : Rat) < (max datum.entityFactCount 1 : Nat) := by
      exact_mod_cast Nat.lt_of_lt_of_le Nat.zero_lt_one (Nat.le_max_right _ _)
    exact iff_of_true (lt_min (div_pos hcap hcount) hcap) hgate
  · rename_i hgate
    exact iff_of_false (lt_irrefl _) hgate

section Boost

variable {engine : RetrievalEngine} {contextId question : String} {expanded : QueryRewriterOutput}
  {seeds facts ranked : List ScoredFact} {bounds : DateRange} {query : DateTime}
  {data : List GraphDatum} {fact : ScoredFact}

/-- The boost of a ranked fact. -/
theorem mem_rank_boost (hids : (facts.map ScoredFact.factId).Nodup)
    (hrank : engine.rank question facts data expanded = .ok ranked) (hfact : fact ∈ ranked) :
    ∃ seed ∈ facts, fact.factId = seed.factId ∧ fact.entityBoost = entityBoostOf engine.config
      engine.casefold (queryEntityTerms engine.casefold question expanded) (datumOf data seed) := by
  by_cases hzero : DividesByZero engine.config (engine.scored question data expanded facts)
  · obtain ⟨error, herror⟩ := RetrievalEngine.rank_raises hids hzero
    rw [herror] at hrank
    cases hrank
  · rw [RetrievalEngine.rank_eq hids hzero] at hrank
    cases hrank
    obtain ⟨scored, hscored, rfl⟩ := List.mem_map.mp hfact
    obtain ⟨seed, hseed, rfl⟩ := List.mem_map.mp (List.mem_mergeSort.mp hscored)
    exact ⟨seed, hseed, rfl, rfl⟩

/-- What the expansion says of a retained fact. -/
theorem datumOf_expand {e : Expander} {config : RetrievalConfig}
    (hids : (facts.map ScoredFact.factId).Nodup)
    (hexpand : e.expand config contextId seeds bounds query = .ok (facts, data))
    (hfact : fact.factId ∈ facts.map ScoredFact.factId) :
    ∃ kept stats, fact.key ∈ kept.map Prod.fst ∧
      datumOf data fact = graphDatum (e.rawNodes contextId seeds) kept stats fact := by
  obtain ⟨retained, hretained, hid⟩ := List.mem_map.mp hfact
  rcases Expander.expand_eq_ok hexpand with ⟨-, rfl⟩ | ⟨kept, -, hprune, hdata⟩
  · cases hretained
  have hkey : retained.key = fact.key := congrArg ("fact:" ++ ·) hid
  refine ⟨kept, e.pathStats config (e.rawNodes contextId seeds) kept, ?_, ?_⟩
  · rw [← hkey]
    rw [hprune] at hretained
    exact key_mem_of_mem_prune hretained
  · have hnodup : (data.map GraphDatum.factId).Nodup := by
      rw [hdata (List.ne_nil_of_mem hretained), List.map_map]
      exact hids
    have hmem : graphDatum (e.rawNodes contextId seeds) kept
        (e.pathStats config (e.rawNodes contextId seeds) kept) retained ∈ data := by
      rw [hdata (List.ne_nil_of_mem hretained)]
      exact List.mem_map_of_mem hretained
    have hfind := Ordered.find_of_mem hnodup hmem
    change Ordered.find GraphDatum.factId retained.factId data = _ at hfind
    rw [datumOf, ← hid, hfind, Option.getD_some]
    simp only [graphDatum, hkey, hid]

/-- **The boost** of a retained fact: its entity shares a long run with the
question. -/
theorem boost_pos_iff (hfold : Casefolds engine.casefold)
    (hcap : 0 < engine.config.entityBoostCap) (hseeds : (seeds.map ScoredFact.factId).Nodup)
    (hexpand : engine.expander.expand engine.config contextId seeds bounds query =
      .ok (facts, data))
    (hrank : engine.rank question (engine.fillTexts contextId facts) data expanded = .ok ranked)
    (hfact : fact ∈ ranked) : 0 < fact.entityBoost ↔
      ∃ entity, entityKeyOf (engine.expander.rawNodes contextId seeds) fact.key = some entity ∧
        SharesRun engine.casefold question expanded entity := by
  have hids : (facts.map ScoredFact.factId).Nodup := by
    have hpart := (bares_expand hexpand).map ScoredFact.factId
    rw [List.map_map, List.map_map] at hpart
    exact hseeds.sublist hpart
  have hfilled : (engine.fillTexts contextId facts).map ScoredFact.factId =
      facts.map ScoredFact.factId := by
    have hbares := congrArg (List.map ScoredFact.factId) (engine.bares_fillTexts contextId facts)
    rwa [List.map_map, List.map_map] at hbares
  obtain ⟨seed, hseed, hid, hboost⟩ := mem_rank_boost (hfilled ▸ hids) hrank hfact
  have hmem : seed.factId ∈ facts.map ScoredFact.factId := hfilled ▸ List.mem_map_of_mem hseed
  obtain ⟨kept, stats, hkept, hdatum⟩ := datumOf_expand hids hexpand hmem
  have hkey : seed.key = fact.key := congrArg ("fact:" ++ ·) hid.symm
  rw [hboost, entityBoostOf_pos_iff hcap, hdatum, ← hkey]
  simp only [graphDatum]
  cases hentity : entityKeyOf (engine.expander.rawNodes contextId seeds) seed.key with
  | none =>
      refine iff_of_false (fun h => absurd h.1 (lt_irrefl 0)) ?_
      rintro ⟨entity, h, -⟩
      cases h
  | some entity =>
      have hcount : 0 < (entityToFacts (engine.expander.rawNodes contextId seeds) kept
          entity).length := by
        refine List.length_pos_of_mem (a := seed.key) ?_
        exact List.mem_filter.mpr ⟨hkept, by simp [hentity]⟩
      rw [Option.map_some, Option.getD_some, and_iff_right hcount, mentionsEntity_iff hfold]
      constructor
      · exact fun h => ⟨entity, rfl, h⟩
      · rintro ⟨other, hother, h⟩
        cases hother
        exact h

end Boost

/-- Entity boost: a retained fact with a mentioned entity is boosted exactly if
the entity of its last row shares a run of more than two lower-case ASCII
letters or digits with the question or a rewriting of it. Where that entity is
mentioned itself, exactly if its name has such a run: short names and names in
other scripts have none, and are never found. -/
theorem entity_boost_reaches_iff (engine : RetrievalEngine) (isWord : Char → Bool)
    (hword : ∀ c, isTokenChar c = true → isWord c = true) (hfold : Casefolds engine.casefold)
    (hcap : 0 < engine.config.entityBoostCap) (contextId question : String)
    (expanded : QueryRewriterOutput) (bounds : DateRange) (query : DateTime)
    {seeds facts ranked : List ScoredFact} {data : List GraphDatum}
    (hseeds : (seeds.map ScoredFact.factId).Nodup)
    (hexpand : engine.expander.expand engine.config contextId seeds bounds query =
      .ok (facts, data))
    (hrank : engine.rank question (engine.fillTexts contextId facts) data expanded = .ok ranked)
    {fact : ScoredFact} (hfact : fact ∈ ranked) :
    (((∃ entity ∈ namesOf (engine.expander.rawNodes contextId seeds) fact.key,
        Mentions isWord engine.casefold question entity) → 0 < fact.entityBoost) ↔
      ((∃ entity ∈ namesOf (engine.expander.rawNodes contextId seeds) fact.key,
        Mentions isWord engine.casefold question entity) →
        ∃ entity, entityKeyOf (engine.expander.rawNodes contextId seeds) fact.key = some entity ∧
          SharesRun engine.casefold question expanded entity)) ∧
    ∀ entity, entityKeyOf (engine.expander.rawNodes contextId seeds) fact.key = some entity →
      Mentions isWord engine.casefold question entity →
      (0 < fact.entityBoost ↔ HasLongRun engine.casefold entity) := by
  have hboost := boost_pos_iff hfold hcap hseeds hexpand hrank hfact
  refine ⟨imp_congr_right fun _ => hboost, fun entity hentity hmentioned => ?_⟩
  have hruns : SharesRun engine.casefold question expanded entity ↔
      HasLongRun engine.casefold entity := hmentioned.sharesRun_iff hword
  rw [hboost, ← hruns]
  constructor
  · rintro ⟨other, hother, h⟩
    rw [hentity] at hother
    cases hother
    exact h
  · exact fun h => ⟨entity, hentity, h⟩

/-! ### A question about Bo -/

/-- An engine over one fact, which is about the entities with the given names. -/
noncomputable def aboutEngine (names : List String) : RetrievalEngine :=
  { searchingEngine [] [] with expander := aboutExpander names }

theorem asciiTables_casefolds : Casefolds asciiTables.casefold where
  append a b := by
    simp only [asciiTables, String.toList_append, List.map_append, String.ofList_append]
  space := by decide

theorem isWord_of_isTokenChar (c : Char) (h : isTokenChar c = true) :
    (isTokenChar c || c == '_') = true := by
  rw [h, Bool.true_or]

/-- The ranked fact of such an engine. -/
theorem aboutEngine_ranks {name : String}
    (hrows : (aboutGraph [name]).nodeRows bostonFact = [name].map aboutRow) (question : String) :
    ∃ facts data ranked fact, (aboutEngine [name]).expander.expand {} "chat" tripSeed {} ten =
        .ok (facts, data) ∧
      (aboutEngine [name]).rank question ((aboutEngine [name]).fillTexts "chat" facts) data ⟨[], []⟩ =
        .ok ranked ∧ fact ∈ ranked ∧ fact.key = "fact:boston" := by
  obtain ⟨facts, data, hexpand, fact, hfact, hkey⟩ :=
    expand_about (List.cons_ne_nil _ _) hrows (by simp) {} {} ten
  obtain ⟨ranked, hranked⟩ : ∃ ranked, (aboutEngine [name]).rank question
      ((aboutEngine [name]).fillTexts "chat" facts) data ⟨[], []⟩ = .ok ranked :=
    RetrievalEngine.rank_ok (show (3 : Int) ≠ 0 by decide) (show (0 : Int) < 60 by decide) _ _ _ _
  have hid : fact.factId ∈ ranked.map ScoredFact.factId := by
    rw [RetrievalEngine.mem_rank hranked, factIds_of_origins (RetrievalEngine.origins_fillTexts facts)]
    exact List.mem_map_of_mem hfact
  obtain ⟨found, hfound, hsame⟩ := List.mem_map.mp hid
  refine ⟨facts, data, ranked, found, hexpand, hranked, hfound, ?_⟩
  rw [← hkey]
  exact congrArg ("fact:" ++ ·) hsame

/-- Bo is asked about, and the fact about Bo is not boosted. -/
theorem entity_boost_misses : ¬∀ (engine : RetrievalEngine) (isWord : Char → Bool)
    (contextId question : String) (expanded : QueryRewriterOutput) (bounds : DateRange)
    (query : DateTime) (seeds facts ranked : List ScoredFact) (data : List GraphDatum)
    (fact : ScoredFact), (∀ c, isTokenChar c = true → isWord c = true) →
    Casefolds engine.casefold → 0 < engine.config.entityBoostCap →
    (seeds.map ScoredFact.factId).Nodup →
    engine.expander.expand engine.config contextId seeds bounds query = .ok (facts, data) →
    engine.rank question (engine.fillTexts contextId facts) data expanded = .ok ranked →
    fact ∈ ranked →
    (∃ entity ∈ namesOf (engine.expander.rawNodes contextId seeds) fact.key,
      Mentions isWord engine.casefold question entity) → 0 < fact.entityBoost := by
  intro hall
  have hrows : (aboutGraph ["entity:bo"]).nodeRows bostonFact = ["entity:bo"].map aboutRow := by
    decide +kernel
  obtain ⟨facts, data, ranked, fact, hexpand, hrank, hfact, hkey⟩ :=
    aboutEngine_ranks hrows "Where does Bo live?"
  have hraw : (aboutEngine ["entity:bo"]).expander.rawNodes "chat" tripSeed = _ :=
    aboutExpander_rawNodes hrows (by decide)
  have hmention : Mentions (fun c => isTokenChar c || c == '_') asciiTables.casefold
      "Where does Bo live?" "entity:bo" := by
    refine ⟨by decide, "where does ".toList, " live?".toList, by decide, ?_, ?_⟩
    · exact Runs.Edge.some (x := ' ') (by decide)
    · exact Runs.Edge.some (x := ' ') (by decide)
  have hboost := hall (aboutEngine ["entity:bo"]) (fun c => isTokenChar c || c == '_') "chat"
    "Where does Bo live?" ⟨[], []⟩ {} ten tripSeed facts ranked data fact isWord_of_isTokenChar
    asciiTables_casefolds (show (0 : Rat) < 1 / 2 by decide +kernel) (by decide) hexpand hrank hfact
    ⟨"entity:bo", by rw [hraw, hkey]; decide, hmention⟩
  have hgate := boost_pos_iff asciiTables_casefolds (show (0 : Rat) < 1 / 2 by decide +kernel)
    (by decide : (tripSeed.map ScoredFact.factId).Nodup) hexpand hrank hfact
  obtain ⟨entity, hentity, hshares⟩ := hgate.mp hboost
  have hbo : entity = "entity:bo" := by
    rw [hraw, hkey] at hentity
    exact (Option.some.inj hentity).symm.trans (by decide)
  obtain ⟨run, hlong, hrun⟩ := (hmention.sharesRun_iff isWord_of_isTokenChar).mp (hbo ▸ hshares)
  obtain ⟨-, before, after, htext, -, -⟩ := hrun
  have hlength := congrArg List.length htext
  rw [List.length_append, List.length_append] at hlength
  have htwo : (asciiTables.casefold (afterColon "entity:bo")).toList.length = 2 := by decide
  omega

/-- The fact about Max is boosted. -/
theorem entity_boost_reaches_iff_max : ∃ facts data ranked, ∃ fact ∈ ranked,
    (aboutEngine ["entity:max"]).expander.expand {} "chat" tripSeed {} ten = .ok (facts, data) ∧
      (aboutEngine ["entity:max"]).rank "Where does Max live?"
        ((aboutEngine ["entity:max"]).fillTexts "chat" facts) data ⟨[], []⟩ = .ok ranked ∧
      0 < fact.entityBoost := by
  have hrows : (aboutGraph ["entity:max"]).nodeRows bostonFact = ["entity:max"].map aboutRow := by
    decide +kernel
  obtain ⟨facts, data, ranked, fact, hexpand, hrank, hfact, hkey⟩ :=
    aboutEngine_ranks hrows "Where does Max live?"
  have hraw : (aboutEngine ["entity:max"]).expander.rawNodes "chat" tripSeed = _ :=
    aboutExpander_rawNodes hrows (by decide)
  have hmention : Mentions (fun c => isTokenChar c || c == '_') asciiTables.casefold
      "Where does Max live?" "entity:max" := by
    refine ⟨by decide, "where does ".toList, " live?".toList, by decide, ?_, ?_⟩
    · exact Runs.Edge.some (x := ' ') (by decide)
    · exact Runs.Edge.some (x := ' ') (by decide)
  have hreaches := entity_boost_reaches_iff (aboutEngine ["entity:max"])
    (fun c => isTokenChar c || c == '_') isWord_of_isTokenChar asciiTables_casefolds
    (show (0 : Rat) < 1 / 2 by decide +kernel) "chat" "Where does Max live?" ⟨[], []⟩ {} ten
    (by decide : (tripSeed.map ScoredFact.factId).Nodup) hexpand hrank hfact
  refine ⟨facts, data, ranked, fact, hfact, hexpand, hrank, (hreaches.2 "entity:max" ?_ hmention).mpr ?_⟩
  · rw [hraw, hkey]
    decide
  · have hrun : "max".toList.all isTokenChar = true := by decide
    exact ⟨"max".toList, by decide, List.all_eq_true.mp hrun, [], [], by decide, Runs.Edge.none,
      Runs.Edge.none⟩

end ContextMemory
