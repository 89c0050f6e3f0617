/-
`HybridRetrievalEngine.retrieve_and_answer` (`retrieval.py`) around the expansion: the
temporal resolver and the query rewriter, seeding, scoring by reciprocal rank fusion, the
neighboring-turn facts, and the context that is put into the reader's prompt.

The models, the embedder and the SQL queries are what they answer, an exception included.
Scores are exact; a division by zero raises as it does in Python.
-/

import ContextMemory.Lib.Fallible
import ContextMemory.Retrieval.Expansion

namespace ContextMemory

/-! ### Phase 0 -/

/-- `dt + timedelta(days=days)`, which overflows outside the years 1 to 9999. -/
def DateTime.addDays (dt : DateTime) (days : Int) : Option DateTime :=
  let micros := dt.micros + days * 86400000000
  let wall := micros + dt.utcOffset * 1000000
  if -62135596800000000 ≤ wall ∧ wall < 253402300800000000 then some { dt with micros } else none

/-- Both ends of a range moved out by a number of days; an end that is missing stays so. -/
def DateRange.widen (range : DateRange) (days : Int) : Option DateRange := do
  let validFrom ← range.validFrom.mapM (·.addDays (-days))
  let validTo ← range.validTo.mapM (·.addDays days)
  pure ⟨validFrom, validTo⟩

/-- `TemporalQueryResolver.resolve`, from what the model answered: the range it found,
something else, or an exception. -/
def resolveTemporal (config : RetrievalConfig) (answer : Except Exn (Option DateRange)) :
    DateRange :=
  match answer with
  | .ok (some range) => (range.widen config.temporalBufferDays).getD {}
  | _ => {}

structure QueryRewriterOutput where
  decomposedQueries : List String
  synonyms : List String
deriving DecidableEq

/-- `QueryRewriter.rewrite`. -/
def rewriteQuery (question : String) (answer : Except Exn (Option QueryRewriterOutput)) :
    QueryRewriterOutput :=
  match answer with
  | .ok (some output) => output
  | _ => ⟨[question], []⟩

/-! ### Phase 1 -/

/-- The smaller of two ranks, if there was one. -/
def betterRank (old : Option Nat) (position : Nat) : Nat := min (old.getD position) position

/-- A row of the vector search at its position; a cosine distance is not negative. -/
def seedSemantic (facts : List ScoredFact) (item : (String × Option Rat) × Nat) :
    List ScoredFact :=
  let ((factId, distance), position) := item
  let score := 1 / (1 + distance.getD 0)
  match Ordered.find ScoredFact.factId factId facts with
  | none => Ordered.upsert ScoredFact.factId
      { factId, text := "", semanticScore := score, semanticRank := some position } facts
  | some fact => Ordered.upsert ScoredFact.factId
      { fact with
        semanticScore := max fact.semanticScore score
        semanticRank := some (betterRank fact.semanticRank position) } facts

/-- A row of the full-text search with a positive rank, at its position among those. -/
def seedKeyword (facts : List ScoredFact) (item : (String × String × Rat) × Nat) :
    List ScoredFact :=
  let ((factId, rawText, rank), position) := item
  let score := rank / (1 + rank)
  match Ordered.find ScoredFact.factId factId facts with
  | none => Ordered.upsert ScoredFact.factId
      { factId, text := rawText, keywordScore := score, keywordRank := some position } facts
  | some fact => Ordered.upsert ScoredFact.factId
      { fact with
        keywordScore := max fact.keywordScore score
        keywordRank := some (betterRank fact.keywordRank position)
        text := if fact.text = "" then rawText else fact.text } facts

/-- The text handed to `websearch_to_tsquery`. -/
def searchQuery (question : String) (expanded : QueryRewriterOutput) : String :=
  let terms := ((expanded.synonyms ++ expanded.decomposedQueries ++ [question]).map strip).filter
    (· ≠ "")
  if terms = [] then question
  else String.intercalate " OR " (terms.map fun term =>
    if ' ' ∈ term.toList then "\"" ++ term ++ "\"" else term)

/-- `enumerate(xs, start=1)`. -/
def enumerate {α : Type} (xs : List α) : List (α × Nat) :=
  xs.zipIdx.map fun item => (item.1, item.2 + 1)

/-! ### Neighboring turns -/

/-- A row of the sibling query. -/
structure SiblingRow where
  subjectId : String
  rawText : String
  anchorQueryDistance : Rat
  siblingQueryDistance : Rat
  boundaryDistance : Rat

/-- `S(a, n)`. -/
def SiblingRow.score (config : RetrievalConfig) (row : SiblingRow) : Rat :=
  (1 - row.siblingQueryDistance) - config.siblingContinuityPenalty * row.boundaryDistance

structure BestSibling where
  factId : String
  score : Rat
  text : String

/-- One row against the best pairing so far. -/
def keepBest (config : RetrievalConfig) (best : List BestSibling) (row : SiblingRow) :
    List BestSibling :=
  let score := row.score config
  if score ≤ config.siblingRelevanceRatio * (1 - row.anchorQueryDistance) then best
  else
    match Ordered.find BestSibling.factId row.subjectId best with
    | some old =>
        if old.score < score then
          Ordered.upsert BestSibling.factId ⟨row.subjectId, score, row.rawText⟩ best
        else best
    | none => Ordered.upsert BestSibling.factId ⟨row.subjectId, score, row.rawText⟩ best

/-- `xs[:stop]`. -/
def pyTake {α : Type} (stop : Int) (xs : List α) : List α :=
  if 0 ≤ stop then xs.take stop.toNat else xs.take (xs.length - (-stop).toNat)

/-- What `_sibling_facts` makes of its rows. -/
def selectSiblings (config : RetrievalConfig) (rows : List SiblingRow) : List (String × String) :=
  let best := rows.foldl (keepBest config) []
  let ranked := best.mergeSort fun a b => decide (b.score ≤ a.score)
  (pyTake config.siblingFactLimit ranked).map fun sibling => (sibling.factId, sibling.text)

/-! ### Phase 3 -/

/-- `x / y`. -/
def pyDiv (x y : Rat) : Except Exn Rat :=
  if y = 0 then .error (.provider "ZeroDivisionError") else .ok (x / y)

/-- `re.findall(r"[a-z0-9]+", text)`, the tokens of more than two characters. -/
def longTokens (text : String) : List String :=
  let isToken (c : Char) : Bool := ('a' ≤ c && c ≤ 'z') || ('0' ≤ c && c ≤ '9')
  ((text.toList.splitOnP fun c => !isToken c).map String.ofList).filter (2 < ·.length)

/-- `_query_entity_terms`. -/
def queryEntityTerms (casefold : String → String) (question : String)
    (expanded : QueryRewriterOutput) : List String :=
  longTokens (casefold (String.intercalate " "
    ([question] ++ expanded.synonyms ++ expanded.decomposedQueries)))

/-- `entity_key.split(":", 1)[-1]`. -/
def afterColon (key : String) : String :=
  match key.toList.dropWhile (· ≠ ':') with
  | _ :: rest => String.ofList rest
  | [] => key

/-- The structural score and the entity boost of one fact. -/
def scoreFact (config : RetrievalConfig) (casefold : String → String) (terms : List String)
    (data : List GraphDatum) (fact : ScoredFact) : Except Exn ScoredFact :=
  let datum := (Ordered.find GraphDatum.factId fact.factId data).getD ⟨fact.factId, none, 1, 0, 0⟩
  let hops : Rat := if datum.hopCount = 0 then 1 else datum.hopCount
  let counted : Rat := (min (datum.pathCount : Int) config.structuralPathCap : Int)
  let canonical := casefold (afterColon (datum.entityKey.getD ""))
  let mentioned := (longTokens canonical).any fun token => decide (token ∈ terms)
  match pyDiv (1 / hops * counted) config.structuralPathCap with
  | .error e => .error e
  | .ok structuralScore => .ok { fact with
      structuralScore
      entityBoost := if 0 < datum.entityFactCount ∧ mentioned then
          min (config.entityBoostCap / (max datum.entityFactCount 1 : Nat)) config.entityBoostCap
        else 0 }

/-- The positions in the list of the facts with a positive score, the best first. -/
def channelRank (score : ScoredFact → Rat) (facts : List ScoredFact) (factId : String) :
    Option Nat :=
  let ranked := (facts.filter fun fact => 0 < score fact).mergeSort
    fun a b => decide (score b ≤ score a)
  (ranked.findIdx? fun fact => fact.factId = factId).map (· + 1)

/-- `_rrf_term`. -/
def rrfTerm (config : RetrievalConfig) : Option Nat → Except Exn Rat
  | none => .ok 0
  | some rank => pyDiv 1 (config.rrfK + rank : Int)

/-- The composite score of one fact among the scored ones. -/
def fuse (config : RetrievalConfig) (facts : List ScoredFact) (fact : ScoredFact) :
    Except Exn ScoredFact := do
  let semantic ← rrfTerm config fact.semanticRank
  let keyword ← rrfTerm config fact.keywordRank
  let structural ← rrfTerm config (channelRank ScoredFact.structuralScore facts fact.factId)
  let entity ← rrfTerm config (channelRank ScoredFact.entityBoost facts fact.factId)
  pure { fact with compositeScore := semantic + keyword + structural + entity }

/-- Neither the best fact's vector nor its words nor its place in the graph say enough. -/
def abstains (config : RetrievalConfig) (ranked : List ScoredFact) : Bool :=
  match ranked with
  | [] => true
  | best :: _ => decide (best.semanticScore < config.abstentionSemanticThreshold ∧
      best.keywordScore < config.abstentionSemanticThreshold ∧ best.structuralScore = 0)

/-- What the reader is shown. -/
structure ReaderContext where
  topFacts : List ScoredFact
  siblings : List (String × String)

/-- `datetime.fromtimestamp(s, tz=utc).strftime("%Y-%m-%d")`. -/
def observedDate (observedAt : Option Int) : String :=
  match observedAt with
  | none => "Recent"
  | some seconds =>
      if seconds = 0 then "Recent"
      else
        match DateTime.fromTimestamp seconds with
        | none => "Recent"
        | some dt =>
            let (year, month, day) := DateTime.civil (dt.micros.fdiv 86400000000)
            toString year ++ "-" ++ DateTime.pad 2 month ++ "-" ++ DateTime.pad 2 day

def ScoredFact.block (fact : ScoredFact) : String :=
  "[" ++ observedDate fact.observedAt ++ " | " ++ orText fact.speaker "user" ++ "]: " ++ fact.text

/-- `context_str`. -/
def ReaderContext.text (context : ReaderContext) : String :=
  String.intercalate "\n" (context.topFacts.map ScoredFact.block ++
    (if context.siblings = [] then []
      else "[related facts from the same conversation turns]:" ::
        context.siblings.map fun sibling => "- " ++ sibling.2))

/-- How a request ends: with the abstention message, or with an answer to a context. -/
inductive RetrievalOutcome where
  | abstained (message : String)
  | answered (context : ReaderContext) (answer : String)

/-! ### The engine -/

structure RetrievalEngine where
  config : RetrievalConfig
  casefold : String → String
  embed : String → Except Exn (List Rat)
  temporalAnswer : (question : String) → (questionDate : DateTime) → Except Exn (Option DateRange)
  rewriterAnswer : (question : String) → Except Exn (Option QueryRewriterOutput)
  semanticRows : (vector : List Rat) → (contextId : String) → (limit : Int) →
    Except Exn (List (String × Option Rat))
  keywordRows : (query contextId : String) → (limit : Int) →
    Except Exn (List (String × String × Option Rat))
  rawTexts : (contextId : String) → (factIds : List String) → Except Exn (List (String × String))
  siblingRows : (vector : List Rat) → (contextId : String) → (factIds : List String) →
    Except Exn (List SiblingRow)
  expander : Expander
  promptTemplate : (context : String) → String
  reader : (prompt question : String) → Except Exn String

namespace RetrievalEngine

variable (engine : RetrievalEngine)

/-- `_semantic_and_keyword_seeding`. -/
def seed (contextId question : String) (expanded : QueryRewriterOutput) (topK : Int) :
    Except Exn (List ScoredFact) := do
  let limit := max (topK * engine.config.overfetchMultiplier) engine.config.overfetchFloor
  let vector ← engine.embed question
  let rows ← engine.semanticRows vector contextId limit
  let facts := (enumerate rows).foldl seedSemantic []
  let query := searchQuery question expanded
  if query = "" then pure facts
  else do
    let rows ← engine.keywordRows query contextId limit
    let accepted := rows.filterMap fun row =>
      if 0 < row.2.2.getD 0 then some (row.1, row.2.1, row.2.2.getD 0) else none
    pure ((enumerate accepted).foldl seedKeyword facts)

/-- The texts of the facts that still have none. -/
def fillTexts (contextId : String) (facts : List ScoredFact) : List ScoredFact :=
  let missing := (facts.filter fun fact => fact.text = "").map ScoredFact.factId
  if missing = [] then facts
  else
    match engine.rawTexts contextId missing with
    | .error _ => facts
    | .ok rows => rows.foldl (fun facts row => facts.map fun fact =>
        if fact.factId = row.1 then { fact with text := row.2 } else fact) facts

/-- `_sibling_facts`. -/
def siblingFacts (contextId : String) (factIds : List String) (question : String) :
    Except Exn (List (String × String)) :=
  if factIds = [] then .ok []
  else do
    let vector ← engine.embed question
    let rows ← engine.siblingRows vector contextId factIds
    pure (selectSiblings engine.config rows)

/-- The facts with all their scores, the best first. -/
def rank (question : String) (facts : List ScoredFact) (data : List GraphDatum)
    (expanded : QueryRewriterOutput) : Except Exn (List ScoredFact) := do
  let terms := queryEntityTerms engine.casefold question expanded
  let scored ← facts.mapM (scoreFact engine.config engine.casefold terms data)
  let fused ← scored.mapM (fuse engine.config scored)
  pure (fused.mergeSort fun a b => decide (b.compositeScore ≤ a.compositeScore))

/-- The context of the reader, from the ranked facts. -/
def readerContext (contextId question : String) (ranked : List ScoredFact) (topK : Int) :
    ReaderContext :=
  let topFacts := pyTake topK ranked
  { topFacts
    siblings := if 0 < engine.config.siblingFactLimit then
        match engine.siblingFacts contextId (topFacts.map ScoredFact.factId) question with
        | .ok siblings => siblings
        | .error _ => []
      else [] }

/-- `_composite_scoring_and_synthesis`. -/
def synthesize (contextId question : String) (facts : List ScoredFact) (data : List GraphDatum)
    (topK : Int) (expanded : QueryRewriterOutput) : Except Exn RetrievalOutcome := do
  let ranked ← engine.rank question facts data expanded
  if abstains engine.config ranked then pure (.abstained engine.config.abstentionMessage)
  else do
    let context := engine.readerContext contextId question ranked topK
    let answer ← engine.reader (engine.promptTemplate context.text) question
    pure (.answered context answer)

/-- `retrieve_and_answer`. -/
def retrieveAndAnswer (contextId question : String) (questionDate : DateTime)
    (topK : Option Int) : Except Exn RetrievalOutcome := do
  let topK := topK.getD engine.config.topK
  let bounds := resolveTemporal engine.config (engine.temporalAnswer question questionDate)
  let expanded := rewriteQuery question (engine.rewriterAnswer question)
  let seeds ← engine.seed contextId question expanded topK
  let (facts, data) ← engine.expander.expand engine.config contextId seeds bounds questionDate
  let facts := engine.fillTexts contextId facts
  engine.synthesize contextId question facts data topK expanded

end RetrievalEngine

/-! ### What reaches the reader -/

theorem mem_of_mem_pyTake {α : Type} {stop : Int} {xs : List α} {x : α} (h : x ∈ pyTake stop xs) :
    x ∈ xs := by
  unfold pyTake at h
  split at h <;> exact List.mem_of_mem_take h

theorem mem_keepBest {config : RetrievalConfig} {best : List BestSibling} {row : SiblingRow}
    {sibling : BestSibling} (h : sibling ∈ keepBest config best row) :
    sibling ∈ best ∨ (sibling.factId = row.subjectId ∧ sibling.text = row.rawText) := by
  have hput : ∀ {score}, sibling ∈ Ordered.upsert BestSibling.factId
      ⟨row.subjectId, score, row.rawText⟩ best →
      sibling ∈ best ∨ (sibling.factId = row.subjectId ∧ sibling.text = row.rawText) := by
    intro score hmem
    rcases Ordered.mem_of_mem_upsert hmem with rfl | hmem
    · exact Or.inr ⟨rfl, rfl⟩
    · exact Or.inl hmem
  unfold keepBest at h
  dsimp only at h
  split at h
  · exact Or.inl h
  · split at h
    · split at h
      · exact hput h
      · exact Or.inl h
    · exact hput h

/-- A selected sibling is the fact of a row, with its text. -/
theorem mem_selectSiblings {config : RetrievalConfig} {rows : List SiblingRow}
    {sibling : String × String} (h : sibling ∈ selectSiblings config rows) :
    ∃ row ∈ rows, sibling = (row.subjectId, row.rawText) := by
  have hfold : ∀ (rows : List SiblingRow) (best : List BestSibling), ∀ x ∈ rows.foldl
      (keepBest config) best, x ∈ best ∨ ∃ row ∈ rows, x.factId = row.subjectId ∧
        x.text = row.rawText := by
    intro rows
    induction rows with
    | nil => exact fun best x hx => Or.inl hx
    | cons row rest ih =>
        intro best x hx
        rcases ih _ x hx with hbest | ⟨other, hother, hsame⟩
        · rcases mem_keepBest hbest with hold | hsame
          · exact Or.inl hold
          · exact Or.inr ⟨row, List.mem_cons_self, hsame⟩
        · exact Or.inr ⟨other, List.mem_cons_of_mem _ hother, hsame⟩
  obtain ⟨best, hbest, rfl⟩ := List.mem_map.mp h
  have hmem := List.mem_mergeSort.mp (mem_of_mem_pyTake hbest)
  rcases hfold rows [] best hmem with hnil | ⟨row, hrow, hid, htext⟩
  · cases hnil
  · exact ⟨row, hrow, by rw [hid, htext]⟩

theorem origin_scoreFact {config : RetrievalConfig} {casefold : String → String}
    {terms : List String} {data : List GraphDatum} {seed fact : ScoredFact}
    (h : scoreFact config casefold terms data seed = .ok fact) : fact.origin = seed.origin := by
  unfold scoreFact at h
  dsimp only at h
  split at h
  · cases h
  · cases h
    rfl

theorem origin_fuse {config : RetrievalConfig} {facts : List ScoredFact} {seed fact : ScoredFact}
    (h : fuse config facts seed = .ok fact) : fact.origin = seed.origin := by
  unfold fuse at h
  obtain ⟨_, -, h⟩ := Fallible.bind_eq_ok h
  obtain ⟨_, -, h⟩ := Fallible.bind_eq_ok h
  obtain ⟨_, -, h⟩ := Fallible.bind_eq_ok h
  obtain ⟨_, -, h⟩ := Fallible.bind_eq_ok h
  cases h
  rfl

namespace RetrievalEngine

variable {engine : RetrievalEngine} {contextId question : String}

theorem origins_fillTexts (facts : List ScoredFact) :
    (engine.fillTexts contextId facts).map ScoredFact.origin = facts.map ScoredFact.origin := by
  have hfold : ∀ (rows : List (String × String)) (facts : List ScoredFact),
      (rows.foldl (fun facts row => facts.map fun fact =>
        if fact.factId = row.1 then { fact with text := row.2 } else fact) facts).map
          ScoredFact.origin = facts.map ScoredFact.origin := by
    intro rows
    induction rows with
    | nil => exact fun _ => rfl
    | cons row rest ih =>
        intro facts
        rw [List.foldl_cons, ih, List.map_map]
        apply List.map_congr_left
        intro fact _
        dsimp only [Function.comp]
        split <;> rfl
  unfold fillTexts
  dsimp only
  split
  · rfl
  · split
    · rfl
    · exact hfold _ _

/-- The ranked facts are the facts that were scored. -/
theorem perm_rank {facts ranked : List ScoredFact} {data : List GraphDatum}
    {expanded : QueryRewriterOutput} (h : engine.rank question facts data expanded = .ok ranked) :
    (ranked.map ScoredFact.origin).Perm (facts.map ScoredFact.origin) := by
  unfold rank at h
  obtain ⟨scored, hscored, h⟩ := Fallible.bind_eq_ok h
  obtain ⟨fused, hfused, h⟩ := Fallible.bind_eq_ok h
  cases h
  rw [← Fallible.map_mapM origin_scoreFact hscored, ← Fallible.map_mapM origin_fuse hfused]
  exact (List.mergeSort_perm fused _).map _

/-- Filling in texts changes nothing about which facts are ranked. -/
theorem perm_ids_rank {facts ranked : List ScoredFact} {data : List GraphDatum}
    {expanded : QueryRewriterOutput}
    (h : engine.rank question (engine.fillTexts contextId facts) data expanded = .ok ranked) :
    (ranked.map ScoredFact.factId).Perm (facts.map ScoredFact.factId) := by
  have hperm := perm_rank h
  rw [origins_fillTexts] at hperm
  have hids := hperm.map Prod.fst
  rwa [List.map_map, List.map_map] at hids

theorem mem_rank {facts ranked : List ScoredFact} {data : List GraphDatum}
    {expanded : QueryRewriterOutput} (h : engine.rank question facts data expanded = .ok ranked)
    (factId : String) :
    factId ∈ ranked.map ScoredFact.factId ↔ factId ∈ facts.map ScoredFact.factId := by
  have hids := (perm_rank h).map Prod.fst
  rw [List.map_map, List.map_map] at hids
  exact hids.mem_iff

/-- With settings that divide by no zero, scoring returns. -/
theorem rank_ok (hcap : engine.config.structuralPathCap ≠ 0) (hrrf : 0 < engine.config.rrfK)
    (question : String) (facts : List ScoredFact) (data : List GraphDatum)
    (expanded : QueryRewriterOutput) : ∃ ranked, engine.rank question facts data expanded = .ok ranked := by
  have hterm : ∀ place, ∃ y, rrfTerm engine.config place = .ok y := by
    rintro (- | place)
    · exact ⟨0, rfl⟩
    · have hne : engine.config.rrfK + (place : Int) ≠ 0 := by omega
      exact ⟨_, if_neg (by exact_mod_cast hne)⟩
  have hscore : ∀ terms, ∀ fact ∈ facts,
      ∃ y, scoreFact engine.config engine.casefold terms data fact = .ok y := by
    intro terms fact _
    have hne : (engine.config.structuralPathCap : Rat) ≠ 0 := by exact_mod_cast hcap
    unfold scoreFact
    simp only [pyDiv, if_neg hne]
    exact ⟨_, rfl⟩
  have hfuse : ∀ scored, ∀ fact ∈ scored, ∃ y, fuse engine.config scored fact = .ok y := by
    intro scored fact _
    obtain ⟨a, ha⟩ := hterm fact.semanticRank
    obtain ⟨b, hb⟩ := hterm fact.keywordRank
    obtain ⟨c, hc⟩ := hterm (channelRank ScoredFact.structuralScore scored fact.factId)
    obtain ⟨e, he⟩ := hterm (channelRank ScoredFact.entityBoost scored fact.factId)
    unfold fuse
    rw [ha, hb, hc, he]
    exact ⟨_, rfl⟩
  obtain ⟨scored, hscored⟩ := Fallible.mapM_total
    (hscore (queryEntityTerms engine.casefold question expanded))
  obtain ⟨fused, hfused⟩ := Fallible.mapM_total (hfuse scored)
  unfold rank
  simp only [hscored, hfused, Fallible.ok_bind]
  exact ⟨_, rfl⟩

/-- A sibling in the context is a row of the sibling query for the facts above
it. -/
theorem mem_siblings {ranked : List ScoredFact} {topK : Int} {sibling : String × String}
    (h : sibling ∈ (engine.readerContext contextId question ranked topK).siblings) :
    0 < engine.config.siblingFactLimit ∧ ∃ vector rows, engine.siblingRows vector contextId
        ((pyTake topK ranked).map ScoredFact.factId) = .ok rows ∧
      ∃ row ∈ rows, sibling = (row.subjectId, row.rawText) := by
  simp only [readerContext] at h
  split at h
  · rename_i hlimit
    refine ⟨hlimit, ?_⟩
    split at h
    · rename_i siblings hfound
      unfold siblingFacts at hfound
      split at hfound
      · cases hfound
        cases h
      · obtain ⟨vector, -, hfound⟩ := Fallible.bind_eq_ok hfound
        obtain ⟨rows, hrows, hfound⟩ := Fallible.bind_eq_ok hfound
        cases hfound
        exact ⟨vector, rows, hrows, mem_selectSiblings h⟩
    · cases h
  · cases h

/-- **The prompt.** Every ranked fact in it was retained by the expansion, and
every sibling is a row of the sibling query for the ranked facts. -/
theorem answered {questionDate : DateTime} {topK : Option Int} {context : ReaderContext}
    {answer : String}
    (h : engine.retrieveAndAnswer contextId question questionDate topK =
      .ok (.answered context answer)) :
    ∃ seeds facts bounds data,
      engine.expander.expand engine.config contextId seeds bounds questionDate =
        .ok (facts, data) ∧
      (∀ fact ∈ context.topFacts, fact.factId ∈ facts.map ScoredFact.factId) ∧
      ∀ sibling ∈ context.siblings, 0 < engine.config.siblingFactLimit ∧ ∃ vector rows,
        engine.siblingRows vector contextId (context.topFacts.map ScoredFact.factId) = .ok rows ∧
        ∃ row ∈ rows, sibling = (row.subjectId, row.rawText) := by
  unfold retrieveAndAnswer at h
  obtain ⟨seeds, -, h⟩ := Fallible.bind_eq_ok h
  obtain ⟨⟨facts, data⟩, hexpand, h⟩ := Fallible.bind_eq_ok h
  unfold synthesize at h
  obtain ⟨ranked, hranked, h⟩ := Fallible.bind_eq_ok h
  split at h
  · cases h
  · obtain ⟨reply, -, h⟩ := Fallible.bind_eq_ok h
    cases h
    refine ⟨seeds, facts, _, data, hexpand, ?_, fun sibling hsibling => mem_siblings hsibling⟩
    intro fact hfact
    rw [← factIds_of_origins (origins_fillTexts facts), ← mem_rank hranked fact.factId]
    exact List.mem_map_of_mem (mem_of_mem_pyTake hfact)

/-- A request answers: with a reader that does, settings that divide by no zero,
seeds the model is sure of and one that is retained. The context is made of the
retained facts. -/
theorem answers (hcap : engine.config.structuralPathCap ≠ 0) (hrrf : 0 < engine.config.rrfK)
    (hreader : ∀ prompt question, ∃ answer, engine.reader prompt question = .ok answer)
    {questionDate : DateTime} {topK : Option Int} {seeds facts : List ScoredFact}
    {data : List GraphDatum}
    (hseed : engine.seed contextId question (rewriteQuery question (engine.rewriterAnswer question))
      (topK.getD engine.config.topK) = .ok seeds)
    (hsure : ∀ seed ∈ seeds, engine.config.abstentionSemanticThreshold ≤ seed.semanticScore)
    (hexpand : engine.expander.expand engine.config contextId seeds
      (resolveTemporal engine.config (engine.temporalAnswer question questionDate)) questionDate =
        .ok (facts, data)) (hfacts : facts ≠ []) :
    ∃ ranked answer, engine.retrieveAndAnswer contextId question questionDate topK =
        .ok (.answered (engine.readerContext contextId question ranked
          (topK.getD engine.config.topK)) answer) ∧
      (ranked.map ScoredFact.factId).Perm (facts.map ScoredFact.factId) := by
  obtain ⟨ranked, hranked⟩ := rank_ok hcap hrrf question
    (engine.fillTexts contextId facts) data (rewriteQuery question (engine.rewriterAnswer question))
  have hperm := perm_rank hranked
  rw [origins_fillTexts] at hperm
  have hids := perm_ids_rank hranked
  refine ⟨ranked, ?_⟩
  have hspeaks : abstains engine.config ranked = false := by
    cases ranked with
    | nil => exact absurd (List.map_eq_nil_iff.mp hperm.nil_eq.symm) hfacts
    | cons best rest =>
        have hbest : best.origin ∈ seeds.map ScoredFact.origin := by
          obtain ⟨fact, hfact, horigin⟩ :=
            List.mem_map.mp (hperm.subset (List.mem_map_of_mem List.mem_cons_self))
          rw [← horigin]
          rcases Expander.expand_eq_ok hexpand with ⟨-, hnil⟩ | ⟨kept, -, rfl, -⟩
          · exact absurd hnil hfacts
          · exact (origins_prune kept seeds).subset (List.mem_map_of_mem hfact)
        obtain ⟨seed, hmem, horigin⟩ := List.mem_map.mp hbest
        have hscore : seed.semanticScore = best.semanticScore := congrArg Prod.snd horigin
        have hge := hsure seed hmem
        simp only [abstains, decide_eq_false_iff_not]
        intro hweak
        exact absurd hweak.1 (not_lt.mpr (hscore ▸ hge))
  obtain ⟨answer, hanswer⟩ := hreader (engine.promptTemplate (engine.readerContext contextId question
    ranked (topK.getD engine.config.topK)).text) question
  refine ⟨answer, ?_, hids⟩
  simp only [retrieveAndAnswer, synthesize, hseed, hexpand, hranked, hspeaks, hanswer,
    Fallible.ok_bind]
  rfl

end RetrievalEngine

end ContextMemory
