/-
The production extractor: `LLMExtractor` (`ingestion/model_adapters.py`), and
`PrefetchingExtractor` around it (`evaluation/benchmark_runner.py`).

One extraction sees its own provider and draws its own `uuid4`s, so the same response gives
the same facts under new ids each time. A call that fails for good is an empty extraction.
-/

import ContextMemory.Client.Llm
import ContextMemory.Ingestion.Extraction

namespace ContextMemory

/-! ### Items to drafts -/

/-- `_ExtractedFactItem`. -/
structure ExtractedFactItem where
  text : String
  action : Action := .add
  predicateKey : Option String := none
  entities : List String := []
  confidence : Rat := 95 / 100
  exactQuote : Option String := none
deriving DecidableEq

/-- `_FactExtractionResponse`. -/
structure FactExtractionResponse where
  facts : List ExtractedFactItem := []
deriving DecidableEq

/-- `content.find(quote)`. -/
def findText (content quote : List Char) : Option Nat :=
  content.tails.findIdx? quote.isPrefixOf

/-- `item.exact_quote or item.text`. -/
def ExtractedFactItem.quote (item : ExtractedFactItem) : String :=
  match item.exactQuote with
  | none => item.text
  | some quote => if quote = "" then item.text else quote

/-- The source span of a quote: the whole content if it is not found. -/
def quoteSpan (content quote : String) : Int × Int :=
  let span : Int × Int := match findText content.toList quote.toList with
    | none => (0, content.length)
    | some start => (start, start + quote.length)
  if span.2 ≤ span.1 then (span.1, max content.length (span.1 + 1)) else span

theorem findText_spec {content quote : List Char} {start : Nat}
    (h : findText content quote = some start) : quote <+: content.drop start := by
  obtain ⟨hlt, hpart, -⟩ := List.findIdx?_eq_some_iff_getElem.mp h
  rw [List.getElem_tails, List.isPrefixOf_iff_prefix] at hpart
  exact hpart

/-- What occurs in the content is found. -/
theorem findText_ne_none {content quote : List Char} (h : quote <:+: content) :
    findText content quote ≠ none := by
  obtain ⟨before, after, rfl⟩ := h
  intro hnone
  have hall := List.findIdx?_eq_none_iff.mp hnone (quote ++ after)
    ((List.mem_tails _ _).mpr ⟨before, by rw [List.append_assoc]⟩)
  rw [← Bool.not_eq_true, List.isPrefixOf_iff_prefix] at hall
  exact hall (List.prefix_append quote after)

theorem ExtractedFactItem.quote_ne {item : ExtractedFactItem} (h : item.text ≠ "") :
    item.quote ≠ "" := by
  unfold quote
  split
  · exact h
  · split
    · exact h
    · assumption

/-- The span of a quote lies in the content, at the quote if the content has it. -/
theorem quoteSpan_spec {content quote : String} (hcontent : content ≠ "") (hquote : quote ≠ "") :
    0 ≤ (quoteSpan content quote).1 ∧ (quoteSpan content quote).1 < (quoteSpan content quote).2 ∧
      (quoteSpan content quote).2 ≤ content.length ∧
      (quote.toList <:+: content.toList →
        (content.toList.take (quoteSpan content quote).2.toNat).drop
          (quoteSpan content quote).1.toNat = quote.toList) := by
  have hcontentPos : 0 < content.length := by
    rw [← String.length_toList, List.length_pos_iff]
    simpa using hcontent
  have hquotePos : 0 < quote.length := by
    rw [← String.length_toList, List.length_pos_iff]
    simpa using hquote
  cases hfind : findText content.toList quote.toList with
  | none =>
      have hspan : quoteSpan content quote = (0, (content.length : Int)) := by
        simp only [quoteSpan, hfind]
        rw [if_neg (by omega)]
      rw [hspan]
      refine ⟨by simp, by simpa using hcontentPos, by simp, fun hinside => ?_⟩
      exact absurd hfind (findText_ne_none hinside)
  | some start =>
      have hspan : quoteSpan content quote = ((start : Int), (start : Int) + quote.length) := by
        simp only [quoteSpan, hfind]
        rw [if_neg (by omega)]
      obtain ⟨after, hafter⟩ := findText_spec hfind
      have hlength := congrArg List.length hafter
      rw [List.length_append, List.length_drop, String.length_toList, String.length_toList] at hlength
      rw [hspan]
      refine ⟨by simp, by simpa using hquotePos, by simp only; omega, fun _ => ?_⟩
      have hend : ((start : Int) + quote.length).toNat = start + quote.toList.length := by
        rw [String.length_toList]
        omega
      rw [hend, List.drop_take, Int.toNat_natCast, ← hafter, Nat.add_sub_cancel_left,
        List.take_left]

def entityCandidate (surface : String) : Option EntityCandidate :=
  if h : strip surface = "" then none else some { surface := strip surface, surface_ne := h }

/-- `max(0.0, min(1.0, float(item.confidence)))`. -/
def clampUnit (confidence : Rat) : Rat := max 0 (min 1 confidence)

theorem clampUnit_unit (confidence : Rat) : 0 ≤ clampUnit confidence ∧ clampUnit confidence ≤ 1 := by
  constructor
  · exact le_max_left 0 _
  · exact max_le (by decide) (min_le_left 1 confidence)

/-- `f"cand-{uuid.uuid4().hex[:12]}"`. -/
def candidateIdOf (uuid4 : String) : String := "cand-" ++ String.ofList (uuid4.toList.take 12)

theorem candidateIdOf_ne (uuid4 : String) : candidateIdOf uuid4 ≠ "" := by
  unfold candidateIdOf
  simp

theorem userScope_ne : some "user" ≠ some "" := by decide

/-- The draft of an item whose text is not blank. -/
def ExtractedFactItem.draft (item : ExtractedFactItem) (content uuid4 : String)
    (h : strip item.text ≠ "") : ExtractionDraft where
  candidateId := candidateIdOf uuid4
  text := strip item.text
  sourceStart := (quoteSpan content item.quote).1
  sourceEnd := (quoteSpan content item.quote).2
  confidence := clampUnit item.confidence
  memoryType := some .semantic
  scopeType := some .user
  scopeId := some "user"
  entities := item.entities.filterMap entityCandidate
  action := item.action
  predicateKey := item.predicateKey
  candidateId_ne := candidateIdOf_ne uuid4
  text_ne := h
  confidence_unit := clampUnit_unit item.confidence
  scopeId_ne := userScope_ne

/-- The loop over `res.facts`; a blank item draws no id. -/
def draftsOf (content : String) (uuid4 : Nat → String) :
    (drawn : Nat) → List ExtractedFactItem → List ExtractionDraft
  | _, [] => []
  | drawn, item :: rest =>
      if h : strip item.text = "" then draftsOf content uuid4 drawn rest
      else item.draft content (uuid4 drawn) h :: draftsOf content uuid4 (drawn + 1) rest

/-! ### The extractor -/

/-- What one extraction sees of the world: the provider's answers and the ids it draws. -/
structure LLMSession where
  provider : Provider
  uuid4 : Nat → String

structure LLMExtractor where
  client : LLMClient
  settings : CompletionSettings
  schema : ResponseSchema FactExtractionResponse

namespace LLMExtractor

variable (llm : LLMExtractor)

def userPrompt (record : ContextRecord) : String :=
  "Speaker: " ++ record.actorRole.getD "None" ++ "\nContent: " ++ record.content ++
    "\n\nExtract atomic facts:"

/-- The extraction call of a record. -/
def complete (session : LLMSession) (record : ContextRecord) :
    Except Exn FactExtractionResponse :=
  llm.client.structuredCompletion llm.schema llm.settings session.provider (userPrompt record)

/-- `LLMExtractor.extract`. -/
def extract (session : LLMSession) (record : ContextRecord) : List ExtractionDraft :=
  if isBlank record.content then []
  else
    match llm.complete session record with
    | .error _ => []
    | .ok response => draftsOf record.content session.uuid4 0 response.facts

/-- The extractor as the service calls it. -/
def extractor (session : ContextRecord → LLMSession) : Extractor where
  name := "llm-extractor"
  version := "v1"
  extract record := .ok (llm.extract (session record) record)

/-- The exception of a failed call ends in the extractor. -/
theorem extract_of_failed {session : LLMSession} {record : ContextRecord} {e : Exn}
    (h : llm.complete session record = .error e) : llm.extract session record = [] := by
  unfold extract
  rw [h]
  split <;> rfl

end LLMExtractor

/-! ### Prefetching -/

/-- The warm cache of a `PrefetchingExtractor`. -/
abbrev DraftCache := String → Option (List ExtractionDraft)

/-- `prefetch`, one future after another: a record whose extraction raised has no drafts. -/
def prefetch (inner : ContextRecord → Except Exn (List ExtractionDraft)) (cache : DraftCache)
    (records : List ContextRecord) : DraftCache :=
  records.foldl (fun cache record => Function.update cache record.recordId
    (some ((inner record).toOption.getD []))) cache

/-- `PrefetchingExtractor.extract`: a cached result is handed over once. -/
def extractCached (inner : ContextRecord → Except Exn (List ExtractionDraft)) (cache : DraftCache)
    (record : ContextRecord) : Except Exn (List ExtractionDraft) × DraftCache :=
  match cache record.recordId with
  | some drafts => (.ok drafts, Function.update cache record.recordId none)
  | none => (inner record, cache)

/-- Prefetching leaves the entries of other records. -/
theorem prefetch_frame (inner : ContextRecord → Except Exn (List ExtractionDraft))
    {records : List ContextRecord} {id : String} (h : id ∉ records.map (·.recordId))
    (cache : DraftCache) : prefetch inner cache records id = cache id := by
  induction records generalizing cache with
  | nil => rfl
  | cons first rest ih =>
      rw [List.map_cons, List.mem_cons, not_or] at h
      exact (ih h.2 _).trans (Function.update_of_ne h.1 _ _)

/-- A prefetched record hands over what its extraction returned, and nothing if
it raised. -/
theorem prefetch_eq_some (inner : ContextRecord → Except Exn (List ExtractionDraft))
    {records : List ContextRecord} (hids : (records.map (·.recordId)).Nodup)
    {record : ContextRecord} (h : record ∈ records) (cache : DraftCache) :
    prefetch inner cache records record.recordId = some ((inner record).toOption.getD []) := by
  induction records generalizing cache with
  | nil => exact absurd h List.not_mem_nil
  | cons first rest ih =>
      obtain ⟨hfresh, hrest⟩ := List.nodup_cons.mp hids
      rcases List.mem_cons.mp h with rfl | hmem
      · exact (prefetch_frame inner hfresh _).trans (Function.update_self _ _ _)
      · exact ih hrest hmem _

/-- How the service reaches the extractor: by itself, or behind a cache that was warmed for the
batch. -/
inductive Route where
  | direct
  | prefetched
deriving DecidableEq

/-- The extractor behind the route; the wrapper passes on name and version. -/
def LLMExtractor.via (llm : LLMExtractor) (session : ContextRecord → LLMSession)
    (batch : ContextBatch) : Route → Extractor
  | .direct => llm.extractor session
  | .prefetched =>
      let inner := llm.extractor session
      { inner with extract := fun record =>
          (extractCached inner.extract (prefetch inner.extract (fun _ => none) batch.records)
            record).1 }

/-- The route makes no difference to what is extracted. -/
theorem LLMExtractor.via_extract (llm : LLMExtractor) (session : ContextRecord → LLMSession)
    {batch : ContextBatch} {record : ContextRecord} (h : record ∈ batch.records) (route : Route) :
    (llm.via session batch route).extract record =
      .ok (llm.extract (session record) record) := by
  cases route with
  | direct => rfl
  | prefetched =>
      have hcached := prefetch_eq_some (llm.extractor session).extract batch.recordIds_nodup h
        fun _ => none
      simp only [LLMExtractor.via, extractCached, hcached]
      rfl

/-! ### Histories of a prefetching extractor -/

/-- One call on a `PrefetchingExtractor`. The futures of a `prefetch` complete in any order,
which is the order the cache is filled in. -/
inductive ExtractorCall where
  | prefetch (records completed : List ContextRecord) (order : completed.Perm records)
  | extract (record : ContextRecord)

section Histories

variable (inner : ContextRecord → Except Exn (List ExtractionDraft))

/-- The cache a call leaves. -/
def ExtractorCall.cacheAfter (cache : DraftCache) : ExtractorCall → DraftCache
  | .prefetch _ completed _ => ContextMemory.prefetch inner cache completed
  | .extract record => (extractCached inner cache record).2

/-- The `extract` calls of a history, each with what it gave. -/
def extractAnswers : DraftCache → List ExtractorCall →
    List (ContextRecord × Except Exn (List ExtractionDraft))
  | _, [] => []
  | cache, .prefetch records completed order :: calls =>
      extractAnswers ((ExtractorCall.prefetch records completed order).cacheAfter inner cache) calls
  | cache, .extract record :: calls =>
      (record, (extractCached inner cache record).1) ::
        extractAnswers ((ExtractorCall.extract record).cacheAfter inner cache) calls

/-- What a call leaves waiting under an id, if `last` waited there before. -/
def ExtractorCall.waitingAfter (id : String) (last : Option ContextRecord) :
    ExtractorCall → Option ContextRecord
  | .prefetch _ completed _ =>
      completed.foldl (fun last record => if record.recordId = id then some record else last) last
  | .extract record => if record.recordId = id then none else last

/-- The record that waits under an id: the last of that id to complete since the id was last
asked for. -/
def waiting (id : String) (calls : List ExtractorCall) : Option ContextRecord :=
  calls.foldl (ExtractorCall.waitingAfter id) none

/-- What the cache holds for a record that waits. -/
def cachedDrafts (record : ContextRecord) : List ExtractionDraft :=
  (inner record).toOption.getD []

variable {inner}

theorem prefetch_waiting {cache : DraftCache} {id : String} {last : Option ContextRecord}
    (h : cache id = last.map (cachedDrafts inner)) (completed : List ContextRecord) :
    prefetch inner cache completed id =
      (completed.foldl (fun last record => if record.recordId = id then some record else last)
        last).map (cachedDrafts inner) := by
  induction completed generalizing cache last with
  | nil => exact h
  | cons record completed ih =>
      refine ih ?_
      dsimp only
      by_cases hid : record.recordId = id
      · rw [if_pos hid, ← hid, Function.update_self]
        rfl
      · rw [if_neg hid, Function.update_of_ne (Ne.symm hid)]
        exact h

/-- One call keeps the cache in step with what waits. -/
theorem cacheAfter_waiting {cache : DraftCache} {id : String} {last : Option ContextRecord}
    (h : cache id = last.map (cachedDrafts inner)) (call : ExtractorCall) :
    call.cacheAfter inner cache id = (call.waitingAfter id last).map (cachedDrafts inner) := by
  cases call with
  | prefetch records completed order => exact prefetch_waiting h completed
  | extract record =>
      simp only [ExtractorCall.cacheAfter, ExtractorCall.waitingAfter, extractCached]
      by_cases hid : record.recordId = id
      · subst hid
        rw [if_pos rfl]
        cases hcache : cache record.recordId with
        | none => exact hcache
        | some drafts => exact Function.update_self _ _ _
      · rw [if_neg hid, ← h]
        cases cache record.recordId with
        | none => rfl
        | some drafts => exact Function.update_of_ne (Ne.symm hid) _ _

/-- After any history the cache holds, under each id, the extraction of the
record that waits there. -/
theorem cache_eq_waiting (calls : List ExtractorCall) (id : String) :
    calls.foldl (ExtractorCall.cacheAfter inner) (fun _ => none) id =
      (waiting id calls).map (cachedDrafts inner) := by
  induction calls using List.reverseRecOn with
  | nil => rfl
  | append_singleton calls call ih =>
      rw [waiting, List.foldl_append, List.foldl_append]
      exact cacheAfter_waiting ih call

/-- An answer of a history is the answer to one of its `extract` calls, after
the calls before. -/
theorem mem_extractAnswers {calls : List ExtractorCall} (cache : DraftCache)
    {answer : ContextRecord × Except Exn (List ExtractionDraft)} :
    answer ∈ extractAnswers inner cache calls ↔
      ∃ before record after, calls = before ++ .extract record :: after ∧
        answer = (record, (extractCached inner
          (before.foldl (ExtractorCall.cacheAfter inner) cache) record).1) := by
  induction calls generalizing cache with
  | nil => simp [extractAnswers]
  | cons call calls ih =>
      constructor
      · intro h
        cases call with
        | prefetch records completed order =>
            obtain ⟨before, record, after, rfl, hanswer⟩ := (ih _).mp h
            exact ⟨.prefetch records completed order :: before, record, after, rfl, hanswer⟩
        | extract asked =>
            rcases List.mem_cons.mp h with rfl | h
            · exact ⟨[], asked, calls, rfl, rfl⟩
            · obtain ⟨before, record, after, rfl, hanswer⟩ := (ih _).mp h
              exact ⟨.extract asked :: before, record, after, rfl, hanswer⟩
      · rintro ⟨before, record, after, hcalls, hanswer⟩
        cases before with
        | nil =>
            obtain ⟨rfl, rfl⟩ := List.cons.inj hcalls
            exact List.mem_cons.mpr (Or.inl hanswer)
        | cons first before =>
            obtain ⟨rfl, rfl⟩ := List.cons.inj hcalls
            have hlater := (ih (call.cacheAfter inner cache)).mpr ⟨before, record, after, rfl, hanswer⟩
            cases call with
            | prefetch records completed order => exact hlater
            | extract asked => exact List.mem_cons_of_mem _ hlater

/-- What `extract` gives after a history: the drafts of the record that waits
under the id, or the inner extraction if none does. -/
theorem extractCached_of_waiting (calls : List ExtractorCall) (record : ContextRecord) :
    (extractCached inner (calls.foldl (ExtractorCall.cacheAfter inner) fun _ => none) record).1 =
      match waiting record.recordId calls with
      | some waited => .ok (cachedDrafts inner waited)
      | none => inner record := by
  simp only [extractCached, cache_eq_waiting]
  cases waiting record.recordId calls with
  | none => rfl
  | some waited => rfl

end Histories

end ContextMemory
