/-
The facts of a response, through the extraction service.

The drafts that `LLMExtractor` makes pass every check of `ExtractionService`: each item with a text
becomes one candidate, in order, and none is rejected (`llm_facts_accepted`).
-/

import ContextMemory.Guarantees.Retries

namespace ContextMemory

/-- `content[start:end]` of a span that counts from the start. -/
def SourceSpan.slice (span : SourceSpan) (content : String) : List Char :=
  (content.toList.take span.sourceEnd.toNat).drop span.sourceStart.toNat

/-- The items that have a text. -/
def FactExtractionResponse.written (response : FactExtractionResponse) : List ExtractedFactItem :=
  response.facts.filter fun item => strip item.text ≠ ""

/-- A candidate has the text of its item, and a span of the content: that of the quote, if the
quote occurs there. -/
structure InContent (content : String) (item : ExtractedFactItem)
    (candidate : ExtractedMemoryCandidate) : Prop where
  text : candidate.text = strip item.text
  start_nonneg : 0 ≤ candidate.sourceSpan.sourceStart
  start_lt : candidate.sourceSpan.sourceStart < candidate.sourceSpan.sourceEnd
  end_le : candidate.sourceSpan.sourceEnd ≤ content.length
  quoted : item.quote.toList <:+: content.toList →
    candidate.sourceSpan.slice content = item.quote.toList

section Acceptance

variable {batch : ContextBatch} {record : ContextRecord}

/-- A candidate with a span of its record and the record's time, but no bounds,
is valid. -/
theorem validateCandidate_of_span {candidate : ExtractedMemoryCandidate}
    (hrecord : record ∈ batch.records)
    (hsource : candidate.sourceSpan.sourceRecordId = record.recordId)
    (htemporal : candidate.temporal = ⟨record.occurredAt, none, none⟩)
    (hspan : 0 ≤ candidate.sourceSpan.sourceStart ∧
      candidate.sourceSpan.sourceStart < candidate.sourceSpan.sourceEnd ∧
      candidate.sourceSpan.sourceEnd ≤ record.content.length) :
    validateCandidate candidate batch.records = .ok () := by
  rw [validateCandidate, hsource, ContextBatch.find_record hrecord]
  dsimp only
  rw [if_neg (not_not.mpr hspan), htemporal]
  exact if_neg (not_not.mpr rfl)

/-- The draft of an item is accepted. -/
theorem assessDraft_item (hrecord : record ∈ batch.records) {item : ExtractedFactItem}
    (htext : strip item.text ≠ "") (uuid4 : String) :
    ∃ candidate, assessDraft batch record (item.draft record.content uuid4 htext) = .ok candidate ∧
      InContent record.content item candidate := by
  have hitem : item.text ≠ "" := by
    intro hempty
    rw [hempty] at htext
    exact htext rfl
  obtain ⟨hstart, hlt, hend, hquoted⟩ :=
    quoteSpan_spec record.content_ne (ExtractedFactItem.quote_ne hitem)
  obtain ⟨candidate, hresolve, hspan, htemporal⟩ :=
    resolveDraft_item batch record record.content htext uuid4
  have hvalid : validateCandidate candidate batch.records = .ok () := by
    refine validateCandidate_of_span hrecord ?_ htemporal ?_
    · rw [hspan]
    · rw [hspan]
      exact ⟨hstart, hlt, hend⟩
  refine ⟨candidate, ?_, ?_⟩
  · simp only [assessDraft, hresolve, hvalid]
  · refine ⟨(resolveDraft_eq_ok hresolve).2.1, ?_, ?_, ?_, ?_⟩
    · rwa [hspan]
    · rwa [hspan]
    · rwa [hspan]
    · intro hinside
      rw [hspan]
      exact hquoted hinside

/-- All drafts of a response are accepted, in order. -/
theorem draftsOf_accepted (hrecord : record ∈ batch.records) (uuid4 : Nat → String) (drawn : Nat)
    (items : List ExtractedFactItem) :
    rejectedDrafts batch record (draftsOf record.content uuid4 drawn items) = [] ∧
      List.Forall₂ (InContent record.content) (items.filter fun item => strip item.text ≠ "")
        (acceptedDrafts batch record (draftsOf record.content uuid4 drawn items)) := by
  induction items generalizing drawn with
  | nil => exact ⟨rfl, List.Forall₂.nil⟩
  | cons item rest ih =>
      unfold draftsOf
      split
      · rename_i hblank
        rw [List.filter_cons_of_neg (by simp [hblank])]
        exact ih drawn
      · rename_i htext
        obtain ⟨candidate, hassess, hplaced⟩ := assessDraft_item hrecord htext (uuid4 drawn)
        obtain ⟨hrejected, haccepted⟩ := ih (drawn + 1)
        rw [List.filter_cons_of_pos (by simp [htext])]
        constructor
        · rw [rejectedDrafts, List.filterMap_cons, hassess]
          exact hrejected
        · rw [acceptedDrafts, List.filterMap_cons, hassess]
          exact List.Forall₂.cons hplaced haccepted

end Acceptance

/-- **Every fact of a response is accepted.** The extraction of a record by the
production extractor rejects no draft and accepts one candidate for each item
with a text, in order, each at its quote where the content has it. Where the
quote does not occur, the span is another one of the content, and never an empty
one. -/
theorem llm_facts_accepted (sha256 : String → String)
    (reprDrafts : List ExtractionDraft → String) (llm : LLMExtractor)
    (session : ContextRecord → LLMSession) {batch : ContextBatch} {record : ContextRecord}
    (hrecord : record ∈ batch.records) (hcontent : isBlank record.content = false)
    {response : FactExtractionResponse}
    (hresponse : llm.complete (session record) record = .ok response) :
    ∃ result, extractChunk sha256 reprDrafts (llm.extractor session) batch record
        (chunkFromRecord sha256 batch record) = .ok result ∧
      result.rejected = [] ∧
      List.Forall₂ (InContent record.content) response.written result.accepted := by
  have hextract : llm.extract (session record) record =
      draftsOf record.content (session record).uuid4 0 response.facts := by
    rw [LLMExtractor.extract, hcontent, hresponse]
    rfl
  have hdrafts : (llm.extractor session).extract record =
      .ok (draftsOf record.content (session record).uuid4 0 response.facts) :=
    congrArg Except.ok hextract
  have hchunk : ¬((chunkFromRecord sha256 batch record).contextId ≠ batch.contextId ∨
      (chunkFromRecord sha256 batch record).sourceRecordId ≠ record.recordId) := by
    rintro (h | h) <;> exact h rfl
  have hallowed : ("llm-extractor", "v1") ∈ allowedExtractors := by decide
  have hname : ¬((llm.extractor session).name, (llm.extractor session).version) ∉
      allowedExtractors := not_not.mpr hallowed
  rw [extractChunk, if_neg hchunk, if_neg hname, hdrafts]
  exact ⟨_, rfl, draftsOf_accepted hrecord _ 0 response.facts⟩

/-- The response about the first turn, to a record that is not blank. What it
says is accepted. -/
theorem llm_facts_accepted_boston :
    ∃ result, extractChunk fixtureDeployment.sha256 (fun _ => "")
        (fixtureLlm.extractor fun _ => answered "0a1b2c3d4e5f") (moveBatch nine ten)
        (bostonRecord nine) (chunkFromRecord fixtureDeployment.sha256 (moveBatch nine ten)
          (bostonRecord nine)) = .ok result ∧
      result.rejected = [] ∧
      List.Forall₂ (InContent (bostonRecord nine).content) bostonResponse.written result.accepted :=
  llm_facts_accepted _ _ fixtureLlm (fun _ => answered "0a1b2c3d4e5f") List.mem_cons_self
    (by decide) (fixtureLlm_answered _ _)

end ContextMemory
