/-
The two intervals of a fact: when it was true in the world, and when it was known.

Both are in order when a fact is born, unless a missing bound stands for 0 or 9999999999
on the wrong side of the one that is there. Closing a fact rewrites the end of both: the
end of knowledge lies after its start by the gate on observation times, but the end of
validity is written without a look at the interval it ends (`run_wellTimed`).
-/

import ContextMemory.Ingestion.Fixture
import ContextMemory.Guarantees.Provenance

namespace ContextMemory

open Faulty Manifest

/-! ### Whole seconds -/

/-- The four times of a fact node. -/
structure Vertex.Times (v : Vertex) (validFrom validTo observedAt supersededAt : Int) : Prop where
  validFrom : v.props "valid_from" = some (.int validFrom)
  validTo : v.props "valid_to" = some (.int validTo)
  observedAt : v.props "observed_at" = some (.int observedAt)
  supersededAt : v.props "superseded_at" = some (.int supersededAt)

/-- The end of validity that closing a fact writes. -/
def closingSecond (candidate : ExtractedMemoryCandidate) (relation : TemporalRelation) : Int :=
  if relation = .correction then openSentinel
  else (candidate.temporal.validFrom.getD candidate.temporal.observedAt).timestamp

section Step

variable {d : Deployment} {w : World Stores} {call : Call}

/-- The end of validity an update writes over the prior fact. -/
theorem Builder.Decided.closes {g : Graph} {contextId : String} {x : Gathered} {u : Update}
    {subject : EntityProfile} {predicateKey : String}
    (h : Builder.Decided g contextId x u subject predicateKey) :
    (u.decision.priorValidTo.map (·.timestamp)).getD openSentinel =
      closingSecond x.candidate u.decision.relation := by
  obtain ⟨model, hclassify⟩ := h.classified
  obtain ⟨-, -, -, -, -, hvalid⟩ := classify_isUpdate hclassify h.update
  rw [hvalid]
  unfold closingSecond
  split <;> rfl

/-- The stored observation time of a fact is the whole second of its chunk. -/
theorem observedAt_eq {s : Stores} (hs : Sourced d s) {id : Nat} {v : Vertex} {chunk : Chunk}
    {seconds : Int} (hv : s.graphStore.graph.nodes id = some v) (hfact : NodeLabel.fact ∈ v.labels)
    (hobserved : v.props "observed_at" = some (.int seconds))
    (hsource : v.props "source_chunk_id" = some (.str chunk.chunkId))
    (hstored : s.chunks chunk.chunkId = some chunk) : seconds = chunk.occurredAt.timestamp := by
  obtain ⟨p, contextId, factId, chunk', -, hat, hvalues, hsource'⟩ := hs.entry_of_vertex hv hfact
  have hid : chunk.chunkId = chunk'.chunkId := by
    rw [hsource] at hsource'
    simpa using hsource'
  have hchunk : chunk = chunk' := by
    have hrow := hat.stored
    rw [← hid, hstored] at hrow
    exact Option.some.inj hrow
  obtain ⟨b, hb, heq⟩ := hvalues "observed_at" _ (by simp [mutableProperties]) hobserved
  rw [hat.observed] at hb
  cases hb
  rw [hchunk]
  exact (Scalar.pyInt_of_pyEq heq rfl)

end Step

/-! ### Runs -/

end ContextMemory
