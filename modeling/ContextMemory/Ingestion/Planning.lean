/-
`GraphPlanBuilder.build` with the callables it is given.

`resolve`, `update_classifier` and `find_existing_facts` are arguments of `build`. The pipeline
passes the entity registry, its temporal model and the graph lookup (`PlanBuilder`); here they
may be anything that answers. The indices say which question is asked, so an answer need not
be a function of the arguments. What is gathered is assembled by the same `assemble`.
-/

import ContextMemory.Ingestion.PlanBuilder

namespace ContextMemory

/-- The callables of one `build`: the `j`-th question about the `i`-th candidate. -/
structure Callables where
  resolve : (i j : Nat) → (contextId surface entityType : String) → Option EntityProfile
  classify : Option ((i j : Nat) → (newFact priorFact : FactState) → TemporalUpdateDecision) := none
  findExistingFacts : Option ((i : Nat) → (contextId : String) → (subjectId : Nat) →
    (predicateKey : String) → List FactState) := none

namespace Callables

variable (c : Callables)

/-- The loop over `candidate.entities`, from the `j`-th on. -/
def resolveMentions (i : Nat) (contextId : String) :
    (j : Nat) → List EntityCandidate → List Mention
  | _, [] => []
  | j, entity :: rest =>
      ((c.resolve i j contextId entity.surface (orText entity.entityType "other")).map
        (Mention.mk entity.surface)).toList ++ resolveMentions i contextId (j + 1) rest

/-- The loop over `existing_facts`, from the `j`-th on. -/
def classifyAll (classify : Nat → FactState → FactState → TemporalUpdateDecision)
    (newFact : FactState) : (j : Nat) → List FactState → List Update
  | _, [] => []
  | j, prior :: rest =>
      if (classify j newFact prior).isUpdate then
        ⟨prior, classify j newFact prior⟩ :: classifyAll classify newFact (j + 1) rest
      else classifyAll classify newFact (j + 1) rest

/-- The block under `if candidate.action != "DELETE" and ...`. -/
def findUpdates (i : Nat) (contextId : String) (candidate : ExtractedMemoryCandidate)
    (mentions : List Mention) : Except Exn (List Update) :=
  match mentions.head?, candidate.predicateKey, c.classify, c.findExistingFacts with
  | some subject, some predicateKey, some classify, some findExisting =>
      if candidate.action = .delete ∨ predicateKey = "" then .ok []
      else (Builder.newFactState candidate subject.profile predicateKey).make.map fun newFact =>
        classifyAll (classify i) newFact 0
          (findExisting i contextId subject.profile.graphId predicateKey)
  | _, _, _, _ => .ok []

/-- What the loop over `extraction.accepted` finds out about the `i`-th candidate. -/
def gatherOne (contextId : String) (i : Nat) (candidate : ExtractedMemoryCandidate) :
    Except Exn Gathered :=
  let mentions := c.resolveMentions i contextId 0 candidate.entities
  (c.findUpdates i contextId candidate mentions).map fun updates => ⟨candidate, mentions, updates⟩

def gather (contextId : String) :
    (i : Nat) → List ExtractedMemoryCandidate → Except Exn (List Gathered)
  | _, [] => .ok []
  | i, candidate :: rest =>
      match c.gatherOne contextId i candidate with
      | .error e => .error e
      | .ok x => (gather contextId (i + 1) rest).map (x :: ·)

/-- `build`. -/
def build (allocator : GraphIdAllocator) (chunk : Chunk) (now : DateTime)
    (accepted : List ExtractedMemoryCandidate) : Except Exn GraphWritePlan :=
  match turnNode allocator chunk with
  | .error e => .error e
  | .ok turn =>
    match c.gather chunk.contextId 0 accepted with
    | .error e => .error e
    | .ok gs => assemble allocator chunk now turn gs

/-! ### What is gathered -/

variable {c} {contextId : String}

/-- Every mention was resolved by the resolver. -/
theorem mem_resolveMentions {i j : Nat} {entities : List EntityCandidate} {m : Mention}
    (h : m ∈ c.resolveMentions i contextId j entities) :
    ∃ k surface entityType, c.resolve i k contextId surface entityType = some m.profile := by
  induction entities generalizing j with
  | nil => cases h
  | cons entity rest ih =>
      rcases List.mem_append.mp h with h | h
      · rw [Option.mem_toList, Option.map_eq_some_iff] at h
        obtain ⟨p, hp, rfl⟩ := h
        exact ⟨_, _, _, hp⟩
      · exact ih h

/-- An accepted candidate makes a `FactState`. -/
theorem make_newFactState {candidate : ExtractedMemoryCandidate} {records : List ContextRecord}
    (hvalid : validateCandidate candidate records = .ok ()) {predicateKey : String}
    (hkey : predicateKey ≠ "") (subject : EntityProfile) :
    (Builder.newFactState candidate subject predicateKey).make =
      .ok (Builder.newFactState candidate subject predicateKey) := by
  unfold FactState.make
  rw [if_neg (by simp [Builder.newFactState, candidate.candidateId_ne, candidate.text_ne, hkey])]
  split
  · rename_i validFrom validTo hfrom hto
    have hle : validFrom ≤ validTo := validateCandidate_bounds hvalid hfrom hto
    have hlt : ¬ validTo < validFrom := Int.not_lt.mpr hle
    rw [if_neg hlt]
  · rfl

/-- Nothing raises about an accepted candidate. -/
theorem gatherOne_ok (c : Callables) (contextId : String) (i : Nat)
    {candidate : ExtractedMemoryCandidate} {records : List ContextRecord}
    (hvalid : validateCandidate candidate records = .ok ()) :
    ∃ updates, c.gatherOne contextId i candidate =
      .ok ⟨candidate, c.resolveMentions i contextId 0 candidate.entities, updates⟩ := by
  suffices h : ∃ updates, c.findUpdates i contextId candidate
      (c.resolveMentions i contextId 0 candidate.entities) = .ok updates by
    obtain ⟨updates, hupdates⟩ := h
    exact ⟨updates, by rw [gatherOne, hupdates]; rfl⟩
  unfold findUpdates
  split
  · split
    · exact ⟨[], rfl⟩
    · rename_i hact
      obtain ⟨-, hkey⟩ := not_or.mp hact
      exact ⟨_, by rw [make_newFactState hvalid hkey]; rfl⟩
  · exact ⟨[], rfl⟩

/-- What was gathered about accepted candidates: one finding each, in order. -/
theorem gather_ok (c : Callables) (contextId : String) (i : Nat)
    {accepted : List ExtractedMemoryCandidate} {records : List ContextRecord}
    (hvalid : ∀ candidate ∈ accepted, validateCandidate candidate records = .ok ()) :
    ∃ gs, c.gather contextId i accepted = .ok gs ∧ gs.map (·.candidate) = accepted ∧
      ∀ x ∈ gs, ∃ k, c.gatherOne contextId k x.candidate = .ok x := by
  induction accepted generalizing i with
  | nil => exact ⟨[], rfl, rfl, by simp⟩
  | cons candidate rest ih =>
      obtain ⟨updates, hone⟩ :=
        gatherOne_ok c contextId i (hvalid _ List.mem_cons_self)
      obtain ⟨gs, hgs, hmap, hall⟩ := ih (i + 1) fun d hd => hvalid d (List.mem_cons_of_mem _ hd)
      refine ⟨_ :: gs, by rw [gather, hone, hgs]; rfl, by rw [List.map_cons, hmap], ?_⟩
      intro x hx
      rcases List.mem_cons.mp hx with rfl | hx
      · exact ⟨i, hone⟩
      · exact hall x hx

theorem gatherOne_eq_ok {i : Nat} {candidate : ExtractedMemoryCandidate} {x : Gathered}
    (h : c.gatherOne contextId i candidate = .ok x) :
    x.candidate = candidate ∧ x.mentions = c.resolveMentions i contextId 0 candidate.entities ∧
      c.findUpdates i contextId candidate x.mentions = .ok x.updates := by
  unfold gatherOne at h
  dsimp only at h
  cases hupdates : c.findUpdates i contextId candidate
      (c.resolveMentions i contextId 0 candidate.entities) with
  | error e =>
      rw [hupdates] at h
      cases h
  | ok updates =>
      rw [hupdates] at h
      cases h
      exact ⟨rfl, rfl, hupdates⟩

end Callables

end ContextMemory
