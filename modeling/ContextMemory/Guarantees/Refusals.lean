/-
Turns that are refused.

`add_turn_async` files a turn before the adapter looks at it, so a turn that the adapter refuses
stays in the buffer and is never ingested. A call that is refused leaves no trace exactly if the
database refuses it first (`refused_traceless_iff`).
-/

import ContextMemory.Lib.Fallible
import ContextMemory.Ingestion.MemoryEngine

namespace ContextMemory

namespace MemoryEngine

/-! ### The adapter -/

/-- What the adapter accepts. -/
structure Turn.Valid (turn : Turn) : Prop where
  contextId : turn.contextId ≠ ""
  sessionId : turn.sessionId ≠ ""
  role : turn.role = "user" ∨ turn.role = "assistant"
  content : turn.content ≠ ""
  timestamp : ∃ instant, turn.timestamp = .aware instant

def batchTurns (batch : ContextBatch) : List Turn :=
  batch.records.map fun record => ⟨batch.contextId, record.sessionId.getD "",
    record.actorRole.getD "", record.content, .aware record.occurredAt⟩

/-- A valid turn becomes a batch of itself. -/
theorem adaptChatTurn_valid {turn : Turn} (h : turn.Valid) (recordUuid : String)
    {ingestionId : String} (hingestion : ingestionId ≠ "") :
    ∃ batch, adaptChatTurn turn recordUuid ingestionId = .ok batch ∧ batchTurns batch = [turn] := by
  obtain ⟨contextId, sessionId, role, content, timestamp⟩ := turn
  obtain ⟨hcontext, hsession, hrole, hcontent, occurredAt, htimestamp⟩ := h
  dsimp only at hcontext hsession hrole hcontent htimestamp
  subst htimestamp
  have hne : role ≠ "" := by rcases hrole with rfl | rfl <;> decide
  have hknown : ¬(role ≠ "user" ∧ role ≠ "assistant") := by tauto
  unfold adaptChatTurn
  simp only [requiredText_str hcontext, requiredText_str hsession, requiredText_str hne,
    requiredText_str hcontent, requiredText_str hingestion, Fallible.ok_bind, if_neg hknown]
  rw [show SourceDescriptor.make "chat" "live" = .ok ⟨"chat", "live"⟩ from rfl, Fallible.ok_bind]
  obtain ⟨batch, hbatch, hctx, hrecords⟩ := ContextBatch.make_singleton hingestion hcontext _ _
  exact ⟨batch, hbatch, by rw [batchTurns, hctx, hrecords]; rfl⟩

/-- Whatever else is refused. -/
theorem adaptChatTurn_invalid {turn : Turn} (h : ¬turn.Valid) (recordUuid ingestionId : String) :
    ∃ field message, adaptChatTurn turn recordUuid ingestionId =
      .error (.contractValidation field message) := by
  obtain ⟨contextId, sessionId, role, content, timestamp⟩ := turn
  unfold adaptChatTurn
  by_cases hcontext : contextId = ""
  · exact ⟨_, _, by rw [hcontext]; rfl⟩
  by_cases hsession : sessionId = ""
  · exact ⟨_, _, by simp only [requiredText_str hcontext, hsession]; rfl⟩
  by_cases hempty : role = ""
  · exact ⟨_, _, by simp only [requiredText_str hcontext, requiredText_str hsession, hempty]; rfl⟩
  simp only [requiredText_str hcontext, requiredText_str hsession, requiredText_str hempty,
    Fallible.ok_bind]
  split
  · exact ⟨_, _, rfl⟩
  rename_i hknown
  by_cases hcontent : content = ""
  · exact ⟨_, _, by rw [hcontent]; rfl⟩
  rw [requiredText_str hcontent, Fallible.ok_bind]
  cases timestamp with
  | naive micros => exact ⟨_, _, rfl⟩
  | aware instant => exact absurd ⟨hcontext, hsession, by tauto, hcontent, instant, rfl⟩ h

/-! ### One call -/

/-- The condition: the adapter accepts the turn, or the database refuses it first. -/
def Admissible (s : EngineState) (turn : Turn) : Prop :=
  turn.Valid ∨ turn.storable = false ∨ maxInteger < nextIndex s.rows turn.conversation

/-- Everything `add_turn_async` can do. -/
inductive Added (s : EngineState) (turn : Turn) : Except Exn Unit × EngineState → Prop
  | unfiled {message} : turn.storable = false ∨ maxInteger < nextIndex s.rows turn.conversation →
      Added s turn (.error (.provider message), s)
  | refused {n field message} : ¬Admissible s turn → Added s turn
      (.error (.contractValidation field message), { s with rows := s.rows ++ [turn.row n] })
  | added {n batch} : turn.Valid → batchTurns batch = [turn] → Added s turn
      (.ok (), { rows := s.rows ++ [turn.row n], submitted := s.submitted ++ [batch] })

theorem added (s : EngineState) (turn : Turn) (uuids : Uuids) :
    Added s turn (addTurnAsync s turn uuids) := by
  unfold addTurnAsync
  by_cases hids : (hasNul turn.conversation.1 || hasNul turn.conversation.2) = true
  · have hselect : selectTurnIndex s.rows turn.conversation = .error nulRefused := by
      rw [selectTurnIndex, if_pos hids]
    have hstorable : turn.storable = false := by
      rw [Bool.or_eq_true] at hids
      rcases hids with hnul | hnul
      · simp [Turn.storable, show hasNul turn.contextId = true from hnul]
      · simp [Turn.storable, show hasNul turn.sessionId = true from hnul]
    rw [hselect]
    exact .unfiled (Or.inl hstorable)
  by_cases hfull : maxInteger < nextIndex s.rows turn.conversation
  · have hselect : selectTurnIndex s.rows turn.conversation =
        .error (.provider "integer out of range") := by
      rw [selectTurnIndex, if_neg hids, if_pos hfull]
    rw [hselect]
    exact .unfiled (Or.inr hfull)
  have hselect : selectTurnIndex s.rows turn.conversation =
      .ok (nextIndex s.rows turn.conversation) := by
    rw [selectTurnIndex, if_neg hids, if_neg hfull]
  rw [hselect]
  dsimp only [insertTurn]
  by_cases hstorable : turn.storable = true
  · rw [if_pos hstorable]
    dsimp only
    by_cases hvalid : turn.Valid
    · obtain ⟨batch, hbatch, hturns⟩ := adaptChatTurn_valid hvalid uuids.record
        (show "ingest-" ++ uuids.ingestion ≠ "" by simp)
      rw [hbatch]
      exact .added hvalid hturns
    · obtain ⟨field, message, herror⟩ :=
        adaptChatTurn_invalid hvalid uuids.record ("ingest-" ++ uuids.ingestion)
      rw [herror]
      refine .refused ?_
      rintro (hadmitted | hnot | hover)
      · exact hvalid hadmitted
      · simp [hstorable] at hnot
      · exact hfull hover
  · rw [if_neg hstorable]
    exact .unfiled (Or.inl (by simpa using hstorable))

/-- A call that is refused by the contract leaves the state as it was. -/
def Clean (s : EngineState) (turn : Turn) (uuids : Uuids) : Prop :=
  ∀ field message, (addTurnAsync s turn uuids).1 = .error (.contractValidation field message) →
    (addTurnAsync s turn uuids).2 = s

theorem clean_iff (s : EngineState) (turn : Turn) (uuids : Uuids) :
    Clean s turn uuids ↔ Admissible s turn := by
  have hadded := added s turn uuids
  unfold Clean
  generalize addTurnAsync s turn uuids = result at hadded ⊢
  cases hadded with
  | unfiled hrefused => exact ⟨fun _ => Or.inr hrefused, fun _ => by simp⟩
  | @refused n field message hnot =>
      refine ⟨fun h => ?_, fun h => absurd h hnot⟩
      have hrows := congrArg (·.rows.length) (h field message rfl)
      simp at hrows
  | added hvalid _ => exact ⟨fun _ => Or.inl hvalid, fun _ => by simp⟩

/-! ### Sequences of calls -/

def BufferRow.turn (row : BufferRow) : Turn :=
  ⟨row.contextId, row.sessionId, row.role, row.content, row.createdAt⟩

/-- The buffer and the submitted batches hold the same turns, in the same order. -/
def Agree (s : EngineState) : Prop :=
  s.rows.map BufferRow.turn = s.submitted.flatMap batchTurns

theorem Agree.add {s : EngineState} (hs : Agree s) {turn : Turn} (h : Admissible s turn)
    (uuids : Uuids) : Agree (addTurnAsync s turn uuids).2 := by
  have hadded := added s turn uuids
  generalize addTurnAsync s turn uuids = result at hadded ⊢
  cases hadded with
  | unfiled _ => exact hs
  | refused hnot => exact absurd h hnot
  | added _ hturns =>
      rw [Agree, List.map_append, List.flatMap_append, hs, List.flatMap_singleton, hturns]
      rfl

inductive EngineCall where
  | addTurn (turn : Turn) (uuids : Uuids)
  | generateReply (call : ReplyCall)

/-- A call of `add_turn_async`, with the state it meets. -/
structure Invocation where
  before : EngineState
  turn : Turn
  uuids : Uuids

def Invocation.after (v : Invocation) : EngineState := (addTurnAsync v.before v.turn v.uuids).2

/-- What a call leaves. -/
def EngineCall.run (s : EngineState) : EngineCall → EngineState
  | .addTurn turn uuids => (addTurnAsync s turn uuids).2
  | .generateReply call => (MemoryEngine.generateReply s call).2

/-- The calls of `add_turn_async` that a call makes. -/
def EngineCall.invocations (s : EngineState) : EngineCall → List Invocation
  | .addTurn turn uuids => [⟨s, turn, uuids⟩]
  | .generateReply call =>
      ⟨s, call.userTurn, call.userUuids⟩ ::
        match addTurnAsync s call.userTurn call.userUuids, call.answer with
        | (.ok (), s), .ok reply => [⟨s, call.assistantTurn reply, call.assistantUuids⟩]
        | _, _ => []

/-- Those that a sequence of calls makes. -/
def invocations : EngineState → List EngineCall → List Invocation
  | _, [] => []
  | s, call :: calls => call.invocations s ++ invocations (call.run s) calls

/-- A call keeps the agreement if every turn of it is admissible. -/
theorem Agree.call {s : EngineState} (hs : Agree s) (call : EngineCall)
    (h : ∀ v ∈ call.invocations s, Admissible v.before v.turn) :
    (∀ v ∈ call.invocations s, Agree v.after) ∧ Agree (call.run s) := by
  cases call with
  | addTurn turn uuids =>
      have hafter := hs.add (h _ List.mem_cons_self) uuids
      refine ⟨fun v hv => ?_, hafter⟩
      rw [List.mem_singleton.mp hv]
      exact hafter
  | generateReply call =>
      have huser := hs.add (h _ List.mem_cons_self) call.userUuids
      simp only [EngineCall.invocations, EngineCall.run, generateReply] at h ⊢
      rcases haddUser : addTurnAsync s call.userTurn call.userUuids with ⟨result, s'⟩
      rw [haddUser] at huser h
      have hfirst : Agree (Invocation.after ⟨s, call.userTurn, call.userUuids⟩) := by
        rw [Invocation.after, haddUser]
        exact huser
      cases result with
      | error e => exact ⟨by simpa using hfirst, huser⟩
      | ok value =>
          cases hanswer : call.answer with
          | error e => exact ⟨by simpa using hfirst, huser⟩
          | ok reply =>
              rw [hanswer] at h
              have hassistant := huser.add (h ⟨s', call.assistantTurn reply, call.assistantUuids⟩
                (by simp)) call.assistantUuids
              refine ⟨fun v hv => ?_, ?_⟩
              · rcases List.mem_cons.mp hv with rfl | hv
                · exact hfirst
                · rw [List.mem_singleton.mp hv]
                  exact hassistant
              · dsimp only
                rcases haddAssistant : addTurnAsync s' (call.assistantTurn reply) call.assistantUuids
                  with ⟨result', s''⟩
                rw [haddAssistant] at hassistant
                cases result' <;> exact hassistant

theorem Agree.calls {s : EngineState} (hs : Agree s) (calls : List EngineCall)
    (h : ∀ v ∈ invocations s calls, Admissible v.before v.turn) :
    ∀ v ∈ invocations s calls, Agree v.after := by
  induction calls generalizing s with
  | nil => simp [invocations]
  | cons call calls ih =>
      obtain ⟨hcall, hrun⟩ := hs.call call fun v hv => h v (List.mem_append_left _ hv)
      intro v hv
      rcases List.mem_append.mp hv with hv | hv
      · exact hcall v hv
      · exact ih hrun (fun v hv => h v (List.mem_append_right _ hv)) v hv

/-- **Refused turns.** Over any sequence of calls: every refused turn leaves no
trace, and buffer and batches hold the same turns all along, exactly if every
turn that comes up is one the adapter accepts or the database refuses before it
is filed. The row is committed to the buffer before the adapter looks at the
turn, and nothing takes it back. -/
theorem refused_traceless_iff (calls : List EngineCall) :
    ((∀ v ∈ invocations {} calls, Clean v.before v.turn v.uuids) ∧
        ∀ v ∈ invocations {} calls, Agree v.after) ↔
      ∀ v ∈ invocations {} calls, Admissible v.before v.turn := by
  constructor
  · intro h v hv
    exact (clean_iff v.before v.turn v.uuids).mp (h.1 v hv)
  · intro h
    exact ⟨fun v hv => (clean_iff v.before v.turn v.uuids).mpr (h v hv),
      (show Agree {} from rfl).calls calls h⟩

/-- The reader returns an empty reply. -/
def emptyReply : ReplyCall where
  contextId := "chat"
  sessionId := "session"
  userMessage := "Hello."
  now := ⟨1767258000000000, 0⟩
  answer := .ok ""
  userUuids := ⟨"1", "2"⟩
  assistantUuids := ⟨"3", "4"⟩

/-- The assistant's turn stays in the buffer and is never submitted. -/
theorem refused_turn_stays : ¬∀ calls : List EngineCall,
    (∀ v ∈ invocations {} calls, Clean v.before v.turn v.uuids) ∧
      ∀ v ∈ invocations {} calls, Agree v.after := by
  intro h
  have hagree := (h [.generateReply emptyReply]).2 _ (List.mem_cons_of_mem _ List.mem_cons_self)
  exact absurd (congrArg List.length hagree) (by decide +kernel)

end MemoryEngine

end ContextMemory
