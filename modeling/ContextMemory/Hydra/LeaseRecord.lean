/-
The record of a writer lease (`encode_writer_lease` and `decode_writer_lease` in
`hydradb/src/engine/writer_lease.rs`) and the check of key components (`codec.rs`).

A record is seven lines. What is encoded is decoded as it was, and what is decoded is a record
that could have been encoded: its components are valid, its numbers are positive and fit 64 bits
(`writerLease_round_trip`).
-/

import ContextMemory.Lib.Decimal
import ContextMemory.Lib.Fallible
import ContextMemory.Lib.Lines

namespace ContextMemory.Lease

/-- The errors of the lease directory, of those of `GraphError`. -/
inductive GraphError where
  | invalidKeyComponent (component value : String)
  | corruptValue (key reason : String)
  | retryExhausted (operation : String) (attempts : Nat)
  | notCellWriter (owner : Option String)
  | objectStore
deriving DecidableEq, Repr

def u64Max : Nat := 2 ^ 64 - 1

/-- `validate_component` looks at every byte; a character that is not ASCII has none that passes. -/
def isComponent (value : String) : Bool :=
  !value.toList.isEmpty && value.toList.all fun c => c.isAlphanum || c == '_' || c == '-' || c == '.'

def validateComponent (component value : String) : Except GraphError Unit :=
  if isComponent value then .ok () else .error (.invalidKeyComponent component value)

def writerLeaseFormat : String := "hydradb-writer-lease2"

def nanosPerMilli : Nat := 1000000

/-- What a record says: `DecodedWriterLease`, and the fingerprint under which it is observed. -/
structure WriterLeaseRecord where
  nodeId : String
  holderId : String
  generation : Nat
  heartbeat : Nat
  durationMs : Nat
  released : Bool
deriving DecidableEq, Repr

/-- The text of the state of a record. -/
def stateText (released : Bool) : String := if released then "released" else "active"

/-- The lines of a record. -/
def WriterLeaseRecord.lines (record : WriterLeaseRecord) : List (List Char) :=
  [writerLeaseFormat.toList, record.nodeId.toList, record.holderId.toList,
    Nat.toDigits 10 record.generation, Nat.toDigits 10 record.heartbeat,
    Nat.toDigits 10 record.durationMs, (stateText record.released).toList]

/-- `encode_writer_lease`, from a duration in nanoseconds. -/
def encodeWriterLease (nodeId holderId : String) (generation heartbeat duration : Nat)
    (released : Bool) : Except GraphError String := do
  validateComponent "node_id" nodeId
  validateComponent "writer_lease_holder" holderId
  if duration / nanosPerMilli ≤ u64Max then
    let record : WriterLeaseRecord :=
      ⟨nodeId, holderId, generation, heartbeat, duration / nanosPerMilli, released⟩
    return String.ofList (Lines.written record.lines)
  else throw (.corruptValue "writer-lease/duration" "writer lease duration exceeds u64 milliseconds")

/-- `parse_lease_u64`. -/
def parseLeaseU64 (path field : String) (value : Option (List Char)) : Except GraphError Nat :=
  match Decimal.read u64Max (value.getD []) with
  | .ok n => .ok n
  | .error error =>
      .error (.corruptValue path ("invalid writer lease " ++ field ++ ": " ++ error.text))

/-- The state of a record, from its line. -/
def leaseState (path : String) (value : Option (List Char)) : Except GraphError Bool :=
  if value = some (stateText false).toList then .ok false
  else if value = some (stateText true).toList then .ok true
  else .error (.corruptValue path "writer lease has an invalid state")

/-- `decode_writer_lease`, behind the check that the bytes are UTF-8. -/
def decodeWriterLease (path text : String) : Except GraphError WriterLeaseRecord := do
  let lines := Lines.lines text.toList
  if lines[0]? = some writerLeaseFormat.toList then
    let nodeId := String.ofList (lines[1]?.getD [])
    let holderId := String.ofList (lines[2]?.getD [])
    validateComponent "node_id" nodeId
    validateComponent "writer_lease_holder" holderId
    let generation ← parseLeaseU64 path "generation" lines[3]?
    let heartbeat ← parseLeaseU64 path "heartbeat" lines[4]?
    let durationMs ← parseLeaseU64 path "duration_ms" lines[5]?
    let released ← leaseState path lines[6]?
    if generation = 0 ∨ heartbeat = 0 ∨ durationMs = 0 ∨ lines[7]?.isSome then
      throw (.corruptValue path "writer lease has an invalid duration or trailing fields")
    else return ⟨nodeId, holderId, generation, heartbeat, durationMs, released⟩
  else throw (.corruptValue path "unsupported writer lease format")

/-- A record that is encoded and decoded without an error. -/
structure WriterLeaseRecord.WellFormed (record : WriterLeaseRecord) : Prop where
  node : isComponent record.nodeId = true
  holder : isComponent record.holderId = true
  generation : 0 < record.generation ∧ record.generation ≤ u64Max
  heartbeat : 0 < record.heartbeat ∧ record.heartbeat ≤ u64Max
  duration : 0 < record.durationMs ∧ record.durationMs ≤ u64Max

/-! ### What is encoded is decoded -/

theorem validateComponent_eq_ok_iff {component value : String} :
    validateComponent component value = .ok () ↔ isComponent value = true := by
  unfold validateComponent
  split <;> simp [*]

/-- A component holds no line end. -/
theorem isLine_component {value : String} (h : isComponent value = true) :
    Lines.IsLine value.toList := by
  intro c hc
  have hchar := List.all_eq_true.mp (Bool.and_eq_true_iff.mp h).2 c hc
  constructor
  · rintro rfl
    exact absurd hchar (by decide)
  · rintro rfl
    exact absurd hchar (by decide)

theorem isLine_digits (n : Nat) : Lines.IsLine (Nat.toDigits 10 n) := by
  intro c hc
  have hdigit := Decimal.isDigit_of_mem_digits hc
  constructor
  · rintro rfl
    exact absurd hdigit (by decide)
  · rintro rfl
    exact absurd hdigit (by decide)

theorem isLine_state (released : Bool) : Lines.IsLine (stateText released).toList := by
  cases released
  · exact isLine_component (by decide)
  · exact isLine_component (by decide)

theorem WriterLeaseRecord.WellFormed.isLine_lines {record : WriterLeaseRecord}
    (h : record.WellFormed) : ∀ line ∈ record.lines, Lines.IsLine line := by
  unfold WriterLeaseRecord.lines
  simp only [List.forall_mem_cons]
  exact ⟨isLine_component (by decide), isLine_component h.node, isLine_component h.holder,
    isLine_digits _, isLine_digits _, isLine_digits _, isLine_state _, by simp⟩

theorem parseLeaseU64_digits {path field : String} {n : Nat} (h : n ≤ u64Max) :
    parseLeaseU64 path field (some (Nat.toDigits 10 n)) = .ok n := by
  simp [parseLeaseU64, Decimal.read_digits h]

/-- The text of a record. -/
def WriterLeaseRecord.text (record : WriterLeaseRecord) : String :=
  String.ofList (Lines.written record.lines)

theorem encodeWriterLease_eq {nodeId holderId : String} {generation heartbeat duration : Nat}
    {released : Bool} (hnode : isComponent nodeId = true) (hholder : isComponent holderId = true)
    (hduration : duration / nanosPerMilli ≤ u64Max) :
    encodeWriterLease nodeId holderId generation heartbeat duration released =
      .ok (WriterLeaseRecord.text
        ⟨nodeId, holderId, generation, heartbeat, duration / nanosPerMilli, released⟩) := by
  simp only [encodeWriterLease, validateComponent, hnode, hholder, if_true, if_pos hduration]
  rfl

theorem leaseState_text {path : String} (released : Bool) :
    leaseState path (some (stateText released).toList) = .ok released := by
  cases released
  · rfl
  · rfl

/-- **Round trip.** The text of a well-formed record is decoded as the record. -/
theorem decodeWriterLease_text {path : String} {record : WriterLeaseRecord}
    (h : record.WellFormed) : decodeWriterLease path record.text = .ok record := by
  have hlines : Lines.lines record.text.toList = record.lines := by
    rw [WriterLeaseRecord.text, String.toList_ofList, Lines.lines_written h.isLine_lines]
  have hfirst : record.lines[0]? = some writerLeaseFormat.toList := rfl
  have hnode : String.ofList (record.lines[1]?.getD []) = record.nodeId :=
    String.ofList_toList
  have hholder : String.ofList (record.lines[2]?.getD []) = record.holderId :=
    String.ofList_toList
  have hgeneration : parseLeaseU64 path "generation" record.lines[3]? = .ok record.generation :=
    parseLeaseU64_digits h.generation.2
  have hheartbeat : parseLeaseU64 path "heartbeat" record.lines[4]? = .ok record.heartbeat :=
    parseLeaseU64_digits h.heartbeat.2
  have hduration : parseLeaseU64 path "duration_ms" record.lines[5]? = .ok record.durationMs :=
    parseLeaseU64_digits h.duration.2
  have hstate : leaseState path record.lines[6]? = .ok record.released := leaseState_text _
  have hpositive : ¬ (record.generation = 0 ∨ record.heartbeat = 0 ∨ record.durationMs = 0 ∨
      record.lines[7]?.isSome = true) := by
    rintro (hzero | hzero | hzero | hmore)
    · exact h.generation.1.ne' hzero
    · exact h.heartbeat.1.ne' hzero
    · exact h.duration.1.ne' hzero
    · cases hmore
  simp only [decodeWriterLease, hlines, if_pos hfirst, hnode, hholder,
    validateComponent_eq_ok_iff.mpr h.node, validateComponent_eq_ok_iff.mpr h.holder, hgeneration,
    hheartbeat, hduration, hstate, bind, Except.bind, if_neg hpositive, pure, Except.pure]

/-! ### What is decoded could have been encoded -/

theorem parseLeaseU64_le {path field : String} {value : Option (List Char)} {n : Nat}
    (h : parseLeaseU64 path field value = .ok n) : n ≤ u64Max := by
  unfold parseLeaseU64 at h
  split at h
  · cases h
    exact Decimal.le_of_read ‹_›
  · cases h

theorem decodeWriterLease_wellFormed {path text : String} {record : WriterLeaseRecord}
    (h : decodeWriterLease path text = .ok record) : record.WellFormed := by
  unfold decodeWriterLease at h
  dsimp only at h
  split at h
  · obtain ⟨_, hnode, h⟩ := Fallible.bind_eq_ok h
    obtain ⟨_, hholder, h⟩ := Fallible.bind_eq_ok h
    obtain ⟨generation, hgeneration, h⟩ := Fallible.bind_eq_ok h
    obtain ⟨heartbeat, hheartbeat, h⟩ := Fallible.bind_eq_ok h
    obtain ⟨durationMs, hduration, h⟩ := Fallible.bind_eq_ok h
    obtain ⟨released, -, h⟩ := Fallible.bind_eq_ok h
    split at h
    · cases h
    · rename_i hpositive
      obtain ⟨hgen, hheart, hdur, -⟩ : generation ≠ 0 ∧ heartbeat ≠ 0 ∧ durationMs ≠ 0 ∧ _ := by
        simpa only [not_or] using hpositive
      cases h
      exact
        { node := validateComponent_eq_ok_iff.mp hnode
          holder := validateComponent_eq_ok_iff.mp hholder
          generation := ⟨Nat.pos_of_ne_zero hgen, parseLeaseU64_le hgeneration⟩
          heartbeat := ⟨Nat.pos_of_ne_zero hheart, parseLeaseU64_le hheartbeat⟩
          duration := ⟨Nat.pos_of_ne_zero hdur, parseLeaseU64_le hduration⟩ }
  · cases h

theorem WriterLeaseRecord.WellFormed.encode {record : WriterLeaseRecord} (h : record.WellFormed) :
    encodeWriterLease record.nodeId record.holderId record.generation record.heartbeat
      (record.durationMs * nanosPerMilli) record.released = .ok record.text := by
  have hmillis : record.durationMs * nanosPerMilli / nanosPerMilli = record.durationMs :=
    Nat.mul_div_cancel _ (by decide)
  rw [encodeWriterLease_eq h.node h.holder (by rw [hmillis]; exact h.duration.2), hmillis]

/-- **The format of lease records.** The records that some text is decoded as
are the well-formed ones, and these are the records that are encoded and decoded
back as they were. So no process reads another lease than the one that was
written, and none that it wrote is refused. -/
theorem writerLease_round_trip (record : WriterLeaseRecord) :
    ((∃ path text, decodeWriterLease path text = .ok record) ↔ record.WellFormed) ∧
      ((∀ path, ∃ text,
          encodeWriterLease record.nodeId record.holderId record.generation record.heartbeat
            (record.durationMs * nanosPerMilli) record.released = .ok text ∧
          decodeWriterLease path text = .ok record) ↔ record.WellFormed) := by
  refine ⟨⟨?_, fun h => ⟨"", record.text, decodeWriterLease_text h⟩⟩, ?_, fun h path => ?_⟩
  · rintro ⟨path, text, h⟩
    exact decodeWriterLease_wellFormed h
  · intro h
    obtain ⟨text, -, hdecode⟩ := h ""
    exact decodeWriterLease_wellFormed hdecode
  · exact ⟨record.text, h.encode, decodeWriterLease_text h⟩

end ContextMemory.Lease
