/-
The text of the manifest of a graph index (`encode_graph_index_manifest` and
`decode_graph_index_manifest` in `hydradb/src/engine/index_store.rs`).

A manifest is a line of eight fields. What is encoded is decoded as it was, and what is decoded is
a generation that could have been encoded (`manifest_format`).
-/

import ContextMemory.Hydra.GraphIndex
import ContextMemory.Lib.Decimal
import ContextMemory.Lib.Fallible
import ContextMemory.Lib.Separator
import Mathlib.Data.List.DropRight

namespace ContextMemory.Topology

def indexManifestMagic : String := "hydradb-index-current-v1"

/-- `is_ascii_hexdigit`. -/
def isAsciiHexdigit (c : Char) : Bool :=
  c.isDigit || (decide ('a' ≤ c) && decide (c ≤ 'f')) || (decide ('A' ≤ c) && decide (c ≤ 'F'))

/-- What is taken for a SHA-256 digest. A character that is not ASCII is no digit, so that the
length may be counted in characters. -/
def isSha256 (generation : List Char) : Bool :=
  generation.length == 64 && generation.all isAsciiHexdigit

/-- `parse_u64`. -/
def parseU64 (key : String) (value : List Char) (field : String) : Except GraphError Nat :=
  match Decimal.read u64Max value with
  | .ok n => .ok n
  | .error error => .error (.corruptValue key ("invalid " ++ field ++ ": " ++ error.text))

/-- The fields of a manifest. -/
def GraphIndexGeneration.fields (g : GraphIndexGeneration) : List (List Char) :=
  [indexManifestMagic.toList, g.cellId.toList, g.edgeType.toList, Nat.toDigits 10 g.baseSequence,
    Nat.toDigits 10 g.lastWalId, Nat.toDigits 10 g.edgeCount, Nat.toDigits 10 g.checksum,
    g.generation.toList]

/-- `encode_graph_index_manifest`. -/
def encodeGraphIndexManifest (manifest : GraphIndexGeneration) : List Char :=
  ['\t'].intercalate manifest.fields ++ ['\n']

/-- `decode_graph_index_manifest`, behind the check that the bytes are UTF-8. -/
def decodeGraphIndexManifest (key : String) (text : List Char) :
    Except GraphError GraphIndexGeneration := do
  let fields := (text.rdropWhile (· == '\n')).splitOn '\t'
  if fields.length = 8 ∧ fields[0]? = some indexManifestMagic.toList then
    let cellId := String.ofList (fields[1]?.getD [])
    let edgeType := String.ofList (fields[2]?.getD [])
    validateComponent "cell_id" cellId
    validateComponent "edge_type" edgeType
    if isSha256 (fields[7]?.getD []) = true then
      let baseSequence ← parseU64 key (fields[3]?.getD []) "base_sequence"
      let lastWalId ← parseU64 key (fields[4]?.getD []) "last_wal_id"
      let edgeCount ← parseU64 key (fields[5]?.getD []) "edge_count"
      let checksum ← parseU64 key (fields[6]?.getD []) "checksum"
      return ⟨cellId, edgeType, baseSequence, lastWalId, edgeCount, checksum,
        String.ofList (fields[7]?.getD [])⟩
    else throw (.corruptValue key "index generation must be a SHA-256 digest")
  else throw (.corruptValue key "expected hydradb index current v1 manifest")

/-- `current_graph_index`, from what is at the path of the manifest. -/
def currentGraphIndex (S : IndexSetting) (edgeType : String) (value : Option (List Char)) :
    Except GraphError (Option GraphIndexGeneration) := do
  validateComponent "cell_id" S.cellId
  validateComponent "edge_type" edgeType
  match value with
  | none => return none
  | some value =>
      let manifest ← decodeGraphIndexManifest (graphIndexManifestPath S edgeType) value
      if manifest.cellId ≠ S.cellId ∨ manifest.edgeType ≠ edgeType then
        throw (.corruptValue (graphIndexManifestPath S edgeType)
          "index manifest identity does not match path")
      else return some manifest

/-- A generation whose manifest is decoded without an error. -/
structure GraphIndexGeneration.WellFormed (g : GraphIndexGeneration) : Prop where
  cell : Lease.isComponent g.cellId = true
  edgeType : Lease.isComponent g.edgeType = true
  baseSequence : g.baseSequence ≤ u64Max
  lastWalId : g.lastWalId ≤ u64Max
  edgeCount : g.edgeCount ≤ u64Max
  checksum : g.checksum ≤ u64Max
  generation : isSha256 g.generation.toList = true

variable {g : GraphIndexGeneration} {key : String}

/-! ### What is encoded is decoded -/

/-- The text of one field: it ends neither the field nor the line. -/
def IsField (text : List Char) : Prop := '\t' ∉ text ∧ '\n' ∉ text

theorem isField_of_all {p : Char → Bool} {text : List Char} (h : text.all p = true)
    (htab : p '\t' = false) (hend : p '\n' = false) : IsField text := by
  have hchar := List.all_eq_true.mp h
  constructor
  · intro hmem
    exact absurd (hchar _ hmem) (by simp [htab])
  · intro hmem
    exact absurd (hchar _ hmem) (by simp [hend])

theorem isField_component {value : String} (h : Lease.isComponent value = true) :
    IsField value.toList :=
  isField_of_all (Bool.and_eq_true_iff.mp h).2 (by decide) (by decide)

theorem isField_digits (n : Nat) : IsField (Nat.toDigits 10 n) :=
  isField_of_all (List.all_eq_true.mpr fun _ => Decimal.isDigit_of_mem_digits) (by decide) (by decide)

theorem GraphIndexGeneration.WellFormed.isField_fields (h : g.WellFormed) :
    ∀ field ∈ g.fields, IsField field := by
  unfold GraphIndexGeneration.fields
  simp only [List.forall_mem_cons]
  exact ⟨isField_component (by decide), isField_component h.cell, isField_component h.edgeType,
    isField_digits _, isField_digits _, isField_digits _, isField_digits _,
    isField_of_all (Bool.and_eq_true_iff.mp h.generation).2 (by decide) (by decide), by simp⟩

/-- Without its line end, a text is taken apart into the fields it was joined
of. -/
theorem splitOn_encode (h : ∀ field ∈ g.fields, IsField field) :
    ((encodeGraphIndexManifest g).rdropWhile (· == '\n')).splitOn '\t' = g.fields := by
  have hends : '\n' ∉ ['\t'].intercalate g.fields :=
    Separator.not_mem_intercalate (by decide) fun field hfield => (h field hfield).2
  have hkept : (['\t'].intercalate g.fields).rdropWhile (· == '\n') = ['\t'].intercalate g.fields := by
    refine List.rdropWhile_eq_self_iff.mpr fun hne hlast => hends ?_
    rw [← eq_of_beq hlast]
    exact List.getLast_mem hne
  rw [encodeGraphIndexManifest, List.rdropWhile_concat_pos _ _ _ (by decide), hkept]
  exact List.splitOn_intercalate '\t' (fun field hfield => (h field hfield).1) (List.cons_ne_nil _ _)

theorem parseU64_digits {field : String} {n : Nat} (h : n ≤ u64Max) :
    parseU64 key (Nat.toDigits 10 n) field = .ok n := by
  rw [parseU64, Decimal.read_digits h]

theorem validateComponent_eq_ok_iff {component value : String} :
    validateComponent component value = .ok () ↔ Lease.isComponent value = true := by
  unfold validateComponent
  split <;> simp [*]

/-- **Round trip.** The text of a well-formed manifest is decoded as the
manifest. -/
theorem GraphIndexGeneration.WellFormed.decode_encode (h : g.WellFormed) (key : String) :
    decodeGraphIndexManifest key (encodeGraphIndexManifest g) = .ok g := by
  have hshape : g.fields.length = 8 ∧ g.fields[0]? = some indexManifestMagic.toList := ⟨rfl, rfl⟩
  have hcell : String.ofList (g.fields[1]?.getD []) = g.cellId := String.ofList_toList
  have htype : String.ofList (g.fields[2]?.getD []) = g.edgeType := String.ofList_toList
  have hgeneration : String.ofList (g.fields[7]?.getD []) = g.generation := String.ofList_toList
  have hsha : isSha256 (g.fields[7]?.getD []) = true := h.generation
  have hbase : parseU64 key (g.fields[3]?.getD []) "base_sequence" = .ok g.baseSequence :=
    parseU64_digits h.baseSequence
  have hwal : parseU64 key (g.fields[4]?.getD []) "last_wal_id" = .ok g.lastWalId :=
    parseU64_digits h.lastWalId
  have hcount : parseU64 key (g.fields[5]?.getD []) "edge_count" = .ok g.edgeCount :=
    parseU64_digits h.edgeCount
  have hchecksum : parseU64 key (g.fields[6]?.getD []) "checksum" = .ok g.checksum :=
    parseU64_digits h.checksum
  simp only [decodeGraphIndexManifest, splitOn_encode h.isField_fields, if_pos hshape, hcell, htype,
    validateComponent_eq_ok_iff.mpr h.cell, validateComponent_eq_ok_iff.mpr h.edgeType, if_pos hsha,
    hbase, hwal, hcount, hchecksum, hgeneration, bind, Except.bind, pure, Except.pure]

/-! ### What is decoded could have been encoded -/

theorem parseU64_le {value : List Char} {field : String} {n : Nat}
    (h : parseU64 key value field = .ok n) : n ≤ u64Max := by
  unfold parseU64 at h
  split at h
  · cases h
    exact Decimal.le_of_read ‹_›
  · cases h

theorem wellFormed_of_decode {text : List Char} (h : decodeGraphIndexManifest key text = .ok g) :
    g.WellFormed := by
  unfold decodeGraphIndexManifest at h
  dsimp only at h
  split at h
  · obtain ⟨_, hcell, h⟩ := Fallible.bind_eq_ok h
    obtain ⟨_, htype, h⟩ := Fallible.bind_eq_ok h
    split at h
    · rename_i hsha
      obtain ⟨baseSequence, hbase, h⟩ := Fallible.bind_eq_ok h
      obtain ⟨lastWalId, hwal, h⟩ := Fallible.bind_eq_ok h
      obtain ⟨edgeCount, hcount, h⟩ := Fallible.bind_eq_ok h
      obtain ⟨checksum, hchecksum, h⟩ := Fallible.bind_eq_ok h
      cases h
      exact
        { cell := validateComponent_eq_ok_iff.mp hcell
          edgeType := validateComponent_eq_ok_iff.mp htype
          baseSequence := parseU64_le hbase
          lastWalId := parseU64_le hwal
          edgeCount := parseU64_le hcount
          checksum := parseU64_le hchecksum
          generation := by rwa [String.toList_ofList] }
    · cases h
  · cases h

/-- **The format of manifests.** The generations that some text is decoded as
are the well-formed ones, and these are the ones that are decoded back from
their own text. So no generation is read but the one that was written. -/
theorem manifest_format (g : GraphIndexGeneration) :
    ((∃ key text, decodeGraphIndexManifest key text = .ok g) ↔ g.WellFormed) ∧
      ((∀ key, decodeGraphIndexManifest key (encodeGraphIndexManifest g) = .ok g) ↔ g.WellFormed) := by
  refine ⟨⟨?_, fun h => ⟨"", encodeGraphIndexManifest g, h.decode_encode ""⟩⟩, ?_,
    fun h key => h.decode_encode key⟩
  · rintro ⟨key, text, h⟩
    exact wellFormed_of_decode h
  · intro h
    exact wellFormed_of_decode (h "")

end ContextMemory.Topology
