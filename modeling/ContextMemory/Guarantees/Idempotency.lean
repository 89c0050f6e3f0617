/-
Idempotency keys.

The key of a call digests the ids of its plan, its phase and the JSON text of its rows, joined by
NUL characters. Only the key of the plan may hold another NUL, so the text comes apart in one way.
The phase gives the label or the type and the property names, hence the Cypher text, and the JSON
text gives the rows (`idempotency_keys`).
-/

import ContextMemory.Lib.Fallible
import ContextMemory.Lib.JsonWrite
import ContextMemory.Lib.Separator
import ContextMemory.Ingestion.TransportWrite

namespace ContextMemory

open JsonText (Value Numbers utf16)

/-! ### Rows -/

theorem Scalar.json_injective {a b : Scalar} (h : a.json = b.json) : a = b := by
  cases a <;> cases b <;> simp only [Scalar.json, Value.str.injEq, Value.scalar.injEq, reduceCtorEq,
    JsonText.Scalar.int.injEq, JsonText.Scalar.float.injEq, JsonText.Scalar.bool.injEq] at h
  · rw [String.toList_inj.mp (JsonText.units_injective h)]
  · rw [h]
  · rw [h]
  · rw [h]

theorem mem_rowJson {row : PropertyMap} {name : String} {value : Scalar}
    (h : row.lookup name = some value) {row' : PropertyMap} (hsame : rowJson row = rowJson row') :
    row'.lookup name = some value := by
  have hmembers := Value.obj.inj hsame
  have hmem : (name.toList.flatMap utf16, value.json) ∈ (sortedNames row'.keys).filterMap
      fun name => (row'.lookup name).map fun value => (name.toList.flatMap utf16, value.json) := by
    rw [← hmembers]
    refine List.mem_filterMap.mpr ⟨name, ?_, by rw [h, Option.map_some]⟩
    rw [sortedNames, Finset.mem_sort, Finmap.mem_keys, Finmap.mem_iff]
    exact ⟨value, h⟩
  obtain ⟨name', -, hname'⟩ := List.mem_filterMap.mp hmem
  obtain ⟨value', hvalue', hpair⟩ := Option.map_eq_some_iff.mp hname'
  obtain ⟨hunits, hjson⟩ := Prod.mk.inj hpair
  rw [String.toList_inj.mp (JsonText.units_injective hunits)] at hvalue'
  rw [hvalue', Scalar.json_injective hjson]

theorem rowJson_injective {row row' : PropertyMap} (h : rowJson row = rowJson row') :
    row = row' := by
  refine Finmap.ext_lookup fun name => ?_
  cases hrow : row.lookup name with
  | some value => exact (mem_rowJson hrow h).symm
  | none =>
      cases hrow' : row'.lookup name with
      | none => rfl
      | some value =>
          rw [mem_rowJson hrow' h.symm] at hrow
          cases hrow

/-- The text of the rows gives the rows. -/
theorem rows_of_text {num : Numbers Rat} {rows rows' : List PropertyMap}
    (h : JsonText.write num (.arr (rows.map rowJson)) =
      JsonText.write num (.arr (rows'.map rowJson))) : rows = rows' := by
  have hvalues := Value.arr.inj (JsonText.write_injective h)
  exact List.map_injective_iff.mpr (fun _ _ => rowJson_injective) hvalues

/-! ### Phases -/

/-- A text between the separators of a phase. -/
def Part (text : String) : Prop := '-' ∉ text.toList ∧ '\x00' ∉ text.toList

theorem part_label (label : NodeLabel) : Part label.text := by
  cases label <;> exact ⟨by decide, by decide⟩

theorem part_type (type : RelationshipType) : Part type.text := by
  cases type <;> exact ⟨by decide, by decide⟩

theorem part_name {name : String} (h : identifierSafe name = true) : Part name := by
  have hall : ∀ c ∈ name.toList, c ≠ '_' → (c.isAlphanum || 128 ≤ c.toNat) = true := by
    simp only [identifierSafe, Bool.and_eq_true, List.all_eq_true] at h
    intro c hc hne
    exact h.2 c (List.mem_filter.mpr ⟨hc, by simpa using hne⟩)
  constructor
  · exact fun hmem => absurd (hall '-' hmem (by decide)) (by decide)
  · exact fun hmem => absurd (hall '\x00' hmem (by decide)) (by decide)

theorem label_text_injective {a b : NodeLabel} (h : a.text = b.text) : a = b := by
  revert h
  cases a <;> cases b <;> decide

theorem type_text_injective {a b : RelationshipType} (h : a.text = b.text) : a = b := by
  revert h
  cases a <;> cases b <;> decide

/-- The text before a separator. -/
theorem split_part {a a' b b' : String} (ha : Part a) (ha' : Part a')
    (h : a ++ "-" ++ b = a' ++ "-" ++ b') : a = a' ∧ b = b' := by
  have hlist := congrArg String.toList h
  simp only [String.toList_append, List.append_assoc] at hlist
  obtain ⟨hfirst, hrest⟩ := Separator.split_first ha.1 ha'.1 hlist
  exact ⟨String.toList_inj.mp hfirst, String.toList_inj.mp hrest⟩

theorem split_names {names names' : List String} (hne : names ≠ []) (hne' : names' ≠ [])
    (hparts : ∀ name ∈ names, Part name) (hparts' : ∀ name ∈ names', Part name)
    (h : "-".intercalate names = "-".intercalate names') : names = names' := by
  have hlist := congrArg String.toList h
  rw [String.toList_intercalate, String.toList_intercalate] at hlist
  have hfree : ∀ {names : List String}, (∀ name ∈ names, Part name) →
      ∀ text ∈ names.map String.toList, '-' ∉ text := by
    intro names hparts text htext
    obtain ⟨name, hname, rfl⟩ := List.mem_map.mp htext
    exact (hparts name hname).1
  have hsplit := congrArg (List.splitOn '-') hlist
  have hdash : "-".toList = ['-'] := rfl
  rw [hdash, List.splitOn_intercalate _ (hfree hparts) (by simpa using hne),
    List.splitOn_intercalate _ (hfree hparts') (by simpa using hne')] at hsplit
  exact List.map_injective_iff.mpr (fun _ _ => String.toList_inj.mp) hsplit

/-- The property names of a statement. -/
def Statement.names : Statement → List String
  | .mergeNodes _ names _ => sortedNames names
  | .mergeRelationships _ _ _ names _ => sortedNames names

/-- A statement with property names, all of them safe. -/
structure Statement.Named (s : Statement) : Prop where
  ne : s.names ≠ []
  parts : ∀ name ∈ s.names, Part name

theorem named_of_record {plan : GraphWritePlan} {r : GraphRecord} (h : r ∈ plan.records)
    {s : Statement} (hnames : s.names = sortedNames r.properties.names) : s.Named where
  ne hnil := by
    have hcontext : "context_id" ∈ r.properties.names :=
      Properties.mem_names.mpr ⟨_, plan.context_ok r h⟩
    rw [hnames, sortedNames] at hnil
    have hmem := (Finset.mem_sort (· ≤ ·)).mpr hcontext
    rw [hnil] at hmem
    cases hmem
  parts name hname := by
    rw [hnames, sortedNames, Finset.mem_sort] at hname
    exact part_name (r.properties.safe name (Finmap.mem_keys.mp hname))

theorem named_of_mem {plan : GraphWritePlan} {w : GroupWrite} (h : w ∈ groupWrites plan) :
    w.statement.Named := by
  rcases mem_groupWrites h with ⟨group, hgroup, rfl⟩ | ⟨group, hgroup, rfl⟩
  · obtain ⟨n, hn, hkey⟩ := Ordered.exists_mem_of_group hgroup
    refine named_of_record (GraphWritePlan.mem_records.mpr (Or.inl ⟨n, hn, rfl⟩)) ?_
    exact congrArg (fun key => sortedNames key.2) hkey.symm
  · obtain ⟨e, he, hkey⟩ := Ordered.exists_mem_of_group hgroup
    refine named_of_record (GraphWritePlan.mem_records.mpr (Or.inr ⟨e, he, rfl⟩)) ?_
    exact congrArg (fun key => sortedNames key.2.2.2) hkey.symm

/-- A phase, its parts with the separators between them. -/
theorem phase_eq (s : Statement) : s.phase = match s with
    | .mergeNodes label _ _ => "node" ++ "-" ++ (label.text ++ "-" ++ "-".intercalate s.names)
    | .mergeRelationships type sourceLabel destinationLabel _ _ =>
        "relationship" ++ "-" ++ (type.text ++ "-" ++ (sourceLabel.text ++ "-" ++
          (destinationLabel.text ++ "-" ++ "-".intercalate s.names))) := by
  unfold Statement.phase Statement.names
  cases s with
  | mergeNodes label names rows => simp only [String.reduceAppend, String.append_assoc]
  | mergeRelationships type sourceLabel destinationLabel names rows =>
      simp only [String.reduceAppend, String.append_assoc]

/-- **Phases.** The phase gives the Cypher text. -/
theorem cypher_of_phase {s s' : Statement} (hs : s.Named) (hs' : s'.Named)
    (h : s.phase = s'.phase) : s.cypher = s'.cypher := by
  have hnode : Part "node" := ⟨by decide, by decide⟩
  have hrelationship : Part "relationship" := ⟨by decide, by decide⟩
  rw [phase_eq, phase_eq] at h
  cases s with
  | mergeNodes label names rows =>
      cases s' with
      | mergeNodes label' names' rows' =>
          obtain ⟨-, hrest⟩ := split_part hnode hnode h
          obtain ⟨hlabel, hjoined⟩ := split_part (part_label label) (part_label label') hrest
          have hnames := split_names hs.ne hs'.ne hs.parts hs'.parts hjoined
          simp only [Statement.names] at hnames
          simp only [Statement.cypher, hnames, label_text_injective hlabel]
      | mergeRelationships type sourceLabel destinationLabel names' rows' =>
          exact absurd (split_part hnode hrelationship h).1 (by decide)
  | mergeRelationships type sourceLabel destinationLabel names rows =>
      cases s' with
      | mergeNodes label names' rows' =>
          exact absurd (split_part hrelationship hnode h).1 (by decide)
      | mergeRelationships type' sourceLabel' destinationLabel' names' rows' =>
          obtain ⟨-, hrest⟩ := split_part hrelationship hrelationship h
          obtain ⟨htype, hrest⟩ := split_part (part_type type) (part_type type') hrest
          obtain ⟨hsource, hrest⟩ := split_part (part_label _) (part_label _) hrest
          obtain ⟨hdestination, hjoined⟩ := split_part (part_label _) (part_label _) hrest
          have hnames := split_names hs.ne hs'.ne hs.parts hs'.parts hjoined
          simp only [Statement.names] at hnames
          simp only [Statement.cypher, hnames, type_text_injective htype,
            label_text_injective hsource, label_text_injective hdestination]

/-- A phase holds no NUL. -/
theorem nul_not_mem_phase {s : Statement} (hs : s.Named) : '\x00' ∉ s.phase.toList := by
  have hjoined : '\x00' ∉ ("-".intercalate s.names).toList := by
    rw [String.toList_intercalate]
    refine Separator.not_mem_intercalate (by decide) fun text htext => ?_
    obtain ⟨name, hname, rfl⟩ := List.mem_map.mp htext
    exact (hs.parts name hname).2
  rw [phase_eq]
  cases s with
  | mergeNodes label names rows =>
      simp only [String.toList_append, List.mem_append, not_or]
      exact ⟨⟨by decide, by decide⟩, ⟨(part_label label).2, by decide⟩, hjoined⟩
  | mergeRelationships type sourceLabel destinationLabel names rows =>
      simp only [String.toList_append, List.mem_append, not_or]
      exact ⟨⟨by decide, by decide⟩, ⟨(part_type type).2, by decide⟩, ⟨(part_label _).2, by decide⟩,
        ⟨(part_label _).2, by decide⟩, hjoined⟩

/-! ### Keys -/

theorem digested_eq (num : Numbers Rat) (plan : GraphWritePlan) (s : Statement) :
    (transportWrite num plan s).key.digested.toList =
      plan.contextId.toList ++ '\x00' :: ((plan.planKey.toList ++ '\x00' :: s.phase.toList) ++
        '\x00' :: JsonText.write num (.arr (s.rowDicts.map rowJson))) := by
  have hnul : "\x00".toList = ['\x00'] := rfl
  simp only [transportWrite, idempotencyKey, String.toList_append, String.toList_ofList, hnul,
    List.append_assoc, List.cons_append, List.nil_append]

/-- **One call.** The key of a call gives its Cypher text and its rows. -/
theorem call_of_key {num : Numbers Rat} {plan plan' : GraphWritePlan} {s s' : Statement}
    (hs : s.Named) (hs' : s'.Named) (hcontext : '\x00' ∉ plan.contextId.toList)
    (hcontext' : '\x00' ∉ plan'.contextId.toList)
    (h : (transportWrite num plan s).key = (transportWrite num plan' s').key) :
    s.cypher = s'.cypher ∧ s.rowDicts = s'.rowDicts := by
  have hdigested := congrArg (fun key => key.digested.toList) h
  rw [digested_eq, digested_eq] at hdigested
  obtain ⟨-, hrest⟩ := Separator.split_first hcontext hcontext' hdigested
  -- the key of the plan may hold a NUL, so the rest comes apart from its end
  obtain ⟨hhead, hrows⟩ := Separator.split_last (JsonText.nul_not_mem_write _)
    (JsonText.nul_not_mem_write _) hrest
  obtain ⟨-, hphase⟩ := Separator.split_last (nul_not_mem_phase hs) (nul_not_mem_phase hs') hhead
  exact ⟨cypher_of_phase hs hs' (String.toList_inj.mp hphase), rows_of_text hrows⟩

/-! ### The same plan again -/

/-- Plans of one key that write the same payloads. -/
structure SamePayloads (plan plan' : GraphWritePlan) : Prop where
  contextId : plan.contextId = plan'.contextId
  planKey : plan.planKey = plan'.planKey
  payloads : plan.records.map GraphRecord.payload = plan'.records.map GraphRecord.payload

/-- What a statement takes of a node. -/
def nodeView (n : GraphNode) : NodeLabel × NodeRow := (n.label, ⟨n.graphId, n.properties⟩)

/-- What a statement takes of a relationship. -/
def relationshipView (e : GraphRelationship) :
    RelationshipType × NodeLabel × NodeLabel × RelationshipRow :=
  (e.relationshipType, e.sourceLabel, e.destinationLabel,
    ⟨e.graphId, e.sourceId, e.destinationId, e.properties⟩)

def Payload.nodeView : Payload → Option (NodeLabel × NodeRow)
  | .node label id properties => some (label, ⟨id, properties⟩)
  | .relationship .. => none

def Payload.relationshipView :
    Payload → Option (RelationshipType × NodeLabel × NodeLabel × RelationshipRow)
  | .node .. => none
  | .relationship type id source destination sourceLabel destinationLabel properties =>
      some (type, sourceLabel, destinationLabel, ⟨id, source, destination, properties⟩)

theorem payloads_eq (plan : GraphWritePlan) : plan.records.map GraphRecord.payload =
    plan.nodes.map (fun n => (GraphRecord.node n).payload) ++
      plan.relationships.map fun e => (GraphRecord.relationship e).payload := by
  rw [GraphWritePlan.records, planRecords, List.map_append, List.map_map, List.map_map]
  rfl

theorem nodeViews_eq (plan : GraphWritePlan) :
    (plan.records.map GraphRecord.payload).filterMap Payload.nodeView = plan.nodes.map nodeView := by
  have hnone : plan.relationships.filterMap
      (Payload.nodeView ∘ fun e => (GraphRecord.relationship e).payload) = [] :=
    List.filterMap_eq_nil_iff.mpr fun _ _ => rfl
  rw [payloads_eq, List.filterMap_append, List.filterMap_map, List.filterMap_map, hnone,
    List.append_nil, ← List.filterMap_eq_map]
  rfl

theorem relationshipViews_eq (plan : GraphWritePlan) :
    (plan.records.map GraphRecord.payload).filterMap Payload.relationshipView =
      plan.relationships.map relationshipView := by
  have hnone : plan.nodes.filterMap
      (Payload.relationshipView ∘ fun n => (GraphRecord.node n).payload) = [] :=
    List.filterMap_eq_nil_iff.mpr fun _ _ => rfl
  rw [payloads_eq, List.filterMap_append, List.filterMap_map, List.filterMap_map, hnone,
    List.nil_append, ← List.filterMap_eq_map]
  rfl

theorem statements_eq (plan : GraphWritePlan) :
    (groupWrites plan).map GroupWrite.statement =
      (Ordered.groups (fun v => (v.1, v.2.properties.names)) (plan.nodes.map nodeView)).map
        (fun g => .mergeNodes g.1.1 g.1.2 (g.2.map Prod.snd)) ++
      (Ordered.groups (fun v => (v.1, v.2.1, v.2.2.1, v.2.2.2.properties.names))
        (plan.relationships.map relationshipView)).map
        fun g => .mergeRelationships g.1.1 g.1.2.1 g.1.2.2.1 g.1.2.2.2 (g.2.map fun v => v.2.2.2) := by
  have hnode : ∀ n, ((nodeView n).1, (nodeView n).2.properties.names) = nodeGroup n := fun _ => rfl
  have hrelationship : ∀ e, ((relationshipView e).1, (relationshipView e).2.1,
      (relationshipView e).2.2.1, (relationshipView e).2.2.2.properties.names) =
        relationshipGroup e := fun _ => rfl
  rw [groupWrites, List.map_append, List.map_map, List.map_map, Ordered.groups_map hnode,
    Ordered.groups_map hrelationship, List.map_map, List.map_map]
  refine congrArg₂ (· ++ ·) (List.map_congr_left fun g _ => ?_) (List.map_congr_left fun g _ => ?_)
  · simp only [Function.comp_apply, nodeWrite, nodeRows, List.map_map]
    rfl
  · simp only [Function.comp_apply, relationshipWrite, relationshipRows, List.map_map]
    rfl

/-- **The same plan.** Plans of the same payloads make the same calls. -/
theorem SamePayloads.transportWrites_eq {plan plan' : GraphWritePlan} (h : SamePayloads plan plan')
    (num : Numbers Rat) : transportWrites num plan = transportWrites num plan' := by
  have hstatements : (groupWrites plan).map GroupWrite.statement =
      (groupWrites plan').map GroupWrite.statement := by
    rw [statements_eq, statements_eq, ← nodeViews_eq, ← nodeViews_eq, ← relationshipViews_eq,
      ← relationshipViews_eq, h.payloads]
  have hcall : ∀ s, transportWrite num plan s = transportWrite num plan' s := by
    intro s
    rw [transportWrite, transportWrite, idempotencyKey, idempotencyKey, h.contextId, h.planKey]
  have hmap : ∀ p : GraphWritePlan, transportWrites num p =
      ((groupWrites p).map GroupWrite.statement).map (transportWrite num p) := fun p => by
    rw [List.map_map]
    rfl
  rw [hmap, hmap, hstatements]
  exact List.map_congr_left fun s _ => hcall s

/-! ### Runs -/

/-- A run makes the first calls of its plan, and all of them if it returns. -/
theorem sendAll_first (answers : Nat → Except Exn (Option String)) (n : Nat)
    (writes : List TransportWrite) : (sendAll answers n writes).1 <+: writes ∧
      ∀ bookmarks, (sendAll answers n writes).2 = .ok bookmarks →
        (sendAll answers n writes).1 = writes := by
  induction writes generalizing n with
  | nil => exact ⟨List.prefix_rfl, fun _ _ => rfl⟩
  | cons w rest ih =>
      obtain ⟨hfirst, hall⟩ := ih (n + 1)
      simp only [sendAll]
      cases answers n with
      | error e =>
          refine ⟨(List.prefix_cons_inj w).mpr List.nil_prefix, fun bookmarks h => ?_⟩
          cases h
      | ok bookmark =>
          refine ⟨(List.prefix_cons_inj w).mpr hfirst, fun bookmarks h => ?_⟩
          obtain ⟨sent, hsent, -⟩ := Fallible.map_eq_ok.mp h
          exact congrArg (w :: ·) (hall sent hsent)

theorem write_first (num : Numbers Rat) (registered : Except Exn Unit)
    (answers : Nat → Except Exn (Option String)) (plan : GraphWritePlan) :
    (GraphWriter.write num registered answers plan).1 <+: transportWrites num plan ∧
      ∀ bookmarks, (GraphWriter.write num registered answers plan).2 = .ok bookmarks →
        (GraphWriter.write num registered answers plan).1 = transportWrites num plan := by
  unfold GraphWriter.write
  cases registered with
  | error e =>
      refine ⟨List.nil_prefix, fun bookmarks h => ?_⟩
      cases h
  | ok _ => exact sendAll_first answers 0 (transportWrites num plan)

/-- A call that some run for a plan makes. -/
def Makes (num : Numbers Rat) (plan : GraphWritePlan) (w : TransportWrite) : Prop :=
  ∃ registered answers, w ∈ (GraphWriter.write num registered answers plan).1

theorem Makes.exists_statement {num : Numbers Rat} {plan : GraphWritePlan} {w : TransportWrite}
    (h : Makes num plan w) : ∃ s : Statement, s.Named ∧ w = transportWrite num plan s := by
  obtain ⟨registered, answers, hw⟩ := h
  have hmem := (write_first num registered answers plan).1.subset hw
  obtain ⟨g, hg, rfl⟩ := List.mem_map.mp hmem
  exact ⟨g.statement, named_of_mem hg, rfl⟩

/-- **Idempotency keys.** Calls of one key, whatever their runs and plans, have
one Cypher text and the same rows. And the runs for plans of the same payloads
make the first calls of one sequence, all of them if they return. The first part
reads a key back through its separators and through the text of the rows. -/
theorem idempotency_keys (num : Numbers Rat) :
    (∀ plan plan' : GraphWritePlan, '\x00' ∉ plan.contextId.toList →
      '\x00' ∉ plan'.contextId.toList → ∀ w w', Makes num plan w → Makes num plan' w' →
        w.key = w'.key → w.cypher = w'.cypher ∧ w.rows = w'.rows) ∧
    ∀ plan plan' : GraphWritePlan, SamePayloads plan plan' → ∃ writes : List TransportWrite,
      ∀ p ∈ [plan, plan'], ∀ registered answers,
        (GraphWriter.write num registered answers p).1 <+: writes ∧
          ∀ bookmarks, (GraphWriter.write num registered answers p).2 = .ok bookmarks →
            (GraphWriter.write num registered answers p).1 = writes := by
  constructor
  · intro plan plan' hcontext hcontext' w w' hw hw' hkey
    obtain ⟨s, hs, rfl⟩ := hw.exists_statement
    obtain ⟨s', hs', rfl⟩ := hw'.exists_statement
    exact call_of_key hs hs' hcontext hcontext' hkey
  · intro plan plan' hsame
    refine ⟨transportWrites num plan, fun p hp registered answers => ?_⟩
    have hp : transportWrites num p = transportWrites num plan := by
      simp only [List.mem_cons, List.not_mem_nil, or_false] at hp
      rcases hp with rfl | rfl
      · rfl
      · exact (hsame.transportWrites_eq num).symm
    rw [← hp]
    exact write_first num registered answers p

/-! ### A plan and its rebuilt copy -/

section Fractions

open JsonText (Numeral digits signPart)

/-- A fraction, its two numbers joined by a point. -/
def fractionNumeral (x : Rat) : Numeral where
  sign := if 0 ≤ x.num then [] else ['-']
  whole := Nat.toDigits 10 x.num.natAbs
  fraction := '.' :: Nat.toDigits 10 x.den
  exponent := []
  sign_eq := by split <;> rfl
  whole_eq := JsonText.wholePart_toDigits _
  whole_ne := Nat.toDigits_ne_nil
  fraction_eq := by
    have hdigits : digits (Nat.toDigits 10 x.den) = Nat.toDigits 10 x.den :=
      JsonText.takeWhile_isDigit fun c hc => Nat.isDigit_of_mem_toDigits (by decide) (by decide) hc
    rw [JsonText.fractionPart, hdigits, if_neg Nat.toDigits_ne_nil]
  exponent_eq := JsonText.exponentPart_nil

def readFraction (text : List Char) : Rat :=
  let body := text.drop (signPart text).length
  let whole : Int := Nat.ofDigitChars 10 (digits body) 0
  mkRat (if signPart text = [] then whole else -whole)
    (Nat.ofDigitChars 10 (body.drop ((digits body).length + 1)) 0)

theorem readFraction_text (x : Rat) : readFraction (fractionNumeral x).text = x := by
  have hkind : ∀ n : Nat, ∀ c ∈ Nat.toDigits 10 n, c.isDigit = true :=
    fun n c hc => Nat.isDigit_of_mem_toDigits (by decide) (by decide) hc
  have hdigits : digits (Nat.toDigits 10 x.num.natAbs ++ '.' :: Nat.toDigits 10 x.den) =
      Nat.toDigits 10 x.num.natAbs := by
    rw [digits, List.takeWhile_append_of_pos (hkind _), List.takeWhile_cons_of_neg (by decide),
      List.append_nil]
  have hden : (Nat.toDigits 10 x.num.natAbs ++ '.' :: Nat.toDigits 10 x.den).drop
      ((Nat.toDigits 10 x.num.natAbs).length + 1) = Nat.toDigits 10 x.den := by
    rw [List.drop_append, List.drop_of_length_le (Nat.le_succ _), Nat.add_sub_cancel_left]
    rfl
  have hread : ∀ sign, (fractionNumeral x).sign = sign →
      signPart (fractionNumeral x).text = sign → readFraction (fractionNumeral x).text =
        mkRat (if sign = [] then (x.num.natAbs : Int) else -x.num.natAbs) x.den := by
    intro sign hsign hpart
    have hbody : (fractionNumeral x).text.drop sign.length =
        Nat.toDigits 10 x.num.natAbs ++ '.' :: Nat.toDigits 10 x.den := by
      rw [Numeral.text, hsign, List.drop_left]
      simp [fractionNumeral]
    simp only [readFraction, hpart, hbody, hdigits, hden, Nat.ofDigitChars_ten_toDigits]
  by_cases hnum : 0 ≤ x.num
  · have hsign : (fractionNumeral x).sign = [] := if_pos hnum
    have hpart : signPart (fractionNumeral x).text = [] := by
      obtain ⟨c, rest, hcons⟩ := List.exists_cons_of_ne_nil
        (show Nat.toDigits 10 x.num.natAbs ≠ [] from Nat.toDigits_ne_nil)
      have hc := hkind x.num.natAbs c (hcons ▸ List.mem_cons_self)
      have hwhole : (fractionNumeral x).whole = c :: rest := hcons
      rw [Numeral.text, hsign, hwhole, List.nil_append, List.cons_append, signPart]
      intro _ heq
      rw [(List.cons.inj heq).1] at hc
      exact absurd hc (by decide)
    rw [hread [] hsign hpart, if_pos rfl, Int.natAbs_of_nonneg hnum, Rat.mkRat_self]
  · have hsign : (fractionNumeral x).sign = ['-'] := if_neg hnum
    have hpart : signPart (fractionNumeral x).text = ['-'] := by
      rw [Numeral.text, hsign]
      rfl
    have habs : -(x.num.natAbs : Int) = x.num := by omega
    rw [hread ['-'] hsign hpart, if_neg (by decide), habs, Rat.mkRat_self]

def fractionNumbers : Numbers Rat where
  nan := 0
  infinity := 0
  negInfinity := 0
  ofText := readFraction
  toText x := (fractionNumeral x).text
  maxDigits := 4300
  reads_toText x := Or.inr ⟨fractionNumeral x, by
    have hisInt : (fractionNumeral x).isInt = false := by simp [Numeral.isInt, fractionNumeral]
    rw [JsonText.Floats.numeral, hisInt, if_neg Bool.false_ne_true]
    exact congrArg JsonText.Scalar.float (readFraction_text x), rfl⟩

end Fractions

def factProperties : Properties := scalarProperties "chat"
  [("text", some (.str "Moved to Boston")), ("confidence", some (.float (9 / 10)))] (by decide)

def entityProperties : Properties := scalarProperties "chat"
  [("canonical_name", some (.str "Boston"))] (by decide)

def aboutProperties : Properties := scalarProperties "chat"
  [("role", some (.str "object"))] (by decide)

theorem factProperties_context : factProperties.lookup "context_id" = some (.str "chat") :=
  lookup_context_scalarProperties (by decide)

theorem entityProperties_context : entityProperties.lookup "context_id" = some (.str "chat") :=
  lookup_context_scalarProperties (by decide)

theorem aboutProperties_context : aboutProperties.lookup "context_id" = some (.str "chat") :=
  lookup_context_scalarProperties (by decide)

theorem chat_ne : "chat" ≠ "" := by decide

/-- A plan for a fact about an entity, the fact under a given logical key. Its nodes have two labels,
so a run makes three calls. -/
def factPlan (logicalKey : String) (hkey : logicalKey ≠ "") : GraphWritePlan where
  contextId := "chat"
  planKey := "plan\x00one"
  nodes := [⟨7, .fact, logicalKey, factProperties, hkey⟩,
    ⟨8, .entity, "entity:boston", entityProperties, by decide⟩]
  relationships := [⟨9, .about, "about:boston", 7, 8, .fact, .entity, aboutProperties, by decide⟩]
  contextId_ne := chat_ne
  planKey_ne := by decide
  ids_nodup := show [7, 8, 9].Nodup by decide
  context_ok r hr := by
    simp only [planRecords, List.map_cons, List.map_nil, List.cons_append, List.nil_append,
      List.mem_cons, List.not_mem_nil, or_false] at hr
    rcases hr with rfl | rfl | rfl
    · exact factProperties_context
    · exact entityProperties_context
    · exact aboutProperties_context

theorem factPlan_samePayloads : SamePayloads (factPlan "fact:boston" (by decide))
    (factPlan "fact:moved" (by decide)) := ⟨rfl, rfl, rfl⟩

/-- A plan of three calls, and its copy with another logical key for the fact,
which no call shows. Both runs make the first of the same calls. -/
theorem idempotency_keys_boston :
    (transportWrites fractionNumbers (factPlan "fact:boston" (by decide))).length = 3 ∧
    (∀ w w', Makes fractionNumbers (factPlan "fact:boston" (by decide)) w →
      Makes fractionNumbers (factPlan "fact:moved" (by decide)) w' →
        w.key = w'.key → w.cypher = w'.cypher ∧ w.rows = w'.rows) ∧
    ∃ writes : List TransportWrite,
      ∀ p ∈ [factPlan "fact:boston" (by decide), factPlan "fact:moved" (by decide)],
        ∀ registered answers, (GraphWriter.write fractionNumbers registered answers p).1 <+: writes ∧
          ∀ bookmarks, (GraphWriter.write fractionNumbers registered answers p).2 = .ok bookmarks →
            (GraphWriter.write fractionNumbers registered answers p).1 = writes := by
  obtain ⟨hkeys, hsame⟩ := idempotency_keys fractionNumbers
  exact ⟨by rfl, hkeys _ _ (by decide) (by decide), hsame _ _ factPlan_samePayloads⟩

end ContextMemory
