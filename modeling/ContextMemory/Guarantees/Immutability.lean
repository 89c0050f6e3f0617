/-
What the manifest guarantees of the graph.

The manifest is written before a graph write that can stop anywhere, so the two
diverge after every failure. What relates them is `Covered`: everything in the graph
is registered. A node has the registered label, and each of its values outside the
mutable properties is `==` to the registered one; a relationship is exactly the
registered one.

`Covered` is kept by every write, and from it follows what one write keeps of the
graph (`Kept`), hence what a run of them keeps. Values are kept up to Python's `==`,
because that is what the manifest compares: `1`, `1.0` and `True` pass for each other.
-/

import ContextMemory.Ingestion.GraphWriter

namespace ContextMemory

open Faulty Manifest

/-! ### Everything in the graph is registered -/

namespace Payload

def properties : Payload → Properties
  | .node _ _ properties => properties
  | .relationship _ _ _ _ _ _ properties => properties

/-- The edge a registered relationship is written to. -/
def edgeKey : Payload → Option EdgeKey
  | .node _ _ _ => none
  | .relationship type id source destination _ _ properties =>
      match shadowedId properties "source_id" source,
          shadowedId properties "destination_id" destination with
      | some source, some destination => some ⟨type, source, destination, id⟩
      | _, _ => none

end Payload

/-- `new` has the values of `old`, up to `==`, outside the mutable properties. -/
def KeepsValues (old new : String → Option Scalar) : Prop :=
  ∀ key a, key ∉ mutableProperties → old key = some a → ∃ b, new key = some b ∧ a.pyEq b = true

theorem KeepsValues.refl (values : String → Option Scalar) : KeepsValues values values :=
  fun _ a _ h => ⟨a, h, Scalar.pyEq_refl a⟩

theorem KeepsValues.trans {a b c : String → Option Scalar} (hab : KeepsValues a b)
    (hbc : KeepsValues b c) : KeepsValues a c := by
  intro key x hkey hx
  obtain ⟨y, hy, hxy⟩ := hab key x hkey hx
  obtain ⟨z, hz, hyz⟩ := hbc key y hkey hy
  exact ⟨z, hz, Scalar.pyEq_trans hxy hyz⟩

/-- A string value is kept exactly. -/
theorem KeepsValues.str {old new : String → Option Scalar} (h : KeepsValues old new)
    {key value : String} (hkey : key ∉ mutableProperties) (hold : old key = some (.str value)) :
    new key = some (.str value) := by
  obtain ⟨b, hb, heq⟩ := h key _ hkey hold
  rw [hb, Scalar.pyEq_str heq]

/-- Every value of the graph is registered. -/
structure Covered (s : GraphStore) : Prop where
  node : ∀ {id v}, s.graph.nodes id = some v → ∃ label properties,
    s.manifest.entry id = some (.node label id properties) ∧ v.labels = {label} ∧
      KeepsValues v.props properties.lookup
  edge : ∀ {key props}, s.graph.edge key = some props → ∃ payload,
    s.manifest.entry key.id = some payload ∧ payload.edgeKey = some key ∧
      props = payload.properties.lookup

theorem covered_empty : Covered {} where
  node h := by cases h
  edge h := by cases h

/-! ### What one write keeps -/

/-- What a write keeps of the graph and of the manifest. -/
structure Kept (s t : GraphStore) : Prop where
  node : ∀ {id v}, s.graph.nodes id = some v → ∃ v', t.graph.nodes id = some v' ∧
    v'.labels = v.labels ∧ KeepsValues v.props v'.props
  edge : ∀ {key props}, s.graph.edge key = some props → t.graph.edge key = some props
  entry_node : ∀ {id label properties}, s.manifest.entry id = some (.node label id properties) →
    ∃ properties', t.manifest.entry id = some (.node label id properties') ∧
      KeepsValues properties.lookup properties'.lookup
  entry_edge : ∀ {id payload}, s.manifest.entry id = some payload → payload.kind = .relationship →
    t.manifest.entry id = some payload

theorem Kept.refl (s : GraphStore) : Kept s s where
  node h := ⟨_, h, rfl, KeepsValues.refl _⟩
  edge h := h
  entry_node h := ⟨_, h, KeepsValues.refl _⟩
  entry_edge h _ := h

theorem Kept.trans {s t u : GraphStore} (hst : Kept s t) (htu : Kept t u) : Kept s u where
  node h := by
    obtain ⟨v', hv', hlabels', hvalues'⟩ := hst.node h
    obtain ⟨v'', hv'', hlabels'', hvalues''⟩ := htu.node hv'
    exact ⟨v'', hv'', hlabels''.trans hlabels', hvalues'.trans hvalues''⟩
  edge h := htu.edge (hst.edge h)
  entry_node h := by
    obtain ⟨p', hp', hvalues'⟩ := hst.entry_node h
    obtain ⟨p'', hp'', hvalues''⟩ := htu.entry_node hp'
    exact ⟨p'', hp'', hvalues'.trans hvalues''⟩
  entry_edge h hkind := htu.entry_edge (hst.entry_edge h hkind) hkind

theorem keepsValues_merge {old new : Properties} (h : Compatible old new) :
    KeepsValues old.lookup (old.merge new).lookup := by
  intro key a hkey ha
  rw [Properties.lookup_merge]
  cases hb : new.lookup key with
  | none => exact ⟨a, by rw [ha]; rfl, Scalar.pyEq_refl a⟩
  | some b => exact ⟨b, rfl, h key a b hkey ha hb⟩

/-- An accepted node: its id was free, or had its label and compatible
properties. -/
theorem register_node {m m' : Manifest} {plan : GraphWritePlan} {n : GraphNode}
    (h : m.register plan = .ok m') (hn : GraphRecord.node n ∈ plan.records) :
    (m.entry n.graphId = none ∧
      m'.entry n.graphId = some (.node n.label n.graphId n.properties)) ∨
    ∃ old, m.entry n.graphId = some (.node n.label n.graphId old) ∧ Compatible old n.properties ∧
      m'.entry n.graphId = some (.node n.label n.graphId (old.merge n.properties)) := by
  obtain ⟨payload, hentry, habsorbs⟩ := (register_entry h).1 _ hn
  rcases habsorbs with ⟨hnone, rfl⟩ | ⟨old, hsome, hcompatible, rfl⟩
  · exact Or.inl ⟨hnone, hentry⟩
  · exact Or.inr ⟨old, hsome, hcompatible, hentry⟩

theorem register_relationship {m m' : Manifest} {plan : GraphWritePlan} {e : GraphRelationship}
    (h : m.register plan = .ok m') (he : GraphRecord.relationship e ∈ plan.records) :
    (m.entry e.graphId = none ∨ m.entry e.graphId = some (GraphRecord.relationship e).payload) ∧
      m'.entry e.graphId = some (GraphRecord.relationship e).payload := by
  obtain ⟨payload, hentry, hbefore, rfl⟩ := (register_entry h).1 _ he
  exact ⟨hbefore, hentry⟩

/-- Registration keeps what was registered. -/
theorem register_keeps {m m' : Manifest} {plan : GraphWritePlan} (h : m.register plan = .ok m') :
    (∀ {id label properties}, m.entry id = some (.node label id properties) →
      ∃ properties', m'.entry id = some (.node label id properties') ∧
        KeepsValues properties.lookup properties'.lookup) ∧
    ∀ {id payload}, m.entry id = some payload → payload.kind = .relationship →
      m'.entry id = some payload := by
  constructor
  · intro id label properties hentry
    by_cases hid : id ∈ plan.records.map (·.graphId)
    · obtain ⟨r, hr, rfl⟩ := List.mem_map.mp hid
      cases r with
      | node n =>
          rcases register_node h hr with ⟨hnone, -⟩ | ⟨old, hsome, hcompatible, hafter⟩
          · rw [show m.entry n.graphId = _ from hentry] at hnone
            cases hnone
          · rw [show m.entry n.graphId = _ from hentry] at hsome
            cases hsome
            exact ⟨_, hafter, keepsValues_merge hcompatible⟩
      | relationship e =>
          rcases (register_relationship h hr).1 with hnone | hsome
          · rw [show m.entry e.graphId = _ from hentry] at hnone
            cases hnone
          · rw [show m.entry e.graphId = _ from hentry] at hsome
            cases hsome
    · exact ⟨properties, by rw [(register_entry h).2 id hid, hentry], KeepsValues.refl _⟩
  · intro id payload hentry hkind
    by_cases hid : id ∈ plan.records.map (·.graphId)
    · obtain ⟨r, hr, rfl⟩ := List.mem_map.mp hid
      cases r with
      | node n =>
          rcases register_node h hr with ⟨hnone, -⟩ | ⟨old, hsome, -, -⟩
          · rw [show m.entry n.graphId = _ from hentry] at hnone
            cases hnone
          · rw [show m.entry n.graphId = _ from hentry] at hsome
            cases hsome
            cases hkind
      | relationship e =>
          obtain ⟨hbefore, hafter⟩ := register_relationship h hr
          rcases hbefore with hnone | hsome
          · rw [show m.entry e.graphId = _ from hentry] at hnone
            cases hnone
          · rw [show m.entry e.graphId = _ from hentry] at hsome
            cases hsome
            exact hafter
    · rw [(register_entry h).2 id hid, hentry]

section Write

variable {s : GraphStore} {m : Manifest} {plan : GraphWritePlan} {done : List GraphRecord}

/-- The node a partial write leaves at an id: the old one, or a record merged
over it. -/
theorem writeRecords_nodes_cases (hdone : ∀ r ∈ done, r ∈ plan.records) (g : Graph) (id : Nat) :
    (g.writeRecords done).nodes id = g.nodes id ∨
      ∃ n, GraphRecord.node n ∈ done ∧ n.graphId = id ∧
        (g.writeRecords done).nodes id = some (Vertex.merge (g.nodes id) n.label n.properties) := by
  by_cases h : ∃ n, GraphRecord.node n ∈ done ∧ n.graphId = id
  · obtain ⟨n, hn, rfl⟩ := h
    refine Or.inr ⟨n, hn, rfl, writeRecords_nodes_of_mem hn fun k hk heq => ?_⟩
    exact plan.node_eq (hdone _ hk) (hdone _ hn) heq
  · exact Or.inl (writeRecords_nodes_of_not_mem fun n hn heq => h ⟨n, hn, heq⟩)

theorem writeRecords_edge_cases (hdone : ∀ r ∈ done, r ∈ plan.records) (g : Graph)
    (key : EdgeKey) : (g.writeRecords done).edge key = g.edge key ∨
      ∃ e, GraphRecord.relationship e ∈ done ∧ e.edgeKey = some key ∧
        (g.writeRecords done).edge key =
          some (e.properties.assign ((g.edge key).getD fun _ => none)) := by
  by_cases h : ∃ e, GraphRecord.relationship e ∈ done ∧ e.edgeKey = some key
  · obtain ⟨e, he, hkey⟩ := h
    refine Or.inr ⟨e, he, hkey, writeRecords_edge_of_mem he hkey fun d hd hdkey => ?_⟩
    exact plan.relationship_eq (hdone _ hd) (hdone _ he) hdkey hkey
  · exact Or.inl (writeRecords_edge_of_not_mem fun e he hkey => h ⟨e, he, hkey⟩)

/-- A relationship that is written again is written with the properties it has. -/
theorem edge_rewritten (hs : Covered s) (hm : s.manifest.register plan = .ok m)
    {e : GraphRelationship} {key : EdgeKey} (he : GraphRecord.relationship e ∈ plan.records)
    (hkey : e.edgeKey = some key) : (s.graph.edge key = none ∨
        s.graph.edge key = some e.properties.lookup) ∧
      e.properties.assign ((s.graph.edge key).getD fun _ => none) = e.properties.lookup := by
  have hold : s.graph.edge key = none ∨ s.graph.edge key = some e.properties.lookup := by
    cases hedge : s.graph.edge key with
    | none => exact Or.inl rfl
    | some props =>
        obtain ⟨payload, hentry, -, rfl⟩ := hs.edge hedge
        rw [(edgeKey_id hkey).1] at hentry
        rcases (register_relationship hm he).1 with hnone | hsome
        · rw [hentry] at hnone
          cases hnone
        · obtain rfl := Option.some.inj (hentry.symm.trans hsome)
          exact Or.inr rfl
  refine ⟨hold, funext fun k => ?_⟩
  rcases hold with h | h
  · rw [h]
    simp [Properties.assign]
  · rw [h]
    simp [Properties.assign]

theorem covered_written (hs : Covered s) (hm : s.manifest.register plan = .ok m)
    (hdone : ∀ r ∈ done, r ∈ plan.records) :
    Covered ⟨m, s.graph.writeRecords done, s.written ++ done⟩ where
  node := by
    intro id v hv
    dsimp only at hv ⊢
    rcases writeRecords_nodes_cases hdone s.graph id with hsame | ⟨n, hn, rfl, hmerged⟩
    · rw [hsame] at hv
      obtain ⟨label, properties, hentry, hlabels, hvalues⟩ := hs.node hv
      obtain ⟨properties', hentry', hvalues'⟩ := (register_keeps hm).1 hentry
      exact ⟨label, properties', hentry', hlabels, hvalues.trans hvalues'⟩
    · rw [hmerged] at hv
      cases hv
      rcases register_node hm (hdone _ hn) with ⟨hnone, hafter⟩ | ⟨old, hsome, hcompatible, hafter⟩
      · have hfresh : s.graph.nodes n.graphId = none := by
          cases hnode : s.graph.nodes n.graphId with
          | none => rfl
          | some v =>
              obtain ⟨label, properties, hentry, -, -⟩ := hs.node hnode
              rw [hentry] at hnone
              cases hnone
        refine ⟨n.label, n.properties, hafter, ?_, ?_⟩
        · simp [Vertex.merge, hfresh]
        · intro key a hkey ha
          simp only [Vertex.merge, hfresh, Option.getD_none, Properties.assign,
            Option.or_none] at ha
          exact ⟨a, ha, Scalar.pyEq_refl a⟩
      · refine ⟨n.label, _, hafter, ?_, ?_⟩
        · cases hnode : s.graph.nodes n.graphId with
          | none => simp [Vertex.merge]
          | some v =>
              obtain ⟨label, properties, hentry, hlabels, -⟩ := hs.node hnode
              rw [hsome] at hentry
              cases hentry
              simp [Vertex.merge, hlabels]
        · intro key a hkey ha
          rw [Properties.lookup_merge]
          simp only [Vertex.merge, Properties.assign] at ha
          cases hnew : n.properties.lookup key with
          | some b =>
              rw [hnew] at ha
              cases ha
              exact ⟨a, rfl, Scalar.pyEq_refl a⟩
          | none =>
              rw [hnew, Option.none_or] at ha
              cases hnode : s.graph.nodes n.graphId with
              | none =>
                  rw [hnode] at ha
                  cases ha
              | some v =>
                  rw [hnode] at ha
                  obtain ⟨label, properties, hentry, -, hvalues⟩ := hs.node hnode
                  rw [hsome] at hentry
                  cases hentry
                  exact hvalues key a hkey ha
  edge := by
    intro key props hprops
    dsimp only at hprops ⊢
    rcases writeRecords_edge_cases hdone s.graph key with hsame | ⟨e, he, hkey, hmerged⟩
    · rw [hsame] at hprops
      obtain ⟨payload, hentry, hedge, hvalues⟩ := hs.edge hprops
      refine ⟨payload, (register_keeps hm).2 hentry ?_, hedge, hvalues⟩
      cases payload with
      | node => cases hedge
      | relationship => rfl
    · rw [hmerged, (edge_rewritten hs hm (hdone _ he) hkey).2] at hprops
      cases hprops
      refine ⟨(GraphRecord.relationship e).payload, ?_, hkey, rfl⟩
      rw [(edgeKey_id hkey).1]
      exact (register_relationship hm (hdone _ he)).2

theorem kept_written (hs : Covered s) (hm : s.manifest.register plan = .ok m)
    (hdone : ∀ r ∈ done, r ∈ plan.records) :
    Kept s ⟨m, s.graph.writeRecords done, s.written ++ done⟩ where
  node := by
    intro id v hv
    dsimp only
    rcases writeRecords_nodes_cases hdone s.graph id with hsame | ⟨n, hn, rfl, hmerged⟩
    · exact ⟨v, hsame.trans hv, rfl, KeepsValues.refl _⟩
    · obtain ⟨label, properties, hentry, hlabels, hvalues⟩ := hs.node hv
      rcases register_node hm (hdone _ hn) with ⟨hnone, -⟩ | ⟨old, hsome, hcompatible, -⟩
      · rw [hentry] at hnone
        cases hnone
      · rw [hsome] at hentry
        cases hentry
        refine ⟨_, hmerged, ?_, ?_⟩
        · simp [Vertex.merge, hv, hlabels]
        · intro key a hkey ha
          simp only [Vertex.merge, hv, Option.getD_some, Properties.assign]
          cases hnew : n.properties.lookup key with
          | none => exact ⟨a, by rw [ha]; rfl, Scalar.pyEq_refl a⟩
          | some b =>
              -- both values are `==` to the registered one
              obtain ⟨c, hc, hac⟩ := hvalues key a hkey ha
              exact ⟨b, rfl, Scalar.pyEq_trans hac (hcompatible key c b hkey hc hnew)⟩
  edge := by
    intro key props hprops
    dsimp only
    rcases writeRecords_edge_cases hdone s.graph key with hsame | ⟨e, he, hkey, hmerged⟩
    · exact hsame.trans hprops
    · obtain ⟨hold, hassign⟩ := edge_rewritten hs hm (hdone _ he) hkey
      rcases hold with hnone | hsome
      · rw [hprops] at hnone
        cases hnone
      · rw [hmerged, hassign, ← hprops, hsome]
  entry_node := (register_keeps hm).1
  entry_edge := (register_keeps hm).2

end Write

/-- **One write.** Wherever it stops, the graph stays covered, and what was
there is kept. -/
theorem wrote_kept {plan : GraphWritePlan} {s t : GraphStore} (hs : Covered s)
    (h : Wrote plan s t) : Covered t ∧ Kept s t := by
  rcases h with rfl | ⟨m, done, hsome⟩
  · exact ⟨hs, Kept.refl t⟩
  · rw [hsome.state_eq]
    exact ⟨covered_written hs hsome.registered hsome.sound,
      kept_written hs hsome.registered hsome.sound⟩

/-! ### Runs of writes -/

/-- A `GraphWriter.write` call and what goes wrong around it. -/
structure WriteCall where
  plan : GraphWritePlan
  faults : List (Fault Exn)

def WriteCall.run (s : GraphStore) (call : WriteCall) : GraphStore :=
  (writePlan call.plan s call.faults).state

def writeRun (s : GraphStore) (calls : List WriteCall) : GraphStore := calls.foldl WriteCall.run s

theorem writeRun_kept (calls : List WriteCall) {s : GraphStore} (hs : Covered s) :
    Covered (writeRun s calls) ∧ Kept s (writeRun s calls) := by
  induction calls generalizing s with
  | nil => exact ⟨hs, Kept.refl s⟩
  | cons call rest ih =>
      obtain ⟨hcovered, hkept⟩ := wrote_kept hs (writePlan_wrote call.plan s call.faults)
      obtain ⟨hcovered', hkept'⟩ := ih hcovered
      exact ⟨hcovered', hkept.trans hkept'⟩

/-- Some plan of the run gives this value to this property of this node. -/
def Given (calls : List WriteCall) (id : Nat) (key : String) (value : Scalar) : Prop :=
  ∃ call ∈ calls, ∃ n ∈ call.plan.nodes, n.graphId = id ∧ n.properties.lookup key = some value

theorem wrote_given {plan : GraphWritePlan} {s t : GraphStore} (h : Wrote plan s t) {id : Nat}
    {v : Vertex} {key : String} {a : Scalar} (hv : t.graph.nodes id = some v)
    (ha : v.props key = some a) :
    (∃ v', s.graph.nodes id = some v' ∧ v'.props key = some a) ∨
      ∃ n ∈ plan.nodes, n.graphId = id ∧ n.properties.lookup key = some a := by
  rcases h with rfl | ⟨m, done, hsome⟩
  · exact Or.inl ⟨v, hv, ha⟩
  · have hdone := hsome.sound
    rw [hsome.state_eq] at hv
    dsimp only at hv
    rcases writeRecords_nodes_cases hdone s.graph id with hsame | ⟨n, hn, rfl, hmerged⟩
    · exact Or.inl ⟨v, hsame ▸ hv, ha⟩
    · rw [hmerged] at hv
      cases hv
      simp only [Vertex.merge, Properties.assign] at ha
      cases hnew : n.properties.lookup key with
      | some b =>
          rw [hnew] at ha
          cases ha
          have hmem : n ∈ plan.nodes := by
            rcases GraphWritePlan.mem_records.mp (hdone _ hn) with ⟨k, hk, heq⟩ | ⟨e, -, heq⟩
            · cases heq
              exact hk
            · cases heq
          exact Or.inr ⟨n, hmem, rfl, hnew⟩
      | none =>
          rw [hnew, Option.none_or] at ha
          cases hnode : s.graph.nodes n.graphId with
          | none =>
              rw [hnode] at ha
              cases ha
          | some v' =>
              rw [hnode] at ha
              exact Or.inl ⟨v', rfl, ha⟩

/-- Every value in the graph was given by some plan of the run. -/
theorem given_of_writeRun (calls : List WriteCall) {s : GraphStore} {id : Nat} {v : Vertex}
    {key : String} {a : Scalar} (hv : (writeRun s calls).graph.nodes id = some v)
    (ha : v.props key = some a) :
    (∃ v', s.graph.nodes id = some v' ∧ v'.props key = some a) ∨ Given calls id key a := by
  induction calls generalizing s with
  | nil => exact Or.inl ⟨v, hv, ha⟩
  | cons call rest ih =>
      rcases ih hv with ⟨v', hv', ha'⟩ | ⟨c, hc, n, hn, hid, hlookup⟩
      · rcases wrote_given (writePlan_wrote call.plan s call.faults) hv' ha' with
          hold | ⟨n, hn, hid, hlookup⟩
        · exact Or.inl hold
        · exact Or.inr ⟨call, List.mem_cons_self, n, hn, hid, hlookup⟩
      · exact Or.inr ⟨c, List.mem_cons_of_mem _ hc, n, hn, hid, hlookup⟩

/-- No two plans of the run give one property of one node scalars that are `==` and yet
different, as `1`, `1.0` and `True` are. -/
def SameScalars (calls : List WriteCall) : Prop :=
  ∀ id key a b, key ∉ mutableProperties → Given calls id key a → Given calls id key b →
    a.pyEq b = true → a = b

/-- **Immutability.** Over any run of writes, each refused by the manifest or
stopped after any number of statements: between any two points of the run no
node changes its label or a value outside the mutable properties, and no
relationship changes its type, its endpoints or its properties; and a refused
plan changes nothing at all. The run gives no property two values that Python
compares as equal and that are different: `1` and `True` pass for each other in
the manifest, and the statement overwrites. -/
theorem write_immutable (earlier later : List WriteCall) (hsame : SameScalars (earlier ++ later)) :
    (∀ id v, (writeRun {} earlier).graph.nodes id = some v →
      ∃ v', (writeRun {} (earlier ++ later)).graph.nodes id = some v' ∧ v'.labels = v.labels ∧
        ∀ key a, key ∉ mutableProperties → v.props key = some a → v'.props key = some a) ∧
    (∀ e ∈ (writeRun {} earlier).graph.edges, e ∈ (writeRun {} (earlier ++ later)).graph.edges ∧
      ∀ e' ∈ (writeRun {} (earlier ++ later)).graph.edges, e'.id = e.id → e' = e) ∧
    ∀ plan error faults, (writeRun {} (earlier ++ later)).manifest.register plan = .error error →
      (writePlan plan (writeRun {} (earlier ++ later)) faults).state =
        writeRun {} (earlier ++ later) := by
  have hsplit : writeRun {} (earlier ++ later) = writeRun (writeRun {} earlier) later := by
    simp only [writeRun, List.foldl_append]
  obtain ⟨hcovered, -⟩ := writeRun_kept earlier covered_empty
  obtain ⟨hcovered', hkept⟩ := writeRun_kept later hcovered
  rw [← hsplit] at hcovered' hkept
  refine ⟨fun id v hv => ?_, fun e he => ?_, fun plan error faults hrefused => ?_⟩
  · obtain ⟨v', hv', hlabels, hvalues⟩ := hkept.node hv
    refine ⟨v', hv', hlabels, fun key a hkey ha => ?_⟩
    obtain ⟨b, hb, hab⟩ := hvalues key a hkey ha
    have hgivenA : Given (earlier ++ later) id key a := by
      rcases given_of_writeRun earlier hv ha with ⟨v₀, hv₀, -⟩ | ⟨c, hc, hgiven⟩
      · cases hv₀
      · exact ⟨c, List.mem_append_left _ hc, hgiven⟩
    have hgivenB : Given (earlier ++ later) id key b := by
      rcases given_of_writeRun (earlier ++ later) hv' hb with ⟨v₀, hv₀, -⟩ | hgiven
      · cases hv₀
      · exact hgiven
    rw [hb, hsame id key a b hkey hgivenA hgivenB hab]
  · have hthere : (writeRun {} (earlier ++ later)).graph.edge e.key = some e.props :=
      hkept.edge (Graph.edge_of_mem he)
    obtain ⟨d, hd, hdkey, hdprops⟩ := Graph.exists_mem_of_edge hthere
    have hde : d = e := by
      obtain ⟨type, source, destination, id, props⟩ := e
      obtain ⟨type', source', destination', id', props'⟩ := d
      cases hdkey
      cases hdprops
      rfl
    subst hde
    refine ⟨hd, fun e' he' hid => ?_⟩
    -- the registered payload of an id says which edge it is
    obtain ⟨payload, hentry, hkey, -⟩ := hcovered'.edge (Graph.edge_of_mem hd)
    obtain ⟨payload', hentry', hkey', -⟩ := hcovered'.edge (Graph.edge_of_mem he')
    have hids : e'.key.id = d.key.id := hid
    rw [hids, hentry] at hentry'
    cases hentry'
    have hsamekey : e'.key = d.key := Option.some.inj (hkey'.symm.trans hkey)
    exact List.inj_on_of_nodup_map (Graph.edges_nodup _) he' hd hsamekey
  · exact writePlan_refused hrefused faults

/-! ### Where it fails: `1` becomes `True` -/

/-- The properties of one turn's node with the index it was given. -/
def turnIndexProperties (index : Scalar) : Properties :=
  scalarProperties "context" [("logical_key", some (.str "turn:chunk")), ("turn_index", some index)]
    (fieldsSafe ["logical_key", "turn_index"] rfl (by decide))

def turnIndexPlan (index : Scalar) : GraphWritePlan where
  contextId := "context"
  planKey := "plan:chunk"
  nodes := [⟨1, .turn, "turn:chunk", turnIndexProperties index, by decide⟩]
  relationships := []
  contextId_ne := by decide
  planKey_ne := by decide
  ids_nodup := by simp [planRecords]
  context_ok := by
    intro r hr
    rw [List.mem_singleton.mp hr]
    simp only [GraphRecord.properties, turnIndexProperties]
    rw [lookup_context_scalarProperties (by simp)]

/-- The stored `turn_index` of that node. -/
def storedTurnIndex (s : GraphStore) : Option Scalar :=
  (s.graph.nodes 1).bind fun v => v.props "turn_index"

/-- Two accepted writes of one node change its `turn_index` from `1` to `True`. -/
theorem write_immutable_fails :
    storedTurnIndex (writeRun {} [⟨turnIndexPlan (.int 1), []⟩]) = some (.int 1) ∧
      storedTurnIndex (writeRun {} ([⟨turnIndexPlan (.int 1), []⟩] ++
        [⟨turnIndexPlan (.bool true), []⟩])) = some (.bool true) ∧
      "turn_index" ∉ mutableProperties := by
  refine ⟨?_, ?_, ?_⟩ <;> decide +kernel

/-- One node written twice with one index, the second write cut short: the run
meets the condition, and the vertex the first write left is the vertex it still
has. -/
theorem write_immutable_same_index :
    ∃ v', (writeRun {} ([⟨turnIndexPlan (.int 1), []⟩] ++
        [⟨turnIndexPlan (.int 1), [.none, .die]⟩])).graph.nodes 1 = some v' ∧
      v'.props "turn_index" = some (.int 1) := by
  have hsame : SameScalars ([⟨turnIndexPlan (.int 1), []⟩] ++
      [⟨turnIndexPlan (.int 1), [.none, .die]⟩]) := by
    have hgiven : ∀ {id key a}, Given ([⟨turnIndexPlan (.int 1), []⟩] ++
        [⟨turnIndexPlan (.int 1), [.none, .die]⟩]) id key a →
        (turnIndexProperties (.int 1)).lookup key = some a := by
      rintro id key a ⟨c, hc, n, hn, -, ha⟩
      have hplan : c.plan = turnIndexPlan (.int 1) := by
        rcases List.mem_append.mp hc with hc | hc <;> rw [List.mem_singleton.mp hc]
      rw [hplan] at hn
      rwa [List.mem_singleton.mp hn] at ha
    rintro id key a b - ha hb -
    exact Option.some.inj ((hgiven ha).symm.trans (hgiven hb))
  have hfirst : ∃ v, (writeRun {} [⟨turnIndexPlan (.int 1), []⟩]).graph.nodes 1 = some v ∧
      v.props "turn_index" = some (.int 1) := by
    refine Option.bind_eq_some_iff.mp (?_ : storedTurnIndex _ = some (.int 1))
    decide +kernel
  obtain ⟨v, hv, hindex⟩ := hfirst
  obtain ⟨v', hv', -, hvalues⟩ := (write_immutable _ _ hsame).1 1 v hv
  exact ⟨v', hv', hvalues "turn_index" _ (by decide) hindex⟩

end ContextMemory
