/-
Indexes over a run.

The changelog of an edge type covers a sequence when it has all that happened since. In every world
of a run it covers each sequence that a patch may start from: those from the current manifest on that
the floor of the changelog does not exclude (`World.Sound`). What an event does to the rest of the
world is said once (`World.Advances`): manifests only move on, and a payload that goes is older than
the manifest. Sequences are those of the run: `past n` is the set of edges after commit `n`.
-/

import ContextMemory.Guarantees.GraphIndex
import ContextMemory.Guarantees.Cell
import ContextMemory.Lib.Machine

namespace ContextMemory.Topology

open SortedMap (get erase insert Sorted)

instance Store.instDecidableTrusted (s : Store) : (request : Request) → Decidable (s.Trusted request)
  | .writeEdge _ => inferInstanceAs (Decidable True)
  | .deleteEdge _ => inferInstanceAs (Decidable True)
  | .writeEdgeMutationsBatch _ => inferInstanceAs (Decidable True)
  | .deleteEdgeMutationsBatch _ => inferInstanceAs (Decidable True)
  | .bulkImportEdges _ _ _ .checkExisting => inferInstanceAs (Decidable True)
  | .bulkImportEdges edgeType edges key .trustNoExisting =>
      inferInstanceAs (Decidable (get key s.imported = none →
        ∀ e ∈ importEdges edgeType edges, e ∉ s.edges))
  | .appendSegment _ _ _ _ => inferInstanceAs (Decidable True)
  | .compactSegments _ _ _ _ _ => inferInstanceAs (Decidable True)

namespace World

variable {S : IndexSetting} {w w' : World} {past past' : Nat → Finset EdgeKey} {edgeType : String}
  {first : Nat}

/-! ### Runs -/

/-- Callers may be trusted, and the position in the log of the store is a number of eight bytes. -/
def Allows (w : World) : Event → Prop
  | .request call => w.store.Trusted call.request
  | .build _ lastWalId => lastWalId < 2 ^ 64
  | .patch _ lastWalId => lastWalId < 2 ^ 64
  | _ => True

instance instDecidableAllows (w : World) : (event : Event) → Decidable (w.Allows event)
  | .request call => Store.instDecidableTrusted w.store call.request
  | .build _ lastWalId => inferInstanceAs (Decidable (lastWalId < 2 ^ 64))
  | .patch _ lastWalId => inferInstanceAs (Decidable (lastWalId < 2 ^ 64))
  | .elsewhere => inferInstanceAs (Decidable True)
  | .purge _ _ => inferInstanceAs (Decidable True)
  | .collect _ => inferInstanceAs (Decidable True)
  | .prune _ _ => inferInstanceAs (Decidable True)
  | .resume _ => inferInstanceAs (Decidable True)

def next (S : IndexSetting) (w : World) (event : Event) : Option World :=
  if w.Allows event then w.step S event else none

/-- Everything has a size that the code's types have. -/
structure Calm (w : World) : Prop where
  store : Fits w.store
  payloads : ∀ p ∈ w.payloads, p.2.length ≤ u64Max

instance instDecidableFits (s : Store) : Decidable (Fits s) :=
  decidable_of_iff (s.sequence < u64Max ∧ ∀ e ∈ s.edges, e.src < 2 ^ 64 ∧ e.dst < 2 ^ 64)
    ⟨fun h => ⟨h.1, h.2⟩, fun h => ⟨h.sequence, h.edges⟩⟩

instance instDecidableCalm (w : World) : Decidable w.Calm :=
  decidable_of_iff (Fits w.store ∧ ∀ p ∈ w.payloads, p.2.length ≤ u64Max)
    ⟨fun h => ⟨h.1, h.2⟩, fun h => ⟨h.store, h.payloads⟩⟩

def empty : World := ⟨.empty, [], [], []⟩

/-! ### What events leave -/

/-- The order of manifests. -/
def Precedes (g g' : GraphIndexGeneration) : Prop :=
  g.baseSequence < g'.baseSequence ∨ g.baseSequence = g'.baseSequence ∧ g.lastWalId ≤ g'.lastWalId

theorem Precedes.refl (g : GraphIndexGeneration) : Precedes g g := .inr ⟨rfl, le_rfl⟩

theorem Precedes.trans {g g' g'' : GraphIndexGeneration} (h : Precedes g g') (h' : Precedes g' g'') :
    Precedes g g'' := by
  unfold Precedes at *
  omega

theorem Precedes.base_le {g g' : GraphIndexGeneration} (h : Precedes g g') :
    g.baseSequence ≤ g'.baseSequence := by
  unfold Precedes at h
  omega

theorem precedes_of_not_supersedes {g g' : GraphIndexGeneration} (h : ¬supersedes g g' = true) :
    Precedes g g' := by
  rw [supersedes, decide_eq_true_iff] at h
  unfold Precedes
  omega

/-- A payload is at its path, or the manifest is later. -/
def Kept (k : PayloadKey) (w : World) : Prop :=
  (get k w.payloads).isSome = true ∨
    ∃ m, get k.edgeType w.manifests = some m ∧ k.baseSequence < m.generation.baseSequence

/-- What holds of two worlds of a run, the second of which is later. -/
structure Advances (w w' : World) : Prop where
  sequence : w.store.sequence ≤ w'.store.sequence
  manifests : ∀ edgeType m, get edgeType w.manifests = some m →
    ∃ m', get edgeType w'.manifests = some m' ∧ Precedes m.generation m'.generation ∧
      m.version ≤ m'.version ∧ (m'.version = m.version → m' = m)
  payloads : ∀ k, (get k w.payloads).isSome = true → Kept k w'

theorem Advances.of_same (hsequence : w.store.sequence ≤ w'.store.sequence)
    (hmanifests : w'.manifests = w.manifests) (hpayloads : w'.payloads = w.payloads) :
    w.Advances w' where
  sequence := hsequence
  manifests _ m hm := ⟨m, hmanifests ▸ hm, .refl _, le_rfl, fun _ => rfl⟩
  payloads _ hk := .inl (hpayloads ▸ hk)

theorem Advances.kept {k : PayloadKey} (h : w.Advances w') (hk : Kept k w) : Kept k w' := by
  rcases hk with hk | ⟨m, hm, hlater⟩
  · exact h.payloads k hk
  · obtain ⟨m', hm', hprecedes, -⟩ := h.manifests _ _ hm
    exact .inr ⟨m', hm', hlater.trans_le hprecedes.base_le⟩

theorem Advances.trans {w'' : World} (h : w.Advances w') (h' : w'.Advances w'') : w.Advances w'' where
  sequence := h.sequence.trans h'.sequence
  manifests edgeType m hm := by
    obtain ⟨m', hm', hprecedes, hversion, hsame⟩ := h.manifests _ _ hm
    obtain ⟨m'', hm'', hprecedes', hversion', hsame'⟩ := h'.manifests _ _ hm'
    refine ⟨m'', hm'', hprecedes.trans hprecedes', hversion.trans hversion', fun heq => ?_⟩
    have hmid : m'.version = m.version := le_antisymm (heq ▸ hversion') hversion
    rw [hsame' (heq.trans hmid.symm), hsame hmid]
  payloads k hk := h'.kept (h.payloads k hk)

/-! ### The invariant -/

/-- A sequence that a patch may start from. -/
def Eligible (first : Nat) (edgeType : String) (since : Nat) (w : World) : Prop :=
  first ≤ since ∧ ∀ m, get edgeType w.manifests = some m → m.generation.baseSequence ≤ since

theorem Eligible.of_advances {since : Nat} (h : w'.Eligible first edgeType since)
    (hadvances : w.Advances w') : w.Eligible first edgeType since := by
  refine ⟨h.1, fun m hm => ?_⟩
  obtain ⟨m', hm', hprecedes, -⟩ := hadvances.manifests _ _ hm
  exact hprecedes.base_le.trans (h.2 m' hm')

/-- The floor of a changelog; where there is none, the current sequence, at which a collection sets
one. -/
def floorOf (edgeType : String) (s : Store) : Nat := (get edgeType s.xlogLow).getD s.sequence

/-- A snapshot is of an earlier store of the run. -/
structure Pinned (S : IndexSetting) (first : Nat) (past : Nat → Finset EdgeKey) (w : World)
    (snapshot : Store) (lastWalId : Nat) : Prop where
  coherent : snapshot.Coherent S.toSetting
  first_le : first ≤ snapshot.sequence
  sequence_le : snapshot.sequence ≤ w.store.sequence
  state : past snapshot.sequence = snapshot.edges
  fits : Fits snapshot
  lastWalId_lt : lastWalId < 2 ^ 64

/-- A generation that is not newer than the manifest. -/
def Older (g : GraphIndexGeneration) (w : World) : Prop :=
  ∃ m, get g.edgeType w.manifests = some m ∧ g.baseSequence ≤ m.generation.baseSequence

/-- A generation with a payload, of an earlier store. -/
structure Proposed (S : IndexSetting) (first : Nat) (w : World) (g : GraphIndexGeneration) : Prop where
  first_le : first ≤ g.baseSequence
  base_le : g.baseSequence ≤ w.store.sequence
  kept : Kept g.payloadKey w
  named : Named S g

/-- A manifest that still has the version that was read does not supersede. -/
def Seen (g : GraphIndexGeneration) (version : Option Nat) (w : World) : Prop :=
  ∀ v, version = some v → ∃ m, get g.edgeType w.manifests = some m ∧ v ≤ m.version ∧
    (m.version = v → ¬supersedes m.generation g = true)

def TaskSound (S : IndexSetting) (first : Nat) (past : Nat → Finset EdgeKey) (w : World) : Task → Prop
  | .building _ lastWalId snapshot => Pinned S first past w snapshot lastWalId
  | .reading edgeType lastWalId snapshot =>
      Pinned S first past w snapshot lastWalId ∧
        ∀ since, w.Eligible first edgeType since → floorOf edgeType snapshot ≤ since + 1 →
          Covered past edgeType since snapshot
  | .patching edgeType lastWalId snapshot previous =>
      Pinned S first past w snapshot lastWalId ∧ previous.edgeType = edgeType ∧
        first ≤ previous.baseSequence ∧ previous.baseSequence < snapshot.sequence ∧ Named S previous ∧
          (floorOf edgeType snapshot ≤ previous.baseSequence + 1 →
            Covered past edgeType previous.baseSequence snapshot)
  | .proposing proposed _ _ => Proposed S first w proposed
  | .replacing proposed _ _ version => Proposed S first w proposed ∧ Seen proposed version w
  | .collecting current => Older current w
  | .pruning current _ => Older current w
  | .finished _ => True

structure Sound (S : IndexSetting) (first : Nat) (past : Nat → Finset EdgeKey) (w : World) : Prop where
  coherent : w.store.Coherent S.toSetting
  first_le : first ≤ w.store.sequence
  state : past w.store.sequence = w.store.edges
  covered : ∀ edgeType since, w.Eligible first edgeType since →
    floorOf edgeType w.store ≤ since + 1 → Covered past edgeType since w.store
  manifestsSorted : Sorted w.manifests
  payloadsSorted : Sorted w.payloads
  payloads : ∀ k value, get k w.payloads = some value → first ≤ k.baseSequence ∧
    k.baseSequence ≤ w.store.sequence ∧ S.digest value = k.generation ∧
      PayloadOf past k.edgeType k.baseSequence value
  manifests : ∀ edgeType m, get edgeType w.manifests = some m → m.generation.edgeType = edgeType ∧
    (get m.generation.payloadKey w.payloads).isSome = true ∧ Named S m.generation
  tasks : ∀ t ∈ w.tasks, TaskSound S first past w t

/-! ### Frames -/

theorem covered_congr {s : Store} {since : Nat} (h : Covered past edgeType since s)
    (hpast : ∀ n, n ≤ s.sequence → past' n = past n) : Covered past' edgeType since s :=
  fun n hfirst hlt => (h n hfirst hlt).congr (fun _ _ _ _ => Iff.rfl) (hpast n hlt.le) (hpast (n + 1) hlt)

theorem Pinned.advance {snapshot : Store} {lastWalId : Nat}
    (h : Pinned S first past w snapshot lastWalId) (hadvances : w.Advances w')
    (hpast : ∀ n, n ≤ w.store.sequence → past' n = past n) :
    Pinned S first past' w' snapshot lastWalId :=
  { h with
    sequence_le := h.sequence_le.trans hadvances.sequence
    state := (hpast _ h.sequence_le).trans h.state }

theorem Older.advance {g : GraphIndexGeneration} (h : Older g w) (hadvances : w.Advances w') :
    Older g w' := by
  obtain ⟨m, hm, hle⟩ := h
  obtain ⟨m', hm', hprecedes, -⟩ := hadvances.manifests _ _ hm
  exact ⟨m', hm', hle.trans hprecedes.base_le⟩

theorem Proposed.advance {g : GraphIndexGeneration} (h : Proposed S first w g)
    (hadvances : w.Advances w') : Proposed S first w' g :=
  ⟨h.first_le, h.base_le.trans hadvances.sequence, hadvances.kept h.kept, h.named⟩

theorem Seen.advance {g : GraphIndexGeneration} {version : Option Nat} (h : Seen g version w)
    (hadvances : w.Advances w') : Seen g version w' := by
  intro v hv
  obtain ⟨m, hm, hle, hnot⟩ := h v hv
  obtain ⟨m', hm', -, hversion, hsame⟩ := hadvances.manifests _ _ hm
  refine ⟨m', hm', hle.trans hversion, fun heq => ?_⟩
  have hmid : m.version = v := le_antisymm (heq ▸ hversion) hle
  rw [hsame (heq.trans hmid.symm)]
  exact hnot hmid

/-- Tasks that wait stay sound while the world moves on. -/
theorem TaskSound.advance {t : Task} (h : TaskSound S first past w t) (hadvances : w.Advances w')
    (hpast : ∀ n, n ≤ w.store.sequence → past' n = past n) : TaskSound S first past' w' t := by
  cases t with
  | building edgeType lastWalId snapshot => exact Pinned.advance h hadvances hpast
  | reading edgeType lastWalId snapshot =>
      obtain ⟨hpinned, hcovered⟩ := h
      exact ⟨hpinned.advance hadvances hpast, fun since hsince hfloor =>
        covered_congr (hcovered since (hsince.of_advances hadvances) hfloor) fun n hn =>
          hpast n (hn.trans hpinned.sequence_le)⟩
  | patching edgeType lastWalId snapshot previous =>
      obtain ⟨hpinned, htype, hfirst, hlt, hnamed, hcovered⟩ := h
      exact ⟨hpinned.advance hadvances hpast, htype, hfirst, hlt, hnamed, fun hfloor =>
        covered_congr (hcovered hfloor) fun n hn => hpast n (hn.trans hpinned.sequence_le)⟩
  | proposing proposed delta attempts => exact Proposed.advance h hadvances
  | replacing proposed delta attempts version => exact ⟨h.1.advance hadvances, h.2.advance hadvances⟩
  | collecting current => exact Older.advance h hadvances
  | pruning current retain => exact Older.advance h hadvances
  | finished result => trivial

theorem payloadOf_congr {n : Nat} {value : List UInt8} (h : PayloadOf past edgeType n value)
    (hpast : past' n = past n) : PayloadOf past' edgeType n value := by
  rw [PayloadOf, hpast]
  exact h

/-- What an event keeps. -/
def Continues (S : IndexSetting) (first : Nat) (past : Nat → Finset EdgeKey) (w w' : World) : Prop :=
  ∃ past', (∀ n, n ≤ w.store.sequence → past' n = past n) ∧ w'.Sound S first past' ∧
    w.Advances w' ∧ w'.store.sequence ≤ w.store.sequence + 1

/-- What a task that goes on keeps, and where it waits next. -/
def Leaves (S : IndexSetting) (first : Nat) (past : Nat → Finset EdgeKey) (w w' : World)
    (t : Task) : Prop :=
  ∃ past', (∀ n, n ≤ w.store.sequence → past' n = past n) ∧ w'.Sound S first past' ∧
    w.Advances w' ∧ w'.store.sequence ≤ w.store.sequence + 1 ∧ TaskSound S first past' w' t

/-- A task that leaves the store as it is. -/
theorem leaves_of_same {t : Task} (h : w'.Sound S first past) (hadvances : w.Advances w')
    (hstore : w'.store = w.store) (ht : TaskSound S first past w' t) : Leaves S first past w w' t :=
  ⟨past, fun _ _ => rfl, h, hadvances, hstore ▸ Nat.le_succ _, ht⟩

theorem Leaves.refl {t : Task} (h : w.Sound S first past) (ht : TaskSound S first past w t) :
    Leaves S first past w w t :=
  leaves_of_same h (.of_same le_rfl rfl rfl) rfl ht

theorem Continues.refl (h : w.Sound S first past) : Continues S first past w w :=
  ⟨past, fun _ _ => rfl, h, .of_same le_rfl rfl rfl, Nat.le_succ _⟩

/-! ### Commits -/

/-- A commit keeps what is covered, when it logs what it changes and leaves the
entries that count. -/
theorem covered_commit {s s' : Store} {since : Nat} (hsequence : s'.sequence = s.sequence + 1)
    (hpast : ∀ n, n ≤ s.sequence → past' n = past n) (hlast : LoggedAt past' edgeType s' s.sequence)
    (hold : s.sequence ≤ since ∨ Covered past edgeType since s ∧ ∀ k present, k.edgeType = edgeType →
      since < k.sequence → k.sequence ≤ s.sequence → ((k, present) ∈ s'.xlog ↔ (k, present) ∈ s.xlog)) :
    Covered past' edgeType since s' := by
  intro n hfirst hlt
  rw [hsequence] at hlt
  rcases Nat.lt_succ_iff_lt_or_eq.mp hlt with hlt | rfl
  · rcases hold with hle | ⟨hcovered, hentries⟩
    · omega
    · exact (hcovered n hfirst hlt).congr
        (fun k present htype hk => hentries k present htype (by omega) (by omega))
        (hpast n hlt.le) (hpast (n + 1) hlt)
  · exact hlast

/-- A world whose store committed. -/
theorem Sound.commit (h : w.Sound S first past) {s' : Store} (hcoherent : s'.Coherent S.toSetting)
    (hsequence : s'.sequence = w.store.sequence + 1)
    (hcovered : ∀ past' : Nat → Finset EdgeKey, (∀ n, n ≤ w.store.sequence → past' n = past n) →
      past' (w.store.sequence + 1) = s'.edges → ∀ edgeType since, w.Eligible first edgeType since →
        floorOf edgeType s' ≤ since + 1 → Covered past' edgeType since s') :
    Continues S first past w { w with store := s' } := by
  have hpast : ∀ n, n ≤ w.store.sequence →
      Function.update past (w.store.sequence + 1) s'.edges n = past n :=
    fun n hn => Function.update_of_ne (by omega) _ _
  have hadvances : w.Advances { w with store := s' } :=
    .of_same (by rw [hsequence]; exact Nat.le_succ _) rfl rfl
  refine ⟨_, hpast, ?_, hadvances, hsequence.le⟩
  exact {
    coherent := hcoherent
    first_le := h.first_le.trans hadvances.sequence
    state := by
      change Function.update past (w.store.sequence + 1) s'.edges s'.sequence = s'.edges
      rw [hsequence, Function.update_self]
    covered := hcovered _ hpast (Function.update_self ..)
    manifestsSorted := h.manifestsSorted
    payloadsSorted := h.payloadsSorted
    payloads := fun k value hvalue => by
      obtain ⟨hfirst, hlast, hdigest, hpayload⟩ := h.payloads k value hvalue
      exact ⟨hfirst, hlast.trans hadvances.sequence, hdigest, payloadOf_congr hpayload (hpast _ hlast)⟩
    manifests := h.manifests
    tasks := fun t ht => (h.tasks t ht).advance hadvances hpast }

/-- A transaction of the cell. -/
theorem Sound.commits (h : w.Sound S first past) {s' : Store} (hs' : w.store.Commits S.toSetting s') :
    Continues S first past w { w with store := s' } := by
  refine h.commit hs'.coherent hs'.sequence fun past' hpast hafter edgeType since hsince hfloor => ?_
  have hbefore : past' w.store.sequence = w.store.edges := (hpast _ le_rfl).trans h.state
  refine covered_commit hs'.sequence hpast
    (hs'.logs.loggedAt hs'.coherent.ordered.xlog hbefore hafter) ?_
  by_cases hle : w.store.sequence ≤ since
  · exact .inl hle
  · refine .inr ⟨h.covered edgeType since hsince ?_, fun k present _ _ hk => ?_⟩
    · rcases hs'.logs.floor edgeType with hsame | ⟨-, hnew⟩
      · unfold floorOf at hfloor ⊢
        rw [hsame, hs'.sequence] at hfloor
        cases hlow : get edgeType w.store.xlogLow with
        | none =>
            rw [hlow, Option.getD_none] at hfloor
            omega
        | some low => rwa [hlow] at hfloor
      · rw [floorOf, hnew, Option.getD_some] at hfloor
        omega
    · rw [← hs'.coherent.ordered.xlog.get_eq_some_iff, hs'.logs.older k (by omega),
        h.coherent.ordered.xlog.get_eq_some_iff]

/-- A commit that leaves the edges as they are has nothing to log. -/
theorem loggedAt_unchanged {s : Store} {n : Nat} (hpast : past (n + 1) = past n)
    (hentries : ∀ k present, (k, present) ∈ s.xlog → k.sequence ≤ n) : LoggedAt past edgeType s n := by
  constructor
  · intro entry hentry hsequence
    have hle := hentries _ _ (mem_entriesOf.mp hentry)
    change entry.sequence ≤ n at hle
    omega
  · intro pair _
    rw [statesOf, statesOf, hpast]

/-- A commit about the changelogs only. -/
theorem coherent_relog {s : Store} (h : s.Coherent S.toSetting) {xlog : List (XlogKey × Bool)}
    {xlogLow : List (String × Nat)} (hxlog : Sorted xlog) (hxlogLow : Sorted xlogLow)
    (hpast : ∀ k present, (k, present) ∈ xlog → (k, present) ∈ s.xlog) :
    Store.Coherent S.toSetting
      { s with xlog := xlog, xlogLow := xlogLow, sequence := s.sequence + 1 } where
  ordered := { h.ordered with xlog := hxlog, xlogLow := hxlogLow }
  apart := h.apart
  outbound := h.outbound
  reverse := h.reverse
  past := ⟨fun g hg => (h.past.segments g hg).trans (Nat.le_succ _),
    fun t ht => (h.past.tombstones t ht).trans (Nat.le_succ _)⟩
  xlogPast := fun k hk => by
    cases hget : get k xlog with
    | none => rfl
    | some present =>
        have hmem := hpast k present (SortedMap.mem_of_get hget)
        have hnone := h.xlogPast k (Nat.lt_of_succ_lt hk)
        rw [h.ordered.xlog.get_of_mem hmem] at hnone
        cases hnone
  degreeOut := h.degreeOut
  degreeIn := h.degreeIn
  fresh := fun hzero => by cases hzero

theorem entries_le {s : Store} (h : s.Coherent S.toSetting) {k : XlogKey} {present : Bool}
    (hk : (k, present) ∈ s.xlog) : k.sequence ≤ s.sequence := by
  by_contra hlt
  have hnone := h.xlogPast k (not_le.mp hlt)
  rw [h.ordered.xlog.get_of_mem hk] at hnone
  cases hnone

/-- A commit that takes entries from the changelogs, and moves their floors. -/
theorem Sound.relog (h : w.Sound S first past) {xlog : List (XlogKey × Bool)}
    {xlogLow : List (String × Nat)} (hxlog : Sorted xlog) (hxlogLow : Sorted xlogLow)
    (htaken : ∀ k present, (k, present) ∈ xlog → (k, present) ∈ w.store.xlog)
    (hleft : ∀ edgeType since, w.Eligible first edgeType since →
      (get edgeType xlogLow).getD (w.store.sequence + 1) ≤ since + 1 → w.store.sequence ≤ since ∨
        floorOf edgeType w.store ≤ since + 1 ∧ ∀ k present, k.edgeType = edgeType →
          since < k.sequence → (k, present) ∈ w.store.xlog → (k, present) ∈ xlog) :
    Continues S first past w { w with store :=
      { w.store with xlog := xlog, xlogLow := xlogLow, sequence := w.store.sequence + 1 } } := by
  refine h.commit (coherent_relog h.coherent hxlog hxlogLow htaken) rfl
    fun past' hpast hafter edgeType since hsince hfloor => covered_commit rfl hpast ?_ ?_
  · refine loggedAt_unchanged (hafter.trans (h.state.symm.trans (hpast _ le_rfl).symm))
      fun k present hk => entries_le h.coherent (htaken k present hk)
  · refine (hleft edgeType since hsince hfloor).imp_right fun hold =>
      ⟨h.covered edgeType since hsince hold.1, fun k present htype hk _ => ?_⟩
    exact ⟨htaken k present, hold.2 k present htype hk⟩

/-- A floor that a commit leaves where it is. -/
theorem floor_kept {s : Store} {since : Nat} {P : Prop}
    (hfloor : (get edgeType s.xlogLow).getD (s.sequence + 1) ≤ since + 1) (hP : P) :
    s.sequence ≤ since ∨ floorOf edgeType s ≤ since + 1 ∧ P := by
  unfold floorOf
  cases hlow : get edgeType s.xlogLow with
  | none =>
      rw [hlow, Option.getD_none] at hfloor
      exact .inl (by omega)
  | some low =>
      rw [hlow] at hfloor
      exact .inr ⟨hfloor, hP⟩

/-- A commit of another cell. -/
theorem Sound.elsewhere (h : w.Sound S first past) :
    Continues S first past w { w with store := { w.store with sequence := w.store.sequence + 1 } } := by
  refine h.relog h.coherent.ordered.xlog h.coherent.ordered.xlogLow (fun _ _ => id)
    fun _ _ _ hfloor => floor_kept hfloor fun _ _ _ _ => id

theorem Sound.purge (h : w.Sound S first past) (purgedType : String) (dropped : List XlogKey) :
    Continues S first past w { w with store :=
      { purged purgedType dropped w.store with sequence := w.store.sequence + 1 } } := by
  refine h.relog (h.coherent.ordered.xlog.sublist List.filter_sublist) h.coherent.ordered.xlogLow.erase
    (fun k present hk => (List.mem_filter.mp hk).1) fun edgeType since _ hfloor => ?_
  change (get edgeType (erase purgedType w.store.xlogLow)).getD _ ≤ _ at hfloor
  rw [h.coherent.ordered.xlogLow.get_erase] at hfloor
  by_cases htype : edgeType = purgedType
  · rw [if_pos htype, Option.getD_none] at hfloor
    exact .inl (by omega)
  · rw [if_neg htype] at hfloor
    refine floor_kept hfloor fun k present hk _ hmem => List.mem_filter.mpr ⟨hmem, ?_⟩
    exact decide_eq_true fun hpurged => htype (hk.symm.trans hpurged.1)

/-! ### Collections -/

theorem mem_deadEntries {s : Store} {low through : Nat} {k : XlogKey}
    (h : k ∈ s.deadEntries edgeType low through) : k.edgeType = edgeType ∧ k.sequence ≤ through := by
  obtain ⟨entry, hentry, rfl⟩ := List.mem_map.mp h
  have hlisted := List.mem_of_mem_take hentry
  have hrange := (List.mem_filter.mp (List.takeWhile_subset _ hlisted)).2
  have hused := List.mem_takeWhile_imp hlisted
  exact ⟨(of_decide_eq_true hrange).1, of_decide_eq_true hused⟩

theorem nextLow_le {s : Store} {low through : Nat} (hdead : s.deadEntries edgeType low through ≠ []) :
    Store.nextLow (s.deadEntries edgeType low through) low through ≤ through + 1 := by
  unfold Store.nextLow
  split
  · rw [List.getLast?_eq_some_getLast hdead, Option.map_some, Option.getD_some]
    exact (mem_deadEntries (List.getLast_mem hdead)).2.trans (Nat.le_succ _)
  · exact Nat.min_le_left _ _

/-- What a pass for a generation leaves of the changelogs and their floors. -/
structure Collects (g : GraphIndexGeneration) (s : Store) (xlog : List (XlogKey × Bool))
    (xlogLow : List (String × Nat)) : Prop where
  xlogSorted : Sorted xlog
  lowSorted : Sorted xlogLow
  taken : ∀ k present, (k, present) ∈ xlog → (k, present) ∈ s.xlog
  kept : ∀ k present, (k, present) ∈ s.xlog →
    (k, present) ∈ xlog ∨ k.edgeType = g.edgeType ∧ k.sequence ≤ g.baseSequence
  others : ∀ edgeType, edgeType ≠ g.edgeType → get edgeType xlogLow = get edgeType s.xlogLow
  floor : (get g.edgeType s.xlogLow = none ∧ xlog = s.xlog ∧
      get g.edgeType xlogLow = some s.sequence) ∨
    ∃ low floor, get g.edgeType s.xlogLow = some low ∧ get g.edgeType xlogLow = some floor ∧
      low ≤ floor ∧ floor ≤ g.baseSequence + 1

/-- A floor that is not there is set at the current sequence. -/
theorem collects_repaired {s : Store} {g : GraphIndexGeneration} (h : s.Coherent S.toSetting)
    (hlow : get g.edgeType s.xlogLow = none) :
    Collects g s s.xlog (insert g.edgeType s.sequence s.xlogLow) where
  xlogSorted := h.ordered.xlog
  lowSorted := h.ordered.xlogLow.insert
  taken _ _ := id
  kept _ _ := .inl
  others edgeType hne := by rw [h.ordered.xlogLow.get_insert, if_neg hne]
  floor := .inl ⟨hlow, rfl, by rw [h.ordered.xlogLow.get_insert, if_pos rfl]⟩

/-- Dead entries go, and the floor rises behind them. -/
theorem collects_dead {s : Store} {g : GraphIndexGeneration} {low : Nat} (h : s.Coherent S.toSetting)
    (hlow : get g.edgeType s.xlogLow = some low) (hbase : low ≤ g.baseSequence)
    (hdead : s.deadEntries g.edgeType low g.baseSequence ≠ []) :
    Collects g s
      ((s.deadEntries g.edgeType low g.baseSequence).foldl (fun log k => erase k log) s.xlog)
      (if low < Store.nextLow (s.deadEntries g.edgeType low g.baseSequence) low g.baseSequence then
        insert g.edgeType (Store.nextLow (s.deadEntries g.edgeType low g.baseSequence) low
          g.baseSequence) s.xlogLow
      else s.xlogLow) := by
  obtain ⟨hsorted, hget⟩ := h.ordered.xlog.foldl_erase (s.deadEntries g.edgeType low g.baseSequence)
  refine ⟨hsorted, ?_, fun k present hk => ?_, fun k present hk => ?_, fun edgeType hne => ?_, .inr ?_⟩
  · split
    · exact h.ordered.xlogLow.insert
    · exact h.ordered.xlogLow
  · rw [← hsorted.get_eq_some_iff, hget] at hk
    split at hk
    · cases hk
    · exact SortedMap.mem_of_get hk
  · by_cases hgone : k ∈ s.deadEntries g.edgeType low g.baseSequence
    · exact .inr (mem_deadEntries hgone)
    · rw [← hsorted.get_eq_some_iff, hget, if_neg hgone]
      exact .inl (h.ordered.xlog.get_of_mem hk)
  · split
    · rw [h.ordered.xlogLow.get_insert, if_neg hne]
    · rfl
  · split
    · exact ⟨low, _, hlow, h.ordered.xlogLow.get_insert.trans (if_pos rfl), le_of_lt ‹_›,
        nextLow_le hdead⟩
    · exact ⟨low, low, hlow, hlow, le_rfl, hbase.trans (Nat.le_succ _)⟩

theorem gcTopologyChangelogTo_spec {s : Store} {g : GraphIndexGeneration}
    (h : s.Coherent S.toSetting) {collected : Nat × Store}
    (hok : s.gcTopologyChangelogTo g = .ok collected) :
    collected.2 = s ∨ ∃ xlog xlogLow, Collects g s xlog xlogLow ∧
      collected.2 = { s with xlog := xlog, xlogLow := xlogLow, sequence := s.sequence + 1 } := by
  unfold Store.gcTopologyChangelogTo at hok
  cases hlow : get g.edgeType s.xlogLow with
  | none =>
      rw [hlow] at hok
      obtain ⟨s', hs', hok⟩ := Fallible.bind_eq_ok hok
      cases hok
      exact .inr ⟨_, _, collects_repaired h hlow, Store.commit_eq_ok hs'⟩
  | some low =>
      rw [hlow] at hok
      dsimp only at hok
      split at hok
      · cases hok
        exact .inl rfl
      · rename_i hdead
        obtain ⟨hbase, hdead⟩ := not_or.mp hdead
        obtain ⟨s', hs', hok⟩ := Fallible.bind_eq_ok hok
        cases hok
        exact .inr ⟨_, _, collects_dead h hlow (not_lt.mp hbase) hdead, Store.commit_eq_ok hs'⟩

/-- A pass over a changelog takes what the manifest has used, and no more. -/
theorem Sound.collect (h : w.Sound S first past) {g : GraphIndexGeneration} (hg : Older g w)
    {collected : Nat × Store} (hok : w.store.gcTopologyChangelogTo g = .ok collected) :
    Continues S first past w { w with store := collected.2 } := by
  obtain ⟨m, hm, hle⟩ := hg
  rcases gcTopologyChangelogTo_spec h.coherent hok with hsame | ⟨xlog, xlogLow, hcollects, hstore⟩
  · rw [hsame]
    exact .refl h
  · rw [hstore]
    refine h.relog hcollects.xlogSorted hcollects.lowSorted hcollects.taken
      fun edgeType since hsince hfloor => ?_
    by_cases htype : edgeType = g.edgeType
    · subst htype
      rcases hcollects.floor with ⟨hnone, hlog, hset⟩ | ⟨low, floor, hlow, hset, hrises, -⟩
      · rw [hset, Option.getD_some] at hfloor
        refine .inr ⟨?_, fun _ _ _ _ => hlog ▸ id⟩
        rw [floorOf, hnone]
        exact hfloor
      · rw [hset, Option.getD_some] at hfloor
        have hbase : g.baseSequence ≤ since := hle.trans (hsince.2 m hm)
        refine .inr ⟨?_, fun k present _ hlater hk => ?_⟩
        · rw [floorOf, hlow, Option.getD_some]
          exact hrises.trans hfloor
        · exact (hcollects.kept k present hk).resolve_right fun hused => by omega
    · rw [hcollects.others edgeType htype] at hfloor
      exact floor_kept hfloor fun k present hk _ hmem =>
        (hcollects.kept k present hmem).resolve_right fun hused => htype (hk.symm.trans hused.1)

/-! ### Payloads and manifests -/

theorem Sound.first_le_manifest (h : w.Sound S first past) {m : Manifest}
    (hm : get edgeType w.manifests = some m) : first ≤ m.generation.baseSequence := by
  obtain ⟨value, hvalue⟩ := Option.isSome_iff_exists.mp (h.manifests _ _ hm).2.1
  exact (h.payloads _ _ hvalue).1

/-- A world in which the store is as it was. -/
theorem Sound.replace (h : w.Sound S first past) {manifests : List (String × Manifest)}
    {payloads : List (PayloadKey × List UInt8)} {tasks : List Task}
    (hadvances : w.Advances ⟨w.store, manifests, payloads, tasks⟩)
    (hmanifestsSorted : Sorted manifests) (hpayloadsSorted : Sorted payloads)
    (hpayloads : ∀ k value, get k payloads = some value → first ≤ k.baseSequence ∧
      k.baseSequence ≤ w.store.sequence ∧ S.digest value = k.generation ∧
        PayloadOf past k.edgeType k.baseSequence value)
    (hmanifests : ∀ edgeType m, get edgeType manifests = some m → m.generation.edgeType = edgeType ∧
      (get m.generation.payloadKey payloads).isSome = true ∧ Named S m.generation)
    (htasks : ∀ t ∈ tasks, TaskSound S first past ⟨w.store, manifests, payloads, tasks⟩ t) :
    Sound S first past ⟨w.store, manifests, payloads, tasks⟩ where
  coherent := h.coherent
  first_le := h.first_le
  state := h.state
  covered edgeType since hsince := h.covered edgeType since (hsince.of_advances hadvances)
  manifestsSorted := hmanifestsSorted
  payloadsSorted := hpayloadsSorted
  payloads := hpayloads
  manifests := hmanifests
  tasks := htasks

/-- A payload is put at its path, where it is new. -/
theorem Sound.putPayload (h : w.Sound S first past) {g : GraphIndexGeneration} {payload : List UInt8}
    (hfirst : first ≤ g.baseSequence) (hlast : g.baseSequence ≤ w.store.sequence)
    (hdigest : S.digest payload = g.generation) (hnamed : Named S g)
    (hpayload : payload.length ≤ u64Max → PayloadOf past g.edgeType g.baseSequence payload)
    (hcalm : ∀ p ∈ (w.putPayload g payload).payloads, p.2.length ≤ u64Max) :
    Sound S first past (w.putPayload g payload) ∧ w.Advances (w.putPayload g payload) ∧
      Proposed S first (w.putPayload g payload) g := by
  cases hold : (get g.payloadKey w.payloads).isSome with
  | true =>
      have hsame : w.putPayload g payload = w := by
        unfold World.putPayload
        rw [if_pos hold]
      rw [hsame]
      exact ⟨h, .of_same le_rfl rfl rfl, hfirst, hlast, .inl hold, hnamed⟩
  | false =>
      have hput : w.putPayload g payload =
          ⟨w.store, w.manifests, insert g.payloadKey payload w.payloads, w.tasks⟩ := by
        unfold World.putPayload
        rw [if_neg (by rw [hold]; exact Bool.false_ne_true)]
      rw [hput] at hcalm ⊢
      have hget : ∀ k, get k (insert g.payloadKey payload w.payloads) =
          if k = g.payloadKey then some payload else get k w.payloads :=
        fun k => h.payloadsSorted.get_insert
      have hkept : ∀ k, (get k w.payloads).isSome = true →
          (get k (insert g.payloadKey payload w.payloads)).isSome = true := by
        intro k hk
        rw [hget]
        split
        · rfl
        · exact hk
      have hadvances : w.Advances
          ⟨w.store, w.manifests, insert g.payloadKey payload w.payloads, w.tasks⟩ :=
        { (Advances.of_same le_rfl rfl rfl : w.Advances w) with payloads := fun k hk => .inl (hkept k hk) }
      refine ⟨h.replace hadvances h.manifestsSorted h.payloadsSorted.insert (fun k value hvalue => ?_)
        (fun edgeType m hm => ?_) (fun t ht => (h.tasks t ht).advance hadvances fun _ _ => rfl),
        hadvances, hfirst, hlast, .inl ?_, hnamed⟩
      · rw [hget] at hvalue
        split at hvalue
        · rename_i hkey
          cases hvalue
          subst hkey
          refine ⟨hfirst, hlast, hdigest, hpayload ?_⟩
          exact hcalm (g.payloadKey, payload) (SortedMap.mem_insert.mpr (.inl rfl))
        · exact h.payloads k value hvalue
      · obtain ⟨htype, hthere, hmanifest⟩ := h.manifests _ _ hm
        exact ⟨htype, hkept _ hthere, hmanifest⟩
      · rw [hget, if_pos rfl]
        rfl

/-- A manifest is replaced by one that it does not supersede. -/
theorem Sound.putManifest (h : w.Sound S first past) {g : GraphIndexGeneration} {version : Option Nat}
    (hg : Proposed S first w g) (hseen : Seen g version w)
    (hversion : w.manifestVersion g.edgeType = version) :
    Sound S first past (w.putManifest g version) ∧ w.Advances (w.putManifest g version) := by
  have hget : ∀ edgeType, get edgeType (w.putManifest g version).manifests =
      if edgeType = g.edgeType then some ⟨(version.map (· + 1)).getD 0, g⟩
      else get edgeType w.manifests := fun edgeType => h.manifestsSorted.get_insert
  have hcurrent : ∀ m, get g.edgeType w.manifests = some m →
      version = some m.version ∧ ¬supersedes m.generation g = true := by
    intro m hm
    have hv : version = some m.version := by rw [← hversion, manifestVersion, hm, Option.map_some]
    obtain ⟨m', hm', -, hnot⟩ := hseen m.version hv
    obtain rfl := Option.some.inj (hm.symm.trans hm')
    exact ⟨hv, hnot rfl⟩
  have hadvances : w.Advances (w.putManifest g version) :=
    { sequence := le_rfl
      manifests := fun edgeType m hm => by
        rw [hget]
        split
        · rename_i htype
          subst htype
          obtain ⟨hv, hnot⟩ := hcurrent m hm
          refine ⟨_, rfl, precedes_of_not_supersedes hnot, ?_, fun heq => ?_⟩
          · rw [hv]
            exact Nat.le_succ _
          · rw [hv] at heq
            exact absurd heq (Nat.succ_ne_self _)
        · exact ⟨m, hm, .refl _, le_rfl, fun _ => rfl⟩
      payloads := fun k hk => .inl hk }
  refine ⟨h.replace hadvances h.manifestsSorted.insert h.payloadsSorted h.payloads
    (fun edgeType m hm => ?_) fun t ht => (h.tasks t ht).advance hadvances fun _ _ => rfl, hadvances⟩
  change get edgeType (w.putManifest g version).manifests = some m at hm
  rw [hget] at hm
  split at hm
  · rename_i htype
    cases hm
    refine ⟨htype.symm, ?_, hg.named⟩
    rcases hg.kept with hkept | ⟨m, hm, hlater⟩
    · exact hkept
    · have hprecedes := (precedes_of_not_supersedes (hcurrent m hm).2).base_le
      exact absurd hlater (not_lt.mpr hprecedes)
  · exact h.manifests _ _ hm

/-- Payloads go that are older than the manifest. -/
theorem Sound.prune (h : w.Sound S first past) {current : GraphIndexGeneration}
    (hcurrent : Older current w) (retain : Nat) :
    let pruned : World := { w with
      payloads := ((olderPayloads current w.payloads).drop retain).foldl
        (fun payloads k => erase k payloads) w.payloads }
    Sound S first past pruned ∧ w.Advances pruned := by
  intro pruned
  obtain ⟨m, hm, hle⟩ := hcurrent
  obtain ⟨hsorted, hget⟩ := h.payloadsSorted.foldl_erase
    ((olderPayloads current w.payloads).drop retain)
  have holder : ∀ k ∈ (olderPayloads current w.payloads).drop retain,
      k.edgeType = current.edgeType ∧ k.baseSequence < current.baseSequence := by
    intro k hk
    have hmem := (List.mem_insertionSort _).mp (List.mem_of_mem_drop hk)
    exact of_decide_eq_true (List.mem_filter.mp hmem).2
  have hadvances : w.Advances pruned :=
    { (Advances.of_same le_rfl rfl rfl : w.Advances w) with
      payloads := fun k hk => by
        by_cases hgone : k ∈ (olderPayloads current w.payloads).drop retain
        · obtain ⟨htype, hlt⟩ := holder k hgone
          exact .inr ⟨m, by rw [htype]; exact hm, hlt.trans_le hle⟩
        · refine .inl ?_
          rw [hget, if_neg hgone]
          exact hk }
  refine ⟨h.replace hadvances h.manifestsSorted hsorted (fun k value hvalue => ?_)
    (fun edgeType m' hm' => ⟨(h.manifests _ _ hm').1, ?_, (h.manifests _ _ hm').2.2⟩)
    fun t ht => (h.tasks t ht).advance hadvances fun _ _ => rfl, hadvances⟩
  · rw [hget] at hvalue
    split at hvalue
    · cases hvalue
    · exact h.payloads k value hvalue
  · rw [hget, if_neg fun hgone => ?_]
    · exact (h.manifests _ _ hm').2.1
    · obtain ⟨htype, hlt⟩ := holder _ hgone
      have htype' : edgeType = current.edgeType := (h.manifests _ _ hm').1.symm.trans htype
      rw [htype'] at hm'
      obtain rfl := Option.some.inj (hm.symm.trans hm')
      exact absurd hlt (not_lt.mpr hle)

/-! ### Steps -/

/-- What both builds propose. -/
theorem Sound.propose (h : w.Sound S first past) {snapshot : Store} {lastWalId : Nat}
    (hpinned : Pinned S first past w snapshot lastWalId) {adjacency : Adjacency}
    (hdescribes : Describes edgeType snapshot.edges adjacency)
    {proposal : GraphIndexGeneration × List UInt8}
    (hok : proposeGeneration S edgeType snapshot.sequence lastWalId adjacency = .ok proposal)
    (hcalm : ∀ p ∈ (w.putPayload proposal.1 proposal.2).payloads, p.2.length ≤ u64Max) :
    Sound S first past (w.putPayload proposal.1 proposal.2) ∧
      w.Advances (w.putPayload proposal.1 proposal.2) ∧
      Proposed S first (w.putPayload proposal.1 proposal.2) proposal.1 := by
  obtain ⟨⟨htype, hbase, hwal, hdigest, hcount⟩, hholds⟩ :=
    proposeGeneration_spec hdescribes hpinned.fits.edges hok
  have hlast : snapshot.sequence < 2 ^ 64 := by
    have hfits := hpinned.fits.sequence
    rw [u64Max] at hfits
    omega
  replace hholds := hholds hlast hpinned.lastWalId_lt
  have hnamed : Named S proposal.1 := by
    refine ⟨proposal.2, hdigest.symm, fun hsize => ⟨_, ?_, hcount.symm⟩⟩
    rw [hbase, hwal]
    exact hholds hsize
  refine h.putPayload (hbase ▸ hpinned.first_le) (hbase ▸ hpinned.sequence_le) hdigest.symm hnamed
    (fun hsize => ⟨adjacency, lastWalId, proposal.1.checksum, ?_, hbase ▸ hholds hsize⟩) hcalm
  rw [htype, hbase, hpinned.state]
  exact hdescribes

/-- The delta of a store is complete just where its floor is not above what is
asked for. -/
theorem complete_iff {s : Store} {since upper : Nat} (hsince : since < u64Max) :
    (∃ overlay, s.xlogDeltaSince edgeType since upper = .complete overlay) ↔
      ∃ low, get edgeType s.xlogLow = some low ∧ low ≤ since + 1 := by
  unfold Store.xlogDeltaSince
  cases hlow : get edgeType s.xlogLow with
  | none =>
      constructor
      · rintro ⟨overlay, h⟩
        cases h
      · rintro ⟨low, h, -⟩
        cases h
  | some low =>
      dsimp only
      rw [saturatingSucc_of_lt hsince]
      constructor
      · rintro ⟨overlay, h⟩
        split at h
        · cases h
        · rename_i hle
          exact ⟨low, rfl, not_lt.mp hle⟩
      · rintro ⟨low', heq, hle⟩
        obtain rfl := Option.some.inj heq
        rw [if_neg (not_lt.mpr hle)]
        exact ⟨_, rfl⟩

theorem floorOf_le_of_complete {s : Store} {since upper : Nat} {overlay : Overlay}
    (hsince : since < u64Max) (h : s.xlogDeltaSince edgeType since upper = .complete overlay) :
    floorOf edgeType s ≤ since + 1 := by
  obtain ⟨low, hlow, hle⟩ := (complete_iff hsince).mp ⟨overlay, h⟩
  rw [floorOf, hlow]
  exact hle

theorem patchGraphIndex_sound (h : w.Sound S first past) (hcalm : w.Calm) {snapshot : Store}
    {lastWalId : Nat} {previous : GraphIndexGeneration}
    (ht : TaskSound S first past w (.patching edgeType lastWalId snapshot previous)) :
    patchGraphIndex S w.payloads edgeType lastWalId snapshot previous = .ok .declined ∨
      (∃ e, graphIndexCsc S w.payloads previous = .error e ∧
        patchGraphIndex S w.payloads edgeType lastWalId snapshot previous = .error e) ∨
      ∃ adjacency deltaEdges, Describes edgeType snapshot.edges adjacency ∧
        patchGraphIndex S w.payloads edgeType lastWalId snapshot previous =
          (proposeGeneration S edgeType snapshot.sequence lastWalId adjacency).map fun proposal =>
            .proposed proposal.1 proposal.2 deltaEdges := by
  obtain ⟨hpinned, htype, -, hlt, -, hcovered⟩ := ht
  refine patchGraphIndex_spec hpinned.coherent.ordered.xlog hpinned.state htype hlt hpinned.fits
    (fun overlay hdelta => hcovered (floorOf_le_of_complete (hlt.trans hpinned.fits.sequence) hdelta))
    fun value hvalue => ?_
  obtain ⟨-, -, -, hpayload⟩ := h.payloads _ value hvalue
  exact ⟨hpayload, hcalm.payloads _ (SortedMap.mem_of_get hvalue)⟩

/-- What a patch proposes is an index of the edges of its snapshot. -/
theorem proposal_of_patch (h : w.Sound S first past) (hcalm : w.Calm) {snapshot : Store}
    {lastWalId : Nat} {previous g : GraphIndexGeneration} {payload : List UInt8} {deltaEdges : Nat}
    (ht : TaskSound S first past w (.patching edgeType lastWalId snapshot previous))
    (hok : patchGraphIndex S w.payloads edgeType lastWalId snapshot previous =
      .ok (.proposed g payload deltaEdges)) :
    ∃ adjacency, Describes edgeType snapshot.edges adjacency ∧
      proposeGeneration S edgeType snapshot.sequence lastWalId adjacency = .ok (g, payload) := by
  obtain hpatch | ⟨e, -, hpatch⟩ | ⟨adjacency, delta, hdescribes, hpatch⟩ :=
    patchGraphIndex_sound h hcalm ht
  · rw [hpatch] at hok
    cases hok
  · rw [hpatch] at hok
    cases hok
  · rw [hpatch] at hok
    cases hpropose : proposeGeneration S edgeType snapshot.sequence lastWalId adjacency with
    | error e =>
        rw [hpropose] at hok
        cases hok
    | ok proposal =>
        rw [hpropose] at hok
        cases hok
        exact ⟨adjacency, hdescribes, hpropose⟩

/-- What a task does that goes on, and when. -/
inductive Resumes (S : IndexSetting) (w : World) : Task → World × Task → Prop where
  | finishes (t : Task) (result : Except GraphError (Option (GraphIndexGeneration × GraphIndexBuildPath))) :
      Resumes S w t (w, .finished result)
  | builds {edgeType : String} {lastWalId : Nat} {snapshot : Store}
      {proposal : GraphIndexGeneration × List UInt8} :
      buildGraphIndex S edgeType lastWalId snapshot = .ok proposal →
      Resumes S w (.building edgeType lastWalId snapshot)
        (w.putPayload proposal.1 proposal.2, .proposing proposal.1 none indexPublishAttempts)
  | reads {edgeType : String} {lastWalId : Nat} {snapshot : Store} {m : Manifest} :
      get edgeType w.manifests = some m → m.generation.baseSequence < snapshot.sequence →
      Resumes S w (.reading edgeType lastWalId snapshot)
        (w, .patching edgeType lastWalId snapshot m.generation)
  | patches {edgeType : String} {lastWalId : Nat} {snapshot : Store}
      {previous g : GraphIndexGeneration} {payload : List UInt8} {deltaEdges : Nat} :
      patchGraphIndex S w.payloads edgeType lastWalId snapshot previous =
        .ok (.proposed g payload deltaEdges) →
      Resumes S w (.patching edgeType lastWalId snapshot previous)
        (w.putPayload g payload, .proposing g (some deltaEdges) indexPublishAttempts)
  | compares {proposed : GraphIndexGeneration} {delta : Option Nat} {attempts : Nat} :
      (∀ m, get proposed.edgeType w.manifests = some m → ¬supersedes m.generation proposed = true) →
      Resumes S w (.proposing proposed delta (attempts + 1))
        (w, .replacing proposed delta attempts (w.manifestVersion proposed.edgeType))
  | replaces {proposed : GraphIndexGeneration} {delta : Option Nat} {attempts : Nat}
      {version : Option Nat} :
      w.manifestVersion proposed.edgeType = version →
      Resumes S w (.replacing proposed delta attempts version)
        (w.putManifest proposed version, .finished (.ok (some (proposed, buildPath delta proposed))))
  | retries {proposed : GraphIndexGeneration} {delta : Option Nat} {attempts : Nat}
      {version : Option Nat} :
      Resumes S w (.replacing proposed delta attempts version) (w, .proposing proposed delta attempts)
  | collects {current : GraphIndexGeneration} {collected : Nat × Store} :
      w.store.gcTopologyChangelogTo current = .ok collected →
      Resumes S w (.collecting current) ({ w with store := collected.2 }, .finished (.ok none))
  | prunes {current : GraphIndexGeneration} {retain : Nat} :
      Resumes S w (.pruning current retain)
        ({ w with
          payloads := ((olderPayloads current w.payloads).drop retain).foldl
            (fun payloads k => erase k payloads) w.payloads }, .finished (.ok none))

theorem resume_spec (S : IndexSetting) (w : World) (t : Task) : Resumes S w t (w.resume S t) := by
  cases t with
  | building edgeType lastWalId snapshot =>
      rw [World.resume]
      cases hbuild : buildGraphIndex S edgeType lastWalId snapshot with
      | error e => exact .finishes _ _
      | ok proposal => exact .builds hbuild
  | reading edgeType lastWalId snapshot =>
      rw [World.resume]
      cases hm : get edgeType w.manifests with
      | none => exact .finishes _ _
      | some m =>
          dsimp only
          split
          · exact .finishes _ _
          · exact .reads hm (not_le.mp ‹_›)
  | patching edgeType lastWalId snapshot previous =>
      rw [World.resume]
      cases hpatch : patchGraphIndex S w.payloads edgeType lastWalId snapshot previous with
      | error e => exact .finishes _ _
      | ok patched =>
          cases patched with
          | declined => exact .finishes _ _
          | proposed g payload deltaEdges => exact .patches hpatch
  | proposing proposed delta attempts =>
      cases attempts with
      | zero => exact .finishes _ _
      | succ attempts =>
          rw [World.resume]
          cases hm : get proposed.edgeType w.manifests with
          | none =>
              have hversion : w.manifestVersion proposed.edgeType = none := by
                rw [manifestVersion, hm, Option.map_none]
              rw [← hversion]
              refine .compares fun m hm' => ?_
              rw [hm] at hm'
              cases hm'
          | some m =>
              have hversion : w.manifestVersion proposed.edgeType = some m.version := by
                rw [manifestVersion, hm, Option.map_some]
              dsimp only
              split
              · exact .finishes _ _
              · rename_i hnot
                rw [← hversion]
                refine .compares fun m' hm' => ?_
                rw [← Option.some.inj (hm.symm.trans hm')]
                exact hnot
  | replacing proposed delta attempts version =>
      rw [World.resume]
      split
      · exact .replaces ‹_›
      · exact .retries
  | collecting current =>
      rw [World.resume]
      cases hcollect : w.store.gcTopologyChangelogTo current with
      | error e => exact .finishes _ _
      | ok collected => exact .collects hcollect
  | pruning current retain => exact .prunes
  | finished result => exact .finishes _ _

/-- A task that goes on. -/
theorem Sound.resume (h : w.Sound S first past) (hcalm : w.Calm) {t : Task}
    (ht : TaskSound S first past w t)
    (hcalm' : ∀ p ∈ (w.resume S t).1.payloads, p.2.length ≤ u64Max) :
    Leaves S first past w (w.resume S t).1 (w.resume S t).2 := by
  have hresumes := resume_spec S w t
  generalize w.resume S t = after at hresumes hcalm' ⊢
  cases hresumes with
  | finishes t result => exact .refl h trivial
  | builds hbuild =>
      obtain ⟨adjacency, hdescribes, hpropose⟩ := buildGraphIndex_spec (Pinned.coherent ht).past hbuild
      obtain ⟨hsound, hadvances, hproposed⟩ := h.propose ht hdescribes hpropose hcalm'
      exact leaves_of_same hsound hadvances rfl hproposed
  | reads hm hlt =>
      obtain ⟨hpinned, hcovered⟩ := ht
      have hfirst := h.first_le_manifest hm
      refine .refl h ⟨hpinned, (h.manifests _ _ hm).1, hfirst, hlt, (h.manifests _ _ hm).2.2,
        hcovered _ ⟨hfirst, fun m' hm' => ?_⟩⟩
      rw [Option.some.inj (hm.symm.trans hm')]
  | patches hpatch =>
      obtain ⟨adjacency, hdescribes, hpropose⟩ := proposal_of_patch h hcalm ht hpatch
      obtain ⟨hsound, hadvances, hproposed⟩ := h.propose ht.1 hdescribes hpropose hcalm'
      exact leaves_of_same hsound hadvances rfl hproposed
  | compares hnot =>
      refine .refl h ⟨ht, fun v hv => ?_⟩
      obtain ⟨m, hm, rfl⟩ := Option.map_eq_some_iff.mp hv
      exact ⟨m, hm, le_rfl, fun _ => hnot m hm⟩
  | replaces hversion =>
      obtain ⟨hsound, hadvances⟩ := h.putManifest ht.1 ht.2 hversion
      exact leaves_of_same hsound hadvances rfl trivial
  | retries => exact .refl h ht.1
  | collects hcollect =>
      obtain ⟨past', hpast, hsound, hadvances, hnear⟩ := h.collect ht hcollect
      exact ⟨past', hpast, hsound, hadvances, hnear, trivial⟩
  | prunes =>
      obtain ⟨hsound, hadvances⟩ := h.prune ht _
      exact leaves_of_same hsound hadvances rfl trivial

/-- Other tasks, when they are sound. -/
theorem Sound.withTasks (h : w.Sound S first past) {tasks : List Task}
    (htasks : ∀ t ∈ tasks, TaskSound S first past w t) :
    Sound S first past { w with tasks := tasks } ∧ w.Advances { w with tasks := tasks } := by
  have hadvances : w.Advances { w with tasks := tasks } := .of_same le_rfl rfl rfl
  exact ⟨h.replace hadvances h.manifestsSorted h.payloadsSorted h.payloads h.manifests
    fun t ht => (htasks t ht).advance hadvances fun _ _ => rfl, hadvances⟩

theorem Sound.start (h : w.Sound S first past) {t : Task} (ht : TaskSound S first past w t) :
    Continues S first past w (w.start edgeType t) := by
  have htasks : ∀ t' ∈ (w.start edgeType t).tasks, TaskSound S first past w t' := by
    intro t' ht'
    rcases List.mem_append.mp ht' with ht' | ht'
    · exact h.tasks t' ht'
    · obtain rfl := List.mem_singleton.mp ht'
      split
      · trivial
      · exact ht
  obtain ⟨hsound, hadvances⟩ := h.withTasks htasks
  exact ⟨past, fun _ _ => rfl, hsound, hadvances, Nat.le_succ _⟩

theorem Sound.startAt (h : w.Sound S first past) {task : GraphIndexGeneration → Task}
    (ht : ∀ g, Older g w → TaskSound S first past w (task g)) :
    Continues S first past w (w.startAt edgeType task) := by
  refine h.start ?_
  cases hm : get edgeType w.manifests with
  | none => trivial
  | some m =>
      refine ht m.generation ⟨m, ?_, le_rfl⟩
      rw [(h.manifests _ _ hm).1]
      exact hm

/-- A snapshot of the current store. -/
theorem Sound.pinned (h : w.Sound S first past) (hcalm : w.Calm) {lastWalId : Nat}
    (hwal : lastWalId < 2 ^ 64) : Pinned S first past w w.store lastWalId :=
  ⟨h.coherent, h.first_le, le_rfl, h.state, hcalm.store, hwal⟩

theorem eq_of_commit {s : Store}
    (hcommit : s.commit.toOption.map (fun store => { w with store := store }) = some w') :
    w' = { w with store := { s with sequence := s.sequence + 1 } } := by
  obtain ⟨s', hs', rfl⟩ := Option.map_eq_some_iff.mp hcommit
  cases hok : s.commit with
  | error e =>
      rw [hok] at hs'
      cases hs'
  | ok committed =>
      rw [hok] at hs'
      obtain rfl := Option.some.inj hs'
      rw [Store.commit_eq_ok hok]

/-- **What one event keeps.** -/
theorem Sound.step (h : w.Sound S first past) (hcalm : w.Calm) (hcalm' : w'.Calm) {event : Event}
    (hnext : next S w event = some w') : Continues S first past w w' := by
  obtain ⟨hallows, hstep⟩ := Option.ite_none_right_eq_some.mp hnext
  cases event with
  | request call =>
      cases hstep
      unfold serve
      split
      · rename_i response s' hok
        rcases (Store.perform_spec h.coherent hallows hok).2 with rfl | hcommits
        · exact .refl h
        · exact h.commits hcommits
      · exact .refl h
  | elsewhere =>
      rw [eq_of_commit hstep]
      exact h.elsewhere
  | purge edgeType dropped =>
      rw [eq_of_commit hstep]
      exact h.purge edgeType dropped
  | build edgeType lastWalId =>
      cases hstep
      exact h.start (h.pinned hcalm hallows)
  | patch edgeType lastWalId =>
      cases hstep
      exact h.start ⟨h.pinned hcalm hallows, h.covered edgeType⟩
  | collect edgeType =>
      cases hstep
      exact h.startAt fun g hg => hg
  | prune edgeType retain =>
      cases hstep
      exact h.startAt fun g hg => hg
  | resume task =>
      obtain ⟨t, ht, rfl⟩ := Option.map_eq_some_iff.mp hstep
      obtain ⟨past', hpast, hsound, hadvances, hnear, ht'⟩ :=
        h.resume hcalm (h.tasks t (List.mem_of_getElem? ht)) hcalm'.payloads
      obtain ⟨hsound', hadvances'⟩ := hsound.withTasks fun u hu =>
        (List.mem_or_eq_of_mem_set hu).elim (hsound.tasks u) fun heq => heq ▸ ht'
      exact ⟨past', hpast, hsound', hadvances.trans hadvances', hnear⟩

/-! ### What runs keep -/

theorem sound_empty (S : IndexSetting) : Sound S 0 (fun _ => ∅) empty where
  coherent := .empty S.toSetting
  first_le := le_rfl
  state := (congrArg CellGraph.edges Store.graph_empty).symm
  covered _ _ _ _ _ _ hlt := absurd hlt (Nat.not_lt_zero _)
  manifestsSorted := .nil
  payloadsSorted := .nil
  payloads _ _ hvalue := by cases hvalue
  manifests _ _ hm := by cases hm
  tasks _ ht := by cases ht

/-- What every world of a run keeps; a set of edges that it speaks of is one
that the run passed. -/
theorem sound_of_reaches (hrun : Machine.Reaches (next S) Calm empty w) :
    ∃ past, Sound S 0 past w ∧ ∀ n, n ≤ w.store.sequence → ∃ earlier,
      Machine.Reaches (next S) Calm empty earlier ∧ Machine.Reaches (next S) Calm earlier w ∧
        earlier.store.sequence = n ∧ earlier.store.edges = past n := by
  induction hrun with
  | start hcalm =>
      refine ⟨_, sound_empty S, fun n hn => ⟨empty, .start hcalm, .start hcalm, ?_, ?_⟩⟩
      · exact (Nat.le_zero.mp hn).symm
      · exact congrArg CellGraph.edges Store.graph_empty
  | step event hrun hnext hcalm ih =>
      obtain ⟨past, hsound, hpassed⟩ := ih
      obtain ⟨past', hpast, hsound', hadvances, hnear⟩ := hsound.step hrun.last_calm hcalm hnext
      refine ⟨past', hsound', fun n hn => ?_⟩
      rcases Nat.lt_or_ge _ n with hnew | hold
      · obtain rfl := le_antisymm hn (hnear.trans hnew)
        exact ⟨_, .step event hrun hnext hcalm, .start hcalm, rfl, hsound'.state.symm⟩
      · obtain ⟨earlier, hbefore, hafter, hsequence, hedges⟩ := hpassed n hold
        exact ⟨earlier, hbefore, .step event hafter hnext hcalm, hsequence,
          hedges.trans (hpast n hold).symm⟩

theorem advances_of_reaches (hrun : Machine.Reaches (next S) Calm empty w)
    (hlater : Machine.Reaches (next S) Calm w w') : w.Advances w' := by
  induction hlater with
  | start _ => exact .of_same le_rfl rfl rfl
  | step event hafter hnext hcalm ih =>
      obtain ⟨past, hsound, -⟩ := sound_of_reaches (hrun.append hafter)
      obtain ⟨-, -, -, hadvances, -⟩ := hsound.step hafter.last_calm hcalm hnext
      exact ih.trans hadvances

theorem Sound.payloads_spec (h : w.Sound S first past) (hcalm : w.Calm) {g : GraphIndexGeneration}
    {value : List UInt8} (hvalue : get g.payloadKey w.payloads = some value) :
    S.digest value = g.generation ∧ PayloadOf past g.edgeType g.baseSequence value ∧
      value.length ≤ u64Max := by
  obtain ⟨-, -, hdigest, hpayload⟩ := h.payloads _ _ hvalue
  exact ⟨hdigest, hpayload, hcalm.payloads _ (SortedMap.mem_of_get hvalue)⟩

/-! ### Published indexes -/

/-- Payloads are told apart by a sum of their bytes. -/
def summed : IndexSetting :=
  { outbound with
    storePath := "store"
    digest := fun payload => String.ofList (Decimal.padded 20
      (payload.foldl (fun sum byte => (sum * 31 + byte.toNat) % 2 ^ 64) 0)) }

/-- An edge is indexed by a build, and a second edge is written. -/
def built : List Event :=
  [.request ⟨[], .writeEdge ⟨⟨"KNOWS", 1, 2⟩, "first"⟩⟩, .build "KNOWS" 7, .resume 0, .resume 0,
    .resume 0, .request ⟨["KNOWS"], .writeEdge ⟨⟨"KNOWS", 1, 3⟩, "second"⟩⟩]

def collected : List Event := [.collect "KNOWS", .resume 1]

/-- A patch has read the manifest. -/
def planned : List Event := [.patch "KNOWS" 8, .resume 2]

def published : List Event := [.resume 2, .resume 2, .resume 2]

/-- **A published index has the edges of its sequence.** What a manifest names
is there, is read unless two payloads have one digest, and if it is read it
expands to the edges of its type that some earlier world of the run had at the
sequence of the manifest. The imports of the run keep their promise and name no
edge that is there: the changelog has one entry for each edge they bring. -/
theorem published_is_canonical (S : IndexSetting) (w : World)
    (hrun : Machine.Reaches (next S) Calm empty w) (edgeType : String) (m : Manifest)
    (hm : get edgeType w.manifests = some m) :
    ∃ earlier, Machine.Reaches (next S) Calm empty earlier ∧ Machine.Reaches (next S) Calm earlier w ∧
      earlier.store.sequence = m.generation.baseSequence ∧
      ((∃ csc, graphIndexCsc S w.payloads m.generation = .ok (some csc)) ∨ Collision S) ∧
      ∀ csc, graphIndexCsc S w.payloads m.generation = .ok (some csc) →
        ∃ adjacency, csc.toAdjacency = .ok adjacency ∧
          Describes edgeType earlier.store.edges adjacency := by
  obtain ⟨past, hsound, hpassed⟩ := sound_of_reaches hrun
  obtain ⟨htype, hthere, hnamed⟩ := hsound.manifests edgeType m hm
  obtain ⟨value, hvalue⟩ := Option.isSome_iff_exists.mp hthere
  obtain ⟨-, hlast, -⟩ := hsound.payloads _ value hvalue
  obtain ⟨hdigest, hpayload, hsize⟩ := hsound.payloads_spec hrun.last_calm hvalue
  obtain ⟨earlier, hbefore, hafter, hsequence, hedges⟩ := hpassed _ hlast
  refine ⟨earlier, hbefore, hafter, hsequence, hnamed.read hvalue hdigest hsize, fun csc hcsc => ?_⟩
  rw [← htype, hedges]
  refine graphIndexCsc_spec (fun value' hvalue' => ?_) hcsc
  exact (hsound.payloads_spec hrun.last_calm hvalue').2

/-- A build, a second edge, and a patch that is published over the build. The
patched index has both edges. -/
theorem published_is_canonical_patched : ∃ (w : World) (m : Manifest), m.generation.baseSequence = 3 ∧
    m.generation.edgeCount = 2 ∧
    ∃ earlier, Machine.Reaches (next summed) Calm empty earlier ∧
      Machine.Reaches (next summed) Calm earlier w ∧
      earlier.store.sequence = m.generation.baseSequence ∧
      ((∃ csc, graphIndexCsc summed w.payloads m.generation = .ok (some csc)) ∨ Collision summed) ∧
      ∀ csc, graphIndexCsc summed w.payloads m.generation = .ok (some csc) →
        ∃ adjacency, csc.toAdjacency = .ok adjacency ∧
          Describes "KNOWS" earlier.store.edges adjacency := by
  have hrun : (Machine.runsWithin (next summed) (fun w => decide w.Calm) empty
      (built ++ collected ++ planned ++ published)).map (fun w => (get "KNOWS" w.manifests).map
        fun m => (m.generation.baseSequence, m.generation.edgeCount)) = some (some (3, 2)) := by decide +kernel
  obtain ⟨w, hw, hmanifest⟩ := Option.map_eq_some_iff.mp hrun
  obtain ⟨m, hm, hpublished⟩ := Option.map_eq_some_iff.mp hmanifest
  obtain ⟨hbase, hcount⟩ := Prod.mk.inj hpublished
  have hreaches : Machine.Reaches (next summed) Calm empty w :=
    Machine.reaches_of_runsWithin (fun _ => of_decide_eq_true) hw
  exact ⟨w, m, hbase, hcount, published_is_canonical summed w hreaches "KNOWS" m hm⟩

/-- **A patch is a full build.** Where a build that scans all edges of the
snapshot of a patch would propose an index, the patch declines or proposes the
same one, byte for byte, unless two payloads have one digest. As for
`published_is_canonical`, the imports of the run name no edge that is there. -/
theorem incremental_matches_full (S : IndexSetting) (w : World)
    (hrun : Machine.Reaches (next S) Calm empty w) (edgeType : String) (lastWalId : Nat)
    (snapshot : Store) (previous : GraphIndexGeneration)
    (ht : Task.patching edgeType lastWalId snapshot previous ∈ w.tasks)
    (proposal : GraphIndexGeneration × List UInt8)
    (hfull : buildGraphIndex S edgeType lastWalId snapshot = .ok proposal) :
    patchGraphIndex S w.payloads edgeType lastWalId snapshot previous = .ok .declined ∨
      (∃ deltaEdges, patchGraphIndex S w.payloads edgeType lastWalId snapshot previous =
        .ok (.proposed proposal.1 proposal.2 deltaEdges)) ∨
      Collision S := by
  obtain ⟨past, hsound, -⟩ := sound_of_reaches hrun
  have htask := hsound.tasks _ ht
  obtain ⟨full, hdescribes, hpropose⟩ := buildGraphIndex_spec htask.1.coherent.past hfull
  obtain hdeclined | ⟨e, herror, -⟩ | ⟨patched, deltaEdges, hdescribes', hpatch⟩ :=
    patchGraphIndex_sound hsound hrun.last_calm htask
  · exact .inl hdeclined
  · refine .inr (.inr ?_)
    cases hvalue : get previous.payloadKey w.payloads with
    | none =>
        rw [graphIndexCsc, hvalue] at herror
        cases herror
    | some value =>
        obtain ⟨hdigest, -, hsize⟩ := hsound.payloads_spec hrun.last_calm hvalue
        obtain ⟨csc, hcsc⟩ | hcollision :=
          htask.2.2.2.2.1.read hvalue hdigest hsize
        · rw [hcsc] at herror
          cases herror
        · exact hcollision
  · obtain rfl := hdescribes.unique hdescribes'
    rw [hpropose] at hpatch
    exact .inr (.inl ⟨deltaEdges, hpatch⟩)

def patchOf : Task → Option (String × Nat × Store × GraphIndexGeneration)
  | .patching edgeType lastWalId snapshot previous => some (edgeType, lastWalId, snapshot, previous)
  | _ => none

theorem eq_patching_of_patchOf {t : Task} {lastWalId : Nat} {snapshot : Store}
    {previous : GraphIndexGeneration}
    (h : patchOf t = some (edgeType, lastWalId, snapshot, previous)) :
    t = .patching edgeType lastWalId snapshot previous := by
  cases t with
  | patching edgeType' lastWalId' snapshot' previous' =>
      cases h
      rfl
  | building edgeType' lastWalId' snapshot' => cases h
  | reading edgeType' lastWalId' snapshot' => cases h
  | proposing proposed delta attempts => cases h
  | replacing proposed delta attempts version => cases h
  | collecting current => cases h
  | pruning current retain => cases h
  | finished result => cases h

/-- A patch that starts after a collection. A full build of its snapshot would
propose two edges, and the patch proposes the same or declines. -/
theorem incremental_matches_full_collected :
    ∃ (w : World) (snapshot : Store) (previous : GraphIndexGeneration)
      (proposal : GraphIndexGeneration × List UInt8),
    buildGraphIndex summed "KNOWS" 8 snapshot = .ok proposal ∧ proposal.1.edgeCount = 2 ∧
      (patchGraphIndex summed w.payloads "KNOWS" 8 snapshot previous = .ok .declined ∨
        (∃ deltaEdges, patchGraphIndex summed w.payloads "KNOWS" 8 snapshot previous =
          .ok (.proposed proposal.1 proposal.2 deltaEdges)) ∨
        Collision summed) := by
  have hrun : (Machine.runsWithin (next summed) (fun w => decide w.Calm) empty
      (built ++ collected ++ planned)).map (fun w => (w.tasks[2]?.bind patchOf).map fun p =>
        (p.1, p.2.1, (buildGraphIndex summed p.1 p.2.1 p.2.2.1).toOption.map
          fun proposal => proposal.1.edgeCount)) = some (some ("KNOWS", 8, some 2)) := by decide +kernel
  obtain ⟨w, hw, htask⟩ := Option.map_eq_some_iff.mp hrun
  obtain ⟨⟨edgeType, lastWalId, snapshot, previous⟩, hpatch, hfull⟩ :=
    Option.map_eq_some_iff.mp htask
  obtain ⟨rfl, hrest⟩ := Prod.mk.inj hfull
  obtain ⟨rfl, hbuild⟩ := Prod.mk.inj hrest
  obtain ⟨t, ht, hof⟩ := Option.bind_eq_some_iff.mp hpatch
  obtain ⟨proposal, hproposal, hcount⟩ := Option.map_eq_some_iff.mp hbuild
  have hok : buildGraphIndex summed "KNOWS" 8 snapshot = .ok proposal := by
    cases hbuilt : buildGraphIndex summed "KNOWS" 8 snapshot with
    | error e =>
        rw [hbuilt] at hproposal
        cases hproposal
    | ok proposal' =>
        rw [hbuilt] at hproposal
        rw [Option.some.inj hproposal]
  have hreaches : Machine.Reaches (next summed) Calm empty w :=
    Machine.reaches_of_runsWithin (fun _ => of_decide_eq_true) hw
  have hmem : Task.patching "KNOWS" 8 snapshot previous ∈ w.tasks :=
    eq_patching_of_patchOf hof ▸ List.mem_of_getElem? ht
  exact ⟨w, snapshot, previous, proposal, hok, hcount,
    incremental_matches_full summed w hreaches "KNOWS" 8 snapshot previous hmem proposal hok⟩

/-- **Indexes only move on.** Whatever builds and collections take turns, a
manifest is replaced only by one that is at least as late, and the payload that
it names is there. Conditional writes carry this: a build that lost the race
reads again and compares. -/
theorem published_never_regresses (S : IndexSetting) (w w' : World)
    (hrun : Machine.Reaches (next S) Calm empty w) (hlater : Machine.Reaches (next S) Calm w w')
    (edgeType : String) (m : Manifest) (hm : get edgeType w.manifests = some m) :
    ∃ m', get edgeType w'.manifests = some m' ∧ Precedes m.generation m'.generation ∧
      (get m'.generation.payloadKey w'.payloads).isSome = true := by
  obtain ⟨past, hsound, -⟩ := sound_of_reaches (hrun.append hlater)
  obtain ⟨m', hm', hprecedes, -⟩ := (advances_of_reaches hrun hlater).manifests edgeType m hm
  exact ⟨m', hm', hprecedes, (hsound.manifests edgeType m' hm').2.1⟩

/-- A world with a first build, and a later one in which a patch was published.
The manifest of the second follows that of the first. -/
theorem published_never_regresses_patched : ∃ (w w' : World) (m : Manifest), m.generation.baseSequence = 1 ∧
    Machine.Reaches (next summed) Calm w w' ∧
      ∃ m', get "KNOWS" w'.manifests = some m' ∧ Precedes m.generation m'.generation ∧
        (get m'.generation.payloadKey w'.payloads).isSome = true := by
  have hrun : (Machine.runsWithin (next summed) (fun w => decide w.Calm) empty
      (built ++ collected ++ planned)).map (fun w => ((get "KNOWS" w.manifests).map
        fun m => m.generation.baseSequence, (Machine.runsWithin (next summed)
          (fun w => decide w.Calm) w published).isSome)) = some (some 1, true) := by decide +kernel
  obtain ⟨w, hw, hfacts⟩ := Option.map_eq_some_iff.mp hrun
  obtain ⟨hmanifest, hsome⟩ := Prod.mk.inj hfacts
  obtain ⟨m, hm, hbase⟩ := Option.map_eq_some_iff.mp hmanifest
  obtain ⟨w', hw'⟩ := Option.isSome_iff_exists.mp hsome
  have hreaches : Machine.Reaches (next summed) Calm empty w :=
    Machine.reaches_of_runsWithin (fun _ => of_decide_eq_true) hw
  have hlater : Machine.Reaches (next summed) Calm w w' :=
    Machine.reaches_of_runsWithin (fun _ => of_decide_eq_true) hw'
  exact ⟨w, w', m, hbase, hlater, published_never_regresses summed w w' hreaches hlater "KNOWS" m hm⟩

/-! ### Coverage -/

def Purges (edgeType : String) : Event → Prop
  | .purge purgedType _ => purgedType = edgeType
  | _ => False

instance instDecidablePurges (edgeType : String) : (event : Event) → Decidable (Purges edgeType event)
  | .purge purgedType _ => inferInstanceAs (Decidable (purgedType = edgeType))
  | .request _ => inferInstanceAs (Decidable False)
  | .elsewhere => inferInstanceAs (Decidable False)
  | .build _ _ => inferInstanceAs (Decidable False)
  | .patch _ _ => inferInstanceAs (Decidable False)
  | .collect _ => inferInstanceAs (Decidable False)
  | .prune _ _ => inferInstanceAs (Decidable False)
  | .resume _ => inferInstanceAs (Decidable False)

/-- Runs in which no operator purges the changelog of an edge type. -/
def nextUnpurged (S : IndexSetting) (edgeType : String) (w : World) (event : Event) : Option World :=
  if Purges edgeType event then none else next S w event

/-- The floor of the changelog is not above what comes after the manifest. -/
def Patchable (edgeType : String) (w : World) : Prop :=
  ∃ m low, get edgeType w.manifests = some m ∧ get edgeType w.store.xlogLow = some low ∧
    low ≤ m.generation.baseSequence + 1

/-- A pass leaves a floor, or moves it at most behind what the manifest has
used. -/
theorem Sound.collect_floor (h : w.Sound S first past) {g : GraphIndexGeneration}
    {collected : Nat × Store} (hok : w.store.gcTopologyChangelogTo g = .ok collected) {low : Nat}
    (hlow : get edgeType w.store.xlogLow = some low) :
    get edgeType collected.2.xlogLow = some low ∨ edgeType = g.edgeType ∧
      ∃ floor, get edgeType collected.2.xlogLow = some floor ∧ floor ≤ g.baseSequence + 1 := by
  rcases gcTopologyChangelogTo_spec h.coherent hok with hsame | ⟨xlog, xlogLow, hcollects, hstore⟩
  · rw [hsame]
    exact .inl hlow
  · rw [hstore]
    by_cases htype : edgeType = g.edgeType
    · subst htype
      rcases hcollects.floor with ⟨hnone, -⟩ | ⟨-, floor, -, hset, -, hfloor⟩
      · rw [hnone] at hlow
        cases hlow
      · exact .inr ⟨rfl, floor, hset, hfloor⟩
    · exact .inl ((hcollects.others edgeType htype).trans hlow)

/-- A task changes the store when it collects. -/
theorem resume_store (t : Task) : (w.resume S t).1.store = w.store ∨
    ∃ current collected, t = .collecting current ∧
      w.store.gcTopologyChangelogTo current = .ok collected ∧
        (w.resume S t).1.store = collected.2 := by
  have hresumes := resume_spec S w t
  generalize w.resume S t = after at hresumes ⊢
  cases hresumes with
  | collects hcollect => exact .inr ⟨_, _, rfl, hcollect, rfl⟩
  | _ => exact .inl rfl

/-- What an event does to a floor that is there. -/
theorem Sound.floor_step (h : w.Sound S first past) {event : Event}
    (hnext : nextUnpurged S edgeType w event = some w') {low : Nat}
    (hlow : get edgeType w.store.xlogLow = some low) :
    get edgeType w'.store.xlogLow = some low ∨ ∃ m floor, get edgeType w.manifests = some m ∧
      get edgeType w'.store.xlogLow = some floor ∧ floor ≤ m.generation.baseSequence + 1 := by
  obtain ⟨hkeeps, hnext⟩ := Option.ite_none_left_eq_some.mp hnext
  obtain ⟨hallows, hstep⟩ := Option.ite_none_right_eq_some.mp hnext
  cases event with
  | request call =>
      cases hstep
      dsimp only
      unfold serve
      split
      · rename_i response s' hok
        rcases (Store.perform_spec h.coherent hallows hok).2 with rfl | hcommits
        · exact .inl hlow
        · rcases hcommits.logs.floor edgeType with hsame | ⟨hnone, -⟩
          · exact .inl (hsame.trans hlow)
          · rw [hlow] at hnone
            cases hnone
      · exact .inl hlow
  | elsewhere =>
      rw [eq_of_commit hstep]
      exact .inl hlow
  | purge purgedType dropped =>
      rw [eq_of_commit hstep]
      refine .inl (h.coherent.ordered.xlogLow.get_erase.trans ?_)
      rw [if_neg (Ne.symm hkeeps)]
      exact hlow
  | build builtType lastWalId =>
      cases hstep
      exact .inl hlow
  | patch patchedType lastWalId =>
      cases hstep
      exact .inl hlow
  | collect collectedType =>
      cases hstep
      exact .inl hlow
  | prune prunedType retain =>
      cases hstep
      exact .inl hlow
  | resume task =>
      obtain ⟨t, ht, rfl⟩ := Option.map_eq_some_iff.mp hstep
      dsimp only
      obtain hstore | ⟨current, collected, rfl, hok, hstore⟩ := resume_store (S := S) (w := w) t
      · rw [hstore]
        exact .inl hlow
      · rw [hstore]
        refine (h.collect_floor hok hlow).imp_right ?_
        rintro ⟨rfl, floor, hfloor, hle⟩
        obtain ⟨m, hm, hbase⟩ : Older current w := h.tasks _ (List.mem_of_getElem? ht)
        exact ⟨m, floor, hm, hfloor, hle.trans (Nat.succ_le_succ hbase)⟩

theorem Patchable.step (hw : Patchable edgeType w) (h : w.Sound S first past) (hcalm : w.Calm)
    (hcalm' : w'.Calm) {event : Event} (hnext : nextUnpurged S edgeType w event = some w') :
    Patchable edgeType w' := by
  obtain ⟨m, low, hm, hlow, hle⟩ := hw
  obtain ⟨-, -, -, hadvances, -⟩ := h.step hcalm hcalm' (Option.ite_none_left_eq_some.mp hnext).2
  obtain ⟨m', hm', hprecedes, -⟩ := hadvances.manifests _ _ hm
  have hbase := Nat.succ_le_succ hprecedes.base_le
  rcases h.floor_step hnext hlow with hsame | ⟨m'', floor, hm'', hfloor, hle'⟩
  · exact ⟨m', low, hm', hsame, hle.trans hbase⟩
  · obtain rfl := Option.some.inj (hm.symm.trans hm'')
    exact ⟨m', floor, hm', hfloor, hle'.trans hbase⟩

theorem Sound.base_lt (h : w.Sound S first past) (hcalm : w.Calm) {m : Manifest}
    (hm : get edgeType w.manifests = some m) : m.generation.baseSequence < u64Max := by
  obtain ⟨value, hvalue⟩ := Option.isSome_iff_exists.mp (h.manifests _ _ hm).2.1
  exact (h.payloads _ _ hvalue).2.1.trans_lt hcalm.store.sequence

/-- **Collections do not force full builds.** Where the changelog has all that a
patch of the published index needs, it has so in every later world, until an
operator purges it. A collection takes only entries up to the sequence of a
manifest that was read, and manifests only move on. -/
theorem collections_keep_coverage (S : IndexSetting) (edgeType : String) (w w' : World)
    (hrun : Machine.Reaches (next S) Calm empty w)
    (hlater : Machine.Reaches (nextUnpurged S edgeType) Calm w w') (m : Manifest)
    (hm : get edgeType w.manifests = some m) (overlay : Overlay)
    (hcomplete : w.store.xlogDeltaSince edgeType m.generation.baseSequence w.store.sequence =
      .complete overlay) :
    ∃ m' overlay', get edgeType w'.manifests = some m' ∧
      w'.store.xlogDeltaSince edgeType m'.generation.baseSequence w'.store.sequence =
        .complete overlay' := by
  have hkept : Machine.Reaches (next S) Calm w w' ∧ Patchable edgeType w' := by
    induction hlater with
    | start hcalm =>
        obtain ⟨past, hsound, -⟩ := sound_of_reaches hrun
        obtain ⟨low, hlow, hle⟩ := (complete_iff (hsound.base_lt hcalm hm)).mp ⟨overlay, hcomplete⟩
        exact ⟨.start hcalm, m, low, hm, hlow, hle⟩
    | step event _ hnext hcalm ih =>
        obtain ⟨hafter, hpatchable⟩ := ih
        obtain ⟨past, hsound, -⟩ := sound_of_reaches (hrun.append hafter)
        exact ⟨.step event hafter (Option.ite_none_left_eq_some.mp hnext).2 hcalm,
          hpatchable.step hsound hafter.last_calm hcalm hnext⟩
  obtain ⟨hafter, m', low, hm', hlow, hle⟩ := hkept
  obtain ⟨past, hsound, -⟩ := sound_of_reaches (hrun.append hafter)
  obtain ⟨overlay', hcomplete'⟩ :=
    (complete_iff (hsound.base_lt hafter.last_calm hm')).mpr ⟨low, hlow, hle⟩
  exact ⟨m', overlay', hm', hcomplete'⟩

/-- A collection after a build. The changelog still has what a patch of that
build needs. -/
theorem collections_keep_coverage_collected : ∃ w' : World, w'.store.xlog.length = 1 ∧
    ∃ m' overlay', get "KNOWS" w'.manifests = some m' ∧
      w'.store.xlogDeltaSince "KNOWS" m'.generation.baseSequence w'.store.sequence =
        .complete overlay' := by
  have hrun : (Machine.runsWithin (next summed) (fun w => decide w.Calm) empty built).map
      (fun w => ((get "KNOWS" w.manifests).map fun m => w.store.xlogDeltaSince "KNOWS"
        m.generation.baseSequence w.store.sequence, (Machine.runsWithin (nextUnpurged summed "KNOWS")
          (fun w => decide w.Calm) w collected).map fun w' => w'.store.xlog.length)) =
        some (some (.complete [(toLex (1, 3), true)]), some 1) := by decide +kernel
  obtain ⟨w, hw, hfacts⟩ := Option.map_eq_some_iff.mp hrun
  obtain ⟨hdelta, hcollected⟩ := Prod.mk.inj hfacts
  obtain ⟨m, hm, hcomplete⟩ := Option.map_eq_some_iff.mp hdelta
  obtain ⟨w', hw', hlength⟩ := Option.map_eq_some_iff.mp hcollected
  have hreaches : Machine.Reaches (next summed) Calm empty w :=
    Machine.reaches_of_runsWithin (fun _ => of_decide_eq_true) hw
  have hlater : Machine.Reaches (nextUnpurged summed "KNOWS") Calm w w' :=
    Machine.reaches_of_runsWithin (fun _ => of_decide_eq_true) hw'
  exact ⟨w', hlength, collections_keep_coverage summed "KNOWS" w w' hreaches hlater m hm _ hcomplete⟩

end World

end ContextMemory.Topology
