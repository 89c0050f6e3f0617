/-
Manifests are read as they were published.

The worlds of the index hold generations where the object store holds the texts of manifests. In
every world of a run the two say the same: the text at the path of a manifest is read as the
generation that was published (`current_index_read`).
-/

import ContextMemory.Hydra.IndexManifest
import ContextMemory.Guarantees.IndexWorld

namespace ContextMemory.Topology

open SortedMap (get insert)

/-- The cell has a name, digests are those of SHA-256, and the limit has eight bytes. -/
structure IndexSetting.Proper (S : IndexSetting) : Prop where
  cell : Lease.isComponent S.cellId = true
  digest : ∀ payload, isSha256 (S.digest payload).toList = true
  limit : S.maxArtifactBuildEdges ≤ u64Max

variable {S : IndexSetting} {edgeType : String} {lastWalId : Nat} {snapshot : Store}

/-- A generation of the cell whose text is decoded. -/
def OfCell (S : IndexSetting) (g : GraphIndexGeneration) : Prop := g.WellFormed ∧ g.cellId = S.cellId

/-- What a task begins with fits the fields of a manifest. -/
def FitsFields (edgeType : String) (lastWalId : Nat) (snapshot : Store) : Prop :=
  Lease.isComponent edgeType = true ∧ lastWalId ≤ u64Max ∧ snapshot.sequence ≤ u64Max

/-! ### Proposals -/

theorem le_of_ensureLimit {operation : String} {actual limit : Nat}
    (h : ensureLimit operation actual limit = .ok ()) : actual ≤ limit := by
  unfold ensureLimit at h
  split at h
  · cases h
  · exact not_lt.mp ‹_›

/-- What a build proposes is of its own cell, under the path of its own payload.
So it can be read back where it is published. -/
theorem proposeGeneration_ofCell (hS : S.Proper) (hfits : FitsFields edgeType lastWalId snapshot)
    {adjacency : Adjacency} {proposal : GraphIndexGeneration × List UInt8}
    (hok : proposeGeneration S edgeType snapshot.sequence lastWalId adjacency = .ok proposal) :
    OfCell S proposal.1 := by
  obtain ⟨htype, hwal, hsequence⟩ := hfits
  obtain ⟨csc, -, hok⟩ := Fallible.bind_eq_ok hok
  obtain ⟨_, hlimit, hok⟩ := Fallible.bind_eq_ok hok
  cases hok
  have hchecksum : graphblasCscChecksum csc ≤ u64Max := Nat.le_pred_of_lt (graphblasCscChecksum_lt csc)
  exact ⟨{
    cell := hS.cell
    edgeType := htype
    baseSequence := hsequence
    lastWalId := hwal
    edgeCount := (le_of_ensureLimit hlimit).trans hS.limit
    checksum := hchecksum
    generation := hS.digest _ }, rfl⟩

/-- A patch proposes as a build does, for another adjacency. -/
theorem proposeGeneration_of_patch {payloads : List (PayloadKey × List UInt8)}
    {previous g : GraphIndexGeneration} {payload : List UInt8} {deltaEdges : Nat}
    (hok : patchGraphIndex S payloads edgeType lastWalId snapshot previous =
      .ok (.proposed g payload deltaEdges)) :
    ∃ adjacency, proposeGeneration S edgeType snapshot.sequence lastWalId adjacency =
      .ok (g, payload) := by
  unfold patchGraphIndex at hok
  split at hok
  · cases hok
  · cases hok
  · obtain ⟨found, -, hok⟩ := Fallible.bind_eq_ok hok
    cases found with
    | none => cases hok
    | some csc =>
        obtain ⟨adjacency, -, hok⟩ := Fallible.bind_eq_ok hok
        obtain ⟨proposal, hpropose, hok⟩ := Fallible.bind_eq_ok hok
        cases hok
        exact ⟨_, hpropose⟩

namespace World

variable {w w' : World}

/-! ### The invariant -/

/-- Manifests are of the cell, and each is at the path of its edge type. -/
def ManifestsReadable (S : IndexSetting) (manifests : List (String × Manifest)) : Prop :=
  ∀ entry ∈ manifests, OfCell S entry.2.generation ∧ entry.2.generation.edgeType = entry.1

def TaskReadable (S : IndexSetting) : Task → Prop
  | .building edgeType lastWalId snapshot => FitsFields edgeType lastWalId snapshot
  | .reading edgeType lastWalId snapshot => FitsFields edgeType lastWalId snapshot
  | .patching edgeType lastWalId snapshot _ => FitsFields edgeType lastWalId snapshot
  | .proposing proposed _ _ => OfCell S proposed
  | .replacing proposed _ _ _ => OfCell S proposed
  | .collecting _ => True
  | .pruning _ _ => True
  | .finished _ => True

structure Readable (S : IndexSetting) (w : World) : Prop where
  manifests : ManifestsReadable S w.manifests
  tasks : ∀ t ∈ w.tasks, TaskReadable S t

/-! ### Steps -/

/-- Publishing a generation of the cell keeps all manifests readable. -/
theorem ManifestsReadable.insert {manifests : List (String × Manifest)}
    (h : ManifestsReadable S manifests) (m : Manifest) (hm : OfCell S m.generation) :
    ManifestsReadable S (insert m.generation.edgeType m manifests) := by
  intro entry hentry
  rcases SortedMap.mem_insert.mp hentry with rfl | ⟨hold, -⟩
  · exact ⟨hm, rfl⟩
  · exact h entry hold

/-- A publication, accepted or refused, keeps the world readable. -/
theorem Readable.putManifest (h : w.Readable S) {g : GraphIndexGeneration} (hg : OfCell S g)
    (version : Option Nat) : (w.putManifest g version).Readable S :=
  ⟨h.manifests.insert ⟨(version.map (· + 1)).getD 0, g⟩ hg, h.tasks⟩

/-- A task that goes on. -/
theorem Readable.resume (hS : S.Proper) (h : w.Readable S) {t : Task} (ht : TaskReadable S t) :
    (w.resume S t).1.Readable S ∧ TaskReadable S (w.resume S t).2 := by
  have hresumes := resume_spec S w t
  generalize w.resume S t = after at hresumes ⊢
  cases hresumes with
  | finishes t result => exact ⟨h, trivial⟩
  | builds hbuild =>
      obtain ⟨adjacency, -, hpropose⟩ := Fallible.bind_eq_ok hbuild
      exact ⟨⟨h.manifests, h.tasks⟩, proposeGeneration_ofCell hS ht hpropose⟩
  | reads hm hlt => exact ⟨h, ht⟩
  | patches hpatch =>
      obtain ⟨adjacency, hpropose⟩ := proposeGeneration_of_patch hpatch
      exact ⟨⟨h.manifests, h.tasks⟩, proposeGeneration_ofCell hS ht hpropose⟩
  | compares hnot => exact ⟨h, ht⟩
  | replaces hversion => exact ⟨h.putManifest ht _, trivial⟩
  | retries => exact ⟨h, ht⟩
  | collects hcollect => exact ⟨⟨h.manifests, h.tasks⟩, trivial⟩
  | prunes => exact ⟨⟨h.manifests, h.tasks⟩, trivial⟩

/-- A task that starts keeps the world readable. -/
theorem Readable.start (h : w.Readable S) {t : Task}
    (ht : Lease.isComponent edgeType = true → TaskReadable S t) : (w.start edgeType t).Readable S := by
  refine ⟨h.manifests, fun t' ht' => ?_⟩
  rcases List.mem_append.mp ht' with ht' | ht'
  · exact h.tasks t' ht'
  · obtain rfl := List.mem_singleton.mp ht'
    split
    · trivial
    · exact ht (validateComponent_eq_ok_iff.mp ‹_›)

/-- So does one that starts at the published manifest. -/
theorem Readable.startAt (h : w.Readable S) {task : GraphIndexGeneration → Task}
    (ht : ∀ g, TaskReadable S (task g)) : (w.startAt edgeType task).Readable S := by
  refine h.start fun _ => ?_
  cases get edgeType w.manifests with
  | none => trivial
  | some m => exact ht m.generation

/-- **What one event keeps.** -/
theorem Readable.step (hS : S.Proper) (h : w.Readable S) (hcalm : w.Calm) {event : Event}
    (hnext : next S w event = some w') : w'.Readable S := by
  obtain ⟨hallows, hstep⟩ := Option.ite_none_right_eq_some.mp hnext
  have hsequence : w.store.sequence ≤ u64Max := hcalm.store.sequence.le
  cases event with
  | request call =>
      cases hstep
      exact ⟨h.manifests, h.tasks⟩
  | elsewhere =>
      rw [eq_of_commit hstep]
      exact ⟨h.manifests, h.tasks⟩
  | purge edgeType dropped =>
      rw [eq_of_commit hstep]
      exact ⟨h.manifests, h.tasks⟩
  | build edgeType lastWalId =>
      cases hstep
      exact h.start fun htype => ⟨htype, Nat.le_pred_of_lt hallows, hsequence⟩
  | patch edgeType lastWalId =>
      cases hstep
      exact h.start fun htype => ⟨htype, Nat.le_pred_of_lt hallows, hsequence⟩
  | collect edgeType =>
      cases hstep
      exact h.startAt fun _ => trivial
  | prune edgeType retain =>
      cases hstep
      exact h.startAt fun _ => trivial
  | resume task =>
      obtain ⟨t, ht, rfl⟩ := Option.map_eq_some_iff.mp hstep
      obtain ⟨hresumed, ht'⟩ := h.resume hS (h.tasks t (List.mem_of_getElem? ht))
      refine ⟨hresumed.manifests, fun u hu => ?_⟩
      rcases List.mem_or_eq_of_mem_set hu with hu | rfl
      · exact hresumed.tasks u hu
      · exact ht'

/-- What every world of a run keeps. -/
theorem readable_of_reaches (hS : S.Proper) (hrun : Machine.Reaches (next S) Calm empty w) :
    w.Readable S :=
  hrun.invariant (Readable S) ⟨List.forall_mem_nil _, List.forall_mem_nil _⟩
    fun _ _ _ hcalm h hnext _ => h.step hS hcalm hnext

/-! ### Reading -/

/-- **The published index is read.** In every world of a run, the text at the
path of a manifest is read as the generation that was published there, and where
there is none, none is read. Of what is asked of the worlds, only the room of
the log positions is used. -/
theorem current_index_read (S : IndexSetting) (hS : S.Proper) (w : World)
    (hrun : Machine.Reaches (next S) Calm empty w) (edgeType : String)
    (htype : Lease.isComponent edgeType = true) :
    currentGraphIndex S edgeType
        ((get edgeType w.manifests).map fun m => encodeGraphIndexManifest m.generation) =
      .ok ((get edgeType w.manifests).map Manifest.generation) := by
  unfold currentGraphIndex
  rw [validateComponent_eq_ok_iff.mpr hS.cell, Fallible.ok_bind,
    validateComponent_eq_ok_iff.mpr htype, Fallible.ok_bind]
  cases hm : get edgeType w.manifests with
  | none => rfl
  | some m =>
      obtain ⟨⟨hwell, hcell⟩, hsame⟩ :=
        (readable_of_reaches hS hrun).manifests _ (SortedMap.mem_of_get hm)
      have hidentity : ¬(m.generation.cellId ≠ S.cellId ∨ m.generation.edgeType ≠ edgeType) := by
        rintro (hother | hother)
        · exact hother hcell
        · exact hother hsame
      simp only [Option.map_some]
      rw [hwell.decode_encode, Fallible.ok_bind, if_neg hidentity]
      rfl

/-- Sixty-four digits pass for a digest. The parameter of the example is one of
this kind. -/
theorem isSha256_padded {n : Nat} (h : n < 10 ^ 64) : isSha256 (Decimal.padded 64 n) = true := by
  rw [isSha256, Decimal.length_padded (by decide) h, Bool.and_eq_true, List.all_eq_true]
  refine ⟨rfl, fun c hc => ?_⟩
  rw [isAsciiHexdigit, Decimal.isDigit_of_mem_padded hc]
  rfl

/-- Payloads are told apart by a sum of their bytes, written with as many digits as a digest has. -/
def digested : IndexSetting :=
  { outbound with
    storePath := "store"
    digest := fun payload => String.ofList (Decimal.padded 64
      (payload.foldl (fun sum byte => sum * 31 + byte.toNat) 0 % 2 ^ 64)) }

/-- The example has a proper cell, digests of the right shape and a limit that
fits. -/
theorem digested_proper : digested.Proper where
  cell := by decide
  digest payload := by
    have hlt : payload.foldl (fun sum byte => sum * 31 + byte.toNat) 0 % 2 ^ 64 < 10 ^ 64 :=
      (Nat.mod_lt _ (by decide)).trans (by decide)
    rw [digested, String.toList_ofList]
    exact isSha256_padded hlt
  limit := by decide

/-- A world in which a patch has replaced the first build. What is read is the
generation of the patch. -/
theorem current_index_read_published : ∃ w : World,
    (get "KNOWS" w.manifests).map (fun m => m.generation.edgeCount) = some 2 ∧
      currentGraphIndex digested "KNOWS"
          ((get "KNOWS" w.manifests).map fun m => encodeGraphIndexManifest m.generation) =
        .ok ((get "KNOWS" w.manifests).map Manifest.generation) := by
  have hrun : (Machine.runsWithin (next digested) (fun w => decide w.Calm) empty
      (built ++ collected ++ planned ++ published)).map (fun w => (get "KNOWS" w.manifests).map
        fun m => m.generation.edgeCount) = some (some 2) := by decide +kernel
  obtain ⟨w, hw, hmanifest⟩ := Option.map_eq_some_iff.mp hrun
  have hreaches : Machine.Reaches (next digested) Calm empty w :=
    Machine.reaches_of_runsWithin (fun _ => of_decide_eq_true) hw
  exact ⟨w, hmanifest, current_index_read digested digested_proper w hreaches "KNOWS" (by decide)⟩

end World

end ContextMemory.Topology
