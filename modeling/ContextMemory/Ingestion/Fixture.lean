/-
A deployment that can be run, and two small conversations to run it on.

The graph-id table is a function of the key it is asked for; here it writes the key as a
number, which is injective. In the first conversation Max lives in Boston and then moves
to Seattle; in the second two facts of one predicate share an entity that is the subject
of only one of them.
-/

import ContextMemory.Lib.Separator
import ContextMemory.Ingestion.Pipeline

namespace ContextMemory

open Faulty

/-! ### Keys as numbers -/

/-- The digits of a text, one for each byte: no digit is zero. -/
abbrev textCode (text : String) : List Nat :=
  text.toByteArray.data.toList.map fun byte => byte.toNat + 1

/-- A digit no text has. -/
def separator : Nat := 300

abbrev keyCode (kind contextId key : String) : List Nat :=
  textCode kind ++ separator :: (textCode contextId ++ separator :: textCode key)

/-- Digits in base 512, the lowest first. -/
def ofCode : List Nat → Nat
  | [] => 0
  | x :: rest => x + 512 * ofCode rest

theorem textCode_injective {a b : String} (h : textCode a = textCode b) : a = b := by
  have hbyte : Function.Injective fun byte : UInt8 => byte.toNat + 1 := by
    intro x y hxy
    have hnat : x.toNat = y.toNat := by simpa using hxy
    exact UInt8.toNat_inj.mp hnat
  have hlist := List.map_injective_iff.mpr hbyte h
  exact String.toByteArray_inj.mp (ByteArray.ext (Array.toList_inj.mp hlist))

theorem textCode_range {text : String} {x : Nat} (h : x ∈ textCode text) :
    0 < x ∧ x < separator := by
  obtain ⟨byte, -, rfl⟩ := List.mem_map.mp h
  have hbyte := byte.toNat_lt
  unfold separator
  omega

theorem separator_not_mem (text : String) : separator ∉ textCode text := by
  intro h
  have hlt := (textCode_range h).2
  omega

theorem keyCode_digits {kind contextId key : String} :
    ∀ x ∈ keyCode kind contextId key, 0 < x ∧ x < 512 := by
  have htext : ∀ {text x}, x ∈ textCode text → 0 < x ∧ x < 512 := by
    intro text x hx
    have hrange := textCode_range hx
    unfold separator at hrange
    omega
  intro x hx
  simp only [keyCode, List.mem_append, List.mem_cons] at hx
  rcases hx with hx | rfl | hx | rfl | hx
  · exact htext hx
  · simp [separator]
  · exact htext hx
  · simp [separator]
  · exact htext hx

theorem ofCode_injective {xs ys : List Nat} (hxs : ∀ x ∈ xs, 0 < x ∧ x < 512)
    (hys : ∀ y ∈ ys, 0 < y ∧ y < 512) (h : ofCode xs = ofCode ys) : xs = ys := by
  induction xs generalizing ys with
  | nil =>
      cases ys with
      | nil => rfl
      | cons y ys =>
          have hy := hys y List.mem_cons_self
          simp only [ofCode] at h
          omega
  | cons x xs ih =>
      have hx := hxs x List.mem_cons_self
      cases ys with
      | nil =>
          simp only [ofCode] at h
          omega
      | cons y ys =>
          have hy := hys y List.mem_cons_self
          simp only [ofCode] at h
          have hhead : x = y := by omega
          have htail : ofCode xs = ofCode ys := by omega
          rw [hhead, ih (fun z hz => hxs z (List.mem_cons_of_mem _ hz))
            (fun z hz => hys z (List.mem_cons_of_mem _ hz)) htail]

/-- The graph-id table as a numbering of keys. -/
def numberingAllocator : GraphIdAllocator where
  allocateGraphId kind contextId key := ofCode (keyCode kind contextId key)
  injective := by
    intro kind kind' ctx ctx' key key' h
    have hcode := ofCode_injective keyCode_digits keyCode_digits h
    obtain ⟨hkind, hrest⟩ :=
      Separator.split_first (separator_not_mem kind) (separator_not_mem kind') hcode
    obtain ⟨hctx, hkey⟩ := Separator.split_first (separator_not_mem ctx) (separator_not_mem ctx') hrest
    exact ⟨textCode_injective hkind, textCode_injective hctx, textCode_injective hkey⟩

/-! ### A deployment -/

/-- The digests of the texts below. -/
def knownDigests : List (String × String) :=
  [("chat\u0000boston", "c8b9e898e07b4365a59bc9f9d2e5c5bc20b1ead05f34640bb2cd1fa359765187"),
    ("chat\u0000seattle", "6d9c9af6eab1e1561fb8aae9aadc2c90794f7b2428645f331e6338d750089f3f"),
    ("Max lives in Boston.", "3f444b0a301421bce6c654995a7b513f77ce3602e9fe0b87771e64247476dc7f"),
    ("Max moved to Seattle.", "026f6cfcfde5d7d36df02312973e3a0be278e59b0914265bc30cd74b098c3965"),
    ("chat\u0000alice", "27d682b12d2745e72c53cb79af906e27370c47363eea8f1111f7e9350ce6ebaa"),
    ("chat\u0000bob", "cbc11ed044a2bea611a6c8d0ec8654a2dcd436f678b2c4fa1a9ac8b0963e1ea2"),
    ("Alice works with Bob.", "444697570cf2dea5f85428c85e9b540947460dad6e0b0b76190296a102296e05"),
    ("Bob works with Carol.", "f0667b3cedfaefdbc78ae5c364cc19b44801cc1e754b5ba15db076b136d378d4")]

/-- ASCII text is its own normal form, and folds to lower case. -/
def asciiTables : UnicodeTables where
  nfkc := id
  casefold text := String.ofList (text.toList.map Char.toLower)

def fixtureDeployment : Deployment where
  sha256 text := (knownDigests.lookup text).getD text
  reprDrafts drafts := ", ".intercalate (drafts.map (·.candidateId))
  unicode := asciiTables
  allocator := numberingAllocator

/-- An environment whose extractor returns `drafts`, whose model answers `CORRECTION` and
whose clock stands at `now` seconds. -/
def fixtureEnv (now : Int) (drafts : List ExtractionDraft) : Env where
  extractor := { name := "deterministic-fixture", extract := fun _ => .ok drafts }
  now := ⟨now * 1000000, 0⟩
  temporal := some { classifyUpdate := fun _ _ _ _ => .ok .correction }
  embedder := { modelName := "fixture", embed := fun _ => .ok [1] }

/-! ### Max moves -/

/-- 2026-01-01 09:00:00, a quarter of a second later, and an hour later. -/
def nine : DateTime := ⟨1767258000000000, 0⟩
def justPastNine : DateTime := ⟨1767258000250000, 0⟩
def ten : DateTime := ⟨1767261600000000, 0⟩

def bostonRecord (occurredAt : DateTime) : ContextRecord where
  recordId := "boston"
  occurredAt := occurredAt
  content := "Max lives in Boston."
  actorRole := some "user"

def seattleRecord (occurredAt : DateTime) : ContextRecord where
  recordId := "seattle"
  occurredAt := occurredAt
  content := "Max moved to Seattle."
  actorRole := some "user"

def moveBatch (i j : DateTime) : ContextBatch where
  ingestionId := "batch"
  contextId := "chat"
  source := ⟨"chat", "thread"⟩
  records := [bostonRecord i, seattleRecord j]
  records_ne := by simp
  recordIds_nodup := by simp [bostonRecord, seattleRecord]

theorem max_ne : "Max" ≠ "" := by decide

/-- Max lives in Boston, until `validTo` if that is known. -/
def bostonDraft (validTo : Option DateTime) : ExtractionDraft where
  candidateId := "boston"
  text := "Max lives in Boston."
  sourceStart := 0
  sourceEnd := 20
  confidence := 1
  validTo := validTo
  entities := [{ surface := "Max", surface_ne := max_ne }]
  predicateKey := some "lives_in"

def seattleDraft : ExtractionDraft where
  candidateId := "seattle"
  text := "Max moved to Seattle."
  sourceStart := 0
  sourceEnd := 21
  confidence := 1
  entities := [{ surface := "Max", surface_ne := max_ne }]
  predicateKey := some "lives_in"

/-- The call for the first turn, a second after nine. -/
def bostonCall (i j : DateTime) : Call :=
  ⟨fixtureEnv 1767258001 [bostonDraft none], moveBatch i j, bostonRecord i⟩

/-- The call for the second turn, a second after ten. -/
def seattleCall (i j : DateTime) : Call :=
  ⟨fixtureEnv 1767261601 [seattleDraft], moveBatch i j, seattleRecord j⟩

/-- Both turns, one call for each. -/
def moveSteps (i j : DateTime) : List Step :=
  [.ingest (bostonCall i j) [], .ingest (seattleCall i j) []]

def moveStores (i j : DateTime) : Stores :=
  (run fixtureDeployment .initial (moveSteps i j)).stores

def bostonFact : Nat := factGraphId numberingAllocator "chat" "boston"
def seattleFact : Nat := factGraphId numberingAllocator "chat" "seattle"

/-- A property of the first turn's fact. -/
def storedOfBoston (w : World Stores) (key : String) : Option Scalar :=
  (w.stores.graphStore.graph.nodes bostonFact).bind fun v => v.props key

/-! ### Who works with whom -/

def aliceRecord : ContextRecord where
  recordId := "alice"
  occurredAt := nine
  content := "Alice works with Bob."
  actorRole := some "user"

def bobRecord : ContextRecord where
  recordId := "bob"
  occurredAt := ten
  content := "Bob works with Carol."
  actorRole := some "user"

def officeBatch : ContextBatch where
  ingestionId := "batch"
  contextId := "chat"
  source := ⟨"chat", "thread"⟩
  records := [aliceRecord, bobRecord]
  records_ne := by simp
  recordIds_nodup := by simp [aliceRecord, bobRecord]

def aliceDraft : ExtractionDraft where
  candidateId := "alice"
  text := "Alice works with Bob."
  sourceStart := 0
  sourceEnd := 21
  confidence := 1
  entities := [{ surface := "Alice" }, { surface := "Bob" }]
  predicateKey := some "works_with"

def bobDraft : ExtractionDraft where
  candidateId := "bob"
  text := "Bob works with Carol."
  sourceStart := 0
  sourceEnd := 21
  confidence := 1
  entities := [{ surface := "Bob" }, { surface := "Carol" }]
  predicateKey := some "works_with"

def officeSteps : List Step :=
  [.ingest ⟨fixtureEnv 1767258001 [aliceDraft], officeBatch, aliceRecord⟩ [],
    .ingest ⟨fixtureEnv 1767261601 [bobDraft], officeBatch, bobRecord⟩ []]

def aliceFact : Nat := factGraphId numberingAllocator "chat" "alice"
def bobFact : Nat := factGraphId numberingAllocator "chat" "bob"

end ContextMemory
