/-
The migration runner (`persistence/migrations.py`).

A run reads the numbered files of a directory, sorted by name, and executes those whose
version the ledger `schema_migrations` does not hold, all in one transaction. The order is
that of one directory: nothing compares a new version with the recorded ones, so what the
runs of a database execute together is sorted only if the directories see to it
(`migrations_forward_iff`).

A file's content is opaque (`β`), and so is the schema its statements change (`σ`): the
runner looks at neither. The ledger is the runner's own table.
-/

import Mathlib.Data.List.Induction
import Mathlib.Data.List.Sort
import Mathlib.Data.String.Basic
import ContextMemory.Lib.Fallible

namespace ContextMemory

/-! ### Discovery -/

structure MigrationFile (β : Type) where
  name : String
  content : β

/-- A directory has one file of a name. -/
structure MigrationDirectory (β : Type) where
  files : List (MigrationFile β)
  names_nodup : (files.map (·.name)).Nodup := by decide

structure Migration (β : Type) where
  version : String
  path : MigrationFile β
  checksum : String

inductive MigrationFailure where
  | migrationError (message : String)
  | database (message : String)
deriving DecidableEq

/-- The glob `[0-9][0-9][0-9][0-9]_*.sql`. -/
def isMigrationName (name : String) : Bool :=
  match name.toList with
  | a :: b :: c :: d :: '_' :: rest =>
      a.isDigit && b.isDigit && c.isDigit && d.isDigit && ".sql".toList.isSuffixOf rest
  | _ => false

/-- `path.name.split("_", maxsplit=1)[0]`. -/
def migrationVersion (name : String) : String :=
  String.ofList (name.toList.takeWhile (· ≠ '_'))

/-- `sorted(directory.glob(...))`. -/
def MigrationDirectory.paths {β : Type} (directory : MigrationDirectory β) :
    List (MigrationFile β) :=
  (directory.files.filter (isMigrationName ·.name)).insertionSort (·.name ≤ ·.name)

section Runner

variable {β σ : Type} (sha256 : β → String)

/-- The loop over the sorted paths, with the versions seen so far. -/
def collectMigrations : (versions : List String) → List (MigrationFile β) →
    Except MigrationFailure (List (Migration β))
  | _, [] => .ok []
  | versions, path :: paths =>
      let version := migrationVersion path.name
      if version ∈ versions then
        .error (.migrationError ("duplicate migration version: " ++ version))
      else do
        let later ← collectMigrations (version :: versions) paths
        .ok (⟨version, path, sha256 path.content⟩ :: later)

def discoverMigrations (directory : MigrationDirectory β) :
    Except MigrationFailure (List (Migration β)) :=
  collectMigrations sha256 [] directory.paths

/-! ### Application -/

/-- The database: the ledger, by version, and everything else. -/
structure MigrationDatabase (σ : Type) where
  ledger : String → Option String
  schema : σ

/-- The loop of `apply_migrations`, with the migrations it executed. `execute` is what the
statements of a file do. -/
def applyLoop (execute : β → σ → Except MigrationFailure σ) :
    MigrationDatabase σ → List (Migration β) →
      Except MigrationFailure (List (Migration β) × MigrationDatabase σ)
  | db, [] => .ok ([], db)
  | db, migration :: rest =>
      match db.ledger migration.version with
      | some existing =>
          if existing ≠ migration.checksum then
            .error (.migrationError
              ("checksum changed for applied migration " ++ migration.version))
          else applyLoop execute db rest
      | none => do
          let schema ← execute migration.path.content db.schema
          let (applied, after) ← applyLoop execute
            ⟨Function.update db.ledger migration.version (some migration.checksum), schema⟩ rest
          .ok (migration :: applied, after)

/-- One run: its directory, what the statements of a file do this time, and whether the
database gives up on the transaction. -/
structure MigrationRun (β σ : Type) where
  directory : MigrationDirectory β
  execute : β → σ → Except MigrationFailure σ
  fault : Option MigrationFailure := none

/-- `apply_migrations`: the migrations it executed and the database it leaves. -/
def applyMigrations (run : MigrationRun β σ) (db : MigrationDatabase σ) :
    Except MigrationFailure (List (Migration β) × MigrationDatabase σ) := do
  let migrations ← discoverMigrations sha256 run.directory
  let out ← applyLoop run.execute db migrations
  match run.fault with
  | some failure => .error failure
  | none => .ok out

/-- A database with every migration that was ever executed against it, in order. -/
structure MigratedDatabase (β σ : Type) extends MigrationDatabase σ where
  executed : List (Migration β)

/-- A run; one that fails is rolled back. -/
def MigratedDatabase.migrate (db : MigratedDatabase β σ) (run : MigrationRun β σ) :
    MigratedDatabase β σ :=
  match applyMigrations sha256 run db.toMigrationDatabase with
  | .ok (applied, after) => ⟨after, db.executed ++ applied⟩
  | .error _ => db

/-- The database after a history of runs, from one without a ledger. -/
def migrateAll (schema : σ) (runs : List (MigrationRun β σ)) : MigratedDatabase β σ :=
  runs.foldl (MigratedDatabase.migrate sha256) ⟨⟨fun _ => none, schema⟩, []⟩

end Runner

/-! ### The order of one run -/

section Order

/-- A text that is smaller when both are cut is smaller. -/
theorem lt_of_take_lt {a b : List Char} {n : Nat} (h : a.take n < b.take n) : a < b := by
  induction n generalizing a b with
  | zero => exact absurd h (by simp)
  | succ n ih =>
      cases b with
      | nil => exact absurd h (by simp)
      | cons y ys =>
          cases a with
          | nil => exact List.nil_lt_cons y ys
          | cons x xs =>
              rw [List.take_succ_cons, List.take_succ_cons, List.cons_lt_cons_iff] at h
              rw [List.cons_lt_cons_iff]
              exact h.imp_right fun heq => ⟨heq.1, ih heq.2⟩

/-- The version of a migration file is the first four characters of its name. -/
theorem migrationVersion_eq_take {name : String} (h : isMigrationName name = true) :
    migrationVersion name = String.ofList (name.toList.take 4) := by
  unfold isMigrationName at h
  unfold migrationVersion
  split at h
  · rename_i a b c d rest hname
    have hne : ∀ x : Char, x.isDigit = true → x ≠ '_' := by
      rintro x hx rfl
      exact absurd hx (by decide)
    simp only [Bool.and_eq_true] at h
    obtain ⟨⟨⟨⟨ha, hb⟩, hc⟩, hd⟩, -⟩ := h
    simp [hname, hne a ha, hne b hb, hne c hc, hne d hd]
  · cases h

theorem migrationVersion_mono {a b : String} (ha : isMigrationName a = true)
    (hb : isMigrationName b = true) (h : a ≤ b) : migrationVersion a ≤ migrationVersion b := by
  rw [← not_lt] at h ⊢
  rw [migrationVersion_eq_take ha, migrationVersion_eq_take hb, String.lt_iff_toList_lt,
    String.toList_ofList, String.toList_ofList]
  exact fun hlt => h (String.lt_iff_toList_lt.mpr (lt_of_take_lt hlt))

variable {β σ : Type} {sha256 : β → String}

/-- A migration carries the version of its file's name and the checksum of its content. -/
def Migration.OfFile (sha256 : β → String) (migration : Migration β) : Prop :=
  migration.version = migrationVersion migration.path.name ∧
    migration.checksum = sha256 migration.path.content

theorem collectMigrations_eq_ok {versions : List String} {paths : List (MigrationFile β)}
    {migrations : List (Migration β)}
    (h : collectMigrations sha256 versions paths = .ok migrations) :
    migrations.map (·.path) = paths ∧ (∀ m ∈ migrations, m.OfFile sha256) ∧
      (migrations.map (·.version)).Nodup ∧ ∀ m ∈ migrations, m.version ∉ versions := by
  induction paths generalizing versions migrations with
  | nil =>
      cases h
      simp
  | cons path paths ih =>
      simp only [collectMigrations] at h
      split at h
      · cases h
      · rename_i hfresh
        obtain ⟨later, hlater, hcons⟩ := Fallible.bind_eq_ok h
        cases hcons
        obtain ⟨hpaths, hof, hnodup, hnew⟩ := ih hlater
        refine ⟨congrArg (path :: ·) hpaths, ?_, ?_, ?_⟩
        · exact List.forall_mem_cons.mpr ⟨⟨rfl, rfl⟩, hof⟩
        · refine List.nodup_cons.mpr ⟨fun hmem => ?_, hnodup⟩
          obtain ⟨m, hm, heq⟩ := List.mem_map.mp hmem
          exact hnew m hm (heq ▸ List.mem_cons_self)
        · refine List.forall_mem_cons.mpr ⟨hfresh, fun m hm hmem => ?_⟩
          exact hnew m hm (List.mem_cons_of_mem _ hmem)

/-- What is discovered is in the strict order of the versions. -/
theorem discoverMigrations_eq_ok {directory : MigrationDirectory β}
    {migrations : List (Migration β)}
    (h : discoverMigrations sha256 directory = .ok migrations) :
    migrations.map (·.path) = directory.paths ∧ (∀ m ∈ migrations, m.OfFile sha256) ∧
      (migrations.map (·.version)).Pairwise (· < ·) := by
  obtain ⟨hpaths, hof, hnodup, -⟩ := collectMigrations_eq_ok h
  refine ⟨hpaths, hof, ?_⟩
  have hnames : ∀ m ∈ migrations, isMigrationName m.path.name = true := by
    intro m hm
    have hmem : m.path ∈ directory.paths := hpaths ▸ List.mem_map_of_mem hm
    exact (List.mem_filter.mp ((List.mem_insertionSort _).mp hmem)).2
  have hsorted : directory.paths.Pairwise (fun a b => a.name ≤ b.name) :=
    List.pairwise_insertionSort _ _
  rw [← hpaths, List.pairwise_map] at hsorted
  rw [List.nodup_iff_pairwise_ne, List.pairwise_map] at hnodup
  rw [List.pairwise_map]
  refine (hsorted.and hnodup).imp_of_mem fun {a b} ha hb hab => ?_
  refine lt_of_le_of_ne ?_ hab.2
  rw [(hof a ha).1, (hof b hb).1]
  exact migrationVersion_mono (hnames a ha) (hnames b hb) hab.1

/-- What the loop did: it executed the migrations the ledger did not hold, and
recorded each. -/
theorem applyLoop_eq_ok {execute : β → σ → Except MigrationFailure σ}
    {db after : MigrationDatabase σ} {migrations applied : List (Migration β)}
    (h : applyLoop execute db migrations = .ok (applied, after))
    (hnodup : (migrations.map (·.version)).Nodup) :
    applied = migrations.filter (fun m => (db.ledger m.version).isNone) ∧
      (∀ m ∈ applied, after.ledger m.version = some m.checksum) ∧
      ∀ v, v ∉ applied.map (·.version) → after.ledger v = db.ledger v := by
  induction migrations generalizing db applied after with
  | nil =>
      cases h
      simp
  | cons migration rest ih =>
      obtain ⟨hfresh, hrest⟩ := List.nodup_cons.mp hnodup
      simp only [applyLoop] at h
      split at h
      · rename_i existing hexisting
        split at h
        · cases h
        · obtain ⟨happlied, hnew, hframe⟩ := ih h hrest
          refine ⟨?_, hnew, hframe⟩
          rw [List.filter_cons_of_neg (by simp [hexisting])]
          exact happlied
      · rename_i hnone
        obtain ⟨schema, -, h⟩ := Fallible.bind_eq_ok h
        obtain ⟨⟨later, after'⟩, hlater, hcons⟩ := Fallible.bind_eq_ok h
        cases hcons
        obtain ⟨happlied, hnew, hframe⟩ := ih hlater hrest
        have hkept : later = rest.filter fun m => (db.ledger m.version).isNone := by
          rw [happlied]
          refine List.filter_congr fun m hm => ?_
          have hne : m.version ≠ migration.version :=
            fun heq => hfresh (List.mem_map.mpr ⟨m, hm, heq⟩)
          exact congrArg Option.isNone (Function.update_of_ne hne _ _)
        have hout : migration.version ∉ later.map (·.version) := by
          intro hmem
          obtain ⟨m, hm, heq⟩ := List.mem_map.mp hmem
          exact hfresh (List.mem_map.mpr ⟨m, List.mem_of_mem_filter (hkept ▸ hm), heq⟩)
        refine ⟨?_, List.forall_mem_cons.mpr ⟨?_, hnew⟩, ?_⟩
        · rw [List.filter_cons_of_pos (by simp [hnone]), ← hkept]
        · rw [hframe _ hout]
          exact Function.update_self _ _ _
        · intro v hv
          rw [List.map_cons, List.mem_cons, not_or] at hv
          rw [hframe v hv.2]
          exact Function.update_of_ne hv.1 _ _

/-- What a committed run did. -/
theorem applyMigrations_eq_ok {run : MigrationRun β σ} {db after : MigrationDatabase σ}
    {applied : List (Migration β)} (h : applyMigrations sha256 run db = .ok (applied, after)) :
    ∃ migrations : List (Migration β), migrations.map (·.path) = run.directory.paths ∧
      (∀ m ∈ migrations, m.OfFile sha256) ∧ (migrations.map (·.version)).Pairwise (· < ·) ∧
      applied = migrations.filter (fun m => (db.ledger m.version).isNone) ∧
      (∀ m ∈ applied, after.ledger m.version = some m.checksum) ∧
      ∀ v, v ∉ applied.map (·.version) → after.ledger v = db.ledger v := by
  obtain ⟨migrations, hfound, h⟩ := Fallible.bind_eq_ok h
  obtain ⟨out, hloop, h⟩ := Fallible.bind_eq_ok h
  obtain ⟨hpaths, hof, hsorted⟩ := discoverMigrations_eq_ok hfound
  split at h
  · cases h
  · cases h
    exact ⟨migrations, hpaths, hof, hsorted,
      applyLoop_eq_ok hloop (hsorted.imp fun hlt => ne_of_lt hlt)⟩

end Order

/-! ### The order of all runs -/

section Histories

variable {β σ : Type} {sha256 : β → String}

/-- The ledger holds the executed versions, each with the checksum of the file executed. -/
structure Recorded (sha256 : β → String) (db : MigratedDatabase β σ) : Prop where
  unrecorded_iff : ∀ v, db.ledger v = none ↔ v ∉ db.executed.map (·.version)
  checksum : ∀ v checksum, db.ledger v = some checksum →
    ∃ m ∈ db.executed, m.version = v ∧ sha256 m.path.content = checksum

/-- No file of the run is below a recorded version, unless it is recorded itself. -/
def MigrationRun.Forward (run : MigrationRun β σ) (ledger : String → Option String) : Prop :=
  ∀ path ∈ run.directory.paths, ledger (migrationVersion path.name) = none →
    ∀ v, ledger v ≠ none → v < migrationVersion path.name

theorem Recorded.migrate {db : MigratedDatabase β σ} (h : Recorded sha256 db)
    (run : MigrationRun β σ) : Recorded sha256 (db.migrate sha256 run) := by
  unfold MigratedDatabase.migrate
  split
  · rename_i applied after happly
    obtain ⟨migrations, -, hof, -, happlied, hnew, hframe⟩ := applyMigrations_eq_ok happly
    constructor
    · intro v
      rw [List.map_append, List.mem_append, not_or]
      by_cases hv : v ∈ applied.map (·.version)
      · obtain ⟨m, hm, rfl⟩ := List.mem_map.mp hv
        simp [hnew m hm, hv]
      · rw [hframe v hv, h.unrecorded_iff]
        simp [hv]
    · intro v checksum hv
      by_cases hmem : v ∈ applied.map (·.version)
      · obtain ⟨m, hm, rfl⟩ := List.mem_map.mp hmem
        have hcheck : m.checksum = checksum := Option.some.inj ((hnew m hm).symm.trans hv)
        refine ⟨m, List.mem_append_right _ hm, rfl, ?_⟩
        rw [← hcheck, (hof m (List.mem_of_mem_filter (happlied ▸ hm))).2]
      · obtain ⟨m, hm, hrow⟩ := h.checksum v checksum ((hframe v hmem).symm.trans hv)
        exact ⟨m, List.mem_append_left _ hm, hrow⟩
  · exact h

/-- A run keeps the executed versions sorted exactly when it is rolled back or
goes forward. -/
theorem migrate_sorted_iff {db : MigratedDatabase β σ} (h : Recorded sha256 db)
    (run : MigrationRun β σ) :
    ((db.migrate sha256 run).executed.map (·.version)).Pairwise (· < ·) ↔
      (db.executed.map (·.version)).Pairwise (· < ·) ∧
        ((∃ out, applyMigrations sha256 run db.toMigrationDatabase = .ok out) →
          run.Forward db.ledger) := by
  unfold MigratedDatabase.migrate
  cases happly : applyMigrations sha256 run db.toMigrationDatabase with
  | error failure => simp
  | ok out =>
      obtain ⟨applied, after⟩ := out
      obtain ⟨migrations, hpaths, hof, hsorted, happlied, -, -⟩ := applyMigrations_eq_ok happly
      have hpart : (applied.map (·.version)).Pairwise (· < ·) := by
        rw [happlied]
        exact hsorted.sublist (List.filter_sublist.map _)
      have hforward : (∀ v ∈ db.executed.map (·.version), ∀ w ∈ applied.map (·.version), v < w) ↔
          run.Forward db.ledger := by
        constructor
        · intro hlt path hpath hnone v hv
          rw [← hpaths] at hpath
          obtain ⟨m, hm, rfl⟩ := List.mem_map.mp hpath
          rw [← (hof m hm).1] at hnone ⊢
          refine hlt v (not_not.mp fun hout => hv ((h.unrecorded_iff v).mpr hout)) m.version ?_
          rw [happlied]
          exact List.mem_map_of_mem (List.mem_filter.mpr ⟨hm, by simp [hnone]⟩)
        · intro hfwd v hv w hw
          obtain ⟨m, hm, rfl⟩ := List.mem_map.mp hw
          obtain ⟨hmem, hnone⟩ := List.mem_filter.mp (happlied ▸ hm)
          rw [(hof m hmem).1] at hnone ⊢
          refine hfwd m.path (hpaths ▸ List.mem_map_of_mem hmem) (by simpa using hnone) v ?_
          exact fun hout => (h.unrecorded_iff v).mp hout hv
      simp only [List.map_append, List.pairwise_append, hpart, true_and, hforward]
      simp

theorem recorded_migrateAll (schema : σ) (runs : List (MigrationRun β σ)) :
    Recorded sha256 (migrateAll sha256 schema runs) := by
  induction runs using List.reverseRecOn with
  | nil => exact ⟨by simp [migrateAll], by simp [migrateAll]⟩
  | append_singleton runs run ih =>
      rw [migrateAll, List.foldl_append]
      exact ih.migrate run

/-- What was executed against a database went forward: in strictly increasing order, each version
once, and recorded with the checksum of its file. -/
structure ForwardOnly (sha256 : β → String) (db : MigratedDatabase β σ) : Prop where
  increasing : (db.executed.map (·.version)).Pairwise (· < ·)
  once : (db.executed.map (·.version)).Nodup
  checksum : ∀ v checksum, db.ledger v = some checksum →
    ∃ m ∈ db.executed, m.version = v ∧ sha256 m.path.content = checksum

theorem forwardOnly_iff_sorted (schema : σ) (runs : List (MigrationRun β σ)) :
    ForwardOnly sha256 (migrateAll sha256 schema runs) ↔
      ((migrateAll sha256 schema runs).executed.map (·.version)).Pairwise (· < ·) :=
  ⟨fun h => h.increasing, fun h => ⟨h, h.imp fun hlt => ne_of_lt hlt,
    (recorded_migrateAll schema runs).checksum⟩⟩

/-- The runs of a database go forward exactly when no committed run finds an
unrecorded file below a recorded version. Within one run the files are sorted,
so only a directory that gains an older file between two runs breaks the order. -/
theorem migrations_forward_iff (sha256 : β → String) (schema : σ) (runs : List (MigrationRun β σ)) :
    ForwardOnly sha256 (migrateAll sha256 schema runs) ↔
      ∀ before run later, runs = before ++ run :: later →
        (∃ out, applyMigrations sha256 run
          (migrateAll sha256 schema before).toMigrationDatabase = .ok out) →
        run.Forward (migrateAll sha256 schema before).ledger := by
  rw [forwardOnly_iff_sorted]
  induction runs using List.reverseRecOn with
  | nil => simp [migrateAll]
  | append_singleton runs run ih =>
      have hlast : migrateAll sha256 schema (runs ++ [run]) =
          (migrateAll sha256 schema runs).migrate sha256 run := by
        rw [migrateAll, List.foldl_append]
        rfl
      rw [hlast, migrate_sorted_iff (recorded_migrateAll schema runs), ih]
      constructor
      · rintro ⟨hearlier, hrun⟩ before step later heq hok
        rcases List.eq_nil_or_concat later with rfl | ⟨later, last, rfl⟩
        · obtain ⟨rfl, hstep⟩ := List.append_inj' heq rfl
          cases hstep
          exact hrun hok
        · rw [List.concat_eq_append, ← List.cons_append, ← List.append_assoc] at heq
          exact hearlier before step later (List.append_inj' heq rfl).1 hok
      · intro h
        refine ⟨fun before step later heq hok => ?_, fun hok => h runs run [] rfl hok⟩
        exact h before step (later ++ [run]) (by rw [heq]; simp) hok

end Histories

/-- Two branches: `0002` is applied before the file `0001` of the other one is merged. -/
def branchRuns : List (MigrationRun String Unit) :=
  [{ directory := ⟨[⟨"0002_b.sql", "B"⟩], by decide⟩, execute := fun _ _ => .ok () },
    { directory := ⟨[⟨"0001_a.sql", "A"⟩, ⟨"0002_b.sql", "B"⟩], by decide⟩
      execute := fun _ _ => .ok () }]

/-- The merged file is executed after the one numbered above it. -/
theorem branchRuns_not_forward :
    (migrateAll id () branchRuns).executed.map (·.version) = ["0002", "0001"] ∧
      ¬ ForwardOnly id (migrateAll id () branchRuns) := by
  have hrun : (migrateAll id () branchRuns).executed.map (·.version) = ["0002", "0001"] := by
    decide +kernel
  refine ⟨hrun, fun h => ?_⟩
  have hsorted := h.increasing
  rw [hrun] at hsorted
  exact absurd hsorted (by decide +kernel)

end ContextMemory
