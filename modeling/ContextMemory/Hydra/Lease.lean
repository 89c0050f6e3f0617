/-
The writer lease of one cell (`ObjectStoreWriterLeaseDirectory` in
`hydradb/src/engine/writer_lease.rs`).

Processes contend for a cell through one object in a store. Conditional writes tell them apart; a
store without conditional updates lets an incumbent overwrite its record and delete it. Each process
keeps a directory: the lease it holds, the lease it parked, and what it last observed of the object.
Its requests run as tasks that alternate with the store, and between two answers of the store a
task runs alone in its process. An event of the machine is one such stretch, one effect in the
store, or the passing of time; any number of tasks of any process interleave.

Times are nanoseconds of one clock that all processes read; a process compares only its own
readings. The store stamps what it writes with its own clock, in milliseconds. `log` lists all the
writes so far, the newest first, each with the reading before it and its time; no process sees it.
-/

import ContextMemory.Hydra.LeaseRecord
import ContextMemory.Lib.Machine

namespace ContextMemory.Lease

def maxWriterLeaseCasAttempts : Nat := 16

def serverTimestampResolutionGuard : Nat := 1000000000

/-- `saturating_add(1)` of a `u64`. -/
def saturatingSucc (n : Nat) : Nat := min (n + 1) u64Max

/-- The lease durations that the processes ask for, the clock of the store, and whether the store has
`PutMode::Update`: where it has not, as `LocalFileSystem`, it answers `NotImplemented`. -/
structure Setting where
  requested : String → Nat
  serverMillis : Nat → Int
  conditionalUpdates : Bool

/-- `with_duration_and_holder` raises a duration below one second. -/
def Setting.leaseDuration (S : Setting) (holderId : String) : Nat :=
  max (S.requested holderId) 1000000000

/-! ### Data -/

/-- `StoredWriterLease`. The version is the number of writes before this one. -/
structure StoredWriterLease where
  record : WriterLeaseRecord
  version : Nat
  lastModifiedMs : Int
deriving DecidableEq, Repr

/-- `LocalWriterLease`. -/
structure LocalWriterLease where
  nodeId : String
  generation : Nat
  validUntil : Nat
deriving DecidableEq, Repr

/-- `ObservedWriterLease`. -/
structure ObservedWriterLease where
  fingerprint : WriterLeaseRecord
  observedAt : Nat
  remainingAtObservation : Nat
deriving DecidableEq, Repr

/-- What a process knows of the cell. `users` counts the runtimes that registered the scope. -/
structure Directory where
  localLease : Option LocalWriterLease
  abandoned : Option LocalWriterLease
  observed : Option ObservedWriterLease
  users : String → Nat

def Directory.empty : Directory := ⟨none, none, none, fun _ => 0⟩

/-- A release works through the generations it was to release; the first is in progress. -/
inductive Request where
  | acquire (forceRenew : Bool)
  | release (generations : List Nat)
  | currentOwner
deriving DecidableEq, Repr

inductive Reply where
  | acquired (generation : Nat)
  | released
  | owner (found : Option (String × Nat × Nat))
  | failed (error : GraphError)
  | cancelled
deriving DecidableEq, Repr

/-- What the store says of a conditional write. -/
inductive Answer where
  | ok
  | conflict
  | failed
deriving DecidableEq, Repr

/-- Where a task stands; `left` counts the attempts behind the current one. -/
inductive Progress where
  | reading (left : Nat)
  | got (left : Nat) (current : Option StoredWriterLease)
  | probing (left : Nat) (stored : StoredWriterLease) (askedAt : Nat)
  | probed (left : Nat) (stored : StoredWriterLease) (askedAt stampedAt : Nat)
  | writing (left : Nat) (current : Option StoredWriterLease) (record : WriterLeaseRecord)
      (startedAt : Nat)
  | answered (left : Nat) (record : WriterLeaseRecord) (startedAt : Nat) (answer : Answer)
  | accepted (record : WriterLeaseRecord) (startedAt : Nat)
  | overwriting (left : Nat) (record : WriterLeaseRecord) (startedAt : Nat)
  | deleting
  | finished (reply : Reply)
deriving DecidableEq, Repr

def Progress.isFinished : Progress → Bool
  | .finished _ => true
  | _ => false

structure Task where
  holderId : String
  nodeId : String
  request : Request
  progress : Progress
deriving DecidableEq, Repr

/-- A write that took effect, with the reading its process took before. -/
structure Written where
  record : WriterLeaseRecord
  startedAt : Nat
  writtenAt : Nat
deriving DecidableEq, Repr

structure World where
  now : Nat
  store : Option StoredWriterLease
  log : List Written
  directories : String → Directory
  tasks : List Task

def World.initial : World := ⟨0, none, [], fun _ => .empty, []⟩

/-! ### Observing -/

/-- `remaining_after_elapsed`. -/
def remainingAfterElapsed (entry : ObservedWriterLease) (now : Nat) : Nat :=
  min ((entry.remainingAtObservation - (now - entry.observedAt)) / nanosPerMilli) u64Max

/-- The first half of `shared_remaining_ms`. -/
def Directory.observedRemainingMs (d : Directory) (stored : StoredWriterLease) (now : Nat) :
    Option Nat :=
  d.observed.bind fun entry =>
    if entry.fingerprint = stored.record then some (remainingAfterElapsed entry now) else none

/-- What a lease has left by the clock of the store. -/
def durableRemaining (stored : StoredWriterLease) (serverNow : Int) : Nat :=
  stored.record.durationMs * nanosPerMilli + serverTimestampResolutionGuard -
    (serverNow - stored.lastModifiedMs).toNat * nanosPerMilli

/-- The second half of `shared_remaining_ms`. -/
def Directory.observe (d : Directory) (stored : StoredWriterLease) (askedAt : Nat)
    (serverNow : Int) : Directory :=
  { d with observed := some ⟨stored.record, askedAt, durableRemaining stored serverNow⟩ }

/-- `observe_successful_write`. -/
def Directory.observeSuccessfulWrite (d : Directory) (record : WriterLeaseRecord)
    (startedAt : Nat) : Directory :=
  { d with observed := some ⟨record, startedAt, if record.released then 0
      else record.durationMs * nanosPerMilli + serverTimestampResolutionGuard⟩ }

/-- `holds_valid_local`. -/
def Directory.holdsValidLocal (d : Directory) (nodeId : String) (now : Nat) : Bool :=
  d.localLease.any fun lease => lease.nodeId == nodeId && decide (now < lease.validUntil)

/-! ### What is written -/

def sameHolder (nodeId holderId : String) (current : Option StoredWriterLease) : Bool :=
  current.any fun stored => !stored.record.released && stored.record.nodeId == nodeId &&
    stored.record.holderId == holderId

/-- The record of an acquisition or a renewal over what was read. -/
def leaseRecord (S : Setting) (nodeId holderId : String) (current : Option StoredWriterLease) :
    WriterLeaseRecord where
  nodeId := nodeId
  holderId := holderId
  generation := (current.map fun stored =>
    if sameHolder nodeId holderId current then stored.record.generation
    else saturatingSucc stored.record.generation).getD 1
  heartbeat := (current.map fun stored => saturatingSucc stored.record.heartbeat).getD 1
  durationMs := S.leaseDuration holderId / nanosPerMilli
  released := false

/-- The record that `release_stored` writes over what it read. -/
def releaseRecord (nodeId holderId : String) (generation : Nat) (stored : StoredWriterLease) :
    WriterLeaseRecord :=
  ⟨nodeId, holderId, generation, saturatingSucc stored.record.heartbeat, stored.record.durationMs, true⟩

/-! ### Tasks -/

namespace Task

def finish (t : Task) (reply : Reply) : Task := { t with progress := .finished reply }

/-- The end of one `release_stored`, with or without an error: the next one begins. -/
def endRelease (t : Task) : Task :=
  match t.request with
  | .release (_ :: generation :: generations) =>
      { t with
        request := .release (generation :: generations)
        progress := .reading (maxWriterLeaseCasAttempts - 1) }
  | _ => t.finish .released

/-- `continue` in one of the two loops. -/
def retry (t : Task) (left : Nat) : Task :=
  match left with
  | k + 1 => { t with progress := .reading k }
  | 0 =>
      match t.request with
      | .release _ => t.endRelease
      | _ => t.finish (.failed (.retryExhausted "writer_lease_cas" maxWriterLeaseCasAttempts))

/-- Somebody else holds a lease that has time left. -/
def isRefused (t : Task) (current : Option StoredWriterLease) (remainingMs : Nat) : Bool :=
  current.any fun stored => !stored.record.released && decide (0 < remainingMs) &&
    !(stored.record.nodeId == t.nodeId && stored.record.holderId == t.holderId)

/-- What a task does when it knows what the stored lease has left. -/
def choose (S : Setting) (now : Nat) (d : Directory) (t : Task) (left : Nat)
    (current : Option StoredWriterLease) (remainingMs : Nat) : Directory × Task :=
  match t.request with
  | .acquire _ =>
      if t.isRefused current remainingMs then
        ({ d with localLease := none, abandoned := none },
          t.finish (.failed (.notCellWriter (current.map fun stored => stored.record.nodeId))))
      else if S.leaseDuration t.holderId / nanosPerMilli ≤ u64Max then
        (d, { t with
          progress := .writing left current (leaseRecord S t.nodeId t.holderId current) now })
      else
        (d, t.finish (.failed (.corruptValue "writer-lease/duration"
          "writer lease duration exceeds u64 milliseconds")))
  | .release generations =>
      match generations, current with
      | generation :: _, some stored =>
          if stored.record.nodeId = t.nodeId ∧ stored.record.holderId = t.holderId ∧
              stored.record.generation = generation then
            (d, { t with
              progress := .writing left current
                (releaseRecord t.nodeId t.holderId generation stored) now })
          else (d, t.endRelease)
      | _, _ => (d, t.endRelease)
  | .currentOwner =>
      (d, t.finish (.owner (current.bind fun stored =>
        if !stored.record.released && 0 < remainingMs then
          some (stored.record.nodeId, stored.record.generation, remainingMs)
        else none)))

/-- What a task does with the object it read. -/
def afterGet (S : Setting) (now : Nat) (d : Directory) (t : Task) (left : Nat)
    (current : Option StoredWriterLease) : Directory × Task :=
  match t.request, current with
  | .release _, _ => t.choose S now d left current 0
  | _, none => t.choose S now d left none 0
  | _, some stored =>
      if stored.record.released then t.choose S now d left current 0
      else
        match d.observedRemainingMs stored now with
        | some remainingMs => t.choose S now d left current remainingMs
        | none => (d, { t with progress := .probing left stored now })

/-- What a task does when the store has no conditional update: the incumbent overwrites its record, a
release deletes it, and a takeover fails. -/
def afterNotImplemented (t : Task) (left : Nat) (current : Option StoredWriterLease)
    (record : WriterLeaseRecord) (startedAt : Nat) : Task :=
  match t.request with
  | .release _ => { t with progress := .deleting }
  | _ =>
      if sameHolder t.nodeId t.holderId current then
        { t with progress := .overwriting left record startedAt }
      else t.finish (.failed .objectStore)

/-- What a task does with the answer to its write. -/
def afterPut (S : Setting) (now : Nat) (d : Directory) (t : Task) (left : Nat)
    (record : WriterLeaseRecord) (startedAt : Nat) (answer : Answer) : Directory × Task :=
  match t.request, answer with
  | _, .conflict => (d, t.retry left)
  | .release _, .ok => (d.observeSuccessfulWrite record startedAt, t.endRelease)
  | .release _, .failed => (d, t.endRelease)
  | _, .failed => (d, t.finish (.failed .objectStore))
  | _, .ok =>
      if startedAt + S.leaseDuration t.holderId ≤ now then (d, t.retry left)
      else (d, { t with progress := .accepted record startedAt })

/-- The lease that a write gave becomes the local one; a renewal that outlived the last user of
its scope gives none. -/
def afterAccept (S : Setting) (d : Directory) (t : Task) (record : WriterLeaseRecord)
    (startedAt : Nat) : Directory × Task :=
  if t.request = .acquire true ∧ d.users t.nodeId = 0 then
    (d.observeSuccessfulWrite record startedAt,
      t.finish (.failed (.notCellWriter (some t.nodeId))))
  else
    ({ d.observeSuccessfulWrite record startedAt with
        abandoned := none
        localLease := some ⟨t.nodeId, record.generation, startedAt + S.leaseDuration t.holderId⟩ },
      t.finish (.acquired record.generation))

/-- The stretch of a task behind an answer. -/
def resume (S : Setting) (now : Nat) (d : Directory) (t : Task) : Option (Directory × Task) :=
  match t.progress with
  | .got left current => some (t.afterGet S now d left current)
  | .probed left stored askedAt stampedAt =>
      some (t.choose S now (d.observe stored askedAt (S.serverMillis stampedAt)) left (some stored)
        (min (durableRemaining stored (S.serverMillis stampedAt) / nanosPerMilli) u64Max))
  | .answered left record startedAt answer => some (t.afterPut S now d left record startedAt answer)
  | .accepted record startedAt => some (t.afterAccept S d record startedAt)
  | _ => none

/-- `acquire_or_renew_inner` up to its first question to the store. -/
def begin (S : Setting) (now : Nat) (d : Directory) (t : Task) (forceRenew : Bool) :
    Directory × Task :=
  let read : Task := { t with progress := .reading (maxWriterLeaseCasAttempts - 1) }
  match validateComponent "node_id" t.nodeId *>
      validateComponent "writer_lease_holder" t.holderId with
  | .error error => (d, t.finish (.failed error))
  | .ok () =>
      if forceRenew then
        if d.holdsValidLocal t.nodeId now then (d, read)
        else ({ d with localLease := none }, t.finish (.failed (.notCellWriter none)))
      else
        match d.localLease with
        | some lease =>
            -- The renewal margin is a third of the duration.
            if lease.nodeId = t.nodeId ∧ now + S.leaseDuration t.holderId / 3 < lease.validUntil then
              (d, t.finish (.acquired lease.generation))
            else (d, read)
        | none => (d, read)

/-- A question to the store that is not answered. -/
def fail (t : Task) : Task :=
  match t.request with
  | .release _ => t.endRelease
  | _ => t.finish (.failed .objectStore)

end Task

/-! ### Scopes -/

/-- Whether a scope has no user but, at most, the one that leaves. -/
def Directory.lastUser (d : Directory) (nodeId : String) : Bool := decide (d.users nodeId ≤ 1)

def Directory.dropUser (d : Directory) (nodeId : String) : Directory :=
  { d with users := Function.update d.users nodeId (d.users nodeId - 1) }

/-- The leases of a node, the local one first. -/
def Directory.leasesOf (d : Directory) (nodeId : String) : List LocalWriterLease :=
  (d.localLease.toList ++ d.abandoned.toList).filter fun lease => lease.nodeId == nodeId

/-- The directory without the leases of a node. -/
def Directory.withoutLeasesOf (d : Directory) (nodeId : String) : Directory :=
  { d with
    localLease := d.localLease.filter fun lease => lease.nodeId != nodeId
    abandoned := d.abandoned.filter fun lease => lease.nodeId != nodeId }

/-- `abandon_scope` when the last user left: the local lease is parked. -/
def Directory.park (d : Directory) (nodeId : String) (now : Nat) : Directory :=
  { d with
    localLease := d.localLease.filter fun lease => lease.nodeId != nodeId
    abandoned := (d.localLease.filter fun lease => lease.nodeId == nodeId).or
      (d.abandoned.filter fun lease => decide (now < lease.validUntil)) }

/-! ### Calls -/

/-- What a runtime asks of the directory of its process. -/
inductive Call where
  | forget
  | registerScope (nodeId : String)
  | abandonScope (nodeId : String)
  | releaseScope (nodeId : String)
  | releaseCell (nodeId : String)
  | acquireOrRenew (nodeId : String) (forceRenew : Bool)
  | currentOwner
  | holdsAbandonedLocal (nodeId : String)
  | ownershipLost (nodeId : String)
deriving DecidableEq, Repr

/-- The task that releases some leases, if there are any. -/
def releaseTask (holderId nodeId : String) (leases : List LocalWriterLease) : Option Task :=
  if leases = [] then none
  else some ⟨holderId, nodeId, .release (leases.map fun lease => lease.generation),
    .reading (maxWriterLeaseCasAttempts - 1)⟩

/-- A call up to its first question to the store: what becomes of the directory, and the task that
is begun, if any. `forget` is the removal of an observation that makes room for another cell's,
`ownershipLost` what `renew_local` does behind a renewal that failed. -/
def Call.run (S : Setting) (now : Nat) (holderId : String) (d : Directory) :
    Call → Directory × Option Task
  | .forget => ({ d with observed := none }, none)
  | .registerScope nodeId =>
      ({ d with users := Function.update d.users nodeId (d.users nodeId + 1) }, none)
  | .abandonScope nodeId =>
      (if d.lastUser nodeId then (d.dropUser nodeId).park nodeId now else d.dropUser nodeId, none)
  | .releaseScope nodeId =>
      if d.lastUser nodeId then
        ((d.dropUser nodeId).withoutLeasesOf nodeId, releaseTask holderId nodeId (d.leasesOf nodeId))
      else (d.dropUser nodeId, none)
  | .releaseCell nodeId =>
      ({ d with
          localLease := none
          abandoned := if d.localLease.isSome then d.abandoned else none },
        releaseTask holderId nodeId (d.localLease.or d.abandoned).toList)
  | .acquireOrRenew nodeId forceRenew =>
      let begun := Task.begin S now d ⟨holderId, nodeId, .acquire forceRenew, .finished .cancelled⟩
        forceRenew
      (begun.1, some begun.2)
  | .currentOwner =>
      (d, some ⟨holderId, "", .currentOwner, .reading (maxWriterLeaseCasAttempts - 1)⟩)
  | .holdsAbandonedLocal nodeId =>
      ({ d with abandoned := d.abandoned.filter fun lease =>
          lease.nodeId == nodeId && decide (now < lease.validUntil) }, none)
  | .ownershipLost nodeId =>
      (if d.holdsValidLocal nodeId now then d else { d with localLease := none }, none)

/-! ### Steps -/

/-- What the store, or the process, does to a task that is not about to write. -/
inductive Ask where
  | get
  | probe
  | fail
  | cancel
deriving DecidableEq, Repr

def Task.hear (t : Task) (now : Nat) (store : Option StoredWriterLease) : Ask → Option Task
  | .get =>
      match t.progress with
      | .reading left => some { t with progress := .got left store }
      | _ => none
  | .probe =>
      match t.progress with
      | .probing left stored askedAt => some { t with progress := .probed left stored askedAt now }
      | _ => none
  | .fail =>
      match t.progress with
      | .reading _ => some t.fail
      | .probing _ _ _ => some t.fail
      | _ => none
  | .cancel => if t.progress.isFinished then none else some (t.finish .cancelled)

/-- What goes wrong with a write: it does not arrive, its answer is lost, or it is sent again and
the second time finds what the first one wrote. -/
inductive Fault where
  | none
  | refused
  | lost
  | repeated
deriving DecidableEq, Repr

/-- What the task hears of a write that arrived, or would have. -/
def Fault.answer (fault : Fault) (permitted : Bool) : Answer :=
  match fault with
  | .none => if permitted then .ok else .conflict
  | .refused => .failed
  | .lost => .failed
  | .repeated => .conflict

/-- A write without a condition finds nothing in its way when it is sent again. -/
def Fault.overwriteAnswer : Fault → Answer
  | .none => .ok
  | .refused => .failed
  | .lost => .failed
  | .repeated => .ok

inductive Event where
  | advance (nanos : Nat)
  | call (holderId : String) (call : Call)
  | ask (task : Nat) (ask : Ask)
  | put (task : Nat) (fault : Fault)
  | overwrite (task : Nat) (fault : Fault)
  | delete (task : Nat) (fault : Fault)
  | resume (task : Nat)
deriving DecidableEq, Repr

namespace World

def setDirectory (w : World) (holderId : String) (d : Directory) : World :=
  { w with directories := Function.update w.directories holderId d }

def setTask (w : World) (i : Nat) (t : Task) : World := { w with tasks := w.tasks.set i t }

def addTasks (w : World) (ts : List Task) : World := { w with tasks := w.tasks ++ ts }

/-- The write takes effect. -/
def commit (S : Setting) (w : World) (record : WriterLeaseRecord) (startedAt : Nat) : World :=
  { w with
    store := some ⟨record, w.log.length, S.serverMillis w.now⟩
    log := ⟨record, startedAt, w.now⟩ :: w.log }

/-- `PutMode::Create` and `PutMode::Update`: the object is still as it was read. -/
def permits (w : World) (current : Option StoredWriterLease) : Bool :=
  w.store.map (fun stored => stored.version) == current.map fun stored => stored.version

/-- A write arrives, or not, and is answered. -/
def put (S : Setting) (w : World) (i : Nat) (t : Task) (left : Nat)
    (current : Option StoredWriterLease) (record : WriterLeaseRecord) (startedAt : Nat)
    (fault : Fault) : World :=
  let answered : Task :=
    { t with progress := .answered left record startedAt (fault.answer (w.permits current)) }
  if w.permits current ∧ fault ≠ .refused then
    (w.commit S record startedAt).setTask i answered
  else w.setTask i answered

/-- A conditional update arrives in a store that has none, or goes astray: nothing is written. -/
def putNotImplemented (w : World) (i : Nat) (t : Task) (left : Nat)
    (current : Option StoredWriterLease) (record : WriterLeaseRecord) (startedAt : Nat)
    (fault : Fault) : World :=
  w.setTask i (match fault.overwriteAnswer with
    | .failed => { t with progress := .answered left record startedAt .failed }
    | _ => t.afterNotImplemented left current record startedAt)

/-- A write without a condition. -/
def overwrite (S : Setting) (w : World) (i : Nat) (t : Task) (left : Nat)
    (record : WriterLeaseRecord) (startedAt : Nat) (fault : Fault) : World :=
  let answered : Task := { t with progress := .answered left record startedAt fault.overwriteAnswer }
  if fault = .refused then w.setTask i answered
  else (w.commit S record startedAt).setTask i answered

/-- The object is deleted, or not; the release ends with an error or without one. -/
def delete (w : World) (i : Nat) (t : Task) (fault : Fault) : World :=
  if fault = .refused then w.setTask i t.endRelease
  else { w with store := none }.setTask i t.endRelease

end World

/-- The machine of all processes and the store. -/
def step (S : Setting) (w : World) : Event → Option World
  | .advance nanos => some { w with now := w.now + nanos }
  | .call holderId call =>
      let begun := call.run S w.now holderId (w.directories holderId)
      some ((w.setDirectory holderId begun.1).addTasks begun.2.toList)
  | .ask i ask =>
      w.tasks[i]?.bind fun t => (t.hear w.now w.store ask).map (w.setTask i)
  | .put i fault =>
      w.tasks[i]?.bind fun t =>
        match t.progress with
        | .writing left current record startedAt =>
            if S.conditionalUpdates || current.isNone then
              some (w.put S i t left current record startedAt fault)
            else some (w.putNotImplemented i t left current record startedAt fault)
        | _ => none
  | .overwrite i fault =>
      w.tasks[i]?.bind fun t =>
        match t.progress with
        | .overwriting left record startedAt =>
            some (w.overwrite S i t left record startedAt fault)
        | _ => none
  | .delete i fault =>
      w.tasks[i]?.bind fun t =>
        match t.progress with
        | .deleting => some (w.delete i t fault)
        | _ => none
  | .resume i =>
      w.tasks[i]?.bind fun t =>
        (t.resume S w.now (w.directories t.holderId)).map fun resumed =>
          (w.setDirectory t.holderId resumed.1).setTask i resumed.2

end ContextMemory.Lease
