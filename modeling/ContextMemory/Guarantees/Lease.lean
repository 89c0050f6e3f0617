/-
The generations of a writer lease are fencing tokens.

What each task and each directory knows was written at some time (`World.Sound`), and each write
builds on the one before it (`Follows`). So two requests that were given the same generation are of
the same node and the same process, whatever the clocks, the delays and the faults
(`generation_owner`). All this is over a store with conditional updates: one without them forgets
its generations when a lease is released (`generation_reused`).
-/

import ContextMemory.Hydra.Lease

namespace ContextMemory.Lease

variable {S : Setting} {w w' : World} {log log' : List Written} {now now' : Nat}

/-! ### The log -/

/-- Until when a write may give its process authority. -/
def Written.until (S : Setting) (e : Written) : Nat :=
  e.startedAt + S.leaseDuration e.record.holderId

/-- The object in the store after some writes. -/
def latest (S : Setting) : List Written → Option StoredWriterLease
  | [] => none
  | e :: rest => some ⟨e.record, rest.length, S.serverMillis e.writtenAt⟩

/-- `stored` was read after the write `e`. -/
def IsRead (S : Setting) (log : List Written) (stored : StoredWriterLease) (e : Written) : Prop :=
  ∃ rest, e :: rest <:+ log ∧ latest S (e :: rest) = some stored

/-- How a write builds on the writes before it. -/
structure Follows (S : Setting) (e : Written) (rest : List Written) : Prop where
  heartbeat : e.record.heartbeat =
    (rest.head?.map fun before => saturatingSucc before.record.heartbeat).getD 1
  started : e.startedAt ≤ e.writtenAt
  ordered : ∀ before ∈ rest.head?, before.writtenAt ≤ e.startedAt
  duration : e.record.durationMs = S.leaseDuration e.record.holderId / nanosPerMilli
  bounded : e.record.generation ≤ u64Max
  generation : ∀ before ∈ rest.head?,
    (e.record.nodeId = before.record.nodeId ∧ e.record.holderId = before.record.holderId ∧
      e.record.generation = before.record.generation) ∨
      e.record.generation = saturatingSucc before.record.generation

/-- Every write builds on the writes before it. -/
def LogSound (S : Setting) (now : Nat) (log : List Written) : Prop :=
  ∀ e rest, e :: rest <:+ log → Follows S e rest ∧ e.writtenAt ≤ now

/-- What was read of a log was read of every longer one: a log only grows at its
head. -/
theorem IsRead.mono {stored : StoredWriterLease} {e : Written} (hlog : log <:+ log')
    (h : IsRead S log stored e) : IsRead S log' stored e := by
  obtain ⟨rest, hrest, hstored⟩ := h
  exact ⟨rest, hrest.trans hlog, hstored⟩

theorem IsRead.record {stored : StoredWriterLease} {e : Written} (h : IsRead S log stored e) :
    stored.record = e.record := by
  obtain ⟨rest, -, hstored⟩ := h
  cases hstored
  rfl

theorem IsRead.lastModified {stored : StoredWriterLease} {e : Written}
    (h : IsRead S log stored e) : stored.lastModifiedMs = S.serverMillis e.writtenAt := by
  obtain ⟨rest, -, hstored⟩ := h
  cases hstored
  rfl

theorem IsRead.mem {stored : StoredWriterLease} {e : Written} (h : IsRead S log stored e) :
    e ∈ log := by
  obtain ⟨rest, hrest, -⟩ := h
  exact hrest.subset List.mem_cons_self

/-- A lease that was read is of one entry of the log only. -/
theorem IsRead.unique {stored : StoredWriterLease} {e e' : Written} (h : IsRead S log stored e)
    (h' : IsRead S log stored e') : e = e' := by
  obtain ⟨rest, hrest, hstored⟩ := h
  obtain ⟨rest', hrest', hstored'⟩ := h'
  have hlength : rest.length = rest'.length :=
    congrArg StoredWriterLease.version (Option.some.inj (hstored.trans hstored'.symm))
  have heq : e :: rest = e' :: rest' :=
    (List.suffix_of_suffix_length_le hrest hrest' (by simp [hlength])).eq_of_length
      (by simp [hlength])
  exact (List.cons.inj heq).1

/-- A sound log stays sound as time goes on. Only the stamps of its entries
refer to the clock. -/
theorem LogSound.mono (h : LogSound S now log) (hnow : now ≤ now') : LogSound S now' log :=
  fun e rest hrest => ⟨(h e rest hrest).1, (h e rest hrest).2.trans hnow⟩

/-- A log stays sound if the entry that comes on top follows the last one. -/
theorem LogSound.cons {e : Written} (h : LogSound S now log) (he : Follows S e log)
    (hnow : e.writtenAt ≤ now) : LogSound S now (e :: log) := by
  intro e' rest hrest
  rcases List.suffix_cons_iff.mp hrest with heq | hrest
  · cases heq
    exact ⟨he, hnow⟩
  · exact h e' rest hrest

/-- An entry of a log is the head of some end of it. So what is said of heads is
said of all entries. -/
theorem exists_suffix_of_mem {e : Written} (h : e ∈ log) : ∃ rest, e :: rest <:+ log := by
  obtain ⟨before, rest, rfl⟩ := List.append_of_mem h
  exact ⟨rest, List.suffix_append before (e :: rest)⟩

theorem LogSound.tail {e : Written} {rest : List Written} (h : LogSound S now (e :: rest)) :
    LogSound S now rest :=
  fun e' rest' hrest => h e' rest' (hrest.trans (List.suffix_cons e rest))

/-- The heartbeat counts the writes. -/
theorem LogSound.heartbeat {e : Written} {rest : List Written} (h : LogSound S now (e :: rest)) :
    e.record.heartbeat = min (rest.length + 1) u64Max := by
  induction rest generalizing e with
  | nil => rw [(h e [] List.suffix_rfl).1.heartbeat]; decide
  | cons before rest ih =>
      rw [(h e (before :: rest) List.suffix_rfl).1.heartbeat]
      simp only [List.head?_cons, Option.map_some, Option.getD_some, ih h.tail, saturatingSucc,
        List.length_cons]
      omega

/-- Before the heartbeats saturate, no two writes are alike. -/
theorem LogSound.record_injective (h : LogSound S now log) (hfresh : log.length ≤ u64Max)
    {e e' : Written} (he : e ∈ log) (he' : e' ∈ log) (heq : e.record = e'.record) : e = e' := by
  obtain ⟨rest, hrest⟩ := exists_suffix_of_mem he
  obtain ⟨rest', hrest'⟩ := exists_suffix_of_mem he'
  have hbeat : e.record.heartbeat = min (rest.length + 1) u64Max :=
    LogSound.heartbeat fun e' rest' h' => h e' rest' (h'.trans hrest)
  have hbeat' : e'.record.heartbeat = min (rest'.length + 1) u64Max :=
    LogSound.heartbeat fun e' rest' h' => h e' rest' (h'.trans hrest')
  have hle := hrest.length_le
  have hle' := hrest'.length_le
  rw [heq, hbeat'] at hbeat
  simp only [List.length_cons] at hle hle'
  have hlength : rest.length = rest'.length := by omega
  have hsame : e :: rest = e' :: rest' :=
    (List.suffix_of_suffix_length_le hrest hrest' (by simp [hlength])).eq_of_length
      (by simp [hlength])
  exact (List.cons.inj hsame).1

/-- **Generations along the log.** A newer write has no smaller generation, and
the same one only if it is of the same owner, unless the generations are
saturated. -/
theorem LogSound.generation {e e' : Written} {rest : List Written}
    (h : LogSound S now (e :: rest)) (he' : e' ∈ rest) :
    e'.record.generation ≤ e.record.generation ∧
      (e'.record.generation = e.record.generation → e.record.generation < u64Max →
        e'.record.nodeId = e.record.nodeId ∧ e'.record.holderId = e.record.holderId) := by
  induction rest generalizing e with
  | nil => cases he'
  | cons before rest ih =>
      have hfollows := (h e (before :: rest) List.suffix_rfl).1
      have hbefore := (h.tail before rest List.suffix_rfl).1.bounded
      have hstep := hfollows.generation before rfl
      rcases List.mem_cons.mp he' with rfl | he'
      · rcases hstep with ⟨hnode, hholder, hgeneration⟩ | hgeneration
        · exact ⟨hgeneration.ge, fun _ _ => ⟨hnode.symm, hholder.symm⟩⟩
        · unfold saturatingSucc at hgeneration
          exact ⟨by omega, fun heq hlt => by omega⟩
      · obtain ⟨hle, howner⟩ := ih h.tail he'
        rcases hstep with ⟨hnode, hholder, hgeneration⟩ | hgeneration
        · rw [hnode, hholder, hgeneration]
          exact ⟨hle, howner⟩
        · unfold saturatingSucc at hgeneration
          exact ⟨by omega, fun heq hlt => by omega⟩

/-- Writes of one generation have one owner. -/
theorem LogSound.owner_eq (h : LogSound S now log) {e e' : Written} (he : e ∈ log) (he' : e' ∈ log)
    (heq : e.record.generation = e'.record.generation) (hlt : e.record.generation < u64Max) :
    e.record.holderId = e'.record.holderId ∧ e.record.nodeId = e'.record.nodeId := by
  induction log with
  | nil => cases he
  | cons newest rest ih =>
      rcases List.mem_cons.mp he with rfl | hin
      · rcases List.mem_cons.mp he' with rfl | hin'
        · exact ⟨rfl, rfl⟩
        · obtain ⟨hnode, hholder⟩ := (h.generation hin').2 heq.symm hlt
          exact ⟨hholder.symm, hnode.symm⟩
      · rcases List.mem_cons.mp he' with rfl | hin'
        · obtain ⟨hnode, hholder⟩ := (h.generation hin).2 heq (heq ▸ hlt)
          exact ⟨hholder, hnode⟩
        · exact ih h.tail hin hin'

/-! ### What tasks and directories know -/

/-- A write for a node and a process under a generation. -/
def Token (log : List Written) (holderId nodeId : String) (generation : Nat) : Prop :=
  ∃ e ∈ log, e.record.holderId = holderId ∧ e.record.nodeId = nodeId ∧
    e.record.generation = generation

/-- A write that was made for a task. -/
def Granted (log : List Written) (t : Task) (record : WriterLeaseRecord) (startedAt : Nat) : Prop :=
  ∃ e ∈ log, e.record = record ∧ e.startedAt = startedAt ∧ record.holderId = t.holderId ∧
    record.nodeId = t.nodeId ∧ t.request ≠ .currentOwner

/-- What a task writes over what it read. -/
def Proposes (S : Setting) (t : Task) (current : Option StoredWriterLease)
    (record : WriterLeaseRecord) : Prop :=
  (∃ forceRenew, t.request = .acquire forceRenew) ∧
      record = leaseRecord S t.nodeId t.holderId current ∧ record.durationMs ≤ u64Max ∨
    (∃ generations, t.request = .release generations) ∧ ∃ stored, current = some stored ∧
      stored.record.holderId = t.holderId ∧ stored.record.nodeId = t.nodeId ∧
      record = releaseRecord t.nodeId t.holderId stored.record.generation stored

/-- What holds of a task where it stands. -/
def Task.Sound (S : Setting) (now : Nat) (log : List Written) (t : Task) : Prop :=
  match t.progress with
  | .reading _ => True
  | .got _ current => ∀ stored ∈ current, ∃ e, IsRead S log stored e
  | .probing _ stored askedAt =>
      (∃ e, IsRead S log stored e ∧ e.writtenAt ≤ askedAt) ∧ askedAt ≤ now
  | .probed _ stored askedAt stampedAt =>
      (∃ e, IsRead S log stored e ∧ e.writtenAt ≤ askedAt) ∧ askedAt ≤ stampedAt ∧ stampedAt ≤ now
  | .writing _ current record startedAt =>
      (∀ stored ∈ current, ∃ e, IsRead S log stored e ∧ e.writtenAt ≤ startedAt) ∧
        startedAt ≤ now ∧ Proposes S t current record
  | .answered _ record startedAt answer => answer = .ok → Granted log t record startedAt
  | .accepted record startedAt =>
      Granted log t record startedAt ∧ ∃ forceRenew, t.request = .acquire forceRenew
  | .overwriting _ _ _ => S.conditionalUpdates = false
  | .deleting => S.conditionalUpdates = false
  | .finished reply => ∀ generation, reply = .acquired generation →
      Token log t.holderId t.nodeId generation

/-- What holds of the directory of a process. -/
structure Directory.Sound (now : Nat) (log : List Written) (holderId : String) (d : Directory) :
    Prop where
  leases : ∀ lease, lease ∈ d.localLease ∨ lease ∈ d.abandoned →
    Token log holderId lease.nodeId lease.generation
  observed : ∀ entry ∈ d.observed, entry.observedAt ≤ now ∧ ∃ e ∈ log, e.record = entry.fingerprint

structure World.Sound (S : Setting) (w : World) : Prop where
  log : LogSound S w.now w.log
  store : w.store = latest S w.log
  tasks : ∀ t ∈ w.tasks, t.Sound S w.now w.log
  directories : ∀ holderId, (w.directories holderId).Sound w.now w.log holderId

/-- A token stays one in every longer log. -/
theorem Token.mono {holderId nodeId : String} {generation : Nat} (hlog : log <:+ log')
    (h : Token log holderId nodeId generation) : Token log' holderId nodeId generation := by
  obtain ⟨e, he, hrest⟩ := h
  exact ⟨e, hlog.subset he, hrest⟩

/-- What was granted stays granted in every longer log. -/
theorem Granted.mono {t : Task} {record : WriterLeaseRecord} {startedAt : Nat}
    (hlog : log <:+ log') (h : Granted log t record startedAt) :
    Granted log' t record startedAt := by
  obtain ⟨e, he, hrest⟩ := h
  exact ⟨e, hlog.subset he, hrest⟩

/-- What tasks know stays true as time passes and writes are added. -/
theorem Task.Sound.mono {t : Task} (hnow : now ≤ now') (hlog : log <:+ log')
    (h : t.Sound S now log) : t.Sound S now' log' := by
  unfold Task.Sound at h ⊢
  cases hprogress : t.progress with
  | reading left => trivial
  | got left current =>
      rw [hprogress] at h
      intro stored hstored
      obtain ⟨e, he⟩ := h stored hstored
      exact ⟨e, he.mono hlog⟩
  | probing left stored askedAt =>
      rw [hprogress] at h
      obtain ⟨⟨e, he, hwritten⟩, hasked⟩ := h
      exact ⟨⟨e, he.mono hlog, hwritten⟩, hasked.trans hnow⟩
  | probed left stored askedAt stampedAt =>
      rw [hprogress] at h
      obtain ⟨⟨e, he, hwritten⟩, hasked, hstamped⟩ := h
      exact ⟨⟨e, he.mono hlog, hwritten⟩, hasked, hstamped.trans hnow⟩
  | writing left current record startedAt =>
      rw [hprogress] at h
      obtain ⟨hread, hstarted, hproposes⟩ := h
      refine ⟨fun stored hstored => ?_, hstarted.trans hnow, hproposes⟩
      obtain ⟨e, he, hwritten⟩ := hread stored hstored
      exact ⟨e, he.mono hlog, hwritten⟩
  | answered left record startedAt answer =>
      rw [hprogress] at h
      exact fun hanswer => (h hanswer).mono hlog
  | accepted record startedAt =>
      rw [hprogress] at h
      exact ⟨Granted.mono hlog h.1, h.2⟩
  | overwriting left record startedAt =>
      rw [hprogress] at h
      exact h
  | deleting =>
      rw [hprogress] at h
      exact h
  | finished reply =>
      rw [hprogress] at h
      exact fun generation hreply => (h generation hreply).mono hlog

/-- The knowledge of a directory outlives time and the writes of others. It is
about what was, never about what is stored now. -/
theorem Directory.Sound.mono {holderId : String} {d : Directory} (hnow : now ≤ now')
    (hlog : log <:+ log') (h : d.Sound now log holderId) : d.Sound now' log' holderId where
  leases lease hlease := (h.leases lease hlease).mono hlog
  observed entry hentry := by
    obtain ⟨hobserved, e, he, hrecord⟩ := h.observed entry hentry
    exact ⟨hobserved.trans hnow, e, hlog.subset he, hrecord⟩

/-! ### Tasks that start over or end -/

/-- A task that reads anew, or ended without a lease. -/
def Task.AtRest (t : Task) : Prop :=
  (∃ left, t.progress = .reading left) ∨
    ∃ reply, t.progress = .finished reply ∧ ∀ generation, reply ≠ .acquired generation

/-- A task of the same process and node with a request of the same kind. -/
structure Task.Continues (t t' : Task) : Prop where
  holder : t'.holderId = t.holderId
  node : t'.nodeId = t.nodeId
  request : t'.request = t.request ∨
    (∃ generations, t.request = .release generations) ∧
      ∃ generations, t'.request = .release generations

namespace Task

variable {t : Task} {left : Nat}

theorem Continues.refl (t : Task) : t.Continues t := ⟨rfl, rfl, .inl rfl⟩

theorem continues_progress (progress : Progress) :
    t.Continues { t with progress := progress } := ⟨rfl, rfl, .inl rfl⟩

theorem finish_atRest {reply : Reply} (h : ∀ generation, reply ≠ .acquired generation) :
    (t.finish reply).AtRest := .inr ⟨reply, rfl, h⟩

theorem endRelease_atRest : t.endRelease.AtRest := by
  unfold endRelease
  split
  · exact .inl ⟨_, rfl⟩
  · exact finish_atRest fun _ h => by cases h

theorem endRelease_continues : t.Continues t.endRelease := by
  unfold endRelease
  split
  · rename_i first second rest hrequest
    exact ⟨rfl, rfl, .inr ⟨⟨_, hrequest⟩, _, rfl⟩⟩
  · exact continues_progress _

theorem retry_atRest : (t.retry left).AtRest := by
  unfold retry
  split
  · exact .inl ⟨_, rfl⟩
  · split
    · exact endRelease_atRest
    · exact finish_atRest fun _ h => by cases h

theorem retry_continues : t.Continues (t.retry left) := by
  unfold retry
  split
  · exact continues_progress _
  · split
    · exact endRelease_continues
    · exact continues_progress _

theorem fail_atRest : t.fail.AtRest := by
  unfold fail
  split
  · exact endRelease_atRest
  · exact finish_atRest fun _ h => by cases h

theorem fail_continues : t.Continues t.fail := by
  unfold fail
  split
  · exact endRelease_continues
  · exact continues_progress _

/-- What comes of a choice: the task is at rest, or it writes what its request
calls for. -/
theorem choose_cases (S : Setting) (now : Nat) (d : Directory) (t : Task) (left : Nat)
    (current : Option StoredWriterLease) (remainingMs : Nat) :
    t.Continues (t.choose S now d left current remainingMs).2 ∧
      (((t.choose S now d left current remainingMs).1 = d ∨
            (t.choose S now d left current remainingMs).1 =
              { d with localLease := none, abandoned := none }) ∧
          (t.choose S now d left current remainingMs).2.AtRest ∨
        ∃ record, t.choose S now d left current remainingMs =
            (d, { t with progress := .writing left current record now }) ∧
          Proposes S t current record ∧
          ((∃ forceRenew, t.request = .acquire forceRenew) →
            t.isRefused current remainingMs = false)) := by
  unfold choose
  split
  · rename_i forceRenew hrequest
    split
    · exact ⟨continues_progress _, .inl ⟨.inr rfl, finish_atRest fun _ h => by cases h⟩⟩
    · rename_i hrefused
      split
      · rename_i hduration
        exact ⟨continues_progress _, .inr ⟨_, rfl, .inl ⟨⟨_, hrequest⟩, rfl, hduration⟩,
          fun _ => Bool.eq_false_iff.mpr hrefused⟩⟩
      · exact ⟨continues_progress _, .inl ⟨.inl rfl, finish_atRest fun _ h => by cases h⟩⟩
  · rename_i generations hrequest
    split
    · rename_i generation rest stored
      split
      · rename_i howner
        obtain ⟨hnode, hholder, rfl⟩ := howner
        refine ⟨continues_progress _, .inr ⟨_, rfl, .inr ⟨⟨_, hrequest⟩, stored, rfl, hholder,
          hnode, rfl⟩, ?_⟩⟩
        rintro ⟨forceRenew, hacquire⟩
        rw [hrequest] at hacquire
        cases hacquire
      · exact ⟨endRelease_continues, .inl ⟨.inl rfl, endRelease_atRest⟩⟩
    · exact ⟨endRelease_continues, .inl ⟨.inl rfl, endRelease_atRest⟩⟩
  · exact ⟨continues_progress _, .inl ⟨.inl rfl, finish_atRest fun _ h => by cases h⟩⟩

/-- What comes of a read: a probe of the clock, or a choice. -/
theorem afterGet_cases (S : Setting) (now : Nat) (d : Directory) (t : Task) (left : Nat)
    (current : Option StoredWriterLease) :
    (∃ stored, current = some stored ∧
        t.afterGet S now d left current = (d, { t with progress := .probing left stored now })) ∨
      ∃ remainingMs, t.afterGet S now d left current = t.choose S now d left current remainingMs ∧
        ∀ stored ∈ current, (∃ forceRenew, t.request = .acquire forceRenew) →
          stored.record.released = false → d.observedRemainingMs stored now = some remainingMs := by
  unfold afterGet
  split
  · rename_i generations hrequest
    refine .inr ⟨0, rfl, fun stored _ hacquire => ?_⟩
    obtain ⟨forceRenew, hacquire⟩ := hacquire
    rw [hrequest] at hacquire
    cases hacquire
  · exact .inr ⟨0, rfl, fun stored hstored => by cases hstored⟩
  · rename_i stored _
    split
    · rename_i hreleased
      refine .inr ⟨0, rfl, fun stored' hstored' _ hactive => ?_⟩
      cases hstored'
      rw [hreleased] at hactive
      cases hactive
    · split
      · rename_i remainingMs hremaining
        refine .inr ⟨remainingMs, rfl, fun stored' hstored' _ _ => ?_⟩
        cases hstored'
        exact hremaining
      · exact .inl ⟨stored, rfl, rfl⟩

/-- What comes of an answer to a write: the task is at rest, or its lease is
accepted. -/
theorem afterPut_cases (S : Setting) (now : Nat) (d : Directory) (t : Task) (left : Nat)
    (record : WriterLeaseRecord) (startedAt : Nat) (answer : Answer) :
    t.Continues (t.afterPut S now d left record startedAt answer).2 ∧
      (((t.afterPut S now d left record startedAt answer).1 = d ∨
            answer = .ok ∧ (t.afterPut S now d left record startedAt answer).1 =
              d.observeSuccessfulWrite record startedAt) ∧
          (t.afterPut S now d left record startedAt answer).2.AtRest ∨
        answer = .ok ∧ (∀ generations, t.request ≠ .release generations) ∧
          t.afterPut S now d left record startedAt answer =
            (d, { t with progress := .accepted record startedAt })) := by
  unfold afterPut
  split
  · exact ⟨retry_continues, .inl ⟨.inl rfl, retry_atRest⟩⟩
  · exact ⟨endRelease_continues, .inl ⟨.inr ⟨rfl, rfl⟩, endRelease_atRest⟩⟩
  · exact ⟨endRelease_continues, .inl ⟨.inl rfl, endRelease_atRest⟩⟩
  · exact ⟨continues_progress _, .inl ⟨.inl rfl, finish_atRest fun _ h => by cases h⟩⟩
  · rename_i hrelease
    split
    · exact ⟨retry_continues, .inl ⟨.inl rfl, retry_atRest⟩⟩
    · exact ⟨continues_progress _, .inr ⟨rfl, hrelease, rfl⟩⟩

end Task

/-! ### Soundness is kept -/

section Sound

variable {t : Task} {d d' : Directory} {holderId : String} {left remainingMs startedAt : Nat}
  {current : Option StoredWriterLease} {record : WriterLeaseRecord}

/-- A task at rest knows nothing, so its knowledge is sound. -/
theorem Task.AtRest.sound (h : t.AtRest) : t.Sound S now log := by
  unfold Task.Sound
  rcases h with ⟨left, h⟩ | ⟨reply, h, hreply⟩
  · rw [h]
    trivial
  · rw [h]
    exact fun generation heq => absurd heq (hreply generation)

/-- A directory without some of its leases. -/
theorem Directory.Sound.fewer (h : d.Sound now log holderId)
    (hleases : ∀ lease, lease ∈ d'.localLease ∨ lease ∈ d'.abandoned →
      lease ∈ d.localLease ∨ lease ∈ d.abandoned)
    (hobserved : ∀ entry ∈ d'.observed, entry ∈ d.observed) : d'.Sound now log holderId where
  leases lease hlease := h.leases lease (hleases lease hlease)
  observed entry hentry := h.observed entry (hobserved entry hentry)

/-- Observing a lease that was read keeps what the directory knows. No lease of
its own changes. -/
theorem Directory.Sound.observe (h : d.Sound now log holderId) {stored : StoredWriterLease}
    {e : Written} (he : IsRead S log stored e) {askedAt : Nat} (hasked : askedAt ≤ now)
    (serverNow : Int) : (d.observe stored askedAt serverNow).Sound now log holderId where
  leases := h.leases
  observed entry hentry := by
    cases hentry
    exact ⟨hasked, e, he.mem, he.record.symm⟩

/-- After a write that was granted the directory holds what was written. The
token is that of the log's entry. -/
theorem Directory.Sound.observeSuccessfulWrite (h : d.Sound now log holderId)
    (hlog : LogSound S now log) (hgranted : Granted log t record startedAt) :
    (d.observeSuccessfulWrite record startedAt).Sound now log holderId where
  leases := h.leases
  observed entry hentry := by
    cases hentry
    obtain ⟨e, he, hrecord, rfl, -⟩ := hgranted
    obtain ⟨rest, hrest⟩ := exists_suffix_of_mem he
    obtain ⟨hfollows, hwritten⟩ := hlog e rest hrest
    exact ⟨hfollows.started.trans hwritten, e, he, hrecord⟩

/-- A write was made for an acquisition or a release. -/
theorem Granted.acquire (h : Granted log t record startedAt)
    (hrelease : ∀ generations, t.request ≠ .release generations) :
    ∃ forceRenew, t.request = .acquire forceRenew := by
  obtain ⟨e, -, -, -, -, -, howner⟩ := h
  cases hrequest : t.request with
  | acquire forceRenew => exact ⟨forceRenew, rfl⟩
  | release generations => exact absurd hrequest (hrelease generations)
  | currentOwner => exact absurd hrequest howner

/-- Whatever a task chooses after a read is sound. Either it is at rest and its
directory holds no more than before, or it proposes a write that builds on what
was read. -/
theorem Task.choose_sound (hd : d.Sound now log holderId)
    (hread : ∀ stored ∈ current, ∃ e, IsRead S log stored e ∧ e.writtenAt ≤ now) :
    (t.choose S now d left current remainingMs).1.Sound now log holderId ∧
      (t.choose S now d left current remainingMs).2.Sound S now log := by
  obtain ⟨-, ⟨hdirectory, hrest⟩ | ⟨record, heq, hproposes, -⟩⟩ :=
    Task.choose_cases S now d t left current remainingMs
  · refine ⟨?_, hrest.sound⟩
    rcases hdirectory with heq | heq
    · rw [heq]
      exact hd
    · rw [heq]
      refine hd.fewer (fun lease hlease => ?_) fun entry hentry => hentry
      rcases hlease with hlease | hlease
      · cases hlease
      · cases hlease
  · rw [heq]
    exact ⟨hd, hread, le_rfl, hproposes⟩

/-- A task whose write was accepted tells the directory, and ends with the
generation that it wrote. -/
theorem Task.afterAccept_sound (hd : d.Sound now log t.holderId) (hlog : LogSound S now log)
    (hgranted : Granted log t record startedAt) :
    (t.afterAccept S d record startedAt).1.Sound now log t.holderId ∧
      (t.afterAccept S d record startedAt).2.Sound S now log := by
  have hobserved := hd.observeSuccessfulWrite hlog hgranted
  unfold Task.afterAccept
  split
  · exact ⟨hobserved, (Task.finish_atRest fun _ h => by cases h).sound⟩
  · obtain ⟨e, he, hrecord, -, hholder, hnode, -⟩ := hgranted
    have htoken : Token log t.holderId t.nodeId record.generation :=
      ⟨e, he, hrecord ▸ hholder, hrecord ▸ hnode, hrecord ▸ rfl⟩
    refine ⟨⟨fun lease hlease => ?_, hobserved.observed⟩, fun generation hreply => ?_⟩
    · rcases hlease with hlease | hlease
      · cases hlease
        exact htoken
      · cases hlease
    · cases hreply
      exact htoken

/-- A task that is resumed stays sound, and so does its directory. One case for
each point at which a task can wait. -/
theorem Task.resume_sound {resumed : Directory × Task} (hlog : LogSound S now log)
    (hd : d.Sound now log t.holderId) (ht : t.Sound S now log)
    (h : t.resume S now d = some resumed) :
    resumed.1.Sound now log t.holderId ∧ resumed.2.Sound S now log := by
  unfold Task.resume at h
  unfold Task.Sound at ht
  cases hprogress : t.progress with
  | got left current =>
      rw [hprogress] at h ht
      cases h
      have hread : ∀ stored ∈ current, ∃ e, IsRead S log stored e ∧ e.writtenAt ≤ now := by
        intro stored hstored
        obtain ⟨e, he⟩ := ht stored hstored
        obtain ⟨rest, hrest⟩ := exists_suffix_of_mem he.mem
        exact ⟨e, he, (hlog e rest hrest).2⟩
      rcases Task.afterGet_cases S now d t left current with
        ⟨stored, hcurrent, heq⟩ | ⟨remainingMs, heq, -⟩
      · rw [heq]
        exact ⟨hd, hread stored hcurrent, le_rfl⟩
      · rw [heq]
        exact Task.choose_sound hd hread
  | probed left stored askedAt stampedAt =>
      rw [hprogress] at h ht
      cases h
      obtain ⟨⟨e, he, hwritten⟩, hasked, hstamped⟩ := ht
      refine Task.choose_sound (hd.observe he (hasked.trans hstamped) _) fun stored' hstored' => ?_
      cases hstored'
      exact ⟨e, he, hwritten.trans (hasked.trans hstamped)⟩
  | answered left record startedAt answer =>
      rw [hprogress] at h ht
      cases h
      obtain ⟨-, ⟨hdirectory, hrest⟩ | ⟨hok, hrelease, heq⟩⟩ :=
        Task.afterPut_cases S now d t left record startedAt answer
      · refine ⟨?_, hrest.sound⟩
        rcases hdirectory with heq | ⟨hok, heq⟩
        · rw [heq]
          exact hd
        · rw [heq]
          exact hd.observeSuccessfulWrite hlog (ht hok)
      · rw [heq]
        exact ⟨hd, ht hok, (ht hok).acquire hrelease⟩
  | accepted record startedAt =>
      rw [hprogress] at h ht
      cases h
      exact Task.afterAccept_sound hd hlog ht.1
  | reading left => rw [hprogress] at h; cases h
  | probing left stored askedAt => rw [hprogress] at h; cases h
  | writing left current record startedAt => rw [hprogress] at h; cases h
  | overwriting left record startedAt => rw [hprogress] at h; cases h
  | deleting => rw [hprogress] at h; cases h
  | finished reply => rw [hprogress] at h; cases h

/-- What a task hears from the store is what the log's head says at that time. -/
theorem Task.hear_sound {t' : Task} {ask : Ask} (hlog : LogSound S now log)
    (ht : t.Sound S now log) (h : t.hear now (latest S log) ask = some t') :
    t'.Sound S now log := by
  unfold Task.hear at h
  cases ask with
  | get =>
      dsimp only at h
      split at h
      · cases h
        intro stored hstored
        cases log with
        | nil => cases hstored
        | cons e rest => exact ⟨e, rest, List.suffix_rfl, hstored⟩
      · cases h
  | probe =>
      dsimp only at h
      split at h
      · rename_i left stored askedAt hprogress
        cases h
        unfold Task.Sound at ht
        rw [hprogress] at ht
        exact ⟨ht.1, ht.2, le_rfl⟩
      · cases h
  | fail =>
      dsimp only at h
      split at h
      · cases h
        exact Task.fail_atRest.sound
      · cases h
        exact Task.fail_atRest.sound
      · cases h
  | cancel =>
      dsimp only at h
      split at h
      · cases h
      · cases h
        exact (Task.finish_atRest fun _ h => by cases h).sound

theorem releaseTask_atRest {nodeId : String} {leases : List LocalWriterLease} {t : Task}
    (h : t ∈ releaseTask holderId nodeId leases) : t.AtRest := by
  unfold releaseTask at h
  split at h
  · cases h
  · cases h
    exact .inl ⟨_, rfl⟩

/-- A request that begins leaves the directory sound: it ends at once, perhaps
with the token of a lease that is held, or it is about to read. -/
theorem Task.begin_sound (t : Task) (forceRenew : Bool) (hd : d.Sound now log t.holderId) :
    (t.begin S now d forceRenew).1.Sound now log t.holderId ∧
      (t.begin S now d forceRenew).2.Sound S now log := by
  unfold Task.begin
  dsimp only
  split
  · exact ⟨hd, (Task.finish_atRest fun _ h => by cases h).sound⟩
  · split
    · split
      · exact ⟨hd, trivial⟩
      · refine ⟨hd.fewer (fun lease hlease => ?_) fun entry hentry => hentry,
          (Task.finish_atRest fun _ h => by cases h).sound⟩
        exact hlease.elim (fun h => by cases h) .inr
    · split
      · rename_i lease hlease
        split
        · rename_i howner
          refine ⟨hd, fun generation hreply => ?_⟩
          cases hreply
          have htoken := hd.leases lease (.inl hlease)
          rwa [howner.1] at htoken
        · exact ⟨hd, trivial⟩
      · exact ⟨hd, trivial⟩

theorem mem_of_mem_filter {α : Type} {p : α → Bool} {o : Option α} {a : α} (h : a ∈ o.filter p) :
    a ∈ o := (Option.mem_filter_iff.mp h).1

/-- Every call leaves its directory sound, and so are the tasks that it starts. -/
theorem Call.run_sound (call : Call) (hd : d.Sound now log holderId) :
    (call.run S now holderId d).1.Sound now log holderId ∧
      ∀ t ∈ (call.run S now holderId d).2, t.Sound S now log := by
  have hnone : ∀ t ∈ (none : Option Task), t.Sound S now log := fun t ht => by cases ht
  cases call with
  | forget => exact ⟨hd.fewer (fun _ h => h) (fun _ h => by cases h), hnone⟩
  | registerScope nodeId => exact ⟨hd.fewer (fun _ h => h) fun _ h => h, hnone⟩
  | abandonScope nodeId =>
      refine ⟨?_, hnone⟩
      dsimp only [Call.run]
      split
      · refine hd.fewer (fun lease hlease => ?_) fun _ h => h
        rcases hlease with hlease | hlease
        · exact .inl (mem_of_mem_filter hlease)
        · rcases Option.or_eq_some_iff.mp hlease with hlease | ⟨-, hlease⟩
          · exact .inl (mem_of_mem_filter hlease)
          · exact .inr (mem_of_mem_filter hlease)
      · exact hd.fewer (fun _ h => h) fun _ h => h
  | releaseScope nodeId =>
      dsimp only [Call.run]
      split
      · exact ⟨hd.fewer (fun lease hlease => hlease.imp mem_of_mem_filter mem_of_mem_filter)
          fun _ h => h, fun t ht => (releaseTask_atRest ht).sound⟩
      · exact ⟨hd.fewer (fun _ h => h) fun _ h => h, hnone⟩
  | releaseCell nodeId =>
      refine ⟨hd.fewer (fun lease hlease => ?_) fun _ h => h, fun t ht => (releaseTask_atRest ht).sound⟩
      rcases hlease with hlease | hlease
      · cases hlease
      · exact .inr (Option.ite_none_right_eq_some.mp hlease).2
  | acquireOrRenew nodeId forceRenew =>
      obtain ⟨hdirectory, htask⟩ :=
        Task.begin_sound (S := S) ⟨holderId, nodeId, .acquire forceRenew, .finished .cancelled⟩
          forceRenew hd
      refine ⟨hdirectory, fun t ht => ?_⟩
      cases ht
      exact htask
  | currentOwner =>
      refine ⟨hd, fun t ht => ?_⟩
      cases ht
      trivial
  | holdsAbandonedLocal nodeId =>
      exact ⟨hd.fewer (fun lease hlease => hlease.imp_right mem_of_mem_filter) fun _ h => h, hnone⟩
  | ownershipLost nodeId =>
      refine ⟨?_, hnone⟩
      dsimp only [Call.run]
      split
      · exact hd
      · exact hd.fewer (fun lease hlease => hlease.elim (fun h => by cases h) .inr) fun _ h => h

/-- A write that is permitted was made over the newest one. -/
theorem World.Sound.current_eq (h : w.Sound S)
    (hread : ∀ stored ∈ current, ∃ e, IsRead S w.log stored e)
    (hpermits : w.permits current = true) : current = latest S w.log := by
  have hversions := beq_iff_eq.mp hpermits
  rw [h.store] at hversions
  cases hcurrent : current with
  | none =>
      rw [hcurrent] at hversions
      exact (Option.map_eq_none_iff.mp hversions).symm
  | some stored =>
      obtain ⟨e, rest, hrest, hstored⟩ := hread stored hcurrent
      rw [hcurrent, ← hstored] at hversions
      cases hlog : w.log with
      | nil =>
          rw [hlog] at hrest
          exact absurd (List.suffix_nil.mp hrest) (List.cons_ne_nil _ _)
      | cons e' rest' =>
          rw [hlog] at hversions hrest
          have hlength : rest'.length = rest.length := Option.some.inj hversions
          rw [← hrest.eq_of_length (by simp [hlength]), hstored]

/-- What a task proposes over the newest write builds on it. -/
theorem Proposes.follows (hproposes : Proposes S t (latest S log) record) (hlog : LogSound S now log)
    (hread : ∀ stored ∈ latest S log, ∃ e, IsRead S log stored e ∧ e.writtenAt ≤ startedAt)
    (hstarted : startedAt ≤ now) : Follows S ⟨record, startedAt, now⟩ log := by
  cases log with
  | nil =>
      rcases hproposes with ⟨-, rfl, -⟩ | ⟨-, stored, hstored, -⟩
      · exact
          { heartbeat := rfl
            started := hstarted
            ordered := fun before hbefore => by cases hbefore
            duration := rfl
            bounded := (by decide : 1 ≤ u64Max)
            generation := fun before hbefore => by cases hbefore }
      · cases hstored
  | cons before rest =>
      obtain ⟨hbefore, -⟩ := hlog before rest List.suffix_rfl
      have hordered : before.writtenAt ≤ startedAt := by
        obtain ⟨e, he, hwritten⟩ := hread _ rfl
        have hself : IsRead S (before :: rest) _ before := ⟨rest, List.suffix_rfl, rfl⟩
        rwa [← he.unique hself]
      rcases hproposes with ⟨-, rfl, -⟩ | ⟨-, stored, hstored, hholder, hnode, rfl⟩
      · refine ⟨rfl, hstarted, fun e he => ?_, rfl, ?_, fun e he => ?_⟩
        · cases he
          exact hordered
        · dsimp only [leaseRecord, latest, Option.map_some, Option.getD_some]
          split
          · exact hbefore.bounded
          · exact Nat.min_le_right _ _
        · cases he
          dsimp only [leaseRecord, latest, Option.map_some, Option.getD_some]
          split
          · rename_i hsame
            refine .inl ?_
            simp only [sameHolder, Option.any_some, Bool.and_eq_true, beq_iff_eq] at hsame
            exact ⟨hsame.1.2.symm, hsame.2.symm, rfl⟩
          · exact .inr rfl
      · cases hstored
        refine ⟨rfl, hstarted, fun e he => ?_, ?_, hbefore.bounded, fun e he => ?_⟩
        · cases he
          exact hordered
        · dsimp only [releaseRecord]
          rw [hbefore.duration]
          exact congrArg (fun holder => S.leaseDuration holder / nanosPerMilli) hholder
        · cases he
          exact .inl ⟨hnode.symm, hholder.symm, rfl⟩

/-- What is proposed is for the process and the node of the task. Nobody writes
a lease for another one. -/
theorem Proposes.owner (h : Proposes S t current record) :
    record.holderId = t.holderId ∧ record.nodeId = t.nodeId ∧ t.request ≠ .currentOwner := by
  rcases h with ⟨⟨_, hrequest⟩, rfl, -⟩ | ⟨⟨_, hrequest⟩, stored, -, -, -, rfl⟩
  · exact ⟨rfl, rfl, by simp [hrequest]⟩
  · exact ⟨rfl, rfl, by simp [hrequest]⟩

end Sound

/-! ### Steps -/

/-- In the beginning nothing is stored, nothing is known and no task runs. -/
theorem World.Sound.initial : World.initial.Sound S where
  log e rest h := absurd (List.suffix_nil.mp h) (List.cons_ne_nil _ _)
  store := rfl
  tasks t ht := by cases ht
  directories holderId :=
    { leases := fun lease hlease => hlease.elim (fun h => by cases h) (fun h => by cases h)
      observed := fun entry hentry => by cases hentry }

/-- A world stays sound if a task is replaced by a sound one. -/
theorem World.Sound.setTask (h : w.Sound S) {i : Nat} {t : Task} (ht : t.Sound S w.now w.log) :
    (w.setTask i t).Sound S where
  log := h.log
  store := h.store
  tasks t' ht' := by
    rcases List.mem_or_eq_of_mem_set ht' with ht' | rfl
    · exact h.tasks t' ht'
    · exact ht
  directories := h.directories

theorem World.Sound.addTasks (h : w.Sound S) {ts : List Task}
    (hts : ∀ t ∈ ts, t.Sound S w.now w.log) : (w.addTasks ts).Sound S where
  log := h.log
  store := h.store
  tasks t ht := (List.mem_append.mp ht).elim (h.tasks t) (hts t)
  directories := h.directories

/-- A world stays sound if a directory is replaced by a sound one. -/
theorem World.Sound.setDirectory (h : w.Sound S) {holderId : String} {d : Directory}
    (hd : d.Sound w.now w.log holderId) : (w.setDirectory holderId d).Sound S where
  log := h.log
  store := h.store
  tasks := h.tasks
  directories holderId' := by
    by_cases heq : holderId' = holderId
    · subst heq
      simpa only [World.setDirectory, Function.update_self] using hd
    · simpa only [World.setDirectory, Function.update_of_ne heq] using h.directories holderId'

/-- A write that is accepted puts its entry on the log. What the others know
survives, since it is about the past. -/
theorem World.Sound.commit (h : w.Sound S) {record : WriterLeaseRecord} {startedAt : Nat}
    (hfollows : Follows S ⟨record, startedAt, w.now⟩ w.log) :
    (w.commit S record startedAt).Sound S where
  log := h.log.cons hfollows le_rfl
  store := rfl
  tasks t ht := (h.tasks t ht).mono le_rfl (List.suffix_cons _ _)
  directories holderId := (h.directories holderId).mono le_rfl (List.suffix_cons _ _)

/-- A conditional write, accepted or refused, lost or not, keeps the world
sound. If it is accepted, what the task has read is still what is stored. -/
theorem World.Sound.put (h : w.Sound S) {i left startedAt : Nat} {t : Task}
    {current : Option StoredWriterLease} {record : WriterLeaseRecord} {fault : Fault}
    (ht : t ∈ w.tasks) (hprogress : t.progress = .writing left current record startedAt) :
    (w.put S i t left current record startedAt fault).Sound S := by
  have hsound := h.tasks t ht
  unfold Task.Sound at hsound
  rw [hprogress] at hsound
  obtain ⟨hread, hstarted, hproposes⟩ := hsound
  unfold World.put
  dsimp only
  split
  · rename_i hpermits
    obtain rfl := h.current_eq (fun stored hstored => (hread stored hstored).imp fun _ he => he.1)
      hpermits.1
    refine (h.commit (hproposes.follows h.log hread hstarted)).setTask fun _ => ?_
    exact ⟨_, List.mem_cons_self, rfl, rfl, hproposes.owner⟩
  · rename_i hpermits
    refine h.setTask fun hanswer => ?_
    -- An answer `ok` takes the permission, so the write took effect.
    have hnot : fault.answer (w.permits current) ≠ .ok := by
      intro hok
      cases fault with
      | none =>
          cases hpermit : w.permits current with
          | true => exact hpermits ⟨hpermit, by simp⟩
          | false => rw [hpermit] at hok; cases hok
      | refused => cases hok
      | lost => cases hok
      | repeated => cases hok
    exact absurd hanswer hnot

/-- What a conditional write does, where the store has conditional updates. -/
theorem step_put (hS : S.conditionalUpdates = true) {i : Nat} {fault : Fault}
    (hstep : step S w (.put i fault) = some w') :
    ∃ t left current record startedAt, t ∈ w.tasks ∧
      t.progress = .writing left current record startedAt ∧
      w' = w.put S i t left current record startedAt fault := by
  obtain ⟨t, ht, hrest⟩ := Option.bind_eq_some_iff.mp hstep
  split at hrest
  · rename_i left current record startedAt hprogress
    rw [if_pos (by rw [hS, Bool.true_or])] at hrest
    cases hrest
    exact ⟨t, left, current, record, startedAt, List.mem_of_getElem? ht, hprogress, rfl⟩
  · cases hrest

/-- Over a store with conditional updates no task has come to the writes
without a condition. -/
theorem World.Sound.conditional (hS : S.conditionalUpdates = true) (h : w.Sound S) {t : Task}
    (ht : t ∈ w.tasks) : t.progress ≠ .deleting ∧
      ∀ left record startedAt, t.progress ≠ .overwriting left record startedAt := by
  have hsound := h.tasks t ht
  unfold Task.Sound at hsound
  constructor
  · intro hprogress
    rw [hprogress] at hsound
    exact absurd (hS.symm.trans hsound) (by decide)
  · intro left record startedAt hprogress
    rw [hprogress] at hsound
    exact absurd (hS.symm.trans hsound) (by decide)

/-- So no task overwrites the lease without a condition. -/
theorem step_overwrite (hS : S.conditionalUpdates = true) (h : w.Sound S) (i : Nat) (fault : Fault) :
    step S w (.overwrite i fault) = none := by
  refine Option.bind_eq_none_iff.mpr fun t ht => ?_
  split
  · rename_i hprogress
    exact absurd hprogress ((h.conditional hS (List.mem_of_getElem? ht)).2 _ _ _)
  · rfl

/-- Nor does one delete it. -/
theorem step_delete (hS : S.conditionalUpdates = true) (h : w.Sound S) (i : Nat) (fault : Fault) :
    step S w (.delete i fault) = none := by
  refine Option.bind_eq_none_iff.mpr fun t ht => ?_
  split
  · rename_i hprogress
    exact absurd hprogress (h.conditional hS (List.mem_of_getElem? ht)).1
  · rfl

/-- Every event keeps the world sound. The cases are the events, and each is one
of the lemmas before. -/
theorem World.Sound.step (hS : S.conditionalUpdates = true) (h : w.Sound S) {event : Event}
    (hstep : step S w event = some w') : w'.Sound S := by
  cases event with
  | advance nanos =>
      cases hstep
      exact
        { log := h.log.mono (Nat.le_add_right _ _)
          store := h.store
          tasks := fun t ht => (h.tasks t ht).mono (Nat.le_add_right _ _) List.suffix_rfl
          directories := fun holderId =>
            (h.directories holderId).mono (Nat.le_add_right _ _) List.suffix_rfl }
  | call holderId call =>
      cases hstep
      obtain ⟨hdirectory, htasks⟩ := Call.run_sound (S := S) call (h.directories holderId)
      exact (h.setDirectory hdirectory).addTasks fun t ht => htasks t (Option.mem_toList.mp ht)
  | ask i ask =>
      obtain ⟨t, ht, hrest⟩ := Option.bind_eq_some_iff.mp hstep
      obtain ⟨t', ht', rfl⟩ := Option.map_eq_some_iff.mp hrest
      rw [h.store] at ht'
      exact h.setTask (Task.hear_sound h.log (h.tasks t (List.mem_of_getElem? ht)) ht')
  | put i fault =>
      obtain ⟨t, left, current, record, startedAt, ht, hprogress, rfl⟩ := step_put hS hstep
      exact h.put ht hprogress
  | overwrite i fault =>
      rw [step_overwrite hS h] at hstep
      cases hstep
  | delete i fault =>
      rw [step_delete hS h] at hstep
      cases hstep
  | resume i =>
      obtain ⟨t, ht, hrest⟩ := Option.bind_eq_some_iff.mp hstep
      obtain ⟨resumed, hresumed, rfl⟩ := Option.map_eq_some_iff.mp hrest
      obtain ⟨hdirectory, htask⟩ := Task.resume_sound h.log (h.directories t.holderId)
        (h.tasks t (List.mem_of_getElem? ht)) hresumed
      exact (h.setDirectory hdirectory).setTask htask

/-- Every world of a run is sound. By induction on the run, with the step lemma. -/
theorem sound_of_reaches (hS : S.conditionalUpdates = true) {calm : World → Prop}
    (h : Machine.Reaches (step S) calm .initial w) : w.Sound S :=
  h.invariant (fun w => w.Sound S) .initial fun _ _ _ _ hsound hstep _ => hsound.step hS hstep

/-! ### What is stored can be read -/

/-- An acquisition that is under way passed the check of its names. -/
def Task.Named (t : Task) : Prop :=
  (∃ forceRenew, t.request = .acquire forceRenew) → t.progress.isFinished = false →
    isComponent t.nodeId = true ∧ isComponent t.holderId = true

/-- The names of the tasks under way and the records written so far are well formed. -/
structure World.Readable (w : World) : Prop where
  tasks : ∀ t ∈ w.tasks, t.Named
  log : ∀ e ∈ w.log, e.record.WellFormed

section Readable

variable {t t' : Task} {d : Directory} {holderId : String}

/-- A task keeps its names while it goes on. -/
theorem Task.Named.continues (h : t.Named) (hcontinues : t.Continues t')
    (hactive : t.progress.isFinished = false) : t'.Named := by
  rintro ⟨forceRenew, hrequest⟩ -
  rw [hcontinues.node, hcontinues.holder]
  refine h ?_ hactive
  rcases hcontinues.request with heq | ⟨-, generations, hrelease⟩
  · exact ⟨forceRenew, heq ▸ hrequest⟩
  · rw [hrelease] at hrequest
    cases hrequest

theorem Task.hear_continues {ask : Ask} {store : Option StoredWriterLease}
    (h : t.hear now store ask = some t') : t.Continues t' ∧ t.progress.isFinished = false := by
  unfold Task.hear at h
  cases ask with
  | get =>
      dsimp only at h
      split at h
      · rename_i left hprogress
        cases h
        exact ⟨Task.continues_progress _, by rw [hprogress]; rfl⟩
      · cases h
  | probe =>
      dsimp only at h
      split at h
      · rename_i left stored askedAt hprogress
        cases h
        exact ⟨Task.continues_progress _, by rw [hprogress]; rfl⟩
      · cases h
  | fail =>
      dsimp only at h
      split at h
      · rename_i left hprogress
        cases h
        exact ⟨Task.fail_continues, by rw [hprogress]; rfl⟩
      · rename_i left stored askedAt hprogress
        cases h
        exact ⟨Task.fail_continues, by rw [hprogress]; rfl⟩
      · cases h
  | cancel =>
      dsimp only at h
      split at h
      · cases h
      · rename_i hactive
        cases h
        exact ⟨Task.continues_progress _, Bool.eq_false_iff.mpr hactive⟩

theorem Task.resume_continues {resumed : Directory × Task} (h : t.resume S now d = some resumed) :
    t.Continues resumed.2 ∧ t.progress.isFinished = false := by
  unfold Task.resume at h
  cases hprogress : t.progress with
  | got left current =>
      rw [hprogress] at h
      cases h
      refine ⟨?_, rfl⟩
      rcases Task.afterGet_cases S now d t left current with ⟨stored, -, heq⟩ | ⟨remainingMs, heq, -⟩
      · rw [heq]
        exact Task.continues_progress _
      · rw [heq]
        exact (Task.choose_cases S now d t left current remainingMs).1
  | probed left stored askedAt stampedAt =>
      rw [hprogress] at h
      cases h
      exact ⟨(Task.choose_cases S now _ t left (some stored) _).1, rfl⟩
  | answered left record startedAt answer =>
      rw [hprogress] at h
      cases h
      exact ⟨(Task.afterPut_cases S now d t left record startedAt answer).1, rfl⟩
  | accepted record startedAt =>
      rw [hprogress] at h
      cases h
      refine ⟨?_, rfl⟩
      unfold Task.afterAccept
      split
      · exact Task.continues_progress _
      · exact Task.continues_progress _
  | reading left => rw [hprogress] at h; cases h
  | probing left stored askedAt => rw [hprogress] at h; cases h
  | writing left current record startedAt => rw [hprogress] at h; cases h
  | overwriting left record startedAt => rw [hprogress] at h; cases h
  | deleting => rw [hprogress] at h; cases h
  | finished reply => rw [hprogress] at h; cases h

theorem Task.begin_named (forceRenew : Bool) : (t.begin S now d forceRenew).2.Named := by
  have hfinished (reply : Reply) : (t.finish reply).Named := fun _ hactive => by cases hactive
  unfold Task.begin
  dsimp only
  split
  · exact hfinished _
  · rename_i hvalid
    have hread (left : Nat) : Task.Named { t with progress := .reading left } := by
      intro _ _
      obtain ⟨_, hnode, hholder⟩ := Fallible.bind_eq_ok hvalid
      exact ⟨validateComponent_eq_ok_iff.mp hnode, validateComponent_eq_ok_iff.mp hholder⟩
    split
    · split
      · exact hread _
      · exact hfinished _
    · split
      · split
        · exact hfinished _
        · exact hread _
      · exact hread _

theorem releaseTask_named {nodeId : String} {leases : List LocalWriterLease}
    (h : t ∈ releaseTask holderId nodeId leases) : t.Named := by
  obtain ⟨-, heq⟩ := Option.ite_none_left_eq_some.mp h
  cases heq
  rintro ⟨forceRenew, hrequest⟩
  cases hrequest

theorem Call.run_named {call : Call} (h : t ∈ (call.run S now holderId d).2) : t.Named := by
  cases call with
  | releaseScope nodeId =>
      dsimp only [Call.run] at h
      split at h
      · exact releaseTask_named h
      · cases h
  | releaseCell nodeId => exact releaseTask_named h
  | acquireOrRenew nodeId forceRenew =>
      cases h
      exact Task.begin_named forceRenew
  | currentOwner =>
      cases h
      rintro ⟨forceRenew, hrequest⟩
      cases hrequest
  | forget => cases h
  | registerScope nodeId => cases h
  | abandonScope nodeId => cases h
  | holdsAbandonedLocal nodeId => cases h
  | ownershipLost nodeId => cases h

theorem saturatingSucc_pos (n : Nat) : 0 < saturatingSucc n ∧ saturatingSucc n ≤ u64Max := by
  unfold saturatingSucc u64Max
  omega

/-- What is proposed over a well-formed record is well formed. -/
theorem Proposes.wellFormed {current : Option StoredWriterLease} {record : WriterLeaseRecord}
    (hproposes : Proposes S t current record) (hnamed : t.Named)
    (hactive : t.progress.isFinished = false)
    (hcurrent : ∀ stored ∈ current, stored.record.WellFormed) : record.WellFormed := by
  rcases hproposes with ⟨hacquire, rfl, hduration⟩ | ⟨-, stored, hstored, hholder, hnode, rfl⟩
  · obtain ⟨hnode, hholder⟩ := hnamed hacquire hactive
    have hpositive : 0 < S.leaseDuration t.holderId / nanosPerMilli := by
      unfold Setting.leaseDuration nanosPerMilli
      omega
    cases current with
    | none =>
        exact ⟨hnode, hholder, ⟨Nat.one_pos, (by decide : 1 ≤ u64Max)⟩,
          ⟨Nat.one_pos, (by decide : 1 ≤ u64Max)⟩, hpositive, hduration⟩
    | some stored =>
        refine ⟨hnode, hholder, ?_, saturatingSucc_pos _, hpositive, hduration⟩
        dsimp only [leaseRecord, Option.map_some, Option.getD_some]
        split
        · exact (hcurrent stored rfl).generation
        · exact saturatingSucc_pos _
  · have hstored' := hcurrent stored hstored
    exact ⟨hnode ▸ hstored'.node, hholder ▸ hstored'.holder, hstored'.generation,
      saturatingSucc_pos _, hstored'.duration⟩

end Readable

theorem World.Readable.initial : World.initial.Readable where
  tasks t ht := by cases ht
  log e he := by cases he

/-- Every event keeps the stored lease readable. Only an accepted write changes
it, and what is proposed is well formed. -/
theorem World.Readable.step (hS : S.conditionalUpdates = true) (h : w.Readable)
    (hsound : w.Sound S) {event : Event} (hstep : step S w event = some w') : w'.Readable := by
  have hset {i : Nat} {t : Task} (ht : t.Named) : ∀ t' ∈ w.tasks.set i t, t'.Named := by
    intro t' ht'
    rcases List.mem_or_eq_of_mem_set ht' with hold | rfl
    · exact h.tasks t' hold
    · exact ht
  cases event with
  | advance nanos =>
      cases hstep
      exact ⟨h.tasks, h.log⟩
  | call holderId call =>
      cases hstep
      refine ⟨fun t ht => ?_, h.log⟩
      rcases List.mem_append.mp ht with hold | hnew
      · exact h.tasks t hold
      · exact Call.run_named (Option.mem_toList.mp hnew)
  | ask i ask =>
      obtain ⟨t, ht, hrest⟩ := Option.bind_eq_some_iff.mp hstep
      obtain ⟨t', ht', rfl⟩ := Option.map_eq_some_iff.mp hrest
      obtain ⟨hcontinues, hactive⟩ := Task.hear_continues ht'
      exact ⟨hset ((h.tasks t (List.mem_of_getElem? ht)).continues hcontinues hactive), h.log⟩
  | put i fault =>
      obtain ⟨t, left, current, record, startedAt, hmem, hprogress, rfl⟩ := step_put hS hstep
      have hactive : t.progress.isFinished = false := by rw [hprogress]; rfl
      have hnamed (progress : Progress) : Task.Named { t with progress := progress } :=
        (h.tasks t hmem).continues (Task.continues_progress progress) hactive
      unfold World.put
      dsimp only
      split
      · refine ⟨hset (hnamed _), List.forall_mem_cons.mpr ⟨?_, h.log⟩⟩
        have htask := hsound.tasks t hmem
        unfold Task.Sound at htask
        rw [hprogress] at htask
        obtain ⟨hread, -, hproposes⟩ := htask
        refine hproposes.wellFormed (h.tasks t hmem) hactive fun stored hstored => ?_
        obtain ⟨e, he, -⟩ := hread stored hstored
        exact he.record ▸ h.log e he.mem
      · exact ⟨hset (hnamed _), h.log⟩
  | overwrite i fault =>
      rw [step_overwrite hS hsound] at hstep
      cases hstep
  | delete i fault =>
      rw [step_delete hS hsound] at hstep
      cases hstep
  | resume i =>
      obtain ⟨t, ht, hrest⟩ := Option.bind_eq_some_iff.mp hstep
      obtain ⟨resumed, hresumed, rfl⟩ := Option.map_eq_some_iff.mp hrest
      obtain ⟨hcontinues, hactive⟩ := Task.resume_continues hresumed
      exact ⟨hset ((h.tasks t (List.mem_of_getElem? ht)).continues hcontinues hactive), h.log⟩

/-- The text that stands for the record in the store is decoded as the record. -/
theorem stored_decodes (hS : S.conditionalUpdates = true) {calm : World → Prop}
    (hrun : Machine.Reaches (step S) calm .initial w) {stored : StoredWriterLease}
    (hstored : w.store = some stored) (path : String) :
    decodeWriterLease path stored.record.text = .ok stored.record := by
  obtain ⟨hsound, hreadable⟩ : w.Sound S ∧ w.Readable :=
    hrun.invariant (fun w => w.Sound S ∧ w.Readable)
      ⟨.initial, .initial⟩ fun _ _ _ _ hinv hstep _ =>
        ⟨hinv.1.step hS hstep, hinv.2.step hS hinv.1 hstep⟩
  rw [hsound.store] at hstored
  cases hlog : w.log with
  | nil =>
      rw [hlog] at hstored
      cases hstored
  | cons e rest =>
      rw [hlog] at hstored
      cases hstored
      exact decodeWriterLease_text (hreadable.log e (hlog ▸ List.mem_cons_self))

/-! ### Fencing tokens -/

/-- Leases of five seconds, and a store whose clock shows milliseconds. -/
def fiveSeconds : Setting := ⟨fun _ => 5000000000, fun nanos => (nanos / 1000000 : Nat), true⟩

/-- A task reads, writes and takes its lease. -/
def acquires (i : Nat) : List Event :=
  [.ask i .get, .resume i, .put i .none, .resume i, .resume i]

def firstAcquires : List Event := .call "p" (.acquireOrRenew "a" false) :: acquires 0

/-- **A generation has one owner.** In any run over a store with conditional
writes, two requests that were given one generation are of the same process and
the same node, as long as generations do not saturate. So a generation can fence
the writes of its owner: whoever takes the cell over has another one. Over a
store without conditional updates this fails, see `generation_reused`. -/
theorem generation_owner (hS : S.conditionalUpdates = true) {t t' : Task} {generation : Nat}
    (hrun : Machine.Reaches (step S) (fun _ => True) .initial w)
    (ht : t ∈ w.tasks) (ht' : t' ∈ w.tasks) (hlt : generation < u64Max)
    (hgiven : t.progress = .finished (.acquired generation))
    (hgiven' : t'.progress = .finished (.acquired generation)) :
    t.holderId = t'.holderId ∧ t.nodeId = t'.nodeId := by
  have hsound := sound_of_reaches hS hrun
  have htoken : Token w.log t.holderId t.nodeId generation := by
    have hknows := hsound.tasks t ht
    unfold Task.Sound at hknows
    rw [hgiven] at hknows
    exact hknows generation rfl
  have htoken' : Token w.log t'.holderId t'.nodeId generation := by
    have hknows := hsound.tasks t' ht'
    unfold Task.Sound at hknows
    rw [hgiven'] at hknows
    exact hknows generation rfl
  obtain ⟨e, he, hholder, hnode, hgeneration⟩ := htoken
  obtain ⟨e', he', hholder', hnode', hgeneration'⟩ := htoken'
  rw [← hholder, ← hnode, ← hholder', ← hnode']
  exact hsound.log.owner_eq he he' (hgeneration.trans hgeneration'.symm) (hgeneration ▸ hlt)

/-- A process acquires the cell for a scope and renews it at once. -/
def acquiresAndRenews : List Event :=
  .call "p" (.registerScope "a") :: firstAcquires ++
    .call "p" (.acquireOrRenew "a" true) :: acquires 1

/-- A process acquires the cell and renews its lease. Both requests have the
generation of the first. -/
theorem generation_owner_renewal : ∃ w t t',
    Machine.Reaches (step fiveSeconds) (fun _ => True) .initial w ∧ t ∈ w.tasks ∧ t' ∈ w.tasks ∧
      t.request ≠ t'.request ∧ t.holderId = t'.holderId ∧ t.nodeId = t'.nodeId := by
  have hrun : (Machine.runsWithin (step fiveSeconds) (fun _ => true) .initial acquiresAndRenews).map
      (fun w => w.tasks) = some
        [⟨"p", "a", .acquire false, .finished (.acquired 1)⟩,
          ⟨"p", "a", .acquire true, .finished (.acquired 1)⟩] := by decide
  obtain ⟨w, hw, htasks⟩ := Option.map_eq_some_iff.mp hrun
  have hreaches : Machine.Reaches (step fiveSeconds) (fun _ => True) .initial w :=
    Machine.reaches_of_runsWithin (fun _ _ => trivial) hw
  have hfirst : ⟨"p", "a", .acquire false, .finished (.acquired 1)⟩ ∈ w.tasks := by
    rw [htasks]
    exact List.mem_cons_self
  have hsecond : ⟨"p", "a", .acquire true, .finished (.acquired 1)⟩ ∈ w.tasks := by
    rw [htasks]
    exact List.mem_cons_of_mem _ List.mem_cons_self
  exact ⟨w, _, _, hreaches, hfirst, hsecond, by decide,
    generation_owner rfl hreaches hfirst hsecond (by decide) rfl rfl⟩

/-- The same leases over a store without conditional updates. -/
def fiveSecondsLocal : Setting := { fiveSeconds with conditionalUpdates := false }

/-- A process acquires the cell and releases it, which deletes the record; then another process
acquires the cell. -/
def releasesAndAcquires : List Event :=
  firstAcquires ++
    [.call "p" (.releaseCell "a"), .ask 1 .get, .resume 1, .put 1 .none, .delete 1 .none] ++
    .call "q" (.acquireOrRenew "b" false) :: acquires 2

/-- Where a release deletes the record, generations start again from one. -/
theorem generation_reused : ∃ w t t',
    Machine.Reaches (step fiveSecondsLocal) (fun _ => True) .initial w ∧ t ∈ w.tasks ∧ t' ∈ w.tasks ∧
      t.progress = .finished (.acquired 1) ∧ t'.progress = .finished (.acquired 1) ∧
      t.holderId ≠ t'.holderId := by
  have hrun : (Machine.runsWithin (step fiveSecondsLocal) (fun _ => True) .initial
      releasesAndAcquires).map (fun w => w.tasks) = some
        [⟨"p", "a", .acquire false, .finished (.acquired 1)⟩,
          ⟨"p", "a", .release [1], .finished .released⟩,
          ⟨"q", "b", .acquire false, .finished (.acquired 1)⟩] := by decide
  obtain ⟨w, hw, htasks⟩ := Option.map_eq_some_iff.mp hrun
  refine ⟨w, _, _, Machine.reaches_of_runsWithin (fun _ _ => trivial) hw,
    htasks ▸ List.mem_cons_self, htasks ▸ List.mem_cons_of_mem _ (List.mem_cons_of_mem _
      List.mem_cons_self), rfl, rfl, by decide⟩

end ContextMemory.Lease
