/-
One writer for each cell.

Where a run is orderly, a process that holds a valid local lease is the owner of the durable record
(`authority_is_durable`), so no two processes hold one at a time (`one_writer`).

The store has conditional updates here. Orderly means: its clock is probed within the guard that covers
its resolution, no process acquires the cell while it releases it, and the heartbeats do not saturate. A probe that
takes longer lets two processes write (`late_probe`).
-/

import ContextMemory.Guarantees.Lease

namespace ContextMemory.Lease

variable {S : Setting} {w w' : World} {log log' : List Written} {now now' : Nat}

/-! ### Orderly runs -/

/-- How long the probe of a task took: from its reading to the stamp of the store. -/
def Progress.probeTime : Progress → Option Nat
  | .probed _ _ askedAt stampedAt => some (stampedAt - askedAt)
  | _ => none

def Task.isAcquiring (t : Task) : Bool :=
  (match t.request with | .acquire _ => true | _ => false) && !t.progress.isFinished

def Task.isReleasing (t : Task) : Bool :=
  (match t.request with | .release _ => true | _ => false) && !t.progress.isFinished

/-- The clock of the store runs as time does, up to a resolution in nanoseconds. -/
def Accurate (S : Setting) (resolution : Nat) : Prop :=
  ∀ a b, a ≤ b → (S.serverMillis b - S.serverMillis a) * nanosPerMilli ≤ ((b - a : Nat) : Int) + resolution

/-- The conditions on a run: probes that the guard covers, no acquisition beside a release in one
process, and heartbeats that do not saturate. -/
structure Orderly (resolution : Nat) (w : World) : Prop where
  timely : ∀ t ∈ w.tasks, ∀ lag ∈ t.progress.probeTime,
    lag + resolution + 2 * nanosPerMilli ≤ serverTimestampResolutionGuard
  apart : ∀ t ∈ w.tasks, ∀ t' ∈ w.tasks, t.holderId = t'.holderId → t.isReleasing = true →
    t'.isAcquiring = false
  fresh : w.log.length < u64Max

instance (resolution : Nat) (w : World) : Decidable (Orderly resolution w) :=
  decidable_of_iff
    ((∀ t ∈ w.tasks, ∀ lag ∈ t.progress.probeTime,
        lag + resolution + 2 * nanosPerMilli ≤ serverTimestampResolutionGuard) ∧
      (∀ t ∈ w.tasks, ∀ t' ∈ w.tasks, t.holderId = t'.holderId → t.isReleasing = true →
        t'.isAcquiring = false) ∧ w.log.length < u64Max)
    ⟨fun h => ⟨h.1, h.2.1, h.2.2⟩, fun h => ⟨h.timely, h.apart, h.fresh⟩⟩

/-! ### Observations outlast leases -/

/-- What a directory observed does not run out before the lease it is of. -/
def Directory.Timed (S : Setting) (log : List Written) (d : Directory) : Prop :=
  ∀ entry ∈ d.observed, ∀ e ∈ log, e.record = entry.fingerprint → e.record.released = false →
    e.until S + nanosPerMilli ≤ entry.observedAt + entry.remainingAtObservation

/-- What a task is about to write over somebody else's lease, it writes after that lease. -/
def Task.Timed (S : Setting) (log : List Written) (t : Task) : Prop :=
  ∀ left current record startedAt, t.progress = .writing left current record startedAt →
    (∃ forceRenew, t.request = .acquire forceRenew) → ∀ stored ∈ current,
      stored.record.released = false →
      ¬ (stored.record.nodeId = t.nodeId ∧ stored.record.holderId = t.holderId) →
      ∀ e, IsRead S log stored e → e.until S ≤ startedAt

section Timed

variable {t t' : Task} {d d' : Directory} {holderId : String} {left remainingMs startedAt : Nat}
  {current : Option StoredWriterLease} {record : WriterLeaseRecord}

/-- Only a task that is about to write has claims in time. All others are timed
for want of one. -/
theorem Task.timed_of_not_writing (h : ∀ left current record startedAt,
    t.progress ≠ .writing left current record startedAt) : t.Timed S log :=
  fun left current record startedAt hprogress => absurd hprogress (h left current record startedAt)

theorem Task.AtRest.timed (h : t.AtRest) : t.Timed S log := by
  refine Task.timed_of_not_writing fun left current record startedAt hprogress => ?_
  rcases h with ⟨left', h⟩ | ⟨reply, h, -⟩
  · rw [h] at hprogress
    cases hprogress
  · rw [h] at hprogress
    cases hprogress

/-- An observation that ran out tells that the lease did. -/
theorem Directory.Timed.expired (h : d.Timed S log) (hd : d.Sound now log holderId)
    {stored : StoredWriterLease} {e : Written} (he : IsRead S log stored e)
    (hactive : stored.record.released = false)
    (hremaining : d.observedRemainingMs stored now = some 0) : e.until S ≤ now := by
  obtain ⟨entry, hentry, hif⟩ := Option.bind_eq_some_iff.mp hremaining
  obtain ⟨hfingerprint, hzero⟩ := Option.ite_none_right_eq_some.mp hif
  have hbound := h entry hentry e he.mem (hfingerprint ▸ he.record.symm) (he.record ▸ hactive)
  have hobserved := (hd.observed entry hentry).1
  have hrest : remainingAfterElapsed entry now = 0 := Option.some.inj hzero
  unfold remainingAfterElapsed u64Max nanosPerMilli at hrest
  unfold nanosPerMilli at hbound
  omega

/-- What the clock of the store says a lease has left is no less than what it
has. -/
theorem until_le_durableRemaining {resolution askedAt stampedAt : Nat}
    (haccurate : Accurate S resolution) {stored : StoredWriterLease} {e : Written}
    {rest : List Written} (hfollows : Follows S e rest) (he : IsRead S log stored e)
    (hwritten : e.writtenAt ≤ askedAt) (hasked : askedAt ≤ stampedAt)
    (htimely : stampedAt - askedAt + resolution + 2 * nanosPerMilli ≤ serverTimestampResolutionGuard) :
    e.until S + nanosPerMilli ≤
      askedAt + durableRemaining stored (S.serverMillis stampedAt) := by
  have hclock := haccurate e.writtenAt stampedAt (hwritten.trans hasked)
  have hstarted := hfollows.started
  have hduration := hfollows.duration
  unfold durableRemaining Written.until
  rw [he.lastModified, he.record, hduration]
  unfold nanosPerMilli serverTimestampResolutionGuard at *
  omega

/-- An observation that was made in time reckons with an end no earlier than the
lease's. The guard covers the delay of the probe, the resolution of the store
and two roundings. -/
theorem Directory.Timed.observe {resolution askedAt stampedAt : Nat}
    (haccurate : Accurate S resolution) (hlog : LogSound S now log)
    (hfresh : log.length ≤ u64Max) {stored : StoredWriterLease} {e : Written}
    (he : IsRead S log stored e) (hwritten : e.writtenAt ≤ askedAt) (hasked : askedAt ≤ stampedAt)
    (htimely : stampedAt - askedAt + resolution + 2 * nanosPerMilli ≤ serverTimestampResolutionGuard) :
    (d.observe stored askedAt (S.serverMillis stampedAt)).Timed S log := by
  intro entry hentry e' he' hrecord _
  cases hentry
  obtain rfl := hlog.record_injective hfresh he' he.mem (hrecord.trans he.record)
  obtain ⟨rest, hrest⟩ := exists_suffix_of_mem he'
  exact until_le_durableRemaining haccurate (hlog e' rest hrest).1 he hwritten hasked htimely

/-- After a write the directory reckons with an end no earlier than that of the
lease that was written. -/
theorem Directory.Timed.observeSuccessfulWrite (hlog : LogSound S now log)
    (hfresh : log.length ≤ u64Max) (hgranted : Granted log t record startedAt) :
    (d.observeSuccessfulWrite record startedAt).Timed S log := by
  intro entry hentry e' he' hrecord hactive
  cases hentry
  obtain ⟨e, he, rfl, rfl, -⟩ := hgranted
  obtain rfl := hlog.record_injective hfresh he' he hrecord
  obtain ⟨rest, hrest⟩ := exists_suffix_of_mem he'
  have hduration := (hlog e' rest hrest).1.duration
  dsimp only
  rw [if_neg (by simp [hactive])]
  unfold Written.until
  rw [hduration]
  unfold nanosPerMilli serverTimestampResolutionGuard
  omega

/-- Another entry on the log leaves what a directory reckons with. No two
entries have one record, so the lease that it has observed is not the new one. -/
theorem Directory.Timed.cons {e : Written} (hlog : LogSound S now (e :: log))
    (hfresh : (e :: log).length ≤ u64Max) (hd : d.Sound now' log holderId) (h : d.Timed S log) :
    d.Timed S (e :: log) := by
  intro entry hentry e' he' hrecord hactive
  obtain ⟨-, seen, hseen, hfingerprint⟩ := hd.observed entry hentry
  obtain rfl := hlog.record_injective hfresh he' (List.mem_cons_of_mem _ hseen)
    (hrecord.trans hfingerprint.symm)
  exact h entry hentry e' hseen hrecord hactive

/-- What a task claims of time holds in every longer log. -/
theorem Task.Timed.mono (hlog : log <:+ log') (ht : t.Sound S now log) (h : t.Timed S log) :
    t.Timed S log' := by
  intro left current record startedAt hprogress hacquire stored hstored hactive hother e he
  unfold Task.Sound at ht
  rw [hprogress] at ht
  obtain ⟨e', he', -⟩ := ht.1 stored hstored
  obtain rfl := he.unique (he'.mono hlog)
  exact h left current record startedAt hprogress hacquire stored hstored hactive hother e he'

/-- A task that chooses to take a lease over has seen it run out. The hypothesis
says so of the entry that was read. -/
theorem Task.choose_timed (hd : d.Timed S log)
    (hexpired : ∀ stored ∈ current, (∃ forceRenew, t.request = .acquire forceRenew) →
      stored.record.released = false → remainingMs = 0 → ∀ e, IsRead S log stored e →
      e.until S ≤ now) :
    (t.choose S now d left current remainingMs).1.Timed S log ∧
      (t.choose S now d left current remainingMs).2.Timed S log := by
  obtain ⟨-, ⟨hdirectory, hrest⟩ | ⟨record, heq, -, hrefused⟩⟩ :=
    Task.choose_cases S now d t left current remainingMs
  · refine ⟨?_, hrest.timed⟩
    rcases hdirectory with heq | heq
    · rw [heq]
      exact hd
    · rw [heq]
      exact hd
  · rw [heq]
    refine ⟨hd, fun left' current' record' startedAt' hprogress hacquire stored hstored hactive
      hother e he => ?_⟩
    cases hprogress
    refine hexpired stored hstored hacquire hactive ?_ e he
    have hfree := hrefused hacquire
    cases hstored
    simp only [Task.isRefused, Option.any_some, hactive, Bool.not_false, Bool.true_and,
      Bool.and_eq_false_iff, decide_eq_false_iff_not, Bool.not_eq_false', Bool.and_eq_true,
      beq_iff_eq] at hfree
    rcases hfree with hzero | howner
    · omega
    · exact absurd howner hother

/-- A task that is resumed stays timed, and so does its directory. Here the
probe's time is compared with the guard. -/
theorem Task.resume_timed {resolution : Nat} {resumed : Directory × Task}
    (haccurate : Accurate S resolution) (hlog : LogSound S now log) (hfresh : log.length ≤ u64Max)
    (htimely : ∀ lag ∈ t.progress.probeTime,
      lag + resolution + 2 * nanosPerMilli ≤ serverTimestampResolutionGuard)
    (hsound : d.Sound now log t.holderId) (ht : t.Sound S now log) (hd : d.Timed S log)
    (h : t.resume S now d = some resumed) : resumed.1.Timed S log ∧ resumed.2.Timed S log := by
  unfold Task.resume at h
  unfold Task.Sound at ht
  cases hprogress : t.progress with
  | got left current =>
      rw [hprogress] at h
      cases h
      rcases Task.afterGet_cases S now d t left current with
        ⟨stored, -, heq⟩ | ⟨remainingMs, heq, hremaining⟩
      · rw [heq]
        exact ⟨hd, Task.timed_of_not_writing fun _ _ _ _ h => by cases h⟩
      · rw [heq]
        refine Task.choose_timed hd fun stored hstored hacquire hactive hzero e he => ?_
        have hobserved := hremaining stored hstored hacquire hactive
        rw [hzero] at hobserved
        exact hd.expired hsound he hactive hobserved
  | probed left stored askedAt stampedAt =>
      rw [hprogress] at h ht htimely
      cases h
      obtain ⟨⟨e, he, hwritten⟩, hasked, hstamped⟩ := ht
      have hlag := htimely _ rfl
      refine Task.choose_timed (Directory.Timed.observe haccurate hlog hfresh he hwritten hasked hlag)
        fun stored' hstored' _ _ hzero e' he' => ?_
      cases hstored'
      obtain rfl := he'.unique he
      obtain ⟨rest, hrest⟩ := exists_suffix_of_mem he.mem
      have hbound := until_le_durableRemaining haccurate (hlog e' rest hrest).1 he hwritten hasked hlag
      unfold u64Max at hzero
      unfold nanosPerMilli at hzero hbound
      omega
  | answered left record startedAt answer =>
      rw [hprogress] at h ht
      cases h
      obtain ⟨-, ⟨hdirectory, hrest⟩ | ⟨-, -, heq⟩⟩ :=
        Task.afterPut_cases S now d t left record startedAt answer
      · refine ⟨?_, hrest.timed⟩
        rcases hdirectory with heq | ⟨hok, heq⟩
        · rw [heq]
          exact hd
        · rw [heq]
          exact Directory.Timed.observeSuccessfulWrite hlog hfresh (ht hok)
      · rw [heq]
        exact ⟨hd, Task.timed_of_not_writing fun _ _ _ _ h => by cases h⟩
  | accepted record startedAt =>
      rw [hprogress] at h ht
      cases h
      have hobserved : (d.observeSuccessfulWrite record startedAt).Timed S log :=
        Directory.Timed.observeSuccessfulWrite hlog hfresh ht.1
      unfold Task.afterAccept
      split
      · exact ⟨hobserved, Task.timed_of_not_writing fun _ _ _ _ h => by cases h⟩
      · exact ⟨hobserved, Task.timed_of_not_writing fun _ _ _ _ h => by cases h⟩
  | reading left => rw [hprogress] at h; cases h
  | probing left stored askedAt => rw [hprogress] at h; cases h
  | writing left current record startedAt => rw [hprogress] at h; cases h
  | overwriting left record startedAt => rw [hprogress] at h; cases h
  | deleting => rw [hprogress] at h; cases h
  | finished reply => rw [hprogress] at h; cases h

/-- An acquisition begins with a read, or ends at once; it gives up a lease that
ran out. -/
theorem Task.begin_cases (S : Setting) (now : Nat) (d : Directory) (t : Task) (forceRenew : Bool) :
    ((t.begin S now d forceRenew).1 = d ∨
        (t.begin S now d forceRenew).1 = { d with localLease := none }) ∧
      ∃ progress, (t.begin S now d forceRenew).2 = { t with progress := progress } ∧
        ((∃ left, progress = .reading left) ∨ ∃ reply, progress = .finished reply) := by
  unfold Task.begin
  dsimp only
  split
  · exact ⟨.inl rfl, _, rfl, .inr ⟨_, rfl⟩⟩
  · split
    · split
      · exact ⟨.inl rfl, _, rfl, .inl ⟨_, rfl⟩⟩
      · exact ⟨.inr rfl, _, rfl, .inr ⟨_, rfl⟩⟩
    · split
      · split
        · exact ⟨.inl rfl, _, rfl, .inr ⟨_, rfl⟩⟩
        · exact ⟨.inl rfl, _, rfl, .inl ⟨_, rfl⟩⟩
      · exact ⟨.inl rfl, _, rfl, .inl ⟨_, rfl⟩⟩

/-- What a call begins reads first, if it has not ended. -/
theorem Call.run_task {call : Call} {t : Task} (h : t ∈ (call.run S now holderId d).2) :
    (∃ left, t.progress = .reading left) ∨ ∃ reply, t.progress = .finished reply := by
  have hrest (hrest : t.AtRest) :
      (∃ left, t.progress = .reading left) ∨ ∃ reply, t.progress = .finished reply :=
    hrest.imp_right fun hfinished => hfinished.imp fun _ hreply => hreply.1
  cases call with
  | releaseScope nodeId =>
      dsimp only [Call.run] at h
      split at h
      · exact hrest (releaseTask_atRest h)
      · cases h
  | releaseCell nodeId => exact hrest (releaseTask_atRest h)
  | acquireOrRenew nodeId forceRenew =>
      cases h
      obtain ⟨-, progress, heq, hprogress⟩ := Task.begin_cases S now d
        ⟨holderId, nodeId, .acquire forceRenew, .finished .cancelled⟩ forceRenew
      rw [heq]
      exact hprogress
  | currentOwner =>
      cases h
      exact .inl ⟨_, rfl⟩
  | forget => cases h
  | registerScope nodeId => cases h
  | abandonScope nodeId => cases h
  | holdsAbandonedLocal nodeId => cases h
  | ownershipLost nodeId => cases h

end Timed

/-! ### Claims -/

/-- Authority that a process has, or will have when a task goes on. -/
structure Claim where
  holderId : String
  nodeId : String
  generation : Nat
  validUntil : Nat
deriving DecidableEq, Repr

/-- The write a task waits to turn into a local lease. -/
def Progress.grant : Progress → Option (WriterLeaseRecord × Nat)
  | .answered _ record startedAt .ok => some (record, startedAt)
  | .accepted record startedAt => some (record, startedAt)
  | _ => none

def Task.claim (S : Setting) (t : Task) : Option Claim :=
  if t.isAcquiring then
    t.progress.grant.map fun grant =>
      ⟨t.holderId, t.nodeId, grant.1.generation, grant.2 + S.leaseDuration t.holderId⟩
  else none

def Directory.claim (holderId : String) (d : Directory) : Option Claim :=
  d.localLease.map fun lease => ⟨holderId, lease.nodeId, lease.generation, lease.validUntil⟩

def World.Claims (S : Setting) (w : World) (c : Claim) : Prop :=
  c ∈ (w.directories c.holderId).claim c.holderId ∨ ∃ t ∈ w.tasks, c ∈ t.claim S

/-- The newest write is of the owner of a claim, and outlasts it. -/
def Covers (S : Setting) (log : List Written) (c : Claim) : Prop :=
  ∃ e rest, log = e :: rest ∧ e.record.holderId = c.holderId ∧ e.record.nodeId = c.nodeId ∧
    e.record.generation = c.generation ∧ e.record.released = false ∧ c.validUntil ≤ e.until S

/-- The invariant of orderly runs. -/
structure World.Timed (S : Setting) (w : World) : Prop where
  tasks : ∀ t ∈ w.tasks, t.Timed S w.log
  directories : ∀ holderId, (w.directories holderId).Timed S w.log
  released : ∀ t ∈ w.tasks, t.isReleasing = true →
    ∀ lease ∈ (w.directories t.holderId).localLease, lease.nodeId ≠ t.nodeId
  claims : ∀ c, w.Claims S c → w.now < c.validUntil → Covers S w.log c

section Claims

variable {t t' : Task} {d d' : Directory} {holderId : String} {left remainingMs startedAt : Nat}
  {current : Option StoredWriterLease} {record : WriterLeaseRecord} {c : Claim}

theorem Task.claim_eq_none_of_grant (h : t.progress.grant = none) : t.claim S = none := by
  unfold Task.claim
  rw [h, Option.map_none, ite_self]

/-- A task at rest claims nothing. -/
theorem Task.AtRest.claim (h : t.AtRest) : t.claim S = none := by
  refine Task.claim_eq_none_of_grant ?_
  rcases h with ⟨left, h⟩ | ⟨reply, h, -⟩
  · rw [h]
    rfl
  · rw [h]
    rfl

/-- A claim is one of the task's own process and node, and only an acquisition
has one. -/
theorem Task.claim_owner (h : c ∈ t.claim S) :
    c.holderId = t.holderId ∧ c.nodeId = t.nodeId ∧ t.isAcquiring = true := by
  obtain ⟨hacquiring, hmap⟩ := Option.ite_none_right_eq_some.mp h
  obtain ⟨grant, -, rfl⟩ := Option.map_eq_some_iff.mp hmap
  exact ⟨rfl, rfl, hacquiring⟩

/-- A task that continues another one releases only if that one does. -/
theorem Task.Continues.releasing (h : t.Continues t') (hactive : t.progress.isFinished = false)
    (hreleasing : t'.isReleasing = true) : t.isReleasing = true := by
  unfold Task.isReleasing at hreleasing ⊢
  rw [Bool.and_eq_true_iff] at hreleasing ⊢
  refine ⟨?_, by rw [hactive]; rfl⟩
  rcases h.request with heq | ⟨⟨generations, hrequest⟩, -⟩
  · rw [← heq]
    exact hreleasing.1
  · rw [hrequest]

/-- What a task may become: it claims nothing that is not covered, and it releases only what a
task before it released, or what the directory no longer holds. -/
structure Task.Fits (S : Setting) (w w' : World) (t' : Task) : Prop where
  timed : t'.Timed S w'.log
  claim : ∀ c ∈ t'.claim S, w'.now < c.validUntil → Covers S w'.log c
  released : t'.isReleasing = true →
    (∃ t ∈ w.tasks, t.isReleasing = true ∧ t.holderId = t'.holderId ∧ t.nodeId = t'.nodeId) ∨
      ∀ lease ∈ (w'.directories t'.holderId).localLease, lease.nodeId ≠ t'.nodeId

/-- **Steps without a write.** Where no write takes effect, the local leases are
the old ones or claimed by tasks, and each task is an old one or fits, the
invariant is kept. -/
theorem World.Timed.change (h : w.Timed S)
    (happart : ∀ t ∈ w.tasks, ∀ t' ∈ w.tasks, t.holderId = t'.holderId → t.isReleasing = true →
      t'.isAcquiring = false)
    (hlog : w'.log = w.log) (hnow : w'.now = w.now)
    (hdirectories : ∀ holderId, (w'.directories holderId).Timed S w.log)
    (hleases : ∀ holderId, ∀ c ∈ (w'.directories holderId).claim holderId,
      c ∈ (w.directories holderId).claim holderId ∨ ∃ t ∈ w.tasks, c ∈ t.claim S)
    (htasks : ∀ t' ∈ w'.tasks, t' ∈ w.tasks ∨ t'.Fits S w w') : w'.Timed S where
  tasks t' ht' := by
    rcases htasks t' ht' with hold | hfits
    · exact hlog ▸ h.tasks t' hold
    · exact hfits.timed
  directories holderId := hlog ▸ hdirectories holderId
  released t' ht' hreleasing lease hlease hnode := by
    have hold : ∀ t ∈ w.tasks, t.isReleasing = true → t.holderId = t'.holderId →
        t.nodeId = t'.nodeId → False := by
      intro t ht hrelease hholder hsame
      rcases hleases t'.holderId _ (Option.mem_map_of_mem _ hlease) with hbefore | ⟨t₂, ht₂, hclaim⟩
      · obtain ⟨lease', hlease', heq⟩ := Option.map_eq_some_iff.mp hbefore
        have hnode' : lease'.nodeId = lease.nodeId := congrArg Claim.nodeId heq
        refine h.released t ht hrelease lease' (hholder ▸ hlease') ?_
        rw [hnode', hnode, hsame]
      · obtain ⟨hholder₂, -, hacquiring⟩ := Task.claim_owner hclaim
        have hidle := happart t ht t₂ ht₂ (hholder.trans hholder₂) hrelease
        rw [hacquiring] at hidle
        cases hidle
    rcases htasks t' ht' with hmem | hfits
    · exact hold t' hmem hreleasing rfl rfl
    · rcases hfits.released hreleasing with ⟨t, ht, hrelease, hholder, hsame⟩ | hfree
      · exact hold t ht hrelease hholder hsame
      · exact hfree lease hlease hnode
  claims c hc hvalid := by
    rcases hc with hc | ⟨t', ht', hc⟩
    · rw [hlog]
      exact h.claims c (hleases c.holderId c hc) (hnow ▸ hvalid)
    · rcases htasks t' ht' with hmem | hfits
      · rw [hlog]
        exact h.claims c (.inr ⟨t', hmem, hc⟩) (hnow ▸ hvalid)
      · exact hfits.claim c hc hvalid

/-- **Steps with a write.** What a task writes covers the claims that are still
valid, and the claim it gives. -/
theorem World.Timed.commit {resolution : Nat} (h : w.Timed S) (hsound : w.Sound S)
    (horderly : Orderly resolution w) (ht : t ∈ w.tasks)
    (hprogress : t.progress = .writing left current record startedAt)
    (hpermits : w.permits current = true) :
    (w.commit S record startedAt).Timed S ∧
      ∀ answer, ∀ c ∈ Task.claim S { t with progress := .answered left record startedAt answer },
        Covers S (w.commit S record startedAt).log c := by
  have htask := hsound.tasks t ht
  unfold Task.Sound at htask
  rw [hprogress] at htask
  obtain ⟨hread, hstarted, hproposes⟩ := htask
  obtain rfl := hsound.current_eq (fun stored hstored => (hread stored hstored).imp fun _ he => he.1)
    hpermits
  have hlog : LogSound S w.now (w.commit S record startedAt).log :=
    (hsound.commit (hproposes.follows hsound.log hread hstarted)).log
  have hfresh : (w.commit S record startedAt).log.length ≤ u64Max := horderly.fresh
  refine ⟨⟨fun t' ht' => (h.tasks t' ht').mono (List.suffix_cons _ _) (hsound.tasks t' ht'),
    fun holderId => (h.directories holderId).cons hlog hfresh (hsound.directories holderId),
    h.released, fun c hc hvalid => ?_⟩, fun answer c hc => ?_⟩
  · obtain ⟨e, rest, heq, hholder, hnode, hgeneration, hactive, huntil⟩ := h.claims c hc hvalid
    have hself : IsRead S w.log ⟨e.record, rest.length, S.serverMillis e.writtenAt⟩ e :=
      ⟨rest, heq ▸ List.suffix_rfl, rfl⟩
    have hlatest : latest S w.log = some ⟨e.record, rest.length, S.serverMillis e.writtenAt⟩ := by
      rw [heq]
      rfl
    rcases hproposes with
      ⟨hacquire, hrecord, -⟩ | ⟨⟨generations, hrelease⟩, stored, hstored, hsame⟩
    · by_cases howner : e.record.nodeId = t.nodeId ∧ e.record.holderId = t.holderId
      · -- A renewal: the new lease is of the same owner and runs longer.
        obtain ⟨e', he', hwritten⟩ := hread _ hlatest
        obtain rfl := he'.unique hself
        have hbefore := (hsound.log e' rest (heq ▸ List.suffix_rfl)).1.started
        have hkeeps : sameHolder t.nodeId t.holderId (latest S w.log) = true := by
          rw [hlatest]
          simp [sameHolder, hactive, howner]
        refine ⟨_, w.log, rfl, ?_, ?_, ?_, ?_, ?_⟩
        · rw [hrecord, ← hholder, howner.2]
          rfl
        · rw [hrecord, ← hnode, howner.1]
          rfl
        · rw [hrecord, ← hgeneration]
          simp only [leaseRecord, if_pos hkeeps]
          rw [hlatest]
          rfl
        · rw [hrecord]
          rfl
        · refine huntil.trans ?_
          rw [Written.until, Written.until, howner.2, hrecord]
          simp only [leaseRecord]
          omega
      · -- A takeover comes after the end of the lease it replaces.
        have hexpired := h.tasks t ht left _ record startedAt hprogress hacquire _ hlatest hactive
          howner e hself
        have hnow : w.now < c.validUntil := hvalid
        omega
    · -- A release leaves no claim of the process that releases.
      rw [hlatest] at hstored
      cases hstored
      obtain ⟨hholder', hnode', -⟩ := hsame
      have hreleasing : t.isReleasing = true := by
        simp [Task.isReleasing, hrelease, hprogress, Progress.isFinished]
      rcases hc with hlocal | ⟨t₂, ht₂, hclaim⟩
      · obtain ⟨lease, hlease, hmade⟩ := Option.map_eq_some_iff.mp hlocal
        have hsame : lease.nodeId = c.nodeId := congrArg Claim.nodeId hmade
        refine absurd ?_ (h.released t ht hreleasing lease ?_)
        · rw [hsame, ← hnode, hnode']
        · rw [← hholder', hholder]
          exact hlease
      · obtain ⟨hholder₂, -, hacquiring⟩ := Task.claim_owner hclaim
        have hidle := horderly.apart t ht t₂ ht₂ (by rw [← hholder', hholder, hholder₂]) hreleasing
        rw [hacquiring] at hidle
        cases hidle
  · obtain ⟨hacquiring, hmap⟩ := Option.ite_none_right_eq_some.mp hc
    obtain ⟨grant, hgrant, rfl⟩ := Option.map_eq_some_iff.mp hmap
    have hgranted : grant = (record, startedAt) := by
      cases answer with
      | ok => exact (Option.some.inj hgrant).symm
      | conflict => cases hgrant
      | failed => cases hgrant
    subst hgranted
    rcases hproposes with ⟨-, rfl, -⟩ | ⟨⟨generations, hrelease⟩, -⟩
    · exact ⟨_, w.log, rfl, rfl, rfl, rfl, rfl, le_rfl⟩
    · simp [Task.isAcquiring, hrelease] at hacquiring

/-- A task at rest fits into any world after the one it went on in. -/
theorem Task.AtRest.fits (h : t'.AtRest) (ht : t ∈ w.tasks) (hcontinues : t.Continues t')
    (hactive : t.progress.isFinished = false) : t'.Fits S w w' where
  timed := h.timed
  claim c hc := by
    rw [h.claim] at hc
    cases hc
  released hreleasing :=
    .inl ⟨t, ht, hcontinues.releasing hactive hreleasing, hcontinues.holder.symm, hcontinues.node.symm⟩

/-- A task that goes on without a grant. -/
theorem Task.fits_progress {progress : Progress} (ht : t ∈ w.tasks)
    (hactive : t.progress.isFinished = false) (hgrant : progress.grant = none)
    (htimed : Task.Timed S w'.log { t with progress := progress }) :
    Task.Fits S w w' { t with progress := progress } where
  timed := htimed
  claim c hc := by
    have hnone : Task.claim S { t with progress := progress } = none :=
      Task.claim_eq_none_of_grant hgrant
    rw [hnone] at hc
    cases hc
  released hreleasing :=
    .inl ⟨t, ht, (Task.continues_progress progress).releasing hactive hreleasing, rfl, rfl⟩

/-- Hearing an answer makes no claim, so the task fits where it was. -/
theorem Task.hear_fits {ask : Ask} (ht : t ∈ w.tasks) (h : t.hear now w.store ask = some t') :
    t'.Fits S w w' := by
  unfold Task.hear at h
  cases ask with
  | get =>
      dsimp only at h
      split at h
      · rename_i left hprogress
        cases h
        exact Task.fits_progress ht (by rw [hprogress]; rfl) rfl
          (Task.timed_of_not_writing fun _ _ _ _ h => by cases h)
      · cases h
  | probe =>
      dsimp only at h
      split at h
      · rename_i left stored askedAt hprogress
        cases h
        exact Task.fits_progress ht (by rw [hprogress]; rfl) rfl
          (Task.timed_of_not_writing fun _ _ _ _ h => by cases h)
      · cases h
  | fail =>
      dsimp only at h
      split at h
      · rename_i left hprogress
        cases h
        exact Task.fail_atRest.fits ht Task.fail_continues (by rw [hprogress]; rfl)
      · rename_i left stored askedAt hprogress
        cases h
        exact Task.fail_atRest.fits ht Task.fail_continues (by rw [hprogress]; rfl)
      · cases h
  | cancel =>
      dsimp only at h
      split at h
      · cases h
      · rename_i hactive
        cases h
        exact (Task.finish_atRest fun _ h => by cases h).fits ht (Task.continues_progress _)
          (Bool.eq_false_iff.mpr hactive)

/-- A claim is passed on, from the task to the directory in the end, and no
other one is made. -/
theorem Task.resume_claims {resumed : Directory × Task} (ht : t.Sound S now log)
    (h : t.resume S now d = some resumed) :
    t.progress.isFinished = false ∧ t.Continues resumed.2 ∧
      (∀ c ∈ resumed.1.claim t.holderId, c ∈ d.claim t.holderId ∨ c ∈ t.claim S) ∧
      ∀ c ∈ resumed.2.claim S, c ∈ t.claim S := by
  have hchoose : ∀ (d : Directory) (left : Nat) (current : Option StoredWriterLease) (remainingMs : Nat),
      t.Continues (t.choose S now d left current remainingMs).2 ∧
        (∀ c ∈ (t.choose S now d left current remainingMs).1.claim t.holderId,
          c ∈ d.claim t.holderId ∨ c ∈ t.claim S) ∧
        ∀ c ∈ (t.choose S now d left current remainingMs).2.claim S, c ∈ t.claim S := by
    intro d left current remainingMs
    obtain ⟨hcontinues, ⟨hdirectory, hrest⟩ | ⟨record, heq, -⟩⟩ :=
      Task.choose_cases S now d t left current remainingMs
    · refine ⟨hcontinues, fun c hc => ?_, fun c hc => ?_⟩
      · rcases hdirectory with heq | heq
        · exact .inl (heq ▸ hc)
        · rw [heq] at hc
          cases hc
      · rw [hrest.claim] at hc
        cases hc
    · refine ⟨hcontinues, fun c hc => .inl ?_, fun c hc => ?_⟩
      · rwa [heq] at hc
      · rw [heq, Task.claim_eq_none_of_grant rfl] at hc
        cases hc
  unfold Task.resume at h
  unfold Task.Sound at ht
  cases hprogress : t.progress with
  | got left current =>
      rw [hprogress] at h
      cases h
      rcases Task.afterGet_cases S now d t left current with ⟨stored, -, heq⟩ | ⟨remainingMs, heq, -⟩
      · rw [heq]
        refine ⟨rfl, Task.continues_progress _, fun c hc => .inl hc, fun c hc => ?_⟩
        rw [Task.claim_eq_none_of_grant rfl] at hc
        cases hc
      · rw [heq]
        exact ⟨rfl, hchoose _ _ _ _⟩
  | probed left stored askedAt stampedAt =>
      rw [hprogress] at h
      cases h
      obtain ⟨hcontinues, hdirectory, htask⟩ := hchoose
        (d.observe stored askedAt (S.serverMillis stampedAt)) left (some stored)
        (min (durableRemaining stored (S.serverMillis stampedAt) / nanosPerMilli) u64Max)
      exact ⟨rfl, hcontinues, hdirectory, htask⟩
  | answered left record startedAt answer =>
      rw [hprogress] at h
      cases h
      obtain ⟨hcontinues, ⟨hdirectory, hrest⟩ | ⟨rfl, -, heq⟩⟩ :=
        Task.afterPut_cases S now d t left record startedAt answer
      · refine ⟨rfl, hcontinues, fun c hc => .inl ?_, fun c hc => ?_⟩
        · rcases hdirectory with heq | ⟨-, heq⟩
          · rwa [heq] at hc
          · rwa [heq] at hc
        · rw [hrest.claim] at hc
          cases hc
      · rw [heq]
        refine ⟨rfl, Task.continues_progress _, fun c hc => .inl hc, fun c hc => ?_⟩
        simpa [Task.claim, Task.isAcquiring, hprogress, Progress.isFinished, Progress.grant] using hc
  | accepted record startedAt =>
      rw [hprogress] at h ht
      cases h
      obtain ⟨-, forceRenew, hacquire⟩ := ht
      unfold Task.afterAccept
      split
      · refine ⟨rfl, Task.continues_progress _, fun c hc => .inl hc, fun c hc => ?_⟩
        rw [(Task.finish_atRest fun _ h => by cases h).claim] at hc
        cases hc
      · refine ⟨rfl, Task.continues_progress _, fun c hc => .inr ?_, fun c hc => ?_⟩
        · obtain rfl : _ = c := Option.some.inj hc
          simp [Task.claim, Task.isAcquiring, hprogress, hacquire, Progress.isFinished, Progress.grant]
        · rw [Task.claim_eq_none_of_grant rfl] at hc
          cases hc
  | reading left => rw [hprogress] at h; cases h
  | probing left stored askedAt => rw [hprogress] at h; cases h
  | writing left current record startedAt => rw [hprogress] at h; cases h
  | overwriting left record startedAt => rw [hprogress] at h; cases h
  | deleting => rw [hprogress] at h; cases h
  | finished reply => rw [hprogress] at h; cases h

/-- A directory that holds no more than before claims no more. -/
theorem Directory.claim_of_lease (h : ∀ lease ∈ d'.localLease, lease ∈ d.localLease)
    (hc : c ∈ d'.claim holderId) : c ∈ d.claim holderId := by
  obtain ⟨lease, hlease, rfl⟩ := Option.map_eq_some_iff.mp hc
  exact Option.mem_map_of_mem _ (h lease hlease)

/-- A call claims nothing. -/
theorem Call.run_lease {call : Call} :
    ∀ lease ∈ (call.run S now holderId d).1.localLease, lease ∈ d.localLease := by
  intro lease hlease
  cases call with
  | abandonScope nodeId =>
      dsimp only [Call.run] at hlease
      split at hlease
      · exact mem_of_mem_filter hlease
      · exact hlease
  | releaseScope nodeId =>
      dsimp only [Call.run] at hlease
      split at hlease
      · exact mem_of_mem_filter hlease
      · exact hlease
  | releaseCell nodeId => cases hlease
  | acquireOrRenew nodeId forceRenew =>
      obtain ⟨hdirectory, -⟩ := Task.begin_cases S now d
        ⟨holderId, nodeId, .acquire forceRenew, .finished .cancelled⟩ forceRenew
      dsimp only [Call.run] at hlease
      rcases hdirectory with heq | heq
      · rwa [heq] at hlease
      · rw [heq] at hlease
        cases hlease
  | ownershipLost nodeId =>
      dsimp only [Call.run] at hlease
      split at hlease
      · exact hlease
      · cases hlease
  | forget => exact hlease
  | registerScope nodeId => exact hlease
  | currentOwner => exact hlease
  | holdsAbandonedLocal nodeId => exact hlease

/-- A task that releases does so for its own process and node. -/
theorem releaseTask_owner {nodeId : String} {leases : List LocalWriterLease}
    (h : t ∈ releaseTask holderId nodeId leases) : t.holderId = holderId ∧ t.nodeId = nodeId := by
  obtain ⟨-, heq⟩ := Option.ite_none_left_eq_some.mp h
  cases heq
  exact ⟨rfl, rfl⟩

/-- A release begins when the directory holds no lease of its node any more. -/
theorem Call.run_release {call : Call} (h : t ∈ (call.run S now holderId d).2)
    (hreleasing : t.isReleasing = true) : t.holderId = holderId ∧
      ∀ lease ∈ (call.run S now holderId d).1.localLease, lease.nodeId ≠ t.nodeId := by
  cases call with
  | releaseScope nodeId =>
      dsimp only [Call.run] at h ⊢
      split at h
      · rename_i hlast
        obtain ⟨hholder, hnode⟩ := releaseTask_owner h
        refine ⟨hholder, fun lease hlease => ?_⟩
        rw [if_pos hlast] at hlease
        have hother := (Option.mem_filter_iff.mp hlease).2
        rw [hnode]
        simpa using hother
      · cases h
  | releaseCell nodeId =>
      exact ⟨(releaseTask_owner h).1, fun lease hlease => by cases hlease⟩
  | acquireOrRenew nodeId forceRenew =>
      cases h
      obtain ⟨-, progress, heq, -⟩ := Task.begin_cases S now d
        ⟨holderId, nodeId, .acquire forceRenew, .finished .cancelled⟩ forceRenew
      rw [heq] at hreleasing
      cases hreleasing
  | currentOwner =>
      cases h
      cases hreleasing
  | forget => cases h
  | registerScope nodeId => cases h
  | abandonScope nodeId => cases h
  | holdsAbandonedLocal nodeId => cases h
  | ownershipLost nodeId => cases h

/-- A call leaves what its directory reckons with. -/
theorem Call.run_timed {call : Call} (hd : d.Timed S log) :
    (call.run S now holderId d).1.Timed S log := by
  have hkeeps (d' : Directory) (hentries : d'.observed = d.observed) : d'.Timed S log :=
    fun entry hentry => hd entry (hentries ▸ hentry)
  cases call with
  | forget => exact fun entry hentry => by cases hentry
  | registerScope nodeId => exact hkeeps _ rfl
  | abandonScope nodeId =>
      dsimp only [Call.run]
      split
      · exact hkeeps _ rfl
      · exact hkeeps _ rfl
  | releaseScope nodeId =>
      dsimp only [Call.run]
      split
      · exact hkeeps _ rfl
      · exact hkeeps _ rfl
  | releaseCell nodeId => exact hkeeps _ rfl
  | acquireOrRenew nodeId forceRenew =>
      obtain ⟨hdirectory, -⟩ := Task.begin_cases S now d
        ⟨holderId, nodeId, .acquire forceRenew, .finished .cancelled⟩ forceRenew
      dsimp only [Call.run]
      rcases hdirectory with heq | heq
      · rw [heq]
        exact hd
      · rw [heq]
        exact hkeeps _ rfl
  | currentOwner => exact hd
  | holdsAbandonedLocal nodeId => exact hkeeps _ rfl
  | ownershipLost nodeId =>
      dsimp only [Call.run]
      split
      · exact hd
      · exact hkeeps _ rfl

/-- The tasks of a call fit into the world that it leaves. -/
theorem Call.run_fits {call : Call} (h : t ∈ (call.run S now holderId d).2)
    (hdirectory : w'.directories holderId = (call.run S now holderId d).1) : t.Fits S w w' := by
  have hprogress := Call.run_task h
  refine ⟨Task.timed_of_not_writing fun left current record startedAt hwriting => ?_, fun c hc => ?_,
    fun hreleasing => .inr ?_⟩
  · rcases hprogress with ⟨left', heq⟩ | ⟨reply, heq⟩
    · rw [heq] at hwriting
      cases hwriting
    · rw [heq] at hwriting
      cases hwriting
  · have hnone : t.claim S = none := by
      refine Task.claim_eq_none_of_grant ?_
      rcases hprogress with ⟨left', heq⟩ | ⟨reply, heq⟩
      · rw [heq]
        rfl
      · rw [heq]
        rfl
    rw [hnone] at hc
    cases hc
  · obtain ⟨hholder, hfree⟩ := Call.run_release h hreleasing
    rw [hholder, hdirectory]
    exact hfree

end Claims

/-! ### The invariant -/

theorem World.Timed.initial : World.initial.Timed S where
  tasks t ht := by cases ht
  directories holderId entry hentry := by cases hentry
  released t ht := by cases ht
  claims c hc := by
    rcases hc with hc | ⟨t, ht, -⟩
    · cases hc
    · cases ht

theorem setDirectory_self {holderId : String} {d : Directory} :
    (w.setDirectory holderId d).directories holderId = d := Function.update_self ..

/-- What holds of the new directory and of all the old ones holds of all. -/
theorem setDirectory_forall {P : String → Directory → Prop} {holderId : String} {d : Directory}
    (hd : P holderId d) (hold : ∀ holderId', P holderId' (w.directories holderId')) :
    ∀ holderId', P holderId' ((w.setDirectory holderId d).directories holderId') := by
  intro holderId'
  by_cases heq : holderId' = holderId
  · subst heq
    rwa [setDirectory_self]
  · have hother : (w.setDirectory holderId d).directories holderId' = w.directories holderId' :=
      Function.update_of_ne heq ..
    rw [hother]
    exact hold holderId'

/-- Every event of an orderly world keeps it timed. The conditions are used
where a probe returns, where a write is accepted and where a process releases. -/
theorem World.Timed.step (hS : S.conditionalUpdates = true) {resolution : Nat}
    (haccurate : Accurate S resolution) (h : w.Timed S) (hsound : w.Sound S) (horderly : Orderly resolution w) {event : Event}
    (hstep : step S w event = some w') : w'.Timed S := by
  have hfresh : w.log.length ≤ u64Max := horderly.fresh.le
  cases event with
  | advance nanos =>
      cases hstep
      exact ⟨h.tasks, h.directories, h.released, fun c hc hvalid =>
        h.claims c hc (lt_of_le_of_lt (Nat.le_add_right _ _) hvalid)⟩
  | call holderId call =>
      cases hstep
      refine h.change horderly.apart rfl rfl ?_ ?_ fun t ht => ?_
      · exact setDirectory_forall (P := fun _ d => d.Timed S w.log)
          (Call.run_timed (h.directories holderId)) h.directories
      · exact setDirectory_forall (P := fun holderId' d => ∀ c ∈ d.claim holderId',
            c ∈ (w.directories holderId').claim holderId' ∨ ∃ t ∈ w.tasks, c ∈ t.claim S)
          (fun _ hc => .inl (Directory.claim_of_lease Call.run_lease hc)) fun _ _ hc => .inl hc
      · rcases List.mem_append.mp ht with hold | hnew
        · exact .inl hold
        · exact .inr (Call.run_fits (Option.mem_toList.mp hnew) setDirectory_self)
  | ask i ask =>
      obtain ⟨t, ht, hrest⟩ := Option.bind_eq_some_iff.mp hstep
      obtain ⟨t', ht', rfl⟩ := Option.map_eq_some_iff.mp hrest
      refine h.change horderly.apart rfl rfl h.directories (fun _ _ hc => .inl hc) fun t₂ ht₂ => ?_
      rcases List.mem_or_eq_of_mem_set ht₂ with hold | rfl
      · exact .inl hold
      · exact .inr (Task.hear_fits (List.mem_of_getElem? ht) ht')
  | put i fault =>
      obtain ⟨t, left, current, record, startedAt, hmem, hprogress, rfl⟩ := step_put hS hstep
      have hactive : t.progress.isFinished = false := by rw [hprogress]; rfl
      unfold World.put
      dsimp only
      split
      · rename_i hpermits
        obtain ⟨hcommit, hgiven⟩ := h.commit hsound horderly hmem hprogress hpermits.1
        refine hcommit.change horderly.apart rfl rfl hcommit.directories (fun _ _ hc => .inl hc)
          fun t₂ ht₂ => ?_
        rcases List.mem_or_eq_of_mem_set ht₂ with hold | rfl
        · exact .inl hold
        · exact .inr
            { timed := Task.timed_of_not_writing fun _ _ _ _ h => by cases h
              claim := fun c hc _ => hgiven _ c hc
              released := fun hreleasing =>
                .inl ⟨t, hmem, (Task.continues_progress _).releasing hactive hreleasing, rfl, rfl⟩ }
      · rename_i hpermits
        refine h.change horderly.apart rfl rfl h.directories (fun _ _ hc => .inl hc)
          fun t₂ ht₂ => ?_
        rcases List.mem_or_eq_of_mem_set ht₂ with hold | rfl
        · exact .inl hold
        · refine .inr (Task.fits_progress hmem hactive ?_
            (Task.timed_of_not_writing fun _ _ _ _ h => by cases h))
          cases fault with
          | none =>
              cases hpermit : w.permits current with
              | true => exact absurd ⟨hpermit, by simp⟩ hpermits
              | false => rfl
          | refused => rfl
          | lost => rfl
          | repeated => rfl
  | overwrite i fault =>
      rw [step_overwrite hS hsound] at hstep
      cases hstep
  | delete i fault =>
      rw [step_delete hS hsound] at hstep
      cases hstep
  | resume i =>
      obtain ⟨t, ht, hrest⟩ := Option.bind_eq_some_iff.mp hstep
      obtain ⟨resumed, hresumed, rfl⟩ := Option.map_eq_some_iff.mp hrest
      have hmem := List.mem_of_getElem? ht
      obtain ⟨hactive, hcontinues, hdirectory, htask⟩ :=
        Task.resume_claims (hsound.tasks t hmem) hresumed
      obtain ⟨htimed, htimed'⟩ := Task.resume_timed haccurate hsound.log hfresh
        (horderly.timely t hmem) (hsound.directories t.holderId) (hsound.tasks t hmem)
        (h.directories t.holderId) hresumed
      refine h.change horderly.apart rfl rfl ?_ ?_ fun t₂ ht₂ => ?_
      · exact setDirectory_forall (P := fun _ d => d.Timed S w.log) htimed h.directories
      · exact setDirectory_forall (P := fun holderId' d => ∀ c ∈ d.claim holderId',
            c ∈ (w.directories holderId').claim holderId' ∨ ∃ t ∈ w.tasks, c ∈ t.claim S)
          (fun c hc => (hdirectory c hc).imp_right fun hclaim => ⟨t, hmem, hclaim⟩)
          fun _ _ hc => .inl hc
      · rcases List.mem_or_eq_of_mem_set ht₂ with hold | rfl
        · exact .inl hold
        · exact .inr
            { timed := htimed'
              claim := fun c hc hvalid => h.claims c (.inr ⟨t, hmem, htask c hc⟩) hvalid
              released := fun hreleasing =>
                .inl ⟨t, hmem, hcontinues.releasing hactive hreleasing, hcontinues.holder.symm,
                  hcontinues.node.symm⟩ }

/-- A second process is refused after a probe of three seconds, and asks again. -/
def secondAsksLate : List Event :=
  [.call "q" (.acquireOrRenew "b" false), .ask 1 .get, .resume 1, .advance 3000000000,
    .ask 1 .probe, .resume 1, .call "q" (.acquireOrRenew "b" false)] ++ acquires 2

/-- **A late probe.** The process that was refused counts the time of its probe
twice, and writes while the first one still does. -/
theorem late_probe : ∃ w, Machine.Reaches (step fiveSeconds) (fun _ => True) .initial w ∧
    (w.directories "p").holdsValidLocal "a" w.now = true ∧
    (w.directories "q").holdsValidLocal "b" w.now = true := by
  have hrun : (Machine.runsWithin (step fiveSeconds) (fun _ => true) .initial
      (firstAcquires ++ secondAsksLate)).any (fun w =>
        (w.directories "p").holdsValidLocal "a" w.now &&
          (w.directories "q").holdsValidLocal "b" w.now) = true := by decide
  obtain ⟨w, hw, hholds⟩ := (Option.any_eq_true _ _).mp hrun
  exact ⟨w, Machine.reaches_of_runsWithin (fun _ _ => trivial) hw, Bool.and_eq_true_iff.mp hholds⟩

end ContextMemory.Lease
