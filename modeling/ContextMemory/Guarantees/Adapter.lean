/-
What the LongMemEval adapter promises.

The records of an accepted payload are its turns with content, once each, in the order of
session date, source index and turn index. Their ids end in two padded numbers, which no
session id can imitate: read from the right, an id gives back both indices
(`recordId_injective`).
-/

import ContextMemory.Ingestion.LongMemEval
import ContextMemory.Lib.Fallible
import ContextMemory.Lib.Separator

namespace ContextMemory

/-! ### Padded numbers -/

theorem DateTime.toList_pad (width n : Nat) : (DateTime.pad width n).toList =
    List.replicate (width - (toString n).length) '0' ++ Nat.toDigits 10 n := by
  simp only [DateTime.pad, String.toList_append, String.toList_ofList, Nat.toString_eq_repr,
    Nat.toList_repr]

/-- Padding does not change the number that is read. -/
theorem DateTime.pad_injective {width n m : Nat} (h : DateTime.pad width n = DateTime.pad width m) :
    n = m := by
  have hread : ∀ k, Nat.ofDigitChars 10 (DateTime.pad width k).toList 0 = k := by
    intro k
    rw [DateTime.toList_pad, Nat.ofDigitChars_append, Nat.ofDigitChars_replicate_zero, Nat.mul_zero,
      Nat.ofDigitChars_ten_toDigits]
  rw [← hread n, h, hread m]

theorem DateTime.dash_not_mem_pad (width n : Nat) : '-' ∉ (DateTime.pad width n).toList := by
  rw [DateTime.toList_pad, List.mem_append]
  rintro (h | h)
  · exact absurd (List.eq_of_mem_replicate h) (by decide)
  · exact absurd (Nat.isDigit_of_mem_toDigits (by decide) (by decide) h) (by decide)

namespace LongMemEval

/-! ### Record ids -/

def recordId (sourceSessionId : String) (index turnIndex : Nat) : String :=
  sourceSessionId ++ ":source-" ++ DateTime.pad 4 index ++ ":turn-" ++ DateTime.pad 4 turnIndex

/-- Whatever the session ids are, two records with one id are one turn of one
session. -/
theorem recordId_injective {sid sid' : String} {i i' j j' : Nat}
    (h : recordId sid i j = recordId sid' i' j') : sid = sid' ∧ i = i' ∧ j = j' := by
  have hlist := congrArg String.toList h
  have hform : ∀ sid i j, (recordId sid i j).toList =
      ((sid.toList ++ ":source".toList ++ '-' :: (DateTime.pad 4 i).toList) ++ ":turn".toList) ++
        '-' :: (DateTime.pad 4 j).toList := by
    intro sid i j
    simp [recordId]
  rw [hform, hform] at hlist
  obtain ⟨hfront, hturn⟩ := Separator.split_last (DateTime.dash_not_mem_pad 4 j)
    (DateTime.dash_not_mem_pad 4 j') hlist
  obtain ⟨hsession, hsource⟩ := Separator.split_last (DateTime.dash_not_mem_pad 4 i)
    (DateTime.dash_not_mem_pad 4 i') (List.append_cancel_right hfront)
  exact ⟨String.toList_inj.mp (List.append_cancel_right hsession),
    DateTime.pad_injective (String.toList_inj.mp hsource),
    DateTime.pad_injective (String.toList_inj.mp hturn)⟩

/-! ### What an accepted payload holds -/

theorem list_eq_ok {value : Option Json} {fieldName : String} {items : List Json}
    (h : list value fieldName = .ok items) : value = some (.arr items) := by
  unfold list at h
  split at h
  · cases h
    rfl
  · cases h

/-- `payload[fieldName]`, if it is an array. -/
def items (payload : Json) (fieldName : String) : List Json :=
  match payload.get fieldName with
  | some (.arr items) => items
  | _ => []

/-- The turns of a session of the payload. -/
def turnsOf : Json → List Json
  | .arr turns => turns
  | _ => []

def totalTurns (payload : Json) : Nat :=
  ((items payload "haystack_sessions").map fun session => (turnsOf session).length).sum

/-- `payload["haystack_sessions"][i][j]`. -/
def turnAt (payload : Json) (place : Nat × Nat) : Option Json :=
  (items payload "haystack_sessions")[place.1]?.bind fun session => (turnsOf session)[place.2]?

def hasContent (turn : Json) : Bool :=
  match turn.get "content" with
  | some (.str "") => false
  | _ => true

section Payload

variable (strptime : String → Option Int) (payload : Json)

/-- The session stands in the payload under its index, at its parsed date. -/
structure SessionAt (session : ParsedSession) : Prop where
  sessionId : (items payload "haystack_session_ids")[session.index]? =
    some (.str session.sourceSessionId)
  date : (items payload "haystack_dates")[session.index]? = some (.str session.rawDate)
  parsed : strptime session.rawDate = some session.occurredAt.micros
  utc : session.occurredAt.utcOffset = 0
  turns : (items payload "haystack_sessions")[session.index]? = some (.arr session.turns)

/-- The turn comes before the other: by date, then by source index, then by turn index. -/
def Earlier (p q : Nat × Nat) : Prop :=
  ∃ s t, SessionAt strptime payload s ∧ SessionAt strptime payload t ∧ s.index = p.1 ∧
    t.index = q.1 ∧ (s.occurredAt < t.occurredAt ∨ (s.occurredAt = t.occurredAt ∧
      (p.1 < q.1 ∨ (p.1 = q.1 ∧ p.2 < q.2))))

/-- The record is that of the turn. -/
def RecordOf (place : Nat × Nat) (r : ContextRecord) : Prop :=
  ∃ session turn role content, SessionAt strptime payload session ∧ session.index = place.1 ∧
    turnAt payload place = some turn ∧ turn.get "role" = some (.str role.1) ∧
    (role.1 = "user" ∨ role.1 = "assistant") ∧ turn.get "content" = some (.str content.1) ∧
    r = record session place.2 role content

end Payload

section Accepted

variable {strptime : String → Option Int} {payload : Json}

theorem parseSession_eq_ok {index : Nat} {rawSessionId rawDate rawSession : Json}
    {session : ParsedSession}
    (h : parseSession strptime index rawSessionId rawDate rawSession = .ok session) :
    session.index = index ∧ rawSessionId = .str session.sourceSessionId ∧
      rawDate = .str session.rawDate ∧ strptime session.rawDate = some session.occurredAt.micros ∧
      session.occurredAt.utcOffset = 0 ∧ rawSession = .arr session.turns := by
  unfold parseSession at h
  obtain ⟨sid, hsid, h⟩ := Fallible.bind_eq_ok h
  obtain ⟨occurredAt, htime, h⟩ := Fallible.bind_eq_ok h
  obtain ⟨date, hdate, h⟩ := Fallible.bind_eq_ok h
  obtain ⟨turns, hturns, h⟩ := Fallible.bind_eq_ok h
  cases h
  obtain rfl : rawSessionId = .str sid.1 := Option.some.inj (requiredText_eq_ok hsid)
  obtain rfl : rawDate = .str date.1 := Option.some.inj (requiredText_eq_ok hdate)
  obtain rfl : rawSession = .arr turns := Option.some.inj (list_eq_ok hturns)
  unfold parseTimestamp at htime
  dsimp only at htime
  split at htime
  · rename_i micros hmicros
    cases htime
    exact ⟨rfl, rfl, rfl, hmicros, rfl, rfl⟩
  · cases htime

theorem hasContent_empty {turn : Json} (h : turn.get "content" = some (.str "")) :
    hasContent turn = false := by
  simp [hasContent, h]

theorem hasContent_of_ne {turn : Json} {content : String} (h : turn.get "content" = some (.str content))
    (hne : content ≠ "") : hasContent turn = true := by
  rw [hasContent, h]
  split
  · rename_i hempty
    exact absurd (by simpa using hempty) hne
  · rfl

/-- A turn that was adapted: skipped for its empty content, or recorded. -/
theorem adaptTurn_eq_ok {session : ParsedSession} {turnIndex : Nat} {turn : Json}
    {outcome : Option ContextRecord} (h : adaptTurn session turnIndex turn = .ok outcome) :
    (hasContent turn = false ∧ outcome = none) ∨ (hasContent turn = true ∧ ∃ role content,
      turn.get "role" = some (.str role.1) ∧ (role.1 = "user" ∨ role.1 = "assistant") ∧
      turn.get "content" = some (.str content.1) ∧
      outcome = some (record session turnIndex role content)) := by
  unfold adaptTurn at h
  dsimp only at h
  split at h
  · obtain ⟨role, hrole, h⟩ := Fallible.bind_eq_ok h
    have hrole := requiredText_eq_ok hrole
    split at h
    · cases h
    · rename_i hknown
      have hknown : role.1 = "user" ∨ role.1 = "assistant" := by tauto
      split at h
      · rename_i hempty
        cases h
        exact Or.inl ⟨hasContent_empty hempty, rfl⟩
      · obtain ⟨content, hcontent, h⟩ := Fallible.bind_eq_ok h
        cases h
        have hcontent := requiredText_eq_ok hcontent
        exact Or.inr ⟨hasContent_of_ne hcontent content.2, role, content, hrole, hknown, hcontent, rfl⟩
  · cases h

/-- The parsed sessions are those of the arrays, numbered in their order. -/
theorem parseSessions_spec {ids dates sessions : List Json} {parsed : List ParsedSession}
    (hids : ids.length = dates.length) (hdates : dates.length = sessions.length)
    (h : ((ids.zip (dates.zip sessions)).zipIdx.mapM fun session =>
      parseSession strptime session.2 session.1.1 session.1.2.1 session.1.2.2) = .ok parsed) :
    parsed.length = sessions.length ∧ ∀ (k : Nat) (s : ParsedSession), parsed[k]? = some s →
      s.index = k ∧ ids[k]? = some (.str s.sourceSessionId) ∧ dates[k]? = some (.str s.rawDate) ∧
      strptime s.rawDate = some s.occurredAt.micros ∧ s.occurredAt.utcOffset = 0 ∧
      sessions[k]? = some (.arr s.turns) := by
  refine ⟨?_, fun k s hs => ?_⟩
  · rw [Fallible.length_mapM h, List.length_zipIdx, List.length_zip, List.length_zip, hids, hdates,
      Nat.min_self, Nat.min_self]
  · obtain ⟨⟨⟨sid, date, session⟩, index⟩, hx, hparse⟩ := Fallible.getElem?_mapM h hs
    rw [List.getElem?_zipIdx, Option.map_eq_some_iff] at hx
    obtain ⟨raw, hraw, hpair⟩ := hx
    obtain ⟨rfl, hindex⟩ := Prod.mk.inj hpair
    rw [List.getElem?_zip_eq_some, List.getElem?_zip_eq_some] at hraw
    obtain ⟨hsid, hdate, hsession⟩ := hraw
    obtain ⟨rfl, rfl, rfl, hparsed, hutc, rfl⟩ := parseSession_eq_ok hparse
    exact ⟨by omega, hsid, hdate, hparsed, hutc, hsession⟩

/-! ### The loops -/

/-- The turns of the sessions, one after another, with their sessions and indices. -/
def turnsOfSessions (sessions : List ParsedSession) : List (ParsedSession × Json × Nat) :=
  sessions.flatMap fun session => session.turns.zipIdx.map fun turn => (session, turn)

/-- Session index and turn index. -/
def place (x : ParsedSession × Json × Nat) : Nat × Nat := (x.1.index, x.2.2)

/-- The turns that become records. -/
def kept (sessions : List ParsedSession) : List (ParsedSession × Json × Nat) :=
  (turnsOfSessions sessions).filter fun x => hasContent x.2.1

theorem mem_turnsOfSessions {sessions : List ParsedSession} {x : ParsedSession × Json × Nat} :
    x ∈ turnsOfSessions sessions ↔ x.1 ∈ sessions ∧ x.1.turns[x.2.2]? = some x.2.1 := by
  obtain ⟨session, turn, index⟩ := x
  simp only [turnsOfSessions, List.mem_flatMap, List.mem_map, Prod.mk.injEq,
    List.mem_zipIdx_iff_getElem?]
  constructor
  · rintro ⟨s, hs, ⟨t, j⟩, ht, rfl, hturn⟩
    cases hturn
    exact ⟨hs, ht⟩
  · rintro ⟨hs, ht⟩
    exact ⟨session, hs, (turn, index), ht, rfl, rfl⟩

theorem adaptSessions_eq_ok {sessions : List ParsedSession}
    {outcomes : List (List (Option ContextRecord))} (h : sessions.mapM adaptSession = .ok outcomes) :
    List.Forall₂ (fun x o => adaptTurn x.1 x.2.2 x.2.1 = .ok o) (turnsOfSessions sessions)
      outcomes.flatten := by
  have hall := Fallible.mapM_eq_ok h
  clear h
  induction hall with
  | nil => exact .nil
  | @cons session outcome _ _ hhead _ ih =>
      have hturns := Fallible.mapM_eq_ok hhead
      rw [turnsOfSessions, List.flatMap_cons, List.flatten_cons]
      refine List.rel_append ?_ ih
      rw [List.forall₂_map_left_iff]
      exact hturns

/-- The records are those of the turns with content; the others are counted. -/
theorem outcomes_spec {xs : List (ParsedSession × Json × Nat)} {outcomes : List (Option ContextRecord)}
    (h : List.Forall₂ (fun x o => adaptTurn x.1 x.2.2 x.2.1 = .ok o) xs outcomes) :
    List.Forall₂ (fun x r => ∃ role content, x.2.1.get "role" = some (.str role.1) ∧
        (role.1 = "user" ∨ role.1 = "assistant") ∧
        x.2.1.get "content" = some (.str content.1) ∧ r = record x.1 x.2.2 role content)
      (xs.filter fun x => hasContent x.2.1) (outcomes.filterMap id) ∧
    (outcomes.filterMap id).length + outcomes.countP (fun o => o.isNone) = xs.length := by
  induction h with
  | nil => exact ⟨.nil, rfl⟩
  | @cons x o xs outcomes hhead _ ih =>
      obtain ⟨hrecords, hcount⟩ := ih
      rcases adaptTurn_eq_ok hhead with ⟨hempty, rfl⟩ | ⟨hcontent, role, content, hrole, hknown,
        htext, rfl⟩
      · rw [List.filter_cons_of_neg (by simp [hempty]), List.filterMap_cons_none rfl,
          List.countP_cons_of_pos rfl, List.length_cons]
        exact ⟨hrecords, by omega⟩
      · have hrecord : (some (record x.1 x.2.2 role content) :: outcomes).filterMap id =
            record x.1 x.2.2 role content :: outcomes.filterMap id := rfl
        rw [List.filter_cons_of_pos (by exact hcontent), hrecord,
          List.countP_cons_of_neg (by simp), List.length_cons, List.length_cons]
        exact ⟨.cons ⟨role, content, hrole, hknown, htext, rfl⟩ hrecords, by omega⟩

/-! ### The order -/

theorem before_trans (a b c : ParsedSession) (hab : a.before b = true) (hbc : b.before c = true) :
    a.before c = true := by
  simp only [ParsedSession.before, Bool.or_eq_true, Bool.and_eq_true, decide_eq_true_eq,
    DateTime.lt_def, DateTime.le_def] at *
  omega

theorem before_total (a b : ParsedSession) : (a.before b || b.before a) = true := by
  simp only [ParsedSession.before, Bool.or_eq_true, Bool.and_eq_true, decide_eq_true_eq,
    DateTime.lt_def, DateTime.le_def]
  omega

/-- Sessions of different indices are in order by date, and by index on one
date. -/
theorem sorted_before {sessions : List ParsedSession} (hids : (sessions.map (·.index)).Nodup)
    (hutc : ∀ s ∈ sessions, s.occurredAt.utcOffset = 0) :
    (sessions.mergeSort ParsedSession.before).Pairwise fun s t => s.occurredAt < t.occurredAt ∨
      (s.occurredAt = t.occurredAt ∧ s.index < t.index) := by
  have hperm := List.mergeSort_perm sessions ParsedSession.before
  have hnodup : (sessions.mergeSort ParsedSession.before).Pairwise fun s t => s.index ≠ t.index :=
    List.pairwise_map.mp ((hperm.map _).nodup_iff.mpr hids)
  have hsorted := List.pairwise_mergeSort before_trans before_total sessions
  refine (hsorted.and hnodup).imp_of_mem fun {s t} hs ht hst => ?_
  obtain ⟨hbefore, hne⟩ := hst
  simp only [ParsedSession.before, Bool.or_eq_true, Bool.and_eq_true, decide_eq_true_eq] at hbefore
  rcases hbefore with hlt | ⟨hle, hindex⟩
  · exact Or.inl hlt
  · rcases Int.lt_or_eq_of_le hle with hlt | heq
    · exact Or.inl hlt
    · have hs0 := hutc s (hperm.subset hs)
      have ht0 := hutc t (hperm.subset ht)
      exact Or.inr ⟨by rw [show s.occurredAt = ⟨s.occurredAt.micros, s.occurredAt.utcOffset⟩ from rfl,
        heq, hs0, ← ht0], by omega⟩

end Accepted

/-! ### The adapter -/

section Adapter

variable {strptime : String → Option Int} {payload : Json}

/-- What the records of a payload are, and how many turns were skipped: `places` are the turns
with content. -/
structure Lossless (strptime : String → Option Int) (payload : Json) (records : List ContextRecord)
    (skipped : Nat) (places : List (Nat × Nat)) : Prop where
  exact : ∀ p, p ∈ places ↔ ∃ turn, turnAt payload p = some turn ∧ hasContent turn = true
  once : places.Nodup
  ordered : places.Pairwise (Earlier strptime payload)
  recorded : List.Forall₂ (RecordOf strptime payload) places records
  distinct : (records.map (·.recordId)).Nodup
  counted : records.length + skipped = totalTurns payload

/-- The parsed sessions are those of the payload. -/
structure ParsedFrom (strptime : String → Option Int) (payload : Json)
    (parsed : List ParsedSession) : Prop where
  length : parsed.length = (items payload "haystack_sessions").length
  session : ∀ (k : Nat) (s : ParsedSession), parsed[k]? = some s →
    s.index = k ∧ SessionAt strptime payload s

variable {parsed : List ParsedSession}

theorem ParsedFrom.sessionAt (h : ParsedFrom strptime payload parsed) {s : ParsedSession}
    (hs : s ∈ parsed) : SessionAt strptime payload s := by
  obtain ⟨k, hk⟩ := List.mem_iff_getElem?.mp hs
  exact (h.session k s hk).2

theorem ParsedFrom.indices (h : ParsedFrom strptime payload parsed) :
    parsed.map (·.index) = List.range parsed.length := by
  refine List.ext_getElem? fun k => ?_
  rw [List.getElem?_map]
  cases hk : parsed[k]? with
  | none => simpa [eq_comm] using hk
  | some s =>
      obtain ⟨hlt, -⟩ := List.getElem?_eq_some_iff.mp hk
      rw [Option.map_some, (h.session k s hk).1, List.getElem?_range hlt]

theorem ParsedFrom.sessions (h : ParsedFrom strptime payload parsed) :
    items payload "haystack_sessions" = parsed.map fun s => Json.arr s.turns := by
  refine List.ext_getElem? fun k => ?_
  rw [List.getElem?_map]
  cases hk : parsed[k]? with
  | none =>
      rw [List.getElem?_eq_none_iff, h.length] at hk
      rw [Option.map_none, List.getElem?_eq_none_iff]
      exact hk
  | some s =>
      obtain ⟨hindex, hsession⟩ := h.session k s hk
      rw [Option.map_some, ← hindex, hsession.turns]

theorem ParsedFrom.total (h : ParsedFrom strptime payload parsed) :
    totalTurns payload = (parsed.map fun s => s.turns.length).sum := by
  rw [totalTurns, h.sessions, List.map_map]
  rfl

theorem length_turnsOfSessions (sessions : List ParsedSession) :
    (turnsOfSessions sessions).length = (sessions.map fun s => s.turns.length).sum := by
  simp [turnsOfSessions, List.length_flatMap]

theorem SessionAt.turnAt {s : ParsedSession} (h : SessionAt strptime payload s) (j : Nat) :
    LongMemEval.turnAt payload (s.index, j) = s.turns[j]? := by
  rw [LongMemEval.turnAt, h.turns]
  rfl

/-- The places of the kept turns are those with content. -/
theorem ParsedFrom.mem_places (h : ParsedFrom strptime payload parsed) {sorted : List ParsedSession}
    (hperm : sorted.Perm parsed) (p : Nat × Nat) :
    p ∈ (kept sorted).map place ↔ ∃ turn, turnAt payload p = some turn ∧ hasContent turn = true := by
  simp only [kept, List.mem_map, List.mem_filter, mem_turnsOfSessions]
  constructor
  · rintro ⟨⟨s, turn, j⟩, ⟨⟨hs, hturn⟩, hcontent⟩, rfl⟩
    exact ⟨turn, ((h.sessionAt (hperm.subset hs)).turnAt j).trans hturn, hcontent⟩
  · rintro ⟨turn, hturn, hcontent⟩
    obtain ⟨session, hsession, -⟩ := Option.bind_eq_some_iff.mp hturn
    rw [h.sessions, List.getElem?_map, Option.map_eq_some_iff] at hsession
    obtain ⟨s, hs, -⟩ := hsession
    obtain ⟨hindex, hat⟩ := h.session p.1 s hs
    refine ⟨(s, turn, p.2), ⟨⟨hperm.mem_iff.mpr (List.mem_of_getElem? hs), ?_⟩, hcontent⟩, ?_⟩
    · rw [← hat.turnAt, hindex, hturn]
    · rw [place, hindex]

/-- The turns of sorted sessions are in order. -/
theorem ParsedFrom.ordered (h : ParsedFrom strptime payload parsed) :
    ((kept (parsed.mergeSort ParsedSession.before)).map place).Pairwise (Earlier strptime payload) := by
  have hperm := List.mergeSort_perm parsed ParsedSession.before
  have hsorted := sorted_before (h.indices ▸ List.nodup_range) fun s hs => (h.sessionAt hs).utc
  rw [List.pairwise_map, kept]
  refine List.Pairwise.filter _ ?_
  rw [turnsOfSessions, List.pairwise_flatMap]
  refine ⟨fun s hs => ?_, hsorted.imp_of_mem fun {s t} hs ht hst => ?_⟩
  · have hturns : (s.turns.zipIdx).Pairwise fun a b => a.2 < b.2 := by
      rw [← List.pairwise_map (f := Prod.snd) (R := (· < ·)), List.zipIdx_map_snd]
      exact List.pairwise_lt_range'
    have hat := h.sessionAt (hperm.subset hs)
    rw [List.pairwise_map]
    exact hturns.imp fun hlt => ⟨s, s, hat, hat, rfl, rfl, Or.inr ⟨rfl, Or.inr ⟨rfl, hlt⟩⟩⟩
  · intro x hx y hy
    obtain ⟨a, -, rfl⟩ := List.mem_map.mp hx
    obtain ⟨b, -, rfl⟩ := List.mem_map.mp hy
    refine ⟨s, t, h.sessionAt (hperm.subset hs), h.sessionAt (hperm.subset ht), rfl, rfl, ?_⟩
    exact hst.imp_right fun ⟨hdate, hindex⟩ => ⟨hdate, Or.inl hindex⟩

theorem SessionAt.occurredAt_eq {s t : ParsedSession} (hs : SessionAt strptime payload s)
    (ht : SessionAt strptime payload t) (hindex : s.index = t.index) :
    s.occurredAt.micros = t.occurredAt.micros := by
  have hdate := hs.date
  rw [hindex, ht.date, Option.some.injEq, Json.str.injEq] at hdate
  have hparsed := ht.parsed
  rw [hdate, hs.parsed] at hparsed
  exact Option.some.inj hparsed

/-- No turn comes before itself. -/
theorem Earlier.ne {p q : Nat × Nat} (h : Earlier strptime payload p q) : p ≠ q := by
  rintro rfl
  obtain ⟨s, t, hs, ht, hsi, hti, hlt | ⟨-, hlt | ⟨-, hlt⟩⟩⟩ := h
  · rw [DateTime.lt_def, hs.occurredAt_eq ht (hsi.trans hti.symm)] at hlt
    exact Int.lt_irrefl _ hlt
  · exact Nat.lt_irrefl _ hlt
  · exact Nat.lt_irrefl _ hlt

theorem items_of_list {fieldName name : String} {xs : List Json}
    (h : list (payload.get fieldName) name = .ok xs) : items payload fieldName = xs := by
  rw [items, list_eq_ok h]

/-- The ids of the records tell their places apart. -/
theorem nodup_recordIds {records : List ContextRecord} {places : List (Nat × Nat)}
    (hnodup : places.Nodup) (h : List.Forall₂ (RecordOf strptime payload) places records) :
    (records.map (·.recordId)).Nodup := by
  induction h with
  | nil => exact List.nodup_nil
  | @cons p r places records hhead hrest ih =>
      obtain ⟨hfresh, hnodup⟩ := List.nodup_cons.mp hnodup
      rw [List.map_cons, List.nodup_cons]
      refine ⟨fun hmem => ?_, ih hnodup⟩
      obtain ⟨r', hr', hid⟩ := List.mem_map.mp hmem
      obtain ⟨q, hq, hother⟩ := Fallible.exists_of_forall₂ hrest hr'
      obtain ⟨s, _, _, _, -, hs, -, -, -, -, rfl⟩ := hhead
      obtain ⟨t, _, _, _, -, ht, -, -, -, -, rfl⟩ := hother
      obtain ⟨-, hindex, hturn⟩ : t.sourceSessionId = s.sourceSessionId ∧ t.index = s.index ∧
        q.2 = p.2 := recordId_injective hid
      exact hfresh (Prod.ext_iff.mpr ⟨ht ▸ hs ▸ hindex, hturn⟩ ▸ hq)

/-- The loop over the sorted sessions. -/
theorem ParsedFrom.lossless (h : ParsedFrom strptime payload parsed)
    {outcomes : List (List (Option ContextRecord))}
    (hloops : (parsed.mergeSort ParsedSession.before).mapM adaptSession = .ok outcomes) :
    ∃ places, Lossless strptime payload (outcomes.flatten.filterMap id)
      (outcomes.flatten.countP fun o => o.isNone) places := by
  have hperm := List.mergeSort_perm parsed ParsedSession.before
  obtain ⟨hrecords, hcount⟩ := outcomes_spec (adaptSessions_eq_ok hloops)
  have honce := h.ordered.imp Earlier.ne
  have hplaced : List.Forall₂ (RecordOf strptime payload)
      ((kept (parsed.mergeSort ParsedSession.before)).map place)
      (outcomes.flatten.filterMap id) := by
    rw [List.forall₂_map_left_iff]
    obtain ⟨hlength, hzip⟩ := List.forall₂_iff_zip.mp hrecords
    refine List.forall₂_iff_zip.mpr ⟨hlength, fun {x r} hmem => ?_⟩
    obtain ⟨role, content, hrole, hknown, hcontent, hr⟩ := hzip hmem
    have hx := mem_turnsOfSessions.mp (List.mem_of_mem_filter (List.of_mem_zip hmem).1)
    have hat := h.sessionAt (hperm.subset hx.1)
    exact ⟨x.1, x.2.1, role, content, hat, rfl, (hat.turnAt x.2.2).trans hx.2, hrole, hknown, hcontent,
      hr⟩
  refine ⟨_, h.mem_places hperm, honce, h.ordered, hplaced, nodup_recordIds honce hplaced, ?_⟩
  rw [hcount, length_turnsOfSessions, h.total]
  exact (hperm.map _).sum_eq

/-! ### The duplicate check -/

theorem text_ne_duplicate (value : Option Json) (fieldName : String) :
    text value fieldName ≠ .error duplicateRecordId := by
  intro h
  unfold text requiredText at h
  split at h
  · split at h
    · cases h
    · simp [duplicateRecordId] at h
  · simp [duplicateRecordId] at h

theorem list_ne_duplicate (value : Option Json) (fieldName : String) :
    list value fieldName ≠ .error duplicateRecordId := by
  intro h
  unfold list at h
  split at h
  · cases h
  · simp [duplicateRecordId] at h

theorem parseSession_ne_duplicate (index : Nat) (rawSessionId rawDate rawSession : Json) :
    parseSession strptime index rawSessionId rawDate rawSession ≠ .error duplicateRecordId := by
  unfold parseSession
  refine Fallible.bind_ne_error (text_ne_duplicate _ _) fun _ _ => Fallible.bind_ne_error ?_
    fun _ _ => Fallible.bind_ne_error (text_ne_duplicate _ _) fun _ _ =>
      Fallible.bind_ne_error (list_ne_duplicate _ _) fun _ _ => by simp
  intro h
  unfold parseTimestamp at h
  split at h
  · split at h
    · cases h
    · exact absurd (Exn.contractValidation.inj (Except.error.inj h)).2 (by decide)
  · simp [duplicateRecordId] at h

theorem adaptTurn_ne_duplicate (session : ParsedSession) (turnIndex : Nat) (turn : Json) :
    adaptTurn session turnIndex turn ≠ .error duplicateRecordId := by
  unfold adaptTurn
  dsimp only
  split
  · refine Fallible.bind_ne_error (text_ne_duplicate _ _) fun role _ => ?_
    split
    · simp [duplicateRecordId]
    · split
      · simp
      · exact Fallible.bind_ne_error (text_ne_duplicate _ _) fun _ _ => by simp
  · simp [duplicateRecordId]

variable {records : List ContextRecord}

/-- The constructor finds no duplicate where there is none. -/
theorem make_ne_duplicate (ingestionId contextId : String) (source : SourceDescriptor)
    (h : (records.map (·.recordId)).Nodup) :
    ContextBatch.make ingestionId contextId source records ≠ .error duplicateRecordId := by
  unfold ContextBatch.make
  split
  · split
    · split
      · simp
      · simp [duplicateRecordId]
    · simp [duplicateRecordId]
  · simp [duplicateRecordId]

theorem source_ne_duplicate (sourceType sourceExternalId : String) :
    SourceDescriptor.make sourceType sourceExternalId ≠ .error duplicateRecordId := by
  unfold SourceDescriptor.make
  split
  · simp [duplicateRecordId]
  · split
    · simp [duplicateRecordId]
    · simp

/-- The first loop, over the arrays of a payload. -/
theorem parsedFrom_arrays {ids dates sessions : List Json}
    (hids : list (payload.get "haystack_session_ids") "longmemeval.haystack_session_ids" = .ok ids)
    (hdates : list (payload.get "haystack_dates") "longmemeval.haystack_dates" = .ok dates)
    (hsessions : list (payload.get "haystack_sessions") "longmemeval.haystack_sessions" =
      .ok sessions)
    (hlengths : ¬(ids.length ≠ dates.length ∨ dates.length ≠ sessions.length))
    (hparsed : ((ids.zip (dates.zip sessions)).zipIdx.mapM fun session =>
      parseSession strptime session.2 session.1.1 session.1.2.1 session.1.2.2) = .ok parsed) :
    ParsedFrom strptime payload parsed := by
  have hids := items_of_list hids
  have hdates := items_of_list hdates
  have hsessions := items_of_list hsessions
  obtain ⟨hfirst, hsecond⟩ := not_or.mp hlengths
  obtain ⟨hlength, hspec⟩ := parseSessions_spec (not_not.mp hfirst) (not_not.mp hsecond) hparsed
  refine ⟨by rw [hsessions, hlength], fun k s hs => ?_⟩
  obtain ⟨hindex, hsid, hdate, hmicros, hutc, hturns⟩ := hspec k s hs
  subst hindex
  exact ⟨rfl, by rw [hids, hsid], by rw [hdates, hdate], hmicros, hutc, by rw [hsessions, hturns]⟩

/-- **The adapter** loses and duplicates nothing: the records of an accepted
payload are exactly its turns with content, once each and in order, under ids of
their own, and the others are counted. The check for duplicate ids never fires:
the padded numbers at the end of an id are read back from it, whatever the
session id looks like. -/
theorem adapter_lossless (strptime : String → Option Int) (payload : Json) (ingestionId : String) :
    adaptInstance strptime payload ingestionId ≠ .error duplicateRecordId ∧
      ∀ batch, adaptInstance strptime payload ingestionId = .ok batch → ∃ (skipped : Nat) (places : _),
        batch.metadata.lookup "source_empty_turn_count" = some (.scalar (.int skipped)) ∧
        Lossless strptime payload batch.records skipped places := by
  constructor
  · unfold adaptInstance
    refine Fallible.bind_ne_error (text_ne_duplicate _ _) fun questionId _ =>
      Fallible.bind_ne_error (list_ne_duplicate _ _) fun ids hids =>
      Fallible.bind_ne_error (list_ne_duplicate _ _) fun dates hdates =>
      Fallible.bind_ne_error (list_ne_duplicate _ _) fun sessions hsessions => ?_
    split
    · simp [duplicateRecordId]
    rename_i hlengths
    refine Fallible.bind_ne_error
      (Fallible.mapM_ne_error fun _ _ => parseSession_ne_duplicate _ _ _ _) fun parsed hparsed =>
      Fallible.bind_ne_error (Fallible.mapM_ne_error fun _ _ =>
        Fallible.mapM_ne_error fun _ _ => adaptTurn_ne_duplicate _ _ _) fun outcomes hloops => ?_
    obtain ⟨places, hlossless⟩ :=
      (parsedFrom_arrays hids hdates hsessions hlengths hparsed).lossless hloops
    dsimp only
    split
    · simp [duplicateRecordId]
    · exact Fallible.bind_ne_error (text_ne_duplicate _ _) fun _ _ =>
        Fallible.bind_ne_error (source_ne_duplicate _ _) fun _ _ =>
        Fallible.bind_ne_error (make_ne_duplicate _ _ _ hlossless.distinct) fun _ _ => by simp
  · intro batch h
    unfold adaptInstance at h
    obtain ⟨questionId, -, h⟩ := Fallible.bind_eq_ok h
    obtain ⟨ids, hids, h⟩ := Fallible.bind_eq_ok h
    obtain ⟨dates, hdates, h⟩ := Fallible.bind_eq_ok h
    obtain ⟨sessions, hsessions, h⟩ := Fallible.bind_eq_ok h
    split at h
    · cases h
    rename_i hlengths
    obtain ⟨parsed, hparsed, h⟩ := Fallible.bind_eq_ok h
    obtain ⟨outcomes, hloops, h⟩ := Fallible.bind_eq_ok h
    obtain ⟨places, hlossless⟩ :=
      (parsedFrom_arrays hids hdates hsessions hlengths hparsed).lossless hloops
    dsimp only at h
    split at h
    · cases h
    obtain ⟨_, -, h⟩ := Fallible.bind_eq_ok h
    obtain ⟨source, -, h⟩ := Fallible.bind_eq_ok h
    obtain ⟨made, hmade, h⟩ := Fallible.bind_eq_ok h
    cases h
    refine ⟨_, places, rfl, ?_⟩
    rw [(ContextBatch.make_eq_ok hmade).2]
    exact hlossless

end Adapter

/-! ### Two sessions -/

def twoDates (date : String) : Option Int :=
  if date = "2021/05/03 (Mon) 09:02" then some 1620032520000000
  else if date = "2021/05/01 (Sat) 10:00" then some 1619863200000000
  else none

def turnOf (role content : String) : Json := .obj [("role", .str role), ("content", .str content)]

/-- The later session comes first, its id looks like a record id of the other one, and one of its turns
is empty. -/
def twoSessions : Json := .obj [("question_id", .str "q"),
  ("haystack_session_ids", .arr [.str "s:source-0001:turn-0002", .str "s"]),
  ("haystack_dates", .arr [.str "2021/05/03 (Mon) 09:02", .str "2021/05/01 (Sat) 10:00"]),
  ("haystack_sessions", .arr [
    .arr [turnOf "user" "Hello.", turnOf "assistant" "", turnOf "user" "Bye."],
    .arr [turnOf "user" "Hi.", turnOf "assistant" "Hi.", turnOf "user" "So long."]])]

/-- Of two sessions out of order the sort makes two in order. -/
theorem mergeSort_swap {a b : ParsedSession} (h : ParsedSession.before a b = false) :
    [a, b].mergeSort ParsedSession.before = [b, a] := by
  simp [List.mergeSort, h]

def monday : ParsedSession := ⟨{ micros := 1620032520000000 }, 0, "s:source-0001:turn-0002",
  "2021/05/03 (Mon) 09:02", [turnOf "user" "Hello.", turnOf "assistant" "", turnOf "user" "Bye."]⟩

def saturday : ParsedSession := ⟨{ micros := 1619863200000000 }, 1, "s", "2021/05/01 (Sat) 10:00",
  [turnOf "user" "Hi.", turnOf "assistant" "Hi.", turnOf "user" "So long."]⟩

/-- Two sessions that are given out of order, with an empty turn. The records
come in the order of the dates, and no id is given twice although one session is
named like a record of the other. -/
theorem adapter_lossless_two : ∃ batch, adaptInstance twoDates twoSessions "run" = .ok batch ∧
    batch.records.map (·.recordId) =
      ["s:source-0001:turn-0000", "s:source-0001:turn-0001", "s:source-0001:turn-0002",
        "s:source-0001:turn-0002:source-0000:turn-0000",
        "s:source-0001:turn-0002:source-0000:turn-0002"] ∧
    ∃ (skipped : Nat) (places : _),
      batch.metadata.lookup "source_empty_turn_count" = some (.scalar (.int skipped)) ∧
      Lossless twoDates twoSessions batch.records skipped places := by
  have haccepted : ((adaptInstance twoDates twoSessions "run").toOption.map
      fun batch => batch.records.map (·.recordId)) =
        some ["s:source-0001:turn-0000", "s:source-0001:turn-0001", "s:source-0001:turn-0002",
          "s:source-0001:turn-0002:source-0000:turn-0000",
          "s:source-0001:turn-0002:source-0000:turn-0002"] := by
    -- The sort recurs by length and does not reduce: the loop before it is run alone.
    conv =>
      lhs
      arg 2
      arg 1
      whnf
    generalize hsort : List.mergeSort _ _ = sorted
    have hsorted : sorted = [saturday, monday] :=
      hsort.symm.trans (mergeSort_swap (a := monday) (b := saturday) (by decide))
    subst hsorted
    decide +kernel
  cases h : adaptInstance twoDates twoSessions "run" with
  | error e =>
      rw [h] at haccepted
      cases haccepted
  | ok batch =>
      rw [h] at haccepted
      exact ⟨batch, rfl, Option.some.inj haccepted,
        (adapter_lossless twoDates twoSessions "run").2 batch h⟩

end LongMemEval

end ContextMemory
