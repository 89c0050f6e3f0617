/-
The two retry loops as one machine.

Over the outcomes of the calls, in their order, the machine stops at the first call that returns a
response which validates, at the first exception other than a rate limit, at the rate limit that is
one too many in a row, and at the bad response that is one too many in all. The client does what
the machine does, unless the delay before a retry overflows (`retry_machine_iff`).
-/

import ContextMemory.Client.Llm

namespace ContextMemory

/-! ### The machine -/

/-- How the machine stops. -/
inductive Verdict (ρ : Type) where
  | returned (value : ρ)
  | raised (error : ApiError)
  | mismatch

/-- What the caller sees. -/
def Verdict.result {ρ : Type} (name : String) : Verdict ρ → Except Exn ρ
  | .returned value => .ok value
  | .raised error => .error (.provider error.message)
  | .mismatch => .error (.runtimeError ("model response did not match " ++ name))

abbrev Outcomes := Nat → Except ApiError Completion

def isLimited : Except ApiError Completion → Bool
  | .error error => error.rateLimited
  | .ok _ => false

/-- How many rate limits in a row stand directly before a call. -/
def limitedBefore (outcomes : Outcomes) : Nat → Nat
  | 0 => 0
  | n + 1 => if isLimited (outcomes n) then limitedBefore outcomes n + 1 else 0

/-- How many responses stand before a call. -/
def responsesBefore (outcomes : Outcomes) : Nat → Nat
  | 0 => 0
  | n + 1 => responsesBefore outcomes n + (if (outcomes n).isOk then 1 else 0)

section Machine

variable {ρ : Type} (parse : Completion → Except Exn ρ) (maxRetries rateLimitMaxRetries : Nat)
  (outcomes : Outcomes)

/-- The machine stops at a call. -/
def stopAt (n : Nat) : Option (Verdict ρ) :=
  match outcomes n with
  | .ok completion =>
      match parse completion with
      | .ok value => some (.returned value)
      | .error _ => if responsesBefore outcomes n = maxRetries then some .mismatch else none
  | .error error =>
      if error.rateLimited = false ∨ limitedBefore outcomes n = rateLimitMaxRetries then
        some (.raised error)
      else none

/-- The client does what the machine does: it ends at the first call that stops the machine, with
its verdict, after so many calls and at most as many as the two limits allow. -/
def RunsMachine (name : String) (run : Except Exn ρ × Nat) : Prop :=
  ∃ n verdict, stopAt parse maxRetries rateLimitMaxRetries outcomes n = some verdict ∧
    (∀ k < n, stopAt parse maxRetries rateLimitMaxRetries outcomes k = none) ∧
    run = (verdict.result name, n + 1) ∧ n + 1 ≤ (maxRetries + 1) * (rateLimitMaxRetries + 1)

/-- The delay after a call overflows: a rate limit that states no delay, with 1024 others
directly before it, that is to be retried. -/
def OverflowsAt (n : Nat) : Prop :=
  ∃ error, outcomes n = .error error ∧ error.rateLimited = true ∧ error.statesDelay = false ∧
    1024 ≤ limitedBefore outcomes n ∧ limitedBefore outcomes n < rateLimitMaxRetries

end Machine

/-! ### The inner loop -/

section Inner

variable {ρ : Type} {parse : Completion → Except Exn ρ} {maxRetries rateLimitMaxRetries : Nat}
  {outcomes : Outcomes}

/-- What the inner loop did from call `first` to call `last`. -/
structure InnerRun (parse : Completion → Except Exn ρ) (maxRetries rateLimitMaxRetries : Nat)
    (outcomes : Outcomes) (first last : Nat) : Prop where
  le : first ≤ last
  limited : ∀ k, first ≤ k → k < last → isLimited (outcomes k) = true ∧
    stopAt parse maxRetries rateLimitMaxRetries outcomes k = none ∧
    ¬OverflowsAt rateLimitMaxRetries outcomes k

theorem InnerRun.refl (n : Nat) : InnerRun parse maxRetries rateLimitMaxRetries outcomes n n where
  le := Nat.le_refl n
  limited k hle hlt := by omega

theorem InnerRun.cons {first last : Nat}
    (h : InnerRun parse maxRetries rateLimitMaxRetries outcomes (first + 1) last)
    (hlimited : isLimited (outcomes first) = true)
    (hstop : stopAt parse maxRetries rateLimitMaxRetries outcomes first = none)
    (hoverflow : ¬OverflowsAt rateLimitMaxRetries outcomes first) :
    InnerRun parse maxRetries rateLimitMaxRetries outcomes first last where
  le := Nat.le_of_succ_le h.le
  limited k hle hlt := by
    rcases Nat.lt_or_eq_of_le hle with hnext | rfl
    · exact h.limited k hnext hlt
    · exact ⟨hlimited, hstop, hoverflow⟩

/-- The three ways the inner loop ends. -/
inductive InnerEnd (parse : Completion → Except Exn ρ) (maxRetries rateLimitMaxRetries : Nat)
    (outcomes : Outcomes) (last : Nat) : Except ApiError Completion → Prop where
  | response {completion : Completion} (houtcome : outcomes last = .ok completion) :
      InnerEnd parse maxRetries rateLimitMaxRetries outcomes last (.ok completion)
  | raised {error : ApiError}
      (hstop : stopAt parse maxRetries rateLimitMaxRetries outcomes last = some (.raised error)) :
      InnerEnd parse maxRetries rateLimitMaxRetries outcomes last (.error error)
  | overflowed
      (hstop : stopAt parse maxRetries rateLimitMaxRetries outcomes last = none)
      (hoverflow : OverflowsAt rateLimitMaxRetries outcomes last) :
      InnerEnd parse maxRetries rateLimitMaxRetries outcomes last (.error overflowError)

theorem limitedBefore_succ {n : Nat} (h : isLimited (outcomes n) = true) :
    limitedBefore outcomes (n + 1) = limitedBefore outcomes n + 1 := if_pos h

theorem stopAt_error {n : Nat} {error : ApiError} (h : outcomes n = .error error) :
    stopAt parse maxRetries rateLimitMaxRetries outcomes n =
      if error.rateLimited = false ∨ limitedBefore outcomes n = rateLimitMaxRetries then
        some (.raised error) else none := by
  rw [stopAt, h]

/-- **The inner loop**, from a call on. -/
theorem createWithRateLimitRetry_spec (parse : Completion → Except Exn ρ) (maxRetries : Nat)
    (retries attempt calls : Nat) (hattempt : limitedBefore outcomes calls = attempt)
    (hretries : attempt + retries = rateLimitMaxRetries) :
    ∃ last result, createWithRateLimitRetry outcomes retries attempt calls = (result, last + 1) ∧
      InnerRun parse maxRetries rateLimitMaxRetries outcomes calls last ∧
      InnerEnd parse maxRetries rateLimitMaxRetries outcomes last result ∧
      last ≤ calls + retries := by
  induction retries generalizing attempt calls with
  | zero =>
      refine ⟨calls, outcomes calls, rfl, InnerRun.refl calls, ?_, Nat.le_refl _⟩
      cases houtcome : outcomes calls with
      | ok completion => exact .response houtcome
      | error error =>
          refine .raised ?_
          rw [stopAt_error houtcome, if_pos (Or.inr (by omega))]
  | succ retries ih =>
      cases houtcome : outcomes calls with
      | ok completion =>
          refine ⟨calls, .ok completion, ?_, InnerRun.refl calls, .response houtcome, by omega⟩
          simp only [createWithRateLimitRetry, houtcome]
      | error error =>
          cases hlimit : error.rateLimited with
          | false =>
              refine ⟨calls, .error error, ?_, InnerRun.refl calls, .raised ?_, by omega⟩
              · simp only [createWithRateLimitRetry, houtcome, hlimit]
                rfl
              · rw [stopAt_error houtcome, if_pos (Or.inl hlimit)]
          | true =>
              have hstop : stopAt parse maxRetries rateLimitMaxRetries outcomes calls = none := by
                rw [stopAt_error houtcome, if_neg]
                rintro (hfalse | hlast)
                · rw [hlimit] at hfalse
                  cases hfalse
                · omega
              by_cases hdelay : error.delayOverflows attempt = true
              · refine ⟨calls, .error overflowError, ?_, InnerRun.refl calls,
                  .overflowed hstop ⟨error, houtcome, hlimit, ?_, ?_, by omega⟩, by omega⟩
                · simp only [createWithRateLimitRetry, houtcome, hlimit, hdelay, if_true]
                · simp only [ApiError.delayOverflows, Bool.and_eq_true, Bool.not_eq_true'] at hdelay
                  exact hdelay.1
                · simp only [ApiError.delayOverflows, Bool.and_eq_true, decide_eq_true_eq] at hdelay
                  omega
              · have hlimited : isLimited (outcomes calls) = true := by rw [houtcome]; exact hlimit
                obtain ⟨last, result, hrun, hinner, hend, hle⟩ := ih (attempt + 1) (calls + 1)
                  (by rw [limitedBefore_succ hlimited, hattempt]) (by omega)
                refine ⟨last, result, ?_, hinner.cons hlimited hstop ?_, hend, by omega⟩
                · rw [← hrun]
                  simp only [createWithRateLimitRetry, houtcome, hlimit, hdelay, if_true]
                  rfl
                · rintro ⟨error', houtcome', -, hstated, hmany, -⟩
                  rw [houtcome] at houtcome'
                  cases houtcome'
                  refine hdelay ?_
                  simp only [ApiError.delayOverflows, hstated, Bool.not_false, Bool.true_and,
                    decide_eq_true_eq]
                  omega

/-- Rate limits are no responses. -/
theorem InnerRun.responsesBefore {first last : Nat}
    (h : InnerRun parse maxRetries rateLimitMaxRetries outcomes first last) :
    responsesBefore outcomes last = responsesBefore outcomes first := by
  obtain ⟨n, rfl⟩ := Nat.exists_eq_add_of_le h.le
  have hall := h.limited
  clear h
  induction n with
  | zero => rfl
  | succ n ih =>
      have hlimited := (hall (first + n) (by omega) (by omega)).1
      have hnot : (outcomes (first + n)).isOk = false := by
        cases houtcome : outcomes (first + n) with
        | ok completion =>
            rw [houtcome] at hlimited
            cases hlimited
        | error error => rfl
      have hstep : ContextMemory.responsesBefore outcomes (first + n + 1) =
          ContextMemory.responsesBefore outcomes (first + n) := by
        rw [ContextMemory.responsesBefore, hnot]
        rfl
      rw [← Nat.add_assoc, hstep]
      exact ih fun k hle hlt => hall k hle (by omega)

end Inner

/-! ### Both loops -/

/-- What stops the machine does not overflow. -/
theorem OverflowsAt.stopAt {ρ : Type} {parse : Completion → Except Exn ρ}
    {maxRetries rateLimitMaxRetries : Nat} {outcomes : Outcomes} {n : Nat}
    (h : OverflowsAt rateLimitMaxRetries outcomes n) :
    stopAt parse maxRetries rateLimitMaxRetries outcomes n = none := by
  obtain ⟨error, houtcome, hlimit, -, -, hleft⟩ := h
  rw [stopAt_error houtcome, if_neg]
  rintro (hfalse | hlast)
  · rw [hlimit] at hfalse
    cases hfalse
  · omega

section Client

variable {ρ : Type} (client : LLMClient) (schema : ResponseSchema ρ) (settings : CompletionSettings)
  (userPrompt : String) (outcomes : Outcomes)

abbrev LLMClient.stopAt (n : Nat) : Option (Verdict ρ) :=
  ContextMemory.stopAt (client.parse schema) settings.maxRetries client.rateLimitMaxRetries outcomes n

/-- How a run of the client ends at a call. -/
def LLMClient.EndsAt (last : Nat) (result : Except Exn ρ) : Prop :=
  (∃ verdict, client.stopAt schema settings outcomes last = some verdict ∧
    result = verdict.result schema.name) ∨
  (OverflowsAt client.rateLimitMaxRetries outcomes last ∧
    result = .error (.provider overflowError.message))

section Attempt

variable {client schema settings userPrompt outcomes} {retries calls calls' : Nat} {user : String}
  {maxTokens : Option Nat}

theorem attempts_raised {error : ApiError}
    (h : createWithRateLimitRetry outcomes client.rateLimitMaxRetries 0 calls =
      (.error error, calls')) :
    client.attempts schema settings (fun n _ => outcomes n) userPrompt retries calls user maxTokens =
      (.error (.provider error.message), calls') := by
  unfold LLMClient.attempts
  simp only [h]

theorem attempts_returned {completion : Completion} {value : ρ}
    (h : createWithRateLimitRetry outcomes client.rateLimitMaxRetries 0 calls =
      (.ok completion, calls')) (hparse : client.parse schema completion = .ok value) :
    client.attempts schema settings (fun n _ => outcomes n) userPrompt retries calls user maxTokens =
      (.ok value, calls') := by
  unfold LLMClient.attempts
  simp only [h, hparse]

theorem attempts_mismatch {completion : Completion} {error : Exn}
    (h : createWithRateLimitRetry outcomes client.rateLimitMaxRetries 0 calls =
      (.ok completion, calls')) (hparse : client.parse schema completion = .error error) :
    client.attempts schema settings (fun n _ => outcomes n) userPrompt 0 calls user maxTokens =
      (.error (.runtimeError ("model response did not match " ++ schema.name)), calls') := by
  unfold LLMClient.attempts
  simp only [h, hparse]

theorem attempts_retry {completion : Completion} {error : Exn}
    (h : createWithRateLimitRetry outcomes client.rateLimitMaxRetries 0 calls =
      (.ok completion, calls')) (hparse : client.parse schema completion = .error error) :
    ∃ budget, client.attempts schema settings (fun n _ => outcomes n) userPrompt (retries + 1) calls
        user maxTokens =
      client.attempts schema settings (fun n _ => outcomes n) userPrompt retries calls'
        (userPrompt ++ nudge) budget := by
  refine ⟨if completion.finishReason = some "length" then maxTokens.map doubledBudget
    else maxTokens, ?_⟩
  rw [LLMClient.attempts]
  simp only [h, hparse]

end Attempt

theorem stopAt_bad {n : Nat} {completion : Completion} {error : Exn}
    (houtcome : outcomes n = .ok completion) (hparse : client.parse schema completion = .error error) :
    client.stopAt schema settings outcomes n =
      if responsesBefore outcomes n = settings.maxRetries then some .mismatch else none := by
  rw [LLMClient.stopAt, ContextMemory.stopAt, houtcome]
  dsimp only
  rw [hparse]

/-- **One attempt** either ends the run or gets a response that does not
validate. -/
theorem attempt_spec (calls : Nat) (hlimited : limitedBefore outcomes calls = 0) :
    ∃ last, calls ≤ last ∧ last ≤ calls + client.rateLimitMaxRetries ∧
      responsesBefore outcomes last = responsesBefore outcomes calls ∧
      (∀ k, calls ≤ k → k < last → client.stopAt schema settings outcomes k = none ∧
        ¬OverflowsAt client.rateLimitMaxRetries outcomes k) ∧
      ((∃ result, client.EndsAt schema settings outcomes last result ∧
        ∀ retries user maxTokens, client.attempts schema settings (fun n _ => outcomes n) userPrompt
          retries calls user maxTokens = (result, last + 1)) ∨
      ∃ completion error, outcomes last = .ok completion ∧
        client.parse schema completion = .error error ∧
        createWithRateLimitRetry outcomes client.rateLimitMaxRetries 0 calls =
          (.ok completion, last + 1)) := by
  obtain ⟨last, x, hrun, hinner, hend, hle⟩ := createWithRateLimitRetry_spec (client.parse schema)
    settings.maxRetries client.rateLimitMaxRetries 0 calls hlimited (Nat.zero_add _)
  refine ⟨last, hinner.le, hle, hinner.responsesBefore, fun k hk hlt => (hinner.limited k hk hlt).2, ?_⟩
  cases hend with
  | raised hstop => exact Or.inl ⟨_, Or.inl ⟨_, hstop, rfl⟩, fun _ _ _ => attempts_raised hrun⟩
  | overflowed hstop hoverflow =>
      exact Or.inl ⟨_, Or.inr ⟨hoverflow, rfl⟩, fun _ _ _ => attempts_raised hrun⟩
  | @response completion houtcome =>
      cases hparse : client.parse schema completion with
      | error error => exact Or.inr ⟨completion, error, houtcome, hparse, hrun⟩
      | ok value =>
          refine Or.inl ⟨.ok value, Or.inl ⟨.returned value, ?_, rfl⟩,
            fun _ _ _ => attempts_returned hrun hparse⟩
          rw [LLMClient.stopAt, ContextMemory.stopAt, houtcome]
          dsimp only
          rw [hparse]

/-- **Both loops**, from an attempt on. -/
theorem attempts_spec (retries calls : Nat) (user : String) (maxTokens : Option Nat)
    (hresponses : responsesBefore outcomes calls + retries = settings.maxRetries)
    (hlimited : limitedBefore outcomes calls = 0) :
    ∃ last result, client.attempts schema settings (fun n _ => outcomes n) userPrompt retries calls
        user maxTokens = (result, last + 1) ∧
      (∀ k, calls ≤ k → k < last → client.stopAt schema settings outcomes k = none ∧
        ¬OverflowsAt client.rateLimitMaxRetries outcomes k) ∧
      client.EndsAt schema settings outcomes last result ∧
      last + 1 ≤ calls + (retries + 1) * (client.rateLimitMaxRetries + 1) := by
  induction retries generalizing calls user maxTokens with
  | zero =>
      obtain ⟨last, hle, hge, hsame, hbefore, ⟨result, hends, hrun⟩ |
        ⟨completion, error, houtcome, hparse, hcreate⟩⟩ :=
          attempt_spec client schema settings userPrompt outcomes calls hlimited
      · exact ⟨last, result, hrun _ _ _, hbefore, hends, by omega⟩
      · refine ⟨last, _, attempts_mismatch hcreate hparse, hbefore, Or.inl ⟨.mismatch, ?_, rfl⟩, by omega⟩
        rw [stopAt_bad client schema settings outcomes houtcome hparse, if_pos (by omega)]
  | succ retries ih =>
      obtain ⟨last, hle, hge, hsame, hbefore, ⟨result, hends, hrun⟩ |
        ⟨completion, error, houtcome, hparse, hcreate⟩⟩ :=
          attempt_spec client schema settings userPrompt outcomes calls hlimited
      · refine ⟨last, result, hrun _ _ _, hbefore, hends, ?_⟩
        rw [Nat.add_mul]
        omega
      · -- the bad response costs an attempt, and the next one starts with no limit before it
        obtain ⟨budget, hretry⟩ : ∃ budget, client.attempts schema settings (fun n _ => outcomes n)
            userPrompt (retries + 1) calls user maxTokens = _ := attempts_retry hcreate hparse
        have hcounted : responsesBefore outcomes (last + 1) = responsesBefore outcomes calls + 1 := by
          rw [responsesBefore, houtcome, hsame]
          rfl
        have hfresh : limitedBefore outcomes (last + 1) = 0 := by
          rw [limitedBefore, houtcome]
          rfl
        obtain ⟨last', result, hrun, hbefore', hends, hle'⟩ := ih (last + 1) (userPrompt ++ nudge)
          budget (by omega) hfresh
        refine ⟨last', result, hretry.trans hrun, fun k hk hlt => ?_, hends, ?_⟩
        · rcases Nat.lt_trichotomy k last with hearly | rfl | hlate
          · exact hbefore k hk hearly
          · refine ⟨?_, ?_⟩
            · rw [stopAt_bad client schema settings outcomes houtcome hparse, if_neg (by omega)]
            · rintro ⟨error', herror, -⟩
              rw [houtcome] at herror
              cases herror
          · exact hbefore' k hlate hlt
        · rw [Nat.add_mul (retries + 1)]
          omega

/-- The whole run. -/
theorem completionCalls_spec : ∃ last result,
    client.completionCalls schema settings (fun n _ => outcomes n) userPrompt = (result, last + 1) ∧
      (∀ k < last, client.stopAt schema settings outcomes k = none ∧
        ¬OverflowsAt client.rateLimitMaxRetries outcomes k) ∧
      client.EndsAt schema settings outcomes last result ∧
      last + 1 ≤ (settings.maxRetries + 1) * (client.rateLimitMaxRetries + 1) := by
  obtain ⟨last, result, hrun, hbefore, hends, hle⟩ := attempts_spec client schema settings userPrompt
    outcomes settings.maxRetries 0 userPrompt settings.maxTokens (Nat.zero_add _) rfl
  rw [Nat.zero_add] at hle
  exact ⟨last, result, hrun, fun k hlt => hbefore k (Nat.zero_le k) hlt, hends, hle⟩

variable {client schema settings userPrompt outcomes}

/-- An overflow before the machine stops ends the run too early. -/
theorem not_runsMachine_of_overflow {n : Nat}
    (hoverflow : OverflowsAt client.rateLimitMaxRetries outcomes n)
    (hbefore : ∀ k < n, client.stopAt schema settings outcomes k = none) :
    ¬RunsMachine (client.parse schema) settings.maxRetries client.rateLimitMaxRetries outcomes
      schema.name (client.completionCalls schema settings (fun n _ => outcomes n) userPrompt) := by
  rintro ⟨stop, verdict, hstop, -, hrun, -⟩
  obtain ⟨last, result, hrun', hnone, -, -⟩ :=
    completionCalls_spec client schema settings userPrompt outcomes
  have hsame : last = stop := Nat.succ.inj (congrArg Prod.snd (hrun'.symm.trans hrun))
  rcases Nat.lt_trichotomy n stop with hearly | rfl | hlate
  · exact (hnone n (hsame ▸ hearly)).2 hoverflow
  · rw [hoverflow.stopAt] at hstop
    cases hstop
  · cases hstop.symm.trans (hbefore stop hlate)

end Client

/-- The retry machine: whatever the calls answer, in whatever order, the client
does what the machine does, exactly if no delay overflows before the machine
stops. The power of two is computed as a float before the minimum is taken, and
the 1025th rate limit in a row without a stated delay is too large for one. -/
theorem retry_machine_iff {ρ : Type} (client : LLMClient) (schema : ResponseSchema ρ)
    (settings : CompletionSettings) (userPrompt : String) (outcomes : Outcomes) :
    RunsMachine (client.parse schema) settings.maxRetries client.rateLimitMaxRetries outcomes
        schema.name (client.completionCalls schema settings (fun n _ => outcomes n) userPrompt) ↔
      ∀ n, OverflowsAt client.rateLimitMaxRetries outcomes n →
        ∃ k < n, stopAt (client.parse schema) settings.maxRetries client.rateLimitMaxRetries outcomes
          k ≠ none := by
  constructor
  · intro hruns n hoverflow
    by_contra hnone
    push Not at hnone
    exact not_runsMachine_of_overflow hoverflow hnone hruns
  · intro hcond
    obtain ⟨last, result, hrun, hbefore, hends, hle⟩ :=
      completionCalls_spec client schema settings userPrompt outcomes
    rcases hends with ⟨verdict, hstop, rfl⟩ | ⟨hoverflow, -⟩
    · exact ⟨last, verdict, hstop, fun k hlt => (hbefore k hlt).1, hrun, hle⟩
    · obtain ⟨k, hlt, hstop⟩ := hcond last hoverflow
      exact absurd (hbefore k hlt).1 hstop

/-! ### A limiter that never releases -/

/-- Every call is rate limited, and no delay is stated. -/
def alwaysLimited : Outcomes := fun _ => .error { message := "429", rateLimited := true }

theorem limitedBefore_alwaysLimited (n : Nat) : limitedBefore alwaysLimited n = n := by
  induction n with
  | zero => rfl
  | succ n ih =>
      rw [limitedBefore, ih]
      rfl

/-- A client that retries a rate limit 2000 times. -/
def patientClient : LLMClient where
  model := "gpt-oss-20b"
  rateLimitMaxRetries := 2000
  json := ⟨fun _ => false, fun _ _ => none⟩

def emptySchema : ResponseSchema Unit where
  name := "Empty"
  typedef := ""
  jsonSchema := ""
  modelValidateJson _ := .error (.valueError "no field")

/-- Its 1025th call ends the run with an overflow, long before the limit of its
retries. -/
theorem retry_machine_overflows : ¬∀ (client : LLMClient) (schema : ResponseSchema Unit)
    (settings : CompletionSettings) (userPrompt : String) (outcomes : Outcomes),
    RunsMachine (client.parse schema) settings.maxRetries client.rateLimitMaxRetries outcomes
      schema.name (client.completionCalls schema settings (fun n _ => outcomes n) userPrompt) := by
  intro hall
  refine not_runsMachine_of_overflow (n := 1024) ?_ ?_
    (hall patientClient emptySchema { systemPrompt := "" } "" alwaysLimited)
  · refine ⟨_, rfl, rfl, by decide, ?_, ?_⟩
    · rw [limitedBefore_alwaysLimited]
    · rw [limitedBefore_alwaysLimited]
      decide
  · intro k hlt
    refine (stopAt_error rfl).trans (if_neg ?_)
    rintro (hfalse | hlast)
    · cases hfalse
    · rw [limitedBefore_alwaysLimited] at hlast
      change k = 2000 at hlast
      omega

end ContextMemory
