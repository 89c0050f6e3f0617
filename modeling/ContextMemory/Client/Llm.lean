/-
`LLMClient` (`core/llm_client.py`): structured completions with its two retry loops.

The provider is the outside world: what the `n`-th API call of one completion answers to a
request. A rate-limited call is made again for the same attempt, after a delay that can overflow;
an answer that cannot be parsed costs an attempt and changes the prompt and, after `finish_reason`
`length`, the token budget. The schema library is a parameter (`modelValidateJson`), and
so is the JSON of the standard library.
-/

import ContextMemory.Ingestion.Resolution

namespace ContextMemory

/-! ### The provider -/

/-- What `chat.completions.create` is called with. -/
structure CompletionRequest where
  model : String
  system : String
  user : String
  temperature : Rat
  maxTokens : Option Nat
  timeout : Option Rat
  reasoningEffort : Option String
deriving DecidableEq

/-- An exception of the provider's SDK; `rateLimited` is `_is_rate_limit_error`. -/
structure ApiError where
  message : String
  rateLimited : Bool := false
deriving DecidableEq

/-- The first choice of a response. -/
structure Completion where
  content : Option String
  finishReason : Option String := none
deriving DecidableEq

/-- The provider while one completion is asked for: its answer to the `n`-th API call. -/
abbrev Provider := Nat → CompletionRequest → Except ApiError Completion

/-! ### Rate limits -/

/-- `try again in ([0-9.]+)s` at the start of a text: the group. -/
def matchRetryAfter (text : List Char) : Option (List Char) :=
  if "try again in ".toList.isPrefixOf text then
    let stated := text.drop "try again in ".toList.length
    let digits := stated.takeWhile fun c => c.isDigit || c = '.'
    if digits ≠ [] ∧ (stated.drop digits.length).head? = some 's' then some digits else none
  else none

/-- The provider states how long to wait, as a number that `float` reads. -/
def ApiError.statesDelay (error : ApiError) : Bool :=
  match error.message.toList.tails.findSome? matchRetryAfter with
  | some digits => digits.any Char.isDigit && digits.count '.' ≤ 1
  | none => false

/-- `OverflowError`, from `2.0 ** attempt`. -/
def overflowError : ApiError where
  message := "(34, 'Numerical result out of range')"

/-- `_rate_limit_delay` raises: the power is computed before it is capped, and `2.0 ** 1024` is
out of range. -/
def ApiError.delayOverflows (error : ApiError) (attempt : Nat) : Bool :=
  !error.statesDelay && 1024 ≤ attempt

/-- `_create_with_rate_limit_retry`, from the given attempt on and with `retries` of them left
after it: the outcome, and the number of calls made so far. -/
def createWithRateLimitRetry (create : Nat → Except ApiError Completion) :
    (retries attempt calls : Nat) → Except ApiError Completion × Nat
  | 0, _, calls => (create calls, calls + 1)
  | retries + 1, attempt, calls =>
      match create calls with
      | .ok completion => (.ok completion, calls + 1)
      | .error e =>
          if e.rateLimited then
            if e.delayOverflows attempt then (.error overflowError, calls + 1)
            else createWithRateLimitRetry create retries (attempt + 1) (calls + 1)
          else (.error e, calls + 1)

/-! ### The first JSON object of an answer -/

/-- `json` of the standard library, as far as it is used here. -/
structure JsonLibrary where
  /-- `json.loads` does not raise. -/
  loads : String → Bool
  /-- `raw_decode(text, index)`: nothing if it raises, else the value by `json.dumps` if it
  is a `dict`. -/
  rawDecode : String → Nat → Option (Option String)

/-- The boundaries of `str.splitlines`. -/
def isLineBreak (c : Char) : Bool :=
  let n := c.toNat
  (10 ≤ n && n ≤ 13) || (28 ≤ n && n ≤ 30) || n = 0x85 || n = 0x2028 || n = 0x2029

/-- `str.splitlines`. -/
def splitLines : List Char → List (List Char)
  | [] => []
  | '\r' :: '\n' :: rest => [] :: splitLines rest
  | c :: rest =>
      if isLineBreak c then [] :: splitLines rest
      else
        match splitLines rest with
        | [] => [[c]]
        | line :: lines => (c :: line) :: lines

/-- A line that starts with three backquotes. -/
def isFence (line : List Char) : Bool := "```".toList.isPrefixOf line

/-- The text between Markdown fences, if it starts with one. -/
def stripFences (text : String) : String :=
  if isFence text.toList then
    let lines := splitLines text.toList
    let opened := if (lines.head?.map isFence).getD false then lines.tail else lines
    let closed := if (opened.getLast?.map isFence).getD false then opened.dropLast else opened
    strip ("\n".intercalate (closed.map String.ofList))
  else text

/-- `_recover_json_object`. -/
def recoverJsonObject (json : JsonLibrary) (rawText : String) : String :=
  let text := stripFences (strip rawText)
  if json.loads text then text
  else
    let found := text.toList.zipIdx.findSome? fun entry =>
      if entry.1 = '{' then (json.rawDecode text entry.2).join else none
    found.getD rawText

/-! ### Structured completions -/

/-- `schema_format`. -/
inductive SchemaFormat where
  | typedef | jsonSchema
deriving DecidableEq

structure LLMClient where
  model : String
  reasoningEffort : String := ""
  rateLimitMaxRetries : Nat := 5
  schemaFormat : SchemaFormat := .typedef
  json : JsonLibrary

/-- The arguments of `structured_completion` that come from `Config`. -/
structure CompletionSettings where
  systemPrompt : String
  temperature : Rat := 0
  maxTokens : Option Nat := none
  timeout : Option Rat := none
  maxRetries : Nat := 1

/-- A response schema: its name, the texts that describe it and its validation. -/
structure ResponseSchema (ρ : Type) where
  name : String
  typedef : String
  jsonSchema : String
  modelValidateJson : String → Except Exn ρ

def nudge : String :=
  "\n\n(Your previous response was empty or not valid JSON. Stop reasoning and respond with ONLY " ++
    "the JSON object now — no other text.)"

/-- `min(current_max_tokens * 2, 16384)`. -/
def doubledBudget (maxTokens : Nat) : Nat := min (maxTokens * 2) 16384

namespace LLMClient

variable {ρ : Type} (client : LLMClient) (schema : ResponseSchema ρ) (settings : CompletionSettings)

/-- `augmented_system`. -/
def augmentedSystem : String :=
  settings.systemPrompt ++
    match client.schemaFormat with
    | .typedef => "\n\nReturn JSON matching:\n" ++ schema.typedef
    | .jsonSchema => "\n\nReturn JSON matching this schema:\n" ++ schema.jsonSchema

def request (user : String) (maxTokens : Option Nat) : CompletionRequest where
  model := client.model
  system := client.augmentedSystem schema settings
  user := user
  temperature := settings.temperature
  maxTokens := maxTokens
  timeout := settings.timeout
  reasoningEffort := if client.reasoningEffort = "" then none else some client.reasoningEffort

/-- The body of the `try`: empty content is an error too. -/
def parse (completion : Completion) : Except Exn ρ :=
  match completion.content with
  | none => .error (.valueError "empty completion content")
  | some rawText =>
      if rawText = "" then .error (.valueError "empty completion content")
      else schema.modelValidateJson (recoverJsonObject client.json rawText)

/-- The loop of `structured_completion`, with `retries` attempts left after this one: how it ends,
and the number of calls made. -/
def attempts (provider : Provider) (userPrompt : String) :
    (retries calls : Nat) → (user : String) → (maxTokens : Option Nat) → Except Exn ρ × Nat
  | retries, calls, user, maxTokens =>
      match createWithRateLimitRetry
          (fun n => provider n (client.request schema settings user maxTokens))
          client.rateLimitMaxRetries 0 calls with
      | (.error e, calls') => (.error (.provider e.message), calls')
      | (.ok completion, calls') =>
          match client.parse schema completion with
          | .ok response => (.ok response, calls')
          | .error _ =>
              match retries with
              | 0 => (.error (.runtimeError ("model response did not match " ++ schema.name)), calls')
              | retries + 1 =>
                  let budget := if completion.finishReason = some "length" then
                    maxTokens.map doubledBudget else maxTokens
                  attempts provider userPrompt retries calls' (userPrompt ++ nudge) budget

/-- `structured_completion`, and the number of calls it makes. -/
def completionCalls (provider : Provider) (userPrompt : String) : Except Exn ρ × Nat :=
  client.attempts schema settings provider userPrompt settings.maxRetries 0 userPrompt
    settings.maxTokens

/-- `structured_completion`. -/
def structuredCompletion (provider : Provider) (userPrompt : String) : Except Exn ρ :=
  (client.completionCalls schema settings provider userPrompt).1

/-- An answer that parses is the response, without a retry. -/
theorem structuredCompletion_of_answer {provider : Provider} {userPrompt : String}
    {completion : Completion} {response : ρ}
    (hanswer : provider 0 (client.request schema settings userPrompt settings.maxTokens) =
      .ok completion) (hparse : client.parse schema completion = .ok response) :
    client.structuredCompletion schema settings provider userPrompt = .ok response := by
  have hcreate : createWithRateLimitRetry
      (fun n => provider n (client.request schema settings userPrompt settings.maxTokens))
      client.rateLimitMaxRetries 0 0 = (.ok completion, 1) := by
    cases client.rateLimitMaxRetries with
    | zero => simp only [createWithRateLimitRetry, hanswer]
    | succ retries => simp only [createWithRateLimitRetry, hanswer]
  unfold structuredCompletion completionCalls attempts
  simp only [hcreate, hparse]

end LLMClient

end ContextMemory
