/-
Truncated completions.

The answer of a provider that is cut off can still hold a complete JSON object: a fact before the
cut, or braces in the text of one. `_recover_json_object` finds it, the response schema fills in
its defaults, and the completion is accepted as a response without facts. An answer that holds no
complete object is refused (`truncation_refused_iff`).
-/

import ContextMemory.Ingestion.LlmExtractor
import ContextMemory.Lib.JsonPhases
import ContextMemory.Guarantees.JsonRecovery

namespace ContextMemory

open JsonText

/-! ### Refused completions -/

section Refusal

variable {ρ : Type} (client : LLMClient) (schema : ResponseSchema ρ) (completion : Completion)

/-- In every attempt of every call, the completion is not accepted: the client asks again, with a
doubled budget after `finish_reason` `length`, or raises `LLMClientError`. -/
def RetriesOrRaises : Prop :=
  ∀ (settings : CompletionSettings) (provider : Provider) (userPrompt : String)
    (retries calls : Nat) (user : String) (maxTokens : Option Nat) (calls' : Nat),
    createWithRateLimitRetry (fun n => provider n (client.request schema settings user maxTokens))
        client.rateLimitMaxRetries 0 calls = (.ok completion, calls') →
    client.attempts schema settings provider userPrompt retries calls user maxTokens =
      match retries with
      | 0 => (.error (.runtimeError ("model response did not match " ++ schema.name)), calls')
      | retries + 1 =>
          client.attempts schema settings provider userPrompt retries calls' (userPrompt ++ nudge)
            (if completion.finishReason = some "length" then maxTokens.map doubledBudget
              else maxTokens)

variable {client schema completion}

theorem retriesOrRaises_of_error {error : Exn} (h : client.parse schema completion = .error error) :
    RetriesOrRaises client schema completion := by
  intro settings provider userPrompt retries calls user maxTokens calls' hcreate
  conv_lhs => unfold LLMClient.attempts
  cases retries with
  | zero => simp only [hcreate, h]
  | succ retries => simp only [hcreate, h]

/-- A completion that parses is the response. -/
theorem not_retriesOrRaises_of_ok {response : ρ}
    (h : client.parse schema completion = .ok response) :
    ¬RetriesOrRaises client schema completion := by
  intro hall
  have hcreate : createWithRateLimitRetry (fun _ => .ok completion) client.rateLimitMaxRetries 0 0 =
      (.ok completion, 1) := by
    cases client.rateLimitMaxRetries with
    | zero => rfl
    | succ retries => rfl
  have hrun := hall { systemPrompt := "" } (fun _ _ => .ok completion) "" 0 0 "" none 1 hcreate
  rw [LLMClient.attempts] at hrun
  simp only [hcreate, h] at hrun
  cases hrun

end Refusal

/-! ### Extraction responses -/

section Responses

variable {F : Type} {num : Numbers F}

/-- The fields of `_ExtractedFactItem`. -/
def itemFields : List (List CodeUnit) :=
  ["text", "action", "predicate_key", "entities", "confidence", "exact_quote"].map fun field =>
    field.toList.flatMap utf16

/-- The value of a field: a number or nothing, a text, or a list of texts. -/
def IsFieldValue : Value F → Prop
  | .scalar _ => True
  | .str units => WellFormed units
  | .arr items => ∀ item ∈ items, ∃ units, item = .str units ∧ WellFormed units
  | .obj _ => False

def IsFactItem : Value F → Prop
  | .obj members => ∀ m ∈ members, m.1 ∈ itemFields ∧ IsFieldValue m.2
  | _ => False

def responseValue (facts : List (Value F)) : Value F := .obj [(factsKey, .arr facts)]

variable (num) in
/-- `model_validate_json` of `_FactExtractionResponse`: what is no JSON is refused, and an object
without the field `facts` is the response with the default. -/
structure ValidatesFacts (schema : ResponseSchema FactExtractionResponse) : Prop where
  refuses : ∀ text : String, loads num text.toList = none →
    ∃ error, schema.modelValidateJson text = .error error
  defaults : ∀ (text : String) (members : List (List CodeUnit × Value F)),
    Parses num text (.obj members) → (Value.obj members).All WellFormed WellFormed →
    factsKey ∉ members.map Prod.fst → schema.modelValidateJson text = .ok { facts := [] }

variable (num) in
/-- A JSON object stands somewhere in the text. -/
def HoldsObject (text : List Char) : Prop :=
  ∃ members object, Text num (.obj members) object ∧ object <:+: text

end Responses

/-! ### What can be found in a response -/

/-- The keys of what is found in a response. -/
def FoundKey (units : List CodeUnit) : Prop := units ≠ factsKey ∧ WellFormed units

/-- What is known inside a response: its strings and keys, and what comes after a string. -/
def responseRules : Rules where
  opens text := ∀ {units content rest}, text = content ++ '"' :: rest → Content units content →
    WellFormed units ∧ (ColonNext rest → units ≠ factsKey)
  closes := Breaks
  inner _ := True

theorem content_unique {units units' : List CodeUnit} {content content' rest rest' : List Char}
    (h : Content units content) (h' : Content units' content')
    (heq : content ++ '"' :: rest = content' ++ '"' :: rest') : units = units' ∧ rest = rest' := by
  have hread := scanString_complete h rest
  rw [heq, scanString_complete h' rest'] at hread
  obtain ⟨hunits, hrest⟩ := Prod.mk.inj (Option.some.inj hread)
  exact ⟨hunits.symm, hrest.symm⟩

theorem responseRules_admits : Admits responseRules FoundKey WellFormed where
  str := by
    intro units content rest hcontent hunits hcolon units' content' rest' heq hcontent'
    obtain ⟨rfl, rfl⟩ := content_unique hcontent hcontent' heq
    exact ⟨hunits, fun hnext => absurd hnext hcolon⟩
  key := by
    intro units content rest hcontent hunits hcolon units' content' rest' heq hcontent'
    obtain ⟨rfl, rfl⟩ := content_unique hcontent hcontent' heq
    exact ⟨hunits.2, fun _ => hunits.1⟩
  closes := id
  inner _ _ := trivial

/-- What comes after a string is not the start of `facts`. -/
theorem utf16_breaks {c : Char} (hc : breaks c = true) (rest : List CodeUnit) :
    utf16 c ++ rest ≠ factsKey := by
  have hhead : factsKey = 0x66 :: [0x61, 0x63, 0x74, 0x73] := by decide
  have hcases : utf16 c ≠ [] ∧ (utf16 c).head? ≠ some 0x66 := by
    simp only [breaks, isSpace, Bool.or_eq_true, decide_eq_true_iff] at hc
    rcases hc with ((((((rfl | rfl) | rfl) | rfl) | rfl) | rfl) | rfl) | rfl <;>
      exact ⟨by decide, by decide⟩
  obtain ⟨unit, units, hunits⟩ := List.exists_cons_of_ne_nil hcases.1
  rw [hunits, hhead]
  intro heq
  rw [hunits, (List.cons.inj heq).1] at hcases
  exact hcases.2 rfl

/-- From either side of a quote, what is read in a response has no key `facts`. -/
theorem responseRules_reading {phase : Phase} (hphase : phase = .outside ∨ phase = .inside) :
    Reading responseRules phase FoundKey WellFormed := by
  rcases hphase with rfl | rfl
  · refine reading_outside ?_ ?_
    · intro units content rest hcontent hopens
      exact (hopens rfl hcontent).1
    · intro units content w rest hcontent hw hopens
      exact ⟨(hopens rfl hcontent).2 ⟨w, rest, hw, rfl⟩, (hopens rfl hcontent).1⟩
  · refine reading_inside ?_ ?_
    · intro content rest _ _
      exact ⟨content, rfl⟩
    · intro content rest _ hbreaks
      refine ⟨?_, content, rfl⟩
      cases content with
      | nil => exact absurd (hbreaks '"' rfl) (by decide)
      | cons c content =>
          rw [List.flatMap_cons]
          exact utf16_breaks (hbreaks c rfl) _

section Found

variable {F : Type} {num : Numbers F} {facts : List (Value F)}

theorem all_fieldValue {v : Value F} (h : IsFieldValue v) : v.All FoundKey WellFormed := by
  cases v with
  | scalar a => simp only [Value.All, Algebra.fold_scalar]
  | str units => exact Value.all_str.mpr h
  | arr items =>
      rw [Value.all_arr]
      intro item hitem
      obtain ⟨units, rfl, hunits⟩ := h item hitem
      exact Value.all_str.mpr hunits
  | obj members => exact absurd h id

theorem all_facts (hfacts : ∀ fact ∈ facts, IsFactItem fact) :
    (Value.arr facts).All FoundKey WellFormed := by
  have hfields : ∀ field ∈ itemFields, FoundKey field := by
    intro field hfield
    refine ⟨?_, ?_⟩
    · rintro rfl
      exact absurd hfield (by decide)
    · obtain ⟨name, -, rfl⟩ := List.mem_map.mp hfield
      exact ⟨name.toList, rfl⟩
  rw [Value.all_arr]
  intro fact hfact
  cases fact with
  | obj members =>
      rw [Value.all_obj]
      exact fun m hm => ⟨hfields _ (hfacts _ hfact m hm).1, all_fieldValue (hfacts _ hfact m hm).2⟩
  | scalar _ => exact absurd (hfacts _ hfact) id
  | str _ => exact absurd (hfacts _ hfact) id
  | arr _ => exact absurd (hfacts _ hfact) id

/-- An object that is found in a response, and is not the response, has no key
`facts`. -/
theorem found_in_response (hfacts : ∀ fact ∈ facts, IsFactItem fact) {text : List Char}
    (htext : Text num (responseValue facts) text) {members : List (List CodeUnit × Value F)}
    {before object rest : List Char} (hobject : Text num (.obj members) object)
    (hsplit : text = before ++ (object ++ rest)) (hbefore : before ≠ []) :
    (Value.obj members).All FoundKey WellFormed := by
  obtain ⟨w, content, w₁, w₂, value, w₃, rfl, hw, hcontent, hw₁, hw₂, ⟨depth, hvalue⟩, hw₃⟩ :=
    htext.obj_single
  obtain ⟨depth', body, rfl, -⟩ := hobject.obj_shape
  -- the facts, from the colon on
  have hend : Bare (w₃ ++ ['}']) := (bare_ws hw₃).append (by unfold Bare; decide)
  have hfollows : Follows responseRules .outside (value ++ (w₃ ++ ['}'])) := by
    refine follows_append_text responseRules_admits hvalue (all_facts hfacts) ?_ ?_
    · exact ⟨w₃, _, rfl, hw₃, fun c hc => by cases hc; exact Or.inr (Or.inr rfl)⟩
    · have hempty : Follows responseRules .outside (w₃ ++ ['}'] ++ []) := hend.follows trivial
      rwa [List.append_nil] at hempty
  -- before them, only the response itself starts
  have hfree : '{' ∉ w ++ '"' :: (content ++ '"' :: (w₁ ++ ':' :: w₂)) := by
    have hcontentFree : '{' ∉ content := fun hmem =>
      absurd (brace_of_content hcontent hmem) (by decide)
    have hspace : ∀ {w : List Char}, Ws w → '{' ∉ w := fun hw => not_mem_of_ws hw (by decide)
    simp [hspace hw, hcontentFree, hspace hw₁, hspace hw₂]
  obtain ⟨c, before, rfl⟩ := List.exists_cons_of_ne_nil hbefore
  have htail : (w ++ '"' :: (content ++ '"' :: (w₁ ++ ':' :: w₂))) ++ (value ++ (w₃ ++ ['}'])) =
      before ++ '{' :: (body ++ ['}'] ++ rest) := by
    simpa using (List.cons.inj hsplit).2
  obtain ⟨middle, -, hmiddle⟩ := past_of_not_mem hfree htail
  rw [hmiddle] at hfollows
  have hplace := hfollows.after
  obtain ⟨depth, hreads⟩ := hobject
  have hpasses := reads_passes (responseRules_reading hplace.brace) hreads
  exact (hpasses rest (by simpa using hplace)).2.2

/-- An object does not start with another object. -/
theorem object_start {members members' : List (List CodeUnit × Value F)} {text object : List Char}
    (htext : Text num (.obj members) text) (hobject : Text num (.obj members') object)
    (h : object <+: text) : object = text := by
  obtain ⟨rest, hrest⟩ := h
  rw [← List.append_nil text] at hrest
  exact (hobject.unique_start htext (ends_obj _ _) (ends_obj _ _) hrest).2

end Found

/-! ### The completion -/

section Completions

variable {F : Type} {num : Numbers F} {client : LLMClient}
  {schema : ResponseSchema FactExtractionResponse} {facts : List (Value F)} {s t : String}

/-- Where a text that starts with a brace holds no object, nothing is parsed and
nothing found. -/
theorem recover_of_not_holds {rest : List Char} (ht : t.toList = '{' :: rest)
    (hnone : ¬HoldsObject num t.toList) :
    loads num t.toList = none ∧ recoverJsonObject (jsonModule num) t = t := by
  have hloads : ∀ rest, '{' :: rest <+: t.toList → loads num ('{' :: rest) = none := by
    intro rest hpart
    cases hloads : loads num ('{' :: rest) with
    | none => rfl
    | some o =>
        obtain ⟨members, object, w, htext, hobject, -, -⟩ := loads_brace hloads
        have hinside : object <:+: t.toList := (htext ▸ List.prefix_append object w).isInfix.trans
          hpart.isInfix
        exact absurd ⟨members, object, hobject, hinside⟩ hnone
  have hstrip : (strip t).toList = '{' :: stripEnd rest := by
    have hbrace : t.toList = [] ++ (['{'] ++ rest) := ht
    exact toList_strip hbrace (fun _ h => absurd h List.not_mem_nil) (by decide) rfl (by decide)
  have hpart : '{' :: stripEnd rest <+: t.toList := by
    rw [ht, List.prefix_cons_inj]
    exact stripEnd_prefix rest
  have hfirst : firstObject num ('{' :: stripEnd rest) = none := by
    cases hfirst : firstObject num ('{' :: stripEnd rest) with
    | none => rfl
    | some o =>
        obtain ⟨before, object, after, members, htext, hobject, -⟩ := firstObject_sound hfirst
        have hinside : object <:+: '{' :: stripEnd rest :=
          ⟨before, after, by rw [htext, List.append_assoc]⟩
        exact absurd ⟨members, object, hobject, hinside.trans hpart.isInfix⟩ hnone
  refine ⟨ht ▸ hloads rest (ht ▸ List.prefix_refl _), ?_⟩
  rw [recover_eq, stripFences_of_brace hstrip, hstrip, hloads _ hpart, hfirst]
  rfl

/-- The text that is scanned, where a cut response holds an object. -/
theorem strip_of_holds (hs : Text num (responseValue facts) s.toList)
    (hpart : t.toList <+: s.toList) (hholds : HoldsObject num t.toList) :
    ∃ rest, (strip t).toList = '{' :: rest ∧ '{' :: rest <+: t.toList ∧
      HoldsObject num ('{' :: rest) := by
  obtain ⟨members, object, hobject, before, after, hsplit⟩ := hholds
  obtain ⟨depth, body, hbody, -⟩ := hs.obj_shape
  obtain ⟨c, rest, hrest⟩ : ∃ c rest, before ++ object = c :: rest := by
    obtain ⟨depth', body', rfl, -⟩ := hobject.obj_shape
    exact List.exists_cons_of_ne_nil (by simp)
  have hc : c = '{' := by
    obtain ⟨cut, hcut⟩ := hpart
    rw [← hsplit, hrest, hbody] at hcut
    exact (List.cons.inj hcut).1
  subst hc
  have hstrip : (strip t).toList = '{' :: rest ++ stripEnd after :=
    toList_strip (w := []) (by rw [← hsplit, hrest, List.nil_append])
      (fun _ h => absurd h List.not_mem_nil) (by decide)
      (by rw [← hrest]; exact getLast?_text hobject) (by decide)
  refine ⟨rest ++ stripEnd after, hstrip, ?_, members, object, hobject, before, stripEnd after, ?_⟩
  · rw [← hsplit, hrest, List.cons_append, List.prefix_cons_inj, List.prefix_append_right_inj]
    exact stripEnd_prefix after
  · rw [hrest, List.cons_append]

/-- Where a cut response holds an object, the scan finds one without the key
`facts`. -/
theorem recover_of_holds (hfacts : ∀ fact ∈ facts, IsFactItem fact)
    (hs : Text num (responseValue facts) s.toList) (hpart : t.toList <+: s.toList) (hne : t ≠ s)
    (hholds : HoldsObject num t.toList) :
    ∃ members, Parses num (recoverJsonObject (jsonModule num) t) (.obj members) ∧
      (Value.obj members).All FoundKey WellFormed := by
  obtain ⟨rest, hstrip, hcut, hholds⟩ := strip_of_holds hs hpart hholds
  -- the cut text is not the response, and does not start with an object
  have hshort : ∀ {members object}, Text num (.obj members) object →
      ¬object <+: '{' :: rest := by
    intro members object hobject hstart
    have hsame := object_start hs hobject (hstart.trans (hcut.trans hpart))
    have hlength := (hstart.trans hcut).length_le
    rw [hsame] at hlength
    exact hne (String.toList_inj.mp (hpart.eq_of_length (Nat.le_antisymm hpart.length_le hlength)))
  have hloads : loads num ('{' :: rest) = none := by
    cases hloads : loads num ('{' :: rest) with
    | none => rfl
    | some o =>
        obtain ⟨members, object, w, htext, hobject, -, -⟩ := loads_brace hloads
        exact absurd (htext ▸ List.prefix_append object w) (hshort hobject)
  cases hfirst : firstObject num ('{' :: rest) with
  | none =>
      obtain ⟨members, object, hobject, before, after, hsplit⟩ := hholds
      rw [← hsplit, List.append_assoc] at hfirst
      exact absurd hfirst (firstObject_ne_none hobject before after)
  | some o =>
      obtain ⟨before, object, after, members, htext, hobject, rfl⟩ := firstObject_sound hfirst
      have hbefore : before ≠ [] := by
        rintro rfl
        exact hshort hobject (htext ▸ List.prefix_append object after)
      obtain ⟨cut, hresponse⟩ := hcut.trans hpart
      have hall : (Value.obj members).All FoundKey WellFormed := by
        have hsplit : s.toList = before ++ (object ++ (after ++ cut)) := by
          rw [← hresponse, htext, List.append_assoc, List.append_assoc]
        exact found_in_response hfacts hs hobject hsplit hbefore
      refine ⟨_, ?_, by rw [← Value.dict_obj]; exact Value.all_dict hall⟩
      rw [← Value.dict_obj, parses_recover_iff (stripFences_of_brace hstrip), hstrip]
      exact Or.inr ⟨hloads, Or.inl hfirst⟩

/-- A cut response that holds an object is accepted as a response without facts. -/
theorem parse_of_holds (hclient : client.json = jsonModule num) (hschema : ValidatesFacts num schema)
    (hfacts : ∀ fact ∈ facts, IsFactItem fact) (hs : Text num (responseValue facts) s.toList)
    (hpart : t.toList <+: s.toList) (hne : t ≠ s) (hholds : HoldsObject num t.toList)
    (finishReason : Option String) :
    client.parse schema { content := some t, finishReason := finishReason } =
      .ok { facts := [] } := by
  obtain ⟨members, hparses, hall⟩ := recover_of_holds hfacts hs hpart hne hholds
  have hmissing : factsKey ∉ members.map Prod.fst := by
    intro hmem
    obtain ⟨m, hm, hkey⟩ := List.mem_map.mp hmem
    exact ((Value.all_obj.mp hall) m hm).1.1 hkey
  have hwell : (Value.obj members).All WellFormed WellFormed :=
    hall.mono (fun _ h => h.2) (fun _ h => h)
  have hnonempty : t ≠ "" := by
    obtain ⟨_, object, hobject, hinside⟩ := hholds
    obtain ⟨c, rest, rfl, -⟩ := hobject.start
    rintro rfl
    exact absurd (List.infix_nil.mp hinside) (List.cons_ne_nil c rest)
  rw [LLMClient.parse]
  simp only [hnonempty, if_false, hclient]
  exact hschema.defaults _ members hparses hwell hmissing

/-- A cut response that holds no object is refused. -/
theorem parse_of_not_holds (hclient : client.json = jsonModule num)
    (hschema : ValidatesFacts num schema) (hs : Text num (responseValue facts) s.toList)
    (hpart : t.toList <+: s.toList) (hnone : ¬HoldsObject num t.toList)
    (finishReason : Option String) :
    ∃ error, client.parse schema { content := some t, finishReason := finishReason } =
      .error error := by
  by_cases hempty : t = ""
  · subst hempty
    exact ⟨_, rfl⟩
  · obtain ⟨depth, body, hbody, -⟩ := hs.obj_shape
    obtain ⟨rest, ht⟩ : ∃ rest, t.toList = '{' :: rest := by
      cases ht : t.toList with
      | nil => exact absurd (String.toList_inj.mp ht) hempty
      | cons c rest =>
          rw [ht, hbody, List.cons_prefix_cons] at hpart
          exact ⟨rest, by rw [hpart.1]⟩
    obtain ⟨hloads, hrecover⟩ := recover_of_not_holds ht hnone
    obtain ⟨error, herror⟩ := hschema.refuses t hloads
    refine ⟨error, ?_⟩
    rw [LLMClient.parse]
    simp only [hempty, if_false, hclient, hrecover]
    exact herror

/-- A proper prefix of a response is refused if, and only if, no complete JSON
object stands in it: neither a fact nor anything that reads as an object inside
the text of one. The recovery looks for an object at every brace of what the
strict parser refused, and the first fact of a truncated answer is one. -/
theorem truncation_refused_iff (hclient : client.json = jsonModule num)
    (hschema : ValidatesFacts num schema) (hfacts : ∀ fact ∈ facts, IsFactItem fact)
    (hs : Text num (responseValue facts) s.toList) (hpart : t.toList <+: s.toList) (hne : t ≠ s)
    (finishReason : Option String) :
    RetriesOrRaises client schema { content := some t, finishReason := finishReason } ↔
      ¬HoldsObject num t.toList := by
  constructor
  · intro hrefused hholds
    have hok := parse_of_holds hclient hschema hfacts hs hpart hne hholds finishReason
    exact not_retriesOrRaises_of_ok hok hrefused
  · intro hnone
    obtain ⟨error, herror⟩ := parse_of_not_holds hclient hschema hs hpart hnone finishReason
    exact retriesOrRaises_of_error herror

end Completions

/-! ### A response that is cut after its first fact -/

/-- A client with the JSON of the standard library. -/
def jsonClient : LLMClient where
  model := "fixture"
  json := jsonModule oneFloat

/-- The validation of `_FactExtractionResponse` without the field `facts`. -/
def defaultsSchema : ResponseSchema FactExtractionResponse where
  name := "_FactExtractionResponse"
  typedef := "class FactExtractionResponse"
  jsonSchema := ""
  modelValidateJson text :=
    match loads oneFloat text.toList with
    | some (.obj members) =>
        if factsKey ∈ members.map Prod.fst then .error (.valueError "facts")
        else .ok { facts := [] }
    | _ => .error (.valueError "Invalid JSON")

theorem defaultsSchema_validates : ValidatesFacts oneFloat defaultsSchema where
  refuses text hnone := ⟨.valueError "Invalid JSON", by simp only [defaultsSchema, hnone]⟩
  defaults text members hparses _ hmissing := by
    rw [Parses] at hparses
    simp only [defaultsSchema, hparses, if_neg hmissing]

/-- `text`, as a key. -/
def textKey : List CodeUnit := "text".toList.flatMap utf16

/-- A fact whose text is one letter. -/
def letterFact : Value Unit := .obj [(textKey, .str [0x61])]

def letterFactText : List Char := ['{', '"', 't', 'e', 'x', 't', '"', ':', '"', 'a', '"', '}']

/-- A response up to its first fact. -/
def responseStart : List Char := ['{', '"', 'f', 'a', 'c', 't', 's', '"', ':', '[']

theorem text_of_scan {text : List Char} {v : Value Unit} (h : scan oneFloat text = some (v, [])) :
    Text oneFloat v text := by
  obtain ⟨taken, htaken, hv⟩ := scan_sound h
  rw [List.append_nil] at htaken
  rwa [htaken]

theorem letterFact_isFactItem : ∀ fact ∈ [letterFact], IsFactItem fact := by
  intro fact hfact
  rw [List.mem_singleton.mp hfact]
  intro m hm
  rw [List.mem_singleton.mp hm]
  exact ⟨by decide, ['a'], rfl⟩

def wholeResponse : String := String.ofList (responseStart ++ letterFactText ++ [']', '}'])

/-- The response without its last two characters. -/
def cutResponse : String := String.ofList (responseStart ++ letterFactText)

theorem wholeResponse_text : Text oneFloat (responseValue [letterFact]) wholeResponse.toList := by
  rw [wholeResponse, String.toList_ofList]
  exact text_of_scan rfl

theorem not_holds_of_no_end {text : List Char} (h : '}' ∉ text) : ¬HoldsObject oneFloat text := by
  rintro ⟨members, object, hobject, hinside⟩
  obtain ⟨depth, body, rfl, -⟩ := hobject.obj_shape
  exact h (hinside.mem (by simp))

/-- A response that is cut inside its first fact, with nothing that reads as an
object in it. It is refused, so the call is made again with more tokens. -/
theorem truncation_refused_iff_start : RetriesOrRaises jsonClient defaultsSchema
    { content := some (String.ofList responseStart), finishReason := some "length" } := by
  refine (truncation_refused_iff rfl defaultsSchema_validates letterFact_isFactItem
    wholeResponse_text ?_ ?_ (some "length")).mpr ?_
  · rw [wholeResponse, String.toList_ofList, String.toList_ofList]
    exact ⟨letterFactText ++ [']', '}'], rfl⟩
  · decide
  · rw [String.toList_ofList]
    exact not_holds_of_no_end (by decide)

theorem cutResponse_holds : HoldsObject oneFloat cutResponse.toList := by
  refine ⟨[(textKey, .str [0x61])], letterFactText, text_of_scan rfl, ?_⟩
  rw [cutResponse, String.toList_ofList]
  exact (List.suffix_append responseStart letterFactText).isInfix

/-- A response of one fact is cut before its last two characters, and accepted
without the fact. -/
theorem truncation_accepted :
    Text oneFloat (responseValue [letterFact]) wholeResponse.toList ∧
      cutResponse.toList <+: wholeResponse.toList ∧ cutResponse ≠ wholeResponse ∧
      ¬RetriesOrRaises jsonClient defaultsSchema
        { content := some cutResponse, finishReason := some "length" } ∧
      jsonClient.structuredCompletion defaultsSchema { systemPrompt := "Extract facts." }
        (fun _ _ => .ok { content := some cutResponse, finishReason := some "length" }) "a" =
          .ok { facts := [] } := by
  have hpart : cutResponse.toList <+: wholeResponse.toList := by
    rw [cutResponse, wholeResponse, String.toList_ofList, String.toList_ofList]
    exact List.prefix_append _ _
  have hne : cutResponse ≠ wholeResponse := by decide
  have hparse : jsonClient.parse defaultsSchema
      { content := some cutResponse, finishReason := some "length" } = .ok { facts := [] } :=
    parse_of_holds rfl defaultsSchema_validates letterFact_isFactItem wholeResponse_text hpart hne
      cutResponse_holds (some "length")
  exact ⟨wholeResponse_text, hpart, hne, not_retriesOrRaises_of_ok hparse,
    LLMClient.structuredCompletion_of_answer _ _ _ rfl hparse⟩

end ContextMemory
