/-
`_recover_json_object` (`core/llm_client.py`) over `json` of the standard library.

The scan for a brace is a search through the ends of the text: `firstObject` is the first object
that starts at a brace, and `recoverJsonObject` answers the text itself, that object as it is
dumped, or the input (`recover_eq`).
-/

import ContextMemory.Client.Llm
import ContextMemory.Lib.JsonScan

namespace ContextMemory

open JsonText

section Library

variable {F : Type} (num : Numbers F)

/-- `json` of the standard library. -/
def jsonModule : JsonLibrary where
  loads text := (loads num text.toList).isSome
  rawDecode text index :=
    match scan num (text.toList.drop index) with
    | none => none
    | some (.obj members, _) => some (some (String.ofList (write num (Value.obj members).dict)))
    | some _ => some none

/-- `json.loads(text)` is the value. -/
def Parses (text : String) (o : Value F) : Prop := loads num text.toList = some o

/-- What starts at a brace. -/
def objectAt (text : List Char) : Option (Value F) :=
  if text.head? = some '{' then (scan num text).map fun scanned => scanned.1.dict else none

/-- The first object that starts at a brace. -/
def firstObject (text : List Char) : Option (Value F) := text.tails.findSome? (objectAt num)

end Library

section Found

variable {F : Type} {num : Numbers F}

theorem rawDecode_join (text : String) {index : Nat}
    (hbrace : (text.toList.drop index).head? = some '{') :
    ((jsonModule num).rawDecode text index).join =
      (objectAt num (text.toList.drop index)).map fun o => String.ofList (write num o) := by
  cases hscan : scan num (text.toList.drop index) with
  | none => simp only [jsonModule, hscan, objectAt, hbrace, if_pos, Option.map_none, Option.join_none]
  | some scanned =>
      obtain ⟨v, rest⟩ := scanned
      obtain ⟨taken, htaken, hv⟩ := scan_sound hscan
      obtain ⟨c, after, rfl, -⟩ := hv.start
      have hc : c = '{' := by
        rw [htaken] at hbrace
        exact Option.some.inj hbrace
      subst hc
      obtain ⟨members, rfl⟩ := hv.obj_of_brace
      simp only [jsonModule, hscan, objectAt, hbrace, if_pos, Option.map_some, Option.join_some]

/-- The loop over the braces. -/
theorem findSome?_zipIdx (text : String) (before after : List Char)
    (htext : text.toList = before ++ after) :
    ((after.zipIdx before.length).findSome? fun entry =>
      if entry.1 = '{' then ((jsonModule num).rawDecode text entry.2).join else none) =
      (firstObject num after).map fun o => String.ofList (write num o) := by
  induction after generalizing before with
  | nil => rfl
  | cons c after ih =>
      have hdrop : text.toList.drop before.length = c :: after := by
        rw [htext, List.drop_left]
      have hrest := ih (before ++ [c]) (by simpa using htext)
      rw [List.length_append, List.length_singleton] at hrest
      rw [List.zipIdx_cons, List.findSome?_cons, firstObject, List.tails_cons, List.findSome?_cons, hrest]
      by_cases hc : c = '{'
      · subst hc
        have hjoin : ((jsonModule num).rawDecode text before.length).join =
            (objectAt num (text.toList.drop before.length)).map fun o =>
              String.ofList (write num o) := rawDecode_join text (by rw [hdrop]; rfl)
        simp only [if_pos, hjoin, hdrop]
        cases objectAt num ('{' :: after) with
        | none => rfl
        | some o => rfl
      · have hnone : objectAt num (c :: after) = none := by
          rw [objectAt, if_neg]
          simpa using hc
        simp only [if_neg hc, hnone]
        rfl

/-- What `_recover_json_object` answers. -/
theorem recover_eq (rawText : String) :
    recoverJsonObject (jsonModule num) rawText =
      if (loads num (stripFences (strip rawText)).toList).isSome then stripFences (strip rawText)
      else
        ((firstObject num (stripFences (strip rawText)).toList).map fun o =>
          String.ofList (write num o)).getD rawText := by
  generalize htext : stripFences (strip rawText) = text
  have hscan : (text.toList.zipIdx.findSome? fun entry =>
      if entry.1 = '{' then ((jsonModule num).rawDecode text entry.2).join else none) =
      (firstObject num text.toList).map fun o => String.ofList (write num o) :=
    findSome?_zipIdx text [] text.toList (List.nil_append _).symm
  have hloads : (jsonModule num).loads text = (loads num text.toList).isSome := rfl
  simp only [recoverJsonObject, htext, hscan, hloads]

/-! ### What the scan finds -/

theorem firstObject_cons (c : Char) (text : List Char) :
    firstObject num (c :: text) = (objectAt num (c :: text)).or (firstObject num text) := by
  rw [firstObject, List.tails_cons, List.findSome?_cons]
  cases objectAt num (c :: text) with
  | none => rfl
  | some o => rfl

theorem objectAt_of_ne {c : Char} (hc : c ≠ '{') (text : List Char) :
    objectAt num (c :: text) = none := by
  rw [objectAt, if_neg]
  simpa using hc

/-- The first such character after a text without one is in the rest. -/
theorem past_of_not_mem {c : Char} {before text after rest : List Char} (hbefore : c ∉ before)
    (h : before ++ text = after ++ c :: rest) :
    ∃ middle, after = before ++ middle ∧ text = middle ++ c :: rest := by
  rcases List.append_eq_append_iff.mp h with ⟨middle, rfl, htext⟩ | ⟨middle, rfl, hrest⟩
  · exact ⟨middle, rfl, htext⟩
  · cases middle with
    | nil => exact ⟨[], by simp, hrest.symm⟩
    | cons d middle =>
        obtain ⟨rfl, -⟩ := List.cons.inj hrest
        exact absurd (by simp) hbefore

/-- The scan passes over a text without a brace. -/
theorem firstObject_append {before : List Char} (hbefore : '{' ∉ before) (text : List Char) :
    firstObject num (before ++ text) = firstObject num text := by
  induction before with
  | nil => rfl
  | cons c before ih =>
      rw [List.mem_cons, not_or] at hbefore
      rw [List.cons_append, firstObject_cons, objectAt_of_ne (Ne.symm hbefore.1), ih hbefore.2,
        Option.none_or]

theorem objectAt_of_text {members : List (List CodeUnit × Value F)} {text : List Char}
    (h : Text num (.obj members) text) (rest : List Char) :
    objectAt num (text ++ rest) = some (Value.obj members).dict := by
  obtain ⟨depth, body, hbody, -⟩ := h.obj_shape
  have hbrace : (text ++ rest).head? = some '{' := by rw [hbody]; rfl
  rw [objectAt, if_pos hbrace, scan_complete h (ends_obj members rest)]
  rfl

theorem objectAt_sound {text : List Char} {o : Value F} (h : objectAt num text = some o) :
    ∃ taken rest members, text = taken ++ rest ∧ Text num (.obj members) taken ∧
      o = (Value.obj members).dict := by
  unfold objectAt at h
  split at h
  · rename_i hbrace
    obtain ⟨⟨v, rest⟩, hscan, rfl⟩ := Option.map_eq_some_iff.mp h
    obtain ⟨taken, rfl, hv⟩ := scan_sound hscan
    obtain ⟨c, after, rfl, -⟩ := hv.start
    cases hbrace
    obtain ⟨members, rfl⟩ := hv.obj_of_brace
    exact ⟨_, rest, members, rfl, hv, rfl⟩
  · cases h

/-- An object that starts a text is what the scan finds. -/
theorem firstObject_of_text {members : List (List CodeUnit × Value F)} {text : List Char}
    (h : Text num (.obj members) text) (rest : List Char) :
    firstObject num (text ++ rest) = some (Value.obj members).dict := by
  have hobject := objectAt_of_text h rest
  obtain ⟨depth, body, rfl, -⟩ := h.obj_shape
  rw [List.cons_append] at hobject ⊢
  rw [firstObject_cons, hobject, Option.some_or]

/-- What is found is an object that the text holds. -/
theorem firstObject_sound {text : List Char} {o : Value F} (h : firstObject num text = some o) :
    ∃ before taken rest members, text = before ++ (taken ++ rest) ∧
      Text num (.obj members) taken ∧ o = (Value.obj members).dict := by
  obtain ⟨after, hafter, hobject⟩ := List.exists_of_findSome?_eq_some h
  obtain ⟨before, rfl⟩ := (List.mem_tails _ _).mp hafter
  obtain ⟨taken, rest, members, rfl, hv, rfl⟩ := objectAt_sound hobject
  exact ⟨before, taken, rest, members, rfl, hv, rfl⟩

/-- The scan finds something where the text holds an object. -/
theorem firstObject_ne_none {members : List (List CodeUnit × Value F)} {taken : List Char}
    (h : Text num (.obj members) taken) (before rest : List Char) :
    firstObject num (before ++ (taken ++ rest)) ≠ none := by
  intro hnone
  have hall := List.findSome?_eq_none_iff.mp hnone (taken ++ rest)
    ((List.mem_tails _ _).mpr (List.suffix_append before _))
  rw [objectAt_of_text h] at hall
  cases hall

/-- What the answer of `_recover_json_object` parses to. -/
theorem parses_recover_iff {rawText text : String} (htext : stripFences (strip rawText) = text)
    {o : Value F} :
    Parses num (recoverJsonObject (jsonModule num) rawText) o ↔
      Parses num text o ∨ (loads num text.toList = none ∧ (firstObject num text.toList = some o ∨
        (firstObject num text.toList = none ∧ Parses num rawText o))) := by
  rw [recover_eq, htext]
  cases hloads : loads num text.toList with
  | some v => simp [Parses, hloads]
  | none =>
      cases hfirst : firstObject num text.toList with
      | none => simp [Parses, hloads]
      | some found =>
          obtain ⟨before, taken, rest, members, -, hobject, rfl⟩ := firstObject_sound hfirst
          have hwritten := loads_write hobject
          simp [Parses, hloads, hwritten]

end Found

/-! ### Stripping -/

/-- A text without the white space at its end. -/
def stripEnd (text : List Char) : List Char := (text.reverse.dropWhile pySpace).reverse

theorem stripEnd_prefix (text : List Char) : stripEnd text <+: text := by
  rw [stripEnd, ← List.reverse_suffix, List.reverse_reverse]
  exact List.dropWhile_suffix _

theorem stripEnd_append {text rest : List Char} {c : Char} (hlast : text.getLast? = some c)
    (hc : pySpace c = false) : stripEnd (text ++ rest) = text ++ stripEnd rest := by
  obtain ⟨before, rfl⟩ := List.getLast?_eq_some_iff.mp hlast
  rw [stripEnd, List.reverse_append, List.dropWhile_append]
  split
  · rename_i hempty
    rw [List.isEmpty_iff] at hempty
    rw [stripEnd, hempty, List.reverse_append, List.reverse_singleton, List.singleton_append,
      List.dropWhile_cons_of_neg (by simp [hc])]
    simp
  · rw [List.reverse_append, List.reverse_reverse, stripEnd]

/-- `strip` takes the white space off both ends. -/
theorem toList_strip {rawText : String} {w text rest : List Char} {c d : Char}
    (hraw : rawText.toList = w ++ (c :: text ++ rest)) (hw : ∀ x ∈ w, pySpace x = true)
    (hc : pySpace c = false) (hlast : (c :: text).getLast? = some d) (hd : pySpace d = false) :
    (strip rawText).toList = c :: text ++ stripEnd rest := by
  rw [strip, String.toList_ofList, hraw, List.dropWhile_append_of_pos hw, List.cons_append,
    List.dropWhile_cons_of_neg (by simp [hc]), ← List.cons_append]
  exact stripEnd_append hlast hd

theorem strip_infix (rawText : String) : (strip rawText).toList <:+: rawText.toList := by
  rw [strip, String.toList_ofList]
  have hpart := stripEnd_prefix (rawText.toList.dropWhile pySpace)
  exact hpart.isInfix.trans (List.dropWhile_suffix _).isInfix

theorem pySpace_of_isSpace {c : Char} (h : isSpace c = true) : pySpace c = true := by
  simp only [isSpace, Bool.or_eq_true, decide_eq_true_iff] at h
  rcases h with ((rfl | rfl) | rfl) | rfl <;> decide

section Braces

variable {F : Type} {num : Numbers F}

theorem stripFences_of_brace {text : String} {rest : List Char} (h : text.toList = '{' :: rest) :
    stripFences text = text := by
  have hfence : isFence text.toList = false := by
    rw [h]
    rfl
  rw [stripFences, hfence]
  rfl

theorem loads_of_brace {text : List Char} (h : scan num ('{' :: text) = none) :
    loads num ('{' :: text) = none := by
  have hskip : skip ('{' :: text) = '{' :: text := skip_append ws_nil (headNot_cons (by decide) text)
  rw [loads, hskip, h]

theorem getLast?_text {w : List Char} {members : List (List CodeUnit × Value F)} {text : List Char}
    (h : Text num (.obj members) text) : (w ++ text).getLast? = some '}' := by
  obtain ⟨depth, body, rfl, -⟩ := h.obj_shape
  rw [← List.cons_append, ← List.append_assoc, List.getLast?_concat]

/-- A text that starts with a brace is read as the object that it starts with. -/
theorem loads_brace {text : List Char} {o : Value F} (h : loads num ('{' :: text) = some o) :
    ∃ members object w, '{' :: text = object ++ w ∧ Text num (.obj members) object ∧ Ws w ∧
      o = (Value.obj members).dict := by
  obtain ⟨w, object, w', v, hw, hw', hv, htext, rfl⟩ := loads_sound h
  obtain ⟨c, rest, rfl, hc, -⟩ := hv.start
  have hsame : '{' :: text = c :: rest ++ w' :=
    eq_of_ws_append ws_nil hw (headNot_cons (by decide) text) (headNot_cons hc _) htext
  obtain ⟨rfl, -⟩ := List.cons.inj hsame
  obtain ⟨members, rfl⟩ := hv.obj_of_brace
  exact ⟨members, _, w', hsame, hv, hw', rfl⟩

/-- An object that starts the scanned text is what the answer parses to. -/
theorem parses_recover_of_start {rawText text : String} {object rest : List Char}
    {members : List (List CodeUnit × Value F)} (htext : stripFences (strip rawText) = text)
    (hobject : Text num (.obj members) object) (hstart : text.toList = object ++ rest) :
    Parses num (recoverJsonObject (jsonModule num) rawText) (Value.obj members).dict := by
  rw [parses_recover_iff htext]
  cases hloads : loads num text.toList with
  | none =>
      rw [hstart, firstObject_of_text hobject]
      exact Or.inr ⟨rfl, Or.inl rfl⟩
  | some o =>
      obtain ⟨depth, body, hbody, -⟩ := hobject.obj_shape
      have hbrace : text.toList = '{' :: (body ++ ['}'] ++ rest) := by
        rw [hstart, hbody]
        rfl
      rw [hbrace] at hloads
      obtain ⟨members', taken, w, hsplit, htaken, -, rfl⟩ := loads_brace hloads
      rw [← hbrace, hstart] at hsplit
      obtain ⟨hsame, -⟩ := hobject.unique_start htaken (ends_obj _ _) (ends_obj _ _) hsplit
      left
      rw [Parses, hbrace, hloads, hsame]

end Braces

end ContextMemory
