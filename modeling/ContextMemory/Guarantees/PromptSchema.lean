/-
What the prompt shows of a response model.

A typedef defines the models that direct fields lead to, once each (`renderTypedef_eq`), and a
field can show a model below that: a list in an optional, for one. So a shown model may be missing,
and two models may be printed alike. A JSON Schema loses every property that is called like a
noise key. `prompt_schema_iff` says when neither happens.
-/

import ContextMemory.Lib.Visit
import ContextMemory.Client.PromptSchema

namespace ContextMemory

namespace Classes

variable {κ : Type} (classes : Classes κ)

/-! ### Shown models -/

mutual

/-- The model whose name `renderType` prints. -/
def shown : TypeHint κ → Option κ
  | .model model => some model
  | .union args => shownNonNone args
  | .listLike args => shownFirst args
  | _ => none

def shownNonNone : List (TypeHint κ) → Option κ
  | [] => none
  | arg :: rest => if arg.isNone then shownNonNone rest else shown arg

def shownFirst : List (TypeHint κ) → Option κ
  | [] => none
  | arg :: _ => shown arg

end

/-- What may follow a name in the text of a type. -/
inductive Suffix : String → Prop where
  | none : Suffix ""
  | array {text : String} : Suffix text → Suffix (text ++ "[]")
  | optional {text : String} : Suffix text → Suffix (text ++ "?")

variable {classes}

mutual

/-- The text of a type is the name of the shown model with brackets and question
marks. -/
theorem renderType_of_shown {model : κ} : ∀ {hint : TypeHint κ}, shown hint = some model →
    ∃ suffix, Suffix suffix ∧ classes.renderType hint = classes.modelName model ++ suffix
  | .model _, h => by
      cases h
      exact ⟨"", Suffix.none, by rw [renderType, String.append_empty]⟩
  | .union args, h => by
      obtain ⟨suffix, hsuffix, htext⟩ := renderNonNone_of_shown h
      rw [renderType, htext]
      dsimp only
      split
      · exact ⟨suffix ++ "?", hsuffix.optional, String.append_assoc⟩
      · exact ⟨suffix, hsuffix, String.append_empty⟩
  | .listLike args, h => by
      obtain ⟨suffix, hsuffix, htext⟩ := renderFirst_of_shown h
      rw [renderType, htext, Option.getD_some]
      exact ⟨suffix ++ "[]", hsuffix.array, String.append_assoc⟩

theorem renderNonNone_of_shown {model : κ} : ∀ {args : List (TypeHint κ)},
    shownNonNone args = some model → ∃ suffix, Suffix suffix ∧
      classes.renderNonNone args = some (classes.modelName model ++ suffix)
  | arg :: rest, h => by
      rw [shownNonNone] at h
      rw [renderNonNone]
      split
      · rename_i hnone
        rw [if_pos hnone] at h
        exact renderNonNone_of_shown h
      · rename_i hsome
        rw [if_neg hsome] at h
        obtain ⟨suffix, hsuffix, htext⟩ := renderType_of_shown h
        exact ⟨suffix, hsuffix, by rw [htext]⟩

theorem renderFirst_of_shown {model : κ} : ∀ {args : List (TypeHint κ)},
    shownFirst args = some model → ∃ suffix, Suffix suffix ∧
      classes.renderFirst args = some (classes.modelName model ++ suffix)
  | arg :: _, h => by
      obtain ⟨suffix, hsuffix, htext⟩ := renderType_of_shown h
      exact ⟨suffix, hsuffix, by rw [renderFirst, htext]⟩

end

/-! ### Defined models -/

section Typedef

variable (classes)

/-- The models that the fields of a model nest. -/
def nested (model : κ) : List κ := (classes.fields model).filterMap fun field => nestedModel field.2

/-- The blocks of some models, one after the other. -/
def typedefText (models : List κ) : String := "\n".intercalate (models.map classes.classBlock)

variable {classes}

theorem intercalate_ne_empty {separator text : String} (h : text ≠ "") (texts : List String) :
    separator.intercalate (text :: texts) ≠ "" := by
  have hnil : text.toList ≠ [] := fun hnil => h (String.toList_inj.mp hnil)
  intro hempty
  have hlist := congrArg String.toList hempty
  rw [String.toList_intercalate] at hlist
  cases texts with
  | nil => exact hnil (by simpa using hlist)
  | cons next texts =>
      rw [List.map_cons, List.map_cons, List.intercalate_cons_cons] at hlist
      exact hnil (List.append_eq_nil_iff.mp (List.append_eq_nil_iff.mp hlist).1).1

theorem typedefText_ne_empty {models : List κ} (h : models ≠ []) : classes.typedefText models ≠ "" := by
  obtain ⟨model, rest, rfl⟩ := List.exists_cons_of_ne_nil h
  have hhead : "class " ++ classes.modelName model ++ " \x7b" ≠ "" := by
    intro hempty
    have hlist := congrArg String.toList hempty
    simp at hlist
  exact intercalate_ne_empty (intercalate_ne_empty hhead _) _

theorem typedefText_append {models models' : List κ} (h : models ≠ []) (h' : models' ≠ []) :
    classes.typedefText (models ++ models') =
      classes.typedefText models ++ "\n" ++ classes.typedefText models' := by
  rw [typedefText, List.map_append, String.intercalate_append_of_ne_nil (by simpa using h)
    (by simpa using h'), typedefText, typedefText]

/-- Texts of several models each are the text of all of them. -/
theorem intercalate_parts {parts : List (List κ)} (h : ∀ part ∈ parts, part ≠ []) (model : κ) :
    "\n".intercalate (parts.map classes.typedefText ++ [classes.classBlock model]) =
      classes.typedefText (parts.flatten ++ [model]) := by
  induction parts with
  | nil => rfl
  | cons part parts ih =>
      obtain ⟨hpart, hparts⟩ := List.forall_mem_cons.mp h
      rw [List.map_cons, List.cons_append, String.intercalate_cons_of_ne_nil (by simp), ih hparts,
        List.flatten_cons, List.append_assoc, typedefText_append hpart (by simp)]

/-- The loop over the fields visits the nested models. -/
theorem renderNested_eq {render : κ → List κ → Option (String × List κ)}
    {visit : κ → List κ → Option (Visit.Visited κ)}
    (hrender : ∀ model emitted, render model emitted =
      (visit model emitted).map fun v => (classes.typedefText v.1, v.2))
    (fields : List (String × TypeHint κ)) (emitted : List κ) :
    match Visit.visitAll visit (fields.filterMap fun field => nestedModel field.2) emitted with
    | none => renderNested render fields emitted = none
    | some v => ∃ parts : List (List κ), parts.flatten = v.1 ∧ (∀ part ∈ parts, part ≠ []) ∧
        renderNested render fields emitted = some (parts.map classes.typedefText, v.2) := by
  induction fields generalizing emitted with
  | nil => exact ⟨[], rfl, fun part h => absurd h List.not_mem_nil, rfl⟩
  | cons field rest ih =>
      rw [List.filterMap_cons, renderNested]
      cases nestedModel field.2 with
      | none => exact ih emitted
      | some model =>
          dsimp only
          rw [Visit.visitAll, hrender]
          cases hfirst : visit model emitted with
          | none => rfl
          | some first =>
              have hrest := ih first.2
              rw [Option.map_some, Option.bind_some, Option.bind_some]
              cases hlater : Visit.visitAll visit
                  (rest.filterMap fun field => nestedModel field.2) first.2 with
              | none =>
                  rw [hlater] at hrest
                  dsimp only at hrest ⊢
                  rw [hrest]
                  rfl
              | some later =>
                  rw [hlater] at hrest
                  obtain ⟨parts, hparts, hne, htext⟩ := hrest
                  dsimp only
                  rw [htext, Option.map_some, Option.map_some]
                  by_cases hempty : first.1 = []
                  · refine ⟨parts, ?_, hne, ?_⟩
                    · rw [hempty, List.nil_append, hparts]
                    · have hnil : classes.typedefText [] = "" := rfl
                      rw [hempty, if_pos hnil]
                  · refine ⟨first.1 :: parts, ?_, List.forall_mem_cons.mpr ⟨hempty, hne⟩, ?_⟩
                    · rw [List.flatten_cons, hparts]
                    · rw [if_neg (typedefText_ne_empty hempty), List.map_cons]

/-- **Typedefs.** The rendering is a visit of the nested models. -/
theorem renderTypedef_eq [DecidableEq κ] (depth : Nat) (model : κ) (emitted : List κ) :
    classes.renderTypedef depth model emitted =
      (Visit.visit classes.nested depth model emitted).map fun v => (classes.typedefText v.1, v.2) := by
  induction depth generalizing model emitted with
  | zero => rfl
  | succ depth ih =>
      rw [renderTypedef, Visit.visit]
      split
      · rfl
      · have hnested := renderNested_eq ih (classes.fields model) (emitted ++ [model])
        rw [nested]
        cases hvisit : Visit.visitAll (Visit.visit classes.nested depth)
            ((classes.fields model).filterMap fun field => nestedModel field.2)
            (emitted ++ [model]) with
        | none =>
            rw [hvisit] at hnested
            dsimp only at hnested
            rw [hnested]
            rfl
        | some v =>
            rw [hvisit] at hnested
            obtain ⟨parts, hparts, hne, htext⟩ := hnested
            rw [htext, Option.map_some, Option.map_some, Option.map_some, intercalate_parts hne, hparts]

end Typedef

/-! ### When every shown model is defined -/

section Complete

variable (classes) (root : κ)

/-- The name of every model that a defined one shows is that of one definition, its own. A
definition lists all fields of its model. -/
def DefinesShown (defined : List κ) : Prop :=
  ∀ model ∈ defined, ∀ field ∈ classes.fields model, ∀ other, shown field.2 = some other →
    (defined.filter fun m => classes.modelName m = classes.modelName other) = [other]

/-- Nesting leads to every model that is shown, and to no other of its printed name. -/
def ShownNested : Prop :=
  ∀ model, Visit.Reaches classes.nested root model → ∀ field ∈ classes.fields model,
    ∀ other, shown field.2 = some other → Visit.Reaches classes.nested root other ∧
      ∀ m, Visit.Reaches classes.nested root m → classes.modelName m = classes.modelName other →
        m = other

variable {classes root}

theorem filter_eq_singleton {α : Type} {p : α → Bool} {xs : List α} {x : α} (hnd : xs.Nodup) :
    xs.filter p = [x] ↔ (x ∈ xs ∧ p x = true) ∧ ∀ y ∈ xs, p y = true → y = x := by
  constructor
  · intro h
    have hmem : ∀ y, y ∈ xs ∧ p y = true ↔ y = x := fun y => by
      rw [← List.mem_filter, h, List.mem_singleton]
    exact ⟨(hmem x).mpr rfl, fun y hy hp => (hmem y).mp ⟨hy, hp⟩⟩
  · rintro ⟨hx, huniq⟩
    refine (List.perm_singleton.mp ((List.perm_ext_iff_of_nodup (hnd.filter p)
      (List.nodup_singleton x)).mpr fun y => ?_))
    rw [List.mem_filter, List.mem_singleton]
    exact ⟨fun hy => huniq y hy.1 hy.2, fun hy => hy ▸ hx⟩

theorem definesShown_iff {defined : List κ} (hnd : defined.Nodup)
    (hmem : ∀ model, model ∈ defined ↔ Visit.Reaches classes.nested root model) :
    classes.DefinesShown defined ↔ classes.ShownNested root := by
  simp only [DefinesShown, ShownNested, filter_eq_singleton hnd, hmem, decide_eq_true_eq, and_true]

end Complete

end Classes

/-! ### JSON Schema -/

/-- One step from a schema to a part of it that is a schema: to one of those that a keyword names
or lists, or to the one that it has. -/
inductive SchemaStep where
  | member (keyword name : String)
  | item (keyword : String) (index : Nat)
  | value (keyword : String)

namespace SchemaStep

def memberKeywords : List String := ["properties", "$defs", "patternProperties", "dependentSchemas"]

def itemKeywords : List String := ["anyOf", "oneOf", "allOf", "prefixItems"]

def valueKeywords : List String :=
  ["items", "additionalProperties", "contains", "propertyNames", "not", "if", "then", "else",
    "unevaluatedItems", "unevaluatedProperties"]

/-- The part of a schema to which a step leads. -/
def part (s : Json) : SchemaStep → Option Json
  | member keyword name =>
      if keyword ∈ memberKeywords then (s.get keyword).bind fun members => members.get name else none
  | item keyword index =>
      if keyword ∈ itemKeywords then
        match s.get keyword with
        | some (.arr items) => items[index]?
        | _ => none
      else none
  | value keyword => if keyword ∈ valueKeywords then s.get keyword else none

/-- The step goes by no name that is a noise key. -/
def Clean : SchemaStep → Prop
  | member _ name => name ∉ schemaNoiseKeys
  | _ => True

instance : DecidablePred Clean := fun step => match step with
  | member _ name => inferInstanceAs (Decidable (name ∉ schemaNoiseKeys))
  | item _ _ => isTrue trivial
  | value _ => isTrue trivial

end SchemaStep

/-- The part of a schema to which some steps lead. -/
def Json.follow (s : Json) : List SchemaStep → Option Json
  | [] => some s
  | step :: steps => (step.part s).bind fun part => part.follow steps

/-- A schema has a property, of the object to which some steps lead. -/
def HasProperty (s : Json) (steps : List SchemaStep) (name : String) : Prop :=
  (s.follow (steps ++ [.member "properties" name])).isSome

/-- Every property of every object stays in its place. -/
def KeepsProperties (s : Json) : Prop :=
  ∀ steps name, HasProperty s steps name → HasProperty (stripSchemaNoise s) steps name

/-- No property is called like a noise key, nor is a definition or a property on the way to one. -/
def CleanNames (s : Json) : Prop :=
  ∀ steps name, HasProperty s steps name →
    ∀ step ∈ steps ++ [.member "properties" name], step.Clean

/-! ### When the filter keeps every property -/

section Strip

theorem lookup_stripFields (key : String) (fields : List (String × Json)) :
    (stripFields fields).lookup key =
      if key ∈ schemaNoiseKeys then none else (fields.lookup key).map stripSchemaNoise := by
  induction fields with
  | nil =>
      rw [stripFields, List.lookup_nil, Option.map_none, ite_self]
  | cons field rest ih =>
      obtain ⟨name, value⟩ := field
      rw [stripFields]
      by_cases hkey : key = name
      · subst hkey
        split
        · rename_i hnoise
          exact ih.trans (if_pos hnoise)
        · rw [List.lookup_cons_self, List.lookup_cons_self, Option.map_some]
      · have hne : (key == name) = false := beq_false_of_ne hkey
        rw [List.lookup_cons, hne]
        split
        · exact ih
        · rw [List.lookup_cons, hne]
          exact ih

theorem get_stripSchemaNoise (s : Json) (key : String) :
    (stripSchemaNoise s).get key =
      if key ∈ schemaNoiseKeys then none else (s.get key).map stripSchemaNoise := by
  cases s with
  | obj fields => exact lookup_stripFields key fields
  | _ => exact (ite_self none).symm

theorem getElem?_stripItems (items : List Json) (index : Nat) :
    (stripItems items)[index]? = items[index]?.map stripSchemaNoise := by
  induction items generalizing index with
  | nil => rfl
  | cons item rest ih =>
      cases index with
      | zero => rfl
      | succ index => exact ih index

/-- No keyword that leads to a schema is a noise key. -/
theorem keywords_kept {keyword : String} (h : keyword ∈ SchemaStep.memberKeywords ++
    SchemaStep.itemKeywords ++ SchemaStep.valueKeywords) : keyword ∉ schemaNoiseKeys := by
  have hall : ∀ keyword ∈ SchemaStep.memberKeywords ++ SchemaStep.itemKeywords ++
      SchemaStep.valueKeywords, keyword ∉ schemaNoiseKeys := by decide
  exact hall keyword h

theorem get_stripSchemaNoise_keyword (s : Json) {keyword : String}
    (h : keyword ∈ SchemaStep.memberKeywords ++ SchemaStep.itemKeywords ++
      SchemaStep.valueKeywords) :
    (stripSchemaNoise s).get keyword = (s.get keyword).map stripSchemaNoise := by
  rw [get_stripSchemaNoise, if_neg (keywords_kept h)]

/-- **One step.** The filter keeps what a clean step leads to, filtered, and
drops the rest. -/
theorem part_stripSchemaNoise (s : Json) (step : SchemaStep) :
    step.part (stripSchemaNoise s) =
      if step.Clean then (step.part s).map stripSchemaNoise else none := by
  cases step with
  | member keyword name =>
      by_cases hkeyword : keyword ∈ SchemaStep.memberKeywords
      · rw [SchemaStep.part, SchemaStep.part, if_pos hkeyword, if_pos hkeyword,
          get_stripSchemaNoise_keyword s (by simp [hkeyword])]
        cases s.get keyword with
        | none => simp
        | some members =>
            rw [Option.map_some, Option.bind_some, Option.bind_some, get_stripSchemaNoise]
            exact (ite_not (name ∈ schemaNoiseKeys) _ _).symm
      · simp [SchemaStep.part, hkeyword]
  | item keyword index =>
      rw [if_pos (c := (SchemaStep.item keyword index).Clean) trivial]
      by_cases hkeyword : keyword ∈ SchemaStep.itemKeywords
      · rw [SchemaStep.part, SchemaStep.part, if_pos hkeyword, if_pos hkeyword,
          get_stripSchemaNoise_keyword s (by simp [hkeyword])]
        cases s.get keyword with
        | none => rfl
        | some listed =>
            cases listed with
            | arr items => exact getElem?_stripItems items index
            | _ => rfl
      · rw [SchemaStep.part, SchemaStep.part, if_neg hkeyword, if_neg hkeyword, Option.map_none]
  | value keyword =>
      rw [if_pos (c := (SchemaStep.value keyword).Clean) trivial]
      by_cases hkeyword : keyword ∈ SchemaStep.valueKeywords
      · rw [SchemaStep.part, SchemaStep.part, if_pos hkeyword, if_pos hkeyword,
          get_stripSchemaNoise_keyword s (by simp [hkeyword])]
      · rw [SchemaStep.part, SchemaStep.part, if_neg hkeyword, if_neg hkeyword, Option.map_none]

/-- **Several steps**, by induction on them. -/
theorem follow_stripSchemaNoise (steps : List SchemaStep) (s : Json) :
    (stripSchemaNoise s).follow steps =
      if ∀ step ∈ steps, step.Clean then (s.follow steps).map stripSchemaNoise else none := by
  induction steps generalizing s with
  | nil =>
      rw [if_pos (List.forall_mem_nil _)]
      rfl
  | cons step steps ih =>
      rw [Json.follow, Json.follow, part_stripSchemaNoise]
      by_cases hstep : step.Clean
      · rw [if_pos hstep]
        simp only [List.forall_mem_cons, hstep, true_and]
        cases step.part s with
        | none => simp
        | some part =>
            rw [Option.map_some, Option.bind_some, Option.bind_some]
            exact ih part
      · rw [if_neg hstep, if_neg fun h => hstep (h step List.mem_cons_self), Option.bind_none]

theorem keepsProperties_iff {s : Json} : KeepsProperties s ↔ CleanNames s := by
  refine forall_congr' fun steps => forall_congr' fun name => imp_congr_right fun hproperty => ?_
  rw [HasProperty, follow_stripSchemaNoise]
  constructor
  · intro hkept
    by_contra hclean
    rw [if_neg hclean] at hkept
    cases hkept
  · intro hclean
    rw [if_pos hclean, Option.isSome_map]
    exact hproperty

end Strip

/-! ### Prompt schemas -/

/-- **Prompt schemas.** The typedef of any response model ends and lists all
fields of every model that nesting leads to, once each. It defines every class
that it shows and the JSON Schema keeps every property if and only if nesting
leads to what is shown, under a name of its own, and no name of the schema is a
noise key. What is shown is unwrapped through all layers of an annotation, what
is defined through one. -/
theorem prompt_schema_iff {κ : Type} [Fintype κ] [DecidableEq κ] (classes : Classes κ) (root : κ) :
    ∃ defined emitted : List κ, defined.Perm emitted ∧
      (∃ enough, ∀ depth, enough ≤ depth →
        classes.renderTypedef depth root [] = some (classes.typedefText defined, emitted)) ∧
      (classes.DefinesShown defined ∧ KeepsProperties (classes.jsonSchema root) ↔
        classes.ShownNested root ∧ CleanNames (classes.jsonSchema root)) := by
  have hfuel : (Finset.univ \ ([] : List κ).toFinset).card < Fintype.card κ + 1 := by simp
  obtain ⟨visited, hvisit⟩ : ∃ visited, Visit.visit classes.nested _ root [] = some visited :=
    Visit.exists_visit root hfuel
  obtain ⟨hnodup, hmem⟩ := Visit.visit_root hvisit
  obtain ⟨emitted, hemitted, hperm⟩ := (Visit.visits_of_visit hvisit).seen_eq
  refine ⟨visited.1, visited.2, ?_, ⟨Fintype.card κ + 1, ?_⟩, ?_⟩
  · rw [hemitted, List.nil_append]
    exact hperm.symm
  · intro depth hdepth
    rw [Classes.renderTypedef_eq, Visit.visit_mono hdepth hvisit, Option.map_some]
  · rw [Classes.definesShown_iff hnodup hmem, keepsProperties_iff]

/-! Items in an optional list, and a title. -/

namespace AnswerModel

/-- `_Answer` and `_Item`. -/
inductive Model where
  | answer | item
deriving DecidableEq

def schema : Json :=
  .obj [
    ("$defs", .obj [("_Item", .obj [
      ("properties", .obj [("name", .obj [("title", .str "Name"), ("type", .str "string")])]),
      ("required", .arr [.str "name"]), ("title", .str "_Item"), ("type", .str "object")])]),
    ("properties", .obj [
      ("title", .obj [("title", .str "Title"), ("type", .str "string")]),
      ("items", .obj [
        ("anyOf", .arr [
          .obj [("items", .obj [("$ref", .str "#/$defs/_Item")]), ("type", .str "array")],
          .obj [("type", .str "null")]]),
        ("default", .null), ("title", .str "Items")])]),
    ("required", .arr [.str "title"]), ("title", .str "_Answer"), ("type", .str "object")]

def classes : Classes Model where
  name
    | .answer => "_Answer"
    | .item => "_Item"
  fields
    | .answer => [("title", .str), ("items", .union [.listLike [.model .item], .noneType])]
    | .item => [("name", .str)]
  jsonSchema
    | .answer => schema
    | .item => .obj []

end AnswerModel

open AnswerModel in
/-- The typedef shows `Item` and does not define it, and the schema loses the
title. -/
theorem answer_prompt_incomplete :
    (∀ depth, classes.renderTypedef (depth + 1) .answer [] =
      some (classes.typedefText [.answer], [.answer])) ∧
    classes.typedefText [.answer] = "class Answer \x7b\n  title string\n  items Item[]?\n\x7d" ∧
    ¬ classes.DefinesShown [.answer] ∧ ¬ KeepsProperties schema := by
  refine ⟨fun depth => rfl, by decide, ?_, ?_⟩
  · intro h
    have hitem : ([.answer] : List Model).filter
        (fun m => classes.modelName m = classes.modelName .item) = [.item] :=
      h .answer List.mem_cons_self ("items", .union [.listLike [.model .item], .noneType])
        (by simp [classes]) .item rfl
    exact absurd hitem (by decide)
  · intro h
    have htitle : ((stripSchemaNoise schema).follow [.member "properties" "title"]).isSome :=
      h [] "title" rfl
    exact absurd htitle (by decide)

end ContextMemory
