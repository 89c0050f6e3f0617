/-
The two shapes in which `LLMClient` describes a response model (`core/llm_client.py`).

A typedef is rendered from the annotations of the fields: a nested model is defined before the
model that has it, if one layer of an annotation leads to it. The JSON Schema of a model is made
by its library and is a parameter; what the prompt shows of it is stripped of noise keys.
-/

import ContextMemory.Lib.JsonText
import ContextMemory.Client.Http

namespace ContextMemory

/-! ### Response models -/

/-- A value of a `Literal`. -/
inductive LiteralValue where
  | str (value : String)
  | int (value : Int)
  | bool (value : Bool)
  | none
deriving DecidableEq

/-- `json.dumps(value)`. -/
def LiteralValue.dumps : LiteralValue → String
  | .str value => String.ofList (JsonText.quote (value.toList.flatMap JsonText.utf16))
  | .int value => toString value
  | .bool value => if value then "true" else "false"
  | .none => "null"

/-- A type annotation over the model classes `κ`. A `listLike` is a `list`, `tuple`, `set`,
`frozenset` or `Sequence`; anything else is known by its `__name__`, if it has one. -/
inductive TypeHint (κ : Type) where
  | literal (values : List LiteralValue)
  | union (args : List (TypeHint κ))
  | listLike (args : List (TypeHint κ))
  | dict
  | model (model : κ)
  | str | int | float | bool | noneType
  | other (name : Option String)

/-- `annotation is type(None)`. -/
def TypeHint.isNone {κ : Type} : TypeHint κ → Bool
  | .noneType => true
  | _ => false

/-- The model classes of a program: `__name__`, the annotations of `model_fields` and
`model_json_schema()`. -/
structure Classes (κ : Type) where
  name : κ → String
  fields : κ → List (String × TypeHint κ)
  jsonSchema : κ → Json

namespace Classes

variable {κ : Type} (classes : Classes κ)

/-- `_model_name`. -/
def modelName (model : κ) : String :=
  String.ofList ((classes.name model).toList.dropWhile fun c => c = '_')

/-! ### Typedefs -/

mutual

/-- `_render_type`. -/
def renderType : TypeHint κ → String
  | .literal values => " | ".intercalate (values.map LiteralValue.dumps)
  | .union args =>
      match renderNonNone args with
      | none => "null"
      | some text => text ++ (if args.any TypeHint.isNone then "?" else "")
  | .listLike args => (renderFirst args).getD "any" ++ "[]"
  | .dict => "map"
  | .model model => classes.modelName model
  | .str => "string"
  | .int => "int"
  | .float => "float"
  | .bool => "bool"
  | .noneType => "NoneType"
  | .other name => name.getD "any"

/-- `_render_type(non_none[0])`. -/
def renderNonNone : List (TypeHint κ) → Option String
  | [] => none
  | arg :: rest => if arg.isNone then renderNonNone rest else some (renderType arg)

/-- `_render_type(args[0])`. -/
def renderFirst : List (TypeHint κ) → Option String
  | [] => none
  | arg :: _ => some (renderType arg)

end

/-- The `inner` of a field: one layer of its annotation is taken off. -/
def inner : TypeHint κ → Option (TypeHint κ)
  | .listLike args => args.head?
  | .union args => args.find? fun arg => !arg.isNone
  | hint => some hint

/-- The model that a field nests. -/
def nestedModel (hint : TypeHint κ) : Option κ :=
  match inner hint with
  | some (.model model) => some model
  | _ => none

/-- One line of a class. -/
def fieldLine (field : String × TypeHint κ) : String :=
  "  " ++ field.1 ++ " " ++ classes.renderType field.2

/-- The block of a class, without those of nested models. -/
def classBlock (model : κ) : String :=
  "\n".intercalate (["class " ++ classes.modelName model ++ " \x7b"] ++
    (classes.fields model).map classes.fieldLine ++ ["\x7d"])

/-- The loop over the fields: the blocks of nested models, and the models emitted after it. -/
def renderNested (render : κ → List κ → Option (String × List κ)) :
    List (String × TypeHint κ) → List κ → Option (List String × List κ)
  | [], emitted => some ([], emitted)
  | field :: rest, emitted =>
      match nestedModel field.2 with
      | none => renderNested render rest emitted
      | some model =>
          (render model emitted).bind fun first =>
            (renderNested render rest first.2).map fun later =>
              (if first.1 = "" then later.1 else first.1 :: later.1, later.2)

/-- `_render_typedef`, within some depth of the recursion. -/
def renderTypedef [DecidableEq κ] : Nat → κ → List κ → Option (String × List κ)
  | 0, _, _ => none
  | depth + 1, model, emitted =>
      if model ∈ emitted then some ("", emitted)
      else
        (renderNested (renderTypedef depth) (classes.fields model) (emitted ++ [model])).map
          fun nested => ("\n".intercalate (nested.1 ++ [classes.classBlock model]), nested.2)

end Classes

/-! ### JSON Schema -/

/-- `_SCHEMA_NOISE_KEYS`. -/
def schemaNoiseKeys : List String := ["title", "default"]

mutual

/-- `_strip_schema_noise`. -/
def stripSchemaNoise : Json → Json
  | .obj fields => .obj (stripFields fields)
  | .arr items => .arr (stripItems items)
  | value => value

def stripFields : List (String × Json) → List (String × Json)
  | [] => []
  | (key, value) :: rest =>
      if key ∈ schemaNoiseKeys then stripFields rest
      else (key, stripSchemaNoise value) :: stripFields rest

def stripItems : List Json → List Json
  | [] => []
  | item :: rest => stripSchemaNoise item :: stripItems rest

end

end ContextMemory
