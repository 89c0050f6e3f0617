/-
JSON values.

Strings are UTF-16. Objects keep their members as they are written; `Value.dict` is what a
dictionary holds of them. A traversal is an `Algebra`, so that each of them is one line at each
kind of node.
-/

import Mathlib.Data.List.Basic
import Mathlib.Algebra.Order.BigOperators.Group.List
import Mathlib.Algebra.Order.Ring.Nat
import ContextMemory.Lib.Ordered

namespace JsonText

/-! ### Values -/

/-- A UTF-16 code unit. -/
abbrev CodeUnit := Fin 0x10000

instance neZero_codeUnits : NeZero 0x10000 := ⟨by decide⟩

/-- The code units of a character. -/
def utf16 (c : Char) : List CodeUnit :=
  if c.toNat < 0x10000 then [Fin.ofNat 0x10000 c.toNat]
  else [Fin.ofNat 0x10000 (0xD800 + (c.toNat - 0x10000) / 0x400),
    Fin.ofNat 0x10000 (0xDC00 + (c.toNat - 0x10000) % 0x400)]

/-- A text without lone surrogates. -/
def WellFormed (units : List CodeUnit) : Prop := ∃ text : List Char, units = text.flatMap utf16

inductive Scalar (F : Type) where
  | null
  | bool (b : Bool)
  | int (n : Int)
  | float (x : F)
deriving DecidableEq

/-- A value, objects with their members in the order of the text. -/
inductive Value (F : Type) where
  | scalar (a : Scalar F)
  | str (units : List CodeUnit)
  | arr (items : List (Value F))
  | obj (members : List (List CodeUnit × Value F))

/-- What a traversal does at each kind of node. -/
structure Algebra (F β : Type) where
  scalar : Scalar F → β
  str : List CodeUnit → β
  arr : List β → β
  obj : List (List CodeUnit × β) → β

namespace Algebra

variable {F β : Type} (alg : Algebra F β)

mutual

def fold : Value F → β
  | .scalar a => alg.scalar a
  | .str units => alg.str units
  | .arr items => alg.arr (foldItems items)
  | .obj members => alg.obj (foldMembers members)

def foldItems : List (Value F) → List β
  | [] => []
  | item :: items => fold item :: foldItems items

def foldMembers : List (List CodeUnit × Value F) → List (List CodeUnit × β)
  | [] => []
  | (key, value) :: members => (key, fold value) :: foldMembers members

end

theorem foldItems_eq_map (items : List (Value F)) : alg.foldItems items = items.map alg.fold := by
  induction items with
  | nil => rw [foldItems, List.map_nil]
  | cons item items ih => rw [foldItems, ih, List.map_cons]

theorem foldMembers_eq_map (members : List (List CodeUnit × Value F)) :
    alg.foldMembers members = members.map fun m => (m.1, alg.fold m.2) := by
  induction members with
  | nil => rw [foldMembers, List.map_nil]
  | cons m members ih => rw [foldMembers, ih, List.map_cons]

theorem fold_scalar (a : Scalar F) : alg.fold (.scalar a) = alg.scalar a := by rw [fold]

theorem fold_str (units : List CodeUnit) : alg.fold (.str units) = alg.str units := by rw [fold]

theorem fold_arr (items : List (Value F)) :
    alg.fold (.arr items) = alg.arr (items.map alg.fold) := by
  rw [fold, foldItems_eq_map]

theorem fold_obj (members : List (List CodeUnit × Value F)) :
    alg.fold (.obj members) = alg.obj (members.map fun m => (m.1, alg.fold m.2)) := by
  rw [fold, foldMembers_eq_map]

end Algebra

namespace Value

variable {F : Type}

/-- Induction over a value, with what holds of every item and of every member. -/
theorem induct {P : Value F → Prop} (scalar : ∀ a, P (.scalar a)) (str : ∀ units, P (.str units))
    (arr : ∀ items, (∀ item ∈ items, P item) → P (.arr items))
    (obj : ∀ members : List (List CodeUnit × Value F), (∀ m ∈ members, P m.2) → P (.obj members))
    (v : Value F) : P v :=
  @Value.rec F P (fun items => ∀ item ∈ items, P item) (fun members => ∀ m ∈ members, P m.2)
    (fun m => P m.2) scalar str arr obj (fun _ h => absurd h List.not_mem_nil)
    (fun _ _ hitem hitems => List.forall_mem_cons.mpr ⟨hitem, hitems⟩)
    (fun _ h => absurd h List.not_mem_nil)
    (fun _ _ hmember hmembers => List.forall_mem_cons.mpr ⟨hmember, hmembers⟩)
    (fun _ _ hvalue => hvalue) v

/-- Every string, and every key of an object. -/
def All (key str : List CodeUnit → Prop) : Value F → Prop :=
  Algebra.fold
    { scalar := fun _ => True
      str := str
      arr := fun items => ∀ item ∈ items, item
      obj := fun members => ∀ m ∈ members, key m.1 ∧ m.2 }

/-- No object writes a key twice. -/
def Distinct : Value F → Prop :=
  Algebra.fold
    { scalar := fun _ => True
      str := fun _ => True
      arr := fun items => ∀ item ∈ items, item
      obj := fun members => (members.map Prod.fst).Nodup ∧ ∀ m ∈ members, m.2 }

/-- What a `dict` holds: of several members with one key, the last value in the first place. -/
def dict : Value F → Value F :=
  Algebra.fold
    { scalar := .scalar
      str := .str
      arr := .arr
      obj := fun members => .obj (Ordered.ofAssignments Prod.fst members) }

/-- How many strings are written, keys included. -/
def strings : Value F → Nat :=
  Algebra.fold
    { scalar := fun _ => 0
      str := fun _ => 1
      arr := fun items => items.sum
      obj := fun members => (members.map fun m => 1 + m.2).sum }

section All

variable {key str : List CodeUnit → Prop}

theorem all_str {units : List CodeUnit} : (Value.str units : Value F).All key str ↔ str units := by
  rw [All, Algebra.fold_str]

theorem all_arr {items : List (Value F)} :
    (Value.arr items).All key str ↔ ∀ item ∈ items, item.All key str := by
  simp only [All, Algebra.fold_arr, List.forall_mem_map]

theorem all_obj {members : List (List CodeUnit × Value F)} :
    (Value.obj members).All key str ↔ ∀ m ∈ members, key m.1 ∧ m.2.All key str := by
  simp only [All, Algebra.fold_obj, List.forall_mem_map]

theorem All.mono {key' str' : List CodeUnit → Prop} {v : Value F} (h : v.All key str)
    (hkey : ∀ units, key units → key' units) (hstr : ∀ units, str units → str' units) :
    v.All key' str' := by
  induction v using induct with
  | scalar a => simp only [All, Algebra.fold_scalar]
  | str units => exact all_str.mpr (hstr units (all_str.mp h))
  | arr items ih =>
      rw [all_arr] at h ⊢
      exact fun item hitem => ih item hitem (h item hitem)
  | obj members ih =>
      rw [all_obj] at h ⊢
      exact fun m hm => ⟨hkey m.1 (h m hm).1, ih m hm (h m hm).2⟩

theorem all_of (hkey : ∀ units, key units) (hstr : ∀ units, str units) (v : Value F) :
    v.All key str := by
  induction v using induct with
  | scalar a => simp only [All, Algebra.fold_scalar]
  | str units => exact all_str.mpr (hstr units)
  | arr items ih => exact all_arr.mpr ih
  | obj members ih => exact all_obj.mpr fun m hm => ⟨hkey m.1, ih m hm⟩

end All

theorem distinct_arr {items : List (Value F)} :
    (Value.arr items).Distinct ↔ ∀ item ∈ items, item.Distinct := by
  simp only [Distinct, Algebra.fold_arr, List.forall_mem_map]

theorem distinct_obj {members : List (List CodeUnit × Value F)} :
    (Value.obj members).Distinct ↔
      (members.map Prod.fst).Nodup ∧ ∀ m ∈ members, m.2.Distinct := by
  simp only [Distinct, Algebra.fold_obj, List.forall_mem_map, List.map_map, Function.comp_def]

theorem dict_str (units : List CodeUnit) : (Value.str units : Value F).dict = .str units := by
  rw [dict, Algebra.fold_str]

theorem dict_arr (items : List (Value F)) : (Value.arr items).dict = .arr (items.map dict) := by
  rw [dict, Algebra.fold_arr]

theorem dict_obj (members : List (List CodeUnit × Value F)) :
    (Value.obj members).dict =
      .obj (Ordered.ofAssignments Prod.fst (members.map fun m => (m.1, m.2.dict))) := by
  rw [dict, Algebra.fold_obj]

theorem obj_of_dict {v : Value F} {members : List (List CodeUnit × Value F)}
    (h : v.dict = .obj members) : ∃ members', v = .obj members' := by
  cases v with
  | scalar a =>
      rw [dict, Algebra.fold_scalar] at h
      cases h
  | str units =>
      rw [dict_str] at h
      cases h
  | arr items =>
      rw [dict_arr] at h
      cases h
  | obj members' => exact ⟨members', rfl⟩

theorem strings_arr (items : List (Value F)) :
    (Value.arr items).strings = (items.map strings).sum := by
  rw [strings, Algebra.fold_arr]

theorem strings_obj (members : List (List CodeUnit × Value F)) :
    (Value.obj members).strings = (members.map fun m => 1 + m.2.strings).sum := by
  simp only [strings, Algebra.fold_obj, List.map_map, Function.comp_def]

/-- Without a key twice, a `dict` holds what is written. -/
theorem dict_of_distinct {v : Value F} (h : v.Distinct) : v.dict = v := by
  induction v using induct with
  | scalar a => rw [dict, Algebra.fold_scalar]
  | str units => exact dict_str units
  | arr items ih =>
      rw [distinct_arr] at h
      have hitems : items.map dict = items :=
        (List.map_congr_left fun item hitem => ih item hitem (h item hitem)).trans (List.map_id _)
      rw [dict_arr, hitems]
  | obj members ih =>
      rw [distinct_obj] at h
      have hmembers : (members.map fun m => (m.1, m.2.dict)) = members := by
        refine (List.map_congr_left fun m hm => ?_).trans (List.map_id members)
        rw [ih m hm (h.2 m hm)]
        rfl
      rw [dict_obj, hmembers, Ordered.ofAssignments_of_nodup h.1]

/-- A `dict` holds no key twice. -/
theorem distinct_dict (v : Value F) : v.dict.Distinct := by
  induction v using induct with
  | scalar a => simp only [dict, Algebra.fold_scalar, Distinct]
  | str units => simp only [dict, Algebra.fold_str, Distinct]
  | arr items ih =>
      rw [dict_arr, distinct_arr, List.forall_mem_map]
      exact ih
  | obj members ih =>
      rw [dict_obj, distinct_obj]
      refine ⟨Ordered.nodup_ofAssignments _, fun m hm => ?_⟩
      obtain ⟨m', hm', rfl⟩ := List.mem_map.mp (Ordered.mem_of_mem_ofAssignments hm)
      exact ih m' hm'

/-- A `dict` holds only strings and keys that are written. -/
theorem all_dict {key str : List CodeUnit → Prop} {v : Value F} (h : v.All key str) :
    v.dict.All key str := by
  induction v using induct with
  | scalar a => rwa [dict, Algebra.fold_scalar]
  | str units => rwa [dict_str]
  | arr items ih =>
      rw [all_arr] at h
      rw [dict_arr, all_arr, List.forall_mem_map]
      exact fun item hitem => ih item hitem (h item hitem)
  | obj members ih =>
      rw [all_obj] at h
      rw [dict_obj, all_obj]
      intro m hm
      obtain ⟨m', hm', rfl⟩ := List.mem_map.mp (Ordered.mem_of_mem_ofAssignments hm)
      exact ⟨(h m' hm').1, ih m' hm' (h m' hm').2⟩

/-- A `dict` holds no more strings than are written. -/
theorem strings_dict_le (v : Value F) : v.dict.strings ≤ v.strings := by
  induction v using induct with
  | scalar a => rw [dict, Algebra.fold_scalar]
  | str units => rw [dict_str]
  | arr items ih =>
      rw [dict_arr, strings_arr, strings_arr, List.map_map]
      exact List.sum_le_sum ih
  | obj members ih =>
      rw [dict_obj, strings_obj, strings_obj]
      refine (Ordered.sum_ofAssignments_le _).trans ?_
      rw [List.map_map]
      exact List.sum_le_sum fun m hm => Nat.add_le_add_left (ih m hm) 1

end Value

end JsonText
