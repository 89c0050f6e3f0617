/-
The grammar of JSON texts, and the text that is written for a value.

A text is read as CPython's `json` reads it: escapes give code units, `NaN` and the infinities
are literals, and an integer of too many digits is refused. `Layer` is the grammar of a value
over the grammar of what stands inside it, and `Reads` closes it by depth. Floating point is a
parameter.
-/

import Mathlib.Data.List.TakeWhile
import ContextMemory.Lib.JsonValue

namespace JsonText

/-! ### Strings -/

/-- White space between tokens. -/
def isSpace (c : Char) : Bool := c = ' ' || c = '\t' || c = '\n' || c = '\r'

def Ws (text : List Char) : Prop := ∀ c ∈ text, isSpace c = true

/-- What holds of every character of a text is decided on the text. -/
instance (priority := high) decidableForallMem {p : Char → Prop} [DecidablePred p] (text : List Char) :
    Decidable (∀ c ∈ text, p c) := List.decidableBAll p text

instance (text : List Char) : Decidable (Ws text) := inferInstanceAs (Decidable (∀ c ∈ text, _))

theorem ws_nil : Ws [] := by decide

def hexDigit (c : Char) : Option (Fin 16) :=
  if '0' ≤ c ∧ c ≤ '9' then some (Fin.ofNat 16 (c.toNat - 48))
  else if 'a' ≤ c ∧ c ≤ 'f' then some (Fin.ofNat 16 (c.toNat - 87))
  else if 'A' ≤ c ∧ c ≤ 'F' then some (Fin.ofNat 16 (c.toNat - 55))
  else none

/-- The code unit of four hexadecimal digits. -/
def hexUnit (a b c d : Char) : Option CodeUnit := do
  let a ← hexDigit a
  let b ← hexDigit b
  let c ← hexDigit c
  let d ← hexDigit d
  return Fin.ofNat 0x10000 (((a.val * 16 + b.val) * 16 + c.val) * 16 + d.val)

/-- The escapes that are written, each with its code unit. -/
def shortEscapes : List (Char × CodeUnit) :=
  [('\\', 0x5C), ('"', 0x22), ('b', 0x08), ('f', 0x0C), ('n', 0x0A), ('r', 0x0D), ('t', 0x09)]

/-- The escapes that are read. -/
def escapes : List (Char × CodeUnit) := ('/', 0x2F) :: shortEscapes

/-- What one character or one escape of a string stands for. -/
inductive Piece : List CodeUnit → List Char → Prop where
  | plain {c : Char} (hcontrol : 32 ≤ c.toNat) (hquote : c ≠ '"') (hescape : c ≠ '\\') :
      Piece (utf16 c) [c]
  | short {c : Char} {unit : CodeUnit} (h : (c, unit) ∈ escapes) : Piece [unit] ['\\', c]
  | hex {a b c d : Char} {unit : CodeUnit} (h : hexUnit a b c d = some unit) :
      Piece [unit] ['\\', 'u', a, b, c, d]

/-- What the text between two quotes stands for. -/
inductive Content : List CodeUnit → List Char → Prop where
  | nil : Content [] []
  | cons {units units' : List CodeUnit} {text text' : List Char} (piece : Piece units text)
      (rest : Content units' text') : Content (units ++ units') (text ++ text')

def hexChar (digit : Fin 16) : Char :=
  ['0', '1', '2', '3', '4', '5', '6', '7', '8', '9', 'a', 'b', 'c', 'd', 'e', 'f'].get digit

def hexText (unit : CodeUnit) : List Char :=
  [Fin.ofNat 16 (unit.val / 4096), Fin.ofNat 16 (unit.val / 256), Fin.ofNat 16 (unit.val / 16),
    Fin.ofNat 16 unit.val].map hexChar

/-- A code unit as it is written, in ASCII. -/
def writeUnit (unit : CodeUnit) : List Char :=
  match shortEscapes.find? fun escape => escape.2 = unit with
  | some escape => ['\\', escape.1]
  | none =>
      if 32 ≤ unit.val ∧ unit.val < 127 then [Char.ofNat unit.val] else '\\' :: 'u' :: hexText unit

/-- A string with its quotes. -/
def quote (units : List CodeUnit) : List Char := '"' :: units.flatMap writeUnit ++ ['"']

theorem hexDigit_hexChar (digit : Fin 16) : hexDigit (hexChar digit) = some digit := by
  revert digit
  decide

theorem piece_hexText (unit : CodeUnit) : Piece [unit] ('\\' :: 'u' :: hexText unit) := by
  refine Piece.hex ?_
  simp only [hexUnit, hexDigit_hexChar, Option.bind_eq_bind, Option.bind_some, Option.pure_def]
  refine congrArg some (Fin.ext ?_)
  simp only [Fin.val_ofNat]
  omega

theorem piece_writeUnit (unit : CodeUnit) : Piece [unit] (writeUnit unit) := by
  unfold writeUnit
  split
  · rename_i escape hfind
    have hunit : escape.2 = unit := by simpa using List.find?_some hfind
    refine Piece.short (List.mem_cons_of_mem _ ?_)
    exact hunit ▸ List.mem_of_find?_eq_some hfind
  · rename_i hnone
    split
    · rename_i hrange
      have hvalid : unit.val.isValidChar := Or.inl (by omega)
      have hval : (Char.ofNat unit.val).toNat = unit.val := by
        rw [Char.ofNat, dif_pos hvalid]
        rfl
      have hutf : utf16 (Char.ofNat unit.val) = [unit] := by
        rw [utf16, if_pos (by rw [hval]; exact unit.isLt), hval]
        exact congrArg (fun u => [u]) (Fin.ext (Nat.mod_eq_of_lt unit.isLt))
      have hshort : ∀ escape ∈ shortEscapes, escape.2 ≠ unit := by
        simpa using hnone
      rw [← hutf]
      refine Piece.plain (by rw [hval]; exact hrange.1) ?_ ?_
      · intro hc
        refine hshort ('"', 0x22) (by decide) (Fin.ext ?_)
        rw [← hval, hc]
        rfl
      · intro hc
        refine hshort ('\\', 0x5C) (by decide) (Fin.ext ?_)
        rw [← hval, hc]
        rfl
    · exact piece_hexText unit

/-- What is written for a string stands for it. -/
theorem content_write (units : List CodeUnit) : Content units (units.flatMap writeUnit) := by
  induction units with
  | nil => exact Content.nil
  | cons unit units ih => exact Content.cons (piece_writeUnit unit) ih

/-! ### Numbers -/

def digits (text : List Char) : List Char := text.takeWhile Char.isDigit

/-- The sign at the start of a text. -/
def signPart : List Char → List Char
  | '-' :: _ => ['-']
  | _ => []

/-- The whole number at the start of a text; a zero stands alone. -/
def wholePart : List Char → List Char
  | '0' :: _ => ['0']
  | text => digits text

/-- The fraction at the start of a text: a point needs a digit. -/
def fractionPart : List Char → List Char
  | '.' :: text => if digits text = [] then [] else '.' :: digits text
  | _ => []

def exponentSign : List Char → List Char
  | '+' :: _ => ['+']
  | '-' :: _ => ['-']
  | _ => []

/-- The exponent at the start of a text: it needs a digit. -/
def exponentPart : List Char → List Char
  | [] => []
  | c :: text =>
      let sign := exponentSign text
      let exponent := digits (text.drop sign.length)
      if (c = 'e' ∨ c = 'E') ∧ exponent ≠ [] then c :: (sign ++ exponent) else []

/-- The text of a number, by its parts. -/
@[ext]
structure Numeral where
  sign : List Char
  whole : List Char
  fraction : List Char
  exponent : List Char
  sign_eq : signPart sign = sign
  whole_eq : wholePart whole = whole
  whole_ne : whole ≠ []
  fraction_eq : fractionPart fraction = fraction
  exponent_eq : exponentPart exponent = exponent

namespace Numeral

variable (n : Numeral)

def text : List Char := n.sign ++ (n.whole ++ (n.fraction ++ n.exponent))

def isInt : Bool := n.fraction = [] && n.exponent = []

def int : Int :=
  if n.sign = [] then Nat.ofDigitChars 10 n.whole 0 else -Nat.ofDigitChars 10 n.whole 0

end Numeral

/-- The words that stand for a value. -/
inductive Literal where
  | null | bool (b : Bool) | nan | infinity | negInfinity
deriving DecidableEq

namespace Literal

def word : Literal → List Char
  | .null => "null".toList
  | .bool true => "true".toList
  | .bool false => "false".toList
  | .nan => "NaN".toList
  | .infinity => "Infinity".toList
  | .negInfinity => "-Infinity".toList

def all : List Literal := [.null, .bool true, .bool false, .nan, .infinity, .negInfinity]

end Literal

/-- Floating point: its constants, `float(text)` and `repr`. -/
structure Floats (F : Type) where
  nan : F
  infinity : F
  negInfinity : F
  ofText : List Char → F
  toText : F → List Char

namespace Floats

variable {F : Type} (floats : Floats F)

def literal : Literal → Scalar F
  | .null => .null
  | .bool b => .bool b
  | .nan => .float floats.nan
  | .infinity => .float floats.infinity
  | .negInfinity => .float floats.negInfinity

def numeral (n : Numeral) : Scalar F :=
  if n.isInt then .int n.int else .float (floats.ofText n.text)

end Floats

/-- Numbers as they are read and written: an integer has so many digits at most, and what is
written for a floating point number is read as that number. -/
structure Numbers (F : Type) extends Floats F where
  maxDigits : Nat
  reads_toText : ∀ x, (∃ l, toFloats.literal l = .float x ∧ toText x = l.word) ∨
    ∃ n : Numeral, toFloats.numeral n = .float x ∧ toText x = n.text

/-! ### The grammar -/

section Sequences

variable {α : Type} (R : α → List Char → Prop)

/-- Texts between commas. -/
inductive Separated : List α → List Char → Prop where
  | one {x : α} {text : List Char} (h : R x text) : Separated [x] text
  | more {x : α} {xs : List α} {text w w' rest : List Char} (h : R x text) (hw : Ws w)
      (hw' : Ws w') (hrest : Separated xs rest) :
      Separated (x :: xs) (text ++ (w ++ ',' :: (w' ++ rest)))

/-- What stands between two brackets. -/
inductive Body : List α → List Char → Prop where
  | empty {w : List Char} (hw : Ws w) : Body [] w
  | full {xs : List α} {text w w' : List Char} (hw : Ws w) (h : Separated R xs text)
      (hw' : Ws w') : Body xs (w ++ (text ++ w'))

/-- A member of an object. -/
inductive Entry : List CodeUnit × α → List Char → Prop where
  | mk {key : List CodeUnit} {x : α} {content w w' text : List Char} (hkey : Content key content)
      (hw : Ws w) (hw' : Ws w') (h : R x text) :
      Entry (key, x) ('"' :: (content ++ '"' :: (w ++ ':' :: (w' ++ text))))

variable {R}

theorem Separated.exists_text {xs : List α} {text : List Char} (h : Separated R xs text) {x : α}
    (hx : x ∈ xs) : ∃ text, R x text := by
  induction h with
  | one h => exact ⟨_, List.mem_singleton.mp hx ▸ h⟩
  | more h hw hw' hrest ih =>
      rcases List.mem_cons.mp hx with rfl | hx
      · exact ⟨_, h⟩
      · exact ih hx

theorem Body.exists_text {xs : List α} {text : List Char} (h : Body R xs text) {x : α}
    (hx : x ∈ xs) : ∃ text, R x text := by
  cases h with
  | empty hw => exact absurd hx List.not_mem_nil
  | full hw h hw' => exact h.exists_text hx

end Sequences

section Grammar

variable {F : Type} (num : Numbers F)

/-- The text of a value, over the texts of what stands inside it. -/
inductive Layer (R : Value F → List Char → Prop) : Value F → List Char → Prop where
  | literal (l : Literal) : Layer R (.scalar (num.literal l)) l.word
  | numeral (n : Numeral) (h : n.isInt = true → n.whole.length ≤ num.maxDigits) :
      Layer R (.scalar (num.numeral n)) n.text
  | str {units : List CodeUnit} {content : List Char} (h : Content units content) :
      Layer R (.str units) ('"' :: (content ++ ['"']))
  | arr {items : List (Value F)} {body : List Char} (h : Body R items body) :
      Layer R (.arr items) ('[' :: (body ++ [']']))
  | obj {members : List (List CodeUnit × Value F)} {body : List Char}
      (h : Body (Entry R) members body) : Layer R (.obj members) ('{' :: (body ++ ['}']))

/-- A text reads as a value of at most some depth. -/
def Reads : Nat → Value F → List Char → Prop
  | 0 => fun _ _ => False
  | depth + 1 => Layer num (Reads depth)

/-- A text reads as a value. -/
def Text (v : Value F) (text : List Char) : Prop := ∃ depth, Reads num depth v text

variable {num}

end Grammar

/-! ### Writing -/

/-- Texts with commas between them. -/
def separate : List (List Char) → List Char
  | [] => []
  | [text] => text
  | text :: texts => text ++ ',' :: ' ' :: separate texts

section Write

variable {F : Type} (num : Numbers F)

def writeInt (n : Int) : List Char :=
  (if 0 ≤ n then [] else ['-']) ++ Nat.toDigits 10 n.natAbs

def writeScalar : Scalar F → List Char
  | .null => "null".toList
  | .bool b => (Literal.bool b).word
  | .int n => writeInt n
  | .float x => num.toText x

/-- `json.dumps`. -/
def write : Value F → List Char :=
  Algebra.fold
    { scalar := writeScalar num
      str := quote
      arr := fun texts => '[' :: (separate texts ++ [']'])
      obj := fun members =>
        '{' :: (separate (members.map fun m => quote m.1 ++ ':' :: ' ' :: m.2) ++ ['}']) }

variable {num}

theorem write_scalar (a : Scalar F) : write num (.scalar a) = writeScalar num a := by
  rw [write, Algebra.fold_scalar]

theorem write_str (units : List CodeUnit) : write num (.str units) = quote units := by
  rw [write, Algebra.fold_str]

theorem write_arr (items : List (Value F)) :
    write num (.arr items) = '[' :: (separate (items.map (write num)) ++ [']']) := by
  rw [write, Algebra.fold_arr]

theorem write_obj (members : List (List CodeUnit × Value F)) :
    write num (.obj members) =
      '{' :: (separate (members.map fun m => quote m.1 ++ ':' :: ' ' :: write num m.2) ++ ['}']) := by
  simp only [write, Algebra.fold_obj, List.map_map, Function.comp_def]

theorem separated_separate {α : Type} {R : α → List Char → Prop} {f : α → List Char} {x : α}
    {xs : List α} (h : ∀ y ∈ x :: xs, R y (f y)) :
    Separated R (x :: xs) (separate ((x :: xs).map f)) := by
  induction xs generalizing x with
  | nil => exact Separated.one (h x (List.mem_singleton_self x))
  | cons y ys ih =>
      have hrest := ih fun z hz => h z (List.mem_cons_of_mem _ hz)
      have hspace : Ws [' '] := by decide
      exact Separated.more (h x List.mem_cons_self) ws_nil hspace hrest

theorem body_separate {α : Type} {R : α → List Char → Prop} {f : α → List Char} {xs : List α}
    (h : ∀ x ∈ xs, R x (f x)) : Body R xs (separate (xs.map f)) := by
  cases xs with
  | nil => exact Body.empty ws_nil
  | cons x xs => simpa using Body.full ws_nil (separated_separate h) ws_nil

/-! ### Integers -/

theorem takeWhile_isDigit {text : List Char} (h : ∀ c ∈ text, c.isDigit = true) :
    digits text = text := List.takeWhile_eq_self_iff.mpr h

/-- The decimal digits of a positive number start with another digit than zero. -/
theorem head_toDigits {n : Nat} (hn : 0 < n) :
    ∃ c rest, Nat.toDigits 10 n = c :: rest ∧ c ≠ '0' := by
  induction n using Nat.strongRecOn with
  | ind n ih =>
      rcases Nat.lt_or_ge n 10 with hlt | hge
      · rw [Nat.toDigits_of_lt_base hlt]
        have hchar : ∀ k : Fin 10, 0 < k.val → k.val.digitChar ≠ '0' := by decide
        exact ⟨_, [], rfl, hchar ⟨n, hlt⟩ hn⟩
      · obtain ⟨c, rest, hdigits, hc⟩ := ih (n / 10) (by omega) (by omega)
        rw [Nat.toDigits_of_base_le (by decide) hge, hdigits]
        exact ⟨c, _, rfl, hc⟩

theorem wholePart_toDigits (n : Nat) : wholePart (Nat.toDigits 10 n) = Nat.toDigits 10 n := by
  rcases Nat.eq_zero_or_pos n with rfl | hn
  · rfl
  · have hdigits := takeWhile_isDigit fun c hc => Nat.isDigit_of_mem_toDigits (by decide) (by decide)
      (show c ∈ Nat.toDigits 10 n from hc)
    obtain ⟨c, rest, heq, hc⟩ := head_toDigits hn
    rw [heq] at hdigits ⊢
    rw [wholePart, hdigits]
    rintro rest' ⟨⟩
    exact hc rfl

theorem ofDigitChars_lt {text : List Char} (h : ∀ c ∈ text, c.isDigit = true) :
    Nat.ofDigitChars 10 text 0 < 10 ^ text.length := by
  induction text with
  | nil => decide
  | cons c text ih =>
      obtain ⟨hc, htext⟩ := List.forall_mem_cons.mp h
      have hdigit : c.toNat - '0'.toNat ≤ 9 := by
        have := (Char.isDigit_iff_toNat.mp hc).2
        exact Nat.sub_le_of_le_add this
      have hrest := ih htext
      have hfirst := Nat.mul_le_mul_left (10 ^ text.length) hdigit
      rw [Nat.ofDigitChars_cons, Nat.ofDigitChars_eq_ofDigitChars_zero, List.length_cons,
        Nat.pow_succ, Nat.mul_zero, Nat.zero_add]
      omega

theorem isDigit_of_mem_digits {text : List Char} {c : Char} (h : c ∈ digits text) :
    c.isDigit = true := List.mem_takeWhile_imp h

theorem isDigit_of_mem_wholePart {text : List Char} {c : Char} (h : c ∈ wholePart text) :
    c.isDigit = true := by
  unfold wholePart at h
  split at h
  · rw [List.mem_singleton.mp h]
    decide
  · exact isDigit_of_mem_digits h

theorem Numeral.isDigit_whole (n : Numeral) {c : Char} (h : c ∈ n.whole) : c.isDigit = true :=
  isDigit_of_mem_wholePart (n.whole_eq.symm ▸ h)

theorem exponentPart_nil : exponentPart [] = [] := rfl

/-- The numeral that is written for an integer. -/
def intNumeral (n : Int) : Numeral where
  sign := if 0 ≤ n then [] else ['-']
  whole := Nat.toDigits 10 n.natAbs
  fraction := []
  exponent := []
  sign_eq := by split <;> rfl
  whole_eq := wholePart_toDigits n.natAbs
  whole_ne := Nat.toDigits_ne_nil
  fraction_eq := rfl
  exponent_eq := rfl

theorem text_intNumeral (n : Int) : (intNumeral n).text = writeInt n := by
  simp only [Numeral.text, intNumeral, writeInt, List.append_nil]

theorem numeral_intNumeral (n : Int) : num.numeral (intNumeral n) = .int n := by
  have hint : (intNumeral n).int = n := by
    unfold Numeral.int intNumeral
    rw [Nat.ofDigitChars_ten_toDigits]
    by_cases hn : 0 ≤ n
    · rw [if_pos (if_pos hn)]
      exact Int.natAbs_of_nonneg hn
    · rw [if_neg (by simp [hn])]
      omega
  have hisInt : (intNumeral n).isInt = true := rfl
  rw [Floats.numeral, if_pos hisInt, hint]

/-- An integer is not written with more digits than it was read from. -/
theorem length_whole_le (n : Numeral) : (intNumeral n.int).whole.length ≤ n.whole.length := by
  have hlt := ofDigitChars_lt fun c hc => n.isDigit_whole hc
  have hnatAbs : n.int.natAbs = Nat.ofDigitChars 10 n.whole 0 := by
    unfold Numeral.int
    split <;> omega
  have hpos : 0 < n.whole.length := List.length_pos_iff.mpr n.whole_ne
  change (Nat.toDigits 10 n.int.natAbs).length ≤ n.whole.length
  rw [hnatAbs]
  exact (Nat.length_toDigits_le_iff (by decide) hpos).mpr hlt

theorem layer_float {R : Value F → List Char → Prop} (x : F) :
    Layer num R (.scalar (.float x)) (num.toText x) := by
  rcases num.reads_toText x with ⟨l, hvalue, htext⟩ | ⟨n, hvalue, htext⟩
  · rw [← hvalue, htext]
    exact Layer.literal l
  · rw [← hvalue, htext]
    refine Layer.numeral n fun hint => ?_
    rw [Floats.numeral, if_pos hint] at hvalue
    cases hvalue

theorem layer_literal {R : Value F → List Char → Prop} (l : Literal) :
    Layer num R (.scalar (num.literal l)) (writeScalar num (num.literal l)) := by
  cases l with
  | null => exact Layer.literal .null
  | bool b => exact Layer.literal (.bool b)
  | nan => exact layer_float num.nan
  | infinity => exact layer_float num.infinity
  | negInfinity => exact layer_float num.negInfinity

theorem layer_numeral {R : Value F → List Char → Prop} (n : Numeral)
    (h : n.isInt = true → n.whole.length ≤ num.maxDigits) :
    Layer num R (.scalar (num.numeral n)) (writeScalar num (num.numeral n)) := by
  cases hint : n.isInt with
  | false =>
      rw [Floats.numeral, if_neg (by simp [hint])]
      exact layer_float _
  | true =>
      have hwritten : Layer num R (.scalar (num.numeral (intNumeral n.int))) (intNumeral n.int).text :=
        Layer.numeral _ fun _ => (length_whole_le n).trans (h hint)
      rw [numeral_intNumeral, text_intNumeral] at hwritten
      rw [Floats.numeral, if_pos hint]
      exact hwritten

/-- What is written for the `dict` of a value that was read is read as that
`dict`. -/
theorem reads_dict {depth : Nat} {v : Value F} {text : List Char} (h : Reads num depth v text) :
    Reads num depth v.dict (write num v.dict) := by
  induction depth generalizing v text with
  | zero => exact h
  | succ depth ih =>
      cases h with
      | literal l =>
          rw [Value.dict, Algebra.fold_scalar, write_scalar]
          exact layer_literal l
      | numeral n hdigits =>
          rw [Value.dict, Algebra.fold_scalar, write_scalar]
          exact layer_numeral n hdigits
      | str hcontent =>
          rw [Value.dict_str, write_str]
          exact Layer.str (content_write _)
      | arr hbody =>
          rw [Value.dict_arr, write_arr]
          refine Layer.arr (body_separate (List.forall_mem_map.mpr fun item hitem => ?_))
          obtain ⟨text, htext⟩ := hbody.exists_text hitem
          exact ih htext
      | obj hbody =>
          rw [Value.dict_obj, write_obj]
          refine Layer.obj (body_separate fun m hm => ?_)
          obtain ⟨m', hm', rfl⟩ := List.mem_map.mp (Ordered.mem_of_mem_ofAssignments hm)
          obtain ⟨text, htext⟩ := hbody.exists_text hm'
          cases htext with
          | mk hkey hw hw' hvalue =>
              have hspace : Ws [' '] := by decide
              simpa [quote] using Entry.mk (content_write _) ws_nil hspace (ih hvalue)

end Write

end JsonText
