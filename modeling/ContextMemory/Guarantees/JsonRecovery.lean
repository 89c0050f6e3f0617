/-
Recovering an object from the wrappings of the providers.

* `spurious_prefix_removed`: in front of an object whose first key starts as the name of a field,
  an opening brace, and an opening brace with a quote, are taken off, whatever follows the object.
-/

import ContextMemory.Client.Recover

namespace ContextMemory

open JsonText

variable {F : Type} {num : Numbers F}

/-! ### Prefixes -/

/-- What may stand between a key and its value: white space and the colon. -/
def separators : List CodeUnit := [0x20, 0x09, 0x0A, 0x0D, 0x3A]

/-- The key starts with neither white space nor a colon; every letter is such a start, and so is
the underscore. -/
def StartsField (key : List CodeUnit) : Prop :=
  ∃ unit rest, key = unit :: rest ∧ unit ∉ separators

theorem utf16_separator {c : Char} (h : isSpace c = true ∨ c = ':') :
    ∃ unit ∈ separators, utf16 c = [unit] := by
  simp only [isSpace, Bool.or_eq_true, decide_eq_true_iff] at h
  rcases h with (((rfl | rfl) | rfl) | rfl) | rfl <;> exact ⟨_, by decide, rfl⟩

/-- The text of such a key starts with neither white space nor a colon. -/
theorem StartsField.content {key : List CodeUnit} {content : List Char} (hkey : StartsField key)
    (h : Content key content) : ∃ c rest, content = c :: rest ∧ isSpace c = false ∧ c ≠ ':' := by
  obtain ⟨unit, rest, rfl, hunit⟩ := hkey
  generalize hunits : unit :: rest = units at h
  cases h with
  | nil => cases hunits
  | cons piece _ =>
      cases piece with
      | @plain c _ _ _ =>
          by_cases hc : isSpace c = true ∨ c = ':'
          · obtain ⟨separator, hmem, hutf⟩ := utf16_separator hc
            rw [hutf, List.singleton_append, List.cons.injEq] at hunits
            exact absurd (hunits.1 ▸ hmem) hunit
          · rw [not_or, Bool.not_eq_true] at hc
            exact ⟨c, _, rfl, hc⟩
      | short _ => exact ⟨'\\', _, rfl, by decide, by decide⟩
      | hex _ => exact ⟨'\\', _, rfl, by decide, by decide⟩

/-- The first key of a `dict` is the first key that is written. -/
theorem exists_first_of_dict {v : Value F} {key : List CodeUnit} {x : Value F}
    {members : List (List CodeUnit × Value F)} (h : v.dict = .obj ((key, x) :: members)) :
    ∃ x' members', v = .obj ((key, x') :: members') := by
  cases v with
  | scalar a =>
      rw [Value.dict, Algebra.fold_scalar] at h
      cases h
  | str units =>
      rw [Value.dict_str] at h
      cases h
  | arr items =>
      rw [Value.dict_arr] at h
      cases h
  | obj written =>
      rw [Value.dict_obj, Value.obj.injEq] at h
      cases written with
      | nil => cases h
      | cons first written =>
          obtain ⟨m, rest, hassigned, hkey⟩ := Ordered.exists_ofAssignments_cons Prod.fst
            (first.1, first.2.dict) (written.map fun m => (m.1, m.2.dict))
          rw [List.map_cons, hassigned] at h
          cases h
          exact ⟨first.2, written, congrArg (fun k => Value.obj ((k, first.2) :: written)) hkey.symm⟩

/-- An object is empty or starts with a key. -/
theorem scan_brace {text rest : List Char} {v : Value F}
    (h : scan num ('{' :: text) = some (v, rest)) :
    ∃ w after, Ws w ∧ (text = w ++ '}' :: after ∨ ∃ key content w', Content key content ∧ Ws w' ∧
      text = w ++ '"' :: (content ++ '"' :: (w' ++ ':' :: after))) := by
  obtain ⟨taken, htaken, hv⟩ := scan_sound h
  obtain ⟨c, after, rfl, -⟩ := hv.start
  obtain ⟨rfl, rfl⟩ := List.cons.inj htaken
  obtain ⟨members, rfl⟩ := hv.obj_of_brace
  cases members with
  | nil =>
      obtain ⟨w, htext, hw⟩ := hv.obj_empty
      refine ⟨w, rest, hw, Or.inl ?_⟩
      rw [(List.cons.inj htext).2]
      exact List.append_assoc w ['}'] rest
  | cons m members =>
      obtain ⟨w, content, w', tail, htext, hw, hcontent, hw'⟩ := hv.obj_first
      refine ⟨w, tail ++ rest, hw, Or.inr ⟨m.1, content, w', hcontent, hw', ?_⟩⟩
      change after ++ rest = _
      rw [(List.cons.inj htext).2]
      simp only [List.append_assoc, List.cons_append]

/-- No object starts with two braces. -/
theorem scan_two_braces {w rest : List Char} (hw : Ws w) :
    scan num ('{' :: (w ++ '{' :: rest)) = none := by
  have hbrace : HeadNot isSpace ('{' :: rest) := headNot_cons (by decide) rest
  cases hscan : scan num ('{' :: (w ++ '{' :: rest)) with
  | none => rfl
  | some scanned =>
      obtain ⟨w', after, hw', htext | ⟨key, content, w'', -, -, htext⟩⟩ := scan_brace hscan
      · cases eq_of_ws_append hw hw' hbrace (headNot_cons (by decide) _) htext
      · cases eq_of_ws_append hw hw' hbrace (headNot_cons (by decide) _) htext

/-- A string goes on to the next quote where nothing is escaped. -/
theorem scanString_plain {plain rest after : List Char} {units : List CodeUnit}
    (hquote : '"' ∉ plain) (hescape : '\\' ∉ plain)
    (h : scanString (plain ++ '"' :: rest) = some (units, after)) : after = rest := by
  induction plain generalizing units with
  | nil =>
      cases h
      rfl
  | cons c plain ih =>
      rw [List.mem_cons, not_or] at hquote hescape
      rw [List.cons_append, scanString] at h
      · split at h
        · obtain ⟨scanned, hscanned, heq⟩ := Option.map_eq_some_iff.mp h
          cases heq
          exact ih hquote.2 hescape.2 hscanned
        · cases h
      · exact fun hc => hquote.1 hc.symm
      · exact fun _ _ _ _ _ hc _ => hescape.1 hc.symm
      · exact fun _ _ hc _ => hescape.1 hc.symm

/-- No object starts with a brace, a quote and the start of an object with a
field. -/
theorem scan_brace_quote {w : List Char} (hw : Ws w) {key : List CodeUnit} {x : Value F}
    {members : List (List CodeUnit × Value F)} {text : List Char}
    (h : Text num (.obj ((key, x) :: members)) text) (hkey : StartsField key) (rest : List Char) :
    scan num ('{' :: '"' :: (w ++ (text ++ rest))) = none := by
  obtain ⟨w₁, content, w₂, tail, rfl, hw₁, hcontent, -⟩ := h.obj_first
  obtain ⟨c, content, rfl, hspace, hcolon⟩ := hkey.content hcontent
  cases hscan : scan num ('{' :: '"' :: (w ++ ('{' :: (w₁ ++ '"' ::
      (c :: content ++ '"' :: (w₂ ++ ':' :: tail))) ++ rest))) with
  | none => rfl
  | some scanned =>
      obtain ⟨w', after, hw', htext | ⟨key', content', w'', hcontent', hw'', htext⟩⟩ :=
        scan_brace hscan
      · cases eq_of_ws_append ws_nil hw' (headNot_cons (by decide) _)
          (headNot_cons (by decide) _) htext
      · have hstring := eq_of_ws_append ws_nil hw' (headNot_cons (by decide) _)
          (headNot_cons (by decide) _) htext
        have hread := scanString_complete hcontent' (w'' ++ ':' :: after)
        rw [← (List.cons.inj hstring).2] at hread
        -- the string that the prefix opens ends at the quote of the first key
        have hplain : ∀ d, isSpace d = false → d ≠ '{' → d ∉ w ++ '{' :: w₁ := by
          intro d hd hbrace hmem
          rcases List.mem_append.mp hmem with hmem | hmem
          · exact not_mem_of_ws hw hd hmem
          · rcases List.mem_cons.mp hmem with rfl | hmem
            · exact hbrace rfl
            · exact not_mem_of_ws hw₁ hd hmem
        have hafter : w'' ++ ':' :: after = c :: (content ++ '"' :: (w₂ ++ ':' :: tail) ++ rest) :=
          scanString_plain (hplain '"' (by decide) (by decide)) (hplain '\\' (by decide) (by decide))
            (by simpa only [List.append_assoc, List.cons_append] using hread)
        have hhead := eq_of_ws_append hw'' ws_nil (headNot_cons (by decide) _)
          (headNot_cons hspace _) hafter
        exact absurd (List.cons.inj hhead).1.symm hcolon

/-- A spurious opening brace, or brace and quote, is taken off an object whose
first key starts as the name of a field, in every text for it and whatever
follows. The recovery looks for an object at every brace, so what there is to
show is that no brace before the object's own starts one. -/
theorem spurious_prefix_removed {spurious s t : String} {key : List CodeUnit} {x : Value F}
    {members : List (List CodeUnit × Value F)} (hspurious : spurious = "\x7b" ∨ spurious = "\x7b\"")
    (hs : Parses num s (.obj ((key, x) :: members))) (hkey : StartsField key) :
    Parses num (recoverJsonObject (jsonModule num) (spurious ++ s ++ t))
      (.obj ((key, x) :: members)) := by
  obtain ⟨w, text, w', v, hw, hw', hv, htext, hdict⟩ := loads_sound hs
  obtain ⟨x', members', rfl⟩ := exists_first_of_dict hdict.symm
  obtain ⟨opening, hopening, hbrace, hnone⟩ : ∃ opening, spurious.toList = '{' :: opening ∧
      '{' ∉ opening ∧ ∀ rest, scan num ('{' :: (opening ++ (w ++ (text ++ rest)))) = none := by
    obtain ⟨depth, body, hbody, -⟩ := hv.obj_shape
    rcases hspurious with rfl | rfl
    · refine ⟨[], rfl, by decide, fun rest => ?_⟩
      rw [List.nil_append, hbody]
      exact scan_two_braces hw
    · exact ⟨['"'], rfl, by decide, fun rest => scan_brace_quote hw hv hkey rest⟩
  have hstrip : (strip (spurious ++ s ++ t)).toList =
      '{' :: (opening ++ w ++ text) ++ stripEnd (w' ++ t.toList) := by
    have hraw : (spurious ++ s ++ t).toList =
        [] ++ ('{' :: (opening ++ w ++ text) ++ (w' ++ t.toList)) := by
      rw [String.toList_append, String.toList_append, hopening, htext]
      simp only [List.append_assoc, List.cons_append, List.nil_append]
    have hlast : ('{' :: (opening ++ w) ++ text).getLast? = some '}' := getLast?_text hv
    exact toList_strip hraw (fun _ hmem => absurd hmem List.not_mem_nil) (by decide) hlast (by decide)
  have hstripped : (strip (spurious ++ s ++ t)).toList =
      '{' :: (opening ++ (w ++ (text ++ stripEnd (w' ++ t.toList)))) := by
    rw [hstrip]
    simp only [List.append_assoc, List.cons_append]
  have hscan := hnone (stripEnd (w' ++ t.toList))
  have hobject : objectAt num ('{' :: (opening ++ (w ++ (text ++ stripEnd (w' ++ t.toList))))) =
      none := by
    rw [objectAt, if_pos List.head?_cons, hscan]
    rfl
  have hbefore : '{' ∉ opening ++ w := by
    rw [List.mem_append, not_or]
    exact ⟨hbrace, not_mem_of_ws hw (by decide)⟩
  rw [parses_recover_iff (stripFences_of_brace hstripped), hstripped, loads_of_brace hscan,
    firstObject_cons, hobject, Option.none_or, ← List.append_assoc, firstObject_append hbefore,
    firstObject_of_text hv, ← hdict]
  exact Or.inr ⟨rfl, Or.inl rfl⟩

/-- Numbers with one floating point number, for texts without any. -/
def oneFloat : Numbers Unit where
  nan := ()
  infinity := ()
  negInfinity := ()
  ofText _ := ()
  toText _ := Literal.nan.word
  maxDigits := 4300
  reads_toText _ := Or.inl ⟨.nan, rfl, rfl⟩

/-- `facts`, as a key. -/
def factsKey : List CodeUnit := "facts".toList.flatMap utf16

theorem parses_oneFact : Parses oneFloat "\x7b\"facts\": [\x7b\x7d]\x7d"
    (.obj [(factsKey, .arr [.obj []])]) := by
  have hchars : "\x7b\"facts\": [\x7b\x7d]\x7d".toList =
      ['{', '"', 'f', 'a', 'c', 't', 's', '"', ':', ' ', '[', '{', '}', ']', '}'] := rfl
  rw [Parses, hchars]
  rfl

/-- A response with a brace and a quote before the object, and a quote and a
brace behind it. The object is what is recovered. -/
theorem spurious_prefix_removed_facts : Parses oneFloat
    (recoverJsonObject (jsonModule oneFloat)
      ("\x7b\"" ++ "\x7b\"facts\": [\x7b\x7d]\x7d" ++ "\"\x7d"))
    (.obj [(factsKey, .arr [.obj []])]) :=
  spurious_prefix_removed (Or.inr rfl) parses_oneFact ⟨0x66, _, rfl, by decide⟩

end ContextMemory
