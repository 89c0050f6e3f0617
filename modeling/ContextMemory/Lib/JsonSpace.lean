/-
Other white space in a JSON text.

Newlines stand between the tokens of a text and never in its strings, so that a text with any
white space in their place reads as the same value (`reads_respaced`).
-/

import ContextMemory.Lib.JsonPhases

namespace JsonText

def isNewline (c : Char) : Bool := c = '\n' || c = '\r'

/-- The same text, with other white space for its newlines. -/
inductive Respaced : List Char → List Char → Prop where
  | nil : Respaced [] []
  | keep {c : Char} {text text' : List Char} (hc : isNewline c = false)
      (h : Respaced text text') : Respaced (c :: text) (c :: text')
  | space {c : Char} {w text text' : List Char} (hc : isNewline c = true) (hw : Ws w)
      (h : Respaced text text') : Respaced (c :: text) (w ++ text')

namespace Respaced

theorem of_append {text rest result : List Char} (h : Respaced (text ++ rest) result) :
    ∃ text' rest', result = text' ++ rest' ∧ Respaced text text' ∧ Respaced rest rest' := by
  induction text generalizing result with
  | nil => exact ⟨[], result, rfl, nil, h⟩
  | cons c text ih =>
      cases h with
      | keep hc h =>
          obtain ⟨text', rest', rfl, htext, hrest⟩ := ih h
          exact ⟨c :: text', rest', rfl, keep hc htext, hrest⟩
      | @space _ w _ _ hc hw h =>
          obtain ⟨text', rest', rfl, htext, hrest⟩ := ih h
          exact ⟨w ++ text', rest', (List.append_assoc _ _ _).symm, space hc hw htext, hrest⟩

theorem of_cons {c : Char} {text result : List Char} (h : Respaced (c :: text) result)
    (hc : isNewline c = false) : ∃ text', result = c :: text' ∧ Respaced text text' := by
  cases h with
  | keep _ h => exact ⟨_, rfl, h⟩
  | space hnewline _ _ =>
      rw [hc] at hnewline
      cases hnewline

theorem eq_of_free {text result : List Char} (h : Respaced text result)
    (hfree : ∀ c ∈ text, isNewline c = false) : result = text := by
  induction h with
  | nil => rfl
  | keep _ _ ih => rw [ih (List.forall_mem_cons.mp hfree).2]
  | space hc _ _ _ =>
      rw [(List.forall_mem_cons.mp hfree).1] at hc
      cases hc

theorem ws {w result : List Char} (h : Respaced w result) (hw : Ws w) : Ws result := by
  induction h with
  | nil => exact ws_nil
  | keep _ _ ih =>
      obtain ⟨hc, hrest⟩ := List.forall_mem_cons.mp hw
      exact List.forall_mem_cons.mpr ⟨hc, ih hrest⟩
  | space _ hw' _ ih =>
      exact List.forall_mem_append.mpr ⟨hw', ih (List.forall_mem_cons.mp hw).2⟩

end Respaced

theorem newline_free_content {units : List CodeUnit} {content : List Char}
    (h : Content units content) : ∀ c ∈ content, isNewline c = false := by
  have hcontrol : ∀ {c : Char}, 32 ≤ c.toNat → isNewline c = false := by
    intro c hc
    simp only [isNewline, Bool.or_eq_false_iff, decide_eq_false_iff_not]
    constructor <;> (rintro rfl; exact absurd hc (by decide))
  induction h with
  | nil => exact fun c hc => absurd hc List.not_mem_nil
  | cons piece _ ih =>
      rw [List.forall_mem_append]
      refine ⟨?_, ih⟩
      cases piece with
      | plain hc _ _ => exact List.forall_mem_singleton.mpr (hcontrol hc)
      | short hshort =>
          simp only [escapes, shortEscapes, List.mem_cons, Prod.mk.injEq, List.not_mem_nil,
            or_false] at hshort
          rcases hshort with ⟨rfl, -⟩ | ⟨rfl, -⟩ | ⟨rfl, -⟩ | ⟨rfl, -⟩ | ⟨rfl, -⟩ | ⟨rfl, -⟩ |
            ⟨rfl, -⟩ | ⟨rfl, -⟩ <;> decide
      | hex hunit =>
          refine List.forall_mem_cons.mpr ⟨by decide, List.forall_mem_cons.mpr ⟨by decide, ?_⟩⟩
          exact fun x hx => hcontrol (hexUnit_range hunit x hx).2.2.2

section Respaced

variable {α : Type} {R : α → List Char → Prop}
  (helement : ∀ x text text', R x text → Respaced text text' → R x text')
include helement

theorem separated_respaced {xs : List α} {text text' : List Char} (h : Separated R xs text)
    (hspaced : Respaced text text') : Separated R xs text' := by
  induction h generalizing text' with
  | @one x text hx => exact Separated.one (helement x text text' hx hspaced)
  | @more x xs text w w' rest hx hw hw' hrest ih =>
      obtain ⟨first, tail, rfl, hfirst, htail⟩ := hspaced.of_append
      obtain ⟨v, comma, rfl, hv, hcomma⟩ := htail.of_append
      obtain ⟨tail', rfl, htail'⟩ := hcomma.of_cons (by decide)
      obtain ⟨v', others, rfl, hv', hothers⟩ := htail'.of_append
      exact Separated.more (helement x text first hx hfirst) (hv.ws hw) (hv'.ws hw') (ih hothers)

theorem body_respaced {xs : List α} {text text' : List Char} (h : Body R xs text)
    (hspaced : Respaced text text') : Body R xs text' := by
  cases h with
  | empty hw => exact Body.empty (hspaced.ws hw)
  | full hw hxs hw' =>
      obtain ⟨v, tail, rfl, hv, htail⟩ := hspaced.of_append
      obtain ⟨middle, v', rfl, hmiddle, hv'⟩ := htail.of_append
      exact Body.full (hv.ws hw) (separated_respaced helement hxs hmiddle) (hv'.ws hw')

theorem entry_respaced (m : List CodeUnit × α) (text text' : List Char) (h : Entry R m text)
    (hspaced : Respaced text text') : Entry R m text' := by
  cases h with
  | @mk key x content w w' value hkey hw hw' hx =>
      obtain ⟨tail, rfl, htail⟩ := hspaced.of_cons (by decide)
      obtain ⟨content', quote, rfl, hcontent, hquote⟩ := htail.of_append
      obtain ⟨afterKey, rfl, hafterKey⟩ := hquote.of_cons (by decide)
      obtain ⟨v, colon, rfl, hv, hcolon⟩ := hafterKey.of_append
      obtain ⟨afterColon, rfl, hafterColon⟩ := hcolon.of_cons (by decide)
      obtain ⟨v', value', rfl, hv', hvalue⟩ := hafterColon.of_append
      rw [hcontent.eq_of_free (newline_free_content hkey)]
      exact Entry.mk hkey (hv.ws hw) (hv'.ws hw') (helement x value value' hx hvalue)

end Respaced

/-- A text with other white space for its newlines reads as the same value. -/
theorem reads_respaced {F : Type} {num : Numbers F} {depth : Nat} {v : Value F}
    {text text' : List Char} (h : Reads num depth v text) (hspaced : Respaced text text') :
    Reads num depth v text' := by
  induction depth generalizing v text text' with
  | zero => exact h
  | succ depth ih =>
      have hvalue : ∀ v text text', Reads num depth v text → Respaced text text' →
          Reads num depth v text' := fun _ _ _ h hspaced => ih h hspaced
      cases h with
      | literal l =>
          have hfree : ∀ c ∈ l.word, isNewline c = false := by
            rcases l with _ | (_ | _) | _ | _ | _ <;> decide
          rw [hspaced.eq_of_free hfree]
          exact Layer.literal l
      | numeral n hdigits =>
          have hfree : ∀ c ∈ n.text, isNewline c = false := by
            intro c hc
            have hspace := (numeralChar_spec (numeralChar_text n c hc)).2.2
            simp only [isSpace, isNewline, Bool.or_eq_false_iff] at hspace ⊢
            exact ⟨hspace.1.2, hspace.2⟩
          rw [hspaced.eq_of_free hfree]
          exact Layer.numeral n hdigits
      | str hcontent =>
          obtain ⟨tail, rfl, htail⟩ := hspaced.of_cons (by decide)
          obtain ⟨content', tail, rfl, hsame, htail⟩ := htail.of_append
          rw [hsame.eq_of_free (newline_free_content hcontent), htail.eq_of_free (by decide)]
          exact Layer.str hcontent
      | arr hbody =>
          obtain ⟨tail, rfl, htail⟩ := hspaced.of_cons (by decide)
          obtain ⟨body', tail, rfl, hbody', htail⟩ := htail.of_append
          rw [htail.eq_of_free (by decide)]
          exact Layer.arr (body_respaced hvalue hbody hbody')
      | obj hbody =>
          obtain ⟨tail, rfl, htail⟩ := hspaced.of_cons (by decide)
          obtain ⟨body', tail, rfl, hbody', htail⟩ := htail.of_append
          rw [htail.eq_of_free (by decide)]
          exact Layer.obj (body_respaced (entry_respaced hvalue) hbody hbody')

end JsonText
