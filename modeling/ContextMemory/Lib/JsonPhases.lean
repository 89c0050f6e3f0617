/-
Reading a text from the middle of another.

A JSON text is outside of its strings, inside one, or right after a backslash. A reader that
starts at a brace somewhere in the text need not know which: if the brace is outside, it meets
the strings of the text; if it is inside, it takes what stands between the strings for strings
and never meets a backslash (`reads_passes`). `Follows` says of each place of a text what is known
there, and holds of every text for a value (`follows_append_text`).
-/

import Mathlib.Algebra.BigOperators.Ring.List
import ContextMemory.Lib.JsonScan

namespace JsonText

/-! ### Phases -/

inductive Phase where
  | outside | inside | escaped
deriving DecidableEq

namespace Phase

def next : Phase → Char → Phase
  | .outside, c => if c = '"' then .inside else .outside
  | .inside, c => if c = '"' then .outside else if c = '\\' then .escaped else .inside
  | .escaped, _ => .inside

/-- The phase after a text. -/
def after (phase : Phase) (text : List Char) : Phase := text.foldl next phase

/-- How many quotes open or close a string. -/
def quotes : Phase → List Char → Nat
  | _, [] => 0
  | phase, c :: text => (if c = '"' ∧ phase ≠ .escaped then 1 else 0) + quotes (phase.next c) text

theorem after_append (phase : Phase) (text rest : List Char) :
    phase.after (text ++ rest) = (phase.after text).after rest := List.foldl_append

theorem quotes_append (phase : Phase) (text rest : List Char) :
    phase.quotes (text ++ rest) = phase.quotes text + (phase.after text).quotes rest := by
  induction text generalizing phase with
  | nil => exact (Nat.zero_add _).symm
  | cons c text ih =>
      rw [List.cons_append, quotes, quotes, ih, Nat.add_assoc]
      rfl

/-- Without a quote, the outside is not left. -/
theorem after_outside_of_quotes {text : List Char} (h : outside.quotes text = 0) :
    outside.after text = outside := by
  induction text with
  | nil => rfl
  | cons c text ih =>
      rw [quotes] at h
      have hc : c ≠ '"' := by
        rintro rfl
        rw [if_pos ⟨rfl, by decide⟩] at h
        omega
      have hnext : outside.next c = outside := if_neg hc
      rw [hnext] at h
      have hafter : outside.after (c :: text) = (outside.next c).after text := rfl
      rw [hafter, hnext]
      exact ih (by omega)

end Phase

/-- The characters that stand outside of the strings. -/
def bare (c : Char) : Bool :=
  c.toNat < 128 && (32 ≤ c.toNat || isSpace c) && c ≠ '\\' && c ≠ '`'

/-- What is known of the text after a quote, and of the characters of strings. -/
structure Rules where
  opens : List Char → Prop
  closes : List Char → Prop
  inner : Char → Prop

/-- A text keeps the rules from a phase on. -/
def Follows (rules : Rules) : Phase → List Char → Prop
  | _, [] => True
  | .outside, c :: text =>
      bare c = true ∧ (c = '"' → rules.opens text) ∧ Follows rules (Phase.outside.next c) text
  | .inside, c :: text =>
      rules.inner c ∧ (c = '"' → rules.closes text) ∧ Follows rules (Phase.inside.next c) text
  | .escaped, c :: text =>
      32 ≤ c.toNat ∧ c.toNat < 128 ∧ c ≠ '{' ∧ Follows rules .inside text

section Follows

variable {rules : Rules}

theorem Follows.next {phase : Phase} {c : Char} {text : List Char}
    (h : Follows rules phase (c :: text)) : Follows rules (phase.next c) text := by
  cases phase with
  | outside => exact h.2.2
  | inside => exact h.2.2
  | escaped => exact h.2.2.2

theorem Follows.after {phase : Phase} {text rest : List Char}
    (h : Follows rules phase (text ++ rest)) : Follows rules (phase.after text) rest := by
  induction text generalizing phase with
  | nil => exact h
  | cons c text ih => exact ih h.next

/-- A brace is not escaped. -/
theorem Follows.brace {phase : Phase} {text : List Char} (h : Follows rules phase ('{' :: text)) :
    phase = .outside ∨ phase = .inside := by
  cases phase with
  | outside => exact Or.inl rfl
  | inside => exact Or.inr rfl
  | escaped => exact absurd rfl h.2.2.1

end Follows

/-! ### Bare texts -/

/-- No quote and no backslash. -/
def Plain (text : List Char) : Prop := ∀ c ∈ text, c ≠ '"' ∧ c ≠ '\\'

theorem Phase.next_of_plain {phase : Phase} (hphase : phase ≠ .escaped) {c : Char}
    (hquote : c ≠ '"') (hescape : c ≠ '\\') : phase.next c = phase := by
  cases phase with
  | outside => exact if_neg hquote
  | inside => rw [Phase.next, if_neg hquote, if_neg hescape]
  | escaped => exact absurd rfl hphase

/-- A plain text changes nothing. -/
theorem Plain.stays {text : List Char} (h : Plain text) {phase : Phase}
    (hphase : phase ≠ .escaped) : phase.after text = phase ∧ phase.quotes text = 0 := by
  induction text with
  | nil => exact ⟨rfl, rfl⟩
  | cons c text ih =>
      obtain ⟨⟨hquote, hescape⟩, htext⟩ := List.forall_mem_cons.mp h
      have hnext := Phase.next_of_plain hphase hquote hescape
      have hafter : phase.after (c :: text) = (phase.next c).after text := rfl
      rw [hafter, Phase.quotes, hnext, if_neg fun hc => hquote hc.1, Nat.zero_add]
      exact ih htext

/-- No quote, and nothing that cannot stand outside of the strings. -/
def Bare (text : List Char) : Prop := ∀ c ∈ text, bare c = true ∧ c ≠ '"'

theorem Bare.plain {text : List Char} (h : Bare text) : Plain text := by
  intro c hc
  obtain ⟨hbare, hquote⟩ := h c hc
  refine ⟨hquote, ?_⟩
  rintro rfl
  exact absurd hbare (by decide)

theorem bare_ws {w : List Char} (hw : Ws w) : Bare w := by
  intro c hc
  have hspace := hw c hc
  simp only [isSpace, Bool.or_eq_true, decide_eq_true_iff] at hspace
  rcases hspace with ((rfl | rfl) | rfl) | rfl <;> exact ⟨by decide, by decide⟩

theorem bare_word (l : Literal) : Bare l.word := by
  rcases l with _ | (_ | _) | _ | _ | _ <;> unfold Bare <;> decide

theorem Bare.append {text rest : List Char} (h : Bare text) (hrest : Bare rest) :
    Bare (text ++ rest) := List.forall_mem_append.mpr ⟨h, hrest⟩

theorem Bare.cons {c : Char} {text : List Char} (hc : bare c = true ∧ c ≠ '"') (h : Bare text) :
    Bare (c :: text) := List.forall_mem_cons.mpr ⟨hc, h⟩

/-- The characters of numbers. -/
def numeralChar (c : Char) : Bool :=
  c.isDigit || c = '.' || c = 'e' || c = 'E' || c = '+' || c = '-'

theorem numeralChar_spec {c : Char} (h : numeralChar c = true) :
    bare c = true ∧ c ≠ '"' ∧ isSpace c = false := by
  simp only [numeralChar, Bool.or_eq_true, decide_eq_true_iff] at h
  rcases h with ((((h | rfl) | rfl) | rfl) | rfl) | rfl
  · obtain ⟨hlow, hhigh⟩ := Char.isDigit_iff_toNat.mp h
    have hrange : 48 ≤ c.toNat ∧ c.toNat ≤ 57 := ⟨hlow, hhigh⟩
    have hne : ∀ d : Char, d.isDigit = false → c ≠ d := by
      rintro d hd rfl
      rw [hd] at h
      cases h
    simp only [bare, isSpace, Bool.and_eq_true, Bool.or_eq_true, Bool.or_eq_false_iff,
      decide_eq_true_iff, decide_eq_false_iff_not]
    exact ⟨⟨⟨⟨by omega, Or.inl (by omega)⟩, hne _ (by decide)⟩, hne _ (by decide)⟩,
      hne _ (by decide), ⟨⟨hne _ (by decide), hne _ (by decide)⟩, hne _ (by decide)⟩,
      hne _ (by decide)⟩
  all_goals decide

theorem numeralChar_digit {c : Char} (h : c.isDigit = true) : numeralChar c = true := by
  simp [numeralChar, h]

theorem numeralChar_digits {text : List Char} (h : digits text = text) :
    ∀ c ∈ text, numeralChar c = true :=
  fun _ hc => numeralChar_digit (isDigit_of_mem_digits (h.symm ▸ hc))

theorem numeralChar_exponent {text : List Char} (h : exponentPart text = text) :
    ∀ c ∈ text, numeralChar c = true := by
  rcases exponentPart_cases text with hnone | ⟨c, sign, exponent, hexponent, hpart, -⟩
  · rw [← h, hnone]
    exact fun c hc => absurd hc List.not_mem_nil
  · rw [← h, hpart, List.forall_mem_cons, List.forall_mem_append]
    refine ⟨?_, ?_, numeralChar_digits hexponent.exponent_eq⟩
    · rcases hexponent.mark with rfl | rfl <;> decide
    · have heq := hexponent.sign_eq
      unfold exponentSign at heq
      split at heq <;> (rw [← heq]; decide)

theorem numeralChar_fraction {text : List Char} (h : fractionPart text = text) :
    ∀ c ∈ text, numeralChar c = true := by
  unfold fractionPart at h
  split at h
  · split at h
    · cases h
    · exact List.forall_mem_cons.mpr ⟨by decide, numeralChar_digits (List.cons.inj h).2⟩
  · rw [← h]
    exact fun c hc => absurd hc List.not_mem_nil

theorem numeralChar_text (n : Numeral) : ∀ c ∈ n.text, numeralChar c = true := by
  have hsign : ∀ c ∈ n.sign, numeralChar c = true := by
    have heq := n.sign_eq
    unfold signPart at heq
    split at heq <;> (rw [← heq]; decide)
  simp only [Numeral.text, List.forall_mem_append]
  exact ⟨hsign, fun _ hc => numeralChar_digit (n.isDigit_whole hc),
    numeralChar_fraction n.fraction_eq, numeralChar_exponent n.exponent_eq⟩

theorem bare_numeral (n : Numeral) : Bare n.text := fun c hc =>
  ⟨(numeralChar_spec (numeralChar_text n c hc)).1, (numeralChar_spec (numeralChar_text n c hc)).2.1⟩

/-! ### Reading on -/

section Passes

variable {rules : Rules} {phase : Phase}

/-- Read from a phase on, a text ends in the same phase, with so many quotes, and shows
something. -/
def Passes (rules : Rules) (phase : Phase) (text : List Char) (count : Nat) (shown : Prop) : Prop :=
  ∀ rest, Follows rules phase (text ++ rest) →
    phase.after text = phase ∧ phase.quotes text = count ∧ shown

theorem Passes.append {text text' : List Char} {m n : Nat} {A B : Prop}
    (h : Passes rules phase text m A) (h' : Passes rules phase text' n B) :
    Passes rules phase (text ++ text') (m + n) (A ∧ B) := by
  intro rest hfollows
  rw [List.append_assoc] at hfollows
  obtain ⟨hafter, hquotes, hA⟩ := h _ hfollows
  have hrest := hfollows.after
  rw [hafter] at hrest
  obtain ⟨hafter', hquotes', hB⟩ := h' rest hrest
  rw [Phase.after_append, Phase.quotes_append, hafter, hquotes, hafter', hquotes']
  exact ⟨rfl, rfl, hA, hB⟩

theorem Passes.imp {text : List Char} {n : Nat} {A B : Prop} (h : Passes rules phase text n A)
    (himp : A → B) : Passes rules phase text n B := fun rest hfollows =>
  ⟨(h rest hfollows).1, (h rest hfollows).2.1, himp (h rest hfollows).2.2⟩

theorem Bare.passes {text : List Char} (h : Bare text) (hphase : phase ≠ .escaped) :
    Passes rules phase text 0 True := fun _ _ =>
  ⟨(h.plain.stays hphase).1, (h.plain.stays hphase).2, trivial⟩

/-- What the strings and the keys show that are read from a phase on. -/
structure Reading (rules : Rules) (phase : Phase) (key str : List CodeUnit → Prop) : Prop where
  ne_escaped : phase ≠ .escaped
  str : ∀ {units content}, Content units content →
    Passes rules phase ('"' :: (content ++ ['"'])) 2 (str units)
  key : ∀ {units content w}, Content units content → Ws w →
    Passes rules phase ('"' :: (content ++ '"' :: (w ++ [':']))) 2 (key units)

variable {key str : List CodeUnit → Prop} (hreading : Reading rules phase key str)
include hreading

section Sequences

variable {α : Type} {R : α → List Char → Prop} {count : α → Nat} {shown : α → Prop}
  (helement : ∀ x text, R x text → Passes rules phase text (count x) (shown x))
include helement

theorem separated_passes {xs : List α} {text : List Char} (h : Separated R xs text) :
    Passes rules phase text (xs.map count).sum (∀ x ∈ xs, shown x) := by
  induction h with
  | @one x text hx => simpa using helement x _ hx
  | @more x xs text w w' rest hx hw hw' hrest ih =>
      have hcomma : Bare (w ++ ',' :: w') :=
        (bare_ws hw).append (Bare.cons (by decide) (bare_ws hw'))
      have hall := (helement x _ hx).append ((hcomma.passes hreading.ne_escaped).append ih)
      rw [Nat.zero_add] at hall
      simpa using hall

theorem body_passes {xs : List α} {text : List Char} (h : Body R xs text) :
    Passes rules phase text (xs.map count).sum (∀ x ∈ xs, shown x) := by
  cases h with
  | empty hw => simpa using (bare_ws hw).passes hreading.ne_escaped
  | full hw hxs hw' =>
      have hall := ((bare_ws hw).passes hreading.ne_escaped).append
        ((separated_passes hreading helement hxs).append
          ((bare_ws hw').passes hreading.ne_escaped))
      rw [Nat.zero_add, Nat.add_zero] at hall
      simpa using hall

theorem entry_passes {m : List CodeUnit × α} {text : List Char} (h : Entry R m text) :
    Passes rules phase text (2 + count m.2) (key m.1 ∧ shown m.2) := by
  cases h with
  | @mk key x content w w' text hkey hw hw' hx =>
      have hall := (hreading.key hkey hw).append
        (((bare_ws hw').passes hreading.ne_escaped).append (helement x _ hx))
      rw [Nat.zero_add] at hall
      simpa using hall

end Sequences

/-- Where a value is read, its strings and keys show what they show from that
phase on. -/
theorem reads_passes {F : Type} {num : Numbers F} {depth : Nat} {v : Value F} {text : List Char}
    (h : Reads num depth v text) :
    Passes rules phase text (2 * v.strings) (v.All key str) := by
  have hbracket : ∀ {c d : Char} {body : List Char} {n : Nat} {A : Prop},
      (bare c = true ∧ c ≠ '"') → (bare d = true ∧ d ≠ '"') → Passes rules phase body n A →
      Passes rules phase (c :: (body ++ [d])) n A := by
    intro c d body n A hc hd hbody
    have hnil : Bare [] := fun c hc => absurd hc List.not_mem_nil
    have hall := ((Bare.cons hc hnil).passes hreading.ne_escaped).append
      (hbody.append ((Bare.cons hd hnil).passes hreading.ne_escaped))
    rw [Nat.zero_add, Nat.add_zero] at hall
    exact hall.imp fun h => h.2.1
  induction depth generalizing v text with
  | zero => exact absurd h id
  | succ depth ih =>
      have hvalue : ∀ v text, Reads num depth v text →
          Passes rules phase text (2 * v.strings) (v.All key str) := fun _ _ => ih
      have hmember : ∀ m text, Entry (Reads num depth) m text →
          Passes rules phase text (2 + 2 * m.2.strings) (key m.1 ∧ m.2.All key str) :=
        fun _ _ => entry_passes hreading hvalue
      cases h with
      | literal l =>
          have hword : Passes rules phase l.word 0 True :=
            (bare_word l).passes hreading.ne_escaped
          simpa [Value.strings, Value.All, Algebra.fold_scalar] using hword
      | numeral n _ =>
          have hnumeral : Passes rules phase n.text 0 True :=
            (bare_numeral n).passes hreading.ne_escaped
          simpa [Value.strings, Value.All, Algebra.fold_scalar] using hnumeral
      | str hcontent =>
          rw [Value.all_str]
          simpa [Value.strings, Algebra.fold_str] using hreading.str hcontent
      | arr hbody =>
          rw [Value.all_arr, Value.strings_arr, ← List.sum_map_mul_left]
          exact hbracket (by decide) (by decide) (body_passes hreading hvalue hbody)
      | obj hbody =>
          rw [Value.all_obj, Value.strings_obj, ← List.sum_map_mul_left]
          refine hbracket (by decide) (by decide) ?_
          simpa only [Nat.mul_add, Nat.mul_one] using body_passes hreading hmember hbody

end Passes

/-! ### Strings -/

theorem hexDigit_toNat {c : Char} {digit : Fin 16} (h : hexDigit c = some digit) :
    (48 ≤ c.toNat ∧ c.toNat ≤ 57) ∨ (97 ≤ c.toNat ∧ c.toNat ≤ 102) ∨
      (65 ≤ c.toNat ∧ c.toNat ≤ 70) := by
  unfold hexDigit at h
  split at h
  · rename_i hc
    exact Or.inl hc
  · split at h
    · rename_i hc
      exact Or.inr (Or.inl hc)
    · split at h
      · rename_i hc
        exact Or.inr (Or.inr hc)
      · cases h

/-- A hexadecimal digit is no quote, no backslash, no brace and no control
character. -/
theorem hexDigit_range {c : Char} {digit : Fin 16} (h : hexDigit c = some digit) :
    c ≠ '"' ∧ c ≠ '\\' ∧ c ≠ '{' ∧ 32 ≤ c.toNat := by
  have hrange := hexDigit_toNat h
  refine ⟨?_, ?_, ?_, by omega⟩ <;> (rintro rfl; revert hrange; decide)

theorem hexUnit_range {a b c d : Char} {unit : CodeUnit} (h : hexUnit a b c d = some unit) :
    ∀ x ∈ [a, b, c, d], x ≠ '"' ∧ x ≠ '\\' ∧ x ≠ '{' ∧ 32 ≤ x.toNat := by
  simp only [hexUnit, Option.bind_eq_bind, Option.bind_eq_some_iff] at h
  obtain ⟨_, ha, _, hb, _, hc, _, hd, -⟩ := h
  intro x hx
  simp only [List.mem_cons, List.not_mem_nil, or_false] at hx
  rcases hx with rfl | rfl | rfl | rfl
  · exact hexDigit_range ha
  · exact hexDigit_range hb
  · exact hexDigit_range hc
  · exact hexDigit_range hd

theorem quotes_escape (c : Char) (text : List Char) :
    Phase.inside.quotes ('\\' :: c :: text) = Phase.inside.quotes text := by
  simp [Phase.quotes, Phase.next]

/-- The text of a string does not leave the string. -/
theorem content_inside {units : List CodeUnit} {content : List Char} (h : Content units content) :
    Phase.inside.after content = .inside ∧ Phase.inside.quotes content = 0 := by
  induction h with
  | nil => exact ⟨rfl, rfl⟩
  | cons piece _ ih =>
      have hpiece : ∀ {units text}, Piece units text →
          Phase.inside.after text = .inside ∧ Phase.inside.quotes text = 0 := by
        intro units text piece
        cases piece with
        | plain _ hquote hescape =>
            exact Plain.stays (List.forall_mem_singleton.mpr ⟨hquote, hescape⟩) (by decide)
        | short _ => exact ⟨rfl, quotes_escape _ _⟩
        | @hex a b c d _ hunit =>
            have hdigits : Plain [a, b, c, d] := fun x hx =>
              ⟨(hexUnit_range hunit x hx).1, (hexUnit_range hunit x hx).2.1⟩
            obtain ⟨hafter, hquotes⟩ := hdigits.stays (show Phase.inside ≠ .escaped by decide)
            exact ⟨hafter, (quotes_escape _ _).trans hquotes⟩
      rw [Phase.after_append, Phase.quotes_append, (hpiece piece).1, (hpiece piece).2, ih.1, ih.2]
      exact ⟨rfl, rfl⟩

/-- A brace in the text of a string is a brace of the string. -/
theorem brace_of_content {units : List CodeUnit} {content : List Char} (h : Content units content)
    (hbrace : '{' ∈ content) : 0x7B ∈ units := by
  induction h with
  | nil => exact absurd hbrace List.not_mem_nil
  | cons piece _ ih =>
      rcases List.mem_append.mp hbrace with hpiece | hrest
      · refine List.mem_append_left _ ?_
        cases piece with
        | plain _ _ _ =>
            rw [← List.mem_singleton.mp hpiece]
            decide
        | short hshort =>
            simp only [List.mem_cons, List.not_mem_nil, or_false] at hpiece
            rcases hpiece with h | h
            · exact absurd h (by decide)
            · rw [← h] at hshort
              simp [escapes, shortEscapes] at hshort
        | @hex a b c d _ hunit =>
            rcases List.mem_cons.mp hpiece with h | hpiece
            · exact absurd h (by decide)
            · rcases List.mem_cons.mp hpiece with h | hdigit
              · exact absurd h (by decide)
              · exact absurd rfl (hexUnit_range hunit '{' hdigit).2.2.1
      · exact List.mem_append_right _ (ih hrest)

/-- A string with its quotes, from the outside. -/
theorem string_outside {units : List CodeUnit} {content : List Char} (h : Content units content) :
    Phase.outside.after ('"' :: (content ++ ['"'])) = .outside ∧
      Phase.outside.quotes ('"' :: (content ++ ['"'])) = 2 := by
  obtain ⟨hafter, hquotes⟩ := content_inside h
  have hopens : Phase.outside.next '"' = .inside := rfl
  constructor
  · change Phase.inside.after (content ++ ['"']) = .outside
    rw [Phase.after_append, hafter]
    rfl
  · rw [Phase.quotes, hopens, Phase.quotes_append, hafter, hquotes]
    rfl

/-- A text without escapes between two quotes, from the inside. -/
theorem string_inside {content : List Char} (h : Plain content) :
    Phase.inside.after ('"' :: (content ++ ['"'])) = .inside ∧
      Phase.inside.quotes ('"' :: (content ++ ['"'])) = 2 := by
  obtain ⟨hafter, hquotes⟩ := h.stays (show Phase.outside ≠ .escaped by decide)
  have hcloses : Phase.inside.next '"' = .outside := rfl
  constructor
  · change Phase.outside.after (content ++ ['"']) = .inside
    rw [Phase.after_append, hafter]
    rfl
  · rw [Phase.quotes, hcloses, Phase.quotes_append, hafter, hquotes]
    rfl

section Readings

variable {rules : Rules} {phase : Phase} {key str : List CodeUnit → Prop}

/-- Strings are read from a phase on, if they end in it and show what they
should. -/
theorem reading_of_strings (hphase : phase ≠ .escaped)
    (hstr : ∀ {units content rest}, Content units content →
      Follows rules phase ('"' :: (content ++ '"' :: rest)) →
      phase.after ('"' :: (content ++ ['"'])) = phase ∧
        phase.quotes ('"' :: (content ++ ['"'])) = 2 ∧ str units)
    (hkey : ∀ {units content w rest}, Content units content → Ws w →
      Follows rules phase ('"' :: (content ++ '"' :: (w ++ ':' :: rest))) → key units) :
    Reading rules phase key str where
  ne_escaped := hphase
  str := by
    intro units content hcontent rest hfollows
    rw [List.cons_append, List.append_assoc, List.singleton_append] at hfollows
    exact hstr hcontent hfollows
  key := by
    intro units content w hcontent hw rest hfollows
    simp only [List.cons_append, List.append_assoc, List.nil_append] at hfollows
    obtain ⟨hafter, hquotes, -⟩ := hstr hcontent hfollows
    have hcolon : Bare (w ++ [':']) := (bare_ws hw).append (by unfold Bare; decide)
    obtain ⟨hafter', hquotes'⟩ := hcolon.plain.stays hphase
    have hsplit : '"' :: (content ++ '"' :: (w ++ [':'])) =
        '"' :: (content ++ ['"']) ++ (w ++ [':']) := by
      simp only [List.cons_append, List.append_assoc, List.nil_append]
    rw [hsplit, Phase.after_append, Phase.quotes_append, hafter, hafter', hquotes, hquotes']
    exact ⟨rfl, rfl, hkey hcontent hw hfollows⟩

/-- Outside, the strings that are read are the strings of the text. -/
theorem reading_outside
    (hstr : ∀ {units content rest}, Content units content →
      rules.opens (content ++ '"' :: rest) → str units)
    (hkey : ∀ {units content w rest}, Content units content → Ws w →
      rules.opens (content ++ '"' :: (w ++ ':' :: rest)) → key units) :
    Reading rules .outside key str := by
  refine reading_of_strings (by decide) ?_ ?_
  · intro units content rest hcontent hfollows
    obtain ⟨hafter, hquotes⟩ := string_outside hcontent
    exact ⟨hafter, hquotes, hstr hcontent (hfollows.2.1 rfl)⟩
  · intro units content w rest hcontent hw hfollows
    exact hkey hcontent hw (hfollows.2.1 rfl)

/-- Outside, no text has an escape. -/
theorem content_outside {units : List CodeUnit} {content rest : List Char}
    (h : Content units content) (hfollows : Follows rules .outside (content ++ rest)) :
    Plain content ∧ units = content.flatMap utf16 := by
  induction h with
  | nil => exact ⟨fun c hc => absurd hc List.not_mem_nil, rfl⟩
  | cons piece _ ih =>
      rw [List.append_assoc] at hfollows
      cases piece with
      | plain _ hquote hescape =>
          have hnext := hfollows.next
          rw [Phase.next_of_plain (by decide) hquote hescape] at hnext
          obtain ⟨hplain, rfl⟩ := ih hnext
          exact ⟨List.forall_mem_cons.mpr ⟨⟨hquote, hescape⟩, hplain⟩, rfl⟩
      | short _ => exact absurd hfollows.1 (by decide)
      | hex _ => exact absurd hfollows.1 (by decide)

/-- Inside, the strings that are read are what stands between two strings of the
text. -/
theorem reading_inside
    (hstr : ∀ {content rest}, Plain content → rules.closes (content ++ '"' :: rest) →
      str (content.flatMap utf16))
    (hkey : ∀ {content rest}, Plain content → rules.closes (content ++ '"' :: rest) →
      key (content.flatMap utf16)) :
    Reading rules .inside key str := by
  refine reading_of_strings (by decide) ?_ ?_
  · intro units content rest hcontent hfollows
    obtain ⟨hplain, rfl⟩ := content_outside hcontent hfollows.next
    obtain ⟨hafter, hquotes⟩ := string_inside hplain
    exact ⟨hafter, hquotes, hstr hplain (hfollows.2.1 rfl)⟩
  · intro units content w rest hcontent hw hfollows
    obtain ⟨hplain, rfl⟩ := content_outside hcontent hfollows.next
    exact hkey hplain (hfollows.2.1 rfl)

end Readings

/-! ### The text of a value -/

/-- A colon comes next. -/
def ColonNext (text : List Char) : Prop := ∃ w rest, Ws w ∧ text = w ++ ':' :: rest

/-- What can come directly after a string. -/
def breaks (c : Char) : Bool := isSpace c || c = ',' || c = ':' || c = ']' || c = '}'

def Breaks (text : List Char) : Prop := ∀ c ∈ text.head?, breaks c = true

/-- What can come after a value. -/
def AfterValue (text : List Char) : Prop :=
  ∃ w rest, text = w ++ rest ∧ Ws w ∧ ∀ c ∈ rest.head?, c = ',' ∨ c = ']' ∨ c = '}'

theorem AfterValue.breaks {text : List Char} (h : AfterValue text) : Breaks text := by
  obtain ⟨w, rest, rfl, hw, hrest⟩ := h
  intro c hc
  cases w with
  | nil => rcases hrest c hc with rfl | rfl | rfl <;> decide
  | cons d w =>
      cases hc
      simp [JsonText.breaks, hw c List.mem_cons_self]

theorem AfterValue.not_colonNext {text : List Char} (h : AfterValue text) : ¬ColonNext text := by
  obtain ⟨w, rest, rfl, hw, hrest⟩ := h
  rintro ⟨w', rest', hw', heq⟩
  have hspace : HeadNot isSpace rest := by
    intro c hc
    rcases hrest c hc with rfl | rfl | rfl <;> decide
  have hcolon := eq_of_ws_append hw hw' hspace (headNot_cons (by decide) rest') heq
  rcases hrest ':' (hcolon ▸ rfl) with h | h | h <;> exact absurd h (by decide)

/-- The rules that the text of a value keeps, if its keys and strings are such. -/
structure Admits (rules : Rules) (key str : List CodeUnit → Prop) : Prop where
  str : ∀ {units content rest}, Content units content → str units → ¬ColonNext rest →
    rules.opens (content ++ '"' :: rest)
  key : ∀ {units content rest}, Content units content → key units → ColonNext rest →
    rules.opens (content ++ '"' :: rest)
  closes : ∀ {rest}, Breaks rest → rules.closes rest
  inner : ∀ c, 32 ≤ c.toNat → rules.inner c

section Text

variable {rules : Rules} {key str : List CodeUnit → Prop}

theorem Bare.follows {text rest : List Char} (h : Bare text) (hrest : Follows rules .outside rest) :
    Follows rules .outside (text ++ rest) := by
  induction text with
  | nil => exact hrest
  | cons c text ih =>
      obtain ⟨⟨hbare, hquote⟩, htext⟩ := List.forall_mem_cons.mp h
      refine ⟨hbare, fun hc => absurd hc hquote, ?_⟩
      rw [Phase.next, if_neg hquote]
      exact ih htext

theorem content_follows (hinner : ∀ c : Char, 32 ≤ c.toNat → rules.inner c)
    {units : List CodeUnit} {content rest : List Char} (h : Content units content)
    (hrest : Follows rules .inside rest) : Follows rules .inside (content ++ rest) := by
  have hplain : ∀ {c : Char} {text : List Char}, c ≠ '"' ∧ c ≠ '\\' ∧ 32 ≤ c.toNat →
      Follows rules .inside text → Follows rules .inside (c :: text) := by
    intro c text hc htext
    refine ⟨hinner c hc.2.2, fun hquote => absurd hquote hc.1, ?_⟩
    rw [Phase.next_of_plain (by decide) hc.1 hc.2.1]
    exact htext
  induction h with
  | nil => exact hrest
  | cons piece _ ih =>
      rw [List.append_assoc]
      cases piece with
      | plain hcontrol hquote hescape => exact hplain ⟨hquote, hescape, hcontrol⟩ ih
      | @short c unit hshort =>
          have hc : 32 ≤ c.toNat ∧ c.toNat < 128 ∧ c ≠ '{' := by
            revert hshort
            simp only [escapes, shortEscapes, List.mem_cons, Prod.mk.injEq, List.not_mem_nil,
              or_false]
            rintro (⟨rfl, -⟩ | ⟨rfl, -⟩ | ⟨rfl, -⟩ | ⟨rfl, -⟩ | ⟨rfl, -⟩ | ⟨rfl, -⟩ | ⟨rfl, -⟩ |
              ⟨rfl, -⟩) <;> decide
          exact ⟨hinner '\\' (by decide), fun h => absurd h (by decide), hc.1, hc.2.1, hc.2.2, ih⟩
      | @hex a b c d unit hunit =>
          have hrange : ∀ x ∈ [a, b, c, d], x ≠ '"' ∧ x ≠ '\\' ∧ 32 ≤ x.toNat := by
            intro x hx
            obtain ⟨hquote, hescape, -, hcontrol⟩ := hexUnit_range hunit x hx
            exact ⟨hquote, hescape, hcontrol⟩
          refine ⟨hinner '\\' (by decide), fun h => absurd h (by decide), by decide, by decide,
            by decide, ?_⟩
          exact hplain (hrange a (by simp)) (hplain (hrange b (by simp))
            (hplain (hrange c (by simp)) (hplain (hrange d (by simp)) ih)))

variable (hadmits : Admits rules key str)
include hadmits

theorem string_follows {units : List CodeUnit} {content rest : List Char}
    (h : Content units content) (hopens : rules.opens (content ++ '"' :: rest))
    (hbreaks : Breaks rest) (hrest : Follows rules .outside rest) :
    Follows rules .outside ('"' :: (content ++ '"' :: rest)) :=
  ⟨by decide, fun _ => hopens, content_follows hadmits.inner h
    ⟨hadmits.inner '"' (by decide), fun _ => hadmits.closes hbreaks, hrest⟩⟩

section Sequences

variable {α : Type} {R : α → List Char → Prop} {shown : α → Prop}
  (helement : ∀ x text, R x text → shown x → ∀ rest, AfterValue rest →
    Follows rules .outside rest → Follows rules .outside (text ++ rest))
include helement

omit hadmits in
theorem separated_follows {xs : List α} {text rest : List Char} (h : Separated R xs text)
    (hshown : ∀ x ∈ xs, shown x) (hafter : AfterValue rest) (hrest : Follows rules .outside rest) :
    Follows rules .outside (text ++ rest) := by
  induction h with
  | @one x text hx => exact helement x text hx (hshown x (List.mem_singleton_self x)) rest hafter hrest
  | @more x xs text w w' others hx hw hw' hothers ih =>
      obtain ⟨hfirst, hothers⟩ := List.forall_mem_cons.mp hshown
      have hcomma : Bare (',' :: w') := Bare.cons (by decide) (bare_ws hw')
      have htail := (bare_ws hw).follows (hcomma.follows (ih hothers))
      have hnext : AfterValue (w ++ (',' :: w' ++ (others ++ rest))) :=
        ⟨w, _, rfl, hw, fun c hc => by cases hc; exact Or.inl rfl⟩
      have hall := helement x text hx hfirst _ hnext htail
      simpa only [List.append_assoc, List.cons_append] using hall

omit hadmits in
/-- What stands between two brackets keeps the rules, before a closing bracket. -/
theorem body_follows {xs : List α} {text rest : List Char} (h : Body R xs text)
    (hshown : ∀ x ∈ xs, shown x) {close : Char} (hclose : close = ']' ∨ close = '}')
    (hrest : Follows rules .outside rest) :
    Follows rules .outside (text ++ close :: rest) := by
  have hend : Follows rules .outside (close :: rest) := by
    have hbare : Bare [close] := by
      rcases hclose with rfl | rfl <;> (unfold Bare; decide)
    exact hbare.follows hrest
  cases h with
  | empty hw => exact (bare_ws hw).follows hend
  | @full _ text w w' hw hxs hw' =>
      have hnext : AfterValue (w' ++ close :: rest) :=
        ⟨w', _, rfl, hw', fun c hc => by cases hc; exact Or.inr hclose⟩
      have hall := (bare_ws hw).follows (separated_follows helement hxs hshown hnext
        ((bare_ws hw').follows hend))
      simpa only [List.append_assoc] using hall

theorem entry_follows (m : List CodeUnit × α) (text : List Char) (h : Entry R m text)
    (hshown : key m.1 ∧ shown m.2) (rest : List Char) (hafter : AfterValue rest)
    (hrest : Follows rules .outside rest) : Follows rules .outside (text ++ rest) := by
  cases h with
  | @mk units x content w w' text hkey hw hw' hx =>
      have hvalue := (bare_ws hw').follows (helement x text hx hshown.2 rest hafter hrest)
      have hcolon : Bare (w ++ [':']) := (bare_ws hw).append (by unfold Bare; decide)
      have htail := hcolon.follows hvalue
      rw [List.append_assoc, List.singleton_append] at htail
      have hnext : ColonNext (w ++ ':' :: (w' ++ (text ++ rest))) := ⟨w, _, hw, rfl⟩
      have hbreaks : Breaks (w ++ ':' :: (w' ++ (text ++ rest))) := by
        intro c hc
        cases w with
        | nil =>
            cases hc
            decide
        | cons d w =>
            cases hc
            simp [breaks, hw c List.mem_cons_self]
      have hall := string_follows hadmits hkey (hadmits.key hkey hshown.1 hnext) hbreaks htail
      simpa only [List.append_assoc, List.cons_append] using hall

end Sequences

/-- The text of a value keeps the rules, where the text after it does. -/
theorem follows_append_text {F : Type} {num : Numbers F} {depth : Nat} {v : Value F}
    {text : List Char} (h : Reads num depth v text) (hshown : v.All key str) {rest : List Char}
    (hafter : AfterValue rest) (hrest : Follows rules .outside rest) :
    Follows rules .outside (text ++ rest) := by
  induction depth generalizing v text rest with
  | zero => exact absurd h id
  | succ depth ih =>
      have hvalue : ∀ v text, Reads num depth v text → v.All key str → ∀ rest, AfterValue rest →
          Follows rules .outside rest → Follows rules .outside (text ++ rest) :=
        fun _ _ h hshown _ hafter hrest => ih h hshown hafter hrest
      have hbracket : ∀ {c : Char}, bare c = true ∧ c ≠ '"' → Bare [c] :=
        fun hc => Bare.cons hc fun _ h => absurd h List.not_mem_nil
      cases h with
      | literal l => exact (bare_word l).follows hrest
      | numeral n _ => exact (bare_numeral n).follows hrest
      | str hcontent =>
          rw [Value.all_str] at hshown
          have hopens := hadmits.str hcontent hshown hafter.not_colonNext
          simpa only [List.cons_append, List.append_assoc, List.nil_append] using
            string_follows hadmits hcontent hopens hafter.breaks hrest
      | arr hbody =>
          rw [Value.all_arr] at hshown
          have hall := (hbracket (c := '[') (by decide)).follows
            (body_follows hvalue hbody hshown (Or.inl rfl) hrest)
          simpa only [List.cons_append, List.append_assoc, List.nil_append] using hall
      | obj hbody =>
          rw [Value.all_obj] at hshown
          have hall := (hbracket (c := '{') (by decide)).follows
            (body_follows (entry_follows hadmits hvalue) hbody hshown (Or.inr rfl) hrest)
          simpa only [List.cons_append, List.append_assoc, List.nil_append] using hall

end Text

end JsonText
