/-
The scanner: reading a value at the start of a text.

`scanValue` takes what CPython's scanner takes, and says where it stops. It reads exactly what
the grammar derives (`scanValue_sound`, `scanValue_complete`); the depth is its fuel, and the
length of a text bounds the depth of its values.
-/

import ContextMemory.Lib.JsonText

namespace JsonText

/-! ### Tokens -/

def skip (text : List Char) : List Char := text.dropWhile isSpace

/-- The code unit of an escape of one character. -/
def escaped (c : Char) : Option CodeUnit := (escapes.find? fun escape => escape.1 = c).map (·.2)

def prepend (units : List CodeUnit) (scanned : List CodeUnit × List Char) :
    List CodeUnit × List Char :=
  (units ++ scanned.1, scanned.2)

/-- A string after its first quote, and the text after its last one. -/
def scanString : List Char → Option (List CodeUnit × List Char)
  | [] => none
  | '"' :: rest => some ([], rest)
  | '\\' :: 'u' :: a :: b :: c :: d :: rest =>
      match hexUnit a b c d with
      | some unit => (scanString rest).map (prepend [unit])
      | none => none
  | '\\' :: c :: rest =>
      match escaped c with
      | some unit => (scanString rest).map (prepend [unit])
      | none => none
  | c :: rest =>
      if 32 ≤ c.toNat ∧ c ≠ '\\' then (scanString rest).map (prepend (utf16 c)) else none

theorem escaped_eq_some {c : Char} {unit : CodeUnit} :
    escaped c = some unit ↔ (c, unit) ∈ escapes := by
  constructor
  · intro h
    obtain ⟨escape, hfind, rfl⟩ := Option.map_eq_some_iff.mp h
    have hc : escape.1 = c := by simpa using List.find?_some hfind
    exact hc ▸ List.mem_of_find?_eq_some hfind
  · intro h
    simp only [escapes, shortEscapes, List.mem_cons, Prod.mk.injEq, List.not_mem_nil,
      or_false] at h
    rcases h with ⟨rfl, rfl⟩ | ⟨rfl, rfl⟩ | ⟨rfl, rfl⟩ | ⟨rfl, rfl⟩ | ⟨rfl, rfl⟩ | ⟨rfl, rfl⟩ |
      ⟨rfl, rfl⟩ | ⟨rfl, rfl⟩ <;> decide

theorem scanString_sound {text rest : List Char} {units : List CodeUnit}
    (h : scanString text = some (units, rest)) :
    ∃ content, text = content ++ '"' :: rest ∧ Content units content := by
  fun_induction scanString text generalizing units with
  | case1 => cases h
  | case2 rest' =>
      cases h
      exact ⟨[], rfl, Content.nil⟩
  | case3 a b c d rest' unit hunit ih =>
      obtain ⟨scanned, hscan, heq⟩ := Option.map_eq_some_iff.mp h
      cases heq
      obtain ⟨content, rfl, hcontent⟩ := ih hscan
      exact ⟨_, rfl, Content.cons (Piece.hex hunit) hcontent⟩
  | case4 => cases h
  | case5 c rest' hnot unit hunit ih =>
      obtain ⟨scanned, hscan, heq⟩ := Option.map_eq_some_iff.mp h
      cases heq
      obtain ⟨content, rfl, hcontent⟩ := ih hscan
      exact ⟨_, rfl, Content.cons (Piece.short (escaped_eq_some.mp hunit)) hcontent⟩
  | case6 => cases h
  | case7 c rest' hquote _ _ hplain ih =>
      obtain ⟨scanned, hscan, heq⟩ := Option.map_eq_some_iff.mp h
      cases heq
      obtain ⟨content, rfl, hcontent⟩ := ih hscan
      exact ⟨_, rfl, Content.cons (Piece.plain hplain.1 hquote hplain.2) hcontent⟩
  | case8 => cases h

theorem scanString_complete {content : List Char} {units : List CodeUnit}
    (h : Content units content) (rest : List Char) :
    scanString (content ++ '"' :: rest) = some (units, rest) := by
  induction h with
  | nil => rfl
  | cons piece _ ih =>
      rw [List.append_assoc]
      cases piece with
      | plain hcontrol hquote hescape =>
          rw [List.singleton_append, scanString, if_pos ⟨hcontrol, hescape⟩, ih]
          · rfl
          · exact hquote
          · rintro a b c d rest' rfl
            exact absurd rfl hescape
          · rintro c rest' rfl
            exact absurd rfl hescape
      | @short c unit hshort =>
          have hu : c ≠ 'u' := by
            rintro rfl
            revert hshort
            simp [escapes, shortEscapes]
          rw [List.cons_append, List.singleton_append, scanString, escaped_eq_some.mpr hshort, ih]
          · rfl
          · rintro a b c' d rest' rfl
            exact absurd rfl hu
      | hex hunit =>
          simp only [List.cons_append, List.nil_append, scanString, hunit, ih]
          rfl

/-! ### Numbers -/

/-- No text starts with such a character. -/
def HeadNot (p : Char → Bool) (text : List Char) : Prop := ∀ c ∈ text.head?, p c = false

theorem HeadNot.mono {p q : Char → Bool} {text : List Char} (h : HeadNot p text)
    (himp : ∀ c, q c = true → p c = true) : HeadNot q text := by
  intro c hc
  cases hq : q c with
  | false => rfl
  | true => exact absurd (himp c hq) (by simp [h c hc])

theorem headNot_append {p : Char → Bool} {text rest : List Char} (h : HeadNot p text)
    (hrest : HeadNot p rest) : HeadNot p (text ++ rest) := by
  cases text with
  | nil => exact hrest
  | cons c text => exact h

/-- What is taken from the start of a text: it would be taken of itself alone, and again in front
of a text that stops it. -/
structure TakesPart (part : List Char → List Char) (stop : Char → Bool) : Prop where
  isPrefix : ∀ text, part text <+: text
  own : ∀ text, part (part text) = part text
  again : ∀ {taken}, part taken = taken → ∀ {rest}, HeadNot stop rest → part (taken ++ rest) = taken

theorem takesPart_digits : TakesPart digits Char.isDigit where
  isPrefix text := List.takeWhile_prefix _
  own text := List.takeWhile_idem
  again := by
    intro taken htaken rest hrest
    have hdigits : ∀ c ∈ taken, c.isDigit = true :=
      fun c hc => isDigit_of_mem_digits (htaken.symm ▸ hc)
    have hnone : rest.takeWhile Char.isDigit = [] := by
      cases rest with
      | nil => rfl
      | cons c rest => exact List.takeWhile_cons_of_neg (by simp [hrest c rfl])
    rw [digits, List.takeWhile_append_of_pos hdigits, hnone, List.append_nil]

theorem takesPart_sign : TakesPart signPart (· = '-') where
  isPrefix text := by
    fun_cases signPart text with
    | case1 rest => exact ⟨rest, rfl⟩
    | case2 => exact List.nil_prefix
  own text := by
    fun_cases signPart text with
    | case1 rest => rfl
    | case2 => rfl
  again := by
    intro taken htaken rest hrest
    fun_cases signPart taken with
    | case1 after =>
        rw [← htaken]
        rfl
    | case2 _ hother =>
        rw [signPart] at htaken
        · subst htaken
          rw [List.nil_append, signPart]
          rintro after rfl
          exact absurd (hrest '-' rfl) (by decide)
        · exact hother

theorem takesPart_whole : TakesPart wholePart Char.isDigit where
  isPrefix text := by
    fun_cases wholePart text with
    | case1 rest => exact ⟨rest, rfl⟩
    | case2 _ hother => exact takesPart_digits.isPrefix text
  own text := by
    fun_cases wholePart text with
    | case1 rest => rfl
    | case2 _ hother =>
        rw [wholePart]
        · exact takesPart_digits.own text
        · intro rest hdigits
          obtain ⟨after, hafter⟩ := takesPart_digits.isPrefix text
          rw [hdigits] at hafter
          exact hother _ hafter.symm
  again := by
    intro taken htaken rest hrest
    fun_cases wholePart taken with
    | case1 after =>
        rw [← htaken]
        rfl
    | case2 _ hother =>
        rw [wholePart] at htaken
        · rw [wholePart]
          · exact takesPart_digits.again htaken hrest
          · intro after heq
            cases taken with
            | nil =>
                rw [List.nil_append] at heq
                exact absurd (hrest '0' (heq ▸ rfl)) (by decide)
            | cons c taken =>
                cases heq
                exact hother _ rfl
        · exact hother

theorem takesPart_fraction : TakesPart fractionPart fun c => c.isDigit || c = '.' where
  isPrefix text := by
    fun_cases fractionPart text with
    | case1 rest hnone => exact List.nil_prefix
    | case2 rest hsome => exact (List.prefix_cons_inj '.').mpr (takesPart_digits.isPrefix rest)
    | case3 => exact List.nil_prefix
  own text := by
    fun_cases fractionPart text with
    | case1 rest hnone => rfl
    | case2 rest hsome => rw [fractionPart, takesPart_digits.own, if_neg hsome]
    | case3 => rfl
  again := by
    intro taken htaken rest hrest
    fun_cases fractionPart taken with
    | case1 after hnone =>
        rw [fractionPart, if_pos hnone] at htaken
        cases htaken
    | case2 after hsome =>
        rw [fractionPart, if_neg hsome] at htaken
        have hdigits := takesPart_digits.again (List.cons.inj htaken).2
          (hrest.mono fun c hc => by simp [hc])
        rw [List.cons_append, fractionPart, hdigits, if_neg]
        exact fun hnil => hsome (by rw [hnil]; rfl)
    | case3 _ hother =>
        rw [fractionPart] at htaken
        · subst htaken
          rw [List.nil_append, fractionPart]
          rintro after rfl
          exact absurd (hrest '.' rfl) (by decide)
        · exact hother

theorem takesPart_exponentSign : TakesPart exponentSign fun c => c = '+' || c = '-' where
  isPrefix text := by
    fun_cases exponentSign text with
    | case1 rest => exact ⟨rest, rfl⟩
    | case2 rest => exact ⟨rest, rfl⟩
    | case3 => exact List.nil_prefix
  own text := by
    fun_cases exponentSign text with
    | case1 rest => rfl
    | case2 rest => rfl
    | case3 => rfl
  again := by
    intro taken htaken rest hrest
    fun_cases exponentSign taken with
    | case1 after =>
        rw [← htaken]
        rfl
    | case2 after =>
        rw [← htaken]
        rfl
    | case3 _ hplus hminus =>
        rw [exponentSign] at htaken
        · subst htaken
          rw [List.nil_append, exponentSign]
          · rintro after rfl
            exact absurd (hrest '+' rfl) (by decide)
          · rintro after rfl
            exact absurd (hrest '-' rfl) (by decide)
        · exact hplus
        · exact hminus

theorem TakesPart.drop {part : List Char → List Char} {stop : Char → Bool}
    (h : TakesPart part stop) (text : List Char) :
    part text ++ text.drop (part text).length = text :=
  List.prefix_iff_eq_append.mp (h.isPrefix text)

/-- The exponents that are taken. -/
structure IsExponent (c : Char) (sign exponent : List Char) : Prop where
  mark : c = 'e' ∨ c = 'E'
  sign_eq : exponentSign sign = sign
  exponent_eq : digits exponent = exponent
  exponent_ne : exponent ≠ []

theorem exponentPart_of_isExponent {c : Char} {sign exponent rest : List Char}
    (h : IsExponent c sign exponent) (hrest : HeadNot Char.isDigit rest) :
    exponentPart (c :: (sign ++ (exponent ++ rest))) = c :: (sign ++ exponent) := by
  have hhead : HeadNot (fun c => c = '+' || c = '-') (exponent ++ rest) := by
    cases hexponent : exponent with
    | nil => exact absurd hexponent h.exponent_ne
    | cons d ds =>
        intro c hc
        cases hc
        have hdigit : d.isDigit = true :=
          isDigit_of_mem_digits (h.exponent_eq.symm ▸ hexponent ▸ List.mem_cons_self)
        by_contra hsign
        rw [Bool.not_eq_false, Bool.or_eq_true, decide_eq_true_iff, decide_eq_true_iff] at hsign
        rcases hsign with rfl | rfl <;> exact absurd hdigit (by decide)
  have hsign := takesPart_exponentSign.again h.sign_eq hhead
  have hdigits := takesPart_digits.again h.exponent_eq hrest
  simp only [exponentPart, hsign, List.drop_left, hdigits]
  exact if_pos ⟨h.mark, h.exponent_ne⟩

theorem exponentPart_cases (text : List Char) :
    exponentPart text = [] ∨ ∃ c sign exponent, IsExponent c sign exponent ∧
      exponentPart text = c :: (sign ++ exponent) ∧ c :: (sign ++ exponent) <+: text := by
  cases text with
  | nil => exact Or.inl rfl
  | cons c text =>
      simp only [exponentPart]
      split
      · rename_i h
        refine Or.inr ⟨c, _, _, ⟨h.1, takesPart_exponentSign.own text, takesPart_digits.own _, h.2⟩,
          rfl, (List.prefix_cons_inj c).mpr ?_⟩
        obtain ⟨after, hafter⟩ := takesPart_digits.isPrefix (text.drop (exponentSign text).length)
        refine ⟨after, ?_⟩
        rw [List.append_assoc, hafter, takesPart_exponentSign.drop]
      · exact Or.inl rfl

theorem takesPart_exponent :
    TakesPart exponentPart fun c => c.isDigit || c = 'e' || c = 'E' where
  isPrefix text := by
    rcases exponentPart_cases text with hnone | ⟨c, sign, exponent, -, hpart, hprefix⟩
    · rw [hnone]
      exact List.nil_prefix
    · rwa [hpart]
  own text := by
    rcases exponentPart_cases text with hnone | ⟨c, sign, exponent, h, hpart, -⟩
    · rw [hnone]
      rfl
    · rw [hpart]
      have hnil : HeadNot Char.isDigit [] := fun c hc => by cases hc
      have hown := exponentPart_of_isExponent h hnil
      rwa [List.append_nil] at hown
  again := by
    intro taken htaken rest hrest
    rcases exponentPart_cases taken with hnone | ⟨c, sign, exponent, h, hpart, -⟩
    · rw [htaken] at hnone
      subst hnone
      cases rest with
      | nil => rfl
      | cons c rest =>
          have hc := hrest c rfl
          simp only [Bool.or_eq_false_iff, decide_eq_false_iff_not] at hc
          simp only [List.nil_append, exponentPart]
          exact if_neg fun h => h.1.elim hc.1.2 hc.2
    · rw [htaken] at hpart
      rw [hpart, List.cons_append, List.append_assoc]
      exact exponentPart_of_isExponent h (hrest.mono fun c hc => by simp [hc])

/-- A numeral at the start of a text. -/
def scanNumeral (text : List Char) : Option (Numeral × List Char) :=
  let afterSign := text.drop (signPart text).length
  let whole := wholePart afterSign
  let afterWhole := afterSign.drop whole.length
  let fraction := fractionPart afterWhole
  let afterFraction := afterWhole.drop fraction.length
  let exponent := exponentPart afterFraction
  if h : whole = [] then none
  else
    some
      ({ sign := signPart text
         whole := whole
         fraction := fraction
         exponent := exponent
         sign_eq := takesPart_sign.own text
         whole_eq := takesPart_whole.own afterSign
         whole_ne := h
         fraction_eq := takesPart_fraction.own afterWhole
         exponent_eq := takesPart_exponent.own afterFraction },
        afterFraction.drop exponent.length)

theorem scanNumeral_sound {text rest : List Char} {n : Numeral}
    (h : scanNumeral text = some (n, rest)) : text = n.text ++ rest := by
  simp only [scanNumeral] at h
  split at h
  · cases h
  · cases h
    simp only [Numeral.text, List.append_assoc]
    rw [takesPart_exponent.drop, takesPart_fraction.drop, takesPart_whole.drop, takesPart_sign.drop]

/-- The characters that a number can go on with. -/
def goesOn (c : Char) : Bool := c.isDigit || c = '.' || c = 'e' || c = 'E'

theorem headNot_whole (n : Numeral) (rest : List Char) :
    HeadNot (· = '-') (n.whole ++ rest) := by
  cases hwhole : n.whole with
  | nil => exact absurd hwhole n.whole_ne
  | cons d ds =>
      intro c hc
      cases hc
      have hdigit : d.isDigit = true := n.isDigit_whole (hwhole ▸ List.mem_cons_self)
      by_contra hminus
      rw [Bool.not_eq_false, decide_eq_true_iff] at hminus
      subst hminus
      exact absurd hdigit (by decide)

theorem headNot_exponent (n : Numeral) :
    HeadNot (fun c => c.isDigit || c = '.') n.exponent := by
  rcases exponentPart_cases n.exponent with hnone | ⟨c, sign, exponent, h, hpart, -⟩
  · rw [n.exponent_eq] at hnone
    rw [hnone]
    intro c hc
    cases hc
  · rw [n.exponent_eq] at hpart
    rw [hpart]
    intro c' hc'
    cases hc'
    rcases h.mark with rfl | rfl <;> decide

theorem headNot_fraction (n : Numeral) : HeadNot Char.isDigit n.fraction := by
  have heq := n.fraction_eq
  unfold fractionPart at heq
  split at heq
  · rename_i after hfraction
    rw [hfraction]
    intro c hc
    cases hc
    decide
  · rw [← heq]
    intro c hc
    cases hc

theorem scanNumeral_complete (n : Numeral) {rest : List Char} (hrest : HeadNot goesOn rest) :
    scanNumeral (n.text ++ rest) = some (n, rest) := by
  have hexponent := takesPart_exponent.again n.exponent_eq
    (hrest.mono fun c hc => by simp only [goesOn, Bool.or_eq_true] at hc ⊢; tauto)
  have hfraction := takesPart_fraction.again n.fraction_eq
    (headNot_append (headNot_exponent n)
      (hrest.mono fun c hc => by simp only [goesOn, Bool.or_eq_true] at hc ⊢; tauto))
  have hwhole := takesPart_whole.again n.whole_eq
    (headNot_append (headNot_fraction n) (headNot_append
      ((headNot_exponent n).mono fun c hc => by simp [hc])
      (hrest.mono fun c hc => by simp [goesOn, hc])))
  have hsign := takesPart_sign.again n.sign_eq
    (headNot_whole n (n.fraction ++ (n.exponent ++ rest)))
  simp only [scanNumeral, Numeral.text, List.append_assoc, hsign, List.drop_left, hwhole, hfraction,
    hexponent]
  exact dif_neg n.whole_ne

/-! ### Literals and scalars -/

def scanLiteral (text : List Char) : Option (Literal × List Char) :=
  (Literal.all.find? fun l => l.word.isPrefixOf text).map fun l => (l, text.drop l.word.length)

theorem scanLiteral_sound {text rest : List Char} {l : Literal}
    (h : scanLiteral text = some (l, rest)) : text = l.word ++ rest := by
  obtain ⟨l', hfind, heq⟩ := Option.map_eq_some_iff.mp h
  cases heq
  have hprefix := List.find?_some hfind
  exact (List.prefix_iff_eq_append.mp (List.isPrefixOf_iff_prefix.mp hprefix)).symm

theorem scanLiteral_complete (l : Literal) (rest : List Char) :
    scanLiteral (l.word ++ rest) = some (l, rest) := by
  rcases l with _ | (_ | _) | _ | _ | _ <;> rfl

theorem word_letters (l : Literal) :
    ∃ c c' rest, l.word = c :: c' :: rest ∧ c.isDigit = false ∧ c'.isDigit = false := by
  rcases l with _ | (_ | _) | _ | _ | _ <;> exact ⟨_, _, _, rfl, by decide, by decide⟩

/-- No word starts with a digit, or with a sign and a digit. -/
theorem word_not_digit (l : Literal) {d : Char} (hd : d.isDigit = true) (sign : Char)
    (rest : List Char) :
    l.word.isPrefixOf (d :: rest) = false ∧ l.word.isPrefixOf (sign :: d :: rest) = false := by
  obtain ⟨c, c', word, hword, hc, hc'⟩ := word_letters l
  have hne : ∀ {x : Char}, x.isDigit = false → (x == d) = false := by
    rintro x hx
    rw [beq_eq_false_iff_ne]
    rintro rfl
    simp [hx] at hd
  rw [hword, List.isPrefixOf_cons_cons, hne hc, List.isPrefixOf_cons_cons, List.isPrefixOf_cons_cons, hne hc']
  simp

theorem scanLiteral_numeral (n : Numeral) (rest : List Char) :
    scanLiteral (n.text ++ rest) = none := by
  obtain ⟨d, ds, hwhole⟩ := List.exists_cons_of_ne_nil n.whole_ne
  have hdigit : d.isDigit = true := n.isDigit_whole (hwhole ▸ List.mem_cons_self)
  have hsign : n.sign = [] ∨ n.sign = ['-'] := by
    have heq := n.sign_eq
    unfold signPart at heq
    split at heq
    · exact Or.inr heq.symm
    · exact Or.inl heq.symm
  rw [scanLiteral, Option.map_eq_none_iff, List.find?_eq_none]
  intro l _
  rw [Bool.not_eq_true, Numeral.text, hwhole]
  rcases hsign with hsign | hsign
  · rw [hsign]
    exact (word_not_digit l hdigit '-' _).1
  · rw [hsign]
    exact (word_not_digit l hdigit '-' _).2

section Scan

variable {F : Type} (num : Numbers F)

/-- A value without brackets and quotes. -/
def scanScalar (text : List Char) : Option (Scalar F × List Char) :=
  match scanLiteral text with
  | some (l, rest) => some (num.literal l, rest)
  | none =>
      match scanNumeral text with
      | some (n, rest) =>
          if n.isInt = true → n.whole.length ≤ num.maxDigits then some (num.numeral n, rest)
          else none
      | none => none

end Scan

/-! ### Sequences -/

section Sequences

variable {α : Type} (element : List Char → Option (α × List Char)) (close : Char)

/-- Elements up to the closing bracket. -/
def scanSeparated : Nat → List Char → Option (List α × List Char)
  | 0, _ => none
  | n + 1, text =>
      match element text with
      | none => none
      | some (x, after) =>
          match skip after with
          | [] => none
          | c :: rest =>
              if c = close then some ([x], rest)
              else if c = ',' then
                (scanSeparated n (skip rest)).map fun scanned => (x :: scanned.1, scanned.2)
              else none

/-- What stands between two brackets, after the first of them. -/
def scanBody (text : List Char) : Option (List α × List Char) :=
  match skip text with
  | [] => none
  | c :: rest =>
      if c = close then some ([], rest) else scanSeparated element close text.length (c :: rest)

/-- A member of an object. -/
def scanEntry (text : List Char) : Option ((List CodeUnit × α) × List Char) :=
  match text with
  | '"' :: afterQuote =>
      match scanString afterQuote with
      | none => none
      | some (key, afterKey) =>
          match skip afterKey with
          | ':' :: afterColon =>
              (element (skip afterColon)).map fun scanned => ((key, scanned.1), scanned.2)
          | _ => none
  | _ => none

end Sequences

section Scan

variable {F : Type} (num : Numbers F)

/-- A value at the start of a text, and the text after it. -/
def scanValue : Nat → List Char → Option (Value F × List Char)
  | 0, _ => none
  | depth + 1, text =>
      match text with
      | [] => none
      | c :: rest =>
          if c = '"' then (scanString rest).map fun scanned => (.str scanned.1, scanned.2)
          else if c = '[' then
            (scanBody (scanValue depth) ']' rest).map fun scanned => (.arr scanned.1, scanned.2)
          else if c = '{' then
            (scanBody (scanEntry (scanValue depth)) '}' rest).map fun scanned =>
              (.obj scanned.1, scanned.2)
          else (scanScalar num text).map fun scanned => (.scalar scanned.1, scanned.2)

/-- `raw_decode` at the start of a text. -/
def scan (text : List Char) : Option (Value F × List Char) := scanValue num text.length text

/-- `json.loads`. -/
def loads (text : List Char) : Option (Value F) :=
  match scan num (skip text) with
  | some (v, rest) => if skip rest = [] then some v.dict else none
  | none => none

end Scan

/-! ### Soundness -/

theorem skip_sound (text : List Char) : ∃ w, Ws w ∧ text = w ++ skip text :=
  ⟨text.takeWhile isSpace, fun _ hc => List.mem_takeWhile_imp hc,
    (List.takeWhile_append_dropWhile).symm⟩

section Sound

variable {α : Type} {R : α → List Char → Prop} {element : List Char → Option (α × List Char)}
  {close : Char}

/-- What is read is what the grammar derives. -/
def SoundFor (R : α → List Char → Prop) (element : List Char → Option (α × List Char)) : Prop :=
  ∀ {text rest x}, element text = some (x, rest) → ∃ taken, text = taken ++ rest ∧ R x taken

theorem scanSeparated_sound (helement : SoundFor R element) {n : Nat} {text rest : List Char}
    {xs : List α} (h : scanSeparated element close n text = some (xs, rest)) :
    ∃ taken w, text = taken ++ (w ++ close :: rest) ∧ Separated R xs taken ∧ Ws w := by
  induction n generalizing text xs with
  | zero => cases h
  | succ n ih =>
      rw [scanSeparated] at h
      split at h
      · cases h
      · rename_i x after hscan
        obtain ⟨taken, rfl, hx⟩ := helement hscan
        obtain ⟨w, hw, hafter⟩ := skip_sound after
        split at h
        · cases h
        · rename_i c rest' hskip
          rw [hskip] at hafter
          subst hafter
          split at h
          · rename_i hclose
            cases h
            exact ⟨taken, w, by rw [hclose], Separated.one hx, hw⟩
          · split at h
            · rename_i hcomma
              obtain ⟨scanned, hscanned, heq⟩ := Option.map_eq_some_iff.mp h
              cases heq
              obtain ⟨w', hw', hrest⟩ := skip_sound rest'
              obtain ⟨taken', w'', htext, hxs, hw''⟩ := ih hscanned
              refine ⟨_, w'', ?_, Separated.more hx hw hw' hxs, hw''⟩
              rw [hrest, htext, hcomma]
              simp only [List.append_assoc, List.cons_append]
            · cases h

theorem scanBody_sound (helement : SoundFor R element) {text rest : List Char} {xs : List α}
    (h : scanBody element close text = some (xs, rest)) :
    ∃ taken, text = taken ++ close :: rest ∧ Body R xs taken := by
  obtain ⟨w, hw, htext⟩ := skip_sound text
  unfold scanBody at h
  split at h
  · cases h
  · rename_i c rest' hskip
    rw [hskip] at htext
    split at h
    · rename_i hclose
      cases h
      exact ⟨w, by rw [htext, hclose], Body.empty hw⟩
    · obtain ⟨taken, w', hrest, hxs, hw'⟩ := scanSeparated_sound helement h
      refine ⟨_, ?_, Body.full hw hxs hw'⟩
      rw [htext, hrest]
      simp only [List.append_assoc]

theorem scanEntry_sound (helement : SoundFor R element) :
    SoundFor (Entry R) (scanEntry element) := by
  intro text rest m h
  unfold scanEntry at h
  split at h
  · split at h
    · cases h
    · rename_i key afterKey hkey
      obtain ⟨content, rfl, hcontent⟩ := scanString_sound hkey
      obtain ⟨w, hw, hafter⟩ := skip_sound afterKey
      split at h
      · rename_i afterColon hcolon
        obtain ⟨scanned, hscanned, heq⟩ := Option.map_eq_some_iff.mp h
        cases heq
        obtain ⟨w', hw', hspace⟩ := skip_sound afterColon
        obtain ⟨taken, htaken, hx⟩ := helement hscanned
        refine ⟨_, ?_, Entry.mk hcontent hw hw' hx⟩
        rw [hafter, hcolon, hspace, htaken]
        simp only [List.append_assoc, List.cons_append]
      · cases h
  · cases h

end Sound

section Sound

variable {F : Type} {num : Numbers F}

theorem scanScalar_sound {R : Value F → List Char → Prop} {text rest : List Char} {a : Scalar F}
    (h : scanScalar num text = some (a, rest)) :
    ∃ taken, text = taken ++ rest ∧ Layer num R (.scalar a) taken := by
  unfold scanScalar at h
  split at h
  · rename_i l rest' hscan
    cases h
    exact ⟨l.word, scanLiteral_sound hscan, Layer.literal l⟩
  · split at h
    · rename_i n rest' hscan
      split at h
      · rename_i hdigits
        cases h
        exact ⟨n.text, scanNumeral_sound hscan, Layer.numeral n hdigits⟩
      · cases h
    · cases h

theorem scanValue_sound {depth : Nat} : SoundFor (Reads num depth) (scanValue num depth) := by
  induction depth with
  | zero =>
      intro text rest v h
      cases h
  | succ depth ih =>
      intro text rest v h
      unfold scanValue at h
      split at h
      · cases h
      · rename_i c after
        split at h
        · rename_i hquote
          obtain ⟨scanned, hscanned, heq⟩ := Option.map_eq_some_iff.mp h
          cases heq
          obtain ⟨content, rfl, hcontent⟩ := scanString_sound hscanned
          exact ⟨'"' :: (content ++ ['"']), by simp [hquote], Layer.str hcontent⟩
        · split at h
          · rename_i hbracket
            obtain ⟨scanned, hscanned, heq⟩ := Option.map_eq_some_iff.mp h
            cases heq
            obtain ⟨body, rfl, hbody⟩ := scanBody_sound ih hscanned
            exact ⟨'[' :: (body ++ [']']), by simp [hbracket], Layer.arr hbody⟩
          · split at h
            · rename_i hbrace
              obtain ⟨scanned, hscanned, heq⟩ := Option.map_eq_some_iff.mp h
              cases heq
              obtain ⟨body, rfl, hbody⟩ := scanBody_sound (scanEntry_sound ih) hscanned
              exact ⟨'{' :: (body ++ ['}']), by simp [hbrace], Layer.obj hbody⟩
            · obtain ⟨scanned, hscanned, heq⟩ := Option.map_eq_some_iff.mp h
              cases heq
              exact scanScalar_sound hscanned

end Sound

/-! ### Completeness -/

theorem skip_append {w text : List Char} (hw : Ws w) (htext : HeadNot isSpace text) :
    skip (w ++ text) = text := by
  rw [skip, List.dropWhile_append_of_pos hw]
  cases text with
  | nil => rfl
  | cons c text => exact List.dropWhile_cons_of_neg (by simp [htext c rfl])

/-- After the same white space, the same texts. -/
theorem eq_of_ws_append {w w' text text' : List Char} (hw : Ws w) (hw' : Ws w')
    (htext : HeadNot isSpace text) (htext' : HeadNot isSpace text') (h : w ++ text = w' ++ text') :
    text = text' := by
  rw [← skip_append hw htext, h, skip_append hw' htext']

theorem not_mem_of_ws {w : List Char} (hw : Ws w) {c : Char} (hc : isSpace c = false) : c ∉ w := by
  intro hmem
  rw [hw c hmem] at hc
  cases hc

theorem headNot_cons {p : Char → Bool} {c : Char} (hc : p c = false) (rest : List Char) :
    HeadNot p (c :: rest) := by
  intro c' hc'
  cases hc'
  exact hc

theorem headNot_ws {w : List Char} (hw : Ws w) : HeadNot goesOn w := by
  cases w with
  | nil =>
      intro c hc
      cases hc
  | cons c w =>
      have hspace := (List.forall_mem_cons.mp hw).1
      simp only [isSpace, Bool.or_eq_true, decide_eq_true_iff] at hspace
      refine headNot_cons ?_ w
      rcases hspace with ((rfl | rfl) | rfl) | rfl <;> decide

section Complete

variable {α : Type} {R : α → List Char → Prop} {element : List Char → Option (α × List Char)}
  {close : Char} {n : Nat}

/-- What the grammar derives, up to a length, is read. -/
def CompleteFor (R : α → List Char → Prop) (element : List Char → Option (α × List Char))
    (n : Nat) : Prop :=
  ∀ {x taken}, R x taken → taken.length ≤ n → ∀ {rest}, HeadNot goesOn rest →
    element (taken ++ rest) = some (x, rest)

/-- An element starts neither with white space nor with the closing bracket. -/
def Starts (R : α → List Char → Prop) (close : Char) : Prop :=
  ∀ {x taken}, R x taken → ∃ c rest, taken = c :: rest ∧ isSpace c = false ∧ c ≠ close

theorem Starts.separated (hstarts : Starts R close) : Starts (Separated R) close := by
  intro xs taken h
  cases h with
  | one h => exact hstarts h
  | more h hw hw' hrest =>
      obtain ⟨c, rest, rfl, hc, hclose⟩ := hstarts h
      exact ⟨c, _, rfl, hc, hclose⟩

variable (helement : CompleteFor R element n) (hstarts : Starts R close)
  (hcomma : close ≠ ',') (hspace : isSpace close = false) (hgoes : goesOn close = false)

include helement hstarts hcomma hspace hgoes

theorem scanSeparated_complete {xs : List α} {taken w : List Char} (h : Separated R xs taken)
    (hw : Ws w) (rest : List Char) (htaken : taken.length ≤ n) {fuel : Nat}
    (hfuel : taken.length ≤ fuel) :
    scanSeparated element close fuel (taken ++ (w ++ close :: rest)) = some (xs, rest) := by
  induction h generalizing fuel with
  | @one x taken hx =>
      obtain ⟨c, after, rfl, -, -⟩ := hstarts hx
      obtain ⟨fuel, rfl⟩ : ∃ k, fuel = k + 1 := Nat.exists_eq_succ_of_ne_zero (by
        rintro rfl
        simp at hfuel)
      have hread := helement hx htaken (headNot_append (headNot_ws hw) (headNot_cons hgoes rest))
      rw [scanSeparated, hread]
      simp only [skip_append hw (headNot_cons hspace rest), if_pos]
  | @more x xs taken v v' after hx hv hv' hrest ih =>
      obtain ⟨c, after', rfl, -, -⟩ := hstarts hx
      obtain ⟨fuel, rfl⟩ : ∃ k, fuel = k + 1 := Nat.exists_eq_succ_of_ne_zero (by
        rintro rfl
        simp at hfuel)
      simp only [List.length_append, List.length_cons] at htaken hfuel
      obtain ⟨d, after'', hafter, hd, -⟩ := hstarts.separated hrest
      have hread := helement hx (by simp only [List.length_cons]; omega)
        (headNot_append (headNot_ws hv)
          (headNot_cons (c := ',') (by decide) (v' ++ (after ++ (w ++ close :: rest)))))
      have htail : scanSeparated element close fuel (after ++ (w ++ close :: rest)) =
          some (xs, rest) := ih (by omega) (by omega)
      have hskip : skip (v' ++ (after ++ (w ++ close :: rest))) = after ++ (w ++ close :: rest) := by
        rw [hafter]
        exact skip_append hv' (headNot_cons hd _)
      simp only [List.append_assoc, List.cons_append] at hread ⊢
      rw [scanSeparated, hread]
      simp only [skip_append hv (headNot_cons (c := ',') (by decide) _), if_neg hcomma.symm, if_pos,
        hskip, htail, Option.map_some]

theorem scanBody_complete {xs : List α} {taken : List Char} (h : Body R xs taken)
    (rest : List Char) (htaken : taken.length ≤ n) :
    scanBody element close (taken ++ close :: rest) = some (xs, rest) := by
  cases h with
  | empty hw =>
      simp only [scanBody, skip_append hw (headNot_cons hspace rest), if_pos]
  | @full xs text w w' hw hxs hw' =>
      obtain ⟨c, after, rfl, hc, hclose⟩ := hstarts.separated hxs
      simp only [List.length_append, List.length_cons] at htaken
      have hread : scanSeparated element close (w ++ (c :: after ++ w') ++ close :: rest).length
          (c :: after ++ (w' ++ close :: rest)) = some (xs, rest) :=
        scanSeparated_complete helement hstarts hcomma hspace hgoes hxs hw' rest
          (by simp only [List.length_cons]; omega)
          (by simp only [List.length_append, List.length_cons]; omega)
      unfold scanBody
      simp only [List.append_assoc, List.cons_append] at hread ⊢
      simp only [skip_append hw (headNot_cons hc _), if_neg hclose, hread]

omit hcomma hspace hgoes in
theorem scanEntry_complete : CompleteFor (Entry R) (scanEntry element) n := by
  intro m taken h htaken rest hrest
  cases h with
  | @mk key x content w w' text hkey hw hw' hx =>
      obtain ⟨c, after, rfl, hc, -⟩ := hstarts hx
      simp only [List.length_append, List.length_cons] at htaken
      have hread := helement hx (by simp only [List.length_cons]; omega) hrest
      have hstring := scanString_complete hkey (w ++ ':' :: (w' ++ (c :: after ++ rest)))
      simp only [List.append_assoc, List.cons_append] at hread hstring ⊢
      simp only [scanEntry, hstring, skip_append hw (headNot_cons (c := ':') (by decide) _),
        skip_append hw' (headNot_cons hc _), hread, Option.map_some]

end Complete

section Complete

variable {F : Type} {num : Numbers F}

/-- The characters that a value without brackets and quotes starts with. -/
def startsScalar (c : Char) : Bool :=
  c.isDigit || c = '-' || c = 'n' || c = 't' || c = 'f' || c = 'N' || c = 'I'

theorem startsScalar_spec {c : Char} (h : startsScalar c = true) :
    isSpace c = false ∧ c ≠ ']' ∧ c ≠ '}' ∧ c ≠ '"' ∧ c ≠ '[' ∧ c ≠ '{' := by
  refine ⟨?_, ?_, ?_, ?_, ?_, ?_⟩
  · cases hspace : isSpace c with
    | false => rfl
    | true =>
        simp only [isSpace, Bool.or_eq_true, decide_eq_true_iff] at hspace
        rcases hspace with ((rfl | rfl) | rfl) | rfl <;> exact absurd h (by decide)
  all_goals (rintro rfl; exact absurd h (by decide))

theorem word_start (l : Literal) : ∃ c rest, l.word = c :: rest ∧ startsScalar c = true := by
  rcases l with _ | (_ | _) | _ | _ | _ <;> exact ⟨_, _, rfl, by decide⟩

theorem numeral_start (n : Numeral) : ∃ c rest, n.text = c :: rest ∧ startsScalar c = true := by
  have heq := n.sign_eq
  unfold signPart at heq
  split at heq
  · rw [Numeral.text, ← heq]
    exact ⟨'-', _, rfl, by decide⟩
  · obtain ⟨d, ds, hwhole⟩ := List.exists_cons_of_ne_nil n.whole_ne
    have hdigit : d.isDigit = true := n.isDigit_whole (hwhole ▸ List.mem_cons_self)
    rw [Numeral.text, ← heq, hwhole]
    exact ⟨d, _, rfl, by simp [startsScalar, hdigit]⟩

theorem scanScalar_complete_literal (l : Literal) (rest : List Char) :
    scanScalar num (l.word ++ rest) = some (num.literal l, rest) := by
  rw [scanScalar, scanLiteral_complete]

theorem scanScalar_complete_numeral {n : Numeral}
    (hdigits : n.isInt = true → n.whole.length ≤ num.maxDigits) {rest : List Char}
    (hrest : HeadNot goesOn rest) :
    scanScalar num (n.text ++ rest) = some (num.numeral n, rest) := by
  rw [scanScalar, scanLiteral_numeral, scanNumeral_complete n hrest]
  exact if_pos hdigits

theorem scanValue_scalar {depth : Nat} {c : Char} (hc : startsScalar c = true)
    (text : List Char) :
    scanValue num (depth + 1) (c :: text) =
      (scanScalar num (c :: text)).map fun scanned => (.scalar scanned.1, scanned.2) := by
  obtain ⟨-, -, -, hquote, hbracket, hbrace⟩ := startsScalar_spec hc
  rw [scanValue, if_neg hquote, if_neg hbracket, if_neg hbrace]

/-- A value starts neither with white space nor with a closing bracket. -/
theorem reads_start {depth : Nat} {v : Value F} {text : List Char} (h : Reads num depth v text) :
    ∃ c rest, text = c :: rest ∧ isSpace c = false ∧ c ≠ ']' ∧ c ≠ '}' := by
  cases depth with
  | zero => exact absurd h id
  | succ depth =>
      cases h with
      | literal l =>
          obtain ⟨c, rest, htext, hc⟩ := word_start l
          obtain ⟨hspace, hbracket, hbrace, -⟩ := startsScalar_spec hc
          exact ⟨c, rest, htext, hspace, hbracket, hbrace⟩
      | numeral n _ =>
          obtain ⟨c, rest, htext, hc⟩ := numeral_start n
          obtain ⟨hspace, hbracket, hbrace, -⟩ := startsScalar_spec hc
          exact ⟨c, rest, htext, hspace, hbracket, hbrace⟩
      | str _ => exact ⟨'"', _, rfl, by decide, by decide, by decide⟩
      | arr _ => exact ⟨'[', _, rfl, by decide, by decide, by decide⟩
      | obj _ => exact ⟨'{', _, rfl, by decide, by decide, by decide⟩

theorem starts_reads (depth : Nat) : Starts (Reads num depth) ']' := by
  intro v text h
  obtain ⟨c, rest, htext, hspace, hbracket, -⟩ := reads_start h
  exact ⟨c, rest, htext, hspace, hbracket⟩

theorem starts_entry (depth : Nat) : Starts (Entry (Reads num depth)) '}' := by
  intro m text h
  cases h with
  | mk _ _ _ _ => exact ⟨'"', _, rfl, by decide, by decide⟩

/-- A scalar ends where no number goes on; every other value has an end of its own. -/
def Ends (v : Value F) (rest : List Char) : Prop := HeadNot goesOn rest ∨ ∀ a, v ≠ .scalar a

theorem scanValue_complete {depth fuel : Nat} {v : Value F} {text rest : List Char}
    (h : Reads num depth v text) (hfuel : text.length ≤ fuel) (hrest : Ends v rest) :
    scanValue num fuel (text ++ rest) = some (v, rest) := by
  induction depth generalizing fuel v text rest with
  | zero => exact absurd h id
  | succ depth ih =>
      obtain ⟨c, after, htext, -⟩ := reads_start h
      obtain ⟨fuel, rfl⟩ : ∃ k, fuel = k + 1 := Nat.exists_eq_succ_of_ne_zero (by
        rintro rfl
        simp [htext] at hfuel)
      have helement : CompleteFor (Reads num depth) (scanValue num fuel) fuel := by
        intro x taken hx hlength rest' hends
        exact ih hx hlength (Or.inl hends)
      cases h with
      | literal l =>
          obtain ⟨c, after, hword, hc⟩ := word_start l
          have hscan : scanScalar num (c :: (after ++ rest)) = some (num.literal l, rest) := by
            rw [← List.cons_append, ← hword]
            exact scanScalar_complete_literal l rest
          rw [hword, List.cons_append, scanValue_scalar hc, hscan]
          rfl
      | numeral n hdigits =>
          obtain ⟨c, after, hnumeral, hc⟩ := numeral_start n
          have hends : HeadNot goesOn rest := hrest.resolve_right fun hnot => hnot _ rfl
          have hscan : scanScalar num (c :: (after ++ rest)) = some (num.numeral n, rest) := by
            rw [← List.cons_append, ← hnumeral]
            exact scanScalar_complete_numeral hdigits hends
          rw [hnumeral, List.cons_append, scanValue_scalar hc, hscan]
          rfl
      | str hcontent =>
          simp only [List.cons_append, List.append_assoc, List.nil_append, scanValue, if_pos,
            scanString_complete hcontent, Option.map_some]
      | @arr items body hbody =>
          have hlength : body.length ≤ fuel := by
            simp only [List.length_cons, List.length_append] at hfuel
            omega
          have hread := scanBody_complete helement (starts_reads depth) (by decide) (by decide)
            (by decide) hbody rest hlength
          have hquote : '[' ≠ '"' := by decide
          simp only [List.cons_append, List.append_assoc, List.nil_append, scanValue,
            if_neg hquote, if_pos, hread, Option.map_some]
      | @obj members body hbody =>
          have hlength : body.length ≤ fuel := by
            simp only [List.length_cons, List.length_append] at hfuel
            omega
          have hentry : CompleteFor (Entry (Reads num depth)) (scanEntry (scanValue num fuel)) fuel :=
            scanEntry_complete helement (starts_reads depth)
          have hread := scanBody_complete hentry (starts_entry depth) (by decide) (by decide)
            (by decide) hbody rest hlength
          have hquote : '{' ≠ '"' := by decide
          have hbracket : '{' ≠ '[' := by decide
          simp only [List.cons_append, List.append_assoc, List.nil_append, scanValue,
            if_neg hquote, if_neg hbracket, if_pos, hread, Option.map_some]

end Complete

/-! ### Texts -/

section Texts

variable {F : Type} {num : Numbers F} {v : Value F} {text rest : List Char}

/-- The scanner reads the texts of the grammar, and no others. -/
theorem scan_sound (h : scan num text = some (v, rest)) :
    ∃ taken, text = taken ++ rest ∧ Text num v taken := by
  obtain ⟨taken, htext, hreads⟩ := scanValue_sound h
  exact ⟨taken, htext, _, hreads⟩

theorem scan_complete (h : Text num v text) (hrest : Ends v rest) :
    scan num (text ++ rest) = some (v, rest) := by
  obtain ⟨depth, hreads⟩ := h
  refine scanValue_complete hreads ?_ hrest
  rw [List.length_append]
  omega

theorem Text.start (h : Text num v text) :
    ∃ c rest, text = c :: rest ∧ isSpace c = false ∧ c ≠ ']' ∧ c ≠ '}' := by
  obtain ⟨depth, hreads⟩ := h
  exact reads_start hreads

/-- The text of an object. -/
theorem Text.obj_shape {members : List (List CodeUnit × Value F)}
    (h : Text num (.obj members) text) :
    ∃ depth body, text = '{' :: (body ++ ['}']) ∧ Body (Entry (Reads num depth)) members body := by
  obtain ⟨depth, hreads⟩ := h
  cases depth with
  | zero => exact absurd hreads id
  | succ depth =>
      cases hreads with
      | obj hbody => exact ⟨depth, _, rfl, hbody⟩

/-- The text of an object that is not empty starts with its first key. -/
theorem Text.obj_first {key : List CodeUnit} {x : Value F}
    {members : List (List CodeUnit × Value F)} (h : Text num (.obj ((key, x) :: members)) text) :
    ∃ w content w' tail, text = '{' :: (w ++ '"' :: (content ++ '"' :: (w' ++ ':' :: tail))) ∧
      Ws w ∧ Content key content ∧ Ws w' := by
  obtain ⟨depth, body, rfl, hbody⟩ := h.obj_shape
  have hentry : ∀ {first}, Entry (Reads num depth) (key, x) first → ∃ content w' tail,
      first = '"' :: (content ++ '"' :: (w' ++ ':' :: tail)) ∧ Content key content ∧ Ws w' := by
    intro first hfirst
    cases hfirst with
    | mk hkey hw' _ _ => exact ⟨_, _, _, rfl, hkey, hw'⟩
  cases hbody with
  | @full _ _ w after hw hseparated _ =>
      cases hseparated with
      | one hfirst =>
          obtain ⟨content, w', tail, rfl, hkey, hw'⟩ := hentry hfirst
          refine ⟨w, content, w', tail ++ (after ++ ['}']), ?_, hw, hkey, hw'⟩
          simp only [List.append_assoc, List.cons_append]
      | @more _ _ _ v v' others hfirst _ _ _ =>
          obtain ⟨content, w', tail, rfl, hkey, hw'⟩ := hentry hfirst
          refine ⟨w, content, w', tail ++ (v ++ ',' :: (v' ++ (others ++ (after ++ ['}'])))), ?_, hw,
            hkey, hw'⟩
          simp only [List.append_assoc, List.cons_append]

/-- The text of an object with one member. -/
theorem Text.obj_single {key : List CodeUnit} {x : Value F} (h : Text num (.obj [(key, x)]) text) :
    ∃ w content w₁ w₂ value w₃, text =
        '{' :: (w ++ '"' :: (content ++ '"' :: (w₁ ++ ':' :: (w₂ ++ (value ++ (w₃ ++ ['}'])))))) ∧
      Ws w ∧ Content key content ∧ Ws w₁ ∧ Ws w₂ ∧ Text num x value ∧ Ws w₃ := by
  obtain ⟨depth, body, rfl, hbody⟩ := h.obj_shape
  cases hbody with
  | @full _ _ w w₃ hw hseparated hw₃ =>
      cases hseparated with
      | one hentry =>
          cases hentry with
          | @mk _ _ content w₁ w₂ value hkey hw₁ hw₂ hvalue =>
              refine ⟨w, content, w₁, w₂, value, w₃, ?_, hw, hkey, hw₁, hw₂, ⟨depth, hvalue⟩, hw₃⟩
              simp only [List.append_assoc, List.cons_append]
      | more _ _ _ hrest => cases hrest

theorem Text.obj_empty (h : Text num (.obj []) text) : ∃ w, text = '{' :: (w ++ ['}']) ∧ Ws w := by
  obtain ⟨depth, body, rfl, hbody⟩ := h.obj_shape
  cases hbody with
  | empty hw => exact ⟨_, rfl, hw⟩
  | full _ hseparated _ => cases hseparated

/-- A value that starts with a brace is an object. -/
theorem Text.obj_of_brace (h : Text num v ('{' :: rest)) : ∃ members, v = .obj members := by
  obtain ⟨depth, hreads⟩ := h
  cases depth with
  | zero => exact absurd hreads id
  | succ depth =>
      generalize htext : '{' :: rest = text at hreads
      cases hreads with
      | literal l =>
          obtain ⟨c, after, hword, hc⟩ := word_start l
          rw [hword] at htext
          cases htext
          exact absurd hc (by decide)
      | numeral n _ =>
          obtain ⟨c, after, hnumeral, hc⟩ := numeral_start n
          rw [hnumeral] at htext
          cases htext
          exact absurd hc (by decide)
      | str _ => cases htext
      | arr _ => cases htext
      | obj _ => exact ⟨_, rfl⟩

theorem ends_obj (members : List (List CodeUnit × Value F)) (rest : List Char) :
    Ends (.obj members) rest := Or.inr fun a h => by cases h

/-- A text is the text of one value. -/
theorem Text.unique {v' : Value F} (h : Text num v text) (h' : Text num v' text) : v = v' := by
  have hnil : ∀ w : Value F, Ends w [] := fun w => Or.inl fun c hc => by cases hc
  have hscan := scan_complete h (hnil v)
  rw [scan_complete h' (hnil v')] at hscan
  exact (Prod.mk.inj (Option.some.inj hscan)).1.symm

/-- Of the texts of values with an end of their own, none goes on as another. -/
theorem Text.unique_start {v' : Value F} {text' rest' : List Char} (h : Text num v text)
    (h' : Text num v' text') (hv : Ends v rest) (hv' : Ends v' rest')
    (heq : text ++ rest = text' ++ rest') : v = v' ∧ text = text' := by
  have hscan := scan_complete h hv
  rw [heq, scan_complete h' hv'] at hscan
  obtain ⟨rfl, rfl⟩ := Prod.mk.inj (Option.some.inj hscan)
  exact ⟨rfl, List.append_cancel_right heq⟩

theorem loads_sound {o : Value F} (h : loads num text = some o) :
    ∃ w taken w' v, Ws w ∧ Ws w' ∧ Text num v taken ∧ text = w ++ (taken ++ w') ∧ o = v.dict := by
  unfold loads at h
  split at h
  · rename_i v rest hscan
    split at h
    · rename_i hskip
      cases h
      obtain ⟨taken, htaken, hv⟩ := scan_sound hscan
      obtain ⟨w, hw, htext⟩ := skip_sound text
      obtain ⟨w', hw', hrest⟩ := skip_sound rest
      rw [hskip, List.append_nil] at hrest
      refine ⟨w, taken, w', v, hw, hw', hv, ?_, rfl⟩
      rw [htext, htaken, hrest]
    · cases h
  · cases h

theorem loads_complete {w w' : List Char} (hw : Ws w) (h : Text num v text) (hw' : Ws w') :
    loads num (w ++ (text ++ w')) = some v.dict := by
  obtain ⟨depth, hreads⟩ := h
  obtain ⟨c, after, htext, hc, -⟩ := reads_start hreads
  have hskip : skip (w ++ (text ++ w')) = text ++ w' := by
    rw [htext]
    exact skip_append hw (headNot_cons hc _)
  have hend : skip w' = [] := by
    have hempty : skip (w' ++ []) = [] := skip_append hw' fun c hc => by cases hc
    rwa [List.append_nil] at hempty
  rw [loads, hskip, scan_complete ⟨depth, hreads⟩ (Or.inl (headNot_ws hw'))]
  exact if_pos hend

/-- What is written for the `dict` of a value that was read is read as that
`dict`. -/
theorem loads_write (h : Text num v text) : loads num (write num v.dict) = some v.dict := by
  obtain ⟨depth, hreads⟩ := h
  have hloads := loads_complete ws_nil ⟨depth, reads_dict hreads⟩ ws_nil
  rwa [List.nil_append, List.append_nil, Value.dict_of_distinct v.distinct_dict] at hloads

end Texts

end JsonText
