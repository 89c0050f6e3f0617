/-
Objects in Markdown fences.

`_recover_json_object` drops the first line of a fenced answer, and cuts the rest into lines where
`str.splitlines` does. An object comes through if the opening fence has a line of its own and
no string holds one of the line breaks of Unicode; where the closing fence stands does not
matter (`fence_transparent_iff`).
-/

import ContextMemory.Guarantees.Truncation
import ContextMemory.Lib.JsonSpace

namespace ContextMemory

open JsonText

/-! ### Lines -/

/-- A text with a newline for each line break. -/
def withNewlines : List Char → List Char
  | [] => []
  | '\r' :: '\n' :: rest => '\n' :: withNewlines rest
  | c :: rest => (if isLineBreak c then '\n' else c) :: withNewlines rest

/-- A text does not end in a line break. -/
def Unbroken (text : List Char) : Prop := ∀ c ∈ text.getLast?, isLineBreak c = false

theorem Unbroken.tail {c : Char} {text : List Char} (h : Unbroken (c :: text)) : Unbroken text := by
  cases text with
  | nil => exact fun c hc => by cases hc
  | cons d text => exact h

theorem Unbroken.ne_nil {c : Char} {text : List Char} (h : Unbroken (c :: text))
    (hc : isLineBreak c = true) : text ≠ [] := by
  rintro rfl
  rw [h c rfl] at hc
  cases hc

theorem splitLines_ne_nil {text : List Char} (h : text ≠ []) : splitLines text ≠ [] := by
  fun_cases splitLines text with
  | case1 => exact absurd rfl h
  | case2 => exact List.cons_ne_nil _ _
  | case3 => exact List.cons_ne_nil _ _
  | case4 => exact List.cons_ne_nil _ _
  | case5 => exact List.cons_ne_nil _ _

/-- The lines of a text, joined again. -/
theorem intercalate_splitLines {text : List Char} (h : Unbroken text) :
    ['\n'].intercalate (splitLines text) = withNewlines text := by
  fun_induction splitLines text with
  | case1 => rfl
  | case2 rest ih =>
      have hne := splitLines_ne_nil (h.tail.ne_nil (by decide))
      rw [List.intercalate_cons_of_ne_nil hne, ih h.tail.tail, withNewlines]
      rfl
  | case3 c rest hcr hbreak ih =>
      have hne := splitLines_ne_nil (h.ne_nil hbreak)
      rw [List.intercalate_cons_of_ne_nil hne, ih h.tail, withNewlines, if_pos hbreak]
      · rfl
      · exact hcr
  | case4 c rest hcr hbreak hlines ih =>
      have hrest : rest = [] := by
        by_contra hne
        exact splitLines_ne_nil hne hlines
      subst hrest
      rw [withNewlines, if_neg hbreak]
      · rfl
      · exact hcr
  | case5 c rest hcr hbreak line lines hlines ih =>
      rw [List.intercalate_cons_cons_left, ← hlines, ih h.tail, withNewlines, if_neg hbreak]
      exact hcr

/-- No line holds a line break. -/
theorem mem_line {text line : List Char} (hline : line ∈ splitLines text) :
    ∀ c ∈ line, isLineBreak c = false := by
  fun_induction splitLines text generalizing line with
  | case1 => exact absurd hline List.not_mem_nil
  | case2 rest ih =>
      rcases List.mem_cons.mp hline with rfl | hline
      · exact fun c hc => absurd hc List.not_mem_nil
      · exact ih hline
  | case3 c rest hcr hbreak ih =>
      rcases List.mem_cons.mp hline with rfl | hline
      · exact fun c hc => absurd hc List.not_mem_nil
      · exact ih hline
  | case4 c rest hcr hbreak hlines ih =>
      rw [List.mem_singleton.mp hline]
      exact List.forall_mem_singleton.mpr (Bool.eq_false_iff.mpr hbreak)
  | case5 c rest hcr hbreak first lines hlines ih =>
      rcases List.mem_cons.mp hline with rfl | hline
      · refine List.forall_mem_cons.mpr ⟨Bool.eq_false_iff.mpr hbreak, ih ?_⟩
        rw [hlines]
        exact List.mem_cons_self
      · refine ih ?_
        rw [hlines]
        exact List.mem_cons_of_mem _ hline

theorem withNewlines_of_free {text : List Char} (h : ∀ c ∈ text, isLineBreak c = false)
    (rest : List Char) : withNewlines (text ++ rest) = text ++ withNewlines rest := by
  induction text with
  | nil => rfl
  | cons c text ih =>
      obtain ⟨hc, htext⟩ := List.forall_mem_cons.mp h
      rw [List.cons_append, withNewlines, ih htext, if_neg (by simp [hc])]
      · rfl
      · rintro rest' rfl
        exact absurd hc (by decide)

theorem withNewlines_append {text rest : List Char}
    (h : text.getLast? = some '\r' → rest.head? ≠ some '\n') :
    withNewlines (text ++ rest) = withNewlines text ++ withNewlines rest := by
  fun_induction withNewlines text with
  | case1 => rfl
  | case2 text ih =>
      have htext : text.getLast? = some '\r' → rest.head? ≠ some '\n' := by
        intro hlast
        cases text with
        | nil => cases hlast
        | cons d text => exact h hlast
      rw [List.cons_append, List.cons_append, withNewlines, ih htext]
      rfl
  | case3 c text hcr ih =>
      have htext : text.getLast? = some '\r' → rest.head? ≠ some '\n' := by
        intro hlast
        cases text with
        | nil => cases hlast
        | cons d text => exact h hlast
      rw [List.cons_append, withNewlines, ih htext]
      · rfl
      · rintro rest' rfl hrest
        cases text with
        | nil => exact h rfl (by rw [List.nil_append] at hrest; rw [hrest]; rfl)
        | cons d text =>
            obtain ⟨rfl, -⟩ := List.cons.inj hrest
            exact hcr text rfl rfl

/-- The line breaks that are no white space of JSON and may stand in its strings. -/
def wideBreak (c : Char) : Bool := c.toNat = 0x85 || c.toNat = 0x2028 || c.toNat = 0x2029

/-! ### Phases -/

/-- What is known of the text of a value: no control characters in its strings. -/
def textRules : Rules where
  opens _ := True
  closes _ := True
  inner c := 32 ≤ c.toNat

/-- Nothing but the phases. -/
def freeRules : Rules where
  opens _ := True
  closes _ := True
  inner _ := True

theorem next_lineBreak {phase : Phase} {c : Char} (hc : isLineBreak c = true) :
    phase.next c = phase.next '\n' ∧ c ≠ '"' := by
  have hne : c ≠ '"' ∧ c ≠ '\\' := by
    constructor <;> (rintro rfl; exact absurd hc (by decide))
  refine ⟨?_, hne.1⟩
  cases phase with
  | outside => exact if_neg hne.1
  | inside =>
      rw [Phase.next, if_neg hne.1, if_neg hne.2]
      rfl
  | escaped => rfl

/-- Newlines for line breaks leave the phases and the quotes. -/
theorem phases_withNewlines (phase : Phase) (text : List Char) :
    phase.after (withNewlines text) = phase.after text ∧
      phase.quotes (withNewlines text) = phase.quotes text := by
  have hafter : ∀ (phase : Phase) (c : Char) (text : List Char),
      phase.after (c :: text) = (phase.next c).after text := fun _ _ _ => rfl
  fun_induction withNewlines text generalizing phase with
  | case1 => exact ⟨rfl, rfl⟩
  | case2 text ih =>
      have hnext : (phase.next '\r').next '\n' = phase.next '\n' := by cases phase <;> rfl
      obtain ⟨hsame, hquotes⟩ := ih (phase.next '\n')
      rw [hafter, hafter, hafter, hnext]
      refine ⟨hsame, ?_⟩
      rw [Phase.quotes, Phase.quotes, Phase.quotes, hnext, hquotes]
      simp
  | case3 c text hcr ih =>
      split
      · rename_i hbreak
        obtain ⟨hnext, hquote⟩ := @next_lineBreak phase c hbreak
        obtain ⟨hsame, hquotes⟩ := ih (phase.next c)
        rw [hafter, hafter, ← hnext]
        refine ⟨hsame, ?_⟩
        rw [Phase.quotes, Phase.quotes, ← hnext, hquotes]
        simp [hquote]
      · obtain ⟨hsame, hquotes⟩ := ih (phase.next c)
        rw [hafter, hafter, Phase.quotes, Phase.quotes, hquotes]
        exact ⟨hsame, rfl⟩

theorem follows_withNewlines {phase : Phase} {text : List Char} (h : Follows textRules phase text) :
    Follows freeRules phase (withNewlines text) := by
  fun_induction withNewlines text generalizing phase with
  | case1 => trivial
  | case2 text ih =>
      have hnext : (phase.next '\r').next '\n' = phase.next '\n' := by cases phase <;> rfl
      have hrest := ih (hnext ▸ h.next.next)
      cases phase with
      | outside => exact ⟨by decide, fun _ => trivial, hrest⟩
      | inside => exact ⟨trivial, fun _ => trivial, hrest⟩
      | escaped => exact absurd h.1 (by decide)
  | case3 c text hcr ih =>
      have hrest := ih h.next
      split
      · rename_i hbreak
        rw [(next_lineBreak hbreak).1] at hrest
        cases phase with
        | outside => exact ⟨by decide, fun _ => trivial, hrest⟩
        | inside => exact ⟨trivial, fun _ => trivial, hrest⟩
        | escaped =>
            obtain ⟨hlow, hhigh, -, -⟩ := h
            simp [isLineBreak] at hbreak
            omega
      · cases phase with
        | outside => exact ⟨h.1, fun _ => trivial, hrest⟩
        | inside => exact ⟨trivial, fun _ => trivial, hrest⟩
        | escaped => exact ⟨h.1, h.2.1, h.2.2.1, hrest⟩

/-- The strings that are read from outside or inside, whatever they show. -/
theorem any_reading {rules : Rules} {phase : Phase} (hphase : phase = .outside ∨ phase = .inside) :
    Reading rules phase (fun _ => True) fun _ => True := by
  rcases hphase with rfl | rfl
  · exact reading_outside (fun _ _ => trivial) fun _ _ _ => trivial
  · exact reading_inside (fun _ _ => trivial) fun _ _ => trivial

theorem isNewline_of_space {c : Char} (hspace : isSpace c = true) (hbreak : isLineBreak c = true) :
    isNewline c = true := by
  simp only [isSpace, Bool.or_eq_true, decide_eq_true_iff] at hspace
  rcases hspace with ((rfl | rfl) | rfl) | rfl
  · exact absurd hbreak (by decide)
  · exact absurd hbreak (by decide)
  · rfl
  · rfl

section Texts

variable {F : Type} {num : Numbers F} {v : Value F} {text : List Char}

theorem textRules_follows (h : Text num v text) : Follows textRules .outside text := by
  have hadmits : Admits textRules (fun _ => True) fun _ => True := by
    exact ⟨fun _ _ _ => trivial, fun _ _ _ => trivial, fun _ => trivial, fun _ hc => hc⟩
  obtain ⟨depth, hreads⟩ := h
  have hempty : AfterValue [] := ⟨[], [], rfl, ws_nil, fun c hc => by cases hc⟩
  have hfollows :=
    follows_append_text hadmits hreads (Value.all_of (fun _ => trivial) (fun _ => trivial) v)
      hempty trivial
  rwa [List.append_nil] at hfollows

/-- What stands at a place of a text. -/
theorem textRules_at (h : Text num v text) {before rest : List Char} {c : Char}
    (htext : text = before ++ c :: rest) :
    Follows textRules (Phase.outside.after before) (c :: rest) := by
  have hfollows := textRules_follows h
  rw [htext] at hfollows
  exact hfollows.after

/-- A wide line break stands in a string. -/
theorem wideBreak_inside (h : Text num v text) {before rest : List Char} {c : Char}
    (htext : text = before ++ c :: rest) (hc : wideBreak c = true) :
    Phase.outside.after before = .inside := by
  have hwide : 128 ≤ c.toNat := by
    simp only [wideBreak, Bool.or_eq_true, decide_eq_true_iff] at hc
    omega
  have hplace := textRules_at h htext
  cases hphase : Phase.outside.after before with
  | outside =>
      rw [hphase] at hplace
      have hbare := hplace.1
      simp only [bare, Bool.and_eq_true, decide_eq_true_iff] at hbare
      omega
  | inside => rfl
  | escaped =>
      rw [hphase] at hplace
      have hshort := hplace.2.1
      omega

/-- The other line breaks of a text are newlines. -/
theorem isNewline_of_text (h : Text num v text) {c : Char} (hc : c ∈ text)
    (hbreak : isLineBreak c = true) (hwide : wideBreak c = false) : isNewline c = true := by
  obtain ⟨before, rest, htext⟩ := List.append_of_mem hc
  have hplace := textRules_at h htext
  have hchar : 32 ≤ c.toNat ∨ isSpace c = true := by
    cases hphase : Phase.outside.after before with
    | outside =>
        rw [hphase] at hplace
        have hbare := hplace.1
        simp only [bare, Bool.and_eq_true, Bool.or_eq_true, decide_eq_true_iff] at hbare
        exact hbare.1.1.2
    | inside =>
        rw [hphase] at hplace
        exact Or.inl hplace.1
    | escaped =>
        rw [hphase] at hplace
        exact Or.inl hplace.1
  rcases hchar with hlow | hspace
  · simp only [isLineBreak, wideBreak, Bool.or_eq_true, Bool.and_eq_true, Bool.or_eq_false_iff,
      decide_eq_true_iff, decide_eq_false_iff_not] at hbreak hwide
    omega
  · exact isNewline_of_space hspace hbreak

theorem respaced_withNewlines {text : List Char}
    (h : ∀ c ∈ text, isLineBreak c = true → isNewline c = true) :
    Respaced text (withNewlines text) := by
  have hnewline : Ws ['\n'] := by unfold Ws; decide
  fun_induction withNewlines text with
  | case1 => exact Respaced.nil
  | case2 text ih =>
      obtain ⟨-, -, hrest⟩ : _ ∧ _ ∧ _ := by simpa using h
      exact Respaced.space (w := []) rfl ws_nil (Respaced.space rfl hnewline (ih hrest))
  | case3 c text hcr ih =>
      obtain ⟨hc, hrest⟩ := List.forall_mem_cons.mp h
      split
      · rename_i hbreak
        exact Respaced.space (hc hbreak) hnewline (ih hrest)
      · rename_i hbreak
        refine Respaced.keep ?_ (ih hrest)
        rw [← Bool.not_eq_true]
        intro hnew
        simp only [isNewline, Bool.or_eq_true, decide_eq_true_iff] at hnew
        rcases hnew with rfl | rfl <;> exact hbreak (by decide)

/-- Without wide line breaks, newlines for line breaks leave the value. -/
theorem text_withNewlines (h : Text num v text) (hwide : ∀ c ∈ text, wideBreak c = false) :
    Text num v (withNewlines text) := by
  have hspaced : Respaced text (withNewlines text) :=
    respaced_withNewlines fun c hc hbreak => isNewline_of_text h hc hbreak (hwide c hc)
  obtain ⟨depth, hreads⟩ := h
  exact ⟨depth, reads_respaced hreads hspaced⟩

end Texts

/-! ### The lines of a fence -/

theorem splitLines_append {part rest line : List Char} {lines : List (List Char)}
    (hpart : ∀ c ∈ part, isLineBreak c = false) (h : splitLines rest = line :: lines) :
    splitLines (part ++ rest) = (part ++ line) :: lines := by
  induction part with
  | nil => exact h
  | cons c part ih =>
      obtain ⟨hc, hrest⟩ := List.forall_mem_cons.mp hpart
      rw [List.cons_append, splitLines, ih hrest, if_neg (by simp [hc])]
      · rfl
      · rintro rest' rfl
        exact absurd hc (by decide)

theorem isFence_iff {line : List Char} : isFence line = true ↔ ['`', '`', '`'] <+: line := by
  rw [isFence, List.isPrefixOf_iff_prefix]
  rfl

/-- The lines before a closing fence. -/
def keptLines (lines : List (List Char)) : List (List Char) :=
  if (lines.getLast?.map isFence).getD false then lines.dropLast else lines

/-- What a closing fence takes from a text. -/
def Dropped (kept dropped : List Char) : Prop :=
  dropped = [] ∨ (kept = [] ∧ ∃ more, dropped = '`' :: more) ∨
    ∃ more, dropped = '\n' :: '`' :: more

theorem exists_dropped (lines : List (List Char)) :
    ∃ dropped, ['\n'].intercalate lines = ['\n'].intercalate (keptLines lines) ++ dropped ∧
      Dropped (['\n'].intercalate (keptLines lines)) dropped := by
  unfold keptLines
  split
  · rename_i hlast
    rcases List.eq_nil_or_concat lines with rfl | ⟨kept, last, rfl⟩
    · exact ⟨[], rfl, Or.inl rfl⟩
    · rw [List.concat_eq_append] at hlast ⊢
      rw [List.getLast?_concat] at hlast
      obtain ⟨more, hmore⟩ := isFence_iff.mp hlast
      rw [List.dropLast_concat]
      cases kept with
      | nil =>
          refine ⟨last, ?_, Or.inr (Or.inl ⟨rfl, _, hmore.symm⟩)⟩
          simp
      | cons first kept =>
          refine ⟨'\n' :: last, ?_, Or.inr (Or.inr ⟨_, congrArg _ hmore.symm⟩)⟩
          have hjoin : ∀ (first : List Char) (kept : List (List Char)),
              ['\n'].intercalate (first :: kept ++ [last]) =
                ['\n'].intercalate (first :: kept) ++ '\n' :: last := by
            intro first kept
            induction kept generalizing first with
            | nil => simp
            | cons second kept ih =>
                rw [List.cons_append, List.cons_append, List.intercalate_cons_cons,
                  ← List.cons_append, ih second]
                simp
          exact hjoin first kept
  · exact ⟨[], (List.append_nil _).symm, Or.inl rfl⟩

/-- The text between the fences. -/
theorem stripFences_of_lines {text : String} {opening : List Char} {lines : List (List Char)}
    (hlines : splitLines text.toList = opening :: lines) (htext : isFence text.toList = true)
    (hopening : isFence opening = true) :
    stripFences text = strip (String.ofList (['\n'].intercalate (keptLines lines))) := by
  have hjoin : "\n".intercalate ((keptLines lines).map String.ofList) =
      String.ofList (['\n'].intercalate (keptLines lines)) := by
    rw [← String.toList_inj, String.toList_intercalate, String.toList_ofList, List.map_map]
    simp [Function.comp_def]
  have hlast : (some opening).map isFence = some true := congrArg some hopening
  rw [stripFences, if_pos htext, hlines]
  simp only [List.head?_cons, hlast, Option.getD_some, if_true, List.tail_cons]
  exact congrArg strip hjoin

/-! ### Fenced objects -/

/-- An object in a Markdown fence: a language tag, and white space on both sides of the object. -/
def fenced (tag gap s gap' : String) : String := "```" ++ tag ++ gap ++ s ++ gap' ++ "```"

/-- The rest of the text after the tag. -/
def afterTag (gap s gap' : String) : List Char :=
  gap.toList ++ (s.toList ++ (gap'.toList ++ ['`', '`', '`']))

/-- The same with newlines for its line breaks. -/
def fencedLines (gap s gap' : String) : List Char :=
  withNewlines gap.toList ++
    (withNewlines s.toList ++ (withNewlines gap'.toList ++ ['`', '`', '`']))

theorem toList_fenced (tag gap s gap' : String) :
    (fenced tag gap s gap').toList = ['`', '`', '`'] ++ tag.toList ++ afterTag gap s gap' := by
  have hfence : "```".toList = ['`', '`', '`'] := rfl
  simp only [fenced, afterTag, String.toList_append, hfence, List.append_assoc]

theorem getLast?_afterTag (gap s gap' : String) : (afterTag gap s gap').getLast? = some '`' := by
  have hfence : afterTag gap s gap' =
      gap.toList ++ (s.toList ++ (gap'.toList ++ ['`', '`'])) ++ ['`'] := by
    simp only [afterTag, List.append_assoc, List.cons_append, List.nil_append]
  rw [hfence, List.getLast?_concat]

theorem strip_fenced (tag gap s gap' : String) :
    strip (fenced tag gap s gap') = fenced tag gap s gap' := by
  have hlast : ('`' :: (['`', '`'] ++ tag.toList ++ afterTag gap s gap')).getLast? = some '`' := by
    rw [← List.cons_append, List.getLast?_append, getLast?_afterTag]
    rfl
  have hraw : (fenced tag gap s gap').toList =
      [] ++ ('`' :: (['`', '`'] ++ tag.toList ++ afterTag gap s gap') ++ []) := by
    rw [toList_fenced, List.append_nil]
    rfl
  have hstrip := toList_strip hraw (fun _ h => absurd h List.not_mem_nil) (by decide) hlast (by decide)
  rw [← String.toList_inj, hstrip, hraw]
  rfl

section Fenced

variable {F : Type} {num : Numbers F} {members : List (List CodeUnit × Value F)}
  {tag gap s gap' : String}

theorem withNewlines_afterTag (hs : Text num (.obj members) s.toList) :
    withNewlines (afterTag gap s gap') = fencedLines gap s gap' := by
  have hfence : withNewlines ['`', '`', '`'] = ['`', '`', '`'] := rfl
  obtain ⟨depth, body, hbody, -⟩ := hs.obj_shape
  have hlast : s.toList.getLast? = some '}' := getLast?_text (w := []) hs
  rw [afterTag, fencedLines, withNewlines_append, withNewlines_append, withNewlines_append, hfence]
  · exact fun _ h => absurd h (by decide)
  · intro hcr
    rw [hlast] at hcr
    exact absurd hcr (by decide)
  · intro _ h
    rw [hbody] at h
    exact absurd (Option.some.inj h) (by decide)

/-- What is kept of the text between the fences. -/
theorem exists_kept (htag : ∀ c ∈ tag.toList, isLineBreak c = false)
    (hs : Text num (.obj members) s.toList) :
    ∃ line kept dropped, '\n' ∉ line ∧
      stripFences (strip (fenced tag gap s gap')) = strip (String.ofList kept) ∧
      Dropped kept dropped ∧
      ((kept = [] ∧ fencedLines gap s gap' = line) ∨
        fencedLines gap s gap' = line ++ '\n' :: (kept ++ dropped)) := by
  have hbroken : Unbroken (afterTag gap s gap') := by
    intro c hc
    rw [getLast?_afterTag] at hc
    cases hc
    rfl
  have hne : afterTag gap s gap' ≠ [] := by
    intro hnil
    have hlast := getLast?_afterTag gap s gap'
    rw [hnil] at hlast
    cases hlast
  obtain ⟨line, lines, hlines⟩ := List.exists_cons_of_ne_nil (splitLines_ne_nil hne)
  have hjoin := intercalate_splitLines hbroken
  rw [hlines, withNewlines_afterTag hs] at hjoin
  have hline : '\n' ∉ line := by
    intro hmem
    have hfree := mem_line (hlines ▸ List.mem_cons_self) '\n' hmem
    exact absurd hfree (by decide)
  have hopening : ∀ c ∈ ['`', '`', '`'] ++ tag.toList, isLineBreak c = false := by
    rw [List.forall_mem_append]
    exact ⟨by decide, htag⟩
  have hall := splitLines_append hopening hlines
  rw [← toList_fenced] at hall
  have hfence : isFence (fenced tag gap s gap').toList = true := by
    rw [isFence_iff, toList_fenced, List.append_assoc]
    exact List.prefix_append _ _
  have hfirst : isFence (['`', '`', '`'] ++ tag.toList ++ line) = true := by
    rw [isFence_iff, List.append_assoc]
    exact List.prefix_append _ _
  obtain ⟨dropped, hkept, hdropped⟩ := exists_dropped lines
  refine ⟨line, _, dropped, hline, ?_, hdropped, ?_⟩
  · rw [strip_fenced]
    exact stripFences_of_lines hall hfence hfirst
  · cases lines with
    | nil =>
        rw [List.intercalate_singleton] at hjoin
        exact Or.inl ⟨rfl, hjoin.symm⟩
    | cons second lines =>
        rw [List.intercalate_cons_of_ne_nil (List.cons_ne_nil _ _), hkept] at hjoin
        refine Or.inr ?_
        rw [← hjoin, List.append_assoc, List.singleton_append]

/-! ### With a line for the opening fence -/

theorem ws_withNewlines {w : List Char} (hw : Ws w) : Ws (withNewlines w) :=
  (respaced_withNewlines fun c hc hbreak => isNewline_of_space (hw c hc) hbreak).ws hw

theorem mem_withNewlines {text : List Char} {c : Char} (hc : c ∈ text)
    (hbreak : isLineBreak c = true) : '\n' ∈ withNewlines text := by
  fun_induction withNewlines text with
  | case1 => exact absurd hc List.not_mem_nil
  | case2 => exact List.mem_cons_self
  | case3 d text _ ih =>
      rcases List.mem_cons.mp hc with rfl | hc
      · rw [if_pos hbreak]
        exact List.mem_cons_self
      · exact List.mem_cons_of_mem _ (ih hc)

/-- No line of the text of an object starts with a backquote. -/
theorem no_fence_inside {text before rest : List Char} (h : Text num (.obj members) text) :
    text ≠ before ++ '\n' :: '`' :: rest := by
  intro hsplit
  have hplace := textRules_at h hsplit
  cases hphase : Phase.outside.after before with
  | outside =>
      rw [hphase] at hplace
      exact absurd hplace.next.1 (by decide)
  | inside =>
      rw [hphase] at hplace
      have hcontrol : 32 ≤ '\n'.toNat := hplace.1
      exact absurd hcontrol (by decide)
  | escaped =>
      rw [hphase] at hplace
      exact absurd hplace.1 (by decide)

/-- The closing fence, if it has a line of its own, comes after the object. -/
theorem kept_of_object {w object rest kept dropped : List Char} (hw : Ws w)
    (hobject : Text num (.obj members) object) (h : kept ++ dropped = w ++ (object ++ rest))
    (hdropped : Dropped kept dropped) : ∃ tail, kept = w ++ (object ++ tail) := by
  obtain ⟨depth, body, hbody, -⟩ := hobject.obj_shape
  rcases hdropped with rfl | ⟨rfl, more, rfl⟩ | ⟨more, rfl⟩
  · exact ⟨rest, by rw [← h, List.append_nil]⟩
  · rw [hbody] at h
    have hsame := eq_of_ws_append ws_nil hw (headNot_cons (by decide) more)
      (headNot_cons (by decide) _) h
    exact absurd (List.cons.inj hsame).1 (by decide)
  · rw [← List.append_assoc] at h
    rcases List.append_eq_append_iff.mp h with ⟨after, hafter, hmore⟩ | ⟨tail, rfl, -⟩
    · cases after with
      | nil => exact ⟨[], by rw [List.append_nil, hafter, List.append_nil]⟩
      | cons c after =>
          obtain ⟨rfl, hnext⟩ := List.cons.inj hmore
          cases after with
          | nil =>
              have hlast : (w ++ object).getLast? = some '}' := getLast?_text hobject
              rw [hafter, List.getLast?_concat] at hlast
              exact absurd hlast (by decide)
          | cons d after =>
              obtain ⟨rfl, -⟩ := List.cons.inj hnext
              have hline : w ++ object = (kept ++ ['\n']) ++ '`' :: after := by
                rw [hafter, List.append_assoc]
                rfl
              obtain ⟨middle, hkept, hsplit⟩ :=
                past_of_not_mem (not_mem_of_ws hw (by decide)) hline
              rcases List.eq_nil_or_concat middle with rfl | ⟨front, last, rfl⟩
              · rw [hbody] at hsplit
                exact absurd (List.cons.inj hsplit).1 (by decide)
              · rw [List.concat_eq_append, ← List.append_assoc] at hkept
                obtain ⟨-, hlast⟩ := List.append_inj' hkept rfl
                obtain ⟨rfl, -⟩ := List.cons.inj hlast
                rw [List.concat_eq_append, List.append_assoc] at hsplit
                exact absurd hsplit (no_fence_inside hobject)
    · exact ⟨tail, List.append_assoc _ _ _⟩

/-- An object comes through a fence with a line of its own, if no wide line
break cuts it. -/
theorem parses_fenced (htag : ∀ c ∈ tag.toList, isLineBreak c = false) (hgap : Ws gap.toList)
    (hs : Text num (.obj members) s.toList) (hbreak : ∃ c ∈ gap.toList, isLineBreak c = true)
    (hwide : ∀ c ∈ s.toList, wideBreak c = false) :
    Parses num (recoverJsonObject (jsonModule num) (fenced tag gap s gap'))
      (Value.obj members).dict := by
  obtain ⟨line, kept, dropped, hline, htext, hdropped, hlines⟩ :=
    @exists_kept F num members tag gap s gap' htag hs
  have hobject := text_withNewlines hs hwide
  have hnewline : '\n' ∈ withNewlines gap.toList := by
    obtain ⟨c, hc, hbreak⟩ := hbreak
    exact mem_withNewlines hc hbreak
  -- the first line ends in the white space before the object
  obtain ⟨w, hw, hkept⟩ : ∃ w, Ws w ∧ kept ++ dropped =
      w ++ (withNewlines s.toList ++ (withNewlines gap'.toList ++ ['`', '`', '`'])) := by
    rcases hlines with ⟨-, hlines⟩ | hlines
    · rw [← hlines] at hline
      exact absurd (List.mem_append_left _ hnewline) hline
    · rcases List.append_eq_append_iff.mp hlines with ⟨w, rfl, -⟩ | ⟨w, hgapLines, hrest⟩
      · exact absurd (List.mem_append_left _ hnewline) hline
      · cases w with
        | nil =>
            rw [hgapLines, List.append_nil] at hnewline
            exact absurd hnewline hline
        | cons c w =>
            obtain ⟨-, hkept⟩ := List.cons.inj hrest
            have hspace := ws_withNewlines hgap
            rw [hgapLines] at hspace
            have hw := (List.forall_mem_append.mp hspace).2
            exact ⟨w, (List.forall_mem_cons.mp hw).2, hkept⟩
  obtain ⟨tail, rfl⟩ := kept_of_object hw hobject hkept hdropped
  obtain ⟨depth, body, hbody, -⟩ := hobject.obj_shape
  have hlast : ('{' :: (body ++ ['}'])).getLast? = some '}' := by
    rw [← hbody]
    exact getLast?_text (w := []) hobject
  have hraw : (String.ofList (w ++ (withNewlines s.toList ++ tail))).toList =
      w ++ ('{' :: (body ++ ['}']) ++ tail) := by
    rw [String.toList_ofList, hbody]
  have hstart := toList_strip hraw (fun c hc => pySpace_of_isSpace (hw c hc)) (by decide) hlast
    (by decide)
  rw [← hbody] at hstart
  exact parses_recover_of_start htext hobject hstart

/-! ### Objects in the lines of an object -/

/-- The quotes of a text are those of its strings. -/
theorem quotes_withNewlines {v : Value F} {text : List Char} (h : Text num v text) :
    Phase.outside.quotes (withNewlines text) = 2 * v.strings := by
  have hfollows := textRules_follows h
  rw [← List.append_nil text] at hfollows
  obtain ⟨depth, hreads⟩ := h
  rw [(phases_withNewlines _ text).2]
  exact (reads_passes (any_reading (Or.inl rfl)) hreads [] hfollows).2.1

/-- Before another brace of an object, there is a quote. -/
theorem quotes_before_brace {text middle rest : List Char} (h : Text num (.obj members) text)
    (hlines : withNewlines text = '{' :: (middle ++ '{' :: rest)) :
    0 < Phase.outside.quotes ('{' :: middle) := by
  cases members with
  | nil =>
      obtain ⟨w, rfl, hw⟩ := h.obj_empty
      have hend : withNewlines ('{' :: (w ++ ['}'])) = '{' :: (withNewlines w ++ ['}']) := by
        have hbrace : withNewlines (w ++ ['}']) = withNewlines w ++ ['}'] :=
          @withNewlines_append w ['}'] fun _ => by decide
        rw [← hbrace]
        rfl
      rw [hend] at hlines
      have hmem : '{' ∈ withNewlines w ++ ['}'] := by
        rw [(List.cons.inj hlines).2]
        simp
      rcases List.mem_append.mp hmem with hspace | hend
      · exact absurd hspace (not_mem_of_ws (ws_withNewlines hw) (by decide))
      · exact absurd (List.mem_singleton.mp hend) (by decide)
  | cons m members =>
      obtain ⟨w, content, w', tail, rfl, hw, -, -⟩ := h.obj_first
      generalize content ++ '"' :: (w' ++ ':' :: tail) = strings at hlines
      have hfirst : withNewlines ('{' :: (w ++ '"' :: strings)) =
          '{' :: (withNewlines w ++ ['"'] ++ withNewlines strings) := by
        have hquote : withNewlines (w ++ '"' :: strings) =
            withNewlines w ++ '"' :: withNewlines strings :=
          @withNewlines_append w ('"' :: strings) fun _ h =>
            absurd (Option.some.inj h) (by decide)
        rw [List.append_assoc, List.singleton_append, ← hquote]
        rfl
      rw [hfirst] at hlines
      have hfree : '{' ∉ withNewlines w ++ ['"'] := by
        rw [List.mem_append, not_or]
        exact ⟨not_mem_of_ws (ws_withNewlines hw) (by decide), by decide⟩
      obtain ⟨key, rfl, -⟩ := past_of_not_mem hfree (List.cons.inj hlines).2
      have hplain : Plain ('{' :: withNewlines w) :=
        (Bare.cons (by decide) (bare_ws (ws_withNewlines hw))).plain
      obtain ⟨hafter, hquotes⟩ := hplain.stays (show Phase.outside ≠ .escaped by decide)
      have hsplit : '{' :: (withNewlines w ++ ['"'] ++ key) =
          ('{' :: withNewlines w) ++ '"' :: key := by
        rw [List.append_assoc]
        rfl
      rw [hsplit, Phase.quotes_append, hafter, hquotes, Phase.quotes, if_pos ⟨rfl, by decide⟩]
      omega

/-- An object with all the strings of the text starts the text, and no wide line
break was cut. -/
theorem object_of_lines {text before object rest : List Char}
    {members' : List (List CodeUnit × Value F)} (h : Text num (.obj members) text)
    (hobject : Text num (.obj members') object)
    (hlines : withNewlines text = before ++ (object ++ rest))
    (hstrings : (Value.obj members).strings ≤ (Value.obj members').strings) :
    before = [] ∧ ∀ c ∈ text, wideBreak c = false := by
  have hplace := follows_withNewlines (textRules_follows h)
  rw [hlines] at hplace
  have hplace := hplace.after
  have hphase : Phase.outside.after before = .outside ∨ Phase.outside.after before = .inside := by
    obtain ⟨depth, body, hbody, -⟩ := hobject.obj_shape
    rw [hbody] at hplace
    exact hplace.brace
  obtain ⟨depth, hreads⟩ := id hobject
  obtain ⟨hafter, hquotes, -⟩ := reads_passes (any_reading hphase) hreads rest hplace
  have hcount := quotes_withNewlines h
  rw [hlines, Phase.quotes_append, Phase.quotes_append, hafter, hquotes] at hcount
  have hbefore : before = [] := by
    cases before with
    | nil => rfl
    | cons c middle =>
        obtain ⟨_, body, hbody, -⟩ := hobject.obj_shape
        obtain ⟨_, outer, houter, -⟩ := h.obj_shape
        have hbrace : withNewlines text = '{' :: withNewlines (outer ++ ['}']) := by
          rw [houter]
          rfl
        have hc : c = '{' := by
          rw [hbrace] at hlines
          exact (List.cons.inj hlines).1.symm
        subst hc
        rw [hbody] at hlines
        have hpositive := quotes_before_brace h hlines
        omega
  refine ⟨hbefore, fun c hc => ?_⟩
  subst hbefore
  rw [← Bool.not_eq_true]
  intro hwide
  obtain ⟨front, back, rfl⟩ := List.append_of_mem hc
  have hinside := wideBreak_inside h rfl hwide
  have hcut : withNewlines (front ++ c :: back) =
      withNewlines front ++ '\n' :: withNewlines back := by
    have hne : c ≠ '\n' ∧ c ≠ '\r' := by
      constructor <;> (rintro rfl; exact absurd hwide (by decide))
    have hbreak : isLineBreak c = true := by
      simp only [wideBreak, isLineBreak, Bool.or_eq_true, decide_eq_true_iff] at hwide ⊢
      rcases hwide with (h | h) | h <;> simp [h]
    rw [@withNewlines_append front (c :: back) fun _ h => hne.1 (Option.some.inj h),
      withNewlines, if_pos hbreak]
    exact fun _ h => absurd h hne.2
  rw [← (phases_withNewlines _ front).1] at hinside
  rw [hcut, List.nil_append] at hlines
  have hclosed : Phase.outside.after object = .outside := hafter
  rcases List.append_eq_append_iff.mp hlines with ⟨more, hmore, hrest⟩ | ⟨more, hmore, hrest⟩
  · cases more with
    | nil =>
        rw [hmore, List.append_nil, hinside] at hclosed
        cases hclosed
    | cons d more =>
        -- the cut is in the object, where no newline is in a string
        obtain ⟨rfl, -⟩ := List.cons.inj hrest
        have hplace := textRules_at hobject hmore
        rw [hinside] at hplace
        have hcontrol : 32 ≤ '\n'.toNat := hplace.1
        exact absurd hcontrol (by decide)
  · -- the cut is after the object, where no quote is left
    have hnone : Phase.outside.quotes rest = 0 := by
      have hstart : Phase.outside.after [] = .outside := rfl
      rw [hstart] at hcount
      omega
    rw [hrest, Phase.quotes_append] at hnone
    have hopen : Phase.outside.quotes more = 0 := by omega
    rw [hmore, Phase.after_append, hclosed, Phase.after_outside_of_quotes hopen] at hinside
    cases hinside

/-- An object that the answer for a fence parses to was read in the text between
the fences. -/
theorem kept_of_parses {kept : List Char}
    (htext : stripFences (strip (fenced tag gap s gap')) = strip (String.ofList kept))
    (h : Parses num (recoverJsonObject (jsonModule num) (fenced tag gap s gap')) (.obj members)) :
    ∃ before object rest members', kept = before ++ (object ++ rest) ∧
      Text num (.obj members') object ∧ (Value.obj members) = (Value.obj members').dict := by
  have hinside : (strip (String.ofList kept)).toList <:+: kept := by
    have hstrip := strip_infix (String.ofList kept)
    rwa [String.toList_ofList] at hstrip
  have hfound : ∃ before object rest members',
      (strip (String.ofList kept)).toList = before ++ (object ++ rest) ∧
        Text num (.obj members') object ∧ (Value.obj members) = (Value.obj members').dict := by
    rcases (parses_recover_iff htext).mp h with hloads | ⟨-, hfirst | ⟨-, hraw⟩⟩
    · obtain ⟨w, object, w', v, -, -, hobject, hsplit, hdict⟩ := loads_sound hloads
      obtain ⟨members', rfl⟩ := Value.obj_of_dict hdict.symm
      exact ⟨w, object, w', members', hsplit, hobject, hdict⟩
    · exact firstObject_sound hfirst
    · -- the answer itself starts with a backquote
      obtain ⟨w, object, w', v, hw, -, hobject, hsplit, hdict⟩ := loads_sound hraw
      obtain ⟨members', rfl⟩ := Value.obj_of_dict hdict.symm
      obtain ⟨depth, body, rfl, -⟩ := hobject.obj_shape
      rw [toList_fenced] at hsplit
      have hsame := eq_of_ws_append ws_nil hw (headNot_cons (by decide) _)
        (headNot_cons (by decide) _) hsplit
      exact absurd (List.cons.inj hsame).1 (by decide)
  obtain ⟨front, back, hkept⟩ := hinside
  obtain ⟨before, object, rest, members', hsplit, hobject, hdict⟩ := hfound
  refine ⟨front ++ before, object, rest ++ back, members', ?_, hobject, hdict⟩
  rw [← hkept, hsplit]
  simp only [List.append_assoc]

/-- An object that is read between the fences stands in the lines of the object
in the fence. -/
theorem lines_of_kept {line before object rest dropped : List Char}
    {members' : List (List CodeUnit × Value F)} (hgap : Ws gap.toList)
    (hobject : Text num (.obj members') object)
    (hlines : fencedLines gap s gap' = line ++ '\n' :: (before ++ (object ++ rest) ++ dropped))
    (hgap' : Ws gap'.toList) :
    ∃ middle after, line ++ '\n' :: before = withNewlines gap.toList ++ middle ∧
      withNewlines s.toList = middle ++ (object ++ after) := by
  obtain ⟨depth, body, hbody, -⟩ := hobject.obj_shape
  have hsplit : withNewlines gap.toList ++
      (withNewlines s.toList ++ (withNewlines gap'.toList ++ ['`', '`', '`'])) =
      (line ++ '\n' :: before) ++ '{' :: (body ++ ['}'] ++ (rest ++ dropped)) := by
    rw [fencedLines, hbody] at hlines
    rw [hlines]
    simp only [List.append_assoc, List.cons_append]
  obtain ⟨middle, hbefore, hinner⟩ :=
    past_of_not_mem (not_mem_of_ws (ws_withNewlines hgap) (by decide)) hsplit
  refine ⟨middle, ?_⟩
  have hend : '}' ∉ withNewlines gap'.toList ++ ['`', '`', '`'] := by
    rw [List.mem_append, not_or]
    exact ⟨not_mem_of_ws (ws_withNewlines hgap') (by decide), by decide⟩
  have hlast : (middle ++ object).getLast? = some '}' := getLast?_text hobject
  have hwhole : withNewlines s.toList ++ (withNewlines gap'.toList ++ ['`', '`', '`']) =
      (middle ++ object) ++ (rest ++ dropped) := by
    rw [hinner, hbody]
    simp only [List.append_assoc, List.cons_append]
  rcases List.append_eq_append_iff.mp hwhole with ⟨extra, hextra, hmore⟩ | ⟨after, hafter, -⟩
  · rcases List.eq_nil_or_concat extra with rfl | ⟨front, last, rfl⟩
    · refine ⟨[], hbefore, ?_⟩
      rw [List.append_nil, hextra, List.append_nil]
    · rw [List.concat_eq_append] at hextra hmore
      rw [hextra, ← List.append_assoc, List.getLast?_concat] at hlast
      obtain rfl := Option.some.inj hlast
      rw [hmore] at hend
      exact absurd (by simp) hend
  · exact ⟨after, hbefore, by rw [hafter, List.append_assoc]⟩

theorem survives_of_parses (htag : ∀ c ∈ tag.toList, isLineBreak c = false)
    (hgap : Ws gap.toList) (hgap' : Ws gap'.toList) (hs : Text num (.obj members) s.toList)
    (h : Parses num (recoverJsonObject (jsonModule num) (fenced tag gap s gap')) (.obj members)) :
    (∃ c ∈ gap.toList, isLineBreak c = true) ∧ ∀ c ∈ s.toList, wideBreak c = false := by
  obtain ⟨line, kept, dropped, hline, htext, -, hlines⟩ :=
    @exists_kept F num members tag gap s gap' htag hs
  obtain ⟨before, object, rest, members', rfl, hobject, hdict⟩ := kept_of_parses htext h
  have hstrings : (Value.obj members).strings ≤ (Value.obj members').strings :=
    hdict ▸ Value.strings_dict_le _
  rcases hlines with ⟨hempty, -⟩ | hlines
  · obtain ⟨depth, body, rfl, -⟩ := hobject.obj_shape
    simp at hempty
  · obtain ⟨middle, after, hbefore, hinner⟩ := lines_of_kept hgap hobject hlines hgap'
    obtain ⟨rfl, hwide⟩ := object_of_lines hs hobject hinner hstrings
    refine ⟨?_, hwide⟩
    by_contra hnone
    have hfree : ∀ c ∈ gap.toList, isLineBreak c = false := by simpa using hnone
    have hsame : withNewlines gap.toList = gap.toList := by
      have hsame := withNewlines_of_free hfree []
      rwa [List.append_nil, withNewlines, List.append_nil] at hsame
    have hmem : '\n' ∈ gap.toList := by
      rw [List.append_nil, hsame] at hbefore
      rw [← hbefore]
      simp
    exact absurd (hfree '\n' hmem) (by decide)

/-- An object comes through a fence where the opening fence has a line of its
own and no string of the object holds a wide line break; if no key is repeated,
then only there. The first line is dropped with the fence, and `splitlines`
breaks at characters that a JSON string may hold. -/
theorem fence_transparent_iff (htag : ∀ c ∈ tag.toList, isLineBreak c = false)
    (hgap : Ws gap.toList) (hgap' : Ws gap'.toList) (hs : Text num (.obj members) s.toList) :
    ((∃ c ∈ gap.toList, isLineBreak c = true) ∧ (∀ c ∈ s.toList, wideBreak c = false) →
      Parses num (recoverJsonObject (jsonModule num) (fenced tag gap s gap'))
        (Value.obj members).dict) ∧
    ((Value.obj members).Distinct →
      (Parses num (recoverJsonObject (jsonModule num) (fenced tag gap s gap')) (.obj members) ↔
        (∃ c ∈ gap.toList, isLineBreak c = true) ∧ ∀ c ∈ s.toList, wideBreak c = false)) := by
  have hparses : (∃ c ∈ gap.toList, isLineBreak c = true) ∧ (∀ c ∈ s.toList, wideBreak c = false) →
      Parses num (recoverJsonObject (jsonModule num) (fenced tag gap s gap'))
        (Value.obj members).dict := by
    rintro ⟨hbreak, hwide⟩
    exact parses_fenced htag hgap hs hbreak hwide
  refine ⟨hparses, fun hdistinct => ⟨survives_of_parses htag hgap hgap' hs, fun h => ?_⟩⟩
  have hdict := hparses h
  rwa [Value.dict_of_distinct hdistinct] at hdict

end Fenced

/-! ### Two objects in fences -/

/-- `ok`, as a key. -/
def okKey : List CodeUnit := "ok".toList.flatMap utf16

def okText : String := String.ofList ['{', '"', 'o', 'k', '"', ':', 't', 'r', 'u', 'e', '}']

/-- An object with a line separator in a string. -/
def separatorText : String := String.ofList ['{', '"', 'o', 'k', '"', ':', '"', '\u2028', '"', '}']

theorem okText_text : Text oneFloat (.obj [(okKey, .scalar (.bool true))]) okText.toList := by
  rw [okText, String.toList_ofList]
  exact text_of_scan rfl

theorem separatorText_text : Text oneFloat (.obj [(okKey, .str [0x2028])]) separatorText.toList := by
  rw [separatorText, String.toList_ofList]
  exact text_of_scan rfl

/-- A small object in a tagged fence with a line of its own. It comes through,
and both sides of the equivalence hold. -/
theorem fence_transparent_iff_ok :
    Parses oneFloat (recoverJsonObject (jsonModule oneFloat) (fenced "json" "\n" okText ""))
      (.obj [(okKey, .scalar (.bool true))]) := by
  have hdistinct : (Value.obj [(okKey, .scalar (.bool true))] : Value Unit).Distinct := by
    rw [Value.distinct_obj]
    refine ⟨by decide, List.forall_mem_singleton.mpr ?_⟩
    rw [Value.Distinct, Algebra.fold_scalar]
    trivial
  refine ((fence_transparent_iff (by decide) (by unfold Ws; decide) (by unfold Ws; decide)
    okText_text).2 hdistinct).mpr ⟨⟨'\n', by decide, rfl⟩, ?_⟩
  rw [okText, String.toList_ofList]
  decide

/-- An object is lost in a fence on its own line, and an object with a line
separator between fences with lines of their own. -/
theorem fences_cut_objects :
    (Text oneFloat (.obj [(okKey, .scalar (.bool true))]) okText.toList ∧
      ¬Parses oneFloat (recoverJsonObject (jsonModule oneFloat) (fenced "json" " " okText ""))
        (.obj [(okKey, .scalar (.bool true))])) ∧
    Text oneFloat (.obj [(okKey, .str [0x2028])]) separatorText.toList ∧
      ¬Parses oneFloat (recoverJsonObject (jsonModule oneFloat)
        (fenced "json" "\n" separatorText "\n")) (.obj [(okKey, .str [0x2028])]) := by
  refine ⟨⟨okText_text, fun h => ?_⟩, separatorText_text, fun h => ?_⟩
  · obtain ⟨⟨c, hc, hbreak⟩, -⟩ :=
      survives_of_parses (by decide) (by unfold Ws; decide) (by unfold Ws; decide) okText_text h
    have hgap : " ".toList = [' '] := rfl
    rw [hgap, List.mem_singleton] at hc
    subst hc
    exact absurd hbreak (by decide)
  · obtain ⟨-, hwide⟩ :=
      survives_of_parses (by decide) (by unfold Ws; decide) (by unfold Ws; decide)
        separatorText_text h
    have hmem : '\u2028' ∈ separatorText.toList := by
      rw [separatorText, String.toList_ofList]
      decide
    exact absurd (hwide _ hmem) (by decide)

end ContextMemory
