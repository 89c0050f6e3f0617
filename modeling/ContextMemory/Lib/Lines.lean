/-
Texts taken apart into lines.

A line ends at a line feed, with a carriage return before it or not; what is left behind the last
line feed is a line of its own, unless it is empty. Lines that were written each with a line feed
behind it are read back (`lines_written`).
-/

import Mathlib.Data.List.Basic

namespace Lines

/-- A line without the carriage return at its end. -/
def stripReturn (line : List Char) : List Char :=
  if line.getLast? = some '\r' then line.dropLast else line

/-- The lines of a text that stands behind the beginning of a line. -/
def linesFrom (begun : List Char) : List Char → List (List Char)
  | [] => if begun = [] then [] else [begun]
  | c :: rest =>
      if c = '\n' then stripReturn begun :: linesFrom [] rest else linesFrom (begun ++ [c]) rest

/-- The lines of a text. -/
def lines (text : List Char) : List (List Char) := linesFrom [] text

/-- A text that is one line: it holds no line feed and no carriage return. -/
def IsLine (text : List Char) : Prop := ∀ c ∈ text, c ≠ '\n' ∧ c ≠ '\r'

/-- Lines with a line feed behind each. -/
def written (parts : List (List Char)) : List Char := parts.flatMap fun part => part ++ ['\n']

theorem stripReturn_of_isLine {line : List Char} (h : IsLine line) : stripReturn line = line := by
  refine if_neg fun hlast => ?_
  exact (h '\r' (List.mem_of_getLast? hlast)).2 rfl

theorem linesFrom_append {part : List Char} (h : IsLine part) (begun rest : List Char) :
    linesFrom begun (part ++ '\n' :: rest) = stripReturn (begun ++ part) :: linesFrom [] rest := by
  induction part generalizing begun with
  | nil => simp [linesFrom]
  | cons c part ih =>
      obtain ⟨hc, hpart⟩ := List.forall_mem_cons.mp h
      rw [List.cons_append, linesFrom, if_neg hc.1, ih hpart, List.append_assoc,
        List.singleton_append]

/-- **Round trip.** -/
theorem lines_written {parts : List (List Char)} (h : ∀ part ∈ parts, IsLine part) :
    lines (written parts) = parts := by
  induction parts with
  | nil => rfl
  | cons part parts ih =>
      obtain ⟨hpart, hparts⟩ := List.forall_mem_cons.mp h
      calc lines (written (part :: parts))
          = linesFrom [] (part ++ '\n' :: written parts) := by simp [lines, written]
        _ = stripReturn part :: lines (written parts) := linesFrom_append hpart [] _
        _ = part :: parts := by rw [stripReturn_of_isLine hpart, ih hparts]

end Lines
