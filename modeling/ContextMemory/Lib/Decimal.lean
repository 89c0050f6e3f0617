/-
Decimal numerals, read and written.

A numeral is read digit by digit up to a limit, as a fixed-width unsigned integer is: an
optional `+`, then at least one digit, and no value on the way beyond the limit. It is written
without leading zeros, or padded with zeros to a width. Padded numerals of one width are ordered
as the numbers are (`padded_lt_padded`), so texts that are compared character by character keep
the order of the numbers in them.
-/

import Mathlib.Data.List.Lex
import Mathlib.Data.List.Basic
import Mathlib.Tactic.Ring
import Mathlib.Tactic.Linarith

namespace Decimal

/-! ### Reading -/

/-- Why a text is not a numeral. -/
inductive ParseError where
  | empty
  | invalidDigit
  | overflow
deriving DecidableEq, Repr

def ParseError.text : ParseError → String
  | .empty => "cannot parse integer from empty string"
  | .invalidDigit => "invalid digit found in string"
  | .overflow => "number too large to fit in target type"

/-- The digits one by one, the value so far carried along. -/
def readDigits (limit : Nat) : Nat → List Char → Except ParseError Nat
  | value, [] => .ok value
  | value, c :: cs =>
      if c.isDigit then
        if 10 * value + (c.toNat - '0'.toNat) ≤ limit then
          readDigits limit (10 * value + (c.toNat - '0'.toNat)) cs
        else .error .overflow
      else .error .invalidDigit

/-- The number that a text is read as. -/
def read (limit : Nat) : List Char → Except ParseError Nat
  | [] => .error .empty
  | ['+'] => .error .invalidDigit
  | '+' :: c :: cs => readDigits limit 0 (c :: cs)
  | c :: cs => readDigits limit 0 (c :: cs)

variable {limit value n : Nat} {text : List Char}

theorem le_ofDigitChars (text : List Char) (value : Nat) : value ≤ Nat.ofDigitChars 10 text value := by
  rw [Nat.ofDigitChars_eq_ofDigitChars_zero]
  calc value ≤ 10 ^ text.length * value := Nat.le_mul_of_pos_left _ (Nat.pow_pos (by omega))
    _ ≤ _ := Nat.le_add_right _ _

/-- What the digits are read as. -/
theorem readDigits_eq_ok_iff (hvalue : value ≤ limit) :
    readDigits limit value text = .ok n ↔
      (∀ c ∈ text, c.isDigit = true) ∧ n = Nat.ofDigitChars 10 text value ∧ n ≤ limit := by
  induction text generalizing value with
  | nil =>
      simp only [readDigits, Except.ok.injEq, List.not_mem_nil, false_imp_iff, implies_true,
        Nat.ofDigitChars_nil, true_and]
      constructor
      · rintro rfl
        exact ⟨rfl, hvalue⟩
      · rintro ⟨rfl, -⟩
        rfl
  | cons c cs ih =>
      rw [List.forall_mem_cons, Nat.ofDigitChars_cons]
      unfold readDigits
      by_cases hdigit : c.isDigit = true
      · rw [if_pos hdigit]
        by_cases hfits : 10 * value + (c.toNat - '0'.toNat) ≤ limit
        · rw [if_pos hfits, ih hfits]
          simp only [hdigit, true_and]
        · rw [if_neg hfits]
          simp only [reduceCtorEq, false_iff, not_and]
          rintro - rfl
          have hle := le_ofDigitChars cs (10 * value + (c.toNat - '0'.toNat))
          omega
      · rw [if_neg hdigit]
        simp [hdigit]

/-- What is read is within the limit. -/
theorem le_of_read (h : read limit text = .ok n) : n ≤ limit := by
  unfold read at h
  split at h
  · cases h
  · cases h
  · exact ((readDigits_eq_ok_iff (Nat.zero_le _)).mp h).2.2
  · exact ((readDigits_eq_ok_iff (Nat.zero_le _)).mp h).2.2

theorem isDigit_of_mem_digits {c : Char} (h : c ∈ Nat.toDigits 10 n) : c.isDigit = true :=
  Nat.isDigit_of_mem_toDigits (by omega) (by omega) h

/-- What begins with a digit is read digit by digit. -/
theorem read_of_isDigit (hne : text ≠ []) (h : ∀ c ∈ text, c.isDigit = true) :
    read limit text = readDigits limit 0 text := by
  cases text with
  | nil => exact absurd rfl hne
  | cons c cs =>
      have hplus : c ≠ '+' := by
        rintro rfl
        exact absurd (h '+' List.mem_cons_self) (by decide)
      unfold read
      split
      · cases ‹c :: cs = []›
      · exact absurd (List.cons.inj ‹_›).1 hplus
      · exact absurd (List.cons.inj ‹_›).1 hplus
      · rename_i heq
        rw [heq]

/-- **Round trip.** A number within the limit is read from its digits. -/
theorem read_digits (h : n ≤ limit) : read limit (Nat.toDigits 10 n) = .ok n := by
  rw [read_of_isDigit Nat.toDigits_ne_nil fun c => isDigit_of_mem_digits]
  exact (readDigits_eq_ok_iff (Nat.zero_le _)).mpr
    ⟨fun c => isDigit_of_mem_digits, Nat.ofDigitChars_ten_toDigits.symm, h⟩

/-! ### Writing to a width -/

/-- The digits of a number with zeros in front up to a width. -/
def padded (width n : Nat) : List Char :=
  List.replicate (width - (Nat.toDigits 10 n).length) '0' ++ Nat.toDigits 10 n

theorem isDigit_of_mem_padded {c : Char} {width : Nat} (h : c ∈ padded width n) :
    c.isDigit = true := by
  rcases List.mem_append.mp h with h | h
  · rw [(List.mem_replicate.mp h).2]
    rfl
  · exact isDigit_of_mem_digits h

theorem length_padded {width : Nat} (hwidth : 0 < width) (h : n < 10 ^ width) :
    (padded width n).length = width := by
  have hle := (Nat.length_toDigits_le_iff (by omega) hwidth).mpr h
  rw [padded, List.length_append, List.length_replicate]
  omega

theorem padded_ne_nil {width : Nat} : padded width n ≠ [] :=
  List.append_ne_nil_of_right_ne_nil _ Nat.toDigits_ne_nil

@[simp] theorem ofDigitChars_padded {width : Nat} : Nat.ofDigitChars 10 (padded width n) 0 = n := by
  rw [padded, Nat.ofDigitChars_append, Nat.ofDigitChars_replicate_zero, Nat.mul_zero,
    Nat.ofDigitChars_ten_toDigits]

/-- Numerals of one width are of one number. -/
theorem padded_inj {width m : Nat} : padded width m = padded width n ↔ m = n := by
  constructor
  · intro h
    calc m = Nat.ofDigitChars 10 (padded width m) 0 := ofDigitChars_padded.symm
      _ = n := by rw [h, ofDigitChars_padded]
  · intro h
    rw [h]

theorem read_padded {width : Nat} (h : n ≤ limit) : read limit (padded width n) = .ok n := by
  rw [read_of_isDigit padded_ne_nil fun c => isDigit_of_mem_padded]
  exact (readDigits_eq_ok_iff (Nat.zero_le _)).mpr
    ⟨fun c => isDigit_of_mem_padded, ofDigitChars_padded.symm, h⟩

/-! ### Order -/

/-- Of two texts that begin with as many characters, those characters are
compared first. -/
theorem append_lt_append_iff {front front' back back' : List Char}
    (h : front.length = front'.length) :
    front ++ back < front' ++ back' ↔ front < front' ∨ front = front' ∧ back < back' := by
  induction front generalizing front' with
  | nil =>
      rw [List.eq_nil_of_length_eq_zero h.symm]
      simp
  | cons c front ih =>
      obtain ⟨c', front', rfl⟩ := List.exists_cons_of_length_eq_add_one h.symm
      rw [List.cons_append, List.cons_append, List.cons_lt_cons_iff, List.cons_lt_cons_iff,
        ih (Nat.succ.inj h), List.cons.injEq]
      tauto

theorem padded_succ {width : Nat} (hwidth : 0 < width) (n : Nat) :
    padded (width + 1) n = padded width (n / 10) ++ [Nat.digitChar (n % 10)] := by
  rcases Nat.lt_or_ge n 10 with hlt | hge
  · obtain ⟨w, rfl⟩ := Nat.exists_eq_add_of_lt hwidth
    rw [padded, padded, Nat.toDigits_of_lt_base hlt, Nat.div_eq_of_lt hlt, Nat.mod_eq_of_lt hlt,
      Nat.toDigits_zero]
    simp [List.replicate_succ']
  · rw [padded, padded, Nat.toDigits_of_base_le (by decide) hge, List.length_append,
      List.length_singleton, Nat.add_sub_add_right, List.append_assoc]

theorem digitChar_lt_digitChar : ∀ m < 10, ∀ n < 10,
    (Nat.digitChar m < Nat.digitChar n ↔ m < n) ∧ (Nat.digitChar m = Nat.digitChar n ↔ m = n) := by
  decide

/-- Padded numerals of one width are ordered as the numbers are. -/
theorem padded_lt_padded {width m n : Nat} (hm : m < 10 ^ width) (hn : n < 10 ^ width) :
    padded width m < padded width n ↔ m < n := by
  induction width generalizing m n with
  | zero =>
      rw [Nat.pow_zero, Nat.lt_one_iff] at hm hn
      rw [hm, hn]
      simp
  | succ width ih =>
      have hlast := digitChar_lt_digitChar (m % 10) (Nat.mod_lt _ (by decide)) (n % 10)
        (Nat.mod_lt _ (by decide))
      rcases Nat.eq_zero_or_pos width with rfl | hwidth
      · rw [Nat.zero_add, Nat.pow_one] at hm hn
        rw [Nat.mod_eq_of_lt hm, Nat.mod_eq_of_lt hn] at hlast
        rw [padded, padded, Nat.toDigits_of_lt_base hm, Nat.toDigits_of_lt_base hn]
        simpa [List.cons_lt_cons_iff] using hlast.1
      · have hm' : m / 10 < 10 ^ width := by
          rw [Nat.pow_succ] at hm
          omega
        have hn' : n / 10 < 10 ^ width := by
          rw [Nat.pow_succ] at hn
          omega
        have hlength : (padded width (m / 10)).length = (padded width (n / 10)).length := by
          rw [length_padded hwidth hm', length_padded hwidth hn']
        rw [padded_succ hwidth, padded_succ hwidth, append_lt_append_iff hlength, ih hm' hn',
          padded_inj]
        simp only [List.cons_lt_cons_iff, hlast.1, List.not_lt_nil, and_false, or_false]
        omega

end Decimal
