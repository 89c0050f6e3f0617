/-
Lists and texts joined by a separator.

A joined list comes apart in one way if the separator occurs in neither of the first parts, or in
neither of the last parts. In general, two ways of taking it apart differ by a piece that moves
over the separator (`split_cases`).
-/

import Mathlib.Data.List.Basic

namespace Separator

variable {α : Type} {x : α} {a a' b b' : List α}

/-- Two ways of taking a joined list apart. -/
theorem split_cases (h : a ++ x :: b = a' ++ x :: b') :
    (a = a' ∧ b = b') ∨ (∃ s, a' = a ++ x :: s ∧ b = s ++ x :: b') ∨
      ∃ s, a = a' ++ x :: s ∧ b' = s ++ x :: b := by
  rcases List.append_eq_append_iff.mp h with ⟨s, hs, hrest⟩ | ⟨s, hs, hrest⟩
  · cases s with
    | nil => exact Or.inl ⟨by simpa using hs.symm, by simpa using hrest⟩
    | cons y s =>
        obtain ⟨rfl, rfl⟩ := List.cons.inj hrest
        exact Or.inr (Or.inl ⟨s, hs, rfl⟩)
  · cases s with
    | nil => exact Or.inl ⟨by simpa using hs, by simpa using hrest.symm⟩
    | cons y s =>
        obtain ⟨rfl, rfl⟩ := List.cons.inj hrest
        exact Or.inr (Or.inr ⟨s, hs, rfl⟩)

theorem split_first (ha : x ∉ a) (ha' : x ∉ a') (h : a ++ x :: b = a' ++ x :: b') :
    a = a' ∧ b = b' := by
  rcases split_cases h with h | ⟨s, rfl, -⟩ | ⟨s, rfl, -⟩
  · exact h
  · exact absurd (by simp) ha'
  · exact absurd (by simp) ha

theorem split_last (hb : x ∉ b) (hb' : x ∉ b') (h : a ++ x :: b = a' ++ x :: b') :
    a = a' ∧ b = b' := by
  rcases split_cases h with h | ⟨s, -, rfl⟩ | ⟨s, -, rfl⟩
  · exact h
  · exact absurd (by simp) hb
  · exact absurd (by simp) hb'

/-- What is in neither the separator nor a part is not in the joined list. -/
theorem not_mem_intercalate {separator : List α} {texts : List (List α)} (hseparator : x ∉ separator)
    (h : ∀ text ∈ texts, x ∉ text) : x ∉ separator.intercalate texts := by
  induction texts with
  | nil => exact List.not_mem_nil
  | cons text texts ih =>
      obtain ⟨htext, htexts⟩ := List.forall_mem_cons.mp h
      by_cases hne : texts = []
      · rw [hne, List.intercalate_singleton]
        exact htext
      · rw [List.intercalate_cons_of_ne_nil hne, List.mem_append, List.mem_append]
        rintro ((hmem | hmem) | hmem)
        · exact htext hmem
        · exact hseparator hmem
        · exact ih htexts hmem

/-! ### Texts -/

theorem toList_joined (a b : String) : (a ++ ":" ++ b).toList = a.toList ++ ':' :: b.toList := by
  simp

/-- The digits of a number hold no colon. -/
theorem colon_not_mem_digits (n : Nat) : ':' ∉ (toString n).toList := by
  intro h
  rw [Nat.toString_eq_repr, Nat.toList_repr] at h
  exact absurd (Nat.isDigit_of_mem_toDigits (by decide) (by decide) h) (by decide)

theorem toString_injective {n m : Nat} (h : toString n = toString m) : n = m := by
  have hdigits := congrArg String.toList h
  rw [Nat.toString_eq_repr, Nat.toString_eq_repr, Nat.toList_repr, Nat.toList_repr] at hdigits
  rw [← Nat.ofDigitChars_ten_toDigits (n := n), hdigits, Nat.ofDigitChars_ten_toDigits]

/-- A text before a number. -/
theorem text_number {a a' : String} {n n' : Nat}
    (h : a ++ ":" ++ toString n = a' ++ ":" ++ toString n') : a = a' ∧ n = n' := by
  have hlist := congrArg String.toList h
  rw [toList_joined, toList_joined] at hlist
  obtain ⟨ha, hn⟩ := split_last (colon_not_mem_digits n) (colon_not_mem_digits n') hlist
  exact ⟨String.toList_inj.mp ha, toString_injective (String.toList_inj.mp hn)⟩

/-- A number before a text. -/
theorem number_text {a a' : String} {n n' : Nat}
    (h : toString n ++ ":" ++ a = toString n' ++ ":" ++ a') : n = n' ∧ a = a' := by
  have hlist := congrArg String.toList h
  rw [toList_joined, toList_joined] at hlist
  obtain ⟨hn, ha⟩ := split_first (colon_not_mem_digits n) (colon_not_mem_digits n') hlist
  exact ⟨toString_injective (String.toList_inj.mp hn), String.toList_inj.mp ha⟩

/-- A text that ends with its only colon. -/
def IsHead (head : String) : Prop := ∃ tag, ':' ∉ tag ∧ head.toList = tag ++ [':']

/-- A head before any text. -/
theorem head_text {head head' a a' : String} (hhead : IsHead head) (hhead' : IsHead head')
    (h : head ++ a = head' ++ a') : head = head' ∧ a = a' := by
  obtain ⟨tag, hcolon, htag⟩ := hhead
  obtain ⟨tag', hcolon', htag'⟩ := hhead'
  have hlist := congrArg String.toList h
  rw [String.toList_append, String.toList_append, htag, htag', List.append_assoc,
    List.append_assoc] at hlist
  obtain ⟨hsame, hrest⟩ := split_first hcolon hcolon' hlist
  exact ⟨String.toList_inj.mp (by rw [htag, htag', hsame]), String.toList_inj.mp hrest⟩

/-- A piece of the second text moved over to the first. -/
def Moved (a b a' b' : String) : Prop := ∃ s, a' = a ++ ":" ++ s ∧ b = s ++ ":" ++ b'

theorem Moved.ne {a b a' b' : String} (h : Moved a b a' b') : b ≠ b' := by
  obtain ⟨s, -, rfl⟩ := h
  intro heq
  have hlength := congrArg (fun t : String => t.toList.length) heq
  simp only [toList_joined, List.length_append, List.length_cons] at hlength
  omega

/-- Two texts joined are two others joined exactly if they are the same or a
piece moved. -/
theorem text_text {a a' b b' : String} : a ++ ":" ++ b = a' ++ ":" ++ b' ↔
    (a = a' ∧ b = b') ∨ Moved a b a' b' ∨ Moved a' b' a b := by
  have hpiece : ∀ {u v : String} {w : List Char}, u.toList = v.toList ++ ':' :: w →
      u = v ++ ":" ++ String.ofList w := by
    intro u v w huv
    apply String.toList_inj.mp
    rw [toList_joined, String.toList_ofList, huv]
  have hpiece' : ∀ {u v : String} {w : List Char}, u.toList = w ++ ':' :: v.toList →
      u = String.ofList w ++ ":" ++ v := by
    intro u v w huv
    apply String.toList_inj.mp
    rw [toList_joined, String.toList_ofList, huv]
  constructor
  · intro h
    have hlist := congrArg String.toList h
    rw [toList_joined, toList_joined] at hlist
    rcases split_cases hlist with ⟨ha, hb⟩ | ⟨s, ha, hb⟩ | ⟨s, ha, hb⟩
    · exact Or.inl ⟨String.toList_inj.mp ha, String.toList_inj.mp hb⟩
    · exact Or.inr (Or.inl ⟨String.ofList s, hpiece ha, hpiece' hb⟩)
    · exact Or.inr (Or.inr ⟨String.ofList s, hpiece ha, hpiece' hb⟩)
  · rintro (⟨rfl, rfl⟩ | ⟨s, rfl, rfl⟩ | ⟨s, rfl, rfl⟩)
    · rfl
    · simp only [String.append_assoc]
    · simp only [String.append_assoc]

/-- A text before a common one. -/
theorem text_common {a a' b : String} (h : a ++ ":" ++ b = a' ++ ":" ++ b) : a = a' := by
  have hlist := congrArg String.toList h
  rw [toList_joined, toList_joined] at hlist
  exact String.toList_inj.mp (List.append_left_injective _ hlist)

end Separator
