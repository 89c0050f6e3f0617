/-
Lists ranked by an order that may hold both ways.

`mergeSort` is stable: what is in front of what is decided by the order, and among equals by the
place in the list (`InFront`). So the place of a member is the number of those in front of it
(`idxOf_mergeSort`), and the first one is in front of all others (`inFront_of_head`).
-/

import Mathlib.Data.List.Nodup
import Mathlib.Data.List.Sublists

namespace Ranked

variable {α : Type}

/-- `a` comes before `b` when `xs` is ranked. -/
def InFront (le : α → α → Bool) (xs : List α) (a b : α) : Prop :=
  le a b = true ∧ (le b a = true → [a, b].Sublist xs)

instance [DecidableEq α] (le : α → α → Bool) (xs : List α) (a b : α) :
    Decidable (InFront le xs a b) :=
  inferInstanceAs (Decidable (_ ∧ _))

/-- How many are in front of `x`. -/
def place [DecidableEq α] (le : α → α → Bool) (xs : List α) (x : α) : Nat :=
  (xs.filter fun y => y ≠ x ∧ InFront le xs y x).length

/-! ### Order in a list -/

/-- Of two members, one comes before the other. -/
theorem pair_sublist_total {a b : α} {xs : List α} (ha : a ∈ xs) (hb : b ∈ xs) (hne : a ≠ b) :
    [a, b].Sublist xs ∨ [b, a].Sublist xs := by
  induction xs with
  | nil => cases ha
  | cons x xs ih =>
      rcases List.mem_cons.mp ha with rfl | ha'
      · rcases List.mem_cons.mp hb with rfl | hb'
        · exact absurd rfl hne
        · exact Or.inl ((List.singleton_sublist.mpr hb').cons_cons a)
      · rcases List.mem_cons.mp hb with rfl | hb'
        · exact Or.inr ((List.singleton_sublist.mpr ha').cons_cons b)
        · rcases ih ha' hb' with h | h
          · exact Or.inl (h.cons x)
          · exact Or.inr (h.cons x)

/-- Without duplicates not both come first. -/
theorem pair_sublist_asymm {a b : α} {xs : List α} (hnd : xs.Nodup) (h : [a, b].Sublist xs) :
    ¬[b, a].Sublist xs := by
  induction xs with
  | nil => cases h
  | cons x xs ih =>
      obtain ⟨hnot, hnd⟩ := List.nodup_cons.mp hnd
      intro h'
      cases h with
      | cons _ h =>
          cases h' with
          | cons _ h' => exact ih hnd h h'
          | cons_cons _ h' => exact hnot (h.subset (by simp))
      | cons_cons _ h =>
          cases h' with
          | cons _ h' => exact hnot (h'.subset (by simp))
          | cons_cons _ h' => exact hnot (List.singleton_sublist.mp h)

theorem pair_sublist_middle {a x : α} {before after : List α} (h : a ∈ before) :
    [a, x].Sublist (before ++ x :: after) := by
  have hpair : ([a] ++ [x]).Sublist (before ++ x :: after) :=
    (List.singleton_sublist.mpr h).append (List.singleton_sublist.mpr List.mem_cons_self)
  exact hpair

/-- Who comes before a member of a first part is in it. -/
theorem mem_take_of_pair {a b : α} {xs : List α} (hnd : xs.Nodup) (h : [a, b].Sublist xs) {n : Nat}
    (hb : b ∈ xs.take n) : a ∈ xs.take n := by
  by_contra ha
  have hsplit : xs.take n ++ xs.drop n = xs := List.take_append_drop n xs
  have hmem : a ∈ xs.take n ++ xs.drop n := by
    rw [hsplit]
    exact h.subset List.mem_cons_self
  have hdrop : a ∈ xs.drop n := (List.mem_append.mp hmem).resolve_left ha
  have hback : ([b] ++ [a]).Sublist (xs.take n ++ xs.drop n) :=
    (List.singleton_sublist.mpr hb).append (List.singleton_sublist.mpr hdrop)
  rw [hsplit] at hback
  exact pair_sublist_asymm hnd h hback

theorem idxOf_lt_of_pair [DecidableEq α] {a b : α} {xs : List α} (hnd : xs.Nodup)
    (h : [a, b].Sublist xs) : xs.idxOf a < xs.idxOf b := by
  obtain ⟨before, after, rfl⟩ := List.append_of_mem (h.subset (List.mem_cons_of_mem _ List.mem_cons_self))
  obtain ⟨-, -, hdisjoint⟩ := List.nodup_append.mp hnd
  have hb : b ∉ before := fun hmem => hdisjoint b hmem b List.mem_cons_self rfl
  have ha : a ∈ before := by
    have htake : a ∈ (before ++ b :: after).take (before.length + 1) :=
      mem_take_of_pair hnd h (by simp [List.take_append])
    rw [List.take_append, List.take_of_length_le (Nat.le_succ _), Nat.add_sub_cancel_left,
      List.take_one, List.head?_cons, Option.toList_some] at htake
    rcases List.mem_append.mp htake with htake | htake
    · exact htake
    · rw [List.mem_singleton] at htake
      subst htake
      exact absurd h (pair_sublist_asymm hnd h)
  rw [List.idxOf_append_of_mem ha, List.idxOf_append_of_notMem hb]
  exact Nat.lt_of_lt_of_le (List.idxOf_lt_length_of_mem ha) (Nat.le_add_right _ _)

theorem idxOf_middle [DecidableEq α] {x : α} {before after : List α} (h : x ∉ before) :
    (before ++ x :: after).idxOf x = before.length := by
  rw [List.idxOf_append_of_notMem h, List.idxOf_cons_self, Nat.add_zero]

/-! ### Order after ranking -/

section Sorted

variable {le : α → α → Bool} {xs : List α}

/-- Without duplicates, not both. -/
theorem InFront.asymm (hnd : xs.Nodup) {a b : α} (h : InFront le xs a b) : ¬InFront le xs b a :=
  fun h' => pair_sublist_asymm hnd (h.2 h'.1) (h'.2 h.1)

/-- Among the members of a part, the others do not matter. -/
theorem inFront_filter {p : α → Bool} {a b : α} (ha : p a = true) (hb : p b = true) :
    InFront le (xs.filter p) a b ↔ InFront le xs a b := by
  have hpair : [a, b].Sublist (xs.filter p) ↔ [a, b].Sublist xs := by
    constructor
    · exact fun h => h.trans List.filter_sublist
    · intro h
      have hfiltered := h.filter p
      rwa [List.filter_cons_of_pos ha, List.filter_cons_of_pos hb, List.filter_nil] at hfiltered
  rw [InFront, InFront, hpair]

/-- A part that holds whatever is not behind `x` gives it the same place. -/
theorem place_filter [DecidableEq α] {p : α → Bool} {x : α}
    (hp : ∀ y, le y x = true → p y = true) (hx : p x = true) :
    place le (xs.filter p) x = place le xs x := by
  unfold place
  rw [List.filter_filter]
  refine congrArg List.length (List.filter_congr fun y _ => ?_)
  by_cases hy : p y = true
  · rw [hy, Bool.and_true, decide_eq_decide, inFront_filter hy hx]
  · have hback : ¬InFront le xs y x := fun h => hy (hp y h.1)
    rw [Bool.eq_false_iff.mpr hy, Bool.and_false, eq_comm, decide_eq_false_iff_not]
    exact fun h => hback h.2

section Total

variable (htrans : ∀ a b c, le a b = true → le b c = true → le a c = true)
  (htotal : ∀ a b, (le a b || le b a) = true)

include htrans htotal

/-- **Ranking.** What comes first is what is in front. -/
theorem pair_sublist_mergeSort_iff (hnd : xs.Nodup) {a b : α} (ha : a ∈ xs) (hb : b ∈ xs)
    (hne : a ≠ b) : [a, b].Sublist (xs.mergeSort le) ↔ InFront le xs a b := by
  have hsorted := List.pairwise_mergeSort htrans htotal xs
  have hperm := List.mergeSort_perm xs le
  have hnd' : (xs.mergeSort le).Nodup := hperm.nodup_iff.mpr hnd
  constructor
  · intro h
    have hle : le a b = true := List.pairwise_iff_forall_sublist.mp hsorted h
    refine ⟨hle, fun hback => ?_⟩
    rcases pair_sublist_total ha hb hne with hfirst | hfirst
    · exact hfirst
    · exact absurd (List.pair_sublist_mergeSort htrans htotal hback hfirst)
        (pair_sublist_asymm hnd' h)
  · rintro ⟨hle, hback⟩
    by_cases hboth : le b a = true
    · exact List.pair_sublist_mergeSort htrans htotal hle (hback hboth)
    · rcases pair_sublist_total (hperm.mem_iff.mpr ha) (hperm.mem_iff.mpr hb) hne with h | h
      · exact h
      · exact absurd (List.pairwise_iff_forall_sublist.mp hsorted h) hboth

/-- The first one is in front of all others. -/
theorem inFront_of_head (hnd : xs.Nodup) {best : α} {rest : List α}
    (h : xs.mergeSort le = best :: rest) {x : α} (hx : x ∈ xs) (hne : best ≠ x) :
    InFront le xs best x := by
  have hmem : ∀ {y}, y ∈ best :: rest → y ∈ xs := fun hy => List.mem_mergeSort.mp (h ▸ hy)
  have hx' : x ∈ best :: rest := h ▸ List.mem_mergeSort.mpr hx
  rw [← pair_sublist_mergeSort_iff htrans htotal hnd (hmem List.mem_cons_self) hx hne, h]
  rcases List.mem_cons.mp hx' with rfl | hrest
  · exact absurd rfl hne
  · exact (List.singleton_sublist.mpr hrest).cons_cons best

/-- The first one has a property exactly if one that has it is in front of all
that have not. -/
theorem head_mergeSort_iff (hnd : xs.Nodup) {p : α → Prop} :
    (∃ best rest, xs.mergeSort le = best :: rest ∧ p best) ↔
      ∃ x ∈ xs, p x ∧ ∀ y ∈ xs, ¬p y → InFront le xs x y := by
  constructor
  · rintro ⟨best, rest, hsorted, hbest⟩
    have hmem : best ∈ xs := List.mem_mergeSort.mp (hsorted ▸ List.mem_cons_self)
    refine ⟨best, hmem, hbest, fun y hy hnot => ?_⟩
    exact inFront_of_head htrans htotal hnd hsorted hy fun heq => hnot (heq ▸ hbest)
  · rintro ⟨x, hx, hpx, hfront⟩
    cases hsorted : xs.mergeSort le with
    | nil =>
        have hmem : x ∈ xs.mergeSort le := List.mem_mergeSort.mpr hx
        rw [hsorted] at hmem
        cases hmem
    | cons best rest =>
        refine ⟨best, rest, rfl, Classical.byContradiction fun hnot => ?_⟩
        have hmem : best ∈ xs := List.mem_mergeSort.mp (hsorted ▸ List.mem_cons_self)
        have hne : best ≠ x := fun heq => hnot (heq ▸ hpx)
        exact (hfront best hmem hnot).asymm hnd (inFront_of_head htrans htotal hnd hsorted hx hne)

/-- The place of a member is the number of those in front of it. -/
theorem idxOf_mergeSort [DecidableEq α] (hnd : xs.Nodup) {x : α} (hx : x ∈ xs) :
    (xs.mergeSort le).idxOf x = place le xs x := by
  have hperm := List.mergeSort_perm xs le
  have hnd' : (xs.mergeSort le).Nodup := hperm.nodup_iff.mpr hnd
  have hcount : place le xs x =
      ((xs.mergeSort le).filter fun y => y ≠ x ∧ InFront le xs y x).length :=
    ((hperm.filter _).length_eq).symm
  obtain ⟨before, after, hsplit⟩ := List.append_of_mem (hperm.mem_iff.mpr hx)
  rw [hcount, hsplit]
  rw [hsplit] at hnd'
  obtain ⟨-, hnd_x, hdisjoint⟩ := List.nodup_append.mp hnd'
  have hbefore : x ∉ before := fun hmem => hdisjoint x hmem x List.mem_cons_self rfl
  have hmem : ∀ {y}, y ∈ before ++ x :: after → y ∈ xs := fun hy => hperm.mem_iff.mp (hsplit ▸ hy)
  have hfront : ∀ y ∈ before, y ≠ x ∧ InFront le xs y x := by
    intro y hy
    have hne : y ≠ x := fun heq => hbefore (heq ▸ hy)
    refine ⟨hne, ?_⟩
    rw [← pair_sublist_mergeSort_iff htrans htotal hnd (hmem (List.mem_append_left _ hy)) hx hne,
      hsplit]
    exact pair_sublist_middle hy
  have hback : ∀ y ∈ x :: after, ¬(y ≠ x ∧ InFront le xs y x) := by
    rintro y hy ⟨hne, hin⟩
    have hy' : y ∈ after := (List.mem_cons.mp hy).resolve_left hne
    rw [← pair_sublist_mergeSort_iff htrans htotal hnd (hmem (List.mem_append_right _ hy)) hx hne,
      hsplit] at hin
    refine pair_sublist_asymm hnd' hin ?_
    have htail : [x, y].Sublist (x :: after) := (List.singleton_sublist.mpr hy').cons_cons x
    exact htail.trans (List.sublist_append_right before _)
  rw [idxOf_middle hbefore, List.filter_append, List.filter_eq_self.mpr fun y hy => by
    simpa using hfront y hy, List.filter_eq_nil_iff.mpr fun y hy => by simpa using hback y hy,
    List.append_nil]

theorem place_lt [DecidableEq α] (hnd : xs.Nodup) {a b : α} (ha : a ∈ xs) (hb : b ∈ xs)
    (hne : a ≠ b) (h : InFront le xs a b) : place le xs a < place le xs b := by
  rw [← idxOf_mergeSort htrans htotal hnd ha, ← idxOf_mergeSort htrans htotal hnd hb]
  refine idxOf_lt_of_pair ((List.mergeSort_perm xs le).nodup_iff.mpr hnd) ?_
  exact (pair_sublist_mergeSort_iff htrans htotal hnd ha hb hne).mpr h

end Total

end Sorted

end Ranked
