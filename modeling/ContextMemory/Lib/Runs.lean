/-
Runs in a text.

A run is a longest part of a text whose characters are all of one kind. Splitting at the other
characters gives the runs (`mem_splitOnP_iff`), and a text that stands apart in a larger one takes
its runs with it (`IsRun.of_occurs`).
-/

import Mathlib.Data.List.TakeWhile

namespace Runs

variable {α : Type} (p : α → Bool)

/-- A place in a text where a run may end: its end, or a character of another kind. -/
def Edge (next : Option α) : Prop := ∀ x ∈ next, p x = false

/-- `run` is a run of the text. -/
def IsRun (text run : List α) : Prop :=
  (∀ x ∈ run, p x = true) ∧
    ∃ before after, text = before ++ run ++ after ∧ Edge p before.getLast? ∧ Edge p after.head?

variable {p} {text run : List α}

theorem Edge.none : Edge p none := fun _ h => by cases h

theorem Edge.some {x : α} (h : p x = false) : Edge p (some x) := fun y hy => by
  cases hy
  exact h

theorem Edge.getLast?_append {xs ys : List α} (hxs : Edge p xs.getLast?) (hys : Edge p ys.getLast?) :
    Edge p (xs ++ ys).getLast? := by
  intro x hx
  rw [List.getLast?_append] at hx
  rcases Option.or_eq_some_iff.mp hx with hlast | ⟨-, hlast⟩
  · exact hys x hlast
  · exact hxs x hlast

theorem Edge.head?_append {xs ys : List α} (hxs : Edge p xs.head?) (hys : Edge p ys.head?) :
    Edge p (xs ++ ys).head? := by
  intro x hx
  rw [List.head?_append] at hx
  rcases Option.or_eq_some_iff.mp hx with hhead | ⟨-, hhead⟩
  · exact hxs x hhead
  · exact hys x hhead

/-- **Standing apart.** A part of a text with an edge on both sides takes its
runs with it. -/
theorem IsRun.of_occurs (h : IsRun p text run) {before after : List α}
    (hbefore : Edge p before.getLast?) (hafter : Edge p after.head?) :
    IsRun p (before ++ text ++ after) run := by
  obtain ⟨hrun, front, back, rfl, hfront, hback⟩ := h
  refine ⟨hrun, before ++ front, back ++ after, ?_, hbefore.getLast?_append hfront,
    hback.head?_append hafter⟩
  simp only [List.append_assoc]

theorem isRun_of_mem_splitOnP (h : run ∈ text.splitOnP fun x => !p x) : IsRun p text run := by
  induction hlength : text.length using Nat.strongRecOn generalizing text with
  | ind n ih =>
      have hkind : ∀ x ∈ text.takeWhile p, p x = true := fun x hx => by
        simpa using List.mem_takeWhile_imp hx
      have hsplit : text.takeWhile p ++ text.dropWhile p = text := List.takeWhile_append_dropWhile
      cases hrest : text.dropWhile p with
      | nil =>
          rw [hrest, List.append_nil] at hsplit
          rw [hsplit] at hkind
          rw [List.splitOnP_eq_singleton fun x hx => by simp [hkind x hx], List.mem_singleton] at h
          subst h
          exact ⟨hkind, [], [], by simp, Edge.none, Edge.none⟩
      | cons x rest =>
          have hx : p x = false := by
            have hhead := List.head?_dropWhile_not p text
            rw [hrest] at hhead
            simpa using hhead
          rw [hrest] at hsplit
          rw [← hsplit, List.splitOnP_append_cons_of_forall_mem (fun y hy => by simp [hkind y hy]) x
            (by simp [hx])] at h
          rw [← hsplit]
          rcases List.mem_cons.mp h with rfl | h
          · exact ⟨hkind, [], x :: rest, by simp, Edge.none, Edge.some hx⟩
          · have hshort : rest.length < n := by
              rw [← hlength, ← hsplit, List.length_append, List.length_cons]
              omega
            have hback : IsRun p (text.takeWhile p ++ [x] ++ rest ++ []) run :=
              (ih _ hshort h rfl).of_occurs (by rw [List.getLast?_concat]; exact Edge.some hx) Edge.none
            rwa [List.append_nil, List.append_assoc] at hback

/-- Splitting at the other characters gives the runs. -/
theorem mem_splitOnP_iff : run ∈ text.splitOnP (fun x => !p x) ↔ IsRun p text run := by
  refine ⟨isRun_of_mem_splitOnP, ?_⟩
  rintro ⟨hrun, before, after, rfl, hbefore, hafter⟩
  have hself : run.splitOnP (fun x => !p x) = [run] :=
    List.splitOnP_eq_singleton fun x hx => by simp [hrun x hx]
  have hfront : run ∈ (before ++ run).splitOnP fun x => !p x := by
    rcases List.eq_nil_or_concat before with rfl | ⟨front, x, hconcat⟩
    · rw [List.nil_append, hself]
      exact List.mem_singleton_self run
    · rw [List.concat_eq_append] at hconcat
      subst hconcat
      have hx : p x = false := hbefore x (by rw [List.getLast?_concat]; rfl)
      rw [List.append_assoc, List.singleton_append, List.splitOnP_append_cons _ _ (by simp [hx]), hself]
      exact List.mem_append_right _ (List.mem_singleton_self run)
  cases after with
  | nil => rwa [List.append_nil]
  | cons x back =>
      have hx : p x = false := hafter x rfl
      rw [List.splitOnP_append_cons _ _ (by simp [hx])]
      exact List.mem_append_left _ hfront

/-- A run lies on one side of a character of another kind. -/
theorem isRun_append_cons {x : α} (hx : p x = false) {front back : List α} :
    IsRun p (front ++ x :: back) run ↔ IsRun p front run ∨ IsRun p back run := by
  rw [← mem_splitOnP_iff, ← mem_splitOnP_iff, ← mem_splitOnP_iff,
    List.splitOnP_append_cons _ _ (by simp [hx]), List.mem_append]

end Runs
