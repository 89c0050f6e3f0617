/-
The `k` best members of a list.

Ties leave several lists of the best, but not of their scores (`IsTop.scores_eq`), so a score that
tells the members apart leaves one list (`IsTop.eq_of_injective`). Cutting a sorted arrangement
makes one (`isTop_take`).
-/

import Mathlib.Data.List.Sort

namespace Ranked

variable {α β γ : Type} [LinearOrder γ]

/-- `ys` are the `k` members of `xs` with the highest scores, the highest first. -/
structure IsTop (score : α → γ) (k : Nat) (xs ys : List α) : Prop where
  length : ys.length = min k xs.length
  sorted : ys.Pairwise fun a b => score b ≤ score a
  /-- Every member is taken once or left, and none that is left is better than one taken. -/
  chosen : ∃ rest, (ys ++ rest).Perm xs ∧ ∀ y ∈ ys, ∀ z ∈ rest, score z ≤ score y

/-- Lists whose members are told apart by what is the same of them. -/
theorem eq_of_map_eq {f : α → β} {xs ys : List α} (h : xs.map f = ys.map f)
    (hinj : ∀ a ∈ xs, ∀ b ∈ ys, f a = f b → a = b) : xs = ys := by
  induction xs generalizing ys with
  | nil => exact (List.map_eq_nil_iff.mp h.symm).symm
  | cons x xs ih =>
      cases ys with
      | nil => cases h
      | cons y ys =>
          rw [List.map_cons, List.map_cons] at h
          obtain ⟨hhead, htail⟩ := List.cons.inj h
          rw [hinj x List.mem_cons_self y List.mem_cons_self hhead,
            ih htail fun a ha b hb => hinj a (List.mem_cons_of_mem _ ha) b (List.mem_cons_of_mem _ hb)]

section IsTop

variable {score : α → γ} {k : Nat} {xs xs' ys ys' zs : List α}

theorem isTop_take (hperm : zs.Perm xs) (hsorted : zs.Pairwise fun a b => score b ≤ score a) :
    IsTop score k xs (zs.take k) := by
  have hsplit : (zs.take k ++ zs.drop k).Pairwise fun a b => score b ≤ score a := by
    rwa [List.take_append_drop]
  obtain ⟨htake, -, hcross⟩ := List.pairwise_append.mp hsplit
  refine ⟨?_, htake, zs.drop k, ?_, hcross⟩
  · rw [List.length_take, hperm.length_eq]
  · rwa [List.take_append_drop]

theorem IsTop.mem (h : IsTop score k xs ys) {y : α} (hy : y ∈ ys) : y ∈ xs := by
  obtain ⟨rest, hperm, -⟩ := h.chosen
  exact hperm.subset (List.mem_append_left _ hy)

theorem IsTop.nodup_map (h : IsTop score k xs ys) {f : α → β} (hnd : (xs.map f).Nodup) :
    (ys.map f).Nodup := by
  obtain ⟨rest, hperm, -⟩ := h.chosen
  have hnd' : ((ys ++ rest).map f).Nodup := (hperm.map f).nodup_iff.mpr hnd
  rw [List.map_append] at hnd'
  exact (List.nodup_append.mp hnd').1

theorem IsTop.perm (h : IsTop score k xs ys) (hperm : xs.Perm xs') : IsTop score k xs' ys := by
  obtain ⟨rest, hrest, hbest⟩ := h.chosen
  exact ⟨hperm.length_eq ▸ h.length, h.sorted, rest, hrest.trans hperm, hbest⟩

theorem IsTop.map {f : β → α} {bs cs : List β} (h : IsTop (fun b => score (f b)) k bs cs) :
    IsTop score k (bs.map f) (cs.map f) := by
  obtain ⟨rest, hperm, hbest⟩ := h.chosen
  refine ⟨?_, List.pairwise_map.mpr h.sorted, rest.map f, ?_, ?_⟩
  · rw [List.length_map, List.length_map, h.length]
  · rw [← List.map_append]
    exact hperm.map f
  · intro y hy z hz
    obtain ⟨b, hb, rfl⟩ := List.mem_map.mp hy
    obtain ⟨c, hc, rfl⟩ := List.mem_map.mp hz
    exact hbest b hb c hc

theorem IsTop.congr {score' : α → γ} (h : IsTop score k xs ys)
    (hsame : ∀ x ∈ xs, score' x = score x) : IsTop score' k xs ys := by
  obtain ⟨rest, hperm, hbest⟩ := h.chosen
  have htaken : ∀ y ∈ ys, score' y = score y := fun y hy => hsame y (h.mem hy)
  refine ⟨h.length, h.sorted.imp_of_mem fun {a b} ha hb hle => ?_, rest, hperm, fun y hy z hz => ?_⟩
  · rwa [htaken a ha, htaken b hb]
  · rw [htaken y hy, hsame z (hperm.subset (List.mem_append_right _ hz))]
    exact hbest y hy z hz

/-- The best come first in a sorted arrangement. -/
theorem IsTop.exists_sorted (h : IsTop score k xs ys) :
    ∃ zs : List α, zs.Perm xs ∧ zs.Pairwise (fun a b => score b ≤ score a) ∧ ys = zs.take k := by
  obtain ⟨rest, hperm, hbest⟩ := h.chosen
  let le (a b : α) : Bool := decide (score b ≤ score a)
  have htrans : ∀ a b c, le a b = true → le b c = true → le a c = true := by
    intro a b c hab hbc
    exact decide_eq_true ((of_decide_eq_true hbc).trans (of_decide_eq_true hab))
  have htotal : ∀ a b, (le a b || le b a) = true := by
    intro a b
    rw [Bool.or_eq_true, decide_eq_true_iff, decide_eq_true_iff]
    exact le_total _ _
  have hrest := List.pairwise_mergeSort htrans htotal rest
  refine ⟨ys ++ rest.mergeSort le, ((List.mergeSort_perm rest le).append_left ys).trans hperm, ?_, ?_⟩
  · rw [List.pairwise_append]
    refine ⟨h.sorted, hrest.imp fun hle => of_decide_eq_true hle, fun y hy z hz => ?_⟩
    exact hbest y hy z (List.mem_mergeSort.mp hz)
  · rcases Nat.le_total k xs.length with hle | hle
    · rw [List.take_append_of_le_length (by rw [h.length, min_eq_left hle]),
        List.take_of_length_le (by rw [h.length, min_eq_left hle])]
    · have hall : rest = [] := by
        have hlength := hperm.length_eq
        rw [List.length_append, h.length, min_eq_right hle] at hlength
        exact List.eq_nil_of_length_eq_zero (by omega)
      rw [hall, List.mergeSort_nil, List.append_nil,
        List.take_of_length_le (by rw [h.length]; exact min_le_left _ _)]

/-- **The scores of the best.** They do not depend on the order of the list or
on the ties. -/
theorem IsTop.scores_eq (h : IsTop score k xs ys) (h' : IsTop score k xs' ys')
    (hperm : xs.Perm xs') : ys.map score = ys'.map score := by
  obtain ⟨zs, hzs, hsorted, rfl⟩ := h.exists_sorted
  obtain ⟨zs', hzs', hsorted', rfl⟩ := h'.exists_sorted
  have hranked : (zs.map score).Pairwise fun a b => b ≤ a := List.pairwise_map.mpr hsorted
  have hranked' : (zs'.map score).Pairwise fun a b => b ≤ a := List.pairwise_map.mpr hsorted'
  have hscores : zs.map score = zs'.map score :=
    (((hzs.trans hperm).trans hzs'.symm).map score).eq_of_pairwise
      (fun a b _ _ hba hab => le_antisymm hab hba) hranked hranked'
  rw [List.map_take, List.map_take, hscores]

/-- Without ties there is one list of the best. -/
theorem IsTop.eq_of_injective (h : IsTop score k xs ys) (h' : IsTop score k xs' ys')
    (hperm : xs.Perm xs') (hinj : ∀ a ∈ xs, ∀ b ∈ xs, score a = score b → a = b) : ys = ys' := by
  refine eq_of_map_eq (h.scores_eq h' hperm) fun a ha b hb hsame => ?_
  exact hinj a (h.mem ha) b (hperm.mem_iff.mpr (h'.mem hb)) hsame

end IsTop

end Ranked
