/-
Depth-first visits.

A visit passes over what it has seen. Else it visits everything that it leads to, and is done after
that. With fuel for every node that was not seen it ends (`exists_visit`), and from nothing seen,
what is done is what can be reached, once each (`visit_root`).
-/

import Mathlib.Data.Fintype.Card
import Mathlib.Data.List.Nodup
import Mathlib.Data.List.Perm.Basic
import Mathlib.Logic.Relation

namespace Visit

variable {κ : Type} (next : κ → List κ)

/-- Nodes in the order in which they are done, and all that was seen so far. -/
abbrev Visited (κ : Type) := List κ × List κ

/-- One visit after the other. -/
def visitAll (visit : κ → List κ → Option (Visited κ)) : List κ → List κ → Option (Visited κ)
  | [], seen => some ([], seen)
  | x :: xs, seen =>
      (visit x seen).bind fun first =>
        (visitAll visit xs first.2).map fun rest => (first.1 ++ rest.1, rest.2)

def visit [DecidableEq κ] : Nat → κ → List κ → Option (Visited κ)
  | 0, _, _ => none
  | fuel + 1, x, seen =>
      if x ∈ seen then some ([], seen)
      else (visitAll (visit fuel) (next x) (seen ++ [x])).map fun all => (all.1 ++ [x], all.2)

/-- There is a way from one node to another. -/
def Reaches : κ → κ → Prop := Relation.ReflTransGen fun x y => y ∈ next x

/-- What a visit of some nodes does, when `seen` was seen. -/
structure Visits (roots seen : List κ) (visited : Visited κ) : Prop where
  /-- What is newly seen is done. -/
  seen_eq : ∃ new, visited.2 = seen ++ new ∧ new.Perm visited.1
  nodup : seen.Nodup → visited.2.Nodup
  sees : ∀ x ∈ roots, x ∈ visited.2
  closed : ∀ x ∈ visited.1, ∀ y ∈ next x, y ∈ visited.2
  reached : ∀ y ∈ visited.1, ∃ x ∈ roots, Reaches next x y

variable {next} {roots seen : List κ} {visited : Visited κ}

theorem Visits.mem_seen (h : Visits next roots seen visited) {x : κ} :
    x ∈ visited.2 ↔ x ∈ seen ∨ x ∈ visited.1 := by
  obtain ⟨new, hnew, hperm⟩ := h.seen_eq
  rw [hnew, List.mem_append, hperm.mem_iff]

/-- Visits in turn. -/
theorem Visits.cons {x : κ} {xs : List κ} {first rest : Visited κ}
    (hfirst : Visits next [x] seen first) (hrest : Visits next xs first.2 rest) :
    Visits next (x :: xs) seen (first.1 ++ rest.1, rest.2) where
  seen_eq := by
    obtain ⟨new, hnew, hperm⟩ := hfirst.seen_eq
    obtain ⟨new', hnew', hperm'⟩ := hrest.seen_eq
    exact ⟨new ++ new', by rw [hnew', hnew, List.append_assoc], hperm.append hperm'⟩
  nodup hnd := hrest.nodup (hfirst.nodup hnd)
  sees y hy := by
    rcases List.mem_cons.mp hy with rfl | hy
    · exact hrest.mem_seen.mpr (Or.inl (hfirst.sees y List.mem_cons_self))
    · exact hrest.sees y hy
  closed y hy z hz := by
    rcases List.mem_append.mp hy with hy | hy
    · exact hrest.mem_seen.mpr (Or.inl (hfirst.closed y hy z hz))
    · exact hrest.closed y hy z hz
  reached y hy := by
    rcases List.mem_append.mp hy with hy | hy
    · obtain ⟨z, hz, hreach⟩ := hfirst.reached y hy
      exact ⟨z, List.mem_cons.mpr (Or.inl (List.mem_singleton.mp hz)), hreach⟩
    · obtain ⟨z, hz, hreach⟩ := hrest.reached y hy
      exact ⟨z, List.mem_cons_of_mem _ hz, hreach⟩

theorem visits_all {step : κ → List κ → Option (Visited κ)}
    (hstep : ∀ x seen visited, step x seen = some visited → Visits next [x] seen visited)
    {xs : List κ} (h : visitAll step xs seen = some visited) : Visits next xs seen visited := by
  induction xs generalizing seen visited with
  | nil =>
      cases h
      exact ⟨⟨[], (List.append_nil seen).symm, List.Perm.refl []⟩, id, by simp, by simp, by simp⟩
  | cons x xs ih =>
      obtain ⟨first, hfirst, hmap⟩ := Option.bind_eq_some_iff.mp h
      obtain ⟨rest, hrest, rfl⟩ := Option.map_eq_some_iff.mp hmap
      exact (hstep x seen first hfirst).cons (ih hrest)

/-- **One visit.** -/
theorem visits_of_visit [DecidableEq κ] {fuel : Nat} {x : κ} (h : visit next fuel x seen = some visited) :
    Visits next [x] seen visited := by
  induction fuel generalizing x seen visited with
  | zero => cases h
  | succ fuel ih =>
      rw [visit] at h
      split at h
      · rename_i hmem
        cases h
        refine ⟨⟨[], (List.append_nil seen).symm, List.Perm.refl []⟩, id, ?_, by simp, by simp⟩
        exact fun y hy => (List.mem_singleton.mp hy) ▸ hmem
      · rename_i hnot
        obtain ⟨all, hall, rfl⟩ := Option.map_eq_some_iff.mp h
        have hvisits := visits_all (fun x seen visited => ih) hall
        obtain ⟨new, hnew, hperm⟩ := hvisits.seen_eq
        have hx : x ∈ all.2 := by
          rw [hnew]
          simp
        refine ⟨⟨x :: new, by rw [hnew]; simp, ?_⟩, ?_, ?_, ?_, ?_⟩
        · exact (hperm.cons x).trans (List.perm_append_singleton x all.1).symm
        · intro hnd
          refine hvisits.nodup (List.nodup_append.mpr ⟨hnd, List.nodup_singleton x, ?_⟩)
          rintro y hy z hz rfl
          exact hnot (List.mem_singleton.mp hz ▸ hy)
        · exact fun y hy => (List.mem_singleton.mp hy) ▸ hx
        · intro y hy z hz
          rcases List.mem_append.mp hy with hy | hy
          · exact hvisits.closed y hy z hz
          · rw [List.mem_singleton.mp hy] at hz
            exact hvisits.sees z hz
        · intro y hy
          refine ⟨x, List.mem_singleton_self x, ?_⟩
          rcases List.mem_append.mp hy with hy | hy
          · obtain ⟨z, hz, hreach⟩ := hvisits.reached y hy
            exact Relation.ReflTransGen.head hz hreach
          · rw [List.mem_singleton.mp hy]
            exact Relation.ReflTransGen.refl

/-- **From nothing seen.** What is done is what can be reached, once each. -/
theorem visit_root [DecidableEq κ] {fuel : Nat} {root : κ}
    (h : visit next fuel root [] = some visited) :
    visited.1.Nodup ∧ ∀ y, y ∈ visited.1 ↔ Reaches next root y := by
  have hvisits := visits_of_visit h
  have hmem : ∀ {y}, y ∈ visited.2 ↔ y ∈ visited.1 := fun {y} => by
    rw [hvisits.mem_seen]
    simp
  constructor
  · obtain ⟨new, hnew, hperm⟩ := hvisits.seen_eq
    have hnd := hvisits.nodup List.nodup_nil
    rw [hnew, List.nil_append] at hnd
    exact hperm.nodup_iff.mp hnd
  · intro y
    constructor
    · intro hy
      obtain ⟨x, hx, hreach⟩ := hvisits.reached y hy
      rwa [List.mem_singleton.mp hx] at hreach
    · intro hreach
      induction hreach with
      | refl => exact hmem.mp (hvisits.sees root List.mem_cons_self)
      | tail _ hstep ih => exact hmem.mp (hvisits.closed _ ih _ hstep)

/-! ### Fuel -/

theorem visitAll_mono {step step' : κ → List κ → Option (Visited κ)}
    (hstep : ∀ x seen visited, step x seen = some visited → step' x seen = some visited)
    {xs : List κ} (h : visitAll step xs seen = some visited) :
    visitAll step' xs seen = some visited := by
  induction xs generalizing seen visited with
  | nil => exact h
  | cons x xs ih =>
      obtain ⟨first, hfirst, hmap⟩ := Option.bind_eq_some_iff.mp h
      obtain ⟨rest, hrest, rfl⟩ := Option.map_eq_some_iff.mp hmap
      rw [visitAll, hstep x seen first hfirst, Option.bind_some, ih hrest, Option.map_some]

/-- More fuel changes nothing. -/
theorem visit_mono [DecidableEq κ] {fuel fuel' : Nat} (hle : fuel ≤ fuel') {x : κ}
    (h : visit next fuel x seen = some visited) : visit next fuel' x seen = some visited := by
  induction fuel generalizing fuel' x seen visited with
  | zero => cases h
  | succ fuel ih =>
      obtain ⟨fuel', rfl⟩ := Nat.exists_eq_add_of_le' (Nat.le_of_add_left_le hle)
      rw [visit] at h ⊢
      split
      · rename_i hmem
        rwa [if_pos hmem] at h
      · rename_i hnot
        rw [if_neg hnot] at h
        obtain ⟨all, hall, rfl⟩ := Option.map_eq_some_iff.mp h
        rw [visitAll_mono (fun y seen' visited' h' => ih (Nat.le_of_succ_le_succ hle) h') hall,
          Option.map_some]

theorem exists_visitAll {step : κ → List κ → Option (Visited κ)}
    (hsound : ∀ x seen visited, step x seen = some visited → Visits next [x] seen visited)
    {xs : List κ} (htotal : ∀ x seen', seen ⊆ seen' → ∃ visited, step x seen' = some visited) :
    ∃ visited, visitAll step xs seen = some visited := by
  induction xs generalizing seen with
  | nil => exact ⟨_, rfl⟩
  | cons x xs ih =>
      obtain ⟨first, hfirst⟩ := htotal x seen (List.Subset.refl seen)
      have hseen : seen ⊆ first.2 := fun y hy => (hsound x seen first hfirst).mem_seen.mpr (Or.inl hy)
      obtain ⟨rest, hrest⟩ := ih fun y seen' hle => htotal y seen' (List.Subset.trans hseen hle)
      exact ⟨_, by rw [visitAll, hfirst, Option.bind_some, hrest, Option.map_some]⟩

/-- **Termination.** Fuel for every node that was not seen is enough. -/
theorem exists_visit [DecidableEq κ] [Fintype κ] {fuel : Nat} (x : κ) {seen : List κ}
    (hfuel : (Finset.univ \ seen.toFinset).card < fuel) :
    ∃ visited, visit next fuel x seen = some visited := by
  induction fuel generalizing x seen with
  | zero => exact absurd hfuel (Nat.not_lt_zero _)
  | succ fuel ih =>
      rw [visit]
      split
      · exact ⟨_, rfl⟩
      · rename_i hnot
        have htotal : ∀ y seen', seen ++ [x] ⊆ seen' →
            ∃ visited, visit next fuel y seen' = some visited := by
          intro y seen' hle
          refine ih y (Nat.lt_of_lt_of_le (Finset.card_lt_card ?_) (Nat.le_of_lt_succ hfuel))
          -- the node itself is seen from now on
          rw [Finset.ssubset_iff_of_subset]
          · refine ⟨x, by simp [hnot], ?_⟩
            have hx : x ∈ seen' := hle (by simp)
            simp [hx]
          · intro z hz
            rw [Finset.mem_sdiff, List.mem_toFinset] at hz ⊢
            exact ⟨hz.1, fun hmem => hz.2 (hle (List.mem_append_left _ hmem))⟩
        obtain ⟨all, hall⟩ := exists_visitAll (fun _ _ _ => visits_of_visit) htotal
        exact ⟨_, by rw [hall, Option.map_some]⟩

end Visit
