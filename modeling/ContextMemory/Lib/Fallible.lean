/-
Computations that return a value or an error, and loops of them that the first error ends.
-/

import Mathlib.Data.List.Forall2

namespace Fallible

variable {ε α β κ : Type}

theorem ok_bind (a : α) (f : α → Except ε β) : (Except.ok a >>= f) = f a := rfl

/-- A sequence that returned: so did its first part, and the rest from there. -/
theorem bind_eq_ok {x : Except ε α} {f : α → Except ε β} {value : β}
    (h : x >>= f = .ok value) : ∃ a, x = .ok a ∧ f a = .ok value := by
  cases x with
  | error e => cases h
  | ok a => exact ⟨a, rfl, h⟩

theorem map_eq_ok {x : Except ε α} {f : α → β} {value : β} :
    x.map f = .ok value ↔ ∃ a, x = .ok a ∧ f a = value := by
  cases x with
  | error e => simp [Except.map]
  | ok a => simp [Except.map]

theorem map_eq_error {x : Except ε α} {f : α → β} {e : ε} : x.map f = .error e ↔ x = .error e := by
  cases x with
  | error e => simp [Except.map]
  | ok a => simp [Except.map]

theorem bind_ne_error {x : Except ε α} {f : α → Except ε β} {e : ε} (hx : x ≠ .error e)
    (hf : ∀ a, x = .ok a → f a ≠ .error e) : x >>= f ≠ .error e := by
  cases x with
  | error e' => exact fun h => hx (by cases h; rfl)
  | ok a => exact hf a rfl

/-- A member of the second of two related lists has its partner in the first. -/
theorem exists_of_forall₂ {R : α → β → Prop} {xs : List α} {ys : List β} (h : List.Forall₂ R xs ys)
    {y : β} (hy : y ∈ ys) : ∃ x ∈ xs, R x y := by
  induction h with
  | nil => cases hy
  | cons hhead _ ih =>
      rcases List.mem_cons.mp hy with rfl | hy
      · exact ⟨_, List.mem_cons_self, hhead⟩
      · obtain ⟨x, hx, hrelated⟩ := ih hy
        exact ⟨x, List.mem_cons_of_mem _ hx, hrelated⟩

/-- A loop that returned has one result for each item. -/
theorem mapM_eq_ok {f : α → Except ε β} {xs : List α} {ys : List β}
    (h : xs.mapM f = .ok ys) : List.Forall₂ (fun x y => f x = .ok y) xs ys := by
  induction xs generalizing ys with
  | nil =>
      cases h
      exact .nil
  | cons x xs ih =>
      rw [List.mapM_cons] at h
      obtain ⟨y, hy, h⟩ := bind_eq_ok h
      obtain ⟨rest, hrest, h⟩ := bind_eq_ok h
      cases h
      exact .cons hy (ih hrest)

/-- The result at a place is that of the item there. -/
theorem getElem?_mapM {f : α → Except ε β} {xs : List α} {ys : List β} (h : xs.mapM f = .ok ys)
    {k : Nat} {y : β} (hy : ys[k]? = some y) : ∃ x, xs[k]? = some x ∧ f x = .ok y := by
  have hall := mapM_eq_ok h
  clear h
  induction hall generalizing k with
  | nil => cases hy
  | cons hhead _ ih =>
      cases k with
      | zero =>
          cases hy
          exact ⟨_, rfl, hhead⟩
      | succ k => exact ih hy

/-- A loop whose items all return does. -/
theorem mapM_total {f : α → Except ε β} {xs : List α} (h : ∀ x ∈ xs, ∃ y, f x = .ok y) :
    ∃ ys, xs.mapM f = .ok ys := by
  induction xs with
  | nil => exact ⟨[], rfl⟩
  | cons x xs ih =>
      obtain ⟨y, hy⟩ := h x List.mem_cons_self
      obtain ⟨ys, hys⟩ := ih fun z hz => h z (List.mem_cons_of_mem _ hz)
      refine ⟨y :: ys, ?_⟩
      rw [List.mapM_cons, hy, hys]
      rfl

/-- A loop raises no more than its items do. -/
theorem mapM_ne_error {f : α → Except ε β} {xs : List α} {e : ε} (h : ∀ x ∈ xs, f x ≠ .error e) :
    xs.mapM f ≠ .error e := by
  induction xs with
  | nil => exact fun h => by cases h
  | cons x xs ih =>
      rw [List.mapM_cons]
      refine bind_ne_error (h x List.mem_cons_self) fun y _ => bind_ne_error ?_ fun ys _ h => by cases h
      exact ih fun z hz => h z (List.mem_cons_of_mem _ hz)

/-- A loop over an item that raises does not return. -/
theorem mapM_raises {f : α → Except ε β} {xs : List α} {x : α} (hx : x ∈ xs) {e : ε}
    (h : f x = .error e) : ∃ e', xs.mapM f = .error e' := by
  cases hxs : xs.mapM f with
  | error e' => exact ⟨e', rfl⟩
  | ok ys =>
      obtain ⟨y, -, hy⟩ := exists_of_forall₂ (mapM_eq_ok hxs).flip hx
      rw [h] at hy
      cases hy

/-- A loop whose items return what a function says returns the list of it. -/
theorem mapM_eq_map {f : α → Except ε β} {g : α → β} {xs : List α}
    (h : ∀ x ∈ xs, f x = .ok (g x)) : xs.mapM f = .ok (xs.map g) := by
  induction xs with
  | nil => rfl
  | cons x xs ih =>
      rw [List.mapM_cons, h x List.mem_cons_self, ih fun y hy => h y (List.mem_cons_of_mem _ hy)]
      rfl

/-- A loop over items seen through `g`, where a single call sees nothing else. -/
theorem mapM_comm {f f' : α → Except ε β} {g : α → α} {h : β → β}
    (hcall : ∀ x, f' (g x) = (f x).map h) (xs : List α) :
    (xs.map g).mapM f' = (xs.mapM f).map (List.map h) := by
  induction xs with
  | nil => rfl
  | cons x xs ih =>
      rw [List.map_cons, List.mapM_cons, List.mapM_cons, hcall, ih]
      cases f x with
      | error e => rfl
      | ok y =>
          cases xs.mapM f with
          | error e => rfl
          | ok ys => rfl

theorem length_mapM {f : α → Except ε β} {xs : List α} {ys : List β} (h : xs.mapM f = .ok ys) :
    ys.length = xs.length :=
  (mapM_eq_ok h).length_eq.symm

/-- What every single call keeps, the loop keeps item by item. -/
theorem map_mapM {f : α → Except ε β} {key : α → κ} {key' : β → κ}
    (hkey : ∀ {x y}, f x = .ok y → key' y = key x) {xs : List α} {ys : List β}
    (h : xs.mapM f = .ok ys) : ys.map key' = xs.map key := by
  have hall := mapM_eq_ok h
  clear h
  induction hall with
  | nil => rfl
  | cons hhead _ ih => rw [List.map_cons, List.map_cons, hkey hhead, ih]

end Fallible
