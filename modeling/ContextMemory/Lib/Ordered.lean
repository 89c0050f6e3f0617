/-
Insertion-ordered dictionaries and groupings.

A dictionary whose values know their own key is the list of its values in
insertion order: `upsert key x` is `d[key x] = x`, which keeps the place of a key
already present. `groups key xs` is what a `defaultdict(list)` filled from `xs`
holds: one group per key, in the order of the first member.
-/

import Mathlib.Algebra.GroupWithZero.Nat
import Mathlib.Data.List.Nodup
import Mathlib.Data.List.Induction

namespace Ordered

variable {α κ : Type} [DecidableEq κ] (key : α → κ)

/-- `d[key x] = x`. -/
def upsert (x : α) : List α → List α
  | [] => [x]
  | y :: ys => if key y = key x then x :: ys else y :: upsert x ys

/-- `d.get(k)`. -/
def find (k : κ) (xs : List α) : Option α := xs.find? fun y => key y = k

/-- What a dictionary holds after the assignments `xs`, in order. -/
def ofAssignments (xs : List α) : List α := xs.foldl (fun d x => upsert key x d) []

/-- The last of the assignments `xs` to a key. -/
def last (k : κ) (xs : List α) : Option α := xs.reverse.find? fun x => key x = k

/-- The groups of `xs` by `key`, in the order of their first members. -/
def groups (xs : List α) : List (κ × List α) :=
  (xs.map key).eraseDups.map fun k => (k, xs.filter fun x => key x = k)

variable {key}

theorem mem_upsert_self (x : α) (xs : List α) : x ∈ upsert key x xs := by
  induction xs with
  | nil => exact List.mem_singleton_self x
  | cons y ys ih =>
      simp only [upsert]
      split
      · exact List.mem_cons_self
      · exact List.mem_cons_of_mem _ ih

theorem mem_of_mem_upsert {x y : α} {xs : List α} (h : y ∈ upsert key x xs) : y = x ∨ y ∈ xs := by
  induction xs with
  | nil => exact Or.inl (List.mem_singleton.mp h)
  | cons z zs ih =>
      simp only [upsert] at h
      split at h
      · rcases List.mem_cons.mp h with rfl | h
        · exact Or.inl rfl
        · exact Or.inr (List.mem_cons_of_mem _ h)
      · rcases List.mem_cons.mp h with rfl | h
        · exact Or.inr List.mem_cons_self
        · rcases ih h with rfl | h
          · exact Or.inl rfl
          · exact Or.inr (List.mem_cons_of_mem _ h)

theorem mem_upsert_of_ne {x y : α} {xs : List α} (h : y ∈ xs) (hne : key y ≠ key x) :
    y ∈ upsert key x xs := by
  induction xs with
  | nil => cases h
  | cons z zs ih =>
      simp only [upsert]
      rcases List.mem_cons.mp h with rfl | h
      · rw [if_neg hne]
        exact List.mem_cons_self
      · split
        · exact List.mem_cons_of_mem _ h
        · exact List.mem_cons_of_mem _ (ih h)

/-- Writing a key keeps the keys distinct. -/
theorem nodup_upsert {x : α} {xs : List α} (h : (xs.map key).Nodup) :
    ((upsert key x xs).map key).Nodup := by
  induction xs with
  | nil => simp [upsert]
  | cons y ys ih =>
      obtain ⟨hnot, hys⟩ := List.nodup_cons.mp h
      simp only [upsert]
      split
      · rename_i heq
        rw [List.map_cons, List.nodup_cons, ← heq]
        exact ⟨hnot, hys⟩
      · rename_i hne
        rw [List.map_cons, List.nodup_cons]
        refine ⟨fun hmem => ?_, ih hys⟩
        obtain ⟨z, hz, hkey⟩ := List.mem_map.mp hmem
        rcases mem_of_mem_upsert hz with rfl | hz
        · exact hne hkey.symm
        · exact hnot (List.mem_map.mpr ⟨z, hz, hkey⟩)

/-- With distinct keys, a member other than the written one kept its own key. -/
theorem mem_upsert_iff {x y : α} {xs : List α} (h : (xs.map key).Nodup) :
    y ∈ upsert key x xs ↔ y = x ∨ (y ∈ xs ∧ key y ≠ key x) := by
  constructor
  · intro hy
    rcases mem_of_mem_upsert hy with rfl | hmem
    · exact Or.inl rfl
    · by_cases hkey : key y = key x
      · exact Or.inl (List.inj_on_of_nodup_map (nodup_upsert h) hy (mem_upsert_self x xs) hkey)
      · exact Or.inr ⟨hmem, hkey⟩
  · rintro (rfl | ⟨hmem, hne⟩)
    · exact mem_upsert_self y xs
    · exact mem_upsert_of_ne hmem hne

theorem mem_keys_upsert {x : α} {xs : List α} {k : κ} :
    k ∈ (upsert key x xs).map key ↔ k = key x ∨ k ∈ xs.map key := by
  induction xs with
  | nil => simp [upsert]
  | cons y ys ih =>
      simp only [upsert]
      split
      · rename_i heq
        simp [heq]
      · rw [List.map_cons, List.mem_cons, ih, List.map_cons, List.mem_cons]
        tauto

/-- Assigning what is there changes nothing. -/
theorem upsert_of_mem {x : α} {xs : List α} (hnd : (xs.map key).Nodup) (h : x ∈ xs) :
    upsert key x xs = xs := by
  induction xs with
  | nil => cases h
  | cons y ys ih =>
      rw [List.map_cons, List.nodup_cons] at hnd
      simp only [upsert]
      rcases List.mem_cons.mp h with rfl | h
      · rw [if_pos rfl]
      · have hne : key y ≠ key x := fun heq => hnd.1 (heq ▸ List.mem_map_of_mem h)
        rw [if_neg hne, ih hnd.2 h]

/-- An assignment outside a part of the dictionary leaves that part alone. -/
theorem filter_upsert {p : α → Bool} {x : α} {xs : List α} (hx : p x = false)
    (hxs : ∀ y ∈ xs, key y = key x → p y = false) : (upsert key x xs).filter p = xs.filter p := by
  induction xs with
  | nil => simp [upsert, hx]
  | cons y ys ih =>
      simp only [upsert]
      split
      · rename_i hsame
        rw [List.filter_cons_of_neg (by simp [hx]),
          List.filter_cons_of_neg (by simp [hxs y List.mem_cons_self hsame])]
      · have hrest := ih fun z hz => hxs z (List.mem_cons_of_mem _ hz)
        rw [List.filter_cons, List.filter_cons, hrest]

theorem find_eq_some {k : κ} {xs : List α} {x : α} (h : find key k xs = some x) :
    x ∈ xs ∧ key x = k :=
  ⟨List.mem_of_find?_eq_some h, by simpa using List.find?_some h⟩

theorem find_eq_none {k : κ} {xs : List α} : find key k xs = none ↔ k ∉ xs.map key := by
  rw [find, List.find?_eq_none]
  simp

theorem find_of_mem {xs : List α} {x : α} (hnd : (xs.map key).Nodup) (h : x ∈ xs) :
    find key (key x) xs = some x := by
  cases hf : find key (key x) xs with
  | none => exact absurd (List.mem_map_of_mem h) (find_eq_none.mp hf)
  | some y =>
      obtain ⟨hy, hkey⟩ := find_eq_some hf
      rw [List.inj_on_of_nodup_map hnd hy h hkey]

theorem find_upsert_self (x : α) (xs : List α) : find key (key x) (upsert key x xs) = some x := by
  induction xs with
  | nil => simp [upsert, find]
  | cons y ys ih =>
      simp only [upsert]
      split
      · simp [find]
      · rename_i hne
        simp only [find, List.find?_cons, hne, decide_false]
        exact ih

theorem find_upsert_of_ne {x : α} {xs : List α} {k : κ} (hne : k ≠ key x) :
    find key k (upsert key x xs) = find key k xs := by
  induction xs with
  | nil => simp [upsert, find, Ne.symm hne]
  | cons y ys ih =>
      simp only [upsert]
      split
      · rename_i heq
        have hy : key y ≠ k := heq ▸ Ne.symm hne
        simp [find, hy, Ne.symm hne]
      · by_cases hy : key y = k
        · simp [find, hy]
        · simp only [find, List.find?_cons, hy, decide_false]
          exact ih

/-- A key that is found is written in its place. -/
theorem upsert_of_find {k : κ} {xs : List α} {x y : α} (h : find key k xs = some y)
    (hx : key x = k) :
    ∃ before after, xs = before ++ y :: after ∧ upsert key x xs = before ++ x :: after := by
  induction xs with
  | nil => cases h
  | cons z zs ih =>
      by_cases hz : key z = k
      · have hsame : z = y := by
          rw [find, List.find?_cons_of_pos (by simpa using hz)] at h
          exact Option.some.inj h
        subst hsame
        exact ⟨[], zs, rfl, by rw [upsert, if_pos (hz.trans hx.symm)]; rfl⟩
      · rw [find, List.find?_cons_of_neg (by simpa using hz)] at h
        obtain ⟨before, after, rfl, hupsert⟩ := ih h
        refine ⟨z :: before, after, rfl, ?_⟩
        rw [upsert, if_neg fun heq => hz (heq.trans hx), hupsert]
        rfl

/-- A view of the values that keeps their keys is written in the same place. -/
theorem upsert_map {β : Type} {keyOf : β → κ} {f : α → β} (hkey : ∀ x, keyOf (f x) = key x) (x : α)
    (xs : List α) : upsert keyOf (f x) (xs.map f) = (upsert key x xs).map f := by
  induction xs with
  | nil => rfl
  | cons y ys ih =>
      simp only [List.map_cons, upsert, hkey]
      split
      · rfl
      · rw [ih, List.map_cons]

/-- A dictionary of what a view keeps of the values. -/
theorem lookup_view {β : Type} (f : α → β) {xs : List α} {x : α} (hnd : (xs.map key).Nodup)
    (h : x ∈ xs) : (xs.map fun y => (key y, f y)).lookup (key x) = some (f x) := by
  induction xs with
  | nil => cases h
  | cons y ys ih =>
      rw [List.map_cons, List.nodup_cons] at hnd
      rw [List.map_cons, List.lookup_cons]
      rcases List.mem_cons.mp h with rfl | h
      · rw [beq_self_eq_true]
      · have hne : key x ≠ key y := fun heq => hnd.1 (heq ▸ List.mem_map_of_mem h)
        rw [beq_false_of_ne hne]
        exact ih hnd.2 h

/-- A new key goes to the end. -/
theorem upsert_of_not_found {xs : List α} {x : α} (h : find key (key x) xs = none) :
    upsert key x xs = xs ++ [x] := by
  induction xs with
  | nil => rfl
  | cons z zs ih =>
      have hnot := find_eq_none.mp h
      rw [List.map_cons, List.mem_cons, not_or] at hnot
      rw [upsert, if_neg (Ne.symm hnot.1), ih (find_eq_none.mpr hnot.2)]
      rfl

/-! ### Assignments -/

theorem ofAssignments_append_singleton (xs : List α) (x : α) :
    ofAssignments key (xs ++ [x]) = upsert key x (ofAssignments key xs) := by
  simp only [ofAssignments, List.foldl_append, List.foldl_cons, List.foldl_nil]

theorem nodup_ofAssignments (xs : List α) : ((ofAssignments key xs).map key).Nodup := by
  induction xs using List.reverseRecOn with
  | nil => exact List.nodup_nil
  | append_singleton xs x ih =>
      rw [ofAssignments_append_singleton]
      exact nodup_upsert ih

theorem mem_of_mem_ofAssignments {xs : List α} {x : α} (h : x ∈ ofAssignments key xs) :
    x ∈ xs := by
  induction xs using List.reverseRecOn with
  | nil => cases h
  | append_singleton xs y ih =>
      rw [ofAssignments_append_singleton] at h
      rcases mem_of_mem_upsert h with rfl | h
      · simp
      · exact List.mem_append_left _ (ih h)

theorem mem_keys_ofAssignments {xs : List α} {k : κ} :
    k ∈ (ofAssignments key xs).map key ↔ k ∈ xs.map key := by
  induction xs using List.reverseRecOn with
  | nil => rfl
  | append_singleton xs x ih =>
      rw [ofAssignments_append_singleton, mem_keys_upsert, ih, List.map_append, List.mem_append,
        List.map_singleton, List.mem_singleton]
      exact or_comm

/-- Assignments to distinct keys are what the dictionary holds. -/
theorem ofAssignments_of_nodup {xs : List α} (h : (xs.map key).Nodup) :
    ofAssignments key xs = xs := by
  induction xs using List.reverseRecOn with
  | nil => rfl
  | append_singleton xs x ih =>
      rw [List.map_append, List.map_singleton, List.nodup_append] at h
      obtain ⟨hxs, -, hdisjoint⟩ := h
      have hnew : find key (key x) xs = none :=
        find_eq_none.mpr fun hmem => hdisjoint _ hmem _ (List.mem_singleton_self _) rfl
      rw [ofAssignments_append_singleton, ih hxs, upsert_of_not_found hnew]

theorem sum_upsert_le (f : α → Nat) (x : α) (xs : List α) :
    ((upsert key x xs).map f).sum ≤ (xs.map f).sum + f x := by
  induction xs with
  | nil => simp [upsert]
  | cons y ys ih =>
      simp only [upsert]
      split
      · simp only [List.map_cons, List.sum_cons]
        omega
      · simp only [List.map_cons, List.sum_cons]
        omega

/-- A dictionary holds no more than is assigned. -/
theorem sum_ofAssignments_le (f : α → Nat) {xs : List α} :
    ((ofAssignments key xs).map f).sum ≤ (xs.map f).sum := by
  induction xs using List.reverseRecOn with
  | nil => exact Nat.le_refl _
  | append_singleton xs x ih =>
      have hstep : ((upsert key x (ofAssignments key xs)).map f).sum ≤
          ((ofAssignments key xs).map f).sum + f x := sum_upsert_le f x (ofAssignments key xs)
      rw [ofAssignments_append_singleton, List.map_append, List.sum_append, List.map_singleton,
        List.sum_singleton]
      omega

variable (key) in
/-- The first key that is assigned is the first key. -/
theorem exists_ofAssignments_cons (x : α) (xs : List α) :
    ∃ y ys, ofAssignments key (x :: xs) = y :: ys ∧ key y = key x := by
  induction xs using List.reverseRecOn with
  | nil => exact ⟨x, [], rfl, rfl⟩
  | append_singleton xs z ih =>
      obtain ⟨y, ys, hassigned, hkey⟩ := ih
      rw [← List.cons_append, ofAssignments_append_singleton, hassigned, upsert]
      split
      · rename_i heq
        exact ⟨z, ys, rfl, heq.symm.trans hkey⟩
      · exact ⟨y, _, rfl, hkey⟩

/-! ### The last assignment -/

theorem last_eq_some {k : κ} {xs : List α} {x : α} (h : last key k xs = some x) :
    x ∈ xs ∧ key x = k :=
  ⟨List.mem_reverse.mp (List.mem_of_find?_eq_some h), by simpa using List.find?_some h⟩

theorem last_eq_none {k : κ} {xs : List α} : last key k xs = none ↔ ∀ x ∈ xs, key x ≠ k := by
  simp [last]

theorem last_append (k : κ) (xs ys : List α) :
    last key k (xs ++ ys) = (last key k ys).or (last key k xs) := by
  simp [last]

theorem last_singleton (k : κ) (x : α) :
    last key k [x] = if key x = k then some x else none := by
  by_cases h : key x = k
  · simp [last, h]
  · simp [last, h]

theorem last_cons (k : κ) (x : α) (xs : List α) :
    last key k (x :: xs) = (last key k xs).or (if key x = k then some x else none) := by
  rw [← List.singleton_append, last_append, last_singleton]

/-- The last assignment of a mapped list. -/
theorem last_map {γ κ' : Type} [DecidableEq κ'] {keyOf : γ → κ'} {g : γ → α} {k : κ} {k' : κ'}
    {xs : List γ} (h : ∀ x ∈ xs, key (g x) = k ↔ keyOf x = k') :
    last key k (xs.map g) = (last keyOf k' xs).map g := by
  induction xs with
  | nil => rfl
  | cons x xs ih =>
      rw [List.map_cons, last_cons, last_cons, ih fun y hy => h y (List.mem_cons_of_mem _ hy)]
      by_cases hk : keyOf x = k'
      · rw [if_pos ((h x List.mem_cons_self).mpr hk), if_pos hk]
        cases last keyOf k' xs <;> rfl
      · rw [if_neg fun hg => hk ((h x List.mem_cons_self).mp hg), if_neg hk]
        cases last keyOf k' xs <;> rfl

/-- Of each block, only the first assignment is to the key. -/
theorem last_flatMap_cons {γ : Type} {g : γ → α} {f : γ → List α} {k : κ} {xs : List γ}
    (h : ∀ x ∈ xs, ∀ y ∈ f x, key y ≠ k) :
    last key k (xs.flatMap fun x => g x :: f x) = last key k (xs.map g) := by
  induction xs with
  | nil => rfl
  | cons x xs ih =>
      have hrest : last key k (f x) = none := last_eq_none.mpr (h x List.mem_cons_self)
      rw [List.flatMap_cons, last_append, ih fun y hy => h y (List.mem_cons_of_mem _ hy),
        List.map_cons, last_cons, last_cons, hrest, Option.none_or]

/-- A dictionary holds the last assignment to each key. -/
theorem mem_ofAssignments_iff {xs : List α} {x : α} :
    x ∈ ofAssignments key xs ↔ last key (key x) xs = some x := by
  have hfind : ∀ k, find key k (ofAssignments key xs) = last key k xs := by
    intro k
    induction xs using List.reverseRecOn with
    | nil => rfl
    | append_singleton xs y ih =>
        rw [ofAssignments_append_singleton, last_append, last_singleton]
        by_cases hk : key y = k
        · subst hk
          rw [find_upsert_self, if_pos rfl, Option.some_or]
        · rw [find_upsert_of_ne (Ne.symm hk), ih, if_neg hk, Option.none_or]
  rw [← hfind]
  constructor
  · exact find_of_mem (nodup_ofAssignments xs)
  · exact fun h => (find_eq_some h).1

section Blocks

variable {β : Type} {f : β → List α}

theorem last_flatMap_eq_none {k : κ} {bs : List β} :
    last key k (bs.flatMap f) = none ↔ ∀ b ∈ bs, last key k (f b) = none := by
  simp only [last_eq_none, List.mem_flatMap]
  constructor
  · exact fun h b hb x hx => h x ⟨b, hb, hx⟩
  · rintro h x ⟨b, hb, hx⟩
    exact h b hb x hx

theorem exists_of_last_flatMap {k : κ} {bs : List β} {x : α}
    (h : last key k (bs.flatMap f) = some x) : ∃ b ∈ bs, last key k (f b) = some x := by
  induction bs with
  | nil => cases h
  | cons b rest ih =>
      rw [List.flatMap_cons, last_append] at h
      rcases Option.or_eq_some_iff.mp h with h | ⟨-, h⟩
      · obtain ⟨b', hb', hx⟩ := ih h
        exact ⟨b', List.mem_cons_of_mem _ hb', hx⟩
      · exact ⟨b, List.mem_cons_self, h⟩

/-- Blocks of assignments may come in any order exactly if any two of them agree
on what they leave under a key. -/
theorem ofAssignments_perm_iff (base : List α) (bs : List β) :
    (∀ bs' : List β, bs'.Perm bs → ∀ x, x ∈ ofAssignments key (base ++ bs'.flatMap f) ↔
      x ∈ ofAssignments key (base ++ bs.flatMap f)) ↔
    ∀ b ∈ bs, ∀ b' ∈ bs, ∀ k x x', last key k (f b) = some x → last key k (f b') = some x' →
      x = x' := by
  constructor
  · intro hall b hb b' hb' k x x' hx hx'
    -- the block that comes last decides, and each of them may
    have hmem : ∀ b ∈ bs, ∀ x, last key k (f b) = some x →
        x ∈ ofAssignments key (base ++ bs.flatMap f) := by
      intro b hb x hx
      obtain ⟨before, after, rfl⟩ := List.append_of_mem hb
      have hperm : ((before ++ after) ++ [b]).Perm (before ++ b :: after) :=
        (List.perm_append_singleton b (before ++ after)).trans List.perm_middle.symm
      refine (hall _ hperm x).mp (mem_ofAssignments_iff.mpr ?_)
      rw [(last_eq_some hx).2, List.flatMap_append, ← List.append_assoc, last_append,
        List.flatMap_singleton, hx, Option.some_or]
    exact List.inj_on_of_nodup_map (nodup_ofAssignments _) (hmem b hb x hx) (hmem b' hb' x' hx')
      ((last_eq_some hx).2.trans (last_eq_some hx').2.symm)
  · intro hagree bs' hperm x
    have hlast : ∀ k, last key k (bs'.flatMap f) = last key k (bs.flatMap f) := by
      intro k
      cases hbs : last key k (bs.flatMap f) with
      | none =>
          rw [last_flatMap_eq_none] at hbs ⊢
          exact fun b hb => hbs b (hperm.mem_iff.mp hb)
      | some y =>
          obtain ⟨b, hb, hy⟩ := exists_of_last_flatMap hbs
          cases hbs' : last key k (bs'.flatMap f) with
          | none =>
              rw [last_flatMap_eq_none.mp hbs' b (hperm.mem_iff.mpr hb)] at hy
              cases hy
          | some z =>
              obtain ⟨b', hb', hz⟩ := exists_of_last_flatMap hbs'
              rw [hagree b hb b' (hperm.mem_iff.mp hb') k y z hy hz]
    rw [mem_ofAssignments_iff, mem_ofAssignments_iff, last_append, last_append, hlast]

/-- With distinct keys, every order finds the same. -/
theorem find_perm {keyOf : β → κ} {bs bs' : List β} (hperm : bs'.Perm bs)
    (hnd : (bs.map keyOf).Nodup) (k : κ) : find keyOf k bs' = find keyOf k bs := by
  cases hfind : find keyOf k bs with
  | none =>
      rw [find_eq_none] at hfind ⊢
      rwa [(hperm.map keyOf).mem_iff]
  | some b =>
      obtain ⟨hmem, rfl⟩ := find_eq_some hfind
      exact find_of_mem ((hperm.map keyOf).nodup_iff.mpr hnd) (hperm.mem_iff.mpr hmem)

/-- Blocks with a key each: the members with a key are the block of it. -/
theorem filter_flatMap {keyOf : β → κ} {bs : List β} (hnd : (bs.map keyOf).Nodup)
    (hkey : ∀ b ∈ bs, ∀ x ∈ f b, key x = keyOf b) (k : κ) :
    (bs.flatMap f).filter (fun x => key x = k) = ((find keyOf k bs).map f).getD [] := by
  induction bs with
  | nil => rfl
  | cons b rest ih =>
      obtain ⟨hnot, hnd⟩ := List.nodup_cons.mp hnd
      have hrest := ih hnd fun b' hb' => hkey b' (List.mem_cons_of_mem _ hb')
      rw [List.flatMap_cons, List.filter_append, hrest]
      by_cases hb : keyOf b = k
      · have hall : (f b).filter (fun x => key x = k) = f b := by
          rw [List.filter_eq_self]
          intro x hx
          simp [hkey b List.mem_cons_self x hx, hb]
        have hnone : find keyOf k rest = none := find_eq_none.mpr (hb ▸ hnot)
        rw [hall, hnone, find, List.find?_cons_of_pos (by simp [hb])]
        simp
      · have hnone : (f b).filter (fun x => key x = k) = [] := by
          rw [List.filter_eq_nil_iff]
          intro x hx
          simp [hkey b List.mem_cons_self x hx, hb]
        rw [hnone, List.nil_append, find, find, List.find?_cons_of_neg (by simp [hb])]

end Blocks

/-! ### Merged lists -/

section Merged

variable (key) in
/-- The members with a key are the same, in the same order. -/
def SameByKey (xs ys : List α) : Prop :=
  ∀ k, xs.filter (fun x => key x = k) = ys.filter (fun x => key x = k)

variable {xs ys : List α}

theorem SameByKey.perm (h : SameByKey key xs ys) : xs.Perm ys := by
  classical
  rw [List.perm_iff_count]
  intro x
  have hself : decide (key x = key x) = true := decide_eq_true rfl
  have hcount : ∀ zs : List α, (zs.filter fun y => key y = key x).count x = zs.count x :=
    fun zs => List.count_filter hself
  rw [← hcount xs, h (key x), hcount ys]

theorem SameByKey.filter (h : SameByKey key xs ys) (p : α → Bool) :
    SameByKey key (xs.filter p) (ys.filter p) := by
  have hcomm : ∀ (zs : List α) (k : κ), (zs.filter p).filter (fun x => key x = k) =
      (zs.filter fun x => key x = k).filter p := by
    intro zs k
    rw [List.filter_filter, List.filter_filter]
    exact congrArg (zs.filter ·) (funext fun x => Bool.and_comm _ _)
  intro k
  rw [hcomm, hcomm, h k]

/-- `eraseDups` leaves no duplicate. -/
theorem nodup_eraseDups {β : Type} [DecidableEq β] (xs : List β) : xs.eraseDups.Nodup := by
  induction hlength : xs.length using Nat.strongRecOn generalizing xs with
  | ind n ih =>
      cases xs with
      | nil => exact List.nodup_nil
      | cons x rest =>
          rw [List.eraseDups_cons, List.nodup_cons]
          refine ⟨?_, ih _ ?_ _ rfl⟩
          · rw [List.mem_eraseDups]
            simp
          · rw [← hlength, List.length_cons]
            exact Nat.lt_succ_of_le (List.length_filter_le _ _)

/-- A search for a key looks at the members with it. -/
theorem findSome?_filter_key {β : Type} {f : α → Option β} {k : κ}
    (hf : ∀ x, key x ≠ k → f x = none) (xs : List α) :
    xs.findSome? f = (xs.filter fun x => key x = k).findSome? f := by
  induction xs with
  | nil => rfl
  | cons x xs ih =>
      by_cases hx : key x = k
      · rw [List.filter_cons_of_pos (by simp [hx]), List.findSome?_cons, List.findSome?_cons, ih]
      · rw [List.filter_cons_of_neg (by simp [hx]), List.findSome?_cons, hf x hx, ih]

end Merged

/-! ### Groups -/

/-- A group holds exactly the members with its key. -/
theorem mem_group {xs : List α} {g : κ × List α} (hg : g ∈ groups key xs) {x : α} :
    x ∈ g.2 ↔ x ∈ xs ∧ key x = g.1 := by
  obtain ⟨k, -, rfl⟩ := List.mem_map.mp hg
  simp

/-- A group has a member. -/
theorem exists_mem_of_group {xs : List α} {g : κ × List α} (hg : g ∈ groups key xs) :
    ∃ x ∈ xs, key x = g.1 := by
  obtain ⟨k, hk, rfl⟩ := List.mem_map.mp hg
  exact List.mem_map.mp (List.mem_eraseDups.mp hk)

/-- Every member is in the group of its key. -/
theorem exists_group {xs : List α} {x : α} (h : x ∈ xs) :
    ∃ g ∈ groups key xs, g.1 = key x ∧ x ∈ g.2 := by
  refine ⟨(key x, xs.filter fun y => key y = key x), List.mem_map.mpr ⟨key x, ?_, rfl⟩, rfl, ?_⟩
  · rw [List.mem_eraseDups]
    exact List.mem_map_of_mem h
  · simp [h]

/-- The groups of a view of the members, which keeps their keys. -/
theorem groups_map {β : Type} {keyOf : β → κ} {f : α → β} (hkey : ∀ x, keyOf (f x) = key x)
    (xs : List α) : groups keyOf (xs.map f) = (groups key xs).map fun g => (g.1, g.2.map f) := by
  have hkeys : (xs.map f).map keyOf = xs.map key := by
    rw [List.map_map]
    exact List.map_congr_left fun x _ => hkey x
  have hgroup : ∀ k, (xs.map f).filter (fun y => keyOf y = k) =
      (xs.filter fun x => key x = k).map f := by
    intro k
    rw [List.filter_map]
    refine congrArg (List.map f) (List.filter_congr fun x _ => ?_)
    simp only [Function.comp_apply, hkey]
  rw [groups, groups, hkeys, List.map_map]
  exact List.map_congr_left fun k _ => by rw [hgroup, Function.comp_apply]

end Ordered
