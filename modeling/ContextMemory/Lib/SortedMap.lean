/-
Maps as lists of entries in the order of their keys.

`insert` splits the list at the key, so it needs no balance and its lemmas are lemmas on filters.
What it does to the entries, up to their order, is `insert_perm`; what it keeps is `Sorted`.
`ascending` lists a set in order.
-/

import Mathlib.Data.List.Basic
import Mathlib.Order.Basic
import Mathlib.Order.Defs.LinearOrder
import Mathlib.Data.List.Nodup
import Mathlib.Data.Finset.Sort

namespace SortedMap

variable {κ α : Type} [LinearOrder κ] {k k' : κ} {v : α} {m : List (κ × α)} {e : κ × α}

/-- The keys ascend. -/
def Sorted (m : List (κ × α)) : Prop := m.Pairwise fun a b => a.1 < b.1

def get (k : κ) (m : List (κ × α)) : Option α := (m.find? fun e => e.1 = k).map Prod.snd

def erase (k : κ) (m : List (κ × α)) : List (κ × α) := m.filter fun e => e.1 ≠ k

def insert (k : κ) (v : α) (m : List (κ × α)) : List (κ × α) :=
  (m.filter fun e => e.1 < k) ++ (k, v) :: m.filter fun e => k < e.1

/-- The value of a key, changed in place. -/
def modify (k : κ) (f : α → α) (m : List (κ × α)) : List (κ × α) :=
  m.map fun e => if e.1 = k then (e.1, f e.2) else e

/-! ### Members -/

theorem mem_erase : e ∈ erase k m ↔ e ∈ m ∧ e.1 ≠ k := by
  simp [erase]

theorem mem_insert : e ∈ insert k v m ↔ e = (k, v) ∨ e ∈ m ∧ e.1 ≠ k := by
  simp only [insert, List.mem_append, List.mem_cons, List.mem_filter, decide_eq_true_eq,
    ne_iff_lt_or_gt]
  tauto

theorem insert_perm (k : κ) (v : α) (m : List (κ × α)) :
    (insert k v m).Perm ((k, v) :: erase k m) := by
  have hsplit : ((m.filter fun e => e.1 < k) ++ m.filter fun e => k < e.1).Perm (erase k m) := by
    induction m with
    | nil => exact .refl _
    | cons e m ih =>
        rcases lt_trichotomy e.1 k with hlt | heq | hgt
        · simpa [erase, hlt, hlt.not_gt, hlt.ne] using ih
        · simpa [erase, heq] using ih
        · simp only [erase, List.filter_cons, hgt, hgt.not_gt, hgt.ne', decide_true, decide_false,
            ne_eq, not_false_eq_true, if_true, Bool.false_eq_true, if_false]
          exact List.perm_middle.trans (ih.cons e)
  exact List.perm_middle.trans (hsplit.cons _)

/-! ### Order -/

theorem Sorted.sublist {m' : List (κ × α)} (h : Sorted m) (hsub : m'.Sublist m) : Sorted m' :=
  List.Pairwise.sublist hsub h

theorem Sorted.erase (h : Sorted m) : Sorted (erase k m) := h.sublist List.filter_sublist

theorem Sorted.insert (h : Sorted m) : Sorted (insert k v m) := by
  refine List.pairwise_append.mpr ⟨h.sublist List.filter_sublist,
    List.pairwise_cons.mpr ⟨fun e he => ?_, h.sublist List.filter_sublist⟩, fun e he e' he' => ?_⟩
  · exact of_decide_eq_true (List.mem_filter.mp he).2
  · have hlow : e.1 < k := of_decide_eq_true (List.mem_filter.mp he).2
    rcases List.mem_cons.mp he' with rfl | he'
    · exact hlow
    · exact hlow.trans (of_decide_eq_true (List.mem_filter.mp he').2)

theorem Sorted.modify {f : α → α} (h : Sorted m) : Sorted (modify k f m) := by
  refine List.pairwise_map.mpr (h.imp fun {a b} hab => ?_)
  split <;> split <;> exact hab

theorem Sorted.nodup (h : Sorted m) : (m.map Prod.fst).Nodup :=
  List.pairwise_map.mpr (h.imp fun hlt => hlt.ne)

/-- A key has one entry. -/
theorem Sorted.eq_of_key (h : Sorted m) {e' : κ × α} (he : e ∈ m) (he' : e' ∈ m)
    (hkey : e.1 = e'.1) : e = e' := List.inj_on_of_nodup_map h.nodup he he' hkey

/-- The entries, up to their order: the one of a key and the others. -/
theorem Sorted.perm_erase (h : Sorted m) (he : e ∈ m) : m.Perm (e :: SortedMap.erase e.1 m) := by
  induction m with
  | nil => cases he
  | cons e' m ih =>
      obtain ⟨hhead, htail⟩ := List.pairwise_cons.mp h
      have hrest : SortedMap.erase e'.1 m = m := by
        refine List.filter_eq_self.mpr fun e'' he'' => decide_eq_true (hhead e'' he'').ne'
      rcases List.mem_cons.mp he with rfl | he
      · have hself : SortedMap.erase e.1 (e :: m) = SortedMap.erase e.1 m := by simp [SortedMap.erase]
        rw [hself, hrest]
      · have hkeep : SortedMap.erase e.1 (e' :: m) = e' :: SortedMap.erase e.1 m := by
          simp [SortedMap.erase, (hhead e he).ne]
        rw [hkeep]
        exact ((ih htail he).cons e').trans (List.Perm.swap e e' _)

/-! ### Lookups -/

theorem mem_of_get (h : get k m = some v) : (k, v) ∈ m := by
  obtain ⟨e, he, rfl⟩ := Option.map_eq_some_iff.mp h
  have hkey : e.1 = k := by simpa using List.find?_some he
  exact hkey ▸ List.mem_of_find?_eq_some he

theorem get_eq_none_iff : get k m = none ↔ ∀ e ∈ m, e.1 ≠ k := by
  simp [get, List.find?_eq_none]

theorem Sorted.get_of_mem (h : Sorted m) (he : (k, v) ∈ m) : get k m = some v := by
  cases hget : get k m with
  | none => exact absurd rfl (get_eq_none_iff.mp hget _ he)
  | some v' =>
      have heq := h.eq_of_key (mem_of_get hget) he rfl
      rw [(Prod.mk.inj heq).2]

theorem Sorted.get_eq_some_iff (h : Sorted m) : get k m = some v ↔ (k, v) ∈ m :=
  ⟨mem_of_get, h.get_of_mem⟩

theorem Sorted.get_insert (h : Sorted m) :
    get k' (SortedMap.insert k v m) = if k' = k then some v else get k' m := by
  split
  · rename_i heq
    exact h.insert.get_of_mem (mem_insert.mpr (.inl (heq ▸ rfl)))
  · rename_i hne
    ext v'
    rw [h.insert.get_eq_some_iff, h.get_eq_some_iff, mem_insert]
    simp [hne]

theorem Sorted.get_erase (h : Sorted m) :
    get k' (SortedMap.erase k m) = if k' = k then none else get k' m := by
  ext v'
  rw [h.erase.get_eq_some_iff, mem_erase]
  by_cases heq : k' = k
  · simp [heq]
  · simp [heq, h.get_eq_some_iff]

theorem isSome_get_iff : (get k m).isSome = true ↔ ∃ v, (k, v) ∈ m := by
  constructor
  · intro h
    obtain ⟨v, hv⟩ := Option.isSome_iff_exists.mp h
    exact ⟨v, mem_of_get hv⟩
  · rintro ⟨v, hv⟩
    by_contra hnone
    exact get_eq_none_iff.mp (Option.not_isSome_iff_eq_none.mp hnone) _ hv rfl

/-- Maps that agree at every key are the same list. -/
theorem Sorted.ext {m' : List (κ × α)} (h : Sorted m) (h' : Sorted m')
    (hget : ∀ k, get k m = get k m') : m = m' := by
  have hmem : ∀ e, e ∈ m ↔ e ∈ m' := by
    intro e
    rw [← h.get_eq_some_iff, ← h'.get_eq_some_iff, hget]
  have hperm : m.Perm m' :=
    (List.perm_ext_iff_of_nodup (List.Nodup.of_map _ h.nodup) (List.Nodup.of_map _ h'.nodup)).mpr hmem
  refine hperm.eq_of_pairwise (fun a b _ _ hab hba => ?_) h h'
  exact absurd hab hba.not_gt

/-- A value put under many keys. -/
theorem Sorted.foldl_insert (h : Sorted m) (keys : List κ) :
    Sorted (keys.foldl (fun m k => SortedMap.insert k v m) m) ∧
      ∀ k, get k (keys.foldl (fun m k => SortedMap.insert k v m) m) =
        if k ∈ keys then some v else get k m := by
  induction keys generalizing m with
  | nil => exact ⟨h, fun k => (if_neg List.not_mem_nil).symm⟩
  | cons head rest ih =>
      obtain ⟨hsorted, hget⟩ := ih (h.insert (k := head) (v := v))
      refine ⟨hsorted, fun k => ?_⟩
      rw [List.foldl_cons, hget k, h.get_insert]
      by_cases hrest : k ∈ rest
      · rw [if_pos hrest, if_pos (List.mem_cons_of_mem _ hrest)]
      · simp only [List.mem_cons, hrest, or_false, if_false]

/-- Many keys taken out. -/
theorem Sorted.foldl_erase (h : Sorted m) (keys : List κ) :
    Sorted (keys.foldl (fun m k => SortedMap.erase k m) m) ∧
      ∀ k, get k (keys.foldl (fun m k => SortedMap.erase k m) m) =
        if k ∈ keys then none else get k m := by
  induction keys generalizing m with
  | nil => exact ⟨h, fun k => (if_neg List.not_mem_nil).symm⟩
  | cons head rest ih =>
      obtain ⟨hsorted, hget⟩ := ih (h.erase (k := head))
      refine ⟨hsorted, fun k => ?_⟩
      rw [List.foldl_cons, hget k, h.get_erase]
      by_cases hrest : k ∈ rest
      · rw [if_pos hrest, if_pos (List.mem_cons_of_mem _ hrest)]
      · simp only [List.mem_cons, hrest, or_false, if_false]

/-! ### Sets in order -/

theorem insertionSort_congr {l l' : List κ} (h : l.Perm l') :
    l.insertionSort (· ≤ ·) = l'.insertionSort (· ≤ ·) :=
  ((l.perm_insertionSort _).trans (h.trans (l'.perm_insertionSort _).symm)).eq_of_pairwise'
    (List.pairwise_insertionSort ..) (List.pairwise_insertionSort ..)

/-- The members of a set in order, by a sort that evaluates step by step. -/
def ascending (s : Finset κ) : List κ :=
  Quot.lift (fun l : List κ => l.insertionSort (· ≤ ·)) (fun _ _ h => insertionSort_congr h) s.val

theorem ascending_eq_sort (s : Finset κ) : ascending s = s.sort (· ≤ ·) := by
  obtain ⟨⟨l⟩, hnodup⟩ := s
  exact (List.mergeSort_eq_insertionSort (· ≤ ·) l).symm

end SortedMap
