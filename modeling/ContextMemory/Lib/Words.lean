/-
Words of a fixed number of bytes, the least significant byte first, and blocks that lie end to end
in a list.
-/

import Mathlib.Algebra.GroupWithZero.Nat
import Mathlib.Data.List.Basic
import Mathlib.Logic.Function.Basic

namespace Words

/-! ### Bytes of a word -/

def leBytes : Nat → Nat → List UInt8
  | 0, _ => []
  | width + 1, n => UInt8.ofNat n :: leBytes width (n / 256)

def ofLeBytes : List UInt8 → Nat
  | [] => 0
  | byte :: bytes => byte.toNat + 256 * ofLeBytes bytes

@[simp] theorem length_leBytes (width n : Nat) : (leBytes width n).length = width := by
  induction width generalizing n with
  | zero => rfl
  | succ width ih => rw [leBytes, List.length_cons, ih]

theorem ofLeBytes_leBytes {width n : Nat} (h : n < 256 ^ width) : ofLeBytes (leBytes width n) = n := by
  induction width generalizing n with
  | zero =>
      rw [Nat.pow_zero, Nat.lt_one_iff] at h
      rw [h]
      rfl
  | succ width ih =>
      have hrest : n / 256 < 256 ^ width := Nat.div_lt_of_lt_mul (by rwa [Nat.pow_succ'] at h)
      rw [leBytes, ofLeBytes, ih hrest, UInt8.toNat_ofNat']
      exact Nat.mod_add_div n 256

theorem ofLeBytes_lt (bytes : List UInt8) : ofLeBytes bytes < 256 ^ bytes.length := by
  induction bytes with
  | nil => exact Nat.one_pos
  | cons byte bytes ih =>
      have hbyte := byte.toNat_lt
      rw [ofLeBytes, List.length_cons, Nat.pow_succ']
      omega

/-- The bytes of a word are the only ones that are read as it. -/
theorem leBytes_ofLeBytes (bytes : List UInt8) : leBytes bytes.length (ofLeBytes bytes) = bytes := by
  induction bytes with
  | nil => rfl
  | cons byte bytes ih =>
      have hbyte := byte.toNat_lt
      have hdiv : (byte.toNat + 256 * ofLeBytes bytes) / 256 = ofLeBytes bytes := by omega
      rw [List.length_cons, leBytes, ofLeBytes, hdiv, ih]
      congr 1
      apply UInt8.toNat_inj.mp
      rw [UInt8.toNat_ofNat']
      omega

/-! ### Blocks -/

variable {α : Type}

/-- A range of a list, where it has one. -/
def slice (l : List α) (start stop : Nat) : Option (List α) :=
  if start ≤ stop ∧ stop ≤ l.length then some ((l.drop start).take (stop - start)) else none

theorem slice_append (pre block post : List α) :
    slice (pre ++ block ++ post) pre.length (pre.length + block.length) = some block := by
  have hbounds : pre.length ≤ pre.length + block.length ∧
      pre.length + block.length ≤ (pre ++ block ++ post).length := by
    rw [List.length_append, List.length_append]
    omega
  rw [slice, if_pos hbounds, List.append_assoc, List.drop_left, Nat.add_sub_cancel_left,
    List.take_left]

/-- What is read at the end of a part of a list is how the rest begins. -/
theorem slice_append_eq_some {pre post block : List α} {n : Nat} :
    slice (pre ++ post) pre.length (pre.length + n) = some block ↔
      block.length = n ∧ ∃ rest, post = block ++ rest := by
  constructor
  · intro h
    unfold slice at h
    split at h
    · rename_i hbounds
      obtain rfl := Option.some.inj h
      rw [List.drop_left, Nat.add_sub_cancel_left]
      rw [List.length_append] at hbounds
      refine ⟨?_, post.drop n, (List.take_append_drop n post).symm⟩
      rw [List.length_take]
      omega
    · cases h
  · rintro ⟨rfl, rest, rfl⟩
    rw [← List.append_assoc]
    exact slice_append ..

/-- A range within a list is found. -/
theorem slice_total {l : List α} {start stop : Nat} (hle : start ≤ stop) (hstop : stop ≤ l.length) :
    ∃ block, slice l start stop = some block ∧ block ⊆ l :=
  ⟨_, if_pos ⟨hle, hstop⟩, fun _ ha => List.mem_of_mem_drop (List.mem_of_mem_take ha)⟩

/-- The sums of the first numbers, one for each number. -/
def runningSums : Nat → List Nat → List Nat
  | _, [] => []
  | sum, n :: rest => (sum + n) :: runningSums (sum + n) rest

@[simp] theorem length_runningSums (sum : Nat) (l : List Nat) : (runningSums sum l).length = l.length := by
  induction l generalizing sum with
  | nil => rfl
  | cons n rest ih => rw [runningSums, List.length_cons, ih, List.length_cons]

/-- The sum before each number, and after the last one. -/
theorem getElem?_runningSums (sum : Nat) (l l' : List Nat) :
    (sum :: runningSums sum (l ++ l'))[l.length]? = some (sum + l.sum) := by
  induction l generalizing sum with
  | nil => rfl
  | cons n l ih =>
      rw [List.cons_append, runningSums, List.length_cons, List.getElem?_cons_succ, ih, List.sum_cons,
        Nat.add_assoc]

theorem getLast?_runningSums (sum : Nat) (l : List Nat) :
    (sum :: runningSums sum l).getLast? = some (sum + l.sum) := by
  induction l generalizing sum with
  | nil => rfl
  | cons n l ih => rw [runningSums, List.getLast?_cons_cons, ih, List.sum_cons, Nat.add_assoc]

theorem isChain_runningSums (sum : Nat) (l : List Nat) :
    (sum :: runningSums sum l).IsChain (· ≤ ·) := by
  induction l generalizing sum with
  | nil => exact .singleton _
  | cons n l ih => exact .cons_cons (Nat.le_add_right ..) (ih _)

/-! ### Blocks by key -/

variable {κ : Type} {key : κ} {keys pre post : List κ} {size : κ → Nat}

theorem flatMap_append_cons (content : κ → List α) :
    (pre ++ key :: post).flatMap content =
      pre.flatMap content ++ (content key ++ post.flatMap content) := by
  rw [List.flatMap_append, List.flatMap_cons]

theorem flatMap_replicate (a : α) (keys : List κ) :
    keys.flatMap (fun key => List.replicate (size key) a) = List.replicate (keys.map size).sum a := by
  induction keys with
  | nil => rfl
  | cons k keys ih =>
      rw [List.flatMap_cons, ih, List.map_cons, List.sum_cons, List.replicate_append_replicate]

theorem length_flatMap {content : κ → List α} (h : ∀ key, (content key).length = size key) :
    (keys.flatMap content).length = (keys.map size).sum := by
  rw [List.length_flatMap]
  exact congrArg List.sum (List.map_congr_left fun key _ => h key)

variable [DecidableEq κ]

/-- Where the block of a key begins, in the order of the keys. -/
def start (size : κ → Nat) : List κ → κ → Nat
  | [], _ => 0
  | k :: keys, key => if k = key then 0 else size k + start size keys key

theorem start_append (hpre : key ∉ pre) :
    start size (pre ++ key :: post) key = (pre.map size).sum := by
  induction pre with
  | nil => exact if_pos rfl
  | cons k pre ih =>
      obtain ⟨hne, hpre⟩ := not_or.mp (mt List.mem_cons.mpr hpre)
      rw [List.cons_append, start, if_neg (Ne.symm hne), ih hpre, List.map_cons, List.sum_cons]

/-- The blocks begin at the sums of the sizes before them. -/
theorem map_start (hkeys : keys.Nodup) (sum : Nat) :
    keys.map (fun key => sum + start size keys key) =
      (sum :: runningSums sum (keys.map size)).take keys.length := by
  induction keys generalizing sum with
  | nil => rfl
  | cons k keys ih =>
      obtain ⟨hfresh, hkeys⟩ := List.nodup_cons.mp hkeys
      have hrest : ∀ key ∈ keys, sum + start size (k :: keys) key =
          sum + size k + start size keys key := by
        intro key hkey
        have hne : k ≠ key := fun h => hfresh (h ▸ hkey)
        rw [start, if_neg hne, Nat.add_assoc]
      rw [List.map_cons, List.map_congr_left hrest, ih hkeys, start, if_pos rfl, List.map_cons,
        runningSums, List.length_cons, List.take_succ_cons, Nat.add_zero]

/-- The value of a key is changed at its place. -/
theorem modify_map {β : Type} (hkeys : keys.Nodup) (hkey : key ∈ keys) (f : κ → β) (g : β → β) :
    (keys.map f).modify (keys.idxOf key) g = keys.map (Function.update f key (g (f key))) := by
  induction keys with
  | nil => cases hkey
  | cons k keys ih =>
      obtain ⟨hfresh, hkeys⟩ := List.nodup_cons.mp hkeys
      by_cases heq : k = key
      · subst heq
        have hrest : ∀ k' ∈ keys, Function.update f k (g (f k)) k' = f k' :=
          fun k' hk' => Function.update_of_ne (ne_of_mem_of_not_mem hk' hfresh) _ _
        rw [List.idxOf_cons_self, List.map_cons, List.modify_zero_cons, List.map_cons,
          List.map_congr_left hrest, Function.update_self]
      · have hrest := (List.mem_cons.mp hkey).resolve_left (Ne.symm heq)
        rw [List.idxOf_cons_ne _ heq, List.map_cons, List.modify_succ_cons, ih hkeys hrest,
          List.map_cons, Function.update_of_ne heq]

theorem set_map {β : Type} (hkeys : keys.Nodup) (hkey : key ∈ keys) (f : κ → β) (b : β) :
    (keys.map f).set (keys.idxOf key) b = keys.map (Function.update f key b) := by
  rw [← modify_map hkeys hkey f fun _ => b]
  exact List.set_eq_modify ..

theorem getD_map {β : Type} (hkey : key ∈ keys) (f : κ → β) (b : β) :
    (keys.map f).getD (keys.idxOf key) b = f key := by
  rw [List.getD_eq_getElem?_getD, List.getElem?_map, List.getElem?_idxOf hkey]
  rfl

/-- One block is exchanged for another. -/
theorem flatMap_update (content : κ → List α) (block : List α) (hpre : key ∉ pre)
    (hpost : key ∉ post) :
    (pre ++ key :: post).flatMap (Function.update content key block) =
      pre.flatMap content ++ (block ++ post.flatMap content) := by
  have hother : ∀ l : List κ, key ∉ l →
      l.flatMap (Function.update content key block) = l.flatMap content := by
    intro l hl
    exact List.flatMap_congr fun k hk => Function.update_of_ne (ne_of_mem_of_not_mem hk hl) _ _
  rw [List.flatMap_append, List.flatMap_cons, hother pre hpre, hother post hpost,
    Function.update_self]

end Words
