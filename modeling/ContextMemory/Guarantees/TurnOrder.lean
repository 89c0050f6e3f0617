/-
The numbering of turns.

`add_turn_async` reads the next index in one statement and writes it in another. Whatever the
calls do, the indices of a conversation have no gap (`Gapless`); they are distinct exactly if no
other row of the conversation is inserted between the two statements of a call
(`turns_numbered_iff`).
-/

import Mathlib.Data.List.Perm.Basic
import Mathlib.Data.List.Nodup
import ContextMemory.Ingestion.MemoryEngine

namespace ContextMemory

namespace MemoryEngine

/-! ### Indices -/

theorem indices_append (rows : List BufferRow) (turn : Turn) (n : Nat)
    (conversation : String × String) : indices (rows ++ [turn.row n]) conversation =
      indices rows conversation ++ if turn.conversation = conversation then [n] else [] := by
  have hrow : (turn.row n).conversation = turn.conversation := rfl
  rw [indices, List.filter_append, List.map_append, ← indices, List.filter_singleton, hrow]
  by_cases h : turn.conversation = conversation
  · simp [h, Turn.row]
  · simp [h]

theorem lt_nextIndex {rows : List BufferRow} {conversation : String × String} {k : Nat}
    (h : k ∈ indices rows conversation) : k < nextIndex rows conversation := by
  unfold nextIndex
  split
  · rename_i hmax
    rw [List.max?_eq_none_iff.mp hmax] at h
    cases h
  · rename_i m hmax
    have hle := (List.max?_eq_some_iff.mp hmax).2 k h
    omega

theorem nextIndex_le {rows : List BufferRow} {conversation : String × String} {m : Nat}
    (h : ∀ k ∈ indices rows conversation, k < m) : nextIndex rows conversation ≤ m := by
  unfold nextIndex
  split
  · exact Nat.zero_le m
  · rename_i k hmax
    exact h k (List.max?_eq_some_iff.mp hmax).1

theorem nextIndex_append (rows : List BufferRow) (turn : Turn) (n : Nat)
    (conversation : String × String) : nextIndex (rows ++ [turn.row n]) conversation =
      if turn.conversation = conversation then max (nextIndex rows conversation) (n + 1)
      else nextIndex rows conversation := by
  have hmem : ∀ k, k ∈ indices (rows ++ [turn.row n]) conversation ↔
      k ∈ indices rows conversation ∨ (turn.conversation = conversation ∧ k = n) := by
    intro k
    rw [indices_append, List.mem_append]
    by_cases h : turn.conversation = conversation
    · simp [h]
    · simp [h]
  apply Nat.le_antisymm
  · refine nextIndex_le fun k hk => ?_
    rcases (hmem k).mp hk with hk | ⟨hsame, rfl⟩
    · have hlt := lt_nextIndex hk
      split
      · omega
      · exact hlt
    · rw [if_pos hsame]
      omega
  · have hold : nextIndex rows conversation ≤ nextIndex (rows ++ [turn.row n]) conversation :=
      nextIndex_le fun k hk => lt_nextIndex ((hmem k).mpr (Or.inl hk))
    split
    · rename_i hsame
      have hnew := lt_nextIndex ((hmem n).mpr (Or.inr ⟨hsame, rfl⟩))
      omega
    · exact hold

/-! ### One statement -/

section Threads

variable {ι : Type} [DecidableEq ι] (calls : ι → Turn)

/-- Everything a statement can do. -/
inductive Executed (s : TurnTable ι) : Statement ι → TurnTable ι → Prop
  | selected {i} : s.progress i = .waiting → Executed s (.select i) ⟨s.rows, Function.update s.progress i
      (.read (nextIndex s.rows (calls i).conversation))⟩
  | selectFailed {i} : s.progress i = .waiting →
      Executed s (.select i) ⟨s.rows, Function.update s.progress i .failed⟩
  | inserted {i n} : s.progress i = .read n → (calls i).storable = true →
      Executed s (.insert i) ⟨s.rows ++ [(calls i).row n], Function.update s.progress i .inserted⟩
  | insertFailed {i n} : s.progress i = .read n → (calls i).storable = false →
      Executed s (.insert i) ⟨s.rows, Function.update s.progress i .failed⟩

variable {calls} {s s' : TurnTable ι} {statement : Statement ι}

theorem selectTurnIndex_eq_ok {rows : List BufferRow} {conversation : String × String} {n : Nat}
    (h : selectTurnIndex rows conversation = .ok n) : n = nextIndex rows conversation := by
  unfold selectTurnIndex at h
  split at h
  · cases h
  · split at h
    · cases h
    · cases h
      rfl

theorem executed_of_execute (h : execute calls s statement = some s') :
    Executed calls s statement s' := by
  cases statement with
  | select i =>
      simp only [execute] at h
      split at h
      · rename_i hwaiting
        split at h
        · rename_i n hselect
          cases h
          rw [selectTurnIndex_eq_ok hselect]
          exact .selected hwaiting
        · cases h
          exact .selectFailed hwaiting
      · cases h
  | insert i =>
      simp only [execute] at h
      split at h
      · rename_i n hread
        unfold insertTurn at h
        by_cases hstorable : (calls i).storable = true
        · rw [if_pos hstorable] at h
          cases h
          exact .inserted hread hstorable
        · rw [if_neg hstorable] at h
          cases h
          exact .insertFailed hread (by simpa using hstorable)
      · cases h

/-! ### What every statement keeps -/

variable (calls) in
/-- The indices of a conversation have no gap, and what a call read is not beyond them. -/
structure Gapless (s : TurnTable ι) : Prop where
  filled : ∀ conversation k, k < nextIndex s.rows conversation → k ∈ indices s.rows conversation
  read_le : ∀ i n, s.progress i = .read n → n ≤ nextIndex s.rows (calls i).conversation

omit [DecidableEq ι] in
theorem gapless_initial : Gapless calls ({} : TurnTable ι) where
  filled conversation k h := absurd h (Nat.not_lt_zero k)
  read_le i n h := by cases h

theorem Executed.nextIndex_le (h : Executed calls s statement s') (conversation : String × String) :
    nextIndex s.rows conversation ≤ nextIndex s'.rows conversation := by
  cases h with
  | selected _ => exact Nat.le_refl _
  | selectFailed _ => exact Nat.le_refl _
  | inserted _ _ =>
      rw [nextIndex_append]
      split
      · exact Nat.le_max_left _ _
      · exact Nat.le_refl _
  | insertFailed _ _ => exact Nat.le_refl _

theorem read_of_update {progress : ι → Progress} {i j : ι} {p : Progress} (hp : ∀ n, p ≠ .read n)
    {n : Nat} (h : Function.update progress j p i = .read n) : progress i = .read n := by
  by_cases hij : i = j
  · subst hij
    rw [Function.update_self] at h
    exact absurd h (hp n)
  · rwa [Function.update_of_ne hij] at h

/-- What a call has read it read now, or before. -/
theorem Executed.progress (h : Executed calls s statement s') {i : ι} {n : Nat}
    (hread : s'.progress i = .read n) : s.progress i = .read n ∨
      (statement = .select i ∧ n = nextIndex s.rows (calls i).conversation) := by
  cases h with
  | @selected j hwaiting =>
      by_cases hij : i = j
      · subst hij
        simp only [Function.update_self, Progress.read.injEq] at hread
        exact Or.inr ⟨rfl, hread.symm⟩
      · simp only [Function.update_of_ne hij] at hread
        exact Or.inl hread
  | selectFailed _ => exact Or.inl (read_of_update (by simp) hread)
  | inserted _ _ => exact Or.inl (read_of_update (by simp) hread)
  | insertFailed _ _ => exact Or.inl (read_of_update (by simp) hread)

theorem Executed.gapless (h : Executed calls s statement s') (hs : Gapless calls s) :
    Gapless calls s' := by
  have hread : ∀ i n, s'.progress i = .read n → n ≤ nextIndex s'.rows (calls i).conversation := by
    intro i n hn
    have hmono := h.nextIndex_le (calls i).conversation
    rcases h.progress hn with hold | ⟨-, rfl⟩
    · exact Nat.le_trans (hs.read_le i n hold) hmono
    · exact hmono
  refine ⟨fun conversation k hk => ?_, hread⟩
  cases h with
  | selected _ => exact hs.filled conversation k hk
  | selectFailed _ => exact hs.filled conversation k hk
  | @inserted i n hn _ =>
      rw [nextIndex_append] at hk
      rw [indices_append, List.mem_append]
      split at hk
      · rename_i hsame
        have hle := hs.read_le i n hn
        rw [hsame] at hle
        by_cases hnext : k < nextIndex s.rows conversation
        · exact Or.inl (hs.filled conversation k hnext)
        · refine Or.inr ?_
          rw [if_pos hsame, List.mem_singleton]
          omega
      · exact Or.inl (hs.filled conversation k hk)
  | insertFailed _ _ => exact hs.filled conversation k hk

/-- The rows stay. -/
theorem Executed.indices_stay (h : Executed calls s statement s') (conversation : String × String) :
    indices s.rows conversation <+: indices s'.rows conversation := by
  cases h with
  | selected _ => exact List.prefix_refl _
  | selectFailed _ => exact List.prefix_refl _
  | inserted _ _ =>
      rw [indices_append]
      exact List.prefix_append _ _
  | insertFailed _ _ => exact List.prefix_refl _

/-- A statement adds to a conversation only if it inserts a turn of it. -/
theorem Executed.indices_eq (h : Executed calls s statement s') {conversation : String × String}
    (hother : ∀ j, statement = .insert j → (calls j).storable = true →
      (calls j).conversation ≠ conversation) :
    indices s'.rows conversation = indices s.rows conversation := by
  cases h with
  | selected _ => rfl
  | selectFailed _ => rfl
  | inserted _ hstorable =>
      rw [indices_append, if_neg (hother _ rfl hstorable), List.append_nil]
  | insertFailed _ _ => rfl

theorem waiting_of_update {progress : ι → Progress} {i j : ι} {p : Progress} (hp : p ≠ .waiting)
    (h : Function.update progress j p i = .waiting) : progress i = .waiting := by
  by_cases hij : i = j
  · subst hij
    rw [Function.update_self] at h
    exact absurd h hp
  · rwa [Function.update_of_ne hij] at h

/-- A call that has begun does not read again. -/
theorem Executed.begun (h : Executed calls s statement s') {i : ι} {k : Nat}
    (hbegun : s.progress i ≠ .waiting ∧ ∀ n, s.progress i = .read n → n = k) :
    s'.progress i ≠ .waiting ∧ ∀ n, s'.progress i = .read n → n = k := by
  constructor
  · intro hwaiting
    cases h with
    | selected _ => exact hbegun.1 (waiting_of_update (by simp) hwaiting)
    | selectFailed _ => exact hbegun.1 (waiting_of_update (by simp) hwaiting)
    | inserted _ _ => exact hbegun.1 (waiting_of_update (by simp) hwaiting)
    | insertFailed _ _ => exact hbegun.1 (waiting_of_update (by simp) hwaiting)
  · intro n hread
    rcases h.progress hread with hold | ⟨rfl, -⟩
    · exact hbegun.2 n hold
    · cases h with
      | selected hwaiting => exact absurd hwaiting hbegun.1
      | selectFailed hwaiting => exact absurd hwaiting hbegun.1

omit [DecidableEq ι] in
/-- A turn whose index is new to its conversation was inserted with the next
one. -/
theorem Gapless.fresh (hs : Gapless calls s) {i : ι} {n : Nat} (hread : s.progress i = .read n)
    (hnodup : (indices (s.rows ++ [(calls i).row n]) (calls i).conversation).Nodup) :
    n = nextIndex s.rows (calls i).conversation := by
  refine Nat.le_antisymm (hs.read_le i n hread) (Nat.le_of_not_lt fun hlt => ?_)
  have hmem := hs.filled _ n hlt
  rw [indices_append, if_pos rfl] at hnodup
  exact (List.nodup_append.mp hnodup).2.2 n hmem n (List.mem_singleton_self n) rfl

/-! ### Runs -/

theorem executeAll_append (s : TurnTable ι) (xs ys : List (Statement ι)) :
    executeAll calls s (xs ++ ys) = (executeAll calls s xs).bind fun s => executeAll calls s ys := by
  induction xs generalizing s with
  | nil => rfl
  | cons x xs ih =>
      rw [List.cons_append, executeAll, executeAll]
      cases execute calls s x with
      | none => rfl
      | some s' => exact ih s'

theorem executeAll_append_eq_some {xs ys : List (Statement ι)} :
    executeAll calls s (xs ++ ys) = some s' ↔
      ∃ m, executeAll calls s xs = some m ∧ executeAll calls m ys = some s' := by
  rw [executeAll_append, Option.bind_eq_some_iff]

theorem executeAll_cons_eq_some {xs : List (Statement ι)} :
    executeAll calls s (statement :: xs) = some s' ↔
      ∃ m, execute calls s statement = some m ∧ executeAll calls m xs = some s' := by
  rw [executeAll, Option.bind_eq_some_iff]

/-- What every statement keeps, a run keeps. -/
theorem executeAll_invariant {P : TurnTable ι → Prop}
    (hstep : ∀ {s statement s'}, Executed calls s statement s' → P s → P s')
    {trace : List (Statement ι)} (h : executeAll calls s trace = some s') (hs : P s) : P s' := by
  induction trace generalizing s with
  | nil =>
      cases h
      exact hs
  | cons statement trace ih =>
      obtain ⟨m, hm, h⟩ := executeAll_cons_eq_some.mp h
      exact ih h (hstep (executed_of_execute hm) hs)

section Run

variable {trace : List (Statement ι)} (h : executeAll calls s trace = some s')
include h

theorem executeAll_gapless (hs : Gapless calls s) : Gapless calls s' :=
  executeAll_invariant (fun hstep => hstep.gapless) h hs

theorem executeAll_nextIndex_le (conversation : String × String) :
    nextIndex s.rows conversation ≤ nextIndex s'.rows conversation :=
  executeAll_invariant (P := fun m => nextIndex s.rows conversation ≤ nextIndex m.rows conversation)
    (fun hstep hm => Nat.le_trans hm (hstep.nextIndex_le conversation)) h (Nat.le_refl _)

/-- If the numbers are distinct at the end, they were so at every time before.
Rows are never changed. -/
theorem executeAll_nodup {conversation : String × String}
    (hnodup : (indices s'.rows conversation).Nodup) : (indices s.rows conversation).Nodup := by
  have hstay : indices s.rows conversation <+: indices s'.rows conversation :=
    executeAll_invariant (P := fun m => indices s.rows conversation <+: indices m.rows conversation)
      (fun hstep hm => hm.trans (hstep.indices_stay conversation)) h (List.prefix_refl _)
  exact hnodup.sublist hstay.sublist

/-- A call that has read its number keeps it until it inserts. No statement of
another call changes it. -/
theorem executeAll_begun {i : ι} {k : Nat}
    (hbegun : s.progress i ≠ .waiting ∧ ∀ n, s.progress i = .read n → n = k) {n : Nat}
    (hread : s'.progress i = .read n) : n = k :=
  (executeAll_invariant (P := fun s => s.progress i ≠ .waiting ∧ ∀ n, s.progress i = .read n → n = k)
    (fun hstep => hstep.begun) h hbegun).2 n hread

/-- Statements that insert into other conversations leave the numbers of this
one. -/
theorem executeAll_indices_eq {conversation : String × String}
    (hother : ∀ j, .insert j ∈ trace → (calls j).storable = true →
      (calls j).conversation ≠ conversation) :
    indices s'.rows conversation = indices s.rows conversation := by
  induction trace generalizing s with
  | nil =>
      cases h
      rfl
  | cons statement trace ih =>
      obtain ⟨m, hm, h⟩ := executeAll_cons_eq_some.mp h
      rw [ih h fun j hj => hother j (List.mem_cons_of_mem _ hj)]
      exact (executed_of_execute hm).indices_eq fun j hj => hother j (hj ▸ List.mem_cons_self)

end Run

/-! ### Numbering -/

/-- The turns of a conversation are numbered 0, 1, 2, ... without gaps, each once. -/
def Numbered (rows : List BufferRow) (conversation : String × String) : Prop :=
  (indices rows conversation).Nodup ∧
    ∀ n, n ∈ indices rows conversation ↔ n < (indices rows conversation).length

omit [DecidableEq ι] in
/-- Numbers without a gap are numbered from zero on exactly if none is given
twice. -/
theorem Gapless.numbered_iff (hs : Gapless calls s) (conversation : String × String) :
    Numbered s.rows conversation ↔ (indices s.rows conversation).Nodup := by
  refine ⟨fun h => h.1, fun hnodup => ⟨hnodup, fun n => ?_⟩⟩
  have hmem : ∀ k, k ∈ indices s.rows conversation ↔ k ∈ List.range (nextIndex s.rows conversation) :=
    fun k => ⟨fun hk => List.mem_range.mpr (lt_nextIndex hk),
      fun hk => hs.filled _ k (List.mem_range.mp hk)⟩
  have hperm := (List.perm_ext_iff_of_nodup hnodup List.nodup_range).mpr hmem
  rw [hmem, List.mem_range, hperm.length_eq, List.length_range]

variable (calls) in
/-- No other row of the conversation is inserted between the two statements of a call. -/
def Undisturbed (trace : List (Statement ι)) (conversation : String × String) : Prop :=
  ∀ before between after i, trace = before ++ .select i :: (between ++ .insert i :: after) →
    (calls i).conversation = conversation → (calls i).storable = true →
    ∀ j, .insert j ∈ between → (calls j).storable = true → (calls j).conversation ≠ conversation

variable {trace : List (Statement ι)}

omit [DecidableEq ι] in
/-- A run in which no call was disturbed has none disturbed in any first part of
it. -/
theorem Undisturbed.init {conversation : String × String}
    (h : Undisturbed calls (trace ++ [statement]) conversation) :
    Undisturbed calls trace conversation := by
  rintro before between after i rfl
  exact h before between (after ++ [statement]) i (by simp)

/-- What a call has read was the next index at its `SELECT`. -/
theorem read_from (h : executeAll calls {} trace = some s) {i : ι} {n : Nat}
    (hread : s.progress i = .read n) : ∃ before between m, trace = before ++ .select i :: between ∧
      n = nextIndex m.rows (calls i).conversation ∧ executeAll calls m between = some s := by
  induction trace using List.reverseRecOn generalizing s with
  | nil =>
      cases h
      cases hread
  | append_singleton trace statement ih =>
      obtain ⟨m, hm, hlast⟩ := executeAll_append_eq_some.mp h
      obtain ⟨m', hstep, hnil⟩ := executeAll_cons_eq_some.mp hlast
      cases hnil
      have hexecuted := executed_of_execute hstep
      rcases hexecuted.progress hread with hold | ⟨rfl, hn⟩
      · obtain ⟨before, between, m₀, rfl, hn, hbetween⟩ := ih hm hold
        refine ⟨before, between ++ [statement], m₀, by simp, hn, ?_⟩
        exact executeAll_append_eq_some.mpr ⟨m, hbetween, hlast⟩
      · have hrows : s.rows = m.rows := by
          cases hexecuted with
          | selected _ => rfl
          | selectFailed _ => rfl
        exact ⟨trace, [], s, by simp, by rw [hn, hrows], rfl⟩

/-- Undisturbed calls give every turn an index of its own. -/
theorem nodup_of_undisturbed {conversation : String × String}
    (h : executeAll calls {} trace = some s) (hquiet : Undisturbed calls trace conversation) :
    (indices s.rows conversation).Nodup := by
  induction trace using List.reverseRecOn generalizing s with
  | nil =>
      cases h
      exact List.nodup_nil
  | append_singleton trace statement ih =>
      obtain ⟨m, hm, hlast⟩ := executeAll_append_eq_some.mp h
      obtain ⟨m', hstep, hnil⟩ := executeAll_cons_eq_some.mp hlast
      cases hnil
      have hnodup := ih hm hquiet.init
      cases executed_of_execute hstep with
      | selected _ => exact hnodup
      | selectFailed _ => exact hnodup
      | @inserted i n hread hstorable =>
          rw [indices_append]
          split
          · rename_i hsame
            -- since the call read its index, no row of the conversation was added
            obtain ⟨before, between, m₀, rfl, rfl, hbetween⟩ := read_from hm hread
            have hindices := executeAll_indices_eq hbetween fun j hj => hquiet before between [] i
              (by simp) hsame hstorable j hj
            refine List.nodup_append.mpr ⟨hnodup, List.nodup_singleton _, ?_⟩
            rintro k hk _ hsingle rfl
            rw [List.mem_singleton] at hsingle
            rw [hindices, ← hsame] at hk
            exact absurd (lt_nextIndex hk) (by omega)
          · rw [List.append_nil]
            exact hnodup
      | insertFailed _ _ => exact hnodup

/-- A row inserted between the two statements of a call leads to an index that
is there twice. -/
theorem undisturbed_of_nodup {conversation : String × String}
    (h : executeAll calls {} trace = some s) (hnodup : (indices s.rows conversation).Nodup) :
    Undisturbed calls trace conversation := by
  rintro before between after i rfl hsame hstorable j hj hstorable' hsame'
  obtain ⟨s₀, hbefore, h⟩ := executeAll_append_eq_some.mp h
  obtain ⟨s₁, hselect, h⟩ := executeAll_cons_eq_some.mp h
  obtain ⟨s₂, hbetween, h⟩ := executeAll_append_eq_some.mp h
  obtain ⟨s₃, hinsert, hafter⟩ := executeAll_cons_eq_some.mp h
  obtain ⟨front, back, rfl⟩ := List.append_of_mem hj
  obtain ⟨s₄, hfront, hrest⟩ := executeAll_append_eq_some.mp hbetween
  obtain ⟨s₅, hother, hback⟩ := executeAll_cons_eq_some.mp hrest
  have hgapless := executeAll_gapless hbefore gapless_initial
  have hselected := executed_of_execute hselect
  have hgapless₁ := hselected.gapless hgapless
  have hgapless₂ := executeAll_gapless hbetween hgapless₁
  have hgapless₄ := executeAll_gapless hfront hgapless₁
  -- the row of `i` has the index read before the other row was there
  have hnodup₃ := executeAll_nodup hafter hnodup
  have hnodup₂ := hnodup₃.sublist ((executed_of_execute hinsert).indices_stay conversation).sublist
  have hnodup₅ := executeAll_nodup hback hnodup₂
  subst hsame
  cases executed_of_execute hinsert with
  | @inserted _ n hread _ =>
      have hn := hgapless₂.fresh hread hnodup₃
      cases executed_of_execute hother with
      | @inserted _ m hread' _ =>
          rw [← hsame'] at hnodup₅
          have hm := hgapless₄.fresh hread' hnodup₅
          have hmono := executeAll_nextIndex_le hfront (calls i).conversation
          have hmono' := executeAll_nextIndex_le hback (calls i).conversation
          rw [nextIndex_append, if_pos hsame'] at hmono'
          rw [hsame'] at hm
          cases hselected with
          | selected _ =>
              have hstart := executeAll_begun hbetween (k := nextIndex s₀.rows (calls i).conversation)
                ⟨by simp, by simp [eq_comm]⟩ hread
              dsimp only at hmono
              omega
          | selectFailed _ =>
              have hnone := executeAll_begun hbetween (k := n + 1) ⟨by simp, by simp⟩ hread
              omega
      | insertFailed _ hnot => simp [hstorable'] at hnot
  | insertFailed _ hnot => simp [hstorable] at hnot

/-- **Turn numbers.** After any interleaving of calls, the turns of a
conversation are numbered without gaps and without repetition exactly if no call
was disturbed. A call reads the last number and inserts the next one in two
statements; it is disturbed if another insertion into the conversation falls
between them. -/
theorem turns_numbered_iff (calls : ι → Turn) {trace : List (Statement ι)} {s : TurnTable ι}
    (h : executeAll calls {} trace = some s) (conversation : String × String) :
    Numbered s.rows conversation ↔ Undisturbed calls trace conversation := by
  rw [(executeAll_gapless h gapless_initial).numbered_iff]
  exact ⟨undisturbed_of_nodup h, nodup_of_undisturbed h⟩

end Threads

/-! ### Two turns -/

def twoTurns (second : Bool) : Turn :=
  ⟨"chat", "session", "user", if second then "Bye." else "Hello.", .aware ⟨1767258000000000, 0⟩⟩

/-- Both calls read before either of them writes: both turns have index 0. -/
theorem turns_repeated : ¬∀ (ι : Type) [DecidableEq ι] (calls : ι → Turn) (trace : List (Statement ι))
    (s : TurnTable ι), executeAll calls {} trace = some s →
    ∀ conversation, Numbered s.rows conversation := by
  intro h
  have hrun : executeAll twoTurns {} [.select false, .select true, .insert false, .insert true] =
      some ⟨[(twoTurns false).row 0, (twoTurns true).row 0], Function.update (Function.update
        (Function.update (Function.update (fun _ => .waiting) false (.read 0)) true (.read 0)) false
        .inserted) true .inserted⟩ := rfl
  have hnodup := (h Bool twoTurns _ _ hrun ("chat", "session")).1
  exact absurd hnodup (by decide)

/-- Two turns of one conversation, and one of another. -/
def threeTurns : Fin 3 → Turn
  | 0 => twoTurns false
  | 1 => twoTurns true
  | 2 => ⟨"mail", "session", "user", "Hi.", .aware ⟨1767258000000000, 0⟩⟩

/-- The other conversation comes between the two statements of the first call. -/
def threeStatements : List (Statement (Fin 3)) :=
  [.select 0, .select 2, .insert 2, .insert 0, .select 1, .insert 1]

/-- Three turns of two conversations whose statements alternate. No call is
disturbed by a turn of the other conversation, and the numbers have no gap. -/
theorem turns_numbered_iff_three : ∃ s, executeAll threeTurns {} threeStatements = some s ∧
    indices s.rows ("chat", "session") = [0, 1] ∧ indices s.rows ("mail", "session") = [0] ∧
    Undisturbed threeTurns threeStatements ("chat", "session") := by
  refine ⟨_, rfl, by decide, by decide, (turns_numbered_iff threeTurns rfl _).mp ⟨by decide, ?_⟩⟩
  intro n
  show n ∈ [0, 1] ↔ n < 2
  simp
  omega

/-! ### Calls one after another -/

/-- The statements of one call leave the rows that `add_turn_async` leaves. -/
theorem addTurnAsync_rows (s : EngineState) (turn : Turn) (uuids : Uuids) :
    ∃ trace table, executeAll (fun _ : Unit => turn) ⟨s.rows, fun _ => .waiting⟩ trace = some table ∧
      table.rows = (addTurnAsync s turn uuids).2.rows := by
  cases hselect : selectTurnIndex s.rows turn.conversation with
  | error e =>
      refine ⟨[.select ()], _, by simp only [executeAll, execute, hselect]; rfl, ?_⟩
      simp only [addTurnAsync, hselect]
  | ok n =>
      have hfirst : execute (fun _ : Unit => turn) ⟨s.rows, fun _ => .waiting⟩ (.select ()) =
          some ⟨s.rows, Function.update (fun _ => .waiting) () (.read n)⟩ := by
        simp only [execute, hselect]
      cases hinsert : insertTurn s.rows turn n with
      | error e =>
          refine ⟨[.select (), .insert ()],
            ⟨s.rows, Function.update (Function.update (fun _ => .waiting) () (.read n)) () .failed⟩, ?_, ?_⟩
          · rw [executeAll, hfirst, Option.bind_some, executeAll]
            simp only [execute, Function.update_self, hinsert]
            rfl
          · simp only [addTurnAsync, hselect, hinsert]
      | ok rows =>
          refine ⟨[.select (), .insert ()],
            ⟨rows, Function.update (Function.update (fun _ => .waiting) () (.read n)) () .inserted⟩, ?_, ?_⟩
          · rw [executeAll, hfirst, Option.bind_some, executeAll]
            simp only [execute, Function.update_self, hinsert]
            rfl
          · simp only [addTurnAsync, hselect, hinsert]
            split <;> rfl

end MemoryEngine

end ContextMemory
